import Aibrix.StateSync.Replicas
import Mathlib.Order.MinMax
import Mathlib.Order.Bounds.Basic

/-! # What holds of all replicas

Every replica has what it added, and no time comes from nowhere.
-/

namespace Aibrix.StateSync

open Lib RadixCache List Function

variable {ι : Type} {codec : Codec}

def From (known : Adds) (hash : UInt64) (times : String → String → WithBot Int) : Prop :=
  ∀ model pod (t : Int), times model pod = t → known hash model pod t

def PhaseFrom (known : Adds) : SyncPhase codec → Prop
  | .idle => True
  | .pulling _ fetched => ∀ hash data, (hash, data) ∈ fetched → From known hash (payload data)
  | .pulled => True
  | .pushing updated _ => ∀ hash data, updated.lookup hash = some data → From known hash (payload data)

structure Sourced (known : Adds) (rep : Replica codec) : Prop where
  table : ∀ hash, From known hash (rep.table.time hash)
  phase : PhaseFrom known rep.phase

section

variable {known : Adds} {redis redis' : KeyMap UInt64 codec.Data} {raced raced' : List UInt64} {rep rep' : Replica codec}

theorem From.applyRemoteForSync {t : PrefixHashTable} {hash : UInt64} {data : codec.Data}
    (h : ∀ hash, From known hash (t.time hash)) (hdt : From known hash (payload data)) (hash' : UInt64) :
    From known hash' ((t.applyRemoteForSync codec hash data).time hash') := by
  intro model pod added heq
  rw [payload_applyRemoteForSync] at heq
  split at heq
  · rename_i hhs
    subst hhs
    rcases max_choice (t.time hash' model pod) (payload data model pod) with hmax | hmax
    · exact h hash' model pod added (hmax.symm.trans heq)
    · exact hdt model pod added (hmax.symm.trans heq)
  · exact h hash' model pod added heq

theorem Sourced.move (h : Sourced known rep) (hrd : ∀ hash, From known hash (redisTime redis hash))
    (hmv : Move redis raced rep redis' raced' rep') :
    Sourced known rep' ∧ ∀ hash, From known hash (redisTime redis' hash) := by
  cases hmv with
  | scan t => exact ⟨⟨h.table, fun _ _ hmem => absurd hmem not_mem_nil⟩, hrd⟩
  | mget t left fetched hdt =>
    refine ⟨⟨h.table, fun hash data hmem => ?_⟩, hrd⟩
    rcases mem_append.1 hmem with hmem | hmem
    · exact h.phase hash data hmem
    cases mem_singleton.1 hmem
    intro model pod added heq
    rw [← redisTime_of_lookup hdt] at heq
    exact hrd _ model pod added heq
  | applyRemote t left hash data fetched =>
    refine ⟨⟨From.applyRemoteForSync h.table (h.phase hash data (mem_cons_self ..)), fun hash' data' hmem => ?_⟩, hrd⟩
    exact h.phase hash' data' (mem_cons_of_mem _ hmem)
  | pullEnd t => exact ⟨⟨h.table, trivial⟩, hrd⟩
  | getDelta t =>
    refine ⟨⟨h.table, fun hash data hdt model pod added heq => ?_⟩, hrd⟩
    rw [payload_getDeltaForSync hdt] at heq
    exact h.table hash model pod added heq
  | setex t updated left hcl hlf hdt =>
    refine ⟨⟨h.table, h.phase⟩, fun hash' model pod added heq => ?_⟩
    rw [redisTime_insert] at heq
    split at heq
    · rename_i hhs
      subst hhs
      exact h.phase hash' _ hdt model pod added heq
    · exact hrd hash' model pod added heq
  | pushEnd t updated =>
    refine ⟨⟨?_, trivial⟩, hrd⟩
    split <;> exact h.table

end

/-! ## A run -/

def Added (labels : List (Label ι)) (r : ι) : Adds := fun hash model pod t =>
  ∃ hashes, .addPrefix r t hashes model pod ∈ labels ∧ hash ∈ hashes

def Known (labels : List (Label ι)) : Adds := fun hash model pod t => ∃ r, Added labels r hash model pod t

variable {labels : List (Label ι)} {hashes : List UInt64} {model pod : String} {now : Int} {known : Adds}

theorem added_snoc_of_not_isAdd {label : Label ι} (hadd : label.isAdd = false) :
    Added (labels ++ [label]) = Added labels := by
  funext r hash model pod t
  refine propext (exists_congr fun hashes => and_congr_left fun _ => ?_)
  rw [mem_append, mem_singleton]
  refine or_iff_left fun heq => ?_
  rw [← heq] at hadd
  cases hadd

theorem known_snoc_of_not_isAdd {label : Label ι} (hadd : label.isAdd = false) :
    Known (labels ++ [label]) = Known labels := by
  unfold Known
  rw [added_snoc_of_not_isAdd hadd]

theorem added_snoc {r : ι} (r' : ι) (hash' : UInt64) (model' pod' : String) (added : Int) :
    Added (labels ++ [.addPrefix r now hashes model pod]) r' hash' model' pod' added ↔
      Added labels r' hash' model' pod' added ∨
        r' = r ∧ hash' ∈ hashes ∧ model' = model ∧ pod' = pod ∧ added = now := by
  constructor
  · rintro ⟨hashes', hmem, hin⟩
    rcases mem_append.1 hmem with hmem | hmem
    · exact .inl ⟨hashes', hmem, hin⟩
    · cases mem_singleton.1 hmem
      exact .inr ⟨rfl, hin, rfl, rfl, rfl⟩
  · rintro (⟨hashes', hmem, hin⟩ | ⟨rfl, hin, rfl, rfl, rfl⟩)
    · exact ⟨hashes', mem_append_left _ hmem, hin⟩
    · exact ⟨hashes, by simp, hin⟩

open PrefixHashTable

theorem PrefixHashTable.time_le_addPrefix {t : PrefixHashTable} {evictionDuration : Nat}
    (hun : ∀ hash ∈ hashes, ∀ pods ∈ (t.store.lookup hash).bind (·.lookup model), ∀ e ∈ pods.entries,
      now - evictionDuration ≤ e.2) (hcl : ∀ hash ∈ hashes, ∀ accessed ∈ t.accessed hash model pod, accessed ≤ now)
    (hash' : UInt64) (model' pod' : String) :
    t.time hash' model' pod' ≤ (t.addPrefix evictionDuration now hashes model pod).time hash' model' pod' := by
  rw [time_addPrefix]
  split
  · rename_i hin
    obtain ⟨hin, rfl⟩ := hin
    rw [time_eq_stamp]
    cases hac : t.accessed hash' model' pod' with
    | none => exact bot_le
    | some accessed =>
      split
      · rename_i heq
        subst heq
        exact WithBot.coe_le_coe.2 (hcl hash' hin accessed hac)
      have hfr : ¬ accessed < now - evictionDuration := by
        obtain ⟨block, hbl, hpd⟩ := Option.bind_eq_some_iff.1 hac
        obtain ⟨pods, hpd, hpod⟩ := Option.bind_eq_some_iff.1 hpd
        refine (hun hash' hin pods ?_ ⟨pod', accessed⟩ (AList.mem_lookup_iff.1 hpod)).not_gt
        rw [hbl]
        exact hpd
      change (accessed : WithBot Int) ≤ fresh _ (accessed : WithBot Int)
      rw [fresh_coe, if_neg hfr]
  · exact le_rfl

theorem From.mono {known' : Adds} {hash : UInt64} {times : String → String → WithBot Int}
    (h : From known hash times) (hle : ∀ hash model pod t, known hash model pod t → known' hash model pod t) :
    From known' hash times :=
  fun model pod t heq => hle hash model pod t (h model pod t heq)

theorem Sourced.mono {known' : Adds} {rep : Replica codec} (h : Sourced known rep)
    (hle : ∀ hash model pod t, known hash model pod t → known' hash model pod t) : Sourced known' rep := by
  refine ⟨fun hash => (h.table hash).mono hle, ?_⟩
  have hph := h.phase
  revert hph
  cases rep.phase with
  | idle => exact id
  | pulling left fetched => exact fun hph hash data hmem => (hph hash data hmem).mono hle
  | pulled => exact id
  | pushing updated left => exact fun hph hash data hdt => (hph hash data hdt).mono hle

theorem Sourced.addPrefix {rep : Replica codec} (h : Sourced known rep) (ttl : Nat)
    (hkn : ∀ hash ∈ hashes, known hash model pod now) :
    Sourced known { rep with table := rep.table.addPrefix ttl now hashes model pod } := by
  refine ⟨fun hash' model' pod' added heq => ?_, h.phase⟩
  rw [time_addPrefix] at heq
  split at heq
  · rename_i hin
    obtain ⟨hin, rfl⟩ := hin
    split at heq
    · rename_i hpod
      rw [hpod, ← WithBot.coe_inj.1 heq]
      exact hkn hash' hin
    rcases fresh_eq _ _ with hfr | hfr
    · rw [hfr] at heq
      exact absurd heq WithBot.bot_ne_coe
    · rw [hfr] at heq
      exact h.table hash' model' pod' added heq
  · exact h.table hash' model' pod' added heq

namespace Cluster

structure Inv (labels : List (Label ι)) (s : Cluster ι codec) : Prop where
  replica : ∀ r, ReplicaInv (Added labels r) (redisTime s.redis) (s.raced r) (s.replicas r)
  sourced : ∀ r, Sourced (Known labels) (s.replicas r)
  redis : ∀ hash, From (Known labels) hash (redisTime s.redis hash)

theorem Inv.init : Inv [] ({} : Cluster ι codec) where
  replica _ := ⟨.new, fun _ _ _ _ ⟨_, hmem, _⟩ => absurd hmem not_mem_nil,
    fun _ _ _ _ ⟨_, hmem, _⟩ => absurd hmem not_mem_nil, trivial⟩
  sourced _ := ⟨fun _ _ _ _ heq => absurd heq WithBot.bot_ne_coe, trivial⟩
  redis _ _ _ _ heq := absurd heq WithBot.bot_ne_coe

section

variable {labels : List (Label ι)} {s s' : Cluster ι codec} {r : ι}

theorem Inv.redisTime_le (h : s.Inv labels) (hmv : Moves s s' r) (hash : UInt64) (model pod : String) :
    redisTime s.redis hash model pod ≤ redisTime s'.redis hash model pod :=
  hmv.move.redisTime_le (h.replica r) hash model pod

theorem Inv.moves (h : s.Inv labels) (hmv : Moves s s' r) : s'.Inv labels := by
  obtain ⟨hsr, hrd⟩ := (h.sourced r).move h.redis hmv.move
  refine ⟨fun r' => ?_, fun r' => ?_, hrd⟩
  · by_cases hr : r' = r
    · subst hr
      exact (h.replica r').move hmv.move
    obtain ⟨hrep, hsm | ⟨hash, data, hin, hrc⟩⟩ := hmv.apart r' hr
    · rw [hrep, hsm.1, hsm.2]
      exact h.replica r'
    rw [hrep, hrc]
    refine (h.replica r').write hash (h.redisTime_le hmv) fun hash' hne => ?_
    funext model pod
    rw [hin, redisTime_insert, if_neg hne]
  · by_cases hr : r' = r
    · subst hr
      exact hsr
    · rw [(hmv.apart r' hr).1]
      exact h.sourced r'

end

variable [DecidableEq ι] {evictionDuration : Nat} {labels rest : List (Label ι)} {s s' : Cluster ι codec}
  {label : Label ι} {r : ι}

variable (h : s.Inv labels)
include h

theorem Inv.addPrefix {now : Int} {hashes : List UInt64} {model pod : String}
    (hst : s.step evictionDuration (.addPrefix r now hashes model pod) = some s')
    (hun : s.Unpruned evictionDuration (.addPrefix r now hashes model pod))
    (hcl : s.Calm (.addPrefix r now hashes model pod)) : s'.Inv (labels ++ [.addPrefix r now hashes model pod]) := by
  cases hst
  have hmr : ∀ hash' model' pod' added, Known labels hash' model' pod' added →
      Known (labels ++ [.addPrefix r now hashes model pod]) hash' model' pod' added := by
    rintro hash' model' pod' added ⟨r', hadd⟩
    exact ⟨r', (added_snoc r' hash' model' pod' added).2 (.inl hadd)⟩
  refine ⟨fun r' => ?_, fun r' => ?_, fun hash => (h.redis hash).mono hmr⟩
  · by_cases hr : r' = r
    · subst hr
      dsimp only [set]
      rw [update_self]
      refine (h.replica r').addPrefix evictionDuration now hashes model pod (fun hash' model' pod' added => ?_) ?_
      · rw [added_snoc, eq_self_iff_true, true_and]
      · exact time_le_addPrefix hun hcl
    · dsimp only [set]
      rw [update_of_ne hr]
      have hsm : Added (labels ++ [.addPrefix r now hashes model pod]) r' = Added labels r' := by
        funext hash' model' pod' added
        rw [added_snoc, eq_false hr, false_and, or_false]
      rw [hsm]
      exact h.replica r'
  · by_cases hr : r' = r
    · subst hr
      dsimp only [set]
      rw [update_self]
      refine ((h.sourced r').mono hmr).addPrefix evictionDuration fun hash hin => ?_
      exact ⟨r', (added_snoc r' hash model pod now).2 (.inr ⟨rfl, hin, rfl, rfl, rfl⟩)⟩
    · dsimp only [set]
      rw [update_of_ne hr]
      exact (h.sourced r').mono hmr

def Allowed (evictionDuration : Nat) (s : Cluster ι codec) (label : Label ι) : Prop :=
  s.Unpruned evictionDuration label ∧ s.Calm label

instance (s : Cluster ι codec) (label : Label ι) : Decidable (s.Allowed evictionDuration label) :=
  inferInstanceAs (Decidable (_ ∧ _))

theorem Inv.step (hst : s.step evictionDuration label = some s')
    (hal : s.Allowed evictionDuration label) : s'.Inv (labels ++ [label]) := by
  cases hadd : label.isAdd with
  | true =>
    cases label with
    | addPrefix r now hashes model pod => exact h.addPrefix hst hal.1 hal.2
    | _ => cases hadd
  | false =>
    have hsm : s'.Inv labels := h.moves (moves_of_step hst hal.2 hadd)
    refine ⟨?_, ?_, ?_⟩
    · rw [added_snoc_of_not_isAdd hadd]
      exact hsm.replica
    · rw [known_snoc_of_not_isAdd hadd]
      exact hsm.sourced
    · rw [known_snoc_of_not_isAdd hadd]
      exact hsm.redis

theorem Inv.run (hrun : Run evictionDuration (Allowed evictionDuration) s rest s') :
    s'.Inv (labels ++ rest) := by
  induction hrun generalizing labels with
  | nil s =>
    rw [append_nil]
    exact h
  | cons hst hal hrun ih =>
    have hrs := ih (h.step hst hal)
    rw [append_assoc] at hrs
    exact hrs

end Cluster

/-! ## Replicas that agree in the end

A block that is not dirty is in Redis as it was last added, so that one more pull brings it to every replica. -/

open Option

namespace Cluster

variable {ι : Type} {codec : Codec} {labels rest : List (Label ι)} {s s' : Cluster ι codec} {label : Label ι} {r : ι}

def Stable (labels : List (Label ι)) (P : Cluster ι codec → Prop) : Prop :=
  ∀ s s' r, s.Inv labels → Moves s s' r → P s → P s'

theorem stable_inv : Stable labels fun s : Cluster ι codec => s.Inv labels := fun _ _ _ _ hmv h => h.moves hmv

theorem stable_of_move {P : Replica codec → Prop} (r : ι)
    (hP : ∀ {adds redis raced rep redis' raced' rep'}, ReplicaInv adds (redisTime redis) raced rep →
      Move redis raced rep redis' raced' rep' → P rep → P rep') :
    Stable labels fun s : Cluster ι codec => P (s.replicas r) := by
  intro s s' r' hinv hmv h
  by_cases hr : r = r'
  · subst hr
    exact hP (hinv.replica r) hmv.move h
  · rw [(hmv.apart r hr).1]
    exact h

def Draining (rep : Replica codec) : Prop :=
  match rep.phase with
  | .pushing _ _ => ∀ hash seq, rep.table.dirtyIds.lookup hash = some seq → seq ≤ rep.table.deltaSeq
  | _ => True

def Drained (rep : Replica codec) : Prop := ∀ hash, rep.table.dirtyIds.lookup hash = none

theorem stable_draining (r : ι) : Stable labels fun s : Cluster ι codec => Draining (s.replicas r) := by
  refine stable_of_move r fun hinv hmv h => ?_
  cases hmv with
  | getDelta t => exact fun hash seq hseq => (hinv.ok.dirty hash seq hseq).1
  | setex t updated left hcl hlf hdt => exact h
  | _ => trivial

open PrefixHashTable

theorem drained_clearDirtyForSync {t : PrefixHashTable} (h : ∀ hash seq, t.dirtyIds.lookup hash = some seq → seq ≤ t.deltaSeq)
    (hash : UInt64) : t.clearDirtyForSync.dirtyIds.lookup hash = none := by
  cases hdr : t.clearDirtyForSync.dirtyIds.lookup hash with
  | none => rfl
  | some seq =>
    obtain ⟨hseq, hlt⟩ := lookup_clearDirtyForSync.1 hdr
    exact absurd (h hash seq hseq) hlt.not_ge

theorem stable_drained (r : ι) : Stable labels fun s : Cluster ι codec => Drained (s.replicas r) := by
  refine stable_of_move r fun _ hmv h => ?_
  cases hmv with
  | applyRemote t left hash data fetched =>
    unfold Drained
    rw [(applyRemoteForSync_frame t hash data).1]
    exact h
  | pushEnd t updated =>
    split
    · exact h
    · refine drained_clearDirtyForSync fun hash seq hseq => ?_
      rw [h hash] at hseq
      cases hseq
  | _ => exact h

/-! ## One more pull -/

variable (low : Times)

def CatchesUp (rep : Replica codec) : Prop :=
  match rep.phase with
  | .pulling left fetched => Pulls low [] rep.table left fetched
  | _ => True

def CaughtUp (rep : Replica codec) : Prop :=
  ∀ hash model pod, low hash model pod ≤ rep.table.time hash model pod

theorem stable_redisTime :
    Stable labels fun s : Cluster ι codec => ∀ hash model pod, low hash model pod ≤ redisTime s.redis hash model pod :=
  fun _ _ _ hinv hmv h hash model pod => (h hash model pod).trans (hinv.redisTime_le hmv hash model pod)

theorem CatchesUp.move {low : Times} {redis redis' : KeyMap UInt64 codec.Data} {raced raced' : List UInt64}
    {rep rep' : Replica codec} (h : CatchesUp low rep)
    (hlow : ∀ hash model pod, low hash model pod ≤ redisTime redis hash model pod)
    (hmv : Move redis raced rep redis' raced' rep') : CatchesUp low rep' := by
  cases hmv with
  | scan t => exact Pulls.scan hlow
  | mget t left fetched hdt => exact Pulls.mget h hlow hdt
  | applyRemote t left hash data fetched => exact Pulls.applyRemote h
  | _ => trivial

theorem stable_catchesUp (r : ι) : Stable labels fun s : Cluster ι codec =>
    (∀ hash model pod, low hash model pod ≤ redisTime s.redis hash model pod) ∧ CatchesUp low (s.replicas r) := by
  intro s s' r' hinv hmv h
  refine ⟨stable_redisTime low s s' r' hinv hmv h.1, ?_⟩
  by_cases hr : r = r'
  · subst hr
    exact h.2.move h.1 hmv.move
  · rw [(hmv.apart r hr).1]
    exact h.2

theorem stable_caughtUp (r : ι) : Stable labels fun s : Cluster ι codec => CaughtUp low (s.replicas r) := by
  refine stable_of_move r fun _ hmv h => ?_
  cases hmv with
  | applyRemote t left hash data fetched =>
    intro hash' model pod
    exact (h hash' model pod).trans (time_le_applyRemoteForSync t hash hash' data model pod)
  | pushEnd t updated =>
    split <;> exact h
  | _ => exact h

/-! ## A run without additions -/

variable [DecidableEq ι] {evictionDuration : Nat}

theorem Run.split {allowed : Cluster ι codec → Label ι → Prop} {first : List (Label ι)}
    (h : Run evictionDuration allowed s (first ++ rest) s') :
    ∃ s₁, Run evictionDuration allowed s first s₁ ∧ Run evictionDuration allowed s₁ rest s' := by
  induction first generalizing s with
  | nil => exact ⟨s, .nil s, h⟩
  | cons label first ih =>
    cases h with
    | cons hst hal hrun =>
      obtain ⟨s₁, hfr, hrs⟩ := ih hrun
      exact ⟨s₁, .cons hst hal hfr, hrs⟩

section

variable {P Q R : Cluster ι codec → Prop} (hqt : ∀ label ∈ rest, label.isAdd = false)
  (hrun : Run evictionDuration (Allowed evictionDuration) s rest s') (hinv : s.Inv labels) (h : P s)
include hqt hrun hinv h

theorem Stable.run (hst : Stable labels P) : P s' := by
  induction hrun with
  | nil s => exact h
  | cons hsp hal hrun ih =>
    have hmv := moves_of_step hsp hal.2 (hqt _ (mem_cons_self ..))
    exact ih (fun label hmem => hqt label (mem_cons_of_mem _ hmem)) (hinv.moves hmv) (hst _ _ _ hinv hmv h)

theorem Stable.mark (hP : Stable labels P) (hQ : Stable labels Q)
    (hmr : ∀ s s' : Cluster ι codec, s.Inv labels → s.step evictionDuration label = some s' → P s → Q s')
    (hmem : label ∈ rest) : Q s' := by
  obtain ⟨first, last, rfl⟩ := append_of_mem hmem
  obtain ⟨s₁, hfr, hls⟩ := hrun.split
  have hqt₁ : ∀ label ∈ first, label.isAdd = false := fun label hmem => hqt label (mem_append_left _ hmem)
  have hinv₁ := stable_inv.run hqt₁ hfr hinv hinv
  cases hls with
  | cons hst hal hls =>
    have hmv := moves_of_step hst hal.2 (hqt _ hmem)
    refine hQ.run (fun label hmem => hqt label ?_) hls (hinv₁.moves hmv) ?_
    · exact mem_append_right _ (mem_cons_of_mem _ hmem)
    · exact hmr _ _ hinv₁ hst (hP.run hqt₁ hfr hinv h)

theorem Stable.mark₂ {label' : Label ι} (hP : Stable labels P) (hQ : Stable labels Q) (hR : Stable labels R)
    (hmr : ∀ s s' : Cluster ι codec, s.Inv labels → s.step evictionDuration label = some s' → P s → Q s')
    (hmr' : ∀ s s' : Cluster ι codec, s.Inv labels → s.step evictionDuration label' = some s' → Q s → R s')
    (hsub : [label, label'].Sublist rest) : R s' := by
  obtain ⟨first, last, rfl, hmem, hsub'⟩ := cons_sublist_iff.1 hsub
  obtain ⟨s₁, hfr, hls⟩ := hrun.split
  have hqt₁ : ∀ label ∈ first, label.isAdd = false := fun label hmem => hqt label (mem_append_left _ hmem)
  have hqt₂ : ∀ label ∈ last, label.isAdd = false := fun label hmem => hqt label (mem_append_right _ hmem)
  refine hQ.mark hqt₂ hls (stable_inv.run hqt₁ hfr hinv hinv) ?_ hR hmr' (singleton_sublist.1 hsub')
  exact hP.mark hqt₁ hfr hinv h hQ hmr hmem

end

theorem replicas_of_map {f : Option (Replica codec)} (h : f.map (s.set r) = some s') : f = some (s'.replicas r) := by
  obtain ⟨rep, hrep, rfl⟩ := map_eq_some_iff.1 h
  rw [hrep]
  dsimp only [set]
  rw [update_self]

theorem draining_of_scan (hst : s.step evictionDuration (.scan r) = some s') : Draining (s'.replicas r) := by
  obtain ⟨rep, hrep, rfl⟩ := map_eq_some_iff.1 hst
  unfold Replica.scan at hrep
  split at hrep
  · cases hrep
    dsimp only [set]
    rw [update_self]
    trivial
  · cases hrep

theorem drained_of_pushEnd (hinv : s.Inv labels) (hst : s.step evictionDuration (.pushEnd r) = some s')
    (h : Draining (s.replicas r)) : Drained (s'.replicas r) := by
  have hrep := replicas_of_map hst
  have hph := (hinv.replica r).phase
  unfold Replica.pushEnd at hrep
  unfold Draining at h
  split at hrep
  · rename_i updated hps
    rw [hps] at h hph
    rw [← some.inj hrep]
    intro hash
    split
    · rename_i hem
      cases hdr : (s.replicas r).table.dirtyIds.lookup hash with
      | none => rfl
      | some seq =>
        obtain ⟨data, hdt, -⟩ := hph.covers hash seq hdr (h hash seq hdr)
        have hmem : hash ∈ updated.keys := AList.lookup_isSome.1 (isSome_of_eq_some hdt)
        rw [hem] at hmem
        cases hmem
    · exact drained_clearDirtyForSync h hash
  · cases hrep

theorem catchesUp_of_scan {low : Times} (hlow : ∀ hash model pod, low hash model pod ≤ redisTime s.redis hash model pod)
    (hst : s.step evictionDuration (.scan r) = some s') :
    (∀ hash model pod, low hash model pod ≤ redisTime s'.redis hash model pod) ∧ CatchesUp low (s'.replicas r) := by
  obtain ⟨rep, hrep, rfl⟩ := map_eq_some_iff.1 hst
  refine ⟨hlow, ?_⟩
  unfold Replica.scan at hrep
  split at hrep
  · cases hrep
    dsimp only [set]
    rw [update_self]
    exact Pulls.scan hlow
  · cases hrep

theorem caughtUp_of_pullEnd {low : Times} (h : CatchesUp low (s.replicas r))
    (hst : s.step evictionDuration (.pullEnd r) = some s') : CaughtUp low (s'.replicas r) := by
  have hrep := replicas_of_map hst
  unfold Replica.pullEnd at hrep
  unfold CatchesUp at h
  split at hrep
  · rename_i hpl
    rw [hpl] at h
    rw [← some.inj hrep]
    intro hash model pod
    exact Pulls.done h hash not_mem_nil model pod
  · cases hrep

section

variable {before cycles pulls : List (Label ι)} {s₁ s₂ s₃ : Cluster ι codec}

theorem drained_of_cycles (hinv : s₁.Inv before) (hqt : ∀ label ∈ cycles, label.isAdd = false)
    (hrun : Run evictionDuration (Allowed evictionDuration) s₁ cycles s₂)
    (hcy : [.scan r, .pushEnd r].Sublist cycles) : Drained (s₂.replicas r) :=
  stable_inv.mark₂ hqt hrun hinv hinv (stable_draining r) (stable_drained r)
    (fun _ _ _ hst _ => draining_of_scan hst) (fun _ _ hinv hst h => drained_of_pushEnd hinv hst h) hcy

theorem caughtUp_of_pulls (hinv : s₂.Inv before) (hqt : ∀ label ∈ pulls, label.isAdd = false)
    (hrun : Run evictionDuration (Allowed evictionDuration) s₂ pulls s₃)
    (hpl : [.scan r, .pullEnd r].Sublist pulls) : CaughtUp (redisTime s₂.redis) (s₃.replicas r) :=
  (stable_redisTime _).mark₂ hqt hrun hinv (fun _ _ _ => le_rfl) (stable_catchesUp _ r) (stable_caughtUp _ r)
    (fun _ _ _ hst h => catchesUp_of_scan h hst) (fun _ _ _ hst h => caughtUp_of_pullEnd h.2 hst) hpl

/-- After a full cycle of every replica, and then a pull of every replica, all have the latest time of every addition. -/
theorem replicas_agree (hbefore : Run evictionDuration (Allowed evictionDuration) {} before s₁)
    (hcycles : Run evictionDuration (Allowed evictionDuration) s₁ cycles s₂)
    (hpulls : Run evictionDuration (Allowed evictionDuration) s₂ pulls s₃)
    (hquiet : ∀ label ∈ cycles ++ pulls, label.isAdd = false) (hcycle : ∀ r, [.scan r, .pushEnd r].Sublist cycles)
    (hpull : ∀ r, [.scan r, .pullEnd r].Sublist pulls) {hash : UInt64} {model pod : String} {added : Int}
    (hadd : Known before hash model pod added) :
    ∃ latest : Int, IsGreatest {t | Known before hash model pod t} latest ∧
      ∀ r, (s₃.replicas r).table.accessed hash model pod = some latest := by
  have hquiet₁ : ∀ label ∈ cycles, label.isAdd = false := fun label hmem => hquiet label (mem_append_left _ hmem)
  have hquiet₂ : ∀ label ∈ pulls, label.isAdd = false := fun label hmem => hquiet label (mem_append_right _ hmem)
  have hinv₁ : s₁.Inv before := Inv.init.run hbefore
  have hinv₂ : s₂.Inv before := stable_inv.run hquiet₁ hcycles hinv₁ hinv₁
  have hinv₃ : s₃.Inv before := stable_inv.run hquiet₂ hpulls hinv₂ hinv₂
  have hle : ∀ r t, Known before hash model pod t → (t : WithBot Int) ≤ (s₃.replicas r).table.time hash model pod := by
    rintro r t ⟨r', hadd'⟩
    have hredis := (hinv₂.replica r').clean hash model pod t hadd'
      (drained_of_cycles hinv₁ hquiet₁ hcycles (hcycle r') hash)
    exact hredis.trans (caughtUp_of_pulls hinv₂ hquiet₂ hpulls (hpull r) hash model pod)
  have hlatest : ∀ r, ∃ latest, (s₃.replicas r).table.accessed hash model pod = some latest ∧
      IsGreatest {t | Known before hash model pod t} latest := by
    intro r
    obtain ⟨latest, heq⟩ := WithBot.ne_bot_iff_exists.1 fun hbot =>
      absurd (hbot ▸ hle r added hadd) (WithBot.bot_lt_coe added).not_ge
    have haccessed : (s₃.replicas r).table.accessed hash model pod = some latest := by
      rw [← stamp_eq_coe, ← time_eq_stamp, heq]
    refine ⟨latest, haccessed, (hinv₃.sourced r).table hash model pod latest heq.symm, fun t ht => ?_⟩
    have hlet := hle r t ht
    rw [← heq, WithBot.coe_le_coe] at hlet
    exact hlet
  obtain ⟨r₀, -⟩ := hadd
  obtain ⟨latest, -, hgreatest⟩ := hlatest r₀
  refine ⟨latest, hgreatest, fun r => ?_⟩
  obtain ⟨latest', heq, hgreatest'⟩ := hlatest r
  rw [heq, hgreatest'.unique hgreatest]

end

/-! ## Two replicas -/

def plain : Codec where
  Data := PodTable Int
  encode := id
  decode := some
  round b := ⟨b, rfl, fun _ => rfl, fun _ _ => rfl⟩

/-- Each of two replicas adds the same block, for a pod of its own. -/
def twoAdditions : List (Label Bool) := [.addPrefix false 1 [7] "m" "a", .addPrefix true 2 [7] "m" "b"]

def firstCycle (r : Bool) : List (Label Bool) := [.scan r, .pullEnd r, .getDelta r, .setex r 7, .pushEnd r]

def pullOfOne (r : Bool) : List (Label Bool) := [.scan r, .mget r 7, .applyRemote r, .pullEnd r]

def inTurn : List (Label Bool) := firstCycle false ++ pullOfOne true ++ [.getDelta true, .setex true 7, .pushEnd true]

def bothPullFirst : List (Label Bool) :=
  [.scan false, .pullEnd false, .scan true, .pullEnd true, .getDelta false, .setex false 7, .pushEnd false,
    .getDelta true, .setex true 7, .pushEnd true]

/-- A replica with a slow clock adds a block between its pull and its push. -/
def slowClock : List (Label Bool) :=
  [.addPrefix false 100 [7] "m" "a"] ++ firstCycle false ++ pullOfOne true ++ [.addPrefix true 50 [7] "m" "a"] ++
    [.getDelta true, .setex true 7, .pushEnd true]

def emptyCycle (r : Bool) : List (Label Bool) := pullOfOne r ++ [.getDelta r, .pushEnd r]

def bothPull : List (Label Bool) := pullOfOne false ++ pullOfOne true

section

variable (evictionDuration : Nat) (allowed : Cluster Bool plain → Label Bool → Prop)
  [∀ s label, Decidable (allowed s label)] (before cycles pulls : List (Label Bool))

def runThree : Option (Cluster Bool plain) :=
  ((runIf evictionDuration allowed {} before).bind (runIf evictionDuration allowed · cycles)).bind
    (runIf evictionDuration allowed · pulls)

theorem runs_of_runThree (P : Cluster Bool plain → Prop) [DecidablePred P]
    (h : (runThree evictionDuration allowed before cycles pulls).any (fun s => decide (P s)) = true) :
    ∃ s₁ s₂ s₃, Run evictionDuration allowed {} before s₁ ∧ Run evictionDuration allowed s₁ cycles s₂ ∧
      Run evictionDuration allowed s₂ pulls s₃ ∧ P s₃ := by
  cases hth : runThree evictionDuration allowed before cycles pulls with
  | none =>
    rw [hth] at h
    cases h
  | some s₃ =>
    rw [hth] at h
    obtain ⟨s₂, htwo, h₃⟩ := bind_eq_some_iff.1 hth
    obtain ⟨s₁, h₁, h₂⟩ := bind_eq_some_iff.1 htwo
    exact ⟨s₁, s₂, s₃, run_of_runIf _ h₁, run_of_runIf _ h₂, run_of_runIf _ h₃, of_decide_eq_true h⟩

end

theorem replicas_agree_inTurn :
    ∃ s₁ s₂ s₃ : Cluster Bool plain, Run 1200 (Allowed 1200) {} twoAdditions s₁ ∧ Run 1200 (Allowed 1200) s₁ inTurn s₂ ∧
      Run 1200 (Allowed 1200) s₂ bothPull s₃ ∧ ∃ latest : Int,
        IsGreatest {t | Known twoAdditions 7 "m" "a" t} latest ∧ ∀ r, (s₃.replicas r).table.accessed 7 "m" "a" = some latest := by
  have hadd : Known twoAdditions 7 "m" "a" 1 := ⟨false, [7], by decide, by decide⟩
  obtain ⟨s₁, s₂, s₃, h₁, h₂, h₃, -⟩ := runs_of_runThree 1200 (Allowed 1200) twoAdditions inTurn bothPull
    (fun _ => True) (by decide)
  exact ⟨s₁, s₂, s₃, h₁, h₂, h₃, replicas_agree h₁ h₂ h₃ (by decide) (by decide) (by decide) hadd⟩

theorem replicas_disagree : (∃ s₁ s₂ s₃ : Cluster Bool plain, Run 1200 (Unpruned 1200) {} twoAdditions s₁ ∧
      Run 1200 (Unpruned 1200) s₁ bothPullFirst s₂ ∧ Run 1200 (Unpruned 1200) s₂ bothPull s₃ ∧
      (∀ label ∈ bothPullFirst ++ bothPull, label.isAdd = false) ∧
      (∀ r, [.scan r, .pushEnd r].Sublist bothPullFirst) ∧ (∀ r, [.scan r, .pullEnd r].Sublist bothPull) ∧
      (s₃.replicas false).table.accessed 7 "m" "a" = some 1 ∧ (s₃.replicas true).table.accessed 7 "m" "a" = none) ∧
    ∃ s₁ s₂ s₃ : Cluster Bool plain, Run 1200 (Unpruned 1200) {} slowClock s₁ ∧
      Run 1200 (Unpruned 1200) s₁ (emptyCycle false ++ emptyCycle true) s₂ ∧ Run 1200 (Unpruned 1200) s₂ bothPull s₃ ∧
      (∀ label ∈ emptyCycle false ++ emptyCycle true ++ bothPull, label.isAdd = false) ∧
      (∀ r, [.scan r, .pushEnd r].Sublist (emptyCycle false ++ emptyCycle true)) ∧
      (∀ r, [.scan r, .pullEnd r].Sublist bothPull) ∧
      (s₃.replicas false).table.accessed 7 "m" "a" = some 100 ∧ (s₃.replicas true).table.accessed 7 "m" "a" = some 50 := by
  constructor
  · obtain ⟨s₁, s₂, s₃, h₁, h₂, h₃, htimes⟩ := runs_of_runThree 1200 (Unpruned 1200) twoAdditions bothPullFirst bothPull
      (fun s => (s.replicas false).table.accessed 7 "m" "a" = some 1 ∧
        (s.replicas true).table.accessed 7 "m" "a" = none) (by decide)
    exact ⟨s₁, s₂, s₃, h₁, h₂, h₃, by decide, by decide, by decide, htimes⟩
  obtain ⟨s₁, s₂, s₃, h₁, h₂, h₃, htimes⟩ := runs_of_runThree 1200 (Unpruned 1200) slowClock
    (emptyCycle false ++ emptyCycle true) bothPull
    (fun s => (s.replicas false).table.accessed 7 "m" "a" = some 100 ∧
      (s.replicas true).table.accessed 7 "m" "a" = some 50) (by decide)
  exact ⟨s₁, s₂, s₃, h₁, h₂, h₃, by decide, by decide, by decide, htimes⟩

/-! ## Where access times come from -/

/-- Every time that a replica or Redis holds was added by a replica. -/
def Attributed (labels : List (Label ι)) (s : Cluster ι codec) : Prop :=
  (∀ r, Sourced (Known labels) (s.replicas r)) ∧ ∀ hash, From (Known labels) hash (redisTime s.redis hash)

theorem Attributed.step (h : s.Attributed labels) (hst : s.step evictionDuration label = some s') :
    s'.Attributed (labels ++ [label]) := by
  have hkn : ∀ hash model pod t, Known labels hash model pod t → Known (labels ++ [label]) hash model pod t := by
    rintro hash model pod t ⟨r, hashes, hmem, hin⟩
    exact ⟨r, hashes, mem_append_left _ hmem, hin⟩
  have hsr := fun r => (h.1 r).mono hkn
  have hrd := fun hash => (h.2 hash).mono hkn
  have hmove : ∀ r raced raced', Move s.redis raced (s.replicas r) s'.redis raced' (s'.replicas r) →
      (∀ r' ≠ r, s'.replicas r' = s.replicas r') → s'.Attributed (labels ++ [label]) := by
    intro r raced raced' hmv hap
    obtain ⟨hsr', hrd'⟩ := (hsr r).move hrd hmv
    refine ⟨fun r' => ?_, hrd'⟩
    by_cases hr : r' = r
    · exact hr ▸ hsr'
    · exact hap r' hr ▸ hsr r'
  cases label with
  | addPrefix r now hashes model pod =>
    cases hst
    refine ⟨fun r' => ?_, hrd⟩
    by_cases hr : r' = r
    · subst hr
      simpa [set] using (hsr r').addPrefix evictionDuration fun hash hin => ⟨r', hashes, by simp, hin⟩
    · simpa [set, hr] using hsr r'
  | setex r hash =>
    -- The block may have been written since the pull, so the race is left out of the move.
    obtain ⟨⟨data, rep⟩, hrep, rfl⟩ := map_eq_some_iff.1 hst
    refine hmove r [] [] ?_ fun r' hne => update_of_ne hne _ _
    simpa [set] using Move.of_setex not_mem_nil hrep
  | _ =>
    have hmv := moves_of_step hst trivial rfl
    exact hmove _ _ _ hmv.move fun r' hne => (hmv.apart r' hne).1

theorem Attributed.run {allowed : Cluster ι codec → Label ι → Prop} (h : s.Attributed labels)
    (hrun : Run evictionDuration allowed s rest s') : s'.Attributed (labels ++ rest) := by
  induction hrun generalizing labels with
  | nil => simpa using h
  | cons hst _ _ ih => simpa using ih (h.step hst)

/-- Also where replicas overwrite each other's blocks, nobody learns of a use that no replica has added. -/
theorem synced_times_added {allowed : Cluster ι codec → Label ι → Prop} (h : Run evictionDuration allowed {} labels s) :
    (∀ r hash, From (Known labels) hash ((s.replicas r).table.time hash)) ∧
      ∀ hash, From (Known labels) hash (redisTime s.redis hash) := by
  obtain ⟨hsr, hrd⟩ : s.Attributed labels := Attributed.run ⟨Inv.init.sourced, Inv.init.redis⟩ h
  exact ⟨fun r => (hsr r).table, hrd⟩

theorem synced_times_added_race : ∃ s : Cluster Bool plain, Run 1200 (fun _ _ => True) {} slowClock s ∧
    ∀ hash, From (Known slowClock) hash (redisTime s.redis hash) := by
  obtain ⟨s, _, _, h, -⟩ := runs_of_runThree 1200 (fun _ _ => True) slowClock [] [] (fun _ => True) (by decide)
  exact ⟨s, h, (synced_times_added h).2⟩

end Cluster

end Aibrix.StateSync
