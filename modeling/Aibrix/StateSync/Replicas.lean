import Aibrix.StateSync.Table

/-! # Replicas around one Redis

Every replica runs the cycles of `runOneSyncCycle`: a `Pull` of all entities, then a `pushDelta`. -/

namespace Aibrix.StateSync

open Lib RadixCache Function

variable {ι : Type} [DecidableEq ι] {codec : Codec}

inductive SyncPhase (codec : Codec) where
  | idle
  | pulling (left : List UInt64) (fetched : List (UInt64 × codec.Data))
  | pulled
  | pushing (updated : KeyMap UInt64 codec.Data) (left : List UInt64)

structure Replica (codec : Codec) where
  table : PrefixHashTable := {}
  phase : SyncPhase codec := .idle

structure Cluster (ι : Type) (codec : Codec) where
  replicas : ι → Replica codec := fun _ => {}
  redis : KeyMap UInt64 codec.Data := ∅
  /-- The blocks that others have written since the replica began its last pull. No step reads it. -/
  raced : ι → List UInt64 := fun _ => []

inductive Label (ι : Type) where
  | addPrefix (r : ι) (now : Int) (prefixHashes : List UInt64) (model pod : String)
  | scan (r : ι)
  | mget (r : ι) (hash : UInt64)
  | applyRemote (r : ι)
  | pullEnd (r : ι)
  | getDelta (r : ι)
  | setex (r : ι) (hash : UInt64)
  | pushEnd (r : ι)
  deriving DecidableEq

def Label.isAdd : Label ι → Bool
  | .addPrefix .. => true
  | _ => false

def Label.replica : Label ι → ι
  | .addPrefix r .. | .scan r | .mget r _ | .applyRemote r | .pullEnd r | .getDelta r | .setex r _ | .pushEnd r => r

namespace Replica

variable (rep : Replica codec)

def pullEnd : Option (Replica codec) :=
  match rep.phase with
  | .pulling [] [] => some { rep with phase := .pulled }
  | _ => none

def scan (keys : List UInt64) : Option (Replica codec) :=
  match rep.phase with
  | .idle => some { rep with phase := .pulling keys [] }
  | _ => none

def mget (hash : UInt64) (data : codec.Data) : Option (Replica codec) :=
  match rep.phase with
  | .pulling left fetched => some { rep with phase := .pulling (left.erase hash) (fetched ++ [(hash, data)]) }
  | _ => none

def applyRemote : Option (Replica codec) :=
  match rep.phase with
  | .pulling left ((hash, data) :: fetched) =>
    some { table := rep.table.applyRemoteForSync codec hash data, phase := .pulling left fetched }
  | _ => none

def getDelta : Option (Replica codec) :=
  match rep.phase with
  | .pulled =>
    let r := rep.table.getDeltaForSync codec
    some { table := r.1, phase := .pushing r.2 r.2.keys }
  | _ => none

/-- The bytes that go to Redis, and the replica after that. -/
def setex (hash : UInt64) : Option (codec.Data × Replica codec) :=
  match rep.phase with
  | .pushing updated left =>
    if hash ∈ left then
      (updated.lookup hash).map fun data => (data, { rep with phase := .pushing updated (left.erase hash) })
    else none
  | _ => none

def pushEnd : Option (Replica codec) :=
  match rep.phase with
  | .pushing updated [] =>
    some { table := if updated.keys = [] then rep.table else rep.table.clearDirtyForSync, phase := .idle }
  | _ => none

end Replica

section

open Option

namespace Cluster

variable (evictionDuration : Nat)

def set (s : Cluster ι codec) (r : ι) (rep : Replica codec) : Cluster ι codec :=
  { s with replicas := update s.replicas r rep }

def step (s : Cluster ι codec) : Label ι → Option (Cluster ι codec)
  | .addPrefix r now prefixHashes model pod =>
    let rep := s.replicas r
    some (s.set r { rep with table := rep.table.addPrefix evictionDuration now prefixHashes model pod })
  | .scan r => ((s.replicas r).scan s.redis.keys).map fun rep =>
      { s.set r rep with raced := update s.raced r [] }
  | .mget r hash => (s.redis.lookup hash).bind fun data => ((s.replicas r).mget hash data).map (s.set r)
  | .applyRemote r => (s.replicas r).applyRemote.map (s.set r)
  | .pullEnd r => (s.replicas r).pullEnd.map (s.set r)
  | .getDelta r => (s.replicas r).getDelta.map (s.set r)
  | .setex r hash => ((s.replicas r).setex hash).map fun (data, rep) =>
      { s.set r rep with
        redis := s.redis.insert hash data
        raced := fun r' => if r' = r then s.raced r' else hash :: s.raced r' }
  | .pushEnd r => (s.replicas r).pushEnd.map (s.set r)

/-- The addition drops no pod that has not used a block for long. -/
def Unpruned (s : Cluster ι codec) : Label ι → Prop
  | .addPrefix r now prefixHashes model _ => ∀ hash ∈ prefixHashes,
      ∀ pods ∈ ((s.replicas r).table.store.lookup hash).bind (·.lookup model),
        ∀ e ∈ pods.entries, now - evictionDuration ≤ e.2
  | _ => True

/-- No addition is older than what the replica knows of the pod, and no block is written that another replica has written
since the pull began. -/
def Calm (s : Cluster ι codec) : Label ι → Prop
  | .addPrefix r now prefixHashes model pod => ∀ hash ∈ prefixHashes,
      ∀ accessed ∈ (s.replicas r).table.accessed hash model pod, accessed ≤ now
  | .setex r hash => hash ∉ s.raced r
  | _ => True

instance (s : Cluster ι codec) (label : Label ι) : Decidable (s.Unpruned evictionDuration label) := by
  unfold Unpruned
  cases label with
  | addPrefix => exact List.decidableBAll _ _
  | _ => exact isTrue trivial

instance (s : Cluster ι codec) (label : Label ι) : Decidable (s.Calm label) := by
  unfold Calm
  cases label with
  | addPrefix => exact List.decidableBAll _ _
  | setex r hash => exact inferInstanceAs (Decidable (¬ hash ∈ s.raced r))
  | _ => exact isTrue trivial

inductive Run (allowed : Cluster ι codec → Label ι → Prop) : Cluster ι codec → List (Label ι) → Cluster ι codec → Prop
  | nil (s) : Run allowed s [] s
  | cons {s s' s'' label labels} : s.step evictionDuration label = some s' → allowed s label →
      Run allowed s' labels s'' → Run allowed s (label :: labels) s''

def runIf (allowed : Cluster ι codec → Label ι → Prop) [∀ s label, Decidable (allowed s label)] :
    Cluster ι codec → List (Label ι) → Option (Cluster ι codec)
  | s, [] => some s
  | s, label :: labels =>
    if allowed s label then (s.step evictionDuration label).bind fun s' => runIf allowed s' labels else none

theorem run_of_runIf {allowed : Cluster ι codec → Label ι → Prop} [∀ s label, Decidable (allowed s label)]
    {s s' : Cluster ι codec} {labels : List (Label ι)} (h : s.runIf evictionDuration allowed labels = some s') :
    Run evictionDuration allowed s labels s' := by
  induction labels generalizing s with
  | nil =>
    cases h
    exact .nil _
  | cons label labels ih =>
    unfold runIf at h
    split at h
    · rename_i hal
      obtain ⟨s₁, hst, hrs⟩ := bind_eq_some_iff.1 h
      exact .cons hst hal (ih hrs)
    · cases h

end Cluster

/-! ## The steps of one replica -/

/-- What a step that adds nothing does to its own replica, and to Redis. -/
inductive Move (redis : KeyMap UInt64 codec.Data) (raced : List UInt64) :
    Replica codec → KeyMap UInt64 codec.Data → List UInt64 → Replica codec → Prop
  | scan (t) : Move redis raced ⟨t, .idle⟩ redis [] ⟨t, .pulling redis.keys []⟩
  | mget (t left fetched) {hash data} : redis.lookup hash = some data →
      Move redis raced ⟨t, .pulling left fetched⟩ redis raced
        ⟨t, .pulling (left.erase hash) (fetched ++ [(hash, data)])⟩
  | applyRemote (t left hash data fetched) : Move redis raced ⟨t, .pulling left ((hash, data) :: fetched)⟩ redis raced
      ⟨t.applyRemoteForSync codec hash data, .pulling left fetched⟩
  | pullEnd (t) : Move redis raced ⟨t, .pulling [] []⟩ redis raced ⟨t, .pulled⟩
  | getDelta (t) : Move redis raced ⟨t, .pulled⟩ redis raced
      ⟨(t.getDeltaForSync codec).1, .pushing (t.getDeltaForSync codec).2 (t.getDeltaForSync codec).2.keys⟩
  | setex (t updated left) {hash data} : hash ∉ raced → hash ∈ left → updated.lookup hash = some data →
      Move redis raced ⟨t, .pushing updated left⟩ (redis.insert hash data) raced
        ⟨t, .pushing updated (left.erase hash)⟩
  | pushEnd (t updated) : Move redis raced ⟨t, .pushing updated []⟩ redis raced
      ⟨if updated.keys = [] then t else t.clearDirtyForSync, .idle⟩

section

variable {redis : KeyMap UInt64 codec.Data} {raced : List UInt64} {rep rep' : Replica codec} {hash : UInt64}
  {data : codec.Data}

theorem Move.of_scan (h : rep.scan redis.keys = some rep') : Move redis raced rep redis [] rep' := by
  obtain ⟨t, phase⟩ := rep
  unfold Replica.scan at h
  split at h
  · rename_i hph
    cases hph
    cases h
    exact .scan t
  · cases h

theorem Move.of_mget (hdt : redis.lookup hash = some data) (h : rep.mget hash data = some rep') :
    Move redis raced rep redis raced rep' := by
  obtain ⟨t, phase⟩ := rep
  unfold Replica.mget at h
  split at h
  · rename_i left fetched hph
    cases hph
    cases h
    exact .mget t left fetched hdt
  · cases h

theorem Move.of_applyRemote (h : rep.applyRemote = some rep') : Move redis raced rep redis raced rep' := by
  obtain ⟨t, phase⟩ := rep
  unfold Replica.applyRemote at h
  split at h
  · rename_i left hash data fetched hph
    cases hph
    cases h
    exact .applyRemote t left hash data fetched
  · cases h

theorem Move.of_pullEnd (h : rep.pullEnd = some rep') : Move redis raced rep redis raced rep' := by
  obtain ⟨t, phase⟩ := rep
  unfold Replica.pullEnd at h
  split at h
  · rename_i hph
    cases hph
    cases h
    exact .pullEnd t
  · cases h

theorem Move.of_getDelta (h : rep.getDelta = some rep') : Move redis raced rep redis raced rep' := by
  obtain ⟨t, phase⟩ := rep
  unfold Replica.getDelta at h
  split at h
  · rename_i hph
    cases hph
    cases h
    exact .getDelta t
  · cases h

theorem Move.of_setex (hcl : hash ∉ raced) (h : rep.setex hash = some (data, rep')) :
    Move redis raced rep (redis.insert hash data) raced rep' := by
  obtain ⟨t, phase⟩ := rep
  unfold Replica.setex at h
  split at h
  · rename_i updated left hph
    cases hph
    split at h
    · rename_i hlf
      obtain ⟨data', hdt, heq⟩ := map_eq_some_iff.1 h
      cases heq
      exact .setex t updated left hcl hlf hdt
    · cases h
  · cases h

theorem Move.of_pushEnd (h : rep.pushEnd = some rep') : Move redis raced rep redis raced rep' := by
  obtain ⟨t, phase⟩ := rep
  unfold Replica.pushEnd at h
  split at h
  · rename_i updated hph
    cases hph
    cases h
    exact .pushEnd t updated
  · cases h

end

structure Moves (s s' : Cluster ι codec) (r : ι) : Prop where
  move : Move s.redis (s.raced r) (s.replicas r) s'.redis (s'.raced r) (s'.replicas r)
  apart : ∀ r' ≠ r, s'.replicas r' = s.replicas r' ∧ (s'.redis = s.redis ∧ s'.raced r' = s.raced r' ∨
    ∃ hash data, s'.redis = s.redis.insert hash data ∧ s'.raced r' = hash :: s.raced r')

namespace Cluster

variable {evictionDuration : Nat} {s s' : Cluster ι codec} {label : Label ι} {r : ι}

theorem moves_set {rep : Replica codec} (h : Move s.redis (s.raced r) (s.replicas r) s.redis (s.raced r) rep) :
    Moves s (s.set r rep) r := by
  refine ⟨?_, fun r' hne => ⟨update_of_ne hne _ _, .inl ⟨rfl, rfl⟩⟩⟩
  dsimp only [set]
  rw [update_self]
  exact h

theorem moves_of_step (hst : s.step evictionDuration label = some s') (hcl : s.Calm label)
    (hadd : label.isAdd = false) : Moves s s' label.replica := by
  cases label with
  | addPrefix => cases hadd
  | scan r =>
    obtain ⟨rep, hrep, rfl⟩ := map_eq_some_iff.1 hst
    refine ⟨?_, fun r' hne => ⟨update_of_ne hne _ _, .inl ⟨rfl, update_of_ne hne _ _⟩⟩⟩
    dsimp only [set, Label.replica]
    rw [update_self, update_self]
    exact .of_scan hrep
  | mget r hash =>
    obtain ⟨data, hdt, hmap⟩ := bind_eq_some_iff.1 hst
    obtain ⟨rep, hrep, rfl⟩ := map_eq_some_iff.1 hmap
    exact moves_set (.of_mget hdt hrep)
  | applyRemote r =>
    obtain ⟨rep, hrep, rfl⟩ := map_eq_some_iff.1 hst
    exact moves_set (.of_applyRemote hrep)
  | pullEnd r =>
    obtain ⟨rep, hrep, rfl⟩ := map_eq_some_iff.1 hst
    exact moves_set (.of_pullEnd hrep)
  | getDelta r =>
    obtain ⟨rep, hrep, rfl⟩ := map_eq_some_iff.1 hst
    exact moves_set (.of_getDelta hrep)
  | setex r hash =>
    obtain ⟨⟨data, rep⟩, hrep, rfl⟩ := map_eq_some_iff.1 hst
    refine ⟨?_, fun r' hne => ⟨update_of_ne hne _ _, .inr ⟨hash, data, rfl, if_neg hne⟩⟩⟩
    dsimp only [set, Label.replica]
    rw [update_self, if_pos rfl]
    exact .of_setex hcl hrep
  | pushEnd r =>
    obtain ⟨rep, hrep, rfl⟩ := map_eq_some_iff.1 hst
    exact moves_set (.of_pushEnd hrep)

end Cluster

end

/-! ## What holds of one replica

Where no push overwrites what its replica has not pulled, access times only grow, in every table and in Redis. -/

open List PrefixHashTable

variable {codec : Codec}

abbrev Times := UInt64 → String → String → WithBot Int

abbrev Adds := UInt64 → String → String → Int → Prop

def payload (data : codec.Data) (model pod : String) : WithBot Int :=
  (codec.decode data).elim ⊥ fun b => Block.time b model pod

variable (redis : KeyMap UInt64 codec.Data)

def redisTime : Times :=
  fun hash model pod => (redis.lookup hash).elim ⊥ fun data => payload data model pod

theorem payload_encode (b : Block) (model pod : String) :
    payload (codec.encode b) model pod = Block.time b model pod := by
  obtain ⟨b', hdc, hsm⟩ := codec.round b
  unfold payload
  rw [hdc]
  exact hsm.time model pod

theorem redisTime_of_lookup {redis : KeyMap UInt64 codec.Data} {hash : UInt64} {data : codec.Data}
    (h : redis.lookup hash = some data) (model pod : String) : redisTime redis hash model pod = payload data model pod := by
  unfold redisTime
  rw [h]
  rfl

theorem redisTime_insert (hash hash' : UInt64) (data : codec.Data)
    (model pod : String) : redisTime (redis.insert hash data) hash' model pod =
      if hash' = hash then payload data model pod else redisTime redis hash' model pod := by
  unfold redisTime
  rw [KeyMap.lookup_insert_eq]
  split <;> rfl

theorem payload_applyRemoteForSync (t : PrefixHashTable) (hash hash' : UInt64) (data : codec.Data) (model pod : String) :
    (t.applyRemoteForSync codec hash data).time hash' model pod =
      if hash' = hash then max (t.time hash model pod) (payload data model pod) else t.time hash' model pod := by
  cases hdc : codec.decode data with
  | none =>
    have hsm : t.applyRemoteForSync codec hash data = t := by
      unfold applyRemoteForSync
      rw [hdc]
    have hpy : payload data model pod = ⊥ := by
      unfold payload
      rw [hdc]
      rfl
    rw [hsm, hpy, max_eq_left bot_le]
    split
    · rename_i heq
      rw [heq]
    · rfl
  | some b =>
    rw [time_applyRemoteForSync hdc]
    unfold payload
    rw [hdc]
    rfl

theorem time_le_applyRemoteForSync (t : PrefixHashTable) (hash hash' : UInt64) (data : codec.Data) (model pod : String) :
    t.time hash' model pod ≤ (t.applyRemoteForSync codec hash data).time hash' model pod := by
  rw [payload_applyRemoteForSync]
  split
  · rename_i heq
    rw [heq]
    exact le_max_left _ _
  · exact le_rfl

/-! ## A pull -/

/-- Of every block but some, what is at least as late as `low` is still to be read, or read, or merged. -/
def Pulls (low : Times) (raced : List UInt64) (t : PrefixHashTable) (left : List UInt64)
    (fetched : List (UInt64 × codec.Data)) : Prop :=
  ∀ hash ∉ raced, hash ∈ left ∨
    (∃ data, (hash, data) ∈ fetched ∧ ∀ model pod, low hash model pod ≤ payload data model pod) ∨
    ∀ model pod, low hash model pod ≤ t.time hash model pod

section

variable {low : Times} {raced : List UInt64} {t t' : PrefixHashTable} {left : List UInt64}
  {fetched : List (UInt64 × codec.Data)} {redis : KeyMap UInt64 codec.Data} {hash : UInt64} {data : codec.Data}

theorem Pulls.mono (h : Pulls low raced t left fetched)
    (hle : ∀ hash model pod, t.time hash model pod ≤ t'.time hash model pod) : Pulls low raced t' left fetched :=
  fun hash hnot => (h hash hnot).imp_right fun h => h.imp_right fun h model pod =>
    (h model pod).trans (hle hash model pod)

theorem Pulls.scan (hlow : ∀ hash model pod, low hash model pod ≤ redisTime redis hash model pod) :
    Pulls low raced t redis.keys ([] : List (UInt64 × codec.Data)) := by
  intro hash _
  by_cases hkey : hash ∈ redis.keys
  · exact .inl hkey
  refine .inr (.inr fun model pod => (hlow hash model pod).trans ?_)
  have hnn : redis.lookup hash = none := AList.lookup_eq_none.2 hkey
  unfold redisTime
  rw [hnn]
  exact bot_le

theorem Pulls.mget (h : Pulls low raced t left fetched)
    (hlow : ∀ hash model pod, low hash model pod ≤ redisTime redis hash model pod) (hdt : redis.lookup hash = some data) :
    Pulls low raced t (left.erase hash) (fetched ++ [(hash, data)]) := by
  intro hash' hnot
  by_cases heq : hash' = hash
  · subst heq
    refine .inr (.inl ⟨data, by simp, fun model pod => ?_⟩)
    rw [← redisTime_of_lookup hdt]
    exact hlow hash' model pod
  · refine (h hash' hnot).imp (mem_erase_of_ne heq).2 (.imp_left ?_)
    rintro ⟨data', hmem, hle⟩
    exact ⟨data', mem_append_left _ hmem, hle⟩

theorem Pulls.applyRemote (h : Pulls low raced t left ((hash, data) :: fetched)) :
    Pulls low raced (t.applyRemoteForSync codec hash data) left fetched := by
  intro hash' hnot
  rcases h hash' hnot with hlf | ⟨data', hmem, hle⟩ | hle
  · exact .inl hlf
  · rcases mem_cons.1 hmem with heq | hmem
    · cases heq
      refine .inr (.inr fun model pod => ?_)
      rw [payload_applyRemoteForSync, if_pos rfl]
      exact (hle model pod).trans (le_max_right _ _)
    · exact .inr (.inl ⟨data', hmem, hle⟩)
  · exact .inr (.inr fun model pod => (hle model pod).trans (time_le_applyRemoteForSync t hash hash' data model pod))

theorem Pulls.done (h : Pulls low raced t [] ([] : List (UInt64 × codec.Data))) (hash : UInt64) (hnot : hash ∉ raced)
    (model pod : String) : low hash model pod ≤ t.time hash model pod := by
  have hdn := h hash hnot
  simp only [not_mem_nil, false_and, exists_false, false_or] at hdn
  exact hdn model pod

end

/-! ## A push -/

/-- The bytes of a block are not older than what Redis has until they are written, and not newer from then on. -/
structure Pushes (adds : Adds) (redis : Times) (raced : List UInt64) (t : PrefixHashTable)
    (updated : KeyMap UInt64 codec.Data) (left : List UInt64) : Prop where
  ahead : ∀ hash ∈ left, hash ∉ raced → ∀ data, updated.lookup hash = some data →
    ∀ model pod, redis hash model pod ≤ payload data model pod
  written : ∀ hash ∉ left, ∀ data, updated.lookup hash = some data →
    ∀ model pod, payload data model pod ≤ redis hash model pod
  covers : ∀ hash seq, t.dirtyIds.lookup hash = some seq → seq ≤ t.deltaSeq → ∃ data, updated.lookup hash = some data ∧
    ∀ model pod added, adds hash model pod added → (added : WithBot Int) ≤ payload data model pod

def PhaseInv (adds : Adds) (redis : Times) (raced : List UInt64) (t : PrefixHashTable) : SyncPhase codec → Prop
  | .idle => True
  | .pulling left fetched => Pulls redis raced t left fetched
  | .pulled => Pulls redis raced t [] ([] : List (UInt64 × codec.Data))
  | .pushing updated left => Pushes adds redis raced t updated left

structure ReplicaInv (adds : Adds) (redis : Times) (raced : List UInt64) (rep : Replica codec) : Prop where
  ok : rep.table.Ok
  own : ∀ hash model pod added, adds hash model pod added → (added : WithBot Int) ≤ rep.table.time hash model pod
  clean : ∀ hash model pod added, adds hash model pod added → rep.table.dirtyIds.lookup hash = none →
    (added : WithBot Int) ≤ redis hash model pod
  phase : PhaseInv adds redis raced rep.table rep.phase

section

variable {adds : Adds} {redis redis' : Times} {raced : List UInt64} {rep : Replica codec}

theorem ReplicaInv.write (h : ReplicaInv adds redis raced rep) (hash : UInt64)
    (hle : ∀ hash model pod, redis hash model pod ≤ redis' hash model pod)
    (hot : ∀ hash' ≠ hash, redis' hash' = redis hash') : ReplicaInv adds redis' (hash :: raced) rep := by
  have hpl : ∀ {t left} {fetched : List (UInt64 × codec.Data)}, Pulls redis raced t left fetched →
      Pulls redis' (hash :: raced) t left fetched := by
    intro t left fetched hpl hash' hnot
    rw [mem_cons, not_or] at hnot
    rw [hot hash' hnot.1]
    exact hpl hash' hnot.2
  refine ⟨h.ok, h.own, fun hash model pod added hadd hcl => ?_, ?_⟩
  · exact (h.clean hash model pod added hadd hcl).trans (hle hash model pod)
  have hph := h.phase
  revert hph
  cases rep.phase with
  | idle => exact id
  | pulling left fetched | pulled => exact hpl
  | pushing updated left =>
    intro hph
    refine ⟨fun hash' hlf hnot => ?_, fun hash' hlf data hdt model pod => ?_, hph.covers⟩
    · rw [mem_cons, not_or] at hnot
      rw [hot hash' hnot.1]
      exact hph.ahead hash' hlf hnot.2
    · exact (hph.written hash' hlf data hdt model pod).trans (hle hash' model pod)

theorem ReplicaInv.addPrefix {adds' : Adds} (h : ReplicaInv adds redis raced rep) (ttl : Nat) (now : Int)
    (hashes : List UInt64) (model pod : String) (hadds : ∀ hash' model' pod' added, adds' hash' model' pod' added ↔
      adds hash' model' pod' added ∨ hash' ∈ hashes ∧ model' = model ∧ pod' = pod ∧ added = now)
    (hle : ∀ hash' model' pod', rep.table.time hash' model' pod' ≤
      (rep.table.addPrefix ttl now hashes model pod).time hash' model' pod') : ReplicaInv adds' redis raced
      { rep with table := rep.table.addPrefix ttl now hashes model pod } := by
  have had := h.ok.addPrefix ttl now hashes model pod
  have hold : ∀ {hash' model' pod' added}, hash' ∉ hashes → adds' hash' model' pod' added →
      adds hash' model' pod' added := by
    intro hash' model' pod' added hnot hadd
    exact ((hadds hash' model' pod' added).1 hadd).resolve_right fun hnew => hnot hnew.1
  refine ⟨had.ok, fun hash' model' pod' added hadd => ?_, fun hash' model' pod' added hadd hcl => ?_, ?_⟩
  · rcases (hadds hash' model' pod' added).1 hadd with hadd | ⟨hin, rfl, rfl, rfl⟩
    · exact (h.own hash' model' pod' added hadd).trans (hle hash' model' pod')
    · rw [time_addPrefix, if_pos ⟨hin, rfl⟩, if_pos rfl]
  · have hnot : hash' ∉ hashes := by
      intro hin
      obtain ⟨seq, hseq, -⟩ := had.dirty hash' hin
      rw [hseq] at hcl
      cases hcl
    rw [had.others hash' hnot] at hcl
    exact h.clean hash' model' pod' added (hold hnot hadd) hcl
  have hph := h.phase
  revert hph
  cases rep.phase with
  | idle => exact id
  | pulling left fetched | pulled => exact fun hph => hph.mono hle
  | pushing updated left =>
    intro hph
    refine ⟨hph.ahead, hph.written, fun hash' seq hseq hcut => ?_⟩
    rw [had.deltaSeq] at hcut
    by_cases hin : hash' ∈ hashes
    · obtain ⟨seq', hseq', hlt⟩ := had.dirty hash' hin
      rw [hseq', Option.some.injEq] at hseq
      have := h.ok.delta
      omega
    · rw [had.others hash' hin] at hseq
      obtain ⟨data, hdt, hcv⟩ := hph.covers hash' seq hseq hcut
      exact ⟨data, hdt, fun model' pod' added hadd => hcv model' pod' added (hold hin hadd)⟩

end

section

variable {adds : Adds} {raced : List UInt64} {t : PrefixHashTable} {redis : KeyMap UInt64 codec.Data}
  {updated : KeyMap UInt64 codec.Data} {left : List UInt64} {hash : UInt64} {data : codec.Data}

theorem payload_getDeltaForSync (hdt : (t.getDeltaForSync codec).2.lookup hash = some data) (model pod : String) :
    payload data model pod = t.time hash model pod := by
  rw [lookup_getDeltaForSync, Option.bind_eq_some_iff] at hdt
  obtain ⟨-, -, hmap⟩ := hdt
  obtain ⟨b, hb, rfl⟩ := Option.map_eq_some_iff.1 hmap
  rw [payload_encode]
  unfold time
  rw [hb]
  rfl

theorem Pushes.getDelta (h : ReplicaInv adds (redisTime redis) raced (⟨t, .pulled⟩ : Replica codec)) :
    let r := t.getDeltaForSync codec
    Pushes adds (redisTime redis) raced r.1 r.2 r.2.keys := by
  refine ⟨fun hash _ hnot data hdt model pod => ?_, fun hash hnot data hdt => ?_, fun hash seq hseq _ => ?_⟩
  · rw [payload_getDeltaForSync hdt]
    exact Pulls.done h.phase hash hnot model pod
  · exact absurd (AList.lookup_isSome.1 (Option.isSome_of_eq_some hdt)) hnot
  have hseq' : t.dirtyIds.lookup hash = some seq := hseq
  obtain ⟨b, hb⟩ := Option.isSome_iff_exists.1 (h.ok.dirty hash seq hseq').2
  have hdt : (t.getDeltaForSync codec).2.lookup hash = some (codec.encode b) := by
    rw [lookup_getDeltaForSync, hseq', hb]
    rfl
  refine ⟨_, hdt, fun model pod added hadd => ?_⟩
  rw [payload_getDeltaForSync hdt]
  exact h.own hash model pod added hadd

theorem Pushes.setex (h : Pushes adds (redisTime redis) raced t updated left) (hdt : updated.lookup hash = some data) :
    Pushes adds (redisTime (redis.insert hash data)) raced t updated (left.erase hash) := by
  refine ⟨fun hash' hlf hnot data' hdt' model pod => ?_, fun hash' hlf data' hdt' model pod => ?_, h.covers⟩
  · rw [redisTime_insert]
    split
    · rename_i heq
      rw [heq, hdt] at hdt'
      cases hdt'
      exact le_rfl
    · exact h.ahead hash' (mem_of_mem_erase hlf) hnot data' hdt' model pod
  · rw [redisTime_insert]
    split
    · rename_i heq
      rw [heq, hdt] at hdt'
      cases hdt'
      exact le_rfl
    · rename_i hne
      exact h.written hash' (fun hin => hlf ((mem_erase_of_ne hne).2 hin)) data' hdt' model pod

theorem Pushes.clean (h : ReplicaInv adds (redisTime redis) raced (⟨t, .pushing updated []⟩ : Replica codec))
    {model pod : String} {added : Int} (hadd : adds hash model pod added)
    (hcl : t.clearDirtyForSync.dirtyIds.lookup hash = none) : (added : WithBot Int) ≤ redisTime redis hash model pod := by
  cases hdr : t.dirtyIds.lookup hash with
  | none => exact h.clean hash model pod added hadd hdr
  | some seq =>
    have hle : seq ≤ t.deltaSeq := by
      by_contra hlt
      rw [lookup_clearDirtyForSync.2 ⟨hdr, not_le.1 hlt⟩] at hcl
      cases hcl
    have hph : Pushes adds (redisTime redis) raced t updated [] := h.phase
    obtain ⟨data, hdt, hcv⟩ := hph.covers hash seq hdr hle
    exact (hcv model pod added hadd).trans (hph.written hash not_mem_nil data hdt model pod)

end

section

variable {adds : Adds} {redis redis' : KeyMap UInt64 codec.Data} {raced raced' : List UInt64} {rep rep' : Replica codec}

theorem Move.redisTime_le (hmv : Move redis raced rep redis' raced' rep')
    (h : ReplicaInv adds (redisTime redis) raced rep) (hash : UInt64) (model pod : String) :
    redisTime redis hash model pod ≤ redisTime redis' hash model pod := by
  cases hmv with
  | setex t updated left hcl hlf hdt =>
    rw [redisTime_insert]
    split
    · rename_i heq
      subst heq
      have hph : Pushes adds (redisTime redis) raced t updated left := h.phase
      exact hph.ahead hash hlf hcl _ hdt model pod
    · exact le_rfl
  | _ => exact le_rfl

theorem ReplicaInv.move (h : ReplicaInv adds (redisTime redis) raced rep)
    (hmv : Move redis raced rep redis' raced' rep') : ReplicaInv adds (redisTime redis') raced' rep' := by
  have hrd := hmv.redisTime_le h
  cases hmv with
  | scan t => exact ⟨h.ok, h.own, h.clean, Pulls.scan fun _ _ _ => le_rfl⟩
  | mget t left fetched hdt => exact ⟨h.ok, h.own, h.clean, Pulls.mget h.phase (fun _ _ _ => le_rfl) hdt⟩
  | applyRemote t left hash data fetched =>
    refine ⟨h.ok.applyRemoteForSync hash data, fun hash' model pod added hadd => ?_, ?_, Pulls.applyRemote h.phase⟩
    · exact (h.own hash' model pod added hadd).trans (time_le_applyRemoteForSync t hash hash' data model pod)
    · rw [(applyRemoteForSync_frame t hash data).1]
      exact h.clean
  | pullEnd t => exact ⟨h.ok, h.own, h.clean, h.phase⟩
  | getDelta t => exact ⟨h.ok.getDeltaForSync codec, h.own, h.clean, Pushes.getDelta h⟩
  | setex t updated left hcm hlf hdt =>
    refine ⟨h.ok, h.own, fun hash model pod added hadd hcl => ?_, Pushes.setex h.phase hdt⟩
    exact (h.clean hash model pod added hadd hcl).trans (hrd hash model pod)
  | pushEnd t updated =>
    split
    · exact ⟨h.ok, h.own, h.clean, trivial⟩
    · exact ⟨h.ok.clearDirtyForSync, h.own, fun hash model pod added hadd hcl => Pushes.clean h hadd hcl, trivial⟩

end

end Aibrix.StateSync
