import Aibrix.RoleSet.StatelessRuns

/-! # The slots of a stateful role stay served -/

namespace Aibrix.RoleSet.Stateful

open Lib List Function Pod

variable {H : Type} [DecidableEq H]

/-! ## What a pass deletes -/

omit [DecidableEq H] in
theorem slots_length (role : Role H) (l : List (Pod H)) : (podSlotForRole role l).1.length = role.replicas := by
  simp [podSlotForRole]

theorem redundantPods_subset (templateHash : H) (slot : List (Pod H)) : redundantPods templateHash slot ⊆ slot := by
  have hrd : ∀ q, (readyPods slot).filter q ⊆ slot := fun _ _ hp => mem_of_mem_filter (mem_of_mem_filter hp)
  have hnotReady : ∀ q, (notReadyPods slot).filter q ⊆ slot :=
    fun _ _ hp => mem_of_mem_filter (mem_of_mem_filter hp)
  refine append_subset.2 ⟨hnotReady _, ?_⟩
  split_ifs
  · exact append_subset.2 ⟨fun _ hp => hrd _ (mem_of_mem_drop hp), fun _ hp => hnotReady _ (mem_of_mem_drop hp)⟩
  · exact append_subset.2 ⟨append_subset.2 ⟨hrd _, hnotReady _⟩, fun _ hp => hrd _ (mem_of_mem_drop hp)⟩

theorem scale_delete_subset (role : Role H) (l : List (Pod H)) : (scale role l).delete ⊆ l := by
  refine append_subset.2 ⟨append_subset.2 ⟨?_, ?_⟩, ?_⟩
  · exact fun _ hp => mem_of_mem_filter (mem_of_mem_filter hp)
  · exact fun _ hp => mem_of_mem_filter (mem_of_mem_filter hp)
  intro p hp
  obtain ⟨slot, hsl, hp⟩ := mem_flatMap.1 hp
  obtain ⟨i, -, rfl⟩ := mem_map.1 hsl
  split_ifs at hp
  · exact mem_of_mem_filter (mem_of_mem_filter (redundantPods_subset _ _ hp))
  · exact absurd hp not_mem_nil

variable {templateHash : H} {slots : List (List (Pod H) × Nat)} {deleteBudget createBudget : Int} {role : Role H} {p : Pod H}

theorem mem_rolloutSlots (h : p ∈ (rolloutSlots templateHash slots deleteBudget createBudget).2) :
    ∃ i, ([p], i) ∈ slots := by
  fun_induction rolloutSlots templateHash slots deleteBudget createBudget with
  | case1 => exact absurd h not_mem_nil
  | case2 _ _ _ _ _ _ ih | case5 _ _ _ _ _ _ _ _ _ _ ih | case6 _ _ _ _ _ _ _ _ _ ih | case7 _ _ _ _ _ ih =>
    obtain ⟨i, hsl⟩ := ih h
    exact ⟨i, mem_cons_of_mem _ hsl⟩
  | case3 _ i _ _ _ _ _ _ ih | case4 _ i _ _ _ _ _ _ _ ih =>
    rcases mem_cons.1 h with rfl | h
    · exact ⟨i, mem_cons_self⟩
    · obtain ⟨i, hsl⟩ := ih h
      exact ⟨i, mem_cons_of_mem _ hsl⟩

theorem mem_rollout {l : List (Pod H)}
    (h : p ∈ (rolloutSlots templateHash (podSlotForRole role l).1.zipIdx deleteBudget createBudget).2) :
    ∃ i < role.replicas, (l.filter fun q => q.index = some i) = [p] := by
  obtain ⟨i, hsl⟩ := mem_rolloutSlots h
  obtain ⟨j, hj, heq⟩ := mem_map.1 (fst_mem_of_mem_zipIdx hsl)
  exact ⟨j, mem_range.1 hj, heq⟩

theorem rolloutSlots_subset (l : List (Pod H)) :
    (rolloutSlots templateHash (podSlotForRole role l).1.zipIdx deleteBudget createBudget).2 ⊆ l := by
  intro p hp
  obtain ⟨i, -, heq⟩ := mem_rollout hp
  exact mem_of_mem_filter (heq ▸ mem_singleton.2 rfl : p ∈ l.filter fun q => q.index = some i)

theorem rolloutSlots_ready :
    let r := rolloutSlots templateHash slots deleteBudget createBudget
    r.2.countP ready = 0 ∨
    (r.2.countP ready : Int) ≤ deleteBudget := by
  intro r
  fun_induction rolloutSlots templateHash slots deleteBudget createBudget with
  | case1 => exact .inl rfl
  | case2 _ _ _ _ _ _ ih | case5 _ _ _ _ _ _ _ _ _ _ ih | case6 _ _ _ _ _ _ _ _ _ ih | case7 _ _ _ _ _ ih => exact ih
  | case3 q _ _ _ _ _ hrd _ ih =>
    rw [countP_cons_of_neg (by simpa using hrd)]
    exact ih
  | case4 q _ _ deleteBudget _ _ hrd hbd rest ih =>
    change rest.2.countP ready = 0 ∨ (rest.2.countP ready : Int) ≤ deleteBudget - 1 at ih
    rw [countP_cons_of_pos (by simpa using hrd)]
    omega

theorem rolloutSlots_create :
    let r := rolloutSlots templateHash slots deleteBudget createBudget
    r.1 = [] ∨
    (r.1.length : Int) ≤ createBudget := by
  intro r
  fun_induction rolloutSlots templateHash slots deleteBudget createBudget with
  | case1 => exact .inl rfl
  | case2 _ _ _ _ _ _ ih | case3 _ _ _ _ _ _ _ _ ih | case4 _ _ _ _ _ _ _ _ _ ih | case6 _ _ _ _ _ _ _ _ _ ih
  | case7 _ _ _ _ _ ih => exact ih
  | case5 _ _ _ _ createBudget _ _ _ hbd rest ih =>
    change rest.1 = [] ∨ (rest.1.length : Int) ≤ createBudget - 1 at ih
    rw [← length_eq_zero_iff] at ih
    rw [length_cons]
    omega

/-! ## Runs -/

/-- What a pass finds: the time, and the names and creation times of new pods by replica index. -/
structure SlotPass where
  now : Int
  names : Nat → Nat
  times : Nat → Int

/-- The pods that are created; a name that is taken is skipped. -/
def newPods (role : Role H) (pass : SlotPass) : List (Option Nat) → List Nat → List (Pod H)
  | [], _ => []
  | none :: create, taken => newPods role pass create taken
  | some i :: create, taken =>
    if pass.names i ∈ taken then newPods role pass create taken
    else
      ⟨pass.names i, role.templateHash, some i, false, false, false, pass.times i, none⟩ ::
        newPods role pass create (pass.names i :: taken)

inductive Op
  | scale
  | rollout
  | rolloutByStep (step : Int)

def Op.plan (op : Op) (role : Role H) (pods : List (Pod H)) : Plan H :=
  match op with
  | .scale => Stateful.scale role pods
  | .rollout => Stateful.rollout role pods
  | .rolloutByStep step => Stateful.rolloutByStep role step pods

def Op.kill (op : Op) (role : Role H) (now : Int) : Pod H → Pod H × Result :=
  match op with
  | .scale => role.killForScale now
  | .rollout | .rolloutByStep _ => role.killForRollout now

def Op.created (op : Op) (role : Role H) (pass : SlotPass) (l st : List (Pod H)) : List (Pod H) :=
  newPods role pass ((op.plan role l).create.take podBurst) (st.map Pod.name)

def Op.run (op : Op) (role : Role H) (pass : SlotPass) (l st : List (Pod H)) : List (Pod H) :=
  let plan := op.plan role l
  Disruption.mark Pod.name (fun p => (op.kill role pass.now p).1) plan.delete
    (Disruption.mark Pod.name (fun p => (cancelPod .scaleIn p).1) plan.cancel st) ++ op.created role pass l st

/-- Passes over a role that may change, with pods that become ready or not or fail and terminating ones that disappear. -/
inductive Reaches : List (Pod H) → Prop
  | start {st} : (st.map Pod.name).Nodup → Reaches st
  | pass {st l} (op : Op) (role : Role H) (pass : SlotPass) : Reaches st → role.drainTimeout ≤ 0 → l.Perm st →
      Reaches (op.run role pass l st)
  | changes {st} (ready fails : Pod H → Bool) : Reaches st →
      Reaches (st.map fun p => { p with ready := ready p, failed := p.failed || fails p })
  | gone {st} (stays : Pod H → Bool) : Reaches st → (∀ p ∈ st, p.terminating = false → stays p = true) →
      Reaches (st.filter stays)

section newPods

variable {pass : SlotPass} {create : List (Option Nat)} {taken : List Nat}

section

omit [DecidableEq H]

theorem newPods_length : (newPods role pass create taken).length ≤ create.length := by
  fun_induction newPods role pass create taken with
  | case1 => exact le_refl _
  | case2 _ _ ih | case3 _ _ _ _ ih => exact Nat.le_succ_of_le ih
  | case4 _ _ _ _ ih => exact Nat.succ_le_succ ih

theorem mem_newPods (h : p ∈ newPods role pass create taken) :
    p.ready = false ∧ p.hash = role.templateHash ∧ ∃ i, p.index = some i ∧ some i ∈ create := by
  fun_induction newPods role pass create taken with
  | case1 => exact absurd h not_mem_nil
  | case2 _ _ ih | case3 _ _ _ _ ih =>
    obtain ⟨hrd, hash, i, hin, hi⟩ := ih h
    exact ⟨hrd, hash, i, hin, mem_cons_of_mem _ hi⟩
  | case4 i _ _ _ ih =>
    rcases mem_cons.1 h with rfl | h
    · exact ⟨rfl, rfl, i, rfl, mem_cons_self⟩
    · obtain ⟨hrd, hash, i, hin, hi⟩ := ih h
      exact ⟨hrd, hash, i, hin, mem_cons_of_mem _ hi⟩

theorem newPods_names (h : taken.Nodup) : (taken ++ (newPods role pass create taken).map name).Nodup := by
  fun_induction newPods role pass create taken with
  | case1 => simpa using h
  | case2 _ _ ih | case3 _ _ _ _ ih => exact ih h
  | case4 i _ _ hfr ih =>
    exact perm_middle.nodup_iff.2 (ih (nodup_cons.2 ⟨hfr, h⟩))

theorem newPods_index (i : Nat) :
    (newPods role pass create taken).countP (fun p => p.index = some i) ≤ create.count (some i) := by
  fun_induction newPods role pass create taken with
  | case1 => exact le_refl _
  | case2 _ _ ih | case3 _ _ _ _ ih => exact Nat.le_trans ih count_le_count_cons
  | case4 j _ _ _ ih =>
    rw [countP_cons, count_cons]
    simp only [decide_eq_true_eq, beq_iff_eq]
    omega

end

end newPods

/-! ## The pods after a pass -/

variable {op : Op} {pass : SlotPass} {l st : List (Pod H)}

omit [DecidableEq H] in
theorem Op.kill_fst (hdr : role.drainTimeout ≤ 0) (op : Op) (now : Int) (p : Pod H) :
    (op.kill role now p).1 = { p with terminating := true } := by
  cases op
  · exact killForScale_fst hdr now p
  · exact killForRollout_fst hdr now p
  · exact killForRollout_fst hdr now p

theorem Op.run_eq (hdr : role.drainTimeout ≤ 0) : ∃ g : Pod H → Pod H,
    op.run role pass l st = st.map g ++ op.created role pass l st ∧
    ∀ p, (g p).name = p.name ∧ (g p).hash = p.hash ∧ (g p).index = p.index ∧ (g p).ready = p.ready ∧
      (g p).isActive = (p.isActive && decide (p.name ∉ (op.plan role l).delete.map name)) := by
  have hcn : ∀ p : Pod H, (cancelPod .scaleIn p).1 = { p with drain := (cancelPod .scaleIn p).1.drain } := by
    intro p
    unfold cancelPod
    split_ifs
    · rfl
    · split
      · rfl
      · split_ifs <;> rfl
  refine ⟨_, by rw [Op.run, Disruption.mark, Disruption.mark, map_map], fun p => ?_⟩
  simp only [comp_apply, Op.kill_fst hdr]
  generalize hq : (if p.name ∈ (op.plan role l).cancel.map name then (cancelPod .scaleIn p).1 else p) = q
  have hfl : q = { p with drain := q.drain } := by
    rw [← hq]
    split_ifs
    · exact hcn p
    · rfl
  rw [hfl]
  split_ifs with hdl
  · simp [isActive, hdl]
  · simp [isActive, hdl]

theorem Reaches.names (h : Reaches st) : (st.map name).Nodup := by
  induction h with
  | start hnm => exact hnm
  | pass op role pass _ hdr _ ih =>
    obtain ⟨g, heq, hg⟩ := Op.run_eq hdr
    have hnm : ∀ st : List (Pod H), st.map (name ∘ g) = st.map name :=
      fun st => map_congr_left fun p _ => (hg p).1
    rw [heq, map_append, map_map, hnm]
    exact newPods_names ih
  | changes ready fails _ ih => simpa [comp_def] using ih
  | gone stays _ _ ih => exact (filter_sublist.map _).nodup ih

def served (st : List (Pod H)) (i : Nat) : Bool := st.any fun p => p.isActive && p.ready && decide (p.index = some i)

section

omit [DecidableEq H]

theorem served_iff {i : Nat} :
    served st i = true ↔ ∃ p ∈ st, p.isActive = true ∧ p.ready = true ∧ p.index = some i := by
  simp [served, and_assoc]

theorem readySlotNum_eq_countP (role : Role H) (st : List (Pod H)) :
    readySlotNum role st = (range role.replicas).countP (served st) := by
  rw [readySlotNum, podSlotForRole, countP_map]
  refine countP_congr fun i _ => ?_
  rw [served_iff, comp_apply, Bool.not_eq_true', isEmpty_eq_false_iff_exists_mem]
  simp only [readyPods, activePods, mem_filter, Bool.and_eq_true, decide_eq_true_eq]
  constructor
  · rintro ⟨p, ⟨⟨hp, hac⟩, hin⟩, -, hrd⟩
    exact ⟨p, hp, hac, hrd, hin⟩
  · rintro ⟨p, hp, hac, hrd, hin⟩
    exact ⟨p, ⟨⟨hp, hac⟩, hin⟩, hac, hrd⟩

theorem readySlotNum_perm (hl : l.Perm st) : readySlotNum role l = readySlotNum role st := by
  rw [readySlotNum_eq_countP, readySlotNum_eq_countP]
  refine countP_congr fun i _ => ?_
  simp [served_iff, hl.mem_iff]

end

theorem served_run (hdr : role.drainTimeout ≤ 0) {i : Nat} :
    served (op.run role pass l st) i = true ↔ ∃ p ∈ st, p.isActive = true ∧ p.ready = true ∧ p.index = some i ∧
      p.name ∉ (op.plan role l).delete.map name := by
  obtain ⟨g, heq, hg⟩ := @Op.run_eq H _ role op pass l st hdr
  rw [served_iff, heq]
  constructor
  · rintro ⟨p, hp, hac, hrd, hin⟩
    rcases mem_append.1 hp with hp | hp
    · obtain ⟨q, hq, rfl⟩ := mem_map.1 hp
      obtain ⟨-, -, hgn, hgr, hgc⟩ := hg q
      rw [hgc, Bool.and_eq_true, decide_eq_true_eq] at hac
      exact ⟨q, hq, hac.1, hgr ▸ hrd, hgn ▸ hin, hac.2⟩
    · rw [(mem_newPods hp).1] at hrd
      cases hrd
  · rintro ⟨q, hq, hac, hrd, hin, hlf⟩
    obtain ⟨-, -, hgn, hgr, hgc⟩ := hg q
    refine ⟨g q, mem_append_left _ (mem_map_of_mem hq), ?_, by rw [hgr, hrd], by rw [hgn, hin]⟩
    rw [hgc, hac, decide_eq_true hlf]
    rfl

theorem readySlotNum_run_le (hdr : role.drainTimeout ≤ 0) :
    readySlotNum role (op.run role pass l st) ≤ readySlotNum role st := by
  rw [readySlotNum_eq_countP, readySlotNum_eq_countP]
  refine countP_mono_left fun i _ hi => ?_
  obtain ⟨p, hp, hac, hrd, hin, -⟩ := (served_run hdr).1 hi
  exact served_iff.2 ⟨p, hp, hac, hrd, hin⟩

/-! ## What a pass spares -/

def onlyReady (role : Role H) (st : List (Pod H)) (p : Pod H) : Bool :=
  p.isActive && p.ready && (p.index.any fun i => i < role.replicas) &&
    st.all fun q => !(q.isActive && q.ready && decide (q.index = p.index)) || decide (q = p)

theorem onlyReady_iff : onlyReady role st p = true ↔ p.isActive = true ∧ p.ready = true ∧
    (p.index.any fun i => i < role.replicas) = true ∧
    ∀ q ∈ st, q.isActive = true → q.ready = true → q.index = p.index → q = p := by
  simp only [onlyReady, Bool.and_eq_true, all_eq_true, Bool.or_eq_true, Bool.not_eq_true', and_assoc]
  refine and_congr_right fun _ => and_congr_right fun _ => and_congr_right fun _ => forall₂_congr fun q _ => ?_
  by_cases heq : q = p
  · simp [heq]
  · simp only [heq, decide_false, Bool.false_eq_true, or_false]
    simp [Bool.and_eq_true, and_imp]

structure Spares (role : Role H) (st : List (Pod H)) (plan : Plan H) : Prop where
  create : plan.create = [] ∨
    (activePods st).length + (terminatingPods st).length + plan.create.length ≤ role.replicas + role.maxSurge
  delete : plan.delete ⊆ st
  other : ∀ p ∈ plan.delete, ∀ i < role.replicas, p.isActive = true → p.ready = true → p.index = some i →
    onlyReady role st p = true ∨ ∃ q ∈ st, q.isActive = true ∧ q.ready = true ∧ q.index = some i ∧ q ∉ plan.delete
  floor : plan.delete.countP (onlyReady role st) = 0 ∨
    role.replicas + plan.delete.countP (onlyReady role st) ≤ readySlotNum role st + role.maxUnavailable

theorem Spares.readySlotNum_le (h : Spares role st (op.plan role l)) (hnm : (st.map name).Nodup)
    (hdr : role.drainTimeout ≤ 0) : readySlotNum role st ≤
      readySlotNum role (op.run role pass l st) + (op.plan role l).delete.countP (onlyReady role st) := by
  set st' := op.run role pass l st
  rw [readySlotNum_eq_countP, readySlotNum_eq_countP,
    countP_eq_countP_filter_add (range role.replicas) (served st) (served st'),
    countP_filter, countP_filter]
  have hkp : (range role.replicas).countP (fun i => served st i && served st' i) ≤
      (range role.replicas).countP (served st') :=
    countP_mono_left fun i _ hi => (Bool.and_eq_true _ _ ▸ hi).2
  have hls : (range role.replicas).countP (fun i => served st i && !served st' i) ≤
      (op.plan role l).delete.countP (onlyReady role st) := by
    rw [countP_eq_length_filter, countP_eq_length_filter]
    refine Nat.le_trans (subperm_of_subset (nodup_range.filter _) ?_).length_le
      (length_filterMap_le index ((op.plan role l).delete.filter (onlyReady role st)))
    intro i hi
    obtain ⟨hrn, hi⟩ := mem_filter.1 hi
    rw [Bool.and_eq_true, Bool.not_eq_true', ← Bool.not_eq_true, served_run hdr] at hi
    obtain ⟨p, hp, hac, hrd, hin⟩ := served_iff.1 hi.1
    have hgn : ∀ q ∈ st, q.isActive = true → q.ready = true → q.index = some i → q ∈ (op.plan role l).delete := by
      intro q hq hqc hqr hqn
      by_contra hnot
      refine hi.2 ⟨q, hq, hqc, hqr, hqn, fun hna => ?_⟩
      obtain ⟨d, hd, heq⟩ := mem_map.1 hna
      exact hnot (inj_on_of_nodup_map hnm (h.delete hd) hq heq ▸ hd)
    refine mem_filterMap.2 ⟨p, mem_filter.2 ⟨hgn p hp hac hrd hin, ?_⟩, hin⟩
    rcases h.other p (hgn p hp hac hrd hin) i (mem_range.1 hrn) hac hrd hin with
      hon | ⟨q, hq, hqc, hqr, hqn, hnot⟩
    · exact hon
    · exact absurd (hgn q hq hqc hqr hqn) hnot
  omega

omit [DecidableEq H] in
theorem active_add_terminating (l : List (Pod H)) : (activePods l).length + (terminatingPods l).length ≤ l.length := by
  have hle : (terminatingPods l).length ≤ (l.filter fun p => !p.isActive).length := by
    rw [terminatingPods, ← countP_eq_length_filter, ← countP_eq_length_filter]
    refine countP_mono_left fun p _ hp => ?_
    simp [isActive, hp]
  have hsp := @length_eq_length_filter_add _ l isActive
  unfold activePods
  omega

theorem rolloutSlots_spares (hl : l.Perm st)
    (hdl : deleteBudget ≤ (readySlotNum role l : Int) - role.replicas + role.maxUnavailable)
    (hcr : createBudget ≤ (role.replicas : Int) + role.maxSurge - l.length) :
    let r := rolloutSlots role.templateHash (podSlotForRole role (activePods l)).1.zipIdx deleteBudget createBudget
    Spares role st ⟨r.1, r.2, []⟩ := by
  set slots := podSlotForRole role _
  refine ⟨?_, fun p hp => ?_, fun p hp i hi hac hrd hin => .inl ?_, ?_⟩
  · have hlen := active_add_terminating st
    have hsm := hl.length_eq
    dsimp only
    rcases @rolloutSlots_create H _ role.templateHash slots.1.zipIdx deleteBudget
      createBudget with hnil | hle
    · exact .inl hnil
    · omega
  · exact hl.mem_iff.1 (mem_of_mem_filter (rolloutSlots_subset _ hp))
  · obtain ⟨j, hj, hsl⟩ := mem_rollout hp
    refine onlyReady_iff.2 ⟨hac, hrd, by simp [hin, hi], fun q hq hqc _ hqn => ?_⟩
    have hsf : p ∈ (activePods l).filter fun q => q.index = some j := by simp [hsl]
    have hpn : p.index = some j := by simpa using (mem_filter.1 hsf).2
    have hmem : q ∈ (activePods l).filter fun q => q.index = some j :=
      mem_filter.2 ⟨mem_filter.2 ⟨hl.mem_iff.2 hq, hqc⟩, by simp [hqn, hpn]⟩
    rw [hsl] at hmem
    exact mem_singleton.1 hmem
  · have hle : (rolloutSlots role.templateHash slots.1.zipIdx deleteBudget
        createBudget).2.countP (onlyReady role st) ≤
        (rolloutSlots role.templateHash slots.1.zipIdx deleteBudget
          createBudget).2.countP ready :=
      countP_mono_left fun p _ hp => (onlyReady_iff.1 hp).2.1
    have hrd := @rolloutSlots_ready H _ role.templateHash slots.1.zipIdx deleteBudget
      createBudget
    rw [readySlotNum_perm hl] at hdl
    dsimp only
    omega

/-! ## Scaling -/

section slot

variable {slot : List (Pod H)} {q : Pod H}

omit [DecidableEq H] in
theorem eq_of_not_mem_drop {xs : List (Pod H)} (hp : p ∈ xs) (hq : q ∈ xs) (hnp : p ∉ xs.drop 1) (hnq : q ∉ xs.drop 1) :
    p = q := by
  cases xs with
  | nil => exact absurd hp not_mem_nil
  | cons x xs =>
    rw [(mem_cons.1 hp).resolve_right hnp, (mem_cons.1 hq).resolve_right hnq]

section

variable (hac : ∀ q ∈ slot, q.isActive = true)
include hac

theorem mem_updatedReady :
    p ∈ updatedPods templateHash (readyPods slot) ↔ p ∈ slot ∧ p.ready = true ∧ p.hash = templateHash := by
  simp only [updatedPods, readyPods, mem_filter, and_assoc]
  exact and_congr_right fun hp => by simp [hac p hp]

theorem mem_outdatedReady :
    p ∈ outdatedPods templateHash (readyPods slot) ↔ p ∈ slot ∧ p.ready = true ∧ p.hash ≠ templateHash := by
  simp only [outdatedPods, readyPods, mem_filter, Bool.and_eq_true, Bool.not_eq_true', decide_eq_false_iff_not,
    and_assoc]
  exact and_congr_right fun hp => by simp [hac p hp]

theorem mem_updatedNotReady :
    p ∈ updatedPods templateHash (notReadyPods slot) ↔ p ∈ slot ∧ p.ready = false ∧ p.hash = templateHash := by
  simp only [updatedPods, notReadyPods, mem_filter, and_assoc]
  exact and_congr_right fun hp => by simp [hac p hp]

theorem mem_outdatedNotReady :
    p ∈ outdatedPods templateHash (notReadyPods slot) ↔ p ∈ slot ∧ p.ready = false ∧ p.hash ≠ templateHash := by
  simp only [outdatedPods, notReadyPods, mem_filter, and_assoc]
  exact and_congr_right fun hp => by simp [hac p hp]

theorem redundantPods_leaves (hp : p ∈ slot) (hq : q ∈ slot)
    (hnp : p ∉ redundantPods templateHash slot) (hnq : q ∉ redundantPods templateHash slot)
    (hash : p.hash = templateHash ↔ q.hash = templateHash) : p = q := by
  simp only [redundantPods, mem_append, not_or, mem_outdatedNotReady hac] at hnp hnq
  obtain ⟨hlag, hnp⟩ := hnp
  obtain ⟨hlag', hnq⟩ := hnq
  split_ifs at hnp hnq with hnn
  · rw [mem_append, not_or] at hnp hnq
    have hrd : ∀ r ∈ slot, r.ready = true → r.hash ≠ templateHash := by
      intro r hr hrr hrh
      have := (mem_updatedReady hac).2 ⟨hr, hrr, hrh⟩
      rw [isEmpty_iff.1 hnn] at this
      exact not_mem_nil this
    by_cases hup : p.hash = templateHash
    · have hpr : p.ready = false := by
        by_contra hnot
        exact hrd p hp (by simpa using hnot) hup
      have hqr : q.ready = false := by
        by_contra hnot
        exact hrd q hq (by simpa using hnot) (hash.1 hup)
      exact eq_of_not_mem_drop ((mem_updatedNotReady hac).2 ⟨hp, hpr, hup⟩)
        ((mem_updatedNotReady hac).2 ⟨hq, hqr, hash.1 hup⟩) hnp.2 hnq.2
    · have hpr : p.ready = true := by
        by_contra hnot
        exact hlag ⟨hp, by simpa using hnot, hup⟩
      have hqr : q.ready = true := by
        by_contra hnot
        exact hlag' ⟨hq, by simpa using hnot, mt hash.2 hup⟩
      exact eq_of_not_mem_drop ((mem_outdatedReady hac).2 ⟨hp, hpr, hup⟩)
        ((mem_outdatedReady hac).2 ⟨hq, hqr, mt hash.2 hup⟩) hnp.1 hnq.1
  · simp only [mem_append, not_or, mem_outdatedReady hac, mem_updatedNotReady hac] at hnp hnq
    have hmem : ∀ r ∈ slot, ¬ (r ∈ slot ∧ r.ready = false ∧ r.hash ≠ templateHash) →
        (¬ (r ∈ slot ∧ r.ready = true ∧ r.hash ≠ templateHash) ∧ ¬ (r ∈ slot ∧ r.ready = false ∧ r.hash = templateHash)) →
        r ∈ updatedPods templateHash (readyPods slot) := by
      intro r hr h₁ h₂
      rw [mem_updatedReady hac]
      cases hrd : r.ready <;> by_cases hrh : r.hash = templateHash <;> simp_all
    exact eq_of_not_mem_drop (hmem p hp hlag hnp.1) (hmem q hq hlag' hnq.1) hnp.2 hnq.2

end

omit [DecidableEq H] in
theorem head_not_mem_drop {x : Pod H} {xs : List (Pod H)} (h : (x :: xs).Nodup) : x ∉ (x :: xs).drop 1 :=
  (nodup_cons.1 h).1

theorem redundantPods_keeps (hac : ∀ q ∈ slot, q.isActive = true) (hnd : slot.Nodup) (hp : p ∈ slot)
    (hrd : p.ready = true) : ∃ q ∈ slot, q.ready = true ∧ q ∉ redundantPods templateHash slot := by
  cases hup : updatedPods templateHash _ with
  | nil =>
    have hpt : p ∈ outdatedPods templateHash (readyPods slot) := by
      refine (mem_outdatedReady hac).2 ⟨hp, hrd, fun hash => ?_⟩
      have := (mem_updatedReady hac).2 ⟨hp, hrd, hash⟩
      rw [hup] at this
      exact not_mem_nil this
    cases hot : outdatedPods templateHash _ with
    | nil =>
      rw [hot] at hpt
      exact absurd hpt not_mem_nil
    | cons x xs =>
      have hx : x ∈ outdatedPods templateHash (readyPods slot) := by simp [hot]
      obtain ⟨hmem, hxr, hash⟩ := (mem_outdatedReady hac).1 hx
      have hxs : (x :: xs).Nodup := hot ▸ ((hnd.filter _).filter _)
      refine ⟨x, hmem, hxr, ?_⟩
      simp only [redundantPods, hup, hot, isEmpty_nil, if_true, mem_append, not_or,
        mem_outdatedNotReady hac, hxr, Bool.true_eq_false, false_and, and_false, not_false_iff, true_and]
      refine ⟨head_not_mem_drop hxs, fun hdr => hash ?_⟩
      exact ((mem_updatedNotReady hac).1 (mem_of_mem_drop hdr)).2.2
  | cons x xs =>
    have hx : x ∈ updatedPods templateHash (readyPods slot) := by simp [hup]
    obtain ⟨hmem, hxr, hash⟩ := (mem_updatedReady hac).1 hx
    have hxs : (x :: xs).Nodup := hup ▸ ((hnd.filter _).filter _)
    refine ⟨x, hmem, hxr, ?_⟩
    simp only [redundantPods, hup, isEmpty_cons, Bool.false_eq_true, if_false, mem_append, not_or,
      mem_outdatedNotReady hac, mem_outdatedReady hac, mem_updatedNotReady hac, hash, ne_eq,
      not_true_eq_false, and_false, not_false_iff, true_and, hxr, Bool.true_eq_false, false_and]
    exact head_not_mem_drop hxs

end slot

theorem mem_scale_delete {i : Nat} (hi : i < role.replicas) (hac : p.isActive = true) (hin : p.index = some i) :
    p ∈ (scale role l).delete ↔ 1 < ((activePods l).filter fun p => p.index = some i).length ∧
      p ∈ redundantPods role.templateHash ((activePods l).filter fun p => p.index = some i) := by
  have htr : p ∉ (inactivePods l).filter fun p => !p.terminating := by
    simp [inactivePods, hac]
  have hls : p ∉ (podSlotForRole role (activePods l)).2 := by
    simp [podSlotForRole, hin, hi]
  simp only [scale, mem_append, htr, hls, false_or, mem_flatMap]
  constructor
  · rintro ⟨slot, hsl, hp⟩
    obtain ⟨j, -, rfl⟩ := mem_map.1 hsl
    split_ifs at hp with hmn
    · have hj := (mem_filter.1 (redundantPods_subset _ _ hp)).2
      simp only [hin, decide_eq_true_eq, Option.some.injEq] at hj
      subst hj
      exact ⟨hmn, hp⟩
    · exact absurd hp not_mem_nil
  · rintro ⟨hmn, hp⟩
    refine ⟨_, mem_map.2 ⟨i, mem_range.2 hi, rfl⟩, ?_⟩
    rw [if_pos hmn]
    exact hp

theorem scale_keeps (hl : l.Perm st) (hnd : st.Nodup) {i : Nat} (hi : i < role.replicas) (hp : p ∈ st)
    (hac : p.isActive = true) (hrd : p.ready = true) (hin : p.index = some i) :
    ∃ q ∈ st, q.isActive = true ∧ q.ready = true ∧ q.index = some i ∧ q ∉ (scale role l).delete := by
  have hsl : ∀ q ∈ (activePods l).filter fun p => p.index = some i, q.isActive = true :=
    fun q hq => (mem_filter.1 (mem_of_mem_filter hq)).2
  have hmem : p ∈ (activePods l).filter fun p => p.index = some i :=
    mem_filter.2 ⟨mem_filter.2 ⟨hl.mem_iff.2 hp, hac⟩, by simp [hin]⟩
  obtain ⟨q, hq, hqr, hnot⟩ := @redundantPods_keeps H _ role.templateHash p _ hsl
    (((hl.nodup_iff.2 hnd).filter _).filter _) hmem hrd
  have hqn : q.index = some i := by simpa using (mem_filter.1 hq).2
  refine ⟨q, hl.mem_iff.1 (mem_of_mem_filter (mem_of_mem_filter hq)), hsl q hq, hqr, hqn, ?_⟩
  rw [mem_scale_delete hi (hsl q hq) hqn]
  exact fun h => hnot h.2

theorem scale_spares (hl : l.Perm st) (hnd : st.Nodup) : Spares role st (scale role l) := by
  have hdl : (scale role l).delete ⊆ st := fun p hp => hl.mem_iff.1 (scale_delete_subset role l hp)
  refine ⟨?_, hdl, fun p hp i hi hac hrd hin => .inr ?_, .inl ?_⟩
  · have hac : (activePods l).length = (activePods st).length := (hl.filter _).length_eq
    have htm : (terminatingPods (inactivePods l)).length = (terminatingPods st).length := by
      rw [terminatingPods, inactivePods, filter_filter, terminatingPods, ← (hl.filter terminating).length_eq]
      congr 1
      refine filter_congr fun p _ => ?_
      cases htr : p.terminating <;> simp [isActive, htr]
    by_cases hpos : 0 < ((role.replicas : Int) + role.maxSurge - (activePods l).length -
        (terminatingPods (inactivePods l)).length)
    · simp only [scale, slots_length, length_take]
      omega
    · left
      simp only [scale, slots_length]
      rw [Int.toNat_of_nonpos (by omega), take_zero]
  · exact scale_keeps hl hnd hi (hdl hp) hac hrd hin
  · rw [countP_eq_zero]
    intro p hp hon
    obtain ⟨hac, hrd, hany, hon⟩ := onlyReady_iff.1 hon
    obtain ⟨i, hin, hi⟩ := (Option.any_eq_true _ _).1 hany
    obtain ⟨q, hq, hqc, hqr, hqn, hnot⟩ :=
      scale_keeps hl hnd (of_decide_eq_true hi) (hdl hp) hac hrd hin
    exact hnot (hon q hq hqc hqr (hqn.trans hin.symm) ▸ hp)

theorem Op.plan_spares (op : Op) (hl : l.Perm st) (hnd : st.Nodup) : Spares role st (op.plan role l) := by
  cases op with
  | scale => exact scale_spares hl hnd
  | rollout => exact rolloutSlots_spares hl (Int.le_refl _) (Int.le_refl _)
  | rolloutByStep step => exact rolloutSlots_spares hl (minInt32_le_left _ _) (minInt32_le_left _ _)

theorem scale_create_count (role : Role H) (l : List (Pod H)) (i : Nat) :
    ((scale role l).create.take podBurst).count (some i) ≤ 1 ∧
      (0 < ((scale role l).create.take podBurst).count (some i) →
        ((activePods l).filter fun p => p.index = some i) = []) := by
  have hsub : ((scale role l).create.take podBurst).Sublist
      ((((podSlotForRole role (activePods l)).1.zipIdx.filter fun slot => slot.1.isEmpty)).map fun slot => some slot.2) :=
    (take_sublist _ _).trans (take_sublist _ _)
  constructor
  · refine List.nodup_iff_count_le_one.1 (hsub.nodup ?_) _
    have hsnd : ((podSlotForRole role (activePods l)).1.zipIdx.map Prod.snd).Nodup := by
      rw [zipIdx_map_snd]
      exact nodup_range'
    have hsm := hsnd.map fun _ _ h => Option.some.inj h
    rw [map_map] at hsm
    exact (filter_sublist.map _).nodup hsm
  intro hpos
  obtain ⟨⟨slot, j⟩, hsl, heq⟩ := mem_map.1 (hsub.mem (List.count_pos_iff.1 hpos))
  obtain ⟨hsl, hem⟩ := mem_filter.1 hsl
  rw [mem_zipIdx_iff_getElem?] at hsl
  simp only [podSlotForRole, List.getElem?_map, Option.map_eq_some_iff] at hsl
  obtain ⟨k, hk, hsl⟩ := hsl
  obtain ⟨hlt, hk⟩ := List.getElem?_eq_some_iff.1 hk
  rw [getElem_range] at hk
  cases heq
  rw [hk, hsl]
  exact isEmpty_iff.1 hem

omit [DecidableEq H] in
theorem countP_le_one {q : Pod H → Bool} (hnd : st.Nodup)
    (h : ∀ p ∈ st, ∀ p' ∈ st, q p = true → q p' = true → p = p') : st.countP q ≤ 1 := by
  rw [countP_eq_length_filter]
  have hfl := hnd.filter q
  have hall : ∀ p ∈ st.filter q, ∀ p' ∈ st.filter q, p = p' := fun p hp p' hp' =>
    h p (mem_of_mem_filter hp) p' (mem_of_mem_filter hp') (mem_filter.1 hp).2 (mem_filter.1 hp').2
  revert hfl hall
  generalize st.filter q = xs
  intro hnd hall
  match xs, hnd, hall with
  | [], _, _ => exact Nat.zero_le 1
  | [_], _, _ => exact le_refl 1
  | x :: y :: xs, hnd, hall =>
    have := hall x mem_cons_self y (mem_cons_of_mem _ mem_cons_self)
    subst this
    simp at hnd

theorem scale_leaves_one (hl : l.Perm st) {i : Nat} (hi : i < role.replicas) {q : Pod H} (hp : p ∈ st) (hq : q ∈ st)
    (hpc : p.isActive = true) (hqc : q.isActive = true) (hpn : p.index = some i) (hqn : q.index = some i)
    (hash : p.hash = role.templateHash ↔ q.hash = role.templateHash) (hnp : p ∉ (scale role l).delete)
    (hnq : q ∉ (scale role l).delete) : p = q := by
  have hsl : ∀ r ∈ st, r.isActive = true → r.index = some i → r ∈ (activePods l).filter fun p => p.index = some i :=
    fun r hr hac hin => mem_filter.2 ⟨mem_filter.2 ⟨hl.mem_iff.2 hr, hac⟩, by simp [hin]⟩
  rw [mem_scale_delete hi hpc hpn] at hnp
  rw [mem_scale_delete hi hqc hqn] at hnq
  by_cases hmn : 1 < ((activePods l).filter fun p => p.index = some i).length
  · exact redundantPods_leaves (fun r hr => (mem_filter.1 (mem_of_mem_filter hr)).2)
      (hsl p hp hpc hpn) (hsl q hq hqc hqn) (fun h => hnp ⟨hmn, h⟩) (fun h => hnq ⟨hmn, h⟩) hash
  have hp := hsl p hp hpc hpn
  have hq := hsl q hq hqc hqn
  obtain ⟨r, hr⟩ := length_eq_one_iff.1 (Nat.le_antisymm (Nat.not_lt.1 hmn) (length_pos_of_mem hp))
  rw [hr, mem_singleton] at hp hq
  rw [hp, hq]

theorem scale_leaves (hl : l.Perm st) (hnm : (st.map name).Nodup) (hdr : role.drainTimeout ≤ 0) {i : Nat}
    (hi : i < role.replicas) (updated : Bool) :
    ((activePods (Op.scale.run role pass l st)).filter fun p => p.index = some i).countP
      (fun p => decide (p.hash = role.templateHash) == updated) ≤ 1 := by
  obtain ⟨g, heq, hg⟩ := @Op.run_eq H _ role .scale pass l st hdr
  let kept : Pod H → Bool := fun p => (decide (p.hash = role.templateHash) == updated) && decide (p.index = some i) &&
    (p.isActive && decide (p.name ∉ (scale role l).delete.map name))
  have hkp : st.countP kept ≤ 1 := by
    refine countP_le_one (Nodup.of_map _ hnm) fun p hp q hq hpp hqq => ?_
    simp only [kept, Bool.and_eq_true, decide_eq_true_eq, beq_iff_eq] at hpp hqq
    refine scale_leaves_one hl hi hp hq hpp.2.1 hqq.2.1 hpp.1.2 hqq.1.2 ?_
      (fun h => hpp.2.2 (mem_map_of_mem h)) (fun h => hqq.2.2 (mem_map_of_mem h))
    rw [← decide_eq_decide, hpp.1.1, hqq.1.1]
  have hem : ((activePods l).filter fun p => p.index = some i) = [] → st.countP kept = 0 := by
    intro hnil
    rw [countP_eq_zero]
    intro p hp hpp
    simp only [kept, Bool.and_eq_true] at hpp
    refine ne_nil_of_mem (mem_filter.2 ⟨mem_filter.2 ⟨hl.mem_iff.2 hp, hpp.2.1⟩, ?_⟩) hnil
    simp [hpp.1.2]
  obtain ⟨hone, hnew⟩ := scale_create_count role l i
  have hcr : (Op.scale.created role pass l st).countP (fun p => p.index = some i) ≤
      ((scale role l).create.take podBurst).count (some i) := newPods_index i
  have hmn : (Op.scale.created role pass l st).countP (fun p =>
      (decide (p.hash = role.templateHash) == updated) && decide (p.index = some i) && p.isActive) ≤
      (Op.scale.created role pass l st).countP fun p => p.index = some i :=
    countP_mono_left fun p _ hp => (Bool.and_eq_true _ _ ▸ (Bool.and_eq_true _ _ ▸ hp).1).2
  rw [activePods, countP_filter, countP_filter, heq, countP_append, countP_map, countP_congr (q := kept)]
  · by_cases hnil : ((activePods l).filter fun p => p.index = some i) = []
    · have := hem hnil
      omega
    have : ((scale role l).create.take podBurst).count (some i) = 0 := by
      by_contra hpos
      exact hnil (hnew (Nat.pos_of_ne_zero hpos))
    omega
  · intro p _
    obtain ⟨-, hhs, hin, -, hac⟩ := hg p
    rw [comp_apply, hhs, hin, hac]
    rfl

theorem slots_stay_served {st : List (Pod H)} (h : Reaches st) (role : Role H) (hdrain : role.drainTimeout ≤ 0)
    (pass : SlotPass) {l : List (Pod H)} (hl : l.Perm st) :
    (∀ op : Op, readySlotNum role (op.run role pass l st) = readySlotNum role st ∨
      role.replicas ≤ readySlotNum role (op.run role pass l st) + role.maxUnavailable) ∧
    (∀ op : Op, op.created role pass l st ≠ [] → (activePods st).length + (terminatingPods st).length +
      (op.created role pass l st).length ≤ role.replicas + role.maxSurge) ∧
    (∀ op : Op, (op.plan role l).delete.countP (onlyReady role st) = 0 ∨
      role.replicas + (op.plan role l).delete.countP (onlyReady role st) ≤
        readySlotNum role st + role.maxUnavailable) ∧ ∀ i < role.replicas,
      ((activePods (Op.scale.run role pass l st)).filter fun p => p.index = some i).countP
        (fun p => p.hash = role.templateHash) ≤ 1 ∧
      ((activePods (Op.scale.run role pass l st)).filter fun p => p.index = some i).countP
        (fun p => p.hash ≠ role.templateHash) ≤ 1 := by
  have hnames := h.names
  have hspares : ∀ op : Op, Spares role st (op.plan role l) := fun op => op.plan_spares hl (Nodup.of_map _ hnames)
  refine ⟨fun op => ?_, fun op hnew => ?_, fun op => (hspares op).floor, fun i hi => ⟨?_, ?_⟩⟩
  · have hle := @Spares.readySlotNum_le H _ role op pass l st (hspares op) hnames hdrain
    have hge := @readySlotNum_run_le H _ role op pass l st hdrain
    have hfloor := (hspares op).floor
    omega
  · have hlen : (op.created role pass l st).length ≤ ((op.plan role l).create.take podBurst).length := newPods_length
    rw [length_take] at hlen
    have hcreate := (hspares op).create.resolve_left fun hnil => by simp [Op.created, hnil, newPods] at hnew
    omega
  · have := @scale_leaves H _ role pass l st hl hnames hdrain i hi true
    simpa using this
  · have := @scale_leaves H _ role pass l st hl hnames hdrain i hi false
    simpa using this

/-- Two slots of hash 0, of which one may be unavailable: the rollout deletes the pod of the first, and while it terminates
nothing is created and the other slot is left alone. -/
theorem slots_stay_served_twice :
    let role : Role Nat := ⟨2, 1, some (.int 0), some (.int 1), none⟩
    let pass : SlotPass := ⟨0, (· + 7), fun _ => 5⟩
    let st : List (Pod Nat) := [⟨7, 0, some 0, false, false, true, 1, none⟩, ⟨8, 0, some 1, false, false, true, 2, none⟩]
    let st' := Op.rollout.run role pass st st
    readySlotNum role st' = 1 ∧ Op.scale.run role pass st' st' = st' ∧
      (readySlotNum role (Op.rollout.run role pass st' st') = readySlotNum role st' ∨
        role.replicas ≤ readySlotNum role (Op.rollout.run role pass st' st') + role.maxUnavailable) := by
  refine ⟨by decide, by decide, ?_⟩
  exact (slots_stay_served (.pass .rollout _ _ (.start (by decide)) (by decide) (.refl _)) _ (by decide) _ (.refl _)).1
    .rollout

end Aibrix.RoleSet.Stateful
