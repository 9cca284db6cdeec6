import Aibrix.RoleSet.Rolling

/-! # A stateless role without draining keeps its budgets -/

namespace Aibrix.RoleSet

open Lib List Disruption Pod List.Nodup

variable {H : Type} [DecidableEq H]

/-! ## The pods after a pass -/

theorem minInt32_le_left (a b : Int) : minInt32 a b ≤ a := by unfold minInt32; split_ifs <;> omega

theorem minInt32_le_right (a b : Int) : minInt32 a b ≤ b := by unfold minInt32; split_ifs <;> omega

omit [DecidableEq H] in
theorem deletePodImmediately_fst (p : Pod H) : (deletePodImmediately p).1 = { p with terminating := true } := by
  unfold deletePodImmediately
  split_ifs with h
  · rw [← h]
  · rfl

variable {role : Role H}

omit [DecidableEq H] in
theorem killForScale_fst (h : role.drainTimeout ≤ 0) (now : Int) (p : Pod H) :
    (role.killForScale now p).1 = { p with terminating := true } := by
  rw [Role.killForScale, deletePod, if_pos h, deletePodImmediately_fst]

omit [DecidableEq H] in
theorem killForRollout_fst (h : role.drainTimeout ≤ 0) (now : Int) (p : Pod H) :
    (role.killForRollout now p).1 = { p with terminating := true } := by
  rw [Role.killForRollout, deletePodForRollout, deletePod, deletePod, if_pos h, if_pos (Int.le_refl 0), ite_self,
    deletePodImmediately_fst]

theorem Plan.countP_apply (role : Role H) (pass : Pass role.templateHash) (kill : Pod H → Pod H × Result) {plan : Plan H}
    {pods : List (Pod H)} (q : Pod H → Bool) (hnm : (pods.map name).Nodup) (hcn : plan.cancel = [])
    (hsub : plan.delete ⊆ pods) (hnd : plan.delete.Nodup) :
    (plan.apply role pass kill pods).countP q + plan.delete.countP q =
      pods.countP q + (plan.delete.map fun p => (kill p).1).countP q + (role.newPods pass plan.create).countP q := by
  have hct := countP_mark (fun p => (kill p).1) q hnm hsub hnd
  have hnn : mark name (fun p : Pod H => (cancelPod .scaleIn p).1) plan.cancel pods = pods := by
    rw [hcn, mark]
    simp
  rw [Plan.apply, hnn, countP_append]
  omega

theorem newPods_length_le (role : Role H) (pass : Pass role.templateHash) (create : List (Option Nat)) :
    (role.newPods pass create).length ≤ create.length := by
  simp only [Role.newPods, length_map, length_zipIdx, length_take]
  omega

theorem mem_newPods {pass : Pass role.templateHash} {create : List (Option Nat)} {p : Pod H}
    (h : p ∈ role.newPods pass create) :
    p.isActive = true ∧ p.ready = false ∧ p.hash = role.templateHash ∧ p.drain = none ∧ ∃ i, p.name = pass.names i := by
  obtain ⟨⟨index, i⟩, -, rfl⟩ := mem_map.1 h
  exact ⟨rfl, rfl, rfl, rfl, i, rfl⟩

section

omit [DecidableEq H]

/-- A pod that is to go keeps all but what says that it terminates or drains. -/
theorem deletePod_fst (timeout : Int) (reason : DrainReason) (now : Int) (p : Pod H) :
    ∃ terminating drain, (deletePod timeout reason now p).1 = { p with terminating, drain } := by
  unfold deletePod
  split_ifs
  · rw [deletePodImmediately_fst]
    exact ⟨_, _, rfl⟩
  unfold processPod
  split_ifs
  · exact ⟨_, _, rfl⟩
  · rw [deletePodImmediately_fst]
    exact ⟨_, _, rfl⟩
  split
  · exact ⟨_, _, rfl⟩
  · exact ⟨_, _, rfl⟩
  · dsimp only
    split_ifs <;> exact ⟨_, _, rfl⟩

theorem deletePodForRollout_fst (timeout now : Int) (p : Pod H) :
    ∃ terminating drain, (deletePodForRollout timeout now p).1 = { p with terminating, drain } := by
  unfold deletePodForRollout
  split_ifs <;> exact deletePod_fst _ _ _ p

theorem deletePod_name (timeout : Int) (reason : DrainReason) (now : Int) (p : Pod H) :
    (deletePod timeout reason now p).1.name = p.name := by
  obtain ⟨_, _, heq⟩ := deletePod_fst timeout reason now p
  rw [heq]

theorem deletePodForRollout_name (timeout now : Int) (p : Pod H) : (deletePodForRollout timeout now p).1.name = p.name := by
  obtain ⟨_, _, heq⟩ := deletePodForRollout_fst timeout now p
  rw [heq]

theorem cancelPod_name (reason : DrainReason) (p : Pod H) : (cancelPod reason p).1.name = p.name := by
  unfold cancelPod
  split_ifs
  · rfl
  · split
    · rfl
    · split_ifs <;> rfl

end

theorem Plan.names_apply {pass : Pass role.templateHash} {kill : Pod H → Pod H × Result} {plan : Plan H}
    {pods : List (Pod H)} (hkl : ∀ p, (kill p).1.name = p.name) (hnm : (pods.map name).Nodup)
    (hinj : Function.Injective pass.names) (hfr : ∀ i, pass.names i ∉ pods.map name) :
    ((plan.apply role pass kill pods).map name).Nodup := by
  have hnew : (role.newPods pass plan.create).map name =
      (range (plan.create.take podBurst).length).map pass.names := by
    rw [Role.newPods, map_map, range_eq_range', ← zipIdx_map_snd 0 _, map_map]
    rfl
  rw [Plan.apply, map_append, mark_keys hkl, mark_keys (cancelPod_name _), hnew]
  apply append hnm (nodup_range.map hinj)
  intro name hna hnew
  obtain ⟨i, -, rfl⟩ := mem_map.1 hnew
  exact hfr i hna

abbrev Role.updated (role : Role H) (pods : List (Pod H)) : Nat :=
  (updatedPods role.templateHash (activePods pods)).length

namespace Stateless

variable {pass : Pass role.templateHash} {active : List (Pod H)} {budget : Int} {p : Pod H}

theorem mem_outdatedToDelete (h : p ∈ outdatedToDelete role pass active budget) :
    p ∈ active ∧ p.hash ≠ role.templateHash := by
  have := pass.byActive.mem.1 (select_sublist.mem h)
  simpa [outdatedPods] using this

theorem mem_outdatedToDelete_of_not_ready (hac : ∀ q ∈ active, q.isActive = true) (hp : p ∈ active)
    (hot : p.hash ≠ role.templateHash) (hrd : p.ready = false) : p ∈ outdatedToDelete role pass active budget := by
  refine mem_select_of_not_ready ?_ (Nat.le_refl _) (pass.byActive.mem.2 ?_) hrd
  · apply (pass.byActive.sorted _).imp_of_mem
    intro a b ha hb hbf hnot
    have ha := hac a (mem_of_mem_filter (pass.byActive.mem.1 ha))
    have hb := hac b (mem_of_mem_filter (pass.byActive.mem.1 hb))
    apply hbf
    left
    simp [activeClass, ha, hb, hnot.1, hnot.2]
  · simpa [outdatedPods] using ⟨hp, hot⟩

theorem outdatedToDelete_stopped (hp : p ∈ active) (hot : p.hash ≠ role.templateHash)
    (hnot : p ∉ outdatedToDelete role pass active budget) :
    budget - ((outdatedToDelete role pass active budget).countP ready : Int) ≤ 0 := by
  refine select_stopped (Nat.le_refl _) (pass.byActive.mem.2 ?_) hnot
  simpa [outdatedPods] using ⟨hp, hot⟩

/-! ## One pass -/

structure Within (role : Role H) (st : List (Pod H)) (plan : Plan H) : Prop where
  create : plan.create = [] ∨
    (activePods st).length + (terminatingPods st).length + plan.create.length ≤ role.replicas + role.maxSurge
  delete : plan.delete ⊆ st
  nodup : st.Nodup → plan.delete.Nodup
  cancel : plan.cancel = []
  floor : plan.delete.countP (fun p => p.isActive && p.ready) = 0 ∨ (role.replicas : Int) - role.maxUnavailable ≤
    (readyPods st).length - (plan.delete.countP (fun p => p.isActive && p.ready) : Int)

section

variable {pods l st : List (Pod H)}

omit [DecidableEq H] in
theorem length_readyPods (hl : l.Perm st) : (readyPods (activePods l)).length = (readyPods st).length := by
  rw [readyPods, activePods, filter_filter, readyPods, ← (hl.filter _).length_eq]
  congr 1
  refine filter_congr fun p _ => ?_
  cases p.isActive <;> simp

omit [DecidableEq H] in
theorem countP_ready {picked : List (Pod H)} (h : ∀ p ∈ picked, p ∈ activePods l) :
    picked.countP (fun p => p.isActive && p.ready) = picked.countP ready :=
  countP_congr fun p hp => by rw [(mem_filter.1 (h p hp)).2, Bool.true_and]

theorem create_within {n len : Nat} {s count : Int} (h : count ≤ n + s - len) :
    replicate count.toNat (none : Option Nat) = [] ∨
      len + (replicate count.toNat (none : Option Nat)).length ≤ n + s := by
  rw [length_replicate]
  by_cases hpos : 0 < count
  · omega
  · left
    rw [show count.toNat = 0 by omega, replicate_zero]

omit [DecidableEq H] in
theorem create_perm (hl : l.Perm st) {count : Int}
    (h : count ≤ role.replicas + role.maxSurge - (activePods l).length - (terminatingPods l).length) :
    replicate count.toNat (none : Option Nat) = [] ∨ (activePods st).length + (terminatingPods st).length +
      (replicate count.toNat (none : Option Nat)).length ≤ role.replicas + role.maxSurge := by
  have hac : (activePods l).length = (activePods st).length := (hl.filter _).length_eq
  have htr : (terminatingPods l).length = (terminatingPods st).length := (hl.filter _).length_eq
  apply create_within
  omega

theorem outdatedToDelete_within (hl : l.Perm st) {budget : Int} {create : List (Option Nat)}
    (hbd : budget ≤ (readyPods (activePods l)).length - role.replicas + role.maxUnavailable) (hcr : create = [] ∨
      (activePods st).length + (terminatingPods st).length + create.length ≤ role.replicas + role.maxSurge) :
    Within role st ⟨create, outdatedToDelete role pass (activePods l) budget, []⟩ := by
  refine ⟨hcr, fun p hp => ?_, fun hnd => ?_, rfl, ?_⟩
  · exact hl.mem_iff.1 (mem_of_mem_filter (mem_outdatedToDelete hp).1)
  · exact select_sublist.nodup ((pass.byActive.perm _).nodup_iff.2 (((hl.nodup_iff.2 hnd).filter _).filter _))
  rw [length_readyPods hl] at hbd
  have hfl := @select_floor _ ready 0
    (pass.byActive.sort (outdatedPods role.templateHash (activePods l))).length budget
    (pass.byActive.sort (outdatedPods role.templateHash (activePods l)))
  change (outdatedToDelete role pass (activePods l) budget).countP ready = 0 ∨
    0 ≤ budget - ((outdatedToDelete role pass _ budget).countP ready : Int) at hfl
  rw [countP_ready fun p hp => (mem_outdatedToDelete hp).1]
  omega

theorem rollout_within (hl : l.Perm st) : Within role st (rollout role pass l) :=
  outdatedToDelete_within hl (Int.le_refl _) (create_perm hl (minInt32_le_left _ _))

theorem rolloutByStep_within (hl : l.Perm st) (step : Int) : Within role st (rolloutByStep role pass step l) := by
  unfold rolloutByStep
  dsimp only
  split_ifs
  · exact ⟨.inl rfl, nil_subset _, fun _ => nodup_nil, rfl, .inl rfl⟩
  · exact outdatedToDelete_within hl (minInt32_le_right _ _) (create_perm hl (minInt32_le_left _ _))

theorem scaleIn_eq (hdr : ∀ p ∈ l, p.drain = none) (diff : Nat) :
    scaleIn role pass l diff = select ready ((role.replicas : Int) - role.maxUnavailable) diff
      (readyPods l).length (pass.byTemplateHash.sort l) := by
  have hmem : ∀ p ∈ pass.byTemplateHash.sort l, p.isDraining = false := by
    intro p hp
    rw [isDraining, hdr p (pass.byTemplateHash.mem.1 hp), Option.isSome_none]
  have hnn : (pass.byTemplateHash.sort l).filter isDraining = [] := by
    rw [filter_eq_nil_iff]
    exact fun p hp => by simp [hmem p hp]
  have hall : (pass.byTemplateHash.sort l).filter (fun p => !p.isDraining) = pass.byTemplateHash.sort l := by
    rw [filter_eq_self]
    exact fun p hp => by simp [hmem p hp]
  have hrd : (readyPods (pass.byTemplateHash.sort l)).length = (readyPods l).length :=
    ((pass.byTemplateHash.perm l).filter _).length_eq
  simp [scaleIn, hnn, hall, hrd]

theorem mem_scaleIn {diff : Nat} (h : p ∈ scaleIn role pass l diff) : p ∈ l := by
  rcases mem_append.1 h with h | h
  · exact pass.byTemplateHash.mem.1 (mem_of_mem_filter (mem_of_mem_take h))
  · exact pass.byTemplateHash.mem.1 (mem_of_mem_filter (select_sublist.mem h))

theorem scaleIn_nodup (hnd : l.Nodup) {diff : Nat} : (scaleIn role pass l diff).Nodup := by
  have hsr := (pass.byTemplateHash.perm l).nodup_iff.2 hnd
  apply append ((hsr.filter _).sublist (take_sublist _ _)) (select_sublist.nodup (hsr.filter _))
  intro q hdr hnot
  have h₁ := (mem_filter.1 (mem_of_mem_take hdr)).2
  have h₂ := (mem_filter.1 (select_sublist.mem hnot)).2
  simp [h₁] at h₂

theorem scale_delete_cases (h : p ∈ (scale role pass l).delete) : (p ∈ l ∧ p.isActive = false) ∨
      (role.replicas < (activePods l).length ∧
        p ∈ scaleIn role pass (activePods l) (((activePods l).length : Int) - role.replicas).toNat) := by
  rcases mem_append.1 h with h | h
  · have := mem_filter.1 (mem_of_mem_filter h)
    exact .inl ⟨this.1, by simpa using this.2⟩
  · split_ifs at h with hdf
    · exact .inr ⟨by omega, h⟩
    · exact absurd h not_mem_nil

theorem scale_delete_subset (hl : l.Perm st) : (scale role pass l).delete ⊆ st := by
  intro p hp
  rcases scale_delete_cases hp with hp | hp
  · exact hl.mem_iff.1 hp.1
  · exact hl.mem_iff.1 (mem_of_mem_filter (mem_scaleIn hp.2))

theorem scale_within (hl : l.Perm st) (hdr : ∀ p ∈ st, p.drain = none) : Within role st (scale role pass l) := by
  have hdr' : ∀ p ∈ activePods l, p.drain = none := fun p hp => hdr p (hl.mem_iff.1 (mem_of_mem_filter hp))
  refine ⟨?_, scale_delete_subset hl, fun hnd => ?_, ?_, ?_⟩
  · unfold scale
    dsimp only
    split_ifs
    · exact create_perm hl (minInt32_le_right _ _)
    · exact .inl rfl
  · have hnd := hl.nodup_iff.2 hnd
    have hac : (activePods l).Nodup := hnd.filter _
    refine append ((hnd.filter _).filter _) ?_ ?_
    · split_ifs
      · exact scaleIn_nodup hac
      · exact nodup_nil
    intro q hic hin
    have h₁ := (mem_filter.1 (mem_of_mem_filter hic)).2
    split_ifs at hin
    · have h₂ := (mem_filter.1 (mem_scaleIn hin)).2
      simp [h₂] at h₁
    · exact absurd hin not_mem_nil
  · unfold scale staleScaleInDrainingPods
    rw [filter_eq_nil_iff]
    intro p hp
    simp [hdr' p hp]
  · have htr : ((inactivePods l).filter fun p => !p.terminating).countP (fun p => p.isActive && p.ready) = 0 := by
      rw [countP_eq_zero]
      intro p hp
      have := (mem_filter.1 (mem_of_mem_filter hp)).2
      simp_all
    unfold scale
    rw [countP_append, htr, Nat.zero_add]
    split_ifs with hdf
    · rw [countP_ready fun p hp => mem_scaleIn hp, scaleIn_eq hdr', length_readyPods hl]
      exact select_floor
    · exact .inl rfl

section

variable {kill : Pod H → Pod H × Result}

theorem Within.ready {plan : Plan H} (h : Within role st plan) (pass : Pass role.templateHash)
    (hnm : (st.map name).Nodup) (hkl : ∀ p, (kill p).1 = { p with terminating := true }) :
    (readyPods (plan.apply role pass kill st)).length + plan.delete.countP (fun p => p.isActive && p.ready) =
      (readyPods st).length := by
  have hcn := Plan.countP_apply role pass kill (fun p => p.isActive && p.ready) hnm h.cancel h.delete
    (h.nodup (of_map _ hnm))
  have hgn : (plan.delete.map fun p => (kill p).1).countP (fun p => p.isActive && p.ready) = 0 := by
    simp [hkl, isActive]
  have hnew : (role.newPods pass plan.create).countP (fun p => p.isActive && p.ready) = 0 := by
    rw [countP_eq_zero]
    intro p hp
    simp [(mem_newPods hp).2.1]
  rw [readyPods, readyPods, ← countP_eq_length_filter, ← countP_eq_length_filter]
  omega

theorem mem_apply {plan : Plan H} (hcn : plan.cancel = []) (pass : Pass role.templateHash)
    (hkl : ∀ p, (kill p).1 = { p with terminating := true }) (hp : p ∈ plan.apply role pass kill st)
    (hac : p.isActive = true) :
    p ∈ role.newPods pass plan.create ∨ (p ∈ st ∧ p.name ∉ plan.delete.map name) := by
  rcases mem_append.1 hp with hp | hp
  · right
    rw [hcn] at hp
    simp only [mark, map_nil, not_mem_nil, if_false, map_id'] at hp
    obtain ⟨q, hq, rfl⟩ := mem_map.1 hp
    split_ifs at hac ⊢ with hdel
    · simp [hkl, isActive] at hac
    · exact ⟨hq, hdel⟩
  · exact .inl hp

theorem updated_eq (role : Role H) (st : List (Pod H)) :
    role.updated st = st.countP fun p => p.isActive && decide (p.hash = role.templateHash) := by
  rw [Role.updated, updatedPods, activePods, filter_filter, countP_eq_length_filter]
  congr 1
  refine filter_congr fun p _ => ?_
  rw [Bool.and_comm]

theorem Within.updated {plan : Plan H} (h : Within role st plan) (pass : Pass role.templateHash)
    (hnm : (st.map name).Nodup) (hkl : ∀ p, (kill p).1 = { p with terminating := true })
    (hot : ∀ p ∈ plan.delete, p.hash ≠ role.templateHash) :
    role.updated (plan.apply role pass kill st) =
      role.updated st + (role.newPods pass plan.create).length := by
  have hcn := Plan.countP_apply role pass kill (fun p => p.isActive && decide (p.hash = role.templateHash)) hnm
    h.cancel h.delete (h.nodup (of_map _ hnm))
  have hdl : plan.delete.countP (fun p => p.isActive && decide (p.hash = role.templateHash)) = 0 := by
    rw [countP_eq_zero]
    intro p hp
    simp [hot p hp]
  have hgn : (plan.delete.map fun p => (kill p).1).countP
      (fun p => p.isActive && decide (p.hash = role.templateHash)) = 0 := by
    simp [hkl, isActive]
  have hnew : (role.newPods pass plan.create).countP (fun p => p.isActive && decide (p.hash = role.templateHash)) =
      (role.newPods pass plan.create).length := by
    rw [countP_eq_length]
    intro p hp
    simp [(mem_newPods hp).1, (mem_newPods hp).2.2.1]
  rw [updated_eq, updated_eq]
  omega

theorem rollout_leaves (hl : l.Perm st) (hp : p ∈ st) (hac : p.isActive = true)
    (hot : p.hash ≠ role.templateHash) (hnot : p.name ∉ (rollout role pass l).delete.map name) :
    p.ready = true ∧ ((readyPods st).length : Int) -
      ((rollout role pass l).delete.countP (fun p => p.isActive && p.ready) : Int) ≤
        (role.replicas : Int) - role.maxUnavailable := by
  have hmem : p ∈ activePods l := mem_filter.2 ⟨hl.mem_iff.2 hp, hac⟩
  have hlf : p ∉ (rollout role pass l).delete := fun h => hnot (mem_map_of_mem h)
  constructor
  · by_contra hrd
    exact hlf (mem_outdatedToDelete_of_not_ready (fun q hq => (mem_filter.1 hq).2) hmem hot (by simpa using hrd))
  have hst := outdatedToDelete_stopped hmem hot hlf
  have hrd : (rollout role pass l).delete.countP (fun p => p.isActive && p.ready) =
      (rollout role pass l).delete.countP ready :=
    countP_ready fun q hq => (mem_outdatedToDelete hq).1
  have hcn := length_readyPods hl
  change ((readyPods (activePods l)).length : Int) - role.replicas + role.maxUnavailable -
    ((rollout role pass l).delete.countP ready : Int) ≤ 0 at hst
  omega

theorem scale_spares_rollout (hnm : (st.map name).Nodup) (hdr : ∀ p ∈ st, p.drain = none)
    (hl : l.Perm st) (hkl : ∀ p, (kill p).1 = { p with terminating := true })
    {pass' : Pass role.templateHash} {l' : List (Pod H)}
    (hl' : l'.Perm ((rollout role pass l).apply role pass kill st)) (hnew : p ∈ role.newPods pass (rollout role pass l).create) :
    p ∉ (scale role pass' l').delete := by
  intro hdl
  have hwt : Within role st (rollout role pass l) := rollout_within hl
  obtain ⟨hpc, hpr, hph, -, -⟩ := mem_newPods hnew
  obtain ⟨-, hic⟩ | ⟨hmn, hin⟩ := scale_delete_cases hdl
  · rw [hpc] at hic
    cases hic
  have hold : ∀ {q}, q ∈ activePods l' → q ∈ role.newPods pass (rollout role pass l).create ∨
      (q ∈ st ∧ q.name ∉ (rollout role pass l).delete.map name) := fun hq =>
    mem_apply rfl pass hkl (hl'.mem_iff.1 (mem_of_mem_filter hq)) (mem_filter.1 hq).2
  have hnn : ∀ q ∈ activePods l', q.drain = none := by
    intro q hq
    rcases hold hq with hq | hq
    · exact (mem_newPods hq).2.2.2.1
    · exact hdr q hq.1
  rw [scaleIn_eq hnn] at hin
  -- an outdated pod that the rollout left would be taken before the new pod, and cannot be
  have hup : ∀ q ∈ activePods l', q.hash = role.templateHash := by
    intro q hq
    by_contra hot
    obtain hqn | ⟨hqst, hql⟩ := hold hq
    · exact hot (mem_newPods hqn).2.2.1
    obtain ⟨hqr, hfew⟩ := rollout_leaves hl hqst (mem_filter.1 hq).2 hot hql
    have hbf : beforeByTemplateHash role.templateHash q p := by
      left
      simp [hashClass, hph, hot, hpr, hqr]
    have htk := mem_select_of_before (pass'.byTemplateHash.sorted _) hin (pass'.byTemplateHash.mem.2 hq) hbf
    have hpos := (countP_pos_iff (p := ready)).2 ⟨q, htk, hqr⟩
    have hfl := @select_floor _ ready ((role.replicas : Int) - role.maxUnavailable)
      (((activePods l').length : Int) - role.replicas).toNat (readyPods (activePods l')).length
      (pass'.byTemplateHash.sort (activePods l'))
    have hrd := hwt.ready pass hnm hkl
    have hcn := length_readyPods hl'
    omega
  have hall : role.updated l' = (activePods l').length := by
    rw [Role.updated, updatedPods, filter_eq_self.2]
    intro q hq
    simpa using hup q hq
  have hcn := hwt.updated pass hnm hkl fun q hq => (mem_outdatedToDelete hq).2
  have hpm : role.updated l' =
      role.updated ((rollout role pass l).apply role pass kill st) :=
    ((hl'.filter _).filter _).length_eq
  have hlp : role.updated l =
      role.updated st := ((hl.filter _).filter _).length_eq
  have hlen := newPods_length_le role pass (rollout role pass l).create
  have hpos := length_pos_of_mem hnew
  have hbd := minInt32_le_right (role.replicas + role.maxSurge - (activePods l).length - (terminatingPods l).length)
    (role.replicas - role.updated l)
  have hcr : (rollout role pass l).create.length = (minInt32 (role.replicas + role.maxSurge - (activePods l).length -
      (terminatingPods l).length) (role.replicas - role.updated l)).toNat :=
    length_replicate
  omega

end

end

/-! ## Runs -/

inductive Op
  | scale
  | rollout
  | rolloutByStep (step : Int)

def Op.plan (op : Op) (role : Role H) (pass : Pass role.templateHash) (pods : List (Pod H)) : Plan H :=
  match op with
  | .scale => Stateless.scale role pass pods
  | .rollout => Stateless.rollout role pass pods
  | .rolloutByStep step => Stateless.rolloutByStep role pass step pods

def Op.kill (op : Op) (role : Role H) (now : Int) : Pod H → Pod H × Result :=
  match op with
  | .scale => role.killForScale now
  | .rollout | .rolloutByStep _ => role.killForRollout now

def Op.run (op : Op) (role : Role H) (pass : Pass role.templateHash) (l st : List (Pod H)) : List (Pod H) :=
  (op.plan role pass l).apply role pass (op.kill role pass.now) st

inductive Reaches (role : Role H) : List (Pod H) → Prop
  | start {st} : (st.map Pod.name).Nodup → (∀ p ∈ st, p.drain = none) → Reaches role st
  | pass {st l} (op : Op) (pass : Pass role.templateHash) : Reaches role st → l.Perm st →
      Function.Injective pass.names → (∀ i, pass.names i ∉ st.map Pod.name) → Reaches role (op.run role pass l st)
  | changes {st} (ready fails : Pod H → Bool) : Reaches role st →
      Reaches role (st.map fun p => { p with ready := ready p, failed := p.failed || fails p })
  | gone {st} (stays : Pod H → Bool) : Reaches role st → (∀ p ∈ st, p.terminating = false → stays p = true) →
      Reaches role (st.filter stays)

omit [DecidableEq H] in
theorem Op.kill_fst {role : Role H} (hdr : role.drainTimeout ≤ 0) (op : Op) (now : Int) (p : Pod H) :
    (op.kill role now p).1 = { p with terminating := true } := by
  cases op
  · exact killForScale_fst hdr now p
  · exact killForRollout_fst hdr now p
  · exact killForRollout_fst hdr now p

theorem Op.plan_within (op : Op) {st : List (Pod H)} (hl : l.Perm st) (hdr : ∀ p ∈ st, p.drain = none) :
    Within role st (op.plan role pass l) := by
  cases op with
  | scale => exact scale_within hl hdr
  | rollout => exact rollout_within hl
  | rolloutByStep step => exact rolloutByStep_within hl step

theorem Reaches.sound (hdr : role.drainTimeout ≤ 0) {st : List (Pod H)} (h : Reaches role st) :
    (st.map name).Nodup ∧ ∀ p ∈ st, p.drain = none := by
  induction h with
  | start hnm hnn => exact ⟨hnm, hnn⟩
  | @pass st l op pass _ hl hinj hfr ih =>
    refine ⟨Plan.names_apply (fun p => by rw [Op.kill_fst hdr]) ih.1 hinj hfr, fun p hp => ?_⟩
    rcases mem_append.1 hp with hp | hp
    · rw [(op.plan_within hl ih.2).cancel] at hp
      simp only [mark, map_nil, not_mem_nil, if_false, map_id'] at hp
      obtain ⟨q, hq, rfl⟩ := mem_map.1 hp
      split_ifs
      · rw [Op.kill_fst hdr]
        exact ih.2 q hq
      · exact ih.2 q hq
    · exact (mem_newPods hp).2.2.2.1
  | changes ready fails _ ih =>
    refine ⟨by simpa [Function.comp_def] using ih.1, fun p hp => ?_⟩
    obtain ⟨q, hq, rfl⟩ := mem_map.1 hp
    exact ih.2 q hq
  | gone stays _ _ ih =>
    exact ⟨(filter_sublist.map _).nodup ih.1, fun p hp => ih.2 p (mem_of_mem_filter hp)⟩

theorem rolloutByStep_updated (hdr : role.drainTimeout ≤ 0) {st : List (Pod H)} (hl : l.Perm st)
    (hnm : (st.map name).Nodup) (step : Int) {updated : Nat}
    (hup : role.updated ((Op.rolloutByStep step).run role pass l st) = updated) :
    updated = role.updated st ∨
      ((updated : Int) ≤ step * (role.maxSurge + role.maxUnavailable) ∧ updated ≤ role.replicas) := by
  have hwt : Within role st (rolloutByStep role pass step l) := rolloutByStep_within hl step
  have hcn := hwt.updated pass hnm (Op.kill_fst hdr (.rolloutByStep step) pass.now) fun q hq => by
    unfold rolloutByStep at hq
    dsimp only at hq
    split_ifs at hq
    · exact absurd hq not_mem_nil
    · exact (mem_outdatedToDelete hq).2
  change role.updated ((Op.rolloutByStep step).run role pass l st) = _ at hcn
  have hlen := newPods_length_le role pass (rolloutByStep role pass step l).create
  have hpr : (updatedPods role.templateHash (activePods l)).length =
      role.updated st := ((hl.filter _).filter _).length_eq
  generalize hcr : (rolloutByStep role pass step l).create = create at hcn hlen
  unfold rolloutByStep at hcr
  dsimp only at hcr
  split_ifs at hcr with hdn
  · have hzr : create.length = 0 := by rw [← hcr]; rfl
    omega
  have hbd := minInt32_le_right (role.replicas + role.maxSurge - (activePods l).length - (terminatingPods l).length)
    (minInt32 ((role.maxSurge + role.maxUnavailable) * step) role.replicas -
      (updatedPods role.templateHash (activePods l)).length)
  have hlf := minInt32_le_left ((role.maxSurge + role.maxUnavailable) * step) role.replicas
  have hrg := minInt32_le_right ((role.maxSurge + role.maxUnavailable) * step) role.replicas
  have hln := congrArg length hcr
  rw [length_replicate] at hln
  rw [Int.mul_comm]
  omega

theorem rollout_keeps_budgets (role : Role H) (hdrain : role.drainTimeout ≤ 0) {st : List (Pod H)} (h : Reaches role st)
    (pass : Pass role.templateHash) {l : List (Pod H)} (hl : l.Perm st) :
    (∀ op : Op, role.newPods pass (op.plan role pass l).create ≠ [] → (activePods st).length + (terminatingPods st).length +
      (role.newPods pass (op.plan role pass l).create).length ≤ role.replicas + role.maxSurge) ∧
    (∀ op : Op, (readyPods (op.run role pass l st)).length = (readyPods st).length ∨
      role.replicas ≤ (readyPods (op.run role pass l st)).length + role.maxUnavailable) ∧
    (∀ (pass' : Pass role.templateHash) (l' : List (Pod H)), l'.Perm (Op.rollout.run role pass l st) →
      ∀ p ∈ role.newPods pass (rollout role pass l).create, p ∉ (scale role pass' l').delete) ∧ ∀ step : Int,
      (updatedPods role.templateHash (activePods ((Op.rolloutByStep step).run role pass l st))).length =
        (updatedPods role.templateHash (activePods st)).length ∨
      (((updatedPods role.templateHash (activePods ((Op.rolloutByStep step).run role pass l st))).length : Int) ≤
          step * (role.maxSurge + role.maxUnavailable) ∧
        (updatedPods role.templateHash (activePods ((Op.rolloutByStep step).run role pass l st))).length ≤
          role.replicas) := by
  obtain ⟨hnames, hnone⟩ := h.sound hdrain
  have hplan : ∀ op : Op, Within role st (op.plan role pass l) := fun op => op.plan_within hl hnone
  refine ⟨fun op hnew => ?_, fun op => ?_, fun pass' l' hl' p hp => ?_, fun step => ?_⟩
  · have hlen := newPods_length_le role pass (op.plan role pass l).create
    have hcreate := (hplan op).create.resolve_left fun hnil => by simp [hnil, Role.newPods] at hnew
    omega
  · have hwithin := hplan op
    have hready := hwithin.ready pass hnames (Op.kill_fst hdrain op pass.now)
    change (readyPods (op.run role pass l st)).length + _ = _ at hready
    rcases hwithin.floor with hzero | hfloor
    · omega
    · omega
  · exact scale_spares_rollout hnames hnone hl (Op.kill_fst hdrain .rollout pass.now) hl' hp
  · exact rolloutByStep_updated hdrain hl hnames step rfl

/-- One pod of hash 0 is replaced at a time, the new one first. -/
theorem rollout_keeps_budgets_surge :
    let role : Role Nat := ⟨2, 1, some (.int 1), none, none⟩
    let pass : Pass role.templateHash := ⟨0, lessByActive_decides.sorting, (lessByTemplateHash_decides 1).sorting, (· + 2), fun _ => 5⟩
    let st : List (Pod Nat) := [⟨0, 0, none, false, false, true, 1, none⟩, ⟨1, 0, none, false, false, true, 2, none⟩]
    Op.rollout.run role pass st st = st ++ [⟨2, 1, none, false, false, false, 5, none⟩] ∧
    (scale role pass (Op.rollout.run role pass st st)).delete = [] ∧
    ∀ p ∈ role.newPods pass (rollout role pass st).create, p ∉ (scale role pass (Op.rollout.run role pass st st)).delete := by
  refine ⟨by decide, by decide, ?_⟩
  exact (rollout_keeps_budgets _ (by decide) (.start (by decide) (by decide)) _ (.refl _)).2.2.1 _ _ (.refl _)

end Stateless

end Aibrix.RoleSet
