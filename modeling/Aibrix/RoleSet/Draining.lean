import Aibrix.RoleSet.StatelessRuns

/-! # Draining the pods of a stateless role

A pod with a drain timeout stays active and ready while it drains, so every pass has to go on with it. -/

namespace Aibrix.RoleSet

open Lib List Pod

variable {H : Type} [DecidableEq H]

/-! ## The fate of one pod -/

def Pod.drainsFor (p : Pod H) (reason : DrainReason) : Bool := p.drain.map DrainState.reason = some reason

def Pod.serves (p : Pod H) : Bool := p.isActive && p.ready && !p.isDraining

def Pod.Valid (p : Pod H) : Prop := ∀ d, p.drain = some d → d.start.isSome

variable {p : Pod H}

section

omit [DecidableEq H]

theorem deletePod_cases (hvl : p.Valid) (timeout : Int) (reason : DrainReason) (now : Int) :
    let r := deletePod timeout reason now p
    r.1 = { p with terminating := true } ∨
    (r.1 = p ∧ (p.isActive = true → p.isDraining = true)) ∨
    (p.drain = none ∧ p.isActive = true ∧ r.1 = { p with drain := some ⟨reason, some now⟩ }) := by
  unfold deletePod
  split_ifs
  · exact .inl (deletePodImmediately_fst p)
  unfold processPod
  split_ifs with htr hfl
  · exact .inr (.inl ⟨rfl, fun h => by simp [isActive, htr] at h⟩)
  · exact .inl (deletePodImmediately_fst p)
  have hac : p.isActive = true := by simp [isActive, htr, hfl]
  split
  next hdr => exact .inr (.inr ⟨hdr, hac, rfl⟩)
  next hdr => cases hvl _ hdr
  next hdr =>
    have hdn : p.isDraining = true := by simp [isDraining, hdr]
    dsimp only
    split_ifs
    · exact .inr (.inl ⟨rfl, fun _ => hdn⟩)
    · exact .inl rfl
    · exact .inr (.inl ⟨rfl, fun _ => hdn⟩)

theorem killForRollout_not_ready (role : Role H) (now : Int) (h : p.ready = false) :
    (role.killForRollout now p).1 = { p with terminating := true } := by
  rw [Role.killForRollout, deletePodForRollout, if_neg (by simp [h]), deletePod, if_pos (Int.le_refl 0),
    deletePodImmediately_fst]

theorem killForRollout_cases (role : Role H) (now : Int) (p : Pod H) :
    (role.killForRollout now p).1 = { p with terminating := true } ∨
      role.killForRollout now p = deletePod role.drainTimeout .rollout now p := by
  by_cases hrd : p.ready = true
  · exact .inr (by rw [Role.killForRollout, deletePodForRollout, if_pos hrd])
  · exact .inl (killForRollout_not_ready role now (by simpa using hrd))

theorem cancelPod_cases (p : Pod H) (reason : DrainReason) :
    (cancelPod reason p).1 = p ∨ (p.drainsFor reason = true ∧ (cancelPod reason p).1 = { p with drain := none }) := by
  unfold cancelPod
  split_ifs
  · exact .inl rfl
  split
  next => exact .inl rfl
  next d hdr =>
    split_ifs with hrs
    · exact .inr ⟨by simp [drainsFor, hdr, hrs], rfl⟩
    · exact .inl rfl

end

/-! ## The pods after a pass -/

inductive Plan.Makes (plan : Plan H) (kill : Pod H → Pod H × Result) (p : Pod H) : Pod H → Prop
  | deleted : p ∈ plan.delete → plan.Makes kill p (kill p).1
  | cancelled : p ∉ plan.delete → p ∈ plan.cancel → plan.Makes kill p (cancelPod .scaleIn p).1
  | left : p ∉ plan.delete → p ∉ plan.cancel → plan.Makes kill p p

variable {kill : Pod H → Pod H × Result}

theorem Plan.mem_apply {role : Role H} {pass : Pass role.templateHash} {plan : Plan H}
    {st : List (Pod H)} (hnm : (st.map name).Nodup) (hdl : plan.delete ⊆ st) (hcn : plan.cancel ⊆ st)
    (hds : ∀ p ∈ plan.cancel, p ∉ plan.delete) {p' : Pod H} (h : p' ∈ plan.apply role pass kill st) :
    p' ∈ role.newPods pass plan.create ∨ ∃ p ∈ st, plan.Makes kill p p' := by
  have hmem : ∀ {taken : List (Pod H)} {p : Pod H}, taken ⊆ st → p ∈ st → (p.name ∈ taken.map name ↔ p ∈ taken) := by
    intro taken p hsub hp
    constructor
    · intro hin
      obtain ⟨q, hq, hna⟩ := mem_map.1 hin
      rwa [← inj_on_of_nodup_map hnm (hsub hq) hp hna]
    · exact fun hin => mem_map_of_mem hin
  obtain h | h := mem_append.1 h
  · right
    obtain ⟨q, hq, rfl⟩ := mem_map.1 h
    obtain ⟨p, hp, rfl⟩ := mem_map.1 hq
    refine ⟨p, hp, ?_⟩
    simp only [hmem hcn hp]
    by_cases hpc : p ∈ plan.cancel
    · rw [if_pos hpc, cancelPod_name]
      simp only [hmem hdl hp, if_neg (hds p hpc)]
      exact .cancelled (hds p hpc) hpc
    simp only [if_neg hpc, hmem hdl hp]
    split_ifs with hpd
    · exact .deleted hpd
    · exact .left hpd hpc
  · exact .inl h

structure SamePod (p p' : Pod H) : Prop where
  name : p'.name = p.name
  hash : p'.hash = p.hash
  ready : p'.ready = p.ready
  created : p'.created = p.created
  active : p'.isActive = true → p.isActive = true

section

omit [DecidableEq H]

theorem SamePod.refl (p : Pod H) : SamePod p p := ⟨rfl, rfl, rfl, rfl, id⟩

theorem SamePod.terminate (p : Pod H) : SamePod p { p with terminating := true } :=
  ⟨rfl, rfl, rfl, rfl, fun h => by simp [isActive] at h⟩

theorem SamePod.drain (p : Pod H) (drain : Option DrainState) : SamePod p { p with drain } := ⟨rfl, rfl, rfl, rfl, id⟩

end

/-- What a pass of scaling or of a rollout makes of the drain of a pod that stays active: it is as it was, was started, or
was a scale-in that is cancelled. -/
structure Treats (reason : DrainReason) (plan : Plan H) (p p' : Pod H) : Prop where
  same : SamePod p p'
  valid : p'.Valid
  drain : p'.isActive = true → p'.drain = p.drain ∨ (p ∈ plan.delete ∧ p.drain = none ∧ p'.drainsFor reason = true) ∨
    (p ∈ plan.cancel ∧ p.drainsFor .scaleIn = true ∧ p'.drain = none)
  continued : p'.isActive = true → p ∈ plan.delete → p'.isDraining = true

variable {reason : DrainReason}

omit [DecidableEq H] in
theorem Makes.treats {plan : Plan H} {p' : Pod H} (timeout now : Int) (hvl : p.Valid)
    (hkl : (kill p).1 = { p with terminating := true } ∨ kill p = deletePod timeout reason now p)
    (h : plan.Makes kill p p') : Treats reason plan p p' := by
  have hst : ∀ {q : Pod H}, q = { p with terminating := true } → Treats reason plan p q := by
    rintro q rfl
    have hnot : ¬ ({ p with terminating := true } : Pod H).isActive = true := by simp [isActive]
    exact ⟨.terminate p, hvl, fun h => absurd h hnot, fun h => absurd h hnot⟩
  cases h with
  | deleted hin =>
    obtain hkl | hkl := hkl
    · exact hst hkl
    rw [hkl]
    obtain heq | ⟨heq, hdr⟩ | ⟨hnn, -, heq⟩ := deletePod_cases hvl timeout reason now
    · exact hst heq
    · rw [heq]
      exact ⟨.refl p, hvl, fun _ => .inl rfl, fun hac _ => hdr hac⟩
    rw [heq]
    refine ⟨.drain p _, ?_, fun _ => .inr (.inl ⟨hin, hnn, by simp [drainsFor]⟩), fun _ _ => rfl⟩
    rintro d hd
    obtain rfl := Option.some.inj hd
    rfl
  | cancelled hnot hin =>
    obtain heq | ⟨hscaleIn, heq⟩ := cancelPod_cases p .scaleIn
    · rw [heq]
      exact ⟨.refl p, hvl, fun _ => .inl rfl, fun _ h => absurd h hnot⟩
    · rw [heq]
      exact ⟨.drain p _, fun d hd => (by cases hd), fun _ => .inr (.inr ⟨hin, hscaleIn, rfl⟩), fun _ h => absurd h hnot⟩
  | left hnot _ => exact ⟨.refl p, hvl, fun _ => .inl rfl, fun _ h => absurd h hnot⟩

namespace Stateless

variable {role : Role H} {pass : Pass role.templateHash} {p p' : Pod H}

section

variable {st active l : List (Pod H)}

omit [DecidableEq H] in
theorem stale_disjoint {toDelete : List (Pod H)} (h : p ∈ staleScaleInDrainingPods active toDelete) : p ∉ toDelete := by
  intro hin
  have := (mem_filter.1 h).2
  simp only [Bool.and_eq_true, Bool.not_eq_true', any_eq_false, decide_eq_true_eq] at this
  exact this.2 p hin rfl

theorem scale_treats (hnm : (st.map name).Nodup) (hvl : ∀ p ∈ st, p.Valid) (hl : l.Perm st)
    (h : p' ∈ Op.scale.run role pass l st) :
    p' ∈ role.newPods pass (scale role pass l).create ∨ ∃ p ∈ st, Treats .scaleIn (scale role pass l) p p' := by
  have hcn : (scale role pass l).cancel ⊆ st := fun p hp =>
    hl.mem_iff.1 (mem_of_mem_filter (mem_of_mem_filter hp))
  obtain h | ⟨p, hp, h⟩ := Plan.mem_apply hnm (scale_delete_subset hl) hcn (fun p hp => stale_disjoint hp) h
  · exact .inl h
  · exact .inr ⟨p, hp, Makes.treats role.drainTimeout pass.now (hvl p hp) (.inr rfl) h⟩

theorem rollout_treats (hnm : (st.map name).Nodup) (hvl : ∀ p ∈ st, p.Valid)
    (hl : l.Perm st) (h : p' ∈ Op.rollout.run role pass l st) :
    let r := rollout role pass l
    p' ∈ role.newPods pass r.create ∨ ∃ p ∈ st, Treats .rollout r p p' ∧ (p ∈ r.delete → p'.isActive = true →
      p.ready = true) := by
  obtain h | ⟨p, hp, h⟩ := Plan.mem_apply hnm ((rollout_within hl).delete) (nil_subset _) (by simp [rollout]) h
  · exact .inl h
  refine .inr ⟨p, hp, ?_, fun hin hac => ?_⟩
  · exact Makes.treats role.drainTimeout pass.now (hvl p hp) (killForRollout_cases role pass.now p) h
  by_contra hrd
  cases h with
  | deleted _ =>
    rw [show (Op.rollout.kill role pass.now p).1 = { p with terminating := true } from
      killForRollout_not_ready role pass.now (by simpa using hrd)] at hac
    simp [isActive] at hac
  | cancelled hnot _ | left hnot _ => exact hnot hin

/-! ## Rollout drains are the newest outdated pods -/

/-- Every drain has a start; a pod that drains for a rollout is outdated, and so do all the outdated pods that are
newer. -/
structure Sound (role : Role H) (st : List (Pod H)) : Prop where
  names : (st.map Pod.name).Nodup
  valid : ∀ p ∈ st, p.Valid
  outdated : ∀ p ∈ st, p.isActive = true → p.drainsFor .rollout = true → p.hash ≠ role.templateHash
  newer : ∀ p ∈ st, ∀ q ∈ st, p.isActive = true → q.isActive = true → p.drainsFor .rollout = true →
    q.hash ≠ role.templateHash → p.created < q.created → q.drainsFor .rollout = true

/-- When a rollout can tell which pods it drains: no two active pods are of one age, and none drains for a scale-in. -/
structure Clear (st : List (Pod H)) : Prop where
  created : ∀ p ∈ st, ∀ q ∈ st, p.isActive = true → q.isActive = true → p.created = q.created → p = q
  scaleIn : ∀ p ∈ st, p.isActive = true → p.drainsFor .scaleIn = false

section

omit [DecidableEq H]

theorem drainsFor_of_isDraining (h : p.isDraining = true) (hnot : p.drainsFor .scaleIn = false) :
    p.drainsFor .rollout = true := by
  obtain ⟨d, hd⟩ := Option.isSome_iff_exists.1 h
  rcases hrs : d.reason with _ | _
  · simp [drainsFor, hd, hrs] at hnot
  · simp [drainsFor, hd, hrs]

theorem isDraining_of_drainsFor (h : p.drainsFor reason = true) : p.isDraining = true := by
  rw [isDraining]
  rcases hdr : p.drain with _ | d
  · simp [drainsFor, hdr] at h
  · rfl

theorem not_drainsFor (h : p.drain = none) (reason : DrainReason) : p.drainsFor reason = false := by
  simp [drainsFor, h]

theorem drainsFor_congr (h : p'.drain = p.drain) (reason : DrainReason) : p'.drainsFor reason = p.drainsFor reason := by
  rw [drainsFor, h, drainsFor]

theorem drainsFor_unique {r r' : DrainReason} (h : p.drainsFor r = true) (h' : p.drainsFor r' = true) : r = r' := by
  simp only [drainsFor, decide_eq_true_eq] at h h'
  exact Option.some.inj (h.symm.trans h')

theorem scale_drainsFor {plan : Plan H} (h : Treats .scaleIn plan p p') (hac : p'.isActive = true) :
    p'.drainsFor .rollout = p.drainsFor .rollout := by
  obtain heq | ⟨-, hnn, hst⟩ | ⟨-, hscaleIn, hnn⟩ := h.drain hac
  · exact drainsFor_congr heq _
  · rw [not_drainsFor hnn, Bool.eq_false_iff]
    exact fun h => DrainReason.noConfusion (drainsFor_unique h hst)
  · rw [not_drainsFor hnn, eq_comm, Bool.eq_false_iff]
    exact fun h => DrainReason.noConfusion (drainsFor_unique h hscaleIn)

end

theorem newPods_valid {create : List (Option Nat)} (h : p ∈ role.newPods pass create) : p.Valid := fun d hd => by
  rw [(mem_newPods h).2.2.2.1] at hd
  cases hd

theorem Sound.scale (hs : Sound role st) (hl : l.Perm st) (hinj : Function.Injective pass.names)
    (hfr : ∀ i, pass.names i ∉ st.map name) : Sound role (Op.scale.run role pass l st) := by
  have hor := fun {p'} (h : p' ∈ Op.scale.run role pass l st) => scale_treats hs.names hs.valid hl h
  -- a pod that drains for a rollout is not new, and did so before
  have hold : ∀ {p'}, p' ∈ Op.scale.run role pass l st → p'.isActive = true → p'.drainsFor .rollout = true →
      ∃ p ∈ st, p.isActive = true ∧ p.drainsFor .rollout = true ∧ p'.hash = p.hash ∧ p'.created = p.created := by
    intro p' hp' hac hdr
    obtain hnew | ⟨p, hp, ht⟩ := hor hp'
    · rw [not_drainsFor (mem_newPods hnew).2.2.2.1] at hdr
      cases hdr
    · exact ⟨p, hp, ht.same.active hac, by rwa [← scale_drainsFor ht hac], ht.same.hash, ht.same.created⟩
  refine ⟨Plan.names_apply (fun p => deletePod_name _ _ _ p) hs.names hinj hfr, fun p' hp' => ?_,
    fun p' hp' hac hdr => ?_, fun p' hp' q' hq' hpc hqc hdr hot hnw => ?_⟩
  · obtain hnew | ⟨p, hp, ht⟩ := hor hp'
    · exact newPods_valid hnew
    · exact ht.valid
  · obtain ⟨p, hp, hpa, hpd, hhs, -⟩ := hold hp' hac hdr
    rw [hhs]
    exact hs.outdated p hp hpa hpd
  · obtain ⟨p, hp, hpa, hpd, -, hcr⟩ := hold hp' hpc hdr
    obtain hnew | ⟨q, hq, ht⟩ := hor hq'
    · exact absurd (mem_newPods hnew).2.2.1 hot
    rw [scale_drainsFor ht hqc]
    rw [ht.same.hash] at hot
    rw [hcr, ht.same.created] at hnw
    exact hs.newer p hp q hq hpa (ht.same.active hqc) hpd hot hnw

theorem rollout_newer (hl : l.Perm st) (hp : p ∈ (rollout role pass l).delete) (hrd : p.ready = true)
    {q : Pod H} (hq : q ∈ st) (hqc : q.isActive = true) (hot : q.hash ≠ role.templateHash)
    (hnw : q.ready = true → p.created < q.created) : q ∈ (rollout role pass l).delete := by
  have hmem : q ∈ activePods l := mem_filter.2 ⟨hl.mem_iff.2 hq, hqc⟩
  by_cases hqr : q.ready = true
  · have hpc := (mem_filter.1 (mem_outdatedToDelete hp).1).2
    refine Disruption.mem_select_of_before (pass.byActive.sorted _) hp (pass.byActive.mem.2 ?_) (.inr ?_)
    · simpa [outdatedPods] using ⟨hmem, hot⟩
    · simpa [activeClass, hpc, hqc, hrd, hqr] using hnw hqr
  · exact mem_outdatedToDelete_of_not_ready (fun r hr => (mem_filter.1 hr).2) hmem hot (by simpa using hqr)

variable {d : Pod H}

theorem rollout_covers (hs : Sound role st) (hcl : Clear st) (hl : l.Perm st)
    (hp : p ∈ (rollout role pass l).delete) (hrd : p.ready = true) (hnn : p.drain = none) (hd : d ∈ st)
    (hdc : d.isActive = true) (hdr : d.isDraining = true) : d ∈ (rollout role pass l).delete := by
  have hpst := (rollout_within hl).delete hp
  obtain ⟨hpm, hpt⟩ := mem_outdatedToDelete hp
  have hpc := (mem_filter.1 hpm).2
  have hdf := drainsFor_of_isDraining hdr (hcl.scaleIn d hd hdc)
  refine rollout_newer hl hp hrd hd hdc (hs.outdated d hd hdc hdf) fun _ => ?_
  obtain hlt | heq | hgt := Int.lt_trichotomy p.created d.created
  · exact hlt
  · rw [← hcl.created p hpst d hd hpc hdc heq, isDraining, hnn] at hdr
    cases hdr
  · have := hs.newer d hd p hpst hdc hpc hdf hpt hgt
    rw [not_drainsFor hnn] at this
    cases this

theorem Sound.rollout (hs : Sound role st) (hcl : Clear st) (hl : l.Perm st)
    (hinj : Function.Injective pass.names) (hfr : ∀ i, pass.names i ∉ st.map name) :
    Sound role (Op.rollout.run role pass l st) := by
  have hor := fun {p'} (h : p' ∈ Op.rollout.run role pass l st) => rollout_treats hs.names hs.valid hl h
  -- a pod that drains for a rollout is not new; it did so before or was ready and taken
  have hold : ∀ {p'}, p' ∈ Op.rollout.run role pass l st → p'.isActive = true → p'.drainsFor .rollout = true →
      ∃ p ∈ st, p.isActive = true ∧ p'.hash = p.hash ∧ p'.created = p.created ∧ (p.drainsFor .rollout = true ∨
        (p ∈ (Stateless.rollout role pass l).delete ∧ p.ready = true)) := by
    intro p' hp' hac hdr
    obtain hnew | ⟨p, hp, ht, htk⟩ := hor hp'
    · rw [not_drainsFor (mem_newPods hnew).2.2.2.1] at hdr
      cases hdr
    refine ⟨p, hp, ht.same.active hac, ht.same.hash, ht.same.created, ?_⟩
    obtain heq | ⟨hin, -, -⟩ | ⟨hcn, -, -⟩ := ht.drain hac
    · exact .inl (by rwa [← drainsFor_congr heq])
    · exact .inr ⟨hin, htk hin hac⟩
    · exact absurd hcn not_mem_nil
  refine ⟨Plan.names_apply (fun p => deletePodForRollout_name _ _ p) hs.names hinj hfr, fun p' hp' => ?_,
    fun p' hp' hac hdr => ?_, fun p' hp' q' hq' hpc hqc hdr hot hnw => ?_⟩
  · obtain hnew | ⟨p, hp, ht, -⟩ := hor hp'
    · exact newPods_valid hnew
    · exact ht.valid
  · obtain ⟨p, hp, hpa, hhs, -, hpd | ⟨hin, -⟩⟩ := hold hp' hac hdr
    · rw [hhs]
      exact hs.outdated p hp hpa hpd
    · rw [hhs]
      exact (mem_outdatedToDelete hin).2
  obtain ⟨p, hp, hpa, -, hcr, hpd⟩ := hold hp' hpc hdr
  obtain hnew | ⟨q, hq, ht, -⟩ := hor hq'
  · exact absurd (mem_newPods hnew).2.2.1 hot
  rw [ht.same.hash] at hot
  rw [hcr, ht.same.created] at hnw
  have hqa := ht.same.active hqc
  have hdn : q'.isDraining = true := by
    obtain hpd | ⟨hin, hrd⟩ := hpd
    · have hqd := hs.newer p hp q hq hpa hqa hpd hot hnw
      obtain heq | ⟨-, hnn, -⟩ | ⟨hcn, -, -⟩ := ht.drain hqc
      · rw [isDraining, heq]
        exact isDraining_of_drainsFor hqd
      · rw [not_drainsFor hnn] at hqd
        cases hqd
      · exact absurd hcn not_mem_nil
    · exact ht.continued hqc (rollout_newer hl hin hrd hq hqa hot fun _ => hnw)
  apply drainsFor_of_isDraining hdn
  obtain heq | ⟨-, -, hst⟩ | ⟨hcn, -, -⟩ := ht.drain hqc
  · rw [drainsFor_congr heq]
    exact hcl.scaleIn q hq hqa
  · rw [Bool.eq_false_iff]
    exact fun h => DrainReason.noConfusion (drainsFor_unique h hst)
  · exact absurd hcn not_mem_nil

/-! ## The promises of draining -/

def serving (st : List (Pod H)) : Nat := st.countP Pod.serves

theorem serving_rollout (hs : Sound role st) (hl : l.Perm st) :
    serving (Op.rollout.run role pass l st) + (rollout role pass l).delete.countP serves = serving st := by
  have hwt : Within role st (rollout role pass l) := rollout_within hl
  have hcn := Plan.countP_apply role pass (role.killForRollout pass.now) serves hs.names hwt.cancel
    hwt.delete (hwt.nodup (List.Nodup.of_map _ hs.names))
  have hnew : (role.newPods pass (rollout role pass l).create).countP serves = 0 := by
    rw [countP_eq_zero]
    intro p hp
    simp [serves, (mem_newPods hp).2.1]
  have hgn : ((rollout role pass l).delete.map fun p => (role.killForRollout pass.now p).1).countP serves = 0 := by
    rw [countP_map, countP_eq_zero]
    intro p hp hsr
    have ht : Treats .rollout (rollout role pass l) p (role.killForRollout pass.now p).1 :=
      Makes.treats role.drainTimeout pass.now (hs.valid p (hwt.delete hp)) (killForRollout_cases role pass.now p)
        (.deleted hp)
    simp only [Function.comp_apply, serves, Bool.and_eq_true] at hsr
    rw [ht.continued hsr.1.1 hp] at hsr
    cases hsr.2
  unfold serving
  change List.countP serves (Op.rollout.run role pass l st) + _ = _ at hcn
  omega

omit [DecidableEq H] in
theorem ready_split (st : List (Pod H)) : st.countP (fun p => p.isActive && p.ready) =
    serving st + st.countP fun p => p.isActive && p.ready && p.isDraining := by
  rw [countP_eq_countP_filter_add st _ isDraining, countP_filter, countP_filter, Nat.add_comm]
  rfl

theorem rollout_serving (hs : Sound role st) (hcl : Clear st) (hl : l.Perm st) :
    serving (Op.rollout.run role pass l st) = serving st ∨
      role.replicas ≤ serving (Op.rollout.run role pass l st) + role.maxUnavailable := by
  set plan := rollout role pass l
  have hwt : Within role st plan := rollout_within hl
  have hsv : serving (Op.rollout.run role pass l st) + plan.delete.countP serves = serving st :=
    serving_rollout hs hl
  by_cases hzr : plan.delete.countP serves = 0
  · omega
  obtain ⟨p, hp, hsr⟩ := List.countP_pos_iff.1 (Nat.pos_of_ne_zero hzr)
  simp only [serves, isDraining, Bool.and_eq_true, Bool.not_eq_true', Option.isSome_eq_false_iff,
    Option.isNone_iff_eq_none] at hsr
  -- all the ready pods that drain are taken, so what the rollout takes are these and the serving ones it stops
  have hot := Disruption.perm_others hs.names hwt.delete (hwt.nodup (List.Nodup.of_map _ hs.names))
  have hdn : st.countP (fun p => p.isActive && p.ready && p.isDraining) =
      plan.delete.countP fun p => p.isActive && p.ready && p.isDraining := by
    rw [hot.countP_eq, countP_append]
    have : (Disruption.others name plan.delete st).countP
        (fun p => p.isActive && p.ready && p.isDraining) = 0 := by
      rw [countP_eq_zero]
      intro d hd hdr
      obtain ⟨hd, hnot⟩ := mem_filter.1 hd
      simp only [Bool.and_eq_true] at hdr
      have := rollout_covers hs hcl hl hp hsr.1.2 hsr.2 hd hdr.1.1 hdr.2
      simp only [decide_eq_true_eq] at hnot
      exact hnot (mem_map_of_mem this)
    omega
  have hrd := ready_split st
  have hdl := ready_split plan.delete
  have hfl := hwt.floor
  rw [readyPods, ← countP_eq_length_filter] at hfl
  unfold serving at *
  omega

def Starts (op : Op) (role : Role H) (pass : Pass role.templateHash) (l st : List (Pod H)) : Prop :=
  ∃ p ∈ st, p.isActive = true ∧ p.drain = none ∧ p ∈ (op.plan role pass l).delete ∧
    (op.kill role pass.now p).1.isActive = true

/-- A pass goes on with a drain or deletes the pod, or it cancels the drain. -/
def GoesOn (op : Op) (role : Role H) (pass : Pass role.templateHash) (l : List (Pod H)) (d : Pod H) : Prop :=
  (d ∈ (op.plan role pass l).delete ∧ ((op.kill role pass.now d).1.terminating = true ∨ (op.kill role pass.now d).1 = d)) ∨
    d ∈ (op.plan role pass l).cancel

theorem scaleIn_draining {diff : Nat} (hp : p ∈ scaleIn role pass active diff)
    (hnot : p.isDraining = false) (hd : d ∈ active) (hdr : d.isDraining = true) :
    d ∈ scaleIn role pass active diff := by
  apply mem_append_left
  obtain hp | hp := mem_append.1 hp
  · rw [(mem_filter.1 (mem_of_mem_take hp)).2] at hnot
    cases hnot
  have hlm := Nat.lt_of_lt_of_le (length_pos_of_mem hp) Disruption.select_length
  rw [length_take] at hlm
  rw [take_of_length_le (by omega)]
  exact mem_filter.2 ⟨pass.byTemplateHash.mem.2 hd, hdr⟩

omit [DecidableEq H] in
theorem kill_goesOn {timeout now : Int} (hvl : p.Valid) (hdr : p.isDraining = true)
    (hkl : (kill p).1 = { p with terminating := true } ∨ kill p = deletePod timeout reason now p) :
    (kill p).1.terminating = true ∨ (kill p).1 = p := by
  obtain hkl | hkl := hkl
  · left
    rw [hkl]
  rw [hkl]
  obtain heq | ⟨heq, -⟩ | ⟨hnn, -⟩ := deletePod_cases hvl timeout reason now
  · left
    rw [heq]
  · exact .inr heq
  · rw [isDraining, hnn] at hdr
    cases hdr

theorem scale_goesOn (hs : Sound role st) (hl : l.Perm st) (hst : Starts .scale role pass l st)
    (hd : d ∈ st) (hac : d.isActive = true) (hdr : d.isDraining = true) : GoesOn .scale role pass l d := by
  obtain ⟨p, -, hpc, hpn, hp, -⟩ := hst
  have hdm : d ∈ activePods l := mem_filter.2 ⟨hl.mem_iff.2 hd, hac⟩
  obtain ⟨-, hic⟩ | ⟨hmn, hin⟩ := scale_delete_cases hp
  · rw [hpc] at hic
    cases hic
  -- a pod that does not drain is taken after all those that do
  have hall : d ∈ scaleIn role pass (activePods l) (((activePods l).length : Int) - role.replicas).toNat := by
    apply scaleIn_draining hin (by rw [isDraining, hpn]; rfl) hdm hdr
  left
  refine ⟨mem_append_right _ ?_, kill_goesOn (hs.valid d hd) hdr (.inr rfl)⟩
  rw [if_pos (by omega)]
  exact hall

theorem rollout_goesOn (hs : Sound role st) (hcl : Clear st) (hl : l.Perm st)
    (hst : Starts .rollout role pass l st) (hd : d ∈ st) (hac : d.isActive = true)
    (hdr : d.isDraining = true) : GoesOn .rollout role pass l d := by
  obtain ⟨p, -, -, hpn, hp, hpc⟩ := hst
  have hrd : p.ready = true := by
    by_contra hnot
    rw [show (Op.rollout.kill role pass.now p).1 = { p with terminating := true } from
      killForRollout_not_ready role pass.now (by simpa using hnot)] at hpc
    simp [isActive] at hpc
  left
  refine ⟨rollout_covers hs hcl hl hp hrd hpn hd hac hdr, ?_⟩
  exact kill_goesOn (hs.valid d hd) hdr (killForRollout_cases role pass.now d)

end

/-! ## Runs -/

inductive Drains (role : Role H) : List (Pod H) → Prop
  | start {st} : (st.map Pod.name).Nodup → (∀ p ∈ st, p.drain = none) → Drains role st
  | scale {st l} (pass : Pass role.templateHash) : Drains role st → l.Perm st → Function.Injective pass.names →
      (∀ i, pass.names i ∉ st.map Pod.name) → Drains role (Op.scale.run role pass l st)
  | rollout {st l} (pass : Pass role.templateHash) : Drains role st → Clear st → l.Perm st →
      Function.Injective pass.names → (∀ i, pass.names i ∉ st.map Pod.name) → Drains role (Op.rollout.run role pass l st)
  | changes {st} (ready fails : Pod H → Bool) : Drains role st →
      Drains role (st.map fun p => { p with ready := ready p, failed := p.failed || fails p })
  | gone {st} (stays : Pod H → Bool) : Drains role st → (∀ p ∈ st, p.terminating = false → stays p = true) →
      Drains role (st.filter stays)

variable {st : List (Pod H)}

omit [DecidableEq H] in
theorem Sound.changes (hs : Sound role st) (ready fails : Pod H → Bool) :
    Sound role (st.map fun p => { p with ready := ready p, failed := p.failed || fails p }) := by
  have hac : ∀ p : Pod H, ({ p with ready := ready p, failed := p.failed || fails p } : Pod H).isActive = true →
      p.isActive = true := by
    intro p h
    simp only [isActive, Bool.and_eq_true, Bool.not_eq_true', Bool.or_eq_false_iff] at h ⊢
    exact ⟨h.1.1, h.2⟩
  refine ⟨by simpa [Function.comp_def] using hs.names, fun p' hp' => ?_, fun p' hp' ha hd => ?_,
    fun p' hp' q' hq' hpa hqa hpd hqo hlt => ?_⟩
  · obtain ⟨p, hp, rfl⟩ := mem_map.1 hp'
    exact hs.valid p hp
  · obtain ⟨p, hp, rfl⟩ := mem_map.1 hp'
    exact hs.outdated p hp (hac p ha) hd
  · obtain ⟨p, hp, rfl⟩ := mem_map.1 hp'
    obtain ⟨q, hq, rfl⟩ := mem_map.1 hq'
    exact hs.newer p hp q hq (hac p hpa) (hac q hqa) hpd hqo hlt

omit [DecidableEq H] in
theorem Sound.filter (hs : Sound role st) (stays : Pod H → Bool) : Sound role (st.filter stays) where
  names := (filter_sublist.map _).nodup hs.names
  valid p hp := hs.valid p (mem_of_mem_filter hp)
  outdated p hp := hs.outdated p (mem_of_mem_filter hp)
  newer p hp q hq := hs.newer p (mem_of_mem_filter hp) q (mem_of_mem_filter hq)

theorem Drains.sound (h : Drains role st) : Sound role st := by
  induction h with
  | start hnm hnn =>
    refine ⟨hnm, fun p hp d hd => ?_, fun p hp _ hd => ?_, fun p hp q _ _ _ hd => ?_⟩
    · rw [hnn p hp] at hd
      cases hd
    · rw [not_drainsFor (hnn p hp)] at hd
      cases hd
    · rw [not_drainsFor (hnn p hp)] at hd
      cases hd
  | scale pass _ hl hinj hfr ih => exact ih.scale hl hinj hfr
  | rollout pass _ hcl hl hinj hfr ih => exact ih.rollout hcl hl hinj hfr
  | changes ready fails _ ih => exact ih.changes ready fails
  | gone stays _ _ ih => exact ih.filter stays

theorem drains_go_on (role : Role H) (h : Drains role st) (pass : Pass role.templateHash)
    {l : List (Pod H)} (hl : l.Perm st) : (Clear st → serving (Op.rollout.run role pass l st) = serving st ∨
      role.replicas ≤ serving (Op.rollout.run role pass l st) + role.maxUnavailable) ∧
    (Clear st → Starts .rollout role pass l st → ∀ d ∈ st, d.isActive = true → d.isDraining = true →
      GoesOn .rollout role pass l d) ∧
    (Starts .scale role pass l st → ∀ d ∈ st, d.isActive = true → d.isDraining = true → GoesOn .scale role pass l d) := by
  have hs := h.sound
  refine ⟨fun hclear => rollout_serving hs hclear hl, fun hclear hstarts d hd hactive hdraining => ?_,
    fun hstarts d hd hactive hdraining => ?_⟩
  · exact rollout_goesOn hs hclear hl hstarts hd hactive hdraining
  · exact scale_goesOn hs hl hstarts hd hactive hdraining

def drainingRole : Role Nat := ⟨2, 1, none, none, some 30⟩

def drainingPass (now : Int) : Pass drainingRole.templateHash :=
  ⟨now, lessByActive_decides.sorting, (lessByTemplateHash_decides 1).sorting, (· + 10), fun i => 100 + i⟩

def outdatedPair (first second : Int) : List (Pod Nat) :=
  [⟨0, 0, none, false, false, true, first, none⟩, ⟨1, 0, none, false, false, true, second, none⟩]

theorem drains_go_on_newest :
    let st := Op.rollout.run drainingRole (drainingPass 0) (outdatedPair 1 2) (outdatedPair 1 2)
    serving st = 1 ∧ (serving (Op.rollout.run drainingRole (drainingPass 5) st.reverse st) = 1 ∨
      (2 : Int) ≤ serving (Op.rollout.run drainingRole (drainingPass 5) st.reverse st) + 1) := by
  refine ⟨by decide, ?_⟩
  have hclear : Clear (outdatedPair 1 2) := ⟨by decide, by decide⟩
  have hrun := Drains.rollout (drainingPass 0) (.start (by decide) (by decide)) hclear (.refl _)
    (fun _ _ h => Nat.add_right_cancel h) (by intro i; simp [drainingPass, outdatedPair])
  exact (drains_go_on _ hrun (drainingPass 5) (List.reverse_perm _)).1 ⟨by decide, by decide⟩

def outdatedTriple : List (Pod Nat) :=
  [⟨0, 0, none, false, false, false, 1, none⟩, ⟨1, 0, none, false, false, true, 2, none⟩,
    ⟨2, 0, none, false, false, true, 3, none⟩]

/-- Two outdated pods were created at the same time. -/
theorem drain_abandoned : (let st := outdatedPair 1 1
     let st' := Op.rollout.run drainingRole (drainingPass 0) st st
     let st'' := Op.rollout.run drainingRole (drainingPass 5) st'.reverse st'
     serving st = 2 ∧ serving st' = 1 ∧ serving st'' = 0 ∧ drainingRole.replicas - drainingRole.maxUnavailable = 1 ∧
       (st''.map fun p => (p.name, p.drain)) = [(0, some ⟨.rollout, some 5⟩), (1, some ⟨.rollout, some 0⟩)] ∧
       (rollout drainingRole (drainingPass 5) st'.reverse).delete.map Pod.name = [0] ∧
       (rollout drainingRole (drainingPass 5) st'.reverse).cancel = []) ∧
    (let st := (Op.scale.run drainingRole (drainingPass 0) outdatedTriple outdatedTriple).map fun p =>
       { p with ready := true }
     let st' := Op.rollout.run drainingRole (drainingPass 5) st st
     serving st = 2 ∧ serving st' = 0 ∧ (st'.map fun p => (p.name, p.drain)) =
         [(0, some ⟨.scaleIn, some 0⟩), (1, some ⟨.rollout, some 5⟩), (2, some ⟨.rollout, some 5⟩)]) := by
  decide

end Stateless

end Aibrix.RoleSet
