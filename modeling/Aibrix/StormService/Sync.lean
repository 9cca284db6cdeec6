import Mathlib.Data.Nat.Basic
import Aibrix.Lib.Disruption

/-! # Scaling and rolling out the RoleSets of a StormService

The budgets of `stormservice/utils.go`, and one `sync` pass of `stormservice/sync.go`: `scaling`, then `rollout` if
scaling did nothing. -/

namespace Aibrix.StormService

/-- A number, a percentage, or a text that is neither. -/
inductive IntOrPercent
  | int (value : Int)
  | percent (value : Int)
  | text (value : String)

def IntOrPercent.scaled (v : IntOrPercent) (total : Nat) (roundUp : Bool) : Except String Int :=
  match v with
  | int value => .ok value
  | percent value => .ok (if roundUp then (value * total + 99) / 100 else value * total / 100)
  | text value => .error ("invalid value for IntOrString: invalid type: string is not a percentage: " ++ value)

def resolveFenceposts (maxSurge maxUnavailable : Option IntOrPercent) (desired : Nat) : Int × Int × Option String :=
  match (maxSurge.getD (.int 0)).scaled desired true with
  | .error err => (0, 0, some err)
  | .ok surge =>
    match (maxUnavailable.getD (.int 0)).scaled desired false with
    | .error err => (0, 0, some err)
    | .ok unavailable => (surge, if surge = 0 ∧ unavailable = 0 then 1 else unavailable, none)

/-- Both budgets are numbers or percentages, and neither is negative. -/
def Resolves (maxSurge maxUnavailable : Option IntOrPercent) (desired : Nat) : Prop :=
  let r := resolveFenceposts maxSurge maxUnavailable desired
  r.2.2 = none ∧ 0 ≤ r.1 ∧ 0 ≤ r.2.1

theorem Resolves.pos {maxSurge maxUnavailable : Option IntOrPercent} {desired : Nat}
    (h : Resolves maxSurge maxUnavailable desired) :
    let r := resolveFenceposts maxSurge maxUnavailable desired
    0 < r.1 + r.2.1 := by
  obtain ⟨hnone, hsurge, hunavailable⟩ := h
  unfold resolveFenceposts at *
  split
  · simp_all
  · split
    · simp_all
    · simp_all only
      split_ifs at * <;> omega

inductive Mode
  | replica
  | pooled
  | unexpected
deriving DecidableEq

inductive StrategyType
  | rollingUpdate
  | inPlaceUpdate
  | unexpected
deriving DecidableEq

/-- A field is `none` where the object leaves it out. -/
structure Spec where
  replicas : Option Nat
  mode : Option Mode
  paused : Bool
  strategy : Option StrategyType
  surge : Option IntOrPercent
  unavailable : Option IntOrPercent

namespace Spec

variable (spec : Spec)

def resolvedReplicas : Nat := spec.replicas.getD 1

/-- `EffectiveUpdateStrategyType`; none is an error. -/
def effectiveUpdateStrategyType : Option StrategyType :=
  match spec.mode with
  | some .replica => some .rollingUpdate
  | some .pooled => some .inPlaceUpdate
  | some .unexpected => none
  | none =>
    match spec.strategy with
    | none => some .rollingUpdate
    | some .unexpected => none
    | some declared => some declared

def isRollingUpdate : Bool := spec.effectiveUpdateStrategyType = some .rollingUpdate

def maxUnavailable : Int :=
  let replicas := spec.resolvedReplicas
  if !spec.isRollingUpdate || replicas = 0 then 0
  else
    let unavailable := (resolveFenceposts spec.surge spec.unavailable replicas).2.1
    if unavailable > replicas then replicas else unavailable

def minAvailable : Int :=
  if !spec.isRollingUpdate then 0 else (spec.resolvedReplicas : Int) - spec.maxUnavailable

def maxSurge : Int :=
  if !spec.isRollingUpdate then 0 else (resolveFenceposts spec.surge spec.unavailable spec.resolvedReplicas).1

variable {spec}

theorem minAvailable_eq (h : spec.isRollingUpdate = true) :
    spec.minAvailable = (spec.resolvedReplicas : Int) - spec.maxUnavailable := by simp [minAvailable, h]

/-- Out of any settled state something can be created or deleted. -/
def Budgeted (spec : Spec) : Prop :=
  spec.resolvedReplicas = 0 ∨ 0 ≤ spec.maxUnavailable ∧
    (0 < spec.maxSurge + spec.maxUnavailable ∨ spec.maxUnavailable = spec.resolvedReplicas)

theorem Budgeted.nonneg (h : spec.Budgeted) : 0 ≤ spec.maxUnavailable := by
  rcases h with hzero | ⟨hunavailable, -⟩
  · simp [maxUnavailable, hzero]
  · exact hunavailable

end Spec

/-! ## One pass -/

open Lib

variable {R : Type} [DecidableEq R]

/-- `revision` is the revision label; `terminating` says that there is a deletion timestamp. -/
structure RoleSet (R : Type) where
  name : Nat
  revision : R
  ready : Bool
  terminating : Bool
deriving DecidableEq

/-- What a pass asks the API server for: RoleSets to delete, to create (with a revision each) and to update in place. -/
structure Actions (R : Type) where
  deleted : List (RoleSet R)
  created : List R
  updated : List (RoleSet R)

def Actions.none : Actions R := ⟨[], [], []⟩

def Actions.append (a b : Actions R) : Actions R :=
  ⟨a.deleted ++ b.deleted, a.created ++ b.created, a.updated ++ b.updated⟩

structure Status where
  currentReplicas : Nat
  updatedReplicas : Nat

variable (updatedRevision : R)

def orderOldRevisionBeforeUpdated (a b : RoleSet R) : Ordering :=
  let aUpdated : Bool := a.revision = updatedRevision
  let bUpdated : Bool := b.revision = updatedRevision
  if aUpdated = bUpdated then .eq else if !aUpdated && bUpdated then .lt else .gt

def orderNotReadyBeforeReady (a b : RoleSet R) : Ordering :=
  if a.ready = b.ready then .eq else if !a.ready && b.ready then .lt else .gt

def less (a b : RoleSet R) : Bool :=
  (orderOldRevisionBeforeUpdated updatedRevision a b).then (orderNotReadyBeforeReady a b) = .lt

variable (roleSets : List (RoleSet R))

def sortRoleSetByRevision : List (RoleSet R) :=
  Disruption.insertionSort (less updatedRevision) roleSets

/-! ## `scaling` and `rollout` -/

def minInt (a b : Int) : Int := if a < b then a else b

/-- `RoundToInt32(float64(x) / float64(y))`. -/
def roundDiv (x y : Nat) : Nat := (2 * x + y) / (2 * y)

def calculateReplicas (desiredReplica current updated : Nat) : Int × Int :=
  if desiredReplica = current + updated then (current, updated)
  else
    let currentTotal := current + updated
    let desiredCurrent := if currentTotal = 0 then 0 else roundDiv (current * desiredReplica) currentTotal
    let desiredUpdated := if currentTotal = 0 then 0 else roundDiv (updated * desiredReplica) currentTotal
    if desiredCurrent + desiredUpdated = desiredReplica then (desiredCurrent, desiredUpdated)
    else (desiredCurrent, (desiredReplica : Int) - desiredCurrent)

def createRoleSet (count : Int) (revision : R) : List R := List.replicate count.toNat revision

def activeRoleSets (all : List (RoleSet R)) : List (RoleSet R) := all.filter fun r => !r.terminating

def readyRoleSets : List (RoleSet R) := roleSets.filter RoleSet.ready

def matching (revision : R) (roleSets : List (RoleSet R)) : List (RoleSet R) :=
  roleSets.filter fun r => r.revision = revision

def notMatching (revision : R) (roleSets : List (RoleSet R)) : List (RoleSet R) :=
  roleSets.filter fun r => !decide (r.revision = revision)

variable (spec : Spec)

/-- The scale-out of a paused rollout keeps the proportion of the two revisions. -/
def scaleOutPaused (status : Status) (currentRevision updatedRevision : R) (active : List (RoleSet R)) : Actions R :=
  let expect := calculateReplicas spec.resolvedReplicas status.currentReplicas status.updatedReplicas
  { Actions.none with
    created :=
      createRoleSet (expect.1 - (notMatching updatedRevision active).length) currentRevision ++
      createRoleSet (expect.2 - (matching updatedRevision active).length) updatedRevision }

/-- The scale-in of a paused rollout, with what it reports. -/
def scaleInPaused (updatedRevision : R) (active : List (RoleSet R)) (diff : Nat) : Actions R × Bool :=
  let ready := readyRoleSets active
  let notReady := active.filter fun r => !r.ready
  if diff ≤ notReady.length then ({ Actions.none with deleted := notReady.take diff }, false)
  else
    let updatedReady := matching updatedRevision ready
    let currentReady := notMatching updatedRevision ready
    let expect := calculateReplicas spec.resolvedReplicas currentReady.length updatedReady.length
    let toDelete := notReady ++ currentReady.take (currentReady.length - expect.1).toNat ++
      updatedReady.take (updatedReady.length - expect.2).toNat
    ({ Actions.none with deleted := toDelete }, !toDelete.isEmpty)

/-- The second component says whether it scaled. -/
def scaling (status : Status) (currentRevision updatedRevision : R) (all : List (RoleSet R)) : Actions R × Bool :=
  let active := activeRoleSets all
  let expectReplica := spec.resolvedReplicas
  let diff : Int := (active.length : Int) - expectReplica
  if diff < 0 then
    if currentRevision = updatedRevision ∨ spec.paused = false then
      let createBudget := minInt (-diff) (expectReplica + spec.maxSurge - all.length)
      let created := createRoleSet createBudget updatedRevision
      ({ Actions.none with created }, !created.isEmpty)
    else
      let actions := scaleOutPaused spec status currentRevision updatedRevision active
      (actions, !actions.created.isEmpty)
  else if 0 < diff then
    if currentRevision = updatedRevision ∨ spec.paused = false then
      let deleted := Disruption.select RoleSet.ready spec.minAvailable diff.toNat (readyRoleSets active).length
        (sortRoleSetByRevision updatedRevision active)
      ({ Actions.none with deleted }, !deleted.isEmpty)
    else scaleInPaused spec updatedRevision active diff.toNat
  else (Actions.none, false)

def rollingUpdate (updatedRevision : R) (all : List (RoleSet R)) : Actions R :=
  let active := activeRoleSets all
  let outdated := sortRoleSetByRevision updatedRevision (notMatching updatedRevision active)
  let toDelete := Disruption.select RoleSet.ready spec.minAvailable outdated.length (readyRoleSets active).length outdated
  let surge := minInt (spec.resolvedReplicas + spec.maxSurge - all.length)
    (spec.resolvedReplicas - (matching updatedRevision active).length)
  ⟨toDelete, createRoleSet (if surge < 0 then 0 else surge) updatedRevision, []⟩

def inPlaceUpdate (all : List (RoleSet R)) : Actions R :=
  { Actions.none with updated := notMatching updatedRevision all }

/-- None is an error. -/
def rollout (updatedRevision : R) (all : List (RoleSet R)) : Option (Actions R) :=
  if (matching updatedRevision all).length = spec.resolvedReplicas then some Actions.none
  else
    match spec.effectiveUpdateStrategyType with
    | none => none
    | some .inPlaceUpdate => some (inPlaceUpdate updatedRevision all)
    | some _ => some (rollingUpdate spec updatedRevision all)

def sync (status : Status) (currentRevision updatedRevision : R) (all all' : List (RoleSet R)) : Actions R :=
  let (actions, scaled) := scaling spec status currentRevision updatedRevision all
  if !spec.paused && !scaled then
    match rollout spec updatedRevision all' with
    | none => actions
    | some more => actions.append more
  else actions

/-- The RoleSets after a pass: what is deleted terminates, what is created is not ready and has a new name. -/
def apply (names : Nat → Nat) (updatedRevision : R) (actions : Actions R) (st : List (RoleSet R)) : List (RoleSet R) :=
  Disruption.mark RoleSet.name (fun r => { r with terminating := true }) actions.deleted
    (Disruption.mark RoleSet.name (fun r => { r with revision := updatedRevision }) actions.updated st) ++
  actions.created.zipIdx.map fun new => ⟨names new.2, new.1, false, false⟩

/-! ## Small facts -/

omit [DecidableEq R] in
theorem createRoleSet_length (count : Int) (revision : R) : (createRoleSet count revision).length = count.toNat := by
  simp [createRoleSet]

omit [DecidableEq R] in
theorem createRoleSet_eq_nil {count : Int} {revision : R} (h : count ≤ 0) : createRoleSet count revision = [] := by
  rw [createRoleSet, show count.toNat = 0 by omega, List.replicate_zero]

theorem minInt_le_left (a b : Int) : minInt a b ≤ a := by unfold minInt; split_ifs <;> omega

theorem minInt_le_right (a b : Int) : minInt a b ≤ b := by unfold minInt; split_ifs <;> omega

theorem less_decides : Disruption.Decides (fun a b => less updatedRevision a b = true) (less updatedRevision) where
  less_of_before h := h
  not_less_of_before := by
    intro a b
    unfold less orderOldRevisionBeforeUpdated orderNotReadyBeforeReady
    rcases decide (a.revision = updatedRevision) <;> rcases decide (b.revision = updatedRevision) <;>
      rcases a.ready <;> rcases b.ready <;> decide
  trans_not := by
    intro a b c
    unfold less orderOldRevisionBeforeUpdated orderNotReadyBeforeReady
    rcases decide (a.revision = updatedRevision) <;> rcases decide (b.revision = updatedRevision) <;>
      rcases decide (c.revision = updatedRevision) <;> rcases a.ready <;> rcases b.ready <;> rcases c.ready <;> decide

theorem sort_perm : (sortRoleSetByRevision updatedRevision roleSets).Perm roleSets :=
  (less_decides updatedRevision).sorting.perm roleSets

theorem head_not_ready {updated : R} {roleSets rest : List (RoleSet R)} {x r : RoleSet R}
    (h : sortRoleSetByRevision updated roleSets = x :: rest) (hr : r ∈ roleSets)
    (hot : r.revision ≠ updated) (hnot : r.ready = false) : x.ready = false := by
  have hsr := (less_decides updated).sorting.sorted roleSets
  have hmem := (sort_perm updated roleSets).mem_iff.2 hr
  change (sortRoleSetByRevision updated roleSets).Pairwise _ at hsr
  rw [h] at hsr hmem
  rcases List.mem_cons.1 hmem with rfl | hmem
  · exact hnot
  have hls := (List.pairwise_cons.1 hsr).1 r hmem
  unfold less orderOldRevisionBeforeUpdated orderNotReadyBeforeReady at hls
  rw [hnot, decide_eq_false hot] at hls
  revert hls
  rcases decide (x.revision = updated) <;> rcases x.ready <;> decide

def available (st : List (RoleSet R)) : Nat := st.countP fun r => r.ready && !r.terminating

omit [DecidableEq R] in
theorem ready_length (st : List (RoleSet R)) : (readyRoleSets (activeRoleSets st)).length = available st := by
  rw [readyRoleSets, activeRoleSets, List.filter_filter, available, List.countP_eq_length_filter]

omit [DecidableEq R] in
theorem available_perm {l st : List (RoleSet R)} (h : l.Perm st) : available l = available st := h.countP_eq _

/-! ## Rolling updates keep their budgets and go on -/

open List Actions Disruption RoleSet StormService

structure Within (spec : Spec) (st : List (RoleSet R)) (a : Actions R) : Prop where
  created : a.created = [] ∨ st.length + a.created.length ≤ spec.resolvedReplicas + spec.maxSurge
  deleted : a.deleted ⊆ st
  nodup : st.Nodup → a.deleted.Nodup
  active : ∀ r ∈ a.deleted, r.terminating = false
  floor : a.deleted.countP RoleSet.ready = 0 ∨
    (spec.resolvedReplicas : Int) - spec.maxUnavailable ≤ available st - (a.deleted.countP RoleSet.ready : Int)
  updated : a.updated = []

omit [DecidableEq R] in
theorem Within.none (spec : Spec) (st : List (RoleSet R)) : Within spec st Actions.none :=
  ⟨.inl rfl, nil_subset _, fun _ => nodup_nil, by simp [Actions.none], .inl rfl, rfl⟩

variable {spec} {a : Actions R}

theorem Within.select (hrl : spec.isRollingUpdate = true) {l st cands : List (RoleSet R)}
    (hl : l.Perm st) (updated : R) {created : List R} {limit : Nat} (hcn : cands.Sublist (activeRoleSets l))
    (hcr : created = [] ∨ st.length + created.length ≤ spec.resolvedReplicas + spec.maxSurge) :
    Within spec st ⟨select ready spec.minAvailable limit (readyRoleSets (activeRoleSets l)).length
      (sortRoleSetByRevision updated cands), created, []⟩ := by
  have hsub := @select_sublist _ ready spec.minAvailable limit
    (readyRoleSets (activeRoleSets l)).length (sortRoleSetByRevision updated cands)
  have hmem : ∀ r ∈ sortRoleSetByRevision updated cands, r ∈ activeRoleSets l := fun r hr =>
    hcn.mem ((sort_perm _ _).mem_iff.1 hr)
  refine ⟨hcr, fun r hr => ?_, fun hnd => ?_, fun r hr => ?_, ?_, rfl⟩
  · exact hl.mem_iff.1 (mem_of_mem_filter (hmem r (hsub.mem hr)))
  · refine hsub.nodup ((sort_perm _ _).nodup_iff.2 (hcn.nodup ?_))
    exact (hl.nodup_iff.2 hnd).filter _
  · have := (mem_filter.1 (hmem r (hsub.mem hr))).2
    simpa using this
  · rw [← available_perm hl, ← ready_length, ← Spec.minAvailable_eq hrl]
    exact select_floor

omit [DecidableEq R] in
theorem created_within {n len : Nat} {s count : Int} {revision : R} (h : count ≤ n + s - len) :
    createRoleSet count revision = [] ∨ len + (createRoleSet count revision).length ≤ n + s := by
  rw [createRoleSet_length]
  by_cases hpos : 0 < count
  · omega
  · exact .inl (createRoleSet_eq_nil (by omega))

section

variable (hrl : spec.isRollingUpdate = true) {l st : List (RoleSet R)}
include hrl

theorem rollingUpdate_within (updated : R) (hl : l.Perm st) : Within spec st (rollingUpdate spec updated l) := by
  apply Within.select hrl hl updated filter_sublist
  rw [← hl.length_eq]
  split_ifs with hneg
  · exact .inl rfl
  · exact created_within (minInt_le_left _ _)

theorem rollout_within (updated : R) (hl : l.Perm st) : ∃ a, rollout spec updated l = some a ∧ Within spec st a := by
  have hty : spec.effectiveUpdateStrategyType = some .rollingUpdate := by simpa [Spec.isRollingUpdate] using hrl
  unfold rollout
  split_ifs
  · exact ⟨_, rfl, Within.none spec st⟩
  · rw [hty]
    exact ⟨_, rfl, rollingUpdate_within hrl updated hl⟩

end

theorem scaling_idle (hrun : spec.paused = false) {status : Status} {current updated : R}
    {l : List (RoleSet R)} (h : (scaling spec status current updated l).2 = false) :
    (scaling spec status current updated l).1 = Actions.none := by
  unfold scaling at h ⊢
  simp only [hrun, or_true] at h ⊢
  split_ifs at h ⊢
  · simp only [Bool.not_eq_false', List.isEmpty_iff] at h
    rw [h, Actions.none]
  · simp only [Bool.not_eq_false', List.isEmpty_iff] at h
    rw [h, Actions.none]
  · rfl

section

variable {l st cands l' : List (RoleSet R)}

theorem sync_cases (hrl : spec.isRollingUpdate = true) (hrun : spec.paused = false)
    (status : Status) (current updated : R) (hl' : l'.Perm st) :
    let r := scaling spec status current updated l
    (r.2 = true ∧ sync spec status current updated l l' = r.1) ∨
    (r.2 = false ∧ rollout spec updated l' = some (sync spec status current updated l l')) := by
  unfold sync
  rcases hs : scaling spec status current updated l with ⟨a, scaled⟩
  cases scaled with
  | true => exact .inl ⟨rfl, by simp⟩
  | false =>
    have hid := @scaling_idle _ _ _ hrun status current updated l (by rw [hs])
    obtain ⟨more, hmr, -⟩ := rollout_within hrl updated hl'
    rw [hs] at hid
    change a = Actions.none at hid
    simp [hrun, hmr, hid, Actions.append, Actions.none]

omit [DecidableEq R] in
theorem Within.available (h : Within spec st a) (hnm : (st.map RoleSet.name).Nodup) (names : Nat → Nat) (updated : R) :
    available (apply names updated a st) + a.deleted.countP RoleSet.ready = StormService.available st := by
  have hcn := countP_mark (fun r : RoleSet R => { r with terminating := true })
    (fun r => r.ready && !r.terminating) hnm h.deleted (h.nodup (List.Nodup.of_map _ hnm))
  have hnn : mark RoleSet.name (fun r : RoleSet R => { r with revision := updated }) a.updated st = st := by
    rw [h.updated, mark]
    simp
  have hrd : a.deleted.countP (fun r => r.ready && !r.terminating) = a.deleted.countP RoleSet.ready :=
    countP_congr fun r hr => by simp [h.active r hr]
  have hnew : (a.created.zipIdx.map fun new => (⟨names new.2, new.1, false, false⟩ : RoleSet R)).countP
      (fun r => r.ready && !r.terminating) = 0 := by
    simp
  have hgn : (a.deleted.map fun r : RoleSet R => { r with terminating := true }).countP
      (fun r => r.ready && !r.terminating) = 0 := by
    simp
  rw [StormService.available, apply, hnn, countP_append, StormService.available]
  omega

omit [DecidableEq R] in
theorem Within.length (h : Within spec st a) (names : Nat → Nat) (updated : R) :
    (apply names updated a st).length = st.length + a.created.length := by
  simp [apply, mark, h.updated]

/-! ## A pass that finds the update settled goes on with it -/

/-- None is terminating, all of the update revision are ready, and one of another revision is left. -/
structure Settled (updatedRevision : R) (st : List (RoleSet R)) : Prop where
  active : ∀ r ∈ st, r.terminating = false
  ready : ∀ r ∈ st, r.revision = updatedRevision → r.ready = true
  outdated : ∃ r ∈ st, r.revision ≠ updatedRevision

variable {updatedRevision}

omit [DecidableEq R] in
theorem Settled.perm (h : Settled updatedRevision st) (hl : l.Perm st) : Settled updatedRevision l := by
  obtain ⟨r, hr, hne⟩ := h.outdated
  exact ⟨fun r hr => h.active r (hl.mem_iff.1 hr), fun r hr => h.ready r (hl.mem_iff.1 hr), ⟨r, hl.mem_iff.2 hr, hne⟩⟩

omit [DecidableEq R] in
theorem activeRoleSets_eq_self (h : ∀ r ∈ st, r.terminating = false) : activeRoleSets st = st := by
  rw [activeRoleSets, filter_eq_self]
  intro r hr
  simp [h r hr]

/-- Among candidates with all outdated RoleSets something is deleted, if one is not ready or all are more than need be. -/
theorem Settled.select_ne_nil (h : Settled updatedRevision st)
    (hall : ∀ r ∈ st, r.revision ≠ updatedRevision → r ∈ cands) {floor : Int} {limit : Nat} (hlm : limit ≠ 0)
    (hfl : (∀ r ∈ st, r.ready = true) → floor < st.length) :
    Disruption.select RoleSet.ready floor limit (readyRoleSets st).length
      (sortRoleSetByRevision updatedRevision cands) ≠ [] := by
  obtain ⟨r, hr, hot⟩ := h.outdated
  have hmem := (sort_perm updatedRevision cands).mem_iff.2 (hall r hr hot)
  cases hsr : sortRoleSetByRevision updatedRevision cands with
  | nil =>
    rw [hsr] at hmem
    exact absurd hmem not_mem_nil
  | cons x rest =>
    apply Disruption.select_ne_nil hlm
    by_cases hrd : ∀ r ∈ st, r.ready = true
    · right
      rw [readyRoleSets, filter_eq_self.2 hrd]
      exact hfl hrd
    left
    simp only [not_forall, Bool.not_eq_true] at hrd
    obtain ⟨q, hq, hnot⟩ := hrd
    have hqt : q.revision ≠ updatedRevision := by
      intro heq
      rw [h.ready q hq heq] at hnot
      cases hnot
    exact head_not_ready hsr (hall q hq hqt) hqt hnot

section

variable {current updated : R}

section

variable (hrl : spec.isRollingUpdate = true) (hbudget : spec.Budgeted)
include hrl hbudget

theorem Settled.scaling (hrun : spec.paused = false) {status : Status} (h : Settled updated st)
    (hidle : (scaling spec status current updated st).2 = false) : st.length = spec.resolvedReplicas ∨
      st.length < spec.resolvedReplicas ∧ spec.resolvedReplicas + spec.maxSurge ≤ st.length := by
  have hmin := Spec.minAvailable_eq hrl
  have hunavailable := hbudget.nonneg
  unfold StormService.scaling at hidle
  simp only [hrun, or_true, activeRoleSets_eq_self h.active] at hidle
  split_ifs at hidle with hlt hgt
  · simp only [Bool.not_eq_false', List.isEmpty_iff] at hidle
    have hnone := createRoleSet_length (minInt (-((st.length : Int) - spec.resolvedReplicas))
      (spec.resolvedReplicas + spec.maxSurge - st.length)) updated
    rw [hidle, length_nil] at hnone
    unfold minInt at hnone
    omega
  · simp only [Bool.not_eq_false', List.isEmpty_iff] at hidle
    exact absurd hidle (h.select_ne_nil (fun r hr _ => hr) (by omega) fun _ => by omega)
  · omega

theorem Settled.rollout (h : Settled updated st) (hlen : st.length = spec.resolvedReplicas ∨
      st.length < spec.resolvedReplicas ∧ spec.resolvedReplicas + spec.maxSurge ≤ st.length)
    (ha : rollout spec updated st = some a) : a.created ≠ [] ∨ a.deleted ≠ [] := by
  have hty : spec.effectiveUpdateStrategyType = some .rollingUpdate := by simpa [Spec.isRollingUpdate] using hrl
  have hmin := Spec.minAvailable_eq hrl
  have hsp : (matching updated st).length + (notMatching updated st).length = st.length := by
    exact (length_eq_length_filter_add _).symm
  obtain ⟨r, hr, hot⟩ := h.outdated
  have hout : 0 < (notMatching updated st).length :=
    length_pos_of_mem (mem_filter.2 ⟨hr, by simpa using hot⟩)
  obtain ⟨hunavailable, hbd⟩ := hbudget.resolve_left (by omega)
  unfold StormService.rollout at ha
  rw [if_neg (by omega), hty] at ha
  obtain rfl := Option.some.inj ha
  unfold rollingUpdate
  simp only [activeRoleSets_eq_self h.active]
  by_cases hmore : (spec.resolvedReplicas : Int) - spec.maxUnavailable < st.length
  · right
    refine h.select_ne_nil (fun r hr hne => mem_filter.2 ⟨hr, by simpa using hne⟩) ?_ fun _ => by omega
    rw [(sort_perm _ _).length_eq]
    omega
  left
  apply ne_nil_of_length_pos
  rw [createRoleSet_length]
  unfold minInt
  omega

omit hrl hbudget in
theorem scaling_acts (hrun : spec.paused = false) {status : Status}
    (h : (scaling spec status current updated l).2 = true) :
    let r := scaling spec status current updated l
    r.1.created ≠ [] ∨
    r.1.deleted ≠ [] := by
  unfold scaling at h ⊢
  simp only [hrun, or_true] at h ⊢
  split_ifs at h ⊢
  · exact .inl (by simpa only [Bool.not_eq_true', isEmpty_eq_false_iff] using h)
  · exact .inr (by simpa only [Bool.not_eq_true', isEmpty_eq_false_iff] using h)

theorem Settled.sync (hrun : spec.paused = false) {status : Status} (hl : l.Perm st)
    (hl' : l'.Perm st) (h : Settled updated st) : (sync spec status current updated l l').created ≠ [] ∨
      (sync spec status current updated l l').deleted ≠ [] := by
  rcases sync_cases hrl hrun status current updated hl' (l := l) with ⟨hs, heq⟩ | ⟨hs, heq⟩
  · rw [heq]
    exact scaling_acts hrun hs
  refine (h.perm hl').rollout hrl hbudget ?_ heq
  rw [hl'.length_eq, ← hl.length_eq]
  exact (h.perm hl).scaling hrl hbudget hrun hs

end

end

end

/-- Passes of a running rolling update, with RoleSets that become ready or not and terminating ones that disappear. -/
inductive Reaches (spec : Spec) (currentRevision updatedRevision : R) : List (RoleSet R) → Prop
  | start {st} : (st.map RoleSet.name).Nodup → Reaches spec currentRevision updatedRevision st
  | pass {st l l'} (status : Status) (names : Nat → Nat) : Reaches spec currentRevision updatedRevision st →
      l.Perm st → l'.Perm st → Function.Injective names → (∀ i, names i ∉ st.map RoleSet.name) →
      Reaches spec currentRevision updatedRevision
        (apply names updatedRevision (sync spec status currentRevision updatedRevision l l') st)
  | readiness {st} (ready : RoleSet R → Bool) : Reaches spec currentRevision updatedRevision st →
      Reaches spec currentRevision updatedRevision (st.map fun r => { r with ready := ready r })
  | gone {st} (stays : RoleSet R → Bool) : Reaches spec currentRevision updatedRevision st →
      (∀ r ∈ st, r.terminating = false → stays r = true) →
      Reaches spec currentRevision updatedRevision (st.filter stays)

omit [DecidableEq R] in
theorem apply_names (names : Nat → Nat) (updated : R) (a : Actions R) (st : List (RoleSet R)) :
    (apply names updated a st).map name = st.map name ++ (range a.created.length).map names := by
  rw [apply, map_append, mark_keys (by simp), mark_keys (by simp), map_map,
    range_eq_range', ← zipIdx_map_snd 0 a.created, map_map]
  rfl

theorem Reaches.names {current updated : R} {st : List (RoleSet R)}
    (h : Reaches spec current updated st) : (st.map name).Nodup := by
  induction h with
  | start h => exact h
  | pass status names _ _ _ hinj hfr ih =>
    rw [apply_names]
    apply List.Nodup.append ih (nodup_range.map hinj)
    intro name hnm hnew
    obtain ⟨i, -, rfl⟩ := mem_map.1 hnew
    exact hfr i hnm
  | readiness ready _ ih => simpa [Function.comp_def] using ih
  | gone stays _ _ ih => exact (filter_sublist.map _).nodup ih

/-! ## Budgets that stop an update -/

/-- All RoleSets are ready and no more than have to be, and either enough are updated or none may be added. -/
structure Idle (spec : Spec) (updatedRevision : R) (st : List (RoleSet R)) : Prop where
  active : ∀ r ∈ st, r.terminating = false
  ready : ∀ r ∈ st, r.ready = true
  floor : (st.length : Int) ≤ (spec.resolvedReplicas : Int) - spec.maxUnavailable
  room : (matching updatedRevision st).length = spec.resolvedReplicas ∨
    spec.resolvedReplicas + spec.maxSurge ≤ st.length

section

variable {current updated : R} {l st l' : List (RoleSet R)}

theorem Idle.perm (h : Idle spec updated st) (hl : l.Perm st) : Idle spec updated l where
  active r hr := h.active r (hl.mem_iff.1 hr)
  ready r hr := h.ready r (hl.mem_iff.1 hr)
  floor := by
    rw [hl.length_eq]
    exact h.floor
  room := by
    rw [hl.length_eq, matching, (hl.filter _).length_eq]
    exact h.room

theorem Idle.select (h : Idle spec updated st) (hrl : spec.isRollingUpdate = true) {cands : List (RoleSet R)}
    (hcands : cands ⊆ st) {limit : Nat} : Disruption.select RoleSet.ready spec.minAvailable limit
      (readyRoleSets st).length (sortRoleSetByRevision updated cands) = [] := by
  apply select_eq_nil
  · intro r hr
    exact h.ready r (hcands ((sort_perm _ _).mem_iff.1 hr))
  · rw [readyRoleSets, filter_eq_self.2 h.ready, Spec.minAvailable_eq hrl]
    exact h.floor

variable (hrl : spec.isRollingUpdate = true) (hrun : spec.paused = false) (status : Status)
include hrl hrun

theorem Idle.scaling (h : Idle spec updated st) : scaling spec status current updated st = (Actions.none, false) := by
  have hle : (matching updated st).length ≤ st.length := length_filter_le _ _
  unfold StormService.scaling
  simp only [hrun, or_true, activeRoleSets_eq_self h.active]
  split_ifs with hlt hgt
  · have hroom := h.room.resolve_left (by omega)
    rw [createRoleSet_eq_nil (Int.le_trans (minInt_le_right _ _) (by omega))]
    rfl
  · rw [h.select hrl (Subset.refl _)]
    rfl
  · rfl

theorem Idle.sync (h : Idle spec updated st) (hl : l.Perm st) (hl' : l'.Perm st) :
    sync spec status current updated l l' = Actions.none := by
  have hty : spec.effectiveUpdateStrategyType = some .rollingUpdate := by simpa [Spec.isRollingUpdate] using hrl
  have h' := h.perm hl'
  have hrollout : rollout spec updated l' = some Actions.none := by
    unfold rollout
    split_ifs with hall
    · rfl
    have hroom := h'.room.resolve_left hall
    have hcreate := minInt_le_left (spec.resolvedReplicas + spec.maxSurge - l'.length)
      (spec.resolvedReplicas - (matching updated l').length)
    rw [hty]
    simp only [rollingUpdate, activeRoleSets_eq_self h'.active]
    have hold : notMatching updated l' ⊆ l' := fun r hr => mem_of_mem_filter hr
    rw [h'.select hrl hold, createRoleSet_eq_nil (by split_ifs <;> omega)]
    rfl
  unfold StormService.sync
  rw [(h.perm hl).scaling hrl hrun, hrollout]
  simp [hrun, Actions.append, Actions.none]

end

section

variable {old new : R} (outdated updated : Nat)

end

end Aibrix.StormService
