import Aibrix.StormService.Sync

/-! # Scaling and rolling out the roles of a RoleSet

The pods and budgets of a role, draining and deletion (`drain/drain.go`), the syncers of `rolesyncer.go` with the
recreate strategy. -/

namespace Aibrix.RoleSet

open Lib StormService

variable {H : Type} [DecidableEq H]

inductive DrainReason
  | scaleIn
  | rollout
deriving DecidableEq

structure DrainState where
  reason : DrainReason
  start : Option Int
deriving DecidableEq

structure Pod (H : Type) where
  name : Nat
  hash : H
  index : Option Nat
  failed : Bool
  terminating : Bool
  ready : Bool
  created : Int
  drain : Option DrainState
deriving DecidableEq

variable (p : Pod H)

def Pod.isActive : Bool := !p.failed && !p.terminating

def Pod.isDraining : Bool := p.drain.isSome

/-- `replicas` is 0 if it is not set or negative; `drainSeconds` is none if it is not set. -/
structure Role (H : Type) where
  replicas : Nat
  templateHash : H
  surge : Option IntOrPercent
  unavailable : Option IntOrPercent
  drainSeconds : Option Int

variable (role : Role H)

def Role.maxUnavailable : Int :=
  if role.replicas = 0 then 0
  else
    let unavailable := (resolveFenceposts role.surge role.unavailable role.replicas).2.1
    if unavailable > role.replicas then role.replicas else unavailable

def Role.maxSurge : Int :=
  if role.replicas = 0 then 0 else (resolveFenceposts role.surge role.unavailable role.replicas).1

def Role.drainTimeout : Int :=
  match role.drainSeconds with
  | none => 0
  | some seconds => if seconds ≤ 0 then 0 else seconds

def minInt32 (a b : Int) : Int := if a < b then a else b

/-! ## Filters -/

variable (pods : List (Pod H))

def activePods : List (Pod H) := pods.filter Pod.isActive

def inactivePods : List (Pod H) := pods.filter fun p => !p.isActive

def terminatingPods : List (Pod H) := pods.filter Pod.terminating

def readyPods : List (Pod H) := pods.filter fun p => p.isActive && p.ready

def notReadyPods : List (Pod H) := pods.filter fun p => !(p.isActive && p.ready)

variable (templateHash : H)

def updatedPods (pods : List (Pod H)) : List (Pod H) := pods.filter fun p => p.hash = templateHash

def outdatedPods (pods : List (Pod H)) : List (Pod H) :=
  pods.filter fun p => !decide (p.hash = templateHash)

/-! ## Orders -/

/-- Inactive pods, active ones that are not ready, then ready ones. -/
def activeClass : Nat := if !p.isActive then 0 else if !p.ready then 1 else 2

def beforeByActive (a b : Pod H) : Prop :=
  activeClass a < activeClass b ∨ (activeClass a = 2 ∧ activeClass b = 2 ∧ b.created < a.created)

/-- The comparison of `sortPodsByActive`; it is true both ways of two pods that are not ready, or were created
together. -/
def lessByActive (a b : Pod H) : Bool :=
  if !a.isActive then true
  else if !b.isActive then false
  else if !a.ready then true
  else if !b.ready then false
  else !decide (a.created < b.created)

/-- Outdated before updated, and of each those that are not ready first. -/
def hashClass (p : Pod H) : Nat := (if p.hash = templateHash then 2 else 0) + if p.ready then 1 else 0

def beforeByTemplateHash (a b : Pod H) : Prop :=
  hashClass templateHash a < hashClass templateHash b ∨
    (hashClass templateHash a = hashClass templateHash b ∧ a.ready = true ∧ b.created < a.created)

/-- The comparison of `sortPodsByTemplateHash`. -/
def lessByTemplateHash (a b : Pod H) : Bool :=
  if a.hash ≠ b.hash ∧ a.hash = templateHash then false
  else if a.hash ≠ b.hash ∧ b.hash = templateHash then true
  else if !a.ready then true
  else if !b.ready then false
  else !decide (a.created < b.created)

omit [DecidableEq H] in
theorem lessByActive_decides : Disruption.Decides (beforeByActive (H := H)) lessByActive where
  less_of_before := by
    intro a b h
    unfold beforeByActive activeClass at h
    unfold lessByActive
    split_ifs at h ⊢ <;> simp_all
    omega
  not_less_of_before := by
    intro a b h
    unfold beforeByActive activeClass at h
    unfold lessByActive
    split_ifs at h ⊢ <;> simp_all
  trans_not := by
    intro a b c hba hcb hca
    unfold beforeByActive at hba hcb hca
    omega

theorem ready_of_hashClass_eq {hash : H} {a b : Pod H}
    (h : hashClass hash a = hashClass hash b) : a.ready = b.ready := by
  unfold hashClass at h
  split_ifs at h <;> simp_all

theorem lessByTemplateHash_decides :
    Disruption.Decides (beforeByTemplateHash templateHash) (lessByTemplateHash templateHash) where
  less_of_before := by
    intro a b h
    unfold beforeByTemplateHash hashClass at h
    unfold lessByTemplateHash
    split_ifs at h ⊢ <;> simp_all <;> omega
  not_less_of_before := by
    intro a b h
    unfold beforeByTemplateHash hashClass at h
    unfold lessByTemplateHash
    split_ifs at h ⊢ <;> simp_all
  trans_not := by
    intro a b c hba hcb hca
    unfold beforeByTemplateHash at hba hcb hca
    have hb : hashClass templateHash b = hashClass templateHash c := by omega
    rw [ready_of_hashClass_eq hb] at hba
    have hrd : c.ready = true := by
      rcases hca with hlt | ⟨-, hrd, -⟩
      · omega
      · exact hrd
    simp only [hrd, true_and] at hba hcb hca
    omega

/-! ## Draining and deleting -/

structure Result where
  changed : Bool
  requeue : Bool
deriving DecidableEq

def deletePodImmediately : Pod H × Result :=
  if p.terminating then (p, ⟨false, false⟩) else ({ p with terminating := true }, ⟨true, false⟩)

def startDrain (reason : DrainReason) (now : Int) (p : Pod H) : Pod H × Result :=
  ({ p with drain := some ⟨reason, some now⟩ }, ⟨true, true⟩)

/-- What becomes of a pod that is to be deleted when there is a drain timeout. -/
def processPod (timeout : Int) (reason : DrainReason) (now : Int) (p : Pod H) : Pod H × Result :=
  if p.terminating then (p, ⟨false, false⟩)
  else if p.failed then deletePodImmediately p
  else
    match p.drain with
    | none => startDrain reason now p
    | some ⟨_, none⟩ => startDrain reason now p
    | some ⟨_, some start⟩ =>
      let elapsed := if now - start < 0 then 0 else now - start
      if timeout ≤ elapsed then ({ p with terminating := true }, ⟨true, false⟩) else (p, ⟨false, true⟩)

def deletePod (timeout : Int) (reason : DrainReason) (now : Int) (p : Pod H) : Pod H × Result :=
  if timeout ≤ 0 then deletePodImmediately p else processPod timeout reason now p

def deletePodForRollout (timeout : Int) (now : Int) (p : Pod H) : Pod H × Result :=
  if p.ready then deletePod timeout .rollout now p else deletePod 0 .rollout now p

def cancelPod (reason : DrainReason) (p : Pod H) : Pod H × Result :=
  if p.terminating then (p, ⟨false, false⟩)
  else
    match p.drain with
    | none => (p, ⟨false, false⟩)
    | some d => if d.reason = reason then ({ p with drain := none }, ⟨true, false⟩) else (p, ⟨false, false⟩)

/-! ## Passes -/

/-- What a syncer wants to do: pods to create (with a replica index each), to delete, and drains to cancel. -/
structure Plan (H : Type) where
  create : List (Option Nat)
  delete : List (Pod H)
  cancel : List (Pod H)

def Plan.none : Plan H := ⟨[], [], []⟩

/-- What a pass finds: the time, how sorting falls out, and the names and creation times that new pods get. -/
structure Pass (templateHash : H) where
  now : Int
  byActive : Disruption.Sorting (beforeByActive (H := H))
  byTemplateHash : Disruption.Sorting (beforeByTemplateHash templateHash)
  names : Nat → Nat
  times : Nat → Int

def podBurst : Nat := 500

/-- `createPodsInBatch` creates the first of them. -/
def Role.newPods (pass : Pass role.templateHash) (create : List (Option Nat)) : List (Pod H) :=
  (create.take podBurst).zipIdx.map fun (index, i) =>
    ⟨pass.names i, role.templateHash, index, false, false, false, pass.times i, none⟩

def Plan.apply (pass : Pass role.templateHash) (kill : Pod H → Pod H × Result) (plan : Plan H)
    (pods : List (Pod H)) : List (Pod H) :=
  Disruption.mark Pod.name (fun p => (kill p).1) plan.delete
    (Disruption.mark Pod.name (fun p => (cancelPod .scaleIn p).1) plan.cancel pods) ++ role.newPods pass plan.create

def Role.killForScale (now : Int) : Pod H → Pod H × Result := deletePod role.drainTimeout .scaleIn now

def Role.killForRollout (now : Int) : Pod H → Pod H × Result :=
  deletePodForRollout role.drainTimeout now

def staleScaleInDrainingPods (active toDelete : List (Pod H)) : List (Pod H) :=
  active.filter fun p =>
    p.isDraining && decide (p.drain.map DrainState.reason = some .scaleIn) && !toDelete.any fun q => q.name = p.name

/-! ## A stateless role -/

namespace Stateless

variable (role : Role H) (pass : Pass role.templateHash)

def scaleIn (active : List (Pod H)) (diff : Nat) : List (Pod H) :=
  let sorted := pass.byTemplateHash.sort active
  let minAvailable : Int := (role.replicas : Int) - role.maxUnavailable
  let draining := (sorted.filter Pod.isDraining).take diff
  let readyCount : Int := ((readyPods sorted).length : Int) - draining.countP Pod.ready
  draining ++ Disruption.select Pod.ready minAvailable (diff - draining.length) readyCount
    (sorted.filter fun p => !p.isDraining)

def scale (pods : List (Pod H)) : Plan H :=
  let active := activePods pods
  let terminated := (inactivePods pods).filter fun p => !p.terminating
  let diff : Int := (active.length : Int) - role.replicas
  let toDelete := terminated ++ if 0 < diff then scaleIn role pass active diff.toNat else []
  let createBudget :=
    if diff < 0 then minInt32 (-diff) (role.replicas + role.maxSurge - active.length - (terminatingPods pods).length)
    else 0
  ⟨List.replicate createBudget.toNat none, toDelete, staleScaleInDrainingPods active toDelete⟩

def outdatedToDelete (active : List (Pod H)) (deleteBudget : Int) : List (Pod H) :=
  let outdated := pass.byActive.sort (outdatedPods role.templateHash active)
  Disruption.select Pod.ready 0 outdated.length deleteBudget outdated

def rollout (pods : List (Pod H)) : Plan H :=
  let active := activePods pods
  let updated := updatedPods role.templateHash active
  let deleteBudget : Int := ((readyPods active).length : Int) - role.replicas + role.maxUnavailable
  let createBudget := minInt32 (role.replicas + role.maxSurge - active.length - (terminatingPods pods).length)
    (role.replicas - updated.length)
  ⟨List.replicate createBudget.toNat none, outdatedToDelete role pass active deleteBudget, []⟩

def rolloutByStep (currentStep : Int) (pods : List (Pod H)) : Plan H :=
  let active := activePods pods
  let expectedUpdated := minInt32 ((role.maxSurge + role.maxUnavailable) * currentStep) role.replicas
  let updated := updatedPods role.templateHash active
  let outdated := outdatedPods role.templateHash active
  if expectedUpdated ≤ updated.length then Plan.none
  else
    let deleteBudget := minInt32 (outdated.length - role.replicas + expectedUpdated)
      ((readyPods active).length - role.replicas + role.maxUnavailable)
    let createBudget := minInt32 (role.replicas + role.maxSurge - active.length - (terminatingPods pods).length)
      (expectedUpdated - updated.length)
    ⟨List.replicate createBudget.toNat none, outdatedToDelete role pass active deleteBudget, []⟩

end Stateless

/-! ## A stateful role -/

namespace Stateful

variable (role : Role H)

/-- The pods of each replica index, and the pods without a slot. -/
def podSlotForRole (active : List (Pod H)) : List (List (Pod H)) × List (Pod H) :=
  ((List.range role.replicas).map fun i => active.filter fun p => p.index = some i,
    active.filter fun p => !p.index.any fun i => i < role.replicas)

/-- What is deleted of a slot of several pods: an updated ready one stays, or else an outdated ready and an updated one. -/
def redundantPods (templateHash : H) (slot : List (Pod H)) : List (Pod H) :=
  let updatedReady := updatedPods templateHash (readyPods slot)
  let outdatedReady := outdatedPods templateHash (readyPods slot)
  let updatedNotReady := updatedPods templateHash (notReadyPods slot)
  outdatedPods templateHash (notReadyPods slot) ++
    if updatedReady.isEmpty then outdatedReady.drop 1 ++ updatedNotReady.drop 1
    else outdatedReady ++ updatedNotReady ++ updatedReady.drop 1

variable (pods : List (Pod H))

def scale : Plan H :=
  let active := activePods pods
  let inactive := inactivePods pods
  let terminated := inactive.filter fun p => !p.terminating
  let slots := (podSlotForRole role active).1
  let createBudget : Int := (slots.length : Int) + role.maxSurge - active.length - (terminatingPods inactive).length
  let toCreate := (slots.zipIdx.filter fun slot => slot.1.isEmpty).map fun slot => some slot.2
  let toDelete := terminated ++ (podSlotForRole role active).2 ++
    slots.flatMap fun slot => if slot.length > 1 then redundantPods role.templateHash slot else []
  ⟨toCreate.take createBudget.toNat, toDelete, staleScaleInDrainingPods active toDelete⟩

def readySlotNum : Nat :=
  (podSlotForRole role (activePods pods)).1.countP fun slot => !(readyPods slot).isEmpty

def hasNewVersion (slot : List (Pod H)) : Bool := slot.any fun p => p.hash = role.templateHash

def oneReady : List (Pod H) → Bool
  | [p] => p.ready
  | _ => false

/-- How many slots have a new pod, how many of these only that one, ready, and how many have only old pods. -/
def updatedSlotNum : Nat × Nat × Nat :=
  let slots := (podSlotForRole role (activePods pods)).1
  (slots.countP (hasNewVersion role), slots.countP fun slot => hasNewVersion role slot && oneReady slot,
    slots.countP fun slot => !hasNewVersion role slot && !slot.isEmpty)

/-- The indices to create pods at and the pods to delete, slot by slot; a slot that has not one pod waits for scaling. -/
def rolloutSlots (templateHash : H) : List (List (Pod H) × Nat) → Int → Int → List (Option Nat) × List (Pod H)
  | [], _, _ => ([], [])
  | ([p], i) :: slots, deleteBudget, createBudget =>
    if p.hash = templateHash then rolloutSlots templateHash slots deleteBudget createBudget
    else if !p.ready then
      let rest := rolloutSlots templateHash slots deleteBudget createBudget
      (rest.1, p :: rest.2)
    else if 0 < deleteBudget then
      let rest := rolloutSlots templateHash slots (deleteBudget - 1) createBudget
      (rest.1, p :: rest.2)
    else if 0 < createBudget then
      let rest := rolloutSlots templateHash slots deleteBudget (createBudget - 1)
      (some i :: rest.1, rest.2)
    else rolloutSlots templateHash slots deleteBudget createBudget
  | _ :: slots, deleteBudget, createBudget => rolloutSlots templateHash slots deleteBudget createBudget

def rollout : Plan H :=
  let deleteBudget : Int := (readySlotNum role pods : Int) - role.replicas + role.maxUnavailable
  let createBudget : Int := (role.replicas : Int) + role.maxSurge - pods.length
  let slots := (podSlotForRole role (activePods pods)).1
  let done := rolloutSlots role.templateHash slots.zipIdx deleteBudget createBudget
  ⟨done.1, done.2, []⟩

def rolloutByStep (currentStep : Int) (pods : List (Pod H)) : Plan H :=
  let expectedUpdated := minInt32 ((role.maxSurge + role.maxUnavailable) * currentStep) role.replicas
  let deleteBudget : Int := (readySlotNum role pods : Int) - role.replicas + role.maxUnavailable
  let createBudget : Int := (role.replicas : Int) + role.maxSurge - pods.length
  let updatedTotal := (updatedSlotNum role pods).1
  let outdatedTotal := (updatedSlotNum role pods).2.2
  let slots := (podSlotForRole role (activePods pods)).1
  let done := rolloutSlots role.templateHash slots.zipIdx
    (minInt32 deleteBudget (outdatedTotal - role.replicas + expectedUpdated))
    (minInt32 createBudget (expectedUpdated - updatedTotal))
  ⟨done.1, done.2, []⟩

end Stateful

end Aibrix.RoleSet
