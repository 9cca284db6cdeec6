import Mathlib.Data.List.Sort

/-! # A PodSet with the recreate recovery policy

`reconcilePods` of `podset_controller.go`, with no drain. -/

namespace Aibrix.PodSet

open List

/-- The index is in the pod's name; a pod is `created` if a pass of the run created it. -/
structure Pod where
  index : Nat
  terminal : Bool
  terminating : Bool
  created : Bool
deriving DecidableEq

def deletePods (chosen : Pod → Bool) (pods : List Pod) : List Pod :=
  pods.map fun p => if chosen p then { p with terminating := true } else p

/-- A terminating pod counts until it is gone. -/
def filterActivePods (pods : List Pod) : List Pod := pods.filter fun p => !p.terminal

/-- A name that still exists is skipped. -/
def handleRecreateStrategy (g : Nat) (pods : List Pod) : List Pod :=
  if filterActivePods pods ≠ [] then deletePods (fun p => !p.terminal) pods
  else pods ++ ((range g).filter fun i => pods.all fun p => p.index ≠ i).map fun i => ⟨i, false, false, true⟩

def handleScaleDown (g : Nat) (pods : List Pod) : List Pod :=
  let excess := ((filterActivePods pods).insertionSort fun a b => a.index ≤ b.index).drop g
  deletePods (fun p => p ∈ excess) pods

def reconcilePods (g : Nat) (pods : List Pod) : List Pod :=
  if pods.any fun p => p.terminal && !p.terminating then deletePods (fun p => p.terminal) pods
  else if (filterActivePods pods).length < g then handleRecreateStrategy g pods
  else if g < (filterActivePods pods).length then handleScaleDown g pods
  else pods

inductive Step
  | pass
  | gone (index : Nat)
deriving DecidableEq

def step (g : Nat) (pods : List Pod) : Step → List Pod
  | .pass => reconcilePods g pods
  | .gone index => pods.filter fun p => !(p.terminating && p.index = index)

/-- Where only ended pods that terminate are left and a name of the group is free, no pod is left at all. -/
def Cleared (g : Nat) (pods : List Pod) : Prop :=
  (∀ p ∈ pods, p.terminal = true ∧ p.terminating = true) → (∃ i ∈ range g, ∀ p ∈ pods, p.index ≠ i) → pods = []

/-- Every pass finds the pods of the group cleared, or not yet on their way. -/
def Waits (g : Nat) : List Pod → List Step → Prop
  | _, [] => True
  | pods, s :: rest => (s = .pass → Cleared g pods) ∧ Waits g (step g pods s) rest

/-- Before and after the group is created. -/
def Settled (g : Nat) (pods : List Pod) : Prop :=
  (∀ p ∈ pods, p.created = false) ∨ pods.length = g ∧ ∀ p ∈ pods, p.terminal = false ∧ p.terminating = false

variable {g : Nat} {pods : List Pod}

theorem forall_deletePods {q : Pod → Prop} {chosen : Pod → Bool} (hq : ∀ p, q p → q { p with terminating := true })
    (h : ∀ p ∈ pods, q p) : ∀ p ∈ deletePods chosen pods, q p := by
  refine forall_mem_map.2 fun p hp => ?_
  split
  · exact hq p (h p hp)
  · exact h p hp

theorem reconcilePods_created (h : ∀ p ∈ pods, p.created = false) (hw : Cleared g pods) :
    Settled g (reconcilePods g pods) := by
  unfold reconcilePods
  split_ifs with hany
  · exact .inl (forall_deletePods (fun _ hp => hp) h)
  · unfold handleRecreateStrategy
    split_ifs with hactive
    · exact .inl (forall_deletePods (fun _ hp => hp) h)
    by_cases hfree : ∃ i ∈ range g, ∀ p ∈ pods, p.index ≠ i
    · have hleft : pods = [] := by
        refine hw (fun p hp => ?_) hfree
        have hterminal : p.terminal = true := by
          simpa using filter_eq_nil_iff.1 (not_not.1 hactive) p hp
        have := mt any_eq_true.2 hany
        grind
      subst hleft
      exact .inr ⟨by simp, by simp⟩
    · -- Every name is taken, so nothing is created.
      have hnone : ((range g).filter fun i => pods.all fun p => p.index ≠ i) = [] :=
        filter_eq_nil_iff.2 fun i hi hall => hfree ⟨i, hi, by simpa using hall⟩
      rw [hnone, map_nil, append_nil]
      exact .inl h
  · exact .inl (forall_deletePods (fun _ hp => hp) h)
  · exact .inl h

theorem Settled.step (h : Settled g pods) {s : Step} (hw : s = .pass → Cleared g pods) :
    Settled g (PodSet.step g pods s) := by
  rcases h with h | ⟨hln, h⟩
  · cases s with
    | pass => exact reconcilePods_created h (hw rfl)
    | gone index => exact .inl fun p hp => h p (mem_of_mem_filter hp)
  have hac : filterActivePods pods = pods := filter_eq_self.2 fun p hp => by simp [h p hp]
  have hst : PodSet.step g pods s = pods := by
    cases s with
    | pass =>
      have hnone : pods.any (fun p => p.terminal && !p.terminating) = false := by
        simpa using fun p hp ht => by simp [h p hp] at ht
      simp [PodSet.step, reconcilePods, hnone, hac, hln]
    | gone index => exact filter_eq_self.2 fun p hp => by simp [h p hp]
  rw [hst]
  exact .inr ⟨hln, h⟩

theorem step_running (h : ∀ p ∈ pods, p.terminal = false) (s : Step) : ∀ p ∈ step g pods s, p.terminal = false := by
  cases s with
  | gone index => exact fun p hp => h p (mem_of_mem_filter hp)
  | pass =>
    unfold step reconcilePods handleRecreateStrategy
    split_ifs
    · exact forall_deletePods (fun _ hp => hp) h
    · exact forall_deletePods (fun _ hp => hp) h
    · refine forall_mem_append.2 ⟨h, fun p hp => ?_⟩
      obtain ⟨_, _, rfl⟩ := mem_map.1 hp
      rfl
    · exact forall_deletePods (fun _ hp => hp) h
    · exact h

/-- A pod that runs or terminates counts as active, so no pass creates the group beside it. -/
theorem waits_of_running {steps : List Step} (h : ∀ p ∈ pods, p.terminal = false) : Waits g pods steps := by
  induction steps generalizing pods with
  | nil => trivial
  | cons s rest ih =>
    refine ⟨fun _ hended _ => eq_nil_iff_forall_not_mem.2 fun p hp => ?_, ih (step_running h s)⟩
    exact absurd (hended p hp).1 (by simp [h p hp])

/-- Where a pass only creates pods when none is left, no pass deletes a pod that one created; so it is when no pod has
ended at the start. -/
theorem created_not_deleted {steps : List Step} (h : ∀ p ∈ pods, p.created = false)
    (hw : Waits g pods steps ∨ ∀ p ∈ pods, p.terminal = false) :
    ∀ p ∈ steps.foldl (step g) pods, p.created = true → p.terminating = false := by
  replace hw : Waits g pods steps := hw.elim id waits_of_running
  have hrun : Settled g (steps.foldl (step g) pods) := by
    replace h : Settled g pods := .inl h
    induction steps generalizing pods with
    | nil => exact h
    | cons s rest ih => exact ih hw.2 (h.step hw.1)
  intro p hp hcr
  rcases hrun with h | ⟨-, h⟩
  · simp [h p hp] at hcr
  · exact (h p hp).2

theorem created_not_deleted_pair :
    let pods := [Step.pass, .gone 0, .pass, .pass].foldl (step 2) [⟨0, false, false, false⟩]
    pods.length = 2 ∧ ∀ p ∈ pods, p.created = true → p.terminating = false :=
  ⟨by decide, created_not_deleted (by decide) (.inr (by decide))⟩

/-- A failed pod that leaves last keeps its name, so the group is created without it and torn down again. -/
theorem created_deleted : ∃ p ∈ [Step.pass, .pass, .gone 1, .gone 2, .pass, .pass].foldl (step 3)
    [⟨0, true, false, false⟩, ⟨1, false, false, false⟩, ⟨2, false, false, false⟩],
    p.created = true ∧ p.terminating = true := by
  decide

end Aibrix.PodSet
