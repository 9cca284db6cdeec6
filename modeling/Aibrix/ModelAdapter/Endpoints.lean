import Mathlib.Data.List.Basic

/-! # The endpoints of a ModelAdapter

`DoReconcile` of `modeladapter_controller.go` past the initialisation. Of the status only the instances are kept. -/

namespace Aibrix.ModelAdapter

structure Pod where
  address : String
  ready : Bool := true
  terminal : Bool := false
  deletionTimestamp : Bool := false
  /-- Ready for `RetryBackoffSeconds`. -/
  stable : Bool := true

def isPodTerminating (pod : Pod) : Bool := !pod.terminal && pod.deletionTimestamp

structure Adapter where
  instances : List String := []
  scheduledPods : List String := []
  endpointSlice : Option (List String) := none

/-- What a reconcile finds: the pods by name, the names the selector lists, the mode, and what the scheduler and the
pods answer. -/
structure Round where
  get : String → Option Pod
  list : List String
  loadOnAll : Bool := false
  selectPod : List String → Option String := List.head?
  tryLoad : String → Bool := fun _ => true

namespace Round

variable (r : Round) (a : Adapter)

def activePods : List String := r.list.filter fun pod => (r.get pod).any fun p => !isPodTerminating p && p.ready

/-- None is an error of the scheduler; the second component is a requeue. -/
def reconcileLoadOnSinglePod : Option (Adapter × Bool) :=
  if a.instances.length < 1 then
    let candidatePods := r.activePods.filter fun pod => pod ∉ a.instances && (r.get pod).any (·.stable)
    if candidatePods.length ≥ 1 - a.instances.length then
      (r.selectPod candidatePods).map fun pod => ({ a with scheduledPods := [pod] }, false)
    else some (a, true)
  else if a.instances.length > 1 then some ({ a with instances := a.instances.take 1 }, true)
  else some (a, false)

def validInstances : List String := a.instances.filter (· ∈ r.activePods)

def reconcileReplicas : Option (Adapter × Bool) :=
  let a := { a with instances := r.validInstances a }
  if r.loadOnAll then some (a, false) else r.reconcileLoadOnSinglePod a

/-- Scheduled pods come first. -/
def addCandidate (l : List String) (pod : String) : List String :=
  if pod ∈ a.instances then l else if pod ∈ a.scheduledPods then pod :: l else l ++ [pod]

def load : Nat → List String → Adapter → Adapter
  | 0, _, a | _, [], a => a
  | needed + 1, pod :: pods, a =>
    if r.tryLoad pod then load needed pods { a with instances := a.instances ++ [pod], scheduledPods := [] }
    else load (needed + 1) pods a

/-- Where no instance is missing, loading again changes neither list. -/
def reconcileLoading : Adapter :=
  let desiredReplicas := if r.loadOnAll then r.activePods.length else 1
  r.load (desiredReplicas - a.instances.length) (r.activePods.foldl (addCandidate a) []) a

def reconcileEndpointSlice : Adapter :=
  let podList := a.instances.filterMap fun pod => (r.get pod).filter (!·.deletionTimestamp)
  if a.endpointSlice = none ∧ podList = [] then a else { a with endpointSlice := some (podList.map (·.address)) }

/-- Loading fails when it ends with no instance. -/
def doReconcile : Adapter :=
  match r.reconcileReplicas a with
  | none => a
  | some (a, requeue) =>
    let loaded := r.reconcileLoading a
    if requeue then a else if loaded.instances = [] then loaded else r.reconcileEndpointSlice loaded

def Published : Prop := ∀ addresses ∈ a.endpointSlice,
  addresses = a.instances.filterMap fun pod => (r.get pod).map (·.address)

variable {r a}

theorem load_spec {needed : Nat} {pods : List String} (hpods : pods ⊆ r.activePods)
    (h : a.instances ⊆ r.activePods) : let b := r.load needed pods a
    b.instances ⊆ r.activePods ∧ b.endpointSlice = a.endpointSlice := by
  fun_induction load <;> grind

theorem reconcileLoading_spec (h : a.instances ⊆ r.activePods) : let b := r.reconcileLoading a
    b.instances ⊆ r.activePods ∧ b.endpointSlice = a.endpointSlice := by
  refine load_spec (List.foldlRecOn (motive := fun l => l ⊆ r.activePods) _ _ (List.nil_subset _) ?_) h
  intro l ih pod hpod
  unfold addCandidate
  grind

/-- No active pod is being deleted, which only a pod that has ended can be. -/
def NoneDeleted (r : Round) : Prop := ∀ pod ∈ r.activePods, (r.get pod).all (!·.deletionTimestamp) = true

theorem published_reconcileEndpointSlice (h : a.instances ⊆ r.activePods) (hdeleted : r.NoneDeleted) :
    r.Published (r.reconcileEndpointSlice a) := by
  have heq : (a.instances.filterMap fun pod => (r.get pod).filter (!·.deletionTimestamp)).map (·.address) =
      a.instances.filterMap fun pod => (r.get pod).map (·.address) := by
    rw [List.map_filterMap]
    refine List.filterMap_congr fun pod hpod => ?_
    have hkept := hdeleted pod (h hpod)
    cases hget : r.get pod <;> simp_all
  unfold reconcileEndpointSlice Published
  grind

theorem reconcileReplicas_spec {b : Adapter} {requeue : Bool} (h : r.reconcileReplicas a = some (b, requeue)) :
    b.instances ⊆ r.activePods ∧ b.endpointSlice = a.endpointSlice := by
  have hactive : r.validInstances a ⊆ r.activePods := fun pod hpod => by simpa using (List.mem_filter.1 hpod).2
  unfold reconcileReplicas reconcileLoadOnSinglePod at h
  generalize r.validInstances a = valid at h hactive ⊢
  have htake := List.take_subset 1 valid
  grind [Option.map_eq_some_iff]

def stablePods (r : Round) : List String := r.activePods.filter fun pod => (r.get pod).any (·.stable)

/-- The reconcile does not return before the slice: an active instance is left or a pod can be loaded, and with one replica
at most one instance is active and, if none is, the scheduler selects a stable pod. -/
structure Proceeds (r : Round) (a : Adapter) : Prop where
  loads : r.validInstances a ≠ [] ∨ ∃ pod ∈ r.activePods, r.tryLoad pod = true
  single : r.loadOnAll = false → (r.validInstances a).length ≤ 1 ∧
    (r.validInstances a = [] → r.stablePods ≠ [] ∧ (r.selectPod r.stablePods).isSome = true)

theorem mem_candidates {pods l : List String} {pod : String} (h : pod ∈ pods ∨ pod ∈ l) (hnew : pod ∉ a.instances) :
    pod ∈ pods.foldl (addCandidate a) l := by
  induction pods generalizing l with
  | nil => simpa using h
  | cons first pods ih => apply ih; grind [addCandidate]

theorem load_ne_nil {needed : Nat} {pods : List String}
    (h : a.instances ≠ [] ∨ 0 < needed ∧ ∃ pod ∈ pods, r.tryLoad pod = true) : (r.load needed pods a).instances ≠ [] := by
  fun_induction load with
  | case1 => simpa using h
  | case2 => simpa using h
  | case3 needed pod pods a _ ih => exact ih (.inl (by simp))
  | case4 needed pod pods a hfails ih =>
    refine ih (h.imp_right fun ⟨_, other, hmem, hloads⟩ => ⟨Nat.succ_pos _, other, ?_, hloads⟩)
    exact (List.mem_cons.1 hmem).resolve_left fun heq => hfails (heq ▸ hloads)

theorem reconcileLoading_ne_nil (h : a.instances ≠ [] ∨ ∃ pod ∈ r.activePods, r.tryLoad pod = true) :
    (r.reconcileLoading a).instances ≠ [] := by
  by_cases hnone : a.instances = []
  · obtain ⟨pod, hactive, hload⟩ := h.resolve_left (not_not_intro hnone)
    refine load_ne_nil (.inr ⟨?_, pod, mem_candidates (.inl hactive) (by simp [hnone]), hload⟩)
    have := List.length_pos_of_mem hactive
    rw [hnone]
    split <;> simp_all
  · exact load_ne_nil (.inl hnone)

theorem Proceeds.reconcileReplicas (h : r.Proceeds a) :
    ∃ b, r.reconcileReplicas a = some (b, false) ∧ b.instances = r.validInstances a := by
  unfold Round.reconcileReplicas reconcileLoadOnSinglePod
  cases hmode : r.loadOnAll with
  | true => exact ⟨_, rfl, rfl⟩
  | false =>
    obtain ⟨hfew, hnone⟩ := h.single hmode
    by_cases hvalid : r.validInstances a = []
    · obtain ⟨hstable, hselect⟩ := hnone hvalid
      obtain ⟨pod, hpod⟩ := Option.isSome_iff_exists.1 hselect
      have hpos : 1 ≤ r.stablePods.length := List.length_pos_iff.2 hstable
      refine ⟨{ a with instances := [], scheduledPods := [pod] }, ?_, hvalid.symm⟩
      simp_all [stablePods]
    · have hone : (r.validInstances a).length = 1 := by
        have := List.length_pos_iff.2 hvalid
        omega
      exact ⟨{ a with instances := r.validInstances a }, by simp [hone], rfl⟩

/-- What a reconcile has to find for the endpoints to follow. -/
def Follows (r : Round) (a : Adapter) : Prop := r.NoneDeleted ∧ (a.endpointSlice = none ∨ r.Proceeds a)

theorem published_doReconcile (h : r.Follows a) : r.Published (r.doReconcile a) := by
  obtain ⟨hdeleted, hslice | hproceeds⟩ := h
  · unfold doReconcile
    cases hr : r.reconcileReplicas a with
    | none => simp [Published, hslice]
    | some next =>
      obtain ⟨hactive, hsame⟩ := reconcileReplicas_spec hr
      obtain ⟨hload, hkept⟩ := reconcileLoading_spec hactive
      dsimp only
      split_ifs
      · simp [Published, hsame, hslice]
      · simp [Published, hkept, hsame, hslice]
      · exact published_reconcileEndpointSlice hload hdeleted
  · obtain ⟨b, hr, hb⟩ := hproceeds.reconcileReplicas
    have hload := (reconcileLoading_spec (reconcileReplicas_spec hr).1).1
    have hne := reconcileLoading_ne_nil (r := r) (hb ▸ hproceeds.loads)
    unfold doReconcile
    simp only [hr, Bool.false_eq_true, if_false, hne]
    exact published_reconcileEndpointSlice hload hdeleted

/-- A condition on each round and the adapter that it finds. -/
def Along (ok : Round → Adapter → Prop) : Adapter → List Round → Prop
  | _, [] => True
  | a, r :: rounds => ok r a ∧ Along ok (r.doReconcile a) rounds

/-- After every reconcile the slice does not exist, or has exactly the addresses of the instances. -/
theorem endpoints_follow_instances {rounds : List Round} (h : Along Follows a rounds) :
    Along (fun r a => r.Published (r.doReconcile a)) a rounds := by
  induction rounds generalizing a with
  | nil => trivial
  | cons r rounds ih => exact ⟨published_doReconcile h.1, ih h.2⟩

/-- The pod of a bound adapter goes: the list is emptied, the slice is not. -/
theorem address_stays_published :
    let a := doReconcile ⟨fun _ => some { address := "10.0.0.1" }, ["pod"], false, List.head?, fun _ => true⟩ {}
    let r : Round := { get := fun _ => none, list := [] }
    a.endpointSlice = some ["10.0.0.1"] ∧ (r.doReconcile a).instances = [] ∧ ¬r.Published (r.doReconcile a) :=
  ⟨rfl, rfl, fun h => nomatch h _ rfl⟩

theorem endpoints_follow_instances_moved :
    let r : Round := { get := fun pod => some { address := pod }, list := ["10.0.0.1"] }
    let r' : Round := { get := fun pod => some { address := pod }, list := ["10.0.0.2"] }
    r'.Published (r'.doReconcile (r.doReconcile {})) := by
  intro r r'
  have hruns : Along Follows {} [r, r'] := by
    refine ⟨⟨by unfold NoneDeleted; decide, .inl rfl⟩, ⟨by unfold NoneDeleted; decide, .inr ?_⟩, trivial⟩
    exact ⟨.inr ⟨"10.0.0.2", by decide, rfl⟩, fun _ => ⟨by decide, fun _ => ⟨by decide, by decide⟩⟩⟩
  exact (endpoints_follow_instances hruns).2.1

/-! ## No pod twice -/

theorem load_once (needed : Nat) {pods : List String} (h : (a.instances ++ pods).Nodup) : let b := r.load needed pods a
    b.instances.Nodup ∧ b.instances.length ≤ a.instances.length + needed := by
  fun_induction load <;> grind

theorem candidates_once {pods l : List String} (h : (a.instances ++ l).Nodup) (hpods : (pods ++ l).Nodup) :
    (a.instances ++ pods.foldl (addCandidate a) l).Nodup := by
  induction pods generalizing l with
  | nil => exact h
  | cons pod pods ih => apply ih <;> grind [addCandidate]

theorem reconcileReplicas_sublist {b : Adapter} {requeue : Bool} (h : r.reconcileReplicas a = some (b, requeue)) :
    b.instances.Sublist a.instances := by
  have hvalid : (r.validInstances a).Sublist a.instances := List.filter_sublist
  have htake := (List.take_sublist 1 _).trans hvalid
  unfold reconcileReplicas reconcileLoadOnSinglePod at h
  grind [Option.map_eq_some_iff]

theorem doReconcile_once (hlist : r.list.Nodup) (h : a.instances.Nodup) : let b := r.doReconcile a
    b.instances.Nodup ∧ (r.loadOnAll = false → a.instances.length ≤ 1 → b.instances.length ≤ 1) := by
  unfold doReconcile
  split
  · exact ⟨h, fun _ => id⟩
  rename_i b requeue hr
  have hsub := reconcileReplicas_sublist hr
  have hactive : r.activePods.Nodup := hlist.filter _
  have hload := fun needed => load_once (r := r) needed
    (candidates_once (a := b) (l := []) (by simpa using hsub.nodup h) (by simpa using hactive))
  unfold reconcileEndpointSlice
  grind [reconcileLoading, hsub.length_le, hsub.nodup h]

/-- An adapter never names a pod twice, and never two pods where it is to be loaded on one. -/
theorem instances_distinct {rounds : List Round} (h : ∀ r ∈ rounds, r.list.Nodup) :
    let a := rounds.foldl (fun a r => r.doReconcile a) {}
    a.instances.Nodup ∧ ((∀ r ∈ rounds, r.loadOnAll = false) → a.instances.length ≤ 1) := by
  refine List.foldlRecOn (motive := fun a : Adapter => a.instances.Nodup ∧ (_ → a.instances.length ≤ 1)) rounds _
    ⟨.nil, fun _ => Nat.zero_le _⟩ fun a ih r hr => ?_
  have := doReconcile_once (h r hr) ih.1
  exact ⟨this.1, fun hsingle => this.2 (hsingle r hr) (ih.2 hsingle)⟩

theorem instances_distinct_both :
    let r : Round := { get := fun pod => some { address := pod }, list := ["a", "b"], loadOnAll := true }
    let a := [r, r].foldl (fun a r => r.doReconcile a) {}
    a.instances = ["a", "b"] ∧ a.instances.Nodup :=
  ⟨by decide, (instances_distinct (by simp)).1⟩

end Round

end Aibrix.ModelAdapter
