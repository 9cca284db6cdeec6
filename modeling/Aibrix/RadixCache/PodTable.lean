import Aibrix.Lib.KeyMap

/-! # Pods by model

The nested maps of a radix tree node: model to pod to the time of its last access, or to nothing more. -/

namespace Aibrix.RadixCache

open Lib KeyMap

abbrev PodTable (V : Type) := KeyMap String (KeyMap String V)

namespace PodTable

variable {V : Type} {t : PodTable V} {model podName : String}

def has (t : PodTable V) (model podName : String) : Bool := ((t.lookup model).bind (·.lookup podName)).isSome

def put (t : PodTable V) (model podName : String) (v : V) : PodTable V :=
  t.insert model (((t.lookup model).getD ∅).insert podName v)

variable (models : String → Bool) (p : String → String → Bool)

def restrict (t : PodTable V) : PodTable V :=
  KeyMap.filterMap (fun model pods =>
    some (if models model then KeyMap.filterMap (fun podName v => if p model podName then some v else none) pods
      else pods)) t

def sweep (t : PodTable V) : PodTable V :=
  KeyMap.filterMap (fun model pods => if models model && pods.entries.isEmpty then none else some pods) t

@[simp]
theorem has_empty : (∅ : PodTable V).has model podName = false := rfl

@[simp]
theorem restrict_empty : (∅ : PodTable V).restrict models p = ∅ := rfl

@[simp]
theorem sweep_empty : (∅ : PodTable V).sweep models = ∅ := rfl

theorem isSome_lookup_of_has (h : t.has model podName = true) : (t.lookup model).isSome = true := by
  unfold has at h
  cases hlk : t.lookup model with
  | none => simp [hlk] at h
  | some pods => rfl

theorem has_put (model' podName' : String) (v : V) : (t.put model podName v).has model' podName' =
      (t.has model' podName' || decide (model' = model ∧ podName' = podName)) := by
  unfold has put
  rw [lookup_insert_eq]
  by_cases hmd : model' = model
  · subst hmd
    rw [if_pos rfl, Option.bind_some, lookup_insert_eq]
    by_cases hpod : podName' = podName
    · simp [hpod]
    · cases t.lookup model' <;> simp [hpod]
  · simp [hmd]

theorem has_restrict :
    (t.restrict models p).has model podName = (t.has model podName && (!models model || p model podName)) := by
  unfold has restrict
  rw [lookup_filterMap]
  cases t.lookup model with
  | none => rfl
  | some pods =>
    dsimp only [Option.bind_some]
    cases models model with
    | false => simp
    | true =>
      rw [if_pos rfl, lookup_filterMap]
      cases pods.lookup podName <;> cases p model podName <;> simp

theorem has_sweep : (t.sweep models).has model podName = t.has model podName := by
  unfold has sweep
  rw [lookup_filterMap]
  cases t.lookup model with
  | none => rfl
  | some pods =>
    dsimp only [Option.bind_some]
    split
    · rename_i hem
      rw [Bool.and_eq_true, List.isEmpty_iff] at hem
      have hnn : pods.lookup podName = none := by
        rw [AList.lookup_eq_none, AList.mem_keys, AList.keys, hem.2]
        exact List.not_mem_nil
      rw [hnn]
      rfl
    · rfl

end PodTable

end Aibrix.RadixCache
