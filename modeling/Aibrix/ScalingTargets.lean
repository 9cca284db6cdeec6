import Aibrix.Lib.KeyMap

/-! # One autoscaler per target

`checkNoMultiPodAutoscalerConflict` and `cleanupDeletedPA` of `podautoscaler_controller.go`. -/

namespace Aibrix.ScalingTargets

open Lib KeyMap

structure NamespacedName where
  ns : String
  name : String
deriving DecidableEq

/-- `apiVersion`, `kind` and `targetName` are those of `ScaleTargetRef`. -/
structure PodAutoscaler where
  key : NamespacedName
  apiVersion : String
  kind : String
  targetName : String
  roleName : Option String
deriving DecidableEq

def buildScalingTargetKey (pa : PodAutoscaler) : String :=
  let base := s!"{pa.apiVersion}.{pa.kind}/{pa.key.ns}/{pa.targetName}"
  if pa.apiVersion = "orchestration.aibrix.ai/v1alpha1" ∧ pa.kind = "StormService" then
    match pa.roleName with
    | none | some "" => base
    | some role => base ++ "/" ++ role
  else base

structure Claims where
  scalingTargetToPA : KeyMap String NamespacedName := ∅
  paToScalingKey : KeyMap NamespacedName String := ∅

namespace Claims

variable (c : Claims)

def cleanupDeletedPA (paKey : NamespacedName) : Claims where
  scalingTargetToPA := (c.paToScalingKey.lookup paKey).elim c.scalingTargetToPA c.scalingTargetToPA.erase
  paToScalingKey := c.paToScalingKey.erase paKey

def conflict (key : String) (existingPA : NamespacedName) : String :=
  s!"Scaling target {key} is already controlled by PodAutoscaler {existingPA.ns}/{existingPA.name}, " ++
    "it will not take effect"

/-- The second component is the message of a refused check. -/
def checkNoMultiPodAutoscalerConflict (pa : PodAutoscaler) : Claims × Option String :=
  let key := buildScalingTargetKey pa
  match c.scalingTargetToPA.lookup key with
  | some existingPA =>
    if existingPA = pa.key then ({ c with paToScalingKey := c.paToScalingKey.insert pa.key key }, none)
    else (c, conflict key existingPA)
  | none =>
    let released :=
      match c.paToScalingKey.lookup pa.key with
      | some oldKey => if oldKey ≠ key then c.scalingTargetToPA.erase oldKey else c.scalingTargetToPA
      | none => c.scalingTargetToPA
    (⟨released.insert key pa.key, c.paToScalingKey.insert pa.key key⟩, none)

end Claims

open Claims

inductive Event where
  | reconcile (pa : PodAutoscaler)
  | delete (paKey : NamespacedName)

/-- The claims after a history, newest first. -/
def Claims.after : List Event → Claims
  | [] => {}
  | .reconcile pa :: h => ((after h).checkNoMultiPodAutoscalerConflict pa).1
  | .delete paKey :: h => (after h).cleanupDeletedPA paKey

/-- The spec at the last reconcile of a PodAutoscaler that was not deleted since, with the result of the check. -/
def lastCheck (paKey : NamespacedName) : List Event → Option (PodAutoscaler × Option String)
  | [] => none
  | .reconcile pa :: h =>
    if pa.key = paKey then (pa, ((after h).checkNoMultiPodAutoscalerConflict pa).2) else lastCheck paKey h
  | .delete paKey' :: h => if paKey' = paKey then none else lastCheck paKey h

structure Kept (h : List Event) : Prop where
  inverse key p : (after h).scalingTargetToPA.lookup key = some p ↔ (after h).paToScalingKey.lookup p = some key
  valid p pa : lastCheck p h = some (pa, none) → (after h).paToScalingKey.lookup p = some (buildScalingTargetKey pa)
  known p : lastCheck p h = none → (after h).paToScalingKey.lookup p = none

variable {h : List Event}

theorem Kept.eq_of_key (hk : Kept h) {p q : NamespacedName} {key : String}
    (hp : (after h).paToScalingKey.lookup p = some key) (hq : (after h).paToScalingKey.lookup q = some key) : p = q :=
  Option.some.inj (((hk.inverse _ _).2 hp).symm.trans ((hk.inverse _ _).2 hq))

theorem Kept.step (hk : Kept h) (e : Event) : Kept (e :: h) := by
  have hinj := @hk.eq_of_key
  obtain ⟨hinv, hval, hkn⟩ := hk
  cases e with
  | reconcile pa =>
    constructor
    all_goals
      simp only [after, lastCheck, checkNoMultiPodAutoscalerConflict]
      split
      · split_ifs <;> grind [lookup_insert_eq]
      · split <;> grind [lookup_insert_eq, lookup_erase_eq]
  | delete paKey =>
    constructor
    all_goals
      simp only [after, lastCheck, cleanupDeletedPA]
      cases hp : (after h).paToScalingKey.lookup paKey <;> grind [lookup_erase_eq]

theorem kept_after (h : List Event) : Kept h := by
  induction h with
  | nil => exact ⟨by simp [after], by simp [lastCheck], by simp [after]⟩
  | cons e h ih => exact ih.step e

/-- While no refused autoscaler has a claim, a check is refused only for an autoscaler with the same target. -/
theorem one_autoscaler_per_target (h : List Event) :
    (∀ key p, (after h).scalingTargetToPA.lookup key = some p ↔ (after h).paToScalingKey.lookup p = some key) ∧
    (∀ p pa q qa, lastCheck p h = some (pa, none) → lastCheck q h = some (qa, none) → p ≠ q →
      buildScalingTargetKey pa ≠ buildScalingTargetKey qa) ∧
    ((∀ p pa msg, lastCheck p h = some (pa, some msg) → (after h).paToScalingKey.lookup p = none) →
      ∀ pa msg, ((after h).checkNoMultiPodAutoscalerConflict pa).2 = some msg →
        ∃ other ≠ pa.key, msg = conflict (buildScalingTargetKey pa) other ∧
          ∃ spec, lastCheck other h = some (spec, none) ∧ buildScalingTargetKey spec = buildScalingTargetKey pa) := by
  obtain ⟨hinv, hval, hkn⟩ := kept_after h
  refine ⟨hinv, fun p pa q qa hp hq hne heq => hne ?_, fun hr pa msg hm => ?_⟩
  · exact (kept_after h).eq_of_key (hval p pa hp) (heq ▸ hval q qa hq)
  simp only [checkNoMultiPodAutoscalerConflict] at hm
  split at hm
  · rename_i other ho
    split_ifs at hm with hne
    refine ⟨other, hne, (Option.some.inj hm).symm, ?_⟩
    rcases hl : lastCheck other h with _ | ⟨spec, _ | msg'⟩ <;> grind
  · contradiction

def autoscaler (name target : String) : PodAutoscaler := ⟨⟨"default", name⟩, "apps/v1", "Deployment", target, none⟩

/-- `a` and `b` have targets of their own, and `c` is refused the one of `b`. -/
theorem one_autoscaler_per_target_refusal :
    let h : List Event := [.reconcile (autoscaler "b" "y"), .reconcile (autoscaler "a" "x")]
    buildScalingTargetKey (autoscaler "a" "x") ≠ buildScalingTargetKey (autoscaler "b" "y") ∧
      ∃ other ≠ ⟨"default", "c"⟩, ∃ spec, lastCheck other h = some (spec, none) ∧
        buildScalingTargetKey spec = buildScalingTargetKey (autoscaler "c" "y") := by
  intro h
  obtain ⟨-, hdistinct, hrefused⟩ := one_autoscaler_per_target h
  have hunrefused : ∀ p pa msg, lastCheck p h = some (pa, some msg) → (after h).paToScalingKey.lookup p = none := by
    intro p pa msg hlast
    have hb : ((after h.tail).checkNoMultiPodAutoscalerConflict (autoscaler "b" "y")).2 = none := by decide +kernel
    have ha : (({} : Claims).checkNoMultiPodAutoscalerConflict (autoscaler "a" "x")).2 = none := by decide +kernel
    change (if _ then some (_, ((after h.tail).checkNoMultiPodAutoscalerConflict (autoscaler "b" "y")).2)
      else if _ then some (_, (({} : Claims).checkNoMultiPodAutoscalerConflict (autoscaler "a" "x")).2) else none) = _ at hlast
    rw [hb, ha] at hlast
    split_ifs at hlast <;> simp at hlast
  refine ⟨hdistinct ⟨"default", "a"⟩ _ ⟨"default", "b"⟩ _ (by decide +kernel) (by decide +kernel) (by decide), ?_⟩
  obtain ⟨other, hne, -, spec, hlast, hkey⟩ := hrefused hunrefused (autoscaler "c" "y")
    (conflict "apps/v1.Deployment/default/y" ⟨"default", "b"⟩) (by decide +kernel)
  exact ⟨other, hne, spec, hlast, hkey⟩

/-- `b` is refused the target of `a` and keeps its claim on `y`, which `c` cannot have then. -/
theorem refused_edit_keeps_claim :
    let h := [.reconcile (autoscaler "b" "x"), .reconcile (autoscaler "b" "y"), .reconcile (autoscaler "a" "x")]
    ((after h).checkNoMultiPodAutoscalerConflict (autoscaler "c" "y")).2 =
        some (conflict "apps/v1.Deployment/default/y" ⟨"default", "b"⟩) ∧
      (lastCheck ⟨"default", "b"⟩ h).map (·.1.targetName) = some "x" := by
  decide +kernel

end Aibrix.ScalingTargets
