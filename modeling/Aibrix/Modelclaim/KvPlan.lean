import Aibrix.Lib.Shares
import Aibrix.Modelclaim.Ledger
import Mathlib.Data.List.Sort

/-! # Dividing a card among its engines

`pkg/controller/modelclaim/kvplan.go`. Each engine keeps what it holds, and the room left over is
shared out by weight.
-/

namespace Aibrix.Modelclaim

open Lib List

/-- `%.1f` of `n / d`: tenths, with a tie going to the even one. -/
def roundedTenths (n d : Nat) : Nat :=
  let q := 10 * n / d
  let r := 10 * n % d
  if d < 2 * r ∨ (2 * r = d ∧ q % 2 = 1) then q + 1 else q

def gibibytes (bytes : Int) : String :=
  let tenths := roundedTenths bytes.natAbs (2 ^ 30)
  (if bytes < 0 then "-" else "") ++ toString (tenths / 10) ++ "." ++ toString (tenths % 10) ++ " GiB"

/-! ## Weights and limits -/

def boundedActivity (value : Int) : Int :=
  if value < 0 then 0 else if 4 < value then 4 else value

def kvExtraWeight (engine : EngineOnPod) : Int :=
  if engine.asleep then 0
  else if engine.demandUnknown then 1 + boundedActivity (2 ^ 63 - 1)
  else 1 + boundedActivity engine.inFlightRequests

variable (e : EngineOnPod)

theorem kvExtraWeight_nonneg : 0 ≤ kvExtraWeight e := by
  unfold kvExtraWeight boundedActivity
  omega

/-- The limit one engine should be held to, and the limit it is held to now. -/
structure PlannedKVLimit where
  claimName : String
  modelName : String
  kvLimitBytes : Int
  kvCapacityBytes : Int
  kvRecordedBytes : Int
  kvInitialCapacityBytes : Option Int
  deriving DecidableEq, Repr

namespace PlannedKVLimit

variable (l : PlannedKVLimit)

def lowersRecord : Bool := l.kvLimitBytes < l.kvRecordedBytes

def shrinks : Bool := 0 ≤ l.kvCapacityBytes && decide (l.kvLimitBytes < l.kvCapacityBytes)

/-- Whether the engine has a segment, and is not at its planned limit already. -/
def writable : Bool := !(l.kvCapacityBytes < 0 || l.kvCapacityBytes = l.kvLimitBytes)

end PlannedKVLimit

def clampKVLimit (limit : Int) : Option Int → Int
  | some ceiling => if 0 ≤ ceiling ∧ ceiling < limit then ceiling else limit
  | none => limit

theorem clampKVLimit_le (limit : Int) (ceiling : Option Int) : clampKVLimit limit ceiling ≤ limit := by
  unfold clampKVLimit
  split
  · omega
  · exact le_rfl

theorem clampKVLimit_mono {a b : Int} (h : a ≤ b) (ceiling : Option Int) :
    clampKVLimit a ceiling ≤ clampKVLimit b ceiling := by
  unfold clampKVLimit
  split
  · split <;> split <;> omega
  · exact h

/-! ## The plan -/

inductive PlanError where
  | noPerGPUCost (claimName : String)
  | capacityBelowHeld (claimName : String)
  | overfull (bytes : Int)
  /-- The loop that hands out the last bytes did not end. -/
  | unfinished
  deriving DecidableEq, Repr

def planObjection : Option PlanError :=
  if e.maximumFootprintBytes ≤ 0 ∨ e.kvFloorBytes ≤ 0 then some (.noPerGPUCost e.claimName)
  else if clampKVLimit e.plannedKVHeldBytes e.kvInitialCapacityBytes < e.plannedKVHeldBytes then
    some (.capacityBelowHeld e.claimName)
  else none

def plannedLimit (kvLimitBytes : Int) : PlannedKVLimit :=
  { claimName := e.claimName, modelName := e.modelName, kvLimitBytes
    kvCapacityBytes := e.kvCapacityBytes, kvRecordedBytes := e.kvRecordedBytes
    kvInitialCapacityBytes := e.kvInitialCapacityBytes }

variable (engines : List EngineOnPod)

def orderedByClaim : List EngineOnPod :=
  engines.insertionSort (·.claimName ≤ ·.claimName)

/-- A value as Go keeps it in 64 bits. -/
def int64 (x : Int) : Int := x.bmod (2 ^ 64)

/-- `kvUnassignedBytes * weight / totalKVExtraWeight`, of which the product can overflow. -/
def int64Share (spare weight total : Int) : Int := (int64 (spare * weight)).tdiv total

/-- `planKVLimits` with this arithmetic for a share. The loop at the end has time to hand out all that is left. -/
def planKVLimitsWith (share : Int → Int → Int → Int) (hbmUsableBytes : Int) (engines : List EngineOnPod) :
    Except PlanError (List PlannedKVLimit) :=
  if engines = [] then .ok [] else
  let ordered := orderedByClaim engines
  match ordered.findSome? planObjection with
  | some objection => .error objection
  | none =>
    let kvUnassignedBytes := hbmUsableBytes - (ordered.map (·.heldBytes)).sum
    if kvUnassignedBytes < 0 then .error (.overfull (-kvUnassignedBytes)) else
    let kvExtraWeights := ordered.map kvExtraWeight
    let totalKVExtraWeight := kvExtraWeights.sum
    let kvExtraBytes := kvExtraWeights.map fun weight =>
      if 0 < totalKVExtraWeight then share kvUnassignedBytes weight totalKVExtraWeight else 0
    let amounts := zipWith (fun e extra => e.plannedKVHeldBytes + extra) ordered kvExtraBytes
    if totalKVExtraWeight = 0 then .ok (zipWith plannedLimit ordered amounts) else
    let left := (kvUnassignedBytes - kvExtraBytes.sum).toNat
    match handOut kvExtraWeights (ordered.length * left) 0 left amounts with
    | none => .error .unfinished
    | some amounts => .ok (zipWith
        (fun e amount => plannedLimit e (clampKVLimit amount e.kvInitialCapacityBytes)) ordered amounts)

/-- The plan where no product overflows. -/
def planKVLimits : Int → List EngineOnPod → Except PlanError (List PlannedKVLimit) :=
  planKVLimitsWith fun spare weight total => spare * weight / total

/-! ## When a plan is carried out -/

/-- Whether an engine has mapped half of its limit, has requests waiting, or could not be read. -/
def shortOfKV (engine : EngineOnPod) : Bool :=
  if engine.asleep || decide (engine.kvCapacityBytes ≤ 0) then false
  else decide (0 < engine.requestsWaiting) || engine.demandUnknown ||
    decide (engine.kvCapacityBytes - engine.kvCapacityBytes / 2 ≤ engine.kvUsedBytes)

def shortEnginesOwedMore (limits : List PlannedKVLimit) (minimumChangeBytes : Int) : List String :=
  limits.filterMap fun limit =>
    match (engines.filter fun e => shortOfKV e && e.claimName = limit.claimName).getLast? with
    | none => none
    | some engine =>
      let more := limit.kvLimitBytes - engine.kvCapacityBytes
      if 0 < more ∧ minimumChangeBytes ≤ more then some limit.claimName else none

/-- Whether some engine is held to a limit other than the one its instance records. -/
def leftUnfinished : Bool :=
  engines.any fun e => 0 ≤ e.kvCapacityBytes ∧ e.kvCapacityBytes ≠ e.kvRecordedBytes

def atRest : Bool :=
  engines.all fun e => e.asleep || !(decide (0 < e.inFlightRequests) || e.demandUnknown)

variable (limits : List PlannedKVLimit)

def heldToUnderHalf : Bool :=
  limits.any fun l => 0 ≤ l.kvCapacityBytes ∧ l.kvCapacityBytes < l.kvLimitBytes - l.kvLimitBytes / 2

/-- Whether a round is to carry out the plan of a card, and the engines its next round asks about. -/
def needsDividing (limits : List PlannedKVLimit) (minimumChangeBytes : Int)
    (owedBefore : List String) : Bool × List String :=
  let owed := shortEnginesOwedMore engines limits minimumChangeBytes
  (owed.any owedBefore.contains || leftUnfinished engines || (atRest engines && heldToUnderHalf limits), owed)

def worthWriting (minimumChangeBytes : Int) : Bool :=
  limits.any fun l => 0 ≤ l.kvCapacityBytes ∧ minimumChangeBytes ≤ |l.kvLimitBytes - l.kvCapacityBytes|

/-- The limits that shrink an engine before the ones that grow one, in claim order within each. -/
def writeOrder : List PlannedKVLimit :=
  let writable := limits.filter (·.writable)
  writable.filter (·.shrinks) ++ writable.filter (!·.shrinks)

def shrinksAndGrows : List PlannedKVLimit × List PlannedKVLimit :=
  ((writeOrder limits).filter (·.shrinks), (writeOrder limits).filter (!·.shrinks))

def confirmKVLimits (models : List RuntimeSnapshotModel) (written : List PlannedKVLimit) : Option String :=
  written.findSome? fun limit =>
    match models.find? (·.modelName = limit.modelName) with
    | none => some (limit.modelName ++ " is no longer on this card")
    | some engine =>
      if engine.kvCapacityBytes ≠ limit.kvLimitBytes then
        some (limit.modelName ++ " did not take a KV limit of " ++ gibibytes limit.kvLimitBytes)
      else if limit.kvLimitBytes < engine.kvUsedBytes then
        some (limit.modelName ++ " holds " ++ gibibytes engine.kvUsedBytes ++ ", past the " ++
          gibibytes limit.kvLimitBytes ++ " it was given")
      else none

variable {limits : List PlannedKVLimit} {engines ordered : List EngineOnPod} {amounts : List Int}
  {hbmUsableBytes : Int}

open PlannedKVLimit

theorem mem_shrinks {l : PlannedKVLimit} : l ∈ (shrinksAndGrows limits).1 ↔ l ∈ limits ∧ l.shrinks := by
  have : l.shrinks = true → l.writable = true := by
    unfold shrinks writable
    simp only [Bool.and_eq_true, decide_eq_true_eq, Bool.not_eq_true', Bool.or_eq_false_iff, decide_eq_false_iff_not]
    omega
  simp only [shrinksAndGrows, writeOrder]
  grind

theorem mem_grows {l : PlannedKVLimit} :
    l ∈ (shrinksAndGrows limits).2 ↔ l ∈ limits ∧ 0 ≤ l.kvCapacityBytes ∧ l.kvCapacityBytes < l.kvLimitBytes := by
  have : l.writable = true ∧ l.shrinks = false ↔ 0 ≤ l.kvCapacityBytes ∧ l.kvCapacityBytes < l.kvLimitBytes := by
    unfold shrinks writable
    simp only [Bool.and_eq_false_iff, Bool.not_eq_true', Bool.or_eq_false_iff, decide_eq_false_iff_not]
    omega
  simp only [shrinksAndGrows, writeOrder]
  grind

theorem confirmKVLimits_none {models : List RuntimeSnapshotModel} {written : List PlannedKVLimit}
    (h : confirmKVLimits models written = none) {limit : PlannedKVLimit} (hl : limit ∈ written) :
    ∃ engine ∈ models, engine.modelName = limit.modelName ∧ engine.kvCapacityBytes = limit.kvLimitBytes := by
  have hl := findSome?_eq_none_iff.1 h limit hl
  split at hl
  · cases hl
  · rename_i engine hfn
    split_ifs at hl with hcap _
    exact ⟨engine, mem_of_find?_eq_some hfn, by simpa using find?_some hfn, not_not.1 hcap⟩

/-! ## What a plan promises -/

/-- What an engine takes off its card when it is held to `limit`. -/
def EngineOnPod.chargedBytes (limit : Int) : Int :=
  if e.withoutWakeReserve then e.heldBytes else e.maximumFootprintBytes + limit

structure PlanFor (e : EngineOnPod) (l : PlannedKVLimit) : Prop where
  copied : l = plannedLimit e l.kvLimitBytes
  keeps : e.plannedKVHeldBytes ≤ l.kvLimitBytes
  declared : e.Declared

theorem planObjection_none {e : EngineOnPod} (h : planObjection e = none) :
    e.Declared ∧ e.plannedKVHeldBytes ≤ clampKVLimit e.plannedKVHeldBytes e.kvInitialCapacityBytes := by
  unfold planObjection at h
  split_ifs at h with h1 h2
  rw [not_or, not_le, not_le] at h1
  exact ⟨h1, not_lt.1 h2⟩

theorem mem_orderedByClaim {e : EngineOnPod} : e ∈ orderedByClaim engines ↔ e ∈ engines := mem_insertionSort _

theorem sum_heldBytes_ordered : ((orderedByClaim engines).map (·.heldBytes)).sum = (engines.map (·.heldBytes)).sum :=
  ((perm_insertionSort _ engines).map _).sum_eq

/-- What each engine is given on top of what it holds, in claim order. -/
def kvExtras (spare : Int) (ordered : List EngineOnPod) : List Int := divide spare (ordered.map kvExtraWeight)

def limitWith (extra : Int) : PlannedKVLimit :=
  plannedLimit e (clampKVLimit (e.plannedKVHeldBytes + extra) e.kvInitialCapacityBytes)

theorem weights_nonneg (ordered : List EngineOnPod) : ∀ w ∈ ordered.map kvExtraWeight, 0 ≤ w := by
  rw [forall_mem_map]
  exact fun e _ => kvExtraWeight_nonneg e

theorem zipWith_plannedLimit_add (ordered : List EngineOnPod) (shares ones : List Int) :
    zipWith (fun e amount => plannedLimit e (clampKVLimit amount e.kvInitialCapacityBytes)) ordered
      (zipWith (· + ·) (zipWith (fun e x => e.plannedKVHeldBytes + x) ordered shares) ones) =
    zipWith limitWith ordered (zipWith (· + ·) shares ones) := by
  induction ordered generalizing shares ones with
  | nil => simp
  | cons e es ih =>
    cases shares with
    | nil => simp
    | cons x xs =>
      cases ones with
      | nil => simp
      | cons y ys => simp [limitWith, add_assoc, ih]

/-- The plan as one equation: it is refused, or the spare room is divided. -/
theorem planKVLimits_eq (usable : Int) (hne : engines ≠ []) : planKVLimits usable engines =
      match (orderedByClaim engines).findSome? planObjection with
      | some objection => .error objection
      | none =>
        let spare := usable - (engines.map (·.heldBytes)).sum
        if spare < 0 then .error (.overfull (-spare))
        else .ok (zipWith limitWith (orderedByClaim engines) (kvExtras spare (orderedByClaim engines))) := by
  unfold planKVLimits planKVLimitsWith
  rw [if_neg hne]
  dsimp only
  rw [sum_heldBytes_ordered]
  split
  · rfl
  rename_i hobj
  rw [findSome?_eq_none_iff] at hobj
  split
  · rfl
  generalize orderedByClaim engines = ordered at *
  have hwn := weights_nonneg ordered
  set weights := ordered.map kvExtraWeight with hwg
  have htt : 0 ≤ weights.sum := sum_nonneg hwn
  split
  · -- all asleep: nobody gets more than what it holds, which no ceiling cuts
    rename_i hzr
    simp only [kvExtras, divide, ← hwg, hzr, lt_irrefl, if_false]
    simp only [hwg, map_map, zipWith_map_right, zipWith_self]
    rw [Except.ok.injEq]
    refine map_congr_left fun e he => ?_
    have hle := (planObjection_none (hobj e he)).2
    have hge := clampKVLimit_le e.plannedKVHeldBytes e.kvInitialCapacityBytes
    rw [limitWith]
    simp [le_antisymm hge hle]
  · rename_i hnz
    have hpos : 0 < weights.sum := lt_of_le_of_ne htt (Ne.symm hnz)
    simp only [kvExtras, divide, ← hwg, if_pos hpos]
    change (match handOut weights (ordered.length * (_ - (shares _ weights).sum).toNat) 0
      (_ - (shares _ weights).sum).toNat (zipWith _ ordered (shares _ weights)) with | none => _ | some amounts => _) = _
    have hlf := sub_sum_shares_le (usable - (engines.map (·.heldBytes)).sum) weights hpos hwn
    have honce := handOut_once weights (usable - (engines.map (·.heldBytes)).sum -
      (shares (usable - (engines.map (·.heldBytes)).sum) weights).sum).toNat (zipWith (fun e extra =>
        e.plannedKVHeldBytes + extra) ordered (shares (usable - (engines.map (·.heldBytes)).sum) weights))
      (by simp [hwg, shares]) (by simpa using hlf)
    rw [show weights.length = ordered.length by simp [hwg]] at honce
    rw [honce]
    exact congrArg Except.ok (zipWith_plannedLimit_add ordered _ _)

/-- A relation that sums keep, from each engine to the card. -/
theorem sum_charged_rel {r : Int → Int → Prop} (hzr : r 0 0) (hadd : ∀ a b c d, r a b → r c d → r (a + c) (b + d))
    {extras : List Int}
    (h : Forall₂ (fun e x => r (e.chargedBytes (limitWith e x).kvLimitBytes) (e.heldBytes + x)) ordered extras) :
    r (zipWith (fun e l => e.chargedBytes l.kvLimitBytes) ordered (zipWith limitWith ordered extras)).sum
      ((ordered.map (·.heldBytes)).sum + extras.sum) := by
  induction h with
  | nil => simpa using hzr
  | cons hex _ ih =>
    have := hadd _ _ _ _ hex ih
    simp only [zipWith_cons_cons, sum_cons, map_cons]
    convert this using 1
    ring

open EngineOnPod

variable {extra spare : Int}

theorem chargedBytes_limitWith_le (hx : 0 ≤ extra) :
    e.chargedBytes (limitWith e extra).kvLimitBytes ≤ e.heldBytes + extra := by
  have hle := clampKVLimit_le (e.plannedKVHeldBytes + extra) e.kvInitialCapacityBytes
  change e.chargedBytes (clampKVLimit _ _) ≤ _
  unfold plannedKVHeldBytes chargedBytes heldBytes at *
  split_ifs at * <;> omega

/-- What an engine may be given on top of what it holds: its floored share, or one byte more. -/
def EngineOnPod.Share (spare total extra : Int) : Prop :=
  if e.asleep then extra = 0
  else extra = spare * kvExtraWeight e / total ∨ extra = spare * kvExtraWeight e / total + 1

theorem kvExtraWeight_eq_zero : kvExtraWeight e = 0 ↔ e.asleep = true := by
  unfold kvExtraWeight boundedActivity
  split_ifs
  all_goals simp_all
  all_goals omega

theorem kvExtras_spec (hs : 0 ≤ spare) (ordered : List EngineOnPod) :
    Forall₂ (fun e x => 0 ≤ x ∧ e.Share spare (ordered.map kvExtraWeight).sum x) ordered (kvExtras spare ordered) := by
  refine (forall₂_map_left_iff.1 (divide_spec (weights_nonneg ordered) hs)).imp fun e x h => ⟨h.1, ?_⟩
  unfold EngineOnPod.Share
  split
  · exact h.2.1 ((kvExtraWeight_eq_zero e).2 ‹_›)
  · exact h.2.2 (mt (kvExtraWeight_eq_zero e).1 ‹_›)

theorem sum_kvExtras (h : ∃ e ∈ ordered, e.asleep = false) : (kvExtras spare ordered).sum = spare := by
  obtain ⟨e, he, haw⟩ := h
  have hle := single_le_sum (weights_nonneg ordered) _ (mem_map_of_mem he)
  have hnn := kvExtraWeight_nonneg e
  have hne : kvExtraWeight e ≠ 0 := mt (kvExtraWeight_eq_zero e).1 (by simp [haw])
  exact sum_divide (weights_nonneg ordered) (by omega)

theorem sum_kvExtras_le (hs : 0 ≤ spare) (ordered : List EngineOnPod) : (kvExtras spare ordered).sum ≤ spare := by
  by_cases h : 0 < (ordered.map kvExtraWeight).sum
  · exact (sum_divide (weights_nonneg ordered) h).le
  · rw [kvExtras, divide, if_neg h, map_map]
    simpa [Function.comp_def] using hs

theorem planKVLimits_ok (hne : engines ≠ []) (h : planKVLimits hbmUsableBytes engines = .ok limits) :
    ∃ spare, spare = hbmUsableBytes - (engines.map (·.heldBytes)).sum ∧ 0 ≤ spare ∧
      (∀ e ∈ orderedByClaim engines, planObjection e = none) ∧
      limits = zipWith limitWith (orderedByClaim engines) (kvExtras spare (orderedByClaim engines)) := by
  rw [planKVLimits_eq hbmUsableBytes hne] at h
  split at h
  · cases h
  rename_i hobj
  dsimp only at h
  split at h
  · cases h
  · cases h
    exact ⟨_, rfl, not_lt.1 ‹_›, findSome?_eq_none_iff.1 hobj, rfl⟩

theorem planFor_limitWith (hobj : planObjection e = none) (hx : 0 ≤ extra) : PlanFor e (limitWith e extra) := by
  obtain ⟨hdc, hkp⟩ := planObjection_none hobj
  exact ⟨rfl, hkp.trans (clampKVLimit_mono (le_add_of_nonneg_right hx) _), hdc⟩

/-- A plan gives each engine at least what it holds, and what it gives fits on the card. -/
theorem planKVLimits_spec (hne : engines ≠ []) (h : planKVLimits hbmUsableBytes engines = .ok limits) :
    Forall₂ PlanFor (orderedByClaim engines) limits ∧
      (zipWith (fun e l => e.chargedBytes l.kvLimitBytes) (orderedByClaim engines) limits).sum ≤ hbmUsableBytes := by
  obtain ⟨spare, hsp, hnn, hobj, rfl⟩ := planKVLimits_ok hne h
  have hex := (forall₂_and_left _ _).2 ⟨hobj, kvExtras_spec hnn _⟩
  refine ⟨forall₂_zipWith (fun e x h => planFor_limitWith e h.1 h.2.1) hex, ?_⟩
  have hsum := sum_charged_rel (r := (· ≤ ·)) le_rfl (fun _ _ _ _ => add_le_add)
    (hex.imp fun e x h => chargedBytes_limitWith_le e h.2.1)
  have hle := sum_kvExtras_le hnn (orderedByClaim engines)
  rw [sum_heldBytes_ordered] at hsum
  omega

theorem planKVLimits_isOk (hobj : ∀ e ∈ engines, planObjection e = none)
    (hrm : (engines.map (·.heldBytes)).sum ≤ hbmUsableBytes) :
    ∃ limits, planKVLimits hbmUsableBytes engines = .ok limits := by
  by_cases hne : engines = []
  · exact ⟨[], by rw [planKVLimits, planKVLimitsWith, if_pos hne]⟩
  have hfn : (orderedByClaim engines).findSome? planObjection = none := by
    rw [findSome?_eq_none_iff]
    exact fun e he => hobj e (mem_orderedByClaim.1 he)
  rw [planKVLimits_eq hbmUsableBytes hne, hfn]
  exact ⟨_, if_neg (by omega)⟩

/-- A plan is refused for a declaration, or for lack of room, and for nothing else. -/
theorem planKVLimits_error {error : PlanError} (h : planKVLimits hbmUsableBytes engines = .error error) :
    (∃ claimName, error = .noPerGPUCost claimName ∨ error = .capacityBelowHeld claimName) ∨
      (∃ bytes, error = .overfull bytes) ∧ hbmUsableBytes < (engines.map (·.heldBytes)).sum := by
  by_cases hne : engines = []
  · rw [planKVLimits, planKVLimitsWith, if_pos hne] at h
    cases h
  rw [planKVLimits_eq hbmUsableBytes hne] at h
  split at h
  · rename_i objection hfn
    obtain ⟨e, _, he⟩ := exists_of_findSome?_eq_some hfn
    cases h
    refine .inl ⟨e.claimName, ?_⟩
    unfold planObjection at he
    split_ifs at he <;> simp_all
  · dsimp only at h
    split at h
    · cases h
      exact .inr ⟨⟨_, rfl⟩, by omega⟩
    · cases h

/-- A plan fails for lack of room only on a card whose engines hold more than it has. -/
theorem planKVLimits_overfull {bytes : Int} (h : planKVLimits hbmUsableBytes engines = .error (.overfull bytes)) :
    hbmUsableBytes < (engines.map (·.heldBytes)).sum := by
  simpa using planKVLimits_error h

theorem orderedByClaim_perm {engines' : List EngineOnPod} (hnd : (engines.map (·.claimName)).Nodup)
    (h : engines'.Perm engines) : orderedByClaim engines' = orderedByClaim engines := by
  have hsort (l : List EngineOnPod) : (orderedByClaim l).Pairwise (·.claimName ≤ ·.claimName) :=
    pairwise_insertionSort _ l
  have hperm (l : List EngineOnPod) : (orderedByClaim l).Perm l := perm_insertionSort _ l
  refine Perm.eq_of_pairwise (fun a b ha hb hab hba => ?_) (hsort _) (hsort _)
    (((hperm _).trans h).trans (hperm _).symm)
  rw [mem_orderedByClaim] at ha hb
  exact inj_on_of_nodup_map hnd (h.subset ha) hb (String.le_antisymm hab hba)

/-! ## The plan in 64 bits -/

/-- No product of the spare room and a weight overflows. -/
def SharesFit (hbmUsableBytes : Int) (engines : List EngineOnPod) : Prop :=
  ∀ e ∈ engines, (hbmUsableBytes - (engines.map (·.heldBytes)).sum) * kvExtraWeight e < 2 ^ 63

theorem int64Share_eq {spare weight total : Int} (hspare : 0 ≤ spare) (hweight : 0 ≤ weight)
    (hfits : spare * weight < 2 ^ 63) : int64Share spare weight total = spare * weight / total := by
  have hnonneg : 0 ≤ spare * weight := mul_nonneg hspare hweight
  have hkept : int64 (spare * weight) = spare * weight := Int.bmod_eq_of_le (by omega) (by omega)
  unfold int64Share
  rw [hkept, Int.tdiv_eq_ediv_of_nonneg hnonneg]

theorem planKVLimits_int64 (h : SharesFit hbmUsableBytes engines) :
    planKVLimitsWith int64Share hbmUsableBytes engines = planKVLimits hbmUsableBytes engines := by
  unfold planKVLimits planKVLimitsWith
  dsimp only
  rw [sum_heldBytes_ordered]
  split
  · rfl
  split
  · rfl
  split
  · rfl
  rename_i hspare
  have hshares : ((orderedByClaim engines).map kvExtraWeight).map (fun weight =>
      if 0 < ((orderedByClaim engines).map kvExtraWeight).sum then int64Share (hbmUsableBytes -
        (engines.map (·.heldBytes)).sum) weight ((orderedByClaim engines).map kvExtraWeight).sum else 0) =
      ((orderedByClaim engines).map kvExtraWeight).map fun weight =>
        if 0 < ((orderedByClaim engines).map kvExtraWeight).sum then (hbmUsableBytes -
          (engines.map (·.heldBytes)).sum) * weight / ((orderedByClaim engines).map kvExtraWeight).sum else 0 := by
    refine map_congr_left fun weight hweight => ?_
    obtain ⟨e, he, rfl⟩ := mem_map.1 hweight
    rw [int64Share_eq (not_lt.1 hspare) (kvExtraWeight_nonneg e) (h e (mem_orderedByClaim.1 he))]
  rw [hshares]

theorem SharesFit.perm {engines' : List EngineOnPod} (h : SharesFit hbmUsableBytes engines)
    (hperm : engines'.Perm engines) : SharesFit hbmUsableBytes engines' := by
  intro e he
  rw [(hperm.map _).sum_eq]
  exact h e (hperm.subset he)

structure Divided (e : EngineOnPod) (l : PlannedKVLimit) : Prop extends PlanFor e l where
  ceiling : ∀ capacity, e.kvInitialCapacityBytes = some capacity → 0 ≤ capacity → l.kvLimitBytes ≤ capacity
  asleep : e.asleep = true → l.kvLimitBytes = e.plannedKVHeldBytes

theorem Divided.limitWith {e : EngineOnPod} {total : Int} (hobj : planObjection e = none) (hx : 0 ≤ extra)
    (hsh : e.Share spare total extra) : Divided e (limitWith e extra) := by
  obtain ⟨-, hkp⟩ := planObjection_none hobj
  refine ⟨planFor_limitWith e hobj hx, fun capacity hc hnn => ?_, fun hsl => ?_⟩
  · change clampKVLimit _ _ ≤ _
    rw [hc, clampKVLimit]
    omega
  rw [EngineOnPod.Share, if_pos hsl] at hsh
  have hle := clampKVLimit_le e.plannedKVHeldBytes e.kvInitialCapacityBytes
  change clampKVLimit _ _ = _
  rw [hsh, add_zero]
  omega

theorem card_divided {hbmUsableBytes : Int} {engines : List EngineOnPod} (hfits : SharesFit hbmUsableBytes engines) :
    planKVLimitsWith int64Share hbmUsableBytes engines ≠ .error .unfinished ∧
    ((engines.map (·.claimName)).Nodup → ∀ engines', engines'.Perm engines →
      planKVLimitsWith int64Share hbmUsableBytes engines' = planKVLimitsWith int64Share hbmUsableBytes engines) ∧
    ∀ limits, planKVLimitsWith int64Share hbmUsableBytes engines = .ok limits → 0 ≤ hbmUsableBytes ∨ engines ≠ [] →
      let ordered := orderedByClaim engines
      let spare := hbmUsableBytes - (engines.map (·.heldBytes)).sum
      let charged := (zipWith (fun e l => e.chargedBytes l.kvLimitBytes) ordered limits).sum
      charged ≤ hbmUsableBytes ∧ Forall₂ Divided ordered limits ∧
      ∃ extras, Forall₂ (·.Share spare (ordered.map kvExtraWeight).sum ·) ordered extras ∧
        limits = zipWith limitWith ordered extras ∧
        ((∃ e ∈ engines, e.asleep = false) →
          Forall₂ (fun e x => (limitWith e x).kvLimitBytes = e.plannedKVHeldBytes + x) ordered extras →
          (ordered.map (·.heldBytes)).sum + extras.sum = hbmUsableBytes ∧
            ((∀ e ∈ engines, e.withoutWakeReserve → e.asleep) → charged = hbmUsableBytes)) := by
  rw [planKVLimits_int64 hfits]
  refine ⟨fun h => ?_, fun hnd engines' hpr => ?_, fun limits h hsize => ?_⟩
  · simpa using planKVLimits_error h
  · by_cases hne : engines = []
    · subst hne
      rw [hpr.eq_nil, planKVLimits_int64 hfits]
    have hne' : engines' ≠ [] := by
      rintro rfl
      exact hne hpr.symm.eq_nil
    rw [planKVLimits_int64 (hfits.perm hpr), planKVLimits_eq _ hne, planKVLimits_eq _ hne',
      orderedByClaim_perm hnd hpr, (hpr.map _).sum_eq]
  by_cases hne : engines = []
  · subst hne
    cases h
    exact ⟨hsize.resolve_right (by simp), .nil, [], .nil, rfl, by simp⟩
  have hle := (planKVLimits_spec hne h).2
  obtain ⟨spare, hsp, hnn, hobj, rfl⟩ := planKVLimits_ok hne h
  have hex := (forall₂_and_left _ _).2 ⟨hobj, kvExtras_spec hnn (orderedByClaim engines)⟩
  rw [← hsp]
  refine ⟨hle, forall₂_zipWith (fun e x h => .limitWith h.1 h.2.1 h.2.2) hex, _, hex.imp fun e x h => h.2.2, rfl,
    fun hawake hfree => ?_⟩
  have hall : ((orderedByClaim engines).map (·.heldBytes)).sum + (kvExtras spare (orderedByClaim engines)).sum =
      hbmUsableBytes := by
    rw [sum_heldBytes_ordered, sum_kvExtras (hawake.imp fun e he => ⟨mem_orderedByClaim.2 he.1, he.2⟩)]
    omega
  refine ⟨hall, fun hres => ?_⟩
  refine (sum_charged_rel (r := (· = ·)) rfl (fun _ _ _ _ h h' => by rw [h, h']) ?_).trans hall
  refine forall₂_iff_zip.2 ⟨hfree.length_eq, fun {e x} hmem => ?_⟩
  have hlim := (forall₂_iff_zip.1 hfree).2 hmem
  have hshare := ((forall₂_iff_zip.1 hex).2 hmem).2.2
  have hasleep := hres e (mem_orderedByClaim.1 (of_mem_zip hmem).1)
  rw [hlim]
  unfold EngineOnPod.Share at hshare
  unfold chargedBytes heldBytes plannedKVHeldBytes
  split_ifs with hwake
  · rw [if_pos (hasleep hwake)] at hshare
    omega
  · omega

/-! ### A card that is too large -/

/-- An engine with these requests in flight, that has mapped nothing. -/
theorem noBytes_nonneg : (0 : Int) ≤ 0 := le_refl 0

def awakeEngine (claimName : String) (inFlightRequests : Int) : EngineOnPod :=
  { maximumFootprintBytes := 1, kvFloorBytes := 1, claimName, modelName := claimName, kvCapacityBytes := kvLimitUnknown,
    inFlightRequests, used_nonneg := noBytes_nonneg, sleeping_nonneg := noBytes_nonneg }

theorem handOut_pair {a b x y : Int} (ha : a ≠ 0) (hb : b ≠ 0) (n : Nat) :
    handOut [a, b] (2 * n) 0 (2 * n) [x, y] = some [x + n, y + n] := by
  induction n generalizing x y with
  | zero => simp [handOut]
  | succ n ih =>
    change handOut [a, b] (2 * n + 1 + 1) 0 (2 * n + 1 + 1) [x, y] = _
    rw [handOut, if_neg (show [a, b].getD 0 0 ≠ 0 from ha), handOut,
      if_neg (show [a, b].getD ((0 + 1) % [x, y].length) 0 ≠ 0 from hb)]
    simp only [length_cons, length_nil, Nat.zero_add, Nat.reduceAdd, Nat.reduceMod, modify_zero_cons,
      modify_succ_cons, ih]
    push_cast
    rw [add_assoc x, add_comm 1, add_assoc y, add_comm 1]

/-- On 2 ^ 62 spare bytes the engine of weight 3 is given a quarter, and the one of weight 1 the rest. -/
theorem card_divided_overflow :
    kvExtraWeight (awakeEngine "a" 2) = 3 ∧ kvExtraWeight (awakeEngine "b" 0) = 1 ∧
    planKVLimitsWith int64Share (2 ^ 62 + 4) [awakeEngine "a" 2, awakeEngine "b" 0] =
      .ok [plannedLimit (awakeEngine "a" 2) (1 + 2 ^ 60), plannedLimit (awakeEngine "b" 0) (1 + 3 * 2 ^ 60)] := by
  refine ⟨by decide, by decide, ?_⟩
  have hordered : orderedByClaim [awakeEngine "a" 2, awakeEngine "b" 0] = [awakeEngine "a" 2, awakeEngine "b" 0] := by
    decide
  have hobjection : [awakeEngine "a" 2, awakeEngine "b" 0].findSome? planObjection = none := by decide
  have hspare : (2 ^ 62 + 4 : Int) - ([awakeEngine "a" 2, awakeEngine "b" 0].map (·.heldBytes)).sum = 2 ^ 62 := by
    decide
  have hweights : [awakeEngine "a" 2, awakeEngine "b" 0].map kvExtraWeight = [3, 1] := by decide
  have hshares : ([3, 1].map fun weight : Int =>
      if 0 < [(3 : Int), 1].sum then int64Share (2 ^ 62) weight [3, 1].sum else 0) = [-2 ^ 60, 2 ^ 60] := by decide
  have hamounts : zipWith (fun e extra => e.plannedKVHeldBytes + extra) [awakeEngine "a" 2, awakeEngine "b" 0]
      [-2 ^ 60, 2 ^ 60] = [1 + -2 ^ 60, 1 + 2 ^ 60] := by decide
  have hleft : (2 ^ 62 - [-2 ^ 60, 2 ^ 60].sum : Int).toNat = 2 * 2 ^ 61 := by decide
  -- The loop hands out 2 ^ 62 bytes, every other one to each engine.
  have hhanded := @handOut_pair 3 1 (1 + -2 ^ 60) (1 + 2 ^ 60) (by decide) (by decide) (2 ^ 61)
  unfold planKVLimitsWith
  rw [if_neg (by decide)]
  dsimp only
  rw [hordered, hobjection]
  dsimp only
  rw [hspare, if_neg (by decide), hweights, hshares, hamounts, if_neg (by decide), hleft,
    @handOut_mono _ _ _ (2 * 2 ^ 61) _ _ _ (by decide) hhanded]
  decide

theorem card_divided_uneven : planKVLimitsWith int64Share 15 [awakeEngine "a" 2, awakeEngine "b" 0] =
      .ok [plannedLimit (awakeEngine "a" 2) 10, plannedLimit (awakeEngine "b" 0) 3] ∧
    ∀ limits, planKVLimitsWith int64Share 15 [awakeEngine "a" 2, awakeEngine "b" 0] = .ok limits →
      Forall₂ Divided [awakeEngine "a" 2, awakeEngine "b" 0] limits := by
  have hfits : SharesFit 15 [awakeEngine "a" 2, awakeEngine "b" 0] := by
    unfold SharesFit
    decide
  exact ⟨by decide, fun limits h => ((card_divided hfits).2.2 limits h (.inl (by decide))).2.1⟩

end Aibrix.Modelclaim
