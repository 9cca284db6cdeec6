import Mathlib.Algebra.Order.Ring.Rat
import Aibrix.Lib.KeyMap

/-! # Scaling algorithms

`algorithm/apa.go`, `algorithm/kpa.go`, and from a sample to a decision in `autoscaler.go` and `computeScaleDecision`,
for one metric source and without cooldown windows. -/

namespace Aibrix.PodAutoscaler

inductive Strategy
  | apa
  | kpa
deriving DecidableEq

structure ScalingContext where
  targetValue : Option ℚ
  maxScaleUpRate : ℚ
  maxScaleDownRate : ℚ
  upFluctuationTolerance : ℚ
  downFluctuationTolerance : ℚ
  panicThreshold : ℚ
  minReplicas : Nat
  maxReplicas : Nat
  perPod : Bool

def minCount (a b : Int) : Int := if b < a then b else a

def maxCount (a b : Int) : Int := if a < b then b else a

section

variable (ctx : ScalingContext)

def applyConstraints (replicas : Int) : Int :=
  if replicas < ctx.minReplicas then ctx.minReplicas
  else if replicas > ctx.maxReplicas then ctx.maxReplicas
  else replicas

structure Recommendation where
  desiredReplicas : Int
  currentValue : ℚ
deriving DecidableEq

def computeTargetReplicas (currentPodCount : Int) (value : ℚ) : Int :=
  match ctx.targetValue with
  | none => currentPodCount
  | some expectedUse =>
    if expectedUse ≤ 0 then currentPodCount
    else if !ctx.perPod && decide (currentPodCount = 0) && decide (0 < value) then
      -- activation from zero
      minCount (value / expectedUse).ceil (maxCount 1 (ctx.maxScaleUpRate * currentPodCount).ceil)
    else
      let desiredPodCount := if ctx.perPod then currentPodCount * (value / expectedUse) else value / expectedUse
      let currentUsePerPod := if !ctx.perPod && decide (0 < currentPodCount) then value / currentPodCount else value
      if currentUsePerPod / expectedUse > 1 + ctx.upFluctuationTolerance then
        minCount desiredPodCount.ceil (ctx.maxScaleUpRate * currentPodCount).ceil
      else if currentUsePerPod / expectedUse < 1 - ctx.downFluctuationTolerance then
        maxCount desiredPodCount.ceil (currentPodCount / ctx.maxScaleDownRate).floor
      else currentPodCount

/-! ## KPA -/

def podCountEpsilon : ℚ := 1 / 10 ^ 9

def ceilPodCount (pods : ℚ) : Int := (pods - podCountEpsilon).ceil

/-- The base context has no other activation scale. -/
def activationScale : Int := 1

structure PodCounts where
  stable : Int
  panic : Int
  overPanicThreshold : Bool
deriving DecidableEq

def outsideTolerance (targetValue : ℚ) (currentPodCount : Int) (observed : ℚ) : Bool :=
  if !ctx.perPod && decide (currentPodCount = 0) && decide (0 < observed) then true
  else
    let v := observed / if ctx.perPod then 1 else maxCount 1 currentPodCount
    decide (v > targetValue * (1 + ctx.upFluctuationTolerance)) ||
      decide (v < targetValue * (1 - ctx.downFluctuationTolerance))

/-- What a window asks for, `dspc` and `dppc`. -/
def windowPodCount (targetValue : ℚ) (currentPodCount : Int) (load observed : ℚ) : Int :=
  if outsideTolerance ctx targetValue currentPodCount observed then ceilPodCount (load * observed / targetValue)
  else currentPodCount

def limitRate (currentPodCount desired : Int) : Int :=
  let readyPodsCount := maxCount 0 currentPodCount
  minCount (maxCount desired (readyPodsCount / ctx.maxScaleDownRate).floor)
    (maxCount 1 (ctx.maxScaleUpRate * readyPodsCount).ceil)

def activate (desired : Int) : Int :=
  if activationScale > 1 ∧ activationScale > desired ∧ desired > 0 then activationScale else desired

def desiredPodCounts (currentPodCount : Int) (loadPodCount stableValue panicValue : ℚ) : Option PodCounts :=
  ctx.targetValue.map fun targetValue =>
    let load := if ctx.perPod then (if loadPodCount < 1 then 1 else loadPodCount) else 1
    let dspc := windowPodCount ctx targetValue currentPodCount load stableValue
    let dppc := windowPodCount ctx targetValue currentPodCount load panicValue
    { stable := activate (limitRate ctx currentPodCount dspc)
      panic := activate (limitRate ctx currentPodCount dppc)
      overPanicThreshold := decide (dppc / maxCount 1 (maxCount 0 currentPodCount) ≥ ctx.panicThreshold) }

/-- A time of the clock. The zero `time.Time` is no such time: `PanicTime` holds it while there is no panic. -/
structure Time where
  nanos : Int
  nonzero : nanos ≠ 0
deriving DecidableEq

structure PanicState where
  /-- The zero time is `none`. -/
  panicTime : Option Time
  maxPanicPods : Int
deriving DecidableEq

def PanicState.zero : PanicState := ⟨none, 0⟩

/-- The first part of `apply`: a panic starts, goes on or ends. -/
def PanicState.advance (s : PanicState) (now : Time) (stableWindow : Int) (overPanicThreshold : Bool) : PanicState :=
  if overPanicThreshold then { s with panicTime := some now }
  else
    match s.panicTime with
    | none => s
    | some panicTime => if panicTime.nanos + stableWindow < now.nanos then .zero else s

def PanicState.apply (s : PanicState) (now : Time) (stableWindow : Int) (counts : PodCounts) :
    PanicState × Int × Bool :=
  let s := s.advance now stableWindow counts.overPanicThreshold
  match s.panicTime with
  | none => (s, counts.stable, false)
  | some _ =>
    let maxPanicPods := maxCount s.maxPanicPods (maxCount counts.stable counts.panic)
    ({ s with maxPanicPods }, maxPanicPods, true)

/-! ## From a sample to a recommendation -/

structure Request where
  currentReplicas : Int
  readyReplicas : Int
  pendingReplicas : Int
  values : List ℚ
  now : Time
  stableWindow : Int

structure Windows where
  stable : List ℚ
  panic : List ℚ

def mean (values : List ℚ) : ℚ :=
  if values.isEmpty then 0 else values.foldl (· + ·) 0 / values.length

def podsCarryingLoad (reported : Nat) (ready : Int) : Int := maxCount 1 (maxCount reported ready)

variable (request : Request)

def Request.loadPods : Int := podsCarryingLoad request.values.length request.readyReplicas

/-- What `ProcessSnapshot` adds to a window: the total load of a source that reports per pod. -/
def record (window : List ℚ) : List ℚ :=
  if request.values.isEmpty then window
  else window ++ [if ctx.perPod then mean request.values * request.loadPods else mean request.values]

/-- The value of a window; that of an empty one is 0. -/
def aggregate (window : List ℚ) : ℚ :=
  let window := record ctx request window
  if ctx.perPod then mean window / request.loadPods else mean window

def recommendAPA (stableValue : ℚ) : Recommendation :=
  ⟨applyConstraints ctx (computeTargetReplicas ctx request.currentReplicas stableValue), stableValue⟩

def recommendKPA (state : PanicState) (request : Request) (stableValue panicValue : ℚ) :
    Option (PanicState × Recommendation) :=
  let loadPods := if request.loadPods ≤ 0 then request.currentReplicas else request.loadPods
  (desiredPodCounts ctx request.currentReplicas loadPods stableValue panicValue).map fun counts =>
    let (state, desiredReplicas, inPanic) := state.apply request.now request.stableWindow counts
    (state, ⟨applyConstraints ctx desiredReplicas, if inPanic then panicValue else stableValue⟩)

end

section

variable (strategy : Strategy) (ctx : ScalingContext)

def executeScalingPipeline (windows : Windows) (state : PanicState)
    (request : Request) : Option (PanicState × Recommendation) :=
  let stableValue := aggregate ctx request windows.stable
  let panicValue := aggregate ctx request windows.panic
  match strategy with
  | .apa => some (state, recommendAPA ctx request stableValue)
  | .kpa => recommendKPA ctx state request stableValue panicValue

def computePendingAdjustedReplicas (request : Request)
    (result : Recommendation) (adjustedMetricValue targetValue : ℚ) (readyReplicas pendingReplicas : Int) : Int :=
  match strategy with
  | .apa => (request.currentReplicas * adjustedMetricValue / targetValue).ceil
  | .kpa =>
    if result.desiredReplicas < request.currentReplicas then
      ((result.currentValue * readyReplicas + targetValue * pendingReplicas) / targetValue).ceil
    else if ctx.perPod then (request.currentReplicas * adjustedMetricValue / targetValue).ceil
    else (adjustedMetricValue / targetValue).ceil

def applyPendingReplicaGuard (request : Request) (result : Recommendation) : Int :=
  let desired := result.desiredReplicas
  let current := request.currentReplicas
  match ctx.targetValue with
  | none => desired
  | some targetValue =>
    let ready := minCount (maxCount 0 request.readyReplicas) current
    let pending := current - ready
    if !ctx.perPod || decide (request.pendingReplicas ≤ 0) || decide (desired = current) || decide (current ≤ 0) ||
        decide (targetValue ≤ 0) || decide (pending ≤ 0) then desired
    else if desired > current then
      let adjusted := result.currentValue * ready / current
      let replicas := computePendingAdjustedReplicas strategy ctx request result adjusted targetValue ready pending
      minCount (maxCount replicas current) desired
    else
      let adjusted := (result.currentValue * ready + targetValue * pending) / current
      let replicas := computePendingAdjustedReplicas strategy ctx request result adjusted targetValue ready pending
      maxCount (minCount replicas current) desired

/-- The panic state and the count after a pass. Where the source returns an error, the count is kept. -/
def computeScaleDecision (windows : Windows) (state : PanicState) (request : Request) : PanicState × Int :=
  if request.currentReplicas = 0 ∧ ctx.minReplicas ≠ 0 then (state, 0)
  else
    match executeScalingPipeline strategy ctx windows state request with
    | none =>
      (state,
        if request.currentReplicas > ctx.maxReplicas then ctx.maxReplicas
        else if request.currentReplicas < ctx.minReplicas then ctx.minReplicas
        else request.currentReplicas)
    | some (state, result) =>
      let desiredReplicas := applyPendingReplicaGuard strategy ctx request result
      (state,
        if desiredReplicas > ctx.maxReplicas then ctx.maxReplicas
        else if desiredReplicas < ctx.minReplicas then ctx.minReplicas
        else desiredReplicas)

end

/-! ## Panics over whole histories -/

theorem limitRate_nonneg {ctx : ScalingContext} (h : 0 ≤ ctx.maxScaleDownRate) (currentPodCount desired : Int) :
    0 ≤ limitRate ctx currentPodCount desired := by
  have hready : 0 ≤ maxCount 0 currentPodCount := by
    unfold maxCount
    omega
  have hdown : 0 ≤ ((maxCount 0 currentPodCount : ℚ) / ctx.maxScaleDownRate).floor :=
    Rat.le_floor_iff.2 (div_nonneg (by exact_mod_cast hready) h)
  unfold limitRate
  simp only [minCount, maxCount] at hdown ⊢
  omega

theorem desiredPodCounts_nonneg {ctx : ScalingContext} {currentPodCount : Int}
    {loadPodCount stableValue panicValue : ℚ} {counts : PodCounts} (h : 0 ≤ ctx.maxScaleDownRate)
    (hsome : desiredPodCounts ctx currentPodCount loadPodCount stableValue panicValue = some counts) :
    0 ≤ counts.stable ∧ 0 ≤ counts.panic := by
  obtain ⟨target, -, rfl⟩ := Option.map_eq_some_iff.1 hsome
  exact ⟨limitRate_nonneg h _ _, limitRate_nonneg h _ _⟩

/-- One call of `apply`. A history has the newest call first. -/
structure PanicCall where
  now : Time
  counts : PodCounts

def PanicCall.asked (call : PanicCall) : Int := max call.counts.stable call.counts.panic

variable (window : Int)

def PanicState.after : List PanicCall → PanicState
  | [] => .zero
  | call :: earlier => ((after earlier).apply call.now window call.counts).1

def overWithin (history : List PanicCall) (now : Int) : Bool :=
  history.any fun past => past.counts.overPanicThreshold && decide (now ≤ past.now.nanos + window)

def panicking (call : PanicCall) (earlier : List PanicCall) : Bool :=
  call.counts.overPanicThreshold || overWithin window earlier call.now.nanos

/-- The calls of the panic that the newest call is part of. -/
def currentPanic : List PanicCall → List PanicCall
  | [] => []
  | call :: earlier => if panicking window call earlier then call :: currentPanic earlier else []

/-- `MaxPanicPods` starts from 0. -/
def panicPeak (history : List PanicCall) : Int := ((currentPanic window history).map PanicCall.asked).foldr max 0

structure Tracks (history : List PanicCall) (s : PanicState) : Prop where
  peak : s.maxPanicPods = panicPeak window history
  idle : s.panicTime = none → s.maxPanicPods = 0
  within : ∀ now, (∀ past ∈ history, past.now.nanos ≤ now) →
    overWithin window history now = s.panicTime.any fun t => decide (now ≤ t.nanos + window)

variable {window} {call : PanicCall} {earlier : List PanicCall} {s : PanicState}

theorem panicPeak_cons :
    panicPeak window (call :: earlier) = if panicking window call earlier then max call.asked (panicPeak window earlier) else 0 := by
  unfold panicPeak
  rw [currentPanic]
  split <;> rfl

theorem Tracks.next (h : Tracks window earlier s) (hle : ∀ past ∈ earlier, past.now.nanos ≤ call.now.nanos) :
    let r := s.apply call.now window call.counts
    Tracks window (call :: earlier) r.1 ∧ r.2.2 = panicking window call earlier ∧
      r.2.1 = if r.2.2 then panicPeak window (call :: earlier) else call.counts.stable := by
  obtain ⟨hpeak, hidle, hwithin⟩ := h
  have hcall := hwithin _ hle
  have hmax (a b : Int) : maxCount a b = max b a := by
    unfold maxCount
    omega
  obtain ⟨time, pods⟩ := s
  obtain ⟨start, stable, panic, high⟩ := call
  dsimp only at hpeak hidle hwithin hle hcall
  have hasked : max panic stable = max stable panic := max_comm _ _
  simp only [PanicState.apply, PanicState.advance]
  cases high with
  | true =>
    refine ⟨⟨by simp [panicPeak_cons, panicking, PanicCall.asked, hmax, hpeak, hasked], nofun, fun now h => ?_⟩,
      by simp [panicPeak_cons, panicking, PanicCall.asked, hmax, hpeak, hasked]⟩
    change (decide (now ≤ start.nanos + window) || overWithin window earlier now) = decide (now ≤ start.nanos + window)
    rw [Bool.or_eq_left_iff_imp, overWithin, List.any_eq_true]
    rintro ⟨past, hmem, hyoung⟩
    have hpast := hle past hmem
    simp only [Bool.and_eq_true, decide_eq_true_eq] at hyoung ⊢
    omega
  | false =>
    have hold (now : Int) (h : ∀ past ∈ (⟨start, stable, panic, false⟩ : PanicCall) :: earlier, past.now.nanos ≤ now) :=
      hwithin now (List.forall_mem_cons.1 h).2
    cases time with
    | none => exact ⟨⟨by simp [panicPeak_cons, panicking, hcall, hidle], hidle, hold⟩, by simp [panicking, hcall]⟩
    | some t =>
      by_cases hended : t.nanos + window < start.nanos
      · have hnot : ¬ start.nanos ≤ t.nanos + window := not_le.2 hended
        simp only [hended, if_true, PanicState.zero]
        refine ⟨⟨by simp [panicPeak_cons, panicking, hcall, hnot], fun _ => rfl, fun now h => (hold now h).trans ?_⟩, ?_⟩
        · have hstart := (List.forall_mem_cons.1 h).1
          simpa using hended.trans_le hstart
        · simp [panicking, hcall, hnot]
      · have hyoung : start.nanos ≤ t.nanos + window := not_lt.1 hended
        simp only [hended, if_false]
        exact ⟨⟨by simp [panicPeak_cons, panicking, PanicCall.asked, hcall, hyoung, hmax, hpeak, hasked], nofun, hold⟩,
          by simp [panicPeak_cons, panicking, PanicCall.asked, hcall, hyoung, hmax, hpeak, hasked]⟩

theorem tracks_after (window : Int) {history : List PanicCall}
    (h : history.Pairwise fun call past => past.now.nanos ≤ call.now.nanos) :
    Tracks window history (.after window history) := by
  induction history with
  | nil => exact ⟨rfl, fun _ => rfl, fun now _ => rfl⟩
  | cons call earlier ih =>
    obtain ⟨hle, hrest⟩ := List.pairwise_cons.1 h
    exact ((ih hrest).next hle).1

theorem currentPanic_subset (history : List PanicCall) : currentPanic window history ⊆ history := by
  induction history with
  | nil => exact List.Subset.refl _
  | cons call earlier ih =>
    rw [currentPanic]
    split
    · exact List.cons_subset_cons _ ih
    · exact List.nil_subset _

theorem le_foldr_max {values : List Int} {value : Int} (h : value ∈ values) : value ≤ values.foldr max 0 := by
  induction values with
  | nil => cases h
  | cons head rest ih =>
    rcases List.mem_cons.1 h with rfl | hrest
    · exact le_max_left _ _
    · exact (ih hrest).trans (le_max_right _ _)

theorem foldr_max_mem {values : List Int} (hnonneg : ∀ value ∈ values, 0 ≤ value) (hne : values ≠ []) :
    values.foldr max 0 ∈ values := by
  induction values with
  | nil => exact absurd rfl hne
  | cons head rest ih =>
    rcases eq_or_ne rest [] with rfl | hrest
    · simp [hnonneg head]
    · rw [List.foldr_cons, List.mem_cons]
      rcases max_choice head (rest.foldr max 0) with h | h <;> rw [h]
      · exact .inl rfl
      · exact .inr (ih (fun value hmem => hnonneg value (List.mem_cons_of_mem _ hmem)) hrest)

/-- The answer to each call of a history, by the history: `desiredPodCounts` asks for no negative count. -/
theorem panic_by_history (window : Int) (call : PanicCall) (earlier : List PanicCall)
    (htimes : (call :: earlier).Pairwise fun call past => past.now.nanos ≤ call.now.nanos)
    (hcounts : ∀ past ∈ call :: earlier, 0 ≤ past.counts.stable ∧ 0 ≤ past.counts.panic) :
    let before := PanicState.after window earlier
    let (after, count, inPanic) := before.apply call.now window call.counts
    inPanic = panicking window call earlier ∧
    (inPanic = true →
      (∃ past ∈ currentPanic window (call :: earlier), past.asked = count) ∧
        (∀ past ∈ currentPanic window (call :: earlier), past.asked ≤ count) ∧
        before.maxPanicPods ≤ count ∧ after.maxPanicPods = count) ∧
    (inPanic = false → count = call.counts.stable ∧ after.maxPanicPods = 0) := by
  obtain ⟨hle, hrest⟩ := List.pairwise_cons.1 htimes
  have hbefore := tracks_after window hrest
  obtain ⟨hafter, hpanicking, hcount⟩ := hbefore.next hle
  have hpeak := hafter.peak
  dsimp only at hpanicking hcount ⊢
  refine ⟨hpanicking, fun hin => ?_, fun hout => ⟨?_, ?_⟩⟩
  · have hin' : panicking window call earlier = true := hpanicking ▸ hin
    rw [if_pos hin] at hcount
    have hasked : ∀ n ∈ (currentPanic window (call :: earlier)).map PanicCall.asked, 0 ≤ n := by
      intro n hmem
      obtain ⟨past, hpast, rfl⟩ := List.mem_map.1 hmem
      exact le_max_of_le_left (hcounts past (currentPanic_subset _ hpast)).1
    rw [hcount, hpeak, hbefore.peak]
    refine ⟨?_, ?_, ?_, rfl⟩
    · refine List.mem_map.1 (foldr_max_mem hasked ?_)
      rw [currentPanic, if_pos hin']
      exact List.cons_ne_nil _ _
    · intro past hpast
      exact le_foldr_max (List.mem_map_of_mem hpast)
    · rw [panicPeak_cons, if_pos hin']
      exact le_max_right _ _
  · simpa [hout] using hcount
  · rw [hpeak, panicPeak_cons, ← hpanicking, hout, if_neg Bool.false_ne_true]

theorem panic_by_history_twice :
    ((PanicState.after 60 [⟨⟨1, by decide⟩, 2, 5, true⟩]).apply ⟨31, by decide⟩ 60 ⟨1, 3, false⟩).2.2 =
      panicking 60 ⟨⟨31, by decide⟩, 1, 3, false⟩ [⟨⟨1, by decide⟩, 2, 5, true⟩] :=
  (panic_by_history 60 ⟨⟨31, by decide⟩, 1, 3, false⟩ [⟨⟨1, by decide⟩, 2, 5, true⟩] (by simp) (by simp)).1

/-! ## Windows over scaling passes

`TimeWindow` of `types/metrics.go`, with what `executeScalingPipeline` records in one and reads from it. -/

open Lib KeyMap List

/-- In nanoseconds, as all times. -/
def granularity : Int := 10 ^ 9

def bucket (time : Int) : Int := time.tdiv granularity

/-- The buckets, with the value of each. -/
abbrev TimeWindow := KeyMap Int ℚ

namespace TimeWindow

variable (ctx : ScalingContext) (duration : Int)

/-- Old buckets are removed nowhere else. -/
def record (w : TimeWindow) (timestamp : Int) (value : ℚ) : TimeWindow :=
  let cutoff := bucket (timestamp - duration)
  filterMap (fun b v => if b < cutoff then none else some v) (w.insert (bucket timestamp) value)

def avg (w : TimeWindow) : ℚ := mean ((w.entries.mergeSort fun e e' => e.1 ≤ e'.1).map (·.2))

def total (request : Request) : ℚ :=
  if ctx.perPod then mean request.values * request.loadPods else mean request.values

/-- The window after the passes, newest first. -/
def after : List Request → TimeWindow
  | [] => ∅
  | request :: passes =>
    if request.values.isEmpty then after passes else record duration (after passes) request.now.nanos (total ctx request)

/-- The value that the algorithm is given in a pass. -/
def value (request : Request) (passes : List Request) : ℚ :=
  let stable := avg (after ctx duration (request :: passes))
  if ctx.perPod then stable / request.loadPods else stable

/-- The last total recorded in a bucket. -/
def lastIn (b : Int) : List Request → Option ℚ
  | [] => none
  | request :: passes =>
    if ¬ request.values.isEmpty ∧ bucket request.now.nanos = b then some (total ctx request) else lastIn b passes

variable {ctx duration} {passes : List Request}

theorem lookup_record (w : TimeWindow) (timestamp : Int) (value : ℚ) (b : Int) :
    (record duration w timestamp value).lookup b = if b < bucket (timestamp - duration) then none
      else if b = bucket timestamp then some value else w.lookup b := by
  simp only [record, lookup_filterMap, lookup_insert_eq]
  split_ifs <;> simp [*]

/-- The buckets of the window at a later time are kept. -/
theorem lookup_after (ho : passes.Pairwise fun r r' => r'.now.nanos ≤ r.now.nanos) {now b : Int}
    (hn : ∀ r ∈ passes, r.now.nanos ≤ now) (hb : bucket (now - duration) ≤ b) :
    (after ctx duration passes).lookup b = lastIn ctx b passes := by
  induction passes with
  | nil => rfl
  | cons r passes ih =>
    have hct : bucket (r.now.nanos - duration) ≤ b :=
      (Int.tdiv_le_tdiv (by decide) (Int.sub_le_sub_right (hn r mem_cons_self) _)).trans hb
    have hih := ih ho.of_cons fun r hr => hn r (mem_cons_of_mem _ hr)
    unfold after lastIn
    by_cases he : r.values.isEmpty
    · simp [he, hih]
    · simp [he, hih, lookup_record, hct.not_gt, eq_comm]

theorem mean_perm {l l' : List ℚ} (h : l.Perm l') : mean l = mean l' := by
  unfold mean
  rw [h.foldl_eq 0, h.length_eq, h.isEmpty_eq]

/-- What a pass reads from its window is the aggregate over the totals that earlier passes left there. -/
theorem value_eq_aggregate (hd : 0 ≤ duration) (request : Request) (passes : List Request) :
    ∃ window : List ℚ, (∀ v ∈ window, ∃ b, (after ctx duration passes).lookup b = some v) ∧
      value ctx duration request passes = aggregate ctx request window := by
  by_cases he : request.values.isEmpty
  · refine ⟨((after ctx duration passes).entries.mergeSort fun e e' => e.1 ≤ e'.1).map (·.2), fun v hv => ?_, ?_⟩
    · obtain ⟨e, hmem, rfl⟩ := mem_map.1 hv
      exact ⟨e.1, AList.mem_lookup_iff.2 ((mergeSort_perm _ _).mem_iff.1 hmem)⟩
    · simp [value, aggregate, PodAutoscaler.record, after, he, avg]
  set w := record duration (after ctx duration passes) request.now.nanos (total ctx request) with hw
  set own : (_ : Int) × ℚ := ⟨bucket request.now.nanos, total ctx request⟩
  have hnow : ¬ bucket request.now.nanos < bucket (request.now.nanos - duration) :=
    (Int.tdiv_le_tdiv (by decide) (Int.sub_le_self _ hd)).not_gt
  have hown : own ∈ w.entries := by
    rw [← AList.mem_lookup_iff, hw, lookup_record, if_neg hnow, if_pos rfl]
    rfl
  refine ⟨(w.entries.erase own).map (·.2), fun v hv => ?_, ?_⟩
  · -- Any other bucket was there before the pass.
    obtain ⟨e, hmem, rfl⟩ := mem_map.1 hv
    obtain ⟨hne, hmem⟩ := w.nodupKeys.nodup.mem_erase_iff.1 hmem
    have hother : e.1 ≠ bucket request.now.nanos := fun heq => hne (w.nodupKeys.eq_of_fst_eq hmem hown heq)
    have hlook : w.lookup e.1 = some e.2 := AList.mem_lookup_iff.2 hmem
    rw [hw, lookup_record, if_neg hother] at hlook
    split_ifs at hlook
    exact ⟨e.1, hlook⟩
  · have hperm : ((w.entries.mergeSort fun e e' => e.1 ≤ e'.1).map (·.2)).Perm
        ((w.entries.erase own).map (·.2) ++ [total ctx request]) := by
      refine (((mergeSort_perm _ _).trans (perm_cons_erase hown)).map _).trans ?_
      exact (perm_append_singleton _ _).symm
    have hafter : after ctx duration (request :: passes) = w := by simp [after, he, hw]
    unfold value aggregate
    rw [hafter, avg, mean_perm hperm]
    simp [PodAutoscaler.record, he, total]

/-- The value is the average of the last totals in the buckets of the window, if the pass collected a value. -/
theorem window_average {request : Request} (ho : (request :: passes).Pairwise fun r r' => r'.now.nanos ≤ r.now.nanos)
    (hr : request.values ≠ []) :
    ∃ entries : List (Int × ℚ), (entries.map (·.1)).Nodup ∧
      (∀ b v, (b, v) ∈ entries ↔
        bucket (request.now.nanos - duration) ≤ b ∧ lastIn ctx b (request :: passes) = some v) ∧
      value ctx duration request passes =
        mean (entries.map (·.2)) / if ctx.perPod then (request.loadPods : ℚ) else 1 := by
  set w := after ctx duration (request :: passes) with hw
  refine ⟨(w.entries.mergeSort fun e e' => e.1 ≤ e'.1).map fun e => (e.1, e.2), ?_, fun b v => ?_, ?_⟩
  · rw [map_map]
    exact ((mergeSort_perm _ _).map _).nodup_iff.2 w.nodupKeys
  · have hm : (b, v) ∈ (w.entries.mergeSort fun e e' => e.1 ≤ e'.1).map (fun e => (e.1, e.2)) ↔ w.lookup b = some v := by
      simp [AList.mem_lookup_iff, ← Option.mem_def]
    rw [hm]
    by_cases hb : bucket (request.now.nanos - duration) ≤ b
    · rw [hw, lookup_after ho (by simpa using (pairwise_cons.1 ho).1) hb]
      simp [hb]
    · simp [hw, after, hr, lookup_record, hb, not_le.1 hb]
  · simp [value, avg, ← hw]
    split_ifs <;> simp [Function.comp_def]

def sampleContext : ScalingContext := ⟨some 1, 2, 2, 0, 0, 2, 0, 100, true⟩

/-- A pass a nanosecond after a time in seconds. -/
def sample (seconds : Int) (values : List ℚ) : Request :=
  ⟨1, 1, 0, values, ⟨seconds * granularity + 1, by unfold granularity; omega⟩, 180 * granularity⟩

theorem window_average_sample : ∃ entries : List (Int × ℚ), (∀ b v, (b, v) ∈ entries → 820 ≤ b) ∧
    value sampleContext (180 * granularity) (sample 1000 [4]) [sample 0 [2]] = mean (entries.map (·.2)) / 1 := by
  obtain ⟨entries, -, hm, hv⟩ :=
    @window_average sampleContext (180 * granularity) [sample 0 [2]] (sample 1000 [4]) (by decide) (by decide)
  exact ⟨entries, fun b v h => ((hm b v).1 h).1, hv⟩

/-- Passes that collect no value go on with the load of the last one that did. -/
theorem old_load_stays :
    value sampleContext (180 * granularity) (sample 1000 []) [sample 0 [2]] = 2 ∧
      lastIn sampleContext 0 [sample 1000 [], sample 0 [2]] = some 2 ∧ bucket ((1000 - 180) * granularity) = 820 := by
  decide +kernel

end TimeWindow

end Aibrix.PodAutoscaler
