import Aibrix.Lib.Approach
import Aibrix.PodAutoscaler.Algorithm
import Mathlib.Tactic.FieldSimp
import Mathlib.Tactic.Linarith
import Mathlib.Tactic.Ring

/-! # Constant load

A total load that does not change is spread evenly over the ready pods. -/

namespace Aibrix.PodAutoscaler

open Lib List Option ScalingContext PanicState Rat

structure Sane (ctx : ScalingContext) (t : ℚ) : Prop where
  target : ctx.targetValue = some t
  target_pos : 0 < t
  perPod : ctx.perPod = true
  up_nonneg : 0 ≤ ctx.upFluctuationTolerance
  up_lt_one : ctx.upFluctuationTolerance < 1
  down_nonneg : 0 ≤ ctx.downFluctuationTolerance
  down_lt_one : ctx.downFluctuationTolerance < 1
  upRate : 1 < ctx.maxScaleUpRate
  downRate : 1 < ctx.maxScaleDownRate
  bounds : ctx.minReplicas ≤ ctx.maxReplicas

def podsNeeded (strategy : Strategy) (t load : ℚ) : Int :=
  match strategy with
  | .apa => (load / t).ceil
  | .kpa => ceilPodCount (load / t)

def InBand (ctx : ScalingContext) (t perPodLoad : ℚ) : Prop :=
  t * (1 - ctx.downFluctuationTolerance) ≤ perPodLoad ∧ perPodLoad ≤ t * (1 + ctx.upFluctuationTolerance)

instance (ctx : ScalingContext) (t perPodLoad : ℚ) : Decidable (InBand ctx t perPodLoad) :=
  inferInstanceAs (Decidable (_ ∧ _))

def ScalingContext.clamp (ctx : ScalingContext) (count : Int) : Int := Lib.clamp ctx.minReplicas ctx.maxReplicas count

def evenRequest (load : ℚ) (count : Int) (ready : Nat) (now : Time) (stableWindow : Int) : Request where
  currentReplicas := count
  readyReplicas := ready
  pendingReplicas := count - ready
  values := List.replicate ready (load / ready)
  now := now
  stableWindow := stableWindow

def Windows.Constant (windows : Windows) (load : ℚ) : Prop :=
  (∀ x ∈ windows.stable, x = load) ∧ ∀ x ∈ windows.panic, x = load

variable {ctx : ScalingContext} {t load : ℚ}

/-! ## Rates and bounds -/

theorem bounds_eq (hctx : Sane ctx t) (count : Int) : (if count > ctx.maxReplicas then (ctx.maxReplicas : Int)
      else if count < ctx.minReplicas then ctx.minReplicas else count) = ctx.clamp count := by
  have hle := hctx.bounds
  unfold ScalingContext.clamp Lib.clamp
  omega

theorem Sane.bounds_int (hctx : Sane ctx t) : (ctx.minReplicas : Int) ≤ ctx.maxReplicas := Int.ofNat_le.2 hctx.bounds

theorem Sane.clamp_idem (hctx : Sane ctx t) (count : Int) : ctx.clamp (ctx.clamp count) = ctx.clamp count :=
  clamp_clamp hctx.bounds_int count

theorem clamp_nonneg (count : Int) : 0 ≤ ctx.clamp count := by
  unfold ScalingContext.clamp Lib.clamp
  omega

theorem lt_ceil_rate {rate : ℚ} {count : Int} (hrt : 1 < rate) (hcn : 1 ≤ count) : count < (rate * count).ceil := by
  have hcn' : (1 : ℚ) ≤ count := by exact_mod_cast hcn
  rw [lt_ceil_iff]
  nlinarith

theorem floor_rate_lt {rate : ℚ} {count : Int} (hrt : 1 < rate) (hcn : 1 ≤ count) : (count / rate).floor < count := by
  have hcn' : (1 : ℚ) ≤ count := by exact_mod_cast hcn
  rw [floor_lt_iff, div_lt_iff₀ (by linarith)]
  nlinarith

theorem foldl_add_constant {xs : List ℚ} (h : ∀ x ∈ xs, x = load) (acc : ℚ) :
    xs.foldl (· + ·) acc = acc + xs.length * load := by
  induction xs generalizing acc with
  | nil => simp
  | cons x xs ih =>
    rw [forall_mem_cons] at h
    rw [foldl_cons, ih h.2, h.1, length_cons]
    push_cast
    ring

theorem mean_constant {xs : List ℚ} (hne : xs ≠ []) (h : ∀ x ∈ xs, x = load) : mean xs = load := by
  have hlen : (xs.length : ℚ) ≠ 0 := by exact_mod_cast (length_pos_of_ne_nil hne).ne'
  unfold mean
  rw [if_neg (by simpa using hne), foldl_add_constant h]
  field_simp
  ring

theorem evenRequest_loadPods (count : Int) (ready : Nat) (now : Time) (window : Int) :
    (evenRequest load count ready now window).loadPods = maxCount 1 ready := by
  unfold Request.loadPods podsCarryingLoad evenRequest maxCount
  simp

section

variable (hctx : Sane ctx t)
include hctx

section

variable {count : Int} {now : Time} {stableWindow goal limit ready window asked next : Int}

theorem aggregate_even {ready : Nat} {window : List ℚ}
    (hwn : ∀ x ∈ window, x = load) (hrd : 0 < ready) :
    aggregate ctx (evenRequest load count ready now stableWindow) window = load / maxCount 1 ready := by
  have hvl : (evenRequest load count ready now stableWindow).values.isEmpty = false := by simp [evenRequest, hrd.ne']
  have hrc : ∀ x ∈ record ctx (evenRequest load count ready now stableWindow) window, x = load := by
    rw [record, hvl, if_neg Bool.false_ne_true, forall_mem_append, forall_mem_singleton]
    refine ⟨hwn, ?_⟩
    have hmn : mean (evenRequest load count ready now stableWindow).values = load / ready := by
      apply mean_constant
      · simpa [evenRequest] using hrd.ne'
      · intro x hx
        exact eq_of_mem_replicate hx
    rw [if_pos hctx.perPod, hmn, evenRequest_loadPods]
    have : maxCount 1 ready = ready := by
      unfold maxCount
      omega
    rw [this]
    push_cast
    field_simp
  have hsm : record ctx (evenRequest load count ready now stableWindow) window ≠ [] := by
    simp [record, hvl]
  unfold aggregate
  rw [if_pos hctx.perPod, mean_constant hsm hrc, evenRequest_loadPods]

/-- Without pods the windows are not extended, and one that is empty has no load. -/
theorem aggregate_idle {window : List ℚ}
    (hwn : ∀ x ∈ window, x = load) :
    ∃ l, (l = 0 ∨ l = load) ∧ aggregate ctx (evenRequest load count 0 now stableWindow) window = l / maxCount 1 0 := by
  refine ⟨mean window, ?_, if_pos hctx.perPod⟩
  by_cases hem : window = []
  · exact .inl (hem ▸ rfl)
  · exact .inr (mean_constant hem hwn)

/-! ## What the algorithms ask for -/

theorem apa_eq (count : Int) (value : ℚ) : computeTargetReplicas ctx count value =
      if value / t > 1 + ctx.upFluctuationTolerance then
        minCount (count * (value / t)).ceil (ctx.maxScaleUpRate * count).ceil
      else if value / t < 1 - ctx.downFluctuationTolerance then
        maxCount (count * (value / t)).ceil (count / ctx.maxScaleDownRate).floor else count := by
  unfold computeTargetReplicas
  rw [hctx.target]
  simp [hctx.perPod, not_le.2 hctx.target_pos]

theorem apa_needed_le {ready : Nat} (hrd : 0 < ready)
    (hle : (ready : Int) ≤ count) (hls : computeTargetReplicas ctx count (load / ready) < count) :
    podsNeeded .apa t load ≤ ready := by
  have hrd' : (0 : ℚ) < ready := by exact_mod_cast hrd
  have hcn : 1 ≤ count := by omega
  rw [apa_eq hctx] at hls
  split_ifs at hls with hup hdw
  · -- above the band the count grows
    have hrt := lt_ceil_rate hctx.upRate hcn
    have hcl : count < (count * (load / ready / t)).ceil := by
      have hcn' : (1 : ℚ) ≤ count := by exact_mod_cast hcn
      rw [lt_ceil_iff]
      nlinarith [hctx.up_nonneg]
    unfold minCount at hls
    omega
  · have hlt : load / ready / t < 1 := by linarith [hctx.down_nonneg]
    rw [div_lt_iff₀ hctx.target_pos, div_lt_iff₀ hrd'] at hlt
    change (load / t).ceil ≤ ready
    rw [ceil_le_iff, div_le_iff₀ hctx.target_pos]
    push_cast
    linarith
  · omega

omit hctx in
theorem minCount_between (hlm : count < limit) :
    Between count goal (minCount goal limit) ∧ (count ≠ goal → minCount goal limit ≠ count) := by
  unfold Between minCount
  omega

omit hctx in
theorem maxCount_between (hlm : limit < count) :
    Between count goal (maxCount goal limit) ∧ (count ≠ goal → maxCount goal limit ≠ count) := by
  unfold Between maxCount
  omega

theorem apa_step (hcn : 1 ≤ count) :
    Between count (podsNeeded .apa t load) (computeTargetReplicas ctx count (load / count)) ∧
      (¬ InBand ctx t (load / count) → count ≠ podsNeeded .apa t load →
        computeTargetReplicas ctx count (load / count) ≠ count) := by
  have htt : count * (load / count / t) = load / t := by
    field_simp
  rw [apa_eq hctx, htt]
  split_ifs with hup hdw
  · have hst := @minCount_between count (load / t).ceil _ (lt_ceil_rate hctx.upRate hcn)
    exact ⟨hst.1, fun _ => hst.2⟩
  · have hst := @maxCount_between count (load / t).ceil _ (floor_rate_lt hctx.downRate hcn)
    exact ⟨hst.1, fun _ => hst.2⟩
  · refine ⟨.left _ _, fun hbn => absurd ?_ hbn⟩
    rw [not_lt, le_div_iff₀ hctx.target_pos] at hdw
    rw [not_lt, div_le_iff₀ hctx.target_pos] at hup
    constructor <;> linarith

theorem apa_zero (value : ℚ) : computeTargetReplicas ctx 0 value = 0 := by
  have hcl : Rat.ceil 0 = 0 := rfl
  have hfl : Rat.floor 0 = 0 := rfl
  rw [apa_eq hctx]
  simp [minCount, maxCount, hcl, hfl]

/-! ### KPA -/

theorem outsideTolerance_iff (count : Int) (value : ℚ) :
    outsideTolerance ctx t count value = true ↔ ¬ InBand ctx t value := by
  unfold outsideTolerance InBand
  rw [not_and_or, or_comm]
  simp [hctx.perPod]

def windowGoal (ctx : ScalingContext) (t load : ℚ) (count ready : Int) : Int :=
  if InBand ctx t (load / ready) then count else podsNeeded .kpa t load

theorem windowPodCount_even (hrd : 1 ≤ ready) :
    windowPodCount ctx t count ready (load / ready) = windowGoal ctx t load count ready := by
  have htt : ready * (load / ready) / t = load / t := by
    field_simp
  unfold windowPodCount windowGoal
  rw [htt]
  by_cases hbn : InBand ctx t (load / ready)
  · rw [if_pos hbn, if_neg]
    rw [outsideTolerance_iff hctx]
    exact fun h => h hbn
  · rw [if_neg hbn, if_pos]
    · rfl
    · rwa [outsideTolerance_iff hctx]

end

end

theorem activate_eq (desired : Int) : activate desired = desired := by
  unfold activate activationScale
  omega

/-- What is asked for when the windows have the loads `l₁` and `l₂`. -/
def loadCounts (ctx : ScalingContext) (t l₁ l₂ : ℚ) (count ready : Int) : PodCounts where
  stable := limitRate ctx count (windowGoal ctx t l₁ count ready)
  panic := limitRate ctx count (windowGoal ctx t l₂ count ready)
  overPanicThreshold := decide (windowGoal ctx t l₂ count ready / maxCount 1 (maxCount 0 count) ≥ ctx.panicThreshold)

variable {l₁ l₂ : ℚ}

theorem desiredPodCounts_loads (hctx : Sane ctx t) {count ready : Int} (hrd : 1 ≤ ready) :
    desiredPodCounts ctx count ready (l₁ / ready) (l₂ / ready) = some (loadCounts ctx t l₁ l₂ count ready) := by
  have hrd' : ¬ (ready : ℚ) < 1 := not_lt.2 (by exact_mod_cast hrd)
  unfold desiredPodCounts
  rw [hctx.target, map_some]
  simp only [hctx.perPod, if_true, if_neg hrd', windowPodCount_even hctx hrd, activate_eq]
  rfl

theorem limitRate_between (hctx : Sane ctx t) {count : Int} (hcn : 1 ≤ count) (goal : Int) :
    Between count goal (limitRate ctx count goal) ∧ (count ≠ goal → limitRate ctx count goal ≠ count) := by
  have hup := lt_ceil_rate hctx.upRate hcn
  have hdw := floor_rate_lt hctx.downRate hcn
  unfold limitRate
  dsimp only
  unfold Between minCount maxCount
  split_ifs <;> omega

theorem limitRate_zero {goal : Int} (hgl : 0 ≤ goal) : Between 0 goal (limitRate ctx 0 goal) := by
  have hfl : Rat.floor 0 = 0 := rfl
  unfold limitRate Between minCount maxCount
  simp only [lt_irrefl, if_false, Int.cast_zero, zero_div]
  omega

theorem kpa_needed_nonneg (hctx : Sane ctx t) (hld : 0 ≤ load) : 0 ≤ podsNeeded .kpa t load := by
  have hpd : 0 ≤ load / t := div_nonneg hld hctx.target_pos.le
  have : -1 < (load / t - podCountEpsilon).ceil := by
    rw [lt_ceil_iff]
    unfold podCountEpsilon
    linarith
  change 0 ≤ (load / t - podCountEpsilon).ceil
  omega

section pipeline

variable {windows : Windows} {state : PanicState} {count : Int} {ready : Nat} {now : Time} {stableWindow : Int}

theorem maxCount_ready (hrd : 0 < ready) : maxCount 1 ready = ready := by
  unfold maxCount
  omega

variable (hctx : Sane ctx t)
include hctx

theorem pipeline_apa (hwn : windows.Constant load) (hrd : 0 < ready) :
    executeScalingPipeline .apa ctx windows state (evenRequest load count ready now stableWindow) =
      some (state, ⟨ctx.clamp (computeTargetReplicas ctx count (load / maxCount 1 ready)), load / maxCount 1 ready⟩) := by
  rw [← aggregate_even hctx hwn.1 hrd]
  rfl

def evenCounts (ctx : ScalingContext) (t load : ℚ) (count ready : Int) : PodCounts :=
  let goal := windowGoal ctx t load count ready
  ⟨limitRate ctx count goal, limitRate ctx count goal,
    decide (goal / maxCount 1 (maxCount 0 count) ≥ ctx.panicThreshold)⟩

theorem pipeline_loads
    (hst : aggregate ctx (evenRequest load count ready now stableWindow) windows.stable = l₁ / maxCount 1 ready)
    (hpn : aggregate ctx (evenRequest load count ready now stableWindow) windows.panic = l₂ / maxCount 1 ready) :
    let r := state.apply now stableWindow (loadCounts ctx t l₁ l₂ count (maxCount 1 ready))
    executeScalingPipeline .kpa ctx windows state (evenRequest load count ready now stableWindow) =
      some (r.1, ⟨ctx.clamp r.2.1, if r.2.2 then l₂ / maxCount 1 ready else l₁ / maxCount 1 ready⟩) := by
  have hpos : 1 ≤ maxCount 1 ready := by
    unfold maxCount
    omega
  unfold executeScalingPipeline
  rw [hst, hpn]
  unfold recommendKPA
  rw [evenRequest_loadPods, if_neg (by omega)]
  dsimp only
  rw [show (evenRequest load count ready now stableWindow).currentReplicas = count from rfl,
    desiredPodCounts_loads hctx hpos]
  rfl

theorem pipeline_kpa (hwn : windows.Constant load) (hrd : 0 < ready) :
    let r := state.apply now stableWindow (evenCounts ctx t load count (maxCount 1 ready))
    executeScalingPipeline .kpa ctx windows state (evenRequest load count ready now stableWindow) =
      some (r.1, ⟨ctx.clamp r.2.1, load / maxCount 1 ready⟩) := by
  rw [pipeline_loads hctx (aggregate_even hctx hwn.1 hrd) (aggregate_even hctx hwn.2 hrd), ite_self]
  rfl

end pipeline

section guard

variable {request : Request} {result : Recommendation}

theorem guard_of_pending_nonpos (strategy : Strategy) (h : request.pendingReplicas ≤ 0) :
    applyPendingReplicaGuard strategy ctx request result = result.desiredReplicas := by
  unfold applyPendingReplicaGuard
  cases ctx.targetValue with
  | none => rfl
  | some targetValue => simp [h]

theorem guard_between (strategy : Strategy) :
    Between request.currentReplicas result.desiredReplicas (applyPendingReplicaGuard strategy ctx request result) := by
  unfold applyPendingReplicaGuard
  cases ctx.targetValue with
  | none =>
    unfold Between
    dsimp only
    omega
  | some targetValue =>
    unfold Between minCount maxCount
    dsimp only
    omega

theorem guard_apa (hctx : Sane ctx t) {count desired : Int} {ready : Nat} {now : Time} {window : Int} (hrd : 0 < ready)
    (hpn : (ready : Int) < count) (hne : desired ≠ count) :
    applyPendingReplicaGuard .apa ctx (evenRequest load count ready now window) ⟨desired, load / ready⟩ =
      if desired > count then minCount (maxCount (load / t).ceil count) desired
      else maxCount (minCount (load / t + (count - ready)).ceil count) desired := by
  have hcn' : (count : ℚ) ≠ 0 := by exact_mod_cast (by omega : count ≠ 0)
  have htr := hctx.target_pos.ne'
  have hcl : minCount (maxCount 0 (ready : Int)) count = ready := by
    unfold minCount maxCount
    omega
  have hup : count * (load / ready * ready / count) / t = load / t := by
    field_simp
  have hdw : count * ((load / ready * ready + t * (count - ready)) / count) / t = load / t + (count - ready) := by
    field_simp
  unfold applyPendingReplicaGuard
  rw [hctx.target]
  simp only [evenRequest, hcl, computePendingAdjustedReplicas]
  push_cast
  rw [hup, hdw]
  apply if_neg
  simp [hctx.perPod, hne, not_le.2 hctx.target_pos]
  exact ⟨⟨hpn, decide_eq_false (by omega)⟩, hpn⟩

theorem guard_apa_clamped (hctx : Sane ctx t) {count : Int} {ready : Nat} {now : Time} {window : Int} (hrd : 0 < ready)
    (hpn : (ready : Int) < count) : Between (ctx.clamp count) (ctx.clamp (podsNeeded .apa t load))
      (ctx.clamp (applyPendingReplicaGuard .apa ctx (evenRequest load count ready now window)
        ⟨ctx.clamp (computeTargetReplicas ctx count (load / ready)), load / ready⟩)) := by
  have hbn := hctx.bounds_int
  have hls := @apa_needed_le _ _ load hctx count ready hrd (by omega)
  generalize computeTargetReplicas ctx count (load / ready) = asked at hls
  by_cases hsm : ctx.clamp asked = count
  · rw [hsm]
    have hgr := @guard_between ctx (evenRequest load count ready now window) ⟨count, load / ready⟩ .apa
    have : applyPendingReplicaGuard .apa ctx (evenRequest load count ready now window) ⟨count, load / ready⟩ = count := by
      change count ≤ _ ∧ _ ≤ count ∨ count ≤ _ ∧ _ ≤ count at hgr
      omega
    rw [this]
    exact .left _ _
  rw [guard_apa hctx hrd hpn hsm]
  change Between _ (ctx.clamp (load / t).ceil) _
  have hmn : (load / t).ceil ≤ (load / t + (count - ready)).ceil := by
    have hcs : (ready : ℚ) ≤ count := by exact_mod_cast hpn.le
    apply ceil_le_iff.2
    have := ceil_le_iff.1 (le_refl (load / t + (count - ready)).ceil)
    linarith
  have hnd : asked < count → (load / t).ceil ≤ ready := hls
  generalize (load / t + (count - ready)).ceil = padded at hmn ⊢
  split
  · next hup =>
    apply Between.clamp hbn
    unfold Between minCount maxCount
    omega
  next hdw =>
  by_cases hak : asked < count
  · apply Between.clamp hbn
    unfold Between minCount maxCount
    omega
  -- only the upper bound takes the recommendation below the count
  have hmax : ctx.clamp asked = ctx.maxReplicas := by
    unfold ScalingContext.clamp Lib.clamp at *
    omega
  have hkp : ctx.clamp (maxCount (minCount padded count) (ctx.clamp asked)) = ctx.clamp count := by
    unfold ScalingContext.clamp Lib.clamp maxCount
    omega
  rw [hkp]
  exact .left _ _

end guard

variable {strategy : Strategy}

theorem decision_of_pipeline (hctx : Sane ctx t) {windows : Windows} {state state' : PanicState}
    {request : Request} {result : Recommendation} (hcn : request.currentReplicas = 0 → ctx.minReplicas = 0)
    (h : executeScalingPipeline strategy ctx windows state request = some (state', result)) :
    computeScaleDecision strategy ctx windows state request =
      (state', ctx.clamp (applyPendingReplicaGuard strategy ctx request result)) := by
  unfold computeScaleDecision
  rw [if_neg (fun h' => h'.2 (hcn h'.1)), h]
  dsimp only
  rw [bounds_eq hctx]

variable {counts : PodCounts}

theorem apply_zero {now : Time} {window : Int} (hsm : counts.panic = counts.stable)
    (hnn : 0 ≤ counts.stable) : (zero.apply now window counts).2.1 = counts.stable := by
  unfold apply advance zero
  cases counts.overPanicThreshold with
  | false => rfl
  | true =>
    simp only [if_true]
    unfold maxCount
    omega

theorem windowGoal_eq (count ready : Int) : windowGoal ctx t load count ready = count ∧ InBand ctx t (load / ready) ∨
      windowGoal ctx t load count ready = podsNeeded .kpa t load ∧ ¬ InBand ctx t (load / ready) := by
  unfold windowGoal
  split
  · next hbn => exact .inl ⟨rfl, hbn⟩
  · next hbn => exact .inr ⟨rfl, hbn⟩

theorem limitRate_windowGoal (hctx : Sane ctx t) (hld : 0 ≤ load) {count : Int} (hcn : 0 ≤ count) (ready : Int) :
    Between count (podsNeeded .kpa t load) (limitRate ctx count (windowGoal ctx t load count ready)) := by
  have hnd := kpa_needed_nonneg hctx hld
  have hlm : Between count (windowGoal ctx t load count ready)
      (limitRate ctx count (windowGoal ctx t load count ready)) := by
    rcases Int.lt_or_le 0 count with hpos | hzr
    · exact (limitRate_between hctx (by omega) _).1
    · obtain rfl : count = 0 := by omega
      apply limitRate_zero
      rcases @windowGoal_eq ctx t load 0 ready with ⟨h, -⟩ | ⟨h, -⟩ <;> omega
  refine Between.trans ?_ hlm
  rcases @windowGoal_eq ctx t load count ready with ⟨h, -⟩ | ⟨h, -⟩
  · rw [h]
    exact .left _ _
  · unfold Between
    omega

theorem decision_between (hctx : Sane ctx t) (hld : 0 ≤ load) (strategy : Strategy) {windows : Windows}
    (hwn : windows.Constant load) {count : Int} {ready : Nat} (hrd : 0 < ready) (hle : (ready : Int) ≤ count)
    (now : Time) (window : Int) : Between (ctx.clamp count) (ctx.clamp (podsNeeded strategy t load))
      (computeScaleDecision strategy ctx windows .zero (evenRequest load count ready now window)).2 := by
  have hbn := hctx.bounds_int
  have hcn : (evenRequest load count ready now window).currentReplicas = 0 → ctx.minReplicas = 0 := by
    intro h
    change count = 0 at h
    omega
  cases strategy with
  | apa =>
    rw [decision_of_pipeline hctx hcn (pipeline_apa hctx hwn hrd), maxCount_ready hrd]
    rcases Int.lt_or_le ready count with hpn | hall
    · exact guard_apa_clamped hctx hrd hpn
    obtain rfl : count = ready := by omega
    rw [guard_of_pending_nonpos]
    · rw [hctx.clamp_idem]
      exact (apa_step hctx (by omega)).1.clamp hbn
    · change (ready : Int) - ready ≤ 0
      omega
  | kpa =>
    rw [decision_of_pipeline hctx hcn (pipeline_kpa hctx hwn hrd)]
    have hak := limitRate_windowGoal hctx hld (by omega : 0 ≤ count) (maxCount 1 ready)
    have hnd := kpa_needed_nonneg hctx hld
    rw [apply_zero rfl]
    · -- the guard stays on the way to what the windows ask for
      have hgr := (@guard_between ctx (evenRequest load count ready now window)
        ⟨ctx.clamp (evenCounts ctx t load count (maxCount 1 ready)).stable, load / maxCount 1 ready⟩ .kpa).clamp hbn
      apply (hak.clamp hbn).trans
      rw [← clamp_clamp hbn (limitRate _ _ _)]
      exact hgr
    · change 0 ≤ limitRate ctx count (windowGoal ctx t load count (maxCount 1 ready))
      unfold Between at hak
      omega

/-! ## Repeated passes -/

def pass (strategy : Strategy) (ctx : ScalingContext) (load : ℚ) (stableWindow : Int) (now : Time)
    (windows : Windows) (s : PanicState × Int) : PanicState × Int :=
  computeScaleDecision strategy ctx windows s.1 (evenRequest load s.2 s.2.toNat now stableWindow)

def run (strategy : Strategy) (ctx : ScalingContext) (load : ℚ) (stableWindow : Int) (now : Nat → Time)
    (windows : Nat → Windows) (count : Int) : Nat → PanicState × Int
  | 0 => (.zero, count)
  | k + 1 =>
    pass strategy ctx load stableWindow (now k) (windows k) (run strategy ctx load stableWindow now windows count k)

def OnTheWay (strategy : Strategy) (ctx : ScalingContext) (t load : ℚ) (count : Int) : Prop :=
  count ≤ ctx.clamp (podsNeeded strategy t load) ∨ 1 ≤ count ∧ InBand ctx t (load / count)

structure Held (strategy : Strategy) (ctx : ScalingContext) (t load : ℚ) (s : PanicState × Int) : Prop where
  nonneg : 0 ≤ s.2
  zero : s.2 = 0 → ctx.clamp (podsNeeded strategy t load) = 0
  idle : strategy = .apa → s.1.panicTime = none
  calm : s.1.panicTime = none → s.1.maxPanicPods = 0
  panic : s.1.panicTime ≠ none → s.2 = ctx.clamp s.1.maxPanicPods ∧ OnTheWay strategy ctx t load s.2

structure Nears (strategy : Strategy) (ctx : ScalingContext) (t load : ℚ) (count next : Int) : Prop where
  between : Between count (ctx.clamp (podsNeeded strategy t load)) next
  settled : next = count → count = ctx.clamp (podsNeeded strategy t load) ∨ InBand ctx t (load / count)

theorem nears_of_asked (hctx : Sane ctx t) {count asked : Int} (hbt : Between count (podsNeeded strategy t load) asked)
    (hmv : ¬ InBand ctx t (load / count) → count ≠ podsNeeded strategy t load → asked ≠ count) :
    Nears strategy ctx t load count (ctx.clamp asked) := by
  refine ⟨(hbt.clamp hctx.bounds_int).of_clamp hctx.bounds_int, fun hsm => ?_⟩
  by_cases hbn : InBand ctx t (load / count)
  · exact .inr hbn
  · exact .inl (eq_clamp_of_step hctx.bounds_int hbt (hmv hbn) hsm)

theorem Nears.zero {count next : Int} (h : Nears strategy ctx t load count next)
    (hcn : count = 0 → ctx.clamp (podsNeeded strategy t load) = 0) (hnn : 0 ≤ count) :
    0 ≤ next ∧ (next = 0 → ctx.clamp (podsNeeded strategy t load) = 0) := by
  have hbt := h.between
  have hgl := @clamp_nonneg ctx (podsNeeded strategy t load)
  unfold Between at hbt
  omega

section pass

variable {strategy : Strategy} {s : PanicState × Int} {now : Time} {stableWindow : Int} {windows : Windows}

theorem Held.minReplicas_eq (h : Held strategy ctx t load s) (hctx : Sane ctx t) (hzr : s.2 = 0) :
    ctx.minReplicas = 0 := by
  have hbn := hctx.bounds_int
  have hgl := h.zero hzr
  unfold ScalingContext.clamp Lib.clamp at hgl
  omega

variable {state : PanicState} {count : Int}

theorem pass_some (hctx : Sane ctx t) (hnn : 0 ≤ s.2) (hmin : s.2 = 0 → ctx.minReplicas = 0) {asked : Int} {value : ℚ}
    (hpp : executeScalingPipeline strategy ctx windows s.1 (evenRequest load s.2 s.2.toNat now stableWindow) =
      some (state, ⟨ctx.clamp asked, value⟩)) :
    pass strategy ctx load stableWindow now windows s = (state, ctx.clamp asked) := by
  have hpn : (evenRequest load s.2 s.2.toNat now stableWindow).pendingReplicas ≤ 0 := by
    change s.2 - s.2.toNat ≤ 0
    omega
  unfold pass
  rw [decision_of_pipeline hctx hmin hpp, guard_of_pending_nonpos strategy hpn]
  rw [hctx.clamp_idem]

theorem maxCount_toNat (h : 0 ≤ count) : maxCount 1 (count.toNat : Int) = maxCount 1 count := by
  rw [Int.toNat_of_nonneg h]

theorem maxCount_one (h : 1 ≤ count) : maxCount 1 count = count := by
  unfold maxCount
  omega

theorem Held.nears_self (h : Held strategy ctx t load s) (hzr : s.2 = 0) : Nears strategy ctx t load s.2 s.2 :=
  ⟨.left _ _, fun _ => .inl (by rw [h.zero hzr, hzr])⟩

theorem Held.pass_apa (h : Held .apa ctx t load s) (hctx : Sane ctx t) (hwn : windows.Constant load) :
    let r := pass .apa ctx load stableWindow now windows s
    Held .apa ctx t load r ∧ Nears .apa ctx t load s.2 r.2 := by
  rcases Int.lt_or_le 0 s.2 with hpos | hle
  · rw [pass_some hctx h.nonneg (h.minReplicas_eq hctx) (pipeline_apa hctx hwn (by omega)), maxCount_toNat h.nonneg,
      maxCount_one hpos]
    have hst := @apa_step ctx t load hctx s.2 hpos
    have hnr := nears_of_asked hctx hst.1 hst.2
    have hzr := hnr.zero h.zero h.nonneg
    exact ⟨⟨hzr.1, hzr.2, h.idle, h.calm, fun hpn => absurd (h.idle rfl) hpn⟩, hnr⟩
  obtain ⟨state, count⟩ := s
  obtain rfl : count = 0 := le_antisymm hle h.nonneg
  have hmin := h.minReplicas_eq hctx rfl
  have hcl : ctx.clamp 0 = 0 := by
    unfold ScalingContext.clamp Lib.clamp
    omega
  have hpp : executeScalingPipeline .apa ctx windows state (evenRequest load 0 0 now stableWindow) =
      some (state, ⟨ctx.clamp (computeTargetReplicas ctx 0 _), _⟩) := rfl
  rw [apa_zero hctx] at hpp
  rw [pass_some hctx (le_refl _) (fun _ => hmin) hpp, hcl]
  exact ⟨h, h.nears_self rfl⟩

def asked (ctx : ScalingContext) (t load : ℚ) (count : Int) : Int :=
  limitRate ctx count (windowGoal ctx t load count (maxCount 1 count))

section

variable (hctx : Sane ctx t)
include hctx

theorem asked_between (hld : 0 ≤ load) (hcn : 0 ≤ count) :
    Between count (podsNeeded .kpa t load) (asked ctx t load count) :=
  limitRate_windowGoal hctx hld hcn _

theorem asked_inBand (hcn : 1 ≤ count) (hbn : InBand ctx t (load / count)) : asked ctx t load count = count := by
  have hgl : windowGoal ctx t load count (maxCount 1 count) = count := by
    rw [maxCount_one hcn, windowGoal, if_pos hbn]
  have hlm := (limitRate_between hctx hcn count).1
  unfold asked
  rw [hgl]
  unfold Between at hlm
  omega

theorem asked_nears (hld : 0 ≤ load) (hcn : 1 ≤ count) :
    Nears .kpa ctx t load count (ctx.clamp (asked ctx t load count)) := by
  apply nears_of_asked hctx (asked_between hctx hld (by omega))
  intro hbn hne
  have hgl : windowGoal ctx t load count (maxCount 1 count) = podsNeeded .kpa t load := by
    rw [maxCount_one hcn, windowGoal, if_neg hbn]
  unfold asked
  rw [hgl]
  exact (limitRate_between hctx hcn _).2 hne

theorem OnTheWay.next (hld : 0 ≤ load) (hcn : 0 ≤ count)
    (hcl : ctx.clamp count = count) (h : OnTheWay .kpa ctx t load count) :
    count ≤ ctx.clamp (asked ctx t load count) ∧ OnTheWay .kpa ctx t load (ctx.clamp (asked ctx t load count)) := by
  rcases h with hle | ⟨hpos, hbn⟩
  · have hbt := (asked_between hctx hld hcn).clamp hctx.bounds_int
    change Between (ctx.clamp count) (ctx.clamp _) (ctx.clamp _) at hbt
    unfold Between at hbt
    exact ⟨by omega, .inl (by omega)⟩
  · rw [asked_inBand hctx hpos hbn, hcl]
    exact ⟨le_refl _, .inr ⟨hpos, hbn⟩⟩

theorem load_lt (h : podsNeeded .kpa t load < count) : load < t * count := by
  have hcl : (load / t - podCountEpsilon).ceil ≤ count - 1 := Int.le_sub_one_of_lt h
  rw [ceil_le_iff, sub_le_iff_le_add, div_le_iff₀ hctx.target_pos] at hcl
  have hpos := hctx.target_pos
  unfold podCountEpsilon at hcl
  push_cast at hcl
  nlinarith

theorem OnTheWay.start (hld : 0 ≤ load) (hth : 1 ≤ ctx.panicThreshold) (hcn : 0 ≤ count)
    (hov : ((windowGoal ctx t load count (maxCount 1 count) : Int) : ℚ) / (maxCount 1 (maxCount 0 count) : Int) ≥
      ctx.panicThreshold) : OnTheWay .kpa ctx t load (ctx.clamp (asked ctx t load count)) := by
  have hbd := hctx.bounds_int
  have hmax : maxCount 0 count = count := by
    unfold maxCount
    omega
  have hone : 1 ≤ maxCount 1 count := by
    unfold maxCount
    omega
  have hgl : maxCount 1 count ≤ windowGoal ctx t load count (maxCount 1 count) := by
    have hone' : (0 : ℚ) < maxCount 1 count := by exact_mod_cast (by omega : 0 < maxCount 1 count)
    rw [hmax, ge_iff_le, le_div_iff₀ hone'] at hov
    have : (maxCount 1 count : ℚ) ≤ windowGoal ctx t load count (maxCount 1 count) := by nlinarith
    exact_mod_cast this
  rcases @windowGoal_eq ctx t load count (maxCount 1 count) with ⟨hsm, hbn⟩ | ⟨hnd, -⟩
  · have hpos : 1 ≤ count := by omega
    rw [maxCount_one hpos] at hbn
    rw [asked_inBand hctx hpos hbn]
    by_cases hle : ctx.clamp count ≤ ctx.clamp (podsNeeded .kpa t load)
    · exact .inl hle
    -- the upper bound takes the count down towards the need, and the load per pod does not leave the band
    have hgl := @clamp_nonneg ctx (podsNeeded .kpa t load)
    have hls : podsNeeded .kpa t load < ctx.clamp count := by
      unfold ScalingContext.clamp Lib.clamp at *
      omega
    have hdw : ctx.clamp count ≤ count := by
      unfold ScalingContext.clamp Lib.clamp at *
      omega
    have hcl' : (0 : ℚ) < ctx.clamp count := by exact_mod_cast (by omega : 0 < ctx.clamp count)
    have hdw' : (ctx.clamp count : ℚ) ≤ count := by exact_mod_cast hdw
    refine .inr ⟨by omega, hbn.1.trans (div_le_div_of_nonneg_left hld hcl' hdw'), ?_⟩
    rw [div_le_iff₀ hcl']
    have hlt := load_lt hctx hls
    have hwd : 0 ≤ t * ctx.upFluctuationTolerance * ctx.clamp count :=
      mul_nonneg (mul_nonneg hctx.target_pos.le hctx.up_nonneg) hcl'.le
    linarith
  · left
    have hbt := asked_between hctx hld hcn
    apply clamp_mono hbd
    unfold Between at hbt
    have hle : count ≤ maxCount 1 count := by
      unfold maxCount
      omega
    omega

end

theorem advance_cases (state : PanicState) (now : Time) (window : Int) (exceeded : Bool) :
    let state' := state.advance now window exceeded
    state' = .zero ∨ state' = state ∧ state.panicTime = none ∨
      state'.panicTime ≠ none ∧ state'.maxPanicPods = state.maxPanicPods ∧ (state.panicTime ≠ none ∨ exceeded = true) := by
  obtain ⟨panicTime, maxPanicPods⟩ := state
  unfold advance
  cases exceeded with
  | true => exact .inr (.inr ⟨some_ne_none _, rfl, .inr rfl⟩)
  | false =>
    cases panicTime with
    | none => exact .inr (.inl ⟨rfl, rfl⟩)
    | some panicTime =>
      rw [if_neg Bool.false_ne_true]
      dsimp only
      split
      · exact .inl rfl
      · exact .inr (.inr ⟨some_ne_none _, rfl, .inl (some_ne_none _)⟩)

theorem apply_of_none (h : (state.advance now stableWindow counts.overPanicThreshold).panicTime = none) :
    state.apply now stableWindow counts =
      (state.advance now stableWindow counts.overPanicThreshold, counts.stable, false) := by
  unfold apply
  dsimp only
  rw [h]

theorem apply_of_some (h : (state.advance now stableWindow counts.overPanicThreshold).panicTime ≠ none) :
    let state' := state.advance now stableWindow counts.overPanicThreshold
    let maxPanicPods := maxCount state'.maxPanicPods (maxCount counts.stable counts.panic)
    state.apply now stableWindow counts = (⟨state'.panicTime, maxPanicPods⟩, maxPanicPods, true) := by
  obtain ⟨time, htm⟩ := ne_none_iff_exists'.1 h
  unfold apply
  dsimp only
  rw [htm]

theorem Held.apply_of (h : Held .kpa ctx t load s) {next : Int}
    (hzr : 0 ≤ next ∧ (next = 0 → ctx.clamp (podsNeeded .kpa t load) = 0)) (hst : ctx.clamp counts.stable = next)
    (hmx : s.1.panicTime ≠ none ∨ counts.overPanicThreshold = true →
      ctx.clamp (maxCount s.1.maxPanicPods (maxCount counts.stable counts.panic)) = next ∧ OnTheWay .kpa ctx t load next) :
    let applied := s.1.apply now stableWindow counts
    ctx.clamp applied.2.1 = next ∧ Held .kpa ctx t load (applied.1, next) := by
  have hcm {state : PanicState} (hnn : state.panicTime = none) (hmax : state.maxPanicPods = 0) :
      Held .kpa ctx t load (state, next) :=
    ⟨hzr.1, hzr.2, nofun, fun _ => hmax, fun hpn => absurd hnn hpn⟩
  rcases advance_cases s.1 now stableWindow counts.overPanicThreshold with had | ⟨had, hnn⟩ | ⟨hpn, hmax, hwhy⟩
  · rw [apply_of_none (by rw [had]; rfl), had]
    exact ⟨hst, hcm rfl rfl⟩
  · rw [apply_of_none (by rw [had, hnn]), had]
    exact ⟨hst, hcm hnn (h.calm hnn)⟩
  · obtain ⟨hcl, hway⟩ := hmx hwhy
    rw [apply_of_some hpn, hmax]
    exact ⟨hcl, hzr.1, hzr.2, nofun, fun hnn => absurd hnn hpn, fun _ => ⟨hcl.symm, hway⟩⟩

theorem Held.apply (h : Held .kpa ctx t load s) (hctx : Sane ctx t) (hld : 0 ≤ load)
    (hth : 1 ≤ ctx.panicThreshold) (hpos : 0 < s.2) :
    let applied := s.1.apply now stableWindow (evenCounts ctx t load s.2 (maxCount 1 s.2))
    ctx.clamp applied.2.1 = ctx.clamp (asked ctx t load s.2) ∧
      Held .kpa ctx t load (applied.1, ctx.clamp (asked ctx t load s.2)) := by
  have hno : 0 ≤ asked ctx t load s.2 := by
    have hbt := asked_between hctx hld h.nonneg
    have hnd := kpa_needed_nonneg hctx hld
    unfold Between at hbt
    omega
  refine h.apply_of ((asked_nears hctx hld hpos).zero h.zero h.nonneg) rfl fun hwhy => ?_
  have hsm (n : Int) : maxCount n n = n := ite_self _
  change ctx.clamp (maxCount _ (maxCount (asked ctx t load s.2) (asked ctx t load s.2))) = _ ∧ _
  rw [hsm]
  by_cases hbf : s.1.panicTime = none
  · -- the panic starts with this pass
    rw [h.calm hbf]
    refine ⟨?_, ?_⟩
    · unfold maxCount
      split_ifs
      · rfl
      · rw [show asked ctx t load s.2 = 0 by omega]
    · have hov := hwhy.resolve_left (not_not.2 hbf)
      exact .start hctx hld hth h.nonneg (of_decide_eq_true hov)
  obtain ⟨hcn, hway⟩ := h.panic hbf
  have hid : ctx.clamp s.2 = s.2 := by
    rw [hcn, hctx.clamp_idem]
  obtain ⟨hle, hnx⟩ := hway.next hctx hld h.nonneg hid
  refine ⟨?_, hnx⟩
  unfold maxCount
  split_ifs with hlt
  · rfl
  -- the panic holds at least what is asked for, and the bounds make the two equal
  have hmn := clamp_mono hctx.bounds_int (Int.not_lt.1 hlt)
  change ctx.clamp _ ≤ ctx.clamp _ at hmn
  omega

theorem asked_idle (hctx : Sane ctx t) (hld : 0 ≤ load) {l : ℚ} (hl : l = 0 ∨ l = load) :
    Between 0 (podsNeeded .kpa t load) (limitRate ctx 0 (windowGoal ctx t l 0 (maxCount 1 0))) := by
  rcases hl with rfl | rfl
  · have hzr : podsNeeded .kpa t 0 = 0 := by
      rw [podsNeeded, zero_div]
      decide +kernel
    have hbt := limitRate_windowGoal hctx (le_refl 0) (le_refl 0) (maxCount 1 0)
    unfold Between at *
    omega
  · exact limitRate_windowGoal hctx hld (le_refl 0) _

/-- Without pods the count stays, whatever the windows hold. -/
theorem Held.apply_idle (h : Held .kpa ctx t load (state, 0)) (hctx : Sane ctx t) (hld : 0 ≤ load) (hl₁ : l₁ = 0 ∨ l₁ = load)
    (hl₂ : l₂ = 0 ∨ l₂ = load) :
    let applied := state.apply now stableWindow (loadCounts ctx t l₁ l₂ 0 (maxCount 1 0))
    ctx.clamp applied.2.1 = 0 ∧ Held .kpa ctx t load (applied.1, 0) := by
  have hnd := kpa_needed_nonneg hctx hld
  have hgl := h.zero rfl
  have hcl {n : Int} (hn : Between 0 (podsNeeded .kpa t load) n) : ctx.clamp n = 0 := by
    have hnn := @clamp_nonneg ctx n
    unfold Between at hn
    have hmn := clamp_mono hctx.bounds_int (show n ≤ podsNeeded .kpa t load by omega)
    change ctx.clamp _ ≤ ctx.clamp _ at hmn
    omega
  have hst := hcl (asked_idle hctx hld hl₁)
  refine h.apply_of ⟨le_refl _, fun _ => hgl⟩ hst fun _ => ⟨?_, .inl hgl.ge⟩
  have hold : ctx.clamp state.maxPanicPods = 0 := by
    by_cases hbf : state.panicTime = none
    · rw [h.calm hbf]
      exact hcl (.left _ _)
    · exact (h.panic hbf).1.symm
  have hmx {m n : Int} (hm : ctx.clamp m = 0) (hn : ctx.clamp n = 0) : ctx.clamp (maxCount m n) = 0 := by
    unfold maxCount
    split_ifs <;> assumption
  exact hmx hold (hmx hst (hcl (asked_idle hctx hld hl₂)))

theorem Held.pass_kpa (h : Held .kpa ctx t load s) (hctx : Sane ctx t) (hld : 0 ≤ load)
    (hth : 1 ≤ ctx.panicThreshold) (hwn : windows.Constant load) :
    let r := pass .kpa ctx load stableWindow now windows s
    Held .kpa ctx t load r ∧ Nears .kpa ctx t load s.2 r.2 := by
  rcases Int.lt_or_le 0 s.2 with hpos | hle
  · rw [pass_some hctx h.nonneg (h.minReplicas_eq hctx) (pipeline_kpa hctx hwn (by omega)), maxCount_toNat h.nonneg]
    obtain ⟨hcl, hhl⟩ := @Held.apply ctx t load s now stableWindow h hctx hld hth hpos
    rw [hcl]
    exact ⟨hhl, asked_nears hctx hld hpos⟩
  obtain ⟨state, count⟩ := s
  obtain rfl : count = 0 := le_antisymm hle h.nonneg
  obtain ⟨l₁, hl₁, hst⟩ := @aggregate_idle ctx t load hctx 0 now stableWindow _ hwn.1
  obtain ⟨l₂, hl₂, hpn⟩ := aggregate_idle hctx hwn.2
  obtain ⟨hcl, hhl⟩ := h.apply_idle hctx hld hl₁ hl₂
  have hpp := @pipeline_loads ctx t load l₁ l₂ windows state 0 0 now stableWindow hctx hst hpn
  have hps := @pass_some ctx t load .kpa (state, 0) now stableWindow windows _ hctx (le_refl _)
    (fun _ => h.minReplicas_eq hctx rfl) _ _ hpp
  rw [hps.trans (congrArg (Prod.mk _) hcl)]
  exact ⟨hhl, h.nears_self rfl⟩

end pass

section run

variable {strategy : Strategy} {stableWindow : Int} {now : Nat → Time} {windows : Nat → Windows} {count : Int}

theorem held_start (hcn : 1 ≤ count) : Held strategy ctx t load (.zero, count) :=
  ⟨by dsimp only; omega, fun h => by dsimp only at h; omega, fun _ => rfl, fun _ => rfl, fun h => absurd rfl h⟩

theorem run_step (hctx : Sane ctx t) (hld : 0 ≤ load) (hth : strategy = .kpa → 1 ≤ ctx.panicThreshold)
    (hwn : ∀ k, (windows k).Constant load) (hcn : 1 ≤ count) (k : Nat) :
    let r := run strategy ctx load stableWindow now windows count k
    Held strategy ctx t load r ∧
    Nears strategy ctx t load r.2 (run strategy ctx load stableWindow now windows count (k + 1)).2 := by
  have hps {s : PanicState × Int} (k : Nat) (h : Held strategy ctx t load s) :
      Held strategy ctx t load (pass strategy ctx load stableWindow (now k) (windows k) s) ∧
        Nears strategy ctx t load s.2 (pass strategy ctx load stableWindow (now k) (windows k) s).2 := by
    cases strategy with
    | apa => exact h.pass_apa hctx (hwn k)
    | kpa => exact h.pass_kpa hctx hld (hth rfl) (hwn k)
  induction k with
  | zero => exact ⟨held_start hcn, (hps 0 (held_start hcn)).2⟩
  | succ k ih => exact ⟨(hps k ih.1).1, (hps (k + 1) (hps k ih.1).1).2⟩

end run

theorem scaling_converges {ctx : ScalingContext} {t load : ℚ} (hctx : Sane ctx t) (hload : 0 ≤ load) (strategy : Strategy)
    (stableWindow : Int) :
    (∀ (windows : Windows) (count : Int) (ready : Nat) (now : Time), windows.Constant load → 1 ≤ ready →
      (ready : Int) ≤ count →
      Between (ctx.clamp count) (ctx.clamp (podsNeeded strategy t load))
        (computeScaleDecision strategy ctx windows .zero (evenRequest load count ready now stableWindow)).2) ∧
    ((strategy = .kpa → 1 ≤ ctx.panicThreshold) →
      ∀ (windows : Nat → Windows) (count : Int) (now : Nat → Time), (∀ k, (windows k).Constant load) → 1 ≤ count →
      let counts k := (run strategy ctx load stableWindow now windows count k).2
      ((∀ i j, i ≤ j → counts i ≤ counts j) ∨ ∀ i j, i ≤ j → counts j ≤ counts i) ∧
        ∃ K, (∀ k, K ≤ k → counts k = counts K) ∧
          (counts K = ctx.clamp (podsNeeded strategy t load) ∨ InBand ctx t (load / counts K))) := by
  refine ⟨fun windows count ready now hwindows hready hle => ?_, fun hthreshold windows count now hwindows hcount => ?_⟩
  · exact decision_between hctx hload strategy hwindows hready hle now stableWindow
  · have hstep k := (@run_step ctx t load strategy stableWindow now windows count hctx hload hthreshold hwindows hcount k).2
    obtain ⟨hmono, K, hrest⟩ := approach fun k => (hstep k).between
    exact ⟨hmono, K, hrest, (hstep K).settled (hrest (K + 1) (Nat.le_succ K))⟩

/-- Scaling up by half of the count, down to four fifths of it. -/
def sampleContext (panicThreshold : ℚ) : ScalingContext := ⟨some 1, 3 / 2, 5 / 4, 0, 0, panicThreshold, 0, 100, true⟩

theorem sampleContext_sane (threshold : ℚ) : Sane (sampleContext threshold) 1 where
  target := rfl
  target_pos := by norm_num
  perPod := rfl
  up_nonneg := le_refl _
  up_lt_one := by norm_num [sampleContext]
  down_nonneg := le_refl _
  down_lt_one := by norm_num [sampleContext]
  upRate := by norm_num [sampleContext]
  downRate := by norm_num [sampleContext]
  bounds := Nat.zero_le _

/-- Ten units apart. -/
def sampleTime (k : Nat) : Time := ⟨10 * k + 1, by omega⟩

theorem scaling_converges_sample : Sane (sampleContext 2) 1 ∧
      ∃ K, (run .kpa (sampleContext 2) 5 60 sampleTime (fun _ => ⟨[], []⟩) 8 K).2 =
          (sampleContext 2).clamp (podsNeeded .kpa 1 5) ∨
        InBand (sampleContext 2) 1 (5 / (run .kpa (sampleContext 2) 5 60 sampleTime (fun _ => ⟨[], []⟩) 8 K).2) := by
  refine ⟨sampleContext_sane 2, ?_⟩
  have hconverges := scaling_converges (sampleContext_sane 2) (by norm_num : (0 : ℚ) ≤ 5) .kpa 60
  obtain ⟨-, K, -, hrest⟩ := hconverges.2 (fun _ => by norm_num [sampleContext]) (fun _ => ⟨[], []⟩) 8
    sampleTime (fun _ => ⟨nofun, nofun⟩) (by norm_num)
  exact ⟨K, hrest⟩

theorem pass_sampleContext {threshold : ℚ} (state : PanicState) {count : Int} (now : Time) (hcn : 1 ≤ count) :
    let r := sampleContext threshold
    pass .kpa r 5 60 now ⟨[], []⟩ (state, count) =
      ((state.apply now 60 (evenCounts r 1 5 count count)).1,
        r.clamp (state.apply now 60 (evenCounts r 1 5 count count)).2.1) := by
  intro r
  have hctx := sampleContext_sane threshold
  have hem : Windows.Constant ⟨[], []⟩ 5 := ⟨forall_mem_nil _, forall_mem_nil _⟩
  have hpos : 0 < count.toNat := by omega
  have hnn : 0 ≤ count := by omega
  rw [pass_some hctx hnn (fun _ => rfl) (pipeline_kpa hctx hem hpos), maxCount_toNat hnn, maxCount_one hcn]

/-- With a threshold below 1, a pass that scales down starts a panic, which then holds its count: above what the load needs,
and outside the band. -/
theorem panic_holds_count :
    (∀ k, (run .kpa (sampleContext (1 / 2)) 5 60 sampleTime (fun _ => ⟨[], []⟩) 8 (k + 1)).2 = 6) ∧
    (sampleContext (1 / 2)).clamp (podsNeeded .kpa 1 5) = 5 ∧ ¬ InBand (sampleContext (1 / 2)) 1 (5 / 6) := by
  have hfirst : evenCounts (sampleContext (1 / 2)) 1 5 8 8 = ⟨6, 6, true⟩ := by decide +kernel
  have hnext : evenCounts (sampleContext (1 / 2)) 1 5 6 6 = ⟨5, 5, true⟩ := by decide +kernel
  have hrun (k : Nat) : run .kpa (sampleContext (1 / 2)) 5 60 sampleTime (fun _ => ⟨[], []⟩) 8 (k + 1) =
      (⟨some (sampleTime k), 6⟩, 6) := by
    induction k with
    | zero =>
      rw [run, run, pass_sampleContext _ _ (by norm_num), hfirst]
      rfl
    | succ k ih =>
      rw [run, ih, pass_sampleContext _ _ (by norm_num), hnext]
      rfl
  refine ⟨fun k => by rw [hrun], by decide +kernel, by decide +kernel⟩

end Aibrix.PodAutoscaler
