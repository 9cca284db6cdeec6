import Aibrix.Lib.KeyMap
import Aibrix.Lib.Threads
import Mathlib.Algebra.Order.Group.Int
import Mathlib.Algebra.Order.BigOperators.Group.List

/-! # The cap on running requests across gateways

The two scripts of `cache_running_requests.go` on the hash of one pod, `admitRunningRequest`, and the messages of any
number of gateways. -/

namespace Aibrix.RunningRequests

open Lib

abbrev Hash := FieldHash String

structure Redis where
  hash : Hash := ∅
  gateways : List (String × Int) := []

/-- The hash after the script, and what the script returns. -/
def runningRequestsIncrDecrScript (hash : Hash) (field : String) (delta : Int) : Hash × Int :=
  if delta < 0 ∧ hash.entries = [] then (hash, -1)
  else
    let newVal := FieldHash.field hash field + delta
    if newVal < 0 then (hash.insert field 0, 0) else (FieldHash.hincrby hash field delta, newVal)

def live (gateways : List (String × Int)) (cutoff : Int) : List String :=
  (gateways.filter fun gw => cutoff ≤ gw.2).map Prod.fst

/-- One round of the loop over the fields: the sum so far, and whether the own field was seen. -/
def addField (liveSet : List String) (selfField : String) (selfLocal : Int) (acc : Int × Bool)
    (field : (_ : String) × Int) : Int × Bool :=
  if field.1 ∈ liveSet then
    let v := if field.1 = selfField ∧ selfLocal > field.2 then selfLocal else field.2
    (if v > 0 then acc.1 + v else acc.1, acc.2 || field.1 = selfField)
  else acc

def liveSum (redis : Redis) (selfField : String) (cutoff selfLocal : Int) : Int :=
  let liveSet := selfField :: live redis.gateways cutoff
  let acc := redis.hash.entries.foldl (addField liveSet selfField selfLocal) (0, false)
  if !acc.2 ∧ selfLocal > 0 then acc.1 + selfLocal else acc.1

def runningRequestsAdmitScript (redis : Redis) (selfField : String) (cutoff limit selfLocal : Int) :
    Hash × List Int :=
  let sum := liveSum redis selfField cutoff selfLocal
  if sum ≥ limit then (redis.hash, [0, sum]) else (FieldHash.hincrby redis.hash selfField 1, [1, sum])

/-! ## The gateway -/

inductive Reply where
  | noClient
  /-- With whether the error shows that the script never ran. -/
  | error (didNotRun : Bool)
  | array (values : List (Option Int))
  | other

structure Admission where
  admitted : Bool
  counted : Bool
  running : Int
  deriving DecidableEq

def admitRunningRequest (reply : Reply) (limit localRunning : Int) : Admission :=
  match reply with
  | .noClient => ⟨localRunning < limit, false, localRunning⟩
  | .error didNotRun => ⟨localRunning < limit, localRunning < limit && !didNotRun, localRunning⟩
  | .array [some flag, some running] =>
    if flag = 0 ∨ flag = 1 then ⟨flag = 1, flag = 1, running⟩ else ⟨localRunning < limit, false, localRunning⟩
  | .array _ | .other => ⟨localRunning < limit, false, localRunning⟩

inductive Cmd where
  | request (gateway : String) (localRunning cutoff : Int)
  | complete (gateway : String)
  | decrement (gateway : String)
  | heartbeat (gateway : String) (now prunable : Int)
  | expire
  deriving DecidableEq

namespace Redis

def admission (redis : Redis) (limit : Int) (gateway : String) (localRunning cutoff : Int) : Admission :=
  admitRunningRequest (.array ((runningRequestsAdmitScript redis gateway cutoff limit localRunning).2.map some))
    limit localRunning

def exec (limit : Int) : Cmd → Redis → Redis × List Cmd
  | .request gateway localRunning cutoff, redis =>
    ({ redis with hash := (runningRequestsAdmitScript redis gateway cutoff limit localRunning).1 },
      if (redis.admission limit gateway localRunning cutoff).admitted then [.complete gateway] else [])
  | .complete gateway, redis => (redis, [.decrement gateway])
  | .decrement gateway, redis =>
    ({ redis with hash := (runningRequestsIncrDecrScript redis.hash gateway (-1)).1 }, [])
  | .heartbeat gateway now prunable, redis =>
    let added := (gateway, now) :: redis.gateways.filter (·.1 ≠ gateway)
    ({ redis with gateways := added.filter (prunable ≤ ·.2) }, [])
  | .expire, redis => ({ redis with hash := ∅ }, [])

/-- Every gateway in the hash is live when a request is admitted, and the hash expires only when no field is
positive. -/
def Allowed (redis : Redis) : Cmd → Prop
  | .request _ _ cutoff => ∀ field ∈ redis.hash.entries, field.1 ∈ live redis.gateways cutoff
  | .expire => ∀ field ∈ redis.hash.entries, field.2 ≤ 0
  | _ => True

instance (redis : Redis) (c : Cmd) : Decidable (redis.Allowed c) := by
  cases c <;> unfold Allowed <;> infer_instance

end Redis

/-- A request is admitted with a local count, completes if it was admitted, and is then decremented. -/
def Cmd.begins : Cmd → Prop
  | .request .. | .heartbeat .. | .expire => True
  | .complete _ | .decrement _ => False

def system (limit : Int) : System Redis Cmd where
  exec := Redis.exec limit
  program commands := ∃ c : Cmd, c.begins ∧ commands = [c]
  allowed redis _ c := redis.Allowed c

instance (limit : Int) (redis : Redis) (M : Multiset Cmd) (c : Cmd) : Decidable ((system limit).allowed redis M c) :=
  inferInstanceAs (Decidable (redis.Allowed c))

/-! ## A gateway's field counts its requests in flight, and those completed but not decremented yet -/

open List Multiset FieldHash Cmd

variable (liveSet : List String)

def part (selfField : String) (selfLocal : Int) (field : (_ : String) × Int) : Int :=
  if field.1 ∈ liveSet then max 0 (if field.1 = selfField then max field.2 selfLocal else field.2) else 0

theorem addField_eq (selfField : String) (selfLocal : Int) (acc : Int × Bool)
    (field : (_ : String) × Int) : addField liveSet selfField selfLocal acc field =
      (acc.1 + part liveSet selfField selfLocal field, acc.2 || (field.1 ∈ liveSet && field.1 = selfField)) := by
  unfold addField part
  split
  · rename_i hlv
    simp only [hlv, decide_true, Bool.true_and, Prod.mk.injEq, and_true]
    by_cases hsl : field.1 = selfField
    · simp only [hsl, true_and]
      split_ifs <;> omega
    · simp only [hsl, false_and, if_false]
      omega
  · rename_i hlv
    simp [hlv]

theorem foldl_addField (selfField : String) (selfLocal : Int) (fields : List ((_ : String) × Int)) (acc : Int × Bool) :
    fields.foldl (addField liveSet selfField selfLocal) acc =
      (acc.1 + (fields.map (part liveSet selfField selfLocal)).sum,
        acc.2 || fields.any fun field => field.1 ∈ liveSet && field.1 = selfField) := by
  induction fields generalizing acc with
  | nil => simp
  | cons field fields ih =>
    rw [List.foldl_cons, ih, addField_eq]
    simp [Bool.or_assoc, add_assoc]

variable {redis : Redis} {gateway : String} {cutoff localRunning limit : Int}

theorem liveSum_eq : liveSum redis gateway cutoff localRunning =
    (redis.hash.entries.map (part (gateway :: live redis.gateways cutoff) gateway localRunning)).sum +
      if (∀ field ∈ redis.hash.entries, field.1 ≠ gateway) ∧ 0 < localRunning then localRunning else 0 := by
  have hsn : (redis.hash.entries.any fun field =>
      field.1 ∈ gateway :: live redis.gateways cutoff && field.1 = gateway) = false ↔
      ∀ field ∈ redis.hash.entries, field.1 ≠ gateway := by
    rw [any_eq_false]
    refine forall₂_congr fun field _ => ?_
    by_cases hsl : field.1 = gateway
    · simp [hsl]
    · simp [hsl]
  unfold liveSum
  simp only [foldl_addField, zero_add, Bool.false_or, Bool.not_eq_true', hsn]
  split
  · rfl
  · rw [add_zero]

section

variable (hlv : ∀ field ∈ redis.hash.entries, field.1 ∈ live redis.gateways cutoff)
include hlv

theorem total_le_liveSum : total redis.hash ≤ liveSum redis gateway cutoff localRunning := by
  rw [liveSum_eq]
  have hpr : total redis.hash ≤
      (redis.hash.entries.map (part (gateway :: live redis.gateways cutoff) gateway localRunning)).sum := by
    refine sum_le_sum fun field hfl => ?_
    have hmem : field.1 ∈ gateway :: live redis.gateways cutoff := mem_cons_of_mem _ (hlv field hfl)
    rw [part]
    split <;> omega
  omega

theorem liveSum_eq_total
    (hnn : ∀ field ∈ redis.hash.entries, 0 ≤ field.2) (hlc : localRunning ≤ field redis.hash gateway) :
    liveSum redis gateway cutoff localRunning = total redis.hash := by
  rw [liveSum_eq, if_neg, add_zero]
  · refine congrArg List.sum (map_congr_left fun field hfl => ?_)
    have hmem : field.1 ∈ gateway :: live redis.gateways cutoff := mem_cons_of_mem _ (hlv field hfl)
    have := hnn field hfl
    rw [part, if_pos hmem]
    split
    · rename_i hsl
      rw [← hsl, field_of_mem hfl] at hlc
      omega
    · omega
  · rintro ⟨hno, hpos⟩
    rw [field_eq_zero_of_notMem hno] at hlc
    omega

end

theorem admission_eq : redis.admission limit gateway localRunning cutoff =
    ⟨liveSum redis gateway cutoff localRunning < limit, liveSum redis gateway cutoff localRunning < limit,
      liveSum redis gateway cutoff localRunning⟩ := by
  unfold Redis.admission runningRequestsAdmitScript
  dsimp only
  split
  · rename_i hfl
    simp [admitRunningRequest, not_lt.2 hfl]
  · rename_i hfr
    simp [admitRunningRequest, not_le.1 hfr]

/-! ## What is pending -/

def Cmd.running : Cmd → Bool
  | .complete _ => true
  | _ => false

def Cmd.held : Cmd → Bool
  | .complete _ | .decrement _ => true
  | _ => false

def Cmd.heldBy (gateway : String) : Cmd → Bool
  | .complete gateway' | .decrement gateway' => gateway' = gateway
  | _ => false

theorem Cmd.heldBy_complete (gateway gateway' : String) :
    (complete gateway').heldBy gateway = decide (gateway' = gateway) := rfl

theorem Cmd.heldBy_decrement (gateway gateway' : String) :
    (decrement gateway').heldBy gateway = decide (gateway' = gateway) := rfl

structure Capped (limit : Int) (redis : Redis) (M : Multiset Cmd) : Prop where
  field : ∀ gateway, FieldHash.field redis.hash gateway = M.countP (·.heldBy gateway)
  total : FieldHash.total redis.hash = M.countP (·.held)
  cap : FieldHash.total redis.hash ≤ max limit 0

variable {M : Multiset Cmd}

theorem countP_le_countP {P Q : Cmd → Prop} [DecidablePred P] [DecidablePred Q] (h : ∀ c, P c → Q c) :
    M.countP P ≤ M.countP Q := by
  induction M using Quotient.inductionOn with
  | h cmds => exact countP_mono_left fun c _ hc => by simpa using h c (by simpa using hc)

theorem Capped.nonneg (h : Capped limit redis M) : ∀ field ∈ redis.hash.entries, 0 ≤ field.2 := by
  intro field hfl
  rw [← field_of_mem hfl, h.field]
  omega

theorem Capped.tail {c : Cmd} (h : Capped limit redis (c ::ₘ M)) (hc : c.held = false) : Capped limit redis M := by
  have hby : ∀ gateway, c.heldBy gateway = false := by
    intro gateway
    cases c <;> first | rfl | cases hc
  refine ⟨fun gateway => ?_, ?_, h.cap⟩
  · rw [h.field, countP_cons_of_neg _ (by simp [hby])]
  · rw [h.total, countP_cons_of_neg _ (by simp [hc])]

theorem Capped.admitted (h : Capped limit redis M) (hfr : FieldHash.total redis.hash < limit) :
    Capped limit { redis with hash := FieldHash.hincrby redis.hash gateway 1 } (.complete gateway ::ₘ M) := by
  refine ⟨fun gateway' => ?_, ?_, ?_⟩
  · rw [field_hincrby, h.field, Multiset.countP_cons]
    by_cases hsl : gateway = gateway'
    · simp [heldBy_complete, hsl]
    · simp [heldBy_complete, hsl, Ne.symm hsl]
  · rw [total_hincrby, h.total, Multiset.countP_cons, if_pos (show (complete gateway).held = true from rfl)]
    rfl
  · rw [FieldHash.total_hincrby]
    omega

theorem Capped.request (h : Capped limit redis (.request gateway localRunning cutoff ::ₘ M))
    (hlv : ∀ field ∈ redis.hash.entries, field.1 ∈ live redis.gateways cutoff) :
    let r := redis.exec limit (.request gateway localRunning cutoff)
    Capped limit r.1 (↑r.2 + M) := by
  have hrs := h.tail rfl
  have hsum : FieldHash.total redis.hash ≤ liveSum redis gateway cutoff localRunning := total_le_liveSum hlv
  simp only [Redis.exec, admission_eq, runningRequestsAdmitScript]
  by_cases hfl : liveSum redis gateway cutoff localRunning ≥ limit
  · simpa [hfl, not_lt.2 hfl] using hrs
  · have hfr := not_le.1 hfl
    simpa [hfl, hfr] using hrs.admitted (hsum.trans_lt hfr)

theorem Capped.complete (h : Capped limit redis (.complete gateway ::ₘ M)) :
    Capped limit redis (.decrement gateway ::ₘ M) := by
  refine ⟨fun gateway' => ?_, ?_, h.cap⟩
  · rw [h.field, Multiset.countP_cons, Multiset.countP_cons]
    rfl
  · rw [h.total, Multiset.countP_cons, Multiset.countP_cons]
    rfl

/-- A decrement finds its request in the hash, so it is neither dropped nor clamped. -/
theorem Capped.script (h : Capped limit redis (.decrement gateway ::ₘ M)) :
    (runningRequestsIncrDecrScript redis.hash gateway (-1)).1 = FieldHash.hincrby redis.hash gateway (-1) := by
  have hpos : 1 ≤ FieldHash.field redis.hash gateway := by
    rw [h.field, countP_cons_of_pos _ (by simp [heldBy])]
    omega
  have hex : redis.hash.entries ≠ [] := by
    intro hem
    rw [field_eq_zero_of_notMem (by simp [hem])] at hpos
    omega
  unfold runningRequestsIncrDecrScript
  rw [if_neg (fun hnn => hex hnn.2)]
  rw [if_neg (by omega)]

theorem Capped.decrement (h : Capped limit redis (.decrement gateway ::ₘ M)) :
    Capped limit { redis with hash := (runningRequestsIncrDecrScript redis.hash gateway (-1)).1 } M := by
  rw [h.script]
  refine ⟨fun gateway' => ?_, ?_, ?_⟩
  · rw [field_hincrby, h.field, Multiset.countP_cons]
    by_cases hsl : gateway = gateway'
    · simp [Cmd.heldBy_decrement, hsl]
    · simp [Cmd.heldBy_decrement, hsl, Ne.symm hsl]
  · rw [total_hincrby, h.total, Multiset.countP_cons, if_pos (show (Cmd.decrement gateway).held = true from rfl)]
    omega
  · have := h.cap
    rw [total_hincrby]
    omega

theorem Capped.expire (h : Capped limit redis M) (hid : ∀ field ∈ redis.hash.entries, field.2 ≤ 0) :
    Capped limit { redis with hash := ∅ } M := by
  have htt : FieldHash.total redis.hash = 0 := by
    refine sum_eq_zero fun v hv => ?_
    obtain ⟨field, hfl, rfl⟩ := List.mem_map.1 hv
    exact le_antisymm (hid field hfl) (h.nonneg field hfl)
  have hfl : ∀ gateway, FieldHash.field redis.hash gateway = 0 := by
    intro gateway
    by_cases hin : ∃ field ∈ redis.hash.entries, field.1 = gateway
    · obtain ⟨field, hfl, rfl⟩ := hin
      rw [field_of_mem hfl]
      exact le_antisymm (hid field hfl) (h.nonneg field hfl)
    · exact field_eq_zero_of_notMem fun field hfl hsl => hin ⟨field, hfl, hsl⟩
  refine ⟨fun gateway => ?_, ?_, le_max_right _ _⟩
  · rw [← h.field, hfl]
    rfl
  · rw [← h.total, htt]
    rfl

theorem Capped.exec {c : Cmd} (h : Capped limit redis (c ::ₘ M)) (hal : redis.Allowed c) :
    Capped limit (redis.exec limit c).1 (↑(redis.exec limit c).2 + M) := by
  cases c with
  | request gateway localRunning cutoff => exact h.request hal
  | complete gateway => simpa [Redis.exec] using h.complete
  | decrement gateway => simpa [Redis.exec] using h.decrement
  | heartbeat gateway now prunable =>
    have hrs := h.tail rfl
    simp only [Redis.exec, coe_nil, zero_add]
    exact ⟨hrs.field, hrs.total, hrs.cap⟩
  | expire => simpa [Redis.exec] using (h.tail rfl).expire hal

theorem Capped.start {c : Cmd} (h : Capped limit redis M) (hc : c.begins) : Capped limit redis (↑[c] + M) := by
  have hhl : c.held = false ∧ ∀ gateway, c.heldBy gateway = false := by
    cases c <;> first | exact ⟨rfl, fun _ => rfl⟩ | cases hc
  refine ⟨fun gateway => ?_, ?_, h.cap⟩
  · rw [coe_singleton, singleton_add, countP_cons_of_neg _ (by simp [hhl.2]), h.field]
  · rw [coe_singleton, singleton_add, countP_cons_of_neg _ (by simp [hhl.1]), h.total]

theorem inflight_le_limit {p : Pool Redis Cmd} (h : (system limit).Reachable {} p) :
    (p.pending.countP (·.running) : Int) ≤ max limit 0 ∧
    ∀ gateway localRunning cutoff, p.state.Allowed (.request gateway localRunning cutoff) →
      ((p.state.admission limit gateway localRunning cutoff).admitted = false →
        limit ≤ liveSum p.state gateway cutoff localRunning) ∧ (localRunning ≤ p.pending.count (.complete gateway) →
        liveSum p.state gateway cutoff localRunning = p.pending.countP (·.held)) := by
  have hcapped : Capped limit p.state p.pending := by
    refine h.invariant ⟨fun _ => rfl, rfl, le_max_right _ _⟩ ?_ fun redis M c hallowed hcapped => hcapped.exec hallowed
    rintro redis M commands ⟨c, hc, rfl⟩ hcapped
    exact hcapped.start hc
  refine ⟨?_, fun gateway localRunning cutoff hlive => ⟨fun hrefused => ?_, fun hlocal => ?_⟩⟩
  · calc (p.pending.countP (·.running) : Int)
      _ ≤ p.pending.countP (·.held) := Int.ofNat_le.2 (countP_le_countP fun c hc => by cases c <;> first | rfl | cases hc)
      _ ≤ max limit 0 := hcapped.total ▸ hcapped.cap
  · rw [admission_eq] at hrefused
    simpa using hrefused
  · rw [liveSum_eq_total hlive hcapped.nonneg, hcapped.total]
    apply hlocal.trans
    rw [hcapped.field]
    refine Int.ofNat_le.2 (countP_le_countP fun c hc => ?_)
    rw [← hc, heldBy_complete, decide_eq_true_eq]

/-- Two gateways announce themselves and fill a cap of two, a third request is refused, and the first one completes: its
decrement is still to come. -/
def fillAndComplete : List (System.Action Cmd) :=
  [.start [.heartbeat "a" 10 0], .run 0, .start [.heartbeat "b" 10 0], .run 1, .start [.request "a" 0 5], .run 2,
    .start [.request "b" 0 5], .run 3, .start [.request "b" 1 5], .run 4, .run 2]

theorem inflight_le_limit_full : ∃ p, (system 2).Reachable {} p ∧ p.pending.countP (·.running) = 1 ∧
    p.state.Allowed (.request "a" 0 5) ∧ liveSum p.state "a" 5 0 = 2 ∧ 2 ≤ liveSum p.state "b" 5 1 := by
  have hlegal : (system 2).Legal ⟨{}, []⟩ fillAndComplete := by
    refine ⟨fun commands hmem => ?_, by decide +kernel⟩
    simp only [fillAndComplete, List.mem_cons, List.not_mem_nil, reduceCtorEq, System.Action.start.injEq, false_or,
      or_false] at hmem
    rcases hmem with rfl | rfl | rfl | rfl | rfl <;> exact ⟨_, by trivial, rfl⟩
  have hreach := System.Reachable.play (.refl : (system 2).Reachable {} ⟨{}, []⟩) hlegal
  have hallowed : ((system 2).play ⟨{}, []⟩ fillAndComplete).state.Allowed (.request "a" 0 5) := by decide +kernel
  obtain ⟨_, hanswer⟩ := inflight_le_limit hreach
  have hsum := (hanswer "a" 0 5 hallowed).2 (by decide +kernel)
  refine ⟨_, hreach, by decide +kernel, hallowed, hsum.trans (by decide +kernel), ?_⟩
  exact (hanswer "b" 1 5 (by decide +kernel)).1 (by decide +kernel)

end Aibrix.RunningRequests
