import Mathlib.Algebra.Order.Ring.Rat
import Aibrix.Lib.Threads
import Aibrix.Lib.ChargeLedger

/-! # The token-load tracker

The ledgers and counters of `token_load_tracker.go`, and its calls as threads of atomic steps: map operations, flips of
once-only flags, counter updates, sections under an entry's lock, and the pruning under the exclusive lock. -/

namespace Aibrix.TokenLoad

/-! ## Counters over exact numbers -/

structure PodCounter where
  value : ℚ := 0
  touched : Bool := false
  deriving DecidableEq

abbrev Counters := String → Option PodCounter

variable (m : Counters)

def loadFloat (key : String) : ℚ := (m key).elim 0 (·.value)

/-- Whether adding `delta` would take a counter below zero, where it is held. -/
def clamps (key : String) (delta : ℚ) : Bool := loadFloat m key + delta < 0

def addFloat (key : String) (delta : ℚ) : Counters :=
  let next := loadFloat m key + delta
  Function.update m key (some ⟨if next < 0 then 0 else next, true⟩)

def idleCounter (pod : String) : Bool :=
  (m pod).elim true fun c => !c.touched && c.value = 0

def clearTouched (pod : String) : Option PodCounter :=
  (m pod).map fun c => { c with touched := false }

theorem loadFloat_addFloat {m : Counters} {key : String} {delta : ℚ} (h : 0 ≤ loadFloat m key + delta)
    (pod : String) : loadFloat (addFloat m key delta) pod = loadFloat m pod + if pod = key then delta else 0 := by
  by_cases hpod : pod = key
  · subst hpod
    have hnx : ¬ loadFloat m pod + delta < 0 := not_lt.2 h
    have hsl : addFloat m pod delta pod = some ⟨loadFloat m pod + delta, true⟩ := by
      simp [addFloat, hnx]
    rw [if_pos rfl, loadFloat, hsl]
    rfl
  · rw [if_neg hpod, add_zero]
    simp [loadFloat, addFloat, Function.update_of_ne hpod]

theorem loadFloat_clearTouched (pod : String) : loadFloat (clearTouched m) pod = loadFloat m pod := by
  unfold loadFloat clearTouched
  cases m pod <;> rfl

theorem loadFloat_of_idle {m : Counters} {pod : String} (h : idleCounter m pod) : loadFloat m pod = 0 := by
  unfold idleCounter at h
  unfold loadFloat
  cases hm : m pod with
  | none => rfl
  | some c =>
    rw [hm] at h
    simp only [Option.elim_some, Bool.and_eq_true, decide_eq_true_eq] at h
    exact h.2

open Lib

/-! ## The state -/

/-- The two parts of a prefill charge, each with its own flag and its own counter. -/
inductive Part where
  | tokens | kv
  deriving DecidableEq

instance : Fintype Part := ⟨{.tokens, .kv}, fun part => by cases part <;> decide⟩

def prefillSlots : SlotFamily Part Part where
  flag := id
  slots part := [part]
  mem_slots f p := by simp
  nodup _ := List.nodup_singleton _
  flags := [.tokens, .kv]
  mem_flags f := by cases f <;> simp
  nodup_flags := by decide

/-- Where a decode charge is kept: the pod's counter, and the aggregate behind its growth estimate. -/
inductive Tally where
  | counter | inflight
  deriving DecidableEq

instance : Fintype Tally := ⟨{.counter, .inflight}, fun tally => by cases tally <;> decide⟩

/-- One flag covers both, so an entry that was released passes the check before it is dropped. -/
def decodeSlots : SlotFamily Unit Tally where
  flag _ := ()
  slots _ := [.counter, .inflight]
  mem_slots f p := by cases p <;> simp
  nodup _ := by decide
  flags := [()]
  mem_flags _ := List.mem_singleton_self _
  nodup_flags := by decide

structure TokenLoadEntry where
  podKey : String
  cost : ℚ
  acquiredAt : ℚ
  ttl : ℚ

/-- Whether the janitor sweeps an entry. A TTL of zero means it never does. -/
def TokenLoadEntry.expired (entry : TokenLoadEntry) (now : ℚ) : Bool :=
  0 < entry.ttl && entry.ttl < now - entry.acquiredAt

structure DecodeLoadEntry extends TokenLoadEntry where
  acquireCost : ℚ

structure DecodeInflight where
  n : Int := 0
  sumAt : ℚ := 0
  tokens : ℚ := 0
  deriving DecidableEq

structure Tracker where
  entries : Ledger String Part TokenLoadEntry
  counters : Part → Counters
  decodeEntries : Ledger String Unit DecodeLoadEntry
  decodeTokens : Counters
  decodeInflight : String → Option DecodeInflight
  clamped : Bool

def Tracker.empty : Tracker where
  entries := ⟨fun _ => none, fun _ => ⟨"", ⟨"", 0, 0, 0⟩, fun _ => false⟩, 0⟩
  counters _ _ := none
  decodeEntries := ⟨fun _ => none, fun _ => ⟨"", ⟨⟨"", 0, 0, 0⟩, 0⟩, fun _ => false⟩, 0⟩
  decodeTokens _ := none
  decodeInflight _ := none
  clamped := false

variable (m : String → Option DecodeInflight)

def loadInflight (pod : String) : ℤ × ℚ × ℚ :=
  (m pod).elim 0 fun agg => (agg.n, agg.sumAt, agg.tokens)

namespace Tracker

def addCounter (t : Tracker) (part : Part) (podKey : String) (delta : ℚ) : Tracker :=
  { t with
    counters := Function.update t.counters part (addFloat (t.counters part) podKey delta)
    clamped := t.clamped || clamps (t.counters part) podKey delta }

def addDecode (t : Tracker) (podKey : String) (delta : ℚ) : Tracker :=
  { t with
    decodeTokens := addFloat t.decodeTokens podKey delta
    clamped := t.clamped || clamps t.decodeTokens podKey delta }

end Tracker

def addDecodeInflight (podKey : String) (delta : Int) (acquiredAt cost : ℚ) : String → Option DecodeInflight :=
  let agg := (m podKey).getD {}
  let moved : DecodeInflight := ⟨agg.n + delta, agg.sumAt + delta * acquiredAt, agg.tokens + delta * cost⟩
  -- Reset instead of carrying float error into the next charge.
  Function.update m podKey (some (if moved.n ≤ 0 then {} else moved))

def addDecodeInflightTokens (podKey : String) (delta : ℚ) : String → Option DecodeInflight :=
  let agg := (m podKey).getD {}
  Function.update m podKey (some (if 0 < agg.n then { agg with tokens := agg.tokens + delta } else agg))

def Tracker.pruneIdle (t : Tracker) : Tracker :=
  let known := fun pod =>
    (t.counters .tokens pod).isSome || (t.counters .kv pod).isSome || (t.decodeTokens pod).isSome
  let idle := fun pod =>
    idleCounter (t.counters .tokens) pod && idleCounter (t.counters .kv) pod && idleCounter t.decodeTokens pod
  { t with
    counters := fun part pod => if known pod && idle pod then none else clearTouched (t.counters part) pod
    decodeTokens := fun pod => if known pod && idle pod then none else clearTouched t.decodeTokens pod
    decodeInflight := fun pod =>
      if known pod && idle pod then (t.decodeInflight pod).filter (·.n ≠ 0) else t.decodeInflight pod }

/-! ## The commands -/

def maxCorrectedDecodeCost : ℚ := 1000000000000

inductive Cmd where
  | acquirePrefill (requestID podKey : String) (cost acquiredAt ttl : ℚ)
  | release (part : Part) (requestID : String)
  | sweep (requestID : String) (now : ℚ)
  | prefill (c : LedgerCmd Part Part)
  | acquireDecode (requestID podKey : String) (cost acquiredAt ttl : ℚ)
  | releaseDecode (requestID : String)
  | sweepDecode (requestID : String) (now : ℚ)
  | decode (c : LedgerCmd Unit Tally)
  | correctDecodeCost (requestID : String) (cost : ℚ)
  | correctDecode (e : Nat) (cost : ℚ)
  | pruneIdle
  deriving DecidableEq

namespace Tracker

variable (t : Tracker)

def movePrefill : LedgerCmd Part Part → Tracker
  | .charge part e =>
    let entry := (t.entries.charge e).payload
    t.addCounter part entry.podKey entry.cost
  | .uncharge part e =>
    let entry := (t.entries.charge e).payload
    t.addCounter part entry.podKey (-entry.cost)
  | _ => t

def moveDecode : LedgerCmd Unit Tally → Tracker
  | .charge .counter e =>
    let entry := (t.decodeEntries.charge e).payload
    t.addDecode entry.podKey entry.acquireCost
  | .charge .inflight e =>
    let entry := (t.decodeEntries.charge e).payload
    { t with decodeInflight := addDecodeInflight t.decodeInflight entry.podKey 1 entry.acquiredAt entry.acquireCost }
  | .uncharge .counter e =>
    let entry := (t.decodeEntries.charge e).payload
    t.addDecode entry.podKey (-entry.cost)
  | .uncharge .inflight e =>
    let entry := (t.decodeEntries.charge e).payload
    { t with decodeInflight := addDecodeInflight t.decodeInflight entry.podKey (-1) entry.acquiredAt entry.cost }
  | _ => t

def correct (e : Nat) (cost : ℚ) : Tracker :=
  let entry := (t.decodeEntries.charge e).payload
  if (t.decodeEntries.charge e).released () || entry.cost = cost then t
  else
    let delta := cost - entry.cost
    { t.addDecode entry.podKey delta with
      decodeEntries := t.decodeEntries.amend e { entry with cost }
      decodeInflight := addDecodeInflightTokens t.decodeInflight entry.podKey delta }

def picks : Cmd → Option Nat
  | .acquirePrefill requestID _ _ _ _ | .release _ requestID => t.entries.current requestID
  | .sweep requestID now => (t.entries.current requestID).filter fun e => (t.entries.charge e).payload.expired now
  | _ => none

def picksDecode : Cmd → Option Nat
  | .acquireDecode requestID _ _ _ _ | .releaseDecode requestID => t.decodeEntries.current requestID
  | .sweepDecode requestID now =>
    (t.decodeEntries.current requestID).filter fun e => (t.decodeEntries.charge e).payload.expired now
  | .correctDecodeCost requestID cost =>
    if cost < 0 || maxCorrectedDecodeCost < cost then none else t.decodeEntries.current requestID
  | _ => none

def exec : Cmd → Tracker → Tracker × List Cmd
  | .acquirePrefill requestID podKey cost acquiredAt ttl, t =>
    ({ t with entries := t.entries.record requestID ⟨podKey, cost, acquiredAt, ttl⟩ },
      (t.entries.afterRecord prefillSlots requestID).map .prefill)
  | .release part requestID, t => (t, (t.picks (.release part requestID)).elim [] fun e => [.prefill (.release part e)])
  | .sweep requestID now, t => (t, (t.picks (.sweep requestID now)).elim [] fun e => (prefillSlots.releases e).map .prefill)
  | .prefill c, t =>
    let next := Ledger.exec prefillSlots c t.entries
    ({ t.movePrefill c with entries := next.1 }, next.2.map .prefill)
  | .acquireDecode requestID podKey cost acquiredAt ttl, t =>
    ({ t with decodeEntries := t.decodeEntries.record requestID ⟨⟨podKey, cost, acquiredAt, ttl⟩, cost⟩ },
      (t.decodeEntries.afterRecord decodeSlots requestID).map .decode)
  | .releaseDecode requestID, t =>
    (t, (t.picksDecode (.releaseDecode requestID)).elim [] fun e => [.decode (.release () e)])
  | .sweepDecode requestID now, t =>
    (t, (t.picksDecode (.sweepDecode requestID now)).elim [] fun e => [.decode (.release () e)])
  | .decode c, t =>
    let next := Ledger.exec decodeSlots c t.decodeEntries
    ({ t.moveDecode c with decodeEntries := next.1 }, next.2.map .decode)
  | .correctDecodeCost requestID cost, t =>
    (t, (t.picksDecode (.correctDecodeCost requestID cost)).elim [] fun e => [.correctDecode e cost])
  | .correctDecode e cost, t => (t.correct e cost, [])
  | .pruneIdle, t => (t.pruneIdle, [])

end Tracker

/-! ## The calls -/

inductive Call where
  | acquirePrefillWithTTL (requestID podKey : String) (cost acquiredAt ttl : ℚ)
  | releaseTokens (requestID : String)
  | releaseKVCache (requestID : String)
  | releaseAll (requestID : String)
  | acquireDecodeWithTTL (requestID podKey : String) (cost acquiredAt ttl : ℚ)
  | releaseDecode (requestID : String)
  | correctDecodeCost (requestID : String) (cost : ℚ)
  /-- The keys that the two walks over the ledgers visit. -/
  | sweepExpired (now : ℚ) (requestIDs decodeRequestIDs : List String)
  | pruneIdle

def Call.program : Call → List Cmd
  | .acquirePrefillWithTTL requestID podKey cost acquiredAt ttl => [.acquirePrefill requestID podKey cost acquiredAt ttl]
  | .releaseTokens requestID => [.release .tokens requestID]
  | .releaseKVCache requestID => [.release .kv requestID]
  | .releaseAll requestID => [.release .tokens requestID, .release .kv requestID, .releaseDecode requestID]
  | .acquireDecodeWithTTL requestID podKey cost acquiredAt ttl => [.acquireDecode requestID podKey cost acquiredAt ttl]
  | .releaseDecode requestID => [.releaseDecode requestID]
  | .correctDecodeCost requestID cost => [.correctDecodeCost requestID cost]
  | .sweepExpired now requestIDs decodeRequestIDs =>
    requestIDs.map (.sweep · now) ++ decodeRequestIDs.map (.sweepDecode · now)
  | .pruneIdle => [.pruneIdle]

/-- Costs are not negative. -/
def Call.Valid : Call → Prop
  | .acquirePrefillWithTTL _ _ cost _ _ | .acquireDecodeWithTTL _ _ cost _ _ => 0 ≤ cost
  | _ => True

instance (call : Call) : Decidable call.Valid := by
  cases call <;> unfold Call.Valid <;> infer_instance

def Settled (t : Tracker) (M : Multiset Cmd) (c : Cmd) : Prop :=
  (∀ e, t.picks c = some e → ∀ part, .prefill (.charge part e) ∉ M) ∧
    ∀ e, t.picksDecode c = some e → ∀ tally, .decode (.charge tally e) ∉ M

instance (t : Tracker) (M : Multiset Cmd) (c : Cmd) : Decidable (Settled t M c) :=
  inferInstanceAs (Decidable ((∀ e ∈ t.picks c, ∀ part, .prefill (.charge part e) ∉ M) ∧
    ∀ e ∈ t.picksDecode c, ∀ tally, .decode (.charge tally e) ∉ M))

def anyInterleaving : System Tracker Cmd where
  exec := Tracker.exec
  program commands := ∃ call : Call, call.Valid ∧ commands = call.program
  allowed _ _ _ := True

/-- The interleavings in which entries are picked up once their acquire is past its counter updates. -/
def settledInterleaving : System Tracker Cmd :=
  { anyInterleaving with allowed := Settled }

instance (t : Tracker) (M : Multiset Cmd) (c : Cmd) : Decidable (anyInterleaving.allowed t M c) := isTrue trivial

instance (t : Tracker) (M : Multiset Cmd) (c : Cmd) : Decidable (settledInterleaving.allowed t M c) :=
  inferInstanceAs (Decidable (Settled t M c))

open Multiset Function Ledger Tracker

/-! ## The prefill counters are the sums of the unreleased charges -/

structure PrefillOk (l : Ledger String Part TokenLoadEntry) (counters : Part → Counters)
    (M : Multiset (LedgerCmd Part Part)) : Prop extends l.Conserved prefillSlots M where
  cost : ∀ e < l.made, 0 ≤ (l.charge e).payload.cost
  value : ∀ part pod, loadFloat (counters part) pod = l.total prefillSlots M part (·.podKey = pod) (·.cost)

variable {t : Tracker} {part : Part} {e : Nat}

variable {delta : ℚ} {podKey id : String} {M : Multiset (LedgerCmd Unit Tally)}

theorem Tracker.loadFloat_addCounter
    (h : 0 ≤ loadFloat (t.counters part) podKey + delta) (part' : Part) (pod : String) :
    loadFloat ((t.addCounter part podKey delta).counters part') pod =
      loadFloat (t.counters part') pod + if part' = part ∧ podKey = pod then delta else 0 := by
  by_cases hpr : part' = part
  · subst hpr
    simp [addCounter, loadFloat_addFloat h, eq_comm]
  · simp [addCounter, hpr]

section

variable {M : Multiset (LedgerCmd Part Part)}

theorem PrefillOk.movePrefill {c : LedgerCmd Part Part}
    (h : PrefillOk t.entries t.counters (c ::ₘ M)) : (∀ part pod, loadFloat ((t.movePrefill c).counters part) pod =
      loadFloat (t.counters part) pod + t.entries.moved part (·.podKey = pod) (·.cost) c) ∧
    (t.movePrefill c).clamped = t.clamped := by
  have hmd := h.toStaged.head_lt
  have hnn : ∀ part pod, 0 ≤ loadFloat (t.counters part) pod := by
    intro part pod
    rw [h.value]
    exact total_nonneg h.cost
  cases c with
  | charge part e =>
    have hup : 0 ≤ loadFloat (t.counters part) (t.entries.charge e).payload.podKey + (t.entries.charge e).payload.cost :=
      add_nonneg (hnn _ _) (h.cost e hmd)
    refine ⟨fun part' pod => Tracker.loadFloat_addCounter hup part' pod, ?_⟩
    simp [Tracker.movePrefill, Tracker.addCounter, clamps, not_lt.2 hup]
  | uncharge part e =>
    have hdw : 0 ≤ loadFloat (t.counters part) (t.entries.charge e).payload.podKey + -(t.entries.charge e).payload.cost := by
      rw [h.value, ← sub_eq_add_neg, sub_nonneg]
      exact le_total h.cost hmd h.toStaged.held_of_uncharge rfl
    refine ⟨fun part' pod => Tracker.loadFloat_addCounter hdw part' pod, ?_⟩
    simp [Tracker.movePrefill, Tracker.addCounter, clamps, not_lt.2 hdw]
  | release f e | forgetIfReleased e | forget e => exact ⟨fun _ _ => (add_zero _).symm, rfl⟩

theorem PrefillOk.exec {c : LedgerCmd Part Part} (h : PrefillOk t.entries t.counters (c ::ₘ M)) :
    let r := exec prefillSlots c t.entries
    PrefillOk r.1 (t.movePrefill c).counters (↑r.2 + M) := by
  refine ⟨h.toConserved.exec, fun e he => ?_, fun part pod => ?_⟩
  · rw [exec_payload]
    exact h.cost e (by simpa using he)
  · rw [h.movePrefill.1, h.value, total_exec h.toStaged]

theorem PrefillOk.record {entry : TokenLoadEntry} (h : PrefillOk t.entries t.counters M) (hcs : 0 ≤ entry.cost)
    (hst : ∀ e, t.entries.current id = some e → ∀ part, .charge part e ∉ M) :
    PrefillOk (t.entries.record id entry) t.counters (↑(t.entries.afterRecord prefillSlots id) + M) := by
  have : Nonempty Part := ⟨.tokens⟩
  refine ⟨h.toConserved.record hst, fun e he => ?_, fun part pod => ?_⟩
  · rcases Nat.lt_succ_iff_lt_or_eq.1 he with he | rfl
    · rw [record_charge_of_lt he]
      exact h.cost e he
    · simpa using hcs
  · rw [h.value, total_record]

theorem PrefillOk.pick {commands : List (LedgerCmd Part Part)}
    (h : PrefillOk t.entries t.counters M) (hfn : t.entries.current id = some e)
    (hst : ∀ part, .charge part e ∉ M) (hcm : ∀ c ∈ commands, ∃ part, c = .release part e) :
    PrefillOk t.entries t.counters (↑commands + M) := by
  refine ⟨h.toConserved.pick (h.found _ _ hfn).1 hst hcm, h.cost, fun part pod => ?_⟩
  rw [h.value, total_push]
  intro c hc
  obtain ⟨_, rfl⟩ := hcm c hc
  rfl

end

/-! ## The decode ledger -/

structure DecodeOk (l : Ledger String Unit DecodeLoadEntry) (counter : Counters)
    (inflight : String → Option DecodeInflight) (M : Multiset (LedgerCmd Unit Tally)) : Prop
    extends l.Conserved decodeSlots M where
  cost : ∀ e < l.made, 0 ≤ (l.charge e).payload.cost
  uncorrected : ∀ tally e, .charge tally e ∈ M → (l.charge e).payload.acquireCost = (l.charge e).payload.cost
  value : ∀ pod, loadFloat counter pod = l.total decodeSlots M .counter (·.podKey = pod) (·.cost)
  inflight : ∀ pod, loadInflight inflight pod =
    l.total decodeSlots M .inflight (·.podKey = pod) fun entry => ((1 : ℤ), entry.acquiredAt, entry.cost)

variable {m : String → Option DecodeInflight}

theorem loadInflight_addDecodeInflight {delta : Int} {since cost : ℚ} {after : ℤ × ℚ × ℚ}
    (haf : loadInflight m podKey + (delta, delta * since, delta * cost) = after)
    (hem : after.1 ≤ 0 → after = 0) (pod : String) : loadInflight (addDecodeInflight m podKey delta since cost) pod =
      loadInflight m pod + if podKey = pod then ((delta : ℤ), delta * since, delta * cost) else 0 := by
  by_cases hpod : podKey = pod
  · subst hpod
    rw [if_pos rfl, haf]
    have hsl : loadInflight m podKey =
        (((m podKey).getD {}).n, ((m podKey).getD {}).sumAt, ((m podKey).getD {}).tokens) := by
      unfold loadInflight
      cases m podKey <;> rfl
    rw [hsl] at haf
    subst haf
    simp only [addDecodeInflight, loadInflight, update_self]
    split
    · rename_i hle
      exact (hem hle).symm
    · rfl
  · rw [if_neg hpod, add_zero]
    simp [loadInflight, addDecodeInflight, update_of_ne (Ne.symm hpod)]

theorem Tracker.loadFloat_addDecode (h : 0 ≤ loadFloat t.decodeTokens podKey + delta)
    (pod : String) : loadFloat (t.addDecode podKey delta).decodeTokens pod =
      loadFloat t.decodeTokens pod + if podKey = pod then delta else 0 := by
  simp [addDecode, loadFloat_addFloat h, eq_comm]

theorem Tracker.clamped_addDecode (h : 0 ≤ loadFloat t.decodeTokens podKey + delta) :
    (t.addDecode podKey delta).clamped = t.clamped := by
  simp [addDecode, clamps, not_lt.2 h]

variable {c : LedgerCmd Unit Tally}

section

variable (h : DecodeOk t.decodeEntries t.decodeTokens t.decodeInflight (c ::ₘ M))
include h

theorem DecodeOk.addDecodeInflight {delta : Int}
    {since cost : ℚ} (hmv : ∀ pod, t.decodeEntries.moved .inflight (·.podKey = pod)
      (fun entry => ((1 : ℤ), entry.acquiredAt, entry.cost)) c =
        if podKey = pod then ((delta : ℤ), delta * since, delta * cost) else 0) (pod : String) :
    loadInflight (addDecodeInflight t.decodeInflight podKey delta since cost) pod = loadInflight t.decodeInflight pod +
      t.decodeEntries.moved .inflight (·.podKey = pod) (fun entry => ((1 : ℤ), entry.acquiredAt, entry.cost)) c := by
  have haf := congrArg (loadInflight t.decodeInflight podKey + ·) (hmv podKey)
  rw [if_pos rfl, h.inflight podKey, ← total_exec h.toStaged, ← h.inflight podKey] at haf
  rw [hmv]
  exact loadInflight_addDecodeInflight haf.symm heldSum_eq_zero_of_fst pod

theorem DecodeOk.moveDecode : (∀ pod, loadFloat (t.moveDecode c).decodeTokens pod =
      loadFloat t.decodeTokens pod + t.decodeEntries.moved .counter (·.podKey = pod) (·.cost) c) ∧
    (∀ pod, loadInflight (t.moveDecode c).decodeInflight pod = loadInflight t.decodeInflight pod +
      t.decodeEntries.moved .inflight (·.podKey = pod) (fun entry => ((1 : ℤ), entry.acquiredAt, entry.cost)) c) ∧
    (t.moveDecode c).clamped = t.clamped := by
  have hmd := h.toStaged.head_lt
  have hnn : ∀ pod, 0 ≤ loadFloat t.decodeTokens pod := by
    intro pod
    rw [h.value]
    exact total_nonneg h.cost
  cases c with
  | charge tally e =>
    have hsm := h.uncorrected tally e (mem_cons_self _ _)
    cases tally with
    | counter =>
      have hup : 0 ≤ loadFloat t.decodeTokens (t.decodeEntries.charge e).payload.podKey +
          (t.decodeEntries.charge e).payload.acquireCost := by
        rw [hsm]
        exact add_nonneg (hnn _) (h.cost e hmd)
      refine ⟨fun pod => ?_, fun pod => ?_, clamped_addDecode hup⟩
      · rw [moveDecode, loadFloat_addDecode hup, hsm]
        simp [moved]
      · simp [moveDecode, addDecode, moved]
    | inflight =>
      refine ⟨fun pod => ?_, h.addDecodeInflight fun pod => ?_, rfl⟩
      · simp [moveDecode, moved]
      · simp [moved, hsm]
  | uncharge tally e =>
    have hhl := h.toStaged.held_of_uncharge
    cases tally with
    | counter =>
      have hdw : 0 ≤ loadFloat t.decodeTokens (t.decodeEntries.charge e).payload.podKey +
          -(t.decodeEntries.charge e).payload.cost := by
        rw [h.value, ← sub_eq_add_neg, sub_nonneg]
        refine le_total (A := ℚ) ?_ hmd hhl rfl
        exact h.cost
      refine ⟨fun pod => ?_, fun pod => ?_, clamped_addDecode hdw⟩
      · simp [moveDecode, loadFloat_addDecode hdw, moved]
      · simp [moveDecode, addDecode, moved]
    | inflight =>
      refine ⟨fun pod => ?_, h.addDecodeInflight fun pod => ?_, rfl⟩
      · simp [moveDecode, moved]
      · simp [moved]
  | release f e | forgetIfReleased e | forget e => exact ⟨fun _ => (add_zero _).symm, fun _ => (add_zero _).symm, rfl⟩

theorem DecodeOk.exec :
    let r := exec decodeSlots c t.decodeEntries
    DecodeOk r.1 (t.moveDecode c).decodeTokens (t.moveDecode c).decodeInflight (↑r.2 + M) := by
  obtain ⟨hcn, hin, _⟩ := h.moveDecode
  refine ⟨h.toConserved.exec, fun e he => ?_, fun tally e hmem => ?_, fun pod => ?_, fun pod => ?_⟩
  · rw [exec_payload]
    exact h.cost e (by simpa using he)
  · rw [exec_payload]
    have hmem' := (mem_add.1 hmem).resolve_left (charge_not_mem_exec _ _ _ _)
    exact h.uncorrected tally e (mem_cons_of_mem hmem')
  · rw [hcn, h.value, total_exec h.toStaged]
  · rw [hin, h.inflight, total_exec h.toStaged]

end

section

variable (h : DecodeOk t.decodeEntries t.decodeTokens t.decodeInflight M)
include h

theorem DecodeOk.record {entry : DecodeLoadEntry} (hcs : 0 ≤ entry.cost) (hsm : entry.acquireCost = entry.cost)
    (hst : ∀ e, t.decodeEntries.current id = some e → ∀ tally, .charge tally e ∉ M) :
    DecodeOk (t.decodeEntries.record id entry) t.decodeTokens t.decodeInflight
      (↑(t.decodeEntries.afterRecord decodeSlots id) + M) := by
  have hpy : ∀ e < t.decodeEntries.made + 1, (e < t.decodeEntries.made ∧
      (t.decodeEntries.record id entry).charge e = t.decodeEntries.charge e) ∨
      ((t.decodeEntries.record id entry).charge e).payload = entry := by
    intro e he
    rcases Nat.lt_succ_iff_lt_or_eq.1 he with he | rfl
    · exact .inl ⟨he, record_charge_of_lt he⟩
    · exact .inr (by simp)
  have hcn := (h.toConserved.record hst : (t.decodeEntries.record id entry).Conserved decodeSlots _)
  refine ⟨hcn, fun e he => ?_, fun tally e hmem => ?_, fun pod => ?_, fun pod => ?_⟩
  · rcases hpy e he with ⟨he, heq⟩ | heq
    · rw [heq]
      exact h.cost e he
    · rwa [heq]
  · rcases hpy e (hcn.made _ hmem) with ⟨he, heq⟩ | heq
    · rw [heq]
      rcases mem_add.1 hmem with hmem | hmem
      · exact absurd (made_of_charge_mem_afterRecord _ hmem) (ne_of_lt he)
      · exact h.uncorrected tally e hmem
    · rwa [heq]
  · rw [h.value, total_record]
  · rw [h.inflight, total_record]

theorem DecodeOk.pick (hfn : t.decodeEntries.current id = some e) (hst : ∀ tally, .charge tally e ∉ M) :
    DecodeOk t.decodeEntries t.decodeTokens t.decodeInflight (.release () e ::ₘ M) := by
  have hcn : t.decodeEntries.Conserved decodeSlots (↑([.release () e] : List (LedgerCmd Unit Tally)) + M) :=
    h.toConserved.pick (h.found _ _ hfn).1 hst fun c hc => ⟨(), List.mem_singleton.1 hc⟩
  refine ⟨by simpa using hcn, h.cost, fun tally e' hmem => h.uncorrected tally e' (by simpa using hmem),
    fun pod => ?_, fun pod => ?_⟩
  · rw [h.value, total_tail rfl]
  · rw [h.inflight, total_tail rfl]

omit h in
theorem loadInflight_addDecodeInflightTokens (h : 0 < (loadInflight m podKey).1) (pod : String) :
    loadInflight (addDecodeInflightTokens m podKey delta) pod =
      loadInflight m pod + if podKey = pod then (0, 0, delta) else 0 := by
  by_cases hpod : podKey = pod
  · subst hpod
    cases hm : m podKey with
    | none => simp [loadInflight, hm] at h
    | some agg =>
      have hn : 0 < agg.n := by simpa [loadInflight, hm] using h
      simp [loadInflight, addDecodeInflightTokens, hm, hn]
  · rw [if_neg hpod, add_zero]
    simp [loadInflight, addDecodeInflightTokens, update_of_ne (Ne.symm hpod)]

theorem DecodeOk.correct {cost : ℚ} (hmd : e < t.decodeEntries.made)
    (hct : 0 ≤ cost) (hst : ∀ tally, .charge tally e ∉ M) :
    let r := t.correct e cost
    DecodeOk r.decodeEntries r.decodeTokens r.decodeInflight M ∧ r.clamped = t.clamped := by
  unfold Tracker.correct
  dsimp only
  split
  · exact ⟨h, rfl⟩
  rename_i hop
  rw [Bool.or_eq_true, not_or, Bool.not_eq_true] at hop
  set entry := (t.decodeEntries.charge e).payload with hen
  have hhl : ∀ tally, t.decodeEntries.Held decodeSlots M tally e := fun tally => ⟨hst tally, .inl hop.1⟩
  have hcs : ∀ i < t.decodeEntries.made,
      0 ≤ ((t.decodeEntries.amend e { entry with cost }).charge i).payload.cost := by
    intro i hi
    rw [amend_payload]
    split
    · exact hct
    · exact h.cost i hi
  have hcn : ∀ pod, (t.decodeEntries.amend e { entry with cost }).total decodeSlots M .counter (·.podKey = pod)
      (fun entry => entry.cost) = loadFloat t.decodeTokens pod + if entry.podKey = pod then cost - entry.cost else 0 := by
    intro pod
    rw [total_amend hmd (hhl .counter), ← h.value]
    split <;> simp [hen]
  have hup : 0 ≤ loadFloat t.decodeTokens entry.podKey + (cost - entry.cost) := by
    have := hcn entry.podKey
    rw [if_pos rfl] at this
    rw [← this]
    exact total_nonneg hcs
  have hco : 0 < (loadInflight t.decodeInflight entry.podKey).1 := by
    rw [h.inflight]
    exact one_le_heldSum_fst hmd ⟨rfl, hhl .inflight⟩
  refine ⟨⟨h.toConserved.amend, hcs, fun tally e' hmem => ?_, fun pod => ?_, fun pod => ?_⟩,
    clamped_addDecode hup⟩
  · have hne : e' ≠ e := by
      rintro rfl
      exact hst tally hmem
    rw [amend_payload, if_neg hne]
    exact h.uncorrected tally e' hmem
  · rw [loadFloat_addDecode hup, hcn]
  · rw [loadInflight_addDecodeInflightTokens hco, h.inflight, total_amend hmd (hhl .inflight)]
    split <;> simp [hen]

end

theorem Tracker.loadFloat_pruneIdle (part : Part) (pod : String) :
    loadFloat (t.pruneIdle.counters part) pod = loadFloat (t.counters part) pod := by
  rw [← loadFloat_clearTouched (t.counters part)]
  unfold pruneIdle loadFloat
  dsimp only
  split
  · rename_i hid
    simp only [Bool.and_eq_true] at hid
    have hzr : loadFloat (t.counters part) pod = 0 := by
      cases part
      · exact loadFloat_of_idle hid.2.1.1
      · exact loadFloat_of_idle hid.2.1.2
    rw [← loadFloat_clearTouched] at hzr
    exact hzr.symm
  · rfl

theorem Tracker.loadFloat_pruneIdle_decode (pod : String) :
    loadFloat t.pruneIdle.decodeTokens pod = loadFloat t.decodeTokens pod := by
  rw [← loadFloat_clearTouched t.decodeTokens]
  unfold pruneIdle loadFloat
  dsimp only
  split
  · rename_i hid
    simp only [Bool.and_eq_true] at hid
    have hzr := loadFloat_of_idle hid.2.2
    rw [← loadFloat_clearTouched] at hzr
    exact hzr.symm
  · rfl

theorem Tracker.loadInflight_pruneIdle {pod : String}
    (hem : (loadInflight t.decodeInflight pod).1 ≤ 0 → loadInflight t.decodeInflight pod = 0) :
    loadInflight t.pruneIdle.decodeInflight pod = loadInflight t.decodeInflight pod := by
  unfold pruneIdle
  unfold loadInflight at hem ⊢
  dsimp only
  split
  · cases hagg : t.decodeInflight pod with
    | none => rfl
    | some agg =>
      rw [hagg] at hem
      by_cases hn : agg.n = 0
      · rw [hem (le_of_eq hn)]
        simp [Option.filter, hn]
      · simp [Option.filter, hn]
  · rfl

theorem PrefillOk.pruneIdle {M : Multiset (LedgerCmd Part Part)} (h : PrefillOk t.entries t.counters M) :
    PrefillOk t.entries t.pruneIdle.counters M :=
  ⟨h.toConserved, h.cost, fun part pod => (loadFloat_pruneIdle part pod).trans (h.value part pod)⟩

theorem DecodeOk.pruneIdle (h : DecodeOk t.decodeEntries t.decodeTokens t.decodeInflight M) :
    DecodeOk t.decodeEntries t.pruneIdle.decodeTokens t.pruneIdle.decodeInflight M := by
  refine ⟨h.toConserved, h.cost, h.uncorrected, fun pod => ?_, fun pod => ?_⟩
  · rw [loadFloat_pruneIdle_decode, h.value]
  · rw [loadInflight_pruneIdle, h.inflight]
    rw [h.inflight]
    exact heldSum_eq_zero_of_fst

end Aibrix.TokenLoad
