import Aibrix.TokenLoad.Tracker

/-! # The tracker under concurrent calls -/

namespace Aibrix.TokenLoad

open Lib List Multiset Function Cmd Ledger Tracker

/-! ## The invariant over what is pending -/

def Cmd.onPrefill : Cmd → Option (LedgerCmd Part Part)
  | .prefill c => some c
  | _ => none

def Cmd.onDecode : Cmd → Option (LedgerCmd Unit Tally)
  | .decode c => some c
  | _ => none

def Cmd.Valid : Cmd → Prop
  | .acquirePrefill _ _ cost _ _ | .acquireDecode _ _ cost _ _ => 0 ≤ cost
  | _ => True

def Cmd.begins : Cmd → Bool
  | .prefill _ | .decode _ | .correctDecode _ _ => false
  | _ => true

variable {c : Cmd} {made : Nat}

theorem Cmd.onPrefill_of_begins (h : c.begins = true) : c.onPrefill = none := by
  cases c <;> first | rfl | cases h

theorem Cmd.onDecode_of_begins (h : c.begins = true) : c.onDecode = none := by
  cases c <;> first | rfl | cases h

structure Underway (made : Nat) (M : Multiset Cmd) : Prop where
  valid : ∀ c ∈ M, c.Valid
  correct : ∀ e cost, .correctDecode e cost ∈ M → e < made ∧ 0 ≤ cost ∧ ∀ tally, .decode (.charge tally e) ∉ M

structure Tracker.Ok (t : Tracker) (M : Multiset Cmd) : Prop where
  prefill : PrefillOk t.entries t.counters (M.filterMap Cmd.onPrefill)
  decode : DecodeOk t.decodeEntries t.decodeTokens t.decodeInflight (M.filterMap Cmd.onDecode)
  underway : Underway t.decodeEntries.made M
  unclamped : t.clamped = false

theorem Underway.step {made' : Nat} {M : Multiset Cmd} {next : List Cmd} (h : Underway made (c ::ₘ M))
    (hmd : made ≤ made') (hvl : ∀ c ∈ next, c.Valid) (hcr : ∀ e cost, .correctDecode e cost ∉ next)
    (hchr : ∀ tally e, .decode (.charge tally e) ∈ next → made ≤ e) : Underway made' (↑next + M) := by
  refine ⟨fun c' hc' => ?_, fun e cost hmem => ?_⟩
  · obtain hc' | hc' := mem_add.1 hc'
    · exact hvl c' hc'
    · exact h.valid c' (mem_cons_of_mem hc')
  have hold := (mem_add.1 hmem).resolve_left (hcr e cost)
  obtain ⟨he, hcs, hst⟩ := h.correct e cost (mem_cons_of_mem hold)
  refine ⟨he.trans_le hmd, hcs, fun tally hch => ?_⟩
  obtain hch | hch := mem_add.1 hch
  · exact absurd he (not_lt.2 (hchr tally e hch))
  · exact hst tally (mem_cons_of_mem hch)

/-! ### What a step of one ledger puts in line -/

variable {t : Tracker} {M : Multiset Cmd}

theorem filterMap_onPrefill_map (l : List (LedgerCmd Part Part)) :
    (↑(l.map prefill) : Multiset Cmd).filterMap onPrefill = ↑l := by
  simp [filterMap_coe, List.filterMap_map, comp_def, onPrefill]

theorem filterMap_onDecode_map (l : List (LedgerCmd Unit Tally)) :
    (↑(l.map decode) : Multiset Cmd).filterMap onDecode = ↑l := by
  simp [filterMap_coe, List.filterMap_map, comp_def, onDecode]

theorem filterMap_onDecode_map_prefill (l : List (LedgerCmd Part Part)) :
    (↑(l.map prefill) : Multiset Cmd).filterMap onDecode = 0 := by
  simp [filterMap_coe, List.filterMap_map, comp_def, onDecode]

theorem filterMap_onPrefill_map_decode (l : List (LedgerCmd Unit Tally)) :
    (↑(l.map decode) : Multiset Cmd).filterMap onPrefill = 0 := by
  simp [filterMap_coe, List.filterMap_map, comp_def, onPrefill]

@[simp] theorem prefill_mem_filterMap {c : LedgerCmd Part Part} : c ∈ M.filterMap Cmd.onPrefill ↔ .prefill c ∈ M := by
  rw [Multiset.mem_filterMap]
  constructor
  · rintro ⟨c', hc', heq⟩
    cases c' <;> cases heq
    exact hc'
  · exact fun hc => ⟨_, hc, rfl⟩

@[simp] theorem decode_mem_filterMap {c : LedgerCmd Unit Tally} : c ∈ M.filterMap Cmd.onDecode ↔ .decode c ∈ M := by
  rw [Multiset.mem_filterMap]
  constructor
  · rintro ⟨c', hc', heq⟩
    cases c' <;> cases heq
    exact hc'
  · exact fun hc => ⟨_, hc, rfl⟩

theorem Underway.prefill (h : Underway made (c ::ₘ M)) (next : List (LedgerCmd Part Part)) :
    Underway made (↑(next.map prefill) + M) := by
  refine h.step le_rfl (fun c hc => ?_) (by simp) (by simp)
  obtain ⟨_, _, rfl⟩ := mem_map.1 hc
  trivial

theorem Underway.decode {made' : Nat} (h : Underway made (c ::ₘ M)) (hmd : made ≤ made')
    {next : List (LedgerCmd Unit Tally)} (hch : ∀ tally e, .charge tally e ∈ next → made ≤ e) :
    Underway made' (↑(next.map decode) + M) := by
  refine h.step hmd (fun c hc => ?_) (by simp) (by simpa using hch)
  obtain ⟨_, _, rfl⟩ := mem_map.1 hc
  trivial

/-! ### Steps -/

namespace Tracker

variable {t' : Tracker} {c : Cmd}

section

variable (h : t.Ok (c ::ₘ M))
include h

theorem Ok.of_prefill (hc : c.onDecode = none) {next : List (LedgerCmd Part Part)}
    (hen : t'.decodeEntries = t.decodeEntries) (htk : t'.decodeTokens = t.decodeTokens)
    (hin : t'.decodeInflight = t.decodeInflight) (hcl : t'.clamped = t.clamped)
    (hpr : PrefillOk t'.entries t'.counters (↑next + M.filterMap Cmd.onPrefill)) :
    t'.Ok (↑(next.map Cmd.prefill) + M) := by
  refine ⟨?_, ?_, ?_, hcl.trans h.unclamped⟩
  · rwa [filterMap_add, filterMap_onPrefill_map]
  · rw [filterMap_add, filterMap_onDecode_map_prefill, zero_add, hen, htk, hin]
    simpa [filterMap_cons_none _ _ hc] using h.decode
  · rw [hen]
    exact h.underway.prefill next

theorem Ok.of_decode (hc : c.onPrefill = none) {next : List (LedgerCmd Unit Tally)}
    (hen : t'.entries = t.entries) (hcn : t'.counters = t.counters) (hcl : t'.clamped = t.clamped)
    (hmd : t.decodeEntries.made ≤ t'.decodeEntries.made)
    (hch : ∀ tally e, .charge tally e ∈ next → t.decodeEntries.made ≤ e)
    (hdc : DecodeOk t'.decodeEntries t'.decodeTokens t'.decodeInflight (↑next + M.filterMap Cmd.onDecode)) :
    t'.Ok (↑(next.map Cmd.decode) + M) := by
  refine ⟨?_, ?_, h.underway.decode hmd hch, hcl.trans h.unclamped⟩
  · rw [filterMap_add, filterMap_onPrefill_map_decode, zero_add, hen, hcn]
    simpa [filterMap_cons_none _ _ hc] using h.prefill
  · rwa [filterMap_add, filterMap_onDecode_map]

theorem Ok.prefill_tail (hc : c.onPrefill = none) : PrefillOk t.entries t.counters (M.filterMap onPrefill) := by
  simpa [filterMap_cons_none _ _ hc] using h.prefill

theorem Ok.decode_tail (hc : c.onDecode = none) :
    DecodeOk t.decodeEntries t.decodeTokens t.decodeInflight (M.filterMap onDecode) := by
  simpa [filterMap_cons_none _ _ hc] using h.decode

end

theorem Ok.prefillStep {c : LedgerCmd Part Part} (h : t.Ok (.prefill c ::ₘ M)) :
    (exec (.prefill c) t).1.Ok (↑(exec (.prefill c) t).2 + M) := by
  have hpr : PrefillOk t.entries t.counters (c ::ₘ M.filterMap Cmd.onPrefill) := by
    simpa [filterMap_cons_some Cmd.onPrefill (.prefill c) M rfl] using h.prefill
  refine h.of_prefill rfl ?_ ?_ ?_ hpr.movePrefill.2 hpr.exec <;> cases c <;> rfl

theorem Ok.decodeStep {c : LedgerCmd Unit Tally} (h : t.Ok (.decode c ::ₘ M)) :
    (exec (.decode c) t).1.Ok (↑(exec (.decode c) t).2 + M) := by
  have hdc : DecodeOk t.decodeEntries t.decodeTokens t.decodeInflight (c ::ₘ M.filterMap Cmd.onDecode) := by
    simpa [filterMap_cons_some Cmd.onDecode (.decode c) M rfl] using h.decode
  refine h.of_decode rfl ?_ ?_ hdc.moveDecode.2.2 (exec_made _ _).ge
    (fun tally e hmem => absurd hmem (charge_not_mem_exec _ _ _ _)) hdc.exec
  · cases c with
    | charge tally e | uncharge tally e => cases tally <;> rfl
    | release | forgetIfReleased | forget => rfl
  · cases c with
    | charge tally e | uncharge tally e => cases tally <;> rfl
    | release | forgetIfReleased | forget => rfl

theorem Ok.skip (h : t.Ok (c ::ₘ M)) (hpr : c.onPrefill = none) (hdc : c.onDecode = none) :
    t.Ok (↑([] : List Cmd) + M) := by
  change t.Ok (↑(List.map Cmd.prefill []) + M)
  exact h.of_prefill hdc rfl rfl rfl rfl (by simpa using h.prefill_tail hpr)

variable {e : Nat} {requestID : String} {cost : ℚ}

theorem Ok.pick {next : List (LedgerCmd Part Part)} (h : t.Ok (c ::ₘ M))
    (hpr : c.onPrefill = none) (hdc : c.onDecode = none) (hfn : t.entries.current requestID = some e)
    (hst : ∀ part, .prefill (.charge part e) ∉ c ::ₘ M) (hnx : ∀ c ∈ next, ∃ part, c = .release part e) :
    t.Ok (↑(next.map Cmd.prefill) + M) := by
  refine h.of_prefill hdc rfl rfl rfl rfl ((h.prefill_tail hpr).pick hfn (fun part hmem => ?_) hnx)
  exact hst part (mem_cons_of_mem (prefill_mem_filterMap.1 hmem))

theorem Ok.pickDecode (h : t.Ok (c ::ₘ M)) (hpr : c.onPrefill = none)
    (hdc : c.onDecode = none) (hfn : t.decodeEntries.current requestID = some e)
    (hst : ∀ tally, .decode (.charge tally e) ∉ c ::ₘ M) : t.Ok (↑([.decode (.release () e)] : List Cmd) + M) := by
  change t.Ok (↑(List.map Cmd.decode [.release () e]) + M)
  apply h.of_decode hpr rfl rfl rfl le_rfl (by simp)
  refine (h.decode_tail hdc).pick hfn fun tally hmem => ?_
  exact hst tally (mem_cons_of_mem (decode_mem_filterMap.1 hmem))

theorem Ok.acquirePrefill {podKey : String} {since ttl : ℚ}
    (h : t.Ok (.acquirePrefill requestID podKey cost since ttl ::ₘ M))
    (hst : ∀ e, t.entries.current requestID = some e → ∀ part, .prefill (.charge part e) ∉ M) :
    (exec (.acquirePrefill requestID podKey cost since ttl) t).1.Ok
      (↑(exec (.acquirePrefill requestID podKey cost since ttl) t).2 + M) := by
  have hcs : 0 ≤ cost := h.underway.valid _ (mem_cons_self _ _)
  refine h.of_prefill rfl rfl rfl rfl rfl ((h.prefill_tail rfl).record hcs fun e hfn part hmem => ?_)
  exact hst e hfn part (prefill_mem_filterMap.1 hmem)

theorem Ok.acquireDecode {podKey : String} {since ttl : ℚ}
    (h : t.Ok (.acquireDecode requestID podKey cost since ttl ::ₘ M))
    (hst : ∀ e, t.decodeEntries.current requestID = some e → ∀ tally, .decode (.charge tally e) ∉ M) :
    (exec (.acquireDecode requestID podKey cost since ttl) t).1.Ok
      (↑(exec (.acquireDecode requestID podKey cost since ttl) t).2 + M) := by
  have hcs : 0 ≤ cost := h.underway.valid _ (mem_cons_self _ _)
  refine h.of_decode rfl rfl rfl rfl (Nat.le_succ _)
    (fun tally e hmem => (made_of_charge_mem_afterRecord _ hmem).ge)
    ((h.decode_tail rfl).record hcs rfl fun e hfn tally hmem => ?_)
  exact hst e hfn tally (decode_mem_filterMap.1 hmem)

theorem Ok.correctLookup (h : t.Ok (.correctDecodeCost requestID cost ::ₘ M))
    (hcs : 0 ≤ cost) (hfn : t.decodeEntries.current requestID = some e)
    (hst : ∀ tally, .decode (.charge tally e) ∉ M) : t.Ok (.correctDecode e cost ::ₘ M) := by
  refine ⟨?_, ?_, ⟨fun c hc => ?_, fun e' cost' hmem => ?_⟩, h.unclamped⟩
  · rw [filterMap_cons_none _ _ rfl]
    exact h.prefill_tail rfl
  · rw [filterMap_cons_none _ _ rfl]
    exact h.decode_tail rfl
  · obtain rfl | hc := mem_cons.1 hc
    · trivial
    · exact h.underway.valid c (mem_cons_of_mem hc)
  · obtain heq | hmem := mem_cons.1 hmem
    · cases heq
      exact ⟨(h.decode.found _ _ hfn).1, hcs, by simpa using hst⟩
    · simpa using h.underway.correct e' cost' (mem_cons_of_mem hmem)

theorem Ok.correct (h : t.Ok (.correctDecode e cost ::ₘ M)) : (t.correct e cost).Ok M := by
  obtain ⟨hmd, hcs, hst⟩ := h.underway.correct e cost (mem_cons_self _ _)
  have hdc := (h.decode_tail rfl).correct hmd hcs fun tally hmem =>
    hst tally (mem_cons_of_mem (decode_mem_filterMap.1 hmem))
  have hrs : (t.correct e cost).entries = t.entries ∧ (t.correct e cost).counters = t.counters ∧
      (t.correct e cost).decodeEntries.made = t.decodeEntries.made := by
    unfold Tracker.correct
    dsimp only
    split <;> exact ⟨rfl, rfl, rfl⟩
  have hok : (t.correct e cost).Ok (↑(List.map Cmd.decode []) + M) :=
    h.of_decode rfl hrs.1 hrs.2.1 hdc.2 hrs.2.2.ge (by simp) (by simpa using hdc.1)
  simpa using hok

theorem Ok.prune (h : t.Ok (.pruneIdle ::ₘ M)) : t.pruneIdle.Ok M := by
  refine ⟨(h.prefill_tail rfl).pruneIdle, (h.decode_tail rfl).pruneIdle, ⟨fun c hc => ?_, fun e cost hmem => ?_⟩, h.unclamped⟩
  · exact h.underway.valid c (mem_cons_of_mem hc)
  · obtain ⟨hmd, hcs, hst⟩ := h.underway.correct e cost (mem_cons_of_mem hmem)
    exact ⟨hmd, hcs, by simpa using hst⟩

theorem Ok.exec (h : t.Ok (c ::ₘ M)) (hst : Settled t (c ::ₘ M) c) : (exec c t).1.Ok (↑(exec c t).2 + M) := by
  cases c with
  | acquirePrefill requestID podKey cost since ttl =>
    exact h.acquirePrefill fun e hfn part hmem => hst.1 e hfn part (mem_cons_of_mem hmem)
  | release part requestID =>
    cases hfn : t.picks (.release part requestID) with
    | none => simpa [exec, hfn] using h.skip rfl rfl
    | some e =>
      have hpc : t.Ok (↑(List.map Cmd.prefill [.release part e]) + M) :=
        h.pick rfl rfl hfn (hst.1 e hfn) fun c hc => ⟨part, List.mem_singleton.1 hc⟩
      simpa [exec, hfn] using hpc
  | sweep requestID now =>
    cases hfn : t.picks (.sweep requestID now) with
    | none => simpa [exec, hfn] using h.skip rfl rfl
    | some e =>
      have hcr : t.entries.current requestID = some e := (Option.filter_eq_some_iff.1 hfn).1
      simpa [exec, hfn] using h.pick rfl rfl hcr (hst.1 e hfn) fun c hc => SlotFamily.mem_releases.1 hc
  | prefill c => exact h.prefillStep
  | acquireDecode requestID podKey cost since ttl =>
    exact h.acquireDecode fun e hfn tally hmem => hst.2 e hfn tally (mem_cons_of_mem hmem)
  | releaseDecode requestID =>
    cases hfn : t.picksDecode (.releaseDecode requestID) with
    | none => simpa [exec, hfn] using h.skip rfl rfl
    | some e => simpa [exec, hfn] using h.pickDecode rfl rfl hfn (hst.2 e hfn)
  | sweepDecode requestID now =>
    cases hfn : t.picksDecode (.sweepDecode requestID now) with
    | none => simpa [exec, hfn] using h.skip rfl rfl
    | some e =>
      have hcr : t.decodeEntries.current requestID = some e := (Option.filter_eq_some_iff.1 hfn).1
      simpa [exec, hfn] using h.pickDecode rfl rfl hcr (hst.2 e hfn)
  | decode c => exact h.decodeStep
  | correctDecodeCost requestID cost =>
    cases hfn : t.picksDecode (.correctDecodeCost requestID cost) with
    | none => simpa [exec, hfn] using h.skip rfl rfl
    | some e =>
      have hin : (0 ≤ cost ∧ cost ≤ maxCorrectedDecodeCost) ∧ t.decodeEntries.current requestID = some e := by
        simpa [picksDecode] using hfn
      simpa [exec, hfn] using h.correctLookup hin.1.1 hin.2
        fun tally hmem => hst.2 e hfn tally (mem_cons_of_mem hmem)
  | correctDecode e cost => simpa [exec] using h.correct
  | pruneIdle => simpa [exec] using h.prune

theorem Ok.empty : empty.Ok 0 := by
  refine ⟨⟨.of_unused rfl fun _ => rfl, ?_, fun part pod => (total_of_unused rfl).symm⟩,
    ⟨.of_unused rfl fun _ => rfl, ?_, by simp, fun pod => (total_of_unused rfl).symm,
      fun pod => (total_of_unused rfl).symm⟩, ⟨by simp, by simp⟩, rfl⟩ <;> simp [Tracker.empty]

theorem begins_of_mem_program {call : Call} (hvl : call.Valid) (hc : c ∈ call.program) : c.begins = true ∧ c.Valid := by
  cases call with
  | acquirePrefillWithTTL | acquireDecodeWithTTL =>
    obtain rfl := List.mem_singleton.1 hc
    exact ⟨rfl, hvl⟩
  | releaseTokens | releaseKVCache | releaseDecode | correctDecodeCost | pruneIdle =>
    obtain rfl := List.mem_singleton.1 hc
    exact ⟨rfl, trivial⟩
  | releaseAll requestID =>
    simp only [Call.program, List.mem_cons, List.not_mem_nil, or_false] at hc
    rcases hc with rfl | rfl | rfl <;> exact ⟨rfl, trivial⟩
  | sweepExpired now requestIDs decodeRequestIDs =>
    rcases List.mem_append.1 hc with hc | hc <;> obtain ⟨_, _, rfl⟩ := List.mem_map.1 hc <;> exact ⟨rfl, trivial⟩

theorem Ok.start {call : Call} (h : t.Ok M) (hvl : call.Valid) : t.Ok (↑call.program + M) := by
  have hbg : ∀ c ∈ call.program, c.begins = true := fun c hc => (begins_of_mem_program hvl hc).1
  have hpr : (↑call.program : Multiset Cmd).filterMap onPrefill = 0 := by
    rw [filterMap_coe, filterMap_eq_nil_iff.2 fun c hc => onPrefill_of_begins (hbg c hc)]
    rfl
  have hdc : (↑call.program : Multiset Cmd).filterMap onDecode = 0 := by
    rw [filterMap_coe, filterMap_eq_nil_iff.2 fun c hc => onDecode_of_begins (hbg c hc)]
    rfl
  refine ⟨?_, ?_, ⟨fun c hc => ?_, fun e cost hmem => ?_⟩, h.unclamped⟩
  · rw [filterMap_add, hpr, zero_add]
    exact h.prefill
  · rw [filterMap_add, hdc, zero_add]
    exact h.decode
  · obtain hc | hc := mem_add.1 hc
    · exact (begins_of_mem_program hvl hc).2
    · exact h.underway.valid c hc
  · have hold := (mem_add.1 hmem).resolve_left fun hnew => by simpa [begins] using hbg _ hnew
    obtain ⟨hmd, hcs, hst⟩ := h.underway.correct e cost hold
    refine ⟨hmd, hcs, fun tally hch => ?_⟩
    obtain hch | hch := mem_add.1 hch
    · simpa [begins] using hbg _ hch
    · exact hst tally hch

end Tracker

structure Tracker.Balanced (t : Tracker) : Prop where
  counters : ∀ part pod, loadFloat (t.counters part) pod = heldSum t.entries.made
      (fun e => (t.entries.charge e).payload.podKey = pod ∧ (t.entries.charge e).released part = false)
      fun e => (t.entries.charge e).payload.cost
  decodeTokens : ∀ pod, loadFloat t.decodeTokens pod = heldSum t.decodeEntries.made
      (fun e => (t.decodeEntries.charge e).payload.podKey = pod ∧ (t.decodeEntries.charge e).released () = false)
      fun e => (t.decodeEntries.charge e).payload.cost
  /-- The number of the unreleased decode charges, and the sums of their times and current costs. -/
  decodeInflight : ∀ pod, loadInflight t.decodeInflight pod = heldSum t.decodeEntries.made
      (fun e => (t.decodeEntries.charge e).payload.podKey = pod ∧ (t.decodeEntries.charge e).released () = false)
      fun e => ((1 : ℤ), (t.decodeEntries.charge e).payload.acquiredAt, (t.decodeEntries.charge e).payload.cost)
  entries : ∀ requestID e, t.entries.current requestID = some e ↔
    e < t.entries.made ∧ (t.entries.charge e).key = requestID ∧ ∃ part, (t.entries.charge e).released part = false
  decodeEntries : ∀ requestID e, t.decodeEntries.current requestID = some e ↔
    e < t.decodeEntries.made ∧ (t.decodeEntries.charge e).key = requestID ∧
      (t.decodeEntries.charge e).released () = false

theorem Tracker.Ok.balanced (h : t.Ok 0) : t.Balanced := by
  refine ⟨fun part pod => ?_, fun pod => ?_, fun pod => ?_, fun requestID e => ?_, fun requestID e => ?_⟩
  · exact (h.prefill.value part pod).trans total_zero
  · exact (h.decode.value pod).trans total_zero
  · exact (h.decode.inflight pod).trans total_zero
  · exact h.prefill.current_iff requestID e
  · rw [h.decode.current_iff requestID e]
    exact and_congr_right' (and_congr_right' ⟨fun ⟨_, hfr⟩ => hfr, fun hfr => ⟨(), hfr⟩⟩)

theorem settled_interleaving_balanced {p : Pool Tracker Cmd} (h : settledInterleaving.Reachable Tracker.empty p) :
    p.state.clamped = false ∧ (p.Quiet → p.state.Balanced) := by
  have hok : p.state.Ok p.pending := by
    refine h.invariant Tracker.Ok.empty ?_ fun t M c hsettled hok => hok.exec hsettled
    rintro t M commands ⟨call, hvalid, rfl⟩ hok
    exact hok.start hvalid
  refine ⟨hok.unclamped, fun hquiet => ?_⟩
  rw [hquiet] at hok
  exact hok.balanced

def runCall (call : Call) (thread steps : Nat) : List (System.Action Cmd) :=
  .start call.program :: List.replicate steps (.run thread)

theorem settled_interleaving_balanced_corrected :
    ∃ p, settledInterleaving.Reachable Tracker.empty p ∧ p.Quiet ∧ p.state.Balanced ∧ p.state.clamped = false ∧
      loadFloat (p.state.counters .tokens) "pod" = 0 ∧ loadFloat (p.state.counters .kv) "pod" = 4 ∧
      loadFloat p.state.decodeTokens "pod" = 7 ∧ loadInflight p.state.decodeInflight "pod" = (1, 10, 7) := by
  let schedule := runCall (.acquirePrefillWithTTL "r" "pod" 4 10 60) 0 3 ++ runCall (.releaseTokens "r") 1 4 ++
    runCall (.acquireDecodeWithTTL "r" "pod" 5 10 60) 2 3 ++ runCall (.correctDecodeCost "r" 7) 3 2 ++
    runCall (.sweepExpired 20 ["r"] ["r"]) 4 2 ++ runCall .pruneIdle 5 1
  have hlegal : settledInterleaving.Legal ⟨empty, []⟩ schedule := by
    refine ⟨fun commands hmem => ?_, by decide +kernel⟩
    simp only [schedule, runCall, List.mem_append, List.mem_cons, List.mem_replicate, reduceCtorEq, and_false,
      or_false, System.Action.start.injEq] at hmem
    rcases hmem with ((((rfl | rfl) | rfl) | rfl) | rfl) | rfl <;> exact ⟨_, by decide +kernel, rfl⟩
  have hreach := System.Reachable.play (.refl : settledInterleaving.Reachable empty ⟨empty, []⟩) hlegal
  have hquiet : (settledInterleaving.play ⟨empty, []⟩ schedule).Quiet := by
    unfold Pool.Quiet
    decide +kernel
  obtain ⟨hclamped, hbalanced⟩ := settled_interleaving_balanced hreach
  exact ⟨_, hreach, hquiet, hbalanced hquiet, hclamped, by decide +kernel, by decide +kernel, by decide +kernel,
    by decide +kernel⟩

def racingAcquires : List (System.Action Cmd) :=
  runCall (.acquirePrefillWithTTL "r" "pod" 1 0 0) 0 1 ++ runCall (.acquirePrefillWithTTL "r" "pod" 1 0 0) 1 10 ++
    List.replicate 2 (.run 0)

def stalledAcquire : List (System.Action Cmd) :=
  runCall (.acquirePrefillWithTTL "r" "pod" 1 0 1) 0 1 ++ runCall (.sweepExpired 5 ["r"] []) 1 8 ++
    List.replicate 2 (.run 0)

def EndsUnbalanced (schedule : List (System.Action Cmd)) : Prop :=
  anyInterleaving.Legal ⟨Tracker.empty, []⟩ schedule ∧ (anyInterleaving.play ⟨Tracker.empty, []⟩ schedule).Quiet ∧
    (anyInterleaving.play ⟨Tracker.empty, []⟩ schedule).state.clamped = true ∧
    ¬ (anyInterleaving.play ⟨Tracker.empty, []⟩ schedule).state.Balanced

theorem early_pick_unbalanced : EndsUnbalanced racingAcquires ∧ EndsUnbalanced stalledAcquire := by
  refine ⟨⟨⟨fun commands hmem => ?_, by decide +kernel⟩, ?_, by decide +kernel, fun hbalanced => ?_⟩,
    ⟨⟨fun commands hmem => ?_, by decide +kernel⟩, ?_, by decide +kernel, fun hbalanced => ?_⟩⟩
  · simp [racingAcquires, runCall] at hmem
    subst hmem
    exact ⟨_, by decide +kernel, rfl⟩
  · unfold Pool.Quiet
    decide +kernel
  · -- The counter shows 2, and the one charge that is left costs 1.
    have htokens := hbalanced.counters .tokens "pod"
    have hsplit := htokens.trans (heldSum_split (show 1 < _ by decide +kernel) _ _)
    rw [heldSum_eq_zero, if_pos] at hsplit
    · exact absurd hsplit (by decide +kernel)
    all_goals decide +kernel
  · simp [stalledAcquire, runCall] at hmem
    rcases hmem with rfl | rfl <;> exact ⟨_, by decide +kernel, rfl⟩
  · unfold Pool.Quiet
    decide +kernel
  · have htokens := hbalanced.counters .tokens "pod"
    rw [heldSum_eq_zero] at htokens
    · exact absurd htokens (by decide +kernel)
    · decide +kernel

end Aibrix.TokenLoad
