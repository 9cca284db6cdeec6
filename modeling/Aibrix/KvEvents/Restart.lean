import Aibrix.KvEvents.Runs

/-! # Restarts of a publisher

A publisher that restarts numbers its batches from 0, and its live batch 0 resets the stream. Batches of the old one may
still be read from a replay reply. -/

namespace Aibrix.KvEvents

open Lib List KeyMap Client

variable {P E : Type} {decode : P → Option (List E)} {payloadOf : Int → P} {v v' : View P}

section

variable (h : View.Steps decode payloadOf v v')
include h

theorem View.Steps.lastSeq_ge (hv : -1 ≤ v.lastSeq) : -1 ≤ v'.lastSeq := by
  induction h with
  | refl => exact hv
  | tail _ hst ih =>
    cases hst with
    | hand _ =>
      dsimp only at ih ⊢
      omega
    | clear hnx | begin hnx => exact hnx

theorem View.Steps.since (hv : -1 ≤ v.lastSeq) :
    ∃ since, v'.log = v.log ++ since ∧ ∀ x ∈ since, x = .cleared ∨ ∃ k : Nat, x = .batch (payloadOf k) := by
  induction h with
  | refl => exact ⟨[], (append_nil _).symm, nofun⟩
  | tail hst hsp ih =>
    have hls := View.Steps.lastSeq_ge hst hv
    obtain ⟨since, hlog, hsn⟩ := ih
    cases hsp with
    | @hand log last events _ =>
      dsimp only at hlog hls ⊢
      refine ⟨since ++ [.batch (payloadOf (last + 1))], by rw [hlog, append_assoc], ?_⟩
      rw [forall_mem_append, forall_mem_singleton]
      exact ⟨hsn, .inr ⟨(last + 1).toNat, by rw [Int.toNat_of_nonneg (by omega)]⟩⟩
    | clear _ =>
      dsimp only at hlog ⊢
      refine ⟨since ++ [.cleared], by rw [hlog, append_assoc], ?_⟩
      rw [forall_mem_append, forall_mem_singleton]
      exact ⟨hsn, .inl rfl⟩
    | begin _ => exact ⟨since, hlog, hsn⟩

end

/-! ## Batch 0 -/

namespace Client

/-- What the live batch 0 of a publisher leaves. -/
structure Fresh (decode : P → Option (List E)) (base : List (Handover P)) (payload : P) (r : Client P × Outcome) :
    Prop where
  lastSeq_ge : -1 ≤ r.1.lastSeq
  empty : r.1.pending.size = 0
  handed : (decode payload).isSome = true → r.1.lastSeq = 0 ∧ r.1.log = base ++ [.batch payload]

variable {c : Client P} {limit : Nat}

theorem handOver_fresh (payload : P) (hls : c.lastSeq = -1) (hem : c.pending.size = 0) :
    Fresh decode c.log payload (c.handOver decode 0 payload) := by
  unfold handOver handleEventBatch
  cases hdecode : decode payload with
  | none => exact ⟨by dsimp only [Option.map_none]; omega, hem, by simp [hdecode]⟩
  | some events =>
    have hdr : ({ c with log := c.log ++ [.batch payload], lastSeq := 0 } : Client P).drainPendingLocked decode =
        ({ c with log := c.log ++ [.batch payload], lastSeq := 0 }, 0) := if_pos hem
    dsimp only [Option.map_some]
    rw [hdr]
    exact ⟨by dsimp only; omega, hem, fun _ => ⟨rfl, rfl⟩⟩

theorem holdOrHandOver_fresh (payload : P) (hls : c.lastSeq = -1)
    (hem : c.pending.size = 0) : Fresh decode c.log payload (c.holdOrHandOver decode limit 0 payload false) := by
  unfold holdOrHandOver
  rw [if_neg (by omega)]
  exact handOver_fresh payload hls hem

theorem Inv.live_zero (h : c.Inv decode payloadOf limit) (payload : P) :
    ∃ base, Fresh decode base payload (c.applyEventBatch decode limit 0 payload false) := by
  unfold applyEventBatch
  have hrs : (!false && decide ((0 : Int) = 0) && (decide (c.lastSeq ≥ 0) || decide (c.lastLiveSeq ≥ 0))) =
      decide (c.lastSeq ≥ 0 ∨ c.lastLiveSeq ≥ 0) := by simp
  by_cases hsn : c.lastSeq ≥ 0 ∨ c.lastLiveSeq ≥ 0
  · rw [hrs, decide_eq_true hsn]
    exact ⟨_, @holdOrHandOver_fresh P E decode (c.resetEventStreamLocked.observeLive 0) limit payload rfl rfl⟩
  have hls : c.lastSeq = -1 := by
    have := h.lastSeq_ge
    omega
  have hem : c.pending.size = 0 := by
    by_contra hne
    exact hsn (h.observed hne)
  rw [hrs, decide_eq_false hsn, if_neg (by simp [hls])]
  exact ⟨_, holdOrHandOver_fresh payload hls hem⟩

theorem handOver_ne_duplicate (c : Client P) (seq : Int) (payload : P) : (c.handOver decode seq payload).2 ≠ .duplicate := by
  unfold handOver
  cases c.handleEventBatch decode payload with
  | none | some r => nofun

theorem holdOrHandOver_ne_duplicate (c : Client P) (limit : Nat) (seq : Int) (payload : P) (replay : Bool) :
    (c.holdOrHandOver decode limit seq payload replay).2 ≠ .duplicate := by
  unfold holdOrHandOver
  split
  · cases c.bufferPendingLocked limit seq payload with
    | none => exact handOver_ne_duplicate _ _ _
    | some held => nofun
  · exact handOver_ne_duplicate _ _ _

theorem applyEventBatch_duplicate {seq : Int} {payload : P} {replay : Bool}
    (h : (c.applyEventBatch decode limit seq payload replay).2 = .duplicate) : seq ≤ c.lastSeq := by
  unfold applyEventBatch at h
  dsimp only at h
  split at h
  · next hdp =>
    rw [Bool.and_eq_true, decide_eq_true_eq] at hdp
    exact hdp.2
  · exact absurd h (holdOrHandOver_ne_duplicate _ _ _ _ _)

end Client

/-! ## Runs with a restart -/

inductive Arrival
  | new (op : Op)
  /-- A batch of the old publisher, from a replay reply. -/
  | old (seq : Nat)
deriving DecidableEq

section

variable (decode : P → Option (List E)) (old new : Int → P) (limit : Nat)

def Arrival.run (c : Client P) : Arrival → Client P
  | .new op => op.run decode new limit c
  | .old seq => (c.applyEventBatch decode limit seq (old seq) true).1

def arrive (arrivals : List Arrival) (c : Client P) : Client P := arrivals.foldl (Arrival.run decode old new limit) c

def Along (ok : Client P → Arrival → Prop) : Client P → List Arrival → Prop
  | _, [] => True
  | c, a :: arrivals => ok c a ∧ Along ok (a.run decode old new limit c) arrivals

/-- A late batch of the old publisher has a number that the new one has passed. -/
def Arrival.Passed (c : Client P) : Arrival → Prop
  | .new _ => True
  | .old seq => seq ≤ c.lastSeq

/-- No gap is given up: there is room for a batch after a gap, and no batch is held when the wait for one ends. -/
def Arrival.NoGapGivenUp (c : Client P) : Arrival → Prop
  | .new (.live seq) | .new (.replay seq) => c.lastSeq + 1 < seq → c.pending.size < limit
  | .new .recover => c.pending.size = 0 ∨ minSeq c.pending.keys ≤ c.lastSeq + 1
  | .old _ => True

end

/-- Every batch up to the last one has been handed over since. -/
def Client.Covered (new : Int → P) (base : List (Handover P)) (c : Client P) : Prop :=
  0 ≤ c.lastSeq ∧ ∃ since, c.log = base ++ since ∧ ∀ k : Nat, k ≤ c.lastSeq → .batch (new k) ∈ since

variable {old new : Int → P} {limit : Nat} {c : Client P} {base : List (Handover P)} {arrivals : List Arrival}

theorem applyEventBatch_passed {seq : Nat} (hpassed : seq ≤ c.lastSeq) (payload : P) :
    c.applyEventBatch decode limit seq payload true = (c, .duplicate) := by
  have hnonneg : 0 ≤ c.lastSeq := by omega
  unfold applyEventBatch
  simp [hnonneg, hpassed]

/-- Late batches that are passed change nothing. -/
theorem arrive_eq_runAll (h : Along decode old new limit Arrival.Passed c arrivals) :
    ∃ ops, arrive decode old new limit arrivals c = runAll decode new limit ops c := by
  induction arrivals generalizing c with
  | nil => exact ⟨[], rfl⟩
  | cons a arrivals ih =>
    obtain ⟨hpassed, hrest⟩ := h
    obtain ⟨ops, hops⟩ := ih hrest
    cases a with
    | new op => exact ⟨op :: ops, hops⟩
    | old seq =>
      have hsame : Arrival.run decode old new limit c (.old seq) = c :=
        congrArg Prod.fst (applyEventBatch_passed hpassed (old seq))
      refine ⟨ops, ?_⟩
      rw [hsame] at hops
      change arrive decode old new limit arrivals (Arrival.run decode old new limit c (.old seq)) = _
      rw [hsame, hops]

theorem Client.Covered.handOver (hc : c.Covered new base) (h : c.Inv decode new limit) {seq : Int}
    (hseq : seq = c.lastSeq + 1) : (c.handOver decode seq (new seq)).1.Covered new base := by
  unfold Client.handOver handleEventBatch
  cases decode (new seq) with
  | none => exact hc
  | some events =>
    obtain ⟨hnonneg, since, hlog, hsince⟩ := hc
    let handed : Client P := { c with log := c.log ++ [.batch (new seq)], lastSeq := seq }
    have hdrained := @drain_spec P E decode new limit handed ⟨by dsimp only [handed]; omega, h.payload, h.size_le⟩
    obtain ⟨more, hmore, hhanded⟩ := hdrained.handed
    have hle : seq ≤ _ := hdrained.lastSeq_le
    refine ⟨by change 0 ≤ (handed.drainPendingLocked decode).1.lastSeq; omega,
      since ++ .batch (new seq) :: more, ?_, fun k hk => ?_⟩
    · change (handed.drainPendingLocked decode).1.log = _
      rw [hmore]
      simp [handed, hlog]
    · rw [mem_append, mem_cons]
      rcases lt_trichotomy (k : Int) seq with hlt | rfl | hgt
      · exact .inl (hsince k (by omega))
      · exact .inr (.inl rfl)
      · exact .inr (.inr (hhanded k hgt hk))

theorem Client.Covered.holdOrHandOver (hc : c.Covered new base) (h : c.Inv decode new limit) {seq : Nat} {replay : Bool}
    (hnew : c.lastSeq < seq) (hroom : c.lastSeq + 1 < seq → c.pending.size < limit) :
    (c.holdOrHandOver decode limit seq (new seq) replay).1.Covered new base := by
  unfold Client.holdOrHandOver
  split
  · next hgap =>
    rw [bufferPendingLocked, if_neg (Nat.not_le.2 (hroom hgap.1))]
    exact hc
  · next hnext =>
    have hnonneg := hc.1
    exact hc.handOver h (by omega)

theorem Client.Covered.applyEventBatch (hc : c.Covered new base) (h : c.Inv decode new limit)
    (hzero : (decode (new 0)).isSome = true) {seq : Nat} {replay : Bool}
    (hroom : c.lastSeq + 1 < seq → c.pending.size < limit) :
    (c.applyEventBatch decode limit seq (new seq) replay).1.Covered new base := by
  unfold Client.applyEventBatch
  dsimp only
  generalize hrs : (!replay && decide ((seq : Int) = 0) && (decide (c.lastSeq ≥ 0) || decide (c.lastLiveSeq ≥ 0))) = restarted
  split
  · exact hc
  next hdup =>
  cases restarted with
  | true =>
    simp only [Bool.and_eq_true, Bool.not_eq_true', decide_eq_true_eq] at hrs
    obtain ⟨⟨rfl, hseq⟩, -⟩ := hrs
    obtain rfl : seq = 0 := by omega
    obtain ⟨hlast, hlog⟩ :=
      (@holdOrHandOver_fresh P E decode (c.resetEventStreamLocked.observeLive 0) limit (new 0) rfl rfl).handed hzero
    obtain ⟨-, since, hbefore, -⟩ := hc
    refine ⟨hlast.ge, since ++ [.cleared, .batch (new 0)], hlog.trans ?_, fun k hk => ?_⟩
    · change (c.log ++ [.cleared]) ++ _ = _
      simp [hbefore]
    · obtain rfl : k = 0 := by
        have : (k : Int) ≤ 0 := hk.trans hlast.le
        omega
      simp
  | false =>
    have hnew : c.lastSeq < seq := by
      have hnonneg := hc.1
      simpa [hnonneg] using hdup
    cases replay with
    | true => exact hc.holdOrHandOver h hnew hroom
    | false =>
      exact Client.Covered.holdOrHandOver (c := c.observeLive seq) hc (h.observeLive (Int.natCast_nonneg seq)).1 hnew hroom

theorem Client.Covered.arrive (hc : c.Covered new base) (h : c.Inv decode new limit)
    (hzero : (decode (new 0)).isSome = true) (hpassed : Along decode old new limit Arrival.Passed c arrivals)
    (hgaps : Along decode old new limit (Arrival.NoGapGivenUp limit) c arrivals) :
    (arrive decode old new limit arrivals c).Covered new base := by
  induction arrivals generalizing c with
  | nil => exact hc
  | cons a arrivals ih =>
    obtain ⟨hgap, hgaps⟩ := hgaps
    obtain ⟨hpass, hpassed⟩ := hpassed
    cases a with
    | new op =>
      refine ih ?_ (op.run_keeps h).inv hpassed hgaps
      cases op with
      | live seq | replay seq => exact hc.applyEventBatch h hzero hgap
      | recover =>
        have hsame : c.recoverStalledGap decode = c := by
          unfold recoverStalledGap recoverLoop
          rcases hgap with hnone | hnext
          · rw [if_pos hnone]
          · simp only [if_pos hnext, ite_self]
        change (c.recoverStalledGap decode).Covered new base
        rw [hsame]
        exact hc
    | old seq =>
      have hsame : Arrival.run decode old new limit c (.old seq) = c :=
        congrArg Prod.fst (applyEventBatch_passed hpass (old seq))
      rw [hsame] at hpassed hgaps
      change (KvEvents.arrive decode old new limit arrivals (Arrival.run decode old new limit c (.old seq))).Covered new base
      rw [hsame]
      exact ih hc h hpassed hgaps

/-- After the live batch 0 of the new publisher, only its batches are handed over, and none of them is dropped before it
has been handed over. -/
theorem restart_not_mixed (decode : P → Option (List E)) (old new : Int → P) (limit : Nat) (ops : List Op)
    (arrivals : List Arrival) :
    let first := ((runAll decode old limit ops Client.new).applyEventBatch decode limit 0 (new 0) false).1
    let c := arrive decode old new limit arrivals first
    Along decode old new limit Arrival.Passed first arrivals →
    ∃ since, c.log = first.log ++ since ∧ (∀ x ∈ since, x = .cleared ∨ ∃ k : Nat, x = .batch (new k)) ∧
      ((decode (new 0)).isSome = true → Along decode old new limit (Arrival.NoGapGivenUp limit) first arrivals →
        ∀ (k : Nat) (replay : Bool), (c.applyEventBatch decode limit k (new k) replay).2 = .duplicate →
          .batch (new k) ∈ .batch (new 0) :: since) := by
  intro first c hpassed
  have hnew : (Client.new : Client P).Inv decode old limit := .of_empty (le_refl _) rfl
  obtain ⟨base, hfresh⟩ := (runAll_keeps hnew ops).inv.live_zero (new 0)
  have hinv : first.Inv decode new limit := .of_empty hfresh.lastSeq_ge hfresh.empty
  obtain ⟨ops', hops⟩ := arrive_eq_runAll hpassed
  obtain ⟨since, hlog, hsince⟩ := (runAll_keeps hinv ops').steps.since hfresh.lastSeq_ge
  rw [← hops] at hlog
  refine ⟨since, hlog, hsince, fun hzero hgaps k replay hduplicate => ?_⟩
  obtain ⟨hlast, hfirst⟩ := hfresh.handed hzero
  have hcovered : first.Covered new base := by
    refine ⟨hlast.ge, [.batch (new 0)], hfirst, fun k hk => ?_⟩
    obtain rfl : k = 0 := by
      have : (k : Int) ≤ 0 := hk.trans hlast.le
      omega
    exact mem_singleton_self _
  obtain ⟨-, handed, hhanded, hall⟩ := hcovered.arrive hinv hzero hpassed hgaps
  have hsame : handed = .batch (new 0) :: since := by
    have hboth : base ++ handed = base ++ .batch (new 0) :: since := by
      rw [← hhanded]
      refine Eq.trans hlog ?_
      change first.log ++ since = _
      rw [show first.log = base ++ [.batch (new 0)] from hfirst, append_assoc, singleton_append]
    exact append_cancel_left hboth
  exact hsame ▸ hall k (Client.applyEventBatch_duplicate hduplicate)

def batchOf (publisher : Nat) (seq : Int) : Nat × Int := (publisher, seq)

def decodeOne (payload : Nat × Int) : Option (List (Nat × Int)) := some [payload]

theorem restart_not_mixed_late_replay :
    let first := (runAll decodeOne (batchOf 0) 10 [.live 5, .replay 0] Client.new).applyEventBatch decodeOne 10 0 (batchOf 1 0) false
    let c := arrive decodeOne (batchOf 0) (batchOf 1) 10 [.new (.live 2), .new (.replay 1), .old 1] first.1
    c.log = first.1.log ++ [.batch (1, 1), .batch (1, 2)] ∧ ∃ since, c.log = first.1.log ++ since ∧
      ∀ k replay, (c.applyEventBatch decodeOne 10 (k : Nat) (batchOf 1 k) replay).2 = .duplicate →
        .batch (batchOf 1 k) ∈ .batch (batchOf 1 0) :: since := by
  refine ⟨by decide, ?_⟩
  obtain ⟨since, hlog, -, hhanded⟩ := restart_not_mixed decodeOne (batchOf 0) (batchOf 1) 10 [.live 5, .replay 0]
    [.new (.live 2), .new (.replay 1), .old 1] ⟨trivial, trivial, by unfold Arrival.Passed; decide, trivial⟩
  exact ⟨since, hlog, hhanded rfl ⟨fun _ => by decide, fun h => absurd h (by decide), trivial, trivial⟩⟩

/-- A replayed batch 1 of the old publisher is read only after the new publisher's batch 0: it is handed over, and the new
batch 1 is dropped as its duplicate. -/
theorem restart_mixed :
    let before := runAll decodeOne (batchOf 0) 10 [.live 5, .replay 0] Client.new
    let first := before.applyEventBatch decodeOne 10 0 (batchOf 1 0) false
    let late := first.1.applyEventBatch decodeOne 10 1 (batchOf 0 1) true
    let next := late.1.applyEventBatch decodeOne 10 1 (batchOf 1 1) false
    first.2 = .applied 1 ∧ late.2 = .applied 1 ∧ next.2 = .duplicate ∧
      next.1.log = [.batch (0, 0), .cleared, .batch (1, 0), .batch (0, 1)] := by
  decide

end Aibrix.KvEvents
