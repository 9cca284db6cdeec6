import Aibrix.Lib.KeyMap
import Mathlib.Algebra.Order.Group.Int

/-! # The client of a KV event stream

`ZMQClient` of `zmq_client.go`, with what happens under `applyMu`. -/

namespace Aibrix.KvEvents

open Lib

variable {P E : Type}

/-- What the event handler is given: an `AllBlocksCleared` event, or the events of a batch. -/
inductive Handover (P : Type)
  | cleared
  | batch (payload : P)
deriving DecidableEq

structure Client (P : Type) where
  lastSeq : Int
  lastLiveSeq : Int
  pending : KeyMap Int P
  missedEvents : Int
  log : List (Handover P)

def Client.new : Client P := ⟨-1, -1, ∅, 0, []⟩

inductive Outcome
  | duplicate
  | held (replayFrom : Int)
  | applied (numEvents : Nat)
  | failed
deriving DecidableEq

namespace Client

def clearCachedViewLocked (c : Client P) : Client P := { c with log := c.log ++ [.cleared] }

def resetEventStreamLocked (c : Client P) : Client P :=
  { ({ c with pending := ∅, lastLiveSeq := -1 } : Client P).clearCachedViewLocked with lastSeq := -1 }

def continueFrom (seq : Int) (c : Client P) : Client P := { c.clearCachedViewLocked with lastSeq := seq - 1 }

/-- None when the buffer is full. -/
def bufferPendingLocked (maxPendingBatches : Nat) (seq : Int) (payload : P) (c : Client P) : Option (Client P) :=
  if c.pending.size ≥ maxPendingBatches then none else some { c with pending := c.pending.insert seq payload }

def observeLive (seq : Int) (c : Client P) : Client P :=
  let observed := if c.lastSeq < c.lastLiveSeq then c.lastLiveSeq else c.lastSeq
  { c with
    missedEvents := if seq > observed + 1 then c.missedEvents + (seq - observed - 1) else c.missedEvents
    lastLiveSeq := if c.lastLiveSeq < seq then seq else c.lastLiveSeq }

/-- The smallest number, as the loop in `recoverStalledGap` finds it. -/
def minSeq (seqs : List Int) : Int := seqs.foldl (fun least seq => if least < 0 ∨ seq < least then seq else least) (-1)

section decode

variable (decode : P → Option (List E))

def handleEventBatch (payload : P) (c : Client P) : Option (Client P × Nat) :=
  (decode payload).map fun events => ({ c with log := c.log ++ [.batch payload] }, events.length)

def drainLoop : Nat → Client P → Client P × Nat
  | 0, c => (c, 0)
  | fuel + 1, c =>
    let c := { c with pending := c.pending.filterMap fun seq payload => if seq ≤ c.lastSeq then none else some payload }
    match c.pending.lookup (c.lastSeq + 1) with
    | none => (c, 0)
    | some payload =>
      match c.handleEventBatch decode payload with
      | none => (c, 0)
      | some (c, numEvents) =>
        let rest := drainLoop fuel { c with pending := c.pending.erase (c.lastSeq + 1), lastSeq := c.lastSeq + 1 }
        (rest.1, numEvents + rest.2)

def drainPendingLocked (c : Client P) : Client P × Nat :=
  if c.pending.size = 0 then (c, 0) else c.drainLoop decode (c.pending.size + 1)

def recoverLoop : Nat → Client P → Client P
  | 0, c => c
  | fuel + 1, c =>
    if c.pending.size = 0 then c
    else
      let least := minSeq c.pending.keys
      if least ≤ c.lastSeq + 1 then c
      else recoverLoop fuel ((c.continueFrom least).drainPendingLocked decode).1

def recoverStalledGap (c : Client P) : Client P := c.recoverLoop decode (c.pending.size + 1)

def handOver (seq : Int) (payload : P) (c : Client P) : Client P × Outcome :=
  match c.handleEventBatch decode payload with
  | none => (c, .failed)
  | some (c, numEvents) =>
    let drained := ({ c with lastSeq := seq } : Client P).drainPendingLocked decode
    (drained.1, .applied (numEvents + drained.2))

def holdOrHandOver (maxPendingBatches : Nat) (seq : Int) (payload : P) (replay : Bool) (c : Client P) :
    Client P × Outcome :=
  if seq > c.lastSeq + 1 ∧ (replay = false ∨ c.lastSeq ≥ 0) then
    match c.bufferPendingLocked maxPendingBatches seq payload with
    | some held => (held, .held (c.lastSeq + 1))
    | none =>
      -- the gap outgrew the buffer
      ({ c.continueFrom seq with pending := ∅ } : Client P).handOver decode seq payload
  else c.handOver decode seq payload

def applyEventBatch (maxPendingBatches : Nat) (seq : Int) (payload : P) (replay : Bool) (c : Client P) :
    Client P × Outcome :=
  let restarted := !replay && decide (seq = 0) && (decide (c.lastSeq ≥ 0) || decide (c.lastLiveSeq ≥ 0))
  if !restarted && decide (c.lastSeq ≥ 0) && decide (seq ≤ c.lastSeq) then (c, .duplicate)
  else
    let c := if restarted then c.resetEventStreamLocked else c
    let c := if replay then c else c.observeLive seq
    c.holdOrHandOver decode maxPendingBatches seq payload replay

end decode

end Client

/-! ## The handler is given runs of consecutive batches, with an `AllBlocksCleared` event between them -/

open List KeyMap Client

variable (decode : P → Option (List E)) (payloadOf : Int → P)

/-! ## Views -/

/-- What has been handed over, and the number up to which. -/
structure View (P : Type) where
  log : List (Handover P)
  lastSeq : Int

inductive View.Step : View P → View P → Prop
  | hand {log : List (Handover P)} {last : Int} {events : List E} (h : decode (payloadOf (last + 1)) = some events) :
      Step ⟨log, last⟩ ⟨log ++ [.batch (payloadOf (last + 1))], last + 1⟩
  | clear {log : List (Handover P)} {last next : Int} (h : -1 ≤ next) : Step ⟨log, last⟩ ⟨log ++ [.cleared], next⟩
  | begin {log : List (Handover P)} {next : Int} (h : -1 ≤ next) : Step ⟨log, -1⟩ ⟨log, next⟩

abbrev View.Steps : View P → View P → Prop := Relation.ReflTransGen (View.Step decode payloadOf)

def segment (start length : Nat) : List (Handover P) :=
  (List.range' start length).map fun k : Nat => .batch (payloadOf k)

variable {decode payloadOf}

namespace Client

def view (c : Client P) : View P := ⟨c.log, c.lastSeq⟩

structure Buffered (payloadOf : Int → P) (limit : Nat) (c : Client P) : Prop where
  lastSeq_ge : -1 ≤ c.lastSeq
  payload : ∀ {seq p}, c.pending.lookup seq = some p → 0 ≤ seq ∧ p = payloadOf seq
  size_le : c.pending.size ≤ limit

structure Inv (decode : P → Option (List E)) (payloadOf : Int → P) (limit : Nat) (c : Client P) : Prop
    extends Buffered payloadOf limit c where
  ahead : ∀ {seq p}, c.pending.lookup seq = some p → c.lastSeq < seq
  stuck : ∀ {p}, c.pending.lookup (c.lastSeq + 1) = some p → decode p = none
  observed : c.pending.size ≠ 0 → 0 ≤ c.lastSeq ∨ 0 ≤ c.lastLiveSeq

variable {limit : Nat} {c : Client P}

def dropApplied (c : Client P) : Client P :=
  { c with pending := c.pending.filterMap fun seq payload => if seq ≤ c.lastSeq then none else some payload }

theorem lookup_dropApplied (c : Client P) (seq : Int) :
    c.dropApplied.pending.lookup seq = if seq ≤ c.lastSeq then none else c.pending.lookup seq := by
  unfold dropApplied
  rw [lookup_filterMap]
  split
  · rw [Option.bind_fun_none]
  · rw [Option.bind_fun_some]

variable {seq : Int} {payload : P} {fuel : Nat}

theorem lookup_of_dropApplied {p : P} (h : c.dropApplied.pending.lookup seq = some p) :
    c.pending.lookup seq = some p ∧ c.lastSeq < seq := by
  rw [lookup_dropApplied] at h
  split_ifs at h with hle
  exact ⟨h, Int.not_le.1 hle⟩

theorem Buffered.dropApplied (h : c.Buffered payloadOf limit) : c.dropApplied.Buffered payloadOf limit where
  lastSeq_ge := h.lastSeq_ge
  payload hp := h.payload (lookup_of_dropApplied hp).1
  size_le := (size_filterMap_le _).trans h.size_le

def advance (c : Client P) (payload : P) : Client P :=
  { c with
    log := c.log ++ [.batch payload]
    pending := c.pending.erase (c.lastSeq + 1)
    lastSeq := c.lastSeq + 1 }

theorem drainLoop_of_none (h : c.dropApplied.pending.lookup (c.lastSeq + 1) = none) :
    (c.drainLoop decode (fuel + 1)).1 = c.dropApplied := by
  dsimp only [dropApplied] at h
  unfold drainLoop
  dsimp only
  rw [h]
  rfl

theorem drainLoop_of_stuck {payload : P} (h : c.dropApplied.pending.lookup (c.lastSeq + 1) = some payload)
    (hdc : decode payload = none) : (c.drainLoop decode (fuel + 1)).1 = c.dropApplied := by
  dsimp only [dropApplied] at h
  unfold drainLoop handleEventBatch
  dsimp only
  rw [h]
  dsimp only
  rw [hdc]
  rfl

theorem drainLoop_of_some {payload : P} {events : List E}
    (h : c.dropApplied.pending.lookup (c.lastSeq + 1) = some payload) (hdc : decode payload = some events) :
    (c.drainLoop decode (fuel + 1)).1 = ((c.dropApplied.advance payload).drainLoop decode fuel).1 := by
  dsimp only [dropApplied] at h
  rw [drainLoop]
  unfold handleEventBatch
  rw [h]
  dsimp only
  rw [hdc]
  rfl

section

variable (h : c.Buffered payloadOf limit)
include h

theorem Buffered.advance (hlk : c.pending.lookup (c.lastSeq + 1) = some payload) :
    (c.advance payload).Buffered payloadOf limit where
  lastSeq_ge := by
    have := h.lastSeq_ge
    dsimp only [Client.advance]
    omega
  payload {seq p} hp := by
    dsimp only [Client.advance] at hp
    rw [lookup_erase_eq] at hp
    split_ifs at hp
    exact h.payload hp
  size_le := by
    have := size_erase_of_lookup hlk
    have := h.size_le
    dsimp only [Client.advance]
    omega

/-- What a drain does: it hands over consecutive batches, and stops at one that is missing or does not decode. -/
structure Drained (decode : P → Option (List E)) (payloadOf : Int → P) (limit : Nat) (c c' : Client P) : Prop
    extends Buffered payloadOf limit c' where
  ahead : ∀ {seq p}, c'.pending.lookup seq = some p → c'.lastSeq < seq
  stuck : ∀ {p}, c'.pending.lookup (c'.lastSeq + 1) = some p → decode p = none
  steps : View.Steps decode payloadOf c.view c'.view
  lastSeq_le : c.lastSeq ≤ c'.lastSeq
  lastLiveSeq_eq : c'.lastLiveSeq = c.lastLiveSeq
  handed : ∃ since, c'.log = c.log ++ since ∧
    ∀ k : Nat, c.lastSeq < k → k ≤ c'.lastSeq → .batch (payloadOf k) ∈ since
  pending_le : c'.pending.size ≤ c.pending.size

theorem drainLoop_spec (hfl : c.pending.size < fuel) :
    Drained decode payloadOf limit c (c.drainLoop decode fuel).1 := by
  induction fuel generalizing c with
  | zero => omega
  | succ fuel ih =>
    have hdr : c.dropApplied.pending.size ≤ c.pending.size := size_filterMap_le _
    cases hlk : c.dropApplied.pending.lookup _ with
    | none =>
      rw [drainLoop_of_none hlk]
      refine ⟨h.dropApplied, fun hp => (lookup_of_dropApplied hp).2, fun hp => ?_, .refl, le_refl _, rfl,
        ⟨[], (append_nil _).symm, fun k hlt hle => absurd hlt (not_lt.2 hle)⟩, hdr⟩
      exact absurd (hlk.symm.trans hp) nofun
    | some payload =>
      cases hdc : decode payload with
      | none =>
        rw [drainLoop_of_stuck hlk hdc]
        refine ⟨h.dropApplied, fun hp => (lookup_of_dropApplied hp).2, fun hp => ?_, .refl, le_refl _, rfl,
          ⟨[], (append_nil _).symm, fun k hlt hle => absurd hlt (not_lt.2 hle)⟩, hdr⟩
        rw [← Option.some.inj (hlk.symm.trans hp)]
        exact hdc
      | some events =>
        rw [drainLoop_of_some hlk hdc]
        have hsz := size_erase_of_lookup hlk
        have hpy := (h.dropApplied.payload hlk).2
        have had : (c.dropApplied.advance payload).pending.size < c.pending.size := by
          change size (c.dropApplied.pending.erase (c.lastSeq + 1)) < _
          omega
        have hrs := ih (h.dropApplied.advance hlk) (by omega)
        have hhn : View.Step decode payloadOf c.view (c.dropApplied.advance payload).view := by
          subst hpy
          exact .hand hdc
        refine { hrs with steps := .head hhn hrs.steps, lastSeq_le := ?_, handed := ?_, pending_le := ?_ }
        · have := hrs.lastSeq_le
          change c.lastSeq + 1 ≤ _ at this
          omega
        · obtain ⟨since, hlog, hsince⟩ := hrs.handed
          refine ⟨.batch payload :: since, hlog.trans (append_assoc _ _ _), fun k hlt hle => ?_⟩
          rcases eq_or_ne (k : Int) (c.lastSeq + 1) with hk | hk
          · rw [hk, ← hpy]
            exact mem_cons_self
          · refine mem_cons_of_mem _ (hsince k ?_ hle)
            change c.lastSeq + 1 < _
            omega
        · exact hrs.pending_le.trans had.le

theorem drainLoop_size_lt {events : List E} (hfl : c.pending.size < fuel)
    (hlk : c.dropApplied.pending.lookup (c.lastSeq + 1) = some payload)
    (hdc : decode payload = some events) : (c.drainLoop decode fuel).1.pending.size < c.pending.size := by
  obtain ⟨fuel, rfl⟩ : ∃ n, fuel = n + 1 := ⟨fuel - 1, by omega⟩
  have hdr : c.dropApplied.pending.size ≤ c.pending.size := size_filterMap_le _
  have hsz := size_erase_of_lookup hlk
  have had : (c.dropApplied.advance payload).pending.size < c.pending.size := by
    change size (c.dropApplied.pending.erase (c.lastSeq + 1)) < _
    omega
  have hrs := @drainLoop_spec P E decode payloadOf limit _ fuel (h.dropApplied.advance hlk) (by omega)
  rw [drainLoop_of_some hlk hdc]
  exact lt_of_le_of_lt hrs.pending_le had

omit h in
theorem lookup_of_size_eq_zero (h : c.pending.size = 0) (seq : Int) : c.pending.lookup seq = none := by
  rw [Option.eq_none_iff_forall_ne_some]
  intro p hp
  have := size_erase_of_lookup hp
  omega

theorem drain_spec : Drained decode payloadOf limit c (c.drainPendingLocked decode).1 := by
  unfold drainPendingLocked
  split
  · next hem =>
    have hnn := lookup_of_size_eq_zero hem
    exact ⟨h, fun hp => absurd ((hnn _).symm.trans hp) nofun, fun hp => absurd ((hnn _).symm.trans hp) nofun, .refl,
      le_refl _, rfl, ⟨[], (append_nil _).symm, fun k hlt hle => absurd hlt (not_lt.2 hle)⟩, le_refl _⟩
  · exact drainLoop_spec h (Nat.lt_succ_self _)

end

/-! ## Calls -/

structure Keeps (decode : P → Option (List E)) (payloadOf : Int → P) (limit : Nat) (c c' : Client P) : Prop where
  inv : c'.Inv decode payloadOf limit
  steps : View.Steps decode payloadOf c.view c'.view

theorem Drained.inv {c' : Client P} (h : Drained decode payloadOf limit c c')
    (hob : c'.pending.size ≠ 0 → 0 ≤ c'.lastSeq ∨ 0 ≤ c'.lastLiveSeq) : c'.Inv decode payloadOf limit :=
  { h.toBuffered with ahead := h.ahead, stuck := h.stuck, observed := hob }

theorem minSeq_spec {seqs : List Int} (hne : seqs ≠ []) (hnn : ∀ seq ∈ seqs, 0 ≤ seq) :
    minSeq seqs ∈ seqs ∧ ∀ seq ∈ seqs, minSeq seqs ≤ seq := by
  cases seqs with
  | nil => exact absurd rfl hne
  | cons seq seqs =>
    refine foldl_least (fun least seq hls hseq => ?_) hnn
    omega

def Blocked (decode : P → Option (List E)) (c : Client P) : Prop :=
  ∃ p, c.pending.lookup (c.lastSeq + 1) = some p ∧ decode p = none

theorem Inv.least (h : c.Inv decode payloadOf limit) (hne : c.pending.size ≠ 0) :
    (∃ p, c.pending.lookup (minSeq c.pending.keys) = some p) ∧
      ∀ {seq p}, c.pending.lookup seq = some p → minSeq c.pending.keys ≤ seq := by
  have hky : c.pending.keys ≠ [] := by
    intro hnil
    rw [size_eq_length_keys, hnil] at hne
    exact hne rfl
  have hnn : ∀ seq ∈ c.pending.keys, 0 ≤ seq := by
    intro seq hseq
    obtain ⟨p, hp⟩ := mem_iff_lookup.1 (AList.mem_keys.2 hseq)
    exact (h.payload hp).1
  obtain ⟨hmem, hle⟩ := minSeq_spec hky hnn
  exact ⟨mem_iff_lookup.1 (AList.mem_keys.2 hmem), fun hp => hle _ (AList.mem_keys.1 (mem_iff_lookup.2 ⟨_, hp⟩))⟩

theorem Inv.recoverLoop_of_blocked (h : c.Inv decode payloadOf limit) (hbl : c.Blocked decode) (fuel : Nat) :
    c.recoverLoop decode fuel = c := by
  obtain ⟨p, hlk, -⟩ := hbl
  cases fuel with
  | zero => rfl
  | succ fuel =>
    unfold recoverLoop
    split
    · rfl
    · next hne => exact if_pos ((h.least hne).2 hlk)

theorem lookup_continueFrom (hlk : c.pending.lookup seq = some payload) :
    (c.continueFrom seq).dropApplied.pending.lookup ((c.continueFrom seq).lastSeq + 1) = some payload := by
  have hls : (c.continueFrom seq).lastSeq = seq - 1 := rfl
  rw [lookup_dropApplied, hls, Int.sub_add_cancel, if_neg (by omega)]
  exact hlk

theorem Inv.of_empty (hls : -1 ≤ c.lastSeq) (hem : c.pending.size = 0) : c.Inv decode payloadOf limit where
  lastSeq_ge := hls
  payload hp := absurd ((lookup_of_size_eq_zero hem _).symm.trans hp) nofun
  size_le := by omega
  ahead hp := absurd ((lookup_of_size_eq_zero hem _).symm.trans hp) nofun
  stuck hp := absurd ((lookup_of_size_eq_zero hem _).symm.trans hp) nofun
  observed hne := absurd hem hne

section

variable (h : c.Inv decode payloadOf limit)
include h

theorem Inv.continueFrom (hseq : 0 ≤ seq) : (c.continueFrom seq).Buffered payloadOf limit where
  lastSeq_ge := by
    dsimp only [Client.continueFrom]
    omega
  payload := h.payload
  size_le := h.size_le

theorem recoverLoop_spec (hfl : c.pending.size < fuel) :
    let r := c.recoverLoop decode fuel
    Keeps decode payloadOf limit c r ∧ (r.pending.size = 0 ∨ r.Blocked decode) := by
  induction fuel generalizing c with
  | zero => omega
  | succ fuel ih =>
    unfold recoverLoop
    split
    · next hem => exact ⟨⟨h, .refl⟩, .inl hem⟩
    next hne =>
    obtain ⟨⟨payload, hlk⟩, -⟩ := h.least hne
    have hah := h.ahead hlk
    have hlastSeq := h.lastSeq_ge
    dsimp only
    generalize minSeq c.pending.keys = least at hlk hah ⊢
    split
    · next hle =>
      obtain rfl : least = c.lastSeq + 1 := by omega
      exact ⟨⟨h, .refl⟩, .inr ⟨payload, hlk, h.stuck hlk⟩⟩
    next hgap =>
    -- the view is cleared, and the drain begins with the smallest number
    have hnx := lookup_continueFrom hlk
    have hbf := h.continueFrom (by omega : 0 ≤ least)
    have hcl : View.Step decode payloadOf c.view (c.continueFrom least).view := .clear hbf.lastSeq_ge
    have hdr := @drain_spec P E decode payloadOf limit _ hbf
    have hinv : ((c.continueFrom least).drainPendingLocked decode).1.Inv decode payloadOf limit := by
      apply hdr.inv
      have := hdr.lastSeq_le
      change least - 1 ≤ _ at this
      omega
    have hst := Relation.ReflTransGen.head hcl hdr.steps
    have hdn : (c.continueFrom least).drainPendingLocked decode =
        (c.continueFrom least).drainLoop decode (c.pending.size + 1) := if_neg hne
    cases hdc : decode payload with
    | none =>
      have hbl : ((c.continueFrom least).drainPendingLocked decode).1.Blocked decode := by
        rw [hdn, drainLoop_of_stuck hnx hdc]
        exact ⟨payload, hnx, hdc⟩
      rw [hinv.recoverLoop_of_blocked hbl]
      exact ⟨⟨hinv, hst⟩, .inr hbl⟩
    | some events =>
      have hsz : ((c.continueFrom least).drainPendingLocked decode).1.pending.size < c.pending.size := by
        rw [hdn]
        exact drainLoop_size_lt hbf (Nat.lt_succ_self _) hnx hdc
      obtain ⟨hkp, hend⟩ := ih hinv (by omega)
      exact ⟨⟨hkp.inv, hst.trans hkp.steps⟩, hend⟩

theorem recoverStalledGap_spec :
    let r := c.recoverStalledGap decode
    Keeps decode payloadOf limit c r ∧ (r.pending.size = 0 ∨ r.Blocked decode) :=
  recoverLoop_spec h (Nat.lt_succ_self _)

theorem handOver_spec (hseq : 0 ≤ seq)
    (hnx : c.lastSeq + 1 = seq ∨ c.lastSeq = -1) : Keeps decode payloadOf limit c (c.handOver decode seq (payloadOf seq)).1 := by
  unfold handOver handleEventBatch
  cases hdc : decode (payloadOf seq) with
  | none => exact ⟨h, .refl⟩
  | some events =>
    let handed : Client P := { c with log := c.log ++ [.batch (payloadOf seq)], lastSeq := seq }
    have hhd : handed.Buffered payloadOf limit := ⟨by dsimp only [handed]; omega, h.payload, h.size_le⟩
    have hdr := @drain_spec P E decode payloadOf limit handed hhd
    have hle := hdr.lastSeq_le
    have hhn : View.Step decode payloadOf ⟨c.log, seq - 1⟩ handed.view := by
      have hst := @View.Step.hand P E decode payloadOf c.log (seq - 1) events
      rw [Int.sub_add_cancel] at hst
      exact hst hdc
    have hsp : View.Steps decode payloadOf c.view handed.view := by
      rcases hnx with hnx | hnx
      · have : c.view = ⟨c.log, seq - 1⟩ := by
          rw [← hnx, Int.add_sub_cancel]
          rfl
        rw [this]
        exact .single hhn
      · have hbg : View.Step decode payloadOf c.view ⟨c.log, seq - 1⟩ := by
          have : c.view = ⟨c.log, -1⟩ := by rw [← hnx]; rfl
          rw [this]
          exact .begin (by omega)
        exact .head hbg (.single hhn)
    refine ⟨hdr.inv fun _ => .inl ?_, hsp.trans hdr.steps⟩
    change seq ≤ _ at hle
    omega

theorem Inv.observeLive (hseq : 0 ≤ seq) :
    (c.observeLive seq).Inv decode payloadOf limit ∧ 0 ≤ (c.observeLive seq).lastLiveSeq := by
  have hlv : 0 ≤ (c.observeLive seq).lastLiveSeq := by
    dsimp only [Client.observeLive]
    omega
  exact ⟨{ h with observed := fun _ => .inr hlv }, hlv⟩

theorem Inv.buffer (hseq : c.lastSeq + 1 < seq)
    (hob : 0 ≤ c.lastSeq ∨ 0 ≤ c.lastLiveSeq) (hrm : c.pending.size < limit) :
    ({ c with pending := c.pending.insert seq (payloadOf seq) } : Client P).Inv decode payloadOf limit where
  lastSeq_ge := h.lastSeq_ge
  payload {k p} hp := by
    have := h.lastSeq_ge
    rw [lookup_insert_eq] at hp
    split_ifs at hp with hk
    · subst hk
      exact ⟨by omega, (Option.some.inj hp).symm⟩
    · exact h.payload hp
  size_le := by
    cases hlk : c.pending.lookup seq with
    | none =>
      rw [size_insert_of_lookup_eq_none _ hlk]
      omega
    | some p =>
      rw [size_insert_of_lookup _ hlk]
      omega
  ahead {k p} hp := by
    dsimp only at hp ⊢
    rw [lookup_insert_eq] at hp
    split_ifs at hp with hk
    · omega
    · exact h.ahead hp
  stuck {p} hp := by
    dsimp only at hp
    rw [lookup_insert_eq, if_neg (by omega)] at hp
    exact h.stuck hp
  observed _ := hob

omit h in
theorem Keeps.trans {c' c'' : Client P} (h : Keeps decode payloadOf limit c c') (h' : Keeps decode payloadOf limit c' c'') :
    Keeps decode payloadOf limit c c'' :=
  ⟨h'.inv, h.steps.trans h'.steps⟩

theorem Inv.holdOrHandOver {replay : Bool} (hseq : 0 ≤ seq)
    (hls : 0 ≤ c.lastSeq → c.lastSeq < seq) (hlv : replay = false → 0 ≤ c.lastLiveSeq) :
    Keeps decode payloadOf limit c (c.holdOrHandOver decode limit seq (payloadOf seq) replay).1 := by
  have hlastSeq := h.lastSeq_ge
  unfold Client.holdOrHandOver
  split
  · next hgap =>
    unfold bufferPendingLocked
    by_cases hfl : c.pending.size ≥ limit
    · rw [if_pos hfl]
      -- the view is cleared and continues with this batch
      have hinv : ({ c.continueFrom seq with pending := ∅ } : Client P).Inv decode payloadOf limit :=
        .of_empty (by change -1 ≤ seq - 1; omega) rfl
      have hcl : View.Step decode payloadOf c.view ({ c.continueFrom seq with pending := ∅ } : Client P).view :=
        .clear (by change -1 ≤ seq - 1; omega)
      exact .trans ⟨hinv, .single hcl⟩ (handOver_spec hinv hseq (.inl (Int.sub_add_cancel seq 1)))
    · rw [if_neg hfl]
      refine ⟨h.buffer hgap.1 ?_ (Nat.lt_of_not_le hfl), .refl⟩
      exact hgap.2.elim (fun hrp => .inr (hlv hrp)) .inl
  · next hng =>
    apply handOver_spec h hseq
    omega

theorem applyEventBatch_spec (hseq : 0 ≤ seq) (replay : Bool) :
    Keeps decode payloadOf limit c (c.applyEventBatch decode limit seq (payloadOf seq) replay).1 := by
  unfold applyEventBatch
  dsimp only
  generalize hrs : (!replay && decide (seq = 0) && (decide (c.lastSeq ≥ 0) || decide (c.lastLiveSeq ≥ 0))) = restarted
  split
  · exact ⟨h, .refl⟩
  next hnew =>
  cases restarted with
  | true =>
    simp only [Bool.and_eq_true, Bool.not_eq_true', decide_eq_true_eq] at hrs
    obtain ⟨⟨rfl, rfl⟩, -⟩ := hrs
    have hrt : (c.resetEventStreamLocked.observeLive 0).Inv decode payloadOf limit := .of_empty (le_refl _) rfl
    have hcl : View.Step decode payloadOf c.view (c.resetEventStreamLocked.observeLive 0).view := .clear (le_refl _)
    exact .trans ⟨hrt, .single hcl⟩ (hrt.holdOrHandOver (le_refl _) nofun fun _ => le_refl _)
  | false =>
    have hls : 0 ≤ c.lastSeq → c.lastSeq < seq := by
      intro hcd
      simpa [hcd] using hnew
    cases replay with
    | true => exact h.holdOrHandOver hseq hls nofun
    | false =>
      obtain ⟨hinv, hlv⟩ := h.observeLive hseq
      exact .trans ⟨hinv, .refl⟩ (hinv.holdOrHandOver hseq hls fun _ => hlv)

end

end Client

/-! ## Interleavings -/

inductive Op
  | live (seq : Nat)
  | replay (seq : Nat)
  | recover
deriving DecidableEq

def Op.run (decode : P → Option (List E)) (payloadOf : Int → P) (maxPendingBatches : Nat) (op : Op) (c : Client P) :
    Client P :=
  match op with
  | .live seq => (c.applyEventBatch decode maxPendingBatches seq (payloadOf seq) false).1
  | .replay seq => (c.applyEventBatch decode maxPendingBatches seq (payloadOf seq) true).1
  | .recover => c.recoverStalledGap decode

def runAll (decode : P → Option (List E)) (payloadOf : Int → P) (maxPendingBatches : Nat) (ops : List Op) (c : Client P) :
    Client P :=
  ops.foldl (fun c op => op.run decode payloadOf maxPendingBatches c) c

theorem Op.run_keeps {limit : Nat} {c : Client P} (h : c.Inv decode payloadOf limit) (op : Op) :
    Client.Keeps decode payloadOf limit c (op.run decode payloadOf limit c) := by
  cases op with
  | live seq => exact applyEventBatch_spec h (Int.natCast_nonneg seq) false
  | replay seq => exact applyEventBatch_spec h (Int.natCast_nonneg seq) true
  | recover => exact (recoverStalledGap_spec h).1

theorem runAll_keeps {limit : Nat} {c : Client P} (h : c.Inv decode payloadOf limit) (ops : List Op) :
    Client.Keeps decode payloadOf limit c (runAll decode payloadOf limit ops c) := by
  induction ops generalizing c with
  | nil => exact ⟨h, .refl⟩
  | cons op ops ih => exact (op.run_keeps h).trans (ih (op.run_keeps h).inv)

end Aibrix.KvEvents
