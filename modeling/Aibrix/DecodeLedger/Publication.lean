import Aibrix.Lib.Threads
import Mathlib.Algebra.Order.Ring.Rat
import Mathlib.Data.Finset.Basic

/-! # Publishing the decode ledger

`decodeLedgerPublisher` of `cache_decode_ledger.go`. -/

namespace Aibrix.DecodeLedger

open Lib

structure DecodeLedgerState where
  tokens : ℚ := 0
  charges : Int := 0
  sumChargedAt : ℚ := 0
  deriving DecidableEq

def DecodeLedgerState.isZero (state : DecodeLedgerState) : Bool := state.tokens = 0 && state.charges = 0

structure LedgerValue where
  tokens : ℚ
  charges : Int
  sumAt : ℚ
  deriving DecidableEq

/-- The field of a ledger, with its charge times on a clock that is ahead by so many milliseconds. -/
def ledgerValue (offsetMillis : Int) (state : DecodeLedgerState) : Option LedgerValue :=
  if state.isZero then none
  else some ⟨state.tokens, state.charges, state.sumChargedAt + state.charges * ((offsetMillis : ℚ) / 1000)⟩

abbrev Write := String × Option LedgerValue

inductive Phase where
  | idle
  | woken
  | batched (batch : List String)
  | reading (offsetMillis : Int) (batch : List String) (writes : List Write)
  | executed (writes : List Write) (ok : Bool)
  deriving DecidableEq

/-- From the swap of the dirty set to the update of the sets after the pipeline. -/
def Phase.flushing : Phase → Bool
  | .idle | .woken => false
  | .batched _ | .reading .. | .executed .. => true

structure Publisher where
  ledger : String → DecodeLedgerState := fun _ => {}
  dirty : Finset String := ∅
  published : Finset String := ∅
  redis : String → Option LedgerValue := fun _ => none
  clockOffsetMillis : Int := 0
  pastOffsets : List Int := []
  phase : Phase := .idle

/-- How a pipeline ends. One that fails may have written any of its fields. -/
inductive Outcome where
  | ok
  | failed (took : String → Bool)

def Outcome.took : Outcome → String → Bool
  | .ok, _ => true
  | .failed took, podKey => took podKey

def Outcome.isOk : Outcome → Bool
  | .ok => true
  | .failed _ => false

inductive Cmd where
  | change (podKey : String) (state : DecodeLedgerState) (more : List DecodeLedgerState)
  | notify (podKey : String) (more : List DecodeLedgerState)
  | syncClock (offsetMillis : Int)
  | wake
  | tick
  | flush (batch : List String)
  | readOffset
  | readNext
  | execPipeline (outcome : Outcome)
  | finish

namespace Publisher

def markDirty (p : Publisher) (podKey : String) : Publisher := { p with dirty := insert podKey p.dirty }

def write (took : String → Bool) (redis : String → Option LedgerValue) (w : Write) : String → Option LedgerValue :=
  if took w.1 then Function.update redis w.1 w.2 else redis

/-- A pod that was written as zero is not republished. -/
def setPublished (published : Finset String) (w : Write) : Finset String :=
  if w.2.isNone then published.erase w.1 else insert w.1 published

def pods (writes : List Write) : List String := writes.map Prod.fst

def advance (p : Publisher) : Cmd → Publisher
  | .wake => if p.phase = .idle then { p with phase := .woken } else p
  | .tick => if p.phase = .idle then { p with dirty := p.dirty ∪ p.published, phase := .woken } else p
  | .flush batch =>
    if p.phase = .woken then
      if p.dirty = ∅ then { p with phase := .idle } else { p with dirty := ∅, phase := .batched batch }
    else p
  | .readOffset =>
    match p.phase with
    | .batched batch => { p with phase := .reading p.clockOffsetMillis batch [] }
    | _ => p
  | .readNext =>
    match p.phase with
    | .reading offsetMillis (podKey :: batch) writes =>
      { p with phase := .reading offsetMillis batch (writes ++ [(podKey, ledgerValue offsetMillis (p.ledger podKey))]) }
    | _ => p
  | .execPipeline outcome =>
    match p.phase with
    | .reading _ [] writes =>
      { p with redis := writes.foldl (write outcome.took) p.redis, phase := .executed writes outcome.isOk }
    | _ => p
  | .finish =>
    match p.phase with
    | .executed writes true =>
      { p with published := writes.foldl setPublished p.published, phase := .idle }
    | .executed writes false => { p with dirty := p.dirty ∪ (pods writes).toFinset, phase := .idle }
    | _ => p
  | _ => p

def exec : Cmd → Publisher → Publisher × List Cmd
  | .change podKey state more, p => ({ p with ledger := Function.update p.ledger podKey state }, [.notify podKey more])
  | .notify podKey (state :: more), p =>
    ({ p with ledger := Function.update p.ledger podKey state }, [.notify podKey more])
  | .notify podKey [], p => (p.markDirty podKey, [])
  | .syncClock offsetMillis, p =>
    ({ p with clockOffsetMillis := offsetMillis, pastOffsets := p.clockOffsetMillis :: p.pastOffsets }, [])
  | c, p => (p.advance c, [])

end Publisher

/-- A call changes the ledger of one pod, in one step or several, and then marks it. -/
def isProgram : List Cmd → Bool
  | [.notify ..] => false
  | [_] => true
  | _ => false

def Allowed (p : Publisher) : Cmd → Prop
  | .flush batch => p.phase = .woken → batch.Nodup ∧ batch.toFinset = p.dirty
  | _ => True

instance (p : Publisher) (c : Cmd) : Decidable (Allowed p c) := by
  cases c <;> unfold Allowed <;> infer_instance

def system : System Publisher Cmd where
  exec := Publisher.exec
  program commands := isProgram commands
  allowed p _ c := Allowed p c

instance : DecidablePred system.program := fun commands => inferInstanceAs (Decidable (isProgram commands = true))

instance (p : Publisher) (M : Multiset Cmd) (c : Cmd) : Decidable (system.allowed p M c) :=
  inferInstanceAs (Decidable (Allowed p c))

/-! ## No change of the ledger is lost

A pod whose field is not up to date is dirty, or about to be marked, or in the batch that is being written. -/

open List Multiset Option Publisher Finset Phase

/-! ## The loops over a batch -/

section
variable {S A : Type} {step : S → Write → S} (obs : S → A) {podKey : String}

theorem foldl_of_not_mem (hot : ∀ s w, w.1 ≠ podKey → obs (step s w) = obs s) {writes : List Write}
    (hnot : podKey ∉ pods writes) (s : S) : obs (writes.foldl step s) = obs s := by
  induction writes generalizing s with
  | nil => rfl
  | cons w writes ih =>
    simp only [pods, List.map_cons, List.mem_cons, not_or] at hnot
    rw [List.foldl_cons, ih hnot.2, hot s w (Ne.symm hnot.1)]

theorem foldl_of_mem (hot : ∀ s w, w.1 ≠ podKey → obs (step s w) = obs s) {writes : List Write} {a : A} {w : Write}
    (hnd : (pods writes).Nodup) (hmem : w ∈ writes) (hkey : w.1 = podKey)
    (hset : ∀ s, obs (step s w) = a) (s : S) : obs (writes.foldl step s) = a := by
  induction writes generalizing s with
  | nil => simp at hmem
  | cons w' writes ih =>
    rw [pods, List.map_cons, List.nodup_cons] at hnd
    rw [List.foldl_cons]
    obtain rfl | hmem := mem_cons.1 hmem
    · rw [foldl_of_not_mem obs hot (hkey ▸ hnd.1), hset]
    · exact ih hnd.2 hmem _

end

namespace Publisher

variable {redis : String → Option LedgerValue} {took : String → Bool} {writes : List Write} {podKey : String}

theorem write_of_ne {w : Write} (hw : w.1 ≠ podKey) : write took redis w podKey = redis podKey := by
  unfold write
  split
  · exact Function.update_of_ne (Ne.symm hw) _ _
  · rfl

theorem write_of_not_mem (hnot : podKey ∉ pods writes) : writes.foldl (write took) redis podKey = redis podKey :=
  foldl_of_not_mem (· podKey) (fun _ _ hw => write_of_ne hw) hnot redis

theorem write_of_mem {value : Option LedgerValue} (hnd : (pods writes).Nodup) (hmem : (podKey, value) ∈ writes)
    (htk : took podKey = true) : writes.foldl (write took) redis podKey = value :=
  foldl_of_mem (· podKey) (fun _ _ hw => write_of_ne hw) hnd hmem rfl (fun _ => by simp [write, htk]) redis

variable {published : Finset String}

theorem mem_setPublished_of_ne {w : Write} (hw : w.1 ≠ podKey) :
    (podKey ∈ setPublished published w) = (podKey ∈ published) := by
  unfold setPublished
  split <;> simp [Ne.symm hw]

theorem setPublished_of_not_mem (hnot : podKey ∉ pods writes) :
    podKey ∈ writes.foldl setPublished published ↔ podKey ∈ published :=
  Eq.to_iff (foldl_of_not_mem (podKey ∈ ·) (fun _ _ hw => mem_setPublished_of_ne hw) hnot published)

theorem setPublished_of_mem {value : LedgerValue} (hnd : (pods writes).Nodup)
    (hmem : (podKey, some value) ∈ writes) : podKey ∈ writes.foldl setPublished published := by
  have hset : (podKey ∈ writes.foldl setPublished published) = True :=
    foldl_of_mem (podKey ∈ ·) (fun _ _ hw => mem_setPublished_of_ne hw) hnd hmem rfl
      (fun _ => by simp [setPublished]) published
  exact of_eq_true hset

/-! ## The invariant -/

def offsets (p : Publisher) : List Int := p.clockOffsetMillis :: p.pastOffsets

def Fresh (p : Publisher) (podKey : String) (value : Option LedgerValue) : Prop :=
  ∃ offsetMillis ∈ p.offsets, value = ledgerValue offsetMillis (p.ledger podKey)

end Publisher

/-- A call that has changed the ledger of a pod and has not marked it yet. -/
def Cmd.owes : Cmd → Option String
  | .notify podKey _ => some podKey
  | _ => none

namespace Phase

def unread : Phase → List String
  | .batched batch | .reading _ batch _ => batch
  | _ => []

def writes : Phase → List Write
  | .reading _ _ writes => writes
  | _ => []

def succeeded : Phase → List Write
  | .executed writes true => writes
  | _ => []

def failed : Phase → List Write
  | .executed writes false => writes
  | _ => []

def offset : Phase → Option Int
  | .reading offsetMillis _ _ => some offsetMillis
  | _ => none

end Phase

namespace Publisher

def Marked (p : Publisher) (M : Multiset Cmd) (podKey : String) : Prop :=
  podKey ∈ p.dirty ∨ ∃ c ∈ M, c.owes = some podKey

structure Ok (p : Publisher) (M : Multiset Cmd) : Prop where
  current : ∀ podKey, p.Marked M podKey ∨ podKey ∈ p.phase.unread ∨ podKey ∈ pods p.phase.writes ∨
    podKey ∈ pods p.phase.failed ∨ p.Fresh podKey (p.redis podKey)
  writes : ∀ podKey value, (podKey, value) ∈ p.phase.writes → p.Marked M podKey ∨ p.Fresh podKey value
  published : ∀ podKey, p.redis podKey ≠ none → podKey ∈ p.published ∨ podKey ∈ p.dirty ∨ podKey ∈ p.phase.unread ∨
    podKey ∈ pods p.phase.writes ∨ podKey ∈ pods p.phase.failed ∨ podKey ∈ pods p.phase.succeeded
  succeeded : ∀ podKey value, (podKey, value) ∈ p.phase.succeeded → p.redis podKey = value
  nodup : (p.phase.unread ++ pods p.phase.writes).Nodup ∧ (pods p.phase.succeeded).Nodup
  offset : ∀ offsetMillis, p.phase.offset = some offsetMillis → offsetMillis ∈ p.offsets

variable {p p' : Publisher} {M M' : Multiset Cmd} {c : Cmd} {value : Option LedgerValue}

theorem Fresh.mono (h : p.Fresh podKey value) (hld : p'.ledger podKey = p.ledger podKey)
    (hof : ∀ o ∈ p.offsets, o ∈ p'.offsets) : p'.Fresh podKey value := by
  obtain ⟨offsetMillis, hin, rfl⟩ := h
  exact ⟨offsetMillis, hof _ hin, by rw [hld]⟩

theorem Ok.around (h : p.Ok M) (hrd : p'.redis = p.redis) (hpb : p'.published = p.published)
    (hdr : p.dirty ⊆ p'.dirty) (hof : ∀ o ∈ p.offsets, o ∈ p'.offsets)
    (hmr : ∀ podKey, p.Marked M podKey → p'.Marked M' podKey)
    (hld : ∀ podKey, p'.ledger podKey = p.ledger podKey ∨ p'.Marked M' podKey)
    (hun : p'.phase.unread = p.phase.unread) (hwr : p'.phase.writes = p.phase.writes)
    (hfl : p'.phase.failed = p.phase.failed) (hsc : p'.phase.succeeded = p.phase.succeeded)
    (hoff : p'.phase.offset = p.phase.offset) : p'.Ok M' := by
  refine ⟨fun podKey => ?_, fun podKey value hmem => ?_, fun podKey hso => ?_, ?_, ?_, ?_⟩
  · rw [hun, hwr, hfl, hrd]
    obtain hsm | hnew := hld podKey
    · exact (h.current podKey).imp (hmr podKey) (Or.imp_right (Or.imp_right (Or.imp_right (·.mono hsm hof))))
    · exact .inl hnew
  · rw [hwr] at hmem
    obtain hsm | hnew := hld podKey
    · exact (h.writes podKey value hmem).imp (hmr podKey) (·.mono hsm hof)
    · exact .inl hnew
  · rw [hrd] at hso
    rw [hpb, hun, hwr, hfl, hsc]
    exact (h.published podKey hso).imp_right (Or.imp_left (@hdr podKey))
  · rw [hsc, hrd]
    exact h.succeeded
  · rw [hun, hwr, hsc]
    exact h.nodup
  · rw [hoff]
    exact fun o ho => hof o (h.offset o ho)

theorem Ok.tail (h : p.Ok (c ::ₘ M)) (hc : c.owes = none) : p.Ok M := by
  refine h.around rfl rfl subset_rfl (fun _ => id) (fun podKey hmr => ?_) (fun _ => .inl rfl) rfl rfl rfl rfl rfl
  apply hmr.imp_right
  rintro ⟨c', hc', how⟩
  obtain rfl | hc' := mem_cons.1 hc'
  · rw [hc] at how
    cases how
  · exact ⟨c', hc', how⟩

theorem Ok.ledgerChange {more : List DecodeLedgerState} (h : p.Ok (c ::ₘ M)) (state : DecodeLedgerState)
    (hc : ∀ podKey', c.owes = some podKey' → podKey' = podKey) :
    ({ p with ledger := Function.update p.ledger podKey state } : Publisher).Ok (.notify podKey more ::ₘ M) := by
  refine h.around rfl rfl subset_rfl (fun _ => id) (fun podKey' hmr => ?_) (fun podKey' => ?_) rfl rfl rfl rfl rfl
  · apply hmr.imp_right
    rintro ⟨c', hc', how⟩
    obtain rfl | hc' := mem_cons.1 hc'
    · exact ⟨_, mem_cons_self _ _, congrArg some (hc podKey' how).symm⟩
    · exact ⟨c', mem_cons_of_mem hc', how⟩
  · by_cases hsl : podKey' = podKey
    · exact .inr (.inr ⟨_, mem_cons_self _ _, congrArg some hsl.symm⟩)
    · exact .inl (Function.update_of_ne hsl _ _)

theorem Ok.marked (h : p.Ok (.notify podKey [] ::ₘ M)) : (p.markDirty podKey).Ok M := by
  refine h.around rfl rfl (subset_insert _ _) (fun _ => id) (fun podKey' hmr => ?_) (fun _ => .inl rfl)
    rfl rfl rfl rfl rfl
  obtain hdr | ⟨c', hc', how⟩ := hmr
  · exact .inl (mem_insert_of_mem hdr)
  · obtain rfl | hc' := mem_cons.1 hc'
    · exact .inl (some.inj how ▸ mem_insert_self _ _)
    · exact .inr ⟨c', hc', how⟩

theorem Ok.syncClock (h : p.Ok M) (offset : Int) :
    ({ p with clockOffsetMillis := offset, pastOffsets := p.clockOffsetMillis :: p.pastOffsets } : Publisher).Ok M :=
  h.around rfl rfl subset_rfl (fun _ => mem_cons_of_mem _) (fun _ => id) (fun _ => .inl rfl) rfl rfl rfl rfl rfl

/-! ### The goroutine -/

theorem Ok.wake (h : p.Ok M) {dirty : Finset String} {phase : Phase} (hdr : p.dirty ⊆ dirty)
    (hold : p.phase = .idle ∨ p.phase = .woken) (hnew : phase = .idle ∨ phase = .woken) :
    ({ p with dirty, phase } : Publisher).Ok M := by
  refine h.around rfl rfl hdr (fun _ => id) (fun _ => Or.imp_left (@hdr _)) (fun _ => .inl rfl) ?_ ?_ ?_ ?_ ?_ <;>
    rcases hold with hold | hold <;> rcases hnew with rfl | rfl <;> rw [hold] <;> rfl

variable {batch : List String} {writes : List Write}

section

variable (h : p.Ok M)
include h

theorem Ok.swap (hph : p.phase = .woken) (hnd : batch.Nodup)
    (hbt : batch.toFinset = p.dirty) : ({ p with dirty := ∅, phase := .batched batch } : Publisher).Ok M := by
  have hmem : ∀ podKey, podKey ∈ p.dirty → podKey ∈ batch := by simp [← hbt]
  refine ⟨fun podKey => ?_, by simp [Phase.writes], fun podKey hsm => ?_, by simp [Phase.succeeded],
    by simpa [Phase.unread, Phase.writes, Phase.succeeded, pods] using hnd, by simp [Phase.offset]⟩
  · have hcr := h.current podKey
    simp only [hph, Phase.unread, Phase.writes, Phase.failed, pods, map_nil, not_mem_nil, false_or] at hcr
    obtain (hdr | how) | hfr := hcr
    · exact .inr (.inl (hmem podKey hdr))
    · exact .inl (.inr how)
    · exact .inr (.inr (.inr (.inr hfr)))
  · have hpb := h.published podKey hsm
    simp only [hph, Phase.unread, Phase.writes, Phase.failed, Phase.succeeded, pods, map_nil, not_mem_nil,
      or_false] at hpb
    exact hpb.imp_right fun hdr => .inr (.inl (hmem podKey hdr))

theorem Ok.readOffset (hph : p.phase = .batched batch) :
    ({ p with phase := .reading p.clockOffsetMillis batch [] } : Publisher).Ok M := by
  have hcr := h.current
  have hpb := h.published
  have hnd := h.nodup
  rw [hph] at hcr hpb hnd
  refine ⟨hcr, by simp [Phase.writes], hpb, by simp [Phase.succeeded], hnd, fun o ho => ?_⟩
  obtain rfl : p.clockOffsetMillis = o := some.inj ho
  exact mem_cons_self

theorem Ok.readNext {offset : Int} (hph : p.phase = .reading offset (podKey :: batch) writes) :
    ({ p with phase := .reading offset batch (writes ++ [(podKey, ledgerValue offset (p.ledger podKey))]) } :
      Publisher).Ok M := by
  have hof := h.offset offset (by rw [hph]; rfl)
  have hrd : ∀ podKey', podKey' ∈ podKey :: batch ∨ podKey' ∈ pods writes →
      podKey' ∈ batch ∨ podKey' ∈ pods (writes ++ [(podKey, ledgerValue offset (p.ledger podKey))]) := by
    simp only [pods, List.map_append, List.map_cons, List.mem_append, List.mem_cons]
    tauto
  have hcr := h.current
  have hpb := h.published
  have hnd := h.nodup
  have hwt := h.writes
  rw [hph] at hcr hpb hnd hwt
  refine ⟨fun podKey' => ?_, fun podKey' value hmem => ?_, fun podKey' hsm => ?_, by simp [Phase.succeeded], ?_,
    fun o ho => ?_⟩
  · obtain hmr | hun | hwr | hrs := hcr podKey'
    · exact .inl hmr
    · exact .inr ((hrd podKey' (.inl hun)).imp_right .inl)
    · exact .inr ((hrd podKey' (.inr hwr)).imp_right .inl)
    · exact .inr (.inr (.inr hrs))
  · obtain hmem | hmem := List.mem_append.1 hmem
    · exact hwt podKey' value hmem
    · obtain ⟨rfl, rfl⟩ : podKey' = podKey ∧ value = ledgerValue offset (p.ledger podKey) := by simpa using hmem
      exact .inr ⟨offset, hof, rfl⟩
  · obtain hin | hdr | hun | hwr | hrs := hpb podKey' hsm
    · exact .inl hin
    · exact .inr (.inl hdr)
    · exact .inr (.inr ((hrd podKey' (.inl hun)).imp_right .inl))
    · exact .inr (.inr ((hrd podKey' (.inr hwr)).imp_right .inl))
    · exact .inr (.inr (.inr (.inr hrs)))
  · refine ⟨?_, hnd.2⟩
    have hsa : batch ++ pods (writes ++ [(podKey, ledgerValue offset (p.ledger podKey))]) =
        batch ++ pods writes ++ [podKey] := by simp [pods]
    simp only [Phase.unread, Phase.writes, hsa]
    exact (perm_append_singleton podKey (batch ++ pods writes)).nodup_iff.2 hnd.1
  · obtain rfl : offset = o := some.inj ho
    exact hof

omit h in
theorem mem_pods {podKey : String} : podKey ∈ pods writes ↔ ∃ value, (podKey, value) ∈ writes := by
  simp [pods]

theorem Ok.execPipeline {offset : Int} (hph : p.phase = .reading offset [] writes) (outcome : Outcome) :
    ({ p with redis := writes.foldl (write outcome.took) p.redis, phase := .executed writes outcome.isOk } :
      Publisher).Ok M := by
  have hcr := h.current
  have hpb := h.published
  have hwt := h.writes
  have hnd : (pods writes).Nodup := by
    have := h.nodup.1
    rwa [hph] at this
  rw [hph] at hcr hpb hwt
  have hkp : ∀ podKey, podKey ∉ pods writes →
      writes.foldl (write outcome.took) p.redis podKey = p.redis podKey := fun _ => write_of_not_mem
  have hsn : ∀ podKey ∈ pods writes, podKey ∈ pods (executed writes outcome.isOk).failed ∨
      podKey ∈ pods (executed writes outcome.isOk).succeeded := by
    intro podKey hmem
    cases outcome with
    | ok => exact .inr hmem
    | failed took => exact .inl hmem
  refine ⟨fun podKey => ?_, by simp [Phase.writes], fun podKey hsm => ?_, fun podKey value hmem => ?_, ?_,
    by simp [Phase.offset]⟩
  · by_cases hin : podKey ∈ pods writes
    · cases outcome with
      | ok =>
        obtain ⟨value, hvl⟩ := mem_pods.1 hin
        have hnew : writes.foldl (write Outcome.ok.took) p.redis podKey = value := write_of_mem hnd hvl rfl
        refine (hwt podKey value hvl).imp_right fun hfr => .inr (.inr (.inr ?_))
        dsimp only
        rw [hnew]
        exact hfr
      | failed took => exact .inr (.inr (.inr (.inl hin)))
    · obtain hmr | hun | hwr | hfl | hfr := hcr podKey
      · exact .inl hmr
      · cases hun
      · exact absurd hwr hin
      · cases hfl
      · refine .inr (.inr (.inr (.inr ?_)))
        dsimp only
        rw [hkp podKey hin]
        exact hfr
  · by_cases hin : podKey ∈ pods writes
    · exact .inr (.inr (.inr (.inr (hsn podKey hin))))
    dsimp only at hsm
    rw [hkp podKey hin] at hsm
    obtain hin' | hdr | hun | hwr | hrs := hpb podKey hsm
    · exact .inl hin'
    · exact .inr (.inl hdr)
    · cases hun
    · exact absurd hwr hin
    · exact hrs.elim (fun hnn => by cases hnn) (fun hnn => by cases hnn)
  · cases outcome with
    | ok => exact write_of_mem hnd hmem rfl
    | failed took => cases hmem
  · refine ⟨nodup_nil, ?_⟩
    cases outcome with
    | ok => exact hnd
    | failed took => exact nodup_nil

theorem Ok.finishOk (hph : p.phase = .executed writes true) :
    ({ p with published := writes.foldl setPublished p.published, phase := .idle } : Publisher).Ok M := by
  have hcr := h.current
  have hpb := h.published
  have hsc := h.succeeded
  have hnd := h.nodup.2
  rw [hph] at hcr hpb hsc hnd
  refine ⟨fun podKey => ?_, by simp [Phase.writes], fun podKey hsm => ?_, by simp [Phase.succeeded],
    ⟨nodup_nil, nodup_nil⟩, by simp [Phase.offset]⟩
  · exact hcr podKey
  by_cases hin : podKey ∈ pods writes
  · obtain ⟨value, hvl⟩ := mem_pods.1 hin
    have hrd : p.redis podKey = value := hsc podKey value hvl
    obtain ⟨v, rfl⟩ := Option.ne_none_iff_exists'.1 (hrd ▸ hsm)
    exact .inl (setPublished_of_mem hnd hvl)
  obtain hin' | hdr | hun | hwr | hfl | hin' := hpb podKey hsm
  · exact .inl ((setPublished_of_not_mem hin).2 hin')
  · exact .inr (.inl hdr)
  · cases hun
  · cases hwr
  · cases hfl
  · exact absurd hin' hin

theorem Ok.finishFailed (hph : p.phase = .executed writes false) :
    ({ p with dirty := p.dirty ∪ (pods writes).toFinset, phase := .idle } : Publisher).Ok M := by
  have hcr := h.current
  have hpb := h.published
  rw [hph] at hcr hpb
  refine ⟨fun podKey => ?_, by simp [Phase.writes], fun podKey hsm => ?_, by simp [Phase.succeeded],
    ⟨nodup_nil, nodup_nil⟩, by simp [Phase.offset]⟩
  · obtain hmr | hun | hwr | hfl | hfr := hcr podKey
    · exact .inl (hmr.imp_left (Finset.mem_union_left _))
    · cases hun
    · cases hwr
    · exact .inl (.inl (Finset.mem_union_right _ (List.mem_toFinset.2 hfl)))
    · exact .inr (.inr (.inr (.inr hfr)))
  · obtain hin | hdr | hun | hwr | hfl | hsc := hpb podKey hsm
    · exact .inl hin
    · exact .inr (.inl (Finset.mem_union_left _ hdr))
    · cases hun
    · cases hwr
    · exact .inr (.inl (Finset.mem_union_right _ (List.mem_toFinset.2 hfl)))
    · cases hsc

theorem Ok.advance (hal : Allowed p c) : (p.advance c).Ok M := by
  cases c with
  | change | notify | syncClock => exact h
  | wake =>
    simp only [advance]
    split
    · exact h.wake subset_rfl (.inl ‹_›) (.inr rfl)
    · exact h
  | tick =>
    simp only [advance]
    split
    · exact h.wake subset_union_left (.inl ‹_›) (.inr rfl)
    · exact h
  | flush batch =>
    simp only [advance]
    split
    · rename_i hph
      split
      · exact h.wake subset_rfl (.inr hph) (.inl rfl)
      · exact h.swap hph (hal hph).1 (hal hph).2
    · exact h
  | readOffset =>
    simp only [advance]
    split
    · exact h.readOffset ‹_›
    · exact h
  | readNext =>
    simp only [advance]
    split
    · exact h.readNext ‹_›
    · exact h
  | execPipeline outcome =>
    simp only [advance]
    split
    · exact h.execPipeline ‹_› outcome
    · exact h
  | finish =>
    simp only [advance]
    split
    · exact h.finishOk ‹_›
    · exact h.finishFailed ‹_›
    · exact h

end

theorem Ok.exec (h : p.Ok (c ::ₘ M)) (hal : Allowed p c) : (exec c p).1.Ok (↑(exec c p).2 + M) := by
  cases c with
  | change podKey state more => simpa [exec] using h.ledgerChange state (by simp [Cmd.owes])
  | notify podKey more =>
    cases more with
    | nil => simpa [exec] using h.marked
    | cons state more => simpa [exec] using h.ledgerChange state (by simp [Cmd.owes])
  | syncClock offsetMillis => simpa [exec] using (h.tail rfl).syncClock offsetMillis
  | wake | tick | flush | readOffset | readNext | execPipeline | finish =>
    simpa [exec] using (h.tail rfl).advance hal

theorem Ok.init : ({} : Publisher).Ok 0 :=
  ⟨fun _ => .inr (.inr (.inr (.inr ⟨0, mem_cons_self, rfl⟩))), by simp [Phase.writes], by simp, by simp [Phase.succeeded],
    ⟨nodup_nil, nodup_nil⟩, by simp [Phase.offset]⟩

theorem Ok.start (h : p.Ok M) (commands : List Cmd) : p.Ok (↑commands + M) := by
  refine h.around rfl rfl subset_rfl (fun _ => id) (fun podKey hmr => hmr.imp_right ?_) (fun _ => .inl rfl)
    rfl rfl rfl rfl rfl
  rintro ⟨c', hc', how⟩
  exact ⟨c', mem_add.2 (.inr hc'), how⟩

end Publisher

theorem ledger_published {p : Pool Publisher Cmd} (h : system.Reachable {} p) (hidle : p.state.phase.flushing = false)
    (hclean : p.state.dirty = ∅) (hmarked : ∀ c ∈ p.pending, c.owes = none) (podKey : String) :
    (∃ offsetMillis ∈ p.state.offsets, p.state.redis podKey = ledgerValue offsetMillis (p.state.ledger podKey)) ∧
    (p.state.redis podKey = none ↔ (p.state.ledger podKey).isZero = true) ∧
    (p.state.redis podKey ≠ none → podKey ∈ p.state.published) := by
  have hok : p.state.Ok p.pending := by
    refine h.invariant Publisher.Ok.init ?_ fun s M c hallowed hok => hok.exec hallowed
    exact fun s M commands _ hok => hok.start commands
  have hnot : ¬ p.state.Marked p.pending podKey := by
    rintro (hdirty | ⟨c, hc, howes⟩)
    · simp [hclean] at hdirty
    · simp [hmarked c hc] at howes
  have hquiet : p.state.phase = .idle ∨ p.state.phase = .woken := by
    cases hphase : p.state.phase <;> simp_all [flushing]
  have hcurrent : p.state.Fresh podKey (p.state.redis podKey) := by
    have hcurrent := (hok.current podKey).resolve_left hnot
    rcases hquiet with hphase | hphase <;>
      simpa [hphase, unread, writes, failed, Publisher.pods] using hcurrent
  have hpublished : p.state.redis podKey ≠ none → podKey ∈ p.state.published := by
    intro hsome
    have hpublished := hok.published podKey hsome
    rcases hquiet with hphase | hphase <;>
      simpa [hphase, hclean, unread, writes, failed, succeeded, Publisher.pods] using hpublished
  refine ⟨hcurrent, ?_, hpublished⟩
  obtain ⟨offsetMillis, _, hvalue⟩ := hcurrent
  rw [hvalue, ledgerValue]
  split <;> simp_all

def runAll (commands : List Cmd) (first : Nat) : List (System.Action Cmd) :=
  (commands.zipIdx first).flatMap fun (c, thread) => [.start [c], .run thread]

def retriedFlush : List (System.Action Cmd) :=
  [.start [.change "pod" ⟨5, 1, 10⟩ [⟨9, 2, 25⟩]], .run 0, .run 0, .run 0] ++
    runAll [.wake, .flush ["pod"], .readOffset, .readNext, .execPipeline (.failed fun _ => true)] 1 ++
    [.start [.change "pod" ⟨4, 1, 15⟩ []], .run 6, .run 6] ++
    runAll [.finish, .tick, .flush ["pod"], .readOffset, .readNext, .execPipeline .ok, .finish] 7

theorem ledger_published_retried : ∃ p, system.Reachable {} p ∧ p.state.dirty = ∅ ∧ p.state.phase = .idle ∧
    p.state.ledger "pod" = ⟨4, 1, 15⟩ ∧ p.state.redis "pod" ≠ none ∧ "pod" ∈ p.state.published := by
  have hlegal : system.Legal ⟨{}, []⟩ retriedFlush := .of_all (by decide +kernel) (by decide +kernel)
  have hreach := System.Reachable.play (.refl : system.Reachable {} ⟨{}, []⟩) hlegal
  have hledger : (system.play ⟨{}, []⟩ retriedFlush).state.ledger "pod" = ⟨4, 1, 15⟩ := by decide +kernel
  obtain ⟨_, hnone, hpublished⟩ := ledger_published hreach (by decide +kernel) (by decide +kernel) (by decide +kernel) "pod"
  have hsome : (system.play ⟨{}, []⟩ retriedFlush).state.redis "pod" ≠ none := by
    decide +kernel
  exact ⟨_, hreach, by decide +kernel, by decide +kernel, hledger, hsome, hpublished hsome⟩

def unmarkedChange : List (System.Action Cmd) := [.start [.change "pod" ⟨5, 1, 10⟩ []], .run 0]

def resyncedClock : List (System.Action Cmd) :=
  [.start [.change "pod" ⟨5, 1, 10⟩ []], .run 0, .run 0] ++
    runAll [.wake, .flush ["pod"], .readOffset, .readNext, .execPipeline .ok, .finish, .syncClock 5000] 1

/-- Nothing is marked or in flight, and the field of the pod is not the value of its ledger. -/
def EndsStale (schedule : List (System.Action Cmd)) : Prop :=
  system.Legal ⟨{}, []⟩ schedule ∧
    (system.play ⟨{}, []⟩ schedule).state.phase = .idle ∧ (system.play ⟨{}, []⟩ schedule).state.dirty = ∅ ∧
    (system.play ⟨{}, []⟩ schedule).state.redis "pod" ≠
      ledgerValue (system.play ⟨{}, []⟩ schedule).state.clockOffsetMillis
        ((system.play ⟨{}, []⟩ schedule).state.ledger "pod")

theorem idle_field_differs : EndsStale unmarkedChange ∧ EndsStale resyncedClock := by
  constructor
  · exact ⟨.of_all (by decide +kernel) (by decide +kernel), by decide +kernel, by decide +kernel, by decide +kernel⟩
  · exact ⟨.of_all (by decide +kernel) (by decide +kernel), by decide +kernel, by decide +kernel, by decide +kernel⟩

end Aibrix.DecodeLedger
