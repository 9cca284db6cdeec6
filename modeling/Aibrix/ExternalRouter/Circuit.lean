import Mathlib.Data.List.Count

/-! # The circuit breaker of the external router

`externalCircuit` of `algorithms/external/resilience.go`, with the calls that hold its tokens. -/

namespace Aibrix.ExternalRouter

inductive CircuitState where
  | closed
  | opened
  | halfOpen
deriving DecidableEq

structure Token where
  halfOpen : Bool
  generation : Nat
deriving DecidableEq

structure Circuit where
  state : CircuitState := .closed
  failures : Nat := 0
  openedAt : Int := 0
  probing : Bool := false
  generation : Nat := 0

inductive Outcome where
  | success
  | failure
  | cancel
deriving DecidableEq

variable (threshold : Nat) (openDuration : Int)

namespace Circuit

variable (c : Circuit) (now : Int) (token : Token)

def acquire : Circuit × Option Token :=
  match c.state with
  | .closed => (c, some ⟨false, c.generation⟩)
  | .opened =>
    if now - c.openedAt < openDuration ∨ c.probing then (c, none)
    else ({ c with state := .halfOpen, probing := true }, some ⟨true, c.generation⟩)
  | .halfOpen => if c.probing then (c, none) else ({ c with probing := true }, some ⟨true, c.generation⟩)

def openLocked : Circuit :=
  { c with state := .opened, openedAt := now, probing := false, generation := c.generation + 1 }

def success : Circuit :=
  if token.generation ≠ c.generation then c
  else if token.halfOpen then
    if c.state ≠ .halfOpen ∨ !c.probing then c else { c with state := .closed, failures := 0, probing := false }
  else if c.state = .closed then { c with failures := 0 }
  else c

def failure : Circuit :=
  if token.generation ≠ c.generation then c
  else if token.halfOpen then if c.state ≠ .halfOpen ∨ !c.probing then c else c.openLocked now
  else if c.state ≠ .closed then c
  else
    let c := { c with failures := c.failures + 1 }
    if c.failures ≥ threshold then c.openLocked now else c

def cancel : Circuit :=
  if !token.halfOpen then c
  else if token.generation ≠ c.generation ∨ c.state ≠ .halfOpen ∨ !c.probing then c
  else c.openLocked now

def settle : Outcome → Circuit
  | .success => c.success token
  | .failure => c.failure threshold now token
  | .cancel => c.cancel now token

end Circuit

/-! ## Calls -/

/-- A call with its token and the numbers of openings and of closings before it was admitted. -/
structure Call extends Token where
  openings : Nat
  closings : Nat
deriving DecidableEq

/-- `openings` are times; `failed` counts the failures of calls admitted since the breaker last closed, from the last
success of such a call on. -/
structure World where
  circuit : Circuit := {}
  calls : List Call := []
  openings : List Int := []
  closings : Nat := 0
  failed : Nat := 0
  clock : Int

inductive Event where
  | acquire (now : Int)
  | settle (call : Call) (outcome : Outcome) (now : Int)

namespace World

/-- An event with an earlier time, or for a call that is over, is none. -/
def step (w : World) : Event → World
  | .acquire now =>
    if now < w.clock then w
    else
      let (circuit, token) := w.circuit.acquire openDuration now
      { w with circuit, clock := now, calls := token.toList.map (⟨·, w.openings.length, w.closings⟩) ++ w.calls }
  | .settle call outcome now =>
    if now < w.clock ∨ call ∉ w.calls then w
    else
      let circuit := w.circuit.settle threshold now call.toToken outcome
      let closes := circuit.state = .closed ∧ w.circuit.state ≠ .closed
      { circuit, clock := now, calls := w.calls.erase call
        openings := if circuit.state = .opened ∧ w.circuit.state ≠ .opened then now :: w.openings else w.openings
        closings := if closes then w.closings + 1 else w.closings
        failed :=
          if closes ∨ outcome = .success ∧ call.closings = w.closings then 0
          else if outcome = .failure ∧ call.closings = w.closings then w.failed + 1
          else w.failed }

def after (start : Int) (events : List Event) : World :=
  events.foldl (step threshold openDuration) { clock := start }

structure Inv (w : World) : Prop where
  generation : w.circuit.generation = w.openings.length
  probing : w.circuit.probing = true ↔ w.circuit.state = .halfOpen
  probes : w.calls.countP (·.halfOpen) = if w.circuit.state = .halfOpen then 1 else 0
  calls : ∀ call ∈ w.calls, call.openings = call.generation ∧ call.generation ≤ w.circuit.generation ∧
    call.closings ≤ w.closings ∧ (call.generation = w.circuit.generation ↔
      call.halfOpen = true ∨ w.circuit.state = .closed ∧ call.closings = w.closings)
  failures : w.circuit.state = .closed → w.circuit.failures = w.failed
  waited : ∀ o ∈ w.openings, o ≤ w.circuit.openedAt ∧ w.circuit.openedAt ≤ w.clock ∧
    (w.circuit.state ≠ .opened → w.circuit.openedAt + openDuration ≤ w.clock)

variable {threshold openDuration} {w : World} (h : w.Inv openDuration)

include h

theorem Inv.acquire (now : Int) : (w.step threshold openDuration (.acquire now)).Inv openDuration := by
  obtain ⟨hg, hp, hn, hc, hf, hw⟩ := h
  rcases hs : w.circuit.state <;> constructor <;> grind [step, Circuit.acquire]

variable {call : Call} (hcall : call ∈ w.calls)

include hcall

theorem Inv.halfOpen_of_probe (hprobe : call.halfOpen = true) : w.circuit.state = .halfOpen := by
  have hpos := (List.countP_pos_iff (p := fun c : Call => c.halfOpen)).2 ⟨call, hcall, hprobe⟩
  rw [h.probes] at hpos
  by_contra hs
  simp [hs] at hpos

/-- What settling an outstanding call does, told by the history. -/
theorem Inv.settle_eq (outcome : Outcome) (now : Int) :
    w.circuit.settle threshold now call.toToken outcome =
      if call.halfOpen then
        if outcome = .success then { w.circuit with state := .closed, failures := 0, probing := false }
        else w.circuit.openLocked now
      else if w.circuit.state = .closed ∧ call.closings = w.closings then
        match outcome with
        | .success => { w.circuit with failures := 0 }
        | .failure =>
          let c := { w.circuit with failures := w.failed + 1 }
          if threshold ≤ w.failed + 1 then c.openLocked now else c
        | .cancel => w.circuit
      else w.circuit := by
  have hcurrent := (h.calls call hcall).2.2.2
  have hprobe := h.halfOpen_of_probe hcall
  have hp := h.probing
  have hf := h.failures
  cases outcome <;> grind [Circuit.settle, Circuit.success, Circuit.failure, Circuit.cancel]

theorem Inv.settle (outcome : Outcome) {now : Int} (hnow : w.clock ≤ now) :
    (w.step threshold openDuration (.settle call outcome now)).Inv openDuration := by
  have heq := @h.settle_eq threshold _ _ _ hcall outcome now
  have herase := List.countP_erase (·.halfOpen) w.calls call
  have hnone := List.countP_eq_zero (p := (·.halfOpen)) (l := w.calls.erase call)
  obtain ⟨hg, hp, hn, hc, hf, hw⟩ := h
  simp only [step, if_neg (show ¬ (now < w.clock ∨ call ∉ w.calls) by grind), heq]
  constructor <;> grind [Circuit.openLocked]

omit h hcall

theorem Inv.after (start : Int) (events : List Event) :
    (after threshold openDuration start events).Inv openDuration := by
  refine List.foldlRecOn events _ (by constructor <;> simp) fun w h event _ => ?_
  cases event with
  | acquire now => exact h.acquire now
  | settle call outcome now =>
    by_cases hskip : now < w.clock ∨ call ∉ w.calls
    · simpa only [step, if_pos hskip]
    · exact h.settle (by tauto) outcome (by omega)

/-- What holds after any events, and what the next one can do. -/
theorem breaker_sound (start : Int) (events : List Event) :
    let w := World.after threshold openDuration start events
    w.calls.countP (·.halfOpen) = (if w.circuit.state = .halfOpen then 1 else 0) ∧
      (∀ now ≥ w.clock, let (c, token) := w.circuit.acquire openDuration now
        (token ≠ none → ∀ o ∈ w.openings, openDuration ≤ now - o) ∧
          (c.state = .closed ↔ w.circuit.state = .closed)) ∧
      ∀ call ∈ w.calls, ∀ outcome now, let c := w.circuit.settle threshold now call.toToken outcome
        (w.circuit.state = .closed → (c.state = .opened ↔
          outcome = .failure ∧ call.closings = w.closings ∧ threshold ≤ w.failed + 1)) ∧
        (w.circuit.state ≠ .closed → c.state = .closed → outcome = .success ∧ call.halfOpen = true) ∧
        (call.openings ≠ w.openings.length → c = w.circuit) ∧
        (call.halfOpen = true → w.circuit.state = .halfOpen ∧ c.state ≠ .halfOpen) := by
  intro w
  have h := @Inv.after threshold openDuration start events
  refine ⟨h.probes, fun now hnow => ?_, fun call hcall outcome now => ?_⟩
  · have hw := h.waited
    grind [Circuit.acquire]
  have hprobe := h.halfOpen_of_probe hcall
  have hg := h.generation
  have := h.calls call hcall
  rw [h.settle_eq hcall]
  cases outcome <;> grind [Circuit.openLocked]

end World

end Aibrix.ExternalRouter
