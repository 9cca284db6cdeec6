import Aibrix.Lib.Threads

/-! # Request limits of a user

`checkLimits` of `gateway_ratelimit.go` over the counter of one user, where the token check passes and Redis never fails. -/

namespace Aibrix.RateLimit

open Lib Multiset

structure Answer where
  window : Nat
  admitted : Bool
  deriving DecidableEq

structure Redis where
  counter : Option Int := none
  window : Nat := 0
  answers : List Answer := []
  deriving DecidableEq

inductive Cmd where
  | checkRPM
  | incrRPM
  /-- Takes back an increment of the given window. -/
  | refund (window : Nat)
  | expire
  deriving DecidableEq

namespace Redis

variable (r : Redis)

def get : Int := r.counter.getD 0

/-- `incrAndExpireScript`. -/
def incrAndExpire (val : Int) : Redis :=
  { r with
    counter := some (r.get + val)
    window := if r.counter.isSome then r.window else r.window + 1 }

theorem get_of_some {r : Redis} {value : Int} (h : r.counter = some value) : r.get = value := by
  simp [get, h]

def tell (admitted : Bool) : Redis := { r with answers := ⟨r.window, admitted⟩ :: r.answers }

def exec (limit : Int) : Cmd → Redis → Redis × List Cmd
  | .checkRPM, r => if r.get ≥ limit then (r.tell false, []) else (r, [.incrRPM])
  | .incrRPM, r =>
    let r := r.incrAndExpire 1
    if r.get > limit then (r.tell false, [.refund r.window]) else (r.tell true, [])
  | .refund _, r => (r.incrAndExpire (-1), [])
  | .expire, r => ({ r with counter := none }, [])

/-- A refund is executed in the window of its increment. -/
def Allowed : Cmd → Prop
  | .refund window => r.counter.isSome = true ∧ r.window = window
  | _ => True

instance (r : Redis) (c : Cmd) : Decidable (r.Allowed c) := by
  cases c <;> unfold Allowed <;> infer_instance

end Redis

def system (limit : Int) : System Redis Cmd where
  exec := Redis.exec limit
  program commands := commands = [.checkRPM] ∨ commands = [.expire]
  allowed r _ c := r.Allowed c

instance (limit : Int) : DecidablePred (system limit).program :=
  fun commands => inferInstanceAs (Decidable (commands = [.checkRPM] ∨ commands = [.expire]))

instance (limit : Int) (r : Redis) (M : Multiset Cmd) (c : Cmd) : Decidable ((system limit).allowed r M c) :=
  inferInstanceAs (Decidable (r.Allowed c))

variable (answers : List Answer)

def admittedIn (window : Nat) : Nat :=
  answers.countP fun a => a.admitted ∧ a.window = window

@[simp] theorem admittedIn_rejected (window w : Nat) :
    admittedIn (⟨window, false⟩ :: answers) w = admittedIn answers w := by
  simp [admittedIn]

@[simp] theorem admittedIn_admitted (window w : Nat) :
    admittedIn (⟨window, true⟩ :: answers) w = admittedIn answers w + if window = w then 1 else 0 := by
  simp [admittedIn, List.countP_cons]

/-! ## One step -/

/-- What is in the counter beyond the admitted calls is going to be refunded, and then the window is full. -/
structure Exact (limit : Int) (r : Redis) (M : Multiset Cmd) : Prop where
  counter : ∀ value, r.counter = some value → value = admittedIn r.answers r.window + M.count (.refund r.window)
  later : ∀ w, r.window < w → admittedIn r.answers w = 0 ∧ M.count (.refund w) = 0
  cap : ∀ w, admittedIn r.answers w ≤ limit.toNat
  full : ∀ w, .refund w ∈ M → limit ≤ admittedIn r.answers w
  justified : ∀ a older, a :: older <:+ r.answers → a.admitted = false → limit ≤ admittedIn older a.window

variable {limit : Int} {r : Redis} {M : Multiset Cmd} {c : Cmd}

theorem Exact.congr {M' : Multiset Cmd} (h : Exact limit r M) (hM : ∀ w, M'.count (.refund w) = M.count (.refund w)) :
    Exact limit r M' := by
  refine ⟨fun value hv => ?_, fun w hw => ?_, h.cap, fun w hw => h.full w ?_, h.justified⟩
  · rw [hM]
    exact h.counter value hv
  · rw [hM]
    exact h.later w hw
  · rwa [← count_pos, hM, count_pos] at hw

theorem Exact.tail (h : Exact limit r (c ::ₘ M)) (hc : ∀ w, c ≠ .refund w) : Exact limit r M :=
  h.congr fun w => (count_cons_of_ne (hc w).symm M).symm

section

variable (h : Exact limit r M)
include h

theorem Exact.get_eq :
    r.get = admittedIn r.answers (r.incrAndExpire 1).window + M.count (.refund (r.incrAndExpire 1).window) := by
  unfold Redis.get Redis.incrAndExpire
  cases hr : r.counter with
  | none => simp [h.later (r.window + 1) (by omega)]
  | some value => simpa [hr] using h.counter value hr

theorem Exact.limit_le {w : Nat} (hle : limit ≤ admittedIn r.answers w + M.count (.refund w)) :
    limit ≤ admittedIn r.answers w := by
  by_cases hw : .refund w ∈ M
  · exact h.full w hw
  · rw [count_eq_zero_of_notMem hw] at hle
    omega

theorem Exact.tell_false (hle : limit ≤ admittedIn r.answers r.window) : Exact limit (r.tell false) M := by
  refine ⟨fun value hv => ?_, fun w hw => ?_, fun w => ?_, fun w hw => ?_, fun a older ha hrej => ?_⟩
  · simpa [Redis.tell] using h.counter value hv
  · simpa [Redis.tell] using h.later w hw
  · simpa [Redis.tell] using h.cap w
  · simpa [Redis.tell] using h.full w hw
  · rcases List.suffix_cons_iff.1 ha with heq | hold
    · cases heq
      exact hle
    · exact h.justified a older hold hrej

theorem Exact.checkRPM : Exact limit (r.exec limit .checkRPM).1 (↑(r.exec limit .checkRPM).2 + M) := by
  simp only [Redis.exec]
  split
  · rename_i hle
    refine (h.tell_false ?_).congr fun w => by simp
    cases hr : r.counter with
    | none =>
      simp only [Redis.get, hr, Option.getD_none, ge_iff_le] at hle
      omega
    | some value =>
      apply h.limit_le
      rwa [← h.counter value hr, ← Redis.get_of_some hr]
  · exact h.congr fun w => by simp

theorem Exact.incrRPM : Exact limit (r.exec limit .incrRPM).1 (↑(r.exec limit .incrRPM).2 + M) := by
  have hget := h.get_eq
  have hwin : r.window ≤ (r.incrAndExpire 1).window := by
    unfold Redis.incrAndExpire
    dsimp only
    split <;> omega
  have hlater := fun w (hw : (r.incrAndExpire 1).window < w) => h.later w (by omega)
  have hval : (r.incrAndExpire 1).get = r.get + 1 := rfl
  have hans : (r.incrAndExpire 1).answers = r.answers := rfl
  simp only [Redis.exec]
  generalize r.incrAndExpire 1 = r₁ at *
  split
  · have hle : limit ≤ admittedIn r.answers r₁.window := h.limit_le (by omega)
    have hmid : Exact limit r₁ (.refund r₁.window ::ₘ M) := by
      refine ⟨fun value hv => ?_, fun w hw => ?_, hans ▸ h.cap, fun w hw => ?_, hans ▸ h.justified⟩
      · rw [Redis.get_of_some hv] at hval
        rw [hans, count_cons_self]
        omega
      · rw [hans, count_cons_of_ne (by simpa using hw.ne')]
        exact hlater w hw
      · rcases Multiset.mem_cons.1 hw with heq | hw
        · cases heq
          rwa [hans]
        · rw [hans]
          exact h.full w hw
    exact (hmid.tell_false (by rwa [hans])).congr fun w => by simp
  · refine ⟨fun value hv => ?_, fun w hw => ?_, fun w => ?_, fun w hw => ?_, fun a older ha hrej => ?_⟩
    · rw [Redis.get_of_some (r := r₁) hv] at hval
      simp only [Redis.tell, admittedIn_admitted, hans, if_true, coe_nil, zero_add]
      omega
    · have hne : r₁.window ≠ w := by
        change r₁.window < w at hw
        omega
      simpa [Redis.tell, hans, hne] using hlater w hw
    · simp only [Redis.tell, admittedIn_admitted, hans]
      have hcap := h.cap w
      split
      · rename_i heq
        subst heq
        omega
      · exact hcap
    · simp only [Redis.tell, admittedIn_admitted, hans]
      have hfull := h.full w (by simpa using hw)
      omega
    · rcases List.suffix_cons_iff.1 ha with heq | hold
      · cases heq
        cases hrej
      · exact h.justified a older (hans ▸ hold) hrej

end

theorem Exact.refund {w : Nat} (h : Exact limit r (.refund w ::ₘ M)) (hw : r.Allowed (.refund w)) :
    Exact limit (r.incrAndExpire (-1)) M := by
  obtain ⟨hsome, rfl⟩ := hw
  have hwin : (r.incrAndExpire (-1)).window = r.window := if_pos hsome
  refine ⟨fun value hv => ?_, fun w hw => ?_, h.cap, fun w hw => h.full w (mem_cons_of_mem hw), h.justified⟩
  · obtain ⟨old, hold⟩ := Option.isSome_iff_exists.1 hsome
    have hcounter := h.counter old hold
    rw [count_cons_self] at hcounter
    simp only [Redis.incrAndExpire, Redis.get, hold, Option.getD_some, Option.some.injEq] at hv
    rw [hwin]
    change value = admittedIn r.answers r.window + _
    omega
  · rw [hwin] at hw
    have hlater := h.later w hw
    rwa [count_cons_of_ne (by simpa using hw.ne')] at hlater

theorem Exact.exec (h : Exact limit r (c ::ₘ M)) (hc : r.Allowed c) :
    Exact limit (r.exec limit c).1 (↑(r.exec limit c).2 + M) := by
  cases c with
  | checkRPM => exact (h.tail nofun).checkRPM
  | incrRPM => exact (h.tail nofun).incrRPM
  | refund w => simpa [Redis.exec] using h.refund hc
  | expire =>
    have htail := h.tail nofun
    simp only [Redis.exec, coe_nil, zero_add]
    exact ⟨nofun, htail.later, htail.cap, htail.full, htail.justified⟩

/-- A window admits at most the limit, a call is rejected only after so many were admitted in its window, and once all
calls have returned the counter is the number that the window has admitted. -/
theorem request_limit_exact {p : Pool Redis Cmd} (h : (system limit).Reachable {} p) :
    (∀ window, admittedIn p.state.answers window ≤ limit.toNat) ∧
    (∀ a older, a :: older <:+ p.state.answers → a.admitted = false → limit ≤ admittedIn older a.window) ∧
    (p.Quiet → ∀ value, p.state.counter = some value → value = admittedIn p.state.answers p.state.window) := by
  have hexact : Exact limit p.state p.pending := by
    refine h.invariant ⟨nofun, by simp [admittedIn], by simp [admittedIn], by simp, by simp⟩ ?_
      fun r M c hallowed hr => hr.exec hallowed
    rintro r M commands (rfl | rfl) hr
    · exact hr.congr fun w => by simp
    · exact hr.congr fun w => by simp
  refine ⟨hexact.cap, hexact.justified, fun hquiet value hvalue => ?_⟩
  have hcounter := hexact.counter value hvalue
  rw [hquiet] at hcounter
  simpa using hcounter

/-- Two calls read the counter before either has incremented it, and a third one comes in the next window. -/
def racingCalls : List (System.Action Cmd) :=
  [.start [.checkRPM], .start [.checkRPM], .run 0, .run 1, .run 0, .run 1, .run 1, .start [.expire], .run 2,
    .start [.checkRPM], .run 3, .run 3]

theorem request_limit_exact_racing : ∃ p, (system 1).Reachable {} p ∧ p.Quiet ∧ p.state.counter = some 1 ∧
    p.state.answers.map (·.admitted) = [true, false, true] ∧ admittedIn p.state.answers 1 ≤ 1 ∧
    1 = admittedIn p.state.answers 2 := by
  have hlegal : (system 1).Legal ⟨{}, []⟩ racingCalls := .of_all (by decide) (by decide)
  have hreach := System.Reachable.play (.refl : (system 1).Reachable {} ⟨{}, []⟩) hlegal
  have hquiet : ((system 1).play ⟨{}, []⟩ racingCalls).Quiet := Pool.quiet_of_all (by decide)
  obtain ⟨hcap, -, hcounter⟩ := request_limit_exact hreach
  refine ⟨_, hreach, hquiet, by decide, by decide, hcap 1, ?_⟩
  exact_mod_cast hcounter hquiet 1 (by decide)

end Aibrix.RateLimit
