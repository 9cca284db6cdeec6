import Mathlib.Algebra.Order.Group.Multiset
import Mathlib.Data.Fintype.Card

/-! # Threads over a shared state

A thread is the list of commands it has still to run. A command changes the state in one atomic step and may put further
ones in front of the rest. -/

namespace Aibrix.Lib

open List Multiset

structure Pool (S C : Type) where
  state : S
  threads : List (List C) := []

structure System (S C : Type) where
  exec : C → S → S × List C
  program : List C → Prop
  allowed : S → Multiset C → C → Prop

variable {S C : Type}

def Pool.pending (p : Pool S C) : Multiset C := p.threads.flatten

def Pool.Quiet (p : Pool S C) : Prop := p.pending = 0

theorem Pool.quiet_of_all {p : Pool S C} (h : p.threads.all List.isEmpty = true) : p.Quiet := by
  have hnil : p.threads.flatten = [] := by simpa [flatten_eq_nil_iff] using h
  rw [Quiet, pending, hnil, coe_nil]

namespace System

variable (sys : System S C)

inductive Step : Pool S C → Pool S C → Prop
  | start {p : Pool S C} {commands : List C} (h : sys.program commands) :
      Step p ⟨p.state, p.threads ++ [commands]⟩
  | run {p : Pool S C} {i : Nat} {c : C} {rest : List C} (hthread : p.threads[i]? = some (c :: rest))
      (h : sys.allowed p.state p.pending c) :
      Step p ⟨(sys.exec c p.state).1, p.threads.set i ((sys.exec c p.state).2 ++ rest)⟩

def Reachable (s : S) : Pool S C → Prop := Relation.ReflTransGen sys.Step ⟨s, []⟩

end System

theorem Pool.pending_start (p : Pool S C) (cmds : List C) :
    (Pool.mk p.state (p.threads ++ [cmds])).pending = ↑cmds + p.pending := by
  simp only [pending, flatten_append, flatten_singleton, ← coe_add]
  exact add_comm _ _

theorem flatten_set {threads : List (List C)} {i : Nat} {c : C} {rest : List C} (h : threads[i]? = some (c :: rest)) :
    ∃ others : Multiset C, (threads.flatten : Multiset C) = c ::ₘ others ∧
      ∀ next : List C, ((threads.set i (next ++ rest)).flatten : Multiset C) = ↑next + others := by
  induction threads generalizing i with
  | nil => simp at h
  | cons thread threads ih =>
    cases i with
    | zero =>
      obtain rfl : thread = c :: rest := by simpa using h
      refine ⟨↑(rest ++ threads.flatten), rfl, fun next => ?_⟩
      rw [set_cons_zero, flatten_cons, append_assoc, ← coe_add]
    | succ i =>
      obtain ⟨others, hbf, haf⟩ := ih (i := i) (by simpa using h)
      refine ⟨↑thread + others, ?_, fun next => ?_⟩
      · rw [flatten_cons, ← coe_add, hbf, add_cons]
      · rw [set_cons_succ, flatten_cons, ← coe_add, haf, ← add_assoc, ← add_assoc, add_comm (thread : Multiset C)]

namespace System

variable {sys : System S C}

/-- What holds at the start, and is kept by a new thread and by every command, holds whenever it is
looked at. -/
theorem Reachable.invariant {s₀ : S} {p : Pool S C} (h : sys.Reachable s₀ p) {I : S → Multiset C → Prop}
    (hin : I s₀ 0) (hst : ∀ s M commands, sys.program commands → I s M → I s (↑commands + M))
    (hrun : ∀ s M c, sys.allowed s (c ::ₘ M) c → I s (c ::ₘ M) → I (sys.exec c s).1 (↑(sys.exec c s).2 + M)) :
    I p.state p.pending := by
  induction h with
  | refl => exact hin
  | tail _ hsp ih =>
    cases hsp with
    | start hpr =>
      rw [Pool.pending_start]
      exact hst _ _ _ hpr ih
    | @run i c rest hthread hal =>
      rename_i q _
      obtain ⟨others, hbf, haf⟩ := flatten_set hthread
      have hpn : q.pending = c ::ₘ others := hbf
      rw [hpn] at hal ih
      have := hrun _ _ c hal ih
      rwa [← haf] at this

/-! ## Given schedules -/

inductive Action (C : Type) where
  | start (commands : List C)
  | run (thread : Nat)

variable (sys) (p : Pool S C)

def act : Action C → Pool S C
  | .start commands => ⟨p.state, p.threads ++ [commands]⟩
  | .run i =>
    match p.threads[i]? with
    | some (c :: rest) => ⟨(sys.exec c p.state).1, p.threads.set i ((sys.exec c p.state).2 ++ rest)⟩
    | _ => p

def play (schedule : List (Action C)) : Pool S C := schedule.foldl sys.act p

/-- What a thread comes to in `n` steps when no other thread runs. -/
def solo : Nat → S → List C → S × List C
  | 0, s, commands => (s, commands)
  | _ + 1, s, [] => (s, [])
  | n + 1, s, c :: rest => solo n (sys.exec c s).1 ((sys.exec c s).2 ++ rest)

/-- A new thread that runs `n` steps with nothing in between. -/
def alone (commands : List C) (n : Nat) : Pool S C :=
  sys.play p (.start commands :: List.replicate n (.run p.threads.length))

/-- Whether an action may be taken. Running a thread that has nothing left does nothing. -/
def Enabled : Action C → Prop
  | .start _ => True
  | .run i =>
    match p.threads[i]? with
    | some (c :: _) => sys.allowed p.state p.pending c
    | _ => True

def RunsAllowed : Pool S C → List (Action C) → Prop
  | _, [] => True
  | p, action :: schedule => sys.Enabled p action ∧ RunsAllowed (sys.act p action) schedule

instance [∀ s M c, Decidable (sys.allowed s M c)] (p : Pool S C) (action : Action C) :
    Decidable (sys.Enabled p action) := by
  cases action <;> unfold Enabled
  · infer_instance
  · dsimp only
    split <;> infer_instance

instance [∀ s M c, Decidable (sys.allowed s M c)] (p : Pool S C) (schedule : List (Action C)) :
    Decidable (sys.RunsAllowed p schedule) := by
  induction schedule generalizing p with
  | nil => exact isTrue trivial
  | cons action schedule ih =>
    unfold RunsAllowed
    have := ih (sys.act p action)
    infer_instance

structure Legal (p : Pool S C) (schedule : List (Action C)) : Prop where
  starts : ∀ commands, .start commands ∈ schedule → sys.program commands
  runs : sys.RunsAllowed p schedule

/-- Whether an action starts nothing, or something that may be started. -/
def startable [DecidablePred sys.program] : Action C → Bool
  | .start commands => sys.program commands
  | .run _ => true

variable {sys}

theorem play_last (n : Nat) (s : S) (threads : List (List C)) (cmds : List C) :
    sys.play ⟨s, threads ++ [cmds]⟩ (List.replicate n (.run threads.length)) =
      ⟨(sys.solo n s cmds).1, threads ++ [(sys.solo n s cmds).2]⟩ := by
  induction n generalizing s cmds with
  | zero => rfl
  | succ n ih =>
    cases cmds with
    | nil =>
      have hid : sys.act ⟨s, threads ++ [[]]⟩ (.run threads.length) = ⟨s, threads ++ [[]]⟩ := by simp [act]
      have hsl : sys.solo n s [] = (s, []) := by cases n <;> rfl
      rw [List.replicate_succ, play, List.foldl_cons, hid]
      exact (ih s []).trans (by rw [hsl, solo])
    | cons c rest =>
      have hrun : sys.act ⟨s, threads ++ [c :: rest]⟩ (.run threads.length) =
          ⟨(sys.exec c s).1, threads ++ [(sys.exec c s).2 ++ rest]⟩ := by simp [act]
      rw [List.replicate_succ, play, List.foldl_cons, hrun]
      exact ih _ _

theorem alone_eq (cmds : List C) (n : Nat) :
    sys.alone p cmds n = ⟨(sys.solo n p.state cmds).1, p.threads ++ [(sys.solo n p.state cmds).2]⟩ :=
  play_last n p.state p.threads cmds

theorem Legal.of_all [DecidablePred sys.program] {p : Pool S C} {schedule : List (Action C)}
    (hst : schedule.all sys.startable = true) (hrn : sys.RunsAllowed p schedule) : sys.Legal p schedule :=
  ⟨fun commands hmem => of_decide_eq_true (List.all_eq_true.1 hst (.start commands) hmem), hrn⟩

theorem Reachable.act {s : S} {p : Pool S C} {action : Action C} (h : sys.Reachable s p)
    (hst : ∀ commands, action = .start commands → sys.program commands) (hen : sys.Enabled p action) :
    sys.Reachable s (sys.act p action) := by
  cases action with
  | start commands => exact h.tail (.start (hst commands rfl))
  | run i =>
    unfold System.act
    unfold Enabled at hen
    dsimp only at hen ⊢
    split at hen
    · exact h.tail (.run ‹_› hen)
    · exact h

theorem Reachable.play {s : S} {p : Pool S C} {schedule : List (Action C)} (h : sys.Reachable s p)
    (hlg : sys.Legal p schedule) : sys.Reachable s (sys.play p schedule) := by
  induction schedule generalizing p with
  | nil => exact h
  | cons action schedule ih =>
    refine ih (h.act ?_ hlg.runs.1) ⟨?_, hlg.runs.2⟩
    · rintro commands rfl
      exact hlg.starts commands mem_cons_self
    · exact fun commands hmem => hlg.starts commands (mem_cons_of_mem _ hmem)

end System

/-! ## Participants that meet: every one gives a value and waits -/

structure Rendezvous (ι S V R : Type) where
  contribute : ι → S → V
  combine : (ι → V) → V
  next : ι → S → V → S ⊕ R

namespace Rendezvous

inductive Phase (S R : Type) where
  | ready (s : S)
  | arrived (s : S)
  | done (r : R)

def Phase.after {S R : Type} : S ⊕ R → Phase S R
  | .inl s => .ready s
  | .inr r => .done r

variable {ι S V R : Type} [DecidableEq ι] (b : Rendezvous ι S V R)

/-- Where every participant is after a meeting. -/
def round (s : ι → S) (i : ι) : S ⊕ R := b.next i (s i) (b.combine fun j => b.contribute j (s j))

inductive Step : (ι → Phase S R) → (ι → Phase S R) → Prop
  | arrive {σ : ι → Phase S R} {i : ι} {s : S} (h : σ i = .ready s) : Step σ (Function.update σ i (.arrived s))
  | meet {σ : ι → Phase S R} {s : ι → S} (h : ∀ i, σ i = .arrived (s i)) : Step σ fun i => .after (b.round s i)

inductive Steps (σ₀ : ι → Phase S R) : Nat → (ι → Phase S R) → Prop
  | start : Steps σ₀ 0 σ₀
  | step {k : Nat} {σ σ' : ι → Phase S R} (h : Steps σ₀ k σ) (hstep : b.Step σ σ') : Steps σ₀ (k + 1) σ'

/-- All participants are before the same meeting, and `A` have arrived. -/
def Before (s : ι → S) (A : Finset ι) (σ : ι → Phase S R) : Prop :=
  ∀ i, σ i = if i ∈ A then .arrived (s i) else .ready (s i)

variable {b} {s : ι → S} {A : Finset ι} {σ σ' : ι → Phase S R}

theorem Before.step (h : Before s A σ) (hstep : b.Step σ σ') :
    (∃ i ∉ A, Before s (insert i A) σ') ∨ ((∀ i, i ∈ A) ∧ σ' = fun i => .after (b.round s i)) := by
  cases hstep with
  | @arrive i s₁ hrd =>
    have hi := h i
    rw [hrd] at hi
    split at hi
    · cases hi
    rename_i hnot
    injection hi with hs
    refine .inl ⟨i, hnot, fun j => ?_⟩
    rcases eq_or_ne j i with rfl | hne
    · rw [Function.update_self, if_pos (Finset.mem_insert_self _ _), hs]
    · rw [Function.update_of_ne hne, h j]
      simp [Finset.mem_insert, hne]
  | @meet s₁ har =>
    have hall : ∀ i, i ∈ A ∧ s₁ i = s i := by
      intro i
      have hi := h i
      rw [har i] at hi
      split at hi
      · injection hi with hs
        exact ⟨‹_›, hs⟩
      · cases hi
    obtain rfl : s₁ = s := funext fun i => (hall i).2
    exact .inr ⟨fun i => (hall i).1, rfl⟩

theorem Before.enabled (h : Before s A σ) (b : Rendezvous ι S V R) : ∃ σ', b.Step σ σ' := by
  rcases em (∀ i, i ∈ A) with hall | hnot
  · refine ⟨_, .meet (s := s) fun i => ?_⟩
    rw [h i, if_pos (hall i)]
  · obtain ⟨i, hi⟩ := not_forall.1 hnot
    refine ⟨_, .arrive (i := i) (s := s i) ?_⟩
    rw [h i, if_neg hi]

theorem not_step_of_done [Nonempty ι] {r : ι → R} (hdn : ∀ i, σ i = .done (r i)) (σ' : ι → Phase S R) :
    ¬ b.Step σ σ' := by
  intro hstep
  obtain ⟨i₀⟩ := ‹Nonempty ι›
  cases hstep with
  | @arrive i _ hrd =>
    rw [hdn i] at hrd
    cases hrd
  | meet har =>
    have hi := har i₀
    rw [hdn i₀] at hi
    cases hi

theorem Steps.eq_of_done [Nonempty ι] {r : ι → R} {k : Nat} (hst : b.Steps (fun i => .done (r i)) k σ) :
    k = 0 ∧ σ = fun i => .done (r i) := by
  induction hst with
  | start => exact ⟨rfl, rfl⟩
  | step _ hstep ih =>
    obtain ⟨-, rfl⟩ := ih
    exact absurd hstep (not_step_of_done (fun _ => rfl) _)

/-- If all participants leave a meeting together, for the next one or for good, then they are always before the same
meeting or all done, and a run ends. -/
theorem Steps.together [Fintype ι] [Nonempty ι] {I : (ι → S) → Prop} {Q : (ι → R) → Prop} {rounds : (ι → S) → Nat}
    (hrn : ∀ s, I s → (∃ s', (∀ i, b.round s i = .inl (s' i)) ∧ I s' ∧ rounds s' < rounds s) ∨
      ∃ r, (∀ i, b.round s i = .inr (r i)) ∧ Q r) (hs : I s) {k : Nat} (hst : b.Steps (fun i => .ready (s i)) k σ) :
    let q := Fintype.card ι + 1
    (∃ s' A, I s' ∧ Before s' A σ ∧ k + rounds s' * q + (Fintype.card ι - A.card) + 1 ≤ (rounds s + 1) * q) ∨ ∃
      r, Q r ∧ (∀ i, σ i = .done (r i)) ∧ k ≤ (rounds s + 1) * q := by
  induction hst with
  | start =>
    refine .inl ⟨s, ∅, hs, fun i => by simp, ?_⟩
    rw [Nat.succ_mul]
    omega
  | @step k σ σ' _ hstep ih =>
    rcases ih with ⟨s', A, hs', hbf, hk⟩ | ⟨r, -, hdn, -⟩
    · rcases hbf.step hstep with ⟨i, hi, har⟩ | ⟨hall, rfl⟩
      · have hcr := Finset.card_insert_of_notMem hi
        have hle : (insert i A).card ≤ Fintype.card ι := Finset.card_le_univ _
        exact .inl ⟨s', insert i A, hs', har, by omega⟩
      rcases hrn s' hs' with ⟨s'', hnx, hs'', hls⟩ | ⟨r, hnx, hr⟩
      · refine .inl ⟨s'', ∅, hs'', fun i => ?_, ?_⟩
        · show Phase.after (b.round s' i) = _
          rw [hnx i]
          rfl
        have hmul : (rounds s'' + 1) * (Fintype.card ι + 1) ≤ rounds s' * (Fintype.card ι + 1) :=
          Nat.mul_le_mul_right _ hls
        rw [Nat.succ_mul] at hmul
        omega
      · refine .inr ⟨r, hr, fun i => ?_, by omega⟩
        show Phase.after (b.round s' i) = _
        rw [hnx i]
        rfl
    · exact absurd hstep (not_step_of_done hdn _)

end Rendezvous

end Aibrix.Lib
