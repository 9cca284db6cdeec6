import Aibrix.Lib.Approach
import Mathlib.Data.List.TakeWhile

/-! # Drift of a gateway's own running-request field

`runningRequestsDriftState.observe`, folded over the samples of one pod, the newest first. -/

namespace Aibrix.RunningRequests

open Lib List

def runningRequestsDriftConfirmPasses : Nat := 5

/-- `direction` is 1 while the Redis field is above the local count, -1 while it is below, and 0 without a gap. -/
structure RunningRequestsDriftState where
  direction : Int := 0
  passes : Nat := 0
  minGap : Int := 0
deriving DecidableEq

namespace RunningRequestsDriftState

/-- The next state, and the correction to add to the Redis field. -/
def observe (s : RunningRequestsDriftState) (redisCount localCount : Int) : RunningRequestsDriftState × Int :=
  let gap := redisCount - localCount
  if gap = 0 then ({}, 0) else
  let direction : Int := if gap < 0 then -1 else 1
  let gap := if gap < 0 then -gap else gap
  let s : RunningRequestsDriftState :=
    if s.direction ≠ direction then { direction, minGap := gap }
    else if gap < s.minGap then { s with minGap := gap } else s
  if s.passes + 1 < runningRequestsDriftConfirmPasses then ({ s with passes := s.passes + 1 }, 0)
  else ({}, -direction * s.minGap)

end RunningRequestsDriftState

/-- A Redis field and the local count. -/
abbrev Sample := Int × Int

namespace Sample

def gap (x : Sample) : Int := x.1 - x.2

def direction (x : Sample) : Int := if x.gap < 0 then -1 else if x.gap = 0 then 0 else 1

end Sample

def driftState : List Sample → RunningRequestsDriftState
  | [] => {}
  | x :: xs => ((driftState xs).observe x.1 x.2).1

def correction (x : Sample) (xs : List Sample) : Int := ((driftState xs).observe x.1 x.2).2

/-- The samples since the counts agreed or were corrected. -/
def sinceReset : List Sample → List Sample
  | [] => []
  | x :: xs => if x.gap = 0 ∨ correction x xs ≠ 0 then [] else x :: sinceReset xs

/-- The newest samples, as far as they differ in direction `d`. -/
def streak (d : Int) (xs : List Sample) : List Sample := xs.takeWhile (·.direction = d)

def LeastGap (m : Int) (xs : List Sample) : Prop :=
  (∀ x ∈ xs, m ≤ x.gap.natAbs) ∧ ∃ x ∈ xs, m = x.gap.natAbs

/-- The samples a correction is confirmed by. -/
def confirming (x : Sample) (xs : List Sample) : List Sample :=
  (x :: sinceReset xs).take runningRequestsDriftConfirmPasses

variable {s : RunningRequestsDriftState} {x : Sample} {xs : List Sample} {m : Int}

structure Tracks (s : RunningRequestsDriftState) (xs : List Sample) : Prop where
  tracked : s.direction ≠ 0 → s.passes = (streak s.direction xs).length ∧ LeastGap s.minGap (streak s.direction xs)
  other : ∀ d, d ≠ 0 → d ≠ s.direction → streak d xs = []
  short : ∀ d, d ≠ 0 → (streak d xs).length < runningRequestsDriftConfirmPasses

theorem Tracks.nil : Tracks {} [] :=
  ⟨fun h => absurd rfl h, fun _ _ _ => rfl, fun _ _ => Nat.zero_lt_succ 4⟩

theorem direction_ne_zero (hx : x.gap ≠ 0) : x.direction ≠ 0 := by
  unfold Sample.direction
  omega

theorem streak_cons (x : Sample) (xs : List Sample) : streak x.direction (x :: xs) = x :: streak x.direction xs := by
  simp [streak]

theorem direction_of_mem_streak {d : Int} (h : x ∈ streak d xs) : x.direction = d := by
  simpa using mem_takeWhile_imp h

theorem LeastGap.cons (h : LeastGap m xs) :
    LeastGap (if (x.gap.natAbs : Int) < m then x.gap.natAbs else m) (x :: xs) := by
  obtain ⟨hle, y, hy, rfl⟩ := h
  refine ⟨fun z hz => ?_, ?_⟩
  · obtain rfl | hz := mem_cons.1 hz
    · omega
    · have := hle z hz
      omega
  · split_ifs
    · exact ⟨x, mem_cons_self, rfl⟩
    · exact ⟨y, mem_cons_of_mem x hy, rfl⟩

/-- `observe` on a sample with a gap, over the streak it continues or starts. -/
theorem Tracks.observe (h : Tracks s xs) (hx : x.gap ≠ 0) :
    let r := streak x.direction (x :: xs)
    ∃ m, LeastGap m r ∧ s.observe x.1 x.2 =
    if r.length < runningRequestsDriftConfirmPasses then (⟨x.direction, r.length, m⟩, 0)
    else ({}, -x.direction * m) := by
  have hgap : x.1 - x.2 ≠ 0 := hx
  have hdir : (if x.1 - x.2 < 0 then -1 else 1 : Int) = x.direction := by
    unfold Sample.direction Sample.gap
    split_ifs <;> rfl
  have habs : (if x.1 - x.2 < 0 then -(x.1 - x.2) else x.1 - x.2) = (x.gap.natAbs : Int) := by
    unfold Sample.gap
    omega
  simp only [RunningRequestsDriftState.observe, if_neg hgap, hdir, habs, streak_cons, length_cons]
  have hne := direction_ne_zero hx
  by_cases hsame : s.direction = x.direction
  · rw [← hsame] at hne ⊢
    obtain ⟨hps, hmn⟩ := h.tracked hne
    refine ⟨_, hmn.cons, ?_⟩
    rw [if_neg (not_not.2 rfl), ← hps]
    split_ifs <;> rfl
  · rw [if_pos hsame, h.other _ hne (Ne.symm hsame)]
    exact ⟨x.gap.natAbs, by simp [LeastGap], rfl⟩

theorem correction_ne_zero (hx : x.gap ≠ 0) (hm : LeastGap m (streak x.direction xs)) : -x.direction * m ≠ 0 := by
  obtain ⟨-, y, hy, rfl⟩ := hm
  have hdir := direction_of_mem_streak hy
  have hne := direction_ne_zero hx
  have hy0 : y.gap ≠ 0 := fun h0 => hne (hdir.symm.trans (by simp [Sample.direction, h0]))
  simp [hne, hy0]

/-- The state after any samples describes the streak of newest ones since the last reset. -/
theorem tracks_driftState (xs : List Sample) : Tracks (driftState xs) (sinceReset xs) := by
  induction xs with
  | nil => exact .nil
  | cons x xs ih =>
    by_cases hx : x.gap = 0
    · have hgap : x.1 - x.2 = 0 := hx
      simp only [driftState, RunningRequestsDriftState.observe, sinceReset, hx, hgap, if_true, true_or]
      exact .nil
    obtain ⟨m, hm, hobs⟩ := ih.observe hx
    simp only [driftState, sinceReset, correction, hobs, hx, false_or]
    split_ifs with hlt hc hc
    · exact absurd rfl hc
    · have hother d (hd : d ≠ x.direction) : streak d (x :: sinceReset xs) = [] := by
        simp [streak, hd.symm]
      refine ⟨fun _ => ⟨rfl, hm⟩, fun d _ => hother d, fun d _ => ?_⟩
      by_cases hd : d = x.direction
      · exact hd ▸ hlt
      · rw [hother d hd]
        decide
    · exact .nil
    · exact absurd (correction_ne_zero hx hm) hc

theorem le_length_streak {n : Nat} {d : Int} (hn : (xs.take n).length = n) (h : ∀ y ∈ xs.take n, y.direction = d) :
    n ≤ (streak d xs).length := by
  rw [streak, ← take_append_drop n xs, takeWhile_append_of_pos (by simpa using h), length_append, hn]
  omega

theorem correction_cases (xs : List Sample) (hx : x.gap ≠ 0) : (correction x xs = 0 ∧
        (streak x.direction (x :: sinceReset xs)).length < runningRequestsDriftConfirmPasses) ∨
      ∃ m, correction x xs = -x.direction * m ∧ -x.direction * m ≠ 0 ∧ LeastGap m (confirming x xs) ∧
        (confirming x xs).length = runningRequestsDriftConfirmPasses ∧
        ∀ y ∈ confirming x xs, y.direction = x.direction := by
  have ht := tracks_driftState xs
  obtain ⟨m, hm, hobs⟩ := ht.observe hx
  have hshort := ht.short _ (direction_ne_zero hx)
  unfold correction
  rw [hobs]
  by_cases hc : (streak x.direction (x :: sinceReset xs)).length < runningRequestsDriftConfirmPasses
  · rw [if_pos hc]
    exact .inl ⟨rfl, hc⟩
  -- the streak is full: it is the whole window
  have hlen : (streak x.direction (x :: sinceReset xs)).length = runningRequestsDriftConfirmPasses := by
    rw [streak_cons, length_cons] at *
    omega
  have hall : confirming x xs = streak x.direction (x :: sinceReset xs) := by
    have hp : streak x.direction (x :: sinceReset xs) <+: _ := takeWhile_prefix _
    rw [prefix_iff_eq_take, hlen] at hp
    exact hp.symm
  rw [if_neg hc, hall]
  exact .inr ⟨m, rfl, correction_ne_zero hx hm, hm, hlen, fun y => direction_of_mem_streak⟩

theorem natAbs_correction (hx : x.gap ≠ 0) (hm : LeastGap m xs) : ((-x.direction * m).natAbs : Int) = m := by
  obtain ⟨-, y, -, rfl⟩ := hm
  unfold Sample.direction
  split_ifs <;> omega

theorem sign_correction (hx : x.gap ≠ 0) (hm : LeastGap m xs) (h0 : -x.direction * m ≠ 0) :
    (-x.direction * m).sign = -x.direction := by
  have hpos : 0 < m := by
    obtain ⟨-, y, -, rfl⟩ := hm
    have hne : (y.gap.natAbs : Int) ≠ 0 := fun h => h0 (by rw [h, Int.mul_zero])
    omega
  rw [Int.sign_mul, Int.sign_eq_one_of_pos hpos]
  unfold Sample.direction
  split_ifs <;> simp

theorem between_correction (hx : x.gap ≠ 0) (hm : LeastGap m (x :: xs)) : Between x.1 x.2 (x.1 + -x.direction * m) := by
  have hle := hm.1 x mem_cons_self
  obtain ⟨-, y, -, rfl⟩ := hm
  unfold Between Sample.direction Sample.gap at *
  split_ifs <;> omega

theorem natAbs_gap_le {y : Sample} {d : Int} (hy : y.direction = x.direction)
    (hd : (y.gap - d) * x.direction ≤ 0) : y.gap.natAbs ≤ d.natAbs := by
  rw [← hy] at hd
  unfold Sample.direction at hd
  split_ifs at hd <;> omega

/-- `y.gap - d` is the noise in a sample when the field has drifted by `d`. -/
theorem observe_corrects_confirmed_drift (x : Sample) (xs : List Sample) :
    (correction x xs ≠ 0 ↔ (confirming x xs).length = runningRequestsDriftConfirmPasses ∧ x.gap ≠ 0 ∧
        ∀ y ∈ confirming x xs, y.direction = x.direction) ∧ (correction x xs ≠ 0 →
        LeastGap (correction x xs).natAbs (confirming x xs) ∧ (correction x xs).sign = -x.direction ∧
          Between x.1 x.2 (x.1 + correction x xs) ∧
          ∀ d : Int, (∃ y ∈ confirming x xs, (y.gap - d) * x.direction ≤ 0) →
            (correction x xs).natAbs ≤ d.natAbs) := by
  by_cases hx : x.gap = 0
  · have hgap : x.1 - x.2 = 0 := hx
    have hc : correction x xs = 0 := by simp [correction, RunningRequestsDriftState.observe, hgap]
    simp [hc, hx]
  obtain ⟨hc, hlt⟩ | ⟨m, hc, h0, hm, hlen, hdir⟩ := correction_cases xs hx
  · refine ⟨⟨fun h => absurd hc h, ?_⟩, fun h => absurd hc h⟩
    rintro ⟨hlen, -, hdir⟩
    exact absurd (le_length_streak hlen hdir) (not_le.2 hlt)
  rw [hc]
  have habs := natAbs_correction hx hm
  refine ⟨⟨fun _ => ⟨hlen, hx, hdir⟩, fun _ => h0⟩, fun _ =>
    ⟨habs.symm ▸ hm, sign_correction hx hm h0, between_correction hx hm, ?_⟩⟩
  rintro d ⟨y, hy, hd⟩
  have hle := hm.1 y hy
  have hgap := natAbs_gap_le (hdir y hy) hd
  omega

end Aibrix.RunningRequests
