import Mathlib.Order.WellFounded

/-! # Counts that approach a goal -/

namespace Aibrix.Lib

/-- `x` lies between `a` and `b`, whichever of them is larger. -/
def Between (a b x : Int) : Prop := (a ≤ x ∧ x ≤ b) ∨ (b ≤ x ∧ x ≤ a)

def clamp (lo hi x : Int) : Int := if x < lo then lo else if hi < x then hi else x

theorem Between.left (a b : Int) : Between a b a := by
  unfold Between
  omega

variable {a b x goal : Int}

theorem Between.trans {y : Int} (hx : Between a b x) (hy : Between a x y) : Between a b y := by
  unfold Between at *
  omega

section clamp

variable {lo hi : Int}

section

variable (hle : lo ≤ hi)
include hle

theorem Between.clamp (h : Between a b x) : Between (clamp lo hi a) (clamp lo hi b) (clamp lo hi x) := by
  unfold Between Lib.clamp at *
  omega

theorem clamp_mono (h : a ≤ b) : clamp lo hi a ≤ clamp lo hi b := by
  unfold clamp
  omega

theorem clamp_clamp (x : Int) : clamp lo hi (clamp lo hi x) = clamp lo hi x := by
  unfold clamp
  omega

theorem Between.of_clamp (h : Between (Lib.clamp lo hi a) (Lib.clamp lo hi b) x) : Between a (Lib.clamp lo hi b) x := by
  unfold Between Lib.clamp at *
  omega

theorem eq_clamp_of_step {c next : Int} (h : Between c goal next) (hmv : c ≠ goal → next ≠ c)
    (hfx : clamp lo hi next = c) : c = clamp lo hi goal := by
  unfold Between clamp at *
  omega

end

end clamp

theorem approach {x : Nat → Int} (h : ∀ k, Between (x k) goal (x (k + 1))) :
    ((∀ i j, i ≤ j → x i ≤ x j) ∨ ∀ i j, i ≤ j → x j ≤ x i) ∧ ∃ K, ∀ k, K ≤ k → x k = x K := by
  have hsd : (∀ k, x k ≤ x (k + 1) ∧ x (k + 1) ≤ goal) ∨ ∀ k, x (k + 1) ≤ x k ∧ goal ≤ x (k + 1) := by
    rcases le_total (x 0) goal with hle | hle
    · left
      intro k
      induction k with
      | zero =>
        have := h 0
        unfold Between at this
        omega
      | succ k ih =>
        have := h (k + 1)
        unfold Between at this
        omega
    · right
      intro k
      induction k with
      | zero =>
        have := h 0
        unfold Between at this
        omega
      | succ k ih =>
        have := h (k + 1)
        unfold Between at this
        omega
  -- the place where the distance to the goal is least
  obtain ⟨K, hK⟩ : ∃ K, ∀ k, (goal - x K).natAbs ≤ (goal - x k).natAbs := by
    obtain ⟨K, -, hK⟩ := WellFounded.has_min (measure fun k => (goal - x k).natAbs).wf Set.univ ⟨0, trivial⟩
    exact ⟨K, fun k => Nat.le_of_not_lt (hK k trivial)⟩
  rcases hsd with hup | hdw
  · have hmn : ∀ i j, i ≤ j → x i ≤ x j := fun _ _ hij => monotone_nat_of_le_succ (fun k => (hup k).1) hij
    refine ⟨.inl hmn, K, fun k hk => ?_⟩
    have hls := hK k
    have hst := hup k
    have hle := hmn K k hk
    omega
  · have han : ∀ i j, i ≤ j → x j ≤ x i := fun _ _ hij => antitone_nat_of_succ_le (fun k => (hdw k).1) hij
    refine ⟨.inr han, K, fun k hk => ?_⟩
    have hls := hK k
    have hst := hdw k
    have hle := han K k hk
    omega

end Aibrix.Lib
