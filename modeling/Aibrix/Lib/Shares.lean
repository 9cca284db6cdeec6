import Mathlib.Algebra.Order.BigOperators.Group.List
import Mathlib.Tactic.Ring
import Mathlib.Tactic.Linarith

/-! # Dividing an amount by weight

Whole shares first, then what the division left over, one unit at a time in a fixed order.
-/

namespace Aibrix.Lib

open List

/-- The whole share of `spare` that each weight is due. -/
def shares (spare : Int) (weights : List Int) : List Int :=
  weights.map fun w => spare * w / weights.sum

theorem mul_sum_map_div_le (spare total : Int) (h : 0 < total) (weights : List Int) :
    total * (weights.map fun w => spare * w / total).sum ≤ spare * weights.sum := by
  induction weights with
  | nil => simp
  | cons w ws ih =>
    simp only [map_cons, sum_cons, mul_add]
    have := Int.mul_ediv_self_le (x := spare * w) (k := total) (by omega)
    omega

theorem sum_shares_le (spare : Int) (weights : List Int) (h : 0 < weights.sum) :
    (shares spare weights).sum ≤ spare := by
  have := mul_sum_map_div_le spare weights.sum h weights
  rw [mul_comm spare] at this
  exact le_of_mul_le_mul_left this h

theorem le_mul_sum_map_div (spare total : Int) (h : 0 < total) (weights : List Int) (hw : ∀ w ∈ weights, 0 ≤ w) :
    spare * weights.sum ≤ total * (weights.map fun w => spare * w / total).sum +
      (total - 1) * (weights.countP (0 < ·) : Nat) := by
  induction weights with
  | nil => simp
  | cons w ws ih =>
    have ih := ih fun w' hw' => hw w' (mem_cons_of_mem _ hw')
    have hmod := Int.mul_ediv_add_emod (spare * w) total
    have hlt := Int.emod_lt_of_pos (spare * w) h
    simp only [map_cons, sum_cons, countP_cons]
    by_cases hpos : 0 < w
    · simp only [hpos, decide_true, if_true, Nat.cast_add, Nat.cast_one, mul_add, mul_one]
      omega
    -- A weight of zero is due nothing, so it leaves nothing over.
    have hzr : w = 0 := by
      have := hw w mem_cons_self
      omega
    subst hzr
    simpa using ih

theorem sub_sum_shares_le (spare : Int) (weights : List Int) (h : 0 < weights.sum) (hw : ∀ w ∈ weights, 0 ≤ w) :
    spare - (shares spare weights).sum ≤ (weights.countP (0 < ·) : Nat) := by
  have hle := le_mul_sum_map_div spare weights.sum h weights hw
  have hmul : weights.sum * (spare - (shares spare weights).sum) ≤ weights.sum * (weights.countP (0 < ·) : Nat) := by
    unfold shares
    have hexp : (weights.sum - 1) * ((weights.countP (0 < ·) : Nat) : Int) =
        weights.sum * (weights.countP (0 < ·) : Nat) - (weights.countP (0 < ·) : Nat) := by ring
    rw [mul_comm spare] at hle
    rw [mul_sub]
    omega
  exact le_of_mul_le_mul_left hmul h

/-- Hands out `left` units one at a time, going round from `i` and passing over weights of zero. -/
def handOut (weights : List Int) : (fuel i left : Nat) → List Int → Option (List Int)
  | _, _, 0, amounts => some amounts
  | 0, _, _ + 1, _ => none
  | fuel + 1, i, left + 1, amounts =>
    if weights.getD i 0 = 0 then handOut weights fuel ((i + 1) % amounts.length) (left + 1) amounts
    else handOut weights fuel ((i + 1) % amounts.length) left (amounts.modify i (· + 1))

theorem handOut_mono {weights amounts r : List Int} {fuel fuel' i left : Nat} (hle : fuel ≤ fuel')
    (h : handOut weights fuel i left amounts = some r) : handOut weights fuel' i left amounts = some r := by
  induction fuel generalizing fuel' i left amounts with
  | zero =>
    cases left with
    | zero => cases fuel' <;> exact h
    | succ left => cases h
  | succ fuel ih =>
    cases fuel' with
    | zero => omega
    | succ fuel' =>
      cases left with
      | zero => exact h
      | succ left =>
        unfold handOut at h ⊢
        split at h
        · rw [if_pos ‹_›]
          exact ih (Nat.le_of_succ_le_succ hle) h
        · rw [if_neg ‹_›]
          exact ih (Nat.le_of_succ_le_succ hle) h

/-- One unit for each of the first `left` weights that are not zero. -/
def ones : List Int → Nat → List Int
  | [], _ => []
  | _ :: ws, 0 => 0 :: ones ws 0
  | w :: ws, left + 1 => if w = 0 then 0 :: ones ws (left + 1) else 1 :: ones ws left

theorem ones_zero (weights : List Int) : ones weights 0 = replicate weights.length 0 := by
  induction weights with
  | nil => rfl
  | cons w ws ih => rw [ones, ih, length_cons, replicate_succ]

theorem ones_spec (weights : List Int) (left : Nat) :
    Forall₂ (fun w x => x = 0 ∨ w ≠ 0 ∧ x = 1) weights (ones weights left) := by
  induction weights generalizing left with
  | nil => exact .nil
  | cons w ws ih =>
    cases left with
    | zero => exact .cons (.inl rfl) (ih 0)
    | succ left =>
      unfold ones
      split
      · exact .cons (.inl rfl) (ih _)
      · exact .cons (.inr ⟨‹_›, rfl⟩) (ih _)

theorem sum_ones (weights : List Int) {left : Nat} (h : left ≤ weights.countP (0 < ·)) :
    (ones weights left).sum = left := by
  induction weights generalizing left with
  | nil =>
    obtain rfl : left = 0 := by simpa using h
    rfl
  | cons w ws ih =>
    rw [countP_cons] at h
    cases left with
    | zero => simpa [ones] using ih (Nat.zero_le _)
    | succ left =>
      unfold ones
      split
      · rw [sum_cons, ih (by simpa [‹w = 0›] using h), zero_add]
      · rw [sum_cons, ih (by split_ifs at h <;> omega)]
        push_cast
        ring

theorem zipWith_modify (amounts xs : List Int) (i : Nat) :
    zipWith (· + ·) (amounts.modify i (· + 1)) (replicate i 0 ++ 0 :: xs) =
      zipWith (· + ·) amounts (replicate i 0 ++ 1 :: xs) := by
  induction amounts generalizing i with
  | nil => simp
  | cons a as ih =>
    cases i with
    | zero => simp
    | succ i => simp [replicate_succ, ih]

theorem handOut_zero {weights amounts : List Int} (fuel : Nat) {i : Nat} (hlen : weights.length = amounts.length)
    (hi : i ≤ weights.length) (j : Nat) :
    handOut weights fuel j 0 amounts = some (zipWith (· + ·) amounts (replicate i 0 ++ ones (weights.drop i) 0)) := by
  have hzr : replicate i (0 : Int) ++ ones (weights.drop i) 0 = replicate amounts.length 0 := by
    rw [ones_zero, replicate_append_replicate, length_drop, ← hlen, Nat.add_sub_cancel' hi]
  have hid : zipWith (· + ·) amounts (replicate amounts.length 0) = amounts := by
    clear hzr hlen
    induction amounts with
    | nil => rfl
    | cons a as ih => simp [replicate_succ, ih]
  rw [hzr, hid]
  cases fuel <;> rfl

/-- One pass gives everything out. -/
theorem handOut_eq {weights : List Int} {fuel i left : Nat} (amounts : List Int)
    (hlen : weights.length = amounts.length) (hi : i + fuel = weights.length)
    (hlf : left ≤ (weights.drop i).countP (0 < ·)) : handOut weights fuel i left amounts =
      some (zipWith (· + ·) amounts (replicate i 0 ++ ones (weights.drop i) left)) := by
  induction fuel generalizing i left amounts with
  | zero =>
    rw [drop_eq_nil_of_le (by omega)] at hlf
    obtain rfl : left = 0 := by simpa using hlf
    exact handOut_zero 0 hlen (by omega) i
  | succ fuel ih =>
    cases left with
    | zero => exact handOut_zero _ hlen (by omega) i
    | succ left =>
      have hlt : i < weights.length := by omega
      -- what is still to be given goes to later engines, so the loop does not wrap round
      have hnext {left : Nat} {amounts' : List Int} (hlen' : amounts'.length = amounts.length)
          (hlf : left ≤ (weights.drop (i + 1)).countP (0 < ·)) :
          handOut weights fuel ((i + 1) % amounts.length) left amounts' =
            some (zipWith (· + ·) amounts' (replicate i 0 ++ 0 :: ones (weights.drop (i + 1)) left)) := by
        have hrep : replicate i (0 : Int) ++ 0 :: ones (weights.drop (i + 1)) left =
            replicate (i + 1) 0 ++ ones (weights.drop (i + 1)) left := by
          rw [replicate_succ', append_assoc, singleton_append]
        rw [hrep]
        cases left with
        | zero => exact handOut_zero _ (hlen.trans hlen'.symm) hlt _
        | succ left =>
          have hin : i + 1 < amounts.length := by
            by_contra hle
            rw [drop_eq_nil_of_le (by omega)] at hlf
            simp at hlf
          rw [Nat.mod_eq_of_lt hin]
          exact ih amounts' (hlen.trans hlen'.symm) (by omega) hlf
      rw [drop_eq_getElem_cons hlt, countP_cons] at hlf
      have hget : weights.getD i 0 = weights[i] := by simp [hlt]
      rw [drop_eq_getElem_cons hlt, handOut, hget, ones]
      split
      · exact hnext rfl (by simpa [‹weights[i] = 0›] using hlf)
      · rw [hnext (by simp) (by split_ifs at hlf <;> omega), zipWith_modify]

theorem handOut_once (weights : List Int) (left : Nat) (amounts : List Int) (hlen : weights.length = amounts.length)
    (hleft : left ≤ weights.countP (0 < ·)) : handOut weights (weights.length * left) 0 left amounts =
      some (zipWith (· + ·) amounts (ones weights left)) := by
  cases left with
  | zero => exact handOut_zero _ hlen (Nat.zero_le _) 0
  | succ left =>
    refine handOut_mono (Nat.le_mul_of_pos_right _ (Nat.succ_pos left)) ?_
    exact handOut_eq amounts hlen (Nat.zero_add _) hleft

theorem forall₂_zipWith {α β γ : Type} {R : α → β → Prop} {S : α → γ → Prop} {g : α → β → γ} {as : List α}
    {bs : List β} (hg : ∀ a b, R a b → S a (g a b)) (h : Forall₂ R as bs) : Forall₂ S as (zipWith g as bs) := by
  induction h with
  | nil => exact .nil
  | cons hab _ ih => exact .cons (hg _ _ hab) ih

/-- `spare` divided by weight, with nothing for anyone when there is no weight. -/
def divide (spare : Int) (weights : List Int) : List Int :=
  if 0 < weights.sum then
    zipWith (· + ·) (shares spare weights) (ones weights (spare - (shares spare weights).sum).toNat)
  else weights.map fun _ => 0

section divide

variable {spare : Int} {weights : List Int} (hw : ∀ w ∈ weights, 0 ≤ w)
include hw

theorem sum_divide (h : 0 < weights.sum) : (divide spare weights).sum = spare := by
  have hle := sub_sum_shares_le spare weights h hw
  have hnn := sum_shares_le spare weights h
  have hlen : (shares spare weights).length = (ones weights (spare - (shares spare weights).sum).toNat).length := by
    simpa [shares] using (ones_spec weights _).length_eq
  rw [divide, if_pos h, ← sum_add_sum_eq_sum_zipWith_of_length_eq _ _ hlen, sum_ones weights (by omega)]
  omega

theorem divide_spec (hs : 0 ≤ spare) : Forall₂ (fun w x => 0 ≤ x ∧ (w = 0 → x = 0) ∧
      (w ≠ 0 → x = spare * w / weights.sum ∨ x = spare * w / weights.sum + 1)) weights (divide spare weights) := by
  unfold divide
  split
  · rename_i hpos
    unfold shares
    rw [zipWith_map_left]
    refine forall₂_zipWith (fun w x h => ?_) ((forall₂_and_left _ _).2 ⟨hw, ones_spec weights _⟩)
    obtain ⟨hwn, hx⟩ := h
    have hdiv := Int.ediv_nonneg (mul_nonneg hs hwn) hpos.le
    obtain rfl | ⟨hw0, rfl⟩ := hx
    · refine ⟨by omega, fun hw0 => ?_, fun _ => .inl (add_zero _)⟩
      simp [hw0]
    · exact ⟨by omega, fun h => absurd h hw0, fun _ => .inr rfl⟩
  · rw [forall₂_map_right_iff, forall₂_same]
    intro w hmem
    have hw0 := hw w hmem
    have hle := single_le_sum hw w hmem
    exact ⟨le_rfl, fun _ => rfl, fun h => absurd (by omega) h⟩

end divide

end Aibrix.Lib
