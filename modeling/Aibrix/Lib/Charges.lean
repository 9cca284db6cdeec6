import Mathlib.Algebra.Order.BigOperators.Group.Finset
import Mathlib.Algebra.Order.Group.Int
import Mathlib.Tactic.Abel

/-! # Sums over the charges that are held

Charges are numbered in the order they are made. -/

namespace Aibrix.Lib

open Finset Classical

variable {A : Type} [AddCommGroup A] {n e : ℕ} {held held' : ℕ → Prop} {amount amount' : ℕ → A}

noncomputable def heldSum (n : ℕ) (held : ℕ → Prop) (amount : ℕ → A) : A :=
  ∑ e ∈ range n, if held e then amount e else 0

theorem heldSum_congr (hhl : ∀ e < n, held' e ↔ held e) (ham : ∀ e < n, held e → amount' e = amount e) :
    heldSum n held' amount' = heldSum n held amount := by
  refine sum_congr rfl fun e he => ?_
  rw [mem_range] at he
  by_cases h : held e
  · rw [if_pos ((hhl e he).2 h), if_pos h, ham e he h]
  · rw [if_neg (mt (hhl e he).1 h), if_neg h]

theorem heldSum_split (he : e < n) (held : ℕ → Prop) (amount : ℕ → A) :
    heldSum n held amount = (if held e then amount e else 0) + heldSum n (fun i => i ≠ e ∧ held i) amount := by
  have hmem : e ∈ range n := mem_range.2 he
  have hrs : heldSum n (fun i => i ≠ e ∧ held i) amount =
      ∑ i ∈ (range n).erase e, if held i then amount i else 0 := by
    rw [heldSum, ← add_sum_erase _ _ hmem, if_neg (by simp), zero_add]
    refine sum_congr rfl fun i hi => ?_
    simp [ne_of_mem_erase hi]
  rw [hrs, heldSum, ← add_sum_erase _ _ hmem]

theorem heldSum_change {P Q : Prop} [Decidable P] [Decidable Q] (he : e < n) (hbf : held e ↔ P)
    (haf : held' e ↔ Q) (hhl : ∀ i < n, i ≠ e → (held' i ↔ held i))
    (ham : ∀ i < n, i ≠ e → held i → amount' i = amount i) : heldSum n held' amount' =
      heldSum n held amount + ((if Q then amount' e else 0) - (if P then amount e else 0)) := by
  have hrs : heldSum n (fun i => i ≠ e ∧ held' i) amount' = heldSum n (fun i => i ≠ e ∧ held i) amount :=
    heldSum_congr (fun i hi => and_congr_right (hhl i hi)) fun i hi h => ham i hi h.1 h.2
  rw [heldSum_split he held' amount', heldSum_split he held amount, hrs]
  simp only [hbf, haf]
  abel

theorem heldSum_enter {P : Prop} [Decidable P] (he : e < n) (hout : ¬ held e) (hin : held' e ↔ P)
    (hot : ∀ i < n, i ≠ e → (held' i ↔ held i)) :
    heldSum n held' amount = heldSum n held amount + if P then amount e else 0 := by
  rw [heldSum_change he (iff_false_intro hout) hin hot fun _ _ _ _ => rfl, if_neg not_false, sub_zero]

theorem heldSum_leave {P : Prop} [Decidable P] (he : e < n) (hin : held e ↔ P) (hout : ¬ held' e)
    (hot : ∀ i < n, i ≠ e → (held' i ↔ held i)) :
    heldSum n held' amount = heldSum n held amount + if P then -amount e else 0 := by
  rw [heldSum_change he hin (iff_false_intro hout) hot fun _ _ _ _ => rfl, if_neg not_false]
  split <;> simp

theorem heldSum_succ (hnew : ¬ held' n) (hhl : ∀ i < n, held' i ↔ held i)
    (ham : ∀ i < n, held i → amount' i = amount i) : heldSum (n + 1) held' amount' = heldSum n held amount := by
  rw [heldSum, sum_range_succ, if_neg hnew, add_zero]
  exact heldSum_congr hhl ham

theorem heldSum_succ_of_iff {P : Prop} [Decidable P] (hnew : held' n ↔ P) (hhl : ∀ i < n, held' i ↔ held i)
    (ham : ∀ i < n, held i → amount' i = amount i) :
    heldSum (n + 1) held' amount' = heldSum n held amount + if P then amount' n else 0 := by
  rw [heldSum, sum_range_succ]
  congr 1
  · exact heldSum_congr hhl ham
  · exact if_congr hnew rfl rfl

theorem heldSum_eq_zero (h : ∀ e < n, ¬ held e) : heldSum n held amount = 0 :=
  sum_eq_zero fun e he => if_neg (h e (mem_range.1 he))

theorem map_heldSum {B : Type} [AddCommGroup B] (g : A →+ B) :
    g (heldSum n held amount) = heldSum n held fun e => g (amount e) := by
  rw [heldSum, map_sum]
  refine sum_congr rfl fun e _ => ?_
  rw [apply_ite g, map_zero]

section
variable [LinearOrder A] [IsOrderedAddMonoid A]

theorem heldSum_nonneg (h : ∀ e < n, held e → 0 ≤ amount e) : 0 ≤ heldSum n held amount := by
  refine sum_nonneg fun e he => ?_
  split
  · exact h e (mem_range.1 he) ‹_›
  · exact le_rfl

theorem le_heldSum (h : ∀ e < n, held e → 0 ≤ amount e) (he : e < n) (hhl : held e) :
    amount e ≤ heldSum n held amount := by
  rw [heldSum_split he, if_pos hhl]
  exact le_add_of_nonneg_right (heldSum_nonneg fun i hi hi' => h i hi hi'.2)

end

theorem one_le_heldSum_fst {weight : ℕ → A} (he : e < n) (hhl : held e) :
    1 ≤ (heldSum n held fun i => ((1 : ℤ), weight i)).1 := by
  rw [← AddMonoidHom.coe_fst, map_heldSum]
  exact le_heldSum (fun _ _ _ => Int.one_nonneg) he hhl

theorem heldSum_eq_zero_of_fst {weight : ℕ → A} (h : (heldSum n held fun i => ((1 : ℤ), weight i)).1 ≤ 0) :
    (heldSum n held fun i => ((1 : ℤ), weight i)) = 0 := by
  refine heldSum_eq_zero fun e he hhl => ?_
  have hone : 1 ≤ (heldSum n held fun i => ((1 : ℤ), weight i)).1 := one_le_heldSum_fst he hhl
  omega

end Aibrix.Lib
