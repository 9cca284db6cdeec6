import Mathlib.Logic.Equiv.Basic
import Mathlib.Order.Nat

/-! # Binary heaps

`container/heap` of Go over an array, with the caller's `Less`. -/

namespace Aibrix.Lib.Heap

open Function Array Equiv

variable {α : Type*} (less : α → α → Bool)

def parent (j : Nat) : Nat := (j - 1) / 2

variable (xs : Array α)

def lessAt (i j : Nat) : Bool :=
  match xs[i]?, xs[j]? with
  | some a, some b => less a b
  | _, _ => false

def up (xs : Array α) (j : Nat) : Nat → Array α
  | 0 => xs
  | fuel + 1 =>
    if parent j = j ∨ lessAt less xs j (parent j) = false then xs
    else up (xs.swapIfInBounds (parent j) j) (parent j) fuel

def push (a : α) : Array α := up less (xs.push a) xs.size (xs.size + 1)

def child (n : Nat) (xs : Array α) (i : Nat) : Nat :=
  if 2 * i + 2 < n ∧ lessAt less xs (2 * i + 2) (2 * i + 1) = true then 2 * i + 2 else 2 * i + 1

def down (n : Nat) (xs : Array α) (i : Nat) : Nat → Array α
  | 0 => xs
  | fuel + 1 =>
    if n ≤ 2 * i + 1 then xs
    else if lessAt less xs (child less n xs i) i = false then xs
    else down n (xs.swapIfInBounds i (child less n xs i)) (child less n xs i) fuel

def pop : Option α × Array α :=
  let n := xs.size - 1
  let ys := down less n (xs.swapIfInBounds 0 n) 0 n
  (ys.back?, ys.pop)

/-! ## Order -/

structure IsLess : Prop where
  asymm : ∀ {a b}, less a b = true → less b a = false
  trans : ∀ {a b c}, less b a = false → less c b = false → less c a = false

def Ordered : Prop := ∀ j, lessAt less xs j (parent j) = false

variable {less}

theorem IsLess.refl (h : IsLess less) (a : α) : less a a = false := by
  by_contra hls
  rw [Bool.not_eq_false] at hls
  rw [h.asymm hls] at hls
  cases hls

/-- What is at a position, with something to say of the positions past the end. -/
def item (d : α) (xs : Array α) (i : Nat) : α := xs[i]?.getD d

variable {i j n : Nat} {xs : Array α} {f : Nat → α}

theorem lessAt_eq (less : α → α → Bool) (d : α) (hi : i < xs.size) (hj : j < xs.size) :
    lessAt less xs i j = less (item d xs i) (item d xs j) := by
  unfold lessAt item
  rw [getElem?_eq_getElem hi, getElem?_eq_getElem hj]
  rfl

theorem item_swap (d : α) (hi : i < xs.size) (hj : j < xs.size) :
    item d (xs.swapIfInBounds i j) = item d xs ∘ swap i j := by
  funext k
  unfold item
  rw [swapIfInBounds_def, dif_pos hi, dif_pos hj, comp_apply, swap_apply_def, getElem?_swap]
  by_cases hki : k = i
  · rw [if_pos hki]
    by_cases hkj : k = j
    · rw [if_pos hkj.symm, ← hkj, hki, getElem?_eq_getElem hi]
    · rw [if_neg (Ne.symm hkj), if_pos hki.symm, getElem?_eq_getElem hj]
  · rw [if_neg hki]
    by_cases hkj : k = j
    · rw [if_pos hkj.symm, if_pos hkj, getElem?_eq_getElem hi]
    · rw [if_neg (Ne.symm hkj), if_neg (Ne.symm hki), if_neg hkj]

theorem perm_swap : (xs.swapIfInBounds i j).Perm xs := by
  rw [swapIfInBounds_def]
  split
  · split
    · exact swap_perm ..
    · exact .rfl
  · exact .rfl

theorem parent_lt (h : parent j ≠ j) : parent j < j := by
  unfold parent at *
  omega

structure UpOrder (less : α → α → Bool) (n : Nat) (f : Nat → α) (j : Nat) : Prop where
  others : ∀ k < n, k ≠ j → less (f k) (f (parent k)) = false
  below : ∀ k < n, parent k = j → less (f k) (f (parent j)) = false

theorem swap_others {k : Nat} (hi : k ≠ i) (hj : k ≠ j) : (f ∘ swap i j) k = f k := by
  rw [comp_apply, swap_apply_of_ne_of_ne hi hj]

theorem swap_left : (f ∘ swap i j) i = f j := by
  rw [comp_apply, swap_apply_left]

theorem swap_right : (f ∘ swap i j) j = f i := by
  rw [comp_apply, swap_apply_right]

section

variable (hls : IsLess less)
include hls

theorem UpOrder.swap (h : UpOrder less n f j) (hj : j < n)
    (hne : parent j ≠ j) (hlt : less (f j) (f (parent j)) = true) :
    UpOrder less n (f ∘ Equiv.swap (parent j) j) (parent j) := by
  have hpj := parent_lt hne
  have hot : ∀ k < n, k ≠ parent j →
      less ((f ∘ Equiv.swap (parent j) j) k) ((f ∘ Equiv.swap (parent j) j) (parent k)) = false := by
    intro k hk hkp
    by_cases hkj : k = j
    · rw [hkj, swap_left, swap_right]
      exact hls.asymm hlt
    rw [swap_others hkp hkj]
    by_cases hpk : parent k = j
    · rw [hpk, swap_right]
      exact h.below k hk hpk
    by_cases hpp : parent k = parent j
    · rw [hpp, swap_left]
      have hkt := h.others k hk hkj
      rw [hpp] at hkt
      exact hls.trans (hls.asymm hlt) hkt
    · rw [swap_others hpp hpk]
      exact h.others k hk hkj
  refine ⟨hot, fun k hk hpk => ?_⟩
  by_cases hrt : parent (parent j) = parent j
  · rw [hrt]
    by_cases hkp : k = parent j
    · rw [hkp]
      exact hls.refl _
    · have hkt := hot k hk hkp
      rw [hpk] at hkt
      exact hkt
  have hpp := parent_lt hrt
  have hkp : k ≠ parent j := by
    intro heq
    rw [heq] at hpk
    exact hrt hpk
  rw [swap_others (k := parent _) hpp.ne (by omega)]
  have hup := h.others _ (by omega) hpj.ne
  by_cases hkj : k = j
  · rw [hkj, swap_right]
    exact hup
  rw [swap_others hkp hkj]
  have hkt := h.others k hk hkj
  rw [hpk] at hkt
  exact hls.trans hup hkt

/-- Before `down` at `i`: only what is right below `i` may be less than its parent, and it is not less than the one
above `i`. -/
structure DownOrder (less : α → α → Bool) (n : Nat) (f : Nat → α) (i : Nat) : Prop where
  others : ∀ k < n, parent k ≠ i → less (f k) (f (parent k)) = false
  below : i ≠ 0 → ∀ k < n, parent k = i → less (f k) (f (parent i)) = false

theorem DownOrder.swap (h : DownOrder less n f i) (hj : parent j = i)
    (hij : i < j) (hjn : j < n) (hmin : ∀ k < n, 0 < k → parent k = i → less (f k) (f j) = false)
    (hlt : less (f j) (f i) = true) : DownOrder less n (f ∘ swap i j) j := by
  constructor
  · intro k hk hpk
    by_cases hki : k = i
    · -- The new root of the subtree against the one above it.
      rw [hki, swap_left]
      by_cases hi : i = 0
      · have hpi : parent i = i := by rw [hi]; rfl
        rw [hpi, swap_left]
        exact hls.refl _
      · have hpi : parent i < i := by unfold parent; omega
        rw [swap_others hpi.ne (by omega)]
        exact h.below hi j hjn hj
    by_cases hkj : k = j
    · rw [hkj, swap_right, hj, swap_left]
      exact hls.asymm hlt
    rw [swap_others hki hkj]
    by_cases hpi : parent k = i
    · rw [hpi, swap_left]
      refine hmin k hk ?_ hpi
      by_contra hzr
      have : k = 0 := by omega
      rw [this] at hpi hki
      exact hki hpi
    · rw [swap_others hpi hpk]
      exact h.others k hk hpi
  · intro _ k hk hpk
    have hkj : j < k := by
      unfold parent at hpk
      omega
    rw [hj, swap_left, swap_others (by omega) hkj.ne']
    have hkt := h.others k hk (by omega)
    rw [hpk] at hkt
    exact hkt

/-! ## Loops -/

omit hls in
theorem ordered_iff (less : α → α → Bool) (d : α) (xs : Array α) :
    Ordered less xs ↔ ∀ k < xs.size, less (item d xs k) (item d xs (parent k)) = false := by
  have hpr : ∀ k, parent k ≤ k := fun k => by unfold parent; omega
  constructor
  · intro h k hk
    rw [← lessAt_eq less d hk ((hpr k).trans_lt hk)]
    exact h k
  intro h k
  by_cases hk : k < xs.size
  · rw [lessAt_eq less d hk ((hpr k).trans_lt hk)]
    exact h k hk
  · unfold lessAt
    rw [getElem?_eq_none (not_lt.1 hk)]

theorem up_spec (d : α) (fuel : Nat) (hj : j < xs.size) (hfl : j < fuel)
    (h : UpOrder less xs.size (item d xs) j) : Ordered less (up less xs j fuel) ∧ (up less xs j fuel).Perm xs := by
  induction fuel generalizing xs j with
  | zero => omega
  | succ fuel ih =>
    have hpj : parent j < xs.size := by unfold parent; omega
    unfold up
    split
    · rename_i hst
      refine ⟨(ordered_iff less d xs).2 fun k hk => ?_, .rfl⟩
      by_cases hkj : k = j
      · rw [hkj]
        rcases hst with hrt | hge
        · rw [hrt]
          exact hls.refl _
        · rw [← lessAt_eq less d hj hpj]
          exact hge
      · exact h.others k hk hkj
    · rename_i hgo
      rw [not_or, Bool.not_eq_false] at hgo
      have hlt := hgo.2
      rw [lessAt_eq less d hj hpj] at hlt
      have hsz : (xs.swapIfInBounds (parent j) j).size = xs.size := size_swapIfInBounds ..
      have hpar := parent_lt hgo.1
      have hsw := h.swap hls hj hgo.1 hlt
      rw [← item_swap d hpj hj, ← hsz] at hsw
      obtain ⟨hor, hpr⟩ := ih (by omega) (by omega) hsw
      exact ⟨hor, hpr.trans perm_swap⟩

theorem push_spec (h : Ordered less xs) (a : α) :
    Ordered less (push less xs a) ∧ (push less xs a).Perm (xs.push a) := by
  have hitm : ∀ k < xs.size, item a (xs.push a) k = item a xs k := by
    intro k hk
    unfold item
    rw [getElem?_push_lt hk, getElem?_eq_getElem hk]
  refine up_spec hls a _ (by simp) (Nat.lt_succ_self _) ⟨fun k hk hne => ?_, fun k hk hpk => ?_⟩
  · rw [size_push] at hk
    have hpk : parent k ≤ k := by unfold parent; omega
    rw [hitm k (by omega), hitm _ (by omega)]
    exact (ordered_iff less a xs).1 h k (by omega)
  -- The last position has nothing below it, but the root is below itself.
  rw [size_push] at hk
  have hkp : k = 0 ∧ xs.size = 0 := by
    unfold parent at hpk
    omega
  have hpar : parent xs.size = k := by
    rw [hkp.1, hkp.2]
    rfl
  rw [hpar]
  exact hls.refl _

omit hls in
theorem child_spec (d : α) (hls : IsLess less) (hn : n ≤ xs.size) (hi : 2 * i + 1 < n) :
    parent (child less n xs i) = i ∧ i < child less n xs i ∧ child less n xs i < n ∧
      ∀ k < n, 0 < k → parent k = i → less (item d xs k) (item d xs (child less n xs i)) = false := by
  have hcs : ∀ k < n, 0 < k → parent k = i → k = 2 * i + 1 ∨ k = 2 * i + 2 := by
    intro k _ hk hpk
    unfold parent at hpk
    omega
  unfold child
  split
  · rename_i hrg
    rw [lessAt_eq less d (by omega) (by omega)] at hrg
    refine ⟨by unfold parent; omega, by omega, hrg.1, fun k hk hpos hpk => ?_⟩
    rcases hcs k hk hpos hpk with rfl | rfl
    · exact hls.asymm hrg.2
    · exact hls.refl _
  · rename_i hlf
    refine ⟨by unfold parent; omega, by omega, hi, fun k hk hpos hpk => ?_⟩
    rcases hcs k hk hpos hpk with rfl | rfl
    · exact hls.refl _
    · rw [not_and, Bool.not_eq_true, lessAt_eq less d (by omega) (by omega)] at hlf
      exact hlf hk

theorem DownOrder.stop (h : DownOrder less n f i)
    (hbl : ∀ k < n, 0 < k → parent k = i → less (f k) (f i) = false) (k : Nat) (hk : k < n) :
    less (f k) (f (parent k)) = false := by
  by_cases hpk : parent k = i
  · by_cases hk0 : k = 0
    · have hpar : parent k = k := by rw [hk0]; rfl
      rw [hpar]
      exact hls.refl _
    · rw [hpk]
      exact hbl k hk (by omega) hpk
  · exact h.others k hk hpk

theorem down_spec (d : α) (fuel : Nat) (hn : n ≤ xs.size)
    (hfl : n ≤ i + fuel) (h : DownOrder less n (item d xs) i) :
    let r := down less n xs i fuel
    (∀ k < n, less (item d r k) (item d r (parent k)) = false) ∧
    r.Perm xs ∧ ∀ k, n ≤ k → r[k]? = xs[k]? := by
  induction fuel generalizing xs i with
  | zero =>
    refine ⟨h.stop hls fun k hk hpos hpk => ?_, .rfl, fun _ _ => rfl⟩
    unfold parent at hpk
    omega
  | succ fuel ih =>
    unfold down
    split
    · refine ⟨h.stop hls fun k hk hpos hpk => ?_, .rfl, fun _ _ => rfl⟩
      unfold parent at hpk
      omega
    rename_i hi
    obtain ⟨hpr, hgt, hlt, hmin⟩ := child_spec d hls hn (not_le.1 hi)
    generalize child less n xs i = j at hpr hgt hlt hmin ⊢
    have hj : j < xs.size := by omega
    have hi : i < xs.size := by omega
    rw [lessAt_eq less d hj hi]
    split
    · rename_i hge
      exact ⟨h.stop hls fun k hk hpos hpk => hls.trans hge (hmin k hk hpos hpk), .rfl, fun _ _ => rfl⟩
    rename_i hgo
    have hsw := h.swap hls hpr hgt hlt hmin (Bool.not_eq_false _ ▸ hgo)
    rw [← item_swap d hi hj] at hsw
    have hsz : (xs.swapIfInBounds i j).size = xs.size := size_swapIfInBounds ..
    obtain ⟨hor, hpm, hkp⟩ := ih (by omega) (by omega) hsw
    refine ⟨hor, hpm.trans perm_swap, fun k hk => ?_⟩
    rw [hkp k hk, swapIfInBounds_def, dif_pos hi, dif_pos hj, getElem?_swap, if_neg (by omega), if_neg (by omega)]

theorem Ordered.root (h : Ordered less xs) {a : α} (ha : xs[0]? = some a) {b : α}
    (hb : b ∈ xs) : less b a = false := by
  have hrt : ∀ k, k < xs.size → less (item a xs k) (item a xs 0) = false := by
    intro k
    induction k using Nat.strongRecOn with
    | ind k ih =>
      intro hk
      by_cases hk0 : k = 0
      · rw [hk0]
        exact hls.refl _
      · have hpk : parent k < k := by unfold parent; omega
        exact hls.trans (ih (parent k) hpk (by omega)) ((ordered_iff less a xs).1 h k hk)
  obtain ⟨k, hk, rfl⟩ := mem_iff_getElem.1 hb
  have hitm : item a xs k = xs[k] := by
    unfold item
    rw [getElem?_eq_getElem hk]
    rfl
  have hzr : item a xs 0 = a := by
    unfold item
    rw [ha]
    rfl
  have hle := hrt k hk
  rw [hitm, hzr] at hle
  exact hle

theorem pop_spec (h : Ordered less xs) {a : α} (ha : xs[0]? = some a) :
    (pop less xs).1 = some a ∧ ((pop less xs).2.push a).Perm xs ∧ Ordered less (pop less xs).2 := by
  have hsz : 0 < xs.size := by
    by_contra hzr
    rw [getElem?_eq_none (not_lt.1 hzr)] at ha
    cases ha
  have hsw := item_swap a hsz (show xs.size - 1 < xs.size by omega)
  have hot : ∀ k < xs.size - 1, k ≠ 0 → item a (xs.swapIfInBounds 0 (xs.size - 1)) k = item a xs k := by
    intro k hk hk0
    rw [hsw, swap_others hk0 (by omega)]
  have hdw : DownOrder less (xs.size - 1) (item a (xs.swapIfInBounds 0 (xs.size - 1))) 0 := by
    refine ⟨fun k hk hpk => ?_, fun h => absurd rfl h⟩
    have hpar : parent k ≤ k := by unfold parent; omega
    rw [hot k hk (by omega), hot (parent k) (by omega) hpk]
    exact (ordered_iff less a xs).1 h k (by omega)
  have hn : xs.size - 1 ≤ (xs.swapIfInBounds 0 (xs.size - 1)).size := by
    rw [size_swapIfInBounds]
    omega
  obtain ⟨hor, hpr, hkp⟩ := down_spec hls a (xs.size - 1) hn (by omega) hdw
  have hlt : (xs.swapIfInBounds 0 (xs.size - 1))[xs.size - 1]? = some a := by
    rw [swapIfInBounds_def, dif_pos hsz, dif_pos (by omega), getElem?_swap, if_pos rfl, ← getElem?_eq_getElem hsz, ha]
  unfold pop
  dsimp only
  generalize down less (xs.size - 1) (xs.swapIfInBounds 0 (xs.size - 1)) 0 (xs.size - 1) = ys at hor hpr hkp ⊢
  have hbc : ys[xs.size - 1]? = some a := (hkp _ le_rfl).trans hlt
  have hpr := hpr.trans perm_swap
  have hys : ys.size = xs.size := hpr.size_eq
  have hps : ys.pop.push a = ys := by
    refine ext_getElem? fun k => ?_
    rw [getElem?_push, getElem?_pop, size_pop, hys]
    split
    · rename_i hk
      rw [hk, hbc]
    · split
      · rfl
      · rw [getElem?_eq_none (by omega)]
  have hitm : ∀ k < xs.size - 1, item a ys.pop k = item a ys k := by
    intro k hk
    unfold item
    rw [getElem?_pop, if_pos (by omega)]
  refine ⟨?_, ?_, (ordered_iff less a ys.pop).2 fun k hk => ?_⟩
  · rw [back?_eq_getElem?, hys, hbc]
  · rw [hps]
    exact hpr
  rw [size_pop, hys] at hk
  have hpar : parent k ≤ k := by unfold parent; omega
  rw [hitm k hk, hitm (parent k) (by omega)]
  exact hor k hk

end

theorem Ordered.congr {less' : α → α → Bool} (h : Ordered less xs)
    (hsm : ∀ a ∈ xs, ∀ b ∈ xs, less' a b = less a b) : Ordered less' xs := by
  intro j
  have hj := h j
  unfold lessAt at hj ⊢
  split
  · rename_i a b ha hb
    rw [ha, hb] at hj
    rw [hsm a (mem_of_getElem? ha) b (mem_of_getElem? hb)]
    exact hj
  · rfl

end Aibrix.Lib.Heap
