import Mathlib.Data.List.Perm.Basic
import Mathlib.Data.List.Nodup

/-! # Taking members out of a group under an availability floor

Candidates in an order that leaves ties open, a loop that stops before too few ready members are left, and groups whose
members are marked by key. -/

namespace Aibrix.Lib.Disruption

open List

variable {α : Type}

/-! ## Orders with ties -/

/-- A sort by a strict order: an element that has to come before another one does, the rest is left open. -/
structure Sorting (before : α → α → Prop) where
  sort : List α → List α
  perm : ∀ xs, (sort xs).Perm xs
  sorted : ∀ xs, (sort xs).Pairwise fun a b => ¬ before b a

/-- One round of an insertion sort, on a list in reverse order: `x` moves past what it is less than. -/
def insertLess (less : α → α → Bool) (x : α) : List α → List α
  | [] => [x]
  | y :: ys => if less x y then y :: insertLess less x ys else x :: y :: ys

theorem insertLess_perm (less : α → α → Bool) (x : α) (ys : List α) : (insertLess less x ys).Perm (x :: ys) := by
  induction ys with
  | nil => exact .refl _
  | cons y ys ih =>
    unfold insertLess
    split_ifs
    · exact (ih.cons y).trans (.swap x y ys)
    · exact .refl _

def insertionSort (less : α → α → Bool) (xs : List α) : List α :=
  (xs.foldl (fun sorted x => insertLess less x sorted) []).reverse

/-- What a comparison has to satisfy for a sort by it to be one by `before`: it may say anything of a tie. -/
structure Decides (before : α → α → Prop) (less : α → α → Bool) : Prop where
  less_of_before : ∀ {a b}, before a b → less a b = true
  not_less_of_before : ∀ {a b}, before b a → less a b = false
  trans_not : ∀ {a b c}, ¬ before b a → ¬ before c b → ¬ before c a

section insertion

variable {before : α → α → Prop} {less : α → α → Bool}

variable (h : Decides before less)
include h

theorem insertLess_sorted (x : α) {ys : List α}
    (hys : ys.Pairwise fun a b => ¬ before a b) : (insertLess less x ys).Pairwise fun a b => ¬ before a b := by
  induction ys with
  | nil => exact pairwise_singleton _ x
  | cons y ys ih =>
    obtain ⟨hy, hrs⟩ := pairwise_cons.1 hys
    unfold insertLess
    split_ifs with hls
    · refine pairwise_cons.2 ⟨fun z hz => ?_, ih hrs⟩
      rcases mem_cons.1 ((insertLess_perm less x ys).mem_iff.1 hz) with rfl | hz
      · intro hbf
        rw [h.not_less_of_before hbf] at hls
        cases hls
      · exact hy z hz
    · have hxy : ¬ before x y := fun hbf => hls (h.less_of_before hbf)
      refine pairwise_cons.2 ⟨fun z hz => ?_, hys⟩
      rcases mem_cons.1 hz with rfl | hz
      · exact hxy
      · exact h.trans_not (hy z hz) hxy

theorem foldl_insertLess (xs : List α) {acc : List α}
    (hacc : acc.Pairwise fun a b => ¬ before a b) :
    let r := xs.foldl (fun sorted x => insertLess less x sorted) acc
    r.Perm (xs ++ acc) ∧
    r.Pairwise fun a b => ¬ before a b := by
  induction xs generalizing acc with
  | nil => exact ⟨.refl _, hacc⟩
  | cons x xs ih =>
    obtain ⟨hpr, hsr⟩ := ih (insertLess_sorted h x hacc)
    refine ⟨hpr.trans ?_, hsr⟩
    exact ((insertLess_perm less x acc).append_left xs).trans perm_middle

theorem Decides.comap {β : Type} (f : β → α) :
    Decides (fun a b => before (f a) (f b)) fun a b => less (f a) (f b) where
  less_of_before := h.less_of_before
  not_less_of_before := h.not_less_of_before
  trans_not := h.trans_not

/-- An insertion sort is one of them, whatever the comparison says of ties. -/
def Decides.sorting (h : Decides before less) : Sorting before where
  sort := insertionSort less
  perm xs := by
    have := (foldl_insertLess h xs Pairwise.nil).1
    rw [List.append_nil] at this
    exact (List.reverse_perm _).trans this
  sorted xs := by
    rw [insertionSort, List.pairwise_reverse]
    exact (foldl_insertLess h xs Pairwise.nil).2

end insertion

theorem Sorting.mem {before : α → α → Prop} (s : Sorting before) {xs : List α} {x : α} : x ∈ s.sort xs ↔ x ∈ xs :=
  (s.perm xs).mem_iff

/-! ## Going through candidates -/

section select

variable (ready : α → Bool) (floor : Int)

/-- Takes candidates while there are fewer than `limit`, up to the first ready one that would bring the `count` of
ready members below the floor. -/
def select : Nat → Int → List α → List α
  | 0, _, _ => []
  | _ + 1, _, [] => []
  | limit + 1, count, x :: xs =>
    if ready x && decide (count ≤ floor) then [] else x :: select limit (if ready x then count - 1 else count) xs

variable {ready floor} {limit : Nat} {count : Int} {xs : List α} {x : α}

theorem select_initial : ∃ rest, select ready floor limit count xs ++ rest = xs := by
  induction xs generalizing limit count with
  | nil => cases limit <;> exact ⟨[], rfl⟩
  | cons x xs ih =>
    cases limit with
    | zero => exact ⟨x :: xs, rfl⟩
    | succ limit =>
      unfold select
      split_ifs
      · exact ⟨x :: xs, rfl⟩
      · obtain ⟨rest, hrs⟩ := @ih limit _
        exact ⟨rest, by rw [cons_append, hrs]⟩
      · obtain ⟨rest, hrs⟩ := @ih limit count
        exact ⟨rest, by rw [cons_append, hrs]⟩

theorem select_sublist : (select ready floor limit count xs).Sublist xs := by
  obtain ⟨rest, hrs⟩ := @select_initial α ready floor limit count xs
  conv => rhs; rw [← hrs]
  exact sublist_append_left _ _

theorem select_length : (select ready floor limit count xs).length ≤ limit := by
  induction xs generalizing limit count with
  | nil => cases limit <;> simp [select]
  | cons x xs ih =>
    cases limit with
    | zero => simp [select]
    | succ limit =>
      unfold select
      split_ifs
      · simp
      · simpa using @ih limit _
      · simpa using @ih limit count

theorem select_floor : (select ready floor limit count xs).countP ready = 0 ∨
    floor ≤ count - ((select ready floor limit count xs).countP ready : Int) := by
  induction xs generalizing limit count with
  | nil => cases limit <;> exact .inl rfl
  | cons x xs ih =>
    cases limit with
    | zero => exact .inl rfl
    | succ limit =>
      unfold select
      split_ifs with hst hrd
      · exact .inl rfl
      · have := @ih limit (count - 1)
        simp only [hrd, Bool.true_and, decide_eq_true_eq] at hst
        rw [countP_cons_of_pos hrd]
        omega
      · rw [countP_cons_of_neg hrd]
        exact ih

theorem select_ne_nil (hlm : limit ≠ 0) (h : ready x = false ∨ floor < count) :
    select ready floor limit count (x :: xs) ≠ [] := by
  obtain ⟨k, rfl⟩ := Nat.exists_eq_succ_of_ne_zero hlm
  unfold select
  rw [if_neg]
  · exact cons_ne_nil _ _
  simp only [Bool.and_eq_true, decide_eq_true_eq, not_and]
  rcases h with h | h
  · simp [h]
  · omega

theorem select_eq_nil (hready : ∀ x ∈ xs, ready x = true) (hcount : count ≤ floor) :
    select ready floor limit count xs = [] := by
  cases limit with
  | zero => rfl
  | succ limit =>
    cases xs with
    | nil => rfl
    | cons x xs => simp [select, hready x mem_cons_self, hcount]

theorem select_stopped (hlm : xs.length ≤ limit) (hx : x ∈ xs) (hnot : x ∉ select ready floor limit count xs) :
    count - ((select ready floor limit count xs).countP ready : Int) ≤ floor := by
  induction xs generalizing limit count with
  | nil => exact absurd hx not_mem_nil
  | cons y xs ih =>
    obtain ⟨limit, rfl⟩ : ∃ k, limit = k + 1 := ⟨limit - 1, by simp at hlm; omega⟩
    have hrs : xs.length ≤ limit := by simpa using hlm
    unfold select at hnot ⊢
    split_ifs at hnot ⊢ with hst hrd
    · simp only [Bool.and_eq_true, decide_eq_true_eq] at hst
      simpa using hst.2
    · rw [mem_cons, not_or] at hnot
      have := ih hrs ((mem_cons.1 hx).resolve_left hnot.1) hnot.2
      rw [countP_cons_of_pos hrd]
      omega
    · rw [mem_cons, not_or] at hnot
      have := ih hrs ((mem_cons.1 hx).resolve_left hnot.1) hnot.2
      rw [countP_cons_of_neg hrd]
      exact this

theorem mem_select_of_before {before : α → α → Prop} (hsr : xs.Pairwise fun a b => ¬ before b a) {y : α}
    (hx : x ∈ select ready floor limit count xs) (hy : y ∈ xs) (hbf : before y x) :
    y ∈ select ready floor limit count xs := by
  obtain ⟨rest, hrs⟩ := @select_initial α ready floor limit count xs
  rw [← hrs] at hsr hy
  rcases mem_append.1 hy with hy | hy
  · exact hy
  · exact absurd hbf ((pairwise_append.1 hsr).2.2 x hx y hy)

theorem mem_select_of_not_ready (hsr : xs.Pairwise fun a b => ¬ (ready b = false ∧ ready a = true))
    (hlm : xs.length ≤ limit) (hx : x ∈ xs) (hrd : ready x = false) : x ∈ select ready floor limit count xs := by
  induction xs generalizing limit count with
  | nil => exact absurd hx not_mem_nil
  | cons y xs ih =>
    obtain ⟨limit, rfl⟩ : ∃ k, limit = k + 1 := ⟨limit - 1, by simp at hlm; omega⟩
    have hrs : xs.length ≤ limit := by simpa using hlm
    obtain ⟨hy, hsr⟩ := pairwise_cons.1 hsr
    have hnot : ready y = false := by
      rcases mem_cons.1 hx with rfl | hx
      · exact hrd
      · have := hy x hx
        simpa [hrd] using this
    unfold select
    simp only [hnot]
    rcases mem_cons.1 hx with rfl | hx
    · exact mem_cons_self
    · exact mem_cons_of_mem _ (ih hsr hrs hx)

end select

/-! ## Groups of members with a name -/

section mark

variable {κ : Type} [DecidableEq κ] (key : α → κ)

def others (taken xs : List α) : List α := xs.filter fun x => key x ∉ taken.map key

def mark (f : α → α) (taken xs : List α) : List α := xs.map fun x => if key x ∈ taken.map key then f x else x

variable {key} {taken xs : List α}

theorem perm_others (hky : (xs.map key).Nodup) (hsub : taken ⊆ xs) (hnd : taken.Nodup) :
    xs.Perm (taken ++ others key taken xs) := by
  have hinj := inj_on_of_nodup_map hky
  rw [perm_ext_iff_of_nodup (Nodup.of_map _ hky)]
  · intro x
    simp only [others, mem_append, mem_filter, decide_eq_true_eq, mem_map, not_exists, not_and]
    constructor
    · intro hx
      by_cases htk : x ∈ taken
      · exact .inl htk
      · refine .inr ⟨hx, fun y hy hkey => htk ?_⟩
        rw [← hinj (hsub hy) hx hkey]
        exact hy
    · rintro (hx | ⟨hx, -⟩)
      · exact hsub hx
      · exact hx
  · apply Nodup.append hnd ((Nodup.of_map _ hky).filter _)
    intro x hx hot
    have := (mem_filter.1 hot).2
    simp only [decide_eq_true_eq] at this
    exact this (mem_map_of_mem hx)

theorem mark_perm (f : α → α) (hky : (xs.map key).Nodup) (hsub : taken ⊆ xs) (hnd : taken.Nodup) :
    (mark key f taken xs).Perm (taken.map f ++ others key taken xs) := by
  have hpr := (perm_others hky hsub hnd).map fun x => if key x ∈ taken.map key then f x else x
  rw [map_append] at hpr
  refine hpr.trans (Perm.of_eq ?_)
  congr 1
  · exact map_congr_left fun x hx => if_pos (mem_map_of_mem hx)
  · refine (map_congr_left fun x hx => if_neg ?_).trans (map_id _)
    simpa using (mem_filter.1 hx).2

theorem countP_mark (f : α → α) (p : α → Bool) (hky : (xs.map key).Nodup) (hsub : taken ⊆ xs) (hnd : taken.Nodup) :
    (mark key f taken xs).countP p + taken.countP p = xs.countP p + (taken.map f).countP p := by
  rw [(mark_perm f hky hsub hnd).countP_eq, (perm_others hky hsub hnd).countP_eq p, countP_append, countP_append]
  omega

theorem mark_keys {f : α → α} (hf : ∀ x, key (f x) = key x) : (mark key f taken xs).map key = xs.map key := by
  rw [mark, map_map]
  refine map_congr_left fun x _ => ?_
  simp only [Function.comp_apply]
  split_ifs
  · exact hf x
  · rfl

end mark

end Aibrix.Lib.Disruption
