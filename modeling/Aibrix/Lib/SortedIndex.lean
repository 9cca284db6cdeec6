import Mathlib.Data.List.TakeWhile
import Mathlib.Data.List.Perm.Basic

/-! # Sorted lists, sorted maps, and lists indexed by a measure

Lists in the order of a key, maps in the order of their keys, and maps that group the elements of a sorted list. -/

namespace Aibrix.Lib

open List

/-! ## Lists in the order of a key -/

namespace SortedList

variable {α : Type} (key : α → Nat)

def Sorted (xs : List α) : Prop := xs.Pairwise fun x y => key x < key y

def upTo (xs : List α) (x : α) : List α := xs.takeWhile fun y => decide (key y ≤ key x)

/-- The elements from `bisect_right` of `x` on. -/
def beyond (xs : List α) (x : α) : List α := xs.dropWhile fun y => decide (key y ≤ key x)

def add (xs : List α) (x : α) : List α := upTo key xs x ++ x :: beyond key xs x

variable {key} {xs : List α} {x y : α}

theorem upTo_append_beyond : upTo key xs x ++ beyond key xs x = xs := takeWhile_append_dropWhile

theorem add_perm : (add key xs x).Perm (x :: xs) := by
  conv => rhs; rw [← @upTo_append_beyond α key xs x]
  exact perm_middle

theorem mem_add : y ∈ add key xs x ↔ y = x ∨ y ∈ xs := by rw [add_perm.mem_iff, mem_cons]

section

variable (h : Sorted key xs)
include h

theorem Sorted.upTo_eq : upTo key xs x = xs.filter fun y => decide (key y ≤ key x) := by
  unfold upTo
  induction xs with
  | nil => rfl
  | cons y xs ih =>
    obtain ⟨hy, hxs⟩ := pairwise_cons.1 h
    by_cases hle : key y ≤ key x
    · rw [takeWhile_cons_of_pos (by simpa using hle), filter_cons_of_pos (by simpa using hle), ih hxs]
    rw [takeWhile_cons_of_neg (by simpa using hle), filter_cons_of_neg (by simpa using hle), eq_comm,
      filter_eq_nil_iff]
    intro z hz
    have := hy z hz
    simp only [decide_eq_true_eq]
    omega

theorem Sorted.beyond_eq : beyond key xs x = xs.filter fun y => decide (key x < key y) := by
  unfold beyond
  induction xs with
  | nil => rfl
  | cons y xs ih =>
    obtain ⟨hy, hxs⟩ := pairwise_cons.1 h
    by_cases hle : key y ≤ key x
    · rw [dropWhile_cons_of_pos (by simpa using hle), filter_cons_of_neg (by simpa using hle), ih hxs]
    rw [dropWhile_cons_of_neg (by simpa using hle), eq_comm, filter_eq_self]
    intro z hz
    simp only [decide_eq_true_eq]
    rcases mem_cons.1 hz with rfl | hz
    · omega
    · have := hy z hz
      omega

theorem Sorted.mem_upTo : y ∈ upTo key xs x ↔ y ∈ xs ∧ key y ≤ key x := by
  rw [h.upTo_eq, mem_filter, decide_eq_true_eq]

theorem Sorted.mem_beyond : y ∈ beyond key xs x ↔ y ∈ xs ∧ key x < key y := by
  rw [h.beyond_eq, mem_filter, decide_eq_true_eq]

theorem Sorted.add (hfr : ∀ y ∈ xs, key y ≠ key x) : Sorted key (add key xs x) := by
  have hbl : ∀ y ∈ upTo key xs x, key y < key x := by
    intro y hy
    obtain ⟨hmem, hle⟩ := h.mem_upTo.1 hy
    have := hfr y hmem
    omega
  have hab : ∀ y ∈ beyond key xs x, key x < key y := fun y hy => (h.mem_beyond.1 hy).2
  refine pairwise_append.2 ⟨?_, pairwise_cons.2 ⟨hab, ?_⟩, ?_⟩
  · exact h.sublist (takeWhile_sublist _)
  · exact h.sublist (dropWhile_sublist _)
  intro y hy z hz
  rcases mem_cons.1 hz with rfl | hz
  · exact hbl y hy
  · exact (hbl y hy).trans (hab z hz)

theorem Sorted.filter_add (p : α → Bool) : (SortedList.add key xs x).filter p =
      if p x then SortedList.add key (xs.filter p) x else xs.filter p := by
  have hp : Sorted key (xs.filter p) := h.sublist filter_sublist
  unfold SortedList.add
  rw [filter_append, filter_cons]
  split
  · rw [hp.upTo_eq, hp.beyond_eq, h.upTo_eq, h.beyond_eq, filter_comm p, filter_comm p]
  · rw [← filter_append, upTo_append_beyond]

theorem Sorted.nodup : xs.Nodup := by
  refine List.Pairwise.imp (fun {x y} hlt heq => ?_) h
  subst heq
  omega

end

variable [DecidableEq α]

variable (h : Sorted key xs)
include h

theorem Sorted.erase : Sorted key (xs.erase x) := h.sublist erase_sublist

theorem Sorted.getLast?_upTo (hy : y ∈ xs) (hle : key y ≤ key x)
    (hnn : ∀ z ∈ xs, key y < key z → key x < key z) : (upTo key xs x).getLast? = some y := by
  have hmem : y ∈ upTo key xs x := h.mem_upTo.2 ⟨hy, hle⟩
  obtain ⟨before, after, hsp⟩ := append_of_mem hmem
  have hsr : Sorted key (upTo key xs x) := h.sublist (takeWhile_sublist _)
  rw [hsp] at hsr ⊢
  cases after with
  | nil => simp
  | cons z after =>
    obtain ⟨hz, hzx⟩ := h.mem_upTo.1 (hsp ▸ (by simp : z ∈ before ++ y :: z :: after))
    have hyz : key y < key z := (pairwise_cons.1 (pairwise_append.1 hsr).2.1).1 z (by simp)
    have := hnn z hz hyz
    omega

theorem Sorted.head?_beyond (hy : y ∈ xs) (hlt : key x < key y)
    (hnn : ∀ z ∈ xs, key z < key y → key z ≤ key x) : (beyond key xs x).head? = some y := by
  have hmem : y ∈ beyond key xs x := h.mem_beyond.2 ⟨hy, hlt⟩
  have hsr : Sorted key (beyond key xs x) := h.sublist (dropWhile_sublist _)
  cases hsp : beyond key xs x with
  | nil => simp [hsp] at hmem
  | cons z after =>
    rw [hsp] at hmem hsr
    rcases mem_cons.1 hmem with rfl | haf
    · rfl
    · obtain ⟨hz, hxz⟩ := h.mem_beyond.1 (hsp ▸ (by simp : z ∈ z :: after))
      have := hnn z hz ((pairwise_cons.1 hsr).1 y haf)
      omega

end SortedList

/-! ## Maps in the order of their keys -/

namespace SortedMap

variable {V : Type} {table : List (Nat × V)} {k k' : Nat} {v : V}

def Ordered (table : List (Nat × V)) : Prop := table.Pairwise fun e e' => e.1 < e'.1

def put (k : Nat) (v : V) : List (Nat × V) → List (Nat × V)
  | [] => [(k, v)]
  | e :: table =>
    if k < e.1 then (k, v) :: e :: table else if k = e.1 then (k, v) :: table else e :: put k v table

def del (k : Nat) (table : List (Nat × V)) : List (Nat × V) := table.filter fun e => decide (e.1 ≠ k)

theorem mem_put {e : Nat × V} (h : e ∈ put k v table) : e = (k, v) ∨ e ∈ table := by
  induction table with
  | nil => simpa [put] using h
  | cons e' table ih =>
    rw [put] at h
    split at h
    · exact mem_cons.1 h
    split at h
    · exact (mem_cons.1 h).imp_right (mem_cons_of_mem _)
    · rcases mem_cons.1 h with rfl | h
      · exact .inr mem_cons_self
      · exact (ih h).imp_right (mem_cons_of_mem _)

variable (h : Ordered table)
include h

theorem Ordered.put : Ordered (put k v table) := by
  induction table with
  | nil => exact pairwise_singleton _ _
  | cons e table ih =>
    obtain ⟨he, htb⟩ := pairwise_cons.1 h
    rw [SortedMap.put]
    split
    · rename_i hlt
      refine pairwise_cons.2 ⟨fun e' he' => ?_, h⟩
      rcases mem_cons.1 he' with rfl | he'
      · exact hlt
      · exact hlt.trans (he e' he')
    split
    · rename_i heq
      exact pairwise_cons.2 ⟨fun e' he' => (congrArg (· < e'.1) heq).mpr (he e' he'), htb⟩
    refine pairwise_cons.2 ⟨fun e' he' => ?_, ih htb⟩
    rcases mem_put he' with rfl | he'
    · omega
    · exact he e' he'

theorem Ordered.del : Ordered (del k table) := h.sublist filter_sublist

omit h in
theorem lookup_eq_none_of_lt (h : ∀ e ∈ table, k < e.1) : table.lookup k = none := by
  rw [lookup_eq_none_iff]
  intro e he
  have := h e he
  simp only [bne_iff_ne]
  omega

theorem Ordered.lookup_put :
    (SortedMap.put k v table).lookup k' = if k' = k then some v else table.lookup k' := by
  induction table with
  | nil =>
    rw [SortedMap.put]
    split <;> simp_all
  | cons e table ih =>
    obtain ⟨he, htb⟩ := pairwise_cons.1 h
    rw [SortedMap.put]
    split
    · rw [lookup_cons]
      split <;> simp_all
    split
    · rename_i heq
      subst heq
      rw [lookup_cons, lookup_cons]
      split <;> simp_all
    rename_i hne
    rw [lookup_cons, lookup_cons, ih htb]
    split
    · rename_i heq
      rw [beq_iff_eq] at heq
      rw [if_neg fun h => hne (h.symm.trans heq)]
    · rfl

omit h in
theorem lookup_del : (del k table).lookup k' = if k' = k then none else table.lookup k' := by
  induction table with
  | nil => simp [del]
  | cons e table ih =>
    unfold del at ih ⊢
    rw [filter_cons]
    split
    · rw [lookup_cons, lookup_cons, ih]
      split <;> simp_all
    rename_i heq
    obtain rfl : e.1 = k := by simpa using heq
    rw [ih, lookup_cons]
    split_ifs with hk
    · rfl
    · rw [beq_eq_false_iff_ne.2 hk]

theorem Ordered.mem_iff : (k, v) ∈ table ↔ table.lookup k = some v := by
  induction table with
  | nil => simp
  | cons e table ih =>
    obtain ⟨he, htb⟩ := pairwise_cons.1 h
    rw [mem_cons, lookup_cons, ih htb]
    split
    · rename_i heq
      rw [beq_iff_eq] at heq
      subst heq
      rw [lookup_eq_none_of_lt he]
      simp [Prod.ext_iff, eq_comm]
    · rename_i hne
      rw [beq_eq_false_iff_ne] at hne
      simp [Prod.ext_iff, hne]

end SortedMap

/-! ## The elements of a sorted list by a measure -/

namespace Index

open SortedList SortedMap List

variable {α : Type} (key measure : α → Nat)

def group (xs : List α) (k : Nat) : List α := xs.filter fun x => decide (measure x = k)

structure Groups (xs : List α) (table : List (Nat × List α)) : Prop where
  ordered : Ordered table
  lookup : ∀ k, table.lookup k = if group measure xs k = [] then none else some (group measure xs k)

/-- `setdefault` of the group of `x`, and `add` of `x` to it. -/
def insert (table : List (Nat × List α)) (x : α) : List (Nat × List α) :=
  put (measure x) (SortedList.add key ((table.lookup (measure x)).getD []) x) table

def shrink (table : List (Nat × List α)) (k : Nat) (left : List α) : List (Nat × List α) :=
  if left.isEmpty then del k table else put k left table

variable {key measure} {xs : List α} {table : List (Nat × List α)} {x : α}

theorem mem_group {y : α} {k : Nat} : y ∈ group measure xs k ↔ y ∈ xs ∧ measure y = k := by
  rw [group, mem_filter, decide_eq_true_eq]

section

variable (h : Groups measure xs table)
include h

theorem Groups.insert (hsr : Sorted key xs) :
    Groups measure (SortedList.add key xs x) (insert key measure table x) where
  ordered := h.ordered.put
  lookup k := by
    have hgr : group measure (SortedList.add key xs x) k = _ := hsr.filter_add _
    rw [Index.insert, h.ordered.lookup_put, h.lookup, h.lookup, hgr]
    by_cases hk : measure x = k
    · subst hk
      have hne : SortedList.add key (xs.filter fun y => decide (measure y = measure x)) x ≠ [] :=
        ne_nil_of_mem (mem_add.2 (.inl rfl))
      simp only [decide_true, if_true, hne]
      congr 2
      unfold group
      split <;> simp_all
    · simp only [hk, decide_false, Bool.false_eq_true, if_false, Ne.symm hk]
      rfl

theorem Groups.shrink [DecidableEq α] {left : List α} (hlf : left = (group measure xs (measure x)).erase x) :
    Groups measure (xs.erase x) (shrink table (measure x) left) := by
  have hgr : ∀ k, group measure (xs.erase x) k = (group measure xs k).erase x := fun k => erase_filter.symm
  have hot : ∀ k, k ≠ measure x → (group measure xs k).erase x = group measure xs k := by
    intro k hk
    exact erase_of_not_mem fun hmem => hk (mem_group.1 hmem).2.symm
  unfold Index.shrink
  constructor
  · split
    · exact h.ordered.del
    · exact h.ordered.put
  intro k
  rw [hgr]
  split
  · rename_i hem
    rw [lookup_del, h.lookup]
    by_cases hk : k = measure x
    · simp_all
    · rw [if_neg hk, hot k hk]
  · rename_i hsm
    rw [h.ordered.lookup_put, h.lookup]
    by_cases hk : k = measure x
    · simp_all
    · rw [if_neg hk, hot k hk]

theorem Groups.lookup_measure (hx : x ∈ xs) : table.lookup (measure x) = some (group measure xs (measure x)) := by
  rw [h.lookup, if_neg (ne_nil_of_mem (mem_group.2 ⟨hx, rfl⟩))]

theorem Groups.of_mem {e : Nat × List α} (he : e ∈ table) : e.2 = group measure xs e.1 ∧ e.2 ≠ [] := by
  have hlk := h.ordered.mem_iff.1 he
  rw [h.lookup] at hlk
  split at hlk
  · cases hlk
  · rename_i hne
    rw [← Option.some.inj hlk]
    exact ⟨rfl, hne⟩

end

end Index

end Aibrix.Lib
