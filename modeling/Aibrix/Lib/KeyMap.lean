import Mathlib.Data.List.AList
import Mathlib.Data.Multiset.AddSub
import Mathlib.Algebra.BigOperators.Group.List.Basic
import Mathlib.Tactic.Abel

/-! # Finite maps

Maps with finitely many keys, as lists of entries with distinct keys.
-/

namespace Aibrix.Lib

open List Option AList

/-- The least of some keys, as a loop finds it that keeps one of two at a time. -/
theorem foldl_least {α : Type} [Preorder α] {f : α → α → α} {p : α → Prop}
    (hf : ∀ a b, p a → p b → (f a b = a ∨ f a b = b) ∧ f a b ≤ a ∧ f a b ≤ b) {a : α} {xs : List α}
    (hp : ∀ x ∈ a :: xs, p x) : xs.foldl f a ∈ a :: xs ∧ ∀ x ∈ a :: xs, xs.foldl f a ≤ x := by
  induction xs generalizing a with
  | nil => simp
  | cons b xs ih =>
    rw [forall_mem_cons, forall_mem_cons] at hp
    obtain ⟨hpa, hpb, hxs⟩ := hp
    obtain ⟨hab, hla, hlb⟩ := hf a b hpa hpb
    have hpf : p (f a b) := by
      rcases hab with h | h
      · rwa [h]
      · rwa [h]
    obtain ⟨hmem, hle⟩ := ih (forall_mem_cons.2 ⟨hpf, hxs⟩)
    rw [forall_mem_cons] at hle
    refine ⟨?_, forall_mem_cons.2 ⟨hle.1.trans hla, forall_mem_cons.2 ⟨hle.1.trans hlb, hle.2⟩⟩⟩
    rw [foldl_cons]
    rcases mem_cons.1 hmem with h | h
    · rw [h]
      rcases hab with h | h <;> simp [h]
    · simp [h]

theorem foldl_lesser {α : Type} [Preorder α] [DecidableLT α] (hle : ∀ {a b : α}, ¬ a < b → b ≤ a) (xs : List α) (a : α) :
    let least := xs.foldl (fun m x => if x < m then x else m) a
    least ∈ a :: xs ∧ least ≤ a ∧ ∀ x ∈ xs, least ≤ x := by
  intro least
  rw [← forall_mem_cons]
  refine foldl_least (p := fun _ => True) (fun a b _ _ => ?_) (by simp)
  split_ifs with hlt
  · exact ⟨.inr rfl, hlt.le, le_rfl⟩
  · exact ⟨.inl rfl, le_rfl, hle hlt⟩

abbrev KeyMap (K V : Type) := AList fun _ : K => V

namespace KeyMap

variable {K V W : Type} {m : KeyMap K V} {k : K}

def size (m : KeyMap K V) : Nat := m.entries.length

theorem size_eq_length_keys : size m = m.keys.length := (length_map _).symm

variable (f : K → V → Option W)

theorem keys_filterMap_sublist (entries : List ((_ : K) × V)) :
    (entries.filterMap fun e => (f e.1 e.2).map fun w => (⟨e.1, w⟩ : (_ : K) × W)).keys.Sublist entries.keys := by
  induction entries with
  | nil => exact List.Sublist.slnil
  | cons e entries ih =>
    rw [filterMap_cons]
    cases f e.1 e.2 with
    | none => exact ih.cons _
    | some v => exact ih.cons_cons _

def filterMap (m : KeyMap K V) : KeyMap K W where
  entries := m.entries.filterMap fun e : (_ : K) × V => (f e.1 e.2).map fun w => (⟨e.1, w⟩ : (_ : K) × W)
  nodupKeys := (keys_filterMap_sublist f m.entries).nodup m.nodupKeys

theorem size_filterMap_le : size (filterMap f m) ≤ size m := length_filterMap_le _ _

/-! ## Reading a changed map -/

variable [DecidableEq K]

def eraseAll (m : KeyMap K V) (keys : List K) : KeyMap K V := keys.foldl (fun m k => m.erase k) m

theorem lookup_insert_eq (v : V) (k' : K) : (m.insert k v).lookup k' = if k' = k then some v else m.lookup k' := by
  split
  · subst k'
    exact lookup_insert m
  · exact lookup_insert_ne ‹_›

theorem lookup_erase_eq (k' : K) : (m.erase k).lookup k' = if k' = k then none else m.lookup k' := by
  split
  · subst k'
    exact lookup_erase _ m
  · exact lookup_erase_ne ‹_›

theorem lookup_eraseAll (keys : List K) (k' : K) :
    (eraseAll m keys).lookup k' = if k' ∈ keys then none else m.lookup k' := by
  induction keys generalizing m with
  | nil => simp [eraseAll]
  | cons k keys ih =>
    change (eraseAll (m.erase k) keys).lookup k' = _
    rw [ih, lookup_erase_eq]
    split_ifs <;> simp_all

theorem mem_iff_lookup : k ∈ m ↔ ∃ v, m.lookup k = some v := by
  rw [← lookup_isSome, isSome_iff_exists]

theorem mem_eraseAll (keys : List K) : k ∈ eraseAll m keys ↔ k ∈ m ∧ k ∉ keys := by
  rw [mem_iff_lookup, mem_iff_lookup, lookup_eraseAll]
  split <;> simp_all

theorem lookup_filterMap (f : K → V → Option W) : (filterMap f m).lookup k = (m.lookup k).bind (f k) := by
  ext w
  have hen : w ∈ (filterMap f m).lookup k ↔ ⟨k, w⟩ ∈ (filterMap f m).entries := mem_lookup_iff
  rw [← mem_def, hen]
  simp only [filterMap, mem_filterMap, map_eq_some_iff, bind_eq_some_iff, Sigma.mk.injEq, heq_eq_eq]
  constructor
  · rintro ⟨⟨k', v⟩, hmem, w', hf, hk, rfl⟩
    obtain rfl : k' = k := hk
    exact ⟨v, mem_lookup_iff.2 hmem, hf⟩
  · rintro ⟨v, hlk, hf⟩
    exact ⟨⟨k, v⟩, mem_lookup_iff.1 hlk, w, hf, rfl, rfl⟩

variable (f : Option V → W → V)

def mergeWith (m : KeyMap K V) (m' : KeyMap K W) : KeyMap K V :=
  m'.entries.foldl (fun m (e : (_ : K) × W) => m.insert e.1 (f (m.lookup e.1) e.2)) m

theorem lookup_foldl_insert (entries : List ((_ : K) × W)) (hnd : entries.NodupKeys) (m : KeyMap K V) (k : K) :
    (entries.foldl (fun m (e : (_ : K) × W) => m.insert e.1 (f (m.lookup e.1) e.2)) m).lookup k =
      match entries.dlookup k with
      | some w => some (f (m.lookup k) w)
      | none => m.lookup k := by
  induction entries generalizing m with
  | nil => rfl
  | cons e entries ih =>
    obtain ⟨k', w⟩ := e
    rw [nodupKeys_cons] at hnd
    rw [foldl_cons, ih hnd.2]
    by_cases hk : k = k'
    · subst hk
      rw [dlookup_cons_eq, dlookup_eq_none.2 hnd.1, lookup_insert]
    · rw [dlookup_cons_ne _ _ hk, lookup_insert_ne hk]

theorem lookup_mergeWith (m : KeyMap K V) (m' : KeyMap K W) (k : K) :
    (mergeWith f m m').lookup k = match m'.lookup k with
      | some w => some (f (m.lookup k) w)
      | none => m.lookup k :=
  lookup_foldl_insert f m'.entries m'.nodupKeys m k

theorem size_insert_of_lookup_eq_none (v : V) (h : m.lookup k = none) : size (m.insert k v) = size m + 1 := by
  have hk : k ∉ m := lookup_eq_none.1 h
  rw [size, entries_insert_of_notMem hk, length_cons, size]

theorem size_erase_of_lookup {v : V} (h : m.lookup k = some v) : size (m.erase k) + 1 = size m := by
  have hk : k ∈ m := mem_iff_lookup.2 ⟨v, h⟩
  rw [size_eq_length_keys, size_eq_length_keys, keys_erase]
  have hln := length_erase_of_mem (mem_keys.1 hk)
  have hpos := length_pos_of_mem (mem_keys.1 hk)
  omega

theorem size_insert_of_lookup {v : V} (w : V) (h : m.lookup k = some v) : size (m.insert k w) = size m := by
  have hes : size (m.erase k) + 1 = size m := size_erase_of_lookup h
  rw [← hes]
  rfl

/-! ## What the entries hold -/

variable {R : Type} (f : V → Option R)

def collect (m : KeyMap K V) : Multiset R := ↑(m.entries.filterMap fun e => f e.2)

theorem perm_kerase_of_dlookup {entries : List ((_ : K) × V)} {v : V} (h : entries.dlookup k = some v) :
    entries.Perm (⟨k, v⟩ :: entries.kerase k) := by
  induction entries with
  | nil => simp at h
  | cons e entries ih =>
    obtain ⟨k', v'⟩ := e
    by_cases hk : k = k'
    · subst hk
      rw [dlookup_cons_eq, some.injEq] at h
      subst h
      have hes : kerase k (⟨k, v'⟩ :: entries) = entries := kerase_cons_eq rfl
      rw [hes]
    · rw [dlookup_cons_ne _ _ hk] at h
      rw [kerase_cons_ne hk]
      exact ((ih h).cons _).trans (.swap _ _ _)

omit [DecidableEq K] in
theorem collect_cons (e : (_ : K) × V) (entries : List ((_ : K) × V)) :
    (↑((e :: entries).filterMap fun e => f e.2) : Multiset R) =
      ↑(f e.2).toList + ↑(entries.filterMap fun e => f e.2) := by
  rw [filterMap_cons]
  cases f e.2 <;> rfl

theorem collect_of_lookup {v : V} (h : m.lookup k = some v) : collect f m = ↑(f v).toList + collect f (m.erase k) := by
  unfold collect
  rw [Multiset.coe_eq_coe.2 ((perm_kerase_of_dlookup h).filterMap _), collect_cons]
  rfl

theorem collect_insert (v : V) : collect f (m.insert k v) = ↑(f v).toList + collect f (m.erase k) := by
  unfold collect
  rw [entries_insert, collect_cons]
  rfl

theorem collect_erase_of_none (h : m.lookup k = none) : collect f (m.erase k) = collect f m := by
  have hk : k ∉ m.entries.keys := dlookup_eq_none.1 h
  have hes : (m.erase k).entries = m.entries := kerase_of_notMem_keys hk
  unfold collect
  rw [hes]

end KeyMap

/-! ## A hash of counters, where an absent field reads as zero -/

abbrev FieldHash (K : Type) := AList fun _ : K => Int

namespace FieldHash

variable {K : Type} [DecidableEq K] (h : FieldHash K)

def field (k : K) : Int := (h.lookup k).getD 0

def hincrby (k : K) (delta : Int) : FieldHash K := h.insert k (field h k + delta)

def total : Int := (h.entries.map (·.2)).sum

variable {h : FieldHash K} {k : K}

theorem field_insert (v : Int) (k' : K) : field (h.insert k v) k' = if k' = k then v else field h k' := by
  unfold field
  by_cases hk : k' = k
  · subst hk
    simp
  · rw [AList.lookup_insert_ne hk, if_neg hk]

theorem field_hincrby (delta : Int) (k' : K) :
    field (hincrby h k delta) k' = field h k' + if k' = k then delta else 0 := by
  rw [hincrby, field_insert]
  split
  · rename_i hk
    rw [hk]
  · rw [add_zero]

theorem field_of_mem {e : (_ : K) × Int} (he : e ∈ h.entries) : field h e.1 = e.2 := by
  have hlk : h.lookup e.1 = some e.2 := AList.mem_lookup_iff.2 he
  rw [field, hlk]
  rfl

theorem field_eq_zero_of_notMem (hk : ∀ e ∈ h.entries, e.1 ≠ k) : field h k = 0 := by
  have hlk : h.lookup k = none := by
    rw [AList.lookup_eq_none]
    intro hmem
    obtain ⟨e, he, rfl⟩ := mem_map.1 hmem
    exact hk e he rfl
  rw [field, hlk]
  rfl

theorem total_insert (v : Int) : total (h.insert k v) = total h + (v - field h k) := by
  unfold total
  rw [AList.entries_insert]
  by_cases hk : k ∈ h.entries.keys
  · obtain ⟨b, l₁, l₂, _, hen, hkr⟩ := exists_of_kerase hk
    have hb : field h k = b := field_of_mem (e := ⟨k, b⟩) (by rw [hen]; simp)
    rw [hkr, hb, hen]
    simp only [map_cons, map_append, sum_cons, sum_append]
    abel
  · have hzr : field h k = 0 := field_eq_zero_of_notMem fun e he heq => hk (heq ▸ mem_map_of_mem he)
    rw [kerase_of_notMem_keys hk, hzr, map_cons, sum_cons]
    abel

theorem total_hincrby (delta : Int) : total (hincrby h k delta) = total h + delta := by
  rw [hincrby, total_insert]
  abel

end FieldHash

end Aibrix.Lib
