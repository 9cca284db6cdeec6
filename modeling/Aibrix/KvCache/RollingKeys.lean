import Mathlib.Data.List.Range
import Mathlib.Tactic.Ring

/-! # The rolling keys of the L2 cache

`RollingHashKeyBuilder` hashes the array under a view block by block, each combined with the one before, and keeps the
hashes with the metadata that all slices share. -/

namespace Aibrix.KvCache

open Nat

structure TokenListView where
  data : Nat
  start : Nat
  stop : Nat
  metadata : Nat
  deriving DecidableEq, Repr

namespace TokenListView

variable {T : Type}

def len (view : TokenListView) : Nat := view.stop - view.start

def Valid (arrays : Nat → List T) (view : TokenListView) : Prop :=
  view.start ≤ view.stop ∧ view.stop ≤ (arrays view.data).length

def tokens (arrays : Nat → List T) (view : TokenListView) : List T :=
  ((arrays view.data).drop view.start).take view.len

theorem Valid.length_tokens {arrays : Nat → List T} {view : TokenListView} (h : view.Valid arrays) :
    (view.tokens arrays).length = view.len := by
  obtain ⟨hle, hln⟩ := h
  unfold tokens len
  rw [List.length_take, List.length_drop]
  omega

def upTo (view : TokenListView) (n : Nat) : TokenListView :=
  { view with stop := view.start + min n view.len }

/-- `view + other`, where a view that ends at the start of this one is taken for the front. -/
def add (view other : TokenListView) : Option TokenListView :=
  if view.data ≠ other.data then none
  else if view.stop = other.start then some { view with stop := other.stop }
  else if other.stop = view.start then some { view with start := other.start }
  else none

end TokenListView

open TokenListView List Option

structure RollingHashKeyBuilder (T H : Type) where
  blockSize : Nat
  blockSize_pos : 0 < blockSize
  hash : List T → H
  /-- `hash_combine_128` -/
  combine : H → H → H

namespace RollingHashKeyBuilder

variable {T H : Type} (builder : RollingHashKeyBuilder T H) (data : List T)

def block (i : Nat) : List T := (data.drop (i * builder.blockSize)).take builder.blockSize

/-- One round of the loop over the array. There is no previous hash at the first block. -/
def hashBlock (state : Option H × List H) (i : Nat) : Option H × List H :=
  let currHash := builder.hash (builder.block data i)
  let currHash :=
    match state.1 with
    | none => currHash
    | some prevHash => builder.combine prevHash currHash
  (some currHash, state.2 ++ [currHash])

def hashBytes : List H :=
  ((List.range ((data.length + builder.blockSize - 1) / builder.blockSize)).foldl (builder.hashBlock data) (none, [])).2

variable (arrays : Nat → List T) (metas : Nat → Option (List H))

/-- The hashes that the metadata holds, or new ones, which it then holds. -/
def cachedHashes (all : TokenListView) : List H × (Nat → Option (List H)) :=
  match metas all.metadata with
  | some hashes => (hashes, metas)
  | none =>
    let hashes := builder.hashBytes (arrays all.data)
    (hashes, Function.update metas all.metadata (some hashes))

def build (before : Option TokenListView)
    (query : TokenListView) : Option (List (TokenListView × H) × (Nat → Option (List H))) :=
  let prefixLen := (before.map len).getD 0
  if prefixLen % builder.blockSize ≠ 0 then none
  else
    let tokenSize := query.len - query.len % builder.blockSize
    if tokenSize < builder.blockSize then some ([], metas)
    else
      (before.elim (some query) fun before => before.add query).bind fun all =>
        let cached := builder.cachedHashes arrays metas all
        let results := (List.range (tokenSize / builder.blockSize)).mapM fun j =>
          let i := j * builder.blockSize
          (cached.1[(prefixLen + i) / builder.blockSize]?).map fun hash =>
            (all.upTo (prefixLen + i + builder.blockSize), hash)
        results.map (·, cached.2)

def keys (before : Option TokenListView) (query : TokenListView) : Option (List (List T × H)) :=
  (builder.build arrays metas before query).map fun built => built.1.map fun (view, hash) => (view.tokens arrays, hash)

inductive Used (arrays : Nat → List T) (owner : Nat → Nat) : (Nat → Option (List H)) → Prop where
  | unused : Used arrays owner fun _ => none
  | build {metas metas' : Nat → Option (List H)} {before : Option TokenListView} {query : TokenListView}
      {results : List (TokenListView × H)} (h : Used arrays owner metas)
      (howner : ∀ view ∈ query :: before.toList, view.data = owner view.metadata)
      (hbuild : builder.build arrays metas before query = some (results, metas')) : Used arrays owner metas'

variable {builder} {arrays : Nat → List T} {owner : Nat → Nat} {metas metas' : Nat → Option (List H)}
  {before : Option TokenListView} {query all : TokenListView}

theorem add_data {view other : TokenListView} (h : view.add other = some all) :
    all.data = view.data ∧ all.metadata = view.metadata := by
  unfold add at h
  split at h
  · cases h
  split at h
  · cases h
    exact ⟨rfl, rfl⟩
  split at h
  · cases h
    exact ⟨rfl, rfl⟩
  · cases h

theorem Used.hashes (h : builder.Used arrays owner metas) {id : Nat} {hashes : List H} (hid : metas id = some hashes) :
    hashes = builder.hashBytes (arrays (owner id)) := by
  induction h generalizing id hashes with
  | unused => cases hid
  | @build metas metas' before query results h howner hbuild ih =>
    unfold RollingHashKeyBuilder.build at hbuild
    dsimp only at hbuild
    split at hbuild
    · cases hbuild
    split at hbuild
    · cases hbuild
      exact ih hid
    obtain ⟨all, hall, hbuild⟩ := bind_eq_some_iff.1 hbuild
    obtain ⟨_, -, heq⟩ := map_eq_some_iff.1 hbuild
    obtain ⟨-, rfl⟩ := Prod.mk.inj heq
    have hdt : all.data = owner all.metadata := by
      cases before with
      | none =>
        cases hall
        exact howner _ mem_cons_self
      | some before =>
        obtain ⟨hdt, hmt⟩ := add_data hall
        rw [hdt, hmt]
        exact howner before (by simp)
    unfold cachedHashes at hid
    split at hid
    · exact ih hid
    dsimp only at hid
    rw [Function.update_apply] at hid
    split at hid
    · rename_i heq
      rw [← some.inj hid, heq, hdt]
    · exact ih hid

/-! ## The keys -/

end RollingHashKeyBuilder

/-! ## Views as token lists -/

namespace TokenListView

variable {T H : Type} (arrays : Nat → List T)

/-- A bound, counted from the end if it is negative, cut to `0 ≤ i ≤ n`. -/
def index (n : Nat) (i : Int) : Nat := min (if i < 0 then i + n else i).toNat n

/-- The constructor puts its bounds in order. -/
def make (data metadata : Nat) (start stop : Option Int) : TokenListView :=
  let n := (arrays data).length
  let start := index n (start.getD 0)
  let stop := index n (stop.getD n)
  ⟨data, min start stop, max start stop, metadata⟩

abbrev Bounds := Option Int × Option Int

/-- `view[i:j]` -/
def slice (view : TokenListView) (bounds : Bounds) : TokenListView :=
  make arrays view.data view.metadata (some (view.start + index view.len (bounds.1.getD 0)))
    (some (view.start + index view.len (bounds.2.getD view.len)))

/-- `tokens[i:j]` of a Python list -/
def sliceList (tokens : List T) (bounds : Bounds) : List T :=
  (tokens.take (index tokens.length (bounds.2.getD tokens.length))).drop (index tokens.length (bounds.1.getD 0))

def eq [DecidableEq T] (view other : TokenListView) : Bool :=
  if view.data = other.data then view.start = other.start ∧ view.stop = other.stop
  else view.len = other.len ∧ view.tokens arrays = other.tokens arrays

/-- The bounds of a slice, once they are cut to the length, are not crossed. -/
def Ordered (n : Nat) (bounds : Bounds) : Prop := index n (bounds.1.getD 0) ≤ index n (bounds.2.getD n)

instance (n : Nat) : DecidablePred (Ordered n) := fun _ => inferInstanceAs (Decidable (_ ≤ _))

/-- No slice of the run has crossed bounds. -/
def InOrder : List T → List Bounds → Prop
  | _, [] => True
  | tokens, bounds :: rest => Ordered tokens.length bounds ∧ InOrder (sliceList tokens bounds) rest

/-- The hash reads the bytes of the tokens, which depend on the type of the array. -/
def hash {D : Type} (dtypes : Nat → D) (farmHash32 : D → List T → H) (view : TokenListView) : H :=
  farmHash32 (dtypes view.data) (view.tokens arrays)

variable {arrays} {a b : TokenListView}

theorem valid_make (data metadata : Nat) (start stop : Option Int) :
    (make arrays data metadata start stop).Valid arrays := by
  constructor
  · exact min_le_max
  · exact max_le (min_le_right _ _) (min_le_right _ _)

theorem tokens_slice (h : a.Valid arrays) {bounds : Bounds} (hij : Ordered a.len bounds) :
    (a.slice arrays bounds).tokens arrays = sliceList (a.tokens arrays) bounds := by
  unfold Ordered at hij
  have hj : index a.len (bounds.2.getD a.len) ≤ a.len := min_le_right _ _
  unfold slice make sliceList
  rw [h.length_tokens]
  generalize index a.len (bounds.1.getD 0) = i at *
  generalize index a.len (bounds.2.getD a.len) = j at *
  obtain ⟨hle, hst⟩ := h
  have hlen : a.len = a.stop - a.start := rfl
  have hi : index (arrays a.data).length (a.start + i) = a.start + i := by unfold index; omega
  have hjn : index (arrays a.data).length (a.start + j) = a.start + j := by unfold index; omega
  simp only [getD_some, hi, hjn, tokens, len, min_eq_left (Nat.add_le_add_left hij _),
    max_eq_right (Nat.add_le_add_left hij _), take_take, drop_take, drop_drop, Nat.add_sub_add_left]
  rw [min_eq_left (by omega)]

theorem tokens_slices {bounds : List Bounds} (h : a.Valid arrays) (hin : InOrder (a.tokens arrays) bounds) :
    (bounds.foldl (slice arrays) a).tokens arrays = bounds.foldl sliceList (a.tokens arrays) := by
  induction bounds generalizing a with
  | nil => rfl
  | cons first rest ih =>
    obtain ⟨hij, hin⟩ := hin
    rw [h.length_tokens] at hij
    have htk := tokens_slice h hij
    rw [foldl_cons, foldl_cons, ← htk]
    exact ih (valid_make _ _ _ _) (htk ▸ hin)

/-- A slice with crossed bounds holds the tokens between them, and the list slice none. -/
theorem ordered_of_slice (h : a.Valid arrays) {bounds : Bounds}
    (heq : (a.slice arrays bounds).tokens arrays = sliceList (a.tokens arrays) bounds) : Ordered a.len bounds := by
  by_contra hcrossed
  have hlen := congrArg List.length heq
  have hvalid : (a.slice arrays bounds).Valid arrays := valid_make _ _ _ _
  rw [hvalid.length_tokens, sliceList, h.length_tokens, length_drop, length_take, h.length_tokens] at hlen
  change max (index _ (a.start + index a.len (bounds.1.getD 0))) (index _ (a.start + index a.len (bounds.2.getD a.len))) -
    min _ _ = _ at hlen
  unfold Ordered at hcrossed
  have hi : index a.len (bounds.1.getD 0) ≤ a.len := min_le_right _ _
  generalize index a.len (bounds.1.getD 0) = i at *
  generalize index a.len (bounds.2.getD a.len) = j at *
  obtain ⟨hle, hstop⟩ := h
  have hall : a.len = a.stop - a.start := rfl
  have hin : index (arrays a.data).length (a.start + i) = a.start + i := by unfold index; omega
  have hjn : index (arrays a.data).length (a.start + j) = a.start + j := by unfold index; omega
  simp only [getD_some, hin, hjn] at hlen
  omega

theorem tokens_of_adjacent (ha : a.Valid arrays) (hb : b.Valid arrays) (hdt : a.data = b.data)
    (hab : a.stop = b.start) :
    ({ a with stop := b.stop } : TokenListView).tokens arrays = a.tokens arrays ++ b.tokens arrays := by
  obtain ⟨hal, -⟩ := ha
  obtain ⟨hbl, -⟩ := hb
  simp only [tokens, len, ← hdt, ← hab]
  rw [show b.stop - a.start = (a.stop - a.start) + (b.stop - a.stop) by omega, take_add, drop_drop,
    Nat.add_sub_cancel' hal]

theorem tokens_add_iff (ha : a.Valid arrays) (hb : b.Valid arrays) :
    (∀ all, a.add b = some all → all.tokens arrays = a.tokens arrays ++ b.tokens arrays) ↔
      (a.data = b.data → b.stop = a.start → a.stop = b.start ∨
        b.tokens arrays ++ a.tokens arrays = a.tokens arrays ++ b.tokens arrays) := by
  unfold add
  split_ifs with hdt hab hba
  · exact iff_of_true nofun fun h => absurd h hdt
  · refine iff_of_true ?_ fun _ _ => .inl hab
    rintro all ⟨⟩
    exact tokens_of_adjacent ha hb (not_not.1 hdt) hab
  · have hfront : ({ a with start := b.start } : TokenListView).tokens arrays = b.tokens arrays ++ a.tokens arrays := by
      rw [← tokens_of_adjacent hb ha (not_not.1 hdt).symm hba]
      unfold tokens
      rw [not_not.1 hdt]
      rfl
    refine ⟨fun h _ _ => .inr (hfront ▸ h _ rfl), fun h => ?_⟩
    rintro all ⟨⟩
    rw [hfront]
    exact (h (not_not.1 hdt) hba).resolve_left hab
  · exact iff_of_true nofun fun _ h => absurd h hba

variable [DecidableEq T]

theorem tokens_of_eq (h : a.eq arrays b = true) : a.tokens arrays = b.tokens arrays := by
  unfold eq at h
  split_ifs at h with hdt
  · obtain ⟨hst, hsp⟩ := of_decide_eq_true h
    simp [tokens, len, hdt, hst, hsp]
  · exact (of_decide_eq_true h).2

theorem eq_of_tokens (ha : a.Valid arrays) (hb : b.Valid arrays) (h : a.data = b.data → a.start = b.start)
    (heq : a.tokens arrays = b.tokens arrays) : a.eq arrays b = true := by
  have hln : a.len = b.len := by rw [← ha.length_tokens, ← hb.length_tokens, heq]
  obtain ⟨hal, -⟩ := ha
  obtain ⟨hbl, -⟩ := hb
  unfold eq
  split_ifs with hdt
  · have hst := h hdt
    unfold len at hln
    exact decide_eq_true ⟨hst, by omega⟩
  · exact decide_eq_true ⟨hln, heq⟩

/-- Where a view is the token list that it holds: slices with ordered bounds, a sum that puts no view in front, and
comparisons of one array at one place. -/
theorem views_hold_tokens {D : Type} (arrays : Nat → List T) (dtypes : Nat → D) (farmHash32 : D → List T → H) :
    (∀ data metadata start stop, (make arrays data metadata start stop).Valid arrays) ∧
    (∀ a, Valid arrays a →
      (∀ bounds, (a.slice arrays bounds).tokens arrays = sliceList (a.tokens arrays) bounds ↔ Ordered a.len bounds) ∧
      ∀ bounds, InOrder (a.tokens arrays) bounds →
        (bounds.foldl (slice arrays) a).tokens arrays = bounds.foldl sliceList (a.tokens arrays)) ∧
    (∀ a b, Valid arrays a → Valid arrays b →
      ((∀ all, a.add b = some all → all.tokens arrays = a.tokens arrays ++ b.tokens arrays) ↔
        (a.data = b.data → b.stop = a.start → a.stop = b.start ∨
          b.tokens arrays ++ a.tokens arrays = a.tokens arrays ++ b.tokens arrays))) ∧
    (∀ a b, Valid arrays a → Valid arrays b → (a.eq arrays b = true → a.tokens arrays = b.tokens arrays) ∧
      ((a.tokens arrays = b.tokens arrays → a.eq arrays b = true) ↔
        (a.data = b.data → a.tokens arrays = b.tokens arrays → a.start = b.start))) ∧
    ∀ a b, dtypes a.data = dtypes b.data → eq arrays a b = true →
      a.hash arrays dtypes farmHash32 = b.hash arrays dtypes farmHash32 := by
  refine ⟨valid_make, fun a ha => ⟨fun bounds => ⟨ordered_of_slice ha, tokens_slice ha⟩, fun _ => tokens_slices ha⟩,
    fun a b => tokens_add_iff, fun a b ha hb => ⟨tokens_of_eq, fun h hdt htk => ?_, fun h htk => ?_⟩, fun a b hdt h => ?_⟩
  · have heq := h htk
    rw [eq, if_pos hdt] at heq
    exact (of_decide_eq_true heq).1
  · exact eq_of_tokens ha hb (fun hdt => h hdt htk) htk
  · rw [hash, hash, hdt, tokens_of_eq h]

theorem views_hold_tokens_nested :
    let arrays : Nat → List Nat := fun _ => [7, 8, 9]
    let all := make arrays 0 0 none none
    ([(some 1, none), (none, some (-1))].foldl (slice arrays) all).tokens arrays = [8] ∧
      (∀ sum, (all.slice arrays (none, some 1)).add (all.slice arrays (some 1, none)) = some sum →
        sum.tokens arrays = [7, 8, 9]) ∧ all.eq arrays (make arrays 1 1 none none) = true := by
  obtain ⟨hmake, hslice, hadd, heq, -⟩ := views_hold_tokens (fun _ => [7, 8, 9]) (fun _ => ()) fun _ => List.length
  refine ⟨?_, ?_, ?_⟩
  · exact (hslice _ (hmake 0 0 none none)).2 [(some 1, none), (none, some (-1))] ⟨by decide, by decide, trivial⟩
  · exact (hadd _ _ (hmake _ _ _ _) (hmake _ _ _ _)).2 fun _ _ => .inl (by decide)
  · exact (heq _ _ (hmake 0 0 none none) (hmake 1 1 none none)).2.2 nofun (by decide)

/-- A crossed slice is not empty, a view is added in front, and equality is not transitive. -/
theorem views_mislead :
    let arrays : Nat → List Nat := fun data => if data = 0 then [7, 7, 8] else [7]
    let all := make arrays 0 0 none none
    let first := all.slice arrays (none, some 1)
    let second := all.slice arrays (some 1, some 2)
    let other := make arrays 1 1 none none
    (all.slice arrays (some 2, some 1)).tokens arrays ≠ sliceList (all.tokens arrays) (some 2, some 1) ∧
    ((all.slice arrays (some 1, none)).add first).map (·.tokens arrays) = some [7, 7, 8] ∧
    first.eq arrays other = true ∧ other.eq arrays second = true ∧ first.eq arrays second = false ∧
      first.tokens arrays = second.tokens arrays := by
  decide

end TokenListView

end Aibrix.KvCache
