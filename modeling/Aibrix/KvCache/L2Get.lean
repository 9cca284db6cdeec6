import Mathlib.Data.List.TakeWhile
import Mathlib.Algebra.Order.Ring.Rat
import Aibrix.KvCache.Policies

/-! # Reading from the L2 cache

`L2Cache.get` asks its backend for the blocks of a query, a batch at a time, and reports how many it has got. -/

namespace Aibrix.KvCache

open List

theorem map_snd_zip_eq_take {α β : Type} (xs : List α) (ys : List β) :
    (xs.zip ys).map Prod.snd = ys.take (xs.zip ys).length := by
  induction xs generalizing ys with
  | nil => rfl
  | cons x xs ih =>
    cases ys with
    | nil => rfl
    | cons y ys => simp [ih ys]

section Batches

variable {α : Type}

/-- The rest of the batches, when `batch` is the one that is being filled. -/
def batchedFrom (size : Nat) : List α → List α → List (List α)
  | batch, [] => if batch.isEmpty then [] else [batch]
  | batch, x :: xs =>
    if batch.length + 1 ≥ size then (batch ++ [x]) :: batchedFrom size [] xs else batchedFrom size (batch ++ [x]) xs

def batched (size : Nat) (xs : List α) : List (List α) := batchedFrom size [] xs

theorem flatten_batchedFrom (size : Nat) (batch xs : List α) : (batchedFrom size batch xs).flatten = batch ++ xs := by
  induction xs generalizing batch with
  | nil => cases batch <;> simp [batchedFrom]
  | cons x xs ih =>
    rw [batchedFrom]
    split
    · rw [flatten_cons, ih, nil_append, append_assoc, singleton_append]
    · rw [ih, append_assoc, singleton_append]

theorem flatten_batched (size : Nat) (xs : List α) : (batched size xs).flatten = xs := flatten_batchedFrom size [] xs

theorem ne_nil_of_mem_batchedFrom {size : Nat} {batch xs b : List α} (h : b ∈ batchedFrom size batch xs) : b ≠ [] := by
  induction xs generalizing batch with
  | nil =>
    cases batch with
    | nil => simp [batchedFrom] at h
    | cons x batch =>
      obtain rfl : b = x :: batch := by simpa [batchedFrom] using h
      exact cons_ne_nil _ _
  | cons x xs ih =>
    rw [batchedFrom] at h
    split at h
    · rcases mem_cons.1 h with rfl | h
      · exact append_ne_nil_of_right_ne_nil _ (cons_ne_nil _ _)
      · exact ih h
    · exact ih h

end Batches

/-! ## The cache -/

structure Fetched (T D : Type) where
  status : Option StatusCode
  written : Option D
  prefixInMr : Option (List T) := none
  queryInMr : Option (List T) := none

structure L2Cache (T D : Type) where
  blockNtokens : Nat
  blockNtokens_pos : 0 < blockNtokens
  opBatch : Nat
  opBatch_pos : 0 < opBatch
  useCompactLayout : Bool
  mputMget : Bool
  fetch : List T → Fetched T D

def Region.isManaged : Region → Bool
  | .managed _ => true
  | .external _ => false

def unaligned {T : Type} (blockNtokens : Nat) (before : Option (List T)) : Bool :=
  before.any (·.length % blockNtokens ≠ 0)

/-- The real keys of the blocks of a query: all tokens up to the end of each. -/
def realKeys {T : Type} (blockNtokens : Nat) (before : Option (List T)) (query : List T) : List (List T) :=
  (range (query.length / blockNtokens)).map fun i =>
    (before.getD [] ++ query).take ((before.getD []).length + (i + 1) * blockNtokens)

variable {managed : Bool}

namespace L2Cache

variable {T D : Type} [DecidableEq T] (l2 : L2Cache T D)

def tokensMatch (realKey : List T) (prefixInMr queryInMr : Option (List T)) : Bool :=
  match queryInMr with
  | none => false
  | some query =>
    if query.length ≠ l2.blockNtokens then false
    else
      match prefixInMr with
      | some before => before ++ query = realKey
      | none => query = realKey

def backendGetImpl (block : List T × Region) : Option StatusCode :=
  match (l2.fetch block.1).status with
  | some code => some code
  | none =>
    if block.2.isManaged ∧ ¬ l2.useCompactLayout then
      if l2.tokensMatch block.1 (l2.fetch block.1).prefixInMr (l2.fetch block.1).queryInMr then none
      else some .notFound
    else none

/-- The loop over the statuses of `mget`. A block that is missing is passed over. -/
def mgetCount (isManagedMr : Bool) : Nat → List (List T × Region) → Nat
  | nr, [] => nr
  | nr, block :: batch =>
    if (l2.fetch block.1).status ≠ none then mgetCount isManagedMr nr batch
    else if (isManagedMr ∧ ¬ l2.useCompactLayout) ∧
        ¬ l2.tokensMatch block.1 (l2.fetch block.1).prefixInMr (l2.fetch block.1).queryInMr then
      mgetCount isManagedMr nr batch
    else mgetCount isManagedMr (nr + 1) batch

def backendMgetImpl (batch : List (List T × Region)) : Status Nat :=
  let nr := l2.mgetCount (batch.head?.any (·.2.isManaged)) 0 batch
  if nr = 0 then .error .notFound else .ok nr

def place (w : World D) (block : List T × Region) : World D :=
  match (l2.fetch block.1).written with
  | none => w
  | some d => w.write block.2 d

def getLoop : Nat → List (List (List T × Region)) → World D → World D × Nat
  | nr, [], w => (w, nr)
  | nr, batch :: batches, w =>
    let w := batch.foldl l2.place w
    let ok := (batch.takeWhile fun block => (l2.backendGetImpl block).isNone).length
    if ok < batch.length then (w, nr + ok) else getLoop (nr + ok) batches w

def mgetLoop : Nat → List (List (List T × Region)) → World D → World D × Nat
  | nr, [], w => (w, nr)
  | nr, batch :: batches, w =>
    let w := batch.foldl l2.place w
    match l2.backendMgetImpl batch with
    | .error _ => (w, nr)
    | .ok n => mgetLoop (nr + n) batches w

def reported (nr : Nat) : Status Nat := if nr = 0 then .error .notFound else .ok nr

def get (w : World D) (before : Option (List T)) (query : List T) (mrs : List Region) : World D × Status Nat :=
  if before.any (·.length % l2.blockNtokens ≠ 0) then (w, .error .invalid)
  -- An assertion, which reaches the caller as an exception.
  else if mrs.length ≠ query.length / l2.blockNtokens then (w, .error .error)
  else
    let batches := batched l2.opBatch ((realKeys l2.blockNtokens before query).zip mrs)
    let fetched := if l2.mputMget then l2.mgetLoop 0 batches w else l2.getLoop 0 batches w
    (fetched.1, reported fetched.2)

/-- Whether a block has been fetched, and holds the tokens of its real key where it holds tokens. -/
def delivered (block : List T × Region) : Bool := (l2.backendGetImpl block).isNone

theorem getLoop_snd (nr : Nat) (batches : List (List (List T × Region))) (w : World D) :
    (l2.getLoop nr batches w).2 = nr + (batches.flatten.takeWhile l2.delivered).length := by
  induction batches generalizing nr w with
  | nil => rfl
  | cons batch batches ih =>
    have hle : (batch.takeWhile l2.delivered).length ≤ batch.length :=
      IsPrefix.length_le <| takeWhile_prefix _
    rw [flatten_cons, takeWhile_append]
    change (if (batch.takeWhile l2.delivered).length < batch.length then _ else _ : World D × Nat).2 = _
    split
    · rw [if_neg (by omega)]
      rfl
    · rw [ih, if_pos (by omega), length_append]
      change nr + (batch.takeWhile l2.delivered).length + _ = _
      omega

theorem mgetCount_eq {batch : List (List T × Region)} (nr : Nat) (hmn : ∀ block ∈ batch, block.2.isManaged = managed) :
    l2.mgetCount managed nr batch = nr + batch.countP l2.delivered := by
  induction batch generalizing nr with
  | nil => rfl
  | cons block batch ih =>
    have hst : l2.delivered block = true ↔ (l2.fetch block.1).status = none ∧ ¬ ((managed ∧ ¬ l2.useCompactLayout) ∧
        ¬ l2.tokensMatch block.1 (l2.fetch block.1).prefixInMr (l2.fetch block.1).queryInMr) := by
      unfold delivered backendGetImpl
      cases (l2.fetch block.1).status with
      | some code => simp
      | none => split_ifs <;> simp_all
    have hrs := fun nr => ih nr fun b hb => hmn b (mem_cons_of_mem _ hb)
    rw [mgetCount, countP_cons]
    split
    · rw [hrs, if_neg (by tauto)]
      rfl
    split
    · rw [hrs, if_neg (by tauto)]
      rfl
    · rw [hrs, if_pos (by tauto)]
      omega

theorem backendMgetImpl_eq {batch : List (List T × Region)} (hmn : ∀ block ∈ batch, block.2.isManaged = managed) :
    l2.backendMgetImpl batch = reported (batch.countP l2.delivered) := by
  unfold backendMgetImpl reported
  cases batch with
  | nil => rfl
  | cons block rest =>
    have hfr : (block :: rest).head?.any (·.2.isManaged) = managed := hmn block mem_cons_self
    rw [hfr, l2.mgetCount_eq 0 hmn, zero_add]

theorem mgetLoop_snd (nr : Nat) {batches : List (List (List T × Region))}
    (hmn : ∀ batch ∈ batches, ∀ block ∈ batch, block.2.isManaged = managed) (w : World D) :
    (l2.mgetLoop nr batches w).2 = nr + (batches.takeWhile (·.any l2.delivered)).flatten.countP l2.delivered := by
  induction batches generalizing nr w with
  | nil => rfl
  | cons batch batches ih =>
    have hcn := l2.backendMgetImpl_eq (hmn batch mem_cons_self)
    rw [mgetLoop, hcn, takeWhile_cons]
    unfold reported
    rcases Nat.eq_zero_or_pos (batch.countP l2.delivered) with hnn | hsm
    · have hany : batch.any l2.delivered = false := by simpa [countP_eq_zero] using hnn
      rw [if_pos hnn, hany]
      rfl
    have hany : batch.any l2.delivered = true := by simpa [countP_pos_iff] using hsm
    rw [if_neg (by omega), hany]
    rw [ih _ fun b hb => hmn b (mem_cons_of_mem _ hb)]
    simp only [if_true, flatten_cons, countP_append]
    omega

end L2Cache

section Holes

variable {α : Type} {p : α → Bool}

/-- Nothing is counted after a hole just if the count is the length of what stands before it. -/
theorem countP_eq_length_takeWhile (xs : List α) :
    xs.countP p = (xs.takeWhile p).length ↔ ∀ x ∈ xs.dropWhile p, ¬ p x := by
  have hcut : xs.countP p = (xs.takeWhile p).countP p + (xs.dropWhile p).countP p := by
    rw [← countP_append, takeWhile_append_dropWhile]
  have hfr : (xs.takeWhile p).countP p = (xs.takeWhile p).length :=
    List.countP_eq_length.2 fun x hx => mem_takeWhile_imp hx
  rw [← countP_eq_zero]
  omega

theorem takeWhile_flatten {batches : List (List α)} (hne : ∀ batch ∈ batches, batch ≠ []) :
    (batches.takeWhile (·.any p)).flatten.takeWhile p = batches.flatten.takeWhile p := by
  induction batches with
  | nil => rfl
  | cons batch batches ih =>
    have hrs := ih fun b hb => hne b (mem_cons_of_mem _ hb)
    rw [takeWhile_cons, flatten_cons, takeWhile_append]
    cases hany : batch.any p with
    | false =>
      obtain ⟨x, xs, rfl⟩ := exists_cons_of_ne_nil (hne batch mem_cons_self)
      have hx : p x = false := by
        have := List.any_eq_false.1 hany x mem_cons_self
        simpa using this
      simp [hx]
    | true =>
      rw [if_pos rfl, flatten_cons, takeWhile_append, hrs]

end Holes

/-! ## The longest prefix -/

namespace L2Cache

variable {T D : Type} [DecidableEq T] (l2 : L2Cache T D)

/-- The block of this real key has been fetched. Where a region holds tokens, they are those of the key. -/
structure Delivered (managed : Bool) (realKey : List T) : Prop where
  fetched : (l2.fetch realKey).status = none
  packed : managed = true → l2.useCompactLayout = false →
    ∃ query, (l2.fetch realKey).queryInMr = some query ∧ query.length = l2.blockNtokens ∧
      (l2.fetch realKey).prefixInMr.getD [] ++ query = realKey

theorem tokensMatch_iff (realKey : List T) ( prefixInMr queryInMr : Option (List T)) :
    l2.tokensMatch realKey prefixInMr queryInMr = true ↔ ∃ query, queryInMr = some query ∧
      query.length = l2.blockNtokens ∧ prefixInMr.getD [] ++ query = realKey := by
  unfold tokensMatch
  cases queryInMr with
  | none => simp
  | some query =>
    split
    · simp_all
    · cases prefixInMr <;> simp_all

theorem delivered_iff (realKey : List T) (mr : Region) :
    l2.delivered (realKey, mr) = true ↔ l2.Delivered mr.isManaged realKey := by
  have hmt := l2.tokensMatch_iff realKey (l2.fetch realKey).prefixInMr (l2.fetch realKey).queryInMr
  unfold delivered backendGetImpl
  constructor
  · intro h
    split at h
    · cases h
    · refine ⟨‹_›, fun hmn hly => hmt.1 ?_⟩
      rw [hmn, hly] at h
      simpa using h
  rintro ⟨hft, hpc⟩
  rw [hft]
  dsimp only
  split
  · rename_i hch
    rw [if_pos (hmt.2 (hpc hch.1 (by simpa using hch.2)))]
    rfl
  · rfl

variable (blocks : List (List T × Region))

/-- The blocks that `mget` counts: those of the batches before the first one in which nothing is delivered. -/
def counted : List (List T × Region) :=
  ((batched l2.opBatch blocks).takeWhile (·.any l2.delivered)).flatten

theorem takeWhile_counted : (l2.counted blocks).takeWhile l2.delivered = blocks.takeWhile l2.delivered := by
  have hne : ∀ batch ∈ batched l2.opBatch blocks, batch ≠ [] := fun _ hbt => ne_nil_of_mem_batchedFrom hbt
  unfold counted
  rw [takeWhile_flatten hne, flatten_batched]

theorem reported_inj {n m : Nat} : reported n = reported m ↔ n = m := by
  unfold reported
  split_ifs <;> simp <;> omega

theorem managed_of_batched {α : Type} {n : Nat} {keys : List α} {mrs : List Region}
    (hmn : ∀ mr ∈ mrs, mr.isManaged = managed) :
    ∀ batch ∈ batched n (keys.zip mrs), ∀ block ∈ batch, block.2.isManaged = managed := by
  intro batch hbt block hbc
  have hmem := mem_flatten_of_mem hbt hbc
  rw [flatten_batched] at hmem
  exact hmn _ (of_mem_zip hmem).2

theorem not_any_length_mod {α : Type} {n : Nat} {before : Option (List α)} (hbf : ∀ tokens ∈ before, tokens.length % n = 0) :
    ¬ before.any (·.length % n ≠ 0) = true := by
  cases before with
  | none => simp
  | some tokens => simpa using hbf tokens rfl

theorem get_snd (w : World D) {before : Option (List T)} {query : List T} {mrs : List Region}
    (hbf : ∀ tokens ∈ before, tokens.length % l2.blockNtokens = 0)
    (hmrs : mrs.length = query.length / l2.blockNtokens) (hmn : ∀ mr ∈ mrs, mr.isManaged = managed) :
    let r := (realKeys l2.blockNtokens before query).zip mrs
    (l2.get w before query mrs).2 = reported (if l2.mputMget then (l2.counted r).countP l2.delivered else
      (r.takeWhile l2.delivered).length) := by
  unfold get
  rw [if_neg (not_any_length_mod hbf), if_neg (by omega)]
  dsimp only
  split
  · rw [l2.mgetLoop_snd 0 (managed_of_batched hmn), zero_add]
    rfl
  · rw [l2.getLoop_snd, flatten_batched, zero_add]

theorem takeWhile_delivered (keys : List (List T)) {mrs : List Region}
    (hmrs : mrs.length = keys.length) (hmn : ∀ mr ∈ mrs, mr.isManaged = managed) :
    let r := (keys.zip mrs).takeWhile l2.delivered
    (∀ i < r.length, ∃ key, keys[i]? = some key ∧ l2.Delivered managed key) ∧ ∀ key, keys[r.length]? = some key
      → ¬ l2.Delivered managed key := by
  induction keys generalizing mrs with
  | nil => simp
  | cons key keys ih =>
    cases mrs with
    | nil => simp at hmrs
    | cons mr mrs =>
      have hrs := @ih mrs (by simpa using hmrs) fun m hm => hmn m (mem_cons_of_mem _ hm)
      have hmr : mr.isManaged = managed := hmn mr mem_cons_self
      have hiff := l2.delivered_iff key mr
      rw [hmr] at hiff
      rw [zip_cons_cons, takeWhile_cons]
      split
      · refine ⟨fun i hi => ?_, fun key' hkey => ?_⟩
        · cases i with
          | zero => exact ⟨key, rfl, hiff.1 ‹_›⟩
          | succ i => exact hrs.1 i (by simpa using hi)
        · exact hrs.2 key' (by simpa using hkey)
      · refine ⟨fun i hi => by simp at hi, fun key' hkey => ?_⟩
        obtain rfl : key = key' := by simpa using hkey
        exact fun hdl => ‹¬ _› (hiff.2 hdl)

/-- With `n` the number of blocks before the first one that is not delivered: the backend that is asked block by
block is reported to have got `n`, and the one with `mget` just if nothing that it counts comes after a hole. -/
theorem get_reports_longest (w : World D) {before : Option (List T)} {query : List T} {mrs : List Region}
    {managed : Bool} (hbefore : ∀ tokens ∈ before, tokens.length % l2.blockNtokens = 0)
    (hmrs : mrs.length = query.length / l2.blockNtokens) (hmanaged : ∀ mr ∈ mrs, mr.isManaged = managed) :
    ∃ n, (∀ i < n, ∃ key, (realKeys l2.blockNtokens before query)[i]? = some key ∧ l2.Delivered managed key) ∧
      (∀ key, (realKeys l2.blockNtokens before query)[n]? = some key → ¬ l2.Delivered managed key) ∧
      ({ l2 with mputMget := false }.get w before query mrs).2 = reported n ∧
      (({ l2 with mputMget := true }.get w before query mrs).2 = reported n ↔
        ∀ block ∈ (l2.counted ((realKeys l2.blockNtokens before query).zip mrs)).dropWhile l2.delivered,
          ¬ l2.delivered block) := by
  have hkeys : mrs.length = (realKeys l2.blockNtokens before query).length := by
    rw [hmrs, realKeys, length_map, List.length_range]
  obtain ⟨hdelivered, hstop⟩ := l2.takeWhile_delivered _ hkeys hmanaged
  have hmget : ({ l2 with mputMget := true }.get w before query mrs).2 =
      reported ((l2.counted ((realKeys l2.blockNtokens before query).zip mrs)).countP l2.delivered) :=
    get_snd { l2 with mputMget := true } w hbefore hmrs hmanaged
  refine ⟨_, hdelivered, hstop, get_snd { l2 with mputMget := false } w hbefore hmrs hmanaged, ?_⟩
  rw [hmget, reported_inj, ← countP_eq_length_takeWhile, l2.takeWhile_counted]

def holed (mputMget : Bool) : L2Cache Bool Bool where
  blockNtokens := 1
  blockNtokens_pos := Nat.one_pos
  opBatch := 8
  opBatch_pos := by decide
  useCompactLayout := true
  mputMget
  fetch realKey :=
    if realKey.length = 1 then { status := some .notFound, written := none }
    else { status := none, written := some true }

def buffers : World Bool where
  heap := { content := fun _ => false, junk := false }
  external _ := false
  grants _ := 0

theorem get_counts_past_hole : ((holed true).get buffers none [true, true] [.external 0, .external 1]).2 = .ok 1 ∧
    ((holed true).get buffers none [true, true] [.external 0, .external 1]).1.read (.external 0) = false ∧
    ((holed true).fetch [true]).status = some .notFound ∧
    ((holed false).get buffers none [true, true] [.external 0, .external 1]).2 = .error .notFound := by
  decide

def cut (mputMget : Bool) : L2Cache Bool Bool :=
  { holed mputMget with
    fetch := fun realKey =>
      if realKey.length = 2 then { status := some .notFound, written := none }
      else { status := none, written := some true } }

theorem get_reports_longest_cut : ((cut false).get buffers none [true, true] [.external 0, .external 1]).2 = .ok 1 ∧
    ((cut true).get buffers none [true, true] [.external 0, .external 1]).2 = .ok 1 := by
  obtain ⟨n, -, -, hget, hmget⟩ := @get_reports_longest _ _ _ (cut false) buffers none [true, true]
    [.external 0, .external 1] false (by simp) rfl (by decide)
  have hsame := hmget.2 (by decide)
  have hone : ((cut false).get buffers none [true, true] [.external 0, .external 1]).2 = .ok 1 := by decide
  refine ⟨hone, ?_⟩
  exact hsame.trans (hget.symm.trans hone)

end L2Cache

end Aibrix.KvCache
