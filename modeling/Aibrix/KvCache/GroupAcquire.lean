import Aibrix.KvCache.ZeroCopy
import Aibrix.Lib.Threads

/-! # Acquiring in a process group

`GroupAwareKVCacheManager`: the participants of a group acquire a query chunk by chunk, and agree on every chunk. -/

namespace Aibrix.KvCache

open List Lib

variable {T R : Type}

abbrev Chunk (T : Type) := List T × List T

def cacheChunkKeys (blockNtokens chunkSize : Nat) (before : Option (List T)) (query : List T) : List (Chunk T) :=
  let alignedNumTokens := query.length - query.length % blockNtokens
  (range ((alignedNumTokens + chunkSize - 1) / chunkSize)).map fun i =>
    ((before.getD [] ++ query).take ((before.getD []).length + i * chunkSize),
      ((before.getD [] ++ query).drop ((before.getD []).length + i * chunkSize)).take chunkSize)

structure Group (T R : Type) where
  blockNtokens : Nat
  blockNtokens_pos : 0 < blockNtokens
  chunkSize : Nat
  chunkSize_pos : 0 < chunkSize
  blockNtokens_dvd : blockNtokens ∣ chunkSize
  worldSize : Nat
  worldSize_pos : 0 < worldSize
  /-- `_acquire_impl` of every participant: an error, or the regions of leading blocks of the chunk. -/
  acquireImpl : Fin worldSize → Chunk T → Status (List R)
  leading : ∀ p chunk mrs, acquireImpl p chunk = .ok mrs → mrs.length * blockNtokens ≤ chunk.2.length

def collTensor : Status (List R) → Int
  | .ok mrs => mrs.length
  | .error .notFound => 0
  | .error _ => -1

def allReduceMin : List Int → Int
  | [] => 0
  | x :: xs => xs.foldl (fun least y => if y < least then y else least) x

structure Turn (T R : Type) where
  chunk : Chunk T
  rest : List (Chunk T)
  start : Nat := 0
  results : List R := []
  acquired : List R := []
  collectives : Nat := 0

structure Result (R : Type) where
  status : Status (Nat × List R)
  released : List R := []
  acquired : List R := []
  collectives : Nat := 0
  raised : Bool := false

namespace Group

variable (g : Group T R)

def loopTop (chunks : List (Chunk T)) (start : Nat) (results acquired : List R) (collectives : Nat) :
    Turn T R ⊕ Result R :=
  match chunks with
  | chunk :: rest => .inl { chunk, rest, start, results, acquired, collectives }
  | [] =>
    .inr { status := if 0 < start then .ok (start, results) else .error .notFound, acquired, collectives }

variable (p : Fin g.worldSize)

def afterReduce (turn : Turn T R) (collResult : Int) : Turn T R ⊕ Result R :=
  let value := returned (g.acquireImpl p turn.chunk)
  let acquired := turn.acquired ++ value
  let collectives := turn.collectives + 1
  if collResult ≤ 0 then
    let status :=
      if 0 < turn.start then .ok (turn.start, turn.results)
      else if collResult = 0 then .error .notFound
      else .error .error
    .inr { status, released := value, acquired, collectives }
  else if collResult * g.blockNtokens < turn.chunk.2.length then
    .inr
      { status := .ok (turn.start + collResult.toNat * g.blockNtokens, turn.results ++ value.take collResult.toNat)
        released := value.drop collResult.toNat, acquired, collectives }
  else if value.length * g.blockNtokens ≠ turn.chunk.2.length then
    .inr { status := .error .error, acquired, collectives, raised := true }
  else loopTop turn.rest (turn.start + turn.chunk.2.length) (turn.results ++ value) acquired collectives

def enter (before : Option (List T)) (query : List T) : Turn T R ⊕ Result R :=
  if unaligned g.blockNtokens before then .inr { status := .error .invalid }
  else if query.length / g.blockNtokens = 0 then .inr { status := .error .notFound }
  else loopTop (cacheChunkKeys g.blockNtokens g.chunkSize before query) 0 [] [] 0

def rendezvous : Rendezvous (Fin g.worldSize) (Turn T R) Int (Result R) where
  contribute p turn := collTensor (g.acquireImpl p turn.chunk)
  combine values := allReduceMin (List.ofFn values)
  next := g.afterReduce

/-! ## What they agree on -/

def value (chunk : Chunk T) : List R := returned (g.acquireImpl p chunk)

def holds (chunk : Chunk T) : Int := collTensor (g.acquireImpl p chunk)

def common (chunk : Chunk T) : Int := allReduceMin (List.ofFn fun p => g.holds p chunk)

def full (chunk : Chunk T) : Bool := ∀ p, g.holds p chunk * g.blockNtokens = chunk.2.length

variable (before : Option (List T)) (query : List T)

def chunks : List (Chunk T) := cacheChunkKeys g.blockNtokens g.chunkSize before query

/-- The chunks that all participants hold in full, up to the first one that they do not. -/
def fullChunks : List (Chunk T) := (g.chunks before query).takeWhile g.full

def nextChunk : Option (Chunk T) := ((g.chunks before query).dropWhile g.full).head?

def nextBlocks : Nat := ((g.nextChunk before query).map fun chunk => (g.common chunk).toNat).getD 0

def tokens : Nat := ((g.fullChunks before query).map (·.2.length)).sum + g.nextBlocks before query * g.blockNtokens

def agreedStatus : Status Nat :=
  if 0 < g.tokens before query then .ok (g.tokens before query)
  else if (g.nextChunk before query).any (g.common · < 0) then .error .error
  else .error .notFound

def agreedRegions (p : Fin g.worldSize) : List R :=
  (g.fullChunks before query).flatMap (g.value p) ++
    ((g.nextChunk before query).toList.flatMap (g.value p)).take (g.nextBlocks before query)

structure Agreed (p : Fin g.worldSize) (result : Result R) : Prop where
  collectives : result.collectives = (g.fullChunks before query).length + (g.nextChunk before query).toList.length
  status : result.status = (g.agreedStatus before query).map fun n => (n, g.agreedRegions before query p)
  regions : (g.agreedRegions before query p).length * g.blockNtokens = g.tokens before query
  released : result.acquired = g.agreedRegions before query p ++ result.released
  calm : result.raised = false

end Group

/-! ## The minimum -/

theorem allReduceMin_spec {xs : List Int} (h : xs ≠ []) : allReduceMin xs ∈ xs ∧ ∀ x ∈ xs, allReduceMin xs ≤ x := by
  cases xs with
  | nil => exact absurd rfl h
  | cons x xs =>
    rw [forall_mem_cons]
    exact foldl_lesser not_lt.1 xs x

theorem length_returned (status : Status (List R)) : (returned status).length = (collTensor status).toNat := by
  cases status with
  | ok mrs => exact (Int.toNat_natCast _).symm
  | error code => cases code <;> rfl

namespace Group

variable (g : Group T R) {before : Option (List T)} {query : List T} {chunk : Chunk T}

theorem common_spec (chunk : Chunk T) :
    (∃ p, g.common chunk = g.holds p chunk) ∧ ∀ p, g.common chunk ≤ g.holds p chunk := by
  have hne : List.ofFn (fun p => g.holds p chunk) ≠ [] := by
    intro hnil
    have := g.worldSize_pos
    have hln := congrArg List.length hnil
    rw [length_ofFn, length_nil] at hln
    omega
  obtain ⟨hmem, hle⟩ := allReduceMin_spec hne
  obtain ⟨p, hp⟩ := (mem_ofFn' _ _).1 hmem
  exact ⟨⟨p, hp.symm⟩, fun p => hle _ ((mem_ofFn' _ _).2 ⟨p, rfl⟩)⟩

theorem holds_mul_le (p : Fin g.worldSize) (chunk : Chunk T) : g.holds p chunk * g.blockNtokens ≤ chunk.2.length := by
  unfold holds
  cases hst : g.acquireImpl p chunk with
  | ok mrs =>
    have hle := g.leading p chunk mrs hst
    show (mrs.length : Int) * g.blockNtokens ≤ chunk.2.length
    exact_mod_cast hle
  | error code =>
    have hneg : collTensor (.error code : Status (List R)) ≤ 0 := by
      cases code <;> simp [collTensor]
    have hmul := Int.mul_le_mul_of_nonneg_right hneg (Int.natCast_nonneg g.blockNtokens)
    omega

theorem full_iff (hch : 0 < chunk.2.length) :
    g.full chunk = true ↔ 0 < g.common chunk ∧ (chunk.2.length : Int) ≤ g.common chunk * g.blockNtokens := by
  have hpos : (0 : Int) < g.blockNtokens := by exact_mod_cast g.blockNtokens_pos
  obtain ⟨⟨p, hp⟩, hle⟩ := g.common_spec chunk
  unfold full
  rw [decide_eq_true_iff]
  constructor
  · intro hfl
    have heq := hfl p
    rw [← hp] at heq
    refine ⟨?_, heq.ge⟩
    by_contra hneg
    have hmul := Int.mul_le_mul_of_nonneg_right (not_lt.1 hneg) hpos.le
    omega
  · rintro ⟨-, hlen⟩ q
    have hmul := Int.mul_le_mul_of_nonneg_right (hle q) hpos.le
    have hup := g.holds_mul_le q chunk
    omega

theorem nonempty_of_mem_chunks (h : chunk ∈ g.chunks before query) : 0 < chunk.2.length := by
  obtain ⟨i, hi, rfl⟩ := mem_map.1 h
  have hch := g.chunkSize_pos
  have hlt := mem_range.1 hi
  have hmul : (i + 1) * g.chunkSize ≤ query.length - query.length % g.blockNtokens + g.chunkSize - 1 :=
    (Nat.le_div_iff_mul_le hch).1 hlt
  rw [Nat.succ_mul] at hmul
  rw [length_take, length_drop, length_append]
  omega

/-! ## A round -/

def turnAt (done : List (Chunk T)) (chunk : Chunk T) (rest : List (Chunk T)) (p : Fin g.worldSize) : Turn T R where
  chunk := chunk
  rest := rest
  start := (done.map (·.2.length)).sum
  results := done.flatMap (g.value p)
  acquired := done.flatMap (g.value p)
  collectives := done.length

theorem length_value_of_full (hfl : g.full chunk = true) (p : Fin g.worldSize) :
    (g.value p chunk).length * g.blockNtokens = chunk.2.length := by
  have heq := of_decide_eq_true hfl p
  unfold value
  rw [length_returned]
  have hnn : 0 ≤ g.holds p chunk ∨ g.holds p chunk < 0 := by omega
  rcases hnn with hnn | hneg
  · have hcs : ((g.holds p chunk).toNat : Int) = g.holds p chunk := Int.toNat_of_nonneg hnn
    rw [← hcs] at heq
    exact_mod_cast heq
  · have hpos : (0 : Int) < g.blockNtokens := by exact_mod_cast g.blockNtokens_pos
    have := Int.mul_neg_of_neg_of_pos hneg hpos
    omega

theorem length_flatMap_value {done : List (Chunk T)} (hdone : ∀ chunk ∈ done, g.full chunk = true)
    (p : Fin g.worldSize) : (done.flatMap (g.value p)).length * g.blockNtokens = (done.map (·.2.length)).sum := by
  induction done with
  | nil => exact zero_mul _
  | cons chunk done ih =>
    have hfr := g.length_value_of_full (hdone chunk mem_cons_self) p
    have hrs := ih fun c hc => hdone c (mem_cons_of_mem _ hc)
    rw [flatMap_cons, length_append, add_mul, hfr, hrs, map_cons, sum_cons]

section Round

variable {g} {done rest : List (Chunk T)} (hchunks : g.chunks before query = done ++ chunk :: rest)
  (hdone : ∀ chunk ∈ done, g.full chunk = true)

include hchunks hdone

theorem fullChunks_of_stop (hst : g.full chunk = false) :
    g.fullChunks before query = done ∧ g.nextChunk before query = some chunk := by
  unfold fullChunks nextChunk
  rw [hchunks, takeWhile_append_of_pos hdone, dropWhile_append_of_pos hdone, takeWhile_cons, dropWhile_cons, hst]
  exact ⟨append_nil _, rfl⟩

theorem afterReduce_of_stop (hst : g.full chunk = false) (p : Fin g.worldSize) :
    ∃ result, g.afterReduce p (g.turnAt done chunk rest p) (g.common chunk) = .inr result ∧
      g.Agreed before query p result := by
  obtain ⟨hfullChunks, hnx⟩ := fullChunks_of_stop hchunks hdone hst
  have hbl : g.nextBlocks before query = (g.common chunk).toNat := by
    unfold nextBlocks
    rw [hnx]
    rfl
  have hrg : g.agreedRegions before query p =
      done.flatMap (g.value p) ++ (g.value p chunk).take (g.common chunk).toNat := by
    unfold agreedRegions
    rw [hfullChunks, hnx, hbl, Option.toList_some, flatMap_singleton]
  have htk : g.tokens before query = (done.map (·.2.length)).sum + (g.common chunk).toNat * g.blockNtokens := by
    unfold tokens
    rw [hfullChunks, hbl]
  have hch : 0 < chunk.2.length := g.nonempty_of_mem_chunks (by rw [hchunks]; simp)
  have hle := (g.common_spec chunk).2 p
  have hln : (g.agreedRegions before query p).length * g.blockNtokens = g.tokens before query := by
    have hta : ((g.value p chunk).take (g.common chunk).toNat).length = (g.common chunk).toNat := by
      rw [length_take, min_eq_left]
      unfold value
      rw [length_returned]
      exact Int.toNat_le_toNat hle
    rw [hrg, htk, length_append, add_mul, g.length_flatMap_value hdone p, hta]
  have hcl : done.length + 1 = (g.fullChunks before query).length + (g.nextChunk before query).toList.length := by
    rw [hfullChunks, hnx]
    rfl
  unfold afterReduce turnAt
  rw [show returned (g.acquireImpl p chunk) = g.value p chunk from rfl]
  split
  · have hzr : (g.common chunk).toNat = 0 := by omega
    rw [hzr, zero_mul, add_zero] at htk
    rw [hzr, take_zero, append_nil] at hrg
    refine ⟨_, rfl, hcl, ?_, hln, by rw [hrg], rfl⟩
    unfold agreedStatus
    rw [htk, hrg, hnx]
    split
    · rfl
    simp only [Option.any_some, decide_eq_true_eq]
    split
    · rw [if_neg (by omega)]
      rfl
    · rw [if_pos (by omega)]
      rfl
  · have hpos : 0 < (g.common chunk).toNat * g.blockNtokens := Nat.mul_pos (by omega) g.blockNtokens_pos
    have hpr : g.common chunk * g.blockNtokens < chunk.2.length := by
      by_contra hlen
      have hfl := (g.full_iff hch).2 ⟨by omega, by omega⟩
      rw [hst] at hfl
      cases hfl
    rw [if_pos hpr]
    refine ⟨_, rfl, hcl, ?_, hln, ?_, rfl⟩
    · unfold agreedStatus
      rw [htk, if_pos (by omega), hrg]
      rfl
    · rw [hrg, append_assoc, take_append_drop]

omit hdone in
theorem afterReduce_of_full (hfl : g.full chunk = true) (p : Fin g.worldSize) :
    let r := done ++ [chunk]
    g.afterReduce p (g.turnAt done chunk rest p) (g.common chunk) = loopTop rest (r.map (·.2.length)).sum
      (r.flatMap (g.value p)) (r.flatMap (g.value p)) r.length := by
  intro r
  have hch : 0 < chunk.2.length := g.nonempty_of_mem_chunks (by rw [hchunks]; simp)
  obtain ⟨hpos, hlen⟩ := (g.full_iff hch).1 hfl
  have hvl := g.length_value_of_full hfl p
  have hsn : (done ++ [chunk]).flatMap (g.value p) = done.flatMap (g.value p) ++ g.value p chunk := by
    rw [flatMap_append, flatMap_singleton]
  have hsum : ((done ++ [chunk]).map (·.2.length)).sum = (done.map (·.2.length)).sum + chunk.2.length := by
    rw [map_append, sum_append, map_singleton, sum_singleton]
  unfold afterReduce turnAt
  rw [show returned (g.acquireImpl p chunk) = g.value p chunk from rfl]
  rw [if_neg (by omega), if_neg (show ¬ g.common chunk * g.blockNtokens < (chunk.2.length : Int) by omega),
    if_neg (show ¬ (g.value p chunk).length * g.blockNtokens ≠ chunk.2.length by omega), hsn, hsum,
    length_append]
  rfl

end Round

theorem agreed_of_all_full (hfl : ∀ chunk ∈ g.chunks before query, g.full chunk = true) (p : Fin g.worldSize) :
    let r := g.chunks before query
    ∃ result : Result R, loopTop ([] : List (Chunk T)) (r.map (·.2.length)).sum (r.flatMap (g.value p))
    (r.flatMap (g.value p)) r.length = .inr result ∧
    g.Agreed before query p result := by
  have hfullChunks : g.fullChunks before query = g.chunks before query := List.takeWhile_eq_self_iff.2 hfl
  have hnx : g.nextChunk before query = none := by
    unfold nextChunk
    rw [List.dropWhile_eq_nil_iff.2 hfl]
    rfl
  have hbl : g.nextBlocks before query = 0 := by
    unfold nextBlocks
    rw [hnx]
    rfl
  have hrg : g.agreedRegions before query p = (g.chunks before query).flatMap (g.value p) := by
    unfold agreedRegions
    rw [hfullChunks, hbl, take_zero, append_nil]
  have htk : g.tokens before query = ((g.chunks before query).map (·.2.length)).sum := by
    unfold tokens
    rw [hfullChunks, hbl, zero_mul, add_zero]
  refine ⟨_, rfl, ?_, ?_, ?_, ?_, rfl⟩
  · rw [hfullChunks, hnx]
    rfl
  · unfold agreedStatus
    rw [htk, hrg, hnx]
    split
    · rfl
    · rfl
  · rw [hrg, htk]
    exact g.length_flatMap_value hfl p
  · rw [hrg, append_nil]

def AtChunk (before : Option (List T)) (query : List T) (turns : Fin g.worldSize → Turn T R) : Prop :=
  ∃ done chunk rest, g.chunks before query = done ++ chunk :: rest ∧ (∀ c ∈ done, g.full c = true) ∧
    turns = g.turnAt done chunk rest

def chunksLeft (turns : Fin g.worldSize → Turn T R) : Nat := (turns ⟨0, g.worldSize_pos⟩).rest.length

theorem round_together {turns : Fin g.worldSize → Turn T R} (h : g.AtChunk before query turns) :
    (∃ turns' : Fin g.worldSize → Turn T R, (∀ p, g.rendezvous.round turns p = .inl (turns' p)) ∧
      g.AtChunk before query turns' ∧ g.chunksLeft turns' < g.chunksLeft turns) ∨
    ∃ results : Fin g.worldSize → Result R, (∀ p, g.rendezvous.round turns p = .inr (results p)) ∧
      ∀ p, g.Agreed before query p (results p) := by
  obtain ⟨done, chunk, rest, hchunks, hdone, rfl⟩ := h
  have hrn : ∀ p, g.rendezvous.round (g.turnAt done chunk rest) p =
      g.afterReduce p (g.turnAt done chunk rest p) (g.common chunk) := fun _ => rfl
  cases hfl : g.full chunk with
  | false =>
    have hst := fun p => afterReduce_of_stop hchunks hdone hfl p
    choose results hrs hag using hst
    exact .inr ⟨results, fun p => (hrn p).trans (hrs p), hag⟩
  | true =>
    have hgo := fun p => (hrn p).trans (afterReduce_of_full hchunks hfl p)
    have hdone' : ∀ c ∈ done ++ [chunk], g.full c = true := by
      intro c hc
      rcases mem_append.1 hc with hc | hc
      · exact hdone c hc
      · rw [mem_singleton.1 hc, hfl]
    cases rest with
    | nil =>
      rw [← hchunks] at hgo hdone'
      choose results hrs hag using g.agreed_of_all_full hdone'
      exact .inr ⟨results, fun p => (hgo p).trans (hrs p), hag⟩
    | cons next rest =>
      refine .inl ⟨g.turnAt (done ++ [chunk]) next rest, hgo, ⟨_, _, _, ?_, hdone', rfl⟩, Nat.lt_succ_self _⟩
      rw [hchunks, append_assoc]
      rfl

theorem enter_eq (hal : unaligned g.blockNtokens before = false) :
    g.enter before query = loopTop (g.chunks before query) 0 [] [] 0 := by
  unfold enter
  rw [hal, if_neg (by simp)]
  split
  · rename_i hnn
    -- A query without a block has no chunk.
    have hlt : query.length < g.blockNtokens := (Nat.div_eq_zero_iff_lt g.blockNtokens_pos).1 hnn
    have hchunks : g.chunks before query = [] := by
      unfold chunks cacheChunkKeys
      dsimp only
      rw [Nat.mod_eq_of_lt hlt, Nat.sub_self, zero_add, Nat.div_eq_of_lt (Nat.sub_lt g.chunkSize_pos Nat.one_pos)]
      rfl
    rw [hchunks]
    rfl
  · rfl

/-- However the participants come to the collectives, a run ends, nobody waits for one who has left, and all return
together. -/
theorem participants_agree (haligned : unaligned g.blockNtokens before = false) {k : Nat}
    {σ : Fin g.worldSize → Rendezvous.Phase (Turn T R) (Result R)}
    (hsteps : g.rendezvous.Steps (fun _ => .after (g.enter before query)) k σ) :
    k ≤ (g.chunks before query).length * (g.worldSize + 1) ∧
    ((∃ σ', g.rendezvous.Step σ σ') ∨ ∀ p, ∃ result, σ p = .done result) ∧
    ((∃ p result, σ p = .done result) → ∀ p, ∃ result, σ p = .done result ∧ g.Agreed before query p result) := by
  have hne : Nonempty (Fin g.worldSize) := ⟨⟨0, g.worldSize_pos⟩⟩
  rw [g.enter_eq haligned] at hsteps
  cases hchunks : g.chunks before query with
  | nil =>
    rw [hchunks] at hsteps
    obtain ⟨rfl, rfl⟩ := Rendezvous.Steps.eq_of_done hsteps
    refine ⟨Nat.zero_le _, .inr fun p => ⟨_, rfl⟩, fun _ p => ⟨_, rfl, ?_⟩⟩
    obtain ⟨result, hresult, hagreed⟩ := @agreed_of_all_full _ _ g before query
      (fun c hc => by rw [hchunks] at hc; cases hc) p
    rw [hchunks] at hresult
    injection hresult with hresult
    rwa [← hresult] at hagreed
  | cons chunk rest =>
    rw [hchunks] at hsteps
    have hstart : g.AtChunk before query (g.turnAt [] chunk rest) := ⟨[], chunk, rest, hchunks, by simp, rfl⟩
    rcases Rendezvous.Steps.together (fun _ => g.round_together) hstart hsteps with
      ⟨turns, A, -, hbefore, hk⟩ | ⟨results, hagreed, hdone, hk⟩
    · rw [Fintype.card_fin] at hk
      refine ⟨?_, .inl (hbefore.enabled _), ?_⟩
      · exact le_trans (by omega) hk
      · rintro ⟨p, result, hp⟩
        rw [hbefore p] at hp
        split at hp <;> cases hp
    · rw [Fintype.card_fin] at hk
      exact ⟨hk, .inr fun p => ⟨_, hdone p⟩, fun _ p => ⟨_, hdone p, hagreed p⟩⟩

def twoParticipants : Group Bool Nat where
  blockNtokens := 1
  blockNtokens_pos := Nat.one_pos
  chunkSize := 2
  chunkSize_pos := Nat.succ_pos 1
  blockNtokens_dvd := Nat.one_dvd 2
  worldSize := 2
  worldSize_pos := Nat.succ_pos 1
  acquireImpl p chunk := .ok ((chunk.2.map fun _ => p.val).take (2 - p.val))
  leading := by
    intro p chunk mrs h
    injection h with h
    rw [← h, length_take, length_map, Nat.mul_one]
    omega

/-- The second participant comes first. Both return the one block that both hold. -/
theorem participants_agree_on_one_block :
    ∃ σ, twoParticipants.rendezvous.Steps (fun _ => .after (twoParticipants.enter none [true, true])) 3 σ ∧
      ∀ p, ∃ result, σ p = .done result ∧ result.status = .ok (1, [p.val]) := by
  have hstart : twoParticipants.rendezvous.Steps (fun _ => .after (twoParticipants.enter none [true, true])) 0 _ :=
    .start
  have hsecond := hstart.step (.arrive (i := ⟨1, Nat.one_lt_two⟩) rfl)
  have hfirst := hsecond.step (.arrive (i := ⟨0, Nat.two_pos⟩) rfl)
  have hall : ∀ p : Fin 2, p = 0 ∨ p = 1 := by decide
  have hmeet := hfirst.step (.meet (s := twoParticipants.turnAt [] ([], [true, true]) []) fun p => by
    rcases hall p with rfl | rfl <;> rfl)
  obtain ⟨-, -, hagreed⟩ := participants_agree _ rfl hmeet
  refine ⟨_, hmeet, fun p => ?_⟩
  obtain ⟨result, hresult, hp⟩ := hagreed ⟨⟨0, Nat.two_pos⟩, _, rfl⟩ p
  refine ⟨result, hresult, hp.status.trans ?_⟩
  rcases hall p with rfl | rfl <;> rfl

end Group

end Aibrix.KvCache
