import Aibrix.KvCache.L1Cache

/-! # The KV cache manager

`BaseKVCacheManager` without zero copy: the L1 cache in front of the L2 cache, and the handles of the callers. -/

namespace Aibrix.KvCache

open Lib World

structure L2Backend (T D : Type) where
  opBatch : Nat
  opBatch_pos : 0 < opBatch
  mputMget : Bool
  fetch : List T → Fetched T D
  /-- The call runs out of time, is cancelled or raises, after it has written to some of the regions. -/
  interrupted : Option (StatusCode × List (Option D)) := none

structure Store (T D : Type) where
  l1 : Option (Policy (BlockKey T))
  world : World D

structure Manager (T D : Type) extends Store T D where
  handles : List (List Nat) := []

variable {T D : Type} [DecidableEq T] (cfg : Config)

namespace Config

def l2Cache (backend : L2Backend T D) : L2Cache T D where
  blockNtokens := cfg.blockNtokens
  blockNtokens_pos := cfg.blockNtokens_pos
  opBatch := backend.opBatch
  opBatch_pos := backend.opBatch_pos
  useCompactLayout := cfg.useCompactLayout
  mputMget := backend.mputMget
  fetch := backend.fetch

end Config

namespace Store

def withWorld (s : Store T D) (w : World D) : Store T D := { s with world := w }

variable (before : Option (List T))

def allocateFor (query : List T) (s : Store T D) : Store T D × Status (List Nat) :=
  let sizes := (cacheBlockKeys cfg.blockNtokens before query).map fun key =>
    cfg.calculateSize (key.1.length + key.2.length)
  match s.l1 with
  | some p =>
    let allocated := L1Cache.allocate cfg sizes p s.world
    (⟨some allocated.1, allocated.2.1⟩, allocated.2.2)
  | none =>
    let allocated := s.world.alloc sizes
    (s.withWorld allocated.1, allocated.2)

variable (backend : L2Backend T D)

def l2Get (w : World D) (before : List T) (query : List T) (mrs : List Region) : World D × Status Nat :=
  match backend.interrupted with
  | none => (cfg.l2Cache backend).get w (some before) query mrs
  | some (code, writes) =>
    ((mrs.zip writes).foldl (fun w written => (written.2.map (w.write written.1)).getD w) w, .error code)

def cacheFetched (before query : List T) (mrs : List Nat) (s : Store T D) : Store T D :=
  match s.l1 with
  | none => s
  | some p =>
    let put := L1Cache.putMrsImpl cfg (some before) (query.take (mrs.length * cfg.blockNtokens)) mrs p
      (s.world.refUpAll mrs)
    ⟨some put.1, put.2.1.release (notPut mrs put.2.2)⟩

def cacheCopies (before query : List T) (mrs : List Region) (s : Store T D) : Store T D :=
  match s.l1 with
  | none => s
  | some p =>
    let put := L1Cache.putTensorsImpl cfg (some before) (query.take (mrs.length * cfg.blockNtokens))
      (mrs.map s.world.read) p s.world
    ⟨some put.1, put.2.1⟩

/-- The L2 half of `_acquire_impl`, into regions of its own. -/
def acquireFromL2 (before query : List T) (fetched : List Nat) (s : Store T D) : Store T D × Status (List Nat) :=
  let failed := fun code : StatusCode => if fetched = [] then .error code else .ok fetched
  let beforeCurr := before ++ query.take (fetched.length * cfg.blockNtokens)
  let tokensCurr := query.drop (fetched.length * cfg.blockNtokens)
  match s.allocateFor cfg (some beforeCurr) tokensCurr with
  | (s, .error code) => (s, failed code)
  | (s, .ok mrs) =>
    let tokensCurr := tokensCurr.take (mrs.length * cfg.blockNtokens)
    match l2Get cfg backend s.world beforeCurr tokensCurr (mrs.map .managed) with
    | (w, .error code) => (s.withWorld (w.release mrs), failed code)
    | (w, .ok value) =>
      let s := (s.withWorld w).cacheFetched cfg beforeCurr tokensCurr (mrs.take value)
      (s.withWorld (s.world.release (mrs.drop value)), .ok (fetched ++ mrs.take value))

/-- The L2 half of `_acquire_impl`, into the caller's regions. It returns the number of blocks. -/
def getFromL2 (before query : List T) (outputMrs : List Region) (fetched : List Nat)
    (s : Store T D) : Store T D × Status Nat :=
  let failed := fun code : StatusCode => if fetched = [] then .error code else .ok fetched.length
  let beforeCurr := before ++ query.take (fetched.length * cfg.blockNtokens)
  let mrs := outputMrs.drop fetched.length
  let tokensCurr := (query.drop (fetched.length * cfg.blockNtokens)).take (mrs.length * cfg.blockNtokens)
  match l2Get cfg backend s.world beforeCurr tokensCurr mrs with
  | (w, .error code) => (s.withWorld w, failed code)
  | (w, .ok value) =>
    ((s.withWorld w).cacheCopies cfg beforeCurr tokensCurr (mrs.take value),
      .ok (outputMrs.take (fetched.length + value)).length)

def l1Acquire (query : List T) (s : Store T D) : Store T D × Status (List Nat) :=
  match s.l1 with
  | none => (s, .error .notFound)
  | some p =>
    let acquired := L1Cache.acquire cfg before query p s.world
    (⟨some acquired.1, acquired.2.1⟩, acquired.2.2)

def goesToL2 (s : Store T D) (numFetchedBlocks numBlocks : Nat) : Bool :=
  s.l1.isNone || (numFetchedBlocks ≠ numBlocks && cfg.useDoubleGet (numBlocks - numFetchedBlocks) numBlocks)

def acquireImpl (before : Option (List T)) (query : List T) (s : Store T D) : Store T D × Status (List Nat) :=
  let numBlocks := query.length / cfg.blockNtokens
  if unaligned cfg.blockNtokens before then (s, .error .invalid)
  else if numBlocks = 0 then (s, .error .notFound)
  else
    let (s, l1Status) := s.l1Acquire cfg before query
    if s.goesToL2 cfg (held l1Status).length numBlocks then
      s.acquireFromL2 cfg backend (before.getD []) query (held l1Status)
    else (s, l1Status)

def copyFetched (w : World D) (outputMrs : List Region) (fetched : List Nat) : World D :=
  (outputMrs.zip fetched).foldl (fun w copy => w.write copy.1 (w.heap.content copy.2)) w

/-- `_acquire_impl` with output regions, as `_get_impl` calls it. -/
def getImpl (before : Option (List T)) (query : List T) (outputMrs : List Region)
    (s : Store T D) : Store T D × List Nat × Status Nat :=
  let numBlocks := outputMrs.length
  let query := query.take (numBlocks * cfg.blockNtokens)
  if unaligned cfg.blockNtokens before then (s, [], .error .invalid)
  else if numBlocks = 0 then (s, [], .error .notFound)
  else
    let (s, l1Status) := s.l1Acquire cfg before query
    let fetched := held l1Status
    if s.goesToL2 cfg fetched.length numBlocks then
      let (s, status) := s.getFromL2 cfg backend (before.getD []) query outputMrs fetched
      (s, fetched, status)
    else
      match l1Status with
      | .error code => (s, fetched, .error code)
      | .ok _ =>
        (s.withWorld (copyFetched s.world outputMrs fetched), fetched, .ok (outputMrs.take fetched.length).length)

/-- What the limit on the length of a sequence leaves of a query. -/
inductive Fit where
  | whole
  | first (ntokens : Nat)
  | nothing
  | tooLong

def fit (prefLen queryLen : Nat) : Fit :=
  if cfg.maxSeqLen = 0 then .whole
  else if prefLen ≥ cfg.maxSeqLen then .tooLong
  else if prefLen + queryLen > cfg.maxSeqLen then
    let tokenLen := roundDown (cfg.maxSeqLen - prefLen) cfg.blockNtokens
    if tokenLen = 0 then .nothing else .first tokenLen
  else .whole

/-- What a write to the L2 cache comes to: a status, or nothing where it raises. -/
abbrev Outcome := Option (Status Nat)

variable (written : Outcome)

/-- The tokens that a put straight to the L2 cache reports. -/
def putTokens (query : List T) : Status Nat :=
  if cfg.quota = 0 then (written.getD (.error .error)).map (· * cfg.blockNtokens) else .ok query.length

def putFitting (before : Option (List T)) (query : List T) (mrs : List Nat) (s : Store T D) :
    Store T D × Status Nat :=
  match s.l1 with
  | some p =>
    let put := L1Cache.putMrsImpl cfg before query mrs p s.world
    (⟨some put.1, put.2.1.release (notPut mrs put.2.2)⟩, put.2.2.map (· * cfg.blockNtokens))
  | none =>
    match l2Put cfg.quota written.isNone s.world mrs with
    | (w, some code) => (s.withWorld w, .error code)
    | (w, none) => (s.withWorld w, putTokens cfg written query)

/-- `put` of a handle with managed regions. The references of the handle are handed over. -/
def putMrs (before : Option (List T)) (query : List T) (mrs : List Nat) (s : Store T D) : Store T D × Status Nat :=
  let dropped := s.withWorld (s.world.release mrs)
  if unaligned cfg.blockNtokens before then (dropped, .error .invalid)
  else
    match fit cfg (before.getD []).length query.length with
    | .tooLong => (dropped, .error .denied)
    | .nothing => (dropped, .ok 0)
    | .first ntokens =>
      let nblocks := ntokens / cfg.blockNtokens
      (s.withWorld (s.world.release (mrs.drop nblocks))).putFitting cfg written before (query.take ntokens)
        (mrs.take nblocks)
    | .whole => s.putFitting cfg written before query mrs

/-- `put` of the caller's own buffers, within the limit. No managed region is handed over. -/
def putTensorsFitting (before : Option (List T)) (query : List T) (tensors : List D)
    (s : Store T D) : Store T D × Status Nat :=
  match s.l1 with
  | some p =>
    let put := L1Cache.putTensorsImpl cfg before query tensors p s.world
    (⟨some put.1, put.2.1⟩, put.2.2.map (· * cfg.blockNtokens))
  | none =>
    match l2Put cfg.quota written.isNone s.world [] with
    | (w, some code) => (s.withWorld w, .error code)
    | (w, none) => (s.withWorld w, putTokens cfg written query)

def putTensors (before : Option (List T)) (query : List T) (tensors : List D) (s : Store T D) :
    Store T D × Status Nat :=
  if unaligned cfg.blockNtokens before then (s, .error .invalid)
  else
    match fit cfg (before.getD []).length query.length with
    | .tooLong => (s, .error .denied)
    | .nothing => (s, .ok 0)
    | .first ntokens =>
      s.putTensorsFitting cfg written before (query.take ntokens) (tensors.take (ntokens / cfg.blockNtokens))
    | .whole => s.putTensorsFitting cfg written before query tensors

def delete (query : List T) (s : Store T D) : Store T D × Option StatusCode :=
  match s.l1 with
  | none => (s, none)
  | some p =>
    let deleted := L1Cache.delete cfg before query p s.world
    (⟨some deleted.1, deleted.2.1⟩, deleted.2.2)

def evict (nbytes : Nat) (s : Store T D) : Store T D :=
  match s.l1 with
  | none => s
  | some p =>
    let evicted := p.evict cfg.callbacks s.world nbytes
    ⟨some evicted.1, evicted.2⟩

end Store

namespace Manager

variable (m : Manager T D)

def withStore (s : Store T D) : Manager T D := { m with toStore := s }

def giveHandle (mrs : List Nat) : Manager T D := { m with handles := m.handles ++ [mrs] }

def takeHandle (handle : Nat) : Manager T D := { m with handles := m.handles.eraseIdx handle }

def allocateFor (before : Option (List T)) (query : List T) (m : Manager T D) : Manager T D × Status (List Nat) :=
  match m.toStore.allocateFor cfg before query with
  | (s, .ok mrs) => ((m.withStore s).giveHandle mrs, .ok mrs)
  | (s, .error code) => (m.withStore s, .error code)

def acquire (backend : L2Backend T D) (before : Option (List T)) (query : List T) (m : Manager T D) :
    Manager T D × Status (Nat × List Nat) :=
  match m.toStore.acquireImpl cfg backend before query with
  | (s, .ok mrs) => ((m.withStore s).giveHandle mrs, .ok (mrs.length * cfg.blockNtokens, mrs))
  | (s, .error code) => (m.withStore s, .error code)

/-- The number of tokens. The references of the regions that were found in the L1 cache stay behind. -/
def get (backend : L2Backend T D) (before : Option (List T)) (query : List T) (outputMrs : List Region)
    (m : Manager T D) : Manager T D × Status Nat :=
  match m.toStore.getImpl cfg backend before query outputMrs with
  | (s, fetched, status) =>
    (m.withStore (s.withWorld (s.world.leak fetched)), status.map (· * cfg.blockNtokens))

def put (written : Store.Outcome) (before : Option (List T)) (query : List T) (handle : Nat) (m : Manager T D) :
    Manager T D × Status Nat :=
  match m.handles[handle]? with
  | none => (m, .error .invalid)
  | some mrs =>
    let put := m.toStore.putMrs cfg written before query mrs
    ((m.takeHandle handle).withStore put.1, put.2)

def release (handle : Nat) (m : Manager T D) : Manager T D :=
  match m.handles[handle]? with
  | none => m
  | some mrs => (m.takeHandle handle).withStore (m.toStore.withWorld (m.world.release mrs))

inductive Op (T D : Type) where
  | allocateFor (before : Option (List T)) (query : List T)
  | put (before : Option (List T)) (query : List T) (handle : Nat) (written : Store.Outcome)
  | putTensors (before : Option (List T)) (query : List T) (tensors : List D) (written : Store.Outcome)
  | acquire (before : Option (List T)) (query : List T) (backend : L2Backend T D)
  | get (before : Option (List T)) (query : List T) (outputMrs : List Region) (backend : L2Backend T D)
  | delete (before : Option (List T)) (query : List T)
  | release (handle : Nat)
  | evict (nbytes : Nat)
  | complete (write : Nat)

def step : Op T D → Manager T D
  | .allocateFor before query => (m.allocateFor cfg before query).1
  | .put before query handle written => (m.put cfg written before query handle).1
  | .putTensors before query tensors written =>
    m.withStore (m.toStore.putTensors cfg written before query tensors).1
  | .acquire before query backend => (m.acquire cfg backend before query).1
  | .get before query outputMrs backend => (m.get cfg backend before query outputMrs).1
  | .delete before query => m.withStore (m.toStore.delete cfg before query).1
  | .release handle => m.release handle
  | .evict nbytes => m.withStore (m.toStore.evict cfg nbytes)
  | .complete write => m.withStore (m.toStore.withWorld (m.world.complete write))

def run (ops : List (Op T D)) : Manager T D := ops.foldl (step cfg) m

end Manager

/-! ## What the L2 cache leaves in the regions -/

open List

variable {T D : Type}

namespace L2Cache

variable (l2 : L2Cache T D)

theorem written_place (w : World D) (block : List T × Region) : Written (· = block.2) w (l2.place w block) := by
  unfold place
  split
  · exact .refl _ w
  · exact written_write w _ _

open Prod

theorem written_cons {batch : List (List T × Region)} {batches : List (List (List T × Region))} {w w' : World D}
    (h : Written (· ∈ batches.flatten.map snd) (batch.foldl l2.place w) w') :
    Written (· ∈ (batch :: batches).flatten.map snd) w w' := by
  rw [flatten_cons, map_append]
  have hbt := (written_foldl l2.written_place batch w).mono fun mr hmr =>
    mem_append_left (batches.flatten.map snd) hmr
  exact hbt.trans (h.mono fun mr hmr => mem_append_right _ hmr)

variable [DecidableEq T]

theorem written_getLoop (nr : Nat) (batches : List (List (List T × Region))) (w : World D) :
    Written (· ∈ batches.flatten.map snd) w (l2.getLoop nr batches w).1 := by
  induction batches generalizing nr w with
  | nil => exact .refl _ w
  | cons batch batches ih =>
    rw [getLoop]
    split
    · exact l2.written_cons (.refl _ _)
    · exact l2.written_cons (ih _ _)

theorem written_mgetLoop (nr : Nat) (batches : List (List (List T × Region))) (w : World D) :
    Written (· ∈ batches.flatten.map snd) w (l2.mgetLoop nr batches w).1 := by
  induction batches generalizing nr w with
  | nil => exact .refl _ w
  | cons batch batches ih =>
    rw [mgetLoop]
    split
    · exact l2.written_cons (.refl _ _)
    · exact l2.written_cons (ih _ _)

theorem written_get (w : World D) (before : Option (List T)) (query : List T) (mrs : List Region) :
    Written (· ∈ mrs) w (l2.get w before query mrs).1 := by
  have hrg : ∀ mr ∈ (batched l2.opBatch ((realKeys l2.blockNtokens before query).zip mrs)).flatten.map snd,
      mr ∈ mrs := by
    intro mr hmr
    rw [flatten_batched, map_snd_zip_eq_take] at hmr
    exact mem_of_mem_take hmr
  unfold get
  split
  · exact .refl _ w
  split
  · exact .refl _ w
  · split
    · exact (l2.written_mgetLoop 0 _ w).mono hrg
    · exact (l2.written_getLoop 0 _ w).mono hrg

end L2Cache

namespace Store

variable [DecidableEq T] (cfg : Config) (backend : L2Backend T D)

theorem written_l2Get (w : World D) (before query : List T) (mrs : List Region) :
    Written (· ∈ mrs) w (l2Get cfg backend w before query mrs).1 := by
  unfold l2Get
  split
  · exact (cfg.l2Cache backend).written_get w _ query mrs
  have hst : ∀ (w : World D) (written : Region × Option D),
      Written (· = written.1) w ((written.2.map (w.write written.1)).getD w) := by
    rintro w ⟨mr, d | d⟩
    · exact .refl _ w
    · exact written_write w mr d
  refine (written_foldl hst _ w).mono fun mr hmr => ?_
  obtain ⟨written, hwr, rfl⟩ := mem_map.1 hmr
  exact (of_mem_zip hwr).1

theorem written_copyFetched (w : World D) (outs : List Region) (fetched : List Nat) :
    Written (· ∈ outs) w (copyFetched w outs fetched) := by
  refine (written_foldl (fun w copy => written_write w copy.1 _) _ w).mono fun mr hmr => ?_
  obtain ⟨copy, hcp, rfl⟩ := mem_map.1 hmr
  exact (of_mem_zip hcp).1

end Store

end Aibrix.KvCache
