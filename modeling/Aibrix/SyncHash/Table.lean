import Aibrix.Lib.KeyMap
import Mathlib.Data.Rat.Floor
import Mathlib.Data.List.Dedup
import Aibrix.Lib.Threads
import Mathlib.Data.List.Sort

/-! # The prefix table

`sync_hash.go`: the pods under each prefix hash, with one bit for every KV-cache group and storage tier, the locked
sections on one `ContextData`, and the calls as they run when no other is in progress. -/

namespace Aibrix.SyncHash

open Lib

/-! ## Tiers -/

inductive Tier where
  | gpu
  | cpu
  | storage
  | other
  deriving DecidableEq

def numTiers : Nat := 4

def maxTrackedGroups : Nat := 64 / numTiers

def Tier.index : Tier → Nat
  | .gpu => 0
  | .cpu => 1
  | .storage => 2
  | .other => 3

def tierOf (medium : String) : Tier :=
  if medium = "" ∨ medium = "GPU" then .gpu
  else if medium = "CPU" then .cpu
  else if medium = "STORAGE" then .storage
  else .other

def groupOf (groupIdx : Int) : Nat := if 0 < groupIdx then (groupIdx % maxTrackedGroups).toNat else 0

def tierBit (medium : String) (groupIdx : Int) : BitVec 64 :=
  1#64 <<< (groupOf groupIdx * numTiers + (tierOf medium).index)

def tierMask (tier : Tier) : BitVec 64 := 0x1111111111111111#64 <<< tier.index

structure PodInfo where
  lastAccessTime : Int
  tiers : BitVec 64
  deriving DecidableEq

def mediumWeight (tier : Tier) : ℚ :=
  match tier with
  | .gpu => 1
  | .cpu => 1 / 2
  | .storage => 1 / 4
  | .other => 1

/-- The weight of the fastest tier that holds the prefix, in any group. -/
def PodInfo.weight (p : PodInfo) : ℚ :=
  if p.tiers &&& (tierMask .gpu ||| tierMask .other) ≠ 0 then mediumWeight .gpu
  else if p.tiers &&& tierMask .cpu ≠ 0 then mediumWeight .cpu
  else if p.tiers &&& tierMask .storage ≠ 0 then mediumWeight .storage
  else 0

/-! ## The store -/

abbrev Pods := KeyMap String PodInfo

structure PrefixStore where
  prefixMap : KeyMap UInt64 Pods := ∅
  lastAccess : Int := 0
  totalPrefixes : Int := 0

namespace PrefixStore

def addPod (now : Int) (pods : Pods) (podName : String) (tier : BitVec 64) : Pods :=
  match pods.lookup podName with
  | some info => pods.insert podName ⟨now, info.tiers ||| tier⟩
  | none => pods.insert podName ⟨now, tier⟩

def addPrefixToPodLocked (now : Int) (podName : String) (tier : BitVec 64) (store : PrefixStore)
    (prefixHash : UInt64) : PrefixStore :=
  match store.prefixMap.lookup prefixHash with
  | some pods => { store with prefixMap := store.prefixMap.insert prefixHash (addPod now pods podName tier) }
  | none =>
    { store with
      prefixMap := store.prefixMap.insert prefixHash (addPod now ∅ podName tier)
      totalPrefixes := store.totalPrefixes + 1 }

def addPrefixes (maxPrefixesPerContext : Int) (now : Int) (podName : String) (tier : BitVec 64) :
    List UInt64 → PrefixStore → PrefixStore
  | [], store => store
  | prefixHash :: prefixHashes, store =>
    if maxPrefixesPerContext ≤ store.totalPrefixes then store
    else
      addPrefixes maxPrefixesPerContext now podName tier prefixHashes
        (addPrefixToPodLocked now podName tier store prefixHash)

def clearTier (sourcePod : String) (tier : BitVec 64) (pods : Pods) : Pods :=
  match pods.lookup sourcePod with
  | some info =>
    if info.tiers &&& ~~~tier = 0 then pods.erase sourcePod
    else pods.insert sourcePod { info with tiers := info.tiers &&& ~~~tier }
  | none => pods

/-- One prefix of a removal, and whether no pod holds it any more. -/
def releasePrefix (sourcePod : String) (tier : BitVec 64) (store : PrefixStore) (prefixHash : UInt64) :
    PrefixStore × Bool :=
  match store.prefixMap.lookup prefixHash with
  | none => (store, true)
  | some pods =>
    if sourcePod ≠ "" ∧ (clearTier sourcePod tier pods).entries ≠ [] then
      ({ store with prefixMap := store.prefixMap.insert prefixHash (clearTier sourcePod tier pods) }, false)
    else
      ({ store with
         prefixMap := store.prefixMap.erase prefixHash
         totalPrefixes := store.totalPrefixes - 1 }, true)

/-- Takes a pod out of one prefix. `none` when it was the last one. -/
def prunePods (podName : String) (pods : Pods) : Option Pods :=
  match pods.lookup podName with
  | none => some pods
  | some _ => if (pods.erase podName).entries = [] then none else some (pods.erase podName)

def orphans (f : Pods → Option Pods) (store : PrefixStore) : List UInt64 :=
  (store.prefixMap.entries.filter fun e => (f e.2).isNone).map Sigma.fst

def sweep (f : Pods → Option Pods) (store : PrefixStore) : PrefixStore :=
  { store with
    prefixMap := KeyMap.filterMap (fun _ pods => f pods) store.prefixMap
    totalPrefixes := store.totalPrefixes - (orphans f store).length }

def expirePods (expiredBefore : Int) (pods : Pods) : Option Pods :=
  let live := KeyMap.filterMap (fun _ info => if info.lastAccessTime < expiredBefore then none else some info) pods
  if live.entries = [] then none else some live

end PrefixStore

/-! ## Matching a prompt -/

structure PodMatch where
  blocks : Nat := 0
  weight : ℚ := 0
  deriving DecidableEq

abbrev Matches := KeyMap String PodMatch

/-- Whether a pod of the `i`-th block has held every block before it. -/
def counts (readyPods : List String) (i : Nat) (found : Matches) (podName : String) : Bool :=
  (i ≠ 0 || podName ∈ readyPods) && ((found.lookup podName).getD {}).blocks = i

def countPod (readyPods : List String) (i : Nat) (found : Matches) (e : (_ : String) × PodInfo) : Matches :=
  if counts readyPods i found e.1 then
    let m := (found.lookup e.1).getD {}
    found.insert e.1 ⟨m.blocks + 1, m.weight + e.2.weight⟩
  else found

/-- A match is use of the block, so the pods that count are not idle. -/
def touchPods (now : Int) (readyPods : List String) (i : Nat) (found : Matches) (pods : Pods) : Pods :=
  KeyMap.filterMap (fun podName info =>
    some (if counts readyPods i found podName then { info with lastAccessTime := now } else info)) pods

/-- The loop of `MatchPrefix` from the `i`-th block on. -/
def matchBlocks (now : Int) (readyPods : List String) :
    Nat → List UInt64 → KeyMap UInt64 Pods → Matches → KeyMap UInt64 Pods × Matches
  | _, [], prefixMap, found => (prefixMap, found)
  | i, prefixHash :: prefixHashes, prefixMap, found =>
    match prefixMap.lookup prefixHash with
    | none => (prefixMap, found)
    | some pods =>
      let touched := prefixMap.insert prefixHash (touchPods now readyPods i found pods)
      if pods.entries.any fun e => counts readyPods i found e.1 then
        matchBlocks now readyPods (i + 1) prefixHashes touched (pods.entries.foldl (countPod readyPods i) found)
      else (prefixMap, found)

def score (numBlocks : Nat) (m : PodMatch) : Int := ⌊m.weight * 100 / numBlocks⌋

/-! ## One context -/

structure Config where
  xxhash : UInt64 → List UInt8 → UInt64
  seed : UInt64
  maxContexts : Int
  maxPrefixesPerContext : Int
  blockSize : Nat
  evictionDuration : Int

structure BlockStored where
  blockHashes : List Int
  parentBlockHash : Option Int := none
  tokens : List (List UInt8)
  modelName : String
  loraID : Int := -1
  medium : String := ""
  loraName : String := ""
  groupIdx : Int := -1
  sourcePod : String

structure BlockRemoved where
  blockHashes : List Int
  modelName : String
  medium : String := ""
  groupIdx : Int := -1
  sourcePod : String

structure ContextData where
  prefixStore : PrefixStore := {}
  engineToAibrix : KeyMap Int UInt64 := ∅
  markedForEviction : Bool := false
  blockSize : Nat := 0
  blockSizeFromMulti : Bool := false

/-! ## Hashing -/

def putUint64 (v : UInt64) : List UInt8 := (List.range 8).map fun i => (v >>> (8 * i).toUInt64).toUInt8

variable (c : Config)

def computeHash (parentHash : UInt64) (blockTokens : List UInt8) : UInt64 :=
  c.xxhash c.seed (putUint64 parentHash ++ blockTokens)

/-- Each block is hashed with the hash of the one before it. -/
def hashChain : UInt64 → List (List UInt8) → List UInt64
  | _, [] => []
  | parentHash, block :: blocks =>
    computeHash c parentHash block :: hashChain (computeHash c parentHash block) blocks

variable (tokens : List UInt8)

def fullBlocks (blockSize : Nat) : List (List UInt8) :=
  (List.range (tokens.length / blockSize)).map fun i => (tokens.drop (i * blockSize)).take blockSize

def prefixHashes (blockSize : Nat) : List UInt64 :=
  hashChain c c.seed (fullBlocks tokens blockSize)

def getPrefixHashes : List UInt64 := prefixHashes c tokens c.blockSize

namespace ContextData

/-- Only GPU blocks set the size. A multi-block event's size wins, and the smaller one of two. -/
def learnBlockSize (event : BlockStored) (d : ContextData) : ContextData :=
  let size := (event.tokens.headD []).length
  let multi := decide (1 < event.tokens.length)
  if 0 < size ∧ (event.medium = "" ∨ event.medium = "GPU") then
    if d.blockSize = 0 ∨ (multi ∧ (¬ d.blockSizeFromMulti ∨ size < d.blockSize)) ∨
        (¬ multi ∧ ¬ d.blockSizeFromMulti ∧ d.blockSize < size) then
      { d with blockSize := size, blockSizeFromMulti := d.blockSizeFromMulti || multi }
    else d
  else d

structure Indexed where
  mapping : KeyMap Int UInt64
  updates : List UInt64 := []
  added : List Int := []

def indexBlocks : List (Int × List UInt8) → UInt64 → KeyMap Int UInt64 → Indexed
  | [], _, mapping => { mapping }
  | (engineBlockHash, blockTokens) :: blocks, parentHash, mapping =>
    match mapping.lookup engineBlockHash with
    | some existingHash =>
      let rest := indexBlocks blocks existingHash mapping
      { rest with updates := existingHash :: rest.updates }
    | none =>
      let aibrixHash := computeHash c parentHash blockTokens
      let rest := indexBlocks blocks aibrixHash (mapping.insert engineBlockHash aibrixHash)
      { rest with updates := aibrixHash :: rest.updates, added := engineBlockHash :: rest.added }

/-- The hash that the first block of an event chains from. -/
def parentHash (event : BlockStored) (d : ContextData) : Option UInt64 :=
  match event.parentBlockHash with
  | none => some c.seed
  | some parent => d.engineToAibrix.lookup parent

variable (now : Int)

/-- `ProcessBlockStored` under the mapping lock, and the engine hashes it adds. -/
def storeBlocks (event : BlockStored) (d : ContextData) : ContextData × List Int :=
  if d.markedForEviction then (d, [])
  else
    let d := d.learnBlockSize event
    match d.parentHash c event with
    | none => (d, [])
    | some parent =>
      let r := indexBlocks c (event.blockHashes.zip event.tokens) parent d.engineToAibrix
      let store := r.updates.foldl
        (PrefixStore.addPrefixToPodLocked now event.sourcePod (tierBit event.medium event.groupIdx)) d.prefixStore
      ({ d with engineToAibrix := r.mapping, prefixStore := { store with lastAccess := now } }, r.added)

def resolve (blockHashes : List Int) (d : ContextData) : List (Int × UInt64) :=
  blockHashes.filterMap fun engineBlockHash => (d.engineToAibrix.lookup engineBlockHash).map (engineBlockHash, ·)

def releasePrefixes (sourcePod : String) (tier : BitVec 64) (named : List (Int × UInt64)) :
    List UInt64 → PrefixStore → PrefixStore × List Int
  | [], store => (store, [])
  | prefixHash :: prefixHashes, store =>
    let r := store.releasePrefix sourcePod tier prefixHash
    let rest := releasePrefixes sourcePod tier named prefixHashes r.1
    (rest.1, (if r.2 then (named.filter (·.2 = prefixHash)).map Prod.fst else []) ++ rest.2)

/-- `removeBlocksFromContext` under the mapping lock, and the engine hashes it drops. -/
def removeBlocks (blockHashes : List Int) (event : BlockRemoved) (d : ContextData) : ContextData × List Int :=
  let named := d.resolve blockHashes
  if named = [] then (d, [])
  else
    let r := releasePrefixes event.sourcePod (tierBit event.medium event.groupIdx) named (named.map Prod.snd).dedup
      d.prefixStore
    ({ d with
       prefixStore := { r.1 with lastAccess := now }
       engineToAibrix := KeyMap.eraseAll d.engineToAibrix r.2 }, r.2)

def blocksOf (prefixes : List UInt64) (d : ContextData) : List Int :=
  (d.engineToAibrix.entries.filter (·.2 ∈ prefixes)).map Sigma.fst

/-- `prunePodFromContext`, and the engine hashes it drops. -/
def prunePod (podName : String) (d : ContextData) : ContextData × List Int :=
  let blocks := d.blocksOf (d.prefixStore.orphans (PrefixStore.prunePods podName))
  ({ d with
     prefixStore := d.prefixStore.sweep (PrefixStore.prunePods podName)
     engineToAibrix := KeyMap.eraseAll d.engineToAibrix blocks }, blocks)

def addPrefixes (podName medium : String) (prefixHashes : List UInt64) (d : ContextData) : ContextData :=
  { d with
    prefixStore := d.prefixStore.addPrefixes c.maxPrefixesPerContext now podName (tierBit medium (-1)) prefixHashes
      |> fun store => { store with lastAccess := now } }

def expirePods (expiredBefore : Int) (d : ContextData) : ContextData :=
  { d with prefixStore := d.prefixStore.sweep (PrefixStore.expirePods expiredBefore) }

def matchPrefix (readyPods : List String) (prefixHashes : List UInt64) (d : ContextData) : ContextData × Matches :=
  let r := matchBlocks now readyPods 0 prefixHashes d.prefixStore.prefixMap ∅
  ({ d with prefixStore := { d.prefixStore with prefixMap := r.1, lastAccess := now } }, r.2)

def requestBlockSize (d : ContextData) : Nat := if d.blockSize = 0 then c.blockSize else d.blockSize

end ContextData

/-! ## The table -/

structure ModelContext where
  modelName : String
  loraID : Int
  deriving DecidableEq

abbrev BlockIndex := Int → List ModelContext

/-- The reverse index has every context at most once under a hash. -/
def updateBlockIndex (add : Bool) (ctx : ModelContext) (blockIndex : BlockIndex) (blockHash : Int) : BlockIndex :=
  if add then
    if ctx ∈ blockIndex blockHash then blockIndex
    else Function.update blockIndex blockHash (blockIndex blockHash ++ [ctx])
  else Function.update blockIndex blockHash ((blockIndex blockHash).erase ctx)

structure Table where
  contextMap : KeyMap ModelContext Nat := ∅
  data : ModelContext → Nat → ContextData := fun _ _ => {}
  created : Nat := 0
  contextCount : Int := 0
  evictionNeeded : Bool := false
  blockIndex : BlockIndex := fun _ => []

namespace Table

variable (t : Table)

def setData (ctx : ModelContext) (number : Nat) (d : ContextData) : Table :=
  { t with data := Function.update t.data ctx (Function.update (t.data ctx) number d) }

/-- Leaves a locked section: the context it leaves behind, and the engine hashes it adds or drops. -/
def leave (ctx : ModelContext) (number : Nat) (add : Bool) (r : ContextData × List Int) : Table :=
  { t.setData ctx number r.1 with blockIndex := r.2.foldl (updateBlockIndex add ctx) t.blockIndex }

def context? (ctx : ModelContext) : Option ContextData := (t.contextMap.lookup ctx).map (t.data ctx)

def create (now : Int) (t : Table) (ctx : ModelContext) : Table :=
  { t.setData ctx t.created { prefixStore := { lastAccess := now } } with
    contextMap := t.contextMap.insert ctx t.created
    created := t.created + 1 }

variable (c : Config)

def countContext (t : Table) : Table :=
  { t with
    contextCount := t.contextCount + 1
    evictionNeeded := t.evictionNeeded || decide (c.maxContexts < t.contextCount + 1) }

def getOrCreateContextData (now : Int) (t : Table) (ctx : ModelContext) : Table × Nat :=
  match t.contextMap.lookup ctx with
  | some number => (t, number)
  | none => ((t.create now ctx).countContext c, t.created)

/-! ## KV events -/

def loraIDFromName (name : String) : Int :=
  if name = "" then -1 else ((c.xxhash 0 name.toUTF8.data.toList) >>> 1).toNat

def storedContext (event : BlockStored) : ModelContext where
  modelName := event.modelName
  loraID := if event.loraName = "" then event.loraID else loraIDFromName c event.loraName

def refused (event : BlockStored) : Option String :=
  if event.blockHashes.length = event.tokens.length then none
  else some ("block hashes and tokens length mismatch: " ++ toString event.blockHashes.length ++ " vs " ++
    toString event.tokens.length)

def processBlockStored (now : Int) (t : Table) (event : BlockStored) : Table × Option String :=
  if event.blockHashes = [] then (t, none)
  else
    match refused event with
    | some err => (t, some err)
    | none =>
      let ctx := storedContext c event
      let r := t.getOrCreateContextData c now ctx
      (r.1.leave ctx r.2 true ((r.1.data ctx r.2).storeBlocks c now event), none)

def affected (event : BlockRemoved) : List ModelContext :=
  ((event.blockHashes.flatMap t.blockIndex).filter (·.modelName = event.modelName)).dedup

def namedIn (event : BlockRemoved) (ctx : ModelContext) : List Int :=
  event.blockHashes.flatMap fun blockHash => ((t.blockIndex blockHash).filter (· = ctx)).map fun _ => blockHash

def removeBlocksFromContext (now : Int) (event : BlockRemoved) (t : Table) (ctx : ModelContext)
    (blockHashes : List Int) : Table :=
  match t.contextMap.lookup ctx with
  | none => t
  | some number =>
    if (t.data ctx number).markedForEviction then t
    else t.leave ctx number false ((t.data ctx number).removeBlocks now blockHashes event)

/-- The affected contexts are visited in the order of a Go map, which is any order. -/
def processBlockRemoved (now : Int) (contexts : List ModelContext) (t : Table) (event : BlockRemoved) : Table :=
  contexts.foldl (fun t' ctx => t'.removeBlocksFromContext now event ctx (t.namedIn event ctx)) t

def scores (numBlocks : Nat) (found : Matches) : KeyMap String Int :=
  KeyMap.filterMap (fun _ m => some (score numBlocks m)) found

def matchPrefix (now : Int) (t : Table) (ctx : ModelContext) (tokens : List UInt8) (readyPods : List String) :
    Table × KeyMap String Int × List UInt64 :=
  match t.contextMap.lookup ctx with
  | none => (t, ∅, getPrefixHashes c tokens)
  | some number =>
    let d := t.data ctx number
    let hashes := prefixHashes c tokens (d.requestBlockSize c)
    if d.markedForEviction then (t, ∅, hashes)
    else
      let r := d.matchPrefix now readyPods hashes
      (t.setData ctx number r.1, scores hashes.length r.2, hashes)

end Table

def tinyConfig : Config where
  xxhash _ bytes := bytes.foldl (fun acc b => acc * 31 + b.toUInt64) 7
  seed := 1
  maxContexts := 10
  maxPrefixesPerContext := 10
  blockSize := 1
  evictionDuration := 60

def baseContext : ModelContext := ⟨"model", -1⟩

/-! ## Concurrent calls

The calls cut into atomic steps: an access to the context map, an atomic field or the block index, or a section under a
lock of one `ContextData`. -/

abbrev Ref := ModelContext × Nat

/-! ## Eviction -/

def evictionBatchSize : Nat := 100

/-- Where the eviction is. A `Range` is given by the keys it has still to visit. -/
inductive Phase where
  | scan (keys : List ModelContext) (candidates : List Ref)
  | mark (ref : Ref) (keys : List ModelContext) (candidates : List Ref)
  | next (enforcing : Bool) (victims : List Ref)
  | snapshot (victim : Ref) (victims : List Ref)
  | drop (enforcing : Bool) (victim : Ref) (blockHashes : List Int) (victims : List Ref)
  | count (enforcing : Bool) (victims : List Ref)
  | limit
  | collect (excess : Nat) (keys : List ModelContext) (ages : List (Ref × Int))
  | expiry (keys : List ModelContext) (batch : List Ref)
  | expire (keys : List ModelContext) (batch : List Ref)

/-- The call of `performEviction` that set `evictionRunning`. -/
structure Eviction where
  expiredBefore : Int
  limitKeys : List ModelContext
  expiryKeys : List ModelContext
  phase : Phase

structure Live where
  table : Table := {}
  clock : Int := 0
  eviction : Option Eviction := none

namespace Table

variable (t : Table)

def get (ref : Ref) : ContextData := t.data ref.1 ref.2

def put (ref : Ref) (d : ContextData) : Table := t.setData ref.1 ref.2 d

def markForEviction (ref : Ref) : Table := t.put ref { t.get ref with markedForEviction := true }

def mappedBlocks (ref : Ref) : List Int := (t.get ref).engineToAibrix.keys

end Table

def oldest (excess : Nat) (ages : List (Ref × Int)) : List Ref :=
  ((ages.insertionSort fun a b => a.2 ≤ b.2).take excess).map Prod.fst

/-- One step of `performEviction`. `none` when it is done. -/
def Eviction.step (c : Config) (e : Eviction) (t : Table) : Table × Option Phase :=
  match e.phase with
  | .scan [] candidates => (t, some (.next false candidates))
  | .scan (ctx :: keys) candidates =>
    match t.contextMap.lookup ctx with
    | none => (t, some (.scan keys candidates))
    | some number =>
      if (t.data ctx number).prefixStore.lastAccess < e.expiredBefore then
        (t, some (.mark (ctx, number) keys candidates))
      else (t, some (.scan keys candidates))
  | .mark ref keys candidates => (t.markForEviction ref, some (.scan keys (candidates ++ [ref])))
  | .next false [] => (t, some .limit)
  | .next true [] => (t, some (.expiry e.expiryKeys []))
  | .next false (victim :: victims) => (t, some (.drop false victim (t.mappedBlocks victim) victims))
  | .next true (victim :: victims) => (t.markForEviction victim, some (.snapshot victim victims))
  | .snapshot victim victims => (t, some (.drop true victim (t.mappedBlocks victim) victims))
  | .drop enforcing victim (blockHash :: blockHashes) victims =>
    ({ t with blockIndex := updateBlockIndex false victim.1 t.blockIndex blockHash },
      some (.drop enforcing victim blockHashes victims))
  | .drop enforcing victim [] victims =>
    ({ t with contextMap := t.contextMap.erase victim.1 }, some (.count enforcing victims))
  | .count enforcing victims => ({ t with contextCount := t.contextCount - 1 }, some (.next enforcing victims))
  | .limit =>
    if 0 < t.contextCount - c.maxContexts then
      (t, some (.collect (t.contextCount - c.maxContexts).toNat e.limitKeys []))
    else (t, some (.expiry e.expiryKeys []))
  | .collect excess [] ages => (t, some (.next true (oldest excess ages)))
  | .collect excess (ctx :: keys) ages =>
    match t.contextMap.lookup ctx with
    | none => (t, some (.collect excess keys ages))
    | some number =>
      if (t.data ctx number).markedForEviction then (t, some (.collect excess keys ages))
      else
        (t, some (.collect excess keys (ages ++ [((ctx, number), (t.data ctx number).prefixStore.lastAccess)])))
  | .expiry [] [] => (t, none)
  | .expiry [] batch => (t, some (.expire [] batch))
  | .expiry (ctx :: keys) batch =>
    match t.contextMap.lookup ctx with
    | none => (t, some (.expiry keys batch))
    | some number =>
      if (t.data ctx number).markedForEviction then (t, some (.expiry keys batch))
      else if evictionBatchSize ≤ batch.length + 1 then (t, some (.expire keys (batch ++ [(ctx, number)])))
      else (t, some (.expiry keys (batch ++ [(ctx, number)])))
  | .expire keys [] => (t, some (.expiry keys []))
  | .expire keys (ref :: batch) => (t.put ref ((t.get ref).expirePods e.expiredBefore), some (.expire keys batch))

/-! ## Calls -/

inductive Use where
  | store (event : BlockStored)
  | add (podName medium : String) (prefixHashes : List UInt64)

inductive Cmd where
  | setClock (now : Int)
  | processBlockStored (event : BlockStored)
  | addPrefixWithMedium (ctx : ModelContext) (podName medium : String) (prefixHashes : List UInt64)
  | load (ctx : ModelContext) (use : Use)
  | loadOrStore (ctx : ModelContext) (use : Use)
  | count
  | enter (ref : Ref) (use : Use)
  | processBlockRemoved (event : BlockRemoved) (contexts : List ModelContext)
  | loadRemoval (ctx : ModelContext) (blockHashes : List Int) (event : BlockRemoved)
  | checkRemoval (ref : Ref) (blockHashes : List Int) (event : BlockRemoved)
  | remove (ref : Ref) (blockHashes : List Int) (event : BlockRemoved)
  | removePrefix (modelName podName : String) (keys : List ModelContext)
  | visit (ctx : ModelContext) (podName : String)
  | prune (ref : Ref) (podName : String)
  | matchPrefix (ctx : ModelContext) (tokens : List UInt8) (readyPods : List String)
  | readBlockSize (ref : Ref) (tokens : List UInt8) (readyPods : List String)
  | checkMatch (ref : Ref) (hashes : List UInt64) (readyPods : List String)
  | matchLocked (ref : Ref) (hashes : List UInt64) (readyPods : List String)
  | checkNeeded (scanKeys limitKeys expiryKeys : List ModelContext)
  | performEviction (scanKeys limitKeys expiryKeys : List ModelContext)
  | evict

def Cmd.isCall : Cmd → Bool
  | .setClock _ | .processBlockStored _ | .addPrefixWithMedium .. | .processBlockRemoved .. | .removePrefix ..
  | .matchPrefix .. | .checkNeeded .. | .performEviction .. => true
  | _ => false

def isProgram : List Cmd → Bool
  | [c] => c.isCall
  | _ => false

namespace Live

variable (c : Config)

def use (s : Live) (ref : Ref) : Use → Table
  | .store event => s.table.leave ref.1 ref.2 true ((s.table.get ref).storeBlocks c s.clock event)
  | .add podName medium prefixHashes =>
    s.table.put ref ((s.table.get ref).addPrefixes c s.clock podName medium prefixHashes)

def removal (s : Live) (ref : Ref) (blockHashes : List Int) (event : BlockRemoved) : ContextData × List Int :=
  (s.table.get ref).removeBlocks s.clock blockHashes event

def withContext (s : Live) (ctx : ModelContext) (resume : Ref → Cmd) : List Cmd :=
  match s.table.contextMap.lookup ctx with
  | some number => [resume (ctx, number)]
  | none => []

def exec : Cmd → Live → Live × List Cmd
  | .setClock now, s => ({ s with clock := now }, [])
  | .processBlockStored event, s =>
    if event.blockHashes = [] ∨ Table.refused event ≠ none then (s, [])
    else (s, [.load (Table.storedContext c event) (.store event)])
  | .addPrefixWithMedium ctx podName medium prefixHashes, s => (s, [.load ctx (.add podName medium prefixHashes)])
  | .load ctx use, s =>
    match s.table.contextMap.lookup ctx with
    | some number => (s, [.enter (ctx, number) use])
    | none => (s, [.loadOrStore ctx use])
  | .loadOrStore ctx use, s =>
    match s.table.contextMap.lookup ctx with
    | some number => (s, [.enter (ctx, number) use])
    | none => ({ s with table := s.table.create s.clock ctx }, [.count, .enter (ctx, s.table.created) use])
  | .count, s => ({ s with table := s.table.countContext c }, [])
  | .enter ref use, s => ({ s with table := s.use c ref use }, [])
  | .processBlockRemoved event contexts, s =>
    (s, contexts.map fun ctx => .loadRemoval ctx (s.table.namedIn event ctx) event)
  | .loadRemoval ctx blockHashes event, s => (s, s.withContext ctx fun ref => .checkRemoval ref blockHashes event)
  | .checkRemoval ref blockHashes event, s =>
    (s, if (s.table.get ref).markedForEviction then [] else [.remove ref blockHashes event])
  | .remove ref blockHashes event, s =>
    ({ s with table := s.table.leave ref.1 ref.2 false (s.removal ref blockHashes event) }, [])
  | .removePrefix modelName podName keys, s =>
    (s, (keys.filter (·.modelName = modelName)).map fun ctx => .visit ctx podName)
  | .visit ctx podName, s => (s, s.withContext ctx fun ref => .prune ref podName)
  | .prune ref podName, s =>
    ({ s with table := s.table.leave ref.1 ref.2 false ((s.table.get ref).prunePod podName) }, [])
  | .matchPrefix ctx tokens readyPods, s => (s, s.withContext ctx fun ref => .readBlockSize ref tokens readyPods)
  | .readBlockSize ref tokens readyPods, s =>
    (s, [.checkMatch ref (prefixHashes c tokens ((s.table.get ref).requestBlockSize c)) readyPods])
  | .checkMatch ref hashes readyPods, s =>
    (s, if (s.table.get ref).markedForEviction then [] else [.matchLocked ref hashes readyPods])
  | .matchLocked ref hashes readyPods, s =>
    ({ s with table := s.table.put ref ((s.table.get ref).matchPrefix s.clock readyPods hashes).1 }, [])
  | .checkNeeded scanKeys limitKeys expiryKeys, s =>
    if s.table.evictionNeeded then
      ({ s with table := { s.table with evictionNeeded := false } }, [.performEviction scanKeys limitKeys expiryKeys])
    else (s, [])
  | .performEviction scanKeys limitKeys expiryKeys, s =>
    match s.eviction with
    | some _ => (s, [])
    | none =>
      ({ s with eviction := some ⟨s.clock - c.evictionDuration, limitKeys, expiryKeys, .scan scanKeys []⟩ }, [.evict])
  | .evict, s =>
    match s.eviction with
    | none => (s, [])
    | some e =>
      match e.step c s.table with
      | (table, some phase) => ({ s with table, eviction := some { e with phase } }, [.evict])
      | (table, none) => ({ s with table, eviction := none }, [])

end Live

/-- The order of a Go map is any order, and a `Range` visits a key at most once. -/
def Allowed (s : Live) : Cmd → Prop
  | .processBlockRemoved event contexts => contexts.Perm (s.table.affected event)
  | .removePrefix _ _ keys => keys.Nodup
  | .performEviction scanKeys limitKeys expiryKeys => scanKeys.Nodup ∧ limitKeys.Nodup ∧ expiryKeys.Nodup
  | _ => True

instance (s : Live) (command : Cmd) : Decidable (Allowed s command) := by
  cases command <;> unfold Allowed <;> infer_instance

def system (c : Config) : System Live Cmd where
  exec := Live.exec c
  program commands := isProgram commands
  allowed s _ command := Allowed s command

instance (c : Config) : DecidablePred (system c).program :=
  fun commands => inferInstanceAs (Decidable (isProgram commands = true))

instance (c : Config) (s : Live) (M : Multiset Cmd) (command : Cmd) : Decidable ((system c).allowed s M command) :=
  inferInstanceAs (Decidable (Allowed s command))

end Aibrix.SyncHash
