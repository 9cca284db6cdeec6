import Aibrix.Lib.KeyMap
import Aibrix.KvCache.World

/-! # The eviction policies of the L1 cache

`FIFO` and `LRU` keep one list of nodes, `S3FIFO` keeps three queues. -/

namespace Aibrix.KvCache

open Lib

/-- Which ingestion callback is installed, and the quota of the writes that it starts. -/
structure Callbacks where
  onPut : Bool := false
  onEvict : Bool := false
  onHotAccess : Bool := false
  quota : Nat := 0

section Callbacks

variable {D : Type} (callbacks : Callbacks)

/-- `_l2_ingestion_callback`, which is handed a reference of the region. It returns a status. A write at once that
raises ends the operation around it, and no run here has one. -/
def Callbacks.ingest (w : World D) (mr : Nat) : World D := (World.l2Put callbacks.quota false w [mr]).1

/-- A reference is taken for the callback, if it is installed. -/
def Callbacks.notify (installed : Bool) (w : World D) (mr : Nat) : World D :=
  if installed then callbacks.ingest (w.refUp mr) mr else w

end Callbacks

def targetUsage (used capacityNbytes nbytes : Int) : Int :=
  ((if used ≤ capacityNbytes then used else capacityNbytes) - nbytes).toNat

/-! ## FIFO and LRU -/

structure ListNode where
  value : Nat
  hotness : Int := 0

structure ListPolicy (K : Type) where
  lru : Bool
  capacityNbytes : Int
  usedNbytes : Int := 0
  hashmap : KeyMap K ListNode := ∅
  list : List K := []

def fifo (K : Type) (capacityNbytes : Int) : ListPolicy K := { lru := false, capacityNbytes }

def lru (K : Type) (capacityNbytes : Int) : ListPolicy K := { lru := true, capacityNbytes }

namespace ListPolicy

variable {K D : Type} [DecidableEq K] (callbacks : Callbacks) (p : ListPolicy K)

def values : Multiset Nat := KeyMap.collect (fun node => some node.value) p.hashmap

def find (key : K) : Option Nat := (p.hashmap.lookup key).map (·.value)

def touch (key : K) : ListPolicy K :=
  if p.lru then { p with list := key :: p.list.erase key } else p

variable (w : World D)

def delete (key : K) : ListPolicy K × World D :=
  match p.hashmap.lookup key with
  | none => (p, w)
  | some node =>
    ({ p with
        hashmap := p.hashmap.erase key
        usedNbytes := p.usedNbytes - w.heap.size node.value
        list := p.list.erase key }, w.refDown node.value)

def evictLoop (target : Int) : Nat → ListPolicy K → World D → ListPolicy K × World D
  | 0, p, w => (p, w)
  | fuel + 1, p, w =>
    if p.usedNbytes > target then
      match p.list.getLast? with
      | none => (p, w)
      | some key =>
        match p.hashmap.lookup key with
        | none => (p, w)
        | some node =>
          let deleted := p.delete (callbacks.notify callbacks.onEvict w node.value) key
          evictLoop target fuel deleted.1 deleted.2
    else (p, w)

def evict (nbytes : Int) : ListPolicy K × World D :=
  evictLoop callbacks (targetUsage p.usedNbytes p.capacityNbytes nbytes) (p.list.length + 1) p w

/-- A key that is there keeps its node. -/
def replace (key : K) (node : ListNode) (value : Nat) : ListPolicy K :=
  { p with
    hashmap := p.hashmap.insert key { node with value, hotness := 0 }
    usedNbytes := p.usedNbytes + (w.heap.size value - w.heap.size node.value) }

def prepend (key : K) (value : Nat) : ListPolicy K :=
  { p with
    hashmap := p.hashmap.insert key { value }
    list := key :: p.list
    usedNbytes := p.usedNbytes + w.heap.size value }

def store (key : K) (value : Nat) : ListPolicy K × World D :=
  match p.hashmap.lookup key with
  | some node => ((p.replace w key node value).touch key, w.refDown node.value)
  | none => (p.prepend w key value, callbacks.notify callbacks.onPut w value)

def put (key : K) (value : Nat) : ListPolicy K × World D :=
  let s := p.store callbacks w key value
  if s.1.usedNbytes > s.1.capacityNbytes then s.1.evict callbacks s.2 1 else s

def heat (key : K) (node : ListNode) : ListPolicy K :=
  { p with hashmap := p.hashmap.insert key { node with hotness := 1 } }

def get (key : K) : ListPolicy K × World D × Option Nat :=
  match p.hashmap.lookup key with
  | none => (p, w, none)
  | some node =>
    -- The item becomes hot after the first access.
    let w := callbacks.notify (node.hotness = 0 ∧ callbacks.onHotAccess) w node.value
    ((p.touch key).heat key node, w.refUp node.value, some node.value)

end ListPolicy

/-! ## S3FIFO -/

/-- The queue a node is in. A ghost holds no region. -/
inductive Place where
  | small (value : Nat)
  | main (value : Nat)
  | ghost
  deriving DecidableEq

def Place.value : Place → Option Nat
  | .small value | .main value => some value
  | .ghost => none

structure S3FIFONode where
  place : Place
  hotness : Int := 0
  nbytes : Nat

def S3FIFONode.heat (node : S3FIFONode) : S3FIFONode :=
  { node with hotness := if node.hotness + 1 ≤ 3 then node.hotness + 1 else 3 }

/-- The keys go from the head to the tail. -/
structure S3FIFOQueue (K : Type) where
  keys : List K := []
  sizeNbytes : Int := 0
  len : Int := 0

namespace S3FIFOQueue

variable {K : Type} [DecidableEq K]

def append (q : S3FIFOQueue K) (key : K) (nbytes : Nat) : S3FIFOQueue K :=
  { keys := key :: q.keys, sizeNbytes := q.sizeNbytes + nbytes, len := q.len + 1 }

def erase (q : S3FIFOQueue K) (key : K) (nbytes : Nat) : S3FIFOQueue K :=
  { keys := q.keys.erase key, sizeNbytes := q.sizeNbytes - nbytes, len := q.len - 1 }

end S3FIFOQueue

structure S3FIFO (K : Type) where
  capacityNbytes : Int
  smallToMainPromoThreshold : Int
  smallFifoCapacityNbytes : Int
  hashmap : KeyMap K S3FIFONode := ∅
  smallFifo : S3FIFOQueue K := {}
  mainFifo : S3FIFOQueue K := {}
  ghostFifo : S3FIFOQueue K := {}

namespace S3FIFO

variable {K D : Type} [DecidableEq K] (callbacks : Callbacks) (p : S3FIFO K)

def values : Multiset Nat := KeyMap.collect (fun node => node.place.value) p.hashmap

def find (key : K) : Option Nat := (p.hashmap.lookup key).bind (·.place.value)

def nbytes : Int := p.smallFifo.sizeNbytes + p.mainFifo.sizeNbytes

def mainFifoCapacityNbytes : Int := p.capacityNbytes - p.smallFifoCapacityNbytes

def setNode (key : K) (node : S3FIFONode) : S3FIFO K :=
  { p with hashmap := p.hashmap.insert key node }

def dropNode (key : K) : S3FIFO K := { p with hashmap := p.hashmap.erase key }

def unlink (key : K) (node : S3FIFONode) : S3FIFO K :=
  match node.place with
  | .small _ => { p with smallFifo := p.smallFifo.erase key node.nbytes }
  | .main _ => { p with mainFifo := p.mainFifo.erase key node.nbytes }
  | .ghost => { p with ghostFifo := p.ghostFifo.erase key node.nbytes }

def link (key : K) (node : S3FIFONode) : S3FIFO K :=
  match node.place with
  | .small _ => { p with smallFifo := p.smallFifo.append key node.nbytes }
  | .main _ => { p with mainFifo := p.mainFifo.append key node.nbytes }
  | .ghost => { p with ghostFifo := p.ghostFifo.append key node.nbytes }

def move (key : K) (node node' : S3FIFONode) : S3FIFO K :=
  ((p.unlink key node).setNode key node').link key node'

variable (w : World D)

/-- The region goes to the callback, or its reference is dropped. -/
def handOver (value : Nat) : World D :=
  if callbacks.onEvict then callbacks.ingest w value else w.refDown value

def evictOneFromMainFifo : S3FIFO K × World D :=
  match p.mainFifo.keys.getLast?.bind fun key => (p.hashmap.lookup key).map (key, ·) with
  | some (key, node@⟨.main value, _, _⟩) =>
    if node.hotness ≥ 1 then (p.move key node { node with hotness := node.hotness - 1 }, w)
    else ((p.unlink key node).dropNode key, handOver callbacks w value)
  | _ => (p, w)

def evictOneFromGhostFifo : S3FIFO K :=
  match p.ghostFifo.keys.getLast?.bind fun key => (p.hashmap.lookup key).map (key, ·) with
  | some (key, node@⟨.ghost, _, _⟩) => (p.unlink key node).dropNode key
  | _ => p

def trimMain : Nat → S3FIFO K → World D → S3FIFO K × World D
  | 0, p, w => (p, w)
  | fuel + 1, p, w =>
    if p.mainFifo.sizeNbytes > p.mainFifoCapacityNbytes then
      let evicted := p.evictOneFromMainFifo callbacks w
      trimMain fuel evicted.1 evicted.2
    else (p, w)

def trimGhost : Nat → S3FIFO K → S3FIFO K
  | 0, p => p
  | fuel + 1, p =>
    if p.ghostFifo.sizeNbytes > p.mainFifoCapacityNbytes then trimGhost fuel p.evictOneFromGhostFifo else p

def evictOneFromSmallFifo : S3FIFO K × World D :=
  match p.smallFifo.keys.getLast?.bind fun key => (p.hashmap.lookup key).map (key, ·) with
  | some (key, node@⟨.small value, _, _⟩) =>
    if node.hotness ≥ p.smallToMainPromoThreshold then
      let p := p.move key node { node with place := .main value, hotness := 0 }
      -- Every node of the main queue is passed over at most three times.
      trimMain callbacks (4 * p.mainFifo.keys.length + 1) p w
    else
      let p := p.move key node { node with place := .ghost, hotness := -1 }
      (trimGhost (p.ghostFifo.keys.length + 1) p, handOver callbacks w value)
  | _ => (p, w)

def evictLoop (target : Int) : Nat → S3FIFO K → World D → S3FIFO K × World D
  | 0, p, w => (p, w)
  | fuel + 1, p, w =>
    if p.nbytes > target then
      let evicted :=
        if p.smallFifo.sizeNbytes > p.smallFifoCapacityNbytes ∨ p.mainFifo.len = 0 then
          p.evictOneFromSmallFifo callbacks w
        else p.evictOneFromMainFifo callbacks w
      evictLoop target fuel evicted.1 evicted.2
    else (p, w)

def evict (nbytes : Int) : S3FIFO K × World D :=
  evictLoop callbacks (targetUsage p.nbytes p.capacityNbytes nbytes)
    (4 * (p.smallFifo.keys.length + p.mainFifo.keys.length) + 1) p w

def store (key : K) (value : Nat) : S3FIFO K × World D :=
  match p.hashmap.lookup key with
  | some node =>
    match node.place with
    | .ghost =>
      -- A hit on a ghost goes to the main queue.
      (p.move key node { place := .main value, hotness := 0, nbytes := w.heap.size value },
        callbacks.notify callbacks.onHotAccess w value)
    | .small old =>
      (p.move key node { node with place := .small value, nbytes := w.heap.size value }, w.refDown old)
    | .main old =>
      (p.move key node { node with place := .main value, nbytes := w.heap.size value }, w.refDown old)
  | none =>
    let node : S3FIFONode := { place := .small value, nbytes := w.heap.size value }
    ((p.setNode key node).link key node, callbacks.notify callbacks.onPut w value)

def put (key : K) (value : Nat) : S3FIFO K × World D :=
  let s := p.store callbacks w key value
  if s.1.nbytes > s.1.capacityNbytes then s.1.evict callbacks s.2 1 else s

def get (key : K) : S3FIFO K × World D × Option Nat :=
  match p.hashmap.lookup key with
  | none => (p, w, none)
  | some node =>
    match node.place with
    | .ghost => (p, w, none)
    | .small value =>
      -- The callback is for the access that makes the item move to the main queue.
      let hot : Bool := node.hotness = p.smallToMainPromoThreshold - 1 ∧ callbacks.onHotAccess
      let w := callbacks.notify hot w value
      (p.setNode key node.heat, w.refUp value, some value)
    | .main value => (p.setNode key node.heat, w.refUp value, some value)

def delete (key : K) : S3FIFO K × World D :=
  match p.hashmap.lookup key with
  | none => (p, w)
  | some node =>
    ((p.unlink key node).dropNode key,
      match node.place.value with
      | some value => w.refDown value
      | none => w)

end S3FIFO

/-! ## Any of them -/

inductive Policy (K : Type) where
  | list (p : ListPolicy K)
  | s3fifo (p : S3FIFO K)

namespace Policy

variable {K D : Type} [DecidableEq K] (callbacks : Callbacks)

def nbytes : Policy K → Int
  | .list p => p.usedNbytes
  | .s3fifo p => p.nbytes

def size : Policy K → Nat
  | .list p => KeyMap.size p.hashmap
  | .s3fifo p => KeyMap.size p.hashmap

def values : Policy K → Multiset Nat
  | .list p => p.values
  | .s3fifo p => p.values

variable (p : Policy K)

def lookup (key : K) : Option Nat :=
  match p with
  | .list p => p.find key
  | .s3fifo p => p.find key

def put (w : World D) (key : K) (value : Nat) : Policy K × World D :=
  match p with
  | .list p => (p.put callbacks w key value).map .list id
  | .s3fifo p => (p.put callbacks w key value).map .s3fifo id

def get (w : World D) (key : K) : Policy K × World D × Option Nat :=
  match p with
  | .list p => (p.get callbacks w key).map .list id
  | .s3fifo p => (p.get callbacks w key).map .s3fifo id

def delete (w : World D) (key : K) : Policy K × World D :=
  match p with
  | .list p => (p.delete w key).map .list id
  | .s3fifo p => (p.delete w key).map .s3fifo id

def evict (w : World D) (nbytes : Int) : Policy K × World D :=
  match p with
  | .list p => (p.evict callbacks w nbytes).map .list id
  | .s3fifo p => (p.evict callbacks w nbytes).map .s3fifo id

end Policy

/-! ## The references of the policies

What an entry owns is taken over when it is put, and goes to the callback or is dropped when the entry goes. -/

open World Multiset Option KeyMap

variable {K D : Type} [DecidableEq K] (callbacks : Callbacks) {w : World D} {key : K} {value : Nat}

theorem Callbacks.moves_notify (callbacks : Callbacks) (installed : Bool) (w : World D) (mr : Nat) :
    Moves w {mr} (callbacks.notify installed w mr) {mr} := by
  unfold notify
  split
  · refine (moves_refUp w mr).trans (((moves_l2Put _ callbacks.quota false [mr]).frame {mr}).cast rfl ?_)
    rw [zero_add]
  · exact .refl w {mr}

/-- The references an operation is handed are those of the policy it leaves. -/
abbrev HandsOn {P : Type} (values : P → Multiset Nat) (w : World D) (owned : Multiset Nat) (r : P × World D) : Prop :=
  Moves w owned r.2 (values r.1)

/-! ## FIFO and LRU -/

namespace ListPolicy

variable {p : ListPolicy K}

@[simp] theorem touch_hashmap (p : ListPolicy K) (key : K) : (p.touch key).hashmap = p.hashmap := by
  unfold touch
  split <;> rfl

def rest (p : ListPolicy K) (key : K) : Multiset Nat :=
  KeyMap.collect (fun node => some node.value) (p.hashmap.erase key)

theorem values_of_lookup {node : ListNode} (h : p.hashmap.lookup key = some node) :
    p.values = {node.value} + p.rest key :=
  collect_of_lookup _ h

theorem moves_delete (p : ListPolicy K) (w : World D) (key : K) : HandsOn values w p.values (p.delete w key) := by
  unfold delete
  split
  · exact .refl w p.values
  · apply ((moves_refDown w _).frame _).cast (values_of_lookup ‹_›)
    exact (zero_add _).symm

theorem moves_evictLoop (target : Int) (fuel : Nat) (p : ListPolicy K) (w : World D) :
    HandsOn values w p.values (evictLoop callbacks target fuel p w) := by
  induction fuel generalizing p w with
  | zero => exact .refl w p.values
  | succ fuel ih =>
    unfold evictLoop
    split
    · split
      · exact .refl w p.values
      split
      · exact .refl w p.values
      rename_i node hnd
      have hnt : Moves w p.values (callbacks.notify callbacks.onEvict w node.value) p.values :=
        ((callbacks.moves_notify callbacks.onEvict w node.value).frame (p.rest _)).cast
          (values_of_lookup hnd) (values_of_lookup hnd)
      exact (hnt.trans (moves_delete p _ _)).trans (ih _ _)
    · exact .refl w p.values

theorem moves_evict (p : ListPolicy K) (w : World D) (nbytes : Int) :
    HandsOn values w p.values (p.evict callbacks w nbytes) :=
  moves_evictLoop callbacks _ _ p w

theorem moves_store (p : ListPolicy K) (w : World D) (key : K) (value : Nat) :
    HandsOn values w (p.values + {value}) (p.store callbacks w key value) := by
  unfold store
  split
  · rename_i node hnd
    have hin : ((p.replace w key node value).touch key).values = {value} + p.rest key := by
      unfold values
      rw [touch_hashmap]
      exact collect_insert _ _
    refine ((moves_refDown w node.value).frame (p.rest key + {value})).cast ?_ ?_
    · rw [values_of_lookup hnd, add_assoc]
    · rw [hin, zero_add, add_comm]
  · rename_i hnn
    have hin : (p.prepend w key value).values = {value} + p.values := by
      apply (collect_insert _ _).trans
      rw [collect_erase_of_none _ hnn]
      rfl
    exact ((callbacks.moves_notify callbacks.onPut w value).frame p.values).cast (add_comm _ _) hin

theorem moves_put (p : ListPolicy K) (w : World D) (key : K) (value : Nat) :
    HandsOn values w (p.values + {value}) (p.put callbacks w key value) := by
  have hst := moves_store callbacks p w key value
  unfold put
  dsimp only
  split
  · exact hst.trans (moves_evict callbacks _ _ _)
  · exact hst

theorem find_heat {node : ListNode} (hnd : p.hashmap.lookup key = some node) (key' : K) :
    ((p.touch key).heat key node).find key' = p.find key' := by
  unfold find heat
  rw [touch_hashmap, lookup_insert_eq]
  split
  · subst key'
    rw [hnd]
    rfl
  · rfl

theorem values_heat {node : ListNode} (hnd : p.hashmap.lookup key = some node) :
    ((p.touch key).heat key node).values = p.values := by
  unfold values heat
  rw [touch_hashmap, collect_insert, collect_of_lookup _ hnd]

theorem get_spec (p : ListPolicy K) (w : World D) (key : K) :
    let r := p.get callbacks w key
    r.2.2 = p.find key ∧
    (∀ key', r.1.find key' = p.find key') ∧ r.1.values = p.values ∧
    Moves w p.values r.2.1 (p.values + ↑(p.find key).toList) := by
  unfold get
  split
  · rename_i hnn
    have hfn : p.find key = none := by
      unfold find
      rw [hnn]
      rfl
    rw [hfn]
    exact ⟨rfl, fun _ => rfl, rfl, (Moves.refl w p.values).cast rfl (add_zero _)⟩
  rename_i node hnd
  have hfn : p.find key = some node.value := by
    unfold find
    rw [hnd]
    rfl
  rw [hfn]
  refine ⟨rfl, find_heat hnd, values_heat hnd, ?_⟩
  have hnt := callbacks.moves_notify (node.hotness = 0 ∧ callbacks.onHotAccess) w node.value
  apply ((hnt.trans (moves_refUp _ node.value)).frame (p.rest key)).cast (values_of_lookup hnd)
  rw [values_of_lookup hnd, insert_eq_cons, ← singleton_add]
  show {node.value} + p.rest key + {node.value} = _
  abel

end ListPolicy

/-! ## S3FIFO -/

namespace S3FIFO

variable {p : S3FIFO K} {node : S3FIFONode}

@[simp] theorem unlink_hashmap (p : S3FIFO K) (key : K) (node : S3FIFONode) :
    (p.unlink key node).hashmap = p.hashmap := by
  unfold unlink
  split <;> rfl

omit [DecidableEq K] in
@[simp] theorem link_hashmap (p : S3FIFO K) (key : K) (node : S3FIFONode) :
    (p.link key node).hashmap = p.hashmap := by
  unfold link
  split <;> rfl

def rest (p : S3FIFO K) (key : K) : Multiset Nat :=
  KeyMap.collect (fun node => node.place.value) (p.hashmap.erase key)

theorem values_of_lookup (h : p.hashmap.lookup key = some node) : p.values = ↑node.place.value.toList + p.rest key :=
  collect_of_lookup _ h

theorem rest_of_none (h : p.hashmap.lookup key = none) : p.rest key = p.values :=
  collect_erase_of_none _ h

theorem values_setNode (p : S3FIFO K) (key : K) (node : S3FIFONode) :
    (p.setNode key node).values = ↑node.place.value.toList + p.rest key :=
  collect_insert _ _

theorem values_move (p : S3FIFO K) (key : K) (node node' : S3FIFONode) :
    (p.move key node node').values = ↑node'.place.value.toList + p.rest key := by
  unfold move values
  rw [link_hashmap]
  unfold setNode
  rw [unlink_hashmap]
  exact collect_insert _ _

theorem values_dropNode (p : S3FIFO K) (key : K) (node : S3FIFONode) :
    ((p.unlink key node).dropNode key).values = p.rest key := by
  unfold dropNode
  rw [unlink_hashmap]
  rfl

theorem moves_handOver (w : World D) (value : Nat) : Moves w {value} (handOver callbacks w value) 0 := by
  unfold handOver
  split
  · exact moves_l2Put w callbacks.quota false [value]
  · exact moves_refDown w value

theorem lookup_of_last {keys : List K} {found : K × S3FIFONode}
    (h : keys.getLast?.bind (fun key => (p.hashmap.lookup key).map (key, ·)) = some found) :
    p.hashmap.lookup found.1 = some found.2 := by
  obtain ⟨key, -, hkey⟩ := bind_eq_some_iff.1 h
  obtain ⟨node, hnd, rfl⟩ := map_eq_some_iff.1 hkey
  exact hnd

theorem moves_evictOneFromMainFifo (p : S3FIFO K) (w : World D) :
    HandsOn values w p.values (p.evictOneFromMainFifo callbacks w) := by
  unfold evictOneFromMainFifo
  split
  · rename_i key value hotness nbytes hls
    have hvl := values_of_lookup (lookup_of_last hls)
    split
    · exact (Moves.refl w p.values).cast rfl hvl.symm
    · exact ((moves_handOver callbacks w value).frame _).cast hvl (zero_add _).symm
  · exact .refl w p.values

theorem values_evictOneFromGhostFifo (p : S3FIFO K) : p.evictOneFromGhostFifo.values = p.values := by
  unfold evictOneFromGhostFifo
  split
  · rename_i key hotness nbytes hls
    rw [values_of_lookup (lookup_of_last hls)]
    exact (zero_add _).symm
  · rfl

theorem moves_trimMain (fuel : Nat) (p : S3FIFO K) (w : World D) :
    HandsOn values w p.values (trimMain callbacks fuel p w) := by
  induction fuel generalizing p w with
  | zero => exact .refl w p.values
  | succ fuel ih =>
    unfold trimMain
    split
    · exact (moves_evictOneFromMainFifo callbacks p w).trans (ih _ _)
    · exact .refl w p.values

theorem values_trimGhost (fuel : Nat) (p : S3FIFO K) : (trimGhost fuel p).values = p.values := by
  induction fuel generalizing p with
  | zero => rfl
  | succ fuel ih =>
    unfold trimGhost
    split
    · rw [ih, values_evictOneFromGhostFifo]
    · rfl

theorem moves_evictOneFromSmallFifo (p : S3FIFO K) (w : World D) :
    HandsOn values w p.values (p.evictOneFromSmallFifo callbacks w) := by
  unfold evictOneFromSmallFifo
  split
  · rename_i key value hotness nbytes hls
    have hvl := values_of_lookup (lookup_of_last hls)
    split
    · refine Moves.trans ?_ (moves_trimMain callbacks _ _ w)
      exact (Moves.refl w p.values).cast rfl hvl.symm
    · rw [HandsOn, values_trimGhost, values_move]
      exact ((moves_handOver callbacks w value).frame _).cast hvl rfl
  · exact .refl w p.values

theorem moves_evictLoop (target : Int) (fuel : Nat) (p : S3FIFO K) (w : World D) :
    HandsOn values w p.values (evictLoop callbacks target fuel p w) := by
  induction fuel generalizing p w with
  | zero => exact .refl w p.values
  | succ fuel ih =>
    unfold evictLoop
    split
    · split
      · exact (moves_evictOneFromSmallFifo callbacks p w).trans (ih _ _)
      · exact (moves_evictOneFromMainFifo callbacks p w).trans (ih _ _)
    · exact .refl w p.values

theorem moves_evict (p : S3FIFO K) (w : World D) (nbytes : Int) :
    HandsOn values w p.values (p.evict callbacks w nbytes) :=
  moves_evictLoop callbacks _ _ p w

theorem moves_store (p : S3FIFO K) (w : World D) (key : K) (value : Nat) :
    HandsOn values w (p.values + {value}) (p.store callbacks w key value) := by
  unfold store
  split
  · rename_i node hnd
    have hvl := values_of_lookup hnd
    split
    · rename_i hpl
      rw [hpl] at hvl
      rw [HandsOn, values_move]
      refine ((callbacks.moves_notify callbacks.onHotAccess w value).frame _).cast ?_ rfl
      rw [hvl]
      exact (congrArg (· + _) (zero_add _)).trans (add_comm _ _)
    all_goals
      rename_i old hpl
      rw [hpl] at hvl
      rw [HandsOn, values_move]
      refine ((moves_refDown w old).frame (p.rest key + {value})).cast ?_ ?_
      · rw [hvl, add_assoc]
        rfl
      · rw [zero_add, add_comm]
        rfl
  · rename_i hnn
    have hin : ((p.setNode key { place := .small value, nbytes := w.heap.size value }).link key
        { place := .small value, nbytes := w.heap.size value }).values = {value} + p.values := by
      apply (values_setNode p key _).trans
      rw [rest_of_none hnn]
      rfl
    exact ((callbacks.moves_notify callbacks.onPut w value).frame p.values).cast (add_comm _ _) hin

theorem moves_put (p : S3FIFO K) (w : World D) (key : K) (value : Nat) :
    HandsOn values w (p.values + {value}) (p.put callbacks w key value) := by
  have hst := moves_store callbacks p w key value
  unfold put
  dsimp only
  split
  · exact hst.trans (moves_evict callbacks _ _ _)
  · exact hst

theorem moves_delete (p : S3FIFO K) (w : World D) (key : K) : HandsOn values w p.values (p.delete w key) := by
  unfold delete
  split
  · exact .refl w p.values
  rename_i node hnd
  have hvl := values_of_lookup hnd
  rw [HandsOn, values_dropNode]
  split
  · rename_i value hva
    rw [hva] at hvl
    exact ((moves_refDown w value).frame _).cast hvl (zero_add _).symm
  · rename_i hva
    rw [hva] at hvl
    exact (Moves.refl w p.values).cast rfl ((zero_add _).symm.trans hvl.symm)

theorem find_of_lookup (h : p.hashmap.lookup key = some node) : p.find key = node.place.value := by
  unfold find
  rw [h]
  rfl

theorem find_heat (hnd : p.hashmap.lookup key = some node) (key' : K) :
    (p.setNode key node.heat).find key' = p.find key' := by
  unfold find setNode
  rw [lookup_insert_eq]
  split
  · subst key'
    rw [hnd]
    rfl
  · rfl

theorem values_heat (hnd : p.hashmap.lookup key = some node) : (p.setNode key node.heat).values = p.values := by
  rw [values_setNode, values_of_lookup hnd]
  rfl

theorem get_spec (p : S3FIFO K) (w : World D) (key : K) :
    let r := p.get callbacks w key
    r.2.2 = p.find key ∧
    (∀ key', r.1.find key' = p.find key') ∧ r.1.values = p.values ∧
    Moves w p.values r.2.1 (p.values + ↑(p.find key).toList) := by
  have hms : p.find key = none → Moves w p.values w (p.values + ↑(p.find key).toList) := by
    intro hfn
    rw [hfn]
    exact (Moves.refl w p.values).cast rfl (add_zero _)
  -- A hit leaves the entry its reference and takes one more.
  have hhit : ∀ {node : S3FIFONode} {value : Nat} {w' : World D}, p.hashmap.lookup key = some node →
      node.place.value = some value → Moves w {value} w' {value} →
      Moves w p.values (w'.refUp value) (p.values + {value}) := by
    intro node value w' hnd hva hmv
    have hvl := values_of_lookup hnd
    rw [hva] at hvl
    apply ((hmv.trans (moves_refUp w' value)).frame (p.rest key)).cast hvl
    rw [hvl, insert_eq_cons, ← singleton_add]
    show {value} + p.rest key + {value} = _
    abel
  unfold get
  split
  · rename_i hnn
    have hfn : p.find key = none := by
      unfold find
      rw [hnn]
      rfl
    exact ⟨hfn.symm, fun _ => rfl, rfl, hms hfn⟩
  rename_i node hnd
  have hfn := find_of_lookup hnd
  split
  · rename_i hpl
    rw [hpl] at hfn
    exact ⟨hfn.symm, fun _ => rfl, rfl, hms hfn⟩
  · rename_i value hpl
    rw [hpl] at hfn
    refine ⟨hfn.symm, find_heat hnd, values_heat hnd, ?_⟩
    rw [hfn]
    exact hhit hnd (by rw [hpl]; rfl) (callbacks.moves_notify _ w value)
  · rename_i value hpl
    rw [hpl] at hfn
    refine ⟨hfn.symm, find_heat hnd, values_heat hnd, ?_⟩
    rw [hfn]
    exact hhit hnd (by rw [hpl]; rfl) (.refl w {value})

end S3FIFO

namespace Policy

variable (p : Policy K) (w : World D)

theorem moves_put (key : K) (value : Nat) : HandsOn values w (p.values + {value}) (p.put callbacks w key value) := by
  cases p with
  | list p | s3fifo p => exact p.moves_put callbacks w key value

theorem moves_delete (key : K) : HandsOn values w p.values (p.delete w key) := by
  cases p with
  | list p | s3fifo p => exact p.moves_delete w key

theorem moves_evict (nbytes : Int) : HandsOn values w p.values (p.evict callbacks w nbytes) := by
  cases p with
  | list p | s3fifo p => exact p.moves_evict callbacks w nbytes

theorem get_spec (key : K) :
    let r := p.get callbacks w key
    r.2.2 = p.lookup key ∧
    (∀ key', r.1.lookup key' = p.lookup key') ∧ r.1.values = p.values ∧
    Moves w p.values r.2.1 (p.values + ↑(p.lookup key).toList) := by
  cases p with
  | list p | s3fifo p => exact p.get_spec callbacks w key

end Policy

end Aibrix.KvCache
