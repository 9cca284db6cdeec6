import Mathlib.Algebra.Order.BigOperators.Group.List
import Aibrix.KvCache.Policies
import Mathlib.Tactic.Linarith

/-! # The queues and evictions of S3FIFO

Every node is in the queue of its place and in no other one. One turn of an eviction takes a node off the small queue
or cools one of the main queue down, so the loops end. -/

namespace Aibrix.KvCache

open Lib List Function

inductive Kind where
  | small
  | main
  | ghost
  deriving DecidableEq

def Place.kind : Place → Kind
  | .small _ => .small
  | .main _ => .main
  | .ghost => .ghost

namespace S3FIFO

variable {K : Type}

def queue (p : S3FIFO K) : Kind → S3FIFOQueue K
  | .small => p.smallFifo
  | .main => p.mainFifo
  | .ghost => p.ghostFifo

def total (f : S3FIFONode → Nat) (nodeOf : K → Option S3FIFONode) (keys : List K) : Nat :=
  (keys.map fun key => (nodeOf key).elim 0 f).sum

structure Linked (nodeOf : K → Option S3FIFONode) (queue : Kind → S3FIFOQueue K) : Prop where
  mem : ∀ kind key, key ∈ (queue kind).keys ↔ ∃ node, nodeOf key = some node ∧ node.place.kind = kind
  nodup : ∀ kind, (queue kind).keys.Nodup
  len : ∀ kind, (queue kind).len = (queue kind).keys.length
  bytes : ∀ kind, (queue kind).sizeNbytes = total S3FIFONode.nbytes nodeOf (queue kind).keys

structure SameLimits (p p' : S3FIFO K) : Prop where
  capacity : p'.capacityNbytes = p.capacityNbytes
  small : p'.smallFifoCapacityNbytes = p.smallFifoCapacityNbytes

theorem SameLimits.refl (p : S3FIFO K) : SameLimits p p := ⟨rfl, rfl⟩

theorem SameLimits.trans {p p' p'' : S3FIFO K} (h : SameLimits p p') (h' : SameLimits p' p'') : SameLimits p p'' :=
  ⟨h'.capacity.trans h.capacity, h'.small.trans h.small⟩

theorem SameLimits.main {p p' : S3FIFO K} (h : SameLimits p p') :
    p'.mainFifoCapacityNbytes = p.mainFifoCapacityNbytes := by
  unfold mainFifoCapacityNbytes
  rw [h.capacity, h.small]

variable [DecidableEq K] {nodeOf : K → Option S3FIFONode} {queue : Kind → S3FIFOQueue K} {key : K}
  {node node' : S3FIFONode}

variable (f : S3FIFONode → Nat) {keys : List K}

theorem total_update_of_notMem (x : Option S3FIFONode) (hkey : key ∉ keys) :
    total f (update nodeOf key x) keys = total f nodeOf keys := by
  unfold total
  congr 1
  apply map_congr_left
  intro key' hkey'
  have hne : key' ≠ key := fun heq => hkey (heq ▸ hkey')
  rw [update_of_ne hne]

theorem total_cons (hkey : key ∉ keys) :
    total f (update nodeOf key (some node)) (key :: keys) = f node + total f nodeOf keys := by
  rw [← total_update_of_notMem f (some node) hkey]
  unfold total
  rw [map_cons, update_self]
  rfl

theorem total_erase (x : Option S3FIFONode) (hnd : keys.Nodup) (hkey : key ∈ keys) (hno : nodeOf key = some node) :
    total f nodeOf keys = f node + total f (update nodeOf key x) (keys.erase key) := by
  rw [total_update_of_notMem f x hnd.not_mem_erase]
  unfold total
  rw [((perm_cons_erase hkey).map _).sum_eq, map_cons, hno]
  rfl

omit [DecidableEq K] in
theorem total_le (bound : Nat) (hle : ∀ key ∈ keys, ∀ node, nodeOf key = some node → f node ≤ bound) :
    total f nodeOf keys ≤ bound * keys.length := by
  induction keys with
  | nil => exact le_refl _
  | cons key keys ih =>
    have hrs := ih fun key' hkey' => hle key' (mem_cons_of_mem _ hkey')
    have hfr : (nodeOf key).elim 0 f ≤ bound := by
      cases hnd : nodeOf key with
      | none => exact Nat.zero_le _
      | some node => exact hle key mem_cons_self node hnd
    unfold total at hrs ⊢
    rw [map_cons, sum_cons, length_cons, Nat.mul_succ]
    omega

section

variable (h : Linked nodeOf queue)
include h

theorem Linked.detach (hnd : nodeOf key = some node) : Linked (update nodeOf key none)
      (update queue node.place.kind ((queue node.place.kind).erase key node.nbytes)) := by
  have hkey : ∀ kind, key ∈ (queue kind).keys ↔ kind = node.place.kind := by
    intro kind
    rw [h.mem, hnd]
    simp [eq_comm]
  constructor
  · intro kind key'
    by_cases hkn : kind = node.place.kind
    · subst hkn
      rw [update_self]
      change key' ∈ (queue _).keys.erase key ↔ _
      rw [(h.nodup _).mem_erase_iff, h.mem]
      by_cases hkey' : key' = key
      · subst hkey'
        simp
      · simp [hkey']
    · rw [update_of_ne hkn, h.mem]
      by_cases hkey' : key' = key
      · subst hkey'
        simp [hnd, Ne.symm hkn]
      · simp [hkey']
  all_goals
    intro kind
    by_cases hkn : kind = node.place.kind
    · subst hkn
      rw [update_self]
      have hmem := (hkey node.place.kind).2 rfl
      first
      | exact (h.nodup _).erase _
      | change (queue _).len - 1 = (((queue _).keys.erase key).length : Int)
        rw [h.len, length_erase_of_mem hmem]
        have := length_pos_of_mem hmem
        omega
      | change (queue _).sizeNbytes - node.nbytes = (total _ _ ((queue _).keys.erase key) : Int)
        rw [h.bytes, total_erase _ none (h.nodup _) hmem hnd]
        omega
    · rw [update_of_ne hkn]
      first
      | exact h.nodup kind
      | exact h.len kind
      | rw [total_update_of_notMem _ _ fun hmem => hkn ((hkey kind).1 hmem)]
        exact h.bytes kind

theorem Linked.attach (hnn : nodeOf key = none) (node : S3FIFONode) :
    Linked (update nodeOf key (some node))
      (update queue node.place.kind ((queue node.place.kind).append key node.nbytes)) := by
  have hfr : ∀ kind, key ∉ (queue kind).keys := by
    intro kind hmem
    obtain ⟨node, hnd, -⟩ := (h.mem kind key).1 hmem
    rw [hnn] at hnd
    cases hnd
  constructor
  · intro kind key'
    by_cases hkn : kind = node.place.kind
    · subst hkn
      rw [update_self]
      change key' ∈ key :: (queue _).keys ↔ _
      rw [mem_cons, h.mem]
      by_cases hkey' : key' = key
      · subst hkey'
        simp
      · simp [hkey']
    · rw [update_of_ne hkn, h.mem]
      by_cases hkey' : key' = key
      · subst hkey'
        simp [hnn, Ne.symm hkn]
      · simp [hkey']
  all_goals
    intro kind
    by_cases hkn : kind = node.place.kind
    · subst hkn
      rw [update_self]
      first
      | exact nodup_cons.2 ⟨hfr _, h.nodup _⟩
      | change (queue _).len + 1 = ((key :: (queue _).keys).length : Int)
        rw [h.len]
        rfl
      | change (queue _).sizeNbytes + node.nbytes = (total _ _ (key :: (queue _).keys) : Int)
        rw [h.bytes, total_cons _ (hfr _)]
        omega
    · rw [update_of_ne hkn]
      first
      | exact h.nodup kind
      | exact h.len kind
      | rw [total_update_of_notMem _ _ (hfr kind)]
        exact h.bytes kind

theorem Linked.reset (hnd : nodeOf key = some node)
    (hkn : node'.place.kind = node.place.kind) (hnb : node'.nbytes = node.nbytes) :
    Linked (update nodeOf key (some node')) queue where
  nodup := h.nodup
  len := h.len
  mem kind key' := by
    rw [h.mem]
    by_cases hkey' : key' = key
    · subst hkey'
      simp [hnd, hkn]
    · simp [hkey']
  bytes kind := by
    rw [h.bytes]
    unfold total
    congr 2
    apply map_congr_left
    intro key' _
    by_cases hkey' : key' = key
    · subst hkey'
      rw [update_self, hnd]
      exact hnb.symm
    · rw [update_of_ne hkey']

end

/-! ## The moves of the policy -/

def nodes (p : S3FIFO K) (key : K) : Option S3FIFONode := p.hashmap.lookup key

variable {p : S3FIFO K}

section

variable (p : S3FIFO K)

section

variable (key : K)

section

variable (node : S3FIFONode)

theorem queue_unlink : (p.unlink key node).queue =
      update p.queue node.place.kind ((p.queue node.place.kind).erase key node.nbytes) := by
  obtain ⟨place, hotness, nbytes⟩ := node
  funext kind
  cases place <;> cases kind <;> rfl

omit [DecidableEq K] in
theorem queue_link : (p.link key node).queue =
      update p.queue node.place.kind ((p.queue node.place.kind).append key node.nbytes) := by
  obtain ⟨place, hotness, nbytes⟩ := node
  funext kind
  cases place <;> cases kind <;> rfl

@[simp] theorem nodes_unlink : (p.unlink key node).nodes = p.nodes := by
  unfold nodes
  rw [unlink_hashmap]

@[simp] theorem nodes_link : (p.link key node).nodes = p.nodes := by
  unfold nodes
  rw [link_hashmap]

theorem nodes_setNode : (p.setNode key node).nodes = update p.nodes key (some node) := by
  funext key'
  unfold nodes setNode
  rw [KeyMap.lookup_insert_eq, update_apply]

end

theorem nodes_dropNode : (p.dropNode key).nodes = update p.nodes key none := by
  funext key'
  unfold nodes dropNode
  rw [KeyMap.lookup_erase_eq, update_apply]

theorem nodes_move (node node' : S3FIFONode) : (p.move key node node').nodes = update p.nodes key (some node') := by
  unfold move
  rw [nodes_link, nodes_setNode, nodes_unlink]

theorem nodes_removed (node : S3FIFONode) : ((p.unlink key node).dropNode key).nodes = update p.nodes key none := by
  rw [nodes_dropNode, nodes_unlink]

theorem nodes_inserted (node : S3FIFONode) :
    ((p.setNode key node).link key node).nodes = update p.nodes key (some node) := by
  rw [nodes_link, nodes_setNode]

theorem queue_move (node node' : S3FIFONode) : (p.move key node node').queue =
      update (p.unlink key node).queue node'.place.kind
        (((p.unlink key node).queue node'.place.kind).append key node'.nbytes) := by
  unfold move
  rw [queue_link]
  rfl

end

end

abbrev IsLinked (p : S3FIFO K) : Prop := Linked p.nodes p.queue

section

variable (h : p.IsLinked)
include h

variable (hnd : p.nodes key = some node)
include hnd

theorem IsLinked.removed :
    ((p.unlink key node).dropNode key).IsLinked := by
  unfold IsLinked
  rw [nodes_removed]
  change Linked _ (p.unlink key node).queue
  rw [queue_unlink]
  exact Linked.detach h hnd

theorem IsLinked.move (node' : S3FIFONode) :
    (p.move key node node').IsLinked := by
  have hdt := (Linked.detach h hnd).attach (update_self ..) node'
  rw [update_idem] at hdt
  unfold IsLinked
  rw [nodes_move, queue_move, queue_unlink]
  exact hdt

omit hnd in
theorem IsLinked.inserted (hnn : p.nodes key = none) (node : S3FIFONode) :
    ((p.setNode key node).link key node).IsLinked := by
  unfold IsLinked
  rw [nodes_inserted, queue_link]
  exact Linked.attach h hnn node

theorem IsLinked.heat : (p.setNode key node.heat).IsLinked := by
  unfold IsLinked
  rw [nodes_setNode]
  exact Linked.reset h hnd rfl rfl

end

omit [DecidableEq K] in
theorem sameLimits_unlink [DecidableEq K] (p : S3FIFO K) (key : K) (node : S3FIFONode) :
    SameLimits p (p.unlink key node) := by
  unfold unlink
  split <;> exact ⟨rfl, rfl⟩

omit [DecidableEq K] in
theorem sameLimits_link (p : S3FIFO K) (key : K) (node : S3FIFONode) : SameLimits p (p.link key node) := by
  unfold link
  split <;> exact ⟨rfl, rfl⟩

theorem sameLimits_move (p : S3FIFO K) (key : K) (node node' : S3FIFONode) : SameLimits p (p.move key node node') := by
  have hset : SameLimits (p.unlink key node) ((p.unlink key node).setNode key node') := ⟨rfl, rfl⟩
  exact ((sameLimits_unlink p key node).trans hset).trans (sameLimits_link _ key node')

theorem sameLimits_removed (p : S3FIFO K) (key : K) (node : S3FIFONode) :
    SameLimits p ((p.unlink key node).dropNode key) :=
  (sameLimits_unlink p key node).trans ⟨rfl, rfl⟩

def sum (f : S3FIFONode → Nat) (p : S3FIFO K) (kind : Kind) : Nat := total f p.nodes (p.queue kind).keys

theorem sum_removed (h : p.IsLinked) (hnd : p.nodes key = some node) (kind : Kind) :
    p.sum f kind = (if kind = node.place.kind then f node else 0) + ((p.unlink key node).dropNode key).sum f kind := by
  unfold sum
  rw [nodes_removed]
  change _ = _ + total f _ ((p.unlink key node).queue kind).keys
  rw [queue_unlink]
  have hkey : key ∈ (p.queue kind).keys ↔ kind = node.place.kind := by
    rw [h.mem, hnd]
    simp [eq_comm]
  split
  · rename_i hkn
    rw [hkn, update_self]
    exact total_erase f none (h.nodup _) (hkn ▸ hkey.2 hkn) hnd
  · rename_i hkn
    rw [update_of_ne hkn, total_update_of_notMem f none fun hmem => hkn (hkey.1 hmem), zero_add]

theorem sum_move (h : p.IsLinked) (hnd : p.nodes key = some node) (node' : S3FIFONode) (kind : Kind) :
    (p.move key node node').sum f kind + (if kind = node.place.kind then f node else 0) =
      p.sum f kind + if kind = node'.place.kind then f node' else 0 := by
  have hfr : key ∉ ((p.unlink key node).queue kind).keys := by
    intro hmem
    have hrm := h.removed hnd
    obtain ⟨node'', hnd'', -⟩ := (hrm.mem kind key).1 hmem
    rw [nodes_removed, update_self] at hnd''
    cases hnd''
  have hmv : (p.move key node node').sum f kind =
      (if kind = node'.place.kind then f node' else 0) + ((p.unlink key node).dropNode key).sum f kind := by
    unfold sum
    have hid : update p.nodes key (some node') =
        update (update p.nodes key none) key (some node') := (update_idem ..).symm
    rw [nodes_move, nodes_removed, queue_move, hid]
    change _ = _ + total f _ ((p.unlink key node).queue kind).keys
    split
    · rename_i hkn
      subst hkn
      rw [update_self]
      exact total_cons f hfr
    · rename_i hkn
      rw [update_of_ne hkn, total_update_of_notMem f (some node') hfr, zero_add]
  rw [sum_removed f h hnd kind]
  omega

end S3FIFO

open Place S3FIFO

variable {K D : Type} [DecidableEq K] (callbacks : Callbacks)

namespace World

variable (w : World D)

theorem size_refDown (mr : Nat) : (w.refDown mr).heap.size = w.heap.size := by
  change (w.heap.down mr).size = w.heap.size
  unfold RefHeap.down
  split
  · rfl
  · split <;> rfl

theorem size_release (mrs : List Nat) : (w.release mrs).heap.size = w.heap.size := by
  induction mrs generalizing w with
  | nil => rfl
  | cons mr mrs ih => exact (ih (w.refDown mr)).trans (w.size_refDown mr)

end World

theorem Callbacks.size_ingest (w : World D) (mr : Nat) : (callbacks.ingest w mr).heap.size = w.heap.size := by
  unfold Callbacks.ingest World.l2Put
  split
  · exact (w.find _).size_release [mr]
  · unfold World.l2PutAsync
    dsimp only
    split <;> rfl

theorem Callbacks.size_notify (installed : Bool) (w : World D) (mr : Nat) :
    (callbacks.notify installed w mr).heap.size = w.heap.size := by
  unfold Callbacks.notify
  split
  · exact callbacks.size_ingest _ mr
  · rfl

namespace S3FIFO

theorem size_handOver (w : World D) (value : Nat) : (handOver callbacks w value).heap.size = w.heap.size := by
  unfold handOver
  split
  · exact callbacks.size_ingest w value
  · exact w.size_refDown value

/-! ## Sound states -/

/-- A node that holds a region has counted its bytes, and its hotness is in range. -/
def Fits (w : World D) (node : S3FIFONode) : Prop :=
  ∀ value, node.place.value = some value → 0 ≤ node.hotness ∧ node.hotness ≤ 3 ∧ node.nbytes = w.heap.size value

structure Sound (p : S3FIFO K) (w : World D) : Prop where
  linked : p.IsLinked
  fits : ∀ key node, p.nodes key = some node → Fits w node
  small_nonneg : 0 ≤ p.smallFifoCapacityNbytes
  small_le : p.smallFifoCapacityNbytes ≤ p.capacityNbytes

variable {callbacks} {p p' p'' : S3FIFO K} {w w' w'' : World D} {key : K} {node node' : S3FIFONode}

section

variable (h : Sound p w)
include h

theorem Sound.main_nonneg : 0 ≤ p.mainFifoCapacityNbytes := by
  unfold mainFifoCapacityNbytes
  have := h.small_le
  omega

theorem Sound.world (hsz : w'.heap.size = w.heap.size) : Sound p w' where
  linked := h.linked
  small_nonneg := h.small_nonneg
  small_le := h.small_le
  fits key node hnd value hvl := by
    rw [hsz]
    exact h.fits key node hnd value hvl

theorem Sound.update (hln : p'.IsLinked) (hlm : SameLimits p p') {x : Option S3FIFONode}
    (hns : p'.nodes = update p.nodes key x) (hft : ∀ node, x = some node → Fits w node) : Sound p' w where
  linked := hln
  small_nonneg := hlm.small ▸ h.small_nonneg
  small_le := by
    rw [hlm.small, hlm.capacity]
    exact h.small_le
  fits key' node hnd := by
    rw [hns, update_apply] at hnd
    split at hnd
    · exact hft node hnd
    · exact h.fits key' node hnd

theorem Sound.move (hnd : p.nodes key = some node) (node' : S3FIFONode) (hft : Fits w node') :
    Sound (p.move key node node') w :=
  h.update (h.linked.move hnd node') (sameLimits_move p key node node') (nodes_move p key node node')
    fun _ hx => Option.some.inj hx ▸ hft

theorem Sound.removed (hnd : p.nodes key = some node) : Sound ((p.unlink key node).dropNode key) w :=
  h.update (h.linked.removed hnd) (sameLimits_removed p key node) (nodes_removed p key node)
    fun _ hx => by cases hx

end

/-! ## What leaves the cache -/

variable (callbacks) in
structure HandsOver (p : S3FIFO K) (w : World D) (gone : List (K × Nat)) (p' : S3FIFO K) (w' : World D) : Prop where
  nodup : (gone.map Prod.fst).Nodup
  was : ∀ entry ∈ gone, p.find entry.1 = some entry.2
  find : ∀ key, p'.find key = if key ∈ gone.map Prod.fst then none else p.find key
  world : w' = gone.foldl (fun w entry => handOver callbacks w entry.2) w

theorem HandsOver.none (hfn : ∀ key, p'.find key = p.find key) : HandsOver callbacks p w [] p' w where
  nodup := nodup_nil
  was := by simp
  find key := by simpa using hfn key
  world := rfl

theorem HandsOver.trans {gone gone' : List (K × Nat)} (h : HandsOver callbacks p w gone p' w')
    (h' : HandsOver callbacks p' w' gone' p'' w'') : HandsOver callbacks p w (gone ++ gone') p'' w'' where
  world := by rw [foldl_append, ← h.world, h'.world]
  nodup := by
    rw [map_append]
    refine h.nodup.append h'.nodup fun key hkey hkey' => ?_
    obtain ⟨entry, hen, rfl⟩ := mem_map.1 hkey'
    have hwas := h'.was entry hen
    rw [h.find, if_pos hkey] at hwas
    cases hwas
  was entry hen := by
    rcases mem_append.1 hen with hfr | hsc
    · exact h.was entry hfr
    have hwas := h'.was entry hsc
    rw [h.find] at hwas
    split at hwas
    · cases hwas
    · exact hwas
  find key := by
    rw [h'.find, h.find]
    split_ifs <;> simp_all

theorem find_update (hnd : p'.nodes = update p.nodes key (some node')) (key' : K) :
    p'.find key' = if key' = key then node'.place.value else p.find key' := by
  change (p'.nodes key').bind _ = _
  rw [hnd, update_apply]
  split <;> rfl

theorem find_erase (hnd : p'.nodes = update p.nodes key none) (key' : K) :
    p'.find key' = if key' = key then none else p.find key' := by
  change (p'.nodes key').bind _ = _
  rw [hnd, update_apply]
  split <;> rfl

theorem find_of_node (hnd : p.nodes key = some node) : p.find key = node.place.value := find_of_lookup hnd

theorem handsOver_one {value : Nat} (hfn : p.find key = some value)
    (hfn' : ∀ key', p'.find key' = if key' = key then none else p.find key') :
    HandsOver callbacks p w [(key, value)] p' (handOver callbacks w value) where
  nodup := by simp
  was entry hen := by
    rw [mem_singleton.1 hen]
    exact hfn
  find key' := by simpa using hfn' key'
  world := rfl

variable (callbacks) in
structure Evicts (p : S3FIFO K) (w : World D) (p' : S3FIFO K) (w' : World D) : Prop where
  sound : Sound p' w'
  limits : SameLimits p p'
  handsOver : ∃ gone, HandsOver callbacks p w gone p' w'

theorem Evicts.refl (h : Sound p w) : Evicts callbacks p w p w :=
  ⟨h, .refl p, [], .none fun _ => rfl⟩

theorem Evicts.trans (h : Evicts callbacks p w p' w') (h' : Evicts callbacks p' w' p'' w'') :
    Evicts callbacks p w p'' w'' := by
  obtain ⟨gone, hgn⟩ := h.handsOver
  obtain ⟨gone', hgn'⟩ := h'.handsOver
  exact ⟨h'.sound, h.limits.trans h'.limits, gone ++ gone', hgn.trans hgn'⟩

theorem Sound.evicts_move (h : Sound p w) (hnd : p.nodes key = some node) (node' : S3FIFONode)
    (hft : Fits w node') (hvl : node'.place.value = node.place.value) :
    Evicts callbacks p w (p.move key node node') w := by
  refine ⟨h.move hnd node' hft, sameLimits_move p key node node', [], .none fun key' => ?_⟩
  rw [find_update (nodes_move p key node node')]
  split
  · rename_i heq
    subst heq
    rw [hvl, find_of_node hnd]
  · rfl

/-! ## The main queue -/

theorem IsLinked.last (h : p.IsLinked) (kind : Kind) (hne : (p.queue kind).keys ≠ []) :
    ∃ key node, (p.queue kind).keys.getLast?.bind (fun key => (p.hashmap.lookup key).map (key, ·)) =
        some (key, node) ∧ p.nodes key = some node ∧ node.place.kind = kind := by
  have hls := getLast?_eq_some_getLast hne
  obtain ⟨node, hnd, hkn⟩ := (h.mem kind _).1 (getLast_mem hne)
  refine ⟨_, node, ?_, hnd, hkn⟩
  rw [hls]
  change (p.nodes _).map _ = _
  rw [hnd]
  rfl

/-- How often a node of the main queue can still be the one that a turn looks at. -/
def turnsOf (node : S3FIFONode) : Nat := node.hotness.toNat + 1

theorem queue_move_of_ne {kind : Kind} (hkn : kind ≠ node.place.kind) (hkn' : kind ≠ node'.place.kind) :
    (p.move key node node').queue kind = p.queue kind := by
  rw [queue_move, update_of_ne hkn', queue_unlink, update_of_ne hkn]

theorem queue_removed_of_ne {kind : Kind} (hkn : kind ≠ node.place.kind) :
    ((p.unlink key node).dropNode key).queue kind = p.queue kind := by
  change (p.unlink key node).queue kind = _
  rw [queue_unlink, update_of_ne hkn]

variable (callbacks)

theorem Sound.evictOneFromMainFifo (h : Sound p w) (hne : p.mainFifo.keys ≠ []) :
    ∃ p' w', p.evictOneFromMainFifo callbacks w = (p', w') ∧ Evicts callbacks p w p' w' ∧
      p'.sum turnsOf .main < p.sum turnsOf .main ∧ ∀ kind ≠ .main, p'.queue kind = p.queue kind := by
  obtain ⟨key, ⟨place, hotness, nbytes⟩, hls, hnd, hkn⟩ := h.linked.last .main hne
  cases place with
  | main value =>
    obtain ⟨hcl, hhot, hnb⟩ := h.fits key _ hnd value rfl
    dsimp only at hcl hhot hnb
    unfold S3FIFO.evictOneFromMainFifo
    change p.mainFifo.keys.getLast?.bind _ = _ at hls
    rw [hls]
    dsimp only
    split
    · refine ⟨_, _, rfl, h.evicts_move hnd _ ?_ rfl, ?_, fun kind hne => queue_move_of_ne hne hne⟩
      · rintro _ ⟨⟩
        exact ⟨by dsimp only; omega, by dsimp only; omega, hnb⟩
      · have hsum := sum_move turnsOf h.linked hnd ⟨.main value, hotness - 1, nbytes⟩ .main
        simp only [kind, if_true, turnsOf] at hsum
        omega
    · refine ⟨_, _, rfl, ?_, ?_, fun kind hne => queue_removed_of_ne hne⟩
      · exact ⟨(h.removed hnd).world (size_handOver callbacks w value), sameLimits_removed p key _, _,
          handsOver_one (find_of_node hnd) (find_erase (nodes_removed p key _))⟩
      · have hsum := sum_removed turnsOf h.linked hnd .main
        simp only [kind, if_true, turnsOf] at hsum
        omega
  | small value | ghost => cases hkn

omit [DecidableEq K] in
theorem keys_ne_nil_of_sizeNbytes {nodeOf : K → Option S3FIFONode} {queue : Kind → S3FIFOQueue K}
    (h : Linked nodeOf queue) (kind : Kind) (hpos : 0 < (queue kind).sizeNbytes) : (queue kind).keys ≠ [] := by
  intro hnil
  rw [h.bytes, hnil] at hpos
  exact absurd hpos (by simp [total])

theorem Sound.trimMain {fuel : Nat} (h : Sound p w) (hfl : p.sum turnsOf .main < fuel) :
    ∃ p' w', Evicts callbacks p w p' w' ∧ p'.sum turnsOf .main ≤ p.sum turnsOf .main ∧
      (∀ kind ≠ .main, p'.queue kind = p.queue kind) ∧ p'.mainFifo.sizeNbytes ≤ p.mainFifoCapacityNbytes ∧
      ∀ extra, trimMain callbacks (fuel + extra) p w = (p', w') := by
  induction fuel generalizing p w with
  | zero => omega
  | succ fuel ih =>
    have hun : ∀ extra, trimMain callbacks (fuel + 1 + extra) p w =
        if p.mainFifo.sizeNbytes > p.mainFifoCapacityNbytes then
          trimMain callbacks (fuel + extra) (p.evictOneFromMainFifo callbacks w).1
            (p.evictOneFromMainFifo callbacks w).2
        else (p, w) := by
      intro extra
      rw [Nat.add_right_comm]
      rfl
    by_cases hlr : p.mainFifo.sizeNbytes > p.mainFifoCapacityNbytes
    · have hne : p.mainFifo.keys ≠ [] :=
        keys_ne_nil_of_sizeNbytes h.linked .main (lt_of_le_of_lt h.main_nonneg hlr)
      obtain ⟨p₁, w₁, htr, hev, hls, hot⟩ := h.evictOneFromMainFifo callbacks hne
      obtain ⟨p₂, w₂, hev₂, hls₂, hot₂, hcap, hex⟩ := ih hev.sound (by omega)
      have hall : ∀ extra, trimMain callbacks (fuel + 1 + extra) p w = (p₂, w₂) := by
        intro extra
        rw [hun, if_pos hlr, htr]
        exact hex extra
      refine ⟨p₂, w₂, hev.trans hev₂, by omega, ?_, ?_, hall⟩
      · exact fun kind hne => (hot₂ kind hne).trans (hot kind hne)
      · rw [← hev.limits.main]
        exact hcap
    · have hall : ∀ extra, trimMain callbacks (fuel + 1 + extra) p w = (p, w) := by
        intro extra
        rw [hun, if_neg hlr]
      exact ⟨p, w, .refl h, le_refl _, fun _ _ => rfl, by omega, hall⟩

def turns (p : S3FIFO K) : Nat := 2 * p.smallFifo.keys.length + p.sum turnsOf .main

section

variable (h : Sound p w)
include h

theorem Sound.evictOneFromGhostFifo (hne : p.ghostFifo.keys ≠ []) : Evicts callbacks p w p.evictOneFromGhostFifo w ∧
      p.evictOneFromGhostFifo.ghostFifo.keys.length < p.ghostFifo.keys.length ∧
      p.evictOneFromGhostFifo.turns = p.turns := by
  obtain ⟨key, ⟨place, hotness, nbytes⟩, hls, hnd, hkn⟩ := h.linked.last .ghost hne
  cases place with
  | ghost =>
    unfold S3FIFO.evictOneFromGhostFifo
    change p.ghostFifo.keys.getLast?.bind _ = _ at hls
    rw [hls]
    refine ⟨⟨h.removed hnd, sameLimits_removed p key _, [], .none fun key' => ?_⟩, ?_, ?_⟩
    · rw [find_erase (nodes_removed p key _)]
      split
      · rename_i heq
        rw [heq, find_of_node hnd]
        rfl
      · rfl
    · have hmem : key ∈ p.ghostFifo.keys := (h.linked.mem .ghost key).2 ⟨_, hnd, rfl⟩
      change (p.ghostFifo.keys.erase key).length < _
      rw [length_erase_of_mem hmem]
      have := length_pos_of_mem hmem
      omega
    · have hsum := sum_removed turnsOf h.linked hnd .main
      simp only [kind, reduceCtorEq, if_false, zero_add] at hsum
      unfold turns
      rw [hsum]
      rfl
  | small value | main value => cases hkn

theorem Sound.trimGhost {fuel : Nat} (hfl : p.ghostFifo.keys.length < fuel) :
    ∃ p', Evicts callbacks p w p' w ∧ p'.turns = p.turns ∧
      p'.ghostFifo.sizeNbytes ≤ p.mainFifoCapacityNbytes ∧ ∀ extra, trimGhost (fuel + extra) p = p' := by
  induction fuel generalizing p with
  | zero => omega
  | succ fuel ih =>
    have hun : ∀ extra, trimGhost (fuel + 1 + extra) p = if p.ghostFifo.sizeNbytes > p.mainFifoCapacityNbytes then
          trimGhost (fuel + extra) p.evictOneFromGhostFifo
        else p := by
      intro extra
      rw [Nat.add_right_comm]
      rfl
    by_cases hlr : p.ghostFifo.sizeNbytes > p.mainFifoCapacityNbytes
    · have hne : p.ghostFifo.keys ≠ [] :=
        keys_ne_nil_of_sizeNbytes h.linked .ghost (lt_of_le_of_lt h.main_nonneg hlr)
      obtain ⟨hev, hls, htr⟩ := h.evictOneFromGhostFifo callbacks hne
      obtain ⟨p₂, hev₂, htr₂, hcap, hex⟩ := ih hev.sound (by omega)
      have hall : ∀ extra, trimGhost (fuel + 1 + extra) p = p₂ := by
        intro extra
        rw [hun, if_pos hlr]
        exact hex extra
      refine ⟨p₂, hev.trans hev₂, htr₂.trans htr, ?_, hall⟩
      rw [← hev.limits.main]
      exact hcap
    · have hall : ∀ extra, trimGhost (fuel + 1 + extra) p = p := by
        intro extra
        rw [hun, if_neg hlr]
      exact ⟨p, .refl h, rfl, by omega, hall⟩

theorem Sound.sum_turnsOf_le : p.sum turnsOf .main ≤ 4 * p.mainFifo.keys.length := by
  apply total_le
  intro key hkey node hnd
  obtain ⟨node', hnd', hkn⟩ := (h.linked.mem .main key).1 hkey
  obtain rfl : node = node' := Option.some.inj (hnd.symm.trans hnd')
  obtain ⟨place, hotness, nbytes⟩ := node
  cases place with
  | main value =>
    have := h.fits key _ hnd value rfl
    unfold turnsOf
    omega
  | small value | ghost => cases hkn

omit h in
theorem IsLinked.length_smallFifo_move {value : Nat} (h : p.IsLinked) (hnd : p.nodes key = some node)
    (hpl : node.place = .small value) (node' : S3FIFONode) (hpl' : node'.place.kind ≠ .small) :
    (p.move key node node').smallFifo.keys.length + 1 = p.smallFifo.keys.length := by
  have hkn : node.place.kind = .small := by rw [hpl]; rfl
  have hmem : key ∈ p.smallFifo.keys := (h.mem .small key).2 ⟨node, hnd, hkn⟩
  have hqu : (p.move key node node').queue .small = p.smallFifo.erase key node.nbytes := by
    rw [queue_move, update_of_ne hpl'.symm, queue_unlink, hkn]
    rfl
  change ((p.move key node node').queue .small).keys.length + 1 = _
  rw [hqu]
  change (p.smallFifo.keys.erase key).length + 1 = _
  rw [length_erase_of_mem hmem]
  have := length_pos_of_mem hmem
  omega

section

variable (hgh : p.ghostFifo.sizeNbytes ≤ p.mainFifoCapacityNbytes)
include hgh

theorem Sound.evictOneFromSmallFifo (hne : p.smallFifo.keys ≠ []) :
    ∃ p' w', p.evictOneFromSmallFifo callbacks w = (p', w') ∧ Evicts callbacks p w p' w' ∧ p'.turns < p.turns ∧
      p'.ghostFifo.sizeNbytes ≤ p.mainFifoCapacityNbytes := by
  obtain ⟨key, ⟨place, hotness, nbytes⟩, hls, hnd, hkn⟩ := h.linked.last .small hne
  cases place with
  | small value =>
    obtain ⟨-, -, hnb⟩ := h.fits key _ hnd value rfl
    unfold S3FIFO.evictOneFromSmallFifo
    change p.smallFifo.keys.getLast?.bind _ = _ at hls
    rw [hls]
    dsimp only
    split
    · -- The node is promoted.
      have hmv : Evicts callbacks p w _ w := h.evicts_move hnd ⟨.main value, 0, nbytes⟩
        (by rintro _ ⟨⟩; exact ⟨le_refl 0, by dsimp only; omega, hnb⟩) rfl
      have hsl := h.linked.length_smallFifo_move hnd rfl ⟨.main value, 0, nbytes⟩ (by simp [kind])
      have hsum := sum_move turnsOf h.linked hnd ⟨.main value, 0, nbytes⟩ .main
      simp only [kind, if_true, turnsOf] at hsum
      obtain ⟨p', w', hev, hle, hot, -, htr⟩ := hmv.sound.trimMain callbacks
        (Nat.lt_succ_of_le hmv.sound.sum_turnsOf_le)
      refine ⟨p', w', htr 0, hmv.trans hev, ?_, ?_⟩
      · unfold turns
        have hsm : p'.smallFifo = _ := hot .small (by simp)
        rw [hsm]
        change 2 * (p.move key _ _).smallFifo.keys.length + _ < _
        omega
      · have hsm : p'.ghostFifo = _ :=
          (hot .ghost (by simp)).trans (queue_move_of_ne (by simp [kind]) (by simp [kind]))
        rw [hsm]
        exact hgh
    · -- The node becomes a ghost.
      have hmv := h.move hnd ⟨.ghost, -1, nbytes⟩ (by rintro _ ⟨⟩)
      have hwr := hmv.world (size_handOver callbacks w value)
      have hsl := h.linked.length_smallFifo_move hnd rfl ⟨.ghost, -1, nbytes⟩ (by simp [kind])
      have hsum := sum_move turnsOf h.linked hnd ⟨.ghost, -1, nbytes⟩ .main
      simp only [kind, reduceCtorEq, if_false] at hsum
      obtain ⟨p', hev, htn, hcap, htr⟩ := hwr.trimGhost callbacks (Nat.lt_succ_self _)
      have hgs : Evicts callbacks p w _ (handOver callbacks w value) :=
        ⟨hwr, sameLimits_move p key _ _, [(key, value)],
          handsOver_one (find_of_node hnd) (find_update (nodes_move p key _ _))⟩
      refine ⟨p', _, congrArg (·, _) (htr 0), hgs.trans hev, ?_, ?_⟩
      · rw [htn]
        unfold turns
        omega
      · exact hcap
  | main value | ghost => cases hkn

theorem Sound.turn {target : Int} (htg : 0 ≤ target) (hlr : p.nbytes > target) :
    ∃ p' w', (if p.smallFifo.sizeNbytes > p.smallFifoCapacityNbytes ∨ p.mainFifo.len = 0 then
          p.evictOneFromSmallFifo callbacks w
        else p.evictOneFromMainFifo callbacks w) = (p', w') ∧ Evicts callbacks p w p' w' ∧ p'.turns < p.turns ∧
      p'.ghostFifo.sizeNbytes ≤ p.mainFifoCapacityNbytes := by
  have hlen : p.mainFifo.len = p.mainFifo.keys.length := h.linked.len .main
  unfold nbytes at hlr
  split
  · rename_i hsm
    refine h.evictOneFromSmallFifo callbacks hgh (keys_ne_nil_of_sizeNbytes h.linked .small ?_)
    change 0 < p.smallFifo.sizeNbytes
    rcases hsm with hsm | hem
    · exact lt_of_le_of_lt h.small_nonneg hsm
    have hnil : p.mainFifo.keys = [] := length_eq_zero_iff.1 (by omega)
    have hzr : p.mainFifo.sizeNbytes = total S3FIFONode.nbytes p.nodes p.mainFifo.keys := h.linked.bytes .main
    rw [hnil] at hzr
    simp only [total, map_nil, sum_nil] at hzr
    omega
  rename_i hmn
  have hne : p.mainFifo.keys ≠ [] := by
    intro hnil
    rw [hnil] at hlen
    exact hmn (.inr hlen)
  obtain ⟨p', w', htr, hev, hls, hot⟩ := h.evictOneFromMainFifo callbacks hne
  have hsm : p'.smallFifo = p.smallFifo := hot .small (by simp)
  have hgs : p'.ghostFifo = p.ghostFifo := hot .ghost (by simp)
  refine ⟨p', w', htr, hev, ?_, hgs ▸ hgh⟩
  unfold turns
  rw [hsm]
  omega

theorem Sound.evictLoop {target : Int} (htr : 0 ≤ target) (fuel : Nat) :
    ∃ p' w', evictLoop callbacks target fuel p w = (p', w') ∧ Evicts callbacks p w p' w' ∧
      p'.ghostFifo.sizeNbytes ≤ p.mainFifoCapacityNbytes ∧ (p.turns < fuel → p'.nbytes ≤ target ∧
        ∀ extra, evictLoop callbacks target (fuel + extra) p w = (p', w')) := by
  induction fuel generalizing p w with
  | zero => exact ⟨p, w, rfl, .refl h, hgh, fun hfl => absurd hfl (Nat.not_lt_zero _)⟩
  | succ fuel ih =>
    have hun : ∀ extra, evictLoop callbacks target (fuel + 1 + extra) p w = if p.nbytes > target then
          let evicted :=
            if p.smallFifo.sizeNbytes > p.smallFifoCapacityNbytes ∨ p.mainFifo.len = 0 then
              p.evictOneFromSmallFifo callbacks w
            else p.evictOneFromMainFifo callbacks w
          evictLoop callbacks target (fuel + extra) evicted.1 evicted.2
        else (p, w) := by
      intro extra
      rw [Nat.add_right_comm]
      rfl
    by_cases hlr : p.nbytes > target
    · obtain ⟨p₁, w₁, htn, hev, hls, hgh₁⟩ := h.turn callbacks hgh htr hlr
      have hall : ∀ extra, evictLoop callbacks target (fuel + 1 + extra) p w =
          evictLoop callbacks target (fuel + extra) p₁ w₁ := by
        intro extra
        rw [hun, if_pos hlr, htn]
      rw [← hev.limits.main] at hgh₁ ⊢
      obtain ⟨p₂, w₂, hlp, hev₂, hgh₂, hen⟩ := ih hev.sound hgh₁
      refine ⟨p₂, w₂, (hall 0).trans hlp, hev.trans hev₂, hgh₂, fun hfl => ?_⟩
      obtain ⟨hnb, hex⟩ := hen (by omega)
      exact ⟨hnb, fun extra => (hall extra).trans (hex extra)⟩
    · have hall : ∀ extra, evictLoop callbacks target (fuel + 1 + extra) p w = (p, w) := by
        intro extra
        rw [hun, if_neg hlr]
      exact ⟨p, w, hall 0, .refl h, hgh, fun _ => ⟨by omega, hall⟩⟩

end

end

omit [DecidableEq K] in
theorem targetUsage_eq (used cap nbytes : Int) : targetUsage used cap nbytes = max 0 (min used cap - nbytes) := by
  unfold targetUsage
  omega

variable (p w) in
structure Evictable : Prop where
  ghosts : ∀ target ≥ 0, ∀ fuel,
    (S3FIFO.evictLoop callbacks target fuel p w).1.ghostFifo.sizeNbytes ≤ p.mainFifoCapacityNbytes
  leaves : ∀ nbytes, (p.evict callbacks w nbytes).1.nbytes ≤ max 0 (min p.nbytes p.capacityNbytes - nbytes)
  handsOver : ∀ nbytes, ∃ gone, HandsOver callbacks p w gone (p.evict callbacks w nbytes).1 (p.evict callbacks w nbytes).2
  ends : ∀ nbytes extra, S3FIFO.evictLoop callbacks (targetUsage p.nbytes p.capacityNbytes nbytes)
    (4 * (p.smallFifo.keys.length + p.mainFifo.keys.length) + 1 + extra) p w = p.evict callbacks w nbytes
  trims : ∀ target ≥ 0, ∀ fuel extra, ∀ key node, ∀ value,
    (S3FIFO.evictLoop callbacks target fuel p w).1.nodes key = some node → node.place = .small value →
    let (p', w') := S3FIFO.evictLoop callbacks target fuel p w
    let promoted := p'.move key node { node with place := .main value, hotness := 0 }
    let ghosted := p'.move key node { node with place := .ghost, hotness := -1 }
    S3FIFO.trimMain callbacks (4 * promoted.mainFifo.keys.length + 1 + extra) promoted w' =
        S3FIFO.trimMain callbacks (4 * promoted.mainFifo.keys.length + 1) promoted w' ∧
      S3FIFO.trimGhost (ghosted.ghostFifo.keys.length + 1 + extra) ghosted =
        S3FIFO.trimGhost (ghosted.ghostFifo.keys.length + 1) ghosted

theorem Sound.evictable (h : Sound p w) (hgh : p.ghostFifo.sizeNbytes ≤ p.mainFifoCapacityNbytes) :
    Evictable callbacks p w := by
  have htr : ∀ nbytes, 0 ≤ targetUsage p.nbytes p.capacityNbytes nbytes := fun _ => Int.natCast_nonneg _
  have hfl : p.turns < 4 * (p.smallFifo.keys.length + p.mainFifo.keys.length) + 1 := by
    have := h.sum_turnsOf_le
    unfold turns
    omega
  constructor
  · intro target htr fuel
    obtain ⟨p', w', hlp, -, hgh', -⟩ := h.evictLoop callbacks hgh htr fuel
    rw [hlp]
    exact hgh'
  · intro nbytes
    obtain ⟨p', w', hlp, -, -, hen⟩ := h.evictLoop callbacks hgh (htr nbytes) _
    unfold evict
    rw [hlp, ← targetUsage_eq]
    exact (hen hfl).1
  · intro nbytes
    obtain ⟨p', w', hlp, hev, -⟩ := h.evictLoop callbacks hgh (htr nbytes) _
    unfold evict
    rw [hlp]
    exact hev.handsOver
  · intro nbytes extra
    obtain ⟨p', w', hlp, -, -, hen⟩ := h.evictLoop callbacks hgh (htr nbytes)
      (4 * (p.smallFifo.keys.length + p.mainFifo.keys.length) + 1)
    exact ((hen hfl).2 extra).trans hlp.symm
  · intro target htr fuel extra key node value hnd hpl
    obtain ⟨p', w', hlp, hev, -⟩ := h.evictLoop callbacks hgh htr fuel
    rw [hlp] at hnd ⊢
    obtain ⟨-, -, hnb⟩ := hev.sound.fits key node hnd value (by rw [hpl]; rfl)
    constructor
    · have hmv := hev.sound.move hnd { node with place := .main value, hotness := 0 }
        (by rintro _ ⟨⟩; exact ⟨le_refl 0, by dsimp only; omega, hnb⟩)
      obtain ⟨_, _, -, -, -, -, hex⟩ := hmv.trimMain callbacks (Nat.lt_succ_of_le hmv.sum_turnsOf_le)
      exact (hex extra).trans (hex 0).symm
    · have hmv := hev.sound.move hnd { node with place := .ghost, hotness := -1 } (by rintro _ ⟨⟩)
      obtain ⟨_, -, -, -, hex⟩ := hmv.trimGhost callbacks (Nat.lt_succ_self _)
      exact (hex extra).trans (hex 0).symm

end S3FIFO

end Aibrix.KvCache
