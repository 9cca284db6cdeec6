import Mathlib.Data.Rat.Floor
import Aibrix.KvCache.S3FifoEvict

/-! # Every history of S3FIFO

Any calls of the policy, with anything that others do to the regions in between. -/

namespace Aibrix.KvCache

open Lib World Function

namespace S3FIFO

variable {K D : Type} [DecidableEq K] (callbacks : Callbacks)

/-- A new policy, if the parameters pass `_check_params`. -/
def init (K : Type) (capacityNbytes : Nat) (promoThreshold : Int) (capacityRatio : ℚ) : Option (S3FIFO K) :=
  if 1 ≤ promoThreshold ∧ promoThreshold ≤ 3 ∧ 0 < capacityRatio ∧ capacityRatio < 1 then
    some {
      capacityNbytes
      smallToMainPromoThreshold := promoThreshold
      smallFifoCapacityNbytes := (capacityNbytes * capacityRatio).floor }
  else none

inductive Reaches : S3FIFO K → World D → Multiset Nat → (K → Option Nat) → Prop where
  | init {p w others capacityNbytes promoThreshold capacityRatio}
      (hinit : init K capacityNbytes promoThreshold capacityRatio = some p) (hholds : w.Holds others) :
      Reaches p w others fun _ => none
  | put {p w others last} (key : K) (value : Nat) (h : Reaches p w ({value} + others) last) :
      Reaches (p.put callbacks w key value).1 (p.put callbacks w key value).2 others
        (update last key (some value))
  | get {p w others last} (key : K) (h : Reaches p w others last) :
      Reaches (p.get callbacks w key).1 (p.get callbacks w key).2.1
        (others + ↑(p.get callbacks w key).2.2.toList) last
  | delete {p w others last} (key : K) (h : Reaches p w others last) :
      Reaches (p.delete w key).1 (p.delete w key).2 others (update last key none)
  | evict {p w others last} (nbytes : Int) (h : Reaches p w others last) :
      Reaches (p.evict callbacks w nbytes).1 (p.evict callbacks w nbytes).2 others last
  /-- Others take and drop references of their own, and stored regions keep their lengths. -/
  | outside {p w w' others others' last} (h : Reaches p w others last) (hholds : w'.Holds (p.values + others'))
      (hsize : ∀ mr ∈ p.values, w'.heap.size mr = w.heap.size mr) : Reaches p w' others' last

/-! ## The calls keep the queues -/

variable {callbacks} {p p' : S3FIFO K} {w w' : World D} {key : K} {node : S3FIFONode}

theorem sizeNbytes_ghostFifo_move (p : S3FIFO K) (key : K) (node : S3FIFONode) {node' : S3FIFONode}
    (hkn : node'.place.kind ≠ .ghost) : (p.move key node node').ghostFifo.sizeNbytes ≤ p.ghostFifo.sizeNbytes := by
  change ((p.move key node node').queue .ghost).sizeNbytes ≤ (p.queue .ghost).sizeNbytes
  rw [queue_move, update_of_ne hkn.symm, queue_unlink, update_apply]
  split
  · rename_i heq
    rw [← heq]
    change (p.queue .ghost).sizeNbytes - node.nbytes ≤ _
    omega
  · omega

theorem fits_put {place : Place} {value : Nat} (hpl : place.value = some value) {hotness : Int}
    (hcl : 0 ≤ hotness) (hhot : hotness ≤ 3) : Fits w { place, hotness, nbytes := w.heap.size value } := by
  intro value' hvl'
  obtain rfl : value = value' := Option.some.inj (hpl.symm.trans hvl')
  exact ⟨hcl, hhot, rfl⟩

variable (callbacks)

theorem Sound.store (h : Sound p w) (hgh : p.ghostFifo.sizeNbytes ≤ p.mainFifoCapacityNbytes) (key : K)
    (value : Nat) : ∃ p' w', p.store callbacks w key value = (p', w') ∧ Sound p' w' ∧ SameLimits p p' ∧
      p'.ghostFifo.sizeNbytes ≤ p.mainFifoCapacityNbytes ∧
      ∀ key', p'.find key' = if key' = key then some value else p.find key' := by
  -- A node that is there gets the value and moves within its queue, or from the ghosts to the main queue.
  have hmv : ∀ {node : S3FIFONode} {place : Place} {hotness : Int} {w' : World D}, p.nodes key = some node →
      place.value = some value → 0 ≤ hotness → hotness ≤ 3 → w'.heap.size = w.heap.size →
      let p' := p.move key node { place, hotness, nbytes := w.heap.size value }
      Sound p' w' ∧ SameLimits p p' ∧ p'.ghostFifo.sizeNbytes ≤ p.mainFifoCapacityNbytes ∧
        ∀ key', p'.find key' = if key' = key then some value else p.find key' := by
    intro node place hotness w' hnd hpl hcl hhot hsize
    have hgs : place.kind ≠ .ghost := by
      cases place <;> simp_all [Place.kind, Place.value]
    refine ⟨(h.move hnd _ (fits_put hpl hcl hhot)).world hsize, sameLimits_move p key node _, ?_, fun key' => ?_⟩
    · exact le_trans (sizeNbytes_ghostFifo_move p key node hgs) hgh
    · rw [find_update (nodes_move p key node _), hpl]
  unfold S3FIFO.store
  split
  · rename_i node hnd
    split
    · exact ⟨_, _, rfl, hmv hnd rfl (le_refl 0) (by decide) (callbacks.size_notify _ w value)⟩
    all_goals
      rename_i old hpl
      obtain ⟨hcl, hhot, -⟩ := h.fits key node hnd old (by rw [hpl]; rfl)
      exact ⟨_, _, rfl, hmv hnd rfl hcl hhot (w.size_refDown old)⟩
  · rename_i hnn
    refine ⟨_, _, rfl, Sound.world ?_ (callbacks.size_notify _ w value), ?_, hgh, ?_⟩
    · refine h.update (h.linked.inserted hnn _) ⟨rfl, rfl⟩ (nodes_inserted p key _) ?_
      rintro _ ⟨⟩
      exact fits_put rfl (le_refl 0) (by decide)
    · exact ⟨rfl, rfl⟩
    · exact find_update (nodes_inserted p key _)

theorem Sound.get (h : Sound p w) (key : K) :
    let r := p.get callbacks w key
    Sound r.1 r.2.1 ∧
    SameLimits p r.1 ∧ r.1.queue = p.queue := by
  unfold S3FIFO.get
  have hht : ∀ {node : S3FIFONode} {value : Nat}, p.nodes key = some node → node.place.value = some value →
      Sound (p.setNode key node.heat) w := by
    intro node value hnd hvl
    refine h.update (h.linked.heat hnd) ⟨rfl, rfl⟩ (nodes_setNode p key _) ?_
    rintro _ ⟨⟩ value' hvl'
    obtain ⟨hcl, hhot, hnb⟩ := h.fits key node hnd value' hvl'
    unfold S3FIFONode.heat
    dsimp only
    refine ⟨?_, ?_, hnb⟩ <;> split <;> omega
  split
  · exact ⟨h, .refl p, rfl⟩
  rename_i node hnd
  split
  · exact ⟨h, .refl p, rfl⟩
  · rename_i value hpl
    refine ⟨(hht hnd (by rw [hpl]; rfl)).world ?_, ⟨rfl, rfl⟩, rfl⟩
    exact callbacks.size_notify _ w value
  · rename_i value hpl
    exact ⟨(hht hnd (by rw [hpl]; rfl)).world rfl, ⟨rfl, rfl⟩, rfl⟩

variable {callbacks}

theorem Sound.delete (h : Sound p w) (key : K) :
    let r := p.delete w key
    Sound r.1 r.2 ∧ SameLimits p r.1 ∧
    (∀ kind, r.1.sum S3FIFONode.nbytes kind ≤ p.sum S3FIFONode.nbytes kind) ∧
    ∀ key', r.1.find key' = if key' = key then none else p.find key' := by
  unfold S3FIFO.delete
  split
  · rename_i hnn
    refine ⟨h, .refl p, fun _ => le_refl _, fun key' => ?_⟩
    split
    · rename_i heq
      rw [heq]
      unfold S3FIFO.find
      rw [hnn]
      rfl
    · rfl
  · rename_i node hnd
    refine ⟨(h.removed hnd).world ?_, sameLimits_removed p key node, fun kind => ?_, ?_⟩
    · split
      · exact w.size_refDown _
      · rfl
    · rw [sum_removed S3FIFONode.nbytes h.linked hnd kind]
      exact Nat.le_add_left _ _
    · exact find_erase (nodes_removed p key node)

theorem Sound.sizeNbytes_ghostFifo (h : Sound p w) :
    p.ghostFifo.sizeNbytes = p.sum S3FIFONode.nbytes .ghost := h.linked.bytes .ghost

theorem Sound.nbytes_eq (h : Sound p w) :
    p.nbytes = p.sum S3FIFONode.nbytes .small + p.sum S3FIFONode.nbytes .main := by
  have hsm := h.linked.bytes .small
  have hmn := h.linked.bytes .main
  unfold S3FIFO.nbytes S3FIFO.sum
  change p.smallFifo.sizeNbytes = _ at hsm
  change p.mainFifo.sizeNbytes = _ at hmn
  rw [hsm, hmn]

/-! ## The states that are reached -/

structure Keeps (p : S3FIFO K) (w : World D) (others : Multiset Nat) (last : K → Option Nat) : Prop where
  sound : Sound p w
  ghosts : p.ghostFifo.sizeNbytes ≤ p.mainFifoCapacityNbytes
  holds : w.Holds (p.values + others)
  last : ∀ key value, p.find key = some value → last key = some value

variable {others : Multiset Nat} {last : K → Option Nat}

omit [DecidableEq K] in
theorem linked_empty : Linked (fun _ : K => none) fun _ => {} where
  mem := by simp
  nodup _ := List.nodup_nil
  len _ := rfl
  bytes _ := rfl

theorem keeps_init {cap : Nat} {promoThreshold : Int} {ratio : ℚ}
    (hinit : init K cap promoThreshold ratio = some p) (hholds : w.Holds others) :
    Keeps p w others (fun _ => none) ∧ p.nbytes ≤ p.capacityNbytes := by
  unfold init at hinit
  split at hinit
  · rename_i hpr
    obtain ⟨-, -, hpos, hlt⟩ := hpr
    obtain rfl := Option.some.inj hinit
    have hnn : (0 : Int) ≤ (cap * ratio).floor := by
      rw [Rat.le_floor_iff]
      positivity
    have hle : (cap * ratio).floor ≤ (cap : Int) := by
      have : ((cap * ratio).floor : ℚ) ≤ (cap : ℚ) :=
        (Rat.floor_le _).trans (mul_le_of_le_one_right (Nat.cast_nonneg _) hlt.le)
      exact_mod_cast this
    refine ⟨⟨⟨?_, ?_, hnn, hle⟩, Int.sub_nonneg_of_le hle, ?_, ?_⟩, Int.natCast_nonneg _⟩
    · refine (congrArg (Linked _) (funext fun kind => ?_)).mpr linked_empty
      cases kind <;> rfl
    · rintro key node ⟨⟩
    · exact hholds.congr (congrArg (· + _ + _) (zero_add others).symm)
    · rintro key value ⟨⟩
  · cases hinit

section

variable (h : Keeps p w others last)
include h

theorem Keeps.evict (nbytes : Int) :
    let r := p.evict callbacks w nbytes
    Keeps r.1 r.2 others last ∧
    SameLimits p r.1 := by
  obtain ⟨p', w', hlp, hev, hgh, -⟩ := h.sound.evictLoop callbacks h.ghosts
    (Int.natCast_nonneg _ : 0 ≤ targetUsage p.nbytes p.capacityNbytes nbytes)
    (4 * (p.smallFifo.keys.length + p.mainFifo.keys.length) + 1)
  have hholds := (moves_evict callbacks p w nbytes).holds others h.holds
  change p.evict callbacks w nbytes = (p', w') at hlp
  rw [hlp] at hholds ⊢
  refine ⟨⟨hev.sound, hev.limits.main ▸ hgh, hholds, fun key value hfn => ?_⟩, hev.limits⟩
  obtain ⟨gone, hgn⟩ := hev.handsOver
  rw [hgn.find] at hfn
  split at hfn
  · cases hfn
  · exact h.last key value hfn

theorem Keeps.evict_le (hst : p.nbytes ≤ p.capacityNbytes) (nbytes : Int) :
    (p.evict callbacks w nbytes).1.nbytes ≤ p.capacityNbytes := by
  have hlv := (h.sound.evictable callbacks h.ghosts).leaves nbytes
  by_cases hle : p.nbytes ≤ targetUsage p.nbytes p.capacityNbytes nbytes
  · have hsm : p.evict callbacks w nbytes = (p, w) := by
      unfold S3FIFO.evict S3FIFO.evictLoop
      rw [if_neg (by omega)]
    rw [hsm]
    exact hst
  · rw [targetUsage_eq] at hle
    omega

omit h in
theorem Keeps.store {value : Nat} (h : Keeps p w ({value} + others) last) (key : K) :
    Keeps (p.store callbacks w key value).1 (p.store callbacks w key value).2 others
      (update last key (some value)) := by
  have hmv := moves_store callbacks p w key value
  obtain ⟨p', w', hst, hsn, hlm, hgh, hfn⟩ := h.sound.store callbacks h.ghosts key value
  rw [hst] at hmv ⊢
  refine ⟨hsn, hlm.main ▸ hgh, ?_, fun key' value' hvl' => ?_⟩
  · exact hmv.holds others (by rw [add_assoc]; exact h.holds)
  rw [hfn] at hvl'
  rw [update_apply]
  split at hvl'
  · rename_i heq
    rw [if_pos heq]
    exact hvl'
  · rename_i hne
    rw [if_neg hne]
    exact h.last key' value' hvl'

omit h in
theorem Keeps.put {value : Nat} (h : Keeps p w ({value} + others) last) (key : K) :
    let r := p.put callbacks w key value
    Keeps r.1 r.2 others (update last key (some value)) ∧
    r.1.nbytes ≤ r.1.capacityNbytes := by
  have hst := @Keeps.store _ _ _ callbacks _ _ _ _ _ h key
  unfold S3FIFO.put
  dsimp only
  split
  · obtain ⟨hev, hlm⟩ := @Keeps.evict _ _ _ callbacks _ _ _ _ hst 1
    refine ⟨hev, ?_⟩
    have hlv := (hst.sound.evictable callbacks hst.ghosts).leaves 1
    have hcp := le_trans hst.sound.small_nonneg hst.sound.small_le
    rw [hlm.capacity]
    omega
  · exact ⟨hst, by omega⟩

theorem Keeps.get (key : K) :
    let r := p.get callbacks w key
    Keeps r.1 r.2.1 (others + ↑r.2.2.toList) last ∧
    r.1.nbytes = p.nbytes ∧ SameLimits p r.1 := by
  obtain ⟨hsn, hlm, hqu⟩ := h.sound.get callbacks key
  obtain ⟨hrs, hfn, hvs, hmv⟩ := get_spec callbacks p w key
  refine ⟨⟨hsn, ?_, ?_, ?_⟩, ?_, hlm⟩
  · rw [hlm.main]
    change ((p.get callbacks w key).1.queue .ghost).sizeNbytes ≤ _
    rw [hqu]
    exact h.ghosts
  · have hholds := hmv.holds others h.holds
    rw [hvs, hrs]
    rwa [add_assoc, add_comm _ others] at hholds
  · intro key' value hvl
    rw [hfn] at hvl
    exact h.last key' value hvl
  · change ((p.get callbacks w key).1.queue .small).sizeNbytes + ((p.get callbacks w key).1.queue .main).sizeNbytes = _
    rw [hqu]
    rfl

theorem Keeps.delete (key : K) :
    let r := p.delete w key
    Keeps r.1 r.2 others (update last key none) ∧ r.1.nbytes ≤ p.nbytes ∧ SameLimits p r.1 := by
  obtain ⟨hsn, hlm, hsum, hfn⟩ := h.sound.delete key
  refine ⟨⟨hsn, ?_, (moves_delete p w key).holds others h.holds, fun key' value hvl => ?_⟩, ?_, hlm⟩
  · have hgh := h.ghosts
    have hls := hsum .ghost
    rw [hlm.main, hsn.sizeNbytes_ghostFifo]
    rw [h.sound.sizeNbytes_ghostFifo] at hgh
    omega
  · rw [hfn] at hvl
    rw [update_apply]
    split at hvl
    · cases hvl
    · rename_i hne
      rw [if_neg hne]
      exact h.last key' value hvl
  · have hsm := hsum .small
    have hmn := hsum .main
    rw [hsn.nbytes_eq, h.sound.nbytes_eq]
    omega

theorem Keeps.outside {others' : Multiset Nat} (hholds : w'.Holds (p.values + others'))
    (hsize : ∀ mr ∈ p.values, w'.heap.size mr = w.heap.size mr) : Keeps p w' others' last where
  ghosts := h.ghosts
  holds := hholds
  last := h.last
  sound := by
    refine ⟨h.sound.linked, fun key node hnd value hvl => ?_, h.sound.small_nonneg, h.sound.small_le⟩
    have hmem : value ∈ p.values := by
      rw [values_of_lookup hnd, hvl]
      simp
    rw [hsize value hmem]
    exact h.sound.fits key node hnd value hvl

end

theorem Reaches.keeps (h : Reaches callbacks p w others last) :
    Keeps p w others last ∧ p.nbytes ≤ p.capacityNbytes := by
  induction h with
  | init hinit hholds => exact keeps_init hinit hholds
  | put key value _ ih => exact ih.1.put key
  | get key _ ih =>
    obtain ⟨hkp, hnb, hlm⟩ := ih.1.get key
    exact ⟨hkp, by rw [hnb, hlm.capacity]; exact ih.2⟩
  | delete key _ ih =>
    obtain ⟨hkp, hnb, hlm⟩ := ih.1.delete key
    exact ⟨hkp, by rw [hlm.capacity]; exact le_trans hnb ih.2⟩
  | evict nbytes _ ih =>
    obtain ⟨hkp, hlm⟩ := ih.1.evict nbytes
    exact ⟨hkp, by rw [hlm.capacity]; exact ih.1.evict_le ih.2 nbytes⟩
  | outside _ hholds hsize ih => exact ⟨ih.1.outside hholds hsize, ih.2⟩

theorem Sound.find_isSome (h : Sound p w) (key : K) :
    (p.find key).isSome = true ↔ key ∈ p.smallFifo.keys ∨ key ∈ p.mainFifo.keys := by
  have hsm := h.linked.mem .small key
  have hmn := h.linked.mem .main key
  change key ∈ p.smallFifo.keys ↔ _ at hsm
  change key ∈ p.mainFifo.keys ↔ _ at hmn
  rw [hsm, hmn]
  change ((p.nodes key).bind _).isSome = true ↔ _
  cases p.nodes key with
  | none => simp
  | some node =>
    obtain ⟨place, hotness, nbytes⟩ := node
    cases place <;> simp [Place.value, Place.kind]

theorem queues_and_references (h : Reaches callbacks p w others last) : p.IsLinked ∧
    (∀ key node value, p.nodes key = some node → node.place.value = some value → node.nbytes = w.heap.size value) ∧
    (∀ mr, w.heap.refCount mr = (p.values + others + ↑w.inflight.flatten + ↑w.leaked).count mr) ∧
    w.heap.raised = false ∧ p.ghostFifo.sizeNbytes ≤ p.mainFifoCapacityNbytes ∧ p.nbytes ≤ p.capacityNbytes ∧
    (∀ key, (p.get callbacks w key).2.2 = p.find key ∧
      ((p.find key).isSome = true ↔ key ∈ p.smallFifo.keys ∨ key ∈ p.mainFifo.keys) ∧
      ∀ value, p.find key = some value → last key = some value) ∧ Evictable callbacks p w ∧
    (∀ key value, Evictable callbacks (p.store callbacks w key value).1 (p.store callbacks w key value).2) := by
  obtain ⟨hkeeps, hstored⟩ := h.keeps
  have hsound := hkeeps.sound
  refine ⟨hsound.linked, ?_, hkeeps.holds.count, hkeeps.holds.calm, hkeeps.ghosts, hstored, fun key => ⟨?_, ?_, ?_⟩, ?_, ?_⟩
  · exact fun key node value hnode hvalue => (hsound.fits key node hnode value hvalue).2.2
  · exact (get_spec callbacks p w key).1
  · exact hsound.find_isSome key
  · exact hkeeps.last key
  · exact hsound.evictable callbacks hkeeps.ghosts
  · intro key value
    obtain ⟨p', w', hstore, hsound', hlimits, hghosts, -⟩ := hsound.store callbacks hkeeps.ghosts key value
    rw [hstore]
    exact hsound'.evictable callbacks (hlimits.main ▸ hghosts)

def twelveBytes : S3FIFO Nat := { capacityNbytes := 12, smallToMainPromoThreshold := 1, smallFifoCapacityNbytes := 6 }

def noRegions : World Bool where
  heap := { content := fun _ => false, junk := false }
  external _ := false
  grants _ := 3

def threeRegions : World Bool := (noRegions.alloc [4, 4, 4]).1

theorem holds_threeRegions : threeRegions.Holds ({0} + ({1} + ({2} + 0))) := by
  have hnn : noRegions.Holds (0 + 0) := ⟨fun _ => rfl, fun _ _ => rfl, rfl, rfl⟩
  exact (moves_alloc noRegions [4, 4, 4]).holds 0 hnn

theorem init_twelveBytes : init Nat 12 1 (1 / 2) = some twelveBytes := by
  have hhl : ((12 : Nat) : ℚ) * (1 / 2) = ((6 : Int) : ℚ) := by norm_num
  unfold init
  rw [if_pos (by norm_num), hhl]
  rfl

/-- The first region is read before the other two are put. -/
theorem queues_and_references_promoted :
    let first := twelveBytes.put {} threeRegions 0 0
    let read := first.1.get {} first.2 0
    let second := read.1.put {} read.2.1 1 1
    let third := second.1.put {} second.2 2 2
    let evicted := third.1.evict {} third.2 4
    evicted.1.nbytes ≤ 8 ∧ (evicted.1.mainFifo.keys, evicted.1.ghostFifo.keys) = ([0], [1]) ∧
      (evicted.1.get {} evicted.2 0).2.2 = some 0 := by
  have hread := (((Reaches.init init_twelveBytes holds_threeRegions).put 0 0).get 0 : Reaches {} _ _ _ _)
  rw [add_assoc] at hread
  have hsecond := hread.put 1 1
  have hthird := hsecond.put 2 2
  obtain ⟨-, -, -, -, -, -, -, hevict, -⟩ := queues_and_references hthird
  obtain ⟨-, -, -, -, -, -, hget, -⟩ := queues_and_references (hthird.evict 4)
  exact ⟨(hevict.leaves 4).trans (by decide), by decide, (hget 0).1.trans (by decide)⟩

end S3FIFO

end Aibrix.KvCache
