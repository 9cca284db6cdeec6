import Aibrix.Lib.SortedIndex
import Aibrix.KvCache.World
import Mathlib.Algebra.Order.BigOperators.Group.List

/-! # The coalescing allocator

`CoalescingPoolAllocator` cuts memory regions out of its slabs. -/

namespace Aibrix.KvCache

open Lib

structure MemoryRegionIntl where
  slab : Nat
  addr : Nat
  length : Nat
  deriving DecidableEq, Repr

structure ManagedMemoryRegion where
  slab : Nat
  addr : Nat
  length : Nat
  capacity : Nat
  deriving DecidableEq, Repr

/-- Where the slabs are. They have `SLAB_MAX_NBYTES` bytes each and share none. -/
structure SlabPool where
  slabNbytes : Nat
  slabNbytes_pos : 0 < slabNbytes
  dataPtr : Nat → Nat
  apart : ∀ i j, i ≠ j → dataPtr i + slabNbytes ≤ dataPtr j ∨ dataPtr j + slabNbytes ≤ dataPtr i

namespace MemoryRegionIntl

variable (pool : SlabPool)

def dataPtr (mr : MemoryRegionIntl) : Nat := pool.dataPtr mr.slab + mr.addr

def isAppendable (src dst : MemoryRegionIntl) : Bool :=
  pool.dataPtr src.slab == pool.dataPtr dst.slab && src.addr == dst.addr + dst.length

def expand (mr : MemoryRegionIntl) (expandSize : Nat) : MemoryRegionIntl :=
  { mr with length := mr.length + expandSize }

end MemoryRegionIntl

structure CoalescingPoolAllocator where
  capacityNbytes : Nat := 0
  usedNbytes : Nat := 0
  slabs : Nat := 0
  mrList : List MemoryRegionIntl := []
  lookupTable : List (Nat × List MemoryRegionIntl) := []
  deriving DecidableEq

namespace CoalescingPoolAllocator

variable (pool : SlabPool) (a : CoalescingPoolAllocator)

def discard (mr : MemoryRegionIntl) : Option CoalescingPoolAllocator :=
  (a.lookupTable.lookup mr.length).map fun lenList =>
    { a with
      mrList := a.mrList.erase mr
      lookupTable := Index.shrink a.lookupTable mr.length (lenList.erase mr) }

def add (mr : MemoryRegionIntl) : CoalescingPoolAllocator :=
  { a with
    mrList := SortedList.add (·.dataPtr pool) a.mrList mr
    lookupTable := Index.insert (·.dataPtr pool) MemoryRegionIntl.length a.lookupTable mr }

def appendToPrev (prev : Option MemoryRegionIntl) (curr : MemoryRegionIntl) :
    Option (CoalescingPoolAllocator × MemoryRegionIntl) :=
  match prev with
  | none => some (a, curr)
  | some prev =>
    if curr.isAppendable pool prev then (a.discard prev).map (·, prev.expand curr.length) else some (a, curr)

def appendNext (next : Option MemoryRegionIntl) (curr : MemoryRegionIntl) :
    Option (CoalescingPoolAllocator × MemoryRegionIntl) :=
  match next with
  | none => some (a, curr)
  | some next =>
    if next.isAppendable pool curr then (a.discard next).map (·, curr.expand next.length) else some (a, curr)

def finalizeSlabSliceUnsafe (slab addr length : Nat) : Option CoalescingPoolAllocator :=
  if length = 0 then some a
  else
    let mr : MemoryRegionIntl := ⟨slab, addr, length⟩
    let prev := (SortedList.upTo (·.dataPtr pool) a.mrList mr).getLast?
    let next := (SortedList.beyond (·.dataPtr pool) a.mrList mr).head?
    (a.appendToPrev pool prev mr).bind fun (a, curr) =>
      (a.appendNext pool next curr).map fun (a, curr) => a.add pool curr

def finalizeMr (mr : ManagedMemoryRegion) : Option CoalescingPoolAllocator :=
  if mr.capacity = 0 then some a
  else
    (a.finalizeSlabSliceUnsafe pool mr.slab mr.addr mr.capacity).bind fun a =>
      if a.usedNbytes < mr.capacity then none else some { a with usedNbytes := a.usedNbytes - mr.capacity }

def target (upperBound : Nat) : Option (Nat × List MemoryRegionIntl) :=
  let idx := (a.lookupTable.takeWhile fun e => decide (e.1 < upperBound)).length
  a.lookupTable[if idx ≥ a.lookupTable.length then idx - 1 else idx]?

def fit (targetMrLen : Nat) : List Nat → Nat → Nat → Nat × Nat
  | [], allocated, nmrs => (allocated, nmrs)
  | size :: sizes, allocated, nmrs =>
    if size > targetMrLen - allocated then (allocated, nmrs)
    else fit targetMrLen sizes (allocated + size) (nmrs + 1)

def cut (slab : Nat) : Nat → List Nat → List ManagedMemoryRegion
  | _, [] => []
  | addr, size :: sizes => ⟨slab, addr, size, size⟩ :: cut slab (addr + size) sizes

def allocUnsafe (sizes : List Nat) : Option (CoalescingPoolAllocator × Status (List ManagedMemoryRegion)) :=
  if a.lookupTable.isEmpty then some (a, .error .outOfMemory)
  else
    (a.target sizes.sum).bind fun (targetMrLen, targetMrList) =>
    sizes.head?.bind fun first =>
    if targetMrLen < first then some (a, .error .outOfMemory)
    else
      -- `pop` takes the last region of the group.
      targetMrList.getLast?.map fun targetMr =>
        let a := { a with
          mrList := a.mrList.erase targetMr
          lookupTable := Index.shrink a.lookupTable targetMrLen targetMrList.dropLast }
        let (allocated, nmrs) := fit targetMrLen sizes 0 0
        let a :=
          if targetMrLen > allocated then
            a.add pool ⟨targetMr.slab, targetMr.addr + allocated, targetMr.length - allocated⟩
          else a
        (a, .ok (cut targetMr.slab targetMr.addr (sizes.take nmrs)))

/-- The loop of `alloc`. It has no result when the fuel does not suffice. -/
def allocLoop (sizes : List Nat) : Nat → CoalescingPoolAllocator → List ManagedMemoryRegion →
      Option (CoalescingPoolAllocator × Status (List ManagedMemoryRegion))
  | 0, _, _ => none
  | fuel + 1, a, mrs =>
    if mrs.length < sizes.length then
      (a.allocUnsafe pool (sizes.drop mrs.length)).bind fun (a, status) =>
        match status with
        | .ok value =>
          allocLoop sizes fuel { a with usedNbytes := a.usedNbytes + (value.map (·.length)).sum } (mrs ++ value)
        | .error code => if mrs.isEmpty then some (a, .error code) else some (a, .ok mrs)
    else some (a, .ok mrs)

def alloc (sizes : List Nat) : Option (CoalescingPoolAllocator × Status (List ManagedMemoryRegion)) :=
  if sizes.isEmpty then some (a, .error .invalid) else allocLoop pool sizes (sizes.length + 1) a []

def growSlabs : Nat → CoalescingPoolAllocator → Option CoalescingPoolAllocator
  | 0, a => some a
  | n + 1, a =>
    (finalizeSlabSliceUnsafe pool { a with slabs := a.slabs + 1 } a.slabs 0 pool.slabNbytes).bind (growSlabs n)

def grow (sizeNbytes : Nat) : Option CoalescingPoolAllocator :=
  if sizeNbytes = 0 then none
  else
    let nslabs := roundUp sizeNbytes pool.slabNbytes / pool.slabNbytes
    growSlabs pool nslabs { a with capacityNbytes := a.capacityNbytes + nslabs * pool.slabNbytes }

def init (capacityNbytes : Nat) : Option CoalescingPoolAllocator := grow pool {} capacityNbytes

/-! ## Calls -/

structure Served where
  allocator : CoalescingPoolAllocator
  live : List ManagedMemoryRegion
  deriving DecidableEq

inductive Call where
  | alloc (sizes : List Nat)
  /-- The last reference of a live region is dropped. -/
  | free (i : Nat)
  /-- A live region is sealed, or something is copied to it. -/
  | setLength (i length : Nat)

def Call.Positive : Call → Prop
  | .alloc sizes => ∀ size ∈ sizes, 0 < size
  | _ => True

def handedOut : Status (List ManagedMemoryRegion) → List ManagedMemoryRegion
  | .ok mrs => mrs
  | .error _ => []

def call (s : Served) : Call → Option Served
  | .alloc sizes => (s.allocator.alloc pool sizes).map fun (a, status) => ⟨a, s.live ++ handedOut status⟩
  | .free i =>
    match s.live[i]? with
    | none => some s
    | some mr => (s.allocator.finalizeMr pool mr).map fun a => ⟨a, s.live.eraseIdx i⟩
  | .setLength i length => some { s with live := s.live.modify i ({ · with length }) }

def calls (s : Served) : List Call → Option Served
  | [] => some s
  | c :: cs => (call pool s c).bind (calls · cs)

def run (capacityNbytes : Nat) (cs : List Call) : Option Served :=
  (init pool capacityNbytes).bind fun a => calls pool ⟨a, []⟩ cs

end CoalescingPoolAllocator

/-! ## The free and the handed out regions tile the slabs

Three moves keep the tiling: a free region goes out, regions that are out are cut or joined, and one that touches no
free one comes back. -/

open SortedList List

namespace MemoryRegionIntl

def covers (mr : MemoryRegionIntl) (slab x : Nat) : Bool :=
  mr.slab == slab && decide (mr.addr ≤ x) && decide (x < mr.addr + mr.length)

def Touches (mr mr' : MemoryRegionIntl) : Prop := mr.slab = mr'.slab ∧ mr.addr + mr.length = mr'.addr

def Inside (pool : SlabPool) (slabs : Nat) (mr : MemoryRegionIntl) : Prop :=
  mr.slab < slabs ∧ 0 < mr.length ∧ mr.addr + mr.length ≤ pool.slabNbytes

def Disjoint (mr mr' : MemoryRegionIntl) : Prop := ∀ slab x, ¬(mr.covers slab x = true ∧ mr'.covers slab x = true)

variable {pool : SlabPool} {mr mr' : MemoryRegionIntl} {slabs slab x : Nat}

theorem covers_iff : mr.covers slab x = true ↔ mr.slab = slab ∧ mr.addr ≤ x ∧ x < mr.addr + mr.length := by
  simp [covers, and_assoc]

theorem Disjoint.addr (h : Disjoint mr mr') (hsl : mr.slab = mr'.slab) (hmr : 0 < mr.length)
    (hmr' : 0 < mr'.length) : mr.addr + mr.length ≤ mr'.addr ∨ mr'.addr + mr'.length ≤ mr.addr := by
  by_contra hmt
  apply h mr.slab (max mr.addr mr'.addr)
  rw [covers_iff, covers_iff]
  omega

theorem Disjoint.dataPtr (h : Disjoint mr mr') (hmr : Inside pool slabs mr) (hmr' : Inside pool slabs mr') :
    mr.dataPtr pool + mr.length ≤ mr'.dataPtr pool ∨ mr'.dataPtr pool + mr'.length ≤ mr.dataPtr pool := by
  obtain ⟨-, hpos, hend⟩ := hmr
  obtain ⟨-, hpos', hend'⟩ := hmr'
  unfold MemoryRegionIntl.dataPtr
  by_cases hsl : mr.slab = mr'.slab
  · have := h.addr hsl hpos hpos'
    rw [hsl]
    omega
  · have := pool.apart _ _ hsl
    omega

theorem dataPtr_injective {i j : Nat} (h : pool.dataPtr i = pool.dataPtr j) : i = j := by
  by_contra hne
  have := pool.apart i j hne
  have := pool.slabNbytes_pos
  omega

theorem isAppendable_iff : mr'.isAppendable pool mr = true ↔ Touches mr mr' := by
  unfold isAppendable
  rw [Bool.and_eq_true, beq_iff_eq, beq_iff_eq]
  constructor
  · rintro ⟨hsl, had⟩
    exact ⟨(dataPtr_injective hsl).symm, had.symm⟩
  · rintro ⟨hsl, had⟩
    exact ⟨congrArg _ hsl.symm, had.symm⟩

theorem Touches.covers_expand (h : Touches mr mr') (slab x : Nat) :
    [mr.expand mr'.length].countP (·.covers slab x) = [mr, mr'].countP (·.covers slab x) := by
  obtain ⟨hsm, had⟩ := h
  simp only [countP_cons, covers_iff, expand]
  split_ifs <;> omega

theorem Touches.inside_expand (h : Touches mr mr') (hmr : Inside pool slabs mr) (hmr' : Inside pool slabs mr') :
    Inside pool slabs (mr.expand mr'.length) := by
  obtain ⟨-, had⟩ := h
  obtain ⟨hsl, hpos, -⟩ := hmr
  obtain ⟨-, -, hend⟩ := hmr'
  refine ⟨hsl, ?_, ?_⟩
  · exact Nat.add_pos_left hpos _
  · change mr.addr + (mr.length + mr'.length) ≤ _
    omega

end MemoryRegionIntl

open MemoryRegionIntl

def ManagedMemoryRegion.whole (mr : ManagedMemoryRegion) : MemoryRegionIntl := ⟨mr.slab, mr.addr, mr.capacity⟩

namespace CoalescingPoolAllocator

variable (pool : SlabPool)

def nbytes (regions : List MemoryRegionIntl) : Nat := (regions.map MemoryRegionIntl.length).sum

structure Tiled (a : CoalescingPoolAllocator) (out : List MemoryRegionIntl) : Prop where
  sorted : Sorted (·.dataPtr pool) a.mrList
  groups : Index.Groups MemoryRegionIntl.length a.mrList a.lookupTable
  inside : ∀ mr ∈ a.mrList ++ out, Inside pool a.slabs mr
  once : ∀ slab < a.slabs, ∀ x < pool.slabNbytes, (a.mrList ++ out).countP (·.covers slab x) = 1
  apart : ∀ mr ∈ a.mrList, ∀ mr' ∈ a.mrList, ¬Touches mr mr'
  total : nbytes (a.mrList ++ out) = a.slabs * pool.slabNbytes

structure Recut (slabs : Nat) (old new : List MemoryRegionIntl) : Prop where
  inside : ∀ mr ∈ new, Inside pool slabs mr
  covers : ∀ slab x, new.countP (·.covers slab x) = old.countP (·.covers slab x)
  total : nbytes new = nbytes old

variable {pool} {a b : CoalescingPoolAllocator} {out old new : List MemoryRegionIntl} {mr mr' : MemoryRegionIntl}

structure SameCounts (a b : CoalescingPoolAllocator) : Prop where
  used : b.usedNbytes = a.usedNbytes
  capacity : b.capacityNbytes = a.capacityNbytes
  slabs : b.slabs = a.slabs

theorem SameCounts.trans {c : CoalescingPoolAllocator} (h : SameCounts a b) (h' : SameCounts b c) : SameCounts a c :=
  ⟨h'.used.trans h.used, h'.capacity.trans h.capacity, h'.slabs.trans h.slabs⟩

theorem nbytes_append (xs ys : List MemoryRegionIntl) : nbytes (xs ++ ys) = nbytes xs + nbytes ys := by
  simp [nbytes]

theorem nbytes_cons (xs : List MemoryRegionIntl) : nbytes (mr :: xs) = mr.length + nbytes xs := by
  simp [nbytes]

theorem nbytes_perm {xs ys : List MemoryRegionIntl} (h : xs.Perm ys) : nbytes xs = nbytes ys := (h.map _).sum_eq

/-! ## The three moves -/

theorem Tiled.recut (h : Tiled pool a (old ++ out)) (hcut : Recut pool a.slabs old new) : Tiled pool a (new ++ out) where
  sorted := h.sorted
  groups := h.groups
  apart := h.apart
  inside mr hmr := by
    rcases mem_append.1 hmr with hfr | hout
    · exact h.inside mr (mem_append_left _ hfr)
    · rcases mem_append.1 hout with hnew | hout
      · exact hcut.inside mr hnew
      · exact h.inside mr (mem_append_right _ (mem_append_right _ hout))
  once slab hsl x hx := by
    rw [← h.once slab hsl x hx]
    simp [countP_append, hcut.covers]
  total := by
    rw [← h.total]
    simp [nbytes_append, hcut.total]

theorem Tiled.perm (h : Tiled pool a old) (hpr : old.Perm new) : Tiled pool a new where
  sorted := h.sorted
  groups := h.groups
  apart := h.apart
  inside mr hmr := h.inside mr ((hpr.append_left a.mrList).mem_iff.2 hmr)
  once slab hsl x hx := by rw [← h.once slab hsl x hx, (hpr.append_left a.mrList).countP_eq]
  total := by rw [← h.total, nbytes_perm (hpr.append_left a.mrList)]

theorem Tiled.of_perm (h : Tiled pool a old) (hpr : (a.mrList ++ old).Perm (b.mrList ++ new))
    (hsl : b.slabs = a.slabs) (hsr : Sorted (·.dataPtr pool) b.mrList)
    (hgr : Index.Groups MemoryRegionIntl.length b.mrList b.lookupTable)
    (hap : ∀ mr ∈ b.mrList, ∀ mr' ∈ b.mrList, ¬Touches mr mr') : Tiled pool b new where
  sorted := hsr
  groups := hgr
  apart := hap
  inside mr hmr := by
    rw [hsl]
    exact h.inside mr (hpr.mem_iff.2 hmr)
  once slab hsb x hx := by
    rw [← h.once slab (hsl ▸ hsb) x hx, hpr.countP_eq]
  total := by rw [hsl, ← h.total, nbytes_perm hpr]

section

variable (h : Tiled pool a out)
include h

theorem Tiled.take (hmr : mr ∈ a.mrList) {lenList : List MemoryRegionIntl}
    (hlf : lenList = (Index.group MemoryRegionIntl.length a.mrList mr.length).erase mr) : Tiled pool { a with
      mrList := a.mrList.erase mr
      lookupTable := Index.shrink a.lookupTable mr.length lenList } (mr :: out) := by
  refine h.of_perm ?_ rfl h.sorted.erase (h.groups.shrink hlf) fun r hr r' hr' => ?_
  · exact ((perm_cons_erase hmr).append_right out).trans List.perm_middle.symm
  · exact h.apart r (mem_of_mem_erase hr) r' (mem_of_mem_erase hr')

theorem Tiled.discard (hmr : mr ∈ a.mrList) :
    ∃ b, a.discard mr = some b ∧ Tiled pool b (mr :: out) ∧ b.mrList = a.mrList.erase mr ∧ SameCounts a b := by
  unfold CoalescingPoolAllocator.discard
  rw [h.groups.lookup_measure hmr]
  exact ⟨_, rfl, h.take hmr rfl, rfl, rfl, rfl, rfl⟩

omit h in
theorem Tiled.disjoint (h : Tiled pool a (mr :: out)) (hmr' : mr' ∈ a.mrList) : Disjoint mr mr' := by
  rintro slab x ⟨hmr, hcv⟩
  obtain ⟨hsl, -, hend⟩ := h.inside mr (mem_append_right _ mem_cons_self)
  have hby := covers_iff.1 hmr
  have hon := h.once slab (hby.1 ▸ hsl) x (by omega)
  have hfr : 0 < a.mrList.countP (·.covers slab x) := List.countP_pos_iff.2 ⟨mr', hmr', hcv⟩
  rw [countP_append, countP_cons, if_pos hmr] at hon
  omega

theorem Tiled.disjoint_free (hmr : mr ∈ a.mrList) (hmr' : mr' ∈ a.mrList) (hne : mr' ≠ mr) :
    Disjoint mr mr' :=
  (h.take hmr rfl).disjoint ((mem_erase_of_ne hne).2 hmr')

omit h in
theorem Tiled.dataPtr (h : Tiled pool a (mr :: out)) (hmr' : mr' ∈ a.mrList) :
    mr.dataPtr pool + mr.length ≤ mr'.dataPtr pool ∨ mr'.dataPtr pool + mr'.length ≤ mr.dataPtr pool :=
  (h.disjoint hmr').dataPtr (h.inside mr (mem_append_right _ mem_cons_self))
    (h.inside mr' (mem_append_left _ hmr'))

theorem Tiled.length_pos (hmr : mr ∈ a.mrList ++ out) : 0 < mr.length := (h.inside mr hmr).2.1

end

section

variable (h : Tiled pool a (mr :: out))
include h

theorem Tiled.add (hlf : ∀ mr' ∈ a.mrList, ¬Touches mr' mr)
    (hrg : ∀ mr' ∈ a.mrList, ¬Touches mr mr') : Tiled pool (a.add pool mr) out := by
  have hpos : 0 < mr.length := h.length_pos (mem_append_right _ mem_cons_self)
  have hfs : ∀ mr' ∈ a.mrList, mr'.dataPtr pool ≠ mr.dataPtr pool := by
    intro mr' hmr'
    have := h.dataPtr hmr'
    have := h.length_pos (mem_append_left _ hmr')
    omega
  refine h.of_perm ?_ rfl (h.sorted.add hfs) (h.groups.insert h.sorted) fun r hr r' hr' => ?_
  · exact List.perm_middle.trans (add_perm.append_right out).symm
  rcases mem_add.1 hr with rfl | hfr
  · rcases mem_add.1 hr' with rfl | hfr'
    · rintro ⟨-, had⟩
      omega
    · exact hrg r' hfr'
  · rcases mem_add.1 hr' with rfl | hfr'
    · exact hlf r hfr
    · exact h.apart r hfr r' hfr'

theorem Tiled.prev_of_touches (hmr' : mr' ∈ a.mrList) (htc : Touches mr' mr) :
    (upTo (·.dataPtr pool) a.mrList mr).getLast? = some mr' := by
  have hpos : 0 < mr.length := h.length_pos (mem_append_right _ mem_cons_self)
  have hend : mr'.dataPtr pool + mr'.length = mr.dataPtr pool := by
    obtain ⟨hsl, had⟩ := htc
    unfold MemoryRegionIntl.dataPtr
    rw [hsl]
    omega
  apply h.sorted.getLast?_upTo hmr' (by omega)
  intro z hz hlt
  have hne : z ≠ mr' := fun heq => by
    subst heq
    omega
  have hzmr' := (h.disjoint_free hmr' hz hne).dataPtr (h.inside mr' (mem_append_left _ hmr'))
    (h.inside z (mem_append_left _ hz))
  have hzmr := h.dataPtr hz
  have hzp := h.length_pos (mem_append_left _ hz)
  omega

theorem Tiled.next_of_touches (hmr' : mr' ∈ a.mrList) (htc : Touches mr mr') :
    (beyond (·.dataPtr pool) a.mrList mr).head? = some mr' := by
  have hpos : 0 < mr.length := h.length_pos (mem_append_right _ mem_cons_self)
  have hend : mr.dataPtr pool + mr.length = mr'.dataPtr pool := by
    obtain ⟨hsl, had⟩ := htc
    unfold MemoryRegionIntl.dataPtr
    rw [hsl]
    omega
  apply h.sorted.head?_beyond hmr' (by omega)
  intro z hz hlt
  have hzmr := h.dataPtr hz
  omega

omit h in
theorem Tiled.expand (h : Tiled pool a (mr :: mr' :: out)) (htc : Touches mr mr') :
    Tiled pool a (mr.expand mr'.length :: out) := by
  have hbt : Tiled pool a ([mr, mr'] ++ out) := h
  refine hbt.recut ⟨fun r hr => ?_, htc.covers_expand, ?_⟩
  · rw [mem_singleton.1 hr]
    exact htc.inside_expand (h.inside mr (by simp)) (h.inside mr' (by simp))
  · simp [nbytes, MemoryRegionIntl.expand]

theorem Tiled.appendToPrev :
    ∃ b curr, a.appendToPrev pool (upTo (·.dataPtr pool) a.mrList mr).getLast? mr = some (b, curr) ∧
      Tiled pool b (curr :: out) ∧ SameCounts a b ∧ (∀ r ∈ b.mrList, r ∈ a.mrList ∧ ¬Touches r curr) ∧
      (∀ r ∈ a.mrList, mr.dataPtr pool < r.dataPtr pool → r ∈ b.mrList) ∧
      curr.slab = mr.slab ∧ curr.addr + curr.length = mr.addr + mr.length := by
  have hst (hpr : ∀ prev, (upTo (·.dataPtr pool) a.mrList mr).getLast? = some prev → ¬Touches prev mr) :
      ∀ r ∈ a.mrList, r ∈ a.mrList ∧ ¬Touches r mr :=
    fun r hr => ⟨hr, fun htc => hpr r (h.prev_of_touches hr htc) htc⟩
  unfold CoalescingPoolAllocator.appendToPrev
  cases hls : (upTo (·.dataPtr pool) a.mrList mr).getLast? with
  | none =>
    exact ⟨a, mr, rfl, h, ⟨rfl, rfl, rfl⟩, hst (by simp [hls]), fun r hr _ => hr, rfl, rfl⟩
  | some prev =>
    obtain ⟨hpr, hle⟩ := h.sorted.mem_upTo.1 (mem_of_getLast? hls)
    dsimp only
    split
    · rename_i hap
      have htc := isAppendable_iff.1 hap
      obtain ⟨b, hb, hout, hli, hsm⟩ := h.discard hpr
      refine ⟨b, prev.expand mr.length, by rw [hb]; rfl, hout.expand htc, hsm, ?_, ?_, htc.1, ?_⟩
      · intro r hr
        rw [hli] at hr
        exact ⟨mem_of_mem_erase hr, fun ht => h.apart r (mem_of_mem_erase hr) prev hpr ht⟩
      · intro r hr hlt
        rw [hli, mem_erase_of_ne]
        · exact hr
        · rintro rfl
          omega
      · have := htc.2
        change prev.addr + (prev.length + mr.length) = _
        omega
    · rename_i hap
      refine ⟨a, mr, rfl, h, ⟨rfl, rfl, rfl⟩, hst ?_, fun r hr _ => hr, rfl, rfl⟩
      intro prev' hpr' htc
      obtain rfl := Option.some.inj (hls.symm.trans hpr')
      exact hap (isAppendable_iff.2 htc)

theorem Tiled.finalizeSlabSliceUnsafe :
    ∃ b, a.finalizeSlabSliceUnsafe pool mr.slab mr.addr mr.length = some b ∧ Tiled pool b out ∧ SameCounts a b := by
  have hpos : 0 < mr.length := h.length_pos (mem_append_right _ mem_cons_self)
  obtain ⟨b, curr, hpr, hb, hsm, hlf, hby, hsl, hend⟩ := h.appendToPrev
  have hrg : ∀ r ∈ b.mrList, Touches curr r → (beyond (·.dataPtr pool) a.mrList mr).head? = some r := by
    rintro r hr ⟨hs, he⟩
    exact h.next_of_touches (hlf r hr).1 ⟨hsl ▸ hs, hend ▸ he⟩
  unfold CoalescingPoolAllocator.finalizeSlabSliceUnsafe
  rw [if_neg (Nat.ne_of_gt hpos)]
  change ∃ b, (Option.bind (a.appendToPrev pool (upTo (·.dataPtr pool) a.mrList mr).getLast? mr) _) = some b ∧ _
  rw [hpr, Option.bind_some]
  unfold CoalescingPoolAllocator.appendNext
  cases hnx : (beyond (·.dataPtr pool) a.mrList mr).head? with
  | none =>
    refine ⟨b.add pool curr, rfl, hb.add (fun r hr => (hlf r hr).2) fun r hr ht => ?_, hsm.trans ⟨rfl, rfl, rfl⟩⟩
    have := hrg r hr ht
    rw [hnx] at this
    cases this
  | some next =>
    obtain ⟨hmem, hlt⟩ := h.sorted.mem_beyond.1 (mem_of_head? hnx)
    dsimp only
    split
    · rename_i hap
      have htc := isAppendable_iff.1 hap
      have hnt := hby next hmem hlt
      obtain ⟨c, hc, hout, hls, hsm'⟩ := hb.discard hnt
      have hjn : Tiled pool c (curr.expand next.length :: out) := (hout.perm (Perm.swap _ _ _)).expand htc
      refine ⟨c.add pool (curr.expand next.length), by rw [hc]; rfl, hjn.add ?_ ?_, hsm.trans ?_⟩
      · intro r hr ht
        rw [hls] at hr
        exact (hlf r (mem_of_mem_erase hr)).2 ht
      · rintro r hr ⟨hs, he⟩
        rw [hls] at hr
        refine hb.apart next hnt r (mem_of_mem_erase hr) ⟨htc.1.symm.trans hs, ?_⟩
        have := htc.2
        change curr.addr + (curr.length + next.length) = _ at he
        omega
      · exact hsm'.trans ⟨rfl, rfl, rfl⟩
    · rename_i hap
      refine ⟨b.add pool curr, rfl, hb.add (fun r hr => (hlf r hr).2) fun r hr ht => ?_, hsm.trans ⟨rfl, rfl, rfl⟩⟩
      obtain rfl := Option.some.inj (hnx.symm.trans (hrg r hr ht))
      exact hap (isAppendable_iff.2 ht)

end

end CoalescingPoolAllocator

end Aibrix.KvCache
