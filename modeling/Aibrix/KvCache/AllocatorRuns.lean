import Aibrix.KvCache.Allocator

/-! # Every history of the coalescing allocator

What `alloc` hands out, and what holds after any calls. -/

namespace Aibrix.KvCache

open Lib SortedList MemoryRegionIntl List ManagedMemoryRegion CoalescingPoolAllocator Nat

namespace CoalescingPoolAllocator

variable {pool : SlabPool} {a b : CoalescingPoolAllocator} {out : List MemoryRegionIntl} {sizes : List Nat}

theorem fit_spec (target : Nat) (sizes : List Nat) (allocated nmrs : Nat) (hle : allocated ≤ target) :
    ∃ n ≤ sizes.length, fit target sizes allocated nmrs = (allocated + (sizes.take n).sum, nmrs + n) ∧
      allocated + (sizes.take n).sum ≤ target ∧ ∀ size ∈ sizes.head?, allocated + size ≤ target → 0 < n := by
  induction sizes generalizing allocated nmrs with
  | nil => exact ⟨0, le_rfl, rfl, hle, by simp⟩
  | cons size sizes ih =>
    rw [fit]
    split
    · refine ⟨0, zero_le _, rfl, hle, ?_⟩
      rintro _ ⟨⟩ hft
      omega
    obtain ⟨n, hn, hfit, hrm, -⟩ := ih (allocated + size) (nmrs + 1) (by omega)
    refine ⟨n + 1, succ_le_succ hn, ?_, ?_, fun _ _ _ => succ_pos n⟩
    · rw [hfit, take_succ_cons, sum_cons]
      congr 1 <;> omega
    · rw [take_succ_cons, sum_cons]
      omega

variable (slab addr : Nat)

theorem length_cut (sizes : List Nat) : (cut slab addr sizes).map (·.length) = sizes := by
  induction sizes generalizing addr with
  | nil => rfl
  | cons size sizes ih => rw [cut, map_cons, ih]

theorem nbytes_cut (sizes : List Nat) : nbytes ((cut slab addr sizes).map whole) = sizes.sum := by
  induction sizes generalizing addr with
  | nil => rfl
  | cons size sizes ih => rw [cut, map_cons, nbytes_cons, ih, sum_cons]; rfl

theorem covers_cut (sizes : List Nat) (slab' x : Nat) :
    ((cut slab addr sizes).map whole).countP (·.covers slab' x) =
      [(⟨slab, addr, sizes.sum⟩ : MemoryRegionIntl)].countP (·.covers slab' x) := by
  induction sizes generalizing addr with
  | nil =>
    simp only [cut, map_nil, countP_cons, covers_iff, sum_nil]
    split_ifs <;> omega
  | cons size sizes ih =>
    rw [cut, map_cons, countP_cons, ih]
    simp only [countP_cons, covers_iff, whole, sum_cons]
    split_ifs <;> omega

theorem inside_cut {slabs slab addr : Nat} (hsl : slab < slabs) (hpos : ∀ size ∈ sizes, 0 < size)
    (hend : addr + sizes.sum ≤ pool.slabNbytes) :
    ∀ mr ∈ (cut slab addr sizes).map whole, Inside pool slabs mr := by
  induction sizes generalizing addr with
  | nil => simp [cut]
  | cons size sizes ih =>
    rw [sum_cons] at hend
    intro mr hmr
    rw [cut, map_cons, mem_cons] at hmr
    rcases hmr with rfl | hmr
    · refine ⟨hsl, hpos size mem_cons_self, ?_⟩
      change addr + size ≤ _
      omega
    · exact ih (fun s hs => hpos s (mem_cons_of_mem _ hs)) (by omega) mr hmr

theorem target_spec (hne : a.lookupTable ≠ []) (upper : Nat) (hor : SortedMap.Ordered a.lookupTable) :
    ∃ e ∈ a.lookupTable, a.target upper = some e ∧ (upper ≤ e.1 ∨ ∀ e' ∈ a.lookupTable, e'.1 ≤ e.1) := by
  have hsp := @takeWhile_append_dropWhile _ (fun e : Nat × List MemoryRegionIntl => decide (e.1 < upper))
    a.lookupTable
  unfold target
  dsimp only
  cases hdr : a.lookupTable.dropWhile fun e => decide (e.1 < upper) with
  | nil =>
    -- No entry is large enough, so it is the last one.
    rw [hdr, append_nil] at hsp
    rw [hsp, if_pos (le_refl _)]
    refine ⟨a.lookupTable.getLast hne, getLast_mem hne, ?_, .inr fun e he => ?_⟩
    · rw [← getLast?_eq_getElem?, getLast?_eq_some_getLast hne]
    have hls := dropLast_append_getLast hne
    rw [← hls] at he hor
    rcases mem_append.1 he with he | he
    · exact le_of_lt ((pairwise_append.1 hor).2.2 e he _ mem_cons_self)
    · rw [mem_singleton.1 he]
  | cons e rest =>
    rw [hdr] at hsp
    have hidx : (a.lookupTable.takeWhile fun e => decide (e.1 < upper)).length < a.lookupTable.length := by
      conv => rhs; rw [← hsp]
      simp
    rw [if_neg (not_le.2 hidx)]
    refine ⟨e, ?_, ?_, .inl ?_⟩
    · rw [← hsp]
      simp
    · conv => lhs; arg 1; rw [← hsp]
      rw [getElem?_append_right (le_refl _), Nat.sub_self]
      rfl
    · have hhd := head_dropWhile_not (fun e : Nat × List MemoryRegionIntl => decide (e.1 < upper))
        (by rw [hdr]; exact cons_ne_nil _ _)
      simpa [hdr] using hhd

theorem Tiled.eq_nil_of_lookupTable (h : Tiled pool a out) (htb : a.lookupTable = []) : a.mrList = [] := by
  apply eq_nil_iff_forall_not_mem.2
  intro mr hmr
  have := h.groups.lookup_measure hmr
  rw [htb] at this
  cases this

variable {slabs : Nat} {mr : MemoryRegionIntl}

theorem recut_cut (hin : Inside pool slabs mr) (hpos : ∀ size ∈ sizes, 0 < size) (heq : sizes.sum = mr.length) :
    Recut pool slabs [mr] ((cut mr.slab mr.addr sizes).map whole) := by
  obtain ⟨hsl, -, hend⟩ := hin
  refine ⟨inside_cut hsl hpos (by omega), fun slab x => ?_, ?_⟩
  · rw [covers_cut, heq]
  · rw [nbytes_cut, heq]
    simp [nbytes]

theorem recut_cut_off (hin : Inside pool slabs mr) (hpos : ∀ size ∈ sizes, 0 < size) (hlt : sizes.sum < mr.length) :
    Recut pool slabs [mr] (⟨mr.slab, mr.addr + sizes.sum, mr.length - sizes.sum⟩ ::
        (cut mr.slab mr.addr sizes).map whole) := by
  obtain ⟨hsl, -, hend⟩ := hin
  refine ⟨fun r hr => ?_, fun slab x => ?_, ?_⟩
  · rcases mem_cons.1 hr with rfl | hr
    · refine ⟨hsl, Nat.sub_pos_of_lt hlt, ?_⟩
      change mr.addr + sizes.sum + (mr.length - sizes.sum) ≤ _
      omega
    · exact inside_cut hsl hpos (by omega) r hr
  · rw [countP_cons, covers_cut]
    simp only [countP_cons, covers_iff]
    split_ifs <;> omega
  · rw [nbytes_cons, nbytes_cut]
    simp only [nbytes, map_cons, map_nil, sum_cons, sum_nil]
    omega

theorem Tiled.allocUnsafe (h : Tiled pool a out) (hpos : ∀ size ∈ sizes, 0 < size) (hne : sizes ≠ []) :
    (a.allocUnsafe pool sizes = some (a, .error .outOfMemory) ∧
      ∀ size ∈ sizes.head?, ∀ mr ∈ a.mrList, mr.length < size) ∨
    ∃ b value n, a.allocUnsafe pool sizes = some (b, .ok value) ∧ 0 < n ∧ n ≤ sizes.length ∧
      value.map (·.length) = sizes.take n ∧ nbytes (value.map whole) = (sizes.take n).sum ∧
      Tiled pool b (value.map whole ++ out) ∧ SameCounts a b := by
  obtain ⟨first, rest, rfl⟩ := exists_cons_of_ne_nil hne
  unfold allocUnsafe
  split
  · rename_i hem
    left
    rw [h.eq_nil_of_lookupTable (isEmpty_iff.1 hem)]
    exact ⟨rfl, by simp⟩
  rename_i hsm
  obtain ⟨⟨len, group⟩, hen, htr, hlr⟩ := target_spec (mt isEmpty_iff.2 hsm) (first :: rest).sum h.groups.ordered
  rw [htr]
  dsimp only [head?_cons, Option.bind_some]
  split
  · rename_i hsl
    left
    refine ⟨rfl, ?_⟩
    rintro _ ⟨⟩ mr hmr
    have hle := hlr.resolve_left (by rw [sum_cons]; dsimp only; omega) (mr.length, _)
      (h.groups.ordered.mem_iff.2 (h.groups.lookup_measure hmr))
    omega
  rename_i hlg
  right
  obtain ⟨hgr, hnn⟩ := h.groups.of_mem hen
  dsimp only at hgr hnn
  have hls := getLast?_eq_some_getLast hnn
  have hmem := getLast_mem hnn
  generalize group.getLast hnn = mr at hls hmem
  obtain ⟨hfr, rfl⟩ := Index.mem_group.1 (hgr ▸ hmem)
  obtain ⟨n, hn, hfit, hrm, hfs⟩ := fit_spec mr.length (first :: rest) 0 0 (zero_le _)
  have hlf : group.dropLast = (Index.group MemoryRegionIntl.length a.mrList mr.length).erase mr := by
    rw [← hgr]
    have hnd : group.Nodup := hgr ▸ h.sorted.nodup.filter _
    obtain ⟨init, rfl⟩ := getLast?_eq_some_iff.1 hls
    have hint : mr ∉ init := fun hmr => (nodup_append.1 hnd).2.2 mr hmr mr mem_cons_self rfl
    rw [dropLast_concat, erase_append_right _ hint, erase_cons_head, append_nil]
  have hout := h.take hfr hlf
  have hcut : Tiled pool _ ([mr] ++ out) := hout
  have hin := h.inside mr (mem_append_left _ hfr)
  have hps : ∀ size ∈ (first :: rest).take n, 0 < size := fun size hs => hpos size (mem_of_mem_take hs)
  rw [zero_add, zero_add] at hfit
  rw [hls, hfit]
  dsimp only
  refine ⟨_, _, n, rfl, hfs first rfl (by omega), hn, length_cut _ _ _, nbytes_cut _ _ _, ?_, ?_⟩
  · split
    · rename_i hlt
      have hrs := hcut.recut (recut_cut_off hin hps hlt)
      refine hrs.add (fun r hr ht => ?_) fun r hr ht => ?_
      · -- It would end inside of the region that is being cut.
        have hsum : 0 < ((first :: rest).take n).sum := by
          obtain ⟨m, rfl⟩ := Nat.exists_eq_succ_of_ne_zero (Nat.ne_of_gt (hfs first rfl (by omega)))
          exact Nat.add_pos_left (hpos first mem_cons_self) _
        have hfrr := h.length_pos (mem_append_left _ (mem_of_mem_erase hr))
        have := (hout.disjoint hr).addr ht.1.symm hin.2.1 hfrr
        have := ht.2
        dsimp only at this
        omega
      · refine h.apart mr hfr r (mem_of_mem_erase hr) ⟨ht.1, ?_⟩
        rw [← ht.2]
        dsimp only
        omega
    · exact hcut.recut (recut_cut hin hps (by omega))
  · split <;> exact ⟨rfl, rfl, rfl⟩

/-! ## The operations -/

variable (pool)

structure Consistent (a : CoalescingPoolAllocator) (live : List ManagedMemoryRegion) : Prop where
  tiled : Tiled pool a (live.map ManagedMemoryRegion.whole)
  used : a.usedNbytes = nbytes (live.map ManagedMemoryRegion.whole)
  capacity : a.capacityNbytes = a.slabs * pool.slabNbytes

def AllocOutcome (a : CoalescingPoolAllocator) (sizes : List Nat) :
    CoalescingPoolAllocator × Status (List ManagedMemoryRegion) → Prop
  | (b, .ok mrs) =>
    mrs ≠ [] ∧ mrs.length ≤ sizes.length ∧ mrs.map (·.length) = sizes.take mrs.length ∧
      ∀ size ∈ sizes[mrs.length]?, ∀ mr ∈ b.mrList, mr.length < size
  | (b, .error code) =>
    code = .outOfMemory ∧ b = a ∧ ∀ size ∈ sizes.head?, ∀ mr ∈ a.mrList, mr.length < size

variable {pool} {live mrs : List ManagedMemoryRegion}

section

variable (h : Consistent pool a live)
include h

theorem Consistent.extend {value : List ManagedMemoryRegion} (htl : Tiled pool b (value.map whole ++ live.map whole))
    (hsm : SameCounts a b) (hnb : nbytes (value.map whole) = (value.map (·.length)).sum) :
    Consistent pool { b with usedNbytes := b.usedNbytes + (value.map (·.length)).sum } (live ++ value) := by
  have hpr : (live ++ value).map whole = live.map whole ++ value.map whole := map_append
  refine ⟨?_, ?_, ?_⟩
  · rw [hpr]
    have htl' := htl.perm perm_append_comm
    exact htl'.of_perm (.refl _) rfl htl'.sorted htl'.groups htl'.apart
  · rw [hpr, nbytes_append, hnb, hsm.used, h.used]
  · rw [hsm.capacity, hsm.slabs, h.capacity]

omit h in
theorem Consistent.allocLoop {fuel : Nat} (h : Consistent pool a (live ++ mrs))
    (hmrs : mrs.map (·.length) = sizes.take mrs.length) (hle : mrs.length ≤ sizes.length)
    (hfu : sizes.length - mrs.length < fuel) (hpos : ∀ size ∈ sizes, 0 < size) (hne : sizes ≠ []) :
    ∃ b status, allocLoop pool sizes fuel a mrs = some (b, status) ∧ AllocOutcome a sizes (b, status) ∧
      (mrs ≠ [] → ∃ value, status = .ok value) ∧ Consistent pool b (live ++ handedOut status) ∧
      b.capacityNbytes = a.capacityNbytes := by
  induction fuel generalizing a mrs with
  | zero => omega
  | succ fuel ih =>
    rw [allocLoop]
    split
    · rename_i hlt
      have hrs : sizes.drop mrs.length ≠ [] := by simpa using hlt
      have hps : ∀ size ∈ sizes.drop mrs.length, 0 < size := fun size hs => hpos size (mem_of_mem_drop hs)
      rcases h.tiled.allocUnsafe hps hrs with
        ⟨hfl, hsm⟩ | ⟨b, value, n, hrn, hn, hnle, hlg, hnb, htl, hsa⟩
      · -- No region for the next size.
        rw [hfl]
        rw [head?_drop] at hsm
        cases mrs with
        | nil =>
          refine ⟨a, _, rfl, ⟨rfl, rfl, ?_⟩, fun hnil => absurd rfl hnil, h, rfl⟩
          simpa [head?_eq_getElem?] using hsm
        | cons mr mrs =>
          exact ⟨a, _, rfl, ⟨cons_ne_nil _ _, hle, hmrs, hsm⟩, fun _ => ⟨_, rfl⟩, h, rfl⟩
      rw [hrn, Option.bind_some]
      have hln : value.length = n := by
        have := congrArg List.length hlg
        rw [length_map, length_take] at this
        omega
      rw [← hlg] at hnb
      have hex := h.extend htl hsa hnb
      rw [append_assoc] at hex
      rw [length_drop] at hnle
      have hvl : value ≠ [] := ne_nil_of_length_pos (by omega)
      obtain ⟨c, status, hlp, hot, hok, hcn, hcp⟩ := ih hex
        (by rw [map_append, hmrs, hlg, length_append, take_add, hln])
        (by rw [length_append]; omega) (by rw [length_append]; omega)
      obtain ⟨final, rfl⟩ := hok (append_ne_nil_of_right_ne_nil _ hvl)
      exact ⟨c, _, hlp, hot, fun _ => ⟨final, rfl⟩, hcn, hcp.trans hsa.capacity⟩
    · rename_i hdn
      have hln : mrs.length = sizes.length := by omega
      have hmr : mrs ≠ [] := ne_nil_of_length_pos (by rw [hln]; exact length_pos_iff.2 hne)
      refine ⟨a, _, rfl, ⟨hmr, hle, hmrs, ?_⟩, fun _ => ⟨_, rfl⟩, h, rfl⟩
      rw [hln]
      simp

theorem Consistent.alloc (hpos : ∀ size ∈ sizes, 0 < size) :
    ∃ b status, a.alloc pool sizes = some (b, status) ∧ (sizes ≠ [] → AllocOutcome a sizes (b, status)) ∧
      Consistent pool b (live ++ handedOut status) ∧ b.capacityNbytes = a.capacityNbytes := by
  unfold CoalescingPoolAllocator.alloc
  split
  · rename_i hem
    refine ⟨a, _, rfl, fun hne => absurd (isEmpty_iff.1 hem) hne, ?_, rfl⟩
    rwa [handedOut, append_nil]
  rename_i hsm
  have hne : sizes ≠ [] := mt isEmpty_iff.2 hsm
  have hst : Consistent pool a (live ++ []) := by rwa [append_nil]
  obtain ⟨b, status, hlp, hot, -, hb⟩ := hst.allocLoop rfl (zero_le _) (lt_succ_self _) hpos hne
  exact ⟨b, status, hlp, fun _ => hot, hb⟩

theorem Consistent.finalizeMr {i : Nat} {mr : ManagedMemoryRegion}
    (hi : live[i]? = some mr) : ∃ b, a.finalizeMr pool mr = some b ∧ Consistent pool b (live.eraseIdx i) ∧
      b.capacityNbytes = a.capacityNbytes := by
  have hpr : (live.map whole).Perm
      (mr.whole :: (live.eraseIdx i).map whole) := by
    obtain ⟨hlt, rfl⟩ := List.getElem?_eq_some_iff.1 hi
    exact (getElem_cons_eraseIdx_perm hlt).symm.map _
  have htl := h.tiled.perm hpr
  have hpos : 0 < mr.capacity := htl.length_pos (mem_append_right _ mem_cons_self)
  have hus : a.usedNbytes = mr.capacity + nbytes ((live.eraseIdx i).map whole) := by
    rw [h.used, nbytes_perm hpr]
    rfl
  obtain ⟨b, hb, hfn, hsm⟩ := htl.finalizeSlabSliceUnsafe
  change a.finalizeSlabSliceUnsafe pool mr.slab mr.addr mr.capacity = some b at hb
  have hkp : ¬b.usedNbytes < mr.capacity := by
    rw [hsm.used]
    omega
  unfold CoalescingPoolAllocator.finalizeMr
  rw [if_neg (ne_of_gt hpos), hb, Option.bind_some, if_neg hkp]
  refine ⟨_, rfl, ⟨?_, ?_, ?_⟩, hsm.capacity⟩
  · exact hfn.of_perm (.refl _) rfl hfn.sorted hfn.groups hfn.apart
  · change b.usedNbytes - _ = _
    rw [hsm.used]
    omega
  · rw [hsm.capacity, hsm.slabs, h.capacity]

end

theorem Tiled.grow (h : Tiled pool a []) :
    Tiled pool { a with slabs := a.slabs + 1 } [⟨a.slabs, 0, pool.slabNbytes⟩] where
  sorted := h.sorted
  groups := h.groups
  apart := h.apart
  inside mr hmr := by
    rcases mem_append.1 hmr with hfr | hnew
    · obtain ⟨hsl, hrs⟩ := h.inside mr (mem_append_left _ hfr)
      exact ⟨lt_succ_of_lt hsl, hrs⟩
    · rw [mem_singleton.1 hnew]
      exact ⟨lt_succ_self _, pool.slabNbytes_pos, le_of_eq (zero_add _)⟩
  once slab hsl x hx := by
    rw [countP_append, countP_singleton]
    simp only [covers_iff]
    by_cases hnew : a.slabs = slab
    · subst hnew
      have hnn : a.mrList.countP (·.covers a.slabs x) = 0 := by
        rw [countP_eq_zero]
        intro mr hmr hcv
        have hold := (h.inside mr (mem_append_left _ hmr)).1
        have := (covers_iff.1 hcv).1
        omega
      rw [hnn, if_pos ⟨rfl, zero_le _, by omega⟩]
    · rw [if_neg fun hcv => hnew hcv.1, add_zero]
      have := h.once slab (by change slab < a.slabs + 1 at hsl; omega) x hx
      rwa [append_nil] at this
  total := by
    have := h.total
    rw [append_nil] at this
    rw [nbytes_append, this, add_mul]
    simp [nbytes]

theorem growSlabs_spec (n : Nat) (h : Tiled pool a []) :
    ∃ b, growSlabs pool n a = some b ∧ Tiled pool b [] ∧ b.slabs = a.slabs + n ∧ b.usedNbytes = a.usedNbytes ∧
      b.capacityNbytes = a.capacityNbytes := by
  induction n generalizing a with
  | zero => exact ⟨a, rfl, h, rfl, rfl, rfl⟩
  | succ n ih =>
    obtain ⟨b, hb, htl, hsm⟩ := h.grow.finalizeSlabSliceUnsafe
    obtain ⟨c, hc, hfn, hsl, hus, hcp⟩ := ih htl
    refine ⟨c, ?_, hfn, ?_, hus.trans hsm.used, hcp.trans hsm.capacity⟩
    · exact (congrArg (Option.bind · (growSlabs pool n)) hb).trans hc
    · rw [hsl, hsm.slabs]
      exact succ_add_eq_add_succ _ _

theorem tiled_empty (capacityNbytes : Nat) : Tiled pool { capacityNbytes } [] where
  sorted := List.Pairwise.nil
  groups := ⟨List.Pairwise.nil, fun _ => rfl⟩
  inside := by simp
  once slab hsl := absurd hsl (not_lt_zero _)
  apart := by simp
  total := (zero_mul _).symm

theorem init_spec {capacityNbytes : Nat} (hpos : 0 < capacityNbytes) :
    ∃ a, init pool capacityNbytes = some a ∧ Consistent pool a [] ∧
      a.capacityNbytes = roundUp capacityNbytes pool.slabNbytes := by
  obtain ⟨a, ha, htl, hsl, hus, hcp⟩ := growSlabs_spec (roundUp capacityNbytes pool.slabNbytes / pool.slabNbytes)
    (@tiled_empty pool
      (0 + roundUp capacityNbytes pool.slabNbytes / pool.slabNbytes * pool.slabNbytes))
  have hrn : roundUp capacityNbytes pool.slabNbytes / pool.slabNbytes * pool.slabNbytes =
      roundUp capacityNbytes pool.slabNbytes := Nat.div_mul_cancel (Nat.dvd_mul_left _ _)
  refine ⟨a, ?_, ⟨htl, hus, ?_⟩, ?_⟩
  · unfold init grow
    rw [if_neg (ne_of_gt hpos)]
    exact ha
  · rw [hcp, hsl, zero_add, zero_add]
  · rw [hcp, zero_add, hrn]

/-! ## Every history -/

theorem Consistent.call {s : Served} (h : Consistent pool s.allocator s.live) {c : Call} (hpos : c.Positive) :
    ∃ t, call pool s c = some t ∧ Consistent pool t.allocator t.live ∧
      t.allocator.capacityNbytes = s.allocator.capacityNbytes := by
  cases c with
  | alloc sizes =>
    obtain ⟨b, status, hal, -, hb⟩ := h.alloc hpos
    exact ⟨_, by rw [CoalescingPoolAllocator.call, hal]; rfl, hb⟩
  | free i =>
    rw [CoalescingPoolAllocator.call]
    cases hi : s.live[i]? with
    | none => exact ⟨s, rfl, h, rfl⟩
    | some mr =>
      obtain ⟨b, hfr, hb⟩ := h.finalizeMr hi
      exact ⟨⟨b, s.live.eraseIdx i⟩, by dsimp only; rw [hfr]; rfl, hb⟩
  | setLength i length =>
    have hwh : (s.live.modify i ({ · with length })).map whole =
        s.live.map whole := by
      apply ext_getElem?
      intro j
      rw [getElem?_map, getElem?_modify, getElem?_map]
      split <;> cases s.live[j]? <;> rfl
    refine ⟨_, rfl, ⟨?_, ?_, h.capacity⟩, rfl⟩
    · rw [hwh]
      exact h.tiled
    · rw [hwh]
      exact h.used

theorem Consistent.calls {s : Served} (h : Consistent pool s.allocator s.live) {cs : List Call}
    (hpos : ∀ c ∈ cs, c.Positive) : ∃ t, calls pool s cs = some t ∧ Consistent pool t.allocator t.live ∧
      t.allocator.capacityNbytes = s.allocator.capacityNbytes := by
  induction cs generalizing s with
  | nil => exact ⟨s, rfl, h, rfl⟩
  | cons c cs ih =>
    obtain ⟨t, ht, hcn, hcp⟩ := h.call (hpos c mem_cons_self)
    obtain ⟨u, hu, hfn, hcp'⟩ := ih hcn fun c hc => hpos c (mem_cons_of_mem _ hc)
    refine ⟨u, ?_, hfn, hcp'.trans hcp⟩
    rw [CoalescingPoolAllocator.calls, ht]
    exact hu

variable (pool) in
structure Partitioned (s : Served) : Prop where
  disjoint : (s.allocator.mrList ++ s.live.map ManagedMemoryRegion.whole).Pairwise MemoryRegionIntl.Disjoint
  inside : ∀ mr ∈ s.allocator.mrList ++ s.live.map ManagedMemoryRegion.whole, Inside pool s.allocator.slabs mr
  covered : ∀ slab < s.allocator.slabs, ∀ x < pool.slabNbytes,
    ∃ mr ∈ s.allocator.mrList ++ s.live.map ManagedMemoryRegion.whole, mr.covers slab x = true
  apart : ∀ mr ∈ s.allocator.mrList, ∀ mr' ∈ s.allocator.mrList, ¬Touches mr mr'

structure Indexed (a : CoalescingPoolAllocator) : Prop where
  ordered : (a.lookupTable.map Prod.fst).Pairwise (· < ·)
  group : ∀ e ∈ a.lookupTable, e.2 ≠ [] ∧ e.2 = a.mrList.filter fun mr => decide (mr.length = e.1)
  listed : ∀ mr ∈ a.mrList, mr.length ∈ a.lookupTable.map Prod.fst

theorem Tiled.pairwise_disjoint (h : Tiled pool a out) : (a.mrList ++ out).Pairwise MemoryRegionIntl.Disjoint := by
  rw [pairwise_iff_forall_sublist]
  rintro mr mr' hsub slab x ⟨hcv, hcv'⟩
  obtain ⟨hsl, -, hend⟩ := h.inside mr (hsub.subset mem_cons_self)
  have hby := covers_iff.1 hcv
  have hon := h.once slab (hby.1 ▸ hsl) x (by omega)
  have htwo := hsub.countP_le (p := fun mr => mr.covers slab x)
  simp only [countP_cons, hcv, hcv', if_true] at htwo
  omega

theorem Consistent.partitioned {s : Served} (h : Consistent pool s.allocator s.live) : Partitioned pool s where
  disjoint := h.tiled.pairwise_disjoint
  inside := h.tiled.inside
  covered slab hsl x hx := countP_pos_iff.1 (lt_of_lt_of_eq one_pos (h.tiled.once slab hsl x hx).symm)
  apart := h.tiled.apart

theorem Tiled.indexed (h : Tiled pool a out) : Indexed a where
  ordered := pairwise_map.2 h.groups.ordered
  group _ he := (h.groups.of_mem he).symm
  listed _ hmr := mem_map.2 ⟨_, h.groups.ordered.mem_iff.2 (h.groups.lookup_measure hmr), rfl⟩

theorem Tiled.whole_slabs (h : Tiled pool a []) {slab : Nat} (hsl : slab < a.slabs) :
    a.mrList.filter (fun mr => decide (mr.slab = slab)) = [⟨slab, 0, pool.slabNbytes⟩] := by
  have hcv : ∀ x < pool.slabNbytes, ∃ mr ∈ a.mrList, mr.slab = slab ∧ mr.addr ≤ x ∧ x < mr.addr + mr.length := by
    intro x hx
    have hon := h.once slab hsl x hx
    rw [append_nil] at hon
    obtain ⟨mr, hmr, hcr⟩ := countP_pos_iff.1 (lt_of_lt_of_eq one_pos hon.symm)
    exact ⟨mr, hmr, covers_iff.1 hcr⟩
  have hap : ∀ mr ∈ a.mrList, ∀ mr' ∈ a.mrList, mr.slab = mr'.slab → mr' ≠ mr →
      mr.addr + mr.length ≤ mr'.addr ∨ mr'.addr + mr'.length ≤ mr.addr := fun mr hmr mr' hmr' hsm hne =>
    (h.disjoint_free hmr hmr' hne).addr hsm (h.length_pos (mem_append_left _ hmr))
      (h.length_pos (mem_append_left _ hmr'))
  -- The region at the first byte goes to the end, since the next one would touch it.
  obtain ⟨first, hfr, rfl, had, -⟩ := hcv 0 pool.slabNbytes_pos
  obtain ⟨-, hpos, hend⟩ := h.inside first (mem_append_left _ hfr)
  have hln : first.length = pool.slabNbytes := by
    by_contra hsh
    obtain ⟨second, hsc, hsl', hle, hlt⟩ := hcv first.length (by omega)
    have hne : second ≠ first := by
      rintro rfl
      omega
    have := hap first hfr second hsc hsl'.symm hne
    exact h.apart first hfr second hsc ⟨hsl'.symm, by omega⟩
  have hwh : (⟨first.slab, 0, pool.slabNbytes⟩ : MemoryRegionIntl) = first := by
    rw [← hln, ← le_zero.1 had]
  rw [hwh, ← perm_singleton, perm_ext_iff_of_nodup (h.sorted.nodup.filter _) (nodup_singleton _)]
  intro mr
  rw [mem_filter, decide_eq_true_eq, mem_singleton]
  constructor
  · rintro ⟨hmr, hsm⟩
    by_contra hne
    have := hap first hfr mr hmr hsm.symm hne
    obtain ⟨-, hpos', hend'⟩ := h.inside mr (mem_append_left _ hmr)
    omega
  · rintro rfl
    exact ⟨hfr, rfl⟩

theorem free_and_live_partition {capacityNbytes : Nat} (hcapacity : 0 < capacityNbytes) {cs : List Call}
    (hpos : ∀ c ∈ cs, c.Positive) :
    ∃ s, run pool capacityNbytes cs = some s ∧ Partitioned pool s ∧ Indexed s.allocator ∧
      s.allocator.usedNbytes = (s.live.map (·.capacity)).sum ∧
      s.allocator.usedNbytes + nbytes s.allocator.mrList = s.allocator.capacityNbytes ∧
      s.allocator.capacityNbytes = s.allocator.slabs * pool.slabNbytes ∧
      s.allocator.capacityNbytes = roundUp capacityNbytes pool.slabNbytes ∧
      (∀ sizes ≠ [], (∀ size ∈ sizes, 0 < size) →
        ∃ outcome, s.allocator.alloc pool sizes = some outcome ∧ AllocOutcome s.allocator sizes outcome) ∧
      (s.live = [] → ∀ slab < s.allocator.slabs,
        s.allocator.mrList.filter (fun mr => decide (mr.slab = slab)) = [⟨slab, 0, pool.slabNbytes⟩]) := by
  obtain ⟨a, ha, hstart, hround⟩ := @init_spec pool _ hcapacity
  obtain ⟨s, hs, h, hsame⟩ := Consistent.calls (s := ⟨a, []⟩) hstart hpos
  refine ⟨s, ?_, h.partitioned, h.tiled.indexed, ?_, ?_, h.capacity, hsame.trans hround, ?_, ?_⟩
  · unfold run
    rw [ha]
    exact hs
  · rw [h.used, nbytes, map_map]
    rfl
  · rw [h.capacity, ← h.tiled.total, nbytes_append, h.used, add_comm]
  · intro sizes hne hsizes
    obtain ⟨b, status, halloc, houtcome, -⟩ := h.alloc hsizes
    exact ⟨_, halloc, houtcome hne⟩
  · intro hlive slab hslab
    have htiled := h.tiled
    rw [hlive] at htiled
    exact htiled.whole_slabs hslab

def smallSlabs : SlabPool where
  slabNbytes := 16
  slabNbytes_pos := Nat.succ_pos 15
  dataPtr i := 16 * i
  apart _ _ _ := by omega

/-- Three regions from two slabs, one of them sealed, all of them freed. -/
theorem free_and_live_partition_freed :
    ∃ s, run smallSlabs 20 [.alloc [4, 8, 16], .setLength 1 3, .free 1, .free 0, .free 0] = some s ∧ s.live = [] ∧
      s.allocator.mrList.filter (fun mr => decide (mr.slab = 1)) = [⟨1, 0, 16⟩] := by
  obtain ⟨s, hs, -, -, -, -, -, -, -, hfreed⟩ := @free_and_live_partition smallSlabs 20 (succ_pos 19)
    [.alloc [4, 8, 16], .setLength 1 3, .free 1, .free 0, .free 0] (by simp [Call.Positive])
  have hend : (run smallSlabs 20 [.alloc [4, 8, 16], .setLength 1 3, .free 1, .free 0, .free 0]).map
      (fun s => (s.live, s.allocator.slabs)) = some ([], 2) := by decide
  rw [hs] at hend
  obtain ⟨hlive, hslabs⟩ := Prod.mk.inj (Option.some.inj hend)
  exact ⟨s, hs, hlive, hfreed hlive 1 (hslabs.symm ▸ Nat.one_lt_two)⟩

end CoalescingPoolAllocator

end Aibrix.KvCache
