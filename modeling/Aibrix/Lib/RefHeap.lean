import Mathlib.Algebra.BigOperators.Intervals

/-! # Reference-counted cells

Cells that are handed out with one reference and go back when their last reference is dropped. -/

namespace Aibrix.Lib

open Multiset Function Finset

structure RefHeap (D : Type) where
  refCount : Nat → Nat := fun _ => 0
  size : Nat → Nat := fun _ => 0
  content : Nat → D
  junk : D
  next : Nat := 0
  used : Int := 0
  raised : Bool := false

namespace RefHeap

variable {D : Type} (h : RefHeap D)

def up (r : Nat) : RefHeap D :=
  { h with refCount := update h.refCount r (h.refCount r + 1) }

def free (r : Nat) : RefHeap D :=
  { h with
    refCount := update h.refCount r 0
    content := update h.content r h.junk
    used := h.used - h.size r }

def down (r : Nat) : RefHeap D :=
  if h.refCount r = 0 then { h with raised := true }
  else if h.refCount r = 1 then h.free r
  else { h with refCount := update h.refCount r (h.refCount r - 1) }

def new (size : Nat) : RefHeap D :=
  { h with
    refCount := update h.refCount h.next 1
    size := update h.size h.next size
    content := update h.content h.next h.junk
    next := h.next + 1
    used := h.used + size }

def alloc (sizes : List Nat) : RefHeap D := sizes.foldl new h

def granted (sizes : List Nat) : List Nat := List.range' h.next sizes.length

def write (r : Nat) (d : D) : RefHeap D :=
  { h with content := update h.content r d }

/-! ## Owners -/

variable {h h' h'' : RefHeap D} {owners : Multiset Nat} {r : Nat}

def liveSize (h : RefHeap D) (r : Nat) : Int := if h.refCount r = 0 then 0 else h.size r

theorem liveSize_of_zero (hr : h.refCount r = 0) : h.liveSize r = 0 := if_pos hr

theorem liveSize_of_ne_zero (hr : h.refCount r ≠ 0) : h.liveSize r = h.size r := if_neg hr

structure Owned (h : RefHeap D) (owners : Multiset Nat) : Prop where
  count : ∀ r, h.refCount r = owners.count r
  fresh : ∀ r, h.next ≤ r → h.refCount r = 0
  used : h.used = ∑ r ∈ Finset.range h.next, h.liveSize r
  calm : h.raised = false

theorem Owned.ne_zero (ho : h.Owned owners) (hr : r ∈ owners) : h.refCount r ≠ 0 := by
  rw [ho.count]
  exact Multiset.count_ne_zero.2 hr

theorem Owned.lt_next (ho : h.Owned owners) (hr : r ∈ owners) : r < h.next := by
  by_contra hle
  exact ho.ne_zero hr (ho.fresh r (by omega))

theorem Owned.returned (ho : h.Owned 0) : (∀ r, h.refCount r = 0) ∧ h.used = 0 := by
  have hcn : ∀ r, h.refCount r = 0 := fun r => by rw [ho.count, count_zero]
  refine ⟨hcn, ?_⟩
  rw [ho.used]
  apply Finset.sum_eq_zero
  exact fun r _ => liveSize_of_zero (hcn r)

theorem liveSize_congr (hcn : h'.refCount r = h.refCount r) (hsz : h'.size r = h.size r) :
    h'.liveSize r = h.liveSize r := by
  unfold liveSize
  rw [hcn, hsz]

theorem sum_liveSize_of_off (h : RefHeap D) (hnx : h'.next = h.next) (hr : r < h.next)
    (hoff : ∀ i ≠ r, h'.liveSize i = h.liveSize i) : ∑ i ∈ Finset.range h'.next, h'.liveSize i =
      ∑ i ∈ Finset.range h.next, h.liveSize i - h.liveSize r + h'.liveSize r := by
  have hmem : r ∈ Finset.range h.next := Finset.mem_range.2 hr
  have hrs : ∑ i ∈ (Finset.range h.next).erase r, h'.liveSize i = ∑ i ∈ (Finset.range h.next).erase r, h.liveSize i :=
    Finset.sum_congr rfl fun i hi => hoff i (Finset.ne_of_mem_erase hi)
  have hnew := add_sum_erase _ h'.liveSize hmem
  have hold := add_sum_erase _ h.liveSize hmem
  rw [hnx]
  omega

section

variable (ho : h.Owned owners)
include ho

theorem Owned.recount {owners' : Multiset Nat} (hr : r < h.next) (hnx : h'.next = h.next)
    (hsz : h'.size = h.size) (hrs : h'.raised = h.raised) (hoff : ∀ i ≠ r, h'.refCount i = h.refCount i)
    (hcn : ∀ i, h'.refCount i = owners'.count i) (hus : h'.used = h.used - h.liveSize r + h'.liveSize r) :
    h'.Owned owners' where
  count := hcn
  fresh i hi := by
    rw [hoff i (by omega)]
    exact ho.fresh i (by omega)
  used := by
    rw [hus, sum_liveSize_of_off h hnx hr, ho.used]
    exact fun i hi => liveSize_congr (hoff i hi) (by rw [hsz])
  calm := hrs.trans ho.calm

theorem Owned.up (hr : r ∈ owners) : (h.up r).Owned (r ::ₘ owners) := by
  have hne := ho.ne_zero hr
  refine ho.recount (ho.lt_next hr) rfl rfl rfl (fun i hi => update_of_ne hi ..) (fun i => ?_) ?_
  · show update h.refCount r (h.refCount r + 1) i = _
    rw [count_cons, update_apply, ← ho.count i]
    split
    · subst i
      rfl
    · rfl
  · have hup : (h.up r).refCount r = h.refCount r + 1 := update_self ..
    rw [liveSize_of_ne_zero hne, liveSize_of_ne_zero (by omega)]
    show h.used = h.used - h.size r + h.size r
    omega

omit ho in
theorem Owned.down (ho : h.Owned (r ::ₘ owners)) : (h.down r).Owned owners := by
  have hlt := ho.lt_next (mem_cons_self r owners)
  have hsl : h.refCount r = owners.count r + 1 := by rw [ho.count, count_cons_self]
  have hcn : ∀ n, n = owners.count r → ∀ i, update h.refCount r n i = owners.count i := by
    rintro n rfl i
    rw [update_apply]
    split
    · subst i
      rfl
    · rw [ho.count, count_cons_of_ne ‹_›]
  unfold RefHeap.down
  rw [if_neg (by omega)]
  split
  · refine ho.recount hlt rfl rfl rfl (fun i hi => update_of_ne hi ..) (hcn 0 (by omega)) ?_
    rw [liveSize_of_ne_zero (by omega), liveSize_of_zero (update_self ..)]
    show h.used - h.size r = h.used - h.size r + 0
    omega
  refine ho.recount hlt rfl rfl rfl (fun i hi => update_of_ne hi ..) (hcn _ (by omega)) ?_
  have hdw : update h.refCount r (h.refCount r - 1) r ≠ 0 := by
    rw [update_self]
    omega
  rw [liveSize_of_ne_zero (by omega), liveSize_of_ne_zero hdw]
  dsimp only
  omega

theorem Owned.new (size : Nat) : (h.new size).Owned (h.next ::ₘ owners) := by
  have hfr := ho.fresh h.next le_rfl
  constructor
  · intro i
    show update h.refCount h.next 1 i = _
    rw [count_cons, update_apply, ← ho.count i]
    split
    · subst i
      omega
    · omega
  · intro i hi
    have hi' : h.next + 1 ≤ i := hi
    show update h.refCount h.next 1 i = 0
    rw [update_of_ne (by omega)]
    exact ho.fresh i (by omega)
  · show h.used + size = ∑ i ∈ range (h.next + 1), (h.new size).liveSize i
    rw [sum_range_succ, ho.used]
    congr 1
    · apply sum_congr rfl
      intro i hi
      have hne : i ≠ h.next := by
        have := Finset.mem_range.1 hi
        omega
      exact (liveSize_congr (update_of_ne hne ..) (update_of_ne hne ..)).symm
    · have hnew : (h.new size).refCount h.next ≠ 0 := by
        show update h.refCount h.next 1 h.next ≠ 0
        rw [update_self]
        omega
      rw [liveSize_of_ne_zero hnew]
      show (size : Int) = ↑(update h.size h.next size h.next)
      rw [update_self]
  · exact ho.calm

theorem Owned.alloc (sizes : List Nat) : (h.alloc sizes).Owned (↑(h.granted sizes) + owners) := by
  induction sizes generalizing h owners with
  | nil => simpa [RefHeap.alloc, granted] using ho
  | cons size sizes ih =>
    have hrs := ih (ho.new size)
    unfold RefHeap.alloc granted at hrs ⊢
    rw [List.foldl_cons, List.length_cons, List.range'_succ]
    convert hrs using 1
    rw [← cons_coe, cons_add, add_cons]
    rfl

theorem Owned.congr {owners' : Multiset Nat} (heq : owners = owners') : h.Owned owners' :=
  heq ▸ ho

end

/-! ## What is still held is unchanged -/

structure Kept (h h' : RefHeap D) : Prop where
  next_le : h.next ≤ h'.next
  gone : ∀ r < h.next, h.refCount r = 0 → h'.refCount r = 0
  content : ∀ r < h.next, h'.refCount r ≠ 0 → h'.content r = h.content r
  junk : h'.junk = h.junk

theorem Kept.refl (h : RefHeap D) : Kept h h := ⟨le_rfl, fun _ _ hr => hr, fun _ _ _ => rfl, rfl⟩

theorem Kept.trans (hk : Kept h h') (hk' : Kept h' h'') : Kept h h'' where
  next_le := hk.next_le.trans hk'.next_le
  gone r hr hzr := hk'.gone r (hr.trans_le hk.next_le) (hk.gone r hr hzr)
  content r hr hne := by
    have hmid : h'.refCount r ≠ 0 := fun hzr => hne (hk'.gone r (hr.trans_le hk.next_le) hzr)
    rw [hk'.content r (hr.trans_le hk.next_le) hne, hk.content r hr hmid]
  junk := hk'.junk.trans hk.junk

theorem kept_up (hr : h.refCount r ≠ 0) : Kept h (h.up r) where
  next_le := le_rfl
  gone i _ hzr := by
    show update h.refCount r (h.refCount r + 1) i = 0
    rw [update_of_ne, hzr]
    rintro rfl
    exact hr hzr
  content _ _ _ := rfl
  junk := rfl

theorem kept_down (h : RefHeap D) (r : Nat) : Kept h (h.down r) := by
  unfold RefHeap.down
  split
  · exact ⟨le_rfl, fun _ _ hzr => hzr, fun _ _ _ => rfl, rfl⟩
  split
  · refine ⟨le_rfl, fun i _ hzr => ?_, fun i _ hne => ?_, rfl⟩
    · show update h.refCount r 0 i = 0
      rw [update_apply]
      split
      · rfl
      · exact hzr
    · have hir : i ≠ r := by
        rintro rfl
        exact hne (update_self ..)
      exact update_of_ne hir ..
  · refine ⟨le_rfl, fun i _ hzr => ?_, fun _ _ _ => rfl, rfl⟩
    show update h.refCount r (h.refCount r - 1) i = 0
    rw [update_of_ne, hzr]
    rintro rfl
    contradiction

theorem kept_new (h : RefHeap D) (size : Nat) : Kept h (h.new size) where
  next_le := Nat.le_succ _
  gone i hi hzr := by
    show update h.refCount h.next 1 i = 0
    rw [update_of_ne (by omega), hzr]
  content i hi _ := update_of_ne (by omega) ..
  junk := rfl

theorem kept_alloc (h : RefHeap D) (sizes : List Nat) : Kept h (h.alloc sizes) := by
  induction sizes generalizing h with
  | nil => exact .refl h
  | cons size sizes ih => exact (kept_new h size).trans (ih (h.new size))

/-- A cell that is handed out holds nothing of use. -/
theorem content_granted (h : RefHeap D) (sizes : List Nat) (hr : r ∈ h.granted sizes) :
    (h.alloc sizes).content r = h.junk := by
  induction sizes generalizing h with
  | nil => cases hr
  | cons size sizes ih =>
    unfold granted at hr
    rw [List.length_cons, List.range'_succ] at hr
    rcases List.mem_cons.1 hr with rfl | hr
    · have hlt : h.next < (h.new size).next := Nat.lt_succ_self _
      -- The cells after it are new ones.
      have hoff : ∀ (sizes : List Nat) (h' : RefHeap D), h.next < h'.next →
          (h'.alloc sizes).content h.next = h'.content h.next := by
        intro sizes
        induction sizes with
        | nil => exact fun _ _ => rfl
        | cons size sizes ih =>
          intro h' hnext
          refine (ih (h'.new size) (hnext.trans (Nat.lt_succ_self _))).trans ?_
          exact update_of_ne (Nat.ne_of_lt hnext) ..
      exact (hoff sizes _ hlt).trans (update_self ..)
    · exact ih (h.new size) hr

end RefHeap

end Aibrix.Lib
