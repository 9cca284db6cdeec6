import Mathlib.Tactic.Abel
import Aibrix.Lib.RefHeap

/-! # Memory regions of the KV cache

The regions that are handed out, with their reference counts, and the writes to the L2 cache under way. -/

namespace Aibrix.KvCache

open Lib List Multiset Function

inductive StatusCode where
  | error
  | notFound
  | invalid
  | outOfMemory
  | timeout
  | denied
  | cancelled
  deriving DecidableEq, Repr

abbrev Status (α : Type) := Except StatusCode α

def roundUp (x y : Nat) : Nat := (x + y - 1) / y * y

def held : Status (List Nat) → List Nat
  | .ok mrs => mrs
  | .error _ => []

def notPut (mrs : List Nat) : Status Nat → List Nat
  | .ok n => mrs.drop n
  | .error _ => mrs

/-- A region is one of the allocator's, or a buffer of the caller. -/
inductive Region where
  | managed (id : Nat)
  | external (id : Nat)
  deriving DecidableEq, Repr

/-- What a write to the L2 cache finds: how many more the quota allows, or, written at once, whether it raises. -/
inductive Found where
  | room (writes : Nat)
  | atOnce (raises : Bool)
  deriving DecidableEq, Repr

def Found.Admits : Found → Prop
  | .room writes => 0 < writes
  | .atOnce raises => raises = false

instance (found : Found) : Decidable found.Admits := by
  unfold Found.Admits
  split <;> infer_instance

structure World (D : Type) where
  heap : RefHeap D
  external : Nat → D
  grants : Nat → Nat
  attempts : Nat := 0
  inflight : List (List Nat) := []
  found : List Found := []
  leaked : List Nat := []

namespace World

variable {D : Type} (w : World D)

def onHeap (f : RefHeap D → RefHeap D) : World D := { w with heap := f w.heap }

def refUp (mr : Nat) : World D := w.onHeap (·.up mr)

def refDown (mr : Nat) : World D := w.onHeap (·.down mr)

def refUpAll (mrs : List Nat) : World D := mrs.foldl refUp w

def release (mrs : List Nat) : World D := mrs.foldl refDown w

/-- `alloc` of the pool allocator: it serves as many of the sizes as it has room for. -/
def alloc (sizes : List Nat) : World D × Status (List Nat) :=
  let served := sizes.take (w.grants w.attempts)
  if sizes = [] then (w, .error .invalid)
  else if served = [] then ({ w with attempts := w.attempts + 1 }, .error .outOfMemory)
  else ({ w with heap := w.heap.alloc served, attempts := w.attempts + 1 }, .ok (w.heap.granted served))

def leak (mrs : List Nat) : World D := { w with leaked := w.leaked ++ mrs }

def find (found : Found) : World D := { w with found := w.found ++ [found] }

def beginWrite (mrs : List Nat) : World D := { w with inflight := w.inflight ++ [mrs] }

def endWrite (write : Nat) : World D := { w with inflight := w.inflight.eraseIdx write }

/-- `_l2_put_sync`. An exception of the write passes by the release of the regions. -/
def l2PutSync (raises : Bool) (w : World D) (mrs : List Nat) : World D × Option StatusCode :=
  let w := w.find (.atOnce raises)
  if raises then (w.leak mrs, some .error) else (w.release mrs, none)

/-- `_l2_put_async`. Here a write that raises is released by `_done_callback` like any other. -/
def l2PutAsync (quota : Nat) (w : World D) (mrs : List Nat) : World D × Option StatusCode :=
  let w := w.find (.room (quota - w.inflight.length))
  if quota ≤ w.inflight.length then (w.leak mrs, some .denied) else (w.beginWrite mrs, none)

/-- `_l2_put`. -/
def l2Put (quota : Nat) (raises : Bool) (w : World D) (mrs : List Nat) : World D × Option StatusCode :=
  if quota = 0 then w.l2PutSync raises mrs else w.l2PutAsync quota mrs

/-- `_done_callback` of a write. -/
def complete (write : Nat) : World D :=
  match w.inflight[write]? with
  | none => w
  | some mrs => (w.endWrite write).release mrs

def read : Region → D
  | .managed mr => w.heap.content mr
  | .external buffer => w.external buffer

def write (mr : Region) (d : D) : World D :=
  match mr with
  | .managed mr => w.onHeap (·.write mr d)
  | .external buffer => { w with external := Function.update w.external buffer d }

/-! ## Who holds the references -/

variable {w w' w'' : World D} {own own' own'' : Multiset Nat} {mr : Nat} {mrs : List Nat}

def Holds (w : World D) (holders : Multiset Nat) : Prop :=
  w.heap.Owned (holders + ↑w.inflight.flatten + ↑w.leaked)

/-- Where every write to the L2 cache is admitted, no reference stays behind. -/
def Quiet (w w' : World D) : Prop :=
  ∃ found, w'.found = w.found ++ found ∧ ((∀ f ∈ found, f.Admits) → w'.leaked = w.leaked)

theorem Quiet.same (hfound : w'.found = w.found) (hleaked : w'.leaked = w.leaked) : Quiet w w' :=
  ⟨[], by rw [hfound, append_nil], fun _ => hleaked⟩

theorem Quiet.trans (h : Quiet w w') (h' : Quiet w' w'') : Quiet w w'' := by
  obtain ⟨found, hfound, hleaked⟩ := h
  obtain ⟨found', hfound', hleaked'⟩ := h'
  refine ⟨found ++ found', by rw [hfound', hfound, append_assoc], fun hadmits => ?_⟩
  rw [hleaked' fun f hf => hadmits f (mem_append_right _ hf), hleaked fun f hf => hadmits f (mem_append_left _ hf)]

theorem Quiet.leaked_eq (h : Quiet w w') (hadmits : ∀ f ∈ w'.found, f.Admits) : w'.leaked = w.leaked := by
  obtain ⟨found, hfound, hleaked⟩ := h
  exact hleaked fun f hf => hadmits f (hfound ▸ mem_append_right _ hf)

structure Moves (w : World D) (own : Multiset Nat) (w' : World D) (own' : Multiset Nat) : Prop where
  holds : ∀ others, w.Holds (own + others) → w'.Holds (own' + others)
  kept : ∀ others, w.Holds (own + others) → w.heap.Kept w'.heap
  external : w'.external = w.external
  quiet : Quiet w w'

theorem Moves.refl (w : World D) (own : Multiset Nat) : Moves w own w own :=
  ⟨fun _ h => h, fun _ _ => .refl _, rfl, .same rfl rfl⟩

section

variable (h : Moves w own w' own')
include h

theorem Moves.trans (h' : Moves w' own' w'' own'') : Moves w own w'' own'' where
  holds others hw := h'.holds others (h.holds others hw)
  kept others hw := (h.kept others hw).trans (h'.kept others (h.holds others hw))
  external := h'.external.trans h.external
  quiet := h.quiet.trans h'.quiet

theorem Moves.frame (beside : Multiset Nat) : Moves w (own + beside) w' (own' + beside) where
  holds others hw := by
    rw [add_assoc] at hw ⊢
    exact h.holds _ hw
  kept others hw := by
    rw [add_assoc] at hw
    exact h.kept _ hw
  external := h.external
  quiet := h.quiet

theorem Moves.cast {own₀ own₁ : Multiset Nat} (hown : own₀ = own) (hown' : own₁ = own') : Moves w own₀ w' own₁ := by
  subst hown hown'
  exact h

theorem Moves.frameLeft (beside : Multiset Nat) : Moves w (beside + own) w' (beside + own') :=
  (h.frame beside).cast (add_comm _ _) (add_comm _ _)

end

section

variable (w : World D)

theorem moves_refUp (mr : Nat) : Moves w {mr} (w.refUp mr) {mr, mr} where
  holds others hw := by
    have hmem : mr ∈ {mr} + others + ↑w.inflight.flatten + ↑w.leaked := by simp
    apply (hw.up hmem).congr
    show _ = {mr, mr} + others + ↑w.inflight.flatten + ↑w.leaked
    simp [insert_eq_cons, ← singleton_add, add_assoc]
  kept others hw := RefHeap.kept_up (hw.ne_zero (by simp))
  external := rfl
  quiet := .same rfl rfl

theorem moves_refDown (mr : Nat) : Moves w {mr} (w.refDown mr) 0 where
  holds others hw := by
    apply RefHeap.Owned.down
    apply hw.congr
    show _ = mr ::ₘ (0 + others + ↑w.inflight.flatten + ↑w.leaked)
    simp [← singleton_add, add_assoc]
  kept _ _ := RefHeap.kept_down _ _
  external := rfl
  quiet := .same rfl rfl

theorem moves_refUpAll (mrs : List Nat) : Moves w ↑mrs (w.refUpAll mrs) (↑mrs + ↑mrs) := by
  induction mrs generalizing w with
  | nil => exact .refl w 0
  | cons mr mrs ih =>
    have hfr := (moves_refUp w mr).frame ↑mrs
    have hrs := (ih (w.refUp mr)).frame {mr, mr}
    refine (hfr.trans (hrs.cast ?_ rfl)).cast ?_ ?_
    · exact add_comm _ _
    · rw [← cons_coe, singleton_add]
    · simp only [← cons_coe, insert_eq_cons, ← singleton_add]
      abel

theorem moves_release (mrs : List Nat) : Moves w ↑mrs (w.release mrs) 0 := by
  induction mrs generalizing w with
  | nil => exact .refl w 0
  | cons mr mrs ih =>
    refine (((moves_refDown w mr).frame ↑mrs).trans ((ih _).cast ?_ rfl)).cast ?_ rfl
    · exact zero_add _
    · rw [← cons_coe, singleton_add]

theorem moves_alloc (sizes : List Nat) : Moves w 0 (w.alloc sizes).1 ↑(held (w.alloc sizes).2) := by
  unfold World.alloc
  dsimp only
  split
  · exact .refl w 0
  split
  · exact ⟨fun _ hw => hw, fun _ _ => .refl _, rfl, .same rfl rfl⟩
  refine ⟨fun others hw => ?_, fun _ _ => RefHeap.kept_alloc _ _, rfl, .same rfl rfl⟩
  apply (hw.alloc _).congr
  show _ = ↑(w.heap.granted _) + others + ↑w.inflight.flatten + ↑w.leaked
  simp [add_assoc]

theorem holds_leak (mrs : List Nat) {others : Multiset Nat} (hw : w.Holds (↑mrs + others)) :
    (w.leak mrs).Holds others := by
  apply hw.congr
  unfold World.leak
  rw [← coe_add]
  abel

theorem holds_beginWrite (mrs : List Nat) {others : Multiset Nat} (hw : w.Holds (↑mrs + others)) :
    (w.beginWrite mrs).Holds others := by
  apply hw.congr
  unfold World.beginWrite
  rw [flatten_append, flatten_singleton, ← coe_add]
  abel

theorem moves_l2PutSync (raises : Bool) (mrs : List Nat) : Moves w ↑mrs (w.l2PutSync raises mrs).1 0 := by
  unfold l2PutSync
  split
  · rename_i hraises
    refine ⟨fun others hw => ?_, fun _ _ => .refl _, rfl, [.atOnce raises], rfl, fun hadmits => ?_⟩
    · rw [zero_add]
      exact holds_leak (w.find _) mrs hw
    · exact absurd (hraises.symm.trans (hadmits _ mem_cons_self)) (by decide)
  · rename_i hraises
    have hfind : Moves w ↑mrs (w.find (.atOnce raises)) ↑mrs :=
      ⟨fun _ hw => hw, fun _ _ => .refl _, rfl, [.atOnce raises], rfl, fun _ => rfl⟩
    exact hfind.trans (moves_release _ mrs)

theorem moves_l2PutAsync (quota : Nat) (mrs : List Nat) : Moves w ↑mrs (w.l2PutAsync quota mrs).1 0 := by
  unfold l2PutAsync
  dsimp only
  split
  · rename_i hfull
    refine ⟨fun others hw => ?_, fun _ _ => .refl _, rfl, [.room (quota - w.inflight.length)], rfl, fun hadmits => ?_⟩
    · rw [zero_add]
      exact holds_leak (w.find _) mrs hw
    · have hroom : 0 < quota - w.inflight.length := hadmits _ mem_cons_self
      change quota ≤ w.inflight.length at hfull
      omega
  · refine ⟨fun others hw => ?_, fun _ _ => .refl _, rfl, [.room (quota - w.inflight.length)], rfl, fun _ => rfl⟩
    rw [zero_add]
    exact holds_beginWrite (w.find _) mrs hw

theorem moves_l2Put (quota : Nat) (raises : Bool) (mrs : List Nat) : Moves w ↑mrs (l2Put quota raises w mrs).1 0 := by
  unfold l2Put
  split
  · exact moves_l2PutSync w raises mrs
  · exact moves_l2PutAsync w quota mrs

theorem flatten_eq_add_eraseIdx {lists : List (List Nat)} {i : Nat} (h : lists[i]? = some mrs) :
    (↑lists.flatten : Multiset Nat) = ↑mrs + ↑(lists.eraseIdx i).flatten := by
  obtain ⟨hlt, rfl⟩ := List.getElem?_eq_some_iff.1 h
  exact (Multiset.coe_eq_coe.2 (getElem_cons_eraseIdx_perm hlt).flatten).symm

theorem moves_complete (write : Nat) : Moves w 0 (w.complete write) 0 := by
  unfold complete
  split
  · exact .refl w 0
  rename_i mrs hwr
  have hend : Moves w 0 (w.endWrite write) ↑mrs := by
    refine ⟨fun others hw => hw.congr ?_, fun _ _ => .refl _, rfl, .same rfl rfl⟩
    rw [flatten_eq_add_eraseIdx hwr]
    abel
  exact hend.trans (moves_release _ _)

/-- Regions that have been handed out since `w`, and that nobody has written to. -/
structure Fresh (w w' : World D) (mrs : List Nat) : Prop where
  nodup : mrs.Nodup
  next_le : ∀ mr ∈ mrs, w.heap.next ≤ mr
  blank : ∀ mr ∈ mrs, w'.heap.content mr = w.heap.junk

theorem Fresh.mono {w : World D} (h : Fresh w' w'' mrs) (hkept : w.heap.Kept w'.heap) : Fresh w w'' mrs :=
  ⟨h.nodup, fun mr hmr => hkept.next_le.trans (h.next_le mr hmr), fun mr hmr => (h.blank mr hmr).trans hkept.junk⟩

theorem fresh_nil : Fresh w w' [] := ⟨nodup_nil, (fun _ h => by cases h), (fun _ h => by cases h)⟩

theorem fresh_alloc (sizes : List Nat) : Fresh w (w.alloc sizes).1 (held (w.alloc sizes).2) := by
  unfold World.alloc
  dsimp only
  split
  · exact fresh_nil w
  · split
    · exact fresh_nil w
    · exact ⟨List.nodup_range', fun _ hmr => ((List.mem_range'_1.1 hmr).1), fun _ => RefHeap.content_granted _ _⟩

theorem length_alloc_le (sizes : List Nat) : (held (w.alloc sizes).2).length ≤ sizes.length := by
  unfold World.alloc
  dsimp only
  split
  · exact Nat.zero_le _
  split
  · exact Nat.zero_le _
  · change (List.range' _ _).length ≤ _
    rw [List.length_range', List.length_take]
    exact min_le_right _ _

end

/-! ## Writing to regions -/

structure Written (touched : Region → Prop) (w w' : World D) : Prop where
  heap : w'.heap = { w.heap with content := w'.heap.content }
  inflight : w'.inflight = w.inflight
  found : w'.found = w.found
  leaked : w'.leaked = w.leaked
  read : ∀ mr, ¬ touched mr → w'.read mr = w.read mr

variable {touched : Region → Prop}

theorem Written.refl (touched : Region → Prop) (w : World D) : Written touched w w :=
  ⟨rfl, rfl, rfl, rfl, fun _ _ => rfl⟩

section

variable (h : Written touched w w')
include h

theorem Written.trans (h' : Written touched w' w'') : Written touched w w'' where
  heap := by rw [h'.heap, h.heap]
  inflight := h'.inflight.trans h.inflight
  found := h'.found.trans h.found
  leaked := h'.leaked.trans h.leaked
  read mr hmr := (h'.read mr hmr).trans (h.read mr hmr)

theorem Written.mono {touched' : Region → Prop} (hsub : ∀ mr, touched mr → touched' mr) :
    Written touched' w w' :=
  ⟨h.heap, h.inflight, h.found, h.leaked, fun mr hmr => h.read mr fun ht => hmr (hsub mr ht)⟩

omit h in
theorem written_write (w : World D) (mr : Region) (d : D) : Written (· = mr) w (w.write mr d) := by
  cases mr with
  | managed id =>
    refine ⟨rfl, rfl, rfl, rfl, fun mr hmr => ?_⟩
    cases mr with
    | managed id' => exact update_of_ne (by rintro rfl; exact hmr rfl) ..
    | external id' => rfl
  | external id =>
    refine ⟨rfl, rfl, rfl, rfl, fun mr hmr => ?_⟩
    cases mr with
    | managed id' => rfl
    | external id' => exact update_of_ne (by rintro rfl; exact hmr rfl) ..

theorem Written.holds (hw : w.Holds own) : w'.Holds own := by
  unfold Holds at hw ⊢
  rw [h.heap, h.inflight, h.leaked]
  exact ⟨hw.count, hw.fresh, hw.used, hw.calm⟩

theorem Written.quiet : Quiet w w' := .same h.found h.leaked

theorem Written.external_eq (hmn : ∀ buffer, ¬ touched (.external buffer)) :
    w'.external = w.external :=
  funext fun buffer => h.read (.external buffer) (hmn buffer)

theorem Written.kept {heap : RefHeap D} (hkp : heap.Kept w.heap)
    (hfr : ∀ mr, touched (.managed mr) → heap.next ≤ mr) : heap.Kept w'.heap where
  next_le := by
    rw [h.heap]
    exact hkp.next_le
  gone mr hmr hzr := by
    rw [h.heap]
    exact hkp.gone mr hmr hzr
  content mr hmr hne := by
    have hrd := h.read _ fun ht => absurd (hfr mr ht) (by omega)
    rw [h.heap] at hne
    exact Eq.trans hrd (hkp.content mr hmr hne)
  junk := by
    rw [h.heap]
    exact hkp.junk

end

theorem Moves.written {w₁ : World D} (hmv : Moves w own w' own') (hfr : ∀ others, w.Holds (own + others) → Fresh w w' mrs)
    (hwr : Written (· ∈ mrs.map .managed) w' w'') (hrs : Moves w'' own' w₁ own'') : Moves w own w₁ own'' where
  holds others hw := hrs.holds others (hwr.holds (hmv.holds others hw))
  kept others hw := by
    have hkp : w.heap.Kept w''.heap := by
      apply hwr.kept (hmv.kept others hw)
      intro mr hmr
      obtain ⟨id, hid, heq⟩ := mem_map.1 hmr
      cases heq
      exact (hfr others hw).next_le mr hid
    exact hkp.trans (hrs.kept others (hwr.holds (hmv.holds others hw)))
  external := by
    rw [hrs.external, hwr.external_eq (by simp), hmv.external]
  quiet := hmv.quiet.trans (hwr.quiet.trans hrs.quiet)

section Fold

variable {α : Type} {f : World D → α → World D} {region : α → Region}

theorem written_foldl (hst : ∀ w x, Written (· = region x) w (f w x)) (xs : List α) (w : World D) :
    Written (· ∈ xs.map region) w (xs.foldl f w) := by
  induction xs generalizing w with
  | nil => exact .refl _ w
  | cons x xs ih =>
    have hfr : Written (· ∈ (x :: xs).map region) w (f w x) := by
      refine (hst w x).mono fun mr hmr => ?_
      rw [hmr]
      exact mem_cons_self
    exact hfr.trans ((ih (f w x)).mono fun mr hmr => mem_cons_of_mem _ hmr)

end Fold

end World

end Aibrix.KvCache
