import Aibrix.KvCache.Manager

/-! # Conservation of references

Every reference that a call is handed goes to an L1 entry, to a handle or to a write to the L2 cache, or is dropped. -/

namespace Aibrix.KvCache

open Lib World List Multiset

variable {T D : Type} [DecidableEq T] (cfg : Config)

namespace Store

variable (s : Store T D) (backend : L2Backend T D)

def l1Values : Multiset Nat :=
  match s.l1 with
  | none => 0
  | some p => p.values

variable (before : Option (List T)) (query : List T) (written : Outcome)

open L1Cache

theorem moves_allocateFor :
    let r := s.allocateFor cfg before query
    Moves s.world s.l1Values r.1.world (r.1.l1Values + ↑(held r.2)) := by
  unfold allocateFor
  generalize (cacheBlockKeys cfg.blockNtokens before query).map (fun key =>
    cfg.calculateSize _) = sizes
  cases hl1 : s.l1 with
  | some p =>
    have hal := allocates_allocate cfg sizes p s.world
    unfold l1Values
    rw [hl1]
    exact hal.moves
  | none =>
    unfold l1Values withWorld
    rw [hl1]
    exact (moves_alloc s.world sizes).cast rfl (zero_add _)

theorem fresh_allocateFor (others : Multiset Nat) (hw : s.world.Holds (s.l1Values + others)) :
    let r := s.allocateFor cfg before query
    Fresh s.world r.1.world (held r.2) := by
  unfold allocateFor
  generalize (cacheBlockKeys cfg.blockNtokens before query).map (fun key =>
    cfg.calculateSize _) = sizes
  cases hl1 : s.l1 with
  | some p =>
    unfold l1Values at hw
    rw [hl1] at hw
    exact (allocates_allocate cfg sizes p s.world).fresh others hw
  | none => exact fresh_alloc s.world sizes

theorem moves_cacheFetched (before query : List T) (mrs : List Nat) :
    Moves s.world (s.l1Values + ↑mrs) (s.cacheFetched cfg before query mrs).world
      ((s.cacheFetched cfg before query mrs).l1Values + ↑mrs) := by
  unfold cacheFetched l1Values
  cases hl1 : s.l1 with
  | none =>
    rw [hl1]
    exact .refl _ _
  | some p =>
    have hup := (moves_refUpAll s.world mrs).frameLeft p.values
    have hput := (moves_put_release cfg (some before)
      (query.take (mrs.length * cfg.blockNtokens)) mrs p (s.world.refUpAll mrs)).frame ↑mrs
    exact hup.trans (hput.cast (add_assoc _ _ _).symm rfl)

theorem moves_keepFetched (before query : List T) (mrs : List Nat) (value : Nat) :
    let r := s.cacheFetched cfg before query (mrs.take value)
    Moves s.world (s.l1Values + ↑mrs) (r.world.release (mrs.drop value)) (r.l1Values + ↑(mrs.take value)) := by
  have hcc := (s.moves_cacheFetched cfg before query (mrs.take value)).frame ↑(mrs.drop value)
  have hrl := (moves_release (s.cacheFetched cfg before query (mrs.take value)).world (mrs.drop value)).frameLeft
    ((s.cacheFetched cfg before query (mrs.take value)).l1Values + ↑(mrs.take value))
  refine (hcc.cast ?_ rfl).trans (hrl.cast rfl (add_zero _).symm)
  rw [add_assoc, coe_add, take_append_drop]

theorem moves_cacheCopies (before query : List T) (mrs : List Region) :
    Moves s.world s.l1Values (s.cacheCopies cfg before query mrs).world
      (s.cacheCopies cfg before query mrs).l1Values := by
  unfold cacheCopies l1Values
  cases hl1 : s.l1 with
  | none =>
    rw [hl1]
    exact .refl _ _
  | some p => exact moves_putTensorsImpl cfg _ _ _ p s.world

theorem moves_l1Acquire :
    let r := s.l1Acquire cfg before query
    Moves s.world s.l1Values r.1.world (r.1.l1Values + ↑(held r.2)) := by
  dsimp only
  unfold l1Acquire
  cases hl1 : s.l1 with
  | none =>
    unfold l1Values
    rw [hl1]
    exact .refl _ _
  | some p =>
    unfold l1Values
    rw [hl1]
    exact moves_acquire cfg before query p s.world

theorem held_failed (fetched : List Nat) (code : StatusCode) :
    held (if fetched = [] then .error code else .ok fetched) = fetched := by
  split
  · rename_i hnil
    exact hnil.symm
  · rfl

theorem moves_acquireFromL2 (before query : List T) (fetched : List Nat) :
    let r := s.acquireFromL2 cfg backend before query fetched
    Moves s.world (s.l1Values + ↑fetched) r.1.world (r.1.l1Values + ↑(held r.2)) := by
  unfold acquireFromL2
  dsimp only
  generalize before ++ query.take _ = before
  generalize query.drop _ = query
  have hal := (s.moves_allocateFor cfg (some before) query).frame ↑fetched
  have hfr := fun others (hw : s.world.Holds (s.l1Values + ↑fetched + others)) =>
    s.fresh_allocateFor cfg (some before) query (↑fetched + others) (by rwa [← add_assoc])
  split
  · rename_i s₁ code heq
    rw [heq] at hal
    rw [held_failed]
    exact hal.cast rfl (congrArg (· + _) (add_zero _).symm)
  rename_i s₁ mrs heq
  rw [heq] at hal hfr
  have hwr := written_l2Get cfg backend s₁.world before (query.take (mrs.length * cfg.blockNtokens)) (mrs.map .managed)
  split
  · rename_i w code hget
    rw [hget] at hwr
    rw [held_failed]
    have hrl := (moves_release w mrs).frameLeft (s₁.l1Values + ↑fetched)
    refine hal.written hfr hwr (hrl.cast ?_ (add_zero _).symm)
    exact add_right_comm _ _ _
  · rename_i w value hget
    rw [hget] at hwr
    apply hal.written hfr hwr
    apply (((s₁.withWorld w).moves_keepFetched cfg before _ mrs value).frame ↑fetched).cast rfl
    rw [add_assoc]
    exact congrArg (_ + ·) (coe_eq_coe.2 perm_append_comm)

theorem moves_acquireImpl :
    let r := s.acquireImpl cfg backend before query
    Moves s.world s.l1Values r.1.world (r.1.l1Values + ↑(held r.2)) := by
  have hnn := (Moves.refl s.world s.l1Values).cast rfl (add_zero s.l1Values)
  unfold acquireImpl
  dsimp only
  split
  · exact hnn
  split
  · exact hnn
  have hac := s.moves_l1Acquire cfg before query
  split
  · exact hac.trans (moves_acquireFromL2 cfg _ backend _ query _)
  · exact hac

theorem holds_getImpl (outs : List Region) {others : Multiset Nat} (hw : s.world.Holds (s.l1Values + others)) :
    let r := s.getImpl cfg backend before query outs
    r.1.world.Holds (r.1.l1Values + ↑r.2.1 + others) := by
  have hnn : s.world.Holds (s.l1Values + ↑([] : List Nat) + others) := by
    rwa [coe_nil, add_zero]
  unfold getImpl
  dsimp only
  split
  · exact hnn
  split
  · exact hnn
  have hac := (s.moves_l1Acquire cfg before (query.take (outs.length * cfg.blockNtokens))).holds others hw
  split
  · unfold getFromL2
    dsimp only
    split
    · rename_i w code hget
      exact (Written.holds (hget ▸ written_l2Get cfg backend _ _ _ _) hac)
    rename_i w value hget
    have hrd := Written.holds (hget ▸ written_l2Get cfg backend _ _ _ _) hac
    rw [add_assoc] at hrd ⊢
    exact (moves_cacheCopies cfg _ _ _ _).holds _ hrd
  · split
    · exact hac
    · exact (written_copyFetched _ _ _).holds hac

theorem quiet_getImpl (outs : List Region) : Quiet s.world (s.getImpl cfg backend before query outs).1.world := by
  unfold getImpl
  dsimp only
  split
  · exact .same rfl rfl
  split
  · exact .same rfl rfl
  have hacquired := (s.moves_l1Acquire cfg before (query.take (outs.length * cfg.blockNtokens))).quiet
  split
  · refine hacquired.trans ?_
    unfold getFromL2
    dsimp only
    split
    · rename_i hget
      exact Written.quiet (hget ▸ written_l2Get cfg backend _ _ _ _)
    · rename_i hget
      have hread := Written.quiet (hget ▸ written_l2Get cfg backend _ _ _ _)
      exact hread.trans (moves_cacheCopies cfg _ _ _ _).quiet
  · split
    · exact hacquired
    · exact hacquired.trans (written_copyFetched _ _ _).quiet

section

variable (before : Option (List T))

theorem moves_putFitting (query : List T) (mrs : List Nat) :
    let r := s.putFitting cfg written before query mrs
    Moves s.world (s.l1Values + ↑mrs) r.1.world r.1.l1Values := by
  unfold putFitting
  split
  · rename_i p hl1
    unfold l1Values
    rw [hl1]
    exact moves_put_release cfg before query mrs p s.world
  have hput := (moves_l2Put s.world cfg.quota written.isNone mrs).frameLeft s.l1Values
  rw [add_zero] at hput
  split
  · rename_i heq
    rw [heq] at hput
    exact hput
  · rename_i heq
    rw [heq] at hput
    exact hput

theorem moves_putMrs (query : List T) (mrs : List Nat) :
    let r := s.putMrs cfg written before query mrs
    Moves s.world (s.l1Values + ↑mrs) r.1.world r.1.l1Values := by
  have hdr : ∀ mrs : List Nat, Moves s.world (s.l1Values + ↑mrs) (s.world.release mrs) s.l1Values := fun mrs =>
    ((moves_release s.world mrs).frameLeft s.l1Values).cast rfl (add_zero _).symm
  unfold putMrs
  split
  · exact hdr mrs
  split
  · exact hdr mrs
  · exact hdr mrs
  · rename_i ntokens _
    generalize ntokens / cfg.blockNtokens = nblocks
    have hsp : (↑mrs : Multiset Nat) = ↑(mrs.drop nblocks) + ↑(mrs.take nblocks) := by
      rw [coe_add, coe_eq_coe]
      exact (perm_append_comm.trans (by rw [take_append_drop])).symm
    have hfr := (hdr (mrs.drop nblocks)).frame ↑(mrs.take nblocks)
    refine (hfr.cast ?_ rfl).trans (moves_putFitting cfg (s.withWorld _) written before _ _)
    rw [hsp, add_assoc]
  · exact s.moves_putFitting cfg written before query mrs

theorem moves_putTensorsFitting (query : List T) (tensors : List D) :
    let r := s.putTensorsFitting cfg written before query tensors
    Moves s.world s.l1Values r.1.world r.1.l1Values := by
  unfold putTensorsFitting
  split
  · rename_i p hl1
    unfold l1Values
    rw [hl1]
    exact moves_putTensorsImpl cfg before query tensors p s.world
  have hput := (moves_l2Put s.world cfg.quota written.isNone []).frameLeft s.l1Values
  rw [coe_nil, add_zero] at hput
  split
  · rename_i heq
    rw [heq] at hput
    exact hput
  · rename_i heq
    rw [heq] at hput
    exact hput

theorem moves_putTensors (query : List T) (tensors : List D) :
    let r := s.putTensors cfg written before query tensors
    Moves s.world s.l1Values r.1.world r.1.l1Values := by
  unfold putTensors
  split
  · exact .refl _ _
  split
  · exact .refl _ _
  · exact .refl _ _
  · exact s.moves_putTensorsFitting cfg written before _ _
  · exact s.moves_putTensorsFitting cfg written before query tensors

end

theorem moves_delete :
    Moves s.world s.l1Values (s.delete cfg before query).1.world (s.delete cfg before query).1.l1Values := by
  unfold delete
  split
  · exact .refl _ _
  rename_i p hl1
  unfold l1Values
  rw [hl1]
  exact L1Cache.moves_delete cfg before query p s.world

theorem moves_evict (nbytes : Nat) :
    Moves s.world s.l1Values (s.evict cfg nbytes).world (s.evict cfg nbytes).l1Values := by
  unfold evict
  split
  · exact .refl _ _
  rename_i p hl1
  unfold l1Values
  rw [hl1]
  exact p.moves_evict cfg.callbacks s.world nbytes

end Store

/-! ## Whole runs -/

inductive Policy.New {K : Type} [DecidableEq K] : Policy K → Prop
  | fifo (capacityNbytes : Int) : New (.list (KvCache.fifo K capacityNbytes))
  | lru (capacityNbytes : Int) : New (.list (KvCache.lru K capacityNbytes))
  | s3fifo (capacityNbytes smallToMainPromoThreshold smallFifoCapacityNbytes : Int) :
    New (.s3fifo { capacityNbytes, smallToMainPromoThreshold, smallFifoCapacityNbytes })

theorem Policy.New.values_eq {K : Type} [DecidableEq K] {p : Policy K} (h : p.New) : p.values = 0 := by
  cases h <;> rfl

namespace Manager

def new (l1 : Option (Policy (BlockKey T))) (memory : RefHeap D) (external : Nat → D) (grants : Nat → Nat) :
    Manager T D where
  l1 := l1
  world := { heap := { content := memory.content, junk := memory.junk }, external, grants }

variable (m : Manager T D)

def Owned : Prop := m.world.Holds (m.l1Values + ↑m.handles.flatten)

theorem owned_new {l1 : Option (Policy (BlockKey T))} (hl1 : ∀ p ∈ l1, p.New) (memory : RefHeap D)
    (external : Nat → D) (grants : Nat → Nat) : (new l1 memory external grants).Owned := by
  have hvl : (new l1 memory external grants).l1Values = 0 := by
    cases l1 with
    | none => rfl
    | some p => exact (hl1 p rfl).values_eq
  unfold Owned
  rw [hvl]
  exact ⟨fun _ => rfl, fun _ _ => rfl, rfl, rfl⟩

variable {m}

section

omit [DecidableEq T]

theorem Owned.withStore (h : m.Owned) {s : Store T D} (hmv : Moves m.world m.l1Values s.world s.l1Values) :
    (m.withStore s).Owned :=
  hmv.holds _ h

theorem Owned.giveHandle (h : m.Owned) {s : Store T D} {mrs : List Nat}
    (hmv : Moves m.world m.l1Values s.world (s.l1Values + ↑mrs)) : ((m.withStore s).giveHandle mrs).Owned := by
  have hhl := hmv.holds _ h
  unfold Owned Manager.giveHandle
  rw [flatten_append, flatten_singleton, ← coe_add, add_comm (ofList _), ← add_assoc]
  exact hhl

theorem Owned.takeHandle (h : m.Owned) {s : Store T D} {handle : Nat} {mrs : List Nat}
    (hhn : m.handles[handle]? = some mrs) (hmv : Moves m.world (m.l1Values + ↑mrs) s.world s.l1Values) :
    ((m.takeHandle handle).withStore s).Owned := by
  unfold Owned at h
  rw [flatten_eq_add_eraseIdx hhn, ← add_assoc] at h
  exact hmv.holds _ h

end

theorem step_owned (h : m.Owned) (op : Op T D) : (m.step cfg op).Owned := by
  cases op with
  | allocateFor before query =>
    have hmv := m.moves_allocateFor cfg before query
    unfold step Manager.allocateFor
    dsimp only
    split
    · rename_i heq
      rw [heq] at hmv
      exact h.giveHandle hmv
    · rename_i heq
      rw [heq] at hmv
      exact h.withStore (hmv.cast rfl (add_zero _).symm)
  | put before query handle written =>
    unfold step Manager.put
    dsimp only
    split
    · exact h
    · rename_i mrs hhn
      exact h.takeHandle hhn (m.moves_putMrs cfg written before query mrs)
  | putTensors before query tensors written => exact h.withStore (m.moves_putTensors cfg written before query tensors)
  | acquire before query backend =>
    have hmv := m.moves_acquireImpl cfg backend before query
    unfold step Manager.acquire
    dsimp only
    split
    · rename_i heq
      rw [heq] at hmv
      exact h.giveHandle hmv
    · rename_i heq
      rw [heq] at hmv
      exact h.withStore (hmv.cast rfl (add_zero _).symm)
  | get before query outs backend =>
    have hhl := m.holds_getImpl cfg backend before query outs h
    dsimp only at hhl
    rw [add_comm (Store.l1Values _), add_assoc] at hhl
    exact holds_leak _ _ hhl
  | delete before query => exact h.withStore (m.moves_delete cfg before query)
  | release handle =>
    unfold step Manager.release
    dsimp only
    split
    · exact h
    · rename_i mrs hhn
      have hmv := (moves_release m.world mrs).frameLeft m.l1Values
      exact h.takeHandle hhn (hmv.cast rfl (add_zero _).symm)
  | evict nbytes => exact h.withStore (m.moves_evict cfg nbytes)
  | complete write =>
    have hmv := (moves_complete m.world write).frameLeft m.l1Values
    exact h.withStore (hmv.cast (add_zero _).symm (add_zero _).symm)

theorem run_owned (h : m.Owned) (ops : List (Op T D)) : (m.run cfg ops).Owned := by
  induction ops generalizing m with
  | nil => exact h
  | cons op ops ih => exact ih (step_owned cfg h op)

/-! ### Runs that leave no reference behind -/

variable (m)

/-- The L1 cache does not have the first block that `get` asks for. -/
def FindsNothing (before : Option (List T)) (query : List T) (outputMrs : List Region) : Prop :=
  unaligned cfg.blockNtokens before = true ∨ ∀ p ∈ m.l1,
    ∀ key ∈ (cacheBlockKeys cfg.blockNtokens before (query.take (outputMrs.length * cfg.blockNtokens))).head?,
      p.lookup key = none

/-- A `get` finds nothing in the L1 cache, and each write to the L2 cache has room in the quota and does not raise. -/
def Clean (op : Op T D) : Prop :=
  (match op with
    | .get before query outputMrs _ => m.FindsNothing cfg before query outputMrs
    | _ => True) ∧ ∀ found ∈ (m.step cfg op).world.found, found.Admits

def CleanRun : Manager T D → List (Op T D) → Prop
  | _, [] => True
  | m, op :: ops => m.Clean cfg op ∧ CleanRun (m.step cfg op) ops

variable {m} {before : Option (List T)} {query : List T} {outputMrs : List Region}

theorem FindsNothing.held_eq (h : m.FindsNothing cfg before query outputMrs) :
    held (m.l1Acquire cfg before (query.take (outputMrs.length * cfg.blockNtokens))).2 = [] := by
  unfold Store.l1Acquire
  split
  · rfl
  rename_i p hl1
  dsimp only
  rw [L1Cache.held_acquire]
  split
  · rfl
  rename_i haligned
  have hfirst := (h.resolve_left haligned) p hl1
  revert hfirst
  cases cacheBlockKeys cfg.blockNtokens before (query.take (outputMrs.length * cfg.blockNtokens)) with
  | nil => exact fun _ => rfl
  | cons key keys =>
    intro hfirst
    unfold L1Cache.leading
    rw [hfirst key rfl]

theorem FindsNothing.fetched_eq (h : m.FindsNothing cfg before query outputMrs) (backend : L2Backend T D) :
    (m.getImpl cfg backend before query outputMrs).2.1 = [] := by
  have hheld := h.held_eq
  unfold Store.getImpl
  dsimp only
  split
  · rfl
  split
  · rfl
  split
  · exact hheld
  · split
    · exact hheld
    · exact hheld

theorem quiet_step {op : Op T D} (h : m.Clean cfg op) : Quiet m.world (m.step cfg op).world := by
  cases op with
  | allocateFor before query =>
    have hquiet := (m.moves_allocateFor cfg before query).quiet
    unfold step Manager.allocateFor
    dsimp only
    split <;> (rename_i heq; rw [heq] at hquiet; exact hquiet)
  | put before query handle written =>
    unfold step Manager.put
    dsimp only
    split
    · exact .same rfl rfl
    · exact (m.moves_putMrs cfg written before query _).quiet
  | putTensors before query tensors written => exact (m.moves_putTensors cfg written before query tensors).quiet
  | acquire before query backend =>
    have hquiet := (m.moves_acquireImpl cfg backend before query).quiet
    unfold step Manager.acquire
    dsimp only
    split <;> (rename_i heq; rw [heq] at hquiet; exact hquiet)
  | get before query outputMrs backend =>
    refine (m.quiet_getImpl cfg backend before query outputMrs).trans (.same rfl ?_)
    have hfetched := FindsNothing.fetched_eq cfg h.1 backend
    unfold step Manager.get Manager.withStore World.leak
    simp [hfetched, Store.withWorld]
  | delete before query => exact (m.moves_delete cfg before query).quiet
  | release handle =>
    unfold step Manager.release
    dsimp only
    split
    · exact .same rfl rfl
    · exact (moves_release m.world _).quiet
  | evict nbytes => exact (m.moves_evict cfg nbytes).quiet
  | complete write => exact (moves_complete m.world write).quiet

theorem leaked_run {ops : List (Op T D)} (h : CleanRun cfg m ops) : (m.run cfg ops).world.leaked = m.world.leaked := by
  induction ops generalizing m with
  | nil => rfl
  | cons op ops ih => exact (ih h.2).trans ((quiet_step cfg h.1).leaked_eq h.1.2)

variable (m)

/-- The references of a region that the L1 cache, the handles and the writes under way account for. -/
def accounted (mr : Nat) : Nat :=
  m.l1Values.count mr + m.handles.flatten.count mr + m.world.inflight.flatten.count mr

/-- In every clean run the references of a region are those accounted for, and no region outlives its holders. -/
theorem references_conserved (cfg : Config) {l1 : Option (Policy (BlockKey T))} (hl1 : ∀ p ∈ l1, p.New)
    (memory : RefHeap D) (external : Nat → D) (grants : Nat → Nat) {ops : List (Op T D)}
    (hclean : CleanRun cfg (new l1 memory external grants) ops) :
    let m := (new l1 memory external grants).run cfg ops
    m.world.heap.raised = false ∧ (∀ mr, m.world.heap.refCount mr = m.accounted mr) ∧
    (m.handles.flatten = [] → m.l1Values = 0 → m.world.inflight.flatten = [] →
      (∀ mr, m.world.heap.refCount mr = 0) ∧ m.world.heap.used = 0) := by
  intro m
  have howned : m.Owned := run_owned cfg (owned_new hl1 memory external grants) ops
  have hleaked : m.world.leaked = [] := leaked_run cfg hclean
  unfold Owned Holds at howned
  rw [hleaked, coe_nil, add_zero] at howned
  refine ⟨howned.calm, fun mr => ?_, fun hhandles hvalues hinflight => ?_⟩
  · rw [howned.count mr]
    unfold accounted
    simp [count_add, coe_count]
  · rw [hhandles, hvalues, hinflight] at howned
    exact howned.returned

/-! ### References that stay behind -/

def oneToken (hasL2 : Bool) (quota : Nat) : Config where
  blockNtokens := 1
  blockNtokens_pos := Nat.one_pos
  blockNbytes := 16
  useCompactLayout := true
  hasL2
  ingestion := .all
  quota
  threshold := .num 1

def nothingStored : L2Backend Bool Bool where
  opBatch := 8
  opBatch_pos := Nat.succ_pos 7
  mputMget := false
  fetch _ := { status := some .notFound, written := none }

def idle : Manager Bool Bool :=
  new (some (.list (fifo _ 64))) { content := fun _ => false, junk := false } (fun _ => false) fun _ => 8

def readOnce : List (Op Bool Bool) :=
  [.allocateFor none [true], .put none [true] 0 (some (.ok 1)), .get none [true] [.external 0] nothingStored,
    .delete none [true]]

def putTwice : List (Op Bool Bool) :=
  [.allocateFor none [true], .put none [true] 0 (some (.ok 1)), .allocateFor none [false], .put none [false] 0 (some (.ok 1)),
    .complete 0, .delete none [true], .delete none [false]]

/-- Without an L1 cache, a write at once that raises. -/
def putRaising : List (Op Bool Bool) := [.allocateFor none [true], .put none [true] 0 none]

/-- Nobody holds a region, but `get` has kept a reference, and so have the writes that were denied or raised. -/
theorem get_and_denied_write_leak : (let m := idle.run (oneToken false 0) readOnce;
      m.handles = [] ∧ m.l1Values = 0 ∧ m.world.inflight = [] ∧ m.accounted 0 = 0 ∧
        m.world.heap.refCount 0 = 1 ∧ m.world.heap.used = 16) ∧
    (let m := idle.run (oneToken true 1) putTwice;
      m.handles = [] ∧ m.l1Values = 0 ∧ m.world.inflight = [] ∧ m.accounted 1 = 0 ∧
        m.world.heap.refCount 1 = 1 ∧ m.world.heap.used = 16) ∧
    (let m := { idle with l1 := none }.run (oneToken true 0) putRaising;
      m.handles = [] ∧ m.l1Values = 0 ∧ m.world.inflight = [] ∧ m.accounted 0 = 0 ∧
        m.world.heap.refCount 0 = 1 ∧ m.world.heap.used = 16) := by
  decide

def putAndAcquire : List (Op Bool Bool) :=
  [.allocateFor none [true], .put none [true] 0 (some (.ok 1)), .get none [false] [.external 0] nothingStored,
    .acquire none [true] nothingStored, .complete 0, .delete none [true]]

theorem cleanRun_putAndAcquire {ops : List (Op Bool Bool)}
    (h : CleanRun (oneToken true 1) (idle.run (oneToken true 1) putAndAcquire) ops) :
    CleanRun (oneToken true 1) idle (putAndAcquire ++ ops) :=
  ⟨⟨trivial, by decide⟩, ⟨trivial, by decide⟩, ⟨.inr (by decide), by decide⟩, ⟨trivial, by decide⟩,
    ⟨trivial, by decide⟩, ⟨trivial, by decide⟩, h⟩

theorem references_conserved_put_and_acquire : (idle.run (oneToken true 1) putAndAcquire).world.heap.refCount 0 = 1 ∧
    (idle.run (oneToken true 1) (putAndAcquire ++ [.release 0])).world.heap.used = 0 := by
  have hnew : ∀ p ∈ (some (.list (fifo (BlockKey Bool) 64)) : Option (Policy (BlockKey Bool))), p.New := by
    intro p hp
    cases hp
    exact .fifo 64
  have hconserved := fun ops => @references_conserved Bool Bool _ (oneToken true 1) _ hnew
    { content := fun _ => false, junk := false } (fun _ => false) (fun _ => 8) ops
  obtain ⟨-, hheld, -⟩ := hconserved putAndAcquire (@cleanRun_putAndAcquire [] trivial)
  obtain ⟨-, -, hreleased⟩ := hconserved (putAndAcquire ++ [.release 0])
    (cleanRun_putAndAcquire ⟨⟨trivial, by decide⟩, trivial⟩)
  exact ⟨(hheld 0).trans (by decide), (hreleased (by decide) (by decide) (by decide)).2⟩

end Manager

end Aibrix.KvCache
