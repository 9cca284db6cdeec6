import Aibrix.KvCache.L2Get

/-! # The L1 cache

Blocks in memory, by the tokens before a block and the tokens of the block. -/

namespace Aibrix.KvCache

open List Lib World

/-! ## The configuration of a manager -/

inductive Ingestion where
  | hot
  | all
  | evict
  deriving DecidableEq

inductive Threshold where
  | num (n : Int)
  | numRatio (n : Int) (ratio : ℚ)

structure Config where
  blockNtokens : Nat
  blockNtokens_pos : 0 < blockNtokens
  blockNbytes : Nat
  useCompactLayout : Bool
  maxSeqLen : Nat := 0
  hasL2 : Bool
  ingestion : Ingestion := .evict
  quota : Nat := 0
  threshold : Threshold := .numRatio 4 (1 / 10)

def roundDown (x y : Nat) : Nat := x / y * y

namespace Config

variable (cfg : Config)

def callbacks : Callbacks where
  onPut := cfg.hasL2 ∧ cfg.ingestion = .all
  onEvict := cfg.hasL2 ∧ cfg.ingestion = .evict
  onHotAccess := cfg.hasL2 ∧ cfg.ingestion = .hot
  quota := cfg.quota

/-- The block, a magic number, a footer of two numbers, and the tokens. -/
def calculateSize (ntokens : Nat) : Nat :=
  if cfg.useCompactLayout then cfg.blockNbytes else roundUp (cfg.blockNbytes + 4 + 8 + 4 * ntokens) 16

def useDoubleGet (numMissingBlocks numTotalBlocks : Nat) : Bool :=
  if cfg.hasL2 then
    match cfg.threshold with
    | .num n => (numMissingBlocks : Int) ≥ n
    | .numRatio n ratio => (numMissingBlocks : ℚ) / numTotalBlocks ≥ ratio ∧ (numMissingBlocks : Int) ≥ n
  else false

end Config

variable {T D : Type} [DecidableEq T]

abbrev BlockKey (T : Type) := List T × List T

def cacheBlockKeys (blockNtokens : Nat) (before : Option (List T)) (query : List T) : List (BlockKey T) :=
  (List.range (query.length / blockNtokens)).map fun i =>
    ((before.getD [] ++ query).take ((before.getD []).length + i * blockNtokens),
      ((before.getD [] ++ query).drop ((before.getD []).length + i * blockNtokens)).take blockNtokens)

namespace L1Cache

variable (cfg : Config)

def allocateLoop (sizes : List Nat) : Nat → Policy (BlockKey T) → World D →
    Policy (BlockKey T) × World D × Status (List Nat)
  | 0, p, w => (p, w, .error .outOfMemory)
  | fuel + 1, p, w =>
    if p.nbytes > 0 then
      let evicted := p.evict cfg.callbacks w sizes.sum
      match evicted.2.alloc sizes with
      | (w, .error .outOfMemory) => allocateLoop sizes fuel evicted.1 w
      | (w, status) => (evicted.1, w, status)
    else (p, w, .error .outOfMemory)

def allocate (sizes : List Nat) (p : Policy (BlockKey T)) (w : World D) :
    Policy (BlockKey T) × World D × Status (List Nat) :=
  match w.alloc sizes with
  | (w, .error .outOfMemory) =>
    -- Another thread might have freed memory, so it tries again before it evicts.
    match w.alloc sizes with
    | (w, .error .outOfMemory) => allocateLoop cfg sizes (p.size + 1) p w
    | (w, status) => (p, w, status)
  | (w, status) => (p, w, status)

def putLoop : List (BlockKey T × Nat) → Policy (BlockKey T) → World D → Policy (BlockKey T) × World D
  | [], p, w => (p, w)
  | (key, mr) :: blocks, p, w =>
    let put := p.put cfg.callbacks w key mr
    putLoop blocks put.1 put.2

variable (before : Option (List T)) (query : List T)

def putBlocks (mrs : List Nat) (p : Policy (BlockKey T)) (w : World D) : Policy (BlockKey T) × World D × Status Nat :=
  let blocks := (cacheBlockKeys cfg.blockNtokens before (query.take (mrs.length * cfg.blockNtokens))).zip mrs
  let put := putLoop cfg blocks p w
  (put.1, put.2, .ok blocks.length)

def putMrsImpl (mrs : List Nat) (p : Policy (BlockKey T)) (w : World D) :
    Policy (BlockKey T) × World D × Status Nat :=
  if unaligned cfg.blockNtokens before then (p, w, .error .invalid)
  else if query.length ≠ mrs.length * cfg.blockNtokens then (p, w, .error .invalid)
  else if query.length / cfg.blockNtokens = 0 then (p, w, .ok 0)
  else putBlocks cfg before query mrs p w

def copyTensors (w : World D) (mrs : List Nat) (tensors : List D) : World D :=
  (mrs.zip tensors).foldl (fun w copy => w.write (.managed copy.1) copy.2) w

def putTensorsImpl (tensors : List D) (p : Policy (BlockKey T))
    (w : World D) : Policy (BlockKey T) × World D × Status Nat :=
  if unaligned cfg.blockNtokens before then (p, w, .error .invalid)
  else if query.length ≠ tensors.length * cfg.blockNtokens then (p, w, .error .invalid)
  else if query.length / cfg.blockNtokens = 0 then (p, w, .ok 0)
  else
    let sizes := (cacheBlockKeys cfg.blockNtokens before query).map fun key =>
      cfg.calculateSize (key.1.length + key.2.length)
    match allocate cfg sizes p w with
    | (p, w, .error code) => (p, w, .error code)
    | (p, w, .ok blockMrs) =>
      let put := putBlocks cfg before query blockMrs p (copyTensors w blockMrs tensors)
      (put.1, put.2.1.release (notPut blockMrs put.2.2), put.2.2)

def acquireLoop : List (BlockKey T) → Policy (BlockKey T) → World D → Policy (BlockKey T) × World D × List Nat
  | [], p, w => (p, w, [])
  | key :: keys, p, w =>
    match p.get cfg.callbacks w key with
    | (p, w, none) => (p, w, [])
    | (p, w, some mr) =>
      let rest := acquireLoop keys p w
      (rest.1, rest.2.1, mr :: rest.2.2)

def acquire (p : Policy (BlockKey T)) (w : World D) : Policy (BlockKey T) × World D × Status (List Nat) :=
  if unaligned cfg.blockNtokens before then (p, w, .error .invalid)
  else
    let acquired := acquireLoop cfg (cacheBlockKeys cfg.blockNtokens before query) p w
    (acquired.1, acquired.2.1, if acquired.2.2 = [] then .error .notFound else .ok acquired.2.2)

def deleteLoop : List (BlockKey T) → Policy (BlockKey T) → World D → Policy (BlockKey T) × World D
  | [], p, w => (p, w)
  | key :: keys, p, w =>
    let deleted := p.delete w key
    deleteLoop keys deleted.1 deleted.2

def delete (p : Policy (BlockKey T)) (w : World D) : Policy (BlockKey T) × World D × Option StatusCode :=
  if unaligned cfg.blockNtokens before then (p, w, some .invalid)
  else
    let deleted := deleteLoop (cacheBlockKeys cfg.blockNtokens before query) p w
    (deleted.1, deleted.2, none)

/-! ## References -/

variable {T D : Type} (cfg : Config)

structure Allocates (p : Policy (BlockKey T)) (w : World D) (sizes : List Nat)
    (allocated : Policy (BlockKey T) × World D × Status (List Nat)) : Prop where
  moves : Moves w p.values allocated.2.1 (allocated.1.values + ↑(held allocated.2.2))
  fresh : ∀ others, w.Holds (p.values + others) → Fresh w allocated.2.1 (held allocated.2.2)
  length_le : (held allocated.2.2).length ≤ sizes.length

variable {p p' : Policy (BlockKey T)} {w w' : World D} {sizes : List Nat}

theorem Allocates.after {allocated : Policy (BlockKey T) × World D × Status (List Nat)}
    (h : Allocates p' w' sizes allocated) (hmv : Moves w p.values w' p'.values) : Allocates p w sizes allocated where
  moves := hmv.trans h.moves
  fresh others hw := (h.fresh others (hmv.holds others hw)).mono (hmv.kept others hw)
  length_le := h.length_le

section

variable (p : Policy (BlockKey T))

theorem Allocates.none (w : World D) (code : StatusCode) : Allocates p w sizes (p, w, .error code) where
  moves := (Moves.refl w p.values).cast rfl (add_zero _)
  fresh _ _ := fresh_nil w
  length_le := Nat.zero_le _

theorem allocates_alloc {status : Status (List Nat)} (h : w.alloc sizes = (w', status)) :
    Allocates p w sizes (p, w', status) where
  moves := by
    have hmv := (moves_alloc w sizes).frameLeft p.values
    rw [h, add_zero] at hmv
    exact hmv
  fresh _ _ := by
    have hfr := fresh_alloc w sizes
    rwa [h] at hfr
  length_le := by
    have hlength := length_alloc_le w sizes
    rwa [h] at hlength

theorem moves_outOfMemory (h : w.alloc sizes = (w', .error .outOfMemory)) : Moves w p.values w' p.values :=
  (allocates_alloc p h).moves.cast rfl (add_zero _).symm

end

variable [DecidableEq T]

theorem allocates_allocateLoop (sizes : List Nat) (fuel : Nat) (p : Policy (BlockKey T)) (w : World D) :
    Allocates p w sizes (allocateLoop cfg sizes fuel p w) := by
  induction fuel generalizing p w with
  | zero => exact .none p w _
  | succ fuel ih =>
    unfold allocateLoop
    split
    · have hev := p.moves_evict cfg.callbacks w sizes.sum
      dsimp only
      split
      · rename_i heq
        exact ((ih _ _).after (moves_outOfMemory _ heq)).after hev
      · rename_i heq
        exact (allocates_alloc _ heq).after hev
    · exact .none p w _

theorem allocates_allocate (sizes : List Nat) (p : Policy (BlockKey T)) (w : World D) :
    Allocates p w sizes (allocate cfg sizes p w) := by
  unfold allocate
  split
  · rename_i heq
    refine Allocates.after ?_ (moves_outOfMemory p heq)
    split
    · rename_i heq'
      exact (allocates_allocateLoop cfg sizes _ p _).after (moves_outOfMemory p heq')
    · rename_i heq'
      exact allocates_alloc p heq'
  · rename_i heq
    exact allocates_alloc p heq

theorem moves_putLoop (blocks : List (BlockKey T × Nat)) (p : Policy (BlockKey T)) (w : World D) :
    Moves w (p.values + ↑(blocks.map Prod.snd)) (putLoop cfg blocks p w).2 (putLoop cfg blocks p w).1.values := by
  induction blocks generalizing p w with
  | nil => exact (Moves.refl w p.values).cast (add_zero _) rfl
  | cons block blocks ih =>
    obtain ⟨key, mr⟩ := block
    have hput := ((p.moves_put cfg.callbacks w key mr).frame ↑(blocks.map Prod.snd)).trans (ih _ _)
    refine hput.cast ?_ rfl
    rw [List.map_cons, ← Multiset.cons_coe, ← Multiset.singleton_add, add_assoc]

variable (before : Option (List T)) (query : List T) (mrs : List Nat)

section

variable (p : Policy (BlockKey T))

theorem moves_putBlocks (w : World D) :
    let r := putBlocks cfg before query mrs p w
    Moves w (p.values + ↑mrs) r.2.1 (r.1.values + ↑(notPut mrs r.2.2)) := by
  unfold putBlocks
  generalize cacheBlockKeys cfg.blockNtokens before (query.take (mrs.length * cfg.blockNtokens)) = keys
  have hput := (moves_putLoop cfg (keys.zip mrs) p w).frame ↑(mrs.drop (keys.zip mrs).length)
  refine hput.cast ?_ rfl
  rw [map_snd_zip_eq_take, add_assoc, Multiset.coe_add, take_append_drop]

theorem moves_putMrsImpl (w : World D) :
    let r := putMrsImpl cfg before query mrs p w
    Moves w (p.values + ↑mrs) r.2.1 (r.1.values + ↑(notPut mrs r.2.2)) := by
  unfold putMrsImpl
  split
  · exact .refl _ _
  split
  · exact .refl _ _
  · split
    · exact .refl _ _
    · exact moves_putBlocks cfg before query mrs p w

theorem moves_put_release (w : World D) :
    let r := putMrsImpl cfg before query mrs p w
    Moves w (p.values + ↑mrs) (r.2.1.release (notPut mrs r.2.2)) r.1.values :=
  (moves_putMrsImpl cfg before query mrs p w).trans
    (((moves_release _ _).frameLeft _).cast rfl (add_zero _).symm)

end

theorem written_copyTensors (w : World D) (mrs : List Nat) (tensors : List D) :
    Written (· ∈ mrs.map .managed) w (copyTensors w mrs tensors) := by
  refine (written_foldl (fun w copy => written_write w (.managed copy.1) copy.2) (mrs.zip tensors) w).mono ?_
  intro mr hmr
  obtain ⟨copy, hcp, rfl⟩ := mem_map.1 hmr
  exact mem_map_of_mem (of_mem_zip hcp).1

theorem moves_putTensorsImpl (tensors : List D) (p : Policy (BlockKey T)) (w : World D) :
    let r := putTensorsImpl cfg before query tensors p w
    Moves w p.values r.2.1 r.1.values := by
  unfold putTensorsImpl
  split
  · exact .refl _ _
  split
  · exact .refl _ _
  split
  · exact .refl _ _
  dsimp only
  have hal := allocates_allocate cfg ((cacheBlockKeys cfg.blockNtokens before query).map fun key =>
    cfg.calculateSize (key.1.length + key.2.length)) p w
  split
  · rename_i heq
    rw [heq] at hal
    exact hal.moves.cast rfl (add_zero _).symm
  rename_i p₁ w₁ blockMrs heq
  rw [heq] at hal
  apply hal.moves.written hal.fresh (written_copyTensors w₁ blockMrs tensors)
  exact (moves_putBlocks cfg before query blockMrs p₁ _).trans
    (((moves_release _ _).frameLeft _).cast rfl (add_zero _).symm)

def leading (p : Policy (BlockKey T)) : List (BlockKey T) → List Nat
  | [] => []
  | key :: keys =>
    match p.lookup key with
    | none => []
    | some mr => mr :: leading p keys

theorem leading_congr (h : ∀ key, p'.lookup key = p.lookup key) (keys : List (BlockKey T)) :
    leading p' keys = leading p keys := by
  induction keys with
  | nil => rfl
  | cons key keys ih =>
    unfold leading
    rw [h key, ih]

theorem acquireLoop_spec (keys : List (BlockKey T)) (p : Policy (BlockKey T)) (w : World D) :
    let r := acquireLoop cfg keys p w
    r.2.2 = leading p keys ∧ r.1.values = p.values ∧ Moves w p.values r.2.1 (p.values + ↑(leading p keys)) := by
  induction keys generalizing p w with
  | nil => exact ⟨rfl, rfl, (Moves.refl w p.values).cast rfl (add_zero _)⟩
  | cons key keys ih =>
    obtain ⟨hva, hlk, hvl, hmv⟩ := p.get_spec cfg.callbacks w key
    unfold acquireLoop leading
    split
    · rename_i heq
      rw [heq] at hva hvl hmv
      rw [← hva] at hmv ⊢
      exact ⟨rfl, hvl, hmv⟩
    rename_i p₁ w₁ mr heq
    rw [heq] at hva hlk hvl hmv
    obtain ⟨hrs, hrestValues, hrestMoves⟩ := ih p₁ w₁
    rw [leading_congr hlk] at hrs hrestMoves
    rw [← hva] at hmv ⊢
    refine ⟨congrArg _ hrs, hrestValues.trans hvl, ?_⟩
    have hsc := (hrestMoves.frame {mr}).cast (congrArg (· + _) hvl.symm) rfl
    apply (hmv.trans hsc).cast rfl
    rw [hvl, ← Multiset.cons_coe, ← Multiset.singleton_add]
    abel

theorem held_acquire (p : Policy (BlockKey T)) (w : World D) : held (acquire cfg before query p w).2.2 =
      if unaligned cfg.blockNtokens before then [] else leading p (cacheBlockKeys cfg.blockNtokens before query) := by
  unfold acquire
  split
  · rfl
  dsimp only
  rw [(acquireLoop_spec cfg _ p w).1]
  split
  · rename_i hnil
    exact hnil.symm
  · rfl

theorem moves_acquire (p : Policy (BlockKey T)) (w : World D) :
    let r := acquire cfg before query p w
    Moves w p.values r.2.1 (r.1.values + ↑(held r.2.2)) := by
  dsimp only
  rw [held_acquire]
  unfold acquire
  split
  · exact (Moves.refl w p.values).cast rfl (add_zero _)
  · obtain ⟨-, hvl, hmv⟩ := acquireLoop_spec cfg (cacheBlockKeys cfg.blockNtokens before query) p w
    exact hmv.cast rfl (congrArg (· + _) hvl)

theorem moves_deleteLoop (keys : List (BlockKey T)) (p : Policy (BlockKey T)) (w : World D) :
    Moves w p.values (deleteLoop keys p w).2 (deleteLoop keys p w).1.values := by
  induction keys generalizing p w with
  | nil => exact .refl _ _
  | cons key keys ih => exact (p.moves_delete w key).trans (ih _ _)

theorem moves_delete (p : Policy (BlockKey T)) (w : World D) :
    Moves w p.values (delete cfg before query p w).2.1 (delete cfg before query p w).1.values := by
  unfold delete
  split
  · exact .refl _ _
  · exact moves_deleteLoop _ p w

end L1Cache

end Aibrix.KvCache
