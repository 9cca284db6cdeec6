import Aibrix.SyncHash.Table

/-! # The reverse block index

A removal finds the contexts of a block through the index, so it has to say exactly which contexts map the block. -/

namespace Aibrix.SyncHash

open Lib List Function

variable {c : Config}

/-! ## What a section does to the mapping of its context -/

namespace ContextData

variable {d : ContextData} {hash : Int}

theorem mem_indexBlocks {blocks : List (Int × List UInt8)} {parentHash : UInt64} {mapping : KeyMap Int UInt64} :
    hash ∈ (indexBlocks c blocks parentHash mapping).mapping ↔
      hash ∈ mapping ∨ hash ∈ (indexBlocks c blocks parentHash mapping).added := by
  induction blocks generalizing parentHash mapping with
  | nil => simp [indexBlocks]
  | cons block blocks ih =>
    unfold indexBlocks
    split
    · exact ih
    · simp only [ih, AList.mem_insert, mem_cons]
      tauto

variable (now : Int) (event : BlockStored)

@[simp]
theorem learnBlockSize_engineToAibrix : (d.learnBlockSize event).engineToAibrix = d.engineToAibrix := by
  unfold learnBlockSize
  dsimp only
  split_ifs <;> rfl

@[simp]
theorem learnBlockSize_markedForEviction : (d.learnBlockSize event).markedForEviction = d.markedForEviction := by
  unfold learnBlockSize
  dsimp only
  split_ifs <;> rfl

@[simp]
theorem learnBlockSize_prefixStore : (d.learnBlockSize event).prefixStore = d.prefixStore := by
  unfold learnBlockSize
  dsimp only
  split_ifs <;> rfl

theorem mem_storeBlocks : hash ∈ (d.storeBlocks c now event).1.engineToAibrix ↔
      hash ∈ d.engineToAibrix ∨ hash ∈ (d.storeBlocks c now event).2 := by
  unfold storeBlocks
  split
  · simp
  dsimp only
  split
  · simp
  · rw [mem_indexBlocks, learnBlockSize_engineToAibrix]

theorem storeBlocks_markedForEviction : (d.storeBlocks c now event).1.markedForEviction = d.markedForEviction := by
  unfold storeBlocks
  split
  · rfl
  · dsimp only
    split <;> exact learnBlockSize_markedForEviction event

theorem storeBlocks_of_marked (h : d.markedForEviction = true) : d.storeBlocks c now event = (d, []) := by
  rw [storeBlocks, if_pos h]

theorem mem_removeBlocks (blocks : List Int) (event : BlockRemoved) :
    let r := d.removeBlocks now blocks event
    hash ∈ r.1.engineToAibrix ↔ hash ∈ d.engineToAibrix ∧ hash ∉ r.2 := by
  unfold removeBlocks
  dsimp only
  split
  · simp
  · exact KeyMap.mem_eraseAll _

theorem removeBlocks_markedForEviction (blocks : List Int) (event : BlockRemoved) :
    (d.removeBlocks now blocks event).1.markedForEviction = d.markedForEviction := by
  unfold removeBlocks
  dsimp only
  split <;> rfl

end ContextData

variable {index : BlockIndex} {ctx ctx' : ModelContext} {hash : Int}

theorem mem_foldl_add (blocks : List Int) : ctx' ∈ blocks.foldl (updateBlockIndex true ctx) index hash ↔
      ctx' ∈ index hash ∨ (ctx' = ctx ∧ hash ∈ blocks) := by
  induction blocks generalizing index with
  | nil => simp
  | cons first blocks ih =>
    rw [foldl_cons, ih, updateBlockIndex, if_pos rfl]
    by_cases hctx : ctx ∈ index first
    · rw [if_pos hctx]
      constructor
      · rintro (h | ⟨rfl, h⟩)
        · exact .inl h
        · exact .inr ⟨rfl, mem_cons_of_mem _ h⟩
      rintro (h | ⟨rfl, h⟩)
      · exact .inl h
      · rcases mem_cons.1 h with rfl | h
        · exact .inl hctx
        · exact .inr ⟨rfl, h⟩
    · rw [if_neg hctx, update_apply]
      split
      · subst first
        simp only [mem_append, mem_cons]
        tauto
      · simp only [mem_cons]
        tauto

theorem nodup_updateBlockIndex (add : Bool) (first : Int) (h : ∀ hash, (index hash).Nodup) :
    (updateBlockIndex add ctx index first hash).Nodup := by
  unfold updateBlockIndex
  split_ifs with hadd hctx
  · exact h _
  · rw [update_apply]
    split
    · refine nodup_append.2 ⟨h _, nodup_singleton _, ?_⟩
      rintro a ha b hb rfl
      exact hctx (mem_singleton.1 hb ▸ ha)
    · exact h _
  · rw [update_apply]
    split
    · exact (h _).erase _
    · exact h _

theorem nodup_foldl (add : Bool) (blocks : List Int) (h : ∀ hash, (index hash).Nodup) :
    ∀ hash, (blocks.foldl (updateBlockIndex add ctx) index hash).Nodup := by
  induction blocks generalizing index with
  | nil => exact h
  | cons first blocks ih => exact ih fun _ => nodup_updateBlockIndex add first h

theorem mem_updateBlockIndex_false (first : Int) (h : ∀ hash, (index hash).Nodup) :
    ctx' ∈ updateBlockIndex false ctx index first hash ↔ ctx' ∈ index hash ∧ ¬ (ctx' = ctx ∧ hash = first) := by
  rw [updateBlockIndex, if_neg Bool.false_ne_true, update_apply]
  split
  · subst first
    rw [(h _).mem_erase_iff]
    tauto
  · tauto

theorem mem_foldl_drop (blocks : List Int) (h : ∀ hash, (index hash).Nodup) :
    ctx' ∈ blocks.foldl (updateBlockIndex false ctx) index hash ↔
      ctx' ∈ index hash ∧ ¬ (ctx' = ctx ∧ hash ∈ blocks) := by
  induction blocks generalizing index with
  | nil => simp
  | cons first blocks ih =>
    rw [foldl_cons, ih fun _ => nodup_updateBlockIndex false first h, mem_updateBlockIndex_false first h]
    simp only [mem_cons]
    tauto

/-! ## What the block index keeps

The invariant between two atomic steps: every section, every new context and every step of an eviction keeps it. -/

open Option Phase

namespace Phase

/-- The contexts that the eviction is going to delete without looking at the map again. -/
def targets : Phase → List Ref
  | .scan _ candidates => candidates
  | .mark ref _ candidates => ref :: candidates
  | .next _ victims => victims
  | .snapshot victim victims => victim :: victims
  | .drop _ victim _ victims => victim :: victims
  | .count _ victims => victims
  | .collect _ _ ages => ages.map Prod.fst
  | .limit | .expiry .. | .expire .. => []

def victims : Phase → List Ref
  | .scan _ candidates | .mark _ _ candidates => candidates
  | .next enforcing victims | .count enforcing victims => if enforcing then [] else victims
  | .snapshot victim _ => [victim]
  | .drop enforcing victim _ victims => victim :: if enforcing then [] else victims
  | .limit | .collect .. | .expiry .. | .expire .. => []

/-- The keys that a `Range` has still to visit before the targets are known. -/
def unvisited : Phase → List ModelContext
  | .scan keys _ | .mark _ keys _ | .collect _ keys _ => keys
  | _ => []

def uncounted : Phase → Int
  | .count .. => 1
  | _ => 0

theorem victims_subset {phase : Phase} {ref : Ref} (h : ref ∈ phase.victims) : ref ∈ phase.targets := by
  cases phase with
  | scan | mark | snapshot => simp_all [victims, targets]
  | next enforcing | count enforcing | drop enforcing => cases enforcing <;> simp_all [victims, targets]
  | limit | collect | expiry | expire => simp [victims] at h

end Phase

namespace Table

variable {t t' : Table} {ref : Ref}

def Current (t : Table) (ref : Ref) : Prop := t.contextMap.lookup ref.1 = some ref.2

def Marked (t : Table) (ref : Ref) : Prop := (t.get ref).markedForEviction = true

def Maps (t : Table) (ref : Ref) (blockHash : Int) : Prop := blockHash ∈ (t.get ref).engineToAibrix

structure PhaseOk (t : Table) (phase : Phase) : Prop where
  current : ∀ ref ∈ phase.targets, t.Current ref
  marked : ∀ ref ∈ phase.victims, t.Marked ref
  nodup : (phase.targets.map Prod.fst ++ phase.unvisited).Nodup
  dropping : ∀ {enforcing victim blockHashes victims}, phase = .drop enforcing victim blockHashes victims →
    ∀ {blockHash}, victim.1 ∈ t.blockIndex blockHash → blockHash ∈ blockHashes

structure Ok (t : Table) (eviction : Option Phase) : Prop where
  nodup : ∀ blockHash, (t.blockIndex blockHash).Nodup
  indexed : ∀ {ctx blockHash}, ctx ∈ t.blockIndex blockHash → ∃ number, t.Current (ctx, number) ∧
    t.Maps (ctx, number) blockHash
  mapped : ∀ {ref blockHash}, t.Current ref → ¬ t.Marked ref → t.Maps ref blockHash → ref.1 ∈ t.blockIndex blockHash
  numbered : ∀ {ref}, t.Current ref → ref.2 < t.created
  marked : ∀ {ref}, t.Current ref → t.Marked ref → ∃ phase, eviction = some phase ∧ ref ∈ phase.victims
  phase : ∀ {phase}, eviction = some phase → t.PhaseOk phase

structure Forward (t t' : Table) : Prop where
  created : t.created ≤ t'.created
  held : ∀ {ref}, ref.2 < t.created → t.Current ref ∨ t.Marked ref → t'.Current ref ∨ t'.Marked ref

variable {r : ContextData × List Int}

theorem Current.unique {number number' : Nat} (h : t.Current (ctx, number))
    (h' : t.Current (ctx, number')) : number = number' := Option.some.inj (h.symm.trans h')

theorem Current.eq {ref' : Ref} (h : t.Current ref) (h' : t.Current ref') (hctx : ref.1 = ref'.1) : ref = ref' := by
  obtain ⟨ctx, number⟩ := ref
  obtain ⟨ctx', number'⟩ := ref'
  obtain rfl : ctx = ctx' := hctx
  rw [h.unique h']

theorem Current.ne_of_none (h : t.Current ref) (hnn : t.contextMap.lookup ctx = none) : ref.1 ≠ ctx := by
  rintro rfl
  rw [Current, hnn] at h
  cases h

/-! ## Sections -/

theorem get_put (d : ContextData) (ref' : Ref) : (t.put ref d).get ref' = if ref' = ref then d else t.get ref' := by
  obtain ⟨ctx, number⟩ := ref
  obtain ⟨ctx', number'⟩ := ref'
  simp only [get, put, setData, Function.update_apply, Prod.mk.injEq]
  by_cases hctx : ctx' = ctx
  · subst hctx
    simp [Function.update_apply]
  · simp [hctx]

variable (add : Bool)

theorem get_leave (r : ContextData × List Int) (ref' : Ref) :
    (t.leave ref.1 ref.2 add r).get ref' = if ref' = ref then r.1 else t.get ref' := get_put r.1 ref'

variable {eviction : Option Phase}

/-- A step that leaves the map and the marks as they are, and that brings no context back into the index. -/
theorem Ok.around (h : t.Ok eviction) (hmap : t'.contextMap = t.contextMap) (hct : t'.created = t.created)
    (hmr : ∀ ref, t'.Marked ref ↔ t.Marked ref) (hnd : ∀ blockHash, (t'.blockIndex blockHash).Nodup)
    (hin : ∀ {ctx blockHash}, ctx ∈ t'.blockIndex blockHash → ∃ number, t.Current (ctx, number) ∧
      t'.Maps (ctx, number) blockHash)
    (hma : ∀ {ref blockHash}, t.Current ref → ¬ t.Marked ref → t'.Maps ref blockHash → ref.1 ∈ t'.blockIndex blockHash)
    (hbc : ∀ {ref blockHash}, t.Current ref → t.Marked ref → ref.1 ∈ t'.blockIndex blockHash →
      ref.1 ∈ t.blockIndex blockHash) : t'.Ok eviction := by
  have hcr : ∀ ref, t'.Current ref ↔ t.Current ref := fun ref => by rw [Current, Current, hmap]
  refine ⟨hnd, fun hctx => ?_, fun hcur hnot hmp => ?_, fun hcur => ?_, fun hcur hmk => ?_, fun hph => ?_⟩
  · obtain ⟨number, hcur, hmp⟩ := hin hctx
    exact ⟨number, (hcr _).2 hcur, hmp⟩
  · exact hma ((hcr _).1 hcur) (fun hmk => hnot ((hmr _).2 hmk)) hmp
  · rw [hct]
    exact h.numbered ((hcr _).1 hcur)
  · exact h.marked ((hcr _).1 hcur) ((hmr _).1 hmk)
  · replace hph := h.phase hph
    refine ⟨fun ref href => (hcr ref).2 (hph.current ref href),
      fun ref href => (hmr ref).2 (hph.marked ref href), hph.nodup, fun heq blockHash hctx => ?_⟩
    refine hph.dropping heq (hbc (hph.current _ ?_) (hph.marked _ ?_) hctx)
    · simp [heq, targets]
    · simp [heq, victims]

theorem marked_leave (hmr : r.1.markedForEviction = (t.get ref).markedForEviction)
    (ref' : Ref) : (t.leave ref.1 ref.2 add r).Marked ref' ↔ t.Marked ref' := by
  rw [Marked, get_leave]
  split
  · subst ref'
    rw [hmr, Marked]
  · rfl

theorem maps_leave (r : ContextData × List Int) (ref' : Ref) (blockHash : Int) :
    (t.leave ref.1 ref.2 add r).Maps ref' blockHash ↔
      if ref' = ref then blockHash ∈ r.1.engineToAibrix else t.Maps ref' blockHash := by
  rw [Maps, get_leave]
  split <;> rfl

section

variable (h : t.Ok eviction)
include h

theorem Ok.leave_add (hhl : t.Current ref ∨ t.Marked ref)
    (hmk : r.1.markedForEviction = (t.get ref).markedForEviction) (hnn : t.Marked ref → r.2 = [])
    (hmp : ∀ blockHash, blockHash ∈ r.1.engineToAibrix ↔ t.Maps ref blockHash ∨ blockHash ∈ r.2) :
    (t.leave ref.1 ref.2 true r).Ok eviction := by
  have had : ∀ {blockHash}, blockHash ∈ r.2 → t.Current ref ∧ ¬ t.Marked ref := by
    intro blockHash hmem
    have hnot : ¬ t.Marked ref := fun hmr => by simp [hnn hmr] at hmem
    exact ⟨hhl.resolve_right hnot, hnot⟩
  refine h.around rfl rfl (marked_leave true hmk) (nodup_foldl true r.2 h.nodup) (fun hctx => ?_)
    (fun {ref' blockHash} hcur hnot hmp' => ?_) (fun hcur hmr hctx => ?_)
  · rcases (mem_foldl_add r.2).1 hctx with hctx | ⟨rfl, hmem⟩
    · obtain ⟨number, hcur, hma⟩ := h.indexed hctx
      refine ⟨number, hcur, (maps_leave true r _ _).2 ?_⟩
      split
      · rename_i heq
        exact (hmp _).2 (.inl (heq ▸ hma))
      · exact hma
    · exact ⟨ref.2, (had hmem).1, (maps_leave true r _ _).2 (by simpa using (hmp _).2 (.inr hmem))⟩
  · apply (mem_foldl_add r.2).2
    rw [maps_leave] at hmp'
    split at hmp'
    · subst ref'
      exact ((hmp _).1 hmp').imp (h.mapped hcur hnot) fun hmem => ⟨rfl, hmem⟩
    · exact .inl (h.mapped hcur hnot hmp')
  · rcases (mem_foldl_add r.2).1 hctx with hctx | ⟨heq, hmem⟩
    · exact hctx
    · rw [hcur.eq (had hmem).1 heq] at hmr
      exact absurd hmr (had hmem).2

theorem Ok.leave_drop (hmr : r.1.markedForEviction = (t.get ref).markedForEviction)
    (hms : ∀ blockHash, blockHash ∈ r.1.engineToAibrix ↔ t.Maps ref blockHash ∧ blockHash ∉ r.2)
    (hhr : ∀ {number}, t.Current (ref.1, number) → number ≠ ref.2 → ∀ blockHash ∈ r.2,
      ¬ t.Maps (ref.1, number) blockHash) : (t.leave ref.1 ref.2 false r).Ok eviction := by
  refine h.around rfl rfl (marked_leave false hmr) (nodup_foldl false r.2 h.nodup) (fun {ctx blockHash} hctx => ?_)
    (fun {ref' blockHash} hcur hnot hmp' => ?_) (fun _ _ hctx => ((mem_foldl_drop r.2 h.nodup).1 hctx).1)
  · obtain ⟨hctx, hkp⟩ := (mem_foldl_drop r.2 h.nodup).1 hctx
    obtain ⟨number, hcur, hmp⟩ := h.indexed hctx
    refine ⟨number, hcur, (maps_leave false r _ _).2 ?_⟩
    split
    · subst ref
      exact (hms _).2 ⟨hmp, fun hmem => hkp ⟨rfl, hmem⟩⟩
    · exact hmp
  rw [maps_leave] at hmp'
  apply (mem_foldl_drop r.2 h.nodup).2
  split at hmp'
  · subst ref'
    obtain ⟨hmp, hkp⟩ := (hms _).1 hmp'
    exact ⟨h.mapped hcur hnot hmp, fun hdr => hkp hdr.2⟩
  rename_i hne
  refine ⟨h.mapped hcur hnot hmp', fun ⟨hctx, hmem⟩ => ?_⟩
  obtain ⟨ctx, number⟩ := ref'
  obtain rfl : ctx = ref.1 := hctx
  exact hhr hcur (fun heq => hne (by rw [heq])) blockHash hmem hmp'

theorem Ok.frame (hmap : t'.contextMap = t.contextMap) (hdt : t'.data = t.data)
    (hcr : t'.created = t.created) (hin : t'.blockIndex = t.blockIndex) : t'.Ok eviction := by
  have hget : ∀ ref, t'.get ref = t.get ref := fun ref => by rw [get, get, hdt]
  refine h.around hmap hcr (fun ref => by rw [Marked, Marked, hget]) (hin ▸ h.nodup) (fun hctx => ?_)
    (fun hcur hnot hmp => ?_) fun _ _ hctx => hin ▸ hctx
  · obtain ⟨number, hcur, hmp⟩ := h.indexed (hin ▸ hctx)
    exact ⟨number, hcur, by rwa [Maps, hget]⟩
  · rw [Maps, hget] at hmp
    rw [hin]
    exact h.mapped hcur hnot hmp

theorem Ok.put {d : ContextData} (hmr : d.markedForEviction = (t.get ref).markedForEviction)
    (hmp : d.engineToAibrix = (t.get ref).engineToAibrix) : (t.put ref d).Ok eviction :=
  h.leave_drop (r := (d, [])) hmr (by simp [hmp, Maps]) (by simp)

end

theorem Forward.refl (t : Table) : t.Forward t := ⟨le_rfl, fun _ => id⟩

theorem Forward.of_marked (hmap : t'.contextMap = t.contextMap) (hcr : t'.created = t.created)
    (hmr : ∀ ref, t.Marked ref → t'.Marked ref) : t.Forward t' :=
  ⟨hcr.ge, fun _ => Or.imp (fun hcur => by rwa [Current, hmap]) (hmr _)⟩

theorem Forward.leave
    (hmr : r.1.markedForEviction = (t.get ref).markedForEviction) : t.Forward (t.leave ref.1 ref.2 add r) :=
  .of_marked rfl rfl fun ref' => (marked_leave add hmr ref').2

theorem current_create (now : Int) (ctx : ModelContext) (ref : Ref) :
    (t.create now ctx).Current ref ↔ if ref.1 = ctx then ref.2 = t.created else t.Current ref := by
  change (t.contextMap.insert ctx t.created).lookup ref.1 = some ref.2 ↔ _
  rw [KeyMap.lookup_insert_eq]
  split
  · rw [some_inj, eq_comm]
  · rfl

theorem get_create (now : Int) (ctx : ModelContext) (ref : Ref) : (t.create now ctx).get ref =
    if ref = (ctx, t.created) then { prefixStore := { lastAccess := now } } else t.get ref :=
  @get_put t (ctx, t.created) _ ref

theorem Forward.create (now : Int) (ctx : ModelContext) (hnn : t.contextMap.lookup ctx = none) :
    t.Forward (t.create now ctx) := by
  refine ⟨Nat.le_succ _, fun {ref} hlt hhl => hhl.imp (fun hcur => ?_) fun hmr => ?_⟩
  · rwa [current_create, if_neg (hcur.ne_of_none hnn)]
  · have hne : ref ≠ (ctx, t.created) := fun heq => by simp [heq] at hlt
    rwa [Marked, get_create, if_neg hne]

theorem Ok.create (h : t.Ok eviction) (now : Int) (hnn : t.contextMap.lookup ctx = none) :
    (t.create now ctx).Ok eviction := by
  -- The context is new, so that what was in the map before is unchanged.
  have hot : ∀ {ref}, t.Current ref → ref.1 ≠ ctx ∧ (t.create now ctx).Current ref ∧
      (t.create now ctx).get ref = t.get ref := by
    intro ref hcur
    have hne : ref.1 ≠ ctx := hcur.ne_of_none hnn
    exact ⟨hne, by rwa [current_create, if_neg hne], by rw [get_create, if_neg fun heq => hne (by rw [heq])]⟩
  have hcs : ∀ {ref}, (t.create now ctx).Current ref → ref = (ctx, t.created) ∨ t.Current ref := by
    intro ref hcur
    rw [current_create] at hcur
    split at hcur
    · rename_i hctx
      exact .inl (Prod.ext hctx hcur)
    · exact .inr hcur
  refine ⟨h.nodup, fun hctx => ?_, fun hcur hnot hmp => ?_, fun hcur => ?_, fun hcur hmr => ?_, fun hph => ?_⟩
  · obtain ⟨number, hcur, hmp⟩ := h.indexed hctx
    obtain ⟨_, hcur', hget⟩ := hot hcur
    exact ⟨number, hcur', by rwa [Maps, hget]⟩
  · rcases hcs hcur with rfl | hcur
    · rw [Maps, get_create, if_pos rfl] at hmp
      simp at hmp
    · rw [Maps, (hot hcur).2.2] at hmp
      rw [Marked, (hot hcur).2.2] at hnot
      exact h.mapped hcur hnot hmp
  · rcases hcs hcur with rfl | hcur
    · exact Nat.lt_succ_self _
    · exact Nat.lt_succ_of_lt (h.numbered hcur)
  · rcases hcs hcur with rfl | hcur
    · rw [Marked, get_create, if_pos rfl] at hmr
      cases hmr
    · rw [Marked, (hot hcur).2.2] at hmr
      exact h.marked hcur hmr
  · replace hph := h.phase hph
    refine ⟨fun ref href => (hot (hph.current ref href)).2.1, fun ref href => ?_, hph.nodup, hph.dropping⟩
    rw [Marked, (hot (hph.current ref (victims_subset href))).2.2]
    exact hph.marked ref href

/-! ## Steps of the eviction -/

variable {phase phase' : Phase}

theorem Ok.enterPhase (h : t.Ok (some phase)) (hph : t.PhaseOk phase')
    (hvc : ∀ ref ∈ phase.victims, ref ∈ phase'.victims) : t.Ok (some phase') := by
  refine ⟨h.nodup, h.indexed, h.mapped, h.numbered, fun hcur hmr => ?_, ?_⟩
  · obtain ⟨_, ⟨⟩, href⟩ := h.marked hcur hmr
    exact ⟨_, rfl, hvc _ href⟩
  · rintro _ ⟨⟩
    exact hph

theorem Ok.finish (h : t.Ok (some phase)) (hvc : phase.victims = []) : t.Ok none := by
  refine ⟨h.nodup, h.indexed, h.mapped, h.numbered, fun hcur hmr => ?_, nofun⟩
  obtain ⟨_, ⟨⟩, href⟩ := h.marked hcur hmr
  simp [hvc] at href

theorem marked_markForEviction (ref ref' : Ref) : (t.markForEviction ref).Marked ref' ↔ ref' = ref ∨ t.Marked ref' := by
  rw [Marked, markForEviction, get_put]
  split
  · simp [*]
  · simp [Marked, *]

theorem maps_markForEviction (ref ref' : Ref) (blockHash : Int) :
    (t.markForEviction ref).Maps ref' blockHash ↔ t.Maps ref' blockHash := by
  rw [Maps, markForEviction, get_put]
  split
  · subst ref'
    rfl
  · rfl

theorem Ok.mark (h : t.Ok (some phase)) (htr : ∀ ref' ∈ phase'.targets, t.Current ref')
    (hvc : ∀ ref', ref' ∈ phase'.victims ↔ ref' = ref ∨ ref' ∈ phase.victims)
    (hnd : (phase'.targets.map Prod.fst ++ phase'.unvisited).Nodup)
    (hdr : ∀ enforcing victim blockHashes victims, phase' ≠ .drop enforcing victim blockHashes victims) :
    (t.markForEviction ref).Ok (some phase') := by
  refine ⟨h.nodup, fun hctx => ?_, fun hcur hnot hmp => ?_, h.numbered, fun hcur hmr => ?_, ?_⟩
  · obtain ⟨number, hcur, hmp⟩ := h.indexed hctx
    exact ⟨number, hcur, (maps_markForEviction ..).2 hmp⟩
  · exact h.mapped hcur (fun hmr => hnot ((marked_markForEviction ..).2 (.inr hmr))) ((maps_markForEviction ..).1 hmp)
  · refine ⟨_, rfl, (hvc _).2 (((marked_markForEviction ..).1 hmr).imp_right fun hmr => ?_)⟩
    obtain ⟨_, ⟨⟩, href⟩ := h.marked hcur hmr
    exact href
  · rintro _ ⟨⟩
    refine ⟨htr, fun ref' href' => (marked_markForEviction ..).2 ?_, hnd, fun heq => absurd heq (hdr _ _ _ _)⟩
    exact ((hvc _).1 href').imp_right ((h.phase rfl).marked ref')

theorem Forward.mark (ref : Ref) : t.Forward (t.markForEviction ref) :=
  .of_marked rfl rfl fun _ hmr => (marked_markForEviction ..).2 (.inr hmr)

variable {enforcing : Bool} {victim : Ref} {blockHashes : List Int} {blockHash : Int} {victims : List Ref}

theorem Ok.victim_marked (h : t.Ok (some (.drop enforcing victim blockHashes victims))) :
    t.Current victim ∧ t.Marked victim :=
  ⟨(h.phase rfl).current _ mem_cons_self, (h.phase rfl).marked _ mem_cons_self⟩

theorem Ok.dropBlock (h : t.Ok (some (.drop enforcing victim (block :: blockHashes) victims))) :
    Ok { t with blockIndex := updateBlockIndex false victim.1 t.blockIndex block }
      (some (.drop enforcing victim blockHashes victims)) := by
  have hph := h.phase rfl
  refine ⟨fun _ => nodup_updateBlockIndex false block h.nodup, fun hctx => ?_, fun hcur hnot hmp => ?_,
    h.numbered, fun hcur hmr => ?_, ?_⟩
  · exact h.indexed ((mem_updateBlockIndex_false block h.nodup).1 hctx).1
  · refine (mem_updateBlockIndex_false block h.nodup).2 ⟨h.mapped hcur hnot hmp, fun ⟨hctx, _⟩ => hnot ?_⟩
    rw [Current.eq hcur h.victim_marked.1 hctx]
    exact h.victim_marked.2
  · obtain ⟨_, ⟨⟩, href⟩ := h.marked hcur hmr
    exact ⟨_, rfl, href⟩
  · rintro _ ⟨⟩
    refine ⟨hph.current, hph.marked, hph.nodup, ?_⟩
    rintro _ _ _ _ ⟨⟩ blockHash' hctx
    obtain ⟨hctx, hkp⟩ := (mem_updateBlockIndex_false block h.nodup).1 hctx
    exact (mem_cons.1 (hph.dropping rfl hctx)).resolve_left fun heq => hkp ⟨rfl, heq⟩

theorem Ok.deleteContext (h : t.Ok (some (.drop enforcing victim [] victims))) :
    Ok { t with contextMap := t.contextMap.erase victim.1 } (some (.count enforcing victims)) := by
  have hph := h.phase rfl
  have hcr : ∀ ref, Current { t with contextMap := t.contextMap.erase victim.1 } ref ↔
      ref.1 ≠ victim.1 ∧ t.Current ref := by
    intro ref
    change (t.contextMap.erase victim.1).lookup ref.1 = some ref.2 ↔ _
    rw [KeyMap.lookup_erase_eq]
    split <;> simp_all [Current]
  refine ⟨h.nodup, fun {ctx blockHash} hctx => ?_, fun hcur => h.mapped ((hcr _).1 hcur).2,
    fun hcur => h.numbered ((hcr _).1 hcur).2, fun {ref} hcur hmr => ?_, ?_⟩
  · obtain ⟨number, hcur, hmp⟩ := h.indexed hctx
    refine ⟨number, (hcr _).2 ⟨?_, hcur⟩, hmp⟩
    rintro rfl
    exact not_mem_nil (hph.dropping rfl hctx)
  · obtain ⟨hne, hcur⟩ := (hcr _).1 hcur
    obtain ⟨_, ⟨⟩, href⟩ := h.marked hcur hmr
    refine ⟨_, rfl, (mem_cons.1 href).resolve_left ?_⟩
    rintro rfl
    exact hne rfl
  · rintro _ ⟨⟩
    have hnd : victim.1 ∉ victims.map Prod.fst ∧ (victims.map Prod.fst).Nodup := by
      simpa [targets, unvisited] using hph.nodup
    refine ⟨fun ref href => (hcr ref).2 ⟨fun heq => ?_, hph.current ref (mem_cons_of_mem _ href)⟩,
      fun ref href => hph.marked ref (mem_cons_of_mem _ href),
      by simpa [targets, unvisited] using hnd.2, nofun⟩
    exact hnd.1 (heq ▸ mem_map_of_mem href)

theorem Forward.deleteContext (h : t.Ok (some (.drop enforcing victim [] victims))) :
    t.Forward { t with contextMap := t.contextMap.erase victim.1 } := by
  refine ⟨le_rfl, fun {ref} _ hhl => ?_⟩
  rcases hhl with hcur | hmr
  · by_cases hctx : ref.1 = victim.1
    · rw [hcur.eq h.victim_marked.1 hctx]
      exact .inr h.victim_marked.2
    · exact .inl ((AList.lookup_erase_ne hctx).trans hcur)
  · exact .inr hmr

def balance (t : Table) (eviction : Option Phase) : Int :=
  t.contextCount - KeyMap.size t.contextMap - eviction.elim 0 Phase.uncounted

structure Evolves (t : Table) (phase : Phase) (r : Table × Option Phase) : Prop where
  ok : r.1.Ok r.2
  forward : t.Forward r.1
  balance : r.1.balance r.2 = t.balance (some phase)

theorem Evolves.stay (h : t.Ok (some phase)) (hph : t.PhaseOk phase')
    (hvc : ∀ ref ∈ phase.victims, ref ∈ phase'.victims) (hun : phase'.uncounted = phase.uncounted) :
    t.Evolves phase (t, some phase') := by
  refine ⟨h.enterPhase hph hvc, .refl t, ?_⟩
  rw [Table.balance, Table.balance, elim_some, elim_some, hun]

theorem PhaseOk.sublist (h : t.PhaseOk phase) (hvc : ∀ ref ∈ phase'.victims, ref ∈ phase.victims)
    (htr : ∀ ref ∈ phase'.targets, ref ∈ phase.targets)
    (hnd : (phase'.targets.map Prod.fst ++ phase'.unvisited).Sublist (phase.targets.map Prod.fst ++ phase.unvisited))
    (hdr : ∀ enforcing victim blockHashes victims, phase' ≠ .drop enforcing victim blockHashes victims) :
    t.PhaseOk phase' :=
  ⟨fun ref href => h.current ref (htr ref href), fun ref href => h.marked ref (hvc ref href),
    h.nodup.sublist hnd, fun heq => absurd heq (hdr _ _ _ _)⟩

theorem PhaseOk.of_empty (htr : phase.targets = []) (hnd : phase.unvisited.Nodup) : t.PhaseOk phase := by
  have hvc : ∀ ref, ref ∉ phase.victims := fun ref href => by simpa [htr] using victims_subset href
  refine ⟨by simp [htr], fun ref href => absurd href (hvc ref), by simpa [htr] using hnd, ?_⟩
  rintro _ _ _ _ rfl
  simp [targets] at htr

theorem PhaseOk.snapshot (h : t.Ok eviction) (hph : t.PhaseOk phase) (htr : phase.targets = victim :: victims)
    (hmr : ∀ ref ∈ (drop enforcing victim (t.mappedBlocks victim) victims).victims, ref ∈ phase.victims) :
    t.PhaseOk (.drop enforcing victim (t.mappedBlocks victim) victims) := by
  have hcr : ∀ ref ∈ victim :: victims, t.Current ref := htr ▸ hph.current
  refine ⟨hcr, fun ref href => hph.marked ref (hmr ref href), ?_, ?_⟩
  · have hnd := hph.nodup
    rw [htr] at hnd
    simpa [targets, unvisited] using hnd.of_append_left
  rintro _ _ _ _ ⟨⟩ blockHash hctx
  obtain ⟨number, hcur, hmp⟩ := h.indexed hctx
  rw [hcur.eq (hcr _ mem_cons_self) rfl] at hmp
  exact AList.mem_keys.1 hmp

theorem oldest_sublist (excess : Nat) (ages : List (Ref × Int)) :
    ∃ sorted, sorted.Perm (ages.map Prod.fst) ∧ (oldest excess ages).Sublist sorted :=
  ⟨_, (perm_insertionSort _ ages).map Prod.fst, (take_sublist excess _).map Prod.fst⟩

theorem PhaseOk.oldest {excess : Nat} {ages : List (Ref × Int)} (h : t.PhaseOk (.collect excess [] ages)) :
    t.PhaseOk (.next true (oldest excess ages)) := by
  obtain ⟨sorted, hpr, hsub⟩ := oldest_sublist excess ages
  refine ⟨fun ref href => h.current ref (hpr.mem_iff.1 (hsub.mem href)), by simp [victims], ?_, nofun⟩
  have hnd : ((ages.map Prod.fst).map Prod.fst).Nodup := by
    simpa [targets, unvisited] using h.nodup
  simpa [targets, unvisited] using (((hpr.map Prod.fst).nodup_iff.2 hnd).sublist (hsub.map Prod.fst))

theorem Ok.step {e : Eviction} (h : t.Ok (some e.phase)) (hlm : e.limitKeys.Nodup) :
    t.Evolves e.phase (e.step c t) := by
  obtain ⟨expiredBefore, limitKeys, expiryKeys, phase⟩ := e
  have hph := h.phase rfl
  cases phase with
  | scan keys candidates =>
    cases keys with
    | nil => exact .stay h ⟨hph.current, hph.marked, hph.nodup, nofun⟩ (fun _ => id) rfl
    | cons ctx keys =>
      have hsk : t.PhaseOk (.scan keys candidates) :=
        hph.sublist (fun _ => id) (fun _ => id) ((sublist_cons_self ctx keys).append_left _) nofun
      simp only [Eviction.step]
      split
      · exact .stay h hsk (fun _ => id) rfl
      rename_i number hlk
      split
      · refine .stay h ⟨?_, hph.marked, List.nodup_middle.1 hph.nodup, nofun⟩ (fun _ => id) rfl
        exact forall_mem_cons.2 ⟨hlk, hph.current⟩
      · exact .stay h hsk (fun _ => id) rfl
  | mark ref keys candidates =>
    refine ⟨h.mark (fun ref' href' => hph.current ref' ?_) (fun ref' => ?_) ?_ nofun, .mark ref, rfl⟩
    · simpa [targets, or_comm] using href'
    · simp [victims, or_comm]
    have hnd := hph.nodup
    simp only [targets, unvisited, map_cons, cons_append, map_append, map_nil,
      append_assoc, nil_append] at hnd ⊢
    exact List.nodup_middle.2 hnd
  | next enforcing victims =>
    cases victims with
    | nil => cases enforcing <;> exact .stay h (.of_empty rfl nodup_nil) (by simp [victims]) rfl
    | cons victim victims =>
      cases enforcing with
      | false => exact .stay h (.snapshot h hph rfl fun _ => id) (fun _ => id) rfl
      | true =>
        refine ⟨h.mark hph.current (by simp [Phase.victims]) hph.nodup nofun, .mark victim, rfl⟩
  | snapshot victim victims => exact .stay h (.snapshot h hph rfl fun _ => id) (fun _ => id) rfl
  | drop enforcing victim blockHashes victims =>
    cases blockHashes with
    | nil =>
      refine ⟨h.deleteContext, .deleteContext h, ?_⟩
      have hsz := KeyMap.size_erase_of_lookup (h.victim_marked.1 : t.contextMap.lookup victim.1 = some victim.2)
      simp only [Eviction.step, balance, elim_some, uncounted]
      omega
    | cons blockHash blockHashes => exact ⟨h.dropBlock, .of_marked rfl rfl fun _ => id, rfl⟩
  | count enforcing victims =>
    have hok : t.Ok (some (.next enforcing victims)) :=
      h.enterPhase ⟨hph.current, hph.marked, hph.nodup, nofun⟩ fun _ => id
    refine ⟨hok.frame rfl rfl rfl rfl, .of_marked rfl rfl fun _ => id, ?_⟩
    simp only [Eviction.step, balance, elim_some, uncounted]
    omega
  | limit =>
    simp only [Eviction.step]
    split
    · exact .stay h (.of_empty rfl hlm) (by simp [victims]) rfl
    · exact .stay h (.of_empty rfl nodup_nil) (by simp [victims]) rfl
  | collect excess keys ages =>
    cases keys with
    | nil => exact .stay h hph.oldest (by simp [victims]) rfl
    | cons ctx keys =>
      have hsk : t.PhaseOk (.collect excess keys ages) :=
        hph.sublist (fun _ => id) (fun _ => id) ((sublist_cons_self ctx keys).append_left _) nofun
      simp only [Eviction.step]
      split
      · exact .stay h hsk (fun _ => id) rfl
      rename_i number hlk
      split
      · exact .stay h hsk (fun _ => id) rfl
      have hnd := hph.nodup
      refine .stay h ⟨fun ref href => ?_, by simp [victims], ?_, nofun⟩ (by simp [victims]) rfl
      · simp only [targets, map_append, mem_append, map_cons, map_nil, mem_singleton] at href
        rcases href with href | rfl
        · exact hph.current ref href
        · exact hlk
      · simpa [targets, unvisited] using hnd
  | expiry keys batch =>
    have hem : ∀ {phase' : Phase}, phase'.targets = [] → phase'.unvisited = [] → phase'.uncounted = 0 →
        t.Evolves (.expiry keys batch) (t, some phase') := fun htr hun huc =>
      .stay h (.of_empty htr (hun ▸ nodup_nil)) (by simp [victims]) huc
    cases keys with
    | nil =>
      cases batch with
      | nil => exact ⟨h.finish rfl, .refl t, rfl⟩
      | cons => exact hem rfl rfl rfl
    | cons ctx keys =>
      simp only [Eviction.step]
      split
      · exact hem rfl rfl rfl
      · split_ifs <;> exact hem rfl rfl rfl
  | expire keys batch =>
    cases batch with
    | nil => exact .stay h (.of_empty rfl nodup_nil) (by simp [victims]) rfl
    | cons ref batch =>
      have hok : t.Ok (some (.expire keys batch)) :=
        h.enterPhase (.of_empty rfl nodup_nil) (by simp [victims])
      exact ⟨hok.put rfl rfl, .leave false (r := (_, [])) rfl, rfl⟩

end Table

end Aibrix.SyncHash
