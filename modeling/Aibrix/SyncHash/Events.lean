import Mathlib.Tactic.IntervalCases
import Aibrix.Lib.History
import Aibrix.SyncHash.IndexInvariant
import Mathlib.Data.List.Induction

/-! # The tiers on which a pod holds a prefix

A store is read as one tier set for every prefix and pod, empty for a pod that is not listed. -/

namespace Aibrix.SyncHash

open Lib KeyMap

/-! ## Slots -/

/-- A tier and a group have a bit of their own. -/
abbrev Slot := Tier × Nat

def slotOf (medium : String) (groupIdx : Int) : Slot := (tierOf medium, groupOf groupIdx)

def Slot.shift (slot : Slot) : Nat := slot.2 * numTiers + slot.1.index

theorem Tier.index_lt (tier : Tier) : tier.index < numTiers := by cases tier <;> decide

variable (medium : String) (groupIdx : Int)

theorem groupOf_lt : groupOf groupIdx < maxTrackedGroups := by
  unfold groupOf
  split
  · have hpos : (0 : Int) < maxTrackedGroups := by decide
    have hlt := Int.emod_lt_of_pos groupIdx hpos
    omega
  · decide

theorem Slot.shift_injective {slot slot' : Slot} (h : slot.shift = slot'.shift) : slot = slot' := by
  obtain ⟨tier, group⟩ := slot
  obtain ⟨tier', group'⟩ := slot'
  simp only [Slot.shift, numTiers] at h
  cases tier <;> cases tier' <;> simp only [Tier.index] at h <;> first | omega | (congr 1; omega)

theorem slotOf_shift_lt : (slotOf medium groupIdx).shift < 64 := by
  have hgr := groupOf_lt groupIdx
  have htr := (tierOf medium).index_lt
  simp only [slotOf, Slot.shift, numTiers, maxTrackedGroups] at *
  omega

theorem exists_slot {i : Nat} : ∃ slot : Slot, slot.shift = i := by
  have hlt : i % 4 < 4 := Nat.mod_lt _ (by decide)
  interval_cases hmod : i % 4
  · exact ⟨(.gpu, i / 4), by simp only [Slot.shift, numTiers, Tier.index]; omega⟩
  · exact ⟨(.cpu, i / 4), by simp only [Slot.shift, numTiers, Tier.index]; omega⟩
  · exact ⟨(.storage, i / 4), by simp only [Slot.shift, numTiers, Tier.index]; omega⟩
  · exact ⟨(.other, i / 4), by simp only [Slot.shift, numTiers, Tier.index]; omega⟩

theorem tierBit_eq : tierBit medium groupIdx = BitVec.twoPow 64 (slotOf medium groupIdx).shift := by
  rfl

theorem getLsbD_tierBit (slot : Slot) :
    (tierBit medium groupIdx).getLsbD slot.shift = decide (slot = slotOf medium groupIdx) := by
  rw [tierBit_eq]
  by_cases h : slot = slotOf medium groupIdx
  · simp [h, slotOf_shift_lt]
  · have hne : (slotOf medium groupIdx).shift ≠ slot.shift := fun heq => h (Slot.shift_injective heq).symm
    simp [h, hne]

theorem tierBit_ne_zero : tierBit medium groupIdx ≠ 0 := by
  intro h
  have hbit := getLsbD_tierBit medium groupIdx (slotOf medium groupIdx)
  simp [h] at hbit

theorem ne_zero_iff_slot {tiers : BitVec 64} : tiers ≠ 0 ↔ ∃ slot : Slot, tiers.getLsbD slot.shift = true := by
  constructor
  · intro hne
    by_contra hnn
    push Not at hnn
    refine hne (BitVec.eq_of_getLsbD_eq fun i _ => ?_)
    obtain ⟨slot, rfl⟩ := exists_slot (i := i)
    simp [hnn slot]
  · rintro ⟨slot, hsl⟩ rfl
    simp at hsl

/-! ## Pods of one prefix -/

def Pods.tiers (pods : Pods) (podName : String) : BitVec 64 := (pods.lookup podName).elim 0 PodInfo.tiers

namespace PrefixStore

variable {pods : Pods} {podName : String} {tier : BitVec 64}

variable (now : Int) (pre' : UInt64)

open Pods

theorem tiers_addPod (p : String) : tiers (addPod now pods podName tier) p =
      if p = podName then tiers pods p ||| tier else tiers pods p := by
  unfold addPod tiers
  rcases eq_or_ne p podName with rfl | hne
  · split <;> simp [*]
  · split <;> simp [AList.lookup_insert_ne hne, hne]

theorem tiers_clearTier (p : String) : tiers (clearTier podName tier pods) p =
      if p = podName then tiers pods p &&& ~~~tier else tiers pods p := by
  unfold clearTier tiers
  rcases eq_or_ne p podName with rfl | hne
  · split
    · split <;> simp_all
    · simp [*]
  split
  · split
    · simp [AList.lookup_erase_ne hne]
    · simp [AList.lookup_insert_ne hne]
  · simp [hne]

def Tiered (pods : Pods) : Prop := ∀ p info, pods.lookup p = some info → info.tiers ≠ 0

open PrefixStore

theorem Tiered.addPod (h : Tiered pods) (now : Int) (htr : tier ≠ 0) : Tiered (addPod now pods podName tier) := by
  have hor : ∀ tiers : BitVec 64, tiers ||| tier ≠ 0 := by
    intro tiers hzr
    exact htr (BitVec.or_eq_zero_iff.1 hzr).2
  intro p info hlk
  unfold PrefixStore.addPod at hlk
  split at hlk <;> rw [lookup_insert_eq] at hlk <;> split at hlk
  · cases hlk
    exact hor _
  · exact h p info hlk
  · cases hlk
    exact htr
  · exact h p info hlk

theorem Tiered.clearTier (h : Tiered pods) : Tiered (clearTier podName tier pods) := by
  intro p info hlk
  unfold PrefixStore.clearTier at hlk
  split at hlk
  · split at hlk
    · rw [lookup_erase_eq] at hlk
      split at hlk
      · cases hlk
      · exact h p info hlk
    rw [lookup_insert_eq] at hlk
    split at hlk
    · cases hlk
      assumption
    · exact h p info hlk
  · exact h p info hlk

theorem addPod_ne_nil : (addPod now pods podName tier).entries ≠ [] := by
  unfold addPod
  split <;> simp [AList.entries_insert]

/-! ## The whole store -/

variable {store : PrefixStore} {prefixHash : UInt64}

def holders (store : PrefixStore) (prefixHash : UInt64) : Pods := (store.prefixMap.lookup prefixHash).getD ∅

structure Ok (store : PrefixStore) : Prop where
  held : ∀ {prefixHash pods}, store.prefixMap.lookup prefixHash = some pods → pods.entries ≠ []
  tiered : ∀ prefixHash, Tiered (store.holders prefixHash)
  total : store.totalPrefixes = KeyMap.size store.prefixMap

theorem holders_insert {total : Int} {lastAccess : Int} :
    holders ⟨store.prefixMap.insert pre' pods, lastAccess, total⟩ prefixHash =
      if prefixHash = pre' then pods else store.holders prefixHash := by
  simp only [holders, lookup_insert_eq]
  split <;> rfl

theorem holders_addPrefixToPodLocked : (addPrefixToPodLocked now podName tier store pre').holders prefixHash =
      if prefixHash = pre' then addPod now (store.holders pre') podName tier else store.holders prefixHash := by
  unfold addPrefixToPodLocked
  split
  · rename_i pods hlk
    have hpd : store.holders pre' = pods := by rw [holders, hlk, Option.getD_some]
    rw [holders_insert, hpd]
  · rename_i hlk
    have hpd : store.holders pre' = ∅ := by rw [holders, hlk, Option.getD_none]
    rw [holders_insert, hpd]

theorem holders_releasePrefix (hpod : podName ≠ "") : (store.releasePrefix podName tier pre').1.holders prefixHash =
      if prefixHash = pre' then clearTier podName tier (store.holders pre') else store.holders prefixHash := by
  unfold releasePrefix
  split
  · rename_i hlk
    split
    · subst pre'
      simp [holders, hlk, clearTier]
    · rfl
  rename_i pods hlk
  have hpd : store.holders pre' = pods := by rw [holders, hlk, Option.getD_some]
  rw [hpd]
  split
  · exact holders_insert pre'
  rename_i hem
  have hnil : (clearTier podName tier pods).entries = [] := by simpa [hpod] using hem
  simp only [holders, lookup_erase_eq]
  split
  · exact AList.ext hnil.symm
  · rfl

theorem Ok.empty (lastAccess : Int) : ({ lastAccess } : PrefixStore).Ok :=
  ⟨by simp, fun prefixHash => by simp [Tiered, holders], rfl⟩

section

variable (h : store.Ok)
include h

theorem Ok.touch (lastAccess : Int) : ({ store with lastAccess } : PrefixStore).Ok :=
  ⟨h.held, h.tiered, h.total⟩

theorem Ok.addPrefixToPodLocked (now : Int) (pre : UInt64) (htr : tier ≠ 0) :
    (addPrefixToPodLocked now podName tier store pre).Ok := by
  refine ⟨fun {pre'} pods' hlk => ?_, fun pre' => ?_, ?_⟩
  · unfold PrefixStore.addPrefixToPodLocked at hlk
    split at hlk <;> simp only [lookup_insert_eq] at hlk <;> split at hlk
    · cases hlk
      exact addPod_ne_nil now
    · exact h.held hlk
    · cases hlk
      exact addPod_ne_nil now
    · exact h.held hlk
  · rw [holders_addPrefixToPodLocked]
    split
    · exact (h.tiered pre).addPod now htr
    · exact h.tiered pre'
  · unfold PrefixStore.addPrefixToPodLocked
    split <;> rename_i hlk
    · rw [size_insert_of_lookup _ hlk]
      exact h.total
    · rw [size_insert_of_lookup_eq_none _ hlk, h.total]
      rfl

theorem Ok.releasePrefix (tier : BitVec 64) (pre : UInt64) (hpod : podName ≠ "") :
    (store.releasePrefix podName tier pre).1.Ok := by
  refine ⟨fun {pre'} pods' hlk => ?_, fun pre' => ?_, ?_⟩
  · unfold PrefixStore.releasePrefix at hlk
    split at hlk
    · exact h.held hlk
    split at hlk
    · rename_i hkp
      simp only [lookup_insert_eq] at hlk
      split at hlk
      · cases hlk
        exact hkp.2
      · exact h.held hlk
    · simp only [lookup_erase_eq] at hlk
      split at hlk
      · cases hlk
      · exact h.held hlk
  · rw [holders_releasePrefix pre hpod]
    split
    · exact (h.tiered pre).clearTier
    · exact h.tiered pre'
  · unfold PrefixStore.releasePrefix
    split
    · exact h.total
    rename_i hlk
    split
    · rw [size_insert_of_lookup _ hlk]
      exact h.total
    have hsz := size_erase_of_lookup hlk
    have htt := h.total
    dsimp only
    omega

/-- Every prefix in the map has a pod, so counting the prefixes with a pod counts them all. -/
theorem Ok.total_eq :
    store.totalPrefixes = (store.prefixMap.entries.filter fun e => e.2.entries ≠ []).length := by
  have hall : (store.prefixMap.entries.filter fun e => e.2.entries ≠ []) = store.prefixMap.entries := by
    refine List.filter_eq_self.2 fun e he => ?_
    simpa using h.held (AList.mem_lookup_iff.2 he)
  rw [hall]
  exact h.total

def tiers (store : PrefixStore) (prefixHash : UInt64) (podName : String) : BitVec 64 :=
  Pods.tiers (store.holders prefixHash) podName

theorem Ok.tiers_ne_zero :
    store.tiers prefixHash podName ≠ 0 ↔ ∃ info, (store.holders prefixHash).lookup podName = some info := by
  unfold tiers Pods.tiers
  cases hlk : (store.holders prefixHash).lookup podName with
  | none => simp
  | some info => simpa using h.tiered prefixHash podName info hlk

end

theorem foldl_addPrefixToPodLocked (podName : String) (htr : tier ≠ 0) (updates : List UInt64) (h : store.Ok) :
    let r := updates.foldl (addPrefixToPodLocked now podName tier) store
    r.Ok ∧ ∀ prefixHash p, r.tiers prefixHash p =
    if prefixHash ∈ updates ∧ p = podName then store.tiers prefixHash p ||| tier else store.tiers prefixHash p := by
  induction updates generalizing store with
  | nil => exact ⟨h, by simp⟩
  | cons update updates ih =>
    obtain ⟨hok, hts⟩ := ih (h.addPrefixToPodLocked now update htr)
    refine ⟨hok, fun prefixHash p => ?_⟩
    rw [List.foldl_cons, hts]
    have hfr : (addPrefixToPodLocked now podName tier store update).tiers prefixHash p =
        if prefixHash = update ∧ p = podName then store.tiers prefixHash p ||| tier
        else store.tiers prefixHash p := by
      simp only [tiers, holders_addPrefixToPodLocked]
      split <;> simp_all [tiers_addPod]
    rw [hfr]
    split_ifs <;> simp_all [BitVec.or_assoc]

end PrefixStore

/-! ## What a fresh table says after a sequence of KV events -/

open List Option ContextData

variable {c : Config}

/-! ## One context -/

namespace ContextData

open PrefixStore

variable {d : ContextData}

variable {prefixHash : UInt64}

theorem lookup_indexBlocks_of_lookup {blocks : List (Int × List UInt8)} {parentHash : UInt64}
    {mapping : KeyMap Int UInt64} {hash : Int} (h : mapping.lookup hash = some prefixHash) :
    (indexBlocks c blocks parentHash mapping).mapping.lookup hash = some prefixHash := by
  induction blocks generalizing parentHash mapping with
  | nil => exact h
  | cons block blocks ih =>
    unfold indexBlocks
    split
    · exact ih h
    rename_i hnn
    refine ih ((AList.lookup_insert_ne ?_).trans h)
    rintro rfl
    rw [h] at hnn
    cases hnn

theorem updates_indexBlocks (blocks : List (Int × List UInt8)) (parentHash : UInt64) (mapping : KeyMap Int UInt64) :
    let r := indexBlocks c blocks parentHash mapping
    r.updates.map some = blocks.map fun block => r.mapping.lookup block.1 := by
  induction blocks generalizing parentHash mapping with
  | nil => rfl
  | cons block blocks ih =>
    unfold indexBlocks
    split
    · rename_i existingHash hlk
      simp only [map_cons]
      rw [ih, lookup_indexBlocks_of_lookup hlk]
    · simp only [map_cons]
      rw [ih, lookup_indexBlocks_of_lookup (AList.lookup_insert _)]

theorem mem_updates_indexBlocks {blockHashes : List Int} {tokens : List (List UInt8)} {parentHash : UInt64}
    {mapping : KeyMap Int UInt64} (hln : blockHashes.length = tokens.length) :
    let r := indexBlocks c (blockHashes.zip tokens) parentHash mapping
    prefixHash ∈ r.updates ↔ ∃ blockHash ∈ blockHashes, r.mapping.lookup blockHash = some prefixHash := by
  set pairs := blockHashes.zip tokens
  intro r
  have hmap := updates_indexBlocks (c := c) pairs parentHash mapping
  have hsm : prefixHash ∈ (indexBlocks c pairs parentHash mapping).updates ↔
      some prefixHash ∈ (indexBlocks c pairs parentHash mapping).updates.map some := by simp
  rw [hsm, hmap, List.mem_map]
  have hfst : pairs.map Prod.fst = blockHashes := List.map_fst_zip hln.le
  constructor
  · rintro ⟨block, hmem, hlk⟩
    exact ⟨block.1, hfst ▸ mem_map_of_mem hmem, hlk⟩
  rintro ⟨blockHash, hmem, hlk⟩
  rw [← hfst] at hmem
  obtain ⟨block, hbl, rfl⟩ := mem_map.1 hmem
  exact ⟨block, hbl, hlk⟩

theorem parentHash_learnBlockSize (event : BlockStored) :
    (d.learnBlockSize event).parentHash c event = d.parentHash c event := by
  unfold parentHash
  rw [learnBlockSize_engineToAibrix]

theorem tiers_storeBlocks (now : Int) {event : BlockStored} (hmr : d.markedForEviction = false)
    (hln : event.blockHashes.length = event.tokens.length) (hok : d.prefixStore.Ok) :
    let r := d.storeBlocks c now event
    r.1.prefixStore.Ok ∧ ∀ prefixHash p, r.1.prefixStore.tiers prefixHash p = if (d.parentHash c event ≠ none ∧
      ∃ blockHash ∈ event.blockHashes, r.1.engineToAibrix.lookup blockHash = some prefixHash) ∧ p =
      event.sourcePod then d.prefixStore.tiers prefixHash p ||| tierBit event.medium event.groupIdx else
      d.prefixStore.tiers prefixHash p := by
  simp only [storeBlocks, hmr, Bool.false_eq_true, if_false, parentHash_learnBlockSize]
  cases hpr : d.parentHash c event with
  | none => simpa using hok
  | some parent =>
    simp only [learnBlockSize_prefixStore, learnBlockSize_engineToAibrix]
    obtain ⟨hok', htr⟩ := foldl_addPrefixToPodLocked now event.sourcePod (tierBit_ne_zero event.medium event.groupIdx)
      (indexBlocks c _ parent d.engineToAibrix).updates hok
    refine ⟨hok'.touch now, fun prefixHash p => ?_⟩
    apply (htr prefixHash p).trans
    simp [mem_updates_indexBlocks hln]

theorem mem_resolve {hashes : List Int} {block : Int} : (block, prefixHash) ∈ d.resolve hashes ↔
      block ∈ hashes ∧ d.engineToAibrix.lookup block = some prefixHash := by
  simp only [resolve, mem_filterMap, map_eq_some_iff, Prod.mk.injEq]
  constructor
  · rintro ⟨_, hmem, _, hlk, rfl, rfl⟩
    exact ⟨hmem, hlk⟩
  · rintro ⟨hmem, hlk⟩
    exact ⟨block, hmem, prefixHash, hlk, rfl, rfl⟩

theorem releasePrefixes_spec {sourcePod : String} (tier : BitVec 64) (named : List (Int × UInt64))
    (prefixes : List UInt64) {store : PrefixStore} (hpod : sourcePod ≠ "") (hok : store.Ok) :
    let r := releasePrefixes sourcePod tier named prefixes store
    r.1.Ok ∧ ∀ prefixHash p, r.1.tiers prefixHash p =
    if prefixHash ∈ prefixes ∧ p = sourcePod then store.tiers prefixHash p &&& ~~~tier
    else store.tiers prefixHash p := by
  induction prefixes generalizing store with
  | nil => exact ⟨hok, by simp [releasePrefixes]⟩
  | cons first prefixes ih =>
    obtain ⟨hok', htr⟩ := ih (hok.releasePrefix tier first hpod)
    refine ⟨hok', fun prefixHash p => ?_⟩
    simp only [releasePrefixes, htr]
    have hfr : (store.releasePrefix sourcePod tier first).1.tiers prefixHash p =
        if prefixHash = first ∧ p = sourcePod then store.tiers prefixHash p &&& ~~~tier
        else store.tiers prefixHash p := by
      simp only [tiers, holders_releasePrefix first hpod]
      split <;> simp_all [tiers_clearTier]
    rw [hfr]
    split_ifs <;> simp_all [BitVec.and_assoc]

theorem tiers_removeBlocks (now : Int) (hashes : List Int) {event : BlockRemoved} (hpod : event.sourcePod ≠ "")
    (hok : d.prefixStore.Ok) :
    let r := d.removeBlocks now hashes event
    r.1.prefixStore.Ok ∧ ∀ prefixHash p, r.1.prefixStore.tiers prefixHash p = if (∃ blockHash ∈ hashes,
      d.engineToAibrix.lookup blockHash = some prefixHash) ∧ p = event.sourcePod then d.prefixStore.tiers
      prefixHash p &&& ~~~tierBit event.medium event.groupIdx else d.prefixStore.tiers prefixHash p := by
  have hnm : ∀ prefixHash, prefixHash ∈ ((d.resolve hashes).map Prod.snd).dedup ↔
      ∃ blockHash ∈ hashes, d.engineToAibrix.lookup blockHash = some prefixHash := by
    intro prefixHash
    simp [mem_resolve]
  simp only [removeBlocks, ← hnm]
  split
  · rename_i hnn
    simpa [hnn] using hok
  · obtain ⟨hok', htr⟩ := releasePrefixes_spec _ _
      ((d.resolve hashes).map Prod.snd).dedup hpod hok
    exact ⟨hok'.touch now, htr⟩

end ContextData

/-! ## The table -/

namespace Table

variable {t : Table} {ctx : ModelContext} {number : Nat}

def tiers (t : Table) (ctx : ModelContext) (prefixHash : UInt64) (podName : String) : BitVec 64 :=
  (t.context? ctx).elim 0 fun d => d.prefixStore.tiers prefixHash podName

def podInfo? (t : Table) (ctx : ModelContext) (prefixHash : UInt64) (podName : String) : Option PodInfo :=
  (t.context? ctx).bind fun d => (d.prefixStore.holders prefixHash).lookup podName

def aibrixHash? (t : Table) (ctx : ModelContext) (blockHash : Int) : Option UInt64 :=
  (t.context? ctx).bind fun d => d.engineToAibrix.lookup blockHash

structure Settled (t : Table) : Prop where
  index : t.Ok none
  stores : ∀ {ctx d}, t.context? ctx = some d → d.prefixStore.Ok

theorem context?_of_current (h : t.Current (ctx, number)) : t.context? ctx = some (t.data ctx number) := by
  have hlk : t.contextMap.lookup ctx = some number := h
  rw [context?, hlk, map_some]

theorem Settled.not_marked (h : t.Settled) (hcur : t.Current (ctx, number)) :
    (t.data ctx number).markedForEviction = false := by
  by_contra hmr
  obtain ⟨_, hnn, _⟩ := h.index.marked hcur (by simpa [Marked, get] using hmr)
  cases hnn

theorem context?_leave (hcur : t.Current (ctx, number)) (add : Bool) (r : ContextData × List Int) (ctx' : ModelContext) :
    (t.leave ctx number add r).context? ctx' = if ctx' = ctx then some r.1 else t.context? ctx' := by
  have hlk : t.contextMap.lookup ctx = some number := hcur
  unfold context? leave setData
  split
  · subst ctx'
    simp [hlk]
  · rename_i hne
    simp [Function.update_of_ne hne]

theorem context?_create (now : Int) (ctx' : ModelContext) : (t.create now ctx).context? ctx' =
      if ctx' = ctx then some { prefixStore := { lastAccess := now } } else t.context? ctx' := by
  unfold context? create setData
  rw [KeyMap.lookup_insert_eq]
  split
  · subst ctx'
    simp
  · rename_i hne
    simp [Function.update_of_ne hne]

theorem getOrCreateContextData_spec (h : t.Settled) (now : Int) (ctx : ModelContext) :
    let r := t.getOrCreateContextData c now ctx
    r.1.Settled ∧
    r.1.Current (ctx, r.2) ∧
    (∀ ctx', r.1.tiers ctx' = t.tiers ctx') ∧
    (∀ ctx', r.1.podInfo? ctx' = t.podInfo? ctx') ∧
    ∀ ctx', r.1.aibrixHash? ctx' = t.aibrixHash? ctx' := by
  unfold getOrCreateContextData
  split
  · rename_i number hlk
    exact ⟨h, hlk, fun _ => rfl, fun _ => rfl, fun _ => rfl⟩
  rename_i hnn
  have hcn : ∀ ctx', ((t.create now ctx).countContext c).context? ctx' =
      if ctx' = ctx then some { prefixStore := { lastAccess := now } } else t.context? ctx' := context?_create now
  have hab : t.context? ctx = none := by rw [context?, hnn, map_none]
  refine ⟨⟨(h.index.create now hnn).frame rfl rfl rfl rfl, fun {ctx' d} hd => ?_⟩, ?_, fun ctx' => ?_,
    fun ctx' => ?_, fun ctx' => ?_⟩
  · rw [hcn] at hd
    split at hd
    · cases hd
      exact .empty now
    · exact h.stores hd
  · exact AList.lookup_insert _
  · funext prefixHash p
    rw [tiers, tiers, hcn]
    split
    · subst ctx'
      rw [hab]
      simp [PrefixStore.tiers, Pods.tiers, PrefixStore.holders]
    · rfl
  · funext prefixHash p
    rw [podInfo?, podInfo?, hcn]
    split
    · subst ctx'
      rw [hab]
      simp [PrefixStore.holders]
    · rfl
  · funext blockHash
    rw [aibrixHash?, aibrixHash?, hcn]
    split
    · subst ctx'
      rw [hab]
      simp
    · rfl

theorem Settled.mem_blockIndex (h : t.Settled) {block : Int} :
    ctx ∈ t.blockIndex block ↔ ∃ prefixHash, t.aibrixHash? ctx block = some prefixHash := by
  constructor
  · intro hctx
    obtain ⟨number, hcur, hmp⟩ := h.index.indexed hctx
    rw [aibrixHash?, context?_of_current hcur]
    exact KeyMap.mem_iff_lookup.1 hmp
  rintro ⟨prefixHash, hhs⟩
  obtain ⟨d, hd, hlk⟩ := bind_eq_some_iff.1 hhs
  obtain ⟨number, hcur, rfl⟩ := map_eq_some_iff.1 hd
  have hcur' : t.Current (ctx, number) := hcur
  refine h.index.mapped hcur' (fun hmr => ?_) (KeyMap.mem_iff_lookup.2 ⟨prefixHash, hlk⟩)
  rw [Marked, get, h.not_marked hcur'] at hmr
  cases hmr

section

variable (now : Int) {event : BlockRemoved}

theorem Settled.removeBlocksFromContext (h : t.Settled) (hpod : event.sourcePod ≠ "") (ctx : ModelContext)
    (hashes : List Int) :
    let r := t.removeBlocksFromContext now event ctx hashes
    r.Settled ∧ ∀ ctx', r.context? ctx' = if ctx' = ctx then (t.context? ctx).map fun d => (d.removeBlocks now
      hashes event).1 else t.context? ctx' := by
  unfold Table.removeBlocksFromContext
  split
  · rename_i hnn
    refine ⟨h, fun ctx' => ?_⟩
    split
    · subst ctx'
      simp [context?, hnn]
    · rfl
  rename_i number hlk
  have hcur : t.Current (ctx, number) := hlk
  have hcn := context?_leave hcur false ((t.data ctx number).removeBlocks now hashes event)
  rw [if_neg (by simp [h.not_marked hcur])]
  refine ⟨⟨?_, fun {ctx' d} hd => ?_⟩, fun ctx' => ?_⟩
  · change (t.leave (ctx, number).1 (ctx, number).2 false _).Ok none
    refine h.index.leave_drop (removeBlocks_markedForEviction now hashes event)
      (fun _ => mem_removeBlocks now hashes event) fun {number'} hcur' hne => ?_
    exact absurd (hcur'.unique hcur) hne
  · rw [hcn] at hd
    split at hd
    · cases hd
      exact (tiers_removeBlocks now hashes hpod (h.stores (context?_of_current hcur))).1
    · exact h.stores hd
  · rw [hcn, context?_of_current hcur, map_some]

theorem Settled.foldl_removeBlocksFromContext (h : t.Settled) (hpod : event.sourcePod ≠ "")
    (named : ModelContext → List Int) {contexts : List ModelContext} (hnd : contexts.Nodup) :
    let r := contexts.foldl (fun t' ctx => t'.removeBlocksFromContext now event ctx (named ctx)) t
    r.Settled ∧ ∀ ctx, r.context? ctx =
    if ctx ∈ contexts then (t.context? ctx).map fun d => (d.removeBlocks now (named ctx) event).1
    else t.context? ctx := by
  induction contexts generalizing t with
  | nil => exact ⟨h, by simp⟩
  | cons first contexts ih =>
    obtain ⟨hfr, hnd⟩ := nodup_cons.1 hnd
    obtain ⟨hst, hcn⟩ := h.removeBlocksFromContext now hpod first (named first)
    obtain ⟨hst', hcn'⟩ := ih hst hnd
    refine ⟨hst', fun ctx => ?_⟩
    rw [foldl_cons, hcn', hcn]
    by_cases hctx : ctx = first
    · subst ctx
      simp [hfr]
    · simp [hctx]

theorem mem_namedIn {blockHash : Int} :
    blockHash ∈ t.namedIn event ctx ↔ blockHash ∈ event.blockHashes ∧ ctx ∈ t.blockIndex blockHash := by
  simp only [namedIn, List.mem_flatMap, List.mem_map, List.mem_filter, decide_eq_true_eq]
  constructor
  · rintro ⟨blockHash', hmem, ctx', ⟨hctx, rfl⟩, rfl⟩
    exact ⟨hmem, hctx⟩
  · rintro ⟨hmem, hctx⟩
    exact ⟨blockHash, hmem, ctx, ⟨hctx, rfl⟩, rfl⟩

theorem mem_affected : ctx ∈ t.affected event ↔ ctx.modelName = event.modelName ∧ ∃ blockHash ∈ event.blockHashes,
      ctx ∈ t.blockIndex blockHash := by
  simp only [affected, mem_dedup, mem_filter, mem_flatMap, decide_eq_true_eq]
  exact and_comm

theorem Settled.processBlockRemoved (h : t.Settled) (hpod : event.sourcePod ≠ "") {contexts : List ModelContext}
    (hcn : contexts.Perm (t.affected event)) :
    let r := t.processBlockRemoved now contexts event
    r.Settled ∧ ∀ ctx prefixHash p, r.tiers ctx prefixHash p = if (ctx.modelName = event.modelName ∧ ∃ blockHash
      ∈ event.blockHashes, t.aibrixHash? ctx blockHash = some prefixHash) ∧ p = event.sourcePod then t.tiers ctx
      prefixHash p &&& ~~~tierBit event.medium event.groupIdx else t.tiers ctx prefixHash p := by
  obtain ⟨hst, hct⟩ := h.foldl_removeBlocksFromContext now hpod (t.namedIn event) (hcn.nodup_iff.2 (nodup_dedup _))
  refine ⟨hst, fun ctx prefixHash p => ?_⟩
  rw [tiers, Table.processBlockRemoved, hct ctx, tiers]
  cases hd : t.context? ctx with
  | none => simp [aibrixHash?, hd]
  | some d =>
    have hhs : ∀ blockHash, t.aibrixHash? ctx blockHash = d.engineToAibrix.lookup blockHash := fun blockHash => by
      rw [aibrixHash?, hd, bind_some]
    -- The index has the context under every block that the context maps.
    have hnm : ∀ blockHash, (blockHash ∈ event.blockHashes ∧ d.engineToAibrix.lookup blockHash = some prefixHash) →
        ctx ∈ t.blockIndex blockHash := fun blockHash hlk => h.mem_blockIndex.2 ⟨prefixHash, (hhs _).trans hlk.2⟩
    simp only [hhs]
    split
    · rename_i hctx
      obtain ⟨hmd, _⟩ := mem_affected.1 (hcn.mem_iff.1 hctx)
      have hsm : (∃ blockHash ∈ t.namedIn event ctx, d.engineToAibrix.lookup blockHash = some prefixHash) ↔
          ctx.modelName = event.modelName ∧ ∃ blockHash ∈ event.blockHashes,
            d.engineToAibrix.lookup blockHash = some prefixHash := by
        simp only [mem_namedIn, hmd, true_and]
        exact exists_congr fun blockHash => ⟨fun hlk => ⟨hlk.1.1, hlk.2⟩,
          fun hlk => ⟨⟨hlk.1, hnm blockHash hlk⟩, hlk.2⟩⟩
      rw [map_some, elim_some, (d.tiers_removeBlocks now _ hpod (h.stores hd)).2, elim_some]
      simp [hsm]
    · rename_i hctx
      have hnot : ¬ (ctx.modelName = event.modelName ∧ ∃ blockHash ∈ event.blockHashes,
          d.engineToAibrix.lookup blockHash = some prefixHash) := by
        rintro ⟨hmd, blockHash, hlk⟩
        exact hctx (hcn.mem_iff.2 (mem_affected.2 ⟨hmd, blockHash, hlk.1, hnm blockHash hlk⟩))
      simp [hnot]

end

/-! ## Stores -/

def knownParent (t : Table) (ctx : ModelContext) (event : BlockStored) : Bool :=
  event.parentBlockHash.all fun parent => (t.aibrixHash? ctx parent).isSome

variable {event : BlockStored}

theorem parentHash_ne_none (hcur : t.Current (ctx, number)) :
    (t.data ctx number).parentHash c event ≠ none ↔ t.knownParent ctx event = true := by
  rw [parentHash, knownParent]
  cases event.parentBlockHash with
  | none => simp
  | some parent => simp [aibrixHash?, context?_of_current hcur, isSome_iff_ne_none]

variable (h : t.Settled)
include h

theorem Settled.leave_storeBlocks (now : Int) (hcur : t.Current (ctx, number))
    (hln : event.blockHashes.length = event.tokens.length) :
    (t.leave ctx number true ((t.data ctx number).storeBlocks c now event)).Settled := by
  refine ⟨?_, fun {ctx' d} hd => ?_⟩
  · refine h.index.leave_add (.inl hcur) (storeBlocks_markedForEviction now event) (fun hmr => ?_)
      fun _ => mem_storeBlocks now event
    exact congrArg Prod.snd (storeBlocks_of_marked now event hmr)
  rw [context?_leave hcur] at hd
  split at hd
  · cases hd
    exact (tiers_storeBlocks now (h.not_marked hcur) hln (h.stores (context?_of_current hcur))).1
  · exact h.stores hd

theorem processBlockStored_cases (now : Int) (event : BlockStored) :
    ((event.blockHashes = [] ∨ event.blockHashes.length ≠ event.tokens.length) ∧
      (t.processBlockStored c now event).1 = t) ∨
    event.blockHashes.length = event.tokens.length ∧ ∃ (t' : Table) (number : Nat), t'.Settled ∧
      t'.Current (storedContext c event, number) ∧ t'.tiers = t.tiers ∧ t'.podInfo? = t.podInfo? ∧
      t'.aibrixHash? = t.aibrixHash? ∧
      (t.processBlockStored c now event).1 = t'.leave (storedContext c event) number true
        ((t'.data (storedContext c event) number).storeBlocks c now event) := by
  unfold Table.processBlockStored
  split
  · exact .inl ⟨.inl ‹_›, rfl⟩
  split <;> rename_i hrf
  · refine .inl ⟨.inr fun hln => ?_, rfl⟩
    simp [refused, hln] at hrf
  refine .inr ⟨?_, ?_⟩
  · by_contra hln
    simp [refused, hln] at hrf
  · obtain ⟨hst, hcur, htr, hin, hhs⟩ := getOrCreateContextData_spec (c := c) h now _
    exact ⟨_, _, hst, hcur, funext htr, funext hin, funext hhs, rfl⟩

theorem Settled.processBlockStored (now : Int) (event : BlockStored) :
    let r := t.processBlockStored c now event
    r.1.Settled ∧ ∀ ctx prefixHash p, r.1.tiers ctx prefixHash p =
    if (event.blockHashes.length = event.tokens.length ∧ ctx = storedContext c event ∧
    t.knownParent ctx event = true ∧ ∃ blockHash ∈ event.blockHashes,
    r.1.aibrixHash? ctx blockHash = some prefixHash) ∧ p = event.sourcePod
    then t.tiers ctx prefixHash p ||| tierBit event.medium event.groupIdx else t.tiers ctx prefixHash p := by
  intro r
  rcases processBlockStored_cases (c := c) h now event with
    ⟨hsk, hrs⟩ | ⟨hln, t', number, hst, hcur, htr, -, hhs, hrs⟩
  · rw [hrs]
    refine ⟨h, fun ctx prefixHash p => (if_neg ?_).symm⟩
    rintro ⟨⟨hln, -, -, blockHash, hmem, -⟩, -⟩
    rcases hsk with hnil | hne
    · simp [hnil] at hmem
    · exact hne hln
  have hpr : t.knownParent = t'.knownParent := by
    funext ctx event
    rw [knownParent, knownParent, hhs]
  rw [hrs, ← htr, hpr]
  refine ⟨hst.leave_storeBlocks now hcur hln, fun ctx prefixHash p => ?_⟩
  simp only [tiers, aibrixHash?, context?_leave hcur]
  split
  · subst ctx
    rw [elim_some, (tiers_storeBlocks now (hst.not_marked hcur) hln
      (hst.stores (context?_of_current hcur))).2, context?_of_current hcur]
    simp [parentHash_ne_none hcur, hln]
  · simp [*]

theorem podInfo?_of_unknown_parent (now : Int)
    (hpr : t.knownParent (storedContext c event) event = false) :
    (t.processBlockStored c now event).1.podInfo? = t.podInfo? := by
  rcases processBlockStored_cases (c := c) h now event with
    ⟨-, hrs⟩ | ⟨-, t', number, hst, hcur, -, hin, hhs, hrs⟩
  · rw [hrs]
  have hnn : (t'.data (storedContext c event) number).parentHash c event = none := by
    by_contra hne
    rw [← ne_eq, parentHash_ne_none hcur, knownParent, hhs] at hne
    exact absurd (hne.symm.trans hpr) (by decide)
  rw [hrs, ← hin]
  funext ctx prefixHash p
  rw [podInfo?, podInfo?, context?_leave hcur]
  split
  · subst ctx
    rw [context?_of_current hcur]
    simp [storeBlocks, hst.not_marked hcur, parentHash_learnBlockSize, hnn]
  · rfl

end Table

/-! ## The events that decide who is listed, tier by tier -/

open Table

inductive Event where
  | stored (now : Int) (event : BlockStored)
  | removed (now : Int) (event : BlockRemoved) (contexts : List ModelContext)

namespace Event

def sourcePod : Event → String
  | .stored _ event => event.sourcePod
  | .removed _ event _ => event.sourcePod

def slot : Event → Slot
  | .stored _ event => slotOf event.medium event.groupIdx
  | .removed _ event _ => slotOf event.medium event.groupIdx

def isStore : Event → Bool
  | .stored .. => true
  | .removed .. => false

def process (c : Config) (t : Table) : Event → Table
  | .stored now event => (t.processBlockStored c now event).1
  | .removed now event contexts => t.processBlockRemoved now contexts event

def Visits (t : Table) : Event → Prop
  | .stored .. => True
  | .removed _ event contexts => contexts.Perm (t.affected event)

def Names (c : Config) (t : Table) (ctx : ModelContext) (prefixHash : UInt64) : Event → Prop
  | .stored now event => event.blockHashes.length = event.tokens.length ∧ ctx = Table.storedContext c event ∧
    t.knownParent ctx event = true ∧ ∃ blockHash ∈ event.blockHashes,
      (t.processBlockStored c now event).1.aibrixHash? ctx blockHash = some prefixHash
  | .removed _ event _ => ctx.modelName = event.modelName ∧ ∃ blockHash ∈ event.blockHashes,
    t.aibrixHash? ctx blockHash = some prefixHash

end Event

def run (c : Config) (events : List Event) : Table := events.foldl (Event.process c) {}

def Orderly (c : Config) : Table → List Event → Prop
  | _, [] => True
  | t, e :: events => e.Visits t ∧ Orderly c (e.process c t) events

instance (t : Table) (e : Event) : Decidable (e.Visits t) := by
  cases e <;> unfold Event.Visits <;> infer_instance

instance (t : Table) (events : List Event) : Decidable (Orderly c t events) := by
  induction events generalizing t with
  | nil => exact isTrue trivial
  | cons e events ih =>
    unfold Orderly
    have := ih (e.process c t)
    infer_instance

/-- The last event of the pod that named the prefix, with the tier and the group of the slot, was a store. -/
def LastIsStore (c : Config) (ctx : ModelContext) (prefixHash : UInt64) (podName : String) (slot : Slot)
    (events : List Event) : Prop :=
  LastIs (fun before e => e.Names c (run c before) ctx prefixHash ∧ e.sourcePod = podName ∧ e.slot = slot)
    (fun e => e.isStore = true) events

variable {t : Table} {ctx : ModelContext} {prefixHash : UInt64} {podName : String} {slot : Slot}

theorem getLsbD_and_not_tierBit (tiers : BitVec 64) (medium : String) (groupIdx : Int) :
    (tiers &&& ~~~tierBit medium groupIdx).getLsbD slot.shift =
      (tiers.getLsbD slot.shift && !decide (slot = slotOf medium groupIdx)) := by
  rw [BitVec.getLsbD_and, BitVec.getLsbD_not, getLsbD_tierBit]
  by_cases hlt : slot.shift < 64
  · simp [hlt]
  · simp [hlt, BitVec.getLsbD_of_ge tiers _ (not_lt.1 hlt)]

/-- An event that names the prefix decides its own bit of its own pod, and no other event touches the bit. -/
theorem Event.process_spec (e : Event) (h : t.Settled) (hpod : e.sourcePod ≠ "") (hvs : e.Visits t) :
    (e.process c t).Settled ∧ ∀ ctx prefixHash podName slot,
      (e.Names c t ctx prefixHash ∧ e.sourcePod = podName ∧ e.slot = slot →
        ((e.process c t).tiers ctx prefixHash podName).getLsbD slot.shift = e.isStore) ∧
      (¬ (e.Names c t ctx prefixHash ∧ e.sourcePod = podName ∧ e.slot = slot) →
        ((e.process c t).tiers ctx prefixHash podName).getLsbD slot.shift =
          (t.tiers ctx prefixHash podName).getLsbD slot.shift) := by
  cases e with
  | stored now event =>
    obtain ⟨hst, htr⟩ := h.processBlockStored (c := c) now event
    refine ⟨hst, fun ctx prefixHash podName slot => ⟨?_, fun hnot => ?_⟩⟩
    · rintro ⟨hns, rfl, rfl⟩
      rw [Event.process, htr, if_pos ⟨hns, rfl⟩, BitVec.getLsbD_or, getLsbD_tierBit]
      simp [Event.slot, Event.isStore]
    rw [Event.process, htr]
    split
    · rename_i hnm
      have hsl : slot ≠ slotOf event.medium event.groupIdx := fun heq => hnot ⟨hnm.1, hnm.2.symm, heq.symm⟩
      rw [BitVec.getLsbD_or, getLsbD_tierBit]
      simp [hsl]
    · rfl
  | removed now event contexts =>
    obtain ⟨hst, htr⟩ := h.processBlockRemoved now hpod hvs
    refine ⟨hst, fun ctx prefixHash podName slot => ⟨?_, fun hnot => ?_⟩⟩
    · rintro ⟨hns, rfl, rfl⟩
      rw [Event.process, htr, if_pos ⟨hns, rfl⟩, getLsbD_and_not_tierBit]
      simp [Event.slot, Event.isStore]
    rw [Event.process, htr]
    split
    · rename_i hnm
      have hsl : slot ≠ slotOf event.medium event.groupIdx := fun heq => hnot ⟨hnm.1, hnm.2.symm, heq.symm⟩
      rw [getLsbD_and_not_tierBit]
      simp [hsl]
    · rfl

/-! ## Whole runs -/

theorem run_append (events : List Event) (e : Event) : run c (events ++ [e]) = e.process c (run c events) := by
  simp [run]

variable {events : List Event}

theorem Orderly.of_append {e : Event} (h : Orderly c t (events ++ [e])) :
    Orderly c t events ∧ e.Visits (events.foldl (Event.process c) t) := by
  induction events generalizing t with
  | nil => exact ⟨trivial, h.1⟩
  | cons first events ih => exact ⟨⟨h.1, (ih h.2).1⟩, (ih h.2).2⟩

theorem settled_init : ({} : Table).Settled :=
  ⟨⟨by simp, by simp, by simp [Table.Current], by simp [Table.Current], by simp [Table.Current], by simp⟩,
    by simp [context?]⟩

theorem bit_run (hpd : ∀ e ∈ events, e.sourcePod ≠ "") (hor : Orderly c {} events) :
    (run c events).Settled ∧ ∀ ctx prefixHash podName slot,
      ((run c events).tiers ctx prefixHash podName).getLsbD slot.shift = true ↔
        LastIsStore c ctx prefixHash podName slot events := by
  induction events using List.reverseRecOn with
  | nil =>
    refine ⟨settled_init, fun ctx prefixHash podName slot => ?_⟩
    simp [run, tiers, context?, LastIsStore, not_lastIs_nil]
  | append_singleton events e ih =>
    obtain ⟨hor, hvs⟩ := hor.of_append
    obtain ⟨hse, hbit⟩ := ih (fun e' he' => hpd e' (List.mem_append_left _ he')) hor
    have hpod : e.sourcePod ≠ "" := hpd e (List.mem_append_right _ (List.mem_singleton_self e))
    rw [run_append]
    obtain ⟨hst', hst⟩ := e.process_spec (c := c) hse hpod hvs
    refine ⟨hst', fun ctx prefixHash podName slot => ?_⟩
    by_cases hmt : e.Names c (run c events) ctx prefixHash ∧ e.sourcePod = podName ∧ e.slot = slot
    · rw [(hst ctx prefixHash podName slot).1 hmt]
      refine Iff.symm (lastIs_append_of_matters ?_)
      exact hmt
    · rw [(hst ctx prefixHash podName slot).2 hmt, hbit]
      refine Iff.symm (lastIs_append_of_not_matters ?_)
      exact hmt

theorem listed_iff_tiers (h : t.Settled) : (t.podInfo? ctx prefixHash podName).isSome = true ↔
    t.tiers ctx prefixHash podName ≠ 0 := by
  unfold podInfo? tiers
  cases hd : t.context? ctx with
  | none => simp
  | some d =>
    rw [Option.bind_some, Option.elim_some, (h.stores hd).tiers_ne_zero, Option.isSome_iff_exists]

theorem events_indexed (hpods : ∀ e ∈ events, e.sourcePod ≠ "") (horderly : Orderly c {} events) :
    (∀ ctx prefixHash podName, ((run c events).podInfo? ctx prefixHash podName).isSome = true ↔
      ∃ slot, LastIsStore c ctx prefixHash podName slot events) ∧
    (∀ ctx prefixHash podName info, (run c events).podInfo? ctx prefixHash podName = some info → info.tiers ≠ 0) ∧
    (∀ ctx d, (run c events).context? ctx = some d →
      d.prefixStore.totalPrefixes = (d.prefixStore.prefixMap.entries.filter fun e => e.2.entries ≠ []).length) ∧
    ∀ now event, (run c events).knownParent (Table.storedContext c event) event = false →
      ((run c events).processBlockStored c now event).1.podInfo? = (run c events).podInfo? := by
  obtain ⟨hsettled, hbit⟩ := bit_run hpods horderly
  refine ⟨fun ctx prefixHash podName => ?_, fun ctx prefixHash podName info hinfo => ?_, fun ctx d hd => ?_,
    fun now event hparent => podInfo?_of_unknown_parent hsettled now hparent⟩
  · rw [listed_iff_tiers hsettled, ne_zero_iff_slot]
    exact exists_congr fun slot => hbit ctx prefixHash podName slot
  · obtain ⟨d, hd, hlookup⟩ := Option.bind_eq_some_iff.1 hinfo
    exact (hsettled.stores hd).tiered prefixHash podName info hlookup
  · exact (hsettled.stores hd).total_eq

/-- Engine hashes 1 and 3 are two names of one prefix. -/
def offloadedBlock : List Event :=
  [.stored 0 { blockHashes := [1, 2], tokens := [[7], [8]], modelName := "model", sourcePod := "a" },
   .stored 1 { blockHashes := [3], tokens := [[7]], modelName := "model", sourcePod := "b" },
   .stored 2 { blockHashes := [1], tokens := [[7]], modelName := "model", medium := "CPU", sourcePod := "a" },
   .removed 3 { blockHashes := [3], modelName := "model", sourcePod := "a" } [baseContext],
   .removed 4 { blockHashes := [1], modelName := "model", sourcePod := "b" } [baseContext]]

theorem events_indexed_offloaded :
    (∃ slot, LastIsStore tinyConfig baseContext (computeHash tinyConfig 1 [7]) "a" slot offloadedBlock) ∧
    ¬ ∃ slot, LastIsStore tinyConfig baseContext (computeHash tinyConfig 1 [7]) "b" slot offloadedBlock := by
  have hpods : ∀ e ∈ offloadedBlock, e.sourcePod ≠ "" := by decide
  have horderly : Orderly tinyConfig {} offloadedBlock := by decide +kernel
  obtain ⟨hlisted, _⟩ := events_indexed hpods horderly
  exact ⟨(hlisted baseContext _ "a").1 (by decide +kernel),
    fun hstored => absurd ((hlisted baseContext _ "b").2 hstored) (by decide +kernel)⟩

end Aibrix.SyncHash
