import Aibrix.SyncHash.Events
import Mathlib.Data.List.Induction

/-! # What a prompt matches

The loop of `MatchPrefix`, seen from one pod. -/

namespace Aibrix.SyncHash

open Lib List Option

variable {now : Int} {ready : List String} {i : Nat} {found : Matches} {pods : Pods} {podName : String}
  {prefixMap : KeyMap UInt64 Pods}

def Matches.of (found : Matches) (podName : String) : PodMatch := (found.lookup podName).getD {}

def weight? (prefixMap : KeyMap UInt64 Pods) (podName : String) (prefixHash : UInt64) : Option ℚ :=
  (prefixMap.lookup prefixHash).bind fun pods => (pods.lookup podName).map PodInfo.weight

def heldWeights (prefixMap : KeyMap UInt64 Pods) (podName : String) : List UInt64 → List ℚ
  | [] => []
  | prefixHash :: prefixHashes =>
    match weight? prefixMap podName prefixHash with
    | none => []
    | some weight => weight :: heldWeights prefixMap podName prefixHashes

/-! ## One block -/

theorem counts_iff : counts ready i found podName = true ↔
    (i = 0 → podName ∈ ready) ∧ (found.of podName).blocks = i := by
  simp only [counts, Bool.and_eq_true, Bool.or_eq_true, decide_eq_true_eq]
  exact and_congr_left fun _ => imp_iff_not_or.symm

theorem counts_congr {found' : Matches} (h : found'.lookup podName = found.lookup podName) :
    counts ready i found' podName = counts ready i found podName := by
  unfold counts
  rw [h]

open Matches

theorem lookup_countPod (e : (_ : String) × PodInfo) : (countPod ready i found e).lookup podName =
      if podName = e.1 ∧ counts ready i found podName = true then
        some ⟨(found.of podName).blocks + 1, (found.of podName).weight + e.2.weight⟩ else found.lookup podName := by
  unfold countPod
  by_cases hnm : podName = e.1
  · subst hnm
    split
    · simp [*, of]
    · simp [*]
  · split
    · simp [hnm, AList.lookup_insert_ne hnm]
    · simp [hnm]

theorem lookup_foldl_countPod {entries : List ((_ : String) × PodInfo)} (hnd : entries.NodupKeys) :
    (entries.foldl (countPod ready i) found).lookup podName =
      match entries.dlookup podName with
      | some info => if counts ready i found podName = true then
          some ⟨(found.of podName).blocks + 1, (found.of podName).weight + info.weight⟩ else found.lookup podName
      | none => found.lookup podName := by
  induction entries generalizing found with
  | nil => rfl
  | cons e entries ih =>
    obtain ⟨hfr, hnd⟩ := nodupKeys_cons.1 hnd
    have hst : (countPod ready i found e).lookup podName = _ := lookup_countPod e
    rw [foldl_cons, ih hnd]
    by_cases hnm : podName = e.1
    · subst hnm
      rw [dlookup_eq_none.2 hfr, dlookup_cons_eq, hst]
      simp
    · rw [if_neg (fun h => hnm h.1)] at hst
      rw [dlookup_cons_ne _ _ hnm, counts_congr hst, of, hst]
      rfl

theorem of_foldl_countPod_of_lookup {info : PodInfo} (hin : pods.lookup podName = some info)
    (hcn : counts ready i found podName = true) : of (pods.entries.foldl (countPod ready i) found) podName =
      ⟨(found.of podName).blocks + 1, (found.of podName).weight + info.weight⟩ := by
  have hen : pods.entries.dlookup podName = some info := hin
  rw [of, lookup_foldl_countPod pods.nodupKeys, hen]
  simp [hcn]

theorem of_foldl_countPod_of_not_counted (h : pods.lookup podName = none ∨ counts ready i found podName = false) :
    of (pods.entries.foldl (countPod ready i) found) podName = found.of podName := by
  rw [of, lookup_foldl_countPod pods.nodupKeys]
  rcases h with hnn | hcn
  · have hen : pods.entries.dlookup podName = none := hnn
    rw [hen, of]
  · rw [of]
    split <;> simp [hcn]

theorem any_counts {info : PodInfo} (hin : pods.lookup podName = some info)
    (hcn : counts ready i found podName = true) : pods.entries.any (fun e => counts ready i found e.1) = true :=
  any_eq_true.2 ⟨⟨podName, info⟩, AList.mem_lookup_iff.1 hin, hcn⟩

theorem weight?_touchPods {prefixHash : UInt64} (hpd : prefixMap.lookup prefixHash = some pods) :
    weight? (prefixMap.insert prefixHash (touchPods now ready i found pods)) = weight? prefixMap := by
  funext podName prefixHash'
  unfold weight?
  rw [KeyMap.lookup_insert_eq]
  split
  · subst prefixHash'
    rw [hpd, bind_some, bind_some, touchPods, KeyMap.lookup_filterMap]
    cases pods.lookup podName with
    | none => rfl
    | some info =>
      split <;> rfl
  · rfl

theorem heldWeights_congr {prefixMap' : KeyMap UInt64 Pods} (h : weight? prefixMap' = weight? prefixMap)
    (prefixHashes : List UInt64) : heldWeights prefixMap' podName prefixHashes = heldWeights prefixMap podName prefixHashes := by
  induction prefixHashes with
  | nil => rfl
  | cons prefixHash prefixHashes ih =>
    unfold heldWeights
    rw [h, ih]

theorem heldWeights_of_uniform {recorded : List UInt64} {weight : ℚ}
    (h : ∀ prefixHash, weight? prefixMap podName prefixHash = if prefixHash ∈ recorded then some weight else none)
    (hashes : List UInt64) : heldWeights prefixMap podName hashes =
      replicate (hashes.takeWhile (· ∈ recorded)).length weight := by
  induction hashes with
  | nil => rfl
  | cons prefixHash hashes ih =>
    unfold heldWeights
    rw [h]
    by_cases hmem : prefixHash ∈ recorded
    · simp [hmem, ih, replicate_succ]
    · simp [hmem]

theorem of_matchBlocks_of_behind (hashes : List UInt64) (h : (found.of podName).blocks < i) :
    (matchBlocks now ready i hashes prefixMap found).2.of podName = found.of podName := by
  induction hashes generalizing i prefixMap found with
  | nil => rfl
  | cons prefixHash hashes ih =>
    have hcn : counts ready i found podName = false := by
      rw [← Bool.not_eq_true, counts_iff]
      omega
    unfold matchBlocks
    split
    · rfl
    rename_i pods _
    have hkp : of (pods.entries.foldl (countPod ready i) found) podName = found.of podName :=
      of_foldl_countPod_of_not_counted (.inr hcn)
    split
    · rw [ih (by rw [hkp]; omega), hkp]
    · rfl

theorem of_matchBlocks (hashes : List UInt64) (hrd : i = 0 → podName ∈ ready) (hbl : (found.of podName).blocks = i) :
    let r := heldWeights prefixMap podName hashes
    (matchBlocks now ready i hashes prefixMap found).2.of podName = ⟨i + r.length, (found.of
      podName).weight + r.sum⟩ := by
  have hcn : counts ready i found podName = true := counts_iff.2 ⟨hrd, hbl⟩
  induction hashes generalizing i prefixMap found with
  | nil => simp [matchBlocks, heldWeights, ← hbl]
  | cons prefixHash hashes ih =>
    unfold matchBlocks heldWeights weight?
    cases hpd : prefixMap.lookup prefixHash with
    | none => simp [← hbl]
    | some pods =>
      dsimp only [bind_some]
      cases hin : pods.lookup podName with
      | none =>
        -- The pod is not counted here, so it is behind from the next block on.
        have hkp : of (pods.entries.foldl (countPod ready i) found) podName = found.of podName :=
          of_foldl_countPod_of_not_counted (.inl hin)
        have hbh : (of (pods.entries.foldl (countPod ready i) found) podName).blocks < i + 1 := by
          rw [hkp]
          omega
        split
        · rw [of_matchBlocks_of_behind _ hbh, hkp]
          simp [← hbl]
        · simp [← hbl]
      | some info =>
        have hnx := of_foldl_countPod_of_lookup hin hcn
        have hbl' : (of (pods.entries.foldl (countPod ready i) found) podName).blocks = i + 1 := by
          rw [hnx, hbl]
        rw [if_pos (any_counts hin hcn), ih (by omega) hbl' (counts_iff.2 ⟨by omega, hbl'⟩), hnx,
          heldWeights_congr (weight?_touchPods hpd)]
        simp only [map_some, length_cons, sum_cons, PodMatch.mk.injEq]
        constructor
        · omega
        · ring

/-! ## The blocks of a token sequence, named by engine hashes, on the GPU of one pod -/

variable {c : Config}

variable (parentHash : UInt64) (blocks : List (List UInt8))

theorem hashChain_append (blocks' : List (List UInt8)) : hashChain c parentHash (blocks ++ blocks') =
      hashChain c parentHash blocks ++ hashChain c ((hashChain c parentHash blocks).getLastD parentHash) blocks' := by
  induction blocks generalizing parentHash with
  | nil => rfl
  | cons block blocks ih => simp only [cons_append, hashChain, ih, getLastD_cons]

theorem hashChain_take (k : Nat) : hashChain c parentHash (blocks.take k) = (hashChain c parentHash blocks).take k := by
  induction blocks generalizing parentHash k with
  | nil => simp [hashChain]
  | cons block blocks ih =>
    cases k with
    | zero => rfl
    | succ k => simp only [take_succ_cons, hashChain, ih]

theorem length_hashChain : (hashChain c parentHash blocks).length = blocks.length := by
  induction blocks generalizing parentHash with
  | nil => rfl
  | cons block blocks ih => simp [hashChain, ih]

theorem length_fullBlocks (tokens : List UInt8) (blockSize : Nat) :
    (fullBlocks tokens blockSize).length = tokens.length / blockSize := by
  simp [fullBlocks]

theorem length_of_mem_fullBlocks {tokens block : List UInt8} {blockSize : Nat} (h : block ∈ fullBlocks tokens blockSize) :
    block.length = blockSize := by
  obtain ⟨i, hi, rfl⟩ := mem_map.1 h
  have hfl : (i + 1) * blockSize ≤ tokens.length := by
    rw [mem_range] at hi
    exact (Nat.mul_le_mul_right _ hi).trans (Nat.div_mul_le_self _ _)
  rw [Nat.succ_mul] at hfl
  rw [length_take, length_drop]
  omega

/-! ## The engine mapping -/

namespace ContextData

variable {blockHash : Int} {blocks : List (Int × List UInt8)} {mapping : KeyMap Int UInt64}

theorem lookup_indexBlocks_of_not_mem
    (h : blockHash ∉ blocks.map Prod.fst) (parent : UInt64) (mapping : KeyMap Int UInt64) :
    (indexBlocks c blocks parent mapping).mapping.lookup blockHash = mapping.lookup blockHash := by
  induction blocks generalizing parent mapping with
  | nil => rfl
  | cons block blocks ih =>
    rw [map_cons, mem_cons, not_or] at h
    unfold indexBlocks
    split
    · exact ih h.2 _ _
    · exact (ih h.2 _ _).trans (AList.lookup_insert_ne h.1)

theorem mapping_indexBlocks_of_mapped
    (h : ∀ blockHash ∈ blocks.map Prod.fst, mapping.lookup blockHash ≠ none) (parent : UInt64) :
    (indexBlocks c blocks parent mapping).mapping = mapping := by
  induction blocks generalizing parent with
  | nil => rfl
  | cons block blocks ih =>
    rw [map_cons, forall_mem_cons] at h
    unfold indexBlocks
    split
    · exact ih h.2 _
    · exact absurd ‹_› h.1

theorem updates_indexBlocks_of_fresh
    (hnd : (blocks.map Prod.fst).Nodup) (hfr : ∀ blockHash ∈ blocks.map Prod.fst, mapping.lookup blockHash = none)
    (parent : UInt64) : (indexBlocks c blocks parent mapping).updates = hashChain c parent (blocks.map Prod.snd) := by
  induction blocks generalizing parent mapping with
  | nil => rfl
  | cons block blocks ih =>
    obtain ⟨engineBlockHash, blockTokens⟩ := block
    rw [map_cons, nodup_cons] at hnd
    rw [map_cons, forall_mem_cons] at hfr
    unfold indexBlocks
    split
    · rw [hfr.1] at *
      contradiction
    simp only [map_cons, hashChain, List.cons.injEq, true_and]
    refine ih hnd.2 (fun blockHash hmem => ?_) _
    have hne : blockHash ≠ engineBlockHash := by
      rintro rfl
      exact hnd.1 hmem
    rw [AList.lookup_insert_ne hne]
    exact hfr.2 blockHash hmem

theorem map_lookup_indexBlocks_of_fresh {blockHashes : List Int} {tokens : List (List UInt8)}
    (hln : blockHashes.length = tokens.length) (hnd : blockHashes.Nodup)
    (hfr : ∀ blockHash ∈ blockHashes, mapping.lookup blockHash = none) (parent : UInt64) :
    blockHashes.map (indexBlocks c (blockHashes.zip tokens) parent mapping).mapping.lookup =
      (hashChain c parent tokens).map some := by
  have hfst : (blockHashes.zip tokens).map Prod.fst = blockHashes := map_fst_zip hln.le
  have hmap : ∀ f : Int → Option UInt64, blockHashes.map f = (blockHashes.zip tokens).map fun block => f block.1 := by
    intro f
    conv_lhs => rw [← hfst]
    rw [List.map_map]
    rfl
  have hup := updates_indexBlocks_of_fresh (c := c) (hfst.symm ▸ hnd)
    (fun blockHash hmem => hfr blockHash (hfst ▸ hmem)) parent
  rw [map_snd_zip hln.ge] at hup
  rw [← hup, updates_indexBlocks]
  exact hmap _

variable {d : ContextData} {event : BlockStored}

theorem engineToAibrix_storeBlocks (now : Int) (hmr : d.markedForEviction = false) :
    (d.storeBlocks c now event).1.engineToAibrix = (d.parentHash c event).elim d.engineToAibrix fun parent =>
      (indexBlocks c (event.blockHashes.zip event.tokens) parent d.engineToAibrix).mapping := by
  simp only [storeBlocks, hmr, parentHash_learnBlockSize]
  cases d.parentHash c event with
  | none | some parent => simp

theorem blockSize_storeBlocks (now : Int) (hmr : d.markedForEviction = false) :
    (d.storeBlocks c now event).1.blockSize = (d.learnBlockSize event).blockSize := by
  simp only [storeBlocks, hmr, Bool.false_eq_true, if_false]
  split <;> rfl

theorem blockSize_learnBlockSize {blockSize : Nat} (hpos : 0 < blockSize) (hsz : d.blockSize = 0 ∨ d.blockSize = blockSize)
    (hev : (event.tokens.headD []).length = blockSize) (hmd : event.medium = "" ∨ event.medium = "GPU") :
    (d.learnBlockSize event).blockSize = blockSize := by
  unfold learnBlockSize
  simp only [hev, hpos, hmd, and_self, if_true]
  split
  · rfl
  rename_i hkp
  rcases hsz with hzr | hsz
  · exact absurd (.inl hzr) hkp
  · exact hsz

theorem mem_of_map_lookup_eq {blockHashes : List Int} {prefixHashes : List UInt64}
    (hmp : blockHashes.map mapping.lookup = prefixHashes.map some)
    (hun : ∀ blockHash ∉ blockHashes, mapping.lookup blockHash = none) {hash : UInt64}
    (hlk : mapping.lookup blockHash = some hash) : hash ∈ prefixHashes := by
  have hmem : blockHash ∈ blockHashes := by
    by_contra hnot
    rw [hun blockHash hnot] at hlk
    cases hlk
  have hsm : some hash ∈ prefixHashes.map some := by
    rw [← hmp, ← hlk]
    exact mem_map_of_mem hmem
  simpa using hsm

structure Holds (c : Config) (podName : String) (blockSize : Nat) (blockHashes : List Int) (blocks : List (List UInt8))
    (d : ContextData) : Prop where
  unmarked : d.markedForEviction = false
  mapped : blockHashes.map d.engineToAibrix.lookup = (hashChain c c.seed blocks).map some
  unmapped : ∀ blockHash ∉ blockHashes, d.engineToAibrix.lookup blockHash = none
  stored : d.prefixStore.Ok
  listed : ∀ {prefixHash p}, d.prefixStore.tiers prefixHash p ≠ 0 → p = podName ∧ prefixHash ∈ hashChain c c.seed blocks
  onGpu : ∀ prefixHash ∈ hashChain c c.seed blocks,
    d.prefixStore.tiers prefixHash podName &&& (tierMask .gpu ||| tierMask .other) ≠ 0
  learned : d.blockSize = if blocks = [] then 0 else blockSize

variable {podName : String} {blockSize : Nat} {blockHashes : List Int} {blocks : List (List UInt8)}

section

variable (h : d.Holds c podName blockSize blockHashes blocks)
include h

theorem Holds.lookup_ne_none (hmem : blockHash ∈ blockHashes) : d.engineToAibrix.lookup blockHash ≠ none := by
  have hsm : d.engineToAibrix.lookup blockHash ∈ (hashChain c c.seed blocks).map some :=
    h.mapped ▸ mem_map_of_mem hmem
  intro hnn
  simp [hnn] at hsm

theorem Holds.parentHash_eq (hpr : event.parentBlockHash = blockHashes.getLast?) :
    d.parentHash c event = some ((hashChain c c.seed blocks).getLastD c.seed) := by
  have hls := congrArg List.getLast? h.mapped
  unfold parentHash
  rw [hpr]
  cases hbl : blockHashes.getLast? with
  | none =>
    have hnn : (hashChain c c.seed blocks).getLast? = none := by simpa [hbl] using hls.symm
    rw [getLastD_eq_getLast?, hnn, getD_none]
  | some parent =>
    cases hch : (hashChain c c.seed blocks).getLast? with
    | none => simp [hbl, hch] at hls
    | some prefixHash =>
      simpa [hbl, hch] using hls

omit h in
theorem tierBit_and_gpu {medium : String} (hmd : medium = "" ∨ medium = "GPU") (groupIdx : Int) :
    tierBit medium groupIdx &&& (tierMask .gpu ||| tierMask .other) ≠ 0 := by
  have htr : tierOf medium = .gpu := if_pos hmd
  have hlt := groupOf_lt groupIdx
  unfold tierBit
  rw [htr]
  generalize groupOf groupIdx = group at hlt
  unfold maxTrackedGroups numTiers at hlt
  interval_cases group <;> decide

/-! ## Storing blocks of a chain -/

structure Fits (podName : String) (blockSize : Nat) (event : BlockStored) : Prop where
  nonempty : event.tokens ≠ []
  named : event.blockHashes.length = event.tokens.length
  sized : ∀ block ∈ event.tokens, block.length = blockSize
  onGpu : event.medium = "" ∨ event.medium = "GPU"
  source : event.sourcePod = podName

omit h in
theorem Fits.blockHashes_ne_nil (h : Fits podName blockSize event) : event.blockHashes ≠ [] := by
  rw [← length_pos_iff, h.named, length_pos_iff]
  exact h.nonempty

theorem Holds.blockSize_storeBlocks (now : Int) (hpos : 0 < blockSize)
    (hev : Fits podName blockSize event) : (d.storeBlocks c now event).1.blockSize = blockSize := by
  rw [ContextData.blockSize_storeBlocks now h.unmarked]
  refine blockSize_learnBlockSize hpos ?_ ?_ hev.onGpu
  · have hlr := h.learned
    split at hlr
    · exact .inl hlr
    · exact .inr hlr
  · obtain ⟨block, tokens, htk⟩ := exists_cons_of_ne_nil hev.nonempty
    rw [htk]
    exact hev.sized block (by simp [htk])

/-- A store keeps the chain in order, if it maps blocks as the chain does and brings all that is new in it. -/
theorem Holds.storeBlocks {blockHashes' : List Int} {blocks' : List (List UInt8)} (now : Int) (hpos : 0 < blockSize)
    (hev : Fits podName blockSize event) (hbl : blocks' ≠ [])
    (hkp : hashChain c c.seed blocks ⊆ hashChain c c.seed blocks')
    (hmp : blockHashes'.map (d.storeBlocks c now event).1.engineToAibrix.lookup = (hashChain c c.seed blocks').map some)
    (hun : ∀ blockHash ∉ blockHashes', (d.storeBlocks c now event).1.engineToAibrix.lookup blockHash = none)
    (hnew : ∀ prefixHash ∈ hashChain c c.seed blocks', prefixHash ∈ hashChain c c.seed blocks ∨
      d.parentHash c event ≠ none ∧ ∃ blockHash ∈ event.blockHashes,
        (d.storeBlocks c now event).1.engineToAibrix.lookup blockHash = some prefixHash) :
    (d.storeBlocks c now event).1.Holds c podName blockSize blockHashes' blocks' := by
  obtain ⟨hok, htr⟩ := tiers_storeBlocks (c := c) now h.unmarked hev.named h.stored
  rw [hev.source] at htr
  refine ⟨(storeBlocks_markedForEviction now event).trans h.unmarked, hmp, hun, hok, ?_, ?_, ?_⟩
  · intro prefixHash p hne
    rw [htr] at hne
    split at hne
    · rename_i hnm
      obtain ⟨⟨-, blockHash, -, hlk⟩, hp⟩ := hnm
      exact ⟨hp, mem_of_map_lookup_eq hmp hun hlk⟩
    · exact ⟨(h.listed hne).1, hkp (h.listed hne).2⟩
  · intro prefixHash hmem
    rw [htr]
    split
    · rw [BitVec.and_or_distrib_right]
      intro hzr
      exact tierBit_and_gpu hev.onGpu event.groupIdx (BitVec.or_eq_zero_iff.1 hzr).2
    rename_i hnot
    rcases hnew prefixHash hmem with hold | hnm
    · exact h.onGpu prefixHash hold
    · exact absurd ⟨hnm, rfl⟩ hnot
  · rw [if_neg hbl]
    exact h.blockSize_storeBlocks now hpos hev

end

section

variable (h : d.Holds c podName blockSize blockHashes blocks)
include h

theorem Holds.again (now : Int) (hpos : 0 < blockSize)
    (hev : Fits podName blockSize event) (hmem : event.blockHashes ⊆ blockHashes) :
    (d.storeBlocks c now event).1.Holds c podName blockSize blockHashes blocks := by
  have hmp : (d.storeBlocks c now event).1.engineToAibrix = d.engineToAibrix := by
    rw [engineToAibrix_storeBlocks now h.unmarked]
    cases d.parentHash c event with
    | none => rfl
    | some parent =>
      apply mapping_indexBlocks_of_mapped
      rw [map_fst_zip hev.named.le]
      exact fun blockHash hbl => h.lookup_ne_none (hmem hbl)
  have hbc : blocks ≠ [] := by
    rintro rfl
    have hnn : blockHashes = [] := by simpa [hashChain] using h.mapped
    exact hev.blockHashes_ne_nil (List.subset_nil.1 (hnn ▸ hmem))
  refine h.storeBlocks now hpos hev hbc (List.Subset.refl _) ?_ ?_ fun _ => .inl
  · rw [hmp]
    exact h.mapped
  · rw [hmp]
    exact h.unmapped

theorem Holds.next (now : Int) (hpos : 0 < blockSize)
    (hev : Fits podName blockSize event) (hnd : (blockHashes ++ event.blockHashes).Nodup)
    (hpr : event.parentBlockHash = blockHashes.getLast?) :
    (d.storeBlocks c now event).1.Holds c podName blockSize (blockHashes ++ event.blockHashes)
      (blocks ++ event.tokens) := by
  obtain ⟨-, hnd, hds⟩ := nodup_append.1 hnd
  have hfst : (event.blockHashes.zip event.tokens).map Prod.fst = event.blockHashes := map_fst_zip hev.named.le
  have hfr : ∀ blockHash ∈ event.blockHashes, blockHash ∉ blockHashes :=
    fun blockHash hmem hold => hds blockHash hold blockHash hmem rfl
  have hot : ∀ blockHash ∉ event.blockHashes,
      (d.storeBlocks c now event).1.engineToAibrix.lookup blockHash = d.engineToAibrix.lookup blockHash := by
    intro blockHash hnot
    rw [engineToAibrix_storeBlocks now h.unmarked, h.parentHash_eq hpr]
    exact lookup_indexBlocks_of_not_mem (hfst.symm ▸ hnot) _ _
  have hown : event.blockHashes.map (d.storeBlocks c now event).1.engineToAibrix.lookup =
      (hashChain c ((hashChain c c.seed blocks).getLastD c.seed) event.tokens).map some := by
    rw [engineToAibrix_storeBlocks now h.unmarked, h.parentHash_eq hpr]
    exact map_lookup_indexBlocks_of_fresh hev.named hnd
      (fun blockHash hmem => h.unmapped blockHash (hfr blockHash hmem)) _
  have hch := hashChain_append (c := c) c.seed blocks event.tokens
  refine h.storeBlocks now hpos hev ?_ ?_ ?_ ?_ ?_
  · intro hnil
    exact hev.nonempty (append_eq_nil_iff.1 hnil).2
  · rw [hch]
    exact subset_append_left _ _
  · have hold : blockHashes.map (d.storeBlocks c now event).1.engineToAibrix.lookup =
        blockHashes.map d.engineToAibrix.lookup :=
      map_congr_left fun blockHash hmem => hot blockHash fun hmem' => hfr blockHash hmem' hmem
    rw [hch, map_append, map_append, hold, hown, h.mapped]
  · intro blockHash hnot
    rw [mem_append, not_or] at hnot
    rw [hot blockHash hnot.2]
    exact h.unmapped blockHash hnot.1
  · intro prefixHash hmem
    rw [hch, mem_append] at hmem
    rcases hmem with hmem | hmem
    · exact .inl hmem
    right
    have hsm := mem_map_of_mem (f := some) hmem
    rw [← hown, List.mem_map] at hsm
    rw [h.parentHash_eq hpr]
    exact ⟨some_ne_none _, hsm⟩

theorem Holds.isSome_lookup {hash : UInt64} {p : String} : ((d.prefixStore.holders hash).lookup p).isSome = true ↔
      p = podName ∧ hash ∈ hashChain c c.seed blocks := by
  rw [isSome_iff_exists, ← h.stored.tiers_ne_zero]
  constructor
  · exact h.listed
  · rintro ⟨rfl, hmem⟩ hzr
    exact h.onGpu hash hmem (by simp [hzr])

theorem Holds.weight?_eq (hash : UInt64) : weight? d.prefixStore.prefixMap podName hash =
      if hash ∈ hashChain c c.seed blocks then some 1 else none := by
  have hhl : weight? d.prefixStore.prefixMap podName hash =
      ((d.prefixStore.holders hash).lookup podName).map PodInfo.weight := by
    unfold weight? PrefixStore.holders
    cases d.prefixStore.prefixMap.lookup hash <;> simp
  rw [hhl]
  split
  · rename_i hmem
    have hgpu := h.onGpu hash hmem
    unfold PrefixStore.tiers Pods.tiers at hgpu
    cases hin : (d.prefixStore.holders hash).lookup podName with
    | none => simp [hin] at hgpu
    | some info =>
      rw [hin, elim_some] at hgpu
      rw [map_some, PodInfo.weight, if_pos hgpu, mediumWeight]
  · rename_i hnot
    rw [map_eq_none_iff, ← not_isSome_iff_eq_none, h.isSome_lookup]
    exact fun hls => hnot hls.2

theorem Holds.of_matchPrefix (now : Int) {readyPods : List String} (hrd : podName ∈ readyPods) (hashes : List UInt64) :
    let r := hashes.takeWhile (· ∈ hashChain c c.seed blocks)
    (d.matchPrefix now readyPods hashes).2.of podName =
    ⟨r.length, r.length⟩ := by
  have hmt : (matchBlocks now readyPods 0 hashes d.prefixStore.prefixMap ∅).2.of podName = _ :=
    of_matchBlocks hashes (fun _ => hrd) rfl
  rw [heldWeights_of_uniform h.weight?_eq] at hmt
  simpa [ContextData.matchPrefix, Matches.of] using hmt

end

end ContextData

/-! ## A token sequence delivered in events

The full blocks of a token sequence reach a fresh context in consecutive events, some of them more than once. -/

open Table BlockStored

variable {c : Config} {ctx : ModelContext} {podName : String} {blockSize : Nat} {blocks : List (List UInt8)}

/-- The parent of every event is the last block of the event before it. -/
def Linked : Option Int → List BlockStored → Prop
  | _, [] => True
  | parent, event :: events => event.parentBlockHash = parent ∧ Linked event.blockHashes.getLast? events

/-- Some blocks, cut into consecutive events of one pod and context, with an engine hash of its own for every block. -/
structure Cut (c : Config) (ctx : ModelContext) (podName : String) (blocks : List (List UInt8))
    (events : List BlockStored) : Prop where
  whole : events.flatMap BlockStored.tokens = blocks
  nonempty : ∀ event ∈ events, event.tokens ≠ []
  named : ∀ event ∈ events, event.blockHashes.length = event.tokens.length
  distinct : (events.flatMap BlockStored.blockHashes).Nodup
  linked : Linked none events
  onGpu : ∀ event ∈ events, event.medium = "" ∨ event.medium = "GPU"
  source : ∀ event ∈ events, event.sourcePod = podName
  context : ∀ event ∈ events, Table.storedContext c event = ctx

/-- The deliveries, each at its time, that remain when some events have been seen. -/
inductive Delivers : List BlockStored → List BlockStored → List (Int × BlockStored) → Prop where
  | done {seen} : Delivers seen [] []
  | next {seen event events deliveries} (now : Int) :
    Delivers (seen ++ [event]) events deliveries → Delivers seen (event :: events) ((now, event) :: deliveries)
  | again {seen event events deliveries} (now : Int) :
    event ∈ seen → Delivers seen events deliveries → Delivers seen events ((now, event) :: deliveries)

def deliver (c : Config) (t : Table) (deliveries : List (Int × BlockStored)) : Table :=
  deliveries.foldl (fun t delivery => (t.processBlockStored c delivery.1 delivery.2).1) t

def shared : List (List UInt8) → List (List UInt8) → Nat
  | block :: blocks, block' :: blocks' => if block = block' then shared blocks blocks' + 1 else 0
  | _, _ => 0

/-! ## One delivery -/

variable {t : Table} {events seen : List BlockStored} {event : BlockStored}

def Table.contextOrNew (t : Table) (ctx : ModelContext) (now : Int) : ContextData :=
  (t.context? ctx).getD { prefixStore := { lastAccess := now } }

theorem getOrCreateContextData_data (t : Table) (ctx : ModelContext) (now : Int) :
    let r := t.getOrCreateContextData c now ctx
    r.1.Current (ctx, r.2) ∧
    r.1.data ctx r.2 = t.contextOrNew ctx now := by
  unfold getOrCreateContextData contextOrNew
  split
  · rename_i number hlk
    refine ⟨hlk, ?_⟩
    rw [context?, hlk, map_some, getD_some]
  rename_i hnn
  refine ⟨AList.lookup_insert _, ?_⟩
  rw [context?, hnn]
  simp [countContext, create, setData]

theorem context?_processBlockStored (now : Int) (hne : event.blockHashes ≠ [])
    (hnm : event.blockHashes.length = event.tokens.length) (hctx : storedContext c event = ctx) :
    (t.processBlockStored c now event).1.context? ctx = some ((t.contextOrNew ctx now).storeBlocks c now event).1 := by
  obtain ⟨hcur, hdt⟩ := getOrCreateContextData_data (c := c) t ctx now
  unfold processBlockStored
  rw [if_neg hne, refused, if_pos hnm, hctx]
  rw [context?_leave hcur, if_pos rfl, hdt]

def Table.Has (c : Config) (ctx : ModelContext) (podName : String) (blockSize : Nat) (seen : List BlockStored)
    (t : Table) : Prop :=
  ∀ now, (t.contextOrNew ctx now).Holds c podName blockSize (seen.flatMap BlockStored.blockHashes)
    (seen.flatMap BlockStored.tokens)

theorem Table.Has.fresh (h : t.contextMap.lookup ctx = none) : t.Has c ctx podName blockSize [] := by
  intro now
  rw [contextOrNew, context?, h]
  exact ⟨rfl, rfl, by simp, .empty now, by simp [PrefixStore.tiers, Pods.tiers, PrefixStore.holders],
    by simp [hashChain], rfl⟩

theorem Table.Has.processBlockStored (now : Int) (hev : ContextData.Fits podName blockSize event)
    (hctx : storedContext c event = ctx)
    (h : ((t.contextOrNew ctx now).storeBlocks c now event).1.Holds c podName blockSize
      (seen.flatMap blockHashes) (seen.flatMap tokens)) :
    (t.processBlockStored c now event).1.Has c ctx podName blockSize seen := by
  intro now'
  rw [contextOrNew, context?_processBlockStored now hev.blockHashes_ne_nil hev.named hctx]
  exact h

theorem Table.Has.context (h : t.Has c ctx podName blockSize seen) (hpos : 0 < blockSize)
    (hbl : seen.flatMap tokens ≠ []) :
    ∃ d, t.context? ctx = some d ∧ d.Holds c podName blockSize (seen.flatMap blockHashes) (seen.flatMap tokens) := by
  have hhl := h 0
  unfold contextOrNew at hhl
  cases hd : t.context? ctx with
  | none =>
    have hlr := hhl.learned
    rw [hd, getD_none, if_neg hbl] at hlr
    dsimp only at hlr
    omega
  | some d =>
    rw [hd] at hhl
    exact ⟨d, rfl, hhl⟩

theorem Linked.parent {parent : Option Int} (hne : ∀ event ∈ seen, event.blockHashes ≠ [])
    (h : Linked parent (seen ++ event :: events)) :
    event.parentBlockHash = (seen.flatMap blockHashes).getLast?.or parent := by
  induction seen generalizing parent with
  | nil => exact h.1
  | cons first seen ih =>
    rw [forall_mem_cons] at hne
    rw [ih hne.2 h.2, flatMap_cons, getLast?_append, Option.or_assoc]
    rw [getLast?_eq_some_getLast hne.1, some_or]

theorem Cut.fits (h : Cut c ctx podName blocks events) (hsz : ∀ block ∈ blocks, block.length = blockSize)
    (hmem : event ∈ events) : ContextData.Fits podName blockSize event where
  nonempty := h.nonempty event hmem
  named := h.named event hmem
  sized block hbl := hsz block (h.whole ▸ mem_flatMap.2 ⟨event, hmem, hbl⟩)
  onGpu := h.onGpu event hmem
  source := h.source event hmem

theorem Delivers.has {deliveries : List (Int × BlockStored)} (h : Delivers seen events deliveries)
    (hcut : Cut c ctx podName blocks (seen ++ events)) (hsz : ∀ block ∈ blocks, block.length = blockSize)
    (hpos : 0 < blockSize) (ht : t.Has c ctx podName blockSize seen) :
    (deliver c t deliveries).Has c ctx podName blockSize (seen ++ events) := by
  induction h generalizing t with
  | done => simpa [deliver] using ht
  | @next seen event events deliveries now _ ih =>
    have hmem : event ∈ seen ++ event :: events := by simp
    have hap : seen ++ event :: events = (seen ++ [event]) ++ events := by simp
    have hpr := hcut.linked.parent fun event' hmem' =>
      (hcut.fits hsz (mem_append_left _ hmem')).blockHashes_ne_nil
    have hds := hcut.distinct
    rw [hap, flatMap_append] at hds
    have hst := (ht now).next now hpos (hcut.fits hsz hmem) (by simpa using hds.of_append_left) (by simpa using hpr)
    rw [hap] at hcut ⊢
    refine ih hcut (.processBlockStored now (hcut.fits hsz (by simp)) (hcut.context event (by simp)) ?_)
    simpa using hst
  | @again seen event events deliveries now hsn _ ih =>
    have hmem : event ∈ seen ++ events := mem_append_left _ hsn
    refine ih hcut (.processBlockStored now (hcut.fits hsz hmem) (hcut.context event hmem) ?_)
    refine (ht now).again now hpos (hcut.fits hsz hmem) fun blockHash hbl => ?_
    exact mem_flatMap.2 ⟨event, hsn, hbl⟩

/-! ## Prompts -/

theorem take_shared (blocks blocks' : List (List UInt8)) :
    blocks.take (shared blocks blocks') = blocks'.take (shared blocks blocks') := by
  fun_induction shared blocks blocks' with
  | case1 block blocks blocks' ih => simp [ih]
  | case2 | case3 => simp

theorem shared_le_length (blocks blocks' : List (List UInt8)) : shared blocks blocks' ≤ blocks.length := by
  fun_induction shared blocks blocks' with
  | case1 block blocks blocks' ih => simpa using ih
  | case2 | case3 => simp

/-- The leading hashes of a prompt that are in a chain: those of the shared blocks, and then only what collides. -/
theorem length_takeWhile_hashChain (blocks prompt : List (List UInt8)) :
    ((hashChain c c.seed prompt).takeWhile (· ∈ hashChain c c.seed blocks)).length = shared prompt blocks +
        (((hashChain c c.seed prompt).drop (shared prompt blocks)).takeWhile (· ∈ hashChain c c.seed blocks)).length := by
  have hsh : ∀ prefixHash ∈ (hashChain c c.seed prompt).take (shared prompt blocks),
      decide (prefixHash ∈ hashChain c c.seed blocks) = true := by
    intro prefixHash hmem
    rw [← hashChain_take, take_shared, hashChain_take] at hmem
    exact decide_eq_true (mem_of_mem_take hmem)
  conv_lhs => rw [← take_append_drop (shared prompt blocks) (hashChain c c.seed prompt)]
  rw [takeWhile_append_of_pos hsh, length_append, length_take, length_hashChain,
    min_eq_left (shared_le_length prompt blocks)]

theorem length_takeWhile_eq_shared (blocks prompt : List (List UInt8)) :
    ((hashChain c c.seed prompt).takeWhile (· ∈ hashChain c c.seed blocks)).length = shared prompt blocks ↔
      ∀ prefixHash, (hashChain c c.seed prompt)[shared prompt blocks]? = some prefixHash →
        prefixHash ∉ hashChain c c.seed blocks := by
  rw [length_takeWhile_hashChain, ← head?_drop]
  cases (hashChain c c.seed prompt).drop _ with
  | nil => simp
  | cons prefixHash prefixHashes =>
    rw [takeWhile_cons]
    split <;> simp_all

theorem getD_scores (n : Nat) (found : Matches) :
    ((scores n found).lookup podName).getD 0 = score n (found.of podName) := by
  rw [scores, KeyMap.lookup_filterMap, Matches.of]
  cases found.lookup podName with
  | none => simp [score]
  | some m => rfl

theorem scores_matchPrefix {d : ContextData} (hd : t.context? ctx = some d) (hmr : d.markedForEviction = false)
    (now : Int) (prompt : List UInt8) (readyPods : List String) :
    let r := prefixHashes c prompt (d.requestBlockSize c)
    (t.matchPrefix c now ctx prompt readyPods).2.1 = scores r.length (d.matchPrefix now readyPods r).2 := by
  obtain ⟨number, hlk, rfl⟩ := map_eq_some_iff.1 hd
  simp [matchPrefix, hlk, hmr]

theorem score_eq (n k : Nat) : score n ⟨k, k⟩ = ((100 * k / n : Nat) : Int) := by
  have hcs : (k : ℚ) * 100 = ((100 * k : Nat) : ℚ) := by
    push_cast
    ring
  unfold score
  rw [hcs]
  norm_cast

/-! ## Collisions -/

def lastHash (c : Config) (blocks : List (List UInt8)) : UInt64 := (hashChain c c.seed blocks).getLastD c.seed

structure CollisionFree (c : Config) (sequences : List (List (List UInt8))) : Prop where
  injective : ∀ {blocks block blocks' block'}, (∃ s ∈ sequences, blocks ++ [block] <+: s) →
    (∃ s ∈ sequences, blocks' ++ [block'] <+: s) →
    computeHash c (lastHash c blocks) block = computeHash c (lastHash c blocks') block' →
    lastHash c blocks = lastHash c blocks' ∧ block = block'
  seedless : ∀ {blocks block}, (∃ s ∈ sequences, blocks ++ [block] <+: s) →
    computeHash c (lastHash c blocks) block ≠ c.seed

theorem lastHash_append_singleton (blocks : List (List UInt8)) (block : List UInt8) :
    lastHash c (blocks ++ [block]) = computeHash c (lastHash c blocks) block := by
  unfold lastHash
  rw [hashChain_append]
  simp [hashChain]

theorem CollisionFree.eq_of_lastHash_eq {sequences : List (List (List UInt8))} (h : CollisionFree c sequences)
    {blocks blocks' : List (List UInt8)} (hbl : ∃ s ∈ sequences, blocks <+: s)
    (hbl' : ∃ s ∈ sequences, blocks' <+: s) (heq : lastHash c blocks = lastHash c blocks') : blocks = blocks' := by
  have hsh : ∀ {bs : List (List UInt8)} {b}, (∃ s ∈ sequences, bs ++ [b] <+: s) → ∃ s ∈ sequences, bs <+: s :=
    fun ⟨s, hs, hbs⟩ => ⟨s, hs, (prefix_append _ _).trans hbs⟩
  induction blocks using reverseRecOn generalizing blocks' with
  | nil =>
    cases blocks' using reverseRecOn with
    | nil => rfl
    | append_singleton blocks' block' =>
      rw [lastHash_append_singleton] at heq
      exact absurd heq.symm (h.seedless hbl')
  | append_singleton blocks block ih =>
    cases blocks' using reverseRecOn with
    | nil =>
      rw [lastHash_append_singleton] at heq
      exact absurd heq (h.seedless hbl)
    | append_singleton blocks' block' =>
      rw [lastHash_append_singleton, lastHash_append_singleton] at heq
      obtain ⟨hls, rfl⟩ := h.injective hbl hbl' heq
      rw [ih (hsh hbl) (hsh hbl') hls]

theorem lastHash_take {prefixHash : UInt64} {k : Nat} (h : (hashChain c c.seed blocks)[k]? = some prefixHash) :
    lastHash c (blocks.take (k + 1)) = prefixHash := by
  unfold lastHash
  rw [hashChain_take, getLastD_eq_getLast?, getLast?_take]
  simp [h]

theorem le_shared {blocks blocks' : List (List UInt8)} {k : Nat} (hk : k ≤ blocks.length)
    (h : blocks.take k = blocks'.take k) : k ≤ shared blocks blocks' := by
  fun_induction shared blocks blocks' generalizing k with
  | case1 block blocks blocks' ih =>
    cases k with
    | zero => omega
    | succ k =>
      have := ih (by simpa using hk) (by simpa using h)
      omega
  | case2 block blocks block' blocks' hne =>
    cases k with
    | zero => omega
    | succ k => simp [hne] at h
  | case3 blocks blocks' hcn =>
    cases blocks with
    | nil => exact hk
    | cons block blocks =>
      cases blocks' with
      | nil => simpa using h
      | cons block' blocks' => exact (hcn _ _ _ _ rfl rfl).elim

theorem CollisionFree.not_mem_hashChain {prompt : List (List UInt8)} (h : CollisionFree c [prompt, blocks])
    {prefixHash : UInt64} (hnx : (hashChain c c.seed prompt)[shared prompt blocks]? = some prefixHash) :
    prefixHash ∉ hashChain c c.seed blocks := by
  intro hmem
  obtain ⟨k, hk⟩ := mem_iff_getElem?.1 hmem
  have heq : prompt.take (shared prompt blocks + 1) = blocks.take (k + 1) := by
    refine h.eq_of_lastHash_eq ⟨prompt, by simp, take_prefix _ _⟩ ⟨blocks, by simp, take_prefix _ _⟩ ?_
    rw [lastHash_take hnx, lastHash_take hk]
  obtain ⟨hlt, -⟩ := List.getElem?_eq_some_iff.1 hnx
  obtain ⟨hlt', -⟩ := List.getElem?_eq_some_iff.1 hk
  rw [length_hashChain] at hlt hlt'
  have hln := congrArg List.length heq
  rw [length_take, length_take] at hln
  have hk : k = shared prompt blocks := by omega
  rw [hk] at heq
  have := le_shared (by omega) heq
  omega

/-! ## The whole sequence -/

theorem delivered_matched {tokens : List UInt8} {n : Nat} (hpos : 0 < blockSize) (hn : 1 ≤ n)
    (hfull : n * blockSize ≤ tokens.length)
    (hcut : Cut c ctx podName (fullBlocks (tokens.take (n * blockSize)) blockSize) events)
    {deliveries : List (Int × BlockStored)} (hdeliveries : Delivers [] events deliveries)
    (hfresh : t.contextMap.lookup ctx = none) :
    ∃ d, (deliver c t deliveries).context? ctx = some d ∧
      (events.flatMap BlockStored.blockHashes).map d.engineToAibrix.lookup =
        (prefixHashes c (tokens.take (n * blockSize)) blockSize).map some ∧
      (∀ blockHash ∉ events.flatMap BlockStored.blockHashes, d.engineToAibrix.lookup blockHash = none) ∧
      (∀ prefixHash p, ((d.prefixStore.holders prefixHash).lookup p).isSome = true ↔
        p = podName ∧ prefixHash ∈ prefixHashes c (tokens.take (n * blockSize)) blockSize) ∧
      d.blockSize = blockSize ∧
      ∀ (now : Int) (prompt : List UInt8) (readyPods : List String), podName ∈ readyPods →
        let m := shared (fullBlocks prompt blockSize) (fullBlocks (tokens.take (n * blockSize)) blockSize)
        ∃ matched : Nat, m ≤ matched ∧
          (d.matchPrefix now readyPods (prefixHashes c prompt blockSize)).2.of podName = ⟨matched, matched⟩ ∧
          (((deliver c t deliveries).matchPrefix c now ctx prompt readyPods).2.1.lookup podName).getD 0 =
            ((100 * matched / (prompt.length / blockSize) : Nat) : Int) ∧
          (matched = m ↔ ∀ prefixHash, (prefixHashes c prompt blockSize)[m]? = some prefixHash →
            prefixHash ∉ prefixHashes c (tokens.take (n * blockSize)) blockSize) ∧
          (CollisionFree c [fullBlocks prompt blockSize, fullBlocks (tokens.take (n * blockSize)) blockSize] →
            matched = m) := by
  have hhas := hdeliveries.has hcut (fun _ => length_of_mem_fullBlocks) hpos (.fresh hfresh)
  rw [nil_append] at hhas
  have hblocks : fullBlocks (tokens.take (n * blockSize)) blockSize ≠ [] := by
    rw [← length_pos_iff, length_fullBlocks, length_take, min_eq_left hfull, Nat.mul_div_cancel _ hpos]
    exact hn
  obtain ⟨d, hd, hholds⟩ := hhas.context hpos (hcut.whole.symm ▸ hblocks)
  rw [hcut.whole] at hholds
  have hsize : d.blockSize = blockSize := hholds.learned.trans (if_neg hblocks)
  refine ⟨d, hd, hholds.mapped, hholds.unmapped, fun prefixHash p => ?_, hsize, fun now prompt readyPods hready => ?_⟩
  · exact hholds.isSome_lookup
  refine ⟨_, ?_, hholds.of_matchPrefix now hready _, ?_, length_takeWhile_eq_shared _ _, fun hfree => ?_⟩
  · unfold prefixHashes
    rw [length_takeWhile_hashChain]
    omega
  · have hrequest : d.requestBlockSize c = blockSize := by
      rw [ContextData.requestBlockSize, hsize, if_neg hpos.ne']
    rw [scores_matchPrefix hd hholds.unmarked, hrequest, getD_scores, hholds.of_matchPrefix now hready, score_eq,
      prefixHashes, length_hashChain, length_fullBlocks]
  · exact (length_takeWhile_eq_shared _ _).2 fun _ => hfree.not_mem_hashChain

def firstEvent : BlockStored where
  blockHashes := [10, 11]
  tokens := [[1, 2], [3, 4]]
  modelName := "model"
  sourcePod := "a"

def secondEvent : BlockStored where
  blockHashes := [12]
  parentBlockHash := some 11
  tokens := [[5, 6]]
  modelName := "model"
  medium := "GPU"
  sourcePod := "a"

def repeatedDeliveries : List (Int × BlockStored) := [(0, firstEvent), (1, firstEvent), (2, secondEvent), (3, firstEvent)]

theorem delivered_matched_repeated :
    (((deliver tinyConfig {} repeatedDeliveries).matchPrefix tinyConfig 4 baseContext [1, 2, 3, 4, 9, 9] ["a"]).2.1.lookup
      "a").getD 0 = 66 := by
  have hcut : Cut tinyConfig baseContext "a" (fullBlocks ([1, 2, 3, 4, 5, 6, 7].take (3 * 2)) 2)
      [firstEvent, secondEvent] :=
    ⟨by decide, by decide, by decide, by decide, ⟨rfl, rfl, trivial⟩, by decide, by decide, by decide⟩
  have hdeliveries : Delivers [] [firstEvent, secondEvent] repeatedDeliveries :=
    .next 0 (.again 1 (by simp) (.next 2 (.again 3 (by simp) .done)))
  obtain ⟨d, -, -, -, -, -, hprompt⟩ := delivered_matched (t := {}) (by decide) (by decide) (by decide) hcut hdeliveries rfl
  obtain ⟨matched, -, -, hscore, hexact, -⟩ := hprompt 4 [1, 2, 3, 4, 9, 9] ["a"] (by decide)
  have hlast : (prefixHashes tinyConfig [1, 2, 3, 4, 9, 9] 2)[2]?.all
      (fun prefixHash => decide (prefixHash ∉ prefixHashes tinyConfig ([1, 2, 3, 4, 5, 6, 7].take (3 * 2)) 2)) = true := by
    decide +kernel
  have hshared : shared (fullBlocks [1, 2, 3, 4, 9, 9] 2) (fullBlocks ([1, 2, 3, 4, 5, 6, 7].take (3 * 2)) 2) = 2 := by
    decide +kernel
  rw [hshared] at hexact
  have hmatched : matched = 2 := hexact.2 fun prefixHash hnext => by
    rw [hnext] at hlast
    exact of_decide_eq_true hlast
  rw [hscore, hmatched]
  rfl

def collidingConfig : Config := { tinyConfig with xxhash := fun _ _ => 0 }

def onlyEvent : BlockStored where
  blockHashes := [10]
  tokens := [[1]]
  modelName := "model"
  sourcePod := "a"

theorem collision_overmatches : Cut collidingConfig baseContext "a" (fullBlocks ([1].take (1 * 1)) 1) [onlyEvent] ∧
    Delivers [] [onlyEvent] [(0, onlyEvent)] ∧ ({} : Table).contextMap.lookup baseContext = none ∧
    shared (fullBlocks [2] 1) (fullBlocks ([1].take (1 * 1)) 1) = 0 ∧
    ((deliver collidingConfig {} [(0, onlyEvent)]).matchPrefix collidingConfig 1 baseContext [2] ["a"]).2.1.lookup "a" =
      some 100 := by
  refine ⟨⟨by decide, by decide, by decide, by decide, ⟨rfl, trivial⟩, by decide, by decide, by decide⟩, .next 0 .done,
    rfl, by decide, by decide +kernel⟩

end Aibrix.SyncHash
