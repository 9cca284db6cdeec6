import Aibrix.RadixCache.PodTable
import Mathlib.Order.WithBot

/-! # The prefix hash table and its delta

`PrefixHashTable` of `hash.go`, with the calls of `sync.go` that the sync layer makes. -/

namespace Aibrix.StateSync

open Lib RadixCache KeyMap

/-- `modelToPods`: the last access of each pod, by model. -/
abbrev Block := PodTable Int

-- `Int` has its order by many paths. This is the one that all modules below take.
instance (priority := high) stampPreorder : Preorder (WithBot Int) := @WithBot.instPreorder Int Int.instLinearOrder.toPreorder

/-- A pod that has no time comes before all others. -/
def stamp : Option Int → WithBot Int
  | none => ⊥
  | some t => t

def Block.time (b : Block) (model pod : String) : WithBot Int := stamp ((b.lookup model).bind (·.lookup pod))

structure Block.Same (b b' : Block) : Prop where
  models : ∀ model, (b.lookup model).isSome = (b'.lookup model).isSome
  time : ∀ model pod, Block.time b model pod = Block.time b' model pod

/-- What replicas exchange: a block reads back as it was written. -/
structure Codec where
  Data : Type
  encode : Block → Data
  decode : Data → Option Block
  round : ∀ b, ∃ b', decode (encode b) = some b' ∧ Block.Same b' b

structure PrefixHashTable where
  store : KeyMap UInt64 Block := ∅
  /-- For every changed block, `dirtySeq` as of its last change. -/
  dirtyIds : KeyMap UInt64 Nat := ∅
  dirtySeq : Nat := 0
  /-- `dirtySeq` as of the last delta. -/
  deltaSeq : Nat := 0

def newer (cur : Option Int) (t : Int) : Int := cur.elim t fun c => if c < t then t else c

variable (cur : Option (KeyMap String Int))

def mergePods (pods : KeyMap String Int) : KeyMap String Int :=
  mergeWith newer (cur.getD ∅) pods

namespace PrefixHashTable

variable (evictionDuration : Nat)

def addBlock (now : Int) (model pod : String) (t : PrefixHashTable) (hash : UInt64) : PrefixHashTable :=
  let block : Block := match t.store.lookup hash with
    | none => (∅ : Block).insert model ((∅ : KeyMap String Int).insert pod now)
    | some block =>
      -- Pods that have not used the block for long are dropped, for this model only.
      let blockPods := ((block.lookup model).getD ∅).filterMap fun _ accessed =>
        if accessed < now - evictionDuration then none else some accessed
      block.insert model (blockPods.insert pod now)
  { t with
    store := t.store.insert hash block
    dirtySeq := t.dirtySeq + 1
    dirtyIds := t.dirtyIds.insert hash (t.dirtySeq + 1) }

variable (t : PrefixHashTable)

def addPrefix (now : Int) (prefixHashes : List UInt64) (model pod : String) : PrefixHashTable :=
  prefixHashes.foldl (addBlock evictionDuration now model pod) t

/-- The part of `GetDeltaForSync` under the lock: copies of the changed blocks that are in the store. -/
def copyDirty : PrefixHashTable × KeyMap UInt64 Block :=
  ({ t with deltaSeq := t.dirtySeq }, t.dirtyIds.filterMap fun hash _ => t.store.lookup hash)

def encodeAll (codec : Codec) (work : KeyMap UInt64 Block) : KeyMap UInt64 codec.Data :=
  work.filterMap fun _ block => some (codec.encode block)

/-- The delta. -/
def getDeltaForSync (codec : Codec) (t : PrefixHashTable) : PrefixHashTable × KeyMap UInt64 codec.Data :=
  (t.copyDirty.1, encodeAll codec t.copyDirty.2)

def clearDirtyForSync : PrefixHashTable :=
  { t with dirtyIds := t.dirtyIds.filterMap fun _ seq => if seq ≤ t.deltaSeq then none else some seq }

def applyRemoteForSync (codec : Codec) (t : PrefixHashTable) (hash : UInt64) (data : codec.Data) : PrefixHashTable :=
  match codec.decode data with
  | none => t
  | some block =>
    { t with
      store := t.store.insert hash (match t.store.lookup hash with
        | some existing => mergeWith mergePods existing block
        | none => block) }

def accessed (hash : UInt64) (model pod : String) : Option Int :=
  (t.store.lookup hash).bind fun block => (block.lookup model).bind (·.lookup pod)

def time (hash : UInt64) (model pod : String) : WithBot Int :=
  (t.store.lookup hash).elim ⊥ fun block => Block.time block model pod

end PrefixHashTable

/-! ## Access times -/

variable {codec : Codec} {b b' : Block} {model pod model' pod' : String} {t : PrefixHashTable} {hash hash' : UInt64}

theorem PrefixHashTable.time_eq_stamp (t : PrefixHashTable) (hash : UInt64) (model pod : String) :
    t.time hash model pod = stamp (t.accessed hash model pod) := by
  unfold PrefixHashTable.time PrefixHashTable.accessed
  cases t.store.lookup hash <;> rfl

theorem stamp_eq_coe {accessed : Option Int} {a : Int} : stamp accessed = a ↔ accessed = some a := by
  cases accessed with
  | none => exact iff_of_false WithBot.bot_ne_coe (Option.some_ne_none a).symm
  | some b => exact WithBot.coe_inj.trans (Option.some.injEq b a).to_iff.symm

theorem coe_newer (cur : Option Int) (t : Int) : (newer cur t : WithBot Int) = max (stamp cur) t := by
  cases cur with
  | none => exact (max_eq_right bot_le).symm
  | some c =>
    change ((if c < t then t else c : Int) : WithBot Int) = max (c : WithBot Int) t
    split
    · rename_i hlt
      rw [max_eq_right]
      exact WithBot.coe_le_coe.2 hlt.le
    · rename_i hlt
      rw [max_eq_left]
      exact WithBot.coe_le_coe.2 (not_lt.1 hlt)

theorem stamp_mergePods (pods : KeyMap String Int) (pod : String) :
    stamp ((mergePods cur pods).lookup pod) = max (stamp ((cur.getD ∅).lookup pod)) (stamp (pods.lookup pod)) := by
  unfold mergePods
  rw [lookup_mergeWith]
  cases pods.lookup pod with
  | none => exact (max_eq_left bot_le).symm
  | some t => exact coe_newer _ t

theorem Block.time_merge (b b' : Block) (model pod : String) :
    Block.time (mergeWith mergePods b b') model pod = max (Block.time b model pod) (Block.time b' model pod) := by
  unfold Block.time
  rw [lookup_mergeWith]
  cases b'.lookup model with
  | none => exact (max_eq_left bot_le).symm
  | some pods =>
    dsimp only [Option.bind_some]
    rw [stamp_mergePods]
    cases b.lookup model <;> rfl

theorem PrefixHashTable.time_applyRemoteForSync {data : codec.Data} (hdc : codec.decode data = some b)
    (t : PrefixHashTable) (hash hash' : UInt64) (model pod : String) :
    (t.applyRemoteForSync codec hash data).time hash' model pod =
      if hash' = hash then max (t.time hash model pod) (Block.time b model pod) else t.time hash' model pod := by
  unfold PrefixHashTable.time PrefixHashTable.applyRemoteForSync
  rw [hdc]
  rw [lookup_insert_eq]
  by_cases hh : hash' = hash
  · subst hh
    rw [if_pos rfl, if_pos rfl]
    cases t.store.lookup hash' with
    | none => exact (max_eq_right bot_le).symm
    | some existing => exact Block.time_merge existing b model pod
  · rw [if_neg hh, if_neg hh]

theorem Block.time_insert (b : Block) (pods : KeyMap String Int) : Block.time (b.insert model pods) model' pod' =
      if model' = model then stamp (pods.lookup pod') else Block.time b model' pod' := by
  unfold Block.time
  rw [lookup_insert_eq]
  split <;> rfl

theorem stamp_lookup_insert (pods : KeyMap String Int) (now : Int) :
    stamp ((pods.insert pod now).lookup pod') = if pod' = pod then (now : WithBot Int) else stamp (pods.lookup pod') := by
  rw [lookup_insert_eq]
  split <;> rfl

def fresh (staleBefore : Int) (accessed : WithBot Int) : WithBot Int :=
  accessed.recBotCoe ⊥ fun a => if a < staleBefore then ⊥ else (a : WithBot Int)

variable (staleBefore : Int)

theorem fresh_bot : fresh staleBefore ⊥ = ⊥ := rfl

theorem fresh_coe (a : Int) :
    fresh staleBefore (a : WithBot Int) = if a < staleBefore then ⊥ else (a : WithBot Int) := rfl

theorem fresh_eq (accessed : WithBot Int) : fresh staleBefore accessed = ⊥ ∨ fresh staleBefore accessed = accessed := by
  induction accessed using WithBot.recBotCoe with
  | bot => exact .inl rfl
  | coe a =>
    exact ite_eq_or_eq _ _ _

theorem fresh_fresh (accessed : WithBot Int) :
    fresh staleBefore (fresh staleBefore accessed) = fresh staleBefore accessed := by
  rcases fresh_eq staleBefore accessed with h | h
  · rw [h, fresh_bot]
  · rw [h, h]

theorem stamp_fresh (accessed : Option Int) (stale : Int) :
    stamp (accessed.bind fun a => if a < stale then none else some a) = fresh stale (stamp accessed) := by
  cases accessed with
  | none => rfl
  | some a =>
    change stamp (if a < stale then none else some a) = if a < stale then ⊥ else (a : WithBot Int)
    split <;> rfl

theorem PrefixHashTable.time_addBlock (ttl : Nat) (now : Int) (t : PrefixHashTable) :
    (t.addBlock ttl now model pod hash).time hash' model' pod' = if hash' = hash ∧ model' = model then
        if pod' = pod then (now : WithBot Int) else fresh (now - ttl) (t.time hash' model' pod')
      else t.time hash' model' pod' := by
  unfold PrefixHashTable.time PrefixHashTable.addBlock
  rw [lookup_insert_eq]
  by_cases hhs : hash' = hash
  · subst hhs
    rw [if_pos rfl]
    cases t.store.lookup hash' with
    | none =>
      rw [Option.elim_some, Block.time_insert, stamp_lookup_insert]
      simp only [true_and]
      rfl
    | some block =>
      rw [Option.elim_some, Option.elim_some, Block.time_insert, stamp_lookup_insert, lookup_filterMap, stamp_fresh]
      by_cases hmd : model' = model
      · subst hmd
        have hpd : stamp (((block.lookup model').getD ∅).lookup pod') = Block.time block model' pod' := by
          unfold Block.time
          cases block.lookup model' <;> rfl
        rw [hpd]
        simp [and_self]
      · simp [hmd]
  · simp [hhs]

theorem PrefixHashTable.time_addPrefix (ttl : Nat) (now : Int) (hashes : List UInt64) (t : PrefixHashTable) :
    (t.addPrefix ttl now hashes model pod).time hash' model' pod' = if hash' ∈ hashes ∧ model' = model then
        if pod' = pod then (now : WithBot Int) else fresh (now - ttl) (t.time hash' model' pod')
      else t.time hash' model' pod' := by
  unfold PrefixHashTable.addPrefix
  induction hashes generalizing t with
  | nil => simp
  | cons hash hashes ih =>
    rw [List.foldl_cons, ih, PrefixHashTable.time_addBlock]
    by_cases hhs : hash' = hash
    · by_cases hmd : model' = model
      · by_cases hpod : pod' = pod
        · simp [hhs, hmd, hpod]
        · simp [hhs, hmd, hpod, fresh_fresh]
      · simp [hmd]
    · simp [hhs]

/-! ## Changed blocks -/

namespace PrefixHashTable

structure Ok (t : PrefixHashTable) : Prop where
  delta : t.deltaSeq ≤ t.dirtySeq
  dirty : ∀ hash seq, t.dirtyIds.lookup hash = some seq → seq ≤ t.dirtySeq ∧ (t.store.lookup hash).isSome = true

theorem Ok.new : Ok {} := ⟨le_rfl, by simp⟩

theorem Ok.addBlock (h : t.Ok) (ttl : Nat) (now : Int) : (t.addBlock ttl now model pod hash).Ok := by
  refine ⟨h.delta.trans (Nat.le_succ _), fun hash' seq hseq => ?_⟩
  unfold PrefixHashTable.addBlock at hseq ⊢
  rw [lookup_insert_eq] at hseq ⊢
  split at hseq
  · rename_i heq
    rw [if_pos heq]
    exact ⟨(Option.some.inj hseq).ge, rfl⟩
  · rename_i hne
    rw [if_neg hne]
    exact ⟨(h.dirty hash' seq hseq).1.trans (Nat.le_succ _), (h.dirty hash' seq hseq).2⟩

structure Added (t : PrefixHashTable) (hashes : List UInt64) (t' : PrefixHashTable) : Prop where
  ok : t'.Ok
  deltaSeq : t'.deltaSeq = t.deltaSeq
  dirty : ∀ hash ∈ hashes, ∃ seq, t'.dirtyIds.lookup hash = some seq ∧ t.dirtySeq < seq
  others : ∀ hash ∉ hashes, t'.dirtyIds.lookup hash = t.dirtyIds.lookup hash

theorem Ok.addPrefix (h : t.Ok) (ttl : Nat) (now : Int) (hashes : List UInt64) (model pod : String) :
    Added t hashes (t.addPrefix ttl now hashes model pod) := by
  unfold PrefixHashTable.addPrefix
  induction hashes generalizing t with
  | nil => exact ⟨h, rfl, by simp, fun _ _ => rfl⟩
  | cons hash hashes ih =>
    have hrs : Added (t.addBlock ttl now model pod hash) hashes _ := ih (h.addBlock ttl now)
    have hlk : ∀ hash', (t.addBlock ttl now model pod hash).dirtyIds.lookup hash' =
        if hash' = hash then some (t.dirtySeq + 1) else t.dirtyIds.lookup hash' :=
      fun hash' => lookup_insert_eq _ _
    rw [List.foldl_cons]
    refine ⟨hrs.ok, hrs.deltaSeq, fun hash' hmem => ?_, fun hash' hnot => ?_⟩
    · by_cases hin : hash' ∈ hashes
      · obtain ⟨seq, hseq, hlt⟩ := hrs.dirty hash' hin
        exact ⟨seq, hseq, (Nat.lt_succ_self _).trans hlt⟩
      · rw [hrs.others hash' hin, hlk, if_pos ((List.mem_cons.1 hmem).resolve_right hin)]
        exact ⟨_, rfl, Nat.lt_succ_self _⟩
    · rw [List.mem_cons, not_or] at hnot
      rw [hrs.others hash' hnot.2, hlk, if_neg hnot.1]

theorem Ok.copyDirty (h : t.Ok) : t.copyDirty.1.Ok := ⟨le_rfl, h.dirty⟩

theorem Ok.getDeltaForSync (h : t.Ok) (codec : Codec) : (t.getDeltaForSync codec).1.Ok := h.copyDirty

theorem lookup_copyDirty (t : PrefixHashTable) (hash : UInt64) :
    t.copyDirty.2.lookup hash = (t.dirtyIds.lookup hash).bind fun _ => t.store.lookup hash :=
  lookup_filterMap _

theorem lookup_encodeAll (work : KeyMap UInt64 Block) (hash : UInt64) :
    (encodeAll codec work).lookup hash = (work.lookup hash).map codec.encode := by
  unfold encodeAll
  rw [lookup_filterMap]
  cases work.lookup hash <;> rfl

theorem lookup_getDeltaForSync (t : PrefixHashTable) (hash : UInt64) : (t.getDeltaForSync codec).2.lookup hash =
      (t.dirtyIds.lookup hash).bind fun _ => (t.store.lookup hash).map codec.encode := by
  unfold getDeltaForSync
  rw [lookup_encodeAll, lookup_copyDirty]
  cases t.dirtyIds.lookup hash <;> rfl

theorem lookup_clearDirtyForSync {seq : Nat} :
    t.clearDirtyForSync.dirtyIds.lookup hash = some seq ↔ t.dirtyIds.lookup hash = some seq ∧ t.deltaSeq < seq := by
  unfold clearDirtyForSync
  rw [lookup_filterMap, Option.bind_eq_some_iff]
  constructor
  · rintro ⟨seq', hseq', hkp⟩
    split at hkp
    · cases hkp
    · cases hkp
      exact ⟨hseq', not_le.1 ‹_›⟩
  · rintro ⟨hseq, hlt⟩
    exact ⟨seq, hseq, if_neg hlt.not_ge⟩

theorem Ok.clearDirtyForSync (h : t.Ok) : t.clearDirtyForSync.Ok :=
  ⟨h.delta, fun hash seq hseq => h.dirty hash seq (lookup_clearDirtyForSync.1 hseq).1⟩

theorem applyRemoteForSync_frame (t : PrefixHashTable) (hash : UInt64) (data : codec.Data) :
    let r := t.applyRemoteForSync codec hash data
    r.dirtyIds = t.dirtyIds ∧ r.dirtySeq = t.dirtySeq ∧ r.deltaSeq = t.deltaSeq := by
  unfold applyRemoteForSync
  split <;> exact ⟨rfl, rfl, rfl⟩

theorem Ok.applyRemoteForSync (h : t.Ok) (hash : UInt64) (data : codec.Data) :
    (t.applyRemoteForSync codec hash data).Ok := by
  obtain ⟨hdr, hseq, hdl⟩ := applyRemoteForSync_frame t hash data
  refine ⟨by rw [hdl, hseq]; exact h.delta, fun hash' seq hlk => ?_⟩
  rw [hdr] at hlk
  rw [hseq]
  refine ⟨(h.dirty hash' seq hlk).1, ?_⟩
  unfold PrefixHashTable.applyRemoteForSync
  split
  · exact (h.dirty hash' seq hlk).2
  rw [lookup_insert_eq]
  split
  · rfl
  · exact (h.dirty hash' seq hlk).2

end PrefixHashTable

end Aibrix.StateSync
