import Aibrix.StateSync.Wire

/-! # Delta tracking

What one replica's push clears while blocks are added and merged in. -/

namespace Aibrix.StateSync

open Lib KeyMap List Option PrefixHashTable

variable {codec : Codec} {t : PrefixHashTable}

/-- The copies of a delta, with the store that they were made from. -/
structure Delta where
  takenAt : Nat
  work : KeyMap UInt64 Block
  read : KeyMap UInt64 Block

def Delta.updated (codec : Codec) (d : Delta) : KeyMap UInt64 codec.Data := encodeAll codec d.work

def Delta.Decodes (codec : Codec) (d : Delta) : Prop :=
  ∀ hash data, (d.updated codec).lookup hash = some data →
    ∃ b b', d.read.lookup hash = some b ∧ codec.decode data = some b' ∧ Block.Same b' b

/-- Where `pushDelta` is: with the copies in hand and the lock given back, writing the entities that are left, or done
with all of them. -/
inductive PushPhase where
  | idle
  | copied (delta : Delta)
  | writing (delta : Delta) (left : List UInt64)
  | written (delta : Delta)

def PushPhase.delta? : PushPhase → Option Delta
  | .idle => none
  | .copied delta => some delta
  | .writing delta _ => some delta
  | .written delta => some delta

structure Pusher (codec : Codec) where
  table : PrefixHashTable := {}
  phase : PushPhase := .idle
  redis : KeyMap UInt64 codec.Data := ∅
  -- The rest is history, which no step reads.
  clock : Nat := 0
  lastAdd : UInt64 → Option Nat := fun _ => none
  taken : List Delta := []
  acked : List Delta := []

inductive PushEvent (codec : Codec) where
  | addPrefix (now : Int) (prefixHashes : List UInt64) (model pod : String)
  | applyRemoteForSync (hash : UInt64) (data : codec.Data)
  /-- The locked part of `GetDeltaForSync`. -/
  | copyDirty
  | encode
  /-- One entity of the delta is written. -/
  | setex (hash : UInt64)
  /-- The push is given up, whatever has been written. -/
  | fail
  /-- Every entity is written, and Redis has said so. -/
  | succeed
  | clearDirtyForSync

namespace Pusher

variable (evictionDuration : Nat)

/-- An event that cannot happen changes nothing. -/
def step (p : Pusher codec) : PushEvent codec → Pusher codec
  | .addPrefix now prefixHashes model pod =>
    { p with
      table := p.table.addPrefix evictionDuration now prefixHashes model pod
      clock := p.clock + 1
      lastAdd := fun hash => if hash ∈ prefixHashes then some p.clock else p.lastAdd hash }
  | .applyRemoteForSync hash data => { p with table := p.table.applyRemoteForSync codec hash data }
  | .copyDirty =>
    match p.phase with
    | .idle =>
      let r := p.table.copyDirty
      let delta := { takenAt := p.clock, work := r.2, read := p.table.store }
      { p with
        table := r.1
        -- An empty delta ends the push.
        phase := if r.2.keys = [] then .idle else .copied delta
        clock := p.clock + 1
        taken := delta :: p.taken }
    | _ => p
  | .encode =>
    match p.phase with
    | .copied delta => { p with phase := .writing delta (delta.updated codec).keys }
    | _ => p
  | .setex hash =>
    match p.phase with
    | .writing delta left =>
      match (delta.updated codec).lookup hash with
      | some data =>
        if hash ∈ left then
          { p with phase := .writing delta (left.erase hash), redis := p.redis.insert hash data }
        else p
      | none => p
    | _ => p
  | .fail =>
    match p.phase with
    | .copied _ => { p with phase := .idle }
    | .writing _ _ => { p with phase := .idle }
    | _ => p
  | .succeed =>
    match p.phase with
    | .writing delta [] => { p with phase := .written delta, acked := delta :: p.acked }
    | _ => p
  | .clearDirtyForSync =>
    match p.phase with
    | .written _ => { p with phase := .idle, table := p.table.clearDirtyForSync }
    | _ => p

variable (events : List (PushEvent codec))

def run : Pusher codec := events.foldl (step evictionDuration) {}

/-- The delta was read after the last addition of the block, and has the block. -/
def HasLastAdd (codec : Codec) (d : Delta) (hash : UInt64) (added : Nat) : Prop :=
  added < d.takenAt ∧ ((d.updated codec).lookup hash).isSome = true

/-- A block that the next clearing will clear is in the delta, as it was last added. -/
def Covers (p : Pusher codec) (d : Delta) : Prop :=
  ∀ hash seq, p.table.dirtyIds.lookup hash = some seq → seq ≤ p.table.deltaSeq →
    ((d.updated codec).lookup hash).isSome = true ∧ ∀ added, p.lastAdd hash = some added → added < d.takenAt

structure Inv (p : Pusher codec) : Prop where
  ok : p.table.Ok
  past : ∀ hash added, p.lastAdd hash = some added → added < p.clock
  safe : ∀ hash added, p.lastAdd hash = some added →
    (p.table.dirtyIds.lookup hash).isSome = true ∨ ∃ d ∈ p.acked, HasLastAdd codec d hash added
  covers : ∀ d, p.phase.delta? = some d → p.Covers d ∧ d ∈ p.taken
  written : ∀ d, p.phase = .written d → d ∈ p.acked
  decodes : ∀ d ∈ p.taken, d.Decodes codec
  acked : ∀ d ∈ p.acked, d ∈ p.taken
  redis : ∀ hash data, p.redis.lookup hash = some data → ∃ d ∈ p.taken, (d.updated codec).lookup hash = some data

variable {evictionDuration} {p : Pusher codec}

theorem Inv.init : Inv ({} : Pusher codec) where
  ok := .new
  past := by simp
  safe := by simp
  covers := by simp [PushPhase.delta?]
  written := by simp
  decodes := by simp
  acked := by simp
  redis := by simp

section

variable (h : p.Inv)
include h

theorem Inv.addPrefix (now : Int) (hashes : List UInt64) (model pod : String) :
    (p.step evictionDuration (.addPrefix now hashes model pod)).Inv := by
  have had := h.ok.addPrefix evictionDuration now hashes model pod
  unfold step
  refine { ok := had.ok, past := ?_, safe := ?_, covers := ?_, written := h.written, decodes := h.decodes,
           acked := h.acked, redis := h.redis }
  · intro hash added hls
    dsimp only at hls ⊢
    split at hls
    · cases hls
      omega
    · exact (h.past hash added hls).trans (Nat.lt_succ_self _)
  · intro hash added hls
    dsimp only at hls ⊢
    split at hls
    · rename_i hin
      obtain ⟨seq, hseq, -⟩ := had.dirty hash hin
      left
      rw [hseq]
      rfl
    · rename_i hin
      rw [had.others hash hin]
      exact h.safe hash added hls
  · intro d hd
    obtain ⟨hcv, htk⟩ := h.covers d hd
    refine ⟨fun hash seq hseq hle => ?_, htk⟩
    dsimp only at hseq hle ⊢
    rw [had.deltaSeq] at hle
    by_cases hin : hash ∈ hashes
    · -- The block has changed after the delta was read, and stays.
      obtain ⟨seq', hseq', hlt⟩ := had.dirty hash hin
      rw [hseq', some.injEq] at hseq
      have := h.ok.delta
      omega
    · rw [had.others hash hin] at hseq
      rw [if_neg hin]
      exact hcv hash seq hseq hle

open PrefixHashTable

theorem Inv.applyRemoteForSync (hash : UInt64) (data : codec.Data) :
    (p.step evictionDuration (.applyRemoteForSync hash data)).Inv := by
  obtain ⟨hdr, -, hdl⟩ := applyRemoteForSync_frame p.table hash data
  refine { ok := h.ok.applyRemoteForSync hash data, past := h.past, safe := ?_, covers := ?_, written := h.written,
           decodes := h.decodes, acked := h.acked, redis := h.redis }
  · simp only [step, hdr]
    exact h.safe
  intro d hd
  refine ⟨?_, (h.covers d hd).2⟩
  have hcv := (h.covers d hd).1
  unfold Covers at hcv ⊢
  simp only [step, hdr, hdl]
  exact hcv

omit h in
theorem decodes_copyDirty (t : PrefixHashTable) (clock : Nat) :
    Delta.Decodes codec { takenAt := clock, work := t.copyDirty.2, read := t.store } := by
  intro hash data hdata
  unfold Delta.updated at hdata
  rw [lookup_encodeAll, lookup_copyDirty] at hdata
  obtain ⟨b, hb, rfl⟩ := map_eq_some_iff.1 hdata
  obtain ⟨seq, -, hstore⟩ := bind_eq_some_iff.1 hb
  obtain ⟨b', hdecoded, hsame⟩ := codec.round b
  exact ⟨b, b', hstore, hdecoded, hsame⟩

theorem Inv.copyDirty : (p.step evictionDuration .copyDirty).Inv := by
  dsimp only [step]
  split
  · have hcovers : Covers { p with table := p.table.copyDirty.1, clock := p.clock + 1 }
        { takenAt := p.clock, work := p.table.copyDirty.2, read := p.table.store } := by
      intro hash seq hseq _
      have hseq' : p.table.dirtyIds.lookup hash = some seq := hseq
      obtain ⟨block, hblock⟩ := isSome_iff_exists.1 (h.ok.dirty hash seq hseq').2
      refine ⟨?_, h.past hash⟩
      unfold Delta.updated
      rw [lookup_encodeAll, lookup_copyDirty, hseq', Option.bind_some, hblock]
      rfl
    refine { ok := h.ok.copyDirty, past := ?_, safe := h.safe, covers := ?_, written := ?_, decodes := ?_,
             acked := fun d hd => mem_cons_of_mem _ (h.acked d hd), redis := ?_ }
    · exact fun hash added hlast => (h.past hash added hlast).trans (Nat.lt_succ_self _)
    · intro d hd
      split at hd
      · cases hd
      · cases hd
        exact ⟨hcovers, mem_cons_self ..⟩
    · intro d hd
      split at hd <;> cases hd
    · intro d hd
      rcases mem_cons.1 hd with rfl | hd
      · exact decodes_copyDirty p.table p.clock
      · exact h.decodes d hd
    · intro hash data hdata
      obtain ⟨d, hd, hlookup⟩ := h.redis hash data hdata
      exact ⟨d, mem_cons_of_mem _ hd, hlookup⟩
  · exact h

theorem Inv.encode : (p.step evictionDuration .encode).Inv := by
  dsimp only [step]
  split
  · rename_i delta hphase
    refine { h with covers := fun d hd => ?_, written := by simp }
    cases hd
    exact h.covers delta (by rw [hphase]; rfl)
  · exact h

theorem Inv.setex (hash : UInt64) : (p.step evictionDuration (.setex hash)).Inv := by
  dsimp only [step]
  split
  · rename_i delta left hph
    have hcv := h.covers delta (by rw [hph]; rfl)
    split
    · rename_i data hdt
      split
      · refine { ok := h.ok, past := h.past, safe := h.safe, covers := ?_, written := by simp, decodes := h.decodes,
                 acked := h.acked, redis := ?_ }
        · intro d hd
          cases hd
          exact hcv
        intro hash' data' hlk
        rw [KeyMap.lookup_insert_eq] at hlk
        split at hlk
        · rename_i heq
          cases hlk
          exact ⟨delta, hcv.2, heq ▸ hdt⟩
        · exact h.redis hash' data' hlk
      · exact h
    · exact h
  · exact h

theorem Inv.fail : (p.step evictionDuration .fail).Inv := by
  dsimp only [step]
  split
  · exact { h with covers := by simp [PushPhase.delta?], written := by simp }
  · exact { h with covers := by simp [PushPhase.delta?], written := by simp }
  · exact h

theorem Inv.succeed : (p.step evictionDuration .succeed).Inv := by
  dsimp only [step]
  split
  · rename_i delta hph
    have hcv := h.covers delta (by rw [hph]; rfl)
    refine { ok := h.ok, past := h.past, safe := ?_, covers := ?_, written := ?_, decodes := h.decodes, acked := ?_,
             redis := h.redis }
    · intro hash added hls
      apply (h.safe hash added hls).imp_right
      rintro ⟨d, hd, hhas⟩
      exact ⟨d, mem_cons_of_mem _ hd, hhas⟩
    · intro d hd
      cases hd
      exact hcv
    · intro d hd
      cases hd
      exact mem_cons_self ..
    · intro d hd
      rcases mem_cons.1 hd with rfl | hd
      · exact hcv.2
      · exact h.acked d hd
  · exact h

theorem Inv.clearDirtyForSync : (p.step evictionDuration .clearDirtyForSync).Inv := by
  dsimp only [step]
  split
  · rename_i delta hph
    have hcv := (h.covers delta (by rw [hph]; rfl)).1
    have hac := h.written delta hph
    refine { h with ok := h.ok.clearDirtyForSync, safe := ?_, covers := by simp [PushPhase.delta?], written := by simp }
    intro hash added hls
    rcases h.safe hash added hls with hdr | hps
    · obtain ⟨seq, hseq⟩ := isSome_iff_exists.1 hdr
      by_cases hle : seq ≤ p.table.deltaSeq
      · obtain ⟨hup, htk⟩ := hcv hash seq hseq hle
        exact .inr ⟨delta, hac, htk added hls, hup⟩
      · left
        rw [lookup_clearDirtyForSync.2 ⟨hseq, not_le.1 hle⟩]
        rfl
    · exact .inr hps
  · exact h

theorem Inv.step (event : PushEvent codec) : (p.step evictionDuration event).Inv := by
  cases event with
  | addPrefix now prefixHashes model pod => exact h.addPrefix now prefixHashes model pod
  | applyRemoteForSync hash data => exact h.applyRemoteForSync hash data
  | copyDirty => exact h.copyDirty
  | encode => exact h.encode
  | setex hash => exact h.setex hash
  | fail => exact h.fail
  | succeed => exact h.succeed
  | clearDirtyForSync => exact h.clearDirtyForSync

end

theorem inv_run : (run evictionDuration events).Inv :=
  foldlRecOn events _ Inv.init fun _ h event _ => h.step event

/-- A block stays dirty until its last addition is in a delta that was pushed, and pushed bytes decode to what was read. -/
theorem no_change_lost (events : List (PushEvent json)) :
    let p := run evictionDuration events
    (∀ hash added, p.lastAdd hash = some added →
      (∃ d ∈ p.acked, HasLastAdd json d hash added) ∨ (p.table.dirtyIds.lookup hash).isSome = true) ∧
    (∀ d ∈ p.taken, d.Decodes json) ∧ (∀ d ∈ p.acked, d ∈ p.taken) ∧
    ∀ hash data, p.redis.lookup hash = some data → ∃ d ∈ p.taken, (d.updated json).lookup hash = some data :=
  have h := inv_run events
  ⟨fun hash added hlast => (h.safe hash added hlast).symm, h.decodes, h.acked, h.redis⟩

end Pusher

end Aibrix.StateSync
