import Aibrix.SyncHash.IndexInvariant

/-! # The block index in concurrent runs

A context that a call holds between its steps is in the map or marked, since only an eviction takes it out. -/

namespace Aibrix.SyncHash

open Lib List Multiset Option Cmd Live ContextData KeyMap

variable {c : Config}

def Cmd.holds : Cmd → Option Ref
  | .enter ref _ | .checkRemoval ref .. | .remove ref .. | .prune ref _ | .readBlockSize ref .. | .checkMatch ref ..
  | .matchLocked ref .. => some ref
  | _ => none

def Cmd.isCount : Cmd → Bool
  | .count => true
  | _ => false

def Cmd.isEvict : Cmd → Bool
  | .evict => true
  | _ => false

def Cmd.drops (s : Live) : Cmd → Option (Ref × List Int)
  | .remove ref blockHashes event => some (ref, (s.removal ref blockHashes event).2)
  | .prune ref podName => some (ref, ((s.table.get ref).prunePod podName).2)
  | _ => none

def Harmless (s : Live) (command : Cmd) : Prop :=
  match command.drops s with
  | none => True
  | some (ref, blockHashes) =>
    match s.table.contextMap.lookup ref.1 with
    | none => True
    | some number => number = ref.2 ∨ ∀ blockHash ∈ blockHashes,
      (s.table.data ref.1 number).engineToAibrix.lookup blockHash = none

instance (s : Live) (command : Cmd) : Decidable (Harmless s command) := by
  unfold Harmless
  split
  · infer_instance
  · split <;> infer_instance

def harmlessSystem (c : Config) : System Live Cmd where
  exec := Live.exec c
  program commands := isProgram commands
  allowed s _ command := Allowed s command ∧ Harmless s command

instance (c : Config) : DecidablePred (harmlessSystem c).program :=
  fun commands => inferInstanceAs (Decidable (isProgram commands = true))

instance (c : Config) (s : Live) (M : Multiset Cmd) (command : Cmd) :
    Decidable ((harmlessSystem c).allowed s M command) :=
  inferInstanceAs (Decidable (Allowed s command ∧ Harmless s command))

namespace Live

def phase (s : Live) : Option Phase := s.eviction.map Eviction.phase

def Held (s : Live) (ref : Ref) : Prop := ref.2 < s.table.created ∧ (s.table.Current ref ∨ s.table.Marked ref)

structure Ok (s : Live) (M : Multiset Cmd) : Prop where
  table : s.table.Ok s.phase
  limitKeys : ∀ e ∈ s.eviction, e.limitKeys.Nodup
  held : ∀ command ∈ M, ∀ ref ∈ command.holds, s.Held ref
  counted : s.table.balance s.phase + M.countP (Cmd.isCount ·) = 0
  running : s.eviction ≠ none → ∃ command ∈ M, command.isEvict = true

variable {s s' : Live} {M : Multiset Cmd} {command : Cmd} {next : List Cmd}

theorem Ok.advance (h : s.Ok (command ::ₘ M)) (htb : s'.table.Ok s'.phase)
    (hlm : ∀ e ∈ s'.eviction, e.limitKeys.Nodup) (hfr : s.table.Forward s'.table)
    (hhl : ∀ command' ∈ next, ∀ ref ∈ command'.holds, s'.Held ref)
    (hcn : s'.table.balance s'.phase + next.countP isCount = s.table.balance s.phase + if command.isCount then 1 else 0)
    (hrn : s'.eviction ≠ none → (∃ command' ∈ next, command'.isEvict = true) ∨
      (s.eviction ≠ none ∧ command.isEvict = false)) : s'.Ok (↑next + M) := by
  refine ⟨htb, hlm, fun command' hmem ref href => ?_, ?_, fun hsm => ?_⟩
  · rcases mem_add.1 hmem with hmem | hmem
    · exact hhl command' hmem ref href
    · obtain ⟨hlt, hor⟩ := h.held command' (mem_cons_of_mem hmem) ref href
      exact ⟨hlt.trans_le hfr.created, hfr.held hlt hor⟩
  · have hnx : (↑next : Multiset Cmd).countP (isCount ·) = next.countP isCount := by
      simp [coe_countP]
    have hold := h.counted
    rw [Multiset.countP_cons] at hold
    rw [countP_add]
    cases hct : command.isCount <;> simp only [hct, if_true, if_false, Bool.false_eq_true] at hold hcn <;>
      push_cast at hold ⊢ <;> omega
  · rcases hrn hsm with ⟨command', hmem, hev⟩ | ⟨hsm, hnot⟩
    · exact ⟨command', mem_add.2 (.inl hmem), hev⟩
    obtain ⟨command', hmem, hev⟩ := h.running hsm
    rcases mem_cons.1 hmem with rfl | hmem
    · simp [hnot] at hev
    · exact ⟨command', mem_add.2 (.inr hmem), hev⟩

theorem Ok.holds (h : s.Ok (command ::ₘ M)) {ref : Ref} (href : command.holds = some ref) : s.Held ref :=
  h.held command (mem_cons_self _ _) ref href

theorem Ok.lookup (h : s.Ok M) {ctx : ModelContext} {number : Nat}
    (hlk : s.table.contextMap.lookup ctx = some number) : s.Held (ctx, number) :=
  ⟨h.table.numbered (show s.table.Current (ctx, number) from hlk), .inl hlk⟩

/-- Whether a step is neither of the two that the invariant counts. -/
def plain (command : Cmd) : Bool := !command.isCount && !command.isEvict

section

variable (h : s.Ok (command ::ₘ M))
include h

section

variable (hpl : plain command = true)
include hpl

theorem Ok.pending
    (hnx : ∀ command' ∈ next, plain command' = true ∧ ∀ ref ∈ command'.holds, s.Held ref) : s.Ok (↑next + M) := by
  simp only [plain, Bool.and_eq_true, Bool.not_eq_true'] at hpl hnx
  refine h.advance h.table h.limitKeys (.refl _) (fun command' hmem => (hnx command' hmem).2) ?_
    fun hsm => .inr ⟨hsm, hpl.2⟩
  have hnn : next.countP isCount = 0 := by
    rw [countP_eq_zero]
    intro command' hmem
    simp [(hnx command' hmem).1.1]
  simp [hpl.1, hnn]

theorem Ok.return : s.Ok (↑([] : List Cmd) + M) :=
  h.pending hpl (by simp)

theorem Ok.continue {command' : Cmd}
    (hpl' : plain command' = true) (hhl : ∀ ref ∈ command'.holds, s.Held ref) : s.Ok (↑[command'] + M) :=
  h.pending hpl (forall_mem_singleton.2 ⟨hpl', hhl⟩)

theorem Ok.continueWith {command' : Cmd} {ref : Ref}
    (hpl' : plain command' = true) (hhl : command'.holds = some ref) (hhd : s.Held ref) : s.Ok (↑[command'] + M) := by
  apply h.continue hpl hpl'
  rw [hhl]
  rintro _ ⟨⟩
  exact hhd

theorem Ok.withContext (ctx : ModelContext) {resume : Ref → Cmd} (hpl' : ∀ ref, plain (resume ref) = true)
    (hhl : ∀ ref, (resume ref).holds = some ref) : s.Ok (↑(s.withContext ctx resume) + M) := by
  unfold Live.withContext
  split
  · rename_i number hlk
    exact h.continueWith hpl (hpl' _) (hhl _) (h.lookup hlk)
  · exact h.return hpl

theorem Ok.leave {table : Table}
    (htb : table.Ok s.phase) (hfr : s.table.Forward table) (hbl : table.balance s.phase = s.table.balance s.phase) :
    Ok { s with table } (↑([] : List Cmd) + M) := by
  simp only [plain, Bool.and_eq_true, Bool.not_eq_true'] at hpl
  refine h.advance htb h.limitKeys hfr (by simp) ?_ fun hsm => .inr ⟨hsm, hpl.2⟩
  rw [hpl.1]
  exact congrArg (· + 0) hbl

end

end

/-! ## One step -/

theorem Ok.use (h : s.Ok M) {ref : Ref} (hhl : s.Held ref) (use : Use) :
    (s.use c ref use).Ok s.phase ∧ s.table.Forward (s.use c ref use) := by
  cases use with
  | store event =>
    have hmr := (s.table.get ref).storeBlocks_markedForEviction (c := c) s.clock event
    refine ⟨h.table.leave_add hhl.2 hmr (fun hmk => ?_) fun _ => mem_storeBlocks s.clock event, .leave true hmr⟩
    rw [storeBlocks_of_marked s.clock event hmk]
  | add podName medium prefixHashes => exact ⟨h.table.put rfl rfl, .leave false (r := (_, [])) rfl⟩

theorem Ok.loadOrStore {ctx : ModelContext} {use : Use} (h : s.Ok (.loadOrStore ctx use ::ₘ M))
    (hnn : s.table.contextMap.lookup ctx = none) :
    Ok { s with table := s.table.create s.clock ctx } (↑[Cmd.count, .enter (ctx, s.table.created) use] + M) := by
  refine h.advance (h.table.create s.clock hnn) h.limitKeys (.create s.clock ctx hnn) ?_ ?_ fun hsm => .inr ⟨hsm, rfl⟩
  · simp only [List.mem_cons, List.not_mem_nil, or_false]
    rintro command' (rfl | rfl) ref href
    · cases href
    · cases href
      refine ⟨Nat.lt_succ_self _, .inl ((Table.current_create s.clock ctx _).2 ?_)⟩
      rw [if_pos rfl]
  · have hsz : size (s.table.create s.clock ctx).contextMap = size s.table.contextMap + 1 :=
      size_insert_of_lookup_eq_none _ hnn
    change (s.table.create s.clock ctx).balance s.phase + 1 = _
    simp only [Table.balance, Cmd.isCount]
    have hcn : (s.table.create s.clock ctx).contextCount = s.table.contextCount := rfl
    simp only [Bool.false_eq_true, if_false]
    omega

/-- The condition is what the section needs when its context is not the one in the map. -/
theorem Harmless.of_drops {ref : Ref} {blockHashes : List Int} (h : Harmless s command)
    (hdr : command.drops s = some (ref, blockHashes)) {number : Nat} (hcur : s.table.Current (ref.1, number))
    (hne : number ≠ ref.2) : ∀ blockHash ∈ blockHashes, ¬ s.table.Maps (ref.1, number) blockHash := by
  rw [Harmless, hdr] at h
  have hlk : s.table.contextMap.lookup ref.1 = some number := hcur
  simp only [hlk] at h
  intro blockHash hmem hmp
  have hnn := h.resolve_left hne blockHash hmem
  exact AList.lookup_eq_none.1 hnn hmp

theorem Ok.performEviction {scanKeys limitKeys expiryKeys : List ModelContext}
    (h : s.Ok (.performEviction scanKeys limitKeys expiryKeys ::ₘ M)) (hnn : s.eviction = none)
    (hsc : scanKeys.Nodup) (hlm : limitKeys.Nodup) (expiredBefore : Int) :
    Ok { s with eviction := some ⟨expiredBefore, limitKeys, expiryKeys, .scan scanKeys []⟩ } (↑[Cmd.evict] + M) := by
  have htb : s.table.Ok none := by simpa [phase, hnn] using h.table
  refine h.advance ?_ ?_ (.refl _) ?_ ?_ fun _ => .inl ⟨.evict, List.mem_singleton_self _, rfl⟩
  · refine ⟨htb.nodup, htb.indexed, htb.mapped, htb.numbered, fun hcur hmr => ?_, ?_⟩
    · obtain ⟨_, hph, _⟩ := htb.marked hcur hmr
      cases hph
    · rintro _ ⟨⟩
      exact .of_empty rfl hsc
  · rintro _ ⟨⟩
    exact hlm
  · simp only [List.mem_singleton]
    rintro _ rfl _ ⟨⟩
  · simp [phase, hnn, Table.balance, Phase.uncounted, Cmd.isCount]

theorem Ok.evict {e : Eviction} (h : s.Ok (.evict ::ₘ M)) (hsm : s.eviction = some e) :
    (exec c .evict s).1.Ok (↑(exec c .evict s).2 + M) := by
  have htb : s.table.Ok (some e.phase) := by simpa [phase, hsm] using h.table
  obtain ⟨hok, hfr, hbl⟩ := htb.step (c := c) (h.limitKeys e hsm)
  have hph : s.phase = some e.phase := by rw [phase, hsm, map_some]
  simp only [exec, hsm]
  split
  · rename_i table phase' hst
    rw [hst] at hok hfr hbl
    refine h.advance hok ?_ hfr ?_ ?_ fun _ => .inl ⟨.evict, List.mem_singleton_self _, rfl⟩
    · rintro _ ⟨⟩
      exact h.limitKeys e hsm
    · simp only [List.mem_singleton]
      rintro _ rfl _ ⟨⟩
    · change table.balance (some phase') + 0 = s.table.balance s.phase + 0
      rw [hph, hbl]
  · rename_i table hst
    rw [hst] at hok hfr hbl
    refine h.advance hok (by simp) hfr (by simp) ?_ (by simp)
    change table.balance none + 0 = s.table.balance s.phase + 0
    rw [hph, hbl]

theorem Ok.exec (h : s.Ok (command ::ₘ M)) (hal : Allowed s command) (hhr : Harmless s command) :
    (exec c command s).1.Ok (↑(exec c command s).2 + M) := by
  cases command with
  | setClock now =>
    exact h.advance h.table h.limitKeys (.refl _) (by simp [exec]) rfl fun hsm => .inr ⟨hsm, rfl⟩
  | processBlockStored event =>
    simp only [exec]
    split
    · exact h.return rfl
    · exact h.continue rfl rfl (by simp [Cmd.holds])
  | addPrefixWithMedium => exact h.continue rfl rfl (by simp [Cmd.holds])
  | load ctx use =>
    simp only [exec]
    split
    · exact h.continueWith rfl rfl rfl (h.lookup ‹_›)
    · exact h.continue rfl rfl (by simp [Cmd.holds])
  | loadOrStore ctx use =>
    simp only [exec]
    split
    · exact h.continueWith rfl rfl rfl (h.lookup ‹_›)
    · exact h.loadOrStore ‹_›
  | count =>
    refine h.advance (h.table.frame rfl rfl rfl rfl) h.limitKeys (.of_marked rfl rfl fun _ => id) (by simp [exec])
      ?_ fun hsm => .inr ⟨hsm, rfl⟩
    change s.table.contextCount + 1 - size s.table.contextMap - s.phase.elim 0 Phase.uncounted + 0 =
      s.table.balance s.phase + 1
    rw [Table.balance]
    omega
  | enter ref use =>
    obtain ⟨hok, hfr⟩ := h.use (c := c) (h.holds rfl) use
    exact h.leave rfl hok hfr (by cases use <;> rfl)
  | processBlockRemoved event contexts =>
    exact h.pending rfl (List.forall_mem_map.2 fun ctx _ => ⟨rfl, by simp [Cmd.holds]⟩)
  | loadRemoval ctx blockHashes event =>
    simp only [exec]
    exact h.withContext rfl ctx (fun _ => rfl) fun _ => rfl
  | checkRemoval ref blockHashes event =>
    simp only [exec]
    split
    · exact h.return rfl
    · exact h.continueWith rfl rfl rfl (h.holds rfl)
  | remove ref blockHashes event =>
    have hmr := (s.table.get ref).removeBlocks_markedForEviction s.clock blockHashes event
    refine h.leave rfl (h.table.leave_drop hmr (fun _ => ContextData.mem_removeBlocks s.clock blockHashes event) ?_)
      (.leave false hmr) rfl
    exact Harmless.of_drops hhr rfl
  | removePrefix modelName podName keys =>
    exact h.pending rfl (List.forall_mem_map.2 fun ctx _ => ⟨rfl, by simp [Cmd.holds]⟩)
  | visit ctx podName =>
    simp only [exec]
    exact h.withContext rfl ctx (fun _ => rfl) fun _ => rfl
  | prune ref podName =>
    refine h.leave rfl (h.table.leave_drop rfl (fun _ => (mem_eraseAll _)) ?_) (.leave false rfl) rfl
    exact Harmless.of_drops hhr rfl
  | matchPrefix ctx tokens readyPods =>
    simp only [exec]
    exact h.withContext rfl ctx (fun _ => rfl) fun _ => rfl
  | readBlockSize ref tokens readyPods => exact h.continueWith rfl rfl rfl (h.holds rfl)
  | checkMatch ref hashes readyPods =>
    simp only [exec]
    split
    · exact h.return rfl
    · exact h.continueWith rfl rfl rfl (h.holds rfl)
  | matchLocked ref hashes readyPods =>
    exact h.leave rfl (h.table.put rfl rfl) (.leave false (r := (_, [])) rfl) rfl
  | checkNeeded scanKeys limitKeys expiryKeys =>
    simp only [exec]
    split
    · exact h.advance (h.table.frame rfl rfl rfl rfl) h.limitKeys (.of_marked rfl rfl fun _ => id)
        (by simp [Cmd.holds]) rfl fun hsm => .inr ⟨hsm, rfl⟩
    · exact h.return rfl
  | performEviction scanKeys limitKeys expiryKeys =>
    simp only [exec]
    split
    · exact h.return rfl
    · exact h.performEviction ‹_› hal.1 hal.2.1 _
  | evict =>
    cases hsm : s.eviction with
    | none =>
      simp only [exec, hsm]
      exact h.advance h.table h.limitKeys (.refl _) (by simp) rfl (by simp [hsm])
    | some e => exact h.evict hsm

theorem Ok.init : ({} : Live).Ok 0 :=
  ⟨⟨by simp, by simp, by simp [Table.Current], by simp [Table.Current], by simp [Table.Current], by simp [phase]⟩,
    by simp, by simp, rfl, by simp⟩

theorem Ok.start (h : s.Ok M) {commands : List Cmd} (hpr : isProgram commands = true) : s.Ok (↑commands + M) := by
  obtain ⟨call, rfl, hcl⟩ : ∃ call, commands = [call] ∧ call.isCall = true := by
    unfold isProgram at hpr
    split at hpr
    · exact ⟨_, rfl, hpr⟩
    · cases hpr
  have hfr : call.holds = none ∧ call.isCount = false := by cases call <;> simp_all [Cmd.isCall, Cmd.holds, Cmd.isCount]
  refine ⟨h.table, h.limitKeys, ?_, ?_, fun hsm => ?_⟩
  · intro command' hmem ref href
    rcases Multiset.mem_add.1 hmem with hmem | hmem
    · obtain rfl : command' = call := by simpa using hmem
      rw [hfr.1] at href
      cases href
    · exact h.held command' hmem ref href
  · simpa [hfr.2] using h.counted
  · obtain ⟨command', hmem, hev⟩ := h.running hsm
    exact ⟨command', Multiset.mem_add.2 (.inr hmem), hev⟩

end Live

theorem blockIndex_exact {p : Pool Live Cmd} (h : (harmlessSystem c).Reachable {} p) (hquiet : p.Quiet) :
    (∀ blockHash ctx, ctx ∈ p.state.table.blockIndex blockHash ↔
      ∃ d ∈ p.state.table.context? ctx, blockHash ∈ d.engineToAibrix) ∧
    (∀ blockHash, (p.state.table.blockIndex blockHash).Nodup) ∧
    p.state.table.contextCount = KeyMap.size p.state.table.contextMap := by
  have hok : p.state.Ok p.pending :=
    h.invariant Live.Ok.init (fun s M commands hprogram hok => hok.start hprogram)
      fun s M command hallowed hok => hok.exec hallowed.1 hallowed.2
  rw [hquiet] at hok
  have hnone : p.state.eviction = none := by
    by_contra hsome
    obtain ⟨_, hmem, _⟩ := hok.running hsome
    simp at hmem
  have htable : p.state.table.Ok none := by simpa [phase, hnone] using hok.table
  refine ⟨fun blockHash ctx => ⟨fun hctx => ?_, ?_⟩, htable.nodup, ?_⟩
  · obtain ⟨number, hcur, hmaps⟩ := htable.indexed hctx
    exact ⟨_, map_eq_some_iff.2 ⟨number, hcur, rfl⟩, hmaps⟩
  · rintro ⟨d, hd, hmaps⟩
    obtain ⟨number, hcur, rfl⟩ := map_eq_some_iff.1 hd
    have hcur' : p.state.table.Current (ctx, number) := hcur
    refine htable.mapped hcur' (fun hmarked => ?_) hmaps
    obtain ⟨_, hphase, _⟩ := htable.marked hcur' hmarked
    cases hphase
  · have hcounted := hok.counted
    simp only [phase, hnone, Table.balance, map_none, elim_none, Multiset.countP_zero] at hcounted
    omega

def storeBlock (blockHash : Int) (sourcePod : String) : Cmd :=
  .processBlockStored { blockHashes := [blockHash], tokens := [[7]], modelName := "model", sourcePod }

def overtakenRemoval (stored : Int) : List (System.Action Cmd) :=
  (.start [storeBlock 1 "a"] :: List.replicate 5 (.run 0) : List (System.Action Cmd)) ++
    [.start [.setClock 100], .run 1] ++
    .start [.processBlockRemoved { blockHashes := [1], modelName := "model", sourcePod := "a" } [baseContext]] ::
      List.replicate 3 (.run 2) ++
    .start [.performEviction [baseContext] [] []] :: List.replicate 11 (.run 3) ++
    .start [storeBlock stored "b"] :: List.replicate 5 (.run 4) ++
    [.run 2]

theorem blockIndex_exact_overtaken : ∃ p, (harmlessSystem tinyConfig).Reachable {} p ∧ p.Quiet ∧
    p.state.table.blockIndex 1 = [] ∧ baseContext ∈ p.state.table.blockIndex 2 ∧
    p.state.table.contextCount = KeyMap.size p.state.table.contextMap := by
  have hlegal : (harmlessSystem tinyConfig).Legal ⟨{}, []⟩ (overtakenRemoval 2) :=
    .of_all (by decide +kernel) (by decide +kernel)
  have hreach := System.Reachable.play (.refl : (harmlessSystem tinyConfig).Reachable {} ⟨{}, []⟩) hlegal
  have hquiet : ((harmlessSystem tinyConfig).play ⟨{}, []⟩ (overtakenRemoval 2)).Quiet :=
    Pool.quiet_of_all (by decide +kernel)
  obtain ⟨hindex, _, hcount⟩ := blockIndex_exact hreach hquiet
  refine ⟨_, hreach, hquiet, by decide +kernel, (hindex 2 baseContext).2 ?_, hcount⟩
  exact ⟨_, map_eq_some_iff.2 ⟨1, by decide +kernel, rfl⟩, by decide +kernel⟩

theorem overtaken_removal_unindexes : (system tinyConfig).Legal ⟨{}, []⟩ (overtakenRemoval 1) ∧
    ((system tinyConfig).play ⟨{}, []⟩ (overtakenRemoval 1)).Quiet ∧
    ((system tinyConfig).play ⟨{}, []⟩ (overtakenRemoval 1)).state.table.blockIndex 1 = [] ∧
    ∃ d ∈ ((system tinyConfig).play ⟨{}, []⟩ (overtakenRemoval 1)).state.table.context? baseContext,
      1 ∈ d.engineToAibrix := by
  refine ⟨.of_all (by decide +kernel) (by decide +kernel), Pool.quiet_of_all (by decide +kernel), by decide +kernel, ?_⟩
  exact ⟨_, map_eq_some_iff.2 ⟨1, by decide +kernel, rfl⟩, by decide +kernel⟩

end Aibrix.SyncHash
