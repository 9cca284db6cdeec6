import Aibrix.Modelclaim.KvPlan

/-! # Carrying out the plan of a card

`arrangeCard` writes the limits that shrink an engine, records every limit, and writes the limits that grow one. -/

namespace Aibrix.Modelclaim

open List Function Option

/-! ## The card and what may go wrong -/

/-- The card as its runtime and the API server hold it. -/
structure Card where
  /-- Which engines have a KV segment. -/
  segment : String → Bool
  inForce : String → Int
  /-- The limit that a claim's instance on this pod records, when the claim has one. -/
  recorded : String → Option Int

/-- What became of one `SetKVLimit` call. The runtime caps a limit at the engine's startup pool. -/
structure WriteOutcome where
  reached : Bool
  pool : Option Int := none
  reported : Bool

inductive RecordOutcome where
  | stored | refused | storedUnreported
  deriving DecidableEq

structure Outcomes where
  write : Nat → WriteOutcome
  read : Nat → Option (List (String × Int))
  record : Nat → RecordOutcome

structure World where
  card : Card
  calls : Nat := 0
  trace : List Card := []

def World.next (w : World) (card : Card) : World := ⟨card, w.calls + 1, w.trace ++ [card]⟩

inductive ArrangeError where
  | plan (err : PlanError)
  | leftAlone (owed : List String)
  | set (modelName : String) (bytes : Int)
  | readBack
  | unconfirmed (why : String)
  | record (claimName : String) (bytes : Int)
  | growthIncomplete (err : ArrangeError)
  deriving DecidableEq

/-- Why a card is divided, which says how much of its plan is carried out. -/
structure Division where
  minimumChangeBytes : Int := 0
  onlyWhenNeeded : Bool := false
  owedBefore : List String := []
  announce : Bool := false

def placementDivision : Division := { announce := true }

/-! ## The calls -/

section
variable (outcomes : Outcomes)

def Card.write (card : Card) (modelName : String) (bytes : Int) : Card :=
  { card with inForce := update card.inForce modelName bytes }

/-- `card` with the instance of one claim, if it is there, recording another limit. -/
def Card.record (card : Card) (claimName : String) (bytes : Int) : Card :=
  { card with
    recorded := update card.recorded claimName ((card.recorded claimName).map fun _ => bytes) }

def setKVLimit (modelName : String) (limitBytes : Int) (w : World) : Bool × World :=
  let outcome := outcomes.write w.calls
  let written := outcome.pool.elim limitBytes (min limitBytes)
  (outcome.reported, w.next (if outcome.reached then w.card.write modelName written else w.card))

def readSnapshot (w : World) : Option (List RuntimeSnapshotModel) × World :=
  ((outcomes.read w.calls).map fun listing => listing.map fun (name, used) =>
    { modelName := name, phase := .active, kvUsedBytes := used,
      kvCapacityBytes := if w.card.segment name then w.card.inForce name else kvLimitUnknown },
    w.next w.card)

def recordKVLimit (claimName : String) (kvLimitBytes : Int) (w : World) : Bool × World :=
  match outcomes.record w.calls with
  | .stored => (true, w.next (w.card.record claimName kvLimitBytes))
  | .refused => (false, w.next w.card)
  | .storedUnreported => (false, w.next (w.card.record claimName kvLimitBytes))

def writeKVLimits (written : List PlannedKVLimit) : List PlannedKVLimit → World →
    (List PlannedKVLimit × Option ArrangeError) × World
  | [], w => ((written, none), w)
  | limit :: rest, w =>
    match setKVLimit outcomes limit.modelName limit.kvLimitBytes w with
    | (true, w) => writeKVLimits (written ++ [limit]) rest w
    | (false, w) => ((written, some (.set limit.modelName limit.kvLimitBytes)), w)

def writeAndConfirmKVLimits (limits : List PlannedKVLimit) (w : World) :
    (List PlannedKVLimit × Option ArrangeError) × World :=
  if limits = [] then (([], none), w) else
  match writeKVLimits outcomes [] limits w with
  | ((written, some err), w) => ((written, some err), w)
  | ((_, none), w) =>
    match readSnapshot outcomes w with
    | (none, w) => ((limits, some .readBack), w)
    | (some models, w) => ((limits, (confirmKVLimits models limits).map .unconfirmed), w)

/-- What an engine was held to before a shrink, up to its record and its startup pool. -/
def limitBefore (limit : PlannedKVLimit) : Int :=
  let before := if 0 < limit.kvRecordedBytes ∧ limit.kvRecordedBytes < limit.kvCapacityBytes then
    limit.kvRecordedBytes else limit.kvCapacityBytes
  clampKVLimit before limit.kvInitialCapacityBytes

/-- Holds each engine that a shrink step wrote to what it was held to before. -/
def takeBackKVLimits : List PlannedKVLimit → World → World
  | [], w => w
  | limit :: rest, w =>
    if limitBefore limit ≤ limit.kvLimitBytes then takeBackKVLimits rest w
    else
      match setKVLimit outcomes limit.modelName (limitBefore limit) w with
      | (true, w) => takeBackKVLimits rest w
      | (false, w) => w

def recordKVLimits : List PlannedKVLimit → World → Option ArrangeError × World
  | [], w => (none, w)
  | limit :: rest, w =>
    match recordKVLimit outcomes limit.claimName limit.kvLimitBytes w with
    | (true, w) => recordKVLimits rest w
    | (false, w) => (some (.record limit.claimName limit.kvLimitBytes), w)

/-- What an arrangement returns: the plan, what went wrong, and the limits its claims are told of. -/
structure Arrangement where
  limits : List PlannedKVLimit := []
  err : Option ArrangeError := none
  announced : List PlannedKVLimit := []

def arrangeCard (ledger : PodLedger) (engines : List EngineOnPod) (why : Division) (w : World) :
    Arrangement × World :=
  match planKVLimits ledger.plannableBytes engines with
  | .error err => ({ err := some (.plan err) }, w)
  | .ok limits =>
    let (needed, owed) := needsDividing engines limits why.minimumChangeBytes why.owedBefore
    if why.onlyWhenNeeded && !needed then ({ limits, err := some (.leftAlone owed) }, w)
    else if decide (0 < why.minimumChangeBytes) && !worthWriting limits why.minimumChangeBytes then
      ({ limits, err := some (.leftAlone owed) }, w)
    else
      let (shrinks, grows) := shrinksAndGrows limits
      match writeAndConfirmKVLimits outcomes shrinks w with
      | ((written, some err), w) => ({ err := some err }, takeBackKVLimits outcomes written w)
      | ((_, none), w) =>
        -- The records that go down come first, so that records written part way fit on the card.
        match recordKVLimits outcomes (limits.filter (·.lowersRecord)) w with
        | (some err, w) => ({ err := some err }, w)
        | (none, w) =>
          match recordKVLimits outcomes (limits.filter (!·.lowersRecord)) w with
          | (some err, w) => ({ err := some err }, w)
          | (none, w) =>
            match writeAndConfirmKVLimits outcomes grows w with
            | ((_, err), w) =>
              let written := shrinks ++ if err.isSome then [] else grows
              ({ limits, err := err.map .growthIncomplete, announced := if why.announce then written else [] }, w)

end

/-! ## What is safe -/

/-- The limit an engine is held to, which is none at all without a segment. -/
def Card.inForceBytes (card : Card) (e : EngineOnPod) : Int :=
  if card.segment e.modelName then card.inForce e.modelName else 0

def Card.recordedBytes (card : Card) (e : EngineOnPod) : Int := (card.recorded e.claimName).getD 0

/-- What the instances on the card take when each is held to `limit`: an engine asleep without a wake
reserve what it holds, any other its footprint and its limit. -/
def Card.takenBytes (card : Card) (engines : List EngineOnPod) (limit : EngineOnPod → Int) : Int :=
  (engines.map fun e => if (card.recorded e.claimName).isSome then e.chargedBytes (limit e) else 0).sum

/-- No engine is held past its record, and neither the limits in force nor the records oversubscribe the card. -/
structure CardSafe (plannableBytes : Int) (engines : List EngineOnPod) (card : Card) : Prop where
  withinRecord : ∀ e ∈ engines, card.segment e.modelName →
    ∃ record, card.recorded e.claimName = some record ∧ card.inForce e.modelName ≤ record
  inForceFits : card.takenBytes engines card.inForceBytes ≤ plannableBytes
  recordedFits : card.takenBytes engines card.recordedBytes ≤ plannableBytes

/-- The engines are as the card's readings show them. A reading may leave a segment out: `observe` does for an engine
that is still starting. -/
structure CardReads (engines : List EngineOnPod) (card : Card) : Prop where
  capacity : ∀ e ∈ engines, 0 ≤ e.kvCapacityBytes →
    card.segment e.modelName ∧ card.inForce e.modelName = e.kvCapacityBytes
  record : ∀ e ∈ engines, card.recordedBytes e = e.kvRecordedBytes
  claims : (engines.map (·.claimName)).Nodup
  models : ((engines.filter (card.segment ·.modelName)).map (·.modelName)).Nodup

/-- An engine whose segment the reading leaves out is held to no more than every plan leaves it. -/
def HiddenKeepLittle (engines : List EngineOnPod) (card : Card) : Prop :=
  ∀ e ∈ engines, card.segment e.modelName → e.kvCapacityBytes < 0 → card.inForce e.modelName ≤ e.plannedKVHeldBytes

/-! ## What the calls keep

`Kept P w w'` says that `P` holds of the card now, and of the card after every call since `w`. -/

structure Kept (P : Card → Prop) (w w' : World) : Prop where
  now : P w'.card
  after : ∀ c ∈ w'.trace, c ∈ w.trace ∨ P c

variable {P Q : Card → Prop} {w w' w'' : World} (outcomes : Outcomes)

theorem Kept.refl (h : P w.card) : Kept P w w := ⟨h, fun _ hc => .inl hc⟩

theorem Kept.next {card : Card} (h : P card) : Kept P w (w.next card) := by
  refine ⟨h, fun c hc => ?_⟩
  simp only [World.next, mem_append, mem_singleton] at hc
  rcases hc with hc | rfl
  · exact .inl hc
  · exact .inr h

theorem Kept.trans (h : Kept P w w') (h' : Kept P w' w'') : Kept P w w'' := by
  refine ⟨h'.now, fun c hc => ?_⟩
  rcases h'.after c hc with hc | hc
  · exact h.after c hc
  · exact .inr hc

theorem Kept.mono (h : Kept P w w') (hPQ : ∀ c, P c → Q c) : Kept Q w w' :=
  ⟨hPQ _ h.now, fun c hc => (h.after c hc).imp_right (hPQ c)⟩

theorem setKVLimit_kept {modelName : String} {bytes : Int} (h : P w.card)
    (hwr : ∀ v ≤ bytes, P (w.card.write modelName v)) : Kept P w (setKVLimit outcomes modelName bytes w).2 := by
  apply Kept.next
  split
  · apply hwr
    cases (outcomes.write w.calls).pool with
    | none => exact le_rfl
    | some pool => exact min_le_left _ _
  · exact h

variable {limits written : List PlannedKVLimit} {l : PlannedKVLimit}

theorem writeKVLimits_kept (written : List PlannedKVLimit) (h : P w.card)
    (hwr : ∀ card, P card → ∀ l ∈ limits, ∀ v ≤ l.kvLimitBytes, P (card.write l.modelName v)) :
    Kept P w (writeKVLimits outcomes written limits w).2 := by
  induction limits generalizing written w with
  | nil => exact .refl h
  | cons limit rest ih =>
    have hone := setKVLimit_kept outcomes h (hwr _ h limit mem_cons_self)
    unfold writeKVLimits
    split
    · rename_i w1 hset
      rw [hset] at hone
      exact hone.trans (ih _ hone.now fun card hc l hl => hwr card hc l (mem_cons_of_mem _ hl))
    · rename_i w1 hset
      rw [hset] at hone
      exact hone

theorem writeKVLimits_written (hl : l ∈ (writeKVLimits outcomes written limits w).1.1) : l ∈ written ∨ l ∈ limits := by
  induction limits generalizing written w with
  | nil => exact .inl hl
  | cons limit rest ih =>
    unfold writeKVLimits at hl
    split at hl
    · rcases ih hl with h | h
      · rw [mem_append, mem_singleton] at h
        rcases h with h | rfl
        · exact .inl h
        · exact .inr mem_cons_self
      · exact .inr (mem_cons_of_mem _ h)
    · exact .inl hl

theorem writeAndConfirmKVLimits_kept (h : P w.card)
    (hwt : ∀ card, P card → ∀ l ∈ limits, ∀ v ≤ l.kvLimitBytes, P (card.write l.modelName v)) :
    Kept P w (writeAndConfirmKVLimits outcomes limits w).2 := by
  have hwr := writeKVLimits_kept outcomes [] h hwt
  unfold writeAndConfirmKVLimits
  split
  · exact .refl h
  split
  · rename_i heq
    rw [heq] at hwr
    exact hwr
  rename_i heq
  rw [heq] at hwr
  split <;> rename_i hrd <;> rw [← (Prod.mk.inj hrd).2] <;>
    exact hwr.trans (.next hwr.now)

theorem writeAndConfirmKVLimits_written (hl : l ∈ (writeAndConfirmKVLimits outcomes limits w).1.1) : l ∈ limits := by
  unfold writeAndConfirmKVLimits at hl
  split at hl
  · simp at hl
  split at hl
  · rename_i heq
    have hmem : l ∈ (writeKVLimits outcomes [] limits w).1.1 := by rw [heq]; exact hl
    exact (writeKVLimits_written outcomes hmem).resolve_left not_mem_nil
  · split at hl <;> exact hl

theorem writeAndConfirmKVLimits_confirmed (h : writeAndConfirmKVLimits outcomes limits w = ((written, none), w')) :
    ∀ l ∈ limits, w'.card.segment l.modelName → w'.card.inForce l.modelName = l.kvLimitBytes := by
  intro l hl hseg
  unfold writeAndConfirmKVLimits at h
  split at h
  · rename_i hnil
    simp [hnil] at hl
  split at h
  · cases h
  split at h
  · cases h
  rename_i models w2 hrd
  simp only [Prod.mk.injEq, map_eq_none_iff] at h
  obtain ⟨engine, hmem, hnm, hcap⟩ := confirmKVLimits_none h.1.2 hl
  -- The reading shows what the segments hold.
  simp only [readSnapshot, Prod.mk.injEq, map_eq_some_iff] at hrd
  obtain ⟨⟨listing, _, rfl⟩, hw2⟩ := hrd
  obtain ⟨⟨name, used⟩, _, rfl⟩ := mem_map.1 hmem
  rw [← h.2, ← hw2, ← hnm] at hseg ⊢
  rw [← hcap]
  exact (if_pos hseg).symm

theorem takeBackKVLimits_kept (h : P w.card)
    (hwr : ∀ card, P card → ∀ l ∈ written, ∀ v ≤ limitBefore l, P (card.write l.modelName v)) :
    Kept P w (takeBackKVLimits outcomes written w) := by
  induction written generalizing w with
  | nil => exact .refl h
  | cons limit rest ih =>
    have hrs : ∀ card, P card → ∀ l ∈ rest, ∀ v ≤ limitBefore l, P (card.write l.modelName v) :=
      fun card hc l hl => hwr card hc l (mem_cons_of_mem _ hl)
    unfold takeBackKVLimits
    split
    · exact ih h hrs
    have hone := setKVLimit_kept outcomes h (hwr _ h limit mem_cons_self)
    split
    · rename_i hset
      rw [hset] at hone
      exact hone.trans (ih hone.now hrs)
    · rename_i hset
      rw [hset] at hone
      exact hone

theorem recordKVLimits_kept (h : P w.card)
    (hrc : ∀ card, P card → ∀ l ∈ limits, P (card.record l.claimName l.kvLimitBytes)) :
    Kept P w (recordKVLimits outcomes limits w).2 := by
  induction limits generalizing w with
  | nil => exact .refl h
  | cons limit rest ih =>
    have hone : Kept P w (recordKVLimit outcomes limit.claimName limit.kvLimitBytes w).2 := by
      unfold recordKVLimit
      split
      · exact .next (hrc _ h limit mem_cons_self)
      · exact .next h
      · exact .next (hrc _ h limit mem_cons_self)
    unfold recordKVLimits
    split
    · rename_i hset
      rw [hset] at hone
      exact hone.trans (ih hone.now fun card hc l hl => hrc card hc l (mem_cons_of_mem _ hl))
    · rename_i hset
      rw [hset] at hone
      exact hone

theorem recordKVLimits_none (h : recordKVLimits outcomes limits w = (none, w')) :
    w'.card = limits.foldl (fun card l => card.record l.claimName l.kvLimitBytes) w.card := by
  induction limits generalizing w with
  | nil =>
    cases h
    rfl
  | cons limit rest ih =>
    unfold recordKVLimits at h
    split at h
    · rename_i w1 hset
      rw [ih h]
      unfold recordKVLimit at hset
      split at hset <;> cases hset
      rfl
    · cases h

theorem foldl_record_of_not_mem {name : String} (card : Card) (h : ∀ l ∈ limits, l.claimName ≠ name) :
    (limits.foldl (fun card l => card.record l.claimName l.kvLimitBytes) card).recorded name = card.recorded name := by
  induction limits generalizing card with
  | nil => rfl
  | cons l rest ih =>
    rw [foldl_cons, ih _ fun l' hl' => h l' (mem_cons_of_mem _ hl')]
    exact update_of_ne (h l mem_cons_self).symm _ _

open Card

theorem foldl_record_of_mem (card : Card) (hnd : (limits.map (·.claimName)).Nodup) (hl : l ∈ limits) :
    (limits.foldl (fun card l => card.record l.claimName l.kvLimitBytes) card).recorded l.claimName =
      (card.recorded l.claimName).map fun _ => l.kvLimitBytes := by
  induction limits generalizing card with
  | nil => simp at hl
  | cons l0 rest ih =>
    rw [map_cons, nodup_cons] at hnd
    rw [foldl_cons]
    rcases mem_cons.1 hl with rfl | hl'
    · rw [foldl_record_of_not_mem]
      · simp [record]
      · intro l' hl' heq
        exact hnd.1 (heq ▸ mem_map_of_mem hl')
    · rw [ih _ hnd.2 hl']
      have hne : l.claimName ≠ l0.claimName := fun heq => hnd.1 (heq ▸ mem_map_of_mem hl')
      simp [record, update_of_ne hne]

theorem EngineOnPod.chargedBytes_mono (e : EngineOnPod) {a b : Int} (h : a ≤ b) :
    e.chargedBytes a ≤ e.chargedBytes b := by
  unfold chargedBytes
  split <;> omega

open EngineOnPod

theorem PlanFor.chargedBytes_nonneg {e : EngineOnPod} (h : PlanFor e l) : 0 ≤ e.chargedBytes l.kvLimitBytes := by
  have hlm := h.keeps
  have hhl := e.plannedKVHeldBytes_nonneg
  have hft := h.declared.1
  unfold chargedBytes
  split
  · exact heldBytes_nonneg h.declared
  · omega

section
variable {plannableBytes : Int} {engines : List EngineOnPod} {limits : List PlannedKVLimit} {start card : Card}

theorem Card.takenBytes_mono {f g : EngineOnPod → Int}
    (hpr : ∀ e ∈ engines, (card.recorded e.claimName).isSome = (start.recorded e.claimName).isSome)
    (h : ∀ e ∈ engines, f e ≤ g e) : card.takenBytes engines f ≤ start.takenBytes engines g := by
  apply sum_le_sum
  intro e he
  rw [hpr e he]
  split
  · exact e.chargedBytes_mono (h e he)
  · exact le_rfl

theorem Card.takenBytes_le_plan (card : Card) {f : EngineOnPod → Int} (hpl : List.Forall₂ PlanFor engines limits)
    (h : ∀ e ∈ engines, ∀ l ∈ limits, l.claimName = e.claimName → f e ≤ l.kvLimitBytes) : card.takenBytes engines f ≤
      (zipWith (fun e l => e.chargedBytes l.kvLimitBytes) engines limits).sum := by
  induction hpl with
  | nil => exact le_rfl
  | @cons e l es ls hel _ ih =>
    have hhd : f e ≤ l.kvLimitBytes :=
      h e mem_cons_self l mem_cons_self (by rw [hel.copied]; rfl)
    have htl := ih fun e' he' l' hl' => h e' (mem_cons_of_mem _ he') l' (mem_cons_of_mem _ hl')
    have hmn := e.chargedBytes_mono hhd
    have hnn := hel.chargedBytes_nonneg
    simp only [takenBytes, map_cons, sum_cons, zipWith_cons_cons] at htl ⊢
    omega

/-! ## The phases of an arrangement -/

structure Lowered (engines : List EngineOnPod) (start card : Card) : Prop where
  segment : card.segment = start.segment
  recorded : card.recorded = start.recorded
  inForce : ∀ e ∈ engines, start.segment e.modelName → card.inForce e.modelName ≤ start.inForce e.modelName

theorem CardSafe.of_lowered (hsf : CardSafe plannableBytes engines start)
    (h : Lowered engines start card) : CardSafe plannableBytes engines card := by
  refine ⟨fun e he hseg => ?_, ?_, ?_⟩
  · rw [h.segment] at hseg
    obtain ⟨record, hrec, hle⟩ := hsf.withinRecord e he hseg
    exact ⟨record, h.recorded ▸ hrec, (h.inForce e he hseg).trans hle⟩
  · refine le_trans (takenBytes_mono (fun e _ => by rw [h.recorded]) fun e he => ?_) hsf.inForceFits
    unfold inForceBytes
    rw [h.segment]
    split
    · exact h.inForce e he ‹_›
    · exact le_rfl
  · refine le_trans (takenBytes_mono (fun e _ => by rw [h.recorded]) fun e _ => ?_) hsf.recordedFits
    exact le_of_eq (by simp only [recordedBytes, h.recorded])

@[simp] theorem Card.inForce_write (card : Card) (name name' : String) (v : Int) :
    (card.write name v).inForce name' = if name' = name then v else card.inForce name' := by
  simp [write, update_apply]

theorem Lowered.write (h : Lowered engines start card) {name : String} {v : Int}
    (hv : v ≤ start.inForce name) : Lowered engines start (card.write name v) := by
  refine ⟨h.segment, h.recorded, fun e he hseg => ?_⟩
  rw [inForce_write]
  split
  · rename_i hnm
    exact hnm ▸ hv
  · exact h.inForce e he hseg

structure Recorded (engines : List EngineOnPod) (start card : Card) : Prop where
  segment : card.segment = start.segment
  present : ∀ e ∈ engines, (card.recorded e.claimName).isSome = (start.recorded e.claimName).isSome
  within : ∀ e ∈ engines, start.segment e.modelName → card.inForce e.modelName ≤ card.recordedBytes e

theorem Recorded.withinRecord (h : Recorded engines start card) (hsf : CardSafe plannableBytes engines start)
    {e : EngineOnPod} (he : e ∈ engines) (hseg : card.segment e.modelName) :
    ∃ record, card.recorded e.claimName = some record ∧ card.inForce e.modelName ≤ record := by
  rw [h.segment] at hseg
  obtain ⟨_, hst, _⟩ := hsf.withinRecord e he hseg
  have hsm : (card.recorded e.claimName).isSome = true := by rw [h.present e he, hst]; rfl
  obtain ⟨record, hrec⟩ := isSome_iff_exists.1 hsm
  have hle := h.within e he hseg
  rw [recordedBytes, hrec] at hle
  exact ⟨record, hrec, hle⟩

structure Lowering (engines : List EngineOnPod) (limits : List PlannedKVLimit) (start card : Card) : Prop
    extends Recorded engines start card where
  inForce : ∀ e ∈ engines, start.segment e.modelName → card.inForce e.modelName ≤ start.inForce e.modelName
  records : ∀ e ∈ engines, card.recordedBytes e ≤ start.recordedBytes e
  planned : ∀ e ∈ engines, start.segment e.modelName → ∀ l ∈ limits, l.claimName = e.claimName →
    card.inForce e.modelName ≤ l.kvLimitBytes

theorem CardSafe.of_lowering (hsf : CardSafe plannableBytes engines start)
    (h : Lowering engines limits start card) : CardSafe plannableBytes engines card := by
  refine ⟨fun e he hseg => h.withinRecord hsf he hseg, ?_, ?_⟩
  · refine le_trans (takenBytes_mono h.present fun e he => ?_) hsf.inForceFits
    unfold inForceBytes
    rw [h.segment]
    split
    · exact h.inForce e he ‹_›
    · exact le_rfl
  · exact le_trans (takenBytes_mono h.present h.records) hsf.recordedFits

structure Planned (engines : List EngineOnPod) (limits : List PlannedKVLimit) (start card : Card) : Prop
    extends Recorded engines start card where
  records : ∀ e ∈ engines, ∀ l ∈ limits, l.claimName = e.claimName → card.recordedBytes e ≤ l.kvLimitBytes

structure PlanOf (plannableBytes : Int) (engines : List EngineOnPod) (limits : List PlannedKVLimit) : Prop where
  planFor : ∀ e ∈ engines, ∀ l ∈ limits, l.claimName = e.claimName → PlanFor e l
  engine : ∀ l ∈ limits, ∃ e ∈ engines, PlanFor e l
  limit : ∀ e ∈ engines, ∃ l ∈ limits, PlanFor e l
  claims : (limits.map (·.claimName)).Nodup
  fits : ∀ (card : Card) (f : EngineOnPod → Int),
    (∀ e ∈ engines, ∀ l ∈ limits, l.claimName = e.claimName → f e ≤ l.kvLimitBytes) →
      card.takenBytes engines f ≤ plannableBytes

variable {l : PlannedKVLimit}

theorem PlanFor.claimName_eq {e : EngineOnPod} (h : PlanFor e l) : l.claimName = e.claimName := by
  rw [h.copied]
  rfl

theorem forall₂_matches (h : List.Forall₂ PlanFor engines limits) :
    (∀ e ∈ engines, ∃ l ∈ limits, PlanFor e l) ∧ ∀ l ∈ limits, ∃ e ∈ engines, PlanFor e l := by
  induction h with
  | nil => simp
  | cons hel _ ih =>
    simp only [forall_mem_cons, exists_mem_cons_iff]
    exact ⟨⟨.inl hel, fun e he => .inr (ih.1 e he)⟩, .inl hel, fun l hl => .inr (ih.2 l hl)⟩

theorem forall₂_claimNames (h : List.Forall₂ PlanFor engines limits) :
    limits.map (·.claimName) = engines.map (·.claimName) := by
  induction h with
  | nil => rfl
  | cons hel _ ih => rw [map_cons, map_cons, ih, hel.claimName_eq]

theorem CardSafe.of_planned (hsf : CardSafe plannableBytes engines start)
    (hpl : PlanOf plannableBytes engines limits) (h : Planned engines limits start card) :
    CardSafe plannableBytes engines card := by
  refine ⟨fun e he hseg => h.withinRecord hsf he hseg, ?_, ?_⟩
  · refine hpl.fits card _ fun e he l hl hnm => ?_
    unfold inForceBytes
    rw [h.segment]
    split
    · exact (h.within e he ‹_›).trans (h.records e he l hl hnm)
    · exact e.plannedKVHeldBytes_nonneg.trans (hpl.planFor e he l hl hnm).keeps
  · exact hpl.fits card _ h.records

theorem planKVLimits_planOf (hsf : CardSafe plannableBytes engines start)
    (hcl : (engines.map (·.claimName)).Nodup) (h : planKVLimits plannableBytes engines = .ok limits) :
    PlanOf plannableBytes engines limits := by
  by_cases hne : engines = []
  · subst hne
    have hlm : limits = [] := by
      cases h
      rfl
    subst hlm
    exact ⟨by simp, by simp, by simp, by simp, fun _ _ _ => hsf.inForceFits⟩
  obtain ⟨hall, hsum⟩ := planKVLimits_spec hne h
  have hpr : (orderedByClaim engines).Perm engines := perm_insertionSort _ _
  have hnd : ((orderedByClaim engines).map (·.claimName)).Nodup := (hpr.map _).nodup_iff.2 hcl
  have hen : ∀ l ∈ limits, ∃ e ∈ engines, PlanFor e l := by
    intro l hl
    obtain ⟨e, he, hel⟩ := (forall₂_matches hall).2 l hl
    exact ⟨e, mem_orderedByClaim.1 he, hel⟩
  refine ⟨fun e he l hl hnm => ?_, hen, fun e he => ?_, forall₂_claimNames hall ▸ hnd, ?_⟩
  · obtain ⟨e', he', hel'⟩ := hen l hl
    obtain rfl : e' = e := inj_on_of_nodup_map hcl he' he (hel'.claimName_eq.symm.trans hnm)
    exact hel'
  · exact (forall₂_matches hall).1 e (mem_orderedByClaim.2 he)
  intro card f hf
  have hle := card.takenBytes_le_plan hall fun e he => hf e (mem_orderedByClaim.1 he)
  have hsm : card.takenBytes (orderedByClaim engines) f = card.takenBytes engines f :=
    (hpr.map _).sum_eq
  omega

@[simp] theorem Card.isSome_record (card : Card) (name name' : String) (bytes : Int) :
    ((card.record name bytes).recorded name').isSome = (card.recorded name').isSome := by
  by_cases h : name' = name
  · simp [record, h]
  · simp [record, update_of_ne h]

theorem Card.recordedBytes_record (card : Card) (e : EngineOnPod) (name : String) (bytes : Int) :
    (card.record name bytes).recordedBytes e =
      if e.claimName = name ∧ (card.recorded e.claimName).isSome then bytes else card.recordedBytes e := by
  by_cases h : e.claimName = name
  · subst h
    cases hrec : card.recorded e.claimName <;> simp [record, recordedBytes, hrec]
  · simp [record, recordedBytes, h]

theorem Recorded.record (h : Recorded engines start card) {name : String} {bytes : Int}
    (hwt : ∀ e ∈ engines, start.segment e.modelName → e.claimName = name → card.inForce e.modelName ≤ bytes) :
    Recorded engines start (card.record name bytes) := by
  refine ⟨h.segment, fun e he => by rw [isSome_record, h.present e he], fun e he hseg => ?_⟩
  rw [recordedBytes_record]
  split
  · exact hwt e he hseg (And.left ‹_›)
  · exact h.within e he hseg

open PlannedKVLimit

section

variable (hrd : CardReads engines start)
include hrd

theorem Lowering.record (hpl : PlanOf plannableBytes engines limits)
    (h : Lowering engines limits start card) (hl : l ∈ limits) (hlw : l.lowersRecord) :
    Lowering engines limits start (card.record l.claimName l.kvLimitBytes) := by
  refine ⟨h.toRecorded.record fun e he hseg hnm => h.planned e he hseg l hl hnm.symm, h.inForce,
    fun e he => ?_, h.planned⟩
  rw [recordedBytes_record]
  split
  · rename_i hnm
    have hrc : l.kvRecordedBytes = e.kvRecordedBytes := by
      rw [(hpl.planFor e he l hl hnm.1.symm).copied]
      rfl
    have hlt : l.kvLimitBytes < l.kvRecordedBytes := by simpa [lowersRecord] using hlw
    have := hrd.record e he
    omega
  · exact h.records e he

omit hrd in
theorem Planned.record (hpl : PlanOf plannableBytes engines limits) (h : Planned engines limits start card)
    (hl : l ∈ limits) : Planned engines limits start (card.record l.claimName l.kvLimitBytes) := by
  refine ⟨h.toRecorded.record fun e he hseg hnm => ?_, fun e he l' hl' hnm' => ?_⟩
  · exact (h.within e he hseg).trans (h.records e he l hl hnm.symm)
  rw [recordedBytes_record]
  split
  · rename_i hnm
    rw [inj_on_of_nodup_map hpl.claims hl hl' (hnm.1.symm.trans hnm'.symm)]
  · exact h.records e he l' hl' hnm'

structure Growing (engines : List EngineOnPod) (limits : List PlannedKVLimit) (start card : Card) : Prop
    extends Planned engines limits start card where
  reached : ∀ e ∈ engines, start.segment e.modelName → ∀ l ∈ limits, l.claimName = e.claimName →
    l.kvLimitBytes ≤ card.recordedBytes e

theorem Growing.write (hpl : PlanOf plannableBytes engines limits)
    (h : Growing engines limits start card) (hl : l ∈ limits)
    (hseg : 0 ≤ l.kvCapacityBytes) {v : Int} (hv : v ≤ l.kvLimitBytes) :
    Growing engines limits start (card.write l.modelName v) := by
  refine ⟨⟨⟨h.segment, h.present, fun e he hes => ?_⟩, h.records⟩, h.reached⟩
  rw [inForce_write]
  split
  · -- The runtime keeps one engine under the name, so this is the engine the limit is for.
    rename_i hnm
    obtain ⟨e', he', hel⟩ := hpl.engine l hl
    have hcp := hel.copied
    rw [hcp] at hseg hnm
    obtain rfl : e = e' := inj_on_of_nodup_map hrd.models
      (mem_filter.2 ⟨he, hes⟩) (mem_filter.2 ⟨he', (hrd.capacity e' he' hseg).1⟩) hnm
    exact hv.trans (h.reached e he hes l hl hel.claimName_eq)
  · exact h.within e he hes

/-! ## From one phase to the next -/

theorem Lowered.lowering (hhd : HiddenKeepLittle engines start) (hsf : CardSafe plannableBytes engines start)
    (hpl : PlanOf plannableBytes engines limits) (h : Lowered engines start card)
    (hcn : ∀ l ∈ limits, l.shrinks → card.segment l.modelName → card.inForce l.modelName = l.kvLimitBytes) :
    Lowering engines limits start card := by
  refine ⟨⟨h.segment, fun e _ => by rw [h.recorded], fun e he hseg => ?_⟩, h.inForce,
    fun e _ => le_of_eq (by rw [recordedBytes, h.recorded]; rfl), fun e he hseg l hl hnm => ?_⟩
  · obtain ⟨record, hrec, hle⟩ := hsf.withinRecord e he hseg
    rw [recordedBytes, h.recorded, hrec]
    exact (h.inForce e he hseg).trans hle
  have hfor := hpl.planFor e he l hl hnm
  have hcp := hfor.copied
  have hcc : l.kvCapacityBytes = e.kvCapacityBytes := by rw [hcp]; rfl
  have hmd : l.modelName = e.modelName := by rw [hcp]; rfl
  by_cases hsh : l.shrinks
  · rw [← hmd] at hseg ⊢
    exact (hcn l hl hsh (h.segment ▸ hseg)).le
  have hle := h.inForce e he hseg
  by_cases hcap : 0 ≤ e.kvCapacityBytes
  · rw [(hrd.capacity e he hcap).2] at hle
    simp only [shrinks, Bool.and_eq_true, decide_eq_true_eq] at hsh
    omega
  · -- A segment that the reading leaves out gets no write, so what it is held to has to fit as it is.
    have hkeeps := hfor.keeps
    have := hhd e he hseg (not_le.1 hcap)
    omega

theorem Lowering.toPlanned (hpl : PlanOf plannableBytes engines limits)
    (h : Lowering engines limits start card)
    (hlr : ∀ l ∈ limits, l.lowersRecord → ∀ record, card.recorded l.claimName = some record →
      record = l.kvLimitBytes) : Planned engines limits start card := by
  refine ⟨h.toRecorded, fun e he l hl hnm => ?_⟩
  have hfor := hpl.planFor e he l hl hnm
  by_cases hlw : l.lowersRecord
  · have hrc := hlr l hl hlw
    rw [hnm] at hrc
    unfold recordedBytes
    cases hrec : card.recorded e.claimName with
    | none => exact e.plannedKVHeldBytes_nonneg.trans hfor.keeps
    | some record => exact (hrc record hrec).le
  · have hle := h.records e he
    have hrc : l.kvRecordedBytes = e.kvRecordedBytes := by rw [hfor.copied]; rfl
    have := hrd.record e he
    simp only [lowersRecord, decide_eq_true_eq] at hlw
    omega

end

theorem recorded_of_passes (hpl : PlanOf plannableBytes engines limits) {shrunk lowered : Card}
    (hfr : lowered = (limits.filter (·.lowersRecord)).foldl
      (fun card l => card.record l.claimName l.kvLimitBytes) shrunk)
    (hsc : card = (limits.filter (!·.lowersRecord)).foldl
      (fun card l => card.record l.claimName l.kvLimitBytes) lowered) (hl : l ∈ limits) :
    card.recorded l.claimName = (shrunk.recorded l.claimName).map fun _ => l.kvLimitBytes := by
  have hpr := filter_append_perm (·.lowersRecord) limits
  rw [hsc, hfr, ← foldl_append]
  exact foldl_record_of_mem _ ((hpr.map _).nodup_iff.2 hpl.claims) (hpr.mem_iff.2 hl)

theorem limitBefore_le : limitBefore l ≤ l.kvCapacityBytes := by
  apply (clampKVLimit_le _ _).trans
  omega

section

variable (hrd : CardReads engines start)
include hrd

section

variable (hpl : PlanOf plannableBytes engines limits)
include hpl

theorem capacity_of_shrinks (hl : l ∈ (shrinksAndGrows limits).1) :
    start.inForce l.modelName = l.kvCapacityBytes ∧ l.kvLimitBytes < l.kvCapacityBytes := by
  obtain ⟨hmem, hsh⟩ := mem_shrinks.1 hl
  obtain ⟨e, he, hel⟩ := hpl.engine l hmem
  simp only [shrinks, Bool.and_eq_true, decide_eq_true_eq] at hsh
  refine ⟨?_, hsh.2⟩
  rw [hel.copied] at hsh ⊢
  exact (hrd.capacity e he hsh.1).2

theorem shrink_kept : Kept (Lowered engines start) { card := start }
      (writeAndConfirmKVLimits outcomes (shrinksAndGrows limits).1 { card := start }).2 := by
  refine writeAndConfirmKVLimits_kept outcomes ⟨rfl, rfl, fun _ _ _ => le_rfl⟩ fun c hc l hl v hv => hc.write ?_
  have := capacity_of_shrinks hrd hpl hl
  omega

theorem takeBack_kept {written : List PlannedKVLimit} (hwr : ∀ l ∈ written, l ∈ (shrinksAndGrows limits).1)
    (h : Lowered engines start w.card) : Kept (Lowered engines start) w (takeBackKVLimits outcomes written w) := by
  refine takeBackKVLimits_kept outcomes h fun c hc l hl v hv => hc.write ?_
  have := capacity_of_shrinks hrd hpl (hwr l hl)
  have := limitBefore_le (l := l)
  omega

theorem lowerRecords_kept (h : Lowering engines limits start w.card) :
    Kept (Lowering engines limits start) w (recordKVLimits outcomes (limits.filter (·.lowersRecord)) w).2 := by
  refine recordKVLimits_kept outcomes h fun c hc l hl => ?_
  obtain ⟨hmem, hlw⟩ := mem_filter.1 hl
  exact hc.record hrd hpl hmem hlw

end

end

theorem otherRecords_kept (hpl : PlanOf plannableBytes engines limits) (h : Planned engines limits start w.card) :
    Kept (Planned engines limits start) w (recordKVLimits outcomes (limits.filter (!·.lowersRecord)) w).2 :=
  recordKVLimits_kept outcomes h fun _ hc _ hl => hc.record hpl (mem_filter.1 hl).1

theorem grow_kept (hrd : CardReads engines start) (hpl : PlanOf plannableBytes engines limits)
    (h : Growing engines limits start w.card) :
    Kept (Growing engines limits start) w (writeAndConfirmKVLimits outcomes (shrinksAndGrows limits).2 w).2 := by
  refine writeAndConfirmKVLimits_kept outcomes h fun c hc l hl v hv => ?_
  obtain ⟨hmem, hseg, _⟩ := mem_grows.1 hl
  exact hc.write hrd hpl hmem hseg hv

theorem Planned.growing (hsf : CardSafe plannableBytes engines start) (h : Planned engines limits start card)
    (hrc : ∀ l ∈ limits, ∀ record, card.recorded l.claimName = some record → record = l.kvLimitBytes) :
    Growing engines limits start card := by
  refine ⟨h, fun e he hseg l hl hnm => ?_⟩
  obtain ⟨record, hrec, _⟩ := h.withinRecord hsf he (h.segment ▸ hseg)
  rw [recordedBytes, hrec, getD_some, hrc l hl record (hnm ▸ hrec)]

/-- Wherever an arrangement stops, no engine is held past its record, and neither the limits in force
nor the records oversubscribe the card, unless a reading leaves out a segment that is held to more than its plan. -/
theorem arrangeCard_safe (ledger : PodLedger) (engines : List EngineOnPod) (why : Division) (card : Card)
    (hreads : CardReads engines card) (hhidden : HiddenKeepLittle engines card)
    (hsafe : CardSafe ledger.plannableBytes engines card) :
    CardSafe ledger.plannableBytes engines (arrangeCard outcomes ledger engines why { card }).2.card ∧
      ∀ c ∈ (arrangeCard outcomes ledger engines why { card }).2.trace, CardSafe ledger.plannableBytes engines c := by
  suffices hkept : Kept (CardSafe ledger.plannableBytes engines) { card }
      (arrangeCard outcomes ledger engines why { card }).2 from
    ⟨hkept.now, fun c hc => (hkept.after c hc).resolve_left not_mem_nil⟩
  unfold arrangeCard
  split
  · exact .refl hsafe
  rename_i limits hlimits
  have hplan := planKVLimits_planOf hsafe hreads.claims hlimits
  dsimp only
  split
  · exact .refl hsafe
  split
  · exact .refl hsafe
  have hshrink := shrink_kept outcomes hreads hplan
  split
  · -- A shrink failed, and the ones written are taken back.
    rename_i written err w1 heq
    rw [heq] at hshrink
    have hwritten : ∀ l ∈ written, l ∈ (shrinksAndGrows limits).1 := fun l hl =>
      writeAndConfirmKVLimits_written outcomes (by rw [heq]; exact hl)
    exact (hshrink.trans (takeBack_kept outcomes hreads hplan hwritten hshrink.now)).mono fun _ => hsafe.of_lowered
  rename_i written w1 heq
  rw [heq] at hshrink
  have hconfirmed := writeAndConfirmKVLimits_confirmed outcomes heq
  have hlower := lowerRecords_kept outcomes hreads hplan
    (hshrink.now.lowering hreads hhidden hsafe hplan fun l hl hs => hconfirmed l (mem_shrinks.2 ⟨hl, hs⟩))
  have hsafe1 := hshrink.mono fun _ => hsafe.of_lowered
  split
  · rename_i heq2
    rw [heq2] at hlower
    exact hsafe1.trans (hlower.mono fun _ => hsafe.of_lowering)
  rename_i w2 heq2
  rw [heq2] at hlower
  have hsafe2 := hsafe1.trans (hlower.mono fun _ => hsafe.of_lowering)
  have hfirst := recordKVLimits_none outcomes heq2
  have hother := otherRecords_kept outcomes hplan (hlower.now.toPlanned hreads hplan fun l hl hl' record hrec => by
    have hclaims : ((limits.filter (·.lowersRecord)).map (·.claimName)).Nodup :=
      hplan.claims.sublist (filter_sublist.map _)
    rw [hfirst, foldl_record_of_mem _ hclaims (mem_filter.2 ⟨hl, hl'⟩)] at hrec
    obtain ⟨_, _, rfl⟩ := map_eq_some_iff.1 hrec
    rfl)
  split
  · rename_i heq3
    rw [heq3] at hother
    exact hsafe2.trans (hother.mono fun _ => hsafe.of_planned hplan)
  rename_i w3 heq3
  rw [heq3] at hother
  have hsafe3 := hsafe2.trans (hother.mono fun _ => hsafe.of_planned hplan)
  have hsecond := recordKVLimits_none outcomes heq3
  have hgrow := grow_kept outcomes hreads hplan (hother.now.growing hsafe fun l hl record hrec => by
    rw [recorded_of_passes hplan hfirst hsecond hl] at hrec
    obtain ⟨_, _, rfl⟩ := map_eq_some_iff.1 hrec
    rfl)
  exact hsafe3.trans (hgrow.mono fun _ hc => hsafe.of_planned hplan hc.toPlanned)

def chatEngine : EngineOnPod :=
  { claimName := "chat", modelName := "chat", maximumFootprintBytes := 30, kvFloorBytes := 10, kvUsedBytes := 12,
    kvCapacityBytes := 60, kvRecordedBytes := 60, used_nonneg := Int.natCast_nonneg 12
    sleeping_nonneg := noBytes_nonneg }

def embedEngine : EngineOnPod :=
  { claimName := "embed", modelName := "embed", maximumFootprintBytes := 20, kvFloorBytes := 10
    used_nonneg := noBytes_nonneg, sleeping_nonneg := noBytes_nonneg }

def sharedCard : Card :=
  ⟨(· = "chat"), fun _ => 60, fun name => if name = "chat" then some 60 else none⟩

/-- A card shared with a newcomer whose one shrink takes effect and reports a failure. -/
theorem arrangeCard_safe_lost_answer :
    let lost : Outcomes := ⟨fun _ => { reached := true, reported := false }, fun _ => none, fun _ => .refused⟩
    let w := (arrangeCard lost { judgeable := true, hbmUsableBytes := 100 } [chatEngine, embedEngine] placementDivision
      { card := sharedCard }).2
    w.card.inForce "chat" = 26 ∧ ∀ c ∈ w.trace, CardSafe 100 [chatEngine, embedEngine] c := by
  intro lost
  refine ⟨by decide, (arrangeCard_safe lost { judgeable := true, hbmUsableBytes := 100 } [chatEngine, embedEngine]
    placementDivision sharedCard ⟨?_, ?_, ?_, ?_⟩ ?_ ⟨?_, ?_, ?_⟩).2⟩
  · simp [chatEngine, embedEngine, sharedCard, kvLimitUnknown]
  · simp [chatEngine, embedEngine, sharedCard, recordedBytes]
  · decide
  · decide
  · simp [HiddenKeepLittle, chatEngine, embedEngine, sharedCard]
  · simp [chatEngine, embedEngine, sharedCard]
  · decide
  · decide

/-- The same engine while it boots again, with its segment still there. -/
def chatStarting : EngineOnPod :=
  chatEngine.observe
    { modelName := "chat", phase := .booting, ready := false, kvUsedBytes := 12, kvCapacityBytes := 60 } ⟨"p", .active, 60⟩

/-- Every call succeeds: the engine that is still starting is not shrunk, and its record is lowered below the limit
it is held to. -/
theorem record_lowered_below_limit_in_force :
    let fine : Outcomes := ⟨fun _ => { reached := true, reported := true }, fun _ => some [], fun _ => .stored⟩
    let w := (arrangeCard fine { judgeable := true, hbmUsableBytes := 100 } [chatStarting, embedEngine]
      placementDivision { card := sharedCard }).2
    CardReads [chatStarting, embedEngine] sharedCard ∧ CardSafe 100 [chatStarting, embedEngine] sharedCard ∧
      w.card.segment "chat" = true ∧ w.card.inForce "chat" = 60 ∧ w.card.recorded "chat" = some 26 ∧
      ¬ CardSafe 100 [chatStarting, embedEngine] w.card := by
  intro fine w
  have hrecord : w.card.segment "chat" = true ∧ w.card.inForce "chat" = 60 ∧ w.card.recorded "chat" = some 26 := by
    decide
  refine ⟨⟨?_, ?_, ?_, ?_⟩, ⟨?_, ?_, ?_⟩, hrecord.1, hrecord.2.1, hrecord.2.2, fun hsafe => ?_⟩
  · simp [chatStarting, EngineOnPod.observe, embedEngine, kvLimitUnknown]
  · simp [chatStarting, EngineOnPod.observe, chatEngine, embedEngine, sharedCard, recordedBytes]
  · decide
  · decide
  · simp [chatStarting, EngineOnPod.observe, chatEngine, embedEngine, sharedCard]
  · decide
  · decide
  · obtain ⟨record, hrec, hle⟩ := hsafe.withinRecord chatStarting mem_cons_self hrecord.1
    rw [show chatStarting.claimName = "chat" from rfl, hrecord.2.2, Option.some.injEq] at hrec
    rw [show chatStarting.modelName = "chat" from rfl, hrecord.2.1] at hle
    omega

end

end Aibrix.Modelclaim
