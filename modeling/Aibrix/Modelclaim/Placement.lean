import Aibrix.Modelclaim.ArrangeCard

/-! # Placing a new instance

The gate of a placement (`placement.go`) and the division that follows it, and the cards that are held for claims
(`makeroom.go`). Every call on the reservations runs under one lock, so a run is a sequence of calls. Times are
nanoseconds. -/

namespace Aibrix.Modelclaim

open List

structure NamespacedName where
  ns : String
  name : String
  deriving DecidableEq, Repr

structure CardReservation where
  claim : String
  bytes : Int
  heldUntil : Int
  protectsWake : Bool
  deriving DecidableEq, Repr

def reservationLifetime : Int := 120000000000

/-- The cards held, each once, in the order a loop over them happens to take. -/
structure CardReservations where
  held : List (NamespacedName × CardReservation) := []
  nodup : (held.map Prod.fst).Nodup := by simp

def PodLedger.reserve (l : PodLedger) (bytes : Int) : PodLedger :=
  if l.judgeable then { l with reservedBytes := l.reservedBytes + bytes } else l

theorem PodLedger.reserve_reserve (l : PodLedger) (a b : Int) : (l.reserve a).reserve b = l.reserve (a + b) := by
  unfold PodLedger.reserve
  cases hj : l.judgeable <;> simp [hj, add_assoc]

namespace CardReservations

def keep (c : CardReservations) (p : NamespacedName × CardReservation → Bool) : CardReservations :=
  ⟨c.held.filter p, c.nodup.sublist (filter_sublist.map _)⟩

variable (c : CardReservations)

def prune (now : Int) : CardReservations := c.keep (now < ·.2.heldUntil)

variable (card : NamespacedName)

def lookup : Option CardReservation :=
  (c.held.find? (·.1 = card)).map (·.2)

variable (ns claim : String)

def ofClaim (hold : NamespacedName × CardReservation) : Bool :=
  hold.1.ns = ns && hold.2.claim = claim

def protect (c : CardReservations) (card : NamespacedName) : CardReservations :=
  ⟨c.held.map fun hold => if hold.1 = card then (hold.1, { hold.2 with protectsWake := true }) else hold, by
    have hkeys : (c.held.map fun hold => if hold.1 = card then (hold.1, { hold.2 with protectsWake := true })
        else hold).map Prod.fst = c.held.map Prod.fst := by
      rw [map_map]
      refine map_congr_left fun hold _ => ?_
      simp only [Function.comp]
      split <;> rfl
    rw [hkeys]
    exact c.nodup⟩

theorem lookup_eq_none {c : CardReservations} {card : NamespacedName} :
    c.lookup card = none ↔ card ∉ c.held.map Prod.fst := by
  simp only [lookup, Option.map_eq_none_iff, List.find?_eq_none, mem_map, decide_eq_true_eq]
  exact ⟨fun h ⟨hold, hmem, heq⟩ => h hold hmem heq, fun h hold hmem heq => h ⟨hold, hmem, heq⟩⟩

theorem mem_of_lookup {c : CardReservations} {card : NamespacedName} {r : CardReservation}
    (h : c.lookup card = some r) : (card, r) ∈ c.held := by
  obtain ⟨⟨card', r'⟩, hfn, rfl⟩ := Option.map_eq_some_iff.1 h
  obtain rfl : card' = card := by simpa using List.find?_some hfn
  exact mem_of_find?_eq_some hfn

/-- Adds a hold on a card that none of the kept holds is on. -/
def insertFresh (r : CardReservation)
    (p : NamespacedName × CardReservation → Bool) (h : c.lookup card = none) : CardReservations :=
  ⟨(card, r) :: c.held.filter p, by
    have hsub := (filter_sublist (p := p) (l := c.held)).map Prod.fst
    exact nodup_cons.2 ⟨fun hmem => lookup_eq_none.1 h (hsub.subset hmem), c.nodup.sublist hsub⟩⟩

def holdWithWakeProtection (c : CardReservations) (card : NamespacedName) (claim : String) (bytes now : Int)
    (protectsWake : Bool) : Bool × CardReservations :=
  let c := c.prune now
  match h : c.lookup card with
  | some current =>
    if current.claim ≠ claim then (false, c)
    else (true, if protectsWake && !current.protectsWake then c.protect card else c)
  | none =>
    -- The claim's other holds in the namespace go.
    (true, c.insertFresh card ⟨claim, bytes, now + reservationLifetime, protectsWake⟩
      (!ofClaim card.ns claim ·) h)

def hold (claim : String) (bytes now : Int) :=
  c.holdWithWakeProtection card claim bytes now false

/-- Holds a card for priority sleep, and keeps requests to wake an engine from taking its room. -/
def holdPreemption (claim : String) (bytes now : Int) :=
  c.holdWithWakeProtection card claim bytes now true

def release : CardReservations := c.keep (!ofClaim ns claim ·)

def heldFor (now : Int) : Option NamespacedName × CardReservations :=
  let c := c.prune now
  ((c.held.find? (ofClaim ns claim)).map (·.1), c)

def takeHeld (applies : NamespacedName × CardReservation → Bool)
    (held : List (NamespacedName × CardReservation)) (ledgers : String → Option PodLedger) :
    String → Option PodLedger :=
  held.foldl (fun ledgers hold =>
    if applies hold then
      Function.update ledgers hold.1.name ((ledgers hold.1.name).map (·.reserve hold.2.bytes))
    else ledgers) ledgers

def takeFrom (ledgers : String → Option PodLedger) (ns claim : String) (now : Int) :
    (String → Option PodLedger) × CardReservations :=
  let c := c.prune now
  (takeHeld (fun hold => hold.1.ns = ns && hold.2.claim ≠ claim) c.held ledgers, c)

end CardReservations

def modelClaimPriority (claims : Option (List ModelClaim)) (ns name : String) : Option Int :=
  ((claims.getD []).find? fun claim => claim.ns = ns && claim.name = name).map (·.priority)

def CardReservations.takePreemptionsFrom (c : CardReservations) (ledgers : String → Option PodLedger)
    (claims : Option (List ModelClaim)) (waker : Option ModelClaim) (now : Int) :
    (String → Option PodLedger) × CardReservations :=
  match waker with
  | none => (ledgers, c)
  | some waker =>
    let c := c.prune now
    (takeHeld (fun hold => hold.1.ns = waker.ns && hold.2.protectsWake &&
      !(modelClaimPriority claims hold.1.ns hold.2.claim).any (· < waker.priority)) c.held ledgers, c)

/-! ## Runs -/

inductive ReservationCall where
  | hold (card : NamespacedName) (claim : String) (bytes now : Int) (protectsWake : Bool)
  | release (ns claim : String)
  | takeFrom (ledgers : String → Option PodLedger) (ns claim : String) (now : Int)
  | takePreemptionsFrom (ledgers : String → Option PodLedger) (claims : Option (List ModelClaim))
      (waker : Option ModelClaim) (now : Int)
  | heldFor (ns claim : String) (now : Int)

namespace CardReservations

def apply (c : CardReservations) : ReservationCall → CardReservations
  | .hold card claim bytes now true => (c.holdPreemption card claim bytes now).2
  | .hold card claim bytes now false => (c.hold card claim bytes now).2
  | .release ns claim => c.release ns claim
  | .takeFrom ledgers ns claim now => (c.takeFrom ledgers ns claim now).2
  | .takePreemptionsFrom ledgers claims waker now => (c.takePreemptionsFrom ledgers claims waker now).2
  | .heldFor ns claim now => (c.heldFor ns claim now).2

def run (c : CardReservations) (calls : List ReservationCall) : CardReservations := calls.foldl apply c

def OneCardPerClaim (c : CardReservations) : Prop :=
  ∀ a ∈ c.held, ∀ b ∈ c.held, a.1.ns = b.1.ns → a.2.claim = b.2.claim → a.1 = b.1

variable {c : CardReservations} {now : Int} {p : NamespacedName × CardReservation → Bool}

theorem mem_keep
    {hold : NamespacedName × CardReservation} : hold ∈ (c.keep p).held ↔ hold ∈ c.held ∧ p hold := mem_filter

theorem mem_prune {hold : NamespacedName × CardReservation} :
    hold ∈ (c.prune now).held ↔ hold ∈ c.held ∧ now < hold.2.heldUntil := by
  simp [prune, mem_keep]

theorem mem_protect {card : NamespacedName} {hold : NamespacedName × CardReservation} :
    hold ∈ (c.protect card).held ↔ ∃ hold' ∈ c.held,
      hold = if hold'.1 = card then (hold'.1, { hold'.2 with protectsWake := true }) else hold' := by
  simp [protect, eq_comm]

theorem holdWithWakeProtection_cases (c : CardReservations) (card : NamespacedName) (claim : String)
    (bytes now : Int) (wake : Bool) :
    let after := c.holdWithWakeProtection card claim bytes now wake
    (after = (false, c.prune now) ∧ ∃ r, (card, r) ∈ c.held ∧ now < r.heldUntil ∧ r.claim ≠ claim) ∨
    (after.1 = true ∧ (after.2 = c.prune now ∨ after.2 = (c.prune now).protect card) ∧
      ∃ r, (card, r) ∈ c.held ∧ now < r.heldUntil ∧ r.claim = claim) ∨
    (after.1 = true ∧ card ∉ (c.prune now).held.map Prod.fst ∧
      after.2.held = (card, ⟨claim, bytes, now + reservationLifetime, wake⟩) ::
        (c.prune now).held.filter (!ofClaim card.ns claim ·)) := by
  intro after
  simp only [after, holdWithWakeProtection]
  split
  · rename_i current hcr
    obtain ⟨hmem, hlv⟩ := mem_prune.1 (mem_of_lookup hcr)
    split
    · exact .inl ⟨rfl, current, hmem, hlv, ‹_›⟩
    rename_i hcl
    refine .inr (.inl ⟨rfl, ?_, current, hmem, hlv, not_not.1 hcl⟩)
    split
    · exact .inr rfl
    · exact .inl rfl
  · rename_i hnn
    exact .inr (.inr ⟨rfl, lookup_eq_none.1 hnn, rfl⟩)

theorem apply_hold (c : CardReservations) (card : NamespacedName) (claim : String) (bytes now : Int)
    (wake : Bool) : c.apply (.hold card claim bytes now wake) =
      (c.holdWithWakeProtection card claim bytes now wake).2 := by
  cases wake <;> rfl

section

variable (h : c.OneCardPerClaim)
include h

theorem OneCardPerClaim.keep (p : NamespacedName × CardReservation → Bool) : (c.keep p).OneCardPerClaim :=
  fun a ha b hb => h a (mem_keep.1 ha).1 b (mem_keep.1 hb).1

theorem OneCardPerClaim.protect (card : NamespacedName) : (c.protect card).OneCardPerClaim := by
  intro a ha b hb
  obtain ⟨a', ha', rfl⟩ := mem_protect.1 ha
  obtain ⟨b', hb', rfl⟩ := mem_protect.1 hb
  have := h a' ha' b' hb'
  split <;> split <;> exact this

theorem OneCardPerClaim.holdWithWakeProtection
    (card : NamespacedName) (claim : String) (bytes now : Int) (wake : Bool) :
    (c.holdWithWakeProtection card claim bytes now wake).2.OneCardPerClaim := by
  have hpr : (c.prune now).OneCardPerClaim := h.keep _
  obtain ⟨heq, _⟩ | ⟨_, heq | heq, _⟩ | ⟨_, _, heq⟩ :=
    c.holdWithWakeProtection_cases card claim bytes now wake
  · rw [heq]; exact hpr
  · rw [heq]; exact hpr
  · rw [heq]; exact hpr.protect card
  -- Whatever else the claim held in the namespace is gone.
  have hot : ∀ hold ∈ (c.prune now).held.filter (!ofClaim card.ns claim ·),
      hold.1.ns = card.ns → hold.2.claim ≠ claim := by
    intro hold hmem hns hcl
    simp [ofClaim, hns, hcl] at hmem
  intro a ha b hb hns hcl
  rw [heq] at ha hb
  rcases mem_cons.1 ha with rfl | ha' <;> rcases mem_cons.1 hb with rfl | hb'
  · rfl
  · exact absurd hcl.symm (hot b hb' hns.symm)
  · exact absurd hcl (hot a ha' hns)
  · exact hpr a (mem_of_mem_filter ha') b (mem_of_mem_filter hb') hns hcl

theorem OneCardPerClaim.apply (call : ReservationCall) : (c.apply call).OneCardPerClaim := by
  cases call with
  | hold card claim bytes now protectsWake =>
    rw [apply_hold]
    exact h.holdWithWakeProtection card claim bytes now protectsWake
  | release ns claim | takeFrom ledgers ns claim now => exact h.keep _
  | takePreemptionsFrom ledgers claims waker now =>
    cases waker with
    | none => exact h
    | some waker => exact h.keep _
  | heldFor ns claim now => exact h.keep _

theorem OneCardPerClaim.run (calls : List ReservationCall) : (c.run calls).OneCardPerClaim :=
  foldlRecOn (motive := OneCardPerClaim) calls _ h fun _ hc call _ => hc.apply call

end

/-! ## What a hold survives -/

def Ends (card : NamespacedName) (claim : String) (heldUntil : Int) (c : CardReservations) : ReservationCall → Prop
  | .hold card' claim' bytes now protectsWake => heldUntil ≤ now ∨ (card' ≠ card ∧ card'.ns = card.ns ∧
      claim' = claim ∧ (c.holdWithWakeProtection card' claim' bytes now protectsWake).1 = true)
  | .release ns claim' => ns = card.ns ∧ claim' = claim
  | .takeFrom _ _ _ now | .takePreemptionsFrom _ _ _ now | .heldFor _ _ now => heldUntil ≤ now

def NeverEnds (card : NamespacedName) (claim : String) (heldUntil : Int) :
    CardReservations → List ReservationCall → Prop
  | _, [] => True
  | c, call :: calls => ¬ Ends card claim heldUntil c call ∧ NeverEnds card claim heldUntil (c.apply call) calls

def HeldFor (c : CardReservations) (card : NamespacedName) (claim : String) (bytes heldUntil : Int) : Prop :=
  ∃ protectsWake, (card, ⟨claim, bytes, heldUntil, protectsWake⟩) ∈ c.held

variable {c : CardReservations} {card : NamespacedName} {claim : String} {bytes heldUntil : Int}

section

variable (h : c.HeldFor card claim bytes heldUntil)
include h

theorem HeldFor.prune (hlv : now < heldUntil) : (c.prune now).HeldFor card claim bytes heldUntil :=
  h.imp fun _ hmem => mem_prune.2 ⟨hmem, hlv⟩

theorem HeldFor.protect (card' : NamespacedName) : (c.protect card').HeldFor card claim bytes heldUntil := by
  obtain ⟨protectsWake, hmem⟩ := h
  by_cases hcr : card = card'
  · exact ⟨true, mem_protect.2 ⟨_, hmem, by rw [if_pos hcr]⟩⟩
  · exact ⟨protectsWake, mem_protect.2 ⟨_, hmem, by rw [if_neg hcr]⟩⟩

theorem HeldFor.hold {card' : NamespacedName} {claim' : String} {bytes' : Int} {wake : Bool}
    (hen : ¬ Ends card claim heldUntil c (.hold card' claim' bytes' now wake)) :
    (c.holdWithWakeProtection card' claim' bytes' now wake).2.HeldFor card claim bytes heldUntil := by
  simp only [Ends, not_or, not_le] at hen
  have hpr := h.prune hen.1
  obtain ⟨heq, _⟩ | ⟨_, heq | heq, _⟩ | ⟨htk, hfr, heq⟩ :=
    c.holdWithWakeProtection_cases card' claim' bytes' now wake
  · rw [heq]; exact hpr
  · rw [heq]; exact hpr
  · rw [heq]; exact hpr.protect card'
  obtain ⟨protectsWake', hmem⟩ := hpr
  have hne : card' ≠ card := fun hcr => hfr (hcr ▸ mem_map_of_mem hmem)
  refine ⟨protectsWake', heq ▸ mem_cons_of_mem _ (mem_filter.2 ⟨hmem, ?_⟩)⟩
  simp only [ofClaim, Bool.not_eq_true', Bool.and_eq_false_iff, decide_eq_false_iff_not]
  by_contra hbt
  rw [not_or, not_not, not_not] at hbt
  exact hen.2 ⟨hne, hbt.1.symm, hbt.2.symm, htk⟩

theorem HeldFor.apply {call : ReservationCall}
    (hen : ¬ Ends card claim heldUntil c call) : (c.apply call).HeldFor card claim bytes heldUntil := by
  cases call with
  | hold card' claim' bytes' now protectsWake =>
    rw [apply_hold]
    exact h.hold hen
  | release ns claim' =>
    refine h.imp fun _ hmem => mem_keep.2 ⟨hmem, ?_⟩
    simp only [ofClaim, Bool.not_eq_true', Bool.and_eq_false_iff, decide_eq_false_iff_not]
    by_contra hbt
    rw [not_or, not_not, not_not] at hbt
    exact hen ⟨hbt.1.symm, hbt.2.symm⟩
  | takeFrom ledgers ns claim' now => exact h.prune (not_le.1 hen)
  | takePreemptionsFrom ledgers claims waker now =>
    cases waker with
    | none => exact h
    | some waker => exact h.prune (not_le.1 hen)
  | heldFor ns claim' now => exact h.prune (not_le.1 hen)

theorem HeldFor.run {calls : List ReservationCall}
    (hen : NeverEnds card claim heldUntil c calls) : (c.run calls).HeldFor card claim bytes heldUntil := by
  induction calls generalizing c with
  | nil => exact h
  | cons call calls ih => exact ih (h.apply hen.1) hen.2

end

/-! ## What is taken off an account -/

variable (applies : NamespacedName × CardReservation → Bool) (held : List (NamespacedName × CardReservation))

def takenBytes (name : String) : Int :=
  ((held.filter fun hold => applies hold && hold.1.name = name).map (·.2.bytes)).sum

theorem takeHeld_apply (ledgers : String → Option PodLedger) (name : String) :
    takeHeld applies held ledgers name = (ledgers name).map (·.reserve (takenBytes applies held name)) := by
  induction held generalizing ledgers with
  | nil => simp [takeHeld, takenBytes, PodLedger.reserve]
  | cons hold held ih =>
    simp only [takeHeld, foldl_cons] at ih ⊢
    rw [ih]
    by_cases hap : applies hold
    · by_cases hnm : hold.1.name = name
      · subst hnm
        simp [hap, takenBytes, PodLedger.reserve_reserve, Function.comp_def]
      · simp [hap, takenBytes, hnm, Function.update_of_ne (Ne.symm hnm)]
    · simp [hap, takenBytes]

theorem sum_bytes_of_mem {held : List (NamespacedName × CardReservation)} {r : CardReservation}
    (hnd : (held.map Prod.fst).Nodup) (hmem : (card, r) ∈ held) (hp : ∀ hold, p hold → hold.1 = card) :
    ((held.filter p).map (·.2.bytes)).sum = if p (card, r) then r.bytes else 0 := by
  induction held with
  | nil => simp at hmem
  | cons hold held ih =>
    rw [map_cons, nodup_cons] at hnd
    rcases mem_cons.1 hmem with rfl | hmem'
    · have hrs : held.filter p = [] := by
        rw [filter_eq_nil_iff]
        intro hold hold_mem hps
        exact hnd.1 (mem_map.2 ⟨hold, hold_mem, hp hold hps⟩)
      cases hps : p (card, r) <;> simp [hrs, hps]
    have hfl : p hold = false := by
      by_contra hps
      refine hnd.1 (mem_map.2 ⟨(card, r), hmem', ?_⟩)
      exact (hp hold (Bool.not_eq_false _ ▸ hps)).symm
    rw [filter_cons_of_neg (by simp [hfl])]
    exact ih hnd.2 hmem'

theorem takeFrom_apply (c : CardReservations) (ledgers : String → Option PodLedger) (ns claim : String)
    (now : Int) (name : String) : (c.takeFrom ledgers ns claim now).1 name = (ledgers name).map (·.reserve
      ((c.held.filter fun hold => now < hold.2.heldUntil && hold.1 = ⟨ns, name⟩ && hold.2.claim ≠ claim).map
        (·.2.bytes)).sum) := by
  have hsm : ∀ hold : NamespacedName × CardReservation,
      (((decide (hold.1.ns = ns) && decide (hold.2.claim ≠ claim)) && decide (hold.1.name = name)) &&
        decide (now < hold.2.heldUntil)) =
      (decide (now < hold.2.heldUntil) && decide (hold.1 = ⟨ns, name⟩) && decide (hold.2.claim ≠ claim)) := by
    rintro ⟨⟨ns', name'⟩, r⟩
    grind
  simp only [takeFrom, takeHeld_apply, takenBytes, prune, keep, filter_filter, hsm]

theorem HeldFor.takeFrom (h : c.HeldFor card claim bytes heldUntil) (hlv : now < heldUntil)
    (ledgers : String → Option PodLedger) (asking : String) : (c.takeFrom ledgers card.ns asking now).1 card.name =
      (ledgers card.name).map (·.reserve (if asking = claim then 0 else bytes)) := by
  obtain ⟨protectsWake, hmem⟩ := h
  rw [takeFrom_apply, sum_bytes_of_mem c.nodup hmem]
  · by_cases hak : asking = claim
    · simp [hak]
    · simp [hlv, hak, Ne.symm hak]
  · intro hold hps
    simp only [Bool.and_eq_true, decide_eq_true_eq] at hps
    exact hps.1.2

end CardReservations

theorem cardReservations_run (calls : List ReservationCall) :
    let c := CardReservations.run {} calls
    (c.held.map Prod.fst).Nodup ∧ c.OneCardPerClaim ∧
    (∀ card claim bytes now protectsWake, (c.holdWithWakeProtection card claim bytes now protectsWake).1 = false →
        (c.holdWithWakeProtection card claim bytes now protectsWake).2 = c.prune now) ∧
    (∀ card claim bytes heldUntil, c.HeldFor card claim bytes heldUntil → ∀ later,
      CardReservations.NeverEnds card claim heldUntil c later → (c.run later).HeldFor card claim bytes heldUntil) ∧
    (∀ ledgers ns claim now name, (c.takeFrom ledgers ns claim now).1 name = (ledgers name).map (·.reserve
      ((c.held.filter fun hold => now < hold.2.heldUntil && hold.1 = ⟨ns, name⟩ && hold.2.claim ≠ claim).map
        (·.2.bytes)).sum)) ∧
    (∀ card claim bytes heldUntil now, c.HeldFor card claim bytes heldUntil → now < heldUntil →
      ∀ ledgers asking, (c.takeFrom ledgers card.ns asking now).1 card.name =
        (ledgers card.name).map (·.reserve (if asking = claim then 0 else bytes))) := by
  intro c
  refine ⟨c.nodup, CardReservations.OneCardPerClaim.run (by simp [CardReservations.OneCardPerClaim]) calls,
    fun card claim bytes now protectsWake hfalse => ?_, fun _ _ _ _ h _ hends => h.run hends,
    c.takeFrom_apply, fun _ _ _ _ _ h hlive ledgers asking => h.takeFrom hlive ledgers asking⟩
  obtain ⟨heq, _⟩ | ⟨htrue, _⟩ | ⟨htrue, _⟩ :=
    c.holdWithWakeProtection_cases card claim bytes now protectsWake
  · rw [heq]
  · exact absurd (hfalse.symm.trans htrue) (by decide)
  · exact absurd (hfalse.symm.trans htrue) (by decide)

/-- Another claim is refused, and holding the card again keeps the first expiry. -/
theorem cardReservations_run_held_again :
    let card : NamespacedName := ⟨"ns", "warm"⟩
    let c := CardReservations.run {} [.hold card "chat" 40 0 false]
    (c.run [.hold card "embed" 30 5 true, .hold card "chat" 50 10 true]).HeldFor card "chat" 40
      reservationLifetime := by
  intro card c
  refine (cardReservations_run [.hold card "chat" 40 0 false]).2.2.2.1 card "chat" 40 reservationLifetime
    ⟨false, by decide⟩ _ ⟨?_, ?_, trivial⟩ <;>
  simp [CardReservations.Ends, reservationLifetime]

/-! ## The gate -/

def podHasGPUs (pod : Pod) (reportedAccelerators : Nat) : Bool :=
  0 < pod.gpuCount || 0 < reportedAccelerators

/-- Whether an instance that runs on `instanceGPUs` cards can run on a pod. Zero holds a pod to nothing. -/
def fitsTopology (pod : Pod) (ledger : PodLedger) (instanceGPUs : Int) : Bool :=
  instanceGPUs = 0 || 0 < pod.gpuCount || ledger.accelerators = 0 || (ledger.accelerators : Int) = instanceGPUs

/-- How much a card holds, and how much of that the instances on it take. -/
def cardAccount (ledger : PodLedger) (takenBytes : Int) (taken : String) : String :=
  let account := "the card holds " ++ gibibytes ledger.hbmUsableBytes ++ ", and " ++ gibibytes takenBytes ++
    " of it is " ++ taken ++ " " ++ toString ledger.engines.length ++ " instance(s)"
  if 0 < ledger.reservedBytes then
    account ++ "; " ++ gibibytes ledger.reservedBytes ++ " more is held for another model that room is being made for"
  else account

structure PodRefusal where
  pod : String
  roomBytes : Int := 0
  known : Bool := false
  couldHold : Bool := false
  reason : String
  deriving DecidableEq

def podRefusal (pod : Pod) (ledger : PodLedger) (minimumReserveBytes instanceGPUs : Int) : Option PodRefusal :=
  -- A pod without cards has nothing to account for.
  if !ledger.unread && !podHasGPUs pod ledger.accelerators then none
  else if !ledger.judgeable then
    some { pod := pod.name, reason := pod.name ++ " could not be judged: " ++ ledger.blocked }
  else if !fitsTopology pod ledger instanceGPUs then
    some { pod := pod.name
           reason := pod.name ++ " reports " ++ toString ledger.accelerators ++
             " GPU(s), and the model runs on " ++ toString instanceGPUs }
  else if ledger.maximumRoomBytes < minimumReserveBytes then
    let room := max ledger.maximumRoomBytes 0
    some { pod := pod.name, roomBytes := room, known := true
           reason := pod.name ++ " can offer at most " ++ gibibytes room ++
             ", even with every engine on it at its floor (" ++
             cardAccount ledger ledger.totalMinimumReserveBytes "promised to" ++ ")" }
  else if ledger.heldRoomBytes < minimumReserveBytes then
    let room := max ledger.heldRoomBytes 0
    some { pod := pod.name, roomBytes := room, known := true, couldHold := true
           reason := pod.name ++ " has " ++ gibibytes room ++
             " free, with the rest held by the engines already on it (" ++
             cardAccount ledger ledger.totalHeldBytes "held by" ++ ")" }
  else none

def admissibleCandidates (candidates : List Pod) (ledgers : String → Option PodLedger)
    (minimumReserveBytes instanceGPUs : Int) : List Pod × List PodRefusal :=
  let refusal := fun pod =>
    podRefusal pod ((ledgers pod.name).getD {}) minimumReserveBytes instanceGPUs
  (candidates.filter fun pod => (refusal pod).isNone, candidates.filterMap refusal)

def newcomer (pm : ModelClaim) (perGPU : PerGPUBytes) : EngineOnPod :=
  { perGPU with
    claimName := pm.name
    modelName := servedModelName pm
    used_nonneg := le_refl 0
    sleeping_nonneg := le_refl 0 }

/-! ## The gate and the planner agree -/

variable {perGPU : PerGPUBytes} {pm : ModelClaim}

section

variable (h : perGPUBytesOf pm = .ok perGPU)
include h

theorem newcomer_kvHeldBytes : (newcomer pm perGPU).kvHeldBytes = perGPU.kvFloorBytes := by
  have hfl := (perGPUBytesOf_pos h).2
  exact if_neg (show ¬perGPU.kvFloorBytes < 0 by omega)

theorem newcomer_heldBytes : (newcomer pm perGPU).heldBytes = perGPU.minimumReserveBytes :=
  congrArg (perGPU.maximumFootprintBytes + ·) (newcomer_kvHeldBytes h)

theorem planObjection_newcomer : planObjection (newcomer pm perGPU) = none := by
  obtain ⟨hft, hfl⟩ := perGPUBytesOf_pos h
  unfold planObjection
  rw [if_neg]
  · simp [newcomer, clampKVLimit]
  · simp only [newcomer]
    omega

end

theorem planObjection_within {e : EngineOnPod} (hdc : e.Declared)
    (h : ∀ c, e.kvInitialCapacityBytes = some c → 0 ≤ c → c ≠ 0 ∧ e.kvUsedBytes ≤ c) : planObjection e = none := by
  have hcl : e.plannedKVHeldBytes ≤ clampKVLimit e.plannedKVHeldBytes e.kvInitialCapacityBytes := by
    unfold clampKVLimit
    cases hc : e.kvInitialCapacityBytes with
    | none => exact le_rfl
    | some c =>
      by_cases hnn : 0 ≤ c
      · obtain ⟨hne, hus⟩ := h c hc hnn
        have hhl : e.plannedKVHeldBytes ≤ c := by
          simp only [EngineOnPod.plannedKVHeldBytes, EngineOnPod.kvHeldBytes, EngineOnPod.effectiveKVFloorBytes, hc]
          split
          · exact hus
          · omega
        dsimp only
        omega
      · simp [hnn]
  obtain ⟨hft, hfl⟩ := hdc
  unfold planObjection
  rw [if_neg (by omega), if_neg (by omega)]

theorem mem_admissibleCandidates {candidates : List Pod} {ledgers : String → Option PodLedger}
    {need gpus : Int} {pod : Pod} : pod ∈ (admissibleCandidates candidates ledgers need gpus).1 ↔
      pod ∈ candidates ∧ podRefusal pod ((ledgers pod.name).getD {}) need gpus = none := by
  simp [admissibleCandidates]

theorem room_of_podRefusal_none {pod : Pod} {ledger : PodLedger} {need gpus : Int}
    (h : podRefusal pod ledger need gpus = none) (hgp : podHasGPUs pod ledger.accelerators) :
    need ≤ ledger.heldRoomBytes := by
  unfold podRefusal at h
  rw [if_neg (by simp [hgp])] at h
  split_ifs at h
  omega

section
variable (claims : Except String (List ModelClaim)) (candidates : List Pod)
  (snapshots : String → Option RuntimeSnapshot) (withoutWakeReserve : String → Bool) (reserved : String → Int)

def reservedLedgers (name : String) : Option PodLedger :=
  (podLedgersFrom claims candidates snapshots withoutWakeReserve name).map
    fun ledger => { ledger with reservedBytes := reserved name }

theorem reservedLedgers_sound {name : String} {ledger : PodLedger}
    (h : reservedLedgers claims candidates snapshots withoutWakeReserve reserved name = some ledger) :
    ledger.Sound := by
  obtain ⟨l, hl, rfl⟩ := Option.map_eq_some_iff.1 h
  have hsn := podLedgersFrom_sound claims candidates snapshots withoutWakeReserve name l hl
  exact ⟨hsn.minimum, hsn.held, hsn.declared, hsn.read⟩

/-- The gate and the planner draw the line at the same byte. -/
theorem admission_agrees_with_plan (pm : ModelClaim) (perGPU : PerGPUBytes) (instanceGPUs : Int) (pod : Pod)
    (ledger : PodLedger) (hpm : perGPUBytesOf pm = .ok perGPU)
    (hledger : reservedLedgers claims candidates snapshots withoutWakeReserve reserved pod.name = some ledger)
    (hjudgeable : ledger.judgeable) :
    let admitted := pod ∈ (admissibleCandidates candidates
      (reservedLedgers claims candidates snapshots withoutWakeReserve reserved)
      perGPU.minimumReserveBytes instanceGPUs).1 ∧ podHasGPUs pod ledger.accelerators
    let plan := planKVLimits ledger.plannableBytes (ledger.engines ++ [newcomer pm perGPU])
    (admitted → (∀ e ∈ ledger.engines, ∀ c, e.kvInitialCapacityBytes = some c → 0 ≤ c → c ≠ 0 ∧ e.kvUsedBytes ≤ c) →
      ∃ limits, plan = .ok limits ∧
        (∃ limit ∈ limits, PlanFor (newcomer pm perGPU) limit ∧ perGPU.kvFloorBytes ≤ limit.kvLimitBytes) ∧
        ((∀ e ∈ ledger.engines, e.claimName ≠ pm.name) → ∃ limit, limits.find? (·.claimName = pm.name) = some limit ∧
            perGPU.kvFloorBytes ≤ limit.kvLimitBytes)) ∧
    (∀ bytes, plan = .error (.overfull bytes) → ¬ admitted) ∧
    ledger.heldRoomBytes ≤ ledger.maximumRoomBytes := by
  intro admitted plan
  have hsound := reservedLedgers_sound claims candidates snapshots withoutWakeReserve reserved hledger
  have hroom : admitted → perGPU.minimumReserveBytes ≤ ledger.heldRoomBytes := by
    rintro ⟨hmem, hgpus⟩
    have hnone := (mem_admissibleCandidates.1 hmem).2
    rw [hledger] at hnone
    exact room_of_podRefusal_none hnone hgpus
  have hheld : ((ledger.engines ++ [newcomer pm perGPU]).map (·.heldBytes)).sum =
      ledger.totalHeldBytes + perGPU.minimumReserveBytes := by
    rw [hsound.held, ← newcomer_heldBytes hpm]
    simp
  have hspare : ledger.plannableBytes = ledger.heldRoomBytes + ledger.totalHeldBytes := by
    unfold PodLedger.plannableBytes PodLedger.heldRoomBytes
    omega
  refine ⟨fun hadmitted hcaps => ?_, fun bytes hplan hadmitted => ?_, hsound.heldRoomBytes_le_maximumRoomBytes⟩
  · have hobj : ∀ e ∈ ledger.engines ++ [newcomer pm perGPU], planObjection e = none := by
      intro e he
      rcases mem_append.1 he with he | he
      · exact planObjection_within (hsound.declared hjudgeable e he) (hcaps e he)
      · rw [mem_singleton.1 he]
        exact planObjection_newcomer hpm
    have hfits : ((ledger.engines ++ [newcomer pm perGPU]).map (·.heldBytes)).sum ≤ ledger.plannableBytes := by
      have := hroom hadmitted
      omega
    obtain ⟨limits, hlimits⟩ := planKVLimits_isOk hobj hfits
    have hall := (planKVLimits_spec (by simp) hlimits).1
    have hkeeps : ∀ limit, PlanFor (newcomer pm perGPU) limit → perGPU.kvFloorBytes ≤ limit.kvLimitBytes :=
      fun limit hfor => newcomer_kvHeldBytes hpm ▸ hfor.keeps
    obtain ⟨limit, hmem, hfor⟩ :=
      (forall₂_matches hall).1 (newcomer pm perGPU) (mem_orderedByClaim.2 (by simp))
    refine ⟨limits, hlimits, ⟨limit, hmem, hfor, hkeeps limit hfor⟩, fun hother => ?_⟩
    -- No other engine is planned under the newcomer's claim, so that is the one the lookup finds.
    have hsome : (limits.find? (·.claimName = pm.name)).isSome :=
      find?_isSome.2 ⟨limit, hmem, decide_eq_true hfor.claimName_eq⟩
    obtain ⟨found, hfound⟩ := Option.isSome_iff_exists.1 hsome
    refine ⟨found, hfound, hkeeps found ?_⟩
    obtain ⟨e, he, hfor'⟩ := (forall₂_matches hall).2 found (mem_of_find?_eq_some hfound)
    have hfoundName : found.claimName = pm.name := by simpa using find?_some hfound
    have hname : e.claimName = pm.name := hfor'.claimName_eq.symm.trans hfoundName
    rcases mem_append.1 (mem_orderedByClaim.1 he) with he | he
    · exact absurd hname (hother e he)
    · rwa [mem_singleton.1 he] at hfor'
  · have hfull := planKVLimits_overfull hplan
    have := hroom hadmitted
    omega

end

theorem admission_agrees_with_plan_shared_card :
    let bytes (n : ℚ) : Quantity := ⟨n, "bytes"⟩
    let chat : ModelClaim := ⟨"ns", "chat", "u1", none, some ⟨bytes 30, bytes 10⟩, 0, [⟨"warm", .active, 60⟩]⟩
    let embed : ModelClaim := ⟨"ns", "embed", "u2", none, some ⟨bytes 20, bytes 10⟩, 0, []⟩
    let snapshot : RuntimeSnapshot := ⟨0, [⟨110, 105⟩],
      [{ modelName := "chat", phase := .active, kvUsedBytes := 12, kvCapacityBytes := 60
         kvInitialCapacityBytes := some 70 }]⟩
    ∃ ledger, reservedLedgers (.ok [chat]) [{ name := "warm", gpuCount := 1 }] (fun _ => some snapshot)
        (fun _ => false) (fun _ => 5) "warm" = some ledger ∧ ledger.engines.length = 1 ∧
      ∃ limits, planKVLimits 100 (ledger.engines ++ [newcomer embed ⟨20, 10⟩]) = .ok limits ∧
        ∃ limit ∈ limits, PlanFor (newcomer embed ⟨20, 10⟩) limit ∧ 10 ≤ limit.kvLimitBytes := by
  intro bytes chat embed snapshot
  refine ⟨_, rfl, rfl, ?_⟩
  obtain ⟨limits, hlimits, hnewcomer, _⟩ := (admission_agrees_with_plan (.ok [chat])
    [{ name := "warm", gpuCount := 1 }] (fun _ => some snapshot) (fun _ => false) (fun _ => 5) embed ⟨20, 10⟩ 1
    { name := "warm", gpuCount := 1 } _ rfl rfl rfl).1 ⟨by decide, by decide⟩ (by decide)
  exact ⟨limits, hlimits, hnewcomer⟩

end Aibrix.Modelclaim
