import Mathlib.Data.Rat.Floor
import Mathlib.Algebra.Order.BigOperators.Group.List

/-! # The GPU memory account of a card

What an instance costs, what an engine holds, and the account of a card (`pkg/controller/modelclaim/ledger.go`). -/

namespace Aibrix.Modelclaim

/-! ## What an instance costs -/

/-- What one instance of a claim costs on each GPU it runs on. -/
structure PerGPUBytes where
  maximumFootprintBytes : Int
  kvFloorBytes : Int
  deriving DecidableEq, Repr

def PerGPUBytes.minimumReserveBytes (p : PerGPUBytes) : Int :=
  p.maximumFootprintBytes + p.kvFloorBytes

structure Quantity where
  value : ℚ
  text : String
  deriving DecidableEq

def modelClaimMaximumDeclaredBytes : ℚ := 1125899906842624

def modelClaimSmallestRoundedBytes : ℚ := 1048576

def modelClaimDeclaredBytes (name : String) (declared : Quantity) : Except String Int :=
  let refuse (wrong : String) : Except String Int :=
    .error ("spec.perGPU." ++ name ++ " is " ++ declared.text ++ ", which is " ++ wrong)
  if declared.value ≤ 0 then refuse "not positive"
  else if modelClaimMaximumDeclaredBytes < declared.value then refuse "more than 1Pi"
  else if declared.value < modelClaimSmallestRoundedBytes ∧ (⌈declared.value⌉ : ℚ) ≠ declared.value then
    refuse "not a whole number of bytes"
  else .ok ⌈declared.value⌉

inductive ModelClaimPhase where
  | pending | scheduling | loading | activating | active | sleeping | failed | unknown
  deriving DecidableEq, Repr

structure ModelClaimInstance where
  pod : String
  phase : ModelClaimPhase
  kvLimitBytes : Int
  deriving DecidableEq, Repr

structure PerGPU where
  maximumFootprint : Quantity
  kvFloor : Quantity
  deriving DecidableEq

structure ModelClaim where
  ns : String
  name : String
  uid : String
  modelName : Option String
  perGPU : Option PerGPU
  priority : Int
  instances : List ModelClaimInstance
  deriving DecidableEq

def servedModelName (pm : ModelClaim) : String :=
  match pm.modelName with
  | some name => if name ≠ "" then name else pm.name
  | none => pm.name

def perGPUBytesOf (pm : ModelClaim) : Except String PerGPUBytes :=
  match pm.perGPU with
  | none => .error "spec.perGPU is missing"
  | some declared => do
    let maximumFootprintBytes ← modelClaimDeclaredBytes "maximumFootprint" declared.maximumFootprint
    let kvFloorBytes ← modelClaimDeclaredBytes "kvFloor" declared.kvFloor
    return ⟨maximumFootprintBytes, kvFloorBytes⟩

theorem declaredBytes_pos {name : String} {declared : Quantity} {bytes : Int}
    (h : modelClaimDeclaredBytes name declared = .ok bytes) : 0 < bytes := by
  unfold modelClaimDeclaredBytes at h
  split_ifs at h with hpos _ _
  cases h
  exact Int.ceil_pos.2 (not_le.1 hpos)

theorem perGPUBytesOf_pos {pm : ModelClaim} {perGPU : PerGPUBytes} (h : perGPUBytesOf pm = .ok perGPU) :
    0 < perGPU.maximumFootprintBytes ∧ 0 < perGPU.kvFloorBytes := by
  unfold perGPUBytesOf at h
  cases hp : pm.perGPU with
  | none => simp [hp] at h
  | some declared =>
    simp only [hp] at h
    cases hf : modelClaimDeclaredBytes "maximumFootprint" declared.maximumFootprint with
    | error e => simp [hf, bind, Except.bind] at h
    | ok footprint =>
      cases hk : modelClaimDeclaredBytes "kvFloor" declared.kvFloor with
      | error e => simp [hf, hk, bind, Except.bind] at h
      | ok floor =>
        simp only [hf, hk, bind, Except.bind, pure, Except.pure, Except.ok.injEq] at h
        subst h
        exact ⟨declaredBytes_pos hf, declaredBytes_pos hk⟩

/-! ## What an engine holds -/

/-- Stands for an engine whose KV segment could not be read. -/
def kvLimitUnknown : Int := -1

/-- One instance on a card: what its claim declared, and what its engine does with the memory now. -/
structure EngineOnPod extends PerGPUBytes where
  claimName : String
  modelName : String
  snapshotKey : String := ""
  kvUsedBytes : Int := 0
  kvCapacityBytes : Int := kvLimitUnknown
  kvInitialCapacityBytes : Option Int := none
  /-- The limit the instance records, zero when it records none. -/
  kvRecordedBytes : Int := 0
  inFlightRequests : Int := 0
  requestsWaiting : Int := 0
  demandUnknown : Bool := false
  asleep : Bool := false
  sleepingFootprintBytes : Int := 0
  withoutWakeReserve : Bool := false
  wakeReserveAsked : Bool := false
  used_nonneg : 0 ≤ kvUsedBytes := by decide
  sleeping_nonneg : 0 ≤ sleepingFootprintBytes := by decide
  deriving DecidableEq

namespace EngineOnPod

variable (e : EngineOnPod)

/-- The declared floor, up to a known positive startup pool. -/
def effectiveKVFloorBytes : Int :=
  match e.kvInitialCapacityBytes with
  | some ceiling => if 0 < ceiling then min e.kvFloorBytes ceiling else e.kvFloorBytes
  | none => e.kvFloorBytes

def minimumReserveBytes : Int :=
  if e.withoutWakeReserve then e.sleepingFootprintBytes
  else e.maximumFootprintBytes + e.effectiveKVFloorBytes

/-- The KV an engine keeps whatever else happens on the card. -/
def kvHeldBytes : Int :=
  if e.effectiveKVFloorBytes < e.kvUsedBytes then e.kvUsedBytes else e.effectiveKVFloorBytes

/-- What one instance occupies on a card now and will not give back. -/
def heldBytes : Int :=
  if e.withoutWakeReserve then e.sleepingFootprintBytes
  else e.maximumFootprintBytes + e.kvHeldBytes

/-- The KV an engine keeps in a division before its share of the spare. -/
def plannedKVHeldBytes : Int :=
  if e.withoutWakeReserve then e.kvUsedBytes else e.kvHeldBytes

def Declared : Prop := 0 < e.maximumFootprintBytes ∧ 0 < e.kvFloorBytes

theorem effectiveKVFloorBytes_pos {e : EngineOnPod} (h : e.Declared) : 0 < e.effectiveKVFloorBytes := by
  unfold effectiveKVFloorBytes
  have := h.2
  split
  · omega
  · exact h.2

theorem effectiveKVFloorBytes_le_kvHeldBytes : e.effectiveKVFloorBytes ≤ e.kvHeldBytes := by
  unfold kvHeldBytes; split <;> omega

theorem kvUsedBytes_le_kvHeldBytes : e.kvUsedBytes ≤ e.kvHeldBytes := by
  unfold kvHeldBytes; split <;> omega

theorem minimumReserveBytes_le_heldBytes : e.minimumReserveBytes ≤ e.heldBytes := by
  unfold minimumReserveBytes heldBytes
  have := e.effectiveKVFloorBytes_le_kvHeldBytes
  split <;> omega

theorem plannedKVHeldBytes_nonneg : 0 ≤ e.plannedKVHeldBytes := by
  unfold plannedKVHeldBytes
  have := e.used_nonneg
  have := e.kvUsedBytes_le_kvHeldBytes
  omega

theorem heldBytes_nonneg {e : EngineOnPod} (h : e.Declared) : 0 ≤ e.heldBytes := by
  unfold heldBytes
  have := e.sleeping_nonneg
  have := effectiveKVFloorBytes_pos h
  have := e.effectiveKVFloorBytes_le_kvHeldBytes
  have := h.1
  omega

end EngineOnPod

/-! ## What a runtime reports -/

inductive RuntimePhase where
  | booting | active | sleeping | stopping | failed
  | other (phase : String)
  deriving DecidableEq, Repr

structure RuntimeSnapshotModel where
  modelName : String
  claimRef : Option String := none
  ipcName : String := ""
  phase : RuntimePhase
  alive : Bool := true
  ready : Bool := true
  kvUsedBytes : Int
  kvCapacityBytes : Int
  kvInitialCapacityBytes : Option Int := none
  sleepingFootprintBytes : Option Int := none
  requestMetricsObserved : Bool := true
  requestsRunning : Int := 0
  requestsWaiting : Int := 0
  deriving DecidableEq, Repr

structure RuntimeAcceleratorSnapshot where
  hbmTotalBytes : Int
  hbmUsableBytes : Int
  deriving DecidableEq, Repr

structure RuntimeSnapshot where
  observedAt : Int
  accelerators : List RuntimeAcceleratorSnapshot
  models : List RuntimeSnapshotModel
  deriving DecidableEq, Repr

def snapshotModels : Option RuntimeSnapshot → List RuntimeSnapshotModel
  | none => []
  | some snapshot => snapshot.models

def hbmUsableBytes : Option RuntimeSnapshot → Option Int
  | none => none
  | some snapshot =>
    if snapshot.accelerators.any (·.hbmUsableBytes ≤ 0) then none
    else (snapshot.accelerators.map (·.hbmUsableBytes)).min?

def reportedAccelerators : Option RuntimeSnapshot → Nat
  | none => 0
  | some snapshot =>
    let cards := snapshot.accelerators.countP (0 < ·.hbmTotalBytes)
    if 0 < cards then cards
    else if snapshot.models.any (0 < ·.kvCapacityBytes) then 1 else 0

def sleepingFootprintOf (model : RuntimeSnapshotModel) : Option Int :=
  model.sleepingFootprintBytes.filter (0 < ·)

def snapshotActivityKey (model : RuntimeSnapshotModel) : String :=
  if model.ipcName ≠ "" then model.ipcName else model.modelName

/-- The engine of a claim: by UID where both sides have one, else the last of the served name. -/
def snapshotModelForClaim (snapshot : Option RuntimeSnapshot) (pm : ModelClaim) (served : String) :
    Option RuntimeSnapshotModel :=
  go none (snapshotModels snapshot)
where
  go (legacy : Option RuntimeSnapshotModel) : List RuntimeSnapshotModel → Option RuntimeSnapshotModel
    | [] => legacy
    | model :: rest =>
      match model.claimRef.filter (fun uid => pm.uid ≠ "" ∧ uid ≠ "") with
      | some uid => if uid = pm.uid then some model else go legacy rest
      | none => go (if model.modelName = served then some model else legacy) rest

/-- `observe` takes in what a runtime reading says of an instance's engine. -/
def EngineOnPod.observe (e : EngineOnPod) (model : RuntimeSnapshotModel) (inst : ModelClaimInstance) : EngineOnPod :=
  -- A write during startup would keep the runtime from capturing the pool's initial capacity.
  let starting := !model.ready && (model.kvInitialCapacityBytes.filter (0 ≤ ·)).isNone &&
    (inst.phase = .activating || model.phase = .booting)
  let asleep := model.phase = .sleeping
  { e with
    snapshotKey := snapshotActivityKey model
    kvInitialCapacityBytes := model.kvInitialCapacityBytes
    kvCapacityBytes := if starting then kvLimitUnknown else model.kvCapacityBytes
    inFlightRequests := max model.requestsRunning 0 + max model.requestsWaiting 0
    requestsWaiting := max model.requestsWaiting 0
    demandUnknown := model.ready && !model.requestMetricsObserved && model.phase = .active &&
      inst.phase = .active
    asleep := asleep
    sleepingFootprintBytes :=
      if asleep then max ((sleepingFootprintOf model).getD e.sleepingFootprintBytes) 0
      else e.sleepingFootprintBytes
    kvUsedBytes := max model.kvUsedBytes 0
    used_nonneg := le_max_right _ _
    sleeping_nonneg := by
      split
      · omega
      · exact e.sleeping_nonneg }

/-! ## The account of one card -/

structure PodLedger where
  judgeable : Bool := false
  blocked : String := ""
  keepsNoWakeReserve : Bool := false
  unread : Bool := false
  hbmUsableBytes : Int := 0
  totalMinimumReserveBytes : Int := 0
  totalHeldBytes : Int := 0
  reservedBytes : Int := 0
  accelerators : Nat := 0
  observedAt : Int := 0
  engines : List EngineOnPod := []
  deriving DecidableEq

namespace PodLedger

variable (l : PodLedger)

def maximumRoomBytes : Int :=
  l.hbmUsableBytes - l.totalMinimumReserveBytes - l.reservedBytes

/-- What a division of the card shares out. -/
def plannableBytes : Int := l.hbmUsableBytes - l.reservedBytes

def heldRoomBytes : Int := l.hbmUsableBytes - l.totalHeldBytes - l.reservedBytes

def withHole (reason : String) : PodLedger :=
  { l with blocked := if l.blocked = "" then reason else l.blocked, judgeable := false }

def charge (e : EngineOnPod) : PodLedger :=
  { l with
    totalMinimumReserveBytes := l.totalMinimumReserveBytes + e.minimumReserveBytes
    totalHeldBytes := l.totalHeldBytes + e.heldBytes
    engines := l.engines ++ [e] }

/-- The totals are the sums over the engines, and a card that can be judged charges no claim whose
declaration cannot be used. -/
structure Sound (l : PodLedger) : Prop where
  minimum : l.totalMinimumReserveBytes = (l.engines.map (·.minimumReserveBytes)).sum
  held : l.totalHeldBytes = (l.engines.map (·.heldBytes)).sum
  declared : l.judgeable = true → ∀ e ∈ l.engines, e.Declared
  read : l.judgeable = true → l.unread = false

@[simp] theorem withHole_judgeable (reason : String) : (l.withHole reason).judgeable = false := rfl

theorem Sound.withHole {l : PodLedger} (h : l.Sound) (reason : String) : (l.withHole reason).Sound :=
  ⟨h.minimum, h.held, by simp, by simp⟩

theorem Sound.charge {l : PodLedger} (h : l.Sound) {e : EngineOnPod}
    (he : l.judgeable = true → e.Declared) : (l.charge e).Sound := by
  refine ⟨?_, ?_, ?_, h.read⟩
  · simp [PodLedger.charge, h.minimum]
  · simp [PodLedger.charge, h.held]
  intro hj e' he'
  simp only [PodLedger.charge, List.mem_append, List.mem_singleton] at he'
  rcases he' with he' | rfl
  · exact h.declared hj e' he'
  · exact he hj

theorem Sound.heldRoomBytes_le_maximumRoomBytes {l : PodLedger} (h : l.Sound) :
    l.heldRoomBytes ≤ l.maximumRoomBytes := by
  have hsum : (l.engines.map (·.minimumReserveBytes)).sum ≤ (l.engines.map (·.heldBytes)).sum :=
    List.sum_le_sum fun e _ => e.minimumReserveBytes_le_heldBytes
  have hmin := h.minimum
  have hhl := h.held
  unfold heldRoomBytes maximumRoomBytes
  omega

end PodLedger

/-! ## Building the accounts -/

structure Pod where
  name : String
  /-- The `nvidia.com/gpu` devices of its containers. -/
  gpuCount : Int := 0
  annotations : List String := []
  deriving DecidableEq, Repr

def wakeAsked (pod : Option Pod) (claimName : String) : Bool :=
  match pod with
  | none => false
  | some pod => pod.annotations.contains ("wake.modelclaim.aibrix.ai/" ++ claimName)

def unmeasuredCards (snapshot : RuntimeSnapshot) : String :=
  if snapshot.accelerators.any (fun a => 0 < a.hbmTotalBytes ∧ a.hbmUsableBytes = 0) then
    "its runtime does not report what its cards can hold, as one older than the controller does not"
  else "its cards could not be measured"

def openLedger (keepsNone : Bool) : Option RuntimeSnapshot → PodLedger
  | none => { blocked := "its runtime did not answer", unread := true, keepsNoWakeReserve := keepsNone }
  | some snapshot =>
    let accelerators := reportedAccelerators (some snapshot)
    match hbmUsableBytes (some snapshot) with
    | none => { blocked := unmeasuredCards snapshot, accelerators, keepsNoWakeReserve := keepsNone }
    | some hbmUsableBytes =>
      { keepsNoWakeReserve := keepsNone, judgeable := true, hbmUsableBytes
        observedAt := snapshot.observedAt, accelerators }

structure Accounts where
  ledgers : String → Option PodLedger
  accounted : List (String × String)

def PodLedger.noteDividedCard (l : PodLedger) (inst : ModelClaimInstance) : PodLedger :=
  if 0 < inst.kvLimitBytes ∧ l.accelerators = 0 then { l with accelerators := 1 } else l

def recordedEngine (claim : ModelClaim) (inst : ModelClaimInstance) : EngineOnPod :=
  { (perGPUBytesOf claim).toOption.getD ⟨0, 0⟩ with
    claimName := claim.name, modelName := servedModelName claim, kvRecordedBytes := inst.kvLimitBytes }

/-- Gives up the wake reserve of a measured sleeper in a pool that keeps none, unless a request asks for it. -/
def EngineOnPod.settleWakeReserve (e : EngineOnPod) (poolKeepsNone asked : Bool) : EngineOnPod :=
  let keepsNone := poolKeepsNone && decide (0 < e.sleepingFootprintBytes)
  { e with withoutWakeReserve := keepsNone && !asked, wakeReserveAsked := keepsNone && asked }

section
variable (snapshots : String → Option RuntimeSnapshot) (withoutWakeReserve : String → Bool)
  (pods : String → Option Pod)

def chargeInstance (claim : ModelClaim) (acc : Accounts) (inst : ModelClaimInstance) : Accounts :=
  match acc.ledgers inst.pod with
  | none => acc
  | some opened =>
    let ledger := opened.noteDividedCard inst
    let model := snapshotModelForClaim (snapshots inst.pod) claim (servedModelName claim)
    let engine := model.elim (recordedEngine claim inst) ((recordedEngine claim inst).observe · inst)
    let accounted := if model.isSome then (inst.pod, engine.snapshotKey) :: acc.accounted else acc.accounted
    -- A failed instance has given its memory back, unless its engine is somehow still there.
    if inst.phase = .failed ∧ (engine.snapshotKey = "" ∨ model.elim false (·.alive) = false) then
      ⟨Function.update acc.ledgers inst.pod (some ledger), accounted⟩
    else
      let engine := engine.settleWakeReserve (withoutWakeReserve inst.pod)
        (wakeAsked (pods inst.pod) claim.name)
      let ledger := match perGPUBytesOf claim with
        | .error e => ledger.withHole (claim.name ++ " runs there, and " ++ e)
        | .ok _ => ledger
      ⟨Function.update acc.ledgers inst.pod (some (ledger.charge engine)), accounted⟩

def chargeClaim (acc : Accounts) (claim : ModelClaim) : Accounts :=
  claim.instances.foldl (chargeInstance snapshots withoutWakeReserve pods claim) acc

end

/-- The first engine of a pod that nobody claimed and that still takes memory. -/
def unclaimedEngine (known : String → Bool) : List RuntimeSnapshotModel → Option String
  | [] => none
  | model :: rest =>
    if known (snapshotActivityKey model) then unclaimedEngine known rest
    else if model.phase = .stopping then
      some ("the engine that served " ++ model.modelName ++ " there is still exiting")
    else if model.phase = .failed ∧ model.alive = false then unclaimedEngine known rest
    else some ("the engine serving " ++ model.modelName ++ " there answers to no claim")

variable (claims : Except String (List ModelClaim))

def podLedgersFrom (candidates : List Pod)
    (snapshots : String → Option RuntimeSnapshot) (withoutWakeReserve : String → Bool) :
    String → Option PodLedger :=
  let opened : String → Option PodLedger := fun name =>
    if candidates.any (·.name = name) then some (openLedger (withoutWakeReserve name) (snapshots name))
    else none
  match claims with
  | .error _ => fun name => (opened name).map fun ledger =>
      { ledger with blocked := if ledger.unread then ledger.blocked else "", unread := true }.withHole
        "the claims on it could not be listed"
  | .ok items =>
    let pods : String → Option Pod := fun name => (candidates.filter (·.name = name)).getLast?
    let acc := items.foldl (chargeClaim snapshots withoutWakeReserve pods) ⟨opened, []⟩
    fun name => (acc.ledgers name).map fun ledger =>
      match unclaimedEngine (fun key => acc.accounted.contains (name, key)) (snapshotModels (snapshots name)) with
      | some reason => ledger.withHole reason
      | none => ledger

/-! ## One account -/

open List Function Option

/-- An instance that a claim records. -/
abbrev Seat := ModelClaim × ModelClaimInstance

def seats (items : List ModelClaim) : List Seat := items.flatMap fun claim => claim.instances.map (claim, ·)

/-- What the accounts are made from, besides the claims. -/
structure Readings where
  snapshots : String → Option RuntimeSnapshot
  without : String → Bool
  pods : String → Option Pod

namespace Seat

variable (r : Readings) (seat : Seat)

def model : Option RuntimeSnapshotModel :=
  snapshotModelForClaim (r.snapshots seat.2.pod) seat.1 (servedModelName seat.1)

def engine : EngineOnPod :=
  (seat.model r).elim (recordedEngine seat.1 seat.2) ((recordedEngine seat.1 seat.2).observe · seat.2)

/-- Nothing is charged for a failed instance whose engine is dead, or is not known by any key. -/
def charged : Option EngineOnPod :=
  if seat.2.phase = .failed ∧ ((seat.engine r).snapshotKey = "" ∨ (seat.model r).elim false (·.alive) = false)
  then none
  else some ((seat.engine r).settleWakeReserve (r.without seat.2.pod) (wakeAsked (r.pods seat.2.pod) seat.1.name))

/-- What is to be charged: everything but a failed instance whose engine is absent or dead. -/
def due : Option EngineOnPod :=
  if seat.2.phase = .failed ∧ (seat.model r).elim false (·.alive) = false then none
  else some ((seat.engine r).settleWakeReserve (r.without seat.2.pod) (wakeAsked (r.pods seat.2.pod) seat.1.name))

def Usable : Prop := ∃ perGPU, perGPUBytesOf seat.1 = .ok perGPU

def HasEngine (key : String) : Prop := ∃ model, seat.model r = some model ∧ snapshotActivityKey model = key

def settle (l : PodLedger) (seat : Seat) : PodLedger :=
  match seat.charged r with
  | none => l.noteDividedCard seat.2
  | some engine =>
    PodLedger.charge (match perGPUBytesOf seat.1 with
      | .error e => (l.noteDividedCard seat.2).withHole (seat.1.name ++ " runs there, and " ++ e)
      | .ok _ => l.noteDividedCard seat.2) engine

variable {r seat}

theorem ledgers_chargeInstance (acc : Accounts) (name : String) :
    (chargeInstance r.snapshots r.without r.pods seat.1 acc seat.2).ledgers name =
      if seat.2.pod = name then (acc.ledgers name).map (settle r · seat) else acc.ledgers name := by
  have hup {opened l : PodLedger} (hop : acc.ledgers seat.2.pod = some opened)
      (h : settle r opened seat = l) : update acc.ledgers seat.2.pod (some l) name =
        if seat.2.pod = name then (acc.ledgers name).map (settle r · seat) else acc.ledgers name := by
    split
    · subst name
      rw [update_self, hop, ← h]
      rfl
    · exact update_of_ne (Ne.symm ‹_›) ..
  unfold chargeInstance
  split
  · split
    · subst name
      simp [*]
    · rfl
  rename_i opened hop
  dsimp only
  split
  · have hc : seat.charged r = none := if_pos ‹_›
    exact hup hop (by rw [settle, hc])
  have hc : seat.charged r = some _ := if_neg ‹_›
  apply hup hop
  rw [settle, hc]
  rfl

theorem mem_accounted_chargeInstance {acc : Accounts} {p : String × String} (htracked : (acc.ledgers p.1).isSome) :
    p ∈ (chargeInstance r.snapshots r.without r.pods seat.1 acc seat.2).accounted ↔
      p ∈ acc.accounted ∨ seat.2.pod = p.1 ∧ seat.HasEngine r p.2 := by
  unfold chargeInstance
  split
  · rename_i hnone
    refine ⟨.inl, fun h => h.resolve_right ?_⟩
    rintro ⟨hpod, -⟩
    rw [← hpod, hnone] at htracked
    cases htracked
  have hmem : p ∈ (if (seat.model r).isSome then (seat.2.pod, (seat.engine r).snapshotKey) :: acc.accounted
      else acc.accounted) ↔ p ∈ acc.accounted ∨ seat.2.pod = p.1 ∧ seat.HasEngine r p.2 := by
    unfold engine HasEngine
    cases seat.model r with
    | none => simp
    | some model =>
      obtain ⟨pod, key⟩ := p
      simp only [Option.isSome_some, if_true, mem_cons, Prod.mk.injEq, Option.some.injEq, exists_eq_left']
      rw [or_comm, eq_comm (a := pod), eq_comm (a := key)]
      rfl
  dsimp only
  split <;> exact hmem

variable {l : PodLedger}

theorem charged_declared {e : EngineOnPod} {perGPU : PerGPUBytes} (h : seat.charged r = some e)
    (hp : perGPUBytesOf seat.1 = .ok perGPU) : e.Declared := by
  have hd : (recordedEngine seat.1 seat.2).Declared := by
    unfold recordedEngine
    simp only [hp]
    exact perGPUBytesOf_pos hp
  unfold charged engine at h
  split at h
  · cases h
  · -- Neither a reading nor the wake reserve touches what the claim declared.
    cases h
    cases seat.model r <;> exact hd

theorem settle_spec (h : l.Sound) :
    let l' := settle r l seat
    l'.Sound ∧ l'.engines = l.engines ++ (seat.charged r).toList ∧ (l'.judgeable = true ↔ l.judgeable = true ∧
        ((seat.charged r).isSome → seat.Usable)) := by
  obtain ⟨hnote, hen, hjd⟩ : (l.noteDividedCard seat.2).Sound ∧ (l.noteDividedCard seat.2).engines = l.engines ∧
      (l.noteDividedCard seat.2).judgeable = l.judgeable := by
    unfold PodLedger.noteDividedCard
    split
    · exact ⟨⟨h.minimum, h.held, h.declared, h.read⟩, rfl, rfl⟩
    · exact ⟨h, rfl, rfl⟩
  unfold settle Usable
  cases hc : seat.charged r with
  | none => exact ⟨hnote, by simpa using hen, by simp [hjd]⟩
  | some engine =>
    cases hp : perGPUBytesOf seat.1 with
    | error e => exact ⟨(hnote.withHole _).charge (by simp), congrArg (· ++ [engine]) hen,
        by simp [PodLedger.charge]⟩
    | ok perGPU =>
      exact ⟨hnote.charge fun _ => charged_declared hc hp, congrArg (· ++ [engine]) hen,
        by simp [PodLedger.charge, hjd]⟩

theorem foldl_settle_spec (h : l.Sound) (ss : List Seat) :
    let l' := ss.foldl (settle r) l
    l'.Sound ∧ l'.engines = l.engines ++ ss.filterMap (charged r) ∧
      (l'.judgeable = true ↔ l.judgeable = true ∧ ∀ seat ∈ ss, (seat.charged r).isSome → seat.Usable) := by
  induction ss generalizing l with
  | nil => exact ⟨h, by simp, by simp⟩
  | cons seat ss ih =>
    obtain ⟨hsn, hen, hjd⟩ := @settle_spec r seat l h
    obtain ⟨hsn', hen', hjd'⟩ := ih hsn
    refine ⟨hsn', ?_, ?_⟩
    · rw [foldl_cons, hen', hen, append_assoc]
      cases hc : seat.charged r <;> simp [hc]
    · rw [foldl_cons, hjd', hjd, forall_mem_cons, and_assoc]

theorem foldl_chargeInstance (ss : List Seat) (acc : Accounts) :
    let acc' := ss.foldl (fun acc seat => chargeInstance r.snapshots r.without r.pods seat.1 acc seat.2) acc
    (∀ name, acc'.ledgers name = (acc.ledgers name).map ((ss.filter (·.2.pod = name)).foldl (settle r))) ∧
    ∀ p, (acc.ledgers p.1).isSome →
      (p ∈ acc'.accounted ↔ p ∈ acc.accounted ∨ ∃ seat ∈ ss, seat.2.pod = p.1 ∧ seat.HasEngine r p.2) := by
  induction ss generalizing acc with
  | nil => exact ⟨fun name => by simp, fun p _ => by simp⟩
  | cons seat ss ih =>
    obtain ⟨hld, hac⟩ := ih (chargeInstance r.snapshots r.without r.pods seat.1 acc seat.2)
    refine ⟨fun name => ?_, fun p hp => ?_⟩
    · rw [foldl_cons, hld, ledgers_chargeInstance, filter_cons]
      split <;> simp_all [comp_def]
    · have hkept : ((chargeInstance r.snapshots r.without r.pods seat.1 acc seat.2).ledgers p.1).isSome := by
        rw [ledgers_chargeInstance]
        split
        · rwa [isSome_map]
        · exact hp
      rw [foldl_cons, hac p hkept, mem_accounted_chargeInstance hp, exists_mem_cons_iff]
      tauto

/-- A failed instance with a live engine that has no name. -/
def Nameless (r : Readings) (seat : Seat) : Prop :=
  seat.2.phase = .failed ∧ ∃ model, seat.model r = some model ∧ model.alive = true ∧ snapshotActivityKey model = ""

theorem charged_eq_due : seat.charged r = seat.due r ↔ ¬ seat.Nameless r := by
  unfold charged due Nameless engine
  cases seat.model r with
  | none => simp [recordedEngine]
  | some model =>
    by_cases hfailed : seat.2.phase = .failed
    · by_cases hkey : snapshotActivityKey model = ""
      · cases halive : model.alive <;> simp [hfailed, halive, hkey, EngineOnPod.observe]
      · simp [hfailed, hkey, EngineOnPod.observe]
    · simp [hfailed]

theorem charged_of_ne_due (h : seat.charged r ≠ seat.due r) : seat.charged r = none ∧ (seat.due r).isSome = true := by
  unfold charged due at h ⊢
  split_ifs at h ⊢ <;> simp_all

theorem length_charged_le (here : List Seat) :
    (here.filterMap (charged r)).length ≤ (here.filterMap (due r)).length := by
  induction here with
  | nil => exact le_rfl
  | cons seat here ih =>
    rw [filterMap_cons, filterMap_cons]
    by_cases heq : seat.charged r = seat.due r
    · rw [heq]
      cases seat.due r with
      | none => exact ih
      | some e => exact Nat.succ_le_succ ih
    · obtain ⟨hnone, hsome⟩ := charged_of_ne_due heq
      obtain ⟨e, he⟩ := isSome_iff_exists.1 hsome
      rw [hnone, he]
      exact ih.trans (Nat.le_succ _)

/-- Every instance is charged that is to be charged just if none is nameless. -/
theorem charged_eq_due_iff (here : List Seat) :
    here.filterMap (charged r) = here.filterMap (due r) ↔ ∀ seat ∈ here, ¬ seat.Nameless r := by
  constructor
  · intro h
    induction here with
    | nil => simp
    | cons seat here ih =>
      rw [filterMap_cons, filterMap_cons] at h
      by_cases heq : seat.charged r = seat.due r
      · rw [heq] at h
        refine forall_mem_cons.2 ⟨charged_eq_due.1 heq, ih ?_⟩
        cases hdue : seat.due r with
        | none => rwa [hdue] at h
        | some e =>
          rw [hdue] at h
          exact (cons.inj h).2
      · obtain ⟨hnone, hsome⟩ := charged_of_ne_due heq
        obtain ⟨e, he⟩ := isSome_iff_exists.1 hsome
        rw [hnone, he] at h
        have hle := @length_charged_le r here
        rw [show here.filterMap (charged r) = e :: here.filterMap (due r) from h, length_cons] at hle
        omega
  · exact fun h => filterMap_congr fun seat hseat => charged_eq_due.2 (h seat hseat)

end Seat

/-! ## Every account is sound -/

def AllSound (ledgers : String → Option PodLedger) : Prop :=
  ∀ name l, ledgers name = some l → l.Sound

theorem openLedger_spec (keepsNone : Bool) (snapshot : Option RuntimeSnapshot) :
    (openLedger keepsNone snapshot).Sound ∧ (openLedger keepsNone snapshot).engines = [] := by
  unfold openLedger
  split
  · exact ⟨⟨rfl, rfl, by simp, by simp⟩, rfl⟩
  · split <;> exact ⟨⟨rfl, rfl, by simp, by simp⟩, rfl⟩

theorem openLedger_judgeable (keepsNone : Bool) (snapshot : Option RuntimeSnapshot) :
    (openLedger keepsNone snapshot).judgeable = true ↔ (hbmUsableBytes snapshot).isSome = true := by
  cases snapshot with
  | none => simp [openLedger, hbmUsableBytes]
  | some snapshot =>
    unfold openLedger
    dsimp only
    split <;> simp [*]

/-- An engine that the runtime has not given up: one that is failed and dead has given its memory back. -/
def RuntimeSnapshotModel.Live (model : RuntimeSnapshotModel) : Prop := ¬ (model.phase = .failed ∧ model.alive = false)

theorem unclaimedEngine_none {known : String → Bool} {models : List RuntimeSnapshotModel} :
    unclaimedEngine known models = none ↔ ∀ model ∈ models, model.Live → known (snapshotActivityKey model) = true := by
  unfold RuntimeSnapshotModel.Live
  fun_induction unclaimedEngine known models with
  | case1 => simp
  | case2 model rest hk ih => rw [ih, forall_mem_cons, and_iff_right fun _ => hk]
  | case3 model rest hk hstop => simp_all
  | case4 model rest _ _ hgone ih => rw [ih, forall_mem_cons, and_iff_right fun hlive => absurd hgone hlive]
  | case5 model rest hk _ hgone => simp_all

/-- The cards are measured, every claim that is charged has a usable declaration, and every live engine has the
activity key of some instance's engine. -/
structure Judged (r : Readings) (here : List Seat) (snapshot : Option RuntimeSnapshot) : Prop where
  measured : (hbmUsableBytes snapshot).isSome = true
  usable : ∀ seat ∈ here, (seat.charged r).isSome → seat.Usable
  known : ∀ model ∈ snapshotModels snapshot, model.Live → ∃ seat ∈ here, seat.HasEngine r (snapshotActivityKey model)

/-- What an account listed without an error says. -/
structure PodLedger.Accounts (r : Readings) (here : List Seat) (snapshot : Option RuntimeSnapshot) (l : PodLedger) :
    Prop extends l.Sound where
  engines : l.engines = here.filterMap (Seat.charged r)
  judgeable : l.judgeable = true ↔ Judged r here snapshot

theorem podLedgersFrom_accounts {items : List ModelClaim} {cands : List Pod}
    {snaps : String → Option RuntimeSnapshot} {without : String → Bool} {name : String} {l : PodLedger}
    (h : podLedgersFrom (.ok items) cands snaps without name = some l) :
    l.Accounts ⟨snaps, without, fun name => (cands.filter (·.name = name)).getLast?⟩
      ((seats items).filter (·.2.pod = name)) (snaps name) := by
  set r : Readings := ⟨snaps, without, fun name => (cands.filter (·.name = name)).getLast?⟩
  set opened : String → Option PodLedger := fun name =>
    if cands.any (·.name = name) then some (openLedger (without name) (snaps name)) else none with hop
  obtain ⟨hld, hac⟩ := @Seat.foldl_chargeInstance r (seats items) ⟨opened, []⟩
  have hfold : (seats items).foldl (fun acc seat => chargeInstance r.snapshots r.without r.pods seat.1 acc seat.2)
      ⟨opened, []⟩ = items.foldl (chargeClaim snaps without r.pods) ⟨opened, []⟩ := by
    simp only [seats, foldl_flatMap, foldl_map]
    rfl
  rw [hfold] at hld hac
  obtain ⟨l₀, hl₀, rfl⟩ := map_eq_some_iff.1 h
  obtain ⟨l₁, hl₁, rfl⟩ := map_eq_some_iff.1 ((hld name).symm.trans hl₀)
  have hopen : l₁ = openLedger (without name) (snaps name) := by
    simp only [hop, ite_none_right_eq_some, some.injEq] at hl₁
    exact hl₁.2.symm
  have hknown : ∀ key, (name, key) ∈ (items.foldl (chargeClaim snaps without r.pods) ⟨opened, []⟩).accounted ↔
      ∃ seat ∈ (seats items).filter (·.2.pod = name), seat.HasEngine r key := by
    intro key
    rw [hac (name, key) (by rw [hl₁]; rfl)]
    simp [and_assoc]
  obtain ⟨hsn, hen, hjudged⟩ := @Seat.foldl_settle_spec r l₁ (hopen ▸ (openLedger_spec _ _).1)
    ((seats items).filter (·.2.pod = name))
  rw [hopen, (openLedger_spec _ _).2, nil_append] at hen
  rw [hopen, openLedger_judgeable] at hjudged
  rw [← hopen] at hen hjudged
  split
  · rename_i reason hreason
    refine ⟨hsn.withHole _, hen, ⟨fun hj => by simp at hj, fun hall => ?_⟩⟩
    refine absurd (hreason.symm.trans (unclaimedEngine_none.2 fun model hmodel hlive => ?_)) (some_ne_none _)
    exact contains_iff_mem.2 ((hknown _).2 (hall.known model hmodel hlive))
  · rename_i hnone
    have hkeys := unclaimedEngine_none.1 hnone
    refine ⟨hsn, hen, hjudged.trans ⟨fun hj => ⟨hj.1, hj.2, fun model hmodel hlive => ?_⟩, fun hall => ?_⟩⟩
    · exact (hknown _).1 (contains_iff_mem.1 (hkeys model hmodel hlive))
    · exact ⟨hall.measured, hall.usable⟩

theorem podLedgersFrom_sound (cands : List Pod) (snaps : String → Option RuntimeSnapshot) (without : String → Bool) :
    AllSound (podLedgersFrom claims cands snaps without) := by
  intro name l hl
  cases claims with
  | error e =>
    simp only [podLedgersFrom, map_eq_some_iff, ite_none_right_eq_some, some.injEq] at hl
    obtain ⟨_, ⟨-, rfl⟩, rfl⟩ := hl
    have h := (openLedger_spec (without name) (snaps name)).1
    exact ⟨h.minimum, h.held, by simp, by simp⟩
  | ok items => exact (podLedgersFrom_accounts hl).toSound

/-! ## Wake reserves -/

/-- Puts the wake reserve of a claim's sleeping engine back, or takes it off again. -/
def EngineOnPod.askWake (e : EngineOnPod) (claimName : String) (asked : Bool) : EngineOnPod :=
  if e.claimName ≠ claimName ∨ e.wakeReserveAsked = asked ∨ (!e.wakeReserveAsked && !e.withoutWakeReserve) then e
  else { e with wakeReserveAsked := asked, withoutWakeReserve := !asked }

namespace PodLedger

def withWakeReserve (l : PodLedger) (claimName : String) (asked : Bool) : PodLedger :=
  let moved (bytes : EngineOnPod → Int) (total : Int) : Int :=
    l.engines.foldl (fun total e => total - bytes e + bytes (e.askWake claimName asked)) total
  { l with
    totalMinimumReserveBytes := moved (·.minimumReserveBytes) l.totalMinimumReserveBytes
    totalHeldBytes := moved (·.heldBytes) l.totalHeldBytes
    engines := l.engines.map (·.askWake claimName asked) }

def Balanced (l : PodLedger) : Prop :=
  l.totalMinimumReserveBytes = (l.engines.map (·.minimumReserveBytes)).sum ∧
    l.totalHeldBytes = (l.engines.map (·.heldBytes)).sum

theorem foldl_askWake (bytes : EngineOnPod → Int) (claim : String) (asked : Bool) (engines : List EngineOnPod)
    (total : Int) : engines.foldl (fun total e => total - bytes e + bytes (e.askWake claim asked)) total =
      total - (engines.map bytes).sum + ((engines.map (·.askWake claim asked)).map bytes).sum := by
  induction engines generalizing total with
  | nil => simp
  | cons e engines ih =>
    simp only [foldl_cons, ih, map_cons, sum_cons]
    omega

theorem Balanced.withWakeReserve {l : PodLedger} (h : l.Balanced) (claim : String) (asked : Bool) :
    (l.withWakeReserve claim asked).Balanced := by
  constructor
  · apply (foldl_askWake _ claim asked l.engines _).trans
    rw [h.1, Int.sub_self, Int.zero_add]
    rfl
  · apply (foldl_askWake _ claim asked l.engines _).trans
    rw [h.2, Int.sub_self, Int.zero_add]
    rfl

theorem withWakeReserve_back {l : PodLedger} {claim : String}
    (h : ∀ e ∈ l.engines, e.claimName = claim → e.withoutWakeReserve = true ∧ e.wakeReserveAsked = false) :
    (l.withWakeReserve claim true).withWakeReserve claim false = l := by
  have hback : (l.engines.map (·.askWake claim true)).map (·.askWake claim false) = l.engines := by
    rw [List.map_map]
    refine (map_congr_left fun e he => ?_).trans (map_id _)
    by_cases hc : e.claimName = claim
    · obtain ⟨hres, hask⟩ := h e he hc
      cases e
      simp_all [EngineOnPod.askWake]
    · simp [EngineOnPod.askWake, hc]
  have htotal (bytes : EngineOnPod → Int) (total : Int) :
      total - (l.engines.map bytes).sum + ((l.engines.map (·.askWake claim true)).map bytes).sum -
        ((l.engines.map (·.askWake claim true)).map bytes).sum + (l.engines.map bytes).sum = total := by
    omega
  unfold withWakeReserve
  simp only [foldl_askWake, hback, htotal]

end PodLedger

/-- Every instance is charged that is to be charged, and a card is judged only if each live engine is an instance's. -/
structure PodLedger.Complete (r : Readings) (here : List Seat) (snapshot : Option RuntimeSnapshot) (l : PodLedger) :
    Prop where
  engines : l.engines = here.filterMap (Seat.due r)
  usable : l.judgeable = true → ∀ seat ∈ here, (seat.due r).isSome → seat.Usable
  claimed : l.judgeable = true → ∀ model ∈ snapshotModels snapshot, model.Live →
    ∃ seat ∈ here, seat.model r = some model

/-- No instance is nameless, and where the keys account for all live engines of a card that could be judged, so do the
instances: no other engine goes by the key of an instance's engine. -/
structure OwnKeys (r : Readings) (here : List Seat) (snapshot : Option RuntimeSnapshot) : Prop where
  named : ∀ seat ∈ here, ¬ seat.Nameless r
  own : Judged r here snapshot → ∀ model ∈ snapshotModels snapshot, model.Live →
    ∃ seat ∈ here, seat.model r = some model

theorem PodLedger.Accounts.complete_iff {r : Readings} {here : List Seat} {snapshot : Option RuntimeSnapshot}
    {l : PodLedger} (h : l.Accounts r here snapshot) : l.Complete r here snapshot ↔ OwnKeys r here snapshot := by
  constructor
  · intro hcomplete
    refine ⟨(Seat.charged_eq_due_iff here).1 (h.engines.symm.trans hcomplete.engines), fun hjudged => ?_⟩
    exact hcomplete.claimed (h.judgeable.2 hjudged)
  · intro hkeys
    refine ⟨h.engines.trans ((Seat.charged_eq_due_iff here).2 hkeys.named), fun hj seat hseat hdue => ?_, fun hj => ?_⟩
    · rw [← Seat.charged_eq_due.2 (hkeys.named seat hseat)] at hdue
      exact (h.judgeable.1 hj).usable seat hseat hdue
    · exact hkeys.own (h.judgeable.1 hj)

theorem accounts_complete (candidates : List Pod) (snapshots : String → Option RuntimeSnapshot)
    (without : String → Bool) : (∀ name l, podLedgersFrom claims candidates snapshots without name = some l →
      (∀ calls : List (String × Bool), (calls.foldl (fun l call => l.withWakeReserve call.1 call.2) l).Balanced) ∧
      (l.judgeable = true → ∃ items, claims = .ok items) ∧ ∀ items, claims = .ok items →
        let r : Readings := ⟨snapshots, without, fun name => (candidates.filter (·.name = name)).getLast?⟩
        let here := (seats items).filter (·.2.pod = name)
        (l.Complete r here (snapshots name) ↔ OwnKeys r here (snapshots name))) ∧
    ∀ (l : PodLedger) (claimName : String),
      (∀ e ∈ l.engines, e.claimName = claimName → e.withoutWakeReserve = true ∧ e.wakeReserveAsked = false) →
      (l.withWakeReserve claimName true).withWakeReserve claimName false = l := by
  refine ⟨fun name l hl => ⟨fun calls => ?_, fun hj => ?_, fun items hi => ?_⟩,
    fun l claimName h => l.withWakeReserve_back h⟩
  · have hsn := podLedgersFrom_sound claims candidates snapshots without name l hl
    exact foldlRecOn (motive := PodLedger.Balanced) calls _ ⟨hsn.minimum, hsn.held⟩
      fun l h call _ => h.withWakeReserve call.1 call.2
  · cases claims with
    | error e =>
      obtain ⟨_, -, rfl⟩ := map_eq_some_iff.1 hl
      simp at hj
    | ok items => exact ⟨items, rfl⟩
  · subst hi
    exact (podLedgersFrom_accounts hl).complete_iff

/-! ### Two claims with one key -/

def sanitizeIPCName (s : String) : String :=
  String.ofList (s.toList.map fun c => if c.isAlphanum || c = '_' || c = '-' then c else '-')

/-- The name the engine of a claim is started with. -/
def ipcNameFor (claimName : String) : String := "kvc_" ++ sanitizeIPCName claimName

/-- The engine of a claim `a.b` that is gone, and the one of the claim `a-b`. -/
def sameKey : List RuntimeSnapshotModel :=
  [{ modelName := "m", claimRef := some "u1", ipcName := ipcNameFor "a.b", phase := .active, kvUsedBytes := 8,
      kvCapacityBytes := 8 },
    { modelName := "n", claimRef := some "u2", ipcName := ipcNameFor "a-b", phase := .active, kvUsedBytes := 8,
      kvCapacityBytes := 8 }]

def secondClaim : ModelClaim := ⟨"", "a-b", "u2", some "n", some ⟨⟨8, "8"⟩, ⟨8, "8"⟩⟩, 0, [⟨"p", .active, 0⟩]⟩

/-- The card is judged although nothing accounts for the first engine. -/
theorem engine_of_deleted_claim_passed_over :
    let r : Readings := ⟨fun _ => some ⟨0, [⟨80, 80⟩], sameKey⟩, fun _ => false, fun _ => some { name := "p" }⟩
    ((podLedgersFrom (.ok [secondClaim]) [{ name := "p" }] r.snapshots r.without "p").map (·.judgeable)) = some true ∧
    ∃ model ∈ sameKey, model.Live ∧ ∀ seat ∈ seats [secondClaim], seat.model r ≠ some model := by
  refine ⟨by decide, _, List.mem_cons_self, ?_, ?_⟩
  · unfold RuntimeSnapshotModel.Live
    decide
  · decide

end Aibrix.Modelclaim
