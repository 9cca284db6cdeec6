import Aibrix.Lib.Threads
import Mathlib.Algebra.Order.Ring.Rat

/-! # Running requests of pods

`addPodStats` and `donePodStats` of `cache_trace.go`, with `addPodLocked` and `deletePodLocked` of `informers.go` for a
pod that flaps. -/

namespace Aibrix.PodStats

open Lib

/-! ## The state -/

/-- The realtime counters, in a cache pod or in the snapshot of a deleted one. -/
structure Counters where
  statsGeneration : Nat := 0
  runningRequests : Int := 0
  completedRequests : Int := 0
  completedOutputTokens : Int := 0
  pendingLoadUtilization : ℚ := 0
  readySince : Int := 0
  deriving DecidableEq

structure Pod where
  podKey : String
  podIP : String
  counters : Counters := {}

structure DeletedPodSnapshot where
  pod : Nat
  podIP : String
  counters : Counters
  deletedAt : Int

structure PodStatsRecord where
  pod : Nat
  pendingLoad : ℚ := 0
  ctx : Option Nat
  consumed : Bool := false

structure Store where
  metaPods : String → Option Nat := fun _ => none
  recentlyDeletedPods : String → Option DeletedPodSnapshot := fun _ => none
  pods : Nat → Pod := fun _ => ⟨"", "", {}⟩
  published : Nat := 0
  bufferPod : Option Pod := none
  nextStatsGeneration : Nat := 0
  lastPodReadySince : Int := 0
  podStats : String → Option Nat := fun _ => none
  records : Nat → PodStatsRecord := fun _ => { pod := 0, ctx := none }
  recorded : Nat := 0
  clampedRunningRequestDecrements : Nat := 0
  completed : List Nat := []

def recentlyDeletedPodGracePeriod : Int := 60 * 1000000000

/-! ## Counters and where they are -/

/-- The counter after a decrement, and whether it was already at its floor. -/
def decrementClamped (counter : Int) : Int × Bool :=
  if counter ≤ 0 then (0, true) else (counter - 1, false)

def sameStatsGeneration (a b : Nat) : Bool := a ≠ 0 && a = b

namespace Store

variable (s : Store)

def generation (pod : Nat) : Nat := (s.pods pod).counters.statsGeneration

/-- The pod or the snapshot that stands for a pod key now, given a pod that stood for it before. -/
def resolvePodOrSnapshotLocked (podKey : String) (staleMetaPod : Nat) : Nat ⊕ DeletedPodSnapshot :=
  match s.metaPods podKey with
  | some current =>
    if current ≠ staleMetaPod && sameStatsGeneration (s.generation current) (s.generation staleMetaPod) then
      .inl current
    else .inl staleMetaPod
  | none =>
    match s.recentlyDeletedPods podKey with
    | some snap =>
      if sameStatsGeneration snap.counters.statsGeneration (s.generation staleMetaPod) then .inr snap
      else .inl staleMetaPod
    | none => .inl staleMetaPod

def countersOf : Nat ⊕ DeletedPodSnapshot → Counters
  | .inl pod => (s.pods pod).counters
  | .inr snap => snap.counters

def update (podKey : String) (f : Counters → Counters) : Nat ⊕ DeletedPodSnapshot → Store
  | .inl pod => { s with pods := Function.update s.pods pod { s.pods pod with counters := f (s.pods pod).counters } }
  | .inr snap =>
    { s with
      recentlyDeletedPods := Function.update s.recentlyDeletedPods podKey (some { snap with counters := f snap.counters }) }

/-! ## Requests -/

/-- What a new request is counted on: the live pod, or inside a delete and re-add the snapshot with the
IP it was routed to. -/
def routed (podKey podIP : String) : Option (Nat × (Nat ⊕ DeletedPodSnapshot)) :=
  match s.metaPods podKey with
  | some metaPod => some (metaPod, .inl metaPod)
  | none =>
    if podIP = "" then none
    else
      match s.recentlyDeletedPods podKey with
      | some snap => if snap.podIP = podIP then some (snap.pod, .inr snap) else none
      | none => none

def record (metaPod : Nat) (ctx : Option Nat) : Store :=
  { s with
    records := Function.update s.records s.recorded { pod := metaPod, ctx }
    recorded := s.recorded + 1 }

def setPendingLoad (r : Nat) (load : ℚ) : Store :=
  { s with records := Function.update s.records r { s.records r with pendingLoad := load } }

/-- The second section of `addPodStats`, with the load that was computed between the sections. -/
def addPendingLoad (r : Nat) (podKey : String) (load : ℚ) : Store :=
  (s.setPendingLoad r load).update podKey (fun c => { c with pendingLoadUtilization := c.pendingLoadUtilization + load })
    (s.resolvePodOrSnapshotLocked podKey (s.records r).pod)

def finish (outputTokens : Int) (pendingLoad : ℚ) (c : Counters) : Counters :=
  { c with
    runningRequests := (decrementClamped c.runningRequests).1
    completedRequests := c.completedRequests + 1
    completedOutputTokens := c.completedOutputTokens + max 0 outputTokens
    pendingLoadUtilization :=
      if pendingLoad ≠ 0 then c.pendingLoadUtilization - pendingLoad else c.pendingLoadUtilization }

def complete (r : Nat) (outputTokens : Int) : Store :=
  let metaPod := (s.records r).pod
  let podKey := (s.pods metaPod).podKey
  let target := s.resolvePodOrSnapshotLocked podKey metaPod
  let clamped := (decrementClamped (s.countersOf target).runningRequests).2
  { s.update podKey (finish outputTokens (s.records r).pendingLoad) target with
    clampedRunningRequestDecrements := s.clampedRunningRequestDecrements + clamped.toNat
    completed := s.completed ++ [r] }

def resumed (podKey podIP : String) (now : Int) : Option DeletedPodSnapshot :=
  (s.recentlyDeletedPods podKey).filter fun snap =>
    now - snap.deletedAt < recentlyDeletedPodGracePeriod && snap.podIP ≠ "" && snap.podIP = podIP

def seeded (podKey podIP : String) (ready : Bool) (now : Int) : Counters :=
  let buffer := (s.bufferPod.getD ⟨podKey, podIP, {}⟩).counters
  let counters := (s.resumed podKey podIP now).elim
    { buffer with statsGeneration := s.nextStatsGeneration + 1, readySince := 0 } (·.counters)
  if counters.readySince = 0 && ready then { counters with readySince := now } else counters

def addPodLocked (podKey podIP : String) (ready : Bool) (now : Int) : Store :=
  let counters := s.seeded podKey podIP ready now
  let added := { s with
    recentlyDeletedPods := Function.update s.recentlyDeletedPods podKey none
    nextStatsGeneration :=
      if (s.resumed podKey podIP now).isSome then s.nextStatsGeneration else s.nextStatsGeneration + 1
    lastPodReadySince := max s.lastPodReadySince counters.readySince }
  match s.metaPods podKey with
  -- The buffer was not used. It is kept for another pod, with its counters cleared.
  | some _ => { added with bufferPod := some ⟨podKey, podIP, {}⟩ }
  | none =>
    { added with
      metaPods := Function.update s.metaPods podKey (some s.published)
      pods := Function.update s.pods s.published ⟨podKey, podIP, counters⟩
      published := s.published + 1
      bufferPod := none }

def deletePodLocked (podKey : String) (now : Int) : Store :=
  match s.metaPods podKey with
  | some metaPod =>
    { s with
      metaPods := Function.update s.metaPods podKey none
      recentlyDeletedPods := Function.update s.recentlyDeletedPods podKey
        (some ⟨metaPod, (s.pods metaPod).podIP, (s.pods metaPod).counters, now⟩) }
  | none => s

def pruneExpired (podKey : String) (now : Int) : Store :=
  { s with
    recentlyDeletedPods := Function.update s.recentlyDeletedPods podKey
      ((s.recentlyDeletedPods podKey).filter fun snap => now - snap.deletedAt < recentlyDeletedPodGracePeriod) }

end Store

/-! ## The calls -/

structure RoutingContext where
  address : Nat
  targetPod : Option (String × String)
  deriving DecidableEq

def podStatsKey (modelName requestID : String) : String := modelName ++ "\x00" ++ requestID

def podStatsAttemptKey (ctx : Nat) (modelName requestID : String) : String :=
  modelName ++ "\x00" ++ requestID ++ "\x000x" ++ String.ofList (Nat.toDigits 16 ctx)

inductive Cmd where
  | addPodStats (ctx : RoutingContext) (requestID modelName : String) (consumption : Option ℚ)
  | addPendingLoad (r : Nat) (podKey requestID modelName : String) (consumption : Option ℚ)
  | storePodStats (r : Nat) (requestID modelName : String)
  | storeAlias (r : Nat) (requestID modelName : String)
  | takePodStats (ctx : Option Nat) (requestID modelName : String) (outputTokens : Int)
  | dropOther (r : Nat) (key : String) (outputTokens : Int)
  | take (r : Nat) (outputTokens : Int)
  | complete (r : Nat) (outputTokens : Int)
  | addPod (podKey podIP : String) (ready : Bool) (now : Int)
  | deletePod (podKey : String) (now : Int) (visited : List String)
  | pruneExpired (podKey : String) (now : Int)
  deriving DecidableEq

namespace Store

def exec : Cmd → Store → Store × List Cmd
  | .addPodStats ctx requestID modelName consumption, s =>
    match ctx.targetPod with
    | none => (s, [])
    | some (podKey, podIP) =>
      match s.routed podKey podIP with
      | none => (s, [])
      | some (metaPod, target) =>
        ((s.update podKey (fun c => { c with runningRequests := c.runningRequests + 1 }) target).record metaPod
          (some ctx.address), [.addPendingLoad s.recorded podKey requestID modelName consumption])
  | .addPendingLoad r podKey requestID modelName consumption, s =>
    (consumption.elim s (s.addPendingLoad r podKey), [.storePodStats r requestID modelName])
  | .storePodStats r requestID modelName, s =>
    (match (s.records r).ctx with
      | some ctx => { s with podStats := Function.update s.podStats (podStatsAttemptKey ctx modelName requestID) (some r) }
      | none => s, [.storeAlias r requestID modelName])
  | .storeAlias r requestID modelName, s =>
    let key := podStatsKey modelName requestID
    ({ s with podStats := Function.update s.podStats key ((s.podStats key).or (some r)) }, [])
  | .takePodStats ctx requestID modelName outputTokens, s =>
    let aliasKey := podStatsKey modelName requestID
    let key := ctx.elim aliasKey (podStatsAttemptKey · modelName requestID)
    match s.podStats key with
    | none => (s, [])
    | some r =>
      let other := match ctx, (s.records r).ctx with
        | some _, _ => some aliasKey
        | none, some owner => some (podStatsAttemptKey owner modelName requestID)
        | none, none => none
      ({ s with podStats := Function.update s.podStats key none },
        [other.elim (.take r outputTokens) (.dropOther r · outputTokens)])
  | .dropOther r key outputTokens, s =>
    (if s.podStats key = some r then { s with podStats := Function.update s.podStats key none } else s,
      [.take r outputTokens])
  | .take r outputTokens, s =>
    if (s.records r).consumed then (s, [])
    else
      ({ s with records := Function.update s.records r { s.records r with consumed := true } },
        [.complete r outputTokens])
  | .complete r outputTokens, s => (s.complete r outputTokens, [])
  | .addPod podKey podIP ready now, s => (s.addPodLocked podKey podIP ready now, [])
  | .deletePod podKey now visited, s =>
    (s.deletePodLocked podKey now, if (s.metaPods podKey).isSome then visited.map (.pruneExpired · now) else [])
  | .pruneExpired podKey now, s => (s.pruneExpired podKey now, [])

end Store

inductive Call where
  /-- With what the load provider answers, if there is one and it does not fail. -/
  | addPodStats (ctx : RoutingContext) (requestID modelName : String) (consumption : Option ℚ)
  | donePodStats (ctx : Option Nat) (requestID modelName : String) (outputTokens : Int)
  | addPodLocked (podKey podIP : String) (ready : Bool) (now : Int)
  /-- With the keys of the snapshots that the pruning visits. -/
  | deletePodLocked (podKey : String) (now : Int) (visited : List String)

def Call.program : Call → List Cmd
  | .addPodStats ctx requestID modelName consumption => [.addPodStats ctx requestID modelName consumption]
  | .donePodStats ctx requestID modelName outputTokens => [.takePodStats ctx requestID modelName outputTokens]
  | .addPodLocked podKey podIP ready now => [.addPod podKey podIP ready now]
  | .deletePodLocked podKey now visited => [.deletePod podKey now visited]

def interleaving : System Store Cmd where
  exec := Store.exec
  program commands := ∃ call : Call, commands = call.program
  allowed _ _ _ := True

instance (s : Store) (M : Multiset Cmd) (c : Cmd) : Decidable (interleaving.allowed s M c) := isTrue trivial

/-- The counters under a pod key: of the live pod, or of the snapshot while the key is absent. -/
def Store.tracked (s : Store) (podKey : String) : Option Counters :=
  match s.metaPods podKey with
  | some metaPod => some (s.pods metaPod).counters
  | none => (s.recentlyDeletedPods podKey).map (·.counters)

/-! ## Which counters stand for a pod key

A generation belongs to one pod key, and its counters are in one place at a time: the live pod, or a snapshot. -/

open Function Option Store

namespace Store

structure Registry (s : Store) : Prop where
  live : ∀ key pod, s.metaPods key = some pod →
    pod < s.published ∧ (s.pods pod).podKey = key ∧ s.recentlyDeletedPods key = none
  snapshot : ∀ key snap, s.recentlyDeletedPods key = some snap →
    snap.pod < s.published ∧ (s.pods snap.pod).podKey = key ∧ s.generation snap.pod = snap.counters.statsGeneration
  issued : ∀ pod < s.published, 0 < s.generation pod ∧ s.generation pod ≤ s.nextStatsGeneration
  keyed : ∀ pod < s.published, ∀ pod' < s.published, s.generation pod = s.generation pod' →
    (s.pods pod).podKey = (s.pods pod').podKey
  buffer : ∀ pod, s.bufferPod = some pod → pod.counters = {}

def Stands (s : Store) (podKey : String) (generation : Nat) : Nat ⊕ DeletedPodSnapshot → Prop
  | .inl pod =>
    pod < s.published ∧ (s.pods pod).podKey = podKey ∧ s.generation pod = generation ∧
      (s.metaPods podKey = some pod ∨ ∀ c, s.tracked podKey = some c → c.statsGeneration ≠ generation)
  | .inr snap =>
    s.metaPods podKey = none ∧ s.recentlyDeletedPods podKey = some snap ∧ snap.counters.statsGeneration = generation

variable {s : Store} {podKey : String} {pod : Nat}

theorem tracked_of_live (h : s.metaPods podKey = some pod) : s.tracked podKey = some (s.pods pod).counters := by
  rw [tracked, h]

theorem tracked_of_absent (h : s.metaPods podKey = none) :
    s.tracked podKey = (s.recentlyDeletedPods podKey).map (·.counters) := by
  rw [tracked, h]

variable {c : Counters} {podIP key : String} {now : Int}

theorem Registry.pod_of_tracked (h : s.Registry) (hc : s.tracked podKey = some c) :
    ∃ pod < s.published, (s.pods pod).podKey = podKey ∧ s.generation pod = c.statsGeneration := by
  cases hlv : s.metaPods podKey with
  | some pod =>
    rw [tracked_of_live hlv, Option.some.injEq] at hc
    obtain ⟨hpod, hkey, _⟩ := h.live podKey pod hlv
    exact ⟨pod, hpod, hkey, congrArg _ hc⟩
  | none =>
    rw [tracked_of_absent hlv, map_eq_some_iff] at hc
    obtain ⟨snap, hsn, rfl⟩ := hc
    exact ⟨snap.pod, h.snapshot podKey snap hsn⟩

theorem sameStatsGeneration_eq_true {a b : Nat} (ha : 0 < a) : sameStatsGeneration a b = true ↔ a = b := by
  simp [sameStatsGeneration, Nat.ne_of_gt ha]

theorem Registry.stands_resolve (h : s.Registry) (hpod : pod < s.published) (hkey : (s.pods pod).podKey = podKey) :
    s.Stands podKey (s.generation pod) (s.resolvePodOrSnapshotLocked podKey pod) := by
  unfold resolvePodOrSnapshotLocked
  cases hlv : s.metaPods podKey with
  | some current =>
    dsimp only
    obtain ⟨hcr, hck, _⟩ := h.live podKey current hlv
    have hiss := (h.issued current hcr).1
    split
    · rename_i hsm
      rw [Bool.and_eq_true, sameStatsGeneration_eq_true hiss] at hsm
      exact ⟨hcr, hck, hsm.2, .inl hlv⟩
    rename_i hot
    rw [Bool.and_eq_true, sameStatsGeneration_eq_true hiss, decide_eq_true_eq] at hot
    refine ⟨hpod, hkey, rfl, ?_⟩
    by_cases heq : current = pod
    · exact .inl (heq ▸ hlv)
    · refine .inr fun c hc hgen => hot ⟨heq, ?_⟩
      rw [tracked_of_live hlv, Option.some.injEq] at hc
      rw [← hgen, ← hc, generation]
  | none =>
    cases hsn : s.recentlyDeletedPods podKey with
    | none =>
      refine ⟨hpod, hkey, rfl, .inr fun c hc => ?_⟩
      simp [tracked_of_absent hlv, hsn] at hc
    | some snap =>
      dsimp only
      obtain ⟨hold, _, hgen⟩ := h.snapshot podKey snap hsn
      have hiss : 0 < snap.counters.statsGeneration := hgen ▸ (h.issued snap.pod hold).1
      split
      · rename_i hsm
        exact ⟨hlv, hsn, (sameStatsGeneration_eq_true hiss).1 hsm⟩
      rename_i hot
      rw [sameStatsGeneration_eq_true hiss] at hot
      refine ⟨hpod, hkey, rfl, .inr fun c hc hc' => hot ?_⟩
      obtain rfl : snap.counters = c := by simpa [tracked_of_absent hlv, hsn] using hc
      exact hc'

theorem Registry.stands_routed (h : s.Registry) {target : Nat ⊕ DeletedPodSnapshot}
    (hrt : s.routed podKey podIP = some (pod, target)) :
    pod < s.published ∧ (s.pods pod).podKey = podKey ∧ s.Stands podKey (s.generation pod) target := by
  unfold routed at hrt
  cases hlv : s.metaPods podKey with
  | some current =>
    obtain ⟨rfl, rfl⟩ : current = pod ∧ Sum.inl current = target := by simpa [hlv] using hrt
    obtain ⟨hpod, hkey, _⟩ := h.live podKey current hlv
    exact ⟨hpod, hkey, hpod, hkey, rfl, .inl hlv⟩
  | none =>
    cases hsn : s.recentlyDeletedPods podKey with
    | none => simp [hlv, hsn] at hrt
    | some snap =>
      obtain ⟨_, _, rfl, rfl⟩ : podIP ≠ "" ∧ snap.podIP = podIP ∧ snap.pod = pod ∧ Sum.inr snap = target := by
        simpa [hlv, hsn] using hrt
      obtain ⟨hpod, hkey, hgen⟩ := h.snapshot podKey snap hsn
      exact ⟨hpod, hkey, hlv, hsn, hgen.symm⟩

/-! ## Changing the counters -/

section
variable {f : Counters → Counters} {target : Nat ⊕ DeletedPodSnapshot}

@[simp] theorem update_metaPods : (s.update podKey f target).metaPods = s.metaPods := by
  cases target <;> rfl

@[simp] theorem update_published : (s.update podKey f target).published = s.published := by
  cases target <;> rfl

@[simp] theorem update_nextStatsGeneration :
    (s.update podKey f target).nextStatsGeneration = s.nextStatsGeneration := by
  cases target <;> rfl

@[simp] theorem update_bufferPod : (s.update podKey f target).bufferPod = s.bufferPod := by
  cases target <;> rfl

@[simp] theorem update_podStats : (s.update podKey f target).podStats = s.podStats := by
  cases target <;> rfl

@[simp] theorem update_records : (s.update podKey f target).records = s.records := by
  cases target <;> rfl

@[simp] theorem update_recorded : (s.update podKey f target).recorded = s.recorded := by
  cases target <;> rfl

@[simp] theorem update_completed : (s.update podKey f target).completed = s.completed := by
  cases target <;> rfl

@[simp] theorem update_podKey (pod : Nat) : ((s.update podKey f target).pods pod).podKey = (s.pods pod).podKey := by
  cases target with
  | inl target =>
    by_cases hpod : pod = target
    · subst hpod
      simp [update]
    · simp [update, hpod]
  | inr snap => rfl

theorem update_generation (hf : ∀ c, (f c).statsGeneration = c.statsGeneration) (pod : Nat) :
    (s.update podKey f target).generation pod = s.generation pod := by
  cases target with
  | inl target =>
    by_cases hpod : pod = target
    · subst hpod
      simp [update, generation, hf]
    · simp [update, generation, hpod]
  | inr snap => rfl

variable {generation : Nat}

theorem Registry.key_of_stands (h : s.Registry) (hst : s.Stands podKey generation target)
    {key : String} {c : Counters} (hc : s.tracked key = some c) (hgen : c.statsGeneration = generation) : key = podKey := by
  obtain ⟨pod, hpod, hkey, hpd⟩ := h.pod_of_tracked hc
  have hpl : ∃ place < s.published, (s.pods place).podKey = podKey ∧ s.generation place = generation := by
    cases target with
    | inl place => exact ⟨place, hst.1, hst.2.1, hst.2.2.1⟩
    | inr snap =>
      obtain ⟨hold, hkey', hgen'⟩ := h.snapshot podKey snap hst.2.1
      exact ⟨snap.pod, hold, hkey', hgen'.trans hst.2.2⟩
  obtain ⟨place, hpl, hpc, hplc⟩ := hpl
  rw [← hkey, ← hpc]
  exact h.keyed pod hpod place hpl (by rw [hpd, hgen, hplc])

theorem map_ite_of_forall_ne {o : Option Counters} (h : ∀ c, o = some c → c.statsGeneration ≠ generation) :
    (o.map fun c => if c.statsGeneration = generation then f c else c) = o := by
  cases o with
  | none => rfl
  | some c => simp [h c rfl]

theorem tracked_update_inl_of_ne {place : Nat} {key : String} (hne : s.metaPods key ≠ some place) :
    (s.update podKey f (.inl place)).tracked key = s.tracked key := by
  unfold tracked
  rw [update_metaPods]
  cases hlv : s.metaPods key with
  | none => rfl
  | some pod =>
    have hpod : pod ≠ place := by
      rintro rfl
      exact hne hlv
    simp [update, hpod]

/-- The counters of the generation are changed wherever they are tracked, and no others are. -/
theorem Registry.tracked_update (h : s.Registry) (hst : s.Stands podKey generation target)
    (key : String) : (s.update podKey f target).tracked key =
      (s.tracked key).map fun c => if c.statsGeneration = generation then f c else c := by
  by_cases hkey : key = podKey
  · subst hkey
    cases target with
    | inl place =>
      obtain ⟨_, _, hgen, hsn⟩ := hst
      by_cases hlv : s.metaPods key = some place
      · have hlv' : (s.update key f (.inl place)).metaPods key = some place := by rw [update_metaPods, hlv]
        have hgen' : (s.pods place).counters.statsGeneration = generation := hgen
        rw [tracked_of_live hlv, tracked_of_live hlv']
        simp [update, hgen']
      · rw [tracked_update_inl_of_ne hlv, map_ite_of_forall_ne (hsn.resolve_left hlv)]
    | inr snap =>
      obtain ⟨hlv, hsp, hgen⟩ := hst
      have hlv' : (s.update key f (.inr snap)).metaPods key = none := by rw [update_metaPods, hlv]
      rw [tracked_of_absent hlv, tracked_of_absent hlv', hsp]
      simp [update, hgen]
  · have hot : ∀ c, s.tracked key = some c → c.statsGeneration ≠ generation :=
      fun c hc hgen => hkey (h.key_of_stands hst hc hgen)
    rw [map_ite_of_forall_ne hot]
    cases target with
    | inl place =>
      refine tracked_update_inl_of_ne fun hlv => hkey ?_
      rw [← (h.live key place hlv).2.1, hst.2.1]
    | inr snap => simp [tracked, update, update_of_ne hkey]

theorem Registry.update (h : s.Registry) (hst : s.Stands podKey generation target)
    (hf : ∀ c, (f c).statsGeneration = c.statsGeneration) : (s.update podKey f target).Registry := by
  have hsp : ∀ key snap, (s.update podKey f target).recentlyDeletedPods key = some snap →
      ∃ old, s.recentlyDeletedPods key = some old ∧ snap.pod = old.pod ∧
        snap.counters.statsGeneration = old.counters.statsGeneration := by
    intro key snap hsn
    cases target with
    | inl place => exact ⟨snap, hsn, rfl, rfl⟩
    | inr old =>
      by_cases hkey : key = podKey
      · subst hkey
        obtain rfl : { old with counters := f old.counters } = snap := by simpa [update] using hsn
        exact ⟨old, hst.2.1, rfl, hf _⟩
      · exact ⟨snap, by simpa [update, hkey] using hsn, rfl, rfl⟩
  refine ⟨fun key pod hlv => ?_, fun key snap hsn => ?_, fun pod hpod => ?_, fun pod hpod pod' hpod' hgen => ?_,
    fun pod hpod => ?_⟩
  · rw [update_metaPods] at hlv
    obtain ⟨hpod, hkey, hnn⟩ := h.live key pod hlv
    refine ⟨by simpa using hpod, by simpa using hkey, ?_⟩
    by_contra hsm
    obtain ⟨snap, hsn⟩ := ne_none_iff_exists'.1 hsm
    obtain ⟨old, hold, _⟩ := hsp key snap hsn
    simp [hnn] at hold
  · obtain ⟨old, hold, hpod, hgen⟩ := hsp key snap hsn
    simpa [update_generation hf, hpod, hgen] using h.snapshot key old hold
  · rw [update_published] at hpod
    rw [update_generation hf, update_nextStatsGeneration]
    exact h.issued pod hpod
  · rw [update_published] at hpod hpod'
    rw [update_generation hf, update_generation hf] at hgen
    simpa using h.keyed pod hpod pod' hpod' hgen
  · rw [update_bufferPod] at hpod
    exact h.buffer pod hpod

end

/-! ## Pods that come and go -/

theorem tracked_deletePodLocked (s : Store) (podKey : String) (now : Int) (key : String) :
    (s.deletePodLocked podKey now).tracked key = s.tracked key := by
  unfold deletePodLocked
  cases hlv : s.metaPods podKey with
  | none => rfl
  | some pod =>
    by_cases hkey : key = podKey
    · subst hkey
      simp [tracked, hlv]
    · simp [tracked, hkey]

theorem Registry.deletePodLocked (h : s.Registry) (now : Int) : (s.deletePodLocked podKey now).Registry := by
  unfold Store.deletePodLocked
  cases hlv : s.metaPods podKey with
  | none => exact h
  | some pod =>
    obtain ⟨hpod, hpd, _⟩ := h.live podKey pod hlv
    refine ⟨fun key pod' hlv' => ?_, fun key snap hsn => ?_, h.issued, h.keyed, h.buffer⟩
    · have hkey : key ≠ podKey := by
        rintro rfl
        simp at hlv'
      simpa [hkey] using h.live key pod' (by simpa [hkey] using hlv')
    by_cases hkey : key = podKey
    · subst hkey
      obtain rfl : DeletedPodSnapshot.mk pod (s.pods pod).podIP (s.pods pod).counters now = snap := by
        simpa using hsn
      exact ⟨hpod, hpd, rfl⟩
    · exact h.snapshot key snap (by simpa [hkey] using hsn)

theorem pruneExpired_le {snap : DeletedPodSnapshot}
    (h : (s.pruneExpired podKey now).recentlyDeletedPods key = some snap) : s.recentlyDeletedPods key = some snap := by
  by_cases hkey : key = podKey
  · subst hkey
    simp only [pruneExpired, update_self, filter_eq_some_iff] at h
    exact h.1
  · simpa [pruneExpired, hkey] using h

theorem tracked_pruneExpired (h : (s.pruneExpired podKey now).tracked key = some c) : s.tracked key = some c := by
  cases hlv : s.metaPods key with
  | some pod =>
    have hlv' : (s.pruneExpired podKey now).metaPods key = some pod := hlv
    rw [tracked_of_live hlv'] at h
    rw [tracked_of_live hlv]
    exact h
  | none =>
    have hlv' : (s.pruneExpired podKey now).metaPods key = none := hlv
    rw [tracked_of_absent hlv', map_eq_some_iff] at h
    obtain ⟨snap, hsn, rfl⟩ := h
    rw [tracked_of_absent hlv, pruneExpired_le hsn]
    rfl

section

variable (h : s.Registry)
include h

theorem Registry.pruneExpired (now : Int) : (s.pruneExpired podKey now).Registry := by
  refine ⟨fun key pod hlv => ?_, fun key snap hsn => h.snapshot key snap (pruneExpired_le hsn), h.issued, h.keyed,
    h.buffer⟩
  obtain ⟨hpod, hkey, hnn⟩ := h.live key pod hlv
  refine ⟨hpod, hkey, ?_⟩
  by_contra hsm
  obtain ⟨snap, hsn⟩ := ne_none_iff_exists'.1 hsm
  rw [pruneExpired_le hsn] at hnn
  cases hnn

theorem Registry.seeded_cases (podKey podIP : String) (ready : Bool) (now : Int) :
    (∃ snap, s.recentlyDeletedPods podKey = some snap ∧ (s.resumed podKey podIP now).isSome = true ∧
      ∃ readySince, s.seeded podKey podIP ready now = { snap.counters with readySince }) ∨
    ((s.resumed podKey podIP now).isSome = false ∧
      ∃ readySince, s.seeded podKey podIP ready now = { statsGeneration := s.nextStatsGeneration + 1, readySince }) := by
  have hbf : (s.bufferPod.getD ⟨podKey, podIP, {}⟩).counters = {} := by
    cases hpod : s.bufferPod with
    | none => rfl
    | some pod => exact h.buffer pod hpod
  unfold seeded
  cases hrs : s.resumed podKey podIP now with
  | none =>
    refine .inr ⟨rfl, ?_⟩
    dsimp only [elim_none]
    rw [hbf]
    split
    · exact ⟨now, rfl⟩
    · exact ⟨0, rfl⟩
  | some snap =>
    refine .inl ⟨snap, (Option.filter_eq_some_iff.1 hrs).1, rfl, ?_⟩
    dsimp only [elim_some]
    split
    · exact ⟨now, rfl⟩
    · exact ⟨snap.counters.readySince, rfl⟩

theorem Registry.tracked_addPodLocked_of_ne {ready : Bool}
    (hkey : key ≠ podKey) : (s.addPodLocked podKey podIP ready now).tracked key = s.tracked key := by
  unfold addPodLocked
  cases s.metaPods podKey with
  | some pod => simp [tracked, hkey]
  | none =>
    cases hlv : s.metaPods key with
    | none => simp [tracked, hkey, hlv]
    | some pod =>
      have hpod := ne_of_lt (h.live key pod hlv).1
      simp [tracked, hkey, hlv, hpod]

theorem Registry.tracked_addPodLocked {ready : Bool}
    (hc : (s.addPodLocked podKey podIP ready now).tracked key = some c) :
    (∃ c₀, s.tracked key = some c₀ ∧ ∃ readySince, c = { c₀ with readySince }) ∨
      ∃ readySince, c = { statsGeneration := s.nextStatsGeneration + 1, readySince } := by
  have hsm : s.tracked key = some c → ∃ c₀, s.tracked key = some c₀ ∧ ∃ readySince, c = { c₀ with readySince } :=
    fun hc => ⟨c, hc, c.readySince, rfl⟩
  by_cases hkey : key = podKey
  · subst hkey
    cases hlv : s.metaPods key with
    | some pod =>
      left
      apply hsm
      simpa [addPodLocked, tracked, hlv] using hc
    | none =>
      obtain rfl : s.seeded key podIP ready now = c := by simpa [addPodLocked, tracked, hlv] using hc
      rcases h.seeded_cases key podIP ready now with ⟨snap, hsn, _, hsd⟩ | ⟨_, hsd⟩
      · exact .inl ⟨snap.counters, by rw [tracked_of_absent hlv, hsn]; rfl, hsd⟩
      · exact .inr hsd
  · left
    apply hsm
    rw [← hc]
    exact (h.tracked_addPodLocked_of_ne hkey).symm

theorem Registry.seeded_generation (podKey podIP : String) (ready : Bool) (now : Int) :
    let r := s.seeded podKey podIP ready now
    0 < r.statsGeneration ∧ (r.statsGeneration ≤
    if (s.resumed podKey podIP now).isSome then s.nextStatsGeneration else s.nextStatsGeneration + 1) ∧
    ∀ pod < s.published, s.generation pod = r.statsGeneration →
    (s.pods pod).podKey = podKey := by
  rcases h.seeded_cases podKey podIP ready now with ⟨snap, hsn, hrs, _, hsd⟩ | ⟨hrs, _, hsd⟩
  · obtain ⟨hlt, hpd, hgen⟩ := h.snapshot podKey snap hsn
    obtain ⟨hpos, hle⟩ := h.issued snap.pod hlt
    rw [hsd, if_pos hrs, ← hpd]
    exact ⟨hgen ▸ hpos, hgen ▸ hle, fun pod hpod hgen' => h.keyed pod hpod snap.pod hlt (hgen'.trans hgen.symm)⟩
  rw [hsd, hrs]
  refine ⟨Nat.succ_pos _, by simp, fun pod hpod hgen => ?_⟩
  have := (h.issued pod hpod).2
  simp only at hgen
  omega

theorem Registry.addPodLocked (podIP : String) (ready : Bool) (now : Int) :
    (s.addPodLocked podKey podIP ready now).Registry := by
  unfold Store.addPodLocked
  cases hlv : s.metaPods podKey with
  | some pod =>
    have hnn := (h.live podKey pod hlv).2.2
    have hem : Function.update s.recentlyDeletedPods podKey none = s.recentlyDeletedPods := by
      rw [← hnn]
      exact update_eq_self _ _
    refine ⟨?_, ?_, fun pod' hpod' => ⟨(h.issued pod' hpod').1, (h.issued pod' hpod').2.trans ?_⟩, h.keyed, ?_⟩
    · simpa [hem] using h.live
    · simpa [hem, generation] using h.snapshot
    · dsimp only
      split <;> omega
    · simp
  | none =>
    obtain ⟨hps, hiss, hky⟩ := h.seeded_generation podKey podIP ready now
    have hold : ∀ pod < s.published,
        Function.update s.pods s.published ⟨podKey, podIP, s.seeded podKey podIP ready now⟩ pod = s.pods pod :=
      fun pod hpod => update_of_ne (ne_of_lt hpod) _ _
    refine ⟨fun key pod hpod => ?_, fun key snap hsn => ?_, fun pod hpod => ?_, fun pod hpod pod' hpod' hgen => ?_,
      by simp⟩
    · by_cases hkey : key = podKey
      · subst hkey
        obtain rfl : s.published = pod := by simpa using hpod
        simp
      · obtain ⟨hlt, hpd, hnn⟩ := h.live key pod (by simpa [hkey] using hpod)
        exact ⟨Nat.lt_succ_of_lt hlt, by simpa [hold pod hlt] using hpd, by simpa [hkey] using hnn⟩
    · have hkey : key ≠ podKey := by
        rintro rfl
        simp at hsn
      obtain ⟨hlt, hpd, hgen⟩ := h.snapshot key snap (by simpa [hkey] using hsn)
      refine ⟨Nat.lt_succ_of_lt hlt, by simpa [hold _ hlt] using hpd, ?_⟩
      simpa [generation, hold _ hlt] using hgen
    · rcases Nat.lt_succ_iff_lt_or_eq.1 hpod with hlt | rfl
      · obtain ⟨hpos, hle⟩ := h.issued pod hlt
        simp only [generation, hold pod hlt]
        refine ⟨hpos, hle.trans ?_⟩
        split <;> omega
      · simpa [generation] using ⟨hps, hiss⟩
    · rcases Nat.lt_succ_iff_lt_or_eq.1 hpod with hlt | rfl <;>
        rcases Nat.lt_succ_iff_lt_or_eq.1 hpod' with hlt' | rfl
      · simpa [hold _ hlt, hold _ hlt'] using h.keyed pod hlt pod' hlt'
          (by simpa [generation, hold _ hlt, hold _ hlt'] using hgen)
      · simpa [hold _ hlt] using hky pod hlt (by simpa [generation, hold _ hlt] using hgen)
      · simpa [hold _ hlt'] using (hky pod' hlt' (by simpa [generation, hold _ hlt'] using hgen.symm)).symm
      · rfl

end

end Store

end Aibrix.PodStats
