import Mathlib.Data.List.Basic

/-! # The batch manager

`batch_manager.py` with a scheduler and without an entity manager. -/

namespace Aibrix.Batch.Pools

/-! ## Job status -/

inductive State where
  | created | scheduling | validating | inProgress | cancelling | finalizing | finalized
deriving DecidableEq, Repr

inductive ConditionType where
  | completed | expired | failed | cancelled
deriving DecidableEq, Repr

structure Status where
  state : State
  conditions : List ConditionType
  inProgressAt : Bool
  tempFiles : Bool
  /-- `execution` is set. -/
  execution : Bool
deriving DecidableEq, Repr

namespace Status

def finished (s : Status) : Bool := s.state = .finalized

def checkCondition (s : Status) (c : ConditionType) : Bool := c ∈ s.conditions

def condition (s : Status) : Option ConditionType :=
  if s.checkCondition .expired then some .expired
  else if s.checkCondition .failed then some .failed
  else if s.checkCondition .cancelled then some .cancelled
  else if s.checkCondition .completed then some .completed
  else none

def addCondition (s : Status) (c : ConditionType) : Status :=
  { s with conditions := s.conditions ++ [c] }

def completedByDefault (s : Status) : Status :=
  if s.condition = none then s.addCondition .completed else s

end Status

def validNextStates : State → List State
  | .created => [.validating, .finalized]
  | .scheduling => []
  | .validating => [.inProgress, .finalized, .cancelling]
  | .inProgress => [.finalizing, .finalized, .cancelling]
  | .finalizing => [.finalized]
  | .cancelling => [.finalized, .finalizing]
  | .finalized => []

/-- `_validate_state_transition`. -/
def validTransition (old new : State) : Bool := old = new || new ∈ validNextStates old

/-! ## Pools -/

inductive Pool where
  | pending | inProgress | done
deriving DecidableEq, Repr

structure Entry where
  status : Status
  driver : Bool
deriving DecidableEq, Repr

structure Slots where
  pending : Option Status
  inProgress : Option Entry
  done : Option Status
deriving DecidableEq, Repr

namespace Slots

def empty : Slots := ⟨none, none, none⟩

def get (sl : Slots) : Pool → Option Entry
  | .pending => sl.pending.map (⟨·, false⟩)
  | .inProgress => sl.inProgress
  | .done => sl.done.map (⟨·, false⟩)

def delete (sl : Slots) : Pool → Slots
  | .pending => { sl with pending := none }
  | .inProgress => { sl with inProgress := none }
  | .done => { sl with done := none }

def set (sl : Slots) (pool : Pool) (e : Entry) : Slots :=
  match pool with
  | .pending => { sl with pending := some e.status }
  | .inProgress => { sl with inProgress := some e }
  | .done => { sl with done := some e.status }

/-- `get_job`: the first pool that holds the job. -/
def getJob (sl : Slots) : Option Status :=
  sl.pending.or ((sl.inProgress.map (·.status)).or sl.done)

/-- The fallback lookup of `job_updated_handler`. -/
def locate (sl : Slots) (pool : Pool) : Option (Pool × Entry) :=
  ((sl.get pool).map (pool, ·)).or
    (((sl.get .pending).map (Pool.pending, ·)).or
      (((sl.get .inProgress).map (Pool.inProgress, ·)).or
        ((sl.get .done).map (Pool.done, ·))))

end Slots

/-- `_categorize_jobs`; a job seen for the first time waits for the scheduler. -/
def categorizeJobs (s : Status) (firstSeen : Bool) : Pool :=
  if s.state = .created then .pending
  else if s.finished then .done
  else if firstSeen then .pending
  else .inProgress

def normalizeRecovered (sl : Slots) (job : Entry) : Slots × Entry :=
  if categorizeJobs job.status false ≠ .inProgress then (sl, job)
  else
    match sl.inProgress with
    | some e => (sl, e)
    | none =>
      match sl.pending with
      | none => (sl, job)
      | some _ => ({ sl with pending := none, inProgress := some job }, job)

/-- `_preserve_local_timestamps`. -/
def preserveLocal (old new : Status) : Status :=
  { new with inProgressAt := new.inProgressAt || old.inProgressAt }

/-- The second half of `job_updated_handler`, for the job found as `e` in `pool`. -/
def applyUpdate (sl : Slots) (pool : Pool) (e : Entry) (new : Status) : Slots :=
  if !validTransition e.status.state new.state then sl
  else
    let target := categorizeJobs new false
    let updated : Entry := ⟨preserveLocal e.status new, e.driver⟩
    if pool = target then sl.set pool updated
    else (sl.delete pool).set target updated

def jobUpdatedHandler (slots : Slots) (old : Entry) (new : Status) : Slots :=
  let normalized := normalizeRecovered slots old
  match normalized.1.locate (categorizeJobs normalized.2.status false) with
  | none => normalized.1
  | some found => applyUpdate normalized.1 found.1 found.2 new

/-! ## Calls of a driver -/

inductive Call where
  | updateJobStatus (status : Status)
  | markJobValidated (status : Status)
  | markJobFinalizing
  | markJobDone (status : Status)
  | markJobFailed
deriving DecidableEq, Repr

def updateJobStatus (sl : Slots) (status : Status) : Option Slots :=
  match sl.inProgress with
  | some e => some (jobUpdatedHandler sl e status)
  | none =>
    match sl.pending with
    | none => none
    | some st =>
      if st.state = .validating then
        let moved : Slots := { sl with pending := none, inProgress := some ⟨st, false⟩ }
        some (jobUpdatedHandler moved ⟨st, false⟩ status)
      else none

def markJobValidated (sl : Slots) (status : Status) : Option Slots :=
  match sl.getJob with
  | none => none
  | some current =>
    if current.state = .cancelling ∨ current.state = .finalizing ∨ current.finished then some sl
    else
      match sl.inProgress with
      | none => none
      | some e =>
        let validated : Status :=
          if status.state = .validating then
            { status with inProgressAt := true, state := .inProgress }
          else status
        some (jobUpdatedHandler sl e validated)

def markJobFinalizing (sl : Slots) : Option Slots :=
  match sl.inProgress with
  | none => none
  | some e =>
    if e.status.state = .finalizing then some sl
    else
      some (jobUpdatedHandler sl e
        (Status.completedByDefault { e.status with state := .finalizing }))

def markJobDone (sl : Slots) (status : Status) : Option Slots :=
  match sl.inProgress with
  | none => none
  | some e =>
    if e.status.state ≠ .finalizing then none
    else
      some (jobUpdatedHandler sl e { status.completedByDefault with state := .finalized })

def markJobFailed (sl : Slots) : Option Slots :=
  match sl.getJob with
  | none => none
  | some existing =>
    if existing.finished then some sl
    else
      match sl.inProgress with
      | none => none
      | some e =>
        let failed := e.status.addCondition .failed
        let failed : Status :=
          if e.status.state ≠ .inProgress ∨ !e.status.tempFiles then
            { failed with state := .finalized }
          else failed
        some (jobUpdatedHandler sl e failed)

def call (sl : Slots) : Call → Slots
  | .updateJobStatus status => (updateJobStatus sl status).getD sl
  | .markJobValidated status => (markJobValidated sl status).getD sl
  | .markJobFinalizing => (markJobFinalizing sl).getD sl
  | .markJobDone status => (markJobDone sl status).getD sl
  | .markJobFailed => (markJobFailed sl).getD sl

def runCalls (sl : Slots) (calls : List Call) : Slots := calls.foldl call sl

/-! ## Calls of the scheduler and of users -/

inductive TerminateResult where
  | accepted | alreadyRequested | rejected
deriving DecidableEq, Repr

structure TerminateAnswer where
  calls : List Call
  result : TerminateResult
deriving DecidableEq, Repr

structure AdmitAnswer where
  /-- `create_job_driver` returns. -/
  created : Bool
  calls : List Call
  raises : Bool
deriving DecidableEq, Repr

def needsValidation (s : Status) : Bool :=
  s.state = .created ∨ s.state = .validating ∨ (s.state = .inProgress ∧ s.inProgressAt = false)

def admitJob (sl : Slots) (answer : AdmitAnswer) : Slots :=
  match sl.pending, sl.inProgress with
  | some st, none =>
    let active : Status := if needsValidation st then { st with state := .validating } else st
    let moved (driver : Bool) : Slots :=
      { sl with pending := none, inProgress := some ⟨active, driver⟩ }
    if !answer.created then call (moved false) .markJobFailed
    else if !needsValidation st then moved true
    else
      let validated := runCalls (moved true) answer.calls
      if answer.raises then call validated .markJobFailed else validated
  | _, _ => sl

def buildCancelledJobUpdate (job : Entry) : Status :=
  let cancelled := job.status.addCondition .cancelled
  if job.status.state = .created ∨ (job.status.state = .validating ∧ !job.driver) then
    { cancelled with state := .finalized }
  else { cancelled with state := .cancelling }

def cancelFound (sl : Slots) (job : Entry) (terminate : TerminateAnswer) : TerminateResult × Slots :=
  if job.status.state = .finalizing then (.rejected, sl)
  else if job.status.state = .cancelling ∨ job.status.checkCondition .cancelled then
    (.alreadyRequested, sl)
  else if job.driver then (terminate.result, runCalls sl terminate.calls)
  else
    let cancelled := buildCancelledJobUpdate job
    -- the state is set in place before the transition is checked
    let marked : Entry :=
      ⟨{ job.status with state := .cancelling, conditions := cancelled.conditions }, false⟩
    (.accepted, jobUpdatedHandler { sl with inProgress := some marked } marked cancelled)

def cancelJob (sl : Slots) (terminate : TerminateAnswer) : TerminateResult × Slots :=
  match sl.pending, sl.inProgress with
  | some st, _ => cancelFound { sl with pending := none } ⟨st, false⟩ terminate
  | none, some e => cancelFound sl e terminate
  | none, none => (.rejected, sl)

def buildExpiredJobUpdate (s : Status) : Status :=
  if s.checkCondition .expired then s else s.addCondition .expired

/-- The update that `expire_job` persists; a job that has not started is finalized. -/
def expiredUpdate (s : Status) : Status :=
  let expired := buildExpiredJobUpdate s
  if s.state = .created ∨ s.state = .validating then { expired with state := .finalized }
  else expired

structure ExpireAnswer where
  terminate : TerminateAnswer
  /-- Calls that `cleanup` of a rebuilt driver makes. -/
  cleanup : List Call
deriving DecidableEq, Repr

/-- The calls of a `cleanup` in which nothing raises: a stored execution is cleared, and the job is finished. -/
def finishes : List Call → Bool
  | [.markJobFinalizing, .markJobDone _] | [.updateJobStatus _, .markJobFinalizing, .markJobDone _] => true
  | _ => false

def finishRecoveredExpiredJob (sl : Slots) (cleanup : List Call) : Slots :=
  match sl.inProgress with
  | none => sl
  | some e =>
    if e.status.state ≠ .inProgress ∨ e.status.execution ∨ e.driver then sl
    else runCalls sl cleanup

/-- The part of `expire_job` that persists the expired condition and stops the job. -/
def expireActive (sl : Slots) (job : Entry) (answer : ExpireAnswer) : Bool × Slots :=
  let expired := expiredUpdate job.status
  let sl := jobUpdatedHandler sl job expired
  if job.driver then
    (answer.terminate.result ≠ .rejected, runCalls sl answer.terminate.calls)
  else if expired.execution then (true, runCalls sl answer.cleanup)
  else (true, finishRecoveredExpiredJob sl answer.cleanup)

def expireJob (sl : Slots) (answer : ExpireAnswer) : Option (Bool × Slots) :=
  match (sl.get .pending).or (sl.get .inProgress) with
  | none =>
    match sl.done with
    | some st => if st.finished then some (true, sl) else none
    | none => none
  | some old =>
    if old.status.state = .inProgress ∧ old.status.checkCondition .expired then
      some (true, finishRecoveredExpiredJob sl answer.cleanup)
    else if old.status.state = .finalizing then some (false, sl)
    else
      let normalized := normalizeRecovered sl old
      some (expireActive normalized.1 normalized.2 answer)

/-- The pools after `expire_job`. -/
def expire (sl : Slots) (answer : ExpireAnswer) : Slots := ((expireJob sl answer).map (·.2)).getD sl

/-- A job found in validation is treated as newly created. -/
def restarted (committed : Status) : Status :=
  if committed.state = .validating then { committed with state := .created } else committed

/-- `job_committed_handler`: the slots and whether the id goes into the scheduler's queue;
`due` says that the deadline of the job has passed. -/
def jobCommittedHandler (sl : Slots) (committed : Status) (due : Bool) (answer : ExpireAnswer) : Slots × Bool :=
  let job := restarted committed
  match sl.locate .pending with
  | some (_, existing) => (jobUpdatedHandler sl existing job, false)
  | none =>
    let pool := categorizeJobs job true
    let sl := sl.set pool ⟨job, false⟩
    if pool = .done then (sl, false)
    else if job.condition = some .expired ∨ due then
      (expire sl answer, false)
    else (sl, true)

/-! ## The manager -/

structure BatchManager (Id : Type) where
  pools : Id → Slots
  queue : List Id

inductive Op (Id : Type) where
  | commit (id : Id) (job : Status) (due : Bool) (answer : ExpireAnswer)
  | admitJob (id : Id) (answer : AdmitAnswer)
  | cancel (id : Id) (terminate : TerminateAnswer)
  | expire (id : Id) (answer : ExpireAnswer)
  | call (id : Id) (call : Call)

namespace BatchManager

variable {Id : Type} [DecidableEq Id]

def start : BatchManager Id := ⟨fun _ => .empty, []⟩

def setPools (m : BatchManager Id) (id : Id) (sl : Slots) : BatchManager Id :=
  { m with pools := fun j => if j = id then sl else m.pools j }

def step (m : BatchManager Id) : Op Id → BatchManager Id
  | .commit id job due answer =>
    let committed := jobCommittedHandler (m.pools id) job due answer
    { m.setPools id committed.1 with
      queue := if committed.2 then m.queue ++ [id] else m.queue }
  | .admitJob id answer =>
    { m.setPools id (Pools.admitJob (m.pools id) answer) with queue := m.queue.erase id }
  | .cancel id terminate => m.setPools id (cancelJob (m.pools id) terminate).2
  | .expire id answer => m.setPools id (Pools.expire (m.pools id) answer)
  | .call id c => m.setPools id (Pools.call (m.pools id) c)

def run (m : BatchManager Id) (ops : List (Op Id)) : BatchManager Id := ops.foldl step m

end BatchManager

/-! ## A job in one pool

Every call keeps a job in exactly one pool, in the done pool exactly when it is finalized. -/

open Slots Status

namespace Slots

def ofPending (st : Status) : Slots := ⟨some st, none, none⟩

def ofInProgress (e : Entry) : Slots := ⟨none, some e, none⟩

def ofDone (st : Status) : Slots := ⟨none, none, some st⟩

end Slots

def Live (s : State) : Prop := s ≠ .created ∧ s ≠ .finalized

def Active (driver : Bool) (sl : Slots) : Prop :=
  (∃ st : Status, Live st.state ∧ sl = .ofInProgress ⟨st, driver⟩) ∨
    ∃ st : Status, st.state = .finalized ∧ sl = .ofDone st

def Waiting (sl : Slots) : Prop := ∃ st : Status, st.state ≠ .finalized ∧ sl = .ofPending st

/-- The job is in exactly one pool, in the done pool exactly when it is finalized. -/
def Held (sl : Slots) : Prop := Waiting sl ∨ ∃ driver, Active driver sl

theorem Active.held {driver : Bool} {sl : Slots} (h : Active driver sl) : Held sl :=
  .inr ⟨driver, h⟩

variable {st new : Status} {e : Entry} {driver : Bool} {sl : Slots}

theorem active_ofInProgress (h : Live e.status.state) : Active e.driver (.ofInProgress e) :=
  .inl ⟨e.status, h, rfl⟩

theorem active_ofDone (h : st.state = .finalized) : Active driver (.ofDone st) :=
  .inr ⟨st, h, rfl⟩

theorem held_ofDone (h : st.state = .finalized) : Held (.ofDone st) := .inr ⟨false, active_ofDone h⟩

/-! ## Updates -/

theorem categorize_live (h : Live st.state) : categorizeJobs st false = .inProgress := by
  simp [categorizeJobs, finished, h.1, h.2]

theorem categorize_created (h : st.state = .created) (firstSeen : Bool) : categorizeJobs st firstSeen = .pending := by
  simp [categorizeJobs, h]

theorem categorize_finalized (h : st.state = .finalized) (firstSeen : Bool) : categorizeJobs st firstSeen = .done := by
  simp [categorizeJobs, finished, h]

theorem live_or_finalized_of_valid {old : State} (h : Live old) (hvalid : validTransition old new.state = true) :
    Live new.state ∨ new.state = .finalized := by
  rcases hnew : new.state <;> rcases old <;>
    simp_all [validTransition, validNextStates, Live]

theorem jobUpdatedHandler_eq {old job : Entry} {slots : Slots} (hnormal : normalizeRecovered slots old = (sl, job))
    (hget : sl.get (categorizeJobs job.status false) = some e) (new : Status) : jobUpdatedHandler slots old new =
      applyUpdate sl (categorizeJobs job.status false) e new := by
  simp [jobUpdatedHandler, hnormal, locate, hget]

theorem normalize_inProgress (h : Live e.status.state) :
    normalizeRecovered (.ofInProgress e) e = (.ofInProgress e, e) := by
  simp [normalizeRecovered, categorize_live h, ofInProgress]

theorem normalize_recovered (h : Live st.state) :
    normalizeRecovered (.ofPending st) ⟨st, false⟩ = (.ofInProgress ⟨st, false⟩, ⟨st, false⟩) := by
  simp [normalizeRecovered, categorize_live h, ofPending, ofInProgress]

theorem normalize_created (h : st.state = .created) :
    normalizeRecovered (.ofPending st) ⟨st, false⟩ = (.ofPending st, ⟨st, false⟩) := by
  simp [normalizeRecovered, categorize_created h]

theorem normalize_done (h : st.state = .finalized) :
    normalizeRecovered (.ofDone st) ⟨st, false⟩ = (.ofDone st, ⟨st, false⟩) := by
  simp [normalizeRecovered, categorize_finalized h]

theorem applyUpdate_inProgress (h : Live e.status.state) (new : Status) :
    Active e.driver (applyUpdate (.ofInProgress e) .inProgress e new) := by
  unfold applyUpdate
  split
  · exact active_ofInProgress h
  rename_i hvalid
  rcases live_or_finalized_of_valid h (by simpa using hvalid) with hlive | hfinalized
  · rw [categorize_live hlive]
    exact .inl ⟨preserveLocal e.status new, hlive, rfl⟩
  · rw [categorize_finalized hfinalized]
    exact .inr ⟨preserveLocal e.status new, hfinalized, rfl⟩

theorem jobUpdatedHandler_inProgress_eq (h : Live e.status.state) (new : Status) :
    jobUpdatedHandler (.ofInProgress e) e new = applyUpdate (.ofInProgress e) .inProgress e new := by
  have heq := jobUpdatedHandler_eq (normalize_inProgress h) (e := e) (by rw [categorize_live h]; rfl) new
  rw [heq, categorize_live h]

theorem jobUpdatedHandler_inProgress (h : Live e.status.state) (new : Status) :
    Active e.driver (jobUpdatedHandler (.ofInProgress e) e new) := by
  rw [jobUpdatedHandler_inProgress_eq h]
  exact applyUpdate_inProgress h new

theorem jobUpdatedHandler_recovered (h : Live st.state) (new : Status) :
    Active false (jobUpdatedHandler (.ofPending st) ⟨st, false⟩ new) := by
  have heq := jobUpdatedHandler_eq (normalize_recovered h) (e := ⟨st, false⟩) (by rw [categorize_live h]; rfl) new
  rw [heq, categorize_live h]
  exact applyUpdate_inProgress (e := ⟨st, false⟩) h new

theorem jobUpdatedHandler_created_eq (h : st.state = .created) (new : Status) :
    jobUpdatedHandler (.ofPending st) ⟨st, false⟩ new = applyUpdate (.ofPending st) .pending ⟨st, false⟩ new := by
  have heq := jobUpdatedHandler_eq (normalize_created h) (e := ⟨st, false⟩) (by rw [categorize_created h]; rfl) new
  rw [heq, categorize_created h]

theorem jobUpdatedHandler_created (h : st.state = .created) (new : Status) :
    Held (jobUpdatedHandler (.ofPending st) ⟨st, false⟩ new) := by
  rw [jobUpdatedHandler_created_eq h, applyUpdate]
  split
  · exact .inl ⟨st, by simp [h], rfl⟩
  have hcases : new.state = .created ∨ new.state = .validating ∨ new.state = .finalized := by
    rcases hnew : new.state <;> simp_all [validTransition, validNextStates]
  rcases hcases with hnew | hnew | hnew
  · rw [categorize_created hnew]
    exact .inl ⟨preserveLocal st new, by simp [preserveLocal, hnew], rfl⟩
  · have hlive : Live new.state := by simp [Live, hnew]
    rw [categorize_live hlive]
    exact .inr ⟨false, .inl ⟨preserveLocal st new, hlive, rfl⟩⟩
  · rw [categorize_finalized hnew]
    exact .inr ⟨false, .inr ⟨preserveLocal st new, hnew, rfl⟩⟩

theorem jobUpdatedHandler_created_finalized (driver : Bool) (h : st.state = .created)
    (hnew : new.state = .finalized) : Active driver (jobUpdatedHandler (.ofPending st) ⟨st, false⟩ new) := by
  rw [jobUpdatedHandler_created_eq h, applyUpdate, categorize_finalized hnew, h, hnew]
  exact .inr ⟨preserveLocal st new, hnew, rfl⟩

section

variable (h : st.state = .finalized)
include h

theorem jobUpdatedHandler_done (hnew : new.state ≠ .finalized) :
    jobUpdatedHandler (.ofDone st) ⟨st, false⟩ new = .ofDone st := by
  have hinvalid : validTransition st.state new.state = false := by
    rcases hstate : new.state <;> simp_all [validTransition, validNextStates]
  have heq := jobUpdatedHandler_eq (normalize_done h) (e := ⟨st, false⟩) (by rw [categorize_finalized h]; rfl) new
  rw [heq, applyUpdate, hinvalid]
  rfl

theorem jobUpdatedHandler_done_finalized (hnew : new.state = .finalized) :
    jobUpdatedHandler (.ofDone st) ⟨st, false⟩ new = .ofDone (preserveLocal st new) := by
  have heq := jobUpdatedHandler_eq (normalize_done h) (e := ⟨st, false⟩) (by rw [categorize_finalized h]; rfl) new
  rw [heq, applyUpdate, h, hnew, categorize_finalized h, categorize_finalized hnew]
  rfl

/-! ## Calls of a driver -/

theorem call_done (c : Call) : call (.ofDone st) c = .ofDone st := by
  cases c <;>
    simp [call, updateJobStatus, markJobValidated, markJobFinalizing, markJobDone, markJobFailed,
      ofDone, getJob, finished, h]

end

theorem call_inProgress (h : Live e.status.state) (c : Call) : Active e.driver (call (.ofInProgress e) c) := by
  have hactive := active_ofInProgress h
  have hupdated := jobUpdatedHandler_inProgress h
  cases c with
  | updateJobStatus status => exact hupdated status
  | markJobValidated status =>
    simp only [call, markJobValidated, getJob, ofInProgress, Option.map_some,
      Option.none_or, Option.some_or]
    split
    · exact hactive
    · exact hupdated _
  | markJobFinalizing =>
    simp only [call, markJobFinalizing, ofInProgress]
    split
    · exact hactive
    · exact hupdated _
  | markJobDone status =>
    simp only [call, markJobDone, ofInProgress]
    split
    · exact hactive
    · exact hupdated _
  | markJobFailed =>
    simp only [call, markJobFailed, getJob, ofInProgress, Option.map_some, Option.none_or, Option.some_or]
    split
    · exact hactive
    · exact hupdated _

theorem Active.call (h : Active driver sl) (c : Call) : Active driver (call sl c) := by
  rcases h with ⟨st, hlive, rfl⟩ | ⟨st, hfinalized, rfl⟩
  · exact call_inProgress (e := ⟨st, driver⟩) hlive c
  · rw [call_done hfinalized]
    exact active_ofDone hfinalized

theorem Active.runCalls (h : Active driver sl) (calls : List Call) : Active driver (runCalls sl calls) := by
  induction calls generalizing sl with
  | nil => exact h
  | cons c calls ih => exact ih (h.call c)

theorem call_waiting_same (hfinalized : st.state ≠ .finalized) (hvalidating : st.state ≠ .validating)
    (c : Call) : call (.ofPending st) c = .ofPending st := by
  cases c with
  | markJobValidated status =>
    simp only [call, markJobValidated, ofPending, getJob, Option.some_or]
    split <;> rfl
  | _ =>
    simp [call, updateJobStatus, markJobFinalizing, markJobDone, markJobFailed, ofPending,
      getJob, finished, hfinalized, hvalidating]

theorem Waiting.call (h : Waiting sl) (c : Call) : Held (call sl c) := by
  obtain ⟨st, hstate, rfl⟩ := h
  have hsame : Held (.ofPending st) := .inl ⟨st, hstate, rfl⟩
  by_cases hvalidating : st.state = .validating
  · cases c with
    | updateJobStatus status =>
      have hlive : Live st.state := by simp [Live, hvalidating]
      simp only [Pools.call, updateJobStatus, ofPending, hvalidating]
      exact (jobUpdatedHandler_inProgress (e := ⟨st, false⟩) hlive status).held
    | _ =>
      simp [Pools.call, markJobValidated, markJobFinalizing, markJobDone, markJobFailed,
        ofPending, getJob, finished, hvalidating]
      exact hsame
  · rwa [call_waiting_same hstate hvalidating]

theorem Held.call (h : Held sl) (c : Call) : Held (Pools.call sl c) := by
  rcases h with hwaiting | ⟨driver, hactive⟩
  · exact hwaiting.call c
  · exact (hactive.call c).held

/-! ## Cancelling -/

def Cancellable (st : Status) : Prop :=
  st.state ≠ .finalizing ∧ st.state ≠ .cancelling ∧ st.checkCondition .cancelled = false

def markedCancelling (job : Entry) : Entry :=
  ⟨{ job.status with
      state := .cancelling, conditions := (buildCancelledJobUpdate job).conditions }, false⟩

theorem live_markedCancelling (job : Entry) : Live (markedCancelling job).status.state :=
  ⟨nofun, nofun⟩

theorem cancelFound_inProgress (h : Live e.status.state) (terminate : TerminateAnswer) :
    Active e.driver (cancelFound (.ofInProgress e) e terminate).2 := by
  have hactive := active_ofInProgress h
  unfold cancelFound
  split
  · exact hactive
  split
  · exact hactive
  split
  · exact hactive.runCalls terminate.calls
  rename_i hdriver
  rw [Bool.not_eq_true] at hdriver
  rw [hdriver]
  exact jobUpdatedHandler_inProgress (live_markedCancelling e) _

theorem cancelJob_waiting_eq (hcancellable : Cancellable st) (terminate : TerminateAnswer) :
    (cancelJob (.ofPending st) terminate).2 = jobUpdatedHandler (.ofInProgress (markedCancelling ⟨st, false⟩))
        (markedCancelling ⟨st, false⟩) (buildCancelledJobUpdate ⟨st, false⟩) := by
  obtain ⟨hfinalized, hcancelled, hcancelling⟩ := hcancellable
  simp only [cancelJob, ofPending, cancelFound, hfinalized, hcancelled, hcancelling, if_false, or_self,
    Bool.false_eq_true]
  rfl

theorem cancelJob_waiting (hcancellable : Cancellable st) (terminate : TerminateAnswer) :
    Active false (cancelJob (.ofPending st) terminate).2 := by
  rw [cancelJob_waiting_eq hcancellable]
  exact jobUpdatedHandler_inProgress (live_markedCancelling ⟨st, false⟩) _

theorem Active.cancelJob (h : Active driver sl) (terminate : TerminateAnswer) :
    Active driver (cancelJob sl terminate).2 := by
  rcases h with ⟨st, hlive, rfl⟩ | ⟨st, hfinalized, rfl⟩
  · exact cancelFound_inProgress (e := ⟨st, driver⟩) hlive terminate
  · exact active_ofDone hfinalized

/-! ## Expiring -/

theorem Active.finishRecoveredExpiredJob (h : Active driver sl) (cleanup : List Call) :
    Active driver (finishRecoveredExpiredJob sl cleanup) := by
  unfold Pools.finishRecoveredExpiredJob
  split
  · exact h
  · split
    · exact h
    · exact h.runCalls cleanup

theorem expireActive_active {job : Entry} (answer : ExpireAnswer)
    (h : Active driver (jobUpdatedHandler sl job (expiredUpdate job.status))) :
    Active driver (expireActive sl job answer).2 := by
  unfold expireActive
  dsimp only
  split
  · exact h.runCalls answer.terminate.calls
  split
  · exact h.runCalls answer.cleanup
  · exact h.finishRecoveredExpiredJob answer.cleanup

theorem expireActive_inProgress (h : Live e.status.state) (answer : ExpireAnswer) :
    Active e.driver (expireActive (.ofInProgress e) e answer).2 :=
  expireActive_active answer (jobUpdatedHandler_inProgress h _)

theorem Active.expire (h : Active driver sl) (answer : ExpireAnswer) : Active driver (expire sl answer) := by
  have hsame := h
  rcases h with ⟨st, hlive, rfl⟩ | ⟨st, hfinalized, rfl⟩
  · change Active driver (Option.getD (Option.map _ (ite _ _ _)) _)
    split
    · exact hsame.finishRecoveredExpiredJob answer.cleanup
    split
    · exact hsame
    · rw [normalize_inProgress (e := ⟨st, driver⟩) hlive]
      exact expireActive_inProgress (e := ⟨st, driver⟩) hlive answer
  · simp only [Pools.expire, expireJob, Slots.ofDone, Slots.get, finished, hfinalized,
      Option.map_none, Option.or_self, decide_true, if_true, Option.map_some, Option.getD_some]
    exact hsame

theorem expire_created (driver : Bool) (h : st.state = .created) (answer : ExpireAnswer) :
    Active driver (expire (.ofPending st) answer) := by
  change Active driver (Option.getD (Option.map _ (ite _ _ _)) _)
  rw [if_neg (by simp [h]), if_neg (by simp [h]), normalize_created h]
  exact expireActive_active answer (jobUpdatedHandler_created_finalized driver h (by simp [expiredUpdate, h]))

section

variable (h : st.state ≠ .finalized)
include h

theorem expire_waiting (answer : ExpireAnswer) : Held (expire (.ofPending st) answer) := by
  have hsame : Held (.ofPending st) := .inl ⟨st, h, rfl⟩
  by_cases hcreated : st.state = .created
  · exact (expire_created false hcreated answer).held
  have hlive : Live st.state := ⟨hcreated, h⟩
  change Held (Option.getD (Option.map _ (ite _ _ _)) _)
  split
  · exact hsame
  split
  · exact hsame
  · rw [normalize_recovered hlive]
    exact (expireActive_inProgress (e := ⟨st, false⟩) hlive answer).held

omit h in
theorem Held.expire (h : Held sl) (answer : ExpireAnswer) : Held (expire sl answer) := by
  rcases h with ⟨st, hstate, rfl⟩ | ⟨driver, hactive⟩
  · exact expire_waiting hstate answer
  · exact (hactive.expire answer).held

def admitted (st : Status) : Status :=
  if needsValidation st then { st with state := .validating } else st

theorem live_admitted : Live (admitted st).state := by
  unfold admitted
  split
  · exact ⟨nofun, nofun⟩
  rename_i hdriver
  refine ⟨?_, h⟩
  intro hcreated
  exact hdriver (by simp [needsValidation, hcreated])

theorem admit_waiting (answer : AdmitAnswer) :
    Active answer.created (admitJob (.ofPending st) answer) := by
  have hmoved : ∀ driver, Active driver (.ofInProgress ⟨admitted st, driver⟩) :=
    fun driver => active_ofInProgress (e := ⟨admitted st, driver⟩) (live_admitted h)
  simp only [admitJob, ofPending]
  split
  · rename_i hcreated
    rw [Bool.not_eq_true'] at hcreated
    rw [hcreated]
    exact (hmoved false).call .markJobFailed
  rename_i hcreated
  simp only [Bool.not_eq_true', Bool.not_eq_false] at hcreated
  rw [hcreated]
  split
  · exact hmoved true
  have hcalls := (hmoved true).runCalls answer.calls
  split
  · exact hcalls.call .markJobFailed
  · exact hcalls

end

theorem Held.admitJob (h : Held sl) (answer : AdmitAnswer) : Held (admitJob sl answer) := by
  have hsame := h
  rcases h with ⟨st, hstate, rfl⟩ | ⟨driver, ⟨st, hlive, rfl⟩ | ⟨st, hfinalized, rfl⟩⟩
  · exact (admit_waiting hstate answer).held
  · exact hsame
  · exact hsame

/-! ## Committing -/

theorem Held.commit (h : Held sl) (committed : Status) (due : Bool) (answer : ExpireAnswer) :
    Held (jobCommittedHandler sl committed due answer).1 := by
  have hsame := h
  rcases h with ⟨st, hstate, rfl⟩ | ⟨driver, ⟨st, hlive, rfl⟩ | ⟨st, hfinalized, rfl⟩⟩
  · by_cases hcreated : st.state = .created
    · exact jobUpdatedHandler_created hcreated _
    · exact (jobUpdatedHandler_recovered ⟨hcreated, hstate⟩ _).held
  · exact (jobUpdatedHandler_inProgress (e := ⟨st, driver⟩) hlive _).held
  change Held (jobUpdatedHandler (.ofDone st) ⟨st, false⟩ (restarted committed))
  by_cases hnew : (restarted committed).state = .finalized
  · rw [jobUpdatedHandler_done_finalized hfinalized hnew]
    exact held_ofDone hnew
  · rwa [jobUpdatedHandler_done hfinalized hnew]

theorem restarted_ne_validating (committed : Status) : (restarted committed).state ≠ .validating := by
  unfold restarted
  split
  · exact nofun
  · assumption

variable {committed : Status}

theorem restarted_finalized : (restarted committed).state = .finalized ↔ committed.state = .finalized := by
  unfold restarted
  split
  · rename_i hvalidating
    simp [hvalidating]
  · rfl

theorem commit_fresh_finalized (h : committed.state = .finalized) (due : Bool) (answer : ExpireAnswer) :
    jobCommittedHandler .empty committed due answer = (.ofDone (restarted committed), false) := by
  simp only [jobCommittedHandler, categorize_finalized (restarted_finalized.2 h)]
  rfl

theorem commit_fresh_waiting (h : committed.state ≠ .finalized) (due : Bool) (answer : ExpireAnswer) :
    let r := restarted committed
    jobCommittedHandler .empty committed due answer = if r.condition = some .expired ∨ due then (expire
      (.ofPending r) answer, false) else (.ofPending r, true) := by
  have hpool : categorizeJobs (restarted committed) true = .pending := by
    simp [categorizeJobs, finished, mt restarted_finalized.1 h]
  simp only [jobCommittedHandler, hpool]
  rfl

theorem held_commit_fresh (committed : Status) (due : Bool) (answer : ExpireAnswer) :
    Held (jobCommittedHandler .empty committed due answer).1 := by
  by_cases h : committed.state = .finalized
  · rw [commit_fresh_finalized h]
    exact held_ofDone (restarted_finalized.2 h)
  have hwaiting := mt restarted_finalized.1 h
  rw [commit_fresh_waiting h]
  split
  · exact expire_waiting hwaiting answer
  · exact .inl ⟨_, hwaiting, rfl⟩

end Aibrix.Batch.Pools
