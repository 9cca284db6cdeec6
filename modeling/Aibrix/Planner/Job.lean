import Mathlib.Data.List.Basic

/-! # A job of the console planner

The worker tasks of `handlers.go` on one job, cut at their calls of the provisioner and of the metadata service. -/

namespace Aibrix.Planner

inductive JobStatus where
  | queued | planned | resourcePreparing | submitting | scheduling | validating | inProgress | finalizing | cancelling
  | completed | failed | expired | cancelled | resourceFailed | submitFailed
  deriving DecidableEq

namespace JobStatus

def isTerminal : JobStatus → Bool
  | completed | failed | expired | cancelled | resourceFailed | submitFailed => true
  | _ => false

def isBatchRunning : JobStatus → Bool
  | submitting | scheduling | validating | inProgress | finalizing => true
  | _ => false

end JobStatus

inductive BatchStatus where
  | scheduling | validating | inProgress | finalizing | cancelling | completed | failed | expired | cancelled
  deriving DecidableEq

def BatchStatus.toJobStatus : BatchStatus → JobStatus
  | scheduling => .scheduling | validating => .validating | inProgress => .inProgress | finalizing => .finalizing
  | cancelling => .cancelling | completed => .completed | failed => .failed | expired => .expired
  | cancelled => .cancelled

structure Job where
  status : JobStatus := .queued
  provisionID : Option String := none
  batchID : Option String := none
  scheduledResource : Bool := false
  allocatedResource : Bool := false
  readyToSubmit : Bool := false
  granted : List String := []
  /-- The provisions for which `Release` has been called. -/
  released : List String := []
  deriving DecidableEq

inductive Task where
  | handleProvisioning | handleResourcePreparing | submitToMDS | handleRunning
  | handleCleanup (source target : JobStatus)
  | provision | list | createBatch | getBatch
  /-- `handleCleanup` after the release. -/
  | conclude (target : JobStatus)
  deriving DecidableEq

inductive Listing where
  | error | missing | running | failed | pending

/-- The answers that a section of a task may meet; none is an error. -/
structure Answers where
  provision : Option String := none
  list : Listing := .error
  startReached : Bool := true
  /-- An error tells whether `BuildRuntime` had succeeded. -/
  createBatch : Except Bool String := .error true
  batch : Option BatchStatus := none

namespace Job

def markFailed (j : Job) (status : JobStatus) : Job :=
  { j with
    status := if j.status = .cancelling then .cancelled else status
    provisionID := none, batchID := none, released := j.provisionID.toList ++ j.released }

def run (j : Job) (a : Answers) : Task → Job × Option Task
  | .handleProvisioning =>
    if (j.status = .queued ∨ j.status = .planned) ∧ j.scheduledResource then
      ({ j with status := .planned }, some .provision)
    else (j, none)
  | .provision =>
    match a.provision with
    | none => (j.markFailed .resourceFailed, none)
    | some p =>
      let j := { j with granted := p :: j.granted }
      if j.provisionID.isSome ∨ j.status.isTerminal then ({ j with released := p :: j.released }, none)
      else if j.status = .cancelling then ({ j with provisionID := some p }, some (.handleCleanup .cancelling .cancelled))
      else ({ j with provisionID := some p, status := .resourcePreparing }, none)
  | .handleResourcePreparing =>
    if j.status ≠ .resourcePreparing then (j, none)
    else if j.provisionID = none then (j.markFailed .resourceFailed, none)
    else (j, some .list)
  | .list =>
    match a.list with
    | .error | .pending => (j, none)
    | .missing | .failed => (j.markFailed .resourceFailed, none)
    | .running =>
      ({ j with allocatedResource := true, readyToSubmit := j.status = .resourcePreparing || j.readyToSubmit }, none)
  | .submitToMDS =>
    if j.status ≠ .resourcePreparing ∨ j.readyToSubmit = false then (j, none)
    else if j.scheduledResource = false ∨ j.allocatedResource = false then (j.markFailed .resourceFailed, none)
    else if a.startReached then (j, some .createBatch) else (j, none)
  | .createBatch =>
    match a.createBatch with
    | .error built => (j.markFailed (if built then .submitFailed else .resourceFailed), none)
    | .ok b =>
      if j.status.isTerminal then (j, none)
      else
        let j := { j with batchID := some b, readyToSubmit := false }
        if j.status = .cancelling then (j, some (.handleCleanup .cancelling .cancelled))
        else ({ j with status := .submitting }, none)
  | .handleRunning =>
    if j.status.isBatchRunning = false then (j, none)
    else if j.batchID = none then (j.markFailed .submitFailed, none)
    else (j, some .getBatch)
  | .getBatch =>
    match a.batch with
    | none => (j, none)
    | some b =>
      if j.status.isTerminal ∨ j.status = .cancelling then (j, none)
      else if b.toJobStatus.isTerminal then (j, some (.handleCleanup j.status b.toJobStatus))
      else ({ j with status := b.toJobStatus }, none)
  | .handleCleanup source target =>
    if j.status.isTerminal ∨ j.status ≠ source then (j, none)
    else ({ j with released := j.provisionID.toList ++ j.released }, some (.conclude target))
  | .conclude target =>
    if j.status.isTerminal then (j, none)
    else
      let resolved := if j.batchID.isSome ∧ target = .cancelled then (a.batch.map (·.toJobStatus)).getD target else target
      ({ j with provisionID := none, status := resolved }, none)

/-- The check of `Plan` on a job of the pending queue, where `Schedule` succeeds. -/
def plan (j : Job) : Job :=
  if j.status = .queued ∨ j.status = .planned ∨ j.status = .cancelling then { j with scheduledResource := true } else j

def cancel (j : Job) : Job := { j with status := .cancelling }

end Job

structure Row where
  status : JobStatus := .queued
  provisionID : Option String := none
  batchID : Option String := none
  deriving DecidableEq

def jobToModel (j : Job) : Row := ⟨j.status, j.provisionID, j.batchID⟩

/-- `modelToJob` with what `Recover` changes. A job whose row is terminal is not in memory any more. -/
def Row.recover (row : Row) (j : Job) : Job :=
  { status := if row.status = .planned then .queued else row.status
    provisionID := row.provisionID, batchID := row.batchID, granted := j.granted, released := j.released }

/-- The handlers that a planning cycle submits. -/
def Task.Submitted : Task → Prop
  | .handleCleanup _ target => target = .cancelled ∨ target = .expired
  | .handleProvisioning | .handleResourcePreparing | .submitToMDS | .handleRunning => True
  | _ => False

instance : DecidablePred Task.Submitted := fun t => by
  unfold Task.Submitted
  cases t <;> infer_instance

structure State where
  job : Job := {}
  task : Option Task := none
  row : Row := {}
  deriving DecidableEq

inductive Event where
  | plan
  | cancel
  /-- `trySubmitJobTask`. -/
  | submit (t : Task)
  | work (a : Answers)
  /-- `Enqueue` of the same job id, once the earlier job has been removed. -/
  | enqueue
  | restart
  /-- `refreshStoredJobFromMDS`. -/
  | refresh (batch : BatchStatus)

/-- A planning cycle, a worker task or a call of `Cancel`. -/
def Event.Ordinary : Event → Prop
  | .enqueue | .restart | .refresh _ => False
  | _ => True

instance : DecidablePred Event.Ordinary := fun e => by
  unfold Event.Ordinary
  cases e <;> infer_instance

/-- What a task has changed is in the row when the task ends. -/
def State.step (s : State) : Event → State
  | .plan => { s with job := s.job.plan }
  | .cancel =>
    if s.job.status.isTerminal then s else { s with job := s.job.cancel, row := jobToModel s.job.cancel }
  | .submit t => if s.task = none ∧ t.Submitted then { s with task := some t } else s
  | .work a =>
    match s.task with
    | none => s
    | some t =>
      let (job, task) := s.job.run a t
      ⟨job, task, if task = none then jobToModel job else s.row⟩
  | .enqueue =>
    if s.task = none ∧ s.job.status.isTerminal then
      { job := { granted := s.job.granted, released := s.job.released } }
    else s
  | .restart =>
    if s.task = none then { job := s.row.recover s.job, row := jobToModel (s.row.recover s.job) } else s
  | .refresh batch =>
    if s.row.batchID = none ∨ s.row.status.isTerminal then s
    else { s with row.status := batch.toJobStatus }

inductive Reachable (ok : State → Event → Prop) : State → Prop
  | init : Reachable ok {}
  | step {s : State} {e : Event} : Reachable ok s → ok s e → Reachable ok (s.step e)

def State.runs (s : State) (es : List Event) : State := es.foldl State.step s

def Along (ok : State → Event → Prop) : State → List Event → Prop
  | _, [] => True
  | s, e :: es => ok s e ∧ Along ok (s.step e) es

instance Along.instDecidable (ok : State → Event → Prop) [∀ s, DecidablePred (ok s)] : ∀ s es, Decidable (Along ok s es)
  | _, [] => inferInstanceAs (Decidable True)
  | s, e :: es => @instDecidableAnd _ _ _ (Along.instDecidable ok (s.step e) es)

theorem Reachable.runs {ok : State → Event → Prop} {s : State} {es : List Event} (h : Reachable ok s)
    (hes : Along ok s es) : Reachable ok (s.runs es) := by
  induction es generalizing s with
  | nil => exact h
  | cons e es ih => exact ih (h.step hes.1) hes.2

/-! ## Ended jobs -/

open Job JobStatus State

variable {j : Job} {s : State} {t : Task}

theorem Job.run_of_terminal {a : Answers} (h : j.status.isTerminal = true) (ht : t.Submitted) :
    j.run a t = (j, none) := by
  obtain ⟨status⟩ := j
  cases status <;> first | contradiction | cases t <;> first | exact ht.elim | simp [run, isTerminal, isBatchRunning]

/-- A task that goes on leaves the job unfinished. -/
theorem Job.run_terminal {a : Answers} (h : (j.run a t).1.status.isTerminal = true) : (j.run a t).2 = none := by
  have hrunning : j.status.isTerminal = true → j.status.isBatchRunning = false := by
    cases j.status <;> simp [isTerminal, isBatchRunning]
  unfold run at *
  grind [isTerminal]

/-- No task of an ended job is between two sections. -/
theorem Reachable.submitted (h : Reachable (fun _ _ => True) s) (hend : s.job.status.isTerminal = true) :
    ∀ t ∈ s.task, t.Submitted := by
  induction h with
  | init => contradiction
  | @step s e => cases e <;> grind [State.step, plan, cancel, isTerminal, run_terminal]

theorem State.step_of_terminal {e : Event} (he : e.Ordinary) (hend : s.job.status.isTerminal = true)
    (hsub : ∀ t ∈ s.task, t.Submitted) : (s.step e).job = s.job ∧ ∀ t ∈ (s.step e).task, t.Submitted := by
  cases e <;> grind [State.step, plan, isTerminal, run_of_terminal, Event.Ordinary]

/-- Only a new submission or a restart changes a job that has ended. -/
theorem ended_job_unchanged (h : Reachable (fun _ _ => True) s) (hend : s.job.status.isTerminal = true)
    {es : List Event} (hes : ∀ e ∈ es, e.Ordinary) : (s.runs es).job = s.job := by
  have hsub := h.submitted hend
  clear h
  induction es generalizing s with
  | nil => rfl
  | cons e es ih =>
    obtain ⟨hjob, hnext⟩ := step_of_terminal (hes e List.mem_cons_self) hend hsub
    exact (ih (hjob ▸ hend) (fun e he => hes e (List.mem_cons_of_mem _ he)) hnext).trans hjob

theorem ended_job_unchanged_cancelled :
    let s := State.runs {} [.cancel, .submit (.handleCleanup .cancelling .cancelled), .work {}, .work {}]
    s.job.status = .cancelled ∧ (s.runs [.plan, .submit .handleProvisioning, .work {}, .cancel]).job = s.job :=
  ⟨by decide, ended_job_unchanged (Reachable.init.runs (by decide)) (by decide) (by decide)⟩

end Aibrix.Planner
