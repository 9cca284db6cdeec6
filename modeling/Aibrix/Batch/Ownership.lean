import Aibrix.Batch.JobPools

/-! # Runs of the batch manager

A committed job stays in exactly one pool through all calls, and a finished one keeps its state and condition. -/

namespace Aibrix.Batch.Pools

variable {Id : Type}

/-! ## One call -/

namespace Op

def jobId : Op Id → Id
  | .commit id _ _ _ => id
  | .admitJob id _ => id
  | .cancel id _ => id
  | .expire id _ => id
  | .call id _ => id

def isCommit : Op Id → Bool
  | .commit _ _ _ _ => true
  | _ => false

def after (sl : Slots) : Op Id → Slots
  | .commit _ job due answer => (jobCommittedHandler sl job due answer).1
  | .admitJob _ answer => Pools.admitJob sl answer
  | .cancel _ terminate => (cancelJob sl terminate).2
  | .expire _ answer => Pools.expire sl answer
  | .call _ c => Pools.call sl c

end Op

variable {id : Id} {op : Op Id} {ops : List (Op Id)} {sl : Slots}

theorem after_empty (h : op.isCommit = false) : op.after .empty = .empty := by
  cases op with
  | commit id job due answer => simp [Op.isCommit] at h
  | admitJob id answer | cancel id terminate | expire id answer => rfl
  | call id c => cases c <;> rfl

def Slots.HeldIn (sl : Slots) (pool : Pool) (e : Entry) : Prop :=
  ∀ p, sl.get p = if p = pool then some e else none

def FinishedWith (condition : Option ConditionType) (sl : Slots) : Prop :=
  ∃ st : Status, sl = .ofDone st ∧ st.state = .finalized ∧ st.condition = condition

theorem heldIn_ofPending (st : Status) : (Slots.ofPending st).HeldIn .pending ⟨st, false⟩ := by
  rintro (_ | _ | _) <;> rfl

theorem heldIn_ofInProgress (e : Entry) : (Slots.ofInProgress e).HeldIn .inProgress e := by
  rintro (_ | _ | _) <;> rfl

theorem heldIn_ofDone (st : Status) : (Slots.ofDone st).HeldIn .done ⟨st, false⟩ := by
  rintro (_ | _ | _) <;> rfl

theorem Held.heldIn (h : Held sl) : ∃ pool e, sl.HeldIn pool e ∧ (pool = .done ↔ e.status.state = .finalized) ∧
      (e.status.state = .finalized → FinishedWith e.status.condition sl) := by
  rcases h with ⟨st, hstate, rfl⟩ | ⟨driver, ⟨st, hlive, rfl⟩ | ⟨st, hfinalized, rfl⟩⟩
  · exact ⟨.pending, _, heldIn_ofPending st, by simp [hstate], fun hfinalized => absurd hfinalized hstate⟩
  · exact ⟨.inProgress, _, heldIn_ofInProgress _, by simp [hlive.2], fun hfinalized => absurd hfinalized hlive.2⟩
  · exact ⟨.done, _, heldIn_ofDone st, by simp [hfinalized], fun _ => ⟨st, rfl, hfinalized, rfl⟩⟩

/-! ## Sequences of calls -/

namespace BatchManager

variable [DecidableEq Id] {m : BatchManager Id}

theorem pools_step (m : BatchManager Id) (op : Op Id) (id : Id) :
    (m.step op).pools id = if id = op.jobId then op.after (m.pools op.jobId) else m.pools id := by
  cases op <;> rfl

theorem pools_step_same (h : op.jobId = id) : (m.step op).pools id = op.after (m.pools id) := by
  rw [pools_step, if_pos h.symm, h]

theorem pools_step_other (h : op.jobId ≠ id) : (m.step op).pools id = m.pools id := by
  rw [pools_step, if_neg (Ne.symm h)]

def along (ok : Slots → Op Id → Bool) : BatchManager Id → List (Op Id) → Bool
  | _, [] => true
  | m, op :: ops => ok (m.pools op.jobId) op && along ok (m.step op) ops

theorem run_append (m : BatchManager Id) (before after : List (Op Id)) :
    m.run (before ++ after) = (m.run before).run after :=
  List.foldl_append

variable {ok : Slots → Op Id → Bool} {P : BatchManager Id → Prop}

theorem along_append {before after : List (Op Id)} (h : along ok m (before ++ after)) :
    along ok m before ∧ along ok (m.run before) after := by
  induction before generalizing m with
  | nil => exact ⟨rfl, h⟩
  | cons op before ih =>
    simp only [List.cons_append, along, Bool.and_eq_true] at h ⊢
    obtain ⟨hfirst, hrest⟩ := ih h.2
    exact ⟨⟨h.1, hfirst⟩, hrest⟩

theorem inv_run (hstep : ∀ m op, P m → ok (m.pools op.jobId) op → P (m.step op))
    (h : along ok m ops) (hm : P m) : P (m.run ops) := by
  induction ops generalizing m with
  | nil => exact hm
  | cons op ops ih =>
    simp only [along, Bool.and_eq_true] at h
    exact ih h.2 (hstep m op hm h.1)

/-- What the first commit of a job establishes and every call keeps holds from then on. -/
theorem inv_run_of_commit (hcommits : ∀ (m : BatchManager Id) op, op.jobId = id → m.pools id = .empty → op.isCommit →
      ok (m.pools op.jobId) op → P (m.step op)) (hstep : ∀ m op, P m → ok (m.pools op.jobId) op → P (m.step op))
    (h : along ok m ops) (hm : m.pools id = .empty)
    (hops : ∃ op ∈ ops, op.jobId = id ∧ op.isCommit) : P (m.run ops) := by
  induction ops generalizing m with
  | nil => simp at hops
  | cons op ops ih =>
    simp only [along, Bool.and_eq_true] at h
    by_cases hjob : op.jobId = id
    · by_cases hcommit : op.isCommit
      · have hfirst := hcommits m op hjob hm hcommit h.1
        exact inv_run (m := m.step op) hstep h.2 hfirst
      have hempty : (m.step op).pools id = .empty := by
        rw [pools_step_same hjob, hm]
        exact after_empty (by simpa using hcommit)
      exact ih h.2 hempty (by simpa [hcommit] using hops)
    · exact ih h.2 (by rw [pools_step_other hjob, hm]) (by simpa [hjob] using hops)

end BatchManager

/-! ## No job is lost -/

def keeps (sl : Slots) : Op Id → Bool
  | .commit _ job _ _ =>
    sl.done.all fun st => job.state ≠ .finalized ∨ job.condition = st.condition
  | .cancel _ _ =>
    sl.pending.all fun st =>
      st.state ≠ .finalizing ∧ st.state ≠ .cancelling ∧ st.checkCondition .cancelled = false
  | _ => true

theorem Held.after (h : Held sl) (hkeeps : keeps sl op) : Held (op.after sl) := by
  cases op with
  | commit id job due answer => exact h.commit job due answer
  | admitJob id answer => exact h.admitJob answer
  | cancel id terminate =>
    rcases h with ⟨st, hstate, rfl⟩ | ⟨driver, hactive⟩
    · have hcancellable : Cancellable st := by simpa [keeps, Slots.ofPending, Cancellable] using hkeeps
      exact (cancelJob_waiting hcancellable terminate).held
    · exact (hactive.cancelJob terminate).held
  | expire id answer => exact h.expire answer
  | call id c => exact h.call c

theorem held_after_commit (h : op.isCommit) : Held (op.after .empty) := by
  cases op with
  | commit id job due answer => exact held_commit_fresh job due answer
  | _ => simp [Op.isCommit] at h

theorem FinishedWith.after {condition : Option ConditionType} (h : FinishedWith condition sl)
    (hkeeps : keeps sl op) : FinishedWith condition (op.after sl) := by
  have hsame := h
  obtain ⟨st, rfl, hfinalized, hcancellable⟩ := h
  cases op with
  | commit id job due answer =>
    change FinishedWith condition (jobUpdatedHandler (.ofDone st) ⟨st, false⟩ (restarted job))
    by_cases hnew : job.state = .finalized
    · have hjob : restarted job = job := by simp [restarted, hnew]
      have heq : job.condition = st.condition := by
        simpa [keeps, Slots.ofDone, hnew] using hkeeps
      rw [hjob, jobUpdatedHandler_done_finalized hfinalized hnew]
      exact ⟨preserveLocal st job, rfl, hnew, heq.trans hcancellable⟩
    · rwa [jobUpdatedHandler_done hfinalized (mt restarted_finalized.1 hnew)]
  | admitJob id answer | cancel id terminate => exact hsame
  | expire id answer =>
    simpa [Op.after, expire, expireJob, Slots.ofDone, Slots.get, Status.finished, hfinalized]
  | call id c =>
    rw [Op.after, call_done hfinalized]
    exact hsame

section

variable [DecidableEq Id] {m : BatchManager Id}

open BatchManager

theorem held_step (h : Held (m.pools id)) (hkeeps : keeps (m.pools op.jobId) op) : Held ((m.step op).pools id) := by
  by_cases hjob : op.jobId = id
  · rw [pools_step_same hjob]
    rw [hjob] at hkeeps
    exact h.after hkeeps
  · rwa [pools_step_other hjob]

theorem held_run (h : along keeps m ops) (hm : m.pools id = .empty)
    (hops : ∃ op ∈ ops, op.jobId = id ∧ op.isCommit) : Held ((m.run ops).pools id) := by
  refine inv_run_of_commit (P := fun m => Held (m.pools id)) ?_ ?_ h hm hops
  · intro m op hjob hempty hcommit _
    rw [pools_step_same hjob, hempty]
    exact held_after_commit hcommit
  · intro m op hheld hkeeps
    exact held_step hheld hkeeps

theorem finishedWith_run {condition : Option ConditionType} (h : along keeps m ops)
    (hm : FinishedWith condition (m.pools id)) : FinishedWith condition ((m.run ops).pools id) := by
  refine inv_run (P := fun m => FinishedWith condition (m.pools id)) ?_ h hm
  intro m op hfinalized hkeeps
  by_cases hjob : op.jobId = id
  · rw [pools_step_same hjob]
    rw [hjob] at hkeeps
    exact hfinalized.after hkeeps
  · rwa [pools_step_other hjob]

theorem committed_job_never_lost (before after : List (Op Id)) (hkeeps : along keeps start (before ++ after))
    (hcommitted : ∃ op ∈ before, op.jobId = id ∧ op.isCommit) :
    ∃ pool e, ((start.run before).pools id).HeldIn pool e ∧ (pool = .done ↔ e.status.state = .finalized) ∧
      (e.status.state = .finalized → ∃ later, ((start.run (before ++ after)).pools id).HeldIn .done later ∧
          later.status.state = e.status.state ∧ later.status.condition = e.status.condition) := by
  obtain ⟨hbefore, hafter⟩ := along_append hkeeps
  have hheld := held_run hbefore rfl hcommitted
  obtain ⟨pool, e, hheldIn, hdone, hfinished⟩ := hheld.heldIn
  refine ⟨pool, e, hheldIn, hdone, ?_⟩
  intro hfinal
  obtain ⟨st, hlater, hstate, hcondition⟩ := finishedWith_run hafter (hfinished hfinal)
  refine ⟨⟨st, false⟩, ?_, hstate.trans hfinal.symm, hcondition⟩
  rw [run_append, hlater]
  exact heldIn_ofDone st

def recovered (state : State) (conditions : List ConditionType) : Status :=
  ⟨state, conditions, true, true, false⟩

def quiet : ExpireAnswer := ⟨⟨[], .accepted⟩, []⟩

/-- A recovered job that is in progress is admitted, cancelled and finished by its driver. -/
def cancelledRun : List (Op Nat) :=
  [.commit 0 (recovered .inProgress []) false quiet, .admitJob 0 ⟨true, [], false⟩,
   .cancel 0 ⟨[.updateJobStatus (recovered .cancelling [.cancelled])], .accepted⟩,
   .call 0 .markJobFinalizing, .call 0 (.markJobDone (recovered .finalizing [.cancelled]))]

theorem committed_job_never_lost_cancelled : ∃ pool e, ((start.run cancelledRun).pools 0).HeldIn pool e ∧
      (pool = .done ↔ e.status.state = .finalized) ∧ (e.status.state = .finalized →
        ∃ later, ((start.run (cancelledRun ++ [.cancel 0 ⟨[], .accepted⟩])).pools 0).HeldIn .done later ∧
          later.status.state = e.status.state ∧ later.status.condition = e.status.condition) :=
  committed_job_never_lost cancelledRun [.cancel 0 ⟨[], .accepted⟩] (by decide) (by decide)

theorem cancel_loses_finalizing_job :
    (cancelJob (.ofPending (recovered .finalizing [.completed])) ⟨[], .accepted⟩).1 = .rejected ∧
      (start.run [.commit 0 (recovered .finalizing [.completed]) false quiet,
        .cancel 0 ⟨[], .accepted⟩]).pools 0 = .empty ∧
      ((start.run [.commit 0 (recovered .finalized [.completed]) false quiet,
        .commit 0 (recovered .finalized [.failed]) false quiet]).pools 0).done =
          some (recovered .finalized [.failed]) := by
  decide

end

/-! ## A job that waits is in the scheduler's queue, and one in progress has a driver -/

open Slots Option

variable {st : Status}

/-! ## Calls that finish a job without a driver -/

theorem valid_finalized {s : State} (h : s ≠ .scheduling) : validTransition s .finalized := by
  cases s <;> simp_all [validTransition, validNextStates]

theorem jobUpdatedHandler_finalized {e : Entry} {new : Status} (h : Live e.status.state)
    (hscheduled : e.status.state ≠ .scheduling) (hnew : new.state = .finalized) :
    jobUpdatedHandler (.ofInProgress e) e new = .ofDone (preserveLocal e.status new) := by
  have heq := jobUpdatedHandler_eq (normalize_inProgress h) (e := e) (by rw [categorize_live h]; rfl) new
  rw [heq, applyUpdate, categorize_live h, categorize_finalized hnew, hnew, valid_finalized hscheduled]
  rfl

theorem cancelJob_created (driver : Bool) (h : st.state = .created)
    (huncancelled : st.checkCondition .cancelled = false) (terminate : TerminateAnswer) :
    Active driver (cancelJob (.ofPending st) terminate).2 := by
  have hcancellable : Cancellable st := ⟨by simp [h], by simp [h], huncancelled⟩
  have hnew : (buildCancelledJobUpdate ⟨st, false⟩).state = .finalized := by
    simp [buildCancelledJobUpdate, h]
  rw [cancelJob_waiting_eq hcancellable, jobUpdatedHandler_finalized (live_markedCancelling _)
    (by simp [markedCancelling]) hnew]
  exact active_ofDone hnew

theorem call_markJobFailed_finalized {e : Entry} (driver : Bool) (h : Live e.status.state)
    (hscheduled : e.status.state ≠ .scheduling) (hfiles : e.status.state ≠ .inProgress ∨ e.status.tempFiles = false) :
    Active driver (call (.ofInProgress e) .markJobFailed) := by
  have hcancellable : e.status.state ≠ .inProgress ∨ (!e.status.tempFiles) = true := by simpa using hfiles
  simp only [call, markJobFailed, getJob, ofInProgress, map_some,
    none_or, some_or, Status.finished, h.2, decide_false, Bool.false_eq_true,
    if_false, if_pos hcancellable, getD_some]
  change Active driver (jobUpdatedHandler (.ofInProgress e) e _)
  rw [jobUpdatedHandler_finalized h hscheduled rfl]
  exact active_ofDone rfl

/-- `mark_job_failed` finalizes the job when it is admitted, so that it needs no driver. -/
def failsForGood (st : Status) : Bool :=
  needsValidation st || ((st.state ≠ .inProgress ∨ st.tempFiles = false) ∧ st.state ≠ .scheduling)

theorem admit_failed (driver : Bool) {answer : AdmitAnswer} (h : st.state ≠ .finalized)
    (hcreated : answer.created = false) (hfails : failsForGood st) :
    Active driver (admitJob (.ofPending st) answer) := by
  have hfailed : admitJob (.ofPending st) answer = call (.ofInProgress ⟨admitted st, false⟩) .markJobFailed := by
    simp only [admitJob, hcreated]
    rfl
  rw [hfailed]
  apply call_markJobFailed_finalized driver (live_admitted h)
  · unfold admitted
    split
    · simp
    · simp_all [failsForGood]
  · unfold admitted
    split
    · simp
    · simp_all [failsForGood]

/-! ## One call -/

def Attended (queue : List Id) (id : Id) (sl : Slots) : Prop :=
  (∃ st : Status, st.state ≠ .finalized ∧ st.state ≠ .validating ∧ sl = .ofPending st ∧ id ∈ queue) ∨ Active true sl

/-- The states that a stopped job can be finished from. -/
def Stoppable (s : State) : Prop := s = .inProgress ∨ s = .cancelling ∨ s = .finalizing

theorem Stoppable.live {s : State} (h : Stoppable s) : Live s := by
  rcases h with rfl | rfl | rfl <;> simp [Live]

/-- An update leaves a stoppable job stoppable, or finalizes it. -/
theorem update_stoppable {e : Entry} (h : Stoppable e.status.state) (new : Status) :
    (∃ e' : Entry, Stoppable e'.status.state ∧ jobUpdatedHandler (.ofInProgress e) e new = .ofInProgress e') ∨
      ∃ st : Status, st.state = .finalized ∧ jobUpdatedHandler (.ofInProgress e) e new = .ofDone st := by
  rw [jobUpdatedHandler_inProgress_eq h.live, applyUpdate]
  split
  · exact .inl ⟨e, h, rfl⟩
  rename_i hvalid
  have hnext : Stoppable new.state ∨ new.state = .finalized := by
    rcases hnew : new.state <;> rcases h with hold | hold | hold <;>
      simp_all [validTransition, validNextStates, Stoppable]
  rcases hnext with hstop | hfinal
  · rw [categorize_live hstop.live]
    exact .inl ⟨⟨preserveLocal e.status new, e.driver⟩, hstop, rfl⟩
  · rw [categorize_finalized hfinal]
    exact .inr ⟨preserveLocal e.status new, hfinal, rfl⟩

theorem markJobFinalizing_stoppable {e : Entry} (h : Stoppable e.status.state) :
    ∃ e' : Entry, e'.status.state = .finalizing ∧ call (.ofInProgress e) .markJobFinalizing = .ofInProgress e' := by
  simp only [call, markJobFinalizing, ofInProgress]
  split
  · rename_i hfinalizing
    exact ⟨e, hfinalizing, rfl⟩
  have hstate : (Status.completedByDefault { e.status with state := .finalizing }).state = .finalizing := by
    unfold Status.completedByDefault
    split <;> rfl
  have hvalid : validTransition e.status.state .finalizing = true := by
    rcases h with h | h | h <;> rw [h] <;> rfl
  refine ⟨⟨preserveLocal e.status (Status.completedByDefault { e.status with state := .finalizing }), e.driver⟩, hstate, ?_⟩
  change jobUpdatedHandler (.ofInProgress e) e _ = _
  rw [jobUpdatedHandler_inProgress_eq h.live, applyUpdate, hstate, hvalid,
    categorize_live (by simp [Live, hstate])]
  rfl

theorem markJobDone_finalizing {e : Entry} (h : e.status.state = .finalizing) (status : Status) :
    ∃ st : Status, st.state = .finalized ∧ call (.ofInProgress e) (.markJobDone status) = .ofDone st := by
  refine ⟨preserveLocal e.status { status.completedByDefault with state := .finalized }, rfl, ?_⟩
  simp only [call, markJobDone, ofInProgress, h, ne_eq, not_true, if_false, Option.getD_some]
  change jobUpdatedHandler (.ofInProgress e) e _ = _
  rw [jobUpdatedHandler_inProgress_eq (by simp [Live, h]), applyUpdate, h]
  rfl

theorem runCalls_finishes {e : Entry} (h : Stoppable e.status.state) {cleanup : List Call} (hcleanup : finishes cleanup) :
    ∃ st : Status, st.state = .finalized ∧ runCalls (.ofInProgress e) cleanup = .ofDone st := by
  have hfinish {e : Entry} (h : Stoppable e.status.state) (status : Status) : ∃ st : Status, st.state = .finalized ∧
      runCalls (.ofInProgress e) [.markJobFinalizing, .markJobDone status] = .ofDone st := by
    obtain ⟨e', hstate, hcall⟩ := markJobFinalizing_stoppable h
    obtain ⟨st, hfinal, hdone⟩ := markJobDone_finalizing hstate status
    exact ⟨st, hfinal, by simp [runCalls, hcall, hdone]⟩
  unfold finishes at hcleanup
  split at hcleanup
  · exact hfinish h _
  · rename_i cleared status
    have hclear : call (.ofInProgress e) (.updateJobStatus cleared) = jobUpdatedHandler (.ofInProgress e) e cleared := rfl
    change ∃ st : Status, _ ∧ runCalls (call (.ofInProgress e) (.updateJobStatus cleared)) _ = _
    rw [hclear]
    rcases update_stoppable h cleared with ⟨e', hstop, heq⟩ | ⟨st, hfinal, heq⟩
    · rw [heq]
      exact hfinish hstop status
    · rw [heq]
      exact ⟨st, hfinal, by simp [runCalls, call_done hfinal]⟩
  · contradiction

/-- An expiry of a recovered job ends it: its driver is rebuilt, and the cleanup finishes. -/
def cleanedUp (st : Status) (answer : ExpireAnswer) : Bool :=
  (st.state = .inProgress ∧ st.checkCondition .expired = false ∨ st.state = .cancelling ∧ st.execution) ∧
    finishes answer.cleanup

theorem expire_cleanedUp (driver : Bool) {answer : ExpireAnswer} (h : cleanedUp st answer) :
    Active driver (expire (.ofPending st) answer) := by
  obtain ⟨hstate, hfinishes⟩ := of_decide_eq_true h
  have hstop : Stoppable st.state := hstate.imp (·.1) fun h => .inl h.1
  have hupdate : expiredUpdate st = buildExpiredJobUpdate st := by
    unfold expiredUpdate
    rw [if_neg]
    rcases hstate with ⟨hprogress, -⟩ | ⟨hprogress, -⟩ <;> simp [hprogress]
  have hexpired : (buildExpiredJobUpdate st).state = st.state ∧ (buildExpiredJobUpdate st).execution = st.execution := by
    unfold buildExpiredJobUpdate
    split <;> exact ⟨rfl, rfl⟩
  -- The condition is stored, and the cleanup starts from there.
  have hstored : jobUpdatedHandler (.ofInProgress ⟨st, false⟩) ⟨st, false⟩ (expiredUpdate st) =
      .ofInProgress ⟨preserveLocal st (buildExpiredJobUpdate st), false⟩ := by
    rw [hupdate, jobUpdatedHandler_inProgress_eq hstop.live, applyUpdate, hexpired.1,
      categorize_live (by rw [hexpired.1]; exact hstop.live)]
    simp [validTransition]
    rfl
  have hstop' : Stoppable (preserveLocal st (buildExpiredJobUpdate st)).state := by
    change Stoppable (buildExpiredJobUpdate st).state
    rwa [hexpired.1]
  obtain ⟨done, hfinal, hdone⟩ := runCalls_finishes (e := ⟨_, false⟩) hstop' hfinishes
  refine .inr ⟨done, hfinal, ?_⟩
  change Option.getD (Option.map _ (ite _ _ _)) _ = _
  rw [if_neg (by rcases hstate with ⟨hprogress, hnot⟩ | ⟨hprogress, -⟩ <;> simp [*]),
    if_neg (by rcases hstate with ⟨hprogress, -⟩ | ⟨hprogress, -⟩ <;> simp [hprogress]), normalize_recovered hstop.live]
  change (expireActive (.ofInProgress ⟨st, false⟩) ⟨st, false⟩ answer).2 = _
  unfold expireActive
  simp only [hstored, Bool.false_eq_true, if_false]
  rw [hupdate, hexpired.2]
  split
  · exact hdone
  · rename_i hexecution
    unfold finishRecoveredExpiredJob
    have hprogress : st.state = .inProgress := (hstate.resolve_right fun h => hexecution h.2).1
    have hnot : ¬ ((preserveLocal st (buildExpiredJobUpdate st)).state ≠ .inProgress ∨
        (preserveLocal st (buildExpiredJobUpdate st)).execution ∨ (false : Bool)) := by
      change ¬ ((buildExpiredJobUpdate st).state ≠ .inProgress ∨ (buildExpiredJobUpdate st).execution ∨ (false : Bool))
      rw [hexpired.1, hexpired.2, hprogress]
      simpa using hexecution
    exact (if_neg hnot).trans hdone

/-- The calls after which somebody finishes the job. -/
def handsOver (sl : Slots) : Op Id → Bool
  | .commit _ job due answer =>
    sl = .empty ∧ (job.condition = some .expired ∨ due = true →
      job.state = .created ∨ job.state = .validating ∨ job.state = .finalized ∨ cleanedUp job answer)
  | .admitJob _ answer => answer.created || sl.pending.all failsForGood
  | .cancel _ _ =>
    sl.pending.all fun st => st.state = .created ∧ st.checkCondition .cancelled = false
  | .expire _ answer =>
    sl.pending.all fun st =>
      st.state = .created ∨ st.state = .finalizing ∨ (st.state = .inProgress ∧ st.checkCondition .expired = true) ∨
        cleanedUp st answer
  | .call _ _ => true

theorem expire_waiting_same (answer : ExpireAnswer)
    (h : st.state = .finalizing ∨ (st.state = .inProgress ∧ st.checkCondition .expired = true)) :
    expire (.ofPending st) answer = .ofPending st := by
  change Option.getD (Option.map _ (ite _ _ _)) _ = _
  split
  · rfl
  · rename_i hexecution
    rw [if_pos (h.resolve_right hexecution)]
    rfl

theorem condition_restarted (job : Status) : (restarted job).condition = job.condition := by
  unfold restarted
  split <;> rfl

theorem restarted_of_cleanedUp {job : Status} {answer : ExpireAnswer} (h : cleanedUp job answer) : restarted job = job := by
  unfold restarted
  rw [if_neg]
  rcases (of_decide_eq_true h).1 with ⟨hstate, -⟩ | ⟨hstate, -⟩ <;> simp [hstate]

theorem attended_commit {job : Status} {due : Bool} {answer : ExpireAnswer}
    (h : handsOver .empty (.commit id job due answer)) :
    let r := jobCommittedHandler .empty job due answer
    (r.2 = true ∧ ∃ st : Status, st.state ≠ .finalized ∧ st.state ≠ .validating ∧ r.1 = .ofPending st) ∨
      Active true r.1 := by
  by_cases hfinal : job.state = .finalized
  · rw [commit_fresh_finalized hfinal]
    exact .inr (active_ofDone (restarted_finalized.2 hfinal))
  simp only [handsOver, decide_eq_true_eq, true_and] at h
  rw [commit_fresh_waiting hfinal, condition_restarted]
  by_cases hexpired : job.condition = some .expired ∨ due = true
  · rw [if_pos hexpired]
    right
    rcases h hexpired with hcreated | hvalidating | hfinal' | hcleaned
    · exact expire_created true (by simp [restarted, hcreated]) answer
    · exact expire_created true (by simp [restarted, hvalidating]) answer
    · exact absurd hfinal' hfinal
    · rw [restarted_of_cleanedUp hcleaned]
      exact expire_cleanedUp true hcleaned
  · rw [if_neg hexpired]
    exact .inl ⟨rfl, _, mt restarted_finalized.1 hfinal, restarted_ne_validating job, rfl⟩

theorem Active.admitJob {driver : Bool} (h : Active driver sl) (answer : AdmitAnswer) :
    Active driver (admitJob sl answer) := by
  have hsame := h
  rcases h with ⟨st, _, rfl⟩ | ⟨st, _, rfl⟩
  · exact hsame
  · exact hsame

theorem Active.after {driver : Bool} (h : Active driver sl) (hcommit : op.isCommit = false) :
    Active driver (op.after sl) := by
  cases op with
  | commit id job due answer => simp [Op.isCommit] at hcommit
  | admitJob id answer => exact h.admitJob answer
  | cancel id terminate => exact h.cancelJob terminate
  | expire id answer => exact h.expire answer
  | call id c => exact h.call c

theorem not_commit_of_active {driver : Bool} (h : Active driver sl) (hhands : handsOver sl op) :
    op.isCommit = false := by
  cases op with
  | commit id job due answer =>
    rcases h with ⟨st, _, rfl⟩ | ⟨st, _, rfl⟩ <;>
      simp [handsOver, ofInProgress, ofDone, empty] at hhands
  | _ => rfl

theorem after_waiting (hfinalized : st.state ≠ .finalized) (hvalidating : st.state ≠ .validating)
    (h : handsOver (.ofPending st) op) :
    (op.after (.ofPending st) = .ofPending st ∧ ∀ answer, op ≠ .admitJob op.jobId answer) ∨
      Active true (op.after (.ofPending st)) := by
  cases op with
  | commit id job due answer => simp [handsOver, ofPending, empty] at h
  | admitJob id answer =>
    right
    have had := admit_waiting hfinalized answer
    by_cases hmade : answer.created = true
    · rwa [hmade] at had
    · exact admit_failed true hfinalized (by simpa using hmade) (by simpa [handsOver, ofPending, hmade] using h)
  | cancel id terminate =>
    right
    simp only [handsOver, ofPending, all_some, decide_eq_true_eq] at h
    exact cancelJob_created true h.1 h.2 terminate
  | expire id answer =>
    rcases of_decide_eq_true h with hcreated | hfinalizing | hexpired | hcleaned
    · exact .inr (expire_created true hcreated answer)
    · exact .inl ⟨expire_waiting_same answer (.inl hfinalizing), by simp⟩
    · exact .inl ⟨expire_waiting_same answer (.inr hexpired), by simp⟩
    · exact .inr (expire_cleanedUp true hcleaned)
  | call id c => exact .inl ⟨call_waiting_same hfinalized hvalidating c, by simp⟩

/-! ## Sequences of calls -/

section

variable [DecidableEq Id] {m : BatchManager Id}

open BatchManager Option

theorem queue_step (h : id ∈ m.queue) (hother : ∀ answer, op ≠ .admitJob id answer) : id ∈ (m.step op).queue := by
  cases op with
  | commit j job due answer =>
    simp only [step]
    split
    · exact List.mem_append_left _ h
    · exact h
  | admitJob j answer =>
    have hne : id ≠ j := by
      rintro rfl
      exact hother answer rfl
    exact (List.mem_erase_of_ne hne).2 h
  | cancel j terminate | expire j answer | call j c => exact h

theorem attended_first (hjob : op.jobId = id) (hempty : m.pools id = .empty)
    (hcommit : op.isCommit) (h : handsOver (m.pools op.jobId) op) :
    Attended (m.step op).queue id ((m.step op).pools id) := by
  rw [hjob, hempty] at h
  rw [pools_step_same hjob, hempty]
  cases op with
  | commit j job due answer =>
    subst hjob
    rcases attended_commit h with ⟨hqueue, st, hfinalized, hvalidating, hstate⟩ | hactive
    · refine .inl ⟨st, hfinalized, hvalidating, hstate, ?_⟩
      simp only [Op.jobId] at hempty
      simp [step, Op.jobId, hempty, hqueue]
    · exact .inr hactive
  | _ => simp [Op.isCommit] at hcommit

theorem attended_step (hm : Attended m.queue id (m.pools id)) (h : handsOver (m.pools op.jobId) op) :
    Attended (m.step op).queue id ((m.step op).pools id) := by
  by_cases hjob : op.jobId = id
  · rw [pools_step_same hjob]
    rw [hjob] at h
    rcases hm with ⟨st, hfinalized, hvalidating, hstate, hqueued⟩ | hactive
    · rw [hstate] at h ⊢
      rcases after_waiting hfinalized hvalidating h with ⟨hsame, hcommit⟩ | hactive
      · rw [hjob] at hcommit
        exact .inl ⟨st, hfinalized, hvalidating, hsame, queue_step hqueued hcommit⟩
      · exact .inr hactive
    · have hcommit : op.isCommit = false := not_commit_of_active hactive h
      exact .inr (hactive.after hcommit)
  · rw [pools_step_other hjob]
    rcases hm with ⟨st, hfinalized, hvalidating, hstate, hqueued⟩ | hactive
    · refine .inl ⟨st, hfinalized, hvalidating, hstate, queue_step hqueued ?_⟩
      rintro answer rfl
      exact hjob rfl
    · exact .inr hactive

theorem attended_run {ops : List (Op Id)} (h : along handsOver m ops) (hm : m.pools id = .empty)
    (hops : ∃ op ∈ ops, op.jobId = id ∧ op.isCommit) : Attended (m.run ops).queue id ((m.run ops).pools id) :=
  inv_run_of_commit (P := fun m => Attended m.queue id (m.pools id))
    (fun _ _ hjob hempty hcommit hallowed => attended_first hjob hempty hcommit hallowed)
    (fun _ _ hm hallowed => attended_step hm hallowed) h hm hops

/-- After any sequence of calls, a committed job that is not finalized waits in the scheduler's
queue or is in progress with a driver. -/
theorem unfinished_job_attended (ops : List (Op Id)) (h : along handsOver start ops)
    (hcommitted : ∃ op ∈ ops, op.jobId = id ∧ op.isCommit) : ∃ pool e, ((start.run ops).pools id).HeldIn pool e ∧
      (e.status.state ≠ .finalized → (pool = .pending ∧ id ∈ (start.run ops).queue) ∨
          (pool = .inProgress ∧ e.driver = true)) := by
  rcases attended_run h rfl hcommitted with
    ⟨st, _, _, hstate, hqueue⟩ | ⟨st, _, hstate⟩ | ⟨st, hfinal, hstate⟩
  · rw [hstate]
    exact ⟨.pending, _, (by rintro (_ | _ | _) <;> rfl), fun _ => .inl ⟨rfl, hqueue⟩⟩
  · rw [hstate]
    exact ⟨.inProgress, _, (by rintro (_ | _ | _) <;> rfl), fun _ => .inr ⟨rfl, rfl⟩⟩
  · rw [hstate]
    exact ⟨.done, _, heldIn_ofDone st, fun hne => absurd hfinal hne⟩

/-- A recovered job is admitted and then cancelled; a new one is still in the queue. -/
def admittedRun : List (Op Nat) :=
  [.commit 0 (recovered .inProgress []) false quiet,
   .commit 1 ⟨.created, [], false, false, false⟩ false quiet, .admitJob 0 ⟨true, [], false⟩,
   .cancel 0 ⟨[.updateJobStatus (recovered .cancelling [.cancelled])], .accepted⟩]

theorem unfinished_job_attended_admitted : ∃ pool e, ((start.run admittedRun).pools 0).HeldIn pool e ∧
      (e.status.state ≠ .finalized → (pool = .pending ∧ 0 ∈ (start.run admittedRun).queue) ∨
          (pool = .inProgress ∧ e.driver = true)) :=
  unfinished_job_attended admittedRun (by decide) (by decide)

/-- A recovered job is cancelled before it is admitted: it is left in progress without a driver,
and neither admitting nor expiring it changes that. -/
theorem cancel_abandons_recovered_job : (start.run [.commit 0 (recovered .inProgress []) false quiet,
        .cancel 0 ⟨[], .accepted⟩]).pools 0 = .ofInProgress ⟨recovered .cancelling [.cancelled], false⟩ ∧
    (start.run [.commit 0 (recovered .inProgress []) false quiet, .cancel 0 ⟨[], .accepted⟩,
        .admitJob 0 ⟨true, [], false⟩, .expire 0 quiet]).pools 0 =
      .ofInProgress ⟨recovered .cancelling [.cancelled, .expired], false⟩ := by
  decide

end

end Aibrix.Batch.Pools
