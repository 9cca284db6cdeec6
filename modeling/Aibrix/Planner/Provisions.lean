import Aibrix.Planner.Job

/-! # Provisions of a job

A provision that is granted is the job's until it is released, and a job whose provision has been released ends. -/

namespace Aibrix.Planner

open Job JobStatus State

/-! ## Released provisions -/

/-- The statuses of a job whose batch is not to run any more. -/
def JobStatus.Ending (s : JobStatus) : Prop := s = .cancelling ∨ s = .finalizing ∨ s.isTerminal = true

instance : DecidablePred JobStatus.Ending := fun _ => inferInstanceAs (Decidable (_ ∨ _))

/-- A cleanup that is to release a provision finds the job on its way to an end. -/
def Job.Retired (j : Job) : Option Task → Prop
  | some (.handleCleanup source _) => j.status = source → j.provisionID = none ∨ j.status.Ending
  | _ => True

instance (j : Job) : DecidablePred j.Retired := fun t => by
  unfold Job.Retired
  split <;> infer_instance

/-- After a release the metadata service does not say that the batch runs. -/
def Settled (s : State) : Event → Prop
  | .work a => s.job.Retired s.task ∧ (s.job.released ≠ [] → ∀ b ∈ a.batch, b.toJobStatus.Ending)
  | e => e.Ordinary

instance (s : State) : DecidablePred (Settled s)
  | .work _ => @instDecidableAnd _ _ (instDecidablePredOptionTaskRetired s.job s.task) instDecidableForall
  | .plan => instDecidablePredEventOrdinary .plan
  | .cancel => instDecidablePredEventOrdinary .cancel
  | .submit l => instDecidablePredEventOrdinary (.submit l)
  | .refresh l => instDecidablePredEventOrdinary (.refresh l)
  | .enqueue => instDecidablePredEventOrdinary .enqueue
  | .restart => instDecidablePredEventOrdinary .restart

def Job.Over (j : Job) : Prop := j.released ≠ [] → j.status.Ending

def Job.Fresh (j : Job) : Prop := j.status = .queued ∨ j.status = .planned → j.provisionID = none

/-- A release is followed by the end of the job, and comes after every other task. -/
def Job.Fits (j : Job) : Option Task → Prop
  | some .provision => j.provisionID = none ∧ j.released = []
  | some .createBatch => j.released = []
  | some (.handleCleanup _ target) | some (.conclude target) => target.isTerminal = true ∧ j.Over
  | _ => j.Over

variable {j : Job} {s : State} {status : JobStatus}

theorem Job.Over.released (h : j.Over) (hst : j.status = status) (hne : ¬ status.Ending) : j.released = [] := by
  by_contra hr
  exact hne (hst ▸ h hr)

theorem Job.Over.of_terminal (h : j.status.isTerminal = true) : j.Over := fun _ => .inr (.inr h)

theorem Job.markFailed_ends (j : Job) (h : status.isTerminal = true) :
    (j.markFailed status).Fresh ∧ (j.markFailed status).Over := by
  refine ⟨fun _ => rfl, .of_terminal ?_⟩
  simp only [Job.markFailed]
  split_ifs
  · rfl
  · exact h

theorem BatchStatus.not_fresh (b : BatchStatus) : ¬ (b.toJobStatus = .queued ∨ b.toJobStatus = .planned) := by
  cases b <;> decide

/-- One section of a task, by the task. -/
theorem Job.Fits.run {t : Task} {a : Answers} (hf : j.Fresh) (h : j.Fits (some t))
    (hretired : j.Retired (some t)) (ha : j.released ≠ [] → ∀ b ∈ a.batch, b.toJobStatus.Ending) :
    (j.run a t).1.Fresh ∧ (j.run a t).1.Fits (j.run a t).2 := by
  cases t with
  | handleProvisioning =>
    simp only [Job.run]
    split_ifs with hq
    · have hov : j.Over := h
      refine ⟨fun _ => hf hq.1, hf hq.1, ?_⟩
      rcases hq.1 with hq | hq <;> exact hov.released hq (by decide)
    · exact ⟨hf, h⟩
  | provision =>
    simp only [Job.run]
    split
    · exact j.markFailed_ends rfl
    split_ifs with hp hc
    · exact ⟨fun hq => h.1, .of_terminal (hp.resolve_left (by simp [h.1]))⟩
    · exact ⟨fun hq => by simp [hc] at hq, rfl, fun hr => absurd h.2 hr⟩
    · exact ⟨by simp [Fresh], fun hr => absurd h.2 hr⟩
  | handleResourcePreparing =>
    simp only [Job.run]
    split_ifs
    · exact ⟨hf, h⟩
    · exact j.markFailed_ends rfl
    · exact ⟨hf, h⟩
  | list =>
    simp only [Job.run]
    split
    · exact ⟨hf, h⟩
    · exact ⟨hf, h⟩
    · exact j.markFailed_ends rfl
    · exact j.markFailed_ends rfl
    · exact ⟨hf, h⟩
  | submitToMDS =>
    simp only [Job.run]
    split_ifs with hr
    · exact ⟨hf, h⟩
    · exact j.markFailed_ends rfl
    · exact ⟨hf, Job.Over.released h (not_not.1 (not_or.1 hr).1) (by decide)⟩
    · exact ⟨hf, h⟩
  | createBatch =>
    have hov : j.Over := fun hr => absurd h hr
    simp only [Job.run]
    split
    · exact j.markFailed_ends (by split_ifs <;> rfl)
    split_ifs with ht hc
    · exact ⟨hf, hov⟩
    · exact ⟨hf, rfl, hov⟩
    · exact ⟨by simp [Fresh], fun hr => absurd h hr⟩
  | handleRunning =>
    simp only [Job.run]
    split_ifs
    · exact ⟨hf, h⟩
    · exact j.markFailed_ends rfl
    · exact ⟨hf, h⟩
  | getBatch =>
    simp only [Job.run]
    split
    · exact ⟨hf, h⟩
    rename_i b hb
    split_ifs with hc ht
    · exact ⟨hf, h⟩
    · exact ⟨hf, ht, h⟩
    · exact ⟨fun hq => absurd hq b.not_fresh, fun hr => ha hr b hb⟩
  | handleCleanup source target =>
    simp only [Job.run]
    split_ifs with hc
    · exact ⟨hf, h.2⟩
    · refine ⟨hf, h.1, fun hr => ?_⟩
      rcases hretired (not_not.1 (not_or.1 hc).2) with hnone | hend
      · exact h.2 (by simpa [hnone] using hr)
      · exact hend
  | conclude target =>
    simp only [Job.run]
    split_ifs with ht hc
    · exact ⟨hf, .of_terminal ht⟩
    · refine ⟨fun _ => rfl, fun hr => ?_⟩
      rcases hb : a.batch with _ | b
      · exact .inr (.inr h.1)
      · exact ha hr b hb
    · exact ⟨fun _ => rfl, .of_terminal h.1⟩

theorem Reachable.fits (h : Reachable Settled s) : s.job.Fresh ∧ s.job.Fits s.task := by
  induction h with
  | init => exact ⟨fun _ => rfl, fun hr => absurd rfl hr⟩
  | @step s e _ hok ih =>
    obtain ⟨hf, hft⟩ := ih
    cases e with
    | enqueue | restart | refresh => exact hok.elim
    | plan =>
      simp only [State.step, Job.plan]
      split_ifs
      · refine ⟨hf, ?_⟩
        cases ht : s.task with
        | none => exact (ht ▸ hft : s.job.Fits none)
        | some t =>
          rw [ht] at hft
          cases t <;> exact hft
      · exact ⟨hf, hft⟩
    | cancel =>
      simp only [State.step, Job.cancel]
      split_ifs
      · exact ⟨hf, hft⟩
      refine ⟨by simp [Job.Fresh], ?_⟩
      have hov : s.job.cancel.Over := fun _ => .inl rfl
      cases ht : s.task with
      | none => exact hov
      | some t =>
        rw [ht] at hft
        cases t with
        | provision | createBatch => exact hft
        | handleCleanup | conclude => exact ⟨hft.1, hov⟩
        | _ => exact hov
    | submit t =>
      simp only [State.step]
      split_ifs with ht
      · rw [ht.1] at hft
        refine ⟨hf, ?_⟩
        cases t with
        | handleCleanup source target => exact ⟨by rcases ht.2 with rfl | rfl <;> rfl, hft⟩
        | provision | createBatch | conclude => exact ht.2.elim
        | _ => exact hft
      · exact ⟨hf, hft⟩
    | work a =>
      simp only [State.step]
      split
      · exact ⟨hf, hft⟩
      · rename_i t ht
        rw [ht] at hft
        exact hft.run hf (ht ▸ hok.1) hok.2

/-- From a release on, the job is cancelling, finalizing or terminal. -/
theorem released_ending (h : Reachable Settled s) (hr : s.job.released ≠ []) : s.job.status.Ending := by
  have hft := h.fits.2
  cases ht : s.task with
  | none =>
    rw [ht] at hft
    exact hft hr
  | some t =>
    rw [ht] at hft
    cases t with
    | provision => exact absurd hft.2 hr
    | createBatch => exact absurd hft hr
    | handleCleanup | conclude => exact hft.2 hr
    | _ => exact hft hr

def toInProgress : List Event :=
  [.plan, .submit .handleProvisioning, .work {}, .work { provision := some "p" },
    .submit .handleResourcePreparing, .work {}, .work { list := .running },
    .submit .submitToMDS, .work {}, .work { createBatch := .ok "b" },
    .submit .handleRunning, .work {}, .work { batch := some .inProgress }]

/-- The job is cancelled, and the metadata service answers the cleanup with `batch`. -/
def cancelled (batch : BatchStatus) : List Event :=
  toInProgress ++ [.cancel, .submit (.handleCleanup .cancelling .cancelled), .work {}, .work { batch := some batch }]

theorem released_ending_cancelled : (State.runs {} (cancelled .cancelled)).job.released = ["p"] ∧
      (State.runs {} (cancelled .cancelled)).job.status.Ending :=
  ⟨by decide, released_ending (Reachable.init.runs (by decide)) (by decide)⟩

/-- The service may answer the cleanup that the batch is still in progress, and the job goes on without resources. -/
theorem released_in_progress : Reachable (fun _ e => e.Ordinary) (State.runs {} (cancelled .inProgress)) ∧
    State.runs {} (cancelled .inProgress) =
      ⟨⟨.inProgress, none, some "b", true, true, false, ["p"], ["p"]⟩, none, ⟨.inProgress, none, some "b"⟩⟩ :=
  ⟨Reachable.init.runs (by decide), by decide⟩

/-! ## Granted provisions -/

variable {t : Task}

/-- A provision that was granted and not released belongs to the job, which is not terminal. -/
def Job.Tracked (j : Job) : Prop :=
  ∀ p ∈ j.granted, p ∉ j.released → j.status.isTerminal = false ∧ j.provisionID = some p

/-- While a cleanup waits for the batch, the provision has been released. -/
def Job.Freed (j : Job) : Option Task → Prop
  | some (.conclude _) => ∀ p, j.provisionID = some p → p ∈ j.released
  | _ => True

theorem Job.Tracked.markFailed (h : j.Tracked) : (j.markFailed status).Tracked := by
  intro p hp hn
  simp only [Job.markFailed, List.mem_append, Option.mem_toList, not_or] at hn
  exact absurd (h p hp hn.2).2 hn.1

theorem Job.Tracked.run {a : Answers} (h : j.Tracked) (hf : j.Freed (some t)) :
    (j.run a t).1.Tracked ∧ (j.run a t).1.Freed (j.run a t).2 := by
  cases t with
  | handleProvisioning =>
    simp only [run]
    split_ifs
    · exact ⟨fun p hp hn => ⟨rfl, (h p hp hn).2⟩, trivial⟩
    · exact ⟨h, trivial⟩
  | provision =>
    simp only [run]
    split
    · exact ⟨h.markFailed, trivial⟩
    rename_i p _
    split_ifs with ht hc
    · refine ⟨fun q hq hn => ?_, trivial⟩
      simp only [List.mem_cons, not_or] at hq hn
      exact h q (hq.resolve_left hn.1) hn.2
    all_goals
      refine ⟨fun q hq hn => ?_, trivial⟩
      rcases List.mem_cons.1 hq with rfl | hq
      · simp_all [isTerminal]
      · simp [(h q hq hn).2] at ht
  | handleResourcePreparing =>
    simp only [run]
    split_ifs
    · exact ⟨h, trivial⟩
    · exact ⟨h.markFailed, trivial⟩
    · exact ⟨h, trivial⟩
  | list =>
    simp only [run]
    split
    · exact ⟨h, trivial⟩
    · exact ⟨h, trivial⟩
    · exact ⟨h.markFailed, trivial⟩
    · exact ⟨h.markFailed, trivial⟩
    · exact ⟨h, trivial⟩
  | submitToMDS =>
    simp only [run]
    split_ifs
    · exact ⟨h, trivial⟩
    · exact ⟨h.markFailed, trivial⟩
    · exact ⟨h, trivial⟩
    · exact ⟨h, trivial⟩
  | createBatch =>
    simp only [run]
    split
    · exact ⟨h.markFailed, trivial⟩
    split_ifs
    · exact ⟨h, trivial⟩
    · exact ⟨h, trivial⟩
    · exact ⟨fun p hp hn => ⟨rfl, (h p hp hn).2⟩, trivial⟩
  | handleRunning =>
    simp only [run]
    split_ifs
    · exact ⟨h, trivial⟩
    · exact ⟨h.markFailed, trivial⟩
    · exact ⟨h, trivial⟩
  | getBatch =>
    simp only [run]
    split
    · exact ⟨h, trivial⟩
    split_ifs with _ ht
    · exact ⟨h, trivial⟩
    · exact ⟨h, trivial⟩
    · exact ⟨fun p hp hn => ⟨Bool.not_eq_true _ ▸ ht, (h p hp hn).2⟩, trivial⟩
  | handleCleanup source target =>
    simp only [run]
    split_ifs
    · exact ⟨h, trivial⟩
    · refine ⟨fun p hp hn => h p hp fun hr => hn (List.mem_append_right _ hr), fun p hp => ?_⟩
      exact List.mem_append_left _ (Option.mem_toList.2 hp)
  | conclude target =>
    simp only [run]
    split_ifs
    · exact ⟨h, trivial⟩
    all_goals exact ⟨fun p hp hn => absurd (hf p (h p hp hn).2) hn, trivial⟩

/-- `ListJobs` stores no terminal status for a job that is not terminal in memory. -/
def Spared (s : State) : Event → Prop
  | .refresh b => b.toJobStatus.isTerminal = false ∨ s.job.status.isTerminal = true
  | _ => True

instance (s : State) : DecidablePred (Spared s)
  | .refresh _ => inferInstanceAs (Decidable (_ ∨ _))
  | .plan | .cancel | .submit _ | .work _ | .enqueue | .restart => .isTrue trivial

structure Recoverable (s : State) : Prop where
  tracked : s.job.Tracked
  freed : s.job.Freed s.task
  row : s.task = none → s.row.provisionID = s.job.provisionID ∧ s.row.status.isTerminal = s.job.status.isTerminal

theorem Reachable.recoverable (h : Reachable Spared s) : Recoverable s := by
  induction h with
  | init => exact ⟨by simp [Job.Tracked], trivial, fun _ => ⟨rfl, rfl⟩⟩
  | @step s e _ hok ih =>
    obtain ⟨ht, hf, hrow⟩ := ih
    cases e with
    | plan =>
      simp only [State.step, plan]
      split_ifs <;> exact ⟨ht, hf, hrow⟩
    | cancel =>
      simp only [State.step, cancel]
      split_ifs
      · exact ⟨ht, hf, hrow⟩
      refine ⟨fun p hp hn => ⟨rfl, (ht p hp hn).2⟩, ?_, fun _ => ⟨rfl, rfl⟩⟩
      cases htk : s.task with
      | none => trivial
      | some t =>
        rw [htk] at hf
        cases t <;> exact hf
    | submit t =>
      simp only [State.step]
      split_ifs with hs
      · refine ⟨ht, ?_, by simp⟩
        cases t with
        | conclude => exact hs.2.elim
        | _ => trivial
      · exact ⟨ht, hf, hrow⟩
    | work a =>
      simp only [State.step]
      split
      · exact ⟨ht, hf, hrow⟩
      rename_i t htk
      obtain ⟨h1, h2⟩ := ht.run (a := a) (htk ▸ hf)
      refine ⟨h1, h2, fun hn => ?_⟩
      rw [show (s.job.run a t).2 = none from hn]
      exact ⟨rfl, rfl⟩
    | enqueue =>
      simp only [State.step]
      split_ifs with he
      · refine ⟨fun p hp hn => ?_, trivial, fun _ => ⟨rfl, rfl⟩⟩
        simp [(ht p hp hn).1] at he
      · exact ⟨ht, hf, hrow⟩
    | restart =>
      simp only [State.step]
      split_ifs with hn
      · obtain ⟨hp, hst⟩ := hrow hn
        refine ⟨fun p hpg hnr => ⟨?_, hp.trans (ht p hpg hnr).2⟩, trivial, fun _ => ⟨rfl, rfl⟩⟩
        have hnt := hst.trans (ht p hpg hnr).1
        simp only [Row.recover]
        split_ifs
        · rfl
        · exact hnt
      · exact ⟨ht, hf, hrow⟩
    | refresh b =>
      simp only [State.step]
      split_ifs with hb
      · exact ⟨ht, hf, hrow⟩
      · refine ⟨ht, hf, fun hn => ⟨(hrow hn).1, ?_⟩⟩
        have hnt := (hrow hn).2.symm.trans (Bool.not_eq_true _ ▸ (not_or.1 hb).2)
        exact (hok.resolve_right (by simp [hnt])).trans hnt.symm

/-- A provision that was granted and not released is that of the job in memory. -/
theorem granted_tracked (h : Reachable Spared s) {p : String} (hp : p ∈ s.job.granted) (hn : p ∉ s.job.released) :
    s.job.status.isTerminal = false ∧ s.job.provisionID = some p :=
  h.recoverable.tracked p hp hn

theorem granted_tracked_restarted :
    (State.runs {} (toInProgress ++ [.refresh .finalizing, .restart])).job.provisionID = some "p" :=
  (granted_tracked (s := State.runs {} (toInProgress ++ [.refresh .finalizing, .restart])) (p := "p")
    (Reachable.init.runs (by decide)) (by decide) (by decide)).2

/-- `ListJobs` stores that the batch is completed, and the restart drops the job with its provision. -/
theorem granted_forgotten :
    let s := State.runs {} (toInProgress ++ [.refresh .completed, .restart])
    Reachable (fun _ _ => True) s ∧ s.task = none ∧ s.job.granted = ["p"] ∧ s.job.released = [] ∧
      s.job.status.isTerminal = true :=
  ⟨Reachable.init.runs (by decide), by decide⟩

end Aibrix.Planner
