import Mathlib.Data.List.Nodup

/-! # The concurrent worker of a batch job

`_execute_worker_concurrent` of `job_driver/base.py` with `read_job_next_input_data` of the storage adapter. -/

namespace Aibrix.Batch

open List

/-! ## The keys of `storage/batch_metastore.py` and the value format of `storage/adapter.py` -/

/-- A stored text: either a JSON object whose `result` and `etag` are strings, or any other
text, which the reader splits at its first colon. -/
inductive MetaVal where
  | record (result etag : String) (customId : Option String)
  | text (val : String)
deriving DecidableEq, Repr

def statusRequestLocking : MetaVal := .text "processing"

def requestMetaOutputVal (isError : Bool) (etag : String) (customId : Option String) : MetaVal :=
  .record (if isError then "error" else "output") etag (customId.filter (· ≠ ""))

structure ParsedVal where
  etag : String
  isError : Bool
  customId : Option String
deriving DecidableEq, Repr

def parseRequestMetaOutputVal : MetaVal → ParsedVal
  | .record result etag customId => ⟨etag, result == "error", customId⟩
  | .text val =>
    -- `meta_val.split(":", 1)` has two fields exactly when there is a colon
    match val.toList.dropWhile (· ≠ ':') with
    | [] => ⟨"", false, none⟩
    | _ :: etag =>
      ⟨String.ofList etag, String.ofList (val.toList.takeWhile (· ≠ ':')) == "error", none⟩

/-! ## Keys -/

abbrev Metastore := Nat → Option MetaVal

namespace Metastore

variable (m : Metastore) (i : Nat)

def set (v : Option MetaVal) : Metastore :=
  fun j => if j = i then v else m j

@[simp] theorem set_same (v : Option MetaVal) : m.set i v i = v :=
  if_pos rfl

theorem set_other {i j : Nat} (v : Option MetaVal) (h : j ≠ i) : m.set i v j = m j := if_neg h

def isRequestDone : Bool :=
  match m i with
  | some v => v ≠ statusRequestLocking
  | none => false

def lockRequest : Bool × Metastore :=
  match m i with
  | none => (true, m.set i (some statusRequestLocking))
  | some _ => (false, m)

def unlockRequest (status : MetaVal) : Metastore :=
  m.set i (some status)

def expireLock : Metastore :=
  if m i = some statusRequestLocking then m.set i none else m

theorem isRequestDone_set_other {i j : Nat} (v : Option MetaVal) (h : j ≠ i) :
    (m.set i v).isRequestDone j = m.isRequestDone j := by
  simp [isRequestDone, set_other m v h]

theorem isRequestDone_lockRequest (i j : Nat) : (m.lockRequest i).2.isRequestDone j = m.isRequestDone j := by
  unfold lockRequest
  split
  · rename_i hfree
    by_cases h : j = i
    · subst h
      simp [isRequestDone, hfree]
    · apply isRequestDone_set_other m _ h
  · rfl

theorem not_done_of_locked {m : Metastore} {i : Nat} (h : (m.lockRequest i).1 = true) : m.isRequestDone i = false := by
  unfold lockRequest at h
  split at h
  · rename_i hfree
    simp [isRequestDone, hfree]
  · cases h

theorem isRequestDone_expireLock (i j : Nat) : (m.expireLock i).isRequestDone j = m.isRequestDone j := by
  unfold expireLock
  split
  · rename_i hlocked
    by_cases h : j = i
    · subst h
      simp [isRequestDone, hlocked]
    · apply isRequestDone_set_other m _ h
  · rfl

theorem isRequestDone_unlockRequest_self (isError : Bool) (etag : String) (customId : Option String) :
    (m.unlockRequest i (requestMetaOutputVal isError etag customId)).isRequestDone i = true := by
  simp [isRequestDone, unlockRequest, requestMetaOutputVal, statusRequestLocking]

def doneCount (n : Nat) : Nat := (range n).countP m.isRequestDone

theorem doneCount_congr {m m' : Metastore} (h : ∀ i, m'.isRequestDone i = m.isRequestDone i)
    (n : Nat) : m'.doneCount n = m.doneCount n := by
  have : m'.isRequestDone = m.isRequestDone := funext h
  simp [doneCount, this]

theorem doneCount_unlockRequest {m : Metastore} {n i : Nat} (isError : Bool) (etag : String)
    (customId : Option String) (hi : i < n) (hnot : m.isRequestDone i = false) :
    (m.unlockRequest i (requestMetaOutputVal isError etag customId)).doneCount n = m.doneCount n + 1 := by
  induction n with
  | zero => omega
  | succ n ih =>
    simp only [doneCount, range_succ, countP_append, countP_singleton] at ih ⊢
    rcases Nat.lt_succ_iff_lt_or_eq.1 hi with hlt | rfl
    · have hne : n ≠ i := by omega
      rw [ih hlt, unlockRequest, isRequestDone_set_other m _ hne]
      omega
    have hblocked : (range i).countP (m.unlockRequest i (requestMetaOutputVal isError etag customId)).isRequestDone =
        (range i).countP m.isRequestDone := by
      apply countP_congr
      intro j hj
      have hne : j ≠ i := Nat.ne_of_lt (mem_range.1 hj)
      rw [unlockRequest, isRequestDone_set_other m _ hne]
    rw [hblocked, isRequestDone_unlockRequest_self, hnot]
    rfl

theorem all_done_of_doneCount {m : Metastore} {n : Nat} (h : n ≤ m.doneCount n) :
    ∀ i < n, m.isRequestDone i = true := by
  intro i hi
  have hlen : (range n).countP m.isRequestDone = (range n).length := by
    apply Nat.le_antisymm countP_le_length
    simpa [doneCount] using h
  exact List.countP_eq_length.1 hlen i (mem_range.2 hi)

end Metastore

/-! ## The worker -/

structure RequestCounts where
  total : Nat
  launched : Nat
  completed : Nat
  failed : Nat
deriving DecidableEq, Repr

namespace RequestCounts

def zero : RequestCounts := ⟨0, 0, 0, 0⟩

variable (c : RequestCounts)

def finished : Nat := c.completed + c.failed

/-- `_accumulate_done_requests` on the results of one batch; `true` marks a failed one. -/
def accumulateDone (results : List (Nat × Bool)) : RequestCounts :=
  { c with
    completed := c.completed + results.countP (fun r => !r.2)
    failed := c.failed + results.countP (fun r => r.2) }

@[simp] theorem finished_zero : zero.finished = 0 := rfl

@[simp] theorem finished_accumulateDone (results : List (Nat × Bool)) :
    (c.accumulateDone results).finished = c.finished + results.length := by
  have hsplit := length_eq_countP_add_countP (fun r : Nat × Bool => r.2) (l := results)
  simp only [finished, accumulateDone]
  simp only [Bool.not_eq_true, Bool.decide_eq_false] at hsplit
  omega

end RequestCounts

def seenTotal (copies : List RequestCounts) : Nat :=
  copies.foldl (fun seen c => if seen < c.total then c.total else seen) 0

def sumOf (field : RequestCounts → Nat) (copies : List RequestCounts) : Nat :=
  copies.foldr (fun c acc => field c + acc) 0

def aggregateBatchJobStatus (status : RequestCounts) (copies : List RequestCounts) : RequestCounts :=
  if copies = [] then status
  else
    let seen := seenTotal copies
    let launched := sumOf (·.launched) copies
    let completed := sumOf (·.completed) copies
    let failed := sumOf (·.failed) copies
    let cap (bound x : Nat) := if 0 < seen then (if bound < x then bound else x) else x
    { total := if status.total = 0 then seen else status.total
      launched := cap seen launched
      completed := cap seen completed
      failed := cap (seen - cap seen completed) failed }

theorem finished_aggregate_le (status : RequestCounts) (copies : List RequestCounts) (hzero : status.finished = 0) :
    (aggregateBatchJobStatus status copies).finished ≤ sumOf (·.finished) copies := by
  have hsum : sumOf (·.finished) copies = sumOf (·.completed) copies + sumOf (·.failed) copies := by
    induction copies with
    | nil => rfl
    | cons c copies ih =>
      simp only [sumOf, RequestCounts.finished, foldr_cons] at ih ⊢
      omega
  unfold aggregateBatchJobStatus
  split
  · omega
  · rw [hsum]
    simp only [RequestCounts.finished]
    split_ifs <;> omega

theorem total_aggregate {status : RequestCounts} (copies : List RequestCounts) (hknown : 0 < status.total) :
    (aggregateBatchJobStatus status copies).total = status.total := by
  unfold aggregateBatchJobStatus
  split
  · rfl
  · exact if_neg (by omega)

/-! ## Where the next pass starts -/

def doneReconcileChunkSize : Nat := 256

def chunkStarts (total : Nat) : List Nat :=
  range' 0 ((total + doneReconcileChunkSize - 1) / doneReconcileChunkSize)
    doneReconcileChunkSize

def chunkIds (total start : Nat) : List Nat :=
  let stop :=
    if start + doneReconcileChunkSize < total then start + doneReconcileChunkSize else total
  range' start (stop - start)

theorem exists_chunk {total i : Nat} (hi : i < total) : ∃ start ∈ chunkStarts total, i ∈ chunkIds total start := by
  refine ⟨doneReconcileChunkSize * (i / doneReconcileChunkSize), ?_, ?_⟩
  · rw [chunkStarts, mem_range']
    refine ⟨i / doneReconcileChunkSize, ?_, by omega⟩
    unfold doneReconcileChunkSize
    omega
  · rw [chunkIds, mem_range'_1]
    unfold doneReconcileChunkSize
    split <;> omega

def firstNotDone (m : Metastore) (total : Nat) : Option Nat :=
  (chunkStarts total).findSome?
    (fun start => (chunkIds total start).find? (fun i => !m.isRequestDone i))

/-- `_get_next_pass_start`; `stop` is `_should_stop_before_proceed`: the job is being
cancelled, is cancelled, has expired or is finished. -/
def getNextPassStart (stop : Bool) (counts : RequestCounts) (m : Metastore) : Int :=
  if stop then -1
  else if counts.total ≤ 0 then 0
  else if counts.completed + counts.failed ≥ counts.total then -1
  else
    match firstNotDone m counts.total with
    | some i => i
    | none => -1

theorem done_of_firstNotDone_eq_none {m : Metastore} {total : Nat}
    (h : firstNotDone m total = none) : ∀ i < total, m.isRequestDone i = true := by
  intro i hi
  obtain ⟨start, hstart, hmem⟩ := exists_chunk hi
  have hchunk := findSome?_eq_none_iff.1 h start hstart
  simpa using find?_eq_none.1 hchunk i hmem

theorem getNextPassStart_neg {counts : RequestCounts} {m : Metastore} (h : getNextPassStart false counts m < 0) :
    counts.total ≤ counts.finished ∨ ∀ i < counts.total, m.isRequestDone i = true := by
  unfold getNextPassStart at h
  simp only [Bool.false_eq_true, if_false] at h
  split at h
  · omega
  split at h
  · left
    assumption
  right
  apply done_of_firstNotDone_eq_none
  split at h
  · omega
  · assumption

/-! ## State -/

structure Worker where
  requestCounts : RequestCounts
  launchedRequestIds : List Nat
  inFlight : List Nat
  completedRequestIds : List (Nat × Bool)
  pendingInRound : Nat
  idx : Nat
deriving DecidableEq, Repr

namespace Worker

def starting (startIndex : Nat) : Worker := ⟨.zero, [], [], [], 0, startIndex⟩

variable (w : Worker)

def accumulateDispatched (i : Nat) : Worker :=
  if i ∈ w.launchedRequestIds then w
  else
    { w with
      launchedRequestIds := w.launchedRequestIds ++ [i]
      requestCounts :=
        { w.requestCounts with
          launched := w.requestCounts.launched + 1
          total := if i ≥ w.requestCounts.total then i + 1 else w.requestCounts.total } }

def dispatch (i : Nat) : Worker :=
  { w.accumulateDispatched i with
    inFlight := w.inFlight ++ [i]
    pendingInRound := w.pendingInRound + 1 }

@[simp] theorem dispatch_finished (i : Nat) : (w.dispatch i).requestCounts.finished = w.requestCounts.finished := by
  unfold dispatch accumulateDispatched
  split <;> rfl

@[simp] theorem dispatch_completedRequestIds (i : Nat) :
    (w.dispatch i).completedRequestIds = w.completedRequestIds := by
  unfold dispatch accumulateDispatched
  split <;> rfl

end Worker

inductive Phase where
  /-- No worker process is running. -/
  | down
  | running (w : Worker)
  /-- The worker left because the start of the next pass was negative. -/
  | stopped
  | interrupted
deriving DecidableEq, Repr

structure JobState where
  metastore : Metastore
  copies : List RequestCounts
  own : Option RequestCounts
  phase : Phase

namespace JobState

def fresh : JobState := ⟨fun _ => none, [], none, .down⟩

def statusCopies (s : JobState) : List RequestCounts := s.copies ++ s.own.toList

def counts (s : JobState) (total : Nat) : RequestCounts :=
  aggregateBatchJobStatus ⟨total, 0, 0, 0⟩ s.statusCopies

end JobState

/-! ## Steps -/

inductive Write where
  | stored (isError : Bool) (etag : String) (customId : Option String)
  | deferred (left : Option (Bool × String × Option String))
deriving DecidableEq, Repr

inductive Op where
  /-- The feed takes the next line; `lockError`: the lock call raises. -/
  | read (lockError : Bool)
  | onResult (i : Nat) (failed : Bool) (write : Write)
  /-- The next `size` finished requests are counted and the status copy is written. -/
  | syncBatch (size : Nat)
  /-- The drained pass ends. -/
  | nextPass (stop : Bool)
  | expireLock (i : Nat)
  | crash
  /-- A new worker process takes the job. -/
  | restart (stop : Bool)
deriving DecidableEq, Repr

/-- Whether the reader yields request `i`. A lock call that raises counts as a lock. -/
def tryLock (lockingSupported lockError : Bool) (m : Metastore) (i : Nat) : Bool × Metastore :=
  if !lockingSupported then (true, m)
  else if lockError then (true, m)
  else m.lockRequest i

/-- `write_job_output_data` as seen by the metastore. -/
def Write.apply (m : Metastore) (i : Nat) : Write → Metastore
  | .stored isError etag customId =>
    m.unlockRequest i (requestMetaOutputVal isError etag customId)
  | .deferred none => m
  | .deferred (some (isError, etag, customId)) =>
    m.unlockRequest i (requestMetaOutputVal isError etag customId)

def Worker.afterWrite (w : Worker) (i : Nat) (failed : Bool) : Write → Worker
  | .stored .. =>
    { w with
      inFlight := w.inFlight.erase i
      completedRequestIds := w.completedRequestIds ++ [(i, failed)] }
  | .deferred _ =>
    { w with
      inFlight := w.inFlight.erase i
      pendingInRound := w.pendingInRound - 1 }

def Worker.syncBatch (w : Worker) (size : Nat) : Worker :=
  let batch := w.completedRequestIds.take size
  { w with
    requestCounts := w.requestCounts.accumulateDone batch
    completedRequestIds := w.completedRequestIds.drop size
    pendingInRound := w.pendingInRound - batch.length }

namespace JobState

/-- Entering a pass: `next` keeps what the worker holds and moves it to the start index. -/
def enterPass (s : JobState) (stop : Bool) (total : Nat) (next : Nat → Worker) : JobState :=
  if stop then { s with phase := .interrupted }
  else
    let start := getNextPassStart false (s.counts total) s.metastore
    if start < 0 then { s with phase := .stopped }
    else { s with phase := .running (next start.toNat) }

section

variable (lockingSupported : Bool) (total : Nat) (s : JobState)

def read (w : Worker) (lockError : Bool) : JobState :=
  if w.idx < total then
    let locked := tryLock lockingSupported lockError s.metastore w.idx
    let w' := if locked.1 then w.dispatch w.idx else w
    { s with metastore := locked.2, phase := .running { w' with idx := w.idx + 1 } }
  else s

def onResult (w : Worker) (i : Nat) (failed : Bool) (write : Write) : JobState :=
  if i ∈ w.inFlight then
    { s with
      metastore := write.apply s.metastore i
      phase := .running (w.afterWrite i failed write) }
  else s

def syncBatch (w : Worker) (size : Nat) : JobState :=
  let w' := w.syncBatch size
  { s with own := some w'.requestCounts, phase := .running w' }

/-- `round_drained` is set and the reader has reached the end of the input. -/
def nextPass (w : Worker) (stop : Bool) : JobState :=
  if total ≤ w.idx ∧ w.pendingInRound = 0 then
    s.enterPass stop total (fun start => { w with idx := start })
  else s

/-- The new process has its own worker id, so the copies written so far stay. -/
def restart (stop : Bool) : JobState :=
  { s with copies := s.statusCopies, own := none }.enterPass stop total .starting

def step (op : Op) : JobState :=
  match op, s.phase with
  | .read lockError, .running w => s.read lockingSupported total w lockError
  | .onResult i failed write, .running w => s.onResult w i failed write
  | .syncBatch size, .running w => s.syncBatch w size
  | .nextPass stop, .running w => s.nextPass total w stop
  | .expireLock i, _ => { s with metastore := s.metastore.expireLock i }
  | .crash, _ => { s with phase := .down }
  | .restart stop, .down => s.restart total stop
  | _, _ => s

def run (ops : List Op) : JobState :=
  ops.foldl (step lockingSupported total) s

end

end JobState

/-! ## Each finished request that a counter holds has its own result in the metastore -/

open Metastore Worker

theorem sumOf_append (field : RequestCounts → Nat) (xs ys : List RequestCounts) :
    sumOf field (xs ++ ys) = sumOf field xs + sumOf field ys := by
  induction xs with
  | nil => simp [sumOf]
  | cons c xs ih =>
    simp only [sumOf, cons_append, foldr_cons] at ih ⊢
    omega

namespace JobState

/-! ## Invariant -/

def Counted (total : Nat) (s : JobState) : Prop :=
  sumOf (·.finished) s.statusCopies ≤ s.metastore.doneCount total

structure InPass (total : Nat) (s : JobState) (w : Worker) : Prop where
  counted : sumOf (·.finished) s.copies + w.requestCounts.finished +
    w.completedRequestIds.length ≤ s.metastore.doneCount total
  own_le : ∀ c ∈ s.own, c.finished ≤ w.requestCounts.finished
  pending : w.pendingInRound = w.inFlight.length + w.completedRequestIds.length
  nodup : w.inFlight.Nodup
  unfinished : ∀ i ∈ w.inFlight, i < w.idx ∧ i < total ∧ s.metastore.isRequestDone i = false

def AllDone (total : Nat) (s : JobState) : Prop :=
  ∀ i < total, s.metastore.isRequestDone i = true

structure Inv (total : Nat) (s : JobState) : Prop where
  counted : s.Counted total
  inPass : ∀ w, s.phase = .running w → s.InPass total w
  stopped : s.phase = .stopped → s.AllDone total

theorem fresh_inv (total : Nat) : fresh.Inv total :=
  ⟨Nat.zero_le _, nofun, nofun⟩

variable {total : Nat} {s : JobState} {w : Worker}

section

variable (h : s.InPass total w)
include h

theorem InPass.counted_copies : s.Counted total := by
  have hcounted := h.counted
  have hown := h.own_le
  unfold Counted statusCopies
  rw [sumOf_append]
  cases hc : s.own with
  | none =>
    simp only [Option.toList_none, sumOf, foldr_nil] at hcounted ⊢
    omega
  | some c =>
    have := hown c hc
    simp only [Option.toList_some, sumOf, foldr_cons, foldr_nil] at hcounted ⊢
    omega

theorem InPass.inv (hphase : s.phase = .running w) : s.Inv total := by
  refine ⟨h.counted_copies, ?_, ?_⟩
  · intro w' hw'
    rw [hphase] at hw'
    cases hw'
    exact h
  · intro hstart
    rw [hphase] at hstart
    cases hstart

omit h in
theorem allDone_of_start_neg (hcounted : s.Counted total) (hknown : 0 < total)
    (hneg : getNextPassStart false (s.counts total) s.metastore < 0) : s.AllDone total := by
  have htotal : (s.counts total).total = total := total_aggregate s.statusCopies hknown
  rcases getNextPassStart_neg hneg with hcount | hdone
  · apply all_done_of_doneCount
    have hle : (s.counts total).finished ≤ sumOf (·.finished) s.statusCopies :=
      finished_aggregate_le ⟨total, 0, 0, 0⟩ s.statusCopies rfl
    unfold Counted at hcounted
    omega
  · rw [htotal] at hdone
    exact hdone

/-! ## One lemma for each operation -/

omit h in
theorem enterPass_inv (stop : Bool) (next : Nat → Worker) (hcounted : s.Counted total)
    (hnext : ∀ start, s.InPass total (next start)) : (s.enterPass stop total next).Inv total := by
  unfold enterPass
  split
  · exact ⟨hcounted, nofun, nofun⟩
  dsimp only
  split
  · rename_i hneg
    refine ⟨hcounted, nofun, fun _ => ?_⟩
    rcases Nat.eq_zero_or_pos total with rfl | hknown
    · intro i hi
      omega
    · exact allDone_of_start_neg hcounted hknown hneg
  · apply InPass.inv (w := next _) _ rfl
    exact ⟨(hnext _).counted, (hnext _).own_le, (hnext _).pending, (hnext _).nodup, (hnext _).unfinished⟩

theorem read_inv (hphase : s.phase = .running w) : (s.read true total w false).Inv total := by
  unfold read
  split
  · rename_i hidx
    have hdone : ∀ i, (tryLock true false s.metastore w.idx).2.isRequestDone i =
        s.metastore.isRequestDone i := s.metastore.isRequestDone_lockRequest w.idx
    have hcounted := doneCount_congr hdone total
    apply InPass.inv _ rfl
    by_cases hlocked : (tryLock true false s.metastore w.idx).1 = true
    · have hfree := not_done_of_locked (m := s.metastore) hlocked
      have hblocked : w.idx ∉ w.inFlight := fun hmem => absurd (h.unfinished _ hmem).1 (by omega)
      simp only [hlocked, if_true]
      refine ⟨?_, ?_, ?_, ?_, ?_⟩
      · simpa [hcounted] using h.counted
      · simpa using h.own_le
      · have := h.pending
        simp only [dispatch_completedRequestIds]
        simp only [dispatch, length_append, length_singleton]
        omega
      · exact h.nodup.append (nodup_singleton _) (by simpa using hblocked)
      · intro i hi
        rw [hdone]
        rcases mem_append.1 hi with hold | hnew
        · have := h.unfinished i hold
          exact ⟨by dsimp only; omega, this.2⟩
        · cases mem_singleton.1 hnew
          exact ⟨Nat.lt_succ_self _, hidx, hfree⟩
    · simp only [hlocked]
      refine ⟨by simpa [hcounted] using h.counted, h.own_le, h.pending, h.nodup, ?_⟩
      intro i hi
      have := h.unfinished i hi
      rw [hdone]
      exact ⟨by dsimp only; omega, this.2⟩
  · exact h.inv hphase

def enqueued : Write → Nat
  | .stored .. => 1
  | .deferred _ => 0

theorem doneCount_apply {i : Nat} (hi : i ∈ w.inFlight) (write : Write) :
    s.metastore.doneCount total + enqueued write ≤ (write.apply s.metastore i).doneCount total := by
  obtain ⟨-, hlt, hnot⟩ := h.unfinished i hi
  rcases write with ⟨isError, etag, customId⟩ | (_ | ⟨isError, etag, customId⟩)
  · exact Nat.le_of_eq (doneCount_unlockRequest isError etag customId hlt hnot).symm
  · exact Nat.le_refl _
  · have hone := doneCount_unlockRequest isError etag customId hlt hnot
    simp only [Write.apply, enqueued]
    omega

omit h in
theorem isRequestDone_apply_other (m : Metastore) {i j : Nat} (hne : j ≠ i) (write : Write) :
    (write.apply m i).isRequestDone j = m.isRequestDone j := by
  rcases write with ⟨isError, etag, customId⟩ | (_ | ⟨isError, etag, customId⟩)
  · exact m.isRequestDone_set_other _ hne
  · rfl
  · exact m.isRequestDone_set_other _ hne

theorem onResult_inv (hphase : s.phase = .running w) (i : Nat)
    (failed : Bool) (write : Write) : (s.onResult w i failed write).Inv total := by
  unfold onResult
  split
  · rename_i hi
    have hcounted := doneCount_apply h hi write
    have hunfinished : ∀ j ∈ w.inFlight.erase i,
        j < w.idx ∧ j < total ∧ (write.apply s.metastore i).isRequestDone j = false := by
      intro j hj
      obtain ⟨hne, hmem⟩ := h.nodup.mem_erase_iff.1 hj
      rw [isRequestDone_apply_other _ hne]
      exact h.unfinished j hmem
    have hln := length_erase_add_one hi
    have hcount := h.counted
    have hpending := h.pending
    apply InPass.inv _ rfl
    cases write with
    | stored isError etag customId =>
      refine ⟨?_, h.own_le, ?_, h.nodup.erase i, hunfinished⟩
      · simp only [afterWrite, length_append, length_singleton]
        simp only [enqueued] at hcounted
        omega
      · simp only [afterWrite, length_append, length_singleton]
        omega
    | deferred left =>
      refine ⟨?_, h.own_le, ?_, h.nodup.erase i, hunfinished⟩
      · simp only [afterWrite]
        omega
      · simp only [afterWrite]
        omega
  · exact h.inv hphase

theorem syncBatch_inv (size : Nat) : (s.syncBatch w size).Inv total := by
  have hcounted := h.counted
  have hpending := h.pending
  have hsplit : (w.completedRequestIds.take size).length +
      (w.completedRequestIds.drop size).length = w.completedRequestIds.length := by
    rw [← length_append, take_append_drop]
  apply InPass.inv _ rfl
  refine ⟨?_, ?_, ?_, h.nodup, h.unfinished⟩
  · simp only [syncBatch, Worker.syncBatch, RequestCounts.finished_accumulateDone]
    omega
  · intro c hc
    cases hc
    omega
  · simp only [Worker.syncBatch]
    omega

theorem nextPass_inv (hphase : s.phase = .running w) (stop : Bool) :
    (s.nextPass total w stop).Inv total := by
  unfold nextPass
  split
  · have hpending := h.pending
    have hnone : w.inFlight = [] := length_eq_zero_iff.1 (by omega)
    apply enterPass_inv _ _ h.counted_copies
    intro start
    refine ⟨h.counted, h.own_le, h.pending, h.nodup, ?_⟩
    rw [hnone]
    apply forall_mem_nil
  · exact h.inv hphase

end

theorem restart_inv (h : s.Counted total) (stop : Bool) : (s.restart total stop).Inv total := by
  have hcopied : ({ s with copies := s.statusCopies, own := none } : JobState).Counted total := by
    simpa [Counted, statusCopies] using h
  apply enterPass_inv _ _ hcopied
  intro start
  exact ⟨by simpa [starting, Counted] using h, nofun, rfl, nodup_nil, nofun⟩

theorem expireLock_inv (h : s.Inv total) (i : Nat) :
    ({ s with metastore := s.metastore.expireLock i } : JobState).Inv total := by
  have hdone := s.metastore.isRequestDone_expireLock i
  have hcounted := doneCount_congr hdone total
  refine ⟨?_, ?_, ?_⟩
  · have := h.counted
    unfold Counted at this ⊢
    rw [hcounted]
    exact this
  · intro w hw
    have hinPass := h.inPass w hw
    refine ⟨?_, hinPass.own_le, hinPass.pending, hinPass.nodup, ?_⟩
    · rw [hcounted]
      exact hinPass.counted
    · intro j hj
      rw [hdone]
      exact hinPass.unfinished j hj
  · intro hstart j hj
    rw [hdone]
    exact h.stopped hstart j hj

/-! ## Runs -/

theorem step_inv (h : s.Inv total) {op : Op} (hread : op ≠ .read true) : (s.step true total op).Inv total := by
  unfold step
  split
  · rename_i lockError w hphase
    cases lockError with
    | true => exact absurd rfl hread
    | false => exact read_inv (h.inPass w hphase) hphase
  · rename_i i failed write w hphase
    exact onResult_inv (h.inPass w hphase) hphase i failed write
  · rename_i size w hphase
    exact syncBatch_inv (h.inPass w hphase) size
  · rename_i stop w hphase
    exact nextPass_inv (h.inPass w hphase) hphase stop
  · exact expireLock_inv h _
  · exact ⟨h.counted, nofun, nofun⟩
  · exact restart_inv h.counted _
  · exact h

theorem run_inv (h : s.Inv total) {ops : List Op} (hops : ∀ op ∈ ops, op ≠ .read true) :
    (s.run true total ops).Inv total := by
  induction ops generalizing s with
  | nil => exact h
  | cons op ops ih =>
    apply ih (step_inv h (hops op mem_cons_self))
    intro op' hread'
    exact hops op' (mem_cons_of_mem _ hread')

/-- With locks that never raise, a worker that finds no further pass leaves every request with a result, over any passes,
deferred writes, expired locks and restarts. -/
theorem stopped_worker_leaves_all_done (total : Nat) (ops : List Op) (hops : ∀ op ∈ ops, op ≠ .read true)
    (hstopped : (fresh.run true total ops).phase = .stopped) :
    ∀ i < total, (fresh.run true total ops).metastore.isRequestDone i = true :=
  (run_inv (fresh_inv total) hops).stopped hstopped

def lockedRun : List Op :=
  [.restart false, .read false, .read false, .onResult 1 true (.stored true "e1" none),
    .onResult 0 false (.deferred none), .syncBatch 1, .crash, .expireLock 0, .restart false,
    .read false, .read false, .onResult 0 false (.stored false "e0" none), .syncBatch 1,
    .nextPass false]

theorem stopped_worker_leaves_all_done_lockedRun : (fresh.run true 2 lockedRun).phase = .stopped ∧
      ∀ i < 2, (fresh.run true 2 lockedRun).metastore.isRequestDone i = true :=
  ⟨by decide, stopped_worker_leaves_all_done 2 lockedRun (by decide) (by decide)⟩

/-- The counters never run ahead of the results, and no request is sent twice at a time or once it has a result. -/
theorem worker_not_ahead (total : Nat) (ops : List Op) (hops : ∀ op ∈ ops, op ≠ .read true) :
    let s := fresh.run true total ops
    sumOf (·.finished) s.statusCopies ≤ s.metastore.doneCount total ∧ ∀ w, s.phase = .running w →
      w.inFlight.Nodup ∧ ∀ i ∈ w.inFlight, i < total ∧ s.metastore.isRequestDone i = false := by
  have h := run_inv (fresh_inv total) hops
  refine ⟨h.counted, fun w hw => ?_⟩
  have hpass := h.inPass w hw
  exact ⟨hpass.nodup, fun i hi => (hpass.unfinished i hi).2⟩

theorem worker_not_ahead_lockedRun :
    let s := fresh.run true 2 lockedRun
    sumOf (·.finished) s.statusCopies ≤ s.metastore.doneCount 2 :=
  (worker_not_ahead 2 lockedRun (by decide)).1

/-- Without locks the second pass processes and counts request 1 again, while the write of request 0 is deferred twice: two
counted requests of two, and request 0 has no result. -/
def countedTwice : List Op :=
  [.restart false, .read false, .read false, .onResult 0 false (.deferred none),
    .onResult 1 false (.stored false "e1" none), .syncBatch 1, .nextPass false,
    .read false, .read false, .onResult 0 false (.deferred none),
    .onResult 1 false (.stored false "e1" none), .syncBatch 1, .nextPass false]

theorem stopped_without_result : (fresh.run false 2 countedTwice).phase = .stopped ∧
      (fresh.run false 2 countedTwice).metastore.isRequestDone 0 = false := by
  decide

end JobState

end Aibrix.Batch
