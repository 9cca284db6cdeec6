import Aibrix.KvCache.L2Get

/-! # Zero-copy `acquire` and `allocate` of the L2 cache

The backend hands out its own regions, a batch of blocks at a time. -/

namespace Aibrix.KvCache

open List

structure ZeroCopyL2 (T R : Type) where
  blockNtokens : Nat
  blockNtokens_pos : 0 < blockNtokens
  opBatch : Nat
  opBatch_pos : 0 < opBatch
  backendAcquire : List T → Status R
  backendAllocate : List T → Nat → Status R

/-- What a call has returned, what it has enqueued for the backend, and the tasks that it has created. -/
structure Handed (R : Type) where
  mrs : List R := []
  enqueued : List R := []
  asked : List (Status R) := []

section Tasks

variable {R : Type}

def Status.region : Status R → Option R
  | .ok mr => some mr
  | .error _ => none

def returned : Status (List R) → List R
  | .ok mrs => mrs
  | .error _ => []

def regions (tasks : List (Status R)) : List R := tasks.filterMap Status.region

def leadingRegions : List (Status R) → List R
  | .ok mr :: tasks => mr :: leadingRegions tasks
  | _ => []

/-- The value of `i` after the loop over the tasks. -/
def lastIndex (tasks : List (Status R)) : Nat :=
  if (leadingRegions tasks).length < tasks.length then (leadingRegions tasks).length else tasks.length - 1

def handOut : List (List (Status R)) → Handed R → Handed R
  | [], handed => handed
  | tasks :: batches, handed =>
    if tasks.length = 0 then handed
    else
      let handed :=
        { handed with mrs := handed.mrs ++ leadingRegions tasks, asked := handed.asked ++ tasks }
      if lastIndex tasks + 1 < tasks.length then
        { handed with enqueued := handed.enqueued ++ regions (tasks.drop (lastIndex tasks)) }
      else handOut batches handed

end Tasks

namespace ZeroCopyL2

variable {T R : Type} (l2 : ZeroCopyL2 T R) (before : Option (List T))

def acquireTasks (query : List T) : List (List (Status R)) :=
  (batched l2.opBatch (realKeys l2.blockNtokens before query)).map (·.map l2.backendAcquire)

def acquire (query : List T) : Handed R × Status (List R) :=
  if unaligned l2.blockNtokens before then ({}, .error .invalid)
  else
    let handed := handOut (l2.acquireTasks before query) {}
    (handed, if handed.mrs.isEmpty then .error .notFound else .ok handed.mrs)

def sizedTasks : List (List (List T)) → List Nat → List (List (Status R))
  | [], _ => []
  | batch :: batches, sizes =>
    (batch.zip sizes).map (fun (key, size) => l2.backendAllocate key size) :: sizedTasks batches (sizes.drop batch.length)

def allocateTasks (query : List T) (sizes : List Nat) : List (List (Status R)) :=
  l2.sizedTasks (batched l2.opBatch (realKeys l2.blockNtokens before query)) sizes

def allocate (query : List T) (sizes : List Nat) : Handed R × Status (List R) :=
  if unaligned l2.blockNtokens before then ({}, .error .invalid)
  else if query.length % l2.blockNtokens ≠ 0 then ({}, .error .invalid)
  else if query.length / l2.blockNtokens = 0 ∨ sizes.length = 0 then ({}, .error .invalid)
  else
    let handed := handOut (l2.allocateTasks before query sizes) {}
    (handed, .ok handed.mrs)

end ZeroCopyL2

/-! ## The loop over the batches -/

section Tasks

variable {R : Type}

theorem regions_append (tasks tasks' : List (Status R)) : regions (tasks ++ tasks') = regions tasks ++ regions tasks' :=
  filterMap_append

variable {tasks : List (Status R)}

theorem leadingRegions_of_all (h : (leadingRegions tasks).length = tasks.length) (rest : List (Status R)) :
    leadingRegions (tasks ++ rest) = leadingRegions tasks ++ leadingRegions rest := by
  induction tasks with
  | nil => rfl
  | cons task tasks ih =>
    cases task with
    | ok mr => exact congrArg (mr :: ·) (ih (by simpa [leadingRegions] using h))
    | error code => simp [leadingRegions] at h

theorem leadingRegions_of_hole (h : (leadingRegions tasks).length < tasks.length)
    (rest : List (Status R)) : leadingRegions (tasks ++ rest) = leadingRegions tasks := by
  induction tasks with
  | nil => simp [leadingRegions] at h
  | cons task tasks ih =>
    cases task with
    | ok mr => exact congrArg (mr :: ·) (ih (by simpa [leadingRegions] using h))
    | error code => rfl

theorem length_leadingRegions_le (tasks : List (Status R)) : (leadingRegions tasks).length ≤ tasks.length := by
  induction tasks with
  | nil => exact le_rfl
  | cons task tasks ih =>
    cases task with
    | ok mr => exact Nat.succ_le_succ ih
    | error code => exact Nat.zero_le _

theorem regions_eq (tasks : List (Status R)) :
    regions tasks = leadingRegions tasks ++ regions (tasks.drop (leadingRegions tasks).length) := by
  induction tasks with
  | nil => rfl
  | cons task tasks ih =>
    cases task with
    | ok mr => exact congrArg (mr :: ·) ih
    | error code => rfl

def LastMissing (tasks : List (Status R)) : Prop := (leadingRegions tasks).length + 1 = tasks.length

instance decidableLastMissing (tasks : List (Status R)) : Decidable (LastMissing tasks) :=
  inferInstanceAs (Decidable ((leadingRegions tasks).length + 1 = tasks.length))

theorem regions_of_lastMissing (h : LastMissing tasks) : regions tasks = leadingRegions tasks := by
  unfold LastMissing at h
  induction tasks with
  | nil => rfl
  | cons task tasks ih =>
    cases task with
    | ok mr => exact congrArg (mr :: ·) (ih (by simpa [leadingRegions] using h))
    | error code =>
      obtain rfl : tasks = [] := length_eq_zero_iff.1 (by simpa [leadingRegions] using h)
      rfl

theorem regions_of_continue (h : ¬ lastIndex tasks + 1 < tasks.length) : regions tasks = leadingRegions tasks ∧
      (LastMissing tasks ∨ (leadingRegions tasks).length = tasks.length) := by
  have hle := length_leadingRegions_le tasks
  unfold lastIndex at h
  split at h
  · have hls : (leadingRegions tasks).length + 1 = tasks.length := by omega
    exact ⟨regions_of_lastMissing hls, .inl hls⟩
  · refine ⟨?_, .inr (by omega)⟩
    rw [regions_eq, drop_eq_nil_of_le (by omega)]
    exact append_nil _

theorem lastIndex_of_break (h : lastIndex tasks + 1 < tasks.length) :
    lastIndex tasks = (leadingRegions tasks).length ∧ (leadingRegions tasks).length < tasks.length := by
  unfold lastIndex at h ⊢
  split at h
  · exact ⟨if_pos ‹_›, ‹_›⟩
  · omega

/-- The first block of a batch is missing, and of each later one as long as the batches before have one block. -/
def FirstMissing : List (List (Status R)) → Prop
  | [] => True
  | tasks :: batches => leadingRegions tasks = [] ∧ (tasks.length = 1 → FirstMissing batches)

/-- Where the blocks that are there end before the last one of a batch, the next batch starts with a missing block. -/
def NoLateRegions : List (List (Status R)) → Prop
  | [] => True
  | tasks :: batches =>
    (LastMissing tasks → FirstMissing batches) ∧ ((leadingRegions tasks).length = tasks.length → NoLateRegions batches)

instance decidableFirstMissing [DecidableEq R] : (batches : List (List (Status R))) → Decidable (FirstMissing batches)
  | [] => .isTrue trivial
  | tasks :: batches =>
    have := decidableFirstMissing batches
    inferInstanceAs (Decidable (leadingRegions tasks = [] ∧ (tasks.length = 1 → FirstMissing batches)))

instance decidableNoLateRegions [DecidableEq R] : (batches : List (List (Status R))) → Decidable (NoLateRegions batches)
  | [] => .isTrue trivial
  | tasks :: batches =>
    have := decidableNoLateRegions batches
    inferInstanceAs (Decidable ((LastMissing tasks → FirstMissing batches) ∧
      ((leadingRegions tasks).length = tasks.length → NoLateRegions batches)))

theorem noLateRegions_of_flatten {batches : List (List (Status R))} (h : batches.flatten = []) : NoLateRegions batches := by
  induction batches with
  | nil => trivial
  | cons tasks batches ih =>
    obtain ⟨rfl, hrest⟩ := append_eq_nil_iff.1 h
    exact ⟨nofun, fun _ => ih hrest⟩

/-- A batch without tasks is followed by no task. -/
def Closed : List (List (Status R)) → Prop
  | [] => True
  | tasks :: batches => (tasks = [] → batches.flatten = []) ∧ Closed batches

/-- Every region that was handed out is returned or enqueued, and no region is both. -/
theorem perm_handOut (batches : List (List (Status R))) {handed : Handed R}
    (h : (handed.mrs ++ handed.enqueued).Perm (regions handed.asked)) :
    let r := handOut batches handed
    (r.mrs ++ r.enqueued).Perm (regions r.asked) := by
  induction batches generalizing handed with
  | nil => exact h
  | cons tasks batches ih =>
    unfold handOut
    split
    · exact h
    have hst : ∀ enqueued, regions tasks = leadingRegions tasks ++ enqueued →
        (handed.mrs ++ leadingRegions tasks ++ (handed.enqueued ++ enqueued)).Perm
          (regions (handed.asked ++ tasks)) := by
      intro enqueued hts
      rw [regions_append, hts]
      refine Perm.trans ?_ (h.append_right _)
      simp only [append_assoc]
      apply Perm.append_left _
      rw [← append_assoc, ← append_assoc]
      exact List.perm_append_comm.append_right _
    split
    · rename_i hbr
      apply hst
      rw [(lastIndex_of_break hbr).1]
      exact regions_eq tasks
    · rename_i hcn
      apply ih
      have hpr := hst [] (by rw [(regions_of_continue hcn).1, append_nil])
      rwa [append_nil] at hpr

theorem asked_handOut (batches : List (List (Status R))) (handed : Handed R) :
    ∃ asked, (handOut batches handed).asked = handed.asked ++ asked ∧ asked <+: batches.flatten := by
  induction batches generalizing handed with
  | nil => exact ⟨[], (append_nil _).symm, nil_prefix⟩
  | cons tasks batches ih =>
    unfold handOut
    split
    · exact ⟨[], (append_nil _).symm, nil_prefix⟩
    split
    · exact ⟨tasks, rfl, prefix_append _ _⟩
    obtain ⟨asked, hak, hfr⟩ := ih
      { handed with mrs := handed.mrs ++ leadingRegions tasks, asked := handed.asked ++ tasks }
    refine ⟨tasks ++ asked, ?_, (prefix_append_right_inj tasks).2 hfr⟩
    rw [hak, append_assoc]

theorem handed_prefix (batches : List (List (Status R))) (handed : Handed R) :
    handed.mrs <+: (handOut batches handed).mrs := by
  induction batches generalizing handed with
  | nil => exact prefix_rfl
  | cons tasks batches ih =>
    unfold handOut
    split
    · exact prefix_rfl
    split
    · exact prefix_append _ _
    · exact (prefix_append _ (leadingRegions tasks)).trans (ih { handed with mrs := _, asked := _ })

theorem mrs_handOut_eq_iff_firstMissing (batches : List (List (Status R))) (handed : Handed R) :
    (handOut batches handed).mrs = handed.mrs ↔ FirstMissing batches := by
  induction batches generalizing handed with
  | nil => exact iff_of_true rfl trivial
  | cons tasks batches ih =>
    unfold handOut FirstMissing
    split
    · rename_i hnone
      obtain rfl : tasks = [] := length_eq_zero_iff.1 hnone
      exact iff_of_true rfl ⟨rfl, nofun⟩
    rename_i hsome
    split
    · rename_i hbreak
      rw [append_right_eq_self]
      exact ⟨fun hnil => ⟨hnil, fun hone => by omega⟩, fun h => h.1⟩
    rename_i hcontinue
    obtain ⟨more, hmore⟩ := handed_prefix batches
      { handed with mrs := handed.mrs ++ leadingRegions tasks, asked := handed.asked ++ tasks }
    by_cases hlead : leadingRegions tasks = []
    · have hone : tasks.length = 1 := by
        rcases (regions_of_continue hcontinue).2 with hlast | hall
        · simpa [LastMissing, hlead, eq_comm] using hlast
        · simp [hlead] at hall
          exact absurd hall.symm hsome
      have hih := ih { handed with mrs := handed.mrs ++ leadingRegions tasks, asked := handed.asked ++ tasks }
      simp only [hlead, append_nil] at hih ⊢
      rw [hih]
      exact ⟨fun h => ⟨trivial, fun _ => h⟩, fun h => h.2 hone⟩
    · rw [← hmore, append_assoc, append_right_eq_self]
      exact ⟨fun h => absurd (append_eq_nil_iff.1 h).1 hlead, fun h => absurd h.1 hlead⟩

theorem mrs_handOut_eq_iff {batches : List (List (Status R))} (hclosed : Closed batches) (handed : Handed R) :
    (handOut batches handed).mrs = handed.mrs ++ leadingRegions batches.flatten ↔ NoLateRegions batches := by
  induction batches generalizing handed with
  | nil => exact iff_of_true (append_nil _).symm trivial
  | cons tasks batches ih =>
    unfold handOut NoLateRegions
    rw [flatten_cons]
    split
    · rename_i hnone
      obtain rfl : tasks = [] := length_eq_zero_iff.1 hnone
      rw [hclosed.1 rfl]
      exact iff_of_true (append_nil _).symm ⟨nofun, fun _ => noLateRegions_of_flatten (hclosed.1 rfl)⟩
    split
    · rename_i hbreak
      obtain ⟨hlast, hhole⟩ := lastIndex_of_break hbreak
      rw [leadingRegions_of_hole hhole]
      refine iff_of_true rfl ⟨fun h => ?_, fun h => absurd h hhole.ne⟩
      unfold LastMissing at h
      omega
    rename_i hcontinue
    rcases (regions_of_continue hcontinue).2 with hlast | hall
    · have hhole : (leadingRegions tasks).length < tasks.length := by
        unfold LastMissing at hlast
        omega
      rw [leadingRegions_of_hole hhole, mrs_handOut_eq_iff_firstMissing]
      exact ⟨fun h => ⟨fun _ => h, fun hall => absurd hall hhole.ne⟩, fun h => h.1 hlast⟩
    · rw [leadingRegions_of_all hall, ← append_assoc]
      refine (ih hclosed.2 _).trans ⟨fun h => ⟨fun hlast => ?_, fun _ => h⟩, fun h => h.2 hall⟩
      unfold LastMissing at hlast
      omega

end Tasks

/-! ## The two calls -/

namespace ZeroCopyL2

variable {T R : Type} (l2 : ZeroCopyL2 T R)

theorem flatten_acquireTasks (before : Option (List T)) (query : List T) :
    (l2.acquireTasks before query).flatten = (realKeys l2.blockNtokens before query).map l2.backendAcquire := by
  unfold acquireTasks
  rw [← map_flatten, flatten_batched]

theorem closed_map_acquire {batches : List (List (List T))} (hne : ∀ batch ∈ batches, batch ≠ []) :
    Closed (batches.map (·.map l2.backendAcquire)) := by
  induction batches with
  | nil => exact trivial
  | cons batch batches ih =>
    refine ⟨fun hnil => ?_, ih fun b hb => hne b (mem_cons_of_mem _ hb)⟩
    exact absurd (map_eq_nil_iff.1 hnil) (hne batch mem_cons_self)

theorem sizedTasks_nil (batches : List (List (List T))) : (l2.sizedTasks batches []).flatten = [] := by
  induction batches with
  | nil => rfl
  | cons batch batches ih =>
    unfold sizedTasks
    rw [zip_nil_right, drop_nil, flatten_cons, ih]
    rfl

theorem closed_sizedTasks {batches : List (List (List T))} (hne : ∀ batch ∈ batches, batch ≠ []) (sizes : List Nat) :
    Closed (l2.sizedTasks batches sizes) := by
  induction batches generalizing sizes with
  | nil => exact trivial
  | cons batch batches ih =>
    refine ⟨fun hnil => ?_, ih (fun b hb => hne b (mem_cons_of_mem _ hb)) _⟩
    rcases List.zip_eq_nil_iff.1 (map_eq_nil_iff.1 hnil) with hbt | rfl
    · exact absurd hbt (hne batch mem_cons_self)
    · rw [drop_nil]
      exact l2.sizedTasks_nil batches

theorem append_zip {α β : Type} (xs ys : List α) (zs : List β) :
    (xs ++ ys).zip zs = xs.zip zs ++ ys.zip (zs.drop xs.length) := by
  induction xs generalizing zs with
  | nil => rfl
  | cons x xs ih =>
    cases zs with
    | nil => simp
    | cons z zs => exact congrArg ((x, z) :: ·) (ih zs)

theorem flatten_sizedTasks (batches : List (List (List T))) (sizes : List Nat) : (l2.sizedTasks batches sizes).flatten =
      (batches.flatten.zip sizes).map fun (key, size) => l2.backendAllocate key size := by
  induction batches generalizing sizes with
  | nil => rfl
  | cons batch batches ih =>
    unfold sizedTasks
    rw [flatten_cons, flatten_cons, ih, ← map_append]
    rw [append_zip]

structure Conserves (call : Handed R × Status (List R)) (outcomes : List (Status R)) : Prop where
  asked : call.1.asked <+: outcomes
  conserved : (returned call.2 ++ call.1.enqueued).Perm (regions call.1.asked)

theorem conserves_handOut {batches : List (List (Status R))} {status : Status (List R)}
    (hst : returned status = (handOut batches {}).mrs) : Conserves (handOut batches {}, status) batches.flatten where
  asked := by
    obtain ⟨asked, hak, hfr⟩ := asked_handOut batches {}
    rw [hak]
    exact hfr
  conserved := by
    rw [hst]
    exact perm_handOut batches (Perm.refl _)

theorem conserves_invalid (outcomes : List (Status R)) : Conserves ({}, .error .invalid) outcomes where
  asked := nil_prefix
  conserved := Perm.refl _

theorem returned_notFound (mrs : List R) : returned (if mrs.isEmpty then .error .notFound else .ok mrs) = mrs := by
  cases mrs <;> rfl

theorem leading_regions_returned (before : Option (List T)) (query : List T) (sizes : List Nat) :
    (Conserves (l2.acquire before query) ((realKeys l2.blockNtokens before query).map l2.backendAcquire) ∧
      (unaligned l2.blockNtokens before = false → (returned (l2.acquire before query).2 =
          leadingRegions ((realKeys l2.blockNtokens before query).map l2.backendAcquire) ↔
        NoLateRegions (l2.acquireTasks before query)))) ∧
    (Conserves (l2.allocate before query sizes) (((realKeys l2.blockNtokens before query).zip sizes).map
        fun (key, size) => l2.backendAllocate key size) ∧
      (unaligned l2.blockNtokens before = false → query.length % l2.blockNtokens = 0 →
        (returned (l2.allocate before query sizes).2 =
          leadingRegions (((realKeys l2.blockNtokens before query).zip sizes).map
            fun (key, size) => l2.backendAllocate key size) ↔
        NoLateRegions (l2.allocateTasks before query sizes)))) := by
  have hne : ∀ batch ∈ batched l2.opBatch (realKeys l2.blockNtokens before query), batch ≠ [] :=
    fun _ hbatch => ne_nil_of_mem_batchedFrom hbatch
  have hallocate := l2.flatten_sizedTasks (batched l2.opBatch (realKeys l2.blockNtokens before query)) sizes
  rw [flatten_batched] at hallocate
  refine ⟨⟨?_, ?_⟩, ?_, ?_⟩
  · rw [← l2.flatten_acquireTasks]
    unfold acquire
    split
    · exact conserves_invalid _
    · exact conserves_handOut (returned_notFound _)
  · intro haligned
    unfold acquire
    rw [haligned, ← l2.flatten_acquireTasks]
    exact (iff_of_eq (congrArg (· = _) (returned_notFound _))).trans
      (mrs_handOut_eq_iff (l2.closed_map_acquire hne) {})
  · rw [← hallocate]
    unfold allocate
    split
    · exact conserves_invalid _
    split
    · exact conserves_invalid _
    · split
      · exact conserves_invalid _
      · exact conserves_handOut rfl
  · intro haligned hwhole
    unfold allocate
    rw [haligned, if_neg (by simp), if_neg (by omega)]
    split
    · rename_i hnone
      have hnil : (realKeys l2.blockNtokens before query).zip sizes = [] := by
        rcases hnone with hquery | hsizes
        · unfold realKeys
          rw [hquery]
          rfl
        · rw [length_eq_zero_iff.1 hsizes, List.zip_nil_right]
      refine iff_of_true (by rw [hnil]; rfl) (noLateRegions_of_flatten ?_)
      rw [allocateTasks, hallocate, hnil]
      rfl
    · rw [← hallocate]
      exact mrs_handOut_eq_iff (l2.closed_sizedTasks hne sizes) {}

def oneByOne (missing : List Nat) : ZeroCopyL2 Bool Nat where
  blockNtokens := 1
  blockNtokens_pos := Nat.one_pos
  opBatch := 1
  opBatch_pos := Nat.one_pos
  backendAcquire key := if key.length ∈ missing then .error .notFound else .ok key.length
  backendAllocate key _ := if key.length ∈ missing then .error .outOfMemory else .ok key.length

theorem returned_after_missing : ((oneByOne [1]).acquire none [true, true, true]).2 = .ok [2, 3] ∧
    ((oneByOne [1]).acquire none [true, true, true]).1.asked = [.error .notFound, .ok 2, .ok 3] ∧
    leadingRegions ((realKeys 1 none [true, true, true]).map (oneByOne [1]).backendAcquire) = [] ∧
    returned ((oneByOne [1]).allocate none [true, true, true] [16, 16, 16]).2 = [2, 3] := by
  decide

theorem leading_regions_returned_two : returned ((oneByOne [3]).acquire none [true, true, true]).2 = [1, 2] ∧
    returned ((oneByOne [3]).allocate none [true, true, true] [16, 16, 16]).2 = [1, 2] := by
  obtain ⟨⟨-, hacquire⟩, -, hallocate⟩ := (oneByOne [3]).leading_regions_returned none [true, true, true] [16, 16, 16]
  constructor
  · exact ((hacquire rfl).2 (by decide)).trans (by decide)
  · exact ((hallocate rfl rfl).2 (by decide)).trans (by decide)

end ZeroCopyL2

end Aibrix.KvCache
