import Aibrix.Batch.Finalize

/-! # Finalisation partitions the results

Every recorded result ends up in exactly one file, at the place of its index, and the counters are the file sizes. -/

namespace Aibrix.Batch

open Lib List Option Stored

/-! ## What the files should hold -/

structure Prepared (env : FinalizeEnv) (ids : FileIds) (s : Stored) : Prop where
  files_ne : ids.outputFileId ≠ ids.errorFileId
  uploads_ne : ids.tempOutputFileId ≠ ids.tempErrorFileId
  output_upload : (s.read env.unreadable (.uploadMetadata ids.tempOutputFileId)).isSome
  error_upload : (s.read env.unreadable (.uploadMetadata ids.tempErrorFileId)).isSome

structure Lists (pages : List (List Nat)) (m : Metastore) : Prop where
  nodup : pages.flatten.Nodup
  covers : ∀ i, (m i).isSome → i ∈ pages.flatten

section

variable (env : FinalizeEnv) (ids : FileIds) (s : Stored) (i : Nat)

def IsSuccess : Prop := ∃ parsed, resultOf s.metastore i = some parsed ∧ parsed.isError = false

def IsFailure : Prop := ∃ parsed, resultOf s.metastore i = some parsed ∧ parsed.isError = true

def stagedOutput : Option Bytes := s.read env.unreadable (.uploadPart ids.tempOutputFileId i)

def stagedError : Option Bytes := s.read env.unreadable (.uploadPart ids.tempErrorFileId i)

def outputRecord : Bytes := (stagedOutput env ids s i).getD []

/-- The record of a request in the error file: the staged one of a failure, and a synthesized
one when it or the output of a success cannot be read. -/
def errorRecord : Bytes :=
  match resultOf s.metastore i with
  | none => []
  | some parsed =>
    if parsed.isError then
      (stagedError env ids s i).getD
        (buildUnreadableErrorPartBody env (resultPart i parsed) unreadableFailedErrorPartMessage)
    else
      buildUnreadableErrorPartBody env (resultPart i parsed) unreadableCompletedOutputPartMessage

end

structure Partitions (env : FinalizeEnv) (ids : FileIds) (s : Stored) (job : JobStatus)
    (outIdx errIdx : List Nat) (job' : JobStatus) (s' : Stored) : Prop where
  out_increasing : outIdx.Pairwise (· < ·)
  err_increasing : errIdx.Pairwise (· < ·)
  mem_out : ∀ i, i ∈ outIdx ↔ IsSuccess s i ∧ (stagedOutput env ids s i).isSome
  mem_err : ∀ i, i ∈ errIdx ↔ IsFailure s i ∨ (IsSuccess s i ∧ stagedOutput env ids s i = none)
  disjoint : ∀ i ∈ outIdx, i ∉ errIdx
  output_file : s'.objects.lookup (.file ids.outputFileId) = some (outIdx.flatMap (outputRecord env ids s))
  error_file : s'.objects.lookup (.file ids.errorFileId) = some (errIdx.flatMap (errorRecord env ids s))
  completed : job'.requestCounts.completed = outIdx.length
  failed : job'.requestCounts.failed = errIdx.length
  total_covers : job'.requestCounts.completed + job'.requestCounts.failed ≤ job'.requestCounts.total
  total_kept : job.requestCounts.total ≤ job'.requestCounts.total
  keys_deleted : ∀ i, s'.metastore i =
    if (resultOf s.metastore i).isSome then none else s.metastore i

/-! ## Parts and indices -/

variable {env : FinalizeEnv} {ids : FileIds} {s : Stored} {keys : List Nat} {c : Collected}

theorem isFailure_not_isSuccess {i : Nat} (h : IsFailure s i) : ¬IsSuccess s i := by
  rintro ⟨parsed', hparsed', hsuccess⟩
  obtain ⟨parsed, hparsed, herr⟩ := h
  rw [hparsed] at hparsed'
  cases hparsed'
  rw [herr] at hsuccess
  cases hsuccess

theorem flatten_bodies {body : Part → Option Bytes} (record : Nat → Bytes) (parts : List Part)
    (h : ∀ p ∈ parts, ∀ data, body p = some data → record p.partNumber = data) : (parts.filterMap body).flatten =
      (partNumbers (parts.filter (fun p => (body p).isSome))).flatMap record := by
  induction parts with
  | nil => rfl
  | cons p parts ih =>
    have hresult := ih (fun q hq => h q (mem_cons_of_mem _ hq))
    cases hbody : body p with
    | none => simpa [hbody] using hresult
    | some data =>
      have hrecord := h p mem_cons_self data hbody
      simp only [filterMap_cons, hbody, flatten_cons, filter_cons, isSome_some,
        if_true, partNumbers, map_cons, flatMap_cons, hrecord] at hresult ⊢
      rw [hresult]

variable {p : Part}

section

variable {m : Metastore} {isError : Bool} {part : Nat → Option Part}
  (hpart : ∀ {i p}, part i = some p ↔
    ∃ parsed, resultOf m i = some parsed ∧ parsed.isError = isError ∧ p = resultPart i parsed)
include hpart

theorem mem_filterMap_part (hp : p ∈ keys.filterMap part) : ∃ parsed, p.partNumber ∈ keys ∧
    resultOf m p.partNumber = some parsed ∧ parsed.isError = isError ∧ p = resultPart p.partNumber parsed := by
  obtain ⟨i, hi, hparsed⟩ := mem_filterMap.1 hp
  obtain ⟨parsed, hresult, herr, rfl⟩ := hpart.1 hparsed
  exact ⟨parsed, hi, hresult, herr, rfl⟩

theorem mem_partNumbers_part {i : Nat} (hlisted : (resultOf m i).isSome → i ∈ keys) :
    i ∈ partNumbers (keys.filterMap part) ↔ ∃ parsed, resultOf m i = some parsed ∧ parsed.isError = isError := by
  constructor
  · intro hi
    obtain ⟨p, hp, rfl⟩ := mem_map.1 hi
    obtain ⟨parsed, -, hparsed, herr, -⟩ := mem_filterMap_part hpart hp
    exact ⟨parsed, hparsed, herr⟩
  · rintro ⟨parsed, hparsed, herr⟩
    refine mem_map.2 ⟨resultPart i parsed, mem_filterMap.2 ⟨i, hlisted (by rw [hparsed]; rfl), ?_⟩, rfl⟩
    exact hpart.2 ⟨parsed, hparsed, herr, rfl⟩

end

namespace Collects

variable (h : Collects s.metastore keys c)
include h

theorem mem_output (hp : p ∈ c.output) : ∃ parsed, p.partNumber ∈ keys ∧
    resultOf s.metastore p.partNumber = some parsed ∧ parsed.isError = false ∧ p = resultPart p.partNumber parsed := by
  rw [h.output] at hp
  exact mem_filterMap_part successPart_eq_some hp

theorem mem_error (hp : p ∈ c.error) : ∃ parsed, p.partNumber ∈ keys ∧
    resultOf s.metastore p.partNumber = some parsed ∧ parsed.isError = true ∧ p = resultPart p.partNumber parsed := by
  rw [h.error] at hp
  exact mem_filterMap_part errorPart_eq_some hp

variable {i : Nat}

theorem mem_outputNumbers (hlisted : (resultOf s.metastore i).isSome → i ∈ keys) :
    i ∈ partNumbers c.output ↔ IsSuccess s i := by
  rw [h.output]
  exact mem_partNumbers_part successPart_eq_some hlisted

theorem mem_errorNumbers (hlisted : (resultOf s.metastore i).isSome → i ∈ keys) :
    i ∈ partNumbers c.error ↔ IsFailure s i := by
  rw [h.error]
  exact mem_partNumbers_part errorPart_eq_some hlisted

theorem outputNumbers_nodup (hkeys : keys.Nodup) : (partNumbers c.output).Nodup := by
  rw [h.output]
  exact partNumbers_filterMap_nodup hkeys (fun _ _ => partNumber_successPart)

theorem errorNumbers_nodup (hkeys : keys.Nodup) : (partNumbers c.error).Nodup := by
  rw [h.error]
  exact partNumbers_filterMap_nodup hkeys (fun _ _ => partNumber_errorPart)

theorem numbers_disjoint (herr : i ∈ partNumbers c.error) : i ∉ partNumbers c.output := by
  intro hmem
  obtain ⟨p, hp, rfl⟩ := mem_map.1 herr
  obtain ⟨q, hq, hnumber⟩ := mem_map.1 hmem
  obtain ⟨parsed, -, hparsed, herror, -⟩ := h.mem_error hp
  obtain ⟨parsed', -, hparsed', hfailed, -⟩ := h.mem_output hq
  rw [hnumber, hparsed] at hparsed'
  cases hparsed'
  rw [herror] at hfailed
  cases hfailed

end Collects

theorem resolvedCustomId_ne (part : Part) : part.resolvedCustomId ≠ "" := by
  have hdefault : "request-" ++ toString part.partNumber ≠ "" := by
    intro hempty
    have hlength := congrArg String.length hempty
    rw [String.length_append] at hlength
    have : "request-".length = 8 := rfl
    have : "".length = 0 := rfl
    omega
  unfold Part.resolvedCustomId
  split
  · split
    · exact hdefault
    · assumption
  · exact hdefault

theorem provide_synthesized (env : FinalizeEnv) (message : String) (part : Part) :
    provideLocalErrorPart env (synthesizeUnreadableErrorPart env message part) =
      buildUnreadableErrorPartBody env part unreadableCompletedOutputPartMessage := by
  have hcustom : (synthesizeUnreadableErrorPart env message part).resolvedCustomId =
      part.resolvedCustomId := if_neg (resolvedCustomId_ne part)
  unfold provideLocalErrorPart buildUnreadableErrorPartBody
  rw [hcustom]
  rfl

def unreadableOutputs (env : FinalizeEnv) (ids : FileIds) (s : Stored) (c : Collected) : List Part :=
  (sortByPartNumber c.output).filter
    (fun p => partBody env.unreadable s ids.tempOutputFileId none p = none)

theorem mem_unreadableOutputs : p ∈ unreadableOutputs env ids s c ↔
    p ∈ c.output ∧ stagedOutput env ids s p.partNumber = none := by
  rw [unreadableOutputs, mem_filter, mem_sortByPartNumber, decide_eq_true_iff]
  rfl

theorem body_error (h : Collects s.metastore keys c) {r : Rerouted}
    (hr : Reroutes env c (unreadableOutputs env ids s c) r) {s₁ : Stored}
    (hread : ∀ i, stagedError env ids s₁ i = stagedError env ids s i) (hp : p ∈ r.error) :
    partBody env.unreadable s₁ ids.tempErrorFileId (some (provideLocalErrorPart env)) p =
      some (errorRecord env ids s p.partNumber) := by
  rcases (hr.mem_error p).1 hp with hfailed | ⟨q, hq, rfl⟩
  · obtain ⟨parsed, -, hparsed, herr, hpart⟩ := h.mem_error hfailed
    have hremote : p.isLocal = false := by rw [hpart]; rfl
    have hstaged : s₁.read env.unreadable (.uploadPart ids.tempErrorFileId p.partNumber) =
        stagedError env ids s p.partNumber := hread p.partNumber
    simp [partBody, hremote, hstaged, errorRecord, hparsed, herr, provideLocalErrorPart, ← hpart]
  obtain ⟨hq, -⟩ := mem_unreadableOutputs.1 hq
  obtain ⟨parsed, -, hparsed, herr, hpart⟩ := h.mem_output hq
  have hnumber : (synthesizeUnreadableErrorPart env unreadableCompletedOutputPartMessage
      q).partNumber = q.partNumber := rfl
  have hlocal : (synthesizeUnreadableErrorPart env unreadableCompletedOutputPartMessage q).isLocal = true := rfl
  simp [partBody, hlocal, provide_synthesized, hnumber, errorRecord, hparsed, herr, ← hpart]

def Stored.deleteKey (s : Stored) (idx : Nat) : Stored :=
  { s with metastore := s.metastore.set idx none }

theorem objects_foldl_deleteKey (keys : List Nat) (s : Stored) : (keys.foldl deleteKey s).objects = s.objects := by
  induction keys generalizing s with
  | nil => rfl
  | cons i keys ih => exact ih _

theorem metastore_foldl_deleteKey (keys : List Nat) (s : Stored) (i : Nat) :
    (keys.foldl deleteKey s).metastore i = if i ∈ keys then none else s.metastore i := by
  induction keys generalizing s with
  | nil => simp
  | cons j keys ih =>
    rw [foldl_cons, ih]
    by_cases hj : i = j
    · subst hj
      simp [deleteKey]
    · simp [deleteKey, Metastore.set_other _ _ hj, hj]

theorem deleteKeys_returns (keys : List Nat) (s : Stored) :
    (deleteKeys keys).Returns s () (keys.foldl deleteKey s) := by
  have hstep : ∀ i ∈ keys, ∀ (u : Unit) (t : Stored), True →
      (deleteMetadata i).Returns t u (t.deleteKey i) := fun _ _ _ _ _ => .op rfl
  exact Proc.Returns.fold hstep (fun _ _ _ _ => trivial) () trivial

/-! ## Assembling -/

theorem updateCounts_eq {job : JobStatus} {total : Nat} (launched completed failed : Nat)
    (h : job.requestCounts.total ≤ total) : job.updateCounts total launched completed failed =
      { job with requestCounts := ⟨total, launched, completed, failed⟩ } := by
  unfold JobStatus.updateCounts
  split
  · congr 2
    split <;> omega
  rename_i hsame
  simp only [not_or, not_not] at hsame
  obtain ⟨htotal, hlength, hcompleted, hfailed⟩ := hsame
  rw [← htotal, ← hlength, ← hcompleted, ← hfailed]

theorem le_finalTotal (total : Nat) (c : Collected) : total ≤ finalTotal total c := by
  unfold finalTotal
  dsimp only
  split_ifs <;> omega

theorem length_le_finalTotal (h : Collects s.metastore keys c) (total : Nat) {indices : List Nat}
    (hnodup : indices.Nodup) (hlisted : ∀ i ∈ indices, i ∈ keys) : indices.length ≤ finalTotal total c := by
  cases indices with
  | nil => exact Nat.zero_le _
  | cons i rest =>
    have hfirst : i ∈ keys := hlisted i mem_cons_self
    have hpos : 0 < c.launched := by
      rw [h.launched]
      exact length_pos_of_mem hfirst
    have hsub : i :: rest ⊆ range (c.maxIndex + 1).toNat := by
      intro j hj
      have := h.bound j (hlisted j hj)
      rw [mem_range]
      omega
    have hle := (hnodup.subperm hsub).length_le
    rw [length_range] at hle
    unfold finalTotal
    simp only [hpos, if_true]
    split <;> omega

structure Assembled (env : FinalizeEnv) (ids : FileIds) (s : Stored) (c : Collected)
    (outIdx errIdx : List Nat) (s' : Stored) : Prop where
  out_increasing : outIdx.Pairwise (· < ·)
  err_increasing : errIdx.Pairwise (· < ·)
  mem_out : ∀ i, i ∈ outIdx ↔ i ∈ partNumbers c.output ∧ (stagedOutput env ids s i).isSome
  mem_err : ∀ i, i ∈ errIdx ↔ i ∈ partNumbers c.error ∨ (i ∈ partNumbers c.output ∧ stagedOutput env ids s i = none)
  output_file : s'.objects.lookup (.file ids.outputFileId) = some (outIdx.flatMap (outputRecord env ids s))
  error_file : s'.objects.lookup (.file ids.errorFileId) = some (errIdx.flatMap (errorRecord env ids s))
  metastore : ∀ i, s'.metastore i = if i ∈ c.validKeys then none else s.metastore i

section

variable (env ids s c)

def outputStored : Stored :=
  completed env.unreadable s ids.outputFileId ids.tempOutputFileId c.output none

def rerouted : Rerouted := reroute env c (unreadableOutputs env ids s c)

def errorStored : Stored :=
  completed env.unreadable (outputStored env ids s c) ids.errorFileId ids.tempErrorFileId
    (rerouted env ids s c).error (some (provideLocalErrorPart env))

def cleanedStored : Stored :=
  if (rerouted env ids s c).parts = [] then errorStored env ids s c
  else (errorStored env ids s c).dropUpload ids.tempOutputFileId

def assembledStored : Stored := c.validKeys.foldl Stored.deleteKey (cleanedStored env ids s c)

end

theorem lookup_cleanedStored {key : ObjectKey} (h : key.underUpload ids.tempOutputFileId = false) :
    (cleanedStored env ids s c).objects.lookup key = (errorStored env ids s c).objects.lookup key := by
  unfold cleanedStored
  split
  · rfl
  · rw [lookup_dropUpload, h]
    rfl

theorem metastore_cleanedStored : (cleanedStored env ids s c).metastore = s.metastore := by
  unfold cleanedStored errorStored outputStored
  split <;> simp

section

variable (hprep : Prepared env ids s)
include hprep

theorem lookup_outputStored {key : ObjectKey}
    (hunder : key.underUpload ids.tempErrorFileId = true) :
    (outputStored env ids s c).objects.lookup key = s.objects.lookup key := by
  apply lookup_completed_other
  · rintro rfl
    cases hunder
  cases key with
  | file id => cases hunder
  | uploadMetadata uploadId | uploadPart uploadId n =>
    simp only [ObjectKey.underUpload, decide_eq_true_eq, decide_eq_false_iff_not] at hunder ⊢
    rw [hunder]
    exact hprep.uploads_ne.symm

omit hprep in
theorem unreadableOutputs_nodup (h : Collects s.metastore keys c) (hkeys : keys.Nodup) :
    (partNumbers (c.error ++ unreadableOutputs env ids s c)).Nodup := by
  have hsub : (partNumbers (unreadableOutputs env ids s c)).Sublist
      (partNumbers (sortByPartNumber c.output)) := filter_sublist.map _
  have hsorted : (partNumbers (sortByPartNumber c.output)).Nodup :=
    ((perm_sortByPartNumber c.output).map _).nodup_iff.2 (h.outputNumbers_nodup hkeys)
  rw [partNumbers, map_append, nodup_append]
  refine ⟨h.errorNumbers_nodup hkeys, hsub.nodup hsorted, ?_⟩
  rintro i herr j hunder rfl
  apply h.numbers_disjoint herr
  exact ((perm_sortByPartNumber c.output).map _).mem_iff.1 (hsub.subset hunder)

def outputIndices (env : FinalizeEnv) (ids : FileIds) (s : Stored) (c : Collected) : List Nat :=
  partNumbers ((sortByPartNumber c.output).filter
    (fun p => (partBody env.unreadable s ids.tempOutputFileId none p).isSome))

def errorIndices (env : FinalizeEnv) (ids : FileIds) (s : Stored) (c : Collected) : List Nat :=
  partNumbers (sortByPartNumber (rerouted env ids s c).error)

theorem assembled_spec (h : Collects s.metastore keys c) (hkeys : keys.Nodup) :
    Assembled env ids s c (outputIndices env ids s c) (errorIndices env ids s c) (assembledStored env ids s c) := by
  have hr : Reroutes env c (unreadableOutputs env ids s c) (rerouted env ids s c) :=
    (reroute_spec env (unreadableOutputs_nodup h hkeys))
  refine ⟨?_, ?_, ?_, ?_, ?_, ?_, ?_⟩
  · exact (sortByPartNumber_increasing (h.outputNumbers_nodup hkeys)).sublist (List.filter_sublist.map _)
  · exact sortByPartNumber_increasing (hr.perm_numbers.nodup_iff.2 (unreadableOutputs_nodup h hkeys))
  · intro i
    simp only [outputIndices, partNumbers, List.mem_map, List.mem_filter, mem_sortByPartNumber]
    constructor
    · rintro ⟨p, ⟨hp, hsame⟩, rfl⟩
      exact ⟨⟨p, hp, rfl⟩, hsame⟩
    · rintro ⟨⟨p, hp, rfl⟩, hsame⟩
      exact ⟨p, ⟨hp, hsame⟩, rfl⟩
  · intro i
    simp only [errorIndices, partNumbers, List.mem_map, mem_sortByPartNumber, hr.mem_error]
    constructor
    · rintro ⟨p, hp | ⟨q, hq, rfl⟩, rfl⟩
      · exact .inl ⟨p, hp, rfl⟩
      · obtain ⟨houtput, hnone⟩ := mem_unreadableOutputs.1 hq
        exact .inr ⟨⟨q, houtput, rfl⟩, hnone⟩
    · rintro (⟨p, hp, rfl⟩ | ⟨⟨q, hq, rfl⟩, hnone⟩)
      · exact ⟨p, .inl hp, rfl⟩
      · exact ⟨_, .inr ⟨q, mem_unreadableOutputs.2 ⟨hq, hnone⟩, rfl⟩, rfl⟩
  · have hne : (ObjectKey.file ids.outputFileId) ≠ .file ids.errorFileId := by
      simpa using hprep.files_ne
    rw [assembledStored, objects_foldl_deleteKey, lookup_cleanedStored rfl, errorStored,
      lookup_completed_other _ _ _ _ _ _ hne rfl, outputStored, lookup_completed_file,
      flatten_bodies (outputRecord env ids s)]
    · rfl
    · intro p _ data hbody
      have hstaged : stagedOutput env ids s p.partNumber = some data := hbody
      simp [outputRecord, hstaged]
  · have hread : ∀ i, stagedError env ids (outputStored env ids s c) i = stagedError env ids s i := by
      intro i
      apply Stored.read_eq_of_lookup
      exact lookup_outputStored hprep (by simp [ObjectKey.underUpload])
    have hbody : ∀ p ∈ sortByPartNumber (rerouted env ids s c).error,
        partBody env.unreadable (outputStored env ids s c) ids.tempErrorFileId
          (some (provideLocalErrorPart env)) p = some (errorRecord env ids s p.partNumber) :=
      fun p hp => body_error h hr hread (mem_sortByPartNumber.1 hp)
    rw [assembledStored, objects_foldl_deleteKey, lookup_cleanedStored rfl, errorStored,
      lookup_completed_file, flatten_bodies (errorRecord env ids s)]
    · rw [errorIndices, filter_eq_self.2]
      intro p hp
      rw [hbody p hp]
      rfl
    · intro p hp data hdata
      rw [hbody p hp] at hdata
      exact some.inj hdata
  · intro i
    rw [assembledStored, metastore_foldl_deleteKey, metastore_cleanedStored]

omit hprep in
theorem length_outputIndices : (outputIndices env ids s c).length + (unreadableOutputs env ids s c).length =
      c.output.length := by
  have hsplit := length_eq_length_filter_add (l := sortByPartNumber c.output)
    (fun p => (partBody env.unreadable s ids.tempOutputFileId none p).isSome)
  have hnone : (sortByPartNumber c.output).filter
      (fun p => !(partBody env.unreadable s ids.tempOutputFileId none p).isSome) =
      unreadableOutputs env ids s c := by
    apply filter_congr
    intro p _
    cases partBody env.unreadable s ids.tempOutputFileId none p <;> rfl
  rw [hnone, (perm_sortByPartNumber c.output).length_eq] at hsplit
  rw [outputIndices, partNumbers, length_map]
  exact hsplit.symm

omit hprep in
theorem rerouted_counts (env : FinalizeEnv) (ids : FileIds) (h : Collects s.metastore keys c) (hkeys : keys.Nodup) :
    (rerouted env ids s c).completed = (outputIndices env ids s c).length ∧
      (rerouted env ids s c).failed = (errorIndices env ids s c).length := by
  have hr : Reroutes env c (unreadableOutputs env ids s c) (rerouted env ids s c) :=
    (reroute_spec env (unreadableOutputs_nodup h hkeys))
  have hlength : (outputIndices env ids s c).length + (unreadableOutputs env ids s c).length =
      c.output.length := length_outputIndices
  constructor
  · rw [hr.completed, h.completed]
    omega
  · have hprep := hr.perm_numbers.length_eq
    simp only [partNumbers, length_map, length_append] at hprep
    rw [hr.failed, h.failed, errorIndices, partNumbers, length_map, (perm_sortByPartNumber _).length_eq, hprep]

theorem completeOutput_returns :
    (completeMultipartUpload env.unreadable ids.outputFileId ids.tempOutputFileId c.output true
      none).Returns s (unreadableOutputs env ids s c) (outputStored env ids s c) := by
  obtain ⟨data, hdata⟩ := isSome_iff_exists.1 hprep.output_upload
  exact completeMultipartUpload_returns env.unreadable s ids.outputFileId hdata c.output none

omit hprep in
theorem no_unexpected_parts : (sortByPartNumber (rerouted env ids s c).error).filter
      (fun p => partBody env.unreadable (outputStored env ids s c) ids.tempErrorFileId
        (some (provideLocalErrorPart env)) p = none) = [] := by
  rw [filter_eq_nil_iff]
  intro p _
  simpa using partBody_provider_ne_none _ _ _ _ p

theorem completeError_returns :
    (completeMultipartUpload env.unreadable ids.errorFileId ids.tempErrorFileId
      (rerouted env ids s c).error true (some (provideLocalErrorPart env))).Returns
      (outputStored env ids s c) [] (errorStored env ids s c) := by
  obtain ⟨data, hdata⟩ := isSome_iff_exists.1 hprep.error_upload
  have hupload : (outputStored env ids s c).read env.unreadable (.uploadMetadata ids.tempErrorFileId) = some data := by
    rw [← hdata]
    apply read_eq_of_lookup
    exact lookup_outputStored hprep (by simp [ObjectKey.underUpload])
  have hcompleted := completeMultipartUpload_returns env.unreadable (outputStored env ids s c)
    ids.errorFileId hupload (rerouted env ids s c).error (some (provideLocalErrorPart env))
  rw [no_unexpected_parts] at hcompleted
  exact hcompleted

omit hprep in
theorem abortRerouted_returns : (abortRerouted ids.tempOutputFileId (rerouted env ids s c).parts).Returns
      (errorStored env ids s c) () (cleanedStored env ids s c) := by
  unfold abortRerouted cleanedStored
  split
  · exact .pure _ _
  · exact abortMultipartUpload_returns _ _

theorem assemble_returns (h : Collects s.metastore keys c)
    (hkeys : keys.Nodup) (job : JobStatus) : (assemble env ids job c).Returns s { job with
        requestCounts := ⟨finalTotal job.requestCounts.total c, c.launched,
          (outputIndices env ids s c).length, (errorIndices env ids s c).length⟩ }
      (assembledStored env ids s c) := by
  obtain ⟨hcompleted, hfailed⟩ := rerouted_counts env ids h hkeys
  apply (completeOutput_returns hprep).bind
  apply (completeError_returns hprep).bind
  apply abortRerouted_returns.bind
  apply (deleteKeys_returns c.validKeys _).bind
  rw [← hcompleted, ← hfailed, ← updateCounts_eq _ _ _ (le_finalTotal job.requestCounts.total c)]
  exact .pure _ _

end

variable {pages : List (List Nat)}

theorem Lists.keys_nodup {m : Metastore} (h : Lists pages m) :
    (listedKeys pages).Nodup := (perm_listedKeys pages).nodup_iff.2 h.nodup

theorem Lists.mem_keys {m : Metastore} (h : Lists pages m) {i : Nat}
    (hresult : (resultOf m i).isSome) : i ∈ listedKeys pages := by
  rw [(perm_listedKeys pages).mem_iff]
  apply h.covers
  cases hval : m i with
  | none => simp [resultOf, hval] at hresult
  | some v => rfl

def finalizedJob (env : FinalizeEnv) (ids : FileIds) (s : Stored) (c : Collected) (job : JobStatus) : JobStatus :=
  { job with
    requestCounts := ⟨finalTotal job.requestCounts.total c, c.launched,
      (outputIndices env ids s c).length, (errorIndices env ids s c).length⟩ }

theorem finalize_returns {job : JobStatus} (hids : job.fileIds = some ids) (hprep : Prepared env ids s)
    (hlisted : Lists pages s.metastore) : ∃ c, Collects s.metastore (listedKeys pages) c ∧
      (finalizeJobOutputData env pages job).Returns s (finalizedJob env ids s c job) (assembledStored env ids s c) := by
  obtain ⟨c, hcollect, h⟩ := collect_returns (s := s) pages
  refine ⟨c, h, ?_⟩
  unfold finalizeJobOutputData
  rw [hids]
  exact hcollect.bind (assemble_returns hprep h hlisted.keys_nodup job)

theorem finalize_partitions (env : FinalizeEnv) (ids : FileIds) (job : JobStatus)
    (pages : List (List Nat)) (s : Stored) (hids : job.fileIds = some ids)
    (hprep : Prepared env ids s) (hlists : Lists pages s.metastore) :
    ∃ outIdx errIdx job' s', (finalizeJobOutputData env pages job).Returns s job' s' ∧
      Partitions env ids s job outIdx errIdx job' s' := by
  obtain ⟨c, h, hreturns⟩ := finalize_returns hids hprep hlists
  have hkeys := hlists.keys_nodup
  have ha := assembled_spec hprep h hkeys
  have hout : ∀ i, i ∈ outputIndices env ids s c ↔ IsSuccess s i ∧ (stagedOutput env ids s i).isSome := by
    intro i
    rw [ha.mem_out, h.mem_outputNumbers hlists.mem_keys]
  have herr : ∀ i, i ∈ errorIndices env ids s c ↔
      IsFailure s i ∨ (IsSuccess s i ∧ stagedOutput env ids s i = none) := by
    intro i
    rw [ha.mem_err, h.mem_outputNumbers hlists.mem_keys, h.mem_errorNumbers hlists.mem_keys]
  have hdisjoint : ∀ i ∈ outputIndices env ids s c, i ∉ errorIndices env ids s c := by
    intro i hi hmem
    obtain ⟨hsuccess, hsome⟩ := (hout i).1 hi
    rcases (herr i).1 hmem with hfailure | ⟨-, hnone⟩
    · exact isFailure_not_isSuccess hfailure hsuccess
    · rw [hnone] at hsome
      cases hsome
  refine ⟨_, _, _, _, hreturns, ha.out_increasing, ha.err_increasing, hout, herr, hdisjoint,
    ha.output_file, ha.error_file, rfl, rfl, ?_, le_finalTotal _ _, ?_⟩
  · have hnodup : (outputIndices env ids s c ++ errorIndices env ids s c).Nodup := by
      rw [nodup_append]
      refine ⟨ha.out_increasing.imp Nat.ne_of_lt, ha.err_increasing.imp Nat.ne_of_lt, ?_⟩
      rintro i hi j hj rfl
      exact hdisjoint i hi hj
    have hlength := length_le_finalTotal h job.requestCounts.total hnodup (by
      intro i hi
      apply hlists.mem_keys
      rcases mem_append.1 hi with hi | hi
      · obtain ⟨⟨parsed, hparsed, -⟩, -⟩ := (hout i).1 hi
        rw [hparsed]
        rfl
      rcases (herr i).1 hi with ⟨parsed, hparsed, -⟩ | ⟨⟨parsed, hparsed, -⟩, -⟩
      all_goals
        rw [hparsed]
        rfl)
    rw [length_append] at hlength
    exact hlength
  · intro i
    rw [ha.metastore, h.validKeys]
    by_cases hresult : (resultOf s.metastore i).isSome = true
    · simp [hresult, hlists.mem_keys hresult]
    · simp [hresult]

/-! ## A small job -/

def sampleIds : FileIds := ⟨"output", "error", "upload-1", "upload-2"⟩

def sampleJob : JobStatus :=
  ⟨⟨4, 4, 2, 1⟩, some "output", some "error", some "upload-1", some "upload-2"⟩

/-- The part of request 2 cannot be read. -/
def sampleEnv : FinalizeEnv where
  unreadable key := key = .uploadPart "upload-1" 2
  encode record := [UInt8.ofNat record.line]
  md5 _ := "etag"

/-- Requests 0 and 2 succeeded, 1 failed, 3 is still locked and 5 is gone. -/
def sampleMetastore : Metastore := fun i =>
  if i = 0 then some (requestMetaOutputVal false "a" none)
  else if i = 1 then some (.text "error:b")
  else if i = 2 then some (requestMetaOutputVal false "c" (some "third"))
  else if i = 3 then some statusRequestLocking
  else none

def sampleStored : Stored :=
  ((((Stored.mk ∅ sampleMetastore).putObject (.uploadMetadata "upload-1") []).putObject
    (.uploadMetadata "upload-2") []).putObject (.uploadPart "upload-1" 0) [10]).putObject
    (.uploadPart "upload-2" 1) [11]

theorem sample_prepared : Prepared sampleEnv sampleIds sampleStored :=
  ⟨by decide, by decide, by decide, by decide⟩

theorem finalize_partitions_sample : sampleJob.fileIds = some sampleIds ∧ ∃ outIdx errIdx job' s',
        (finalizeJobOutputData sampleEnv [[2, 5], [3, 0], [1]] sampleJob).Returns sampleStored job' s' ∧
        Partitions sampleEnv sampleIds sampleStored sampleJob outIdx errIdx job' s' := by
  refine ⟨rfl, finalize_partitions _ _ _ _ _ rfl sample_prepared ⟨by decide, ?_⟩⟩
  intro i hi
  have hi : (sampleMetastore i).isSome = true := hi
  unfold sampleMetastore at hi
  split_ifs at hi <;> simp_all

/-! ## What changes before the clean-up -/

section

variable {m : Metastore}

def KeepsKeys (m : Metastore) (t : Stored) : Prop := t.metastore = m

variable (unreadable : ObjectKey → Bool) (upload : String)

theorem getObject_keepsKeys (key : ObjectKey)
    (h : KeepsKeys m s) : (getObject unreadable key).Throughout (KeepsKeys m) s := .op h h

theorem abortMultipartUpload_keepsKeys (h : KeepsKeys m s) :
    (abortMultipartUpload upload).Throughout (KeepsKeys m) s := by
  have hlist : (listObjects upload).Throughout (KeepsKeys m) s := .op h h
  apply hlist.seq
  intro keys t ht
  exact .fold (fun _ _ _ _ hu => .op hu hu) () ht

theorem loadPart_keepsKeys (tolerate : Bool) (provider : Option (Part → Bytes)) (part : Part) (h : KeepsKeys m s) :
    (loadPart unreadable upload tolerate provider part).Throughout (KeepsKeys m) s := by
  unfold loadPart
  split
  · exact .pure _ h
  apply (getObject_keepsKeys unreadable (.uploadPart upload part.partNumber) h).attempt.seq
  intro r t ht
  split
  · exact .pure _ ht
  · split
    · exact .pure _ ht
    · exact .fail _ ht

theorem addPart_keepsKeys (tolerate : Bool) (provider : Option (Part → Bytes)) (acc : Bytes × List Part) (part : Part)
    (h : KeepsKeys m s) : (addPart unreadable upload tolerate provider acc part).Throughout (KeepsKeys m) s := by
  have hload := loadPart_keepsKeys unreadable upload tolerate provider part h
  unfold addPart
  split
  · apply hload.attempt.seq
    intro r t ht
    split <;> exact .pure _ ht
  · exact hload.seq fun data t ht => .pure _ ht

theorem completeMultipartUpload_keepsKeys (key upload : String)
    (parts : List Part) (tolerate : Bool) (provider : Option (Part → Bytes)) (h : KeepsKeys m s) :
    (completeMultipartUpload unreadable key upload parts tolerate provider).Throughout (KeepsKeys m) s := by
  apply (getObject_keepsKeys unreadable (.uploadMetadata upload) h).attempt.seq
  intro r s₁ hs₁
  split
  · exact .fail _ hs₁
  have hgathered : (Proc.fold (addPart unreadable upload tolerate provider)
      (sortByPartNumber parts) ([], [])).Throughout (KeepsKeys m) s₁ :=
    .fold (fun part _ acc _ ht =>
      addPart_keepsKeys unreadable upload tolerate provider acc part ht) _ hs₁
  apply hgathered.seq
  intro gathered s₂ hs₂
  have hput : (putObject (.file key) gathered.1).Throughout (KeepsKeys m) s₂ := .op hs₂ hs₂
  apply hput.seq
  intro _ s₃ hs₃
  split
  · exact (abortMultipartUpload_keepsKeys upload hs₃).seq fun _ _ ht => .pure _ ht
  · exact .pure _ hs₃

theorem collect_keepsKeys (pages : List (List Nat)) (h : KeepsKeys m s) :
    (Proc.fold collectPage pages Collected.empty).Throughout (KeepsKeys m) s := by
  apply Proc.Throughout.fold _ _ h
  intro page _ c t ht
  have hlisted : (listPage page).Throughout (KeepsKeys m) t := .op ht ht
  apply hlisted.seq
  intro keys t₁ ht₁
  have hgathered : (getMetadataAll (keys.insertionSort (· ≤ ·))).Throughout (KeepsKeys m) t₁ := by
    apply Proc.Throughout.fold _ _ ht₁
    intro i _ acc t₂ ht₂
    have hget : (getMetadata i).Throughout (KeepsKeys m) t₂ := .op ht₂ ht₂
    exact hget.seq fun _ _ ht => .pure _ ht
  exact hgathered.seq fun _ _ ht => .pure _ ht

end

/-- Keys are deleted only after the staged objects of the error file are gone. -/
def KeysOrCleaned (ids : FileIds) (m : Metastore) (t : Stored) : Prop :=
  t.metastore = m ∨ t.objects.lookup (.uploadMetadata ids.tempErrorFileId) = none

open ObjectKey

theorem lookup_cleanedStored_upload (hprep : Prepared env ids s) :
    (cleanedStored env ids s c).objects.lookup (.uploadMetadata ids.tempErrorFileId) = none := by
  rw [lookup_cleanedStored, errorStored, completed, if_pos no_unexpected_parts, Stored.lookup_dropUpload, if_pos]
  · simp [underUpload]
  · simpa [underUpload] using hprep.uploads_ne.symm

theorem deleteKeys_cleaned (validKeys : List Nat) {key : ObjectKey} {t : Stored} (h : t.objects.lookup key = none) :
    (deleteKeys validKeys).Throughout (fun u => u.objects.lookup key = none) t :=
  .fold (fun _ _ _ _ hu => .op hu hu) () h

theorem assemble_keysOrCleaned (hprep : Prepared env ids s) (job : JobStatus) :
    (assemble env ids job c).Throughout (KeysOrCleaned ids s.metastore) s := by
  have hkept : ∀ t, KeepsKeys s.metastore t → KeysOrCleaned ids s.metastore t :=
    fun _ ht => .inl ht
  have hcleaned : ∀ t : Stored, t.objects.lookup (.uploadMetadata ids.tempErrorFileId) = none →
      KeysOrCleaned ids s.metastore t := fun _ ht => .inr ht
  have houtput := completeMultipartUpload_keepsKeys env.unreadable ids.outputFileId
    ids.tempOutputFileId c.output true none (rfl : KeepsKeys s.metastore s)
  apply (houtput.imp hkept).bind
  intro unreadableParts s₁ hs₁
  have hkept₁ := houtput.final hs₁
  obtain ⟨rfl, rfl⟩ := (completeOutput_returns hprep).unique hs₁
  have herr := completeMultipartUpload_keepsKeys env.unreadable ids.errorFileId
    ids.tempErrorFileId (rerouted env ids s c).error true (some (provideLocalErrorPart env)) hkept₁
  apply (herr.imp hkept).bind
  intro unexpected s₂ hs₂
  have hkept₂ := herr.final hs₂
  obtain ⟨rfl, rfl⟩ := (completeError_returns hprep).unique hs₂
  have hrequired : (requireNoFailedParts []).Throughout (KeepsKeys s.metastore) (errorStored env ids s c) :=
    .pure _ hkept₂
  apply (hrequired.imp hkept).bind
  rintro - s₃ ⟨-, rfl⟩
  have habort : (abortRerouted ids.tempOutputFileId (rerouted env ids s c).parts).Throughout
      (KeepsKeys s.metastore) (errorStored env ids s c) := by
    unfold abortRerouted
    split
    · exact .pure _ hkept₂
    · exact abortMultipartUpload_keepsKeys _ hkept₂
  apply (habort.imp hkept).bind
  intro _ s₄ hs₄
  obtain ⟨-, rfl⟩ := abortRerouted_returns.unique hs₄
  have hdeleted := deleteKeys_cleaned c.validKeys (lookup_cleanedStored_upload (c := c) hprep)
  apply (hdeleted.imp hcleaned).bind
  intro _ s₅ hs₅
  exact .pure _ (hcleaned _ (hdeleted.final hs₅))

theorem finalize_keysOrCleaned {job : JobStatus} (pages : List (List Nat))
    (hids : job.fileIds = some ids) (hprep : Prepared env ids s) :
    (finalizeJobOutputData env pages job).Throughout (KeysOrCleaned ids s.metastore) s := by
  unfold finalizeJobOutputData
  rw [hids]
  have hcleaned := collect_keepsKeys pages (rfl : KeepsKeys s.metastore s)
  apply (hcleaned.imp fun _ ht => .inl ht).bind
  intro c t ht
  obtain ⟨c', hcleaned', -⟩ := collect_returns (s := s) pages
  obtain ⟨rfl, rfl⟩ := hcleaned'.unique ht
  exact assemble_keysOrCleaned hprep job

/-! ## A recovered job runs `finalize_job_output_data` again from the start -/

/-- No staged object of the two uploads has been deleted or changed since `s`. -/
def StagedIntact (ids : FileIds) (s t : Stored) : Prop :=
  ∀ key : ObjectKey, key.underUpload ids.tempOutputFileId ∨ key.underUpload ids.tempErrorFileId →
    t.objects.lookup key = s.objects.lookup key

structure ListsExactly (pages : List (List Nat)) (m : Metastore) : Prop where
  nodup : pages.flatten.Nodup
  mem_iff : ∀ i, i ∈ pages.flatten ↔ (m i).isSome

theorem ListsExactly.lists {pages : List (List Nat)} {m : Metastore} (h : ListsExactly pages m) :
    Lists pages m := ⟨h.nodup, fun i => (h.mem_iff i).2⟩

theorem metastore_of_intact {job : JobStatus} {pages : List (List Nat)} {t : Stored}
    (hids : job.fileIds = some ids) (hprep : Prepared env ids s)
    (ht : t ∈ (finalizeJobOutputData env pages job s).points) (hintact : StagedIntact ids s t) :
    t.metastore = s.metastore := by
  rcases (finalize_keysOrCleaned pages hids hprep).1 t ht with hsame | hgone
  · exact hsame
  have hupload := hprep.error_upload
  rw [hintact _ (.inr (by simp [underUpload]))] at hgone
  unfold Stored.read at hupload
  rw [hgone] at hupload
  split at hupload <;> cases hupload

section

variable {t : Stored}

section

variable (hintact : StagedIntact ids s t)
include hintact

theorem read_of_intact (unreadable : ObjectKey → Bool) {key : ObjectKey}
    (h : key.underUpload ids.tempOutputFileId ∨ key.underUpload ids.tempErrorFileId) :
    t.read unreadable key = s.read unreadable key :=
  Stored.read_eq_of_lookup (hintact key h)

theorem Prepared.of_intact (hprep : Prepared env ids s) : Prepared env ids t where
  files_ne := hprep.files_ne
  uploads_ne := hprep.uploads_ne
  output_upload := by
    rw [read_of_intact hintact _ (.inl (by simp [underUpload]))]
    exact hprep.output_upload
  error_upload := by
    rw [read_of_intact hintact _ (.inr (by simp [underUpload]))]
    exact hprep.error_upload

theorem stagedOutput_of_intact (i : Nat) : stagedOutput env ids t i = stagedOutput env ids s i :=
  read_of_intact hintact _ (.inl (by simp [underUpload]))

theorem stagedError_of_intact (i : Nat) : stagedError env ids t i = stagedError env ids s i :=
  read_of_intact hintact _ (.inr (by simp [underUpload]))

end

theorem Collects.maxIndex_eq {m : Metastore} {keys' : List Nat} {c' : Collected}
    (h : Collects m keys c) (h' : Collects m keys' c') (hmem : ∀ i, i ∈ keys ↔ i ∈ keys') :
    c'.maxIndex = c.maxIndex := by
  have hatt := h.attained
  have hattained' := h'.attained
  rcases hatt with hempty | ⟨i, hi, heq⟩ <;> rcases hattained' with hempty' | ⟨j, hj, heq'⟩
  · omega
  · have := h.bound j ((hmem j).2 hj)
    omega
  · have := h'.bound i ((hmem i).1 hi)
    omega
  · have := h.bound j ((hmem j).2 hj)
    have := h'.bound i ((hmem i).1 hi)
    omega

theorem assembled_eq {keys' : List Nat} {c' : Collected} (hprep : Prepared env ids s)
    (hintact : StagedIntact ids s t) (hmeta : t.metastore = s.metastore)
    (h : Collects s.metastore keys c) (h' : Collects t.metastore keys' c') (hkeys : keys.Nodup) (hkeys' : keys'.Nodup)
    (hlisted : ∀ i, (resultOf s.metastore i).isSome → i ∈ keys)
    (hlisted' : ∀ i, (resultOf t.metastore i).isSome → i ∈ keys') :
    outputIndices env ids t c' = outputIndices env ids s c ∧ errorIndices env ids t c' = errorIndices env ids s c ∧
      (assembledStored env ids t c').objects.lookup (.file ids.outputFileId) =
        (assembledStored env ids s c).objects.lookup (.file ids.outputFileId) ∧
      (assembledStored env ids t c').objects.lookup (.file ids.errorFileId) =
        (assembledStored env ids s c).objects.lookup (.file ids.errorFileId) := by
  have ha := assembled_spec hprep h hkeys
  have ha' := assembled_spec (hprep.of_intact hintact) h' hkeys'
  have hsuccess : ∀ i, IsSuccess t i ↔ IsSuccess s i := by
    intro i
    simp [IsSuccess, hmeta]
  have hfailed : ∀ i, IsFailure t i ↔ IsFailure s i := by
    intro i
    simp [IsFailure, hmeta]
  have hout : outputIndices env ids t c' = outputIndices env ids s c := by
    apply ha'.out_increasing.eq_of_mem_iff ha.out_increasing
    intro i
    rw [ha'.mem_out, ha.mem_out, h'.mem_outputNumbers (hlisted' i), h.mem_outputNumbers (hlisted i),
      hsuccess, stagedOutput_of_intact hintact]
  have herr : errorIndices env ids t c' = errorIndices env ids s c := by
    apply ha'.err_increasing.eq_of_mem_iff ha.err_increasing
    intro i
    rw [ha'.mem_err, ha.mem_err, h'.mem_outputNumbers (hlisted' i), h.mem_outputNumbers (hlisted i),
      h'.mem_errorNumbers (hlisted' i), h.mem_errorNumbers (hlisted i), hsuccess, hfailed,
      stagedOutput_of_intact hintact]
  have houtputRecord : outputRecord env ids t = outputRecord env ids s := by
    funext i
    simp [outputRecord, stagedOutput_of_intact hintact]
  have herrorRecord : errorRecord env ids t = errorRecord env ids s := by
    funext i
    simp [errorRecord, hmeta, stagedError_of_intact hintact]
  refine ⟨hout, herr, ?_, ?_⟩
  · rw [ha'.output_file, ha.output_file, hout, houtputRecord]
  · rw [ha'.error_file, ha.error_file, herr, herrorRecord]

end

theorem finalize_uploadNotFound {job : JobStatus} (hids : job.fileIds = some ids)
    (hgone : s.read env.unreadable (.uploadMetadata ids.tempOutputFileId) = none) :
    (finalizeJobOutputData env pages job s).result = .error (.uploadNotFound ids.tempOutputFileId) := by
  obtain ⟨c, hcollect, -⟩ := collect_returns (s := s) pages
  have hget := getObject_attempt env.unreadable s (.uploadMetadata ids.tempOutputFileId)
  rw [Stored.fetch, hgone] at hget
  unfold finalizeJobOutputData
  rw [hids]
  exact hcollect.bind_result.trans (Proc.bind_error hget.bind_result)

/-- Interrupted while all staged objects are still there, finalisation run again from the
start gives the same files and counts as one uninterrupted run; once the record of the upload is gone, it fails. -/
theorem resumed_finalize_same (env : FinalizeEnv) (ids : FileIds) (job : JobStatus)
    (pages pages' : List (List Nat)) (s t : Stored) (hids : job.fileIds = some ids)
    (hprep : Prepared env ids s) (hlists : ListsExactly pages s.metastore) (hlists' : ListsExactly pages' t.metastore)
    (ht : t ∈ (finalizeJobOutputData env pages job s).points) :
    (StagedIntact ids s t → ∃ job' s' t', (finalizeJobOutputData env pages job).Returns s job' s' ∧
      (finalizeJobOutputData env pages' job).Returns t job' t' ∧
      t'.objects.lookup (.file ids.outputFileId) = s'.objects.lookup (.file ids.outputFileId) ∧
      t'.objects.lookup (.file ids.errorFileId) = s'.objects.lookup (.file ids.errorFileId)) ∧
    (t.read env.unreadable (.uploadMetadata ids.tempOutputFileId) = none →
      (finalizeJobOutputData env pages' job t).result = .error (.uploadNotFound ids.tempOutputFileId)) := by
  refine ⟨fun hintact => ?_, finalize_uploadNotFound hids⟩
  have hmeta := metastore_of_intact hids hprep ht hintact
  obtain ⟨c, h, hreturns⟩ := finalize_returns hids hprep hlists.lists
  obtain ⟨c', h', hreturns'⟩ := finalize_returns hids (hprep.of_intact hintact) hlists'.lists
  have hkeys := hlists.lists.keys_nodup
  have hkeys' := hlists'.lists.keys_nodup
  have hmem : ∀ i, i ∈ listedKeys pages ↔ i ∈ listedKeys pages' := by
    intro i
    rw [(perm_listedKeys pages).mem_iff, (perm_listedKeys pages').mem_iff, hlists.mem_iff, hlists'.mem_iff, hmeta]
  obtain ⟨hout, herr, houtput, herror⟩ := assembled_eq hprep hintact hmeta h h' hkeys hkeys'
    (fun i => hlists.lists.mem_keys) (fun i => hlists'.lists.mem_keys)
  have hlaunched : c'.launched = c.launched := by
    rw [h.launched, h'.launched]
    exact ((List.perm_ext_iff_of_nodup hkeys hkeys').2 hmem).length_eq.symm
  have hmax : c'.maxIndex = c.maxIndex := h.maxIndex_eq (hmeta ▸ h') hmem
  have hjob : finalizedJob env ids t c' job = finalizedJob env ids s c job := by
    simp [finalizedJob, finalTotal, hout, herr, hlaunched, hmax]
  rw [hjob] at hreturns'
  exact ⟨_, _, _, hreturns, hreturns', houtput, herror⟩

/-! ## One request -/

def oneIds : FileIds := ⟨"output", "error", "upload-1", "upload-2"⟩

def oneJob : JobStatus :=
  ⟨⟨1, 1, 1, 0⟩, some "output", some "error", some "upload-1", some "upload-2"⟩

def oneEnv : FinalizeEnv where
  unreadable _ := false
  encode record := [UInt8.ofNat record.line]
  md5 _ := "etag"

def oneMetastore : Metastore := fun i =>
  if i = 0 then some (requestMetaOutputVal false "a" none) else none

def oneStored : Stored :=
  (((Stored.mk ∅ oneMetastore).putObject (.uploadMetadata "upload-1") []).putObject
    (.uploadMetadata "upload-2") []).putObject (.uploadPart "upload-1" 0) [10]

theorem one_listed : ListsExactly [[0]] oneMetastore := by
  refine ⟨by decide, ?_⟩
  intro i
  unfold oneMetastore
  split <;> simp_all

def interruptedAt (k : Nat) : Option Stored :=
  (finalizeJobOutputData oneEnv [[0]] oneJob oneStored).points[k]?

/-- Interrupted after the output file is written and before its staged objects are deleted. -/
theorem resumed_finalize_same_written : interruptedAt 5 = some (oneStored.putObject (.file "output") [10]) ∧
      ∃ job' s' t', (finalizeJobOutputData oneEnv [[0]] oneJob).Returns oneStored job' s' ∧
        (finalizeJobOutputData oneEnv [[0]] oneJob).Returns (oneStored.putObject (.file "output") [10]) job' t' ∧
        t'.objects.lookup (.file "output") = s'.objects.lookup (.file "output") ∧
        t'.objects.lookup (.file "error") = s'.objects.lookup (.file "error") := by
  have hpoint : interruptedAt 5 = some (oneStored.putObject (.file "output") [10]) := rfl
  refine ⟨hpoint, (resumed_finalize_same oneEnv oneIds oneJob [[0]] [[0]] oneStored _ rfl
    ⟨by decide, by decide, by decide, by decide⟩ one_listed one_listed
    (List.mem_of_getElem? hpoint)).1 ?_⟩
  intro key hkey
  rw [Stored.lookup_putObject, if_neg]
  rintro rfl
  rcases hkey with hkey | hkey <;> cases hkey

/-- The output file is written and its staged objects are deleted; the run dies before it
turns to the error file, and the second run finds no upload. -/
theorem resumed_finalize_fails : (finalizeJobOutputData oneEnv [[0]] oneJob oneStored).result = .ok oneJob ∧
      ((interruptedAt 8).map fun t => (finalizeJobOutputData oneEnv [[0]] oneJob t).result) =
        some (.error (.uploadNotFound "upload-1")) := by
  decide

end Aibrix.Batch
