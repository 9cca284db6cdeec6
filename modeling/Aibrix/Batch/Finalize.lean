import Aibrix.Lib.Interruption
import Aibrix.Lib.KeyMap
import Aibrix.Batch.Worker
import Mathlib.Data.List.Sort

/-! # Assembling the output of a batch job

`finalize_job_output_data` of `storage/adapter.py`, over small-part uploads on a storage without native multipart
(`storage/base2.py`). -/

namespace Aibrix.Batch

open Lib

abbrev Bytes := List UInt8

inductive ObjectKey where
  | file (id : String)
  /-- `.multipart/{upload_id}/metadata` -/
  | uploadMetadata (uploadId : String)
  | uploadPart (uploadId : String) (partNumber : Nat)
deriving DecidableEq, Repr

/-- The key has the prefix `.multipart/{upload_id}/`. -/
def ObjectKey.underUpload (uploadId : String) : ObjectKey → Bool
  | .file _ => false
  | .uploadMetadata u => u = uploadId
  | .uploadPart u _ => u = uploadId

structure Stored where
  objects : KeyMap ObjectKey Bytes
  metastore : Metastore

inductive StorageError where
  | objectNotFound (key : ObjectKey)
  | uploadNotFound (uploadId : String)
  | partNotRetrieved (partNumber : Nat) (uploadId : String)
  | unexpectedFailedErrorParts
deriving DecidableEq, Repr

abbrev StorageProc := Proc Stored StorageError

/-- An entry of the `parts` argument; `isLocal` is `LOCAL_PART_PROVIDER_MARKER`. -/
structure Part where
  etag : String
  partNumber : Nat
  customId : Option String
  isLocal : Bool
deriving DecidableEq, Repr

/-! ## Operations -/

namespace Stored

variable (s : Stored)

def putObject (key : ObjectKey) (data : Bytes) : Stored :=
  { s with objects := s.objects.insert key data }

def deleteObject (key : ObjectKey) : Stored :=
  { s with objects := s.objects.erase key }

/-- What `get_object` reads; `unreadable` are the objects whose read raises. -/
def read (unreadable : ObjectKey → Bool) (key : ObjectKey) : Option Bytes :=
  if unreadable key then none else s.objects.lookup key

def fetch (unreadable : ObjectKey → Bool) (key : ObjectKey) : Except StorageError Bytes :=
  match s.read unreadable key with
  | some data => .ok data
  | none => .error (.objectNotFound key)

def listUpload (uploadId : String) : List ObjectKey :=
  s.objects.keys.filter (·.underUpload uploadId)

def dropUpload (uploadId : String) : Stored :=
  (s.listUpload uploadId).foldl deleteObject s

theorem metastore_foldl_deleteObject (keys : List ObjectKey) (s : Stored) :
    (keys.foldl deleteObject s).metastore = s.metastore := by
  induction keys generalizing s with
  | nil => rfl
  | cons key keys ih => exact ih _

theorem objects_foldl_deleteObject (keys : List ObjectKey) (s : Stored) :
    (keys.foldl deleteObject s).objects = KeyMap.eraseAll s.objects keys := by
  induction keys generalizing s with
  | nil => rfl
  | cons key keys ih => exact ih _

@[simp] theorem metastore_putObject (key : ObjectKey) (data : Bytes) :
    (s.putObject key data).metastore = s.metastore := rfl

@[simp] theorem metastore_dropUpload (upload : String) : (s.dropUpload upload).metastore = s.metastore :=
  metastore_foldl_deleteObject _ s

theorem lookup_putObject (key : ObjectKey) (data : Bytes) (key' : ObjectKey) :
    (s.putObject key data).objects.lookup key' = if key' = key then some data else s.objects.lookup key' :=
  KeyMap.lookup_insert_eq data key'

theorem lookup_dropUpload (upload : String) (key : ObjectKey) : (s.dropUpload upload).objects.lookup key =
      if key.underUpload upload then none else s.objects.lookup key := by
  rw [dropUpload, objects_foldl_deleteObject, KeyMap.lookup_eraseAll]
  by_cases hunder : key.underUpload upload = true
  · split
    · rfl
    rename_i hnot
    rw [AList.lookup_eq_none]
    intro hmem
    exact hnot (List.mem_filter.2 ⟨AList.mem_keys.1 hmem, hunder⟩)
  · rw [if_neg hunder, if_neg]
    intro hmem
    exact hunder (List.mem_filter.1 hmem).2

theorem read_eq_of_lookup {s t : Stored} {unreadable : ObjectKey → Bool} {key : ObjectKey}
    (h : t.objects.lookup key = s.objects.lookup key) : t.read unreadable key = s.read unreadable key := by
  simp [read, h]

end Stored

section

variable (unreadable : ObjectKey → Bool) (key : ObjectKey)

def getObject : StorageProc Bytes :=
  .op fun s => (s.fetch unreadable key, s)

def putObject (data : Bytes) : StorageProc Unit :=
  .op fun s => (.ok (), s.putObject key data)

def deleteObject : StorageProc Unit :=
  .op fun s => (.ok (), s.deleteObject key)

variable (uploadId : String)

def listObjects : StorageProc (List ObjectKey) :=
  .op fun s => (.ok (s.listUpload uploadId), s)

/-- `abort_multipart_upload`: the objects are collected first and then deleted one by one. -/
def abortMultipartUpload : StorageProc Unit := do
  let objectsToDelete ← listObjects uploadId
  Proc.fold (fun _ key => deleteObject key) objectsToDelete ()

def loadPart (tolerate : Bool) (provider : Option (Part → Bytes)) (part : Part) : StorageProc Bytes :=
  match provider, part.isLocal with
  | some provide, true => pure (provide part)
  | _, _ => do
    match ← (getObject unreadable (.uploadPart uploadId part.partNumber)).attempt with
    | .ok data => pure data
    | .error _ =>
      match provider, tolerate with
      | some provide, true => pure (provide part)
      | _, _ => .fail (.partNotRetrieved part.partNumber uploadId)

/-- One turn of `_iter_prefetched_staged_parts` and of the loop that consumes it: the data
so far and the parts that could not be read. -/
def addPart (tolerate : Bool) (provider : Option (Part → Bytes))
    (acc : Bytes × List Part) (part : Part) : StorageProc (Bytes × List Part) :=
  if tolerate then do
    match ← (loadPart unreadable uploadId tolerate provider part).attempt with
    | .ok data => pure (acc.1 ++ data, acc.2)
    | .error _ => pure (acc.1, acc.2 ++ [part])
  else do
    let data ← loadPart unreadable uploadId tolerate provider part
    pure (acc.1 ++ data, acc.2)

def sortByPartNumber (parts : List Part) : List Part :=
  parts.insertionSort (fun p q => p.partNumber ≤ q.partNumber)

/-- The end of `complete_multipart_upload`: the staged objects stay when a part could not be
read. -/
def finishUpload (key uploadId : String) (gathered : Bytes × List Part) : StorageProc (List Part) := do
  putObject (.file key) gathered.1
  if gathered.2 = [] then do
    abortMultipartUpload uploadId
    pure []
  else pure gathered.2

/-- `complete_multipart_upload`; the parts that could not be read are returned. -/
def completeMultipartUpload (key uploadId : String) (parts : List Part) (tolerate : Bool)
    (provider : Option (Part → Bytes)) : StorageProc (List Part) := do
  match ← (getObject unreadable (.uploadMetadata uploadId)).attempt with
  | .error _ => .fail (.uploadNotFound uploadId)
  | .ok _ => do
    let gathered ← Proc.fold (addPart unreadable uploadId tolerate provider)
      (sortByPartNumber parts) ([], [])
    finishUpload key uploadId gathered

end

/-! ## What the operations return -/

section

variable (unreadable : ObjectKey → Bool) (s : Stored)

theorem getObject_attempt (key : ObjectKey) : (getObject unreadable key).attempt.Returns s (s.fetch unreadable key) s :=
  .attempt (getObject unreadable key) s

variable (uploadId : String)

theorem abortMultipartUpload_returns : (abortMultipartUpload uploadId).Returns s () (s.dropUpload uploadId) := by
  have hstep : ∀ key ∈ s.listUpload uploadId, ∀ (u : Unit) (t : Stored), True →
      (deleteObject key).Returns t u (t.deleteObject key) := fun _ _ _ _ _ => .op rfl
  exact Proc.Returns.fold hstep (fun _ _ _ _ => trivial) () trivial

def partBody (uploadId : String) (provider : Option (Part → Bytes)) (part : Part) : Option Bytes :=
  match provider with
  | none => s.read unreadable (.uploadPart uploadId part.partNumber)
  | some provide =>
    if part.isLocal then some (provide part)
    else some ((s.read unreadable (.uploadPart uploadId part.partNumber)).getD (provide part))

theorem partBody_provider_ne_none (provide : Part → Bytes) (part : Part) :
    partBody unreadable s uploadId (some provide) part ≠ none := by
  unfold partBody
  dsimp only
  split <;> nofun

def gather (body : Part → Option Bytes) (acc : Bytes × List Part) (part : Part) : Bytes × List Part :=
  match body part with
  | some data => (acc.1 ++ data, acc.2)
  | none => (acc.1, acc.2 ++ [part])

theorem foldl_gather (body : Part → Option Bytes) (parts : List Part) (acc : Bytes × List Part) :
    parts.foldl (gather body) acc =
      (acc.1 ++ (parts.filterMap body).flatten, acc.2 ++ parts.filter (fun p => body p = none)) := by
  induction parts generalizing acc with
  | nil => simp
  | cons part parts ih =>
    rw [List.foldl_cons, ih]
    cases hbody : body part <;> simp [gather, hbody]

variable (provider : Option (Part → Bytes))

theorem loadPart_attempt (part : Part) : ∃ r, (loadPart unreadable uploadId true provider part).attempt.Returns s r s ∧
      r.toOption = partBody unreadable s uploadId provider part := by
  have hload : (loadPart unreadable uploadId true provider part s).final = s ∧
      (loadPart unreadable uploadId true provider part s).result.toOption =
        partBody unreadable s uploadId provider part := by
    unfold loadPart
    -- with and without a provider, marked or not, readable or not
    rcases provider with _ | provide <;> rcases hlocal : part.isLocal <;>
      rcases hread : s.read unreadable (.uploadPart uploadId part.partNumber) <;>
      simp [Proc.attempt, Proc.bind, Proc.pure, Proc.fail, Proc.op, bind, pure, getObject,
        Stored.fetch, partBody, Except.toOption, hlocal, hread]
  exact ⟨_, ⟨rfl, hload.1⟩, hload.2⟩

theorem addPart_returns (part : Part) (acc : Bytes × List Part) :
    (addPart unreadable uploadId true provider acc part).Returns s
      (gather (partBody unreadable s uploadId provider) acc part) s := by
  obtain ⟨r, hr, hbody⟩ := loadPart_attempt unreadable s uploadId provider part
  apply hr.bind
  unfold gather
  rw [← hbody]
  cases r with
  | error e | ok data => exact .pure _ _

def completed (key uploadId : String) (parts : List Part) (provider : Option (Part → Bytes)) : Stored :=
  let body := partBody unreadable s uploadId provider
  let written := s.putObject (.file key) ((sortByPartNumber parts).filterMap body).flatten
  if (sortByPartNumber parts).filter (fun p => body p = none) = [] then
    written.dropUpload uploadId
  else written

theorem completeMultipartUpload_returns (key : String) {upload : String} {data : Bytes}
    (hupload : s.read unreadable (.uploadMetadata upload) = some data) (parts : List Part)
    (provider : Option (Part → Bytes)) :
    (completeMultipartUpload unreadable key upload parts true provider).Returns s ((sortByPartNumber parts).filter
        (fun p => partBody unreadable s upload provider p = none))
      (completed unreadable s key upload parts provider) := by
  have hfetch : s.fetch unreadable (.uploadMetadata upload) = .ok data := by
    simp [Stored.fetch, hupload]
  have hget := getObject_attempt unreadable s (.uploadMetadata upload)
  rw [hfetch] at hget
  apply hget.bind
  have hstep : ∀ part ∈ sortByPartNumber parts, ∀ acc, (addPart unreadable upload true provider acc part).Returns s
        (gather (partBody unreadable s upload provider) acc part) s :=
    fun part _ acc => addPart_returns unreadable s upload provider part acc
  have hgathered := Proc.Returns.fold_reads hstep ([], [])
  rw [foldl_gather] at hgathered
  simp only [List.nil_append] at hgathered
  apply hgathered.bind
  unfold finishUpload completed
  dsimp only
  split
  · rename_i hall
    rw [hall]
    exact (abortMultipartUpload_returns _ upload).bind (.pure _ _)
  · exact .pure _ _

section

variable (key : String) (parts : List Part)

@[simp] theorem metastore_completed :
    (completed unreadable s key uploadId parts provider).metastore = s.metastore := by
  unfold completed
  dsimp only
  split <;> simp

theorem lookup_completed_file : (completed unreadable s key uploadId parts provider).objects.lookup (.file key) =
      some ((sortByPartNumber parts).filterMap (partBody unreadable s uploadId provider)).flatten := by
  unfold completed
  dsimp only
  split <;> simp [Stored.lookup_dropUpload, Stored.lookup_putObject, ObjectKey.underUpload]

theorem lookup_completed_other {other : ObjectKey} (hfile : other ≠ .file key)
    (hunder : other.underUpload uploadId = false) :
    (completed unreadable s key uploadId parts provider).objects.lookup other = s.objects.lookup other := by
  unfold completed
  dsimp only
  split <;> simp [Stored.lookup_dropUpload, Stored.lookup_putObject, hfile, hunder]

end

end

/-! ## Synthesized error records -/

structure ErrorRecord where
  id : String
  code : String
  message : String
  line : Nat
  customId : String
deriving DecidableEq, Repr

def unreadableCompletedOutputPartMessage : String :=
  "Failed to read completed request output part during batch finalization"

def unreadableFailedErrorPartMessage : String :=
  "Failed to read failed request error part during batch finalization"

/-- What finalisation does not decide itself: which reads raise, the JSON line of an error
record, and the hash that names it. -/
structure FinalizeEnv where
  unreadable : ObjectKey → Bool
  encode : ErrorRecord → Bytes
  md5 : Bytes → String

/-- `custom_id` of a part, or the default `request-{part_number}`. -/
def Part.resolvedCustomId (part : Part) : String :=
  match part.customId with
  | some customId =>
    if customId = "" then "request-" ++ toString part.partNumber else customId
  | none => "request-" ++ toString part.partNumber

section

variable (env : FinalizeEnv)

def buildUnreadableErrorPartBody (part : Part) (message : String) : Bytes :=
  env.encode
    { id := "unreadable-" ++ toString part.partNumber
      code := "internal_error"
      message := message
      line := part.partNumber
      customId := part.resolvedCustomId }

def synthesizeUnreadableErrorPart (message : String) (part : Part) : Part :=
  { etag := env.md5 (buildUnreadableErrorPartBody env part message)
    partNumber := part.partNumber
    customId := some part.resolvedCustomId
    isLocal := true }

def provideLocalErrorPart (part : Part) : Bytes :=
  if part.isLocal then
    buildUnreadableErrorPartBody env part unreadableCompletedOutputPartMessage
  else buildUnreadableErrorPartBody env part unreadableFailedErrorPartMessage

end

def partNumbers (parts : List Part) : List Nat := parts.map (·.partNumber)

/-- `_filter_rerouted_output_parts`: the parts kept and how many were skipped. -/
def filterReroutedOutputParts (existingErrorParts candidates : List Part) : List Part × Nat :=
  (sortByPartNumber candidates).foldl
    (fun acc part =>
      if part.partNumber ∈ partNumbers existingErrorParts ∨
          part.partNumber ∈ partNumbers acc.1 then (acc.1, acc.2 + 1)
      else (acc.1 ++ [part], acc.2))
    ([], 0)

/-- The dictionary of `_merge_error_parts_by_part_number` with its two counters. -/
structure MergedParts where
  byNumber : KeyMap Nat Part
  inserted : Nat
  duplicates : Nat

def MergedParts.add (m : MergedParts) (part : Part) : MergedParts :=
  if part.partNumber ∈ m.byNumber then { m with duplicates := m.duplicates + 1 }
  else { m with byNumber := m.byNumber.insert part.partNumber part, inserted := m.inserted + 1 }

/-- `_merge_error_parts_by_part_number`: the merged parts in order and how many were
inserted. -/
def mergeErrorPartsByPartNumber (existingErrorParts reroutedErrorParts : List Part) : List Part × Nat :=
  let existing : KeyMap Nat Part :=
    existingErrorParts.foldl (fun m part => m.insert part.partNumber part) ∅
  let merged := reroutedErrorParts.foldl MergedParts.add ⟨existing, 0, 0⟩
  ((merged.byNumber.keys.insertionSort (· ≤ ·)).filterMap merged.byNumber.lookup, merged.inserted)

/-! ## Collecting the request keys -/

structure Collected where
  output : List Part
  error : List Part
  completed : Nat
  failed : Nat
  validKeys : List Nat
  launched : Nat
  maxIndex : Int
  missingKeys : Nat
  pendingKeys : Nat

namespace Collected

def empty : Collected := ⟨[], [], 0, 0, [], 0, -1, 0, 0⟩

def addKey (c : Collected) (idx : Nat) (metaVal : Option MetaVal) : Collected :=
  match metaVal with
  | none => { c with missingKeys := c.missingKeys + 1 }
  | some v =>
    let parsed := parseRequestMetaOutputVal v
    if parsed.etag = "" then { c with pendingKeys := c.pendingKeys + 1 }
    else
      let part : Part := ⟨parsed.etag, idx, parsed.customId, false⟩
      if parsed.isError then
        { c with
          validKeys := c.validKeys ++ [idx], error := c.error ++ [part], failed := c.failed + 1 }
      else
        { c with
          validKeys := c.validKeys ++ [idx], output := c.output ++ [part]
          completed := c.completed + 1 }

def startPage (c : Collected) (indexedKeys : List Nat) : Collected :=
  match indexedKeys.getLast? with
  | none => c
  | some last =>
    { c with
      launched := c.launched + indexedKeys.length
      maxIndex := if c.maxIndex < last then last else c.maxIndex }

end Collected

def listPage (page : List Nat) : StorageProc (List Nat) := .op fun s => (.ok page, s)

def getMetadata (idx : Nat) : StorageProc (Option MetaVal) :=
  .op fun s => (.ok (s.metastore idx), s)

def deleteMetadata (idx : Nat) : StorageProc Unit :=
  .op fun s => (.ok (), { s with metastore := s.metastore.set idx none })

def getMetadataAll (indexedKeys : List Nat) : StorageProc (List (Nat × Option MetaVal)) :=
  Proc.fold (fun acc idx => do
    let metaVal ← getMetadata idx
    pure (acc ++ [(idx, metaVal)])) indexedKeys []

def collectPage (c : Collected) (page : List Nat) : StorageProc Collected := do
  let keys ← listPage page
  let indexedKeys := keys.insertionSort (· ≤ ·)
  let results ← getMetadataAll indexedKeys
  pure (results.foldl (fun c r => c.addKey r.1 r.2) (c.startPage indexedKeys))

/-! ## Finalisation -/

structure JobStatus where
  requestCounts : RequestCounts
  outputFileId : Option String
  errorFileId : Option String
  tempOutputFileId : Option String
  tempErrorFileId : Option String
deriving DecidableEq, Repr

structure FileIds where
  outputFileId : String
  errorFileId : String
  tempOutputFileId : String
  tempErrorFileId : String
deriving DecidableEq, Repr

def JobStatus.fileIds (job : JobStatus) : Option FileIds := do
  let outputFileId ← job.outputFileId
  let errorFileId ← job.errorFileId
  let tempOutputFileId ← job.tempOutputFileId
  let tempErrorFileId ← job.tempErrorFileId
  pure ⟨outputFileId, errorFileId, tempOutputFileId, tempErrorFileId⟩

structure Rerouted where
  parts : List Part
  error : List Part
  completed : Nat
  failed : Nat

variable (env : FinalizeEnv)

def reroute (c : Collected) (failedOutputParts : List Part) : Rerouted :=
  if failedOutputParts = [] then ⟨[], c.error, c.completed, c.failed⟩
  else
    let rerouted := (filterReroutedOutputParts c.error failedOutputParts).1
    let synthesized :=
      rerouted.map (synthesizeUnreadableErrorPart env unreadableCompletedOutputPartMessage)
    let merged := mergeErrorPartsByPartNumber c.error synthesized
    ⟨rerouted, merged.1, c.completed - merged.2, c.failed + merged.2⟩

def finalTotal (authoritativeTotal : Nat) (c : Collected) : Nat :=
  let metastoreTotal := if 0 < c.launched then (c.maxIndex + 1).toNat else 0
  if authoritativeTotal < metastoreTotal then metastoreTotal else authoritativeTotal

def JobStatus.updateCounts (job : JobStatus) (total launched completed failed : Nat) : JobStatus :=
  if job.requestCounts.total ≠ total ∨ job.requestCounts.launched ≠ launched ∨
      job.requestCounts.completed ≠ completed ∨ job.requestCounts.failed ≠ failed then
    { job with
      requestCounts :=
        { total := if total > job.requestCounts.total then total else job.requestCounts.total
          launched := launched
          completed := completed
          failed := failed } }
  else job

def requireNoFailedParts (parts : List Part) : StorageProc Unit :=
  if parts = [] then pure () else .fail .unexpectedFailedErrorParts

def abortRerouted (uploadId : String) (rerouted : List Part) : StorageProc Unit :=
  if rerouted = [] then pure () else abortMultipartUpload uploadId

def deleteKeys (validKeys : List Nat) : StorageProc Unit :=
  Proc.fold (fun _ idx => deleteMetadata idx) validKeys ()

def assemble (ids : FileIds) (job : JobStatus) (c : Collected) : StorageProc JobStatus := do
  let failedOutputParts ← completeMultipartUpload env.unreadable ids.outputFileId
    ids.tempOutputFileId c.output true none
  let r := reroute env c failedOutputParts
  let unexpected ← completeMultipartUpload env.unreadable ids.errorFileId
    ids.tempErrorFileId r.error true (some (provideLocalErrorPart env))
  requireNoFailedParts unexpected
  abortRerouted ids.tempOutputFileId r.parts
  deleteKeys c.validKeys
  pure (job.updateCounts (finalTotal job.requestCounts.total c) c.launched r.completed r.failed)

/-- `finalize_job_output_data`; `pages` are the answers of the key listing. -/
def finalizeJobOutputData (pages : List (List Nat)) (job : JobStatus) : StorageProc JobStatus :=
  match job.fileIds with
  | none => pure job
  | some ids => do
    let c ← Proc.fold collectPage pages Collected.empty
    assemble env ids job c

/-! ## What the key listing yields

However the pages split and order the keys, what is collected depends on the keys and their values only, up to the
order of the parts. -/

open List Collected

theorem perm_sortByPartNumber (parts : List Part) : (sortByPartNumber parts).Perm parts :=
  perm_insertionSort _ parts

theorem mem_sortByPartNumber {parts : List Part} {p : Part} :
    p ∈ sortByPartNumber parts ↔ p ∈ parts := (perm_sortByPartNumber parts).mem_iff

theorem sortByPartNumber_increasing {parts : List Part} (h : (partNumbers parts).Nodup) :
    (partNumbers (sortByPartNumber parts)).Pairwise (· < ·) := by
  have hnodup : (partNumbers (sortByPartNumber parts)).Nodup :=
    ((perm_sortByPartNumber parts).map _).nodup_iff.2 h
  have hle : (partNumbers (sortByPartNumber parts)).Pairwise (· ≤ ·) :=
    List.pairwise_map.2 (by exact pairwise_insertionSort _ parts)
  exact (hle.and hnodup).imp (fun h => lt_of_le_of_ne h.1 h.2)

/-! ## The value of a key -/

/-- The recorded result of a request: a pending lock has an empty etag. -/
def resultOf (m : Metastore) (i : Nat) : Option ParsedVal :=
  (m i).bind fun v =>
    if (parseRequestMetaOutputVal v).etag = "" then none else some (parseRequestMetaOutputVal v)

def resultPart (i : Nat) (parsed : ParsedVal) : Part := ⟨parsed.etag, i, parsed.customId, false⟩

def successPart (m : Metastore) (i : Nat) : Option Part :=
  (resultOf m i).bind fun parsed => if parsed.isError then none else some (resultPart i parsed)

def errorPart (m : Metastore) (i : Nat) : Option Part :=
  (resultOf m i).bind fun parsed => if parsed.isError then some (resultPart i parsed) else none

variable {m : Metastore} {i : Nat} {part : Part}

theorem successPart_eq_some : successPart m i = some part ↔
    ∃ parsed, resultOf m i = some parsed ∧ parsed.isError = false ∧ part = resultPart i parsed := by
  simp only [successPart, Option.bind_eq_some_iff]
  apply exists_congr
  intro parsed
  cases parsed.isError <;> simp [eq_comm (a := part)]

theorem errorPart_eq_some : errorPart m i = some part ↔
    ∃ parsed, resultOf m i = some parsed ∧ parsed.isError = true ∧ part = resultPart i parsed := by
  simp only [errorPart, Option.bind_eq_some_iff]
  apply exists_congr
  intro parsed
  cases parsed.isError <;> simp [eq_comm (a := part)]

theorem partNumber_successPart (h : part ∈ successPart m i) : part.partNumber = i := by
  obtain ⟨parsed, -, -, rfl⟩ := successPart_eq_some.1 h
  rfl

theorem partNumber_errorPart (h : part ∈ errorPart m i) : part.partNumber = i := by
  obtain ⟨parsed, -, -, rfl⟩ := errorPart_eq_some.1 h
  rfl

variable {keys : List Nat} {c : Collected}

theorem partNumbers_filterMap_nodup {f : Nat → Option Part} (hkeys : keys.Nodup)
    (hf : ∀ i, ∀ p ∈ f i, p.partNumber = i) : (partNumbers (keys.filterMap f)).Nodup := by
  have hsub : (partNumbers (keys.filterMap f)).Sublist keys := by
    clear hkeys
    induction keys with
    | nil => exact .slnil
    | cons i keys ih =>
      rw [filterMap_cons]
      cases hp : f i with
      | none => exact ih.cons _
      | some p =>
        have hnumber : p.partNumber = i := hf i p hp
        simp only [partNumbers, map_cons, hnumber]
        exact ih.cons_cons _
  exact hsub.nodup hkeys

/-! ## Collecting -/

structure Collects (m : Metastore) (keys : List Nat) (c : Collected) : Prop where
  output : c.output = keys.filterMap (successPart m)
  error : c.error = keys.filterMap (errorPart m)
  validKeys : c.validKeys = keys.filter (fun i => (resultOf m i).isSome)
  completed : c.completed = c.output.length
  failed : c.failed = c.error.length
  launched : c.launched = keys.length
  bound : ∀ i ∈ keys, (i : Int) ≤ c.maxIndex
  attained : c.maxIndex = -1 ∨ ∃ i ∈ keys, (i : Int) = c.maxIndex

structure Adds (m : Metastore) (keys : List Nat) (c c' : Collected) : Prop where
  output : c'.output = c.output ++ keys.filterMap (successPart m)
  error : c'.error = c.error ++ keys.filterMap (errorPart m)
  validKeys : c'.validKeys = c.validKeys ++ keys.filter (fun i => (resultOf m i).isSome)
  completed : c'.completed = c.completed + (keys.filterMap (successPart m)).length
  failed : c'.failed = c.failed + (keys.filterMap (errorPart m)).length
  launched : c'.launched = c.launched
  maxIndex : c'.maxIndex = c.maxIndex

theorem Adds.trans {keys' : List Nat} {c' c'' : Collected} (h : Adds m keys c c')
    (h' : Adds m keys' c' c'') : Adds m (keys ++ keys') c c'' where
  output := by rw [h'.output, h.output, filterMap_append, append_assoc]
  error := by rw [h'.error, h.error, filterMap_append, append_assoc]
  validKeys := by rw [h'.validKeys, h.validKeys, filter_append, append_assoc]
  completed := by
    rw [h'.completed, h.completed, filterMap_append, length_append]
    omega
  failed := by
    rw [h'.failed, h.failed, filterMap_append, length_append]
    omega
  launched := h'.launched.trans h.launched
  maxIndex := h'.maxIndex.trans h.maxIndex

theorem addKey_adds (m : Metastore) (c : Collected) (i : Nat) : Adds m [i] c (c.addKey i (m i)) := by
  unfold addKey
  cases hval : m i with
  | none => constructor <;> simp [successPart, errorPart, resultOf, hval]
  | some v =>
    by_cases hetag : (parseRequestMetaOutputVal v).etag = ""
    · constructor <;> simp [successPart, errorPart, resultOf, hval, hetag]
    · cases herr : (parseRequestMetaOutputVal v).isError <;>
        constructor <;>
        simp [successPart, errorPart, resultOf, resultPart, hval, hetag, herr]

def addKeys (m : Metastore) (c : Collected) (keys : List Nat) : Collected :=
  keys.foldl (fun c i => c.addKey i (m i)) c

theorem addKeys_adds (m : Metastore) (c : Collected) (keys : List Nat) : Adds m keys c (addKeys m c keys) := by
  induction keys generalizing c with
  | nil => constructor <;> simp [addKeys]
  | cons i keys ih => exact (addKey_adds m c i).trans (ih (c.addKey i (m i)))

def sortKeys (keys : List Nat) : List Nat := keys.insertionSort (· ≤ ·)

def addPage (m : Metastore) (c : Collected) (page : List Nat) : Collected :=
  addKeys m (c.startPage (sortKeys page)) (sortKeys page)

theorem sortKeys_le_last {page : List Nat} {last : Nat} (h : (sortKeys page).getLast? = some last) :
    ∀ i ∈ sortKeys page, i ≤ last := by
  intro i hi
  have hsorted : (sortKeys page).Pairwise (· ≤ ·) := pairwise_insertionSort _ page
  obtain ⟨front, hsplit⟩ := List.getLast?_eq_some_iff.1 h
  rw [hsplit] at hi hsorted
  rcases mem_append.1 hi with hfront | hlast
  · exact (pairwise_append.1 hsorted).2.2 i hfront last (mem_singleton_self last)
  · exact le_of_eq (mem_singleton.1 hlast)

theorem Collects.addPage (h : Collects m keys c)
    (page : List Nat) : Collects m (keys ++ sortKeys page) (addPage m c page) := by
  have hadds := addKeys_adds m (c.startPage (sortKeys page)) (sortKeys page)
  have hstart : let c' := c.startPage (sortKeys page)
      c'.output = c.output ∧ c'.error = c.error ∧ c'.validKeys = c.validKeys ∧ c'.completed = c.completed ∧
        c'.failed = c.failed := by
    unfold startPage
    split <;> exact ⟨rfl, rfl, rfl, rfl, rfl⟩
  obtain ⟨houtput, herr, hvalid, hcompleted, hfailed⟩ := hstart
  have hcounts : let c' := c.startPage (sortKeys page)
      c'.launched = (keys ++ sortKeys page).length ∧ (∀ i ∈ keys ++ sortKeys page, (i : Int) ≤ c'.maxIndex) ∧
        (c'.maxIndex = -1 ∨ ∃ i ∈ keys ++ sortKeys page, (i : Int) = c'.maxIndex) := by
    have hbound := h.bound
    have hatt := h.attained
    unfold startPage
    split
    · rename_i hnone
      rw [List.getLast?_eq_none_iff.1 hnone, append_nil]
      exact ⟨h.launched, hbound, hatt⟩
    rename_i last hlast
    have hle := sortKeys_le_last hlast
    have hmem : last ∈ sortKeys page := mem_of_getLast? hlast
    refine ⟨by simp [h.launched], ?_, ?_⟩
    · intro i hi
      dsimp only
      rcases mem_append.1 hi with hold | hnew
      · have := hbound i hold
        omega
      · have := hle i hnew
        omega
    · split
      · exact .inr ⟨last, mem_append_right _ hmem, rfl⟩
      · rcases hatt with hempty | ⟨i, hi, heq⟩
        · exact .inl hempty
        · exact .inr ⟨i, mem_append_left _ hi, heq⟩
  obtain ⟨hlaunched, hbound, hatt⟩ := hcounts
  refine ⟨?_, ?_, ?_, ?_, ?_, ?_, ?_, ?_⟩
  · rw [Batch.addPage, hadds.output, houtput, h.output, filterMap_append]
  · rw [Batch.addPage, hadds.error, herr, h.error, filterMap_append]
  · rw [Batch.addPage, hadds.validKeys, hvalid, h.validKeys, filter_append]
  · rw [Batch.addPage, hadds.completed, hadds.output, hcompleted, houtput, h.completed, length_append]
  · rw [Batch.addPage, hadds.failed, hadds.error, hfailed, herr, h.failed, length_append]
  · rw [Batch.addPage, hadds.launched, hlaunched]
  · rw [Batch.addPage, hadds.maxIndex]
    exact hbound
  · rw [Batch.addPage, hadds.maxIndex]
    exact hatt

theorem collects_pages (m : Metastore) (pages : List (List Nat)) (h : Collects m keys c) :
    Collects m (keys ++ pages.flatMap sortKeys) (pages.foldl (addPage m) c) := by
  induction pages generalizing keys c with
  | nil => simpa using h
  | cons page pages ih =>
    rw [flatMap_cons, ← append_assoc]
    exact ih (h.addPage page)

theorem collects_empty (m : Metastore) : Collects m [] empty := by
  constructor <;> simp [empty]

variable {s : Stored}

theorem getMetadataAll_returns (keys : List Nat) :
    (getMetadataAll keys).Returns s (keys.map fun i => (i, s.metastore i)) s := by
  have hstep : ∀ i ∈ keys, ∀ acc : List (Nat × Option MetaVal),
      (getMetadata i >>= fun metaVal => pure (acc ++ [(i, metaVal)]) :
        StorageProc (List (Nat × Option MetaVal))).Returns s (acc ++ [(i, s.metastore i)]) s := by
    intro i _ acc
    have hget : (getMetadata i).Returns s (s.metastore i) s := .op rfl
    exact hget.bind (.pure _ _)
  have hrun := Proc.Returns.fold_reads hstep []
  have hmap : ∀ acc, keys.foldl (fun acc i => acc ++ [(i, s.metastore i)]) acc =
      acc ++ keys.map fun i => (i, s.metastore i) := by
    clear hrun hstep
    induction keys with
    | nil => simp
    | cons i keys ih =>
      simp [ih]
  rw [hmap] at hrun
  exact hrun

theorem collectPage_returns (c : Collected) (page : List Nat) :
    (collectPage c page).Returns s (addPage s.metastore c page) s := by
  set keys := page.insertionSort (· ≤ ·)
  have hlist : (listPage page).Returns s page s := .op rfl
  apply hlist.bind
  apply (getMetadataAll_returns keys).bind
  have hfold : (keys.map fun i => (i, s.metastore i)).foldl
      (fun c r => c.addKey r.1 r.2) (c.startPage keys) =
      addPage s.metastore c page := foldl_map
  rw [hfold]
  exact .pure _ _

variable (pages : List (List Nat))

def listedKeys : List Nat := pages.flatMap sortKeys

theorem collect_returns : ∃ c, (Proc.fold collectPage pages empty).Returns s c s ∧
      Collects s.metastore (listedKeys pages) c := by
  refine ⟨_, Proc.Returns.fold_reads (fun page _ c => collectPage_returns c page) _, ?_⟩
  have hcollects := collects_pages s.metastore pages (collects_empty s.metastore)
  rwa [nil_append] at hcollects

theorem perm_listedKeys : (listedKeys pages).Perm pages.flatten := by
  induction pages with
  | nil => exact .nil
  | cons page pages ih => exact (perm_insertionSort _ page).append ih

/-! ## Output parts that could not be read move to the error file -/

theorem partNumber_notMem_of_nodup {front rest : List Part} {part : Part}
    (h : (partNumbers (front ++ part :: rest)).Nodup) : part.partNumber ∉ partNumbers front := by
  intro hmem
  rw [partNumbers, map_append, nodup_append] at h
  exact h.2.2 _ hmem _ (mem_map_of_mem mem_cons_self) rfl

theorem filterRerouted_foldl (existing parts : List Part) (acc : List Part × Nat)
    (hnodup : (partNumbers (acc.1 ++ parts)).Nodup) (hnew : ∀ p ∈ parts, p.partNumber ∉ partNumbers existing) :
    parts.foldl (fun acc part => if part.partNumber ∈ partNumbers existing ∨ part.partNumber ∈ partNumbers acc.1 then
          (acc.1, acc.2 + 1) else (acc.1 ++ [part], acc.2)) acc = (acc.1 ++ parts, acc.2) := by
  induction parts generalizing acc with
  | nil => simp
  | cons part parts ih =>
    have hfront := partNumber_notMem_of_nodup hnodup
    have hkept : ¬(part.partNumber ∈ partNumbers existing ∨ part.partNumber ∈ partNumbers acc.1) :=
      not_or_intro (hnew part mem_cons_self) hfront
    rw [foldl_cons, if_neg hkept, ih]
    · simp
    · simpa using hnodup
    · exact fun p hp => hnew p (mem_cons_of_mem _ hp)

theorem filterReroutedOutputParts_eq {existing cands : List Part} (hnodup : (partNumbers cands).Nodup)
    (hnew : ∀ p ∈ cands, p.partNumber ∉ partNumbers existing) :
    filterReroutedOutputParts existing cands = (sortByPartNumber cands, 0) := by
  unfold filterReroutedOutputParts
  rw [filterRerouted_foldl]
  · rfl
  · exact ((perm_sortByPartNumber cands).map _).nodup_iff.2 hnodup
  · exact fun p hp => hnew p (mem_sortByPartNumber.1 hp)

/-! ## Merging -/

def Indexes (parts : List Part) (byNumber : KeyMap Nat Part) : Prop :=
  ∀ n p, byNumber.lookup n = some p ↔ p ∈ parts ∧ p.partNumber = n

variable {parts : List Part} {byNumber : KeyMap Nat Part}

theorem Indexes.insert (h : Indexes parts byNumber) {part : Part} (hnew : part.partNumber ∉ partNumbers parts) :
    Indexes (parts ++ [part]) (byNumber.insert part.partNumber part) := by
  intro n p
  rw [KeyMap.lookup_insert_eq, mem_append, mem_singleton]
  split
  · subst n
    rw [Option.some.injEq]
    constructor
    · rintro rfl
      exact ⟨.inr rfl, rfl⟩
    · rintro ⟨hmem | rfl, hnumber⟩
      · exact absurd (hnumber ▸ mem_map_of_mem hmem) hnew
      · rfl
  · rename_i hne
    rw [h n p]
    constructor
    · rintro ⟨hmem, hnumber⟩
      exact ⟨.inl hmem, hnumber⟩
    · rintro ⟨hmem | rfl, hnumber⟩
      · exact ⟨hmem, hnumber⟩
      · omega

theorem Indexes.mem_iff (h : Indexes parts byNumber) (n : Nat) : n ∈ byNumber ↔ n ∈ partNumbers parts := by
  rw [KeyMap.mem_iff_lookup, partNumbers, mem_map]
  exact exists_congr fun p => h n p

theorem indexes_existing (parts existing : List Part) (hnodup : (partNumbers (parts ++ existing)).Nodup)
    (h : Indexes parts byNumber) : Indexes (parts ++ existing)
      (existing.foldl (fun m part => m.insert part.partNumber part) byNumber) := by
  induction existing generalizing parts byNumber with
  | nil => simpa using h
  | cons part existing ih =>
    have hnew := partNumber_notMem_of_nodup hnodup
    have hresult := ih (parts ++ [part]) (by simpa using hnodup) (h.insert hnew)
    simpa using hresult

theorem indexes_rerouted (parts rerouted : List Part) {m : MergedParts}
    (hnodup : (partNumbers (parts ++ rerouted)).Nodup) (h : Indexes parts m.byNumber) :
    Indexes (parts ++ rerouted) (rerouted.foldl MergedParts.add m).byNumber ∧
      (rerouted.foldl MergedParts.add m).inserted = m.inserted + rerouted.length := by
  induction rerouted generalizing parts m with
  | nil => simpa using h
  | cons part rerouted ih =>
    have hnew := partNumber_notMem_of_nodup hnodup
    have hadd : m.add part = ⟨m.byNumber.insert part.partNumber part, m.inserted + 1, m.duplicates⟩ := by
      unfold MergedParts.add
      rw [if_neg]
      rw [h.mem_iff]
      exact hnew
    have hindexes : Indexes (parts ++ [part]) (m.add part).byNumber := by
      rw [hadd]
      exact h.insert hnew
    have hresult := ih (parts ++ [part]) (by simpa using hnodup) hindexes
    rw [append_assoc] at hresult
    refine ⟨hresult.1, ?_⟩
    rw [foldl_cons, hresult.2, hadd, length_cons]
    dsimp only
    omega

theorem mergeErrorPartsByPartNumber_spec {existing rerouted : List Part}
    (hnodup : (partNumbers (existing ++ rerouted)).Nodup) :
    let r := mergeErrorPartsByPartNumber existing rerouted
    r.1.Perm (existing ++ rerouted) ∧ r.2 = rerouted.length := by
  have hempty : Indexes [] (∅ : KeyMap Nat Part) := by
    intro n p
    simp
  have hleft : (partNumbers existing).Nodup := by
    rw [partNumbers, map_append] at hnodup
    exact hnodup.of_append_left
  have hexisting := indexes_existing [] existing hleft hempty
  rw [nil_append] at hexisting
  obtain ⟨hindexes, hins⟩ := indexes_rerouted existing rerouted
    (m := ⟨existing.foldl (fun m part => m.insert part.partNumber part) ∅, 0, 0⟩) hnodup hexisting
  unfold mergeErrorPartsByPartNumber
  dsimp only
  refine ⟨?_, by rw [hins, Nat.zero_add]⟩
  -- the sorted keys yield each part once
  have hdistinct : (existing ++ rerouted).Nodup := List.Nodup.of_map Part.partNumber hnodup
  apply (perm_ext_iff_of_nodup (List.Nodup.of_map Part.partNumber ?_) hdistinct).2
  · intro p
    rw [mem_filterMap]
    constructor
    · rintro ⟨n, -, hlookup⟩
      exact ((hindexes n p).1 hlookup).1
    intro hmem
    have hlookup := (hindexes p.partNumber p).2 ⟨hmem, rfl⟩
    refine ⟨p.partNumber, ?_, hlookup⟩
    rw [mem_insertionSort]
    exact AList.mem_keys.1 (KeyMap.mem_iff_lookup.2 ⟨p, hlookup⟩)
  · apply partNumbers_filterMap_nodup
    · exact (perm_insertionSort _ _).nodup_iff.2 (AList.keys_nodup _)
    · intro n p hp
      exact ((hindexes n p).1 hp).2

structure Reroutes (env : FinalizeEnv) (c : Collected) (unreadableParts : List Part)
    (r : Rerouted) : Prop where
  error : r.error.Perm (c.error ++ unreadableParts.map
    (synthesizeUnreadableErrorPart env unreadableCompletedOutputPartMessage))
  completed : r.completed = c.completed - unreadableParts.length
  failed : r.failed = c.failed + unreadableParts.length
  parts_eq_nil : r.parts = [] ↔ unreadableParts = []

variable {env} {unreadableParts : List Part} {r : Rerouted}

theorem partNumbers_synthesize (env : FinalizeEnv) (message : String) (parts : List Part) :
    partNumbers (parts.map (synthesizeUnreadableErrorPart env message)) = partNumbers parts := by
  simp [partNumbers, synthesizeUnreadableErrorPart]

theorem Reroutes.mem_error (h : Reroutes env c unreadableParts r) (p : Part) :
    p ∈ r.error ↔ p ∈ c.error ∨ ∃ q ∈ unreadableParts,
      p = synthesizeUnreadableErrorPart env unreadableCompletedOutputPartMessage q := by
  rw [h.error.mem_iff, mem_append, mem_map]
  simp [eq_comm]

theorem Reroutes.perm_numbers (h : Reroutes env c unreadableParts r) :
    (partNumbers r.error).Perm (partNumbers (c.error ++ unreadableParts)) := by
  have hparts := h.error.map (·.partNumber)
  rw [map_append] at hparts
  rw [partNumbers, partNumbers, map_append]
  exact hparts.trans (.of_eq (congrArg _ (partNumbers_synthesize env _ unreadableParts)))

theorem reroute_spec (env : FinalizeEnv) (hnodup : (partNumbers (c.error ++ unreadableParts)).Nodup) :
    Reroutes env c unreadableParts (reroute env c unreadableParts) := by
  have hparts := hnodup
  rw [partNumbers, map_append, nodup_append] at hparts
  obtain ⟨-, hunder, hdistinct⟩ := hparts
  unfold reroute
  split
  · rename_i hnone
    subst hnone
    exact ⟨by simp, rfl, rfl, by simp⟩
  have hfiltered : filterReroutedOutputParts c.error unreadableParts = (sortByPartNumber unreadableParts, 0) := by
    apply filterReroutedOutputParts_eq hunder
    intro p hp hmem
    exact hdistinct _ hmem _ (mem_map_of_mem hp) rfl
  have hsorted := perm_sortByPartNumber unreadableParts
  have hall : (partNumbers (c.error ++ (sortByPartNumber unreadableParts).map
      (synthesizeUnreadableErrorPart env unreadableCompletedOutputPartMessage))).Nodup := by
    have hnumber := partNumbers_synthesize env unreadableCompletedOutputPartMessage
    rw [partNumbers, map_append] at hnodup ⊢
    rw [← partNumbers, ← partNumbers, hnumber]
    exact ((hsorted.map _).append_left _).nodup_iff.2 hnodup
  obtain ⟨hperm, hindexes⟩ := mergeErrorPartsByPartNumber_spec hall
  rw [length_map, hsorted.length_eq] at hindexes
  rw [hfiltered]
  refine ⟨hperm.trans ((hsorted.map _).append_left _), ?_, ?_, ?_⟩
  · dsimp only
    rw [hindexes]
  · dsimp only
    rw [hindexes]
  · rw [← length_eq_zero_iff, ← length_eq_zero_iff, hsorted.length_eq]

end Aibrix.Batch
