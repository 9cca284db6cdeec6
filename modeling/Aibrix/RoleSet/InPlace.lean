import Aibrix.RoleSet.StatelessRuns

/-! # Updating images in place

`StatelessRoleSyncer.Rollout` with the strategy `InPlaceIfPossible`, and `roleset/inplace_update.go`. -/

namespace Aibrix.RoleSet.InPlace

open Lib List

variable {H : Type} [DecidableEq H]

structure Container where
  name : Nat
  image : Nat
deriving DecidableEq

structure Template where
  containers : List Container
  initContainers : List Container
deriving DecidableEq

structure ContainerStatus where
  name : Nat
  ready : Bool
  imageID : Option Nat
deriving DecidableEq

inductive PendingReason
  | podNotReady
  | containerStatusMissing
  | containerNotReady
  | imageIDUnchanged
deriving DecidableEq

/-- A pod with its images and the annotations of an update in place: the target hash, the image ids before it, and the
reason why it is pending. -/
structure LivePod (H : Type) where
  pod : Pod H
  containers : List Container
  initContainers : List Container
  statuses : List ContainerStatus
  readinessGate : Bool
  target : Option H
  state : Option (List (Nat × Option Nat))
  pending : Option PendingReason
deriving DecidableEq

/-! ## One pod -/

/-- `desiredByName`, where the last container of a name counts. -/
def imageOf (desired : List Container) (name : Nat) : Option Nat :=
  (desired.reverse.find? fun c => c.name = name).map Container.image

def withImage (desired : List Container) (c : Container) : Container :=
  match imageOf desired c.name with
  | some image => { c with image }
  | none => c

variable (current desired : List Container)

def containersImagesDiffer : Bool :=
  current.any fun c => withImage desired c ≠ c

def updateContainerImages : List Container × Bool :=
  (current.map (withImage desired), containersImagesDiffer current desired)

def inPlaceUpdatePendingStatusForPod (p : LivePod H) : Option PendingReason :=
  if !p.pod.ready then some .podNotReady
  else
    p.containers.findSome? fun c =>
      match p.statuses.reverse.find? fun status => status.name = c.name with
      | none => some .containerStatusMissing
      | some status =>
        if !status.ready then some .containerNotReady
        else
          match (p.state.getD []).reverse.find? fun last => last.1 = c.name with
          | some (_, some imageID) => if status.imageID = some imageID then some .imageIDUnchanged else none
          | _ => none

variable (t : Template)

/-- The image ids of the containers that are about to change. -/
def buildInPlaceUpdateState (p : LivePod H) : List (Nat × Option Nat) :=
  p.statuses.filterMap fun status =>
    if p.containers.any fun c => c.name = status.name && decide (withImage t.containers c ≠ c) then
      some (status.name, status.imageID)
    else none

def patchPodImagesForInPlaceUpdate (targetHash : H) (p : LivePod H) : LivePod H :=
  let (containers, changed) := updateContainerImages p.containers t.containers
  let state := if changed && p.state.isNone then some (buildInPlaceUpdateState t p) else p.state
  if !changed && p.target = some targetHash then p
  else
    { p with
      pod := { p.pod with ready := p.pod.ready && !p.readinessGate }
      containers, state
      target := some targetHash }

/-- The pod afterwards, and whether its update is complete. -/
def markInPlaceUpdateComplete (targetHash : H) (p : LivePod H) : LivePod H × Bool :=
  if p.pod.hash = targetHash then
    (if p.target.isSome then { p with target := none, state := none, pending := none } else p, true)
  else if p.target ≠ some targetHash then (p, false)
  else
    match inPlaceUpdatePendingStatusForPod p with
    | some reason => ({ p with pending := some reason }, false)
    | none =>
      ({ p with pod := { p.pod with hash := targetHash }, target := none, state := none, pending := none }, true)

/-- `comparable` says that the other fields of the pod are those of a new one. -/
def canInPlaceUpdatePod (comparable : LivePod H → Bool) (t : Template) (p : LivePod H) : Bool :=
  !containersImagesDiffer p.initContainers t.initContainers && comparable p && p.state.isNone && p.pending.isNone &&
    containersImagesDiffer p.containers t.containers

/-! ## A pass -/

/-- The pods of earlier patches after the first loop, the candidates, and what is left of the budget. -/
def settle (targetHash : H) : List (LivePod H) → Int → List (LivePod H) × List (LivePod H) × Int
  | [], budget => ([], [], budget)
  | p :: pods, budget =>
    let (p', completed) := markInPlaceUpdateComplete targetHash p
    if completed then
      let rest := settle targetHash pods budget
      (p' :: rest.1, rest.2)
    else if p.target = some targetHash then
      let rest := settle targetHash pods (if p.pod.ready then budget - 1 else budget)
      (p' :: rest.1, rest.2)
    else
      let rest := settle targetHash pods budget
      (rest.1, p :: rest.2.1, rest.2.2)

/-- The patched candidates; one that is not eligible ends the loop. -/
def patchCandidates (comparable : LivePod H → Bool) (t : Template) (targetHash : H) :
    List (LivePod H) → Int → List (LivePod H)
  | [], _ => []
  | p :: pods, budget =>
    if !canInPlaceUpdatePod comparable t p then []
    else if p.pod.ready then
      if budget ≤ 0 then patchCandidates comparable t targetHash pods budget
      else patchPodImagesForInPlaceUpdate t targetHash p :: patchCandidates comparable t targetHash pods (budget - 1)
    else patchPodImagesForInPlaceUpdate t targetHash p :: patchCandidates comparable t targetHash pods budget

structure LivePass (role : Role H) where
  pass : Pass role.templateHash
  byActive : Disruption.Sorting fun a b : LivePod H => beforeByActive a.pod b.pod
  comparable : LivePod H → Bool
  readinessGate : Bool

variable (role : Role H) (pass : LivePass role)

/-- The pods that the pass changes, as they are afterwards. -/
def rolloutPodsInPlace (t : Template) (outdated : List (LivePod H)) (unavailableBudget : Int) : List (LivePod H) :=
  let settled := settle role.templateHash (pass.byActive.sort outdated) unavailableBudget
  settled.1 ++ patchCandidates pass.comparable t role.templateHash settled.2.1 settled.2.2

def canRolloutPodsInPlace (t : Template) (outdated : List (LivePod H)) : Bool :=
  outdated.all fun p => p.target = some role.templateHash || canInPlaceUpdatePod pass.comparable t p

def outdatedPods (l : List (LivePod H)) : List (LivePod H) :=
  l.filter fun p => p.pod.isActive && decide (p.pod.hash ≠ role.templateHash)

def replace (changed st : List (LivePod H)) : List (LivePod H) :=
  st.map fun p => (changed.find? fun q => q.pod.name = p.pod.name).getD p

def recreate (t : Template) (l st : List (LivePod H)) : List (LivePod H) :=
  let plan := Stateless.rollout role pass.pass (l.map LivePod.pod)
  (st.map fun p =>
    if p.pod.name ∈ plan.delete.map Pod.name then { p with pod := (role.killForRollout pass.pass.now p.pod).1 } else p) ++
  (role.newPods pass.pass plan.create).map fun pod =>
    ⟨pod, t.containers, t.initContainers, [], pass.readinessGate, none, none, none⟩

def rollout (t : Template) (l st : List (LivePod H)) : List (LivePod H) :=
  let ready := l.filter fun p => p.pod.isActive && p.pod.ready
  let outdated := outdatedPods role l
  if canRolloutPodsInPlace role pass t outdated then
    replace (rolloutPodsInPlace role pass t outdated ((ready.length : Int) - role.replicas + role.maxUnavailable)) st
  else recreate role pass t l st

def allUpdated (l : List (LivePod H)) : Bool := (outdatedPods role l).isEmpty

def Template.Named (names initNames : List Nat) (t : Template) : Prop :=
  t.containers.map Container.name = names ∧ t.initContainers.map Container.name = initNames

def Runs (hashOf : Template → H) (names initNames : List Nat) (hash : H) (p : LivePod H) : Prop :=
  ∃ t : Template, t.Named names initNames ∧ hashOf t = hash ∧ p.containers = t.containers ∧
    p.initContainers = t.initContainers

structure SameSpec (p q : LivePod H) : Prop where
  hash : q.pod.hash = p.pod.hash
  containers : q.containers = p.containers
  initContainers : q.initContainers = p.initContainers
  target : q.target = p.target

/-- The template and the pods of a role at some point. A template is taken over if `ok` says so. -/
inductive Reaches (hashOf : Template → H) (names initNames : List Nat) (ok : Template → List (LivePod H) → Prop) :
    Template → List (LivePod H) → Prop
  | start {t : Template} {st : List (LivePod H)} (ht : t.Named names initNames)
      (hst : ∀ p ∈ st, p.target = none ∧ Runs hashOf names initNames p.pod.hash p) : Reaches hashOf names initNames ok t st
  | rollout {t : Template} {st l : List (LivePod H)} (role : Role H) (pass : LivePass role)
      (h : Reaches hashOf names initNames ok t st) (hrole : role.templateHash = hashOf t) (hl : l.Perm st) :
      Reaches hashOf names initNames ok t (rollout role pass t l st)
  | change {t t' : Template} {st : List (LivePod H)} (h : Reaches hashOf names initNames ok t st)
      (ht : t'.Named names initNames) (hok : ok t' st) : Reaches hashOf names initNames ok t' st
  | progress {t : Template} {st st' : List (LivePod H)} (h : Reaches hashOf names initNames ok t st)
      (hst : ∀ q ∈ st', ∃ p ∈ st, SameSpec p q) : Reaches hashOf names initNames ok t st'

/-- No pod that the template would make an updated one is on its way to another template. -/
def NoneUnderWay (hashOf : Template → H) (t : Template) (st : List (LivePod H)) : Prop :=
  ∀ p ∈ st, p.pod.hash = hashOf t → p.target = none

variable {desired current : List Container}

open Container

theorem imageOf_mem (hnd : (desired.map name).Nodup) {c : Container}
    (hc : c ∈ desired) : imageOf desired c.name = some c.image := by
  have hsm : (desired.reverse.find? fun d => d.name = c.name).isSome := by
    rw [find?_isSome]
    exact ⟨c, mem_reverse.2 hc, by simp⟩
  obtain ⟨d, hd⟩ := Option.isSome_iff_exists.1 hsm
  have hnm : d.name = c.name := by simpa using find?_some hd
  have hmem : d ∈ desired := mem_reverse.1 (mem_of_find?_eq_some hd)
  rw [imageOf, hd, inj_on_of_nodup_map hnd hmem hc hnm]
  rfl

theorem map_withImage {rest : List Container} (hnm : current.map name = rest.map name)
    (hrs : ∀ c ∈ rest, imageOf desired c.name = some c.image) : current.map (withImage desired) = rest := by
  induction current generalizing rest with
  | nil =>
    rw [map_nil, eq_comm, map_eq_nil_iff] at hnm
    rw [hnm, map_nil]
  | cons c current ih =>
    obtain ⟨d, rest, rfl⟩ : ∃ d rest', rest = d :: rest' := by
      cases rest with
      | nil => simp at hnm
      | cons d rest => exact ⟨d, rest, rfl⟩
    rw [map_cons, map_cons, cons.injEq] at hnm
    have hig := hrs d mem_cons_self
    have hd : withImage desired c = d := by
      simp [withImage, hnm.1, hig]
    rw [map_cons, hd, ih hnm.2 fun c hc => hrs c (mem_cons_of_mem _ hc)]

theorem updateContainerImages_eq (hnm : current.map name = desired.map name) (hnd : (desired.map name).Nodup) :
    (updateContainerImages current desired).1 = desired :=
  map_withImage hnm fun _ hc => imageOf_mem hnd hc

theorem eq_of_not_containersImagesDiffer (hnm : current.map name = desired.map name) (hnd : (desired.map name).Nodup)
    (h : containersImagesDiffer current desired = false) : current = desired := by
  have hsm : ∀ c ∈ current, withImage desired c = c := by simpa [containersImagesDiffer] using h
  have hmap := updateContainerImages_eq hnm hnd
  rw [updateContainerImages, map_congr_left hsm, map_id'] at hmap
  exact hmap

section sound

variable {hashOf : Template → H} {names initNames : List Nat} {t : Template}

/-- The images are those of the template on the target annotation, or else on the label; an updated pod has no target. -/
structure Sound (hashOf : Template → H) (names initNames : List Nat) (t : Template) (p : LivePod H) : Prop where
  runs : Runs hashOf names initNames (p.target.getD p.pod.hash) p
  settled : p.pod.hash = hashOf t → p.target = none

variable {p : LivePod H} {st : List (LivePod H)}

section

variable (hp : Sound hashOf names initNames t p)
include hp

omit [DecidableEq H] in
theorem Sound.of_sameSpec {q : LivePod H} (h : SameSpec p q) : Sound hashOf names initNames t q := by
  refine ⟨?_, ?_⟩
  · unfold Runs
    rw [h.target, h.hash, h.containers, h.initContainers]
    exact hp.runs
  · rw [h.hash, h.target]
    exact hp.settled

theorem markInPlaceUpdateComplete_sound
    (hout : p.pod.hash ≠ hashOf t) : Sound hashOf names initNames t (markInPlaceUpdateComplete (hashOf t) p).1 := by
  unfold markInPlaceUpdateComplete
  rw [if_neg hout]
  split
  · exact hp
  next htr =>
  rw [not_not] at htr
  split
  · exact hp.of_sameSpec ⟨rfl, rfl, rfl, rfl⟩
  -- the label now names the template of the annotation
  have hrn := hp.runs
  rw [htr] at hrn
  exact ⟨hrn, fun _ => rfl⟩

theorem patchPodImagesForInPlaceUpdate_sound {comparable : LivePod H → Bool}
    (hout : p.pod.hash ≠ hashOf t) (ht : t.Named names initNames)
    (hnm : names.Nodup) (hin : initNames.Nodup) (hcan : canInPlaceUpdatePod comparable t p = true) :
    Sound hashOf names initNames t (patchPodImagesForInPlaceUpdate t (hashOf t) p) := by
  unfold patchPodImagesForInPlaceUpdate
  dsimp only
  split
  · exact hp
  refine ⟨⟨t, ht, rfl, ?_, ?_⟩, fun h => absurd h hout⟩
  · obtain ⟨t', ht', -, hcn, -⟩ := hp.runs
    apply updateContainerImages_eq
    · rw [hcn, ht'.1, ht.1]
    · rwa [ht.1]
  obtain ⟨t', ht', -, -, hinitContainers⟩ := hp.runs
  apply eq_of_not_containersImagesDiffer
  · rw [hinitContainers, ht'.2, ht.2]
  · rwa [ht.2]
  · simp only [canInPlaceUpdatePod, Bool.and_eq_true, Bool.not_eq_true'] at hcan
    exact hcan.1.1.1.1

end

/-! ## What holds of all pods -/

abbrev Stale (hashOf : Template → H) (names initNames : List Nat) (t : Template) (p : LivePod H) : Prop :=
  Sound hashOf names initNames t p ∧ p.pod.hash ≠ hashOf t

variable {pods l : List (LivePod H)}

theorem settle_sound {budget : Int} (h : ∀ p ∈ pods, Stale hashOf names initNames t p) :
    (∀ p ∈ (settle (hashOf t) pods budget).1, Sound hashOf names initNames t p) ∧
    ∀ p ∈ (settle (hashOf t) pods budget).2.1, Stale hashOf names initNames t p := by
  induction pods generalizing budget with
  | nil => simp [settle]
  | cons p pods ih =>
    rw [forall_mem_cons] at h
    have hp := markInPlaceUpdateComplete_sound h.1.1 h.1.2
    unfold settle
    dsimp only
    split_ifs
    · exact ⟨forall_mem_cons.2 ⟨hp, (ih h.2).1⟩, (ih h.2).2⟩
    · exact ⟨forall_mem_cons.2 ⟨hp, (ih h.2).1⟩, (ih h.2).2⟩
    · exact ⟨forall_mem_cons.2 ⟨hp, (ih h.2).1⟩, (ih h.2).2⟩
    · exact ⟨(ih h.2).1, forall_mem_cons.2 ⟨h.1, (ih h.2).2⟩⟩

theorem patchCandidates_sound {comparable : LivePod H → Bool} {budget : Int}
    (h : ∀ p ∈ pods, Stale hashOf names initNames t p) (ht : t.Named names initNames) (hnm : names.Nodup)
    (hin : initNames.Nodup) :
    ∀ p ∈ patchCandidates comparable t (hashOf t) pods budget, Sound hashOf names initNames t p := by
  induction pods generalizing budget with
  | nil => simp [patchCandidates]
  | cons p pods ih =>
    rw [forall_mem_cons] at h
    unfold patchCandidates
    split
    · simp
    next hcan =>
    have hp := patchPodImagesForInPlaceUpdate_sound h.1.1 h.1.2 ht hnm hin (by simpa using hcan)
    split_ifs
    · exact ih h.2
    · exact forall_mem_cons.2 ⟨hp, ih h.2⟩
    · exact forall_mem_cons.2 ⟨hp, ih h.2⟩

section

omit [DecidableEq H]

theorem replace_sound {changed : List (LivePod H)} (hch : ∀ p ∈ changed, Sound hashOf names initNames t p)
    (hst : ∀ p ∈ st, Sound hashOf names initNames t p) : ∀ p ∈ replace changed st, Sound hashOf names initNames t p := by
  unfold replace
  rw [forall_mem_map]
  intro p hp
  cases hfn : changed.find? fun q => q.pod.name = p.pod.name with
  | none => exact hst p hp
  | some q => exact hch q (mem_of_find?_eq_some hfn)

theorem killForRollout_hash (role : Role H) (now : Int) (p : Pod H) : (role.killForRollout now p).1.hash = p.hash := by
  obtain ⟨_, _, heq⟩ := deletePodForRollout_fst role.drainTimeout now p
  rw [Role.killForRollout, heq]

end

theorem recreate_sound {role : Role H} (pass : LivePass role)
    (hrole : role.templateHash = hashOf t) (ht : t.Named names initNames)
    (hst : ∀ p ∈ st, Sound hashOf names initNames t p) :
    ∀ p ∈ recreate role pass t l st, Sound hashOf names initNames t p := by
  unfold recreate
  rw [forall_mem_append, forall_mem_map, forall_mem_map]
  constructor
  · intro p hp
    split
    · exact (hst p hp).of_sameSpec ⟨killForRollout_hash role _ _, rfl, rfl, rfl⟩
    · exact hst p hp
  · intro pod hpod
    obtain ⟨_, _, rfl⟩ := mem_map.1 hpod
    exact ⟨⟨t, ht, hrole.symm, rfl, rfl⟩, fun _ => rfl⟩

theorem rollout_sound {role : Role H} (pass : LivePass role)
    (hrole : role.templateHash = hashOf t) (ht : t.Named names initNames) (hnm : names.Nodup)
    (hin : initNames.Nodup) (hl : l.Perm st) (hst : ∀ p ∈ st, Sound hashOf names initNames t p) :
    ∀ p ∈ rollout role pass t l st, Sound hashOf names initNames t p := by
  unfold rollout
  dsimp only
  split
  · apply replace_sound _ hst
    unfold rolloutPodsInPlace
    rw [hrole, forall_mem_append]
    have hsl : ∀ p ∈ pass.byActive.sort (outdatedPods role l), Stale hashOf names initNames t p := by
      intro p hp
      rw [pass.byActive.mem, outdatedPods, mem_filter, Bool.and_eq_true, decide_eq_true_eq, hrole] at hp
      exact ⟨hst p (hl.mem_iff.1 hp.1), hp.2.2⟩
    exact ⟨(settle_sound hsl).1, patchCandidates_sound (settle_sound hsl).2 ht hnm hin⟩
  · exact recreate_sound pass hrole ht hst

theorem Reaches.sound (hnm : names.Nodup) (hin : initNames.Nodup)
    (h : Reaches hashOf names initNames (NoneUnderWay hashOf) t st) :
    t.Named names initNames ∧ ∀ p ∈ st, Sound hashOf names initNames t p := by
  induction h with
  | start ht hst =>
    refine ⟨ht, fun p hp => ⟨?_, fun _ => (hst p hp).1⟩⟩
    rw [(hst p hp).1]
    exact (hst p hp).2
  | rollout role pass h hrole hl ih => exact ⟨ih.1, rollout_sound pass hrole ih.1 hnm hin hl ih.2⟩
  | change h ht hok ih => exact ⟨ht, fun p hp => ⟨(ih.2 p hp).runs, hok p hp⟩⟩
  | progress h hst ih =>
    refine ⟨ih.1, fun q hq => ?_⟩
    obtain ⟨p, hp, hsm⟩ := hst q hq
    exact (ih.2 p hp).of_sameSpec hsm

end sound

/-- A pod whose label is the hash of the current template runs its images, and a target annotation never outlives the
rollout. -/
theorem updated_pod_runs_updated_images {hashOf : Template → H} (hhash : Function.Injective hashOf)
    {names initNames : List Nat} (hnames : names.Nodup) (hinit : initNames.Nodup) {t : Template} {st : List (LivePod H)}
    (h : Reaches hashOf names initNames (NoneUnderWay hashOf) t st) :
    (∀ p ∈ st, p.pod.hash = hashOf t → p.containers = t.containers ∧ p.initContainers = t.initContainers) ∧
    ∀ role : Role H, role.templateHash = hashOf t → allUpdated role st = true →
      ∀ p ∈ st, p.pod.isActive = true → p.target = none := by
  obtain ⟨-, hsound⟩ := h.sound hnames hinit
  refine ⟨?_, ?_⟩
  · intro p hp hlabel
    obtain ⟨t', -, hhash', hcontainers, hinitContainers⟩ := (hsound p hp).runs
    rw [(hsound p hp).settled hlabel, hlabel] at hhash'
    rw [hcontainers, hinitContainers, hhash hhash']
    exact ⟨rfl, rfl⟩
  · intro role hrole hall p hp hactive
    apply (hsound p hp).settled
    rw [allUpdated, List.isEmpty_iff, outdatedPods, filter_eq_nil_iff] at hall
    simpa [hactive, hrole] using hall p hp

def singleRole : Role Template := ⟨1, t, none, some (.int 1), none⟩

def singlePass : LivePass (singleRole t) where
  pass := ⟨0, lessByActive_decides.sorting, (lessByTemplateHash_decides t).sorting, (· + 10), fun i => 100 + i⟩
  byActive := (lessByActive_decides.comap LivePod.pod).sorting
  comparable := fun _ => true
  readinessGate := false

def imageTemplate (image : Nat) : Template := ⟨[⟨0, image⟩], []⟩

def imagePod (image : Nat) : LivePod Template :=
  ⟨⟨0, imageTemplate image, none, false, false, true, 1, none⟩, [⟨0, image⟩], [], [⟨0, true, some image⟩], false, none, none,
    none⟩

def patchedPod (label image : Nat) : LivePod Template :=
  ⟨⟨0, imageTemplate label, none, false, false, true, 1, none⟩, [⟨0, image⟩], [], [⟨0, true, some label⟩], false,
    some (imageTemplate image), some [(0, some label)], none⟩

theorem runs_imageTemplate {image : Nat} {p : LivePod Template} (hcn : p.containers = [⟨0, image⟩])
    (hin : p.initContainers = []) : Runs id [0] [] (imageTemplate image) p :=
  ⟨imageTemplate image, ⟨rfl, rfl⟩, rfl, hcn, hin⟩

theorem reaches_patched {ok : Template → List (LivePod Template) → Prop} (hok : ok (imageTemplate 2) [imagePod 1]) :
    Reaches id [0] [] ok (imageTemplate 2) [patchedPod 1 2] := by
  have hsr : Reaches id [0] [] ok (imageTemplate 1) [imagePod 1] :=
    .start ⟨rfl, rfl⟩ (by simpa [imagePod] using runs_imageTemplate rfl rfl)
  exact .rollout (singleRole (imageTemplate 2)) (singlePass (imageTemplate 2)) (hsr.change ⟨rfl, rfl⟩ hok) rfl (.refl _)

theorem updated_pod_runs_updated_images_completed :
    let patched := { patchedPod 1 2 with statuses := [⟨0, true, some 2⟩] }
    rollout (singleRole (imageTemplate 2)) (singlePass _) (imageTemplate 2) [patched] [patched] = [imagePod 2] ∧
      ∀ p ∈ [imagePod 2], p.pod.hash = imageTemplate 2 →
        p.containers = (imageTemplate 2).containers ∧ p.initContainers = (imageTemplate 2).initContainers := by
  refine ⟨by decide, ?_⟩
  have hpatched : Reaches id [0] [] (NoneUnderWay id) (imageTemplate 2) [patchedPod 1 2] :=
    reaches_patched (by simp [NoneUnderWay, imagePod, imageTemplate])
  have hrun : Reaches id [0] [] (NoneUnderWay id) (imageTemplate 2)
      [{ patchedPod 1 2 with statuses := [⟨0, true, some 2⟩] }] :=
    hpatched.progress (by simpa using ⟨rfl, rfl, rfl, rfl⟩)
  exact (updated_pod_runs_updated_images Function.injective_id (by decide) nodup_nil
    (hrun.rollout (singleRole (imageTemplate 2)) (singlePass _) rfl (.refl _))).1

/-- The template goes back before the update is complete. -/
theorem reverted_pod_left_alone : Reaches id [0] [] (fun _ _ => True) (imageTemplate 1) [patchedPod 1 2] ∧
    (patchedPod 1 2).pod.hash = imageTemplate 1 ∧ (patchedPod 1 2).containers ≠ (imageTemplate 1).containers ∧
    (patchedPod 1 2).target = some (imageTemplate 2) ∧
    allUpdated (singleRole (imageTemplate 1)) [patchedPod 1 2] = true ∧
    rollout (singleRole (imageTemplate 1)) (singlePass _) (imageTemplate 1) [patchedPod 1 2] [patchedPod 1 2] =
      [patchedPod 1 2] := by
  refine ⟨(reaches_patched trivial).change ⟨rfl, rfl⟩ trivial, ?_⟩
  decide

end Aibrix.RoleSet.InPlace
