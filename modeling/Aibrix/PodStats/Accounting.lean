import Aibrix.PodStats.Store
import Aibrix.Lib.Charges

/-! # The counters of a pod count its open records -/

namespace Aibrix.PodStats

open Lib List Multiset Function Option Cmd Store

def Cmd.about : Cmd → Option Nat
  | .addPendingLoad r .. | .storePodStats r .. | .storeAlias r .. | .dropOther r .. | .take r _ | .complete r _ => some r
  | _ => none

def Cmd.loads : Cmd → Bool
  | .addPendingLoad .. => true
  | _ => false

def Cmd.completes (r : Nat) : Cmd → Bool
  | .complete r' _ => r' = r
  | _ => false

@[simp] theorem Cmd.completes_complete (r r' : Nat) (outputTokens : Int) :
    (complete r' outputTokens).completes r = decide (r' = r) := rfl

variable {c : Cmd} {r : Nat}

theorem Cmd.about_of_completes (h : c.completes r = true) : c.about = some r := by
  cases c with
  | complete r' outputTokens => exact congrArg some (of_decide_eq_true h)
  | _ => cases h

theorem Cmd.completes_of_about_ne (h : c.about ≠ some r) : c.completes r = false :=
  Bool.eq_false_iff.2 fun hc => h (about_of_completes hc)

theorem Cmd.loads_of_about_none (h : c.about = none) : c.loads = false := by
  cases c <;> first | rfl | cases h

namespace Store

/-- How many records of a generation are open, and the sum of their loads. -/
noncomputable def outstanding (s : Store) (generation : Nat) : ℤ × ℚ :=
  heldSum s.recorded (fun r => s.generation (s.records r).pod = generation ∧ r ∉ s.completed)
    fun r => (1, (s.records r).pendingLoad)

/-! ## Records -/

structure Records (s : Store) (M : Multiset Cmd) : Prop where
  pod : ∀ r < s.recorded, (s.records r).pod < s.published
  stored : ∀ key r, s.podStats key = some r → r < s.recorded
  about : ∀ c ∈ M, ∀ r, c.about = some r → r < s.recorded
  finished : ∀ r ∈ s.completed, r < s.recorded
  once : ∀ r < s.recorded, s.completed.count r + M.countP (·.completes r) = if (s.records r).consumed then 1 else 0
  loading : ∀ r podKey requestID modelName consumption, .addPendingLoad r podKey requestID modelName consumption ∈ M →
      (s.records r).consumed = false ∧ (s.records r).pendingLoad = 0 ∧ (s.pods (s.records r).pod).podKey = podKey ∧
        (∀ key, s.podStats key ≠ some r) ∧ M.countP (·.about = some r) = 1

variable {s s' : Store} {M : Multiset Cmd} {c : Cmd} {next : List Cmd}

variable {consumption : Option ℚ} {modelName podKey requestID key : String} {r : Nat}
  {podStats : String → Option Nat} {outputTokens now : Int}

section

variable (h : s.Records (c ::ₘ M))
include h

theorem Records.about_ne_of_loading (hmem : .addPendingLoad r podKey requestID modelName consumption ∈ M) :
    c.about ≠ some r ∧ M.countP (·.about = some r) = 1 := by
  obtain ⟨_, _, _, _, hcn⟩ := h.loading r podKey requestID modelName consumption (Multiset.mem_cons_of_mem hmem)
  have hpos : 0 < M.countP (·.about = some r) := Multiset.countP_pos.2 ⟨_, hmem, rfl⟩
  rw [Multiset.countP_cons] at hcn
  split at hcn
  · omega
  · exact ⟨‹_›, hcn⟩

theorem Records.step (hrc : s'.recorded = s.recorded)
    (hpod : ∀ r < s.recorded, (s'.records r).pod = (s.records r).pod) (hpb : s.published ≤ s'.published)
    (hkey : ∀ pod < s.published, (s'.pods pod).podKey = (s.pods pod).podKey)
    (hrr : ∀ r, c.about ≠ some r → s'.records r = s.records r)
    (hfn : ∀ r ∈ s'.completed, r ∈ s.completed ∨ c.about = some r)
    (hst : ∀ key r, s'.podStats key = some r → s.podStats key = some r ∨ c.about = some r)
    (hnx : ∀ c' ∈ next, c'.loads = false ∧ ∀ r, c'.about = some r → c.about = some r ∨ ∃ key, s.podStats key = some r)
    (hon : ∀ r < s.recorded, s'.completed.count r + (next.countP (·.completes r) + M.countP (·.completes r)) =
      if (s'.records r).consumed then 1 else 0) : s'.Records (↑next + M) := by
  have hsl : ∀ r, c.about = some r → r < s.recorded := h.about c (mem_cons_self c M)
  refine ⟨fun r hr => ?_, fun key r hr => ?_, fun c' hc' r hr => ?_, fun r hr => ?_, fun r hr => ?_,
    fun r podKey requestID modelName consumption hmem => ?_⟩
  · rw [hrc] at hr
    rw [hpod r hr]
    exact (h.pod r hr).trans_le hpb
  · rw [hrc]
    exact (hst key r hr).elim (h.stored key r) (hsl r)
  · rw [hrc]
    obtain hc' | hc' := mem_add.1 hc'
    · exact ((hnx c' hc').2 r hr).elim (hsl r) fun ⟨key, hkey⟩ => h.stored key r hkey
    · exact h.about c' (mem_cons_of_mem hc') r hr
  · rw [hrc]
    exact (hfn r hr).elim (h.finished r) (hsl r)
  · rw [hrc] at hr
    simpa using hon r hr
  · have hold : .addPendingLoad r podKey requestID modelName consumption ∈ M := by
      refine (mem_add.1 hmem).resolve_left fun hnew => ?_
      simpa [loads] using (hnx _ hnew).1
    obtain ⟨hne, hcn⟩ := h.about_ne_of_loading hold
    obtain ⟨hcs, hld, hpd, hpr, _⟩ := h.loading r podKey requestID modelName consumption (mem_cons_of_mem hold)
    have hlt : (s.records r).pod < s.published := h.pod r (h.about _ (mem_cons_of_mem hold) r rfl)
    rw [hrr r hne, hkey _ hlt]
    refine ⟨hcs, hld, hpd, fun key hr => ?_, ?_⟩
    · exact (hst key r hr).elim (hpr key) hne
    rw [countP_add, hcn, coe_countP, countP_eq_zero.2, zero_add]
    intro c' hc' hr
    obtain hr | ⟨key, hr⟩ := (hnx c' hc').2 r (by simpa using hr)
    · exact hne hr
    · exact hpr key hr

theorem Records.once_tail (hr : r < s.recorded) (hc : c.completes r = false) :
    s.completed.count r + M.countP (·.completes r) = if (s.records r).consumed then 1 else 0 := by
  rw [← h.once r hr, Multiset.countP_cons, if_neg (by simp [hc]), add_zero]

theorem Records.move (hc : ∀ r, c.completes r = false)
    (hst : ∀ key r, podStats key = some r → s.podStats key = some r ∨ c.about = some r)
    (hnx : ∀ c' ∈ next, c'.loads = false ∧ (∀ r, c'.completes r = false) ∧
      ∀ r, c'.about = some r → c.about = some r ∨ ∃ key, s.podStats key = some r) :
    ({ s with podStats } : Store).Records (↑next + M) := by
  refine h.step rfl (fun _ _ => rfl) le_rfl (fun _ _ => rfl) (fun _ _ => rfl) (fun _ => .inl) hst
    (fun c' hc' => ⟨(hnx c' hc').1, (hnx c' hc').2.2⟩) fun r hr => ?_
  have hnn : next.countP (·.completes r) = 0 :=
    countP_eq_zero.2 fun c' hc' => by simp [(hnx c' hc').2.1 r]
  rw [hnn, zero_add]
  exact h.once_tail hr (hc r)

theorem Records.of_pods (hc : c.about = none) (hrc : s'.records = s.records)
    (hrr : s'.recorded = s.recorded) (hcm : s'.completed = s.completed) (hpodStats : s'.podStats = s.podStats)
    (hpb : s.published ≤ s'.published) (hkey : ∀ pod < s.published, (s'.pods pod).podKey = (s.pods pod).podKey)
    (hnx : ∀ c' ∈ next, c'.about = none) : s'.Records (↑next + M) := by
  have hcp : ∀ c : Cmd, c.about = none → ∀ r, c.completes r = false :=
    fun c hc r => completes_of_about_ne (by simp [hc])
  refine h.step hrr (fun _ _ => by rw [hrc]) hpb hkey (fun _ _ => by rw [hrc])
    (fun r hr => .inl (hcm ▸ hr)) (fun key r hr => .inl (by rwa [hpodStats] at hr))
    (fun c' hc' => ⟨loads_of_about_none (hnx c' hc'), by simp [hnx c' hc']⟩) fun r hr => ?_
  have hnn : next.countP (·.completes r) = 0 :=
    countP_eq_zero.2 fun c' hc' => by simp [hcp c' (hnx c' hc') r]
  rw [hnn, zero_add, hcm, hrc]
  exact h.once_tail hr (hcp c hc r)

end

theorem Records.push (h : s.Records M) (hnx : ∀ c ∈ next, c.about = none) : s.Records (↑next + M) := by
  refine ⟨h.pod, h.stored, fun c hc r hr => ?_, h.finished, fun r hr => ?_,
    fun r podKey requestID modelName consumption hmem => ?_⟩
  · obtain hc | hc := mem_add.1 hc
    · simp [hnx c hc] at hr
    · exact h.about c hc r hr
  · have hnn : next.countP (·.completes r) = 0 :=
      countP_eq_zero.2 fun c hc => by simp [completes_of_about_ne (r := r) (c := c) (by simp [hnx c hc])]
    rw [← h.once r hr]
    simpa using hnn
  · have hold := (mem_add.1 hmem).resolve_left fun hnew => by simpa [Cmd.about] using hnx _ hnew
    have hnn : next.countP (·.about = some r) = 0 :=
      countP_eq_zero.2 fun c hc => by simp [hnx c hc]
    rw [countP_add, coe_countP, hnn, zero_add]
    exact h.loading r podKey requestID modelName consumption hold

theorem Records.take (h : s.Records (.take r outputTokens ::ₘ M)) :
    (exec (.take r outputTokens) s).1.Records (↑(exec (.take r outputTokens) s).2 + M) := by
  by_cases hcn : (s.records r).consumed = true
  · simp only [exec, if_pos hcn]
    exact h.move (fun _ => rfl) (fun _ _ => .inl) (by simp)
  have hfr : (s.records r).consumed = false := by simpa using hcn
  simp only [exec, if_neg hcn]
  refine h.step rfl (fun r' _ => ?_) le_rfl (fun _ _ => rfl) (fun r' hr' => ?_) (fun _ => .inl) (fun _ _ => .inl) ?_
    fun r' hr' => ?_
  · by_cases heq : r' = r
    · subst heq
      simp
    · simp [heq]
  · have hne : r' ≠ r := fun heq => hr' (by simp [Cmd.about, heq])
    simp [hne]
  · simp [Cmd.loads, Cmd.about]
  · have hon := h.once_tail hr' rfl
    by_cases heq : r' = r
    · subst heq
      rw [hfr, if_neg Bool.false_ne_true] at hon
      simp
      omega
    · have hne : ¬ r = r' := fun h => heq h.symm
      simpa [heq, hne] using hon

theorem Records.open_of_complete (h : s.Records M) (hmem : .complete r outputTokens ∈ M) : r ∉ s.completed := by
  have hon := h.once r (h.about _ hmem r rfl)
  have hpos : 0 < M.countP (·.completes r) := countP_pos.2 ⟨_, hmem, by simp⟩
  rw [← List.count_eq_zero]
  split at hon <;> omega

theorem Records.complete (h : s.Records (.complete r outputTokens ::ₘ M)) : (s.complete r outputTokens).Records M := by
  have hrc : (s.complete r outputTokens).records = s.records := by simp [Store.complete]
  have hpodStats : (s.complete r outputTokens).podStats = s.podStats := by simp [Store.complete]
  have hcm : (s.complete r outputTokens).completed = s.completed ++ [r] := rfl
  have hst : (s.complete r outputTokens).Records (↑([] : List Cmd) + M) := by
    refine h.step (by simp [Store.complete]) (fun _ _ => by rw [hrc]) (by simp [Store.complete])
      (fun _ _ => by simp [Store.complete])
      (fun _ _ => by rw [hrc]) (fun r' hr' => ?_) (fun key r' hr' => .inl (by rwa [hpodStats] at hr')) (by simp)
      fun r' hr' => ?_
    · rw [hcm, List.mem_append, List.mem_singleton] at hr'
      exact hr'.imp_right fun heq => congrArg some heq.symm
    have hon := h.once r' hr'
    rw [hcm, hrc, ← hon, List.count_append, List.count_singleton, Multiset.countP_cons]
    simp
    omega
  simpa using hst

/-! ## Counters -/

theorem outstanding_congr (hrc : s'.recorded = s.recorded)
    (hgn : ∀ r < s.recorded, s'.generation (s'.records r).pod = s.generation (s.records r).pod)
    (hld : ∀ r < s.recorded, (s'.records r).pendingLoad = (s.records r).pendingLoad)
    (hcm : s'.completed = s.completed) (generation : Nat) : s'.outstanding generation = s.outstanding generation := by
  unfold outstanding
  rw [hrc, hcm]
  exact heldSum_congr (fun r hr => by rw [hgn r hr]) fun r hr _ => by rw [hld r hr]

theorem Records.update (h : s.Records M) (podKey : String) (f : Counters → Counters) (target : Nat ⊕ DeletedPodSnapshot) :
    (s.update podKey f target).Records M := by
  refine ⟨?_, ?_, ?_, ?_, ?_, ?_⟩
  · simpa using h.pod
  · simpa using h.stored
  · simpa using h.about
  · simpa using h.finished
  · simpa using h.once
  · simpa using h.loading

theorem outstanding_update {f : Counters → Counters} {target : Nat ⊕ DeletedPodSnapshot}
    (hf : ∀ c, (f c).statsGeneration = c.statsGeneration) (g : Nat) :
    (s.update podKey f target).outstanding g = s.outstanding g :=
  outstanding_congr update_recorded (fun r _ => by rw [update_records, update_generation hf])
    (fun r _ => by rw [update_records]) update_completed g

def Counted (s : Store) : Prop :=
  ∀ key c, s.tracked key = some c → (c.runningRequests, c.pendingLoadUtilization) = s.outstanding c.statsGeneration

theorem Counted.move (h : s.Counted) (delta : ℤ × ℚ) {gen : Nat} {f : Counters → Counters}
    (htr : ∀ key, s'.tracked key = (s.tracked key).map fun c => if c.statsGeneration = gen then f c else c)
    (hf : ∀ c, (f c).statsGeneration = c.statsGeneration)
    (hdl : ∀ key c, s.tracked key = some c → c.statsGeneration = gen →
      ((f c).runningRequests, (f c).pendingLoadUtilization) = (c.runningRequests, c.pendingLoadUtilization) + delta)
    (hot : ∀ g, s'.outstanding g = s.outstanding g + if gen = g then delta else 0) : s'.Counted := by
  intro key c hc
  rw [htr, map_eq_some_iff] at hc
  obtain ⟨c₀, hc₀, rfl⟩ := hc
  rw [hot]
  split
  · rename_i hgen
    rw [hdl key c₀ hc₀ hgen, hf, h key c₀ hc₀, if_pos hgen.symm]
  · rename_i hgen
    rw [h key c₀ hc₀, if_neg (fun heq => hgen heq.symm), add_zero]

structure Accounted (s : Store) (M : Multiset Cmd) : Prop extends s.Registry, s.Records M where
  counted : s.Counted

theorem Accounted.running_pos (h : s.Accounted M) (hr : r < s.recorded) (hop : r ∉ s.completed)
    {c : Counters} (hc : s.tracked key = some c) (hgen : c.statsGeneration = s.generation (s.records r).pod) :
    0 < c.runningRequests := by
  have hrn : c.runningRequests = (s.outstanding c.statsGeneration).1 := congrArg Prod.fst (h.counted key c hc)
  rw [hrn]
  exact one_le_heldSum_fst hr ⟨hgen.symm, hop⟩

theorem Accounted.complete (h : s.Accounted (.complete r outputTokens ::ₘ M)) :
    (s.complete r outputTokens).Accounted M := by
  have hr : r < s.recorded := h.about _ (mem_cons_self _ _) r rfl
  have hop : r ∉ s.completed := h.open_of_complete (mem_cons_self _ _)
  have hst := h.stands_resolve (h.pod r hr) rfl
  have hf : ∀ c, (finish outputTokens (s.records r).pendingLoad c).statsGeneration = c.statsGeneration := fun _ => rfl
  have hrg := h.toRegistry.update hst hf
  refine ⟨⟨hrg.live, hrg.snapshot, hrg.issued, hrg.keyed, hrg.buffer⟩, h.toRecords.complete, ?_⟩
  refine h.counted.move (-(1, (s.records r).pendingLoad)) (h.toRegistry.tracked_update hst) hf ?_ fun g => ?_
  · intro key c hc hgen
    rw [finish, decrementClamped, if_neg (not_le.2 (h.running_pos hr hop hc hgen))]
    simp [sub_eq_add_neg]
  have hgn : ∀ pod, (s.complete r outputTokens).generation pod = s.generation pod := update_generation hf
  have hrc : (s.complete r outputTokens).records = s.records := by simp [Store.complete]
  have hrr : (s.complete r outputTokens).recorded = s.recorded := by simp [Store.complete]
  have hcm : (s.complete r outputTokens).completed = s.completed ++ [r] := rfl
  unfold outstanding
  rw [hrr, hrc, hcm]
  exact heldSum_leave hr (and_iff_left hop) (by simp) fun i _ hi => by simp [hgn, hi]

theorem Records.open_of_free (h : s.Records M) (hr : r < s.recorded) (hfr : (s.records r).consumed = false) :
    r ∉ s.completed := by
  have hon := h.once r hr
  rw [hfr, if_neg Bool.false_ne_true] at hon
  exact count_eq_zero.1 (by omega)

theorem setPendingLoad_pod (r : Nat) (load : ℚ) (r' : Nat) :
    let q := (s.setPendingLoad r load).records r'
    q.pod = (s.records r').pod ∧ q.consumed = (s.records r').consumed := by
  by_cases heq : r' = r
  · subst heq
    simp [setPendingLoad]
  · simp [setPendingLoad, heq]

theorem outstanding_setPendingLoad (hr : r < s.recorded) (hop : r ∉ s.completed)
    (hld : (s.records r).pendingLoad = 0) (load : ℚ) (g : Nat) : (s.setPendingLoad r load).outstanding g =
      s.outstanding g + if s.generation (s.records r).pod = g then (0, load) else 0 := by
  have hch : (s.setPendingLoad r load).outstanding g = s.outstanding g +
      ((if s.generation (s.records r).pod = g then ((1 : ℤ), load) else 0) -
        if s.generation (s.records r).pod = g then ((1 : ℤ), (s.records r).pendingLoad) else 0) := by
    have hnew : load = ((s.setPendingLoad r load).records r).pendingLoad := by simp [setPendingLoad]
    nth_rewrite 2 [hnew]
    refine heldSum_change hr (and_iff_left hop) ?_ (fun i _ hi => ?_) fun i _ hi _ => ?_
    · rw [(setPendingLoad_pod r load r).1]
      exact and_iff_left hop
    · rw [(setPendingLoad_pod r load i).1]
      rfl
    · simp [setPendingLoad, hi]
  rw [hch, hld]
  split <;> simp

theorem Accounted.addPendingLoad {load : ℚ}
    (h : s.Accounted (.addPendingLoad r podKey requestID modelName (some load) ::ₘ M)) :
    (s.addPendingLoad r podKey load).Accounted (↑([.storePodStats r requestID modelName] : List Cmd) + M) := by
  have hr : r < s.recorded := h.about _ (mem_cons_self _ _) r rfl
  obtain ⟨hfr, hld, hkey, -, -⟩ := h.loading r _ _ _ _ (mem_cons_self _ _)
  have hrg : (s.setPendingLoad r load).Registry := ⟨h.live, h.snapshot, h.issued, h.keyed, h.buffer⟩
  have hst := h.stands_resolve (h.pod r hr) hkey
  have hf : ∀ c : Counters, ({ c with pendingLoadUtilization := c.pendingLoadUtilization + load }).statsGeneration =
    c.statsGeneration := fun _ => rfl
  refine ⟨hrg.update hst hf, ?_, ?_⟩
  · refine h.toRecords.step (by simp [Store.addPendingLoad, setPendingLoad]) (fun r' _ => ?_)
      (by simp [Store.addPendingLoad, setPendingLoad]) (by simp [Store.addPendingLoad, setPendingLoad]) (fun r' hr' => ?_)
      (fun r' hr' => .inl (by simpa [Store.addPendingLoad, setPendingLoad] using hr'))
      (fun key r' hr' => .inl (by simpa [Store.addPendingLoad, setPendingLoad] using hr'))
      (by simp [Cmd.loads, Cmd.about]) fun r' hr' => ?_
    · rw [Store.addPendingLoad, update_records, (setPendingLoad_pod r load r').1]
    · have hne : r' ≠ r := fun heq => hr' (by simp [Cmd.about, heq])
      simp [Store.addPendingLoad, setPendingLoad, hne]
    · have hon := h.once_tail hr' rfl
      rw [Store.addPendingLoad, update_records, (setPendingLoad_pod r load r').2, ← hon]
      simp [setPendingLoad, Cmd.completes]
  · refine h.counted.move (0, load) (hrg.tracked_update hst) hf (by simp) fun g => ?_
    rw [← outstanding_setPendingLoad hr (h.open_of_free hr hfr) hld]
    exact outstanding_update hf g

theorem records_record (s : Store) (pod : Nat) (ctx : Option Nat) :
    (∀ r < s.recorded, (s.record pod ctx).records r = s.records r) ∧
      (s.record pod ctx).records s.recorded = { pod, ctx } :=
  ⟨fun _ hr => update_of_ne (ne_of_lt hr) _ _, update_self _ _ _⟩

theorem Records.record {pod : Nat} {ctx : Option Nat}
    (h : s.Records (c ::ₘ M)) (hc : c.about = none) (hpod : pod < s.published) (hkey : (s.pods pod).podKey = podKey) :
    (s.record pod ctx).Records (.addPendingLoad s.recorded podKey requestID modelName consumption ::ₘ M) := by
  obtain ⟨hold, hnew⟩ := s.records_record pod ctx
  have hrs : ∀ c' ∈ M, ∀ r, c'.about = some r → r < s.recorded :=
    fun c' hc' => h.about c' (mem_cons_of_mem hc')
  refine ⟨fun r hr => ?_, fun key r hr => Nat.lt_succ_of_lt (h.stored key r hr), fun c' hc' r hr => ?_,
    fun r hr => Nat.lt_succ_of_lt (h.finished r hr), fun r hr => ?_, ?_⟩
  · obtain hr | rfl := Nat.lt_succ_iff_lt_or_eq.1 hr
    · rw [hold r hr]
      exact h.pod r hr
    · rw [hnew]
      exact hpod
  · obtain rfl | hc' := mem_cons.1 hc'
    · obtain rfl : s.recorded = r := some.inj hr
      exact Nat.lt_succ_self _
    · exact Nat.lt_succ_of_lt (hrs c' hc' r hr)
  · rw [Multiset.countP_cons, if_neg (by simp [Cmd.completes]), add_zero]
    obtain hr | rfl := Nat.lt_succ_iff_lt_or_eq.1 hr
    · rw [hold r hr]
      exact h.once_tail hr (Cmd.completes_of_about_ne (by simp [hc]))
    have hcn : s.completed.count s.recorded = 0 :=
      List.count_eq_zero.2 fun hmem => absurd (h.finished _ hmem) (lt_irrefl _)
    have hcountP : M.countP (·.completes s.recorded) = 0 := by
      refine countP_eq_zero.2 fun c' hc' hcm => ?_
      exact absurd (hrs c' hc' _ (Cmd.about_of_completes hcm)) (lt_irrefl _)
    rw [hnew]
    simpa using ⟨hcn, hcountP⟩
  · intro r podKey' requestID' modelName' consumption' hmem
    rw [Multiset.countP_cons]
    obtain heq | hmem := Multiset.mem_cons.1 hmem
    · cases heq
      have hcountP : M.countP (·.about = some s.recorded) = 0 :=
        countP_eq_zero.2 fun c' hc' hr => absurd (hrs c' hc' _ hr) (lt_irrefl _)
      rw [hnew, hcountP]
      exact ⟨rfl, rfl, hkey, fun key hr => absurd (h.stored key _ hr) (lt_irrefl _), by simp [Cmd.about]⟩
    · have hr : r < s.recorded := hrs _ hmem r rfl
      obtain ⟨hfr, hld, hpd, hpr, _⟩ := h.loading r _ _ _ _ (mem_cons_of_mem hmem)
      rw [hold r hr, (h.about_ne_of_loading hmem).2, if_neg (by simpa [Cmd.about] using ne_of_gt hr)]
      exact ⟨hfr, hld, hpd, hpr, rfl⟩

theorem outstanding_record (h : s.Records M) (pod : Nat) (ctx : Option Nat) (g : Nat) :
    (s.record pod ctx).outstanding g = s.outstanding g + if s.generation pod = g then (1, 0) else 0 := by
  obtain ⟨hold, hnew⟩ := s.records_record pod ctx
  have hop : s.recorded ∉ s.completed := fun hmem => absurd (h.finished _ hmem) (lt_irrefl _)
  have hsum : (s.record pod ctx).outstanding g = s.outstanding g +
      if s.generation pod = g then ((1 : ℤ), ((s.record pod ctx).records s.recorded).pendingLoad) else 0 := by
    refine heldSum_succ_of_iff ?_ (fun r hr => ?_) fun r hr _ => ?_
    · rw [hnew]
      exact and_iff_left hop
    · rw [hold r hr]
      rfl
    · rw [hold r hr]
  rw [hsum, hnew]

theorem Accounted.addPodStats {ctx : RoutingContext} {podIP : String}
    {pod : Nat} {target : Nat ⊕ DeletedPodSnapshot} (h : s.Accounted (.addPodStats ctx requestID modelName consumption ::ₘ M))
    (hrt : s.routed podKey podIP = some (pod, target)) :
    ((s.update podKey (fun c => { c with runningRequests := c.runningRequests + 1 }) target).record pod
      (some ctx.address)).Accounted (.addPendingLoad s.recorded podKey requestID modelName consumption ::ₘ M) := by
  obtain ⟨hpod, hkey, hst⟩ := h.stands_routed hrt
  have hf : ∀ c : Counters, ({ c with runningRequests := c.runningRequests + 1 }).statsGeneration = c.statsGeneration :=
    fun _ => rfl
  have hrg := h.toRegistry.update hst hf
  refine ⟨⟨hrg.live, hrg.snapshot, hrg.issued, hrg.keyed, hrg.buffer⟩, ?_, ?_⟩
  · have hrc := h.toRecords.update podKey (fun c => { c with runningRequests := c.runningRequests + 1 }) target
    simpa using hrc.record rfl (by simpa using hpod) (by simpa using hkey)
  · refine h.counted.move (1, 0) (h.toRegistry.tracked_update hst) hf (by simp) fun g => ?_
    rw [outstanding_record (h.toRecords.update _ _ _), outstanding_update hf, update_generation hf]

section

variable (h : s.Accounted (c ::ₘ M))
include h

theorem Accounted.of_records (hrg : s'.Registry) (hrc : s'.Records (↑next + M))
    (htr : s'.tracked = s.tracked) (hot : s'.outstanding = s.outstanding) : s'.Accounted (↑next + M) :=
  ⟨hrg, hrc, by
    unfold Counted
    rw [htr, hot]
    exact h.counted⟩

/-- A command about pods: what is tracked was tracked before, or is new and at zero. -/
theorem Accounted.of_pods (hrg : s'.Registry) (hrc : s'.Records (↑next + M))
    (hot : ∀ g, s'.outstanding g = s.outstanding g) (htr : ∀ key c', s'.tracked key = some c' →
      (∃ c₀, s.tracked key = some c₀ ∧ ∃ readySince, c' = { c₀ with readySince }) ∨
        ∃ readySince, c' = { statsGeneration := s.nextStatsGeneration + 1, readySince }) :
    s'.Accounted (↑next + M) := by
  refine ⟨hrg, hrc, fun key c' hc' => ?_⟩
  obtain ⟨c₀, hc₀, _, rfl⟩ | ⟨_, rfl⟩ := htr key c' hc'
  · rw [hot]
    exact h.counted key c₀ hc₀
  rw [hot]
  refine (heldSum_eq_zero fun r hr hhl => ?_).symm
  have hgen : s.generation (s.records r).pod = s.nextStatsGeneration + 1 := hhl.1
  have := (h.issued _ (h.pod r hr)).2
  omega

omit h in
theorem Accounted.addPod {podIP : String} {ready : Bool} (h : s.Accounted (.addPod podKey podIP ready now ::ₘ M)) :
    (s.addPodLocked podKey podIP ready now).Accounted (↑([] : List Cmd) + M) := by
  have hpd : ∀ pod < s.published, (s.addPodLocked podKey podIP ready now).pods pod = s.pods pod := by
    intro pod hpod
    unfold addPodLocked
    cases s.metaPods podKey with
    | some _ => rfl
    | none => exact update_of_ne (ne_of_lt hpod) _ _
  have hrs : let s' := s.addPodLocked podKey podIP ready now
      s'.records = s.records ∧ s'.recorded = s.recorded ∧ s'.completed = s.completed ∧ s'.podStats = s.podStats ∧
        s.published ≤ s'.published := by
    unfold addPodLocked
    cases s.metaPods podKey <;> simp
  obtain ⟨hrc, hrr, hcm, hpodStats, hpb⟩ := hrs
  refine h.of_pods (h.toRegistry.addPodLocked podIP ready now) ?_ (fun g => ?_) fun key c hc => h.tracked_addPodLocked hc
  · exact h.toRecords.of_pods rfl hrc hrr hcm hpodStats hpb (fun pod hpod => by rw [hpd pod hpod]) (by simp)
  · refine outstanding_congr hrr (fun r hr => ?_) (fun r _ => by rw [hrc]) hcm g
    rw [hrc, generation, hpd _ (h.pod r hr), generation]

omit h in
theorem Accounted.deletePod {visited : List String}
    (h : s.Accounted (.deletePod podKey now visited ::ₘ M)) (hnx : ∀ c ∈ next, c.about = none) :
    (s.deletePodLocked podKey now).Accounted (↑next + M) := by
  have hsm : ∃ metaPods recentlyDeletedPods,
      s.deletePodLocked podKey now = { s with metaPods, recentlyDeletedPods } := by
    unfold deletePodLocked
    cases s.metaPods podKey <;> exact ⟨_, _, rfl⟩
  have htr := s.tracked_deletePodLocked podKey now
  have hrg : (s.deletePodLocked podKey now).Registry := h.toRegistry.deletePodLocked now
  obtain ⟨metaPods, recentlyDeletedPods, heq⟩ := hsm
  rw [heq] at htr hrg ⊢
  exact h.of_records hrg (h.toRecords.of_pods rfl rfl rfl rfl rfl le_rfl (fun _ _ => rfl) hnx) (funext htr) rfl

omit h in
theorem Accounted.prune (h : s.Accounted (.pruneExpired podKey now ::ₘ M)) :
    (s.pruneExpired podKey now).Accounted (↑([] : List Cmd) + M) :=
  h.of_pods (h.toRegistry.pruneExpired now) (h.toRecords.of_pods rfl rfl rfl rfl rfl le_rfl (fun _ _ => rfl) (by simp))
    (fun _ => rfl) fun _ c hc => .inl ⟨c, tracked_pruneExpired hc, c.readySince, rfl⟩

theorem Accounted.skip (hc : ∀ r, c.completes r = false)
    (hst : ∀ key r, podStats key = some r → s.podStats key = some r ∨ c.about = some r) :
    ({ s with podStats } : Store).Accounted (↑([] : List Cmd) + M) :=
  h.of_records ⟨h.live, h.snapshot, h.issued, h.keyed, h.buffer⟩ (h.toRecords.move hc hst (by simp)) rfl rfl

theorem Accounted.pass {c' : Cmd} (hc : ∀ r, c.completes r = false)
    (hst : ∀ key r, podStats key = some r → s.podStats key = some r ∨ c.about = some r)
    (hnx : c'.loads = false ∧ ∀ r, c'.completes r = false)
    (hab : ∀ r, c'.about = some r → c.about = some r ∨ ∃ key, s.podStats key = some r) :
    ({ s with podStats } : Store).Accounted (↑[c'] + M) := by
  refine h.of_records ⟨h.live, h.snapshot, h.issued, h.keyed, h.buffer⟩ (h.toRecords.move hc hst fun c'' hc'' => ?_) rfl rfl
  obtain rfl := List.mem_singleton.1 hc''
  exact ⟨hnx.1, hnx.2, hab⟩

end

theorem podStats_of_drop {key' : String} (h : Function.update s.podStats key none key' = some r) :
    s.podStats key' = some r := by
  by_cases hkey : key' = key
  · subst hkey
    simp at h
  · simpa [hkey] using h

theorem Accounted.store (h : s.Accounted (.storePodStats r requestID modelName ::ₘ M))
    (hst : ∀ key r', podStats key = some r' → s.podStats key = some r' ∨ r' = r) :
    ({ s with podStats } : Store).Accounted (↑[storeAlias r requestID modelName] + M) :=
  h.pass (fun _ => rfl) (fun key r' hr' => (hst key r' hr').imp_right fun heq => congrArg some heq.symm)
    ⟨rfl, fun _ => rfl⟩ fun _ => .inl

theorem Accounted.takeStored {ctx : Option Nat}
    {c' : Cmd} (h : s.Accounted (.takePodStats ctx requestID modelName outputTokens ::ₘ M)) (hfn : s.podStats key = some r)
    (hnx : c'.loads = false ∧ (∀ r, c'.completes r = false)) (hab : c'.about = some r) :
    ({ s with podStats := Function.update s.podStats key none } : Store).Accounted (↑[c'] + M) := by
  refine h.pass (fun _ => rfl) (fun key' r' hr' => .inl (podStats_of_drop hr')) hnx fun r' hr' => .inr ⟨key, ?_⟩
  rw [hfn, ← hab, hr']

theorem Accounted.exec (h : s.Accounted (c ::ₘ M)) : (exec c s).1.Accounted (↑(exec c s).2 + M) := by
  cases c with
  | addPodStats ctx requestID modelName consumption =>
    have hsk : s.Accounted (↑([] : List Cmd) + M) := h.skip (fun _ => rfl) fun _ _ => .inl
    simp only [exec]
    split
    · exact hsk
    · split
      · exact hsk
      · simpa using h.addPodStats ‹_›
  | addPendingLoad r podKey requestID modelName consumption =>
    cases consumption with
    | none => exact h.pass (fun _ => rfl) (fun _ _ => .inl) ⟨rfl, fun _ => rfl⟩ fun _ => .inl
    | some load => exact h.addPendingLoad
  | storePodStats r requestID modelName =>
    simp only [exec]
    split
    · refine h.store fun key r' hr' => ?_
      rw [update_apply] at hr'
      split at hr'
      · exact .inr (some.inj hr').symm
      · exact .inl hr'
    · exact h.store fun _ _ => .inl
  | storeAlias r requestID modelName =>
    refine h.skip (fun _ => rfl) fun key r' hr' => ?_
    rw [update_apply] at hr'
    split at hr'
    · rename_i hkey
      rw [hkey]
      cases hold : s.podStats _ with
      | none =>
        rw [hold] at hr'
        exact .inr hr'
      | some r₀ =>
        rw [hold] at hr'
        exact .inl hr'
    · exact .inl hr'
  | takePodStats ctx requestID modelName outputTokens =>
    simp only [exec]
    split
    · exact h.skip (fun _ => rfl) fun _ _ => .inl
    rename_i r hfn
    refine h.takeStored hfn ?_ ?_
    · split <;> exact ⟨rfl, fun _ => rfl⟩
    · split <;> rfl
  | dropOther r key outputTokens =>
    simp only [exec]
    split
    · exact h.pass (fun _ => rfl) (fun _ _ hr' => .inl (podStats_of_drop hr')) ⟨rfl, fun _ => rfl⟩ fun _ => .inl
    · exact h.pass (fun _ => rfl) (fun _ _ => .inl) ⟨rfl, fun _ => rfl⟩ fun _ => .inl
  | take r outputTokens =>
    refine h.of_records ?_ h.toRecords.take ?_ ?_ <;> simp only [exec] <;> split
    · exact h.toRegistry
    · exact ⟨h.live, h.snapshot, h.issued, h.keyed, h.buffer⟩
    · rfl
    · rfl
    · rfl
    -- Consuming a record changes nothing that is counted.
    funext g
    refine outstanding_congr (by rfl) (fun r' _ => ?_) (fun r' _ => ?_) (by rfl) g <;> by_cases heq : r' = r
    · subst heq
      simp [generation]
    · simp [generation, heq]
    · subst heq
      simp
    · simp [heq]
  | complete r outputTokens => simpa [exec] using h.complete
  | addPod podKey podIP ready now => exact h.addPod
  | deletePod podKey now visited =>
    refine h.deletePod fun c hc => ?_
    simp only [exec] at hc
    split at hc
    · obtain ⟨_, _, rfl⟩ := mem_map.1 hc
      rfl
    · simp at hc
  | pruneExpired podKey now => exact h.prune

theorem Accounted.init : ({} : Store).Accounted 0 :=
  ⟨⟨by simp, by simp, by simp, by simp, by simp⟩, ⟨by simp, by simp, by simp, by simp, by simp, by simp⟩,
    fun key c hc => by simp [tracked] at hc⟩

theorem Accounted.start (h : s.Accounted M) (call : Call) : s.Accounted (↑call.program + M) := by
  refine ⟨h.toRegistry, h.toRecords.push fun c hc => ?_, h.counted⟩
  cases call <;> obtain rfl := List.mem_singleton.1 hc <;> rfl

end Store

/-! ## Whole runs -/

def Store.InSight (s : Store) (podKey : String) : Nat ⊕ DeletedPodSnapshot → Prop
  | .inl pod => s.metaPods podKey = some pod
  | .inr snap => s.recentlyDeletedPods podKey = some snap

/-- A completion takes an open record off counters that show it, and leaves other generations alone. -/
structure Store.CompletesOnce (s : Store) (r : Nat) (outputTokens : Int) : Prop where
  isOpen : r ∉ s.completed
  unclamped : ∀ target, s.resolvePodOrSnapshotLocked (s.pods (s.records r).pod).podKey (s.records r).pod = target →
    s.InSight (s.pods (s.records r).pod).podKey target → (decrementClamped (s.countersOf target).runningRequests).2 = false
  others : ∀ key c, s.tracked key = some c → c.statsGeneration ≠ s.generation (s.records r).pod →
    (s.complete r outputTokens).tracked key = some c

theorem Store.Accounted.completesOnce {s : Store} {M : Multiset Cmd} {outputTokens : Int} (h : s.Accounted M)
    (hmem : .complete r outputTokens ∈ M) : s.CompletesOnce r outputTokens := by
  have hr : r < s.recorded := h.about _ hmem r rfl
  have hop : r ∉ s.completed := h.open_of_complete hmem
  have hst := h.stands_resolve (h.pod r hr) rfl
  refine ⟨hop, ?_, ?_⟩
  · rintro target htg hsg
    rw [htg] at hst
    have htr : s.tracked (s.pods (s.records r).pod).podKey = some (s.countersOf target) ∧
        (s.countersOf target).statsGeneration = s.generation (s.records r).pod := by
      cases target with
      | inl pod => exact ⟨tracked_of_live hsg, hst.2.2.1⟩
      | inr snap =>
        refine ⟨?_, hst.2.2⟩
        rw [tracked_of_absent hst.1, hst.2.1]
        rfl
    rw [decrementClamped, if_neg (not_le.2 (h.running_pos hr hop htr.1 htr.2))]
  · intro key c hc hgen
    have hup := h.tracked_update (f := finish outputTokens (s.records r).pendingLoad) hst key
    rw [hc, map_some, if_neg hgen] at hup
    exact hup

theorem interleaving_accounted {p : Pool Store Cmd} (h : interleaving.Reachable {} p) :
    (∀ podKey c, p.state.tracked podKey = some c →
      (c.runningRequests, c.pendingLoadUtilization) = p.state.outstanding c.statsGeneration) ∧
    p.state.completed.Nodup ∧
    ∀ r outputTokens, .complete r outputTokens ∈ p.pending → p.state.CompletesOnce r outputTokens := by
  have hok : p.state.Accounted p.pending := by
    refine h.invariant Store.Accounted.init ?_ fun s M c _ hok => hok.exec
    rintro s M commands ⟨call, rfl⟩ hok
    exact hok.start call
  refine ⟨hok.counted, ?_, fun r outputTokens hmem => hok.completesOnce hmem⟩
  rw [List.nodup_iff_count_le_one]
  intro r
  by_cases hr : r ∈ p.state.completed
  · have honce := hok.once r (hok.finished r hr)
    split at honce <;> omega
  · rw [List.count_eq_zero.2 hr]
    omega

/-- A pod flaps while two requests run on it, one of them started inside the gap. -/
def flap : List (System.Action Cmd) :=
  let run := fun (call : Call) (thread steps : Nat) => System.Action.start call.program :: List.replicate steps (.run thread)
  run (.addPodLocked "ns/pod" "10.0.0.1" true 1) 0 1 ++
    run (.addPodStats ⟨16, some ("ns/pod", "10.0.0.1")⟩ "a" "m" (some 2)) 1 4 ++
    run (.deletePodLocked "ns/pod" 5 ["ns/pod"]) 2 2 ++
    run (.addPodStats ⟨17, some ("ns/pod", "10.0.0.1")⟩ "b" "m" (some 3)) 3 4 ++
    run (.donePodStats (some 16) "a" "m" 7) 4 1 ++ run (.donePodStats none "a" "m" 7) 5 3 ++
    run (.addPodLocked "ns/pod" "10.0.0.1" true 9) 6 1 ++ [.run 4, .run 4, .run 5]

theorem interleaving_accounted_flap : ∃ p c, interleaving.Reachable {} p ∧ p.state.tracked "ns/pod" = some c ∧
    c.statsGeneration = 1 ∧ c.runningRequests = 1 ∧ c.pendingLoadUtilization = 3 ∧ p.state.completed = [0] ∧
      p.state.outstanding 1 = (1, 3) := by
  have hlegal : interleaving.Legal ⟨{}, []⟩ flap := by
    refine ⟨fun commands hmem => ?_, by decide +kernel⟩
    simp only [flap, List.mem_append, List.mem_cons, List.mem_replicate, reduceCtorEq, and_false, or_false,
      System.Action.start.injEq, List.not_mem_nil] at hmem
    rcases hmem with (((((rfl | rfl) | rfl) | rfl) | rfl) | rfl) | rfl <;> exact ⟨_, rfl⟩
  have hreach := System.Reachable.play (.refl : interleaving.Reachable {} ⟨{}, []⟩) hlegal
  have hc : (interleaving.play ⟨{}, []⟩ flap).state.tracked "ns/pod" = some ⟨1, 1, 1, 7, 3, 1⟩ := by decide +kernel
  have hcounted := (interleaving_accounted hreach).1 _ _ hc
  exact ⟨_, _, hreach, hc, rfl, rfl, rfl, by decide +kernel, hcounted.symm⟩

end Aibrix.PodStats
