import Aibrix.Vtc.Expiry
import Mathlib.Data.Set.Finite.List

/-! # The tracker and its window

After its expiry, `UpdateTokenCount` moves a bucket, then the total of the user, then the extremes. A read gives the
tokens of the updates that are not older than the window. -/

namespace Aibrix.Vtc

open Lib Function InMemorySlidingWindowTokenTracker

theorem UserBucketData.AddedTo.tokens {d d' : UserBucketData} {timestamp : Int} {newTokens : ℚ}
    (h : AddedTo d timestamp newTokens d') : tokens d'.buckets = tokens d.buckets + newTokens := by
  obtain ⟨x, hlow⟩ := (timestamp :: d.buckets.map (·.node.timestamp)).finite_toSet.bddBelow
  have hx : x ≤ timestamp := hlow (List.mem_cons_self ..)
  have hall : ∀ el ∈ d.buckets, x ≤ el.node.timestamp := fun el hel =>
    hlow (List.mem_cons_of_mem _ (List.mem_map_of_mem hel))
  have hsn := h.since x
  rw [if_pos hx, tokensSince_of_forall_le hall] at hsn
  rw [← hsn]
  refine (tokensSince_of_forall_le fun el hel => ?_).symm
  rcases h.timestamps el hel with heq | ⟨el', hel', heq⟩
  · rw [heq]
    exact hx
  · rw [← heq]
    exact hall el' hel'

namespace InMemorySlidingWindowTokenTracker

variable {t t' : InMemorySlidingWindowTokenTracker} {latest timestamp : Int} {user : String} {newTokens : ℚ}

structure TokensAdded (t : InMemorySlidingWindowTokenTracker) (user : String) (timestamp : Int) (newTokens : ℚ)
    (t' : InMemorySlidingWindowTokenTracker) : Prop where
  store : ∃ d', UserBucketData.AddedTo ((t.userBucketStore.lookup user).getD {}) timestamp newTokens d' ∧
    ∀ v, t'.userBucketStore.lookup v = if v = user then some d' else t.userBucketStore.lookup v
  members : ∀ v, v ∈ t'.expirations ↔ (t'.userBucketStore.lookup v).isSome = true
  nodup : t'.expirations.toList.Nodup
  ordered : Heap.Ordered t'.less t'.expirations
  others : t'.settings = t.settings ∧ t'.userTotals = t.userTotals ∧ t'.totalsToUsers = t.totalsToUsers ∧
    t'.minTrackedToken = t.minTrackedToken ∧ t'.maxTrackedToken = t.maxTrackedToken

theorem Core.addTokens (h : t.Core latest) (hlt : latest ≤ timestamp) (user : String) (hnew : 0 ≤ newTokens) :
    TokensAdded t user timestamp newTokens (t.addTokens user timestamp newTokens) := by
  unfold InMemorySlidingWindowTokenTracker.addTokens
  cases hd : t.userBucketStore.lookup user with
  | some d =>
    obtain ⟨hok, hne⟩ := h.data user d hd
    have had : UserBucketData.AddedTo ((t.userBucketStore.lookup user).getD {}) timestamp newTokens
        (d.add timestamp newTokens) := by
      rw [hd]
      refine hok.add (fun el hel => ?_) hnew
      exact (h.latest user el (by rw [bucketsOf_of_lookup hd]; exact hel)).trans hlt
    dsimp only
    generalize d.add timestamp newTokens = d' at had ⊢
    have hst : ∀ v, (t.userBucketStore.insert user d').lookup v =
        if v = user then some d' else t.userBucketStore.lookup v := fun v => KeyMap.lookup_insert_eq _ _
    have hol : ∀ v, oldest { t with userBucketStore := t.userBucketStore.insert user d' } v = t.oldest v := by
      rw [hd] at had
      intro v
      unfold oldest
      rw [hst]
      split
      · rename_i heq
        rw [heq, hd]
        exact had.oldest hne
      · rfl
    refine ⟨⟨d', had, hst⟩, fun v => ?_, h.nodup, h.ordered.congr fun v _ w _ => ?_, rfl, rfl, rfl, rfl, rfl⟩
    · rw [h.members, hst]
      split
      · rename_i heq
        rw [heq, hd]
        rfl
      · rfl
    · unfold less
      rw [hol, hol]
  | none =>
    have had : UserBucketData.AddedTo ((t.userBucketStore.lookup user).getD {}) timestamp newTokens
        (({} : UserBucketData).add timestamp newTokens) := by
      rw [hd]
      exact UserBucketData.Ok.new.add (fun el hel => absurd hel List.not_mem_nil) hnew
    generalize ({} : UserBucketData).add timestamp newTokens = d' at had ⊢
    obtain ⟨t₁, ht₁⟩ : ∃ t₁, t₁ = { t with userBucketStore := t.userBucketStore.insert user d' } := ⟨_, rfl⟩
    rw [← ht₁]
    have hst : ∀ v, t₁.userBucketStore.lookup v = if v = user then some d' else t.userBucketStore.lookup v := by
      rw [ht₁]
      exact fun v => KeyMap.lookup_insert_eq _ _
    have hexp : t₁.expirations = t.expirations := by rw [ht₁]
    have hnot : user ∉ t.expirations := by
      rw [h.members, hd]
      exact Bool.false_ne_true
    have hol : ∀ v ∈ t.expirations, t₁.oldest v = t.oldest v := by
      intro v hv
      have hne : v ≠ user := by
        rintro rfl
        exact hnot hv
      apply oldest_congr
      rw [hst, if_neg hne]
    have hps : Pushed t₁ user := by
      refine pushed ?_ (by rw [hexp]; exact h.nodup) (by rw [hexp]; exact hnot)
      rw [hexp]
      refine h.ordered.congr fun v hv w hw => ?_
      unfold less
      rw [hol v hv, hol w hw]
    refine ⟨⟨d', had, hst⟩, fun v => ?_, hps.nodup, hps.ordered, ?_⟩
    · rw [hps.members, hexp, h.members]
      change _ ↔ (t₁.userBucketStore.lookup v).isSome = true
      rw [hst]
      by_cases hv : v = user
      · simp [hv]
      · simp [hv]
    · rw [ht₁]
      exact ⟨rfl, rfl, rfl, rfl, rfl⟩

def moveTotal (t : InMemorySlidingWindowTokenTracker) (user : String) (oldTotal newTotal : ℚ) :
    InMemorySlidingWindowTokenTracker :=
  ((t.setTotal user newTotal).removeFromTotals oldTotal user).addToTotals newTotal user

theorem moveTotal_fields (t : InMemorySlidingWindowTokenTracker) (user : String) (oldTotal newTotal : ℚ) :
    let r := t.moveTotal user oldTotal newTotal
    r.settings = t.settings ∧
    r.userBucketStore = t.userBucketStore ∧
    r.expirations = t.expirations ∧
    r.minTrackedToken = t.minTrackedToken ∧
    r.maxTrackedToken = t.maxTrackedToken ∧
    r.userTotals = t.userTotals.insert user newTotal := by
  unfold moveTotal
  rw [addToTotals_eq, removeFromTotals_eq]
  exact ⟨rfl, rfl, rfl, rfl, rfl, rfl⟩

theorem inverse_moveTotal {total : String → ℚ} (h : Inverse t.totalsToUsers total) (user : String) (newTotal : ℚ) :
    Inverse (t.moveTotal user (total user) newTotal).totalsToUsers (update total user newTotal) := by
  have hrm := inverse_removeFromTotals (t := t.setTotal user newTotal) h user
  have had := inverse_addToTotals hrm (update_self ..) newTotal
  rw [update_idem] at had
  exact had

variable (h : t.Inv latest)
include h

theorem Inv.extremes {t₁ : InMemorySlidingWindowTokenTracker} {newTotal : ℚ} (hpos : 0 < newTotal)
    (hin : Inverse t₁.totalsToUsers (update t.total user newTotal))
    (hmin : t₁.minTrackedToken = t.minTrackedToken) (hmax : t₁.maxTrackedToken = t.maxTrackedToken) :
    let r := t₁.recalcMin (t.total user) newTotal
    LeastPositive (update t.total user newTotal) r.minTrackedToken ∧ GreatestPositive (update
      t.total user newTotal) (r.recalcMax (t.total user) newTotal).maxTrackedToken := by
  have hot : ∀ v ≠ user, update t.total user newTotal v = t.total v :=
    fun v hv => update_of_ne hv ..
  have hsl : ∃ v, update t.total user newTotal v = newTotal := ⟨user, update_self ..⟩
  -- Whoever had the old extreme still has it, or is the user.
  have hmv : ∀ {x}, (∃ v, t.total v = x) → (∃ v, update t.total user newTotal v = x) ∨ t.total user = x := by
    rintro x ⟨v, hv⟩
    by_cases heq : v = user
    · right
      rw [← heq]
      exact hv
    · exact .inl ⟨v, (hot v heq).trans hv⟩
  constructor
  · refine leastPositive_recalcMin hin ?_ ?_ (fun v hv => ?_) (fun _ _ => hsl) ?_
    · rw [hmin]
      exact h.least.pos
    · rw [hmin]
      exact h.least.bound
    · by_cases heq : v = user
      · rw [heq, update_self]
        exact .inr ⟨hpos, le_rfl⟩
      · rw [hot v heq] at hv ⊢
        rw [hmin]
        exact .inl (h.least.le v hv)
    · rw [hmin]
      exact h.least.attained.imp_right hmv
  · have hmax' : (t₁.recalcMin (t.total user) newTotal).maxTrackedToken = t.maxTrackedToken := hmax
    refine greatestPositive_recalcMax (t := t₁.recalcMin (t.total user) newTotal) hin ?_ (fun v => ?_)
      (fun _ => hsl) ?_
    · rw [hmax']
      exact h.greatest.nonneg
    · by_cases heq : v = user
      · rw [heq, update_self]
        exact .inr le_rfl
      · rw [hot v heq, hmax']
        exact .inl (h.greatest.ge v)
    · rw [hmax']
      exact h.greatest.attained.imp_right hmv

structure Updated (t : InMemorySlidingWindowTokenTracker) (user : String) (timestamp : Int) (newTokens : ℚ)
    (t' : InMemorySlidingWindowTokenTracker) : Prop where
  inv : t'.Inv timestamp
  settings : t'.settings = t.settings
  since : ∀ v x, tokensSince x (t'.bucketsOf v) =
    tokensSince x (t.bucketsOf v) + if v = user ∧ x ≤ timestamp then newTokens else 0

theorem TokensAdded.updated (hlt : latest ≤ timestamp)
    (had : TokensAdded t user timestamp newTokens t') {t'' : InMemorySlidingWindowTokenTracker}
    (hst : t''.settings = t'.settings) (hbc : t''.userBucketStore = t'.userBucketStore)
    (hex : t''.expirations = t'.expirations) (htt : t''.total = update t.total user (t.total user + newTokens))
    (hin : Inverse t''.totalsToUsers t''.total) (hls : LeastPositive t''.total t''.minTrackedToken)
    (hgr : GreatestPositive t''.total t''.maxTrackedToken) : Updated t user timestamp newTokens t'' := by
  obtain ⟨d', hd', hsr⟩ := had.store
  have hold : ((t.userBucketStore.lookup user).getD {}).buckets = t.bucketsOf user := by
    unfold bucketsOf
    cases t.userBucketStore.lookup user <;> rfl
  have hst' : ∀ v, t''.userBucketStore.lookup v = if v = user then some d' else t.userBucketStore.lookup v := by
    rw [hbc]
    exact hsr
  refine ⟨⟨h.toCore.change hlt hst' (fun d hd => ?_) (fun v => ?_) hin (fun v => ?_) ?_ ?_, hls, hgr⟩,
    hst.trans had.others.1, fun v x => ?_⟩
  · cases hd
    refine ⟨hd'.ok, hd'.nonempty, fun el hel => ?_⟩
    rcases hd'.timestamps el hel with heq | ⟨el', hel', heq⟩
    · exact heq.le
    · rw [hold] at hel'
      rw [← heq]
      exact (h.latest user el' hel').trans hlt
  · rw [htt, update_apply]
    split
    · rw [Option.elim_some, hd'.tokens, hold, h.total]
    · rfl
  · rw [hex, hbc]
    exact had.members v
  · rw [hex]
    exact had.nodup
  · rw [hex]
    refine had.ordered.congr fun v _ w _ => ?_
    unfold less oldest
    rw [hbc]
  · by_cases hv : v = user
    · subst hv
      have hnew : t''.bucketsOf v = d'.buckets := bucketsOf_of_lookup (by rw [hst', if_pos rfl])
      rw [hnew, hd'.since, hold]
      simp
    · have hsm : t''.bucketsOf v = t.bucketsOf v := by
        unfold bucketsOf
        rw [hst', if_neg hv]
      rw [hsm, if_neg fun hcn => hv hcn.1, add_zero]

theorem Inv.updateUserTotalAndMinMax (hlt : latest ≤ timestamp) (user : String)
    (hnew : 0 ≤ newTokens) : Updated t user timestamp newTokens
      ((t.addTokens user timestamp newTokens).updateUserTotalAndMinMax user (t.total user) (t.total user + newTokens)) := by
  set sum := t.total user + newTokens
  have had := h.toCore.addTokens hlt user hnew
  generalize t.addTokens user timestamp newTokens = t' at had
  obtain ⟨-, htl, hin, hmin, hmax⟩ := had.others
  have htt : t'.total = t.total := by
    unfold total
    rw [htl]
  have hnn : 0 ≤ t.total user := by
    rw [h.total]
    exact tokens_nonneg (h.toCore.nonneg user)
  unfold InMemorySlidingWindowTokenTracker.updateUserTotalAndMinMax
  split
  · -- No tokens: the total is not touched.
    rename_i heq
    have hsm : t'.total = update t.total user sum := by
      rw [← heq, update_eq_self, htt]
    refine had.updated h hlt rfl rfl rfl hsm ?_ ?_ ?_
    · rw [htt, hin]
      exact h.inverse
    · rw [htt, hmin]
      exact h.least
    · rw [htt, hmax]
      exact h.greatest
  rename_i hne
  have hpos : 0 < t.total user + newTokens := by
    refine lt_of_le_of_ne (add_nonneg hnn hnew) fun hzr => hne ?_
    linarith
  rw [atLeastZero_of_nonneg hpos.le]
  have hiv := inverse_moveTotal (t := t') (hin ▸ h.inverse) user sum
  obtain ⟨hst, hsr, hex, hmin', hmax', htt'⟩ :=
    moveTotal_fields t' user (t.total user) sum
  change Updated _ _ _ _ (((t'.moveTotal user (t.total user) sum).recalcMin _ _).recalcMax _ _)
  generalize t'.moveTotal user (t.total user) sum = t₁ at *
  obtain ⟨hls, hgr⟩ := h.extremes hpos hiv (hmin'.trans hmin) (hmax'.trans hmax)
  have hsm : t₁.total = update t.total user sum := by
    funext v
    rw [update_apply]
    unfold total
    rw [htt', KeyMap.lookup_insert_eq, htl]
    split <;> rfl
  refine had.updated h hlt hst hsr hex hsm ?_ ?_ ?_
  · exact hsm ▸ hiv
  · exact hsm ▸ hls
  · exact hsm ▸ hgr

end InMemorySlidingWindowTokenTracker

/-! ## Runs -/

open List

structure Update where
  user : String
  timestamp : Int
  tokens : ℚ

def spent (updates : List Update) (user : String) (cutoff : Int) : ℚ :=
  ((updates.filter fun u => u.user = user ∧ cutoff ≤ u.timestamp).map (·.tokens)).sum

def positiveTotals (updates : List Update) (cutoff : Int) : Set ℚ := {x | 0 < x ∧ ∃ user, spent updates user cutoff = x}

inductive Op where
  | updateTokenCount (now : Int) (user : String) (inputTokens outputTokens : ℚ)
  | getTokenCount (now now' : Int) (user : String)
  | getMinTokenCount (now now' : Int)
  | getMaxTokenCount (now now' : Int)

/-- The readings of the clock. A read may not need its second one. -/
def Op.readings : Op → List Int
  | .updateTokenCount now .. => [now]
  | .getTokenCount now now' _ | .getMinTokenCount now now' | .getMaxTokenCount now now' => [now, now']

def Op.update? (settings : Settings) : Op → Option Update
  | .updateTokenCount now user inputTokens outputTokens =>
    if user = "" then none
    else some ⟨user, settings.bucketUnit.toTimestamp now, settings.config.weigh inputTokens outputTokens⟩
  | _ => none

def updatesOf (settings : Settings) (ops : List Op) : List Update := ops.filterMap (Op.update? settings)

namespace InMemorySlidingWindowTokenTracker

/-- A failed update changes nothing. -/
def step (t : InMemorySlidingWindowTokenTracker) : Op → InMemorySlidingWindowTokenTracker
  | .updateTokenCount now user inputTokens outputTokens =>
    match t.updateTokenCount now user inputTokens outputTokens with
    | .ok t' => t'
    | .error _ => t
  | .getTokenCount now now' _ | .getMinTokenCount now now' | .getMaxTokenCount now now' => t.rlockCurrentWindow now now'

def run (t : InMemorySlidingWindowTokenTracker) (ops : List Op) : InMemorySlidingWindowTokenTracker := ops.foldl step t

end InMemorySlidingWindowTokenTracker

theorem spent_append (updates : List Update) (u : Update) (user : String) (cutoff : Int) :
    spent (updates ++ [u]) user cutoff =
      spent updates user cutoff + if user = u.user ∧ cutoff ≤ u.timestamp then u.tokens else 0 := by
  unfold spent
  by_cases h : user = u.user ∧ cutoff ≤ u.timestamp
  · simp [h.1, h.2]
  · rw [if_neg h]
    have hnot : ¬(u.user = user ∧ cutoff ≤ u.timestamp) := fun h' => h ⟨h'.1.symm, h'.2⟩
    simp [hnot]

theorem TimeUnit.toTimestamp_mono (unit : TimeUnit) {t t' : Int} (h : t ≤ t') : unit.toTimestamp t ≤ unit.toTimestamp t' := by
  unfold toTimestamp
  split
  · exact Int.tdiv_le_tdiv (by norm_num) h
  · rw [Int.fdiv_eq_ediv_of_nonneg _ (by norm_num), Int.fdiv_eq_ediv_of_nonneg _ (by norm_num)]
    omega

theorem VTCConfig.weigh_nonneg {config : VTCConfig} (hin : 0 ≤ config.inputTokenWeight)
    (hout : 0 ≤ config.outputTokenWeight) (input outputTokens : ℚ) : 0 ≤ config.weigh input outputTokens := by
  have hzr : ∀ x, 0 ≤ atLeastZero x := by
    intro x
    unfold atLeastZero
    split
    · exact le_rfl
    · rename_i h
      exact not_lt.1 h
  exact add_nonneg (mul_nonneg (hzr _) hin) (mul_nonneg (hzr _) hout)

namespace InMemorySlidingWindowTokenTracker

variable {t t' : InMemorySlidingWindowTokenTracker} {settings : Settings} {clock clock' now now' : Int}
  {updates : List Update}

structure Tracks (settings : Settings) (t : InMemorySlidingWindowTokenTracker) (clock : Int)
    (updates : List Update) : Prop where
  inv : t.Inv (settings.bucketUnit.toTimestamp clock)
  settings : t.settings = settings
  since : ∀ user x, t.cutoff clock ≤ x → tokensSince x (t.bucketsOf user) = spent updates user x

theorem Tracks.mono (h : Tracks settings t clock updates) (hle : clock ≤ clock') : Tracks settings t clock' updates := by
  refine ⟨{ h.inv with latest := fun user el hel => ?_ }, h.settings, fun user x hx => ?_⟩
  · exact (h.inv.latest user el hel).trans (TimeUnit.toTimestamp_mono _ hle)
  · exact h.since user x ((TimeUnit.toTimestamp_mono _ (by omega)).trans hx)

theorem Inv.new (settings : Settings) (latest : Int) : Inv { settings } latest where
  data user d hd := by cases hd
  latest user el hel := by cases hel
  total user := rfl
  inverse := ⟨fun x user => iff_of_false (fun hmem => by cases hmem) fun h => h.1.ne h.2, fun x users h => by cases h⟩
  members user := by simp
  nodup := nodup_nil
  ordered j := rfl
  least := ⟨fun user hpos => absurd hpos (lt_irrefl 0), maxFloat64_pos, le_rfl, .inl rfl⟩
  greatest := ⟨fun user => le_rfl, le_rfl, .inl rfl⟩

theorem Tracks.new (settings : Settings) (clock : Int) : Tracks settings { settings } clock [] :=
  ⟨.new settings _, rfl, fun _ _ _ => rfl⟩

theorem cutoff_congr (h : t'.settings = t.settings) (now : Int) : t'.cutoff now = t.cutoff now := by
  unfold cutoff
  rw [h]

section

variable (h : Tracks settings t now updates)
include h

theorem Tracks.updateTokenCount (hin : 0 ≤ settings.config.inputTokenWeight)
    (hout : 0 ≤ settings.config.outputTokenWeight) (user : String) (input output : ℚ) :
    Tracks settings (t.step (.updateTokenCount now user input output)) now
      (updates ++ ((Op.updateTokenCount now user input output).update? settings).toList) := by
  dsimp only [step, Op.update?]
  unfold InMemorySlidingWindowTokenTracker.updateTokenCount
  by_cases hus : user = ""
  · rw [if_pos hus, if_pos hus, Option.toList_none, append_nil]
    exact h
  rw [if_neg hus, if_neg hus, Option.toList_some]
  dsimp only
  have hcr := h.inv.expireUsers (t.cutoff now)
  have hnew := VTCConfig.weigh_nonneg hin hout input output
  have hup := hcr.inv.updateUserTotalAndMinMax le_rfl user hnew
  rw [hcr.settings, h.settings]
  refine ⟨hup.inv, (hup.settings.trans hcr.settings).trans h.settings, fun v x hx => ?_⟩
  rw [cutoff_congr (hup.settings.trans hcr.settings)] at hx
  rw [hup.since, hcr.since v x hx, h.since v x hx, spent_append]

def readClock (t : InMemorySlidingWindowTokenTracker) (now now' : Int) : Int :=
  if t.hasExpiredUsers (t.cutoff now) then now' else now

omit h in
theorem Inv.rlockCurrentWindow {latest : Int} (h : t.Inv latest) (now now' : Int) :
    Current t (t.cutoff (t.readClock now now')) latest (t.rlockCurrentWindow now now') := by
  unfold InMemorySlidingWindowTokenTracker.rlockCurrentWindow readClock
  split
  · exact h.expireUsers _
  · rename_i hex
    exact ⟨h, rfl, fun _ _ _ => rfl, recent_of_hasExpiredUsers h.toCore (Bool.not_eq_true _ ▸ hex)⟩

omit h in
theorem readClock_le (t : InMemorySlidingWindowTokenTracker) (hle : now ≤ now') :
    now ≤ t.readClock now now' ∧ t.readClock now now' ≤ now' := by
  unfold readClock
  split
  · exact ⟨hle, le_rfl⟩
  · exact ⟨le_rfl, hle⟩

theorem Tracks.rlockCurrentWindow (hle : now ≤ now') :
    Tracks settings (t.rlockCurrentWindow now now') (t.readClock now now') updates := by
  obtain ⟨hlow, hhg⟩ := t.readClock_le hle
  have hcr := h.inv.rlockCurrentWindow now now'
  have hlt := (h.mono hlow).inv.rlockCurrentWindow now now'
  refine ⟨hlt.inv, hcr.settings.trans h.settings, fun user x hx => ?_⟩
  rw [cutoff_congr hcr.settings] at hx
  rw [hcr.since user x hx]
  exact h.since user x ((TimeUnit.toTimestamp_mono _ (by omega)).trans hx)

theorem Tracks.total (hle : now ≤ now') (user : String) :
    (t.rlockCurrentWindow now now').total user = spent updates user (t.cutoff (t.readClock now now')) := by
  have hcr := h.inv.rlockCurrentWindow now now'
  have htr := h.rlockCurrentWindow hle
  rw [hcr.inv.total, ← tokensSince_of_forall_le (hcr.recent user)]
  apply htr.since user _
  rw [cutoff_congr hcr.settings]

end

theorem updatesOf_snoc (settings : Settings) (ops : List Op) (op : Op) :
    updatesOf settings (ops ++ [op]) = updatesOf settings ops ++ (op.update? settings).toList := by
  unfold updatesOf
  cases hup : op.update? settings <;> simp [hup]

theorem tracks_run (hin : 0 ≤ settings.config.inputTokenWeight) (hout : 0 ≤ settings.config.outputTokenWeight)
    (ops : List Op) (hcl : (ops.flatMap Op.readings).Pairwise (· ≤ ·)) (hls : ∀ r ∈ ops.flatMap Op.readings, r ≤ clock) :
    Tracks settings (run { settings } ops) clock (updatesOf settings ops) := by
  induction ops using reverseRecOn generalizing clock with
  | nil => exact .new settings clock
  | append_singleton ops op ih =>
    rw [flatMap_append, flatMap_singleton] at hcl hls
    obtain ⟨hbf, hop, hbt⟩ := pairwise_append.1 hcl
    have hrd : ∀ now now', op.readings = [now, now'] → op.update? settings = none →
        (run { settings } ops).step op = (run { settings } ops).rlockCurrentWindow now now' →
        Tracks settings (run { settings } (ops ++ [op])) clock (updatesOf settings (ops ++ [op])) := by
      intro now now' hrn hnn hst
      rw [hrn] at hop hbt hls
      have hle : now ≤ now' := rel_of_pairwise_cons hop (mem_singleton_self _)
      have htr := ih hbf fun r hr => hbt r hr now (mem_cons_self ..)
      rw [updatesOf_snoc, hnn, Option.toList_none, append_nil]
      unfold run
      rw [foldl_append]
      change Tracks settings ((run { settings } ops).step op) _ _
      rw [hst]
      refine (htr.rlockCurrentWindow hle).mono ((readClock_le _ hle).2.trans (hls now' ?_))
      exact mem_append_right _ (by simp)
    cases op with
    | updateTokenCount now user inputTokens outputTokens =>
      have htr := ih hbf fun r hr => hbt r hr now (mem_cons_self ..)
      rw [updatesOf_snoc]
      unfold run
      rw [foldl_append]
      refine (htr.updateTokenCount hin hout user inputTokens outputTokens).mono (hls now ?_)
      exact mem_append_right _ (mem_cons_self ..)
    | getTokenCount now now' user | getMinTokenCount now now' => exact hrd now now' rfl rfl rfl
    | getMaxTokenCount now now' => exact hrd now now' rfl rfl rfl

/-! ## Reads -/

def IsLeastOr (s : Set ℚ) (default x : ℚ) : Prop := IsLeast s x ∨ s = ∅ ∧ x = default

def IsGreatestOr (s : Set ℚ) (default x : ℚ) : Prop := IsGreatest s x ∨ s = ∅ ∧ x = default

section

variable {latest cutoff : Int} (h : (t.rlockCurrentWindow now now').Inv latest)
  (htt : ∀ user, (t.rlockCurrentWindow now now').total user = spent updates user cutoff)
include h htt

theorem getMinTokenCount_spec :
    IsLeastOr {x ∈ positiveTotals updates cutoff | x < maxFloat64} (t.rlockCurrentWindow now now').settings.minTokens
      (t.getMinTokenCount now now') := by
  have hls := h.least
  unfold getMinTokenCount
  dsimp only
  split
  · rename_i hmax
    refine .inr ⟨Set.eq_empty_of_forall_notMem ?_, rfl⟩
    rintro x ⟨⟨hpos, user, rfl⟩, hlt⟩
    have hle := hls.le user (by rw [htt]; exact hpos)
    rw [hmax, htt] at hle
    exact hle.not_gt hlt
  rename_i hmax
  obtain ⟨user, hus⟩ := hls.attained.resolve_left hmax
  refine .inl ⟨⟨⟨hls.pos, user, ?_⟩, lt_of_le_of_ne hls.bound hmax⟩, ?_⟩
  · rw [← htt]
    exact hus
  · rintro x ⟨⟨hpos, v, rfl⟩, -⟩
    rw [← htt] at hpos ⊢
    exact hls.le v hpos

theorem getMaxTokenCount_spec :
    IsGreatestOr (positiveTotals updates cutoff) (t.rlockCurrentWindow now now').settings.maxTokens
      (t.getMaxTokenCount now now') := by
  have hgr := h.greatest
  unfold getMaxTokenCount
  dsimp only
  split
  · rename_i hzr
    refine .inr ⟨Set.eq_empty_of_forall_notMem ?_, rfl⟩
    rintro x ⟨hpos, user, rfl⟩
    have hle := hgr.ge user
    rw [hzr, htt] at hle
    exact hle.not_gt hpos
  rename_i hzr
  obtain ⟨user, hus⟩ := hgr.attained.resolve_left hzr
  refine .inl ⟨⟨lt_of_le_of_ne hgr.nonneg (Ne.symm hzr), user, ?_⟩, ?_⟩
  · rw [← htt]
    exact hus
  · rintro x ⟨-, v, rfl⟩
    rw [← htt]
    exact hgr.ge v

end

/-- Reads after any run with a clock that does not go back, and what holds of the maps and of the heap. -/
theorem window_refined (config : VTCConfig) (hin : 0 ≤ config.inputTokenWeight) (hout : 0 ≤ config.outputTokenWeight)
    (windowBuckets : Int) (unit : TimeUnit) (minTokens maxTokens : ℚ) (ops : List Op)
    (hclock : (ops.flatMap Op.readings).Pairwise (· ≤ ·)) :
    let t₀ := newTracker config windowBuckets unit minTokens maxTokens
    let t := t₀.run ops
    let updates := updatesOf t₀.settings ops
    (∀ now now', (∀ r ∈ ops.flatMap Op.readings, r ≤ now) → now ≤ now' → ∃ read, (read = now ∨ read = now') ∧
      let cutoff := unit.toTimestamp (read - windowSizeDuration windowBuckets unit)
      (∀ user, t.getTokenCount now now' user = spent updates user cutoff) ∧
      IsLeastOr {x ∈ positiveTotals updates cutoff | x < maxFloat64} minTokens (t.getMinTokenCount now now') ∧
      IsGreatestOr (positiveTotals updates cutoff) maxTokens (t.getMaxTokenCount now now')) ∧
    (∀ x user, user ∈ usersAt t.totalsToUsers x ↔ 0 < x ∧ t.userTotals.lookup user = some x) ∧
    (∀ x users, t.totalsToUsers.lookup x = some users → KeyMap.size users ≠ 0) ∧
    t.expirations.toList.Nodup ∧ (∀ user, user ∈ t.expirations ↔ t.bucketsOf user ≠ []) ∧
    (∀ user, ∀ el ∈ t.bucketsOf user, t.oldest user ≤ el.node.timestamp) ∧ Heap.Ordered t.less t.expirations := by
  intro t₀ t updates
  have htracks : ∀ clock, (∀ r ∈ ops.flatMap Op.readings, r ≤ clock) → Tracks t₀.settings t clock updates :=
    fun clock hlast => tracks_run hin hout ops hclock hlast
  obtain ⟨clock, hlast⟩ := (ops.flatMap Op.readings).finite_toSet.bddAbove
  have hinv := (htracks clock hlast).inv
  refine ⟨fun now now' hlast hle => ⟨t.readClock now now', ?_, ?_⟩, fun x user => ?_, hinv.inverse.nonempty, hinv.nodup,
    fun user => ?_, hinv.oldest_le, hinv.ordered⟩
  · unfold readClock
    split
    · exact .inr rfl
    · exact .inl rfl
  · have hnow := htracks now hlast
    have hcurrent := hnow.inv.rlockCurrentWindow now now'
    have htotal := hnow.total hle
    have hcutoff : t.cutoff (t.readClock now now') =
        unit.toTimestamp (t.readClock now now' - windowSizeDuration windowBuckets unit) := by
      unfold cutoff
      rw [hnow.settings]
      rfl
    have hmin := getMinTokenCount_spec hcurrent.inv htotal
    have hmax := getMaxTokenCount_spec hcurrent.inv htotal
    rw [hcurrent.settings, hnow.settings] at hmin hmax
    rw [hcutoff] at htotal hmin hmax
    exact ⟨htotal, hmin, hmax⟩
  · rw [hinv.inverse.lists]
    refine and_congr_right fun hpos => ?_
    unfold total
    cases t.userTotals.lookup user with
    | none => exact iff_of_false hpos.ne (Option.some_ne_none x).symm
    | some y => exact (Option.some.injEq y x).to_iff.symm
  · rw [hinv.members]
    cases hd : t.userBucketStore.lookup user with
    | none => exact iff_of_false Bool.false_ne_true fun hne => hne (bucketsOf_of_none hd)
    | some d =>
      apply iff_of_true rfl
      rw [bucketsOf_of_lookup hd]
      exact (hinv.data user d hd).2

/-- Two updates in one window, and one that is too old at the end. -/
def threeUpdates : List Op :=
  [.updateTokenCount 0 "a" 10 0, .updateTokenCount (10 ^ 9) "b" 5 1, .getMinTokenCount (10 ^ 9) (10 ^ 9),
    .updateTokenCount (3 * 10 ^ 9) "a" (-7) 2]

/-- With a window of two seconds, the first update is out at the end. -/
theorem window_refined_threeUpdates :
    let t := (newTracker ⟨1, 2⟩ 2 .seconds 1000 8000).run threeUpdates
    let updates := updatesOf (newTracker ⟨1, 2⟩ 2 .seconds 1000 8000).settings threeUpdates
    (threeUpdates.flatMap Op.readings).Pairwise (· ≤ ·) ∧
    (∃ read, (read = 3 * 10 ^ 9 ∨ read = 3 * 10 ^ 9) ∧
      let cutoff := TimeUnit.seconds.toTimestamp (read - windowSizeDuration 2 .seconds)
      (∀ user, t.getTokenCount (3 * 10 ^ 9) (3 * 10 ^ 9) user = spent updates user cutoff) ∧
      IsLeastOr {x ∈ positiveTotals updates cutoff | x < maxFloat64} 1000
        (t.getMinTokenCount (3 * 10 ^ 9) (3 * 10 ^ 9)) ∧
      IsGreatestOr (positiveTotals updates cutoff) 8000 (t.getMaxTokenCount (3 * 10 ^ 9) (3 * 10 ^ 9))) ∧
    t.getTokenCount (3 * 10 ^ 9) (3 * 10 ^ 9) "a" = 4 ∧ t.getMinTokenCount (3 * 10 ^ 9) (3 * 10 ^ 9) = 4 ∧
    t.getMaxTokenCount (3 * 10 ^ 9) (3 * 10 ^ 9) = 7 := by
  have hclock : (threeUpdates.flatMap Op.readings).Pairwise (· ≤ ·) := by decide
  have hreads := (window_refined ⟨1, 2⟩ (by norm_num) (by norm_num) 2 .seconds 1000 8000 threeUpdates hclock).1
  exact ⟨hclock, hreads (3 * 10 ^ 9) (3 * 10 ^ 9) (by decide) le_rfl, by decide +kernel⟩

/-- A user that has spent as much as the largest number counts as none. -/
theorem minimum_missed :
    let t := (newTracker ⟨1, 1⟩ 5 .minutes 1000 8000).run [.updateTokenCount 0 "a" maxFloat64 0]
    t.getTokenCount 0 0 "a" = maxFloat64 ∧ t.getMaxTokenCount 0 0 = maxFloat64 ∧ t.getMinTokenCount 0 0 = 1000 := by
  decide +kernel

end InMemorySlidingWindowTokenTracker

end Aibrix.Vtc
