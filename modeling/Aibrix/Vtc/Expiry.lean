import Aibrix.Vtc.Tracker

/-! # Expiry

`expireUsers` prunes one user after the other, and keeps the lists, the totals, their map and the heap in step. -/

namespace Aibrix.Vtc

open Lib List Function KeyMap

namespace InMemorySlidingWindowTokenTracker

structure Core (t : InMemorySlidingWindowTokenTracker) (latest : Int) : Prop where
  data : ∀ user d, t.userBucketStore.lookup user = some d → d.Ok ∧ d.buckets ≠ []
  latest : ∀ user, ∀ el ∈ t.bucketsOf user, el.node.timestamp ≤ latest
  total : ∀ user, t.total user = tokens (t.bucketsOf user)
  inverse : Inverse t.totalsToUsers t.total
  members : ∀ user, user ∈ t.expirations ↔ (t.userBucketStore.lookup user).isSome = true
  nodup : t.expirations.toList.Nodup
  ordered : Heap.Ordered t.less t.expirations

variable {t t' : InMemorySlidingWindowTokenTracker} {latest latest' cutoff : Int} {user : String}

theorem isLess (t : InMemorySlidingWindowTokenTracker) : Heap.IsLess t.less where
  asymm h := by
    unfold less at *
    simp only [decide_eq_true_eq, decide_eq_false_iff_not] at *
    omega
  trans h h' := by
    unfold less at *
    simp only [decide_eq_false_iff_not] at *
    omega

variable {d : UserBucketData} {v : String} {rest : Array String}

section

variable (hd : t.userBucketStore.lookup user = some d)
include hd

theorem bucketsOf_of_lookup : t.bucketsOf user = d.buckets := by
  simp [bucketsOf, hd]

omit hd in
theorem bucketsOf_of_none (hd : t.userBucketStore.lookup user = none) : t.bucketsOf user = [] := by
  simp [bucketsOf, hd]

theorem oldest_of_lookup : t.oldest user = d.oldest := by
  simp [oldest, hd]

omit hd in
theorem Core.change (h : t.Core latest) (hle : latest ≤ latest') {d' : Option UserBucketData}
    (hst : ∀ v, t'.userBucketStore.lookup v = if v = user then d' else t.userBucketStore.lookup v)
    (hok : ∀ d, d' = some d → d.Ok ∧ d.buckets ≠ [] ∧ ∀ el ∈ d.buckets, el.node.timestamp ≤ latest')
    (htt : ∀ v, t'.total v = if v = user then tokens (d'.elim [] (·.buckets)) else t.total v)
    (hin : Inverse t'.totalsToUsers t'.total)
    (hmm : ∀ v, v ∈ t'.expirations ↔ (t'.userBucketStore.lookup v).isSome = true)
    (hnd : t'.expirations.toList.Nodup) (hor : Heap.Ordered t'.less t'.expirations) : t'.Core latest' := by
  have hbc : ∀ v, t'.bucketsOf v = if v = user then d'.elim [] (·.buckets) else t.bucketsOf v := by
    intro v
    unfold bucketsOf
    rw [hst]
    split <;> rfl
  refine ⟨fun v d hd => ?_, fun v el hel => ?_, fun v => ?_, hin, hmm, hnd, hor⟩
  · rw [hst] at hd
    split at hd
    · exact ⟨(hok d hd).1, (hok d hd).2.1⟩
    · exact h.data v d hd
  · rw [hbc] at hel
    split at hel
    · cases d' with
      | none => cases hel
      | some d => exact (hok d rfl).2.2 el hel
    · exact (h.latest v el hel).trans hle
  · rw [htt, hbc]
    split
    · rfl
    · exact h.total v

structure Expired (t : InMemorySlidingWindowTokenTracker) (cutoff : Int) (user : String)
    (t' : InMemorySlidingWindowTokenTracker) : Prop where
  others : ∀ v ≠ user, t'.userBucketStore.lookup v = t.userBucketStore.lookup v
  since : ∀ x, cutoff ≤ x → tokensSince x (t'.bucketsOf user) = tokensSince x (t.bucketsOf user)
  le : ∀ el ∈ t'.bucketsOf user, cutoff ≤ el.node.timestamp
  settings : t'.settings = t.settings
  minTracked : t'.minTrackedToken = t.minTrackedToken
  maxTracked : t'.maxTrackedToken = t.maxTrackedToken

omit hd in
theorem oldest_congr (h : t'.userBucketStore.lookup v = t.userBucketStore.lookup v) : t'.oldest v = t.oldest v := by
  unfold oldest
  rw [h]

theorem le_oldest (hne : d.buckets ≠ [])
    (hle : ∀ el ∈ d.buckets, cutoff ≤ el.node.timestamp) : cutoff ≤ t.oldest user := by
  obtain ⟨el, els, hels⟩ := exists_cons_of_ne_nil hne
  rw [oldest_of_lookup hd, UserBucketData.oldest, hels]
  exact hle el (hels ▸ mem_cons_self ..)

end

def expiredCount (t : InMemorySlidingWindowTokenTracker) (cutoff : Int) : Nat :=
  t.expirations.toList.countP fun v => decide (t.oldest v < cutoff)

theorem countP_oldest_congr {vs : List String} (h : ∀ v ∈ vs, t'.oldest v = t.oldest v) :
    vs.countP (fun v => decide (t'.oldest v < cutoff)) = vs.countP fun v => decide (t.oldest v < cutoff) := by
  refine countP_congr fun v hv => ?_
  rw [h v hv]

theorem atLeastZero_of_nonneg {x : ℚ} (h : 0 ≤ x) : atLeastZero x = x := if_neg h.not_gt

structure Taken (t : InMemorySlidingWindowTokenTracker) (user : String) (rest : Array String) (d' : UserBucketData)
    (t' : InMemorySlidingWindowTokenTracker) : Prop where
  settings : t'.settings = t.settings
  store : ∀ v, t'.userBucketStore.lookup v = if v = user then some d' else t.userBucketStore.lookup v
  userTotals : t'.userTotals = t.userTotals
  expirations : t'.expirations = rest
  inverse : Inverse t'.totalsToUsers (update t.total user 0)
  minTracked : t'.minTrackedToken = t.minTrackedToken
  maxTracked : t'.maxTrackedToken = t.maxTrackedToken

theorem expireUser_eq (h : t.Core latest) (cutoff : Int)
    (hpop : Heap.pop t.less t.expirations = (some user, rest)) (hd : t.userBucketStore.lookup user = some d) (newMin : ℚ) :
    ∃ d' t₁, UserBucketData.Pruned d cutoff d' ∧ Taken t user rest d' t₁ ∧
      expireUser cutoff (t, newMin) = t₁.settleExpired user (tokens d'.buckets) newMin := by
  set pruned := d.prune cutoff _
  have htt : t.total user = tokens d.buckets := by rw [h.total, bucketsOf_of_lookup hd]
  have hpr := (h.data user d hd).1.prune cutoff (tokens d.buckets)
  have hzr := atLeastZero_of_nonneg (tokens_nonneg hpr.ok.nonneg)
  have hpn : { t with expirations := rest }.pruneExpiredBuckets user cutoff = ({ t with
          expirations := rest
          userBucketStore := t.userBucketStore.insert user pruned.1 },
        tokens pruned.1.buckets) := by
    have htt' : { t with expirations := rest }.total user = tokens d.buckets := htt
    unfold pruneExpiredBuckets
    rw [hd, htt']
    dsimp only
    rw [d.prune_snd, hzr]
  unfold expireUser
  rw [hpop]
  dsimp only
  rw [hpn]
  generalize pruned.1 = d' at hpr
  have hin := inverse_removeFromTotals
    (t := { t with expirations := rest, userBucketStore := t.userBucketStore.insert user d' }) h.inverse user
  refine ⟨d', _, hpr, ?_, rfl⟩
  rw [removeFromTotals_eq]
  exact ⟨rfl, fun v => lookup_insert_eq _ _, rfl, rfl, hin, rfl, rfl⟩

structure Rest (t : InMemorySlidingWindowTokenTracker) (user : String) (rest : Array String) : Prop where
  perm : (rest.toList ++ [user]).Perm t.expirations.toList
  ordered : Heap.Ordered t.less rest
  nodup : rest.toList.Nodup
  members : ∀ v, v ∈ rest ↔ v ∈ t.expirations ∧ v ≠ user

theorem pop_expirations (h : t.Core latest) (hrt : t.expirations[0]? = some user) :
    ∃ rest, Heap.pop t.less t.expirations = (some user, rest) ∧ Rest t user rest := by
  obtain ⟨hpop, hpr, hor⟩ := Heap.pop_spec t.isLess h.ordered hrt
  refine ⟨(Heap.pop t.less t.expirations).2, Prod.ext hpop rfl, ?_⟩
  generalize (Heap.pop t.less t.expirations).2 = rest at hpr hor
  have hls : (rest.toList ++ [user]).Perm t.expirations.toList := by
    rw [← Array.toList_push]
    exact Array.perm_iff_toList_perm.1 hpr
  have hnd := hls.nodup_iff.2 h.nodup
  rw [nodup_append_comm] at hnd
  obtain ⟨hnot, hnd⟩ := nodup_cons.1 hnd
  refine ⟨hls, hor, hnd, fun v => ?_⟩
  rw [← Array.mem_toList_iff, ← Array.mem_toList_iff, ← hls.mem_iff, mem_append, mem_singleton]
  exact ⟨fun hv => ⟨.inl hv, fun heq => hnot (heq ▸ hv)⟩, fun hv => hv.1.resolve_right hv.2⟩

section

variable (hot : ∀ v ≠ user, t'.userBucketStore.lookup v = t.userBucketStore.lookup v)
include hot

theorem Rest.ordered_of_others (h : Rest t user rest) : Heap.Ordered t'.less rest := by
  refine h.ordered.congr fun v hv w hw => ?_
  unfold less
  rw [oldest_congr (hot v ((h.members v).1 hv).2), oldest_congr (hot w ((h.members w).1 hw).2)]

theorem Rest.countP (h : Rest t user rest) (hold : t.oldest user < cutoff) :
    rest.toList.countP (fun v => decide (t'.oldest v < cutoff)) + 1 = t.expiredCount cutoff := by
  have hsm : ∀ v ∈ rest.toList, t'.oldest v = t.oldest v :=
    fun v hv => oldest_congr (hot v ((h.members v).1 (Array.mem_toList_iff.1 hv)).2)
  unfold expiredCount
  rw [← h.perm.countP_eq, countP_append, countP_oldest_congr hsm, countP_singleton, if_pos (decide_eq_true hold)]

end

structure Pushed (t : InMemorySlidingWindowTokenTracker) (user : String) : Prop where
  ordered : Heap.Ordered (t.pushExpiration user).less (t.pushExpiration user).expirations
  perm : (t.pushExpiration user).expirations.toList.Perm (t.expirations.toList ++ [user])
  nodup : (t.pushExpiration user).expirations.toList.Nodup
  members : ∀ v, v ∈ (t.pushExpiration user).expirations ↔ v ∈ t.expirations ∨ v = user

theorem pushed (hor : Heap.Ordered t.less t.expirations) (hnd : t.expirations.toList.Nodup)
    (hnot : user ∉ t.expirations) : Pushed t user := by
  obtain ⟨hps, hpr⟩ := Heap.push_spec t.isLess hor user
  have hls : (t.pushExpiration user).expirations.toList.Perm (t.expirations.toList ++ [user]) := by
    rw [← Array.toList_push]
    exact Array.perm_iff_toList_perm.1 hpr
  refine ⟨hps, hls, ?_, fun v => ?_⟩
  · rw [hls.nodup_iff, nodup_append_comm]
    exact nodup_cons.2 ⟨mt Array.mem_toList_iff.1 hnot, hnd⟩
  · rw [← Array.mem_toList_iff, hls.mem_iff, mem_append, mem_singleton, Array.mem_toList_iff]

section

variable {d' : UserBucketData} {rest : Array String} {t₁ : InMemorySlidingWindowTokenTracker}

theorem total_setTotal (t : InMemorySlidingWindowTokenTracker) (user : String) (x : ℚ) (v : String) :
    (t.setTotal user x).total v = if v = user then x else t.total v := by
  unfold total setTotal
  rw [lookup_insert_eq]
  split <;> rfl

theorem total_deleteUser (t : InMemorySlidingWindowTokenTracker) (user v : String) :
    (t.deleteUser user).total v = if v = user then 0 else t.total v := by
  unfold total deleteUser
  rw [lookup_erase_eq]
  split <;> rfl

theorem Taken.total (h : Taken t user rest d' t₁) (v : String) : t₁.total v = t.total v := by
  unfold InMemorySlidingWindowTokenTracker.total
  rw [h.userTotals]

theorem Rest.isSome_iff (hrs : Rest t user rest) (h : t.Core latest) {o : Option UserBucketData}
    (hst : ∀ v, t'.userBucketStore.lookup v = if v = user then o else t.userBucketStore.lookup v) (v : String) :
    (t'.userBucketStore.lookup v).isSome = true ↔ v ∈ rest ∨ v = user ∧ o.isSome = true := by
  rw [hrs.members, h.members, hst]
  by_cases hv : v = user <;> simp [hv]

theorem Taken.deleteUser (h : t.Core latest) (hrs : Rest t user rest) (htk : Taken t user rest d' t₁)
    (hold : t.oldest user < cutoff) :
    (t₁.deleteUser user).Core latest ∧ (t₁.deleteUser user).expiredCount cutoff < t.expiredCount cutoff := by
  have hst : ∀ v, (t₁.deleteUser user).userBucketStore.lookup v =
      if v = user then none else t.userBucketStore.lookup v := by
    intro v
    apply (lookup_erase_eq v).trans
    rw [htk.store]
    split <;> rfl
  have hot := fun v (hv : v ≠ user) => (hst v).trans (if_neg hv)
  have htt : ∀ v, (t₁.deleteUser user).total v = if v = user then 0 else t.total v := by
    intro v
    rw [total_deleteUser, htk.total]
  have hfun : (t₁.deleteUser user).total = update t.total user 0 := by
    funext v
    rw [htt, update_apply]
  have hexp : (t₁.deleteUser user).expirations = rest := htk.expirations
  constructor
  · refine h.change le_rfl hst nofun htt (hfun ▸ htk.inverse) (fun v => ?_) ?_ ?_
    · rw [hexp, hrs.isSome_iff h hst]
      simp
    · rw [hexp]
      exact hrs.nodup
    · rw [hexp]
      exact hrs.ordered_of_others hot
  · have hcn := hrs.countP hot hold
    unfold expiredCount at hcn ⊢
    rw [hexp]
    omega

theorem Rest.push {t₃ : InMemorySlidingWindowTokenTracker} (h : t.Core latest) (hrs : Rest t user rest)
    (hold : t.oldest user < cutoff) (hok : d'.Ok) (hne : d'.buckets ≠ [])
    (hle : ∀ el ∈ d'.buckets, cutoff ≤ el.node.timestamp ∧ el.node.timestamp ≤ latest)
    (hst : ∀ v, t₃.userBucketStore.lookup v = if v = user then some d' else t.userBucketStore.lookup v)
    (htt : ∀ v, t₃.total v = if v = user then tokens d'.buckets else t.total v)
    (hexp : t₃.expirations = rest) (hiv : Inverse t₃.totalsToUsers t₃.total) :
    (t₃.pushExpiration user).Core latest ∧ (t₃.pushExpiration user).expiredCount cutoff < t.expiredCount cutoff := by
  have hot := fun v (hv : v ≠ user) => (hst v).trans (if_neg hv)
  subst hexp
  have hps : Pushed t₃ user :=
    pushed (hrs.ordered_of_others hot) hrs.nodup fun hin => ((hrs.members user).1 hin).2 rfl
  constructor
  · refine h.change le_rfl hst (fun d hd => ?_) htt hiv (fun v => ?_) hps.nodup hps.ordered
    · cases hd
      exact ⟨hok, hne, fun el hel => (hle el hel).2⟩
    · rw [hps.members]
      refine Iff.trans ?_ (hrs.isSome_iff h hst v).symm
      simp
  · have hcn := hrs.countP hot hold
    have hsl : ¬ t₃.oldest user < cutoff :=
      not_lt.2 (le_oldest ((hst user).trans (if_pos rfl)) hne fun el hel => (hle el hel).1)
    have hpr : (t₃.pushExpiration user).expiredCount cutoff =
        (t₃.expirations.toList ++ [user]).countP fun v => decide (t₃.oldest v < cutoff) := hps.perm.countP_eq _
    rw [hpr, countP_append, countP_singleton, if_neg (by simpa using hsl)]
    omega

theorem Taken.keepUser (h : t.Core latest) (hrs : Rest t user rest) (htk : Taken t user rest d' t₁)
    (hold : t.oldest user < cutoff) (hok : d'.Ok) (hne : d'.buckets ≠ [])
    (hle : ∀ el ∈ d'.buckets, cutoff ≤ el.node.timestamp ∧ el.node.timestamp ≤ latest) :
    let t₂ := ((t₁.setTotal user (tokens d'.buckets)).addToTotals (tokens d'.buckets) user).pushExpiration user
    t₂.Core latest ∧ t₂.expiredCount cutoff < t.expiredCount cutoff ∧
      (∀ v, t₂.userBucketStore.lookup v = if v = user then some d' else t.userBucketStore.lookup v) ∧
      t₂.settings = t.settings ∧ t₂.minTrackedToken = t.minTrackedToken ∧ t₂.maxTrackedToken = t.maxTrackedToken := by
  set kept := tokens d'.buckets
  have hin := inverse_addToTotals (t := t₁.setTotal user kept) htk.inverse
    (update_self ..) kept
  have htt : ∀ v, (t₁.setTotal user kept).total v =
      if v = user then tokens d'.buckets else t.total v := by
    intro v
    rw [total_setTotal, htk.total]
  have hfun : (t₁.setTotal user kept).total =
      update (update t.total user 0) user kept := by
    funext v
    rw [htt, update_idem, update_apply]
  rw [← hfun] at hin
  rw [addToTotals_eq]
  generalize ((t₁.setTotal user kept).addToTotals kept user).totalsToUsers = m at hin ⊢
  obtain ⟨hcr, hcn⟩ := @Rest.push t latest cutoff user d' rest { t₁.setTotal user kept with totalsToUsers := m }
    h hrs hold hok hne hle htk.store htt htk.expirations hin
  exact ⟨hcr, hcn, htk.store, htk.settings, htk.minTracked, htk.maxTracked⟩

theorem expired_of_pruned {d : UserBucketData} (hd : t.userBucketStore.lookup user = some d)
    (hpr : UserBucketData.Pruned d cutoff d')
    (hot : ∀ v ≠ user, t'.userBucketStore.lookup v = t.userBucketStore.lookup v)
    (hnew : t'.bucketsOf user = d'.buckets) (hst : t'.settings = t.settings)
    (hmin : t'.minTrackedToken = t.minTrackedToken) (hmax : t'.maxTrackedToken = t.maxTrackedToken) :
    Expired t cutoff user t' := by
  refine ⟨hot, fun x hx => ?_, ?_, hst, hmin, hmax⟩
  · rw [hnew, hpr.since x hx, bucketsOf_of_lookup hd]
  · rw [hnew]
    exact hpr.le

end

theorem expireUser_spec (h : t.Core latest) (hex : t.hasExpiredUsers cutoff = true) (newMin : ℚ) :
    ∃ user t₁, expireUser cutoff (t, newMin) =
        (t₁, if 0 < t₁.total user ∧ t₁.total user < newMin then t₁.total user else newMin) ∧
      t₁.Core latest ∧ Expired t cutoff user t₁ ∧ t.oldest user < cutoff ∧
      t₁.expiredCount cutoff < t.expiredCount cutoff := by
  unfold hasExpiredUsers at hex
  split at hex
  · rename_i user hrt
    have hold : t.oldest user < cutoff := of_decide_eq_true hex
    obtain ⟨rest, hpop, hrs⟩ := pop_expirations h hrt
    obtain ⟨d, hd⟩ := Option.isSome_iff_exists.1 ((h.members user).1 (Array.mem_of_getElem? hrt))
    obtain ⟨d', t₁, hpr, htk, heq⟩ := expireUser_eq h cutoff hpop hd newMin
    have hbc : t₁.bucketsOf user = d'.buckets := bucketsOf_of_lookup (by rw [htk.store, if_pos rfl])
    rw [heq]
    unfold settleExpired
    rw [hbc]
    split
    · rename_i hem
      rw [List.isEmpty_iff] at hem
      obtain ⟨hcr, hcn⟩ := htk.deleteUser h hrs hold
      have hlk : ∀ v, (t₁.deleteUser user).userBucketStore.lookup v =
          if v = user then none else t₁.userBucketStore.lookup v := fun v => lookup_erase_eq v
      have hnil : (t₁.deleteUser user).bucketsOf user = [] := bucketsOf_of_none (by rw [hlk, if_pos rfl])
      refine ⟨user, t₁.deleteUser user, ?_, hcr, expired_of_pruned hd hpr (fun v hv => ?_)
        (hnil.trans hem.symm) htk.settings htk.minTracked htk.maxTracked, hold, hcn⟩
      · rw [total_deleteUser, if_pos rfl, if_neg (fun hpos => hpos.1.false)]
      · rw [hlk, if_neg hv, htk.store, if_neg hv]
    · rename_i hne
      rw [List.isEmpty_iff] at hne
      obtain ⟨hcr, hcn, hst, hse, hmin, hmax⟩ := htk.keepUser h hrs hold hpr.ok hne fun el hel =>
        ⟨hpr.le el hel, h.latest user el (bucketsOf_of_lookup hd ▸ hpr.sub el hel)⟩
      generalize ((t₁.setTotal user (tokens d'.buckets)).addToTotals (tokens d'.buckets) user).pushExpiration user = t₂
        at hcr hcn hst hse hmin hmax ⊢
      have hnew : t₂.bucketsOf user = d'.buckets := bucketsOf_of_lookup (by rw [hst, if_pos rfl])
      refine ⟨user, t₂, ?_, hcr, expired_of_pruned hd hpr (fun v hv => (hst v).trans (if_neg hv)) hnew
        hse hmin hmax, hold, hcn⟩
      rw [hcr.total, hnew]
  · cases hex

/-! ## All rounds -/

structure Rounds (t₀ : InMemorySlidingWindowTokenTracker) (cutoff latest : Int)
    (s : InMemorySlidingWindowTokenTracker × ℚ) : Prop where
  core : s.1.Core latest
  settings : s.1.settings = t₀.settings
  minTracked : s.1.minTrackedToken = t₀.minTrackedToken
  maxTracked : s.1.maxTrackedToken = t₀.maxTrackedToken
  since : ∀ user x, cutoff ≤ x → tokensSince x (s.1.bucketsOf user) = tokensSince x (t₀.bucketsOf user)
  le : ∀ user, s.1.total user ≤ t₀.total user
  low : ∀ user, 0 < s.1.total user → s.1.total user = t₀.total user ∨ s.2 ≤ s.1.total user
  pos : 0 < s.2
  bound : s.2 ≤ maxFloat64
  attained : s.2 = maxFloat64 ∨ ∃ user, s.1.total user = s.2 ∧ ∀ el ∈ s.1.bucketsOf user, cutoff ≤ el.node.timestamp

section

variable (h : Expired t cutoff user t')
include h

theorem Expired.bucketsOf (hv : v ≠ user) : t'.bucketsOf v = t.bucketsOf v := by
  unfold InMemorySlidingWindowTokenTracker.bucketsOf
  rw [h.others v hv]

theorem Expired.total (hcr : t.Core latest) (hcr' : t'.Core latest)
    (hv : v ≠ user) : t'.total v = t.total v := by
  rw [hcr.total, hcr'.total, h.bucketsOf hv]

omit h in
theorem Core.nonneg (h : t.Core latest) (user : String) : ∀ el ∈ t.bucketsOf user, 0 ≤ el.node.tokenCount := by
  cases hd : t.userBucketStore.lookup user with
  | none =>
    rw [bucketsOf_of_none hd]
    nofun
  | some d =>
    rw [bucketsOf_of_lookup hd]
    exact (h.data user d hd).1.nonneg

theorem Expired.total_le (hcr : t.Core latest) (hcr' : t'.Core latest) :
    t'.total user ≤ t.total user := by
  rw [hcr'.total, ← tokensSince_of_forall_le h.le, h.since cutoff le_rfl, hcr.total]
  exact (filter_sublist.map _).sum_le_sum (by simpa using (hcr.nonneg user))

end

theorem Core.ne_of_recent (h : t.Core latest) (hold : t.oldest user < cutoff) (hpos : 0 < t.total v)
    (hle : ∀ el ∈ t.bucketsOf v, cutoff ≤ el.node.timestamp) : v ≠ user := by
  rintro rfl
  cases hd : t.userBucketStore.lookup v with
  | none =>
    rw [h.total, bucketsOf_of_none hd] at hpos
    exact hpos.false
  | some d =>
    rw [bucketsOf_of_lookup hd] at hle
    exact (le_oldest hd (h.data v d hd).2 hle).not_gt hold

variable {s : InMemorySlidingWindowTokenTracker × ℚ}

variable {t₀ : InMemorySlidingWindowTokenTracker}

theorem Rounds.step (h : Rounds t₀ cutoff latest s) (hex : s.1.hasExpiredUsers cutoff = true) :
    Rounds t₀ cutoff latest (expireUser cutoff s) ∧
      (expireUser cutoff s).1.expiredCount cutoff < s.1.expiredCount cutoff := by
  obtain ⟨t, newMin⟩ := s
  obtain ⟨user, t₁, heq, hcr, hrn, hold, hcn⟩ := expireUser_spec h.core hex newMin
  have hot : ∀ v ≠ user, t₁.total v = t.total v := fun v hv => hrn.total h.core hcr hv
  have hle : (if 0 < t₁.total user ∧ t₁.total user < newMin then t₁.total user else newMin) ≤ newMin := by
    split
    · rename_i hlt
      exact hlt.2.le
    · exact le_rfl
  rw [heq]
  refine ⟨⟨hcr, hrn.settings.trans h.settings, hrn.minTracked.trans h.minTracked,
    hrn.maxTracked.trans h.maxTracked, fun v x hx => ?_, fun v => ?_, fun v hv => ?_, ?_, hle.trans h.bound, ?_⟩, hcn⟩
  · by_cases hv : v = user
    · subst hv
      exact (hrn.since x hx).trans (h.since v x hx)
    · rw [← h.since v x hx]
      rw [hrn.bucketsOf hv]
  · by_cases hv : v = user
    · subst hv
      exact (hrn.total_le h.core hcr).trans (h.le v)
    · rw [hot v hv]
      exact h.le v
  · by_cases hvu : v = user
    · subst hvu
      right
      split
      · exact le_rfl
      · rename_i hge
        exact not_lt.1 fun hlt => hge ⟨hv, hlt⟩
    · rw [hot v hvu] at hv ⊢
      exact (h.low v hv).imp_right hle.trans
  · split
    · rename_i hpos
      exact hpos.1
    · exact h.pos
  · split
    · exact .inr ⟨user, rfl, hrn.le⟩
    apply h.attained.imp_right
    rintro ⟨v, hv, hrc⟩
    have hne : v ≠ user := h.core.ne_of_recent hold (by rw [hv]; exact h.pos) hrc
    refine ⟨v, (hot v hne).trans hv, ?_⟩
    rw [hrn.bucketsOf hne]
    exact hrc

theorem expireLoop_spec (fuel : Nat) (h : Rounds t₀ cutoff latest s) (hfl : s.1.expiredCount cutoff ≤ fuel) :
    Rounds t₀ cutoff latest (expireLoop cutoff fuel s) ∧
      (expireLoop cutoff fuel s).1.hasExpiredUsers cutoff = false := by
  induction fuel generalizing s with
  | zero =>
    refine ⟨h, ?_⟩
    by_contra hex
    rw [Bool.not_eq_false] at hex
    have := (h.step hex).2
    omega
  | succ fuel ih =>
    unfold expireLoop
    split
    · rename_i hex
      obtain ⟨hst, hcn⟩ := h.step hex
      exact ih hst (by omega)
    · rename_i hex
      exact ⟨h, Bool.not_eq_true _ ▸ hex⟩

theorem Core.oldest_le (h : t.Core latest) (user : String) : ∀ el ∈ t.bucketsOf user, t.oldest user ≤ el.node.timestamp := by
  intro el hel
  cases hd : t.userBucketStore.lookup user with
  | none =>
    rw [bucketsOf_of_none hd] at hel
    cases hel
  | some d =>
    have hsr := (h.data user d hd).1.sorted
    rw [bucketsOf_of_lookup hd] at hel
    rw [oldest_of_lookup hd, UserBucketData.oldest]
    generalize d.buckets = els at hel hsr
    cases hel with
    | head => exact le_rfl
    | tail _ hel => exact ((pairwise_cons.1 hsr).1 el hel).le

theorem recent_of_hasExpiredUsers (h : t.Core latest) (hex : t.hasExpiredUsers cutoff = false) (user : String) :
    ∀ el ∈ t.bucketsOf user, cutoff ≤ el.node.timestamp := by
  intro el hel
  cases hd : t.userBucketStore.lookup user with
  | none =>
    rw [bucketsOf_of_none hd] at hel
    cases hel
  | some d =>
    have hmem : user ∈ t.expirations := (h.members user).2 (by rw [hd]; rfl)
    have hpos : 0 < t.expirations.size := Array.size_pos_of_mem hmem
    have hrt := Array.getElem?_eq_getElem hpos
    -- The root is recent, and no oldest bucket is before that of the root.
    have hrc : cutoff ≤ t.oldest t.expirations[0] := by
      unfold hasExpiredUsers at hex
      rw [hrt] at hex
      simpa using hex
    have hle : t.oldest t.expirations[0] ≤ t.oldest user := by
      have hls := h.ordered.root t.isLess hrt hmem
      unfold less at hls
      simpa using hls
    have hol := h.oldest_le user el hel
    omega

structure Inv (t : InMemorySlidingWindowTokenTracker) (latest : Int) : Prop extends t.Core latest where
  least : LeastPositive t.total t.minTrackedToken
  greatest : GreatestPositive t.total t.maxTrackedToken

structure Current (t : InMemorySlidingWindowTokenTracker) (cutoff latest : Int)
    (t' : InMemorySlidingWindowTokenTracker) : Prop where
  inv : t'.Inv latest
  settings : t'.settings = t.settings
  since : ∀ user x, cutoff ≤ x → tokensSince x (t'.bucketsOf user) = tokensSince x (t.bucketsOf user)
  recent : ∀ user, ∀ el ∈ t'.bucketsOf user, cutoff ≤ el.node.timestamp

theorem Inv.expireUsers (h : t.Inv latest) (cutoff : Int) : Current t cutoff latest (t.expireUsers cutoff) := by
  unfold InMemorySlidingWindowTokenTracker.expireUsers
  split
  · have hst : Rounds t cutoff latest (t, maxFloat64) :=
      ⟨h.toCore, rfl, rfl, rfl, fun _ _ _ => rfl, fun _ => le_rfl, fun _ _ => .inl rfl, maxFloat64_pos, le_rfl, .inl rfl⟩
    obtain ⟨hrn, hdn⟩ := expireLoop_spec _ hst (by exact countP_le_length)
    generalize expireLoop cutoff t.expirations.size (t, maxFloat64) = s at hrn hdn
    obtain ⟨t₁, newMin⟩ := s
    have hls : LeastPositive t₁.total (t₁.recalcMin t.minTrackedToken newMin).minTrackedToken := by
      refine leastPositive_recalcMin hrn.core.inverse ?_ ?_ (fun user hpos => ?_) (fun _ hlt => ?_) ?_
      · rw [hrn.minTracked]
        exact h.least.pos
      · rw [hrn.minTracked]
        exact h.least.bound
      · rcases hrn.low user hpos with heq | hle
        · left
          rw [hrn.minTracked, heq]
          apply h.least.le user
          rw [← heq]
          exact hpos
        · exact .inr ⟨hrn.pos, hle⟩
      · obtain ⟨user, hus, -⟩ := hrn.attained.resolve_left hlt.ne
        exact ⟨user, hus⟩
      · exact .inr (.inr hrn.minTracked.symm)
    have hgr : GreatestPositive t₁.total
        ((t₁.recalcMin t.minTrackedToken newMin).recalcMax t.maxTrackedToken 0).maxTrackedToken := by
      have hmax : (t₁.recalcMin t.minTrackedToken newMin).maxTrackedToken = t.maxTrackedToken := hrn.maxTracked
      refine greatestPositive_recalcMax (t := t₁.recalcMin t.minTrackedToken newMin) hrn.core.inverse ?_
        (fun user => ?_) (fun hpos => absurd hpos (lt_irrefl 0)) ?_
      · rw [hmax]
        exact h.greatest.nonneg
      · rw [hmax]
        exact .inl ((hrn.le user).trans (h.greatest.ge user))
      · exact .inr (.inr hmax.symm)
    obtain ⟨hdt, hla, htt, hin, hmm, hnd, hor⟩ := hrn.core
    exact ⟨⟨⟨hdt, hla, htt, hin, hmm, hnd, hor⟩, hls, hgr⟩, hrn.settings,
      hrn.since, recent_of_hasExpiredUsers (t := t₁) hrn.core hdn⟩
  · rename_i hex
    exact ⟨h, rfl, fun _ _ _ => rfl, recent_of_hasExpiredUsers h.toCore (Bool.not_eq_true _ ▸ hex)⟩

end InMemorySlidingWindowTokenTracker

end Aibrix.Vtc
