import Aibrix.Lib.Heap
import Aibrix.Lib.KeyMap
import Mathlib.Algebra.Order.Ring.Rat
import Mathlib.Algebra.Order.BigOperators.Group.List
import Mathlib.Data.List.TakeWhile
import Mathlib.Tactic.Linarith

/-! # The sliding window token tracker

`InMemorySlidingWindowTokenTracker` of `token_tracker.go`, with rational numbers for `float64`. -/

namespace Aibrix.Vtc

open Lib

inductive TimeUnit where
  | minutes
  | seconds
  | milliseconds
  deriving DecidableEq

def TimeUnit.duration : TimeUnit → Int
  | .minutes => 60 * 10 ^ 9
  | .seconds => 10 ^ 9
  | .milliseconds => 10 ^ 6

/-- Minutes are kept in buckets of one second, as `Unix` has them. `UnixNano` is divided towards zero. -/
def TimeUnit.toTimestamp (unit : TimeUnit) (t : Int) : Int :=
  match unit with
  | .milliseconds => t.tdiv (10 ^ 6)
  | _ => t.fdiv (10 ^ 9)

def maxInt64 : Int := 2 ^ 63 - 1

def maxFloat64 : ℚ := (2 ^ 53 - 1) * 2 ^ 971

def windowSizeDuration (buckets : Int) (unit : TimeUnit) : Int :=
  if 0 < buckets ∧ maxInt64.tdiv unit.duration < buckets then maxInt64 else buckets * unit.duration

/-! ## One user -/

structure BucketNode where
  timestamp : Int
  tokenCount : ℚ

structure Element where
  id : Nat
  node : BucketNode

structure UserBucketData where
  buckets : List Element := []
  lookup : KeyMap Int Nat := ∅
  nextId : Nat := 0

namespace UserBucketData

def pruneLoop (cutoff : Int) : List Element → KeyMap Int Nat → ℚ → List Element × KeyMap Int Nat × ℚ
  | [], lookup, total => ([], lookup, total)
  | el :: rest, lookup, total =>
    if el.node.timestamp < cutoff then
      pruneLoop cutoff rest (lookup.erase el.node.timestamp) (total - el.node.tokenCount)
    else (el :: rest, lookup, total)

variable (d : UserBucketData)

def prune (cutoff : Int) (total : ℚ) : UserBucketData × ℚ :=
  let r := pruneLoop cutoff d.buckets d.lookup total
  ({ d with buckets := r.1, lookup := r.2.1 }, r.2.2)

/-- The new tokens go into the bucket of the timestamp, which is made if there is none. -/
def add (timestamp : Int) (newTokens : ℚ) : UserBucketData :=
  match d.lookup.lookup timestamp with
  | some id =>
    { d with buckets := d.buckets.map fun el =>
        if el.id = id then { el with node.tokenCount := el.node.tokenCount + newTokens } else el }
  | none =>
    { buckets := d.buckets ++ [⟨d.nextId, ⟨timestamp, newTokens⟩⟩]
      lookup := d.lookup.insert timestamp d.nextId
      nextId := d.nextId + 1 }

/-- The timestamp of the oldest bucket. A user of the heap has one. -/
def oldest : Int := d.buckets.head?.elim 0 (·.node.timestamp)

end UserBucketData

/-! ## All users -/

structure VTCConfig where
  inputTokenWeight : ℚ
  outputTokenWeight : ℚ

/-- The fields of a tracker that only its options set. -/
structure Settings where
  windowSize : Int
  bucketUnit : TimeUnit
  config : VTCConfig
  minTokens : ℚ
  maxTokens : ℚ

structure InMemorySlidingWindowTokenTracker where
  settings : Settings
  userBucketStore : KeyMap String UserBucketData := ∅
  userTotals : KeyMap String ℚ := ∅
  expirations : Array String := #[]
  totalsToUsers : KeyMap ℚ (KeyMap String Unit) := ∅
  minTrackedToken : ℚ := maxFloat64
  maxTrackedToken : ℚ := 0

def newTracker (config : VTCConfig) (windowBuckets : Int) (unit : TimeUnit) (minTokens maxTokens : ℚ) :
    InMemorySlidingWindowTokenTracker where
  settings := { windowSize := windowSizeDuration windowBuckets unit, bucketUnit := unit, config, minTokens, maxTokens }

def atLeastZero (x : ℚ) : ℚ := if x < 0 then 0 else x

def VTCConfig.weigh (config : VTCConfig) (inputTokens outputTokens : ℚ) : ℚ :=
  atLeastZero inputTokens * config.inputTokenWeight + atLeastZero outputTokens * config.outputTokenWeight

namespace InMemorySlidingWindowTokenTracker

variable (t : InMemorySlidingWindowTokenTracker) (user : String)

def total : ℚ := (t.userTotals.lookup user).getD 0

def oldest : Int :=
  (t.userBucketStore.lookup user).elim 0 (·.oldest)

def less (user user' : String) : Bool := decide (t.oldest user < t.oldest user')

def cutoff (now : Int) : Int :=
  t.settings.bucketUnit.toTimestamp (now - t.settings.windowSize)

def hasExpiredUsers (cutoff : Int) : Bool :=
  match t.expirations[0]? with
  | some user => decide (t.oldest user < cutoff)
  | none => false

def pruneExpiredBuckets (cutoff : Int) : InMemorySlidingWindowTokenTracker × ℚ :=
  match t.userBucketStore.lookup user with
  | none => (t, t.total user)
  | some d =>
    let r := d.prune cutoff (t.total user)
    ({ t with userBucketStore := t.userBucketStore.insert user r.1 }, atLeastZero r.2)

def removeFromTotals (oldTotal : ℚ) (user : String) : InMemorySlidingWindowTokenTracker :=
  if oldTotal ≤ 0 then t
  else match t.totalsToUsers.lookup oldTotal with
    | none => t
    | some users =>
      let users := users.erase user
      if KeyMap.size users = 0 then { t with totalsToUsers := t.totalsToUsers.erase oldTotal }
      else { t with totalsToUsers := t.totalsToUsers.insert oldTotal users }

def addToTotals (newTotal : ℚ) (user : String) : InMemorySlidingWindowTokenTracker :=
  if newTotal ≤ 0 then t
  else { t with
    totalsToUsers := t.totalsToUsers.insert newTotal (((t.totalsToUsers.lookup newTotal).getD ∅).insert user ()) }

def countAt (total : ℚ) : Nat :=
  (t.totalsToUsers.lookup total).elim 0 KeyMap.size

def wasLastUserAtBoundary (value userTotal : ℚ) : Bool :=
  decide (0 < userTotal ∧ userTotal = value ∧ t.countAt userTotal = 0)

def recalcMin (oldTotal newTotal : ℚ) : InMemorySlidingWindowTokenTracker :=
  let min :=
    if t.wasLastUserAtBoundary t.minTrackedToken oldTotal then
      t.totalsToUsers.keys.foldl (fun newMin x => if x < newMin then x else newMin) maxFloat64
    else if 0 < newTotal ∧ newTotal < t.minTrackedToken then newTotal
    else t.minTrackedToken
  { t with minTrackedToken := if KeyMap.size t.totalsToUsers = 0 then maxFloat64 else min }

def recalcMax (oldTotal newTotal : ℚ) : InMemorySlidingWindowTokenTracker :=
  let max :=
    if t.wasLastUserAtBoundary t.maxTrackedToken oldTotal then
      t.totalsToUsers.keys.foldl (fun newMax x => if newMax < x then x else newMax) 0
    else if t.maxTrackedToken < newTotal then newTotal
    else t.maxTrackedToken
  { t with maxTrackedToken := max }

def bucketsOf : List Element :=
  (t.userBucketStore.lookup user).elim [] (·.buckets)

def setTotal (total : ℚ) : InMemorySlidingWindowTokenTracker :=
  { t with userTotals := t.userTotals.insert user total }

def deleteUser : InMemorySlidingWindowTokenTracker :=
  { t with userBucketStore := t.userBucketStore.erase user, userTotals := t.userTotals.erase user }

def pushExpiration : InMemorySlidingWindowTokenTracker :=
  { t with expirations := Heap.push t.less t.expirations user }

/-- The end of a round of `expireUsers`: the user is gone, or is back in the heap with what is left. -/
def settleExpired (newTotal newMin : ℚ) : InMemorySlidingWindowTokenTracker × ℚ :=
  if (t.bucketsOf user).isEmpty then (t.deleteUser user, newMin)
  else
    (((t.setTotal user newTotal).addToTotals newTotal user).pushExpiration user,
      if 0 < newTotal ∧ newTotal < newMin then newTotal else newMin)

/-- One round of `expireUsers`, with the least positive total of the users that it has pruned. -/
def expireUser (cutoff : Int) (s : InMemorySlidingWindowTokenTracker × ℚ) : InMemorySlidingWindowTokenTracker × ℚ :=
  match Heap.pop s.1.less s.1.expirations with
  | (none, _) => s
  | (some user, expirations) =>
    let r := { s.1 with expirations }.pruneExpiredBuckets user cutoff
    (r.1.removeFromTotals (s.1.total user) user).settleExpired user r.2 s.2

def expireLoop (cutoff : Int) : Nat → InMemorySlidingWindowTokenTracker × ℚ → InMemorySlidingWindowTokenTracker × ℚ
  | 0, s => s
  | fuel + 1, s => if s.1.hasExpiredUsers cutoff then expireLoop cutoff fuel (expireUser cutoff s) else s

def expireUsers (cutoff : Int) : InMemorySlidingWindowTokenTracker :=
  if t.hasExpiredUsers cutoff then
    let r := expireLoop cutoff t.expirations.size (t, maxFloat64)
    (r.1.recalcMin t.minTrackedToken r.2).recalcMax t.maxTrackedToken 0
  else t

/-- The clock is read a second time if something has expired. -/
def rlockCurrentWindow (now now' : Int) : InMemorySlidingWindowTokenTracker :=
  if t.hasExpiredUsers (t.cutoff now) then t.expireUsers (t.cutoff now') else t

def getTokenCount (now now' : Int) (user : String) : ℚ :=
  (t.rlockCurrentWindow now now').total user

def getMinTokenCount (now now' : Int) : ℚ :=
  let t := t.rlockCurrentWindow now now'
  if t.minTrackedToken = maxFloat64 then t.settings.minTokens else t.minTrackedToken

def getMaxTokenCount (now now' : Int) : ℚ :=
  let t := t.rlockCurrentWindow now now'
  if t.maxTrackedToken = 0 then t.settings.maxTokens else t.maxTrackedToken

def updateUserTotalAndMinMax (oldTotal newTotal : ℚ) : InMemorySlidingWindowTokenTracker :=
  if oldTotal = newTotal then t
  else
    let newTotal := atLeastZero newTotal
    let t := ((t.setTotal user newTotal).removeFromTotals oldTotal user).addToTotals newTotal user
    (t.recalcMin oldTotal newTotal).recalcMax oldTotal newTotal

def addTokens (currentTimestamp : Int) (newTokens : ℚ) : InMemorySlidingWindowTokenTracker :=
  match t.userBucketStore.lookup user with
  | some d => { t with userBucketStore := t.userBucketStore.insert user (d.add currentTimestamp newTokens) }
  | none =>
    { t with
      userBucketStore := t.userBucketStore.insert user (({} : UserBucketData).add currentTimestamp newTokens) }.pushExpiration
        user

def updateTokenCount (now : Int) (user : String)
    (inputTokens outputTokens : ℚ) : Except String InMemorySlidingWindowTokenTracker :=
  if user = "" then .error "user ID cannot be empty"
  else
    let currentTimestamp := t.settings.bucketUnit.toTimestamp now
    let t := t.expireUsers (t.cutoff now)
    let oldTotal := t.total user
    let newTokens := t.settings.config.weigh inputTokens outputTokens
    .ok ((t.addTokens user currentTimestamp newTokens).updateUserTotalAndMinMax user oldTotal (oldTotal + newTokens))

end InMemorySlidingWindowTokenTracker

/-! ## The buckets of one user, and users by their totals -/

open List KeyMap

def tokens (els : List Element) : ℚ := (els.map (·.node.tokenCount)).sum

def tokensSince (cutoff : Int) (els : List Element) : ℚ := tokens (els.filter (cutoff ≤ ·.node.timestamp))

@[simp] theorem tokens_append (els els' : List Element) : tokens (els ++ els') = tokens els + tokens els' := by
  simp [tokens]

@[simp] theorem tokens_cons (el : Element) (els : List Element) :
    tokens (el :: els) = el.node.tokenCount + tokens els := rfl

variable {els : List Element}

theorem tokens_nonneg (h : ∀ el ∈ els, 0 ≤ el.node.tokenCount) : 0 ≤ tokens els :=
  sum_nonneg (by simpa using h)

theorem tokensSince_cons (cutoff : Int) (el : Element) (els : List Element) : tokensSince cutoff (el :: els) =
      (if cutoff ≤ el.node.timestamp then el.node.tokenCount else 0) + tokensSince cutoff els := by
  unfold tokensSince
  by_cases h : cutoff ≤ el.node.timestamp <;> simp [h]

theorem tokensSince_append (cutoff : Int) (els els' : List Element) :
    tokensSince cutoff (els ++ els') = tokensSince cutoff els + tokensSince cutoff els' := by
  simp [tokensSince]

theorem tokensSince_of_forall_le {cutoff : Int} (h : ∀ el ∈ els, cutoff ≤ el.node.timestamp) :
    tokensSince cutoff els = tokens els := by
  rw [tokensSince, filter_eq_self.2 (by simpa using h)]

theorem tokensSince_of_forall_lt {cutoff : Int} (h : ∀ el ∈ els, el.node.timestamp < cutoff) :
    tokensSince cutoff els = 0 := by
  rw [tokensSince, List.filter_eq_nil_iff.2 (by simpa using h)]
  rfl

namespace UserBucketData

structure Ok (d : UserBucketData) : Prop where
  sorted : d.buckets.Pairwise (·.node.timestamp < ·.node.timestamp)
  ids : d.buckets.Pairwise (·.id ≠ ·.id)
  next : ∀ el ∈ d.buckets, el.id < d.nextId
  lookup : ∀ timestamp id, d.lookup.lookup timestamp = some id ↔
    ∃ el ∈ d.buckets, el.id = id ∧ el.node.timestamp = timestamp
  nonneg : ∀ el ∈ d.buckets, 0 ≤ el.node.tokenCount

theorem Ok.new : Ok {} where
  sorted := .nil
  ids := .nil
  next := by simp
  lookup := by simp
  nonneg := by simp

variable {d : UserBucketData} {cutoff timestamp : Int} {newTokens : ℚ}

/-! ## Pruning -/

theorem pruneLoop_eq (cutoff : Int) (els : List Element) (lookup : KeyMap Int Nat) (total : ℚ) :
    pruneLoop cutoff els lookup total = (els.dropWhile (·.node.timestamp < cutoff),
        eraseAll lookup ((els.takeWhile (·.node.timestamp < cutoff)).map (·.node.timestamp)),
        total - tokens (els.takeWhile (·.node.timestamp < cutoff))) := by
  induction els generalizing lookup total with
  | nil => simp [pruneLoop, eraseAll, tokens]
  | cons el els ih =>
    unfold pruneLoop
    by_cases h : el.node.timestamp < cutoff
    · simp [h, ih, eraseAll, sub_sub]
    · simp [h, eraseAll, tokens]

variable {el : Element} {els : List Element}

theorem le_of_mem_dropWhile (hsr : els.Pairwise (·.node.timestamp < ·.node.timestamp))
    (h : el ∈ els.dropWhile (·.node.timestamp < cutoff)) : cutoff ≤ el.node.timestamp := by
  induction els with
  | nil => cases h
  | cons el' els ih =>
    rw [pairwise_cons] at hsr
    by_cases hlt : el'.node.timestamp < cutoff
    · exact ih hsr.2 (by simpa [hlt] using h)
    rcases mem_cons.1 (by simpa [hlt] using h) with rfl | h
    · omega
    · have := hsr.1 el h
      omega

theorem lt_of_mem_takeWhile (h : el ∈ els.takeWhile (·.node.timestamp < cutoff)) : el.node.timestamp < cutoff := by
  simpa using mem_takeWhile_imp h

structure Pruned (d : UserBucketData) (cutoff : Int) (d' : UserBucketData) : Prop where
  ok : d'.Ok
  since : ∀ x, cutoff ≤ x → tokensSince x d'.buckets = tokensSince x d.buckets
  le : ∀ el ∈ d'.buckets, cutoff ≤ el.node.timestamp
  sub : ∀ el ∈ d'.buckets, el ∈ d.buckets

theorem Ok.prune (h : d.Ok) (cutoff : Int) (total : ℚ) : Pruned d cutoff (d.prune cutoff total).1 := by
  have hsp : d.buckets.takeWhile (·.node.timestamp < cutoff) ++ d.buckets.dropWhile (·.node.timestamp < cutoff) =
    d.buckets := takeWhile_append_dropWhile
  have hsub := dropWhile_sublist (fun el : Element => decide (el.node.timestamp < cutoff)) (l := d.buckets)
  unfold UserBucketData.prune
  rw [pruneLoop_eq]
  refine ⟨⟨h.sorted.sublist hsub, h.ids.sublist hsub, fun el hel => h.next el (hsub.subset hel), fun timestamp id => ?_,
    fun el hel => h.nonneg el (hsub.subset hel)⟩, fun x hx => ?_, fun el hel => le_of_mem_dropWhile h.sorted hel,
    fun el hel => hsub.subset hel⟩
  · rw [lookup_eraseAll]
    constructor
    · intro hlk
      split at hlk
      · cases hlk
      rename_i hkp
      obtain ⟨el, hel, hid, hts⟩ := (h.lookup timestamp id).1 hlk
      rw [← hsp, mem_append] at hel
      refine ⟨el, hel.resolve_left fun htk => hkp ?_, hid, hts⟩
      exact mem_map.2 ⟨el, htk, hts⟩
    · rintro ⟨el, hel, hid, hts⟩
      rw [if_neg, (h.lookup timestamp id).2 ⟨el, hsub.subset hel, hid, hts⟩]
      intro htk
      obtain ⟨el', hel', hts'⟩ := mem_map.1 htk
      have hlt := lt_of_mem_takeWhile hel'
      have hle := le_of_mem_dropWhile h.sorted hel
      omega
  · have htk : tokensSince x (d.buckets.takeWhile (·.node.timestamp < cutoff)) = 0 :=
      tokensSince_of_forall_lt fun el hel => (lt_of_mem_takeWhile hel).trans_le hx
    have hsum := tokensSince_append x (d.buckets.takeWhile (·.node.timestamp < cutoff))
      (d.buckets.dropWhile (·.node.timestamp < cutoff))
    rw [hsp, htk, zero_add] at hsum
    exact hsum.symm

theorem prune_snd (d : UserBucketData) (cutoff : Int) :
    (d.prune cutoff (tokens d.buckets)).2 = tokens (d.prune cutoff (tokens d.buckets)).1.buckets := by
  have hsum := tokens_append (d.buckets.takeWhile (·.node.timestamp < cutoff))
    (d.buckets.dropWhile (·.node.timestamp < cutoff))
  rw [takeWhile_append_dropWhile] at hsum
  simp [UserBucketData.prune, pruneLoop_eq, hsum]

/-! ## Adding -/

def bump (id : Nat) (newTokens : ℚ) (el : Element) : Element :=
  if el.id = id then { el with node.tokenCount := el.node.tokenCount + newTokens } else el

@[simp] theorem bump_id (id : Nat) (newTokens : ℚ) (el : Element) : (bump id newTokens el).id = el.id := by
  unfold bump
  split <;> rfl

@[simp] theorem bump_timestamp (id : Nat) (newTokens : ℚ) (el : Element) :
    (bump id newTokens el).node.timestamp = el.node.timestamp := by
  unfold bump
  split <;> rfl

theorem map_bump_of_forall_ne {id : Nat} (h : ∀ el ∈ els, el.id ≠ id) : els.map (bump id newTokens) = els :=
  (map_congr_left fun el hel => if_neg (h el hel)).trans (map_id els)

theorem tokensSince_bump (x : Int) (hids : els.Pairwise (·.id ≠ ·.id)) (hel : el ∈ els) :
    tokensSince x (els.map (bump el.id newTokens)) =
      tokensSince x els + if x ≤ el.node.timestamp then newTokens else 0 := by
  induction els with
  | nil => cases hel
  | cons el' els ih =>
    rw [pairwise_cons] at hids
    rw [map_cons, tokensSince_cons, tokensSince_cons, bump_timestamp]
    rcases mem_cons.1 hel with rfl | hel
    · have hcn : (bump el.id newTokens el).node.tokenCount = el.node.tokenCount + newTokens := by simp [bump]
      rw [map_bump_of_forall_ne fun el' hel' => (hids.1 el' hel').symm, hcn]
      split
      · exact add_right_comm _ _ _
      · rw [add_zero]
    · have hne : bump el.id newTokens el' = el' := if_neg (hids.1 el hel)
      rw [ih hids.2 hel, hne, add_assoc]

structure AddedTo (d : UserBucketData) (timestamp : Int) (newTokens : ℚ) (d' : UserBucketData) : Prop where
  ok : d'.Ok
  since : ∀ x, tokensSince x d'.buckets = tokensSince x d.buckets + if x ≤ timestamp then newTokens else 0
  nonempty : d'.buckets ≠ []
  timestamps : ∀ el ∈ d'.buckets, el.node.timestamp = timestamp ∨ ∃ el' ∈ d.buckets, el'.node.timestamp = el.node.timestamp
  oldest : d.buckets ≠ [] → d'.oldest = d.oldest

theorem Ok.bump (h : d.Ok) (hel : el ∈ d.buckets) (hnew : 0 ≤ newTokens) :
    AddedTo d el.node.timestamp newTokens { d with buckets := d.buckets.map (bump el.id newTokens) } := by
  refine ⟨⟨?_, ?_, ?_, ?_, ?_⟩, fun x => tokensSince_bump x h.ids hel, ?_, ?_, fun _ => ?_⟩
  · simpa [pairwise_map] using h.sorted
  · simpa [pairwise_map] using h.ids
  · simpa using h.next
  · simpa using h.lookup
  · rw [forall_mem_map]
    intro el' hel'
    unfold UserBucketData.bump
    split
    · exact add_nonneg (h.nonneg el' hel') hnew
    · exact h.nonneg el' hel'
  · exact ne_nil_of_mem (mem_map_of_mem hel)
  · rw [forall_mem_map]
    intro el' hel'
    exact .inr ⟨el', hel', (bump_timestamp ..).symm⟩
  · unfold oldest
    cases d.buckets <;> simp

theorem Ok.append (h : d.Ok) (hlt : ∀ el ∈ d.buckets, el.node.timestamp < timestamp) (hnew : 0 ≤ newTokens) :
    AddedTo d timestamp newTokens
      { buckets := d.buckets ++ [⟨d.nextId, ⟨timestamp, newTokens⟩⟩]
        lookup := d.lookup.insert timestamp d.nextId
        nextId := d.nextId + 1 } := by
  have hpr {r : Element → Element → Prop} {last : Element} (hold : d.buckets.Pairwise r)
      (hls : ∀ el ∈ d.buckets, r el last) : (d.buckets ++ [last]).Pairwise r := by
    simpa [pairwise_append] using And.intro hold hls
  refine ⟨⟨hpr h.sorted hlt, hpr h.ids fun el hel => (h.next el hel).ne, ?_, fun timestamp' id => ?_, ?_⟩,
    fun x => ?_, by simp, ?_, fun hne => ?_⟩
  · rw [forall_mem_append, forall_mem_singleton]
    exact ⟨fun el hel => (h.next el hel).trans (Nat.lt_succ_self _), Nat.lt_succ_self _⟩
  · rw [lookup_insert_eq]
    by_cases heq : timestamp' = timestamp
    · subst heq
      have hfr : ∀ el ∈ d.buckets, el.node.timestamp ≠ timestamp' := fun el hel => (hlt el hel).ne
      simp only [if_true, Option.some.injEq, mem_append, mem_singleton]
      constructor
      · rintro rfl
        exact ⟨_, .inr rfl, rfl, rfl⟩
      · rintro ⟨el, hel | rfl, hid, hts⟩
        · exact absurd hts (hfr el hel)
        · exact hid
    · rw [if_neg heq, h.lookup]
      simp [Ne.symm heq]
  · rw [forall_mem_append, forall_mem_singleton]
    exact ⟨h.nonneg, hnew⟩
  · simp [tokensSince_append, tokensSince_cons, tokensSince_of_forall_le, tokens]
  · rw [forall_mem_append, forall_mem_singleton]
    exact ⟨fun el hel => .inr ⟨el, hel, rfl⟩, .inl rfl⟩
  · simp [oldest, List.head?_append_of_ne_nil _ hne]

theorem Ok.add (h : d.Ok) (hlt : ∀ el ∈ d.buckets, el.node.timestamp ≤ timestamp) (hnew : 0 ≤ newTokens) :
    AddedTo d timestamp newTokens (d.add timestamp newTokens) := by
  unfold UserBucketData.add
  cases hlk : d.lookup.lookup timestamp with
  | some id =>
    obtain ⟨el, hel, rfl, rfl⟩ := (h.lookup timestamp id).1 hlk
    exact h.bump hel hnew
  | none =>
    refine h.append (fun el hel => lt_of_le_of_ne (hlt el hel) fun heq => ?_) hnew
    rw [(h.lookup timestamp el.id).2 ⟨el, hel, rfl, heq⟩] at hlk
    cases hlk

end UserBucketData

open Function

def usersAt (totalsToUsers : KeyMap ℚ (KeyMap String Unit)) (x : ℚ) : KeyMap String Unit :=
  (totalsToUsers.lookup x).getD ∅

structure Inverse (totalsToUsers : KeyMap ℚ (KeyMap String Unit)) (total : String → ℚ) : Prop where
  lists : ∀ x user, user ∈ usersAt totalsToUsers x ↔ 0 < x ∧ total user = x
  nonempty : ∀ x users, totalsToUsers.lookup x = some users → KeyMap.size users ≠ 0

theorem Inverse.congr {totalsToUsers : KeyMap ℚ (KeyMap String Unit)} {total total' : String → ℚ}
    (h : Inverse totalsToUsers total) (hsm : ∀ x user, 0 < x → (total' user = x ↔ total user = x)) :
    Inverse totalsToUsers total' := by
  refine ⟨fun x user => ?_, h.nonempty⟩
  rw [h.lists]
  exact and_congr_right fun hx => (hsm x user hx).symm

structure LeastPositive (total : String → ℚ) (value : ℚ) : Prop where
  le : ∀ user, 0 < total user → value ≤ total user
  pos : 0 < value
  bound : value ≤ maxFloat64
  attained : value = maxFloat64 ∨ ∃ user, total user = value

structure GreatestPositive (total : String → ℚ) (value : ℚ) : Prop where
  ge : ∀ user, total user ≤ value
  nonneg : 0 ≤ value
  attained : value = 0 ∨ ∃ user, total user = value

namespace InMemorySlidingWindowTokenTracker

variable {t : InMemorySlidingWindowTokenTracker} {total : String → ℚ} {user : String} {oldTotal newTotal : ℚ}

section

variable (t : InMemorySlidingWindowTokenTracker)

theorem removeFromTotals_eq (oldTotal : ℚ) (user : String) :
    t.removeFromTotals oldTotal user = { t with totalsToUsers := (t.removeFromTotals oldTotal user).totalsToUsers } := by
  unfold removeFromTotals
  split
  · rfl
  split
  · rfl
  · dsimp only
    split <;> rfl

theorem addToTotals_eq (newTotal : ℚ) (user : String) :
    t.addToTotals newTotal user = { t with totalsToUsers := (t.addToTotals newTotal user).totalsToUsers } := by
  unfold addToTotals
  split <;> rfl

theorem size_ne_zero_iff {users : KeyMap String Unit} : size users ≠ 0 ↔ ∃ user, user ∈ users := by
  rw [size_eq_length_keys, ne_eq, length_eq_zero_iff, eq_nil_iff_forall_not_mem, not_forall_not]
  rfl

theorem mem_usersAt_removeFromTotals (hpos : 0 < oldTotal) (user : String)
    (x : ℚ) (u : String) : u ∈ usersAt (t.removeFromTotals oldTotal user).totalsToUsers x ↔
      u ∈ usersAt t.totalsToUsers x ∧ ¬(x = oldTotal ∧ u = user) := by
  unfold removeFromTotals usersAt
  rw [if_neg hpos.not_ge]
  by_cases hx : x = oldTotal
  · subst hx
    cases hus : t.totalsToUsers.lookup x with
    | none => simp [hus]
    | some users =>
      dsimp only
      split
      · rename_i hem
        rw [← not_ne_iff, size_ne_zero_iff, not_exists] at hem
        simpa [and_comm] using hem u
      · simp [and_comm]
  · cases t.totalsToUsers.lookup oldTotal with
    | none => simp [hx]
    | some users =>
      dsimp only
      split <;> simp [hx]

theorem mem_usersAt_addToTotals (hpos : 0 < newTotal) (user : String)
    (x : ℚ) (u : String) : u ∈ usersAt (t.addToTotals newTotal user).totalsToUsers x ↔
      u ∈ usersAt t.totalsToUsers x ∨ x = newTotal ∧ u = user := by
  unfold addToTotals usersAt
  rw [if_neg hpos.not_ge, lookup_insert_eq]
  by_cases hx : x = newTotal
  · subst hx
    simp [or_comm]
  · simp [hx]

end

theorem nonempty_removeFromTotals (h : ∀ x users, t.totalsToUsers.lookup x = some users → size users ≠ 0)
    (oldTotal : ℚ) (user : String) (x : ℚ) (users : KeyMap String Unit)
    (hlk : (t.removeFromTotals oldTotal user).totalsToUsers.lookup x = some users) : size users ≠ 0 := by
  unfold removeFromTotals at hlk
  split at hlk
  · exact h x users hlk
  split at hlk
  · exact h x users hlk
  dsimp only at hlk
  split at hlk
  · rw [lookup_erase_eq, ite_eq_iff] at hlk
    exact h x users (by simpa using And.right (hlk.resolve_left nofun))
  rw [lookup_insert_eq] at hlk
  split at hlk
  · cases hlk
    assumption
  · exact h x users hlk

theorem inverse_removeFromTotals (h : Inverse t.totalsToUsers total) (user : String) :
    Inverse (t.removeFromTotals (total user) user).totalsToUsers (update total user 0) := by
  refine ⟨fun x u => ?_, nonempty_removeFromTotals h.nonempty _ _⟩
  by_cases hpos : 0 < total user
  · rw [mem_usersAt_removeFromTotals t hpos, h.lists, update_apply]
    split
    · subst u
      exact iff_of_false (fun hlf => hlf.2 ⟨hlf.1.2.symm, rfl⟩) fun hrg => hrg.1.ne hrg.2
    · simp [*]
  have hsm : t.removeFromTotals (total user) user = t := if_pos (not_lt.1 hpos)
  rw [hsm, h.lists, update_apply]
  split
  · subst u
    exact iff_of_false (fun hlf => hpos (hlf.2 ▸ hlf.1)) fun hrg => hrg.1.ne hrg.2
  · rfl

theorem inverse_addToTotals (h : Inverse t.totalsToUsers total) (hzr : total user = 0) (newTotal : ℚ) :
    Inverse (t.addToTotals newTotal user).totalsToUsers (update total user newTotal) := by
  have hsl : ∀ x, ¬(0 < x ∧ total user = x) := fun x hx => hx.1.ne (hzr.symm.trans hx.2)
  by_cases hpos : 0 < newTotal
  · refine ⟨fun x u => ?_, fun x users hlk => ?_⟩
    · rw [mem_usersAt_addToTotals t hpos, h.lists, update_apply]
      split
      · subst u
        rw [or_iff_right (hsl x)]
        exact ⟨fun heq => ⟨heq.1 ▸ hpos, heq.1.symm⟩, fun heq => ⟨heq.2.symm, rfl⟩⟩
      · simp [*]
    · unfold addToTotals at hlk
      rw [if_neg hpos.not_ge, lookup_insert_eq] at hlk
      split at hlk
      · cases hlk
        exact size_ne_zero_iff.2 ⟨user, (AList.mem_insert _).2 (.inl rfl)⟩
      · exact h.nonempty x users hlk
  · have hsm : t.addToTotals newTotal user = t := if_pos (not_lt.1 hpos)
    rw [hsm]
    refine h.congr fun x u hx => ?_
    rw [update_apply]
    split
    · subst u
      exact iff_of_false (fun heq => hpos (heq ▸ hx)) fun heq => hsl x ⟨hx, heq⟩
    · rfl

/-! ## Extremes -/

section

variable (h : Inverse t.totalsToUsers total)
include h

theorem mem_keys_iff (x : ℚ) : x ∈ t.totalsToUsers.keys ↔ 0 < x ∧ ∃ user, total user = x := by
  rw [← exists_and_left, ← exists_congr (h.lists x)]
  unfold usersAt
  cases hus : t.totalsToUsers.lookup x with
  | none => exact iff_of_false (AList.lookup_eq_none.1 hus) (by simp)
  | some users =>
    exact iff_of_true (mem_iff_lookup.2 ⟨users, hus⟩) (size_ne_zero_iff.1 (h.nonempty x users hus))

theorem countAt_eq_zero_iff {x : ℚ} (hpos : 0 < x) : t.countAt x = 0 ↔ ¬∃ user, total user = x := by
  have hky := mem_keys_iff h x
  rw [and_iff_right hpos] at hky
  rw [← hky]
  unfold countAt
  cases hus : t.totalsToUsers.lookup x with
  | none => exact iff_of_true rfl (AList.lookup_eq_none.1 hus)
  | some users =>
    exact iff_of_false (h.nonempty x users hus) fun hnot => hnot (mem_iff_lookup.2 ⟨users, hus⟩)

theorem wasLastUserAtBoundary_iff {value userTotal : ℚ} : t.wasLastUserAtBoundary value userTotal = true ↔
      0 < userTotal ∧ userTotal = value ∧ ¬∃ user, total user = userTotal := by
  unfold wasLastUserAtBoundary
  rw [decide_eq_true_iff]
  exact and_congr_right fun hpos => and_congr_right fun _ => countAt_eq_zero_iff h hpos

end

theorem maxFloat64_pos : 0 < maxFloat64 := by
  unfold maxFloat64
  norm_num

/-- The least total is what it was, or the new one, unless the last user has left it. -/
theorem leastPositive_recalcMin (h : Inverse t.totalsToUsers total) (hpos : 0 < t.minTrackedToken)
    (hbn : t.minTrackedToken ≤ maxFloat64)
    (hle : ∀ user, 0 < total user → t.minTrackedToken ≤ total user ∨ 0 < newTotal ∧ newTotal ≤ total user)
    (hnew : 0 < newTotal → newTotal < maxFloat64 → ∃ user, total user = newTotal)
    (hold : t.minTrackedToken = maxFloat64 ∨ (∃ user, total user = t.minTrackedToken) ∨ oldTotal = t.minTrackedToken) :
    LeastPositive total (t.recalcMin oldTotal newTotal).minTrackedToken := by
  unfold recalcMin
  dsimp only
  split
  · -- No user has a positive total.
    rename_i hem
    refine ⟨fun user hpos => ?_, maxFloat64_pos, le_rfl, .inl rfl⟩
    have hkey := (mem_keys_iff h (total user)).2 ⟨hpos, user, rfl⟩
    rw [size_eq_length_keys, length_eq_zero_iff] at hem
    rw [hem] at hkey
    cases hkey
  split
  · obtain ⟨hmem, hmax, hall⟩ := foldl_lesser not_lt.1 t.totalsToUsers.keys maxFloat64
    rw [mem_cons] at hmem
    refine ⟨fun user hpos => hall _ ((mem_keys_iff h _).2 ⟨hpos, user, rfl⟩), ?_, hmax, ?_⟩
    · rcases hmem with heq | hmem
      · rw [heq]
        exact maxFloat64_pos
      · exact ((mem_keys_iff h _).1 hmem).1
    · exact hmem.imp_right fun hmem => ((mem_keys_iff h _).1 hmem).2
  rename_i hla
  rw [wasLastUserAtBoundary_iff h] at hla
  split
  · rename_i hls
    refine ⟨fun user hpos => ?_, hls.1, hls.2.le.trans hbn, .inr ?_⟩
    · rcases hle user hpos with hge | hge
      · exact hls.2.le.trans hge
      · exact hge.2
    · exact hnew hls.1 (hls.2.trans_le hbn)
  rename_i hnot
  refine ⟨fun user hpos => ?_, hpos, hbn, ?_⟩
  · rcases hle user hpos with hge | ⟨hnw, hge⟩
    · exact hge
    · exact (not_lt.1 fun hlt => hnot ⟨hnw, hlt⟩).trans hge
  refine hold.imp_right fun hold => ?_
  by_contra hnn
  rcases hold with hsm | rfl
  · exact hnn hsm
  · exact hla ⟨hpos, rfl, hnn⟩

theorem greatestPositive_recalcMax (h : Inverse t.totalsToUsers total) (hno : 0 ≤ t.maxTrackedToken)
    (hle : ∀ user, total user ≤ t.maxTrackedToken ∨ total user ≤ newTotal)
    (hnew : 0 < newTotal → ∃ user, total user = newTotal)
    (hold : t.maxTrackedToken = 0 ∨ (∃ user, total user = t.maxTrackedToken) ∨ oldTotal = t.maxTrackedToken) :
    GreatestPositive total (t.recalcMax oldTotal newTotal).maxTrackedToken := by
  unfold recalcMax
  split
  · obtain ⟨hmem, hmin, hall⟩ := foldl_lesser (α := ℚᵒᵈ) not_lt.1 t.totalsToUsers.keys (0 : ℚ)
    refine ⟨fun user => ?_, hmin, (mem_cons.1 hmem).imp_right fun hmem => ((mem_keys_iff h _).1 hmem).2⟩
    by_cases hpos : 0 < total user
    · exact hall _ ((mem_keys_iff h _).2 ⟨hpos, user, rfl⟩)
    · exact (not_lt.1 hpos).trans hmin
  rename_i hlt
  rw [wasLastUserAtBoundary_iff h] at hlt
  split
  · rename_i hls
    refine ⟨fun user => ?_, hno.trans hls.le, .inr (hnew (hno.trans_lt hls))⟩
    rcases hle user with hge | hge
    · exact hge.trans hls.le
    · exact hge
  rename_i hnot
  refine ⟨fun user => ?_, hno, ?_⟩
  · rcases hle user with hge | hge
    · exact hge
    · exact hge.trans (not_lt.1 hnot)
  by_contra hnn
  rw [not_or] at hnn
  rcases hold with hzr | hsm | rfl
  · exact hnn.1 hzr
  · exact hnn.2 hsm
  · exact hlt ⟨lt_of_le_of_ne hno (Ne.symm hnn.1), rfl, hnn.2⟩

end InMemorySlidingWindowTokenTracker

end Aibrix.Vtc
