import Aibrix.RadixCache.Eviction
import Mathlib.Algebra.Order.Field.Rat
import Mathlib.Algebra.Order.BigOperators.Group.List
import Mathlib.Algebra.Order.Field.Basic
import Mathlib.Tactic.Linarith

/-! # The sliding window of the Preble router

`SlidingWindowHistogram` of `preble.go`: sums over the prompts of the last minutes, by the node that a prompt ends at. -/

namespace Aibrix.Preble

open Lib RadixCache

/-- A node that is not there counts as zero. -/
abbrev Tally := KeyMap Nat Int

namespace Tally

variable (t : Tally)

def get (node : Nat) : Int := (t.lookup node).getD 0

def add (node : Nat) (amount : Int) : Tally := t.insert node (t.get node + amount)

theorem get_add (node amount n) : (t.add node amount).get n = t.get n + if n = node then amount else 0 := by
  unfold get add
  rw [KeyMap.lookup_insert_eq]
  split
  · subst n
    rfl
  · simp

theorem get_erase (node n : Nat) : Tally.get (t.erase node) n = if n = node then 0 else t.get n := by
  unfold get
  rw [KeyMap.lookup_erase_eq]
  split <;> rfl

end Tally

structure HistogramEntry where
  timestamp : Int
  node : Nat
  leafNode : Nat
  deriving DecidableEq

structure SlidingWindowHistogram where
  windowDuration : Int
  histogram : Tally := ∅
  nodeToCount : Tally := ∅
  hitTokens : Tally := ∅
  promptTokens : Tally := ∅
  decodingSize : Tally := ∅
  timestamps : List HistogramEntry := []
  currentDecodeLengthsPerPod : KeyMap String Int := ∅

def hits (leaf : TreeNode) : Int := leaf.contextLength - leaf.numTokens

namespace SlidingWindowHistogram

variable (cache : LPRadixCache) (h : SlidingWindowHistogram)

def update (timestamp : Int) (node leafNode : Nat) (podKey : String)
    (decodingLength : Int) : SlidingWindowHistogram :=
  let leaf := cache.nodes leafNode
  { h with
    timestamps := h.timestamps ++ [⟨timestamp, node, leafNode⟩]
    histogram := h.histogram.add node leaf.contextLength
    nodeToCount := h.nodeToCount.add node 1
    decodingSize := h.decodingSize.insert node decodingLength
    hitTokens := h.hitTokens.add node (hits leaf)
    promptTokens := h.promptTokens.add node leaf.contextLength
    currentDecodeLengthsPerPod := h.currentDecodeLengthsPerPod.insert podKey
      ((h.currentDecodeLengthsPerPod.lookup podKey).getD 0 + decodingLength) }

def deleteNode (node : Nat) : SlidingWindowHistogram :=
  { h with
    histogram := h.histogram.erase node
    nodeToCount := h.nodeToCount.erase node
    hitTokens := h.hitTokens.erase node
    promptTokens := h.promptTokens.erase node
    decodingSize := h.decodingSize.erase node }

def removeEvictedNodes (nodes : List Nat) : SlidingWindowHistogram :=
  nodes.dedup.foldl deleteNode { h with timestamps := h.timestamps.filter fun entry => entry.node ∉ nodes }

def removeEntryLocked (entry : HistogramEntry) : SlidingWindowHistogram :=
  let leaf := cache.nodes entry.leafNode
  let h := { h with
    histogram := h.histogram.add entry.node (-leaf.contextLength)
    nodeToCount := h.nodeToCount.add entry.node (-1)
    hitTokens := h.hitTokens.add entry.node (-hits leaf)
    promptTokens := h.promptTokens.add entry.node (-leaf.contextLength) }
  -- The node goes when its tokens are used up, not when its entries are.
  if h.histogram.get entry.node ≤ 0 then h.deleteNode entry.node else h

def keepEntries (keep : HistogramEntry → Bool) (h : SlidingWindowHistogram) : SlidingWindowHistogram :=
  { (h.timestamps.filter fun entry => !keep entry).foldl (removeEntryLocked cache) h with
    timestamps := h.timestamps.filter keep }

def removeOldEntries (currentTime : Int) : SlidingWindowHistogram :=
  h.keepEntries cache fun entry => currentTime - h.windowDuration < entry.timestamp

/-- As in `getPrefillCost`. -/
def missRate (node : Nat) : ℚ :=
  if 0 < h.promptTokens.get node then 1 - h.hitTokens.get node / h.promptTokens.get node else 1

end SlidingWindowHistogram

structure Router where
  cache : LPRadixCache
  histogram : SlidingWindowHistogram
  numPods : Nat := 0

namespace Router

variable (r : Router)

def postRouteUpdate (call : LPRadixCache.AddCall) (time decodeLen : Int) : Router :=
  let added := r.cache.addPrefix call.now call.tokens call.model call.podName
  { r with
    cache := added.cache
    histogram := r.histogram.update added.cache time added.node added.node call.podName decodeLen }

def evict (order : LPRadixCache.MapOrder) (time : Int) : Router :=
  let evicted := r.cache.evict order time
  { r with
    cache := evicted.1
    histogram := if evicted.2 = [] then r.histogram else r.histogram.removeEvictedNodes evicted.2 }

def hasPod (node : TreeNode) (p : String → Bool) : Bool := node.modelToPods.entries.any fun pods => pods.2.keys.any p

def updatePodSet (readyPods : List String) : Router :=
  let podsChanged := r.cache.allNodes.any fun id => hasPod (r.cache.nodes id) fun podName => podName ∉ readyPods
  let cache := r.cache.removePods readyPods
  if podsChanged ∨ readyPods.dedup.length ≠ r.numPods then
    { cache
      numPods := readyPods.dedup.length
      histogram := SlidingWindowHistogram.keepEntries cache
        (fun entry => hasPod (cache.nodes entry.node) fun podName => podName ∈ readyPods)
        { r.histogram with
          currentDecodeLengthsPerPod := r.histogram.currentDecodeLengthsPerPod.filterMap fun podKey decodeLength =>
            if podKey ∈ readyPods then some decodeLength else none } }
  else { r with cache }

inductive Op where
  | postRouteUpdate (call : LPRadixCache.AddCall) (time decodeLen : Int)
  | addPrefix (call : LPRadixCache.AddCall)
  | evict (time : Int) (nodes : LPRadixCache.Shuffle) (children : Nat → Nat → LPRadixCache.Shuffle)
  | updatePodSet (readyPods : List String)
  | removeOldEntries (currentTime : Int)

def step : Op → Router
  | .postRouteUpdate call time decodeLen => r.postRouteUpdate call time decodeLen
  | .addPrefix call => { r with cache := r.cache.addCall call }
  | .evict time nodes children => r.evict (r.cache.order nodes children) time
  | .updatePodSet readyPods => r.updatePodSet readyPods
  | .removeOldEntries currentTime => { r with histogram := r.histogram.removeOldEntries r.cache currentTime }

def new (now : Nat → Int) (windowDuration : Int) : Router := { cache := .new now, histogram := { windowDuration } }

end Router

/-! ## What the window adds up -/

open List

structure Contribution where
  timestamp : Int
  node : Nat
  context : Int
  hit : Int

def Contribution.entry (c : Contribution) : HistogramEntry := ⟨c.timestamp, c.node, c.node⟩

/-! ## Sums -/

def total (f : Contribution → Int) (window : List Contribution) (node : Nat) : Int :=
  (window.map fun c => if c.node = node then f c else 0).sum

variable {f : Contribution → Int} {window window' : List Contribution} {c : Contribution} {node : Nat}

@[simp]
theorem total_nil : total f [] node = 0 := rfl

@[simp]
theorem total_cons : total f (c :: window) node = (if c.node = node then f c else 0) + total f window node := by
  unfold total
  rw [map_cons, sum_cons]

@[simp]
theorem total_append : total f (window ++ window') node = total f window node + total f window' node := by
  unfold total
  rw [map_append, sum_append]

theorem total_perm (hpr : window.Perm window') : total f window node = total f window' node :=
  (hpr.map _).sum_eq

theorem total_filter_node (p : Nat → Bool) :
    total f (window.filter fun c => p c.node) node = if p node then total f window node else 0 := by
  induction window with
  | nil => simp
  | cons c window ih =>
    by_cases hc : c.node = node
    · cases hp : p node <;> simp [hc, hp, ih]
    · cases hp : p c.node <;> simp [hc, hp, ih]

theorem total_mono {g : Contribution → Int} (hle : ∀ c ∈ window, f c ≤ g c) : total f window node ≤ total g window node := by
  refine sum_le_sum fun c hc => ?_
  split
  · exact hle c hc
  · rfl

theorem total_nonneg (hpos : ∀ c ∈ window, 0 ≤ f c) : 0 ≤ total f window node := by
  apply sum_nonneg
  simp only [mem_map]
  rintro _ ⟨c, hc, rfl⟩
  split
  · exact hpos c hc
  · rfl

theorem total_one : total (fun _ => 1) window node = (window.filter fun c => c.node = node).length := by
  induction window with
  | nil => rfl
  | cons c window ih =>
    rw [total_cons, ih, filter_cons]
    by_cases hc : c.node = node
    · simp only [hc, if_pos, decide_true, length_cons]
      omega
    · simp [hc]

theorem total_eq_zero {g : Contribution → Int} (hpos : ∀ c ∈ window, 0 < f c) (hzr : total f window node ≤ 0) :
    total g window node = 0 := by
  induction window with
  | nil => rfl
  | cons c window ih =>
    obtain ⟨hc, hrs⟩ := forall_mem_cons.1 hpos
    have hnn : 0 ≤ total f window node := total_nonneg fun c hc => (hrs c hc).le
    rw [total_cons] at hzr
    have hne : c.node ≠ node := by
      omega
    rw [if_neg hne, zero_add] at hzr
    rw [total_cons, if_neg hne, ih hrs hzr, zero_add]

/-! ## One entry -/

structure Sums (exact : Prop) (h : SlidingWindowHistogram) (window : List Contribution) : Prop where
  count : ∀ n, h.nodeToCount.get n = total (fun _ => 1) window n
  histogram : ∀ n, h.histogram.get n = total Contribution.context window n
  prompt : ∀ n, h.promptTokens.get n = total Contribution.context window n
  hit : exact → ∀ n, h.hitTokens.get n = total Contribution.hit window n

structure Fits (exact : Prop) (cache : LPRadixCache) (c : Contribution) : Prop where
  context : ((cache.nodes c.node).contextLength : Int) = c.context
  pos : 0 < c.context
  hit : exact → hits (cache.nodes c.node) = c.hit

variable {exact : Prop} {h h' : SlidingWindowHistogram} {cache : LPRadixCache}

theorem Sums.perm (hsm : Sums exact h window) (hpr : window.Perm window') : Sums exact h window' where
  count n := (hsm.count n).trans (total_perm hpr)
  histogram n := (hsm.histogram n).trans (total_perm hpr)
  prompt n := (hsm.prompt n).trans (total_perm hpr)
  hit hex n := (hsm.hit hex n).trans (total_perm hpr)

theorem Sums.deleteNode (hsm : Sums exact h window) (hnn : ∀ f, total f window node = 0) :
    Sums exact (h.deleteNode node) window := by
  have hget : ∀ (t : Tally) f n, t.get n = total f window n → Tally.get (t.erase node) n = total f window n := by
    intro t f n ht
    rw [Tally.get_erase]
    split
    · subst n
      rw [hnn]
    · exact ht
  exact ⟨fun n => hget _ _ n (hsm.count n), fun n => hget _ _ n (hsm.histogram n),
    fun n => hget _ _ n (hsm.prompt n), fun hex n => hget _ _ n (hsm.hit hex n)⟩

open Contribution SlidingWindowHistogram

theorem Sums.removeEntryLocked (hsm : Sums exact h (c :: window)) (hft : Fits exact cache c)
    (hpos : ∀ c ∈ window, 0 < c.context) : Sums exact (h.removeEntryLocked cache c.entry) window := by
  have hget : ∀ (t : Tally) f amount n, t.get n = total f (c :: window) n → amount = f c →
      (t.add c.node (-amount)).get n = total f window n := by
    intro t f amount n ht ham
    rw [Tally.get_add, ht, total_cons]
    omega
  have hsub : Sums exact { h with
        histogram := h.histogram.add c.node _
        nodeToCount := h.nodeToCount.add c.node (-1)
        hitTokens := h.hitTokens.add c.node (-hits (cache.nodes c.node))
        promptTokens := h.promptTokens.add c.node _ } window :=
    ⟨fun n => hget _ _ _ n (hsm.count n) rfl, fun n => hget _ _ _ n (hsm.histogram n) hft.context,
      fun n => hget _ _ _ n (hsm.prompt n) hft.context,
      fun hex n => hget _ _ _ n (hsm.hit hex n) (hft.hit hex)⟩
  unfold SlidingWindowHistogram.removeEntryLocked entry
  dsimp only
  split
  · rename_i hzr
    rw [hsub.histogram] at hzr
    exact hsub.deleteNode fun f => total_eq_zero hpos hzr
  · exact hsub

theorem Sums.foldl (hsm : Sums exact h (window' ++ window)) (hft : ∀ c ∈ window', Fits exact cache c)
    (hpos : ∀ c ∈ window, 0 < c.context) :
    Sums exact ((window'.map Contribution.entry).foldl (SlidingWindowHistogram.removeEntryLocked cache) h) window := by
  induction window' generalizing h with
  | nil => exact hsm
  | cons c window' ih =>
    obtain ⟨hc, hrs⟩ := forall_mem_cons.1 hft
    refine ih (hsm.removeEntryLocked hc fun d hd => ?_) hrs
    rcases mem_append.1 hd with hd | hd
    · exact (hrs d hd).pos
    · exact hpos d hd

/-- The entries are those of the contributions, and the maps their sums. -/
structure Records (exact : Prop) (cache : LPRadixCache) (h : SlidingWindowHistogram) (window : List Contribution) :
    Prop where
  entries : h.timestamps = window.map Contribution.entry
  sums : Sums exact h window
  fits : ∀ c ∈ window, Fits exact cache c

section

variable (hrc : Records exact cache h window)
include hrc

theorem Records.keepEntries (keep : HistogramEntry → Bool) :
    Records exact cache (h.keepEntries cache keep) (window.filter fun c => keep c.entry) := by
  have hkp : ∀ (p : HistogramEntry → Bool), h.timestamps.filter p = (window.filter fun c => p c.entry).map entry := by
    intro p
    rw [hrc.entries, filter_map]
    rfl
  have hsp := hrc.sums.perm (filter_append_perm (fun c => !keep c.entry) window).symm
  simp only [Bool.not_not] at hsp
  have hft : ∀ {p}, ∀ c ∈ window.filter p, Fits exact cache c :=
    fun c hc => hrc.fits c (mem_of_mem_filter hc)
  have hdn := hsp.foldl hft fun c hc => (hft c hc).pos
  refine ⟨hkp keep, ?_, hft⟩
  unfold SlidingWindowHistogram.keepEntries
  rw [hkp fun entry => !keep entry]
  exact ⟨hdn.count, hdn.histogram, hdn.prompt, hdn.hit⟩

omit hrc in
theorem get_foldl_deleteNode (nodes : List Nat) (h : SlidingWindowHistogram) (n : Nat) :
    let h' := nodes.foldl deleteNode h
    h'.timestamps = h.timestamps ∧
    (h'.nodeToCount.get n = if n ∈ nodes then 0 else h.nodeToCount.get n) ∧
    (h'.histogram.get n = if n ∈ nodes then 0 else h.histogram.get n) ∧
    (h'.promptTokens.get n = if n ∈ nodes then 0 else h.promptTokens.get n) ∧
    (h'.hitTokens.get n = if n ∈ nodes then 0 else h.hitTokens.get n) := by
  induction nodes generalizing h with
  | nil => simp
  | cons node nodes ih =>
    have hget : ∀ t : Tally, (if n ∈ nodes then 0 else Tally.get (t.erase node) n) =
        if n ∈ node :: nodes then 0 else t.get n := by
      intro t
      rw [Tally.get_erase]
      by_cases hn : n = node
      · simp [hn]
      · simp [hn]
    obtain ⟨htm, hcn, hhs, hpr, hhit⟩ := ih _
    refine ⟨htm, hcn.trans (hget _), hhs.trans (hget _), hpr.trans (hget _), hhit.trans (hget _)⟩

theorem Records.removeEvictedNodes (nodes : List Nat) {cache' : LPRadixCache}
    (hft : ∀ c ∈ window, c.node ∉ nodes → Fits exact cache' c) :
    Records exact cache' (h.removeEvictedNodes nodes) (window.filter fun c => decide (c.node ∉ nodes)) := by
  have hget := get_foldl_deleteNode nodes.dedup { h with timestamps := h.timestamps.filter fun e => e.node ∉ nodes }
  simp only [mem_dedup] at hget
  have htt : ∀ f n, total f (window.filter fun c => decide (c.node ∉ nodes)) n =
      if n ∈ nodes then 0 else total f window n := by
    intro f n
    rw [total_filter_node fun node => decide (node ∉ nodes)]
    by_cases hn : n ∈ nodes <;> simp [hn]
  refine ⟨?_, ⟨fun n => ?_, fun n => ?_, fun n => ?_, fun hex n => ?_⟩, fun c hc => ?_⟩
  · rw [SlidingWindowHistogram.removeEvictedNodes, (hget 0).1, hrc.entries, filter_map]
    rfl
  · rw [htt, ← hrc.sums.count]
    exact (hget n).2.1
  · rw [htt, ← hrc.sums.histogram]
    exact (hget n).2.2.1
  · rw [htt, ← hrc.sums.prompt]
    exact (hget n).2.2.2.1
  · rw [htt, ← hrc.sums.hit hex]
    exact (hget n).2.2.2.2
  · rw [mem_filter, decide_eq_true_eq] at hc
    exact hft c hc.1 hc.2

theorem Records.update (hft : Fits exact cache c) (podKey : String)
    (decodingLength : Int) (hhit : hits (cache.nodes c.node) = c.hit) :
    Records exact cache (h.update cache c.timestamp c.node c.node podKey decodingLength) (window ++ [c]) := by
  have hget : ∀ (t : Tally) f amount n, t.get n = total f window n → amount = f c →
      (t.add c.node amount).get n = total f (window ++ [c]) n := by
    intro t f amount n ht ham
    rw [Tally.get_add, ht, total_append, total_cons, total_nil, add_zero, ham]
    simp [eq_comm]
  refine ⟨?_, ⟨fun n => ?_, fun n => ?_, fun n => ?_, fun hex n => ?_⟩, ?_⟩
  · simp [SlidingWindowHistogram.update, hrc.entries, Contribution.entry]
  · exact hget _ _ _ n (hrc.sums.count n) rfl
  · exact hget _ _ _ n (hrc.sums.histogram n) hft.context
  · exact hget _ _ _ n (hrc.sums.prompt n) hft.context
  · exact hget _ _ _ n (hrc.sums.hit hex n) hhit
  · intro d hd
    rcases mem_append.1 hd with hd | hd
    · exact hrc.fits d hd
    · rw [mem_singleton.1 hd]
      exact hft

end

/-! ## Runs -/

namespace Router

/-- The contributions after an operation. One is recorded, or some go with their entries. -/
def windowStep (r : Router) (window : List Contribution) : Op → List Contribution
  | .postRouteUpdate call time _ =>
    let added := r.cache.addPrefix call.now call.tokens call.model call.podName
    let leaf := added.cache.nodes added.node
    window ++ [⟨time, added.node, leaf.contextLength, hits leaf⟩]
  | op => window.filter fun c => c.entry ∈ (r.step op).histogram.timestamps

def play (r : Router) (ops : List Op) : Router × List Contribution :=
  ops.foldl (fun p op => (p.1.step op, p.1.windowStep p.2 op)) (r, [])

def Op.HasTokens : Op → Prop
  | .postRouteUpdate call _ _ => call.tokens ≠ []
  | _ => True

def Unsplit (r : Router) : Op → Prop
  | .postRouteUpdate call _ _ | .addPrefix call => ∀ entry ∈ r.histogram.timestamps,
      ((r.cache.addCall call).nodes entry.node).numTokens = (r.cache.nodes entry.node).numTokens
  | _ => True

def NeverSplit : Router → List Op → Prop
  | _, [] => True
  | r, op :: ops => r.Unsplit op ∧ NeverSplit (r.step op) ops

instance (r : Router) (op : Op) : Decidable (r.Unsplit op) := by
  cases op <;> unfold Unsplit <;> infer_instance

instance decidableNeverSplit : (r : Router) → (ops : List Op) → Decidable (r.NeverSplit ops)
  | _, [] => isTrue trivial
  | r, op :: ops =>
    have := decidableNeverSplit (r.step op) ops
    inferInstanceAs (Decidable (_ ∧ _))

structure Inv (exact : Prop) (r : Router) (window : List Contribution) (path : Nat → List Int) : Prop where
  ok : r.cache.Ok path
  live : ∀ c ∈ window, c.node ∈ r.cache.allNodes
  records : Records exact r.cache r.histogram window
  bounds : ∀ c ∈ window, 0 ≤ c.hit ∧ c.hit ≤ c.context

variable {r : Router} {path : Nat → List Int}

theorem Inv.new (now : Nat → Int) (windowDuration : Int) : Inv exact (new now windowDuration) [] fun _ => [] :=
  ⟨.new now, by simp, ⟨rfl, ⟨fun _ => rfl, fun _ => rfl, fun _ => rfl, fun _ _ => rfl⟩, by simp⟩, by simp⟩

theorem windowStep_filter {h' : SlidingWindowHistogram} {p : Contribution → Bool}
    (hen : h'.timestamps = (window.filter p).map entry) (hp : ∀ c d, c.entry = d.entry → p c = p d) :
    (window.filter fun c => decide (c.entry ∈ h'.timestamps)) = window.filter p := by
  refine filter_congr fun c hc => ?_
  rw [hen, Bool.eq_iff_iff, decide_eq_true_eq, mem_map]
  constructor
  · rintro ⟨d, hd, heq⟩
    rw [← hp d c heq]
    exact (mem_filter.1 hd).2
  · intro hpc
    exact ⟨c, mem_filter.2 ⟨hc, hpc⟩, rfl⟩

theorem Inv.fits_addPrefix (h : Inv exact r window path) (call : LPRadixCache.AddCall) {path' : Nat → List Int}
    (hok : (r.cache.addCall call).Ok path') (hkp : ∀ n ∈ r.cache.allNodes, n ∈ (r.cache.addCall call).allNodes ∧
      path' n = path n) (hun : exact → r.Unsplit (.addPrefix call)) :
    ∀ c ∈ window, Fits exact (r.cache.addCall call) c := by
  intro c hc
  have hft := h.records.fits c hc
  have hlv := h.live c hc
  have hcn : ((r.cache.addCall call).nodes c.node).contextLength = (r.cache.nodes c.node).contextLength := by
    rw [hok.shape.context (hkp _ hlv).1, (hkp _ hlv).2, h.ok.shape.context hlv]
  refine ⟨by rw [hcn, hft.context], hft.pos, fun hex => ?_⟩
  have hen : c.entry ∈ r.histogram.timestamps := by
    rw [h.records.entries]
    exact mem_map_of_mem hc
  have hvl : ((r.cache.addCall call).nodes c.node).numTokens = (r.cache.nodes c.node).numTokens :=
    hun hex c.entry hen
  rw [← hft.hit hex, hits, hits, hcn, hvl]

theorem Inv.addPrefix (h : Inv exact r window path) (call : LPRadixCache.AddCall)
    (hun : exact → r.Unsplit (.addPrefix call)) :
    ∃ path', Inv exact (r.step (.addPrefix call)) (r.windowStep window (.addPrefix call)) path' := by
  obtain ⟨path', hok, -, -, hkp⟩ := h.ok.addPrefix call
  have hft := h.fits_addPrefix call hok hkp hun
  have hwn : r.windowStep window (.addPrefix call) = window := by
    refine filter_eq_self.2 fun c hc => ?_
    rw [decide_eq_true_eq]
    change c.entry ∈ r.histogram.timestamps
    rw [h.records.entries]
    exact mem_map_of_mem hc
  rw [hwn]
  exact ⟨path', hok, fun c hc => (hkp _ (h.live c hc)).1, ⟨h.records.entries, h.records.sums, hft⟩, h.bounds⟩

open TreeNode

theorem Inv.postRouteUpdate (h : Inv exact r window path) (call : LPRadixCache.AddCall) (time dlen : Int)
    (htk : call.tokens ≠ []) (hun : exact → r.Unsplit (.postRouteUpdate call time dlen)) :
    ∃ path', Inv exact (r.step (.postRouteUpdate call time dlen))
      (r.windowStep window (.postRouteUpdate call time dlen)) path' := by
  obtain ⟨path', hok, hnd, hpt, hkp⟩ := h.ok.addPrefix call
  have hft := h.fits_addPrefix call hok hkp hun
  have hrc : Records exact (r.cache.addCall call) r.histogram window := ⟨h.records.entries, h.records.sums, hft⟩
  simp only [LPRadixCache.addCall] at hrc
  simp only [step, Router.postRouteUpdate, windowStep]
  generalize r.cache.addPrefix call.now call.tokens call.model call.podName = added at hok hnd hpt hkp hrc
  have hcn := hok.shape.context hnd
  have hpos : 0 < call.tokens.length := length_pos_iff.2 htk
  have hrt : added.node ≠ added.cache.rootNode := by
    intro heq
    rw [heq, hok.shape.root_path] at hpt
    exact htk hpt.symm
  have hln : (added.cache.nodes added.node).numTokens ≤ (path' added.node).length := by
    obtain ⟨p, hp, token, hc⟩ := hok.shape.attached hnd hrt
    rw [numTokens, hok.shape.value hnd, (hok.shape.child hp hc).2.2.2, length_append]
    omega
  refine ⟨path', hok, ?_, ?_, ?_⟩
  · intro c hc
    rcases mem_append.1 hc with hc | hc
    · exact (hkp _ (h.live c hc)).1
    · rw [mem_singleton.1 hc]
      exact hnd
  · refine hrc.update (c := ⟨time, added.node, _, _⟩) ⟨rfl, ?_, fun _ => rfl⟩ call.podName dlen rfl
    dsimp only
    rw [hcn, hpt]
    omega
  · intro c hc
    rcases mem_append.1 hc with hc | hc
    · exact h.bounds c hc
    rw [mem_singleton.1 hc]
    unfold hits
    dsimp only
    omega

theorem Inv.of_filter (h : Inv exact r window path) {op : Op} {p : Contribution → Bool}
    (hp : ∀ c d, c.entry = d.entry → p c = p d) (hok : (r.step op).cache.Ok path)
    (hlv : ∀ c ∈ window, p c = true → c.node ∈ (r.step op).cache.allNodes)
    (hrc : Records exact (r.step op).cache (r.step op).histogram (window.filter p)) :
    Inv exact (r.step op) (window.filter fun c => decide (c.entry ∈ (r.step op).histogram.timestamps)) path := by
  rw [windowStep_filter hrc.entries hp]
  refine ⟨hok, fun c hc => ?_, hrc, fun c hc => h.bounds c (mem_of_mem_filter hc)⟩
  exact hlv c (mem_of_mem_filter hc) (mem_filter.1 hc).2

theorem Inv.evict (h : Inv exact r window path) (time : Int) (nodes : LPRadixCache.Shuffle)
    (children : Nat → Nat → LPRadixCache.Shuffle) :
    Inv exact (r.step (.evict time nodes children)) (r.windowStep window (.evict time nodes children)) path := by
  obtain ⟨hok, hall⟩ := h.ok.evict time nodes children
  have hvl : ∀ n ∉ (r.cache.evict (r.cache.order nodes children) time).2,
      ((r.cache.evict (r.cache.order nodes children) time).1.nodes n).value = (r.cache.nodes n).value :=
    fun n hn => LPRadixCache.value_evictBatch hn
  refine h.of_filter (p := fun c => decide (c.node ∉ (r.cache.evict (r.cache.order nodes children) time).2)) ?_ hok ?_ ?_
  · intro c d heq
    have hnd : c.node = d.node := congrArg HistogramEntry.node heq
    simp [hnd]
  · intro c hc hkp
    exact (hall c.node).2 ⟨h.live c hc, of_decide_eq_true hkp⟩
  simp only [step, Router.evict]
  generalize r.cache.evict (r.cache.order nodes children) time = evicted at hok hall hvl
  have hft : ∀ c ∈ window, c.node ∉ evicted.2 → Fits exact evicted.1 c := by
    intro c hc hnot
    have hft := h.records.fits c hc
    have hcn : (evicted.1.nodes c.node).contextLength = (r.cache.nodes c.node).contextLength := by
      rw [hok.shape.context ((hall c.node).2 ⟨h.live c hc, hnot⟩), h.ok.shape.context (h.live c hc)]
    refine ⟨by rw [hcn, hft.context], hft.pos, fun hex => ?_⟩
    rw [← hft.hit hex, hits, hits, hcn, numTokens, numTokens, hvl _ hnot]
  split
  · rename_i hnil
    simp only [hnil, not_mem_nil, not_false_eq_true, decide_true, filter_true] at hft ⊢
    exact ⟨h.records.entries, h.records.sums, fun c hc => hft c hc trivial⟩
  · exact h.records.removeEvictedNodes evicted.2 hft

theorem Inv.updatePodSet (h : Inv exact r window path) (readyPods : List String) :
    Inv exact (r.step (.updatePodSet readyPods)) (r.windowStep window (.updatePodSet readyPods)) path := by
  have hok := h.ok.removePods readyPods
  have hsa : LPRadixCache.Restricted readyPods r.cache (r.cache.removePods readyPods) r.cache.allNodes :=
    LPRadixCache.restricted_foldl readyPods r.cache.allNodes r.cache
  have hft : ∀ c ∈ window, Fits exact (r.cache.removePods readyPods) c := by
    intro c hc
    have hft := h.records.fits c hc
    have hln := hsa.links c.node
    refine ⟨by rw [hln.contextLength, hft.context], hft.pos, fun hex => ?_⟩
    rw [← hft.hit hex, hits, hits, numTokens, numTokens, hln.contextLength, hln.value]
  have hcc : (r.step (.updatePodSet readyPods)).cache = r.cache.removePods readyPods := by
    simp only [step, Router.updatePodSet]
    split <;> rfl
  have hlv : ∀ c ∈ window, c.node ∈ (r.step (.updatePodSet readyPods)).cache.allNodes := by
    intro c hc
    rw [hcc, hsa.allNodes]
    exact h.live c hc
  by_cases hch : (r.cache.allNodes.any fun id => hasPod (r.cache.nodes id) fun podName => podName ∉ readyPods) = true ∨
      readyPods.dedup.length ≠ r.numPods
  · refine h.of_filter (p := fun c => hasPod ((r.cache.removePods readyPods).nodes c.entry.node) fun podName =>
      podName ∈ readyPods) ?_ (hcc ▸ hok) (fun c hc _ => hlv c hc) ?_
    · intro c d heq
      rw [heq]
    simp only [step, Router.updatePodSet, if_pos hch]
    apply Records.keepEntries
    have hsm := h.records.sums
    exact ⟨h.records.entries, ⟨hsm.count, hsm.histogram, hsm.prompt, hsm.hit⟩, hft⟩
  · refine h.of_filter (p := fun _ => true) (fun _ _ _ => rfl) (hcc ▸ hok) (fun c hc _ => hlv c hc) ?_
    simp only [step, Router.updatePodSet, if_neg hch, filter_true]
    exact ⟨h.records.entries, h.records.sums, hft⟩

theorem Inv.removeOldEntries (h : Inv exact r window path) (now : Int) :
    Inv exact (r.step (.removeOldEntries now)) (r.windowStep window (.removeOldEntries now)) path := by
  refine h.of_filter (p := fun c => decide _) ?_ h.ok
    (fun c hc _ => h.live c hc) (h.records.keepEntries _)
  intro c d heq
  rw [heq]

theorem Inv.step (h : Inv exact r window path) {op : Op} (htk : op.HasTokens) (hun : exact → r.Unsplit op) :
    ∃ path', Inv exact (r.step op) (r.windowStep window op) path' := by
  cases op with
  | postRouteUpdate call time dlen => exact h.postRouteUpdate call time dlen htk hun
  | addPrefix call => exact h.addPrefix call hun
  | evict time nodes children => exact ⟨path, h.evict time nodes children⟩
  | updatePodSet readyPods => exact ⟨path, h.updatePodSet readyPods⟩
  | removeOldEntries now => exact ⟨path, h.removeOldEntries now⟩

theorem Inv.run (h : Inv exact r window path) {ops : List Op} (htk : ∀ op ∈ ops, op.HasTokens)
    (hun : exact → r.NeverSplit ops) :
    let q := ops.foldl (fun p op => (p.1.step op, p.1.windowStep p.2 op)) (r, window)
    ∃ path', Inv exact q.1 q.2 path' := by
  induction ops generalizing r window path with
  | nil => exact ⟨path, h⟩
  | cons op ops ih =>
    obtain ⟨htn, hrs⟩ := forall_mem_cons.1 htk
    obtain ⟨path', h'⟩ := h.step htn fun hex => (hun hex).1
    exact ih h' hrs fun hex => (hun hex).2

theorem Inv.missRate (h : Inv exact r window path) (hex : exact) (n : Nat) :
    0 ≤ r.histogram.hitTokens.get n ∧ r.histogram.hitTokens.get n ≤ r.histogram.promptTokens.get n ∧
      0 ≤ r.histogram.missRate n ∧ r.histogram.missRate n ≤ 1 := by
  have hnn : 0 ≤ r.histogram.hitTokens.get n := by
    rw [h.records.sums.hit hex]
    exact total_nonneg fun c hc => (h.bounds c hc).1
  have hle : r.histogram.hitTokens.get n ≤ r.histogram.promptTokens.get n := by
    rw [h.records.sums.hit hex, h.records.sums.prompt]
    exact total_mono fun c hc => (h.bounds c hc).2
  refine ⟨hnn, hle, ?_⟩
  unfold SlidingWindowHistogram.missRate
  generalize r.histogram.hitTokens.get n = hit at hnn hle
  generalize r.histogram.promptTokens.get n = prompt at hle
  split
  · rename_i hpos
    have hpr : (0 : ℚ) < prompt := by exact_mod_cast hpos
    have hrt : (hit : ℚ) / prompt ≤ 1 := by
      rw [div_le_one hpr]
      exact_mod_cast hle
    have hrt' : 0 ≤ (hit : ℚ) / prompt := div_nonneg (by exact_mod_cast hnn) hpr.le
    exact ⟨by linarith, by linarith⟩
  · exact ⟨zero_le_one, le_rfl⟩

/-- If prompts have tokens, counts and tokens are conserved. -/
theorem window_conserved (now : Nat → Int) (windowDuration : Int) (ops : List Op)
    (htokens : ∀ op ∈ ops, op.HasTokens) :
    let r := (play (new now windowDuration) ops).1
    let window := (play (new now windowDuration) ops).2
    r.histogram.timestamps = window.map Contribution.entry ∧
    (∀ n, r.histogram.nodeToCount.get n = (window.filter fun c => c.node = n).length ∧
      r.histogram.histogram.get n = total Contribution.context window n ∧
      r.histogram.promptTokens.get n = total Contribution.context window n) ∧
    (NeverSplit (new now windowDuration) ops → ∀ n, r.histogram.hitTokens.get n = total Contribution.hit window n ∧
      0 ≤ r.histogram.hitTokens.get n ∧ r.histogram.hitTokens.get n ≤ r.histogram.promptTokens.get n ∧
      0 ≤ r.histogram.missRate n ∧ r.histogram.missRate n ≤ 1) := by
  have hnew : Inv (NeverSplit (new now windowDuration) ops) (new now windowDuration) [] _ := .new now windowDuration
  obtain ⟨path, h⟩ := hnew.run htokens id
  refine ⟨h.records.entries, fun n => ⟨?_, h.records.sums.histogram n, h.records.sums.prompt n⟩, fun hexact n => ?_⟩
  · rw [← total_one]
    exact h.records.sums.count n
  · exact ⟨h.records.sums.hit hexact n, h.missRate hexact n⟩

def promptOf (tokens : List Int) (time : Int) : Op := .postRouteUpdate ⟨fun _ => 0, tokens, "model", "default/pod"⟩ time 45

def asRead : LPRadixCache.Shuffle := ⟨id, fun _ => .refl _⟩

def wholeWindow : List Op :=
  [promptOf [1, 2, 3] 0, promptOf [1, 2, 3] 100, .addPrefix ⟨fun _ => 0, [1, 2, 3, 4], "model", ""⟩,
    .updatePodSet ["default/pod"], .evict 200 asRead fun _ _ => asRead, .removeOldEntries 150]

theorem window_conserved_whole : (∀ op ∈ wholeWindow, op.HasTokens) ∧ NeverSplit (new (fun _ => 0) 100) wholeWindow ∧
      (play (new (fun _ => 0) 100) wholeWindow).1.histogram.nodeToCount.get 1 = 1 ∧
      (play (new (fun _ => 0) 100) wholeWindow).1.histogram.missRate 1 ≤ 1 := by
  have htokens : ∀ op ∈ wholeWindow, op.HasTokens := by simp [wholeWindow, promptOf, Op.HasTokens]
  have hsplit : NeverSplit (new (fun _ => 0) 100) wholeWindow := by decide
  obtain ⟨-, hcounts, hhits⟩ := window_conserved (fun _ => 0) 100 wholeWindow htokens
  exact ⟨htokens, hsplit, (hcounts 1).1.trans (by decide), (hhits hsplit 1).2.2.2.2⟩

/-- The second prompt of a node is still in the window when the node has been split and the first one has expired. -/
def splitWindow : List Op :=
  [promptOf [1, 2, 3] 0, promptOf [1, 2, 3] 100, .addPrefix ⟨fun _ => 0, [1, 2, 9], "model", ""⟩, .removeOldEntries 150]

def emptyPrompts : List Op := [promptOf [] 0, promptOf [] 100, .removeOldEntries 150]

/-- The expired entry takes more hits with it than it brought, or takes the entry that is left. -/
theorem window_not_conserved : ((play (new (fun _ => 0) 100) splitWindow).1.histogram.hitTokens.get 1 = -2 ∧
      total Contribution.hit (play (new (fun _ => 0) 100) splitWindow).2 1 = 0 ∧
      1 < (play (new (fun _ => 0) 100) splitWindow).1.histogram.missRate 1) ∧
    (play (new (fun _ => 0) 100) emptyPrompts).1.histogram.nodeToCount.get 0 = 0 ∧
      (play (new (fun _ => 0) 100) emptyPrompts).1.histogram.timestamps = [⟨100, 0, 0⟩] := by
  decide +kernel

end Router

end Aibrix.Preble
