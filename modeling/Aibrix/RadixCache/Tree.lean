import Aibrix.RadixCache.PodTable
import Mathlib.Data.List.Infix

/-! # The radix tree of the prefix cache

`LPRadixCache` of `tree.go`. Nodes are cells of a heap, under the number that each gets when it is made. -/

namespace Aibrix.RadixCache

open Lib

structure TreeNode where
  children : KeyMap Int Nat := ∅
  parent : Option Nat := none
  key : List Int := []
  value : List Int := []
  lastAccess : Int := 0
  depth : Nat := 0
  contextLength : Nat := 0
  modelToPods : PodTable Int := ∅
  /-- The pods of the prefixes that end at the node. `modelToPods` also has those of every node below. -/
  directPods : PodTable Unit := ∅

def TreeNode.numTokens (n : TreeNode) : Nat := n.value.length

structure LPRadixCache where
  nodes : Nat → TreeNode
  rootNode : Nat
  allNodes : List Nat
  nextNodeID : Nat

namespace LPRadixCache

variable (now : Nat → Int) (s : LPRadixCache)

def modify (id : Nat) (f : TreeNode → TreeNode) : LPRadixCache :=
  { s with nodes := Function.update s.nodes id (f (s.nodes id)) }

def touch (id : Nat) : LPRadixCache := s.modify id fun n => { n with lastAccess := now id }

/-- The node is in the heap only. Its number is that of the next node. -/
def newTreeNode (parent : Option Nat) (key value : List Int) : LPRadixCache :=
  { s with
    nodes := Function.update s.nodes s.nextNodeID {
      parent, key, value
      lastAccess := now s.nextNodeID
      depth := parent.elim 0 fun p => (s.nodes p).depth + 1
      contextLength := parent.elim 0 fun p => (s.nodes p).contextLength + key.length }
    nextNodeID := s.nextNodeID + 1 }

def new : LPRadixCache :=
  { newTreeNode now ⟨fun _ => {}, 0, [], 0⟩ none [] [] with allNodes := [0] }

end LPRadixCache

def matchLen : List Int → List Int → Nat
  | a :: key, b :: seq => if a = b then matchLen key seq + 1 else 0
  | _, _ => 0

/-! ## Matching -/

structure Walk where
  touched : List Nat
  node : Nat
  matched : Nat

namespace LPRadixCache

variable (now : Nat → Int)

/-- The loop of `matchPrefixHelper`. Every round matches a token, so there are fewer rounds than tokens. -/
def walk (s : LPRadixCache) : Nat → Nat → List Int → Walk
  | 0, current, _ => ⟨[], current, 0⟩
  | _, current, [] => ⟨[], current, 0⟩
  | fuel + 1, current, first :: rest =>
    match (s.nodes current).children.lookup first with
    | none => ⟨[current], current, 0⟩
    | some child =>
      let prefixLen := matchLen (s.nodes child).key (first :: rest)
      if prefixLen = 0 then ⟨[current], current, 0⟩
      else if prefixLen = (s.nodes child).key.length ∧ prefixLen < (first :: rest).length then
        let w := walk s fuel child ((first :: rest).drop prefixLen)
        ⟨current :: w.touched, w.node, prefixLen + w.matched⟩
      else
        -- The tokens are all matched, or the match ends inside the key.
        ⟨[current, child], child, prefixLen⟩

variable (s : LPRadixCache)

def matchPrefixHelperReadOnly (node : Nat) (tokens : List Int) : Nat × List Int :=
  let w := s.walk tokens.length node tokens
  (w.node, tokens.take w.matched)

def matchPrefixHelper (node : Nat) (tokens : List Int) : LPRadixCache × Nat × List Int :=
  let w := s.walk tokens.length node tokens
  (w.touched.foldl (touch now) s, w.node, tokens.take w.matched)

structure Pod where
  podNamespace : String
  name : String
  deriving DecidableEq

def generatePodKey (pod : Pod) : String := pod.podNamespace ++ "/" ++ pod.name

/-- The matched tokens, the others, and the pods that have the matched ones. -/
def matchPrefix (inputTokens : List Int) (model : String) (pods : List Pod) :
    LPRadixCache × List Int × List Int × List Pod :=
  let r := s.matchPrefixHelper now s.rootNode inputTokens
  if r.2.2 = [] then (r.1, [], inputTokens, [])
  else
    (r.1, r.2.2, inputTokens.drop r.2.2.length,
      pods.filter fun pod => (r.1.nodes r.2.1).modelToPods.has model (generatePodKey pod))

/-! ## Adding -/

def splitNode (first : Int) (child splitLen : Nat) : LPRadixCache :=
  let c := s.nodes child
  let newNode := s.nextNodeID
  let s := s.newTreeNode now c.parent (c.key.take splitLen) (c.value.take splitLen)
  let s := match c.parent with
    | some p => s.modify p fun n => { n with children := n.children.insert first newNode }
    | none => s
  let s := s.modify child fun n =>
    { n with key := c.key.drop splitLen, value := c.value.drop splitLen, parent := some newNode }
  let s := s.modify newNode fun n =>
    { n with
      children := match c.key.drop splitLen with
        | [] => ∅
        | token :: _ => (∅ : KeyMap Int Nat).insert token child
      -- A prefix that ended at the child still ends there, so no pod is direct.
      modelToPods := c.modelToPods }
  { s with allNodes := s.allNodes ++ [newNode] }

def addLeaf (current : Nat) (first : Int) (key value : List Int) : LPRadixCache :=
  let newNode := s.nextNodeID
  let s := s.newTreeNode now (some current) key value
  let s := s.modify current fun n => { n with children := n.children.insert first newNode }
  { s with allNodes := s.allNodes ++ [newNode] }

/-- What an insertion leaves: the node that the tokens end at, and how they were matched. -/
structure Inserted where
  cache : LPRadixCache
  node : Nat
  matched : List Int := []
  unmatched : List Int := []

/-- The loop of `insertHelper`, from a node that the first `offset` tokens lead to. -/
def insertHelper (key value : List Int) : Nat → LPRadixCache → Nat → Nat → Inserted
  | 0, s, current, _ => { cache := s, node := current }
  | fuel + 1, s, current, offset =>
    let s := s.touch now current
    match key.drop offset with
    | [] => { cache := s, node := current }
    | first :: rest =>
      match (s.nodes current).children.lookup first with
      | none =>
        { cache := s.addLeaf now current first (first :: rest) (value.drop offset)
          node := s.nextNodeID, matched := key.take offset, unmatched := first :: rest }
      | some child =>
        let prefixLen := matchLen (s.nodes child).key (first :: rest)
        if prefixLen = (s.nodes child).key.length then
          if prefixLen = (first :: rest).length then { cache := s.touch now child, node := child, matched := key }
          else insertHelper key value fuel s child (offset + prefixLen)
        else
          let split := s.splitNode now first child prefixLen
          if offset + prefixLen = key.length then { cache := split, node := s.nextNodeID, matched := key }
          else insertHelper key value fuel split s.nextNodeID (offset + prefixLen)

def initAndUpdateModelPod (model podName : String) (s : LPRadixCache) (id : Nat) : LPRadixCache :=
  s.modify id fun n => { n with modelToPods := n.modelToPods.put model podName (now id) }

/-- The loop of `AddPrefix` over the nodes above. A node above has a shorter context. -/
def updateParents (model podName : String) : Nat → LPRadixCache → Nat → LPRadixCache
  | 0, s, _ => s
  | fuel + 1, s, current =>
    match (s.nodes current).parent with
    | none => s
    | some p => updateParents model podName fuel (s.initAndUpdateModelPod now model podName p) p

def addPod (model podName : String) (s : LPRadixCache) (node : Nat) : LPRadixCache :=
  let s := s.initAndUpdateModelPod now model podName node
  let s := s.modify node fun n => { n with directPods := n.directPods.put model podName () }
  s.updateParents now model podName (s.nodes node).contextLength node

def addPrefix (tokens : List Int) (model podName : String) : Inserted :=
  let r := insertHelper now tokens tokens (tokens.length + 1) s s.rootNode 0
  if podName = "" then r else { r with cache := r.cache.addPod now model podName r.node }

/-! ## Pod sets and eviction -/

def removePodsNotInSet (currentPodSet : List String) (n : TreeNode) : TreeNode :=
  { n with
    modelToPods := (n.modelToPods.restrict (fun _ => true) fun _ podName => podName ∈ currentPodSet).sweep fun _ => true
    directPods := (n.directPods.restrict (fun _ => true) fun _ podName => podName ∈ currentPodSet).sweep fun _ => true }

def removePods (currentPodSet : List String) : LPRadixCache :=
  s.allNodes.foldl (fun s id => s.modify id (removePodsNotInSet currentPodSet)) s

def childIDs (id : Nat) : List Nat := (s.nodes id).children.entries.map Sigma.snd

def childrenHavePodForModel (id : Nat) (model podName : String) : Bool :=
  (s.childIDs id).any fun child => (s.nodes child).modelToPods.has model podName

/-- The pods of a snapshot that a node above keeps. -/
def keeps (parent : Nat) (model podName : String) : Bool :=
  (s.nodes parent).directPods.has model podName || s.childrenHavePodForModel parent model podName

/-- The loop of `evictNode` over the nodes above. -/
def cleanParents : Nat → PodTable Int → Option Nat → LPRadixCache → LPRadixCache
  | 0, _, _, s => s
  | _, _, none, s => s
  | fuel + 1, snapshot, some parent, s =>
    let models := fun model => (snapshot.lookup model).isSome
    let s' := s.modify parent fun n =>
      { n with
        modelToPods := (n.modelToPods.restrict models fun model podName =>
          !snapshot.has model podName || s.keeps parent model podName).sweep models }
    let snapshot := snapshot.restrict (fun model => ((s.nodes parent).modelToPods.lookup model).isSome)
      fun model podName => !s.keeps parent model podName
    cleanParents fuel snapshot (s'.nodes parent).parent s'

def detach (id : Nat) : LPRadixCache :=
  match (s.nodes id).parent, (s.nodes id).key with
  | some p, first :: _ => s.modify p fun n => { n with children := n.children.erase first }
  | _, _ => s

def cleared (n : TreeNode) : TreeNode :=
  { n with parent := none, children := ∅, modelToPods := ∅, directPods := ∅, value := [], key := [] }

def cleanAbove (id : Nat) : LPRadixCache :=
  cleanParents ((s.nodes id).contextLength + 1) (s.nodes id).modelToPods (s.nodes id).parent (s.detach id)

def evictNode (id : Nat) : LPRadixCache :=
  if id = s.rootNode then s
  else { (s.cleanAbove id).modify id cleared with allNodes := (s.cleanAbove id).allNodes.erase id }

/-- The loop of `collectNodeAndChildren`. Children are pushed in the order in which their map is read. -/
def collectLoop (childOrder : Nat → List Nat) : Nat → List Nat → List Nat
  | 0, _ => []
  | _, [] => []
  | fuel + 1, current :: stack => current :: collectLoop childOrder fuel ((childOrder current).reverse ++ stack)

def collectNodeAndChildren (childOrder : Nat → List Nat) (s : LPRadixCache) (id : Nat) : List Nat :=
  if id = s.rootNode then [] else collectLoop childOrder s.allNodes.length [id]

def evictionDuration : Int := 5 * 60 * 1000000000

def doesExceededTTL (time : Int) (id : Nat) : Bool :=
  evictionDuration < time - (s.nodes id).lastAccess

/-- The order in which an eviction reads the maps: all nodes, and the children of a node below each start. -/
structure MapOrder where
  nodes : List Nat
  children : Nat → Nat → List Nat

def nodesToEvict (order : MapOrder) (s : LPRadixCache) (time : Int) : List Nat :=
  order.nodes.flatMap fun id =>
    if id ≠ s.rootNode ∧ s.doesExceededTTL time id = true then collectNodeAndChildren (order.children id) s id else []

def evict (order : MapOrder) (s : LPRadixCache) (time : Int) : LPRadixCache × List Nat :=
  ((s.nodesToEvict order time).foldl evictNode s, s.nodesToEvict order time)

/-! ## The nodes that hang together from the root, each with the tokens that lead to it -/

open List Option Relation.ReflTransGen

variable {s s' : LPRadixCache} {live : Nat → Prop} {path : Nat → List Int} {n m c x : Nat} {token : Int}
  {model podName : String}

def IsChild (s : LPRadixCache) (n c : Nat) : Prop := ∃ token, (s.nodes n).children.lookup token = some c

def Below (s : LPRadixCache) : Nat → Nat → Prop := Relation.ReflTransGen s.IsChild

def lists (s : LPRadixCache) (n : Nat) (model podName : String) : Bool := (s.nodes n).modelToPods.has model podName

def direct (s : LPRadixCache) (n : Nat) (model podName : String) : Bool := (s.nodes n).directPods.has model podName

structure Shape (s : LPRadixCache) (live : Nat → Prop) (path : Nat → List Int) : Prop where
  root_live : live s.rootNode
  root_path : path s.rootNode = []
  root_parent : (s.nodes s.rootNode).parent = none
  child : ∀ {n token c}, live n → (s.nodes n).children.lookup token = some c →
    live c ∧ (s.nodes c).parent = some n ∧ (s.nodes c).key.head? = some token ∧ path c = path n ++ (s.nodes c).key
  attached : ∀ {c}, live c → c ≠ s.rootNode → ∃ n, live n ∧ s.IsChild n c
  context : ∀ {n}, live n → (s.nodes n).contextLength = (path n).length
  value : ∀ {n}, live n → (s.nodes n).value = (s.nodes n).key

structure TreeNode.SameLinks (a b : TreeNode) : Prop where
  children : b.children = a.children
  parent : b.parent = a.parent
  key : b.key = a.key
  value : b.value = a.value
  contextLength : b.contextLength = a.contextLength
  depth : b.depth = a.depth

theorem TreeNode.SameLinks.refl (a : TreeNode) : TreeNode.SameLinks a a := ⟨rfl, rfl, rfl, rfl, rfl, rfl⟩

theorem TreeNode.SameLinks.trans {a b c : TreeNode} (h : TreeNode.SameLinks a b) (h' : TreeNode.SameLinks b c) :
    TreeNode.SameLinks a c :=
  ⟨h'.children.trans h.children, h'.parent.trans h.parent, h'.key.trans h.key, h'.value.trans h.value,
    h'.contextLength.trans h.contextLength, h'.depth.trans h.depth⟩

theorem nodes_modify (s : LPRadixCache) (id : Nat) (f : TreeNode → TreeNode) (n : Nat) :
    (s.modify id f).nodes n = if n = id then f (s.nodes n) else s.nodes n := by
  by_cases hn : n = id
  · subst hn
    rw [if_pos rfl]
    exact Function.update_self ..
  · rw [if_neg hn]
    exact Function.update_of_ne hn ..

theorem sameLinks_modify {id : Nat} {f : TreeNode → TreeNode} (hf : ∀ a, TreeNode.SameLinks a (f a)) (n : Nat) :
    TreeNode.SameLinks (s.nodes n) ((s.modify id f).nodes n) := by
  rw [nodes_modify]
  split
  · exact hf _
  · exact .refl _

theorem Shape.congr (h : s.Shape live path) (hrt : s'.rootNode = s.rootNode)
    (hsm : ∀ n, live n → TreeNode.SameLinks (s.nodes n) (s'.nodes n)) : s'.Shape live path where
  root_live := hrt ▸ h.root_live
  root_path := hrt ▸ h.root_path
  root_parent := by rw [hrt, (hsm _ h.root_live).parent, h.root_parent]
  child hn hc := by
    rw [(hsm _ hn).children] at hc
    obtain ⟨hlv, hpr, hhd, hpt⟩ := h.child hn hc
    rw [(hsm _ hlv).parent, (hsm _ hlv).key]
    exact ⟨hlv, hpr, hhd, hpt⟩
  attached hc hne := by
    obtain ⟨n, hn, token, hch⟩ := h.attached hc (hrt ▸ hne)
    exact ⟨n, hn, token, by rw [(hsm _ hn).children, hch]⟩
  context hn := by rw [(hsm _ hn).contextLength, h.context hn]
  value hn := by rw [(hsm _ hn).value, (hsm _ hn).key, h.value hn]

/-! ## Parents -/

section

variable (h : s.Shape live path)
include h

section

variable (hn : live n)
include hn

theorem Shape.path_child (hc : (s.nodes n).children.lookup token = some c) :
    ∃ rest, (s.nodes c).key = token :: rest ∧ path c = path n ++ token :: rest := by
  obtain ⟨-, -, hhd, hpt⟩ := h.child hn hc
  obtain ⟨rest, hkey⟩ := head?_eq_some_iff.1 hhd
  exact ⟨rest, hkey, by rw [hpt, hkey]⟩

section

variable (hc : s.IsChild n c)
include hc

theorem Shape.length_lt : (path n).length < (path c).length := by
  obtain ⟨token, hc⟩ := hc
  obtain ⟨rest, -, hpt⟩ := h.path_child hn hc
  rw [hpt, length_append, length_cons]
  omega

theorem Shape.prefix_child : path n <+: path c := by
  obtain ⟨token, hc⟩ := hc
  obtain ⟨rest, -, hpt⟩ := h.path_child hn hc
  rw [hpt]
  exact prefix_append _ _

theorem Shape.live_child : live c := by
  obtain ⟨token, hc⟩ := hc
  exact (h.child hn hc).1

theorem Shape.parent_child : (s.nodes c).parent = some n := by
  obtain ⟨token, hc⟩ := hc
  exact (h.child hn hc).2.1

end

theorem Shape.parent_unique (hm : live m) (hc : s.IsChild n c) (hc' : s.IsChild m c) : n = m := by
  have hpr := h.parent_child hn hc
  rw [h.parent_child hm hc'] at hpr
  exact (some.inj hpr).symm

theorem Shape.token_unique {token' : Int}
    (hc : (s.nodes n).children.lookup token = some c) (hc' : (s.nodes n).children.lookup token' = some c) :
    token = token' := by
  have hhd := (h.child hn hc).2.2.1
  rw [(h.child hn hc').2.2.1] at hhd
  exact (some.inj hhd).symm

theorem Shape.root_not_child : ¬ s.IsChild n s.rootNode := by
  intro hc
  have hpr := h.parent_child hn hc
  rw [h.root_parent] at hpr
  cases hpr

theorem Shape.eq_root_of_path (hpt : path n = []) : n = s.rootNode := by
  by_contra hne
  obtain ⟨m, hm, hc⟩ := h.attached hn hne
  have hlt := h.length_lt hm hc
  rw [hpt, length_nil] at hlt
  omega

end

end

/-! ## Nodes below -/

theorem Shape.of_below (h : s.Shape live path) (hn : live n) (hbl : s.Below n x) : live x ∧ path n <+: path x := by
  induction hbl with
  | refl => exact ⟨hn, prefix_rfl⟩
  | tail _ hc ih => exact ⟨h.live_child ih.1 hc, ih.2.trans (h.prefix_child ih.1 hc)⟩

theorem Shape.root_below (h : s.Shape live path) (hx : live x) : s.Below s.rootNode x := by
  induction hln : (path x).length using Nat.strong_induction_on generalizing x with
  | _ length ih =>
    by_cases hrt : x = s.rootNode
    · rw [hrt]
      exact .refl
    · obtain ⟨n, hn, hc⟩ := h.attached hx hrt
      have hlt := h.length_lt hn hc
      exact .tail (ih _ (hln ▸ hlt) hn rfl) hc

theorem token_eq_of_isPrefix {p rest rest' l : List Int} {a b : Int} (ha : p ++ a :: rest <+: l)
    (hb : p ++ b :: rest' <+: l) : a = b := by
  have hget : ∀ {a rest}, p ++ a :: rest <+: l → l[p.length]? = some a := by
    rintro a rest ⟨t, rfl⟩
    simp
  exact some.inj ((hget ha).symm.trans (hget hb))

section

variable (h : s.Shape live path)
include h

variable (hn : live n)
include hn

theorem Shape.below_of_isPrefix (hx : live x) (hpre : path n <+: path x) : s.Below n x := by
  induction hln : (path n).length using Nat.strong_induction_on generalizing n with
  | _ length ih =>
    by_cases hrt : n = s.rootNode
    · rw [hrt]
      exact h.root_below hx
    obtain ⟨m, hm, token, hc⟩ := h.attached hn hrt
    obtain ⟨rest, -, hpt⟩ := h.path_child hm hc
    have hlt := h.length_lt hm ⟨token, hc⟩
    have hbl : s.Below m x := ih _ (hln ▸ hlt) hm ((h.prefix_child hm ⟨token, hc⟩).trans hpre) rfl
    -- The way from the parent down to `x` starts with a child under the same token.
    rcases cases_head hbl with rfl | ⟨c, ⟨token', hc'⟩, hrs⟩
    · have := hpre.length_le
      omega
    obtain ⟨rest', -, hpt'⟩ := h.path_child hm hc'
    have hcx := (h.of_below (h.live_child hm ⟨token', hc'⟩) hrs).2
    rw [hpt] at hpre
    rw [hpt'] at hcx
    rw [token_eq_of_isPrefix hpre hcx, hc'] at hc
    exact some.inj hc ▸ hrs

theorem Shape.path_injective (hm : live m) (hpt : path n = path m) : n = m := by
  have hbl := h.below_of_isPrefix hn hm (hpt ▸ prefix_rfl)
  rcases cases_head hbl with heq | ⟨c, hc, hrs⟩
  · exact heq
  have hlt := h.length_lt hn hc
  have hle := (h.of_below (h.live_child hn hc) hrs).2.length_le
  rw [hpt] at hlt
  omega

theorem Shape.exists_child_of_isPrefix (hx : live x) (hne : n ≠ x)
    (hpre : path n <+: path x) : ∃ c, s.IsChild n c ∧ path c <+: path x := by
  rcases cases_head (h.below_of_isPrefix hn hx hpre) with heq | ⟨c, hc, hrs⟩
  · exact absurd heq hne
  · exact ⟨c, hc, (h.of_below (h.live_child hn hc) hrs).2⟩

theorem Shape.prefix_parent (hm : live m) (hc : s.IsChild m x) (hne : n ≠ x)
    (hpre : path n <+: path x) : path n <+: path m := by
  rcases cases_tail (h.below_of_isPrefix hn (h.live_child hm hc) hpre) with heq | ⟨m', hbl, hc'⟩
  · omega
  · have hm' := h.of_below hn hbl
    rw [h.parent_unique hm hm'.1 hc hc']
    exact hm'.2

end

/-! ## A tree grows by a leaf, or by a node between a parent and its child -/

open Function KeyMap

variable {s s' : LPRadixCache} {path path' : Nat → List Int} {live : Nat → Prop} {n c p x current : Nat}
  {tokens : List Int} {model podName : String} (now : Nat → Int)

/-! ## What holds between calls -/

/-- A node lists the pods of its own prefix, and those that one of its children lists. -/
def Balanced (s : LPRadixCache) (n : Nat) : Prop :=
  ∀ model podName, s.lists n model podName = true ↔
    s.direct n model podName = true ∨ ∃ c, s.IsChild n c ∧ s.lists c model podName = true

def PodsOk (s : LPRadixCache) (live : Nat → Prop) : Prop := ∀ n, live n → s.Balanced n

structure Ok (s : LPRadixCache) (path : Nat → List Int) : Prop where
  shape : s.Shape (· ∈ s.allNodes) path
  pods : s.PodsOk (· ∈ s.allNodes)
  nodup : s.allNodes.Nodup
  numbered : ∀ n ∈ s.allNodes, n < s.nextNodeID

theorem Ok.new : (LPRadixCache.new now).Ok fun _ => [] := by
  have hrt : ∀ {n}, n ∈ (LPRadixCache.new now).allNodes → n = 0 := fun hn => mem_singleton.1 hn
  have hnn : ∀ c, ¬ (LPRadixCache.new now).IsChild 0 c := by
    rintro c ⟨token, hc⟩
    simp [LPRadixCache.new, newTreeNode] at hc
  refine ⟨⟨mem_singleton_self 0, rfl, rfl, ?_, ?_, ?_, ?_⟩, ?_, nodup_singleton 0, ?_⟩
  · intro n token c hn hc
    rw [hrt hn] at hc
    exact absurd ⟨token, hc⟩ (hnn c)
  · intro c hc hne
    exact absurd (hrt hc) hne
  · intro n hn
    rw [hrt hn]
    rfl
  · intro n hn
    rw [hrt hn]
    rfl
  · intro n hn model podName
    rw [hrt hn]
    simp only [hnn, false_and, exists_false, or_false]
    exact Iff.rfl
  · intro n hn
    rw [hrt hn]
    exact Nat.one_pos

structure SameTree (s s' : LPRadixCache) : Prop where
  rootNode : s'.rootNode = s.rootNode
  allNodes : s'.allNodes = s.allNodes
  nextNodeID : s'.nextNodeID = s.nextNodeID
  links : ∀ n, TreeNode.SameLinks (s.nodes n) (s'.nodes n)
  modelToPods : ∀ n, (s'.nodes n).modelToPods = (s.nodes n).modelToPods
  directPods : ∀ n, (s'.nodes n).directPods = (s.nodes n).directPods

theorem SameTree.touch (s : LPRadixCache) (id : Nat) : s.SameTree (s.touch now id) := by
  refine ⟨rfl, rfl, rfl, sameLinks_modify fun _ => ⟨rfl, rfl, rfl, rfl, rfl, rfl⟩, fun n => ?_, fun n => ?_⟩ <;>
  · unfold LPRadixCache.touch
    rw [nodes_modify]
    split <;> rfl

theorem SameTree.isChild (h : s.SameTree s') : s'.IsChild n c ↔ s.IsChild n c := by
  unfold IsChild
  rw [(h.links n).children]

theorem Ok.sameTree (h : s.Ok path) (hsm : s.SameTree s') : s'.Ok path where
  shape := hsm.allNodes ▸ h.shape.congr hsm.rootNode fun n _ => hsm.links n
  pods := by
    intro n hn model podName
    rw [hsm.allNodes] at hn
    simp only [lists, direct, hsm.isChild, hsm.modelToPods, hsm.directPods]
    exact h.pods n hn model podName
  nodup := hsm.allNodes ▸ h.nodup
  numbered := by
    rw [hsm.allNodes, hsm.nextNodeID]
    exact h.numbered

/-- What an insertion of some tokens does to the tree: new nodes without pods of their own, on the way to the tokens. -/
structure Grows (tokens : List Int) (s : LPRadixCache) (path : Nat → List Int) (s' : LPRadixCache)
    (path' : Nat → List Int) : Prop where
  ok : s'.Ok path'
  rootNode : s'.rootNode = s.rootNode
  kept : ∀ n ∈ s.allNodes, n ∈ s'.allNodes ∧ path' n = path n ∧ (s'.nodes n).directPods = (s.nodes n).directPods
  added : ∀ n ∈ s'.allNodes, n ∉ s.allNodes → path' n <+: tokens ∧ (s'.nodes n).directPods = ∅

theorem Grows.sameTree (h : s.Ok path) (hsm : s.SameTree s') : Grows tokens s path s' path where
  ok := h.sameTree hsm
  rootNode := hsm.rootNode
  kept n hn := ⟨hsm.allNodes ▸ hn, rfl, hsm.directPods n⟩
  added _ hn hnot := absurd (hsm.allNodes ▸ hn) hnot

theorem Grows.refl (h : s.Ok path) : Grows tokens s path s path :=
  .sameTree h ⟨rfl, rfl, rfl, fun _ => .refl _, fun _ => rfl, fun _ => rfl⟩

theorem Grows.trans {s₁ s₂ s₃ : LPRadixCache} {path₁ path₂ path₃ : Nat → List Int}
    (h : Grows tokens s₁ path₁ s₂ path₂) (h' : Grows tokens s₂ path₂ s₃ path₃) : Grows tokens s₁ path₁ s₃ path₃ where
  ok := h'.ok
  rootNode := h'.rootNode.trans h.rootNode
  kept n hn := by
    obtain ⟨hn₂, hpt₂, hdr₂⟩ := h.kept n hn
    obtain ⟨hn₃, hpt₃, hdr₃⟩ := h'.kept n hn₂
    exact ⟨hn₃, hpt₃.trans hpt₂, hdr₃.trans hdr₂⟩
  added n hn hnot := by
    by_cases hn₂ : n ∈ s₂.allNodes
    · obtain ⟨hpre, hdr⟩ := h.added n hn₂ hnot
      obtain ⟨-, hpt₃, hdr₃⟩ := h'.kept n hn₂
      exact ⟨hpt₃ ▸ hpre, hdr₃.trans hdr⟩
    · exact h'.added n hn hn₂

theorem Ok.append (h : s.Ok path) (hall : s'.allNodes = s.allNodes ++ [s.nextNodeID])
    (hnx : s'.nextNodeID = s.nextNodeID + 1) : s'.allNodes.Nodup ∧ ∀ n ∈ s'.allNodes, n < s'.nextNodeID := by
  rw [hall, hnx]
  constructor
  · rw [nodup_append]
    refine ⟨h.nodup, nodup_singleton _, ?_⟩
    simpa using fun n hn => (h.numbered n hn).ne
  intro n hn
  rw [mem_append, mem_singleton] at hn
  obtain hn | rfl := hn
  · exact (h.numbered n hn).trans (Nat.lt_succ_self _)
  · omega

/-! ## A new leaf -/

structure HasLeaf (s : LPRadixCache) (current : Nat) (first : Int) (rest : List Int) (s' : LPRadixCache) : Prop where
  rootNode : s'.rootNode = s.rootNode
  allNodes : s'.allNodes = s.allNodes ++ [s.nextNodeID]
  nextNodeID : s'.nextNodeID = s.nextNodeID + 1
  leaf : ∃ lastAccess, s'.nodes s.nextNodeID =
    { parent := some current, key := first :: rest, value := first :: rest, lastAccess,
      depth := (s.nodes current).depth + 1, contextLength := (s.nodes current).contextLength + (first :: rest).length }
  same : ∀ {n}, n ≠ s.nextNodeID → s'.nodes n = { s.nodes n with children := (s'.nodes n).children }
  child : ∀ {n token c}, n ≠ s.nextNodeID → ((s'.nodes n).children.lookup token = some c ↔
    (s.nodes n).children.lookup token = some c ∨ n = current ∧ token = first ∧ c = s.nextNodeID)

variable {first : Int} {rest : List Int}

theorem hasLeaf_addLeaf (hne : current ≠ s.nextNodeID) (hnn : (s.nodes current).children.lookup first = none) :
    s.HasLeaf current first rest (s.addLeaf now current first (first :: rest) (first :: rest)) := by
  have hnd : ∀ n, (s.addLeaf now current first (first :: rest) (first :: rest)).nodes n = if n = current then
        { s.nodes current with children := (s.nodes current).children.insert first s.nextNodeID }
      else if n = s.nextNodeID then
        { parent := some current, key := first :: rest, value := first :: rest, lastAccess := now s.nextNodeID,
          depth := (s.nodes current).depth + 1, contextLength := (s.nodes current).contextLength + (first :: rest).length }
      else s.nodes n := by
    intro n
    simp [addLeaf, modify, newTreeNode, update_apply, if_neg hne]
  refine ⟨rfl, rfl, rfl, ⟨now s.nextNodeID, ?_⟩, fun {n} hn => ?_, fun {n token c} hn => ?_⟩
  · rw [hnd, if_neg hne.symm, if_pos rfl]
  · rw [hnd n]
    split
    · subst n
      rfl
    · rfl
  rw [hnd n]
  split
  · subst n
    rw [lookup_insert_eq]
    split
    · subst token
      simp [hnn, eq_comm]
    · simp [*]
  · simp [*]

/-- The way to the new leaf is the only new one. -/
def leafPath (s : LPRadixCache) (path : Nat → List Int) (current : Nat) (first : Int) (rest : List Int) :
    Nat → List Int :=
  update path s.nextNodeID (path current ++ first :: rest)

section

variable (hlf : s.HasLeaf current first rest s')
include hlf

theorem HasLeaf.isChild (hn : n ≠ s.nextNodeID) : s'.IsChild n c ↔ s.IsChild n c ∨ n = current ∧ c = s.nextNodeID := by
  unfold IsChild
  simp only [hlf.child hn]
  constructor
  · rintro ⟨token, hc | ⟨hn, -, hc⟩⟩
    · exact .inl ⟨token, hc⟩
    · exact .inr ⟨hn, hc⟩
  · rintro (⟨token, hc⟩ | ⟨hn, hc⟩)
    · exact ⟨token, .inl hc⟩
    · exact ⟨first, .inr ⟨hn, rfl, hc⟩⟩

theorem HasLeaf.not_isChild : ¬ s'.IsChild s.nextNodeID c := by
  rintro ⟨token, hc⟩
  obtain ⟨lastAccess, hnd⟩ := hlf.leaf
  simp [hnd] at hc

variable (h : s.Ok path)
include h

theorem HasLeaf.shape (hcr : current ∈ s.allNodes) :
    s'.Shape (· ∈ s'.allNodes) (leafPath s path current first rest) := by
  have hnew : ∀ {n}, n ∈ s.allNodes → n ≠ s.nextNodeID := fun hn => (h.numbered _ hn).ne
  have hpt : ∀ {n}, n ∈ s.allNodes → leafPath s path current first rest n = path n :=
    fun hn => update_of_ne (hnew hn) _ _
  have hpathNew : leafPath s path current first rest s.nextNodeID = path current ++ first :: rest :=
    update_self ..
  have hmem : ∀ {n}, n ∈ s'.allNodes ↔ n ∈ s.allNodes ∨ n = s.nextNodeID := by
    intro n
    rw [hlf.allNodes, mem_append, mem_singleton]
  obtain ⟨lastAccess, hnd⟩ := hlf.leaf
  refine ⟨?_, ?_, ?_, ?_, ?_, ?_, ?_⟩
  · rw [hlf.rootNode]
    exact hmem.2 (.inl h.shape.root_live)
  · rw [hlf.rootNode, hpt h.shape.root_live]
    exact h.shape.root_path
  · rw [hlf.rootNode, hlf.same (hnew h.shape.root_live)]
    exact h.shape.root_parent
  · intro n token c hn hc
    obtain hn | rfl := hmem.1 hn
    · obtain hc | ⟨rfl, rfl, rfl⟩ := (hlf.child (hnew hn)).1 hc
      · obtain ⟨hlv, hpr, hhd, hky⟩ := h.shape.child hn hc
        rw [hpt hlv, hpt hn, hlf.same (hnew hlv)]
        exact ⟨hmem.2 (.inl hlv), hpr, hhd, hky⟩
      · rw [hnd, hpathNew, hpt hn]
        exact ⟨hmem.2 (.inr rfl), rfl, rfl, rfl⟩
    · exact absurd ⟨token, hc⟩ hlf.not_isChild
  · intro c hc hne
    rw [hlf.rootNode] at hne
    obtain hc | rfl := hmem.1 hc
    · obtain ⟨n, hn, hchild⟩ := h.shape.attached hc hne
      exact ⟨n, hmem.2 (.inl hn), (hlf.isChild (hnew hn)).2 (.inl hchild)⟩
    · exact ⟨current, hmem.2 (.inl hcr), (hlf.isChild (hnew hcr)).2 (.inr ⟨rfl, rfl⟩)⟩
  · intro n hn
    obtain hn | rfl := hmem.1 hn
    · rw [hlf.same (hnew hn), hpt hn]
      exact h.shape.context hn
    · rw [hnd, hpathNew, length_append, ← h.shape.context hcr]
  · intro n hn
    obtain hn | rfl := hmem.1 hn
    · rw [hlf.same (hnew hn)]
      exact h.shape.value hn
    · rw [hnd]

theorem HasLeaf.pods : s'.PodsOk (· ∈ s'.allNodes) := by
  have hlt : ∀ {n}, n ≠ s.nextNodeID → s'.lists n = s.lists n := by
    intro n hn
    unfold lists
    rw [hlf.same hn]
  obtain ⟨lastAccess, hnd⟩ := hlf.leaf
  have hnn : ∀ model podName, s'.lists s.nextNodeID model podName = false := by
    intro model podName
    rw [lists, hnd]
    rfl
  intro n hn model podName
  rw [hlf.allNodes, mem_append, mem_singleton] at hn
  obtain hn | rfl := hn
  · have hne := (h.numbered n hn).ne
    have hdr : s'.direct n = s.direct n := by
      unfold direct
      rw [hlf.same hne]
    rw [hlt hne, hdr, h.pods n hn model podName]
    refine or_congr_right ⟨?_, ?_⟩
    · rintro ⟨c, hc, hls⟩
      have hlv := h.shape.live_child hn hc
      refine ⟨c, (hlf.isChild hne).2 (.inl hc), ?_⟩
      rw [hlt (h.numbered c hlv).ne]
      exact hls
    · rintro ⟨c, hc, hls⟩
      obtain hc | ⟨-, rfl⟩ := (hlf.isChild hne).1 hc
      · rw [hlt (h.numbered c (h.shape.live_child hn hc)).ne] at hls
        exact ⟨c, hc, hls⟩
      · simp [hnn] at hls
  · simp [hnn, hlf.not_isChild, direct, hnd, PodTable.has_empty]

theorem HasLeaf.grows (hcr : current ∈ s.allNodes) (htk : path current ++ first :: rest <+: tokens) :
    Grows tokens s path s' (leafPath s path current first rest) where
  ok :=
    { shape := hlf.shape h hcr
      pods := hlf.pods h
      nodup := (h.append hlf.allNodes hlf.nextNodeID).1
      numbered := (h.append hlf.allNodes hlf.nextNodeID).2 }
  rootNode := hlf.rootNode
  kept n hn := by
    have hne := (h.numbered n hn).ne
    refine ⟨?_, update_of_ne hne _ _, ?_⟩
    · rw [hlf.allNodes]
      exact mem_append_left _ hn
    · rw [hlf.same hne]
  added n hn hnot := by
    rw [hlf.allNodes, mem_append, mem_singleton] at hn
    obtain rfl := hn.resolve_left hnot
    obtain ⟨lastAccess, hnd⟩ := hlf.leaf
    refine ⟨?_, by rw [hnd]⟩
    rw [leafPath, update_self]
    exact htk

end

/-! ## A split -/

structure HasSplit (s : LPRadixCache) (p child : Nat) (first : Int) (upper : List Int) (token : Int) (lower : List Int)
    (s' : LPRadixCache) : Prop where
  rootNode : s'.rootNode = s.rootNode
  allNodes : s'.allNodes = s.allNodes ++ [s.nextNodeID]
  nextNodeID : s'.nextNodeID = s.nextNodeID + 1
  upper : ∃ lastAccess, s'.nodes s.nextNodeID =
    { children := (∅ : KeyMap Int Nat).insert token child, parent := some p, key := upper, value := upper, lastAccess,
      depth := (s.nodes p).depth + 1, contextLength := (s.nodes p).contextLength + upper.length,
      modelToPods := (s.nodes child).modelToPods }
  lower : s'.nodes child =
    { s.nodes child with key := token :: lower, value := token :: lower, parent := some s.nextNodeID }
  same : ∀ {n}, n ≠ s.nextNodeID → n ≠ child → s'.nodes n = { s.nodes n with children := (s'.nodes n).children }
  child : ∀ {n token' c}, n ≠ s.nextNodeID → ((s'.nodes n).children.lookup token' = some c ↔
    (n = p ∧ token' = first) ∧ c = s.nextNodeID ∨
      ¬ (n = p ∧ token' = first) ∧ (s.nodes n).children.lookup token' = some c)

variable {child : Nat} {upper lower : List Int} {token : Int}

theorem hasSplit_splitNode {splitLen : Nat} (hpr : (s.nodes child).parent = some p)
    (hvl : (s.nodes child).value = (s.nodes child).key) (hne : child ≠ p) (hp : p ≠ s.nextNodeID)
    (hchild : child ≠ s.nextNodeID) (hup : (s.nodes child).key.take splitLen = upper)
    (hlw : (s.nodes child).key.drop splitLen = token :: lower) :
    s.HasSplit p child first upper token lower (s.splitNode now first child splitLen) := by
  have hnd : ∀ n, (s.splitNode now first child splitLen).nodes n = if n = s.nextNodeID then
        { children := (∅ : KeyMap Int Nat).insert token child, parent := some p, key := upper, value := upper
          lastAccess := now s.nextNodeID, depth := (s.nodes p).depth + 1
          contextLength := (s.nodes p).contextLength + upper.length
          modelToPods := (s.nodes child).modelToPods }
      else if n = child then
        { s.nodes child with key := token :: lower, value := token :: lower, parent := some s.nextNodeID }
      else if n = p then { s.nodes p with children := (s.nodes p).children.insert first s.nextNodeID }
      else s.nodes n := by
    intro n
    simp only [splitNode, modify, newTreeNode, hpr, hvl, hup, hlw, update_apply, Option.elim_some,
      hp, hp.symm, hchild, hchild.symm, hne, if_false, if_true]
    by_cases hn : n = s.nextNodeID
    · rw [if_pos hn, if_pos hn]
    · simp [if_neg hn]
  refine ⟨?_, ?_, ?_, ⟨now s.nextNodeID, ?_⟩, ?_, fun {n} hn hnc => ?_, fun {n token' c} hn => ?_⟩
  · simp [splitNode, modify, newTreeNode, hpr]
  · simp [splitNode, modify, newTreeNode, hpr]
  · simp [splitNode, modify, newTreeNode, hpr]
  · rw [hnd, if_pos rfl]
  · rw [hnd, if_neg hchild, if_pos rfl]
  · rw [hnd n, if_neg hn, if_neg hnc]
    split
    · subst n
      rfl
    · rfl
  rw [hnd n, if_neg hn]
  by_cases hnc : n = child
  · subst n
    simp [hne]
  rw [if_neg hnc]
  by_cases hnp : n = p
  · subst n
    rw [if_pos rfl, lookup_insert_eq]
    by_cases htk : token' = first
    · simp [htk, eq_comm]
    · simp [htk]
  · simp [hnp]

/-- The child keeps its way, which now leads through the new node. -/
def splitPath (s : LPRadixCache) (path : Nat → List Int) (p : Nat) (upper : List Int) : Nat → List Int :=
  update path s.nextNodeID (path p ++ upper)

theorem HasSplit.isChild_upper (hsplit : s.HasSplit p child first upper token lower s') :
    s'.IsChild s.nextNodeID c ↔ c = child := by
  obtain ⟨lastAccess, hnd⟩ := hsplit.upper
  unfold IsChild
  rw [hnd]
  simp only [lookup_insert_eq]
  constructor
  · rintro ⟨token', hc⟩
    split at hc
    · exact (Option.some.inj hc).symm
    · simp at hc
  · rintro rfl
    exact ⟨token, if_pos rfl⟩

section

variable (h : s.Ok path) (hp : p ∈ s.allNodes) (hchild : (s.nodes p).children.lookup first = some child)
  (hsplit : s.HasSplit p child first upper token lower s')
include h hp hchild hsplit

theorem HasSplit.isChild (hn : n ∈ s.allNodes) :
    s'.IsChild n c ↔ n = p ∧ c = s.nextNodeID ∨ s.IsChild n c ∧ c ≠ child := by
  unfold IsChild
  simp only [hsplit.child (h.numbered n hn).ne]
  constructor
  · rintro ⟨token', ⟨⟨hnp, -⟩, hc⟩ | ⟨hnot, hc⟩⟩
    · exact .inl ⟨hnp, hc⟩
    refine .inr ⟨⟨token', hc⟩, ?_⟩
    rintro rfl
    have hnp := h.shape.parent_unique hn hp ⟨token', hc⟩ ⟨first, hchild⟩
    subst hnp
    exact hnot ⟨rfl, h.shape.token_unique hn hc hchild⟩
  · rintro (⟨rfl, rfl⟩ | ⟨⟨token', hc⟩, hne⟩)
    · exact ⟨first, .inl ⟨⟨rfl, rfl⟩, rfl⟩⟩
    refine ⟨token', .inr ⟨?_, hc⟩⟩
    rintro ⟨rfl, rfl⟩
    rw [hchild] at hc
    exact hne (Option.some.inj hc).symm

theorem HasSplit.shape (hkey : (s.nodes child).key = upper ++ token :: lower) (hfr : upper.head? = some first) :
    s'.Shape (· ∈ s'.allNodes) (splitPath s path p upper) := by
  have hnew : ∀ {n}, n ∈ s.allNodes → n ≠ s.nextNodeID := fun hn => (h.numbered _ hn).ne
  have hpt : ∀ {n}, n ∈ s.allNodes → splitPath s path p upper n = path n :=
    fun hn => update_of_ne (hnew hn) _ _
  have hpathNew : splitPath s path p upper s.nextNodeID = path p ++ upper := update_self ..
  have hmem : ∀ {n}, n ∈ s'.allNodes ↔ n ∈ s.allNodes ∨ n = s.nextNodeID := by
    intro n
    rw [hsplit.allNodes, mem_append, mem_singleton]
  obtain ⟨hlv, -, -, hpathChild⟩ := h.shape.child hp hchild
  have hrt : s.rootNode ≠ child := by
    rintro rfl
    exact h.shape.root_not_child hp ⟨first, hchild⟩
  obtain ⟨lastAccess, hnd⟩ := hsplit.upper
  refine ⟨?_, ?_, ?_, ?_, ?_, ?_, ?_⟩
  · rw [hsplit.rootNode]
    exact hmem.2 (.inl h.shape.root_live)
  · rw [hsplit.rootNode, hpt h.shape.root_live]
    exact h.shape.root_path
  · rw [hsplit.rootNode, hsplit.same (hnew h.shape.root_live) hrt]
    exact h.shape.root_parent
  · intro n token' c hn hc
    obtain hn | rfl := hmem.1 hn
    · obtain ⟨⟨rfl, rfl⟩, rfl⟩ | ⟨hnot, hc⟩ := (hsplit.child (hnew hn)).1 hc
      · rw [hnd, hpathNew, hpt hn]
        exact ⟨hmem.2 (.inr rfl), rfl, hfr, rfl⟩
      have hne : c ≠ child := by
        rintro rfl
        have hnp := h.shape.parent_unique hn hp ⟨token', hc⟩ ⟨first, hchild⟩
        subst hnp
        exact hnot ⟨rfl, h.shape.token_unique hn hc hchild⟩
      obtain ⟨hliveC, hpr, hhd, hky⟩ := h.shape.child hn hc
      rw [hpt hliveC, hpt hn, hsplit.same (hnew hliveC) hne]
      exact ⟨hmem.2 (.inl hliveC), hpr, hhd, hky⟩
    · rw [hnd, lookup_insert_eq] at hc
      split at hc
      · cases hc
        subst token'
        rw [hsplit.lower, hpt hlv, hpathNew, hpathChild, hkey, append_assoc]
        exact ⟨hmem.2 (.inl hlv), rfl, rfl, rfl⟩
      · simp at hc
  · intro c hc hne
    rw [hsplit.rootNode] at hne
    obtain hc | rfl := hmem.1 hc
    · by_cases hcc : c = child
      · exact ⟨s.nextNodeID, hmem.2 (.inr rfl), (hsplit.isChild_upper).2 hcc⟩
      · obtain ⟨n, hn, hchild'⟩ := h.shape.attached hc hne
        exact ⟨n, hmem.2 (.inl hn), (hsplit.isChild h hp hchild hn).2 (.inr ⟨hchild', hcc⟩)⟩
    · exact ⟨p, hmem.2 (.inl hp), (hsplit.isChild h hp hchild hp).2 (.inl ⟨rfl, rfl⟩)⟩
  · intro n hn
    obtain hn | rfl := hmem.1 hn
    · rw [hpt hn, ← h.shape.context hn]
      by_cases hnc : n = child
      · rw [hnc, hsplit.lower]
      · rw [hsplit.same (hnew hn) hnc]
    · rw [hnd, hpathNew, length_append, ← h.shape.context hp]
  · intro n hn
    obtain hn | rfl := hmem.1 hn
    · by_cases hnc : n = child
      · rw [hnc, hsplit.lower]
      · rw [hsplit.same (hnew hn) hnc]
        exact h.shape.value hn
    · rw [hnd]

theorem HasSplit.pods : s'.PodsOk (· ∈ s'.allNodes) := by
  obtain ⟨lastAccess, hnd⟩ := hsplit.upper
  have hup : s'.lists s.nextNodeID = s.lists child := by
    unfold lists
    rw [hnd]
  have hold : ∀ {n}, n ∈ s.allNodes → s'.lists n = s.lists n ∧ s'.direct n = s.direct n := by
    intro n hn
    unfold lists direct
    by_cases hnc : n = child
    · rw [hnc, hsplit.lower]
      exact ⟨rfl, rfl⟩
    · rw [hsplit.same (h.numbered n hn).ne hnc]
      exact ⟨rfl, rfl⟩
  have hlv : child ∈ s.allNodes := (h.shape.child hp hchild).1
  intro n hn model podName
  rw [hsplit.allNodes, mem_append, mem_singleton] at hn
  obtain hn | rfl := hn
  · rw [(hold hn).1, (hold hn).2, h.pods n hn model podName]
    refine or_congr_right ⟨?_, ?_⟩
    · rintro ⟨c, hc, hls⟩
      by_cases hcc : c = child
      · subst hcc
        have hnp := h.shape.parent_unique hn hp hc ⟨first, hchild⟩
        exact ⟨s.nextNodeID, (hsplit.isChild h hp hchild hn).2 (.inl ⟨hnp, rfl⟩), by rw [hup]; exact hls⟩
      · refine ⟨c, (hsplit.isChild h hp hchild hn).2 (.inr ⟨hc, hcc⟩), ?_⟩
        rw [(hold (h.shape.live_child hn hc)).1]
        exact hls
    · rintro ⟨c, hc, hls⟩
      obtain ⟨rfl, rfl⟩ | ⟨hc, -⟩ := (hsplit.isChild h hp hchild hn).1 hc
      · rw [hup] at hls
        exact ⟨child, ⟨first, hchild⟩, hls⟩
      · rw [(hold (h.shape.live_child hn hc)).1] at hls
        exact ⟨c, hc, hls⟩
  · simp [hsplit.isChild_upper, hup, (hold hlv).1, direct, hnd, PodTable.has_empty]

theorem HasSplit.grows (hkey : (s.nodes child).key = upper ++ token :: lower) (hfr : upper.head? = some first)
    (htk : path p ++ upper <+: tokens) : Grows tokens s path s' (splitPath s path p upper) where
  ok :=
    { shape := hsplit.shape h hp hchild hkey hfr
      pods := hsplit.pods h hp hchild
      nodup := (h.append hsplit.allNodes hsplit.nextNodeID).1
      numbered := (h.append hsplit.allNodes hsplit.nextNodeID).2 }
  rootNode := hsplit.rootNode
  kept n hn := by
    have hne := (h.numbered n hn).ne
    refine ⟨?_, update_of_ne hne _ _, ?_⟩
    · rw [hsplit.allNodes]
      exact mem_append_left _ hn
    · by_cases hnc : n = child
      · rw [hnc, hsplit.lower]
      · rw [hsplit.same hne hnc]
  added n hn hnot := by
    rw [hsplit.allNodes, mem_append, mem_singleton] at hn
    obtain rfl := hn.resolve_left hnot
    obtain ⟨lastAccess, hnd⟩ := hsplit.upper
    refine ⟨?_, by rw [hnd]⟩
    rw [splitPath, update_self]
    exact htk

end

end LPRadixCache

end Aibrix.RadixCache
