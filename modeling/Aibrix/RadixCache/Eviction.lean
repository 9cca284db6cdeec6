import Aibrix.RadixCache.Insertion

/-! # Evictions, and any run of the cache

The nodes above an evicted node give up the pods that they listed because of it. -/

namespace Aibrix.RadixCache

open Lib List PodTable

namespace LPRadixCache

variable {s s' : LPRadixCache} {path : Nat → List Int} {live : Nat → Prop} {n c p q x : Nat} {fuel : Nat}
  {above : Option Nat} {snapshot : PodTable Int} {model podName : String}

/-! ## What the loop over the parents changes -/

theorem mem_childIDs : c ∈ s.childIDs n ↔ s.IsChild n c := by
  unfold childIDs
  rw [mem_map]
  constructor
  · rintro ⟨⟨token, c⟩, hen, rfl⟩
    exact ⟨token, AList.mem_lookup_iff.2 hen⟩
  · rintro ⟨token, hlookup⟩
    exact ⟨⟨token, c⟩, AList.mem_lookup_iff.1 hlookup, rfl⟩

theorem keeps_iff : s.keeps n model podName = true ↔
    s.direct n model podName = true ∨ ∃ c, s.IsChild n c ∧ s.lists c model podName = true := by
  unfold keeps childrenHavePodForModel
  rw [Bool.or_eq_true, any_eq_true]
  simp only [mem_childIDs]
  rfl

structure SameButLists (s s' : LPRadixCache) : Prop where
  rootNode : s'.rootNode = s.rootNode
  allNodes : s'.allNodes = s.allNodes
  nextNodeID : s'.nextNodeID = s.nextNodeID
  links : ∀ n, TreeNode.SameLinks (s.nodes n) (s'.nodes n)
  directPods : ∀ n, (s'.nodes n).directPods = (s.nodes n).directPods
  empty : ∀ n, (s.nodes n).modelToPods = ∅ → (s'.nodes n).modelToPods = ∅

theorem SameButLists.refl (s : LPRadixCache) : SameButLists s s :=
  ⟨rfl, rfl, rfl, fun _ => .refl _, fun _ => rfl, fun _ => id⟩

theorem SameButLists.trans {s₁ s₂ s₃ : LPRadixCache} (h : SameButLists s₁ s₂) (h' : SameButLists s₂ s₃) :
    SameButLists s₁ s₃ where
  rootNode := h'.rootNode.trans h.rootNode
  allNodes := h'.allNodes.trans h.allNodes
  nextNodeID := h'.nextNodeID.trans h.nextNodeID
  links n := (h.links n).trans (h'.links n)
  directPods n := (h'.directPods n).trans (h.directPods n)
  empty n hem := h'.empty n (h.empty n hem)

def cleanParent (snapshot : PodTable Int) (parent : Nat) (s : LPRadixCache) : LPRadixCache :=
  s.modify parent fun n =>
    { n with
      modelToPods := (n.modelToPods.restrict (fun model => (snapshot.lookup model).isSome) fun model podName =>
        !snapshot.has model podName || s.keeps parent model podName).sweep fun model =>
          (snapshot.lookup model).isSome }

def remaining (snapshot : PodTable Int) (parent : Nat) (s : LPRadixCache) : PodTable Int :=
  snapshot.restrict (fun model => ((s.nodes parent).modelToPods.lookup model).isSome)
    fun model podName => !s.keeps parent model podName

theorem cleanParents_some : cleanParents (fuel + 1) snapshot (some q) s =
    cleanParents fuel (remaining snapshot q s) ((cleanParent snapshot q s).nodes q).parent
      (cleanParent snapshot q s) := rfl

theorem cleanParents_none : cleanParents fuel snapshot none s = s := by
  cases fuel <;> rfl

theorem sameButLists_cleanParent (snapshot : PodTable Int) (q : Nat) (s : LPRadixCache) :
    SameButLists s (cleanParent snapshot q s) := by
  unfold cleanParent
  refine ⟨rfl, rfl, rfl, sameLinks_modify fun _ => ⟨rfl, rfl, rfl, rfl, rfl, rfl⟩, fun n => ?_, fun n hem => ?_⟩
  · rw [nodes_modify]
    split <;> rfl
  rw [nodes_modify]
  split
  · rw [hem, restrict_empty, sweep_empty]
  · exact hem

theorem lists_cleanParent : (cleanParent snapshot q s).lists n model podName = (s.lists n model podName &&
      (decide (n ≠ q) || !snapshot.has model podName || s.keeps q model podName)) := by
  unfold lists cleanParent
  rw [nodes_modify]
  by_cases hn : n = q
  · rw [if_pos hn, has_sweep, has_restrict]
    cases hmd : (snapshot.lookup model).isSome with
    | true => simp [hn]
    | false =>
      have hnot : snapshot.has model podName = false := by
        by_contra hhas
        rw [Bool.not_eq_false] at hhas
        rw [isSome_lookup_of_has hhas] at hmd
        cases hmd
      simp [hnot]
  · simp [hn]

theorem sameButLists_cleanParents : SameButLists s (cleanParents fuel snapshot above s) := by
  induction fuel generalizing snapshot above s with
  | zero => exact .refl s
  | succ fuel ih =>
    cases above with
    | none => exact .refl s
    | some q => exact (sameButLists_cleanParent snapshot q s).trans ih

section

variable (hsm : SameButLists s s')
include hsm

theorem SameButLists.shape (h : s.Shape live path) : s'.Shape live path :=
  h.congr hsm.rootNode fun n _ => hsm.links n

theorem SameButLists.isChild : s'.IsChild n c ↔ s.IsChild n c := by
  unfold IsChild
  rw [(hsm.links n).children]

theorem SameButLists.direct : s'.direct n model podName = s.direct n model podName := by
  unfold LPRadixCache.direct
  rw [hsm.directPods]

end

/-! ## The pods that are given up -/

structure Excess (s : LPRadixCache) (live : Nat → Prop) (q : Nat) (snapshot : PodTable Int) : Prop where
  balanced : ∀ n, live n → n ≠ q → s.Balanced n
  enough : ∀ model podName, s.keeps q model podName = true → s.lists q model podName = true
  excess : ∀ model podName, s.lists q model podName = true →
    s.keeps q model podName = true ∨ snapshot.has model podName = true

theorem Shape.not_child_self (h : s.Shape live path) (hn : live n) : ¬ s.IsChild n n :=
  fun hc => (h.length_lt hn hc).false

section

variable (hex : s.Excess live q snapshot)
include hex

theorem Excess.balanced_self (h : s.Shape live path) (hq : live q) :
    (cleanParent snapshot q s).Balanced q := by
  have hsm := sameButLists_cleanParent snapshot q s
  intro model podName
  have hch : (∃ c, (cleanParent snapshot q s).IsChild q c ∧ (cleanParent snapshot q s).lists c model podName = true) ↔
      ∃ c, s.IsChild q c ∧ s.lists c model podName = true := by
    refine exists_congr fun c => ?_
    rw [hsm.isChild]
    refine and_congr_right fun hc => ?_
    have hne : c ≠ q := by
      rintro rfl
      exact h.not_child_self hq hc
    simp [lists_cleanParent, hne]
  rw [hch, hsm.direct, ← keeps_iff, lists_cleanParent]
  simp only [ne_eq, not_true_eq_false, decide_false, Bool.false_or, Bool.and_eq_true, Bool.or_eq_true,
    Bool.not_eq_true']
  constructor
  · rintro ⟨hls, hnot | hkp⟩
    · apply (hex.excess model podName hls).resolve_right
      rw [hnot]
      exact Bool.false_ne_true
    · exact hkp
  · intro hkp
    exact ⟨hex.enough model podName hkp, .inr hkp⟩

omit hex in
theorem Balanced.cleanParent (hbl : s.Balanced n) (hne : n ≠ q) (hnot : ¬ s.IsChild n q) :
    (cleanParent snapshot q s).Balanced n := by
  have hsm := sameButLists_cleanParent snapshot q s
  intro model podName
  rw [hsm.direct]
  simp only [hsm.isChild, lists_cleanParent, hne, ne_eq, not_false_eq_true, decide_true, Bool.true_or, Bool.and_true]
  rw [hbl model podName]
  refine or_congr_right (exists_congr fun c => and_congr_right fun hc => ?_)
  have hcq : c ≠ q := by
    rintro rfl
    exact hnot hc
  simp [hcq]

theorem Excess.parent (h : s.Shape live path) (hq : live q) (hp : live p)
    (hc : s.IsChild p q) : (cleanParent snapshot q s).Excess live p (remaining snapshot q s) := by
  have hsm := sameButLists_cleanParent snapshot q s
  have hpq : p ≠ q := by
    rintro rfl
    exact h.not_child_self hp hc
  have hpr := hex.balanced p hp hpq
  have hls : ∀ model podName,
      (LPRadixCache.cleanParent snapshot q s).lists p model podName = s.lists p model podName := by
    simp [lists_cleanParent, hpq]
  refine ⟨fun n hn hne => ?_, fun model podName => ?_, fun model podName => ?_⟩
  · by_cases hnq : n = q
    · subst hnq
      exact hex.balanced_self h hq
    · refine (hex.balanced n hn hnq).cleanParent hnq fun hc' => hne ?_
      exact h.parent_unique hn hp hc' hc
  · rw [keeps_iff, hls, hpr model podName, hsm.direct]
    apply Or.imp_right
    rintro ⟨c, hc', hls'⟩
    rw [lists_cleanParent, Bool.and_eq_true] at hls'
    exact ⟨c, hsm.isChild.1 hc', hls'.1⟩
  rw [keeps_iff, hls, hpr model podName, hsm.direct]
  rintro (hdr | ⟨c, hc', hls'⟩)
  · exact .inl (.inl hdr)
  by_cases hkp : (LPRadixCache.cleanParent snapshot q s).lists c model podName = true
  · exact .inl (.inr ⟨c, hsm.isChild.2 hc', hkp⟩)
  -- Only the cleaned node has lost the pod.
  rw [lists_cleanParent, hls'] at hkp
  simp only [Bool.true_and, Bool.or_eq_true, decide_eq_true_eq, Bool.not_eq_true', not_or, ne_eq, not_not,
    Bool.not_eq_false, Bool.not_eq_true] at hkp
  obtain ⟨⟨rfl, hhas⟩, hks⟩ := hkp
  unfold remaining
  rw [has_restrict, hhas, hks]
  simp

theorem Excess.cleanParents (h : s.Shape live path) (hq : live q)
    (hfl : (path q).length < fuel) : (cleanParents fuel snapshot (some q) s).PodsOk live := by
  induction fuel generalizing s q snapshot with
  | zero => omega
  | succ fuel ih =>
    have hsm := sameButLists_cleanParent snapshot q s
    rw [cleanParents_some, (hsm.links q).parent]
    by_cases hrt : q = s.rootNode
    · rw [hrt, h.root_parent, cleanParents_none, ← hrt]
      intro n hn
      by_cases hnq : n = q
      · subst hnq
        exact hex.balanced_self h hq
      · refine (hex.balanced n hn hnq).cleanParent hnq fun hc => ?_
        exact h.root_not_child hn (hrt ▸ hc)
    · obtain ⟨p, hp, hc⟩ := h.attached hq hrt
      have hlt := h.length_lt hp hc
      rw [h.parent_child hp hc]
      exact ih (hex.parent h hq hp hc) (hsm.shape h) hp (by omega)

end

/-! ## Nodes that no longer hang under the root -/

structure MidBatch (s : LPRadixCache) (all : List Nat) (live : Nat → Prop) (path : Nat → List Int) : Prop where
  shape : s.Shape live path
  pods : s.PodsOk live
  known : ∀ n, live n → n ∈ all
  detached : ∀ n ∈ all, ¬ live n → ∀ p, (s.nodes n).parent = some p → p ∈ all ∧ ¬ live p

def Without (live : Nat → Prop) (path : Nat → List Int) (x n : Nat) : Prop := live n ∧ ¬ path x <+: path n

theorem PodsOk.congr (h : s.PodsOk live) (hsh : s.Shape live path) (hsm : ∀ n, live n → s'.nodes n = s.nodes n) :
    s'.PodsOk live := by
  intro n hn model podName
  have hch : ∀ c, s'.IsChild n c ∧ s'.lists c model podName = true ↔
      s.IsChild n c ∧ s.lists c model podName = true := by
    intro c
    unfold IsChild lists
    rw [hsm n hn]
    refine and_congr_right fun hc => ?_
    rw [hsm c (hsh.live_child hn hc)]
  have hsl : s'.lists n model podName = s.lists n model podName ∧ s'.direct n model podName = s.direct n model podName := by
    unfold lists direct
    rw [hsm n hn]
    exact ⟨rfl, rfl⟩
  rw [hsl.1, hsl.2, exists_congr hch]
  exact h n hn model podName

theorem nodes_detach_of_ne (hne : (s.nodes x).parent ≠ some n) : (s.detach x).nodes n = s.nodes n := by
  unfold detach
  split
  · rename_i p first rest hpr hkey
    rw [nodes_modify, if_neg]
    rintro rfl
    exact hne hpr
  · rfl

theorem detach_frame (s : LPRadixCache) (x : Nat) :
    (s.detach x).rootNode = s.rootNode ∧ (s.detach x).allNodes = s.allNodes ∧ (s.detach x).nextNodeID = s.nextNodeID ∧
      ∀ n, ∃ children, (s.detach x).nodes n = { s.nodes n with children } := by
  unfold detach
  split
  · refine ⟨rfl, rfl, rfl, fun n => ?_⟩
    rw [nodes_modify]
    split
    · exact ⟨_, rfl⟩
    · exact ⟨_, rfl⟩
  · exact ⟨rfl, rfl, rfl, fun n => ⟨_, rfl⟩⟩

variable {all : List Nat}

theorem nodes_cleanParents_of_live (hdt : ∀ n ∈ all, ¬ live n → ∀ p, (s.nodes n).parent = some p → p ∈ all ∧ ¬ live p)
    (hab : ∀ p, above = some p → p ∈ all ∧ ¬ live p) (hn : live n) :
    (cleanParents fuel snapshot above s).nodes n = s.nodes n := by
  induction fuel generalizing s snapshot above with
  | zero => rfl
  | succ fuel ih =>
    cases above with
    | none => rfl
    | some q =>
      obtain ⟨hq, hdd⟩ := hab q rfl
      have hsm := sameButLists_cleanParent snapshot q s
      have hpr : ∀ n ∈ all, ¬ live n → ∀ p, ((cleanParent snapshot q s).nodes n).parent = some p →
          p ∈ all ∧ ¬ live p := by
        intro n hn
        rw [(hsm.links n).parent]
        exact hdt n hn
      rw [cleanParents_some, ih hpr (hpr q hq hdd)]
      unfold cleanParent
      rw [nodes_modify, if_neg]
      rintro rfl
      exact hdd hn

/-! ## The first eviction of a node -/

section
variable {first : Int} (h : s.Shape live path) (hp : live p) (hlookup : (s.nodes p).children.lookup first = some x)
include h hp hlookup

theorem Shape.detach_eq : s.detach x = s.modify p fun n => { n with children := n.children.erase first } := by
  obtain ⟨-, hpr, hhd, -⟩ := h.child hp hlookup
  obtain ⟨rest, hkey⟩ := head?_eq_some_iff.1 hhd
  unfold detach
  rw [hpr, hkey]

theorem Shape.lookup_detach (hn : live n) {token : Int} : ((s.detach x).nodes n).children.lookup token = some c ↔
    (s.nodes n).children.lookup token = some c ∧ c ≠ x := by
  rw [h.detach_eq hp hlookup, nodes_modify]
  split
  · rename_i hnp
    subst hnp
    rw [KeyMap.lookup_erase_eq]
    split
    · rename_i htk
      subst htk
      rw [hlookup, Option.some.injEq]
      exact iff_of_false (by simp) fun hne => hne.2 hne.1.symm
    · rename_i htk
      refine (and_iff_left_of_imp ?_).symm
      rintro hc rfl
      exact htk (h.token_unique hn hc hlookup)
  · rename_i hnp
    refine (and_iff_left_of_imp ?_).symm
    rintro hc rfl
    exact hnp (h.parent_unique hn hp ⟨token, hc⟩ ⟨first, hlookup⟩)

theorem Shape.isChild_detach (hn : live n) : (s.detach x).IsChild n c ↔ s.IsChild n c ∧ c ≠ x := by
  unfold IsChild
  simp [h.lookup_detach hp hlookup hn]

theorem Shape.without_child (hn : Without live path x n) (hc : s.IsChild n c) (hne : c ≠ x) :
    Without live path x c := by
  have hx := h.live_child hp ⟨first, hlookup⟩
  exact ⟨h.live_child hn.1 hc, fun hpre => hn.2 (h.prefix_parent hx hn.1 hc hne.symm hpre)⟩

theorem Shape.without_parent : Without live path x p := by
  refine ⟨hp, fun hpre => ?_⟩
  have hlt := h.length_lt hp ⟨first, hlookup⟩
  exact absurd hpre.length_le (by omega)

theorem Shape.detach : (s.detach x).Shape (Without live path x) path := by
  obtain ⟨hrt, -, -, hfl⟩ := detach_frame s x
  have hkey : ∀ n, ((s.detach x).nodes n).key = (s.nodes n).key ∧ ((s.detach x).nodes n).value = (s.nodes n).value ∧
      ((s.detach x).nodes n).parent = (s.nodes n).parent ∧
      ((s.detach x).nodes n).contextLength = (s.nodes n).contextLength := by
    intro n
    obtain ⟨children, heq⟩ := hfl n
    rw [heq]
    exact ⟨rfl, rfl, rfl, rfl⟩
  refine ⟨?_, ?_, ?_, ?_, ?_, ?_, ?_⟩
  · rw [hrt]
    refine ⟨h.root_live, ?_⟩
    have hlt := h.length_lt hp ⟨first, hlookup⟩
    rw [h.root_path, prefix_nil]
    intro hnil
    rw [hnil, length_nil] at hlt
    omega
  · rw [hrt, h.root_path]
  · rw [hrt, (hkey _).2.2.1, h.root_parent]
  · intro n token c hn hc
    obtain ⟨hc, hne⟩ := (h.lookup_detach hp hlookup hn.1).1 hc
    obtain ⟨hlv, hpr, hhd, hpt⟩ := h.child hn.1 hc
    rw [(hkey c).1, (hkey c).2.2.1]
    exact ⟨h.without_child hp hlookup hn ⟨token, hc⟩ hne, hpr, hhd, hpt⟩
  · intro c hc hne
    obtain ⟨n, hn, hch⟩ := h.attached hc.1 (hrt ▸ hne)
    refine ⟨n, ⟨hn, fun hpre => hc.2 (hpre.trans (h.prefix_child hn hch))⟩, ?_⟩
    rw [h.isChild_detach hp hlookup hn]
    refine ⟨hch, ?_⟩
    rintro rfl
    exact hc.2 prefix_rfl
  · intro n hn
    rw [(hkey n).2.2.2, h.context hn.1]
  · intro n hn
    rw [(hkey n).2.1, (hkey n).1, h.value hn.1]

theorem Excess.detach (hpd : s.PodsOk live) : (s.detach x).Excess (Without live path x) p (s.nodes x).modelToPods := by
  obtain ⟨-, -, -, hfl⟩ := detach_frame s x
  have hls : ∀ n model podName, (s.detach x).lists n model podName = s.lists n model podName ∧
      (s.detach x).direct n model podName = s.direct n model podName := by
    intro n model podName
    obtain ⟨children, heq⟩ := hfl n
    unfold lists direct
    rw [heq]
    exact ⟨rfl, rfl⟩
  have hkp : ∀ model podName, (s.detach x).keeps p model podName = true ↔
      s.direct p model podName = true ∨ ∃ c, (s.IsChild p c ∧ c ≠ x) ∧ s.lists c model podName = true := by
    intro model podName
    rw [keeps_iff]
    simp [h.isChild_detach hp hlookup hp, hls]
  refine ⟨fun n hn hnp model podName => ?_, fun model podName => ?_, fun model podName => ?_⟩
  · simp only [h.isChild_detach hp hlookup hn.1, hls]
    rw [hpd n hn.1 model podName]
    refine or_congr_right (exists_congr fun c => and_congr_left fun _ => (and_iff_left_of_imp ?_).symm)
    rintro hc rfl
    exact hnp (h.parent_unique hn.1 hp hc ⟨first, hlookup⟩)
  · rw [hkp, (hls p model podName).1, hpd p hp model podName]
    apply Or.imp_right
    rintro ⟨c, ⟨hc, -⟩, hlt⟩
    exact ⟨c, hc, hlt⟩
  · rw [hkp, (hls p model podName).1, hpd p hp model podName]
    rintro (hdr | ⟨c, hc, hlt⟩)
    · exact .inl (.inl hdr)
    by_cases hcx : c = x
    · subst hcx
      exact .inr hlt
    · exact .inl (.inr ⟨c, ⟨hc, hcx⟩, hlt⟩)

end

theorem evictNode_frame (hne : x ≠ s.rootNode) :
    let r := s.evictNode x
    r.rootNode = s.rootNode ∧ r.nextNodeID = s.nextNodeID ∧ r.allNodes = s.allNodes.erase x ∧ ∀ n, (r.nodes
      n).parent = if n = x then none else (s.nodes n).parent := by
  obtain ⟨hrt, hall, hnx, hfl⟩ := detach_frame s x
  have hsm : SameButLists (s.detach x) (s.cleanAbove x) := sameButLists_cleanParents
  unfold evictNode
  rw [if_neg hne]
  refine ⟨hsm.rootNode.trans hrt, hsm.nextNodeID.trans hnx, ?_, fun n => ?_⟩
  · rw [hsm.allNodes, hall]
  rw [nodes_modify]
  split
  · rfl
  · obtain ⟨children, heq⟩ := hfl n
    rw [(hsm.links n).parent, heq]

section

variable (h : s.MidBatch all live path)
include h

theorem MidBatch.evictNode_live (hx : live x) (hne : x ≠ s.rootNode) :
    (s.evictNode x).Shape (Without live path x) path ∧ (s.evictNode x).PodsOk (Without live path x) := by
  obtain ⟨p, hp, first, hlookup⟩ := h.shape.attached hx hne
  have hlt := h.shape.length_lt hp ⟨first, hlookup⟩
  have hpd : (s.cleanAbove x).PodsOk (Without live path x) := by
    unfold cleanAbove
    rw [h.shape.parent_child hp ⟨first, hlookup⟩, h.shape.context hx]
    exact (Excess.detach h.shape hp hlookup h.pods).cleanParents (h.shape.detach hp hlookup)
      (h.shape.without_parent hp hlookup) (by omega)
  have hsm : SameButLists (s.detach x) (s.cleanAbove x) := sameButLists_cleanParents
  have hsh := hsm.shape (h.shape.detach hp hlookup)
  unfold evictNode
  rw [if_neg hne]
  -- The references of the node itself are dropped last, and it is no longer live.
  have hlv : ∀ n, Without live path x n → ((s.cleanAbove x).modify x cleared).nodes n = (s.cleanAbove x).nodes n := by
    intro n hn
    rw [nodes_modify, if_neg]
    rintro rfl
    exact hn.2 prefix_rfl
  refine ⟨hsh.congr rfl fun n hn => ?_, hpd.congr hsh hlv⟩
  rw [hlv n hn]
  exact .refl _

theorem MidBatch.nodes_evictNode_dead (hx : x ∈ all) (hdd : ¬ live x)
    (hn : live n) : (s.evictNode x).nodes n = s.nodes n := by
  obtain ⟨-, -, -, hfl⟩ := detach_frame s x
  have hdt : ∀ n ∈ all, ¬ live n → ∀ p, ((s.detach x).nodes n).parent = some p → p ∈ all ∧ ¬ live p := by
    intro n hn
    obtain ⟨children, heq⟩ := hfl n
    rw [heq]
    exact h.detached n hn
  have hnx : n ≠ x := by
    rintro rfl
    exact hdd hn
  unfold evictNode
  split
  · rfl
  · rw [nodes_modify, if_neg hnx, cleanAbove, nodes_cleanParents_of_live hdt (h.detached x hx hdd) hn]
    refine nodes_detach_of_ne fun hpr => ?_
    exact (h.detached x hx hdd n hpr).2 hn

theorem MidBatch.evictNode (hx : x ∈ all) (hne : x ≠ s.rootNode)
    (hdd : ¬ live x → ∀ n, live n → ¬ path x <+: path n) : (s.evictNode x).MidBatch all (Without live path x) path := by
  obtain ⟨hrt, -, -, hpr⟩ := evictNode_frame hne
  have hdt : ∀ n ∈ all, ¬ Without live path x n → ∀ p, ((s.evictNode x).nodes n).parent = some p →
      p ∈ all ∧ ¬ Without live path x p := by
    intro n hn hnot p hp
    rw [hpr] at hp
    split at hp
    · cases hp
    rename_i hnx
    by_cases hlv : live n
    · have hpre : path x <+: path n := by
        by_contra hpre
        exact hnot ⟨hlv, hpre⟩
      have hnr : n ≠ s.rootNode := by
        rintro rfl
        rw [h.shape.root_parent] at hp
        cases hp
      obtain ⟨m, hm, hc⟩ := h.shape.attached hlv hnr
      have hmp := h.shape.parent_child hm hc
      rw [hp, Option.some.injEq] at hmp
      subst hmp
      have hxl : live x := by
        by_contra hxd
        exact hdd hxd n hlv hpre
      exact ⟨h.known p hm, fun hout => hout.2 (h.shape.prefix_parent hxl hm hc (Ne.symm hnx) hpre)⟩
    · obtain ⟨hall, hpd⟩ := h.detached n hn hlv p hp
      exact ⟨hall, fun hout => hpd hout.1⟩
  by_cases hxl : live x
  · obtain ⟨hsh, hps⟩ := h.evictNode_live hxl hne
    exact ⟨hsh, hps, fun n hn => h.known n hn.1, hdt⟩
  -- A node that is gone already takes nothing with it.
  have hlv : Without live path x = live := by
    funext n
    exact propext ⟨fun hn => hn.1, fun hn => ⟨hn, hdd hxl n hn⟩⟩
  have hsm := fun n => h.nodes_evictNode_dead (n := n) hx hxl
  rw [hlv] at hdt ⊢
  refine ⟨h.shape.congr hrt fun n hn => ?_, h.pods.congr h.shape hsm, h.known, hdt⟩
  rw [hsm n hn]
  exact .refl _

end

variable {s s' s₀ : LPRadixCache} {path : Nat → List Int} {live : Nat → Prop} {n c x start : Nat} {fuel : Nat}
  {model podName : String}

/-! ## Collecting -/

theorem Shape.nodup_childIDs (h : s.Shape live path) (hn : live n) : (s.childIDs n).Nodup := by
  refine Nodup.map_on ?_ (s.nodes n).children.nodupKeys.nodup
  rintro ⟨token, c⟩ hen ⟨token', c'⟩ hen' hsm
  obtain rfl : c = c' := hsm
  rw [h.token_unique hn (AList.mem_lookup_iff.2 hen) (AList.mem_lookup_iff.2 hen')]

structure Collecting (s : LPRadixCache) (path : Nat → List Int) (start : Nat) (collected stack : List Nat) : Prop where
  nodup : (collected ++ stack).Nodup
  live : ∀ n ∈ collected ++ stack, n ∈ s.allNodes
  below : ∀ n ∈ collected ++ stack, path start <+: path n
  start_mem : start ∈ collected ++ stack
  parent : ∀ n ∈ collected ++ stack, n ≠ start → ∃ p ∈ collected, s.IsChild p n
  closed : ∀ n ∈ collected, ∀ c, s.IsChild n c → c ∈ collected ++ stack

variable {collected stack children : List Nat} {current : Nat}

section

variable (h : s.Shape (· ∈ s.allNodes) path)
include h

theorem Collecting.push (hc : s.Collecting path start collected (current :: stack))
    (hpr : children.Perm (s.childIDs current)) :
    s.Collecting path start (collected ++ [current]) (children.reverse ++ stack) := by
  have hch : ∀ c, c ∈ children ↔ s.IsChild current c := fun c => hpr.mem_iff.trans mem_childIDs
  have hmem : ∀ n, n ∈ collected ++ [current] ++ (children.reverse ++ stack) ↔
      n ∈ collected ++ current :: stack ∨ s.IsChild current n := by
    intro n
    rw [← hch]
    simp only [mem_append, mem_cons, mem_reverse]
    tauto
  have hcr := hc.live current (by simp)
  have hnew : ∀ c, s.IsChild current c → c ∉ collected ++ current :: stack := by
    intro c hcc hold
    have hlt := h.length_lt hcr hcc
    by_cases hst : c = start
    · subst hst
      have hle := (hc.below current (by simp)).length_le
      omega
    obtain ⟨p, hp, hpc⟩ := hc.parent c hold hst
    have hpcr := h.parent_unique (hc.live p (mem_append_left _ hp)) hcr hpc hcc
    have hds := (nodup_append.1 hc.nodup).2.2
    exact hds p hp current (by simp) hpcr
  refine ⟨?_, ?_, ?_, ?_, ?_, ?_⟩
  · have hsp : (collected ++ [current] ++ (children.reverse ++ stack)).Perm
        ((collected ++ current :: stack) ++ children) := by
      rw [← append_cons, append_assoc]
      exact (((reverse_perm children).append_right stack).trans perm_append_comm).cons current |>.append_left _
    rw [hsp.nodup_iff, nodup_append]
    refine ⟨hc.nodup, hpr.nodup_iff.2 (h.nodup_childIDs hcr), ?_⟩
    rintro n hn c hcc rfl
    exact hnew n ((hch n).1 hcc) hn
  · intro n hn
    rcases (hmem n).1 hn with hold | hcc
    · exact hc.live n hold
    · exact h.live_child hcr hcc
  · intro n hn
    rcases (hmem n).1 hn with hold | hcc
    · exact hc.below n hold
    · exact (hc.below current (by simp)).trans (h.prefix_child hcr hcc)
  · exact (hmem start).2 (.inl hc.start_mem)
  · intro n hn hne
    rcases (hmem n).1 hn with hold | hcc
    · obtain ⟨p, hp, hpn⟩ := hc.parent n hold hne
      exact ⟨p, mem_append_left _ hp, hpn⟩
    · exact ⟨current, by simp, hcc⟩
  · intro n hn c hcc
    rw [hmem]
    rcases mem_append.1 hn with hold | hnew
    · exact .inl (hc.closed n hold c hcc)
    · rw [mem_singleton.1 hnew] at hcc
      exact .inr hcc

theorem Collecting.collectLoop {order : Nat → List Nat} (hc : s.Collecting path start collected stack)
    (hpr : ∀ n, (order n).Perm (s.childIDs n))
    (hfl : s.allNodes.length ≤ collected.length + fuel) :
    s.Collecting path start (collected ++ collectLoop order fuel stack) [] := by
  induction fuel generalizing collected stack with
  | zero =>
    have hle := (hc.nodup.subperm hc.live).length_le
    rw [length_append] at hle
    obtain rfl : stack = [] := length_eq_zero_iff.1 (by omega)
    rw [collectLoop, append_nil]
    exact hc
  | succ fuel ih =>
    cases stack with
    | nil =>
      rw [collectLoop, append_nil]
      · exact hc
      · simp
    | cons current stack =>
      rw [collectLoop, append_cons]
      apply ih (hc.push h (hpr current))
      rw [length_append, length_singleton]
      omega

structure IsBatch (s : LPRadixCache) (batch : List Nat) : Prop where
  live : ∀ n ∈ batch, n ∈ s.allNodes
  not_root : s.rootNode ∉ batch
  closed : ∀ n ∈ batch, ∀ c, s.IsChild n c → c ∈ batch

theorem isBatch_collectNodeAndChildren {order : Nat → List Nat} (hst : start ∈ s.allNodes)
    (hpr : ∀ n, (order n).Perm (s.childIDs n)) :
    s.IsBatch (s.collectNodeAndChildren order start) := by
  unfold collectNodeAndChildren
  split
  · exact ⟨by simp, by simp, by simp⟩
  rename_i hrt
  have hin : s.Collecting path start [] [start] := by
    refine ⟨by simp, ?_, ?_, by simp, ?_, by simp⟩
    · simpa using hst
    · simp
    · simp
  have hdn : s.Collecting path start ([] ++ collectLoop order s.allNodes.length [start]) [] :=
    hin.collectLoop h hpr (by simp)
  have hall := hdn.live
  have hcl := hdn.closed
  rw [append_nil] at hall
  simp only [append_nil] at hcl
  refine ⟨hall, fun hmem => ?_, hcl⟩
  have hpre := hdn.below s.rootNode (mem_append_left _ hmem)
  rw [h.root_path, prefix_nil] at hpre
  exact hrt (h.eq_root_of_path hst hpre)

theorem isBatch_nodesToEvict {order : MapOrder} (time : Int)
    (hnd : order.nodes.Perm s.allNodes) (hch : ∀ start n, (order.children start n).Perm (s.childIDs n)) :
    s.IsBatch (s.nodesToEvict order time) := by
  have hpr : ∀ start ∈ order.nodes, s.IsBatch (if start ≠ s.rootNode ∧ s.doesExceededTTL time start = true then
        s.collectNodeAndChildren (order.children start) start else []) := by
    intro start hst
    split
    · exact isBatch_collectNodeAndChildren h (hnd.mem_iff.1 hst) (hch start)
    · exact ⟨by simp, by simp, by simp⟩
  refine ⟨fun n hn => ?_, fun hn => ?_, fun n hn c hc => ?_⟩
  · obtain ⟨start, hst, hn⟩ := mem_flatMap.1 hn
    exact (hpr start hst).live n hn
  · obtain ⟨start, hst, hn⟩ := mem_flatMap.1 hn
    exact (hpr start hst).not_root hn
  · obtain ⟨start, hst, hn⟩ := mem_flatMap.1 hn
    exact mem_flatMap.2 ⟨start, hst, (hpr start hst).closed n hn c hc⟩

end

/-! ## A batch of evictions -/

def Remains (s₀ : LPRadixCache) (path : Nat → List Int) (evicted : List Nat) (n : Nat) : Prop :=
  n ∈ s₀.allNodes ∧ ∀ x ∈ evicted, ¬ path x <+: path n

structure Evicting (s₀ : LPRadixCache) (path : Nat → List Int) (evicted : List Nat) (s : LPRadixCache) : Prop where
  mid : s.MidBatch s₀.allNodes (Remains s₀ path evicted) path
  rootNode : s.rootNode = s₀.rootNode
  nextNodeID : s.nextNodeID = s₀.nextNodeID
  nodup : s.allNodes.Nodup
  allNodes : ∀ n, n ∈ s.allNodes ↔ n ∈ s₀.allNodes ∧ n ∉ evicted

variable {evicted batch : List Nat}

theorem Ok.evicting (h : s.Ok path) : Evicting s path [] s := by
  have hlv : Remains s path [] = (· ∈ s.allNodes) := by
    funext n
    simp [Remains]
  refine ⟨?_, rfl, rfl, h.nodup, by simp⟩
  rw [hlv]
  exact ⟨h.shape, h.pods, fun _ => id, fun n hn hnot => absurd hn hnot⟩

theorem Evicting.evictNode (h : Evicting s₀ path evicted s) (hx : x ∈ s₀.allNodes) (hne : x ≠ s₀.rootNode) :
    Evicting s₀ path (evicted ++ [x]) (s.evictNode x) := by
  rw [← h.rootNode] at hne
  obtain ⟨hrt, hnx, hall, -⟩ := evictNode_frame hne
  have hlv : Remains s₀ path (evicted ++ [x]) = Without (Remains s₀ path evicted) path x := by
    funext n
    simp only [Remains, Without, mem_append, mem_singleton, or_imp, forall_and, forall_eq, and_assoc]
  refine ⟨?_, hrt.trans h.rootNode, hnx.trans h.nextNodeID, ?_, fun n => ?_⟩
  · rw [hlv]
    refine h.mid.evictNode hx hne fun hdd n hn hpre => hdd ⟨hx, fun y hy hyx => ?_⟩
    exact hn.2 y hy (hyx.trans hpre)
  · rw [hall]
    exact h.nodup.erase x
  · rw [hall, h.nodup.mem_erase_iff, h.allNodes]
    simp only [mem_append, mem_singleton]
    tauto

theorem Evicting.foldl (h : Evicting s₀ path evicted s) (hbt : ∀ n ∈ batch, n ∈ s₀.allNodes ∧ n ≠ s₀.rootNode) :
    Evicting s₀ path (evicted ++ batch) (batch.foldl LPRadixCache.evictNode s) := by
  induction batch generalizing evicted s with
  | nil => simpa using h
  | cons x batch ih =>
    obtain ⟨hx, hrs⟩ := forall_mem_cons.1 hbt
    rw [append_cons]
    exact ih (h.evictNode hx.1 hx.2) hrs

theorem IsBatch.below (hbt : s.IsBatch batch) (hx : x ∈ batch) (hbl : s.Below x n) : n ∈ batch := by
  induction hbl with
  | refl => exact hx
  | tail _ hc ih => exact hbt.closed _ ih _ hc

theorem Ok.evictBatch (h : s.Ok path) (hbt : s.IsBatch batch) : (batch.foldl evictNode s).Ok path ∧
    ∀ n, n ∈ (batch.foldl evictNode s).allNodes ↔ n ∈ s.allNodes ∧ n ∉ batch := by
  have hdn : Evicting s path ([] ++ batch) _ := h.evicting.foldl fun n hn =>
    ⟨hbt.live n hn, fun hrt => hbt.not_root (hrt ▸ hn)⟩
  rw [nil_append] at hdn
  have hlv : Remains s path batch = (· ∈ (batch.foldl evictNode s).allNodes) := by
    funext n
    apply propext
    rw [hdn.allNodes]
    refine and_congr_right fun hn => ⟨fun hnot hmem => hnot n hmem prefix_rfl, fun hnot x hx hpre => hnot ?_⟩
    exact hbt.below hx (h.shape.below_of_isPrefix (hbt.live x hx) hn hpre)
  have hmid := hdn.mid
  rw [hlv] at hmid
  refine ⟨⟨hmid.shape, hmid.pods, hdn.nodup, fun n hn => ?_⟩, hdn.allNodes⟩
  rw [hdn.nextNodeID]
  exact h.numbered n ((hdn.allNodes n).1 hn).1

theorem value_evictBatch (hn : n ∉ batch) : ((batch.foldl evictNode s).nodes n).value = (s.nodes n).value := by
  induction batch generalizing s with
  | nil => rfl
  | cons x batch ih =>
    rw [mem_cons, not_or] at hn
    rw [foldl_cons, ih hn.2]
    obtain ⟨-, -, -, hfl⟩ := detach_frame s x
    obtain ⟨children, heq⟩ := hfl n
    have hcl : SameButLists (s.detach x) (s.cleanAbove x) := sameButLists_cleanParents
    unfold evictNode
    split
    · rfl
    · rw [nodes_modify, if_neg hn.1, (hcl.links n).value, heq]

/-! ## A node that is evicted twice -/

/-- Where a step finds nothing left to do for an element that it was done for, repeated elements may be dropped. -/
theorem foldl_eraseDups {σ α : Type} [DecidableEq α] {f : σ → α → σ} (inv : σ → Prop) (gone : σ → α → Prop)
    (hinv : ∀ s a, inv s → inv (f s a)) (hdn : ∀ s a, inv s → gone (f s a) a)
    (hgn : ∀ s a b, gone s a → gone (f s b) a) (hsk : ∀ s a, gone s a → f s a = s) {s : σ} (h : inv s) (l : List α) :
    l.eraseDups.foldl f s = l.foldl f s := by
  have hfl : ∀ {a s} (l : List α), gone s a → (l.filter fun b => !b == a).foldl f s = l.foldl f s := by
    intro a s l
    induction l generalizing s with
    | nil => exact fun _ => rfl
    | cons b l ih =>
      intro hs
      by_cases hb : b = a
      · subst hb
        simpa [hsk s b hs] using ih hs
      · simpa [hb] using ih (hgn s a b hs)
  induction hln : l.length using Nat.strong_induction_on generalizing l s with
  | _ length ih =>
    cases l with
    | nil => rfl
    | cons a l =>
      have hle := length_filter_le (fun b => !b == a) l
      rw [length_cons] at hln
      rw [eraseDups_cons, foldl_cons, foldl_cons, ih _ (by omega) (hinv s a h) _ rfl, hfl l (hdn s a h)]

def Gone (s : LPRadixCache) (x : Nat) : Prop := x = s.rootNode ∨ cleared (s.nodes x) = s.nodes x ∧ x ∉ s.allNodes

theorem gone_evictNode (hnd : s.allNodes.Nodup) : (s.evictNode x).Gone x := by
  by_cases hrt : x = s.rootNode
  · left
    rw [evictNode, if_pos hrt, hrt]
  obtain ⟨-, -, hall, -⟩ := evictNode_frame hrt
  refine .inr ⟨?_, ?_⟩
  · unfold evictNode
    rw [if_neg hrt]
    rw [nodes_modify, if_pos rfl]
    rfl
  · rw [hall, hnd.mem_erase_iff]
    simp

theorem cleared_eq_iff {a : TreeNode} : cleared a = a ↔
    a.parent = none ∧ a.children = ∅ ∧ a.modelToPods = ∅ ∧ a.directPods = ∅ ∧ a.value = [] ∧ a.key = [] := by
  constructor
  · intro h
    rw [← h]
    exact ⟨rfl, rfl, rfl, rfl, rfl, rfl⟩
  · rintro ⟨hpr, hch, hls, hdr, hvl, hkey⟩
    cases a
    simp_all [cleared]

theorem children_detach_of_empty (y : Nat) (h : (s.nodes x).children = ∅) : ((s.detach y).nodes x).children = ∅ := by
  unfold detach
  split
  · rw [nodes_modify]
    split
    · rw [h]
      rfl
    · exact h
  · exact h

theorem Gone.evictNode (h : s.Gone x) (y : Nat) : (s.evictNode y).Gone x := by
  by_cases hrt : y = s.rootNode
  · rw [LPRadixCache.evictNode, if_pos hrt]
    exact h
  obtain ⟨hsm, -, hall, -⟩ := evictNode_frame hrt
  rcases h with hx | ⟨hcr, hnot⟩
  · exact .inl (hsm ▸ hx)
  refine .inr ⟨?_, fun hmem => hnot (mem_of_mem_erase (hall ▸ hmem))⟩
  obtain ⟨hpr, hch, hls, hdr, hvl, hkey⟩ := cleared_eq_iff.1 hcr
  obtain ⟨-, -, -, hfl⟩ := detach_frame s y
  obtain ⟨children, heq⟩ := hfl x
  have hcl : SameButLists (s.detach y) (s.cleanAbove y) := sameButLists_cleanParents
  have hln := hcl.links x
  unfold LPRadixCache.evictNode
  rw [if_neg hrt]
  rw [nodes_modify]
  split
  · rfl
  · rw [cleared_eq_iff, hln.parent, hln.children, hcl.directPods, hln.value, hln.key,
      hcl.empty x (by rw [heq, hls]), children_detach_of_empty y hch, heq]
    exact ⟨hpr, rfl, rfl, hdr, hvl, hkey⟩

theorem evictNode_of_gone (h : s.Gone x) : s.evictNode x = s := by
  unfold evictNode
  split
  · rfl
  rename_i hrt
  obtain ⟨hcl, hnot⟩ := h.resolve_left hrt
  obtain ⟨hpr, -⟩ := cleared_eq_iff.1 hcl
  have hcn : s.cleanAbove x = s := by
    unfold cleanAbove detach
    rw [hpr, cleanParents_none]
  rw [hcn, erase_of_not_mem hnot]
  unfold modify
  rw [hcl, Function.update_eq_self]

theorem nodup_evictNode (h : s.allNodes.Nodup) (x : Nat) : (s.evictNode x).allNodes.Nodup := by
  by_cases hrt : x = s.rootNode
  · rw [evictNode, if_pos hrt]
    exact h
  · rw [(evictNode_frame hrt).2.2.1]
    exact h.erase x

theorem evict_eraseDups (h : s.allNodes.Nodup) (order : MapOrder) (time : Int) :
    (s.evict order time).1 = (s.evict order time).2.eraseDups.foldl evictNode s :=
  (foldl_eraseDups (fun s => s.allNodes.Nodup) Gone (fun _ x h => nodup_evictNode h x) (fun _ _ h => gone_evictNode h)
    (fun _ _ y h => h.evictNode y) (fun _ _ h => evictNode_of_gone h) h _).symm

structure Restricted (pods : List String) (s s' : LPRadixCache) (at_ : List Nat) : Prop where
  rootNode : s'.rootNode = s.rootNode
  allNodes : s'.allNodes = s.allNodes
  nextNodeID : s'.nextNodeID = s.nextNodeID
  links : ∀ n, TreeNode.SameLinks (s.nodes n) (s'.nodes n)
  lists : ∀ n model podName, s'.lists n model podName =
    (s.lists n model podName && (decide (n ∉ at_) || decide (podName ∈ pods)))
  direct : ∀ n model podName, s'.direct n model podName =
    (s.direct n model podName && (decide (n ∉ at_) || decide (podName ∈ pods)))

theorem restricted_foldl (pods : List String) (l : List Nat) (s : LPRadixCache) :
    Restricted pods s (l.foldl (fun s id => s.modify id (removePodsNotInSet pods)) s) l := by
  induction l generalizing s with
  | nil => exact ⟨rfl, rfl, rfl, fun _ => .refl _, by simp, by simp⟩
  | cons id l ih =>
    have h := ih (s.modify id (removePodsNotInSet pods))
    rw [foldl_cons]
    refine ⟨h.rootNode, h.allNodes, h.nextNodeID, fun n => ?_, fun n model podName => ?_, fun n model podName => ?_⟩
    · have hsl : ∀ a, TreeNode.SameLinks a (removePodsNotInSet pods a) := fun _ => ⟨rfl, rfl, rfl, rfl, rfl, rfl⟩
      exact (sameLinks_modify hsl n).trans (h.links n)
    · rw [h.lists]
      unfold lists
      rw [nodes_modify]
      by_cases hn : n = id
      · by_cases hpod : podName ∈ pods <;>
          simp [hn, hpod, removePodsNotInSet, PodTable.has_sweep, PodTable.has_restrict]
      · simp [hn]
    · rw [h.direct]
      unfold direct
      rw [nodes_modify]
      by_cases hn : n = id
      · by_cases hpod : podName ∈ pods <;>
          simp [hn, hpod, removePodsNotInSet, PodTable.has_sweep, PodTable.has_restrict]
      · simp [hn]

theorem Ok.removePods (h : s.Ok path) (pods : List String) : (s.removePods pods).Ok path := by
  have hall : Restricted pods s (s.removePods pods) s.allNodes := restricted_foldl pods s.allNodes s
  generalize s.removePods pods = s' at hall
  refine ⟨?_, ?_, ?_, ?_⟩
  · rw [hall.allNodes]
    exact h.shape.congr hall.rootNode fun n _ => hall.links n
  · intro n hn model podName
    rw [hall.allNodes] at hn
    have hch : ∀ c, s'.IsChild n c ∧ s'.lists c model podName = true ↔
        (s.IsChild n c ∧ s.lists c model podName = true) ∧ podName ∈ pods := by
      intro c
      unfold IsChild
      rw [(hall.links n).children, hall.lists, and_assoc]
      refine and_congr_right fun hc => ?_
      simp [h.shape.live_child hn hc]
    rw [exists_congr hch, hall.lists, hall.direct]
    simp only [hn, not_true_eq_false, decide_false, Bool.false_or, Bool.and_eq_true, decide_eq_true_eq,
      h.pods n hn model podName]
    tauto
  · rw [hall.allNodes]
    exact h.nodup
  · rw [hall.allNodes, hall.nextNodeID]
    exact h.numbered

/-! ## Runs -/

structure Shuffle where
  apply : List Nat → List Nat
  perm : ∀ l, (apply l).Perm l

inductive Op where
  | addPrefix (call : AddCall)
  | matchPrefix (now : Nat → Int) (tokens : List Int)
  | evict (time : Int) (nodes : Shuffle) (children : Nat → Nat → Shuffle)
  | removePods (currentPodSet : List String)

def order (s : LPRadixCache) (nodes : Shuffle) (children : Nat → Nat → Shuffle) : MapOrder where
  nodes := nodes.apply s.allNodes
  children start n := (children start n).apply (s.childIDs n)

def step (s : LPRadixCache) : Op → LPRadixCache
  | .addPrefix call => s.addCall call
  | .matchPrefix now tokens => (s.matchPrefixHelper now s.rootNode tokens).1
  | .evict time nodes children => (s.evict (s.order nodes children) time).1
  | .removePods currentPodSet => s.removePods currentPodSet

variable (now : Nat → Int)

def run (ops : List Op) : LPRadixCache := ops.foldl step (new now)

section

variable (h : s.Ok path)
include h

theorem Ok.addPrefix (call : AddCall) :
    let r := s.addPrefix call.now call.tokens call.model call.podName
    ∃ path', r.cache.Ok path' ∧ r.node ∈ r.cache.allNodes ∧ path' r.node = call.tokens ∧
      ∀ n ∈ s.allNodes, n ∈ r.cache.allNodes ∧ path' n = path n := by
  obtain ⟨path', hgr, hnd, hpt, -⟩ := h.inserts call.now call.tokens
  have hkp := fun n hn => (hgr.kept n hn).imp_right And.left
  refine ⟨path', ?_⟩
  unfold LPRadixCache.addPrefix
  split
  · exact ⟨hgr.ok, hnd, hpt, hkp⟩
  · have hmr := marked_addPod call.now call.model call.podName hgr.ok.shape hnd
    rw [hmr.allNodes]
    exact ⟨hgr.ok.addPod call.now hnd, hnd, hpt, hkp⟩

theorem Ok.touched (now : Nat → Int) (l : List Nat) : (l.foldl (touch now) s).Ok path := by
  induction l generalizing s with
  | nil => exact h
  | cons id l ih => exact ih (h.sameTree (.touch now s id))

theorem Ok.evict (time : Int) (nodes : Shuffle) (children : Nat → Nat → Shuffle) :
    let r := s.evict (s.order nodes children) time
    r.1.Ok path ∧ ∀ n, n ∈ r.1.allNodes ↔ n ∈ s.allNodes ∧ n ∉ r.2 :=
  h.evictBatch (isBatch_nodesToEvict h.shape time (nodes.perm _) fun start n => (children start n).perm _)

theorem Ok.step (op : Op) : ∃ path', (s.step op).Ok path' := by
  cases op with
  | addPrefix call =>
    obtain ⟨path', h', -⟩ := h.addPrefix call
    exact ⟨path', h'⟩
  | matchPrefix now tokens => exact ⟨path, h.touched now _⟩
  | evict time nodes children => exact ⟨path, (h.evict time nodes children).1⟩
  | removePods currentPodSet => exact ⟨path, h.removePods currentPodSet⟩

end

theorem ok_run (ops : List Op) : ∃ path, (run now ops).Ok path := by
  refine foldlRecOn (motive := fun s => ∃ path, s.Ok path) ops step ⟨_, .new now⟩ ?_
  rintro s ⟨path, h⟩ op -
  exact h.step op

/-- After any run a node lists the pods that are direct at or below it, and the nodes of the cache are those of the tree. -/
theorem run_lists_and_links (ops : List Op) :
    let s := run now ops
    (∀ n ∈ s.allNodes, ∀ model podName,
      s.lists n model podName = true ↔ ∃ m, s.Below n m ∧ s.direct m model podName = true) ∧
    (∀ n, n ∈ s.allNodes ↔ s.Below s.rootNode n) ∧
    (∀ n ∈ s.allNodes, n ≠ s.rootNode → ∃! edge : Nat × Int,
      edge.1 ∈ s.allNodes ∧ (s.nodes edge.1).children.lookup edge.2 = some n) ∧
    ∀ order time, (s.evict order time).1 = (s.evict order time).2.eraseDups.foldl evictNode s := by
  obtain ⟨path, h⟩ := ok_run now ops
  refine ⟨fun n hn => h.lists_iff hn, fun n => ⟨h.shape.root_below, fun hbelow => ?_⟩, fun n hn hroot => ?_,
    evict_eraseDups h.nodup⟩
  · exact (h.shape.of_below h.shape.root_live hbelow).1
  obtain ⟨p, hp, token, hc⟩ := h.shape.attached hn hroot
  refine ⟨(p, token), ⟨hp, hc⟩, ?_⟩
  rintro ⟨p', token'⟩ ⟨hp', hc'⟩
  obtain rfl := h.shape.parent_unique hp' hp ⟨token', hc'⟩ ⟨token, hc⟩
  rw [h.shape.token_unique hp hc hc']

end LPRadixCache

end Aibrix.RadixCache
