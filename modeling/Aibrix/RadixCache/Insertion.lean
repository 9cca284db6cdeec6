import Aibrix.RadixCache.Tree
import Mathlib.Data.Finset.Lattice.Fold

/-! # The pods of a node

A pod that gets a prefix is direct at the node of the prefix, and is listed there and at every node above.
-/

namespace Aibrix.RadixCache

open Lib List

namespace LPRadixCache

variable {s s' : LPRadixCache} {path : Nat → List Int} {live listsAt directAt : Nat → Prop} {n m node current : Nat}
  {model podName : String} (now : Nat → Int)

/-- One more pod, at the nodes that list it and at those that have it directly. -/
structure Marked (s : LPRadixCache) (listsAt directAt : Nat → Prop) (model podName : String) (s' : LPRadixCache) :
    Prop where
  rootNode : s'.rootNode = s.rootNode
  allNodes : s'.allNodes = s.allNodes
  nextNodeID : s'.nextNodeID = s.nextNodeID
  links : ∀ n, TreeNode.SameLinks (s.nodes n) (s'.nodes n)
  lists : ∀ n model' podName', s'.lists n model' podName' = true ↔
    s.lists n model' podName' = true ∨ listsAt n ∧ model' = model ∧ podName' = podName
  direct : ∀ n model' podName', s'.direct n model' podName' = true ↔
    s.direct n model' podName' = true ∨ directAt n ∧ model' = model ∧ podName' = podName

theorem Marked.of_nowhere (hnot : ∀ n, ¬ listsAt n) : Marked s listsAt (fun _ => False) model podName s where
  rootNode := rfl
  allNodes := rfl
  nextNodeID := rfl
  links _ := .refl _
  lists n _ _ := by simp [hnot n]
  direct _ _ _ := by simp

theorem Marked.trans {lists₁ lists₂ direct₁ direct₂ : Nat → Prop} {s₁ s₂ s₃ : LPRadixCache}
    (h : Marked s₁ lists₁ direct₁ model podName s₂) (h' : Marked s₂ lists₂ direct₂ model podName s₃)
    (hls : ∀ n, listsAt n ↔ lists₁ n ∨ lists₂ n) (hdr : ∀ n, directAt n ↔ direct₁ n ∨ direct₂ n) :
    Marked s₁ listsAt directAt model podName s₃ where
  rootNode := h'.rootNode.trans h.rootNode
  allNodes := h'.allNodes.trans h.allNodes
  nextNodeID := h'.nextNodeID.trans h.nextNodeID
  links n := (h.links n).trans (h'.links n)
  lists n model' podName' := by
    rw [h'.lists, h.lists, hls]
    tauto
  direct n model' podName' := by
    rw [h'.direct, h.direct, hdr]
    tauto

theorem Marked.shape (hmr : Marked s listsAt directAt model podName s') (h : s.Shape live path) : s'.Shape live path :=
  h.congr hmr.rootNode fun n _ => hmr.links n

theorem marked_initAndUpdateModelPod (s : LPRadixCache) (id : Nat) (model podName : String) :
    Marked s (· = id) (fun _ => False) model podName (s.initAndUpdateModelPod now model podName id) where
  rootNode := rfl
  allNodes := rfl
  nextNodeID := rfl
  links := sameLinks_modify fun _ => ⟨rfl, rfl, rfl, rfl, rfl, rfl⟩
  lists n model' podName' := by
    unfold lists initAndUpdateModelPod
    rw [nodes_modify]
    split
    · simp [PodTable.has_put, *]
    · simp [*]
  direct n model' podName' := by
    unfold direct initAndUpdateModelPod
    rw [nodes_modify]
    split <;> simp

theorem marked_directPods (s : LPRadixCache) (id : Nat) (model podName : String) :
    Marked s (fun _ => False) (· = id) model podName
      (s.modify id fun n => { n with directPods := n.directPods.put model podName () }) where
  rootNode := rfl
  allNodes := rfl
  nextNodeID := rfl
  links := sameLinks_modify fun _ => ⟨rfl, rfl, rfl, rfl, rfl, rfl⟩
  lists n model' podName' := by
    unfold lists
    rw [nodes_modify]
    split <;> simp
  direct n model' podName' := by
    unfold direct
    rw [nodes_modify]
    split
    · simp [PodTable.has_put, *]
    · simp [*]

theorem marked_updateParents (model podName : String) {fuel : Nat} (h : s.Shape live path) (hcr : live current)
    (hfl : (path current).length ≤ fuel) :
    Marked s (fun n => live n ∧ n ≠ current ∧ path n <+: path current) (fun _ => False) model podName
      (updateParents now model podName fuel s current) := by
  induction fuel generalizing s current with
  | zero =>
    refine .of_nowhere fun n hn => hn.2.1 ?_
    have hnil := length_eq_zero_iff.1 (Nat.le_zero.1 hfl)
    have hpre := hn.2.2
    rw [hnil, prefix_nil] at hpre
    exact h.path_injective hn.1 hcr (hpre.trans hnil.symm)
  | succ fuel ih =>
    unfold updateParents
    by_cases hrt : current = s.rootNode
    · subst hrt
      rw [h.root_parent]
      refine .of_nowhere fun n hn => hn.2.1 (h.eq_root_of_path hn.1 ?_)
      simpa [h.root_path] using hn.2.2
    obtain ⟨p, hp, hc⟩ := h.attached hcr hrt
    have hlt := h.length_lt hp hc
    have hst := marked_initAndUpdateModelPod now s p model podName
    rw [h.parent_child hp hc]
    refine hst.trans (ih (hst.shape h) hp (by omega)) (fun n => ?_) (by simp)
    constructor
    · rintro ⟨hn, hne, hpre⟩
      rw [or_iff_not_imp_left]
      exact fun hnp => ⟨hn, hnp, h.prefix_parent hn hp hc hne hpre⟩
    rintro (rfl | ⟨hn, -, hpre⟩)
    · refine ⟨hp, ?_, h.prefix_child hp hc⟩
      rintro rfl
      exact hlt.false
    · refine ⟨hn, ?_, hpre.trans (h.prefix_child hp hc)⟩
      rintro rfl
      exact absurd hpre.length_le (by omega)

theorem marked_addPod (model podName : String) (h : s.Shape live path) (hnd : live node) :
    Marked s (fun n => live n ∧ path n <+: path node) (· = node) model podName (s.addPod now model podName node) := by
  have hsl : Marked s (· = node) (· = node) model podName _ :=
    (marked_initAndUpdateModelPod now s node model podName).trans (marked_directPods _ node model podName) (by simp)
      (by simp)
  have hup := marked_updateParents now model podName (hsl.shape h) hnd ((hsl.shape h).context hnd).ge
  refine hsl.trans hup (fun n => ?_) (by simp)
  constructor
  · rintro ⟨hn, hpre⟩
    rw [or_iff_not_imp_left]
    exact fun hne => ⟨hn, hne, hpre⟩
  · rintro (rfl | ⟨hn, -, hpre⟩)
    · exact ⟨hnd, prefix_rfl⟩
    · exact ⟨hn, hpre⟩

theorem Ok.addPod (h : s.Ok path) (hnd : node ∈ s.allNodes) : (s.addPod now model podName node).Ok path := by
  have hmr := marked_addPod now model podName h.shape hnd
  generalize s.addPod now model podName node = s' at hmr
  refine ⟨?_, ?_, ?_, ?_⟩
  · rw [hmr.allNodes]
    exact hmr.shape h.shape
  · intro n hn model' podName'
    have hch : ∀ c, s'.IsChild n c ↔ s.IsChild n c := by
      intro c
      unfold IsChild
      rw [(hmr.links n).children]
    rw [hmr.allNodes] at hn
    simp only [hmr.lists, hmr.direct, hch, h.pods n hn model' podName']
    constructor
    · rintro ((hdr | ⟨c, hc, hls⟩) | ⟨⟨-, hpre⟩, hpod⟩)
      · exact .inl (.inl hdr)
      · exact .inr ⟨c, hc, .inl hls⟩
      by_cases hsl : n = node
      · exact .inl (.inr ⟨hsl, hpod⟩)
      · obtain ⟨c, hc, hbl⟩ := h.shape.exists_child_of_isPrefix hn hnd hsl hpre
        exact .inr ⟨c, hc, .inr ⟨⟨h.shape.live_child hn hc, hbl⟩, hpod⟩⟩
    · rintro ((hdr | ⟨rfl, hpod⟩) | ⟨c, hc, hls | ⟨⟨-, hpre⟩, hpod⟩⟩)
      · exact .inl (.inl hdr)
      · exact .inr ⟨⟨hn, prefix_rfl⟩, hpod⟩
      · exact .inl (.inr ⟨c, hc, hls⟩)
      · exact .inr ⟨⟨hn, (h.shape.prefix_child hn hc).trans hpre⟩, hpod⟩
  · rw [hmr.allNodes]
    exact h.nodup
  · rw [hmr.allNodes, hmr.nextNodeID]
    exact h.numbered

theorem Ok.lists_iff (h : s.Ok path) (hn : n ∈ s.allNodes) (model podName : String) :
    s.lists n model podName = true ↔ ∃ m, s.Below n m ∧ s.direct m model podName = true := by
  constructor
  · -- A child has more tokens, and no path is longer than the longest.
    intro hls
    have hle : ∀ n ∈ s.allNodes, (path n).length ≤ s.allNodes.toFinset.sup fun n => (path n).length :=
      fun n hn => Finset.le_sup (f := fun n => (path n).length) (List.mem_toFinset.2 hn)
    generalize s.allNodes.toFinset.sup (fun n => (path n).length) = bound at hle
    induction hrs : bound - (path n).length using Nat.strong_induction_on generalizing n with
    | _ rest ih =>
      rcases (h.pods n hn model podName).1 hls with hdr | ⟨c, hc, hls⟩
      · exact ⟨n, .refl, hdr⟩
      have hlv := h.shape.live_child hn hc
      have hlt := h.shape.length_lt hn hc
      have hbn := hle c hlv
      obtain ⟨m, hbl, hdr⟩ := ih (bound - (path c).length) (by omega) hlv hls rfl
      exact ⟨m, .head hc hbl, hdr⟩
  · rintro ⟨m, hbl, hdr⟩
    induction hbl using Relation.ReflTransGen.head_induction_on with
    | refl => exact (h.pods _ hn model podName).2 (.inl hdr)
    | head hc _ ih => exact (h.pods _ hn model podName).2 (.inr ⟨_, hc, ih (h.shape.live_child hn hc)⟩)

end LPRadixCache

/-! ## Adding a prefix

An insertion walks down as a match does, and then hangs a new node under the last one, or under a node that it splits.
-/

variable (key seq : List Int)

theorem matchLen_le_key : matchLen key seq ≤ key.length := by
  fun_induction matchLen key seq with
  | case1 a key seq ih => simpa using ih
  | case2 | case3 => omega

theorem matchLen_le_seq : matchLen key seq ≤ seq.length := by
  fun_induction matchLen key seq with
  | case1 a key seq ih => simpa using ih
  | case2 | case3 => omega

theorem take_matchLen : key.take (matchLen key seq) = seq.take (matchLen key seq) := by
  fun_induction matchLen key seq with
  | case1 a key seq ih => simp [ih]
  | case2 | case3 => rfl

theorem matchLen_pos {key seq : List Int} {token : Int} (hkey : key.head? = some token)
    (hseq : seq.head? = some token) : 0 < matchLen key seq := by
  obtain ⟨key, rfl⟩ := List.head?_eq_some_iff.1 hkey
  obtain ⟨seq, rfl⟩ := List.head?_eq_some_iff.1 hseq
  simp [matchLen]

theorem head?_drop_matchLen {key seq : List Int} {token : Int} (hkey : (key.drop (matchLen key seq)).head? = some token) :
    (seq.drop (matchLen key seq)).head? ≠ some token := by
  fun_induction matchLen key seq with
  | case1 a key seq ih => simpa using ih (by simpa using hkey)
  | case2 a key b seq hne =>
    rw [drop_zero, head?_cons, Option.some.injEq] at hkey
    rw [drop_zero, head?_cons, ne_eq, Option.some.injEq, ← hkey]
    omega
  | case3 key seq hcn =>
    cases key with
    | nil => simp at hkey
    | cons a key =>
      cases seq with
      | nil => simp
      | cons b seq => exact (hcn _ _ _ _ rfl rfl).elim

namespace LPRadixCache

variable {s s' : LPRadixCache} {path path' : Nat → List Int} {n c child current : Nat} {tokens rest : List Int}
  {first : Int} {model podName : String} (now : Nat → Int)

/-! ## The whole insertion -/

theorem walk_congr (hsm : ∀ n, (s'.nodes n).children = (s.nodes n).children ∧ (s'.nodes n).key = (s.nodes n).key)
    (fuel n : Nat) (tokens : List Int) : s'.walk fuel n tokens = s.walk fuel n tokens := by
  induction fuel generalizing n tokens with
  | zero => rfl
  | succ fuel ih =>
    cases tokens with
    | nil => rfl
    | cons first rest => simp only [walk, (hsm _).1, (hsm _).2, ih]

variable {fuel k offset : Nat}

theorem walk_fuel {fuel' : Nat} (n : Nat) (hfl : tokens.length ≤ fuel) (hfl' : tokens.length ≤ fuel') :
    s.walk fuel n tokens = s.walk fuel' n tokens := by
  induction fuel generalizing fuel' n tokens with
  | zero =>
    obtain rfl := length_eq_zero_iff.1 (Nat.le_zero.1 hfl)
    cases fuel' <;> rfl
  | succ fuel ih =>
    cases tokens with
    | nil => cases fuel' <;> rfl
    | cons first rest =>
      cases fuel' with
      | zero => simp at hfl'
      | succ fuel' =>
        unfold walk
        split
        · rfl
        rename_i child _
        dsimp only
        split
        · rfl
        have hdr : ((first :: rest).drop (matchLen (s.nodes child).key (first :: rest))).length ≤ rest.length := by
          rw [length_drop, length_cons]
          omega
        rw [length_cons] at hfl hfl'
        rw [ih child (by omega) (by omega : _ ≤ fuel')]

/-- The tree has the tokens, of which the first `k` were there. -/
def Inserts (tokens : List Int) (s : LPRadixCache) (path : Nat → List Int) (k : Nat) (r : Inserted) : Prop :=
  ∃ path', Grows tokens s path r.cache path' ∧ r.node ∈ r.cache.allNodes ∧ path' r.node = tokens ∧
    r.matched = tokens.take k ∧ r.unmatched = tokens.drop k

theorem Grows.inserts {r : Inserted} (h : Grows tokens s path s' path') (hr : Inserts tokens s' path' k r) :
    Inserts tokens s path k r := by
  obtain ⟨path'', hgr, hrs⟩ := hr
  exact ⟨path'', h.trans hgr, hrs⟩

/-- How many tokens a match finds after the first `offset` of them. -/
def found (s : LPRadixCache) (current : Nat) (tokens : List Int) (offset : Nat) : Nat :=
  (s.walk (tokens.length - offset) current (tokens.drop offset)).matched

theorem found_of_none (hdr : tokens.drop offset = first :: rest)
    (hnn : (s.nodes current).children.lookup first = none) : s.found current tokens offset = 0 := by
  unfold found
  rw [hdr]
  cases tokens.length - offset with
  | zero => rfl
  | succ fuel => simp [walk, hnn]

theorem found_of_some (hdr : tokens.drop offset = first :: rest)
    (hsm : (s.nodes current).children.lookup first = some child)
    (hk : matchLen (s.nodes child).key (first :: rest) = k) (hpos : 0 < k) : s.found current tokens offset =
      if k = (s.nodes child).key.length ∧ k < (first :: rest).length then k + s.found child tokens (offset + k)
      else k := by
  subst hk
  have hln := congrArg List.length hdr
  rw [length_drop, length_cons] at hln
  have hwl : (s.walk rest.length child ((first :: rest).drop (matchLen (s.nodes child).key (first :: rest)))).matched =
      s.found child tokens (offset + matchLen (s.nodes child).key (first :: rest)) := by
    unfold found
    rw [← drop_drop, hdr, walk_fuel child]
    · rw [length_drop, length_cons]
      omega
    · rw [length_drop, length_cons]
      omega
  rw [← hwl, found, hdr, hln]
  simp only [walk, hsm, hpos.ne', if_false]
  split <;> rfl

theorem Ok.splitNode (h : s.Ok path) (hcr : current ∈ s.allNodes)
    (hlk : (s.nodes current).children.lookup first = some child) (hpt : path current = tokens.take offset)
    (hdr : tokens.drop offset = first :: rest) (hk : matchLen (s.nodes child).key (first :: rest) = k)
    (hlt : k < (s.nodes child).key.length) :
    let r := s.splitNode now first child k
    ∃ path', Grows tokens s path r path' ∧
    s.nextNodeID ∈ r.allNodes ∧ path' s.nextNodeID = tokens.take (offset + k) ∧
    r.found s.nextNodeID tokens (offset + k) = 0 := by
  obtain ⟨hlv, hpr, hhd, hpathChild⟩ := h.shape.child hcr hlk
  have hpos : 0 < k := hk ▸ matchLen_pos hhd rfl
  have htk := take_matchLen (s.nodes child).key (first :: rest)
  have hup : tokens.take offset ++ (s.nodes child).key.take k = tokens.take (offset + k) := by
    rw [← hk, htk, ← hdr, ← take_add]
  obtain ⟨token, lower, hlw⟩ : ∃ token lower, (s.nodes child).key.drop k = token :: lower :=
    exists_cons_of_ne_nil (by rw [ne_eq, drop_eq_nil_iff]; omega)
  have hsp : s.HasSplit current child first ((s.nodes child).key.take k) token lower
      (s.splitNode now first child k) := by
    refine hasSplit_splitNode now hpr (h.shape.value hlv) ?_ (h.numbered current hcr).ne
      (h.numbered child hlv).ne rfl hlw
    rintro rfl
    exact (h.shape.length_lt hlv ⟨first, hlk⟩).false
  refine ⟨_, hsp.grows h hcr hlk ?_ ?_ ?_, ?_, ?_, ?_⟩
  · rw [← hlw, take_append_drop]
  · rw [List.head?_take, if_neg hpos.ne', hhd]
  · rw [hpt, hup]
    exact take_prefix _ _
  · exact mem_append_right _ (mem_singleton_self _)
  · rw [splitPath, Function.update_self, hpt, hup]
  cases hnx : tokens.drop (offset + k) with
  | nil =>
    unfold found
    rw [hnx]
    cases tokens.length - (offset + k) <;> rfl
  | cons next after =>
    have hne : next ≠ token := by
      rintro rfl
      have hkey : ((s.nodes child).key.drop (matchLen (s.nodes child).key (first :: rest))).head? = some next := by
        rw [hk, hlw, head?_cons]
      refine head?_drop_matchLen hkey ?_
      rw [hk, ← hdr, drop_drop, hnx, head?_cons]
    obtain ⟨lastAccess, hnd⟩ := hsp.upper
    apply found_of_none hnx
    rw [hnd, AList.lookup_insert_ne hne]
    rfl

theorem insertHelper_spec (h : s.Ok path) (hcr : current ∈ s.allNodes)
    (hpt : path current = tokens.take offset) (hof : offset < tokens.length ∨ tokens = [])
    (hfu : tokens.length - offset < fuel) : Inserts tokens s path (offset + s.found current tokens offset)
      (insertHelper now tokens tokens fuel s current offset) := by
  induction fuel generalizing s path current offset with
  | zero => omega
  | succ fuel ih =>
    have hsm := SameTree.touch now s current
    have hgr : Grows tokens s path (s.touch now current) path := .sameTree h hsm
    have h1 := h.sameTree hsm
    have hfn : (s.touch now current).found = s.found := by
      funext n tokens offset
      unfold found
      rw [walk_congr fun n => ⟨(hsm.links n).children, (hsm.links n).key⟩]
    rw [← hfn]
    rw [← hsm.allNodes] at hcr
    unfold insertHelper
    generalize s.touch now current = s1 at hgr h1 hcr
    apply hgr.inserts
    cases hdr : tokens.drop offset with
    | nil =>
      have hnil : tokens = [] := by
        rw [drop_eq_nil_iff] at hdr
        exact hof.resolve_left (by omega)
      subst hnil
      exact ⟨path, .refl h1, hcr, by simpa using hpt, by simp, by simp⟩
    | cons first rest =>
      have hsp : tokens.take offset ++ first :: rest = tokens := by rw [← hdr, take_append_drop]
      have hln := congrArg List.length hdr
      rw [length_drop] at hln
      cases hlk : (s1.nodes current).children.lookup first with
      | none =>
        simp only [hlk, found_of_none hdr hlk]
        have hlf : s1.HasLeaf current first rest (s1.addLeaf now current first (first :: rest) (first :: rest)) :=
          hasLeaf_addLeaf now (h1.numbered current hcr).ne hlk
        refine ⟨_, hlf.grows h1 hcr ?_, ?_, ?_, rfl, hdr.symm⟩
        · rw [hpt, hsp]
        · exact mem_append_right _ (mem_singleton_self _)
        · rw [leafPath, Function.update_self, hpt, hsp]
      | some child =>
        obtain ⟨hlv, -, hhd, hpathChild⟩ := h1.shape.child hcr hlk
        have hpos : 0 < matchLen (s1.nodes child).key (first :: rest) := matchLen_pos hhd rfl
        have hleKey := matchLen_le_key (s1.nodes child).key (first :: rest)
        have hleSeq := matchLen_le_seq (s1.nodes child).key (first :: rest)
        have htk := take_matchLen (s1.nodes child).key (first :: rest)
        simp only [hlk]
        rw [found_of_some hdr hlk rfl hpos]
        generalize hk : matchLen (s1.nodes child).key (first :: rest) = k at hpos hleKey hleSeq htk
        by_cases hfl : k = (s1.nodes child).key.length
        · -- The key of the child is matched as a whole.
          have hpathK : path child = tokens.take (offset + k) := by
            rw [hpathChild, hpt, take_add, hdr, ← htk, hfl, take_length]
          by_cases hall : k = (first :: rest).length
          · have hend : offset + k = tokens.length := by omega
            rw [if_pos hfl, if_pos hall, if_neg fun hlt => hlt.2.ne hall, hend]
            refine ⟨path, .sameTree h1 (.touch now s1 child), hlv, ?_, ?_, ?_⟩
            · rw [hpathK, hend, take_length]
            · rw [take_length]
            · rw [drop_length]
          · rw [if_pos hfl, if_neg hall, if_pos ⟨hfl, lt_of_le_of_ne hleSeq hall⟩, ← Nat.add_assoc]
            exact ih h1 hlv hpathK (.inl (by omega)) (by omega)
        · rw [if_neg hfl, if_neg fun hlt => hfl hlt.1]
          obtain ⟨path', hgr', hnew, hpathNew, hnn⟩ :=
            h1.splitNode now hcr hlk hpt hdr hk (lt_of_le_of_ne hleKey hfl)
          by_cases hend : offset + k = tokens.length
          · rw [if_pos hend, hend]
            refine ⟨path', hgr', hnew, ?_, ?_, ?_⟩
            · rw [hpathNew, hend, take_length]
            · rw [take_length]
            · rw [drop_length]
          · rw [if_neg hend]
            have hrs : Inserts tokens _ _ (offset + k + _) _ :=
              ih hgr'.ok hnew hpathNew (.inl (by omega)) (by omega)
            rw [hnn] at hrs
            exact hgr'.inserts hrs

end LPRadixCache

/-! ## What a match finds after any additions -/

open Option

namespace LPRadixCache

variable {s s' : LPRadixCache} {path path' : Nat → List Int} {live : Nat → Prop} {n m current : Nat}
  {tokens rest : List Int} {first : Int} {model podName : String} (now : Nat → Int)

/-! ## The way down -/

theorem Shape.child_of_isPrefix (h : s.Shape live path) (hn : live n) (hm : live m)
    (hpre : path n ++ first :: rest <+: path m) :
    ∃ c, (s.nodes n).children.lookup first = some c ∧ path c <+: path m := by
  have hne : n ≠ m := by
    rintro rfl
    have := hpre.length_le
    rw [length_append, length_cons] at this
    omega
  obtain ⟨c, ⟨token, hc⟩, hbl⟩ := h.exists_child_of_isPrefix hn hm hne ((prefix_append _ _).trans hpre)
  obtain ⟨rest', -, hpt⟩ := h.path_child hn hc
  rw [token_eq_of_isPrefix hpre (hpt ▸ hbl)]
  exact ⟨c, hc, hbl⟩

structure Reaches (live : Nat → Prop) (path : Nat → List Int) (start tokens : List Int) (w : Walk) : Prop where
  node : live w.node
  reached : start ++ tokens.take w.matched <+: path w.node
  first : ∀ m, live m → start ++ tokens.take w.matched <+: path m → path w.node <+: path m
  longest : ∀ m, live m → w.matched < tokens.length → ¬ start ++ tokens.take (w.matched + 1) <+: path m

theorem Reaches.stay (touched : List Nat) (hcr : live current)
    (hln : ∀ m, live m → 0 < tokens.length → ¬ path current ++ tokens.take 1 <+: path m) :
    Reaches live path (path current) tokens ⟨touched, current, 0⟩ where
  node := hcr
  reached := by simp
  first m _ hpre := by simpa using hpre
  longest := hln

theorem Reaches.down {k : Nat} {start : List Int} {w : Walk} (touched : List Nat) (hk : k ≤ tokens.length)
    (h : Reaches live path (start ++ tokens.take k) (tokens.drop k) w) :
    Reaches live path start tokens ⟨touched, w.node, k + w.matched⟩ where
  node := h.node
  reached := by
    rw [take_add, ← append_assoc]
    exact h.reached
  first m hm hpre := by
    rw [take_add, ← append_assoc] at hpre
    exact h.first m hm hpre
  longest m hm hlt hpre := by
    rw [add_assoc, take_add, ← append_assoc] at hpre
    refine h.longest m hm ?_ hpre
    rw [length_drop]
    dsimp only at hlt
    omega

theorem Shape.reaches_child {child : Nat} (h : s.Shape live path) (hcr : live current)
    (hlk : (s.nodes current).children.lookup first = some child) (touched : List Nat)
    (hend : ¬ (matchLen (s.nodes child).key (first :: rest) = (s.nodes child).key.length ∧
      matchLen (s.nodes child).key (first :: rest) < (first :: rest).length)) :
    Reaches live path (path current) (first :: rest)
      ⟨touched, child, matchLen (s.nodes child).key (first :: rest)⟩ := by
  obtain ⟨hlv, -, hhd, hpt⟩ := h.child hcr hlk
  have hpos : 0 < matchLen (s.nodes child).key (first :: rest) := matchLen_pos hhd rfl
  have htk := take_matchLen (s.nodes child).key (first :: rest)
  have hbl : ∀ {m k}, live m → 0 < k → path current ++ (first :: rest).take k <+: path m → path child <+: path m := by
    intro m k hm hk hpre
    obtain ⟨k, rfl⟩ := Nat.exists_eq_add_of_lt hk
    obtain ⟨c, hc, hpre⟩ := h.child_of_isPrefix hcr hm hpre
    rw [hlk] at hc
    exact some.inj hc ▸ hpre
  refine ⟨hlv, ?_, fun m hm => hbl hm hpos, fun m hm hlt hpre => ?_⟩
  · rw [hpt, ← htk]
    exact (prefix_append_right_inj _).2 ( take_prefix _ _)
  -- The path of `m` has the key of the child, and also the next token.
  have hkey := hbl hm (Nat.succ_pos _) hpre
  rw [hpt] at hkey
  have hsh := lt_of_le_of_ne (matchLen_le_key _ _) fun hfl => hend ⟨hfl, hlt⟩
  obtain ⟨a, lower, ha⟩ := exists_cons_of_ne_nil (List.drop_eq_nil_iff.not.2 hsh.not_ge)
  obtain ⟨b, after, hb⟩ := exists_cons_of_ne_nil (List.drop_eq_nil_iff.not.2 hlt.not_ge)
  rw [take_add, hb, ← htk, ← append_assoc] at hpre
  rw [← take_append_drop (matchLen (s.nodes child).key (first :: rest)) (s.nodes child).key, ha,
    ← append_assoc] at hkey
  refine head?_drop_matchLen (by rw [ha, head?_cons]) ?_
  rw [hb, head?_cons, token_eq_of_isPrefix hkey hpre]

theorem Shape.walk {fuel : Nat} (h : s.Shape live path) (hcr : live current) (hfu : tokens.length ≤ fuel) :
    Reaches live path (path current) tokens (s.walk fuel current tokens) := by
  induction fuel generalizing current tokens with
  | zero =>
    obtain rfl := length_eq_zero_iff.1 (Nat.le_zero.1 hfu)
    exact .stay _ hcr (by simp)
  | succ fuel ih =>
    cases tokens with
    | nil => exact .stay _ hcr (by simp)
    | cons first rest =>
      cases hlk : (s.nodes current).children.lookup first with
      | none =>
        simp only [LPRadixCache.walk, hlk]
        refine .stay _ hcr fun m hm _ hpre => ?_
        obtain ⟨c, hc, -⟩ := h.child_of_isPrefix hcr hm hpre
        rw [hlk] at hc
        cases hc
      | some child =>
        obtain ⟨hlv, -, hhd, hpt⟩ := h.child hcr hlk
        have hpos : 0 < matchLen (s.nodes child).key (first :: rest) := matchLen_pos hhd rfl
        simp only [LPRadixCache.walk, hlk, hpos.ne', if_false]
        split
        · rename_i hfl
          refine .down _ hfl.2.le ?_
          rw [← take_matchLen, hfl.1, take_length, ← hpt]
          apply ih hlv
          rw [length_drop]
          omega
        · rename_i hend
          exact h.reaches_child hcr hlk _ hend

/-! ## Additions -/

structure AddCall where
  now : Nat → Int
  tokens : List Int
  model : String
  podName : String

def addCall (s : LPRadixCache) (call : AddCall) : LPRadixCache :=
  (s.addPrefix call.now call.tokens call.model call.podName).cache

def addAll (now : Nat → Int) (calls : List AddCall) : LPRadixCache := calls.foldl addCall (new now)

structure Holds (calls : List AddCall) (s : LPRadixCache) (path : Nat → List Int) : Prop where
  ok : s.Ok path
  added : ∀ call ∈ calls, ∃ n ∈ s.allNodes, path n = call.tokens
  known : ∀ n ∈ s.allNodes, path n = [] ∨ ∃ call ∈ calls, path n <+: call.tokens
  direct : ∀ n ∈ s.allNodes, ∀ model podName, s.direct n model podName = true ↔
    podName ≠ "" ∧ ∃ call ∈ calls, call.tokens = path n ∧ call.model = model ∧ call.podName = podName

variable {calls : List AddCall} {call : AddCall}

theorem Holds.new : Holds [] (new now) fun _ => [] := by
  refine ⟨.new now, by simp, fun _ _ => .inl rfl, ?_⟩
  intro n hn model podName
  obtain rfl : n = 0 := mem_singleton.1 hn
  simp [LPRadixCache.direct, LPRadixCache.new, newTreeNode]

theorem Ok.inserts (h : s.Ok path) (tokens : List Int) :
    Inserts tokens s path (s.walk tokens.length s.rootNode tokens).matched
      (insertHelper now tokens tokens (tokens.length + 1) s s.rootNode 0) := by
  have hsp : Inserts tokens s path (0 + s.found s.rootNode tokens 0) _ :=
    insertHelper_spec now h h.shape.root_live h.shape.root_path (by cases tokens <;> simp) (Nat.lt_succ_self _)
  rwa [zero_add] at hsp

section

variable (h : Holds calls s path)
include h

theorem Holds.direct_grows (hgr : Grows tokens s path s' path') (hn : n ∈ s'.allNodes)
    (model podName : String) : s'.direct n model podName = true ↔
      podName ≠ "" ∧ ∃ call ∈ calls, call.tokens = path' n ∧ call.model = model ∧ call.podName = podName := by
  by_cases hold : n ∈ s.allNodes
  · obtain ⟨-, hpt, hpd⟩ := hgr.kept n hold
    rw [hpt, ← h.direct n hold]
    unfold LPRadixCache.direct
    rw [hpd]
  have hem : s'.direct n model podName = false := by
    unfold LPRadixCache.direct
    rw [(hgr.added n hn hold).2]
    rfl
  rw [hem]
  apply iff_of_false Bool.false_ne_true
  rintro ⟨-, call, hcl, htk, -⟩
  obtain ⟨m, hm, hpt⟩ := h.added call hcl
  obtain ⟨hm', hpt', -⟩ := hgr.kept m hm
  have heq := hgr.ok.shape.path_injective hm' hn (hpt'.trans (hpt.trans htk))
  exact hold (heq ▸ hm)

theorem Holds.added_grows (hgr : Grows call.tokens s path s' path') {node : Nat}
    (hnd : node ∈ s'.allNodes) (hpt : path' node = call.tokens) :
    ∀ c ∈ calls ++ [call], ∃ n ∈ s'.allNodes, path' n = c.tokens := by
  intro c hc
  rcases mem_append.1 hc with hold | hnew
  · obtain ⟨n, hn, hph⟩ := h.added c hold
    obtain ⟨hn', hpt', -⟩ := hgr.kept n hn
    exact ⟨n, hn', hpt'.trans hph⟩
  · rw [mem_singleton.1 hnew]
    exact ⟨node, hnd, hpt⟩

theorem Holds.known_grows (hgr : Grows call.tokens s path s' path') :
    ∀ n ∈ s'.allNodes, path' n = [] ∨ ∃ c ∈ calls ++ [call], path' n <+: c.tokens := by
  intro n hn
  by_cases hold : n ∈ s.allNodes
  · rw [(hgr.kept n hold).2.1]
    apply (h.known n hold).imp_right
    rintro ⟨c, hc, hpre⟩
    exact ⟨c, mem_append_left _ hc, hpre⟩
  · exact .inr ⟨call, by simp, (hgr.added n hn hold).1⟩

theorem Holds.of_inserted {r : Inserted}
    (hr : insertHelper call.now call.tokens call.tokens (call.tokens.length + 1) s s.rootNode 0 = r)
    (hgr : Grows call.tokens s path r.cache path') (hnd : r.node ∈ r.cache.allNodes)
    (hpt : path' r.node = call.tokens) : Holds (calls ++ [call]) (s.addCall call) path' := by
  unfold LPRadixCache.addCall addPrefix
  rw [hr]
  have had := h.added_grows hgr hnd hpt
  have hkn := h.known_grows hgr
  by_cases hpod : call.podName = ""
  · rw [if_pos hpod]
    refine ⟨hgr.ok, had, hkn, fun n hn model podName => ?_⟩
    rw [h.direct_grows hgr hn]
    refine and_congr_right fun hne => ?_
    simp [hpod, Ne.symm hne]
  rw [if_neg hpod]
  have hmr := marked_addPod call.now call.model call.podName hgr.ok.shape hnd
  refine ⟨hgr.ok.addPod call.now hnd, ?_, ?_, ?_⟩
  · rw [hmr.allNodes]
    exact had
  · rw [hmr.allNodes]
    exact hkn
  intro n hn model podName
  rw [hmr.allNodes] at hn
  have hsl : n = r.node ↔ call.tokens = path' n := by
    rw [← hpt]
    exact ⟨fun heq => heq ▸ rfl, fun heq => (hgr.ok.shape.path_injective hnd hn heq).symm⟩
  rw [hmr.direct, h.direct_grows hgr hn, hsl]
  constructor
  · rintro (⟨hne, c, hc, hrs⟩ | ⟨htk, rfl, rfl⟩)
    · exact ⟨hne, c, mem_append_left _ hc, hrs⟩
    · exact ⟨hpod, call, by simp, htk, rfl, rfl⟩
  rintro ⟨hne, c, hc, hrs⟩
  rcases mem_append.1 hc with hold | hnew
  · exact .inl ⟨hne, c, hold, hrs⟩
  · rw [mem_singleton.1 hnew] at hrs
    exact .inr ⟨hrs.1, hrs.2.1.symm, hrs.2.2.symm⟩

theorem Holds.addCall (call : AddCall) : ∃ path', Holds (calls ++ [call]) (s.addCall call) path' := by
  obtain ⟨path', hgr, hnd, hpt, -, -⟩ := h.ok.inserts call.now call.tokens
  exact ⟨path', h.of_inserted rfl hgr hnd hpt⟩

end

theorem holds_addAll (calls : List AddCall) : ∃ path, Holds calls (addAll now calls) path := by
  induction calls using List.reverseRecOn with
  | nil => exact ⟨_, .new now⟩
  | append_singleton calls call ih =>
    obtain ⟨path, h⟩ := ih
    unfold addAll at h ⊢
    rw [foldl_append]
    exact h.addCall call

/-! ## Lengths -/

theorem matchLen_of_isPrefix {key seq : List Int} (h : key <+: seq) : matchLen key seq = key.length := by
  obtain ⟨rest, rfl⟩ := h
  induction key with
  | nil => cases rest <;> rfl
  | cons a key ih => simp [matchLen, ih]

theorem isPrefix_take_matchLen {p key seq : List Int} (hkey : p <+: key) (hseq : p <+: seq) :
    p <+: seq.take (matchLen key seq) := by
  induction p generalizing key seq with
  | nil => exact nil_prefix
  | cons a p ih =>
    obtain ⟨key, rfl⟩ := hkey
    obtain ⟨seq, rfl⟩ := hseq
    simpa [matchLen] using ih (prefix_append p key) (prefix_append p seq)

/-- What the tokens of a call share with those of an earlier one. -/
def shared (past call : AddCall) : List Int := call.tokens.take (matchLen past.tokens call.tokens)

/-- No call splits a node: it leaves the tokens of each earlier call at the root or where the tokens of a call ended. -/
def NoSplit (calls : List AddCall) : Prop :=
  ∀ before call after, calls = before ++ call :: after → ∀ past ∈ before,
    shared past call = [] ∨ ∃ other ∈ before, other.tokens = shared past call

structure Deep (s : LPRadixCache) : Prop where
  root : (s.nodes s.rootNode).depth = 0
  child : ∀ n ∈ s.allNodes, ∀ p, (s.nodes n).parent = some p → (s.nodes n).depth = (s.nodes p).depth + 1

theorem Deep.congr (h : s.Deep) (hrt : s'.rootNode = s.rootNode) (hall : s'.allNodes = s.allNodes)
    (hsm : ∀ n, TreeNode.SameLinks (s.nodes n) (s'.nodes n)) : s'.Deep where
  root := by rw [hrt, (hsm _).depth, h.root]
  child n hn p hp := by
    rw [(hsm n).depth, (hsm p).depth]
    exact h.child n (hall ▸ hn) p ((hsm n).parent ▸ hp)

theorem Deep.leaf (h : s.Deep) (hok : s.Ok path) (hcr : current ∈ s.allNodes) {first : Int} {rest : List Int}
    (hlf : s.HasLeaf current first rest s') : s'.Deep := by
  have hold (n : Nat) (hn : n ∈ s.allNodes) : (s'.nodes n).depth = (s.nodes n).depth ∧
      (s'.nodes n).parent = (s.nodes n).parent := by
    rw [hlf.same (hok.numbered n hn).ne]
    exact ⟨rfl, rfl⟩
  obtain ⟨lastAccess, hleaf⟩ := hlf.leaf
  refine ⟨by rw [hlf.rootNode, (hold _ hok.shape.root_live).1, h.root], fun n hn p hp => ?_⟩
  rw [hlf.allNodes] at hn
  rcases mem_append.1 hn with hn | hn
  · rw [(hold n hn).2] at hp
    have hlive : p ∈ s.allNodes := by
      obtain ⟨m, hm, hc⟩ := hok.shape.attached hn fun hroot => by simp [hroot, hok.shape.root_parent] at hp
      rw [hok.shape.parent_child hm hc] at hp
      exact Option.some.inj hp ▸ hm
    rw [(hold n hn).1, (hold p hlive).1, h.child n hn p hp]
  · rw [mem_singleton.1 hn, hleaf] at hp ⊢
    rw [← Option.some.inj hp, (hold current hcr).1]

/-- Every child that the tokens lead into lies on their way. -/
def LeadsOn (s : LPRadixCache) (path : Nat → List Int) (tokens : List Int) : Prop :=
  ∀ n token c, n ∈ s.allNodes → (s.nodes n).children.lookup token = some c → path n ++ [token] <+: tokens →
    path c <+: tokens

theorem Deep.insertHelper (fuel : Nat) {offset : Nat} (hd : s.Deep) (h : s.Ok path) (hcr : current ∈ s.allNodes)
    (hpt : path current = tokens.take offset) (hle : offset ≤ tokens.length) (hon : s.LeadsOn path tokens) :
    let r := insertHelper now tokens tokens fuel s current offset
    r.cache.Deep ∧ ∀ n ∈ r.cache.allNodes, n ∈ s.allNodes ∨ n = r.node := by
  induction fuel generalizing s current offset with
  | zero => exact ⟨hd, fun n hn => .inl hn⟩
  | succ fuel ih =>
    have hsm := SameTree.touch now s current
    have hd1 := hd.congr hsm.rootNode hsm.allNodes hsm.links
    have h1 := h.sameTree hsm
    have hon1 : (s.touch now current).LeadsOn path tokens := fun n token c hn hc hpre =>
      hon n token c (hsm.allNodes ▸ hn) ((hsm.links n).children ▸ hc) hpre
    unfold LPRadixCache.insertHelper
    rw [← hsm.allNodes] at hcr ⊢
    generalize s.touch now current = s1 at hd1 h1 hcr hon1
    cases hdr : tokens.drop offset with
    | nil => exact ⟨hd1, fun n hn => .inl hn⟩
    | cons first rest =>
      have hsp : tokens.take offset ++ first :: rest = tokens := by rw [← hdr, take_append_drop]
      cases hlk : (s1.nodes current).children.lookup first with
      | none =>
        simp only [hlk]
        have hlf : s1.HasLeaf current first rest (s1.addLeaf now current first (first :: rest) (first :: rest)) :=
          hasLeaf_addLeaf now (h1.numbered current hcr).ne hlk
        refine ⟨hd1.leaf h1 hcr hlf, fun n hn => ?_⟩
        rw [hlf.allNodes] at hn
        exact (mem_append.1 hn).imp_right mem_singleton.1
      | some child =>
        obtain ⟨hlv, -, -, hpathChild⟩ := h1.shape.child hcr hlk
        have hkey : (s1.nodes child).key <+: first :: rest := by
          have hto : path child <+: tokens := by
            refine hon1 current first child hcr hlk ?_
            rw [hpt]
            exact ⟨rest, by rw [append_assoc, singleton_append, hsp]⟩
          rw [hpathChild, hpt] at hto
          nth_rewrite 2 [← hsp] at hto
          exact (prefix_append_right_inj _).1 hto
        have hk := matchLen_of_isPrefix hkey
        simp only [hlk, hk, if_true]
        split
        · exact ⟨hd1.congr rfl rfl (SameTree.touch now s1 child).links, fun n hn => .inl hn⟩
        · have hlen : (s1.nodes child).key.length ≤ (tokens.drop offset).length := hdr ▸ hkey.length_le
          rw [length_drop] at hlen
          refine ih hd1 h1 hlv ?_ (by omega) hon1
          rw [hpathChild, hpt, take_add, hdr, prefix_iff_eq_take.1 hkey, length_take,
            Nat.min_eq_left hkey.length_le]

theorem Holds.leadsOn (h : Holds calls s path) (hends : ∀ n ∈ s.allNodes, path n = [] ∨ ∃ past ∈ calls, past.tokens = path n)
    (hparts : ∀ past ∈ calls, shared past call = [] ∨ ∃ other ∈ calls, other.tokens = shared past call) :
    s.LeadsOn path call.tokens := by
  intro n token c hn hc hpre
  obtain ⟨hlv, -, hhd, hpt⟩ := h.ok.shape.child hn hc
  obtain ⟨rest, hkey⟩ := head?_eq_some_iff.1 hhd
  have hbegin : path n ++ [token] <+: path c := ⟨rest, by rw [hpt, hkey, append_assoc, singleton_append]⟩
  obtain ⟨past, hpast, heq⟩ := (hends c hlv).resolve_left (by rw [hpt, hkey]; simp)
  have hshared : path n ++ [token] <+: shared past call := isPrefix_take_matchLen (heq ▸ hbegin) hpre
  obtain ⟨other, hother, hend⟩ := (hparts past hpast).resolve_left fun hnil => by simp [hnil] at hshared
  obtain ⟨m, hm, hpathM⟩ := h.added other hother
  rw [← hend, ← hpathM] at hshared
  obtain ⟨c', hc', hbelow⟩ := h.ok.shape.child_of_isPrefix hn hm hshared
  obtain rfl : c' = c := Option.some.inj (hc'.symm.trans hc)
  rw [hpathM, hend] at hbelow
  exact hbelow.trans <| take_prefix _ _

theorem deep_addAll (hsplit : NoSplit calls) : ∃ path, Holds calls (addAll now calls) path ∧ (addAll now calls).Deep ∧
    ∀ n ∈ (addAll now calls).allNodes, path n = [] ∨ ∃ past ∈ calls, past.tokens = path n := by
  induction calls using List.reverseRecOn with
  | nil =>
    refine ⟨_, .new now, ⟨rfl, fun n hn p hp => ?_⟩, fun _ _ => .inl rfl⟩
    obtain rfl : n = 0 := mem_singleton.1 hn
    exact absurd hp nofun
  | append_singleton calls call ih =>
    obtain ⟨path, h, hd, hends⟩ := ih fun before call' after heq => hsplit before call' (after ++ [call]) (by simp [heq])
    have hon := h.leadsOn hends (hsplit calls call [] rfl)
    have hstep : addAll now (calls ++ [call]) = (addAll now calls).addCall call := by
      unfold addAll
      rw [foldl_append]
      rfl
    rw [hstep]
    obtain ⟨path', hgr, hnd, hpt, -, -⟩ := h.ok.inserts call.now call.tokens
    have hstart : path (addAll now calls).rootNode = call.tokens.take 0 := h.ok.shape.root_path
    obtain ⟨hdeep, hnew⟩ := hd.insertHelper call.now (call.tokens.length + 1) h.ok h.ok.shape.root_live hstart
      (Nat.zero_le _) hon
    have hrest : ∀ n ∈ (LPRadixCache.insertHelper call.now call.tokens call.tokens (call.tokens.length + 1)
        (addAll now calls) (addAll now calls).rootNode 0).cache.allNodes,
        path' n = [] ∨ ∃ past ∈ calls ++ [call], past.tokens = path' n := by
      intro n hn
      rcases hnew n hn with hold | rfl
      · rw [(hgr.kept n hold).2.1]
        exact (hends n hold).imp_right fun ⟨past, hpast, heq⟩ => ⟨past, mem_append_left _ hpast, heq⟩
      · exact .inr ⟨call, by simp, hpt.symm⟩
    refine ⟨path', h.of_inserted rfl hgr hnd hpt, ?_⟩
    unfold LPRadixCache.addCall addPrefix
    dsimp only
    split
    · exact ⟨hdeep, hrest⟩
    · have hmr := marked_addPod call.now call.model call.podName hgr.ok.shape hnd
      rw [hmr.allNodes]
      exact ⟨hdeep.congr hmr.rootNode hmr.allNodes hmr.links, hrest⟩

/-- Every node stands for a prefix, the keys on the way from the root one after the other; its depth is the number of
edges on that way as long as no node is split. -/
theorem addAll_lengths (calls : List AddCall) : let s := addAll now calls
    (∃ path : Nat → List Int, path s.rootNode = [] ∧ ∀ n ∈ s.allNodes, s.Below s.rootNode n ∧
      (s.nodes n).contextLength = (path n).length ∧ (s.nodes n).value.length = (s.nodes n).key.length ∧
      ∀ c, s.IsChild n c → c ∈ s.allNodes ∧ path c = path n ++ (s.nodes c).key) ∧
    (NoSplit calls → (s.nodes s.rootNode).depth = 0 ∧
      ∀ n ∈ s.allNodes, ∀ c, s.IsChild n c → (s.nodes c).depth = (s.nodes n).depth + 1) := by
  obtain ⟨path, h⟩ := holds_addAll now calls
  have hsh := h.ok.shape
  refine ⟨⟨path, hsh.root_path, fun n hn => ⟨hsh.root_below hn, hsh.context hn, congrArg length (hsh.value hn), ?_⟩⟩,
    fun hsplit => ?_⟩
  · rintro c ⟨token, hc⟩
    obtain ⟨hlv, -, -, hpt⟩ := hsh.child hn hc
    exact ⟨hlv, hpt⟩
  · obtain ⟨-, -, hdeep, -⟩ := deep_addAll now hsplit
    exact ⟨hdeep.root, fun n hn c hc => hdeep.child c (hsh.live_child hn hc) n (hsh.parent_child hn hc)⟩

theorem addAll_lengths_extended :
    let s := addAll (fun _ => 0) [⟨fun _ => 0, [1], "", ""⟩, ⟨fun _ => 0, [1, 3], "", ""⟩]
    (s.nodes s.rootNode).depth = 0 ∧ ∀ n ∈ s.allNodes, ∀ c, s.IsChild n c → (s.nodes c).depth = (s.nodes n).depth + 1 := by
  refine (addAll_lengths (fun _ => 0) _).2 fun before call after heq past hpast => ?_
  match before, heq with
  | [], _ => cases hpast
  | [_], heq =>
    simp only [cons_append, nil_append, cons.injEq] at heq
    obtain ⟨rfl, rfl, rfl⟩ := heq
    obtain rfl := mem_singleton.1 hpast
    exact .inr ⟨_, mem_singleton_self _, rfl⟩
  | _ :: _ :: _, heq => simp at heq

/-- A split leaves the depth of the node that it moves down. -/
theorem split_keeps_depth :
    let s := addAll (fun _ => 0) [⟨fun _ => 0, [1, 2], "", ""⟩, ⟨fun _ => 0, [1, 3], "", ""⟩]
    IsChain s.IsChild [s.rootNode, 2, 1] ∧ (s.nodes 1).depth = 1 := by
  refine ⟨.cons_cons ⟨1, ?_⟩ (.cons_cons ⟨2, ?_⟩ (.singleton 1)), ?_⟩ <;> decide

/-! ## Queries -/

structure IsLongestCommonPrefix (lists : List (List Int)) (query common : List Int) : Prop where
  of_query : common <+: query
  shared : common = [] ∨ ∃ l ∈ lists, common <+: l
  longest : ∀ p, p <+: query → ∀ l ∈ lists, p <+: l → p <+: common

section

variable (h : Holds calls s path)
include h

theorem Holds.reaches (tokens : List Int) :
    Reaches (· ∈ s.allNodes) path [] tokens (s.walk tokens.length s.rootNode tokens) :=
  h.ok.shape.root_path ▸ h.ok.shape.walk h.ok.shape.root_live le_rfl

theorem Holds.isLongestCommonPrefix (tokens : List Int) :
    IsLongestCommonPrefix (calls.map (·.tokens)) tokens
      (tokens.take (s.walk tokens.length s.rootNode tokens).matched) := by
  have hrc := h.reaches tokens
  generalize s.walk tokens.length s.rootNode tokens = w at hrc
  refine ⟨ take_prefix _ _, ?_, ?_⟩
  · have hrh := hrc.reached
    rcases h.known w.node hrc.node with hnil | ⟨call, hcl, hpre⟩
    · rw [hnil, prefix_nil] at hrh
      exact .inl hrh
    · exact .inr ⟨call.tokens, mem_map_of_mem hcl, hrh.trans hpre⟩
  intro p hqr l hl hpre
  obtain ⟨call, hcl, rfl⟩ := mem_map.1 hl
  obtain ⟨m, hm, hpt⟩ := h.added call hcl
  apply prefix_of_prefix_length_le hqr ( take_prefix _ _)
  by_contra hln
  have hlg := hqr.length_le
  rw [length_take] at hln
  apply hrc.longest m hm (by omega)
  rw [nil_append, hpt]
  refine .trans (prefix_of_prefix_length_le ( take_prefix _ _) hqr ?_) hpre
  rw [length_take]
  omega

omit h in
theorem generatePodKey_ne_empty (pod : Pod) : generatePodKey pod ≠ "" := by
  unfold generatePodKey
  intro h
  have := congrArg String.length h
  simp at this

/-- Some call added tokens for the model and the pod that start with the given ones. -/
def HasPrefix (calls : List AddCall) (tokens : List Int) (model : String) (pod : Pod) : Prop :=
  ∃ call ∈ calls, call.model = model ∧ call.podName = generatePodKey pod ∧ tokens <+: call.tokens

instance (calls : List AddCall) (tokens : List Int) (model : String) (pod : Pod) :
    Decidable (HasPrefix calls tokens model pod) :=
  inferInstanceAs (Decidable (∃ call ∈ calls, _))

theorem Holds.lists_iff (tokens : List Int) (model : String) (pod : Pod) :
    let r := s.walk tokens.length s.rootNode tokens
    s.lists r.node model (generatePodKey pod) = true ↔ HasPrefix calls (tokens.take r.matched) model pod := by
  intro r
  have hrc := h.reaches tokens
  have hrh := hrc.reached
  rw [h.ok.lists_iff hrc.node]
  constructor
  · rintro ⟨m, hbl, hdr⟩
    obtain ⟨hm, hpre⟩ := h.ok.shape.of_below hrc.node hbl
    obtain ⟨-, call, hcl, htk, hmd, hpod⟩ := (h.direct m hm _ _).1 hdr
    exact ⟨call, hcl, hmd, hpod, htk ▸ hrh.trans hpre⟩
  rintro ⟨call, hcl, hmd, hpod, hpre⟩
  obtain ⟨m, hm, hpt⟩ := h.added call hcl
  refine ⟨m, h.ok.shape.below_of_isPrefix hrc.node hm (hrc.first m hm ?_), ?_⟩
  · rw [nil_append, hpt]
    exact hpre
  · exact (h.direct m hm _ _).2 ⟨generatePodKey_ne_empty pod, call, hcl, hpt.symm, hmd, hpod⟩

omit h in
theorem lists_touched (l : List Nat) (s : LPRadixCache) (n : Nat) (model podName : String) :
    (l.foldl (touch now) s).lists n model podName = s.lists n model podName := by
  induction l generalizing s with
  | nil => rfl
  | cons id l ih =>
    rw [foldl_cons, ih]
    unfold lists
    rw [(SameTree.touch now s id).modelToPods]

theorem Holds.matchPrefix (tokens : List Int) (model : String) (pods : List Pod) :
    (s.matchPrefix now tokens model pods).2 =
      let matched := (s.matchPrefixHelper now s.rootNode tokens).2.2
      (matched, tokens.drop matched.length,
        if matched = [] then [] else pods.filter fun pod => HasPrefix calls matched model pod) := by
  unfold LPRadixCache.matchPrefix
  dsimp only
  split
  · rename_i hnil
    rw [hnil]
    rfl
  refine congrArg _ (congrArg _ (filter_congr fun pod _ => ?_))
  rw [Bool.eq_iff_iff, decide_eq_true_eq]
  rw [← lists, matchPrefixHelper, lists_touched]
  exact h.lists_iff tokens model pod

theorem Holds.addPrefix (tokens : List Int) (model podName : String) :
    let r := s.addPrefix now tokens model podName
    r.matched = (s.matchPrefixHelper now s.rootNode tokens).2.2 ∧
    r.matched ++ r.unmatched = tokens := by
  dsimp only
  obtain ⟨path', -, -, -, hmt, hun⟩ := h.ok.inserts now tokens
  unfold LPRadixCache.addPrefix
  split <;>
  · rw [hmt, hun]
    exact ⟨rfl, take_append_drop _ _⟩

end

/-- After any additions a match finds the longest common prefix, and, if that is not empty, the pods that have it. -/
theorem addAll_matches (calls : List AddCall) :
    let s := addAll now calls
    (∀ now tokens,
      IsLongestCommonPrefix (calls.map (·.tokens)) tokens (s.matchPrefixHelper now s.rootNode tokens).2.2 ∧
      s.matchPrefixHelperReadOnly s.rootNode tokens = (s.matchPrefixHelper now s.rootNode tokens).2) ∧
    (∀ now tokens model pods,
      let matched := (s.matchPrefixHelper now s.rootNode tokens).2.2
      (s.matchPrefix now tokens model pods).2 = (matched, tokens.drop matched.length,
        if matched = [] then [] else pods.filter fun pod => HasPrefix calls matched model pod)) ∧
    (∀ now tokens model podName,
      let r := s.addPrefix now tokens model podName
      r.matched = (s.matchPrefixHelper now s.rootNode tokens).2.2 ∧ r.matched ++ r.unmatched = tokens) ∧
    ∀ n ∈ s.allNodes, ∀ token c, (s.nodes n).children.lookup token = some c → (s.nodes c).key.head? = some token ∧
      ∀ token' c', (s.nodes n).children.lookup token' = some c' → c ≠ c' →
        (s.nodes c).key.head? ≠ (s.nodes c').key.head? := by
  obtain ⟨path, h⟩ := holds_addAll now calls
  refine ⟨fun now tokens => ⟨h.isLongestCommonPrefix tokens, rfl⟩, fun now => h.matchPrefix now,
    fun now => h.addPrefix now, ?_⟩
  intro n hn token c hc
  have hhead := (h.ok.shape.child hn hc).2.2.1
  refine ⟨hhead, fun token' c' hc' hne hsame => hne ?_⟩
  rw [hhead, (h.ok.shape.child hn hc').2.2.1] at hsame
  rw [some.inj hsame, hc'] at hc
  exact (some.inj hc).symm

def onePrompt : List AddCall := [⟨fun _ => 0, [1], "model", "default/pod"⟩]

/-- The empty prefix is a prefix of every prompt, and a query that shares no more gets no pods. -/
theorem unmatched_query_no_pods :
    ((addAll (fun _ => 0) onePrompt).matchPrefix (fun _ => 0) [2] "model" [⟨"default", "pod"⟩]).2 = ([], [2], []) ∧
    HasPrefix onePrompt [] "model" ⟨"default", "pod"⟩ := by
  decide

end LPRadixCache

end Aibrix.RadixCache
