import Mathlib.Data.List.Sort
import Mathlib.Data.List.Perm.Basic

/-! # The members of a cluster and their connections

`BasePlacement.construct_cluster` of `l2/placement/placement.py`, which installs the members of a description and opens
and closes connections, and `SimplePlacement.select`. -/

namespace Aibrix.KvCache.Placement

open List Option

variable {M : Type} [DecidableEq M]

/-! ## Descriptions -/

structure SlotRange where
  start : Option Int
  stop : Option Int

def SlotRange.numbers (r : SlotRange) : Option (List Int) := do
  let start ← r.start
  let stop ← r.stop
  return (List.range (stop + 1 - start).toNat).map fun i => start + (i : Int)

structure Node (M : Type) where
  metadata : M
  slots : Option (List SlotRange)

def Node.numbers (node : Node M) : Option (List Int) := do
  let ranges ← node.slots
  return (← ranges.mapM SlotRange.numbers).flatten

/-- `conn` numbers the connectors in the order of their creation. -/
structure Member (M : Type) where
  metadata : M
  slots : List Int
  conn : Option Nat
deriving DecidableEq

structure Attempt where
  opens : Bool
  registers : Bool

/-- One call of `construct_cluster`: the nodes (none if the description is no JSON or has none), whether slabs are known,
how each attempt ends, and the order in which a set of members is gone through. -/
structure Update (M : Type) where
  nodes : Option (List (Node M))
  slabs : Bool
  attempt : M → Attempt
  order : List (Member M) → List (Member M)
  order_perm : ∀ members, (order members).Perm members

/-- The connectors so far, the latest first: opened, closed, and for whom one was created, with the outcome. -/
structure Network (M : Type) where
  next : Nat
  opened : List Nat
  closed : List Nat
  tried : List (M × Bool)
deriving DecidableEq

structure BasePlacement (M : Type) where
  members : List (Member M)
  slots : List (Int × M)
  totalSlots : Nat
  connFeature : Option Nat
deriving DecidableEq

def BasePlacement.empty : BasePlacement M := ⟨[], [], 0, none⟩

def Network.empty : Network M := ⟨0, [], [], []⟩

/-! ## `construct_cluster` -/

def addSlot (slots : List Int) (slot : Int) : List Int := slots.orderedInsert (· < ·) slot

def addEntry (slots : List (Int × M)) (entry : Int × M) : List (Int × M) :=
  slots.orderedInsert (fun a b => a.1 < b.1) entry

/-- The first loop; none is a `KeyError`. -/
def readNodes : List (Node M) → List (Member M) → List (Int × M) → Option (List (Member M) × List (Int × M))
  | [], members, slots => some (members, slots)
  | node :: nodes, members, slots => do
    let numbers ← node.numbers
    readNodes nodes (members ++ [⟨node.metadata, numbers.foldl addSlot [], none⟩])
      (numbers.foldl (fun slots slot => addEntry slots (slot, node.metadata)) slots)

def connect (u : Update M) (net : Network M) (m : M) : Network M × Option Nat :=
  let conn := net.next
  if !(u.attempt m).opens then
    ({ net with next := conn + 1, tried := (m, false) :: net.tried }, none)
  else if u.slabs && !(u.attempt m).registers then
    ({ next := conn + 1, opened := conn :: net.opened, closed := conn :: net.closed,
       tried := (m, false) :: net.tried }, none)
  else
    ({ net with next := conn + 1, opened := conn :: net.opened, tried := (m, true) :: net.tried }, some conn)

/-- `members[mem.hashable_meta]`: of two members with the same metadata the dict has the later one. -/
def old (members : List (Member M)) (m : M) : Option (Member M) := members.reverse.find? fun o => o.metadata = m

/-- The second loop, with the number of established members; none is the `TypeError` of metadata that cannot be
hashed. -/
def establish (hashable : M → Bool) (u : Update M) (members : List (Member M)) :
    Network M → List (Member M) → Network M × Option (List (Member M) × Nat)
  | net, [] => (net, some ([], 0))
  | net, mem :: rest =>
    if !hashable mem.metadata then (net, none)
    else
      match old members mem.metadata with
      | some o =>
        let (net, result) := establish hashable u members net rest
        (net, result.map fun (done, n) => ({ mem with conn := o.conn } :: done, n + 1))
      | none =>
        let (net, conn) := connect u net mem.metadata
        let (net, result) := establish hashable u members net rest
        (net, result.map fun (done, n) => ({ mem with conn } :: done, if conn.isSome then n + 1 else n))

/-- The last loop; false if `member.conn.close()` was called without a connection. -/
def closeAll : Network M → List (Member M) → Network M × Bool
  | net, [] => (net, true)
  | net, mem :: rest =>
    match mem.conn with
    | none => (net, false)
    | some conn => closeAll { net with closed := conn :: net.closed } rest

def conns (members : List (Member M)) : List Nat := members.filterMap Member.conn

inductive Result
  | ok
  | invalid
  | raised
deriving DecidableEq

def install (p : BasePlacement M) (net : Network M) (u : Update M) (members : List (Member M))
    (slots : List (Int × M)) : (BasePlacement M × Network M) × Result :=
  let membersToClose := u.order (p.members.filter fun o => !members.any fun m => m.metadata = o.metadata)
  let p := { p with members, slots, totalSlots := slots.length }
  match conns members with
  | [] => ((p, net), .raised)
  | conn :: _ =>
    let p := { p with connFeature := some conn }
    match closeAll net membersToClose with
    | (net, true) => ((p, net), .ok)
    | (net, false) => ((p, net), .raised)

def constructCluster (hashable : M → Bool) (p : BasePlacement M) (net : Network M) (u : Update M) :
    (BasePlacement M × Network M) × Result :=
  match u.nodes.bind fun nodes => readNodes nodes [] [] with
  | none => ((p, net), .invalid)
  | some (members, slots) =>
    if members = [] then ((p, net), .invalid)
    else if p.slots = slots then ((p, net), .ok)
    else
      match establish hashable u p.members net members with
      | (net, none) => ((p, net), .raised)
      | (net, some (members, n)) =>
        if n = 0 then ((p, net), .invalid) else install p net u members slots

/-- `SimplePlacement.select` of a key with the hash `h`; none is an exception. -/
def select (p : BasePlacement M) (h : Nat) : Option (Member M) := do
  if p.totalSlots = 0 then none
  else
    let entry ← p.slots[h % p.totalSlots]?
    old p.members entry.2

/-! ## What a description says -/

def Owned (members : List (Member M)) (slots : List (Int × M)) : Prop :=
  ∀ e, e ∈ slots ↔ ∃ mem ∈ members, mem.metadata = e.2 ∧ e.1 ∈ mem.slots

theorem mem_addSlots (numbers slots : List Int) (slot : Int) :
    slot ∈ numbers.foldl addSlot slots ↔ slot ∈ numbers ∨ slot ∈ slots := by
  induction numbers generalizing slots with
  | nil => simp
  | cons n numbers ih =>
    rw [foldl_cons, ih, addSlot, mem_orderedInsert, mem_cons]
    tauto

theorem mem_addEntries (numbers : List Int) (m : M) (slots : List (Int × M)) (e : Int × M) :
    e ∈ numbers.foldl (fun slots slot => addEntry slots (slot, m)) slots ↔ (e.1 ∈ numbers ∧ e.2 = m) ∨ e ∈ slots := by
  induction numbers generalizing slots with
  | nil => simp
  | cons n numbers ih =>
    rw [foldl_cons, ih, addEntry, mem_orderedInsert, mem_cons, Prod.ext_iff]
    tauto

structure Reads (node : Node M) (mem : Member M) : Prop where
  metadata : mem.metadata = node.metadata
  slots : ∃ numbers, node.numbers = some numbers ∧ ∀ slot, slot ∈ mem.slots ↔ slot ∈ numbers

variable {nodes : List (Node M)} {slots : List (Int × M)} {node : Node M} {m : M} {o : Member M}
  {net net' : Network M} {c : Nat} {hashable : M → Bool} {p p' : BasePlacement M}

theorem readNodes_spec {members members' : List (Member M)} {slots' : List (Int × M)}
    (h : readNodes nodes members slots = some (members', slots')) (hon : Owned members slots) :
    Owned members' slots' ∧ ∃ new, members' = members ++ new ∧ List.Forall₂ Reads nodes new := by
  induction nodes generalizing members slots with
  | nil =>
    obtain ⟨rfl, rfl⟩ := h
    exact ⟨hon, [], by simp, .nil⟩
  | cons node nodes ih =>
    simp only [readNodes, bind, bind_eq_some_iff] at h
    obtain ⟨numbers, hnm, h⟩ := h
    have hsl : ∀ slot, slot ∈ numbers.foldl addSlot [] ↔ slot ∈ numbers := by simp [mem_addSlots]
    obtain ⟨how', new, rfl, hnew⟩ := ih h (by
      intro e
      rw [mem_addEntries, hon e]
      constructor
      · rintro (⟨he, hm⟩ | ⟨mem, hmem, he⟩)
        · exact ⟨_, mem_append_right _ (mem_singleton_self _), hm.symm, (hsl _).2 he⟩
        · exact ⟨mem, mem_append_left _ hmem, he⟩
      rintro ⟨mem, hmem, hm, he⟩
      rcases mem_append.1 hmem with hmem | hmem
      · exact .inr ⟨mem, hmem, hm, he⟩
      · rw [mem_singleton.1 hmem] at hm he
        exact .inl ⟨(hsl _).1 he, hm.symm⟩)
    exact ⟨how', ⟨node.metadata, numbers.foldl addSlot [], none⟩ :: new, by simp, .cons ⟨rfl, numbers, hnm, hsl⟩ hnew⟩

theorem readNodes_nil {members : List (Member M)}
    (h : readNodes nodes [] [] = some (members, slots)) : Owned members slots ∧ List.Forall₂ Reads nodes members := by
  obtain ⟨hon, new, rfl, hnew⟩ := readNodes_spec h (by simp [Owned])
  exact ⟨hon, hnew⟩

open Member

omit [DecidableEq M] in
theorem reads_metadata {members : List (Member M)} (h : List.Forall₂ Reads nodes members) :
    members.map Member.metadata = nodes.map Node.metadata := by
  induction h with
  | nil => rfl
  | cons hr _ ih => rw [map_cons, map_cons, hr.metadata, ih]

omit [DecidableEq M] in
theorem reads_mem {members : List (Member M)} (h : List.Forall₂ Reads nodes members)
    (hnd : node ∈ nodes) : ∃ mem ∈ members, Reads node mem := by
  induction h with
  | nil => exact absurd hnd not_mem_nil
  | cons hr _ ih =>
    rcases mem_cons.1 hnd with rfl | hnd
    · exact ⟨_, mem_cons_self, hr⟩
    · obtain ⟨mem, hmem, hr⟩ := ih hnd
      exact ⟨mem, mem_cons_of_mem _ hmem, hr⟩

/-! ## Members that are found again -/

theorem old_mem {members : List (Member M)} (h : old members m = some o) : o ∈ members ∧ o.metadata = m := by
  have hm := find?_some h
  exact ⟨mem_reverse.1 (mem_of_find?_eq_some h), by simpa using hm⟩

theorem old_eq_none {members : List (Member M)} : old members m = none ↔ m ∉ members.map Member.metadata := by
  simp [old]

theorem old_eq_some {members : List (Member M)} (hnd : (members.map Member.metadata).Nodup)
    (ho : o ∈ members) : old members o.metadata = some o := by
  cases h : old members o.metadata with
  | none => exact absurd (mem_map_of_mem ho) (old_eq_none.1 h)
  | some o' =>
    obtain ⟨hmem, hm⟩ := old_mem h
    rw [inj_on_of_nodup_map hnd hmem ho hm]

def reused (members rest : List (Member M)) : List (Member M) := rest.filterMap fun mem => old members mem.metadata

theorem reused_cons_none {members rest : List (Member M)} {mem : Member M} (h : old members mem.metadata = none) :
    reused members (mem :: rest) = reused members rest := by simp [reused, h]

theorem reused_cons_some {members rest : List (Member M)} {mem : Member M}
    (h : old members mem.metadata = some o) : reused members (mem :: rest) = o :: reused members rest := by
  simp [reused, h]

theorem reused_metadata (members rest : List (Member M)) :
    ((reused members rest).map Member.metadata).Sublist (rest.map Member.metadata) := by
  induction rest with
  | nil => exact List.Sublist.refl _
  | cons mem rest ih =>
    cases ho : old members mem.metadata with
    | none => rw [reused_cons_none ho]; exact ih.cons _
    | some o =>
      rw [reused_cons_some ho, map_cons, (old_mem ho).2]
      exact ih.cons_cons _

theorem reused_perm {members rest : List (Member M)} (hold : (members.map Member.metadata).Nodup)
    (hnew : (rest.map Member.metadata).Nodup) :
    (reused members rest).Perm (members.filter fun o => rest.any fun m => m.metadata = o.metadata) := by
  rw [perm_ext_iff_of_nodup]
  · intro o
    simp only [reused, List.mem_filterMap, List.mem_filter, List.any_eq_true, decide_eq_true_eq]
    constructor
    · rintro ⟨mem, hmem, ho⟩
      obtain ⟨ho, hm⟩ := old_mem ho
      exact ⟨ho, mem, hmem, hm.symm⟩
    · rintro ⟨ho, mem, hmem, hm⟩
      exact ⟨mem, hmem, by rw [hm]; exact old_eq_some hold ho⟩
  · apply List.Nodup.of_map Member.metadata
    exact (reused_metadata members rest).nodup hnew
  · exact (List.Nodup.of_map _ hold).filter _

/-! ## One attempt -/

structure Fresh (net : Network M) : Prop where
  nodup : net.opened.Nodup
  below : ∀ c ∈ net.opened, c < net.next

def Network.attempts (net : Network M) (m : M) : Nat := net.tried.countP fun a => a.1 = m

/-- How the latest attempt to connect to `m` ended. -/
def Network.lastAttempt (net : Network M) (m : M) : Option Bool := (net.tried.find? fun a => a.1 = m).map Prod.snd

structure Attempted (net net' : Network M) (m : M) (conn : Option Nat) : Prop where
  balance : ∀ c, net'.opened.count c + net.closed.count c =
    net.opened.count c + net'.closed.count c + conn.toList.count c
  fresh : Fresh net → Fresh net'
  tried : net'.tried = (m, conn.isSome) :: net.tried

omit [DecidableEq M] in
theorem Fresh.create (h : Fresh net) {closed : List Nat} {tried : List (M × Bool)} :
    Fresh ⟨net.next + 1, net.next :: net.opened, closed, tried⟩ := by
  refine ⟨nodup_cons.2 ⟨fun hc => by have := h.below _ hc; omega, h.nodup⟩, ?_⟩
  intro c hc
  show c < net.next + 1
  rcases mem_cons.1 hc with rfl | hc
  · omega
  · have := h.below c hc
    omega

omit [DecidableEq M] in
theorem connect_spec (u : Update M) (net : Network M) (m : M) :
    Attempted net (connect u net m).1 m (connect u net m).2 := by
  unfold connect
  split_ifs
  · refine ⟨by simp, fun h => ⟨h.nodup, fun c hc => ?_⟩, rfl⟩
    have := h.below c hc
    show c < net.next + 1
    omega
  · refine ⟨fun c => ?_, fun h => h.create, rfl⟩
    simp only [count_cons, toList_none, count_nil]
    omega
  · refine ⟨fun c => ?_, fun h => h.create, rfl⟩
    simp only [count_cons, toList_some, count_nil]
    omega

/-! ## The loop over the members -/

/-- What the loop over `rest` did when it ended with the members `done` and the count `n`. -/
structure Established (members rest : List (Member M)) (net net' : Network M) (done : List (Member M)) (n : Nat) :
    Prop where
  described : done.map (fun m => (m.metadata, m.slots)) = rest.map fun m => (m.metadata, m.slots)
  counted : (∀ o ∈ members, o.conn.isSome) → n = (conns done).length
  reused : (conns (reused members rest)).Sublist (conns done)
  balance : ∀ c, net'.opened.count c + net.closed.count c + (conns (Placement.reused members rest)).count c =
    net.opened.count c + net'.closed.count c + (conns done).count c
  fresh : Fresh net → Fresh net'
  tried : ∃ new, net'.tried = new ++ net.tried ∧
    (new.map Prod.fst).reverse = (rest.map Member.metadata).filter fun m => (old members m).isNone
  outcome : (rest.map Member.metadata).Nodup → ∀ d ∈ done, (∃ o ∈ members, o.metadata = d.metadata ∧ o.conn = d.conn) ∨
    net'.lastAttempt d.metadata = some d.conn.isSome

omit [DecidableEq M] in
theorem conns_cons (mem : Member M) (rest : List (Member M)) : conns (mem :: rest) = mem.conn.toList ++ conns rest := by
  unfold conns
  rcases h : mem.conn with _ | c <;> simp [h]

omit [DecidableEq M] in
theorem conns_perm {a b : List (Member M)} (h : a.Perm b) : (conns a).count c = (conns b).count c :=
  (h.filterMap _).count_eq c

open Network

theorem lastAttempt_append {new : List (M × Bool)} (h : net'.tried = new ++ net.tried)
    (hm : m ∉ new.map Prod.fst) : net'.lastAttempt m = net.lastAttempt m := by
  have hnn : (new.find? fun a => a.1 = m) = none := by
    rw [find?_eq_none]
    intro a ha hin
    exact hm (mem_map.2 ⟨a, ha, by simpa using hin⟩)
  simp [lastAttempt, h, find?_append, hnn]

theorem Established.lastAttempt {members rest done : List (Member M)} {n : Nat}
    (h : Established members rest net net' done n)
    (hm : m ∈ members.map Member.metadata ∨ m ∉ rest.map Member.metadata) : net'.lastAttempt m = net.lastAttempt m := by
  obtain ⟨new, htr, hnew⟩ := h.tried
  apply lastAttempt_append htr
  intro hin
  rw [← mem_reverse, hnew, mem_filter, isNone_iff_eq_none, old_eq_none] at hin
  rcases hm with hm | hm
  · exact hin.2 hm
  · exact hm hin.1

theorem Established.metadata {members rest done : List (Member M)} {n : Nat}
    (h : Established members rest net net' done n) : done.map Member.metadata = rest.map Member.metadata := by
  have := congrArg (List.map Prod.fst) h.described
  rw [List.map_map, List.map_map] at this
  exact this

theorem establish_spec (u : Update M) (members : List (Member M)) (net : Network M)
    (rest : List (Member M)) (hhs : ∀ mem ∈ rest, hashable mem.metadata = true) :
    ∃ net' done n, establish hashable u members net rest = (net', some (done, n)) ∧
      Established members rest net net' done n := by
  induction rest generalizing net with
  | nil =>
    exact ⟨net, [], 0, rfl, rfl, fun _ => rfl, List.Sublist.refl _, fun c => by simp [Placement.reused, conns],
      id, ⟨[], rfl, rfl⟩, by simp⟩
  | cons mem rest ih =>
    have hmem := hhs mem mem_cons_self
    have hrs := fun r hr => hhs r (mem_cons_of_mem _ hr)
    cases ho : old members mem.metadata with
    | some o =>
      obtain ⟨net', done, n, heq, h⟩ := ih net hrs
      refine ⟨net', { mem with conn := o.conn } :: done, n + 1, by simp [establish, hmem, ho, heq], ?_⟩
      obtain ⟨hom, hot⟩ := old_mem ho
      refine ⟨by simp [h.described], ?_, ?_, ?_, h.fresh, ?_, ?_⟩
      · intro hall
        obtain ⟨c, hc⟩ := isSome_iff_exists.1 (hall o hom)
        simp [conns_cons, hc, h.counted hall]
      · rw [reused_cons_some ho, conns_cons, conns_cons]
        exact (append_sublist_append_left _).2 h.reused
      · intro c
        have := h.balance c
        simp only [reused_cons_some ho, conns_cons, count_append]
        omega
      · obtain ⟨new, htr, hnew⟩ := h.tried
        exact ⟨new, htr, by simp [hnew, ho]⟩
      · intro hnd d hd
        rcases mem_cons.1 hd with rfl | hd
        · exact .inl ⟨o, hom, hot, rfl⟩
        · exact h.outcome (nodup_cons.1 hnd).2 d hd
    | none =>
      have hc := connect_spec u net mem.metadata
      obtain ⟨net', done, n, heq, h⟩ := ih (connect u net mem.metadata).1 hrs
      rcases hr : connect u net mem.metadata with ⟨mid, conn⟩
      rw [hr] at hc heq h
      have htd : mid.tried = (mem.metadata, conn.isSome) :: net.tried := hc.tried
      refine ⟨net', { mem with conn } :: done, if conn.isSome then n + 1 else n, by simp [establish, hmem, ho, hr, heq], ?_⟩
      refine ⟨by simp [h.described], ?_, ?_, ?_, fun hf => h.fresh (hc.fresh hf), ?_, ?_⟩
      · intro hall
        have := h.counted hall
        cases conn <;> simp [conns_cons, this, Nat.add_comm]
      · rw [reused_cons_none ho, conns_cons]
        exact h.reused.trans (sublist_append_right _ _)
      · intro c
        have := h.balance c
        have := hc.balance c
        simp only [reused_cons_none ho, conns_cons, count_append] at *
        omega
      · obtain ⟨new, htr, hnew⟩ := h.tried
        exact ⟨new ++ [(mem.metadata, conn.isSome)], by simp [htr, htd], by simp [hnew, ho]⟩
      · intro hnd d hd
        obtain ⟨hnot, hnd⟩ := nodup_cons.1 hnd
        rcases mem_cons.1 hd with rfl | hd
        · rw [h.lastAttempt (.inr hnot)]
          simp [lastAttempt, htd]
        · exact h.outcome hnd d hd

/-! ## What an update does -/

def Linked (p : BasePlacement M) : Prop := ∀ m ∈ p.members, m.conn.isSome

def Node.OwnsSlot (node : Node M) : Prop := ∃ numbers slot, node.numbers = some numbers ∧ slot ∈ numbers

structure Update.Valid (hashable : M → Bool) (u : Update M) (nodes : List (Node M)) : Prop where
  nodes_eq : u.nodes = some nodes
  distinct : (nodes.map Node.metadata).Nodup
  hashable : ∀ node ∈ nodes, hashable node.metadata = true
  covers : ∃ node ∈ nodes, node.OwnsSlot

structure Closes (net net' : Network M) (closing : List Nat) : Prop where
  next : net'.next = net.next
  opened : net'.opened = net.opened
  tried : net'.tried = net.tried
  closed : ∀ c, net'.closed.count c = net.closed.count c + closing.count c

omit [DecidableEq M] in
theorem closeAll_spec (net : Network M) (ms : List (Member M)) (h : ∀ m ∈ ms, m.conn.isSome) :
    ∃ net', closeAll net ms = (net', true) ∧ Closes net net' (conns ms) := by
  induction ms generalizing net with
  | nil => exact ⟨net, rfl, rfl, rfl, rfl, fun c => rfl⟩
  | cons mem rest ih =>
    obtain ⟨conn, hcn⟩ := isSome_iff_exists.1 (h mem mem_cons_self)
    obtain ⟨net', heq, hcl⟩ := ih { net with closed := conn :: net.closed } fun m hm => h m (mem_cons_of_mem _ hm)
    refine ⟨net', by simp only [closeAll, hcn, heq], hcl.next, hcl.opened, hcl.tried, fun c => ?_⟩
    rw [hcl.closed, conns_cons, hcn, toList_some, count_append, count_cons, count_singleton]
    omega

def leaving (p : BasePlacement M) (members : List (Member M)) : List (Member M) :=
  p.members.filter fun o => !members.any fun m => m.metadata = o.metadata

inductive Updates (nodes : List (Node M)) (p : BasePlacement M) (net : Network M) :
    BasePlacement M → Network M → Result → Prop
  | unreadable : readNodes nodes [] [] = none → Updates nodes p net p net .invalid
  | unchanged {members} : readNodes nodes [] [] = some (members, p.slots) → Updates nodes p net p net .ok
  | rejected {members slots net' done} : readNodes nodes [] [] = some (members, slots) → p.slots ≠ slots →
      Established p.members members net net' done 0 → Updates nodes p net p net' .invalid
  | installed {members slots net' done n net'' connFeature} : readNodes nodes [] [] = some (members, slots) →
      p.slots ≠ slots → Established p.members members net net' done n → Closes net' net'' (conns (leaving p done)) →
      Updates nodes p net ⟨done, slots, slots.length, connFeature⟩ net'' .ok

theorem constructCluster_updates {u : Update M} (net : Network M) (hln : Linked p) (hu : u.Valid hashable nodes) :
    ∃ p' net' r, constructCluster hashable p net u = ((p', net'), r) ∧ Updates nodes p net p' net' r := by
  unfold constructCluster
  rw [hu.nodes_eq, bind_some]
  cases hrd : readNodes nodes [] [] with
  | none => exact ⟨p, net, _, rfl, .unreadable hrd⟩
  | some read =>
    obtain ⟨members, slots⟩ := read
    obtain ⟨-, hnew⟩ := readNodes_nil hrd
    have hne : members ≠ [] := by
      rintro rfl
      obtain ⟨node, hnd, -⟩ := hu.covers
      cases hnew
      exact absurd hnd not_mem_nil
    have hhs : ∀ mem ∈ members, hashable mem.metadata = true := by
      intro mem hmem
      have := mem_map_of_mem (f := Member.metadata) hmem
      rw [reads_metadata hnew] at this
      obtain ⟨node, hnd, heq⟩ := mem_map.1 this
      rw [← heq]
      exact hu.hashable node hnd
    simp only [if_neg hne]
    by_cases hsl : p.slots = slots
    · rw [if_pos hsl]
      exact ⟨p, net, _, rfl, .unchanged (hsl ▸ hrd)⟩
    obtain ⟨net', done, n, heq, hest⟩ := establish_spec u p.members net members hhs
    simp only [if_neg hsl, heq]
    by_cases hn : n = 0
    · subst hn
      exact ⟨p, net', _, rfl, .rejected hrd hsl hest⟩
    rw [if_neg hn]
    -- the count is right while all the old members are linked, so there is a connection to take the feature of
    have hcn := hest.counted hln
    have hpr := u.order_perm (leaving p done)
    obtain ⟨net'', hcs, hcl⟩ := closeAll_spec net' (u.order (leaving p done)) fun m hm =>
      hln m (mem_of_mem_filter (hpr.mem_iff.1 hm))
    unfold install
    cases hc : conns done with
    | nil => rw [hc] at hcn; exact absurd hcn hn
    | cons conn _ =>
      simp only [leaving] at hcs
      simp only [hcs]
      refine ⟨_, net'', _, rfl, .installed hrd hsl hest ⟨hcl.next, hcl.opened, hcl.tried, fun c => ?_⟩⟩
      rw [hcl.closed, conns_perm hpr]

/-! ## Updates keep every connection accounted for -/

structure Sound (p : BasePlacement M) (net : Network M) : Prop where
  nodup : (p.members.map Member.metadata).Nodup
  owned : Owned p.members p.slots
  total : p.totalSlots = p.slots.length
  covered : p.members ≠ [] → p.slots ≠ []
  balance : ∀ c, net.opened.count c = (conns p.members).count c + net.closed.count c
  fresh : Fresh net
  tried : ∀ m ∈ p.members, m.conn.isSome → net.lastAttempt m.metadata = some true

omit [DecidableEq M] in
theorem owned_described {done members : List (Member M)}
    (h : done.map (fun m => (m.metadata, m.slots)) = members.map fun m => (m.metadata, m.slots))
    (hon : Owned members slots) : Owned done slots := by
  intro e
  have heq : ∀ ms : List (Member M), (∃ mem ∈ ms, mem.metadata = e.2 ∧ e.1 ∈ mem.slots) ↔
      ∃ d ∈ ms.map (fun m => (m.metadata, m.slots)), d.1 = e.2 ∧ e.1 ∈ d.2 := by simp
  rw [hon e, heq, heq, h]

omit [DecidableEq M] in
theorem conns_filter (members : List (Member M)) (keep : Member M → Bool) (c : Nat) :
    (conns members).count c = (conns (members.filter keep)).count c + (conns (members.filter fun m => !keep m)).count c := by
  rw [← conns_perm (filter_append_perm keep members), ← count_append, conns, filterMap_append]
  rfl

theorem Closes.lastAttempt {closing : List Nat} (h : Closes net net' closing) (m : M) :
    net'.lastAttempt m = net.lastAttempt m := by rw [Network.lastAttempt, h.tried, Network.lastAttempt]

theorem owned_slot {members : List (Member M)}
    (hrd : readNodes nodes [] [] = some (members, slots)) (hnd : node ∈ nodes)
    (hsl : node.OwnsSlot) : ∃ slot, (slot, node.metadata) ∈ slots := by
  obtain ⟨hon, hnew⟩ := readNodes_nil hrd
  obtain ⟨numbers, slot, hnm, hsl⟩ := hsl
  obtain ⟨mem, hmem, hmt, numbers', hnm', hiff⟩ := reads_mem hnew hnd
  obtain rfl : numbers = numbers' := some.inj (hnm.symm.trans hnm')
  exact ⟨slot, (hon _).2 ⟨mem, hmem, hmt, (hiff slot).2 hsl⟩⟩

theorem Updates.sound {r : Result} (h : Updates nodes p net p' net' r) (hs : Sound p net) (hln : Linked p)
    (hds : (nodes.map Node.metadata).Nodup) (hcv : ∃ node ∈ nodes, node.OwnsSlot) : Sound p' net' := by
  cases h with
  | unreadable | unchanged => exact hs
  | @rejected members slots _ done hrd hne hest =>
    have hnn : conns done = [] := eq_nil_of_length_eq_zero (hest.counted hln).symm
    refine { hs with balance := fun c => ?_, fresh := hest.fresh hs.fresh, tried := fun m hm hc => ?_ }
    · have hrs := (hest.reused.count_le c)
      have := hest.balance c
      have := hs.balance c
      rw [hnn, count_nil] at *
      omega
    · rw [hest.lastAttempt (.inl (mem_map_of_mem hm))]
      exact hs.tried m hm hc
  | @installed members slots net₁ done n _ _ hrd hne hest hcl =>
    obtain ⟨hon, hnew⟩ := readNodes_nil hrd
    have hmt := hest.metadata.trans (reads_metadata hnew)
    have hnd := hmt ▸ hds
    have hfr := hest.fresh hs.fresh
    refine ⟨hnd, owned_described hest.described hon, rfl, fun _ => ?_, fun c => ?_,
      ⟨hcl.opened ▸ hfr.nodup, ?_⟩, fun m hm hc => ?_⟩
    · obtain ⟨node, hno, hsl⟩ := hcv
      obtain ⟨slot, hmem⟩ := owned_slot hrd hno hsl
      exact ne_nil_of_mem hmem
    · -- the old connections are those of the members found again and those of the members that leave
      have hkp := conns_perm (c := c) (reused_perm hs.nodup (reads_metadata hnew ▸ hds))
      have hany : ∀ o : Member M, (members.any fun m => m.metadata = o.metadata) =
          done.any fun m => m.metadata = o.metadata := by
        intro o
        have := congrArg (List.any · fun m => decide (m = o.metadata)) hest.metadata.symm
        simp only [List.any_map] at this
        exact this
      have hsp := conns_filter p.members (fun o => done.any fun m => m.metadata = o.metadata) c
      simp only [hany] at hkp
      have := hest.balance c
      have := hs.balance c
      have := hcl.closed c
      rw [hcl.opened]
      unfold leaving at this
      show net₁.opened.count c = (conns done).count c + _
      omega
    · rw [hcl.opened, hcl.next]
      exact hfr.below
    · rw [hcl.lastAttempt]
      rcases hest.outcome (hest.metadata ▸ hnd) m hm with ⟨o, ho, hom, hoc⟩ | hnw
      · rw [hest.lastAttempt (.inl (hom ▸ mem_map_of_mem ho)), ← hom]
        exact hs.tried o ho (hoc ▸ hc)
      · rw [hnw, hc]

/-- What holds between updates while each of them gave every member that it installed a connection. -/
inductive Reaches (hashable : M → Bool) : BasePlacement M → Network M → Prop
  | init : Reaches hashable .empty .empty
  | update {p p' net net' r} {u : Update M} {nodes : List (Node M)} : Reaches hashable p net → u.Valid hashable nodes →
      constructCluster hashable p net u = ((p', net'), r) → Linked p' → Reaches hashable p' net'

open BasePlacement

theorem sound_empty : Sound (BasePlacement.empty : BasePlacement M) Network.empty :=
  ⟨by simp [BasePlacement.empty], by simp [Owned, BasePlacement.empty], rfl, by simp [BasePlacement.empty],
    by simp [BasePlacement.empty, Network.empty, conns], ⟨by simp [Network.empty], by simp [Network.empty]⟩,
    by simp [BasePlacement.empty]⟩

theorem updates_of_eq {r : Result} {u : Update M} (hln : Linked p) (hu : u.Valid hashable nodes)
    (h : constructCluster hashable p net u = ((p', net'), r)) : Updates nodes p net p' net' r := by
  obtain ⟨p₁, net₁, r₁, heq, hup⟩ := constructCluster_updates net hln hu
  rw [heq] at h
  obtain ⟨⟨rfl, rfl⟩, rfl⟩ : ((p₁ = p') ∧ net₁ = net') ∧ r₁ = r := by simpa using h
  exact hup

theorem Reaches.sound (h : Reaches hashable p net) : Sound p net ∧ Linked p := by
  induction h with
  | init => exact ⟨sound_empty, by simp [Linked, BasePlacement.empty]⟩
  | update _ hu heq hln' ih =>
    exact ⟨(updates_of_eq ih.2 hu heq).sound ih.1 ih.2 hu.distinct hu.covers, hln'⟩

/-! ## The promises of a cluster update -/

omit [DecidableEq M] in
theorem mem_conns {members : List (Member M)} : c ∈ conns members ↔ ∃ m ∈ members, m.conn = some c := by
  simp [conns]

theorem Sound.held_or_closed (h : Sound p net) (hc : c ∈ net.opened) :
    (c ∈ conns p.members ∧ c ∉ net.closed) ∨ (c ∉ conns p.members ∧ net.closed.count c = 1) := by
  have hone := count_eq_one_of_mem h.fresh.nodup hc
  have hbal := h.balance c
  by_cases hhl : c ∈ conns p.members
  · have := count_pos_iff.2 hhl
    exact .inl ⟨hhl, count_eq_zero.1 (by omega)⟩
  · have := count_eq_zero.2 hhl
    exact .inr ⟨hhl, by omega⟩

theorem Sound.not_closed (h : Sound p net) (hc : c ∈ conns p.members) : c ∉ net.closed := by
  have hone := nodup_iff_count_le_one.1 h.fresh.nodup c
  have hbal := h.balance c
  have := count_pos_iff.2 hc
  exact count_eq_zero.1 (by omega)

theorem Sound.select (h : Sound p net) (hne : p.members ≠ []) (hash : Nat) :
    ∃ m ∈ p.members, m.slots ≠ [] ∧ select p hash = some m := by
  have hpos : 0 < p.slots.length := length_pos_iff.2 (h.covered hne)
  have hlt : hash % p.slots.length < p.slots.length := Nat.mod_lt _ hpos
  obtain ⟨m, hm, hmt, hsl⟩ := (h.owned _).1 (getElem_mem hlt)
  refine ⟨m, hm, ne_nil_of_mem hsl, ?_⟩
  simp only [Placement.select, h.total, Nat.ne_of_gt hpos, if_false, getElem?_eq_getElem hlt, bind_eq_bind,
    bind_some, ← hmt]
  exact old_eq_some h.nodup hm

theorem Updates.retried {r : Result} (h : Updates nodes p net p' net' r) (hs : Sound p net) (hln : Linked p)
    (hds : (nodes.map Node.metadata).Nodup) (hrd : (readNodes nodes [] []).isSome)
    (hnd : node ∈ nodes) (hsl : node.OwnsSlot) (hfl : net.lastAttempt node.metadata = some false) :
    net'.attempts node.metadata = net.attempts node.metadata + 1 := by
  have hnot : node.metadata ∉ p.members.map Member.metadata := by
    intro hin
    obtain ⟨m, hm, hmt⟩ := mem_map.1 hin
    have := hs.tried m hm (hln m hm)
    rw [hmt, hfl] at this
    cases this
  have hone : ∀ {members slots done net₁ n}, readNodes nodes [] [] = some (members, slots) →
      Established p.members members net net₁ done n → net₁.attempts node.metadata = net.attempts node.metadata + 1 := by
    intro members slots done net₁ n hrd hest
    obtain ⟨new, htr, hnew⟩ := hest.tried
    have hms := reads_metadata (readNodes_nil hrd).2
    rw [attempts, htr, countP_append, Nat.add_comm]
    congr 1
    have hcn : (new.map Prod.fst).reverse.count node.metadata = 1 := by
      rw [hnew, hms, count_filter (by simpa [old_eq_none] using hnot)]
      exact count_eq_one_of_mem hds (mem_map_of_mem hnd)
    rw [count_reverse, count, countP_map] at hcn
    exact hcn
  cases h with
  | unreadable hnn => rw [hnn] at hrd; cases hrd
  | unchanged hrd =>
    obtain ⟨slot, hmem⟩ := owned_slot hrd hnd hsl
    obtain ⟨m, hm, hmt, -⟩ := (hs.owned _).1 hmem
    exact absurd (mem_map.2 ⟨m, hm, hmt⟩) hnot
  | rejected hrd _ hest => exact hone hrd hest
  | installed hrd _ hest hcl =>
    rw [← hone hrd hest, attempts, hcl.tried, attempts]

theorem Updates.read
    (h : Updates nodes p net p' net' .ok) : ∃ members, readNodes nodes [] [] = some (members, p'.slots) := by
  cases h with
  | unchanged hrd | installed hrd => exact ⟨_, hrd⟩

/-- Between updates, and in the next one. -/
theorem cluster_update_promises (hashable : M → Bool) {p p' : BasePlacement M} {net net' : Network M} {r : Result}
    (h : Reaches hashable p net) {u : Update M} {nodes : List (Node M)} (hu : u.Valid hashable nodes)
    (hcall : constructCluster hashable p net u = ((p', net'), r)) : r ≠ .raised ∧
    (r = .invalid → p'.members = p.members ∧ p'.slots = p.slots ∧ p'.totalSlots = p.totalSlots) ∧
    (∀ c ∈ net'.opened, (c ∈ conns p'.members ∧ c ∉ net'.closed) ∨ (c ∉ conns p'.members ∧ net'.closed.count c = 1)) ∧
    (∀ m ∈ p'.members, ∀ c, m.conn = some c → c ∉ net'.closed) ∧
    ((readNodes nodes [] []).isSome → ∀ node ∈ nodes, node.OwnsSlot → net.lastAttempt node.metadata = some false →
      net'.attempts node.metadata = net.attempts node.metadata + 1) ∧ (r = .ok → p'.members ≠ []) ∧
    (p'.members ≠ [] → ∀ hash, ∃ m ∈ p'.members, m.slots ≠ [] ∧ select p' hash = some m) := by
  obtain ⟨hs, hlinked⟩ := h.sound
  have hup := updates_of_eq hlinked hu hcall
  have hs' := hup.sound hs hlinked hu.distinct hu.covers
  refine ⟨?_, ?_, fun c hc => hs'.held_or_closed hc, fun m hm c hc => hs'.not_closed (mem_conns.2 ⟨m, hm, hc⟩),
    fun hread node hnode hslot hfailed => hup.retried hs hlinked hu.distinct hread hnode hslot hfailed, ?_, hs'.select⟩
  · cases hup <;> exact Result.noConfusion
  · intro hr
    cases hup <;> first | exact ⟨rfl, rfl, rfl⟩ | cases hr
  rintro rfl
  obtain ⟨members, hread⟩ := hup.read
  obtain ⟨node, hnode, hslot⟩ := hu.covers
  obtain ⟨slot, hmem⟩ := owned_slot hread hnode hslot
  obtain ⟨m, hm, -⟩ := (hs'.owned _).1 hmem
  exact ne_nil_of_mem hm

def describe (nodes : List (Nat × Int × Int)) (answers : Nat → Bool) : Update Nat where
  nodes := some (nodes.map fun (port, start, stop) => ⟨port, some [⟨some start, some stop⟩]⟩)
  slabs := true
  attempt port := ⟨answers port, true⟩
  order := id
  order_perm _ := .refl _

theorem describe_valid (port : Nat) (nodes : List (Nat × Int × Int)) (slot : Int) (answers : Nat → Bool)
    (h : (port :: nodes.map Prod.fst).Nodup) : (describe ((port, slot, slot) :: nodes) answers).Valid (fun _ => true)
      (((port, slot, slot) :: nodes).map fun (port, start, stop) => ⟨port, some [⟨some start, some stop⟩]⟩) where
  nodes_eq := rfl
  distinct := by simpa [Function.comp_def] using h
  hashable _ _ := rfl
  covers := ⟨_, mem_cons_self, _, slot, rfl, by
    have : ∃ i : Nat, (i : Int) < slot + 1 - slot ∧ slot + i = slot := ⟨0, by omega, by omega⟩
    simpa using this⟩

theorem cluster_update_promises_moved :
    ∃ p net, constructCluster (fun _ => true) .empty .empty (describe [(1, 0, 0), (2, 1, 1)] fun _ => true) =
      ((p, net), .ok) ∧
    ∃ p' net', constructCluster (fun _ => true) p net (describe [(2, 0, 0), (3, 1, 1)] fun _ => true) =
      ((p', net'), .ok) ∧
    (∀ c ∈ net'.opened, (c ∈ conns p'.members ∧ c ∉ net'.closed) ∨ (c ∉ conns p'.members ∧ net'.closed.count c = 1)) ∧
    conns p'.members = [1, 2] ∧ net'.closed = [0] := by
  refine ⟨_, _, rfl, _, _, rfl, ?_, by decide, by decide⟩
  have hfirst := describe_valid 1 [(2, 1, 1)] 0 (fun _ => true) (by decide)
  have hsecond := describe_valid 2 [(3, 1, 1)] 0 (fun _ => true) (by decide)
  exact (cluster_update_promises _ (.update .init hfirst rfl (by unfold Linked; decide)) hsecond rfl).2.2.1

theorem member_without_connection :
    ∃ p net, constructCluster (fun _ => true) .empty .empty (describe [(1, 0, 0), (2, 1, 1)] fun port => port = 1) =
      ((p, net), .ok) ∧ net.lastAttempt 2 = some false ∧
    (∃ p' net', constructCluster (fun _ => true) p net (describe [(2, 0, 0)] fun _ => true) = ((p', net'), .raised) ∧
      p'.members = [⟨2, [0], none⟩] ∧ 0 ∈ net'.opened ∧ 0 ∉ conns p'.members ∧ 0 ∉ net'.closed) ∧
    (∃ p' net', constructCluster (fun _ => true) p net (describe [(1, 1, 1)] fun _ => true) = ((p', net'), .raised) ∧
      p'.members = [⟨1, [1], some 0⟩]) ∧
    ∃ p' net', constructCluster (fun _ => true) p net (describe [(2, 0, 0), (1, 1, 1)] fun _ => true) =
      ((p', net'), .ok) ∧ net'.attempts 2 = net.attempts 2 := by
  refine ⟨_, _, rfl, by decide, ⟨_, _, rfl, by decide, by decide, by decide, by decide⟩, ⟨_, _, rfl, by decide⟩,
    _, _, rfl, by decide⟩

end Aibrix.KvCache.Placement
