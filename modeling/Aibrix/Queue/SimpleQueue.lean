import Aibrix.Lib.Threads

/-! # The gateway's simple queue

`SimpleQueue` of the queue package: a slice addressed by cursors that only grow, and a base that maps one to its slot. -/

namespace Aibrix.Queue

open Lib

inductive QueueError where
  | zeroValueNotSupported
  | queueEmpty
  deriving DecidableEq, Repr

def defaultQueueCapacity : Int := 1024

structure SimpleQueue (V : Type) where
  queue : List V
  enqueueCursor : Int := 0
  dequeueCursor : Int := 0
  baseCursor : Int := 0
  /-- `none` is the nil slice. -/
  zeroout : Option (List V) := none
  deriving DecidableEq, Repr

/-! ## Slices -/

section Slice

variable {V : Type} (queue : List V)

def load (pos : Int) : Option V :=
  if 0 ≤ pos then queue[pos.toNat]? else none

def store (pos : Int) (value : V) : Option (List V) :=
  if 0 ≤ pos ∧ pos < queue.length then some (queue.set pos.toNat value) else none

def sliceFrom (pos : Int) : Option (List V) :=
  if 0 ≤ pos ∧ pos ≤ queue.length then some (queue.drop pos.toNat) else none

/-- The built-in `copy`, which reads its source before it writes, so that the two may overlap. -/
def copy (dst src : List V) : List V := src.take dst.length ++ dst.drop src.length

def copyAt (start : Nat) (src : List V) : List V :=
  queue.take start ++ copy (queue.drop start) src

/-- The loop that clears the slots from `start` on, `stride` slots at a time. -/
def clearFrom (clear : List V → Nat → List V) (stride : Nat) : Nat → Nat → List V → Option (List V)
  | 0, _, _ => none
  | fuel + 1, start, queue =>
    if start < queue.length then clearFrom clear stride fuel (start + stride) (clear queue start) else some queue

end Slice

def doubled (used : Int) : Nat → Int → Option Int
  | 0, _ => none
  | fuel + 1, capacity => if capacity < used then doubled used fuel (capacity * 2) else some capacity

namespace SimpleQueue

variable {V : Type} [Zero V]

def newSimpleQueue (initialCapacity : Int) : SimpleQueue V :=
  let capacity := if initialCapacity < 1 then defaultQueueCapacity else initialCapacity
  { queue := List.replicate capacity.toNat 0
    zeroout := if capacity ≥ defaultQueueCapacity then some (List.replicate capacity.toNat 0) else none }

variable (q : SimpleQueue V)

def physicalPos (pos : Int) : Int := pos - q.baseCursor

def zeroTail (start : Nat) (newQueue : List V) : Option (List V) :=
  match q.zeroout with
  | some zeroout =>
    clearFrom (fun queue start => copyAt queue start zeroout) zeroout.length (newQueue.length + 1) start newQueue
  | none => clearFrom (fun queue start => queue.set start 0) 1 (newQueue.length + 1) start newQueue

/-- The slice after packing or growing, with `dequeuePos` as its first slot. -/
def repacked (dequeuePos used : Int) : Option (List V) :=
  (sliceFrom q.queue dequeuePos).bind fun live =>
    if used > q.queue.length / 2 then
      (doubled used (used.toNat + 1) (q.queue.length * 2)).map fun newCapacity =>
        copy (List.replicate newCapacity.toNat 0) live
    else zeroTail q (q.queue.length - dequeuePos).toNat (copy q.queue live)

def expandLocked (triggerCursor triggerPos : Int) : Option (SimpleQueue V × Int) :=
  if triggerPos < q.queue.length then some (q, q.physicalPos triggerCursor)
  else
    let dequeuePos := q.physicalPos q.dequeueCursor
    let enqueuePos := q.physicalPos q.enqueueCursor
    let used := enqueuePos - 1 - dequeuePos
    (q.repacked dequeuePos used).map fun newQueue =>
      let q' := { q with queue := newQueue, baseCursor := q.baseCursor + dequeuePos }
      (q', q'.physicalPos triggerCursor)

def enqueueLocked (value : V) : Option (SimpleQueue V) :=
  let cursor := q.enqueueCursor
  let q := { q with enqueueCursor := q.enqueueCursor + 1 }
  let pos := q.physicalPos cursor
  let expanded := if pos ≥ q.queue.length then q.expandLocked cursor pos else some (q, pos)
  expanded.bind fun (q, pos) => (store q.queue pos value).map fun queue => { q with queue }

def enqueue [DecidableEq V] (q : SimpleQueue V) (value : V) : Option (SimpleQueue V × Option QueueError) :=
  if value = 0 then some (q, some .zeroValueNotSupported)
  else (q.enqueueLocked value).map fun q => (q, none)

def advance : SimpleQueue V := { q with dequeueCursor := q.dequeueCursor + 1 }

end SimpleQueue

/-! ## Calls that run at the same time -/

/-- The two calls that share the loop over the head of the queue. -/
inductive Call where
  | peek
  | dequeue
  deriving DecidableEq, Repr

/-- The atomic steps of the calls. Those under the read lock follow `loadDequeue`. -/
inductive Cmd (V : Type) where
  | enqueue (value : V)
  | len
  | lenLoadEnqueue
  | lenLoadDequeue (enqueueCursor : Int)
  | call (call : Call)
  | loadDequeue (call : Call)
  /-- `mark` is the number of events there were when the dequeue cursor was loaded. -/
  | loadEnqueue (call : Call) (dequeueCursor : Int) (mark : Nat)
  | read (call : Call) (dequeueCursor dequeuePos : Int) (mark : Nat)
  | compareAndSwap (dequeueCursor : Int) (c : V)
  | expand (dequeueCursor dequeuePos : Int) (mark : Nat)
  /-- `Dequeue` takes the read lock again after it has expanded. -/
  | recheck (dequeueCursor dequeuePos : Int) (mark : Nat)
  deriving DecidableEq

variable {V : Type}

/-- Whether the thread that is about to run this holds the read lock. -/
def Cmd.locked : Cmd V → Bool
  | .lenLoadEnqueue | .lenLoadDequeue _ | .loadDequeue _ | .loadEnqueue .. | .read .. | .compareAndSwap .. => true
  | .enqueue _ | .len | .call _ | .expand .. | .recheck .. => false

def Cmd.begins : Cmd V → Bool
  | .enqueue _ | .len | .call _ => true
  | _ => false

/-- What the callers see, in the order in which it takes effect. -/
inductive Event (V : Type) where
  | enqueue (value : V) (err : Option QueueError)
  | dequeue (result : Except QueueError V)
  | len (n : Int)

structure State (V : Type) where
  q : SimpleQueue V
  panicked : Bool := false
  waits : Nat := 0
  history : List (Event V) := []
  /-- Each result of `Peek`, with the number of events there were when it loaded the dequeue cursor. -/
  peeks : List (Nat × Except QueueError V) := []

namespace State

variable {V : Type} [Zero V] [DecidableEq V] (s : State V)

def log (event : Event V) : State V := { s with history := s.history ++ [event] }

def setQueue (q : SimpleQueue V) : State V := { s with q }

def fail : State V := { s with panicked := true }

def wait : State V := { s with waits := s.waits + 1 }

def peeked (mark : Nat) (result : Except QueueError V) : State V :=
  { s with peeks := s.peeks ++ [(mark, result)] }

def returnEmpty : Call → Nat → State V
  | .peek, mark => s.peeked mark (.error .queueEmpty)
  | .dequeue, _ => s.log (.dequeue (.error .queueEmpty))

def exec : Cmd V → State V → State V × List (Cmd V)
  | .enqueue value, s =>
    match s.q.enqueue value with
    | none => (s.fail, [])
    | some (q, err) => ((s.setQueue q).log (.enqueue value err), [])
  | .len, s => (s, [.lenLoadEnqueue])
  | .lenLoadEnqueue, s => (s, [.lenLoadDequeue s.q.enqueueCursor])
  | .lenLoadDequeue enqueueCursor, s => (s.log (.len (enqueueCursor - s.q.dequeueCursor)), [])
  | .call call, s => (s, [.loadDequeue call])
  | .loadDequeue call, s => (s, [.loadEnqueue call s.q.dequeueCursor s.history.length])
  | .loadEnqueue call dequeueCursor mark, s =>
    if dequeueCursor ≥ s.q.enqueueCursor then (s.returnEmpty call mark, [])
    else
      let dequeuePos := s.q.physicalPos dequeueCursor
      if call = .dequeue ∧ dequeuePos ≥ s.q.queue.length then (s, [.expand dequeueCursor dequeuePos mark])
      else (s, [.read call dequeueCursor dequeuePos mark])
  | .read call dequeueCursor dequeuePos mark, s =>
    match load s.q.queue dequeuePos with
    | none => (s.fail, [])
    | some c =>
      -- The read lock is dropped and taken again before the loop goes on.
      if c = 0 then (s.wait, [.call call])
      else
        match call with
        | .peek => (s.peeked mark (.ok c), [])
        | .dequeue => (s, [.compareAndSwap dequeueCursor c])
  | .compareAndSwap dequeueCursor c, s =>
    if s.q.dequeueCursor = dequeueCursor then ((s.setQueue s.q.advance).log (.dequeue (.ok c)), [])
    else (s, [.loadDequeue .dequeue])
  | .expand dequeueCursor dequeuePos mark, s =>
    match s.q.expandLocked dequeueCursor dequeuePos with
    | none => (s.fail, [])
    | some (q, dequeuePos) => (s.setQueue q, [.recheck dequeueCursor dequeuePos mark])
  | .recheck dequeueCursor dequeuePos mark, s =>
    if s.q.dequeueCursor ≠ dequeueCursor then (s, [.loadDequeue .dequeue])
    else (s, [.read .dequeue dequeueCursor dequeuePos mark])

end State

section System

variable (V : Type) [Zero V] [DecidableEq V]

/-- Calls start at any time. Whoever writes waits until no one holds the read lock. -/
def calls : System (State V) (Cmd V) where
  exec := State.exec
  program commands := ∃ c : Cmd V, c.begins = true ∧ commands = [c]
  allowed _ pending
    | .enqueue _ | .expand .. => ∀ c ∈ pending, c.locked = false
    | _ => True

end System

def State.initial [Zero V] (initialCapacity : Int) : State V :=
  { q := SimpleQueue.newSimpleQueue initialCapacity }

namespace Fifo

variable {V : Type}

def front : List V → Except QueueError V
  | [] => .error .queueEmpty
  | c :: _ => .ok c

variable [Zero V] [DecidableEq V]

/-- What an event does to a list of values, or `none` if a first-in first-out list would not answer so. -/
def step (items : List V) : Event V → Option (List V)
  | .enqueue value none => if value = 0 then none else some (items ++ [value])
  | .enqueue value (some err) => if value = 0 ∧ err = .zeroValueNotSupported then some items else none
  | .dequeue result =>
    match items, result with
    | [], .error err => if err = .queueEmpty then some [] else none
    | c :: rest, .ok c' => if c = c' then some rest else none
    | _, _ => none
  | .len n => if n = items.length then some items else none

def replay (history : List (Event V)) : Option (List V) := history.foldlM step []

end Fifo

def enqueued (history : List (Event V)) : List V :=
  history.filterMap fun
    | .enqueue value none => some value
    | _ => none

def dequeued (history : List (Event V)) : List V :=
  history.filterMap fun
    | .dequeue (.ok c) => some c
    | _ => none

/-! ## `expandLocked` moves what is queued to the front and leaves room for one more -/

open List Option SimpleQueue

theorem load_of_nonneg {queue : List V} {pos : Int} (h : 0 ≤ pos) : load queue pos = queue[pos.toNat]? := by
  unfold load
  rw [if_pos h]

theorem copy_of_le {dst src : List V} (h : src.length ≤ dst.length) : copy dst src = src ++ dst.drop src.length := by
  unfold copy
  rw [take_of_length_le h]

variable [Zero V]

structure Clears (clear : List V → Nat → List V) (stride : Nat) : Prop where
  progress : 0 < stride
  length : ∀ queue start, (clear queue start).length = queue.length
  slot : ∀ queue start i, start < queue.length →
    (clear queue start)[i]? = if start ≤ i ∧ i < start + stride ∧ i < queue.length then some 0 else queue[i]?

theorem clears_set : Clears (fun (queue : List V) start => queue.set start 0) 1 where
  progress := Nat.one_pos
  length queue start := length_set
  slot queue start i h := by
    rw [getElem?_set]
    split
    · rw [if_pos (by omega)]
    · rw [if_neg (by omega)]

theorem clears_copyAt {zeroout : List V} (hpos : 0 < zeroout.length) (hzr : ∀ z ∈ zeroout, z = 0) :
    Clears (fun queue start => copyAt queue start zeroout) zeroout.length where
  progress := hpos
  length queue start := by
    unfold copyAt copy
    simp only [length_append, length_take, length_drop]
    omega
  slot queue start i h := by
    unfold copyAt copy
    rw [getElem?_append, length_take, getElem?_take, getElem?_append, length_take,
      length_drop, getElem?_take, drop_drop, getElem?_drop]
    split
    · rw [if_pos (by omega), if_neg (by omega)]
    split
    · rw [if_pos (by omega), if_pos (by omega), getElem?_eq_getElem (by omega)]
      rw [hzr _ (getElem_mem _)]
    rw [if_neg (by omega)]
    rcases Nat.lt_or_ge i queue.length with hi | hi
    · congr 1
      omega
    · rw [getElem?_eq_none (by omega), getElem?_eq_none hi]

theorem clearFrom_spec {clear : List V → Nat → List V} {stride : Nat} (h : Clears clear stride)
    (fuel start : Nat) (queue : List V) (hpos : 0 < fuel) (hfl : queue.length < start + fuel) :
    ∃ cleared, clearFrom clear stride fuel start queue = some cleared ∧ cleared.length = queue.length ∧
      ∀ i, cleared[i]? = if start ≤ i ∧ i < queue.length then some 0 else queue[i]? := by
  induction fuel generalizing start queue with
  | zero => omega
  | succ fuel ih =>
    have hpr := h.progress
    have hln := h.length queue start
    unfold clearFrom
    split
    · obtain ⟨cleared, hrun, hcl, hsl⟩ :=
        ih (start + stride) (clear queue start) (by omega) (by omega)
      refine ⟨cleared, hrun, hcl.trans hln, fun i => ?_⟩
      rw [hsl, h.slot _ _ _ ‹_›]
      split
      · rw [if_pos (by omega)]
      · split
        · rw [if_pos (by omega)]
        · rw [if_neg (by omega)]
    · refine ⟨queue, rfl, rfl, fun i => ?_⟩
      rw [if_neg (by omega)]

theorem doubled_of_le {used capacity : Int} (fuel : Nat) (h : used ≤ capacity) :
    doubled used (fuel + 1) capacity = some capacity := by
  unfold doubled
  rw [if_neg (by omega)]

/-! ## What is queued -/

namespace SimpleQueue

variable {q : SimpleQueue V}

def itemsFrom (q : SimpleQueue V) (cursor : Int) : List V :=
  (q.queue.take (q.enqueueCursor - q.baseCursor).toNat).drop (cursor - q.baseCursor).toNat

def items (q : SimpleQueue V) : List V := q.itemsFrom q.dequeueCursor

structure Good (q : SimpleQueue V) : Prop where
  base_le : q.baseCursor ≤ q.dequeueCursor
  dequeue_le : q.dequeueCursor ≤ q.enqueueCursor
  fits : q.enqueueCursor - q.baseCursor ≤ q.queue.length
  slots : 0 < q.queue.length
  written : ∀ value ∈ q.queue.take (q.enqueueCursor - q.baseCursor).toNat, value ≠ 0
  zeros : ∀ zeroout ∈ q.zeroout, 0 < zeroout.length ∧ ∀ z ∈ zeroout, z = 0

theorem good_newSimpleQueue (cap : Int) : (newSimpleQueue cap : SimpleQueue V).Good := by
  have hcp : 0 < (if cap < 1 then defaultQueueCapacity else cap) := by
    unfold defaultQueueCapacity
    omega
  unfold newSimpleQueue
  generalize (if cap < 1 then defaultQueueCapacity else cap) = capacity at hcp
  constructor
  · exact le_rfl
  · exact le_rfl
  · simp
  · simpa using hcp
  · simp
  · intro zeroout hzr
    obtain ⟨-, rfl⟩ : _ ∧ replicate capacity.toNat 0 = zeroout := by simpa using hzr
    exact ⟨by simpa using hcp, fun z hz => eq_of_mem_replicate hz⟩

theorem Good.itemsFrom_cons (h : q.Good) {cursor : Int} (hbs : q.baseCursor ≤ cursor)
    (hlt : cursor < q.enqueueCursor) : ∃ c, c ≠ 0 ∧ load q.queue (q.physicalPos cursor) = some c ∧
      q.itemsFrom cursor = c :: q.itemsFrom (cursor + 1) := by
  have hft := h.fits
  have hpos : (cursor - q.baseCursor).toNat < (q.queue.take (q.enqueueCursor - q.baseCursor).toNat).length := by
    rw [length_take]
    omega
  refine ⟨_, h.written _ (getElem_mem hpos), ?_, ?_⟩
  · unfold physicalPos
    rw [load_of_nonneg (by omega), getElem_take, getElem?_eq_getElem]
  unfold itemsFrom
  rw [drop_eq_getElem_cons hpos]
  congr 2
  omega

theorem Good.itemsFrom_nil (_ : q.Good) {cursor : Int} (h : q.enqueueCursor ≤ cursor) : q.itemsFrom cursor = [] := by
  unfold itemsFrom
  rw [drop_eq_nil_iff, length_take]
  omega

theorem Good.length_items (h : q.Good) : (q.items.length : Int) = q.enqueueCursor - q.dequeueCursor := by
  obtain ⟨hbs, hle, hft, -, -, -⟩ := h
  unfold items itemsFrom
  rw [length_drop, length_take]
  omega

theorem Good.advance (h : q.Good) (hlt : q.dequeueCursor < q.enqueueCursor) : q.advance.Good where
  base_le := by
    have := h.base_le
    unfold SimpleQueue.advance
    dsimp only
    omega
  dequeue_le := by
    unfold SimpleQueue.advance
    dsimp only
    omega
  fits := h.fits
  slots := h.slots
  written := h.written
  zeros := h.zeros

omit [Zero V] in
theorem items_of_full (hfl : q.enqueueCursor - q.baseCursor = q.queue.length) :
    q.items = q.queue.drop (q.dequeueCursor - q.baseCursor).toNat := by
  unfold items itemsFrom
  rw [take_of_length_le (by omega)]

theorem Good.zeroTail (h : q.Good) (live rest : List V) :
    q.zeroTail live.length (live ++ rest) = some (live ++ replicate rest.length 0) := by
  have hcl : ∃ cleared, q.zeroTail live.length (live ++ rest) = some cleared ∧
      cleared.length = (live ++ rest).length ∧ ∀ i, cleared[i]? =
        if live.length ≤ i ∧ i < (live ++ rest).length then some 0 else (live ++ rest)[i]? := by
    unfold SimpleQueue.zeroTail
    split
    · obtain ⟨hpos, hzr⟩ := h.zeros _ ‹_›
      exact clearFrom_spec (clears_copyAt hpos hzr) _ _ _ (by omega) (by omega)
    · exact clearFrom_spec clears_set _ _ _ (by omega) (by omega)
  obtain ⟨cleared, hrun, -, hsl⟩ := hcl
  rw [hrun]
  congr 1
  apply ext_getElem?
  intro i
  rw [hsl, length_append, getElem?_append, getElem?_append, getElem?_replicate]
  split
  · rw [if_neg (by omega), if_pos (by omega)]
  · split
    · rfl
    · rw [if_neg (by omega), getElem?_eq_none (by omega)]

theorem Good.repacked (h : q.Good) (hfl : q.enqueueCursor - q.baseCursor = q.queue.length) :
    ∃ k, q.repacked (q.dequeueCursor - q.baseCursor) (q.enqueueCursor - q.dequeueCursor) =
      some (q.items ++ replicate (k + 1) 0) := by
  set taken := q.dequeueCursor - q.baseCursor
  have hbs := h.base_le
  have hle := h.dequeue_le
  have hsl := h.slots
  have hlv : (q.queue.drop taken.toNat).length =
      (q.queue.length - taken).toNat := by
    rw [length_drop]
    omega
  rw [items_of_full hfl]
  unfold SimpleQueue.repacked sliceFrom
  rw [if_pos (by omega), bind_some]
  generalize q.queue.drop taken.toNat = live at hlv ⊢
  split
  · refine ⟨2 * q.queue.length - live.length - 1, ?_⟩
    rw [doubled_of_le _ (by omega), map_some, copy_of_le (by rw [length_replicate]; omega), drop_replicate]
    congr 3
    omega
  -- In place: what the moved values leave behind is cleared.
  refine ⟨q.queue.length - live.length - 1, ?_⟩
  rw [copy_of_le (by omega), ← hlv, h.zeroTail, length_drop]
  congr 3
  omega

/-! ## Enqueue -/

theorem Good.put (h : q.Good) {value : V} (hvl : value ≠ 0) (hrm : q.enqueueCursor - q.baseCursor < q.queue.length) :
    ∃ queue, store q.queue (q.enqueueCursor - q.baseCursor) value = some queue ∧
      { q with queue, enqueueCursor := q.enqueueCursor + 1 : SimpleQueue V }.Good ∧
      { q with queue, enqueueCursor := q.enqueueCursor + 1 : SimpleQueue V }.items = q.items ++ [value] := by
  set put := q.enqueueCursor - q.baseCursor
  obtain ⟨hbs, hle, hft, hsl, hwr, hzr⟩ := h
  have htk : (q.queue.set put.toNat value).take
      (q.enqueueCursor + 1 - q.baseCursor).toNat = q.queue.take put.toNat ++ [value] := by
    rw [set_eq_take_append_cons_drop, if_pos (by omega), take_append, length_take,
      take_of_length_le (by rw [length_take]; omega)]
    rw [show (q.enqueueCursor + 1 - q.baseCursor).toNat -
      min put.toNat q.queue.length = 1 by omega]
    rfl
  refine ⟨_, if_pos (by omega), ⟨?_, ?_, ?_, ?_, ?_, hzr⟩, ?_⟩
  · exact hbs
  · dsimp only
    omega
  · rw [length_set]
    dsimp only
    omega
  · rw [length_set]
    exact hsl
  · intro v hv
    rw [htk, mem_append, mem_singleton] at hv
    rcases hv with hv | rfl
    · exact hwr v hv
    · exact hvl
  · unfold items itemsFrom
    dsimp only
    rw [htk, drop_append_of_le_length]
    rw [length_take]
    omega

theorem Good.expanded (h : q.Good) (k : Nat) :
    { q with queue := q.items ++ replicate (k + 1) 0, baseCursor := q.dequeueCursor : SimpleQueue V }.Good ∧
    { q with queue := q.items ++ replicate (k + 1) 0, baseCursor := q.dequeueCursor : SimpleQueue V }.items =
      q.items := by
  have hln := h.length_items
  have hle := h.dequeue_le
  have htk : (q.items ++ replicate (k + 1) 0).take (q.enqueueCursor - q.dequeueCursor).toNat = q.items := by
    rw [take_append_of_le_length (by omega), take_of_length_le (by omega)]
  refine ⟨⟨le_rfl, hle, ?_, ?_, ?_, h.zeros⟩, ?_⟩
  · rw [length_append, length_replicate]
    dsimp only
    omega
  · rw [length_append, length_replicate]
    omega
  · rw [htk]
    exact fun value hvl => h.written value (mem_of_mem_drop hvl)
  · unfold items itemsFrom at htk ⊢
    rw [htk, Int.sub_self]
    exact drop_zero

theorem expandLocked_advanced {newQueue : List V} (hfl : q.enqueueCursor - q.baseCursor ≥ q.queue.length)
    (hrp : q.repacked (q.dequeueCursor - q.baseCursor) (q.enqueueCursor - q.dequeueCursor) = some newQueue) :
    { q with enqueueCursor := q.enqueueCursor + 1 : SimpleQueue V }.expandLocked q.enqueueCursor
        (q.enqueueCursor - q.baseCursor) =
      some ({ q with queue := newQueue, enqueueCursor := q.enqueueCursor + 1, baseCursor := q.dequeueCursor },
        q.enqueueCursor - q.dequeueCursor) := by
  set taken := q.dequeueCursor - q.baseCursor
  unfold expandLocked physicalPos
  dsimp only
  rw [if_neg (by omega)]
  have hus : q.enqueueCursor + 1 - q.baseCursor - 1 - taken =
      q.enqueueCursor - q.dequeueCursor := by omega
  have hbs : q.baseCursor + taken = q.dequeueCursor := by omega
  rw [hus, hbs]
  have hsm : { q with enqueueCursor := q.enqueueCursor + 1 : SimpleQueue V }.repacked
      taken (q.enqueueCursor - q.dequeueCursor) = some newQueue := hrp
  rw [hsm, map_some]

theorem Good.enqueueLocked (h : q.Good) {value : V} (hvl : value ≠ 0) :
    ∃ q', q.enqueueLocked value = some q' ∧ q'.Good ∧ q'.items = q.items ++ [value] := by
  have hft := h.fits
  unfold SimpleQueue.enqueueLocked physicalPos
  dsimp only
  split
  · have hfl : q.enqueueCursor - q.baseCursor = q.queue.length := by omega
    obtain ⟨k, hrp⟩ := h.repacked hfl
    obtain ⟨hgd, hitm⟩ := h.expanded k
    have hln := h.length_items
    obtain ⟨queue, hst, hput, hputItems⟩ := hgd.put hvl (by
      rw [length_append, length_replicate]
      dsimp only
      omega)
    rw [expandLocked_advanced (by omega) hrp, bind_some, hst]
    exact ⟨_, rfl, hput, hputItems.trans (by rw [hitm])⟩
  · obtain ⟨queue, hst, hgd, hitm⟩ := h.put hvl (by omega)
    rw [bind_some, hst]
    exact ⟨_, rfl, hgd, hitm⟩

variable [DecidableEq V]

theorem enqueue_zero (q : SimpleQueue V) : q.enqueue 0 = some (q, some .zeroValueNotSupported) := by
  unfold enqueue
  rw [if_pos rfl]

theorem Good.enqueue (h : q.Good) (value : V) : ∃ q' err, q.enqueue value = some (q', err) ∧ q'.Good ∧
      Fifo.step q.items (.enqueue value err) = some q'.items := by
  rcases eq_or_ne value 0 with rfl | hvl
  · exact ⟨q, _, enqueue_zero q, h, if_pos ⟨rfl, rfl⟩⟩
  obtain ⟨q', hrun, hgd, hitm⟩ := h.enqueueLocked hvl
  refine ⟨q', none, ?_, hgd, ?_⟩
  · unfold SimpleQueue.enqueue
    rw [if_neg hvl, hrun, map_some]
  · rw [hitm]
    exact if_neg hvl

end SimpleQueue

/-! ## First in, first out

Whatever calls run at the same time, the queue answers as a list that grows at its end and shrinks at its front. -/

open Multiset Fifo

variable [DecidableEq V]

namespace Fifo

theorem replay_snoc (history : List (Event V)) (event : Event V) :
    replay (history ++ [event]) = (replay history).bind fun items => step items event := by
  unfold replay
  rw [foldlM_append]
  cases history.foldlM step [] with
  | none => rfl
  | some items => simp

omit [Zero V] [DecidableEq V] in
theorem enqueued_cons (event : Event V) (history : List (Event V)) :
    enqueued (event :: history) = enqueued [event] ++ enqueued history := by
  unfold enqueued
  rw [← filterMap_append, singleton_append]

omit [Zero V] [DecidableEq V] in
theorem dequeued_cons (event : Event V) (history : List (Event V)) :
    dequeued (event :: history) = dequeued [event] ++ dequeued history := by
  unfold dequeued
  rw [← filterMap_append, singleton_append]

theorem step_conserved {items next : List V} {event : Event V} (h : step items event = some next) :
    items ++ enqueued [event] = dequeued [event] ++ next := by
  unfold step at h
  split at h
  · obtain ⟨-, rfl⟩ : _ ∧ items ++ _ = next := by simpa using h
    rfl
  · obtain ⟨-, rfl⟩ : _ ∧ items = next := by simpa using h
    exact append_nil _
  · split at h
    · obtain ⟨-, rfl⟩ : _ ∧ next = [] := by simpa using h
      rfl
    · obtain ⟨rfl, rfl⟩ : _ = _ ∧ _ = next := by simpa using h
      exact append_nil _
    · cases h
  · obtain ⟨-, rfl⟩ : _ ∧ items = next := by simpa using h
    exact append_nil _

/-- Whatever a list has answered, it holds what was put in and not taken out, in order. -/
theorem conserved {items items' : List V} (history : List (Event V)) (h : history.foldlM step items = some items') :
    items ++ enqueued history = dequeued history ++ items' := by
  induction history generalizing items with
  | nil =>
    obtain rfl : items = items' := by simpa using h
    exact append_nil _
  | cons event history ih =>
    obtain ⟨next, hst, hrs⟩ := Option.bind_eq_some_iff.1 h
    rw [enqueued_cons, dequeued_cons, ← append_assoc, step_conserved hst, append_assoc, ih hrs, append_assoc]

end Fifo

/-! ## What holds between the steps -/

structure Seen (s : State V) (dequeueCursor : Int) (mark : Nat) : Prop where
  base_le : s.q.baseCursor ≤ dequeueCursor
  cursor_le : dequeueCursor ≤ s.q.dequeueCursor
  mark_le : mark ≤ s.history.length
  replay : Fifo.replay (s.history.take mark) = some (s.q.itemsFrom dequeueCursor)

/-- What a thread knows before its next step. A `Dequeue` never has to expand. -/
def Ready (s : State V) : Cmd V → Prop
  | .lenLoadDequeue enqueueCursor => enqueueCursor = s.q.enqueueCursor
  | .loadEnqueue _ dequeueCursor mark => Seen s dequeueCursor mark
  | .read _ dequeueCursor dequeuePos mark =>
    Seen s dequeueCursor mark ∧ dequeueCursor < s.q.enqueueCursor ∧ dequeuePos = s.q.physicalPos dequeueCursor
  | .compareAndSwap dequeueCursor c =>
    dequeueCursor < s.q.enqueueCursor ∧ c ≠ 0 ∧ load s.q.queue (s.q.physicalPos dequeueCursor) = some c
  | .expand .. | .recheck .. => False
  | _ => True

structure Answered (s : State V) : Prop where
  good : s.q.Good
  inRange : s.panicked = false
  unwaiting : s.waits = 0
  replay : Fifo.replay s.history = some s.q.items
  peeks : ∀ peek ∈ s.peeks, peek.1 ≤ s.history.length ∧
    ∃ items, Fifo.replay (s.history.take peek.1) = some items ∧ peek.2 = Fifo.front items

structure Inv (s : State V) (M : Multiset (Cmd V)) : Prop extends Answered s where
  ready : ∀ c ∈ M, Ready s c

structure Kept (s s' : State V) : Prop where
  queue : s'.q.queue = s.q.queue
  enqueueCursor : s'.q.enqueueCursor = s.q.enqueueCursor
  baseCursor : s'.q.baseCursor = s.q.baseCursor
  dequeueCursor_le : s.q.dequeueCursor ≤ s'.q.dequeueCursor
  history : s.history <+: s'.history

variable {s s' : State V} {M : Multiset (Cmd V)} {c : Cmd V}

variable {mark : Nat} {dequeueCursor : Int}

omit [Zero V] [DecidableEq V] in
theorem take_of_isPrefix {history history' : List (Event V)} (h : history <+: history')
    (hmr : mark ≤ history.length) : history'.take mark = history.take mark := by
  obtain ⟨later, rfl⟩ := h
  exact take_append_of_le_length hmr

open SimpleQueue

theorem Seen.kept (h : Seen s dequeueCursor mark) (hkp : Kept s s') : Seen s' dequeueCursor mark where
  base_le := by
    rw [hkp.baseCursor]
    exact h.base_le
  cursor_le := h.cursor_le.trans hkp.dequeueCursor_le
  mark_le := h.mark_le.trans hkp.history.length_le
  replay := by
    rw [take_of_isPrefix hkp.history h.mark_le, h.replay]
    unfold itemsFrom
    rw [hkp.queue, hkp.enqueueCursor, hkp.baseCursor]

theorem Ready.kept (h : Ready s c) (hkp : Kept s s') : Ready s' c := by
  unfold Ready at h ⊢
  unfold physicalPos at h ⊢
  rw [hkp.queue, hkp.enqueueCursor, hkp.baseCursor]
  split at h
  · exact h
  · exact h.kept hkp
  · exact ⟨h.1.kept hkp, h.2⟩
  · exact h
  · exact h
  · exact h
  · trivial

theorem Ready.of_unlocked (h : Ready s c) (hun : c.locked = false) : Ready s' c := by
  cases c <;> first | exact h | trivial

theorem Inv.tail (h : Inv s (c ::ₘ M)) : ∀ d ∈ M, Ready s d :=
  fun d hd => h.ready d (mem_cons_of_mem hd)

theorem Inv.pass (h : Inv s (c ::ₘ M)) {next : Cmd V} (hnx : Ready s next) : Inv s (↑[next] + M) where
  toAnswered := h.toAnswered
  ready d hd := by
    rcases mem_add.1 hd with hd | hd
    · obtain rfl : d = next := by simpa using hd
      exact hnx
    · exact h.tail d hd

theorem Inv.last (han : Answered s') (hrd : ∀ d ∈ M, Ready s' d) : Inv s' (↑([] : List (Cmd V)) + M) where
  toAnswered := han
  ready := by simpa using hrd

/-! ## The steps -/

open State

theorem Answered.log (h : Answered s) {event : Event V} {q : SimpleQueue V} (hgd : q.Good)
    (hst : step s.q.items event = some q.items) : Answered ((s.setQueue q).log event) where
  good := hgd
  inRange := h.inRange
  unwaiting := h.unwaiting
  replay := by
    unfold State.log State.setQueue
    rw [replay_snoc, h.replay, Option.bind_some, hst]
  peeks peek hpk := by
    obtain ⟨hle, hpd⟩ := h.peeks peek hpk
    have hpre : s.history <+: s.history ++ [event] := prefix_append _ _
    refine ⟨hle.trans hpre.length_le, ?_⟩
    unfold State.log State.setQueue
    rw [take_of_isPrefix hpre hle]
    exact hpd

theorem Answered.peeked (h : Answered s) {result : Except QueueError V} {items : List V}
    (hmr : mark ≤ s.history.length) (hrp : Fifo.replay (s.history.take mark) = some items)
    (hrs : result = Fifo.front items) : Answered (s.peeked mark result) where
  good := h.good
  inRange := h.inRange
  unwaiting := h.unwaiting
  replay := h.replay
  peeks peek hpk := by
    unfold State.peeked at hpk
    rw [List.mem_append, List.mem_singleton] at hpk
    rcases hpk with hpk | rfl
    · exact h.peeks peek hpk
    · exact ⟨hmr, items, hrp, hrs⟩

section

omit [Zero V] [DecidableEq V]

theorem kept_log (s : State V) (event : Event V) : Kept s (s.log event) :=
  ⟨rfl, rfl, rfl, le_rfl, prefix_append _ _⟩

theorem kept_peeked (s : State V) (mark : Nat) (result : Except QueueError V) : Kept s (s.peeked mark result) :=
  ⟨rfl, rfl, rfl, le_rfl, prefix_rfl⟩

theorem kept_advance (s : State V) (event : Event V) : Kept s ((s.setQueue s.q.advance).log event) where
  queue := rfl
  enqueueCursor := rfl
  baseCursor := rfl
  dequeueCursor_le := by
    show s.q.dequeueCursor ≤ s.q.dequeueCursor + 1
    omega
  history := prefix_append _ _

end

theorem Inv.enqueue {value : V} (h : Inv s (.enqueue value ::ₘ M)) (hun : ∀ c ∈ M, c.locked = false) :
    Inv (exec (.enqueue value) s).1 (↑(exec (.enqueue value) s).2 + M) := by
  obtain ⟨q, err, hrun, hgd, hst⟩ := h.good.enqueue value
  dsimp only [exec]
  rw [hrun]
  exact .last (h.log hgd hst) fun d hd => (h.tail d hd).of_unlocked (hun d hd)

theorem Inv.lenLoadDequeue {cursor : Int} (h : Inv s (.lenLoadDequeue cursor ::ₘ M)) :
    Inv (s.log (.len (cursor - s.q.dequeueCursor))) (↑([] : List (Cmd V)) + M) := by
  obtain rfl : cursor = s.q.enqueueCursor := h.ready _ (mem_cons_self _ _)
  refine .last (h.log h.good ?_) fun d hd => (h.tail d hd).kept (kept_log s _)
  exact if_pos h.good.length_items.symm

theorem Answered.seen (h : Answered s) : Seen s s.q.dequeueCursor s.history.length where
  base_le := h.good.base_le
  cursor_le := le_rfl
  mark_le := le_rfl
  replay := by
    rw [take_length]
    exact h.replay

theorem Inv.loadEnqueue {call : Call} (h : Inv s (.loadEnqueue call dequeueCursor mark ::ₘ M)) :
    let r := exec (.loadEnqueue call dequeueCursor mark) s
    Inv r.1 (↑r.2 + M) := by
  have hsn : Seen s dequeueCursor mark := h.ready _ (mem_cons_self _ _)
  have hft := h.good.fits
  dsimp only [exec]
  split
  · -- The cursor has not moved past the end, so the queue is empty now as it was when it was loaded.
    have hle := hsn.cursor_le
    cases call with
    | peek =>
      refine .last (h.peeked hsn.mark_le hsn.replay ?_) fun d hd => (h.tail d hd).kept (kept_peeked s _ _)
      rw [h.good.itemsFrom_nil ‹_›]
      rfl
    | dequeue =>
      have hem : s.q.items = [] := h.good.itemsFrom_nil (by omega)
      refine .last (h.log h.good ?_) fun d hd => (h.tail d hd).kept (kept_log s _)
      rw [hem]
      rfl
  · have hin : ¬ (call = .dequeue ∧ s.q.physicalPos dequeueCursor ≥ s.q.queue.length) := by
      unfold physicalPos
      omega
    rw [if_neg hin]
    exact h.pass ⟨hsn, by omega, rfl⟩

theorem Inv.read {call : Call} {dequeuePos : Int} (h : Inv s (.read call dequeueCursor dequeuePos mark ::ₘ M)) :
    let r := exec (.read call dequeueCursor dequeuePos mark) s
    Inv r.1 (↑r.2 + M) := by
  obtain ⟨hsn, hlt, rfl⟩ := h.ready _ (mem_cons_self _ _)
  obtain ⟨c, hc, hld, hitm⟩ := h.good.itemsFrom_cons hsn.base_le hlt
  dsimp only [exec]
  rw [hld]
  dsimp only
  rw [if_neg hc]
  cases call with
  | peek =>
    refine .last (h.peeked hsn.mark_le hsn.replay ?_) fun d hd => (h.tail d hd).kept (kept_peeked s _ _)
    rw [hitm]
    rfl
  | dequeue => exact h.pass ⟨hlt, hc, hld⟩

theorem Inv.compareAndSwap {c : V} (h : Inv s (.compareAndSwap dequeueCursor c ::ₘ M)) :
    let r := exec (.compareAndSwap dequeueCursor c) s
    Inv r.1 (↑r.2 + M) := by
  obtain ⟨hlt, hc, hld⟩ := h.ready _ (mem_cons_self _ _)
  dsimp only [exec]
  split
  · subst dequeueCursor
    obtain ⟨head, -, hhd, hitm⟩ := h.good.itemsFrom_cons h.good.base_le hlt
    obtain rfl : c = head := by simpa [hld] using hhd
    refine .last (h.log (h.good.advance hlt) ?_) fun d hd => (h.tail d hd).kept (kept_advance s _)
    have hfr : s.q.items = c :: s.q.advance.items := hitm
    rw [hfr]
    exact if_pos rfl
  · exact h.pass trivial

theorem Inv.exec (h : Inv s (c ::ₘ M)) (hal : (calls V).allowed s (c ::ₘ M) c) :
    Inv (exec c s).1 (↑(exec c s).2 + M) := by
  cases c with
  | enqueue value => exact h.enqueue fun d hd => hal d (mem_cons_of_mem hd)
  | len => exact h.pass trivial
  | lenLoadEnqueue => exact h.pass rfl
  | lenLoadDequeue enqueueCursor => exact h.lenLoadDequeue
  | call call => exact h.pass trivial
  | loadDequeue call => exact h.pass h.seen
  | loadEnqueue call dequeueCursor mark => exact h.loadEnqueue
  | read call dequeueCursor dequeuePos mark => exact h.read
  | compareAndSwap dequeueCursor c => exact h.compareAndSwap
  | expand | recheck => exact (h.ready _ (mem_cons_self _ _)).elim

theorem inv_initial (cap : Int) : Inv (initial cap : State V) 0 where
  good := good_newSimpleQueue cap
  inRange := rfl
  unwaiting := rfl
  replay := by
    rfl
  peeks peek hpk := by cases hpk
  ready c hc := by simp at hc

theorem Inv.reachable {cap : Int} {p : Pool (State V) (Cmd V)}
    (h : (calls V).Reachable (initial cap) p) : Inv p.state p.pending := by
  refine h.invariant (inv_initial cap) ?_ fun s M c hal hinv => hinv.exec hal
  rintro s M _ ⟨c, hbg, rfl⟩ hinv
  refine ⟨hinv.toAnswered, fun d hd => ?_⟩
  rcases mem_add.1 hd with hd | hd
  · obtain rfl : d = c := by simpa using hd
    cases d <;> trivial
  · exact hinv.ready d hd

section

variable (h : Answered s)
include h

theorem Answered.head (hlt : s.q.dequeueCursor < s.q.enqueueCursor) :
    ∃ c, c ≠ 0 ∧ load s.q.queue (s.q.physicalPos s.q.dequeueCursor) = some c ∧
      s.q.physicalPos s.q.dequeueCursor < s.q.queue.length ∧ front s.q.items = .ok c := by
  obtain ⟨c, hc, hld, hitm⟩ := h.good.itemsFrom_cons h.good.base_le hlt
  have hft := h.good.fits
  refine ⟨c, hc, hld, ?_, ?_⟩
  · unfold physicalPos
    omega
  · unfold items
    rw [hitm]
    rfl

theorem Answered.front_of_le (hle : s.q.enqueueCursor ≤ s.q.dequeueCursor) : front s.q.items = .error .queueEmpty := by
  unfold items
  rw [h.good.itemsFrom_nil hle]
  rfl

open System

theorem Answered.dequeue_alone : ∃ s', (calls V).solo 5 s [.call .dequeue] = (s', []) ∧
    s'.history = s.history ++ [.dequeue (front s.q.items)] := by
  rcases lt_or_ge s.q.dequeueCursor s.q.enqueueCursor with hlt | hle
  · obtain ⟨c, hc, hld, hin, hfr⟩ := h.head hlt
    refine ⟨(s.setQueue s.q.advance).log (.dequeue (.ok c)), ?_, ?_⟩
    · simp [System.solo, calls, State.exec, hld, hc, Int.not_le.2 hlt, Int.not_le.2 hin]
    · rw [hfr]
      rfl
  · refine ⟨s.log (.dequeue (.error .queueEmpty)), ?_, ?_⟩
    · simp [System.solo, calls, State.exec, State.returnEmpty, hle]
    · rw [h.front_of_le hle]
      rfl

theorem Answered.peek_alone :
    (calls V).solo 4 s [.call .peek] = (s.peeked s.history.length (front s.q.items), []) := by
  rcases lt_or_ge s.q.dequeueCursor s.q.enqueueCursor with hlt | hle
  · obtain ⟨c, hc, hld, hin, hfr⟩ := h.head hlt
    rw [hfr]
    simp [System.solo, calls, State.exec, hld, hc, Int.not_le.2 hlt]
  · rw [h.front_of_le hle]
    simp [System.solo, calls, State.exec, State.returnEmpty, hle]

theorem Answered.len_alone : (calls V).solo 3 s [.len] = (s.log (.len s.q.items.length), []) := by
  rw [h.good.length_items]
  rfl

end

/-! ## Every run is first in, first out -/

/-- Whatever calls run at the same time, no index is out of range, no call meets a zero slot, and the results are those of
a list. -/
theorem SimpleQueue.first_in_first_out (initialCapacity : Int) {p : Pool (State V) (Cmd V)}
    (h : (calls V).Reachable (State.initial initialCapacity) p) : p.state.panicked = false ∧ p.state.waits = 0 ∧
    (p.state.q.dequeueCursor < p.state.q.enqueueCursor →
      ∃ c, c ≠ 0 ∧ load p.state.q.queue (p.state.q.physicalPos p.state.q.dequeueCursor) = some c) ∧
    p.state.q.enqueue 0 = some (p.state.q, some .zeroValueNotSupported) ∧
    (∀ peek ∈ p.state.peeks, ∃ items, Fifo.replay (p.state.history.take peek.1) = some items ∧
      peek.2 = Fifo.front items) ∧ ∃ items, Fifo.replay p.state.history = some items ∧
      enqueued p.state.history = dequeued p.state.history ++ items ∧ (∀ value, (p.state.q.enqueue value).isSome) ∧
      (((calls V).alone p [.call .dequeue] 5).threads = p.threads ++ [[]] ∧
        ((calls V).alone p [.call .dequeue] 5).state.history = p.state.history ++ [.dequeue (Fifo.front items)]) ∧
      (((calls V).alone p [.call .peek] 4).threads = p.threads ++ [[]] ∧
        ((calls V).alone p [.call .peek] 4).state.peeks =
          p.state.peeks ++ [(p.state.history.length, Fifo.front items)]) ∧
      ((calls V).alone p [.len] 3).threads = p.threads ++ [[]] ∧
        ((calls V).alone p [.len] 3).state.history = p.state.history ++ [.len items.length] := by
  have hinv := Inv.reachable h
  refine ⟨hinv.inRange, hinv.unwaiting, ?_, enqueue_zero _, fun peek hpeek => (hinv.peeks peek hpeek).2, p.state.q.items,
    hinv.replay, conserved _ hinv.replay, ?_, ?_, ?_, ?_⟩
  · intro hlt
    obtain ⟨c, hc, hload, -⟩ := hinv.head hlt
    exact ⟨c, hc, hload⟩
  · intro value
    obtain ⟨q, err, hrun, -⟩ := hinv.good.enqueue value
    rw [hrun]
    rfl
  · obtain ⟨s, hrun, hhistory⟩ := hinv.dequeue_alone
    rw [System.alone_eq, hrun]
    exact ⟨rfl, hhistory⟩
  · rw [System.alone_eq, hinv.peek_alone]
    exact ⟨rfl, rfl⟩
  · rw [System.alone_eq, hinv.len_alone]
    exact ⟨rfl, rfl⟩

instance allowedDecidable (s : State V) (M : Multiset (Cmd V)) (c : Cmd V) : Decidable ((calls V).allowed s M c) := by
  cases c <;> unfold calls <;> dsimp only <;> infer_instance

/-- A pointer to one of three requests, or nil. -/
inductive Request where
  | nil
  | first
  | second
  | third
  deriving DecidableEq

instance requestZero : Zero Request := ⟨.nil⟩

/-- Three values through a slice of one slot, and two `Dequeue` that race for the first of them. -/
def race : List (System.Action (Cmd Request)) :=
  ([.start [.enqueue .first], .start [.enqueue .second], .start [.enqueue .third], .run 0, .run 1, .run 2,
    .start [.call .dequeue], .start [.call .dequeue]] : List (System.Action (Cmd Request))) ++
  List.replicate 4 (.run 3) ++ List.replicate 4 (.run 4) ++ [.run 3] ++ List.replicate 5 (.run 4)

def raced : Pool (State Request) (Cmd Request) := (calls Request).play ⟨State.initial 1, []⟩ race

theorem race_legal : (calls Request).Legal ⟨initial 1, []⟩ race := by
  refine ⟨fun commands hmem => ?_, by decide⟩
  have hst : commands = [.enqueue .first] ∨ commands = [.enqueue .second] ∨ commands = [.enqueue .third] ∨
      commands = [.call .dequeue] := by simpa [race] using hmem
  rcases hst with rfl | rfl | rfl | rfl <;> exact ⟨_, rfl, rfl⟩

theorem SimpleQueue.first_in_first_out_race : ∃ items, Fifo.replay raced.state.history = some items ∧
    [.first, .second, .third] = [.first, .second] ++ items := by
  obtain ⟨-, -, -, -, -, items, hreplay, hconserved, -⟩ := first_in_first_out 1
    (System.Reachable.play .refl race_legal)
  exact ⟨items, hreplay, hconserved⟩

end Aibrix.Queue
