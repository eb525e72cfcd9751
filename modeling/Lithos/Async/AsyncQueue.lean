/-
The message queue between threads (`async_queue.c`).

A circular buffer of slots, each with the length of a message and its bytes. Every operation runs under the mutex of the
queue; a writer that waits for room gives the mutex up and tries again later, so each of its attempts is an operation of
its own. A run is any list of operations, whichever threads they come from.

Result:
* `fifo`: messages leave the queue in the order in which they were accepted, each delivered as it was given; the ones that
  leave undelivered leave a full queue of the drop-oldest policy, and the counters add up.
-/
import Lithos.Core.Ring
import Lithos.Lpc.Types

namespace Lithos.Async

open Lithos.Core List
open Lithos.Lpc (Byte)

/-! ## The queue -/

/-- `async_queue_flags_t`, the ones that decide what happens to messages -/
structure QueueFlags where
  dropOldest : Bool
  blockWriter : Bool
deriving DecidableEq, Repr

/-- a slot of the buffer: the length and the room for the message -/
structure Slot where
  size : ℕ
  bytes : ℕ → Byte

/-- `*(size_t*)slot = size; memcpy (slot + sizeof(size_t), data, size)` -/
def Slot.store (slot : Slot) (msg : List Byte) : Slot where
  size := msg.length
  bytes := fun i => (msg[i]?).getD (slot.bytes i)

/-- the message that is copied out of a slot -/
def Slot.load (slot : Slot) : List Byte := (range slot.size).map slot.bytes

/-- `async_queue_t`. `async_queue_create` refuses to make a queue without room. -/
structure AsyncQueue where
  buffer : ℕ → Slot
  capacity : ℕ
  maxMsgSize : ℕ
  head : ℕ
  tail : ℕ
  count : ℕ
  flags : QueueFlags
  enqueueCount : UInt64
  dequeueCount : UInt64
  droppedCount : UInt64
  capacity_pos : 0 < capacity

namespace AsyncQueue

/-- `async_queue_create`; the buffer is cleared -/
def create (capacity maxMsgSize : ℕ) (flags : QueueFlags) : Option AsyncQueue :=
  if h : 0 < capacity ∧ 0 < maxMsgSize then
    some ⟨fun _ => ⟨0, fun _ => 0⟩, capacity, maxMsgSize, 0, 0, 0, flags, 0, 0, 0, h.1⟩
  else none

/-- how an operation ends: `waiting` is a writer that has to try again -/
inductive Outcome where
  | refused
  | waiting
  | accepted
  | delivered (msg : List Byte)
deriving DecidableEq, Repr

/-- the oldest message is dropped -/
def drop (q : AsyncQueue) : AsyncQueue :=
  { q with
    tail := (q.tail + 1) % q.capacity
    count := q.count - 1
    droppedCount := q.droppedCount + 1 }

/-- the loop of `async_queue_enqueue` with the drop-oldest policy, and the messages it drops; each round takes one out -/
def dropLoop : ℕ → AsyncQueue → List (List Byte) × AsyncQueue
  | 0, q => ([], q)
  | fuel + 1, q =>
    if q.capacity ≤ q.count then
      let r := dropLoop fuel q.drop
      ((q.buffer q.tail).load :: r.1, r.2)
    else ([], q)

/-- the rest of `async_queue_enqueue` -/
def put (q : AsyncQueue) (msg : List Byte) : AsyncQueue :=
  { q with
    buffer := Function.update q.buffer q.head ((q.buffer q.head).store msg)
    head := (q.head + 1) % q.capacity
    count := q.count + 1
    enqueueCount := q.enqueueCount + 1 }

/-- `async_queue_enqueue`, up to its end or to the point where it waits -/
def enqueue (q : AsyncQueue) (msg : List Byte) : AsyncQueue × Outcome :=
  if msg.length = 0 ∨ q.maxMsgSize < msg.length then (q, .refused)
  else if q.flags.dropOldest then ((dropLoop q.count q).2.put msg, .accepted)
  else if q.capacity ≤ q.count then (q, if q.flags.blockWriter then .waiting else .refused)
  else (q.put msg, .accepted)

/-- the oldest message is taken out -/
def take (q : AsyncQueue) : AsyncQueue :=
  { q with
    tail := (q.tail + 1) % q.capacity
    count := q.count - 1
    dequeueCount := q.dequeueCount + 1 }

/-- `async_queue_dequeue` -/
def dequeue (q : AsyncQueue) (bufferSize : ℕ) : AsyncQueue × Outcome :=
  if q.count = 0 then (q, .refused)
  else
    let slot := q.buffer q.tail
    if bufferSize < slot.size then (q, .refused)
    else (q.take, .delivered slot.load)

/-- an operation of some thread -/
inductive Op where
  | enqueue (thread : ℕ) (msg : List Byte)
  | dequeue (thread : ℕ) (bufferSize : ℕ)
deriving DecidableEq, Repr

/-- how a message leaves the queue -/
inductive Fate where
  | delivered
  | dropped
deriving DecidableEq, Repr

end AsyncQueue

open AsyncQueue

/-- a queue, with the messages accepted so far and those that have left it, in order -/
structure History where
  queue : AsyncQueue
  accepted : List (List Byte)
  left : List (Fate × List Byte)

namespace History

def step (s : History) : Op → History
  | .enqueue _ msg =>
    match s.queue.enqueue msg with
    | (q, .accepted) =>
      let lost := if s.queue.flags.dropOldest then (dropLoop s.queue.count s.queue).1 else []
      ⟨q, s.accepted ++ [msg], s.left ++ lost.map (Prod.mk .dropped)⟩
    | (q, _) => { s with queue := q }
  | .dequeue _ bufferSize =>
    match s.queue.dequeue bufferSize with
    | (q, .delivered msg) => { s with queue := q, left := s.left ++ [(.delivered, msg)] }
    | (q, _) => { s with queue := q }

def run (s : History) (ops : List Op) : History := ops.foldl step s

/-- the messages that left in a given way -/
def leftAs (s : History) (f : Fate) : List (List Byte) := (s.left.filter (·.1 = f)).map Prod.snd

end History

/-! ## Contents -/

namespace AsyncQueue

/-- the messages in the queue, the oldest first -/
def contents (q : AsyncQueue) : List (List Byte) := (Ring.window q.capacity q.buffer q.tail q.count).map Slot.load

end AsyncQueue

theorem Slot.load_store (slot : Slot) (msg : List Byte) : (slot.store msg).load = msg := by
  apply ext_getElem?
  intro i
  rw [Slot.load, getElem?_map]
  by_cases hi : i < msg.length
  · have hrange : (range (slot.store msg).size)[i]? = some i := getElem?_range hi
    rw [hrange]
    show some ((msg[i]?).getD (slot.bytes i)) = msg[i]?
    rw [getElem?_eq_getElem hi, Option.getD_some]
  · have hrange : (range (slot.store msg).size)[i]? = none := by
      rw [getElem?_eq_none_iff, length_range]
      exact not_lt.1 hi
    rw [hrange, getElem?_eq_none (not_lt.1 hi)]
    rfl

namespace AsyncQueue

/-- the write position is behind the messages -/
structure Valid (q : AsyncQueue) : Prop where
  tail_lt : q.tail < q.capacity
  count_le : q.count ≤ q.capacity
  head_eq : q.head = (q.tail + q.count) % q.capacity

@[simp]
theorem length_contents (q : AsyncQueue) : q.contents.length = q.count := by
  rw [contents, length_map, Ring.length_window]

variable {q : AsyncQueue}

theorem Valid.put (h : q.Valid) (hroom : q.count < q.capacity) (msg : List Byte) :
    (q.put msg).Valid ∧ (q.put msg).contents = q.contents ++ [msg] := by
  constructor
  · refine ⟨h.tail_lt, hroom, ?_⟩
    show (q.head + 1) % q.capacity = (q.tail + (q.count + 1)) % q.capacity
    rw [h.head_eq, Nat.mod_add_mod, Nat.add_assoc]
  · show (Ring.window q.capacity (Function.update q.buffer q.head _) q.tail (q.count + 1)).map Slot.load = _
    rw [h.head_eq, Ring.window_push _ _ hroom, map_append, map_singleton, Slot.load_store]
    rfl

/-- the read position moves on, whatever becomes of the message -/
theorem Valid.next (h : q.Valid) {q' : AsyncQueue} (hbuf : q'.buffer = q.buffer)
    (hcap : q'.capacity = q.capacity) (hhead : q'.head = q.head) (htail : q'.tail = (q.tail + 1) % q.capacity)
    (hcount : q'.count + 1 = q.count) : q'.Valid ∧ q.contents = (q.buffer q.tail).load :: q'.contents := by
  have hle := h.count_le
  constructor
  · refine ⟨?_, ?_, ?_⟩
    · rw [htail, hcap]
      exact Nat.mod_lt _ q.capacity_pos
    · omega
    · rw [hhead, hcap, htail, h.head_eq, Nat.mod_add_mod]
      congr 1
      omega
  · rw [contents, ← hcount, Ring.window_succ, map_cons, Nat.mod_eq_of_lt h.tail_lt, contents, hbuf, hcap, htail]

theorem Valid.drop (h : q.Valid) (hpos : 0 < q.count) :
    q.drop.Valid ∧ q.contents = (q.buffer q.tail).load :: q.drop.contents :=
  h.next rfl rfl rfl rfl (Nat.sub_add_cancel hpos)

theorem dropLoop_of_lt (fuel : ℕ) (h : q.count < q.capacity) : dropLoop fuel q = ([], q) := by
  cases fuel with
  | zero => rfl
  | succ fuel => rw [dropLoop, if_neg (not_le.2 h)]

/-- the loop drops one message of a full queue -/
theorem dropLoop_full (h : q.count = q.capacity) : dropLoop q.count q = ([(q.buffer q.tail).load], q.drop) := by
  obtain ⟨fuel, hfuel⟩ := Nat.exists_eq_succ_of_ne_zero (h.trans_ne q.capacity_pos.ne')
  have hlt : q.drop.count < q.drop.capacity := by
    show q.count - 1 < q.capacity
    omega
  rw [hfuel, dropLoop, if_pos h.ge, dropLoop_of_lt fuel hlt]

end AsyncQueue

/-! ## Runs -/

namespace History

/-- the invariant of a run: messages leave in the order in which they came, undelivered only with the drop-oldest policy,
and the counters count them -/
structure Inv (fl : QueueFlags) (n : ℕ) (s : History) : Prop where
  valid : s.queue.Valid
  flags : s.queue.flags = fl
  capacity : s.queue.capacity = n
  order : s.accepted = s.left.map Prod.snd ++ s.queue.contents
  policy : fl.dropOldest = false → ∀ e ∈ s.left, e.1 = .delivered
  enqueueCount : s.queue.enqueueCount = UInt64.ofNat s.accepted.length
  dequeueCount : s.queue.dequeueCount = UInt64.ofNat (s.leftAs .delivered).length
  droppedCount : s.queue.droppedCount = UInt64.ofNat (s.leftAs .dropped).length

variable {fl : QueueFlags} {n : ℕ} {s : History} {q : AsyncQueue}

theorem ofNat_succ (k : ℕ) : UInt64.ofNat k + 1 = UInt64.ofNat (k + 1) := (UInt64.ofNat_add k 1).symm

theorem leftAs_append (s : History) (f f' : Fate) (m : List Byte) (q : AsyncQueue) :
    (History.mk q s.accepted (s.left ++ [(f', m)])).leftAs f = s.leftAs f ++ if f' = f then [m] else [] := by
  rw [leftAs, leftAs, filter_append]
  split_ifs with h
  · rw [h]
    simp
  · simp [h]

section

variable (h : Inv fl n s)
include h

theorem Inv.put (hroom : s.queue.count < s.queue.capacity) (msg : List Byte) :
    Inv fl n ⟨s.queue.put msg, s.accepted ++ [msg], s.left⟩ where
  valid := (h.valid.put hroom msg).1
  flags := h.flags
  capacity := h.capacity
  order := by
    rw [(h.valid.put hroom msg).2, ← append_assoc, ← h.order]
  policy := h.policy
  enqueueCount := by
    show s.queue.enqueueCount + 1 = _
    rw [h.enqueueCount, ofNat_succ, length_append, length_singleton]
  dequeueCount := h.dequeueCount
  droppedCount := h.droppedCount

/-- the oldest message is dropped -/
theorem Inv.drop (hfull : s.queue.count = s.queue.capacity) (hdrop : fl.dropOldest = true) :
    Inv fl n ⟨s.queue.drop, s.accepted, s.left ++ [(.dropped, (s.queue.buffer s.queue.tail).load)]⟩ := by
  obtain ⟨hvalid, hcontents⟩ := h.valid.drop (hfull ▸ s.queue.capacity_pos)
  refine ⟨hvalid, h.flags, h.capacity, ?_, ?_, h.enqueueCount, ?_, ?_⟩
  · rw [h.order, hcontents, map_append, append_assoc]
    rfl
  · intro hno
    rw [hdrop] at hno
    cases hno
  · rw [leftAs_append, if_neg nofun, append_nil]
    exact h.dequeueCount
  · rw [leftAs_append, if_pos rfl, length_append, length_singleton, ← ofNat_succ, ← h.droppedCount]
    rfl

/-- the oldest message is delivered -/
theorem Inv.deliver {bufferSize : ℕ} {msg : List Byte} (hd : s.queue.dequeue bufferSize = (q, .delivered msg)) :
    Inv fl n ⟨q, s.accepted, s.left ++ [(.delivered, msg)]⟩ := by
  rw [dequeue] at hd
  split_ifs at hd with hzero
  · cases (Prod.mk.inj hd).2
  · dsimp only at hd
    split_ifs at hd with hsmall
    · cases (Prod.mk.inj hd).2
    · obtain ⟨rfl, hmsg⟩ := Prod.mk.inj hd
      obtain rfl := Outcome.delivered.inj hmsg
      obtain ⟨hvalid, hcontents⟩ : s.queue.take.Valid ∧ s.queue.contents = _ :: s.queue.take.contents :=
        h.valid.next rfl rfl rfl rfl (Nat.sub_add_cancel (Nat.pos_of_ne_zero hzero))
      refine ⟨hvalid, h.flags, h.capacity, ?_, ?_, h.enqueueCount, ?_, ?_⟩
      · rw [h.order, hcontents, map_append, append_assoc]
        rfl
      · intro hno e he
        rcases mem_append.1 he with he | he
        · exact h.policy hno e he
        · rw [mem_singleton.1 he]
      · rw [leftAs_append, if_pos rfl, length_append, length_singleton, ← ofNat_succ, ← h.dequeueCount]
        rfl
      · rw [leftAs_append, if_neg nofun, append_nil]
        exact h.droppedCount

/-- what a step drops: nothing, or the oldest message of a full queue -/
def DropsOldest (fl : QueueFlags) (s s' : History) : Prop :=
  s'.leftAs .dropped = s.leftAs .dropped ∨
    fl.dropOldest = true ∧ s.queue.contents.length = s.queue.capacity ∧
      ∃ msg rest, s.queue.contents = msg :: rest ∧ s'.leftAs .dropped = s.leftAs .dropped ++ [msg]

theorem Inv.enqueue (thread : ℕ) (msg : List Byte) :
    Inv fl n (s.step (.enqueue thread msg)) ∧ DropsOldest fl s (s.step (.enqueue thread msg)) := by
  rw [step.eq_def]
  dsimp only
  rw [AsyncQueue.enqueue]
  by_cases hbad : msg.length = 0 ∨ s.queue.maxMsgSize < msg.length
  · rw [if_pos hbad]
    exact ⟨h, .inl rfl⟩
  · rw [if_neg hbad]
    cases hpol : s.queue.flags.dropOldest with
    | true =>
      rw [if_pos rfl]
      rw [if_pos rfl]
      have hfl : fl.dropOldest = true := by rw [← h.flags, hpol]
      rcases h.valid.count_le.lt_or_eq with hroom | hfull
      · rw [dropLoop_of_lt _ hroom, map_nil, append_nil]
        exact ⟨h.put hroom msg, .inl rfl⟩
      · rw [dropLoop_full hfull]
        have hdrop := h.drop hfull hfl
        have hpos : 0 < s.queue.count := hfull ▸ s.queue.capacity_pos
        have hroom : s.queue.drop.count < s.queue.drop.capacity := (Nat.sub_lt hpos one_pos).trans_eq hfull
        refine ⟨hdrop.put hroom msg, .inr ⟨hfl, by rw [length_contents, hfull], ?_⟩⟩
        exact ⟨_, _, (h.valid.drop hpos).2, leftAs_append s .dropped .dropped _ s.queue⟩
    | false =>
      rw [if_neg Bool.false_ne_true]
      by_cases hfull : s.queue.capacity ≤ s.queue.count
      · rw [if_pos hfull]
        cases s.queue.flags.blockWriter with
        | true | false => exact ⟨h, .inl rfl⟩
      · rw [if_neg hfull]
        rw [if_neg Bool.false_ne_true, map_nil, append_nil]
        exact ⟨h.put (not_le.1 hfull) msg, .inl rfl⟩

theorem Inv.step (op : Op) : Inv fl n (s.step op) ∧ DropsOldest fl s (s.step op) := by
  cases op with
  | enqueue thread msg => exact h.enqueue thread msg
  | dequeue thread bufferSize =>
    have hq : s.queue.dequeue bufferSize = (s.queue, .refused) ∨
        ∃ q msg, s.queue.dequeue bufferSize = (q, .delivered msg) := by
      rw [dequeue]
      split_ifs
      · exact .inl rfl
      · dsimp only
        split_ifs
        · exact .inl rfl
        · exact .inr ⟨_, _, rfl⟩
    rw [History.step.eq_def]
    dsimp only
    rcases hq with hq | ⟨q, msg, hq⟩
    · rw [hq]
      exact ⟨h, .inl rfl⟩
    · rw [hq]
      refine ⟨h.deliver hq, .inl ?_⟩
      rw [leftAs_append, if_neg nofun, append_nil]

theorem Inv.run (ops : List Op) : Inv fl n (s.run ops) := by
  induction ops generalizing s with
  | nil => exact h
  | cons op ops ih => exact ih (h.step op).1

end

theorem inv_create {maxMsgSize : ℕ} (h : create n maxMsgSize fl = some q) : Inv fl n ⟨q, [], []⟩ := by
  rw [create] at h
  split_ifs at h with hpos
  obtain rfl := Option.some.inj h
  exact ⟨⟨hpos.1, Nat.zero_le _, (Nat.zero_mod n).symm⟩, rfl, rfl, rfl, nofun, rfl, rfl, rfl⟩

theorem length_left (s : History) : s.left.length = (s.leftAs .delivered).length + (s.leftAs .dropped).length := by
  rw [leftAs, leftAs]
  induction s.left with
  | nil => rfl
  | cons e l ih =>
    obtain ⟨f, m⟩ := e
    cases f
    all_goals
      simp [ih]
      omega

theorem leftAs_of_forall (h : ∀ e ∈ s.left, e.1 = .delivered) : s.leftAs .delivered = s.left.map Prod.snd := by
  rw [leftAs, filter_eq_self.2]
  intro e he
  exact decide_eq_true (h e he)

/-- what a queue promises about the messages of a run -/
structure Fifo (fl : QueueFlags) (s : History) : Prop where
  /-- what was delivered was accepted before, in the same order -/
  order : (s.leftAs .delivered).Sublist s.accepted
  /-- nothing is lost without the drop-oldest policy -/
  lossless : fl.dropOldest = false → s.accepted = s.leftAs .delivered ++ s.queue.contents
  /-- whatever operation comes next loses nothing, or the oldest message of a full queue -/
  oldest : ∀ op, DropsOldest fl s (s.step op)
  /-- no message is lost but by being dropped -/
  account : s.accepted.length = (s.leftAs .delivered).length + (s.leftAs .dropped).length + s.queue.count
  counters : s.queue.enqueueCount = s.queue.dequeueCount + s.queue.droppedCount + UInt64.ofNat s.queue.count

/-- **A bounded queue.** In every state of every run of enqueues and dequeues, in whatever order the threads get the
mutex. -/
theorem fifo (capacity maxMsgSize : ℕ) (fl : QueueFlags) (q : AsyncQueue)
    (hq : create capacity maxMsgSize fl = some q) (ops : List Op) : Fifo fl (run ⟨q, [], []⟩ ops) := by
  have h := (inv_create hq).run ops
  generalize run ⟨q, [], []⟩ ops = s at h
  have haccount : s.accepted.length = (s.leftAs .delivered).length + (s.leftAs .dropped).length + s.queue.count := by
    rw [h.order, length_append, length_map, length_left, length_contents]
  refine ⟨?_, ?_, fun op => (h.step op).2, haccount, ?_⟩
  · rw [h.order]
    exact (filter_sublist.map Prod.snd).trans (sublist_append_left _ _)
  · intro hno
    rw [leftAs_of_forall (h.policy hno)]
    exact h.order
  · rw [h.enqueueCount, h.dequeueCount, h.droppedCount, haccount, UInt64.ofNat_add, UInt64.ofNat_add]

/-- three messages through a queue of two: the first is dropped -/
theorem fifo_two : ∃ q, create 2 4 ⟨true, false⟩ = some q ∧
      (run ⟨q, [], []⟩ [.enqueue 0 [1], .enqueue 1 [2], .enqueue 0 [3], .dequeue 2 4]).left =
        [(.dropped, [1]), (.delivered, [2])] ∧
      Fifo ⟨true, false⟩ (run ⟨q, [], []⟩ [.enqueue 0 [1], .enqueue 1 [2], .enqueue 0 [3], .dequeue 2 4]) :=
  ⟨_, rfl, by decide, fifo 2 4 _ _ rfl _⟩

end History

end Lithos.Async
