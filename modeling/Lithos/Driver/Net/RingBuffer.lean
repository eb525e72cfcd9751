/-
The ring buffer of a transport (`ring_buffer.c`).

One cell is kept free, so that equal ends mean an empty buffer. What is written comes out in order:
* `write_eq`: a write is done whole when there is room for it, and appends;
* `read_eq`: a read of what is available takes it from the front;
* `calls_fifo`: any sequence of calls answers as a queue of `size - 1` bytes does.
-/
import Lithos.Core.Ring
import Lithos.Lpc.Types

namespace Lithos.Driver.Net

open Lithos.Core List Nat
open Lithos.Lpc (Byte)

/-- `ring_buffer_t`. `rb_create` allocates the cells, so there is at least one and their number is far below `SIZE_MAX`. -/
structure RingBuffer where
  data : ℕ → Byte
  size : ℕ
  head : ℕ
  tail : ℕ
  head_lt : head < size
  tail_lt : tail < size

namespace RingBuffer

variable (rb : RingBuffer)

theorem size_pos : 0 < rb.size := (zero_le _).trans_lt rb.head_lt

/-- `rb_create`; the cells are not initialised -/
def create (data : ℕ → Byte) (size : ℕ) (h : 0 < size) : RingBuffer := ⟨data, size, 0, 0, h, h⟩

/-- `rb_available` -/
def available (rb : RingBuffer) : ℕ := (rb.head + rb.size - rb.tail) % rb.size

/-- `rb_space` -/
def space (rb : RingBuffer) : ℕ := rb.size - rb.available - 1

/-- a round of the loop of `rb_write` -/
def put (rb : RingBuffer) (b : Byte) : RingBuffer :=
  { rb with
    data := Function.update rb.data rb.head b
    head := (rb.head + 1) % rb.size
    head_lt := mod_lt _ rb.size_pos }

/-- `rb_write` -/
def write (rb : RingBuffer) (data : List Byte) : Option RingBuffer :=
  if rb.space < data.length then none else some (data.foldl put rb)

/-- the loop of `rb_read` -/
def readLoop : ℕ → RingBuffer → List Byte × RingBuffer
  | 0, rb => ([], rb)
  | len + 1, rb =>
    let r := readLoop len { rb with tail := (rb.tail + 1) % rb.size, tail_lt := mod_lt _ rb.size_pos }
    (rb.data rb.tail :: r.1, r.2)

/-- `rb_read` -/
def read (rb : RingBuffer) (len : ℕ) : Option (List Byte × RingBuffer) :=
  if rb.available < len then none else some (readLoop len rb)

/-! ## What is in it -/

/-- the bytes written and not yet read -/
def contents (rb : RingBuffer) : List Byte := Ring.window rb.size rb.data rb.tail rb.available

@[simp]
theorem length_contents : rb.contents.length = rb.available := Ring.length_window _

theorem available_lt : rb.available < rb.size := mod_lt _ rb.size_pos

theorem space_eq : rb.available + rb.space + 1 = rb.size := by
  have h := rb.available_lt
  unfold space
  omega

/-- the write end, from the read end -/
theorem head_eq : rb.head = (rb.tail + rb.available) % rb.size := by
  have hh := rb.head_lt
  have ht := rb.tail_lt
  rw [available, add_mod_mod, show rb.tail + (rb.head + rb.size - rb.tail) = rb.head + rb.size by omega,
    add_mod_right, mod_eq_of_lt hh]

/-- a buffer with the write end `count` cells behind the read end -/
theorem available_of_head {count : ℕ} (hc : count < rb.size)
    (hh : rb.head = (rb.tail + count) % rb.size) : rb.available = count := by
  rw [available, hh]
  exact Ring.ends_sub rb.tail_lt hc

theorem contents_create (data : ℕ → Byte) (size : ℕ) (h : 0 < size) : (create data size h).contents = [] := by
  have hzero : (create data size h).available = 0 := available_of_head _ h (zero_mod size).symm
  rw [contents, hzero]
  rfl

theorem contents_put (b : Byte) (hroom : 0 < rb.space) : (rb.put b).contents = rb.contents ++ [b] := by
  have hlt : rb.available + 1 < rb.size := by
    have := rb.space_eq
    omega
  have havail : (rb.put b).available = rb.available + 1 := by
    apply available_of_head (rb.put b) hlt
    show (rb.head + 1) % rb.size = (rb.tail + (rb.available + 1)) % rb.size
    rw [head_eq, mod_add_mod, add_assoc]
  rw [contents, havail]
  show Ring.window rb.size (Function.update rb.data rb.head b) rb.tail (rb.available + 1) = _
  rw [head_eq]
  exact Ring.window_push rb.data b (lt_of_succ_lt hlt)

@[simp]
theorem size_put (b : Byte) : (rb.put b).size = rb.size := rfl

theorem foldl_put (data : List Byte) (rb : RingBuffer) (hroom : data.length ≤ rb.space) :
    (data.foldl put rb).contents = rb.contents ++ data ∧ (data.foldl put rb).size = rb.size := by
  induction data generalizing rb with
  | nil => exact ⟨(append_nil _).symm, rfl⟩
  | cons b data ih =>
    rw [length_cons] at hroom
    have hput := contents_put rb b (by omega)
    have hspace : (rb.put b).space + 1 = rb.space := by
      have hlen := congrArg length hput
      rw [length_append, length_contents, length_contents, length_singleton] at hlen
      have := (rb.put b).space_eq
      have := rb.space_eq
      rw [size_put] at *
      omega
    obtain ⟨hcontents, hsize⟩ := ih (rb.put b) (by omega)
    rw [foldl_cons, hcontents, hput, append_assoc]
    exact ⟨rfl, hsize⟩

/-- a write is whole, or not done -/
theorem write_eq (data : List Byte) : if data.length ≤ rb.space then
      ∃ rb', rb.write data = some rb' ∧ rb'.contents = rb.contents ++ data ∧ rb'.size = rb.size
    else rb.write data = none := by
  split_ifs with h
  · exact ⟨_, if_neg (not_lt.2 h), foldl_put data rb h⟩
  · exact if_pos (not_le.1 h)

theorem readLoop_eq (len : ℕ) (rb : RingBuffer) (hlen : len ≤ rb.available) :
    (readLoop len rb).1 = rb.contents.take len ∧ (readLoop len rb).2.contents = rb.contents.drop len ∧
      (readLoop len rb).2.size = rb.size := by
  induction len generalizing rb with
  | zero => exact ⟨rfl, rfl, rfl⟩
  | succ len ih =>
    obtain ⟨k, hk⟩ := exists_eq_succ_of_ne_zero (ne_zero_of_lt hlen)
    have hlt := rb.available_lt
    let rb' : RingBuffer := { rb with tail := (rb.tail + 1) % rb.size, tail_lt := mod_lt _ rb.size_pos }
    have havail : rb'.available = k := by
      apply available_of_head rb' (show k < rb.size by omega)
      show rb.head = ((rb.tail + 1) % rb.size + k) % rb.size
      rw [head_eq, hk, mod_add_mod, add_assoc, add_comm 1 k]
    have hcontents : rb.contents = rb.data rb.tail :: rb'.contents := by
      rw [contents, hk, Ring.window_succ, mod_eq_of_lt rb.tail_lt, contents, havail]
    obtain ⟨hbytes, hrest, hsize⟩ := ih rb' (by omega)
    rw [hcontents]
    exact ⟨congrArg _ hbytes, hrest, hsize⟩

/-- a read of what is there takes it from the front -/
theorem read_eq {len : ℕ} (hlen : len ≤ rb.available) :
    ∃ rb', rb.read len = some (rb.contents.take len, rb') ∧ rb'.contents = rb.contents.drop len ∧
      rb'.size = rb.size := by
  obtain ⟨hbytes, hrest⟩ := readLoop_eq len rb hlen
  refine ⟨(readLoop len rb).2, ?_, hrest⟩
  rw [read, if_neg (not_lt.2 hlen), ← hbytes]

/-! ## A queue of bytes -/

/-- a call of `rb_write` or `rb_read` -/
inductive Call where
  | write (data : List Byte)
  | read (len : ℕ)
  deriving DecidableEq, Repr

/-- whether a call was done, and the bytes it read -/
abbrev Reply := Bool × List Byte

/-- a call; one that is not done leaves the buffer alone -/
def call (rb : RingBuffer) : Call → Reply × RingBuffer
  | .write data => (rb.write data).elim ((false, []), rb) fun rb' => ((true, []), rb')
  | .read len => (rb.read len).elim ((false, []), rb) fun r => ((true, r.1), r.2)

/-- the call on a queue of at most `capacity` bytes -/
def queueCall (capacity : ℕ) (queue : List Byte) : Call → Reply × List Byte
  | .write data => if queue.length + data.length ≤ capacity then ((true, []), queue ++ data) else ((false, []), queue)
  | .read len => if len ≤ queue.length then ((true, queue.take len), queue.drop len) else ((false, []), queue)

/-- the replies to a sequence of calls, and what is left behind -/
def runCalls {σ : Type} (step : σ → Call → Reply × σ) : σ → List Call → List Reply × σ
  | s, [] => ([], s)
  | s, c :: cs =>
    let r := runCalls step (step s c).2 cs
    ((step s c).1 :: r.1, r.2)

/-- one call, on the buffer and on the queue -/
theorem call_fifo (c : Call) : (rb.call c).1 = (queueCall (rb.size - 1) rb.contents c).1 ∧
      (rb.call c).2.contents = (queueCall (rb.size - 1) rb.contents c).2 ∧ (rb.call c).2.size = rb.size := by
  have hspace := rb.space_eq
  cases c with
  | write data =>
    have hwrite := rb.write_eq data
    simp only [call, queueCall, length_contents]
    split_ifs at hwrite with hfits
    · obtain ⟨rb', heq, hcontents, hsize⟩ := hwrite
      rw [heq, if_pos (by omega)]
      exact ⟨rfl, hcontents, hsize⟩
    · rw [hwrite, if_neg (by omega)]
      exact ⟨rfl, rfl, rfl⟩
  | read len =>
    simp only [call, queueCall, length_contents]
    split_ifs with hfits
    · obtain ⟨rb', heq, hcontents, hsize⟩ := rb.read_eq hfits
      rw [heq]
      exact ⟨rfl, hcontents, hsize⟩
    · rw [read, if_pos (not_le.1 hfits)]
      exact ⟨rfl, rfl, rfl⟩

/-- **The buffer is a queue.** Every sequence of calls gets the replies of a queue of `size - 1` bytes that holds what the
buffer holds, leaves in the buffer what it leaves in the queue, and free and used cells stay `size - 1`. -/
theorem calls_fifo (rb : RingBuffer) (cs : List Call) :
    (runCalls call rb cs).1 = (runCalls (queueCall (rb.size - 1)) rb.contents cs).1 ∧
      (runCalls call rb cs).2.contents = (runCalls (queueCall (rb.size - 1)) rb.contents cs).2 ∧
      (runCalls call rb cs).2.available + (runCalls call rb cs).2.space = rb.size - 1 := by
  induction cs generalizing rb with
  | nil => exact ⟨rfl, rfl, by have := rb.space_eq; simp only [runCalls]; omega⟩
  | cons c cs ih =>
    obtain ⟨hreply, hcontents, hsize⟩ := rb.call_fifo c
    obtain ⟨hreplies, hrest, hsum⟩ := ih (rb.call c).2
    rw [hsize, hcontents] at hreplies hrest
    rw [hsize] at hsum
    refine ⟨?_, hrest, hsum⟩
    simp only [runCalls]
    rw [hreply, hreplies]

end RingBuffer

end Lithos.Driver.Net
