/-
Byte streams over a TCP transport (`tcp_transport.c`).

Outgoing bytes go through a ring buffer. A flush takes them out of it before they are sent; what `send` then does not
accept is gone. Incoming bytes are given to the reader and kept in a ring buffer as well, where the next read finds them
again.

Results:
* `outgoing_intact_iff`: what was sent and what is in the ring is what was written, exactly in the runs in which every
  `send` takes all it is given; `partial_send_loses` is a run with another one.
* `incoming_intact_iff`: what was read is what was received, exactly in the runs that never read (at least a byte) while
  the ring has something in it; `read_again` is a run that does.
-/
import Lithos.Driver.Net.RingBuffer

namespace Lithos.Driver.Net

open List

open Lithos.Lpc (Byte)

/-! ## Outgoing -/

/-- what `send` reports: how much of what it is given it takes (its prefix of that length; never more than all), or an
error -/
inductive SendResult where
  | accepted (n : ℕ)
  | wouldBlock
  | failed
deriving DecidableEq, Repr

/-- all of `len` bytes are taken -/
def SendResult.takes (len : ℕ) : SendResult → Bool
  | .accepted n => len ≤ n
  | _ => false

/-- the sending side of a transport. `sent` has the bytes `send` has taken so far, `written` those of the buffers for
which `tcp_write` has reported success. -/
structure Sender where
  outBuf : RingBuffer
  sent : List Byte
  written : List Byte

open Sender

/-- `sizeof(buf)` in `tcp_flush` -/
def flushSize : ℕ := 4096

/-- the loop of `tcp_flush`, whose calls of `send` end as `sends k`, `sends (k + 1)` and so on. Each round takes at least
a byte out of the ring, so the number of bytes there bounds the number of rounds. -/
def flushLoop (sends : ℕ → SendResult) : ℕ → ℕ → Sender → Sender × ℤ
  | 0, _, c => (c, 0)
  | fuel + 1, k, c =>
    if 0 < c.outBuf.available then
      let toRead := min c.outBuf.available flushSize
      match c.outBuf.read toRead with
      | none => (c, 0)
      | some (buf, ring) =>
        match sends k with
        | .wouldBlock => ({ c with outBuf := ring }, 0)
        | .failed => ({ c with outBuf := ring }, -1)
        | .accepted n =>
          let n := min n toRead
          let c := { c with outBuf := ring, sent := c.sent ++ buf.take n }
          -- the rest is not written back
          if n < toRead then (c, 0) else flushLoop sends fuel (k + 1) c
    else (c, 0)

/-- `tcp_flush` -/
def tcpFlush (c : Sender) (sends : ℕ → SendResult) : Sender × ℤ := flushLoop sends c.outBuf.available 0 c

/-- `tcp_write` -/
def tcpWrite (c : Sender) (buf : List Byte) (sends : ℕ → SendResult) : Sender × ℤ :=
  let c := if c.outBuf.space < buf.length then (tcpFlush c sends).1 else c
  match c.outBuf.write buf with
  | none => (c, -1)
  | some ring => ({ c with outBuf := ring, written := c.written ++ buf }, buf.length)

/-- calls of the transport, with the outcomes of the sends they make -/
inductive SendOp where
  | write (buf : List Byte) (sends : ℕ → SendResult)
  | flush (sends : ℕ → SendResult)

def Sender.step (c : Sender) : SendOp → Sender
  | .write buf sends => (tcpWrite c buf sends).1
  | .flush sends => (tcpFlush c sends).1

def Sender.run (c : Sender) (ops : List SendOp) : Sender := ops.foldl Sender.step c

/-- a new transport -/
def Sender.create (data : ℕ → Byte) (size : ℕ) (h : 0 < size) : Sender := ⟨.create data size h, [], []⟩

/-- the bytes sent, and those still in the ring -/
def Sender.stream (c : Sender) : List Byte := c.sent ++ c.outBuf.contents

/-- nothing is lost, doubled or out of order -/
def Sender.Intact (c : Sender) : Prop := c.stream = c.written

/-! ### One flush -/

/-- the sends of a flush of `avail` bytes, from the `k`-th on, take all they are given -/
def AllTaken (sends : ℕ → SendResult) (k avail : ℕ) : Prop :=
  ∀ j, flushSize * j < avail → (sends (k + j)).takes (min (avail - flushSize * j) flushSize) = true

variable (sends : ℕ → SendResult)

theorem allTaken_iff (k : ℕ) {avail : ℕ} (h : 0 < avail) : AllTaken sends k avail ↔
      (sends k).takes (min avail flushSize) = true ∧ AllTaken sends (k + 1) (avail - min avail flushSize) := by
  have hlt : ∀ j, flushSize * j < avail - min avail flushSize ↔ flushSize * (j + 1) < avail := by
    intro j
    rw [Nat.mul_succ]
    omega
  have hsub : ∀ j, flushSize * (j + 1) < avail →
      avail - min avail flushSize - flushSize * j = avail - flushSize * (j + 1) := by
    intro j hj
    rw [Nat.mul_succ] at hj ⊢
    omega
  constructor
  · intro hall
    refine ⟨hall 0 h, ?_⟩
    intro j hj
    have hj' := (hlt j).1 hj
    rw [hsub j hj', Nat.add_assoc, Nat.add_comm 1 j]
    exact hall (j + 1) hj'
  · rintro ⟨hfirst, hrest⟩ j hj
    cases j with
    | zero => exact hfirst
    | succ j =>
      have := hrest j ((hlt j).2 hj)
      rwa [hsub j hj, Nat.add_assoc, Nat.add_comm 1 j] at this

/-- a flush sends what is in the ring, or loses some of it -/
theorem flushLoop_spec (fuel k : ℕ) (c : Sender) (hfuel : c.outBuf.available ≤ fuel) :
    (flushLoop sends fuel k c).1.written = c.written ∧
      (AllTaken sends k c.outBuf.available → (flushLoop sends fuel k c).1.stream = c.stream) ∧
      (¬ AllTaken sends k c.outBuf.available → (flushLoop sends fuel k c).1.stream.length < c.stream.length) := by
  induction fuel generalizing k c with
  | zero =>
    have h0 : c.outBuf.available = 0 := Nat.le_zero.1 hfuel
    rw [h0]
    exact ⟨rfl, fun _ => rfl, fun h => absurd nofun h⟩
  | succ fuel ih =>
    rw [flushLoop]
    by_cases hpos : 0 < c.outBuf.available
    · rw [if_pos hpos]
      have hone : 0 < min c.outBuf.available flushSize := lt_min hpos (by decide)
      have hle : min c.outBuf.available flushSize ≤ c.outBuf.available := min_le_left _ _
      generalize htr : min c.outBuf.available flushSize = toRead at hone hle
      obtain ⟨ring, hread, hrest, -⟩ := c.outBuf.read_eq hle
      have hlen : c.outBuf.contents.length = c.outBuf.available := c.outBuf.length_contents
      have havail : ring.available = c.outBuf.available - toRead := by
        rw [← ring.length_contents, hrest, length_drop, hlen]
      have hiff := allTaken_iff sends k hpos
      rw [htr] at hiff
      dsimp only
      rw [hread]
      -- what is taken out of the ring and not sent is missing
      have hshort : ∀ n, n < toRead →
          (c.sent ++ (c.outBuf.contents.take toRead).take n ++ ring.contents).length < c.stream.length := by
        intro n hn
        rw [stream, hrest]
        simp only [length_append, length_take, length_drop, hlen]
        omega
      have hlost : (c.sent ++ ring.contents).length < c.stream.length := by
        have := hshort 0 hone
        rwa [take_zero, append_nil] at this
      cases hk : sends k with
      | wouldBlock | failed =>
        rw [hk] at hiff
        exact ⟨rfl, fun h => absurd (hiff.1 h).1 Bool.false_ne_true, fun _ => hlost⟩
      | accepted n =>
        rw [hk] at hiff
        dsimp only
        split_ifs with hn
        · have hnot : ¬ toRead ≤ n := fun h => absurd hn (by rw [min_eq_right h]; exact lt_irrefl _)
          exact ⟨rfl, fun h => absurd (of_decide_eq_true (hiff.1 h).1) hnot, fun _ => hshort _ hn⟩
        · have hn' : toRead ≤ n := by omega
          rw [min_eq_right hn', take_take, min_self]
          have hc : (⟨ring, c.sent ++ c.outBuf.contents.take toRead, c.written⟩ : Sender).stream = c.stream := by
            rw [stream, stream, hrest, append_assoc, take_append_drop]
          obtain ⟨hw, hsame, hless⟩ := ih (k + 1) ⟨ring, c.sent ++ c.outBuf.contents.take toRead, c.written⟩
            (by dsimp only; omega)
          rw [havail, hc] at hsame hless
          have htakes : (SendResult.accepted n).takes toRead = true := decide_eq_true hn'
          rw [hiff]
          exact ⟨hw, fun h => hsame h.2, fun h => hless fun h' => h ⟨htakes, h'⟩⟩
    · have h0 : c.outBuf.available = 0 := by omega
      rw [h0]
      exact ⟨rfl, fun _ => rfl, fun h => absurd nofun h⟩

/-! ### Runs -/

/-- bytes are missing -/
def Sender.Short (c : Sender) : Prop := c.stream.length < c.written.length

/-- in the flushes that a call makes from this state, every send takes all it is given -/
def SendOk (c : Sender) : SendOp → Prop
  | .write buf sends => c.outBuf.space < buf.length → AllTaken sends 0 c.outBuf.available
  | .flush sends => AllTaken sends 0 c.outBuf.available

def SendsOk (c : Sender) : List SendOp → Prop
  | [] => True
  | op :: ops => SendOk c op ∧ SendsOk (c.step op) ops

theorem tcpFlush_spec (c : Sender) (sends : ℕ → SendResult) : (tcpFlush c sends).1.written = c.written ∧
      (AllTaken sends 0 c.outBuf.available → (tcpFlush c sends).1.stream = c.stream) ∧
      (¬ AllTaken sends 0 c.outBuf.available → (tcpFlush c sends).1.stream.length < c.stream.length) :=
  flushLoop_spec sends _ 0 c le_rfl

/-- what a write appends it appends on both sides -/
theorem write_append (c : Sender) (buf : List Byte) (sends : ℕ → SendResult) :
    ∃ new, (tcpWrite c buf sends).1.written = c.written ++ new ∧
      (tcpWrite c buf sends).1.stream =
        (if c.outBuf.space < buf.length then (tcpFlush c sends).1 else c).stream ++ new := by
  have hkeep : (if c.outBuf.space < buf.length then (tcpFlush c sends).1 else c).written = c.written := by
    split_ifs
    · exact (tcpFlush_spec c sends).1
    · rfl
  rw [tcpWrite]
  generalize (if c.outBuf.space < buf.length then (tcpFlush c sends).1 else c) = d at hkeep
  have hwrite := d.outBuf.write_eq buf
  split_ifs at hwrite
  · obtain ⟨ring, hring, hcontents, -⟩ := hwrite
    rw [hring]
    refine ⟨buf, by rw [← hkeep], ?_⟩
    rw [stream, stream, hcontents, append_assoc]
  · rw [hwrite]
    exact ⟨[], by rw [append_nil, hkeep], (append_nil _).symm⟩

variable {c : Sender} {op : SendOp}

theorem step_intact (hok : SendOk c op) : (c.Intact → (c.step op).Intact) ∧ (c.Short → (c.step op).Short) := by
  cases op with
  | flush sends =>
    obtain ⟨hw, hsame, -⟩ := tcpFlush_spec c sends
    unfold Sender.Intact Sender.Short step
    rw [hw, hsame hok]
    exact ⟨id, id⟩
  | write buf sends =>
    obtain ⟨new, hw, hs⟩ := write_append c buf sends
    have hsame : (if c.outBuf.space < buf.length then (tcpFlush c sends).1 else c).stream = c.stream := by
      split_ifs with hfull
      · exact (tcpFlush_spec c sends).2.1 (hok hfull)
      · rfl
    rw [hsame] at hs
    unfold Sender.Intact Sender.Short step
    rw [hw, hs, length_append, length_append]
    exact ⟨fun h => by rw [h], fun h => Nat.add_lt_add_right h _⟩

theorem step_short (hbad : ¬ SendOk c op) (hle : c.stream.length ≤ c.written.length) : (c.step op).Short := by
  cases op with
  | flush sends =>
    obtain ⟨hw, -, hless⟩ := tcpFlush_spec c sends
    unfold Sender.Short step
    rw [hw]
    exact (hless hbad).trans_le hle
  | write buf sends =>
    obtain ⟨hfull, htaken⟩ := Classical.not_imp.1 hbad
    obtain ⟨new, hw, hs⟩ := write_append c buf sends
    rw [if_pos hfull] at hs
    unfold Sender.Short step
    rw [hw, hs, length_append, length_append]
    exact Nat.add_lt_add_right (((tcpFlush_spec c sends).2.2 htaken).trans_le hle) _

theorem run_short (h : c.Short) (ops : List SendOp) : (c.run ops).Short := by
  induction ops generalizing c with
  | nil => exact h
  | cons op ops ih =>
    apply ih
    by_cases hok : SendOk c op
    · exact (step_intact hok).2 h
    · exact step_short hok h.le

theorem run_intact_iff (h : c.Intact) (ops : List SendOp) : (c.run ops).Intact ↔ SendsOk c ops := by
  induction ops generalizing c with
  | nil => exact ⟨fun _ => trivial, fun _ => h⟩
  | cons op ops ih =>
    by_cases hok : SendOk c op
    · rw [SendsOk, and_iff_right hok]
      exact ih ((step_intact hok).1 h)
    · have hle : c.stream.length ≤ c.written.length := (congrArg length h).le
      have hshort := run_short (step_short hok hle) ops
      refine ⟨fun hi => ?_, fun hs => absurd hs.1 hok⟩
      exact absurd (congrArg length hi) hshort.ne

/-- **Outgoing bytes.** After any calls, the bytes that `send` has taken and those still in the ring are those of the
successful writes, in order, exactly when no send of the run was given more than it took. -/
theorem outgoing_intact_iff (data : ℕ → Byte) (size : ℕ) (hsize : 0 < size) (ops : List SendOp) :
    ((Sender.create data size hsize).run ops).Intact ↔ SendsOk (Sender.create data size hsize) ops := by
  apply run_intact_iff
  exact RingBuffer.contents_create data size hsize

/-- two writes into a ring of four cells, the second of which has to flush -/
def sampleSends : List SendOp := [.write [1, 2] fun _ => .wouldBlock, .write [3, 4] fun _ => .accepted 2]

theorem sampleSends_intact : ((Sender.create (fun _ => 0) 4 (by decide)).run sampleSends).Intact := by
  refine (outgoing_intact_iff (fun _ => 0) 4 (by decide) sampleSends).2 ⟨?_, ?_, trivial⟩
  · intro hfull
    exact absurd hfull (by decide)
  · intro _ j hj
    exact decide_eq_true ((min_le_left _ _).trans (Nat.sub_le _ _))

/-- of two bytes that were written one is sent and one is nowhere -/
theorem partial_send_loses : ¬ ((Sender.create (fun _ => 0) 8 (by decide)).run
      [.write [1, 2] fun _ => .wouldBlock, .flush fun _ => .accepted 1]).Intact := by
  intro h
  have hlen := congrArg length h
  revert hlen
  decide

/-! ## Incoming -/

/-- what `recv` reports: bytes (of which it gives as many as asked for at most; none when the connection is closed), or
an error -/
inductive RecvResult where
  | data (bytes : List Byte)
  | wouldBlock
  | failed
deriving DecidableEq, Repr

/-- the receiving side of a transport. `received` has the bytes that `recv` has given so far, `delivered` those that the
successful calls of `tcp_read` have. -/
structure Receiver where
  inBuf : RingBuffer
  received : List Byte
  delivered : List Byte

/-- `tcp_read`: the bytes, or `none` for -1 -/
def tcpRead (c : Receiver) (len : ℕ) (recv : RecvResult) : Receiver × Option (List Byte) :=
  if 0 < c.inBuf.available then
    match c.inBuf.read (min len c.inBuf.available) with
    | none => (c, some [])
    | some (buf, ring) => ({ c with inBuf := ring }, some buf)
  else
    match recv with
    | .wouldBlock => (c, some [])
    | .failed => (c, none)
    | .data bytes =>
      let buf := bytes.take len
      if buf = [] then (c, none)
      else ({ c with inBuf := (c.inBuf.write buf).getD c.inBuf, received := c.received ++ buf }, some buf)

/-- a call with the outcome of the `recv` it may make -/
def Receiver.step (c : Receiver) (op : ℕ × RecvResult) : Receiver :=
  let r := tcpRead c op.1 op.2
  { r.1 with delivered := c.delivered ++ r.2.getD [] }

def Receiver.run (c : Receiver) (ops : List (ℕ × RecvResult)) : Receiver := ops.foldl Receiver.step c

/-- a new transport -/
def Receiver.create (data : ℕ → Byte) (size : ℕ) (h : 0 < size) : Receiver := ⟨.create data size h, [], []⟩

/-- every received byte is delivered once, in order -/
def Receiver.Intact (c : Receiver) : Prop := c.delivered = c.received

/-- bytes are delivered again -/
def Receiver.Long (c : Receiver) : Prop := c.received.length < c.delivered.length

/-- the ring is empty, or no byte is asked for -/
def ReadOk (c : Receiver) (op : ℕ × RecvResult) : Prop := c.inBuf.available = 0 ∨ op.1 = 0

def ReadsOk (c : Receiver) : List (ℕ × RecvResult) → Prop
  | [] => True
  | op :: ops => ReadOk c op ∧ ReadsOk (c.step op) ops

/-- a read from an empty ring delivers what it receives -/
theorem step_empty {c : Receiver} (h : c.inBuf.available = 0) (op : ℕ × RecvResult) :
    ∃ new, (c.step op).received = c.received ++ new ∧ (c.step op).delivered = c.delivered ++ new := by
  have hnone : ∃ new, c.received = c.received ++ new ∧ c.delivered ++ [] = c.delivered ++ new :=
    ⟨[], (append_nil _).symm, rfl⟩
  rw [Receiver.step, tcpRead.eq_def]
  rw [if_neg (by omega)]
  cases op.2 with
  | wouldBlock | failed => exact hnone
  | data bytes =>
    dsimp only
    split_ifs with hb
    · exact hnone
    · exact ⟨bytes.take op.1, rfl, rfl⟩

/-- a read from the ring delivers what is in it -/
theorem step_ring {c : Receiver} (h : 0 < c.inBuf.available) (op : ℕ × RecvResult) : (c.step op).received = c.received ∧
      (c.step op).delivered = c.delivered ++ c.inBuf.contents.take (min op.1 c.inBuf.available) := by
  obtain ⟨ring, hread, -, -⟩ := c.inBuf.read_eq (min_le_right op.1 c.inBuf.available)
  rw [Receiver.step, tcpRead.eq_def]
  rw [if_pos h, hread]
  exact ⟨rfl, rfl⟩

/-- a call with the condition delivers what it receives; another one delivers more than that -/
theorem step_balance (c : Receiver) (op : ℕ × RecvResult) :
    (ReadOk c op → ∃ new, (c.step op).received = c.received ++ new ∧ (c.step op).delivered = c.delivered ++ new) ∧
      (¬ ReadOk c op → (c.step op).received = c.received ∧ c.delivered.length < (c.step op).delivered.length) := by
  rcases Nat.eq_zero_or_pos c.inBuf.available with h0 | hpos
  · exact ⟨fun _ => step_empty h0 op, fun h => absurd (.inl h0) h⟩
  · obtain ⟨hrec, hdel⟩ := step_ring hpos op
    refine ⟨fun hok => ?_, fun hbad => ⟨hrec, ?_⟩⟩
    · refine ⟨[], by rw [hrec, append_nil], ?_⟩
      rw [hdel, hok.resolve_left hpos.ne', Nat.zero_min, take_zero]
    · have hlen : 0 < op.1 := Nat.pos_of_ne_zero fun h0 => hbad (.inr h0)
      rw [hdel, length_append, length_take, RingBuffer.length_contents]
      omega

theorem Receiver.Long.run {c : Receiver} (h : c.Long) (ops : List (ℕ × RecvResult)) : (c.run ops).Long := by
  induction ops generalizing c with
  | nil => exact h
  | cons op ops ih =>
    apply ih
    unfold Receiver.Long at h ⊢
    by_cases hok : ReadOk c op
    · obtain ⟨new, hrec, hdel⟩ := (step_balance c op).1 hok
      rw [hrec, hdel, length_append, length_append]
      exact Nat.add_lt_add_right h _
    · obtain ⟨hrec, hdel⟩ := (step_balance c op).2 hok
      rw [hrec]
      exact h.trans hdel

theorem Receiver.Intact.run_iff {c : Receiver} (h : c.Intact) (ops : List (ℕ × RecvResult)) :
    (c.run ops).Intact ↔ ReadsOk c ops := by
  induction ops generalizing c with
  | nil => exact ⟨fun _ => trivial, fun _ => h⟩
  | cons op ops ih =>
    by_cases hok : ReadOk c op
    · rw [ReadsOk, and_iff_right hok]
      apply ih
      obtain ⟨new, hrec, hdel⟩ := (step_balance c op).1 hok
      unfold Receiver.Intact at h ⊢
      rw [hrec, hdel, h]
    · obtain ⟨hrec, hdel⟩ := (step_balance c op).2 hok
      have hlong : (c.step op).Long := by
        unfold Receiver.Long
        rw [hrec, ← h]
        exact hdel
      refine ⟨fun hi => ?_, fun hs => absurd hs.1 hok⟩
      exact absurd (congrArg length hi) (hlong.run ops).ne'

/-- **Incoming bytes.** After any reads, the bytes delivered are those received, each once and in order, exactly when no
read asked for a byte while the ring had one. -/
theorem incoming_intact_iff (data : ℕ → Byte) (size : ℕ) (hsize : 0 < size) (ops : List (ℕ × RecvResult)) :
    ((Receiver.create data size hsize).run ops).Intact ↔ ReadsOk (Receiver.create data size hsize) ops := by
  apply Receiver.Intact.run_iff
  exact Eq.refl ([] : List Byte)

/-- five bytes have no room in a ring of four cells; of the two that stay there, no more are asked for -/
theorem fourCells_intact :
    ((Receiver.create (fun _ => 0) 4 (by decide)).run
      [(2, .wouldBlock), (5, .data [1, 2, 3, 4, 5]), (2, .data [6, 7]), (0, .data [8])]).delivered.length = 7 ∧
    ((Receiver.create (fun _ => 0) 4 (by decide)).run
      [(2, .wouldBlock), (5, .data [1, 2, 3, 4, 5]), (2, .data [6, 7]), (0, .data [8])]).Intact := by
  refine ⟨by decide, (incoming_intact_iff (fun _ => 0) 4 (by decide) _).2 ⟨.inl rfl, .inl rfl, .inl rfl, ?_, trivial⟩⟩
  exact .inr rfl

/-- two bytes come in, and two reads deliver them both -/
theorem read_again :
    ((Receiver.create (fun _ => 0) 8 (by decide)).run [(2, .data [5, 6]), (2, .wouldBlock)]).delivered = [5, 6, 5, 6] ∧
      ¬ ((Receiver.create (fun _ => 0) 8 (by decide)).run [(2, .data [5, 6]), (2, .wouldBlock)]).Intact := by
  have hdel : ((Receiver.create (fun _ => 0) 8 (by decide)).run
      [(2, .data [5, 6]), (2, .wouldBlock)]).delivered = [5, 6, 5, 6] := by decide
  refine ⟨hdel, fun h => ?_⟩
  have hlen := congrArg length h
  revert hlen
  decide

end Lithos.Driver.Net
