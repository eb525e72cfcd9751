/-
The output ring of a user (`add_message` and `flush_message` in `comm.c`).

A message is stored with a carriage return before every newline; a full ring is flushed in the middle of it, and what a
send does not take stays. What the socket answers is a script, one answer for each send:
* `Streams.flush`: a flush moves bytes from the ring to the socket, and changes nothing else;
* `Streams.addLoop`: a message adds the translation of a beginning of it;
* `calls_stream`: after any calls, the bytes sent and then those in the ring are the translations of a beginning of each
  message.
-/
import Lithos.Core.Ring
import Lithos.Lpc.Types

namespace Lithos.Driver.UserOutput

open List Lithos.Core
open Lithos.Lpc (Byte)

/-! ## The ring -/

/-- what a send answers: a number of bytes, `EWOULDBLOCK` or `EINTR`, another error -/
inductive Send
  | took (count : ℕ)
  | wouldBlock
  | failed

/-- the `message_` fields of an `interactive_t`, with the bytes sent and what the socket will answer -/
structure User where
  buf : ℕ → Byte
  producer : ℕ
  consumer : ℕ
  length : ℕ
  /-- `NET_DEAD` or `CLOSING` -/
  dead : Bool
  sent : List Byte
  script : List Send

/-- a new connection; the ring is not initialised -/
def User.connect (buf : ℕ → Byte) (script : List Send) : User := ⟨buf, 0, 0, 0, false, [], script⟩

namespace User

variable (n : ℕ) (ip : User)

/-- the bytes that one send is given, of a ring of `MESSAGE_BUF_SIZE = n` cells: those up to the producer or to the end of
the array -/
def chunk : ℕ := if ip.consumer < ip.producer then ip.producer - ip.consumer else n - ip.consumer

/-- a send that took `count` bytes -/
def take (count : ℕ) : User :=
  { ip with
    sent := ip.sent ++ (range count).map fun i => ip.buf (ip.consumer + i)
    consumer := (ip.consumer + count) % n
    length := ip.length - count }

/-- the loop of `flush_message`; a send takes no more than it is given, and a script at its end would block -/
def flushLoop (ip : User) : List Send → Bool × User
  | [] => (true, { ip with script := [] })
  | answer :: script =>
    if ip.length = 0 then (true, { ip with script := answer :: script })
    else
      match answer with
      | .took count => flushLoop (ip.take n (min count (ip.chunk n))) script
      | .wouldBlock => (true, { ip with script := script })
      | .failed => (false, { ip with script := script, dead := true })

/-- `flush_message` -/
def flushMessage : Bool × User := if ip.dead then (false, ip) else ip.flushLoop n ip.script

/-- a byte stored at the producer -/
def put (b : Byte) : User :=
  { ip with
    buf := Function.update ip.buf ip.producer b
    producer := (ip.producer + 1) % n
    length := ip.length + 1 }

/-- the flush at a length of `limit`, and whether the message goes on -/
def makeRoom (limit : ℕ) : Bool × User :=
  if ip.length = limit then
    let r := ip.flushMessage n
    (r.1 && r.2.length != limit, r.2)
  else (true, ip)

/-- a round of the loop of `add_message`, and whether the loop goes on -/
def addByte (c : Byte) : Bool × User :=
  let r := ip.makeRoom n n
  if r.1 then
    if c = 10 then
      let r := r.2.makeRoom n (n - 1)
      if r.1 then (true, (r.2.put n 13).put n c) else r
    else (true, r.2.put n c)
  else r

def addLoop (ip : User) : List Byte → User
  | [] => ip
  | c :: data =>
    let r := ip.addByte n c
    if r.1 then addLoop r.2 data else r.2

/-- `add_message`. The console is flushed at once; after a broken connection, where the source returns, that does
nothing. -/
def addMessage (console : Bool) (data : List Byte) : User :=
  if ip.dead then ip
  else if console then ((ip.addLoop n data).flushMessage n).2
  else ip.addLoop n data

end User

inductive Call
  | message (data : List Byte)
  | flush

def step (n : ℕ) (console : Bool) (ip : User) : Call → User
  | .message data => ip.addMessage n console data
  | .flush => (ip.flushMessage n).2

def run (n : ℕ) (console : Bool) (ip : User) (calls : List Call) : User := calls.foldl (step n console) ip

/-! ## The stream -/

/-- CR LF for a newline -/
def translate (c : Byte) : List Byte := if c = 10 then [13, c] else [c]

def messages (calls : List Call) : List (List Byte) :=
  calls.filterMap fun
    | .message data => some data
    | .flush => none

/-- the bytes in the ring -/
def User.contents (n : ℕ) (ip : User) : List Byte := Ring.window n ip.buf ip.consumer ip.length

/-- the fields of the ring agree -/
structure Consistent (n : ℕ) (ip : User) : Prop where
  consumer_lt : ip.consumer < n
  length_le : ip.length ≤ n
  producer_eq : ip.producer = (ip.consumer + ip.length) % n

/-- the bytes sent and then those in the ring are `s` -/
structure Streams (n : ℕ) (ip : User) (s : List Byte) : Prop extends Consistent n ip where
  stream_eq : ip.sent ++ ip.contents n = s

variable {n : ℕ} {ip : User} {s : List Byte}

/-- what a send is given is in the ring and does not wrap -/
theorem Consistent.chunk_bounds (h : Consistent n ip) (hne : ip.length ≠ 0) :
    ip.chunk n ≤ ip.length ∧ ip.consumer + ip.chunk n ≤ n := by
  have hlt := h.consumer_lt
  have hle := h.length_le
  have hprod := h.producer_eq
  rw [User.chunk]
  rcases Nat.lt_or_ge (ip.consumer + ip.length) n with hin | hwrap
  · rw [Nat.mod_eq_of_lt hin] at hprod
    split_ifs <;> omega
  · rw [Nat.mod_eq_sub_mod hwrap, Nat.mod_eq_of_lt (by omega)] at hprod
    split_ifs <;> omega

theorem Streams.take (h : Streams n ip s) {count : ℕ} (hcount : count ≤ ip.length)
    (hend : ip.consumer + count ≤ n) : Streams n (ip.take n count) s := by
  have hpos : 0 < n := Nat.zero_lt_of_lt h.consumer_lt
  have hlen : count + (ip.length - count) = ip.length := Nat.add_sub_of_le hcount
  refine ⟨⟨Nat.mod_lt _ hpos, (Nat.sub_le _ _).trans h.length_le, ?_⟩, ?_⟩
  · show ip.producer = ((ip.consumer + count) % n + (ip.length - count)) % n
    rw [Nat.mod_add_mod, Nat.add_assoc, hlen, h.producer_eq]
  · rw [← h.stream_eq, User.contents, User.contents, ← hlen, Ring.window_add, ← append_assoc]
    show _ ++ map _ _ ++ _ = _
    congr 2
    apply map_congr_left
    intro i hi
    have hlt : ip.consumer + i < n := by
      have := mem_range.1 hi
      omega
    rw [Nat.mod_eq_of_lt hlt]

theorem Streams.same (h : Streams n ip s) {dead : Bool} {script : List Send} :
    Streams n { ip with dead := dead, script := script } s :=
  ⟨⟨h.consumer_lt, h.length_le, h.producer_eq⟩, h.stream_eq⟩

/-- a flush keeps the stream and adds nothing to the ring -/
theorem Streams.flushLoop (h : Streams n ip s) (script : List Send) :
    Streams n (ip.flushLoop n script).2 s ∧ (ip.flushLoop n script).2.length ≤ ip.length := by
  induction script generalizing ip with
  | nil => exact ⟨h.same, Nat.le_refl _⟩
  | cons answer script ih =>
    rw [User.flushLoop.eq_def]
    dsimp only
    split_ifs with hzero
    · exact ⟨h.same, Nat.le_refl _⟩
    cases answer with
    | took count =>
      obtain ⟨hle, hend⟩ := h.chunk_bounds hzero
      have htook : Streams n (ip.take n (min count (ip.chunk n))) s := h.take (by omega) (by omega)
      obtain ⟨hstream, hlen⟩ := ih htook
      exact ⟨hstream, hlen.trans (Nat.sub_le _ _)⟩
    | wouldBlock | failed => exact ⟨h.same, Nat.le_refl _⟩

theorem Streams.flush (h : Streams n ip s) :
    Streams n (ip.flushMessage n).2 s ∧ (ip.flushMessage n).2.length ≤ ip.length := by
  rw [User.flushMessage]
  split_ifs
  · exact ⟨h, Nat.le_refl _⟩
  · exact h.flushLoop ip.script

theorem Streams.put (h : Streams n ip s) (b : Byte) (hroom : ip.length < n) : Streams n (ip.put n b) (s ++ [b]) := by
  refine ⟨⟨h.consumer_lt, hroom, ?_⟩, ?_⟩
  · show (ip.producer + 1) % n = (ip.consumer + (ip.length + 1)) % n
    rw [h.producer_eq, Nat.mod_add_mod, Nat.add_assoc]
  · rw [← h.stream_eq, User.contents, User.contents, append_assoc, ← Ring.window_push _ b hroom, ← h.producer_eq]
    rfl

theorem Streams.makeRoom (h : Streams n ip s) (limit : ℕ) :
    Streams n (ip.makeRoom n limit).2 s ∧ (ip.makeRoom n limit).2.length ≤ ip.length ∧
      ((ip.makeRoom n limit).1 = true → (ip.makeRoom n limit).2.length ≠ limit) := by
  rw [User.makeRoom]
  split_ifs with hlimit
  · refine ⟨h.flush.1, h.flush.2, fun hon => ?_⟩
    rw [Bool.and_eq_true, bne_iff_ne] at hon
    exact hon.2
  · exact ⟨h, Nat.le_refl _, fun _ => hlimit⟩

/-- a byte is stored with its translation, or not at all -/
theorem Streams.addByte (h : Streams n ip s) (c : Byte) :
    Streams n (ip.addByte n c).2 (s ++ if (ip.addByte n c).1 then translate c else []) := by
  obtain ⟨hs, -, hne⟩ := h.makeRoom n
  by_cases hon : (ip.makeRoom n n).1 = true
  · have hlt := Nat.lt_of_le_of_ne hs.length_le (hne hon)
    by_cases hc : c = 10
    · obtain ⟨hs', hle, hne'⟩ := hs.makeRoom (n - 1)
      by_cases hon' : ((ip.makeRoom n n).2.makeRoom n (n - 1)).1 = true
      -- two cells are free, so that the newline follows its carriage return
      · have hlt' := hne' hon'
        have hput := (hs'.put 13 (by omega)).put c (show _ + 1 < n by omega)
        simp only [User.addByte, translate, if_pos hon, if_pos hc, if_pos hon', if_true]
        rwa [append_assoc] at hput
      · simp only [User.addByte, if_pos hon, if_pos hc, if_neg hon', append_nil, hs']
    · simp only [User.addByte, translate, if_pos hon, if_neg hc, if_true, hs.put c hlt]
  · simp only [User.addByte, if_neg hon, append_nil, hs]

/-- a message adds the translation of a beginning of it -/
theorem Streams.addLoop (h : Streams n ip s) (data : List Byte) :
    ∃ p, p <+: data ∧ Streams n (ip.addLoop n data) (s ++ p.flatMap translate) := by
  induction data generalizing ip s with
  | nil => exact ⟨[], nil_prefix, (append_nil s).symm ▸ h⟩
  | cons c data ih =>
    have hs := h.addByte c
    rw [User.addLoop]
    split_ifs at hs ⊢ with hon
    · obtain ⟨p, hp, hrun⟩ := ih hs
      exact ⟨c :: p, cons_prefix_cons.2 ⟨rfl, hp⟩, by rwa [append_assoc] at hrun⟩
    · exact ⟨[], nil_prefix, hs⟩

/-! ## Runs -/

theorem Streams.connect (hn : 0 < n) (buf : ℕ → Byte) (script : List Send) : Streams n (.connect buf script) [] :=
  ⟨⟨hn, Nat.zero_le n, (Nat.zero_mod n).symm⟩, rfl⟩

theorem Streams.addMessage (h : Streams n ip s) (console : Bool) (data : List Byte) :
    ∃ p, p <+: data ∧ Streams n (ip.addMessage n console data) (s ++ p.flatMap translate) := by
  obtain ⟨p, hp, hs⟩ := h.addLoop data
  rw [User.addMessage]
  split_ifs
  · exact ⟨[], nil_prefix, (append_nil s).symm ▸ h⟩
  · exact ⟨p, hp, hs.flush.1⟩
  · exact ⟨p, hp, hs⟩

theorem Streams.run (h : Streams n ip s) (console : Bool) (calls : List Call) :
    ∃ ps, Forall₂ (· <+: ·) ps (messages calls) ∧
      Streams n (run n console ip calls) (s ++ ps.flatten.flatMap translate) := by
  induction calls generalizing ip s with
  | nil => exact ⟨[], .nil, (append_nil s).symm ▸ h⟩
  | cons call calls ih =>
    cases call with
    | message data =>
      obtain ⟨p, hp, hs⟩ := h.addMessage console data
      obtain ⟨ps, hps, hrun⟩ := ih hs
      exact ⟨p :: ps, .cons hp hps, by rwa [append_assoc, ← flatMap_append] at hrun⟩
    | flush => exact ih h.flush.1

/-- **The output stream.** Each message is cut between two of its own bytes, so a carriage return of the translation has
its newline with it. -/
theorem calls_stream (hn : 0 < n) (buf : ℕ → Byte) (script : List Send) (console : Bool) (calls : List Call) :
    let ip := run n console (.connect buf script) calls
    Consistent n ip ∧ ∃ ps, Forall₂ (· <+: ·) ps (messages calls) ∧ ip.sent ++ ip.contents n = ps.flatten.flatMap translate := by
  obtain ⟨ps, hps, hs⟩ := (Streams.connect hn buf script).run console calls
  exact ⟨hs.toConsistent, ps, hps, hs.stream_eq⟩

/-- a ring of four cells -/
theorem calls_stream_four :
    let ip := run 4 false (.connect (fun _ => 0) [.took 2]) [.message [97, 98, 10, 99, 10], .flush]
    0 < 4 ∧ Consistent 4 ip ∧ ip.sent = [97, 98] ∧ ip.contents 4 = [13, 10, 99] :=
  ⟨by decide, (calls_stream (by decide) _ _ _ _).1, by decide, by decide⟩

end Lithos.Driver.UserOutput
