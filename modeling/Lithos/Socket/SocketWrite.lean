/-
The writing side of a connected LPC socket (`socket_write`, `socket_write_select_handler`), and what a socket in STREAM
mode sends.

A message is copied into a block of its own and handed to `send`. What `send` does not take at once stays in the write
buffer, and until `socket_write_select_handler` has sent it all, S_BLOCKED refuses every other message. `SendOutcome` is
what the network answers; whether `modify_socket_runtime` succeeds is part of an event too.

A string is copied with `strcpy`, but sent with its counted length. Behind its first NUL the block is what `malloc` has
returned; `heap` gives the bytes of each block.

Results:
* `stream_carries`: what was taken by `send`, followed by the write buffer, is what was accepted, whatever the heap
  holds, exactly if no accepted string has a byte behind its first NUL and `modify_socket_runtime` succeeds for every
  message that is sent in part.
* `bytes_behind_nul_lost`: two bytes are sent for a string of two bytes, and the second is not its own.
-/
import Lithos.Socket.SocketDns

namespace Lithos.Socket.SocketWrite

open Lithos.Lpc Lithos.Socket.SocketDns List

/-! ## The writer -/

/-- what `send` answers: -1 with an `errno`, or how many bytes it takes, at most all of them -/
inductive SendOutcome where
  | wouldBlock
  | interrupted
  | failed
  | took (n : ℕ)
deriving DecidableEq, Repr

/-- what `socket_write` returns -/
inductive Code where
  | success
  | callback
  | badf
  | notConn
  | already
  | wouldBlock
  | send
  | socket
deriving DecidableEq, Repr

/-- EESUCCESS or EECALLBACK -/
def Code.accepted : Code → Bool
  | .success | .callback => true
  | _ => false

/-- `wBuf` is what is left of `w_buf`, from `w_off` on; `sent` is what `send` has taken so far -/
structure Writer where
  state : SocketState
  blocked : Bool
  wBuf : Option (List Byte)
  sent : List Byte
deriving DecidableEq, Repr

open Writer

namespace Writer

/-- the end of `socket_close`, after the callback -/
def finishClose (w : Writer) (runtimeOk : Bool) : Writer :=
  if w.blocked then { w with state := .flushing, blocked := runtimeOk }
  else { w with state := .closed, wBuf := none }

/-- `socket_close` without SC_FINAL_CLOSE -/
def close (w : Writer) (runtimeOk : Bool) : Writer :=
  if w.state = .closed ∨ w.state = .flushing then w else w.finishClose runtimeOk

/-- the message may be handed to `send` -/
def canWrite (w : Writer) : Bool := w.state = .dataXfer && !w.blocked

/-- `socket_write` of the `len` bytes in `buf`; `runtimeOk` and `closeOk` are the answers of `modify_socket_runtime`
here and in the close that follows when it fails -/
def write (w : Writer) (buf : List Byte) (outcome : SendOutcome) (runtimeOk closeOk : Bool) : Writer × Code :=
  if w.state = .closed ∨ w.state = .flushing then (w, .badf)
  else if w.state ≠ .dataXfer then (w, .notConn)
  else if w.blocked then (w, .already)
  else
    match outcome with
    | .wouldBlock => (w, .wouldBlock)
    | .interrupted | .failed => (w, .send)
    | .took off =>
      if off < buf.length then
        let w := { w with sent := w.sent ++ buf.take off, wBuf := some (buf.drop off), blocked := true }
        if runtimeOk then (w, .callback) else (w.close closeOk, .socket)
      else ({ w with sent := w.sent ++ buf }, .success)

/-- the end of `socket_write_select_handler`, when the write buffer is empty -/
def drained (w : Writer) (runtimeOk : Bool) : Writer :=
  let w := { w with wBuf := none, blocked := false }
  if !runtimeOk || w.state = .flushing then w.finishClose true else w

/-- `socket_write_select_handler` -/
def writeSelect (w : Writer) (outcome : SendOutcome) (runtimeOk : Bool) : Writer :=
  if !w.blocked then w
  else
    match w.wBuf with
    | none => w.drained runtimeOk
    | some buf =>
      match outcome with
      | .interrupted => w
      | .wouldBlock | .failed =>
        if w.state = .flushing then { w with blocked := false }.finishClose true else w
      | .took n =>
        let w := { w with sent := w.sent ++ buf.take n, wBuf := some (buf.drop n) }
        if buf.length ≤ n then w.drained runtimeOk else w

/-- what was sent and what is still to be sent -/
def stream (w : Writer) : List Byte := w.sent ++ w.wBuf.getD []

/-- the write buffer is in use only while the socket is blocked -/
def Sound (w : Writer) : Prop := w.state = .dataXfer → w.blocked = false → w.wBuf = none

/-- the same but for the bytes -/
def SameControl (w w' : Writer) : Prop :=
  w.state = w'.state ∧ w.blocked = w'.blocked ∧ w.wBuf.map length = w'.wBuf.map length

end Writer

/-! ## One step of the writer -/

namespace Writer

variable {w : Writer} {buf : List Byte} {outcome : SendOutcome} {runtimeOk closeOk : Bool}

/-- nothing is handed to `send`, or it takes nothing: nothing changes -/
theorem write_refused (buf : List Byte) (runtimeOk closeOk : Bool) (h : w.canWrite = true → ∀ n, outcome ≠ .took n) :
    (w.write buf outcome runtimeOk closeOk).1 = w ∧ (w.write buf outcome runtimeOk closeOk).2.accepted = false := by
  unfold write
  by_cases hclosed : w.state = .closed ∨ w.state = .flushing
  · rw [if_pos hclosed]
    exact ⟨rfl, rfl⟩
  rw [if_neg hclosed]
  by_cases hstate : w.state = .dataXfer
  · rw [if_neg (not_not.2 hstate)]
    by_cases hblocked : w.blocked = true
    · rw [if_pos hblocked]
      exact ⟨rfl, rfl⟩
    · rw [if_neg hblocked]
      cases outcome with
      | wouldBlock | interrupted | failed => exact ⟨rfl, rfl⟩
      | took n => exact absurd rfl (h (by simp [canWrite, hstate, hblocked]) n)
  · rw [if_pos hstate]
    exact ⟨rfl, rfl⟩

theorem open_of_canWrite (h : w.canWrite = true) : w.state ≠ .closed := by
  intro hclosed
  simp [canWrite, hclosed] at h

theorem write_eq (h : w.canWrite = true) (n : ℕ) : w.write buf (.took n) runtimeOk closeOk =
      if n < buf.length then
        if runtimeOk then
          ({ w with sent := w.sent ++ buf.take n, wBuf := some (buf.drop n), blocked := true }, .callback)
        else
          ({ w with state := .flushing, blocked := closeOk, sent := w.sent ++ buf.take n, wBuf := some (buf.drop n) },
            .socket)
      else ({ w with sent := w.sent ++ buf }, .success) := by
  obtain ⟨hstate, hblocked⟩ : w.state = .dataXfer ∧ w.blocked = false := by simpa [canWrite] using h
  simp [write, close, finishClose, hstate, hblocked]

/-- the bytes of a message that `send` has taken, or begun to take, come behind those before it -/
theorem write_took (hs : w.Sound) (h : w.canWrite = true) (buf : List Byte) (n : ℕ) (runtimeOk closeOk : Bool) :
    ∃ w' code, w.write buf (.took n) runtimeOk closeOk = (w', code) ∧ w'.Sound ∧ w'.state ≠ .closed ∧
      w.sent <+: w'.sent ∧ w'.stream = w.stream ++ buf ∧ (code.accepted = true ↔ runtimeOk = true ∨ buf.length ≤ n) := by
  obtain ⟨hstate, hblocked⟩ : w.state = .dataXfer ∧ w.blocked = false := by simpa [canWrite] using h
  have hempty : w.wBuf = none := hs hstate hblocked
  rw [write_eq h]
  by_cases hpart : n < buf.length
  · cases runtimeOk with
    | true => simp [hpart, Sound, stream, hempty, hstate, Code.accepted]
    | false => simp [hpart, Sound, stream, hempty, Code.accepted]
  · simp [hpart, Sound, stream, hempty, hstate, Code.accepted, Nat.not_lt.1 hpart]

/-- no byte is added, and as long as the socket is not closed none is lost -/
structure Keeps (w w' : Writer) : Prop where
  sound : w'.Sound
  sent : w.sent <+: w'.sent
  le : w'.stream <+: w.stream
  kept : w'.state ≠ .closed → w.state ≠ .closed ∧ w'.stream = w.stream

theorem Keeps.refl (hs : w.Sound) : Keeps w w := ⟨hs, prefix_refl _, prefix_refl _, fun hn => ⟨hn, rfl⟩⟩

/-- the socket is closed, and the write buffer is thrown away -/
theorem Keeps.of_closed {w' : Writer} (h : w'.state = .closed) (hbuf : w'.wBuf = none) (hsent : w.sent <+: w'.sent)
    (hle : w'.sent <+: w.stream) : Keeps w w' := by
  refine ⟨fun hd => absurd (h.symm.trans hd) (by decide), hsent, ?_, fun hn => absurd h hn⟩
  rw [stream, hbuf]
  simpa using hle

theorem finishClose_keeps (hopen : w.state ≠ .closed) : Keeps w (w.finishClose runtimeOk) := by
  unfold finishClose
  split_ifs
  · exact ⟨fun hd => SocketState.noConfusion hd, prefix_refl _, prefix_refl _, fun _ => ⟨hopen, rfl⟩⟩
  · exact .of_closed rfl rfl (prefix_refl _) (prefix_append _ _)

theorem close_keeps (hs : w.Sound) : Keeps w (w.close runtimeOk) := by
  unfold close
  split_ifs with h
  · exact .refl hs
  · exact finishClose_keeps fun hc => h (.inl hc)

/-- the write buffer is empty: what was sent is all there was -/
theorem drained_keeps {w₀ : Writer} (w : Writer) (runtimeOk : Bool) (hstate : w.state = w₀.state)
    (hsent : w₀.sent <+: w.sent) (hall : w.sent = w₀.stream) : Keeps w₀ (w.drained runtimeOk) := by
  unfold drained
  by_cases h : (!runtimeOk || w.state = .flushing) = true
  · rw [if_pos h]
    exact .of_closed rfl rfl hsent (hall ▸ prefix_refl _)
  · rw [if_neg h]
    have hstream : ({ w with wBuf := none, blocked := false } : Writer).stream = w₀.stream := by
      rw [← hall]
      exact append_nil _
    exact ⟨fun _ _ => rfl, hsent, hstream ▸ prefix_refl _, fun hn => ⟨hstate ▸ hn, hstream⟩⟩

theorem writeSelect_keeps (hs : w.Sound) : Keeps w (w.writeSelect outcome runtimeOk) := by
  unfold writeSelect
  by_cases hblocked : w.blocked = true
  · rw [if_neg (by simp [hblocked])]
    cases hbuf : w.wBuf with
    | none => exact drained_keeps w runtimeOk rfl (prefix_refl _) (by simp [stream, hbuf])
    | some buf =>
      have hstop : Keeps w
          (if w.state = .flushing then { w with blocked := false }.finishClose true else w) := by
        split_ifs
        · exact .of_closed rfl rfl (prefix_refl _) (prefix_append _ _)
        · exact .refl hs
      cases outcome with
      | interrupted => exact .refl hs
      | wouldBlock | failed => exact hstop
      | took n =>
        dsimp only
        by_cases hall : buf.length ≤ n
        · rw [if_pos hall]
          have hsent : w.sent ++ buf.take n = w.stream := by simp [stream, hbuf, take_of_length_le hall]
          exact drained_keeps _ runtimeOk rfl (prefix_append _ _) hsent
        · -- what `send` takes moves from the write buffer to what was sent
          have hstream : ({ w with sent := w.sent ++ buf.take n, wBuf := some (buf.drop n) } : Writer).stream =
              w.stream := by simp [stream, hbuf]
          rw [if_neg hall]
          exact ⟨fun _ hb => absurd (hblocked.symm.trans hb) (by decide), prefix_append _ _,
            hstream ▸ prefix_refl _, fun hn => ⟨hn, hstream⟩⟩
  · rw [if_pos (by simp [hblocked])]
    exact .refl hs

end Writer

/-! ## Messages of a STREAM socket -/

inductive Kind where
  | string
  | buffer
deriving DecidableEq, Repr

/-- an LPC string or buffer; its length is an `int` -/
structure Message where
  kind : Kind
  content : List Byte
  fits : content.length < 2 ^ 31
deriving DecidableEq

namespace Message

/-- a string up to its first NUL -/
def cstr (content : List Byte) : List Byte := content.takeWhile (· ≠ 0)

/-- `strcpy` into a block -/
def strcpy (block content : List Byte) : List Byte :=
  cstr content ++ [0] ++ block.drop ((cstr content).length + 1)

/-- the bytes handed to `send`, copied into a block whose bytes were `block` before -/
def bytes (m : Message) (block : ℕ → Byte) : List Byte :=
  match m.kind with
  | .buffer => m.content
  | .string => (strcpy ((range (m.content.length + 1)).map block) m.content).take m.content.length

/-- nothing stands behind the first NUL of a string -/
def NulLast (m : Message) : Prop :=
  m.kind = .string → (m.content.dropWhile (· ≠ 0)).length ≤ 1

instance (m : Message) : Decidable m.NulLast := inferInstanceAs (Decidable (_ → _))

theorem length_bytes (m : Message) (block : ℕ → Byte) : (m.bytes block).length = m.content.length := by
  unfold bytes
  cases m.kind with
  | buffer => rfl
  | string =>
    simp only [strcpy, length_take, length_append, length_drop, length_map, length_range, length_singleton]
    omega

/-- a string in two parts: what `strcpy` copies, and the first NUL with what stands behind it -/
theorem content_eq (content : List Byte) :
    content = cstr content ∨ ∃ rest, content = cstr content ++ 0 :: rest ∧ content.dropWhile (· ≠ 0) = 0 :: rest := by
  have hsplit : cstr content ++ content.dropWhile (· ≠ 0) = content := takeWhile_append_dropWhile
  cases hrest : content.dropWhile (· ≠ 0) with
  | nil =>
    rw [hrest, append_nil] at hsplit
    exact .inl hsplit.symm
  | cons c rest =>
    have hc := head_dropWhile_not (fun c : Byte => decide (c ≠ 0)) (by rw [hrest]; simp)
    simp only [hrest, head_cons, decide_eq_false_iff_not, not_not] at hc
    subst hc
    rw [hrest] at hsplit
    exact .inr ⟨rest, hsplit.symm, rfl⟩

variable {m : Message}

/-- what is sent for a message is its content, whatever stood in the block -/
theorem bytes_eq_content (h : m.NulLast) (block : ℕ → Byte) : m.bytes block = m.content := by
  cases hk : m.kind with
  | buffer => simp only [bytes, hk]
  | string =>
    have hshort := h hk
    simp only [bytes, hk, strcpy]
    rcases content_eq m.content with hall | ⟨rest, hall, hrest⟩
    · have hlen : m.content.length = (cstr m.content).length := congrArg length hall
      rw [append_assoc, hlen, take_left, ← hall]
    · rw [hrest, length_cons] at hshort
      have hnil : rest = [] := length_eq_zero_iff.1 (by omega)
      subst hnil
      have hlen : m.content.length = (cstr m.content ++ [0]).length := congrArg length hall
      rw [hlen, take_left, ← hall]

/-- a byte behind the first NUL is taken from the block -/
theorem nulLast_of_bytes (h : ∀ block, m.bytes block = m.content) : m.NulLast := by
  intro hk
  rcases content_eq m.content with hall | ⟨rest, hall, hrest⟩
  · have hnil : m.content.dropWhile (· ≠ 0) = [] := by
      have hsplit : cstr m.content ++ m.content.dropWhile (· ≠ 0) = m.content := takeWhile_append_dropWhile
      rw [← hall] at hsplit
      simpa using hsplit
    rw [hnil]
    exact Nat.zero_le _
  · rw [hrest]
    cases hbehind : rest with
    | nil => exact le_refl _
    | cons c rest' =>
      -- a block of another byte shows through
      exfalso
      have hblock := h fun _ => c + 1
      simp only [bytes, hk, strcpy] at hblock
      generalize cstr m.content = t at hall hblock
      rw [hall, hbehind] at hblock
      have hat := congrArg (·[t.length + 1]?) hblock
      simp at hat

end Message

/-! ## Runs of a STREAM socket -/

inductive Event where
  | write (m : Message) (outcome : SendOutcome) (runtimeOk closeOk : Bool)
  | writeSelect (outcome : SendOutcome) (runtimeOk : Bool)
  | close (runtimeOk : Bool)
deriving DecidableEq

/-- a socket, the messages it has accepted, and the number of the next block -/
structure Conn where
  writer : Writer
  accepted : List Message
  blocks : ℕ
deriving DecidableEq

/-- a socket in DATA_XFER: S_BLOCKED is set if `socket_connect` has connected it, and not if it was accepted -/
def connected (blocked : Bool) : Conn := ⟨⟨.dataXfer, blocked, none, []⟩, [], 0⟩

def step (heap : ℕ → ℕ → Byte) (s : Conn) : Event → Conn
  | .write m outcome runtimeOk closeOk =>
    let (writer, code) := s.writer.write (m.bytes (heap s.blocks)) outcome runtimeOk closeOk
    ⟨writer, if code.accepted then s.accepted ++ [m] else s.accepted, s.blocks + 1⟩
  | .writeSelect outcome runtimeOk => { s with writer := s.writer.writeSelect outcome runtimeOk }
  | .close runtimeOk => { s with writer := s.writer.close runtimeOk }

def run (heap : ℕ → ℕ → Byte) (s : Conn) (es : List Event) : Conn := es.foldl (step heap) s

/-- what was sent and what is to be sent is what was accepted -/
def Conn.Carries (s : Conn) : Prop :=
  s.writer.state ≠ .closed → s.writer.stream = (s.accepted.map Message.content).flatten

/-- the condition on a step: a message that `send` takes a part of has nothing behind its first NUL, and if a part is
left over `modify_socket_runtime` succeeds -/
def Conn.Clean (s : Conn) : Event → Prop
  | .write m (.took n) runtimeOk _ =>
    s.writer.canWrite = true → m.NulLast ∧ (runtimeOk = true ∨ m.content.length ≤ n)
  | _ => True

variable {s : Conn} {heap : ℕ → ℕ → Byte} {e : Event}

theorem run_snoc (heap : ℕ → ℕ → Byte) (s : Conn) (p : List Event) (e : Event) :
    run heap s (p ++ [e]) = step heap (run heap s p) e := by
  rw [run, foldl_append]
  rfl

/-- a write that is refused changes nothing but the number of the next block -/
theorem step_refused {m : Message} {outcome : SendOutcome} {runtimeOk closeOk : Bool}
    (h : s.writer.canWrite = true → ∀ n, outcome ≠ .took n) :
    step heap s (.write m outcome runtimeOk closeOk) = { s with blocks := s.blocks + 1 } := by
  obtain ⟨hsame, hcode⟩ := write_refused (m.bytes (heap s.blocks)) runtimeOk closeOk h
  simp only [step]
  rw [hsame, hcode]
  rfl

theorem step_took (heap : ℕ → ℕ → Byte) (m : Message) (n : ℕ) (runtimeOk closeOk : Bool) (hs : s.writer.Sound)
    (h : s.writer.canWrite = true) :
    ∃ s', step heap s (.write m (.took n) runtimeOk closeOk) = s' ∧ s'.writer.Sound ∧ s'.writer.state ≠ .closed ∧
      s'.writer.stream = s.writer.stream ++ m.bytes (heap s.blocks) ∧
      s'.accepted = if runtimeOk = true ∨ m.content.length ≤ n then s.accepted ++ [m] else s.accepted := by
  obtain ⟨w', code, hwrite, hsound, hopen, -, hstream, hcode⟩ :=
    write_took hs h (m.bytes (heap s.blocks)) n runtimeOk closeOk
  rw [Message.length_bytes] at hcode
  simp only [step, hwrite, hcode]
  exact ⟨_, rfl, hsound, hopen, hstream, rfl⟩

theorem step_sound (hs : s.writer.Sound) (e : Event) : (step heap s e).writer.Sound := by
  cases e with
  | write m outcome runtimeOk closeOk =>
    by_cases h : s.writer.canWrite = true ∧ ∃ n, outcome = .took n
    · obtain ⟨hcan, n, rfl⟩ := h
      obtain ⟨s', rfl, hsound, -⟩ := step_took heap m n runtimeOk closeOk hs hcan
      exact hsound
    · rw [step_refused fun hcan n hn => h ⟨hcan, n, hn⟩]
      exact hs
  | writeSelect outcome runtimeOk => exact (writeSelect_keeps hs).sound
  | close runtimeOk => exact (close_keeps hs).sound

theorem run_sound (heap : ℕ → ℕ → Byte) (blocked : Bool) (p : List Event) :
    (run heap (connected blocked) p).writer.Sound := by
  induction p using reverseRecOn with
  | nil => exact fun _ _ => rfl
  | append_singleton p e ih =>
    rw [run_snoc]
    exact step_sound ih e

/-- a clean step -/
theorem step_carries (hs : s.writer.Sound) (hc : s.Carries) (he : s.Clean e) : (step heap s e).Carries := by
  have hkeeps : ∀ w' : Writer, Writer.Keeps s.writer w' → Conn.Carries { s with writer := w' } := by
    intro w' hk hopen
    obtain ⟨hopen', hstream⟩ := hk.kept hopen
    exact hstream.trans (hc hopen')
  cases e with
  | write m outcome runtimeOk closeOk =>
    by_cases h : s.writer.canWrite = true ∧ ∃ n, outcome = .took n
    · obtain ⟨hcan, n, rfl⟩ := h
      obtain ⟨hnul, hroom⟩ := he hcan
      obtain ⟨s', rfl, -, -, hstream, haccepted⟩ := step_took heap m n runtimeOk closeOk hs hcan
      intro _
      rw [hstream, haccepted, if_pos hroom, hc (open_of_canWrite hcan), Message.bytes_eq_content hnul]
      simp
    · rw [step_refused fun hcan n hn => h ⟨hcan, n, hn⟩]
      exact hc
  | writeSelect outcome runtimeOk => exact hkeeps _ (writeSelect_keeps hs)
  | close runtimeOk => exact hkeeps _ (close_keeps hs)

/-! ## The bytes do not decide -/

namespace Writer

variable {w w' : Writer}

theorem SameControl.canWrite (h : SameControl w w') : w'.canWrite = w.canWrite := by
  obtain ⟨hstate, hblocked, -⟩ := h
  rw [Writer.canWrite, Writer.canWrite, hstate, hblocked]

theorem SameControl.write (h : SameControl w w') {buf buf' : List Byte} (hlen : buf.length = buf'.length)
    (outcome : SendOutcome) (runtimeOk closeOk : Bool) :
    SameControl (w.write buf outcome runtimeOk closeOk).1 (w'.write buf' outcome runtimeOk closeOk).1 := by
  by_cases hcan : w.canWrite = true ∧ ∃ n, outcome = .took n
  · obtain ⟨hcan, n, rfl⟩ := hcan
    rw [write_eq hcan, write_eq (h.canWrite.trans hcan), hlen]
    obtain ⟨hstate, hblocked, hbuf⟩ := h
    split_ifs
    · exact ⟨hstate, rfl, by simp [hlen]⟩
    · exact ⟨rfl, rfl, by simp [hlen]⟩
    · exact ⟨hstate, hblocked, hbuf⟩
  · rw [(write_refused buf runtimeOk closeOk fun hc n hn => hcan ⟨hc, n, hn⟩).1,
      (write_refused buf' runtimeOk closeOk fun hc n hn => hcan ⟨h.canWrite.symm.trans hc, n, hn⟩).1]
    exact h

theorem SameControl.finishClose (h : SameControl w w') (runtimeOk : Bool) :
    SameControl (w.finishClose runtimeOk) (w'.finishClose runtimeOk) := by
  obtain ⟨hstate, hblocked, hbuf⟩ := h
  rw [Writer.finishClose, Writer.finishClose, hblocked]
  split_ifs
  · exact ⟨rfl, rfl, hbuf⟩
  · exact ⟨rfl, rfl, rfl⟩

theorem SameControl.close (h : SameControl w w') (runtimeOk : Bool) :
    SameControl (w.close runtimeOk) (w'.close runtimeOk) := by
  rw [Writer.close, Writer.close, h.1]
  split_ifs
  · exact h
  · exact h.finishClose runtimeOk

theorem SameControl.drained (h : w.state = w'.state) (runtimeOk : Bool) :
    SameControl (w.drained runtimeOk) (w'.drained runtimeOk) := by
  unfold Writer.drained
  dsimp only
  rw [h]
  split_ifs
  · apply SameControl.finishClose
    exact ⟨rfl, rfl, rfl⟩
  · exact ⟨rfl, rfl, rfl⟩

theorem SameControl.writeSelect (h : SameControl w w') (outcome : SendOutcome) (runtimeOk : Bool) :
    SameControl (w.writeSelect outcome runtimeOk) (w'.writeSelect outcome runtimeOk) := by
  obtain ⟨hstate, hblocked, hbuf⟩ := id h
  unfold Writer.writeSelect
  rw [hblocked]
  by_cases hb : (!w'.blocked) = true
  · rw [if_pos hb, if_pos hb]
    exact h
  rw [if_neg hb, if_neg hb]
  cases hw : w.wBuf with
  | none =>
    have hw' : w'.wBuf = none := by simpa [hw] using hbuf.symm
    rw [hw']
    exact .drained hstate runtimeOk
  | some buf =>
    obtain ⟨buf', hw', hlen⟩ : ∃ buf', w'.wBuf = some buf' ∧ buf'.length = buf.length := by
      simpa [hw] using hbuf.symm
    have hstop : SameControl
        (if w.state = .flushing then { w with blocked := false }.finishClose true else w)
        (if w'.state = .flushing then { w' with blocked := false }.finishClose true else w') := by
      rw [hstate]
      split_ifs
      · apply SameControl.finishClose
        exact ⟨rfl, rfl, hbuf⟩
      · exact h
    rw [hw']
    cases outcome with
    | interrupted => exact h
    | wouldBlock | failed => exact hstop
    | took n =>
      dsimp only
      rw [hlen]
      split_ifs
      · apply SameControl.drained
        exact hstate
      · exact ⟨hstate, rfl, by simp [hlen]⟩

end Writer

/-- the heap has no say in what a run accepts -/
theorem run_sameControl (heap heap' : ℕ → ℕ → Byte) (s : Conn) (p : List Event) :
    Writer.SameControl (run heap s p).writer (run heap' s p).writer := by
  induction p using reverseRecOn with
  | nil => exact ⟨rfl, rfl, rfl⟩
  | append_singleton p e ih =>
    rw [run_snoc, run_snoc]
    cases e with
    | write m outcome runtimeOk closeOk =>
      exact ih.write (by rw [Message.length_bytes, Message.length_bytes]) outcome runtimeOk closeOk
    | writeSelect outcome runtimeOk => exact ih.writeSelect outcome runtimeOk
    | close runtimeOk => exact ih.close runtimeOk

/-! ## The stream -/

/-- a step that carries in every heap is clean -/
theorem clean_of_carries {blocked : Bool} {p : List Event} (heap : ℕ → ℕ → Byte)
    (hp : ∀ heap, (run heap (connected blocked) p).Carries)
    (he : ∀ heap, (run heap (connected blocked) (p ++ [e])).Carries) : (run heap (connected blocked) p).Clean e := by
  rcases e with ⟨m, _ | _ | _ | n, runtimeOk, closeOk⟩ | _ | _
  case write.took =>
    intro hcan
    -- the bytes of the message in any other heap
    have hbytes : ∀ heap' : ℕ → ℕ → Byte, (runtimeOk = true ∨ m.content.length ≤ n) ∧
        m.bytes (heap' (run heap' (connected blocked) p).blocks) = m.content := by
      intro heap'
      have hcan' := (run_sameControl heap heap' (connected blocked) p).canWrite.trans hcan
      obtain ⟨s', rfl, -, hopen', hstream, haccepted⟩ :=
        step_took heap' m n runtimeOk closeOk (run_sound heap' blocked p) hcan'
      have hafter := he heap'
      rw [run_snoc] at hafter
      have heq := hafter hopen'
      rw [hstream, haccepted, hp heap' (open_of_canWrite hcan')] at heq
      by_cases hroom : runtimeOk = true ∨ m.content.length ≤ n
      · rw [if_pos hroom] at heq
        exact ⟨hroom, by simpa using heq⟩
      · -- a part was sent, and the message was refused
        rw [if_neg hroom, append_right_eq_self] at heq
        have hlen := Message.length_bytes m (heap' (run heap' (connected blocked) p).blocks)
        rw [heq, length_nil] at hlen
        exact absurd (.inr (by omega)) hroom
    refine ⟨Message.nulLast_of_bytes fun block => ?_, (hbytes heap).1⟩
    exact (hbytes fun _ => block).2
  all_goals exact trivial

/-- **The output of a stream socket.** In every run from a connected socket, whatever the heap holds: what `send` has
taken, followed by what is in the write buffer, is what was accepted, at every moment until the socket is closed,
exactly if every step is clean. -/
theorem stream_carries (blocked : Bool) (es : List Event) :
    (∀ heap p, p <+: es → (run heap (connected blocked) p).Carries) ↔
      ∀ heap p e, p ++ [e] <+: es → (run heap (connected blocked) p).Clean e := by
  constructor
  · intro h heap p e hpre
    exact clean_of_carries heap (fun heap' => h heap' p ((prefix_append p [e]).trans hpre))
      fun heap' => h heap' _ hpre
  · intro h heap p
    induction p using reverseRecOn with
    | nil =>
      intro _ _
      rfl
    | append_singleton p e ih =>
      intro hpre
      have hbefore := ih ((prefix_append p [e]).trans hpre)
      rw [run_snoc]
      exact step_carries (run_sound heap blocked p) hbefore (h heap p e hpre)

/-- the string `"\0a"` -/
def nulThenA : Message := ⟨.string, [0, 97], by decide⟩

/-- **The bytes behind a NUL are lost.** The message is accepted and sent at once, and the second byte sent is one that
stood in the block. -/
theorem bytes_behind_nul_lost :
    (run (fun _ _ => 7) (connected false) [.write nulThenA (.took 2) true true]).accepted = [nulThenA] ∧
      (run (fun _ _ => 7) (connected false) [.write nulThenA (.took 2) true true]).writer.stream = [0, 7] := by
  decide

end Lithos.Socket.SocketWrite
