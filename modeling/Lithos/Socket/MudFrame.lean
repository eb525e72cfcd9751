/-
Sockets in MUD mode: an LPC value is saved as text, sent behind four bytes that hold its size, and restored on the
other side.

`mudBytes` is the block that `socket_write` hands to `send`: the size in network order, the text and its NUL, and behind
them what `malloc` has returned (a value that is saved as nothing has a size of two). The text goes in by `saveSvalue`,
which writes the digits of the least integer backwards over what stands before: `before` are the 18 bytes of the heap
before the block. The reader (`readSelect`) takes at most what is missing of the four bytes, then at most what is
missing of the text. The network keeps what was sent and not yet received; how much of it a `recv` returns is part of
the event. `restore_svalue` is a parameter, which returns nothing when it raises an error.

Results:
* `values_delivered`: in every run in which no accepted value has its least integers written outside of its text, none
  makes `restore_svalue` raise an error, and `modify_socket_runtime` succeeds for those sent in part, the reader has
  been called for the first accepted values in their order, with what is restored from their text; and for all of them
  once everything is received.
* `header_overwritten`: a value whose size is overwritten, so that the reader closes the connection.
-/
import Lithos.Core.Bytes
import Lithos.Lpc.Save.SaveSize
import Lithos.Socket.SocketWrite

namespace Lithos.Socket.MudFrame

open Lithos.Core.Bytes Lithos.Lpc Lithos.Lpc.Save Lithos.Socket.SocketDns Lithos.Socket.SocketWrite List Option Writer

variable {ρ β : Type} [Double ρ] {size : ℕ}

/-! ## Model -/

/-- the four bytes before the text: `htonl` of its size -/
def header (size : ℕ) : List Byte := (store 4 size).reverse

/-- what `socket_write` hands to `send` for a value; none if `svalue_save_size` raises an error -/
def mudBytes (before : Fin 18 → Byte) (block : ℕ → Byte) (v : Svalue ρ) : Option (List Byte) := do
  let size ← svalueSaveSize 0 v
  let out ← saveSvalue v (ofFn before ++ header size)
  let mem := out.drop 18 ++ [nul]
  return (mem ++ ((range (size + 5)).map block).drop mem.length).take (size + 4)

/-- a C string in memory -/
def cstr (mem : List Byte) : List Byte := mem.takeWhile (· ≠ nul)

/-- what `recv` answers: would-block (or interrupted), the end of the connection, or some bytes -/
inductive RecvOutcome where
  | wouldBlock
  | lost
  | got (n : ℕ)
deriving DecidableEq, Repr

/-- `got` are the bytes received of the header (in `r_len`) or of the text (in `r_buf`), `r_off` many; `sHeader` is
S_HEADER; `calls` are the values with which the read callback was called -/
structure Reader (β : Type) where
  state : SocketState
  sHeader : Bool
  rLen : ℕ
  got : List Byte
  unread : List Byte
  calls : List β
deriving DecidableEq

namespace Reader

/-- `recv` of at most `want` bytes: those it returns, or none for -1 and for 0 -/
def recv (r : Reader β) (outcome : RecvOutcome) (want : ℕ) : Option (List Byte) :=
  match outcome with
  | .got n => if n = 0 ∨ r.unread = [] then none else some (r.unread.take (min n want))
  | _ => none

/-- nothing was received: the socket is closed unless `recv` would block -/
def stop (r : Reader β) (outcome : RecvOutcome) : Reader β :=
  match outcome with
  | .lost => { r with state := .closed }
  | _ => r

/-- the bytes are taken from the network -/
def take (r : Reader β) (bytes : List Byte) : Reader β :=
  { r with got := r.got ++ bytes, unread := r.unread.drop bytes.length }

/-- the text is complete: it is restored, and the callback is called; an error leaves everything as it is -/
def finish (restore : List Byte → Option β) (r : Reader β) : Reader β :=
  match restore (cstr r.got) with
  | none => r
  | some x => { r with sHeader := true, got := [], rLen := 0, calls := r.calls ++ [x] }

/-- the text: the second half of the handler -/
def readText (restore : List Byte → Option β) (r : Reader β) (outcome : RecvOutcome) : Reader β :=
  if r.got.length < r.rLen then
    match r.recv outcome (r.rLen - r.got.length) with
    | none => r.stop outcome
    | some bytes =>
      let r := r.take bytes
      if r.got.length ≠ r.rLen then r else r.finish restore
  else r.finish restore

/-- `socket_read_select_handler` for a socket in MUD mode; `limit` is MAX_BYTE_TRANSFER -/
def readSelect (restore : List Byte → Option β) (limit : ℕ) (r : Reader β) (first second : RecvOutcome) : Reader β :=
  if r.state ≠ .dataXfer then r
  else if r.sHeader then
    match r.recv first (4 - r.got.length) with
    | none => r.stop first
    | some bytes =>
      let r := r.take bytes
      if r.got.length ≠ 4 then r
      else
        let r := { r with sHeader := false, rLen := value r.got.reverse, got := [] }
        if r.rLen = 0 ∨ limit < r.rLen then { r with state := .closed } else r.readText restore second
  else r.readText restore second

end Reader

/-- the two ends of a connection, and the values that were accepted -/
structure Link (ρ β : Type) where
  writer : Writer
  reader : Reader β
  accepted : List (Svalue ρ)

/-- the events of a connection; a bare object is refused with EETYPENOTSUPP and is no value here -/
inductive Event (ρ : Type) where
  | write (v : Svalue ρ) (before : Fin 18 → Byte) (block : ℕ → Byte) (outcome : SendOutcome) (runtimeOk closeOk : Bool)
  | writeSelect (outcome : SendOutcome) (runtimeOk : Bool)
  | close (runtimeOk : Bool)
  | readSelect (first second : RecvOutcome)

namespace Link

/-- the writer goes on, and what it has sent is on its way -/
def setWriter (s : Link ρ β) (w : Writer) : Link ρ β :=
  { s with writer := w, reader := { s.reader with
    unread := s.reader.unread ++ w.sent.drop s.writer.sent.length } }

end Link

def step (restore : List Byte → Option β) (limit : ℕ) (s : Link ρ β) : Event ρ → Link ρ β
  | .write v before block outcome runtimeOk closeOk =>
    match mudBytes before block v with
    | none => s
    | some buf =>
      let (writer, code) := s.writer.write buf outcome runtimeOk closeOk
      { s.setWriter writer with accepted := if code.accepted then s.accepted ++ [v] else s.accepted }
  | .writeSelect outcome runtimeOk => s.setWriter (s.writer.writeSelect outcome runtimeOk)
  | .close runtimeOk => s.setWriter (s.writer.close runtimeOk)
  | .readSelect first second => { s with reader := s.reader.readSelect restore limit first second }

def run (restore : List Byte → Option β) (limit : ℕ) (s : Link ρ β) (es : List (Event ρ)) : Link ρ β :=
  es.foldl (step restore limit) s

/-- a connection before anything is sent -/
def connected (blocked : Bool) : Link ρ β :=
  ⟨⟨.dataXfer, blocked, none, []⟩, ⟨.dataXfer, true, 0, [], [], []⟩, []⟩

/-- what the callback is to be called with: `restore_svalue` of the text that `save_svalue` writes -/
def delivered (restore : List Byte → Option β) (v : Svalue ρ) : Option β :=
  (saveSvalue v []).bind fun text => restore (cstr text)

/-! ## Frames -/

/-- what is sent for a value: the length of a body, and the body, from which the value is restored -/
def IsFrame (restore : List Byte → Option β) (limit : ℕ) (v : Svalue ρ) (frame : List Byte) : Prop :=
  ∃ body, frame = header body.length ++ body ∧ 0 < body.length ∧ body.length ≤ limit ∧
    restore (cstr body) = delivered restore v ∧ (delivered restore v).isSome

@[simp]
theorem length_header (size : ℕ) : (header size).length = 4 := by rw [header, length_reverse, length_store]

theorem value_header (h : size < 2 ^ 31) : value (header size).reverse = size := by
  rw [header, reverse_reverse, value_store]
  exact Nat.mod_eq_of_lt (lt_trans h (by norm_num))

/-- the text ends where its NUL stands -/
theorem cstr_append (text pad : List Byte) : cstr (text ++ nul :: pad) = cstr text := by
  induction text with
  | nil => simp [cstr]
  | cons c text ih =>
    simp only [cstr, cons_append, takeWhile_cons] at ih ⊢
    split
    · rw [ih]
    · rfl

/-- a value whose least integers stay in its text is sent as a frame -/
theorem mudBytes_isFrame {restore : List Byte → Option β} {limit : ℕ} {v : Svalue ρ} (hneed : need v = 0)
    (hdelivered : (delivered restore v).isSome) (hsize : svalueSaveSize 0 v = some size) (hlimit : size ≤ limit)
    (before : Fin 18 → Byte) (block : ℕ → Byte) :
    ∃ frame, mudBytes before block v = some frame ∧ frame.length = size + 4 ∧ IsFrame restore limit v frame := by
  obtain ⟨hroom, hwidth⟩ := writes v []
  obtain ⟨text, htext⟩ := hroom.1 (by rw [hneed]; exact Nat.zero_le _)
  have hlen : text.length + 1 ≤ size := by
    rw [hwidth text htext, length_nil, Nat.zero_add]
    exact width_lt_size v 0 size hsize
  have hout : saveSvalue v (ofFn before ++ header size) = some (ofFn before ++ header size ++ text) := by
    have hshift := saveSvalue_shifts v (ofFn before ++ header size) [] text htext
    rwa [append_nil] at hshift
  have hdrop : (ofFn before ++ header size ++ text).drop 18 = header size ++ text := by
    exact drop_left' (length_ofFn)
  set pad := (((range (size + 5)).map block).drop (header size ++ text ++ [nul]).length).take
    (size - (text.length + 1)) with hpad
  have hpadlen : pad.length = size - (text.length + 1) := by
    rw [length_take, length_drop]
    simp only [length_map, length_range, length_append, length_singleton, length_header]
    omega
  have hbody : (text ++ nul :: pad).length = size := by
    rw [length_append, length_cons]
    omega
  refine ⟨header size ++ (text ++ nul :: pad), ?_, ?_, text ++ nul :: pad, ?_, ?_, ?_, ?_, hdelivered⟩
  · have htake : size + 4 = (header size ++ text ++ [nul]).length + (size - (text.length + 1)) := by
      simp only [length_append, length_singleton, length_header]
      omega
    simp only [mudBytes, hsize, hout, bind_eq_bind, bind_some, Option.pure_def, hdrop]
    rw [htake, List.take_length_add_append, ← hpad]
    simp
  · rw [length_append, length_header]
    omega
  · rw [hbody]
  · omega
  · rw [hbody]
    exact hlimit
  · rw [cstr_append, delivered, htext, bind_some]

/-! ## The reader -/

/-- where the reader stands in the frames to come, of which `bytes` were not received yet: in a header, or in the body
behind it -/
def Position (r : Reader β) (bytes : List Byte) (frames : List (List Byte)) : Prop :=
  if r.sHeader then r.got.length < 4 ∧ r.got ++ bytes = frames.flatten
  else ∃ body rest, frames = (header body.length ++ body) :: rest ∧ r.rLen = body.length ∧
    r.got.length < body.length ∧ r.got ++ bytes = body ++ rest.flatten

/-- the callback was called for the first of the accepted values, and the others are on their way; `tail` was not sent
yet -/
def Reads (restore : List Byte → Option β) (limit : ℕ) (accepted : List (Svalue ρ)) (r : Reader β)
    (tail : List Byte) : Prop :=
  ∃ done rest frames, accepted = done ++ rest ∧ r.calls.map some = done.map (delivered restore) ∧
    List.Forall₂ (IsFrame restore limit) rest frames ∧ Position r (r.unread ++ tail) frames

variable {restore : List Byte → Option β} {limit want : ℕ} {accepted : List (Svalue ρ)} {r : Reader β}
  {outcome : RecvOutcome} {tail frame bytes : List Byte} {s : Link ρ β} {v : Svalue ρ}

namespace Reader

/-- what `recv` returns comes from the network, and is no more than was asked for -/
theorem recv_some (h : r.recv outcome want = some bytes) :
    bytes.length ≤ want ∧ bytes ++ r.unread.drop bytes.length = r.unread := by
  cases outcome with
  | wouldBlock | lost => cases h
  | got n =>
    simp only [recv] at h
    split_ifs at h
    cases h
    refine ⟨(length_take_le _ _).trans (min_le_right _ _), ?_⟩
    rw [length_take]
    rcases Nat.le_total (min n want) r.unread.length with hle | hle
    · rw [min_eq_left hle, take_append_drop]
    · rw [min_eq_right hle, drop_length, append_nil, take_of_length_le hle]

/-- taking bytes does not change what follows -/
theorem take_append (h : r.recv outcome want = some bytes) (tail : List Byte) :
    (r.take bytes).got.length ≤ r.got.length + want ∧
      (r.take bytes).got ++ ((r.take bytes).unread ++ tail) = r.got ++ (r.unread ++ tail) := by
  obtain ⟨hwant, hsplit⟩ := recv_some h
  refine ⟨length_append.trans_le (Nat.add_le_add_left hwant _), ?_⟩
  calc r.got ++ bytes ++ (r.unread.drop bytes.length ++ tail)
      = r.got ++ (bytes ++ r.unread.drop bytes.length ++ tail) := by simp only [append_assoc]
    _ = r.got ++ (r.unread ++ tail) := by rw [hsplit]

theorem stop_reads (h : Reads restore limit accepted r tail) (outcome : RecvOutcome) :
    Reads restore limit accepted (r.stop outcome) tail := by
  cases outcome <;> exact h

/-- a reader in a body -/
theorem readText_reads (h : Reads restore limit accepted r tail) (hbody : r.sHeader = false)
    (outcome : RecvOutcome) : Reads restore limit accepted (r.readText restore outcome) tail := by
  obtain ⟨done, rest, frames, haccepted, hcalls, hframes, hpos⟩ := id h
  simp only [Position, hbody, Bool.false_eq_true, if_false] at hpos
  obtain ⟨body, frames', hcons, hlen, hlt, hbytes⟩ := hpos
  rw [readText, if_pos (by rw [hlen]; exact hlt)]
  cases hrecv : r.recv outcome (r.rLen - r.got.length) with
  | none => exact stop_reads h outcome
  | some bytes =>
    obtain ⟨hgot, htake⟩ := take_append hrecv tail
    rw [hbytes] at htake
    dsimp only
    have hlen' : (r.take bytes).rLen = body.length := hlen
    by_cases hpart : (r.take bytes).got.length ≠ (r.take bytes).rLen
    · rw [if_pos hpart]
      refine ⟨done, rest, frames, haccepted, hcalls, hframes, ?_⟩
      have hsame : (r.take bytes).sHeader = false := hbody
      simp only [Position, hsame, Bool.false_eq_true, if_false]
      exact ⟨body, frames', hcons, hlen, by omega, htake⟩
    · -- the body is complete, and its value is the first of the rest
      rw [if_neg hpart]
      have hwhole : (r.take bytes).got.length = body.length := (not_not.1 hpart).trans hlen'
      obtain ⟨heq, hrest⟩ := append_inj htake hwhole
      rw [hcons] at hframes
      cases hframes with
      | @cons v _ rest' _ hv hframes' =>
        obtain ⟨body', hframe, -, -, hrestore, hsome⟩ := hv
        have hbody' : body = body' := (append_inj' hframe (by
          have := congrArg length hframe
          simp only [length_append, length_header] at this
          omega)).2
        obtain ⟨x, hx⟩ := isSome_iff_exists.1 hsome
        have hfinish : restore (cstr (r.take bytes).got) = some x := by rw [heq, hbody', hrestore, hx]
        rw [finish, hfinish]
        refine ⟨done ++ [v], rest', frames', by simp [haccepted], ?_, hframes', ?_⟩
        · simp only [map_append, map_cons, map_nil, hx]
          exact congrArg (· ++ [some x]) hcalls
        · exact ⟨by simp, hrest⟩

/-- **One call of the read handler.** -/
theorem readSelect_reads (hlimit : limit < 2 ^ 31) (h : Reads restore limit accepted r tail)
    (first second : RecvOutcome) : Reads restore limit accepted (r.readSelect restore limit first second) tail := by
  obtain ⟨done, rest, frames, haccepted, hcalls, hframes, hpos⟩ := id h
  unfold readSelect
  by_cases hstate : r.state ≠ .dataXfer
  · rw [if_pos hstate]
    exact h
  rw [if_neg hstate]
  cases hheader : r.sHeader with
  | false => exact readText_reads h hheader second
  | true =>
    simp only [Position, hheader, if_true] at hpos
    obtain ⟨hlt, hbytes⟩ := hpos
    cases hrecv : r.recv first (4 - r.got.length) with
    | none => exact stop_reads h first
    | some bytes =>
      obtain ⟨hgot, htake⟩ := take_append hrecv tail
      rw [hbytes] at htake
      dsimp only
      by_cases hpart : (r.take bytes).got.length ≠ 4
      · rw [if_pos hpart]
        refine ⟨done, rest, frames, haccepted, hcalls, hframes, ?_⟩
        have hsame : (r.take bytes).sHeader = true := hheader
        simp only [Position, hsame, if_true]
        exact ⟨by omega, htake⟩
      · rw [if_neg hpart]
        have hfour : (r.take bytes).got.length = 4 := not_not.1 hpart
        -- the four bytes are the header of the next frame
        cases hframes with
        | nil =>
          have hnone := congrArg length htake
          rw [length_append, hfour] at hnone
          simp at hnone
        | @cons v frame rest' frames' hv hframes' =>
          obtain ⟨body, rfl, hpos, hle, hrestore, hsome⟩ := id hv
          rw [flatten_cons, append_assoc] at htake
          obtain ⟨heq, hrest⟩ := append_inj htake (by rw [hfour, length_header])
          have hvalue : value (r.take bytes).got.reverse = body.length := by
            rw [heq, value_header (lt_of_le_of_lt hle hlimit)]
          have hfits : ¬ (body.length = 0 ∨ limit < body.length) := by omega
          rw [hvalue, if_neg hfits]
          apply readText_reads _ rfl second
          refine ⟨done, v :: rest', _, haccepted, hcalls, List.Forall₂.cons hv hframes', ?_⟩
          exact ⟨body, frames', rfl, rfl, hpos, hrest⟩

end Reader

/-! ## The two ends -/

/-- the values written are within the limit of the reader -/
def Event.Within (limit : ℕ) : Event ρ → Prop
  | .write v .. => ∀ size, svalueSaveSize 0 v = some size → size ≤ limit
  | _ => True

/-- the condition on a step: the least integers of a value that `send` takes a part of stay in its text, the text can be
restored, and if a part is left over `modify_socket_runtime` succeeds -/
def Link.Clean (restore : List Byte → Option β) (s : Link ρ β) : Event ρ → Prop
  | .write v _ _ (.took n) runtimeOk _ => s.writer.canWrite = true → need v = 0 ∧ (delivered restore v).isSome ∧
      (runtimeOk = true ∨ ∀ size, svalueSaveSize 0 v = some size → size + 4 ≤ n)
  | _ => True

/-- every step of a run is clean in the state it starts from -/
def Link.CleanRun (restore : List Byte → Option β) (limit : ℕ) : Link ρ β → List (Event ρ) → Prop
  | _, [] => True
  | s, e :: es => s.Clean restore e ∧ CleanRun restore limit (step restore limit s e) es

/-- the callback was called for the first of the accepted values, once for each and in their order, with what is
restored from the text that was saved; and for all of them if nothing is left to be sent or received -/
def Link.Delivers (restore : List Byte → Option β) (s : Link ρ β) : Prop :=
  s.reader.calls.map some <+: s.accepted.map (delivered restore) ∧
    (s.writer.state ≠ .closed → s.writer.wBuf = none → s.reader.unread = [] →
      s.reader.calls.map some = s.accepted.map (delivered restore))

/-- the accepted values are on their way, but for what is lost when the writer is closed -/
def Link.Inv (restore : List Byte → Option β) (limit : ℕ) (s : Link ρ β) : Prop :=
  s.writer.Sound ∧ ∃ lost, Reads restore limit s.accepted s.reader (s.writer.wBuf.getD [] ++ lost) ∧
    (s.writer.state ≠ .closed → lost = [])

/-- bytes go from the writer to the network -/
theorem Reads.send {tail' unread : List Byte} (h : Reads restore limit accepted r tail)
    (heq : unread ++ tail' = r.unread ++ tail) :
    Reads restore limit accepted { r with unread := unread } tail' := by
  obtain ⟨done, rest, frames, haccepted, hcalls, hframes, hpos⟩ := h
  refine ⟨done, rest, frames, haccepted, hcalls, hframes, ?_⟩
  rw [heq]
  exact hpos

/-- a frame is queued behind the others -/
theorem Reads.snoc (h : Reads restore limit accepted r tail)
    (hframe : IsFrame restore limit v frame) : Reads restore limit (accepted ++ [v]) r (tail ++ frame) := by
  obtain ⟨done, rest, frames, haccepted, hcalls, hframes, hpos⟩ := h
  have hsnoc : List.Forall₂ (IsFrame restore limit) (rest ++ [v]) (frames ++ [frame]) :=
    rel_append hframes (.cons hframe .nil)
  refine ⟨done, rest ++ [v], frames ++ [frame], by rw [haccepted, append_assoc], hcalls, hsnoc, ?_⟩
  unfold Position at hpos ⊢
  cases hheader : r.sHeader with
  | true =>
    simp only [hheader, if_true] at hpos ⊢
    obtain ⟨hlt, hbytes⟩ := hpos
    refine ⟨hlt, ?_⟩
    rw [flatten_append, ← hbytes]
    simp
  | false =>
    simp only [hheader, Bool.false_eq_true, if_false] at hpos ⊢
    obtain ⟨body, frames', rfl, hlen, hlt, hbytes⟩ := hpos
    refine ⟨body, frames' ++ [frame], rfl, hlen, hlt, ?_⟩
    calc r.got ++ (r.unread ++ (tail ++ frame)) = r.got ++ (r.unread ++ tail) ++ frame := by
          simp only [append_assoc]
      _ = body ++ (frames' ++ [frame]).flatten := by rw [hbytes]; simp

/-- what the writer has sent is taken from its stream -/
theorem Reads.setWriter {w : Writer} {more gone : List Byte}
    (h : Reads restore limit accepted s.reader (s.writer.wBuf.getD [] ++ more)) (hsent : s.writer.sent <+: w.sent)
    (hstream : w.stream ++ gone = s.writer.stream ++ more) :
    Reads restore limit accepted (s.setWriter w).reader (w.wBuf.getD [] ++ gone) := by
  obtain ⟨d, hd⟩ := hsent
  have hsplit : d ++ w.wBuf.getD [] ++ gone = s.writer.wBuf.getD [] ++ more := by
    rw [stream, stream, ← hd] at hstream
    simpa using hstream
  apply h.send
  rw [← hd, drop_left, ← hsplit]
  simp only [append_assoc]

/-- what the writer sends from its buffer -/
theorem setWriter_inv (h : s.Inv restore limit) {w : Writer} (hk : Writer.Keeps s.writer w) :
    (s.setWriter w).Inv restore limit := by
  obtain ⟨hs, lost, hreads, hlost⟩ := h
  obtain ⟨gone, hgone⟩ := hk.le
  refine ⟨hk.sound, gone ++ lost, hreads.setWriter hk.sent (by rw [← append_assoc, hgone]), ?_⟩
  intro hopen
  obtain ⟨hopen', heq⟩ := hk.kept hopen
  rw [← heq, append_right_eq_self] at hgone
  rw [hgone, hlost hopen', append_nil]

/-- a value is accepted -/
theorem write_inv (h : s.Inv restore limit) (hframe : IsFrame restore limit v frame) (hcan : s.writer.canWrite = true)
    {w : Writer} (hsound : w.Sound) (hsent : s.writer.sent <+: w.sent) (hstream : w.stream = s.writer.stream ++ frame) :
    ({ s.setWriter w with accepted := s.accepted ++ [v] } : Link ρ β).Inv restore limit := by
  obtain ⟨-, lost, hreads, hlost⟩ := h
  rw [hlost (open_of_canWrite hcan), append_nil] at hreads
  exact ⟨hsound, [], (hreads.snoc hframe).setWriter hsent (by rw [append_nil, hstream]), fun _ => rfl⟩

/-- **One step.** -/
theorem step_inv (hlimit : limit < 2 ^ 31) (h : s.Inv restore limit) {e : Event ρ} (hwithin : e.Within limit)
    (hclean : s.Clean restore e) : (step restore limit s e).Inv restore limit := by
  cases e with
  | write v before block outcome runtimeOk closeOk =>
    simp only [step]
    cases hbytes : mudBytes before block v with
    | none => exact h
    | some buf =>
      dsimp only
      by_cases hsend : s.writer.canWrite = true ∧ ∃ n, outcome = .took n
      · obtain ⟨hcan, n, rfl⟩ := hsend
        obtain ⟨hneed, hdelivered, hroom⟩ := hclean hcan
        obtain ⟨size, hsize, -⟩ := bind_eq_some_iff.1 hbytes
        obtain ⟨frame, hframe, hlen, hisFrame⟩ :=
          mudBytes_isFrame hneed hdelivered hsize (hwithin size hsize) before block
        cases hbytes.symm.trans hframe
        obtain ⟨w, code, hwrite, hsound, -, hsent, hstream, hcode⟩ := write_took h.1 hcan buf n runtimeOk closeOk
        rw [hwrite]
        rw [hlen] at hcode
        rw [if_pos (hcode.2 (hroom.imp_right fun hall => hall size hsize))]
        exact write_inv h hisFrame hcan hsound hsent hstream
      · obtain ⟨hsame, hcode⟩ :=
          write_refused buf runtimeOk closeOk fun hcan n hn => hsend ⟨hcan, n, hn⟩
        rw [hsame, hcode]
        exact setWriter_inv h (.refl h.1)
  | writeSelect outcome runtimeOk => exact setWriter_inv h (writeSelect_keeps h.1)
  | close runtimeOk => exact setWriter_inv h (close_keeps h.1)
  | readSelect first second =>
    obtain ⟨hs, lost, hreads, hlost⟩ := h
    exact ⟨hs, lost, Reader.readSelect_reads hlimit hreads first second, hlost⟩

theorem run_inv (hlimit : limit < 2 ^ 31) (h : s.Inv restore limit) {es : List (Event ρ)}
    (hwithin : ∀ e ∈ es, e.Within limit) (hclean : s.CleanRun restore limit es) :
    (run restore limit s es).Inv restore limit := by
  induction es generalizing s with
  | nil => exact h
  | cons e es ih =>
    obtain ⟨he, hes⟩ := hclean
    have hstep := step_inv hlimit h (hwithin e mem_cons_self) he
    exact ih hstep (fun e' he' => hwithin e' (mem_cons_of_mem _ he')) hes

theorem connected_inv (blocked : Bool) : (connected blocked : Link ρ β).Inv restore limit := by
  refine ⟨fun _ _ => rfl, [], ⟨[], [], [], rfl, rfl, .nil, ?_⟩, fun _ => rfl⟩
  simp [Position, connected]

/-- the calls made are those for the first values, and for all of them when nothing is on its way -/
theorem Reads.calls (h : Reads restore limit accepted r tail) : r.calls.map some <+: accepted.map (delivered restore) ∧
      (r.unread = [] → tail = [] → r.calls.map some = accepted.map (delivered restore)) := by
  obtain ⟨done, rest, frames, haccepted, hcalls, hframes, hpos⟩ := h
  rw [haccepted, map_append, ← hcalls]
  refine ⟨prefix_append _ _, ?_⟩
  intro hunread htail
  cases hframes with
  | nil => simp
  | @cons v frame rest' frames' hv hframes' =>
    -- a frame to come would have bytes that were not received
    exfalso
    obtain ⟨body, rfl, hpos', -⟩ := hv
    unfold Position at hpos
    rw [hunread, htail, append_nil, append_nil] at hpos
    cases hheader : r.sHeader with
    | true =>
      simp only [hheader, if_true] at hpos
      obtain ⟨hlt, hbytes⟩ := hpos
      have hlen := congrArg length hbytes
      rw [flatten_cons, length_append, length_append, length_header] at hlen
      omega
    | false =>
      simp only [hheader, Bool.false_eq_true, if_false] at hpos
      obtain ⟨body', frames'', -, hlen, hlt, hbytes⟩ := hpos
      have hlen' := congrArg length hbytes
      rw [length_append] at hlen'
      omega

/-- **Values are delivered.** In every run of clean steps from a new connection, whatever `send` takes, however the
bytes are cut and whatever the heap holds, the reader gets the accepted values. The size of a frame, four bytes more than
the text, is an `int`. -/
theorem values_delivered (restore : List Byte → Option β) (limit : ℕ) (hlimit : limit + 4 < 2 ^ 31) (blocked : Bool)
    (es : List (Event ρ)) (hwithin : ∀ e ∈ es, e.Within limit)
    (hclean : (connected blocked : Link ρ β).CleanRun restore limit es) :
    (run restore limit (connected blocked : Link ρ β) es).Delivers restore := by
  obtain ⟨-, lost, hreads, hlost⟩ := run_inv (Nat.lt_of_add_right_lt hlimit) (connected_inv blocked) hwithin hclean
  refine ⟨hreads.calls.1, ?_⟩
  intro hopen hempty hunread
  apply hreads.calls.2 hunread
  rw [hempty, hlost hopen]
  rfl

/-- the number 5, sent in two parts and received in four -/
def fiveInParts : List (Event ZeroReal) :=
  [.write (.number 5) (fun _ => 0) (fun _ => 0) (.took 3) true true, .readSelect (.got 2) .wouldBlock,
    .writeSelect (.took 3) true, .readSelect (.got 4) (.got 1), .readSelect .wouldBlock .wouldBlock,
    .readSelect .wouldBlock (.got 1)]

theorem fiveInParts_delivered :
    (run some 100 (connected false) fiveInParts : Link ZeroReal (List Byte)).reader.calls = [[53]] ∧
      (run some 100 (connected false) fiveInParts : Link ZeroReal (List Byte)).Delivers some := by
  refine ⟨by decide, values_delivered some 100 (by norm_num) false fiveInParts ?_ ?_⟩
  · intro e he
    simp only [fiveInParts, mem_cons, not_mem_nil, or_false] at he
    obtain rfl | rfl | rfl | rfl | rfl | rfl := he
    · intro size hsize
      have htwo : svalueSaveSize 0 (.number 5 : Svalue ZeroReal) = some 2 := by decide
      cases htwo.symm.trans hsize
      norm_num
    all_goals exact trivial
  · exact ⟨fun _ => ⟨by decide, by decide, .inl rfl⟩, trivial, trivial, trivial, trivial, trivial, trivial⟩

/-- `({ "abcdefghij", -9223372036854775808 })` -/
def leastBehindTen : Svalue ZeroReal :=
  .array [.string [97, 98, 99, 100, 101, 102, 103, 104, 105, 106], .number Int64.minValue]

/-- **A header is overwritten.** The sign and the first two digits of the least integer go over the last three bytes of
the size. The value is accepted and sent at once; the reader finds a size beyond every limit here and closes. -/
theorem header_overwritten :
    let s : Link ZeroReal (List Byte) := run some 200000 (connected false)
      [.write leastBehindTen (fun _ => 0) (fun _ => 0) (.took 25) true true, .readSelect (.got 4) (.got 21)]
    svalueSaveSize 0 leastBehindTen = some 21 ∧ s.accepted.length = 1 ∧ s.writer.sent.length = 25 ∧
      s.reader.state = .closed ∧ s.reader.calls = [] := by
  decide

end Lithos.Socket.MudFrame
