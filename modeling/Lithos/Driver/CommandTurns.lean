/-
Command turns: the part of `driver_loop` in `stem.cpp` that lets every connected user give one command a cycle, with
`get_user_command` and the command buffer of `command.c` below it.

At the start of a cycle every user in `all_users` gets HAS_CMD_TURN. Input is then read, which may connect users,
disconnect them and fill their buffers. Last, `process_user_command` is called until it finds no command, at most once
more than there were users. A call looks for a user with a complete command and a turn from `s_next_user` backwards
through `all_users`, takes the turn and the command away and runs the command. What reading input and running a command
do is left open (`Env`); neither hands out turns.

Results:
* `turns_fair`: in a cycle no user has more than one command run, and a user who was there when the turns were handed
  out, stays, and has a complete command whenever a command is looked for has exactly one.
-/
import Mathlib.Data.List.ReduceOption
import Lithos.Lpc.Types

namespace Lithos.Driver.CommandTurns

open Lithos.Lpc List

/-! ## The command buffer -/

/-- `MAX_TEXT` -/
def maxText : ℕ := 2048

/-- the bytes of `text` from `text_start` to `text_end`; what reads input leaves room for a NUL behind them -/
structure Buffer where
  text : List Byte
  fits : text.length < maxText

/-- `text_start = text_end = 0` -/
def Buffer.clear : Buffer := ⟨[], by decide⟩

/-- `text_start` moved over the first `n` bytes -/
def Buffer.drop (b : Buffer) (n : ℕ) : Buffer :=
  ⟨b.text.drop n, lt_of_le_of_lt (by simp) b.fits⟩

/-- the text without the NULs at its start, which end empty lines -/
def skipNulls (text : List Byte) : List Byte :=
  text.dropWhile (· == 0)

theorem length_skipNulls_le (text : List Byte) : (skipNulls text).length ≤ text.length :=
  (dropWhile_sublist _).length_le

/-- `text_start` moved over the NULs -/
def Buffer.skipNulls (b : Buffer) : Buffer :=
  ⟨CommandTurns.skipNulls b.text, lt_of_le_of_lt (length_skipNulls_le _) b.fits⟩

/-- a line without end that fills the buffer, cut and ended by a NUL -/
def Buffer.truncate (b : Buffer) : Buffer :=
  ⟨b.text.take (b.text.length - 2) ++ [0], by
    have := b.fits
    simp only [maxText, length_append, length_take, length_singleton] at this ⊢
    omega⟩

/-- a digit or `;`: the parameters of a CSI sequence -/
def isParameter (c : Byte) : Bool :=
  (48 ≤ c.toNat && c.toNat ≤ 57) || c == 59

/-- `single_char_token_len`: how many bytes the next key of a user in single character mode has, zero if more bytes
have to come -/
def singleCharTokenLen (text : List Byte) : ℕ :=
  match text with
  | [] => 0
  | c :: rest =>
    if c ≠ 0x1b then 1
    else
      match rest with
      | [] => 0
      | d :: more =>
        if d = 91 then
          -- ESC [ parameters command
          let i := 2 + (more.takeWhile isParameter).length
          if text.length ≤ i then 0 else i + 1
        else if d = 78 ∨ d = 79 then
          if text.length < 3 then 0 else 3
        else 2

/-- `cmd_in_buf` -/
def cmdInBuf (singleChar : Bool) (b : Buffer) : Bool :=
  if skipNulls b.text = [] then false
  else if singleChar then decide (0 < singleCharTokenLen b.text)
  else (skipNulls b.text).contains 0

/-- `first_cmd_in_buf`: the buffer with `text_start` at the next command, and whether there is one -/
def firstCmdInBuf (singleChar : Bool) (b : Buffer) : Buffer × Bool :=
  let b := b.skipNulls
  if b.text = [] then (.clear, false)
  else if singleChar then (b, decide (0 < singleCharTokenLen b.text))
  else if b.text.contains 0 then (b, true)
  else if maxText - 2 < b.text.length then (b.truncate, true)
  else (b, false)

/-- `next_cmd_in_buf`: past the line at the start and the NULs behind it -/
def nextCmdInBuf (b : Buffer) : Buffer :=
  let rest := skipNulls (b.text.dropWhile (· != 0))
  ⟨rest, lt_of_le_of_lt ((length_skipNulls_le _).trans (dropWhile_sublist _).length_le) b.fits⟩

/-- `telnet_neg`: backspace and delete take the character before them away -/
def telnetNeg (line : List Byte) : List Byte :=
  line.foldl (fun out c => if c = 8 ∨ c = 0x7f then out.dropLast else out ++ [c]) []

/-! ## Users -/

/-- the fields of an `interactive_t` that the turns depend on -/
structure User where
  /-- HAS_CMD_TURN -/
  hasCmdTurn : Bool
  /-- CMD_IN_BUF -/
  cmdFlag : Bool
  /-- SINGLE_CHAR -/
  singleChar : Bool
  /-- NOECHO -/
  noEcho : Bool
  /-- `message_length` is not zero -/
  hasMessage : Bool
  buffer : Buffer

/-- `cmd_in_buf (ip)` -/
def User.cmdInBuf (u : User) : Bool :=
  CommandTurns.cmdInBuf u.singleChar u.buffer

/-- what the loop of `get_user_command` does with a user: the user after it, and whether the loop ends here because
the user has a command and a turn to take -/
def User.examine (u : User) : User × Bool :=
  let u := { u with cmdFlag := u.cmdInBuf }
  if u.cmdFlag then
    let found := firstCmdInBuf u.singleChar u.buffer
    let u := { u with buffer := found.1 }
    if found.2 then
      if u.hasCmdTurn then ({ u with hasCmdTurn := false }, true) else (u, false)
    else ({ u with cmdFlag := u.cmdInBuf }, false)
  else (u, false)

/-- the second half of `get_user_command`: the command at the start of the buffer is copied and taken from it -/
def User.takeCommand (u : User) : User × Option (List Byte) :=
  if u.singleChar then
    let tokenLen := singleCharTokenLen u.buffer.text
    if tokenLen = 0 ∨ maxText ≤ tokenLen then ({ u with cmdFlag := u.cmdFlag && u.cmdInBuf }, none)
    else
      let v := { u with buffer := u.buffer.drop tokenLen }
      ({ v with cmdFlag := v.cmdFlag && v.cmdInBuf, noEcho := false }, some (u.buffer.text.take tokenLen))
  else
    let v := { u with buffer := nextCmdInBuf u.buffer }
    ({ v with cmdFlag := v.cmdFlag && v.cmdInBuf, noEcho := false },
      some (telnetNeg (u.buffer.text.takeWhile (· != 0))))

/-! ## The users of the driver -/

/-- `all_users` with its `max_users` slots, the users by a name of their connection, and `s_next_user` -/
structure World where
  allUsers : List (Option ℕ)
  user : ℕ → User
  nextUser : ℕ
  nextUser_lt : allUsers ≠ [] → nextUser < allUsers.length

open World

namespace World

/-- `max_users` -/
def maxUsers (w : World) : ℕ := w.allUsers.length

/-- the connected users, slot by slot -/
def connected (w : World) : List ℕ := w.allUsers.reduceOption

/-- the user `p` changed -/
def setUser (w : World) (p : ℕ) (u : User) : World :=
  { w with user := Function.update w.user p u }

/-- the user `p` gone from `all_users` -/
def remove (w : World) (p : ℕ) : World where
  allUsers := w.allUsers.map fun slot => if slot = some p then none else slot
  user := w.user
  nextUser := w.nextUser
  nextUser_lt := by simpa using w.nextUser_lt

/-- one slot down, from the first to the last -/
def stepBack (n s : ℕ) : ℕ := if s = 0 then n - 1 else s - 1

/-- `if (s_next_user-- == 0) s_next_user = max_users - 1` -/
def back (w : World) : World where
  allUsers := w.allUsers
  user := w.user
  nextUser := stepBack w.maxUsers w.nextUser
  nextUser_lt := by
    intro hne
    have hlt := w.nextUser_lt hne
    simp only [stepBack, maxUsers]
    split_ifs <;> omega

/-- `s_next_user = (s_next_user - 1 + max_users) % max_users` -/
def backMod (w : World) : World where
  allUsers := w.allUsers
  user := w.user
  nextUser := (w.nextUser + w.maxUsers - 1) % w.maxUsers
  nextUser_lt := fun hne => Nat.mod_lt _ (length_pos_iff.2 hne)

end World

/-! ## Finding a command -/

/-- `flush_message` for a user with messages: the user is gone, or still has messages or not -/
abbrev Flush := User → Option Bool

/-- the user `p` in the slot `s_next_user`: messages are sent, then the buffer is looked at -/
def visitUser (flush : Flush) (w : World) (p : ℕ) : World × Option ℕ :=
  let look (u : User) : World × Option ℕ :=
    match u.examine with
    | (u, true) => (w.setUser p u, some p)
    | (u, false) => (w.setUser p u, none)
  if (w.user p).hasMessage then
    match flush (w.user p) with
    | none => (w.remove p, none)
    | some more => look { w.user p with hasMessage := more }
  else look (w.user p)

/-- one turn of the loop of `get_user_command`, without the step to the next slot -/
def visit (flush : Flush) (w : World) : World × Option ℕ :=
  match w.allUsers[w.nextUser]? with
  | some (some p) => visitUser flush w p
  | _ => (w, none)

/-- the loop of `get_user_command` -/
def scan (flush : Flush) : ℕ → World → World × Option ℕ
  | 0, w => (w, none)
  | n + 1, w =>
    match visit flush w with
    | (w, some p) => (w, some p)
    | (w, none) => scan flush n w.back

/-- `get_user_command`: the user and the command -/
def getUserCommand (flush : Flush) (w : World) : World × Option (ℕ × List Byte) :=
  match scan flush w.maxUsers w with
  | (w, none) => (w, none)
  | (w, some p) =>
    match (w.user p).takeCommand with
    | (u, none) => (w.setUser p u, none)
    | (u, some command) => ((w.setUser p u).backMod, some (p, command))

/-! ## A cycle -/

/-- what anything outside of this file may do to the users: connections come and go, buffers and flags change, but a
turn is neither given nor taken -/
structure Allowed (w w' : World) : Prop where
  kept : ∀ p ∈ w.connected, p ∈ w'.connected → (w'.user p).hasCmdTurn = (w.user p).hasCmdTurn
  fresh : ∀ p ∉ w.connected, p ∈ w'.connected → (w'.user p).hasCmdTurn = false

/-- the rest of the driver: sending messages, `do_comm_polling` with `process_io`, and the `i`-th command of the cycle,
which is run to its end -/
structure Env where
  flush : Flush
  processIo : World → World
  processIo_allowed : ∀ w, Allowed w (processIo w)
  run : ℕ → ℕ → List Byte → World → World
  run_allowed : ∀ i p command w, Allowed w (run i p command w)

/-- the turns are handed out -/
def grantTurns (w : World) : World :=
  { w with user := fun p =>
      if p ∈ w.connected then { w.user p with hasCmdTurn := true, cmdFlag := (w.user p).cmdInBuf } else w.user p }

/-- a call of `process_user_command`: the world before it, the world when a command has been looked for, and the user
whose command is run -/
structure Call where
  before : World
  searched : World
  served : Option ℕ

/-- `for (i = 0; process_user_command () && i < connected_users; i++);` from the turn `i` of the loop on, with
`left = connected_users - i` -/
def consumeTurns (env : Env) : ℕ → ℕ → World → World × List Call
  | left, i, w =>
    match getUserCommand env.flush w with
    | (w₁, none) => (w₁, [⟨w, w₁, none⟩])
    | (w₁, some (p, command)) =>
      let w₂ := env.run i p command w₁
      match left with
      | 0 => (w₂, [⟨w, w₁, some p⟩])
      | left + 1 =>
        let rest := consumeTurns env left (i + 1) w₂
        (rest.1, ⟨w, w₁, some p⟩ :: rest.2)

/-- the cycle of `driver_loop`, as far as turns go -/
def cycle (env : Env) (w : World) : World × List Call :=
  let w₁ := grantTurns w
  consumeTurns env w.connected.length 0 (env.processIo w₁)

/-- the users whose commands were run -/
def served (calls : List Call) : List ℕ :=
  calls.filterMap Call.served

/-- a user has a complete command: behind the NULs of empty lines there is a whole key in single character mode, and
the end of a line else -/
def Complete (u : User) : Prop :=
  if u.singleChar then 0 < singleCharTokenLen (skipNulls u.buffer.text) else 0 ∈ skipNulls u.buffer.text

instance (u : User) : Decidable (Complete u) :=
  inferInstanceAs (Decidable (if u.singleChar then 0 < singleCharTokenLen (skipNulls u.buffer.text)
    else 0 ∈ skipNulls u.buffer.text))

/-! ## The buffer functions -/

theorem singleCharTokenLen_le (text : List Byte) : singleCharTokenLen text ≤ text.length := by
  match text with
  | [] => simp [singleCharTokenLen]
  | [c] =>
    simp only [singleCharTokenLen, length_singleton]
    split_ifs <;> omega
  | c :: d :: more =>
    simp only [singleCharTokenLen, length_cons]
    split_ifs <;> omega

theorem skipNulls_eq_self {c : Byte} {rest : List Byte} (hc : c ≠ 0) : skipNulls (c :: rest) = c :: rest := by
  simp [skipNulls, hc]

/-- the look at the start of the buffer before the NULs are skipped does no harm: a NUL is a key -/
theorem singleCharTokenLen_pos_of_skipNulls {text : List Byte} (h : 0 < singleCharTokenLen (skipNulls text)) :
    0 < singleCharTokenLen text := by
  cases text with
  | nil => simpa [skipNulls] using h
  | cons c rest =>
    by_cases hc : c = 0
    · subst hc
      simp [singleCharTokenLen]
    · rwa [skipNulls_eq_self hc] at h

variable {u : User}

theorem Complete.ne_nil (h : Complete u) : skipNulls u.buffer.text ≠ [] := by
  intro hnil
  simp [Complete, hnil, singleCharTokenLen] at h

theorem Complete.cmdInBuf (h : Complete u) : u.cmdInBuf = true := by
  have hne := h.ne_nil
  simp only [Complete] at h
  simp only [User.cmdInBuf, CommandTurns.cmdInBuf, if_neg hne]
  split_ifs at h ⊢ with hs
  · simpa using singleCharTokenLen_pos_of_skipNulls h
  · simpa using h

theorem Complete.firstCmdInBuf (h : Complete u) : (firstCmdInBuf u.singleChar u.buffer).2 = true := by
  have hne := h.ne_nil
  cases hs : u.singleChar with
  | true =>
    have hpos : 0 < singleCharTokenLen (skipNulls u.buffer.text) := by simpa [Complete, hs] using h
    simp [CommandTurns.firstCmdInBuf, Buffer.skipNulls, hne, hpos]
  | false =>
    have hmem : 0 ∈ skipNulls u.buffer.text := by simpa [Complete, hs] using h
    simp [CommandTurns.firstCmdInBuf, Buffer.skipNulls, hne, hmem]

/-- a command that is found in single character mode is a whole key -/
theorem firstCmdInBuf_single {b : Buffer} (h : (firstCmdInBuf true b).2 = true) :
    0 < singleCharTokenLen (firstCmdInBuf true b).1.text := by
  simp only [firstCmdInBuf] at h ⊢
  split_ifs at h ⊢ with hnil
  simpa using h

/-! ## Users -/

/-- a user with a complete command and a turn is chosen -/
theorem examine_of_complete (hturn : u.hasCmdTurn = true) (h : Complete u) : u.examine.2 = true := by
  have hcmd : cmdInBuf u.singleChar u.buffer = true := h.cmdInBuf
  simp only [User.examine, User.cmdInBuf, hcmd, if_true, h.firstCmdInBuf, hturn]

/-- a look at a user takes the turn exactly if the user is chosen -/
theorem examine_hasCmdTurn (u : User) :
    u.examine.1.hasCmdTurn = (u.hasCmdTurn && !u.examine.2) ∧ (u.examine.2 = true → u.hasCmdTurn = true) := by
  simp only [User.examine]
  split_ifs with h1 h2 h3 <;> simp_all

/-- the buffer of a chosen user in single character mode starts with a whole key -/
theorem examine_single (h : u.examine.2 = true) (hs : u.examine.1.singleChar = true) :
    0 < singleCharTokenLen u.examine.1.buffer.text := by
  simp only [User.examine] at h hs ⊢
  split_ifs at h hs ⊢ with hcmd hfound hturn
  rw [hs] at hfound ⊢
  exact firstCmdInBuf_single hfound

theorem takeCommand_hasCmdTurn (u : User) : u.takeCommand.1.hasCmdTurn = u.hasCmdTurn := by
  simp only [User.takeCommand]
  split_ifs <;> rfl

/-- a command at the start of the buffer can be read -/
theorem takeCommand_eq (h : u.singleChar = true → 0 < singleCharTokenLen u.buffer.text) :
    ∃ v command, u.takeCommand = (v, some command) := by
  have hlt := lt_of_le_of_lt (singleCharTokenLen_le u.buffer.text) u.buffer.fits
  simp only [User.takeCommand]
  split_ifs with hs hbad
  · have := h hs
    omega
  all_goals exact ⟨_, _, rfl⟩

/-! ## What a search for a command does -/

variable {w : World} {p : ℕ}

theorem mem_connected : p ∈ w.connected ↔ some p ∈ w.allUsers := by
  simp [connected, reduceOption_mem_iff]

theorem mem_connected_remove {q : ℕ} : q ∈ (w.remove p).connected ↔ q ≠ p ∧ q ∈ w.connected := by
  simp only [mem_connected, remove, mem_map]
  constructor
  · rintro ⟨slot, hslot, heq⟩
    split_ifs at heq with hp
    subst heq
    exact ⟨fun h => hp (by rw [h]), hslot⟩
  · rintro ⟨hne, hq⟩
    exact ⟨some q, hq, if_neg (by simpa using hne)⟩

/-- from `w` to `w'` a command was looked for: nobody was connected, and a turn was taken from the chosen user alone,
who had one -/
structure Looked (w w' : World) (found : Option ℕ) : Prop where
  connected : ∀ p ∈ w'.connected, p ∈ w.connected
  turn : ∀ p, (w'.user p).hasCmdTurn = ((w.user p).hasCmdTurn && decide (found ≠ some p))
  chosen : ∀ p, found = some p → p ∈ w.connected ∧ (w.user p).hasCmdTurn = true

variable {w' : World} {w'' : World} {found : Option ℕ} {s n : ℕ} {flush : Flush}

/-- no turn was taken -/
theorem Looked.of_turns (hconnected : ∀ p ∈ w'.connected, p ∈ w.connected)
    (hturn : ∀ p, (w'.user p).hasCmdTurn = (w.user p).hasCmdTurn) : Looked w w' none :=
  ⟨hconnected, fun p => by simp [hturn p], nofun⟩

theorem Looked.refl (w : World) : Looked w w none := .of_turns (fun _ h => h) fun _ => rfl

theorem Looked.trans (h : Looked w w' none) (h' : Looked w' w'' found) : Looked w w'' found where
  connected p hp := h.connected p (h'.connected p hp)
  turn p := by
    rw [h'.turn p, h.turn p]
    simp
  chosen p hp := by
    obtain ⟨hmem, hturn⟩ := h'.chosen p hp
    rw [h.turn p] at hturn
    exact ⟨h.connected p hmem, by simpa using hturn⟩

theorem Looked.trans_none (h : Looked w w' found) (h' : Looked w' w'' none) : Looked w w'' found where
  connected p hp := h.connected p (h'.connected p hp)
  turn p := by
    rw [h'.turn p, h.turn p]
    simp
  chosen := h.chosen

/-- the user `p`, perhaps with fewer messages, is looked at -/
theorem looked_examine (hp : p ∈ w.connected) (hu : u.hasCmdTurn = (w.user p).hasCmdTurn) :
    Looked w (w.setUser p u.examine.1) (if u.examine.2 then some p else none) := by
  obtain ⟨hturn, hhad⟩ := examine_hasCmdTurn u
  refine ⟨fun q hq => hq, fun q => ?_, fun q hq => ?_⟩
  · by_cases hq : q = p
    · subst hq
      cases h : u.examine.2 <;> simp [setUser, hturn, h, hu]
    · have hne : (if u.examine.2 then some p else none) ≠ some q := by
        split_ifs <;> simp [Ne.symm hq]
      simp [setUser, hq, hne]
  · split_ifs at hq with h
    cases hq
    exact ⟨hp, hu ▸ hhad h⟩

/-- a user who is visited is gone, or is looked at -/
theorem visitUser_eq (flush : Flush) (w : World) (p : ℕ) : visitUser flush w p = (w.remove p, none) ∨
      ∃ u : User, u.hasCmdTurn = (w.user p).hasCmdTurn ∧ (Complete (w.user p) → Complete u) ∧
        visitUser flush w p = (w.setUser p u.examine.1, if u.examine.2 then some p else none) := by
  have hlook (u : User) :
      (match u.examine with
        | (v, true) => (w.setUser p v, some p)
        | (v, false) => (w.setUser p v, none)) =
      (w.setUser p u.examine.1, if u.examine.2 then some p else none) := by
    rcases h : u.examine with ⟨v, _ | _⟩ <;> simp
  simp only [visitUser, hlook]
  by_cases hmessage : (w.user p).hasMessage = true
  · rw [if_pos hmessage]
    cases hflush : flush (w.user p) with
    | none => exact .inl rfl
    | some more => exact .inr ⟨{ w.user p with hasMessage := more }, rfl, id, rfl⟩
  · rw [if_neg hmessage]
    exact .inr ⟨w.user p, rfl, id, rfl⟩

theorem looked_visit (flush : Flush) (w : World) : Looked w (visit flush w).1 (visit flush w).2 := by
  rw [visit]
  split
  · next p hslot =>
    have hp : p ∈ w.connected := mem_connected.2 (mem_of_getElem? hslot)
    rcases visitUser_eq flush w p with heq | ⟨u, hturn, -, heq⟩
    · rw [heq]
      exact .of_turns (fun _ h => (mem_connected_remove.1 h).2) fun _ => rfl
    · rw [heq]
      exact looked_examine hp hturn
  · exact Looked.refl w

theorem looked_scan (flush : Flush) (n : ℕ) (w : World) : Looked w (scan flush n w).1 (scan flush n w).2 := by
  induction n generalizing w with
  | zero => exact Looked.refl w
  | succ n ih =>
    have hvisit := looked_visit flush w
    rw [scan]
    rcases hv : visit flush w with ⟨w', _ | p⟩
    · rw [hv] at hvisit
      have hback : Looked w' w'.back none := .of_turns (fun _ h => h) fun _ => rfl
      exact (hvisit.trans hback).trans (ih w'.back)
    · rw [hv] at hvisit
      exact hvisit

/-! ## Whom a search finds -/

/-- how many slots `s` is below `s_next_user`, around the end of `all_users` -/
def World.distance (w : World) (s : ℕ) : ℕ :=
  if s ≤ w.nextUser then w.nextUser - s else w.nextUser + w.maxUsers - s

theorem distance_back (hs : s < w.maxUsers) (hne : w.nextUser ≠ s) : w.back.distance s + 1 = w.distance s := by
  simp only [distance, back, maxUsers, stepBack] at *
  split_ifs <;> omega

theorem distance_lt (hs : s < w.maxUsers) : w.distance s < w.maxUsers := by
  have hlt := w.nextUser_lt (ne_nil_of_length_pos (Nat.zero_lt_of_lt hs))
  simp only [distance, maxUsers] at *
  split_ifs <;> omega

/-- the user `p` waits in slot `s`: there is a turn, and a complete command -/
structure Waits (w : World) (s p : ℕ) : Prop where
  slot : w.allUsers[s]? = some (some p)
  turn : (w.user p).hasCmdTurn = true
  complete : Complete (w.user p)

/-- a visit to someone else, or to an empty slot, leaves a waiting user alone -/
theorem Waits.visit (h : Waits w s p) (flush : Flush)
    (hne : w.allUsers[w.nextUser]? ≠ some (some p)) : Waits (visit flush w).1 s p := by
  rw [CommandTurns.visit]
  split
  · next q hslot =>
    have hq : p ≠ q := fun heq => hne (heq ▸ hslot)
    rcases visitUser_eq flush w q with heq | ⟨u, -, -, heq⟩
    · rw [heq]
      exact ⟨by simp [remove, h.slot, hq], h.turn, h.complete⟩
    · rw [heq]
      exact ⟨h.slot, by simpa [setUser, hq] using h.turn, by simpa [setUser, hq] using h.complete⟩
  · exact h

/-- a visit to a waiting user who stays chooses this user -/
theorem visit_of_waits (h : Waits w w.nextUser p) (flush : Flush)
    (hstays : p ∈ (visit flush w).1.connected) : (visit flush w).2 = some p := by
  have heq : visit flush w = visitUser flush w p := by
    simp only [visit, h.slot]
  rw [heq] at hstays ⊢
  rcases visitUser_eq flush w p with hv | ⟨u, hturn, hcomplete, hv⟩
  · rw [hv] at hstays
    exact absurd rfl (mem_connected_remove.1 hstays).1
  · rw [hv]
    simp [examine_of_complete (hturn.trans h.turn) (hcomplete h.complete)]

/-- a visit leaves the slots and `s_next_user` where they are -/
theorem visit_keeps (flush : Flush) (w : World) :
    (visit flush w).1.maxUsers = w.maxUsers ∧ (visit flush w).1.nextUser = w.nextUser := by
  rw [visit]
  split
  · next p _ =>
    rcases visitUser_eq flush w p with heq | ⟨u, -, -, heq⟩
    · simp [heq, remove, maxUsers]
    · simp [heq, setUser, maxUsers]
  · exact ⟨rfl, rfl⟩

/-- a search that is long enough to come to the slot of a waiting user, who stays, ends with a command -/
theorem scan_finds (h : Waits w s p) (hs : s < w.maxUsers) (hn : w.distance s < n)
    (hstays : p ∈ (scan flush n w).1.connected) : (scan flush n w).2 ≠ none := by
  -- one visit after the other, the slot comes nearer
  induction n generalizing w with
  | zero => omega
  | succ n ih =>
    rw [scan] at hstays ⊢
    rcases hv : visit flush w with ⟨w', _ | q⟩
    · simp only [hv] at hstays ⊢
      have hp : p ∈ w'.connected := (looked_scan flush n w'.back).connected p hstays
      have hother : w.allUsers[w.nextUser]? ≠ some (some p) := by
        intro hslot
        have hchosen := visit_of_waits ⟨hslot, h.turn, h.complete⟩ flush (by rwa [hv])
        simp [hv] at hchosen
      have hwaits := h.visit flush hother
      obtain ⟨hmax, hnext⟩ := visit_keeps flush w
      rw [hv] at hwaits hmax hnext
      dsimp only at hmax hnext
      have hdist : w'.distance s = w.distance s := by rw [distance, distance, hmax, hnext]
      have hback := distance_back (hmax ▸ hs) (hnext ▸ fun heq => hother (heq ▸ h.slot))
      exact ih ⟨hwaits.slot, hwaits.turn, hwaits.complete⟩ (hmax ▸ hs) (by omega) hstays
    · simp

/-- the command of the user whom a search has chosen can be read -/
theorem scan_readable (h : scan flush n w = (w', some p)) :
    ∃ u command, (w'.user p).takeCommand = (u, some command) := by
  induction n generalizing w with
  | zero => simp [scan] at h
  | succ n ih =>
    rw [scan] at h
    rcases hv : visit flush w with ⟨w₁, _ | q⟩
    · rw [hv] at h
      exact ih h
    · rw [hv] at h
      cases h
      rw [visit] at hv
      split at hv
      · next q hslot =>
        rcases visitUser_eq flush w q with heq | ⟨u, -, -, heq⟩
        · rw [heq] at hv
          cases hv
        · rw [heq, Prod.mk.injEq] at hv
          obtain ⟨rfl, hchosen⟩ := hv
          split_ifs at hchosen with hex
          cases hchosen
          apply takeCommand_eq
          simpa [setUser] using examine_single hex
      · cases hv

/-- `get_user_command` returns the command of the user whom the search has chosen -/
theorem getUserCommand_chosen (flush : Flush) (w : World) :
    (getUserCommand flush w).2.map Prod.fst = (scan flush w.maxUsers w).2 := by
  rw [getUserCommand]
  rcases hscan : scan flush w.maxUsers w with ⟨w', _ | p⟩
  · rfl
  · obtain ⟨u, command, htake⟩ := scan_readable hscan
    simp [htake]

theorem getUserCommand_connected (flush : Flush) (w : World) :
    (getUserCommand flush w).1.connected = (scan flush w.maxUsers w).1.connected := by
  rw [getUserCommand]
  rcases scan flush w.maxUsers w with ⟨w', _ | p⟩
  · rfl
  · dsimp only
    split <;> rfl

theorem looked_getUserCommand (flush : Flush) (w : World) :
    Looked w (getUserCommand flush w).1 ((getUserCommand flush w).2.map Prod.fst) := by
  have hlooked := looked_scan flush w.maxUsers w
  rw [getUserCommand]
  rcases hscan : scan flush w.maxUsers w with ⟨w', _ | p⟩
  · rwa [hscan] at hlooked
  · rw [hscan] at hlooked
    obtain ⟨u, command, htake⟩ := scan_readable hscan
    have hturn := takeCommand_hasCmdTurn (w'.user p)
    rw [htake] at hturn
    simp only [htake]
    refine hlooked.trans_none (.of_turns (fun _ h => h) fun q => ?_)
    by_cases hq : q = p
    · subst hq
      simpa [setUser, backMod] using hturn
    · simp [setUser, backMod, hq]

/-- a user who waits and stays makes `get_user_command` return a command -/
theorem getUserCommand_finds (flush : Flush) (hp : p ∈ w.connected)
    (hturn : (w.user p).hasCmdTurn = true) (hcomplete : Complete (w.user p))
    (hstays : p ∈ (getUserCommand flush w).1.connected) : (getUserCommand flush w).2 ≠ none := by
  obtain ⟨s, hslot⟩ := List.mem_iff_getElem?.1 (mem_connected.1 hp)
  have hs : s < w.maxUsers := (List.getElem?_eq_some_iff.1 hslot).1
  rw [getUserCommand_connected] at hstays
  have hfound := scan_finds ⟨hslot, hturn, hcomplete⟩ hs (distance_lt hs) hstays
  intro hnone
  rw [← getUserCommand_chosen, hnone] at hfound
  exact hfound rfl

/-! ## Fairness -/

/-- the connected users who hold a turn -/
def holders (w : World) : Finset ℕ :=
  w.connected.toFinset.filter fun p => (w.user p).hasCmdTurn = true

theorem mem_holders : p ∈ holders w ↔ p ∈ w.connected ∧ (w.user p).hasCmdTurn = true := by
  simp [holders]

/-- there are no more turns than users counted when they are handed out -/
theorem card_holders_grantTurns (w : World) : (holders (grantTurns w)).card ≤ w.connected.length :=
  calc (holders (grantTurns w)).card
      ≤ (grantTurns w).connected.toFinset.card := Finset.card_filter_le _ _
    _ ≤ (grantTurns w).connected.length := toFinset_card_le _
    _ = w.connected.length := rfl

theorem Allowed.holders_subset (h : Allowed w w') : holders w' ⊆ holders w := by
  intro p hp
  obtain ⟨hmem, hturn⟩ := mem_holders.1 hp
  by_cases hw : p ∈ w.connected
  · exact mem_holders.2 ⟨hw, h.kept p hw hmem ▸ hturn⟩
  · rw [h.fresh p hw hmem] at hturn
    cases hturn

theorem Looked.holders_subset (h : Looked w w' found) : holders w' ⊆ holders w := by
  intro p hp
  obtain ⟨hmem, hturn⟩ := mem_holders.1 hp
  rw [h.turn p, Bool.and_eq_true] at hturn
  exact mem_holders.2 ⟨h.connected p hmem, hturn.1⟩

/-- the user who is served gives a turn back -/
theorem Looked.holders_chosen (h : Looked w w' (some p)) : p ∈ holders w ∧ p ∉ holders w' := by
  refine ⟨mem_holders.2 (h.chosen p rfl), fun hp => ?_⟩
  have hturn := (mem_holders.1 hp).2
  simp [h.turn p] at hturn

/-- every user served held a turn, and is served once -/
theorem consumeTurns_served (env : Env) (left i : ℕ) (w : World) :
    (served (consumeTurns env left i w).2).Nodup ∧ ∀ p ∈ served (consumeTurns env left i w).2, p ∈ holders w := by
  fun_induction consumeTurns env left i w with
  | case1 => simp [served]
  | case2 i w w₁ p command hget =>
    have hlooked := looked_getUserCommand env.flush w
    rw [hget] at hlooked
    simpa [served] using hlooked.holders_chosen.1
  | case3 i w w₁ p command hget w₂ left rest ih =>
    have hlooked := looked_getUserCommand env.flush w
    rw [hget] at hlooked
    obtain ⟨hp, hgone⟩ := hlooked.holders_chosen
    obtain ⟨hnodup, hheld⟩ := ih
    have hsub := (env.run_allowed i p command w₁).holders_subset
    exact ⟨nodup_cons.2 ⟨fun hagain => hgone (hsub (hheld p hagain)), hnodup⟩,
      forall_mem_cons.2 ⟨hp, fun q hq => hlooked.holders_subset (hsub (hheld q hq))⟩⟩

/-- the user `p` is there for the whole of a call, with a complete command as long as there is a turn for it -/
@[mk_iff] structure Present (p : ℕ) (c : Call) : Prop where
  before : p ∈ c.before.connected
  searched : p ∈ c.searched.connected
  complete : (c.before.user p).hasCmdTurn = true → Complete (c.before.user p)

instance (p : ℕ) (c : Call) : Decidable (Present p c) :=
  decidable_of_iff' _ (present_iff p c)

/-- the first call starts in `w` -/
theorem consumeTurns_head (env : Env) (left i : ℕ) (w : World) :
    ∃ searched who, ⟨w, searched, who⟩ ∈ (consumeTurns env left i w).2 := by
  rcases hget : getUserCommand env.flush w with ⟨w₁, _ | ⟨p, command⟩⟩
  · exact ⟨w₁, none, by rw [consumeTurns.eq_def]; simp [hget]⟩
  · exact ⟨w₁, some p, by rw [consumeTurns.eq_def]; cases left <;> simp [hget]⟩

/-- as long as there are no more turns than calls left, a user who holds one and stays is served -/
theorem consumeTurns_serves {env : Env} {left i : ℕ} (hp : p ∈ holders w)
    (hcard : (holders w).card ≤ left) (hpresent : ∀ c ∈ (consumeTurns env left i w).2, Present p c) :
    p ∈ served (consumeTurns env left i w).2 := by
  induction left generalizing i w with
  | zero =>
    rw [Nat.le_zero, Finset.card_eq_zero] at hcard
    simp [hcard] at hp
  | succ left ih =>
    have hlooked := looked_getUserCommand env.flush w
    have hfinds := getUserCommand_finds env.flush (mem_holders.1 hp).1 (mem_holders.1 hp).2
    rw [consumeTurns] at hpresent ⊢
    rcases hget : getUserCommand env.flush w with ⟨w₁, _ | ⟨q, command⟩⟩
    · rw [hget] at hpresent hfinds
      have hcall := hpresent ⟨w, w₁, none⟩ (by simp)
      exact absurd rfl (hfinds (hcall.complete (mem_holders.1 hp).2) hcall.searched)
    · simp only [hget] at hpresent hlooked ⊢
      simp only [served, filterMap_cons]
      by_cases hq : p = q
      · simp [hq]
      · -- one turn less for the calls that follow
        obtain ⟨hheld, hgone⟩ := hlooked.holders_chosen
        have hsub := (env.run_allowed i q command w₁).holders_subset
        have hless : (holders (env.run i q command w₁)).card ≤ left := by
          have hlt : (holders w₁).card < (holders w).card :=
            Finset.card_lt_card ⟨hlooked.holders_subset, fun hback => hgone (hback hheld)⟩
          have hle := Finset.card_le_card hsub
          omega
        have hcall := hpresent ⟨w, w₁, some q⟩ (by simp)
        have hrest := fun c hc => hpresent c (.tail _ hc)
        obtain ⟨searched, who, hhead⟩ := consumeTurns_head env left (i + 1) (env.run i q command w₁)
        have hnext := (hrest _ hhead).before
        have hturn : ((env.run i q command w₁).user p).hasCmdTurn = true := by
          rw [(env.run_allowed i q command w₁).kept p hcall.searched hnext, hlooked.turn p, (mem_holders.1 hp).2]
          simpa using fun h => hq h.symm
        exact .tail _ (ih (mem_holders.2 ⟨hnext, hturn⟩) hless hrest)

/-- **Command fairness.** In a cycle no user has more than one command run, and a user who was connected when the turns
were handed out, stays connected and has a complete command whenever one is looked for has exactly one. -/
theorem turns_fair (env : Env) (w : World) : (served (cycle env w).2).Nodup ∧
      ∀ p ∈ w.connected, (∀ c ∈ (cycle env w).2, Present p c) → (served (cycle env w).2).count p = 1 := by
  have hnodup := (consumeTurns_served env w.connected.length 0 (env.processIo (grantTurns w))).1
  refine ⟨hnodup, fun p hp hpresent => count_eq_one_of_mem hnodup ?_⟩
  have hio := env.processIo_allowed (grantTurns w)
  obtain ⟨searched, who, hhead⟩ := consumeTurns_head env w.connected.length 0 (env.processIo (grantTurns w))
  have hconnected := (hpresent _ hhead).before
  have hturn : ((env.processIo (grantTurns w)).user p).hasCmdTurn = true := by
    rw [hio.kept p hp hconnected]
    simp [grantTurns, hp]
  apply consumeTurns_serves (mem_holders.2 ⟨hconnected, hturn⟩) _ hpresent
  exact (Finset.card_le_card hio.holders_subset).trans (card_holders_grantTurns w)

/-! ## Two users -/

/-- a user of line mode with the given text -/
def typed (text : List Byte) (h : text.length < maxText) : User where
  hasCmdTurn := false
  cmdFlag := false
  singleChar := false
  noEcho := false
  hasMessage := true
  buffer := ⟨text, h⟩

/-- two users with two lines each -/
def twoUsers : World where
  allUsers := [some 3, none, some 5]
  user _ := typed [108, 0, 115, 0] (by decide)
  nextUser := 1
  nextUser_lt _ := by decide

/-- a driver in which nothing happens but the commands of the users -/
def quiet : Env where
  flush _ := some false
  processIo := id
  processIo_allowed _ := ⟨fun _ _ _ => rfl, fun _ h h' => absurd h' h⟩
  run _ _ _ := id
  run_allowed _ _ _ _ := ⟨fun _ _ _ => rfl, fun _ h h' => absurd h' h⟩

theorem twoUsers_fair : (served (cycle quiet twoUsers).2).count 3 = 1 ∧ (served (cycle quiet twoUsers).2).count 5 = 1 :=
  ⟨(turns_fair quiet twoUsers).2 3 (by decide +kernel) (by decide +kernel),
    (turns_fair quiet twoUsers).2 5 (by decide +kernel) (by decide +kernel)⟩

end Lithos.Driver.CommandTurns
