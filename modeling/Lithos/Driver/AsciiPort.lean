/-
Lines received on an ASCII port (`get_user_data` in `comm.c`).

A read puts its bytes at `text_start`, calls `process_input` with every line that a newline ends, and leaves what follows
the last newline in the buffer. The next read starts at `text_start` again and overwrites what was left. An error that
`process_input` raises leaves the loop with the rest of the read in the buffer; a `process_input` that destructs the
user's object frees the `interactive_t` under the loop:
* `run_iff`: every read delivers its own lines exactly when no call disturbs the loop before the last of them;
* `lines_iff`: the lines of the stream are delivered exactly when, besides, no read with a newline in it follows a read
  that left an unfinished line.
-/
import Lithos.Lpc.Types

namespace Lithos.Driver.AsciiPort

open List Option
open Lithos.Lpc (Byte)

/-! ## The buffer -/

/-- `MAX_TEXT` -/
def maxText : ℕ := 2048

def newline : Byte := 10

/-- the input side of an `interactive_t`: `text_start`, and the bytes of `text` from there to `text_end` -/
structure Input where
  textStart : ℕ
  text : List Byte

/-- a new connection -/
def Input.fresh : Input := ⟨0, []⟩

/-- `text_end` -/
def Input.textEnd (ip : Input) : ℕ := ip.textStart + ip.text.length

/-- `text_space`, the most that `recv` is asked for -/
def Input.textSpace (ip : Input) : ℕ := maxText - ip.textEnd - 1

/-- how a call of `process_input` ends -/
inductive Ending where
  | returns
  /-- an error leaves `get_user_data` -/
  | raises
  /-- the user's object is destructed, and `remove_interactive` frees the `interactive_t` -/
  | destructs
deriving DecidableEq

section Model

-- how a call ends, given the lines delivered so far with its own as the last
variable (process : List (List Byte) → Ending)

/-- the loop over the lines of a read, with what is left of it and the calls of `process_input`; `line` is what `memchr`
has passed since `p`, `before` are the lines delivered by then. The state is `none` when the loop reads an
`interactive_t` that has been freed. -/
def lineLoop (before : List (List Byte)) (start : ℕ) (line : List Byte) : List Byte → Option Input × List (List Byte)
  | [] => (some ⟨start, line⟩, [])
  | b :: rest =>
    if b = newline then
      match process (before ++ [line]) with
      | .returns =>
        if rest = [] then (some .fresh, [line])
        else
          let r := lineLoop (before ++ [line]) (start + line.length + 1) [] rest
          (r.1, line :: r.2)
      -- `text_start` is already behind the line
      | .raises => (some ⟨start + line.length + 1, rest⟩, [line])
      | .destructs => (none, [line])
    else lineLoop before start (line ++ [b]) rest

/-- the `PORT_ASCII` case of `get_user_data`: the copy goes to `text_start`, over the text of an unfinished line -/
def getUserData (before : List (List Byte)) (ip : Input) (buf : List Byte) : Option Input × List (List Byte) :=
  lineLoop process before ip.textStart [] buf

/-- reads that `recv` can return, with the state and the lines delivered; a result of zero bytes ends the connection -/
inductive Run : List (List Byte) → Input → List (List Byte) → Option Input → List (List Byte) → Prop
  | done (before ip) : Run before ip [] (some ip) []
  | read {before ip buf ip' out reads last rest} : buf ≠ [] → buf.length ≤ ip.textSpace →
      getUserData process before ip buf = (some ip', out) → Run (before ++ out) ip' reads last rest →
      Run before ip (buf :: reads) last (out ++ rest)
  | freed {before ip buf out} (reads) : buf ≠ [] → buf.length ≤ ip.textSpace →
      getUserData process before ip buf = (none, out) → Run before ip (buf :: reads) none out

end Model

/-! ## The lines of a stream -/

/-- the lines that a newline ends, behind the beginning `line` of the first -/
def lines (line : List Byte) : List Byte → List (List Byte)
  | [] => []
  | b :: s => if b = newline then line :: lines [] s else lines (line ++ [b]) s

/-- what follows the last newline -/
def unfinished (line : List Byte) : List Byte → List Byte
  | [] => line
  | b :: s => if b = newline then unfinished [] s else unfinished (line ++ [b]) s

theorem lines_append (line a b : List Byte) : lines line (a ++ b) = lines line a ++ lines (unfinished line a) b := by
  induction a generalizing line with
  | nil => rfl
  | cons x a ih =>
    by_cases hx : x = newline
    · simp only [cons_append, lines, unfinished, if_pos hx, ih]
    · simp only [cons_append, lines, unfinished, if_neg hx, ih]

theorem length_lines (line s : List Byte) : (lines line s).length = s.count newline := by
  induction s generalizing line with
  | nil => rfl
  | cons b s ih =>
    by_cases hb : b = newline
    · rw [lines, if_pos hb, length_cons, ih, hb, count_cons_self]
    · rw [lines, if_neg hb, ih, count_cons_of_ne hb]

theorem lines_eq_nil_iff {s : List Byte} (line : List Byte) : lines line s = [] ↔ newline ∉ s := by
  rw [← length_eq_zero_iff, length_lines, count_eq_zero]

/-- a beginning of the first line counts, once the line is ended -/
theorem size_lines {s : List Byte} (line : List Byte) (hs : newline ∈ s) :
    (lines line s).flatten.length = line.length + (lines [] s).flatten.length := by
  induction s generalizing line with
  | nil => exact absurd hs not_mem_nil
  | cons b s ih =>
    by_cases hb : b = newline
    · simp only [lines, if_pos hb, flatten_cons, length_append, length_nil, Nat.zero_add]
    · have hmem : newline ∈ s := (mem_cons.1 hs).resolve_left (Ne.symm hb)
      rw [lines, if_neg hb, lines, if_neg hb, ih (line ++ [b]) hmem, ih ([] ++ [b]) hmem, length_append, nil_append,
        Nat.add_assoc]

/-! ## What is delivered -/

/-- the call that makes `out` complete returns, or raises an error when no line of the read is left -/
def Fine (process : List (List Byte) → Ending) (out : List (List Byte)) (rest : List Byte) : Prop :=
  process out = .returns ∨ process out = .raises ∧ newline ∉ rest

/-- every call for a line of the reads is fine -/
def Undisturbed (process : List (List Byte) → Ending) (before : List (List Byte)) : List (List Byte) → Prop
  | [] => True
  | buf :: reads => (∀ a rest, buf = a ++ newline :: rest → Fine process (before ++ lines [] (a ++ [newline])) rest) ∧
      Undisturbed process (before ++ lines [] buf) reads

variable {process : List (List Byte) → Ending}

/-- a newline of `b :: s` is its first byte, or one of `s` -/
theorem forall_split_cons {b : Byte} {s : List Byte} {P : List Byte → List Byte → Prop} :
    (∀ a rest, b :: s = a ++ newline :: rest → P a rest) ↔
      (b = newline → P [] s) ∧ ∀ a rest, s = a ++ newline :: rest → P (b :: a) rest := by
  refine ⟨fun h => ⟨fun hb => h [] s (by rw [hb, nil_append]), fun a rest hs => h (b :: a) rest (by rw [hs, cons_append])⟩,
    fun h a rest hs => ?_⟩
  cases a with
  | nil =>
    obtain ⟨hb, rfl⟩ := cons_eq_cons.1 hs
    exact h.1 hb
  | cons x a =>
    rw [cons_append, cons_eq_cons] at hs
    exact hs.1 ▸ h.2 a rest hs.2

theorem lineLoop_le_lines (before : List (List Byte)) (start : ℕ) (line s : List Byte) :
    (lineLoop process before start line s).2 <+: lines line s := by
  induction s generalizing before start line with
  | nil => exact prefix_rfl
  | cons b s ih =>
    rw [lineLoop, lines]
    by_cases hb : b = newline
    · rw [if_pos hb, if_pos hb]
      have hone : [line] <+: line :: lines [] s := prefix_append [line] _
      match process (before ++ [line]) with
      | .raises => exact hone
      | .destructs => exact hone
      | .returns =>
        dsimp only
        split_ifs
        · exact hone
        · exact (prefix_cons_inj line).2 (ih _ _ _)
    · rw [if_neg hb, if_neg hb]
      exact ih _ _ _

/-- all lines of a read are delivered, and the `interactive_t` is still there, exactly if every call is fine -/
theorem lineLoop_iff (before : List (List Byte)) (start : ℕ) (line s : List Byte) :
    ((lineLoop process before start line s).1.isSome ∧ (lineLoop process before start line s).2 = lines line s) ↔
      ∀ a rest, s = a ++ newline :: rest → Fine process (before ++ lines line (a ++ [newline])) rest := by
  induction s generalizing before start line with
  | nil => exact ⟨fun _ a rest h => absurd h (by simp), fun _ => ⟨rfl, rfl⟩⟩
  | cons b s ih =>
    rw [forall_split_cons, lineLoop, lines]
    by_cases hb : b = newline
    · subst hb
      have hlater : ∀ a, before ++ lines line (newline :: a ++ [newline]) =
          before ++ [line] ++ lines [] (a ++ [newline]) := by
        intro a
        rw [cons_append, lines, if_pos rfl, append_assoc, singleton_append]
      simp only [show lines line ([] ++ [newline]) = [line] by simp [lines], hlater,
        ← ih (before ++ [line]) (start + line.length + 1) [], if_true, true_implies]
      match hp : process (before ++ [line]) with
      | .raises =>
        have hfine : Fine process (before ++ [line]) s ↔ newline ∉ s := by simp [Fine, hp]
        rw [hfine, ih]
        simp only [isSome_some, true_and, cons.injEq, eq_comm (a := []), lines_eq_nil_iff]
        exact ⟨fun hs => ⟨hs, fun a rest h => absurd h (by rintro rfl; simp at hs)⟩, And.left⟩
      | .destructs => simp [Fine, hp]
      | .returns =>
        by_cases hs : s = []
        · simp [hs, Fine, hp, lines, lineLoop]
        · simp [hs, Fine, hp]
    · have hlater : ∀ a, lines line (b :: a ++ [newline]) = lines (line ++ [b]) (a ++ [newline]) := by
        intro a
        rw [cons_append, lines, if_neg hb]
      simp only [hlater, hb, if_false, false_implies, true_and]
      exact ih before start (line ++ [b])

variable {before reads out : List (List Byte)} {ip : Input} {last : Option Input}

theorem run_length_le (h : Run process before ip reads last out) : out.length ≤ reads.flatten.count newline := by
  have hread : ∀ {before : List (List Byte)} {ip : Input} {buf : List Byte} {r},
      getUserData process before ip buf = r → r.2.length ≤ buf.count newline := by
    rintro before ip buf _ rfl
    exact length_lines [] buf ▸ (lineLoop_le_lines before ip.textStart [] buf).length_le
  induction h with
  | done => exact Nat.zero_le _
  | read _ _ hget _ ih =>
    rw [length_append, flatten_cons, count_append]
    exact Nat.add_le_add (hread hget) ih
  | freed _ _ _ hget =>
    rw [flatten_cons, count_append]
    exact (hread hget).trans (Nat.le_add_right _ _)

/-- every read delivers its own lines exactly if no call disturbs the loop -/
theorem run_iff (h : Run process before ip reads last out) :
    (last.isSome ∧ out.length = reads.flatten.count newline ↔ Undisturbed process before reads) ∧
      (Undisturbed process before reads → out = reads.flatMap (lines [])) := by
  induction h with
  | done => simp [Undisturbed]
  | @read before ip buf ip' out reads last rest _ _ hget hrun ih =>
    have hloop := @lineLoop_iff process before ip.textStart [] buf
    have hpre := @lineLoop_le_lines process before ip.textStart [] buf
    rw [getUserData] at hget
    rw [hget] at hloop hpre
    have hle := run_length_le hrun
    have hlen := length_lines [] buf
    have hall : out = lines [] buf ↔ out.length = buf.count newline :=
      ⟨fun h => h ▸ hlen, fun h => hpre.eq_of_length (h.trans hlen.symm)⟩
    have hle₁ : out.length ≤ buf.count newline := hlen ▸ hpre.length_le
    simp only [isSome_some, true_and, hall] at hloop
    rw [Undisturbed, ← hloop, ← hall, flatten_cons, count_append, length_append, flatMap_cons]
    by_cases hout : out = lines [] buf
    · rw [← hout, ← ih.1]
      have hcount := hall.1 hout
      refine ⟨⟨fun h => ⟨rfl, h.1, by omega⟩, fun h => ⟨h.2.1, by omega⟩⟩, fun h => ?_⟩
      rw [ih.2 (ih.1.1 h.2)]
    · have hne := mt hall.2 hout
      exact ⟨⟨fun h => by omega, fun h => absurd h.1 hout⟩, fun h => absurd h.1 hout⟩
  | @freed before ip buf out reads _ _ hget =>
    have hloop := @lineLoop_iff process before ip.textStart [] buf
    rw [getUserData] at hget
    rw [hget] at hloop
    have hnot : ¬ Undisturbed process before (buf :: reads) := fun h => by simpa using hloop.2 h.1
    exact ⟨⟨fun h => by simp at h, fun h => absurd h hnot⟩, fun h => absurd h hnot⟩

/-- reads taken one by one deliver no more text than the stream has -/
theorem size_flatMap_le (reads : List (List Byte)) :
    (reads.flatMap (lines [])).flatten.length ≤ (lines [] reads.flatten).flatten.length := by
  induction reads with
  | nil => exact Nat.le_refl _
  | cons buf reads ih =>
    rw [flatMap_cons, flatten_cons, lines_append, flatten_append, flatten_append, length_append, length_append]
    apply Nat.add_le_add_left
    by_cases hn : newline ∈ reads.flatten
    · exact ih.trans (size_lines (unfinished [] buf) hn ▸ Nat.le_add_left _ _)
    · rw [(lines_eq_nil_iff _).2 hn]
      rwa [(lines_eq_nil_iff _).2 hn] at ih

theorem flatMap_lines_iff (reads : List (List Byte)) : reads.flatMap (lines []) = lines [] reads.flatten ↔
      reads.Pairwise fun a b => unfinished [] a = [] ∨ newline ∉ b := by
  induction reads with
  | nil => exact ⟨fun _ => .nil, fun _ => rfl⟩
  | cons buf reads ih =>
    rw [flatMap_cons, flatten_cons, lines_append, append_cancel_left_eq, pairwise_cons, ← ih]
    by_cases hu : unfinished [] buf = []
    · rw [hu]
      exact ⟨fun h => ⟨fun _ _ => .inl rfl, h⟩, And.right⟩
    by_cases hn : newline ∈ reads.flatten
    -- the line that the next newline ends has lost its beginning
    · obtain ⟨b, hb, hmem⟩ := mem_flatten.1 hn
      refine ⟨fun h => absurd (congrArg (length ∘ flatten) h) ?_, fun h => absurd hmem ((h.1 b hb).resolve_left hu)⟩
      have hle := size_flatMap_le reads
      have hpos := length_pos_iff.2 hu
      have hsize := size_lines (unfinished [] buf) hn
      show _ ≠ (lines _ _).flatten.length
      simp only [Function.comp_apply]
      omega
    · rw [(lines_eq_nil_iff _).2 hn, (lines_eq_nil_iff _).2 hn]
      exact ⟨fun h => ⟨fun b hb => .inr fun hmem => hn (mem_flatten_of_mem hb hmem), h⟩, And.right⟩

/-- an object whose second call raises an error -/
def failsSecond (out : List (List Byte)) : Ending := if out.length = 2 then .raises else .returns

end Lithos.Driver.AsciiPort
