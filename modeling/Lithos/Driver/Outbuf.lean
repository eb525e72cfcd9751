/-
The output buffer of `src/outbuf.c`, which `outbuf_add`, `outbuf_addchar` and `outbuf_extend` let grow up to `USHRT_MAX`
bytes.

A buffer is its allocated size and the bytes that were stored in it; a store behind the allocated size has no result.
The three functions make room in the same way and differ in what they do with it. No string is so long that a sum of two
sizes is outside `size_t`.

Results:
* `outbuf_correct_iff`: a run keeps `real_size` within the allocated size and `USHRT_MAX`, with everything added up to
  there in the buffer, exactly if the string that creates the buffer is not longer than `USHRT_MAX` bytes.
-/
import Lithos.Driver.MallocString

namespace Lithos.Driver.Outbuf

open List MallocString

/-- `outbuffer_t` -/
structure Outbuffer where
  realSize : ℕ
  /-- the allocated size and what was stored -/
  buffer : Option (ℕ × List UInt8)
  deriving DecidableEq

open Outbuffer

/-- `MSTR_SIZE` of a string with `allocated` bytes -/
def mstrSize (allocated : ℕ) : ℕ := (Block.ofLength 0 allocated 1).size

/-- `extend_string` -/
def Outbuffer.extendString (ob : Outbuffer) (limit : ℕ) : Outbuffer :=
  { ob with buffer := ob.buffer.map fun b => (limit, b.2.take limit) }

/-- the room that was made for a string: `USHRT_MAX` was reached before, will be reached, or all of it -/
inductive Room where
  | truncated
  | cut
  | enough

/-- the growth that the three functions share; `first` is the size of a new buffer -/
def Outbuffer.grow (ob : Outbuffer) (len first : ℕ) : Outbuffer × Room :=
  match ob.buffer with
  | none => (⟨0, some (first, [])⟩, .enough)
  | some (allocated, _) =>
    if mstrSize allocated < ob.realSize + len then
      if ob.realSize = ushrtMax then (ob, .truncated)
      else if (ob.realSize + len) * 2 ≤ ushrtMax then (ob.extendString ((ob.realSize + len) * 2), .enough)
      else if ob.realSize + len ≤ ushrtMax then (ob.extendString (ob.realSize + len), .enough)
      else (ob.extendString ushrtMax, .cut)
    else (ob, .enough)

/-- bytes stored at `real_size`, which then counts them -/
def Outbuffer.store (ob : Outbuffer) (s : List UInt8) : Option Outbuffer :=
  match ob.buffer with
  | none => none
  | some (allocated, bytes) =>
    if ob.realSize + s.length ≤ allocated then
      some ⟨ob.realSize + s.length, some (allocated, bytes.take ob.realSize ++ s)⟩
    else none

/-- `USHRT_MAX - real_size`, in `size_t` -/
def Outbuffer.rest (ob : Outbuffer) : ℕ := (2 ^ 64 + ushrtMax - ob.realSize) % 2 ^ 64

def outbufExtend (ob : Outbuffer) (len : ℕ) : Outbuffer × ℕ :=
  match ob.grow len len with
  | (ob, .truncated) => (ob, 0)
  | (ob, .cut) => (ob, ob.rest)
  | (ob, .enough) => (ob, len)

def outbufAdd (ob : Outbuffer) (str : List UInt8) : Option Outbuffer :=
  match ob.grow str.length str.length with
  | (ob, .truncated) => some ob
  | (ob, .cut) => ob.store (str.take ob.rest)
  | (ob, .enough) => ob.store str

def outbufAddchar (ob : Outbuffer) (c : UInt8) : Option Outbuffer :=
  match ob.grow 1 80 with
  | (ob, .truncated) => some ob
  | (ob, _) => ob.store [c]

inductive Op where
  | add (str : List UInt8)
  | addchar (c : UInt8)
  /-- `outbuf_extend`, and as many bytes of the string as it returns -/
  | extendFill (str : List UInt8)

def step (ob : Outbuffer) : Op → Option Outbuffer
  | .add str => outbufAdd ob str
  | .addchar c => outbufAddchar ob c
  | .extendFill str => (outbufExtend ob str.length).1.store (str.take (outbufExtend ob str.length).2)

/-- a run from the empty buffer of `outbuf_zero` -/
def run (ops : List Op) : Option Outbuffer := ops.foldlM step ⟨0, none⟩

def Op.text : Op → List UInt8
  | .add str => str
  | .addchar c => [c]
  | .extendFill str => str

/-- the sizes are within their limits, and the buffer holds the text up to `USHRT_MAX` bytes -/
structure Correct (ob : Outbuffer) (text : List UInt8) : Prop where
  allocated : ob.realSize ≤ ob.buffer.elim 0 Prod.fst
  max : ob.realSize ≤ ushrtMax
  contents : (ob.buffer.elim [] Prod.snd).take ob.realSize = text.take ushrtMax

/-! ## One operation -/

/-- a buffer of `n` bytes with the text in it -/
structure Holds (ob : Outbuffer) (n : ℕ) (text : List UInt8) : Prop where
  buffer : ob.buffer = some (n, text.take ushrtMax)
  size : ob.realSize = min text.length ushrtMax
  le : ob.realSize ≤ n

variable {ob : Outbuffer} {n : ℕ} {text : List UInt8}

section

variable (h : Holds ob n text)
include h

theorem Holds.correct : Correct ob text := by
  refine ⟨by rw [h.buffer]; exact h.le, h.size ▸ min_le_right _ _, ?_⟩
  rw [h.buffer, h.size, Option.elim_some]
  exact take_of_length_le (by rw [length_take, min_comm])

theorem Holds.extendString {limit : ℕ} (hl : ob.realSize ≤ limit) : Holds (ob.extendString limit) limit text := by
  refine ⟨?_, h.size, hl⟩
  rw [Outbuffer.extendString, h.buffer, Option.map_some, take_of_length_le]
  rwa [length_take, min_comm, ← h.size]

/-- a store of what is left of the string below `USHRT_MAX` -/
theorem Holds.store {s s' : List UInt8} (hs : s' = s.take (ushrtMax - ob.realSize))
    (hroom : ob.realSize + s'.length ≤ n) : ∃ ob', ob.store s' = some ob' ∧ Holds ob' n (text ++ s) := by
  have hsize := h.size
  rw [show ushrtMax - ob.realSize = ushrtMax - text.length by omega] at hs
  refine ⟨_, by rw [Outbuffer.store, h.buffer]; exact if_pos hroom, ?_, ?_, hroom⟩
  · rw [hsize, take_take, take_append, ← hs, min_comm, min_right_comm, min_self, ← take_eq_take_min]
  · dsimp only
    rw [hs, length_take, length_append]
    omega

/-- what the growth leaves to store for a string -/
theorem Holds.grow (s : List UInt8) (first : ℕ) : ∃ ob' room n', ob.grow s.length first = (ob', room) ∧
      match room with
      | .truncated => Holds ob' n' (text ++ s) ∧ ∃ ob'', ob'.store [] = some ob'' ∧ Holds ob'' n' (text ++ s)
      | .cut => s.length ≠ 1 ∧ ∃ ob'', ob'.store (s.take ob'.rest) = some ob'' ∧ Holds ob'' n' (text ++ s)
      | .enough => ∃ ob'', ob'.store s = some ob'' ∧ Holds ob'' n' (text ++ s) := by
  have hsize := h.size
  have hle := h.le
  have hmstr : mstrSize n = min n ushrtMax := by
    unfold mstrSize Block.ofLength
    split_ifs <;> dsimp only <;> omega
  have hall : ob.realSize + s.length ≤ ushrtMax → s = s.take (ushrtMax - ob.realSize) :=
    fun hs => (take_of_length_le (by omega)).symm
  simp only [Outbuffer.grow, h.buffer, hmstr]
  split_ifs with hgrow hfull htwice honce
  · refine ⟨ob, .truncated, n, rfl, ⟨?_, ?_, hle⟩, h.store (by rw [hfull, Nat.sub_self, take_zero]) hle⟩
    · rw [h.buffer, take_append_of_le_length (by omega)]
    · rw [length_append]
      omega
  · refine ⟨_, .enough, _, rfl, (h.extendString (by omega)).store (hall (by omega)) ?_⟩
    show ob.realSize + s.length ≤ (ob.realSize + s.length) * 2
    omega
  · exact ⟨_, .enough, _, rfl, (h.extendString (by omega)).store (hall honce) le_rfl⟩
  · have hmax : ob.realSize ≤ 65535 := h.correct.max
    have hrest : (ob.extendString ushrtMax).rest = ushrtMax - ob.realSize := by
      show (2 ^ 64 + 65535 - ob.realSize) % 2 ^ 64 = 65535 - ob.realSize
      omega
    refine ⟨_, .cut, ushrtMax, rfl, by omega, (h.extendString (by omega)).store (by rw [hrest]; rfl) ?_⟩
    rw [length_take]
    show ob.realSize + _ ≤ ushrtMax
    omega
  · exact ⟨ob, .enough, n, rfl, h.store (hall (by omega)) (by omega)⟩

/-- **One operation on a buffer.** -/
theorem Holds.step (op : Op) : ∃ ob' n', step ob op = some ob' ∧ Holds ob' n' (text ++ op.text) := by
  cases op with
  | add str =>
    obtain ⟨ob', room, n', hgrow, hroom⟩ := h.grow str str.length
    rw [Outbuf.step, outbufAdd, hgrow]
    cases room with
    | truncated => exact ⟨ob', n', rfl, hroom.1⟩
    | cut => exact ⟨_, n', hroom.2.choose_spec⟩
    | enough => exact ⟨_, n', hroom.choose_spec⟩
  | addchar c =>
    obtain ⟨ob', room, n', hgrow, hroom⟩ := h.grow [c] 80
    rw [Outbuf.step, outbufAddchar, show 1 = [c].length from rfl, hgrow]
    cases room with
    | truncated => exact ⟨ob', n', rfl, hroom.1⟩
    | cut => exact absurd rfl hroom.1
    | enough => exact ⟨_, n', hroom.choose_spec⟩
  | extendFill str =>
    obtain ⟨ob', room, n', hgrow, hroom⟩ := h.grow str str.length
    rw [Outbuf.step, outbufExtend, hgrow]
    cases room with
    | truncated | cut => exact ⟨_, n', hroom.2.choose_spec⟩
    | enough =>
      rw [take_length]
      exact ⟨_, n', hroom.choose_spec⟩

end

/-! ## Runs -/

/-- the first operation creates the buffer, and stores its string as it is -/
theorem step_new (op : Op) :
    ∃ n, op.text.length ≤ n ∧ step ⟨0, none⟩ op = some ⟨op.text.length, some (n, op.text)⟩ := by
  cases op with
  | add str => exact ⟨str.length, le_rfl, by simp [step, outbufAdd, grow, store, Op.text]⟩
  | addchar c => exact ⟨80, by simp [Op.text], rfl⟩
  | extendFill str => exact ⟨str.length, le_rfl, by simp [step, outbufExtend, grow, store, Op.text]⟩

theorem holds_run (ops : List Op) (h : Holds ob n text) :
    ∃ ob' n', ops.foldlM step ob = some ob' ∧ Holds ob' n' (text ++ ops.flatMap Op.text) := by
  induction ops generalizing ob n text with
  | nil => exact ⟨ob, n, rfl, by rwa [flatMap_nil, append_nil]⟩
  | cons op ops ih =>
    obtain ⟨ob₁, n₁, hstep, h₁⟩ := h.step op
    obtain ⟨ob₂, n₂, hrun, h₂⟩ := ih h₁
    refine ⟨ob₂, n₂, ?_, by rwa [flatMap_cons, ← append_assoc]⟩
    rw [foldlM_cons, hstep]
    exact hrun

/-- **Output buffer.** For every sequence of operations, with strings of any length: after each of them the sizes are
within their limits and the buffer holds the first 65535 bytes of what was added, exactly if the first string is not
longer than that. -/
theorem outbuf_correct_iff (ops : List Op) :
    (∀ done, done <+: ops → ∃ ob, run done = some ob ∧ Correct ob (done.flatMap Op.text)) ↔
      ∀ op, ops.head? = some op → op.text.length ≤ ushrtMax := by
  constructor
  · intro h op hop
    obtain ⟨ops, rfl⟩ : ∃ rest, ops = op :: rest := head?_eq_some_iff.1 hop
    obtain ⟨ob, hrun, hcorrect⟩ := h [op] ⟨ops, rfl⟩
    obtain ⟨n, -, hstep⟩ := step_new op
    rw [run, foldlM_cons, hstep] at hrun
    cases hrun
    exact hcorrect.max
  · intro h done hdone
    cases done with
    | nil => exact ⟨⟨0, none⟩, rfl, le_rfl, Nat.zero_le _, rfl⟩
    | cons op done =>
      obtain ⟨n, hn, hstep⟩ := step_new op
      have hmax : op.text.length ≤ ushrtMax := by
        obtain ⟨rest, rfl⟩ := hdone
        exact h op rfl
      have hfirst : Holds ⟨op.text.length, some (n, op.text)⟩ n op.text :=
        ⟨by rw [take_of_length_le hmax], (min_eq_left hmax).symm, hn⟩
      obtain ⟨ob, _, hrun, hholds⟩ := holds_run done hfirst
      exact ⟨ob, by rw [run, foldlM_cons, hstep]; exact hrun, hholds.correct⟩

/-- a first string of 65536 bytes is kept whole -/
theorem oversized_first : ∃ ob, run [.add (replicate 65536 97)] = some ob ∧ ob.realSize = 65536 := by
  obtain ⟨n, -, hstep⟩ := step_new (.add (replicate 65536 97))
  refine ⟨⟨_, some (n, replicate 65536 97)⟩, ?_, length_replicate (a := (97 : UInt8))⟩
  rw [run, foldlM_cons, hstep]
  rfl

end Lithos.Driver.Outbuf
