/-
The range operators (`f_range` and `f_extract_range` in `operator.c`) on strings, buffers and arrays.

The operators are written out once for each type. `x[n..]` and `x[n..<1]` should mean the same: everything from the
place `n` on, which with `<` counts from the end. Integers wrap around at 64 bits. Freeing the operands is left out.

Results:
* `open_range_iff`: the two operators agree on every buffer and every array, and on a string exactly if the place is
  counted from the end once, and what is copied is a C string within the limit.
* `open_range_differs`: a NUL byte, and a place before the start counted from the end twice.
-/
import Mathlib.Data.List.TakeWhile
import Lithos.Lpc.Types

namespace Lithos.Lpc.Range

open List

/-- a value, as far as the operators tell values apart -/
inductive Value (α : Type) where
  | number (n : ℤ)
  /-- a string with its length; it may contain NUL bytes -/
  | string (s : List Byte)
  | buffer (b : List Byte)
  | array (v : List α)
  | other
  deriving DecidableEq, Repr

/-- the settings the operators depend on -/
structure Config where
  /-- `OLD_RANGE_BEHAVIOR` -/
  oldRange : Bool
  maxStringLength : ℕ
  maxBufferSize : ℕ

variable {α : Type} (cfg : Config)

/-! ## The operators -/

def wrap (n : ℤ) : ℤ := n.bmod (2 ^ 64)

/-- a place, counted from the end on request; otherwise a negative one counts from the end in the old way -/
def countEither (fromEnd : Bool) (n len : ℤ) : ℤ :=
  if fromEnd then wrap (len - n) else if cfg.oldRange ∧ n < 0 then n + len else n

/-- a place, counted from the end on request; if it is negative then, it counts from the end in the old way -/
def countBoth (fromEnd : Bool) (n len : ℤ) : ℤ :=
  let n := if fromEnd then wrap (len - n) else n
  if cfg.oldRange ∧ n < 0 then n + len else n

def orZero (n : ℤ) : ℤ := if n < 0 then 0 else n

/-- `memcpy` of `n` elements from a place on -/
def copy {β : Type} (l : List β) (place n : ℤ) : List β := (l.drop place.toNat).take n.toNat

/-- `string_copy` of the bytes at a place: up to the NUL byte, and not more than the limit -/
def stringCopy (s : List Byte) : List Byte := (s.takeWhile (· ≠ 0)).take cfg.maxStringLength

/-- `allocate_buffer`, filled with the bytes -/
def allocateBuffer (b : List Byte) : Except String (Value α) :=
  if cfg.maxBufferSize < b.length then .error "Illegal buffer size.\n" else .ok (.buffer b)

/-- the elements that `slice_array` returns -/
def sliceArray (v : List α) (first last : ℤ) : List α :=
  let first := orZero first
  let last := if v.length ≤ last then (v.length : ℤ) - 1 else last
  if last < first then [] else copy v first (last - first + 1)

/-- a conversion to `int` -/
def toInt (n : ℤ) : ℤ := n.bmod (2 ^ 32)

/-- `f_range`: `x[from..to]`; bit 0 of `code` counts `to` from the end, bit 4 counts `from` from the end -/
def fRange (code : ℕ) (first last x : Value α) : Except String (Value α) :=
  match first, last with
  | .number n, .number k =>
    let toEnd := code.testBit 0
    let fromEnd := code.testBit 4
    match x with
    | .string s =>
      let len : ℤ := s.length
      let last := countEither cfg toEnd k len
      let first := orZero (countEither cfg fromEnd n len)
      if last < first ∨ len ≤ first then .ok (.string [])
      else
        let last := if len ≤ last then len - 1 else last
        .ok (.string (copy s first (last - first + 1)))
    | .buffer b =>
      let len : ℤ := b.length
      let last := countBoth cfg toEnd k len
      let first := orZero (countBoth cfg fromEnd n len)
      if last < first ∨ len ≤ first then .ok (.buffer [])
      else
        let last := if len ≤ last then len - 1 else last
        allocateBuffer cfg (copy b first (last - first + 1))
    | .array v =>
      let last := if toEnd then wrap (v.length - k) else k
      let first := if fromEnd then wrap (v.length - n) else n
      .ok (.array (sliceArray v (toInt first) (toInt last)))
    | _ => .error "Bad argument to [ .. ] range operator.\n"
  | .number _, _ => .error "End of range [ .. ] interval must be a number.\n"
  | _, _ => .error "Start of range [ .. ] interval must be a number.\n"

/-- `f_extract_range`: `x[from..]`; with a `code` other than zero `from` counts from the end -/
def fExtractRange (code : ℕ) (first x : Value α) : Except String (Value α) :=
  match first with
  | .number n =>
    let fromEnd := code ≠ 0
    match x with
    | .string s =>
      let first := orZero (countBoth cfg fromEnd n s.length)
      if s.length ≤ first then .ok (.string []) else .ok (.string (stringCopy cfg (s.drop first.toNat)))
    | .buffer b =>
      let len : ℤ := b.length
      let first := orZero (countBoth cfg fromEnd n len)
      let first := if len < first then len else first
      allocateBuffer cfg (copy b first (len - first))
    | .array v =>
      let first := if fromEnd then wrap (v.length - n) else n
      .ok (.array (sliceArray v (toInt first) (toInt (v.length - 1))))
    | _ => .error "Bad argument to [ .. ] range operator.\n"
  | _ => .error "Start of range [ .. ] interval must be a number.\n"

/-- the instructions `F_RE_RANGE` and `F_NE_RANGE` -/
def openRange (fromEnd : Bool) (n : ℤ) (x : Value α) : Except String (Value α) :=
  fExtractRange cfg (if fromEnd then 1 else 0) (.number n) x

/-- the instructions `F_RR_RANGE` and `F_NR_RANGE`, with 1 as the end of the range -/
def rangeToLast (fromEnd : Bool) (n : ℤ) (x : Value α) : Except String (Value α) :=
  fRange cfg (if fromEnd then 0x11 else 0x01) (.number n) (.number 1) x

/-! ## Where a range starts -/

/-- a length in memory -/
def Value.Ok : Value α → Prop
  | .string s => s.length < 2 ^ 63
  | .buffer b => b.length < 2 ^ 32
  | .array v => v.length < 2 ^ 16
  | _ => True

theorem wrap_last {len : ℕ} (h : len < 2 ^ 63) : wrap (len - 1) = len - 1 :=
  Int.bmod_eq_of_le_mul_two (by norm_num; omega) (by norm_num; omega)

theorem toNat_orZero (n : ℤ) : (orZero n).toNat = n.toNat := by
  unfold orZero
  split_ifs <;> omega

section Copies

variable {β : Type} {l : List β} {n : ℤ}

/-- a copy up to the last element -/
theorem copy_last (h : orZero n ≤ l.length) : copy l (orZero n) (l.length - orZero n) = l.drop n.toNat := by
  rw [copy, toNat_orZero, take_of_length_le]
  rw [length_drop, ← toNat_orZero]
  omega

theorem drop_outside (h : l.length ≤ orZero n) : l.drop n.toNat = [] := by
  rw [drop_eq_nil_iff, ← toNat_orZero]
  omega

/-- a range that reaches to the last element -/
theorem range_last {γ : Type} (f : List β → γ) {last : ℤ} (hlast : last = l.length - 1) :
    (if last < orZero n ∨ l.length ≤ orZero n then f []
    else f (copy l (orZero n) ((if l.length ≤ last then (l.length : ℤ) - 1 else last) - orZero n + 1))) =
      f (l.drop n.toNat) := by
  split_ifs with hout hlen
  · rw [drop_outside (by omega)]
  · omega
  · rw [show last - orZero n + 1 = l.length - orZero n by omega, copy_last (by omega)]

end Copies

variable {cfg} {fromEnd : Bool} {n : ℤ} {b : List Byte}

theorem bits_range : (if fromEnd then 0x11 else 0x01 : ℕ).testBit 0 = true ∧
    (if fromEnd then 0x11 else 0x01 : ℕ).testBit 4 = fromEnd := by cases fromEnd <;> decide

theorem code_extract : decide ((if fromEnd then 1 else 0) ≠ 0) = fromEnd := by cases fromEnd <;> rfl

theorem rangeToLast_string {s : List Byte} (h : s.length < 2 ^ 63) : rangeToLast (α := α) cfg fromEnd n (.string s) =
      .ok (.string (s.drop (countEither cfg fromEnd n s.length).toNat)) := by
  have hlast : countEither cfg true 1 s.length = s.length - 1 := wrap_last h
  simp only [rangeToLast, fRange, bits_range]
  exact range_last (fun l => Except.ok (Value.string l)) hlast

theorem openRange_string {s : List Byte} : openRange (α := α) cfg fromEnd n (.string s) =
      .ok (.string (stringCopy cfg (s.drop (countBoth cfg fromEnd n s.length).toNat))) := by
  simp only [openRange, fExtractRange, code_extract]
  split_ifs with hlen
  · rw [drop_outside hlen]
    simp [stringCopy]
  · rw [toNat_orZero]

theorem rangeToLast_buffer (h : b.length < 2 ^ 63) : rangeToLast (α := α) cfg fromEnd n (.buffer b) =
      allocateBuffer cfg (b.drop (countBoth cfg fromEnd n b.length).toNat) := by
  have hlast : countBoth cfg true 1 b.length = b.length - 1 := by
    simp only [countBoth, if_true, wrap_last h]
    split_ifs <;> omega
  simp only [rangeToLast, fRange, bits_range]
  exact range_last (allocateBuffer cfg) hlast

theorem openRange_buffer : openRange (α := α) cfg fromEnd n (.buffer b) =
      allocateBuffer cfg (b.drop (countBoth cfg fromEnd n b.length).toNat) := by
  simp only [openRange, fExtractRange, code_extract]
  split_ifs with hlen
  · rw [drop_outside hlen.le]
    simp [copy]
  · rw [copy_last (by omega)]

theorem rangeToLast_array {v : List α} (h : v.length < 2 ^ 63) :
    rangeToLast cfg fromEnd n (.array v) = openRange cfg fromEnd n (.array v) := by
  simp only [rangeToLast, fRange, openRange, fExtractRange, bits_range, if_true, wrap_last h]
  cases fromEnd <;> rfl

/-! ## The two operators -/

/-- a string without NUL bytes within the limit is copied whole, and only such a string -/
theorem stringCopy_eq_self {s : List Byte} : stringCopy cfg s = s ↔ 0 ∉ s ∧ s.length ≤ cfg.maxStringLength := by
  constructor
  · intro h
    have hinit : stringCopy cfg s <+: s.takeWhile (· ≠ 0) := take_prefix _ _
    rw [h] at hinit
    refine ⟨fun hmem => ?_, ?_⟩
    · simpa using mem_takeWhile_imp (hinit.subset hmem)
    · rw [← h, stringCopy, length_take]
      exact min_le_left _ _
  · rintro ⟨hnul, hlen⟩
    have hall : s.takeWhile (· ≠ 0) = s :=
      takeWhile_eq_self_iff.2 fun b hb => by simpa using fun h0 : b = 0 => hnul (h0 ▸ hb)
    rw [stringCopy, hall, take_of_length_le hlen]

variable (cfg) in
theorem length_stringCopy_le (s : List Byte) : (stringCopy cfg s).length ≤ s.length :=
  ((take_sublist _ _).trans (takeWhile_sublist _)).length_le

variable (cfg n) in
/-- the place is counted from the end once, and what is copied from there is a C string within the limit -/
structure Plain (fromEnd : Bool) (s : List Byte) : Prop where
  once : cfg.oldRange = true → fromEnd = true → ¬ (wrap (s.length - n) < 0 ∧ 0 < wrap (s.length - n) + s.length)
  noNul : 0 ∉ s.drop (countEither cfg fromEnd n s.length).toNat
  short : (s.drop (countEither cfg fromEnd n s.length).toNat).length ≤ cfg.maxStringLength

/-- a place that is counted from the end once is the same in both operators -/
theorem toNat_countBoth {len : ℤ}
    (h : cfg.oldRange = true → fromEnd = true → ¬ (wrap (len - n) < 0 ∧ 0 < wrap (len - n) + len)) :
    (countBoth cfg fromEnd n len).toNat = (countEither cfg fromEnd n len).toNat := by
  unfold countBoth countEither
  cases fromEnd
  · rfl
  · simp only [if_true]
    split_ifs with hneg
    · have := h hneg.1 rfl
      omega
    · rfl

theorem string_iff (s : List Byte) : stringCopy cfg (s.drop (countBoth cfg fromEnd n s.length).toNat) =
    s.drop (countEither cfg fromEnd n s.length).toNat ↔ Plain cfg n fromEnd s := by
  constructor
  · intro h
    have honce : cfg.oldRange = true → fromEnd = true →
        ¬ (wrap (s.length - n) < 0 ∧ 0 < wrap (s.length - n) + s.length) := by
      rintro hold rfl ⟨hneg, hpos⟩
      -- the copy starts behind the start of the string, the range at the start
      have hlen := congrArg length h
      have hle := length_stringCopy_le cfg (s.drop (countBoth cfg true n s.length).toNat)
      simp only [countBoth, countEither, if_true, hold, hneg, true_and, length_drop] at hlen hle
      omega
    rw [toNat_countBoth honce] at h
    obtain ⟨hnul, hshort⟩ := stringCopy_eq_self.1 h
    exact ⟨honce, hnul, hshort⟩
  · rintro ⟨honce, hnul, hshort⟩
    rw [toNat_countBoth honce]
    exact stringCopy_eq_self.2 ⟨hnul, hshort⟩

/-- **Open-ended ranges.** `x[n..]` is `x[n..<1]` for every value and place, counted from the start or from the end,
unless `x` is a string and the place is counted from the end twice or what the range selects is not copied whole. -/
theorem open_range_iff (cfg : Config) (fromEnd : Bool) (n : ℤ) (x : Value α) (hx : x.Ok) :
    openRange cfg fromEnd n x = rangeToLast cfg fromEnd n x ↔ ∀ s, x = .string s → Plain cfg n fromEnd s := by
  cases x with
  | string s =>
    rw [openRange_string, rangeToLast_string hx, Except.ok.injEq, Value.string.injEq, string_iff]
    exact ⟨fun h _ heq => Value.string.inj heq ▸ h, fun h => h s rfl⟩
  | buffer b => exact iff_of_true (by rw [openRange_buffer, rangeToLast_buffer (hx.trans (by norm_num))]) nofun
  | array v => exact iff_of_true (rangeToLast_array (hx.trans (by norm_num))).symm nofun
  | number k | other => exact iff_of_true rfl nofun

/-- the driver as it is built, with room for long strings -/
def builtConfig : Config := ⟨true, 200000, 400000⟩

theorem abc_from_one : openRange (α := ℕ) builtConfig false 1 (.string [97, 98, 99]) =
    rangeToLast builtConfig false 1 (.string [97, 98, 99]) := by
  refine (open_range_iff builtConfig false 1 (.string [97, 98, 99]) (by norm_num [Value.Ok])).2 ?_
  rintro s ⟨⟩
  exact ⟨nofun, by decide, by decide⟩

/-- **Where the operators differ.** `"a\0b"[0..]` is `"a"`; and `"ab"[<3..]` is `"b"`, as the place before the start
counts from the end again. -/
theorem open_range_differs : openRange (α := ℕ) builtConfig false 0 (.string [97, 0, 98]) = .ok (.string [97]) ∧
      rangeToLast (α := ℕ) builtConfig false 0 (.string [97, 0, 98]) = .ok (.string [97, 0, 98]) ∧
      openRange (α := ℕ) builtConfig true 3 (.string [97, 98]) = .ok (.string [98]) ∧
      rangeToLast (α := ℕ) builtConfig true 3 (.string [97, 98]) = .ok (.string [97, 98]) := by
  decide +kernel

end Lithos.Lpc.Range
