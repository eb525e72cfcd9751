/-
Indexing arrays and buffers (`interpret.c`): `F_INDEX` and `F_RINDEX` read an element, `push_indexed_lvalue` makes it
the target of an assignment.

The index is a number of 64 bits. To read, it is cut to an `int`, and the place behind the last byte of a buffer is let
through as well; to assign, neither is done. An element is known by its place.

Results:
* `index_exact_iff`: reading and assigning take the element that the index addresses, and raise an error if there is
  none, exactly if the `int` the index is cut to lies outside, or is the index and not the place behind a buffer.
* `index_inexact`: the place behind a buffer, and an index of more than 32 bits.
-/
import Lithos.Lpc.Types

namespace Lithos.Driver.Index

inductive Kind where
  | array
  | buffer
deriving DecidableEq, Repr

/-- the size of an array is an `unsigned short`; `allocate_buffer` keeps that of a buffer within an `int` -/
structure Indexed where
  kind : Kind
  size : ℕ
  size_lt : size < if kind = .array then 2 ^ 16 else 2 ^ 31

/-! ## The instructions -/

def int32 (n : ℤ) : ℤ := n.bmod (2 ^ 32)

def int64 (n : ℤ) : ℤ := n.bmod (2 ^ 64)

/-- `F_INDEX`: the place that is read -/
def index (x : Indexed) (n : Int64) : Except String ℕ :=
  let i := int32 n.toInt
  match x.kind with
  | .buffer => if x.size < i ∨ i < 0 then .error "*Buffer index out of bounds." else .ok i.toNat
  | .array =>
    if i < 0 then .error "*Array index must be positive or zero."
    else if x.size ≤ i then .error "*Array index out of bounds."
    else .ok i.toNat

/-- `F_RINDEX` -/
def rindex (x : Indexed) (n : Int64) : Except String ℕ :=
  let i := int32 (x.size - int32 n.toInt)
  match x.kind with
  | .buffer => if x.size < i ∨ i < 0 then .error "*Buffer index out of bounds." else .ok i.toNat
  | .array => if i < 0 ∨ x.size ≤ i then .error "*Array index out of bounds." else .ok i.toNat

/-- `push_indexed_lvalue`, which does the same for an lvalue and for a value that has been assigned -/
def pushIndexedLvalue (reverse : Bool) (x : Indexed) (n : Int64) : Except String ℕ :=
  let ind := if reverse then int64 (x.size - n.toInt) else n.toInt
  if x.size ≤ ind ∨ ind < 0 then
    match x.kind with
    | .buffer => .error "*Buffer index out of bounds."
    | .array => .error "*Array index out of bounds."
  else .ok ind.toNat

/-! ## What they are for -/

/-- the place an index addresses, counted from 0 on from the start and from 1 on from the end -/
def addressed (reverse : Bool) (x : Indexed) (n : Int64) : Option ℕ :=
  let place := if reverse then x.size - n.toInt else n.toInt
  if 0 ≤ place ∧ place < x.size then some place.toNat else none

/-- the instruction that reads -/
def read (reverse : Bool) (x : Indexed) (n : Int64) : Except String ℕ := if reverse then rindex x n else index x n

/-- the index of the place behind the last element -/
def behind (reverse : Bool) (x : Indexed) : ℤ := if reverse then 0 else x.size

variable (reverse : Bool) (x : Indexed) (n : Int64)

theorem Indexed.size_lt_int : x.size < 2 ^ 31 := by
  have h := x.size_lt
  split_ifs at h <;> omega

/-- assignments are exact -/
theorem toOption_pushIndexedLvalue : (pushIndexedLvalue reverse x n).toOption = addressed reverse x n := by
  have hlo := n.le_toInt
  have hhi := n.toInt_lt
  have hsize := x.size_lt_int
  have hplace (ind : ℤ) : (if x.size ≤ ind ∨ ind < 0 then
      match x.kind with
      | .buffer => .error "*Buffer index out of bounds."
      | .array => .error "*Array index out of bounds."
      else (.ok ind.toNat : Except String ℕ)).toOption = if 0 ≤ ind ∧ ind < x.size then some ind.toNat else none := by
    cases x.kind <;> split_ifs <;> first | rfl | omega
  unfold pushIndexedLvalue addressed
  rw [hplace]
  cases reverse with
  | false => rfl
  | true =>
    simp only [if_true, int64, Int.bmod]
    split_ifs <;> first | rfl | omega | (congr 2; omega)

/-- what is read goes by the index cut to an `int` -/
theorem toOption_read : (read reverse x n).toOption =
    if 0 ≤ int32 n.toInt ∧ int32 n.toInt ≤ x.size ∧ (x.kind = .array → int32 n.toInt ≠ behind reverse x) then
      some (if reverse then x.size - int32 n.toInt else int32 n.toInt).toNat
    else none := by
  have hsize := x.size_lt_int
  have hlo : -2 ^ 31 ≤ int32 n.toInt := Int.le_bmod (by decide)
  have hhi : int32 n.toInt < 2 ^ 31 := Int.bmod_lt (by decide)
  unfold read index rindex behind
  generalize int32 n.toInt = i at hlo hhi ⊢
  cases reverse with
  | false =>
    simp only [Bool.false_eq_true, if_false]
    cases x.kind <;> simp only [reduceCtorEq, forall_const, false_implies, and_true] <;> split_ifs <;>
      first | rfl | omega
  | true =>
    have hwrap : int32 (x.size - i) = x.size - i ∨ i < 0 ∧ int32 (x.size - i) < 0 := by
      simp only [int32, Int.bmod]
      split_ifs <;> omega
    simp only [if_true]
    rcases hwrap with hwrap | ⟨hneg, hwrap⟩
    · rw [hwrap]
      cases x.kind <;> simp only [reduceCtorEq, forall_const, false_implies, and_true] <;> split_ifs <;>
      first | rfl | omega
    · cases x.kind <;> simp only [reduceCtorEq, forall_const, false_implies, and_true] <;> split_ifs <;>
      first | rfl | omega

/-- **Exact indices.** Reading and assigning take the element that the index addresses and raise an error if there is
none, if and only if the index, cut to an `int`, is not from 0 to the size; or it is the index itself and not the place
behind the last element, or that place and `x` is an array. -/
theorem index_exact_iff : (read reverse x n).toOption = addressed reverse x n ∧
      (pushIndexedLvalue reverse x n).toOption = addressed reverse x n ↔
    int32 n.toInt < 0 ∨ x.size < int32 n.toInt ∨
      if int32 n.toInt = behind reverse x then x.kind = .array else int32 n.toInt = n.toInt := by
  rw [and_iff_left (toOption_pushIndexedLvalue reverse x n), toOption_read]
  have hcut : int32 n.toInt = n.toInt ∨ n.toInt < -2 ^ 31 ∨ 2 ^ 31 ≤ n.toInt := by
    simp only [int32, Int.bmod]
    split_ifs <;> omega
  have hsize := x.size_lt_int
  unfold addressed behind
  generalize int32 n.toInt = i at hcut ⊢
  generalize n.toInt = k at hcut ⊢
  cases reverse with
  | false => cases x.kind <;> simp only [Bool.false_eq_true, if_false, reduceCtorEq] <;> split_ifs <;> grind
  | true => cases x.kind <;> simp only [if_true, reduceCtorEq] <;> split_ifs <;> grind

/-- **Two inexact indices.** Of a buffer of 3 bytes the byte at 3 is read; of an array of one element the index
`2 ^ 32` reads that element. Neither can be assigned to. -/
theorem index_inexact : index ⟨.buffer, 3, by decide⟩ 3 = .ok 3 ∧
    pushIndexedLvalue false ⟨.buffer, 3, by decide⟩ 3 = .error "*Buffer index out of bounds." ∧
    index ⟨.array, 1, by decide⟩ 4294967296 = .ok 0 ∧
    pushIndexedLvalue false ⟨.array, 1, by decide⟩ 4294967296 = .error "*Array index out of bounds." := by
  decide

end Lithos.Driver.Index
