/-
`repeat_string` (`f_repeat_string` in `string.c`): a string some number of times.

The count is an LPC number that is taken as a `size_t`. The limit is tested on the product of the length and the count,
which is a `size_t` too; the same product is the size of the new string, while the copying goes by the count.

Results:
* `repeat_string_iff`: the efun gives what it is for exactly if the string is empty, the count is 0, or the count is
  positive and all copies are no longer than the limit.
* `repeat_string_fails`: too many copies are an error, or written behind a string allocated too short.
-/
import Lithos.Lpc.Types

namespace Lithos.Lpc.RepeatString

open List

/-- what the efun ends in -/
inductive Outcome where
  | error (text : String)
  /-- a constant takes the place of the argument -/
  | constant (text : List Byte)
  /-- the argument stays -/
  | same
  /-- a new string of `size` bytes, and the bytes copied to it -/
  | made (size : ℕ) (written : List Byte)
  deriving DecidableEq, Repr

/-- the loop of `memcpy`, which moves on by a length each time -/
def copies (s : List Byte) : ℕ → List Byte
  | 0 => []
  | i + 1 => copies s i ++ s

/-- `f_repeat_string`; `limit` is the longest string of the configuration, an `int` -/
def repeatString (limit : Fin (2 ^ 31)) (s : List Byte) (n : Int64) : Outcome :=
  let count := n.toUInt64.toNat
  if count = 0 then .constant []
  else if count ≠ 1 then
    if limit < s.length * count % 2 ^ 64 then .error "repeat_string: String too large.\n"
    else .made (s.length * count % 2 ^ 64) (copies s count)
  else .same

/-! ## What it is for -/

/-- the whole copies that fit -/
def repeated (limit : Fin (2 ^ 31)) (s : List Byte) (n : Int64) : List Byte :=
  if n.toInt ≤ 0 then [] else (replicate (min n.toInt.toNat (limit / s.length)) s).flatten

/-- the efun ends in this string, and has copied as many bytes as it has allocated -/
def Outcome.Gives (s want : List Byte) : Outcome → Prop
  | .error _ => False
  | .constant text => text = want
  | .same => s = want
  | .made size written => written = want ∧ written.length = size

theorem copies_eq (s : List Byte) (k : ℕ) : copies s k = (replicate k s).flatten := by
  induction k with
  | zero => rfl
  | succ k ih => rw [copies, ih, replicate_succ', flatten_concat]

@[simp]
theorem length_copies (s : List Byte) (k : ℕ) : (copies s k).length = s.length * k := by
  rw [copies_eq, length_flatten, map_replicate, sum_replicate, smul_eq_mul, mul_comm]

variable {limit : Fin (2 ^ 31)} {s : List Byte}

/-- a negative number is taken for a large count -/
theorem toInt_cases (n : Int64) : n.toInt = n.toUInt64.toNat ∨ n.toInt < 0 ∧ 1 < n.toUInt64.toNat := by
  have hcond : n.toInt = if 2 * n.toUInt64.toNat < 2 ^ 64 then (n.toUInt64.toNat : ℤ) else n.toUInt64.toNat - 2 ^ 64 :=
    BitVec.toInt_eq_toNat_cond n.toBitVec
  have hlt := n.toUInt64.toNat_lt
  split_ifs at hcond <;> omega

/-- a size that has not wrapped around is within the limit -/
theorem gives_many (k : ℕ) (want : List Byte) :
    (if limit < s.length * k % 2 ^ 64 then Outcome.error "repeat_string: String too large.\n"
      else .made (s.length * k % 2 ^ 64) (copies s k)).Gives s want ↔ copies s k = want ∧ s.length * k ≤ limit := by
  have hlimit := limit.isLt
  split_ifs with h
  · refine iff_of_false id fun hle => ?_
    rw [Nat.mod_eq_of_lt (by omega)] at h
    omega
  · rw [Outcome.Gives, length_copies]
    exact and_congr_right fun _ => ⟨fun hsize => by omega, fun hle => (Nat.mod_eq_of_lt (by omega)).symm⟩

/-- all copies are whole copies that fit -/
theorem copies_fit_iff (k : ℕ) : copies s k = copies s (min k (limit / s.length)) ↔ s = [] ∨ s.length * k ≤ limit := by
  rcases eq_or_ne s [] with rfl | hs
  · refine iff_of_true ?_ (.inl rfl)
    rw [copies_eq, copies_eq, flatten_replicate_nil, flatten_replicate_nil]
  have hpos := length_pos_iff.2 hs
  rw [or_iff_right hs, mul_comm, ← Nat.le_div_iff_mul_le hpos]
  refine ⟨fun h => ?_, fun h => by rw [min_eq_left h]⟩
  have hlen := congrArg length h
  rw [length_copies, length_copies, Nat.mul_right_inj hpos.ne'] at hlen
  exact hlen ▸ min_le_right _ _

/-- **Repeating a string.** The efun gives the whole copies that fit, and copies as many bytes as it has allocated, if
and only if the string is empty, the count is 0, or it is positive and all copies fit. -/
theorem repeat_string_iff (limit : Fin (2 ^ 31)) (s : List Byte) (n : Int64) :
    (repeatString limit s n).Gives s (repeated limit s n) ↔
      s = [] ∨ n.toInt = 0 ∨ 0 < n.toInt ∧ s.length * n.toInt.toNat ≤ limit := by
  unfold repeatString repeated
  rcases toInt_cases n with hn | ⟨hneg, hcount⟩
  · rw [hn, Int.toNat_natCast]
    generalize n.toUInt64.toNat = k
    rw [← copies_eq]
    rcases Nat.lt_trichotomy k 1 with hk | rfl | hk
    · obtain rfl : k = 0 := by omega
      exact iff_of_true rfl (.inr (.inl rfl))
    · have hone : copies s 1 = copies s (min 1 (limit / s.length)) ↔ _ := copies_fit_iff 1
      simpa [Outcome.Gives, copies] using hone
    · dsimp only
      rw [if_neg (by omega), if_pos hk.ne', if_neg (by omega), gives_many, copies_fit_iff]
      have h0 : (k : ℤ) ≠ 0 ∧ (0 : ℤ) < k := by omega
      simp only [h0, false_or, true_and]
      exact ⟨And.left, fun h => ⟨h, h.elim (fun hs => by simp [hs]) id⟩⟩
  · dsimp only
    rw [if_pos hneg.le, if_neg (by omega), if_pos hcount.ne', gives_many]
    have hlen : copies s n.toUInt64.toNat = [] ↔ s = [] := by
      rw [← length_eq_zero_iff, length_copies, mul_eq_zero, length_eq_zero_iff, or_iff_left (by omega)]
    rw [hlen]
    exact ⟨fun h => .inl h.1, fun h => h.elim (fun hs => ⟨hs, by simp [hs]⟩) (by omega)⟩

/-- a count that wraps around: no bytes are allocated -/
theorem repeatString_wrapped : repeatString 3 [97, 98, 99, 100] 4611686018427387904 =
    .made 0 (copies [97, 98, 99, 100] (2 ^ 62)) := by
  have hcount : (4611686018427387904 : Int64).toUInt64.toNat = 2 ^ 62 := by decide
  have hsize : [97, 98, 99, (100 : Byte)].length * 2 ^ 62 % 2 ^ 64 = 0 := by decide
  simp only [repeatString, hcount, hsize]
  rw [if_neg (by decide), if_pos (by decide), if_neg (by decide)]

/-- **Too many copies.** Of `ab` twice within 3 bytes the efun gives an error instead of one copy; of a string of 4
bytes `2 ^ 62` times it writes `2 ^ 64` bytes to a string it has allocated for none. -/
theorem repeat_string_fails :
    repeatString 3 [97, 98] 2 = .error "repeat_string: String too large.\n" ∧ repeated 3 [97, 98] 2 = [97, 98] ∧
      ∃ written, repeatString 3 [97, 98, 99, 100] 4611686018427387904 = .made 0 written ∧ written.length = 2 ^ 64 :=
  ⟨by decide, by decide, _, repeatString_wrapped, length_copies _ _⟩

end Lithos.Lpc.RepeatString
