/-
The writer of the save format (`save_svalue`).

The buffer is the list of bytes written so far. Strings and containers only append. A number is written backwards from
a position computed from its digit count: `saveNumber` keeps that, because for the one number whose negation overflows
the count is wrong and the digits run back over what was written before (or over what lies before the buffer).

Results:
- `saveSvalue_eq`: where no integer of the value is the least 64-bit one, the writer appends `text`, which is defined
  by recursion on the value alone.
-/
import Lithos.Lpc.Save.Value

namespace Lithos.Lpc.Save

open List

variable {ρ : Type} [Double ρ] {n : Int64}

/-! ## Model -/

/-- the loop that counts digits: `while (fact > 9) { fact /= 10; len++; }` -/
def countDigits : ℕ → Int → ℕ
  | 0, _ => 0
  | fuel + 1, fact => if fact > 9 then countDigits fuel (fact.tdiv 10) + 1 else 0

/-- the loop that writes digits backwards: `do { *--cp = res % 10 + '0'; res /= 10; } while (res)` -/
def digitsBack : ℕ → Int → List Byte
  | 0, _ => []
  | fuel + 1, res =>
    let d : Byte := UInt8.ofInt (res.tmod 10 + 48)
    if res.tdiv 10 = 0 then [d] else digitsBack fuel (res.tdiv 10) ++ [d]

/-- a 64-bit number has at most 19 digits -/
def maxDigits : ℕ := 20

/-- write a number; `none` when its digits would go before the buffer -/
def saveNumber (n : Int64) (buf : List Byte) : Option (List Byte) :=
  let neg := n < 0
  let res := (if neg then -n else n).toInt
  let len := (if neg then 2 else 1) + countDigits maxDigits res
  let out := (if neg then [minus] else []) ++ digitsBack maxDigits res
  if out.length ≤ buf.length + len then some (buf.take (buf.length + len - out.length) ++ out) else none

/-- one character of a string: quotes and backslashes are escaped, a newline becomes a carriage return -/
def saveChar (c : Byte) : List Byte :=
  if c = quote ∨ c = backslash then [backslash, c] else [if c = newline then cr else c]

/-- a string up to its first NUL, between quotes -/
def saveString (s : List Byte) : List Byte :=
  [quote] ++ (s.takeWhile (· ≠ nul)).flatMap saveChar ++ [quote]

mutual

/-- `save_svalue`: the buffer after the value -/
def saveSvalue : Svalue ρ → List Byte → Option (List Byte)
  | .number n, buf => saveNumber n buf
  | .real r, buf => some (buf ++ Double.fmtG r)
  | .string s, buf => some (buf ++ saveString s)
  | .array l, buf => (saveItems l (buf ++ [lparen, lbrace])).map (· ++ [rbrace, rparen])
  | .class_ l, buf => (saveItems l (buf ++ [lparen, slash])).map (· ++ [slash, rparen])
  | .mapping l, buf => (saveNodes l (buf ++ [lparen, lbracket])).map (· ++ [rbracket, rparen])
  | .other, buf => some buf

def saveItems : List (Svalue ρ) → List Byte → Option (List Byte)
  | [], buf => some buf
  | v :: l, buf => (saveSvalue v buf).bind fun b => saveItems l (b ++ [comma])

def saveNodes : List (Svalue ρ × Svalue ρ) → List Byte → Option (List Byte)
  | [], buf => some buf
  | (k, v) :: l, buf => (saveSvalue k buf).bind fun b => (saveSvalue v (b ++ [colon])).bind fun b' =>
      saveNodes l (b' ++ [comma])

end

/-! ## Text -/

/-- the text of a number whose negation does not overflow -/
def numberText (n : Int64) : List Byte :=
  (if n < 0 then [minus] else []) ++ digitsBack maxDigits n.toInt.natAbs

mutual

/-- the text of a value -/
def text : Svalue ρ → List Byte
  | .number n => numberText n
  | .real r => Double.fmtG r
  | .string s => saveString s
  | .array l => [lparen, lbrace] ++ itemsText l ++ [rbrace, rparen]
  | .class_ l => [lparen, slash] ++ itemsText l ++ [slash, rparen]
  | .mapping l => [lparen, lbracket] ++ nodesText l ++ [rbracket, rparen]
  | .other => []

def itemsText : List (Svalue ρ) → List Byte
  | [] => []
  | v :: l => text v ++ [comma] ++ itemsText l

def nodesText : List (Svalue ρ × Svalue ρ) → List Byte
  | [] => []
  | (k, v) :: l => text k ++ [colon] ++ text v ++ [comma] ++ nodesText l

end

/-- the character of a decimal digit -/
def digitByte (d : ℕ) : Byte := UInt8.ofNat (d + 48)

theorem ofInt_digit {d : ℕ} (h : d < 10) : UInt8.ofInt ((d : Int) + 48) = digitByte d := by
  interval_cases d <;> rfl

/-- the digit loops on a natural number -/
theorem digitsBack_nat (fuel n : ℕ) : digitsBack (fuel + 1) n =
    if n < 10 then [digitByte (n % 10)] else digitsBack fuel (n / 10 : ℕ) ++ [digitByte (n % 10)] := by
  have hmod : (n : Int).tmod 10 = ((n % 10 : ℕ) : Int) := by
    rw [Int.tmod_eq_emod_of_nonneg (by omega)]; omega
  have hdiv : (n : Int).tdiv 10 = ((n / 10 : ℕ) : Int) := by
    rw [Int.tdiv_eq_ediv_of_nonneg (by omega)]; omega
  have h0 : (((n / 10 : ℕ) : Int) = 0) ↔ n < 10 := by omega
  simp only [digitsBack, hmod, hdiv, h0, ofInt_digit (Nat.mod_lt n (by omega : 10 > 0))]

theorem countDigits_nat (fuel n : ℕ) : countDigits (fuel + 1) n =
    if n < 10 then 0 else countDigits fuel (n / 10 : ℕ) + 1 := by
  have hdiv : (n : Int).tdiv 10 = ((n / 10 : ℕ) : Int) := by
    rw [Int.tdiv_eq_ediv_of_nonneg (by omega)]; omega
  have h9 : (n : Int) > 9 ↔ ¬ n < 10 := by omega
  simp only [countDigits, hdiv, h9, ite_not]

/-- the count is right for every number the loops have fuel for -/
theorem length_digitsBack {fuel n : ℕ} (h : n < 10 ^ (fuel + 1)) :
    (digitsBack (fuel + 1) n).length = countDigits (fuel + 1) n + 1 := by
  induction fuel generalizing n with
  | zero =>
    have h10 : n < 10 := by simpa using h
    rw [digitsBack_nat, countDigits_nat, if_pos h10, if_pos h10]
    rfl
  | succ fuel ih =>
    rw [digitsBack_nat, countDigits_nat]
    split_ifs with h10
    · rfl
    · rw [length_append, ih (by rw [pow_succ] at h; omega)]
      rfl

theorem neg_iff (n : Int64) : n < 0 ↔ n.toInt < 0 := Int64.lt_iff_toInt_lt

theorem natAbs_lt (n : Int64) : n.toInt.natAbs < 10 ^ 20 := by
  have h1 := n.toInt_lt
  have h2 := n.le_toInt
  omega

/-- what the digits are taken from -/
theorem abs_toInt (h : n ≠ Int64.minValue) : (if n < 0 then -n else n).toInt = (n.toInt.natAbs : Int) := by
  have hmin : n.toInt ≠ -2 ^ 63 := fun hn => h (Int64.toInt_inj.1 hn)
  have h2 := n.le_toInt
  split_ifs with hneg
  · rw [neg_iff] at hneg
    rw [Int64.toInt_neg, Int.bmod_eq_of_le (by omega) (by omega)]
    omega
  · rw [neg_iff] at hneg
    omega

theorem saveNumber_eq (h : n ≠ Int64.minValue) (buf : List Byte) : saveNumber n buf = some (buf ++ numberText n) := by
  have hlen : (digitsBack maxDigits n.toInt.natAbs).length = countDigits maxDigits n.toInt.natAbs + 1 :=
    length_digitsBack (natAbs_lt n)
  have hout : (numberText n).length = (if n < 0 then 2 else 1) + countDigits maxDigits n.toInt.natAbs := by
    rw [numberText, length_append]
    split_ifs
    · simp only [length_singleton]; omega
    · simp only [length_nil]; omega
  unfold saveNumber
  simp only [abs_toInt h]
  change (if (numberText n).length ≤ _ then some (buf.take (_ - (numberText n).length) ++ numberText n) else none) = _
  rw [hout, if_pos (by omega), Nat.add_sub_cancel, take_length]

/-- no integer in the value is the one whose negation overflows -/
def NoMin : Svalue ρ → Prop := Svalue.All (OnNumber (· ≠ Int64.minValue))

mutual

/-- **The writer appends the text**, as long as no integer is the least one. -/
theorem saveSvalue_eq : ∀ v : Svalue ρ, NoMin v → ∀ buf, saveSvalue v buf = some (buf ++ text v)
  | .number _, h, buf => saveNumber_eq h buf
  | .real _, _, _ | .string _, _, _ => rfl
  | .array l, h, _ | .class_ l, h, _ => by
    rw [saveSvalue, saveItems_eq l h.2, text]
    simp
  | .mapping l, h, _ => by
    rw [saveSvalue, saveNodes_eq l h.2, text]
    simp
  | .other, _, _ => by simp [saveSvalue, text]

theorem saveItems_eq : ∀ l : List (Svalue ρ), AllItems (OnNumber (· ≠ Int64.minValue)) l →
    ∀ buf, saveItems l buf = some (buf ++ itemsText l)
  | [], _, _ => by simp [saveItems, itemsText]
  | v :: l, h, _ => by
    rw [saveItems, saveSvalue_eq v h.1, Option.bind_some, saveItems_eq l h.2]
    simp only [itemsText, append_assoc]

theorem saveNodes_eq : ∀ l : List (Svalue ρ × Svalue ρ), AllNodes (OnNumber (· ≠ Int64.minValue)) l →
    ∀ buf, saveNodes l buf = some (buf ++ nodesText l)
  | [], _, _ => by simp [saveNodes, nodesText]
  | (k, v) :: l, h, _ => by
    rw [saveNodes, saveSvalue_eq k h.1, Option.bind_some, saveSvalue_eq v h.2.1, Option.bind_some, saveNodes_eq l h.2.2]
    simp only [nodesText, append_assoc]

end

end Lithos.Lpc.Save
