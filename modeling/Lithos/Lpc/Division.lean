/-
Integer division: every place of the driver that divides two LPC numbers. The compiler folds `/` and `%` of constants
(the rules of `grammar.y`, `binary_int_op` in `parse_trees.c`), the machine runs F_DIVIDE and F_MOD (`interpret.c`) and
the assignments `/=` and `%=` (`f_div_eq`, `f_mod_eq` in `operator.c`).

Each tests its divisor for zero and then uses `/` or `%` of C on two `int64_t`. That is defined when the exact quotient
is an `int64_t` too, for `%` as for `/`; the machine traps otherwise. Floating point is a parameter (`Reals`).

Results:
* `division_defined_iff`: with a divisor other than zero, each place gives the exact quotient or remainder unless the
  dividend is the least number and the divisor is -1, and traps there.
-/
import Mathlib.Tactic

namespace Lithos.Lpc.Division

open Int

/-- what a division ends in when it gives no value -/
inductive Fault where
  /-- `error` or `yyerror` with this text -/
  | error (text : String)
  /-- `bad_argument` for this argument -/
  | badArgument (arg : ℕ)
  | trap
deriving DecidableEq, Repr

/-- an operand: T_NUMBER, T_REAL, or a value of another type -/
inductive Operand (ρ : Type) where
  | number (n : Int64)
  | real (x : ρ)
  | other
deriving DecidableEq, Repr

/-- the floating point of the machine, as far as the divisions use it -/
structure Reals (ρ : Type) where
  isZero : ρ → Bool
  div : ρ → ρ → ρ
  ofNumber : Int64 → ρ
  /-- `(int)`, widened to a number again -/
  truncate : ρ → Int64

/-! ## Division of the machine -/

/-- `q` is an `int64_t` -/
def Fits (q : ℤ) : Prop := -2 ^ 63 ≤ q ∧ q < 2 ^ 63

instance (q : ℤ) : Decidable (Fits q) := inferInstanceAs (Decidable (_ ∧ _))

/-- `a / b` and `a % b` of C: `op` is `Int.tdiv` or `Int.tmod` -/
def machine (op : ℤ → ℤ → ℤ) (a b : Int64) : Except Fault Int64 :=
  if Fits (a.toInt.tdiv b.toInt) then .ok (.ofInt (op a.toInt b.toInt)) else .error .trap

/-- the zero test all places have, with the text of its error -/
def guarded (text : String) (op : ℤ → ℤ → ℤ) (a b : Int64) : Except Fault Int64 :=
  if b = 0 then .error (.error text) else machine op a b

/-! ## The places -/

section
variable {ρ : Type} (F : Reals ρ)

/-- the rule `constant '%' constant` -/
def constantMod : Int64 → Int64 → Except Fault Int64 := guarded "Modulo by zero" tmod

/-- the rule `constant '/' constant` -/
def constantDiv : Int64 → Int64 → Except Fault Int64 := guarded "Division by zero" tdiv

/-- the operators of `binary_int_op` -/
inductive IntOp where
  | or | xor | and | lsh | rsh | mod
deriving DecidableEq, Repr

/-- `binary_int_op` of two nodes: `none` is a node for the operator, of other nodes than two numbers -/
def binaryIntOp : Operand ρ → Operand ρ → IntOp → Except Fault (Option Int64)
  | .number l, .number r, op =>
    some <$> match op with
      | .or => .ok (l ||| r)
      | .xor => .ok (l ^^^ r)
      | .and => .ok (l &&& r)
      | .lsh => .ok (l <<< r)
      | .rsh => .ok (l >>> r)
      | .mod => guarded "Modulo by zero constant" tmod l r
  | _, _, _ => .ok none

/-- the division of two operands that are not both numbers; the texts are those of the errors of the three cases -/
def divReals (rr rn nr : String) (bad : Fault) : Operand ρ → Operand ρ → Except Fault ρ
  | .real x, .real y => if F.isZero y then .error (.error rr) else .ok (F.div x y)
  | .real x, .number m => if m = 0 then .error (.error rn) else .ok (F.div x (F.ofNumber m))
  | .number n, .real y => if F.isZero y then .error (.error nr) else .ok (F.div (F.ofNumber n) y)
  | _, _ => .error bad

/-- the rule `expr0 '/' expr0` -/
def foldDivide (l r : Operand ρ) : Except Fault (Option (Operand ρ)) :=
  let text := "Divide by zero in constant"
  match l, r with
  | .number n, .number m => some <$> Operand.number <$> guarded text tdiv n m
  | .other, _ | _, .other => .ok none
  | l, r => some <$> Operand.real <$> divReals F text text text .trap l r

/-- F_DIVIDE -/
def divide : Operand ρ → Operand ρ → Except Fault (Operand ρ)
  | .number n, .number m => .number <$> guarded "*Division by zero." tdiv n m
  | l, r =>
    .real <$> divReals F "*Division by zero." "*Division by zero." "*Division by 0.0"
      (.badArgument (if l matches .other then 1 else 2)) l r

/-- F_MOD -/
def mod : Operand ρ → Operand ρ → Except Fault (Operand ρ)
  | .number n, .number m => .number <$> guarded "*Modulus by zero." tmod n m
  | .number _, _ => .error (.badArgument 2)
  | _, _ => .error (.badArgument 1)

/-- `f_div_eq`: what the variable becomes, and the value of the expression -/
def fDivEq (l r : Operand ρ) : Except Fault (Operand ρ × Operand ρ) :=
  match l, r with
  | .number n, .number m => (fun q => (.number q, .number q)) <$> guarded "Division by 0nn\n" tdiv n m
  | l, r => do
    let text := if r matches .other then "Bad right type to /=\n" else "Bad left type to /=\n"
    let q ← divReals F "Division by 0rr\n" "Division by 0rn\n" "Division by 0nr\n" (.error text) l r
    -- a number divided by a real stays a number, and the value of the expression is that number as a real
    match l with
    | .number _ => .ok (.number (F.truncate q), .real (F.ofNumber (F.truncate q)))
    | _ => .ok (.real q, .real q)

/-- `f_mod_eq`: what the variable becomes, and the value of the expression -/
def fModEq : Operand ρ → Operand ρ → Except Fault (Operand ρ × Operand ρ)
  | .number n, .number m => (fun q => (.number q, .number q)) <$> guarded "Modulo by 0\n" tmod n m
  | .number _, _ => .error (.error "Bad right type to %=\n")
  | _, _ => .error (.error "Bad left type to %=\n")

end

/-- the places that divide -/
inductive Place where
  | constantMod | constantDiv | foldMod | foldDivide | divide | mod | divEq | modEq
deriving DecidableEq, Repr

/-- the operation a place computes -/
def Place.exact : Place → ℤ → ℤ → ℤ
  | .constantDiv | .foldDivide | .divide | .divEq => tdiv
  | .constantMod | .foldMod | .mod | .modEq => tmod

variable {ρ : Type}

/-- place `p` run on two numbers ends in `out`, in all it writes -/
def Place.Gives (F : Reals ρ) (a b : Int64) (out : Except Fault Int64) : Place → Prop
  | .constantMod => Division.constantMod a b = out
  | .constantDiv => Division.constantDiv a b = out
  | .foldMod => binaryIntOp (ρ := ρ) (.number a) (.number b) .mod = some <$> out
  | .foldDivide => Division.foldDivide F (.number a) (.number b) = some <$> Operand.number <$> out
  | .divide => Division.divide F (.number a) (.number b) = Operand.number <$> out
  | .mod => Division.mod (ρ := ρ) (.number a) (.number b) = Operand.number <$> out
  | .divEq => fDivEq F (.number a) (.number b) = (fun q => (.number q, .number q)) <$> out
  | .modEq => fModEq (ρ := ρ) (.number a) (.number b) = (fun q => (.number q, .number q)) <$> out

/-! ## When the quotient fits -/

theorem natAbs_toInt_le (a : Int64) : a.toInt.natAbs ≤ 2 ^ 63 := by
  have := a.le_toInt
  have := a.toInt_lt
  omega

/-- the quotient of two numbers is a number but for the least number divided by -1 -/
theorem fits_tdiv_iff (a b : Int64) : Fits (a.toInt.tdiv b.toInt) ↔ ¬(a = Int64.minValue ∧ b = -1) := by
  constructor
  · rintro h ⟨rfl, rfl⟩
    exact absurd h (by decide)
  · intro h
    have ha := natAbs_toInt_le a
    have hq : (a.toInt.tdiv b.toInt).natAbs ≤ a.toInt.natAbs := natAbs_tdiv_le_natAbs _ _
    -- only 2 ^ 63 itself is too large, and that takes all of the dividend
    suffices hne : a.toInt.tdiv b.toInt ≠ 2 ^ 63 by
      unfold Fits
      omega
    intro hbig
    have hle := a.toInt_lt
    have hmul : 2 ^ 63 * b.toInt.natAbs ≤ a.toInt.natAbs := by
      have := natAbs_tdiv a.toInt b.toInt
      rw [hbig] at this
      exact (congrArg (· * b.toInt.natAbs) this).trans_le (Nat.div_mul_le_self _ _)
    have hb1 : b.toInt = -1 := by
      rcases (show b.toInt = 0 ∨ b.toInt = 1 ∨ b.toInt = -1 by omega) with hb | hb | hb
      · rw [hb, Int.tdiv_zero] at hbig
        omega
      · rw [hb, Int.tdiv_one] at hbig
        omega
      · exact hb
    have ha1 : a.toInt = -2 ^ 63 := by
      omega
    exact h ⟨Int64.toInt_inj.1 ha1, Int64.toInt_inj.1 hb1⟩

theorem gives_guarded (F : Reals ρ) (p : Place) (a b : Int64) (hb : b ≠ 0) (out : Except Fault Int64)
    (h : machine p.exact a b = out) : p.Gives F a b out := by
  subst h
  cases p <;> simp [Place.Gives, Division.constantMod, Division.constantDiv, binaryIntOp, Division.foldDivide,
    Division.divide, Division.mod, fDivEq, fModEq, guarded, hb, Place.exact]

/-- **Division.** A place whose zero test has passed gives the exact quotient or remainder, unless the least number is
divided by -1; that traps. -/
theorem division_defined_iff (F : Reals ρ) (p : Place) (a b : Int64) (hb : b ≠ 0) :
    (Fits (a.toInt.tdiv b.toInt) ↔ ¬(a = Int64.minValue ∧ b = -1)) ∧
      p.Gives F a b (if a = Int64.minValue ∧ b = -1 then .error .trap else .ok (.ofInt (p.exact a.toInt b.toInt))) := by
  refine ⟨fits_tdiv_iff a b, gives_guarded F p a b hb _ ?_⟩
  unfold machine
  by_cases h : a = Int64.minValue ∧ b = -1
  · rw [if_neg (fun hf => (fits_tdiv_iff a b).1 hf h), if_pos h]
  · rw [if_pos ((fits_tdiv_iff a b).2 h), if_neg h]

/-- no floating point: the witnesses divide numbers only -/
def noReals : Reals Unit := ⟨fun _ => false, fun _ _ => (), fun _ => (), fun _ => 0⟩

theorem division_seven_two :
    Place.divide.Gives noReals (-7) 2 (.ok (-3)) ∧ Place.modEq.Gives noReals (-7) 2 (.ok (-1)) :=
  ⟨(division_defined_iff noReals .divide (-7) 2 (by decide)).2,
    (division_defined_iff noReals .modEq (-7) 2 (by decide)).2⟩

theorem least_by_minus_one_traps : Int64.minValue.toInt = -2 ^ 63 ∧
      Place.divide.Gives noReals Int64.minValue (-1) (.error .trap) ∧
      Place.modEq.Gives noReals Int64.minValue (-1) (.error .trap) ∧
      Place.foldMod.Gives noReals Int64.minValue (-1) (.error .trap) :=
  ⟨by decide, rfl, rfl, rfl⟩

end Lithos.Lpc.Division
