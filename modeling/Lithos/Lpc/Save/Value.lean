/-
The values and bytes of the save format (`object.c`).

A value is a tree (`Svalue`). The format never sees sharing, reference counts or addresses, so containers are lists; a
mapping is the list of its nodes in the order in which `save_svalue` walks its table, from the last bucket to the
first. Objects, functions and buffers are one case (`other`): they are saved as nothing. Reals are a parameter with the
three operations the format needs of the C library (`Double`).

Memory is a list of bytes (`Mem`): the text, its terminating NUL and whatever lies behind it. A read past the end of
the list is a fault, not a byte.
-/
import Lithos.Lpc.Types

namespace Lithos.Lpc.Save

/-! ## Bytes -/

abbrev Mem := List Byte

def nul : Byte := 0
def newline : Byte := 10
def cr : Byte := 13
def quote : Byte := 34
def lparen : Byte := 40
def rparen : Byte := 41
def plus : Byte := 43
def comma : Byte := 44
def minus : Byte := 45
def dot : Byte := 46
def slash : Byte := 47
def digit0 : Byte := 48
def digit9 : Byte := 57
def colon : Byte := 58
def lbracket : Byte := 91
def backslash : Byte := 92
def rbracket : Byte := 93
def letterE : Byte := 101
def lbrace : Byte := 123
def rbrace : Byte := 125

def isDigit (c : Byte) : Bool := digit0 ≤ c && c ≤ digit9

/-! ## Values -/

/-- what the format takes from the C library's doubles: `snprintf "%g"`, the double that the digits read by
`parse_numeric` stand for (sign, integer digits as an `int`, fraction digits, exponent), and the bits of a key -/
class Double (ρ : Type) where
  fmtG : ρ → List Byte
  decimal : Bool → Int32 → List ℕ → Option (Bool × Int32) → ρ
  word : ρ → Int64

inductive Svalue (ρ : Type) where
  | number (n : Int64)
  | real (r : ρ)
  | string (s : List Byte)
  | array (items : List (Svalue ρ))
  | class_ (items : List (Svalue ρ))
  | mapping (nodes : List (Svalue ρ × Svalue ρ))
  | other

variable {ρ : Type}

variable {P : Svalue ρ → Prop}

/-- induction over a value, with the hypothesis for every item, key and value it holds -/
theorem Svalue.induction (number : ∀ n, P (.number n)) (real : ∀ r, P (.real r))
    (string : ∀ s, P (.string s)) (array : ∀ l, (∀ v ∈ l, P v) → P (.array l))
    (class_ : ∀ l, (∀ v ∈ l, P v) → P (.class_ l))
    (mapping : ∀ l, (∀ p ∈ l, P p.1 ∧ P p.2) → P (.mapping l)) (other : P .other) (v : Svalue ρ) : P v := by
  refine @Svalue.rec ρ P (fun l => ∀ v ∈ l, P v) (fun l => ∀ p ∈ l, P p.1 ∧ P p.2) (fun p => P p.1 ∧ P p.2)
    number real string array class_ mapping other ?_ ?_ ?_ ?_ ?_ v
  · simp
  · exact fun v l hv hl => List.forall_mem_cons.2 ⟨hv, hl⟩
  · simp
  · exact fun p l hp hl => List.forall_mem_cons.2 ⟨hp, hl⟩
  · exact fun k v hk hv => ⟨hk, hv⟩

/-- runtime type of a value; an object stands for everything that is saved as nothing -/
def Svalue.type : Svalue ρ → SvType
  | .number _ => .number
  | .real _ => .real
  | .string _ => .string
  | .array _ => .array
  | .class_ _ => .class_
  | .mapping _ => .mapping
  | .other => .object

/-! ## Conditions on every part of a value -/

mutual

/-- the value and everything in it satisfies `P` -/
def Svalue.All (P : Svalue ρ → Prop) : Svalue ρ → Prop
  | .array l => P (.array l) ∧ AllItems P l
  | .class_ l => P (.class_ l) ∧ AllItems P l
  | .mapping l => P (.mapping l) ∧ AllNodes P l
  | .number n => P (.number n)
  | .real r => P (.real r)
  | .string s => P (.string s)
  | .other => P .other

def AllItems (P : Svalue ρ → Prop) : List (Svalue ρ) → Prop
  | [] => True
  | v :: l => v.All P ∧ AllItems P l

def AllNodes (P : Svalue ρ → Prop) : List (Svalue ρ × Svalue ρ) → Prop
  | [] => True
  | (k, v) :: l => k.All P ∧ v.All P ∧ AllNodes P l

end

theorem allItems_iff {l : List (Svalue ρ)} : AllItems P l ↔ ∀ v ∈ l, v.All P := by
  induction l with
  | nil => simp [AllItems]
  | cons v l ih => rw [AllItems, List.forall_mem_cons, ih]

theorem allNodes_iff {l : List (Svalue ρ × Svalue ρ)} : AllNodes P l ↔ ∀ p ∈ l, p.1.All P ∧ p.2.All P := by
  induction l with
  | nil => simp [AllNodes]
  | cons p l ih => rw [AllNodes, List.forall_mem_cons, ih, and_assoc]

theorem Svalue.All.imp {Q : Svalue ρ → Prop} (h : ∀ v, P v → Q v) (v : Svalue ρ) : v.All P → v.All Q := by
  induction v using Svalue.induction with
  | number n | real r | string s | other => exact h _
  | array l ih | class_ l ih =>
    simp only [Svalue.All, allItems_iff]
    exact fun ⟨h1, h2⟩ => ⟨h _ h1, fun v hv => ih v hv (h2 v hv)⟩
  | mapping l ih =>
    simp only [Svalue.All, allNodes_iff]
    exact fun ⟨h1, h2⟩ => ⟨h _ h1, fun p hp => ⟨(ih p hp).1 (h2 p hp).1, (ih p hp).2 (h2 p hp).2⟩⟩

/-- a condition on integers -/
def OnNumber (Q : Int64 → Prop) : Svalue ρ → Prop
  | .number n => Q n
  | _ => True

/-- a condition on reals -/
def OnReal (Q : ρ → Prop) : Svalue ρ → Prop
  | .real r => Q r
  | _ => True

/-- a condition on the nodes of mappings -/
def OnMapping (Q : List (Svalue ρ × Svalue ρ) → Prop) : Svalue ρ → Prop
  | .mapping l => Q l
  | _ => True

/-! ## Sizes -/

/-- the number a container's slot in the size buffer holds: its items, or its keys and values counted apart -/
def Svalue.slotSize : Svalue ρ → ℕ
  | .array l => l.length
  | .class_ l => l.length
  | .mapping l => 2 * l.length
  | _ => 0

mutual

/-- the slot sizes of a value's containers in the order in which they open, the value itself included -/
def sizesOf : Svalue ρ → List ℕ
  | .array l => l.length :: itemSizes l
  | .class_ l => l.length :: itemSizes l
  | .mapping l => 2 * l.length :: pairSizes l
  | .number _ => []
  | .real _ => []
  | .string _ => []
  | .other => []

def itemSizes : List (Svalue ρ) → List ℕ
  | [] => []
  | v :: l => sizesOf v ++ itemSizes l

def pairSizes : List (Svalue ρ × Svalue ρ) → List ℕ
  | [] => []
  | (k, v) :: l => sizesOf k ++ sizesOf v ++ pairSizes l

end

end Lithos.Lpc.Save
