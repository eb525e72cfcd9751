/-
Integer switches: sorting the cases (`case_compare`, `prepare_cases` in `compiler.c`), the table in the program
(`i_generate_node` in `icode.c`) and its lookup (`f_switch` in `operator.c`).

A switch is its cases in source order, each with the program address of its code, and the code around it. The cases are
sorted by a comparison that cuts a 64-bit difference to an `int`. Labels that are consecutive numbers get a table of
addresses that the value indexes; all others get a table of keys and addresses that is searched by bisection, where a
range takes two entries, the first with 1 in place of an address. Addresses are unsigned shorts, keys 64-bit numbers.
The table of a string switch has the addresses of the interned strings for keys and is searched in the same way; how its
cases are sorted is not modelled. Reading outside the program has no result.
-/
import Lithos.Core.Bytes
import Lithos.Core.QuickSort
import Lithos.Lpc.Types

namespace Lithos.Lpc.Program.Switch

open Lithos.Core.Bytes Lithos.Core.QuickSort

/-- a number cut to an `int` -/
def toInt (x : ℤ) : ℤ := x.bmod (2 ^ 32)

/-! ## The cases -/

/-- `case lo:` or `case lo .. hi:`, and the address its code starts at -/
structure Label where
  lo : ℤ
  hi : Option ℤ
  addr : ℕ
  deriving DecidableEq, Repr

/-- the parse nodes of a switch: the default and the labels -/
inductive CaseNode where
  | default (addr : ℕ)
  | label (l : Label)
  deriving DecidableEq, Repr, Inhabited

def CaseNode.label? : CaseNode → Option Label
  | .default _ => none
  | .label l => some l

inductive SwitchKind where
  | strings
  | numbers
  | ranges
  | direct
  deriving DecidableEq, Repr

/-- the kind the parser gives a switch: `ranges` if one of its labels is a range -/
def switchKind (ls : List Label) : SwitchKind := if ls.any (·.hi.isSome) then .ranges else .numbers

/-- `case_compare` -/
def caseCompare : CaseNode → CaseNode → ℤ
  | .default _, _ => -1
  | _, .default _ => 1
  | .label a, .label b => toInt (a.lo - b.lo)

/-- the loop of `prepare_cases` behind the first label: whether the labels are consecutive numbers; no result if two
cases overlap, which is an error -/
def checkCases (kind : SwitchKind) : ℤ → Bool → List Label → Option Bool
  | _, direct, [] => some direct
  | lastKey, direct, l :: ls =>
    let thisKey := toInt l.lo
    if kind = .ranges ∧ thisKey ≤ lastKey then none
    else
      match l.hi with
      | some hi => checkCases kind (toInt hi) false ls
      | none => checkCases kind thisKey (direct && decide (toInt (lastKey + 1) = thisKey)) ls

/-- what `prepare_cases` leaves: the kind, the address of the default and the chain of labels -/
structure Prepared where
  kind : SwitchKind
  default? : Option ℕ
  chain : List Label
  deriving DecidableEq, Repr

/-- `prepare_cases` behind the default -/
def prepareLabels (kind : SwitchKind) (default? : Option ℕ) : List Label → Option Prepared
  | [] => some ⟨kind, default?, []⟩
  | l :: ls =>
    let first := match l.hi with
      | some hi => checkCases kind (toInt hi) false ls
      | none => checkCases kind (toInt l.lo) true ls
    first.map fun direct => ⟨if direct && kind = .numbers then .direct else kind, default?, l :: ls⟩

/-- `prepare_cases` -/
def prepareCases (cases : List CaseNode) : Option Prepared :=
  let kind := switchKind (cases.filterMap CaseNode.label?)
  match quickSort (fun a b => decide (caseCompare a b < 0)) cases with
  | .default addr :: rest => prepareLabels kind (some addr) (rest.filterMap CaseNode.label?)
  | sorted => prepareLabels kind none (sorted.filterMap CaseNode.label?)

/-! ## The table -/

/-- the code around a switch: what is before it, its body (with the breaks filled in) and two opcodes -/
structure Code where
  before : List Byte
  body : List Byte
  opSwitch : Byte
  opBranch : Byte

/-- the entries of the searched table; 1 marks the lower end of a range -/
def entries (chain : List Label) : List (ℤ × ℕ) :=
  chain.flatMap fun l => match l.hi with
    | none => [(l.lo, l.addr)]
    | some hi => [(l.lo, 1), (hi, l.addr)]

def storeShort (n : ℕ) : List Byte := store 2 n

/-- `ins_int` -/
def storeInt (k : ℤ) : List Byte := store 4 (k % 2 ^ 32).toNat

/-- `ins_intptr` -/
def storePtr (k : ℤ) : List Byte := store 8 (k % 2 ^ 64).toNat

def storeEntry (e : ℤ × ℕ) : List Byte := storePtr e.1 ++ storeShort e.2

/-- the kind byte of a searched table: the power of 2 in its size is in the high half for strings -/
def kindByte (kind : SwitchKind) (i : ℕ) : ℕ := if kind = .strings then i * 0x10 + 0x0f else 0xf0 + i

/-- the kind byte and the bytes of the table; the numbers of string labels are the addresses of the strings -/
def table (p : Prepared) : ℕ × List Byte :=
  match p.kind, p.chain with
  | .direct, l :: ls => (0xfe, (l :: ls).flatMap (fun l => storeShort l.addr) ++ storeInt l.lo)
  | kind, chain => (kindByte kind (Nat.log2 (entries chain).length), (entries chain).flatMap storeEntry)

/-- the code of a switch: the three addresses and the branch behind the body are emitted as 0 and filled in -/
def generateSwitch (c : Code) (p : Prepared) : List Byte :=
  let addr := c.before.length + 2
  let code := c.before ++ [c.opSwitch, 0xff] ++ storeShort 0 ++ storeShort 0 ++ storeShort 0 ++ c.body
  let code := patch code (addr + 4) 2 (p.default?.getD code.length)
  let lastBreak := code.length + 1
  let code := code ++ [c.opBranch] ++ storeShort 0
  let code := patch code addr 2 code.length
  let code := code ++ (table p).2
  let code := patch code (addr - 1) 1 (table p).1
  let code := patch code lastBreak 2 (code.length - lastBreak)
  patch code (addr + 2) 2 code.length

/-! ## `f_switch` -/

/-- how a program is read: the number in the bytes from a place on, as many as are asked for, where they can be read -/
abbrev Reader := ℕ → ℕ → Option ℕ

/-- a key or a bound: 8 bytes as a signed number -/
def fetchPtr (read : Reader) (pos : ℕ) : Option ℤ := (read pos 8).map fun n => (n : ℤ).bmod (2 ^ 64)

/-- `SWITCH_CASE_SIZE` -/
def caseSize : ℕ := 10

/-- a short at a computed place -/
def fetchShort (read : Reader) (pos : ℤ) : Option ℕ := if pos < 0 then none else read pos.toNat 2

/-- the address at `pos`, or, if that is 0, the `i`-th one of a lookup table -/
def rangeTarget (read : Reader) (pos : ℕ) (i : ℤ) : Option ℕ :=
  (read pos 2).bind fun offset => if offset = 0 then fetchShort read (offset + i * 2) else some offset

/-- back into the table, when a step to the right leaves it -/
def fixUp (endTab l d : ℕ) : ℕ × ℕ :=
  if l < endTab then (l, d)
  else if d / 2 < caseSize then (l, 0)
  else fixUp endTab (l - d / 2) (d / 2)
termination_by d
decreasing_by
  unfold caseSize at *
  omega

theorem fixUp_le (endTab l d : ℕ) : (fixUp endTab l d).2 ≤ d := by
  fun_induction fixUp endTab l d with
  | case1 => exact le_rfl
  | case2 => exact Nat.zero_le _
  | case3 l d _ _ ih => omega

/-- the bisection: `l` is the entry looked at, `d` the size of the next step -/
def searchLoop (read : Reader) (endTab : ℕ) (default? : Option ℕ) (s : ℤ) (l d : ℕ) : Option ℕ :=
  (fetchPtr read l).bind fun r =>
    if s < r then
      if d < caseSize then
        -- the entry may be the upper end of a range
        (read (l - 2) 2).bind fun type =>
          if type ≤ 1 then
            (fetchPtr read (l - caseSize)).bind fun r =>
              if r ≤ s then rangeTarget read (l + 8) (s - r) else default?
          else default?
      else searchLoop read endTab default? s (l - d) (d / 2)
    else if r < s then
      if d < caseSize then
        -- the entry may be the lower end of a range
        (read (l + 8) 2).bind fun type =>
          if type ≤ 1 then
            (fetchPtr read (l + caseSize)).bind fun r =>
              if s ≤ r then rangeTarget read (l + caseSize + 8) (s - r) else default?
          else default?
      else if (fixUp endTab (l + d) d).1 = endTab then default?
      else searchLoop read endTab default? s (fixUp endTab (l + d) d).1 ((fixUp endTab (l + d) d).2 / 2)
    else
      (read (l + 8) 2).bind fun offset =>
        (read (l - 2) 2).bind fun type =>
          -- the end of a range with a lookup table moves `l` there
          (if type = 0 then
            (fetchPtr read (l - caseSize)).bind fun r =>
              (fetchShort read (offset + (s - r) * 2)).map fun o => (o, (offset + (s - r) * 2).toNat)
          else some (offset, l)).bind fun ol =>
            if ol.1 ≤ 1 then rangeTarget read (ol.2 + caseSize + 8) 0 else some ol.1
termination_by d
decreasing_by
  · unfold caseSize at *
    omega
  · unfold caseSize at *
    have := fixUp_le endTab (l + d) d
    omega

/-- the table of addresses: the smallest label stands behind it, the index is twice the distance to it -/
def lookupDirect (read : Reader) (offset endTab : ℕ) (default? : Option ℕ) (s : ℤ) : Option ℕ :=
  (read (endTab - 4) 4).bind fun n =>
    let d := toInt n
    let i := ((s - d) * 2).bmod (2 ^ 64)
    if d ≤ s ∧ offset + i < endTab - 4 then
      (fetchShort read (offset + i)).bind fun offset => if offset = 0 then default? else some offset
    else default?

/-- the lookup in a table of the kind `i` -/
def lookup (read : Reader) (pc offset endOff i : ℕ) (s : ℤ) : Option ℕ :=
  if i = 14 then lookupDirect read offset endOff (read (pc + 5) 2) s
  else if i = 15 then none
  else
    let step := (2 ^ i * caseSize) / 2
    searchLoop read endOff (read (pc + 5) 2) s (offset + (2 ^ i - 1) * caseSize) (if step < caseSize then 0 else step)

/-- what a switch is given: a number, or a string, whose address is known if it is interned -/
inductive Value where
  | number (n : ℤ)
  | string (address? : Option ℤ)
  deriving DecidableEq, Repr

/-- `f_switch`: where the program goes on. `pc` is behind the opcode; a value of the wrong type is an error, and a string
that is not interned takes the default at once. -/
def fSwitch (read : Reader) (pc : ℕ) (v : Value) : Option ℕ :=
  (read (pc + 1) 2).bind fun offset => (read (pc + 3) 2).bind fun endOff =>
    (read pc 1).bind fun type =>
      if type / 16 ≠ 15 then
        match v with
        | .number n => if n = 0 then lookup read pc offset endOff (type / 16) 0 else none
        | .string none => read (pc + 5) 2
        | .string (some a) => lookup read pc offset endOff (type / 16) a
      else
        match v with
        | .number s => lookup read pc offset endOff (type % 16) s
        | .string _ => none

end Lithos.Lpc.Program.Switch
