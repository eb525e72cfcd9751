/-
The parsing pass of `restore_svalue` (`parse_numeric`, `unquote_and_unescape_string`, `restore_array`,
`restore_class`, `restore_mapping`, `restore_svalue`, `safe_restore_svalue`).

The parser reads a container's elements where the sizing pass has left their number. The three container functions
call each other; here they take the function for the containers inside them as a parameter (`nested`), and
`restoreContainer` ties the knot with fuel for the nesting depth. Signed overflow wraps.

`restore_mapping` repeats the loop of `find_for_insert` on a table nobody else sees yet; it is modelled by the mapping
model's insertion, with the address of a key (`Env.strAddr` for shared strings, `Env.objAddr` for the containers this
call allocates) as its union word. `Parsed.log` is a ghost: for every container the size it was given and the number of
elements it read, in the order in which the containers open.
-/
import Lithos.Lpc.MappingRefine
import Lithos.Lpc.Save.Scanner

namespace Lithos.Lpc.Save

open Lithos.Lpc.Mapping (MapKey MappingT MapError allocateMapping)

/-! ## Outcomes -/

/-- the error codes a restore function returns -/
inductive Rob where
  | string
  | array
  | mapping
  | numeral
  | general
  | class_
deriving DecidableEq, Repr

/-- how a restore can end without a value: an error code, an LPC error raised on the way, or a read outside memory -/
inductive Fail where
  | rob (code : Rob)
  | illegalArraySize
  | raised (e : MapError)
  | fault
deriving DecidableEq, Repr

/-- what the parser finds around it: the limits, the address of a shared string, the addresses of the containers it
allocates, and what an uninitialised number holds -/
structure Env where
  cfg : Config
  strAddr : List Byte → Int64
  objAddr : ℕ → Int64
  junk : Int64

/-- the size buffer and the number of containers allocated as mapping keys -/
structure St where
  sizes : Sizes
  allocs : ℕ

structure Parsed (α : Type) where
  val : α
  log : List (ℕ × ℕ)
  mem : Mem
  st : St

/-- `*cp++` -/
def next : Mem → Except Fail (Byte × Mem)
  | [] => .error .fault
  | c :: m => .ok (c, m)

/-! ## Numbers and strings -/

def digitVal (c : Byte) : Int32 := Int32.ofNat (c.toNat - 48)

/-- read digits into an `int`; the byte that stops them is consumed -/
def readInt (res : Int32) : Mem → Except Fail (Int32 × Byte × Mem)
  | [] => .error .fault
  | c :: m => if isDigit c then readInt (res * 10 + digitVal c) m else .ok (res, c, m)

/-- the digits after a decimal point -/
def readFraction : Mem → Except Fail (List ℕ × Byte × Mem)
  | [] => .error .fault
  | c :: m =>
    if isDigit c then
      match readFraction m with
      | .ok (ds, e, m') => .ok ((c.toNat - 48) :: ds, e, m')
      | .error e => .error e
    else .ok ([], c, m)

/-- a signed exponent -/
def readExponent (m : Mem) : Except Fail ((Bool × Int32) × Mem) := do
  let (c, m) ← next m
  if c = plus ∨ c = minus then
    let (e, _, m) ← readInt 0 m
    .ok ((c == minus, e), m)
  else .error (.rob .numeral)

section Values

variable {ρ : Type} [Double ρ]

/-- the first digit: behind the sign if there is one -/
def firstDigit (neg : Bool) (c : Byte) (m : Mem) : Except Fail (Byte × Mem) := if neg then next m else .ok (c, m)

/-- `parse_numeric` from the first digit on -/
def parseDigits (neg : Bool) (c : Byte) (m : Mem) : Except Fail (Svalue ρ × Mem) := do
  let (res, c, m) ← readInt (digitVal c) m
  if c = dot then
    let (c, m) ← next m
    if !isDigit c then .error (.rob .numeral)
    else
      let (frac, c', m) ← readFraction (c :: m)
      if c' = letterE then
        let (expo, m) ← readExponent m
        .ok (.real (Double.decimal neg res frac (some expo)), m)
      else .ok (.real (Double.decimal neg res frac none), m)
  else if c = letterE then
    let (expo, m) ← readExponent m
    .ok (.real (Double.decimal neg res [] (some expo)), m)
  else .ok (.number (if neg then -res else res).toInt64, m)

/-- `parse_numeric`: `c` is the first character, already read -/
def parseNumeric (c : Byte) (m : Mem) : Except Fail (Svalue ρ × Mem) := do
  let neg := c == minus
  let (c, m) ← firstDigit neg c m
  if neg && !isDigit c then .error (.rob .numeral) else parseDigits neg c m

/-- a carriage return stands for a newline -/
def unCr (c : Byte) : Byte := if c = cr then newline else c

/-- `unquote_and_unescape_string`: the string up to the closing quote, and what follows the quote -/
def unquoteAndUnescapeString : Mem → Except Fail (List Byte × Mem)
  | [] => .error .fault
  | c :: m =>
    if c = quote then .ok ([], m)
    else if c = nul then .error (.rob .string)
    else if c = backslash then
      match m with
      | [] => .error .fault
      | d :: m' =>
        if d = nul then .error (.rob .string)
        else (unquoteAndUnescapeString m').map fun r => (unCr d :: r.1, r.2)
    else (unquoteAndUnescapeString m).map fun r => (unCr c :: r.1, r.2)

/-- the longest shared string -/
def hardLimit (cfg : Config) : ℕ := if cfg.maxStringLength ≥ 65535 then 65534 else cfg.maxStringLength

/-! ## Containers -/

/-- where an element stands -/
inductive Place where
  | array
  | class_
  | key
  | value
deriving DecidableEq, Repr

/-- the code of an element that is none -/
def Place.code : Place → Rob
  | .array => .array
  | .class_ => .class_
  | .key => .mapping
  | .value => .mapping

/-- the code of an element that is an unterminated string: mappings pass it on, the others replace it -/
def Place.stringCode : Place → Rob
  | .array => .array
  | .class_ => .class_
  | .key => .string
  | .value => .string

/-- the delimiter that stands for a missing element, which reads as zero -/
def Place.delim : Place → Byte
  | .key => colon
  | _ => comma

/-- the parser of a container that opens with the given bracket -/
abbrev Nested (ρ : Type) := Byte → Mem → St → Except Fail (Parsed (Svalue ρ))

/-- one element, whose first character `c` has been read: the `switch` of the three container functions -/
def restoreElement (env : Env) (nested : Nested ρ) (p : Place) (c : Byte) (m : Mem) (st : St) :
    Except Fail (Parsed (Svalue ρ)) :=
  if c = quote then
    match unquoteAndUnescapeString m with
    | .ok (s, m') => .ok ⟨.string (if p = .key then s.take (hardLimit env.cfg) else s), [], m'.drop 1, st⟩
    | .error (.rob _) => .error (.rob p.stringCode)
    | .error e => .error e
  else if c = lparen then
    match m with
    | [] => .error .fault
    | d :: m' =>
      if d = lbracket ∨ d = lbrace ∨ d = slash then
        (nested d m' { st with sizes := { st.sizes with depth := st.sizes.depth + 1 } }).map fun r =>
          { r with mem := r.mem.drop 1 }
      else .error (.rob p.code)
  else if c = p.delim then .ok ⟨.number 0, [], m, st⟩
  else if c = minus ∨ isDigit c then (parseNumeric c m).map fun r => ⟨r.1, [], r.2, st⟩
  else .error (.rob p.code)

/-- the loop of `restore_array` and `restore_class` -/
def restoreElements (env : Env) (nested : Nested ρ) (p : Place) : ℕ → Mem → St → Except Fail (Parsed (List (Svalue ρ)))
  | 0, m, st => .ok ⟨[], [], m, st⟩
  | n + 1, m, st => do
    let (c, m) ← next m
    let r ← restoreElement env nested p c m st
    let rs ← restoreElements env nested p n r.mem r.st
    .ok ⟨r.val :: rs.val, r.log ++ rs.log, rs.mem, rs.st⟩

/-- a key as the table sees it -/
structure RKey (ρ : Type) where
  word : Int64
  value : Svalue ρ

instance : MapKey (RKey ρ) := ⟨fun k => k.value.type, RKey.word⟩

/-- the union word of a restored key, and the allocations after it -/
def keyWord (env : Env) (allocs : ℕ) : Svalue ρ → Int64 × ℕ
  | .number n => (n, allocs)
  | .real r => (Double.word r, allocs)
  | .string s => (env.strAddr s, allocs)
  | _ => (env.objAddr allocs, allocs + 1)

/-- the nodes of a table in the order in which `save_svalue` walks it -/
def walk (m : MappingT (RKey ρ) (Svalue ρ)) : List (Svalue ρ × Svalue ρ) :=
  m.table.reverse.flatten.map fun p => (p.1.value, p.2)

/-- the loop of `restore_mapping`: pairs up to the closing bracket, each put into the table -/
def restorePairs (env : Env) (nested : Nested ρ) :
    ℕ → MappingT (RKey ρ) (Svalue ρ) → Mem → St → Except Fail (Parsed (MappingT (RKey ρ) (Svalue ρ) × ℕ))
  | 0, _, _, _ => .error .fault
  | fuel + 1, t, m, st => do
    let (c, m) ← next m
    if c = rbracket then .ok ⟨(t, 0), [], m.drop 1, st⟩
    else
      let k ← restoreElement env nested .key c m st
      let (c', m) ← next k.mem
      let v ← restoreElement env nested .value c' m k.st
      let (w, allocs) := keyWord env v.st.allocs k.val
      match Mapping.insert env.cfg (.number 0) false t ⟨w, k.val⟩ (some v.val) with
      | .error e => .error (.raised e)
      | .ok t' =>
        let r ← restorePairs env nested fuel t' v.mem { v.st with allocs := allocs }
        .ok ⟨(r.val.1, r.val.2 + 1), k.log ++ v.log ++ r.log, r.mem, r.st⟩

/-- the body of a container of known size -/
def restoreBody (env : Env) (nested : Nested ρ) (d : Byte) (size : ℕ) (m : Mem) (st : St) :
    Except Fail (Parsed (Svalue ρ)) :=
  if d = lbracket then
    if size = 0 then .ok ⟨.mapping [], [(0, 0)], m.drop 2, st⟩
    else
      (restorePairs env nested (m.length + 1) (allocateMapping env.cfg (size / 2)) m st).map fun r =>
        ⟨.mapping (walk r.val.1), (size, 2 * r.val.2) :: r.log, r.mem, r.st⟩
  else if d = lbrace then
    if size > env.cfg.maxArraySize then .error .illegalArraySize
    else
      (restoreElements env nested .array size m st).map fun r =>
        ⟨.array r.val, (size, r.val.length) :: r.log, r.mem.drop 2, r.st⟩
  else
    (restoreElements env nested .class_ size m st).map fun r =>
      ⟨.class_ r.val, (size, r.val.length) :: r.log, r.mem.drop 2, r.st⟩

/-- a container inside another: its size is in the slot of the current depth -/
def restoreContainer (env : Env) : ℕ → Nested ρ
  | 0 => fun _ _ _ => .error .fault
  | fuel + 1 => fun d m st =>
    match st.sizes.slots[st.sizes.depth - 1]? with
    | none => .error .fault
    | some size => restoreBody env (restoreContainer env fuel) d size m st

/-- the outermost container: sized first, unless an LPC error in an earlier call has left the depth above 0, when its size
is taken from the slots; a mapping whose sizing fails returns without touching the target -/
def restoreOutermost (env : Env) (entry : Sizes) (d : Byte) (m : Mem) :
    Except Fail (Option (Parsed (Svalue ρ)) × Sizes) :=
  if entry.depth ≠ 0 then
    (restoreContainer env (m.length + 1) d m ⟨entry, 0⟩).map fun r => (some r, r.st.sizes)
  else
    match restoreSize (m.length + 1) m (d == lbracket) false 0 entry with
    | .fault => .error .fault
    | .bad st =>
      if d = lbracket then .ok (none, st) else .error (.rob (if d = lbrace then .array else .class_))
    | .size n st =>
      (restoreBody env (restoreContainer env (m.length + 1)) d n m ⟨st, 0⟩).map fun r => (some r, r.st.sizes)

/-- the buffer is given back when a container inside was counted -/
def resetSizes (st : Sizes) : Sizes := if st.depth ≠ 0 then ⟨0, []⟩ else st

/-- a string as the whole text -/
def restoreString (m : Mem) : Except Fail (List Byte) := do
  let (s, m) ← unquoteAndUnescapeString m
  let (c, _) ← next m
  if c ≠ nul then .error (.rob .string) else .ok s

/-- the `switch` of `restore_svalue` and `safe_restore_svalue`: the value (`none`: the target is not touched) and the
size buffer left behind -/
def restoreValue (env : Env) (entry : Sizes) (m : Mem) : Except Fail (Option (Svalue ρ) × Sizes) := do
  let (c, m) ← next m
  if c = quote then
    let s ← restoreString m
    .ok (some (.string s), entry)
  else if c = lparen then
    let (d, m) ← next m
    if d = lbrace ∨ d = lbracket ∨ d = slash then
      let (r, st) ← restoreOutermost env entry d m
      .ok (r.map Parsed.val, resetSizes st)
    else .error (.rob .general)
  else if c = minus ∨ isDigit c then
    let (v, _) ← parseNumeric c m
    .ok (some v, entry)
  else .ok (some (.number 0), entry)

/-- `restore_svalue` into a variable that holds `old`, called with `save_svalue_depth` 0 -/
def restoreSvalue (env : Env) (slots : List ℕ) (old : Svalue ρ) (m : Mem) : Except Fail (Svalue ρ × List ℕ) :=
  (restoreValue env ⟨0, slots⟩ m).map fun r => (r.1.getD old, r.2.slots)

/-- `safe_restore_svalue`: the outcome and the target afterwards; a value that was not touched is an uninitialised
number -/
def safeRestoreSvalue (env : Env) (entry : Sizes) (m : Mem) (target : Svalue ρ) : Except Fail Sizes × Svalue ρ :=
  match restoreValue env entry m with
  | .ok (v, st) => (.ok st, v.getD (.number env.junk))
  | .error e => (.error e, target)

end Values

end Lithos.Lpc.Save
