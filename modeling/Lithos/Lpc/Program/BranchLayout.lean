/-
Where the branches of a parse tree belong.

`shape` reads a parse tree as structured code: straight code, branches over a piece of code, alternatives, chains,
loops, jumps out. `lay` says where the code of a shape ends, given where it starts and the series of pushes that is
open there, and `sites` are its branch instructions, each with the address that the construct designates: behind a
skipped piece, the other alternative, the test or the start of a loop, the place a `break` or a `continue` leads to.
Nothing here depends on the bytes that the generator writes.

`fits` is the condition under which the generator finds its way back through the chain of pending branches: a branch
that has another one pending inside has its offset below 32768.
-/
import Lithos.Lpc.Program.Branch

namespace Lithos.Lpc.Program.Branch

/-! ## Places in the code -/

/-- how far the code has been written, and the open series of pushes -/
structure Cursor where
  size : ℕ
  pushState : ℕ
  pushStart : ℕ
  deriving DecidableEq, Repr

def Gen.cursor (g : Gen) : Cursor := ⟨g.size, g.pushState, g.pushStart⟩

namespace Cursor

/-- the series of pushes ends -/
def cut (c : Cursor) : Cursor := { c with pushState := 0 }

/-- an instruction of `n` bytes -/
def emit (n : ℕ) (c : Cursor) : Cursor := ⟨c.size + n, 0, c.pushStart⟩

def push (kind : PushKind) (value : ℕ) (c : Cursor) : Cursor :=
  if c.pushState = 0 then ⟨c.size + (firstPush kind value).length, 1, c.size⟩
  else if c.pushState = 1 then ⟨c.pushStart + 4, 2, c.pushStart + 1⟩
  else ⟨c.size + 1, if c.pushState = 254 then 0 else c.pushState + 1, c.pushStart⟩

def cutIf (b : Bool) (c : Cursor) : Cursor := if b then c.cut else c

/-- the code before this place is not written again, offsets of branches apart -/
def settled (c : Cursor) : ℕ := if c.pushState = 0 then c.size else c.pushStart

structure Ok (c : Cursor) : Prop where
  start_lt : c.pushState ≠ 0 → c.pushStart < c.size
  size_le : c.pushState = 1 → c.size ≤ c.pushStart + 2

variable {c : Cursor} {n : ℕ}

theorem Ok.cut : c.cut.Ok := ⟨fun h => absurd rfl h, nofun⟩

theorem Ok.emit : (c.emit n).Ok := ⟨fun h => absurd rfl h, nofun⟩

theorem Ok.settled_le (h : c.Ok) : c.settled ≤ c.size := by
  rw [settled]
  split_ifs with h0
  · exact le_rfl
  · exact (h.start_lt h0).le

theorem length_firstPush (kind : PushKind) (value : ℕ) :
    0 < (firstPush kind value).length ∧ (firstPush kind value).length ≤ 2 := by
  cases kind with
  | string | global | «local» => exact ⟨two_pos, le_rfl⟩
  | number =>
    unfold firstPush
    split_ifs <;> simp

theorem Ok.push (h : c.Ok) (kind : PushKind) (value : ℕ) : (c.push kind value).Ok := by
  obtain ⟨hpos, hle⟩ := length_firstPush kind value
  unfold Cursor.push
  split_ifs with h0 h1 h254
  · exact ⟨fun _ => by dsimp only; omega, fun _ => by dsimp only; omega⟩
  · exact ⟨fun _ => by dsimp only; omega, nofun⟩
  · exact ⟨fun h => absurd rfl h, nofun⟩
  · have := h.start_lt h0
    refine ⟨fun _ => ?_, fun h2 => ?_⟩
    · dsimp only; omega
    · dsimp only at h2; omega

theorem Ok.le_push (h : c.Ok) (kind : PushKind) (value : ℕ) : c.size ≤ (c.push kind value).size := by
  unfold Cursor.push
  split_ifs with h0 h1
  · exact le_self_add
  · have := h.size_le h1
    dsimp only; omega
  all_goals exact le_self_add

theorem Ok.cutIf (h : c.Ok) (b : Bool) : (c.cutIf b).Ok := by
  cases b
  · exact h
  · exact Ok.cut

@[simp]
theorem size_cut : c.cut.size = c.size := rfl

@[simp]
theorem size_emit : (c.emit n).size = c.size + n := rfl

@[simp]
theorem size_cutIf {b : Bool} : (c.cutIf b).size = c.size := by cases b <;> rfl

end Cursor

/-! ## Branch sites -/

/-- the ways out of a piece of code whose target is not known inside -/
inductive Exit where
  | jump (kind : Jump)
  | link
  deriving DecidableEq, Repr

inductive Dest where
  | addr (target : ℕ)
  | exit (e : Exit)
  deriving DecidableEq, Repr

/-- a branch instruction: its address, its opcode and where it leads -/
structure Site where
  pc : ℕ
  op : BranchOp
  dest : Dest
  deriving DecidableEq, Repr

namespace Site

/-- the place of the offset -/
def place (s : Site) : ℕ := s.pc + 1 + s.op.arity

/-- the address behind the instruction -/
def next (s : Site) : ℕ := s.place + 2

/-- an exit that gets its target -/
def land (e : Exit) (target : ℕ) (s : Site) : Site := if s.dest = .exit e then { s with dest := .addr target } else s

/-- the instruction at the site: one with a target branches there and, not taken, goes on behind itself; one that waits
for its target is a forward branch, and a link gets its opcode with the target -/
def Right (code : List UInt8) (s : Site) : Prop :=
  match s.dest with
  | .addr target =>
    branchStep code s.pc true = some (target : ℤ) ∧ branchStep code s.pc false = some (s.next : ℤ) ∧
      code[s.pc]? = some s.op.code
  | .exit (.jump _) => s.op.backward = false ∧ code[s.pc]? = some s.op.code
  | .exit .link => s.op.backward = false

end Site

/-- the places of the exits of one kind, the last one first -/
def places (e : Exit) (xs : List Site) : List ℕ := ((xs.filter (·.dest = .exit e)).map (·.pc + 1)).reverse

variable (e : Exit)

@[simp]
theorem places_nil : places e [] = [] := rfl

@[simp]
theorem places_append (xs ys : List Site) : places e (xs ++ ys) = places e ys ++ places e xs := by
  simp [places]

theorem places_cons (s : Site) (xs : List Site) :
    places e (s :: xs) = places e xs ++ if s.dest = .exit e then [s.pc + 1] else [] := by
  by_cases h : s.dest = .exit e <;> simp [places, h]

theorem places_map_land_self (target : ℕ) (xs : List Site) : places e (xs.map (Site.land e target)) = [] := by
  have hne : ∀ s ∈ xs.map (Site.land e target), s.dest ≠ .exit e := by
    intro s hs
    obtain ⟨s, -, rfl⟩ := List.mem_map.1 hs
    unfold Site.land
    split_ifs with h
    · exact nofun
    · exact h
  have : (xs.map (Site.land e target)).filter (·.dest = .exit e) = [] :=
    List.filter_eq_nil_iff.2 fun s hs => by simpa using hne s hs
  rw [places, this]
  rfl

theorem places_map_land_of_ne {e e' : Exit} (hne : e ≠ e') (target : ℕ) (xs : List Site) :
    places e (xs.map (Site.land e' target)) = places e xs := by
  induction xs with
  | nil => rfl
  | cons s xs ih =>
    rw [List.map_cons, places_cons, places_cons, ih]
    by_cases h : s.dest = .exit e'
    · simp [Site.land, h, hne.symm]
    · simp [Site.land, h]

/-! ## Shapes -/

/-- the instruction that closes a loop, without its offset -/
structure BackBranch where
  op : BranchOp
  args : List UInt8
  length_args : args.length = op.arity
  backward : op.backward = true
  deriving DecidableEq, Repr

/-- its bytes before the offset -/
def BackBranch.head (b : BackBranch) : List UInt8 := b.op.code :: b.args

/-- structured code -/
inductive Shape where
  | nop
  | push (kind : PushKind) (value : ℕ)
  /-- the pushes end, and bytes without a branch follow -/
  | op (bytes : List UInt8)
  | seq (a b : Shape)
  /-- a forward branch over `body` -/
  | skip (op : BranchOp) (body : Shape)
  /-- a forward branch to `r`, and behind `l` one over `r` -/
  | alt (op : BranchOp) (l r : Shape)
  /-- a branch whose target lies outside -/
  | exit (e : Exit) (op : BranchOp)
  /-- `l`, a branch over `r`, and `r`; the links of `l` lead behind it too -/
  | join (op : BranchOp) (l r : Shape)
  /-- a loop; with `enter` a branch leads over `block` and `inc` to the test first -/
  | loop (enter : Bool) (block inc test : Shape) (back : Option BackBranch)
  deriving DecidableEq, Repr

/-- the first instruction of a loop's block -/
def Cursor.loopStart (enter : Bool) (c : Cursor) : Cursor := if enter then c.emit 3 else c.cut

/-- behind the branch that closes a loop -/
def Cursor.loopStop (back : Option BackBranch) (c : Cursor) : Cursor :=
  match back with
  | none => c.cut
  | some b => c.emit (b.op.arity + 3)

/-- the branch that enters a loop at its test -/
def enterSites (enter : Bool) (c check : Cursor) : List Site :=
  if enter then [⟨c.size, .branch, .addr check.size⟩] else []

/-- the branch that closes a loop -/
def backSites (back : Option BackBranch) (start tested : Cursor) : List Site :=
  match back with
  | none => []
  | some b => [⟨tested.size, b.op, .addr start.size⟩]

namespace Shape

/-- where the code of a shape ends -/
def lay : Shape → Cursor → Cursor
  | nop, c => c
  | push kind value, c => c.push kind value
  | op bytes, c => c.emit bytes.length
  | seq a b, c => b.lay (a.lay c)
  | skip _ body, c => (body.lay (c.emit 3)).cut
  | alt _ l r, c => (r.lay ((l.lay (c.emit 3)).emit 3)).cut
  | exit _ _, c => c.emit 3
  | join _ l r, c => (r.lay ((l.lay c).emit 3)).cut
  | loop enter block inc test back, c =>
    (test.lay ((inc.lay (block.lay (c.loopStart enter)).cut).cutIf enter)).loopStop back

/-- the branch instructions of a shape, in the order of their addresses -/
def sites : Shape → Cursor → List Site
  | nop, _ => []
  | push _ _, _ => []
  | op _, _ => []
  | seq a b, c => a.sites c ++ b.sites (a.lay c)
  | skip b body, c => ⟨c.size, b, .addr (body.lay (c.emit 3)).size⟩ :: body.sites (c.emit 3)
  | alt b l r, c =>
    let m := l.lay (c.emit 3)
    ⟨c.size, b, .addr (m.size + 3)⟩ :: l.sites (c.emit 3) ++
      ⟨m.size, .branch, .addr (r.lay (m.emit 3)).size⟩ :: r.sites (m.emit 3)
  | exit e b, c => [⟨c.size, b, .exit e⟩]
  | join b l r, c =>
    let m := l.lay c
    let stop := (r.lay (m.emit 3)).size
    (l.sites c ++ ⟨m.size, b, .addr stop⟩ :: r.sites (m.emit 3)).map (Site.land .link stop)
  | loop enter block inc test back, c =>
    let start := c.loopStart enter
    let cont := (block.lay start).cut
    let check := (inc.lay cont).cutIf enter
    let tested := test.lay check
    (enterSites enter c check ++ ((block.sites start).map (Site.land (.jump .continue) cont.size) ++ inc.sites cont) ++
      (test.sites check ++ backSites back start tested)).map
      (Site.land (.jump .break) (tested.loopStop back).size)

/-- code with a branch that is pending for a while -/
def emits : Shape → Bool
  | nop => false
  | push _ _ => false
  | op _ => false
  | seq a b => a.emits || b.emits
  | skip _ _ => true
  | alt _ _ _ => true
  | exit _ _ => false
  | join _ _ _ => true
  | loop enter block inc test _ => enter || (block.emits || inc.emits) || test.emits

/-- a place that a branch inside can keep as a signed short -/
def near (place : ℕ) (inner : Bool) : Bool := !inner || place < 2 ^ 15

/-- every branch that has another one pending inside has its offset below 32768 -/
def fits : Shape → Cursor → Bool
  | nop, _ => true
  | push _ _, _ => true
  | op _, _ => true
  | seq a b, c => a.fits c && b.fits (a.lay c)
  | skip _ body, c => body.fits (c.emit 3) && near (c.size + 1) body.emits
  | alt _ l r, c =>
    let m := l.lay (c.emit 3)
    l.fits (c.emit 3) && near (c.size + 1) l.emits && (r.fits (m.emit 3) && near (m.size + 1) r.emits)
  | exit _ _, _ => true
  | join _ l r, c =>
    let m := l.lay c
    l.fits c && (r.fits (m.emit 3) && near (m.size + 1) r.emits)
  | loop enter block inc test _, c =>
    let start := c.loopStart enter
    let cont := (block.lay start).cut
    let check := (inc.lay cont).cutIf enter
    block.fits start && (inc.fits cont && (near (c.size + 1) (enter && (block.emits || inc.emits)) && test.fits check))

/-- an exit of the kind leaves the shape -/
def leaves (e : Exit) : Shape → Bool
  | nop => false
  | push _ _ => false
  | op _ => false
  | seq a b => a.leaves e || b.leaves e
  | skip _ body => body.leaves e
  | alt _ l r => l.leaves e || r.leaves e
  | exit e' _ => e = e'
  | join _ l r => e ≠ .link && (l.leaves e || r.leaves e)
  | loop _ block inc test _ =>
    e ≠ .jump .break && ((e ≠ .jump .continue && block.leaves e) || inc.leaves e || test.leaves e)

variable {c : Cursor} (back : Option BackBranch) (sh : Shape)

theorem le_loopStart (enter : Bool) : c.size ≤ (c.loopStart enter).size := by
  cases enter
  · exact le_rfl
  · exact le_self_add

theorem le_loopStop : c.size ≤ (c.loopStop back).size := by
  cases back
  · exact le_rfl
  · exact le_self_add

theorem ok_loopStart (enter : Bool) : (c.loopStart enter).Ok := by
  cases enter
  · exact Cursor.Ok.cut
  · exact Cursor.Ok.emit

theorem ok_loopStop : (c.loopStop back).Ok := by
  cases back
  · exact Cursor.Ok.cut
  · exact Cursor.Ok.emit

/-- laying out keeps the cursor sound -/
theorem ok_lay (h : c.Ok) : (sh.lay c).Ok := by
  induction sh generalizing c with
  | nop => exact h
  | push kind value => exact h.push kind value
  | op | exit => exact Cursor.Ok.emit
  | seq a b iha ihb => exact ihb (iha h)
  | skip | alt => exact Cursor.Ok.cut
  | join => exact Cursor.Ok.cut
  | loop => exact ok_loopStop _

/-- code is only added -/
theorem le_lay (h : c.Ok) : c.size ≤ (sh.lay c).size := by
  induction sh generalizing c with
  | nop => exact le_rfl
  | push kind value => exact h.le_push kind value
  | op | exit => exact le_self_add
  | seq a b iha ihb => exact (iha h).trans (ihb (a.ok_lay h))
  | skip _ body ih => exact (le_self_add).trans (ih Cursor.Ok.emit)
  | alt _ l r ihl ihr =>
    calc c.size ≤ (c.emit 3).size := le_self_add
      _ ≤ (l.lay (c.emit 3)).size := ihl Cursor.Ok.emit
      _ ≤ ((l.lay (c.emit 3)).emit 3).size := le_self_add
      _ ≤ (r.lay ((l.lay (c.emit 3)).emit 3)).size := ihr Cursor.Ok.emit
  | join _ l r ihl ihr =>
    calc c.size ≤ (l.lay c).size := ihl h
      _ ≤ ((l.lay c).emit 3).size := le_self_add
      _ ≤ (r.lay ((l.lay c).emit 3)).size := ihr Cursor.Ok.emit
  | loop enter block inc test back ihb ihi iht =>
    calc c.size ≤ (c.loopStart enter).size := le_loopStart enter
      _ ≤ (block.lay (c.loopStart enter)).cut.size := ihb (ok_loopStart enter)
      _ ≤ ((inc.lay (block.lay (c.loopStart enter)).cut).cutIf enter).size := by
        rw [Cursor.size_cutIf]
        exact ihi Cursor.Ok.cut
      _ ≤ (test.lay ((inc.lay (block.lay (c.loopStart enter)).cut).cutIf enter)).size :=
        iht ((inc.ok_lay Cursor.Ok.cut).cutIf enter)
      _ ≤ _ := le_loopStop back

/-- a shape that no exit of a kind leaves has no site with one -/
theorem places_eq_nil {e : Exit} (h : sh.leaves e = false) (c : Cursor) : places e (sh.sites c) = [] := by
  induction sh generalizing c with
  | nop | push | op => rfl
  | seq a b iha ihb =>
    simp only [leaves, Bool.or_eq_false_iff] at h
    rw [sites, places_append, iha h.1, ihb h.2, List.append_nil]
  | skip op body ih => simp [sites, places_cons, ih h]
  | alt op l r ihl ihr =>
    simp only [leaves, Bool.or_eq_false_iff] at h
    simp [sites, places_cons, ihl h.1, ihr h.2]
  | exit e' op =>
    have hne : e' ≠ e := fun heq => by simp [leaves, heq] at h
    simp [sites, places, hne]
  | join op l r ihl ihr =>
    by_cases he : e = .link
    · subst he
      exact places_map_land_self _ _ _
    · simp only [leaves, ne_eq, he, not_false_eq_true, decide_true, Bool.true_and, Bool.or_eq_false_iff] at h
      rw [sites, places_map_land_of_ne he]
      simp [places_cons, ihl h.1, ihr h.2]
  | loop enter block inc test back ihb ihi iht =>
    by_cases hbreak : e = .jump .break
    · subst hbreak
      exact places_map_land_self _ _ _
    · simp only [leaves, ne_eq, hbreak, not_false_eq_true, decide_true, Bool.true_and, Bool.or_eq_false_iff] at h
      obtain ⟨⟨hblock, hinc⟩, htest⟩ := h
      have hblock' : ∀ start target, places e ((block.sites start).map (Site.land (.jump .continue) target)) = [] := by
        intro start target
        by_cases hcont : e = .jump .continue
        · subst hcont
          exact places_map_land_self _ _ _
        · rw [places_map_land_of_ne hcont]
          exact ihb (by simpa [hcont] using hblock) _
      rw [sites, places_map_land_of_ne hbreak]
      cases enter <;> cases back <;> simp [enterSites, backSites, places_cons, hblock', ihi hinc, iht htest]

end Shape

/-! ## The shape of a parse tree -/

namespace BackBranch

/-- a branch that has its offset right behind the opcode -/
def ofOp (op : BranchOp) (harity : op.arity = 0) (hback : op.backward = true) : BackBranch := ⟨op, [], harity.symm, hback⟩

def loopCondLocal (x y : UInt8) : BackBranch := ⟨.loopCondLocal, [x, y], rfl, rfl⟩

def loopCondNumber (x : UInt8) (n : ℤ) : BackBranch := ⟨.loopCondNumber, x :: bytesOf 4 n, rfl, rfl⟩

def nextForeach : BackBranch := ofOp .nextForeach rfl rfl

def whileDec (x : UInt8) : BackBranch := ⟨.whileDec, [x], rfl, rfl⟩

end BackBranch

def pushShape (kind : PushKind) (value : ℕ) (bs : List UInt8) : Shape :=
  if value ≤ pushMask then .push kind value else .op bs

def numberShape (n : ℤ) : Shape :=
  if -2 ^ 31 ≤ n ∧ n < 2 ^ 31 then
    if 0 ≤ n ∧ n ≤ 255 then pushShape .number n.toNat [opByte, .ofNat n.toNat]
    else if n < 0 ∧ -256 < n then .op [Gen.opNbyte, .ofNat (-n).toNat]
    else .op (Gen.opNumber :: bytesOf 4 n)
  else .op (Gen.opLong :: bytesOf 8 n)

/-- inside a `foreach` a `return` has one more iteration to leave -/
def LoopKind.depth (kind : LoopKind) (d : ℕ) : ℕ := if kind = .foreach then d + 1 else d

set_option maxRecDepth 4000 in
mutual

/-- the shape of a tree inside `d` loops over `foreach` -/
def shape (d : ℕ) : Node → Shape
  | .null => .nop
  | .number n => numberShape n
  | .string i => pushShape .string i (if i ≤ 255 then [opShortString, .ofNat i] else opString :: bytesOf 2 i)
  | .local i => pushShape .local i [opLocal, .ofNat i]
  | .global i => pushShape .global i [opGlobal, .ofNat i]
  | .code _ bytes => .op bytes
  | .unaryOp op r => .seq (shape d r) (.op [op])
  | .binaryOp op l r => .seq (.seq (shape d l) (shape d r)) (.op [op])
  | .twoValues _ l r => .seq (shape d l) (shape d r)
  | .landLor op l r => .join op.op (linkShape d op l) (shape d r)
  | .ifElse test l r =>
    let cond := ifShape d false test
    .seq cond.1 (if r.isNull then .skip cond.2 (shape d l) else .alt cond.2 (shape d l) (shape d r))
  | .loop kind block inc test =>
    let d := kind.depth d
    let close := loopShape d test
    .loop (!test.alwaysTrue && kind ≠ .doWhile) (shape d block) (shape d inc) close.1 close.2
  | .controlJump kind => .exit (.jump kind) .branch
  | .return r =>
    .seq (.op (List.replicate d opExitForeach))
      (if r.isNull then .op [opReturnZero] else .seq (shape d r) (.op [opReturn]))
  | .loopCondLocal x y => .op (BackBranch.loopCondLocal x y).head
  | .loopCondNumber x n => .op (BackBranch.loopCondNumber x n).head
  | .nextForeach => .op BackBranch.nextForeach.head
  | .whileDec x => .op (BackBranch.whileDec x).head
termination_by t => (sizeOf t, 0)

/-- a left operand of `op`: in a chain each operand is followed by a link -/
def linkShape (d : ℕ) (op : Logical) : Node → Shape
  | .landLor op' l r =>
    if op' = op then .seq (.seq (linkShape d op l) (.exit .link op.op)) (shape d r) else shape d (.landLor op' l r)
  | t => shape d t
termination_by t => (sizeOf t, 1)

/-- the test of an `if`, and the branch taken when it fails (with `invert`, when it holds) -/
def ifShape (d : ℕ) (invert : Bool) : Node → Shape × BranchOp
  | .unaryOp op r =>
    if op = opNot then ifShape d (!invert) r else (shape d (.unaryOp op r), valueBranch invert)
  | .binaryOp op l r =>
    match compareBranch op invert with
    | some b => (.seq (shape d l) (shape d r), b)
    | none => (shape d (.binaryOp op l r), valueBranch invert)
  | t => (shape d t, valueBranch invert)
termination_by t => (sizeOf t, 1)

/-- the test of a loop, and the branch back that closes it -/
def loopShape (d : ℕ) : Node → Shape × Option BackBranch
  | .loopCondLocal x y => (.nop, some (.loopCondLocal x y))
  | .loopCondNumber x n => (.nop, some (.loopCondNumber x n))
  | .nextForeach => (.nop, some .nextForeach)
  | .binaryOp op l r =>
    if op = opNe then
      if r.isZero then testShape d l else if l.isZero then testShape d r else testShape d (.binaryOp op l r)
    else testShape d (.binaryOp op l r)
  | t => testShape d t
termination_by t => (sizeOf t, 2)

/-- a loop's test without a comparison with zero -/
def testShape (d : ℕ) : Node → Shape × Option BackBranch
  | .unaryOp op r =>
    if op = opNot then (shape d r, some (.ofOp .bbranchWhenZero rfl rfl))
    else (shape d (.unaryOp op r), some (.ofOp .bbranchWhenNonZero rfl rfl))
  | .number n => (.nop, if n = 0 then none else some (.ofOp .bbranch rfl rfl))
  | .binaryOp op l r =>
    if op = opLt then (.seq (shape d l) (shape d r), some (.ofOp .bbranchLt rfl rfl))
    else (shape d (.binaryOp op l r), some (.ofOp .bbranchWhenNonZero rfl rfl))
  | .whileDec x => (.nop, some (.whileDec x))
  | t => (shape d t, some (.ofOp .bbranchWhenNonZero rfl rfl))
termination_by t => (sizeOf t, 1)

end

namespace Node

/-- a `break` or `continue` leaves the tree -/
def jumps : Node → Bool
  | unaryOp _ r => r.jumps
  | binaryOp _ l r => l.jumps || r.jumps
  | twoValues _ l r => l.jumps || r.jumps
  | landLor _ l r => l.jumps || r.jumps
  | ifElse test l r => test.jumps || l.jumps || r.jumps
  | loop _ _ inc test => inc.jumps || test.jumps
  | controlJump _ => true
  | «return» r => r.jumps
  | _ => false

/-- the increment and the test of a loop are expressions: nothing jumps out of them -/
def wellFormed : Node → Bool
  | unaryOp _ r => r.wellFormed
  | binaryOp _ l r => l.wellFormed && r.wellFormed
  | twoValues _ l r => l.wellFormed && r.wellFormed
  | landLor _ l r => l.wellFormed && r.wellFormed
  | ifElse test l r => test.wellFormed && l.wellFormed && r.wellFormed
  | loop _ block inc test =>
    block.wellFormed && inc.wellFormed && test.wellFormed && !inc.jumps && !test.jumps
  | «return» r => r.wellFormed
  | _ => true

/-- the tests that `optimize_loop_test` and `foreach` make, which are the branch themselves -/
def isLoopTest : Node → Bool
  | loopCondLocal _ _ => true
  | loopCondNumber _ _ => true
  | nextForeach => true
  | _ => false

/-- no loop has another test whose `v.number` is one of their opcodes, as that of `while (33)` is -/
def testsPlain : Node → Bool
  | unaryOp _ r => r.testsPlain
  | binaryOp _ l r => l.testsPlain && r.testsPlain
  | twoValues _ l r => l.testsPlain && r.testsPlain
  | landLor _ l r => l.testsPlain && r.testsPlain
  | ifElse test l r => test.testsPlain && l.testsPlain && r.testsPlain
  | loop _ block inc test =>
    block.testsPlain && inc.testsPlain && test.testsPlain && (test.isLoopTest || !test.looksLikeLoopTest)
  | «return» r => r.testsPlain
  | _ => true

end Node

end Lithos.Lpc.Program.Branch
