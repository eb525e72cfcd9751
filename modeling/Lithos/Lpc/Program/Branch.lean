/-
Branches: the code generator for conditions, `&&` and `||`, loops and jumps (`icode.c`, `generate_conditional_branch` in
`generate.c`) and the branch instructions of the interpreter (`eval_instruction` in `interpret.c`).

A branch has its offset in the two bytes behind it. A forward branch whose target is not known yet holds there, as a
short, the place of the pending branch around it; `forward` is the place of the innermost one. `break` and `continue`
are kept in lists, and a chain `a || b || c` keeps the places of its branches in the parse nodes. Pushes of small
operands that follow each other are packed into one instruction, so a place in the code is a place to branch to only
when the series of pushes has been ended there.

Everything that generates no branch is a node with its bytes (`Node.code`). Reading or writing before the start of the
program block, or behind its end, has no result. Line numbers are left out.
-/
import Lithos.Core.Bytes

namespace Lithos.Lpc.Program.Branch

open Lithos.Core.Bytes

/-! ## Branch instructions -/

/-- the opcodes that branch -/
inductive BranchOp where
  | branchWhenZero
  | branchWhenNonZero
  | branch
  | bbranchWhenZero
  | bbranchWhenNonZero
  | bbranch
  | branchNe
  | branchGe
  | branchLe
  | branchEq
  | bbranchLt
  | nextForeach
  | loopCondLocal
  | loopCondNumber
  | whileDec
  | lor
  | land
  deriving DecidableEq, Repr

namespace BranchOp

/-- the numbers `func_spec.c.in` gives the opcodes -/
def code : BranchOp → UInt8
  | branchWhenZero => 19
  | branchWhenNonZero => 20
  | branch => 21
  | bbranchWhenZero => 22
  | bbranchWhenNonZero => 23
  | bbranch => 24
  | branchNe => 25
  | branchGe => 26
  | branchLe => 27
  | branchEq => 28
  | bbranchLt => 29
  | nextForeach => 31
  | loopCondLocal => 33
  | loopCondNumber => 34
  | whileDec => 36
  | lor => 37
  | land => 38

def ofCode (b : UInt8) : Option BranchOp :=
  match b.toNat with
  | 19 => some branchWhenZero
  | 20 => some branchWhenNonZero
  | 21 => some branch
  | 22 => some bbranchWhenZero
  | 23 => some bbranchWhenNonZero
  | 24 => some bbranch
  | 25 => some branchNe
  | 26 => some branchGe
  | 27 => some branchLe
  | 28 => some branchEq
  | 29 => some bbranchLt
  | 31 => some nextForeach
  | 33 => some loopCondLocal
  | 34 => some loopCondNumber
  | 36 => some whileDec
  | 37 => some lor
  | 38 => some land
  | _ => none

/-- the bytes between the opcode and the offset -/
def arity : BranchOp → ℕ
  | whileDec => 1
  | loopCondLocal => 2
  | loopCondNumber => 5
  | _ => 0

/-- the interpreter subtracts the offset -/
def backward : BranchOp → Bool
  | bbranchWhenZero | bbranchWhenNonZero | bbranch | bbranchLt | nextForeach => true
  | loopCondLocal | loopCondNumber | whileDec => true
  | _ => false

@[simp]
theorem ofCode_code (op : BranchOp) : ofCode op.code = some op := by cases op <;> rfl

end BranchOp

/-- the interpreter at a branch: where `pc` is behind it, if the branch is taken and if it is not; the offset is an
unsigned short and counts from its own place -/
def branchStep (prog : List UInt8) (pc : ℕ) (taken : Bool) : Option ℤ := do
  let b ← prog[pc]?
  let op ← BranchOp.ofCode b
  let place := pc + 1 + op.arity
  let offset ← fetch prog place 2
  if taken then
    some (if op.backward then (place : ℤ) - offset else (place : ℤ) + offset)
  else
    some ((place : ℤ) + 2)

/-! ## Writing code -/

/-- a number cut to a signed `short` -/
def short (n : ℤ) : ℤ := n.bmod (2 ^ 16)

/-- the low `w` bytes of a number -/
def bytesOf (w : ℕ) (n : ℤ) : List UInt8 := store w (n % 2 ^ (8 * w)).toNat

/-- the state of the code generator -/
structure Gen where
  /-- the program block up to `prog_code` -/
  code : List UInt8
  /-- the pushes in the open series -/
  pushState : ℕ
  /-- where the series starts; from its second push on, the place of its length -/
  pushStart : ℕ
  /-- `current_forward_branch` -/
  forward : ℤ
  /-- `branch_list[CJ_BREAK]` -/
  breaks : List ℕ
  /-- `branch_list[CJ_CONTINUE]` -/
  continues : List ℕ
  foreachDepth : ℕ
  deriving DecidableEq, Repr

namespace Gen

/-- `CURRENT_PROGRAM_SIZE` -/
def size (g : Gen) : ℕ := g.code.length

def insBytes (bs : List UInt8) (g : Gen) : Gen := { g with code := g.code ++ bs }

def insByte (b : UInt8) (g : Gen) : Gen := g.insBytes [b]

def insShort (n : ℤ) (g : Gen) : Gen := g.insBytes (bytesOf 2 n)

def readShort (offset : ℤ) (g : Gen) : Option ℤ :=
  if offset < 0 then none else (fetch g.code offset.toNat 2).map fun n => short n

def updShort (offset n : ℤ) (g : Gen) : Option Gen :=
  if offset < 0 ∨ g.size < offset + 2 then none
  else some { g with code := patch g.code offset.toNat 2 (n % 2 ^ 16).toNat }

def updByte (offset : ℕ) (b : UInt8) (g : Gen) : Gen := { g with code := g.code.set offset b }

/-! ## Pushes -/

def endPushes (g : Gen) : Gen :=
  if g.pushState > 1 then { g.updByte g.pushStart (.ofNat g.pushState) with pushState := 0 }
  else { g with pushState := 0 }

end Gen

inductive PushKind where
  | string
  | number
  | global
  | «local»
  deriving DecidableEq, Repr

/-- `PUSH_STRING`, `PUSH_NUMBER`, `PUSH_GLOBAL`, `PUSH_LOCAL` -/
def PushKind.bits : PushKind → UInt8
  | .string => 0
  | .number => 64
  | .global => 128
  | .local => 192

/-- `PUSH_MASK`: the largest operand of a packed push -/
def pushMask : ℕ := 63

def opPush : UInt8 := 2
def opByte : UInt8 := 11
def opShortString : UInt8 := 14
def opConst0 : UInt8 := 15
def opConst1 : UInt8 := 16
def opLocal : UInt8 := 61
def opGlobal : UInt8 := 63

/-- the first push of a series, as an instruction of its own -/
def firstPush (kind : PushKind) (value : ℕ) : List UInt8 :=
  match kind with
  | .string => [opShortString, .ofNat value]
  | .local => [opLocal, .ofNat value]
  | .global => [opGlobal, .ofNat value]
  | .number => if value = 0 then [opConst0] else if value = 1 then [opConst1] else [opByte, .ofNat value]

/-- the first push of a series, packed -/
def packedPush (what arg : UInt8) : List UInt8 :=
  if what = opConst0 then [PushKind.number.bits ||| 0]
  else if what = opConst1 then [PushKind.number.bits ||| 1]
  else if what = opByte then [PushKind.number.bits ||| arg]
  else if what = opShortString then [PushKind.string.bits ||| arg]
  else if what = opLocal then [PushKind.local.bits ||| arg]
  else if what = opGlobal then [PushKind.global.bits ||| arg]
  else []

namespace Gen

/-- the second push of a series: the first one is rewritten in the packed form -/
def initializePush (g : Gen) : Gen :=
  { g with
    code := g.code.take g.pushStart ++ [opPush, 0] ++
      packedPush (g.code.getD g.pushStart 0) (g.code.getD (g.pushStart + 1) 0)
    pushStart := g.pushStart + 1 }

/-- the operand becomes part of the series if it is small; otherwise the series ends and nothing is pushed -/
def tryToPush (kind : PushKind) (value : ℕ) (g : Gen) : Bool × Gen :=
  if g.pushState ≠ 0 then
    if value ≤ pushMask then
      let g := if g.pushState = 1 then g.initializePush else g
      let g := { g with pushState := g.pushState + 1 }.insByte (kind.bits ||| UInt8.ofNat value)
      (true, if g.pushState = 255 then g.endPushes else g)
    else (false, g.endPushes)
  else if value ≤ pushMask then
    (true, { g with pushStart := g.size, pushState := 1 }.insBytes (firstPush kind value))
  else (false, g)

/-- a push, or the instruction for an operand that is too large for one -/
def pushOr (kind : PushKind) (value : ℕ) (bs : List UInt8) (g : Gen) : Gen :=
  let (pushed, g) := g.tryToPush kind value
  if pushed then g else g.insBytes bs

def opNumber : UInt8 := 8
def opLong : UInt8 := 10
def opNbyte : UInt8 := 12

def writeSmallNumber (val : ℕ) (g : Gen) : Gen := g.pushOr .number val [opByte, .ofNat val]

def writeNumber (val : ℤ) (g : Gen) : Gen :=
  if 0 ≤ val ∧ val ≤ 255 then g.writeSmallNumber val.toNat
  else if val < 0 ∧ -256 < val then g.endPushes.insBytes [opNbyte, .ofNat (-val).toNat]
  else g.endPushes.insBytes (opNumber :: bytesOf 4 val)

def writeLongNumber (val : ℤ) (g : Gen) : Gen :=
  if -2 ^ 31 ≤ val ∧ val < 2 ^ 31 then g.writeNumber val else g.endPushes.insBytes (opLong :: bytesOf 8 val)

/-! ## Forward and backward branches -/

/-- `i_generate_forward_branch` -/
def forwardBranch (op : BranchOp) (g : Gen) : Gen :=
  let g := (g.endPushes.insByte op.code).insShort g.forward
  { g with forward := (g.size : ℤ) - 2 }

/-- `i_update_forward_branch` -/
def updateForwardBranch (g : Gen) : Option Gen := do
  let i ← g.readShort g.forward
  let g := g.endPushes
  let g ← g.updShort g.forward (g.size - g.forward)
  some { g with forward := i }

/-- the loop of `i_update_forward_branch_links` over the places of the links -/
def updateLinks (op : BranchOp) : List ℕ → Gen → Option Gen
  | [], g => some g
  | p :: ps, g => do
    let g ← (g.updByte (p - 1) op.code).updShort p (g.size - p)
    g.updateLinks op ps

/-- `i_update_forward_branch_links` -/
def updateForwardBranchLinks (op : BranchOp) (links : List ℕ) (g : Gen) : Option Gen := do
  let g := g.endPushes
  let offset ← g.readShort g.forward
  let g ← g.updShort g.forward (g.size - g.forward)
  { g with forward := offset }.updateLinks op links

/-- `i_branch_backwards`: `F_WHILE_DEC` has been written with its operand -/
def branchBackwards (kind : Option BranchOp) (addr : ℕ) (g : Gen) : Gen :=
  let g := g.endPushes
  match kind with
  | none => g
  | some op =>
    let g := if op = .whileDec then g else g.insByte op.code
    g.insShort ((g.size : ℤ) - addr)

/-- the loop of `i_update_branch_list` -/
def updateList : List ℕ → Gen → Option Gen
  | [], g => some g
  | p :: ps, g => do
    let g ← g.updShort p ((g.size : ℤ) - p)
    g.updateList ps

/-- `i_update_branch_list` -/
def updateBranchList (bl : List ℕ) (g : Gen) : Option Gen := g.endPushes.updateList bl

/-- `i_generate_else` -/
def generateElse (g : Gen) : Option Gen := do
  let g := g.endPushes.insByte BranchOp.branch.code
  let link ← g.readShort g.forward
  let g := g.insShort link
  let g ← g.updShort g.forward (g.size - g.forward)
  some { g with forward := (g.size : ℤ) - 2 }

end Gen

/-! ## Parse nodes -/

/-- `F_LOR` and `F_LAND` -/
inductive Logical where
  | lor
  | land
  deriving DecidableEq, Repr

def Logical.op : Logical → BranchOp
  | .lor => .lor
  | .land => .land

/-- `test_first` of a loop: 0, 1 and 2 -/
inductive LoopKind where
  | doWhile
  | while
  | foreach
  deriving DecidableEq, Repr

inductive Jump where
  | break
  | continue
  deriving DecidableEq, Repr

/-- a parse tree; the field `v` of a union that a node does not set has the value its memory had -/
inductive Node where
  | null
  | number (n : ℤ)
  | string (i : ℕ)
  | «local» (i : ℕ)
  | global (i : ℕ)
  /-- a node that ends the pushes and writes bytes without a branch -/
  | code (v : ℤ) (bytes : List UInt8)
  | unaryOp (op : UInt8) (r : Node)
  | binaryOp (op : UInt8) (l r : Node)
  | twoValues (v : ℤ) (l r : Node)
  /-- `NODE_LAND_LOR`; as the left operand of the same operator the parser makes it a `NODE_BRANCH_LINK` -/
  | landLor (op : Logical) (l r : Node)
  | ifElse (test l r : Node)
  | loop (kind : LoopKind) (block inc test : Node)
  | controlJump (kind : Jump)
  | return (r : Node)
  | loopCondLocal (x y : UInt8)
  | loopCondNumber (x : UInt8) (n : ℤ)
  | nextForeach
  | whileDec (x : UInt8)
  deriving DecidableEq, Repr

def opString : UInt8 := 13
def opExitForeach : UInt8 := 32
def opReturn : UInt8 := 46
def opReturnZero : UInt8 := 47
def opEq : UInt8 := 48
def opNe : UInt8 := 49
def opLe : UInt8 := 50
def opLt : UInt8 := 51
def opGe : UInt8 := 52
def opGt : UInt8 := 53
def opNot : UInt8 := 105

namespace Node

def isNull : Node → Bool
  | null => true
  | _ => false

/-- `IS_NODE (node, NODE_NUMBER, 0)` -/
def isZero : Node → Bool
  | number n => n = 0
  | _ => false

/-- `node_always_true` returns the number as an `int` -/
def alwaysTrue : Node → Bool
  | number n => n.bmod (2 ^ 32) ≠ 0
  | _ => false

/-- `v.number`; a node whose `v` is a pointer has none -/
def vNumber : Node → Option ℤ
  | number n => some n
  | string i => some i
  | «local» _ => some opLocal.toNat
  | global _ => some opGlobal.toNat
  | code v _ => some v
  | unaryOp op _ => some op.toNat
  | binaryOp op _ _ => some op.toNat
  | twoValues v _ _ => some v
  | landLor op _ _ => some op.op.code.toNat
  | loopCondLocal _ _ => some BranchOp.loopCondLocal.code.toNat
  | loopCondNumber _ _ => some BranchOp.loopCondNumber.code.toNat
  | nextForeach => some BranchOp.nextForeach.code.toNat
  | whileDec _ => some BranchOp.whileDec.code.toNat
  | _ => none

/-- how `i_generate_loop` tells a test that is itself the branch: by `v.number`, whatever the kind of the node -/
def looksLikeLoopTest (t : Node) : Bool :=
  t.vNumber = some 33 || t.vNumber = some 34 || t.vNumber = some 31

end Node

/-! ## The code generator -/

/-- the branch of a comparison in `i_generate_if_branch`; none if its value is tested instead -/
def compareBranch (op : UInt8) (invert : Bool) : Option BranchOp :=
  if op = opEq then some (if invert then .branchEq else .branchNe)
  else if op = opGe then if invert then some .branchGe else none
  else if op = opLe then if invert then some .branchLe else none
  else if op = opLt then if invert then none else some .branchGe
  else if op = opGt then if invert then none else some .branchLe
  else if op = opNe then some (if invert then .branchNe else .branchEq)
  else none

def valueBranch (invert : Bool) : BranchOp := if invert then .branchWhenNonZero else .branchWhenZero

/-- `i_generate_loop`, with the code of its parts; `test` gets the place of the loop's first instruction -/
def generateLoop (kind : LoopKind) (forever : Bool) (block inc : Gen → Option Gen) (test : ℕ → Gen → Option Gen)
    (g : Gen) : Option Gen := do
  let enter := !forever && kind ≠ .doWhile
  let depth := if kind = .foreach then g.foreachDepth + 1 else g.foreachDepth
  let g' := { g with breaks := [], continues := [], foreachDepth := depth }.endPushes
  let g' := if enter then g'.forwardBranch .branch else g'
  let pos := g'.size
  let g' ← block g'
  let g' ← g'.updateBranchList g'.continues
  let g' ← inc g'
  let g' ← if enter then g'.updateForwardBranch else some g'
  let g' ← test pos g'
  let g' ← g'.updateBranchList g'.breaks
  some { g' with breaks := g.breaks, continues := g.continues, foreachDepth := g.foreachDepth }

mutual

/-- `i_generate_node` -/
def generateNode : Node → Gen → Option Gen
  | .null => fun g => some g
  | .number n => fun g => some (g.writeLongNumber n)
  | .string i => fun g =>
    some (g.pushOr .string i (if i ≤ 255 then [opShortString, .ofNat i] else opString :: bytesOf 2 i))
  | .local i => fun g => some (g.pushOr .local i [opLocal, .ofNat i])
  | .global i => fun g => some (g.pushOr .global i [opGlobal, .ofNat i])
  | .code _ bytes => fun g => some (g.endPushes.insBytes bytes)
  | .unaryOp op r => fun g => do
    let g ← generateNode r g
    some (g.endPushes.insByte op)
  | .binaryOp op l r => fun g => do
    let g ← generateNode l g
    let g ← generateNode r g
    some (g.endPushes.insByte op)
  | .twoValues _ l r => fun g => do
    let g ← generateNode l g
    generateNode r g
  | .landLor op l r => fun g => do
    let (g, links) ← generateLinks op l g
    let g ← generateNode r (g.forwardBranch op.op)
    if links.isEmpty then g.updateForwardBranch else g.updateForwardBranchLinks op.op links
  | .ifElse test l r => fun g => do
    let g ← generateIfBranch false test g
    let g ← generateNode l g
    if r.isNull then g.updateForwardBranch
    else
      let g ← g.generateElse
      let g ← generateNode r g
      g.updateForwardBranch
  | .loop kind block inc test =>
    generateLoop kind test.alwaysTrue (generateNode block) (generateNode inc) fun pos g =>
      if test.looksLikeLoopTest then do
        let g ← generateNode test g
        some (g.insShort ((g.size : ℤ) - pos))
      else do
        let (branch, g) ← generateConditionalBranch test g
        some (g.branchBackwards branch pos)
  | .controlJump kind => fun g =>
    let g := g.endPushes.insByte BranchOp.branch.code
    let place := g.size
    let g := g.insShort 0
    match kind with
    | .break => some { g with breaks := place :: g.breaks }
    | .continue => some { g with continues := place :: g.continues }
  | .return r => fun g => do
    let g := g.endPushes.insBytes (List.replicate g.foreachDepth opExitForeach)
    if r.isNull then some (g.insByte opReturnZero)
    else
      let g ← generateNode r g
      some (g.endPushes.insByte opReturn)
  | .loopCondLocal x y => fun g => some (g.endPushes.insBytes [BranchOp.loopCondLocal.code, x, y])
  | .loopCondNumber x n => fun g => some (g.endPushes.insBytes (BranchOp.loopCondNumber.code :: x :: bytesOf 4 n))
  | .nextForeach => fun g => some (g.endPushes.insByte BranchOp.nextForeach.code)
  | .whileDec x => fun g => some (g.endPushes.insBytes [BranchOp.whileDec.code, x])
termination_by t => (sizeOf t, 0)

/-- `NODE_BRANCH_LINK` and the other left operands of `&&` and `||`; the places that `v.number` of the links keep, the
outermost first -/
def generateLinks (op : Logical) : Node → Gen → Option (Gen × List ℕ)
  | .landLor op' l r =>
    if op' = op then fun g => do
      let (g, links) ← generateLinks op l g
      let g := g.endPushes.insByte 0
      let place := g.size
      let g ← generateNode r (g.insShort 0)
      some (g, place :: links)
    else fun g => (generateNode (.landLor op' l r) g).map (·, [])
  | t => fun g => (generateNode t g).map (·, [])
termination_by t => (sizeOf t, 1)

/-- `i_generate_if_branch` -/
def generateIfBranch (invert : Bool) : Node → Gen → Option Gen
  | .unaryOp op r =>
    if op = opNot then generateIfBranch (!invert) r
    else fun g => do
      let g ← generateNode (.unaryOp op r) g
      some (g.forwardBranch (valueBranch invert))
  | .binaryOp op l r =>
    match compareBranch op invert with
    | some b => fun g => do
      let g ← generateNode l g
      let g ← generateNode r g
      some (g.forwardBranch b)
    | none => fun g => do
      let g ← generateNode (.binaryOp op l r) g
      some (g.forwardBranch (valueBranch invert))
  | t => fun g => do
    let g ← generateNode t g
    some (g.forwardBranch (valueBranch invert))
termination_by t => (sizeOf t, 1)

/-- `generate_conditional_branch`: the branch that closes the loop, none for a test that is always false -/
def generateConditionalBranch : Node → Gen → Option (Option BranchOp × Gen)
  | .binaryOp op l r =>
    if op = opNe then
      if r.isZero then generateTest l
      else if l.isZero then generateTest r
      else generateTest (.binaryOp op l r)
    else generateTest (.binaryOp op l r)
  | t => generateTest t
termination_by t => (sizeOf t, 2)

/-- `generate_conditional_branch` behind the comparison with zero -/
def generateTest : Node → Gen → Option (Option BranchOp × Gen)
  | .unaryOp op r =>
    if op = opNot then fun g => (generateNode r g).map (some .bbranchWhenZero, ·)
    else fun g => (generateNode (.unaryOp op r) g).map (some .bbranchWhenNonZero, ·)
  | .number n => fun g => some (if n = 0 then none else some .bbranch, g)
  | .binaryOp op l r =>
    if op = opLt then fun g => do
      let g ← generateNode l g
      let g ← generateNode r g
      some (some .bbranchLt, g)
    else fun g => (generateNode (.binaryOp op l r) g).map (some .bbranchWhenNonZero, ·)
  | .whileDec x => fun g => (generateNode (.whileDec x) g).map (some .whileDec, ·)
  | t => fun g => (generateNode t g).map (some .bbranchWhenNonZero, ·)
termination_by t => (sizeOf t, 1)

end

/-- the generator behind the code of the functions before -/
def Gen.start (code : List UInt8) : Gen := ⟨code, 0, 0, 0, [], [], 0⟩

/-- `generate`: a function's tree behind the code there is -/
def generate (code : List UInt8) (t : Node) : Option Gen := generateNode t (.start code)

end Lithos.Lpc.Program.Branch
