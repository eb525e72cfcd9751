/-
The transfer of dying variables (`optimize` in `generate.c`).

The optimizer walks the parse tree of a function body and keeps, for each local variable, its last use outside
conditionals and loops. Where the variable is assigned, and at the end of the function, that use becomes a transfer: it
moves the value to the stack and leaves a number in the variable. The paths of a body are given by `sem`; a monitor
follows which variables are emptied. The argument has two parts:

* in a conditional or a loop `optimize` forgets the last uses of all that is used there, so none of them is a transfer
  and no variable used there is empty (`optimize_forgets`, `calm_sem`);
* elsewhere an emptied variable always still has the transfer as its last use, so another use would have taken its place
  and it would not be one (`Piece`, `piece_sem`).

Results:
* `no_use_after_transfer`: no path uses an emptied variable, when no assignment that `optimize` takes for done can be
  skipped; the counting instructions of loops are not looked at.
* `counter_reads_emptied`: they do read emptied variables (a transfer does not change a number).
-/
import Mathlib.Tactic
import Lithos.Core.Paths

namespace Lithos.Lpc.Program.Optimizer

open Lithos.Core.Paths List Function Bool

/-! ## Parse trees -/

/-- `enum control_jump_type`, a return, and an error -/
inductive Exit where
  | breakLoop
  | continueLoop
  | breakSwitch
  | leaveFunction
  | error
deriving DecidableEq, Repr

/-- parse trees, as far as local variables and control flow go. Kinds of nodes that `optimize` and the code generator
treat alike are one case. An F_LOCAL node has its address as `id`. -/
inductive Node where
  | null
  /-- NODE_OPCODE, NODE_NUMBER, NODE_STRING, NODE_REAL, NODE_ANON_FUNC and other leaves without locals of this frame -/
  | opcode
  /-- NODE_OPCODE_1 with F_LOCAL -/
  | local (id var : ℕ)
  /-- NODE_OPCODE_1 with F_LOCAL_LVALUE -/
  | localLvalue (var : ℕ)
  /-- NODE_OPCODE_1 with F_WHILE_DEC or F_LOOP_INCR, NODE_OPCODE_2 with F_LOOP_COND_LOCAL or F_LOOP_COND_NUMBER -/
  | counter (vars : List ℕ)
  /-- NODE_UNARY_OP, and NODE_UNARY_OP_1 with other opcodes than the next -/
  | unaryOp (r : Node)
  /-- NODE_UNARY_OP_1 with F_VOID_ASSIGN_LOCAL -/
  | voidAssignLocal (var : ℕ) (r : Node)
  /-- NODE_BINARY_OP with F_ASSIGN -/
  | assign (l r : Node)
  /-- NODE_BINARY_OP with another opcode, NODE_BINARY_OP_1 -/
  | binaryOp (l r : Node)
  /-- NODE_TERNARY_OP, NODE_TERNARY_OP_1 -/
  | ternaryOp (l m r : Node)
  /-- NODE_TWO_VALUES: also the statements of a block -/
  | twoValues (l r : Node)
  /-- NODE_CALL, NODE_CALL_1, NODE_CALL_2, NODE_EFUN, NODE_FUNCTION_CONSTRUCTOR: a list of arguments -/
  | call (args : Node)
  | exprList (v r : Node)
  /-- NODE_LVALUE_EFUN: a list of lvalues is assigned -/
  | lvalueEfun (l r : Node)
  | lvalueList (l r : Node)
  | landLor (l r : Node)
  | branchLink (l r : Node)
  | ifNode (v l r : Node)
  /-- the test may come first -/
  | loop (testFirst : Bool) (v l r : Node)
  /-- the local variables among the two of a NODE_FOREACH, and the value it goes through; the loop itself is a NODE_LOOP -/
  | foreach (vars : List ℕ) (v : Node)
  /-- NODE_CASE_NUMBER, NODE_CASE_STRING, NODE_DEFAULT -/
  | caseLabel
  | switch (l r : Node)
  | controlJump (kind : Exit)
  | ret (r : Node)
  | catch (r : Node)
  | timeExpression (r : Node)
deriving DecidableEq, Repr

/-- `IS_NODE (r, NODE_OPCODE_1, F_LOCAL_LVALUE)`, and the variable -/
def Node.localLvalue? : Node → Option ℕ
  | .localLvalue x => some x
  | _ => none

/-! ## The optimizer -/

/-- `last_local_refs`, and the F_LOCAL nodes turned into F_TRANSFER_LOCAL so far -/
structure State where
  lastRefs : ℕ → Option ℕ
  transferred : List ℕ

def State.init : State := ⟨fun _ => none, []⟩

def State.setRef (s : State) (x : ℕ) (id : Option ℕ) : State := { s with lastRefs := update s.lastRefs x id }

/-- the last use of `x` becomes a transfer -/
def State.transfer (s : State) (x : ℕ) : State :=
  match s.lastRefs x with
  | none => s
  | some id => { lastRefs := update s.lastRefs x none, transferred := id :: s.transferred }

/-- `optimizer_state` -/
structure Context where
  inLoop : Bool
  inCond : Bool
deriving DecidableEq, Repr

def Context.busy (c : Context) : Bool := c.inLoop || c.inCond

/-- `optimize` -/
def optimize (c : Context) : Node → State → State
  | .null, s => s
  | .opcode, s => s
  | .local id x, s => if c.busy then s.setRef x none else s.setRef x (some id)
  | .localLvalue x, s => s.setRef x none
  | .counter _, s => s
  | .unaryOp r, s => optimize c r s
  | .voidAssignLocal x r, s =>
    let s := optimize c r s
    if c.busy then s else s.transfer x
  | .assign l r, s =>
    let s := optimize c l s
    let s :=
      match r.localLvalue? with
      | some x => if c.busy then s else s.transfer x
      | none => s
    optimize c r s
  | .binaryOp l r, s => optimize c r (optimize c l s)
  | .ternaryOp l m r, s => optimize c r (optimize c m (optimize c l s))
  | .twoValues l r, s => optimize c r (optimize c l s)
  | .call args, s => optimize c args s
  | .exprList v r, s => optimize c r (optimize c v s)
  | .lvalueEfun l r, s => optimize c r (optimize c l s)
  | .lvalueList l r, s => optimize c r (optimize c l s)
  | .landLor l r, s => optimize c r (optimize c l s)
  | .branchLink l r, s => optimize c r (optimize c l s)
  | .ifNode v l r, s =>
    let s := optimize c v s
    optimize { c with inCond := true } r (optimize { c with inCond := true } l s)
  | .loop _ v l r, s =>
    let c := { c with inLoop := true }
    optimize c r (optimize c l (optimize c v s))
  | .foreach vars v, s => optimize c v (vars.foldl (fun s x => s.setRef x none) s)
  | .caseLabel, s => s
  | .switch l r, s => optimize { c with inCond := true } r (optimize c l s)
  | .controlJump _, s => s
  | .ret r, s => optimize c r s
  | .catch r, s => optimize c r s
  | .timeExpression _, s => s

/-- the variables of the F_LOCAL nodes of a tree -/
def Node.localVars : Node → List ℕ
  | .local _ x => [x]
  | .unaryOp r | .voidAssignLocal _ r | .call r | .ret r | .catch r | .timeExpression r | .foreach _ r => r.localVars
  | .assign l r | .binaryOp l r | .twoValues l r | .exprList l r | .lvalueEfun l r | .lvalueList l r | .landLor l r
  | .branchLink l r | .switch l r => l.localVars ++ r.localVars
  | .ternaryOp l m r | .ifNode l m r | .loop _ l m r => l.localVars ++ (m.localVars ++ r.localVars)
  | _ => []

/-- `optimizer_end_function`: the uses that are still the last ones become transfers too -/
def endFunction (vars : List ℕ) (s : State) : State := vars.foldl State.transfer s

/-- the nodes of a function body that end up as F_TRANSFER_LOCAL -/
def transfers (t : Node) : List ℕ :=
  (endFunction t.localVars (optimize ⟨false, false⟩ t .init)).transferred

/-! ## Execution paths -/

/-- what a path does with the local variables -/
inductive Event where
  /-- an F_LOCAL or F_TRANSFER_LOCAL node -/
  | read (id var : ℕ)
  /-- the address of a variable is taken other than for a plain assignment; what is done with it may read it -/
  | lvalue (var : ℕ)
  | assign (var : ℕ)
  /-- F_WHILE_DEC, F_LOOP_INCR, F_LOOP_COND_LOCAL, F_LOOP_COND_NUMBER -/
  | count (var : ℕ)
deriving DecidableEq, Repr

abbrev LocalPaths := PathSet Event Exit

/-- an instruction that may fail -/
def instruction : LocalPaths := choice skip (leave .error)

/-- a loop: the test, the block and the increment, the test again and so on -/
def loopPaths (testFirst : Bool) (block inc test : LocalPaths) : LocalPaths :=
  let round := seq (redirect .continueLoop block) (seq inc test)
  redirect .breakLoop (if testFirst then seq test (iter round) else seq round (iter round))

/-- the paths of a tree from its start, and from a case label in it (a switch jumps to one) -/
def sem : Node → LocalPaths × LocalPaths
  | .null => (skip, fun _ _ => False)
  | .opcode => (instruction, fun _ _ => False)
  | .local id x => (seq instruction (emit (.read id x)), fun _ _ => False)
  | .localLvalue x => (seq instruction (emit (.lvalue x)), fun _ _ => False)
  | .counter xs => (xs.foldr (fun x P => seq instruction (seq (emit (.count x)) P)) skip, fun _ _ => False)
  | .unaryOp r => (seq (sem r).1 instruction, fun _ _ => False)
  | .voidAssignLocal x r => (seq (sem r).1 (seq instruction (emit (.assign x))), fun _ _ => False)
  | .assign l r =>
    (match r.localLvalue? with
      | some x => seq (sem l).1 (seq instruction (emit (.assign x)))
      | none => seq (sem l).1 (seq (sem r).1 instruction), fun _ _ => False)
  | .binaryOp l r => (seq (sem l).1 (seq (sem r).1 instruction), fun _ _ => False)
  | .ternaryOp l m r => (seq (sem l).1 (seq (sem m).1 (seq (sem r).1 instruction)), fun _ _ => False)
  | .twoValues l r => (seq (sem l).1 (sem r).1, choice (seq (sem l).2 (sem r).1) (sem r).2)
  | .call args => (seq (sem args).1 instruction, fun _ _ => False)
  | .exprList v r => (seq (sem v).1 (sem r).1, fun _ _ => False)
  | .lvalueEfun l r => (seq (sem l).1 (sem r).1, fun _ _ => False)
  | .lvalueList l r => (seq (sem l).1 (seq instruction (sem r).1), fun _ _ => False)
  | .landLor l r => (seq (sem l).1 (choice skip (sem r).1), fun _ _ => False)
  | .branchLink l r => (seq (sem l).1 (choice skip (sem r).1), fun _ _ => False)
  | .ifNode v l r => (seq (sem v).1 (choice (sem l).1 (sem r).1), fun _ _ => False)
  | .loop testFirst v l r => (loopPaths testFirst (sem v).1 (sem l).1 (sem r).1, fun _ _ => False)
  | .foreach _ v => (seq (sem v).1 instruction, fun _ _ => False)
  | .caseLabel => (skip, skip)
  | .switch l r => (seq (sem l).1 (redirect .breakSwitch (choice skip (sem r).2)), fun _ _ => False)
  | .controlJump k => (leave k, fun _ _ => False)
  | .ret r => (seq (sem r).1 (leave .leaveFunction), fun _ _ => False)
  | .catch r => (redirect .error (sem r).1, fun _ _ => False)
  | .timeExpression r => (seq instruction (seq (sem r).1 instruction), fun _ _ => False)

def paths (t : Node) : LocalPaths := (sem t).1

/-- along a path: the variables that a transfer has emptied and no assignment has set since. A use of such a variable
stops the monitor; whether a counting instruction is such a use is left open by `strict`. -/
def useAfterTransfer (strict : Bool) (T : List ℕ) (D : Finset ℕ) : Event → Option (Finset ℕ)
  | .read id x => if x ∈ D then none else some (if id ∈ T then insert x D else D)
  | .lvalue x => if x ∈ D then none else some D
  | .assign x => some (D.erase x)
  | .count x => if strict ∧ x ∈ D then none else some D

/-! ## What a tree uses -/

/-- the F_LOCAL nodes of a tree -/
def Node.ids : Node → List ℕ
  | .local id _ => [id]
  | .unaryOp r | .voidAssignLocal _ r | .call r | .ret r | .catch r | .timeExpression r | .foreach _ r => r.ids
  | .assign l r | .binaryOp l r | .twoValues l r | .exprList l r | .lvalueEfun l r | .lvalueList l r | .landLor l r
  | .branchLink l r | .switch l r => l.ids ++ r.ids
  | .ternaryOp l m r | .ifNode l m r | .loop _ l m r => l.ids ++ (m.ids ++ r.ids)
  | _ => []

/-- the variables that a tree reads, or whose address it takes other than for a plain assignment -/
def Node.uses : Node → List ℕ
  | .local _ x => [x]
  | .localLvalue x => [x]
  | .assign l r => l.uses ++ if r.localLvalue?.isSome then [] else r.uses
  | .unaryOp r | .voidAssignLocal _ r | .call r | .ret r | .catch r | .timeExpression r | .foreach _ r => r.uses
  | .binaryOp l r | .twoValues l r | .exprList l r | .lvalueEfun l r | .lvalueList l r | .landLor l r
  | .branchLink l r | .switch l r => l.uses ++ r.uses
  | .ternaryOp l m r | .ifNode l m r | .loop _ l m r => l.uses ++ (m.uses ++ r.uses)
  | _ => []

/-- a plain assignment to a local variable stands in the tree outside its conditionals, switches and loops: there
`optimize` makes the last use before it a transfer -/
def Node.assigns : Node → Bool
  | .voidAssignLocal _ _ => true
  | .assign l r => r.localLvalue?.isSome || l.assigns || r.assigns
  | .unaryOp r | .call r | .ret r | .catch r | .foreach _ r => r.assigns
  | .binaryOp l r | .twoValues l r | .exprList l r | .lvalueEfun l r | .lvalueList l r | .landLor l r
  | .branchLink l r => l.assigns || r.assigns
  | .ternaryOp l m r => l.assigns || (m.assigns || r.assigns)
  | .ifNode v _ _ => v.assigns
  | .switch l _ => l.assigns
  | _ => false

/-- no `time_expression` uses a local variable -/
def Node.timesNoLocals : Node → Prop
  | .timeExpression r => r.uses = [] ∧ r.ids = []
  | .unaryOp r | .voidAssignLocal _ r | .call r | .ret r | .catch r | .foreach _ r => r.timesNoLocals
  | .assign l r | .binaryOp l r | .twoValues l r | .exprList l r | .lvalueEfun l r | .lvalueList l r | .landLor l r
  | .branchLink l r | .switch l r => l.timesNoLocals ∧ r.timesNoLocals
  | .ternaryOp l m r | .ifNode l m r | .loop _ l m r => l.timesNoLocals ∧ m.timesNoLocals ∧ r.timesNoLocals
  | _ => True

/-- nor is a local variable assigned where it may be skipped and `optimize` takes it for done: behind && or ||, or in a
`catch` -/
def Node.tidy : Node → Prop
  | .landLor l r | .branchLink l r => l.tidy ∧ r.tidy ∧ r.assigns = false
  | .catch r => r.tidy ∧ r.assigns = false
  | .timeExpression r => r.uses = [] ∧ r.ids = []
  | .unaryOp r | .voidAssignLocal _ r | .call r | .ret r | .foreach _ r => r.tidy
  | .assign l r | .binaryOp l r | .twoValues l r | .exprList l r | .lvalueEfun l r | .lvalueList l r => l.tidy ∧ r.tidy
  | .ternaryOp l m r => l.tidy ∧ m.tidy ∧ r.tidy
  | .ifNode v l r => v.tidy ∧ l.timesNoLocals ∧ r.timesNoLocals
  | .loop _ v l r => v.timesNoLocals ∧ l.timesNoLocals ∧ r.timesNoLocals
  | .switch l r => l.tidy ∧ r.timesNoLocals
  | _ => True

/-! ## In conditionals and loops -/

/-- `s'` comes from `s` by forgetting last uses, those of the variables in `U` among them -/
structure Forgets (U : List ℕ) (s s' : State) : Prop where
  transferred : s'.transferred = s.transferred
  refs : ∀ x, s'.lastRefs x = none ∨ s'.lastRefs x = s.lastRefs x
  gone : ∀ x ∈ U, s'.lastRefs x = none

theorem Forgets.refl (s : State) : Forgets [] s s := ⟨rfl, fun _ => .inr rfl, by simp⟩

variable {U U' : List ℕ} {s' : State}

theorem Forgets.trans {s s'' : State} (h : Forgets U s s') (h' : Forgets U' s' s'') : Forgets (U ++ U') s s'' where
  transferred := h'.transferred.trans h.transferred
  refs := by
    intro x
    rcases h'.refs x with hx | hx
    · exact .inl hx
    · rw [hx]
      exact h.refs x
  gone := by
    intro x hx
    rcases mem_append.1 hx with hx | hx
    · rcases h'.refs x with hn | heq
      · exact hn
      · rw [heq]
        exact h.gone x hx
    · exact h'.gone x hx

theorem Forgets.mono {s : State} (h : Forgets U s s') (hu : ∀ x ∈ U', x ∈ U) : Forgets U' s s' :=
  ⟨h.transferred, h.refs, fun x hx => h.gone x (hu x hx)⟩

theorem forgets_setRef (s : State) (x : ℕ) : Forgets [x] s (s.setRef x none) where
  transferred := rfl
  refs := by
    intro y
    by_cases hy : y = x
    · exact .inl (by rw [State.setRef, hy]; exact update_self ..)
    · exact .inr (by exact update_of_ne hy ..)
  gone := by
    intro y hy
    rw [mem_singleton.1 hy]
    exact update_self ..

theorem forgets_foldl (vars : List ℕ) (s : State) : Forgets vars s (vars.foldl (fun s x => s.setRef x none) s) := by
  induction vars generalizing s with
  | nil => exact .refl s
  | cons x vars ih => exact (forgets_setRef s x).trans (ih _)

/-- in a conditional or a loop, `optimize` forgets the last uses of what is used there -/
theorem optimize_forgets {c : Context} (hc : c.busy = true) (t : Node) (ht : t.timesNoLocals) (s : State) :
    Forgets t.uses s (optimize c t s) := by
  induction t generalizing s c with
  | null | opcode | counter | caseLabel | controlJump => exact .refl s
  | «local» id x =>
    rw [optimize, if_pos hc]
    exact forgets_setRef s x
  | localLvalue x => exact forgets_setRef s x
  | unaryOp r ih | call r ih | ret r ih | «catch» r ih => exact ih hc ht s
  | voidAssignLocal x r ih =>
    rw [optimize, if_pos hc]
    exact ih hc ht s
  | assign l r ihl ihr =>
    have hsame : (match r.localLvalue? with
        | some x => if c.busy then optimize c l s else (optimize c l s).transfer x
        | none => optimize c l s) = optimize c l s := by
      cases r.localLvalue? with
      | none => rfl
      | some x => exact if_pos hc
    rw [optimize, hsame]
    refine ((ihl hc ht.1 s).trans (ihr hc ht.2 _)).mono ?_
    intro x hx
    rw [Node.uses] at hx
    rcases mem_append.1 hx with hx | hx
    · exact mem_append.2 (.inl hx)
    · split_ifs at hx
      · cases hx
      · exact mem_append.2 (.inr hx)
  | binaryOp l r ihl ihr | twoValues l r ihl ihr | exprList l r ihl ihr | lvalueEfun l r ihl ihr
  | lvalueList l r ihl ihr | landLor l r ihl ihr | branchLink l r ihl ihr =>
    exact (ihl hc ht.1 s).trans (ihr hc ht.2 _)
  | ternaryOp l m r ihl ihm ihr => exact (ihl hc ht.1 s).trans ((ihm hc ht.2.1 _).trans (ihr hc ht.2.2 _))
  | ifNode v l r ihv ihl ihr =>
    have hc' : ({ c with inCond := true } : Context).busy = true := or_true _
    exact (ihv hc ht.1 s).trans ((ihl hc' ht.2.1 _).trans (ihr hc' ht.2.2 _))
  | loop tf v l r ihv ihl ihr =>
    have hc' : ({ c with inLoop := true } : Context).busy = true := true_or _
    exact (ihv hc' ht.1 s).trans ((ihl hc' ht.2.1 _).trans (ihr hc' ht.2.2 _))
  | foreach vars v ih =>
    refine ((forgets_foldl vars s).trans (ih hc ht _)).mono ?_
    intro x hx
    exact mem_append.2 (.inr hx)
  | switch l r ihl ihr =>
    have hc' : ({ c with inCond := true } : Context).busy = true := or_true _
    exact (ihl hc ht.1 s).trans (ihr hc' ht.2 _)
  | timeExpression r ih =>
    refine (Forgets.refl s).mono ?_
    intro x hx
    rw [Node.uses, ht.1] at hx
    exact hx

variable {T : List ℕ} {D₀ : Finset ℕ} {P Q R : LocalPaths}

/-- paths on which the emptied variables stay among `D₀` -/
def Calm (T : List ℕ) (D₀ : Finset ℕ) (P : LocalPaths) : Prop :=
  Triple (useAfterTransfer false T) (· ⊆ D₀) P fun _ D => D ⊆ D₀

theorem Calm.seq (hP : Calm T D₀ P) (hQ : Calm T D₀ Q) : Calm T D₀ (seq P Q) := by
  refine Triple.seq ?_ hQ
  apply hP.mono (fun _ h => h)
  intro o d hd
  cases o <;> exact hd

theorem Calm.choice (hP : Calm T D₀ P) (hQ : Calm T D₀ Q) : Calm T D₀ (choice P Q) := Triple.choice hP hQ

theorem Calm.iter (hP : Calm T D₀ P) : Calm T D₀ (iter P) := by
  refine Triple.iter (hP.mono (fun _ h => h) ?_) fun _ h => h
  intro o d hd
  cases o <;> exact hd

theorem Calm.redirect (hP : Calm T D₀ P) (k : Exit) : Calm T D₀ (redirect k P) := Triple.redirect hP fun _ h => h

theorem calm_skip : Calm T D₀ skip := triple_skip fun _ h => h

theorem calm_leave (k : Exit) : Calm T D₀ (leave k) := triple_leave fun _ h => h

theorem calm_instruction : Calm T D₀ instruction := calm_skip.choice (calm_leave _)

theorem calm_none : Calm T D₀ fun _ _ => False := fun _ _ _ _ h => h.elim

variable {x : ℕ} {id : ℕ}

theorem calm_read (hid : id ∉ T) (hx : x ∉ D₀) : Calm T D₀ (emit (.read id x)) := by
  apply triple_emit
  intro D hD
  refine ⟨D, ?_, hD⟩
  rw [useAfterTransfer, if_neg fun h => hx (hD h), if_neg hid]

theorem calm_lvalue (hx : x ∉ D₀) : Calm T D₀ (emit (.lvalue x)) := by
  apply triple_emit
  intro D hD
  exact ⟨D, if_neg fun h => hx (hD h), hD⟩

theorem calm_assign (x : ℕ) : Calm T D₀ (emit (.assign x)) := by
  apply triple_emit
  intro D hD
  exact ⟨D.erase x, rfl, (Finset.erase_subset x D).trans hD⟩

theorem calm_count (x : ℕ) : Calm T D₀ (emit (.count x)) := by
  apply triple_emit
  intro D hD
  refine ⟨D, ?_, hD⟩
  rw [useAfterTransfer, if_neg fun h => Bool.false_ne_true h.1]

theorem calm_counter (xs : List ℕ) :
    Calm T D₀ (xs.foldr (fun x P => seq instruction (seq (emit (.count x)) P)) skip) := by
  induction xs with
  | nil => exact calm_skip
  | cons x xs ih => exact calm_instruction.seq ((calm_count x).seq ih)

/-- no emptied variable is used and no node is a transfer -/
def Quiet (T : List ℕ) (D₀ : Finset ℕ) (uses ids : List ℕ) : Prop := (∀ x ∈ uses, x ∉ D₀) ∧ ∀ id ∈ ids, id ∉ T

theorem Quiet.split {i j : List ℕ} (h : Quiet T D₀ (U ++ U') (i ++ j)) : Quiet T D₀ U i ∧ Quiet T D₀ U' j := by
  obtain ⟨hu, hu'⟩ := forall_mem_append.1 h.1
  obtain ⟨hi, hj⟩ := forall_mem_append.1 h.2
  exact ⟨⟨hu, hi⟩, hu', hj⟩

/-- what a tree does when no emptied variable is used in it and none of its nodes is a transfer -/
theorem calm_sem (t : Node) (h : Quiet T D₀ t.uses t.ids) : Calm T D₀ (sem t).1 ∧ Calm T D₀ (sem t).2 := by
  induction t with
  | null => exact ⟨calm_skip, calm_none⟩
  | opcode => exact ⟨calm_instruction, calm_none⟩
  | «local» id x =>
    refine ⟨calm_instruction.seq (calm_read (h.2 id ?_) (h.1 x ?_)), calm_none⟩
    all_goals exact mem_singleton.2 rfl
  | localLvalue x =>
    refine ⟨calm_instruction.seq (calm_lvalue (h.1 x ?_)), calm_none⟩
    exact mem_singleton.2 rfl
  | counter xs => exact ⟨calm_counter xs, calm_none⟩
  | unaryOp r ih | call r ih | foreach _ r ih => exact ⟨(ih h).1.seq calm_instruction, calm_none⟩
  | voidAssignLocal x r ih => exact ⟨(ih h).1.seq (calm_instruction.seq (calm_assign x)), calm_none⟩
  | assign l r ihl ihr =>
    rw [Node.uses] at h
    obtain ⟨hl, hr⟩ := h.split
    refine ⟨?_, calm_none⟩
    rw [sem]
    cases hx : r.localLvalue? with
    | some x => exact (ihl hl).1.seq (calm_instruction.seq (calm_assign x))
    | none =>
      rw [hx] at hr
      exact (ihl hl).1.seq ((ihr hr).1.seq calm_instruction)
  | binaryOp l r ihl ihr =>
    obtain ⟨hl, hr⟩ := h.split
    exact ⟨(ihl hl).1.seq ((ihr hr).1.seq calm_instruction), calm_none⟩
  | ternaryOp l m r ihl ihm ihr =>
    obtain ⟨hl, hmr⟩ := h.split
    obtain ⟨hm, hr⟩ := hmr.split
    exact ⟨(ihl hl).1.seq ((ihm hm).1.seq ((ihr hr).1.seq calm_instruction)), calm_none⟩
  | twoValues l r ihl ihr =>
    obtain ⟨hl, hr⟩ := h.split
    exact ⟨(ihl hl).1.seq (ihr hr).1, ((ihl hl).2.seq (ihr hr).1).choice (ihr hr).2⟩
  | exprList l r ihl ihr | lvalueEfun l r ihl ihr =>
    obtain ⟨hl, hr⟩ := h.split
    exact ⟨(ihl hl).1.seq (ihr hr).1, calm_none⟩
  | lvalueList l r ihl ihr =>
    obtain ⟨hl, hr⟩ := h.split
    exact ⟨(ihl hl).1.seq (calm_instruction.seq (ihr hr).1), calm_none⟩
  | landLor l r ihl ihr | branchLink l r ihl ihr =>
    obtain ⟨hl, hr⟩ := h.split
    exact ⟨(ihl hl).1.seq (calm_skip.choice (ihr hr).1), calm_none⟩
  | ifNode v l r ihv ihl ihr =>
    obtain ⟨hv, hlr⟩ := h.split
    obtain ⟨hl, hr⟩ := hlr.split
    exact ⟨(ihv hv).1.seq ((ihl hl).1.choice (ihr hr).1), calm_none⟩
  | loop tf v l r ihv ihl ihr =>
    obtain ⟨hv, hlr⟩ := h.split
    obtain ⟨hl, hr⟩ := hlr.split
    have hround := ((ihv hv).1.redirect .continueLoop).seq ((ihl hl).1.seq (ihr hr).1)
    refine ⟨?_, calm_none⟩
    cases tf with
    | true => exact ((ihr hr).1.seq hround.iter).redirect _
    | false => exact (hround.seq hround.iter).redirect _
  | caseLabel => exact ⟨calm_skip, calm_skip⟩
  | switch l r ihl ihr =>
    obtain ⟨hl, hr⟩ := h.split
    exact ⟨(ihl hl).1.seq ((calm_skip.choice (ihr hr).2).redirect _), calm_none⟩
  | controlJump k => exact ⟨calm_leave k, calm_none⟩
  | ret r ih => exact ⟨(ih h).1.seq (calm_leave _), calm_none⟩
  | «catch» r ih => exact ⟨(ih h).1.redirect _, calm_none⟩
  | timeExpression r ih => exact ⟨calm_instruction.seq ((ih h).1.seq calm_instruction), calm_none⟩

/-! ## Outside conditionals and loops -/

/-- every emptied variable was emptied by its last use -/
def EmptiedByLastRef (T : List ℕ) (s : State) (D : Finset ℕ) : Prop := ∀ x ∈ D, ∃ id ∈ T, s.lastRefs x = some id

/-- the last uses are nodes seen so far (`V`), of one variable each, and not transfers yet -/
structure Tracked (V : List ℕ) (s : State) : Prop where
  refs : ∀ x id, s.lastRefs x = some id → id ∈ V ∧ id ∉ s.transferred
  inj : ∀ x y id, s.lastRefs x = some id → s.lastRefs y = some id → x = y
  transferred : ∀ id ∈ s.transferred, id ∈ V

/-- the nodes seen so far that will be transfers are transfers already, or still last uses -/
def Foreseen (T V : List ℕ) (s : State) : Prop :=
  ∀ id ∈ V, id ∈ T → id ∈ s.transferred ∨ ∃ x, s.lastRefs x = some id

/-- at the end of a piece, and, unless it has made transfers, at its exits -/
def after (T : List ℕ) (s : State) (moves : Bool) : Outcome Exit → Finset ℕ → Prop
  | .normal, D => EmptiedByLastRef T s D
  | .exit _, D => moves = false → EmptiedByLastRef T s D

/-- a piece of code with paths `P` and the nodes `ids`, on which `optimize` takes `s` to `opt s` -/
structure Piece (ids : List ℕ) (opt : State → State) (P : LocalPaths) (moves : Bool) : Prop where
  tracked : ∀ V s, Tracked V s → (∀ id ∈ ids, id ∉ V) → Tracked (V ++ ids) (opt s)
  refs : ∀ s x id, (opt s).lastRefs x = some id → s.lastRefs x = some id ∨ id ∈ ids
  transferred : ∀ s, ∀ id ∈ (opt s).transferred, id ∈ s.transferred ∨ (∃ x, s.lastRefs x = some id) ∨ id ∈ ids
  still : moves = false → ∀ s, (opt s).transferred = s.transferred
  sound : ∀ T V s, Tracked V s → (∀ id ∈ ids, id ∉ V) → Foreseen T (V ++ ids) (opt s) →
    Triple (useAfterTransfer false T) (EmptiedByLastRef T s) P (after T (opt s) moves)

variable {V i j : List ℕ} {s : State} {D : Finset ℕ} {o o' : State → State} {k k' : Bool} {y id' : ℕ}

theorem Piece.foreseen (h : Piece i o P k) (hi : ∀ id ∈ i, id ∉ V) (hf : Foreseen T (V ++ i) (o s)) :
    Foreseen T V s := by
  intro id hv ht
  have hni : id ∉ i := fun hid => hi id hid hv
  rcases hf id (mem_append.2 (.inl hv)) ht with hid | ⟨x, hx⟩
  · rcases h.transferred s id hid with hid | hid | hid
    · exact .inl hid
    · exact .inr hid
    · exact absurd hid hni
  · exact .inr ⟨x, (h.refs s x id hx).resolve_right hni⟩

/-- where no transfer is made, the last uses of the emptied variables are kept -/
theorem lastRefs_kept (hrefs : ∀ x id, s'.lastRefs x = some id → s.lastRefs x = some id ∨ id ∈ i)
    (hstill : s'.transferred = s.transferred) (hs : Tracked V s) (hi : ∀ id ∈ i, id ∉ V) (hf : Foreseen T (V ++ i) s')
    (hD : EmptiedByLastRef T s D) : ∀ x ∈ D, s'.lastRefs x = s.lastRefs x := by
  intro x hx
  obtain ⟨id, ht, hid⟩ := hD x hx
  obtain ⟨hv, hn⟩ := hs.refs x id hid
  rcases hf id (mem_append.2 (.inl hv)) ht with hm | ⟨y, hy⟩
  · rw [hstill] at hm
    exact absurd hm hn
  · have hy' := (hrefs y id hy).resolve_right fun hid => hi id hid hv
    rw [hs.inj x y id hid hy', hy, hy']

theorem EmptiedByLastRef.congr (hD : EmptiedByLastRef T s D)
    (heq : ∀ x ∈ D, s'.lastRefs x = s.lastRefs x) : EmptiedByLastRef T s' D := by
  intro x hx
  rw [heq x hx]
  exact hD x hx

theorem Piece.keeps (h : Piece i o P false) (hs : Tracked V s) (hi : ∀ id ∈ i, id ∉ V)
    (hf : Foreseen T (V ++ i) (o s)) (hD : EmptiedByLastRef T s D) : EmptiedByLastRef T (o s) D :=
  hD.congr (lastRefs_kept (h.refs s) (h.still rfl s) hs hi hf hD)

/-- what is new behind one part is new behind both -/
theorem fresh_behind (hij : List.Disjoint i j) (hv : ∀ id ∈ i ++ j, id ∉ V) : ∀ id ∈ j, id ∉ V ++ i :=
  fun id hid => not_mem_append ((forall_mem_append.1 hv).2 id hid) fun hm => hij hm hid

theorem Piece.seq (h : Piece i o P k) (h' : Piece j o' Q k') (hij : List.Disjoint i j) :
    Piece (i ++ j) (fun s => o' (o s)) (seq P Q) (k || k') where
  tracked := by
    intro V s hs hv
    rw [← append_assoc]
    exact h'.tracked _ _ (h.tracked V s hs (forall_mem_append.1 hv).1) (fresh_behind hij hv)
  refs := by
    intro s x id hx
    rcases h'.refs _ x id hx with hx | hx
    · exact (h.refs s x id hx).imp_right fun hm => mem_append.2 (.inl hm)
    · exact .inr (mem_append.2 (.inr hx))
  transferred := by
    intro s id hid
    rcases h'.transferred _ id hid with hid | ⟨x, hx⟩ | hid
    · exact (h.transferred s id hid).imp_right (Or.imp_right fun hm => mem_append.2 (.inl hm))
    · rcases h.refs s x id hx with hx | hx
      · exact .inr (.inl ⟨x, hx⟩)
      · exact .inr (.inr (mem_append.2 (.inl hx)))
    · exact .inr (.inr (mem_append.2 (.inr hid)))
  still := by
    intro hk s
    rw [or_eq_false_iff] at hk
    rw [h'.still hk.2, h.still hk.1]
  sound := by
    intro T V s hs hv hf
    have hvi := (forall_mem_append.1 hv).1
    have hvj := fresh_behind hij hv
    have hs' := h.tracked V s hs hvi
    rw [← append_assoc] at hf
    have hmid := h.sound T V s hs hvi (h'.foreseen hvj hf)
    have hend := h'.sound T (V ++ i) (o s) hs' hvj hf
    refine Triple.seq (hmid.mono (fun _ hd => hd) ?_) (hend.mono (fun _ hd => hd) ?_)
    · intro out d hd
      cases out with
      | normal => exact hd
      | exit e =>
        -- an exit of the first part skips the second
        intro hk
        rw [or_eq_false_iff] at hk
        rw [hk.2] at h'
        exact h'.keeps hs' hvj hf (hd hk.1)
    · intro out d hd
      cases out with
      | normal => exact hd
      | exit e => exact fun hk => hd (or_eq_false_iff.1 hk).2

/-- the state of the optimizer at every outcome -/
theorem after_of (hD : EmptiedByLastRef T s D) (out : Outcome Exit) : after T s k out D := by
  cases out with
  | normal => exact hD
  | exit e => exact fun _ => hD

/-- a piece on which `optimize` only forgets last uses, such as a conditional or a loop -/
theorem piece_forgets (h : ∀ s, Forgets U s (o s)) (hP : ∀ T D₀, Quiet T D₀ U i → Calm T D₀ P) : Piece i o P false := by
  have hrefs : ∀ s x id, (o s).lastRefs x = some id → s.lastRefs x = some id := by
    intro s x id hx
    rcases (h s).refs x with hn | heq
    · rw [hn] at hx
      cases hx
    · rwa [← heq]
  refine ⟨?_, fun s x id hx => .inl (hrefs s x id hx), ?_, fun _ s => (h s).transferred, ?_⟩
  · intro V s hs _
    refine ⟨?_, fun x y id hx hy => hs.inj x y id (hrefs s x id hx) (hrefs s y id hy), ?_⟩
    · intro x id hx
      rw [(h s).transferred]
      exact (hs.refs x id (hrefs s x id hx)).imp_left fun hv => mem_append.2 (.inl hv)
    · intro id hid
      rw [(h s).transferred] at hid
      exact mem_append.2 (.inl (hs.transferred id hid))
  · intro s id hid
    rw [(h s).transferred] at hid
    exact .inl hid
  · intro T V s hs hi hf d hd τ out hp
    have hkept := lastRefs_kept (fun x id hx => .inl (hrefs s x id hx)) (h s).transferred hs hi hf hd
    have huses : ∀ x ∈ U, x ∉ d := by
      intro x hx hm
      obtain ⟨id, -, hid⟩ := hd x hm
      have hgone := (h s).gone x hx
      rw [hkept x hm, hid] at hgone
      cases hgone
    have hids : ∀ id ∈ i, id ∉ T := by
      intro id hid ht
      rcases hf id (mem_append.2 (.inr hid)) ht with hm | ⟨x, hx⟩
      · rw [(h s).transferred] at hm
        exact hi id hid (hs.transferred id hm)
      · exact hi id hid (hs.refs x id (hrefs s x id hx)).1
    obtain ⟨d', hrun, hsub⟩ := hP T d ⟨huses, hids⟩ d (Finset.Subset.refl d) τ out hp
    refine ⟨d', hrun, after_of ?_ out⟩
    intro x hx
    obtain ⟨id, ht, hid⟩ := hd x (hsub hx)
    exact ⟨id, ht, (hkept x (hsub hx)).trans hid⟩

/-- a piece that leaves the optimizer alone -/
theorem piece_calm (h : ∀ T D₀, Calm T D₀ P) : Piece [] (fun s => s) P false :=
  piece_forgets (fun s => Forgets.refl s) fun T D₀ _ => h T D₀

theorem piece_instruction : Piece [] (fun s => s) instruction false := piece_calm fun _ _ => calm_instruction

theorem piece_lvalue (x : ℕ) : Piece [] (fun s => s.setRef x none) (emit (.lvalue x)) false :=
  piece_forgets (fun s => forgets_setRef s x) fun _ _ h => calm_lvalue (h.1 x (mem_singleton.2 rfl))

theorem setRef_self (s : State) (x : ℕ) (r : Option ℕ) : (s.setRef x r).lastRefs x = r := update_self ..

theorem setRef_of_ne (s : State) (r : Option ℕ) (h : y ≠ x) : (s.setRef x r).lastRefs y = s.lastRefs y :=
  update_of_ne h ..

theorem setRef_refs (h : (s.setRef x (some id)).lastRefs y = some id') :
    y = x ∧ id' = id ∨ y ≠ x ∧ s.lastRefs y = some id' := by
  by_cases hy : y = x
  · rw [hy, setRef_self] at h
    exact .inl ⟨hy, (Option.some.inj h).symm⟩
  · rw [setRef_of_ne s _ hy] at h
    exact .inr ⟨hy, h⟩

theorem setRef_refs_or (h : (s.setRef x (some id)).lastRefs y = some id') : s.lastRefs y = some id' ∨ id' ∈ [id] := by
  rcases setRef_refs h with ⟨-, rfl⟩ | ⟨-, h⟩
  · exact .inr (mem_singleton.2 rfl)
  · exact .inl h

/-- a use: it is the last one of its variable now -/
theorem piece_read (id x : ℕ) : Piece [id] (fun s => s.setRef x (some id)) (emit (.read id x)) false where
  tracked := by
    intro V s hs hi
    have hnew : id ∉ V := hi id (mem_singleton.2 rfl)
    refine ⟨?_, ?_, fun id' hid' => mem_append.2 (.inl (hs.transferred id' hid'))⟩
    · intro y id' hy
      rcases setRef_refs hy with ⟨-, rfl⟩ | ⟨-, hy⟩
      · exact ⟨mem_append.2 (.inr (mem_singleton.2 rfl)), fun hm => hnew (hs.transferred _ hm)⟩
      · exact (hs.refs y id' hy).imp_left fun hv => mem_append.2 (.inl hv)
    · intro y z id' hy hz
      rcases setRef_refs hy with ⟨rfl, rfl⟩ | ⟨-, hold⟩
      · rcases setRef_refs hz with ⟨rfl, -⟩ | ⟨-, hz⟩
        · rfl
        · exact absurd (hs.refs z _ hz).1 hnew
      · rcases setRef_refs hz with ⟨-, rfl⟩ | ⟨-, hz⟩
        · exact absurd (hs.refs y _ hold).1 hnew
        · exact hs.inj y z id' hold hz
  refs := fun _ _ _ => setRef_refs_or
  transferred := fun s id' hid' => .inl hid'
  still := fun _ _ => rfl
  sound := by
    intro T V s hs hi hf
    have hnew : id ∉ V := hi id (mem_singleton.2 rfl)
    apply triple_emit
    intro d hd
    have hkept : ∀ y ∈ d, (s.setRef x (some id)).lastRefs y = s.lastRefs y :=
      lastRefs_kept (fun _ _ => setRef_refs_or) rfl hs hi hf hd
    have hx : x ∉ d := by
      intro hm
      have heq := hkept x hm
      rw [setRef_self] at heq
      exact hnew (hs.refs x id heq.symm).1
    have hd' := EmptiedByLastRef.congr hd hkept
    rw [useAfterTransfer, if_neg hx]
    refine ⟨_, rfl, ?_⟩
    split_ifs with ht
    · intro y hy
      rcases Finset.mem_insert.1 hy with rfl | hy
      · exact ⟨id, ht, setRef_self s y _⟩
      · exact hd' y hy
    · exact hd'

theorem transfer_self (s : State) (x : ℕ) : (s.transfer x).lastRefs x = none := by
  rw [State.transfer]
  cases hx : s.lastRefs x with
  | none => exact hx
  | some r => exact update_self ..

theorem transfer_of_ne (hy : y ≠ x) : (s.transfer x).lastRefs y = s.lastRefs y := by
  rw [State.transfer]
  cases s.lastRefs x with
  | none => rfl
  | some r => exact update_of_ne hy ..

theorem transfer_refs (h : (s.transfer x).lastRefs y = some id) : y ≠ x ∧ s.lastRefs y = some id := by
  have hne : y ≠ x := by
    intro hy
    rw [hy, transfer_self] at h
    cases h
  rw [transfer_of_ne hne] at h
  exact ⟨hne, h⟩

theorem mem_transfer : id ∈ (s.transfer x).transferred ↔ s.lastRefs x = some id ∨ id ∈ s.transferred := by
  rw [State.transfer]
  cases s.lastRefs x with
  | none => exact ⟨.inr, fun h => h.resolve_left nofun⟩
  | some r =>
    rw [mem_cons, Option.some.injEq, eq_comm]

/-- a plain assignment: the last use before it becomes a transfer -/
theorem piece_assign (x : ℕ) : Piece [] (fun s => s.transfer x) (emit (.assign x)) true where
  tracked := by
    intro V s hs _
    rw [append_nil]
    refine ⟨?_, fun y z id hy hz => hs.inj y z id (transfer_refs hy).2 (transfer_refs hz).2, ?_⟩
    · intro y id hy
      obtain ⟨hne, hy⟩ := transfer_refs hy
      obtain ⟨hv, hn⟩ := hs.refs y id hy
      refine ⟨hv, fun hm => ?_⟩
      rcases mem_transfer.1 hm with hx | hm
      · exact hne (hs.inj y x id hy hx)
      · exact hn hm
    · intro id hid
      rcases mem_transfer.1 hid with hx | hid
      · exact (hs.refs x id hx).1
      · exact hs.transferred id hid
  refs := fun s y id hy => .inl (transfer_refs hy).2
  transferred := by
    intro s id hid
    rcases mem_transfer.1 hid with hx | hid
    · exact .inr (.inl ⟨x, hx⟩)
    · exact .inl hid
  still := nofun
  sound := by
    intro T V s hs _ hf
    apply triple_emit
    intro d hd
    refine ⟨d.erase x, rfl, ?_⟩
    intro y hy
    obtain ⟨hne, hy⟩ := Finset.mem_erase.1 hy
    rw [transfer_of_ne hne]
    exact hd y hy

/-- a piece that may be skipped makes no transfer -/
theorem Piece.option (h : Piece i o P false) : Piece i o (choice skip P) false :=
  { h with
    sound := by
      intro T V s hs hi hf
      apply Triple.choice
      · exact triple_skip fun d hd => h.keeps hs hi hf hd
      · exact h.sound T V s hs hi hf }

/-- nor does one whose exits of some kind end it normally -/
theorem Piece.redirect (h : Piece i o P false) (e : Exit) : Piece i o (redirect e P) false :=
  { h with sound := fun T V s hs hi hf => Triple.redirect (h.sound T V s hs hi hf) fun _ hd => hd rfl }

theorem Piece.then_instruction (h : Piece i o P k) : Piece i o (Core.Paths.seq P instruction) k := by
  have hseq := h.seq piece_instruction (disjoint_nil_right i)
  rwa [append_nil, Bool.or_false] at hseq

theorem piece_instruction_then (h : Piece i o P k) : Piece i o (Core.Paths.seq instruction P) k :=
  piece_instruction.seq h (disjoint_nil_left i)

theorem Piece.weaken (h : Piece i o P k) : Piece i o P true :=
  { h with
    still := nofun
    sound := by
      intro T V s hs hi hf
      refine (h.sound T V s hs hi hf).mono (fun _ hd => hd) ?_
      intro out d hd
      cases out with
      | normal => exact hd
      | exit e => nofun }

theorem transfer_setRef (s : State) (x : ℕ) : (s.transfer x).setRef x none = s.transfer x := by
  rw [State.setRef, ← transfer_self s x, update_eq_self]

theorem localLvalue?_eq_some {t : Node} (h : t.localLvalue? = some x) : t = .localLvalue x := by
  unfold Node.localLvalue? at h
  split at h
  · rw [Option.some.inj h]
  · cases h

/-- every tree is a piece, if no assignment in it can be skipped unseen -/
theorem piece_sem (t : Node) (hnd : t.ids.Nodup) (ht : t.tidy) :
    Piece t.ids (optimize ⟨false, false⟩ t) (sem t).1 t.assigns := by
  have hbusy : ({ inLoop := false, inCond := true } : Context).busy = true := rfl
  have hloop : ({ inLoop := true, inCond := false } : Context).busy = true := rfl
  induction t with
  | null | caseLabel => exact piece_calm fun _ _ => calm_skip
  | opcode => exact piece_instruction
  | «local» id x => exact piece_instruction_then (piece_read id x)
  | localLvalue x => exact piece_instruction_then (piece_lvalue x)
  | counter xs => exact piece_calm fun _ _ => calm_counter xs
  | unaryOp r ih | call r ih => exact (ih hnd ht).then_instruction
  | voidAssignLocal x r ih =>
    have hseq := (ih hnd ht).seq (piece_instruction_then (piece_assign x)) (disjoint_nil_right _)
    rw [append_nil, Bool.or_true] at hseq
    exact hseq
  | assign l r ihl ihr =>
    obtain ⟨hl, hr, hd⟩ := nodup_append'.1 hnd
    have hL := ihl hl ht.1
    rw [Node.assigns, sem]
    cases hx : r.localLvalue? with
    | some x =>
      have hr' := localLvalue?_eq_some hx
      have hseq := hL.seq (piece_instruction_then (piece_assign x)) (disjoint_nil_right _)
      have hopt : optimize ⟨false, false⟩ (.assign l r) = fun s => (optimize ⟨false, false⟩ l s).transfer x := by
        funext s
        rw [hr']
        exact transfer_setRef _ x
      rw [hopt, hr']
      exact hseq.weaken
    | none =>
      have hopt : optimize ⟨false, false⟩ (.assign l r) =
          fun s => optimize ⟨false, false⟩ r (optimize ⟨false, false⟩ l s) := by
        funext s
        rw [optimize, hx]
      rw [hopt]
      exact hL.seq (ihr hr ht.2).then_instruction hd
  | binaryOp l r ihl ihr =>
    obtain ⟨hl, hr, hd⟩ := nodup_append'.1 hnd
    exact (ihl hl ht.1).seq (ihr hr ht.2).then_instruction hd
  | ternaryOp l m r ihl ihm ihr =>
    obtain ⟨hl, hmr, hd⟩ := nodup_append'.1 hnd
    obtain ⟨hm, hr, hd'⟩ := nodup_append'.1 hmr
    exact (ihl hl ht.1).seq ((ihm hm ht.2.1).seq (ihr hr ht.2.2).then_instruction hd') hd
  | twoValues l r ihl ihr | exprList l r ihl ihr | lvalueEfun l r ihl ihr =>
    obtain ⟨hl, hr, hd⟩ := nodup_append'.1 hnd
    exact (ihl hl ht.1).seq (ihr hr ht.2) hd
  | lvalueList l r ihl ihr =>
    obtain ⟨hl, hr, hd⟩ := nodup_append'.1 hnd
    exact (ihl hl ht.1).seq (piece_instruction_then (ihr hr ht.2)) hd
  | landLor l r ihl ihr | branchLink l r ihl ihr =>
    obtain ⟨hl, hr, hd⟩ := nodup_append'.1 hnd
    have hR := ihr hr ht.2.1
    have hL := ihl hl ht.1
    rw [ht.2.2] at hR
    rw [Node.assigns, ht.2.2]
    exact hL.seq hR.option hd
  | ifNode v l r ihv ihl ihr =>
    obtain ⟨hv, -, hd⟩ := nodup_append'.1 hnd
    have hbranches : Piece (l.ids ++ r.ids) (fun s => optimize ⟨false, true⟩ r (optimize ⟨false, true⟩ l s))
        (choice (sem l).1 (sem r).1) false := by
      refine piece_forgets (fun s => (optimize_forgets hbusy l ht.2.1 s).trans (optimize_forgets hbusy r ht.2.2 _)) ?_
      intro T D₀ h
      exact (calm_sem l h.split.1).1.choice (calm_sem r h.split.2).1
    have hseq := (ihv hv ht.1).seq hbranches hd
    rw [Bool.or_false] at hseq
    exact hseq
  | loop tf v l r ihv ihl ihr =>
    refine piece_forgets (fun s => ?_) fun T D₀ h => (calm_sem _ h).1
    exact (optimize_forgets hloop v ht.1 s).trans ((optimize_forgets hloop l ht.2.1 _).trans
      (optimize_forgets hloop r ht.2.2 _))
  | foreach vars v ih =>
    have hclear : Piece [] (fun s => vars.foldl (fun s x => s.setRef x none) s) skip false :=
      piece_forgets (forgets_foldl vars) fun _ _ _ => calm_skip
    have hseq := hclear.seq (ih hnd ht).then_instruction (disjoint_nil_left _)
    rw [skip_seq] at hseq
    exact hseq
  | switch l r ihl ihr =>
    obtain ⟨hl, -, hd⟩ := nodup_append'.1 hnd
    have hcases : Piece r.ids (optimize ⟨false, true⟩ r) (Core.Paths.redirect .breakSwitch (choice skip (sem r).2))
        false := by
      refine piece_forgets (optimize_forgets hbusy r ht.2) ?_
      exact fun T D₀ h => (calm_skip.choice (calm_sem r h).2).redirect _
    have hseq := (ihl hl ht.1).seq hcases hd
    rw [Bool.or_false] at hseq
    exact hseq
  | controlJump e => exact piece_calm fun _ _ => calm_leave e
  | ret r ih =>
    have hseq := (ih hnd ht).seq (piece_calm fun _ _ => calm_leave .leaveFunction) (disjoint_nil_right _)
    rw [append_nil, Bool.or_false] at hseq
    exact hseq
  | «catch» r ih =>
    have hR := ih hnd ht.1
    rw [ht.2] at hR
    rw [Node.assigns, ht.2]
    exact hR.redirect .error
  | timeExpression r ih =>
    rw [Node.ids, ht.2]
    refine piece_calm ?_
    intro T D₀
    have hr : Calm T D₀ (sem r).1 := (calm_sem r ⟨by simp [ht.1], by simp [ht.2]⟩).1
    exact calm_instruction.seq (hr.seq calm_instruction)

/-! ## Function bodies -/

theorem mem_endFunction (vars : List ℕ) (s : State) (h : id ∈ (endFunction vars s).transferred) :
    id ∈ s.transferred ∨ ∃ x, s.lastRefs x = some id := by
  induction vars generalizing s with
  | nil => exact .inl h
  | cons x vars ih =>
    rcases ih (s.transfer x) h with hm | ⟨y, hy⟩
    · rcases mem_transfer.1 hm with hx | hm
      · exact .inr ⟨x, hx⟩
      · exact .inl hm
    · exact .inr ⟨y, (transfer_refs hy).2⟩

/-- **No use after a transfer.** In a function body where no assignment can be skipped unseen, no path uses a variable
after a transfer has emptied it and before it is assigned again, the counting instructions of loops apart. -/
theorem no_use_after_transfer (t : Node) (hnd : t.ids.Nodup) (ht : t.tidy) (τ : List Event) (out : Outcome Exit)
    (hp : paths t τ out) : (monitor (useAfterTransfer false (transfers t)) ∅ τ).isSome := by
  have hinit : Tracked [] .init := ⟨nofun, nofun, nofun⟩
  have hend : Foreseen (transfers t) ([] ++ t.ids) (optimize ⟨false, false⟩ t .init) :=
    fun id _ hid => mem_endFunction t.localVars _ hid
  have hsound := (piece_sem t hnd ht).sound (transfers t) [] .init hinit (fun _ _ => not_mem_nil) hend
  obtain ⟨d', hrun, -⟩ := hsound ∅ (fun x hx => absurd hx (Finset.notMem_empty x)) τ out hp
  rw [hrun]
  rfl

/-- `x = 1; use (x); if (y) x = 1;` -/
def sampleBody : Node :=
  .twoValues (.voidAssignLocal 0 .opcode)
    (.twoValues (.call (.exprList (.local 7 0) .null)) (.ifNode (.local 8 1) (.voidAssignLocal 0 .opcode) .null))

theorem no_use_after_transfer_sample : (sampleBody.ids.Nodup ∧ sampleBody.tidy ∧ transfers sampleBody = [8, 7]) ∧
      ∀ τ out, paths sampleBody τ out → (monitor (useAfterTransfer false (transfers sampleBody)) ∅ τ).isSome := by
  have hnd : sampleBody.ids.Nodup := by decide
  have ht : sampleBody.tidy := by simp [sampleBody, Node.tidy, Node.timesNoLocals]
  exact ⟨⟨hnd, ht, by decide⟩, no_use_after_transfer sampleBody hnd ht⟩

/-- `use (x); while (x--);` -/
def countedBody : Node := .twoValues (.unaryOp (.local 0 0)) (.loop true .null .null (.counter [0]))

theorem counter_reads_emptied : countedBody.ids.Nodup ∧ countedBody.tidy ∧ ∃ τ out, paths countedBody τ out ∧
      monitor (useAfterTransfer true (transfers countedBody)) ∅ τ = none := by
  refine ⟨by decide, by simp [countedBody, Node.tidy, Node.timesNoLocals], [.read 0 0, .count 0], .normal, ?_, by decide⟩
  have hinstr : instruction [] .normal := .inl ⟨rfl, rfl⟩
  have hread : paths (.unaryOp (.local 0 0)) [.read 0 0] .normal :=
    .inl ⟨[.read 0 0], [], .inl ⟨[], _, hinstr, ⟨rfl, rfl⟩, rfl⟩, hinstr, rfl⟩
  have htest : paths (.counter [0]) [.count 0] .normal :=
    .inl ⟨[], _, hinstr, .inl ⟨[.count 0], [], ⟨rfl, rfl⟩, ⟨rfl, rfl⟩, rfl⟩, rfl⟩
  -- the test fails at once
  have hloop : paths (.loop true .null .null (.counter [0])) [.count 0] .normal :=
    .inl ⟨.inl ⟨[.count 0], [], htest, .done, rfl⟩, nofun⟩
  exact .inl ⟨[.read 0 0], [.count 0], hread, hloop, rfl⟩

end Lithos.Lpc.Program.Optimizer
