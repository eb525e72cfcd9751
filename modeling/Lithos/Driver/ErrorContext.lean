/-
Error contexts of the driver: `src/error_context.cpp`, the catch of `src/frame.cpp` and the boundaries of
`safe_apply_call`, of the driver loop and of the call-out loop.

A boundary saves the heights of the value stack and of the control stack in a context and links it to the context
before; a runtime error is thrown as an exception to the innermost boundary, which cuts both stacks back to the saved
heights. `unwind` follows an exception through the boundaries: a `catch` ends a catchable error with its value on the
stack, and turns a limit into a new error behind itself; the driver's boundaries end every error.

The mudlib's error handler is code of the mudlib: it is a parameter that leaves the contexts alone and puts the stacks
back, unless an error leaves it. It may destruct objects, whose values on the stack become 0.
-/
import Mathlib.Tactic

namespace Lithos.Driver.ErrorContext

open List

/-! ## The machine -/

inductive Svalue where
  | number (n : ℤ)
  /-- `const0u` -/
  | undefined
  | string (s : String)
  | object (id : ℕ)
  | array (items : List Svalue)

inductive FrameKind where
  | function
  | funp
  | catch
  | fake
  deriving DecidableEq, Repr

/-- a control stack entry: its kind, and the registers it puts back when it is popped -/
structure Frame (R : Type) where
  kind : FrameKind
  regs : R

/-- the `try` block that a context belongs to -/
inductive Boundary where
  /-- `do_catch` -/
  | catch
  /-- `safe_apply_call`, with the values it was given -/
  | safeApply (numArg : ℕ) (withSlot : Bool)
  /-- `driver_loop` and `call_out`, which keep their context for the next turn -/
  | loop
  deriving DecidableEq, Repr

namespace Boundary

def isCatch : Boundary → Bool
  | .catch => true
  | _ => false

/-- the values on the stack that the boundary removes after an error -/
def owned : Boundary → ℕ
  | .safeApply numArg withSlot => numArg + withSlot.toNat
  | _ => 0

end Boundary

/-- `error_context_t`; heights count entries -/
structure Context where
  boundary : Boundary
  saveSp : ℕ
  saveCsp : ℕ
  saveCommandGiver : Option ℕ
  saveLastVerb : Option String
  deriving DecidableEq, Repr

structure Config where
  maxCallDepth : ℕ
  maxEvalCost : ℤ
  /-- the entries below `end_of_stack` -/
  stackSize : ℕ
  maxArraySize : ℕ

/-- both stacks have their bottom first -/
structure Vm (R : Type) where
  stack : List Svalue
  frames : List (Frame R)
  regs : R
  /-- the chain behind `current_error_context` -/
  contexts : List Context
  /-- `ES_STACK_FULL` -/
  stackFull : Bool
  /-- `ES_MAX_EVAL_COST` -/
  costExceeded : Bool
  evalCost : ℤ
  catchValue : Svalue
  inError : Bool
  inMudlibErrorHandler : Bool
  /-- `mud_state () == MS_FATAL_ERROR` -/
  fatalError : Bool
  commandGiver : Option ℕ
  lastVerb : Option String

/-- the exceptions of the driver -/
inductive Exc where
  | catchable (what : String)
  | limit (what : String)
  | fatal (what : String)
  deriving DecidableEq, Repr

variable {R : Type} (vm : Vm R)

namespace Vm

/-- `pop_n_elems`, none when it runs below the stack; its count is a `size_t`, and a negative number is more than any
stack has -/
def popNElems (n : ℤ) (vm : Vm R) : Option (Vm R) :=
  if 0 ≤ n ∧ n ≤ vm.stack.length then some { vm with stack := vm.stack.take (vm.stack.length - n.toNat) } else none

def clearErrorState (vm : Vm R) : Vm R := { vm with stackFull := false, costExceeded := false }

/-- a control stack entry for the current registers -/
def pushFrame (kind : FrameKind) (vm : Vm R) : Vm R := { vm with frames := vm.frames ++ [⟨kind, vm.regs⟩] }

/-- `pop_control_stack` -/
def popControlStack (vm : Vm R) : Vm R :=
  match vm.frames.getLast? with
  | none => vm
  | some f => { vm with frames := vm.frames.dropLast, regs := f.regs }

/-- `save_context`, when there is room for the frame that follows -/
def saveContext (b : Boundary) (vm : Vm R) : Vm R :=
  { vm with contexts := ⟨b, vm.stack.length, vm.frames.length, vm.commandGiver, vm.lastVerb⟩ :: vm.contexts }

/-- `pop_context`: the chain is the one that the context was linked to -/
def popContext (chain : List Context) (vm : Vm R) : Vm R := { vm with contexts := chain }.clearErrorState

/-- `restore_context` -/
def restoreContext (c : Context) (vm : Vm R) : Option (Vm R) :=
  let vm := { vm with commandGiver := c.saveCommandGiver, lastVerb := c.saveLastVerb }
  let vm := match vm.frames[c.saveCsp]? with
    | none => vm
    | some f => { vm with frames := vm.frames.take c.saveCsp, regs := f.regs }
  vm.popNElems ((vm.stack.length : ℤ) - c.saveSp)

/-- `has_active_catch_boundary` -/
def hasActiveCatchBoundary (vm : Vm R) : Bool :=
  vm.contexts.any fun c => (vm.frames[c.saveCsp]?).any (·.kind = .catch)

end Vm

/-- a value on the stack after objects were destructed (`remove_object_from_stack`) -/
def Survives (gone : List ℕ) (v v' : Svalue) : Prop := v' = v ∨ ∃ id ∈ gone, v = .object id ∧ v' = .number 0

theorem survives_refl (gone : List ℕ) (pre : List Svalue) : Forall₂ (Survives gone) pre pre :=
  forall₂_same.2 fun _ _ => .inl rfl

/-- the mudlib's error handler; with an error that leaves it, what it had pushed is still there -/
structure Mudlib (R : Type) where
  run : String → Bool → Vm R → Option Exc × Vm R
  /-- the objects that it may destruct -/
  gone : List ℕ
  contexts : ∀ err caught vm, (run err caught vm).2.contexts = vm.contexts
  frames : ∀ err caught vm, vm.frames <+: (run err caught vm).2.frames
  stack : ∀ err caught vm, ∃ pre, Forall₂ (Survives gone) vm.stack pre ∧ pre <+: (run err caught vm).2.stack
  fatalError : ∀ err caught vm, (run err caught vm).2.fatalError = vm.fatalError
  inError : ∀ err caught vm, (run err caught vm).2.inError = vm.inError
  balanced : ∀ err caught vm, (run err caught vm).1 = none → (run err caught vm).2.stack.length = vm.stack.length

/-- no error leaves the handler -/
def Mudlib.Returns (M : Mudlib R) : Prop := ∀ err caught vm, (M.run err caught vm).1 = none

/-- an error handler that does nothing -/
def quietMudlib : Mudlib Unit where
  run _ _ vm := (none, vm)
  gone := []
  contexts _ _ _ := rfl
  frames _ _ _ := prefix_rfl
  stack _ _ vm := ⟨vm.stack, survives_refl _ _, prefix_rfl⟩
  fatalError _ _ _ := rfl
  inError _ _ _ := rfl
  balanced _ _ _ _ := rfl

/-! ## Raising an error -/

/-- `handle_caught_error` with `LOG_CATCHES` -/
def handleCaughtError (M : Mudlib R) (err : String) (vm : Vm R) : Exc × Vm R :=
  if vm.costExceeded then (.limit "*Can't catch eval cost too big error.", vm)
  else if vm.stackFull then (.limit "*Can't catch too deep recursion error.", vm)
  else if vm.inMudlibErrorHandler then (.catchable err, { vm with catchValue := .string err })
  else
    match M.run err true { vm with inMudlibErrorHandler := true } with
    | (some e, vm') => (e, { vm' with inMudlibErrorHandler := vm.inMudlibErrorHandler })
    | (none, vm') =>
      (.catchable err, { vm' with inMudlibErrorHandler := vm.inMudlibErrorHandler, catchValue := .string err })

/-- the mudlib's handler as `handle_uncaught_error` calls it -/
def reportUncaught (M : Mudlib R) (err : String) (vm : Vm R) : Option Exc × Vm R :=
  if vm.inMudlibErrorHandler then (none, vm)
  else
    let (e, vm') := M.run err false { vm with inError := true, inMudlibErrorHandler := true }
    (e, { vm' with inError := vm.inError, inMudlibErrorHandler := vm.inMudlibErrorHandler })

/-- `handle_uncaught_error`; none when it calls `fatal` -/
def handleUncaughtError (M : Mudlib R) (err : String) (vm : Vm R) : Option (Exc × Vm R) :=
  if vm.inError then if vm.contexts.isEmpty then none else some (.fatal err, vm)
  else
    match reportUncaught M err vm with
    | (some e, vm') => some (e, vm')
    | (none, vm') => if vm.contexts.isEmpty then none else some (.catchable err, vm')

def errorHandler (M : Mudlib R) (err : String) (vm : Vm R) : Option (Exc × Vm R) :=
  if vm.hasActiveCatchBoundary && !vm.fatalError then some (handleCaughtError M err vm)
  else handleUncaughtError M err vm

/-- what `error` makes of a message that fits its buffer -/
def errorText (err : String) : String := if err.toList.getLast? = some '\n' then err else err ++ "\n"

/-! ## Unwinding -/

/-- how an evaluation goes on -/
inductive Outcome (R : Type) where
  /-- behind the instruction -/
  | ran (vm : Vm R)
  /-- behind a catch that has completed with the error's value -/
  | caught (vm : Vm R)
  /-- behind a boundary of the driver that got the error -/
  | landed (vm : Vm R)
  /-- the driver has ended -/
  | dead
  /-- `pop_n_elems` has run below the value stack -/
  | underflow
  /-- `current_error_context` is left at a context of a function that has ended -/
  | dangling

/-- the message of a limit that `do_catch` has received -/
def limitMessage (vm : Vm R) (what : String) : String :=
  if vm.costExceeded then "*Can't catch eval cost too big error."
  else if vm.stackFull then "*Can't catch too deep recursion error."
  else what

/-- a boundary of the driver behind `restore_context` -/
def landBoundary (c : Context) (cs : List Context) (vm : Vm R) : Outcome R :=
  match c.boundary with
  | .safeApply numArg withSlot =>
    match vm.popNElems (numArg + withSlot.toNat) with
    | none => .underflow
    | some vm =>
      -- the slot's place was on the stack before, so that this push needs no check
      .landed ({ vm with stack := vm.stack ++ if withSlot then [Svalue.undefined] else [] }.popContext cs)
  | _ => if vm.contexts = c :: cs then .landed vm else .dangling

/-- the way of an exception through the boundaries of the chain -/
def unwind (M : Mudlib R) : List Context → Exc → Vm R → Outcome R
  | [], _, _ => .dead
  | c :: cs, e, vm =>
    match c.boundary, e with
    | .catch, .catchable _ =>
      match vm.restoreContext c with
      | none => .underflow
      | some vm => .caught ({ vm with stack := vm.stack ++ [vm.catchValue], catchValue := .number 1 }.popContext cs)
    | .catch, .limit what =>
      match vm.restoreContext c with
      | none => .underflow
      | some vm =>
        match errorHandler M (errorText (limitMessage vm what)) (vm.popContext cs) with
        | none => .dead
        | some (e, vm) => unwind M cs e vm
    -- `do_catch` has no handler for it, and the chain stays as it is
    | .catch, .fatal _ => unwind M cs e vm
    | _, _ =>
      match vm.restoreContext c with
      | none => .underflow
      | some vm => landBoundary c cs vm

/-- `error` -/
def error (M : Mudlib R) (err : String) (vm : Vm R) : Outcome R :=
  match errorHandler M (errorText err) vm with
  | none => .dead
  | some (e, vm) => unwind M vm.contexts e vm

/-- the fields that contexts look at are the same -/
structure Vm.Agrees (vm vm' : Vm R) : Prop where
  contexts : vm.contexts = vm'.contexts
  frames : vm.frames = vm'.frames
  stack : vm.stack.length = vm'.stack.length
  alive : vm.fatalError = vm'.fatalError
  calm : vm.inError = vm'.inError

theorem Vm.Agrees.trans {vm vm' vm₁ : Vm R} (h : vm.Agrees vm') (h' : vm'.Agrees vm₁) : vm.Agrees vm₁ :=
  ⟨h.contexts.trans h'.contexts, h.frames.trans h'.frames, h.stack.trans h'.stack, h.alive.trans h'.alive,
    h.calm.trans h'.calm⟩

theorem popControlStack_agrees : vm.popControlStack.Agrees { vm with frames := vm.frames.dropLast } := by
  unfold Vm.popControlStack
  match hlast : vm.frames.getLast? with
  | none =>
    rw [getLast?_eq_none_iff.1 hlast]
    exact ⟨rfl, getLast?_eq_none_iff.1 hlast, rfl, rfl, rfl⟩
  | some f => exact ⟨rfl, rfl, rfl, rfl, rfl⟩

/-! ## The chain of contexts -/

/-- `c` was saved inside the boundary of `c'` -/
structure Context.Inside (c c' : Context) : Prop where
  csp_le : c'.saveCsp ≤ c.saveCsp
  /-- between a catch and a boundary beside it there is the frame of the catch or of the code that has it -/
  csp_lt : c.boundary.isCatch = true ∨ c'.boundary.isCatch = true → c'.saveCsp < c.saveCsp
  sp_le : c'.saveSp + c.boundary.owned ≤ c.saveSp

/-- the contexts fit the stacks, and the frame that follows a context tells whether it is a catch -/
structure Inv (vm : Vm R) : Prop where
  alive : vm.fatalError = false
  calm : vm.inError = false
  marks : ∀ c ∈ vm.contexts, (vm.frames[c.saveCsp]?).any (·.kind = .catch) = c.boundary.isCatch
  csp_le : ∀ c ∈ vm.contexts, c.saveCsp ≤ vm.frames.length
  sp_le : ∀ c ∈ vm.contexts, c.saveSp ≤ vm.stack.length
  owned_le : ∀ c ∈ vm.contexts, c.boundary.owned ≤ c.saveSp
  nested : vm.contexts.Pairwise Context.Inside

/-- a catch among the boundaries -/
def catches (cs : List Context) : Bool := cs.any (·.boundary.isCatch)

theorem hasActiveCatchBoundary_eq {vm : Vm R} (h : Inv vm) : vm.hasActiveCatchBoundary = catches vm.contexts := by
  rw [Bool.eq_iff_iff, Vm.hasActiveCatchBoundary, catches, any_eq_true, any_eq_true]
  refine exists_congr fun c => and_congr_right fun hc => ?_
  rw [h.marks c hc]

theorem boundary_of_isCatch {b : Boundary} (h : b.isCatch = true) : b = .catch := by
  cases b with
  | «catch» => rfl
  | safeApply | loop => cases h

/-- what an error handler of the mudlib may leave on the stacks -/
structure Vm.Extends (vm vm' : Vm R) : Prop where
  frames : vm.frames <+: vm'.frames
  stack : vm.stack.length ≤ vm'.stack.length
  alive : vm'.fatalError = vm.fatalError
  calm : vm'.inError = vm.inError

theorem Vm.Extends.refl : vm.Extends vm := ⟨prefix_rfl, le_rfl, rfl, rfl⟩

variable {M : Mudlib R} {vm vm' vm₁ : Vm R} {c : Context} {cs : List Context} {err : String} {e : Exc}

/-- the machine behind the innermost boundary -/
def Vm.behind (vm : Vm R) (c : Context) (cs : List Context) : Vm R :=
  { vm with frames := vm.frames.take c.saveCsp, stack := vm.stack.take c.saveSp, contexts := cs }

/-- `restore_context` cuts both stacks to the saved heights -/
theorem restoreContext_eq (hsp : c.saveSp ≤ vm.stack.length) :
    ∃ vm₁, vm.restoreContext c = some vm₁ ∧ vm₁.Agrees (vm.behind c vm.contexts) ∧
      vm₁.stack = vm.stack.take c.saveSp := by
  have hdiff : 0 ≤ (vm.stack.length : ℤ) - c.saveSp ∧ (vm.stack.length : ℤ) - c.saveSp ≤ vm.stack.length := by
    omega
  have hcount : vm.stack.length - ((vm.stack.length : ℤ) - c.saveSp).toNat = c.saveSp := by omega
  match hget : vm.frames[c.saveCsp]? with
  | none =>
    have hall : vm.frames = vm.frames.take c.saveCsp :=
      (take_of_length_le (getElem?_eq_none_iff.1 hget)).symm
    simp only [Vm.restoreContext, hget, Vm.popNElems, if_pos hdiff, hcount]
    exact ⟨_, rfl, ⟨rfl, hall, rfl, rfl, rfl⟩, rfl⟩
  | some f =>
    simp only [Vm.restoreContext, hget, Vm.popNElems, if_pos hdiff, hcount]
    exact ⟨_, rfl, ⟨rfl, rfl, rfl, rfl, rfl⟩, rfl⟩

/-- with fewer values than were saved it runs below the stack -/
theorem restoreContext_eq_none (hsp : vm.stack.length < c.saveSp) : vm.restoreContext c = none := by
  have hneg : ¬ (0 ≤ (vm.stack.length : ℤ) - c.saveSp ∧ (vm.stack.length : ℤ) - c.saveSp ≤ vm.stack.length) := by
    omega
  match hget : vm.frames[c.saveCsp]? with
  | none | some f => simp only [Vm.restoreContext, hget, Vm.popNElems, if_neg hneg]

theorem popNElems_ofNat {n : ℕ} (h : n ≤ vm.stack.length) :
    vm.popNElems n = some { vm with stack := vm.stack.take (vm.stack.length - n) } := by
  rw [Vm.popNElems, if_pos ⟨Int.natCast_nonneg n, Int.ofNat_le.2 h⟩, Int.toNat_natCast]

/-- a higher value stack -/
theorem Inv.grow (h : Inv vm) (ha : vm'.Agrees { vm with stack := vm'.stack })
    (hstack : vm.stack.length ≤ vm'.stack.length) : Inv vm' := by
  obtain ⟨hcontexts, hframes, -, halive, hcalm⟩ := ha
  refine ⟨halive.trans h.alive, hcalm.trans h.calm, ?_, ?_, ?_, ?_, ?_⟩
  · rw [hcontexts, hframes]
    exact h.marks
  · rw [hcontexts, hframes]
    exact h.csp_le
  · rw [hcontexts]
    exact fun c hc => (h.sp_le c hc).trans hstack
  · rw [hcontexts]
    exact h.owned_le
  · rw [hcontexts]
    exact h.nested

theorem Inv.of_agrees (h : Inv vm) (ha : vm'.Agrees vm) : Inv vm' :=
  h.grow ⟨ha.contexts, ha.frames, rfl, ha.alive, ha.calm⟩ ha.stack.ge

/-- behind the innermost boundary the rest of the chain is sound -/
theorem Inv.cut (h : Inv vm) (hchain : vm.contexts = c :: cs) {stack : List Svalue}
    (hstack : c.saveSp - c.boundary.owned ≤ stack.length) : Inv { vm.behind c cs with stack := stack } := by
  have hmem : ∀ c' ∈ cs, c' ∈ vm.contexts := fun c' hc' => hchain ▸ .tail _ hc'
  have hnested := h.nested
  rw [hchain, pairwise_cons] at hnested
  have hcsp : c.saveCsp ≤ vm.frames.length := h.csp_le c (hchain ▸ .head _)
  refine ⟨h.alive, h.calm, fun c' hc' => ?_, fun c' hc' => ?_, fun c' hc' => ?_,
    fun c' hc' => h.owned_le c' (hmem c' hc'), hnested.2⟩
  · have hinside := hnested.1 c' hc'
    have hmark := h.marks c' (hmem c' hc')
    simp only [Vm.behind, getElem?_take]
    split_ifs with hlt
    · exact hmark
    · -- no frame is left above the boundary, which is none of a catch
      cases hcatch : c'.boundary.isCatch with
      | false => rfl
      | true => exact absurd (hinside.csp_lt (.inr hcatch)) hlt
  · simp only [Vm.behind, length_take, Nat.min_eq_left hcsp]
    exact (hnested.1 c' hc').csp_le
  · have := (hnested.1 c' hc').sp_le
    dsimp only
    omega

theorem Inv.behind (h : Inv vm) (hchain : vm.contexts = c :: cs) : Inv (vm.behind c cs) := by
  refine h.cut hchain ?_
  have := h.sp_le c (hchain ▸ .head _)
  rw [length_take]
  omega

/-- the boundary of a loop stays with the stacks cut back to it -/
theorem Inv.behind_loop (h : Inv vm) (hchain : vm.contexts = c :: cs) (hcatch : c.boundary.isCatch = false) :
    Inv (vm.behind c (c :: cs)) := by
  have hmem : c ∈ vm.contexts := hchain ▸ (.head _)
  have hcut := h.behind hchain
  have hlen : (vm.behind c (c :: cs)).frames.length = c.saveCsp := length_take_of_le (h.csp_le c hmem)
  refine ⟨h.alive, h.calm, forall_mem_cons.2 ⟨?_, hcut.marks⟩, forall_mem_cons.2 ⟨hlen.ge, hcut.csp_le⟩,
    forall_mem_cons.2 ⟨(length_take_of_le (h.sp_le c hmem)).ge, hcut.sp_le⟩,
    forall_mem_cons.2 ⟨h.owned_le c hmem, hcut.owned_le⟩, hchain ▸ h.nested⟩
  rw [hcatch, getElem?_eq_none hlen.le]
  rfl

/-! ## What an error can do -/

/-- what raising an error leaves: the contexts, and the value stack unless an error leaves the handler -/
structure Raises (M : Mudlib R) (vm vm' : Vm R) : Prop extends vm.Extends vm' where
  contexts : vm'.contexts = vm.contexts
  values : ∃ pre, Forall₂ (Survives M.gone) vm.stack pre ∧ pre <+: vm'.stack
  balanced : M.Returns → vm'.stack.length = vm.stack.length

theorem Raises.refl : Raises M vm vm := ⟨.refl vm, rfl, ⟨_, survives_refl _ _, prefix_rfl⟩, fun _ => rfl⟩

theorem Mudlib.raises (M : Mudlib R) (err : String) (caught : Bool) (vm : Vm R) :
    Raises M vm (M.run err caught vm).2 := by
  obtain ⟨pre, hpre, hle⟩ := M.stack err caught vm
  exact ⟨⟨M.frames err caught vm, hpre.length_eq.trans_le hle.length_le, M.fatalError err caught vm,
    M.inError err caught vm⟩, M.contexts err caught vm, ⟨pre, hpre, hle⟩,
    fun hreturns => M.balanced err caught vm (hreturns err caught vm)⟩

theorem handleCaughtError_raises (M : Mudlib R) (err : String) (vm : Vm R) :
    Raises M vm (handleCaughtError M err vm).2 := by
  unfold handleCaughtError
  split_ifs
  · exact .refl
  · exact .refl
  · exact ⟨⟨prefix_rfl, le_rfl, rfl, rfl⟩, rfl, ⟨_, survives_refl _ _, prefix_rfl⟩, fun _ => rfl⟩
  · have hrun := M.raises err true { vm with inMudlibErrorHandler := true }
    match heq : M.run err true { vm with inMudlibErrorHandler := true } with
    | (some e, vm') | (none, vm') =>
      rw [heq] at hrun
      exact ⟨⟨hrun.frames, hrun.stack, hrun.alive, hrun.calm⟩, hrun.contexts, hrun.values, hrun.balanced⟩

theorem reportUncaught_raises (M : Mudlib R) (err : String) (vm : Vm R) : Raises M vm (reportUncaught M err vm).2 := by
  unfold reportUncaught
  split_ifs
  · exact .refl
  · have hrun := M.raises err false { vm with inError := true, inMudlibErrorHandler := true }
    exact ⟨⟨hrun.frames, hrun.stack, hrun.alive, rfl⟩, hrun.contexts, hrun.values, hrun.balanced⟩

/-- an error is an exception with the stacks at least as high as before -/
theorem errorHandler_raises (h : errorHandler M err vm = some (e, vm')) : Raises M vm vm' := by
  unfold errorHandler at h
  split_ifs at h
  · have heq : (handleCaughtError M err vm).2 = vm' := congrArg Prod.snd (Option.some.inj h)
    exact heq ▸ handleCaughtError_raises M err vm
  unfold handleUncaughtError at h
  have hreport := reportUncaught_raises M err vm
  by_cases hin : vm.inError = true
  · split_ifs at h
    cases h
    exact .refl
  rw [if_neg hin] at h
  match hrun : reportUncaught M err vm with
  | (some e', vm₁) =>
    rw [hrun] at h hreport
    cases h
    exact hreport
  | (none, vm₁) =>
    rw [hrun] at h hreport
    split_ifs at h
    cases h
    exact hreport

/-- with a boundary around it an error is an exception -/
theorem exists_unwind (M : Mudlib R) (err : String) (hchain : vm.contexts = c :: cs) :
    ∃ e vm', Raises M vm vm' ∧ error M err vm = unwind M (c :: cs) e vm' := by
  obtain ⟨e, vm', herr⟩ : ∃ e vm', errorHandler M (errorText err) vm = some (e, vm') := by
    unfold errorHandler handleUncaughtError
    simp only [hchain, isEmpty_cons, Bool.false_eq_true, if_false]
    split_ifs
    · exact ⟨_, _, rfl⟩
    · exact ⟨_, _, rfl⟩
    · match reportUncaught M (errorText err) vm with
      | (some e, vm') | (none, vm') => exact ⟨_, _, rfl⟩
  have hraised := errorHandler_raises herr
  refine ⟨e, vm', hraised, ?_⟩
  simp only [error, herr, hraised.contexts, hchain]

/-! ## Along the chain -/

/-- the machine that goes on -/
def Outcome.vm? : Outcome R → Option (Vm R)
  | .ran vm => some vm
  | .caught vm => some vm
  | .landed vm => some vm
  | .dead => none
  | .underflow => none
  | .dangling => none

theorem unwind_driver (hb : c.boundary.isCatch = false) : unwind M (c :: cs) e vm =
      match vm.restoreContext c with
      | none => .underflow
      | some vm => landBoundary c cs vm := by
  match h : c.boundary with
  | .catch => rw [h] at hb; cases hb
  | .loop | .safeApply _ _ => simp only [unwind, h]

/-- a boundary does not see what lies above it -/
theorem Vm.Extends.behind (hext : vm.Extends vm') (hcsp : c.saveCsp ≤ vm.frames.length)
    (hsp : c.saveSp ≤ vm.stack.length) (cs : List Context) : (vm'.behind c cs).Agrees (vm.behind c cs) := by
  obtain ⟨frames, hframes⟩ := hext.frames
  refine ⟨rfl, ?_, ?_, hext.alive, hext.calm⟩
  · simp only [Vm.behind, ← hframes, take_append_of_le_length hcsp]
  · simp only [Vm.behind, length_take_of_le hsp, length_take_of_le (hsp.trans hext.stack)]

/-- every error ends at a boundary of the driver, unless the chain does -/
theorem unwind_boundary (M : Mudlib R) (e : Exc) (h : Inv vm) (hchain : vm.contexts = c :: cs)
    (hcatch : c.boundary.isCatch = false) (hext : vm.Extends vm') :
    (∃ vm₁, unwind M (c :: cs) e vm' = .landed vm₁ ∧ Inv vm₁ ∧ catches vm₁.contexts = catches cs) ∨
      vm'.contexts ≠ c :: cs ∧ unwind M (c :: cs) e vm' = .dangling := by
  have hmem : c ∈ vm.contexts := hchain ▸ (.head _)
  have hsp := h.sp_le c hmem
  obtain ⟨vm₁, hrestore, hrestored, -⟩ := restoreContext_eq (hsp.trans hext.stack)
  have ha := hrestored.trans (hext.behind (h.csp_le c hmem) hsp vm'.contexts)
  rw [unwind_driver hcatch, hrestore]
  match hb : c.boundary with
  | .catch => rw [hb] at hcatch; cases hcatch
  | .loop =>
    simp only [landBoundary, hb, ha.contexts, Vm.behind]
    split_ifs with hsame
    · refine .inl ⟨vm₁, rfl, (h.behind_loop hchain hcatch).of_agrees (hsame ▸ ha), ?_⟩
      rw [ha.contexts, Vm.behind, hsame, catches, any_cons, hcatch]
      rfl
    · exact .inr ⟨hsame, rfl⟩
  | .safeApply numArg withSlot =>
    have hstack : vm₁.stack.length = c.saveSp := by rw [ha.stack, Vm.behind, length_take_of_le hsp]
    have howned := h.owned_le c hmem
    rw [hb, Boundary.owned, ← hstack] at howned
    have hpop := popNElems_ofNat howned
    rw [Nat.cast_add] at hpop
    simp only [landBoundary, hb, hpop]
    refine .inl ⟨_, rfl, (h.cut hchain ?_).of_agrees ⟨rfl, ha.frames, rfl, ha.alive, ha.calm⟩, rfl⟩
    simp only [Vm.popContext, Vm.clearErrorState, length_append, length_take, hstack, hb, Boundary.owned]
    omega

/-- an exception at a catch, with `base` the machine as it is behind `pop_context` -/
theorem inv_unwind_catch (hb : c.boundary = .catch) {base : Vm R} (hbase : Inv base)
    (ha : (vm'.behind c cs).Agrees base) (hsp : c.saveSp ≤ vm'.stack.length)
    (hrest : ∀ {e : Exc} {vm vm' : Vm R}, Inv vm → vm.contexts = cs → vm.Extends vm' →
      ∀ {vm₁}, (unwind M cs e vm').vm? = some vm₁ → Inv vm₁)
    (hvm₁ : (unwind M (c :: cs) e vm').vm? = some vm₁) : Inv vm₁ := by
  obtain ⟨vm₂, hrestore, ha₂, -⟩ := restoreContext_eq hsp
  have hinv : Inv (vm₂.popContext cs) := hbase.of_agrees
    ⟨ha.contexts, ha₂.frames.trans ha.frames, ha₂.stack.trans ha.stack, ha₂.alive.trans ha.alive, ha₂.calm.trans ha.calm⟩
  match e with
  | .catchable what =>
    simp only [unwind, hb, hrestore] at hvm₁
    refine Option.some.inj hvm₁ ▸ hinv.grow ⟨rfl, rfl, rfl, rfl, rfl⟩ ?_
    simp only [Vm.popContext, Vm.clearErrorState, length_append]
    exact le_self_add
  | .limit what =>
    simp only [unwind, hb, hrestore] at hvm₁
    match herr : errorHandler M (errorText (limitMessage vm₂ what)) (vm₂.popContext cs) with
    | none => simp only [herr, Outcome.vm?, reduceCtorEq] at hvm₁
    | some (e', vm₃) =>
      simp only [herr] at hvm₁
      exact hrest hinv rfl (errorHandler_raises herr).toExtends hvm₁
  | .fatal what =>
    simp only [unwind, hb] at hvm₁
    have hext : base.Extends vm' :=
      ⟨ha.frames ▸ take_prefix _ _, ha.stack ▸ length_take_le' _ _, ha.alive, ha.calm⟩
    exact hrest hbase ha.contexts.symm hext hvm₁

/-- **Unwinding keeps the chain sound.** -/
theorem inv_unwind (cs : List Context) : ∀ {e : Exc} {vm vm' : Vm R}, Inv vm → vm.contexts = cs → vm.Extends vm' →
    ∀ {vm₁}, (unwind M cs e vm').vm? = some vm₁ → Inv vm₁ := by
  induction cs with
  | nil =>
    intro _ _ _ _ _ _ _ hvm₁
    cases hvm₁
  | cons c cs ih =>
    intro e vm vm' h hchain hext vm₁ hvm₁
    have hmem : c ∈ vm.contexts := hchain ▸ (.head _)
    cases hcatch : c.boundary.isCatch with
    | false =>
      rcases unwind_boundary M e h hchain hcatch hext with ⟨vm₂, hunwind, hinv, -⟩ | ⟨-, hunwind⟩
      · rw [hunwind] at hvm₁
        exact Option.some.inj hvm₁ ▸ hinv
      · rw [hunwind] at hvm₁
        cases hvm₁
    | true =>
      have hsp := h.sp_le c hmem
      exact inv_unwind_catch (boundary_of_isCatch hcatch) (h.behind hchain) (hext.behind (h.csp_le c hmem) hsp cs)
        (hsp.trans hext.stack) ih hvm₁

theorem inv_error {err : String} (h : Inv vm) (hvm₁ : (error M err vm).vm? = some vm₁) : Inv vm₁ := by
  unfold error at hvm₁
  match herr : errorHandler M (errorText err) vm with
  | none => simp only [herr, Outcome.vm?, reduceCtorEq] at hvm₁
  | some (e, vm') =>
    have hraised := errorHandler_raises herr
    simp only [herr, hraised.contexts] at hvm₁
    exact inv_unwind _ h rfl hraised.toExtends hvm₁

end Lithos.Driver.ErrorContext
