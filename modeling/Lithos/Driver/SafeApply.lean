/-
Protected calls: `safe_apply_call`, `apply_call` and the frame set-up of `src/apply.cpp` and `src/frame.cpp`.

The caller pushes the arguments (and a slot for the result) and calls; the callee's frame normalises them to what the
function declares, the function runs above them, and on an error `restore_context` and the boundary remove what is
left. `restore_context` expects at least as many values as there were when the context was saved. A function that was
given more arguments than it declares starts with fewer.

Results:
- `safe_apply_keeps_stack`: the value stack behind a protected call is the one below the arguments (with the result's
  slot), values of objects that were destructed aside, if the callee raises no error with fewer values above the
  caller's than arguments were pushed, and only then if the error handler of the mudlib returns.
- `excess_arguments_underflow`: a function without arguments that raises an error when it is called with one.
-/
import Lithos.Driver.ErrorContext

namespace Lithos.Driver.SafeApply

open Lithos.Driver.ErrorContext List Nat

variable {R : Type}

/-! ## The callee -/

/-- what code does to the value stack -/
inductive StackOp where
  | push (v : Svalue)
  | pop
  /-- an assignment to an argument or a local variable -/
  | store (i : ℕ) (v : Svalue)
  /-- `remove_object_from_stack` for an object that the code destructs -/
  | destruct (id : ℕ)

inductive Ending where
  | returns (result : Svalue)
  | raises (err : String)

/-- the values above the frame behind some code -/
def temps : List StackOp → ℕ → ℕ
  | [], t => t
  | .push _ :: ops, t => temps ops (t + 1)
  | .pop :: ops, t => temps ops (t - 1)
  | .store _ _ :: ops, t => temps ops t
  | .destruct _ :: ops, t => temps ops t

/-- a function: what it declares, and what it does up to its end or to an error -/
structure Callee where
  numArg : ℕ
  numLocal : ℕ
  /-- `NAME_TRUE_VARARGS` -/
  varargs : Bool
  ops : List StackOp
  ending : Ending
  /-- the last parameter collects the others -/
  numArg_pos : varargs = true → 0 < numArg
  /-- a return leaves no value but the result -/
  balanced : ∀ v, ending = .returns v → temps ops 0 = 0

/-- `csp->num_local_variables` of the callee -/
def Callee.size (f : Callee) : ℕ := f.numArg + f.numLocal

/-- the objects that the callee may destruct -/
def Callee.gone (f : Callee) : List ℕ := f.ops.filterMap fun
  | .destruct id => some id
  | _ => none

/-- `STACK_CHECK` -/
def overflows (cfg : Config) (n : ℕ) (vm : Vm R) : Bool := cfg.stackSize < vm.stack.length + n

/-- the error that a piece of code raises, or what it returns -/
abbrev Run (R α : Type) := Except (String × Vm R) α

def stackOverflow {α : Type} (vm : Vm R) : Run R α := .error ("***Stack overflow!", { vm with stackFull := true })

def pushUndefineds (cfg : Config) (n : ℕ) (vm : Vm R) : Run R (Vm R) :=
  if overflows cfg n vm then stackOverflow vm else .ok { vm with stack := vm.stack ++ replicate n .undefined }

/-- `setup_variables` -/
def setupVariables (cfg : Config) (actual numLocal numArg : ℕ) (vm : Vm R) : Run R (Vm R) :=
  if numArg < actual then
    pushUndefineds cfg numLocal { vm with stack := vm.stack.take (vm.stack.length - (actual - numArg)) }
  else pushUndefineds cfg (numLocal + (numArg - actual)) vm

/-- `setup_varargs_variables` -/
def setupVarargsVariables (cfg : Config) (actual numLocal numArg : ℕ) (vm : Vm R) : Run R (Vm R) :=
  if numArg ≤ actual then
    let n := actual - numArg + 1
    if cfg.maxArraySize < n then .error ("Illegal array size.\n", vm)
    else
      let rest := vm.stack.length - n
      pushUndefineds cfg numLocal { vm with stack := vm.stack.take rest ++ [.array (vm.stack.drop rest)] }
  else do
    let vm ← pushUndefineds cfg (numArg - 1 - actual) vm
    pushUndefineds cfg numLocal { vm with stack := vm.stack ++ [.array []] }

def setup (cfg : Config) (f : Callee) (actual : ℕ) (vm : Vm R) : Run R (Vm R) :=
  if f.varargs then setupVarargsVariables cfg actual f.numLocal f.numArg vm
  else setupVariables cfg actual f.numLocal f.numArg vm

/-- a value of a destructed object becomes 0 -/
def erase (id : ℕ) : Svalue → Svalue
  | .object id' => if id' = id then .number 0 else .object id'
  | v => v

/-- the code of a function whose frame of `size` values starts at `base` -/
def runBody (cfg : Config) (base size : ℕ) : List StackOp → Ending → Vm R → Run R (Svalue × Vm R)
  | [], .returns v, vm => .ok (v, vm)
  | [], .raises err, vm => .error (err, vm)
  | .push v :: ops, e, vm =>
    if overflows cfg 1 vm then stackOverflow vm else runBody cfg base size ops e { vm with stack := vm.stack ++ [v] }
  | .pop :: ops, e, vm =>
    runBody cfg base size ops e
      (if base + size < vm.stack.length then { vm with stack := vm.stack.dropLast } else vm)
  | .store i v :: ops, e, vm =>
    runBody cfg base size ops e (if i < size then { vm with stack := vm.stack.set (base + i) v } else vm)
  | .destruct id :: ops, e, vm => runBody cfg base size ops e { vm with stack := vm.stack.map (erase id) }

/-- the call of a function on `actual` arguments; `F_RETURN` leaves the result in the place of the frame -/
def callFunction (cfg : Config) (f : Callee) (actual : ℕ) (vm : Vm R) : Run R (Svalue × Vm R) := do
  let vm ← setup cfg f actual (vm.pushFrame .function)
  let (v, vm) ← runBody cfg (vm.stack.length - f.size) f.size f.ops f.ending vm
  .ok (v, { vm with stack := vm.stack.take (vm.stack.length - f.size) }.popControlStack)

/-! ## The call -/

inductive Target where
  /-- no object, or a destructed one -/
  | gone
  /-- `apply_low` finds no function that the caller may call -/
  | missing
  | function (f : Callee)

/-- `pop_n_elems` for the arguments and the slot, and a new slot -/
def cleanInputs (numArg : ℕ) (withSlot : Bool) (vm : Vm R) : Outcome R :=
  match vm.popNElems (numArg + withSlot.toNat) with
  | none => .underflow
  | some vm => .ran { vm with stack := vm.stack ++ if withSlot then [Svalue.undefined] else [] }

/-- the slot is pushed behind the arguments; `apply_call` moves it before them -/
def rotate (numArg : ℕ) (withSlot : Bool) (vm : Vm R) : Vm R :=
  if withSlot then
    { vm with stack := (vm.stack.take (vm.stack.length - (numArg + 1)) ++ (vm.stack.getLast?).toList) ++
      (vm.stack.drop (vm.stack.length - (numArg + 1))).dropLast }
  else vm

/-- `apply_call` inside the boundary -/
def applyCall (M : Mudlib R) (cfg : Config) (target : Target) (numArg : ℕ) (withSlot : Bool) (chain : List Context)
    (vm : Vm R) : Outcome R :=
  let vm := rotate numArg withSlot vm
  match target with
  | .function f =>
    match callFunction cfg f numArg vm with
    | .error (err, vm) => error M err vm
    | .ok (v, vm) =>
      let stack := if withSlot then vm.stack.dropLast ++ [v] else vm.stack
      .ran ({ vm with stack := stack }.popContext chain)
  | _ =>
    match vm.popNElems numArg with
    | none => .underflow
    | some vm => .ran (vm.popContext chain)

def safeApplyCall (M : Mudlib R) (cfg : Config) (target : Target) (numArg : ℕ) (withSlot : Bool) (vm : Vm R) :
    Outcome R :=
  match target with
  | .gone => cleanInputs numArg withSlot vm
  | _ =>
    -- the constructor of the boundary throws when there is no room for a frame
    if vm.frames.length = cfg.maxCallDepth then cleanInputs numArg withSlot vm
    else applyCall M cfg target numArg withSlot vm.contexts (vm.saveContext (.safeApply numArg withSlot))

/-! ## Where a callee raises its error -/

/-- the values above `start` when the code raises an error; none if it returns -/
def bodyRaisesAt (cfg : Config) (start size : ℕ) : List StackOp → Ending → ℕ → Option ℕ
  | [], .returns _, _ => none
  | [], .raises _, h => some h
  | .push _ :: ops, e, h =>
    if cfg.stackSize < start + h + 1 then some h else bodyRaisesAt cfg start size ops e (h + 1)
  | .pop :: ops, e, h => bodyRaisesAt cfg start size ops e (if size < h then h - 1 else h)
  | .store _ _ :: ops, e, h => bodyRaisesAt cfg start size ops e h
  | .destruct _ :: ops, e, h => bodyRaisesAt cfg start size ops e h

/-- behind the arguments: the local variables and the code -/
def localsRaiseAt (cfg : Config) (start : ℕ) (f : Callee) : Option ℕ :=
  if cfg.stackSize < start + f.numArg + f.numLocal then some f.numArg
  else bodyRaisesAt cfg start f.size f.ops f.ending f.size

/-- the values above `start` when the function raises an error on `actual` arguments; none if it returns -/
def Callee.raisesAt (cfg : Config) (start actual : ℕ) (f : Callee) : Option ℕ :=
  if f.varargs then
    if f.numArg ≤ actual then
      if cfg.maxArraySize < actual - f.numArg + 1 then some actual else localsRaiseAt cfg start f
    else if cfg.stackSize < start + (f.numArg - 1) then some actual
    else localsRaiseAt cfg start f
  else if f.numArg < actual then localsRaiseAt cfg start f
  else if cfg.stackSize < start + f.size then some actual
  else bodyRaisesAt cfg start f.size f.ops f.ending f.size

/-- the callee raises no error with fewer values above `start` than it was given -/
def Target.keeps (cfg : Config) (start actual : ℕ) : Target → Prop
  | .function f => ∀ h, f.raisesAt cfg start actual = some h → actual ≤ h
  | _ => True

/-! ## The caller's part of the stack -/

/-- `h` values above `pre` -/
def Above (gone : List ℕ) (pre : List Svalue) (h : ℕ) (vm : Vm R) : Prop :=
  ∃ pre' rest, vm.stack = pre' ++ rest ∧ List.Forall₂ (Survives gone) pre pre' ∧ rest.length = h

/-- the stacks of frames and of contexts stay -/
structure Stays (vm vm' : Vm R) : Prop where
  contexts : vm'.contexts = vm.contexts
  frames : vm'.frames = vm.frames

theorem Stays.refl (vm : Vm R) : Stays vm vm := ⟨rfl, rfl⟩

theorem Stays.stack {vm vm' : Vm R} (h : Stays vm vm') {stack : List Svalue} : Stays vm { vm' with stack := stack } :=
  ⟨h.contexts, h.frames⟩

variable {M : Mudlib R} {cfg : Config} {gone : List ℕ} {pre below args slot : List Svalue} {withSlot : Bool}
  {h k id actual numArg : ℕ} {vm vm' vm₀ vm₁ : Vm R}

section

variable (ha : Above gone pre h vm)
include ha

theorem Above.cast {h' : ℕ} (heq : h = h') : Above gone pre h' vm := heq ▸ ha

theorem Above.length : vm.stack.length = pre.length + h := by
  obtain ⟨pre', rest, hstack, hsurvives, hrest⟩ := ha
  rw [hstack, length_append, hrest, hsurvives.length_eq]

theorem Above.append {more : List Svalue} (hstack : vm'.stack = vm.stack ++ more)
    (hk : more.length = k) : Above gone pre (h + k) vm' := by
  obtain ⟨pre', rest, hvm, hsurvives, hrest⟩ := ha
  refine ⟨pre', rest ++ more, ?_, hsurvives, ?_⟩
  · rw [hstack, hvm, append_assoc]
  · rw [length_append, hrest, hk]

theorem Above.take (hk : k ≤ h)
    (hstack : vm'.stack = vm.stack.take (vm.stack.length - k)) : Above gone pre (h - k) vm' := by
  have hlen := ha.length
  obtain ⟨pre', rest, hvm, hsurvives, hrest⟩ := ha
  have hpre := hsurvives.length_eq
  refine ⟨pre', rest.take (h - k), ?_, hsurvives, ?_⟩
  · rw [hstack, hlen, hvm, take_append]
    congr 1
    · exact take_of_length_le (by omega)
    · congr 1
      omega
  · rw [length_take]
    omega

theorem Above.dropLast (hpos : 0 < h) (hstack : vm'.stack = vm.stack.dropLast) : Above gone pre (h - 1) vm' := by
  refine ha.take hpos ?_
  rw [hstack, dropLast_eq_take]

theorem Above.set (i : ℕ) (v : Svalue)
    (hstack : vm'.stack = vm.stack.set (pre.length + i) v) : Above gone pre h vm' := by
  obtain ⟨pre', rest, hvm, hsurvives, hrest⟩ := ha
  have hpre := hsurvives.length_eq
  refine ⟨pre', rest.set i v, ?_, hsurvives, ?_⟩
  · rw [hstack, hvm, hpre, set_append_right _ _ (le_self_add), Nat.add_sub_cancel_left]
  · rw [length_set, hrest]

end

theorem survives_erase {v v' : Svalue} (hid : id ∈ gone) (hs : Survives gone v v') :
    Survives gone v (SafeApply.erase id v') := by
  rcases hs with rfl | ⟨id', hid', rfl, rfl⟩
  · match v' with
    | .object id' =>
      rw [SafeApply.erase]
      split_ifs with heq
      · exact .inr ⟨id', heq ▸ hid, rfl, rfl⟩
      · exact .inl rfl
    | .number _ | .undefined | .string _ | .array _ => exact .inl rfl
  · exact .inr ⟨id', hid', rfl, rfl⟩

/-- values that survive first the callee, then the error handler -/
theorem survives_trans {gone' : List ℕ} {xs ys zs : List Svalue} (h : List.Forall₂ (Survives gone) xs ys)
    (h' : List.Forall₂ (Survives gone') ys zs) (hsub : gone' ⊆ gone) : List.Forall₂ (Survives gone) xs zs := by
  induction h generalizing zs with
  | nil =>
    cases h'
    exact .nil
  | cons hv _ ih =>
    obtain _ | ⟨hv', hrest⟩ := h'
    refine .cons ?_ (ih hrest)
    rcases hv with rfl | ⟨id, hid, rfl, rfl⟩
    · exact hv'.imp_right fun ⟨id, hid, hval⟩ => ⟨id, hsub hid, hval⟩
    · rcases hv' with rfl | ⟨_, _, hval, _⟩
      · exact .inr ⟨id, hid, rfl, rfl⟩
      · cases hval

theorem Above.raises (ha : Above gone pre h vm) (hr : Raises M vm vm') (hM : M.gone ⊆ gone) :
    ∃ h', h ≤ h' ∧ Above gone pre h' vm' := by
  obtain ⟨pre', rest, hvm, hsurvives, hrest⟩ := ha
  obtain ⟨stack, hvalues, more, hmore⟩ := hr.values
  rw [hvm] at hvalues
  have hpre := List.forall₂_take pre'.length hvalues
  have hlen := hvalues.length_eq
  rw [take_left] at hpre
  rw [length_append] at hlen
  refine ⟨_, ?_, stack.take pre'.length, stack.drop pre'.length ++ more, ?_, survives_trans hsurvives hpre hM, rfl⟩
  · rw [length_append, length_drop]
    omega
  · rw [← append_assoc, take_append_drop, hmore]

theorem Above.map_erase (ha : Above gone pre h vm) (hid : id ∈ gone)
    (hstack : vm'.stack = vm.stack.map (erase id)) : Above gone pre h vm' := by
  obtain ⟨pre', rest, hvm, hsurvives, hrest⟩ := ha
  refine ⟨pre'.map (erase id), rest.map (erase id), ?_, ?_, ?_⟩
  · rw [hstack, hvm, map_append]
  · exact List.forall₂_map_right_iff.2 (hsurvives.imp fun _ _ hs => survives_erase hid hs)
  · rw [length_map, hrest]

/-! ## The callee above the caller's part -/

/-- an error with `h` values above `pre`, if it is raised there -/
def RaisedAt (gone : List ℕ) (pre : List Svalue) (vm : Vm R) (at? : Option ℕ) (e : String × Vm R) : Prop :=
  ∃ h, at? = some h ∧ Above gone pre h e.2 ∧ Stays vm e.2

theorem overflows_eq (ha : Above gone pre h vm) (n : ℕ) :
    overflows cfg n vm = decide (cfg.stackSize < pre.length + h + n) := by rw [overflows, ha.length]

/-- how the code of a function ends: with an error where `at?` says, or with its result and `final` values -/
def BodyEnds (gone : List ℕ) (pre : List Svalue) (vm : Vm R) (at? : Option ℕ) (final : ℕ) (e : Ending) :
    Run R (Svalue × Vm R) → Prop
  | .error err => RaisedAt gone pre vm at? err
  | .ok (v, vm') => at? = none ∧ e = .returns v ∧ Above gone pre final vm' ∧ Stays vm vm'

theorem runBody_spec (cfg : Config) (size : ℕ) (ops : List StackOp) (e : Ending) {h : ℕ} {vm : Vm R}
    (ha : Above gone pre h vm) (hstays : Stays vm₀ vm) (hsize : size ≤ h)
    (hgone : ∀ id, .destruct id ∈ ops → id ∈ gone) :
    BodyEnds gone pre vm₀ (bodyRaisesAt cfg pre.length size ops e h) (size + temps ops (h - size)) e
      (runBody cfg pre.length size ops e vm) := by
  induction ops generalizing h vm with
  | nil =>
    cases e with
    | returns v =>
      refine ⟨rfl, rfl, ?_, hstays⟩
      rw [temps, Nat.add_sub_cancel' hsize]
      exact ha
    | raises err => exact ⟨h, rfl, ha, hstays⟩
  | cons op ops ih =>
    have hrest : ∀ id, .destruct id ∈ ops → id ∈ gone := fun id hid => hgone id (.tail _ hid)
    cases op with
    | push v =>
      rw [runBody, overflows_eq ha, bodyRaisesAt, temps]
      simp only [decide_eq_true_eq]
      by_cases hover : cfg.stackSize < pre.length + h + 1
      · rw [if_pos hover, if_pos hover]
        exact ⟨h, rfl, ha, hstays.contexts, hstays.frames⟩
      · rw [if_neg hover, if_neg hover, ← Nat.sub_add_comm hsize]
        refine ih ?_ hstays.stack (hsize.trans (le_self_add)) hrest
        exact ha.append rfl rfl
    | pop =>
      rw [runBody, bodyRaisesAt, temps, ha.length]
      by_cases hlt : size < h
      · rw [if_pos hlt, if_pos (Nat.add_lt_add_left hlt _), Nat.sub_right_comm]
        refine ih ?_ hstays.stack (Nat.le_sub_one_of_lt hlt) hrest
        exact ha.dropLast (Nat.zero_lt_of_lt hlt) rfl
      · obtain rfl : size = h := le_antisymm hsize (not_lt.1 hlt)
        rw [if_neg hlt, if_neg (lt_irrefl _), Nat.sub_self]
        have := ih ha hstays hsize hrest
        rwa [Nat.sub_self] at this
    | store i v =>
      rw [runBody]
      split_ifs
      · refine ih ?_ hstays.stack hsize hrest
        exact ha.set i v rfl
      · exact ih ha hstays hsize hrest
    | destruct id =>
      refine ih ?_ hstays.stack hsize hrest
      exact ha.map_erase (hgone id mem_cons_self) rfl

/-- how the set-up of a frame ends: with an error where `at?` says, or with the frame and the rest as `next?` says -/
def FrameEnds (gone : List ℕ) (pre : List Svalue) (vm : Vm R) (f : Callee) (at? next? : Option ℕ) : Run R (Vm R) → Prop
  | .error err => RaisedAt gone pre vm at? err
  | .ok vm' => at? = next? ∧ Above gone pre f.size vm' ∧ Stays vm vm'

theorem pushUndefineds_ends (cfg : Config) (n : ℕ) {f : Callee} {at? next? : Option ℕ} {k : Vm R → Run R (Vm R)}
    (ha : Above gone pre h vm) (hstays : Stays vm₀ vm)
    (hk : ∀ vm', Above gone pre (h + n) vm' → Stays vm₀ vm' → FrameEnds gone pre vm₀ f at? next? (k vm')) :
    FrameEnds gone pre vm₀ f (if cfg.stackSize < pre.length + (h + n) then some h else at?) next?
      (pushUndefineds cfg n vm >>= k) := by
  rw [pushUndefineds, overflows_eq ha, Nat.add_assoc]
  simp only [decide_eq_true_eq]
  split_ifs
  · exact ⟨h, rfl, ha, hstays.contexts, hstays.frames⟩
  · exact hk _ (ha.append rfl length_replicate) hstays.stack

/-- the local variables behind the arguments -/
theorem locals_spec (cfg : Config) (f : Callee) (ha : Above gone pre f.numArg vm) (hstays : Stays vm₀ vm) :
    FrameEnds gone pre vm₀ f (localsRaiseAt cfg pre.length f)
      (bodyRaisesAt cfg pre.length f.size f.ops f.ending f.size) (pushUndefineds cfg f.numLocal vm) := by
  rw [localsRaiseAt, Nat.add_assoc, ← bind_pure (pushUndefineds cfg f.numLocal vm)]
  exact pushUndefineds_ends cfg f.numLocal ha hstays fun vm' hframe hstays' => ⟨rfl, hframe, hstays'⟩

theorem setupVariables_spec (cfg : Config) (f : Callee) (hfixed : f.varargs = false) (ha : Above gone pre actual vm)
    (hstays : Stays vm₀ vm) :
    FrameEnds gone pre vm₀ f (f.raisesAt cfg pre.length actual)
      (bodyRaisesAt cfg pre.length f.size f.ops f.ending f.size)
      (setupVariables cfg actual f.numLocal f.numArg vm) := by
  rw [Callee.raisesAt, hfixed, if_neg Bool.false_ne_true, setupVariables]
  by_cases hexcess : f.numArg < actual
  · rw [if_pos hexcess, if_pos hexcess]
    refine locals_spec cfg f (.cast ?_ (Nat.sub_sub_self hexcess.le)) hstays.stack
    exact ha.take (Nat.sub_le actual f.numArg) rfl
  · have hsum : actual + (f.numLocal + (f.numArg - actual)) = f.size := by
      rw [Callee.size]
      omega
    rw [if_neg hexcess, if_neg hexcess, ← bind_pure (pushUndefineds cfg _ vm), ← hsum]
    exact pushUndefineds_ends cfg _ ha hstays fun vm' hframe hstays' => ⟨rfl, hframe.cast hsum, hstays'⟩

theorem setupVarargsVariables_spec (cfg : Config) (f : Callee) (hvarargs : f.varargs = true)
    (ha : Above gone pre actual vm) (hstays : Stays vm₀ vm) :
    FrameEnds gone pre vm₀ f (f.raisesAt cfg pre.length actual)
      (bodyRaisesAt cfg pre.length f.size f.ops f.ending f.size)
      (setupVarargsVariables cfg actual f.numLocal f.numArg vm) := by
  have hpos := f.numArg_pos hvarargs
  rw [Callee.raisesAt, if_pos hvarargs, setupVarargsVariables]
  by_cases hmany : f.numArg ≤ actual
  · rw [if_pos hmany, if_pos hmany]
    by_cases hbig : cfg.maxArraySize < actual - f.numArg + 1
    · simp only [if_pos hbig]
      exact ⟨actual, rfl, ha, hstays⟩
    · simp only [if_neg hbig]
      -- the last parameter's array stands in the place of the values that it has collected
      have hcount : actual - (actual - f.numArg + 1) + 1 = f.numArg := by omega
      have hkept : Above gone pre (actual - (actual - f.numArg + 1))
          { vm with stack := vm.stack.take (vm.stack.length - (actual - f.numArg + 1)) } :=
        ha.take (by omega) rfl
      refine locals_spec cfg f (.cast ?_ hcount) hstays.stack
      exact hkept.append rfl length_singleton
  · have hsum : pre.length + (f.numArg - 1) = pre.length + (actual + (f.numArg - 1 - actual)) := by omega
    rw [if_neg hmany, if_neg hmany, hsum]
    refine pushUndefineds_ends cfg _ ha hstays fun vm' hframe hstays' => ?_
    have hcount : actual + (f.numArg - 1 - actual) + 1 = f.numArg := by omega
    refine locals_spec cfg f (.cast ?_ hcount) hstays'.stack
    exact hframe.append rfl length_singleton

theorem callFunction_spec (cfg : Config) (f : Callee) {actual : ℕ} (ha : Above gone pre actual vm) (hf : f.gone ⊆ gone) :
    match callFunction cfg f actual vm with
    | .error err => RaisedAt gone pre (vm.pushFrame .function) (f.raisesAt cfg pre.length actual) err
    | .ok (_, vm') => f.raisesAt cfg pre.length actual = none ∧ Above gone pre 0 vm' ∧ Stays vm vm' := by
  have hsetup : FrameEnds gone pre (vm.pushFrame .function) f (f.raisesAt cfg pre.length actual)
      (bodyRaisesAt cfg pre.length f.size f.ops f.ending f.size) (setup cfg f actual (vm.pushFrame .function)) := by
    unfold setup
    split_ifs with hvarargs
    · exact setupVarargsVariables_spec cfg f hvarargs ha (.refl _)
    · exact setupVariables_spec cfg f (Bool.eq_false_iff.2 hvarargs) ha (.refl _)
  have hgone : ∀ id, .destruct id ∈ f.ops → id ∈ gone := fun id hid => hf (mem_filterMap.2 ⟨_, hid, rfl⟩)
  unfold callFunction
  match hframe : setup cfg f actual (vm.pushFrame .function) with
  | .error err =>
    rw [hframe] at hsetup
    exact hsetup
  | .ok vm₁ =>
    rw [hframe] at hsetup
    obtain ⟨hat, ha₁, hstays₁⟩ := hsetup
    have hbase : vm₁.stack.length - f.size = pre.length := by rw [ha₁.length, Nat.add_sub_cancel]
    have hbody := runBody_spec cfg f.size f.ops f.ending ha₁ hstays₁ le_rfl hgone
    rw [hat]
    simp only [Except.bind, bind, hbase]
    match hrun : runBody cfg pre.length f.size f.ops f.ending vm₁ with
    | .error err =>
      rw [hrun] at hbody
      exact hbody
    | .ok (v, vm₂) =>
      rw [hrun] at hbody
      obtain ⟨hnone, hreturns, ha₂, hstays₂⟩ := hbody
      rw [Nat.sub_self, f.balanced v hreturns] at ha₂
      have hpop := popControlStack_agrees { vm₂ with stack := vm₂.stack.take (vm₂.stack.length - f.size) }
      refine ⟨hnone, .cast ?_ (Nat.sub_self f.size), ?_, ?_⟩
      · exact ha₂.take le_rfl (by unfold Vm.popControlStack; split <;> rfl)
      · exact hpop.contexts.trans hstays₂.contexts
      · rw [hpop.frames, hstays₂.frames, Vm.pushFrame, dropLast_concat]

/-! ## Behind the call -/

/-- the value stack is the one below the arguments, with the slot, and the frames and contexts are the caller's -/
def Kept (gone : List ℕ) (below : List Svalue) (withSlot : Bool) (vm : Vm R) (o : Outcome R) : Prop :=
  ∃ vm' below' slot, o.vm? = some vm' ∧ vm'.stack = below' ++ slot ∧ slot.length = withSlot.toNat ∧
    List.Forall₂ (Survives gone) below below' ∧ Stays vm vm'

/-- the objects that the callee may destruct -/
def Target.goneObjects : Target → List ℕ
  | .function f => f.gone
  | _ => []

theorem rotate_stack (hslot : slot.length = withSlot.toNat) (hstack : vm.stack = below ++ (args ++ slot)) :
    (rotate args.length withSlot vm).stack = (below ++ slot) ++ args := by
  unfold rotate
  cases withSlot with
  | false =>
    rw [length_eq_zero_iff.1 hslot] at hstack ⊢
    rw [if_neg Bool.false_ne_true, hstack, append_nil, append_nil]
  | true =>
    obtain ⟨v, rfl⟩ := length_eq_one_iff.1 hslot
    have hbelow : vm.stack.length - (args.length + 1) = below.length := by
      simp only [hstack, length_append, length_singleton]
      omega
    rw [if_pos rfl]
    rw [hbelow, hstack, take_left, drop_left, ← append_assoc, getLast?_concat, dropLast_concat]
    rfl

theorem stays_rotate : Stays vm (rotate args.length withSlot vm) := by
  unfold rotate
  split_ifs
  all_goals exact ⟨rfl, rfl⟩

theorem kept_cleanInputs (gone : List ℕ) (hslot : slot.length = withSlot.toNat)
    (hstack : vm.stack = below ++ (args ++ slot)) :
    Kept gone below withSlot vm (cleanInputs args.length withSlot vm) := by
  have hcount : args.length + withSlot.toNat ≤ vm.stack.length := by
    simp only [hstack, length_append, hslot]
    omega
  have hbelow : vm.stack.length - (args.length + withSlot.toNat) = below.length := by
    simp only [hstack, length_append, hslot]
    omega
  have hpop := popNElems_ofNat hcount
  rw [cast_add, hbelow] at hpop
  unfold cleanInputs
  rw [hpop]
  refine ⟨_, below, if withSlot then [Svalue.undefined] else [], rfl, ?_, ?_, survives_refl gone below, rfl, rfl⟩
  · rw [hstack, take_left]
  · cases withSlot <;> rfl

/-- the context that `safe_apply_call` has saved -/
structure SavedFor (below slot : List Svalue) (numArg : ℕ) (withSlot : Bool) (vm : Vm R) (c : Context) : Prop where
  boundary : c.boundary = .safeApply numArg withSlot
  saveSp : c.saveSp = (below ++ slot).length + numArg
  saveCsp : c.saveCsp = vm.frames.length

theorem SavedFor.driver (hc : SavedFor below slot numArg withSlot vm c) : c.boundary.isCatch = false := by
  rw [hc.boundary]
  rfl

/-- an error that leaves enough values is cleared away -/
theorem kept_error (hslot : slot.length = withSlot.toNat) (hc : SavedFor below slot numArg withSlot vm c)
    (hchain : vm₁.contexts = c :: vm.contexts) (hframes : vm.frames <+: vm₁.frames)
    (ha : Above gone (below ++ slot) h vm₁) (hM : M.gone ⊆ gone) (hh : numArg ≤ h) :
    Kept gone below withSlot vm (error M err vm₁) := by
  obtain ⟨e, vm₂, hext, herror⟩ := exists_unwind M err hchain
  obtain ⟨h₂, hle, ha₂⟩ := ha.raises hext hM
  obtain ⟨frames, hframes₂⟩ := hframes.trans hext.frames
  have hsp : c.saveSp ≤ vm₂.stack.length := by
    rw [hc.saveSp, ha₂.length]
    exact Nat.add_le_add_left (hh.trans hle) _
  obtain ⟨vm₃, hrestore, hcut, hstack₃⟩ := restoreContext_eq hsp
  have hlen₃ : vm₃.stack.length = c.saveSp := by rw [hstack₃, length_take_of_le hsp]
  -- the boundary's values lie above those below the arguments
  obtain ⟨pre', rest, hvm₂, hsurvives, -⟩ := ha₂
  have hbelow := List.forall₂_take below.length hsurvives
  rw [take_left] at hbelow
  set below' := pre'.take below.length
  have hpre : pre' = below' ++ pre'.drop below.length := (take_append_drop _ _).symm
  have hcount : numArg + withSlot.toNat ≤ vm₃.stack.length := by
    rw [hlen₃, hc.saveSp, length_append]
    omega
  have hleft : vm₃.stack.length - (numArg + withSlot.toNat) = below'.length := by
    rw [hlen₃, hc.saveSp, length_append, hbelow.length_eq]
    omega
  have htake : vm₃.stack.take below'.length = below' := by
    rw [hstack₃, take_take, min_eq_left (by omega), hvm₂, hpre, append_assoc, take_left]
  have hpop := popNElems_ofNat hcount
  rw [cast_add, hleft, htake] at hpop
  rw [herror, unwind_driver hc.driver, hrestore]
  simp only [landBoundary, hc.boundary, hpop]
  refine ⟨_, below', if withSlot then [Svalue.undefined] else [], rfl, rfl, ?_, hbelow, rfl, ?_⟩
  · cases withSlot <;> rfl
  · show vm₃.frames = vm.frames
    rw [hcut.frames, Vm.behind, ← hframes₂, hc.saveCsp, take_left]

/-- one that does not makes `restore_context` run below the stack -/
theorem not_kept_error (hreturns : M.Returns) (hc : SavedFor below slot numArg withSlot vm c)
    (hchain : vm₁.contexts = c :: vm.contexts) (ha : Above gone (below ++ slot) h vm₁) (hh : h < numArg) :
    ¬ Kept gone below withSlot vm (error M err vm₁) := by
  obtain ⟨e, vm₂, hraised, herror⟩ := exists_unwind M err hchain
  have hnone : vm₂.restoreContext c = none := by
    refine restoreContext_eq_none ?_
    rw [hraised.balanced hreturns, ha.length, hc.saveSp]
    omega
  rw [herror, unwind_driver hc.driver, hnone]
  rintro ⟨vm', -, -, hvm', -⟩
  cases hvm'

/-- the result takes the place of the slot -/
theorem kept_return (hslot : slot.length = withSlot.toNat) (ha : Above gone (below ++ slot) 0 vm) (v : Svalue) :
    ∃ below' slot', (if withSlot then vm.stack.dropLast ++ [v] else vm.stack) = below' ++ slot' ∧
      slot'.length = withSlot.toNat ∧ List.Forall₂ (Survives gone) below below' := by
  obtain ⟨pre', rest, hvm, hsurvives, hrest⟩ := ha
  rw [length_eq_zero_iff.1 hrest, append_nil] at hvm
  have hbelow := List.forall₂_take below.length hsurvives
  rw [take_left] at hbelow
  have hlen := hsurvives.length_eq
  rw [length_append, hslot] at hlen
  cases withSlot with
  | false =>
    refine ⟨pre', [], ?_, rfl, ?_⟩
    · rw [if_neg Bool.false_ne_true, hvm, append_nil]
    · have hle : pre'.length ≤ below.length := hlen.ge
      rwa [take_of_length_le hle] at hbelow
  | true =>
    refine ⟨pre'.take below.length, [v], ?_, rfl, hbelow⟩
    rw [hvm, dropLast_eq_take, ← hlen]
    rfl

theorem kept_missing (gone : List ℕ) (hslot : slot.length = withSlot.toNat)
    (hstack : vm.stack = below ++ (args ++ slot)) :
    Kept gone below withSlot vm (applyCall M cfg .missing args.length withSlot vm.contexts
      (vm.saveContext (.safeApply args.length withSlot))) := by
  set vm₁ := rotate args.length withSlot (vm.saveContext (.safeApply args.length withSlot)) with hvm₁
  have hrotated : vm₁.stack = (below ++ slot) ++ args := rotate_stack hslot hstack
  have hstays : Stays (vm.saveContext (.safeApply args.length withSlot)) vm₁ := stays_rotate
  have hcount : args.length ≤ vm₁.stack.length := by
    rw [hrotated, length_append]
    exact le_add_left _ _
  have hleft : vm₁.stack.length - args.length = (below ++ slot).length := by
    rw [hrotated, length_append, Nat.add_sub_cancel]
  have hpop := popNElems_ofNat hcount
  rw [hleft] at hpop
  simp only [applyCall, ← hvm₁, hpop]
  refine ⟨_, below, slot, rfl, ?_, hslot, survives_refl gone below, rfl, hstays.frames⟩
  show vm₁.stack.take (below ++ slot).length = below ++ slot
  rw [hrotated, take_left]

theorem kept_function (f : Callee) (hslot : slot.length = withSlot.toNat)
    (hstack : vm.stack = below ++ (args ++ slot)) {o : Outcome R}
    (ho : o = applyCall M cfg (.function f) args.length withSlot vm.contexts
      (vm.saveContext (.safeApply args.length withSlot))) :
    ((∀ h, f.raisesAt cfg (below ++ slot).length args.length = some h → args.length ≤ h) →
      Kept (M.gone ++ f.gone) below withSlot vm o) ∧
    (M.Returns → Kept (M.gone ++ f.gone) below withSlot vm o →
      ∀ h, f.raisesAt cfg (below ++ slot).length args.length = some h → args.length ≤ h) := by
  set vm₁ := rotate args.length withSlot (vm.saveContext (.safeApply args.length withSlot)) with hvm₁
  have hrotated : vm₁.stack = (below ++ slot) ++ args := rotate_stack hslot hstack
  have hstays : Stays (vm.saveContext (.safeApply args.length withSlot)) vm₁ := stays_rotate
  have hspec := callFunction_spec cfg f ⟨_, _, hrotated, survives_refl _ _, rfl⟩ (subset_append_right M.gone f.gone)
  simp only [applyCall, ← hvm₁] at ho
  match hcall : callFunction cfg f args.length vm₁ with
  | .error (err, vm₂) =>
    rw [hcall] at hspec ho
    obtain ⟨h, hat, ha, hstays₂⟩ := hspec
    have hc : SavedFor below slot args.length withSlot vm
        ⟨.safeApply args.length withSlot, vm.stack.length, vm.frames.length, vm.commandGiver, vm.lastVerb⟩ := by
      refine ⟨rfl, ?_, rfl⟩
      simp only [hstack, length_append]
      omega
    have hchain := hstays₂.contexts.trans hstays.contexts
    have hframes : vm.frames <+: vm₂.frames := by
      rw [hstays₂.frames, Vm.pushFrame, hstays.frames]
      exact prefix_append _ _
    rw [ho, hat]
    refine ⟨fun hkeeps => kept_error hslot hc hchain hframes ha (subset_append_left _ _) (hkeeps h rfl),
      fun hreturns hkept => ?_⟩
    rintro h' ⟨⟩
    by_contra hlt
    exact not_kept_error hreturns hc hchain ha (not_le.1 hlt) hkept
  | .ok (v, vm₂) =>
    rw [hcall] at hspec ho
    obtain ⟨hnone, ha, hstays₂⟩ := hspec
    obtain ⟨below', slot', hresult, hslot', hbelow⟩ := kept_return hslot ha v
    rw [hnone, ho]
    refine ⟨fun _ => ?_, fun _ _ => nofun⟩
    exact ⟨_, below', slot', rfl, hresult, hslot', hbelow, rfl, hstays₂.frames.trans hstays.frames⟩

/-- **Protected calls keep the value stack.** A call on the arguments `args`, with or without a slot, from any state:
behind it the value stack is `below` with the slot (values of objects that the callee or the error handler of the mudlib
destructs are 0), and the frames and contexts are those of the caller, if the callee raises no error with fewer values
above `below` and the slot than `args` has; if the error handler of the mudlib returns, only then. -/
theorem safe_apply_keeps_stack (M : Mudlib R) (cfg : Config) (target : Target) (vm : Vm R)
    (below args slot : List Svalue) (withSlot : Bool) (hslot : slot.length = withSlot.toNat)
    (hstack : vm.stack = below ++ (args ++ slot)) :
    (vm.frames.length = cfg.maxCallDepth ∨ target.keeps cfg (below ++ slot).length args.length →
      Kept (M.gone ++ target.goneObjects) below withSlot vm (safeApplyCall M cfg target args.length withSlot vm)) ∧
    (M.Returns → Kept (M.gone ++ target.goneObjects) below withSlot vm (safeApplyCall M cfg target args.length withSlot vm) →
      vm.frames.length = cfg.maxCallDepth ∨ target.keeps cfg (below ++ slot).length args.length) := by
  by_cases hfull : vm.frames.length = cfg.maxCallDepth
  · refine ⟨fun _ => ?_, fun _ _ => .inl hfull⟩
    match target with
    | .gone => exact kept_cleanInputs _ hslot hstack
    | .missing | .function f =>
      rw [safeApplyCall, if_pos hfull]
      · exact kept_cleanInputs _ hslot hstack
      · exact nofun
  · match target with
    | .gone => exact ⟨fun _ => kept_cleanInputs _ hslot hstack, fun _ _ => .inr trivial⟩
    | .missing =>
      refine ⟨fun _ => ?_, fun _ _ => .inr trivial⟩
      rw [safeApplyCall, if_neg hfull]
      · exact kept_missing _ hslot hstack
      · exact nofun
    | .function f =>
      have hcall : safeApplyCall M cfg (.function f) args.length withSlot vm = applyCall M cfg (.function f) args.length
          withSlot vm.contexts (vm.saveContext (.safeApply args.length withSlot)) := by
        rw [safeApplyCall, if_neg hfull]
        exact nofun
      obtain ⟨hkeeps, honly⟩ := kept_function f hslot hstack hcall
      exact ⟨fun h => hkeeps (h.resolve_left hfull), fun hreturns hkept => .inr (honly hreturns hkept)⟩

/-- a function without arguments that raises an error at once -/
def fails : Callee := ⟨0, 0, false, [], .raises "*Bad.\n", nofun, nofun⟩

/-- a function of two arguments that pushes a value and raises an error -/
def failsLater : Callee := ⟨2, 1, false, [.push (.number 7)], .raises "*Bad.\n", nofun, nofun⟩

def callConfig : Config := ⟨10, 100, 20, 100⟩

/-- a caller with one value below the argument -/
def caller : Vm Unit :=
  ⟨[.number 1, .number 2], [⟨.function, ()⟩], (), [], false, false, 100, .number 0, false, false, false, none, none⟩

theorem failsLater_kept : (Target.function failsLater).keeps callConfig 1 1 ∧
    Kept failsLater.gone [.number 1] false caller
      (safeApplyCall quietMudlib callConfig (.function failsLater) 1 false caller) := by
  have hkeeps : (Target.function failsLater).keeps callConfig 1 1 := by
    rintro h ⟨⟩
    decide
  exact ⟨hkeeps, (safe_apply_keeps_stack quietMudlib callConfig (.function failsLater) caller [.number 1] [.number 2] [] false
    rfl rfl).1 (.inr hkeeps)⟩

/-- **Excess arguments.** A function without arguments is called with one and raises an error: `pop_n_elems` in
`restore_context` gets a negative count. -/
theorem excess_arguments_underflow :
    safeApplyCall quietMudlib callConfig (.function fails) 1 false caller = .underflow := rfl

end Lithos.Driver.SafeApply
