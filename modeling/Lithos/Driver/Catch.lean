/-
Evaluation limits and `catch`.

The evaluator runs code with `catch` blocks, function calls and protected calls; the limits of `eval_instruction`,
`push_control_stack`, `CHECK_AND_PUSH` and `do_catch` raise errors in it. A limit gets past a `catch` because
`do_catch` raises it again behind itself. `pop_context` clears the error state before that, so the second error is an
ordinary one, and the next `catch` around completes with it.

Results:
- `inv_run`: in every run the contexts fit the stacks, and the frames show which ones are catches.
- `limit_escapes`: from every state reached, a limit gets past all catches if only the innermost boundary is one (if
  none is, for the limits that set no error state; never at the end of a catch block), and, with an error handler of
  the mudlib that returns, only then.
- `nested_catch_completes`: two nested catches, the outer of which completes with the evaluation limit.
-/
import Lithos.Driver.ErrorContext

namespace Lithos.Driver.Catch

open Lithos.Driver.ErrorContext List Option Bool

variable {R : Type} {M : Mudlib R} {cfg : Config} {vm : Vm R}

/-! ## The evaluator -/

/-- what the code does; values stand for what instructions push and pop -/
inductive Op where
  | nop
  | push (v : Svalue)
  | pop
  /-- a frame of a kind other than `FRAME_CATCH` -/
  | call (kind : FrameKind)
  | ret
  /-- `F_CATCH` -/
  | catch
  /-- `F_END_CATCH` -/
  | endCatch
  /-- `safe_apply_call` up to the call -/
  | protect (numArg : ℕ) (withSlot : Bool)
  /-- its normal end, with the result -/
  | unprotect (result : Svalue)
  /-- the boundary of `driver_loop` or `call_out` -/
  | enterLoop
  | leaveLoop
  /-- a turn of the driver loop -/
  | refill
  | error (err : String)
  /-- `throw` with the topmost value -/
  | throw

/-- the instructions that `eval_instruction` counts -/
def Op.counted : Op → Bool
  | .protect _ _ => false
  | .unprotect _ => false
  | .enterLoop => false
  | .leaveLoop => false
  | .refill => false
  | _ => true

/-- the height below which the innermost boundary has its own values -/
def floor (vm : Vm R) : ℕ :=
  match vm.contexts with
  | [] => 0
  | c :: _ => c.saveSp

/-- code runs in a frame above the innermost boundary -/
def running (vm : Vm R) : Bool :=
  match vm.contexts with
  | [] => !vm.frames.isEmpty
  | c :: _ => c.saveCsp < vm.frames.length

/-- what compiled code and the driver do in a state -/
def enabled (cfg : Config) (vm : Vm R) : Op → Bool
  | .nop => running vm
  | .push _ => running vm
  | .pop => running vm && floor vm < vm.stack.length
  | .call kind => kind ≠ .catch
  | .ret =>
    match vm.contexts with
    | [] => !vm.frames.isEmpty
    | c :: _ => c.saveCsp + c.boundary.isCatch.toNat < vm.frames.length
  | .catch => running vm
  | .endCatch =>
    match vm.contexts with
    | [] => false
    | c :: _ => c.boundary.isCatch && c.saveCsp + 1 = vm.frames.length
  | .protect numArg withSlot => floor vm + (numArg + withSlot.toNat) ≤ vm.stack.length
  | .unprotect _ =>
    match vm.contexts with
    | ⟨.safeApply _ _, _, saveCsp, _, _⟩ :: _ => saveCsp = vm.frames.length
    | _ => false
  | .enterLoop => vm.frames.length ≠ cfg.maxCallDepth
  | .leaveLoop =>
    match vm.contexts with
    | ⟨.loop, _, saveCsp, _, _⟩ :: _ => saveCsp = vm.frames.length
    | _ => false
  | .refill => vm.frames.isEmpty
  | .error _ => running vm
  | .throw => running vm && floor vm < vm.stack.length

/-- `catch_value` as `f_throw` sets it -/
def thrown : Svalue → Svalue
  | .number 0 => .string "*Unspecified error"
  | v => v

/-- `throw_error` -/
def throwToCatch (M : Mudlib R) (vm : Vm R) : Outcome R :=
  if vm.hasActiveCatchBoundary then unwind M vm.contexts (.catchable "*Thrown value") vm
  else error M "*Throw with no catch." vm

/-- an instruction that has been counted -/
def exec (M : Mudlib R) (cfg : Config) (vm : Vm R) : Op → Outcome R
  | .nop => .ran vm
  | .push v =>
    if cfg.stackSize ≤ vm.stack.length then error M "***Stack overflow!" { vm with stackFull := true }
    else .ran { vm with stack := vm.stack ++ [v] }
  | .pop => .ran { vm with stack := vm.stack.dropLast }
  | .call kind =>
    if vm.frames.length = cfg.maxCallDepth then error M "***Too deep recursion." { vm with stackFull := true }
    else .ran (vm.pushFrame kind)
  | .ret => .ran vm.popControlStack
  | .catch =>
    -- `save_context` fails, and the error state is not set
    if vm.frames.length = cfg.maxCallDepth then error M "*Can't catch too deep recursion error." vm
    else .ran { (vm.saveContext .catch).pushFrame .catch with catchValue := .number 1 }
  | .endCatch =>
    let vm := { vm with catchValue := .number 0 }.popControlStack
    if cfg.stackSize ≤ vm.stack.length then error M "***Stack overflow!" { vm with stackFull := true }
    else .ran ({ vm with stack := vm.stack ++ [Svalue.number 0] }.popContext vm.contexts.tail)
  | .protect numArg withSlot =>
    if vm.frames.length = cfg.maxCallDepth then
      .ran { vm with
        stack := vm.stack.take (vm.stack.length - (numArg + withSlot.toNat)) ++ if withSlot then [Svalue.undefined] else [] }
    else .ran (vm.saveContext (.safeApply numArg withSlot))
  | .unprotect result =>
    match vm.contexts with
    | ⟨.safeApply numArg withSlot, saveSp, _, _, _⟩ :: cs =>
      .ran ({ vm with
        stack := vm.stack.take (saveSp - (numArg + withSlot.toNat)) ++ if withSlot then [result] else [] }.popContext cs)
    | _ => .ran vm
  | .enterLoop => .ran (vm.saveContext .loop)
  | .leaveLoop => .ran (vm.popContext vm.contexts.tail)
  | .refill => .ran { vm with evalCost := cfg.maxEvalCost }
  | .error err => error M err vm
  | .throw =>
    match vm.stack.getLast? with
    | none => .underflow
    | some v => throwToCatch M { vm with catchValue := thrown v, stack := vm.stack.dropLast }

/-- one turn of `eval_instruction`, or a step of the driver -/
def step (M : Mudlib R) (cfg : Config) (vm : Vm R) (op : Op) : Option (Outcome R) :=
  if enabled cfg vm op then
    if op.counted then
      if vm.evalCost - 1 = 0 then
        some (error M "*Too long evaluation. Execution aborted."
          { vm with evalCost := cfg.maxEvalCost, costExceeded := true })
      else some (exec M cfg { vm with evalCost := vm.evalCost - 1 } op)
    else some (exec M cfg vm op)
  else none

/-- a run, as long as it goes on -/
def run (M : Mudlib R) (cfg : Config) : List Op → Vm R → Option (Vm R)
  | [], vm => some vm
  | op :: ops, vm => do
    let o ← step M cfg vm op
    let vm ← o.vm?
    run M cfg ops vm

def Vm.init (cfg : Config) (regs : R) : Vm R :=
  ⟨[], [], regs, [], false, false, cfg.maxEvalCost, .number 0, false, false, false, none, none⟩

open Vm

/-- the states of runs in a driver that has had no fatal error -/
def Reachable (M : Mudlib R) (cfg : Config) (vm : Vm R) : Prop :=
  ∃ regs ops, run M cfg ops (Vm.init cfg regs) = some vm

/-! ## The limits -/

inductive Limit where
  /-- the evaluation cost -/
  | evalCost
  /-- the depth of the control stack -/
  | callDepth
  /-- the height of the value stack -/
  | valueStack
  /-- the depth of the control stack at a catch -/
  | catchDepth
  /-- the height of the value stack at the end of a catch -/
  | catchEnd
  deriving DecidableEq, Repr

/-- the limit that the next step hits -/
def limitOf (cfg : Config) (vm : Vm R) (op : Op) : Option Limit :=
  if op.counted ∧ vm.evalCost = 1 then some .evalCost
  else
    match op with
    | .push _ => if cfg.stackSize ≤ vm.stack.length then some .valueStack else none
    | .call _ => if vm.frames.length = cfg.maxCallDepth then some .callDepth else none
    | .catch => if vm.frames.length = cfg.maxCallDepth then some .catchDepth else none
    | .endCatch => if cfg.stackSize ≤ vm.stack.length then some .catchEnd else none
    | _ => none

/-- no catch has completed with the error, and none of those that were active is left -/
def Escapes : Outcome R → Prop
  | .landed vm => catches vm.contexts = false
  | .dead => True
  | _ => False

/-- the boundaries that a limit gets past -/
def lets (vm : Vm R) : Limit → Bool
  | .catchEnd => false
  | .catchDepth =>
    if vm.stackFull || vm.costExceeded then !catches vm.contexts.tail else !catches vm.contexts
  | _ => !catches vm.contexts.tail

/-! ## Every run keeps the chain sound -/

variable {vm' : Vm R} {c : Context} {cs : List Context}

/-- the frame that a boundary cuts is gone already -/
theorem behind_endCatch (ha : vm'.Agrees { vm with frames := vm.frames.take c.saveCsp }) (cs : List Context) :
    (vm'.behind c cs).Agrees (vm.behind c cs) := by
  refine ⟨rfl, ?_, ?_, ha.alive, ha.calm⟩
  · simp only [Vm.behind, ha.frames, take_take, Nat.min_self]
  · simp only [Vm.behind, length_take, ha.stack]

section

variable (h : Inv vm)
include h

/-- the innermost boundary is the highest on the value stack -/
theorem saveSp_le_floor : ∀ c ∈ vm.contexts, c.saveSp ≤ floor vm := by
  have hnested := h.nested
  unfold floor
  match hchain : vm.contexts with
  | [] => exact nofun
  | c :: cs =>
    rw [hchain, pairwise_cons] at hnested
    rw [forall_mem_cons]
    exact ⟨le_rfl, fun c' hc' => (le_self_add).trans (hnested.1 c' hc').sp_le⟩

/-- and on the control stack, where a catch has its frame -/
theorem saveCsp_le_innermost (hchain : vm.contexts = c :: cs) :
    ∀ c' ∈ vm.contexts, c'.saveCsp + c'.boundary.isCatch.toNat ≤ c.saveCsp + c.boundary.isCatch.toNat := by
  have hnested := h.nested
  rw [hchain, pairwise_cons] at hnested
  rw [hchain, forall_mem_cons]
  refine ⟨le_rfl, fun c' hc' => ?_⟩
  have hinside := hnested.1 c' hc'
  cases hcatch : c'.boundary.isCatch with
  | false => exact hinside.csp_le.trans (le_self_add)
  | true => exact (hinside.csp_lt (.inr hcatch)).trans_le (le_self_add)

/-- while code runs, no boundary waits for a frame -/
theorem saveCsp_lt_of_running (hrun : running vm = true) : ∀ c ∈ vm.contexts, c.saveCsp < vm.frames.length := by
  have hnested := h.nested
  unfold running at hrun
  match hchain : vm.contexts with
  | [] => exact nofun
  | c :: cs =>
    simp only [hchain, decide_eq_true_eq] at hrun
    rw [hchain, pairwise_cons] at hnested
    rw [forall_mem_cons]
    exact ⟨hrun, fun c' hc' => (hnested.1 c' hc').csp_le.trans_lt hrun⟩

theorem inv_pop (hfloor : floor vm < vm.stack.length) : Inv { vm with stack := vm.stack.dropLast } := by
  refine ⟨h.alive, h.calm, h.marks, h.csp_le, fun c hc => ?_, h.owned_le, h.nested⟩
  have := saveSp_le_floor h c hc
  simp only [length_dropLast]
  omega

/-- a frame on top of all boundaries -/
theorem inv_pushFrame {kind : FrameKind} (hkind : kind ≠ .catch) : Inv (vm.pushFrame kind) := by
  refine ⟨h.alive, h.calm, fun c hc => ?_, fun c hc => ?_, h.sp_le, h.owned_le, h.nested⟩
  · have hmark := h.marks c hc
    have hle := h.csp_le c hc
    simp only [pushFrame]
    rcases hle.lt_or_eq with hlt | heq
    · rw [getElem?_append_left hlt]
      exact hmark
    · rw [← hmark, heq]
      simp [hkind]
  · simp only [pushFrame, length_append]
    exact (h.csp_le c hc).trans (le_self_add)

theorem inv_popControlStack (henabled : enabled cfg vm .ret = true) : Inv vm.popControlStack := by
  have htop : ∀ c ∈ vm.contexts, c.saveCsp + c.boundary.isCatch.toNat < vm.frames.length := by
    match hchain : vm.contexts with
    | [] => exact nofun
    | c :: cs =>
      simp only [enabled, hchain, decide_eq_true_eq] at henabled
      exact fun c' hc' => (saveCsp_le_innermost h hchain c' (hchain ▸ hc')).trans_lt henabled
  suffices hcut : Inv { vm with frames := vm.frames.dropLast } from hcut.of_agrees (popControlStack_agrees vm)
  refine ⟨h.alive, h.calm, fun c hc => ?_, fun c hc => ?_, h.sp_le, h.owned_le, h.nested⟩
  · have hmark := h.marks c hc
    have hlt := htop c hc
    simp only [dropLast_eq_take, getElem?_take]
    split_ifs with hkept
    · exact hmark
    · cases hcatch : c.boundary.isCatch with
      | false => rfl
      | true =>
        rw [hcatch, toNat_true] at hlt
        omega
  · have := htop c hc
    simp only [length_dropLast]
    omega

/-- a boundary of the driver inside all others -/
theorem inv_saveContext {b : Boundary} (hcatch : b.isCatch = false)
    (howned : floor vm + b.owned ≤ vm.stack.length) : Inv (vm.saveContext b) := by
  refine ⟨h.alive, h.calm, forall_mem_cons.2 ⟨?_, h.marks⟩, forall_mem_cons.2 ⟨le_rfl, h.csp_le⟩,
    forall_mem_cons.2 ⟨le_rfl, h.sp_le⟩, forall_mem_cons.2 ⟨(Nat.le_add_left _ _).trans howned, h.owned_le⟩,
    pairwise_cons.2 ⟨fun c hc => ⟨h.csp_le c hc, ?_, ?_⟩, h.nested⟩⟩
  · simp only [hcatch, saveContext, getElem?_eq_none le_rfl, Option.any_none]
  · rintro (hnew | hold)
    · exact absurd (hcatch.symm.trans hnew) false_ne_true
    · -- the frame of the catch is there
      have hmark := h.marks c hc
      rw [hold] at hmark
      by_contra hle
      rw [getElem?_eq_none (not_lt.1 hle)] at hmark
      cases hmark
  · exact (Nat.add_le_add_right (saveSp_le_floor h c hc) _).trans howned

theorem inv_catch (hrun : running vm = true) (v : Svalue) :
    Inv { (vm.saveContext .catch).pushFrame .catch with catchValue := v } := by
  have hlt := saveCsp_lt_of_running h hrun
  refine ⟨h.alive, h.calm, forall_mem_cons.2 ⟨?_, fun c hc => ?_⟩, forall_mem_cons.2 ⟨?_, fun c hc => ?_⟩,
    forall_mem_cons.2 ⟨le_rfl, h.sp_le⟩, forall_mem_cons.2 ⟨Nat.zero_le _, h.owned_le⟩,
    pairwise_cons.2 ⟨fun c hc => ⟨h.csp_le c hc, fun _ => hlt c hc, h.sp_le c hc⟩, h.nested⟩⟩
  · simp only [saveContext, pushFrame, getElem?_concat_length]
    rfl
  · simp only [saveContext, pushFrame, getElem?_append_left (hlt c hc)]
    exact h.marks c hc
  · exact length_append.ge.trans' le_self_add
  · exact length_append.ge.trans' ((h.csp_le c hc).trans le_self_add)

/-- the frame of a catch is gone at its end, and an error there still finds its boundary -/
theorem inv_error_endCatch {err : String} (hchain : vm.contexts = c :: cs)
    (hcatch : c.boundary.isCatch = true) (ha : vm'.Agrees { vm with frames := vm.frames.take c.saveCsp })
    {vm₁ : Vm R} (hvm₁ : (error M err vm').vm? = some vm₁) : Inv vm₁ := by
  have hmem : c ∈ vm.contexts := hchain ▸ (.head _)
  have hcsp : c.saveCsp ≤ vm'.frames.length := by rw [ha.frames, length_take_of_le (h.csp_le c hmem)]
  have hsp : c.saveSp ≤ vm'.stack.length := ha.stack ▸ h.sp_le c hmem
  obtain ⟨e, vm₂, hraised, herror⟩ := exists_unwind M err (ha.contexts.trans hchain)
  rw [herror] at hvm₁
  exact inv_unwind_catch (boundary_of_isCatch hcatch) (h.behind hchain)
    ((hraised.behind hcsp hsp cs).trans (behind_endCatch ha cs)) (hsp.trans hraised.stack) (inv_unwind cs) hvm₁

end

/-- a catch block ends in its own frame -/
theorem enabled_endCatch (h : enabled cfg vm .endCatch = true) :
    ∃ c cs, vm.contexts = c :: cs ∧ c.boundary.isCatch = true ∧ c.saveCsp + 1 = vm.frames.length := by
  match hchain : vm.contexts with
  | [] => simp [enabled, hchain] at h
  | c :: cs =>
    simp only [enabled, hchain, and_eq_true, decide_eq_true_eq] at h
    exact ⟨c, cs, rfl, h⟩

theorem agrees_endCatch (hlen : c.saveCsp + 1 = vm.frames.length) (v : Svalue) :
    ({ vm with catchValue := v } : Vm R).popControlStack.Agrees { vm with frames := vm.frames.take c.saveCsp } := by
  refine (popControlStack_agrees _).trans ⟨rfl, ?_, rfl, rfl, rfl⟩
  rw [dropLast_eq_take, ← hlen]
  rfl

theorem inv_endCatch (h : Inv vm) (henabled : enabled cfg vm .endCatch = true)
    (hvm' : (exec M cfg vm .endCatch).vm? = some vm') : Inv vm' := by
  obtain ⟨c, cs, hchain, hcatch, hlen⟩ := enabled_endCatch henabled
  have ha := agrees_endCatch hlen (.number 0)
  simp only [exec] at hvm'
  split_ifs at hvm'
  · refine inv_error_endCatch h hchain hcatch ?_ hvm'
    exact ⟨ha.contexts, ha.frames, ha.stack, ha.alive, ha.calm⟩
  · refine some.inj hvm' ▸ (h.cut hchain ?_).of_agrees ⟨?_, ha.frames, rfl, ha.alive, ha.calm⟩
    · have := h.sp_le c (hchain ▸ .head _)
      simp only [popContext, clearErrorState, length_append, ha.stack]
      omega
    · exact (congrArg List.tail ha.contexts).trans (congrArg List.tail hchain)

/-- the end of a boundary of the driver -/
theorem inv_leave (h : Inv vm) (hchain : vm.contexts = c :: cs) (hlen : c.saveCsp = vm.frames.length)
    (hstack : c.saveSp - c.boundary.owned ≤ vm'.stack.length)
    (ha : vm'.Agrees { vm with contexts := cs, stack := vm'.stack }) : Inv vm' := by
  refine (h.cut hchain hstack).of_agrees ⟨ha.contexts, ?_, rfl, ha.alive, ha.calm⟩
  rw [ha.frames, Vm.behind, hlen, take_length]

theorem inv_protect (h : Inv vm) {numArg : ℕ} {withSlot : Bool}
    (henabled : enabled cfg vm (.protect numArg withSlot) = true)
    (hvm' : (exec M cfg vm (.protect numArg withSlot)).vm? = some vm') : Inv vm' := by
  simp only [enabled, decide_eq_true_eq] at henabled
  simp only [exec] at hvm'
  by_cases hfull : vm.frames.length = cfg.maxCallDepth
  · rw [if_pos hfull] at hvm'
    refine some.inj hvm' ▸ ⟨h.alive, h.calm, h.marks, h.csp_le, fun c hc => ?_, h.owned_le, h.nested⟩
    have := saveSp_le_floor h c hc
    simp only [length_append, length_take]
    omega
  · rw [if_neg hfull] at hvm'
    refine some.inj hvm' ▸ inv_saveContext h ?_ ?_
    · rfl
    · exact henabled

theorem inv_unprotect (h : Inv vm) {result : Svalue} (henabled : enabled cfg vm (.unprotect result) = true)
    (hvm' : (exec M cfg vm (.unprotect result)).vm? = some vm') : Inv vm' := by
  match hchain : vm.contexts with
  | ⟨.safeApply numArg withSlot, saveSp, saveCsp, giver, verb⟩ :: cs =>
    simp only [enabled, hchain, decide_eq_true_eq] at henabled
    simp only [exec, hchain] at hvm'
    have hsp := h.sp_le _ (hchain ▸ mem_cons_self)
    refine some.inj hvm' ▸ inv_leave h hchain henabled ?_ ⟨rfl, rfl, rfl, rfl, rfl⟩
    simp only [Boundary.owned, popContext, clearErrorState, length_append, length_take] at hsp ⊢
    omega
  | ⟨.catch, _, _, _, _⟩ :: _ | ⟨.loop, _, _, _, _⟩ :: _ | [] => simp [enabled, hchain] at henabled

theorem inv_leaveLoop (h : Inv vm) (henabled : enabled cfg vm .leaveLoop = true)
    (hvm' : (exec M cfg vm .leaveLoop).vm? = some vm') : Inv vm' := by
  match hchain : vm.contexts with
  | ⟨.loop, saveSp, saveCsp, giver, verb⟩ :: cs =>
    simp only [enabled, hchain, decide_eq_true_eq] at henabled
    refine some.inj hvm' ▸ inv_leave h hchain henabled ?_ ⟨congrArg List.tail hchain, rfl, rfl, rfl, rfl⟩
    exact (Nat.sub_le _ _).trans (h.sp_le _ (hchain ▸ .head _))
  | ⟨.catch, _, _, _, _⟩ :: _ | ⟨.safeApply _ _, _, _, _, _⟩ :: _ | [] => simp [enabled, hchain] at henabled

theorem inv_throw (h : Inv vm) (henabled : enabled cfg vm .throw = true)
    (hvm' : (exec M cfg vm .throw).vm? = some vm') : Inv vm' := by
  simp only [enabled, and_eq_true, decide_eq_true_eq] at henabled
  simp only [exec] at hvm'
  match hlast : vm.stack.getLast? with
  | none => simp [hlast, Outcome.vm?] at hvm'
  | some v =>
    have hinv : Inv { vm with catchValue := thrown v, stack := vm.stack.dropLast } :=
      (inv_pop h henabled.2).of_agrees ⟨rfl, rfl, rfl, rfl, rfl⟩
    simp only [hlast, throwToCatch] at hvm'
    split_ifs at hvm'
    · exact inv_unwind _ hinv rfl (.refl _) hvm'
    · exact inv_error hinv hvm'

theorem inv_exec (h : Inv vm) (op : Op) (henabled : enabled cfg vm op = true)
    (hvm' : (exec M cfg vm op).vm? = some vm') : Inv vm' := by
  cases op with
  | nop => exact some.inj hvm' ▸ h
  | push v =>
    simp only [exec] at hvm'
    split_ifs at hvm'
    · refine inv_error ?_ hvm'
      exact h.of_agrees ⟨rfl, rfl, rfl, rfl, rfl⟩
    · refine some.inj hvm' ▸ h.grow ⟨rfl, rfl, rfl, rfl, rfl⟩ ?_
      simp only [length_append]
      exact le_self_add
  | pop =>
    simp only [enabled, and_eq_true, decide_eq_true_eq] at henabled
    exact some.inj hvm' ▸ inv_pop h henabled.2
  | call kind =>
    simp only [exec] at hvm'
    split_ifs at hvm'
    · refine inv_error ?_ hvm'
      exact h.of_agrees ⟨rfl, rfl, rfl, rfl, rfl⟩
    · exact some.inj hvm' ▸ inv_pushFrame h (of_decide_eq_true henabled)
  | ret => exact some.inj hvm' ▸ inv_popControlStack h henabled
  | «catch» =>
    simp only [exec] at hvm'
    split_ifs at hvm'
    · exact inv_error h hvm'
    · exact some.inj hvm' ▸ inv_catch h henabled _
  | endCatch => exact inv_endCatch h henabled hvm'
  | protect numArg withSlot => exact inv_protect h henabled hvm'
  | unprotect result => exact inv_unprotect h henabled hvm'
  | enterLoop =>
    refine some.inj hvm' ▸ inv_saveContext h rfl ?_
    unfold floor
    match hchain : vm.contexts with
    | [] => exact Nat.zero_le _
    | c :: cs => exact h.sp_le c (hchain ▸ mem_cons_self)
  | leaveLoop => exact inv_leaveLoop h henabled hvm'
  | refill => exact some.inj hvm' ▸ h.of_agrees ⟨rfl, rfl, rfl, rfl, rfl⟩
  | error err => exact inv_error h hvm'
  | throw => exact inv_throw h henabled hvm'

theorem inv_step (h : Inv vm) {op : Op} {o : Outcome R} (hstep : step M cfg vm op = some o)
    (hvm' : o.vm? = some vm') : Inv vm' := by
  unfold step at hstep
  split_ifs at hstep with henabled hcounted hcost
  · rw [← some.inj hstep] at hvm'
    refine inv_error ?_ hvm'
    exact h.of_agrees ⟨rfl, rfl, rfl, rfl, rfl⟩
  · have hinv : Inv { vm with evalCost := vm.evalCost - 1 } := h.of_agrees ⟨rfl, rfl, rfl, rfl, rfl⟩
    exact inv_exec hinv op henabled (some.inj hstep ▸ hvm')
  · exact inv_exec h op henabled (some.inj hstep ▸ hvm')

/-- **Every run keeps the chain sound.** -/
theorem inv_run (ops : List Op) {vm' : Vm R} (h : Inv vm) (hrun : run M cfg ops vm = some vm') : Inv vm' := by
  induction ops generalizing vm with
  | nil => exact some.inj hrun ▸ h
  | cons op ops ih =>
    simp only [run, bind_eq_bind, bind_eq_some_iff] at hrun
    obtain ⟨o, hstep, vm₁, hvm₁, hrest⟩ := hrun
    exact ih (inv_step h hstep hvm₁) hrest

theorem inv_init (cfg : Config) (regs : R) : Inv (init cfg regs) := ⟨rfl, rfl, nofun, nofun, nofun, nofun, .nil⟩

theorem Reachable.inv (h : Reachable M cfg vm) : Inv vm := by
  obtain ⟨regs, ops, hrun⟩ := h
  exact inv_run ops (inv_init cfg regs) hrun

/-! ## Where an error ends -/

variable {err : String}

theorem catches_cons : catches (c :: cs) = (c.boundary.isCatch || catches cs) := any_cons

/-- an error with no catch around it ends at a boundary of the driver, or ends the driver -/
theorem escapes_of_no_catch (h : Inv vm) (hcatch : catches vm.contexts = false) : Escapes (error M err vm) := by
  unfold error
  match herr : errorHandler M (errorText err) vm with
  | none => exact trivial
  | some (e, vm') =>
    have hraised := errorHandler_raises herr
    dsimp only
    rw [hraised.contexts]
    match hchain : vm.contexts with
    | [] => exact trivial
    | c :: cs =>
      rw [hchain, catches_cons, or_eq_false_iff] at hcatch
      rcases unwind_boundary M e h hchain hcatch.1 hraised.toExtends with ⟨vm₁, hunwind, -, hrest⟩ | ⟨hne, -⟩
      · rw [hunwind]
        exact hrest.trans hcatch.2
      · exact absurd (hraised.contexts.trans hchain) hne

/-- an exception that ends at a boundary of the driver leaves the catches around it -/
theorem not_escapes_boundary {e : Exc} (h : Inv vm) (hchain : vm.contexts = c :: cs)
    (hdriver : c.boundary.isCatch = false) (hcatch : catches cs = true) (hext : vm.Extends vm') :
    ¬ Escapes (unwind M (c :: cs) e vm') := by
  rcases unwind_boundary M e h hchain hdriver hext with ⟨vm₁, hunwind, -, hrest⟩ | ⟨-, hunwind⟩
  · rw [hunwind, Escapes, hrest, hcatch]
    exact false_ne_true.symm
  · rw [hunwind]
    exact id

/-- a catch completes with a catchable error -/
theorem not_escapes_catchable {what : String} (hb : c.boundary = .catch) :
    ¬ Escapes (unwind M (c :: cs) (.catchable what) vm) := by
  simp only [unwind, hb]
  cases vm.restoreContext c with
  | none | some vm₁ => exact id

/-- below a catch an error goes to the handler of caught ones -/
theorem errorHandler_caught (h : Inv vm) (hcatch : catches vm.contexts = true) :
    errorHandler M err vm = some (handleCaughtError M err vm) := by
  rw [errorHandler, hasActiveCatchBoundary_eq h, hcatch, h.alive]
  rfl

/-- an error that does not come from a limit is caught -/
theorem not_escapes_of_catch (hreturns : M.Returns) (h : Inv vm) (hflags : vm.stackFull = false ∧ vm.costExceeded = false)
    (hcatch : catches vm.contexts = true) : ¬ Escapes (error M err vm) := by
  unfold error
  generalize errorText err = err
  have hexc : (handleCaughtError M err vm).1 = .catchable err := by
    have hrun := hreturns err true { vm with inMudlibErrorHandler := true }
    unfold handleCaughtError
    rw [if_neg (eq_false_iff.1 hflags.2), if_neg (eq_false_iff.1 hflags.1)]
    split_ifs
    · rfl
    · match heq : M.run err true { vm with inMudlibErrorHandler := true } with
      | (some e, vm') => rw [heq] at hrun; cases hrun
      | (none, vm') => rfl
  have hraised := handleCaughtError_raises M err vm
  rw [errorHandler_caught h hcatch]
  dsimp only
  rw [hraised.contexts, hexc]
  match hchain : vm.contexts with
  | [] => rw [hchain] at hcatch; cases hcatch
  | c :: cs =>
    cases hdriver : c.boundary.isCatch with
    | true => exact not_escapes_catchable (boundary_of_isCatch hdriver)
    | false =>
      rw [hchain, catches_cons, hdriver] at hcatch
      exact not_escapes_boundary h hchain hdriver hcatch hraised.toExtends

/-- at a catch a limit becomes an error behind the catch, and the error state is lost -/
theorem unwind_limit_eq (M : Mudlib R) (cs : List Context) (hb : c.boundary = .catch) (hsp : c.saveSp ≤ vm.stack.length)
    (what : String) :
    ∃ msg vm₁, unwind M (c :: cs) (.limit what) vm = error M msg vm₁ ∧ vm₁.Agrees (vm.behind c cs) ∧
      vm₁.stackFull = false ∧ vm₁.costExceeded = false := by
  obtain ⟨vm₁, hrestore, ha, -⟩ := restoreContext_eq hsp
  refine ⟨limitMessage vm₁ what, vm₁.popContext cs, ?_, ⟨rfl, ha.frames, ha.stack, ha.alive, ha.calm⟩, rfl, rfl⟩
  simp only [unwind, hb, hrestore, error]
  rcases herr : errorHandler M (errorText (limitMessage vm₁ what)) (vm₁.popContext cs) with _ | ⟨e, vm₂⟩
  · rfl
  · have hcontexts : vm₂.contexts = cs := (errorHandler_raises herr).contexts
    simp only [hcontexts]

/-- with the error state set, an error below a catch is a limit -/
theorem error_of_flags (M : Mudlib R) (err : String) (h : Inv vm) (hflags : (vm.stackFull || vm.costExceeded) = true)
    (hcatch : catches vm.contexts = true) : ∃ what, error M err vm = unwind M vm.contexts (.limit what) vm := by
  unfold error
  rw [errorHandler_caught h hcatch]
  unfold handleCaughtError
  split_ifs with hcost hfull
  · exact ⟨_, rfl⟩
  · exact ⟨_, rfl⟩
  all_goals
    rw [or_eq_true] at hflags
    exact absurd hflags (not_or.2 ⟨hfull, hcost⟩)

/-- **A limit and the boundaries around it.** It gets past one catch, if that is the innermost boundary. -/
theorem escapes_of_flags (M : Mudlib R) (err : String) (h : Inv vm) (hflags : (vm.stackFull || vm.costExceeded) = true) :
    (catches vm.contexts.tail = false → Escapes (error M err vm)) ∧
      (M.Returns → Escapes (error M err vm) → catches vm.contexts.tail = false) := by
  match hchain : vm.contexts with
  | [] => exact ⟨fun _ => escapes_of_no_catch h (by rw [hchain]; rfl), fun _ _ => rfl⟩
  | c :: cs =>
    have hmem : c ∈ vm.contexts := hchain ▸ (.head _)
    rw [tail_cons]
    cases hcatch : c.boundary.isCatch with
    | false =>
      refine ⟨fun hrest => escapes_of_no_catch h ?_, fun _ hescapes => ?_⟩
      · rw [hchain, catches_cons, hcatch, hrest]
        rfl
      · by_contra hrest
        rw [not_eq_false] at hrest
        have hall : catches vm.contexts = true := by rw [hchain, catches_cons, hcatch, hrest]; rfl
        obtain ⟨what, herror⟩ := error_of_flags M err h hflags hall
        rw [herror, hchain] at hescapes
        exact not_escapes_boundary h hchain hcatch hrest (.refl vm) hescapes
    | true =>
      have hall : catches vm.contexts = true := by rw [hchain, catches_cons, hcatch]; rfl
      obtain ⟨what, herror⟩ := error_of_flags M err h hflags hall
      obtain ⟨msg, vm₁, hunwind, ha, hcleared⟩ :=
        unwind_limit_eq M cs (boundary_of_isCatch hcatch) (h.sp_le c hmem) what
      have hinv : Inv vm₁ := (h.behind hchain).of_agrees ha
      rw [herror, hchain, hunwind]
      refine ⟨fun hrest => escapes_of_no_catch hinv (ha.contexts ▸ hrest), fun hreturns hescapes => ?_⟩
      by_contra hrest
      rw [not_eq_false] at hrest
      exact not_escapes_of_catch hreturns hinv hcleared (ha.contexts ▸ hrest) hescapes

/-- at the end of a catch its frame is gone: the catch does not count as active, and completes with the limit -/
theorem not_escapes_endCatch (hreturns : M.Returns) (h : Inv vm) (hchain : vm.contexts = c :: cs)
    (hcatch : c.boundary.isCatch = true) (ha : vm'.Agrees { vm with frames := vm.frames.take c.saveCsp })
    (hfull : vm'.stackFull = true) : ¬ Escapes (error M err vm') := by
  have hmem : c ∈ vm.contexts := hchain ▸ (.head _)
  have hbehind := h.behind hchain
  have hcontexts : vm'.contexts = c :: cs := ha.contexts.trans hchain
  have hactive : vm'.hasActiveCatchBoundary = catches cs := by
    calc vm'.hasActiveCatchBoundary
        = (vm.behind c cs).hasActiveCatchBoundary := by
          rw [hasActiveCatchBoundary, hcontexts, any_cons, ha.frames, getElem?_eq_none (length_take_le _ _)]
          rfl
      _ = catches cs := hasActiveCatchBoundary_eq hbehind
  have hfatal : vm'.fatalError = false := ha.alive.trans h.alive
  unfold error
  generalize errorText err = err
  cases hrest : catches cs with
  | true =>
    obtain ⟨what, hcaught⟩ : ∃ what, handleCaughtError M err vm' = (.limit what, vm') := by
      unfold handleCaughtError
      split_ifs
      all_goals exact ⟨_, rfl⟩
    have herr : errorHandler M err vm' = some (.limit what, vm') := by
      rw [errorHandler, hactive, hrest, hfatal, hcaught]
      rfl
    obtain ⟨msg, vm₁, hunwind, ha₁, hflags⟩ :=
      unwind_limit_eq M cs (boundary_of_isCatch hcatch) (ha.stack ▸ h.sp_le c hmem) what
    have hinv : Inv vm₁ := hbehind.of_agrees (ha₁.trans (behind_endCatch ha cs))
    rw [herr]
    dsimp only
    rw [hcontexts, hunwind]
    exact not_escapes_of_catch hreturns hinv hflags (ha₁.contexts ▸ hrest)
  | false =>
    have hreport : (reportUncaught M err vm').1 = none := by
      unfold reportUncaught
      split_ifs
      · rfl
      · exact hreturns _ _ _
    obtain ⟨vm₁, herr, hcontexts₁⟩ : ∃ vm₁, errorHandler M err vm' = some (.catchable err, vm₁) ∧
        vm₁.contexts = c :: cs := by
      refine ⟨(reportUncaught M err vm').2, ?_, (reportUncaught_raises M err vm').contexts.trans hcontexts⟩
      rw [errorHandler, hactive, hrest, Bool.false_and, if_neg Bool.false_ne_true, handleUncaughtError,
        if_neg (Bool.eq_false_iff.1 (ha.calm.trans h.calm))]
      rcases hrun : reportUncaught M err vm' with ⟨_ | e, vm₁⟩
      · rw [hcontexts]
        rfl
      · rw [hrun] at hreport
        cases hreport
    rw [herr]
    dsimp only
    rw [hcontexts₁]
    exact not_escapes_catchable (boundary_of_isCatch hcatch)

theorem not_escapes_exec_endCatch (hreturns : M.Returns) (h : Inv vm) (henabled : enabled cfg vm .endCatch = true)
    (hfull : cfg.stackSize ≤ vm.stack.length) : ¬ Escapes (exec M cfg vm .endCatch) := by
  obtain ⟨c, cs, hchain, hcatch, hlen⟩ := enabled_endCatch henabled
  have ha := agrees_endCatch hlen (.number 0)
  simp only [exec]
  rw [if_pos (by rw [ha.stack]; exact hfull)]
  refine not_escapes_endCatch hreturns h hchain hcatch ?_ rfl
  exact ⟨ha.contexts, ha.frames, ha.stack, ha.alive, ha.calm⟩

/-- **Limits and catches.** In every state reached, when the next step hits a limit: the error gets past all catches
that are active if `lets` says so, which is when only the innermost boundary is a catch for the limits that set the
error state, when there is no catch for the one at a catch, and never at the end of a catch. If the error handler of
the mudlib returns, it gets past them only then. -/
theorem limit_escapes (M : Mudlib R) (cfg : Config) {vm : Vm R} (hreach : Reachable M cfg vm) (op : Op)
    (henabled : enabled cfg vm op = true) {l : Limit} (hl : limitOf cfg vm op = some l) :
    ∃ o, step M cfg vm op = some o ∧ (lets vm l = true → Escapes o) ∧ (M.Returns → Escapes o → lets vm l = true) := by
  have h := hreach.inv
  have hflagged : ∀ (vm' : Vm R) err, vm'.Agrees vm → (vm'.stackFull || vm'.costExceeded) = true →
      ((!catches vm.contexts.tail) = true → Escapes (error M err vm')) ∧
        (M.Returns → Escapes (error M err vm') → (!catches vm.contexts.tail) = true) := by
    intro vm' err ha hflags
    have hboth := escapes_of_flags M err (h.of_agrees ha) hflags
    rw [ha.contexts] at hboth
    simpa only [not_eq_true'] using hboth
  unfold limitOf at hl
  by_cases hcost : op.counted = true ∧ vm.evalCost = 1
  · rw [if_pos hcost] at hl
    cases hl
    refine ⟨_, ?_, hflagged { vm with evalCost := cfg.maxEvalCost, costExceeded := true }
      "*Too long evaluation. Execution aborted." ⟨rfl, rfl, rfl, rfl, rfl⟩ (or_true _)⟩
    rw [step, if_pos henabled, if_pos hcost.1, if_pos (by rw [hcost.2]; rfl)]
  · rw [if_neg hcost] at hl
    have hstep : op.counted = true → step M cfg vm op = some (exec M cfg { vm with evalCost := vm.evalCost - 1 } op) := by
      intro hcounted
      rw [step, if_pos henabled, if_pos hcounted, if_neg fun heq => hcost ⟨hcounted, by omega⟩]
    cases op with
    | push v | call kind =>
      simp only at hl
      split_ifs at hl with hfull
      cases hl
      refine ⟨_, hstep rfl, ?_⟩
      simp only [exec, if_pos hfull]
      exact hflagged _ _ ⟨rfl, rfl, rfl, rfl, rfl⟩ rfl
    | «catch» =>
      simp only at hl
      split_ifs at hl with hfull
      cases hl
      refine ⟨_, hstep rfl, ?_⟩
      simp only [exec, if_pos hfull, lets]
      split_ifs with hflags
      · exact hflagged _ _ ⟨rfl, rfl, rfl, rfl, rfl⟩ hflags
      · have hinv : Inv { vm with evalCost := vm.evalCost - 1 } := h.of_agrees ⟨rfl, rfl, rfl, rfl, rfl⟩
        rw [not_eq_true, or_eq_false_iff] at hflags
        rw [not_eq_true']
        refine ⟨fun hcatch => escapes_of_no_catch hinv hcatch, fun hreturns hescapes => ?_⟩
        by_contra hcatch
        rw [not_eq_false] at hcatch
        exact not_escapes_of_catch hreturns hinv hflags hcatch hescapes
    | endCatch =>
      simp only at hl
      split_ifs at hl with hfull
      cases hl
      refine ⟨_, hstep rfl, nofun, fun hreturns hescapes => absurd hescapes ?_⟩
      have hinv : Inv { vm with evalCost := vm.evalCost - 1 } := h.of_agrees ⟨rfl, rfl, rfl, rfl, rfl⟩
      exact not_escapes_exec_endCatch hreturns hinv henabled hfull
    | _ => cases hl

def smallConfig : Config := ⟨10, 4, 20, 100⟩

/-- the driver loop calls a function with one catch, and the fourth instruction of the turn is one too many -/
def oneCatch : List Op := [.enterLoop, .call .function, .catch, .nop]

theorem oneCatch_escapes : ∃ vm, run quietMudlib smallConfig oneCatch (Vm.init smallConfig ()) = some vm ∧
    limitOf smallConfig vm .nop = some .evalCost ∧ lets vm .evalCost = true ∧
    ∃ o, step quietMudlib smallConfig vm .nop = some o ∧ Escapes o := by
  obtain ⟨vm, hrun, hlimit, hlets, henabled⟩ : ∃ vm, run quietMudlib smallConfig oneCatch (init smallConfig ()) =
      some vm ∧ limitOf smallConfig vm .nop = some .evalCost ∧ lets vm .evalCost = true ∧
      enabled smallConfig vm .nop = true := ⟨_, rfl, rfl, rfl, rfl⟩
  obtain ⟨o, hstep, hescapes, -⟩ :=
    limit_escapes quietMudlib smallConfig ⟨(), oneCatch, hrun⟩ .nop henabled hlimit
  exact ⟨vm, hrun, hlimit, hlets, o, hstep, hescapes hlets⟩

/-- `catch (catch (f ()))` -/
def twoCatches : List Op := [.enterLoop, .call .function, .catch, .catch]

/-- **A nested catch lets the limit be caught.** The inner catch raises it again with the error state cleared, and the
outer catch completes with the message as its value. -/
theorem nested_catch_completes : ∃ vm, run quietMudlib smallConfig twoCatches (Vm.init smallConfig ()) = some vm ∧
    limitOf smallConfig vm .nop = some .evalCost ∧
    ∃ vm', step quietMudlib smallConfig vm .nop = some (.caught vm') ∧
      vm'.stack = [.string "*Can't catch eval cost too big error.\n"] ∧ vm'.frames.length = 1 ∧
      vm'.evalCost = smallConfig.maxEvalCost :=
  ⟨_, rfl, rfl, _, rfl, rfl, rfl, rfl⟩

end Lithos.Driver.Catch
