/-
Switching between fibers (`fiber.c`).

A fiber is resumed by the main thread or by another fiber and gives control back by yielding or by returning from its
entry function. The machine knows where a thread stopped: in which call, made at which step, and what that call still
has to do. `fiber_switch (from, to)` saves this in `from` and goes on with what is in `to`; the C functions around it are
as they are in the source.

A history notes, beside the machine, where each fiber was last resumed from and where it last stopped. A step is right if
a yield goes back to the one, a resume goes on at the other, and no two fibers are running.

Results:
* `fibers_right_iff`: all steps of a run are right exactly when no fiber yields and no fiber resumes another one.
* `yield_stays_in_fiber`: a yield saves the fiber in `main_ctx` and goes on with `main_ctx`, that is, with the fiber.
-/
import Mathlib.Tactic

namespace Lithos.Lpc.Fiber

open Option Function

/-! ## The machine -/

inductive FiberState where
  | ready
  | running
  | suspended
  | dead
  deriving DecidableEq, Repr

inductive Thread where
  | main
  | fiber (f : ℕ)
  deriving DecidableEq, Repr

/-- a saved context: the start of a fiber, or a call of thread `t` at step `n` that switched away. `fiber_resume` still
has its local `prev`. -/
inductive Context where
  | entry (f : ℕ)
  | inYield (t : Thread) (n : ℕ)
  | inResume (t : Thread) (n : ℕ) (prev : Option ℕ)
  | inExit
  deriving DecidableEq, Repr

/-- where the program goes on: at the start, at the start of a fiber, or behind the call `t` made at step `n` -/
inductive Place where
  | start
  | entry (f : ℕ)
  | after (t : Thread) (n : ℕ)
  deriving DecidableEq, Repr

def Place.thread : Place → Thread
  | .start => .main
  | .entry f => .fiber f
  | .after t _ => t

/-- `lpc_fiber_t` -/
structure LpcFiber where
  ctx : Context
  state : FiberState
  deriving DecidableEq, Repr

/-- the globals of `fiber.c`, where the program is, and the number of steps so far -/
structure State where
  allFibers : ℕ → Option LpcFiber
  numFibers : ℕ
  currentFiber : Option ℕ
  mainCtx : Option Context
  mainCtxValid : Bool
  place : Place
  clock : ℕ

/-- `fiber_subsystem_init` -/
def fiberSubsystemInit : State where
  allFibers _ := none
  numFibers := 0
  currentFiber := none
  mainCtx := none
  mainCtxValid := false
  place := .start
  clock := 0

def State.stateOf (s : State) (f : ℕ) : Option FiberState := (s.allFibers f).map (·.state)

/-- the fiber can be resumed -/
def Takes (s : State) (f : ℕ) : Prop := s.stateOf f = some .suspended ∨ s.stateOf f = some .ready

instance (s : State) (f : ℕ) : Decidable (Takes s f) :=
  inferInstanceAs (Decidable (s.stateOf f = some .suspended ∨ s.stateOf f = some .ready))

def setState (s : State) (f : ℕ) (st : FiberState) : State :=
  { s with allFibers := update s.allFibers f ((s.allFibers f).map fun fib => { fib with state := st }) }

/-- `&main_ctx` or `&fib->ctx` -/
inductive Cell where
  | main
  | fiber (f : ℕ)

def save (s : State) (c : Context) : Cell → State
  | .main => { s with mainCtx := some c }
  | .fiber f =>
    { s with allFibers := update s.allFibers f ((s.allFibers f).map fun fib => { fib with ctx := c }) }

def load (s : State) : Cell → Option Context
  | .main => s.mainCtx
  | .fiber f => (s.allFibers f).map (·.ctx)

/-- what `fiber_resume` does when it is switched back to -/
def afterSwitch (s : State) (prev : Option ℕ) : State :=
  let s := match s.currentFiber with
    | some c => if s.stateOf c = some FiberState.running then setState s c .dead else s
    | none => s
  { s with currentFiber := prev }

/-- going on with a saved context; the one of a fiber that has ended cannot be gone on with -/
def goOn (s : State) : Context → Option State
  | .entry f => some { s with place := .entry f }
  | .inYield t n => some { s with place := .after t n }
  | .inResume t n prev => some { afterSwitch s prev with place := .after t n }
  | .inExit => none

/-- `fiber_switch`: `now` is the context of the call that switches -/
def fiberSwitch (s : State) (now : Context) (src dst : Cell) : Option State :=
  (load (save s now src) dst).bind (goOn (save s now src))

def maxFibers : ℕ := 4096

/-- `fiber_create`; `ok` says whether there is memory for it -/
def fiberCreate (s : State) (ok : Bool) : State :=
  if maxFibers ≤ s.numFibers ∨ ok = false then s
  else
    { s with
      allFibers := update s.allFibers s.numFibers (some ⟨.entry s.numFibers, .ready⟩)
      numFibers := s.numFibers + 1 }

/-- `fiber_resume`, called by thread `t` at step `n` -/
def fiberResume (s : State) (t : Thread) (n f : ℕ) : Option State :=
  if ¬ Takes s f then some { s with place := .after t n }
  else
    let s := if s.mainCtxValid then s else { s with mainCtx := none, mainCtxValid := true }
    let prev := s.currentFiber
    let s := setState { s with currentFiber := some f } f .running
    fiberSwitch s (.inResume t n prev) (prev.elim .main .fiber) (.fiber f)

/-- `fiber_yield` -/
def fiberYield (s : State) (t : Thread) (n : ℕ) : Option State :=
  match s.currentFiber with
  | none => some { s with place := .after t n }
  | some c =>
    let s := { setState s c .suspended with currentFiber := none }
    -- `current_fiber` is `NULL` here, so `main_ctx` is both ends of the switch
    if s.mainCtxValid then fiberSwitch s (.inYield t n) .main .main else some { s with place := .after t n }

/-- `fiber_on_exit`: without a current fiber it writes through a null pointer -/
def fiberOnExit (s : State) : Option State :=
  s.currentFiber.bind fun c => fiberSwitch (setState s c .dead) .inExit (.fiber c) .main

/-! ## Runs -/

inductive Op where
  | create (ok : Bool)
  | resume (f : ℕ)
  | yield
  | exit
  deriving DecidableEq, Repr

/-- the running thread makes a call -/
def call (s : State) : Op → Option State
  | .create ok => some { fiberCreate s ok with place := .after s.place.thread s.clock }
  | .resume f => fiberResume s s.place.thread s.clock f
  | .yield => fiberYield s s.place.thread s.clock
  | .exit => fiberOnExit s

def step (s : State) (op : Op) : Option State := (call s op).map fun s' => { s' with clock := s.clock + 1 }

/-- the machine after a number of steps -/
def run (s : State) : List Op → Option State
  | [] => some s
  | op :: ops => (step s op).bind fun s => run s ops

/-- only a fiber can return from its entry function -/
def Legal (s : State) : List Op → Prop
  | [] => True
  | op :: ops => (op = .exit → s.place.thread ≠ .main) ∧ ∀ s', step s op = some s' → Legal s' ops

/-- what happened to the fibers: where the last resume came from, and where the fiber then has to go on -/
structure History where
  resumedFrom : ℕ → Option Place
  stoppedAt : ℕ → Place

def History.start : History := ⟨fun _ => none, .entry⟩

/-- the thread of `s` calls `op` -/
def History.note (h : History) (s : State) : Op → History
  | .resume f =>
    if Takes s f then
      { h with resumedFrom := update h.resumedFrom f (some (.after s.place.thread s.clock)) }
    else h
  | .yield =>
    match s.place.thread with
    | .fiber f => { h with stoppedAt := update h.stoppedAt f (.after (.fiber f) s.clock) }
    | .main => h
  | _ => h

/-- no two fibers are running -/
def OneRunning (s : State) : Prop :=
  ∀ f g, s.stateOf f = some .running → s.stateOf g = some .running → f = g

/-- where a step has to lead: a yield of a fiber back to the call that resumed it, a resume to where the fiber stopped -/
def RightStep (s : State) (h : History) (op : Op) (s' : State) : Prop :=
  match op with
  | .yield => ∀ f, s.place.thread = .fiber f → h.resumedFrom f = some s'.place
  | .resume f => Takes s f → s'.place = h.stoppedAt f
  | _ => True

/-- every step of a run goes through and is right, and no two fibers are running at any moment -/
def Right (s : State) (h : History) : List Op → Prop
  | [] => OneRunning s
  | op :: ops => OneRunning s ∧ ∃ s', step s op = some s' ∧ RightStep s h op s' ∧ Right s' (h.note s op) ops

/-- inside a fiber neither a yield nor a resume that switches -/
def PlainStep (s : State) : Op → Prop
  | .yield => s.currentFiber = none
  | .resume f => Takes s f → s.currentFiber = none
  | _ => True

def Plain (s : State) : List Op → Prop
  | [] => True
  | op :: ops => PlainStep s op ∧ ∀ s', step s op = some s' → Plain s' ops

/-! ## Plain runs -/

variable {s s' : State} {h : History} {f g : ℕ} {n : ℕ} {op : Op} {ops : List Op}

/-- what holds of the fibers of a plain run: none is suspended, and one that is ready has not run -/
structure Fresh (s : State) (h : History) : Prop where
  unused : ∀ f, s.numFibers ≤ f → s.allFibers f = none
  unstarted : ∀ f fib, s.allFibers f = some fib → fib.state = .ready → fib.ctx = .entry f
  notSuspended : ∀ f, s.stateOf f ≠ some .suspended
  stopped : ∀ f, h.stoppedAt f = .entry f

/-- the main thread has control -/
structure OnMain (s : State) : Prop where
  thread : s.place.thread = .main
  current : s.currentFiber = none
  idle : ∀ f, s.stateOf f ≠ some .running

/-- fiber `f` has control and the main thread waits in the call that resumed it -/
structure InFiber (s : State) (h : History) (f : ℕ) : Prop where
  thread : s.place.thread = .fiber f
  current : s.currentFiber = some f
  valid : s.mainCtxValid = true
  running : ∀ g, s.stateOf g = some .running ↔ g = f
  waits : ∃ n, s.mainCtx = some (.inResume .main n none) ∧ h.resumedFrom f = some (.after .main n)

structure Inv (s : State) (h : History) : Prop where
  fresh : Fresh s h
  control : OnMain s ∨ ∃ f, InFiber s h f

theorem Inv.oneRunning (hinv : Inv s h) : OneRunning s := by
  intro f g hf hg
  rcases hinv.control with hmain | ⟨c, hc⟩
  · exact absurd hf (hmain.idle f)
  · rw [(hc.running f).1 hf, (hc.running g).1 hg]

theorem inv_start : Inv fiberSubsystemInit .start where
  fresh := ⟨fun _ _ => rfl, nofun, nofun, fun _ => rfl⟩
  control := .inl ⟨rfl, rfl, nofun⟩

/-- a step that only returns -/
theorem Inv.returns (hinv : Inv s h) (n : ℕ) : Inv { s with place := .after s.place.thread s.clock, clock := n } h where
  fresh := ⟨hinv.fresh.unused, hinv.fresh.unstarted, hinv.fresh.notSuspended, hinv.fresh.stopped⟩
  control := hinv.control.imp (fun hm => ⟨hm.thread, hm.current, hm.idle⟩)
    fun ⟨f, hf⟩ => ⟨f, hf.thread, hf.current, hf.valid, hf.running, hf.waits⟩

theorem stateOf_update (s : State) (fib : LpcFiber) (f g : ℕ) {s' : State}
    (hs' : s'.allFibers = update s.allFibers f (some fib)) :
    s'.stateOf g = if g = f then some fib.state else s.stateOf g := by
  rw [State.stateOf, hs']
  by_cases hg : g = f
  · rw [hg, update_self, if_pos rfl]; rfl
  · rw [update_of_ne hg, if_neg hg]; rfl

theorem Inv.create (hinv : Inv s h) (ok : Bool) (n : ℕ) :
    Inv { fiberCreate s ok with place := .after s.place.thread s.clock, clock := n } h := by
  unfold fiberCreate
  split
  · exact hinv.returns n
  · have hun := hinv.fresh.unused s.numFibers le_rfl
    -- the new fiber is ready; no other one changes
    have hstate : ∀ g st, st ≠ .ready → ∀ s' : State,
        s'.allFibers = update s.allFibers s.numFibers (some ⟨.entry s.numFibers, .ready⟩) →
          (s'.stateOf g = some st ↔ s.stateOf g = some st) := by
      intro g st hst s' hs'
      rw [stateOf_update s _ _ g hs']
      split_ifs with hg
      · simp [hg, State.stateOf, hun, hst.symm]
      · rfl
    refine ⟨⟨fun f hle => ?_, fun f fib hfib hready => ?_, fun f => ?_, hinv.fresh.stopped⟩, ?_⟩
    · dsimp only at hle ⊢
      rw [update_of_ne (by omega)]
      exact hinv.fresh.unused f (by omega)
    · dsimp only at hfib
      by_cases hfn : f = s.numFibers
      · rw [hfn, update_self] at hfib
        rw [← some.inj hfib, hfn]
      · rw [update_of_ne hfn] at hfib
        exact hinv.fresh.unstarted f fib hfib hready
    · exact mt (hstate f .suspended nofun _ rfl).1 (hinv.fresh.notSuspended f)
    · have hrun := fun g => hstate g .running nofun
      exact hinv.control.imp (fun hm => ⟨hm.thread, hm.current, fun g => mt (hrun g _ rfl).1 (hm.idle g)⟩)
        fun ⟨f, hf⟩ => ⟨f, hf.thread, hf.current, hf.valid, fun g => (hrun g _ rfl).trans (hf.running g), hf.waits⟩

/-- in a plain run a fiber that can be resumed is one that has not run -/
theorem Fresh.takes (hf : Fresh s h) (ht : Takes s f) : s.allFibers f = some ⟨.entry f, .ready⟩ := by
  have hready : s.stateOf f = some .ready := ht.resolve_left (hf.notSuspended f)
  obtain ⟨fib, hfib, hstate⟩ := map_eq_some_iff.1 hready
  rw [hfib, ← hf.unstarted f fib hfib hstate, ← hstate]

/-- resuming a fiber that has not run, from the main thread -/
theorem fiberResume_main (hcur : s.currentFiber = none) (hfib : s.allFibers f = some ⟨.entry f, .ready⟩) (t : Thread)
    (n : ℕ) :
    fiberResume s t n f = some { s with
      allFibers := update s.allFibers f (some ⟨.entry f, .running⟩)
      currentFiber := some f
      mainCtx := some (.inResume t n none)
      mainCtxValid := true
      place := .entry f } := by
  have ht : ¬¬ Takes s f := not_not.2 (.inr (by rw [State.stateOf, hfib]; rfl))
  rw [fiberResume, if_neg ht]
  cases hvalid : s.mainCtxValid <;>
    simp [hvalid, hcur, setState, hfib, fiberSwitch, save, load, goOn]

/-- a fiber that returns gives control back to the main thread -/
theorem fiberOnExit_main (hcur : s.currentFiber = some f) (hstate : (s.stateOf f).isSome)
    (hmain : s.mainCtx = some (.inResume .main n none)) :
    fiberOnExit s = some { s with
      allFibers := update s.allFibers f (some ⟨.inExit, .dead⟩)
      currentFiber := none
      place := .after .main n } := by
  obtain ⟨fib, hfib⟩ : ∃ fib, s.allFibers f = some fib := by
    rw [State.stateOf, isSome_map] at hstate
    exact isSome_iff_exists.1 hstate
  rw [fiberOnExit, hcur]
  simp [setState, hfib, fiberSwitch, save, load, hmain, goOn, afterSwitch, hcur, State.stateOf]

/-- a fiber that is there gets another state, not ready and not suspended -/
theorem Fresh.update (hf : Fresh s h) (fib : LpcFiber) (hsome : s.allFibers f ≠ none) (hready : fib.state ≠ .ready)
    (hsusp : fib.state ≠ .suspended) {s' : State} {h' : History}
    (hs' : s'.allFibers = update s.allFibers f (some fib)) (hnum : s'.numFibers = s.numFibers)
    (hstop : h'.stoppedAt = h.stoppedAt) : Fresh s' h' := by
  refine ⟨fun g hg => ?_, fun g fib' hfib hst => ?_, fun g => ?_, fun g => ?_⟩
  · rw [hnum] at hg
    have hne : g ≠ f := fun heq => hsome (heq ▸ hf.unused g hg)
    rw [hs', update_of_ne hne]
    exact hf.unused g hg
  · rw [hs'] at hfib
    by_cases hg : g = f
    · rw [hg, update_self] at hfib
      exact absurd (some.inj hfib ▸ hst) hready
    · rw [update_of_ne hg] at hfib
      exact hf.unstarted g fib' hfib hst
  · rw [stateOf_update s fib f g hs']
    split
    · exact fun heq => hsusp (some.inj heq)
    · exact hf.notSuspended g
  · rw [hstop]; exact hf.stopped g

theorem History.note_stoppedAt_resume (h : History) (s : State) (f : ℕ) :
    (h.note s (.resume f)).stoppedAt = h.stoppedAt := by
  unfold History.note
  dsimp only
  split <;> rfl

/-- **One step.** A plain step goes through and is right. -/
theorem Inv.plain_step (hinv : Inv s h) (hlegal : op = .exit → s.place.thread ≠ .main)
    (hplain : PlainStep s op) : ∃ s', step s op = some s' ∧ RightStep s h op s' ∧ Inv s' (h.note s op) := by
  cases op with
  | create ok => exact ⟨_, rfl, trivial, hinv.create ok _⟩
  | yield =>
    have hmain : s.place.thread = .main := by
      rcases hinv.control with hm | ⟨f, hf⟩
      · exact hm.thread
      · exact absurd (hf.current.symm.trans hplain) (by simp)
    have hcall : step s .yield = some { s with place := .after s.place.thread s.clock, clock := s.clock + 1 } := by
      rw [step, call, fiberYield, (hplain : s.currentFiber = none)]; rfl
    have hnote : h.note s .yield = h := by rw [History.note, hmain]
    refine ⟨_, hcall, fun f hf => ?_, by rw [hnote]; exact hinv.returns _⟩
    rw [hmain] at hf; cases hf
  | resume f =>
    by_cases ht : Takes s f
    · have hcur : s.currentFiber = none := hplain ht
      have hfib := hinv.fresh.takes ht
      have hm : OnMain s := by
        rcases hinv.control with hm | ⟨g, hg⟩
        · exact hm
        · exact absurd (hg.current.symm.trans hcur) (by simp)
      refine ⟨_, by rw [step, call, fiberResume_main hcur hfib]; rfl, fun _ => (hinv.fresh.stopped f).symm, ?_, ?_⟩
      · exact hinv.fresh.update ⟨.entry f, .running⟩ (by rw [hfib]; simp) nofun nofun rfl rfl
          (History.note_stoppedAt_resume h s f)
      · refine .inr ⟨f, rfl, rfl, rfl, fun g => ?_, s.clock, by rw [hm.thread], ?_⟩
        · rw [stateOf_update s ⟨.entry f, .running⟩ f g rfl]
          split_ifs with hg
          · exact ⟨fun _ => hg, fun _ => rfl⟩
          · exact ⟨fun hr => absurd hr (hm.idle g), fun heq => absurd heq hg⟩
        · rw [History.note, if_pos ht, hm.thread]
          exact update_self _ _ _
    · have hcall : step s (.resume f) = some { s with place := .after s.place.thread s.clock, clock := s.clock + 1 } := by
        rw [step, call, fiberResume, if_pos ht]; rfl
      have hnote : h.note s (.resume f) = h := by rw [History.note, if_neg ht]
      exact ⟨_, hcall, fun htake => absurd htake ht, by rw [hnote]; exact hinv.returns _⟩
  | exit =>
    rcases hinv.control with hm | ⟨f, hf⟩
    · exact absurd hm.thread (hlegal rfl)
    · have hrunning := (hf.running f).2 rfl
      obtain ⟨n, hmain, hfrom⟩ := hf.waits
      have hsome : s.allFibers f ≠ none := by
        intro hnone
        rw [State.stateOf, hnone] at hrunning
        cases hrunning
      refine ⟨_, by rw [step, call, fiberOnExit_main hf.current (by rw [hrunning]; rfl) hmain]; rfl, trivial, ?_, ?_⟩
      · exact hinv.fresh.update ⟨.inExit, .dead⟩ hsome nofun nofun rfl rfl rfl
      · refine .inl ⟨rfl, rfl, fun g => ?_⟩
        rw [stateOf_update s ⟨.inExit, .dead⟩ f g rfl]
        split_ifs with hg
        · decide
        · exact fun hr => hg ((hf.running g).1 hr)

/-- a fiber that resumes another one is not suspended: both are running -/
theorem fiberResume_nested (hcur : s.currentFiber = some g) (hg : s.stateOf g = some .running)
    (hfib : s.allFibers f = some ⟨.entry f, .ready⟩) {t : Thread} (hs' : fiberResume s t n f = some s') :
    s'.stateOf f = some .running ∧ s'.stateOf g = some .running := by
  have hne : g ≠ f := by
    rintro rfl
    rw [State.stateOf, hfib] at hg
    cases hg
  have ht : ¬¬ Takes s f := not_not.2 (.inr (by rw [State.stateOf, hfib]; rfl))
  rw [fiberResume, if_neg ht] at hs'
  obtain ⟨gib, hgib, hrunning⟩ := map_eq_some_iff.1 hg
  cases hvalid : s.mainCtxValid <;>
    simp [hvalid, hcur, setState, hfib, hgib, fiberSwitch, save, load, goOn, hne, hne.symm] at hs' <;>
    subst hs' <;> simp [State.stateOf, hne.symm, hrunning]

/-- a step that is not plain is not right, or leaves two fibers running -/
theorem Inv.plain_of_right (hinv : Inv s h) (hstep : step s op = some s') (hright : RightStep s h op s')
    (hone : OneRunning s') : PlainStep s op := by
  cases op with
  | create ok | exit => trivial
  | yield =>
    rcases hinv.control with hm | ⟨f, hf⟩
    · exact hm.current
    · -- the switch leads back into the fiber, and the main thread waits
      exfalso
      obtain ⟨n, hmain, hfrom⟩ := hf.waits
      have hplace := hright f hf.thread
      rw [hfrom] at hplace
      rw [step, call, fiberYield, hf.current] at hstep
      simp only [setState, hf.valid, if_true, fiberSwitch, load, save, bind_some, goOn, map_some] at hstep
      rw [← some.inj hstep, hf.thread] at hplace
      cases hplace
  | resume f =>
    intro ht
    rcases hinv.control with hm | ⟨g, hg⟩
    · exact hm.current
    · -- the fiber that resumes is still running
      obtain ⟨s₁, hs₁, rfl⟩ := map_eq_some_iff.1 hstep
      have hgrun := (hg.running g).2 rfl
      have hfib := hinv.fresh.takes ht
      obtain ⟨hf, hg'⟩ := fiberResume_nested hg.current hgrun hfib hs₁
      obtain rfl : f = g := hone f g hf hg'
      rw [State.stateOf, hfib] at hgrun
      cases hgrun

theorem Right.oneRunning (hr : Right s h ops) : OneRunning s := by
  cases ops with
  | nil => exact hr
  | cons op ops => exact hr.1

theorem Inv.right_iff (hinv : Inv s h) (hlegal : Legal s ops) : Right s h ops ↔ Plain s ops := by
  induction ops generalizing s h with
  | nil => exact ⟨fun _ => trivial, fun _ => hinv.oneRunning⟩
  | cons op ops ih =>
    constructor
    · rintro ⟨-, s', hstep, hright, hrest⟩
      have hplain := hinv.plain_of_right hstep hright hrest.oneRunning
      obtain ⟨s₁, hs₁, -, hinv'⟩ := hinv.plain_step hlegal.1 hplain
      obtain rfl : s₁ = s' := some.inj (hs₁.symm.trans hstep)
      refine ⟨hplain, fun s₂ hs₂ => ?_⟩
      obtain rfl : s₁ = s₂ := some.inj (hs₁.symm.trans hs₂)
      exact (ih hinv' (hlegal.2 s₁ hs₁)).1 hrest
    · rintro ⟨hplain, hrest⟩
      obtain ⟨s', hs', hright, hinv'⟩ := hinv.plain_step hlegal.1 hplain
      exact ⟨hinv.oneRunning, s', hs', hright, (ih hinv' (hlegal.2 s' hs')).2 (hrest s' hs')⟩

/-- **Fiber switching.** Every yield of a run goes back to the resumer, every resume goes on where the fiber stopped and
at most one fiber is running at any moment, exactly when in the whole run no fiber yields and none resumes another. -/
theorem fibers_right_iff (ops : List Op) (hlegal : Legal fiberSubsystemInit ops) :
    Right fiberSubsystemInit .start ops ↔ Plain fiberSubsystemInit ops :=
  inv_start.right_iff hlegal

theorem Legal.cons (hop : op = .exit → s.place.thread ≠ .main) (hstep : step s op = some s')
    (hops : Legal s' ops) : Legal s (op :: ops) := by
  refine ⟨hop, fun s₁ hs₁ => ?_⟩
  obtain rfl : s' = s₁ := some.inj (hstep.symm.trans hs₁)
  exact hops

theorem Plain.cons (hop : PlainStep s op) (hstep : step s op = some s')
    (hops : Plain s' ops) : Plain s (op :: ops) := by
  refine ⟨hop, fun s₁ hs₁ => ?_⟩
  obtain rfl : s' = s₁ := some.inj (hstep.symm.trans hs₁)
  exact hops

/-- two fibers run one after the other -/
def twoFibers : List Op := [.create true, .create true, .resume 1, .exit, .resume 0, .exit]

theorem twoFibers_right : Right fiberSubsystemInit .start twoFibers := by
  have hlegal : Legal fiberSubsystemInit twoFibers :=
    .cons nofun rfl (.cons nofun rfl (.cons nofun rfl (.cons nofun rfl (.cons nofun rfl (.cons nofun rfl trivial)))))
  refine (fibers_right_iff twoFibers hlegal).2 ?_
  exact .cons trivial rfl (.cons trivial rfl (.cons (fun _ => rfl) rfl (.cons trivial rfl (.cons (fun _ => rfl) rfl
    (.cons trivial rfl trivial)))))

/-- a fiber that is resumed and yields -/
def oneYield : List Op := [.create true, .resume 0, .yield]

/-- **The yield.** The fiber was resumed by the call of the main thread at step 1, and its yield at step 2 goes on behind
itself, in the fiber. -/
theorem yield_stays_in_fiber : Legal fiberSubsystemInit oneYield ∧ ¬ Right fiberSubsystemInit .start oneYield ∧
      (run fiberSubsystemInit oneYield).map (·.place) = some (.after (.fiber 0) 2) := by
  refine ⟨.cons nofun rfl (.cons nofun rfl (.cons nofun rfl trivial)), ?_, rfl⟩
  rintro ⟨-, s₁, h₁, -, -, s₂, h₂, -, -, s₃, h₃, hright, -⟩
  cases h₁
  cases h₂
  cases h₃
  have := hright 0 rfl
  cases this

end Lithos.Lpc.Fiber
