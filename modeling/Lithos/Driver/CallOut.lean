/-
The call-out wheel (`call_out.cpp`).

Call-outs wait in 32 slots, each a list of deltas that count sweeps of the slot. `call_out` sweeps one slot for every
second up to the present and runs what is due; the functions it runs may make and remove call-outs themselves, while the
slot is half swept. The model cuts `call_out` at the places where LPC code runs, so that a run is a list of acts: calls
of the driver from LPC code, readings of the clock, and steps of `call_out`. Ghosts record what was asked for and what
became of it.

Results:
  * `Inv.newCallOut`, `Inv.removeFrom`, `Inv.removeAllCallOut`, `Inv.decrement`, `Inv.pop`, `Inv.advance`: each
    operation keeps every call-out as many sweeps of its slot away as lie before its second.
  * `callOut_timely`: the promise of call-outs, in all runs that keep to the condition `RunOk`.
  * `late_by_a_cycle`: a call-out made by a running call-out into the slot being swept is 32 seconds late.
-/
import Lithos.Core.DeltaList
import Lithos.Lpc.Types

namespace Lithos.Driver.CallOut

open Lithos.Core Lithos.Lpc List Option Function DeltaList

/-! ## The wheel -/

abbrev ObjectId := ℕ

/-- what a call-out calls: a function of an object by its name, or a function pointer with its owner -/
inductive Target where
  | method (ob : ObjectId) (fn : List Byte)
  | pointer (owner : ObjectId)
deriving DecidableEq, Repr

/-- `pending_call_t` without its `delta`; `id` is a ghost: the number of call-outs made before this one -/
structure Call where
  id : ℕ
  target : Target
  handle : ℤ
deriving DecidableEq, Repr

/-- a ghost: a `new_call_out` as it was asked for -/
structure Request where
  time : ℤ
  delay : ℤ
  target : Target
deriving DecidableEq, Repr

/-- the second in which the call-out should run -/
def Request.due (r : Request) : ℤ := r.time + max r.delay 1

/-- a ghost: what became of a call-out -/
inductive Event where
  | executed (id : ℕ) (second : ℤ)
  | removed (id : ℕ)
  | dropped (id : ℕ)
deriving DecidableEq, Repr

/-- where the driver is: outside `call_out`, at the head of its outer loop, at the head of its inner loop, or in the
function that the inner loop has called -/
inductive Control where
  | idle
  | sweep
  | drain
  | callback
deriving DecidableEq, Repr

/-- the static data of `call_out.cpp`, the clock, the destructed objects, and the ghosts -/
structure State where
  callList : Fin 32 → List (ℤ × Call)
  callOutTime : ℤ
  currentTime : ℤ
  unique : ℕ
  destructed : List ObjectId
  control : Control
  requests : List Request
  log : List Event

/-- the driver after start-up, when the clock has been read and no call-out made -/
def init (time : ℤ) : State := ⟨fun _ => [], 0, time, 0, [], .idle, [], []⟩

/-- `t & (CALLOUT_CYCLE_SIZE - 1)` -/
def slot (t : ℤ) : Fin 32 := ⟨(t % 32).toNat, by omega⟩

/-- `time_t` arithmetic -/
def wrap64 (t : ℤ) : ℤ := t.bmod (2 ^ 64)

/-- `if (!call_out_time) call_out_time = current_time` -/
def start (s : State) : State := if s.callOutTime = 0 then { s with callOutTime := s.currentTime } else s

/-- `new_call_out`: the new state and the handle -/
def newCallOut (s : State) (target : Target) (delay : ℤ) : State × ℤ :=
  let wait := if delay < 1 then 1 else delay
  let s := start s
  let due := wrap64 (wait + s.currentTime)
  let tm := slot due
  let turns := 1 + (wrap64 (wrap64 (due - s.callOutTime) - 1)).tdiv 32
  let handle := ((tm : ℤ) + 32 * (s.unique + 1)).bmod (2 ^ 32)
  let call := ⟨s.unique, target, handle⟩
  ({ s with
      callList := update s.callList tm (insert turns call (s.callList tm))
      unique := s.unique + 1
      requests := s.requests ++ [⟨s.currentTime, delay, target⟩] }, handle)

/-- `time_left` -/
def timeLeft (s : State) (i : Fin 32) (delay : ℤ) : ℤ :=
  let currentSlot : ℤ := slot s.callOutTime
  if (i : ℤ) > currentSlot then (delay - 1) * 32 + ((i : ℤ) - currentSlot) + s.callOutTime - s.currentTime
  else delay * 32 + ((i : ℤ) - currentSlot) + s.callOutTime - s.currentTime

/-- take the first call-out with property `p` out of a slot: the new state and the time left -/
def removeFrom (s : State) (p : Call → Bool) (i : Fin 32) : Option (State × ℤ) :=
  (removeFirst p 0 (s.callList i)).map fun r =>
    ({ s with callList := update s.callList i r.2.2, log := s.log ++ [.removed r.2.1.id] },
      (timeLeft s i r.1).bmod (2 ^ 32))

/-- `remove_call_out`: the slots are searched in order -/
def removeCallOut (s : State) (ob : ObjectId) (fn : List Byte) : State × ℤ :=
  ((finRange 32).findSome? (removeFrom s fun c => c.target == .method ob fn)).getD (s, -1)

/-- `remove_call_out_by_handle`: only the slot of the handle is searched -/
def removeCallOutByHandle (s : State) (handle : ℤ) : State × ℤ :=
  (removeFrom s (fun c => c.handle == handle) (slot handle)).getD (s, -1)

/-- the call-outs that `remove_all_call_out` takes out: those of the object, and those of destructed objects -/
def ofObject (s : State) (ob : ObjectId) (c : Call) : Bool :=
  match c.target with
  | .method o _ => o == ob || s.destructed.contains o
  | .pointer o => o == ob || s.destructed.contains o

/-- `remove_all_call_out` -/
def removeAllCallOut (s : State) (ob : ObjectId) : State :=
  { s with
    callList := fun i => removeAll (ofObject s ob) 0 (s.callList i)
    log := s.log ++ ((finRange 32).flatMap fun i => (s.callList i).map (·.2)).filterMap fun c =>
      if ofObject s ob c then some (.removed c.id) else none }

/-! ## The sweep -/

/-- `--call_list[tm]->delta` if there is one -/
def decrement : List (ℤ × Call) → List (ℤ × Call)
  | [] => []
  | (d, c) :: l => (d - 1, c) :: l

/-- the slot of the second that the outer loop works on -/
def swept (s : State) : Fin 32 := slot (s.callOutTime + 1)

/-- `call_list[tm] && call_list[tm]->delta == 0`: go on with the inner loop, or with the next second -/
def loopTest (s : State) : State :=
  match s.callList (swept s) with
  | (0, _) :: _ => { s with control := .drain }
  | _ => { s with callOutTime := s.callOutTime + 1, control := .sweep }

/-- a call-out to an object that is gone -/
def isDestructed (s : State) (c : Call) : Bool :=
  match c.target with
  | .method o _ => s.destructed.contains o
  | .pointer _ => false

/-- `call_out` from one place to the next; `none` outside it, or when it reads a call-out that is not there -/
def next (s : State) : Option State :=
  match s.control with
  | .idle => none
  | .sweep =>
    if s.callOutTime < s.currentTime then
      some (loopTest { s with callList := update s.callList (swept s) (decrement (s.callList (swept s))) })
    else some { s with control := .idle }
  | .drain =>
    match s.callList (swept s) with
    | [] => none
    | (_, c) :: l =>
      let s' := { s with callList := update s.callList (swept s) l }
      if isDestructed s c then some (loopTest { s' with log := s.log ++ [.dropped c.id] })
      else some { s' with control := .callback, log := s.log ++ [.executed c.id (s.callOutTime + 1)] }
  | .callback => some (loopTest s)

/-- what the driver can do next: the calls of LPC code, the clock, and `call_out` -/
inductive Act where
  | newCallOut (target : Target) (delay : ℤ)
  | removeCallOut (ob : ObjectId) (fn : List Byte)
  | removeCallOutByHandle (handle : ℤ)
  | removeAllCallOut (ob : ObjectId)
  | destruct (ob : ObjectId)
  | tick (seconds : ℕ)
  | callOut
  | next
deriving DecidableEq, Repr

/-- LPC code runs outside `call_out` and in the functions it calls -/
def runsLpc (s : State) : Bool := s.control == .idle || s.control == .callback

/-- one act; `none` where the driver cannot do it -/
def step (s : State) : Act → Option State
  | .newCallOut target delay => if runsLpc s then some (newCallOut s target delay).1 else none
  | .removeCallOut ob fn => if runsLpc s then some (removeCallOut s ob fn).1 else none
  | .removeCallOutByHandle handle => if runsLpc s then some (removeCallOutByHandle s handle).1 else none
  | .removeAllCallOut ob => if runsLpc s then some (removeAllCallOut s ob) else none
  | .destruct ob => if runsLpc s then some { s with destructed := ob :: s.destructed } else none
  | .tick n => if s.control = .idle then some { s with currentTime := s.currentTime + n } else none
  | .callOut => if s.control = .idle then some { start s with control := .sweep } else none
  | .next => next s

/-- a sequence of acts -/
def run (s : State) : List Act → Option State
  | [] => some s
  | a :: as => (step s a).bind fun s' => run s' as

/-! ## What the wheel means -/

/-- the call-outs of a slot with the number of sweeps of the slot, from now on, up to the one that runs them -/
def entries (s : State) (i : Fin 32) : List (ℤ × Call) := times 0 (s.callList i)

/-- the inner loop is at work on slot `i`, whose first delta has been decremented -/
def Sweeping (s : State) (i : Fin 32) : Prop := (s.control = .drain ∨ s.control = .callback) ∧ i = swept s

instance (s : State) (i : Fin 32) : Decidable (Sweeping s i) := by unfold Sweeping; infer_instance

/-- the next second in which slot `i` will be swept -/
def nextSweep (s : State) (i : Fin 32) : ℤ :=
  if Sweeping s i then s.callOutTime + 33 else s.callOutTime + 1 + ((i : ℤ) - s.callOutTime - 1) % 32

def ids (l : List (ℤ × Call)) : Multiset ℕ := ((l.map Prod.snd).map Call.id : List ℕ)

/-- the call-outs waiting in the wheel -/
def pending (s : State) : Multiset ℕ := ∑ i, ids (s.callList i)

/-- the call-out an event is about -/
def Event.id : Event → ℕ
  | .executed id _ => id
  | .removed id => id
  | .dropped id => id

/-- what holds at every point of a run -/
structure Inv (s : State) : Prop where
  clock : 0 ≤ s.callOutTime ∧ s.callOutTime ≤ s.currentTime ∧ 0 < s.currentTime ∧ s.currentTime < 2 ^ 63
  started : s.callOutTime = 0 → s.control = .idle ∧ ∀ i, s.callList i = []
  behind : s.control = .drain ∨ s.control = .callback → s.callOutTime < s.currentTime
  nonNeg : ∀ i, DeltaList.NonNeg (s.callList i)
  ahead : ∀ i, ¬ Sweeping s i → ∀ e ∈ entries s i, 1 ≤ e.1
  head : s.control = .drain → ∃ c l, s.callList (swept s) = (0, c) :: l
  /-- a call-out waits for exactly the sweep of its second -/
  due : ∀ i, ∀ e ∈ entries s i, ∃ r, s.requests[e.2.id]? = some r ∧ r.target = e.2.target ∧
    r.due = nextSweep s i + 32 * (e.1 - 1)
  handle : ∀ i, ∀ e ∈ entries s i, e.2.handle = i + 32 * (e.2.id + 1)
  /-- every call-out made is waiting, or has one event -/
  account : pending s + (s.log.map Event.id : Multiset ℕ) = Multiset.range s.unique
  count : s.requests.length = s.unique
  executed : ∀ id t, Event.executed id t ∈ s.log → ∃ r, s.requests[id]? = some r ∧ r.due = t
  dropped : ∀ id, Event.dropped id ∈ s.log →
    ∃ r ob fn, s.requests[id]? = some r ∧ r.target = .method ob fn ∧ ob ∈ s.destructed

/-! ## Arithmetic of the wheel -/

theorem slot_val (t : ℤ) : ((slot t : Fin 32) : ℤ) = t % 32 := by
  show ((t % 32).toNat : ℤ) = t % 32
  omega

theorem slot_inj {t u : ℤ} : slot t = slot u ↔ t % 32 = u % 32 := by
  rw [Fin.ext_iff, ← Int.natCast_inj, slot_val, slot_val]

theorem slot_natCast (i : Fin 32) : slot (i : ℤ) = i := by
  rw [Fin.ext_iff, ← Int.natCast_inj, slot_val]
  omega

theorem wrap64_eq {t : ℤ} (h₁ : -2 ^ 63 ≤ t) (h₂ : t < 2 ^ 63) : wrap64 t = t := by
  unfold wrap64
  rw [Int.bmod_eq_of_le] <;> omega

variable {due time : ℤ}

/-- the turns that `new_call_out` computes, when nothing overflows -/
theorem turns_eq (hdue : time < due) (htime : 0 ≤ time) (hmax : due < 2 ^ 63) :
    1 + (wrap64 (wrap64 (wrap64 due - time) - 1)).tdiv 32 = 1 + (due - time - 1) / 32 := by
  rw [wrap64_eq (by omega) hmax, wrap64_eq (t := due - time) (by omega) (by omega),
    wrap64_eq (by omega) (by omega), Int.tdiv_eq_ediv_of_nonneg (by omega)]

/-- outside the slot being swept the turns lead to the sweep of the second -/
theorem nextSweep_turns {s : State} (hs : ¬ Sweeping s (slot due)) :
    nextSweep s (slot due) + 32 * ((due - s.callOutTime - 1) / 32) = due := by
  rw [nextSweep, if_neg hs, slot_val]
  omega

variable {t : State}

/-- moving on to the next second changes the next sweep of no slot: of the one just swept it was counted already -/
theorem nextSweep_advance {s : State} (hc : s.control = .callback) (hc' : t.control = .sweep)
    (ht : t.callOutTime = s.callOutTime + 1) (i : Fin 32) : nextSweep t i = nextSweep s i := by
  have hns : ¬ Sweeping t i := by simp [Sweeping, hc']
  rw [nextSweep, nextSweep]
  split_ifs with h
  · have := slot_val (s.callOutTime + 1)
    rw [h.2, swept]
    omega
  · have hne : i ≠ slot (s.callOutTime + 1) := fun heq => h ⟨.inr hc, heq⟩
    rw [← slot_natCast i, Ne, slot_inj] at hne
    omega

/-- decrementing the slot to be swept passes one sweep of it -/
theorem nextSweep_decrement {s s' : State} (hc : s.control = .sweep) (hc' : s'.control = .callback)
    (ht : s'.callOutTime = s.callOutTime) (i : Fin 32) :
    nextSweep s' i = nextSweep s i + if i = swept s then 32 else 0 := by
  have hns : ¬ Sweeping s i := by simp [Sweeping, hc]
  have hsw : Sweeping s' i ↔ i = swept s := by simp [Sweeping, hc', swept, ht]
  rw [nextSweep, nextSweep, if_neg hns, ht]
  simp only [hsw]
  split_ifs with h
  · have := slot_val (s.callOutTime + 1)
    rw [h, swept]
    omega
  · rw [add_zero]

/-! ## The accounts of the wheel -/

theorem ids_cons (d : ℤ) (c : Call) (l : List (ℤ × Call)) : ids ((d, c) :: l) = c.id ::ₘ ids l := rfl

/-- the call-outs of a slot are those of its entries -/
theorem ids_times (t : ℤ) (l : List (ℤ × Call)) : ids (times t l) = ids l := by
  rw [ids, times_snd, ids]

variable {l : List (ℤ × Call)}

theorem ids_perm {l' : List (ℤ × Call)} (h : l.Perm l') : ids l = ids l' :=
  Multiset.coe_eq_coe.2 ((h.map _).map _)

theorem sum_ids_update (f : Fin 32 → List (ℤ × Call)) (i : Fin 32) (l : List (ℤ × Call)) :
    (∑ j, ids (update f i l j)) + ids (f i) = (∑ j, ids (f j)) + ids l := by
  have hsplit : ∀ g : Fin 32 → List (ℤ × Call),
      ∑ j, ids (g j) = ids (g i) + ∑ j ∈ Finset.univ.erase i, ids (g j) := fun g =>
    (Finset.add_sum_erase _ _ (Finset.mem_univ i)).symm
  have hrest : ∑ j ∈ Finset.univ.erase i, ids (update f i l j) = ∑ j ∈ Finset.univ.erase i, ids (f j) :=
    Finset.sum_congr rfl fun j hj => by rw [update_of_ne (Finset.ne_of_mem_erase hj)]
  rw [hsplit, hsplit f, hrest, update_self]
  abel

variable {s s' : State} {i : Fin 32} {id : ℕ} {r : Request} {c : Call}

/-- what holds of the new list of slot `i`, and of every list there was, holds of every slot -/
theorem forall_slot {P : Fin 32 → List (ℤ × Call) → Prop} {f : Fin 32 → List (ℤ × Call)} (hl : P i l)
    (hf : ∀ j, P j (f j)) (j : Fin 32) : P j (update f i l j) :=
  (Function.forall_update_iff f P).2 ⟨hl, fun j _ => hf j⟩ j

section

variable (hctl : s.control ≠ .drain)
include hctl

/-- call-outs taken out of the wheel, each with its event -/
theorem Inv.shrink (h : Inv s) {cl : Fin 32 → List (ℤ × Call)} (gone : List ℕ)
    (hnn : ∀ i, DeltaList.NonNeg (cl i)) (hsub : ∀ i, ∀ e ∈ times 0 (cl i), e ∈ entries s i)
    (hacc : (∑ i, ids (cl i)) + (gone : Multiset ℕ) = pending s) :
    Inv { s with callList := cl, log := s.log ++ gone.map .removed } where
  clock := h.clock
  started := by
    intro h0
    refine ⟨(h.started h0).1, fun i => ?_⟩
    have hnone : entries s i = [] := by rw [entries, (h.started h0).2 i, times_nil]
    show cl i = []
    cases hl : cl i with
    | nil => rfl
    | cons e l =>
      have := hsub i (0 + e.1, e.2) (by rw [hl]; exact .head _)
      rw [hnone] at this
      cases this
  behind := h.behind
  nonNeg := hnn
  ahead := fun i hs e he => h.ahead i hs e (hsub i e he)
  head := fun hd => absurd hd hctl
  due := fun i e he => h.due i e (hsub i e he)
  handle := fun i e he => h.handle i e (hsub i e he)
  account := by
    have hid : (gone.map Event.removed).map Event.id = gone := by
      rw [List.map_map]; exact List.map_id gone
    show (∑ i, ids (cl i)) + (((s.log ++ gone.map Event.removed).map Event.id : List ℕ) : Multiset ℕ) = _
    rw [List.map_append, hid, ← Multiset.coe_add, ← h.account, ← hacc]
    abel
  count := h.count
  executed := fun id t hm => h.executed id t (by simpa using hm)
  dropped := fun id hm => h.dropped id (by simpa using hm)

/-- taking the first call-out with a property out of a slot -/
theorem Inv.removeFrom (h : Inv s) {p : Call → Bool} {r : State × ℤ} (hr : removeFrom s p i = some r) : Inv r.1 := by
  obtain ⟨⟨u, c, l⟩, hl, rfl⟩ := map_eq_some_iff.1 hr
  obtain ⟨l₁, l₂, hold, hnew, -, -⟩ := times_removeFirst hl
  have hids : ids (s.callList i) = c.id ::ₘ ids l := by
    rw [← ids_times 0 (s.callList i), ← ids_times 0 l, hold, hnew, ids_perm perm_middle, ids_cons]
  refine h.shrink hctl [c.id] (forall_slot (nonNeg_removeFirst (h.nonNeg i) hl) h.nonNeg)
    (forall_slot (P := fun j l => ∀ e ∈ times 0 l, e ∈ entries s j) (fun e he => ?_) fun _ _ he => he) ?_
  · rw [hnew] at he
    rw [entries, hold]
    exact mem_append.2 ((mem_append.1 he).imp_right (mem_cons_of_mem _))
  · have hsum := sum_ids_update s.callList i l
    rw [hids, ← Multiset.singleton_add, ← add_assoc] at hsum
    exact add_right_cancel hsum

theorem Inv.removeCallOut (h : Inv s) (ob : ObjectId) (fn : List Byte) : Inv (removeCallOut s ob fn).1 := by
  rw [CallOut.removeCallOut]
  cases hf : (finRange 32).findSome? (CallOut.removeFrom s fun c => c.target == .method ob fn) with
  | none => exact h
  | some r =>
    obtain ⟨i, -, hr⟩ := exists_of_findSome?_eq_some hf
    exact h.removeFrom hctl hr

theorem Inv.removeCallOutByHandle (h : Inv s) (handle : ℤ) : Inv (removeCallOutByHandle s handle).1 := by
  rw [CallOut.removeCallOutByHandle]
  cases hf : CallOut.removeFrom s (fun c => c.handle == handle) (slot handle) with
  | none => exact h
  | some r => exact h.removeFrom hctl hf

end

/-- the call-outs with a property and those without it -/
theorem ids_removeAll (p : Call → Bool) (l : List (ℤ × Call)) :
    ids (removeAll p 0 l) + (((l.map (·.2)).filter p).map Call.id : Multiset ℕ) = ids l := by
  rw [← ids_times 0, times_removeAll, add_zero]
  have hsplit : ((l.map (·.2)).filter fun c => !p c).Perm (((times 0 l).filter fun e => !p e.2).map Prod.snd) := by
    rw [← times_snd 0 l, List.filter_map]
    rfl
  rw [ids, Multiset.coe_add, ids, Multiset.coe_eq_coe, ← List.map_append]
  refine ((hsplit.symm.append_right _).trans ?_).map _
  exact perm_append_comm.trans (filter_append_perm p _)

theorem Inv.removeAllCallOut (h : Inv s) (hctl : s.control ≠ .drain) (ob : ObjectId) : Inv (removeAllCallOut s ob) := by
  have hlog : ∀ cs : List Call,
      cs.filterMap (fun c => if ofObject s ob c then some (Event.removed c.id) else none) =
        ((cs.filter (ofObject s ob)).map Call.id).map .removed := by
    intro cs
    induction cs with
    | nil => rfl
    | cons c cs ih => by_cases hc : ofObject s ob c = true <;> simp [hc, ih]
  rw [CallOut.removeAllCallOut, hlog]
  refine h.shrink hctl _ (fun i => nonNeg_removeAll le_rfl (h.nonNeg i)) (fun i e he => ?_) ?_
  · rw [times_removeAll, add_zero] at he
    exact (mem_filter.1 he).1
  · have hflat : ∀ f : Fin 32 → List Call, ((((finRange 32).flatMap f).filter (ofObject s ob)).map Call.id : Multiset ℕ) =
        ∑ i, (((f i).filter (ofObject s ob)).map Call.id : Multiset ℕ) := by
      intro f
      rw [filter_flatMap, map_flatMap, ← Multiset.coe_bind]
      rfl
    rw [hflat, ← Finset.sum_add_distrib]
    exact Finset.sum_congr rfl fun i _ => ids_removeAll _ _

/-- reading the clock for the first time -/
theorem Inv.start (h : Inv s) : Inv (start s) ∧ 0 < (start s).callOutTime := by
  rw [CallOut.start]
  split_ifs with h0
  · obtain ⟨hidle, hempty⟩ := h.started h0
    have hnone : ∀ i e, e ∉ entries s i := fun i => by simp [entries, hempty i]
    have hc := h.clock
    refine ⟨⟨⟨hc.2.2.1.le, le_rfl, hc.2.2.1, hc.2.2.2⟩, fun _ => ⟨hidle, hempty⟩, fun hb => ?_, h.nonNeg,
      fun i _ e he => absurd he (hnone i e), fun hd => ?_, fun i e he => absurd he (hnone i e), h.handle, h.account,
      h.count, h.executed, h.dropped⟩, hc.2.2.1⟩
    · rw [hidle] at hb; rcases hb with hb | hb <;> cases hb
    · rw [hidle] at hd; cases hd
  · exact ⟨h, lt_of_le_of_ne h.clock.1 (Ne.symm h0)⟩

theorem start_control (s : State) : (start s).control = s.control := by unfold start; split_ifs <;> rfl
theorem start_currentTime (s : State) : (start s).currentTime = s.currentTime := by unfold start; split_ifs <;> rfl
theorem start_unique (s : State) : (start s).unique = s.unique := by unfold start; split_ifs <;> rfl

theorem request_append {l : List Request} (h : l[id]? = some r) (r' : Request) : (l ++ [r'])[id]? = some r := by
  obtain ⟨hlt, -⟩ := List.getElem?_eq_some_iff.1 h
  rw [List.getElem?_append_left hlt, h]

/-- a call-out put into the slot of its second, as many turns away as there are sweeps up to it -/
theorem Inv.insert (h : Inv s) (hpos : 0 < s.callOutTime) (hctl : s.control ≠ .drain) {turns : ℤ} (hturns : 1 ≤ turns)
    (hid : c.id = s.unique) (htarget : r.target = c.target) (hhandle : c.handle = i + 32 * (c.id + 1))
    (hdue : r.due = nextSweep s i + 32 * (turns - 1)) :
    Inv { s with
      callList := update s.callList i (insert turns c (s.callList i))
      unique := s.unique + 1
      requests := s.requests ++ [r] } := by
  have hperm := times_insert 0 turns c (s.callList i)
  rw [zero_add] at hperm
  set cl := update s.callList i (DeltaList.insert turns c (s.callList i)) with hcl
  -- an entry is the new one, or was there
  have hcases : ∀ j, ∀ e ∈ times 0 (cl j), (j = i ∧ e = (turns, c)) ∨ e ∈ entries s j :=
    forall_slot (P := fun j l => ∀ e ∈ times 0 l, (j = i ∧ e = (turns, c)) ∨ e ∈ entries s j)
      (fun e he => (mem_cons.1 (hperm.mem_iff.1 he)).imp_left fun heq => ⟨rfl, heq⟩) fun _ _ he => .inr he
  refine ⟨h.clock, fun h0 => absurd h0 hpos.ne', h.behind,
    forall_slot (nonNeg_insert (by omega) _ (h.nonNeg _)) h.nonNeg, fun j hs e he => ?_,
    fun hd => absurd hd hctl, fun j e he => ?_, fun j e he => ?_, ?_, ?_, fun id u hm => ?_, fun id hm => ?_⟩
  · rcases hcases j e he with ⟨-, rfl⟩ | he
    · exact hturns
    · exact h.ahead j hs e he
  · rcases hcases j e he with ⟨rfl, rfl⟩ | he
    · refine ⟨r, ?_, htarget, hdue⟩
      rw [hid, ← h.count, getElem?_append_right le_rfl, Nat.sub_self]
      rfl
    · obtain ⟨x, hx, htgt, hxdue⟩ := h.due j e he
      exact ⟨x, request_append hx r, htgt, hxdue⟩
  · rcases hcases j e he with ⟨rfl, rfl⟩ | he
    · exact hhandle
    · exact h.handle j e he
  · have hsum : (∑ j, ids (cl j)) + ids (s.callList i) = _ := sum_ids_update s.callList i _
    have hins : ids (DeltaList.insert turns c (s.callList i)) = s.unique ::ₘ ids (s.callList i) := by
      rw [← ids_times 0, ids_perm hperm, ids_cons, ids_times, hid]
    rw [hins, ← Multiset.singleton_add, ← add_assoc] at hsum
    show (∑ j, ids (cl j)) + _ = Multiset.range (s.unique + 1)
    rw [add_right_cancel hsum, Multiset.range_succ, ← h.account, ← Multiset.singleton_add]
    show pending s + {s.unique} + _ = _
    abel
  · rw [length_append, h.count]
    rfl
  · obtain ⟨x, hx, hu⟩ := h.executed id u hm
    exact ⟨x, request_append hx r, hu⟩
  · obtain ⟨x, ob, fn, hx, htgt, hob⟩ := h.dropped id hm
    exact ⟨x, ob, fn, request_append hx r, htgt, hob⟩

/-- `new_call_out`, unless the slot of the call-out is the one being swept -/
theorem Inv.newCallOut (h : Inv s) (hctl : s.control ≠ .drain) (target : Target) {delay : ℤ}
    (hover : max delay 1 + s.currentTime < 2 ^ 63) (huniq : s.unique + 1 < 2 ^ 26)
    (hslot : ¬ Sweeping (CallOut.start s) (slot (max delay 1 + s.currentTime))) : Inv (newCallOut s target delay).1 := by
  obtain ⟨hst, hpos⟩ := h.start
  rw [CallOut.newCallOut]
  rw [← start_currentTime s] at hover hslot
  rw [← start_unique s] at huniq
  rw [← start_control s] at hctl
  generalize CallOut.start s = t at *
  have hclock := hst.clock
  have hlate : t.callOutTime < max delay 1 + t.currentTime := by omega
  rw [← max_def_lt]
  dsimp only
  rw [turns_eq hlate hpos.le hover, wrap64_eq (by omega) hover]
  have hexact : nextSweep t (slot (max delay 1 + t.currentTime)) +
      32 * ((max delay 1 + t.currentTime - t.callOutTime - 1) / 32) = max delay 1 + t.currentTime :=
    nextSweep_turns hslot
  refine hst.insert hpos hctl (by omega) rfl rfl ?_ ?_
  · have := (slot (max delay 1 + t.currentTime)).isLt
    dsimp only
    rw [Int.bmod_eq_of_le] <;> omega
  · show t.currentTime + max delay 1 = _
    rw [add_sub_cancel_left, hexact, add_comm]

/-! ## The sweep keeps the invariant -/

theorem times_decrement (l : List (ℤ × Call)) : times 0 (decrement l) = (times 0 l).map fun e => (e.1 - 1, e.2) := by
  cases l with
  | nil => rfl
  | cons x l =>
    rw [decrement, times_cons, times_cons, map_cons]
    have := times_add (0 + x.1) (-1) l
    rw [show 0 + (x.1 - 1) = 0 + x.1 + -1 by ring, this]
    rfl

theorem ids_decrement (l : List (ℤ × Call)) : ids (decrement l) = ids l := by cases l <;> rfl

section

variable (h : Inv s)
include h

/-- the clock has been read before `call_out` comes to work -/
theorem Inv.started_of_ne (hc : s.control ≠ .idle) {P : Prop} (h0 : s.callOutTime = 0) : P :=
  absurd (h.started h0).1 hc

/-- the decrement at the start of a second, taken as the start of the inner loop -/
theorem Inv.decrement (hc : s.control = .sweep) (ht : s.callOutTime < s.currentTime) : Inv { s with
      callList := update s.callList (swept s) (CallOut.decrement (s.callList (swept s)))
      control := .callback } := by
  set s' : State := { s with
      callList := update s.callList (swept s) (CallOut.decrement (s.callList (swept s)))
      control := .callback } with hs'
  have hns : ∀ i, ¬ Sweeping s i := fun i => by simp [Sweeping, hc]
  have hsw : ∀ i, Sweeping s' i ↔ i = swept s := fun i => by simp [Sweeping, hs', swept]
  have hother : ∀ i, i ≠ swept s → s'.callList i = s.callList i := fun i hi => update_of_ne hi ..
  have hnext : ∀ i, nextSweep s' i = nextSweep s i + if i = swept s then 32 else 0 := nextSweep_decrement hc rfl rfl
  -- an entry has one turn less in the slot that is swept
  have hcases : ∀ i, ∀ e ∈ entries s' i, ∃ e' ∈ entries s i, e'.2 = e.2 ∧ e'.1 = e.1 + if i = swept s then 1 else 0 := by
    intro i e he
    by_cases hi : i = swept s
    · subst hi
      rw [entries, show s'.callList (swept s) = _ from update_self .., times_decrement] at he
      obtain ⟨e', he', rfl⟩ := mem_map.1 he
      exact ⟨e', he', rfl, by simp⟩
    · rw [entries, hother i hi] at he
      exact ⟨e, he, rfl, by simp [hi]⟩
  refine ⟨h.clock, h.started_of_ne (by simp [hc]), fun _ => ht, forall_slot ?_ h.nonNeg, fun i hi e he => ?_, nofun,
    fun i e he => ?_, fun i e he => ?_, ?_, h.count, h.executed, h.dropped⟩
  · have hnn := h.nonNeg (swept s)
    have hahead := h.ahead (swept s) (hns _)
    rw [entries] at hahead
    cases hl : s.callList (swept s) with
    | nil => exact nonNeg_nil
    | cons x l =>
      rw [hl] at hnn hahead
      have hx : 1 ≤ 0 + x.1 := hahead (0 + x.1, x.2) (.head _)
      exact nonNeg_cons.2 ⟨by omega, (nonNeg_cons.1 hnn).2⟩
  · rw [hsw] at hi
    obtain ⟨e', he', -, heq⟩ := hcases i e he
    rw [if_neg hi, add_zero] at heq
    rw [← heq]
    exact h.ahead i (hns i) e' he'
  · obtain ⟨e', he', hcall, heq⟩ := hcases i e he
    obtain ⟨r, hr, htgt, hdue⟩ := h.due i e' he'
    rw [hcall] at hr htgt
    refine ⟨r, hr, htgt, ?_⟩
    rw [hdue, hnext, heq]
    split_ifs <;> ring
  · obtain ⟨e', he', hcall, -⟩ := hcases i e he
    rw [← hcall]
    exact h.handle i e' he'
  · have hsum : (∑ j, ids (s'.callList j)) + ids (s.callList (swept s)) = _ := sum_ids_update s.callList (swept s) _
    rw [ids_decrement] at hsum
    show (∑ j, ids (s'.callList j)) + _ = _
    rw [add_right_cancel hsum]
    exact h.account

/-- after the last call-out of a second -/
theorem Inv.advance (hc : s.control = .callback) (hlate : ∀ e ∈ entries s (swept s), 1 ≤ e.1) :
    Inv { s with callOutTime := s.callOutTime + 1, control := .sweep } := by
  have hclock := h.clock
  have hbehind := h.behind (.inr hc)
  have hnext := nextSweep_advance (t := { s with callOutTime := s.callOutTime + 1, control := .sweep }) hc rfl rfl
  refine ⟨⟨by dsimp only; omega, by dsimp only; omega, hclock.2.2.1, hclock.2.2.2⟩, fun h0 => ?_, fun hb => ?_, h.nonNeg,
    fun i _ e he => ?_, nofun, fun i e he => ?_, h.handle, h.account, h.count, h.executed, h.dropped⟩
  · dsimp only at h0
    omega
  · rcases hb with hb | hb <;> cases hb
  · by_cases hi : Sweeping s i
    · exact hlate e (hi.2 ▸ he)
    · exact h.ahead i hi e he
  · rw [hnext]
    exact h.due i e he

theorem Inv.loopTest (hc : s.control = .callback) : Inv (loopTest s) := by
  rw [CallOut.loopTest.eq_def]
  have hcase : ∀ l, s.callList (swept s) = l → (∀ c l', l ≠ (0, c) :: l') → ∀ e ∈ entries s (swept s), 1 ≤ e.1 := by
    intro l hl hne e he
    have hnn := h.nonNeg (swept s)
    rw [entries, hl] at he
    rw [hl] at hnn
    cases l with
    | nil => cases he
    | cons x l =>
      obtain ⟨d, c⟩ := x
      obtain ⟨hd, hl'⟩ := nonNeg_cons.1 hnn
      have hd1 : 1 ≤ d := by
        rcases eq_or_ne d 0 with rfl | hd0
        · exact absurd rfl (hne c l)
        · omega
      rcases mem_cons.1 he with rfl | he
      · show 1 ≤ 0 + d
        omega
      · have := le_of_mem_times hl' he
        omega
  split
  · next c l heq =>
    refine ⟨h.clock, h.started_of_ne (by simp [hc]), fun _ => h.behind (.inr hc), h.nonNeg,
      fun i hi => h.ahead i fun hs => hi ⟨.inl rfl, hs.2⟩, fun _ => ⟨c, l, heq⟩, fun i e he => ?_, h.handle, h.account,
      h.count, h.executed, h.dropped⟩
    obtain ⟨r, hr, htgt, hdue⟩ := h.due i e he
    refine ⟨r, hr, htgt, ?_⟩
    rw [hdue]
    simp [nextSweep, Sweeping, hc, swept]
  · next hne => exact h.advance hc (hcase _ rfl fun c l' heq => hne c l' heq)

/-- the inner loop takes its first call-out, in the second in which it is due -/
theorem Inv.pop (hc : s.control = .drain) (hl : s.callList (swept s) = (0, c) :: l) (ev : Event)
    (hid : ev.id = c.id) (hex : ∀ id t, ev = .executed id t → t = s.callOutTime + 1)
    (hdrop : ∀ id, ev = .dropped id → isDestructed s c = true) :
    Inv { s with
      callList := update s.callList (swept s) l
      control := .callback
      log := s.log ++ [ev] } := by
  set s' : State := { s with
      callList := update s.callList (swept s) l
      control := .callback
      log := s.log ++ [ev] } with hs'
  have hsw : ∀ i, Sweeping s' i ↔ Sweeping s i := fun i => by simp [Sweeping, hs', swept, hc]
  have hnext : ∀ i, nextSweep s' i = nextSweep s i := fun i => by
    unfold nextSweep
    exact if_congr (hsw i) rfl rfl
  have hhead : entries s (swept s) = (0, c) :: times 0 l := by rw [entries, hl]; rfl
  have hsub : ∀ i, ∀ e ∈ entries s' i, e ∈ entries s i :=
    forall_slot (P := fun i l => ∀ e ∈ times 0 l, e ∈ entries s i)
      (fun e he => hhead ▸ .tail _ he) fun _ _ he => he
  obtain ⟨r, hr, htgt, hdue⟩ := h.due (swept s) (0, c) (by rw [hhead]; exact .head _)
  have hnow : r.due = s.callOutTime + 1 := by
    rw [hdue, nextSweep, if_pos ⟨.inl hc, rfl⟩]
    ring
  refine ⟨h.clock, h.started_of_ne (by simp [hc]), fun _ => h.behind (.inl hc), forall_slot ?_ h.nonNeg,
    fun i hi e he => h.ahead i (fun hs => hi ((hsw i).2 hs)) e (hsub i e he), nofun, fun i e he => ?_,
    fun i e he => h.handle i e (hsub i e he), ?_, h.count, fun id t hm => ?_, fun id hm => ?_⟩
  · have hnn := h.nonNeg (swept s)
    rw [hl] at hnn
    exact (nonNeg_cons.1 hnn).2
  · rw [hnext]
    exact h.due i e (hsub i e he)
  · have hsum : (∑ j, ids (s'.callList j)) + ids (s.callList (swept s)) = _ := sum_ids_update s.callList (swept s) l
    rw [hl, ids_cons, ← Multiset.singleton_add, ← add_assoc] at hsum
    have hone : (∑ j, ids (s'.callList j)) + {c.id} = pending s := add_right_cancel hsum
    show (∑ j, ids (s'.callList j)) + (((s.log ++ [ev]).map Event.id : List ℕ) : Multiset ℕ) = Multiset.range s.unique
    rw [map_append, ← Multiset.coe_add, ← h.account, ← hone, map_singleton, hid, Multiset.coe_singleton]
    abel
  · rcases mem_append.1 hm with hm | hm
    · exact h.executed id t hm
    · have hev := mem_singleton.1 hm
      have hidc : id = c.id := by rw [← hid, ← hev]; rfl
      exact ⟨r, hidc ▸ hr, by rw [hnow, hex id t hev.symm]⟩
  · rcases mem_append.1 hm with hm | hm
    · exact h.dropped id hm
    · have hev := mem_singleton.1 hm
      have hidc : id = c.id := by rw [← hid, ← hev]; rfl
      have hgone := hdrop id hev.symm
      rw [isDestructed] at hgone
      cases htc : c.target with
      | pointer o => rw [htc] at hgone; cases hgone
      | method ob fn =>
        rw [htc] at hgone
        exact ⟨r, ob, fn, hidc ▸ hr, by rw [htgt, ← htc], by simpa using hgone⟩

/-- outside the slot being swept, `time_left` is the time to the second in which the call-out is due -/
theorem Inv.timeLeft_eq (hs : ¬ Sweeping s i) {e : ℤ × Call} (he : e ∈ entries s i) :
    ∃ r, s.requests[e.2.id]? = some r ∧ timeLeft s i e.1 = r.due - s.currentTime := by
  obtain ⟨r, hr, -, hdue⟩ := h.due i e he
  refine ⟨r, hr, ?_⟩
  rw [hdue, nextSweep, if_neg hs, timeLeft, slot_val]
  split_ifs with hlt
  all_goals omega

/-! ## Runs -/

/-- the condition on a step: a new call-out does not overflow the clock or the handles, and made by a function that
`call_out` has called it does not fall into the slot being swept; the clock does not overflow -/
def StepOk (s : State) : Act → Prop
  | .newCallOut _ delay =>
    max delay 1 + s.currentTime < 2 ^ 63 ∧ s.unique + 1 < 2 ^ 26 ∧
      (s.control = .callback → slot (max delay 1 + s.currentTime) ≠ slot (s.callOutTime + 1))
  | .tick n => s.currentTime + n < 2 ^ 63
  | _ => True

/-- every step of the run meets the condition -/
def RunOk : State → List Act → Prop
  | _, [] => True
  | s, a :: as => StepOk s a ∧ ∀ s', step s a = some s' → RunOk s' as

instance (s : State) (a : Act) : Decidable (StepOk s a) := by
  cases a <;> unfold StepOk <;> infer_instance

instance decidableRunOk : (s : State) → (as : List Act) → Decidable (RunOk s as)
  | _, [] => isTrue trivial
  | s, a :: as =>
    match hs : step s a with
    | none => decidable_of_iff (StepOk s a) ⟨fun h => ⟨h, fun s' hs' => by rw [hs] at hs'; cases hs'⟩, fun h => h.1⟩
    | some t =>
      have := decidableRunOk t as
      decidable_of_iff (StepOk s a ∧ RunOk t as)
        ⟨fun h => ⟨h.1, fun s' hs' => by rw [hs] at hs'; cases hs'; exact h.2⟩, fun h => ⟨h.1, h.2 t hs⟩⟩

/-- entering and leaving `call_out` -/
theorem Inv.setControl (hc : s.control = .idle ∨ s.control = .sweep) {c : Control}
    (hc' : c = .idle ∨ c = .sweep) (hstart : c = .sweep → s.callOutTime ≠ 0) : Inv { s with control := c } := by
  have hns : ∀ i, ¬ Sweeping s i := fun i => by rcases hc with hc | hc <;> simp [Sweeping, hc]
  have hns' : ∀ i, ¬ Sweeping { s with control := c } i := fun i => by rcases hc' with rfl | rfl <;> simp [Sweeping]
  refine ⟨h.clock, fun h0 => ⟨?_, (h.started h0).2⟩, fun hb => ?_, h.nonNeg, fun i _ => h.ahead i (hns i), fun hd => ?_,
    fun i e he => ?_, h.handle, h.account, h.count, h.executed, h.dropped⟩
  · exact hc'.resolve_right fun hsweep => hstart hsweep h0
  · rcases hc' with rfl | rfl <;> rcases hb with hb | hb <;> cases hb
  · rcases hc' with rfl | rfl <;> cases hd
  · obtain ⟨r, hr, htgt, hdue⟩ := h.due i e he
    refine ⟨r, hr, htgt, ?_⟩
    rw [hdue, nextSweep, nextSweep, if_neg (hns i), if_neg (hns' i)]

theorem Inv.next (hs : next s = some s') : Inv s' := by
  rw [CallOut.next.eq_def] at hs
  cases hc : s.control with
  | idle => rw [hc] at hs; cases hs
  | sweep =>
    simp only [hc] at hs
    split_ifs at hs with ht
    · cases hs
      exact (h.decrement hc ht).loopTest rfl
    · cases hs
      exact h.setControl (.inr hc) (.inl rfl) nofun
  | drain =>
    obtain ⟨c, l, hl⟩ := h.head hc
    simp only [hc, hl] at hs
    split_ifs at hs with hd
    · cases hs
      exact (h.pop hc hl (.dropped c.id) rfl nofun fun _ _ => hd).loopTest rfl
    · cases hs
      exact h.pop hc hl (.executed c.id (s.callOutTime + 1)) rfl (by rintro _ _ ⟨⟩; rfl) nofun
  | callback =>
    rw [hc] at hs
    cases hs
    exact h.loopTest hc

end

theorem runsLpc_iff {s : State} : runsLpc s = true ↔ s.control = .idle ∨ s.control = .callback := by
  simp [runsLpc]

theorem Inv.step (h : Inv s) {a : Act} (hok : StepOk s a) (hs : step s a = some s') : Inv s' := by
  have hlpc : runsLpc s = true → s.control ≠ .drain := by
    intro hr
    rcases runsLpc_iff.1 hr with hc | hc <;> simp [hc]
  cases a with
  | newCallOut target delay =>
    obtain ⟨hover, huniq, hslot⟩ := hok
    obtain ⟨hr, ⟨⟩⟩ := ite_none_right_eq_some.1 hs
    refine h.newCallOut (hlpc hr) target hover huniq fun hsw => ?_
    rcases runsLpc_iff.1 hr with hc | hc
    · rcases hsw.1 with hb | hb <;> rw [start_control, hc] at hb <;> cases hb
    · -- in a function called by `call_out` the clock has been read before
      have hstart : CallOut.start s = s := by
        rw [CallOut.start, if_neg fun h0 => by have := (h.started h0).1; rw [hc] at this; cases this]
      have := hsw.2
      rw [hstart] at this
      exact hslot hc this
  | removeCallOut ob fn =>
    obtain ⟨hr, ⟨⟩⟩ := ite_none_right_eq_some.1 hs
    exact h.removeCallOut (hlpc hr) ob fn
  | removeCallOutByHandle handle =>
    obtain ⟨hr, ⟨⟩⟩ := ite_none_right_eq_some.1 hs
    exact h.removeCallOutByHandle (hlpc hr) handle
  | removeAllCallOut ob =>
    obtain ⟨hr, ⟨⟩⟩ := ite_none_right_eq_some.1 hs
    exact h.removeAllCallOut (hlpc hr) ob
  | destruct ob =>
    obtain ⟨hr, ⟨⟩⟩ := ite_none_right_eq_some.1 hs
    refine { h with dropped := fun id hm => ?_ }
    obtain ⟨r, o, fn, hr', htgt, ho⟩ := h.dropped id hm
    exact ⟨r, o, fn, hr', htgt, .tail _ ho⟩
  | tick n =>
    obtain ⟨hc, ⟨⟩⟩ := ite_none_right_eq_some.1 hs
    have hclock := h.clock
    refine { h with clock := ⟨hclock.1, by dsimp only; omega, by dsimp only; omega, hok⟩, behind := fun hb => ?_ }
    rcases hb with hb | hb <;> rw [hc] at hb <;> cases hb
  | callOut =>
    obtain ⟨hc, ⟨⟩⟩ := ite_none_right_eq_some.1 hs
    obtain ⟨hst, hpos⟩ := h.start
    have hidle : (CallOut.start s).control = .idle := by rw [start_control, hc]
    exact hst.setControl (.inl hidle) (.inr rfl) fun _ => hpos.ne'
  | next => exact h.next hs

theorem inv_init (h₀ : 0 < time) (h₁ : time < 2 ^ 63) : Inv (init time) where
  clock := ⟨le_rfl, h₀.le, h₀, h₁⟩
  started := fun _ => ⟨rfl, fun _ => rfl⟩
  behind := by rintro (hb | hb) <;> cases hb
  nonNeg := fun _ => nonNeg_nil
  ahead := nofun
  head := nofun
  due := nofun
  handle := nofun
  account := by
    show (∑ _i : Fin 32, ids []) + _ = _
    rfl
  count := rfl
  executed := nofun
  dropped := nofun

theorem Inv.run (h : Inv s) {as : List Act} (hok : RunOk s as) (hr : run s as = some s') : Inv s' := by
  induction as generalizing s with
  | nil => cases hr; exact h
  | cons a as ih =>
    rw [CallOut.run] at hr
    obtain ⟨t, ht, hr⟩ := bind_eq_some_iff.1 hr
    exact ih (h.step hok.1 ht) (hok.2 t ht) hr

/-! ## Timing -/

/-- the seconds in whose sweeps a call-out has been executed -/
def executions (s : State) (id : ℕ) : List ℤ :=
  s.log.filterMap fun
    | .executed i t => if i = id then some t else none
    | _ => none

/-- the promise: a call-out runs at most once and only in its second, never if it was removed, and once its second has
been swept it has run, unless it was removed or its object destructed; and no two waiting call-outs share a handle -/
structure Timely (s : State) : Prop where
  once : ∀ (id : ℕ) (r : Request), s.requests[id]? = some r → executions s id = [] ∨ executions s id = [r.due]
  removed : ∀ id, Event.removed id ∈ s.log → executions s id = []
  onTime : ∀ (id : ℕ) (r : Request), s.requests[id]? = some r → Event.removed id ∉ s.log → Event.dropped id ∉ s.log →
    r.due ≤ s.callOutTime → executions s id = [r.due]
  dropped : ∀ id, Event.dropped id ∈ s.log →
    ∃ r ob fn, s.requests[id]? = some r ∧ r.target = .method ob fn ∧ ob ∈ s.destructed
  handles : ∀ i j, ∀ e ∈ entries s i, ∀ e' ∈ entries s j, e.2.handle = e'.2.handle → e.2.id = e'.2.id

/-- the seconds of an event that is an execution -/
def Event.seconds : Event → List ℤ
  | .executed _ t => [t]
  | _ => []

theorem executions_eq_nil {l : List Event} (h : id ∉ l.map Event.id) :
    (l.filterMap fun | .executed i t => if i = id then some t else none | _ => none) = [] := by
  refine filterMap_eq_nil_iff.2 fun x hx => ?_
  cases x with
  | executed i t => exact if_neg fun heq => h (mem_map.2 ⟨_, hx, heq⟩)
  | removed i | dropped i => rfl

/-- with one event for each call-out, the event says all -/
theorem executions_of_mem {ev : Event} (hn : (s.log.map Event.id).Nodup) (hm : ev ∈ s.log) :
    executions s ev.id = ev.seconds := by
  obtain ⟨l₁, l₂, hl⟩ := append_of_mem hm
  rw [hl, map_append, map_cons, nodup_middle, nodup_cons] at hn
  have hnot := hn.1
  rw [mem_append, not_or] at hnot
  rw [executions, hl, filterMap_append, executions_eq_nil hnot.1, nil_append, filterMap_cons, executions_eq_nil hnot.2]
  cases ev with
  | executed i t => simp [Event.id, Event.seconds]
  | removed i | dropped i => rfl

theorem Inv.nodup_log (h : Inv s) : (s.log.map Event.id).Nodup := by
  have hle : ((s.log.map Event.id : List ℕ) : Multiset ℕ) ≤ Multiset.range s.unique := by
    rw [← h.account]
    exact Multiset.le_add_left _ _
  exact Multiset.coe_nodup.1 (Multiset.nodup_of_le hle (Multiset.nodup_range _))

/-- what waits is due later -/
theorem Inv.late (h : Inv s) (hp : id ∈ pending s) (hr : s.requests[id]? = some r) : s.callOutTime < r.due := by
  obtain ⟨i, -, hi⟩ := Multiset.mem_sum.1 hp
  rw [← ids_times 0, ids, List.map_map] at hi
  obtain ⟨e, he, rfl⟩ := List.mem_map.1 (Multiset.mem_coe.1 hi)
  obtain ⟨r', hr', -, hdue⟩ := h.due i e he
  rw [Function.comp, hr'] at hr
  cases hr
  rw [hdue, nextSweep]
  have h0 : 0 ≤ e.1 := le_of_mem_times (h.nonNeg i) he
  split_ifs with hs
  · omega
  · have := h.ahead i hs e he
    omega

theorem Inv.executions_eq (h : Inv s) {t : ℤ} (hev : Event.executed id t ∈ s.log) (hr : s.requests[id]? = some r) :
    executions s id = [r.due] := by
  obtain ⟨r', hr', rfl⟩ := h.executed id t hev
  cases hr.symm.trans hr'
  exact executions_of_mem h.nodup_log hev

theorem Inv.timely (h : Inv s) : Timely s where
  once := by
    intro id r hr
    by_cases hm : id ∈ s.log.map Event.id
    · obtain ⟨ev, hev, rfl⟩ := mem_map.1 hm
      cases ev with
      | executed i t => exact .inr (h.executions_eq hev hr)
      | removed i | dropped i => exact .inl (executions_of_mem h.nodup_log hev)
    · exact .inl (executions_eq_nil hm)
  removed := fun id hm => executions_of_mem h.nodup_log hm
  onTime := by
    intro id r hr hrem hdrop hdue
    have hlt : id < s.unique := h.count ▸ (List.getElem?_eq_some_iff.1 hr).1
    have hmem : id ∈ pending s + (s.log.map Event.id : Multiset ℕ) := by
      rw [h.account]
      exact Multiset.mem_range.2 hlt
    rcases Multiset.mem_add.1 hmem with hp | hl
    · exact absurd hdue (not_le.2 (h.late hp hr))
    · obtain ⟨ev, hev, rfl⟩ := mem_map.1 (Multiset.mem_coe.1 hl)
      cases ev with
      | executed i t => exact h.executions_eq hev hr
      | removed i => exact absurd hev hrem
      | dropped i => exact absurd hev hdrop
  dropped := h.dropped
  handles := by
    intro i j e he e' he' heq
    rw [h.handle i e he, h.handle j e' he'] at heq
    omega

/-! ## The sweep ends -/

/-- `call_out` goes on from `s` to `s'`, with functions that return at once -/
def GoesOn (s s' : State) : Prop := ∃ k, run s (replicate k .next) = some s'

theorem GoesOn.refl (s : State) : GoesOn s s := ⟨0, rfl⟩

theorem GoesOn.head (hs : CallOut.next s = some t) (ht : GoesOn t s') : GoesOn s s' := by
  obtain ⟨k, hk⟩ := ht
  refine ⟨k + 1, ?_⟩
  rw [replicate_succ, run, step, hs]
  exact hk

theorem run_append (s : State) (as bs : List Act) : run s (as ++ bs) = (run s as).bind fun t => run t bs := by
  induction as generalizing s with
  | nil => rfl
  | cons a as ih =>
    rw [cons_append, run, run, bind_assoc]
    exact congrArg _ (funext ih)

theorem GoesOn.trans (hs : GoesOn s t) (ht : GoesOn t s') : GoesOn s s' := by
  obtain ⟨k, hk⟩ := hs
  obtain ⟨m, hm⟩ := ht
  refine ⟨k + m, ?_⟩
  rw [replicate_add, run_append, hk]
  exact hm

/-- the test of the inner loop: back to its head with the same call-outs, or on to the next second -/
theorem loopTest_cases (s : State) : loopTest s = { s with control := .drain } ∨
      loopTest s = { s with callOutTime := s.callOutTime + 1, control := .sweep } := by
  rw [loopTest.eq_def]
  split
  · exact .inl rfl
  · exact .inr rfl

/-- the inner loop takes a call-out and deals with it -/
theorem Inv.round (h : Inv s) (hc : s.control = .drain) :
    ∃ t, Inv t ∧ GoesOn s (CallOut.loopTest t) ∧ t.control = .callback ∧ t.callOutTime = s.callOutTime ∧
      t.currentTime = s.currentTime ∧ (t.callList (swept t)).length < (s.callList (swept s)).length := by
  obtain ⟨c, l, hl⟩ := h.head hc
  have hupd : (update s.callList (swept s) l (swept s)).length < (s.callList (swept s)).length := by
    rw [update_self, hl]
    exact lt_add_one _
  have hnext := CallOut.next.eq_def s
  simp only [hc, hl] at hnext
  by_cases hd : isDestructed s c = true
  · rw [if_pos hd] at hnext
    exact ⟨_, h.pop hc hl (.dropped c.id) rfl nofun fun _ _ => hd, .head hnext (.refl _), rfl, rfl, rfl, hupd⟩
  · rw [if_neg hd] at hnext
    exact ⟨_, h.pop hc hl (.executed c.id (s.callOutTime + 1)) rfl (by rintro _ _ ⟨⟩; rfl) nofun,
      .head hnext (.head rfl (.refl _)), rfl, rfl, rfl, hupd⟩

/-- so it comes to the next second -/
theorem Inv.finishes_callback (h : Inv s) (hc : s.control = .callback) :
    ∃ s', GoesOn (CallOut.loopTest s) s' ∧ s'.control = .sweep ∧ s'.callOutTime = s.callOutTime + 1 ∧
      s'.currentTime = s.currentTime := by
  induction hn : (s.callList (swept s)).length using Nat.strong_induction_on generalizing s with
  | _ n ih =>
    rcases loopTest_cases s with heq | heq
    · have hinv := h.loopTest hc
      rw [heq] at hinv ⊢
      obtain ⟨t, ht, hgo, htc, htime, hcur, hlt⟩ := hinv.round rfl
      obtain ⟨s', hgo', hs', htime', hcur'⟩ := ih _ (hn ▸ hlt) ht htc rfl
      exact ⟨s', hgo.trans hgo', hs', htime'.trans (by rw [htime]), hcur'.trans hcur⟩
    · rw [heq]
      exact ⟨_, .refl _, rfl, rfl, rfl⟩

theorem GoesOn.inv (hgo : GoesOn s s') (h : Inv s) : Inv s' := by
  obtain ⟨k, hk⟩ := hgo
  refine h.run ?_ hk
  clear hk h
  induction k generalizing s with
  | zero => trivial
  | succ k ih => exact ⟨trivial, fun t _ => ih⟩

/-- the outer loop comes to the present -/
theorem Inv.sweeps (h : Inv s) (hc : s.control = .sweep) :
    ∃ s', GoesOn s s' ∧ s'.control = .idle ∧ s'.callOutTime = s.currentTime := by
  induction hn : (s.currentTime - s.callOutTime).toNat generalizing s with
  | zero =>
    have hclock := h.clock
    refine ⟨{ s with control := .idle }, .head ?_ (.refl _), rfl, by dsimp only; omega⟩
    rw [CallOut.next.eq_def, hc]
    rw [if_neg (by omega)]
  | succ n ih =>
    have hlt : s.callOutTime < s.currentTime := by omega
    have hdec := h.decrement hc hlt
    obtain ⟨t, hgo, htc, htime, hcur⟩ := hdec.finishes_callback rfl
    dsimp only at htime hcur
    have hstep : GoesOn s t := by
      refine .head ?_ hgo
      rw [CallOut.next.eq_def, hc]
      dsimp only
      rw [if_pos hlt]
      rfl
    obtain ⟨s', hgo', hidle, hnow⟩ := ih (hstep.inv h) htc (by omega)
    exact ⟨s', hstep.trans hgo', hidle, hnow.trans hcur⟩

theorem Inv.finishes (h : Inv s) (hc : s.control ≠ .idle) :
    ∃ s', GoesOn s s' ∧ s'.control = .idle ∧ s'.callOutTime = s.currentTime := by
  have hsweep : ∀ t, GoesOn s t → t.control = .sweep → t.currentTime = s.currentTime →
      ∃ s', GoesOn s s' ∧ s'.control = .idle ∧ s'.callOutTime = s.currentTime := by
    intro t hgo htc hcur
    obtain ⟨s', hgo', hidle, hnow⟩ := (hgo.inv h).sweeps htc
    exact ⟨s', hgo.trans hgo', hidle, hnow.trans hcur⟩
  cases hs : s.control with
  | idle => exact absurd hs hc
  | sweep => exact hsweep s (.refl s) hs rfl
  | drain =>
    obtain ⟨u, hu, hgo, huc, -, hcur⟩ := h.round hs
    obtain ⟨t, hgo', htc, -, hcur'⟩ := hu.finishes_callback huc
    exact hsweep t (hgo.trans hgo') htc (hcur'.trans hcur.1)
  | callback =>
    obtain ⟨t, hgo, htc, -, hcur⟩ := h.finishes_callback hs
    exact hsweep t (.head (by rw [CallOut.next.eq_def, hs]) hgo) htc hcur

/-- **Call-out timing.** In every run whose steps meet the condition each call-out is executed at most once and only in
the sweep of its second, never after it was removed, and has been executed once that second is swept, unless it was
removed or its object destructed; and a sweep that has begun comes to the present. -/
theorem callOut_timely (time : ℤ) (h₀ : 0 < time) (h₁ : time < 2 ^ 63) (as : List Act) (s : State)
    (hok : RunOk (init time) as) (hrun : run (init time) as = some s) :
    Timely s ∧ (s.control ≠ .idle → ∃ s', GoesOn s s' ∧ s'.control = .idle ∧ s'.callOutTime = s.currentTime) :=
  have hinv := (inv_init h₀ h₁).run hok hrun
  ⟨hinv.timely, hinv.finishes⟩

/-- a function that `call_out` calls asks for itself again, five seconds later -/
def again : List Act :=
  [.newCallOut (.pointer 0) 1, .tick 1, .callOut, .next, .next, .newCallOut (.pointer 0) 5, .next, .next, .tick 5,
    .callOut] ++ replicate 8 .next

theorem again_timely :
    ∃ s, run (init 1000) again = some s ∧ Timely s ∧ executions s 0 = [1001] ∧ executions s 1 = [1006] := by
  have hrun : ((run (init 1000) again).map fun s => (s.callOutTime, s.log)) =
      some (1006, [.executed 0 1001, .executed 1 1006]) := by decide +kernel
  obtain ⟨s, hs, heq⟩ := map_eq_some_iff.1 hrun
  have hlog : s.log = [.executed 0 1001, .executed 1 1006] := (Prod.mk.inj heq).2
  refine ⟨s, hs, (callOut_timely 1000 (by decide) (by decide) again s (by decide +kernel) hs).1, ?_, ?_⟩
  all_goals
    rw [executions, hlog]
    rfl

/-- the same function asks for itself again 32 seconds later, which is in the slot being swept -/
def lateAgain : List Act :=
  [.newCallOut (.pointer 0) 1, .tick 1, .callOut, .next, .next, .newCallOut (.pointer 0) 32, .next, .next, .tick 32,
    .callOut] ++ replicate 33 .next

/-- **A call-out can be a cycle late.** Asked for by a running call-out in second 1001 with a delay of 32, it has not
been executed when second 1033 has been swept; it waits for one more turn of the wheel. -/
theorem late_by_a_cycle :
    ∃ s r, run (init 1000) lateAgain = some s ∧ s.requests[1]? = some r ∧ r.due = 1033 ∧ s.callOutTime = 1033 ∧
      s.control = .idle ∧ executions s 1 = [] ∧ ¬ Timely s := by
  have hrun : ((run (init 1000) lateAgain).map fun s => (s.callOutTime, s.control, s.log, s.requests)) =
      some (1033, .idle, [.executed 0 1001], [⟨1000, 1, .pointer 0⟩, ⟨1001, 32, .pointer 0⟩]) := by decide +kernel
  obtain ⟨s, hs, heq⟩ := map_eq_some_iff.1 hrun
  obtain ⟨htime, hctl, hlog, hreq⟩ : s.callOutTime = 1033 ∧ s.control = .idle ∧ s.log = [.executed 0 1001] ∧
      s.requests = [⟨1000, 1, .pointer 0⟩, ⟨1001, 32, .pointer 0⟩] := by simpa using heq
  have hnone : executions s 1 = [] := by rw [executions, hlog]; rfl
  have hr : s.requests[1]? = some ⟨1001, 32, .pointer 0⟩ := by rw [hreq]; rfl
  refine ⟨s, _, hs, hr, rfl, htime, hctl, hnone, fun htimely => ?_⟩
  have := htimely.onTime 1 _ hr (by simp [hlog]) (by simp [hlog]) (by rw [htime]; decide)
  rw [hnone] at this
  cases this

end Lithos.Driver.CallOut
