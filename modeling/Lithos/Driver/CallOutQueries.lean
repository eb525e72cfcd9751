/-
Asking about call-outs and removing them (`find_call_out`, `get_all_call_outs` and the removals of `call_out.cpp`).

Neither the second of a call-out nor the time left is kept anywhere: both are worked out from the slot, the deltas in
front of it and the place of the wheel. Removing a call-out gives its delta to the one behind it.

Results:
* `callOut_queries`: in the runs of `callOut_timely`, outside a sweep, every query reports the time from now to the
  second that was asked for, as far as an `int` can.
* `removal_local`: in every run, a removal takes out the call-outs it is meant for and moves no other.
-/
import Lithos.Driver.CallOut

namespace Lithos.Driver.CallOut

open Lithos.Core Lithos.Lpc List Option Function DeltaList

/-! ## The queries -/

/-- the search of one slot for the first call-out with property `p`: the time left, as an `int` -/
def findIn (s : State) (p : Call → Bool) (i : Fin 32) : Option ℤ :=
  ((times 0 (s.callList i)).find? fun e => p e.2).map fun e => (timeLeft s i e.1).bmod (2 ^ 32)

/-- `find_call_out` -/
def findCallOut (s : State) (ob : ObjectId) (fn : List Byte) : ℤ :=
  ((finRange 32).findSome? (findIn s fun c => c.target == .method ob fn)).getD (-1)

/-- `find_call_out_by_handle` -/
def findCallOutByHandle (s : State) (handle : ℤ) : ℤ := (findIn s (fun c => c.handle == handle) (slot handle)).getD (-1)

/-- a row of the listing: the object, the function, the delay -/
structure Row where
  ob : ObjectId
  fn : List Byte
  delay : ℤ
deriving DecidableEq, Repr

/-- the row of a call-out; the name of a function pointer is `<function>` -/
def Target.row (delay : ℤ) : Target → Row
  | .method ob fn => ⟨ob, fn, delay⟩
  | .pointer owner => ⟨owner, "<function>".toUTF8.toList, delay⟩

/-- the rows that `get_all_call_outs` writes -/
def rows (s : State) : List Row :=
  (finRange 32).flatMap fun i =>
    ((times 0 (s.callList i)).filter fun e => !isDestructed s e.2).map fun e =>
      e.2.target.row (timeLeft s i e.1)

/-- `get_all_call_outs`; `none` when `allocate_empty_array` raises an error, for the array or for a row of it -/
def getAllCallOuts (maxArraySize : ℕ) (s : State) : Option (List Row) :=
  if (rows s).length ≤ maxArraySize ∧ (rows s = [] ∨ 3 ≤ maxArraySize) then
    some ((rows s).take (ushort (rows s).length))
  else none

/-! ## What they should report -/

/-- the time from now to the second that was asked for -/
def remaining (s : State) (c : Call) : ℤ := (s.requests[c.id]?.elim 0 Request.due) - s.currentTime

/-- `t` is an `int` -/
def FitsInt (t : ℤ) : Prop := -2 ^ 31 ≤ t ∧ t < 2 ^ 31

/-- the first pending call-out of a function, in the order of the slots -/
def firstOf (s : State) (ob : ObjectId) (fn : List Byte) : Option Call :=
  (finRange 32).findSome? fun i => ((s.callList i).map Prod.snd).find? fun c => c.target == .method ob fn

/-- the pending call-outs of objects that are not destructed -/
def listed (s : State) : List Call :=
  (finRange 32).flatMap fun i => ((s.callList i).map Prod.snd).filter fun c => !isDestructed s c

/-- every query about a pending call-out reports the time remaining to it -/
structure Reports (s : State) : Prop where
  byHandle : ∀ i, ∀ e ∈ entries s i, FitsInt (remaining s e.2) → findCallOutByHandle s e.2.handle = remaining s e.2
  byName : ∀ ob fn c, firstOf s ob fn = some c → FitsInt (remaining s c) → findCallOut s ob fn = remaining s c
  noneByName : ∀ ob fn, firstOf s ob fn = none → findCallOut s ob fn = -1
  /-- a removal reports what a search would have -/
  removeByName : ∀ ob fn, (removeCallOut s ob fn).2 = findCallOut s ob fn
  removeByHandle : ∀ handle, (removeCallOutByHandle s handle).2 = findCallOutByHandle s handle
  /-- where `allocate_empty_array` makes the array, which has at most 65535 elements -/
  listing : ∀ maxArraySize, 3 ≤ maxArraySize → (listed s).length ≤ maxArraySize → (listed s).length < 65536 →
    getAllCallOuts maxArraySize s = some ((listed s).map fun c => c.target.row (remaining s c))

variable {s s' : State}

theorem removeFrom_time (s : State) (p : Call → Bool) (i : Fin 32) :
    (removeFrom s p i).map Prod.snd = findIn s p i := by
  rw [removeFrom, findIn, ← removeFirst_found, Option.map_map, Option.map_map]
  rfl

theorem removeByName_eq (s : State) (ob : ObjectId) (fn : List Byte) :
    (removeCallOut s ob fn).2 = findCallOut s ob fn := by
  unfold removeCallOut findCallOut
  induction finRange 32 with
  | nil => rfl
  | cons i is ih =>
    have hi := removeFrom_time s (fun c => c.target == .method ob fn) i
    rw [findSome?_cons, findSome?_cons, ← hi]
    cases removeFrom s (fun c => c.target == .method ob fn) i with
    | none => exact ih
    | some r => rfl

variable {e : ℤ × Call} {i : Fin 32} {p : Call → Bool}

theorem Inv.timeLeft_remaining (h : Inv s) (hidle : s.control = .idle)
    (he : e ∈ entries s i) : timeLeft s i e.1 = remaining s e.2 := by
  obtain ⟨r, hr, ht⟩ := h.timeLeft_eq (fun hs => by simp [Sweeping, hidle] at hs) he
  rw [ht, remaining, hr]
  rfl

theorem bmod_of_fitsInt {t : ℤ} (h : FitsInt t) : t.bmod (2 ^ 32) = t := by
  obtain ⟨h₁, h₂⟩ := h
  exact Int.bmod_eq_of_le (by omega) (by omega)

theorem slot_handle (i : Fin 32) (n : ℤ) : slot ((i : ℤ) + 32 * n) = i := by
  conv_rhs => rw [← slot_natCast i]
  rw [slot_inj]
  omega

/-- the search of a slot finds the first call-out of it -/
theorem Inv.findIn_slot (h : Inv s) (hidle : s.control = .idle) (p : Call → Bool) (i : Fin 32) :
    findIn s p i = (((s.callList i).map Prod.snd).find? p).map fun c => (remaining s c).bmod (2 ^ 32) := by
  rw [← times_snd 0 (s.callList i), find?_map, Option.map_map, findIn]
  refine Option.map_congr fun e he => ?_
  rw [h.timeLeft_remaining hidle (mem_of_find?_eq_some he)]
  rfl

theorem Inv.byHandle (h : Inv s) (hidle : s.control = .idle) (he : e ∈ entries s i)
    (hfit : FitsInt (remaining s e.2)) : findCallOutByHandle s e.2.handle = remaining s e.2 := by
  have hslot : slot e.2.handle = i := by rw [h.handle i e he, slot_handle]
  have hsome : ((entries s i).find? fun x => x.2.handle == e.2.handle).isSome :=
    find?_isSome.2 ⟨e, he, beq_self_eq_true _⟩
  obtain ⟨x, hx⟩ := isSome_iff_exists.1 hsome
  -- the call-out found has the same number, and with it the same request
  have hid : x.2.id = e.2.id := by
    have hxh : x.2.handle = e.2.handle := by simpa using find?_some hx
    rw [h.handle i x (mem_of_find?_eq_some hx), h.handle i e he] at hxh
    omega
  have hrem : remaining s x.2 = remaining s e.2 := by rw [remaining, remaining, hid]
  have hleft := h.timeLeft_remaining hidle (mem_of_find?_eq_some hx)
  rw [findCallOutByHandle, hslot, findIn, show (times 0 (s.callList i)).find? _ = some x from hx, map_some, getD_some,
    hleft, hrem, bmod_of_fitsInt hfit]

theorem Inv.findCallOut_eq (h : Inv s) (hidle : s.control = .idle) (ob : ObjectId) (fn : List Byte) :
    findCallOut s ob fn = ((firstOf s ob fn).map fun c => (remaining s c).bmod (2 ^ 32)).getD (-1) := by
  rw [findCallOut, firstOf, map_findSome?]
  refine congrArg (Option.getD · (-1)) (congrArg (findSome? · _) (funext fun i => ?_))
  exact h.findIn_slot hidle _ i

theorem Inv.rows_eq (h : Inv s) (hidle : s.control = .idle) :
    rows s = (listed s).map fun c => c.target.row (remaining s c) := by
  rw [rows, listed, List.map_flatMap]
  refine List.flatMap_congr fun i _ => ?_
  rw [← times_snd 0 (s.callList i), List.filter_map, List.map_map]
  refine List.map_congr_left fun e he => ?_
  rw [h.timeLeft_remaining hidle (List.mem_filter.1 he).1]
  rfl

/-- **Call-out queries.** Outside a sweep, in every run whose steps meet the condition, each query reports the time
remaining to the second asked for. -/
theorem callOut_queries (time : ℤ) (h₀ : 0 < time) (h₁ : time < 2 ^ 63) (as : List Act) (s : State)
    (hok : RunOk (init time) as) (hrun : run (init time) as = some s) (hidle : s.control = .idle) : Reports s :=
  have h := (inv_init h₀ h₁).run hok hrun
  { byHandle := fun _ _ he => h.byHandle hidle he
    byName := fun ob fn c hc hfit => by
      rw [h.findCallOut_eq hidle, hc, map_some, getD_some, bmod_of_fitsInt hfit]
    noneByName := fun ob fn hnone => by rw [h.findCallOut_eq hidle, hnone]; rfl
    removeByName := removeByName_eq s
    removeByHandle := fun handle => by
      unfold removeCallOutByHandle findCallOutByHandle
      rw [← removeFrom_time]
      cases removeFrom s (fun c => c.handle == handle) (slot handle) <;> rfl
    listing := fun maxArraySize hrow hmax hshort => by
      have hlen : (rows s).length = (listed s).length := by rw [h.rows_eq hidle, length_map]
      rw [getAllCallOuts, if_pos ⟨hlen ▸ hmax, .inr hrow⟩, hlen, ushort, Nat.mod_eq_of_lt hshort, ← hlen, take_length,
        h.rows_eq hidle] }

/-- two call-outs of one function, one of them swept and asked for again -/
def asked : List Act :=
  [.newCallOut (.method 3 [102]) 40, .tick 1, .newCallOut (.method 3 [102]) 5, .tick 2, .callOut] ++ replicate 4 .next

theorem asked_reports : ∃ s, run (init 1000) asked = some s ∧ Reports s ∧ findCallOut s 3 [102] = 3 ∧
      getAllCallOuts 15000 s = some [⟨3, [102], 3⟩, ⟨3, [102], 37⟩] := by
  have hrun : ((run (init 1000) asked).map fun s =>
      (s.control, findCallOut s 3 [102], getAllCallOuts 15000 s)) =
        some (.idle, 3, some [⟨3, [102], 3⟩, ⟨3, [102], 37⟩]) := by decide +kernel
  obtain ⟨s, hs, heq⟩ := map_eq_some_iff.1 hrun
  obtain ⟨hidle, hfind, hlist⟩ := by simpa using heq
  exact ⟨s, hs, callOut_queries 1000 (by decide) (by decide) asked s (by decide +kernel) hs hidle, hfind, hlist⟩

/-- a function that `call_out` calls makes a call-out 32 seconds ahead, which is in the slot being swept -/
def askedInside : List Act :=
  [.newCallOut (.pointer 0) 1, .tick 1, .callOut, .next, .next, .newCallOut (.method 3 [102]) 32, .next, .next]

/-- **Wrong times.** The call-out of `askedInside` is due in 32 seconds and reported to be due in 64; one due in
2 ^ 32 + 5 seconds is reported to be due in 5. -/
theorem wrong_reports :
    (∃ s, run (init 1000) askedInside = some s ∧ s.control = .idle ∧ getAllCallOuts 15000 s = some [⟨3, [102], 64⟩] ∧
      (listed s).map (remaining s) = [32] ∧ ¬ Reports s) ∧
    ∃ s, run (init 1000) [.newCallOut (.method 3 [102]) (2 ^ 32 + 5)] = some s ∧ findCallOut s 3 [102] = 5 ∧
      getAllCallOuts 15000 s = some [⟨3, [102], 2 ^ 32 + 5⟩] := by
  refine ⟨?_, ?_⟩
  · have hrun : ((run (init 1000) askedInside).map fun s => (s.control, getAllCallOuts 15000 s,
        (listed s).map (remaining s), (listed s).map fun c => c.target.row (remaining s c))) =
        some (.idle, some [⟨3, [102], 64⟩], [32], [⟨3, [102], 32⟩]) := by decide +kernel
    obtain ⟨s, hs, heq⟩ := map_eq_some_iff.1 hrun
    obtain ⟨hidle, hlist, hrem, hwant⟩ := by simpa only [Prod.mk.injEq] using heq
    have hone : (listed s).length = 1 := by rw [← length_map (remaining s), hrem]; rfl
    refine ⟨s, hs, hidle, hlist, hrem, fun hrep => ?_⟩
    have := hrep.listing 15000 (by decide) (by omega) (by omega)
    rw [hlist, hwant] at this
    cases this
  · have hrun : ((run (init 1000) [.newCallOut (.method 3 [102]) (2 ^ 32 + 5)]).map fun s =>
        (findCallOut s 3 [102], getAllCallOuts 15000 s)) = some (5, some [⟨3, [102], 2 ^ 32 + 5⟩]) := by decide +kernel
    obtain ⟨s, hs, heq⟩ := map_eq_some_iff.1 hrun
    exact ⟨s, hs, (Prod.mk.inj heq).1, (Prod.mk.inj heq).2⟩

/-! ## Removal -/

/-- the call-outs of a slot with the second in which each will run, as the wheel stands -/
def schedule (s : State) (i : Fin 32) : List (ℤ × Call) :=
  (entries s i).map fun e => (nextSweep s i + 32 * (e.1 - 1), e.2)

def calls (s : State) (i : Fin 32) : List Call := (s.callList i).map Prod.snd

/-- the handle of call-out `n`, made in slot `i` -/
def handleOf (i : Fin 32) (n : ℕ) : ℤ := ((i : ℤ) + 32 * (n + 1)).bmod (2 ^ 32)

theorem handleOf_eq (i : Fin 32) {n : ℕ} (h : n + 1 < 2 ^ 26) : handleOf i n = i + 32 * (n + 1) := by
  exact Int.bmod_eq_of_le (by omega) (by omega)

/-- what one act does to the slots: call-outs leave, or a new one comes into one slot -/
inductive Moves (s s' : State) : Prop where
  | leave (hu : s'.unique = s.unique) (h : ∀ i, (calls s' i).Sublist (calls s i))
  | enter (i : Fin 32) (c : Call) (hu : s'.unique = s.unique + 1) (hid : c.id = s.unique)
      (hh : c.handle = handleOf i s.unique) (hi : (calls s' i).Perm (c :: calls s i))
      (h : ∀ j, j ≠ i → calls s' j = calls s j)

theorem Moves.same (hu : s'.unique = s.unique) (hl : s'.callList = s.callList) : Moves s s' :=
  .leave hu fun i => by rw [calls, calls, hl]

theorem calls_update_sublist (s : State) (i : Fin 32) {l : List (ℤ × Call)} (hl : (l.map Prod.snd).Sublist (calls s i))
    (j : Fin 32) : ((update s.callList i l j).map Prod.snd).Sublist (calls s j) := by
  by_cases hj : j = i
  · subst hj
    rwa [update_self]
  · rw [update_of_ne hj]
    exact List.Sublist.refl _

theorem Moves.removeFrom {r : State × ℤ} (hr : removeFrom s p i = some r) : Moves s r.1 := by
  obtain ⟨⟨u, c, l⟩, hl, rfl⟩ := map_eq_some_iff.1 hr
  obtain ⟨l₁, l₂, hold, hnew, -, -⟩ := times_removeFirst hl
  refine .leave rfl (calls_update_sublist s i ?_)
  rw [calls, ← times_snd 0 l, ← times_snd 0 (s.callList i), hold, hnew]
  exact ((List.Sublist.refl l₁).append (sublist_cons_self _ _)).map _

theorem start_callList (s : State) : (start s).callList = s.callList := by unfold start; split_ifs <;> rfl

theorem newCallOut_callList (s : State) (target : Target) (delay : ℤ) :
    ∃ i turns, (newCallOut s target delay).1.callList = update s.callList i
      (insert turns ⟨s.unique, target, handleOf i s.unique⟩ (s.callList i)) := by
  unfold newCallOut handleOf
  dsimp only
  rw [start_callList, start_unique]
  exact ⟨_, _, rfl⟩

theorem moves_newCallOut (s : State) (target : Target) (delay : ℤ) : Moves s (newCallOut s target delay).1 := by
  obtain ⟨i, turns, hl⟩ := newCallOut_callList s target delay
  have hu : (newCallOut s target delay).1.unique = s.unique + 1 := by rw [← start_unique s, newCallOut]
  refine .enter i ⟨s.unique, target, handleOf i s.unique⟩ hu rfl (by dsimp only) ?_ fun j hj => ?_
  · rw [calls, hl, update_self, ← times_snd 0, calls, ← times_snd 0 (s.callList i)]
    exact (times_insert 0 _ _ _).map Prod.snd
  · rw [calls, hl, update_of_ne hj, calls]

theorem moves_loopTest (h : Moves s s') : Moves s (loopTest s') := by
  have hl : (loopTest s').callList = s'.callList ∧ (loopTest s').unique = s'.unique := by
    unfold loopTest; split <;> exact ⟨rfl, rfl⟩
  cases h with
  | leave hu h => exact .leave (hl.2.trans hu) fun i => by rw [calls, hl.1]; exact h i
  | enter i c hu hid hh hi h =>
    exact .enter i c (hl.2.trans hu) hid hh (by rw [calls, hl.1]; exact hi) fun j hj => by
      rw [calls, hl.1]; exact h j hj

theorem moves_next (h : next s = some s') : Moves s s' := by
  unfold CallOut.next at h
  split at h
  · cases h
  · split_ifs at h
    · cases h
      refine moves_loopTest (.leave rfl (calls_update_sublist s _ ?_))
      rw [calls]
      cases s.callList (swept s) <;> exact List.Sublist.refl _
    · cases h
      exact .same rfl rfl
  · split at h
    · cases h
    · next c l heq =>
      have hsub := calls_update_sublist s (swept s) (l := l) (by rw [calls, heq]; exact sublist_cons_self _ _)
      split_ifs at h
      · cases h
        exact moves_loopTest (.leave rfl hsub)
      · cases h
        exact .leave rfl hsub
  · cases h
    exact moves_loopTest (.same rfl rfl)

theorem moves_step {a : Act} (h : step s a = some s') : Moves s s' := by
  cases a with
  | next => exact moves_next h
  | newCallOut target delay =>
    obtain ⟨-, ⟨⟩⟩ := ite_none_right_eq_some.1 h
    exact moves_newCallOut s target delay
  | removeCallOut ob fn =>
    obtain ⟨-, ⟨⟩⟩ := ite_none_right_eq_some.1 h
    unfold CallOut.removeCallOut
    cases hf : (finRange 32).findSome? (CallOut.removeFrom s fun c => c.target == .method ob fn) with
    | none => exact .same rfl rfl
    | some r =>
      obtain ⟨i, -, hr⟩ := exists_of_findSome?_eq_some hf
      exact .removeFrom hr
  | removeCallOutByHandle handle =>
    obtain ⟨-, ⟨⟩⟩ := ite_none_right_eq_some.1 h
    unfold CallOut.removeCallOutByHandle
    cases hf : CallOut.removeFrom s (fun c => c.handle == handle) (slot handle) with
    | none => exact .same rfl rfl
    | some r => exact .removeFrom hf
  | removeAllCallOut ob =>
    obtain ⟨-, ⟨⟩⟩ := ite_none_right_eq_some.1 h
    refine .leave rfl fun i => ?_
    rw [calls, calls, CallOut.removeAllCallOut, ← times_snd 0, times_removeAll, ← times_snd 0 (s.callList i), add_zero]
    exact (filter_sublist).map _
  | destruct ob | tick n =>
    obtain ⟨-, ⟨⟩⟩ := ite_none_right_eq_some.1 h
    exact .same rfl rfl
  | callOut =>
    obtain ⟨-, ⟨⟩⟩ := ite_none_right_eq_some.1 h
    exact .same (start_unique s) (start_callList s)

/-- the call-outs of a slot differ in their numbers, and their handles are made of slot and number -/
structure Tagged (s : State) : Prop where
  nodup : ∀ i, ((calls s i).map Call.id).Nodup
  fresh : ∀ i, ∀ c ∈ calls s i, c.id < s.unique
  handle : s.unique < 2 ^ 26 → ∀ i, ∀ c ∈ calls s i, c.handle = i + 32 * (c.id + 1)

theorem Tagged.moves (h : Tagged s) (hm : Moves s s') : Tagged s' := by
  cases hm with
  | leave hu hsub =>
    exact ⟨fun i => (h.nodup i).sublist ((hsub i).map _), fun i c hc => hu ▸ h.fresh i c ((hsub i).subset hc),
      fun hlt i c hc => h.handle (hu ▸ hlt) i c ((hsub i).subset hc)⟩
  | enter i c hu hid hh hi hj =>
    have hmem : ∀ j, ∀ x ∈ calls s' j, x ∈ calls s j ∨ j = i ∧ x = c := by
      intro j x hx
      by_cases hji : j = i
      · subst hji
        exact (mem_cons.1 (hi.mem_iff.1 hx)).symm.imp_right fun h => ⟨rfl, h⟩
      · exact .inl (hj j hji ▸ hx)
    refine ⟨fun j => ?_, fun j x hx => ?_, fun hlt j x hx => ?_⟩
    · by_cases hji : j = i
      · subst hji
        rw [(hi.map Call.id).nodup_iff, map_cons, nodup_cons]
        refine ⟨fun hc => ?_, h.nodup j⟩
        obtain ⟨x, hx, hxc⟩ := mem_map.1 hc
        have := h.fresh j x hx
        omega
      · rw [hj j hji]
        exact h.nodup j
    · rcases hmem j x hx with hx | ⟨rfl, rfl⟩
      · have := h.fresh j x hx
        omega
      · omega
    · rcases hmem j x hx with hx | ⟨rfl, rfl⟩
      · exact h.handle (by omega) j x hx
      · rw [hh, hid, handleOf_eq j (by omega)]

theorem tagged_run {as : List Act} (h : Tagged s) (hr : run s as = some s') : Tagged s' := by
  induction as generalizing s with
  | nil => cases hr; exact h
  | cons a as ih =>
    obtain ⟨t, ht, hr⟩ := bind_eq_some_iff.1 hr
    exact ih (h.moves (moves_step ht)) hr

theorem mem_calls (he : e ∈ schedule s i) : e.2 ∈ calls s i := by
  obtain ⟨x, hx, rfl⟩ := mem_map.1 he
  rw [calls, ← times_snd 0]
  exact mem_map.2 ⟨x, hx, rfl⟩

/-- the call-outs of a slot that stays as it is are none of those with a handle of another slot -/
theorem Tagged.schedule_filter_of_ne (h : Tagged s) (hfew : s.unique < 2 ^ 26) {j : Fin 32}
    (he : e ∈ schedule s i) (hj : j ≠ i) : (schedule s j).filter (fun x => x.2 ≠ e.2) = schedule s j := by
  refine filter_eq_self.2 fun x hx => decide_eq_true fun hxe => hj ?_
  have hx' := h.handle hfew j x.2 (mem_calls hx)
  rw [hxe, h.handle hfew i e.2 (mem_calls he)] at hx'
  exact Fin.ext (by omega)

theorem Tagged.removeByHandle (h : Tagged s) (hfew : s.unique < 2 ^ 26) (he : e ∈ schedule s i) (j : Fin 32) :
    schedule (removeCallOutByHandle s e.2.handle).1 j = (schedule s j).filter fun x => x.2 ≠ e.2 := by
  have hmem := mem_calls he
  have hslot : slot e.2.handle = i := by rw [h.handle hfew i e.2 hmem, slot_handle]
  obtain ⟨x, hx, hxe⟩ := mem_map.1 he
  have hsome : (removeFirst (fun c : Call => c.handle == e.2.handle) 0 (s.callList i)).isSome := by
    rw [← isSome_map, removeFirst_found, find?_isSome]
    exact ⟨x, hx, by simp [← hxe]⟩
  obtain ⟨⟨u, c, l⟩, hl⟩ := isSome_iff_exists.1 hsome
  obtain ⟨l₁, l₂, hold, hnew, hc, -⟩ := times_removeFirst hl
  have hcmem : c ∈ calls s i := by
    rw [calls, ← times_snd 0, hold]
    simp
  -- the handle gives the number, and the number the call-out
  have hce : c = e.2 := by
    have hh : c.handle = e.2.handle := eq_of_beq hc
    rw [h.handle hfew i c hcmem, h.handle hfew i e.2 hmem] at hh
    exact inj_on_of_nodup_map (h.nodup i) hcmem hmem (by omega)
  have hremove : (removeCallOutByHandle s e.2.handle).1 =
      { s with callList := update s.callList i l, log := s.log ++ [.removed c.id] } := by
    rw [removeCallOutByHandle, removeFrom, hslot, hl]
    rfl
  rw [hremove]
  show (times 0 (update s.callList i l j)).map (fun e => (nextSweep s j + 32 * (e.1 - 1), e.2)) = _
  by_cases hj : j = i
  · subst hj
    have hother : ∀ y ∈ l₁ ++ l₂, y.2 ≠ e.2 := by
      intro y hy hye
      have hnd := h.nodup j
      rw [calls, ← times_snd 0, hold, ((perm_middle.map _).map _).nodup_iff, map_cons, map_cons, nodup_cons] at hnd
      exact hnd.1 (mem_map.2 ⟨y.2, mem_map_of_mem hy, by rw [hye, hce]⟩)
    rw [update_self, hnew, schedule, entries, hold, map_append, map_append, map_cons,
      filter_append, filter_cons_of_neg (by simp [hce]), ← filter_append, ← map_append, eq_comm]
    refine filter_eq_self.2 fun y hy => ?_
    obtain ⟨z, hz, rfl⟩ := mem_map.1 hy
    exact decide_eq_true (hother z hz)
  · rw [update_of_ne hj]
    exact (h.schedule_filter_of_ne hfew he hj).symm

/-- **Removal is local.** In every run with fewer than 2 ^ 26 call-outs made, removing by the handle of a waiting
call-out takes out that one, and removing all of an object takes out those of the object and of destructed objects;
every other call-out stays, due in the same second. -/
theorem removal_local (time : ℤ) (as : List Act) (s : State) (hrun : run (init time) as = some s)
    (hfew : s.unique < 2 ^ 26) :
    (∀ i, ∀ e ∈ schedule s i, ∀ j,
      schedule (removeCallOutByHandle s e.2.handle).1 j = (schedule s j).filter fun x => x.2 ≠ e.2) ∧
    ∀ ob j, schedule (removeAllCallOut s ob) j = (schedule s j).filter fun x => !ofObject s ob x.2 := by
  have h := tagged_run (s := init time) ⟨fun _ => nodup_nil, nofun, nofun⟩ hrun
  refine ⟨fun _ _ he j => h.removeByHandle hfew he j, fun ob j => ?_⟩
  rw [schedule, entries, removeAllCallOut, times_removeAll, add_zero, schedule, List.filter_map]
  rfl

/-- three call-outs of one slot, the first of them of an object that is destructed -/
def sharedSlot : List Act :=
  [.newCallOut (.method 1 [102]) 5, .newCallOut (.method 2 [102]) 37, .newCallOut (.pointer 3) 69, .destruct 1]

theorem sharedSlot_removal : ∃ s, run (init 1000) sharedSlot = some s ∧ schedule s 13 =
        [(1005, ⟨0, .method 1 [102], 45⟩), (1037, ⟨1, .method 2 [102], 77⟩), (1069, ⟨2, .pointer 3, 109⟩)] ∧
      schedule (removeCallOutByHandle s 77).1 13 =
        [(1005, ⟨0, .method 1 [102], 45⟩), (1069, ⟨2, .pointer 3, 109⟩)] := by
  have hrun : ((run (init 1000) sharedSlot).map fun s => (s.unique, schedule s 13)) = some (3,
      [(1005, ⟨0, .method 1 [102], 45⟩), (1037, ⟨1, .method 2 [102], 77⟩), (1069, ⟨2, .pointer 3, 109⟩)]) := by
    decide +kernel
  obtain ⟨s, hs, heq⟩ := map_eq_some_iff.1 hrun
  obtain ⟨hu, hsch⟩ := Prod.mk.inj heq
  refine ⟨s, hs, hsch, ?_⟩
  have := (removal_local 1000 sharedSlot s hs (by omega)).1 13 (1037, ⟨1, .method 2 [102], 77⟩) (by simp [hsch]) 13
  rw [hsch] at this
  exact this

/-- **A removal that cleans up.** Removing all call-outs of object 3 also takes out the one of object 1, which is
destructed. -/
theorem destructed_cleaned : ((run (init 1000) sharedSlot).map fun s => schedule (removeAllCallOut s 3) 13) =
      some [(1037, ⟨1, .method 2 [102], 77⟩)] := by
  decide +kernel

end Lithos.Driver.CallOut
