/-
Calling a function in all objects of an array (`call_all_other` in `call_other.c`, `apply_call` in `apply.cpp`).

The targets are called one after the other, each with copies of the arguments on the stack. A result comes in a slot on
the stack. It is copied to the new array without counting the reference, and then the slot is popped, which counts it
down. The code that is called can do anything, but it counts what it does; an error in it leaves `call_all_other`. An
object it destructs is replaced by 0 all over the stack (`remove_object_from_stack`), also among the arguments that the
next target gets. Counts do not overflow here; what a deallocated value holds, and the reference to the new array itself,
are left out.

Results:
* `call_all_other_iff`: there is a result, every target has received the arguments, the elements are what it returns for
  them, and every count is the number of holders, if and only if the stack has room, no call raises an error, no argument
  is destructed before the last call, and no element is a counted value;
* `result_deallocated`: the only reference to a result is in the new array, and its count is 0.
-/
import Mathlib.Tactic

namespace Lithos.Driver.CallOther

open List

/-! ## Model -/

/-- an svalue: one without a reference count, such as a number, or one that has a count, such as an object -/
inductive Val where
  | scalar (n : ℤ)
  | counted (id : ℕ)
deriving DecidableEq, Repr

/-- an element of the array of targets -/
inductive Target where
  | object (ob : ℕ)
  | name (s : String)
  | other
deriving DecidableEq, Repr

/-- the rest of the driver: its states, and what the calls of `call_all_other` do to them; `none` is an error -/
structure World (W : Type) where
  /-- the array of targets -/
  item : W → ℕ → Target
  /-- `find_or_load_object`, and `object_visible` -/
  find : String → W → Option (Option ℕ × W)
  destructed : W → ℕ → Bool
  /-- the function in the object, with the arguments; no value if it is not there -/
  call : ℕ → List Val → W → Option (Option Val × W)
  /-- how many hold the value apart from the stack and the new array -/
  elsewhere : W → ℕ → ℕ
  find_stays : ∀ {s w r}, find s w = some r → ∀ ob, destructed w ob → destructed r.2 ob
  call_stays : ∀ {ob args w r}, call ob args w = some r → ∀ ob, destructed w ob → destructed r.2 ob

/-- the counts, the stack with its top first, the elements of the new array so far, and the rest; `received` is a ghost:
the arguments of the calls made -/
structure State (W : Type) where
  ref : ℕ → ℤ
  stack : List Val
  ret : List Val
  world : W
  received : List (List Val)

/-- how often a value is held -/
def refs (l : List Val) (id : ℕ) : ℤ := l.count (.counted id)

variable {W : Type} (d : World W)

/-- `push_svalue` -/
def push (s : State W) (v : Val) : State W :=
  { s with stack := v :: s.stack, ref := fun id => s.ref id + refs [v] id }

/-- `pop_n_elems` -/
def popN (n : ℕ) (s : State W) : State W :=
  { s with stack := s.stack.drop n, ref := fun id => s.ref id - refs (s.stack.take n) id }

/-- `remove_object_from_stack` on a value of the stack, for the objects destructed between two states -/
def World.erase (w w' : W) : Val → Val
  | .scalar n => .scalar n
  | .counted id => if d.destructed w' id && !d.destructed w id then .scalar 0 else .counted id

/-- code that counts what it does takes the driver to another state -/
def State.moveTo (s : State W) (w : W) : State W :=
  let stack := s.stack.map (d.erase s.world w)
  { s with
    world := w
    stack := stack
    ref := fun id => s.ref id + (d.elsewhere w id - d.elsewhere s.world id) + (refs stack id - refs s.stack id) }

/-- `APPLY_SLOT_CALL`: the slot goes below the arguments, which are used up, and gets the result; it starts as 0 -/
def applySlotCall (ob n : ℕ) (s : State W) : Option (State W) :=
  let args := (s.stack.take n).reverse
  (d.call ob args s.world).map fun result =>
    push ((popN n { s with received := s.received ++ [args] }).moveTo d result.2) (result.1.getD (.scalar 0))

/-- the object to call; an object that is not there or destructed is passed over -/
def World.target (t : Target) (w : W) : Option (Option ℕ × W) :=
  let found : Option (Option ℕ × W) :=
    match t with
    | .object ob => some (some ob, w)
    | .name s => d.find s w
    | .other => some (none, w)
  found.map fun r => (r.1.filter fun ob => !d.destructed r.2 ob, r.2)

/-- turn `i` of the loop in `call_all_other`; the stack ends at `stackEnd`, and the new array has a place on it -/
def turn (stackEnd numargs : ℕ) (s : State W) (i : ℕ) : Option (State W) := do
  let target ← d.target (d.item s.world i) s.world
  let s := s.moveTo d target.2
  match target.1 with
  | none => some { s with ret := s.ret ++ [.scalar 0] }
  | some ob =>
    -- `push_undefined`
    if s.stack.length + numargs + 1 < stackEnd then
      (applySlotCall d ob numargs ((s.stack.take numargs).reverse.foldl push s)).map fun s =>
        -- `*rptr = *sp`
        popN 1 { s with ret := s.ret ++ s.stack.take 1 }
    else none

/-- `call_all_other`; `STACK_CHECK` is made unless the array is empty -/
def callAllOther (stackEnd size numargs : ℕ) (s : State W) : Option (State W) :=
  if size = 0 ∨ s.stack.length + numargs < stackEnd then
    ((range size).foldlM (turn d stackEnd numargs) s).map (popN numargs)
  else none

/-! ## What the targets return -/

/-- what target `i` returns for the arguments, and the driver after that -/
def World.answer (args : List Val) (w : W) (i : ℕ) : Option (Val × W) := do
  let target ← d.target (d.item w i) w
  match target.1 with
  | none => some (.scalar 0, target.2)
  | some ob => (d.call ob args target.2).map fun r => (r.1.getD (.scalar 0), r.2)

/-- what the targets return, one after the other -/
def World.answers (args : List Val) : List ℕ → W → Option (List Val × W)
  | [], w => some ([], w)
  | i :: v, w => do
    let a ← d.answer args w i
    let r ← answers args v a.2
    some (a.1 :: r.1, r.2)

/-- if target `i` is called, then with room on the stack and no argument destructed since `w₀` -/
def World.ReadyAt (args : List Val) (w₀ : W) (room : Prop) (w : W) (i : ℕ) : Prop :=
  ∀ ob w', d.target (d.item w i) w = some (some ob, w') → room ∧ args.map (d.erase w₀ w') = args

/-- the same of all targets, one after the other -/
def World.Ready (args : List Val) (w₀ : W) (room : Prop) : List ℕ → W → Prop
  | [], _ => True
  | i :: v, w => d.ReadyAt args w₀ room w i ∧ ∀ a, d.answer args w i = some a → Ready args w₀ room v a.2

/-- how many hold a value -/
def holders (s : State W) (id : ℕ) : ℤ := d.elsewhere s.world id + refs s.stack id + refs s.ret id

/-- every count is the number of holders -/
def Counted (s : State W) : Prop := ∀ id, s.ref id = holders d s id

/-- how many of the holders are not counted -/
def uncounted (s : State W) (id : ℕ) : ℤ := holders d s id - s.ref id

variable {d} {s s' t : State W} {args below : List Val} {w w' w₀ : W} {stackEnd i : ℕ} {a : Val × W}

theorem counted_iff : Counted d s ↔ ∀ id, uncounted d s id = 0 :=
  forall_congr' fun _ => eq_comm.trans sub_eq_zero.symm

theorem refs_append (a b : List Val) (id : ℕ) : refs (a ++ b) id = refs a id + refs b id := by
  simp [refs]

theorem refs_reverse (a : List Val) (id : ℕ) : refs a.reverse id = refs a id := by
  simp [refs]

theorem take_args (below : List Val) : (args.reverse ++ below).take args.length = args.reverse :=
  take_left' args.length_reverse

theorem drop_args (below : List Val) : (args.reverse ++ below).drop args.length = below :=
  drop_left' args.length_reverse

theorem foldl_push (l : List Val) (s : State W) :
    l.foldl push s = { s with stack := l.reverse ++ s.stack, ref := fun id => s.ref id + refs l id } := by
  induction l generalizing s with
  | nil => simp [refs]
  | cons v l ih =>
    rw [foldl_cons, ih]
    simp only [push, reverse_cons, append_assoc, singleton_append, add_assoc, ← refs_append]

/-! ## The arguments on the stack -/

/-- what is destructed in `w` is destructed in `w'` -/
def World.Later (d : World W) (w w' : W) : Prop := ∀ ob, d.destructed w ob → d.destructed w' ob

theorem erase_erase (h₀ : d.Later w₀ w) (h : d.Later w w') (v : Val) :
    d.erase w w' (d.erase w₀ w v) = d.erase w₀ w' v := by
  cases v with
  | scalar n => rfl
  | counted id =>
    have h₀ := h₀ id
    have h := h id
    unfold World.erase
    cases hw₀ : d.destructed w₀ id <;> cases hw : d.destructed w id <;> cases hw' : d.destructed w' id <;> simp_all

theorem target_later {r : Option ℕ × W} (h : d.target (d.item w i) w = some r) : d.Later w r.2 := by
  obtain ⟨x, hx, rfl⟩ := Option.map_eq_some_iff.1 h
  show d.Later w x.2
  cases hitem : d.item w i with
  | object ob =>
    rw [hitem] at hx
    cases hx
    exact fun _ h => h
  | name s =>
    rw [hitem] at hx
    exact d.find_stays hx
  | other =>
    rw [hitem] at hx
    cases hx
    exact fun _ h => h

/-- the stack of a turn: the arguments, as far as they have not been destructed since `w₀`, above the rest -/
structure Ranged (d : World W) (args : List Val) (w₀ : W) (height : ℕ) (s : State W) : Prop where
  later : d.Later w₀ s.world
  stack : ∃ below, s.stack = (args.map (d.erase w₀ s.world)).reverse ++ below
  height : s.stack.length = height

theorem Ranged.moveTo {height : ℕ} (h : Ranged d args w₀ height s) (hw : d.Later s.world w) :
    Ranged d args w₀ height (s.moveTo d w) := by
  obtain ⟨below, hstack⟩ := h.stack
  refine ⟨fun ob hob => hw ob (h.later ob hob), ⟨below.map (d.erase s.world w), ?_⟩, (length_map _).trans h.height⟩
  simp only [State.moveTo, hstack, map_append, map_reverse, map_map, Function.comp_def, erase_erase h.later hw]

variable {height : ℕ}

/-- a turn that calls: the copies are pushed, used up and replaced by the result, which is moved to the array -/
theorem turn_call (h : Ranged d args w₀ height s) {ob : ℕ} (ht : d.target (d.item s.world i) s.world = some (some ob, w)) :
    turn d stackEnd args.length s i = if height + args.length + 1 < stackEnd then
      (d.call ob (args.map (d.erase w₀ w)) w).map fun r =>
        let s := (s.moveTo d w).moveTo d r.2
        { s with ret := s.ret ++ [r.1.getD (.scalar 0)], received := s.received ++ [args.map (d.erase w₀ w)] }
      else none := by
  have hr := h.moveTo (target_later ht)
  obtain ⟨below, hstack⟩ := hr.stack
  have hlen : (args.map (d.erase w₀ w)).length = args.length := length_map _
  have htake : (s.moveTo d w).stack.take args.length = (args.map (d.erase w₀ w)).reverse :=
    hstack ▸ hlen ▸ take_args below
  rw [turn, ht]
  simp only [Option.bind_eq_bind, Option.bind_some, hr.height, htake, reverse_reverse]
  refine if_congr Iff.rfl ?_ rfl
  rw [foldl_push, applySlotCall, ← hlen, take_args, reverse_reverse, Option.map_map]
  refine Option.map_congr fun r _ => ?_
  simp only [Function.comp_apply, push, popN, take_args, drop_args, State.moveTo, take_succ_cons, take_zero,
    drop_succ_cons, drop_zero, refs_reverse, State.mk.injEq, and_true]
  funext id
  ring

/-- what a turn should do: the answer is in the array, and its reference there is not counted -/
structure Answered (d : World W) (args : List Val) (s : State W) (a : Val × W) (s' : State W) : Prop where
  world : s'.world = a.2
  ret : s'.ret = s.ret ++ [a.1]
  received : ∀ x ∈ s'.received, x ∈ s.received ∨ x = args
  uncounted : ∀ id, uncounted d s' id = uncounted d s id + refs [a.1] id

theorem uncounted_moveTo (s : State W) (w : W) (id : ℕ) : uncounted d (s.moveTo d w) id = uncounted d s id := by
  simp only [uncounted, holders, State.moveTo]
  ring

/-- **One turn.** -/
theorem turn_answered (h : Ranged d args w₀ height s) (ha : d.answer args s.world i = some a)
    (hready : d.ReadyAt args w₀ (height + args.length + 1 < stackEnd) s.world i) :
    ∃ s', turn d stackEnd args.length s i = some s' ∧ Ranged d args w₀ height s' ∧ Answered d args s a s' := by
  obtain ⟨⟨target, w⟩, ht, ha⟩ := Option.bind_eq_some_iff.1 ha
  have hr := h.moveTo (target_later ht)
  match target with
  | none =>
    cases ha
    refine ⟨{ s.moveTo d w with ret := (s.moveTo d w).ret ++ [.scalar 0] }, by rw [turn, ht]; rfl,
      ⟨hr.later, hr.stack, hr.height⟩, rfl, rfl, fun x hx => .inl hx, fun id => ?_⟩
    rw [← uncounted_moveTo s w]
    simp only [uncounted, holders, refs_append]
    ring
  | some ob =>
    obtain ⟨r, hcall, rfl⟩ := Option.map_eq_some_iff.1 ha
    obtain ⟨hroom, hargs⟩ := hready ob w ht
    have hr' := hr.moveTo (d.call_stays hcall)
    have hturn : turn d stackEnd args.length s i = _ := turn_call h ht
    rw [if_pos hroom, hargs, hcall] at hturn
    refine ⟨_, hturn, ⟨hr'.later, hr'.stack, hr'.height⟩, rfl, rfl, fun x hx => (mem_append.1 hx).imp_right mem_singleton.1,
      fun id => ?_⟩
    rw [← uncounted_moveTo s w, ← uncounted_moveTo (s.moveTo d w) r.2]
    simp only [uncounted, holders, refs_append]
    ring

/-- a turn in which every target called receives the arguments has an answer -/
theorem turn_ready (h : Ranged d args w₀ height s) (hturn : turn d stackEnd args.length s i = some s')
    (hrec : ∀ x ∈ s'.received, x = args) :
    d.ReadyAt args w₀ (height + args.length + 1 < stackEnd) s.world i ∧ ∃ a, d.answer args s.world i = some a := by
  obtain ⟨⟨target, w⟩, ht, -⟩ := Option.bind_eq_some_iff.1 hturn
  match target with
  | none => exact ⟨fun ob w' ht' => by simp [ht] at ht', ⟨_, by rw [World.answer, ht]; rfl⟩⟩
  | some ob =>
    rw [turn_call h ht] at hturn
    obtain ⟨hroom, hturn⟩ := Option.ite_none_right_eq_some.1 hturn
    obtain ⟨r, hcall, rfl⟩ := Option.map_eq_some_iff.1 hturn
    have hargs : args.map (d.erase w₀ w) = args := hrec _ (mem_append_right _ (mem_singleton_self _))
    rw [hargs] at hcall
    refine ⟨fun ob' w' ht' => ?_, (r.1.getD (.scalar 0), r.2), ?_⟩
    · cases ht.symm.trans ht'
      exact ⟨hroom, hargs⟩
    · rw [World.answer, ht]
      exact Option.map_eq_some_iff.2 ⟨r, hcall, rfl⟩

/-! ## The loop -/

theorem received_subset {v : List ℕ} (h : v.foldlM (turn d stackEnd args.length) s = some t) (x : List Val)
    (hx : x ∈ s.received) : x ∈ t.received := by
  induction v generalizing s with
  | nil =>
    cases h
    exact hx
  | cons i v ih =>
    rw [foldlM_cons] at h
    obtain ⟨s', hturn, h⟩ := Option.bind_eq_some_iff.1 h
    refine ih h ?_
    obtain ⟨⟨target, w⟩, -, hturn⟩ := Option.bind_eq_some_iff.1 hturn
    match target with
    | none =>
      cases hturn
      exact hx
    | some ob =>
      obtain ⟨-, hturn⟩ := Option.ite_none_right_eq_some.1 hturn
      obtain ⟨s₁, hcall, rfl⟩ := Option.map_eq_some_iff.1 hturn
      obtain ⟨r, -, rfl⟩ := Option.map_eq_some_iff.1 hcall
      rw [foldl_push]
      exact mem_append_left _ hx

/-- what the turns should do -/
structure AllAnswered (d : World W) (args : List Val) (s : State W) (r : List Val) (t : State W) : Prop where
  ret : t.ret = s.ret ++ r
  received : ∀ x ∈ t.received, x ∈ s.received ∨ x = args
  uncounted : ∀ id, uncounted d t id = uncounted d s id + refs r id

theorem turns_answered (v : List ℕ) (h : Ranged d args w₀ height s) {r : List Val × W}
    (hr : d.answers args v s.world = some r)
    (hready : d.Ready args w₀ (height + args.length + 1 < stackEnd) v s.world) :
    ∃ t, v.foldlM (turn d stackEnd args.length) s = some t ∧ Ranged d args w₀ height t ∧ AllAnswered d args s r.1 t := by
  induction v generalizing s r with
  | nil =>
    cases hr
    exact ⟨s, rfl, h, (append_nil _).symm, fun x hx => .inl hx, fun id => by simp [refs]⟩
  | cons i v ih =>
    obtain ⟨a, ha, hr⟩ := Option.bind_eq_some_iff.1 hr
    obtain ⟨r', hr', ⟨⟩⟩ := Option.bind_eq_some_iff.1 hr
    obtain ⟨s', hturn, hrange, hone⟩ := turn_answered h ha hready.1
    obtain ⟨t, hturns, hrange', hall⟩ := ih hrange (hone.world ▸ hr') (hone.world ▸ hready.2 a ha)
    refine ⟨t, by rw [foldlM_cons, hturn]; exact hturns, hrange', ?_, fun x hx => ?_, fun id => ?_⟩
    · rw [hall.ret, hone.ret, append_assoc]
      rfl
    · exact (hall.received x hx).elim (hone.received x) .inr
    · rw [hall.uncounted, hone.uncounted, add_assoc, ← refs_append]
      rfl

theorem turns_ready (v : List ℕ) (h : Ranged d args w₀ height s)
    (ht : v.foldlM (turn d stackEnd args.length) s = some t) (hrec : ∀ x ∈ t.received, x = args) :
    d.Ready args w₀ (height + args.length + 1 < stackEnd) v s.world ∧ ∃ r, d.answers args v s.world = some r := by
  induction v generalizing s with
  | nil => exact ⟨trivial, _, rfl⟩
  | cons i v ih =>
    rw [foldlM_cons] at ht
    obtain ⟨s', hturn, ht⟩ := Option.bind_eq_some_iff.1 ht
    obtain ⟨hready, a, ha⟩ := turn_ready h hturn fun x hx => hrec x (received_subset ht x hx)
    obtain ⟨s₁, hturn₁, hrange, hone⟩ := turn_answered h ha hready
    cases hturn.symm.trans hturn₁
    obtain ⟨hready', r, hr⟩ := ih hrange ht
    rw [hone.world] at hready' hr
    refine ⟨⟨hready, fun b hb => ?_⟩, (a.1 :: r.1, r.2), by simp [World.answers, ha, hr]⟩
    cases ha.symm.trans hb
    exact hready'

theorem refs_eq_zero_iff {l : List Val} : (∀ id, refs l id = 0) ↔ ∀ id, .counted id ∉ l := by
  simp [refs, count_eq_zero]

/-- **Calling all objects of an array.** From counts that fit the holders: there is a result, every target called has
received the arguments, the elements are what the targets return for them and the counts fit, if and only if the stack
has room, no target raises an error, no argument has been destructed when a target is called, and no element is a counted
value. -/
theorem call_all_other_iff (d : World W) (stackEnd size : ℕ) (args below : List Val) (s : State W) (hs : Counted d s)
    (hstack : s.stack = args.reverse ++ below) (hret : s.ret = []) (hrec : s.received = []) :
    (∃ t, callAllOther d stackEnd size args.length s = some t ∧ (∀ x ∈ t.received, x = args) ∧
      (∃ w, d.answers args (range size) s.world = some (t.ret, w)) ∧ Counted d t) ↔
    (size = 0 ∨ s.stack.length + args.length < stackEnd) ∧
      d.Ready args s.world (s.stack.length + args.length + 1 < stackEnd) (range size) s.world ∧
      ∃ r, d.answers args (range size) s.world = some r ∧ ∀ id, .counted id ∉ r.1 := by
  have hrange : Ranged d args s.world s.stack.length s := by
    refine ⟨fun _ h => h, ⟨below, ?_⟩, rfl⟩
    have hsame : ∀ v, d.erase s.world s.world v = v := by
      intro v
      cases v <;> simp [World.erase]
    simp only [funext hsame, map_id', hstack]
  -- popping the arguments keeps every count in step
  have hpop : ∀ t, uncounted d (popN args.length t) = uncounted d t := by
    intro t
    funext id
    have := congrArg (refs · id) (take_append_drop args.length t.stack)
    simp only [refs_append] at this
    simp only [uncounted, holders, popN]
    omega
  constructor
  · rintro ⟨t, ht, hall, ⟨w, hw⟩, hc⟩
    obtain ⟨hroom, ht⟩ := Option.ite_none_right_eq_some.1 ht
    obtain ⟨t, hturns, rfl⟩ := Option.map_eq_some_iff.1 ht
    obtain ⟨hready, -⟩ := turns_ready _ hrange hturns hall
    obtain ⟨t', hturns', -, hans⟩ := turns_answered _ hrange hw hready
    cases hturns.symm.trans hturns'
    refine ⟨hroom, hready, _, hw, refs_eq_zero_iff.1 fun id => ?_⟩
    have := hans.uncounted id
    rwa [← hpop, counted_iff.1 hc, counted_iff.1 hs, zero_add, eq_comm] at this
  · rintro ⟨hroom, hready, r, hr, hnone⟩
    obtain ⟨t, hturns, -, hans⟩ := turns_answered _ hrange hr hready
    refine ⟨popN args.length t, by rw [callAllOther, if_pos hroom, hturns]; rfl, fun x hx => ?_, ⟨r.2, ?_⟩,
      counted_iff.2 fun id => ?_⟩
    · exact (hans.received x hx).resolve_left (by simp [hrec])
    · rw [hr, popN, hans.ret, hret, nil_append]
    · rw [hpop, hans.uncounted, counted_iff.1 hs, zero_add, refs_eq_zero_iff.2 hnone]

/-- object 1 returns a new array (value 7), object 2 a number, object 4 does not have the function -/
def sampleWorld : World Unit where
  item _ i := [.object 2, .other, .object 4, .object 1].getD i .other
  find _ w := some (none, w)
  destructed _ _ := false
  call ob _ w := some (if ob = 1 then some (.counted 7) else if ob = 2 then some (.scalar 5) else none, w)
  elsewhere _ _ := 0
  find_stays _ _ h := h
  call_stays _ _ h := h

def sampleState : State Unit := ⟨fun id => if id = 3 then 1 else 0, [.counted 3], [], (), []⟩

theorem sampleState_counted : Counted sampleWorld sampleState := by
  intro id
  by_cases h : id = 3 <;> simp [sampleState, holders, sampleWorld, refs, h, eq_comm]

theorem numbers_counted : ∃ t, callAllOther sampleWorld 100 3 1 sampleState = some t ∧
    (∀ x ∈ t.received, x = [.counted 3]) ∧
    (∃ w, sampleWorld.answers [.counted 3] (range 3) () = some (t.ret, w)) ∧ Counted sampleWorld t := by
  refine (call_all_other_iff sampleWorld 100 3 [.counted 3] [] sampleState sampleState_counted rfl rfl rfl).2
    ⟨.inr (by decide), ?_, ([.scalar 5, .scalar 0, .scalar 0], ()), rfl, by simp⟩
  have hready : ∀ i, sampleWorld.ReadyAt [.counted 3] () (1 + 1 + 1 < 100) () i := fun i ob w _ => ⟨by decide, rfl⟩
  exact ⟨hready 0, fun a _ => ⟨hready 1, fun b _ => ⟨hready 2, fun c _ => trivial⟩⟩⟩

/-- The new array holds an array whose count is 0, so that it has been deallocated. -/
theorem result_deallocated : Counted sampleWorld sampleState ∧
    ((callAllOther sampleWorld 100 4 1 sampleState).map fun t => (t.ret, t.ref 7)) =
      some ([.scalar 5, .scalar 0, .scalar 0, .counted 7], 0) :=
  ⟨sampleState_counted, by decide⟩

end Lithos.Driver.CallOther
