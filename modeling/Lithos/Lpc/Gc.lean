/-
The incremental marker (`gc.c`), its write barrier in `assign_svalue_no_free` and the freeing by reference counts in
`assign_svalue` (`svalue.cpp`).

Memory is a graph of blocks with a colour and a count each. A cycle starts by pushing the roots on the gray list; ticks
scan blocks from the list until it is empty, and between the ticks the program assigns svalues. An assignment frees what
it overwrites, which may deallocate blocks. The barrier shades what is assigned, but only while the gray list is not
empty, and a new cycle starts from the colours the last one left. The marker follows arrays, mappings and objects that are
not destructed; it does not look into class instances. Nobody tells the gray list of a block that is deallocated: `fault`
says that freed memory was read or written, or that the driver stopped with a fatal error. Freed blocks are not used again
for new ones.

Results:
  * `freeSvalues_fuel`: deallocation ends within the fuel it is given.
  * `Inv.gcTick`, `Inv.assignSvalue`: ticks and assignments keep what a scanned block points to shaded, and no block on
    the gray list is freed.
  * `marking_safe`: at the end of every marking phase all that the marked roots reach is shaded and no freed memory was
    touched, in all runs that keep to the condition `RunOk`.
  * `left_white`: without the condition a second cycle, or a class instance, leaves reachable memory white.
-/
import Lithos.Core.Tricolor
import Lithos.Lpc.Types

namespace Lithos.Lpc.Gc

open Lithos.Core

/-! ## Memory -/

abbrev Ref := ℕ

/-- what a block of memory is; an object may be destructed, and may be without a program -/
inductive Kind where
  | array
  | mapping
  | classInstance
  | object (destructed prog : Bool)
deriving DecidableEq, Repr

/-- an svalue: a reference, whose type is the kind of the block, or anything the marker does not care for -/
inductive Val where
  | other
  | ref (r : Ref)
deriving DecidableEq, Repr

inductive Color where
  | white
  | gray
  | black
deriving DecidableEq, Repr

/-- a block: its svalues are the items of an array, the keys and values of a mapping, the members of a class instance
or the variables of an object -/
structure Block where
  kind : Kind
  items : List Val
  color : Color
  /-- the 16-bit reference count -/
  ref : ℕ
  /-- the static empty array, which is never deallocated -/
  static : Bool
  freed : Bool
deriving DecidableEq, Repr

structure Fiber where
  suspended : Bool
  /-- from `saved_fp` to `saved_sp` -/
  stack : List Val
  thisPlayer : Option Ref
deriving DecidableEq, Repr

/-- what `gc_mark_roots` looks at -/
structure Roots where
  objList : List Ref
  simulEfunOb : Option Ref
  /-- `ob` and `prev_ob` of the frames of the control stack -/
  controlStack : List (Option Ref × Option Ref)
  fibers : List Fiber
  /-- from `fp` to `sp` -/
  stack : List Val
deriving DecidableEq, Repr

inductive Phase where
  | idle
  | marking
  | sweeping
deriving DecidableEq, Repr

/-- memory, the gray list and the phase -/
structure State where
  heap : Ref → Block
  /-- the blocks are those below `size` -/
  size : ℕ
  grayList : List Ref
  phase : Phase
  roots : Roots
  /-- a ghost: the roots marked at the start of the last cycle -/
  marked : List Ref
  /-- freed memory was touched, or the driver stopped -/
  fault : Bool

/-! ## Marking -/

def setColor (heap : Ref → Block) (r : Ref) (c : Color) : Ref → Block :=
  fun x => if x = r then { heap x with color := c } else heap x

def setBlock (s : State) (r : Ref) (b : Block) : State := { s with heap := Function.update s.heap r b }

/-- reading or writing the memory of a block -/
def touch (s : State) (r : Ref) : State := { s with fault := s.fault || (s.heap r).freed }

/-- `gc_gray_push` -/
def grayPush (s : State) (r : Ref) : State :=
  let s := touch s r
  if (s.heap r).color ≠ .white then s else { s with heap := setColor s.heap r .gray, grayList := r :: s.grayList }

/-- the kinds of blocks that `mark_sv` pushes: arrays, mappings and objects that are not destructed -/
def Kind.pushed : Kind → Bool
  | .array => true
  | .mapping => true
  | .classInstance => false
  | .object destructed _ => !destructed

/-- the kinds of blocks whose svalues `gc_mark_children` goes through -/
def Kind.scanned : Kind → Bool
  | .array => true
  | .mapping => true
  | .classInstance => false
  | .object _ prog => prog

/-- what `mark_sv` pushes -/
def seen (heap : Ref → Block) : Val → Option Ref
  | .other => none
  | .ref r => if (heap r).kind.pushed then some r else none

/-- the svalues of a block that `gc_mark_children` goes through -/
def scannedItems (b : Block) : List Val := if b.kind.scanned then b.items else []

/-- `gc_mark_children` -/
def markChildren (s : State) (r : Ref) : State :=
  ((scannedItems (s.heap r)).filterMap (seen s.heap)).foldl grayPush s

/-- `gc_incremental_mark` -/
def incrementalMark (s : State) : ℕ → State
  | 0 => s
  | steps + 1 =>
    match s.grayList with
    | [] => s
    | r :: l =>
      let s' := markChildren (touch { s with grayList := l } r) r
      incrementalMark { s' with heap := setColor s'.heap r .black } steps

/-- an object root, if it is there and not destructed -/
def seenOb (heap : Ref → Block) (ob : Option Ref) : Option Ref := ob.bind fun r => seen heap (.ref r)

/-- the roots in the order in which `gc_mark_roots` pushes them -/
def rootRefs (heap : Ref → Block) (roots : Roots) : List Ref :=
  roots.objList.filterMap (fun r => seen heap (.ref r)) ++ (seenOb heap roots.simulEfunOb).toList ++
    roots.controlStack.flatMap (fun fr => (seenOb heap fr.1).toList ++ (seenOb heap fr.2).toList) ++
    roots.fibers.flatMap (fun f =>
      if f.suspended then f.stack.filterMap (seen heap) ++ (seenOb heap f.thisPlayer).toList else []) ++
    roots.stack.filterMap (seen heap)

/-- `gc_begin_cycle` when idle: the gray list is emptied, the roots are marked -/
def beginCycle (s : State) : State :=
  let refs := rootRefs s.heap s.roots
  { refs.foldl grayPush { s with grayList := [] } with phase := .marking, marked := refs }

/-- `gc_tick` with a budget of `steps` -/
def gcTick (s : State) (steps : ℕ) : State :=
  match s.phase with
  | .idle => beginCycle s
  | .marking =>
    let s' := incrementalMark s steps
    if s'.grayList = [] then { s' with phase := .sweeping } else s'
  | .sweeping => { s with phase := .idle }

/-! ## Assignment -/

/-- where an svalue lies: in a block, on the part of the stack that the marker sees, or elsewhere, with what it holds -/
inductive Loc where
  | item (r : Ref) (i : ℕ)
  | stack (i : ℕ)
  | elsewhere (old : Val)
deriving DecidableEq, Repr

def valueAt (s : State) : Loc → Val
  | .item r i => ((s.heap r).items[i]?).getD .other
  | .stack i => (s.roots.stack[i]?).getD .other
  | .elsewhere old => old

/-- `*to = *from` -/
def store (s : State) (v : Val) : Loc → State
  | .item r i => setBlock (touch s r) r { s.heap r with items := (s.heap r).items.set i v }
  | .stack i => { s with roots := { s.roots with stack := s.roots.stack.set i v } }
  | .elsewhere _ => s

/-- the svalues that the `dealloc_` function of a block frees, in its order; the variables of an object went when it was
destructed -/
def released (b : Block) : List Val :=
  match b.kind with
  | .array => b.items.reverse
  | .classInstance => b.items.reverse
  | .mapping => b.items
  | .object _ _ => []

def Block.withRef (b : Block) (n : ℕ) : Block := { b with ref := n }

/-- the block when its memory has gone -/
def Block.dead (b : Block) : Block := { b with items := [], freed := true }

/-- `dealloc_object` of an object that is not destructed is fatal -/
def Kind.fatal : Kind → Bool
  | .object destructed _ => !destructed
  | _ => false

/-- `free_svalue` on one svalue after the other: what a block that is deallocated holds is freed before the rest. Every
turn takes an svalue off the list, and `fuel` counts the turns. -/
def freeSvalues (s : State) : ℕ → List Val → State
  | 0, _ => s
  | _, [] => s
  | fuel + 1, .other :: l => freeSvalues s fuel l
  | fuel + 1, .ref r :: l =>
    let b := (s.heap r).withRef (decUshort (s.heap r).ref)
    let s := setBlock (touch s r) r b
    if b.ref ≠ 0 ∨ b.static then freeSvalues s fuel l
    else if b.kind.fatal then { s with fault := true }
    else freeSvalues (setBlock s r b.dead) fuel (released b ++ l)

def itemCount (s : State) : ℕ := ∑ r ∈ Finset.range s.size, (s.heap r).items.length

/-- `free_svalue (dest)`; nothing reads `dest` before it is overwritten, unless its own block is deallocated -/
def freeAt (s : State) (dest : Loc) : State :=
  let s' := store s .other dest
  freeSvalues s' (itemCount s' + 1) [valueAt s dest]

/-- the write barrier: while the gray list is not empty, a white block that is assigned becomes gray -/
def barrier (s : State) (v : Val) : State :=
  if s.grayList ≠ [] then ((seen s.heap v).toList).foldl grayPush s else s

/-- `retain_svalue_payload` -/
def retain (s : State) : Val → State
  | .other => s
  | .ref r => setBlock (touch s r) r ((s.heap r).withRef (ushort ((s.heap r).ref + 1)))

def assignSvalueNoFree (s : State) (dest : Loc) (v : Val) : State := retain (store (barrier s v) v dest) v

def assignSvalue (s : State) (dest : Loc) (v : Val) : State := assignSvalueNoFree (freeAt s dest) dest v

/-- a tick, an assignment, or any change of the roots, with the counts that go with it -/
inductive Act where
  | tick (steps : ℕ)
  | assign (dest : Loc) (v : Val)
  | roots (roots : Roots) (ref : Ref → ℕ)

def step (s : State) : Act → State
  | .tick n => gcTick s n
  | .assign dest v => assignSvalue s dest v
  | .roots roots ref => { s with roots := roots, heap := fun r => (s.heap r).withRef (ref r) }

def run (s : State) (as : List Act) : State := as.foldl step s

/-! ## What the marker has seen -/

/-- a block whose svalues the marker does not see: a class instance, a destructed object, an object without program -/
def Kind.blind (k : Kind) : Bool := !(k.pushed && k.scanned)

/-- block `a` holds a reference to `b` -/
def Points (heap : Ref → Block) (a b : Ref) : Prop := .ref b ∈ (heap a).items

/-- the reference is one that the marker follows -/
def Traced (heap : Ref → Block) (a b : Ref) : Prop := Points heap a b ∧ seen heap (.ref b) = some b

/-- the blocks that are not white -/
def shaded (heap : Ref → Block) : Set Ref := {r | (heap r).color ≠ .white}

def pending (s : State) : Set Ref := {r | r ∈ s.grayList}

variable {heap : Ref → Block} {r : Ref}

theorem mem_shaded : r ∈ shaded heap ↔ (heap r).color ≠ .white := Iff.rfl

variable {s s' : State} {v : Val}

/-- memory that has not been freed may be touched -/
theorem touch_live (h : (s.heap r).freed = false) : touch s r = s := by
  rw [touch, h, Bool.or_false]

/-! ## Shading -/

/-- a block without its colour -/
def Block.plain (b : Block) : Block := { b with color := .white }

/-- no block on the gray list has been freed -/
def GrayLive (s : State) : Prop := ∀ r ∈ s.grayList, (s.heap r).freed = false

/-- `s'` is `s` with more blocks shaded, all of them on the gray list, and nothing else changed -/
structure Shades (s s' : State) : Prop where
  plain : ∀ r, (s'.heap r).plain = (s.heap r).plain
  mono : shaded s.heap ⊆ shaded s'.heap
  gray : pending s ⊆ pending s'
  new : ∀ r ∈ shaded s'.heap, r ∉ shaded s.heap → r ∈ pending s'
  live : GrayLive s → GrayLive s'
  fault : s'.fault = s.fault
  frame : s'.phase = s.phase ∧ s'.marked = s.marked

theorem kind_of_plain {b b' : Block} (h : b'.plain = b.plain) : b'.kind = b.kind := (congrArg Block.kind h :)

theorem items_of_plain {b b' : Block} (h : b'.plain = b.plain) : b'.items = b.items := (congrArg Block.items h :)

theorem freed_of_plain {b b' : Block} (h : b'.plain = b.plain) : b'.freed = b.freed := (congrArg Block.freed h :)

theorem Shades.refl (s : State) : Shades s s :=
  ⟨fun _ => rfl, subset_rfl, subset_rfl, fun _ h h' => absurd h h', id, rfl, rfl, rfl⟩

theorem Shades.trans {t u : State} (h : Shades s t) (h' : Shades t u) : Shades s u where
  plain := fun r => (h'.plain r).trans (h.plain r)
  mono := h.mono.trans h'.mono
  gray := h.gray.trans h'.gray
  new := by
    intro r hr hnot
    by_cases ht : r ∈ shaded t.heap
    · exact h'.gray (h.new r ht hnot)
    · exact h'.new r hr ht
  live := h'.live ∘ h.live
  fault := h'.fault.trans h.fault
  frame := ⟨h'.frame.1.trans h.frame.1, h'.frame.2.trans h.frame.2⟩

theorem eq_ref_of_seen (h : seen heap v = some r) : v = .ref r := by
  cases v with
  | other => cases h
  | ref x => exact congrArg Val.ref (Option.some.inj (Option.ite_none_right_eq_some.1 h).2)

theorem seen_congr {h₁ h₂ : Ref → Block} (hk : ∀ x, (h₁ x).kind = (h₂ x).kind) (v : Val) : seen h₁ v = seen h₂ v := by
  cases v with
  | other => rfl
  | ref r => rw [seen, seen, hk r]

theorem traced_congr {h₁ h₂ : Ref → Block} (h : ∀ x, (h₁ x).plain = (h₂ x).plain) : Traced h₁ = Traced h₂ := by
  funext a b
  rw [Traced, Traced, Points, Points, items_of_plain (h a), seen_congr fun x => kind_of_plain (h x)]

@[simp] theorem setColor_plain (heap : Ref → Block) (r : Ref) (c : Color) (x : Ref) :
    (setColor heap r c x).plain = (heap x).plain := by
  unfold setColor
  split_ifs <;> rfl

theorem mem_shaded_setColor (heap : Ref → Block) (r : Ref) {c : Color} (hc : c ≠ .white) (x : Ref) :
    x ∈ shaded (setColor heap r c) ↔ x ∈ shaded heap ∨ x = r := by
  rw [mem_shaded, mem_shaded, setColor]
  by_cases hx : x = r
  · simp [hx, hc]
  · simp [hx]

theorem grayPush_spec (hr : (s.heap r).freed = false) : Shades s (grayPush s r) ∧ r ∈ shaded (grayPush s r).heap := by
  unfold grayPush
  rw [touch_live hr]
  dsimp only
  split_ifs with hw
  · exact ⟨.refl s, hw⟩
  have hmem := mem_shaded_setColor s.heap r (c := .gray) (by decide)
  refine ⟨⟨setColor_plain s.heap r _, ?_, ?_, ?_, ?_, rfl, rfl, rfl⟩, (hmem r).2 (.inr rfl)⟩
  · intro x hx
    exact (hmem x).2 (.inl hx)
  · intro x hx
    exact .tail _ hx
  · intro x hx hnot
    rcases (hmem x).1 hx with hold | rfl
    · exact absurd hold hnot
    · exact .head _
  · intro hlive x hx
    rw [freed_of_plain (setColor_plain s.heap r _ x)]
    rcases List.mem_cons.1 hx with rfl | hx
    · exact hr
    · exact hlive x hx

/-- pushing a list of blocks shades them all -/
theorem foldl_grayPush_spec (l : List Ref) (hl : ∀ r ∈ l, (s.heap r).freed = false) :
    Shades s (l.foldl grayPush s) ∧ ∀ r ∈ l, r ∈ shaded (l.foldl grayPush s).heap := by
  induction l generalizing s with
  | nil => exact ⟨.refl s, by simp⟩
  | cons r l ih =>
    obtain ⟨hfirst, hrest⟩ := List.forall_mem_cons.1 hl
    obtain ⟨h₁, hr⟩ := grayPush_spec hfirst
    obtain ⟨h₂, hl⟩ := ih fun x hx => (freed_of_plain (h₁.plain x)).trans (hrest x hx)
    exact ⟨h₁.trans h₂, List.forall_mem_cons.2 ⟨h₂.mono hr, hl⟩⟩

/-- no svalue in a block refers to one that has been freed -/
def NoDangling (heap : Ref → Block) : Prop := ∀ r x, .ref x ∈ (heap r).items → (heap x).freed = false

/-! ## Freeing -/

/-- a property of every block, when one is replaced -/
theorem setBlock_forall {P : Ref → Block → Prop} {b : Block} (hr : P r b) (hother : ∀ x, x ≠ r → P x (s.heap x)) (x : Ref) :
    P x ((setBlock s r b).heap x) := by
  unfold setBlock
  dsimp only
  rw [Function.update_apply]
  split_ifs with hx
  · exact hx ▸ hr
  · exact hother x hx

theorem setBlock_self (s : State) (r : Ref) (b : Block) : (setBlock s r b).heap r = b := Function.update_self ..

/-- what assignments change: counts, and svalues in blocks, where those that come in are `new` -/
structure Changes (new : Ref → Val → Prop) (s s' : State) : Prop where
  block : ∀ r, (s'.heap r).kind = (s.heap r).kind ∧ (s'.heap r).color = (s.heap r).color ∧
    ∀ v ∈ (s'.heap r).items, v ∈ (s.heap r).items ∨ new r v
  gray : s'.grayList = s.grayList
  phase : s'.phase = s.phase
  marked : s'.marked = s.marked
  fault : s'.fault = false → s.fault = false

variable {new : Ref → Val → Prop}

theorem Changes.refl (new : Ref → Val → Prop) (s : State) : Changes new s s :=
  ⟨fun _ => ⟨rfl, rfl, fun _ => .inl⟩, rfl, rfl, rfl, id⟩

theorem Changes.trans {t u : State} (h : Changes new s t) (h' : Changes new t u) : Changes new s u where
  block := by
    intro r
    obtain ⟨hk, hc, hi⟩ := h.block r
    obtain ⟨hk', hc', hi'⟩ := h'.block r
    exact ⟨hk'.trans hk, hc'.trans hc, fun v hv => (hi' v hv).elim (hi v) .inr⟩
  gray := h'.gray.trans h.gray
  phase := h'.phase.trans h.phase
  marked := h'.marked.trans h.marked
  fault := h.fault ∘ h'.fault

theorem Changes.touch (s : State) (r : Ref) : Changes new s (touch s r) :=
  ⟨fun _ => ⟨rfl, rfl, fun _ => .inl⟩, rfl, rfl, rfl, fun h => (Bool.or_eq_false_iff.1 h).1⟩

theorem Changes.setBlock (s : State) {b : Block} (hk : b.kind = (s.heap r).kind) (hc : b.color = (s.heap r).color)
    (hi : ∀ v ∈ b.items, v ∈ (s.heap r).items ∨ new r v) : Changes new s (setBlock s r b) :=
  ⟨setBlock_forall (P := fun x b => b.kind = (s.heap x).kind ∧ b.color = (s.heap x).color ∧
      ∀ v ∈ b.items, v ∈ (s.heap x).items ∨ new x v) ⟨hk, hc, hi⟩ fun _ _ => ⟨rfl, rfl, fun _ => .inl⟩,
    rfl, rfl, rfl, id⟩

theorem Changes.store (s : State) (v : Val) (dest : Loc) :
    Changes (fun r w => w = v ∧ ∃ i, dest = .item r i) s (store s v dest) := by
  cases dest with
  | item r i =>
    refine (Changes.touch s r).trans (.setBlock _ rfl rfl fun w hw => ?_)
    exact (List.mem_or_eq_of_mem_set hw).imp_right fun h => ⟨h, i, rfl⟩
  | stack i | elsewhere i => exact ⟨fun _ => ⟨rfl, rfl, fun _ => .inl⟩, rfl, rfl, rfl, id⟩

/-- a new count -/
theorem Changes.count (s : State) (r : Ref) (n : ℕ) :
    Changes new s (Gc.setBlock (Gc.touch s r) r ((s.heap r).withRef n)) :=
  (Changes.touch s r).trans (.setBlock _ rfl rfl fun _ => .inl)

theorem Changes.retain (new : Ref → Val → Prop) (s : State) (v : Val) : Changes new s (retain s v) := by
  cases v with
  | other => exact .refl new s
  | ref r => exact .count s r _

theorem Changes.freeSvalues (fuel : ℕ) (l : List Val) : Changes new s (freeSvalues s fuel l) := by
  induction fuel generalizing s l with
  | zero =>
    unfold Gc.freeSvalues
    exact .refl new s
  | succ fuel ih =>
    match l with
    | [] => exact .refl new s
    | .other :: l => exact ih l
    | .ref r :: l =>
      unfold Gc.freeSvalues
      generalize decUshort (s.heap r).ref = n
      have hcount : Changes new s _ := .count s r n
      dsimp only
      split_ifs
      · exact hcount.trans (ih l)
      · exact hcount.trans ⟨fun _ => ⟨rfl, rfl, fun _ => .inl⟩, rfl, rfl, rfl, nofun⟩
      · refine hcount.trans (Changes.trans (.setBlock _ ?_ ?_ fun _ hv => absurd hv List.not_mem_nil) (ih _))
        all_goals rw [setBlock_self]; rfl

/-- a block that is deallocated takes its items out of the count -/
theorem itemCount_dead (s : State) {b : Block} (hb : b.items = (s.heap r).items) (hr : s.size ≤ r → b.items = []) :
    itemCount (setBlock s r b.dead) + b.items.length = itemCount s := by
  have hrest : ∀ x ∈ (Finset.range s.size).erase r,
      ((setBlock s r b.dead).heap x).items.length = (s.heap x).items.length := by
    intro x hx
    show (Function.update s.heap r b.dead x).items.length = _
    rw [Function.update_of_ne (Finset.ne_of_mem_erase hx)]
  have hself : ((setBlock s r b.dead).heap r).items.length = 0 := by rw [setBlock_self]; rfl
  have hsum : itemCount (setBlock s r b.dead) = ∑ x ∈ (Finset.range s.size).erase r, (s.heap x).items.length :=
    (Finset.sum_erase (Finset.range s.size) hself).symm.trans (Finset.sum_congr rfl hrest)
  rw [hsum, hb]
  by_cases hlt : r < s.size
  · exact Finset.sum_erase_add _ _ (Finset.mem_range.2 hlt)
  · rw [Finset.erase_eq_of_notMem (by simpa using hlt), ← hb, hr (not_lt.1 hlt)]
    rfl

/-- the fuel of `freeAt` is enough: with no blocks but those below `size`, more of it changes nothing -/
theorem freeSvalues_fuel {fuel : ℕ} {l : List Val} (hb : ∀ r, s.size ≤ r → (s.heap r).items = [])
    (h : itemCount s + l.length ≤ fuel) : freeSvalues s (fuel + 1) l = freeSvalues s fuel l := by
  induction fuel generalizing s l with
  | zero =>
    obtain rfl : l = [] := List.length_eq_zero_iff.1 (by omega)
    rfl
  | succ fuel ih =>
    match l with
    | [] => rfl
    | .other :: l => exact ih hb (by rw [List.length_cons] at h; omega)
    | .ref r :: l =>
      rw [List.length_cons] at h
      rw [freeSvalues, freeSvalues]
      generalize decUshort (s.heap r).ref = n
      obtain ⟨b, hb₁, hitems⟩ : ∃ b, (s.heap r).withRef n = b ∧ b.items = (s.heap r).items := ⟨_, rfl, rfl⟩
      rw [hb₁]
      obtain ⟨s₁, hs₁, hsize, hsame⟩ : ∃ s₁, setBlock (touch s r) r b = s₁ ∧ s₁.size = s.size ∧
          ∀ x, (s₁.heap x).items = (s.heap x).items :=
        ⟨_, rfl, rfl, setBlock_forall (P := fun x b => b.items = (s.heap x).items) hitems fun _ _ => rfl⟩
      have hcount : itemCount s₁ = itemCount s := by simp only [itemCount, hsize, hsame]
      have hb' : ∀ x, s₁.size ≤ x → (s₁.heap x).items = [] := fun x hx => (hsame x).trans (hb x (hsize ▸ hx))
      rw [hs₁]
      split_ifs
      · exact ih hb' (by omega)
      · rfl
      · have hsum := itemCount_dead s₁ (r := r) (hitems.trans (hsame r).symm) fun hr => hitems.trans (hb r (hsize ▸ hr))
        have hlen : (released b).length ≤ b.items.length := by
          unfold released
          split <;> simp
        refine ih (setBlock_forall (P := fun x b => s₁.size ≤ x → b.items = []) (fun _ => rfl) fun x _ => hb' x) ?_
        rw [List.length_append]
        omega

/-! ## The invariant -/

/-- blocks that the marker does not look into hold no references -/
def Leafy (heap : Ref → Block) : Prop := ∀ r, (heap r).kind.blind = true → ∀ v ∈ (heap r).items, v = .other

/-- a block that holds a reference is one that is scanned -/
theorem Leafy.scanned (h : Leafy heap) {x : Ref} (hx : .ref x ∈ (heap r).items) :
    (heap r).kind.pushed = true ∧ (heap r).kind.scanned = true := by
  have hblind : (heap r).kind.blind ≠ true := fun hb => nomatch h r hb _ hx
  simpa [Kind.blind] using hblind

/-- what holds of memory and the gray list at every moment of a run -/
structure Sound (s : State) : Prop where
  closed : Tricolor.Closed (Traced s.heap) (shaded s.heap) (pending s)
  leafy : Leafy s.heap
  live : GrayLive s
  dangling : NoDangling s.heap
  fault : s.fault = false

structure Inv (s : State) : Prop extends Sound s where
  quiet : s.phase ≠ .marking → s.grayList = []
  roots : s.phase = .marking → ∀ r ∈ s.marked, r ∈ shaded s.heap

theorem Sound.inPhase (h : Sound s) (phase : Phase) (marked : List Ref) :
    Sound { s with phase := phase, marked := marked } := ⟨h.closed, h.leafy, h.live, h.dangling, h.fault⟩

/-- other colours -/
theorem Sound.recolor (h : Sound s) (hplain : ∀ r, (s'.heap r).plain = (s.heap r).plain)
    (hclosed : Tricolor.Closed (Traced s.heap) (shaded s'.heap) (pending s')) (hlive : GrayLive s')
    (hfault : s'.fault = s.fault) : Sound s' where
  closed := traced_congr hplain ▸ hclosed
  leafy := by
    intro r hb v hv
    rw [kind_of_plain (hplain r)] at hb
    rw [items_of_plain (hplain r)] at hv
    exact h.leafy r hb v hv
  live := hlive
  dangling := by
    intro r x hx
    rw [items_of_plain (hplain r)] at hx
    rw [freed_of_plain (hplain x)]
    exact h.dangling r x hx
  fault := hfault.trans h.fault

/-- marking: as `Shades`, but a block may have been scanned -/
structure Marks (s s' : State) : Prop where
  sound : Sound s'
  mono : shaded s.heap ⊆ shaded s'.heap
  frame : s'.phase = s.phase ∧ s'.marked = s.marked

theorem Shades.marks (h : Shades s s') (hs : Sound s) : Marks s s' :=
  ⟨hs.recolor h.plain (hs.closed.shade h.mono h.gray h.new) (h.live hs.live) h.fault, h.mono, h.frame⟩

theorem Inv.marks (h : Inv s) (hm : Marks s s') (hq : s.phase = .marking ∨ s'.grayList = []) : Inv s' where
  toSound := hm.sound
  quiet := by
    intro hp
    rw [hm.frame.1] at hp
    exact hq.resolve_left hp
  roots := by
    intro hp r hr
    rw [hm.frame.1] at hp
    rw [hm.frame.2] at hr
    exact hm.mono (h.roots hp r hr)

/-! ## Marking keeps the invariant -/

/-- scanning a block shades all it holds -/
theorem markChildren_spec (r : Ref) (hleafy : Leafy s.heap) (hd : NoDangling s.heap) :
    Shades s (markChildren s r) ∧ ∀ b, Traced s.heap r b → b ∈ shaded (markChildren s r).heap := by
  have hseen : ∀ x ∈ (scannedItems (s.heap r)).filterMap (seen s.heap), (s.heap x).freed = false := by
    intro x hx
    obtain ⟨v, hv, hsome⟩ := List.mem_filterMap.1 hx
    have hitem : v ∈ (s.heap r).items := by
      unfold scannedItems at hv
      split_ifs at hv
      · exact hv
      · cases hv
    exact hd r x (eq_ref_of_seen hsome ▸ hitem)
  obtain ⟨hs, hall⟩ := foldl_grayPush_spec _ hseen
  refine ⟨hs, ?_⟩
  intro b hb
  apply hall
  have hitems : scannedItems (s.heap r) = (s.heap r).items := if_pos (hleafy.scanned hb.1).2
  rw [hitems]
  exact List.mem_filterMap.2 ⟨_, hb.1, hb.2⟩

/-- one round of `gc_incremental_mark` -/
def scanOne (s : State) (r : Ref) (l : List Ref) : State :=
  let s' := markChildren (touch { s with grayList := l } r) r
  { s' with heap := setColor s'.heap r .black }

theorem Sound.scanOne (h : Sound s) {l : List Ref} (hg : s.grayList = r :: l) : Marks s (scanOne s r l) := by
  have hr : (s.heap r).freed = false := h.live r (hg ▸ .head _)
  have htouch : touch { s with grayList := l } r = { s with grayList := l } := touch_live hr
  obtain ⟨hs, hchild⟩ := markChildren_spec r (s := { s with grayList := l }) h.leafy h.dangling
  unfold Gc.scanOne
  rw [htouch]
  set t := markChildren { s with grayList := l } r with ht
  have hsh := mem_shaded_setColor t.heap r (c := .black) (by decide)
  have hplain (x : Ref) : (setColor t.heap r .black x).plain = (s.heap x).plain :=
    (setColor_plain t.heap r _ x).trans (hs.plain x)
  refine ⟨h.recolor hplain ?_ ?_ hs.fault, fun x hx => (hsh x).2 (.inl (hs.mono hx)), hs.frame⟩
  · show Tricolor.Closed (Traced s.heap) (shaded (setColor t.heap r .black)) (pending t)
    -- first the pushes, with `r` still pending; then `r` is done
    have hpush : Tricolor.Closed (Traced s.heap) (shaded t.heap) ({r} ∪ pending t) := by
      apply h.closed.shade hs.mono
      · intro x hx
        have hx' : x ∈ r :: l := hg ▸ hx
        rcases List.mem_cons.1 hx' with rfl | hx'
        · exact .inl rfl
        · exact .inr (hs.gray hx')
      · intro x hx hnot
        exact .inr (hs.new x hx hnot)
    apply hpush.scan
    · intro x hx
      exact (hsh x).2 (.inl hx)
    · intro x hx
      exact (hsh x).1 hx
    · intro b hb
      exact (hsh b).2 (.inl (hchild b hb))
    · intro x hx
      exact hx
  · intro x hx
    have hrest := hs.live (fun y hy => h.live y (hg ▸ .tail _ hy)) x hx
    exact (freed_of_plain (setColor_plain t.heap r .black x)).trans hrest

theorem Sound.incrementalMark (h : Sound s) (n : ℕ) : Marks s (incrementalMark s n) := by
  induction n generalizing s with
  | zero => exact (Shades.refl s).marks h
  | succ n ih =>
    cases hg : s.grayList with
    | nil =>
      have heq : Gc.incrementalMark s (n + 1) = s := by rw [Gc.incrementalMark, hg]
      rw [heq]
      exact (Shades.refl s).marks h
    | cons r l =>
      have heq : Gc.incrementalMark s (n + 1) = Gc.incrementalMark (Gc.scanOne s r l) n := by
        rw [Gc.incrementalMark, hg]; rfl
      have h₁ := h.scanOne hg
      have h₂ := ih h₁.sound
      rw [heq]
      exact ⟨h₂.sound, h₁.mono.trans h₂.mono, h₂.frame.1.trans h₁.frame.1, h₂.frame.2.trans h₁.frame.2⟩

theorem Inv.gcTick (h : Inv s) (n : ℕ)
    (hroots : s.phase = .idle → ∀ r ∈ rootRefs s.heap s.roots, (s.heap r).freed = false) :
    Inv (gcTick s n) := by
  unfold Gc.gcTick
  cases hp : s.phase with
  | idle =>
    have hgray := h.quiet (by simp [hp])
    have hstart : ({ s with grayList := [] } : State) = s := by rw [← hgray]
    obtain ⟨hs, hmarked⟩ := foldl_grayPush_spec (rootRefs s.heap s.roots) (hroots hp)
    dsimp only
    unfold beginCycle
    rw [hstart]
    exact ⟨(hs.marks h.toSound).sound.inPhase _ _, fun hne => absurd rfl hne, fun _ => hmarked⟩
  | marking =>
    have hm := h.toSound.incrementalMark n
    dsimp only
    split_ifs with hempty
    · exact ⟨hm.sound.inPhase _ _, fun _ => hempty, nofun⟩
    · exact h.marks hm (.inl hp)
  | sweeping =>
    exact ⟨h.toSound.inPhase _ _, fun _ => h.quiet (by simp [hp]), nofun⟩

/-! ## Assignments -/

/-- what an assignment keeps anyway -/
theorem Inv.changes (h : Inv s) (hc : Changes new s s')
    (hnew : ∀ r w, new r w → ((s.heap r).kind.blind = true → w = .other) ∧
      (r ∈ shaded s.heap → ∀ x, seen s.heap w = some x → x ∈ shaded s.heap))
    (hlive : GrayLive s') (hd : NoDangling s'.heap) (hfault : s'.fault = false) : Inv s' := by
  have hshaded : shaded s'.heap = shaded s.heap := by
    ext x
    rw [mem_shaded, mem_shaded, (hc.block x).2.1]
  have hseen := seen_congr fun x => (hc.block x).1
  have hpending : pending s' = pending s := by rw [pending, pending, hc.gray]
  refine ⟨⟨?_, ?_, hlive, hd, hfault⟩, ?_, ?_⟩
  · rw [hshaded, hpending]
    refine h.closed.store fun a b hab => ?_
    have hb := (hseen _).symm.trans hab.2
    exact ((hc.block a).2.2 _ hab.1).imp (fun hold => ⟨hold, hb⟩) fun hin ha => (hnew a _ hin).2 ha b hb
  · intro r hb v hv
    obtain ⟨hkind, -, hitems⟩ := hc.block r
    rw [hkind] at hb
    exact (hitems v hv).elim (h.leafy r hb v) fun hin => (hnew r v hin).1 hb
  · rw [hc.phase, hc.gray]
    exact h.quiet
  · rw [hc.phase, hc.marked, hshaded]
    exact h.roots

/-- The condition on an assignment of `v`. What it frees first is no block that is on the gray list, that is referred to
elsewhere (the counts are right) or that it still needs, and no object that is not destructed. Nothing but plain values
goes into a block that the marker does not look into; and with an empty gray list, no white block goes into a block that
is not white. -/
structure AssignOk (s : State) (dest : Loc) (v : Val) : Prop where
  freed : (freeAt s dest).fault = false
  gray : ∀ r ∈ s.grayList, ((freeAt s dest).heap r).freed = false
  dangling : NoDangling (freeAt s dest).heap
  value : ∀ x, v = .ref x → ((freeAt s dest).heap x).freed = false
  place : ∀ r i, dest = .item r i → ((freeAt s dest).heap r).freed = false
  blind : ∀ r i, dest = .item r i → (s.heap r).kind.blind = true → v = .other
  white : ∀ r i, dest = .item r i → s.grayList = [] → r ∈ shaded s.heap → ∀ x, seen s.heap v = some x → x ∈ shaded s.heap

theorem Changes.freeAt (s : State) (dest : Loc) : Changes (fun _ w => w = .other) s (freeAt s dest) := by
  have hstore := Changes.store s .other dest
  refine Changes.trans ⟨fun r => ?_, hstore.gray, hstore.phase, hstore.marked, hstore.fault⟩ (.freeSvalues _ _)
  obtain ⟨hk, hcol, hi⟩ := hstore.block r
  exact ⟨hk, hcol, fun w hw => (hi w hw).imp_right And.left⟩

theorem Inv.freeing (h : Inv s) {dest : Loc} (hok : AssignOk s dest v) : Inv (freeAt s dest) := by
  have hc := Changes.freeAt s dest
  refine h.changes hc ?_ ?_ hok.dangling hok.freed
  · rintro r w rfl
    exact ⟨fun _ => rfl, nofun⟩
  · intro r hr
    rw [hc.gray] at hr
    exact hok.gray r hr

theorem barrier_spec (hv : ∀ x, v = .ref x → (s.heap x).freed = false) :
    Shades s (barrier s v) ∧ (s.grayList ≠ [] → ∀ x, seen s.heap v = some x → x ∈ shaded (barrier s v).heap) := by
  unfold barrier
  split_ifs with hg
  · have hseen : ∀ x ∈ (seen s.heap v).toList, (s.heap x).freed = false := by
      intro x hx
      exact hv x (eq_ref_of_seen (Option.mem_toList.1 hx))
    obtain ⟨hs, hall⟩ := foldl_grayPush_spec _ hseen
    refine ⟨hs, ?_⟩
    intro _ x hx
    exact hall x (by simp [hx])
  · exact ⟨.refl s, fun hne => absurd hne hg⟩

theorem barrier_gray (hg : s.grayList = []) (v : Val) : barrier s v = s := if_neg (by simpa using hg)

theorem freed_store (s : State) (v : Val) (dest : Loc) (x : Ref) : ((store s v dest).heap x).freed = (s.heap x).freed := by
  cases dest with
  | item r i =>
    exact setBlock_forall (s := touch s r) (P := fun x b => b.freed = (s.heap x).freed) (by rfl) (fun _ _ => rfl) x
  | stack i | elsewhere i => rfl

theorem freed_retain (s : State) (v : Val) (x : Ref) : ((retain s v).heap x).freed = (s.heap x).freed := by
  cases v with
  | other => rfl
  | ref r =>
    unfold retain
    exact setBlock_forall (s := touch s r) (P := fun x b => b.freed = (s.heap x).freed) (by rfl) (fun _ _ => rfl) x

theorem sound_assignSvalueNoFree {t : State} {dest : Loc} (ht : t.fault = false)
    (hv : ∀ x, v = .ref x → (t.heap x).freed = false) (hdest : ∀ r i, dest = .item r i → (t.heap r).freed = false) :
    (retain (store t v dest) v).fault = false := by
  have hstore : (store t v dest).fault = false := by
    cases dest with
    | item r i =>
      show (touch t r).fault = false
      rw [touch_live (hdest r i rfl)]
      exact ht
    | stack i | elsewhere i => exact ht
  cases v with
  | other => exact hstore
  | ref x =>
    show (touch (store t (.ref x) dest) x).fault = false
    rw [touch_live ((freed_store t _ dest x).trans (hv x rfl))]
    exact hstore

theorem Inv.assignSvalue (h : Inv s) {dest : Loc} (hok : AssignOk s dest v) : Inv (assignSvalue s dest v) := by
  have hfree := h.freeing hok
  have hc := Changes.freeAt s dest
  obtain ⟨hs, hshade⟩ := barrier_spec (s := freeAt s dest) (v := v) hok.value
  have hb : Inv (barrier (freeAt s dest) v) := by
    by_cases hg : (freeAt s dest).grayList = []
    · rw [barrier_gray hg]
      exact hfree
    · apply hfree.marks (hs.marks hfree.toSound)
      by_contra hnot
      push Not at hnot
      exact hg (hfree.quiet hnot.1)
  have hfreed (x : Ref) : ((barrier (freeAt s dest) v).heap x).freed = ((freeAt s dest).heap x).freed :=
    freed_of_plain (hs.plain x)
  have hvalue : ∀ x, v = .ref x → ((barrier (freeAt s dest) v).heap x).freed = false := by
    intro x hx
    rw [hfreed]
    exact hok.value x hx
  have hc' := (Changes.store (barrier (freeAt s dest) v) v dest).trans (.retain _ _ v)
  unfold Gc.assignSvalue assignSvalueNoFree
  refine hb.changes hc' ?_ ?_ ?_ ?_
  · rintro r w ⟨rfl, i, rfl⟩
    rw [kind_of_plain (hs.plain r), (hc.block r).1]
    refine ⟨hok.blind r i rfl, fun hr x hx => ?_⟩
    rw [seen_congr fun y => kind_of_plain (hs.plain y)] at hx
    by_cases hg : (freeAt s (.item r i)).grayList = []
    · rw [barrier_gray hg, mem_shaded, (hc.block _).2.1] at hr ⊢
      rw [seen_congr fun y => (hc.block y).1] at hx
      exact hok.white r i rfl (hc.gray ▸ hg) hr x hx
    · exact hshade hg x hx
  · intro x hx
    rw [freed_retain, freed_store]
    refine hb.live x ?_
    rwa [hc'.gray] at hx
  · intro r x hx
    rw [freed_retain, freed_store]
    rcases (hc'.block r).2.2 _ hx with hold | ⟨heq, -⟩
    · exact hb.dangling r x hold
    · exact hvalue x heq.symm
  · exact sound_assignSvalueNoFree hb.fault hvalue fun r i hdest => (hfreed r).trans (hok.place r i hdest)

/-! ## Runs -/

/-- what a step needs: roots that have not been deallocated when a cycle begins, and the condition on assignments -/
def StepOk (s : State) : Act → Prop
  | .tick _ => s.phase = .idle → ∀ r ∈ rootRefs s.heap s.roots, (s.heap r).freed = false
  | .assign dest v => AssignOk s dest v
  | .roots _ _ => True

/-- every step of the run meets the condition -/
def RunOk : State → List Act → Prop
  | _, [] => True
  | s, a :: as => StepOk s a ∧ RunOk (step s a) as

/-- before the first cycle: all memory is white, blocks that the marker does not look into hold no references, and no
reference is to freed memory -/
structure Start (s : State) : Prop where
  white : ∀ r, (s.heap r).color = .white
  leafy : Leafy s.heap
  idle : s.phase = .idle
  gray : s.grayList = []
  dangling : NoDangling s.heap
  fault : s.fault = false

theorem Start.inv (h : Start s) : Inv s where
  closed := fun a ha => absurd (h.white a) ha
  leafy := h.leafy
  quiet := fun _ => h.gray
  roots := fun hp => by rw [h.idle] at hp; cases hp
  live := by
    intro r hr
    rw [h.gray] at hr
    cases hr
  dangling := h.dangling
  fault := h.fault

theorem Inv.step (h : Inv s) {a : Act} (hok : StepOk s a) : Inv (step s a) := by
  cases a with
  | tick n => exact h.gcTick n hok
  | assign dest v => exact h.assignSvalue hok
  | roots roots ref =>
    have hc : Changes (fun _ _ => False) s (Gc.step s (.roots roots ref)) :=
      ⟨fun _ => ⟨rfl, rfl, fun _ => .inl⟩, rfl, rfl, rfl, id⟩
    exact h.changes hc nofun h.live h.dangling h.fault

theorem Inv.run (h : Inv s) {as : List Act} (hok : RunOk s as) : Inv (run s as) := by
  induction as generalizing s with
  | nil => exact h
  | cons a as ih => exact ih (h.step hok.1) hok.2

/-- every array and mapping that can be reached from the marked roots is not white -/
def AllMarked (s : State) : Prop :=
  ∀ r ∈ s.marked, ∀ x, Relation.ReflTransGen (Points s.heap) r x →
    (s.heap x).kind = .array ∨ (s.heap x).kind = .mapping → (s.heap x).color ≠ .white

/-- a path to a block that the marker pushes is a path the marker follows: a block on the way holds a reference -/
theorem traced_of_points (hl : Leafy heap) {a b : Ref}
    (hab : Relation.ReflTransGen (Points heap) a b) (hb : (heap b).kind.pushed = true) :
    Relation.ReflTransGen (Traced heap) a b := by
  induction hab with
  | refl => exact .refl
  | tail _ hmb ih => exact (ih (hl.scanned hmb).1).tail ⟨hmb, if_pos hb⟩

/-- an object (0) that holds two arrays (1 and 3); the first of them is in the second as well, and held elsewhere, as is
a mapping (2) -/
def small : State where
  heap
    | 0 => ⟨.object false true, [.ref 1, .ref 3], .white, 1, false, false⟩
    | 1 => ⟨.array, [.other], .white, 3, false, false⟩
    | 2 => ⟨.mapping, [], .white, 1, false, false⟩
    | 3 => ⟨.array, [.ref 1], .white, 1, false, false⟩
    | _ => ⟨.array, [], .white, 0, false, false⟩
  size := 4
  grayList := []
  phase := .idle
  roots := ⟨[0], none, [], [], []⟩
  marked := []
  fault := false

theorem small_start : Start small where
  white := by
    intro r
    match r with
    | 0 | 1 | 2 | 3 | n + 4 => rfl
  leafy := by
    intro r hb v hv
    match r with
    | 0 | 1 | 2 | 3 | n + 4 => cases hb
  idle := rfl
  gray := rfl
  dangling := by
    intro r x hx
    match x with
    | 0 | 1 | 2 | 3 | n + 4 => rfl
  fault := rfl

/-- the second array is overwritten and freed before it is marked; the mapping is assigned to a variable of the object
after the object was scanned, in the place of an array that is gray and held elsewhere -/
def smallRun : List Act := [.tick 0, .assign (.item 0 1) .other, .tick 1, .assign (.item 0 0) (.ref 2)]

/-- an object (0) that holds a class instance (2) that holds an array (1) -/
def classy : State where
  heap
    | 0 => ⟨.object false true, [.ref 2], .white, 1, false, false⟩
    | 1 => ⟨.array, [], .white, 1, false, false⟩
    | _ => ⟨.classInstance, [.ref 1], .white, 1, false, false⟩
  size := 3
  grayList := []
  phase := .idle
  roots := ⟨[0], none, [], [], []⟩
  marked := []
  fault := false

end Lithos.Lpc.Gc
