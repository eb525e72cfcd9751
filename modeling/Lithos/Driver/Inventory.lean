/-
Moving and destructing objects (`move_object` and `destruct_object` in `src/simulate.c`).

Objects form trees: `super` is an object's environment, `contains` its first inventory object and `next_inv` the next
object in the same inventory. Both functions run LPC code on the way: `move_object` calls `init` in the objects that meet,
`destruct_object` calls `move_or_destruct` in the inventory, saves the editor buffer and reloads a vital object. That code
may move and destruct objects itself, and an error in it may end any number of calls.

The model is a machine with a stack of the calls in progress, each with the point it has reached. A step is a call made by
LPC code, the next piece of the innermost call, an error, or one of the other things LPC code does to an object.

Results:
* `inventory_forest`: in every run in which nothing is moved into an object after its inventory was emptied, no object is
  moved while its replacement is loaded, and no error leaves the reload of an object that has an environment, the objects
  form trees whenever no call is in progress;
* `moved_in_while_saving`: an object moved in while the editor buffer is saved keeps a destructed environment; an error in
  the reload leaves the master object in an environment that does not list it.
-/
import Lithos.Core.Siblings

namespace Lithos.Driver.Inventory

open Lithos.Core.Siblings List Option Function

/-! ## Objects -/

/-- the objects, numbered in the order of their creation, with the fields of `object_t` the two functions use; `links` has
`super`, `contains` and `next_inv` -/
structure World where
  size : ℕ
  links : Links ℕ
  destructed : ℕ → Bool
  enableCommands : ℕ → Bool
  inEdit : ℕ → Bool
  masterOb : Option ℕ
  simulEfunOb : Option ℕ
  restrictDestruct : Option ℕ
  vitalDestructGuard : Option ℕ
  shutdown : Bool

namespace World

def «super» (w : World) : ℕ → Option ℕ := w.links.parent

def contains (w : World) : ℕ → Option ℕ := w.links.first

def nextInv (w : World) : ℕ → Option ℕ := w.links.next

/-- the driver before it has loaded anything -/
def empty : World where
  size := 0
  links := ⟨fun _ => none, fun _ => none, fun _ => none⟩
  destructed := fun _ => false
  enableCommands := fun _ => false
  inEdit := fun _ => false
  masterOb := none
  simulEfunOb := none
  restrictDestruct := none
  vitalDestructGuard := none
  shutdown := false

/-- take an object out of the inventory list of its environment; its `super` stays -/
def unlink (w : World) (ob : ℕ) : Option World :=
  match w.super ob with
  | none => some w
  | some env => (w.links.unlinkFrom ob (w.size + 1) (.first env)).map fun links => { w with links := links }

/-- `item->super = dest`, and `item` in front of the inventory of `dest` -/
def link (w : World) (item : ℕ) : Option ℕ → World
  | some dest => { w with links := w.links.push item dest }
  | none =>
    { w with links := { w.links with parent := update w.links.parent item none,
                                     next := update w.links.next item none } }

/-- the end of `destruct_object` -/
def detach (w : World) (ob : ℕ) : World :=
  { w with
    links :=
      { parent := update w.links.parent ob none
        first := update w.links.first ob none
        next := update w.links.next ob none }
    enableCommands := update w.enableCommands ob false
    destructed := update w.destructed ob true }

/-- a new object -/
def create (w : World) : World := { w with size := w.size + 1 }

def isVital (w : World) (ob : ℕ) : Bool := w.masterOb == some ob || w.simulEfunOb == some ob

/-- `set_master` or `set_simul_efun` in place of a vital object -/
def setVital (w : World) (ob : ℕ) (new : Option ℕ) : World :=
  if w.masterOb == some ob then { w with masterOb := new, vitalDestructGuard := none }
  else if w.simulEfunOb == some ob then { w with simulEfunOb := new, vitalDestructGuard := none }
  else { w with vitalDestructGuard := none }

end World

/-! ## Calls in progress -/

/-- the points of `move_object` behind its move -/
inductive MovePc where
  /-- `init` of the destination is running -/
  | initDest
  /-- the loop over the objects present is at `ob` -/
  | loop (ob : Option ℕ)
  /-- `init` of the item is running for `ob`; the loop goes on at `next` -/
  | initItem (ob : ℕ) (next : Option ℕ)
  /-- the item's own commands for `ob` come next -/
  | forItem (ob : ℕ) (next : Option ℕ)
  /-- `init` of an object present is running for the item -/
  | initOb (next : Option ℕ)
  /-- the loop is over -/
  | last
  /-- `init` of the item is running for the destination -/
  | initLast
  deriving DecidableEq

/-- the points of `destruct_object` -/
inductive DestructPc where
  /-- the loop that empties the inventory -/
  | evict
  /-- `move_or_destruct` of `otmp` is running -/
  | evicting (otmp : ℕ)
  /-- `otmp` is destructed next -/
  | destructing (otmp : ℕ)
  /-- the editor comes next -/
  | edit
  /-- the editor buffer is being saved -/
  | saving
  /-- the object leaves its environment next -/
  | unlink
  /-- a vital object is replaced next -/
  | vital
  /-- the replacement of a vital object is being loaded -/
  | reloading
  /-- the object is detached next -/
  | detach
  deriving DecidableEq

/-- a call in progress; a destruction keeps the value of `restrict_destruct` at its start -/
inductive Frame where
  | move (item dest : ℕ) (pc : MovePc)
  | destruct (ob : ℕ) (saveRestrict : Option ℕ) (pc : DestructPc)
  deriving DecidableEq

/-- LPC code is running for the call -/
def Frame.waiting : Frame → Bool
  | .move _ _ .initDest => true
  | .move _ _ (.initItem _ _) => true
  | .move _ _ (.initOb _) => true
  | .move _ _ .initLast => true
  | .destruct _ _ (.evicting _) => true
  | .destruct _ _ .saving => true
  | .destruct _ _ .reloading => true
  | _ => false

/-- how a piece of a call ends -/
inductive Outcome where
  /-- a loop over a list does not end -/
  | stuck
  /-- an error is raised -/
  | raise
  /-- the call returns -/
  | ret (w : World)
  /-- the call goes on at `f` -/
  | goto (w : World) (f : Frame)
  /-- the call goes on at `f` behind a call of its own -/
  | call (w : World) (f g : Frame)

/-- `move_object` up to the first `init` -/
def moveObject (w : World) (item dest : ℕ) : Outcome :=
  match climb w.super item (w.size + 1) (some dest) with
  | none => .stuck
  | some true => .raise
  | some false =>
    if w.destructed dest then .raise
    else
      match w.unlink item with
      | none => .stuck
      | some w =>
        let w := w.link item (some dest)
        if w.enableCommands item then .goto w (.move item dest .initDest)
        else .goto w (.move item dest (.loop (w.contains dest)))

/-- `move_object` at one of its later points -/
def moveOn (w : World) (item dest : ℕ) : MovePc → Outcome
  | .initDest =>
    if w.destructed dest || w.super item != some dest then .ret w
    else .goto w (.move item dest (.loop (w.contains dest)))
  | .loop none => .goto w (.move item dest .last)
  | .loop (some ob) =>
    if ob = item then .goto w (.move item dest (.loop (w.nextInv ob)))
    else if w.destructed ob then .raise
    else if w.enableCommands ob then .goto w (.move item dest (.initItem ob (w.nextInv ob)))
    else .goto w (.move item dest (.forItem ob (w.nextInv ob)))
  | .initItem ob next =>
    if w.super item != some dest then .ret w else .goto w (.move item dest (.forItem ob next))
  | .forItem _ next =>
    if w.destructed item then .raise
    else if w.enableCommands item then .goto w (.move item dest (.initOb next))
    else .goto w (.move item dest (.loop next))
  | .initOb next =>
    if w.super item != some dest then .ret w else .goto w (.move item dest (.loop next))
  | .last =>
    if w.destructed dest then .raise
    else if w.enableCommands dest then .goto w (.move item dest .initLast)
    else .ret w
  | .initLast => .ret w

/-- `destruct_object` up to the loop over the inventory -/
def destructObject (w : World) (ob : ℕ) : Outcome :=
  if w.restrictDestruct ≠ none ∧ w.restrictDestruct ≠ some ob then .raise
  else if w.simulEfunOb = some ob ∧ w.masterOb ≠ none then .raise
  else if w.destructed ob then .ret w
  else .goto w (.destruct ob w.restrictDestruct .evict)

/-- `destruct_object` at one of its later points -/
def destructOn (w : World) (ob : ℕ) (save : Option ℕ) : DestructPc → Outcome
  | .evict =>
    match w.contains ob with
    | none => .goto w (.destruct ob save .edit)
    | some otmp =>
      if w.shutdown then
        -- `move_object (otmp, NULL)` runs no LPC code
        match w.unlink otmp with
        | none => .stuck
        | some w => .goto (w.link otmp none) (.destruct ob save (.destructing otmp))
      else .goto { w with restrictDestruct := some otmp } (.destruct ob save (.evicting otmp))
  | .evicting otmp =>
    let w := { w with restrictDestruct := save }
    if w.destructed ob then .ret w
    else if w.contains ob = some otmp then .goto w (.destruct ob save (.destructing otmp))
    else .goto w (.destruct ob save .evict)
  | .destructing otmp =>
    match destructObject w otmp with
    | .goto w g => .call w (.destruct ob save .evict) g
    | .ret w => .goto w (.destruct ob save .evict)
    | o => o
  | .edit =>
    if w.inEdit ob then .goto w (.destruct ob save .saving) else .goto w (.destruct ob save .unlink)
  | .saving => .goto { w with inEdit := update w.inEdit ob false } (.destruct ob save .unlink)
  | .unlink =>
    match w.unlink ob with
    | none => .stuck
    | some w => .goto w (.destruct ob save .vital)
  | .vital =>
    if w.isVital ob then
      if w.vitalDestructGuard ≠ none then .raise
      else if w.shutdown then .goto (w.setVital ob none) (.destruct ob save .detach)
      else .goto { w with vitalDestructGuard := some ob } (.destruct ob save .reloading)
    else .goto w (.destruct ob save .detach)
  | .reloading => .stuck
  | .detach => .ret (w.detach ob)

/-- the next piece of a call -/
def advance (w : World) : Frame → Outcome
  | .move item dest pc => moveOn w item dest pc
  | .destruct ob save pc => destructOn w ob save pc

/-! ## Runs -/

/-- the driver with the calls in progress, the innermost first -/
structure State where
  world : World
  stack : List Frame

def State.init : State := ⟨World.empty, []⟩

/-- what can happen next -/
inductive Event where
  /-- LPC code calls `move_object (dest)` in `item` -/
  | move (item dest : ℕ)
  /-- LPC code or the driver calls `destruct_object (ob)` -/
  | destruct (ob : ℕ)
  /-- the innermost call goes on; the LPC code it waits for has returned -/
  | go
  /-- the replacement of a vital object has been loaded -/
  | loaded (new : ℕ)
  /-- an error ends the innermost `k` calls -/
  | raise (k : ℕ)
  /-- an object is created -/
  | create
  | setCommands (ob : ℕ) (b : Bool)
  | setEdit (ob : ℕ) (b : Bool)
  | setVitals (master simul : Option ℕ)
  | shutdown
  deriving DecidableEq

/-- LPC code can run: no call is in progress, or the innermost one waits for LPC code -/
def State.lpcRuns (s : State) : Bool :=
  match s.stack with
  | [] => true
  | f :: _ => f.waiting

/-- the state after a piece of the call `f`, with the other calls `fs` -/
def Outcome.next (fs : List Frame) : Outcome → Option State
  | .stuck => none
  | .raise => none
  | .ret w => some ⟨w, fs⟩
  | .goto w f => some ⟨w, f :: fs⟩
  | .call w f g => some ⟨w, g :: f :: fs⟩

def Outcome.isRaise : Outcome → Bool
  | .raise => true
  | _ => false

/-- the innermost call raises an error next, or the LPC code it waits for can -/
def State.mayRaise (s : State) : Bool :=
  match s.stack with
  | [] => true
  | f :: _ => f.waiting || (advance s.world f).isRaise

def Frame.isReloading : Frame → Bool
  | .destruct _ _ .reloading => true
  | _ => false

/-- an error ends calls; `error_handler` lifts the restriction of `move_or_destruct`, and the handler that
`destruct_object` left on the value stack takes the guard away with a reload that ends -/
def State.unwind (s : State) (k : ℕ) : State :=
  { world :=
      { s.world with
        restrictDestruct := none
        vitalDestructGuard :=
          if (s.stack.take k).any Frame.isReloading then none else s.world.vitalDestructGuard }
    stack := s.stack.drop k }

def step (s : State) : Event → Option State
  | .move item dest =>
    if s.lpcRuns && decide (item < s.world.size) && decide (dest < s.world.size) && !s.world.destructed item then
      (moveObject s.world item dest).next s.stack
    else none
  | .destruct ob =>
    if s.lpcRuns && decide (ob < s.world.size) then (destructObject s.world ob).next s.stack else none
  | .go =>
    match s.stack with
    | [] => none
    | f :: fs => (advance s.world f).next fs
  | .loaded new =>
    match s.stack with
    | .destruct ob save .reloading :: fs =>
      if new < s.world.size then some ⟨s.world.setVital ob (some new), .destruct ob save .detach :: fs⟩ else none
    | _ => none
  | .raise k =>
    -- the code that goes on after the error is LPC code with a catch, or the driver itself
    if s.mayRaise && decide (k ≤ s.stack.length) && (s.unwind k).lpcRuns then some (s.unwind k) else none
  | .create => if s.lpcRuns then some { s with world := s.world.create } else none
  | .setCommands ob b =>
    if s.lpcRuns && decide (ob < s.world.size) && !s.world.destructed ob then
      some { s with world := { s.world with enableCommands := update s.world.enableCommands ob b } }
    else none
  | .setEdit ob b =>
    if s.lpcRuns then some { s with world := { s.world with inEdit := update s.world.inEdit ob b } } else none
  | .setVitals master simul =>
    if s.lpcRuns then some { s with world := { s.world with masterOb := master, simulEfunOb := simul } } else none
  | .shutdown => if s.lpcRuns then some { s with world := { s.world with shutdown := true } } else none

/-- a run of the driver -/
def run : State → List Event → Option State
  | s, [] => some s
  | s, e :: es => (step s e).bind fun s' => run s' es

/-! ## Trees -/

/-- the objects are trees: every live object is in the inventory list of its environment exactly once and in no other, no
destructed object is in a list or is the environment of a live object, and no object is inside itself -/
structure Forest (w : World) : Prop where
  lists : ∀ e, ∃ l, Chain w.nextInv (w.contains e) l ∧
    ∀ x, l.count x = if x < w.size ∧ w.destructed x = false ∧ w.super x = some e then 1 else 0
  live : ∀ x e, x < w.size → w.destructed x = false → w.super x = some e → w.destructed e = false
  acyclic : ∀ x, ¬ Relation.TransGen (fun a b => w.super a = some b) x x

/-- the object of a destruction that has taken it out of its environment's list -/
def Frame.unlinked : Frame → Option ℕ
  | .destruct ob _ .vital => some ob
  | .destruct ob _ .reloading => some ob
  | .destruct ob _ .detach => some ob
  | _ => none

/-- the object of a destruction that has emptied its inventory -/
def Frame.emptied : Frame → Option ℕ
  | .destruct ob _ .edit => some ob
  | .destruct ob _ .saving => some ob
  | .destruct ob _ .unlink => some ob
  | f => f.unlinked

/-- the steps that keep the trees: nothing is moved into an emptied object, no unlinked object is moved, and an error ends
no destruction of an unlinked object that has an environment -/
def Clean (s : State) : Event → Prop
  | .move item dest => (∀ f ∈ s.stack, f.emptied ≠ some dest) ∧ ∀ f ∈ s.stack, f.unlinked ≠ some item
  | .raise k => ∀ f ∈ s.stack.take k, ∀ x ∈ f.unlinked, s.world.super x = none
  | _ => True

instance (s : State) (e : Event) : Decidable (Clean s e) := by
  cases e <;> unfold Clean <;> infer_instance

/-- a run whose steps all keep the trees -/
def CleanRun : State → List Event → Prop
  | _, [] => True
  | s, e :: es => Clean s e ∧
    match step s e with
    | none => True
    | some s' => CleanRun s' es

instance decidableCleanRun : (s : State) → (es : List Event) → Decidable (CleanRun s es)
  | _, [] => isTrue trivial
  | s, e :: es => by
    unfold CleanRun
    cases step s e with
    | none => exact inferInstanceAs (Decidable (_ ∧ True))
    | some s' => exact @instDecidableAnd _ _ _ (decidableCleanRun s' es)

/-! ## The invariant -/

/-- an object is between leaving its environment's list and being detached -/
def Pending (stack : List Frame) (x : ℕ) : Prop := ∃ f ∈ stack, f.unlinked = some x

/-- `y` is in the inventory list of `e` -/
def Inside (w : World) (stack : List Frame) (y e : ℕ) : Prop := w.super y = some e ∧ ¬ Pending stack y

structure Inv (w : World) (stack : List Frame) : Prop where
  listed : Listed w.links (Inside w stack)
  dead : ∀ x, w.destructed x = true → w.super x = none
  bound : ∀ x e, w.super x = some e → x < w.size ∧ e < w.size
  live : ∀ x e, w.super x = some e → w.destructed e = false ∨ Pending stack x
  ranked : ∃ rank, Ranked w.super rank
  emptied : ∀ f ∈ stack, ∀ x, f.emptied = some x → ∀ y, ¬ Inside w stack y x

variable {w w' : World} {stack fs : List Frame} {f : Frame} {s s' : State} {x ob item dest : ℕ} {save : Option ℕ}
  {pc : DestructPc}

theorem inv_empty : Inv World.empty [] where
  listed := fun _ => ⟨[], .nil, fun _ => ⟨nofun, fun h => nomatch h.1⟩⟩
  dead := nofun
  bound := nofun
  live := nofun
  ranked := ⟨fun _ => 0, nofun⟩
  emptied := nofun

/-- with no call in progress the invariant says that the objects are trees -/
theorem Inv.forest (h : Inv w []) : Forest w := by
  have hpending : ∀ x, ¬ Pending [] x := fun x hx => by
    obtain ⟨f, hf, _⟩ := hx
    cases hf
  obtain ⟨rank, hrank⟩ := h.ranked
  refine ⟨fun e => ?_, fun x e _ _ hx => ?_, fun x => hrank.no_cycle x⟩
  · obtain ⟨l, hl, hmem⟩ := h.listed e
    refine ⟨l, hl, fun x => ?_⟩
    have hiff : x ∈ l ↔ x < w.size ∧ w.destructed x = false ∧ w.super x = some e := by
      rw [hmem x]
      refine ⟨fun hx => ⟨(h.bound x e hx.1).1, ?_, hx.1⟩, fun hx => ⟨hx.2.2, hpending x⟩⟩
      by_contra hdead
      have hnone := h.dead x (Bool.eq_true_of_not_eq_false hdead)
      exact absurd (hnone.symm.trans hx.1) (by simp)
    by_cases hx : x ∈ l
    · rw [if_pos (hiff.1 hx), count_eq_one_of_mem hl.nodup hx]
    · rw [if_neg fun hc => hx (hiff.2 hc), count_eq_zero_of_not_mem hx]
  · rcases h.live x e hx with hlive | hp
    · exact hlive
    · exact absurd hp (hpending x)

/-- a world with the same pointers and marks -/
structure Same (w w' : World) : Prop where
  links : w'.links = w.links
  destructed : w'.destructed = w.destructed
  size : w.size ≤ w'.size

section

variable (h : Inv w stack)
include h

/-- an object whose list starts with nothing has nothing inside -/
theorem Inv.not_inside_of_contains (hx : w.contains x = none) (y : ℕ) : ¬ Inside w stack y x := by
  obtain ⟨l, hl, hmem⟩ := h.listed x
  rw [← hmem y]
  have hfirst : w.links.first x = none := hx
  rw [hfirst] at hl
  cases hl
  exact not_mem_nil

/-- and the list of an object with nothing inside starts with nothing -/
theorem Inv.contains_of_not_inside (hx : ∀ y, ¬ Inside w stack y x) : w.contains x = none := by
  obtain ⟨l, hl, hmem⟩ := h.listed x
  show w.links.first x = none
  generalize w.links.first x = o at hl
  cases hl with
  | nil => rfl
  | @cons a l _ => exact absurd ((hmem a).1 mem_cons_self) (hx a)

/-- steps that give no object an environment -/
theorem Inv.shrink {stack' : List Frame} (hsize : w.size ≤ w'.size)
    (hlisted : Listed w'.links (Inside w' stack'))
    (hkept : ∀ x e, w'.super x = some e → w.super x = some e ∧ w'.destructed x = w.destructed x ∧
      (Pending stack x → Pending stack' x) ∧ (w'.destructed e = w.destructed e ∨ Pending stack' x))
    (hempty : ∀ f ∈ stack', ∀ x, f.emptied = some x → (∃ g ∈ stack, g.emptied = some x) ∨ w.contains x = none) :
    Inv w' stack' := by
  refine ⟨hlisted, fun x hx => ?_, fun x e hx => ?_, fun x e hx => ?_, ?_, fun f hf x hx y hy => ?_⟩
  · cases hs : w'.super x with
    | none => rfl
    | some e =>
      obtain ⟨hold, hdead, -⟩ := hkept x e hs
      exact nomatch (h.dead x (hdead ▸ hx)).symm.trans hold
  · exact (h.bound x e (hkept x e hx).1).imp (·.trans_le hsize) (·.trans_le hsize)
  · obtain ⟨hold, -, hpend, hdead | hp⟩ := hkept x e hx
    · exact hdead ▸ (h.live x e hold).imp_right hpend
    · exact .inr hp
  · obtain ⟨rank, hrank⟩ := h.ranked
    exact ⟨rank, hrank.mono fun x e hx => (hkept x e hx).1⟩
  · have hold : Inside w stack y x := ⟨(hkept y x hy.1).1, fun hp => hy.2 ((hkept y x hy.1).2.2.1 hp)⟩
    rcases hempty f hf x hx with ⟨g, hg, hgx⟩ | hnone
    · exact h.emptied g hg x hgx y hold
    · exact h.not_inside_of_contains hnone y hold

/-- steps that change no pointer and no mark -/
theorem Inv.of_same {stack' : List Frame} (hsame : Same w w')
    (hpend : ∀ x e, w.super x = some e → (Pending stack' x ↔ Pending stack x))
    (hempty : ∀ f ∈ stack', ∀ x, f.emptied = some x → (∃ g ∈ stack, g.emptied = some x) ∨ w.contains x = none) :
    Inv w' stack' := by
  have hsuper : w'.super = w.super := congrArg Links.parent hsame.links
  refine h.shrink hsame.size (hsame.links ▸ h.listed.congr fun y e => ?_) (fun x e hx => ?_) hempty
  · rw [Inside, Inside, hsuper]
    exact and_congr_right fun hy => not_congr (hpend y e hy).symm
  · rw [hsuper] at hx
    exact ⟨hx, congrFun hsame.destructed x, (hpend x e hx).2, .inl (congrFun hsame.destructed e)⟩

/-- the walk over an inventory ends, and takes the object out of its environment's list -/
theorem Inv.unlink (ob : ℕ) : ∃ links, w.unlink ob = some { w with links := links } ∧ links.parent = w.links.parent ∧
      Listed links (fun y e => Inside w stack y e ∧ y ≠ ob) := by
  cases hs : w.super ob with
  | none =>
    refine ⟨w.links, by simp only [World.unlink, hs], rfl, h.listed.congr fun y e => ?_⟩
    refine ⟨fun hy => ⟨hy, fun he => ?_⟩, fun hy => hy.1⟩
    rw [he] at hy
    exact absurd (hs.symm.trans hy.1) (by simp)
  | some env =>
    have hS : ∀ y e, Inside w stack y e → y ∈ Finset.range w.size :=
      fun y e hy => Finset.mem_range.2 (h.bound y e hy.1).1
    obtain ⟨links, hlinks, hparent, hlisted⟩ :=
      h.listed.unlink (fun _ _ _ h h' => some.inj (h.1.symm.trans h'.1)) ob env hS (n := w.size + 1)
        (by rw [Finset.card_range]; omega)
    refine ⟨links, by simp only [World.unlink, hs, hlinks, map_some], hparent, hlisted.congr fun y e => ?_⟩
    constructor
    · rintro ⟨hy, hne⟩
      refine ⟨hy, fun hyob => hne ⟨hyob, ?_⟩⟩
      subst hyob
      exact (some.inj (hs.symm.trans hy.1)).symm
    · rintro ⟨hy, hne⟩
      exact ⟨hy, fun hc => hne hc.1⟩

/-! ## What each step keeps -/

/-- a move out of every environment, or into a live object that is neither emptied nor inside the item -/
theorem Inv.relink {item : ℕ} {dest : Option ℕ} (hdest : ∀ e, dest = some e →
      item < w.size ∧ e < w.size ∧ w.destructed item = false ∧ w.destructed e = false ∧ ¬ Above w.super e item ∧
        (∀ f ∈ stack, f.emptied ≠ some e) ∧ ¬ Pending stack item)
    (hw' : w.unlink item = some w') : Inv (w'.link item dest) stack := by
  obtain ⟨links, hunlink, hparent, hlisted⟩ := h.unlink item
  obtain rfl : { w with links := links } = w' := some.inj (hunlink.symm.trans hw')
  obtain ⟨w₁, hw₁⟩ : ∃ w₁, w₁ = World.link { w with links := links } item dest := ⟨_, rfl⟩
  have hsuper : w₁.super = update w.super item dest := by
    show _ = update w.links.parent item dest
    rw [hw₁, ← hparent]
    cases dest <;> rfl
  have hsame : w₁.destructed = w.destructed ∧ w₁.size = w.size := by
    rw [hw₁]
    cases dest <;> exact ⟨rfl, rfl⟩
  have hcases : ∀ x e, w₁.super x = some e → x = item ∧ dest = some e ∨ x ≠ item ∧ w.super x = some e := by
    intro x e hx
    rw [hsuper] at hx
    by_cases hxi : x = item
    · subst hxi
      rw [update_self] at hx
      exact .inl ⟨rfl, hx⟩
    · rw [update_of_ne hxi] at hx
      exact .inr ⟨hxi, hx⟩
  have hinside : ∀ y e, Inside w₁ stack y e ↔ (Inside w stack y e ∧ y ≠ item) ∨ (y = item ∧ dest = some e) := by
    intro y e
    constructor
    · intro hy
      exact (hcases y e hy.1).symm.imp_left fun hs => ⟨⟨hs.2, hy.2⟩, hs.1⟩
    · rintro (⟨hy, hne⟩ | ⟨rfl, hd⟩)
      · exact ⟨by rw [hsuper, update_of_ne hne]; exact hy.1, hy.2⟩
      · exact ⟨by rw [hsuper, update_self, hd], (hdest e hd).2.2.2.2.2.2⟩
  rw [← hw₁]
  refine ⟨?_, ?_, ?_, ?_, ?_, ?_⟩
  · cases dest with
    | none =>
      have hkept : Listed w₁.links (fun y e => Inside w stack y e ∧ y ≠ item) := by
        rw [hw₁]
        refine hlisted.of_eq (fun _ => rfl) fun y hy => ?_
        obtain ⟨_, _, hne⟩ := hy
        exact update_of_ne hne _ _
      exact hkept.congr fun y e => by simp [hinside]
    | some d =>
      rw [hw₁] at hinside ⊢
      refine (hlisted.push (x := item) (p := d) fun e he => he.2 rfl).congr fun y e => ?_
      rw [hinside, some.injEq, eq_comm (a := d)]
  · rw [hsame.1]
    intro x hx
    cases hs : w₁.super x with
    | none => rfl
    | some e =>
      rcases hcases x e hs with ⟨rfl, hd⟩ | ⟨-, hs⟩
      · exact absurd ((hdest e hd).2.2.1.symm.trans hx) Bool.false_ne_true
      · exact nomatch (h.dead x hx).symm.trans hs
  · rw [hsame.2]
    intro x e hx
    rcases hcases x e hx with ⟨rfl, hd⟩ | ⟨-, hs⟩
    · exact ⟨(hdest e hd).1, (hdest e hd).2.1⟩
    · exact h.bound x e hs
  · rw [hsame.1]
    intro x e hx
    rcases hcases x e hx with ⟨-, hd⟩ | ⟨-, hs⟩
    · exact .inl (hdest e hd).2.2.2.1
    · exact h.live x e hs
  · obtain ⟨rank, hrank⟩ := h.ranked
    rw [hsuper]
    cases dest with
    | none =>
      refine ⟨rank, hrank.mono fun x e hx => ?_⟩
      exact ((hcases x e (hsuper ▸ hx)).resolve_left fun hd => nomatch hd.2).2
    | some d => exact hrank.link (hdest d rfl).2.2.2.2.1
  · intro f hf x hx y hy
    rcases (hinside y x).1 hy with hold | ⟨-, hd⟩
    · exact h.emptied f hf x hx y hold.1
    · exact (hdest x hd).2.2.2.2.2.1 f hf hx

end

theorem pending_cons {f : Frame} {x : ℕ} : Pending (f :: stack) x ↔ f.unlinked = some x ∨ Pending stack x := by
  simp [Pending]

/-- an object leaves the list of its environment and is pending from then on -/
theorem Inv.leave (h : Inv w (.destruct ob save .unlink :: stack))
    (hw' : w.unlink ob = some w') : Inv w' (.destruct ob save .vital :: stack) := by
  obtain ⟨links, hunlink, hparent, hlisted⟩ := h.unlink ob
  obtain rfl : { w with links := links } = w' := some.inj (hunlink.symm.trans hw')
  have hsuper : World.super { w with links := links } = w.super := hparent
  have hold : ∀ x, Pending (.destruct ob save .unlink :: stack) x ↔ Pending stack x := fun x => by
    rw [pending_cons]
    simp [Frame.unlinked]
  have hnew : ∀ x, Pending (.destruct ob save .vital :: stack) x ↔ ob = x ∨ Pending stack x := fun x => by
    rw [pending_cons]
    simp [Frame.unlinked]
  have hinside : ∀ y e, Inside { w with links := links } (.destruct ob save .vital :: stack) y e ↔
      Inside w (.destruct ob save .unlink :: stack) y e ∧ y ≠ ob := by
    intro y e
    rw [Inside, Inside, hsuper, hold, hnew, not_or]
    exact ⟨fun hc => ⟨⟨hc.1, hc.2.2⟩, fun he => hc.2.1 he.symm⟩, fun hc => ⟨hc.1.1, fun he => hc.2 he.symm, hc.1.2⟩⟩
  refine h.shrink le_rfl (hlisted.congr fun y e => (hinside y e).symm) (fun x e hx => ?_) fun f hf x hx => .inl ?_
  · exact ⟨hsuper ▸ hx, rfl, fun hp => (hnew x).2 (.inr ((hold x).1 hp)), .inl rfl⟩
  · rcases mem_cons.1 hf with rfl | hf
    · exact ⟨.destruct ob save .unlink, .head _, hx⟩
    · exact ⟨f, .tail _ hf, hx⟩

/-- an emptied object that is in no list is marked as destructed -/
theorem Inv.detach (h : Inv w (.destruct ob save .detach :: stack)) : Inv (w.detach ob) stack := by
  have hpend : ∀ x, x ≠ ob → (Pending (.destruct ob save .detach :: stack) x ↔ Pending stack x) := fun x hx => by
    rw [pending_cons]
    simp [Frame.unlinked, hx.symm]
  have hpendOb : Pending (.destruct ob save .detach :: stack) ob := pending_cons.2 (.inl rfl)
  have hsub : ∀ x e, (w.detach ob).super x = some e → x ≠ ob ∧ w.super x = some e := by
    intro x e hx
    have hx' : update w.links.parent ob none x = some e := hx
    by_cases hxo : x = ob
    · subst hxo
      rw [update_self] at hx'
      cases hx'
    · rw [update_of_ne hxo] at hx'
      exact ⟨hxo, hx'⟩
  have hinside : ∀ y e, Inside w (.destruct ob save .detach :: stack) y e ↔ Inside (w.detach ob) stack y e := by
    intro y e
    constructor
    · intro hy
      have hne : y ≠ ob := fun he => hy.2 (he ▸ hpendOb)
      refine ⟨?_, fun hp => hy.2 ((hpend y hne).2 hp)⟩
      show update w.links.parent ob none y = some e
      rw [update_of_ne hne]
      exact hy.1
    · intro hy
      obtain ⟨hne, hs⟩ := hsub y e hy.1
      exact ⟨hs, fun hp => hy.2 ((hpend y hne).1 hp)⟩
  have hnone : ∀ y, ¬ Inside w (.destruct ob save .detach :: stack) y ob :=
    h.emptied (.destruct ob save .detach) (.head _) ob rfl
  have hfirst : w.links.first ob = none := h.contains_of_not_inside hnone
  have hlisted : Listed (w.detach ob).links (Inside w (.destruct ob save .detach :: stack)) := by
    refine h.listed.of_eq (fun e => ?_) fun y hy => ?_
    · show update w.links.first ob none e = w.links.first e
      by_cases heo : e = ob
      · rw [heo, update_self, hfirst]
      · exact update_of_ne heo _ _
    · obtain ⟨e, hy⟩ := hy
      have hne : y ≠ ob := fun he => hy.2 (he ▸ hpendOb)
      exact update_of_ne hne _ _
  refine h.shrink le_rfl (hlisted.congr hinside) (fun x e hx => ?_) fun f hf x hx => .inl ⟨f, .tail _ hf, hx⟩
  obtain ⟨hne, hs⟩ := hsub x e hx
  refine ⟨hs, update_of_ne hne _ _, (hpend x hne).1, ?_⟩
  by_cases heo : e = ob
  · -- a live object that still points at the destructed one is pending itself
    subst heo
    by_contra hc
    exact hnone x ⟨hs, fun hp => hc (.inr ((hpend x hne).1 hp))⟩
  · exact .inl (update_of_ne heo _ _)

/-- an error that ends no destruction of an unlinked object with an environment -/
theorem Inv.unwind {s : State} (h : Inv s.world s.stack) {k : ℕ}
    (hclean : ∀ f ∈ s.stack.take k, ∀ x, f.unlinked = some x → s.world.super x = none) :
    Inv (s.unwind k).world (s.unwind k).stack := by
  refine h.of_same ⟨rfl, rfl, le_rfl⟩ (fun x e hx => ⟨?_, ?_⟩) fun f hf x hx => .inl ⟨f, mem_of_mem_drop hf, hx⟩
  · rintro ⟨f, hf, hfx⟩
    exact ⟨f, mem_of_mem_drop hf, hfx⟩
  · rintro ⟨f, hf, hfx⟩
    rw [← take_append_drop k s.stack] at hf
    rcases mem_append.1 hf with hf | hf
    · exact nomatch (hclean f hf x hfx).symm.trans hx
    · exact ⟨f, hf, hfx⟩

/-! ## Every run keeps the trees -/

theorem Frame.unlinked_of_emptied (h : f.emptied = none) : f.unlinked = none := by
  cases f with
  | move item dest pc => rfl
  | destruct ob save pc => cases pc <;> first | rfl | exact h

theorem Same.rfl : Same w w := ⟨Eq.refl _, Eq.refl _, le_refl _⟩

theorem Same.setVital (ob : ℕ) (new : Option ℕ) : Same w (w.setVital ob new) := by
  unfold World.setVital
  repeat' split
  all_goals exact ⟨Eq.refl _, Eq.refl _, le_refl _⟩

/-- the calls in progress count by what they have emptied and unlinked -/
theorem Inv.restack {fs' : List Frame} (h : Inv w fs) (hsame : Same w w')
    (hu : fs'.filterMap Frame.unlinked = fs.filterMap Frame.unlinked)
    (he : fs'.filterMap Frame.emptied = fs.filterMap Frame.emptied) : Inv w' fs' := by
  refine h.of_same hsame (fun x _ _ => ?_) fun f hf x hx => .inl ?_
  · rw [Pending, Pending, ← mem_filterMap, ← mem_filterMap, hu]
  · rw [← mem_filterMap, ← he, mem_filterMap]
    exact ⟨f, hf, hx⟩

/-- a call that has emptied nothing can begin -/
theorem Inv.begin (h : Inv w fs) (hsame : Same w w') (hf : f.emptied = none) : Inv w' (f :: fs) :=
  h.restack hsame (filterMap_cons_none (Frame.unlinked_of_emptied hf)) (filterMap_cons_none hf)

/-- and it can return -/
theorem Inv.finish (h : Inv w (f :: fs)) (hsame : Same w w') (hf : f.emptied = none) : Inv w' fs :=
  h.restack hsame (filterMap_cons_none (Frame.unlinked_of_emptied hf)).symm (filterMap_cons_none hf).symm

/-- a call goes on at a point that is no further -/
theorem Inv.goOn {f' : Frame} (h : Inv w (f :: fs)) (hsame : Same w w') (hu : f'.unlinked = f.unlinked)
    (he : f'.emptied = f.emptied) : Inv w' (f' :: fs) :=
  h.restack hsame (by simp only [filterMap_cons, hu]) (by simp only [filterMap_cons, he])

/-- the invariant after a piece of a call -/
def Outcome.Ok (fs : List Frame) : Outcome → Prop
  | .stuck => True
  | .raise => True
  | .ret w => Inv w fs
  | .goto w f => Inv w (f :: fs)
  | .call w f g => Inv w (g :: f :: fs)

theorem Outcome.Ok.next {o : Outcome} (h : o.Ok fs) (hs : o.next fs = some s) : Inv s.world s.stack := by
  cases o <;> simp only [Outcome.next, some.injEq, reduceCtorEq] at hs <;> subst hs <;> exact h

theorem moveObject_ok (h : Inv w fs) (hitem : item < w.size) (hdest : dest < w.size) (hlive : w.destructed item = false)
    (hempty : ∀ f ∈ fs, f.emptied ≠ some dest)
    (hpend : ∀ f ∈ fs, f.unlinked ≠ some item) : (moveObject w item dest).Ok fs := by
  unfold moveObject
  split
  case h_1 => trivial
  case h_2 => trivial
  case h_3 hclimb =>
    split
    case isTrue => trivial
    case isFalse hdead =>
      split
      case h_1 => trivial
      case h_2 w' hw' =>
        have hlinked : Inv (w'.link item (some dest)) fs :=
          h.relink (fun e he => some.inj he ▸ ⟨hitem, hdest, hlive, Bool.eq_false_of_not_eq_true hdead,
            climb_sound hclimb, hempty, fun ⟨f, hf, hfx⟩ => hpend f hf hfx⟩) hw'
        dsimp only
        split
        all_goals exact hlinked.begin .rfl rfl

/-- the later pieces of a move change nothing -/
theorem moveOn_ok {pc : MovePc} (h : Inv w (.move item dest pc :: fs)) : (moveOn w item dest pc).Ok fs := by
  have hret : Inv w fs := h.finish .rfl rfl
  have hgoto : ∀ pc', Inv w (.move item dest pc' :: fs) := fun pc' => hret.begin .rfl rfl
  unfold moveOn
  repeat' split
  all_goals first | exact hgoto _ | exact hret | trivial

theorem destructObject_ok (h : Inv w fs) (ob : ℕ) : (destructObject w ob).Ok fs := by
  unfold destructObject
  repeat' split
  · trivial
  · trivial
  · exact h
  · exact h.begin .rfl rfl

/-- every piece of a destruction keeps the invariant -/
theorem destructOn_ok {ob : ℕ} {save : Option ℕ} (h : Inv w (.destruct ob save pc :: fs)) :
    (destructOn w ob save pc).Ok fs := by
  cases pc with
  | evict =>
    have hret : Inv w fs := h.finish .rfl rfl
    simp only [destructOn]
    split
    case h_1 hnone =>
      -- the inventory is empty: from here on nothing may come in
      refine h.of_same .rfl (fun x _ _ => ?_) fun g hg x hx => ?_
      · rw [pending_cons, pending_cons]
        rfl
      · rcases mem_cons.1 hg with rfl | hg
        · have hx' : ob = x := some.inj hx
          exact .inr (hx' ▸ hnone)
        · exact .inl ⟨g, .tail _ hg, hx⟩
    case h_2 otmp hfirst =>
      split
      · split
        case h_1 => trivial
        case h_2 w' hw' => exact (hret.relink (fun e (he : none = some e) => nomatch he) hw').begin .rfl rfl
      · have hsame : Same w { w with restrictDestruct := some otmp } := ⟨rfl, rfl, le_refl _⟩
        exact hret.begin hsame rfl
  | evicting otmp =>
    have hret : Inv { w with restrictDestruct := save } fs := h.finish ⟨rfl, rfl, le_refl _⟩ rfl
    simp only [destructOn]
    repeat' split
    · exact hret
    · exact hret.begin .rfl rfl
    · exact hret.begin .rfl rfl
  | destructing otmp =>
    have hret : Inv w fs := h.finish .rfl rfl
    have hevict : Inv w (.destruct ob save .evict :: fs) := hret.begin .rfl rfl
    have hcall := destructObject_ok hevict otmp
    have hother := destructObject_ok hret otmp
    simp only [destructOn]
    generalize destructObject w otmp = o at hcall hother
    cases o with
    | goto w' g | ret w' => exact hcall
    | stuck | raise => trivial
    | call w' f g => exact hother
  | edit =>
    simp only [destructOn]
    split
    all_goals exact h.goOn .rfl rfl rfl
  | saving => exact h.goOn ⟨rfl, rfl, le_refl _⟩ rfl rfl
  | unlink =>
    simp only [destructOn]
    split
    case h_1 => trivial
    case h_2 w' hw' => exact h.leave hw'
  | vital =>
    simp only [destructOn]
    repeat' split
    · trivial
    · exact h.goOn (.setVital ob none) rfl rfl
    · exact h.goOn ⟨rfl, rfl, le_refl _⟩ rfl rfl
    · exact h.goOn .rfl rfl rfl
  | reloading => trivial
  | detach => exact h.detach

/-- one step of a clean run keeps the invariant -/
theorem inv_step {e : Event} (h : Inv s.world s.stack) (hclean : Clean s e) (hs : step s e = some s') :
    Inv s'.world s'.stack := by
  cases e with
  | move item dest =>
    simp only [step, ite_none_right_eq_some, Bool.and_eq_true, decide_eq_true_eq, Bool.not_eq_true'] at hs
    obtain ⟨⟨⟨⟨-, hitem⟩, hdest⟩, hlive⟩, hs⟩ := hs
    exact (moveObject_ok h hitem hdest hlive hclean.1 hclean.2).next hs
  | destruct ob =>
    simp only [step, ite_none_right_eq_some] at hs
    exact (destructObject_ok h ob).next hs.2
  | go =>
    simp only [step] at hs
    cases hst : s.stack with
    | nil => simp [hst] at hs
    | cons f fs =>
      rw [hst] at h hs
      cases f with
      | move item dest pc => exact (moveOn_ok h).next hs
      | destruct ob save pc => exact (destructOn_ok h).next hs
  | loaded new =>
    simp only [step] at hs
    split at hs
    case h_2 => cases hs
    case h_1 ob save fs hst =>
      rw [hst] at h
      cases (ite_none_right_eq_some.1 hs).2
      exact h.goOn (.setVital ob (some new)) rfl rfl
  | raise k =>
    simp only [step, ite_none_right_eq_some] at hs
    exact some.inj hs.2 ▸ h.unwind fun f hf x hx => hclean f hf x hx
  | create | setCommands ob b | setEdit ob b | setVitals master simul | shutdown =>
    simp only [step, ite_none_right_eq_some] at hs
    obtain ⟨-, hs⟩ := hs
    cases hs
    exact h.restack ⟨rfl, rfl, by simp [World.create]⟩ rfl rfl

/-- the run lemma -/
theorem inv_run {es : List Event} (h : Inv s.world s.stack) (hclean : CleanRun s es)
    (hs : run s es = some s') : Inv s'.world s'.stack := by
  induction es generalizing s with
  | nil =>
    cases hs
    exact h
  | cons e es ih =>
    obtain ⟨s₁, hs₁, hrest⟩ := bind_eq_some_iff.1 hs
    have hcleanRest := hclean.2
    rw [hs₁] at hcleanRest
    exact ih (inv_step h hclean.1 hs₁) hcleanRest hrest

/-- the loops of the two functions over environments and inventories end -/
theorem Inv.loops_end (h : Inv w fs) (item dest : ℕ) :
    (∃ found, climb w.super item (w.size + 1) (some dest) = some found) ∧ ∃ w', w.unlink item = some w' := by
  obtain ⟨rank, hrank⟩ := h.ranked
  obtain ⟨links, hlinks, _⟩ := h.unlink item
  refine ⟨climb_total hrank item (S := Finset.range w.size) ?_ (by rw [Finset.card_range]) dest, _, hlinks⟩
  exact fun a b hab => Finset.mem_range.2 (h.bound a b hab).1

/-- **The inventory forest.** In every run of moves and destructions, with whatever LPC code they run, in which nothing is
moved into an emptied object, no unlinked object is moved and no error ends the destruction of an unlinked object that has
an environment, the objects are trees whenever no call is in progress, and every loop over them ends. -/
theorem inventory_forest (es : List Event) (s : State) (hclean : CleanRun State.init es)
    (hrun : run State.init es = some s) :
    (s.stack = [] → Forest s.world) ∧
      ∀ item dest, (∃ found, climb s.world.super item (s.world.size + 1) (some dest) = some found) ∧
        ∃ w', s.world.unlink item = some w' := by
  have h := inv_run inv_empty hclean hrun
  refine ⟨fun hstack => ?_, h.loops_end⟩
  rw [hstack] at h
  exact h.forest

/-- a room, a chest and a coin: the coin goes into the chest and the chest into the room; the chest is destructed, and
`move_or_destruct` brings the coin into the room -/
def roomRun : List Event :=
  [.create, .create, .create, .setCommands 2 true, .move 2 1] ++ replicate 4 .go ++ [.move 1 0] ++
    replicate 3 .go ++ [.destruct 1, .go, .move 2 0] ++ replicate 13 .go

theorem roomRun_forest : ∃ s, run State.init roomRun = some s ∧ s.world.super 2 = some 0 ∧ Forest s.world := by
  have hend : (run State.init roomRun).map (fun s => (s.stack, s.world.super 2)) = some ([], some 0) := by
    decide +kernel
  obtain ⟨s, hs, heq⟩ := map_eq_some_iff.1 hend
  obtain ⟨hstack, hsuper⟩ := Prod.mk.inj heq
  exact ⟨s, hs, hsuper, (inventory_forest roomRun s (by decide +kernel) hs).1 hstack⟩

/-- the editor of object 0 is saved during its destruction, and object 1 is moved into it -/
def savingRun : List Event :=
  [.create, .create, .setEdit 0 true, .destruct 0, .go, .go, .move 1 0] ++ replicate 7 .go

/-- the master object 1 is inside object 0, and its replacement fails to load -/
def reloadRun : List Event :=
  [.create, .create, .setVitals (some 1) none, .move 1 0] ++ replicate 3 .go ++ [.destruct 1] ++
    replicate 4 .go ++ [.raise 1]

/-- An object moved into one that is saving its editor buffer is left with a destructed environment, and an error in the
reload leaves the master object alive in an environment that does not list it. -/
theorem moved_in_while_saving : (∃ s, run State.init savingRun = some s ∧ s.stack = [] ∧ s.world.destructed 1 = false ∧
      s.world.super 1 = some 0 ∧ s.world.destructed 0 = true ∧ ¬ Forest s.world) ∧
    ∃ s, run State.init reloadRun = some s ∧ s.stack = [] ∧ s.world.destructed 1 = false ∧
      s.world.super 1 = some 0 ∧ s.world.contains 0 = none ∧ ¬ Forest s.world := by
  constructor
  · have hend : (run State.init savingRun).map (fun s =>
        (s.stack, s.world.size, s.world.destructed 1, s.world.super 1, s.world.destructed 0)) =
        some ([], 2, false, some 0, true) := by decide +kernel
    simp only [map_eq_some_iff, Prod.mk.injEq] at hend
    obtain ⟨s, hs, hstack, hsize, hlive, hsuper, hdead⟩ := hend
    refine ⟨s, hs, hstack, hlive, hsuper, hdead, fun hf => ?_⟩
    exact absurd ((hf.live 1 0 (by omega) hlive hsuper).symm.trans hdead) Bool.false_ne_true
  · have hend : (run State.init reloadRun).map (fun s =>
        (s.stack, s.world.size, s.world.destructed 1, s.world.super 1, s.world.contains 0)) =
        some ([], 2, false, some 0, none) := by decide +kernel
    simp only [map_eq_some_iff, Prod.mk.injEq] at hend
    obtain ⟨s, hs, hstack, hsize, hlive, hsuper, hnone⟩ := hend
    refine ⟨s, hs, hstack, hlive, hsuper, hnone, fun hf => ?_⟩
    obtain ⟨l, hl, hcount⟩ := hf.lists 0
    rw [hnone] at hl
    cases hl
    have := hcount 1
    rw [if_pos ⟨by omega, hlive, hsuper⟩] at this
    simp at this

end Lithos.Driver.Inventory
