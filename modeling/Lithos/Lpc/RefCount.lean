/-
Reference counts of containers (`assign_svalue_no_free`, `assign_svalue`, `free_svalue`, the `dealloc_` functions).

Memory is a list of svalues outside containers (stack, variables) and a list of containers, each with the 16-bit count of
`refed_t` and its svalues. Numbers, strings, objects and buffers hold no svalues that freeing them would free, so they are
one case of `Val`. An svalue has a ghost flag that says whether it is live; `free_svalue` and the `dealloc_` functions do
not look at it.

The invariant (`Inv`): a container that live svalues hold has not been deallocated, and its count is no smaller than the
number of its holders. Freeing keeps it because what it deallocates has no holder left (`freeSvalue_spec`); copying keeps
it unless the count wraps (`assignNoFree_spec`).

Results:
- `run_safe`: in every run whose steps meet `StepOk` no container is deallocated while a live svalue holds it.
- `freed_while_held`: a count that wraps, and an svalue assigned to itself.
-/
import Mathlib.Tactic

namespace Lithos.Lpc.RefCount

open List Option

/-! ## Model -/

/-- the types whose values hold svalues of their own -/
inductive Kind where
  | array
  | class_
  | mapping
  | function
deriving DecidableEq, Repr

/-- what an svalue holds: a container, or something without svalues of its own -/
inductive Val where
  | scalar
  | refed (id : ℕ)
deriving DecidableEq, Repr

/-- an svalue in memory; `live` is a ghost: it has been assigned to and not freed since -/
structure Cell where
  val : Val
  live : Bool
deriving DecidableEq, Repr

/-- a container: its 16-bit count and its svalues in the order in which its `dealloc_` function frees them (arrays and
classes from the last item to the first, mappings the value of each node before its key, a function its arguments);
`null` is the one static empty array -/
structure Block where
  kind : Kind
  ref : UInt16
  items : List Cell
  null : Bool
  freed : Bool
deriving DecidableEq, Repr

abbrev Heap := List Block

/-- the svalues outside containers (stack, variables) and the containers -/
structure State where
  roots : List Cell
  heap : Heap
deriving DecidableEq, Repr

/-- where an svalue stands -/
inductive Loc where
  | root (i : ℕ)
  | item (id i : ℕ)
deriving DecidableEq, Repr

/-- the svalues of a container that is being deallocated, freed one after the other -/
def freeAll (free : Val → Heap → Option Heap) : List Cell → Heap → Option Heap
  | [], h => some h
  | c :: l, h => (free c.val h).bind (freeAll free l)

/-- `dealloc_array`, `dealloc_class`, `dealloc_mapping`, `dealloc_funp` on a container whose count is zero: the svalues
go first, then the memory -/
def dealloc (free : Val → Heap → Option Heap) (id : ℕ) (b : Block) (h : Heap) : Option Heap :=
  if b.null then some h
  else
    (freeAll free b.items (h.set id { b with items := [] })).map fun h' =>
      h'.modify id fun b' => { b' with freed := true }

/-- `free_svalue`; `none` when it reads a container that has been freed (or `fuel`, which bounds the nesting, runs out) -/
def freeSvalue : ℕ → Val → Heap → Option Heap
  | _, .scalar, h => some h
  | 0, .refed _, _ => none
  | fuel + 1, .refed id, h =>
    match h[id]? with
    | none => none
    | some b =>
      if b.freed then none
      else
        let b' := { b with ref := b.ref - 1 }
        if b'.ref = 0 then dealloc (freeSvalue fuel) id b' (h.set id b') else some (h.set id b')

/-- `retain_svalue_payload` -/
def retain : Val → Heap → Heap
  | .scalar, h => h
  | .refed id, h => h.modify id fun b => { b with ref := b.ref + 1 }

/-- the svalue at a place; none in a container that has been freed -/
def cellAt (s : State) : Loc → Option Cell
  | .root i => s.roots[i]?
  | .item id i =>
    match s.heap[id]? with
    | none => none
    | some b => if b.freed then none else b.items[i]?

def setCell (s : State) (loc : Loc) (c : Cell) : State :=
  match loc with
  | .root i => { s with roots := s.roots.set i c }
  | .item id i => { s with heap := s.heap.modify id fun b => { b with items := b.items.set i c } }

inductive Op where
  | assignNoFree (dest source : Loc)
  | assign (dest source : Loc)
  | free (v : Loc)
deriving DecidableEq, Repr

/-- `assign_svalue_no_free`: copy, then count; `none` when it touches memory that has been freed -/
def assignNoFree (dest source : Loc) (s : State) : Option State :=
  match cellAt s source, cellAt s dest with
  | some c, some _ =>
    let s' := setCell s dest ⟨c.val, true⟩
    some { s' with heap := retain c.val s'.heap }
  | _, _ => none

/-- `free_svalue` on the svalue at a place -/
def freeAt (v : Loc) (s : State) : Option State :=
  match cellAt s v with
  | none => none
  | some c =>
    let s' := setCell s v ⟨c.val, false⟩
    (freeSvalue (s'.heap.length + 1) c.val s'.heap).map fun h => { s' with heap := h }

def step (s : State) : Op → Option State
  | .assignNoFree dest source => assignNoFree dest source s
  | .assign dest source => (freeAt dest s).bind (assignNoFree dest source)
  | .free v => freeAt v s

def run (s : State) : List Op → Option State
  | [] => some s
  | op :: ops => (step s op).bind fun s' => run s' ops

/-! ## Counting -/

/-- the sum of `f` over the containers -/
def total (f : Block → ℕ) (h : Heap) : ℕ := (h.map f).sum

variable {h h' : Heap} {f : Block → ℕ} {b b' : Block} {r : UInt16} {R : Set ℕ} {E E' : ℕ → ℕ} {fuel i : ℕ}
  {free : Val → Heap → Option Heap} {c : Cell} {cells : List Cell}

theorem set_self {α : Type} {l : List α} {a : α} (ha : l[i]? = some a) (a' : α) : (l.set i a')[i]? = some a' :=
  getElem?_set_self (List.getElem?_eq_some_iff.1 ha).1

theorem total_set (hb : h[i]? = some b) (b' : Block) : total f (h.set i b') + f b = total f h + f b' := by
  obtain ⟨hi, rfl⟩ := List.getElem?_eq_some_iff.1 hb
  have hold := ((getElem_cons_eraseIdx_perm hi).map f).sum_eq
  have hnew := ((set_perm_cons_eraseIdx hi b').map f).sum_eq
  rw [map_cons, sum_cons] at hold hnew
  unfold total
  omega

/-- how many of the svalues are live and hold container `id` -/
def liveRefs (cells : List Cell) (id : ℕ) : ℕ := cells.countP fun c => c.live && c.val == .refed id

def weight (id : ℕ) (b : Block) : ℕ := if b.freed then 0 else liveRefs b.items id

/-- how many svalues in containers are live and hold container `id` -/
def itemRefs (h : Heap) (id : ℕ) : ℕ := total (weight id) h

/-- a container that can still be deallocated -/
def isActive (b : Block) : ℕ := if b.null = false ∧ b.freed = false ∧ b.ref ≠ 0 then 1 else 0

def active (h : Heap) : ℕ := total isActive h

/-- a pending reference -/
def valRefs (v : Val) (id : ℕ) : ℕ := if v = .refed id then 1 else 0

/-- no container is held by more svalues than its count says, `E` of them outside containers; held containers exist -/
def Held (h : Heap) (E : ℕ → ℕ) : Prop :=
  ∀ id, 0 < E id + itemRefs h id → ∃ b, h[id]? = some b ∧ b.freed = false ∧
    (b.null = true ∨ E id + itemRefs h id ≤ b.ref.toNat)

theorem active_le_length (h : Heap) : active h ≤ h.length := by
  have hone : ∀ n ∈ h.map isActive, n ≤ 1 := by
    refine forall_mem_map.2 fun b _ => ?_
    unfold isActive
    split_ifs <;> omega
  simpa [active, total] using sum_le_card_nsmul _ 1 hone

theorem weight_live (h : b.freed = false) (id : ℕ) : weight id b = liveRefs b.items id := by
  rw [weight, if_neg (by simp [h])]

theorem weight_nil (h : b.items = []) (id : ℕ) : weight id b = 0 := by
  rw [weight, h]
  simp [liveRefs]

/-- replacing a container by one that holds as much -/
theorem itemRefs_set (hb : h[i]? = some b) {id : ℕ} (hw : weight id b' = weight id b) :
    itemRefs (h.set i b') id = itemRefs h id := by
  have := total_set (f := weight id) hb b'
  unfold itemRefs
  omega

theorem modify_eq_set (hb : h[i]? = some b) (f : Block → Block) : h.modify i f = h.set i (f b) := by
  rw [modify_eq_set_getElem?, hb]
  rfl

theorem pred_toNat (h : 1 ≤ r.toNat) : (r - 1).toNat = r.toNat - 1 := by
  rw [UInt16.toNat_sub_of_le r 1 (by rw [UInt16.le_iff_toNat_le]; exact h)]
  rfl

theorem eq_one_of_pred (h : r - 1 = 0) : r = 1 := by simpa using UInt16.sub_eq_iff_eq_add.1 h

/-! ## Freeing -/

/-- `R` holds, with a container, everything the container's svalues hold, and these are all live -/
def Solid (R : Set ℕ) (h : Heap) : Prop :=
  ∀ id ∈ R, ∀ b, h[id]? = some b → ∀ c ∈ b.items, c.live = true ∧ ∀ j, c.val = .refed j → j ∈ R

/-- how a container may change when references are freed: it keeps its svalues or loses all of them, and its count does
not grow -/
structure Shrinks (b b' : Block) : Prop where
  items : b'.items = b.items ∨ b'.items = []
  null : b'.null = b.null
  ref : b.null = true ∨ b'.ref.toNat ≤ b.ref.toNat

theorem Shrinks.refl (b : Block) : Shrinks b b := ⟨.inl rfl, rfl, .inr le_rfl⟩

theorem Shrinks.trans {a c : Block} (h1 : Shrinks a b) (h2 : Shrinks b c) : Shrinks a c := by
  refine ⟨?_, h2.null.trans h1.null, ?_⟩
  · rcases h2.items with h | h
    · rw [h]
      exact h1.items
    · exact .inr h
  · rcases h1.ref with h | h
    · exact .inl h
    · rcases h2.ref with h' | h'
      · exact .inl (h1.null ▸ h')
      · exact .inr (h'.trans h)

/-- what freeing a reference into `R` leaves: the counts fit the svalues that are left, containers outside `R` are as they
were -/
structure Released (R : Set ℕ) (E : ℕ → ℕ) (h h' : Heap) : Prop where
  held : Held h' E
  frame : ∀ id, id ∉ R → h'[id]? = h[id]?
  blocks : ∀ (id : ℕ) (b' : Block), h'[id]? = some b' → ∃ b, h[id]? = some b ∧ Shrinks b b'
  fewer : ∀ id, itemRefs h' id ≤ itemRefs h id
  active : active h' ≤ active h
  length : h'.length = h.length

theorem Released.refl (hh : Held h E) : Released R E h h :=
  ⟨hh, fun _ _ => rfl, fun _ b hb => ⟨b, hb, .refl b⟩, fun _ => le_rfl, le_rfl, rfl⟩

theorem Released.trans {h'' : Heap} (h1 : Released R E h h') (h2 : Released R E' h' h'') : Released R E' h h'' := by
  refine ⟨h2.held, fun id hid => (h2.frame id hid).trans (h1.frame id hid), fun id b'' hb'' => ?_,
    fun id => (h2.fewer id).trans (h1.fewer id), h2.active.trans h1.active, h2.length.trans h1.length⟩
  obtain ⟨b', hb', hi'⟩ := h2.blocks id b'' hb''
  obtain ⟨b, hb, hi⟩ := h1.blocks id b' hb'
  exact ⟨b, hb, hi.trans hi'⟩

theorem Solid.released (hs : Solid R h) (hr : Released R E h h') : Solid R h' := by
  intro id hid b' hb' c hc
  obtain ⟨b, hb, hi⟩ := hr.blocks id b' hb'
  rcases hi.items with hi | hi
  · rw [hi] at hc
    exact hs id hid b hb c hc
  · rw [hi] at hc
    cases hc

/-- what a function that frees one reference has to do -/
def Frees (R : Set ℕ) (fuel : ℕ) (free : Val → Heap → Option Heap) : Prop :=
  ∀ (v : Val) (h : Heap) (E : ℕ → ℕ), Held h (fun id => E id + valRefs v id) → Solid R h → (∀ i, v = .refed i → i ∈ R) →
    active h < fuel → ∃ h', free v h = some h' ∧ Released R E h h'

theorem freeAll_spec (hfree : Frees R fuel free) (hh : Held h fun id => E id + liveRefs cells id) (hs : Solid R h)
    (hc : ∀ c ∈ cells, c.live = true ∧ ∀ j, c.val = .refed j → j ∈ R) (hf : active h < fuel) :
    ∃ h', freeAll free cells h = some h' ∧ Released R E h h' := by
  induction cells generalizing h with
  | nil =>
    exact ⟨h, rfl, .refl (by simpa [liveRefs] using hh)⟩
  | cons c cells ih =>
    obtain ⟨hlive, hval⟩ := hc c (.head _)
    have hsplit : ∀ id, liveRefs (c :: cells) id = liveRefs cells id + valRefs c.val id := by
      intro id
      simp [liveRefs, valRefs, countP_cons, hlive]
    obtain ⟨h1, hr1, hrel1⟩ := hfree c.val h (fun id => E id + liveRefs cells id)
      (by simpa only [hsplit, ← add_assoc] using hh) hs hval hf
    obtain ⟨h2, hr2, hrel2⟩ := ih hrel1.held (hs.released hrel1) (fun x hx => hc x (.tail _ hx))
      (lt_of_le_of_lt hrel1.active hf)
    exact ⟨h2, by rw [freeAll, hr1]; exact hr2, hrel1.trans hrel2⟩

/-- replacing one container: the others are held as before -/
theorem Held.set (hh : Held h E) (hb : h[i]? = some b)
    (hother : ∀ id, id ≠ i → E' id + itemRefs (h.set i b') id ≤ E id + itemRefs h id)
    (hself : 0 < E' i + itemRefs (h.set i b') i →
      b'.freed = false ∧ (b'.null = true ∨ E' i + itemRefs (h.set i b') i ≤ b'.ref.toNat)) : Held (h.set i b') E' := by
  intro id hpos
  by_cases hid : id = i
  · subst hid
    exact ⟨b', set_self hb b', hself hpos⟩
  · obtain ⟨b₁, hb₁, hf, hn⟩ := hh id (hpos.trans_le (hother id hid))
    exact ⟨b₁, by rw [getElem?_set_ne (Ne.symm hid), hb₁], hf, hn.imp_right (hother id hid).trans⟩

theorem Released.set (hb : h[i]? = some b) (hi : i ∈ R) (hshrink : Shrinks b b')
    (hweight : ∀ id, weight id b' ≤ weight id b) (hactive : isActive b' ≤ isActive b)
    (hheld : Held (h.set i b') E) : Released R E h (h.set i b') where
  held := hheld
  frame id hid := getElem?_set_ne (ne_of_mem_of_not_mem hi hid)
  blocks id b₁ hb₁ := by
    by_cases hid : i = id
    · subst hid
      rw [set_self hb] at hb₁
      cases hb₁
      exact ⟨b, hb, hshrink⟩
    · rw [getElem?_set_ne hid] at hb₁
      exact ⟨b₁, hb₁, .refl b₁⟩
  fewer id := by
    have htotal := total_set (f := weight id) hb b'
    have := hweight id
    unfold itemRefs
    omega
  active := by
    have htotal := total_set (f := isActive) hb b'
    unfold RefCount.active
    omega
  length := length_set

/-- the last reference: the container goes, and before it what it holds -/
theorem dealloc_spec (hfree : Frees R fuel free) (hb : h[i]? = some b) (hnull : b.null = false)
    (hlive : b.freed = false) (hone : b.ref = 1) (hh : Held h fun id => E id + valRefs (.refed i) id)
    (hs : Solid R h) (hi : i ∈ R) (hf : active h < fuel + 1) :
    ∃ h', dealloc free i { b with ref := b.ref - 1 } (h.set i { b with ref := b.ref - 1 }) = some h' ∧ Released R E h h' := by
  have hzero : b.ref - 1 = 0 := by rw [hone]; rfl
  set b0 : Block := { b with ref := b.ref - 1, items := [] } with hb0
  have hlen : i < h.length := (List.getElem?_eq_some_iff.1 hb).1
  -- nothing else holds the container
  have hnone : E i + itemRefs h i = 0 := by
    obtain ⟨b', hb', -, hcount⟩ := hh i (by simp [valRefs])
    obtain rfl := some.inj (hb.symm.trans hb')
    rcases hcount with hn | hcount
    · exact absurd (hnull.symm.trans hn) (by decide)
    · simp only [valRefs, if_true, hone, UInt16.toNat_one] at hcount
      omega
  have hmove : ∀ id, itemRefs (h.set i b0) id + liveRefs b.items id = itemRefs h id := by
    intro id
    have := total_set (f := weight id) hb b0
    rwa [weight_live hlive, weight_nil rfl, add_zero] at this
  have hheld0 : Held (h.set i b0) fun id => E id + liveRefs b.items id := by
    refine hh.set hb (fun id _ => ?_) fun hpos => ?_
    · have := hmove id
      omega
    · have := hmove i
      omega
  have hidle : isActive b0 = 0 := if_neg (by simp [hb0, hzero])
  have hrel0 : Released R _ h (h.set i b0) :=
    .set hb hi ⟨.inr rfl, rfl, .inr (by simp [hb0, hzero])⟩ (fun id => by simp [weight_nil (b := b0) rfl])
      (by simp [hidle]) hheld0
  have hactive0 : active (h.set i b0) < fuel := by
    have hat : isActive b = 1 :=
      if_pos ⟨hnull, hlive, by rw [hone]; decide⟩
    have := total_set (f := isActive) hb b0
    unfold active at hf ⊢
    omega
  obtain ⟨h1, hr1, hrel⟩ := freeAll_spec hfree hheld0 (hs.released hrel0) (hs i hi b hb) hactive0
  have hitems1 : itemRefs h1 i = 0 := by
    have h2 := hrel.fewer i
    have h3 := hmove i
    omega
  -- the container itself, whose svalues are gone by now
  obtain ⟨b1, hb1⟩ : ∃ b1, h1[i]? = some b1 :=
    ⟨_, getElem?_eq_getElem (by rw [hrel.length, length_set]; exact hlen)⟩
  have hempty : b1.items = [] := by
    obtain ⟨b', hb', hi'⟩ := hrel.blocks i b1 hb1
    obtain rfl := some.inj ((set_self hb b0).symm.trans hb')
    exact hi'.items.elim id id
  have hweight : ∀ id, weight id { b1 with freed := true } = weight id b1 := fun id => by
    rw [weight_nil hempty, weight_nil (b := { b1 with freed := true }) hempty]
  refine ⟨h1.set i { b1 with freed := true }, ?_, (hrel0.trans hrel).trans
    (.set hb1 hi ⟨.inl rfl, rfl, .inr le_rfl⟩ (fun id => (hweight id).le) (by simp [isActive]) ?_)⟩
  · rw [dealloc, if_neg (by simp [hnull]), set_set, hr1, map_some, modify_eq_set hb1]
  · refine hrel.held.set hb1 (fun id _ => by rw [itemRefs_set hb1 (hweight id)]) fun hpos => ?_
    rw [itemRefs_set hb1 (hweight i)] at hpos
    omega

/-- counting down without deallocating -/
theorem decrement_released (R : Set ℕ) (hb : h[i]? = some b) (hlive : b.freed = false)
    (hcount : b.null = true ∨ E i + 1 + itemRefs h i ≤ b.ref.toNat) (hh : Held h fun id => E id + valRefs (.refed i) id)
    (hi : i ∈ R) :
    Released R E h (h.set i { b with ref := b.ref - 1 }) := by
  have hpred : b.null = true ∨ (b.ref - 1).toNat = b.ref.toNat - 1 := hcount.imp_right fun h => pred_toNat (by omega)
  have hle : isActive { b with ref := b.ref - 1 } ≤ isActive b := by
    unfold isActive
    rcases hcount with hn | hcount
    · simp [hn]
    · have hne : b.ref ≠ 0 := fun h0 => by
        rw [h0] at hcount
        simp at hcount
      split_ifs with h3 h4
      · exact le_rfl
      · exact absurd ⟨h3.1, h3.2.1, hne⟩ h4
      · exact Nat.zero_le _
      · exact le_rfl
  refine .set hb hi ⟨Or.inl rfl, rfl, hpred.imp_right fun h => h.trans_le (Nat.sub_le _ _)⟩ (fun _ => le_rfl) hle ?_
  have hsame : ∀ id, itemRefs (h.set i { b with ref := b.ref - 1 }) id = itemRefs h id := fun id => itemRefs_set hb rfl
  refine hh.set hb (fun id _ => ?_) fun _ => ⟨hlive, ?_⟩
  · rw [hsame]
    omega
  · rw [hsame]
    rcases hcount with hn | hcount
    · exact .inl hn
    · exact hpred.imp_right fun h => by dsimp only; omega

/-- **Freeing a reference** into a solid part of the heap succeeds and leaves counts that fit. -/
theorem freeSvalue_spec (R : Set ℕ) (fuel : ℕ) : Frees R fuel (freeSvalue fuel) := by
  induction fuel with
  | zero => exact fun v h E _ _ _ hf => absurd hf (by omega)
  | succ fuel ih =>
    intro v h E hh hs hv hf
    cases v with
    | scalar =>
      exact ⟨h, rfl, .refl (by simpa [valRefs] using hh)⟩
    | refed i =>
      obtain ⟨b, hb, hfr, hcount⟩ := hh i (by simp [valRefs])
      simp only [valRefs, if_true] at hcount
      rw [freeSvalue, hb]
      dsimp only
      rw [if_neg (by simp [hfr])]
      have hi := hv i rfl
      have hdec := decrement_released R hb hfr hcount hh hi
      split_ifs with hzero
      · by_cases hnull : b.null = true
        · exact ⟨_, by rw [dealloc, if_pos hnull], hdec⟩
        · exact dealloc_spec ih hb (by simpa using hnull) hfr (eq_one_of_pred hzero) hh hs hi hf
      · exact ⟨_, rfl, hdec⟩

/-! ## Svalues in memory -/

def cellRefs (c : Cell) (id : ℕ) : ℕ := if c.live = true ∧ c.val = .refed id then 1 else 0

/-- how many live svalues hold container `id` -/
def holders (s : State) (id : ℕ) : ℕ := liveRefs s.roots id + itemRefs s.heap id

theorem liveRefs_cons (c : Cell) (cells : List Cell) (id : ℕ) : liveRefs (c :: cells) id = liveRefs cells id + cellRefs c id := by
  simp [liveRefs, cellRefs, countP_cons]

theorem liveRefs_set (hc : cells[i]? = some c) (c' : Cell) (id : ℕ) :
    liveRefs (cells.set i c') id + cellRefs c id = liveRefs cells id + cellRefs c' id := by
  obtain ⟨hi, rfl⟩ := List.getElem?_eq_some_iff.1 hc
  have hle := boole_getElem_le_countP (p := fun c => c.live && c.val == .refed id) hi
  simp only [Bool.and_eq_true, beq_iff_eq] at hle
  simp only [liveRefs, cellRefs, countP_set hi, Bool.and_eq_true, beq_iff_eq]
  omega

variable {s s' : State} {dest source loc : Loc} {d : Cell} {v : Val}

/-- the container of an svalue that is not outside containers -/
theorem cellAt_item {id i : ℕ} (h : cellAt s (.item id i) = some c) :
    ∃ b, s.heap[id]? = some b ∧ b.freed = false ∧ b.items[i]? = some c := by
  rw [cellAt] at h
  split at h
  · cases h
  · next b hb =>
    split_ifs at h with hf
    exact ⟨b, hb, by simpa using hf, h⟩

theorem holders_setCell (h : cellAt s loc = some c) (c' : Cell) (id : ℕ) :
    holders (setCell s loc c') id + cellRefs c id = holders s id + cellRefs c' id := by
  cases loc with
  | root i =>
    have := @liveRefs_set i c s.roots h c' id
    simp only [holders, setCell]
    omega
  | item k i =>
    obtain ⟨b, hb, hf, hi⟩ := cellAt_item h
    have h1 := liveRefs_set hi c' id
    have h2 := total_set (f := weight id) hb { b with items := b.items.set i c' }
    rw [weight_live hf, weight_live (b := { b with items := b.items.set i c' }) hf] at h2
    dsimp only at h2
    simp only [holders, setCell, modify_eq_set hb, itemRefs]
    omega

/-- writing an svalue changes no count and frees nothing -/
theorem setCell_block (c' : Cell) (h : cellAt s loc = some c) {id : ℕ} (hb : s.heap[id]? = some b) :
    ∃ b', (setCell s loc c').heap[id]? = some b' ∧ b'.freed = b.freed ∧ b'.null = b.null ∧ b'.ref = b.ref := by
  cases loc with
  | root i => exact ⟨b, hb, rfl, rfl, rfl⟩
  | item k i =>
    obtain ⟨b0, hb0, -, -⟩ := cellAt_item h
    simp only [setCell, modify_eq_set hb0]
    by_cases hk : k = id
    · subst hk
      obtain rfl := some.inj (hb0.symm.trans hb)
      exact ⟨_, set_self hb _, rfl, rfl, rfl⟩
    · exact ⟨b, by rw [getElem?_set_ne hk]; exact hb, rfl, rfl, rfl⟩

/-- the invariant: every held container exists and its count is no smaller than the number of its holders -/
def Inv (s : State) : Prop := Held s.heap (liveRefs s.roots)

/-- the container of a value exists and its count can go up -/
def Room (h : Heap) (v : Val) : Prop :=
  ∀ id, v = .refed id → ∃ b, h[id]? = some b ∧ b.freed = false ∧ (b.null = true ∨ b.ref.toNat < 65535)

/-- no container has more holders than its count says once an svalue has been written, as far as its holders are old ones -/
theorem held_setCell (hinv : Inv s) (hc : cellAt s loc = some c) (c' : Cell) {id n : ℕ} (hn : 0 < n)
    (hle : n ≤ holders s id) : ∃ b', (setCell s loc c').heap[id]? = some b' ∧ b'.freed = false ∧
      (b'.null = true ∨ n ≤ b'.ref.toNat) := by
  obtain ⟨b, hb, hf, hcount⟩ := hinv id (hn.trans_le hle)
  obtain ⟨b', hb', hf', hn', hr'⟩ := setCell_block c' hc hb
  rw [← hn', ← hr'] at hcount
  exact ⟨b', hb', hf'.trans hf, hcount.imp_right hle.trans⟩

/-- **Copying an svalue** keeps the invariant as long as the count does not wrap. -/
theorem assignNoFree_spec (hinv : Inv s) (hc : cellAt s source = some c) (hd : cellAt s dest = some d)
    (hroom : Room s.heap c.val) :
    ∃ s', assignNoFree dest source s = some s' ∧ Inv s' := by
  set s1 := setCell s dest ⟨c.val, true⟩ with hs1
  refine ⟨{ s1 with heap := retain c.val s1.heap }, by rw [assignNoFree, hc, hd], ?_⟩
  have hcount : ∀ id, holders s1 id ≤ holders s id + valRefs c.val id := by
    intro id
    have := holders_setCell hd ⟨c.val, true⟩ id
    have hv : cellRefs ⟨c.val, true⟩ id = valRefs c.val id := by simp [cellRefs, valRefs]
    rw [← hs1] at this
    omega
  intro id hpos
  cases hval : c.val with
  | scalar =>
    have hle := hcount id
    rw [hval] at hle hpos
    exact held_setCell hinv hd _ hpos hle
  | refed k =>
    obtain ⟨b, hb, hf, hn⟩ := hroom k hval
    obtain ⟨b1, hb1, hf1, hn1, hr1⟩ := setCell_block ⟨c.val, true⟩ hd hb
    have hret : retain (.refed k) s1.heap = s1.heap.set k { b1 with ref := b1.ref + 1 } := modify_eq_set hb1 _
    have hsame : itemRefs (retain (.refed k) s1.heap) id = itemRefs s1.heap id := by
      rw [hret]
      exact itemRefs_set hb1 rfl
    have hle := hcount id
    rw [hval] at hpos hle
    rw [hsame] at hpos ⊢
    change ∃ b, (retain (.refed k) s1.heap)[id]? = some b ∧ b.freed = false ∧
      (b.null = true ∨ holders s1 id ≤ b.ref.toNat)
    rw [hret]
    by_cases hid : k = id
    · subst hid
      refine ⟨_, set_self hb1 _, hf1.trans hf, ?_⟩
      by_cases hnull : b.null = true
      · exact .inl (hn1.trans hnull)
      · have hroom := hn.resolve_left hnull
        have hold : holders s k ≤ b.ref.toNat := by
          by_contra hlt
          obtain ⟨b', hb', -, h⟩ := hinv k (show 0 < holders s k by omega)
          obtain rfl := some.inj (hb.symm.trans hb')
          exact hlt (h.resolve_left hnull)
        refine .inr ?_
        rw [hr1, UInt16.toNat_add, UInt16.toNat_one]
        rw [valRefs, if_pos rfl] at hle
        omega
    · rw [valRefs, if_neg (by simpa using hid)] at hle
      rw [getElem?_set_ne hid]
      exact held_setCell hinv hd _ hpos hle

/-! ## Conditions -/

/-- container `i` has an svalue that holds container `j` -/
def Edge (h : Heap) (i j : ℕ) : Prop := ∃ b, h[i]? = some b ∧ ∃ c ∈ b.items, c.val = .refed j

/-- the containers that a value leads to -/
def reach (h : Heap) (v : Val) : Set ℕ := { j | ∃ i, v = .refed i ∧ Relation.ReflTransGen (Edge h) i j }

/-- the last reference: freeing it deallocates the container -/
def Last (h : Heap) (v : Val) : Prop := ∃ i b, v = .refed i ∧ h[i]? = some b ∧ b.null = false ∧ b.ref = 1

/-- the svalue does not stand in a container that the value leads to -/
def Apart (h : Heap) (v : Val) (loc : Loc) : Prop := ∀ id i, loc = .item id i → id ∉ reach h v

/-- nothing the value leads to has an svalue that was freed and not assigned again -/
def AllLive (h : Heap) (v : Val) : Prop := ∀ id ∈ reach h v, ∀ b, h[id]? = some b → ∀ c ∈ b.items, c.live = true

/-- `free_svalue` may be called: on a live svalue, which, if it is the last reference, is not itself in what goes away
and nothing in there has been freed before -/
def FreeOk (s : State) (v : Loc) : Prop :=
  ∃ c, cellAt s v = some c ∧ c.live = true ∧ (Last s.heap c.val → Apart s.heap c.val v ∧ AllLive s.heap c.val)

/-- the count of the value's container is not at its end -/
def Countable (h : Heap) (v : Val) : Prop :=
  ∀ id b, v = .refed id → h[id]? = some b → b.null = true ∨ b.ref.toNat < 65535

/-- the condition on a step: sources are live, counts do not wrap, and the source of `assign_svalue` does not go away
with what is freed before it is read -/
def StepOk (s : State) : Op → Prop
  | .free v => FreeOk s v
  | .assignNoFree dest source =>
    (∃ d, cellAt s dest = some d) ∧ ∃ c, cellAt s source = some c ∧ c.live = true ∧ Countable s.heap c.val
  | .assign dest source =>
    FreeOk s dest ∧ (∃ c, cellAt s source = some c ∧ c.live = true ∧ Countable s.heap c.val) ∧
      ∀ d, cellAt s dest = some d → Last s.heap d.val → source ≠ dest ∧ Apart s.heap d.val source

/-- every step of the run meets the condition in the state in which it is taken -/
def RunOk (s : State) : List Op → Prop
  | [] => True
  | op :: ops => StepOk s op ∧ ∀ s', step s op = some s' → RunOk s' ops

/-- **Safety**: no container has been deallocated while a live svalue holds it -/
def Safe (s : State) : Prop :=
  ∀ loc c id, cellAt s loc = some c → c.live = true → c.val = .refed id → ∃ b, s.heap[id]? = some b ∧ b.freed = false

/-- the count of every container is the number of svalues that hold it -/
structure Counted (s : State) : Prop where
  counts : ∀ id b, s.heap[id]? = some b → b.freed = false → b.null = true ∨ holders s id = b.ref.toNat
  exist : ∀ id, 0 < holders s id → ∃ b, s.heap[id]? = some b ∧ b.freed = false

theorem Counted.inv (h : Counted s) : Inv s := by
  intro id hpos
  obtain ⟨b, hb, hf⟩ := h.exist id hpos
  refine ⟨b, hb, hf, ?_⟩
  rcases h.counts id b hb hf with hn | hn
  · exact .inl hn
  · exact .inr hn.le

theorem le_total (hb : h[i]? = some b) : f b ≤ total f h :=
  single_le_sum (fun _ _ => Nat.zero_le _) _ (mem_map_of_mem (mem_of_getElem? hb))

theorem liveRefs_pos {id : ℕ} (hc : cells[i]? = some c) (hl : c.live = true)
    (hv : c.val = .refed id) : 0 < liveRefs cells id :=
  countP_pos_iff.2 ⟨c, mem_of_getElem? hc, by simp [hl, hv]⟩

theorem holders_pos {id : ℕ} (h : cellAt s loc = some c) (hl : c.live = true)
    (hv : c.val = .refed id) : 0 < holders s id := by
  cases loc with
  | root i =>
    have := @liveRefs_pos i c s.roots _ h hl hv
    unfold holders
    omega
  | item k i =>
    obtain ⟨b, hb, hf, hi⟩ := cellAt_item h
    have h1 := le_total (f := weight id) hb
    rw [weight_live hf] at h1
    have h2 := liveRefs_pos hi hl hv
    unfold holders itemRefs
    omega

theorem Inv.safe (h : Inv s) : Safe s := by
  intro loc c id hc hl hv
  obtain ⟨b, hb, hf, -⟩ := h id (holders_pos hc hl hv)
  exact ⟨b, hb, hf⟩

theorem cellAt_congr (hr : s'.roots = s.roots)
    (hb : ∀ k i, loc = .item k i → s'.heap[k]? = s.heap[k]?) : cellAt s' loc = cellAt s loc := by
  cases loc with
  | root i => rw [cellAt, cellAt, hr]
  | item k i => rw [cellAt, cellAt, hb k i rfl]

/-- a container outside `loc` is as it was when the svalue at `loc` is written -/
theorem setCell_other {id : ℕ} (h : ∀ k i, loc = .item k i → k ≠ id) : (setCell s loc c).heap[id]? = s.heap[id]? := by
  cases loc with
  | root i => rfl
  | item k i =>
    have hk := h k i rfl
    simp only [setCell, getElem?_modify, if_neg hk]
    simp

theorem cellAt_setCell_self (h : cellAt s loc = some c) (c' : Cell) : cellAt (setCell s loc c') loc = some c' := by
  cases loc with
  | root i => exact set_self h c'
  | item k i =>
    obtain ⟨b, hb, hf, hi⟩ := cellAt_item h
    rw [cellAt]
    simp only [setCell, modify_eq_set hb, set_self hb]
    rw [if_neg (by simp [hf])]
    exact set_self hi c'

theorem cellAt_setCell_ne {loc loc' : Loc} (h : cellAt s loc = some c) (c' : Cell)
    (hne : loc' ≠ loc) : cellAt (setCell s loc c') loc' = cellAt s loc' := by
  cases loc with
  | root i =>
    cases loc' with
    | root j =>
      have hij : i ≠ j := fun h => hne (by rw [h])
      exact getElem?_set_ne hij
    | item k j => rfl
  | item k i =>
    cases loc' with
    | root j => rfl
    | item k' j =>
      obtain ⟨b, hb, hf, -⟩ := cellAt_item h
      by_cases hk : k = k'
      · subst hk
        have hij : i ≠ j := fun h => hne (by rw [h])
        rw [cellAt, cellAt, hb]
        simp only [setCell, modify_eq_set hb, set_self hb]
        rw [List.getElem?_set_ne hij]
      · exact cellAt_congr rfl fun k1 i1 h1 => setCell_other fun k2 i2 h2 => by
          obtain ⟨rfl, -⟩ := Loc.item.inj h1
          obtain ⟨rfl, -⟩ := Loc.item.inj h2
          exact hk

section Free

variable {s : State} (hinv : Inv s) {v : Loc} {c : Cell} (hc : cellAt s v = some c) (hl : c.live = true)

include hinv hc hl

/-- once the svalue counts as dead its reference is pending -/
theorem held_pending : Held (setCell s v ⟨c.val, false⟩).heap fun id =>
    liveRefs (setCell s v ⟨c.val, false⟩).roots id + valRefs c.val id := by
  intro id hpos
  have hcount := holders_setCell hc ⟨c.val, false⟩ id
  have h1 : cellRefs ⟨c.val, false⟩ id = 0 := by simp [cellRefs]
  have h2 : cellRefs c id = valRefs c.val id := by simp [cellRefs, valRefs, hl]
  refine held_setCell hinv hc _ hpos ?_
  unfold holders at hcount ⊢
  dsimp only
  omega

omit hinv hl in
theorem freeAt_eq {h' : Heap} (hfree : freeSvalue ((setCell s v ⟨c.val, false⟩).heap.length + 1) c.val
    (setCell s v ⟨c.val, false⟩).heap = some h') :
    freeAt v s = some { setCell s v ⟨c.val, false⟩ with heap := h' } := by
  rw [freeAt, hc]
  dsimp only
  rw [hfree]
  rfl

/-- freeing a reference, whatever goes away with it -/
theorem freeAt_apart (hapart : Apart s.heap c.val v) (hall : AllLive s.heap c.val) :
    ∃ s', freeAt v s = some s' ∧ s'.roots = (setCell s v ⟨c.val, false⟩).roots ∧
      Released (reach s.heap c.val) (liveRefs s'.roots) (setCell s v ⟨c.val, false⟩).heap s'.heap := by
  set s1 := setCell s v ⟨c.val, false⟩
  have hsame : ∀ id ∈ reach s.heap c.val, s1.heap[id]? = s.heap[id]? := fun id hid =>
    setCell_other fun k i hv hk => hapart k i hv (hk ▸ hid)
  have hsolid : Solid (reach s.heap c.val) s1.heap := by
    intro id hid b hb x hx
    rw [hsame id hid] at hb
    refine ⟨hall id hid b hb x hx, fun j hj => ?_⟩
    obtain ⟨k, hv, hk⟩ := hid
    exact ⟨k, hv, hk.tail ⟨b, hb, x, hx, hj⟩⟩
  obtain ⟨h', hfree, hrel⟩ := freeSvalue_spec (reach s.heap c.val) (s1.heap.length + 1) c.val s1.heap (liveRefs s1.roots)
    (held_pending hinv hc hl) hsolid (fun i hi => ⟨i, hi, .refl⟩)
    (Nat.lt_succ_of_le (active_le_length _))
  exact ⟨{ s1 with heap := h' }, freeAt_eq hc hfree, rfl, hrel⟩

/-- freeing a reference that is not the last one only counts down -/
theorem freeAt_notLast (hlast : ¬ Last s.heap c.val) :
    ∃ s', freeAt v s = some s' ∧ s'.roots = (setCell s v ⟨c.val, false⟩).roots ∧
      Released Set.univ (liveRefs s'.roots) (setCell s v ⟨c.val, false⟩).heap s'.heap ∧
      ∀ (id : ℕ) (b : Block), (setCell s v ⟨c.val, false⟩).heap[id]? = some b →
        ∃ b' : Block, s'.heap[id]? = some b' ∧ b'.items = b.items ∧ b'.freed = b.freed := by
  have hpend := held_pending hinv hc hl
  set s1 := setCell s v ⟨c.val, false⟩
  cases hval : c.val with
  | scalar =>
    exact ⟨s1, freeAt_eq hc (by rw [hval]; rfl), rfl, .refl (by simpa [hval, valRefs] using hpend),
      fun id b hb => ⟨b, hb, rfl, rfl⟩⟩
  | refed i =>
    rw [hval] at hpend
    obtain ⟨b, hb, hf, hcount⟩ := hpend i (by simp [valRefs])
    simp only [valRefs, if_true] at hcount
    have hrel := decrement_released Set.univ hb hf hcount hpend (Set.mem_univ i)
    have hnull : b.ref - 1 = 0 → b.null = true := by
      intro hzero
      by_contra hn
      -- then it would have been the last one
      obtain ⟨b', hb', -, -⟩ := hinv i (holders_pos hc hl hval)
      obtain ⟨b'', hb'', -, hn'', hr''⟩ := setCell_block ⟨c.val, false⟩ hc hb'
      obtain rfl := some.inj (hb.symm.trans hb'')
      exact hlast ⟨i, b', hval, hb', by rw [← hn'']; simpa using hn, by rw [← hr'']; exact eq_one_of_pred hzero⟩
    have hfree : freeSvalue (s1.heap.length + 1) c.val s1.heap = some (s1.heap.set i { b with ref := b.ref - 1 }) := by
      rw [hval, freeSvalue, hb]
      dsimp only
      rw [if_neg (by simp [hf])]
      split_ifs with hzero
      · rw [dealloc, if_pos (hnull hzero)]
      · rfl
    refine ⟨{ s1 with heap := s1.heap.set i { b with ref := b.ref - 1 } }, freeAt_eq hc hfree, rfl,
      hrel, fun id b' hb' => ?_⟩
    by_cases hid : i = id
    · subst hid
      obtain rfl := some.inj (hb.symm.trans hb')
      exact ⟨_, set_self hb _, rfl, rfl⟩
    · exact ⟨b', by rw [getElem?_set_ne hid]; exact hb', rfl, rfl⟩

end Free

/-- after a free, a count that could go up still can -/
theorem countable_after {c c' : Cell} (hc : cellAt s loc = some c)
    (hrel : Released R E (setCell s loc c').heap s'.heap) {w : Val}
    (hw : Countable s.heap w) : Countable s'.heap w := by
  intro id b' hid hb'
  obtain ⟨b1, hb1, hshrink⟩ := hrel.blocks id b' hb'
  obtain ⟨b, hb⟩ : ∃ b, s.heap[id]? = some b := by
    cases loc with
    | root i => exact ⟨b1, hb1⟩
    | item k i =>
      have hlen := (List.getElem?_eq_some_iff.1 hb1).1
      simp only [setCell, length_modify] at hlen
      exact ⟨_, getElem?_eq_getElem hlen⟩
  obtain ⟨b2, hb2, -, hn, hr⟩ := setCell_block c' hc hb
  obtain rfl := some.inj (hb1.symm.trans hb2)
  rcases hw id b hid hb with h | h
  · exact .inl (hshrink.null.trans (hn.trans h))
  · rcases hshrink.ref with h' | h'
    · exact .inl (hshrink.null.trans h')
    · rw [hr] at h'
      exact .inr (lt_of_le_of_lt h' h)

theorem room_of_live (hinv : Inv s) (hc : cellAt s loc = some c) (hl : c.live = true)
    (hw : Countable s.heap c.val) : Room s.heap c.val := by
  intro id hid
  obtain ⟨b, hb, hf, -⟩ := hinv id (holders_pos hc hl hid)
  exact ⟨b, hb, hf, hw id b hid hb⟩

/-- **Freeing the svalue at a place**: everything stands where it stood but for what goes away with the last reference -/
theorem freeAt_spec (hinv : Inv s) {v : Loc} (hc : cellAt s v = some c) (hl : c.live = true)
    (hok : Last s.heap c.val → Apart s.heap c.val v ∧ AllLive s.heap c.val) :
    ∃ s' R, freeAt v s = some s' ∧ Released R (liveRefs s'.roots) (setCell s v ⟨c.val, false⟩).heap s'.heap ∧
      (∀ loc, (Last s.heap c.val → Apart s.heap c.val loc) →
        cellAt s' loc = cellAt (setCell s v ⟨c.val, false⟩) loc) ∧
      (¬ Last s.heap c.val → ∀ (id : ℕ) (b : Block), (setCell s v ⟨c.val, false⟩).heap[id]? = some b →
        ∃ b' : Block, s'.heap[id]? = some b' ∧ b'.freed = b.freed) := by
  by_cases h : Last s.heap c.val
  · obtain ⟨hapart, hall⟩ := hok h
    obtain ⟨s', hs', hroots, hrel⟩ := freeAt_apart hinv hc hl hapart hall
    exact ⟨s', _, hs', hrel, fun loc ha => cellAt_congr hroots fun k i hk => hrel.frame k (ha h k i hk),
      fun hnot => absurd h hnot⟩
  · obtain ⟨s', hs', hroots, hrel, hblocks⟩ := freeAt_notLast hinv hc hl h
    refine ⟨s', _, hs', hrel, fun loc _ => ?_, fun _ id b hb => ?_⟩
    · cases loc with
      | root i => rw [cellAt, cellAt, hroots]
      | item k i =>
        rw [cellAt, cellAt]
        cases hb : (setCell s v ⟨c.val, false⟩).heap[k]? with
        | none => rw [getElem?_eq_none_iff.2 (hrel.length.trans_le (getElem?_eq_none_iff.1 hb))]
        | some b =>
          obtain ⟨b', hb', hi, hf⟩ := hblocks k b hb
          rw [hb']
          dsimp only
          rw [hi, hf]
    · obtain ⟨b', hb', -, hf⟩ := hblocks id b hb
      exact ⟨b', hb', hf⟩

/-- `assign_svalue` keeps the invariant -/
theorem assign_inv (hinv : Inv s) (hok : StepOk s (.assign dest source)) :
    ∃ s', step s (.assign dest source) = some s' ∧ Inv s' := by
  obtain ⟨⟨d, hd, hdl, hlast⟩, ⟨c, hc, hcl, hcount⟩, hsource⟩ := hok
  obtain ⟨s1, R, hs1, hrel, hkeep, hblocks⟩ := freeAt_spec hinv hd hdl hlast
  have hd1 : cellAt s1 dest = some ⟨d.val, false⟩ := by
    rw [hkeep dest fun h => (hlast h).1, cellAt_setCell_self hd]
  have hcount1 : Countable s1.heap c.val := countable_after hd hrel hcount
  obtain ⟨x, hc1, hroom⟩ : ∃ x, cellAt s1 source = some x ∧ Room s1.heap x.val := by
    by_cases hne : source = dest
    · -- an svalue assigned to itself: its container is still there
      subst hne
      obtain rfl := some.inj (hd.symm.trans hc)
      refine ⟨_, hd1, fun id hid => ?_⟩
      obtain ⟨b, hb, hf, -⟩ := hinv id (holders_pos hd hdl hid)
      obtain ⟨b1, hb1, hf1, -⟩ := setCell_block ⟨d.val, false⟩ hd hb
      obtain ⟨b2, hb2, hf2⟩ := hblocks (fun h => (hsource d hd h).1 rfl) id b1 hb1
      exact ⟨b2, hb2, hf2.trans (hf1.trans hf), hcount1 id b2 hid hb2⟩
    · -- what goes away does not hold the source
      have hc1 : cellAt s1 source = some c := by
        rw [hkeep source fun h => (hsource d hd h).2, cellAt_setCell_ne hd _ hne, hc]
      exact ⟨c, hc1, room_of_live hrel.held hc1 hcl hcount1⟩
  obtain ⟨s2, hs2, hinv2⟩ := assignNoFree_spec hrel.held hc1 hd1 hroom
  exact ⟨s2, by rw [step, hs1]; exact hs2, hinv2⟩

/-- **One step.** -/
theorem step_inv (hinv : Inv s) {op : Op} (hok : StepOk s op) : ∃ s', step s op = some s' ∧ Inv s' := by
  cases op with
  | free v =>
    obtain ⟨c, hc, hl, hlast⟩ := hok
    obtain ⟨s', R, hs', hrel, -⟩ := freeAt_spec hinv hc hl hlast
    exact ⟨s', hs', hrel.held⟩
  | assign dest source => exact assign_inv hinv hok
  | assignNoFree dest source =>
    obtain ⟨⟨d, hd⟩, c, hc, hl, hcount⟩ := hok
    exact assignNoFree_spec hinv hc hd (room_of_live hinv hc hl hcount)

theorem run_inv (hinv : Inv s) {ops : List Op} (hok : RunOk s ops) : ∃ s', run s ops = some s' ∧ Inv s' := by
  induction ops generalizing s with
  | nil => exact ⟨s, rfl, hinv⟩
  | cons op ops ih =>
    obtain ⟨s1, hs1, hinv1⟩ := step_inv hinv hok.1
    obtain ⟨s2, hs2, hinv2⟩ := ih hinv1 (hok.2 s1 hs1)
    exact ⟨s2, by rw [run, hs1]; exact hs2, hinv2⟩

/-- **Reference safety.** From counts that fit the holders, every run whose steps meet the condition goes through without
touching freed memory, and no container has been deallocated while a live svalue holds it. -/
theorem run_safe (s : State) (hs : Counted s) (ops : List Op) (hok : RunOk s ops) : ∃ s', run s ops = some s' ∧ Safe s' := by
  obtain ⟨s', hs', hinv⟩ := run_inv hs.inv hok
  exact ⟨s', hs', hinv.safe⟩

/-! ## Runs -/

/-- an array in an array -/
def nestedArray : State :=
  ⟨[⟨.refed 0, true⟩, ⟨.scalar, false⟩, ⟨.scalar, true⟩],
    [⟨.array, 1, [⟨.refed 1, true⟩], false, false⟩, ⟨.array, 1, [], false, false⟩]⟩

theorem apart_root : Apart h v (.root i) := fun _ _ h => absurd h (by simp)

/-- the array is copied, its first holder overwritten and the copy freed: both arrays go -/
theorem nestedArray_safe : ∃ s', run nestedArray
    [.assignNoFree (.root 1) (.root 0), .assign (.root 0) (.root 2), .free (.root 1)] = some s' ∧ Safe s' ∧
      s'.heap.all (·.freed) = true := by
  have hcounted : Counted nestedArray := by
    have hother : ∀ id, 2 ≤ id → holders nestedArray id = 0 := by
      intro id hid
      have h0 : (0 : ℕ) ≠ id := by omega
      have h1 : (1 : ℕ) ≠ id := by omega
      simp [holders, nestedArray, liveRefs, itemRefs, total, weight, h0, h1]
    refine ⟨fun id b hb _ => ?_, fun id hpos => ?_⟩
    · match id, hb with
      | 0, hb | 1, hb => obtain rfl := some.inj hb; exact .inr rfl
      | id + 2, hb => exact absurd hb (by simp [nestedArray])
    · match id, hpos with
      | 0, _ | 1, _ => exact ⟨_, rfl, rfl⟩
      | id + 2, hpos => rw [hother _ (by omega)] at hpos; omega
  have hok : RunOk nestedArray [.assignNoFree (.root 1) (.root 0), .assign (.root 0) (.root 2), .free (.root 1)] := by
    have hlive : ∀ s : State, (s.heap.all fun b => b.items.all (·.live)) = true → ∀ v, AllLive s.heap v :=
      fun s h v _ _ b hb c hc => all_eq_true.1 (all_eq_true.1 h b (mem_of_getElem? hb)) c hc
    have hcount : ∀ s : State, (s.heap.all fun b => b.ref.toNat < 65535) = true → ∀ v, Countable s.heap v := fun s h v id b _ hb =>
      .inr (of_decide_eq_true (all_eq_true.1 h b (mem_of_getElem? hb)))
    refine ⟨⟨⟨_, rfl⟩, _, rfl, rfl, hcount _ rfl _⟩, fun s1 hs1 => ?_⟩
    cases hs1
    refine ⟨⟨⟨_, rfl, rfl, fun _ => ⟨apart_root, hlive _ rfl _⟩⟩, ⟨_, rfl, rfl, hcount _ rfl _⟩, fun d _ _ => ⟨by decide, apart_root⟩⟩,
      fun s2 hs2 => ?_⟩
    cases hs2
    exact ⟨⟨_, rfl, rfl, fun _ => ⟨apart_root, hlive _ rfl _⟩⟩, fun _ _ => trivial⟩
  obtain ⟨s', hs', hsafe⟩ := run_safe nestedArray hcounted _ hok
  refine ⟨s', hs', hsafe, ?_⟩
  cases hs'
  rfl

/-- an array with 65535 holders, and two svalues that are free -/
def crowd : State :=
  ⟨⟨.scalar, false⟩ :: ⟨.scalar, false⟩ :: ⟨.refed 0, true⟩ :: replicate 65534 ⟨.refed 0, true⟩,
    [⟨.array, 65535, [], false, false⟩]⟩

def lonely : State := ⟨[⟨.refed 0, true⟩], [⟨.array, 1, [], false, false⟩]⟩

/-- one array without items -/
theorem counted_single {roots : List Cell} {ref : UInt16} (h0 : liveRefs roots 0 = ref.toNat)
    (hother : ∀ id, id ≠ 0 → liveRefs roots id = 0) : Counted ⟨roots, [⟨.array, ref, [], false, false⟩]⟩ := by
  have hholders : ∀ id, holders ⟨roots, [⟨.array, ref, [], false, false⟩]⟩ id = liveRefs roots id := by
    intro id
    simp [holders, itemRefs, total, weight, liveRefs]
  refine ⟨fun id b hb _ => ?_, fun id hpos => ?_⟩
  · cases id with
    | zero =>
      cases hb
      exact .inr ((hholders 0).trans h0)
    | succ id => cases hb
  · rw [hholders] at hpos
    cases id with
    | zero => exact ⟨_, rfl, rfl⟩
    | succ id =>
      rw [hother _ (by omega)] at hpos
      omega

theorem crowd_counted : Counted crowd := by
  refine counted_single ?_ fun id hid => ?_
  · rw [liveRefs_cons, liveRefs_cons, liveRefs_cons, liveRefs, countP_replicate]
    rfl
  · rw [liveRefs_cons, liveRefs_cons, liveRefs_cons, liveRefs, countP_replicate]
    simp [cellRefs, hid.symm]

theorem lonely_counted : Counted lonely := by
  refine counted_single rfl fun id hid => ?_
  simp [liveRefs, hid.symm]

/-- **The count wraps, and a value may be freed before it is copied.** Two more copies of an array with 65535 holders leave
a count of 1, so the next free deallocates it under 65536 holders; and `assign_svalue` of a variable to itself deallocates
an array that the variable holds afterwards. -/
theorem freed_while_held :
    (Counted crowd ∧ ∃ s', run crowd [.assignNoFree (.root 0) (.root 2), .assignNoFree (.root 1) (.root 2), .free (.root 2)] =
      some s' ∧ ¬ Safe s') ∧
    (Counted lonely ∧ ∃ s', run lonely [.assign (.root 0) (.root 0)] = some s' ∧ ¬ Safe s') := by
  refine ⟨⟨crowd_counted, _, rfl, fun h => ?_⟩, ⟨lonely_counted, _, rfl, fun h => ?_⟩⟩
  all_goals
    obtain ⟨b, hb, hf⟩ := h (.root 0) ⟨.refed 0, true⟩ 0 rfl rfl rfl
    cases hb
    cases hf

end Lithos.Lpc.RefCount
