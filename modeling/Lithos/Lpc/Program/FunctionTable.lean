/-
The runtime function table the compiler builds (`lib/lpc/compiler.c`, `lib/lpc/program.h`).

Every function a program has, its own and the inherited ones, has an entry in the table. An `inherit` statement copies the
functions of the inherited program (`copy_functions`): a new name gets an entry that points into that program, a name that
is already there gets an alias entry (`overload_function`). A definition takes over the entry of its name
(`define_new_function`). At the end of the compilation `epilog` marks what stayed inherited and brings the aliases up to
date.

Results:
* `compile_ok`: in the table of every compilation whose indices fit the compiler's `unsigned short`s, the entries that are
  marked as inherited point at a function of an inherited program, and the inherited programs lie one behind the other.
-/
import Lithos.Lpc.Types

namespace Lithos.Lpc.Program.FunctionTable

open List

/-! ## Flags -/

/-- `function_flags_t` -/
abbrev FunctionFlags := BitVec 16

def nameInherited : FunctionFlags := 0x1
def nameUndefined : FunctionFlags := 0x2
def nameStrictTypes : FunctionFlags := 0x4
def namePrototype : FunctionFlags := 0x8
def nameDefByInherit : FunctionFlags := 0x10
def nameAlias : FunctionFlags := 0x20
def nameTrueVarargs : FunctionFlags := 0x40
def nameHidden : FunctionFlags := 0x0100
def nameStatic : FunctionFlags := 0x0200
def nameNoMask : FunctionFlags := 0x0400
def namePrivate : FunctionFlags := 0x0800
def nameProtected : FunctionFlags := 0x1000
def namePublic : FunctionFlags := 0x2000
def nameVarargs : FunctionFlags := 0x4000

def nameTypeMod : FunctionFlags :=
  nameHidden ||| nameStatic ||| nameNoMask ||| namePrivate ||| nameProtected ||| namePublic ||| nameVarargs

/-- the flags that go up through inheritance -/
def nameMask : FunctionFlags :=
  nameUndefined ||| nameStrictTypes ||| namePrototype ||| nameTrueVarargs ||| nameTypeMod

def nameNoCode : FunctionFlags := nameUndefined ||| nameAlias ||| namePrototype

/-- some bit of `mask` is set -/
def FunctionFlags.any (flags mask : FunctionFlags) : Bool := flags &&& mask != 0

theorem FunctionFlags.any_or_right (flags a b : FunctionFlags) : flags.any (a ||| b) = (flags.any a || flags.any b) := by
  have hz := BitVec.or_eq_zero_iff (x := flags &&& a) (y := flags &&& b)
  unfold FunctionFlags.any
  rw [BitVec.and_or_distrib_left, Bool.eq_iff_iff, Bool.or_eq_true, bne_iff_ne, bne_iff_ne, bne_iff_ne]
  tauto

theorem FunctionFlags.any_or_left (a b mask : FunctionFlags) :
    FunctionFlags.any (a ||| b) mask = (FunctionFlags.any a mask || FunctionFlags.any b mask) := by
  have hcomm : ∀ x y : FunctionFlags, x.any y = y.any x := fun x y => by rw [any, any, BitVec.and_comm]
  rw [hcomm, any_or_right, hcomm mask a, hcomm mask b]

/-- masked flags have no bit outside the mask -/
theorem FunctionFlags.any_and_of_disjoint {flags m mask : FunctionFlags} (h : m &&& mask = 0) :
    FunctionFlags.any (flags &&& m) mask = false := by
  unfold FunctionFlags.any
  rw [BitVec.and_assoc, h]
  simp

/-! ## The table -/

/-- `runtime_function_u`: an entry is a definition of this program, or a place in an inherited one -/
inductive RuntimeFunction where
  | defined (numArg numLocal fIndex : ℕ)
  | inherited (offset index : ℕ)
  deriving DecidableEq

/-- an entry read as `inh`: `num_arg` and `num_local` are the two bytes of `offset`, `f_index` lies over `index` -/
def RuntimeFunction.inh : RuntimeFunction → ℕ × ℕ
  | .inherited offset index => (offset, index)
  | .defined numArg numLocal fIndex => (numArg + 256 * numLocal, fIndex)

/-- an entry under construction: `FUNCTION_FLAGS`, `FUNCTION_RENTRY`, `FUNCTION_PROG (n) == 0` and `FUNCTION_ALIAS`; a name
is the address of its shared string -/
structure Entry where
  name : ℕ
  flags : FunctionFlags
  rentry : RuntimeFunction
  own : Bool
  aliasFor : ℕ
  deriving DecidableEq

/-- `inherit_t`, with the number of functions that were copied -/
structure InheritRecord where
  functionIndexOffset : ℕ
  numFunctions : ℕ
  deriving DecidableEq

/-- a function of an inherited program as `copy_functions` sees it -/
structure InheritedFunction where
  name : ℕ
  flags : FunctionFlags

/-- the memory blocks of the compiler that belong to functions -/
structure Builder where
  entries : List Entry
  inherits : List InheritRecord
  compilerFunctions : ℕ

def Builder.empty : Builder := ⟨[], [], 0⟩

/-- `ihe->dn.function_num`, a `short`: the first entry of a name, as aliases come later and leave it alone, or -1 -/
def Builder.lookupIdent (b : Builder) (name : ℕ) : ℤ :=
  (b.entries.findIdx? (·.name == name)).elim (-1) fun num => (num : ℤ).bmod 65536

/-- the flags of a copied function: 'private' functions become 'hidden', and 'public' turns off 'private' -/
def copiedFlags (flags typemod : FunctionFlags) : FunctionFlags :=
  let f := (flags &&& nameMask) ||| nameDefByInherit ||| nameUndefined
  let f := if f.any namePrivate then f ||| nameHidden else f
  let f := f ||| typemod
  if f.any namePublic then f &&& ~~~namePrivate else f

/-- the number of the inherited program that is being copied, `NUM_INHERITS - 1` -/
def Builder.currentInherit (b : Builder) : ℕ := ushort (b.inherits.length - 1)

/-- `copy_function` -/
def copyFunction (b : Builder) (typemod : FunctionFlags) (f : InheritedFunction) (index : ℕ) : Builder :=
  { b with entries := b.entries ++
      [⟨f.name, copiedFlags f.flags typemod, .inherited b.currentInherit (ushort index), false, 1⟩] }

/-- the latest function wins: a function that is not defined at this level is replaced by one that has code -/
def overload (b : Builder) (typemod : FunctionFlags) (f : InheritedFunction) (index : ℕ) (old : Entry) : Entry :=
  let e :=
    if old.flags.any nameUndefined && !f.flags.any nameNoCode then
      { old with flags := copiedFlags f.flags typemod,
                 rentry := .inherited b.currentInherit (ushort index), own := false }
    else old
  if f.flags.any nameAlias then e else { e with aliasFor := e.aliasFor + 1 }

/-- `overload_function` -/
def overloadFunction (b : Builder) (typemod : FunctionFlags) (f : InheritedFunction) (index oldindex : ℕ) : Builder :=
  { b with entries := b.entries.modify oldindex (overload b typemod f index) ++
      [⟨f.name, nameInherited ||| nameAlias, .inherited b.currentInherit (ushort index), false, oldindex⟩] }

/-- one round of the loop of `copy_functions` -/
def copyOne (typemod : FunctionFlags) (b : Builder) (f : InheritedFunction) (index : ℕ) : Builder :=
  let num := b.lookupIdent f.name
  if num ≠ -1 then overloadFunction b typemod f index (num % 65536).toNat else copyFunction b typemod f index

/-- `copy_functions`, from the function `index` of the inherited program on -/
def copyFunctions (typemod : FunctionFlags) : Builder → List InheritedFunction → ℕ → Builder
  | b, [], _ => b
  | b, f :: fs, index => copyFunctions typemod (copyOne typemod b f index) fs (index + 1)

/-- a definition or a prototype, as the parser passes it to `define_new_function` -/
structure FunctionHead where
  name : ℕ
  numArg : ℕ
  numLocal : ℕ
  isPrototype : Bool
  trueVarargs : Bool
  strictTypes : Bool
  modifiers : FunctionFlags

def FunctionHead.flags (h : FunctionHead) : FunctionFlags :=
  (h.modifiers &&& nameTypeMod) ||| (if h.isPrototype then nameUndefined ||| namePrototype else 0) |||
    (if h.trueVarargs then nameTrueVarargs else 0) ||| (if h.strictTypes then nameStrictTypes else 0)

/-- the entry of a function whose definition has the number `num` in the function table -/
def FunctionHead.entry (h : FunctionHead) (num aliasFor : ℕ) : Entry :=
  ⟨h.name, h.flags, .defined (h.numArg % 256) (h.numLocal % 256) (ushort num), true, aliasFor⟩

/-- the number of the definition an entry already has at this level, because of a prototype -/
def Entry.ownNumber (e : Entry) : Option ℕ := if e.own then some e.rentry.inh.2 else none

/-- `define_new_function` -/
def defineNewFunction (b : Builder) (h : FunctionHead) : Builder :=
  let num := b.lookupIdent h.name
  if num = -1 then
    { b with entries := b.entries ++ [h.entry b.compilerFunctions 1], compilerFunctions := b.compilerFunctions + 1 }
  -- any other negative number leads to a place before the table
  else if num < 0 then { b with compilerFunctions := b.compilerFunctions + 1 }
  else
    match b.entries[num.toNat]? with
    | none => b
    | some e =>
      -- a second definition is an error, a second prototype is ignored
      if (!e.flags.any nameUndefined && !h.isPrototype) || h.isPrototype then b
      else
        match e.ownNumber with
        | some k => { b with entries := b.entries.set num.toNat (h.entry k (e.aliasFor + 1)) }
        | none =>
          { b with
            entries := b.entries.set num.toNat (h.entry b.compilerFunctions (e.aliasFor + 1)),
            compilerFunctions := b.compilerFunctions + 1 }

/-- what the parser makes of a source file, as far as functions go -/
inductive Step where
  | inherit (functions : List InheritedFunction) (typemod : FunctionFlags)
  | define (h : FunctionHead)

def step (b : Builder) : Step → Builder
  | .inherit functions typemod =>
    copyFunctions (typemod &&& nameTypeMod)
      { b with inherits := b.inherits ++ [⟨ushort b.entries.length, functions.length⟩] } functions 0
  | .define h => defineNewFunction b h

/-- not defined at this level, but by inheritance -/
def Entry.undefinedHere (e : Entry) : Bool := e.flags.any nameUndefined && e.flags.any nameDefByInherit

/-- the variable `funflags` of `epilog`: a real function that is inherited is no longer undefined -/
def Entry.funflags (e : Entry) : FunctionFlags :=
  if e.undefinedHere && !e.flags.any (namePrototype ||| nameAlias) then e.flags &&& ~~~nameUndefined else e.flags

/-- an entry with its mark as inherited -/
def Entry.marked (e : Entry) : Entry :=
  if e.undefinedHere then { e with flags := e.funflags ||| nameInherited } else e

/-- `epilog` at one entry: it is marked, and an alias takes over the entry it stands for -/
def epilogEntry (es : List Entry) (i : ℕ) : List Entry :=
  match es[i]? with
  | none => es
  | some e =>
    let es' := es.set i e.marked
    if e.funflags.any nameAlias then
      match es'[e.aliasFor]? with
      | none => es'
      | some which =>
        if !which.flags.any nameInherited || 2 ≤ which.aliasFor then
          es'.set i { e.marked with rentry := which.rentry, flags := which.flags ||| nameAlias }
        else es'
    else es'

/-- the runtime function table of a program, before it is compressed -/
structure Table where
  inherits : List InheritRecord
  entries : List Entry

/-- the table of a source file -/
def compile (steps : List Step) : Table :=
  let b := steps.foldl step Builder.empty
  ⟨b.inherits, (range b.entries.length).foldl epilogEntry b.entries⟩

/-! ## What the compiler keeps -/

/-- an entry points at a function of an inherited program -/
def Points (inh : List InheritRecord) (r : RuntimeFunction) : Prop :=
  ∃ offset index record, r = .inherited offset index ∧ inh[offset]? = some record ∧ index < record.numFunctions

/-- an entry that is or will be marked as inherited points at a function of an inherited program -/
def EntryOk (inh : List InheritRecord) (e : Entry) : Prop :=
  e.flags.any (nameInherited ||| nameDefByInherit) = true → Points inh e.rentry

/-- the indices fit `function_index_t` -/
def Fits (inh : List InheritRecord) (es : List Entry) : Prop := es.length < 65536 ∧ inh.length < 65536

/-- the copied functions of the inherited programs lie one behind the other -/
structure Ok (inh : List InheritRecord) (es : List Entry) : Prop where
  layout : inh.Pairwise fun i j => i.functionIndexOffset + i.numFunctions ≤ j.functionIndexOffset
  inside : ∀ i ∈ inh, i.functionIndexOffset + i.numFunctions ≤ es.length
  entries : ∀ e ∈ es, EntryOk inh e

def AllOk (inh : List InheritRecord) (es : List Entry) : Prop := ∀ e ∈ es, EntryOk inh e

variable {inh : List InheritRecord} {e : Entry} {es : List Entry} {i index : ℕ} {typemod : FunctionFlags} {b : Builder}
  {f : InheritedFunction} {s : Step}

theorem Points.append {r : RuntimeFunction} (h : Points inh r) (more : List InheritRecord) : Points (inh ++ more) r := by
  obtain ⟨offset, index, record, hr, ho, hi⟩ := h
  refine ⟨offset, index, record, hr, ?_, hi⟩
  rw [List.getElem?_append_left (List.getElem?_eq_some_iff.1 ho).1]
  exact ho

theorem EntryOk.of_points (h : Points inh e.rentry) : EntryOk inh e := fun _ => h

/-- a definition is not marked as inherited -/
theorem entryOk_head (h : FunctionHead) (num aliasFor : ℕ) : EntryOk inh (h.entry num aliasFor) := by
  have hmod : FunctionFlags.any (h.modifiers &&& nameTypeMod) (nameInherited ||| nameDefByInherit) = false :=
    FunctionFlags.any_and_of_disjoint (by decide)
  have hone : ∀ (c : Bool) (x : FunctionFlags), x.any (nameInherited ||| nameDefByInherit) = false →
      FunctionFlags.any (if c then x else 0) (nameInherited ||| nameDefByInherit) = false := by
    intro c x hx
    cases c with
    | false =>
      rw [if_neg Bool.false_ne_true]
      decide
    | true => exact hx
  have hflags : h.flags.any (nameInherited ||| nameDefByInherit) = false := by
    rw [FunctionHead.flags, FunctionFlags.any_or_left, FunctionFlags.any_or_left, FunctionFlags.any_or_left, hmod,
      hone _ _ (by decide), hone _ _ (by decide), hone _ _ (by decide)]
    rfl
  intro hmarked
  exact absurd (hflags.symm.trans hmarked) Bool.false_ne_true

/-- an entry is overloaded by a function of the inherited program that is being copied -/
theorem entryOk_overload {b : Builder} {typemod : FunctionFlags} {f : InheritedFunction} {index : ℕ}
    (hp : Points inh (.inherited b.currentInherit (ushort index))) (he : EntryOk inh e) :
    EntryOk inh (overload b typemod f index e) := by
  have hcases : EntryOk inh (if e.flags.any nameUndefined && !f.flags.any nameNoCode then
      { e with flags := copiedFlags f.flags typemod,
               rentry := .inherited b.currentInherit (ushort index), own := false }
      else e) := by
    split
    · exact EntryOk.of_points hp
    · exact he
  cases ha : f.flags.any nameAlias with
  | true =>
    rw [overload, if_pos ha]
    exact hcases
  | false =>
    rw [overload, if_neg (by simp [ha])]
    exact hcases

theorem forall_mem_set (h : AllOk inh es) (he : EntryOk inh e) : AllOk inh (es.set i e) := by
  intro x hx
  rcases mem_or_eq_of_mem_set hx with hmem | rfl
  · exact h x hmem
  · exact he

theorem forall_mem_concat (h : AllOk inh es) (he : EntryOk inh e) : AllOk inh (es ++ [e]) :=
  forall_mem_append.2 ⟨h, forall_mem_singleton.2 he⟩

theorem forall_mem_modify {g : Entry → Entry} (h : AllOk inh es) (hg : ∀ x, EntryOk inh x → EntryOk inh (g x)) :
    AllOk inh (es.modify i g) := by
  intro x hx
  obtain ⟨k, hk⟩ := mem_iff_getElem?.1 hx
  rw [getElem?_modify] at hk
  cases he : es[k]? with
  | none => simp [he] at hk
  | some y =>
    have hy := h y (mem_of_getElem? he)
    simp only [he, Option.map_eq_map, Option.map_some, Option.some.injEq] at hk
    rw [← hk]
    split
    · exact hg y hy
    · exact hy

@[simp] theorem inherits_copyOne : (copyOne typemod b f index).inherits = b.inherits := by
  unfold copyOne
  dsimp only
  split <;> rfl

@[simp] theorem length_copyOne : (copyOne typemod b f index).entries.length = b.entries.length + 1 := by
  unfold copyOne
  dsimp only
  split <;> simp [overloadFunction, copyFunction]

theorem entries_copyOne (typemod : FunctionFlags) (f : InheritedFunction)
    (hp : Points b.inherits (.inherited b.currentInherit (ushort index))) (h : AllOk b.inherits b.entries) :
    AllOk b.inherits (copyOne typemod b f index).entries := by
  unfold copyOne
  dsimp only
  split
  · exact forall_mem_concat (forall_mem_modify h fun e he => entryOk_overload hp he) (EntryOk.of_points hp)
  · exact forall_mem_concat h (EntryOk.of_points hp)

@[simp] theorem inherits_copyFunctions (fs : List InheritedFunction) :
    (copyFunctions typemod b fs index).inherits = b.inherits := by
  induction fs generalizing b index with
  | nil => rfl
  | cons f fs ih => rw [copyFunctions, ih, inherits_copyOne]

@[simp] theorem length_copyFunctions (fs : List InheritedFunction) :
    (copyFunctions typemod b fs index).entries.length = b.entries.length + fs.length := by
  induction fs generalizing b index with
  | nil => rfl
  | cons f fs ih =>
    rw [copyFunctions, ih, length_copyOne, length_cons]
    omega

/-- copying the functions of the last inherited program from `index` on keeps the entries in order -/
theorem entries_copyFunctions (fs : List InheritedFunction) {record : InheritRecord}
    (hcur : b.inherits[b.currentInherit]? = some record) (hcount : index + fs.length = record.numFunctions)
    (hfits : index + fs.length < 65536) (h : AllOk b.inherits b.entries) :
    AllOk b.inherits (copyFunctions typemod b fs index).entries := by
  induction fs generalizing b index with
  | nil => exact h
  | cons f fs ih =>
    rw [length_cons] at hcount hfits
    have hp : Points b.inherits (.inherited b.currentInherit (ushort index)) := by
      refine ⟨_, _, record, rfl, hcur, ?_⟩
      rw [ushort_of_lt (by omega)]
      omega
    have hstep := entries_copyOne typemod f hp h
    have hcur' : (copyOne typemod b f index).inherits[(copyOne typemod b f index).currentInherit]? = some record := by
      rw [Builder.currentInherit, inherits_copyOne]
      exact hcur
    have hrest := @ih (index + 1) _ hcur' (by omega) (by omega) (by rwa [inherits_copyOne])
    rwa [inherits_copyOne] at hrest

@[simp] theorem inherits_defineNewFunction (h : FunctionHead) : (defineNewFunction b h).inherits = b.inherits := by
  unfold defineNewFunction
  dsimp only
  repeat' split
  all_goals rfl

theorem length_defineNewFunction (h : FunctionHead) : b.entries.length ≤ (defineNewFunction b h).entries.length := by
  unfold defineNewFunction
  dsimp only
  repeat' split
  all_goals simp

theorem entries_defineNewFunction (h : FunctionHead) (hb : AllOk inh b.entries) :
    AllOk inh (defineNewFunction b h).entries := by
  unfold defineNewFunction
  dsimp only
  repeat' split
  · exact forall_mem_concat hb (entryOk_head h _ _)
  · exact hb
  · exact hb
  · exact hb
  all_goals exact forall_mem_set hb (entryOk_head h _ _)

/-- a step of the parser only makes the table and the list of inherited programs longer -/
theorem fits_of_step (h : Fits (step b s).inherits (step b s).entries) : Fits b.inherits b.entries := by
  cases s with
  | inherit functions typemod =>
    simp only [Fits, step, inherits_copyFunctions, length_copyFunctions, length_append, length_singleton] at h
    exact ⟨by omega, by omega⟩
  | define head =>
    simp only [Fits, step, inherits_defineNewFunction] at h
    exact ⟨lt_of_le_of_lt (length_defineNewFunction head) h.1, h.2⟩

/-- a step of the parser keeps the table in order -/
theorem ok_step (h : Ok b.inherits b.entries) (hfits : Fits (step b s).inherits (step b s).entries) :
    Ok (step b s).inherits (step b s).entries := by
  cases s with
  | define head =>
    simp only [step, inherits_defineNewFunction]
    exact ⟨h.layout, fun i hi => le_trans (h.inside i hi) (length_defineNewFunction head),
      entries_defineNewFunction head h.entries⟩
  | inherit functions typemod =>
    have hlen : b.entries.length + functions.length < 65536 := by
      have := hfits.1
      simpa [step] using this
    have hinh : b.inherits.length + 1 < 65536 := by
      have := hfits.2
      simpa [step] using this
    have hoff : ushort b.entries.length = b.entries.length := ushort_of_lt (by omega)
    simp only [step, inherits_copyFunctions, hoff]
    refine ⟨?_, ?_, ?_⟩
    · refine pairwise_append.2 ⟨h.layout, pairwise_singleton _ _, ?_⟩
      intro i hi j hj
      rw [mem_singleton.1 hj]
      exact h.inside i hi
    · rw [length_copyFunctions]
      exact forall_mem_append.2 ⟨fun i hi => le_trans (h.inside i hi) le_self_add, forall_mem_singleton.2 le_rfl⟩
    · -- the record just added is the one the copied functions point at
      have hcur : (b.inherits ++ [(⟨b.entries.length, functions.length⟩ : InheritRecord)])[ushort
          ((b.inherits ++ [(⟨b.entries.length, functions.length⟩ : InheritRecord)]).length - 1)]? =
          some ⟨b.entries.length, functions.length⟩ := by
        rw [length_append, length_singleton, ushort_of_lt (by omega)]
        exact getElem?_concat_length
      exact entries_copyFunctions (b := ⟨b.entries, b.inherits ++ [⟨b.entries.length, functions.length⟩],
        b.compilerFunctions⟩) functions hcur (Nat.zero_add _) (by omega) fun e he hm => (h.entries e he hm).append _

/-- every run of the parser keeps the table in order -/
theorem ok_steps (steps : List Step) (h : Ok b.inherits b.entries)
    (hfits : Fits (steps.foldl step b).inherits (steps.foldl step b).entries) :
    Ok (steps.foldl step b).inherits (steps.foldl step b).entries := by
  induction steps using reverseRecOn with
  | nil => exact h
  | append_singleton steps s ih =>
    rw [foldl_append] at hfits ⊢
    exact ok_step (ih (fits_of_step hfits)) hfits

@[simp] theorem length_epilogEntry (es : List Entry) (i : ℕ) : (epilogEntry es i).length = es.length := by
  simp only [epilogEntry]
  repeat' split
  all_goals simp

/-- an entry that gets the mark was defined by inheritance -/
theorem entryOk_marked {e : Entry} (h : EntryOk inh e) : EntryOk inh e.marked := by
  unfold Entry.marked
  split
  case isFalse => exact h
  case isTrue hu =>
    refine EntryOk.of_points (h ?_)
    have hd : e.flags.any nameDefByInherit = true := (Bool.and_eq_true_iff.1 hu).2
    have hor : e.flags.any (nameInherited ||| nameDefByInherit) =
        (e.flags.any nameInherited || e.flags.any nameDefByInherit) := FunctionFlags.any_or_right _ _ _
    rw [hor, hd, Bool.or_true]

/-- `epilog` keeps the entries in order -/
theorem entries_epilogEntry {es : List Entry} (i : ℕ) (h : AllOk inh es) : AllOk inh (epilogEntry es i) := by
  cases he : es[i]? with
  | none =>
    simp only [epilogEntry, he]
    exact h
  | some e =>
    have hmarked : AllOk inh (es.set i e.marked) :=
      forall_mem_set h (entryOk_marked (h e (mem_of_getElem? he)))
    simp only [epilogEntry, he]
    split
    case isFalse => exact hmarked
    case isTrue =>
      split
      case h_1 => exact hmarked
      case h_2 which hw =>
        split
        case isFalse => exact hmarked
        case isTrue =>
          refine forall_mem_set hmarked fun hflags => hmarked which (mem_of_getElem? hw) ?_
          have halias : FunctionFlags.any nameAlias (nameInherited ||| nameDefByInherit) = false := by decide
          rwa [FunctionFlags.any_or_left, halias, Bool.or_false] at hflags

theorem entries_epilog (es : List Entry) (is : List ℕ) (h : AllOk inh es) : AllOk inh (is.foldl epilogEntry es) := by
  induction is generalizing es with
  | nil => exact h
  | cons i is ih => exact ih (epilogEntry es i) (entries_epilogEntry i h)

theorem length_epilog (es : List Entry) (is : List ℕ) : (is.foldl epilogEntry es).length = es.length := by
  induction is generalizing es with
  | nil => rfl
  | cons i is ih => exact (ih (epilogEntry es i)).trans (length_epilogEntry es i)

/-- **The compiler's table is in order.** Whatever a source file inherits and defines, as long as its indices fit
`function_index_t`. -/
theorem compile_ok (steps : List Step) (hfits : Fits (compile steps).inherits (compile steps).entries) :
    Ok (compile steps).inherits (compile steps).entries := by
  have hlen : (compile steps).entries.length = (steps.foldl step Builder.empty).entries.length := length_epilog _ _
  have hempty : Ok Builder.empty.inherits Builder.empty.entries := ⟨List.Pairwise.nil, nofun, nofun⟩
  have hfits' : Fits (steps.foldl step Builder.empty).inherits (steps.foldl step Builder.empty).entries :=
    ⟨hlen ▸ hfits.1, hfits.2⟩
  have hok := ok_steps steps hempty hfits'
  refine ⟨hok.layout, fun i hi => ?_, entries_epilog _ _ hok.entries⟩
  rw [hlen]
  exact hok.inside i hi

end Lithos.Lpc.Program.FunctionTable
