/-
The apply cache (`src/apply.cpp`): `find_function` looks a function up in a program and the programs it inherits, and
`apply_low` calls it, remembering what it found in a table indexed by a hash of the program and the function name.

`find_function` searches each function table by the addresses of the shared name strings. The compiler sorts the tables by
these addresses, except that the initialiser `#global_init#` stays last. `search` is the lookup the driver means: by name,
the program itself first and then its inherited programs from last to first.

An entry of the cache says what a lookup found, or that it found nothing. The same mark is written when the function was
found but hidden from the caller, and a call whose frame cannot be set up leaves an entry half written.

Results:
* `find_function_eq_search`: `find_function` is the search by name, with the offsets summed along the inheritance path;
* `apply_low_transparent`: over any sequence of calls that all get their frames, in which no refused call comes before an
  allowed one of the same function, each call runs what a lookup without the cache finds;
* `refused_call_hides_function`: a `call_other` to a static function makes the driver's next call of it fail.
-/
import Lithos.Core.BinarySearch
import Lithos.Lpc.Program.FunctionTable

namespace Lithos.Driver.ApplyCache

open Lithos.Core.BinarySearch List Option
open Lithos.Lpc.Program.FunctionTable

/-! ## Programs -/

/-- `compiler_function_t`: the shared string of the name, by its characters and its address -/
structure CompilerFunction where
  name : String
  nameAddr : ℕ
  runtimeIndex : ℕ
  address : ℕ
  deriving DecidableEq

/-- `runtime_defined_t` -/
structure RuntimeDefined where
  numArg : ℕ
  numLocal : ℕ
  deriving DecidableEq, Inhabited

/-- `inherit_t` -/
structure Inherit (P : Type) where
  prog : P
  functionIndexOffset : ℕ
  variableIndexOffset : ℕ

/-- the fields of `program_t` beside the inherited programs; `addr` is the address of the program and `funcEntry` is what
`FIND_FUNC_ENTRY` gives for a function defined in it -/
structure ProgramInfo where
  addr : ℕ
  idNumber : ℕ
  functionTable : List CompilerFunction
  functionFlags : List FunctionFlags
  funcEntry : List RuntimeDefined

/-- `program_t` -/
inductive Program where
  | mk (info : ProgramInfo) (inherit : List (Inherit Program))

namespace Program

def info : Program → ProgramInfo
  | .mk i _ => i

def inherit : Program → List (Inherit Program)
  | .mk _ l => l

end Program

namespace ProgramInfo

/-- `prog->function_flags[ridx]` -/
def flagsAt (i : ProgramInfo) (ridx : ℕ) : FunctionFlags := i.functionFlags.getD ridx 0

/-- `FIND_FUNC_ENTRY (prog, ridx)->def` -/
def entryAt (i : ProgramInfo) (ridx : ℕ) : RuntimeDefined := i.funcEntry.getD ridx default

/-- the address of the name at a position of the function table -/
def nameAt (i : ProgramInfo) (mid : ℕ) : ℕ := (i.functionTable[mid]?.map (·.nameAddr)).getD 0

/-- the runtime index of a position of the function table -/
def runtimeIndexAt (i : ProgramInfo) (mid : ℕ) : ℕ := (i.functionTable[mid]?.map (·.runtimeIndex)).getD 0

end ProgramInfo

/-- a definition as the lookup returns it: the defining program, the index in its function table and the offsets -/
structure Found where
  prog : Program
  index : ℕ
  fio : ℕ
  vio : ℕ

/-- what the function table of one program says about a name -/
inductive Local where
  | defined (mid : ℕ)
  | noCode
  | goOn

/-- the binary search of `find_function` in one function table -/
def findLocal (i : ProgramInfo) (name : ℕ) : Local :=
  match bsearch i.nameAt name 0 i.functionTable.length with
  | none => .goOn
  | some mid =>
    let flags := i.flagsAt (i.runtimeIndexAt mid)
    if flags.any (nameUndefined ||| namePrototype ||| nameInherited) then
      if flags.any nameInherited then .goOn else .noCode
    else .defined mid

mutual

/-- `find_function`, on the address of the shared name -/
def findFunction : Program → ℕ → Option Found
  | .mk i inh, name =>
    match findLocal i name with
    | .defined mid => some ⟨.mk i inh, mid, 0, 0⟩
    | .noCode => none
    | .goOn => findInherited inh name

/-- the loop of `find_function` over the inherited programs, the last one first -/
def findInherited : List (Inherit Program) → ℕ → Option Found
  | [], _ => none
  | ⟨p, fio, vio⟩ :: inh, name =>
    match findInherited inh name with
    | some f => some f
    | none =>
      match findFunction p name with
      | some f => some { f with fio := f.fio + fio, vio := f.vio + vio }
      | none => none

end

/-! ## The lookup by name -/

/-- an entry of the function table that has code at this level -/
def ProgramInfo.hasCode (i : ProgramInfo) (f : CompilerFunction) : Bool :=
  !(i.flagsAt f.runtimeIndex).any (nameUndefined ||| namePrototype ||| nameInherited)

/-- the position of the definition of `name` in the program itself -/
def ProgramInfo.definition (i : ProgramInfo) (name : String) : Option ℕ :=
  i.functionTable.findIdx? fun f => f.name == name && i.hasCode f

/-- a definition with the inherit statements that lead to it, outermost first -/
structure Definition where
  path : List (Inherit Program)
  prog : Program
  index : ℕ

mutual

/-- the definition of a name: in the program, else in its inherited programs from last to first -/
def search : Program → String → Option Definition
  | .mk i inh, name =>
    match i.definition name with
    | some mid => some ⟨[], .mk i inh, mid⟩
    | none => searchInherited inh name

/-- the definition of a name in a list of inherited programs, from last to first -/
def searchInherited : List (Inherit Program) → String → Option Definition
  | [], _ => none
  | ⟨p, fio, vio⟩ :: inh, name =>
    match searchInherited inh name with
    | some d => some d
    | none => (search p name).map fun d => { d with path := ⟨p, fio, vio⟩ :: d.path }

end

/-- a definition with its offsets, the sums along the inheritance path -/
def Definition.found (d : Definition) : Found where
  prog := d.prog
  index := d.index
  fio := (d.path.map (·.functionIndexOffset)).sum
  vio := (d.path.map (·.variableIndexOffset)).sum

/-- `name[0] == APPLY___INIT_SPECIAL_CHAR` -/
def isInit (name : String) : Bool := name.toList.head? == some '#'

/-- the order `compare_compiler_funcs` gives a function table: by the addresses of the names, the initialiser last -/
def Before (f g : CompilerFunction) : Prop := isInit f.name = false ∧ (isInit g.name = true ∨ f.nameAddr < g.nameAddr)

instance (f g : CompilerFunction) : Decidable (Before f g) := inferInstanceAs (Decidable (_ ∧ _))

mutual

/-- the programs the compiler leaves: sorted function tables, and no prototype over an inherited definition, which
`overload_function` and `epilog` turn into an entry with `NAME_INHERITED` -/
def WellFormed : Program → Prop
  | .mk i inh =>
    i.functionTable.Pairwise Before ∧
    (∀ f ∈ i.functionTable, i.hasCode f = false → (i.flagsAt f.runtimeIndex).any nameInherited = false →
      searchInherited inh f.name = none) ∧
    InheritedWellFormed inh

def InheritedWellFormed : List (Inherit Program) → Prop
  | [] => True
  | ⟨p, _, _⟩ :: inh => WellFormed p ∧ InheritedWellFormed inh

end

mutual

/-- the functions of a program and of all it inherits -/
def allFunctions : Program → List CompilerFunction
  | .mk i inh => i.functionTable ++ inheritedFunctions inh

def inheritedFunctions : List (Inherit Program) → List CompilerFunction
  | [] => []
  | ⟨p, _, _⟩ :: inh => allFunctions p ++ inheritedFunctions inh

end

/-- `addr` is the address of the shared string `name`: no other function name of the program has it -/
def Shared (fs : List CompilerFunction) (name : String) (addr : ℕ) : Prop :=
  ∀ f ∈ fs, f.nameAddr = addr ↔ f.name = name

instance (fs : List CompilerFunction) (name : String) (addr : ℕ) : Decidable (Shared fs name addr) :=
  inferInstanceAs (Decidable (∀ f ∈ fs, _))

/-! ## `find_function` is the search by name -/

variable {name : String} {addr t : ℕ} {f : CompilerFunction} {i : ProgramInfo}

theorem nameAt_of_getElem? (h : i.functionTable[t]? = some f) : i.nameAt t = f.nameAddr := by
  simp [ProgramInfo.nameAt, h]

/-- entries at two positions of a sorted table stand in its order -/
theorem before_of_lt {l : List CompilerFunction} (hs : l.Pairwise Before) {s : ℕ} (hst : s < t) {g : CompilerFunction}
    (hf : l[s]? = some f) (hg : l[t]? = some g) : Before f g := by
  obtain ⟨hsl, hf⟩ := List.getElem?_eq_some_iff.1 hf
  obtain ⟨htl, hg⟩ := List.getElem?_eq_some_iff.1 hg
  have h := List.pairwise_iff_getElem.1 hs s t hsl htl hst
  rwa [hf, hg] at h

/-- a name that stands in the table is found by its address: the initialiser is never in the way -/
theorem bsearch_of_getElem? (hs : i.functionTable.Pairwise Before) (haddr : Shared i.functionTable name addr)
    (hname : isInit name = false) (ht : i.functionTable[t]? = some f) (hf : f.name = name) :
    bsearch i.nameAt addr 0 i.functionTable.length = some t := by
  have hmem : f ∈ i.functionTable := mem_of_getElem? ht
  have hfa : f.nameAddr = addr := (haddr f hmem).2 hf
  have htl : t < i.functionTable.length := (List.getElem?_eq_some_iff.1 ht).1
  refine bsearch_eq_some i.nameAt addr 0 i.functionTable.length t (Nat.zero_le t) htl ?_ ?_ ?_
  · rw [nameAt_of_getElem? ht, hfa]
  · intro s _ hst
    have hg := getElem?_eq_getElem (l := i.functionTable) (i := s) (by omega)
    rw [nameAt_of_getElem? hg, ← hfa]
    rcases (before_of_lt hs hst hg ht).2 with hinit | hlt
    · rw [hf, hname] at hinit
      cases hinit
    · exact hlt
  · -- an entry after `t` that is not the last one comes before another, so it is not the initialiser
    intro s hts hsl
    have hg := getElem?_eq_getElem (l := i.functionTable) (i := s) (by omega)
    have hg' := getElem?_eq_getElem hsl
    rw [nameAt_of_getElem? hg, ← hfa]
    rcases (before_of_lt hs hts ht hg).2 with hinit | hlt
    · rw [(before_of_lt hs (Nat.lt_succ_self s) hg hg').1] at hinit
      cases hinit
    · exact hlt

/-- an entry of the name decides what the search in the table says -/
theorem findLocal_of_getElem? (hs : i.functionTable.Pairwise Before) (haddr : Shared i.functionTable name addr)
    (hname : isInit name = false) (ht : i.functionTable[t]? = some f) (hf : f.name = name) :
    findLocal i addr = if i.hasCode f then .defined t
      else if (i.flagsAt f.runtimeIndex).any nameInherited then .goOn else .noCode := by
  simp only [findLocal, bsearch_of_getElem? hs haddr hname ht hf, ProgramInfo.runtimeIndexAt, ht, ProgramInfo.hasCode]
  by_cases hc : (i.flagsAt f.runtimeIndex).any (nameUndefined ||| namePrototype ||| nameInherited) = true
  all_goals simp [hc]

/-- a name that is not in the table is searched in the inherited programs -/
theorem findLocal_of_forall_ne (haddr : Shared i.functionTable name addr)
    (hne : ∀ f ∈ i.functionTable, f.name ≠ name) : findLocal i addr = .goOn := by
  cases hb : bsearch i.nameAt addr 0 i.functionTable.length with
  | none => simp only [findLocal, hb]
  | some t =>
    obtain ⟨_, htl, hk⟩ := bsearch_spec i.nameAt addr 0 i.functionTable.length t hb
    have hg := getElem?_eq_getElem htl
    rw [nameAt_of_getElem? hg] at hk
    exact absurd ((haddr _ (getElem_mem htl)).1 hk) (hne _ (getElem_mem htl))

/-- the name stands in a sorted table at most once, so its entry is the definition when it has code -/
theorem definition_of_getElem? (hs : i.functionTable.Pairwise Before) (haddr : Shared i.functionTable name addr)
    (hname : isInit name = false) (ht : i.functionTable[t]? = some f) (hf : f.name = name) :
    i.definition name = if i.hasCode f then some t else none := by
  have hfind := bsearch_of_getElem? hs haddr hname ht hf
  cases hd : i.definition name with
  | none =>
    have hnone := findIdx?_eq_none_iff.1 hd f (mem_of_getElem? ht)
    rw [hf, beq_self_eq_true, Bool.true_and] at hnone
    rw [hnone]
    rfl
  | some s =>
    obtain ⟨hsl, hp, -⟩ := findIdx?_eq_some_iff_getElem.1 hd
    obtain ⟨hsn, hcode⟩ := Bool.and_eq_true_iff.1 hp
    have hg := getElem?_eq_getElem hsl
    obtain rfl : t = s := some.inj (hfind.symm.trans (bsearch_of_getElem? hs haddr hname hg (beq_iff_eq.1 hsn)))
    obtain rfl := some.inj (hg.symm.trans ht)
    rw [if_pos hcode]

theorem definition_of_forall_ne (hne : ∀ f ∈ i.functionTable, f.name ≠ name) : i.definition name = none := by
  refine findIdx?_eq_none_iff.2 fun f hf => ?_
  rw [beq_eq_false_iff_ne.2 (hne f hf), Bool.false_and]

theorem Shared.mono {fs gs : List CompilerFunction} (h : Shared fs name addr) (hsub : ∀ f ∈ gs, f ∈ fs) :
    Shared gs name addr := fun f hf => h f (hsub f hf)

mutual

/-- **`find_function` is the search by name.** In a program the compiler leaves, the lookup of the address of a shared
name finds the definition in the program itself or else in its inherited programs from last to first, with the offsets
summed along the inheritance path. -/
theorem find_function_eq_search (hname : isInit name = false) :
    ∀ p : Program, WellFormed p → Shared (allFunctions p) name addr →
      findFunction p addr = (search p name).map Definition.found
  | .mk i inh, hw, haddr => by
    obtain ⟨hs, hproto, hinh⟩ := hw
    have hloc : Shared i.functionTable name addr := haddr.mono fun f hf => mem_append_left _ hf
    have hrest := find_inherited_eq_search hname inh hinh (haddr.mono fun f hf => mem_append_right _ hf)
    by_cases hex : ∃ f ∈ i.functionTable, f.name = name
    · obtain ⟨f, hf, hfn⟩ := hex
      obtain ⟨t, ht⟩ := mem_iff_getElem?.1 hf
      simp only [findFunction, search, findLocal_of_getElem? hs hloc hname ht hfn,
        definition_of_getElem? hs hloc hname ht hfn]
      cases hcode : i.hasCode f with
      | true => rfl
      | false =>
        cases hi : (i.flagsAt f.runtimeIndex).any nameInherited with
        | true => exact hrest
        | false =>
          have hnone : searchInherited inh name = none := hfn ▸ hproto f hf hcode hi
          simp [hnone]
    · have hne : ∀ f ∈ i.functionTable, f.name ≠ name := fun f hf hfn => hex ⟨f, hf, hfn⟩
      simp only [findFunction, search, findLocal_of_forall_ne hloc hne, definition_of_forall_ne hne]
      exact hrest

theorem find_inherited_eq_search (hname : isInit name = false) :
    ∀ inh : List (Inherit Program), InheritedWellFormed inh → Shared (inheritedFunctions inh) name addr →
      findInherited inh addr = (searchInherited inh name).map Definition.found
  | [], _, _ => rfl
  | ⟨p, fio, vio⟩ :: inh, hw, haddr => by
    have hp := find_function_eq_search hname p hw.1 (haddr.mono fun f hf => mem_append_left _ hf)
    have hrest := find_inherited_eq_search hname inh hw.2 (haddr.mono fun f hf => mem_append_right _ hf)
    simp only [findInherited, searchInherited, hrest, hp]
    cases searchInherited inh name with
    | some d => rfl
    | none =>
      cases search p name with
      | none => rfl
      | some d => simp [Definition.found, Nat.add_comm]

end

/-! ## `apply_low` -/

/-- `ORIGIN_*`, where a call comes from -/
inductive Origin where
  | driver
  | localCall
  | callOther
  | simulEfun
  | callOut
  | efun
  | functionPointer
  | functional
  deriving DecidableEq

/-- `function_visible` -/
def functionVisible : Origin → FunctionFlags → Bool
  | .callOther, flags => !flags.any (nameStatic ||| namePrivate ||| nameProtected)
  | _, _ => true

/-- the programs in memory, by address, while none of them is freed -/
structure World where
  program : ℕ → Program
  addr_program : ∀ a, (program a).info.addr = a
  wellFormed : ∀ a, WellFormed (program a)

/-- `cache_entry_t`; `released` says that the reference to `name` was given back and the name not replaced -/
structure CacheEntry where
  id : ℕ := 0
  oprogp : Option ℕ := none
  progp : Option Program := none
  index : ℕ := 0
  name : Option String := none
  released : Bool := false
  numArg : ℕ := 0
  numLocal : ℕ := 0
  fio : ℕ := 0
  vio : ℕ := 0

abbrev Cache := ℕ → CacheEntry

def emptyCache : Cache := fun _ => {}

/-- how the frame of a call is set up: `push_control_stack` and `setup_variables` raise an error when the control stack
or the value stack is full -/
inductive FrameSetup where
  | ready
  | tooDeep
  | localsFail
  deriving DecidableEq

/-- a call of `apply_low`: the address of the object's program, the characters and the address of `fun`, what `findstring`
gives for it, and `call_origin`, which is 0 for the driver's own calls -/
structure Call where
  ob : ℕ
  name : String
  nameAddr : ℕ
  sharedName : Option ℕ
  callOrigin : Option Origin
  setup : FrameSetup

/-- `local_call_origin` -/
def Call.origin (c : Call) : Origin := c.callOrigin.getD .driver

/-- what `call_program` is entered with -/
structure Frame where
  prog : Program
  index : ℕ
  fio : ℕ
  vio : ℕ
  numArg : ℕ
  numLocal : ℕ
  varargs : Bool
  callerType : Origin

/-- how a call of `apply_low` ends: it runs a function, it finds none to run, the set-up of the frame raises an error, or
it uses a name the entry no longer owns -/
inductive Result where
  | ran (f : Frame)
  | notRun
  | raised
  | dangling

def Result.isRan : Result → Bool
  | .ran _ => true
  | _ => false

/-- the slot of the cache for a program id and a name pointer -/
def slot (bits idNumber nameAddr : ℕ) : ℕ := (idNumber ^^^ nameAddr ^^^ (nameAddr >>> bits)) % 2 ^ bits

/-- the flags the object's program has for a definition -/
def flagsOf (top : Program) (f : Found) : FunctionFlags :=
  top.info.flagsAt (f.prog.info.runtimeIndexAt f.index + f.fio)

/-- the frame of a definition, with the argument and local counts of the defining program -/
def frameOf (top : Program) (f : Found) (d : RuntimeDefined) (origin : Origin) : Frame where
  prog := f.prog
  index := f.index
  fio := f.fio
  vio := f.vio
  numArg := d.numArg
  numLocal := d.numLocal
  varargs := (flagsOf top f).any nameTrueVarargs
  callerType := origin

/-- `FIND_FUNC_ENTRY (prog, funp->runtime_index)->def` -/
def Found.fundef (f : Found) : RuntimeDefined := f.prog.info.entryAt (f.prog.info.runtimeIndexAt f.index)

/-- `find_function_by_name2` -/
def findFunctionByName2 (p : Program) (c : Call) : Option Found :=
  c.sharedName.bind (findFunction p)

def Cache.set (cache : Cache) (s : ℕ) (e : CacheEntry) : Cache := fun t => if t = s then e else cache t

/-- the mark that a function is not in the object -/
def CacheEntry.absent (e : CacheEntry) (id ob : ℕ) (name : String) : CacheEntry :=
  { e with id := id, oprogp := some ob, name := some name, progp := none }

/-- the fields written before the local variables are set up -/
def CacheEntry.named (e : CacheEntry) (id ob : ℕ) (name : String) (f : Found) : CacheEntry :=
  { e with id := id, oprogp := some ob, name := some name, index := f.index, fio := f.fio, vio := f.vio }

/-- the fields written after the local variables are set up -/
def CacheEntry.filled (e : CacheEntry) (f : Found) : CacheEntry :=
  { e with progp := some f.prog, numArg := f.fundef.numArg, numLocal := f.fundef.numLocal }

/-- `apply_low` -/
def applyLow (w : World) (bits : ℕ) (cache : Cache) (c : Call) : Cache × Result :=
  let progp := w.program c.ob
  let s := slot bits progp.info.idNumber c.nameAddr
  let entry := cache s
  if entry.released then (cache, .dangling)
  else if entry.id = progp.info.idNumber ∧ entry.oprogp = some c.ob ∧ entry.name = some c.name then
    match entry.progp with
    | none => (cache, .notRun)
    | some prog =>
      let f : Found := ⟨prog, entry.index, entry.fio, entry.vio⟩
      if functionVisible c.origin (flagsOf progp f) then
        match c.setup with
        | .ready => (cache, .ran (frameOf progp f ⟨entry.numArg, entry.numLocal⟩ c.origin))
        | _ => (cache, .raised)
      else (cache, .notRun)
  else
    let absent := cache.set s (entry.absent progp.info.idNumber c.ob c.name)
    match findFunctionByName2 progp c with
    | none => (absent, .notRun)
    | some f =>
      if functionVisible c.origin (flagsOf progp f) then
        let named := entry.named progp.info.idNumber c.ob c.name f
        match c.setup with
        | .tooDeep => (cache.set s { entry with released := entry.id != 0 && entry.name.isSome }, .raised)
        | .localsFail => (cache.set s named, .raised)
        | .ready => (cache.set s (named.filled f), .ran (frameOf progp f f.fundef c.origin))
      else (absent, .notRun)

/-- the results of a sequence of calls -/
def run (w : World) (bits : ℕ) : Cache → List Call → List Result
  | _, [] => []
  | cache, c :: cs => (applyLow w bits cache c).2 :: run w bits (applyLow w bits cache c).1 cs

/-! ## The cache is transparent -/

/-- the shared string of a call's name is the one the program's functions have, if one of them has it at all -/
def Call.Sound (w : World) (c : Call) : Prop :=
  match c.sharedName with
  | some addr => Shared (allFunctions (w.program c.ob)) c.name addr
  | none => ∀ f ∈ allFunctions (w.program c.ob), f.name ≠ c.name

instance (w : World) (c : Call) : Decidable (c.Sound w) := by
  unfold Call.Sound
  split <;> infer_instance

/-- the definition a call means -/
def Call.definition (w : World) (c : Call) : Option Found := (search (w.program c.ob) c.name).map Definition.found

/-- the call without the cache: it runs the definition exactly when there is one that the caller may see -/
def uncached (w : World) (c : Call) : Result :=
  match c.definition w with
  | none => .notRun
  | some f =>
    if functionVisible c.origin (flagsOf (w.program c.ob) f) then
      .ran (frameOf (w.program c.ob) f f.fundef c.origin)
    else .notRun

/-- the function exists but is hidden from the caller -/
def refused (w : World) (c : Call) : Bool :=
  match c.definition w with
  | none => false
  | some f => !functionVisible c.origin (flagsOf (w.program c.ob) f)

/-- the sequences over which the cache is transparent: every frame can be set up, the initialiser is not called by name,
and no refused call comes before an allowed one of the same function -/
structure Undisturbed (w : World) (calls : List Call) : Prop where
  ready : ∀ c ∈ calls, c.setup = .ready
  named : ∀ c ∈ calls, isInit c.name = false
  refusals : calls.Pairwise fun c d => c.ob = d.ob → c.name = d.name → refused w c = true → refused w d = true

mutual

/-- a name no function has is not defined -/
theorem search_eq_none : ∀ p : Program, (∀ f ∈ allFunctions p, f.name ≠ name) → search p name = none
  | .mk i inh, h => by
    have hloc : i.definition name = none := definition_of_forall_ne fun f hf => h f (mem_append_left _ hf)
    simp only [search, hloc]
    exact searchInherited_eq_none inh fun f hf => h f (mem_append_right _ hf)

theorem searchInherited_eq_none :
    ∀ inh : List (Inherit Program), (∀ f ∈ inheritedFunctions inh, f.name ≠ name) → searchInherited inh name = none
  | [], _ => rfl
  | ⟨p, fio, vio⟩ :: inh, h => by
    simp only [searchInherited, searchInherited_eq_none inh fun f hf => h f (mem_append_right _ hf),
      search_eq_none p fun f hf => h f (mem_append_left _ hf), map_none]

end

variable {w : World} {c : Call}

/-- the lookup of a call is the search for its name -/
theorem findFunctionByName2_eq (hc : c.Sound w) (hname : isInit c.name = false) :
    findFunctionByName2 (w.program c.ob) c = c.definition w := by
  cases hs : c.sharedName with
  | none =>
    simp only [Call.Sound, hs] at hc
    simp only [findFunctionByName2, hs, bind_none, Call.definition, search_eq_none _ hc, map_none]
  | some addr =>
    simp only [Call.Sound, hs] at hc
    simp only [findFunctionByName2, hs, bind_some]
    exact find_function_eq_search hname _ (w.wellFormed c.ob) hc

/-- an entry says the truth about the function it names, but for the mark a refused call has left -/
structure EntrySound (w : World) (past : List Call) (e : CacheEntry) : Prop where
  owned : e.released = false
  present : ∀ a n p, e.oprogp = some a → e.name = some n → e.progp = some p →
    (search (w.program a) n).map Definition.found = some ⟨p, e.index, e.fio, e.vio⟩ ∧
      Found.fundef ⟨p, e.index, e.fio, e.vio⟩ = ⟨e.numArg, e.numLocal⟩
  absent : ∀ a n, e.oprogp = some a → e.name = some n → e.progp = none →
    search (w.program a) n = none ∨ ∃ c ∈ past, c.ob = a ∧ c.name = n ∧ refused w c = true

variable {past : List Call} {e : CacheEntry} {cache : Cache}

theorem EntrySound.mono (h : EntrySound w past e) (more : List Call) : EntrySound w (past ++ more) e where
  owned := h.owned
  present := h.present
  absent := by
    intro a n ha hn hp
    rcases h.absent a n ha hn hp with hnone | ⟨d, hd, hdc⟩
    · exact .inl hnone
    · exact .inr ⟨d, mem_append_left _ hd, hdc⟩

/-- the mark for an absent function is sound when the function is absent or the call was refused -/
theorem entrySound_absent (howned : e.released = false) (h : c.definition w = none ∨ refused w c = true) :
    EntrySound w (past ++ [c]) (e.absent (w.program c.ob).info.idNumber c.ob c.name) where
  owned := howned
  present := by
    intro a n p ha hn hp
    exact absurd hp (by simp [CacheEntry.absent])
  absent := by
    intro a n ha hn _
    obtain rfl : c.ob = a := some.inj ha
    obtain rfl : c.name = n := some.inj hn
    rcases h with hnone | href
    · exact .inl (map_eq_none_iff.1 hnone)
    · exact .inr ⟨c, by simp, rfl, rfl, href⟩

/-- the entry a call leaves for what it found is sound -/
theorem entrySound_filled (howned : e.released = false) {f : Found} (h : c.definition w = some f) :
    EntrySound w (past ++ [c]) ((e.named (w.program c.ob).info.idNumber c.ob c.name f).filled f) where
  owned := howned
  present := by
    intro a n p ha hn hp
    obtain rfl : c.ob = a := some.inj ha
    obtain rfl : c.name = n := some.inj hn
    obtain rfl : f.prog = p := some.inj hp
    exact ⟨h, rfl⟩
  absent := by
    intro a n _ _ hp
    exact absurd hp (by simp [CacheEntry.filled])

/-- every entry of the cache is sound -/
def CacheSound (w : World) (past : List Call) (cache : Cache) : Prop := ∀ s, EntrySound w past (cache s)

theorem CacheSound.set (h : CacheSound w past cache) {s : ℕ} {e : CacheEntry}
    (he : EntrySound w (past ++ [c]) e) : CacheSound w (past ++ [c]) (cache.set s e) := by
  intro t
  by_cases ht : t = s
  · rw [Cache.set, if_pos ht]
    exact he
  · rw [Cache.set, if_neg ht]
    exact (h t).mono [c]

/-- one call over a sound cache does what the call without the cache does, and leaves the cache sound -/
theorem applyLow_step (bits : ℕ) (h : CacheSound w past cache) (hc : c.Sound w) (hready : c.setup = .ready)
    (hname : isInit c.name = false)
    (hpast : ∀ d ∈ past, d.ob = c.ob → d.name = c.name → refused w d = true → refused w c = true) :
    (applyLow w bits cache c).2 = uncached w c ∧ CacheSound w (past ++ [c]) (applyLow w bits cache c).1 := by
  set s := slot bits (w.program c.ob).info.idNumber c.nameAddr with hs
  have he := h s
  have hkeep : CacheSound w (past ++ [c]) cache := fun t => (h t).mono [c]
  have hfind := findFunctionByName2_eq hc hname
  by_cases hhit : (cache s).id = (w.program c.ob).info.idNumber ∧ (cache s).oprogp = some c.ob ∧
      (cache s).name = some c.name
  · -- a hit: the entry names this function, so its data are the definition's
    suffices happly : applyLow w bits cache c = (cache, uncached w c) by
      rw [happly]
      exact ⟨rfl, hkeep⟩
    cases hp : (cache s).progp with
    | none =>
      have hun : uncached w c = .notRun := by
        rcases he.absent c.ob c.name hhit.2.1 hhit.2.2 hp with hnone | ⟨d, hd, hdo, hdn, href⟩
        · simp only [uncached, Call.definition, hnone, map_none]
        · -- the mark comes from a refused call: this one is refused too
          have hrefc := hpast d hd hdo hdn href
          cases hdef : c.definition w with
          | none => simp only [uncached, hdef]
          | some f =>
            simp only [refused, hdef, Bool.not_eq_true'] at hrefc
            simp only [uncached, hdef, hrefc]
            rfl
      simp only [applyLow, ← hs, he.owned, if_pos hhit, hp, hun]
      rfl
    | some p =>
      obtain ⟨hdef, hfd⟩ := he.present c.ob c.name p hhit.2.1 hhit.2.2 hp
      have hdef' : c.definition w = some ⟨p, (cache s).index, (cache s).fio, (cache s).vio⟩ := hdef
      cases hv : functionVisible c.origin (flagsOf (w.program c.ob) ⟨p, (cache s).index, (cache s).fio, (cache s).vio⟩) with
      | true =>
        simp only [applyLow, ← hs, he.owned, if_pos hhit, hp, hready, uncached, hdef', hfd, hv]
        rfl
      | false =>
        simp only [applyLow, ← hs, he.owned, if_pos hhit, hp, uncached, hdef', hv]
        rfl
  · -- a miss: the search decides, and the entry is rewritten
    obtain ⟨e, he', happly⟩ : ∃ e, EntrySound w (past ++ [c]) e ∧
        applyLow w bits cache c = (cache.set s e, uncached w c) := by
      cases hdef : c.definition w with
      | none =>
        refine ⟨_, entrySound_absent he.owned (.inl hdef), ?_⟩
        simp only [applyLow, ← hs, he.owned, if_neg hhit, hfind, hdef, uncached]
        rfl
      | some f =>
        cases hv : functionVisible c.origin (flagsOf (w.program c.ob) f) with
        | true =>
          refine ⟨_, entrySound_filled he.owned hdef, ?_⟩
          simp only [applyLow, ← hs, he.owned, if_neg hhit, hfind, hdef, hv, hready, uncached]
          rfl
        | false =>
          refine ⟨_, entrySound_absent he.owned (.inr (by simp only [refused, hdef, hv, Bool.not_false])), ?_⟩
          simp only [applyLow, ← hs, he.owned, if_neg hhit, hfind, hdef, hv, uncached]
          rfl
    rw [happly]
    exact ⟨rfl, h.set he'⟩

/-- the run lemma: from a sound cache every call does what the call without the cache does -/
theorem run_eq_uncached {bits : ℕ} (past calls : List Call) (cache : Cache) (h : CacheSound w past cache)
    (hs : ∀ c ∈ calls, c.Sound w) (hq : Undisturbed w (past ++ calls)) :
    run w bits cache calls = calls.map (uncached w) := by
  induction calls generalizing past cache with
  | nil => rfl
  | cons c cs ih =>
    have hmem : c ∈ past ++ c :: cs := mem_append_right _ (.head _)
    have hpast : ∀ d ∈ past, d.ob = c.ob → d.name = c.name → refused w d = true → refused w c = true := by
      intro d hd
      exact (pairwise_append.1 hq.refusals).2.2 d hd c mem_cons_self
    obtain ⟨hres, hsound⟩ :=
      applyLow_step bits h (hs c mem_cons_self) (hq.ready c hmem) (hq.named c hmem) hpast
    have hrest : Undisturbed w (past ++ [c] ++ cs) := by
      rw [append_assoc]
      exact hq
    rw [run, map_cons, hres, ih (past ++ [c]) _ hsound (fun d hd => hs d (mem_cons_of_mem c hd)) hrest]

/-- **The apply cache is transparent.** From the empty cache, in every sequence of calls whose frames can all be set up, in
which no refused call comes before an allowed one of the same function, each call runs a function exactly when the search
finds one the caller may see, and then that definition with its offsets; and `find_function` is that search. -/
theorem apply_low_transparent (w : World) (bits : ℕ) (calls : List Call) (hs : ∀ c ∈ calls, c.Sound w)
    (hq : Undisturbed w calls) :
    run w bits emptyCache calls = calls.map (uncached w) ∧
      ∀ c ∈ calls, findFunctionByName2 (w.program c.ob) c = c.definition w := by
  have hempty : CacheSound w [] emptyCache := fun _ => ⟨rfl, nofun, nofun⟩
  exact ⟨run_eq_uncached [] calls emptyCache hempty hs hq, fun c hc => findFunctionByName2_eq (hs c hc) (hq.named c hc)⟩

/-- a library with a public and a static function -/
def base : Program := .mk
  { addr := 2, idNumber := 2,
    functionTable := [⟨"greet", 40, 0, 100⟩, ⟨"secret", 56, 1, 120⟩],
    functionFlags := [0, nameStatic],
    funcEntry := [⟨1, 0⟩, ⟨0, 2⟩] } []

/-- an object that inherits the library behind one function of its own -/
def room : Program := .mk
  { addr := 1, idNumber := 1,
    functionTable := [⟨"enter", 24, 0, 0⟩],
    functionFlags := [0, nameInherited, nameInherited ||| nameStatic],
    funcEntry := [⟨0, 1⟩, ⟨0, 0⟩, ⟨0, 0⟩] } [⟨base, 1, 3⟩]

def samplePrograms : ℕ → Program
  | 1 => room
  | 2 => base
  | a => .mk ⟨a, a, [], [], []⟩ []

theorem wellFormed_base : WellFormed base := by
  refine ⟨by decide +kernel, by decide +kernel, trivial⟩

def sampleWorld : World where
  program := samplePrograms
  addr_program
    | 0 => rfl
    | 1 => rfl
    | 2 => rfl
    | _ + 3 => rfl
  wellFormed
    | 0 => ⟨List.Pairwise.nil, nofun, trivial⟩
    | 1 => ⟨by decide +kernel, by decide +kernel, wellFormed_base, trivial⟩
    | 2 => wellFormed_base
    | _ + 3 => ⟨List.Pairwise.nil, nofun, trivial⟩

/-- the driver greets, two objects ask for the static function, and one for a function nobody has -/
def sampleCalls : List Call :=
  [⟨1, "greet", 40, some 40, none, .ready⟩, ⟨1, "secret", 56, some 56, some .callOther, .ready⟩,
    ⟨1, "greet", 40, some 40, some .callOther, .ready⟩, ⟨1, "secret", 56, some 56, some .callOther, .ready⟩,
    ⟨2, "vanish", 88, none, some .callOut, .ready⟩]

theorem sampleCalls_transparent : run sampleWorld 11 emptyCache sampleCalls = sampleCalls.map (uncached sampleWorld) :=
  (apply_low_transparent sampleWorld 11 sampleCalls
    (by decide +kernel) ⟨by decide, by decide, by decide +kernel⟩).1

/-- a call of the static function, by the driver or by another object -/
def secretCall (origin : Option Origin) : Call := ⟨1, "secret", 56, some 56, origin, .ready⟩

/-- the driver's call of the public function -/
def greetCall (setup : FrameSetup) : Call := ⟨1, "greet", 40, some 40, none, setup⟩

/-- A refused `call_other` to a static function marks it as not defined, so the driver's next call of it runs nothing; and
a call whose local variables cannot be set up leaves an entry without its program, which hides a public function. -/
theorem refused_call_hides_function :
    (∀ origin, (secretCall origin).Sound sampleWorld) ∧ (∀ setup, (greetCall setup).Sound sampleWorld) ∧
    (run sampleWorld 11 emptyCache [secretCall (some .callOther), secretCall none]).map Result.isRan = [false, false] ∧
    (uncached sampleWorld (secretCall none)).isRan = true ∧
    (run sampleWorld 11 emptyCache [greetCall .localsFail, greetCall .ready]).map Result.isRan = [false, false] ∧
    (uncached sampleWorld (greetCall .ready)).isRan = true := by
  refine ⟨?_, ?_, by decide +kernel, by decide +kernel, by decide +kernel, by decide +kernel⟩
  · intro origin
    show Shared (allFunctions room) "secret" 56
    decide +kernel
  · intro setup
    show Shared (allFunctions room) "greet" 40
    decide +kernel

end Lithos.Driver.ApplyCache
