/-
The save file of an object (`save_object_recurse`, `find_global_variable`, `cns_recurse`, `restore_object_from_buff`).

An object keeps its variables in one flat array. Three functions walk the tree of inherited programs to find out which
entry belongs to which variable: the writer moves a pointer along the array, the lookup by name adds up indices until it
finds the name, and the clearing of non-static variables counts. `layout` is the array as a list of named slots, in the
order in which all of them walk; each of the three is an operation on it.

Results:
- `saveObjectRecurse_eq`: the writer writes one line for every slot that is not static, in the order of the layout.
- `findGlobalVariable_eq`: the lookup finds the first slot of that name.
- `clearNonStatics_eq`: the clearing sets exactly the slots that are not static.
-/
import Lithos.Lpc.Save.RoundTrip

namespace Lithos.Lpc.Save

open List Option

/-! ## Programs -/

def space : Byte := 32
def hash : Byte := 35
def underscore : Byte := 95

/-- a character of an identifier: a letter, a digit or an underscore -/
def isIdentChar (c : Byte) : Bool := (97 ≤ c && c ≤ 122) || (65 ≤ c && c ≤ 90) || isDigit c || c == underscore

/-- an identifier of any length -/
def Ident : Type := { s : List Byte // s ≠ [] ∧ ∀ c ∈ s, isIdentChar c = true }

/-- the name of a program, which stands in the first line of the file -/
def FileName : Type := { s : List Byte // ∀ c ∈ s, c ≠ newline ∧ c ≠ nul }

def nameStatic : UInt16 := 0x0200
def namePrivate : UInt16 := 0x0800
def namePublic : UInt16 := 0x2000

def isStatic (type : UInt16) : Bool := type &&& nameStatic != 0

/-- an entry of `variable_table` and `variable_types` -/
structure Variable where
  name : Ident
  type : UInt16

/-- a program with its inherited programs (each with its `type_mod`) and the variables it defines itself -/
inductive Program where
  | mk (name : FileName) (inherit : List (UInt16 × Program)) (table : List Variable)

def Program.name : Program → FileName
  | .mk name _ _ => name

section Model

variable {ρ : Type} [Double ρ]

/-! ## Writing -/

/-- the text of a value on its own; it is not written when it is `0`, unless zeros are saved too -/
def saveLine (saveZeros : Bool) (name : Ident) (v : Svalue ρ) : Option (List Byte) :=
  (saveSvalue v []).map fun s =>
    if saveZeros || s != [digit0] then name.val ++ space :: s ++ [newline] else []

/-- the variables a program defines itself, from `svp` on: what is written and where `svp` is then -/
def saveVariables (saveZeros : Bool) : List Variable → List (Svalue ρ) → Option (List Byte × List (Svalue ρ))
  | [], svp => some ([], svp)
  | _ :: _, [] => none
  | x :: l, v :: svp =>
    if isStatic x.type then saveVariables saveZeros l svp
    else do
      let line ← saveLine saveZeros x.name v
      let r ← saveVariables saveZeros l svp
      some (line ++ r.1, r.2)

mutual

/-- `save_object_recurse` -/
def saveObjectRecurse (saveZeros : Bool) :
    Program → UInt16 → List (Svalue ρ) → Option (List Byte × List (Svalue ρ))
  | .mk _ inherit table, type, svp => do
    let r ← saveInherited saveZeros inherit type svp
    if isStatic type then some (r.1, r.2.drop table.length)
    else
      let own ← saveVariables saveZeros table r.2
      some (r.1 ++ own.1, own.2)

def saveInherited (saveZeros : Bool) :
    List (UInt16 × Program) → UInt16 → List (Svalue ρ) → Option (List Byte × List (Svalue ρ))
  | [], _, svp => some ([], svp)
  | (mod, p) :: l, type, svp => do
    let r ← saveObjectRecurse saveZeros p (mod ||| type) svp
    let rs ← saveInherited saveZeros l type r.2
    some (r.1 ++ rs.1, rs.2)

end

/-- the file `save_object` writes: a comment line and the variables -/
def saveObject (saveZeros : Bool) (prog : Program) (vars : List (Svalue ρ)) : Option (List Byte) :=
  (saveObjectRecurse saveZeros prog 0 vars).map fun r => hash :: slash :: prog.name.val ++ newline :: r.1

/-! ## Lookup by name -/

mutual

/-- `fgv_recurse`: the index after the walk, and the type if the name was found -/
def fgvRecurse (name : List Byte) : Program → ℕ → ℕ × Option UInt16
  | .mk _ inherit table, idx =>
    match fgvInherited name inherit idx with
    | (idx, some type) => (idx, some type)
    | (idx, none) =>
      match table.findIdx? fun x => x.name.val == name with
      | some i => (idx + i, table[i]?.map Variable.type)
      | none => (idx + table.length, none)

def fgvInherited (name : List Byte) : List (UInt16 × Program) → ℕ → ℕ × Option UInt16
  | [], idx => (idx, none)
  | (mod, p) :: l, idx =>
    match fgvRecurse name p idx with
    | (idx, some type) => (idx, some (type ||| mod))
    | (idx, none) => fgvInherited name l idx

end

/-- `find_global_variable` -/
def findGlobalVariable (prog : Program) (name : List Byte) : Option (ℕ × UInt16) :=
  match fgvRecurse name prog 0 with
  | (idx, some type) => some (idx, if type &&& namePublic != 0 then type &&& ~~~namePrivate else type)
  | (_, none) => none

/-! ## Clearing -/

mutual

/-- `cns_just_count` -/
def cnsJustCount : Program → ℕ → ℕ
  | .mk _ inherit table, idx => cnsCountInherited inherit idx + table.length

def cnsCountInherited : List (UInt16 × Program) → ℕ → ℕ
  | [], idx => idx
  | (_, p) :: l, idx => cnsCountInherited l (cnsJustCount p idx)

end

/-- the loop of `cns_recurse` over the variables a program defines itself -/
def cnsVariables : List Variable → ℕ → List (Svalue ρ) → List (Svalue ρ)
  | [], _, vars => vars
  | x :: l, i, vars => cnsVariables l (i + 1) (if isStatic x.type then vars else vars.set i (.number 0))

mutual

/-- `cns_recurse` -/
def cnsRecurse : Program → ℕ → List (Svalue ρ) → ℕ × List (Svalue ρ)
  | .mk _ inherit table, idx, vars =>
    let r := cnsInherited inherit idx vars
    (r.1 + table.length, cnsVariables table r.1 r.2)

def cnsInherited : List (UInt16 × Program) → ℕ → List (Svalue ρ) → ℕ × List (Svalue ρ)
  | [], idx, vars => (idx, vars)
  | (mod, p) :: l, idx, vars =>
    if isStatic mod then cnsInherited l (cnsJustCount p idx) vars
    else
      let r := cnsRecurse p idx vars
      cnsInherited l r.1 r.2

end

/-- `clear_non_statics` -/
def clearNonStatics (prog : Program) (vars : List (Svalue ρ)) : List (Svalue ρ) := (cnsRecurse prog 0 vars).2

/-! ## Reading -/

/-- the word for the format in the message "Illegal ... format while restoring" -/
def Rob.word : Rob → String
  | .general => "general"
  | .numeral => "numeric"
  | .array => "array"
  | .mapping => "mapping"
  | .string => "string"
  | .class_ => "class"

/-- how reading a file can end: "Illegal file format", a value that is none (the word for its format and the variable's
name), or an error raised on the way -/
inductive FileError where
  | illegalFile
  | illegalValue (word : String) (var : List Byte)
  | stopped (e : Fail)
deriving DecidableEq

/-- `strchr` in a string that ends with NUL: what stands before the character and what stands behind it -/
def cutAt (d : Byte) : Mem → Option (List Byte × Mem)
  | [] => none
  | c :: m => if c = d then some ([], m) else if c = nul then none else (cutAt d m).map fun r => (c :: r.1, r.2)

/-- the value of one variable, with `save_svalue_depth` 0: `noclear` takes the restore that keeps the old value on errors -/
def restoreInto (env : Env) (noclear : Bool) (slots : List ℕ) (m : Mem) (old : Svalue ρ) :
    Except Fail (Svalue ρ × List ℕ) :=
  if noclear then
    match safeRestoreSvalue env ⟨0, slots⟩ m old with
    | (.ok st, v) => .ok (v, st.slots)
    | (.error e, _) => .error e
  else restoreSvalue env slots old m

/-- the size of the buffer `var` -/
def varSize : ℕ := 100

/-- one line of the file, in which the newline is already a NUL -/
def restoreLine (env : Env) (prog : Program) (noclear : Bool) (line : Mem) (vars : List (Svalue ρ)) (slots : List ℕ) :
    Except FileError (List (Svalue ρ) × List ℕ) :=
  match cutAt space line with
  | none => .error .illegalFile
  | some (var, m) =>
    if var.length ≥ varSize then .error .illegalFile
    else
      match findGlobalVariable prog var with
      | none => .ok (vars, slots)
      | some (idx, t) =>
        if isStatic t then .ok (vars, slots)
        else
          match vars[idx]? with
          | none => .error (.stopped .fault)
          | some old =>
            match restoreInto env noclear slots m old with
            | .ok (v, slots') => .ok (vars.set idx v, slots')
            | .error (.rob code) => .error (.illegalValue code.word var)
            | .error e => .error (.stopped e)

/-- a line, unless it is a comment -/
def restoreUnlessComment (env : Env) (prog : Program) (noclear : Bool) (line : Mem) (vars : List (Svalue ρ))
    (slots : List ℕ) : Except FileError (List (Svalue ρ) × List ℕ) :=
  if line.head? = some hash then .ok (vars, slots) else restoreLine env prog noclear line vars slots

/-- `restore_object_from_buff`; `fuel` bounds the number of lines -/
def restoreObjectFromBuff (env : Env) (prog : Program) (noclear : Bool) :
    ℕ → Mem → List (Svalue ρ) → List ℕ → Except FileError (List (Svalue ρ) × List ℕ)
  | 0, _, _, _ => .error (.stopped .fault)
  | _ + 1, [], _, _ => .error (.stopped .fault)
  | fuel + 1, c :: buff, vars, slots =>
    if c = nul then .ok (vars, slots)
    else
      match cutAt newline (c :: buff) with
      | some (line, rest) =>
        match restoreUnlessComment env prog noclear (line ++ nul :: rest) vars slots with
        | .ok (vars', slots') => restoreObjectFromBuff env prog noclear fuel rest vars' slots'
        | .error e => .error e
      | none => restoreUnlessComment env prog noclear (c :: buff) vars slots

/-- `restore_object` from the file's contents on -/
def restoreObject (env : Env) (prog : Program) (noclear : Bool) (file : List Byte) (vars : List (Svalue ρ))
    (slots : List ℕ) : Except FileError (List (Svalue ρ) × List ℕ) :=
  restoreObjectFromBuff env prog noclear (file.length + 1) (file ++ [nul])
    (if noclear then vars else clearNonStatics prog vars) slots

end Model

/-! ## Layout -/

/-- an entry of an object's variable array -/
structure Slot where
  name : Ident
  static : Bool

mutual

/-- the variable array of a program inherited with modifiers `mods` -/
def layout (mods : UInt16) : Program → List Slot
  | .mk _ inherit table => layoutInherited mods inherit ++ table.map fun x => ⟨x.name, isStatic (x.type ||| mods)⟩

def layoutInherited (mods : UInt16) : List (UInt16 × Program) → List Slot
  | [] => []
  | (mod, p) :: l => layout (mod ||| mods) p ++ layoutInherited mods l

end

theorem isStatic_or (a b : UInt16) : isStatic (a ||| b) = (isStatic a || isStatic b) := by
  have key : (a ||| b) &&& nameStatic = (a &&& nameStatic) ||| (b &&& nameStatic) := by
    apply UInt16.toBitVec_inj.1
    ext i hi
    simp [Bool.and_or_distrib_right]
  unfold isStatic
  rw [key, Bool.eq_iff_iff]
  simp only [bne_iff_ne, Bool.or_eq_true, ne_eq, UInt16.or_eq_zero_iff, not_and_or]

mutual

/-- everything in a program that is inherited as static is static -/
theorem layout_static : ∀ (p : Program) (mods : UInt16), isStatic mods = true → ∀ s ∈ layout mods p, s.static = true
  | .mk _ inherit table, mods, hm => by
    refine forall_mem_append.2 ⟨layoutInherited_static inherit mods hm, fun s hs => ?_⟩
    obtain ⟨x, -, rfl⟩ := mem_map.1 hs
    simp only [isStatic_or, hm, Bool.or_true]

theorem layoutInherited_static : ∀ (l : List (UInt16 × Program)) (mods : UInt16), isStatic mods = true →
    ∀ s ∈ layoutInherited mods l, s.static = true
  | [], _, _ => by simp [layoutInherited]
  | (mod, p) :: l, mods, hm =>
    forall_mem_append.2 ⟨layout_static p _ (by rw [isStatic_or, hm, Bool.or_true]), layoutInherited_static l mods hm⟩

end

/-! ## The writer -/

section Walks

variable {ρ : Type} [Double ρ] {saveZeros : Bool} {l : List Slot} {svp : List (Svalue ρ)}

/-- the writer over slots -/
def saveSlots (saveZeros : Bool) : List Slot → List (Svalue ρ) → Option (List Byte × List (Svalue ρ))
  | [], svp => some ([], svp)
  | _ :: _, [] => none
  | s :: l, v :: svp =>
    if s.static then saveSlots saveZeros l svp
    else do
      let line ← saveLine saveZeros s.name v
      let r ← saveSlots saveZeros l svp
      some (line ++ r.1, r.2)

theorem saveSlots_append (saveZeros : Bool) (a b : List Slot) (svp : List (Svalue ρ)) :
    saveSlots saveZeros (a ++ b) svp = (saveSlots saveZeros a svp).bind fun r =>
      (saveSlots saveZeros b r.2).map fun rs => (r.1 ++ rs.1, rs.2) := by
  induction a generalizing svp with
  | nil => simp [saveSlots]
  | cons s a ih =>
    cases svp with
    | nil => rfl
    | cons v svp =>
      rw [cons_append, saveSlots, saveSlots]
      by_cases hs : s.static = true
      · rw [if_pos hs, if_pos hs, ih]
      · rw [if_neg hs, if_neg hs, ih]
        cases saveLine saveZeros s.name v with
        | none => rfl
        | some line =>
          cases saveSlots saveZeros a svp with
          | none => rfl
          | some r =>
            cases hb : saveSlots saveZeros b r.2 with
            | none | some rs => simp [hb]

theorem saveSlots_rest {r : List Byte × List (Svalue ρ)}
    (h : saveSlots saveZeros l svp = some r) : r.2 = svp.drop l.length := by
  induction l generalizing svp r with
  | nil =>
    cases h
    rfl
  | cons s l ih =>
    cases svp with
    | nil => exact absurd h (by simp [saveSlots])
    | cons v svp =>
      rw [saveSlots] at h
      split_ifs at h with hs
      · exact ih h
      · obtain ⟨line, -, h⟩ := bind_eq_some_iff.1 h
        obtain ⟨r', hr', h⟩ := bind_eq_some_iff.1 h
        cases h
        exact (ih hr' :)

theorem saveSlots_static (h : ∀ s ∈ l, s.static = true)
    (hlen : l.length ≤ svp.length) : saveSlots saveZeros l svp = some ([], svp.drop l.length) := by
  induction l generalizing svp with
  | nil => rfl
  | cons s l ih =>
    cases svp with
    | nil => simp at hlen
    | cons v svp =>
      rw [saveSlots, if_pos (h s mem_cons_self), ih (fun x hx => h x (mem_cons_of_mem _ hx)) (by simpa using hlen)]
      rfl

theorem saveVariables_eq (saveZeros : Bool) {mods : UInt16} (hm : isStatic mods = false) (table : List Variable)
    (svp : List (Svalue ρ)) :
    saveVariables saveZeros table svp =
      saveSlots saveZeros (table.map fun x => ⟨x.name, isStatic (x.type ||| mods)⟩) svp := by
  induction table generalizing svp with
  | nil => rfl
  | cons x table ih =>
    cases svp with
    | nil => rfl
    | cons v svp =>
      rw [saveVariables, map_cons, saveSlots]
      simp only [isStatic_or, hm, Bool.or_false] at ih ⊢
      rw [ih]

mutual

/-- **The writer follows the layout.** -/
theorem saveObjectRecurse_eq (saveZeros : Bool) : ∀ (p : Program) (type : UInt16) (svp : List (Svalue ρ)),
    (layout type p).length ≤ svp.length →
      saveObjectRecurse saveZeros p type svp = saveSlots saveZeros (layout type p) svp
  | .mk _ inherit table, type, svp, hlen => by
    rw [layout, length_append, length_map] at hlen
    rw [saveObjectRecurse, layout, saveSlots_append, saveInherited_eq saveZeros inherit type svp (by omega)]
    cases hr : saveSlots saveZeros (layoutInherited type inherit) svp with
    | none => rfl
    | some r =>
      have hrest := saveSlots_rest hr
      simp only [bind_eq_bind, bind_some]
      by_cases hs : isStatic type = true
      · rw [if_pos hs, saveSlots_static]
        · simp
        · intro s hmem
          obtain ⟨x, -, rfl⟩ := mem_map.1 hmem
          simp only [isStatic_or, hs, Bool.or_true]
        · rw [hrest, length_map, length_drop]
          omega
      · rw [if_neg hs, saveVariables_eq saveZeros (by simpa using hs)]
        cases saveSlots saveZeros (table.map fun x => ⟨x.name, isStatic (x.type ||| type)⟩) r.2 with
        | none | some rs => rfl

theorem saveInherited_eq (saveZeros : Bool) : ∀ (l : List (UInt16 × Program)) (type : UInt16) (svp : List (Svalue ρ)),
    (layoutInherited type l).length ≤ svp.length →
      saveInherited saveZeros l type svp = saveSlots saveZeros (layoutInherited type l) svp
  | [], _, _, _ => by rw [saveInherited, layoutInherited, saveSlots]
  | (mod, p) :: l, type, svp, hlen => by
    rw [layoutInherited, length_append] at hlen
    rw [saveInherited, layoutInherited, saveSlots_append, saveObjectRecurse_eq saveZeros p (mod ||| type) svp (by omega)]
    cases hr : saveSlots saveZeros (layout (mod ||| type) p) svp with
    | none => rfl
    | some r =>
      have hrest := saveSlots_rest hr
      simp only [bind_eq_bind, bind_some, saveInherited_eq saveZeros l type r.2 (by rw [hrest, length_drop]; omega)]
      cases saveSlots saveZeros (layoutInherited type l) r.2 with
      | none | some rs => rfl

end

end Walks

/-! ## The lookup -/

/-- what the lookup of `name` returns on `l`, starting with index `idx`: the index of the first slot of that name, and
whether it is static -/
def FindsIn (name : List Byte) (l : List Slot) (mods : UInt16) (idx : ℕ) (r : ℕ × Option UInt16) : Prop :=
  r.1 = idx + l.findIdx (·.name.val == name) ∧
    (r.2.map fun t => isStatic (t ||| mods)) = l[l.findIdx (·.name.val == name)]?.map Slot.static

theorem fgvTable_finds (name : List Byte) (mods : UInt16) (idx : ℕ) (table : List Variable) :
    FindsIn name (table.map fun x => ⟨x.name, isStatic (x.type ||| mods)⟩) mods idx
      (match table.findIdx? fun x => x.name.val == name with
      | some i => (idx + i, table[i]?.map Variable.type)
      | none => (idx + table.length, none)) := by
  simp only [FindsIn, findIdx_map, getElem?_map, Function.comp_def]
  cases hfind : table.findIdx? fun x => x.name.val == name with
  | none => simp [findIdx?_eq_none_iff_findIdx_eq.1 hfind]
  | some i => simp [(findIdx?_eq_some_iff_findIdx_eq.1 hfind).2, Function.comp_def]

variable {mods mod : UInt16} {name : List Byte} {a b : List Slot} {idx i : ℕ} {o : Option UInt16}

theorem FindsIn.left {t : UInt16} (h : FindsIn name a mods idx (i, some t)) :
    FindsIn name (a ++ b) mods idx (i, some t) := by
  obtain ⟨s, hs, -⟩ := map_eq_some_iff.1 h.2.symm
  have hlt := (List.getElem?_eq_some_iff.1 hs).1
  rw [FindsIn, findIdx_append, if_pos hlt, getElem?_append_left hlt]
  exact h

theorem FindsIn.right {r : ℕ × Option UInt16} (ha : FindsIn name a mods idx (i, none))
    (hb : FindsIn name b mods i r) : FindsIn name (a ++ b) mods idx r := by
  have hge : a.length ≤ _ := List.getElem?_eq_none_iff.1 (map_eq_none_iff.1 ha.2.symm)
  have hlen := findIdx_le_length.antisymm hge
  rw [FindsIn, findIdx_append, if_neg hge.not_gt, getElem?_append_right le_add_self, Nat.add_sub_cancel]
  refine ⟨?_, hb.2⟩
  rw [hb.1, show i = _ from ha.1, hlen, Nat.add_assoc, Nat.add_comm a.length]

/-- the modifiers of the inherit statement are added on the way back -/
theorem FindsIn.inherited (h : FindsIn name a (mod ||| mods) idx (i, o)) :
    FindsIn name a mods idx (i, o.map (· ||| mod)) := by
  refine ⟨h.1, h.2 ▸ ?_⟩
  cases o with
  | none => rfl
  | some t => simp only [map_some, isStatic_or, Bool.or_assoc]

mutual

theorem fgvRecurse_finds (name : List Byte) : ∀ (p : Program) (mods : UInt16) (idx : ℕ),
    FindsIn name (layout mods p) mods idx (fgvRecurse name p idx)
  | .mk _ inherit table, mods, idx => by
    have hin := fgvInherited_finds name inherit mods idx
    rw [fgvRecurse]
    rcases hr : fgvInherited name inherit idx with ⟨i, o⟩
    rw [hr] at hin
    cases o with
    | none => exact hin.right (fgvTable_finds name mods i table)
    | some t => exact hin.left

theorem fgvInherited_finds (name : List Byte) : ∀ (l : List (UInt16 × Program)) (mods : UInt16) (idx : ℕ),
    FindsIn name (layoutInherited mods l) mods idx (fgvInherited name l idx)
  | [], _, _ => by
    rw [layoutInherited, fgvInherited]
    exact ⟨rfl, rfl⟩
  | (mod, p) :: l, mods, idx => by
    have hq := fgvRecurse_finds name p (mod ||| mods) idx
    rw [fgvInherited]
    rcases hr : fgvRecurse name p idx with ⟨i, o⟩
    rw [hr] at hq
    cases o with
    | none => exact hq.inherited.right (fgvInherited_finds name l mods i)
    | some t => exact hq.inherited.left

end

/-- **The lookup finds the first slot of that name.** -/
theorem findGlobalVariable_eq (prog : Program) (name : List Byte) :
    ((∀ s ∈ layout 0 prog, s.name.val ≠ name) ∧ findGlobalVariable prog name = none) ∨
    ∃ a s b t, layout 0 prog = a ++ s :: b ∧ (∀ x ∈ a, x.name.val ≠ name) ∧ s.name.val = name ∧
      findGlobalVariable prog name = some (a.length, t) ∧ isStatic t = s.static := by
  unfold findGlobalVariable
  obtain ⟨hidx, hstatic⟩ := fgvRecurse_finds name prog 0 0
  generalize fgvRecurse name prog 0 = r at *
  obtain ⟨i, o⟩ := r
  rw [← find?_eq_getElem?_findIdx] at hstatic
  cases hfind : (layout 0 prog).find? (·.name.val == name) with
  | none =>
    rw [hfind] at hstatic
    rw [show o = none from map_eq_none_iff.1 hstatic]
    exact .inl ⟨fun s hs => by simpa using find?_eq_none.1 hfind s hs, rfl⟩
  | some s =>
    rw [hfind] at hstatic
    obtain ⟨t, rfl, hst⟩ := map_eq_some_iff.1 hstatic
    obtain ⟨hs, a, b, hl, ha⟩ := find?_eq_some_iff_append.1 hfind
    have ha' : ∀ x ∈ a, (x.name.val == name) = false := fun x hx => by simpa using ha x hx
    obtain rfl : i = a.length := by
      rw [show i = _ from hidx, hl, findIdx_append, findIdx_eq_length.2 ha', if_neg (lt_irrefl _), findIdx_cons, hs]
      simp
    refine .inr ⟨a, s, b, _, hl, fun x hx => by simpa using ha' x hx, by simpa using hs, rfl, ?_⟩
    rw [isStatic_or, show isStatic 0 = false from rfl, Bool.or_false] at hst
    rw [← hst]
    split_ifs
    · -- the private bit is not the static one
      unfold isStatic
      rw [UInt16.and_assoc]
      rfl
    · rfl

/-! ## The clearing -/

section Clearing

variable {ρ : Type} {mods : UInt16}

/-- the clearing over slots -/
def clearSlots : List Slot → ℕ → List (Svalue ρ) → List (Svalue ρ)
  | [], _, vars => vars
  | s :: l, i, vars => clearSlots l (i + 1) (if s.static then vars else vars.set i (.number 0))

theorem clearSlots_append (a b : List Slot) (i : ℕ) (vars : List (Svalue ρ)) :
    clearSlots (a ++ b) i vars = clearSlots b (i + a.length) (clearSlots a i vars) := by
  induction a generalizing i vars with
  | nil => rfl
  | cons s a ih =>
    rw [cons_append, clearSlots, clearSlots, ih, length_cons, show i + 1 + a.length = i + (a.length + 1) by omega]

theorem clearSlots_static {l : List Slot} (h : ∀ s ∈ l, s.static = true) (i : ℕ) (vars : List (Svalue ρ)) :
    clearSlots l i vars = vars := by
  induction l generalizing i with
  | nil => rfl
  | cons s l ih =>
    rw [clearSlots, if_pos (h s mem_cons_self)]
    exact ih (fun x hx => h x (mem_cons_of_mem _ hx)) _

theorem cnsVariables_eq (hm : isStatic mods = false) (table : List Variable) (i : ℕ) (vars : List (Svalue ρ)) :
    cnsVariables table i vars = clearSlots (table.map fun x => ⟨x.name, isStatic (x.type ||| mods)⟩) i vars := by
  induction table generalizing i vars with
  | nil => rfl
  | cons x table ih =>
    rw [cnsVariables, map_cons, clearSlots]
    simp only [isStatic_or, hm, Bool.or_false] at ih ⊢
    rw [ih]

mutual

theorem cnsJustCount_eq : ∀ (p : Program) (mods : UInt16) (idx : ℕ), cnsJustCount p idx = idx + (layout mods p).length
  | .mk _ inherit table, mods, idx => by
    rw [cnsJustCount, layout, length_append, length_map, cnsCountInherited_eq inherit mods idx, add_assoc]

theorem cnsCountInherited_eq : ∀ (l : List (UInt16 × Program)) (mods : UInt16) (idx : ℕ),
    cnsCountInherited l idx = idx + (layoutInherited mods l).length
  | [], _, _ => by rw [cnsCountInherited, layoutInherited, length_nil, add_zero]
  | (mod, p) :: l, mods, idx => by
    rw [cnsCountInherited, layoutInherited, length_append, cnsCountInherited_eq l mods,
      cnsJustCount_eq p (mod ||| mods) idx, add_assoc]

end

mutual

theorem cnsRecurse_eq : ∀ (p : Program) (mods : UInt16), isStatic mods = false → ∀ idx (vars : List (Svalue ρ)),
    cnsRecurse p idx vars = (idx + (layout mods p).length, clearSlots (layout mods p) idx vars)
  | .mk _ inherit table, mods, hm, idx, vars => by
    rw [cnsRecurse, layout, length_append, length_map, clearSlots_append, cnsInherited_eq inherit mods hm,
      cnsVariables_eq hm, add_assoc]

theorem cnsInherited_eq : ∀ (l : List (UInt16 × Program)) (mods : UInt16), isStatic mods = false →
    ∀ idx (vars : List (Svalue ρ)), cnsInherited l idx vars =
      (idx + (layoutInherited mods l).length, clearSlots (layoutInherited mods l) idx vars)
  | [], _, _, _, _ => by rw [cnsInherited, layoutInherited, length_nil, add_zero, clearSlots]
  | (mod, p) :: l, mods, hm, idx, vars => by
    rw [cnsInherited, layoutInherited, length_append, clearSlots_append, ← add_assoc]
    by_cases hs : isStatic mod = true
    · rw [if_pos hs, cnsInherited_eq l mods hm, cnsJustCount_eq p (mod ||| mods), clearSlots_static (layout_static p _ ?_)]
      rw [isStatic_or, hs, Bool.true_or]
    · have hboth : isStatic (mod ||| mods) = false := by
        rw [isStatic_or, hm]
        simpa using hs
      rw [if_neg hs, cnsRecurse_eq p _ hboth, cnsInherited_eq l mods hm]

end

theorem clearSlots_length (l : List Slot) (i : ℕ) (vars : List (Svalue ρ)) : (clearSlots l i vars).length = vars.length := by
  induction l generalizing i vars with
  | nil => rfl
  | cons s l ih =>
    rw [clearSlots, ih]
    split_ifs
    · rfl
    · rw [length_set]

theorem clearSlots_getElem? (l : List Slot) (i : ℕ) (vars : List (Svalue ρ)) (j : ℕ) : (clearSlots l i vars)[j]? =
      vars[j]?.map fun v => if i ≤ j ∧ l[j - i]?.map Slot.static = some false then .number 0 else v := by
  induction l generalizing i vars with
  | nil => simp [clearSlots]
  | cons s l ih =>
    rw [clearSlots, ih]
    rcases lt_trichotomy j i with hj | rfl | hj
    · -- before the slots
      have h1 : ¬ (i + 1 ≤ j) := by omega
      have h2 : ¬ (i ≤ j) := by omega
      simp only [h1, h2, false_and, if_false]
      split_ifs
      · rfl
      · rw [getElem?_set_ne (by omega)]
    · have h1 : ¬ (j + 1 ≤ j) := by omega
      simp only [h1, false_and, if_false, le_refl, true_and, Nat.sub_self, getElem?_cons_zero, map_some, some.injEq]
      cases s.static with
      | true => simp
      | false =>
        simp only [Bool.false_eq_true, if_false, if_true, getElem?_set_self']
        cases vars[j]? with
        | none | some v => rfl
    · obtain ⟨k, rfl⟩ := Nat.exists_eq_add_of_lt hj
      have h1 : i + k + 1 - (i + 1) = k := by omega
      have h2 : i + k + 1 - i = k + 1 := by omega
      have h3 : i + 1 ≤ i + k + 1 := by omega
      have h4 : i ≤ i + k + 1 := by omega
      have h5 : (if s.static = true then vars else vars.set i (.number 0))[i + k + 1]? = vars[i + k + 1]? := by
        split_ifs
        · rfl
        · rw [getElem?_set_ne (by omega)]
      simp only [h1, h2, h3, h4, h5, true_and, getElem?_cons_succ]

/-- **The clearing sets exactly the slots that are not static.** -/
theorem clearNonStatics_eq (prog : Program) (vars : List (Svalue ρ)) (j : ℕ) : (clearNonStatics prog vars)[j]? =
      vars[j]?.map fun v => if (layout 0 prog)[j]?.map Slot.static = some false then .number 0 else v := by
  unfold clearNonStatics
  rw [cnsRecurse_eq prog 0 rfl]
  simpa using clearSlots_getElem? (layout 0 prog) 0 vars j

end Clearing

end Lithos.Lpc.Save
