/-
Saving an object and restoring it into a fresh one.

The file has one line for each variable that is not static (zeros are left out unless asked for), with the bare name of
the variable. Reading looks a name up from the start of the layout, so of several variables of one name only the first is
ever set, and not even that one if it is static; and a name that does not fit into the reader's buffer of 100 bytes stops
the reading.

Results:
- `objectRoundTrips_iff`: with values that survive on their own, saving and restoring gives every variable that is not
  static its value back exactly when the object is `Recoverable`.
- `same_name_lost`: the values of two inherited variables of one name.
-/
import Lithos.Lpc.Save.ObjectFile

namespace Lithos.Lpc.Save

open List Option

section ObjectRoundTrip

variable {ρ : Type} [Double ρ]

/-! ## Values that survive on their own -/

/-- what `%g` prints has no line end in it -/
def OneLine (ρ : Type) [Double ρ] : Prop := ∀ r : ρ, ∀ c ∈ Double.fmtG r, c ≠ nul ∧ c ≠ newline

/-- a text without a line end -/
def InLine (t : List Byte) : Prop := ∀ c ∈ t, c ≠ nul ∧ c ≠ newline

instance (t : List Byte) : Decidable (InLine t) := decidableBAll _ t

theorem InLine.append {t u : List Byte} (ht : InLine t) (hu : InLine u) : InLine (t ++ u) :=
  forall_mem_append.2 ⟨ht, hu⟩

theorem saveString_line (s : List Byte) : InLine (saveString s) := by
  have hchars : InLine ((s.takeWhile (· ≠ nul)).flatMap saveChar) := by
    intro c hc
    obtain ⟨d, hd, hc⟩ := mem_flatMap.1 hc
    have hdn : d ≠ nul := by simpa using mem_takeWhile_imp hd
    unfold saveChar at hc
    split_ifs at hc with h1 h2
    · rcases mem_pair.1 hc with rfl | rfl
      · exact ⟨by decide, by decide⟩
      · rcases h1 with rfl | rfl <;> exact ⟨by decide, by decide⟩
    · obtain rfl := mem_singleton.1 hc
      exact ⟨by decide, by decide⟩
    · obtain rfl := mem_singleton.1 hc
      exact ⟨hdn, h2⟩
  exact (InLine.append (by decide) hchars).append (by decide)

mutual

/-- the text of a value is one line -/
theorem text_line (hfmt : OneLine ρ) : ∀ v : Svalue ρ, InLine (text v)
  | .number n => by
    intro c hc
    rcases numberText_chars n c hc with h | rfl
    · refine ⟨?_, ?_⟩ <;> rintro rfl <;> cases h
    · exact ⟨by decide, by decide⟩
  | .real r => hfmt r
  | .string s => saveString_line s
  | .other => fun c hc => absurd hc (by simp [text])
  | .array l | .class_ l => (InLine.append (by decide) (itemsText_line hfmt l)).append (by decide)
  | .mapping l => (InLine.append (by decide) (nodesText_line hfmt l)).append (by decide)

theorem itemsText_line (hfmt : OneLine ρ) : ∀ l : List (Svalue ρ), InLine (itemsText l)
  | [] => by simp [itemsText, InLine]
  | v :: l => (InLine.append (text_line hfmt v) (by decide)).append (itemsText_line hfmt l)

theorem nodesText_line (hfmt : OneLine ρ) : ∀ l : List (Svalue ρ × Svalue ρ), InLine (nodesText l)
  | [] => by simp [nodesText, InLine]
  | (k, v) :: l => (((InLine.append (text_line hfmt k) (by decide)).append (text_line hfmt v)).append
      (by decide)).append (nodesText_line hfmt l)

end

def isZero : Svalue ρ → Bool
  | .number n => n == 0
  | _ => false

variable {v : Svalue ρ}

omit [Double ρ] in
theorem isZero_iff : isZero v = true ↔ v = .number 0 := by
  cases v with
  | number n | _ => simp [isZero]

omit [Double ρ] in
theorem same_number_right {n : Int64} (h : Same v (.number n)) : v = .number n := by
  cases v with
  | number m => exact (show Svalue.number n = .number m from h).symm
  | _ => simp [Same] at h

variable {env : Env}

/-- a value that survives saving and restoring, whichever of the two restore functions reads it -/
theorem RoundTrips.restored (h : RoundTrips env v) : saveSvalue v [] = some (text v) ∧
    ∀ slots rest, ∃ w st, restoreValue env ⟨0, slots⟩ (text v ++ nul :: rest) = .ok (some w, st) ∧ Same v w := by
  obtain ⟨buf, hbuf, hrestore⟩ := h
  have hvalue : ∀ slots rest, ∃ w st, restoreValue env ⟨0, slots⟩ (buf ++ nul :: rest) = .ok (some w, st) ∧ Same v w := by
    intro slots rest
    obtain ⟨w, slots', hw, hsame⟩ := hrestore slots (.number 0) rest
    obtain ⟨⟨o, s⟩, hr, heq⟩ := map_eq_ok hw
    cases o with
    | some w' =>
      cases heq
      exact ⟨w', s, hr, hsame⟩
    | none =>
      -- an untouched variable would have to equal whatever it held before
      obtain ⟨w1, s1, hw1, hsame1⟩ := hrestore slots (.number 1) rest
      rw [restoreSvalue, hr] at hw1
      obtain ⟨rfl, -⟩ := Prod.mk.inj heq
      obtain ⟨rfl, -⟩ := Prod.mk.inj (Except.ok.inj hw1)
      have h0 := same_number_right hsame
      have h1 := same_number_right hsame1
      rw [h0] at h1
      exact absurd (Svalue.number.inj h1) (by decide)
  obtain ⟨w, slots', hw, hsame⟩ := hvalue [] []
  have hn : Small v := small_of_same hsame (restoreValue_small hw)
  have htext := saveSvalue_eq v (noMin_of_small hn) []
  rw [htext] at hbuf
  cases hbuf
  exact ⟨htext, hvalue⟩

/-- of the values that survive only zero is written as `0` -/
theorem RoundTrips.zero_text (h : RoundTrips env v) : text v = [digit0] ↔ isZero v = true := by
  rw [isZero_iff]
  constructor
  · intro htext
    obtain ⟨w, slots', hw, hsame⟩ := h.restored.2 [] []
    rw [htext] at hw
    cases hw
    exact same_number_right hsame
  · rintro rfl
    rfl

/-! ## The file -/

/-- the slots that are written, with their values -/
def written (saveZeros : Bool) (l : List (Slot × Svalue ρ)) : List (Slot × Svalue ρ) :=
  l.filter fun e => !e.1.static && (saveZeros || !isZero e.2)

def lineText (e : Slot × Svalue ρ) : List Byte := e.1.name.val ++ space :: text e.2 ++ [newline]

variable {vars : List (Svalue ρ)} {l : List Slot} {i j : ℕ} {prog : Program} {e : Slot × Svalue ρ}
  {r : List ((Slot × Svalue ρ) × Svalue ρ)} {saveZeros : Bool} {s : Slot}

theorem saveSlots_text (saveZeros : Bool)
    (hlen : l.length ≤ vars.length) (hv : ∀ e ∈ l.zip vars, e.1.static = false → RoundTrips env e.2) :
    saveSlots saveZeros l vars = some ((written saveZeros (l.zip vars)).flatMap lineText, vars.drop l.length) := by
  induction l generalizing vars with
  | nil => rfl
  | cons s l ih =>
    cases vars with
    | nil => cases hlen
    | cons v vars =>
      have ih := @ih vars (by simpa using hlen) fun e he => hv e (.tail _ he)
      rw [saveSlots, zip_cons_cons, written, filter_cons]
      cases hs : s.static with
      | true => simpa [written] using ih
      | false =>
        have hrt := hv (s, v) (.head _) hs
        have hzero : (text v != [digit0]) = !isZero v := by
          rw [Bool.eq_iff_iff, bne_iff_ne, Bool.not_eq_true', ← Bool.not_eq_true, Ne, hrt.zero_text]
        simp only [Bool.false_eq_true, if_false, saveLine, hrt.restored.1, map_some, bind_eq_bind,
          bind_some, ih, hzero, Bool.not_false, Bool.true_and]
        split_ifs with hw
        · simp [lineText, written]
        · simp [written]

theorem ident_ne {name : Ident} {c : Byte} (hc : c ∈ name.val) : c ≠ space ∧ c ≠ newline ∧ c ≠ nul ∧ c ≠ hash := by
  have h := name.property.2 c hc
  refine ⟨?_, ?_, ?_, ?_⟩ <;> rintro rfl <;> cases h

theorem cutAt_append {d : Byte} {a : List Byte} (h : ∀ c ∈ a, c ≠ d ∧ c ≠ nul) (m : Mem) :
    cutAt d (a ++ d :: m) = some (a, m) := by
  induction a with
  | nil => simp [cutAt]
  | cons c a ih =>
    obtain ⟨hd, hn⟩ := h c (.head _)
    rw [cons_append, cutAt, if_neg hd, if_neg hn, ih fun x hx => h x (.tail _ hx)]
    rfl

theorem cutAt_name (name : Ident) (m : Mem) : cutAt space (name.val ++ space :: m) = some (name.val, m) :=
  cutAt_append (fun _ hc => ⟨(ident_ne hc).1, (ident_ne hc).2.2.1⟩) m

/-! ## Reading the file -/

/-- the slot a line is read into: the first of its name, unless that one is static -/
def target (l : List Slot) (name : List Byte) : Option ℕ :=
  (l.findIdx? fun s => s.name.val == name).bind fun i => if l[i]?.map Slot.static = some false then some i else none

theorem target_eq_some {name : List Byte} : target l name = some i ↔
    ∃ s, l[i]? = some s ∧ s.name.val = name ∧ s.static = false ∧ ∀ k s', k < i → l[k]? = some s' → s'.name.val ≠ name := by
  unfold target
  rw [bind_eq_some_iff]
  constructor
  · rintro ⟨j, hj, h⟩
    split_ifs at h with hst
    obtain rfl := some.inj h
    obtain ⟨hi, hname, hfirst⟩ := findIdx?_eq_some_iff_getElem.1 hj
    rw [getElem?_eq_getElem hi] at hst ⊢
    refine ⟨l[j], rfl, by simpa using hname, by simpa using hst, fun k s' hk hs' => ?_⟩
    obtain ⟨hk', rfl⟩ := List.getElem?_eq_some_iff.1 hs'
    simpa using hfirst k hk
  · rintro ⟨s, hs, hname, hst, hfirst⟩
    obtain ⟨hi, rfl⟩ := List.getElem?_eq_some_iff.1 hs
    refine ⟨i, List.findIdx?_eq_some_iff_getElem.2 ⟨hi, by simpa using hname, fun k hk => ?_⟩, ?_⟩
    · simpa using hfirst k _ hk (List.getElem?_eq_getElem (by omega))
    · rw [hs, map_some, hst, if_pos rfl]

theorem target_split {a b : List Slot} {name : List Byte} (ha : ∀ x ∈ a, x.name.val ≠ name) (hs : s.name.val = name) :
    target (a ++ s :: b) name = if s.static then none else some a.length := by
  have hfirst : (a ++ s :: b).findIdx? (fun s => s.name.val == name) = some a.length := by
    have hnone : a.findIdx? (fun s => s.name.val == name) = none := findIdx?_eq_none_iff.2 (by simpa using ha)
    simp [findIdx?_append, findIdx?_cons, hnone, hs]
  rw [target, hfirst]
  cases hst : s.static <;> simp [hst]

/-- reading lines, each with the value that is read for it, one after the other -/
def putAll (l : List Slot) : List ((Slot × Svalue ρ) × Svalue ρ) → List (Svalue ρ) → List (Svalue ρ)
  | [], vars => vars
  | (e, w) :: r, vars =>
    putAll l r (match target l e.1.name.val with
      | some i => vars.set i w
      | none => vars)

/-- one line is read into its slot -/
theorem restoreLine_text (hlen : vars.length = (layout 0 prog).length) (hv : RoundTrips env e.2)
    (hshort : e.1.name.val.length < varSize) (noclear : Bool) (rest : Mem) (slots : List ℕ) : ∃ w slots', Same e.2 w ∧
    restoreLine env prog noclear (e.1.name.val ++ space :: (text e.2 ++ nul :: rest)) vars slots =
      .ok (putAll (layout 0 prog) [(e, w)] vars, slots') := by
  obtain ⟨⟨name, static⟩, v⟩ := e
  dsimp only at hv hshort ⊢
  obtain ⟨w, st, hw, hsame⟩ := hv.restored.2 slots rest
  unfold restoreLine
  rw [cutAt_name]
  dsimp only
  rw [if_neg (by omega)]
  rcases findGlobalVariable_eq prog name.val with ⟨hno, hfind⟩ | ⟨a, s, b, t, hl, ha, hs, hfind, hst⟩
  · refine ⟨w, slots, hsame, ?_⟩
    have htarget : target (layout 0 prog) name.val = none := by
      rw [target, findIdx?_eq_none_iff.2 fun s hs => by simpa using hno s hs]
      rfl
    rw [hfind, putAll, htarget]
    rfl
  · rw [hfind]
    dsimp only
    have htarget := target_split (b := b) ha hs
    rw [← hl, ← hst] at htarget
    by_cases hstatic : isStatic t = true
    · refine ⟨w, slots, hsame, ?_⟩
      rw [if_pos hstatic, putAll, htarget, if_pos hstatic]
      rfl
    · rw [if_neg hstatic] at htarget ⊢
      have hi : a.length < vars.length := by
        rw [hlen, hl, length_append, length_cons]
        omega
      refine ⟨w, st.slots, hsame, ?_⟩
      have hinto : restoreInto env noclear slots (text v ++ nul :: rest) vars[a.length] = .ok (w, st.slots) := by
        unfold restoreInto
        split_ifs
        · rw [safeRestoreSvalue, hw]
          rfl
        · rw [restoreSvalue, hw]
          rfl
      rw [getElem?_eq_getElem hi]
      dsimp only
      rw [hinto, putAll, htarget]
      rfl

omit [Double ρ] in
theorem putAll_length (l : List Slot) (r : List ((Slot × Svalue ρ) × Svalue ρ)) (vars : List (Svalue ρ)) :
    (putAll l r vars).length = vars.length := by
  induction r generalizing vars with
  | nil => rfl
  | cons e r ih =>
    rw [putAll, ih]
    split
    · rw [length_set]
    · rfl

/-- a line of the file, as the loop of `restore_object_from_buff` sees it -/
theorem restoreObjectFromBuff_line (hfmt : OneLine ρ) (env : Env) (prog : Program) (noclear : Bool) (fuel : ℕ)
    (e : Slot × Svalue ρ) (rest : Mem) (vars : List (Svalue ρ)) (slots : List ℕ) :
    restoreObjectFromBuff env prog noclear (fuel + 1) (lineText e ++ rest) vars slots =
      match restoreLine env prog noclear (e.1.name.val ++ space :: (text e.2 ++ nul :: rest)) vars slots with
      | .ok (vars', slots') => restoreObjectFromBuff env prog noclear fuel rest vars' slots'
      | .error err => .error err := by
  obtain ⟨s, v⟩ := e
  have hcut : cutAt newline (lineText (s, v) ++ rest) = some (s.name.val ++ space :: text v, rest) := by
    have hline : ∀ c ∈ s.name.val ++ space :: text v, c ≠ newline ∧ c ≠ nul := by
      intro c hc
      rcases mem_append.1 hc with hc | hc
      · exact ⟨(ident_ne hc).2.1, (ident_ne hc).2.2.1⟩
      · exact forall_mem_cons.2 ⟨⟨by decide, by decide⟩, fun c hc => (text_line hfmt v c hc).symm⟩ c hc
    have := cutAt_append hline rest
    rwa [lineText, append_assoc, singleton_append]
  cases hname : s.name.val with
  | nil => exact absurd hname s.name.property.1
  | cons c m =>
    have hc := ident_ne (show c ∈ s.name.val by rw [hname]; exact .head _)
    have htext : lineText (s, v) ++ rest = c :: (m ++ space :: text v ++ [newline] ++ rest) := by
      rw [lineText, hname]
      simp
    rw [htext] at hcut ⊢
    rw [restoreObjectFromBuff, if_neg hc.2.2.1, hcut]
    dsimp only
    rw [restoreUnlessComment, if_neg (by rw [hname]; simpa using hc.2.2.2), hname]
    -- the two sides read the same line
    have hread : c :: m ++ space :: text v ++ nul :: rest = c :: m ++ space :: (text v ++ nul :: rest) :=
      append_assoc ..
    cases hr : restoreLine env prog noclear (c :: m ++ space :: (text v ++ nul :: rest)) vars slots <;>
      rw [hread, hr]

/-- reading the written lines -/
theorem restoreObjectFromBuff_lines (hfmt : OneLine ρ) (noclear : Bool) {l : List (Slot × Svalue ρ)}
    (hv : ∀ e ∈ l, RoundTrips env e.2) (hlen : vars.length = (layout 0 prog).length) {fuel : ℕ} (hf : l.length < fuel)
    (slots : List ℕ) :
    ((∀ e ∈ l, e.1.name.val.length < varSize) ∧ ∃ r slots', r.map Prod.fst = l ∧ (∀ x ∈ r, Same x.1.2 x.2) ∧
      restoreObjectFromBuff env prog noclear fuel (l.flatMap lineText ++ [nul]) vars slots =
        .ok (putAll (layout 0 prog) r vars, slots')) ∨
    (∃ e ∈ l, ¬ e.1.name.val.length < varSize) ∧
      restoreObjectFromBuff env prog noclear fuel (l.flatMap lineText ++ [nul]) vars slots = .error .illegalFile := by
  induction l generalizing vars fuel slots with
  | nil =>
    obtain _ | f := fuel
    · omega
    exact .inl ⟨by simp, [], slots, rfl, by simp, rfl⟩
  | cons e l ih =>
    obtain _ | f := fuel
    · omega
    rw [flatMap_cons, append_assoc, restoreObjectFromBuff_line hfmt]
    by_cases hshort : e.1.name.val.length < varSize
    · obtain ⟨w, slots1, hsame, hline⟩ := restoreLine_text hlen (hv e mem_cons_self) hshort noclear
        (l.flatMap lineText ++ [nul]) slots
      rw [hline]
      have hlen' : (putAll (layout 0 prog) [(e, w)] vars).length = (layout 0 prog).length := by rw [putAll_length, hlen]
      rcases ih (fun x hx => hv x (.tail _ hx)) hlen'
        (by simpa using hf) slots1 with ⟨hall, r, slots2, hr, hrs, hrest⟩ | ⟨⟨x, hx, hlong⟩, hrest⟩
      · exact .inl ⟨forall_mem_cons.2 ⟨hshort, hall⟩, (e, w) :: r, slots2, by rw [map_cons, hr],
          forall_mem_cons.2 ⟨hsame, hrs⟩, hrest⟩
      · exact .inr ⟨⟨x, .tail _ hx, hlong⟩, hrest⟩
    · refine .inr ⟨⟨e, (.head _), hshort⟩, ?_⟩
      unfold restoreLine
      rw [cutAt_name]
      dsimp only
      rw [if_pos (by omega)]

omit [Double ρ] in
/-- a variable afterwards is what it was, or what the last line read into it holds -/
theorem putAll_getElem? (l : List Slot) {w : Svalue ρ} (h : (putAll l r vars)[j]? = some w) :
    (vars[j]? = some w ∧ ∀ x ∈ r, target l x.1.1.name.val ≠ some j) ∨
    ∃ a e b, r = a ++ (e, w) :: b ∧ target l e.1.name.val = some j ∧ ∀ x ∈ b, target l x.1.1.name.val ≠ some j := by
  induction r generalizing vars with
  | nil => exact .inl ⟨h, by simp⟩
  | cons x r ih =>
    obtain ⟨e, w'⟩ := x
    rcases ih h with ⟨hx, hno⟩ | ⟨a, e', b, rfl, ht, hno⟩
    · by_cases ht : target l e.1.name.val = some j
      · rw [ht] at hx
        obtain ⟨hj, hx⟩ := List.getElem?_eq_some_iff.1 hx
        obtain rfl : w' = w := by simpa using hx
        exact .inr ⟨[], e, r, rfl, ht, hno⟩
      · refine .inl ⟨?_, forall_mem_cons.2 ⟨ht, hno⟩⟩
        split at hx
        · next i hi =>
          have hij : i ≠ j := fun h => ht (h ▸ hi)
          rwa [getElem?_set_ne hij] at hx
        · exact hx
    · exact .inr ⟨(e, w') :: a, e', b, rfl, ht, hno⟩

/-! ## Saving and restoring an object -/

/-- a variable that is written to the file -/
def Written (saveZeros : Bool) (s : Slot) (v : Svalue ρ) : Prop := s.static = false ∧ (saveZeros = true ∨ v ≠ .number 0)

/-- the condition under which an object's variables survive: names shorter than the reader's buffer; and of two variables
of the same name the later, if it is not static, is zero, and so is the earlier when zeros are written too -/
structure Recoverable (saveZeros : Bool) (l : List Slot) (vars : List (Svalue ρ)) : Prop where
  short : ∀ (j : ℕ) (s : Slot) (v : Svalue ρ), l[j]? = some s → vars[j]? = some v → Written saveZeros s v → s.name.val.length < varSize
  later : ∀ (i j : ℕ) (s s' : Slot) (v' : Svalue ρ), i < j → l[i]? = some s → l[j]? = some s' → s.name = s'.name →
    s'.static = false → vars[j]? = some v' → v' = .number 0
  earlier : saveZeros = true → ∀ (i j : ℕ) (s s' : Slot) (v : Svalue ρ), i < j → l[i]? = some s → l[j]? = some s' →
    s.name = s'.name → s.static = false → s'.static = false → vars[i]? = some v → v = .number 0

/-- every variable that is not static has its value back -/
def AllBack (l : List Slot) (vars vars' : List (Svalue ρ)) : Prop :=
  ∀ (j : ℕ) (s : Slot) (v : Svalue ρ), l[j]? = some s → s.static = false → vars[j]? = some v → ∃ w, vars'[j]? = some w ∧ Same v w

/-- writing the object and reading the file into `fresh` gives every variable that is not static its value back -/
def ObjectRoundTrips (env : Env) (prog : Program) (saveZeros noclear : Bool) (vars fresh : List (Svalue ρ))
    (slots : List ℕ) : Prop :=
  ∃ file vars' slots', saveObject saveZeros prog vars = some file ∧
    restoreObject env prog noclear file fresh slots = .ok (vars', slots') ∧ AllBack (layout 0 prog) vars vars'

/-- the variables of an object that has not run yet, as far as restoring does not clear them anyway -/
def Fresh (prog : Program) (noclear : Bool) (fresh : List (Svalue ρ)) : Prop :=
  fresh.length = (layout 0 prog).length ∧
    (noclear = true → ∀ (j : ℕ) (s : Slot) (v : Svalue ρ), (layout 0 prog)[j]? = some s → s.static = false →
      fresh[j]? = some v → v = .number 0)

omit [Double ρ] in
theorem mem_written {l : List (Slot × Svalue ρ)} : e ∈ written saveZeros l ↔ e ∈ l ∧ Written saveZeros e.1 e.2 := by
  rw [written, Written, Ne, ← isZero_iff]
  simp

/-- the file is read as the lines that were written, starting from variables that are zero where not static -/
theorem restoreObject_file (saveZeros : Bool) {noclear : Bool} {fresh : List (Svalue ρ)}
    (hlen : vars.length = (layout 0 prog).length)
    (hv : ∀ e ∈ (layout 0 prog).zip vars, e.1.static = false → RoundTrips env e.2) (hfresh : Fresh prog noclear fresh)
    (slots : List ℕ) : ∃ file init, saveObject saveZeros prog vars = some file ∧
    init.length = (layout 0 prog).length ∧
    (∀ (j : ℕ) (s : Slot), (layout 0 prog)[j]? = some s → s.static = false → init[j]? = some (.number 0)) ∧
    ∃ fuel, (written saveZeros ((layout 0 prog).zip vars)).length < fuel ∧
    restoreObject env prog noclear file fresh slots = restoreObjectFromBuff env prog noclear fuel
      ((written saveZeros ((layout 0 prog).zip vars)).flatMap lineText ++ [nul]) init slots := by
  obtain ⟨hflen, hzero⟩ := hfresh
  have hsave := saveObjectRecurse_eq saveZeros prog 0 vars hlen.ge
  rw [saveSlots_text saveZeros hlen.ge hv] at hsave
  refine ⟨_, if noclear then fresh else clearNonStatics prog fresh, by rw [saveObject, hsave]; rfl, ?_, ?_, ?_⟩
  · split_ifs
    · exact hflen
    · rw [clearNonStatics, cnsRecurse_eq prog 0 rfl, clearSlots_length, hflen]
  · intro j s hs hst
    have hj : j < fresh.length := hflen ▸ (List.getElem?_eq_some_iff.1 hs).1
    split_ifs with hnc
    · rw [getElem?_eq_getElem hj, hzero hnc j s _ hs hst (getElem?_eq_getElem hj)]
    · rw [clearNonStatics_eq, getElem?_eq_getElem hj, hs]
      simp [hst]
  · generalize hw : written saveZeros ((layout 0 prog).zip vars) = w
    have hname : ∀ c ∈ hash :: slash :: prog.name.val, c ≠ newline ∧ c ≠ nul :=
      forall_mem_cons.2 ⟨⟨by decide, by decide⟩, forall_mem_cons.2 ⟨⟨by decide, by decide⟩, prog.name.property⟩⟩
    have hcut := cutAt_append hname (w.flatMap lineText ++ [nul])
    refine ⟨(hash :: slash :: prog.name.val ++ newline :: w.flatMap lineText).length, ?_, ?_⟩
    · have hle : w.length ≤ (w.flatMap lineText).length := by
        have := length_le_sum_of_one_le (w.map fun e => (lineText e).length) fun n hn => by
          obtain ⟨e, -, rfl⟩ := mem_map.1 hn
          simp only [lineText, length_append, length_cons]
          omega
        simpa using this
      simp only [length_append, length_cons]
      omega
    · rw [restoreObject]
      have htext : hash :: slash :: prog.name.val ++ newline :: w.flatMap lineText ++ [nul] =
          hash :: (slash :: prog.name.val ++ newline :: (w.flatMap lineText ++ [nul])) := by simp
      rw [htext, restoreObjectFromBuff, if_neg (by decide)]
      rw [cons_append] at hcut
      rw [hcut]
      dsimp only
      rw [restoreUnlessComment, if_pos (by simp)]

omit [Double ρ] in
theorem zip_getElem? : (l.zip vars)[j]? = some (s, v) ↔ l[j]? = some s ∧ vars[j]? = some v := by
  rw [getElem?_zip_eq_some]

omit [Double ρ] in
/-- an index has the name's first slot, or the name occurs before it -/
theorem first_or_before (hs : l[j]? = some s) (hst : s.static = false) :
    target l s.name.val = some j ∨ ∃ i s', i < j ∧ l[i]? = some s' ∧ s'.name = s.name := by
  by_cases h : ∃ i s', i < j ∧ l[i]? = some s' ∧ s'.name = s.name
  · exact .inr h
  · refine .inl (target_eq_some.2 ⟨s, hs, rfl, hst, fun k s' hk hs' hname => h ⟨k, s', hk, hs', Subtype.ext hname⟩⟩)

omit [Double ρ] in
/-- a line is read into the first slot of its name, which is not behind its own -/
theorem target_le {k : ℕ} {s' : Slot} (hs : l[i]? = some s) (hs' : l[k]? = some s')
    (ht : target l s'.name.val = some i) : s.name = s'.name ∧ s.static = false ∧ i ≤ k := by
  obtain ⟨s1, hs1, hname, hst, hfirst⟩ := target_eq_some.1 ht
  obtain rfl := some.inj (hs.symm.trans hs1)
  refine ⟨Subtype.ext hname, hst, ?_⟩
  by_contra hlt
  exact hfirst k s' (by omega) hs' rfl

omit [Double ρ] in
/-- what a variable holds after reading the lines that were written: what it held if no line goes there, else the value of
the last slot whose line does -/
theorem value_back {init : List (Svalue ρ)} (hilen : init.length = l.length)
    (hr : r.map Prod.fst = written saveZeros (l.zip vars)) (hsame : ∀ x ∈ r, Same x.1.2 x.2)
    (hj : j < l.length) : ∃ w, (putAll l r init)[j]? = some w ∧
    ((init[j]? = some w ∧ ∀ e ∈ written saveZeros (l.zip vars), target l e.1.name.val ≠ some j) ∨
      ∃ (k : ℕ) (s : Slot) (v : Svalue ρ), l[k]? = some s ∧ vars[k]? = some v ∧ Written saveZeros s v ∧
        target l s.name.val = some j ∧ Same v w ∧ ∀ (k' : ℕ) (s' : Slot) (v' : Svalue ρ), k < k' → l[k']? = some s' →
          vars[k']? = some v' → Written saveZeros s' v' → target l s'.name.val ≠ some j) := by
  have hj' : j < (putAll l r init).length := by rwa [putAll_length, hilen]
  obtain ⟨w, hget⟩ : ∃ w, (putAll l r init)[j]? = some w := ⟨_, getElem?_eq_getElem hj'⟩
  refine ⟨w, hget, ?_⟩
  rcases putAll_getElem? l hget with ⟨hx, hno⟩ | ⟨a, e, b, hsplit, ht, hno⟩
  · refine .inl ⟨hx, fun e he => ?_⟩
    rw [← hr] at he
    obtain ⟨x, hx, rfl⟩ := mem_map.1 he
    exact hno x hx
  · right
    obtain ⟨s, v⟩ := e
    rw [hsplit, map_append] at hr
    obtain ⟨A, B, hAB, -, hB⟩ := filter_eq_append_iff.1 hr.symm
    obtain ⟨B1, B2, rfl, -, hp, hB2⟩ := filter_eq_cons_iff.1 hB
    have hzip : (l.zip vars)[(A ++ B1).length]? = some (s, v) := by
      rw [hAB, ← append_assoc, getElem?_append_right le_rfl, Nat.sub_self]
      rfl
    obtain ⟨hs, hv⟩ := zip_getElem?.1 hzip
    have hw : Written saveZeros s v :=
      (mem_written.1 (show (s, v) ∈ written saveZeros (l.zip vars) by rw [← hr]; simp)).2
    refine ⟨_, s, v, hs, hv, hw, ht, hsame ((s, v), _) (by rw [hsplit]; simp), fun k' s' v' hk hs' hv' hw' => ?_⟩
    -- a later slot that is written stands behind this one in the file
    have hmem : (s', v') ∈ B2 := by
      have h := zip_getElem?.2 ⟨hs', hv'⟩
      rw [hAB, ← append_assoc, getElem?_append_right hk.le, getElem?_cons, if_neg (by omega)] at h
      exact mem_of_getElem? h
    have hmemb : (s', v') ∈ b.map Prod.fst := by
      have h : (s', v') ∈ written saveZeros B2 := mem_written.2 ⟨hmem, hw'⟩
      rwa [written, hB2] at h
    obtain ⟨x, hx, hxe⟩ := mem_map.1 hmemb
    have := hno x hx
    rwa [hxe] at this

section Back

variable {saveZeros : Bool} {l : List Slot} {vars init : List (Svalue ρ)} (hlen : vars.length = l.length)
  (hilen : init.length = l.length)
  (hinit : ∀ (j : ℕ) (s : Slot), l[j]? = some s → s.static = false → init[j]? = some (.number 0))
  {r : List ((Slot × Svalue ρ) × Svalue ρ)} (hr : r.map Prod.fst = written saveZeros (l.zip vars))
  (hsame : ∀ x ∈ r, Same x.1.2 x.2)

include hilen hinit hr hsame

omit [Double ρ] in
theorem allBack_of_recoverable (hrec : Recoverable saveZeros l vars) : AllBack l vars (putAll l r init) := by
  intro j s v hs hst hv
  obtain ⟨w, hget, hw⟩ := value_back hilen hr hsame (List.getElem?_eq_some_iff.1 hs).1
  refine ⟨w, hget, ?_⟩
  rcases hw with ⟨hw, hno⟩ | ⟨k, s', v', hs', hv', hwr, ht, hvw, -⟩
  · -- no line is read into the variable: then it was not written, or only zero stands there
    obtain rfl : (.number 0 : Svalue ρ) = w := some.inj ((hinit j s hs hst).symm.trans hw)
    by_cases hzero : v = .number 0
    · rw [hzero]
      rfl
    · have hmem := mem_written.2 ⟨mem_of_getElem? (zip_getElem?.2 ⟨hs, hv⟩),
        (⟨hst, .inr hzero⟩ : Written saveZeros s v)⟩
      rcases first_or_before hs hst with ht | ⟨i, s', hij, hs', hname⟩
      · exact absurd ht (hno _ hmem)
      · exact absurd (hrec.later i j s' s v hij hs' hs hname hst hv) hzero
  · obtain ⟨hname, -, hjk⟩ := target_le hs hs' ht
    rcases hjk.eq_or_lt with rfl | hjk
    · obtain rfl := some.inj (hv.symm.trans hv')
      exact hvw
    · -- a later variable of the same name is zero, so it was written only if zeros are
      obtain rfl := hrec.later j k s s' v' hjk hs hs' hname hwr.1 hv'
      rcases hwr.2 with hz | hne
      · rw [hrec.earlier hz j k s s' v hjk hs hs' hname hst hwr.1 hv]
        exact hvw
      · exact absurd rfl hne

include hlen in
omit [Double ρ] in
theorem recoverable_of_allBack (hshort : ∀ e ∈ written saveZeros (l.zip vars), e.1.name.val.length < varSize)
    (hback : AllBack l vars (putAll l r init)) : Recoverable saveZeros l vars := by
  have hlater : ∀ (i j : ℕ) (s s' : Slot) (v' : Svalue ρ), i < j → l[i]? = some s → l[j]? = some s' → s.name = s'.name →
      s'.static = false → vars[j]? = some v' → v' = .number 0 := by
    intro i j s s' v' hij hs hs' hname hst hv'
    obtain ⟨w, hget, hw⟩ := value_back hilen hr hsame (List.getElem?_eq_some_iff.1 hs').1
    obtain ⟨w', hget', hvw⟩ := hback j s' v' hs' hst hv'
    obtain rfl := some.inj (hget.symm.trans hget')
    rcases hw with ⟨hw, -⟩ | ⟨k, s'', v'', hs'', -, -, ht, -⟩
    · obtain rfl : (.number 0 : Svalue ρ) = w := some.inj ((hinit j s' hs' hst).symm.trans hw)
      exact same_number_right hvw
    · -- nothing is read into a slot whose name occurs before it
      obtain ⟨s1, hs1, hname1, -, hfirst⟩ := target_eq_some.1 ht
      obtain rfl := some.inj (hs'.symm.trans hs1)
      exact absurd ((congrArg Subtype.val hname).trans hname1) (hfirst i s hij hs)
  refine ⟨fun j s v hs hv hw => ?_, hlater, fun hz i j s s' v hij hs hs' hname hst hst' hv => ?_⟩
  · exact hshort _ (mem_written.2 ⟨mem_of_getElem? (zip_getElem?.2 ⟨hs, hv⟩), hw⟩)
  · rcases first_or_before hs hst with ht | ⟨i', s1, hi', hs1, hname1⟩
    · have hj : j < vars.length := hlen ▸ (List.getElem?_eq_some_iff.1 hs').1
      have hwj : Written saveZeros s' vars[j] := ⟨hst', .inl hz⟩
      have htj : target l s'.name.val = some i := by rw [← hname]; exact ht
      obtain ⟨w, hget, hw⟩ := value_back hilen hr hsame (List.getElem?_eq_some_iff.1 hs).1
      obtain ⟨w', hget', hvw⟩ := hback i s v hs hst hv
      obtain rfl := some.inj (hget.symm.trans hget')
      rcases hw with ⟨-, hno⟩ | ⟨k, s'', v'', hs'', hv'', hwr, ht'', hvw'', hlast⟩
      · exact absurd htj (hno _ (mem_written.2 ⟨mem_of_getElem? (zip_getElem?.2 ⟨hs', getElem?_eq_getElem hj⟩), hwj⟩))
      · -- the last line read into the first slot is that of a later one, which is zero
        have hjk : j ≤ k := by
          by_contra hlt
          exact hlast j s' _ (by omega) hs' (getElem?_eq_getElem hj) hwj htj
        obtain ⟨hname'', -, -⟩ := target_le hs hs'' ht''
        obtain rfl := hlater i k s s'' v'' (by omega) hs hs'' hname'' hwr.1 hv''
        obtain rfl : w = .number 0 := hvw''
        exact same_number_right hvw
    · exact hlater i' i s1 s v hi' hs1 hs hname1 hst hv

end Back

/-- **Saving and restoring an object.** With values that survive on their own, every variable that is not static has its
value back in a fresh object exactly when the written names are short enough and no two variables of one name get in each
other's way. -/
theorem objectRoundTrips_iff (env : Env) (hfmt : OneLine ρ) (prog : Program) (saveZeros noclear : Bool)
    (vars fresh : List (Svalue ρ)) (slots : List ℕ) (hlen : vars.length = (layout 0 prog).length)
    (hv : ∀ e ∈ (layout 0 prog).zip vars, e.1.static = false → RoundTrips env e.2) (hfresh : Fresh prog noclear fresh) :
    ObjectRoundTrips env prog saveZeros noclear vars fresh slots ↔ Recoverable saveZeros (layout 0 prog) vars := by
  obtain ⟨file, init, hsave, hilen, hinit, fuel, hfuel, hrestore⟩ :=
    restoreObject_file saveZeros hlen hv hfresh slots
  have hvw : ∀ e ∈ written saveZeros ((layout 0 prog).zip vars), RoundTrips env e.2 := fun e he =>
    hv e (mem_written.1 he).1 (mem_written.1 he).2.1
  have hlines := restoreObjectFromBuff_lines hfmt noclear hvw hilen hfuel slots
  rw [← hrestore] at hlines
  unfold ObjectRoundTrips
  generalize layout 0 prog = l at hlen hinit hlines hilen hvw
  constructor
  · rintro ⟨file', vars', slots', hsave', hread, hback⟩
    obtain rfl := some.inj (hsave.symm.trans hsave')
    rcases hlines with ⟨hshort, r, slots1, hr, hsame, hread'⟩ | ⟨-, hread'⟩
    · obtain ⟨rfl, -⟩ := Prod.mk.inj (Except.ok.inj (hread.symm.trans hread'))
      exact recoverable_of_allBack hlen hilen hinit hr hsame hshort hback
    · rw [hread] at hread'
      cases hread'
  · intro hrec
    rcases hlines with ⟨-, r, slots1, hr, hsame, hread⟩ | ⟨⟨e, he, hlong⟩, -⟩
    · exact ⟨file, _, slots1, hsave, hread, allBack_of_recoverable hilen hinit hr hsame hrec⟩
    · -- a written name that is too long
      obtain ⟨hmem, hw⟩ := mem_written.1 he
      obtain ⟨j, hj⟩ := mem_iff_getElem?.1 hmem
      obtain ⟨hs, hv⟩ := zip_getElem?.1 hj
      exact absurd (hrec.short j e.1 e.2 hs hv hw) hlong

end ObjectRoundTrip

/-! ## Two programs -/

/-- the one-letter identifier with code `97 + n` -/
def letter (n : Fin 26) : Ident :=
  ⟨[UInt8.ofNat (97 + n)], by simp, fun c hc => by obtain rfl := mem_singleton.1 hc; clear hc; revert n; decide⟩

def nameless : FileName := ⟨[], by simp⟩

/-- a program that inherits one with the variables `a` and (static) `b`, and defines `c` -/
def heir : Program :=
  .mk nameless [(0, .mk nameless [] [⟨letter 0, 0⟩, ⟨letter 1, nameStatic⟩])] [⟨letter 2, 0⟩]

/-- a program that inherits two others, both with a variable `a` -/
def twoParents : Program := .mk nameless [(0, .mk nameless [] [⟨letter 0, 0⟩]), (0, .mk nameless [] [⟨letter 0, 0⟩])] []

theorem oneLine_zero : OneLine ZeroReal := by
  intro r c hc
  obtain rfl : c = digit0 := mem_singleton.1 hc
  exact ⟨by decide, by decide⟩

theorem heir_roundTrips : Recoverable false (layout 0 heir) ([.number 5, .other, .number 0] : List (Svalue ZeroReal)) ∧
    ObjectRoundTrips sampleEnv heir false true ([.number 5, .other, .number 0] : List (Svalue ZeroReal))
      [.number 0, .string [], .number 0] [] := by
  have hlayout : layout 0 heir = [⟨letter 0, false⟩, ⟨letter 1, true⟩, ⟨letter 2, false⟩] := rfl
  have hrec : Recoverable false (layout 0 heir) ([.number 5, .other, .number 0] : List (Svalue ZeroReal)) := by
    have hdiff : (layout 0 heir).Pairwise fun s s' => s.name.val ≠ s'.name.val := by decide
    have hshort : ∀ s ∈ layout 0 heir, s.name.val.length < varSize := by decide
    refine ⟨fun j s v hs _ _ => hshort s (mem_of_getElem? hs),
      fun i j s s' v' hij hs hs' hname => ?_, fun h => absurd h (by decide)⟩
    obtain ⟨hi, rfl⟩ := List.getElem?_eq_some_iff.1 hs
    obtain ⟨hj, rfl⟩ := List.getElem?_eq_some_iff.1 hs'
    exact absurd (congrArg Subtype.val hname) (pairwise_iff_getElem.1 hdiff i j hi hj hij)
  have hfresh : Fresh heir true ([.number 0, .string [], .number 0] : List (Svalue ZeroReal)) := by
    refine ⟨rfl, fun _ j s v hs hst hv => ?_⟩
    match j, hs, hv with
    | 0, _, hv | 2, _, hv => exact (some.inj hv).symm
    | 1, hs, _ =>
      cases hs
      cases hst
    | j + 3, hs, _ => cases hs
  refine ⟨hrec, (objectRoundTrips_iff sampleEnv oneLine_zero heir false true _ _ [] rfl ?_ hfresh).2 hrec⟩
  intro e he hst
  rw [hlayout] at he
  simp only [zip_cons_cons, zip_nil_right, mem_cons, not_mem_nil, or_false] at he
  rcases he with rfl | rfl | rfl
  · exact ⟨[53], by decide, fun slots _ _ => ⟨.number 5, slots, rfl, rfl⟩⟩
  · cases hst
  · exact ⟨[48], by decide, fun slots _ _ => ⟨.number 0, slots, rfl, rfl⟩⟩

/-- **Two inherited variables of one name.** The values 1 and 2 are written as `a 1` and `a 2`; both lines are read into
the first variable, the second one stays zero. -/
theorem same_name_lost : saveObject false twoParents ([.number 1, .number 2] : List (Svalue ZeroReal)) =
      some ([35, 47, 10] ++ [97, 32, 49, 10] ++ [97, 32, 50, 10]) ∧
    restoreObject sampleEnv twoParents false ([35, 47, 10] ++ [97, 32, 49, 10] ++ [97, 32, 50, 10])
      ([.number 0, .number 0] : List (Svalue ZeroReal)) [] = .ok ([.number 2, .number 0], []) ∧
    ¬ ObjectRoundTrips sampleEnv twoParents false false ([.number 1, .number 2] : List (Svalue ZeroReal))
      [.number 0, .number 0] [] := by
  have hsave : saveObject false twoParents ([.number 1, .number 2] : List (Svalue ZeroReal)) =
      some ([35, 47, 10] ++ [97, 32, 49, 10] ++ [97, 32, 50, 10]) := by decide
  have hread : restoreObject sampleEnv twoParents false ([35, 47, 10] ++ [97, 32, 49, 10] ++ [97, 32, 50, 10])
      ([.number 0, .number 0] : List (Svalue ZeroReal)) [] = .ok ([.number 2, .number 0], []) := rfl
  refine ⟨hsave, hread, ?_⟩
  rintro ⟨file, vars', slots', hfile, hvars, hback⟩
  obtain rfl := some.inj (hsave.symm.trans hfile)
  obtain ⟨rfl, -⟩ := Prod.mk.inj (Except.ok.inj (hread.symm.trans hvars))
  obtain ⟨w, hw, hsame⟩ := hback 1 ⟨letter 0, false⟩ (.number 2) rfl rfl rfl
  cases hw
  exact absurd (Svalue.number.inj hsame) (by decide)

end Lithos.Lpc.Save
