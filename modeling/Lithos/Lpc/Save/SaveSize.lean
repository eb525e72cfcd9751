/-
The size of the save buffer (`svalue_save_size`), against what `save_svalue` writes into it.

The writer moves on by `width` bytes for a value, one less than its size unless it is a value that is saved as nothing.
The digits of the least 64-bit integer are written backwards from a position that is 18 bytes too early (see `Writer`),
so `need` says how many bytes have to stand before a value to keep them inside the buffer.

Results:
- `save_fits_iff`: what is written for a value, with its NUL, lies in a buffer of the size asked for exactly if every
  least integer in the value has 18 bytes of text before it.
- `least_integer_underruns`: the least integer on its own is written to bytes before its buffer.
-/
import Lithos.Lpc.Save.RoundTrip

namespace Lithos.Lpc.Save

open List Option

variable {ρ : Type} [Double ρ] {n w : ℕ} {f g : List Byte → Option (List Byte)}

/-! ## Model -/

/-- `MAX_SAVE_SVALUE_DEPTH` -/
def maxSaveSvalueDepth : ℕ := 25

/-- the size of a string: its escaped characters, the quotes and a delimiter -/
def stringSaveSize (s : List Byte) : ℕ :=
  3 + ((s.takeWhile (· ≠ nul)).map fun c => if c = backslash ∨ c = quote then 2 else 1).sum

/-- the size of a number: its sign, its digits and a delimiter -/
def numberSaveSize (n : Int64) : ℕ :=
  (if n < 0 then 1 else 0) + countDigits maxDigits (if n < 0 then -n else n).toInt + 2

mutual

/-- `svalue_save_size` at a depth of containers; `none` when it raises an error because they are too deep -/
def svalueSaveSize : ℕ → Svalue ρ → Option ℕ
  | _, .string s => some (stringSaveSize s)
  | depth, .array l => if maxSaveSvalueDepth < depth + 1 then none else (itemsSaveSize (depth + 1) l).map (· + 5)
  | depth, .class_ l => if maxSaveSvalueDepth < depth + 1 then none else (itemsSaveSize (depth + 1) l).map (· + 5)
  | depth, .mapping l => if maxSaveSvalueDepth < depth + 1 then none else (nodesSaveSize (depth + 1) l).map (· + 5)
  | _, .number n => some (numberSaveSize n)
  | _, .real r => some ((Double.fmtG r).length + 1)
  | _, .other => some 2

def itemsSaveSize : ℕ → List (Svalue ρ) → Option ℕ
  | _, [] => some 0
  | depth, v :: l => do return (← svalueSaveSize depth v) + (← itemsSaveSize depth l)

def nodesSaveSize : ℕ → List (Svalue ρ × Svalue ρ) → Option ℕ
  | _, [] => some 0
  | depth, (k, v) :: l => do
    return (← svalueSaveSize depth k) + (← svalueSaveSize depth v) + (← nodesSaveSize depth l)

end

/-! ## How far the writer moves -/

mutual

/-- by how many bytes the writer moves on -/
def width : Svalue ρ → ℕ
  | .number n => (if n < 0 then 2 else 1) + countDigits maxDigits (if n < 0 then -n else n).toInt
  | .real r => (Double.fmtG r).length
  | .string s => (saveString s).length
  | .array l => itemsWidth l + 4
  | .class_ l => itemsWidth l + 4
  | .mapping l => nodesWidth l + 4
  | .other => 0

def itemsWidth : List (Svalue ρ) → ℕ
  | [] => 0
  | v :: l => width v + 1 + itemsWidth l

def nodesWidth : List (Svalue ρ × Svalue ρ) → ℕ
  | [] => 0
  | (k, v) :: l => width k + 1 + (width v + 1) + nodesWidth l

end

mutual

/-- how many bytes have to stand before a value so that the digits of every least integer in it find room -/
def need : Svalue ρ → ℕ
  | .number n => if n = Int64.minValue then 18 else 0
  | .array l => itemsNeed l - 2
  | .class_ l => itemsNeed l - 2
  | .mapping l => nodesNeed l - 2
  | _ => 0

def itemsNeed : List (Svalue ρ) → ℕ
  | [] => 0
  | v :: l => max (need v) (itemsNeed l - (width v + 1))

def nodesNeed : List (Svalue ρ × Svalue ρ) → ℕ
  | [] => 0
  | (k, v) :: l =>
    max (need k) (max (need v - (width k + 1)) (nodesNeed l - (width k + 1 + (width v + 1))))

end

/-! ## What is written -/

/-- the writer finds room for a value exactly behind `need` bytes, and moves on by `width` -/
def Writes (v : Svalue ρ) : Prop :=
  ∀ buf, (need v ≤ buf.length ↔ ∃ out, saveSvalue v buf = some out) ∧
    ∀ out, saveSvalue v buf = some out → out.length = buf.length + width v

/-- the digits of the least integer and its sign are 20 bytes, of which the writer has counted two -/
theorem saveNumber_min : ∃ t : List Byte, t.length = 20 ∧ ∀ buf,
    saveNumber Int64.minValue buf = if 18 ≤ buf.length then some (buf.take (buf.length - 18) ++ t) else none := by
  refine ⟨[minus] ++ digitsBack maxDigits (-Int64.minValue).toInt, by decide, ?_⟩
  intro buf
  have hlen : 2 + countDigits maxDigits (-Int64.minValue).toInt = 2 := by decide
  have hout : ([minus] ++ digitsBack maxDigits (-Int64.minValue).toInt).length = 20 := by decide
  have hneg : Int64.minValue < 0 := by decide
  simp only [saveNumber, if_pos hneg, hlen, hout]
  have hle : 20 ≤ buf.length + 2 ↔ 18 ≤ buf.length := by omega
  have hsub : buf.length + 2 - 20 = buf.length - 18 := by omega
  rw [hsub]
  simp only [hle]

theorem width_min : width (.number Int64.minValue : Svalue ρ) = 2 := by
  simp only [width]
  decide

theorem writes_number (n : Int64) : Writes (.number n : Svalue ρ) := by
  intro buf
  by_cases hmin : n = Int64.minValue
  · subst hmin
    obtain ⟨t, ht, hsave⟩ := saveNumber_min
    rw [width_min]
    simp only [need, saveSvalue, hsave, if_true]
    by_cases hroom : 18 ≤ buf.length
    · simp only [if_pos hroom]
      refine ⟨⟨fun _ => ⟨_, rfl⟩, fun _ => hroom⟩, ?_⟩
      intro out hout
      cases hout
      rw [length_append, length_take]
      omega
    · simp only [if_neg hroom]
      refine ⟨⟨fun h => absurd h hroom, ?_⟩, fun out hout => by cases hout⟩
      rintro ⟨out, hout⟩
      cases hout
  · have hlen : (digitsBack maxDigits n.toInt.natAbs).length = countDigits maxDigits n.toInt.natAbs + 1 :=
      length_digitsBack (natAbs_lt n)
    have heq := saveNumber_eq hmin buf
    simp only [need, saveSvalue, heq, if_neg hmin, width, abs_toInt hmin]
    refine ⟨⟨fun _ => ⟨_, rfl⟩, fun _ => Nat.zero_le _⟩, ?_⟩
    intro out hout
    cases hout
    rw [length_append, numberText, length_append]
    split_ifs
    · simp only [length_singleton]
      omega
    · simp only [length_nil]
      omega

/-- a writer that finds room exactly behind `n` bytes, and moves on by `w` -/
def Moves (n w : ℕ) (save : List Byte → Option (List Byte)) : Prop :=
  ∀ buf, (n ≤ buf.length ↔ ∃ out, save buf = some out) ∧ ∀ out, save buf = some out → out.length = buf.length + w

/-- one writer after the other, with a delimiter between -/
theorem Moves.then {n' w' : ℕ} (hf : Moves n w f) (hg : Moves n' w' g)
    (sep : Byte) : Moves (max n (n' - (w + 1))) (w + 1 + w') fun buf => (f buf).bind fun b => g (b ++ [sep]) := by
  intro buf
  obtain ⟨hneed, hwidth⟩ := hf buf
  dsimp only
  cases hv : f buf with
  | none =>
    rw [hv] at hneed
    refine ⟨⟨fun h => ?_, nofun⟩, nofun⟩
    have hno := hneed.1 (le_trans (le_max_left _ _) h)
    exact nomatch hno
  | some b =>
    obtain ⟨hneed', hwidth'⟩ := hg (b ++ [sep])
    rw [length_append, length_singleton, hwidth b hv] at hneed' hwidth'
    have hv' : n ≤ buf.length := hneed.2 ⟨b, hv⟩
    rw [bind_some, ← hneed']
    refine ⟨by omega, fun out hout => ?_⟩
    rw [hwidth' out hout]
    omega

variable {save : List Byte → Option (List Byte)} {d s : ℕ}

/-- a container: two bytes, the rest, and two bytes -/
theorem writes_container {v : Svalue ρ} {start stop : List Byte} (hstart : start.length = 2) (hstop : stop.length = 2)
    (hsave : ∀ buf, saveSvalue v buf = (save (buf ++ start)).map (· ++ stop)) (hneed : need v = n - 2)
    (hwidth : width v = w + 4) (hrest : Moves n w save) : Writes v := by
  intro buf
  obtain ⟨hiff, hlen⟩ := hrest (buf ++ start)
  rw [length_append, hstart] at hiff hlen
  rw [hsave, hneed]
  refine ⟨?_, ?_⟩
  · rw [Nat.sub_le_iff_le_add, hiff]
    simp
  · intro out hout
    obtain ⟨b, hb, heq⟩ := map_eq_some_iff.1 hout
    rw [← heq, length_append, hlen b hb]
    omega

mutual

theorem writes : ∀ v : Svalue ρ, Writes v
  | .number n => writes_number n
  | .real _ | .string _ | .other => by intro buf; simp [need, saveSvalue, width]
  | .array l | .class_ l => writes_container rfl rfl (fun _ => rfl) rfl rfl (writes_items l)
  | .mapping l => writes_container rfl rfl (fun _ => rfl) rfl rfl (writes_nodes l)

/-- the writer goes through the items one after the other -/
theorem writes_items : ∀ l : List (Svalue ρ), Moves (itemsNeed l) (itemsWidth l) (saveItems l)
  | [] => by intro buf; simp [itemsNeed, saveItems, itemsWidth]
  | v :: l => Moves.then (writes v) (writes_items l) comma

theorem writes_nodes : ∀ l : List (Svalue ρ × Svalue ρ), Moves (nodesNeed l) (nodesWidth l) (saveNodes l)
  | [] => by intro buf; simp [nodesNeed, saveNodes, nodesWidth]
  | (k, v) :: l => by
    have hneed : nodesNeed ((k, v) :: l) =
        max (need k) (max (need v) (nodesNeed l - (width v + 1)) - (width k + 1)) := by rw [nodesNeed]; omega
    have hwidth : nodesWidth ((k, v) :: l) = width k + 1 + (width v + 1 + nodesWidth l) := Nat.add_assoc ..
    rw [hneed, hwidth]
    exact Moves.then (writes k) (Moves.then (writes v) (writes_nodes l) comma) colon

end

/-! ## What is asked for -/

theorem length_saveString (s : List Byte) : (saveString s).length + 1 = stringSaveSize s := by
  have hchar : ∀ l : List Byte, (l.flatMap saveChar).length =
      (l.map fun c => if c = backslash ∨ c = quote then 2 else 1).sum := by
    intro l
    rw [length_flatMap]
    congr 1
    apply map_congr_left
    intro c _
    simp only [saveChar]
    split_ifs <;> simp_all
  rw [saveString, stringSaveSize, ← hchar]
  simp only [length_append, length_singleton]
  omega

/-- a container's size: five bytes more than what is in it -/
theorem size_container {rest : Option ℕ} (hrest : ∀ a, rest = some a → w ≤ a)
    (h : (if maxSaveSvalueDepth < d + 1 then none else rest.map (· + 5)) = some s) : w + 5 ≤ s := by
  split_ifs at h
  obtain ⟨a, ha, rfl⟩ := map_eq_some_iff.1 h
  exact Nat.add_le_add_right (hrest a ha) 5

mutual

/-- the writer moves on by less than the size of the value -/
theorem width_lt_size : ∀ (v : Svalue ρ) (d s : ℕ), svalueSaveSize d v = some s → width v + 1 ≤ s
  | .number n, d, s, h => by
    cases h
    rw [width, numberSaveSize]
    split_ifs <;> omega
  | .real r, d, s, h => by
    cases h
    exact le_refl _
  | .string t, d, s, h => by
    cases h
    exact (length_saveString t).le
  | .array l, d, s, h | .class_ l, d, s, h => size_container (fun a => itemsWidth_le l _ a) (by rw [← h, svalueSaveSize])
  | .mapping l, d, s, h => size_container (fun a => nodesWidth_le l _ a) (by rw [← h, svalueSaveSize])
  | .other, d, s, h => by
    cases h
    rw [width]
    omega

theorem itemsWidth_le : ∀ (l : List (Svalue ρ)) (d s : ℕ), itemsSaveSize d l = some s → itemsWidth l ≤ s
  | [], _, _, _ => Nat.zero_le _
  | v :: l, d, s, h => by
    obtain ⟨a, ha, h⟩ := bind_eq_some_iff.1 h
    obtain ⟨b, hb, h⟩ := bind_eq_some_iff.1 h
    cases h
    exact Nat.add_le_add (width_lt_size v d a ha) (itemsWidth_le l d b hb)

theorem nodesWidth_le : ∀ (l : List (Svalue ρ × Svalue ρ)) (d s : ℕ), nodesSaveSize d l = some s → nodesWidth l ≤ s
  | [], _, _, _ => Nat.zero_le _
  | (k, v) :: l, d, s, h => by
    obtain ⟨a, ha, h⟩ := bind_eq_some_iff.1 h
    obtain ⟨b, hb, h⟩ := bind_eq_some_iff.1 h
    obtain ⟨c, hc, h⟩ := bind_eq_some_iff.1 h
    cases h
    exact Nat.add_le_add (Nat.add_le_add (width_lt_size k d a ha) (width_lt_size v d b hb)) (nodesWidth_le l d c hc)

end

/-- **The save buffer bound.** What `save_svalue` writes for a value, with the NUL behind it, lies in a buffer of the
size `svalue_save_size` asked for exactly if the least integers of the value find room for their digits. -/
theorem save_fits_iff (v : Svalue ρ) (size : ℕ) (h : svalueSaveSize 0 v = some size) :
    (∃ out, saveSvalue v [] = some out ∧ out.length + 1 ≤ size) ↔ need v = 0 := by
  obtain ⟨hneed, hwidth⟩ := writes v []
  have hsize := width_lt_size v 0 size h
  rw [length_nil, Nat.le_zero] at hneed
  rw [hneed]
  constructor
  · rintro ⟨out, hout, -⟩
    exact ⟨out, hout⟩
  · rintro ⟨out, hout⟩
    refine ⟨out, hout, ?_⟩
    calc out.length + 1 = width v + 1 := by rw [hwidth out hout, length_nil, Nat.zero_add]
      _ ≤ size := hsize

/-- `({ -1, "a\"" })` -/
def smallSample : Svalue ZeroReal := .array [.number (-1), .string [97, 34]]

theorem smallSample_fits :
    svalueSaveSize 0 smallSample = some 14 ∧ ∃ out, saveSvalue smallSample [] = some out ∧ out.length + 1 ≤ 14 :=
  ⟨by decide, (save_fits_iff smallSample 14 (by decide)).2 (by decide)⟩

/-- **The least integer is written before its buffer.** Three bytes are asked for, and the first of the twenty bytes
written lies eighteen bytes before them. -/
theorem least_integer_underruns : svalueSaveSize 0 (.number Int64.minValue : Svalue ZeroReal) = some 3 ∧
      saveSvalue (.number Int64.minValue : Svalue ZeroReal) [] = none := by
  decide

/-! ## What stands before a value -/

/-- the writer does not look at what stands before a value, as long as there is room for the digits -/
def Shifts (save : List Byte → Option (List Byte)) : Prop :=
  ∀ pre buf out, save buf = some out → save (pre ++ buf) = some (pre ++ out)

theorem saveNumber_shifts (n : Int64) : Shifts (saveNumber n) := by
  intro pre buf out h
  by_cases hmin : n = Int64.minValue
  · subst hmin
    obtain ⟨t, -, hsave⟩ := saveNumber_min
    rw [hsave] at h ⊢
    by_cases hroom : 18 ≤ buf.length
    · rw [if_pos hroom] at h
      cases h
      have hroom' : 18 ≤ (pre ++ buf).length := by rw [length_append]; omega
      have hlen : (pre ++ buf).length - 18 = pre.length + (buf.length - 18) := by rw [length_append]; omega
      rw [if_pos hroom', hlen, take_length_add_append, append_assoc]
    · rw [if_neg hroom] at h
      cases h
  · rw [saveNumber_eq hmin] at h ⊢
    cases h
    rw [append_assoc]

theorem Shifts.then (hf : Shifts f) (hg : Shifts g) (sep : Byte) :
    Shifts fun buf => (f buf).bind fun b => g (b ++ [sep]) := by
  intro pre buf out h
  obtain ⟨b, hb, hrest⟩ := bind_eq_some_iff.1 h
  dsimp only
  rw [hf pre buf b hb, bind_some, append_assoc]
  exact hg pre _ out hrest

theorem container_shifts (h : Shifts save) (start stop : List Byte) :
    Shifts fun buf => (save (buf ++ start)).map (· ++ stop) := by
  intro pre buf out hout
  obtain ⟨b, hb, rfl⟩ := map_eq_some_iff.1 hout
  have hpre := h pre (buf ++ start) b hb
  dsimp only
  rw [append_assoc, hpre, map_some, append_assoc]

mutual

theorem saveSvalue_shifts : ∀ v : Svalue ρ, Shifts (saveSvalue v)
  | .number n => saveNumber_shifts n
  | .real _ | .string _ => by
    intro pre buf out h
    cases h
    exact congrArg some (append_assoc _ _ _)
  | .array l => container_shifts (saveItems_shifts l) [lparen, lbrace] [rbrace, rparen]
  | .class_ l => container_shifts (saveItems_shifts l) [lparen, slash] [slash, rparen]
  | .mapping l => container_shifts (saveNodes_shifts l) [lparen, lbracket] [rbracket, rparen]
  | .other => by
    rintro pre buf out ⟨⟩
    rfl

theorem saveItems_shifts : ∀ l : List (Svalue ρ), Shifts (saveItems l)
  | [] => by
    rintro pre buf out ⟨⟩
    rfl
  | v :: l => (saveSvalue_shifts v).then (saveItems_shifts l) comma

theorem saveNodes_shifts : ∀ l : List (Svalue ρ × Svalue ρ), Shifts (saveNodes l)
  | [] => by
    rintro pre buf out ⟨⟩
    rfl
  | (k, v) :: l => (saveSvalue_shifts k).then ((saveSvalue_shifts v).then (saveNodes_shifts l) comma) colon

end

end Lithos.Lpc.Save
