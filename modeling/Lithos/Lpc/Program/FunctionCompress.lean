/-
Compression of the runtime function table (`compress_function_tables` in `lib/lpc/compiler.c`) and the lookup in the
compressed table (`find_func_entry` in `lib/lpc/program.c`, `FIND_FUNC_ENTRY` in `lib/lpc/program.h`).

An entry that stands where its inherited program was copied to is left out: the lookup makes it again from the list of
inherited programs. The entries after the last such entry are kept as they are. Among those before it the ones that do
not stand in their place are numbered by one byte each, with 255 for an entry that is left out. When a 256th number would
be needed the compiler gives up on the rest of the table, but it keeps the old count of entries to copy.

Results:
* `compress_correct_iff`: for every source file whose indices fit `function_index_t`, the lookup gives at every index the
  entry of the uncompressed table exactly when fewer than 256 entries before the last one in place are out of place;
* `many_overloads_lost`: with 256 inherited functions redefined the last entry of the table is lost.
-/
import Lithos.Core.BinarySearch
import Lithos.Lpc.Program.FunctionTable

namespace Lithos.Lpc.Program.FunctionCompress

open Lithos.Core.BinarySearch List Option Bool
open Lithos.Lpc.Program.FunctionTable

/-! ## The table in place -/

/-- the entry at a runtime index -/
def rentry (t : Table) (i : ℕ) : RuntimeFunction := (t.entries[i]?.map (·.rentry)).getD (.defined 0 0 0)

/-- `INHERIT (n)->function_index_offset` -/
def offsetOf (inh : List InheritRecord) (n : ℕ) : ℕ := (inh[n]?.map (·.functionIndexOffset)).getD 0

/-- `EXPECTED_INDEX` -/
def expectedIndex (inh : List InheritRecord) (r : RuntimeFunction) : ℕ := offsetOf inh r.inh.1 + r.inh.2

/-- the entry is inherited and stands where its program was copied to -/
def inPlace (t : Table) (i : ℕ) : Bool :=
  match t.entries[i]? with
  | none => false
  | some e => e.flags.any nameInherited && expectedIndex t.inherits e.rentry == i

/-- the entries out of place that come before one in place -/
def overridden (t : Table) : ℕ :=
  ((range t.entries.length).filter fun i =>
    !inPlace t i && (range t.entries.length).any fun k => i < k && inPlace t k).length

/-! ## Compression -/

/-- the loop for `f_def`: one more than the last index below `n` in place -/
def firstDefined (p : ℕ → Bool) : ℕ → ℕ
  | 0 => 0
  | n + 1 => if p n then n + 1 else firstDefined p n

/-- the loop for `f_ov`: the first of `k` indices from `i` on that is not in place -/
def firstOverload (p : ℕ → Bool) : ℕ → ℕ → ℕ
  | 0, i => i
  | k + 1, i => if p i then firstOverload p k (i + 1) else i

/-- the loop for `l_ov`, as one more than the last index out of place -/
def lastOverload (p : ℕ → Bool) (fOv : ℕ) : ℕ → ℕ
  | 0 => 0
  | e + 1 => if fOv < e && p e then lastOverload p fOv e else e + 1

/-- what the numbering leaves: the index bytes, the count `j`, and the position where the numbers ran out -/
structure Numbering where
  index : List ℕ
  j : ℕ
  stop : Option ℕ
  deriving DecidableEq

/-- the loop that numbers the entries out of place; the list says which entries of the window are in place -/
def number : List Bool → ℕ → ℕ → Numbering
  | [], _, j => ⟨[], j, none⟩
  | true :: w, i, j => { number w (i + 1) j with index := 255 :: (number w (i + 1) j).index }
  | false :: w, i, j =>
    if j + 1 = 256 then ⟨replicate (w.length + 1) 255, 255, some i⟩
    else { number w (i + 1) (j + 1) with index := j :: (number w (i + 1) (j + 1)).index }

/-- a loop that writes `val i` at position `pos i` for `i < n` -/
def writeAll {α : Type} (pos : ℕ → Option ℕ) (val : ℕ → α) (n : ℕ) (p : List α) : List α :=
  (range n).foldl (fun p i => match pos i with | some k => p.set k (val i) | none => p) p

/-- `compressed_offset_table_t` and the block of runtime functions -/
structure Compressed where
  firstDefined : ℕ
  firstOverload : ℕ
  numCompressed : ℕ
  numDeleted : ℕ
  index : List ℕ
  functionOffsets : List RuntimeFunction
  deriving DecidableEq

/-- the position an entry of the window is copied to -/
def bytePosition (index : List ℕ) (i : ℕ) : Option ℕ := if index.getD i 255 = 255 then none else some (index.getD i 255)

/-- the block of runtime functions after the compression -/
def copiedBlock (t : Table) (fOv nOv fDef nDef : ℕ) (num : Numbering) : List RuntimeFunction :=
  let block := replicate (num.j + nDef) (.defined 0 0 0)
  let block := writeAll (bytePosition num.index) (fun i => rentry t (fOv + i)) nOv block
  writeAll (fun i => some (i + num.j)) (fun i => rentry t (fDef + i)) nDef block

/-- `compress_function_tables` -/
def compress (t : Table) : Compressed :=
  let p := inPlace t
  let n := t.entries.length
  let fDef := firstDefined p n
  let nDef := n - fDef
  let fOv := firstOverload p fDef 0
  let nOv := lastOverload p fOv fDef - fOv
  let num := number ((range nOv).map fun i => p (fOv + i)) 0 0
  -- when the numbers run out `f_def` moves down, and `n_def` stays what it was
  let fDef' := match num.stop with
    | some i => fOv + i
    | none => fDef
  { firstDefined := ushort fDef'
    firstOverload := ushort fOv
    numCompressed := ushort (match num.stop with
      | some i => i
      | none => fDef - nOv)
    numDeleted := ushort (ushort fDef' + 65536 - num.j)
    index := num.index
    functionOffsets :=
      if num.j + nDef = 0 then []
      else if fDef' ≠ 0 then copiedBlock t fOv nOv fDef' nDef num
      else t.entries.map (·.rentry) }

/-! ## Lookup -/

/-- an omitted entry, made again from the list of inherited programs -/
def remade (inh : List InheritRecord) (index : ℕ) : RuntimeFunction :=
  let first := lastLE (offsetOf inh) index 0 (inh.length - 1)
  .inherited (ushort first) (ushort (ushort index + 65536 - offsetOf inh first))

/-- `find_func_entry`; `none` is a read outside the arrays -/
def findFuncEntry (inh : List InheritRecord) (c : Compressed) (index : ℕ) : Option RuntimeFunction :=
  let nOv := c.firstDefined - c.numCompressed
  if index < c.firstOverload ∨ nOv ≤ index - c.firstOverload then some (remade inh index)
  else
    match c.index[index - c.firstOverload]? with
    | none => none
    | some fidx => if fidx = 255 then some (remade inh index) else c.functionOffsets[fidx]?

/-- `FIND_FUNC_ENTRY` -/
def lookup (inh : List InheritRecord) (c : Compressed) (index : ℕ) : Option RuntimeFunction :=
  if index < c.firstDefined then findFuncEntry inh c index
  else if index < c.numDeleted then none
  else c.functionOffsets[index - c.numDeleted]?

/-! ## The three loops -/

section Loops

variable (p : ℕ → Bool)

/-- the loop for `f_def` stops behind the last index in place -/
theorem firstDefined_spec (n : ℕ) : firstDefined p n ≤ n ∧ (∀ i, firstDefined p n ≤ i → i < n → p i = false) ∧
      (0 < firstDefined p n → p (firstDefined p n - 1) = true) := by
  induction n with
  | zero => exact ⟨le_refl 0, fun i _ hi => absurd hi (Nat.not_lt_zero i), fun h => absurd h (lt_irrefl 0)⟩
  | succ n ih =>
    rw [firstDefined]
    split
    case isTrue hp => exact ⟨le_refl _, fun i hi hi' => absurd hi' (not_lt.2 hi), fun _ => hp⟩
    case isFalse hp =>
      refine ⟨le_trans ih.1 (Nat.le_succ n), fun i hi hi' => ?_, ih.2.2⟩
      rcases Nat.lt_succ_iff_lt_or_eq.1 hi' with hlt | rfl
      · exact ih.2.1 i hi hlt
      · exact not_eq_true _ ▸ hp

/-- the indices the loop for `f_ov` passes are in place -/
theorem firstOverload_spec (k i : ℕ) :
    i ≤ firstOverload p k i ∧ firstOverload p k i ≤ i + k ∧ ∀ x, i ≤ x → x < firstOverload p k i → p x = true := by
  induction k generalizing i with
  | zero => exact ⟨le_refl i, le_refl i, fun x hx hx' => absurd hx (not_le.2 hx')⟩
  | succ k ih =>
    rw [firstOverload]
    split
    case isTrue hp =>
      obtain ⟨hlo, hhi, hall⟩ := ih (i + 1)
      refine ⟨by omega, by omega, fun x hx hx' => ?_⟩
      rcases Nat.eq_or_lt_of_le hx with rfl | hlt
      · exact hp
      · exact hall x hlt hx'
    case isFalse => exact ⟨le_refl i, by omega, fun x hx hx' => absurd hx (not_le.2 hx')⟩

/-- the indices the loop for `l_ov` passes are in place -/
theorem lastOverload_spec (fOv e : ℕ) :
    lastOverload p fOv e ≤ e ∧ ∀ x, lastOverload p fOv e ≤ x → x < e → p x = true := by
  induction e with
  | zero => exact ⟨le_refl 0, fun x _ hx => absurd hx (Nat.not_lt_zero x)⟩
  | succ e ih =>
    rw [lastOverload]
    split
    case isTrue hc =>
      refine ⟨le_trans ih.1 (Nat.le_succ e), fun x hx hx' => ?_⟩
      rcases Nat.lt_succ_iff_lt_or_eq.1 hx' with hlt | rfl
      · exact ih.2 x hx hlt
      · exact (and_eq_true_iff.1 hc).2
    case isFalse => exact ⟨le_refl _, fun x hx hx' => absurd hx (not_le.2 hx')⟩

end Loops

/-- the window `fOv … fOv + nOv - 1` holds every entry out of place before the last one in place -/
structure Window (p : ℕ → Bool) (n fDef fOv nOv : ℕ) : Prop where
  fDef_le : fDef ≤ n
  after : ∀ i, fDef ≤ i → i < n → p i = false
  last : 0 < fDef → p (fDef - 1) = true
  inside : fOv + nOv ≤ fDef
  before : ∀ i, i < fOv → p i = true
  behind : ∀ i, fOv + nOv ≤ i → i < fDef → p i = true

/-- the loops of the compression find the window -/
theorem window_loops (p : ℕ → Bool) (n : ℕ) : Window p n (firstDefined p n) (firstOverload p (firstDefined p n) 0)
      (lastOverload p (firstOverload p (firstDefined p n) 0) (firstDefined p n) -
        firstOverload p (firstDefined p n) 0) := by
  obtain ⟨hdef, hafter, hlast⟩ := firstDefined_spec p n
  obtain ⟨_, hov, hbefore⟩ := firstOverload_spec p (firstDefined p n) 0
  obtain ⟨hle, hbehind⟩ := lastOverload_spec p (firstOverload p (firstDefined p n) 0) (firstDefined p n)
  exact ⟨hdef, hafter, hlast, by omega, fun i => hbefore i (Nat.zero_le i), fun i hi => hbehind i (by omega)⟩

/-- the flags of the entries of the window -/
def flagsOfWindow (p : ℕ → Bool) (fOv nOv : ℕ) : List Bool := (range nOv).map fun i => p (fOv + i)

variable {n : ℕ}

theorem countP_range_eq_zero {q : ℕ → Bool} (h : ∀ i, i < n → q i = false) : (range n).countP q = 0 := by
  rw [countP_eq_zero]
  intro i hi
  rw [h i (mem_range.1 hi)]
  exact false_ne_true

variable {fOv nOv fDef : ℕ} {t : Table} {w : List Bool} {j k i nDef : ℕ} {num : Numbering} {p : ℕ → Bool}

/-- the entries out of place before the last one in place are those of the window -/
theorem Window.overridden_eq (h : Window (inPlace t) t.entries.length fDef fOv nOv) :
    overridden t = (flagsOfWindow (inPlace t) fOv nOv).count false := by
  obtain ⟨k, hk⟩ := Nat.exists_eq_add_of_le h.inside
  obtain ⟨m, hm⟩ := Nat.exists_eq_add_of_le h.fDef_le
  set q : ℕ → Bool := fun i => !inPlace t i && (range t.entries.length).any fun k => i < k && inPlace t k with hq
  have hsplit : range t.entries.length =
      range fOv ++ (range nOv).map (fOv + ·) ++ (range k).map (fOv + nOv + ·) ++ (range m).map (fDef + ·) := by
    rw [hm, range_add, hk, range_add, range_add]
  have hin : ∀ i, inPlace t i = true → q i = false := fun i hi => by simp [hq, hi]
  have hbefore : (range fOv).countP q = 0 := countP_range_eq_zero fun i hi => hin i (h.before i hi)
  have hbehind : ((range k).map (fOv + nOv + ·)).countP q = 0 := by
    rw [countP_map]
    exact countP_range_eq_zero fun i hi => hin _ (h.behind (fOv + nOv + i) (by omega) (by omega))
  have hafter : ((range m).map (fDef + ·)).countP q = 0 := by
    rw [countP_map]
    refine countP_range_eq_zero fun i _ => Bool.and_eq_false_iff.2 (.inr (any_eq_false.2 fun x hx => ?_))
    by_cases hlt : fDef + i < x
    · simp [h.after x (by omega) (mem_range.1 hx)]
    · simp [hlt]
  have hwindow : ((range nOv).map (fOv + ·)).countP q = (flagsOfWindow (inPlace t) fOv nOv).count false := by
    rw [flagsOfWindow, List.count, countP_map, countP_map]
    refine countP_congr fun i hi => ?_
    cases hp : inPlace t (fOv + i) with
    | true => simp [hin _ hp, hp]
    | false =>
      -- the last entry in place stands behind
      have hi' := mem_range.1 hi
      have hlast := h.last (by omega)
      have hne : fOv + i ≠ fDef - 1 := fun he => absurd (hp.symm.trans (he ▸ hlast)) Bool.false_ne_true
      have hany : ((range t.entries.length).any fun k => fOv + i < k && inPlace t k) = true :=
        any_eq_true.2 ⟨fDef - 1, mem_range.2 (by omega), by simp [hlast]; omega⟩
      simp [hq, hp, hany]
  calc overridden t = (range t.entries.length).countP q := by rw [overridden, ← countP_eq_length_filter]
    _ = (flagsOfWindow (inPlace t) fOv nOv).count false := by
      rw [hsplit, countP_append, countP_append, countP_append]
      omega

/-! ## The numbering -/

/-- the numbers of the entries out of place, counted from `j` -/
def ranks : List Bool → ℕ → List ℕ
  | [], _ => []
  | true :: w, j => 255 :: ranks w j
  | false :: w, j => j :: ranks w (j + 1)

/-- with few entries out of place the numbers do not run out -/
theorem number_of_le (w : List Bool) (i j : ℕ) (h : j + w.count false ≤ 255) :
    number w i j = ⟨ranks w j, j + w.count false, none⟩ := by
  induction w generalizing i j with
  | nil => rfl
  | cons b w ih =>
    cases b with
    | true =>
      rw [number, ih (i + 1) j h]
      rfl
    | false =>
      have hcount : (false :: w).count false = w.count false + 1 := by simp
      rw [hcount] at h ⊢
      rw [number, if_neg (by omega), ih (i + 1) (j + 1) (by omega), ranks, Nat.add_assoc, Nat.add_comm 1]

/-- with 256 or more the numbering stops behind the 255th -/
theorem number_of_gt (w : List Bool) (i j : ℕ) (hj : j ≤ 255) (h : 255 < j + w.count false) :
    ∃ k, k < w.length ∧ 255 ≤ j + k ∧ (number w i j).j = 255 ∧ (number w i j).stop = some (i + k) := by
  induction w generalizing i j with
  | nil => exact absurd h (by simpa using hj)
  | cons b w ih =>
    cases b with
    | true =>
      obtain ⟨k, hk, hjk, hnum, hstop⟩ := ih (i + 1) j hj h
      refine ⟨k + 1, Nat.succ_lt_succ hk, by omega, hnum, ?_⟩
      rw [number, hstop]
      congr 1
      omega
    | false =>
      have hcount : (false :: w).count false = w.count false + 1 := by simp
      by_cases hfull : j + 1 = 256
      · refine ⟨0, Nat.zero_lt_succ _, by omega, ?_, ?_⟩
        · rw [number, if_pos hfull]
        · rw [number, if_pos hfull]
          rfl
      · obtain ⟨k, hk, hjk, hnum, hstop⟩ := ih (i + 1) (j + 1) (by omega) (by omega)
        refine ⟨k + 1, Nat.succ_lt_succ hk, by omega, ?_, ?_⟩
        · rw [number, if_neg hfull, hnum]
        · rw [number, if_neg hfull, hstop]
          congr 1
          omega

theorem getElem?_ranks_of_inPlace (h : w[k]? = some true) : (ranks w j)[k]? = some 255 := by
  induction w generalizing j k with
  | nil => cases h
  | cons b w ih =>
    cases k with
    | zero =>
      obtain rfl : b = true := by simpa using h
      rfl
    | succ k => cases b <;> exact ih (by simpa using h)

/-- an entry out of place has a number in the range of the count, and no other entry has it -/
theorem getElem?_ranks_of_not (h : w[k]? = some false) : ∃ r, (ranks w j)[k]? = some r ∧ j ≤ r ∧ r < j + w.count false ∧
      ∀ k', w[k']? = some false → (ranks w j)[k']? = some r → k' = k := by
  induction w generalizing j k with
  | nil => cases h
  | cons b w ih =>
    cases b with
    | true =>
      cases k with
      | zero => cases h
      | succ k =>
        obtain ⟨r, hr, hlo, hhi, huniq⟩ := ih (by simpa using h)
        refine ⟨r, hr, hlo, hhi, fun k' hk' hr' => ?_⟩
        cases k' with
        | zero => cases hk'
        | succ k' => rw [huniq k' (by simpa using hk') hr']
    | false =>
      have hcount : (false :: w).count false = w.count false + 1 := by simp
      cases k with
      | zero =>
        refine ⟨j, rfl, le_refl j, by omega, fun k' hk' hr' => ?_⟩
        cases k' with
        | zero => rfl
        | succ k' =>
          -- a later number is larger
          obtain ⟨r, hr, hlo, _, _⟩ := ih (by simpa using hk')
          have hjr : some r = some j := hr.symm.trans hr'
          exact absurd (some.inj hjr) (by omega)
      | succ k =>
        obtain ⟨r, hr, hlo, hhi, huniq⟩ := ih (by simpa using h)
        refine ⟨r, hr, by omega, by omega, fun k' hk' hr' => ?_⟩
        cases k' with
        | zero =>
          have hjr : some j = some r := hr'
          exact absurd (some.inj hjr) (by omega)
        | succ k' => rw [huniq k' (by simpa using hk') hr']

/-! ## The copied block -/

section WriteAll

variable {α : Type} {pos : ℕ → Option ℕ} {val : ℕ → α} {p : List α} {n i k : ℕ}

theorem writeAll_succ (pos : ℕ → Option ℕ) (val : ℕ → α) (n : ℕ) (p : List α) : writeAll pos val (n + 1) p =
      match pos n with
      | some k => (writeAll pos val n p).set k (val n)
      | none => writeAll pos val n p := by
  rw [writeAll, range_succ, foldl_append]
  rfl

@[simp] theorem length_writeAll : (writeAll pos val n p).length = p.length := by
  induction n with
  | zero => rfl
  | succ n ih =>
    rw [writeAll_succ]
    split
    · rw [length_set, ih]
    · exact ih

theorem getElem?_writeAll_of_ne (h : ∀ x, x < n → pos x ≠ some k) : (writeAll pos val n p)[k]? = p[k]? := by
  induction n with
  | zero => rfl
  | succ n ih =>
    have hrest := ih fun x hx => h x (Nat.lt_succ_of_lt hx)
    rw [writeAll_succ]
    split
    case h_1 k' hk' =>
      have hne : k' ≠ k := fun he => h n (Nat.lt_succ_self n) (he ▸ hk')
      rw [getElem?_set_ne hne, hrest]
    case h_2 => exact hrest

/-- a position written in one round only holds that round's value -/
theorem getElem?_writeAll_of_eq (hi : i < n) (hk : pos i = some k) (hlen : k < p.length)
    (huniq : ∀ x, x < n → pos x = some k → x = i) : (writeAll pos val n p)[k]? = some (val i) := by
  induction n with
  | zero => exact absurd hi (Nat.not_lt_zero i)
  | succ n ih =>
    rw [writeAll_succ]
    rcases Nat.lt_succ_iff_lt_or_eq.1 hi with hlt | rfl
    · have hrest := ih hlt fun x hx => huniq x (Nat.lt_succ_of_lt hx)
      split
      case h_1 k' hk' =>
        have hne : k' ≠ k := fun he => absurd (huniq n (Nat.lt_succ_self n) (he ▸ hk')) (by omega)
        rw [getElem?_set_ne hne, hrest]
      case h_2 => exact hrest
    · rw [hk]
      rw [getElem?_set_self (by rw [length_writeAll]; exact hlen)]

end WriteAll

/-! ## The lookup is right -/

theorem rentry_of_getElem? {e : Entry} (h : t.entries[i]? = some e) : rentry t i = e.rentry := by
  simp [rentry, h]

theorem offsetOf_of_getElem? {inh : List InheritRecord} {record : InheritRecord} (h : inh[n]? = some record) :
    offsetOf inh n = record.functionIndexOffset := by
  simp [offsetOf, h]

/-- an entry in place is made again as it was -/
theorem remade_of_inPlace (hok : Ok t.inherits t.entries) (hfits : Fits t.inherits t.entries)
    (h : inPlace t i = true) : remade t.inherits i = rentry t i := by
  cases he : t.entries[i]? with
  | none => simp [inPlace, he] at h
  | some e =>
    simp only [inPlace, he, and_eq_true, beq_iff_eq] at h
    have hflag : e.flags.any (nameInherited ||| nameDefByInherit) = true := by
      rw [FunctionFlags.any_or_right, h.1, Bool.true_or]
    obtain ⟨o, index, record, hr, ho, hindex⟩ := hok.entries e (mem_of_getElem? he) hflag
    have hoff := offsetOf_of_getElem? ho
    have hi : record.functionIndexOffset + index = i := by
      rw [← hoff, ← h.2, hr]
      rfl
    have hol : o < t.inherits.length := (List.getElem?_eq_some_iff.1 ho).1
    have hrecord : t.inherits[o] = record := (List.getElem?_eq_some_iff.1 ho).2
    have hil : i < t.entries.length := (List.getElem?_eq_some_iff.1 he).1
    -- the program the entry points at is the last one copied to `i` or before
    have hfirst : lastLE (offsetOf t.inherits) i 0 (t.inherits.length - 1) = o := by
      refine lastLE_spec _ _ _ _ _ (Nat.zero_le o) (by omega) ?_ ?_
      · intro k _ hk
        rcases Nat.lt_or_eq_of_le hk with hlt | rfl
        · have hkl : k < t.inherits.length := by omega
          have hpair := pairwise_iff_getElem.1 hok.layout k o hkl hol hlt
          rw [offsetOf_of_getElem? (getElem?_eq_getElem hkl)]
          rw [hrecord] at hpair
          omega
        · omega
      · intro k hk hkl
        have hkl' : k < t.inherits.length := by omega
        have hpair := pairwise_iff_getElem.1 hok.layout o k hol hkl' hk
        rw [offsetOf_of_getElem? (getElem?_eq_getElem hkl')]
        rw [hrecord] at hpair
        omega
    have hfitsE := hfits.1
    have hfitsI := hfits.2
    rw [rentry_of_getElem? he, hr, remade, hfirst, hoff, ushort_of_lt (by omega : o < 65536),
      ushort_of_lt (by omega : i < 65536)]
    congr 1
    unfold ushort
    omega

/-- the compressed table when the numbers do not run out, with the bytes `bytes` and the count `j` -/
structure Numbered (t : Table) (fDef fOv nOv j : ℕ) (bytes : List ℕ) (c : Compressed) : Prop where
  firstDefined : c.firstDefined = fDef
  firstOverload : c.firstOverload = fOv
  numCompressed : c.numCompressed = fDef - nOv
  numDeleted : c.numDeleted = fDef - j
  index : c.index = bytes
  /-- an entry of the window is kept under its number -/
  kept : ∀ i r, i < nOv → bytes[i]? = some r → r < j → (∀ k, k < nOv → bytes[k]? = some r → k = i) →
    c.functionOffsets[r]? = some (rentry t (fOv + i))
  /-- the entries behind the last one in place are kept in order -/
  own : ∀ i, i < t.entries.length - fDef → c.functionOffsets[i + j]? = some (rentry t (fDef + i))

/-- the two copying loops fill the block -/
theorem copiedBlock_kept (hj : num.j ≤ 255) {r : ℕ} (hi : i < nOv) (hr : num.index[i]? = some r) (hrj : r < num.j)
    (huniq : ∀ k, k < nOv → num.index[k]? = some r → k = i) :
    (copiedBlock t fOv nOv fDef nDef num)[r]? = some (rentry t (fOv + i)) := by
  have hpos : ∀ k, bytePosition num.index k = some r → num.index[k]? = some r := by
    intro k hk
    unfold bytePosition at hk
    split at hk
    · cases hk
    · cases hx : num.index[k]? with
      | none | some x => simp_all
  have hposi : bytePosition num.index i = some r := by
    simp only [bytePosition, getD_eq_getElem?_getD, hr, getD_some]
    rw [if_neg (by omega)]
  rw [copiedBlock, getElem?_writeAll_of_ne fun x _ hx => absurd (some.inj hx) (by omega)]
  exact getElem?_writeAll_of_eq hi hposi (by rw [length_replicate]; omega) fun x hx hx' => huniq x hx (hpos x hx')

theorem copiedBlock_own (num : Numbering) (hi : i < nDef) :
    (copiedBlock t fOv nOv fDef nDef num)[i + num.j]? = some (rentry t (fDef + i)) := by
  rw [copiedBlock]
  refine getElem?_writeAll_of_eq hi rfl (by rw [length_writeAll, length_replicate]; omega) ?_
  intro x _ hx
  have := some.inj hx
  omega

theorem getElem?_flagsOfWindow (hi : i < nOv) : (flagsOfWindow p fOv nOv)[i]? = some (p (fOv + i)) := by
  simp [flagsOfWindow, hi]

theorem length_flagsOfWindow : (flagsOfWindow p fOv nOv).length = nOv := by
  simp [flagsOfWindow]

/-- with few entries out of place the compression numbers them all -/
theorem numbered_compress (hfits : Fits t.inherits t.entries)
    (hDef : firstDefined (inPlace t) t.entries.length = fDef) (hOv : firstOverload (inPlace t) fDef 0 = fOv)
    (hnOv : lastOverload (inPlace t) fOv fDef - fOv = nOv) (hw : Window (inPlace t) t.entries.length fDef fOv nOv)
    (hfew : (flagsOfWindow (inPlace t) fOv nOv).count false ≤ 255) :
    Numbered t fDef fOv nOv ((flagsOfWindow (inPlace t) fOv nOv).count false)
      (ranks (flagsOfWindow (inPlace t) fOv nOv) 0) (compress t) := by
  set w := flagsOfWindow (inPlace t) fOv nOv
  have hnum : number w 0 0 = ⟨ranks w 0, w.count false, none⟩ := by
    rw [number_of_le w 0 0 (by omega), Nat.zero_add]
  have hcount : w.count false ≤ nOv := count_le_length.trans length_flagsOfWindow.le
  have hlen := hfits.1
  have hle := hw.fDef_le
  have hin := hw.inside
  have huf : ushort fDef = fDef := ushort_of_lt (by omega)
  have hcompress : compress t =
      { firstDefined := ushort fDef, firstOverload := ushort fOv, numCompressed := ushort (fDef - nOv),
        numDeleted := ushort (ushort fDef + 65536 - w.count false), index := ranks w 0,
        functionOffsets :=
          if w.count false + (t.entries.length - fDef) = 0 then []
          else if fDef ≠ 0 then
            copiedBlock t fOv nOv fDef (t.entries.length - fDef) ⟨ranks w 0, w.count false, none⟩
          else t.entries.map (·.rentry) } := by
    simp only [compress, hDef, hOv, hnOv]
    rw [← flagsOfWindow, hnum]
  rw [hcompress]
  refine ⟨huf, ushort_of_lt (by omega), ushort_of_lt (by omega), ?_, rfl, ?_, ?_⟩
  · simp only [huf]
    unfold ushort
    omega
  · intro i r hi hr hrj huniq
    rw [if_neg (by omega), if_pos (by omega)]
    exact copiedBlock_kept hfew hi hr hrj huniq
  · intro i hi
    simp only []
    rw [if_neg (by omega)]
    by_cases hzero : fDef = 0
    · have hj : w.count false = 0 := by omega
      have hil : i < t.entries.length := by omega
      rw [if_neg (not_not.2 hzero), hj, hzero, Nat.add_zero, Nat.zero_add, getElem?_map,
        getElem?_eq_getElem hil, rentry_of_getElem? (getElem?_eq_getElem hil)]
      rfl
    · rw [if_pos hzero]
      exact copiedBlock_own ⟨ranks w 0, w.count false, none⟩ hi

/-- in a numbered table every lookup gives the entry of the uncompressed table -/
theorem lookup_of_numbered (hok : Ok t.inherits t.entries) (hfits : Fits t.inherits t.entries)
    (hw : Window (inPlace t) t.entries.length fDef fOv nOv) (hfew : (flagsOfWindow (inPlace t) fOv nOv).count false ≤ 255) {c : Compressed}
    (hc : Numbered t fDef fOv nOv ((flagsOfWindow (inPlace t) fOv nOv).count false)
      (ranks (flagsOfWindow (inPlace t) fOv nOv) 0) c) (hi : i < t.entries.length) :
    lookup t.inherits c i = some (rentry t i) := by
  set w := flagsOfWindow (inPlace t) fOv nOv with hwdef
  have hcount : w.count false ≤ nOv := count_le_length.trans length_flagsOfWindow.le
  have hin := hw.inside
  rw [lookup, hc.firstDefined]
  by_cases hdef : i < fDef
  · rw [if_pos hdef, findFuncEntry, hc.firstDefined, hc.numCompressed, hc.firstOverload, hc.index]
    have hn : fDef - (fDef - nOv) = nOv := by omega
    rw [hn]
    by_cases hout : i < fOv ∨ nOv ≤ i - fOv
    · -- outside the window every entry is in place
      have hp : inPlace t i = true := by
        rcases hout with hlt | hge
        · exact hw.before i hlt
        · by_cases hlt : i < fOv
          · exact hw.before i hlt
          · exact hw.behind i (by omega) hdef
      rw [if_pos hout, remade_of_inPlace hok hfits hp]
    · rw [if_neg hout]
      have hk : i - fOv < nOv := by omega
      have hik : fOv + (i - fOv) = i := by omega
      have hflag : w[i - fOv]? = some (inPlace t i) := by
        rw [hwdef, getElem?_flagsOfWindow hk, hik]
      cases hp : inPlace t i with
      | true =>
        rw [hp] at hflag
        rw [getElem?_ranks_of_inPlace hflag]
        simp only [if_true]
        rw [remade_of_inPlace hok hfits hp]
      | false =>
        rw [hp] at hflag
        obtain ⟨r, hr, _, hrj, huniq⟩ := getElem?_ranks_of_not hflag
        rw [hr]
        simp only []
        rw [if_neg (by omega)]
        have hrentry := hc.kept (i - fOv) r hk hr (by omega) ?_
        · rwa [hik] at hrentry
        · intro k hkn hkr
          refine huniq k ?_ hkr
          rw [getElem?_flagsOfWindow hkn]
          cases hpk : inPlace t (fOv + k) with
          | false => rfl
          | true =>
            have h255 := getElem?_ranks_of_inPlace (w := w) (j := 0) (by
              rw [hwdef, getElem?_flagsOfWindow hkn, hpk])
            exact absurd (some.inj (h255.symm.trans hkr)) (by omega)
  · rw [if_neg hdef, hc.numDeleted, if_neg (by omega)]
    have hown := hc.own (i - fDef) (by omega)
    have hpos : i - fDef + w.count false = i - (fDef - w.count false) := by omega
    have hidx : fDef + (i - fDef) = i := by omega
    rwa [hpos, hidx] at hown

/-- when the numbers run out the last entry of the table is not copied -/
theorem lookup_last_of_many (hfits : Fits t.inherits t.entries)
    (hDef : firstDefined (inPlace t) t.entries.length = fDef) (hOv : firstOverload (inPlace t) fDef 0 = fOv)
    (hnOv : lastOverload (inPlace t) fOv fDef - fOv = nOv) (hw : Window (inPlace t) t.entries.length fDef fOv nOv)
    (hmany : 255 < (flagsOfWindow (inPlace t) fOv nOv).count false) :
    lookup t.inherits (compress t) (t.entries.length - 1) = none := by
  obtain ⟨k, hk, hk255, hj, hstop⟩ := number_of_gt (flagsOfWindow (inPlace t) fOv nOv) 0 0 (by omega) (by omega)
  rw [length_flagsOfWindow] at hk
  rw [Nat.zero_add] at hk255 hstop
  have hlen := hfits.1
  have hle := hw.fDef_le
  have hin := hw.inside
  have hfirst : (compress t).firstDefined = fOv + k := by
    simp only [compress, hDef, hOv, hnOv]
    rw [← flagsOfWindow, hstop]
    exact ushort_of_lt (show fOv + k < 65536 by omega)
  have hdeleted : (compress t).numDeleted = fOv + k - 255 := by
    simp only [compress, hDef, hOv, hnOv]
    rw [← flagsOfWindow, hstop, ushort_of_lt (by omega : fOv + k < 65536)]
    unfold ushort
    omega
  have hblock : (compress t).functionOffsets.length = 255 + (t.entries.length - fDef) := by
    simp only [compress, hDef, hOv, hnOv]
    rw [← flagsOfWindow, hstop, if_neg (by omega), if_pos (show fOv + k ≠ 0 by omega), copiedBlock,
      length_writeAll, length_writeAll, length_replicate, hj]
  have hbehind : ¬ t.entries.length - 1 < fOv + k := by omega
  have hkept : ¬ t.entries.length - 1 < fOv + k - 255 := by omega
  rw [lookup, hfirst, hdeleted, if_neg hbehind, if_neg hkept]
  exact getElem?_eq_none (by omega)

/-- **Compressed function tables.** For every source file whose function indices fit `function_index_t`, the lookup in the
compressed table gives at every runtime index the entry of the uncompressed one exactly when fewer than 256 entries before
the last one in place are out of place. -/
theorem compress_correct_iff (steps : List Step) (hfits : Fits (compile steps).inherits (compile steps).entries) :
    (∀ i < (compile steps).entries.length,
      lookup (compile steps).inherits (compress (compile steps)) i = (compile steps).entries[i]?.map (·.rentry)) ↔
      overridden (compile steps) < 256 := by
  have hok := compile_ok steps hfits
  generalize compile steps = t at hok hfits ⊢
  have hw := window_loops (inPlace t) t.entries.length
  have hcount := hw.overridden_eq
  have hentry : ∀ i, i < t.entries.length → t.entries[i]?.map (·.rentry) = some (rentry t i) := by
    intro i hi
    rw [rentry_of_getElem? (getElem?_eq_getElem hi), getElem?_eq_getElem hi]
    rfl
  constructor
  · intro h
    by_contra hmany
    have hnone := lookup_last_of_many hfits rfl rfl rfl hw (by omega)
    have hpos : 0 < t.entries.length := by
      by_contra hzero
      have hnil : overridden t = 0 := by simp [overridden, Nat.eq_zero_of_not_pos hzero]
      omega
    have hlast := h (t.entries.length - 1) (by omega)
    rw [hnone, hentry _ (by omega)] at hlast
    cases hlast
  · intro hfew i hi
    rw [hentry i hi]
    exact lookup_of_numbered hok hfits hw (by omega) (numbered_compress hfits rfl rfl rfl hw (by omega)) hi

/-! ## A program that redefines many inherited functions -/

/-- a library of `n` functions -/
def library (n : ℕ) : List InheritedFunction := (range n).map fun i => ⟨i, 0⟩

/-- a definition without arguments -/
def plainHead (name : ℕ) : FunctionHead := ⟨name, 0, 0, false, false, false, 0⟩

/-- inherits `n` functions and redefines the first `m` of them -/
def redefines (n m : ℕ) : List Step :=
  .inherit (library n) 0 :: (range m).map fun i => .define (plainHead i)

theorem redefines_small_correct : 4 < (compile (redefines 5 3)).entries.length ∧
    lookup (compile (redefines 5 3)).inherits (compress (compile (redefines 5 3))) 4 =
      (compile (redefines 5 3)).entries[4]?.map (·.rentry) :=
  have hlast : 4 < (compile (redefines 5 3)).entries.length := by decide +kernel
  ⟨hlast, (compress_correct_iff (redefines 5 3) ⟨by decide +kernel, by decide +kernel⟩).2 (by decide +kernel) 4 hlast⟩

section Redefines

/-- the entry of the library's function `i` -/
def copiedEntry (i : ℕ) : Entry := ⟨i, copiedFlags 0 0, .inherited 0 (ushort i), false, 1⟩

/-- the entry of function `i` once it is redefined -/
def redefinedEntry (i : ℕ) : Entry := (plainHead i).entry i 2

/-- the entries after `m` definitions -/
def entryAfter (m i : ℕ) : Entry := if i < m then redefinedEntry i else copiedEntry i

theorem name_entryAfter (m i : ℕ) : (entryAfter m i).name = i := by
  unfold entryAfter
  split <;> rfl

theorem not_alias_entryAfter (m i : ℕ) : (entryAfter m i).funflags.any nameAlias = false := by
  unfold entryAfter
  split
  · show (redefinedEntry 0).funflags.any nameAlias = false
    decide
  · show (copiedEntry 0).funflags.any nameAlias = false
    decide

theorem copyFunctions_library (b : Builder) (hb : b.currentInherit = 0) (k m : ℕ)
    (he : b.entries = (range k).map copiedEntry) :
    copyFunctions 0 b ((range' k m).map fun i => ⟨i, 0⟩) k = { b with entries := (range (k + m)).map copiedEntry } := by
  induction m generalizing b k with
  | zero =>
    rw [Nat.add_zero, ← he]
    rfl
  | succ m ih =>
    have hnone : b.entries.findIdx? (·.name == k) = none := by
      rw [he, findIdx?_eq_none_iff]
      intro e hmem
      obtain ⟨i, hi, rfl⟩ := mem_map.1 hmem
      exact beq_eq_false_iff_ne.2 (ne_of_lt (mem_range.1 hi))
    have hnew : b.lookupIdent k = -1 := by rw [Builder.lookupIdent, hnone]; rfl
    have hone : copyOne 0 b ⟨k, 0⟩ k = { b with entries := (range (k + 1)).map copiedEntry } := by
      rw [copyOne, hnew, range_succ, map_append, ← he]
      simp only [copyFunction, hb]
      rfl
    rw [range'_succ, map_cons, copyFunctions, hone,
      ih { b with entries := (range (k + 1)).map copiedEntry } hb (k + 1) rfl, Nat.add_right_comm, Nat.add_assoc]

theorem lookupIdent_entryAfter (m n : ℕ) (h : m < n) (hm : m < 32768) (b : Builder)
    (he : b.entries = (range n).map (entryAfter m)) : b.lookupIdent m = m := by
  have hfind : b.entries.findIdx? (·.name == m) = some m := by
    rw [he, findIdx?_eq_some_iff_getElem]
    refine ⟨by simpa using h, ?_, ?_⟩
    · rw [getElem_map, getElem_range, name_entryAfter, beq_self_eq_true]
    · intro j hj
      rw [getElem_map, getElem_range, name_entryAfter]
      simpa using ne_of_lt hj
  rw [Builder.lookupIdent, hfind, Option.elim_some]
  exact Int.bmod_eq_of_le_mul_two (by omega) (by omega)

theorem set_entryAfter (m n : ℕ) :
    ((range n).map (entryAfter m)).set m (redefinedEntry m) = (range n).map (entryAfter (m + 1)) := by
  apply ext_getElem
  · simp
  · intro i hi _
    rw [getElem_set, getElem_map, getElem_map, getElem_range]
    by_cases him : m = i
    · subst him
      rw [if_pos rfl, entryAfter, if_pos (Nat.lt_succ_self m)]
    · rw [if_neg him, entryAfter, entryAfter]
      by_cases hlt : i < m
      · rw [if_pos hlt, if_pos (Nat.lt_succ_of_lt hlt)]
      · rw [if_neg hlt, if_neg (by omega)]

/-- the parser's table after `m` definitions -/
theorem steps_redefines (n m : ℕ) (h : m ≤ n) (hm : m ≤ 32768) :
    (redefines n m).foldl step Builder.empty = ⟨(range n).map (entryAfter m), [⟨0, n⟩], m⟩ := by
  induction m with
  | zero =>
    have hlib := copyFunctions_library ⟨[], [⟨0, n⟩], 0⟩ rfl 0 n rfl
    rw [← range_eq_range', Nat.zero_add] at hlib
    have hzero : entryAfter 0 = copiedEntry := funext fun i => if_neg (Nat.not_lt_zero i)
    have hlen : (library n).length = n := by simp [library]
    rw [redefines, range_zero, map_nil, foldl_cons, foldl_nil, hzero]
    simp only [step, hlen]
    exact hlib
  | succ m ih =>
    have hprev := ih (by omega) (by omega)
    have hsplit : redefines n (m + 1) = redefines n m ++ [.define (plainHead m)] := by
      rw [redefines, range_succ, map_append]
      rfl
    have hget : ((range n).map (entryAfter m))[m]? = some (copiedEntry m) := by
      rw [getElem?_map, getElem?_range (by omega), map_some, entryAfter, if_neg (lt_irrefl m)]
    rw [hsplit, foldl_append, hprev, foldl_cons, foldl_nil, ← set_entryAfter m n]
    have hident : (⟨(range n).map (entryAfter m), [⟨0, n⟩], m⟩ : Builder).lookupIdent m = m :=
      lookupIdent_entryAfter m n h hm _ rfl
    have hundef : (copiedEntry m).flags.any nameUndefined = true := by
      show (copiedEntry 0).flags.any nameUndefined = true
      decide
    have hname : (plainHead m).name = m := rfl
    have hproto : (plainHead m).isPrototype = false := rfl
    have hown : (copiedEntry m).ownNumber = none := rfl
    simp only [step, defineNewFunction, hname, hident, if_neg (show ¬ (m : ℤ) = -1 by omega),
      if_neg (show ¬ (m : ℤ) < 0 by omega), Int.toNat_natCast, hget, hundef, hproto, hown]
    rfl

/-- without aliases `epilog` marks every entry on its own -/
theorem epilog_of_no_alias (es : List Entry) (h : ∀ e ∈ es, e.funflags.any nameAlias = false) (k : ℕ)
    (hk : k ≤ es.length) : (range k).foldl epilogEntry es = (es.take k).map Entry.marked ++ es.drop k := by
  induction k with
  | zero => rfl
  | succ k ih =>
    have hkl : k < es.length := hk
    have hlen : ((es.take k).map Entry.marked).length = k := by simp; omega
    have hget : ((es.take k).map Entry.marked ++ es.drop k)[k]? = some es[k] := by
      rw [getElem?_append_right (by omega), hlen, Nat.sub_self, getElem?_drop, Nat.add_zero, getElem?_eq_getElem hkl]
    rw [range_succ, foldl_append, ih (by omega), foldl_cons, foldl_nil, epilogEntry, hget]
    simp only [h _ (getElem_mem hkl)]
    rw [set_append_right _ _ (by omega), hlen, Nat.sub_self, drop_eq_getElem_cons hkl, set_cons_zero,
      take_succ_eq_append_getElem hkl, map_append, append_assoc]
    rfl

theorem compile_redefines (n m : ℕ) (h : m ≤ n) (hm : m ≤ 32768) :
    compile (redefines n m) = ⟨[⟨0, n⟩], (range n).map fun i => (entryAfter m i).marked⟩ := by
  have halias : ∀ e ∈ (range n).map (entryAfter m), e.funflags.any nameAlias = false := by
    intro e he
    obtain ⟨i, _, rfl⟩ := mem_map.1 he
    exact not_alias_entryAfter m i
  have hepilog := epilog_of_no_alias _ halias ((List.range n).map (entryAfter m)).length (le_refl _)
  simp only [List.take_length, List.drop_length, List.append_nil, List.map_map] at hepilog
  simp only [compile, steps_redefines n m h hm, hepilog]
  rfl

end Redefines

/-- A program that inherits 257 functions and redefines the first 256 loses the entry of the last one. -/
theorem many_overloads_lost :
    lookup (compile (redefines 257 256)).inherits (compress (compile (redefines 257 256))) 256 = none ∧
    (compile (redefines 257 256)).entries[256]?.map (·.rentry) = some (.inherited 0 256) := by
  rw [compile_redefines 257 256 (by decide) (by decide)]
  decide +kernel

end Lithos.Lpc.Program.FunctionCompress
