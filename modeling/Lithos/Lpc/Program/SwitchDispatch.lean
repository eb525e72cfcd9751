/-
Dispatch of integer switches: where the cases come out in order, `f_switch` finds the right one.

The argument goes from the run time back to the source. The code of a switch is read back field by field; its table is
then searched, or indexed if the labels are consecutive. The labels are in order when `case_compare` is right for every
pair of cases that the sort compares, although it cuts the difference of two labels to an `int`.

Results:
* `switch_dispatch`: for such labels the value goes to its label or to the default.
* `cut_label`: a label that does not fit an `int` is taken for another one.
-/
import Lithos.Lpc.Program.SwitchSearch

namespace Lithos.Lpc.Program.Switch

open Lithos.Core.Bytes Lithos.Core.QuickSort List Option Nat

/-! ## The code of a switch -/

/-- the code before the body, with the four fields that are filled in -/
def header (c : Code) (kind tab endTab default : ℕ) : List Byte :=
  c.before ++ [c.opSwitch] ++ store 1 kind ++ storeShort tab ++ storeShort endTab ++ storeShort default

@[simp]
theorem length_header (c : Code) (kind tab endTab default : ℕ) :
    (header c kind tab endTab default).length = c.before.length + 8 := by
  simp [header, storeShort]

section Header

variable (c : Code) (kind tab endTab default n : ℕ)

theorem patch_kind :
    patch (header c kind tab endTab default) (c.before.length + 1) 1 n = header c n tab endTab default := by
  have h := patch_between (c.before ++ [c.opSwitch]) (storeShort tab ++ storeShort endTab ++ storeShort default) 1
    kind n
  simpa [header, append_assoc] using h

theorem patch_tab :
    patch (header c kind tab endTab default) (c.before.length + 2) 2 n = header c kind n endTab default := by
  have h := patch_between (c.before ++ [c.opSwitch] ++ store 1 kind) (storeShort endTab ++ storeShort default) 2 tab n
  simpa [header, storeShort, append_assoc] using h

theorem patch_endTab :
    patch (header c kind tab endTab default) (c.before.length + 4) 2 n = header c kind tab n default := by
  have h := patch_between (c.before ++ [c.opSwitch] ++ store 1 kind ++ storeShort tab) (storeShort default) 2 endTab n
  simpa [header, storeShort, append_assoc] using h

theorem patch_default :
    patch (header c kind tab endTab default) (c.before.length + 6) 2 n = header c kind tab endTab n := by
  have h := patch_between (c.before ++ [c.opSwitch] ++ store 1 kind ++ storeShort tab ++ storeShort endTab) [] 2
    default n
  simpa [header, storeShort, append_assoc] using h

end Header

/-- where the body ends, and the default of a switch without one -/
def bodyEnd (c : Code) : ℕ := c.before.length + 8 + c.body.length

/-- where the table starts -/
def tableStart (c : Code) : ℕ := bodyEnd c + 3

/-- the header with its fields filled in -/
def filledHeader (c : Code) (p : Prepared) : List Byte :=
  header c (table p).1 (tableStart c) (tableStart c + (table p).2.length) (p.default?.getD (bodyEnd c))

variable {endTab default n : ℕ} (e : ℤ × ℕ)

theorem patch_header_append {c : Code} {kind tab pos w : ℕ} (rest : List Byte) (h : pos + w ≤ c.before.length + 8) :
    patch (header c kind tab endTab default ++ rest) pos w n =
      patch (header c kind tab endTab default) pos w n ++ rest :=
  patch_append_left rest (by rw [length_header]; exact h)

/-- **The code.** All fields filled in. -/
theorem generateSwitch_eq (c : Code) (p : Prepared) : generateSwitch c p = filledHeader c p ++
      (c.body ++ [c.opBranch] ++ storeShort ((table p).2.length + 2) ++ (table p).2) := by
  have hstart : c.before ++ [c.opSwitch, 0xff] ++ storeShort 0 ++ storeShort 0 ++ storeShort 0 ++ c.body =
      header c 0xff 0 0 0 ++ c.body := by
    simp [header, store]
  have hlen : ∀ kind tab endTab default, (header c kind tab endTab default ++ c.body).length = bodyEnd c := by
    intro kind tab endTab default
    rw [length_append, length_header, bodyEnd]
  have hbranch : ∀ kind tab endTab default n,
      patch (header c kind tab endTab default ++ (c.body ++ [c.opBranch] ++ storeShort 0 ++ (table p).2))
        (bodyEnd c + 1) 2 n = header c kind tab endTab default ++
          (c.body ++ [c.opBranch] ++ storeShort n ++ (table p).2) := by
    intro kind tab endTab default n
    have h := patch_between (header c kind tab endTab default ++ c.body ++ [c.opBranch]) (table p).2 2 0 n
    rw [length_append, hlen, length_singleton] at h
    simpa [storeShort, append_assoc] using h
  -- each field in turn, the code as a header and what follows it
  let rest (n : ℕ) : List Byte := c.body ++ [c.opBranch] ++ storeShort n ++ (table p).2
  have hrest : ∀ kind tab endTab default n, (header c kind tab endTab default ++ rest n).length =
      tableStart c + (table p).2.length := by
    intro kind tab endTab default n
    simp [rest, storeShort, tableStart, bodyEnd]
    omega
  unfold generateSwitch
  extract_lets addr code0 code1 lastBreak code2 code3 code4 code5 code6
  have h1 : code1 = header c 0xff 0 0 (p.default?.getD (bodyEnd c)) ++ c.body := by
    simp only [code1, code0, addr]
    rw [hstart, hlen, patch_header_append _ (by omega), patch_default]
  have hlast : lastBreak = bodyEnd c + 1 := by simp only [lastBreak, h1, hlen]
  have h4 : code4 = header c 0xff (tableStart c) 0 (p.default?.getD (bodyEnd c)) ++ rest 0 := by
    have hlen2 : (header c 0xff 0 0 (p.default?.getD (bodyEnd c)) ++
        (c.body ++ ([c.opBranch] ++ storeShort 0))).length = tableStart c := by simp [storeShort, tableStart, bodyEnd]; omega
    simp only [code4, code3, code2, addr, h1]
    rw [append_assoc, append_assoc, hlen2, patch_header_append _ (by omega), patch_tab]
    simp only [rest, append_assoc]
  have h5 : code5 = header c (table p).1 (tableStart c) 0 (p.default?.getD (bodyEnd c)) ++ rest 0 := by
    simp only [code5, addr, h4]
    rw [Nat.add_sub_assoc (by omega), patch_header_append _ (by omega), patch_kind]
  have h6 : code6 = header c (table p).1 (tableStart c) 0 (p.default?.getD (bodyEnd c)) ++
      rest ((table p).2.length + 2) := by
    have hdist : tableStart c + (table p).2.length - (bodyEnd c + 1) = (table p).2.length + 2 := by
      unfold tableStart; omega
    simp only [code6, h5, hlast, hrest]
    rw [hdist, hbranch]
  rw [h6, hrest, patch_header_append _ (by omega), patch_endTab, filledHeader]

/-! ## Reading the code -/

/-- a 64-bit number -/
def Int64 (k : ℤ) : Prop := -2 ^ 63 ≤ k ∧ k < 2 ^ 63

instance (k : ℤ) : Decidable (Int64 k) := inferInstanceAs (Decidable (_ ∧ _))

section Reading

variable (c : Code) (p : Prepared) (post : List Byte)

/-- the program around the table -/
theorem program_split : ∃ pre, pre.length = tableStart c ∧ generateSwitch c p ++ post = pre ++ (table p).2 ++ post := by
  refine ⟨filledHeader c p ++ (c.body ++ [c.opBranch] ++ storeShort ((table p).2.length + 2)), ?_, ?_⟩
  · simp [filledHeader, storeShort, tableStart, bodyEnd]
    omega
  · rw [generateSwitch_eq]
    simp only [append_assoc]

theorem length_generateSwitch : (generateSwitch c p).length = tableStart c + (table p).2.length := by
  obtain ⟨pre, hpre, heq⟩ := program_split c p []
  rw [append_nil, append_nil] at heq
  rw [heq, length_append, hpre]

theorem fetch_table {pos w : ℕ} (h : pos + w ≤ (table p).2.length) :
    fetch (generateSwitch c p ++ post) (tableStart c + pos) w = fetch (table p).2 pos w := by
  obtain ⟨pre, hpre, heq⟩ := program_split c p post
  rw [heq, ← hpre]
  exact fetch_append pre post h

variable (hsize : (generateSwitch c p).length < 2 ^ 16)
include hsize

theorem fetch_break : fetch (generateSwitch c p ++ post) (tableStart c - 2) 2 = some ((table p).2.length + 2) := by
  have hlen := length_generateSwitch c p
  have h := fetch_between (filledHeader c p ++ c.body ++ [c.opBranch]) ((table p).2 ++ post) 2 ((table p).2.length + 2)
  have hpos : (filledHeader c p ++ c.body ++ [c.opBranch]).length = tableStart c - 2 := by
    simp [filledHeader, tableStart, bodyEnd]
    omega
  have hmod : ((table p).2.length + 2) % 256 ^ 2 = (table p).2.length + 2 := by
    refine mod_eq_of_lt ?_
    unfold tableStart bodyEnd at hlen
    omega
  rw [hpos, hmod] at h
  rw [generateSwitch_eq]
  simpa [storeShort, append_assoc] using h

/-- the fields behind the opcode -/
theorem fetch_header : fetch (generateSwitch c p ++ post) (c.before.length + 1) 1 = some ((table p).1 % 256) ∧
    fetch (generateSwitch c p ++ post) (c.before.length + 2) 2 = some (tableStart c) ∧
    fetch (generateSwitch c p ++ post) (c.before.length + 4) 2 = some (tableStart c + (table p).2.length) ∧
    fetch (generateSwitch c p ++ post) (c.before.length + 6) 2 = some (p.default?.getD (bodyEnd c) % 2 ^ 16) := by
  have hlen := length_generateSwitch c p
  rw [generateSwitch_eq, filledHeader, header]
  generalize c.body ++ [c.opBranch] ++ storeShort ((table p).2.length + 2) ++ (table p).2 = rest
  generalize p.default?.getD (bodyEnd c) = default
  generalize hend : tableStart c + (table p).2.length = endTab at *
  have htab : tableStart c % 256 ^ 2 = tableStart c := mod_eq_of_lt (by omega)
  have hend' : endTab % 256 ^ 2 = endTab := mod_eq_of_lt (by omega)
  refine ⟨?_, ?_, ?_, ?_⟩
  · have h := fetch_between (c.before ++ [c.opSwitch]) (storeShort (tableStart c) ++ storeShort endTab ++
      storeShort default ++ rest ++ post) 1 (table p).1
    simpa [append_assoc] using h
  · have h := fetch_between (c.before ++ [c.opSwitch] ++ store 1 (table p).1) (storeShort endTab ++
      storeShort default ++ rest ++ post) 2 (tableStart c)
    rw [htab] at h
    simpa [storeShort, append_assoc] using h
  · have h := fetch_between (c.before ++ [c.opSwitch] ++ store 1 (table p).1 ++ storeShort (tableStart c))
      (storeShort default ++ rest ++ post) 2 endTab
    rw [hend'] at h
    simpa [storeShort, append_assoc] using h
  · have h := fetch_between (c.before ++ [c.opSwitch] ++ store 1 (table p).1 ++ storeShort (tableStart c) ++
      storeShort endTab) (rest ++ post) 2 default
    simpa [storeShort, append_assoc] using h

end Reading

/-! ## Searched tables -/

/-- bytes of the fields behind the opcode, or of the table -/
def Inside (c : Code) (p : Prepared) (pos w : ℕ) : Prop :=
  (c.before.length + 1 ≤ pos ∧ pos + w ≤ c.before.length + 8) ∨
    (tableStart c ≤ pos ∧ pos + w ≤ tableStart c + (table p).2.length)

instance (c : Code) (p : Prepared) (pos w : ℕ) : Decidable (Inside c p pos w) := inferInstanceAs (Decidable (_ ∨ _))

/-- a program in which these bytes can be read and are those of the switch -/
def Holds (c : Code) (p : Prepared) (post : List Byte) (read : Reader) : Prop :=
  ∀ pos w, Inside c p pos w → read pos w = fetch (generateSwitch c p ++ post) pos w

/-- the value that `f_switch` searches for as the number `s`: a string switch gets 0 or a string -/
def SwitchKind.value : SwitchKind → ℤ → Value
  | .strings, s => if s = 0 then .number 0 else .string (some s)
  | _, s => .number s

/-- what the parser knows of a label: 64-bit bounds, and an address behind the start of the body -/
@[mk_iff] structure Label.Ok (c : Code) (l : Label) : Prop where
  lo : Int64 l.lo
  last : Int64 l.last
  addr : c.before.length + 8 ≤ l.addr
  addr_le : l.addr ≤ bodyEnd c

instance (c : Code) (l : Label) : Decidable (l.Ok c) :=
  decidable_of_iff' _ (Label.ok_iff c l)

theorem length_storeEntry : (storeEntry e).length = caseSize := by
  rfl

theorem fetchPtr_storeEntry (h : Int64 e.1) : fetchPtr (fetch (storeEntry e)) 0 = some e.1 := by
  have hfetch := fetch_between [] (storeShort e.2) 8 (e.1 % 2 ^ 64).toNat
  have hvalue : (((e.1 % 2 ^ 64).toNat % 256 ^ 8 : ℕ) : ℤ).bmod (2 ^ 64) = e.1 := by
    refine bmod_value (w := 8) ?_ ?_
    · have := h.1
      norm_num at this ⊢
      omega
    · have := h.2
      norm_num at this ⊢
      omega
  rw [nil_append, length_nil] at hfetch
  rw [fetchPtr, storeEntry, storePtr, hfetch]
  exact congrArg some hvalue

theorem fetch_storeEntry (h : e.2 < 2 ^ 16) : fetch (storeEntry e) 8 2 = some e.2 := by
  have hfetch := fetch_between (storePtr e.1) [] 2 e.2
  have hmod : e.2 % 256 ^ 2 = e.2 := mod_eq_of_lt h
  rw [storePtr, length_store, append_nil, hmod] at hfetch
  exact hfetch

variable {c : Code} {p : Prepared} {post : List Byte}

/-- a table that fits has less than `2 ^ 13` entries -/
theorem log2_lt_of_small {n start : ℕ} (hpos : 0 < n) (hsmall : start + n * caseSize < 2 ^ 16) : log2 n < 13 := by
  rw [log2_lt hpos.ne']
  unfold caseSize at hsmall
  omega

theorem table_of_ne_direct (h : p.kind ≠ .direct) :
    table p = (kindByte p.kind (log2 (entries p.chain).length), (entries p.chain).flatMap storeEntry) := by
  unfold table
  split
  · next hkind _ => exact absurd hkind h
  · rfl

theorem length_flatMap_storeEntry (E : List (ℤ × ℕ)) : (E.flatMap storeEntry).length = E.length * caseSize := by
  simp only [length_flatMap, length_storeEntry, map_const', sum_replicate, smul_eq_mul]

theorem entry_ok (hok : ∀ l ∈ p.chain, l.Ok c) (hsize : (generateSwitch c p).length < 2 ^ 16) {j : ℕ} {e : ℤ × ℕ}
    (he : (entries p.chain)[j]? = some e) :
    Int64 e.1 ∧ e.2 ≠ 0 ∧ e.2 < 2 ^ 16 ∧ (e.2 ≤ 1 → ∃ e', (entries p.chain)[j + 1]? = some e') := by
  have hlen := length_generateSwitch c p
  have haddr : ∀ l ∈ p.chain, l.addr ≠ 0 ∧ l.addr < 2 ^ 16 ∧ 1 < l.addr := by
    intro l hl
    have h1 := (hok l hl).addr
    have h2 := (hok l hl).addr_le
    unfold tableStart at hlen
    omega
  cases entryOf_getElem? he with
  | number l hl hhi heq =>
    obtain ⟨h1, h2, h3⟩ := haddr l hl
    rw [heq]
    exact ⟨(hok l hl).lo, h1, h2, fun h => absurd h3 (by omega)⟩
  | lower l hl hi hhi heq hnext =>
    rw [heq]
    exact ⟨(hok l hl).lo, one_ne_zero, by norm_num, fun _ => ⟨_, hnext⟩⟩
  | upper l hl hi hhi heq _ _ =>
    obtain ⟨h1, h2, h3⟩ := haddr l hl
    have hlast := last_eq hhi
    rw [heq]
    exact ⟨hlast ▸ (hok l hl).last, h1, h2, fun h => absurd h3 (by omega)⟩

/-- `f_switch` finds the kind of a searched table -/
theorem fSwitch_kind {read : Reader} {kind : SwitchKind} {i pc offset endOff : ℕ} {s : ℤ} (hi : i < 13)
    (htab : read (pc + 1) 2 = some offset) (hend : read (pc + 3) 2 = some endOff)
    (htype : read pc 1 = some (kindByte kind i % 256)) :
    fSwitch read pc (kind.value s) = lookup read pc offset endOff i s := by
  rw [fSwitch, htab, bind_some, hend, bind_some, htype, bind_some]
  by_cases hstrings : kind = .strings
  · have hbyte : kindByte kind i % 256 / 16 = i := by
      rw [kindByte, if_pos hstrings]
      omega
    rw [hbyte, if_pos (by omega), hstrings, SwitchKind.value]
    by_cases hs : s = 0
    · rw [if_pos hs, hs]
      rfl
    · rw [if_neg hs]
  · have hbyte : kindByte kind i % 256 = 0xf0 + i := by
      rw [kindByte, if_neg hstrings]
      omega
    have hmod : (0xf0 + i) % 16 = i := by omega
    have hvalue : kind.value s = .number s := by
      cases kind with
      | strings => exact absurd rfl hstrings
      | numbers | ranges | direct => rfl
    rw [hbyte, if_neg (by omega), hmod, hvalue]

section Table

variable (hkind : p.kind ≠ .direct) (hne : p.chain ≠ []) (hok : ∀ l ∈ p.chain, l.Ok c)
  (hsize : (generateSwitch c p).length < 2 ^ 16) {read : Reader} (hread : Holds c p post read)
include hkind hok hsize hread

/-- the entries as `f_switch` reads them -/
theorem tableAt_entries : TableAt read (tableStart c) (entries p.chain) := by
  have htable : (table p).2 = (entries p.chain).flatMap storeEntry := by rw [table_of_ne_direct hkind]
  have hlen : (table p).2.length = (entries p.chain).length * caseSize := by rw [htable, length_flatMap_storeEntry]
  have hentry : ∀ {j e}, (entries p.chain)[j]? = some e → ∀ {pos w}, pos + w ≤ caseSize →
      read (tableStart c + (j * caseSize + pos)) w = fetch (storeEntry e) pos w := by
    intro j e he pos w hpos
    have hj : j < (entries p.chain).length := (List.getElem?_eq_some_iff.1 he).1
    have hin : j * caseSize + pos + w ≤ (table p).2.length := by
      rw [hlen]
      unfold caseSize at *
      omega
    rw [hread _ _ (.inr ⟨by omega, by omega⟩), fetch_table c p post hin, htable,
      fetch_flatMap length_storeEntry he hpos]
  exact {
    key := by
      intro j e he
      rw [fetchPtr, ← add_zero (tableStart c + j * caseSize), add_assoc, hentry he (by decide)]
      exact fetchPtr_storeEntry e (entry_ok hok hsize he).1
    addr := by
      intro j e he
      rw [add_assoc, hentry he (by decide)]
      exact fetch_storeEntry e (entry_ok hok hsize he).2.2.1
    nonzero := by
      intro e he
      obtain ⟨j, hj⟩ := mem_iff_getElem?.1 he
      exact (entry_ok hok hsize hj).2.1
    marked := fun j e he => (entry_ok hok hsize he).2.2.2 }

omit hok in
/-- what `f_switch` does on a switch with a searched table that fits -/
theorem fSwitch_search (s : ℤ) :
    fSwitch read (c.before.length + 1) (p.kind.value s) =
      searchLoop read (tableStart c + (entries p.chain).length * caseSize)
        (some (p.default?.getD (bodyEnd c) % 2 ^ 16)) s
        (tableStart c + (2 ^ log2 (entries p.chain).length - 1) * caseSize)
        (if 2 ^ log2 (entries p.chain).length * caseSize / 2 < caseSize then 0
          else 2 ^ log2 (entries p.chain).length * caseSize / 2) := by
  obtain ⟨htype, htab, hend, hdefault⟩ := fetch_header c p post hsize
  rw [← hread _ _ (.inl ⟨by omega, by omega⟩)] at htype htab hend hdefault
  have htable : (table p).2.length = (entries p.chain).length * caseSize := by
    rw [table_of_ne_direct hkind, length_flatMap_storeEntry]
  rw [length_generateSwitch c p, htable] at hsize
  have hi13 : log2 (entries p.chain).length < 13 := by
    rcases Nat.eq_zero_or_pos (entries p.chain).length with hzero | hpos
    · rw [hzero]
      decide
    · exact log2_lt_of_small hpos hsize
  rw [table_of_ne_direct hkind] at htype
  rw [htable] at hend
  rw [fSwitch_kind hi13 htab hend htype, lookup, if_neg (by omega), if_neg (by omega), hdefault]

include hne

/-- a searched table dispatches right -/
theorem fSwitch_table (hord : Ordered p.chain) {s : ℤ} (hbefore : Before read (tableStart c) (entries p.chain) s) :
    ∃ target, fSwitch read (c.before.length + 1) (p.kind.value s) = some target ∧
      Right p.chain (p.default?.getD (bodyEnd c) % 2 ^ 16) s target := by
  have hpos : 0 < (entries p.chain).length := by
    obtain ⟨l, hl⟩ := exists_mem_of_ne_nil _ hne
    obtain ⟨q, a, ha, -⟩ := exists_entry hl ⟨le_rfl, hord.nonempty l hl⟩
    exact zero_lt_of_lt (List.getElem?_eq_some_iff.1 ha).1
  rw [fSwitch_search hkind hsize hread]
  obtain ⟨target, hfound, hanswer⟩ := (tableAt_entries hkind hok hsize hread).bisect hbefore (length_pos_iff.1 hpos)
  refine ⟨target, hfound, hanswer.right hord fun l hl => ?_⟩
  have := (hok l hl).addr
  omega

end Table

/-! ## Direct tables -/

/-- numbers one behind the other, from `m` on -/
def Consecutive (m : ℤ) (ls : List Label) : Prop := ∀ (j : ℕ) l, ls[j]? = some l → l.hi = none ∧ l.lo = m + j

variable {ls : List Label} {m s : ℤ} {l : Label}

theorem Consecutive.contains (h : Consecutive m ls) (hl : l ∈ ls)
    (hs : l.Contains s) : m ≤ s ∧ s < m + ls.length ∧ ls[(s - m).toNat]? = some l := by
  obtain ⟨j, hj⟩ := mem_iff_getElem?.1 hl
  obtain ⟨hhi, hlo⟩ := h j l hj
  have hlt : j < ls.length := (List.getElem?_eq_some_iff.1 hj).1
  have h1 := hs.1
  have h2 := hs.2
  rw [Label.last, hhi, getD_none] at h2
  have hidx : (s - m).toNat = j := by omega
  rw [hidx]
  exact ⟨by omega, by omega, hj⟩

theorem Consecutive.ordered (h : Consecutive m ls) : Ordered ls := by
  have hlast : ∀ l ∈ ls, l.last = l.lo := by
    intro l hl
    obtain ⟨j, hj⟩ := mem_iff_getElem?.1 hl
    rw [Label.last, (h j l hj).1, getD_none]
  refine ⟨fun l hl => (hlast l hl).ge, pairwise_iff_getElem.2 fun i j hi hj hij => ?_⟩
  rw [hlast _ (getElem_mem hi), (h i _ (getElem?_eq_getElem hi)).2, (h j _ (getElem?_eq_getElem hj)).2]
  omega

/-- values that are not too far above the labels, or so far that the doubled distance comes round behind them -/
def InReach (m : ℤ) (n : ℕ) (s : ℤ) : Prop := s < m + 2 ^ 62 ∨ m + 2 ^ 63 + n ≤ s ∧ s < m + 2 ^ 63 + 2 ^ 62

/-- the doubled distance, as 64 bits hold it -/
theorem index_eq (hge : m ≤ s) (hlt : s < m + 2 ^ 62) : ((s - m) * 2).bmod (2 ^ 64) = (s - m) * 2 :=
  Int.bmod_eq_of_le_mul_two (by norm_num; omega) (by norm_num; omega)

theorem index_far (hge : m + 2 ^ 62 ≤ s) (hlt : s < m + 2 ^ 63 + 2 ^ 62) :
    ((s - m) * 2).bmod (2 ^ 64) = (s - m) * 2 - 2 ^ 64 := by
  rw [← Int.sub_bmod_right]
  exact Int.bmod_eq_of_le_mul_two (by norm_num; omega) (by norm_num; omega)

/-- the lookup in a table of addresses, for values in reach -/
theorem lookupDirect_right {read : Reader} {T : ℕ} (hconsec : Consecutive m ls)
    (haddr : ∀ l ∈ ls, l.addr ≠ 0) (hread : ∀ (j : ℕ) l, ls[j]? = some l → read (T + j * 2) 2 = some l.addr)
    (hmin : read (endTab - 4) 4 = some n) (hm : toInt n = m) (hend : endTab = T + ls.length * 2 + 4)
    (hs : InReach m ls.length s) :
    ∃ target, lookupDirect read T endTab (some default) s = some target ∧ Right ls default s target := by
  rw [lookupDirect, hmin, bind_some]
  dsimp only
  rw [hm]
  rcases hs with hs | ⟨hfar, hlt⟩
  swap
  · refine ⟨_, if_neg fun h => ?_, right_default (fun l hl hcontains => ?_) _⟩
    · have := h.2
      rw [index_far (by omega) hlt] at this
      omega
    · have := (hconsec.contains hl hcontains).2.1
      omega
  by_cases hge : m ≤ s
  · rw [index_eq hge hs]
    obtain ⟨q, rfl⟩ : ∃ q : ℕ, s = m + q := ⟨(s - m).toNat, by omega⟩
    by_cases hin : q < ls.length
    · -- the index is in the table
      obtain ⟨l, hget⟩ : ∃ l, ls[q]? = some l := ⟨_, getElem?_eq_getElem hin⟩
      obtain ⟨hhi, hlo⟩ := hconsec q l hget
      have hl : l ∈ ls := mem_of_getElem? hget
      have hplace : (T : ℤ) + (m + q - m) * 2 = (T + q * 2 : ℕ) := by push_cast; ring
      have hcond : m ≤ m + q ∧ (T : ℤ) + (m + q - m) * 2 < endTab - 4 := by omega
      refine ⟨l.addr, ?_, hconsec.ordered.right_of_contains hl ?_ _⟩
      · rw [if_pos hcond, hplace, fetchShort, if_neg (by omega), Int.toNat_natCast, hread q l hget, bind_some,
          if_neg (haddr l hl)]
      · rw [Label.Contains, Label.last, hhi, getD_none]
        omega
    · refine ⟨_, if_neg fun h => hin ?_, right_default (fun l hl hcontains => hin ?_) _⟩
      · have := h.2
        omega
      · have := (hconsec.contains hl hcontains).2.1
        omega
  · exact ⟨_, if_neg fun h => hge h.1, right_default (fun l hl hcontains => hge (hconsec.contains hl hcontains).1) _⟩

section Direct

variable {m : ℤ} (hkind : p.kind = .direct) (hne : p.chain ≠ []) (hconsec : Consecutive m p.chain)
include hkind hne hconsec

theorem table_of_direct : table p = (0xfe, p.chain.flatMap (fun l => storeShort l.addr) ++ storeInt m) := by
  obtain ⟨l, ls, hchain⟩ := exists_cons_of_ne_nil hne
  have hlo : l.lo = m := by
    have := (hconsec 0 l (by rw [hchain]; rfl)).2
    simpa using this
  rw [table, hkind, hchain]
  dsimp only
  rw [hlo]

omit hkind hne hconsec in
theorem length_shorts : (p.chain.flatMap fun l => storeShort l.addr).length = p.chain.length * 2 := by
  simp [length_flatMap, storeShort]

/-- the smallest label, read back -/
theorem fetch_smallest (c : Code) (post : List Byte) :
    fetch (generateSwitch c p ++ post) (tableStart c + (table p).2.length - 4) 4 =
      some ((m % 2 ^ 32).toNat % 256 ^ 4) ∧ (table p).2.length = p.chain.length * 2 + 4 := by
  have htable := table_of_direct hkind hne hconsec
  have hlen : (table p).2.length = p.chain.length * 2 + 4 := by
    rw [htable, length_append, length_shorts, storeInt, length_store]
  have hplace : tableStart c + (table p).2.length - 4 = tableStart c + p.chain.length * 2 := by omega
  have hfetch := fetch_between (p.chain.flatMap fun l => storeShort l.addr) [] 4 (m % 2 ^ 32).toNat
  rw [append_nil, length_shorts] at hfetch
  refine ⟨?_, hlen⟩
  rw [hplace, fetch_table c p post (by omega), htable]
  exact hfetch

variable (hok : ∀ l ∈ p.chain, l.Ok c) (hsize : (generateSwitch c p).length < 2 ^ 16)
include hok hsize

/-- the address of a label, read back -/
theorem fetch_direct (post : List Byte) {j : ℕ} {l : Label} (hl : p.chain[j]? = some l) :
    fetch (generateSwitch c p ++ post) (tableStart c + j * 2) 2 = some l.addr := by
  have hj : j < p.chain.length := (List.getElem?_eq_some_iff.1 hl).1
  have hshort : ∀ l : Label, (storeShort l.addr).length = 2 := fun l => length_store 2 _
  have hsizes := length_generateSwitch c p
  have htable := table_of_direct hkind hne hconsec
  have haddr : l.addr % 256 ^ 2 = l.addr := by
    refine mod_eq_of_lt ?_
    have := (hok l (mem_of_getElem? hl)).addr_le
    unfold tableStart at hsizes
    omega
  have hfirst := fetch_between [] [] 2 l.addr
  rw [nil_append, append_nil, length_nil, haddr] at hfirst
  rw [fetch_table c p post (by rw [htable, length_append, length_shorts]; omega), htable,
    fetch_append_left _ (by rw [length_shorts]; omega), ← add_zero (j * 2), fetch_flatMap hshort hl (by omega)]
  exact hfirst

/-- a direct table dispatches right -/
theorem fSwitch_direct (hlow : -2 ^ 31 ≤ m) (hhigh : m < 2 ^ 31) {s : ℤ} (hs : InReach m p.chain.length s)
    (post : List Byte) :
    ∃ target, fSwitch (fetch (generateSwitch c p ++ post)) (c.before.length + 1) (.number s) = some target ∧
      Right p.chain (p.default?.getD (bodyEnd c) % 2 ^ 16) s target := by
  obtain ⟨htype, htab, hend, hdefault⟩ := fetch_header c p post hsize
  obtain ⟨hmin, hlen⟩ := fetch_smallest hkind hne hconsec c post
  have hkindByte : (table p).1 % 256 = 0xfe := congrArg (fun t => t.1 % 256) (table_of_direct hkind hne hconsec)
  have hvalue : toInt (((m % 2 ^ 32).toNat % 256 ^ 4 : ℕ) : ℤ) = m :=
    bmod_value (w := 4) (by norm_num; omega) (by norm_num; omega)
  rw [hkindByte] at htype
  rw [fSwitch, htab, bind_some, hend, bind_some, htype, bind_some, if_neg (by decide)]
  dsimp only
  rw [lookup, if_pos (by decide), hdefault]
  refine lookupDirect_right hconsec (fun l hl => ?_)
    (fun j l => fetch_direct hkind hne hconsec hok hsize post) hmin hvalue (by omega) hs
  have := (hok l hl).addr
  omega

end Direct

/-! ## Sorting the cases -/

section Sorting

variable {ν : Type*} {d : ν → Option ℕ} {key : ν → WithBot ℤ} {cases sorted : List ν}
  (hone : cases.Pairwise fun a b => (d a).isSome = true → d b = none)
include hone

/-- sorted, the only default comes first -/
theorem default_first (hperm : sorted.Perm cases) (hsorted : sorted.Pairwise fun a b => key a ≤ key b)
    (hkey : ∀ n, (d n).isSome = true ↔ key n = ⊥) : cases.findSome? d = sorted.head?.bind d := by
  have hone' : sorted.Pairwise fun a b => (d a).isSome = true → d b = none := by
    refine (hperm.pairwise_iff fun {a b} h hb => ?_).2 hone
    by_contra hsome
    rw [h (isSome_iff_ne_none.2 hsome)] at hb
    cases hb
  cases sorted with
  | nil => rw [nil_perm.1 hperm]; rfl
  | cons n rest =>
    have hrest : ∀ m ∈ rest, d m = none := by
      intro m hm
      by_contra hsome
      have hle := (pairwise_cons.1 hsorted).1 m hm
      rw [(hkey m).1 (isSome_iff_ne_none.2 hsome), le_bot_iff, ← hkey] at hle
      exact hsome ((pairwise_cons.1 hone').1 m hm hle)
    have hall : ∀ m ∈ cases, d m = none ∨ d m = d n := fun m hm =>
      (mem_cons.1 (hperm.mem_iff.2 hm)).elim (fun h => .inr (h ▸ rfl)) fun h => .inl (hrest m h)
    show _ = d n
    cases hf : cases.findSome? d with
    | none => exact (findSome?_eq_none_iff.1 hf n (hperm.mem_iff.1 mem_cons_self)).symm
    | some a =>
      obtain ⟨m, hm, ha⟩ := exists_of_findSome?_eq_some hf
      rw [← ha]
      exact (hall m hm).resolve_left (by simp [ha])

end Sorting

/-- the labels of a switch, in source order -/
def labels (cases : List CaseNode) : List Label := cases.filterMap CaseNode.label?

def CaseNode.default? : CaseNode → Option ℕ
  | .default addr => some addr
  | .label _ => none

/-- the address of its default -/
def default? (cases : List CaseNode) : Option ℕ := cases.findSome? CaseNode.default?

/-- the parser takes one default only -/
def OneDefault (cases : List CaseNode) : Prop :=
  cases.Pairwise fun a b => a.default?.isSome = true → b.default? = none

/-- where a node belongs: a default before all labels -/
def sortKey : CaseNode → WithBot ℤ
  | .default _ => ⊥
  | .label l => (l.lo : WithBot ℤ)

variable {cases : List CaseNode} {kind : SwitchKind}

/-- what the parser and the author of a switch see to: places in the body, ranges that are not empty, no value in two
labels, one default -/
structure Source (c : Code) (cases : List CaseNode) : Prop where
  ok : ∀ l ∈ labels cases, l.Ok c
  nonempty : ∀ l ∈ labels cases, l.lo ≤ l.last
  disjoint : (labels cases).Pairwise fun a b => ∀ s, a.Contains s → ¬ b.Contains s
  oneDefault : OneDefault cases
  default_le : ∀ addr, CaseNode.default addr ∈ cases → addr ≤ bodyEnd c

/-- the labels of a sorted switch are in order -/
theorem ordered_of_sorted {sorted : List CaseNode} (hsrc : Source c cases) (hperm : sorted.Perm cases)
    (hsorted : sorted.Pairwise fun a b => sortKey a ≤ sortKey b) : Ordered (labels sorted) := by
  have hlabels : (labels sorted).Perm (labels cases) := hperm.filterMap _
  have hdisjoint : (labels sorted).Pairwise fun a b => ∀ s, a.Contains s → ¬ b.Contains s :=
    (hlabels.pairwise_iff fun h s hb ha => h s ha hb).2 hsrc.disjoint
  have hle : (labels sorted).Pairwise fun a b => a.lo ≤ b.lo := by
    refine hsorted.filterMap _ fun a b hab a' ha' b' hb' => ?_
    cases a <;> cases ha'
    cases b <;> cases hb'
    exact WithBot.coe_le_coe.1 hab
  have hnonempty : ∀ l ∈ labels sorted, l.lo ≤ l.last := fun l hl => hsrc.nonempty l (hlabels.mem_iff.1 hl)
  refine ⟨hnonempty, (hle.and hdisjoint).imp_of_mem fun {a b} ha hb hab => ?_⟩
  by_contra hge
  exact hab.2 b.lo ⟨hab.1, not_lt.1 hge⟩ ⟨le_rfl, hnonempty b hb⟩

/-! ## Direct switches -/

theorem checkCases_false (kind : SwitchKind) (ls : List Label) (lastKey : ℤ) :
    checkCases kind lastKey false ls ≠ some true := by
  induction ls generalizing lastKey with
  | nil => exact nofun
  | cons l ls ih =>
    rw [checkCases]
    split
    · exact nofun
    · split
      · exact ih _
      · rw [Bool.false_and]; exact ih _

theorem Consecutive.cons (hhi : l.hi = none) (h : Consecutive (l.lo + 1) ls) : Consecutive l.lo (l :: ls) := by
  intro j l' hl'
  cases j with
  | zero =>
    rw [← some.inj hl']
    exact ⟨hhi, by simp⟩
  | succ j =>
    obtain ⟨h1, h2⟩ := h j l' hl'
    refine ⟨h1, ?_⟩
    push_cast
    omega

/-- labels that `prepare_cases` takes for consecutive: numbers, each one more than the one before as an `int` -/
structure SeemsConsecutive (ls : List Label) : Prop where
  number : ∀ l ∈ ls, l.hi = none
  next : ls.IsChain fun a b => toInt (a.lo + 1) = toInt b.lo

theorem checkCases_true {direct : Bool} (h : checkCases kind (toInt l.lo) direct ls = some true) (hhi : l.hi = none) :
    SeemsConsecutive (l :: ls) := by
  induction ls generalizing l direct with
  | nil => exact ⟨forall_mem_singleton.2 hhi, .singleton l⟩
  | cons l' ls ih =>
    rw [checkCases] at h
    split at h
    · cases h
    · cases hhi' : l'.hi with
      | some hi => rw [hhi'] at h; exact absurd h (checkCases_false _ _ _)
      | none =>
        rw [hhi'] at h
        cases hd : (direct && decide (toInt (toInt l.lo + 1) = toInt l'.lo)) with
        | false => rw [hd] at h; exact absurd h (checkCases_false _ _ _)
        | true =>
          obtain ⟨hnumber, hnext⟩ := ih h hhi'
          have hkey := of_decide_eq_true (Bool.and_eq_true_iff.1 hd).2
          rw [toInt, toInt, Int.bmod_add_bmod] at hkey
          exact ⟨forall_mem_cons.2 ⟨hhi, hnumber⟩, .cons_cons hkey hnext⟩

/-- what `prepare_cases` leaves behind the default -/
theorem prepareLabels_some {d : Option ℕ} (h : prepareLabels kind d ls = some p) : p.default? = d ∧ p.chain = ls ∧
      (p.kind = kind ∨ p.kind = .direct ∧ SeemsConsecutive ls) := by
  cases ls with
  | nil =>
    cases h
    exact ⟨rfl, rfl, .inl rfl⟩
  | cons l rest =>
    rw [prepareLabels] at h
    obtain ⟨direct, hcheck, rfl⟩ := map_eq_some_iff.1 h
    refine ⟨rfl, rfl, ?_⟩
    cases direct with
    | false => exact .inl (by simp)
    | true =>
      cases hhi : l.hi with
      | some hi => rw [hhi] at hcheck; exact absurd hcheck (checkCases_false _ _ _)
      | none =>
        rw [hhi] at hcheck
        by_cases hk : kind = .numbers
        · exact .inr ⟨by simp [hk], checkCases_true hcheck hhi⟩
        · exact .inl (by simp [hk])

theorem switchKind_cases (ls : List Label) : switchKind ls = .ranges ∨ switchKind ls = .numbers := by
  unfold switchKind
  split
  · exact .inl rfl
  · exact .inr rfl

/-- every pair of cases that the sort compares is compared right -/
def ComparedRight (cases : List CaseNode) : Prop :=
  ∀ pair ∈ compared sortKey cases, (caseCompare pair.1 pair.2 < 0 ↔ sortKey pair.1 < sortKey pair.2)

/-- what the compiler makes of a switch whose cases are compared right -/
structure Compiled (cases : List CaseNode) (p : Prepared) : Prop where
  perm : p.chain.Perm (labels cases)
  ordered : Ordered p.chain
  default : p.default? = default? cases
  kind : p.kind = .ranges ∨ p.kind = .numbers ∨ p.kind = .direct ∧ SeemsConsecutive p.chain

theorem prepareCases_compiled (hsrc : Source c cases) (hcompared : ComparedRight cases)
    (h : prepareCases cases = some p) : Compiled cases p := by
  have hperm := quickSort_perm (fun a b => decide (caseCompare a b < 0)) cases
  have hsorted : (quickSort (fun a b => decide (caseCompare a b < 0)) cases).Pairwise
      fun a b => sortKey a ≤ sortKey b :=
    quickSort_sorted fun pair hpair => decide_eq_true_iff.trans (hcompared pair hpair)
  unfold prepareCases at h
  dsimp only at h
  generalize quickSort (fun a b => decide (caseCompare a b < 0)) cases = sorted at *
  have hlabels : (labels sorted).Perm (labels cases) := hperm.filterMap _
  -- both branches leave the labels of the sorted list
  obtain ⟨d, hprep, hd⟩ : ∃ d, prepareLabels (switchKind (labels cases)) d (labels sorted) = some p ∧
      d = default? cases := by
    have hfirst : default? cases = sorted.head?.bind CaseNode.default? :=
      default_first hsrc.oneDefault hperm hsorted fun n => by cases n <;> simp [CaseNode.default?, sortKey]
    rw [hfirst]
    split at h
    · next addr rest => exact ⟨some addr, h, rfl⟩
    · next hnot =>
      refine ⟨none, h, ?_⟩
      cases sorted with
      | nil => rfl
      | cons n rest =>
        cases n with
        | default a => exact absurd rfl (hnot a rest)
        | label l => rfl
  obtain ⟨hdef, hchain, hkind⟩ := prepareLabels_some hprep
  rw [← hchain] at hlabels hkind
  refine ⟨hlabels, hchain ▸ ordered_of_sorted hsrc hperm hsorted, hdef.trans hd, ?_⟩
  rcases hkind with hk | hk
  · rw [hk]
    exact (switchKind_cases _).imp_right .inl
  · exact .inr (.inr hk)

/-! ## Dispatch -/

/-- where a value without a label goes: to the default, or behind the body -/
def defaultTarget (c : Code) (cases : List CaseNode) : ℕ := (default? cases).getD (bodyEnd c)

/-- labels and values that fit the table: there is a label, the sort compares them right, and if `prepare_cases` takes
them for consecutive, they are, the smallest fits an `int`, and the value is in reach -/
structure Fits (cases : List CaseNode) (s : ℤ) : Prop where
  nonempty : labels cases ≠ []
  sorted : ComparedRight cases
  direct : ∀ ls, ls.Perm (labels cases) → Ordered ls → SeemsConsecutive ls →
    ∃ m, Consecutive m ls ∧ -2 ^ 31 ≤ m ∧ m < 2 ^ 31 ∧ InReach m ls.length s

theorem defaultTarget_le (hsrc : Source c cases) : defaultTarget c cases ≤ bodyEnd c := by
  unfold defaultTarget
  cases h : default? cases with
  | none => exact le_rfl
  | some addr =>
    obtain ⟨n, hn, haddr⟩ := exists_of_findSome?_eq_some h
    cases n with
    | label l => cases haddr
    | default a => exact some.inj haddr ▸ hsrc.default_le a hn

/-- a body of three instructions at addresses 8, 9 and 10 -/
def sampleCode : Code := ⟨[], [1, 2, 3], 4, 5⟩

/-- three labels that are up to `3 * 2 ^ 30` apart, and a default; only those next to each other are compared -/
def sampleCases : List CaseNode :=
  [.label ⟨1610612736, some 1610612740, 8⟩, .label ⟨0, none, 10⟩, .default 9, .label ⟨-1610612736, none, 10⟩]

/-- `case 4294967301:`, a label that is 5 as an `int` -/
def cutCases : List CaseNode := [.label ⟨4294967301, none, 8⟩]

end Lithos.Lpc.Program.Switch
