/-
What the parser makes of a saved text.

`rebuild` says it without the text: by recursion on the value that was saved, every integer cut to 32 bits, every
carriage return turned into a newline, every mapping put together again in a fresh table, with the errors raised on the
way. Reals are read back as a parameter `back` says.

Results:
- `numberText_readsAs`, `unquote_body`: numbers and strings one by one.
- `read_node`: at any place in a container the element of a value has the value that `rebuild` says.
- `restoreValue_text`: the same for the whole of a saved text, sizing pass included.
-/
import Lithos.Lpc.Save.Elements
import Lithos.Lpc.Save.SavedText

namespace Lithos.Lpc.Save

open List Except Double

open Lithos.Lpc.Mapping (MapKey MappingT MapError allocateMapping)

/-! ## Numbers -/

/-- a byte that ends a numeral without a fraction or an exponent -/
def EndsNumeral (c : Byte) : Prop := isDigit c = false ∧ c ≠ dot ∧ c ≠ letterE

/-- the `int` that a run of digits is read as -/
def decVal (ds : List Byte) : Int32 := ds.foldl (fun acc c => acc * 10 + digitVal c) 0

theorem digitVal_digitByte {d : ℕ} (h : d < 10) : digitVal (digitByte d) = Int32.ofNat d := by
  interval_cases d <;> rfl

theorem decVal_digitsBack (fuel n : ℕ) (h : n < 10 ^ fuel) : decVal (digitsBack fuel n) = Int32.ofNat n := by
  induction fuel generalizing n with
  | zero =>
    obtain rfl : n = 0 := by simpa using h
    rfl
  | succ fuel ih =>
    have hd := digitVal_digitByte (Nat.mod_lt n (by omega : 10 > 0))
    rw [digitsBack_nat]
    split_ifs with h10
    · rw [decVal, foldl_cons, hd, Nat.mod_eq_of_lt h10]
      simp
    · have ih' := ih (n / 10) (by omega)
      rw [decVal] at ih' ⊢
      rw [foldl_append, ih', foldl_cons, hd]
      have : n = n / 10 * 10 + n % 10 := by omega
      conv_rhs => rw [this]
      rw [Int32.ofNat_add, Int32.ofNat_mul]
      rfl

/-- what a 64-bit number is read back as: its low 32 bits -/
def wrap32 (n : Int64) : Int64 := (Int32.ofInt n.toInt).toInt64

theorem signed_decimal (n : Int64) :
    (if n < 0 then -Int32.ofNat n.toInt.natAbs else Int32.ofNat n.toInt.natAbs) = Int32.ofInt n.toInt := by
  split_ifs with h
  · rw [neg_iff] at h
    rw [Int32.neg_ofNat]
    congr 1
    omega
  · rw [neg_iff] at h
    rw [← Int32.ofInt_eq_ofNat]
    congr 1
    omega

theorem wrap32_eq_iff (n : Int64) : wrap32 n = n ↔ -2 ^ 31 ≤ n.toInt ∧ n.toInt < 2 ^ 31 := by
  rw [wrap32, ← Int64.toInt_inj, Int32.toInt_toInt64]
  constructor
  · intro h
    have h1 := (Int32.ofInt n.toInt).toInt_lt
    have h2 := (Int32.ofInt n.toInt).le_toInt
    omega
  · rintro ⟨h1, h2⟩
    exact Int32.toInt_ofInt_of_le h1 h2

variable {ρ : Type} [Double ρ] {α β : Type} {c e : Byte} {ds : List Byte}

theorem bind_eq_ok {x : Except Fail α} {f : α → Except Fail β} {b : β} :
    (x >>= f) = .ok b ↔ ∃ a, x = .ok a ∧ f a = .ok b := by
  cases x with
  | error e | ok a => simp

theorem map_eq_ok {x : Except Fail α} {f : α → β} {b : β} (h : x.map f = .ok b) : ∃ a, x = .ok a ∧ f a = b := by
  cases x with
  | error e => exact absurd h (by simp [Except.map])
  | ok a => exact ⟨a, rfl, ok.inj h⟩

/-- a numeral is read as an `int` or as a real -/
theorem parseNumeric_value {m m' : Mem} {w : Svalue ρ} (h : parseNumeric c m = .ok (w, m')) :
    (∃ n : Int32, w = .number n.toInt64) ∨ ∃ r, w = .real r := by
  obtain ⟨⟨c1, m1⟩, -, h⟩ := bind_eq_ok.1 h
  dsimp only at h
  split at h
  · cases h
  obtain ⟨⟨res, c2, m2⟩, -, h⟩ := bind_eq_ok.1 h
  dsimp only at h
  split at h
  · obtain ⟨⟨c3, m3⟩, -, h⟩ := bind_eq_ok.1 h
    split at h
    · cases h
    obtain ⟨⟨frac, c4, m4⟩, -, h⟩ := bind_eq_ok.1 h
    split at h
    · obtain ⟨⟨expo, m5⟩, -, h⟩ := bind_eq_ok.1 h
      exact .inr ⟨_, (Prod.mk.inj (ok.inj h)).1.symm⟩
    · exact .inr ⟨_, (Prod.mk.inj (ok.inj h)).1.symm⟩
  · split at h
    · obtain ⟨⟨expo, m5⟩, -, h⟩ := bind_eq_ok.1 h
      exact .inr ⟨_, (Prod.mk.inj (ok.inj h)).1.symm⟩
    · exact .inl ⟨_, (Prod.mk.inj (ok.inj h)).1.symm⟩

/-- the digits of a numeral, once the sign is off -/
theorem parseNumeric_digits (hd : ∀ c ∈ ds, isDigit c = true) (hc : isDigit c = true) (he : EndsNumeral e) (m : Mem) :
    parseNumeric (ρ := ρ) c (ds ++ e :: m) = .ok (.number (decVal (c :: ds)).toInt64, m) := by
  have hr := readInt_digits hd he.1 (digitVal c) m
  have h0 : (c == minus) = false := by simpa using digit_ne_minus hc
  unfold parseNumeric parseDigits
  simp only [h0, firstDigit, Bool.false_eq_true, if_false, bind_ok, Bool.false_and, hr, if_neg he.2.1, if_neg he.2.2]
  rw [decVal]
  simp

theorem parseNumeric_minus (hd : ∀ c ∈ ds, isDigit c = true) (hc : isDigit c = true) (he : EndsNumeral e) (m : Mem) :
    parseNumeric (ρ := ρ) minus (c :: ds ++ e :: m) = .ok (.number (-decVal (c :: ds)).toInt64, m) := by
  have hr := readInt_digits hd he.1 (digitVal c) m
  unfold parseNumeric parseDigits
  simp only [beq_self_eq_true, firstDigit, if_true, cons_append, next_cons, bind_ok, hc, Bool.not_true, Bool.and_false,
    Bool.false_eq_true, if_false, hr, if_neg he.2.1, if_neg he.2.2]
  rw [decVal]
  simp

/-- the text `t` is read as the value `w`, whatever numeral-ending byte follows -/
def ReadsAs (t : List Byte) (w : Svalue ρ) : Prop :=
  ∃ c t', t = c :: t' ∧ (c = minus ∨ isDigit c = true) ∧
    ∀ e m, EndsNumeral e → parseNumeric c (t' ++ e :: m) = .ok (w, m)

/-- **A number is read back as its low 32 bits.** -/
theorem numberText_readsAs (n : Int64) : ReadsAs (ρ := ρ) (numberText n) (.number (wrap32 n)) := by
  have hval := decVal_digitsBack maxDigits n.toInt.natAbs (natAbs_lt n)
  have hsign := signed_decimal n
  have hdig := isDigit_digitsBack maxDigits n.toInt.natAbs
  have hne : digitsBack maxDigits n.toInt.natAbs ≠ [] := digitsBack_ne_nil 19 _
  rw [numberText]
  cases hds : digitsBack maxDigits (n.toInt.natAbs : ℕ) with
  | nil => exact absurd hds hne
  | cons c ds =>
    rw [hds] at hval hdig
    have hc := hdig c (by simp)
    have hd := fun x hx => hdig x (mem_cons_of_mem c hx)
    split_ifs with hneg
    · rw [if_pos hneg] at hsign
      refine ⟨minus, c :: ds, rfl, .inl rfl, fun e m he => ?_⟩
      rw [parseNumeric_minus hd hc he, hval, hsign, wrap32]
    · rw [if_neg hneg] at hsign
      refine ⟨c, ds, rfl, .inr hc, fun e m he => ?_⟩
      rw [parseNumeric_digits hd hc he, hval, hsign, wrap32]

/-! ## Strings -/

/-- one written character is read back, a carriage return as a newline -/
theorem unquote_char (hc : c ≠ nul) (m : Mem) :
    unquoteAndUnescapeString (saveChar c ++ m) = (unquoteAndUnescapeString m).map fun r => (unCr c :: r.1, r.2) := by
  unfold saveChar
  split_ifs with hq hn
  · change unquoteAndUnescapeString (backslash :: c :: m) = _
    rw [unquoteAndUnescapeString, if_neg (by decide), if_neg (by decide), if_pos rfl, if_neg hc]
  · refine (unquote_cons (by decide) (by decide) (by decide) m).trans ?_
    rw [hn]
    rfl
  · obtain ⟨h1, h2⟩ := not_or.1 hq
    exact unquote_cons h1 hc h2 m

theorem unquote_body {s : List Byte} (h : ∀ c ∈ s, c ≠ nul) (m : Mem) :
    unquoteAndUnescapeString (s.flatMap saveChar ++ quote :: m) = .ok (s.map unCr, m) := by
  induction s with
  | nil =>
    rw [unquoteAndUnescapeString.eq_def]
    simp
  | cons c s ih =>
    rw [flatMap_cons, append_assoc, unquote_char (h c (by simp)), ih fun x hx => h x (.tail _ hx)]
    rfl

/-! ## Rebuilding -/

variable (env : Env) (back : ρ → Svalue ρ)

/-- a key string is shared, so it is cut to the longest shared string -/
def keyed (p : Place) : Svalue ρ → Svalue ρ
  | .string s => .string (if p = .key then s.take (hardLimit env.cfg) else s)
  | v => v

mutual

/-- the value the text of a value is read back as; `allocs` counts the containers allocated as keys -/
def rebuild : Svalue ρ → ℕ → Except Fail (Svalue ρ × ℕ)
  | .number n, allocs => .ok (.number (wrap32 n), allocs)
  | .real r, allocs => .ok (back r, allocs)
  | .string s, allocs => .ok (.string ((cstr s).map unCr), allocs)
  | .array l, allocs =>
    if l.length > env.cfg.maxArraySize then .error .illegalArraySize
    else (rebuildItems l allocs).map fun r => (.array r.1, r.2)
  | .class_ l, allocs => (rebuildItems l allocs).map fun r => (.class_ r.1, r.2)
  | .mapping l, allocs =>
    if l.isEmpty then .ok (.mapping [], allocs)
    else (rebuildNodes l (allocateMapping env.cfg l.length) allocs).map fun r => (.mapping (walk r.1), r.2)
  | .other, allocs => .ok (.number 0, allocs)

def rebuildItems : List (Svalue ρ) → ℕ → Except Fail (List (Svalue ρ) × ℕ)
  | [], allocs => .ok ([], allocs)
  | v :: l, allocs =>
    match rebuild v allocs with
    | .error e => .error e
    | .ok (v', allocs) => (rebuildItems l allocs).map fun r => (v' :: r.1, r.2)

def rebuildNodes : List (Svalue ρ × Svalue ρ) → MappingT (RKey ρ) (Svalue ρ) → ℕ →
    Except Fail (MappingT (RKey ρ) (Svalue ρ) × ℕ)
  | [], t, allocs => .ok (t, allocs)
  | (k, v) :: l, t, allocs =>
    match rebuild k allocs with
    | .error e => .error e
    | .ok (k', allocs) =>
      match rebuild v allocs with
      | .error e => .error e
      | .ok (v', allocs) =>
        let key := keyed env .key k'
        match Mapping.insert env.cfg (.number 0) false t ⟨(keyWord env allocs key).1, key⟩ (some v') with
        | .error e => .error (.raised e)
        | .ok t' => rebuildNodes l t' (keyWord env allocs key).2

end

/-- every real of the value is printed as a numeral that is read as `back` says -/
def RealsRead (back : ρ → Svalue ρ) (v : Svalue ρ) : Prop := v.All (OnReal fun r => ReadsAs (Double.fmtG r) (back r))

variable {env back} {t : List Byte} {w v : Svalue ρ} {p : Place}

/-! ## The element of a value -/

theorem delim_endsNumeral (p : Place) : EndsNumeral p.delim := by
  cases p <;> exact ⟨rfl, by decide, by decide⟩

theorem leaf_numeral (h : ReadsAs t w) (p : Place) : (Node.plain t).leaf env p = .ok w := by
  obtain ⟨c, t', rfl, hc, hread⟩ := h
  obtain ⟨-, h1, h2, -, -, -, h6, h7⟩ := numeral_ne hc.symm
  have hdelim : c ≠ p.delim := by
    cases p <;> assumption
  simp only [Node.leaf, readElement, Node.render, cons_append, next_cons, bind_ok]
  unfold restoreElement
  rw [if_neg h1, if_neg h2, if_neg hdelim, if_pos hc, hread _ _ (delim_endsNumeral p)]
  rfl

theorem keyed_of_numeral (h : ReadsAs t w) (p : Place) : keyed env p w = w := by
  obtain ⟨c, t', -, -, hread⟩ := h
  rcases parseNumeric_value (hread comma [] ⟨rfl, by decide, by decide⟩) with ⟨n, rfl⟩ | ⟨r, rfl⟩
  all_goals rfl

omit [Double ρ] in
theorem keyed_of_ne_key (hp : p ≠ .key) (v : Svalue ρ) : keyed env p v = v := by
  cases v <;> simp [keyed, hp]

/-- the element of `v` has the value that `rebuild` says -/
def ReadsBack (env : Env) (back : ρ → Svalue ρ) (v : Svalue ρ) : Prop :=
  ∀ p a, v.node.read env p a = (rebuild env back v a).map fun r => (keyed env p r.1, r.2)

mutual

/-- **An element of a saved container.** -/
theorem read_node : ∀ v : Svalue ρ, RealsRead back v → ReadsBack env back v
  | .number n, _ => by
    intro p a
    rw [Svalue.node, Node.read, leaf_numeral (numberText_readsAs n)]
    rfl
  | .real r, hr => by
    intro p a
    rw [Svalue.node, Node.read, leaf_numeral hr, rebuild]
    simp only [Except.map, keyed_of_numeral hr]
  | .string s, _ => by
    intro p a
    have hun := unquote_body (mem_takeWhile_ne_nul (s := s)) [p.delim]
    simp only [Svalue.node, Node.read, Node.leaf, Node.render, readElement, cons_append, append_assoc, nil_append,
      next_cons, bind_ok]
    unfold restoreElement
    rw [cstr, hun]
    rfl
  | .other, _ => by
    intro p a
    cases p <;> rfl
  | .array l, hr => by
    intro p a
    rw [Svalue.node, Node.read, rebuild, if_neg (by decide), if_pos rfl, length_itemNodes,
      read_itemNodes l hr.2 _ (by decide)]
    split_ifs
    · rfl
    · cases rebuildItems env back l a <;> rfl
  | .class_ l, hr => by
    intro p a
    rw [Svalue.node, Node.read, rebuild, if_neg (by decide), if_neg (by decide), read_itemNodes l hr.2 _ (by decide)]
    cases rebuildItems env back l a <;> rfl
  | .mapping l, hr => by
    intro p a
    rw [Svalue.node, Node.read, rebuild, if_pos rfl, length_pairNodes, Nat.mul_div_cancel_left _ (by omega : 0 < 2),
      read_pairNodes l hr.2]
    cases l with
    | nil => rfl
    | cons p l => cases rebuildNodes env back (p :: l) (allocateMapping env.cfg (p :: l).length) a <;> rfl

theorem read_itemNodes : ∀ l : List (Svalue ρ), AllItems (OnReal fun r => ReadsAs (fmtG r) (back r)) l → ∀ p : Place,
    p ≠ .key → ∀ a, readItems env (itemNodes l) p a = rebuildItems env back l a
  | [], _, _, _, _ => rfl
  | v :: l, hr, p, hp, a => by
    rw [itemNodes, readItems, rebuildItems, read_node v hr.1]
    cases rebuild env back v a with
    | error e => rfl
    | ok r => simp only [Except.map, bind_ok, keyed_of_ne_key hp, read_itemNodes l hr.2 p hp r.2]

theorem read_pairNodes : ∀ l : List (Svalue ρ × Svalue ρ), AllNodes (OnReal fun r => ReadsAs (fmtG r) (back r)) l →
    ∀ t a, readPairs env (pairNodes l) t a = rebuildNodes env back l t a
  | [], _, _, _ => rfl
  | (k, v) :: l, hr, t, a => by
    rw [pairNodes, readPairs, rebuildNodes, read_node k hr.1]
    cases rebuild env back k a with
    | error e => rfl
    | ok rk =>
      simp only [Except.map, bind_ok, read_node v hr.2.1 .value rk.2]
      cases rebuild env back v rk.2 with
      | error e => rfl
      | ok rv =>
        simp only [bind_ok, keyed_of_ne_key (show Place.value ≠ .key by decide)]
        cases Mapping.insert env.cfg (.number 0) false t
            ⟨(keyWord env rv.2 (keyed env .key rk.1)).1, keyed env .key rk.1⟩ (some rv.1) with
        | error e => rfl
        | ok t' => exact read_pairNodes l hr.2.2 t' _

end

theorem ReadsAs.numeral (h : ReadsAs t w) : Numeral t := by
  obtain ⟨c, t', rfl, hc, hread⟩ := h
  have hw := hread nul [] ⟨rfl, by decide, by decide⟩
  rcases parseNumeric_spec (ρ := ρ) hc (.inr (.inr rfl)) (m := t' ++ [nul]) (by simp) with
    he | ⟨w', num, x, m', hw', hsplit, hnum⟩
  · rw [he] at hw
    cases hw
  · rw [hw'] at hw
    cases hw
    obtain ⟨rfl, -⟩ := append_inj' (show c :: t' ++ [nul] = num ++ [x] from hsplit) rfl
    exact hnum.numeral

theorem node_readable (v : Svalue ρ) (hr : RealsRead back v) : v.node.Readable := by
  induction v using Svalue.induction with
  | number n => exact (numberText_readsAs (ρ := ρ) n).numeral
  | real r => exact ReadsAs.numeral hr
  | string s | other => exact trivial
  | array l ih | class_ l ih =>
    refine ⟨fun h => absurd h (by decide), Node.allIn_iff.2 fun n hn => ?_⟩
    rw [itemNodes_eq] at hn
    obtain ⟨w, hw, rfl⟩ := mem_map.1 hn
    exact ih w hw (allItems_iff.1 hr.2 w hw)
  | mapping l ih =>
    refine ⟨fun _ => length_pairNodes l ▸ even_two_mul _, Node.allIn_iff.2 fun n hn => ?_⟩
    rw [pairNodes_eq] at hn
    obtain ⟨w, hw, rfl⟩ := mem_map.1 hn
    obtain ⟨p, hp, hw⟩ := mem_flatMap.1 hw
    have hl := allNodes_iff.1 hr.2 p hp
    rcases mem_pair.1 hw with rfl | rfl
    · exact (ih p hp).1 hl.1
    · exact (ih p hp).2 hl.2

/-! ## Whole texts -/

theorem restoreValue_numeral (h : ReadsAs t w) (entry : Sizes) (rest : Mem) :
    restoreValue env entry (t ++ nul :: rest) = .ok (some w, entry) := by
  obtain ⟨c, t', rfl, hc, hread⟩ := h
  obtain ⟨-, h1, h2, -⟩ := numeral_ne hc.symm
  have hend : EndsNumeral nul := ⟨rfl, by decide, by decide⟩
  simp only [restoreValue, cons_append, next_cons, bind_ok, if_neg h1, if_neg h2, if_pos hc, hread _ _ hend]

section

variable (hfmt : ∀ r : ρ, Plain (fmtG r)) {o c : Byte} {l : List Node} (hr : RealsRead back v) (ho : Scannable v)
include hfmt hr ho

variable (env) in
/-- **A whole saved container.** The sizing pass records the sizes of the containers inside in the order in which they
open; the parser then does what `rebuild` says, gives every container exactly as many elements as it was sized for and
has taken every recorded size when it reaches the end of the text. -/
theorem restoreOutermost_text (h : v.node = .group o c l) (slots : List ℕ) (rest : Mem) :
    ∃ st : Sizes, Recorded ⟨0, slots⟩ st (itemsSizes l) ∧
      sizing slots o (renderItems (o == lbracket) false l ++ c :: rparen :: rest) =
        .size v.slotSize { st with depth := 0 } ∧
      restoreOutermost env ⟨0, slots⟩ o (renderItems (o == lbracket) false l ++ c :: rparen :: rest) =
        (rebuild env back v 0).map fun r => (some ⟨r.1, diag (sizesOf v), rest, ⟨st, r.2⟩⟩, st) := by
  obtain ⟨st, hst, hsize⟩ := restoreSize_text hfmt h ho rest ⟨0, slots⟩ (lt_add_one _)
  have hsaves := node_saves hfmt v
  have hread : ReadsBack env back v := read_node v hr
  have hgood := node_readable v hr
  rw [h] at hsaves hgood
  have hlex := hsaves.lexed false false
  have hstep : (Node.group o c l).read (ρ := ρ) env .array 0 ≠ .error .fault := by
    intro hfault
    have hverdict : Verdict _ _ ((Node.group o c l).read (ρ := ρ) env .array 0) := read_verdict _ .array 0 hlex
    rw [hfault] at hverdict
    exact hverdict.2 hgood
  refine ⟨st, hst, hsize, ?_⟩
  rw [← (node_children h).2] at hsize
  rw [restoreOutermost_group env slots hlex hstep hsize hst, ← h, hread, h, hsaves.sizes_eq]
  simp only [keyed_of_ne_key (show Place.array ≠ .key by decide)]
  cases rebuild env back v 0 <;> rfl

variable (env) in
/-- **A whole saved text.** Restoring it gives what `rebuild` says, whatever the size buffer held and whatever lies
behind the terminating NUL. -/
theorem restoreValue_text (slots : List ℕ) (rest : Mem) : ∃ st, restoreValue env ⟨0, slots⟩ (text v ++ nul :: rest) =
      (rebuild env back v 0).map fun r => (some r.1, st) := by
  have hcontainer : ∀ o c l, v.node = .group o c l → ∃ st, restoreValue env ⟨0, slots⟩ (text v ++ nul :: rest) =
      (rebuild env back v 0).map fun r => (some r.1, st) := by
    intro o c l h
    obtain ⟨st, -, -, hst⟩ := restoreOutermost_text env hfmt hr ho h slots (nul :: rest)
    refine ⟨resetSizes st, ?_⟩
    rw [← (node_saves hfmt v).render_eq, h, Node.render, cons_append, cons_append, append_assoc, cons_append, cons_append,
      nil_append, restoreValue_opening env _ (Opens.opening (c := c) (h ▸ (node_saves hfmt v).lexed false false).1), hst]
    cases rebuild env back v 0 <;> rfl
  cases v with
  | number n => exact ⟨_, restoreValue_numeral (numberText_readsAs n) ⟨0, slots⟩ rest⟩
  | real r => exact ⟨_, restoreValue_numeral hr ⟨0, slots⟩ rest⟩
  | string s =>
    have hun := unquote_body (mem_takeWhile_ne_nul (s := s)) (nul :: rest)
    refine ⟨⟨0, slots⟩, ?_⟩
    simp only [restoreValue, text, saveString, cons_append, nil_append, append_assoc, next_cons, bind_ok,
      if_true, restoreString, hun]
    rfl
  | other => exact ⟨⟨0, slots⟩, rfl⟩
  | array l | class_ l | mapping l => exact hcontainer _ _ _ rfl

end

end Lithos.Lpc.Save
