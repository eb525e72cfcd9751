/-
`foreach` over a string (`F_FOREACH`, `F_NEXT_FOREACH`).

The hidden iterator of the loop is a pointer to the next character and, in the `short` that is its subtype, the bytes
left. Each turn lets `mbtowc` look at that many bytes. A character of several bytes is assigned as its code point and
passed over; after any other answer the next byte is assigned and the pointer moves by one. The bytes left shrink only
if `mbtowc` decoded something, so a NUL or an invalid byte moves the pointer and not the count.

Results:
- `foreachString_iff`: the loop visits the characters of a string and ends iff the decoded characters have as many
  bytes as the length modulo 65536 and the last character is decoded; below 65536 bytes (`foreachString_short`), iff all
  are.
- `nextForeach_suffix`: a loop that ends has stayed in the string.
- `nul_runs_on`: after the string of a single NUL the loop goes on with the bytes behind it.
-/
import Mathlib.Algebra.Order.BigOperators.Group.List
import Mathlib.Tactic.Linarith

namespace Lithos.Lpc.Foreach

/-- the string from the iterator's pointer on, and the number assigned to the variable -/
abbrev Visit := List UInt8 × ℤ

/-- what is assumed of `mbtowc`, which answers `char_len` and `wc` for the bytes it may look at: a decoded character
stands first in them, has at most four bytes and no NUL, is decoded whatever follows it, and is not ASCII if it has
several bytes -/
def DecodesUtf8 (mbtowc : List UInt8 → ℤ × ℤ) : Prop :=
  ∀ bs, 0 < (mbtowc bs).1 → ∃ ch rest, bs = ch ++ rest ∧ (mbtowc bs).1 = ch.length ∧ ch.length ≤ 4 ∧ 0 ∉ ch ∧
    (∀ cs, mbtowc (ch ++ cs) = mbtowc bs) ∧ (1 < ch.length → 128 ≤ (mbtowc bs).2)

/-- the code point of a multibyte character; otherwise the next byte, as a `char` -/
def number (r : ℤ × ℤ) (c : UInt8) : ℤ := if 1 < r.1 then r.2 else c.toInt8.toInt

/-- the pointer moves by `charLen` if that is above one and by one otherwise: `rest` is behind the next byte -/
def advance (charLen : ℤ) (rest : List UInt8) : List UInt8 := rest.drop (charLen - 1).toNat

/-- the `short`, here modulo 65536, as the `size_t` that `mbtowc` takes -/
def window (subtype : ℕ) : ℕ := if subtype < 32768 then subtype else 2 ^ 64 - 65536 + subtype

section
variable (mbtowc : List UInt8 → ℤ × ℤ)

/-- the turns of `F_NEXT_FOREACH`, with the string from the pointer on; its terminator stands behind it. `none`: the
pointer is at the end of the string and the loop goes on. -/
def nextForeach : List UInt8 → ℕ → Option (List Visit)
  | _, 0 => some []
  | [], _ => none
  | c :: rest, subtype =>
    let r := mbtowc ((c :: rest ++ [0]).take (window subtype))
    (nextForeach (advance r.1 rest) (if 0 < r.1 then ((subtype - r.1) % 65536).toNat else subtype)).map
      ((c :: rest, number r c) :: ·)
termination_by ptr => ptr.length
decreasing_by simp only [advance, List.length_drop, List.length_cons]; omega

/-- `F_FOREACH` cuts the length of the string to a `short` -/
def foreachString (s : List UInt8) : Option (List Visit) := nextForeach mbtowc s (s.length % 65536)

/-- the characters of a string: what `mbtowc` decodes of the bytes that are left, and single bytes elsewhere -/
def characters : List UInt8 → List Visit
  | [] => []
  | c :: rest => (c :: rest, number (mbtowc (c :: rest)) c) :: characters (advance (mbtowc (c :: rest)).1 rest)
termination_by s => s.length
decreasing_by simp only [advance, List.length_drop, List.length_cons]; omega

/-- the bytes of the decoded characters -/
def decoded (s : List UInt8) : ℕ := ((characters mbtowc s).map fun v => (mbtowc v.1).1.toNat).sum

/-- the last character of the string, if it has one, is decoded -/
def LastDecodes (s : List UInt8) : Prop := ∀ v ∈ (characters mbtowc s).getLast?, 0 < (mbtowc v.1).1

end

section
variable {mbtowc : List UInt8 → ℤ × ℤ} {ptr rest : List UInt8} {c : UInt8}

theorem LastDecodes.eq_nil (hlast : LastDecodes mbtowc ptr) (h0 : decoded mbtowc ptr = 0) :
    characters mbtowc ptr = [] := by
  by_contra hne
  have hpos := hlast _ (List.getLast?_eq_some_getLast hne)
  have hle : _ ≤ decoded mbtowc ptr := List.le_sum_of_mem (List.mem_map_of_mem (List.getLast_mem hne))
  omega

theorem lastDecodes_cons : LastDecodes mbtowc (c :: rest) ↔
    LastDecodes mbtowc (advance (mbtowc (c :: rest)).1 rest) ∧
      (characters mbtowc (advance (mbtowc (c :: rest)).1 rest) = [] → 0 < (mbtowc (c :: rest)).1) := by
  unfold LastDecodes
  rw [characters]
  rcases characters mbtowc (advance (mbtowc (c :: rest)).1 rest) with _ | ⟨v, vs⟩ <;> simp

theorem advance_of_nonpos {n : ℤ} (hn : n ≤ 0) : advance n rest = rest := by
  simp [advance, Int.toNat_of_nonpos hn]

theorem number_of_nonpos {r : ℤ × ℤ} (hr : r.1 ≤ 0) : number r c = c.toInt8.toInt := if_neg (by omega)

theorem map_cons_eq_some {v : Visit} {vs : List Visit} {o : Option (List Visit)} :
    o.map (v :: ·) = some (v :: vs) ↔ o = some vs := by
  cases o <;> simp

variable (h : DecodesUtf8 mbtowc)
include h

/-- what is decoded within a window is decoded in the string: the terminator is in no character -/
theorem DecodesUtf8.of_window {n : ℕ} (hpos : 0 < (mbtowc ((ptr ++ [0]).take n)).1) :
    mbtowc ((ptr ++ [0]).take n) = mbtowc ptr ∧ (mbtowc ptr).1 ≤ n := by
  obtain ⟨ch, tail, hbs, hlen, -, hnul, halone, -⟩ := h _ hpos
  have hch : ch <+: (ptr ++ [0]).take n := ⟨tail, hbs.symm⟩
  rcases List.prefix_concat_iff.1 (hch.trans (List.take_prefix n _)) with rfl | ⟨rest, rfl⟩
  · exact absurd (by simp) hnul
  · refine ⟨(halone rest).symm, ?_⟩
    rw [halone rest, hlen]
    exact_mod_cast hch.length_le.trans (List.length_take_le n _)

theorem DecodesUtf8.window_of {n : ℕ} (hpos : 0 < (mbtowc ptr).1) (hle : (mbtowc ptr).1 ≤ n) :
    mbtowc ((ptr ++ [0]).take n) = mbtowc ptr := by
  obtain ⟨ch, rest, hptr, hlen, -, -, halone, -⟩ := h ptr hpos
  rw [hptr, List.append_assoc, List.take_append, List.take_of_length_le (by omega), halone, ← hptr]

/-- the loop from any pointer and any count of bytes left -/
theorem nextForeach_iff (s : List UInt8) : ∀ subtype < 65536,
    nextForeach mbtowc s subtype = some (characters mbtowc s) ↔
      decoded mbtowc s = subtype ∧ LastDecodes mbtowc s := by
  induction s using characters.induct mbtowc with
  | case1 => rintro (_ | subtype) - <;> simp [nextForeach, decoded, characters, LastDecodes]
  | case2 c rest ih =>
    rintro (_ | left) hlt
    · have hne : characters mbtowc (c :: rest) ≠ [] := by simp [characters]
      rw [nextForeach]
      exact ⟨fun he => absurd (Option.some.inj he).symm hne, fun ⟨h0, hlast⟩ => absurd (hlast.eq_nil h0) hne⟩
    obtain ⟨r, hr⟩ : ∃ r, mbtowc ((c :: rest ++ [0]).take (window (left + 1))) = r := ⟨_, rfl⟩
    have hwin : window (left + 1) = left + 1 ∨ 4 ≤ left + 1 ∧ left + 1 ≤ window (left + 1) := by
      unfold window
      split <;> omega
    rw [lastDecodes_cons, decoded, characters, List.map_cons, List.sum_cons, ← decoded]
    simp only [nextForeach, hr]
    rcases lt_or_ge 0 r.1 with hpos | hneg
    · obtain ⟨heq, hle⟩ := h.of_window (hr ▸ hpos)
      obtain rfl : r = mbtowc (c :: rest) := hr.symm.trans heq
      obtain ⟨ch, -, -, hlen, hfour, -⟩ := h _ hpos
      rw [if_pos hpos, map_cons_eq_some, ih _ (by omega)]
      simp only [hpos, implies_true, and_true]
      exact and_congr_left fun _ => by omega
    rw [if_neg (by omega), advance_of_nonpos hneg, number_of_nonpos hneg]
    by_cases href : 0 < (mbtowc (c :: rest)).1
    · -- the character is longer than the count of bytes left, and its first byte is visited alone
      have hlong : left + 1 < (mbtowc (c :: rest)).1 := by
        by_contra hle
        have hsame := congrArg Prod.fst (hr.symm.trans (h.window_of href (by omega)))
        omega
      obtain ⟨ch, -, -, hlen, -, -, -, hwc⟩ := h _ href
      refine ⟨fun he => ?_, fun ⟨hw, _⟩ => by omega⟩
      obtain ⟨vs, -, he⟩ := Option.map_eq_some_iff.1 he
      have hnumber := (Prod.mk.inj (List.cons.inj he).1).2
      rw [number, if_pos (by omega)] at hnumber
      have hchar := c.toInt8.toInt_lt
      have hcode := hwc (by omega)
      omega
    · -- both take the next byte, and a decoded character has to follow for the count to reach zero
      rw [advance_of_nonpos (not_lt.1 href)] at ih ⊢
      rw [number_of_nonpos (not_lt.1 href), map_cons_eq_some, ih _ hlt, Int.toNat_of_nonpos (not_lt.1 href), zero_add]
      refine and_congr_right fun hd => (and_iff_left fun hnil => ?_).symm
      simp [decoded, hnil] at hd

/-- **`foreach` over a string.** The loop ends and has visited each character once, in order, iff the decoded characters
have as many bytes as the length modulo 65536 and the last character is decoded. -/
theorem foreachString_iff (s : List UInt8) : foreachString mbtowc s = some (characters mbtowc s) ↔
    decoded mbtowc s = s.length % 65536 ∧ LastDecodes mbtowc s :=
  nextForeach_iff h s _ (Nat.mod_lt _ (by decide))

/-- characters that are not decoded are single bytes -/
theorem decoded_add_countP (s : List UInt8) :
    decoded mbtowc s + (characters mbtowc s).countP (fun v => (mbtowc v.1).1 ≤ 0) = s.length := by
  unfold decoded
  induction s using characters.induct mbtowc with
  | case1 => simp [characters]
  | case2 c rest ih =>
    rw [characters, List.map_cons, List.sum_cons, List.countP_cons, List.length_cons]
    rcases lt_or_ge 0 (mbtowc (c :: rest)).1 with hpos | hneg
    · obtain ⟨ch, tail, hbs, hlen, -⟩ := h _ hpos
      have htotal := congrArg List.length hbs
      rw [List.length_cons, List.length_append] at htotal
      rw [advance, List.length_drop] at ih
      simp only [advance, not_le.2 hpos, decide_false, Bool.false_eq_true, if_false] at ih ⊢
      omega
    · rw [advance_of_nonpos hneg] at ih ⊢
      simp only [hneg, decide_true, if_true, Int.toNat_of_nonpos hneg]
      omega

/-- below 65536 bytes: no byte is a NUL or invalid -/
theorem foreachString_short {s : List UInt8} (hs : s.length < 65536) :
    foreachString mbtowc s = some (characters mbtowc s) ↔ ∀ v ∈ characters mbtowc s, 0 < (mbtowc v.1).1 := by
  have hsum := decoded_add_countP h s
  have hzero := List.countP_eq_zero (p := fun v => (mbtowc v.1).1 ≤ 0) (l := characters mbtowc s)
  simp only [decide_eq_true_eq, not_le] at hzero
  rw [foreachString, Nat.mod_eq_of_lt hs, nextForeach_iff h s _ hs, ← hzero]
  refine ⟨fun hd => by omega, fun h0 => ⟨by omega, fun v hv => ?_⟩⟩
  exact hzero.1 h0 v (List.mem_of_getLast? hv)

omit h in
/-- a loop that ends has read no byte behind the string -/
theorem nextForeach_suffix (s : List UInt8) (subtype : ℕ) :
    ∀ vs ∈ nextForeach mbtowc s subtype, ∀ v ∈ vs, v.1 <:+ s ∧ v.1 ≠ [] := by
  fun_induction nextForeach mbtowc s subtype with
  | case1 => simp
  | case2 => simp
  | case3 c rest subtype _ r ih =>
    intro vs hvs v hv
    obtain ⟨vs', hvs', rfl⟩ := Option.map_eq_some_iff.1 hvs
    rcases List.mem_cons.1 hv with rfl | hv
    · exact ⟨List.suffix_rfl, List.cons_ne_nil _ _⟩
    · obtain ⟨hsuffix, hne⟩ := ih vs' hvs' v hv
      exact ⟨hsuffix.trans ((List.drop_suffix _ _).trans (List.suffix_cons _ _)), hne⟩

end

/-- a decoder for the characters of one and two bytes -/
def twoBytes : List UInt8 → ℤ × ℤ
  | [] => (-1, 0)
  | c :: rest =>
    if c = 0 then (0, 0) else if c < 128 then (1, c.toNat)
    else match rest with
      | [] => (-1, 0)
      | d :: _ => if 194 ≤ c ∧ c < 224 ∧ 128 ≤ d ∧ d < 192 then (2, c.toNat % 32 * 64 + d.toNat % 64) else (-1, 0)

theorem twoBytes_decodes : DecodesUtf8 twoBytes := by
  intro bs
  fun_cases twoBytes bs with
  | case3 c rest h0 hc =>
    exact fun _ => ⟨[c], rest, rfl, rfl, by simp, by simpa using Ne.symm h0, by simp [twoBytes, h0, hc], by simp⟩
  | case5 c h0 hc d rest h2 =>
    have hd : d ≠ 0 := by rintro rfl; simp at h2
    refine fun _ => ⟨[c, d], rest, rfl, rfl, by simp, by simp [Ne.symm h0, hd.symm], by simp [twoBytes, h0, hc, h2], ?_⟩
    have hc := UInt8.le_iff_toNat_le.1 h2.1
    have hc' := UInt8.lt_iff_toNat_lt.1 h2.2.1
    simp at hc hc' ⊢
    omega
  | _ => simp

theorem two_characters : foreachString twoBytes [104, 195, 169] = some [([104, 195, 169], 104), ([195, 169], 233)] := by
  have hchars : characters twoBytes [104, 195, 169] = [([104, 195, 169], 104), ([195, 169], 233)] := by
    simp [characters, twoBytes, advance, number]
  rw [← hchars, foreachString_iff twoBytes_decodes]
  simp [decoded, LastDecodes, hchars, twoBytes]

/-- **A NUL is not counted.** The only character is visited, and the loop goes on behind the string. -/
theorem nul_runs_on : DecodesUtf8 twoBytes ∧ characters twoBytes [0] = [([0], 0)] ∧ foreachString twoBytes [0] = none := by
  refine ⟨twoBytes_decodes, by simp [characters, twoBytes, number, advance], ?_⟩
  simp [foreachString, nextForeach, twoBytes, advance, window]

end Lithos.Lpc.Foreach
