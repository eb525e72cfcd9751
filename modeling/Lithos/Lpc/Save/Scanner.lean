/-
The sizing pass of `restore_svalue` (`restore_size`, `restore_internal_size`).

Before a saved container is parsed its text is scanned once. The scan of the outermost container returns its size; the
size of every container inside goes into the growing buffer `save_svalue_sizes`, at an index that is handed out when
the container opens (`save_svalue_depth++`) and written when it closes. The outermost scan steps over multibyte
characters with `mblen`, the inner one goes byte by byte.

The scanner's own failures are kept apart: the inner scan returns 0 (`Scan.fail`), the outer one -1 (`Sized.bad`) or,
at the end of the text inside a string, size 0; a read past the memory is a fault.
-/
import Lithos.Lpc.Save.Writer

namespace Lithos.Lpc.Save

open List

/-! ## The size buffer -/

/-- `save_svalue_depth` and `save_svalue_sizes`; no slots stands for the null pointer, their number is
`save_max_depth` -/
structure Sizes where
  depth : ℕ
  slots : List ℕ
deriving DecidableEq, Repr

/-- `while (cap <= depth) cap <<= 1` -/
def growCap : ℕ → ℕ → ℕ → ℕ
  | 0, cap, _ => cap
  | fuel + 1, cap, depth => if cap ≤ depth then growCap fuel (cap <<< 1) depth else cap

/-- make room for slot `depth` and write it; memory that `RESIZE` adds is taken as zero -/
def record (depth size : ℕ) (st : Sizes) : Sizes :=
  let slots :=
    if st.slots = [] then replicate (growCap (depth + 1) 128 depth) 0
    else if depth ≥ st.slots.length then
      st.slots ++ replicate (growCap (depth + 1) (st.slots.length <<< 1) depth - st.slots.length) 0
    else st.slots
  { st with slots := slots.set depth size }

/-! ## Model -/

/-- a search through the text -/
inductive Read where
  | ok (m : Mem)
  | fail
  | fault

/-- what follows the first `d` of the text: `strchr (cp, d) + 1` -/
def strchr (d : Byte) : Mem → Read
  | [] => .fault
  | c :: m => if c = d then .ok m else if c = nul then .fail else strchr d m

/-- to behind the closing quote, byte by byte -/
def skipString : Mem → Read
  | [] => .fault
  | c :: m =>
    if c = quote then .ok m
    else if c = nul then .fail
    else if c = backslash then
      match m with
      | [] => .fault
      | d :: m' => if d = nul then .fail else skipString m'
    else skipString m

/-- `mblen` in a UTF-8 locale: 0 for NUL, the length of the character that starts here, or failure -/
def mblen (m : Mem) : Option ℕ :=
  match m with
  | [] => none
  | c :: _ => if c = nul then some 0 else (ByteArray.utf8DecodeChar? (m.take 4).toByteArray 0).map Char.utf8Size

/-- outcome of a scan inside a container -/
inductive Scan where
  | ok (m : Mem) (st : Sizes)
  | fail (st : Sizes)
  | fault

/-- the delimiter that has to follow the next element -/
def delimOf (isMapping index : Bool) : Byte := if isMapping && !index then colon else comma

/-- `restore_internal_size` from inside its loop: `index` is set after a key, `size` elements have been seen -/
def restoreInternalSize : ℕ → Mem → Bool → Bool → ℕ → ℕ → Sizes → Scan
  | 0, _, _, _, _, _, _ => .fault
  | _ + 1, [], _, _, _, _, _ => .fault
  | fuel + 1, c :: m, isMapping, index, size, depth, st =>
    let delim := delimOf isMapping index
    let index' := if isMapping then !index else index
    if c = nul then .fail st
    else if c = quote then
      match skipString m with
      | .ok [] => .fault
      | .ok (e :: m') => if e = delim then restoreInternalSize fuel m' isMapping index' (size + 1) depth st else .fail st
      | .fail => .fail st
      | .fault => .fault
    else if c = lparen then
      match m with
      | [] => .fault
      | d :: m' =>
        if d = lbrace ∨ d = lbracket ∨ d = slash then
          match restoreInternalSize fuel m' (d == lbracket) false 0 st.depth { st with depth := st.depth + 1 } with
          | .ok [] _ => .fault
          | .ok (e :: m2) st2 =>
            if e = delim then restoreInternalSize fuel m2 isMapping index' (size + 1) depth st2 else .fail st2
          | .fail st2 => .fail st2
          | .fault => .fault
        else .fail st
    else if c = rbracket ∨ c = slash ∨ c = rbrace then
      match m with
      | [] => .fault
      | e :: m' => if e = rparen ∧ isMapping = decide (c = rbracket) then .ok m' (record depth size st) else .fail st
    else if c = colon ∨ c = comma then
      if c = delim then restoreInternalSize fuel m isMapping index' (size + 1) depth st else .fail st
    else
      match strchr delim m with
      | .ok m' => restoreInternalSize fuel m' isMapping index' (size + 1) depth st
      | .fail => .fail st
      | .fault => .fault

/-- outcome of stepping over a string with `mblen` -/
inductive ReadMb where
  | ok (m : Mem)
  | bad
  | ended
  | fault

/-- to behind the closing quote, character by character; the text can end inside the string -/
def skipStringMb : ℕ → Mem → ReadMb
  | 0, _ => .fault
  | _ + 1, [] => .fault
  | fuel + 1, c :: m =>
    if c = quote then .ok m
    else
      match mblen (c :: m) with
      | none => .bad
      | some span =>
        let m' := (c :: m).drop span
        if c = nul then .ended
        else if c = backslash then
          match m' with
          | [] => .fault
          | d :: m2 => if d = nul then .ended else skipStringMb fuel m2
        else skipStringMb fuel m'

/-- outcome of the outermost scan: the size (0 also when the text ends inside a string), or -1 -/
inductive Sized where
  | size (n : ℕ) (st : Sizes)
  | bad (st : Sizes)
  | fault

/-- `restore_size` from inside its loop -/
def restoreSize : ℕ → Mem → Bool → Bool → ℕ → Sizes → Sized
  | 0, _, _, _, _, _ => .fault
  | _ + 1, [], _, _, _, _ => .fault
  | fuel + 1, c :: m, isMapping, index, size, st =>
    let delim := delimOf isMapping index
    let index' := if isMapping then !index else index
    if c = nul then .bad st
    else
      match mblen (c :: m) with
      | none => .bad st
      | some span =>
        let m1 := (c :: m).drop span
        if c = quote then
          match skipStringMb (m1.length + 1) m1 with
          | .ok [] => .fault
          | .ok (e :: m2) => if e = delim then restoreSize fuel m2 isMapping index' (size + 1) st else .bad st
          | .bad => .bad st
          | .ended => .size 0 st
          | .fault => .fault
        else if c = lparen then
          match m1 with
          | [] => .fault
          | d :: m2 =>
            if d = lbrace ∨ d = lbracket ∨ d = slash then
              match restoreInternalSize (m2.length + 1) m2 (d == lbracket) false 0 st.depth
                  { st with depth := st.depth + 1 } with
              | .ok [] _ => .fault
              | .ok (e :: m3) st2 =>
                if e = delim then restoreSize fuel m3 isMapping index' (size + 1) st2 else .bad st2
              | .fail st2 => .bad st2
              | .fault => .fault
            else .bad st
        else if c = rbracket ∨ c = slash ∨ c = rbrace then
          match m1 with
          | [] => .fault
          | e :: _ =>
            if e = rparen ∧ isMapping = decide (c = rbracket) then .size size { st with depth := 0 }
            else .bad { st with depth := 0 }
        else if c = colon ∨ c = comma then
          if c = delim then restoreSize fuel m1 isMapping index' (size + 1) st else .bad st
        else
          match strchr delim m1 with
          | .ok m2 => restoreSize fuel m2 isMapping index' (size + 1) st
          | .fail => .bad st
          | .fault => .fault

/-! ## Recording -/

variable {fuel : ℕ} {cap : ℕ} {l : List ℕ} {t : List Byte}

theorem lt_growCap {depth : ℕ} (h : depth < cap * 2 ^ fuel) : depth < growCap fuel cap depth := by
  induction fuel generalizing cap with
  | zero => simpa [growCap] using h
  | succ fuel ih =>
    unfold growCap
    split_ifs with hcap
    · refine ih ?_
      rw [Nat.shiftLeft_eq, mul_assoc, ← pow_succ']
      exact h
    · omega

theorem lt_growCap_of_pos (h : 0 < cap) (depth : ℕ) : depth < growCap (depth + 1) cap depth := by
  refine lt_growCap ?_
  have h1 : depth + 1 < 2 ^ (depth + 1) := Nat.lt_two_pow_self
  have h2 : 2 ^ (depth + 1) ≤ cap * 2 ^ (depth + 1) := Nat.le_mul_of_pos_left _ h
  omega

/-- the slot just written, and every slot that was there before -/
theorem record_slots (depth size : ℕ) (st : Sizes) : (record depth size st).slots[depth]? = some size ∧
      ∀ (j n : ℕ), j ≠ depth → st.slots[j]? = some n → (record depth size st).slots[j]? = some n := by
  have key : ∀ slots : List ℕ, depth < slots.length → (∀ (j n : ℕ), st.slots[j]? = some n → slots[j]? = some n) →
      (slots.set depth size)[depth]? = some size ∧
        ∀ (j n : ℕ), j ≠ depth → st.slots[j]? = some n → (slots.set depth size)[j]? = some n := by
    intro slots hlen hold
    refine ⟨getElem?_set_self hlen, fun j n hj hn => ?_⟩
    rw [getElem?_set_ne (Ne.symm hj)]
    exact hold j n hn
  unfold record
  split_ifs with hnil hfull
  · refine key _ ?_ (fun j n hn => by simp [hnil] at hn)
    rw [length_replicate]
    exact lt_growCap_of_pos (by omega) depth
  · have hpos : 0 < st.slots.length := length_pos_iff.2 hnil
    have hcap : depth < growCap (depth + 1) (st.slots.length <<< 1) depth :=
      lt_growCap_of_pos (by omega) depth
    refine key _ ?_ (fun j n hn => ?_)
    · rw [List.length_append, List.length_replicate]; omega
    · obtain ⟨hj, -⟩ := List.getElem?_eq_some_iff.1 hn
      rw [List.getElem?_append_left hj]
      exact hn
  · exact key _ (by omega) fun j n hn => hn

/-- between `st` and `st'` the sizes `l` were recorded, in the order of the indices handed out -/
structure Recorded (st st' : Sizes) (l : List ℕ) : Prop where
  depth : st'.depth = st.depth + l.length
  new : ∀ (i n : ℕ), l[i]? = some n → st'.slots[st.depth + i]? = some n
  old : ∀ (j n : ℕ), j < st.depth → st.slots[j]? = some n → st'.slots[j]? = some n

theorem Recorded.refl (st : Sizes) : Recorded st st [] := ⟨rfl, by simp, fun _ _ _ h => h⟩

theorem Recorded.trans {a b c : Sizes} {l' : List ℕ} (h : Recorded a b l) (h' : Recorded b c l') :
    Recorded a c (l ++ l') := by
  refine ⟨?_, fun i n hn => ?_, fun j n hj hn => ?_⟩
  · rw [h'.depth, h.depth, length_append]; omega
  · rw [getElem?_append] at hn
    split_ifs at hn with hi
    · exact h'.old _ n (by rw [h.depth]; omega) (h.new i n hn)
    · have := h'.new _ n hn
      rwa [h.depth, show a.depth + l.length + (i - l.length) = a.depth + i by omega] at this
  · exact h'.old j n (by rw [h.depth]; omega) (h.old j n hj hn)

/-- a container: its index is handed out first, its size is written last -/
theorem Recorded.close {st st' : Sizes} {size : ℕ}
    (h : Recorded { st with depth := st.depth + 1 } st' l) : Recorded st (record st.depth size st') (size :: l) := by
  obtain ⟨hself, hother⟩ := record_slots st.depth size st'
  refine ⟨?_, fun i n hn => ?_, fun j n hj hn => ?_⟩
  · rw [record, h.depth, length_cons]; simp only; omega
  · cases i with
    | zero =>
      obtain rfl : size = n := by simpa using hn
      exact hself
    | succ i =>
      have := h.new i n (by simpa using hn)
      refine hother _ n (by omega) ?_
      rwa [show st.depth + (i + 1) = st.depth + 1 + i by omega]
  · exact hother j n (by omega) (h.old j n (by simp only; omega) hn)

/-! ## Scanning a text -/

/-- a text of no string or container: nothing in it stops the search for the next delimiter -/
structure Plain (t : List Byte) : Prop where
  ne_nil : t ≠ []
  head : ∀ c, t.head? = some c → c ≠ nul ∧ c ≠ quote ∧ c ≠ lparen ∧ c ≠ rbracket ∧ c ≠ slash ∧ c ≠ rbrace ∧
    c ≠ colon ∧ c ≠ comma
  ascii : ∀ c, t.head? = some c → c.toNat < 128
  rest : ∀ c ∈ t, c ≠ nul ∧ c ≠ comma ∧ c ≠ colon

theorem strchr_append {d : Byte} (h : ∀ c ∈ t, c ≠ d ∧ c ≠ nul) (m : Mem) : strchr d (t ++ d :: m) = .ok m := by
  induction t with
  | nil => simp [strchr]
  | cons c t ih =>
    obtain ⟨hd, hn⟩ := h c (by simp)
    rw [cons_append, strchr, if_neg hd, if_neg hn]
    exact ih fun x hx => h x (.tail _ hx)

variable {c : Byte} {s : List Byte} {ch : Char}

theorem mem_takeWhile_ne_nul : ∀ c ∈ s.takeWhile (· ≠ nul), c ≠ nul := by
  intro c hc
  simpa using (all_takeWhile) |> all_eq_true.1 |> fun h => h c hc

theorem delimOf_cases (isMapping index : Bool) : delimOf isMapping index = colon ∨ delimOf isMapping index = comma := by
  unfold delimOf
  split_ifs
  · exact .inl rfl
  · exact .inr rfl

/-- a delimiter starts nothing else -/
theorem delimOf_spec (isMapping index : Bool) : delimOf isMapping index ≠ nul ∧ (delimOf isMapping index).toNat < 128 ∧
    delimOf isMapping index ≠ quote ∧ delimOf isMapping index ≠ lparen ∧
    ¬(delimOf isMapping index = rbracket ∨ delimOf isMapping index = slash ∨ delimOf isMapping index = rbrace) ∧
    (delimOf isMapping index = colon ∨ delimOf isMapping index = comma) := by
  rcases delimOf_cases isMapping index with h | h <;> rw [h] <;> decide

/-- the value of `index` for the element after this one -/
def nextIndex (isMapping index : Bool) : Bool := if isMapping then !index else index

/-! ## Multibyte characters -/

/-- an ASCII character is one byte -/
theorem encode_low (h : ch.toNat < 128) : String.utf8EncodeChar ch = [UInt8.ofNat ch.toNat] := by
  have hv : ch.val.toNat ≤ 0x7f := by
    change ch.toNat ≤ 0x7f
    omega
  rw [String.utf8EncodeChar]
  simp only [if_pos hv]
  rfl

/-- every byte of another character is at least 128 -/
theorem encode_high (h : 128 ≤ ch.toNat) : ∀ c ∈ String.utf8EncodeChar ch, 128 ≤ c.toNat := by
  have hv : ¬ ch.val.toNat ≤ 0x7f := by
    change ¬ ch.toNat ≤ 0x7f
    omega
  rw [String.utf8EncodeChar]
  split_ifs <;> simp only [mem_cons, not_mem_nil, or_false] <;> rintro c hc
  · rcases hc with rfl | rfl <;> simp only [UInt8.toNat_ofNat'] <;> omega
  · rcases hc with rfl | rfl | rfl <;> simp only [UInt8.toNat_ofNat'] <;> omega
  · rcases hc with rfl | rfl | rfl | rfl <;> simp only [UInt8.toNat_ofNat'] <;> omega

/-- none of the bytes with a meaning in a string is one of those -/
theorem high_ne (h : 128 ≤ c.toNat) : c ≠ nul ∧ c ≠ quote ∧ c ≠ backslash ∧ c ≠ newline := by
  refine ⟨?_, ?_, ?_, ?_⟩ <;> rintro rfl <;> exact absurd h (by decide)

theorem mblen_char (ch : Char) (h : ch.toNat ≠ 0) (m : Mem) :
    mblen (String.utf8EncodeChar ch ++ m) = some ch.utf8Size := by
  have hlen : (String.utf8EncodeChar ch).length = ch.utf8Size := String.length_utf8EncodeChar ch
  have htake : (String.utf8EncodeChar ch ++ m).take 4 = String.utf8EncodeChar ch ++ m.take (4 - ch.utf8Size) := by
    rw [take_append, hlen, take_of_length_le (by rw [hlen]; exact ch.utf8Size_le_four)]
  have hdec : ByteArray.utf8DecodeChar? ((String.utf8EncodeChar ch ++ m).take 4).toByteArray 0 = some ch := by
    rw [htake, toByteArray_append]
    exact ByteArray.utf8DecodeChar?_utf8EncodeChar_append
  obtain ⟨c, t, henc⟩ := exists_cons_of_ne_nil (String.utf8EncodeChar_ne_nil (c := ch))
  have hc : c ≠ nul := by
    by_cases hlow : ch.toNat < 128
    · rw [encode_low hlow] at henc
      cases henc
      intro h0
      have := congrArg UInt8.toNat h0
      change ch.toNat % 256 = 0 at this
      omega
    · exact (high_ne (encode_high (not_lt.1 hlow) c (by rw [henc]; simp))).1
  rw [henc, cons_append] at hdec ⊢
  rw [mblen]
  simp only [if_neg hc, hdec, Option.map_some]

theorem toNat_ofNat_ascii : ∀ n < 128, (Char.ofNat n).toNat = n := by decide

theorem mblen_ascii (h0 : c ≠ nul) (h : c.toNat < 128) (m : Mem) : mblen (c :: m) = some 1 := by
  have hch : (Char.ofNat c.toNat).toNat = c.toNat := toNat_ofNat_ascii c.toNat h
  have hne : (Char.ofNat c.toNat).toNat ≠ 0 := by
    rw [hch]
    intro hz
    exact h0 (UInt8.toNat_inj.1 hz)
  have := mblen_char _ hne m
  rw [encode_low (by omega), hch] at this
  have hsize : (Char.ofNat c.toNat).utf8Size = 1 := by
    rw [← String.length_utf8EncodeChar, encode_low (by omega)]
    rfl
  rw [hsize] at this
  simpa using this

/-- a byte string that is the UTF-8 encoding of some characters -/
def ValidUtf8 (s : List Byte) : Prop := ∃ l : List Char, s = l.flatMap String.utf8EncodeChar

/-- the C string in a counted string: up to the first NUL -/
def cstr (s : List Byte) : List Byte := s.takeWhile (· ≠ nul)

theorem saveChar_high (h : 128 ≤ c.toNat) : saveChar c = [c] := by
  obtain ⟨-, hq, hb, hn⟩ := high_ne h
  rw [saveChar, if_neg (not_or.2 ⟨hq, hb⟩), if_neg hn]

theorem flatMap_saveChar_high (h : ∀ c ∈ t, 128 ≤ c.toNat) : t.flatMap saveChar = t := by
  induction t with
  | nil => rfl
  | cons c t ih =>
    rw [flatMap_cons, saveChar_high (h c (by simp)), ih fun x hx => h x (.tail _ hx)]
    rfl

/-- one step of the character loop: an ASCII byte that is neither a quote nor a backslash -/
theorem skipStringMb_ascii (h0 : c ≠ nul) (hc : c.toNat < 128) (h1 : c ≠ quote)
    (h2 : c ≠ backslash) (m : Mem) : skipStringMb (fuel + 1) (c :: m) = skipStringMb fuel m := by
  rw [skipStringMb.eq_def]
  dsimp only
  rw [if_neg h1, mblen_ascii h0 hc]
  simp only [if_neg h0, if_neg h2, drop_one, tail_cons]

theorem skipStringMb_escape (h0 : c ≠ nul) (m : Mem) :
    skipStringMb (fuel + 1) (backslash :: c :: m) = skipStringMb fuel m := by
  rw [skipStringMb.eq_def]
  dsimp only
  rw [if_neg (by decide), mblen_ascii (by decide) (by decide)]
  simp only [drop_one, tail_cons, if_neg (show backslash ≠ nul by decide), if_true, if_neg h0]

theorem skipStringMb_wide (h : 128 ≤ ch.toNat) (m : Mem) :
    skipStringMb (fuel + 1) (String.utf8EncodeChar ch ++ m) = skipStringMb fuel m := by
  have hmb := mblen_char ch (by omega) m
  have hdrop : (String.utf8EncodeChar ch ++ m).drop ch.utf8Size = m := by
    rw [← String.length_utf8EncodeChar, drop_left]
  obtain ⟨c, t, henc⟩ := exists_cons_of_ne_nil (String.utf8EncodeChar_ne_nil (c := ch))
  obtain ⟨h0, h1, h2, -⟩ := high_ne (encode_high h c (by rw [henc]; simp))
  rw [henc, cons_append] at hmb hdrop
  rw [henc, cons_append, skipStringMb.eq_def]
  dsimp only
  rw [if_neg h1, hmb]
  simp only [if_neg h0, if_neg h2, hdrop]

theorem skipStringMb_quote (m : Mem) : skipStringMb (fuel + 1) (quote :: m) = .ok m := by
  rw [skipStringMb.eq_def]
  dsimp only
  rw [if_pos rfl]

theorem skipStringMb_body {l : List Char} (h : ∀ ch ∈ l, ch.toNat ≠ 0) (m : Mem)
    (hf : ((l.flatMap String.utf8EncodeChar).flatMap saveChar ++ quote :: m).length < fuel) :
    skipStringMb fuel ((l.flatMap String.utf8EncodeChar).flatMap saveChar ++ quote :: m) = .ok m := by
  induction l generalizing fuel with
  | nil =>
    obtain _ | f := fuel
    · omega
    exact skipStringMb_quote m
  | cons ch l ih =>
    obtain _ | f := fuel
    · omega
    have ih' : _ < f → _ := ih fun x hx => h x (.tail _ hx)
    rw [flatMap_cons, flatMap_append, append_assoc] at hf ⊢
    have hne := h ch (by simp)
    by_cases hlow : ch.toNat < 128
    · have hc : (UInt8.ofNat ch.toNat).toNat = ch.toNat := by
        rw [UInt8.toNat_ofNat']
        omega
      have h0 : UInt8.ofNat ch.toNat ≠ nul := by
        intro hz
        rw [hz] at hc
        exact hne hc.symm
      rw [encode_low hlow, flatMap_singleton, saveChar] at hf ⊢
      split_ifs at hf ⊢ with hq hn
      · refine (skipStringMb_escape h0 _).trans (ih' ?_)
        simp only [cons_append, nil_append, length_cons] at hf
        omega
      · refine (skipStringMb_ascii (by decide) (by decide) (by decide) (by decide) _).trans (ih' ?_)
        simpa using hf
      · obtain ⟨hq1, hq2⟩ := not_or.1 hq
        refine (skipStringMb_ascii h0 (by omega) hq1 hq2 _).trans (ih' ?_)
        simpa using hf
    · rw [flatMap_saveChar_high (encode_high (by omega))] at hf ⊢
      rw [skipStringMb_wide (by omega)]
      refine ih' ?_
      have := ch.utf8Size_pos
      rw [length_append, String.length_utf8EncodeChar] at hf
      omega

end Lithos.Lpc.Save
