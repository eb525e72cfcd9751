/-
The elements of a saved text, whoever wrote it, and what the parser makes of them.

A numeral is what `parse_numeric` reads up to its last byte. `Node.read` is the value of an element, by recursion on the
element: it knows no memory and no sizes. Where text stands between a numeral and its delimiter the parser loses step with
the elements, and `Node.read` says so with a fault.

Results:
- `reads`: wherever an element is due the parser, run on the text of an element with the sizes the sizing pass has
  recorded for it, does what `Node.read` says, consumes the text and the delimiter, and takes the sizes in order, unless
  it loses step.
- `read_verdict`: only a readable element has a value, and nothing but an LPC error can keep it from having one; the
  parser loses step only at a numeral with text behind it that comes before anything unreadable.
-/
import Lithos.Lpc.Save.Parser
import Lithos.Lpc.Save.Syntax

namespace Lithos.Lpc.Save

open List Except

open Lithos.Lpc.Mapping (MappingT allocateMapping)

/-! ## Numerals -/

def Digits (l : List Byte) : Prop := ∀ c ∈ l, isDigit c = true

inductive Fraction : List Byte → Prop where
  | none : Fraction []
  | some {ds : List Byte} : Digits ds → ds ≠ [] → Fraction (dot :: ds)

inductive Exponent : List Byte → Prop where
  | none : Exponent []
  | some {s : Byte} {ds : List Byte} : s = plus ∨ s = minus → Digits ds → Exponent (letterE :: s :: ds)

/-- the digits, fraction and exponent of a numeral that ends where `x` follows -/
structure Unsigned (t : List Byte) (x : Byte) : Prop where
  parts : ∃ ds frac expo, t = ds ++ frac ++ expo ∧ ds ≠ [] ∧ Digits ds ∧ Fraction frac ∧ Exponent expo ∧
    (expo = [] → x ≠ letterE) ∧ (frac = [] → expo = [] → x ≠ dot)
  stop : isDigit x = false

/-- a numeral, read up to where `x` follows -/
def NumeralThen (t : List Byte) (x : Byte) : Prop := Unsigned t x ∨ ∃ t', t = minus :: t' ∧ Unsigned t' x

/-- a numeral as the whole text of an element -/
def Numeral (t : List Byte) : Prop := NumeralThen t nul

variable {ds : List Byte} {x c d : Byte} {m : Mem} {α β : Type}

@[simp] theorem bind_ok (a : α) (f : α → Except Fail β) : (ok a >>= f) = f a := rfl

@[simp] theorem bind_error (e : Fail) (f : α → Except Fail β) : (error e >>= f) = .error e := rfl

@[simp] theorem next_cons (c : Byte) (m : Mem) : next (c :: m) = .ok (c, m) := rfl

theorem digit_ne_minus (h : isDigit c = true) : c ≠ minus := by
  rintro rfl
  cases h

/-- the bytes of a numeral -/
def NumeralByte (c : Byte) : Prop := isDigit c = true ∨ c = minus ∨ c = plus ∨ c = dot ∨ c = letterE

/-- what ends an element -/
def Delim (d : Byte) : Prop := d = comma ∨ d = colon ∨ d = nul

theorem Delim.ne (hd : Delim d) (hc : NumeralByte c) : d ≠ c := by
  rintro rfl
  unfold NumeralByte at hc
  rcases hd with rfl | rfl | rfl <;> exact absurd hc (by decide)

/-- the digits that stand first -/
theorem digits_split (hd : Delim d) (h : d ∈ m) :
    ∃ ds x m', Digits ds ∧ isDigit x = false ∧ d ∈ x :: m' ∧ m = ds ++ x :: m' := by
  induction m with
  | nil => cases h
  | cons c m ih =>
    by_cases hc : isDigit c = true
    · obtain ⟨ds, x, m', hds, hx, hmem, rfl⟩ := ih (mem_of_ne_of_mem (hd.ne (.inl hc)) h)
      exact ⟨c :: ds, x, m', forall_mem_cons.2 ⟨hc, hds⟩, hx, hmem, rfl⟩
    · exact ⟨[], c, m, nofun, by simpa using hc, h, rfl⟩

theorem readInt_digits (h : Digits ds) (hx : isDigit x = false) (acc : Int32) (m : Mem) :
    readInt acc (ds ++ x :: m) = .ok (ds.foldl (fun acc c => acc * 10 + digitVal c) acc, x, m) := by
  induction ds generalizing acc with
  | nil => simp [readInt, hx]
  | cons c ds ih =>
    rw [cons_append, readInt, if_pos (h c (by simp)), ih fun x hx => h x (.tail _ hx)]
    rfl

theorem readFraction_digits (h : Digits ds) (hx : isDigit x = false) :
    ∃ l, ∀ m, readFraction (ds ++ x :: m) = .ok (l, x, m) := by
  induction ds with
  | nil => exact ⟨[], fun m => by simp [readFraction, hx]⟩
  | cons c ds ih =>
    obtain ⟨l, hl⟩ := ih fun y hy => h y (.tail _ hy)
    refine ⟨(c.toNat - 48) :: l, fun m => ?_⟩
    rw [cons_append, readFraction, if_pos (h c (.head _)), hl]

theorem readExponent_digits {s : Byte} (hs : s = plus ∨ s = minus) (h : Digits ds) (hx : isDigit x = false) :
    ∃ e, ∀ m, readExponent (s :: (ds ++ x :: m)) = .ok (e, m) := by
  refine ⟨(s == minus, ds.foldl (fun acc c => acc * 10 + digitVal c) 0), fun m => ?_⟩
  simp only [readExponent, next_cons, bind_ok, if_pos hs, readInt_digits h hx]

/-- an exponent stands next, or none does, or it has no sign -/
theorem exponent_split (hd : Delim d) (hx : isDigit x = false) (h : d ∈ x :: m) :
    (x = letterE ∧ readExponent m = .error (.rob .numeral)) ∨
    ∃ expo y m', Exponent expo ∧ isDigit y = false ∧ (expo = [] → y ≠ letterE ∧ y = x) ∧ x :: m = expo ++ y :: m' := by
  by_cases hexp : x = letterE
  · have hm := mem_of_ne_of_mem (hd.ne (by simp [NumeralByte, hexp])) h
    cases m with
    | nil => cases hm
    | cons s m =>
      by_cases hs : s = plus ∨ s = minus
      · obtain ⟨ds, y, m', hds, hy, -, rfl⟩ := digits_split hd (mem_of_ne_of_mem (hd.ne (.inr (by tauto))) hm)
        exact .inr ⟨letterE :: s :: ds, y, m', .some hs hds, hy, nofun, by rw [hexp]; rfl⟩
      · refine .inl ⟨hexp, ?_⟩
        simp only [readExponent, next_cons, bind_ok, if_neg hs]
  · exact .inr ⟨[], x, m, .none, hx, fun _ => ⟨hexp, rfl⟩, rfl⟩

variable {ρ : Type} [Double ρ]

theorem parseDigits_reads (neg : Bool) {t : List Byte} (h : Unsigned (c :: t) x) :
    ∃ w : Svalue ρ, ∀ m, parseDigits neg c (t ++ x :: m) = .ok (w, m) := by
  obtain ⟨⟨ds, frac, expo, ht, hne, hd, hf, he, hxe, hxd⟩, hx⟩ := h
  cases ds with
  | nil => exact absurd rfl hne
  | cons c' ds =>
    rw [cons_append, cons_append] at ht
    cases ht
    have hds : Digits ds := fun y hy => hd y (.tail _ hy)
    unfold parseDigits
    simp only [append_assoc]
    cases hf with
    | none =>
      cases he with
      | none =>
        simp only [nil_append, readInt_digits hds hx, bind_ok, if_neg (hxd rfl rfl), if_neg (hxe rfl)]
        exact ⟨_, fun _ => rfl⟩
      | @some s es hs hed =>
        obtain ⟨e, hexp⟩ := readExponent_digits hs hed hx
        simp only [nil_append, cons_append, readInt_digits hds (show isDigit letterE = false by decide), bind_ok,
          if_neg (by decide : ¬ letterE = dot), if_true, hexp]
        exact ⟨_, fun _ => rfl⟩
    | @some fs hfd hfne =>
      obtain ⟨f, fs, rfl⟩ := exists_cons_of_ne_nil hfne
      simp only [cons_append, readInt_digits hds (show isDigit dot = false by decide), bind_ok, if_true, next_cons,
        hfd f (.head _), Bool.not_true, Bool.false_eq_true, if_false]
      simp only [← cons_append]
      cases he with
      | none =>
        obtain ⟨l, hl⟩ := readFraction_digits hfd hx
        simp only [nil_append, hl, bind_ok, if_neg (hxe rfl)]
        exact ⟨_, fun _ => rfl⟩
      | @some s es hs hed =>
        obtain ⟨e, hexp⟩ := readExponent_digits hs hed hx
        obtain ⟨l, hl⟩ := readFraction_digits hfd (x := letterE) (by decide)
        simp only [cons_append] at hl ⊢
        simp only [hl, bind_ok, if_true, hexp]
        exact ⟨_, fun _ => rfl⟩

theorem parseDigits_spec (neg : Bool) (hc : isDigit c = true) (hd : Delim d) (h : d ∈ m) :
    parseDigits (ρ := ρ) neg c m = .error (.rob .numeral) ∨
    ∃ (w : Svalue ρ) (t : List Byte) (x : Byte) (m' : Mem), parseDigits neg c m = .ok (w, m') ∧ c :: m = t ++ x :: m' ∧
      Unsigned t x := by
  obtain ⟨ds, x, m1, hds, hx, hm1, rfl⟩ := digits_split hd h
  have hcd : Digits (c :: ds) := forall_mem_cons.2 ⟨hc, hds⟩
  -- it is enough to find the parts of the numeral
  suffices key : parseDigits (ρ := ρ) neg c (ds ++ x :: m1) = .error (.rob .numeral) ∨
      ∃ t y m', ds ++ x :: m1 = t ++ y :: m' ∧ Unsigned (c :: t) y by
    refine key.imp_right fun ⟨t, y, m', hm, hu⟩ => ?_
    obtain ⟨w, hw⟩ := parseDigits_reads (ρ := ρ) neg hu
    exact ⟨w, c :: t, y, m', hm ▸ hw m', by rw [hm]; rfl, hu⟩
  unfold parseDigits
  simp only [readInt_digits hds hx, bind_ok]
  by_cases hdot : x = dot
  · have hm2 := mem_of_ne_of_mem (hd.ne (by simp [NumeralByte, hdot])) hm1
    cases m1 with
    | nil => cases hm2
    | cons e m2 =>
      simp only [if_pos hdot, next_cons, bind_ok]
      by_cases hdd : isDigit e = true
      · rw [if_neg (by simp [hdd])]
        obtain ⟨fs, y, m3, hfd, hy, hm3, hm⟩ := digits_split hd hm2
        obtain ⟨l, hf⟩ := readFraction_digits hfd hy
        have hfs : fs ≠ [] := by
          rintro rfl
          cases hm
          rw [hdd] at hy
          cases hy
        rw [hm, hf, hdot]
        rcases exponent_split hd hy hm3 with ⟨rfl, he⟩ | ⟨expo, z, m4, hexpo, hz, hend, hrest⟩
        · exact .inl (by simp only [bind_ok, if_true, he]; rfl)
        · exact .inr ⟨ds ++ dot :: fs ++ expo, z, m4, by simp [hrest], ⟨c :: ds, dot :: fs, expo, rfl, by simp, hcd,
            .some hfd hfs, hexpo, fun h => (hend h).1, by simp⟩, hz⟩
      · exact .inl (by rw [if_pos (by simpa using hdd)])
  · rw [if_neg hdot]
    rcases exponent_split hd hx hm1 with ⟨rfl, he⟩ | ⟨expo, z, m4, hexpo, hz, hend, hrest⟩
    · exact .inl (by rw [if_pos rfl, he]; rfl)
    · exact .inr ⟨ds ++ expo, z, m4, by rw [hrest, append_assoc], ⟨c :: ds, [], expo, by simp, by simp, hcd, .none,
        hexpo, fun h => (hend h).1, fun _ h => (hend h).2 ▸ hdot⟩, hz⟩

/-- **What a numeral is read from**: the longest numeral there, and the byte behind it. -/
theorem parseNumeric_spec (hc : c = minus ∨ isDigit c = true) (hd : Delim d) (h : d ∈ m) :
    parseNumeric (ρ := ρ) c m = .error (.rob .numeral) ∨
    ∃ (w : Svalue ρ) (t : List Byte) (x : Byte) (m' : Mem), parseNumeric c m = .ok (w, m') ∧ c :: m = t ++ x :: m' ∧
      NumeralThen t x := by
  unfold parseNumeric
  rcases hc with rfl | hc
  · cases m with
    | nil => cases h
    | cons e m =>
      simp only [beq_self_eq_true, firstDigit, if_true, next_cons, bind_ok, Bool.true_and]
      by_cases he : isDigit e = true
      · rw [if_neg (by simp [he])]
        rcases parseDigits_spec (ρ := ρ) true he hd (mem_of_ne_of_mem (hd.ne (.inl he)) h) with
          he | ⟨w, t, x, m', hw, hm, hu⟩
        · exact .inl he
        · exact .inr ⟨w, minus :: t, x, m', hw, by rw [hm]; rfl, .inr ⟨t, rfl, hu⟩⟩
      · exact .inl (by rw [if_pos (by simpa using he)])
  · have hneg : (c == minus) = false := by simpa using digit_ne_minus hc
    simp only [hneg, firstDigit, Bool.false_eq_true, if_false, bind_ok, Bool.false_and]
    rcases parseDigits_spec (ρ := ρ) false hc hd h with he | ⟨w, t, x, m', hw, hm, hu⟩
    · exact .inl he
    · exact .inr ⟨w, t, x, m', hw, hm, .inl hu⟩

theorem Unsigned.head {t : List Byte} (h : Unsigned (c :: t) x) : isDigit c = true := by
  obtain ⟨⟨ds, frac, expo, ht, hne, hd, -⟩, -⟩ := h
  cases ds with
  | nil => exact absurd rfl hne
  | cons d ds =>
    cases ht
    exact hd c (.head _)

/-- a numeral is read up to the byte behind it -/
theorem parseNumeric_reads {t : List Byte} (h : NumeralThen (c :: t) x) :
    ∃ w : Svalue ρ, ∀ m, parseNumeric c (t ++ x :: m) = .ok (w, m) := by
  unfold parseNumeric
  rcases h with h | ⟨t', ht, h⟩
  · have hneg : (c == minus) = false := by simpa using digit_ne_minus h.head
    simp only [hneg, firstDigit, Bool.false_eq_true, if_false, bind_ok, Bool.false_and]
    exact parseDigits_reads false h
  · cases ht
    cases t with
    | nil =>
      obtain ⟨⟨ds, frac, expo, ht, hne, -⟩, -⟩ := h
      simp only [nil_eq, append_eq_nil_iff] at ht
      exact absurd ht.1.1 hne
    | cons d s =>
      simp only [beq_self_eq_true, firstDigit, if_true, cons_append, next_cons, bind_ok, h.head, Bool.not_true,
        Bool.and_false, Bool.false_eq_true, if_false]
      exact parseDigits_reads true h

variable {t : List Byte}

theorem numeral_bytes (h : NumeralThen t x) : ∀ y ∈ t, NumeralByte y := by
  have key : ∀ t, Unsigned t x → ∀ y ∈ t, NumeralByte y := by
    rintro t ⟨⟨ds, frac, expo, rfl, -, hd, hf, he, -⟩, -⟩
    refine forall_mem_append.2 ⟨forall_mem_append.2 ⟨fun y hy => .inl (hd y hy), ?_⟩, ?_⟩
    · cases hf with
      | none => exact nofun
      | some hfd _ => exact forall_mem_cons.2 ⟨by simp [NumeralByte], fun y hy => .inl (hfd y hy)⟩
    · cases he with
      | none => exact nofun
      | some hs hed =>
        refine forall_mem_cons.2 ⟨by simp [NumeralByte], forall_mem_cons.2 ⟨?_, fun y hy => .inl (hed y hy)⟩⟩
        rcases hs with rfl | rfl <;> simp [NumeralByte]
  rcases h with h | ⟨t', rfl, h⟩
  · exact key t h
  · exact forall_mem_cons.2 ⟨by simp [NumeralByte], key t' h⟩

/-- a numeral may be followed by any delimiter -/
theorem NumeralThen.then {y : Byte} (h : NumeralThen t y) (hx : Delim x) : NumeralThen t x := by
  have hstop : isDigit x = false ∧ x ≠ letterE ∧ x ≠ dot := by
    rcases hx with rfl | rfl | rfl <;> exact ⟨by decide, by decide, by decide⟩
  have key : ∀ t, Unsigned t y → Unsigned t x := by
    rintro t ⟨⟨ds, frac, expo, ht, hne, hd, hf, he, -⟩, -⟩
    exact ⟨⟨ds, frac, expo, ht, hne, hd, hf, he, fun _ => hstop.2.1, fun _ _ => hstop.2.2⟩, hstop.1⟩
  rcases h with h | ⟨t', rfl, h⟩
  · exact .inl (key t h)
  · exact .inr ⟨t', rfl, key t' h⟩

theorem NumeralThen.numeral (h : NumeralThen t x) : Numeral t := h.then (.inr (.inr rfl))

/-- the text goes on behind its longest numeral -/
def Overruns (t : List Byte) : Prop := ∃ num x r, t = num ++ x :: r ∧ NumeralThen num x

theorem numeral_head (h : NumeralThen (c :: t) x) : c = minus ∨ isDigit c = true := by
  rcases h with h | ⟨t', ht, -⟩
  · exact .inr h.head
  · exact .inl (cons.inj ht).1

theorem NumeralThen.ne_nil (h : NumeralThen t x) : t ≠ [] := by
  rcases h with ⟨⟨ds, frac, expo, rfl, hne, -⟩, -⟩ | ⟨t', rfl, -⟩
  · simp [hne]
  · simp

theorem Numeral.not_overruns (ρ : Type) [Double ρ] (h : Numeral t) : ¬ Overruns t := by
  rintro ⟨num, x, r, rfl, hnum⟩
  obtain ⟨c, num, rfl⟩ := exists_cons_of_ne_nil hnum.ne_nil
  obtain ⟨w, hw⟩ := parseNumeric_reads (ρ := ρ) hnum
  obtain ⟨w', hw'⟩ := parseNumeric_reads (ρ := ρ) (t := num ++ x :: r) h
  have heq := hw' []
  rw [append_assoc, cons_append, hw (r ++ [nul])] at heq
  simp at heq

/-- what follows a part of the text without its end is the rest of the text -/
theorem rest_of_text {a m r : List Byte} (ha : d ∉ a) (h : t ++ d :: r = a ++ m) :
    ∃ tail, t = a ++ tail ∧ m = tail ++ d :: r := by
  rcases append_eq_append_iff.1 h with ⟨e, rfl, he⟩ | ⟨e, rfl, he⟩
  · cases e with
    | nil => exact ⟨[], by simp, by simpa using he.symm⟩
    | cons x e =>
      cases he
      exact absurd (by simp) ha
  · exact ⟨e, rfl, he⟩

/-- a numeral read from `t` and a delimiter that does not occur in `t` ends at the delimiter or overruns -/
theorem numeral_cut {num : List Byte} {rest : Mem} (hnum : NumeralThen num x) (hd : Delim d)
    (h : num ++ x :: m = t ++ d :: rest) : (num = t ∧ m = rest) ∨ Overruns t := by
  obtain ⟨tail, rfl, hm⟩ := rest_of_text (fun hmem => hd.ne (numeral_bytes hnum d hmem) rfl) h.symm
  cases tail with
  | nil =>
    cases hm
    exact .inl ⟨by simp, rfl⟩
  | cons y tail =>
    cases hm
    exact .inr ⟨num, x, tail, rfl, hnum⟩

/-! ## Conditions on all elements -/

mutual

/-- the element and everything in it satisfies `P` -/
def Node.All (P : Node → Prop) : Node → Prop
  | .group o c l => P (.group o c l) ∧ Node.AllIn P l
  | .missing => P .missing
  | .quoted raw => P (.quoted raw)
  | .plain t => P (.plain t)

def Node.AllIn (P : Node → Prop) : List Node → Prop
  | [] => True
  | n :: l => n.All P ∧ Node.AllIn P l

end

open Node

theorem Node.allIn_iff {P : Node → Prop} {l : List Node} : Node.AllIn P l ↔ ∀ n ∈ l, n.All P := by
  induction l with
  | nil => simp [Node.AllIn]
  | cons n l ih => rw [Node.AllIn, forall_mem_cons, ih]

/-- what the parser accepts: plain elements are numerals, mappings have a value for every key -/
def Node.Readable : Node → Prop := Node.All fun n =>
  match n with
  | .plain t => Numeral t
  | .group o _ l => o = lbracket → Even l.length
  | _ => True

/-- every bracket is closed by its own kind -/
def Node.Closed : Node → Prop := Node.All fun n =>
  match n with
  | .group o c _ => Matches o c
  | _ => True

mutual

/-- read in order, the element comes to a numeral with text behind it before anything that is not readable -/
def Node.Lost : Node → Prop
  | .missing => False
  | .quoted _ => False
  | .plain t => Overruns t
  | .group _ _ l => LostIn l

def LostIn : List Node → Prop
  | [] => False
  | n :: l => n.Lost ∨ n.Readable ∧ LostIn l

end

/-! ## The value of an element -/

/-- an LPC error, as opposed to an error code or a read outside memory -/
def Fail.IsLpcError : Fail → Prop
  | .illegalArraySize => True
  | .raised _ => True
  | .rob _ => False
  | .fault => False

variable (env : Env) {good good' lost lost' : Prop} {n : Node} {l : List Node} {p : Place} {o : Byte} {st : St}

/-- read one element, its first character included -/
def readElement (nested : Nested ρ) (p : Place) (m : Mem) (st : St) : Except Fail (Parsed (Svalue ρ)) := do
  let (c, m) ← next m
  restoreElement env nested p c m st

/-- the value of an element that holds no others: what is read from it and its delimiter alone, if they are read to the
end -/
def Node.leaf (n : Node) (p : Place) : Except Fail (Svalue ρ) :=
  readElement env (fun _ _ _ => .error .fault) p (n.render ++ [p.delim]) ⟨⟨0, []⟩, 0⟩ >>= fun r =>
    if r.mem.isEmpty then .ok r.val else .error .fault

mutual

/-- the value of an element; `allocs` counts the containers allocated as keys -/
def Node.read : Node → Place → ℕ → Except Fail (Svalue ρ × ℕ)
  | .missing, p, allocs => (Node.missing.leaf env p).map (·, allocs)
  | .quoted raw, p, allocs => ((Node.quoted raw).leaf env p).map (·, allocs)
  | .plain t, p, allocs => ((Node.plain t).leaf env p).map (·, allocs)
  | .group o _ l, _, allocs =>
    if o = lbracket then
      if l.isEmpty then .ok (.mapping [], allocs)
      else (readPairs l (allocateMapping env.cfg (l.length / 2)) allocs).map fun r => (.mapping (walk r.1), r.2)
    else if o = lbrace then
      if l.length > env.cfg.maxArraySize then .error .illegalArraySize
      else (readItems l .array allocs).map fun r => (.array r.1, r.2)
    else (readItems l .class_ allocs).map fun r => (.class_ r.1, r.2)

def readItems : List Node → Place → ℕ → Except Fail (List (Svalue ρ) × ℕ)
  | [], _, allocs => .ok ([], allocs)
  | n :: l, p, allocs => n.read p allocs >>= fun r => (readItems l p r.2).map fun rs => (r.1 :: rs.1, rs.2)

/-- keys and values in turn; behind a last key the closing bracket stands where the value is due -/
def readPairs : List Node → MappingT (RKey ρ) (Svalue ρ) → ℕ → Except Fail (MappingT (RKey ρ) (Svalue ρ) × ℕ)
  | [], t, allocs => .ok (t, allocs)
  | [k], _, allocs => k.read .key allocs >>= fun _ => .error (.rob .mapping)
  | k :: v :: l, t, allocs => k.read .key allocs >>= fun rk => v.read .value rk.2 >>= fun rv =>
    match Mapping.insert env.cfg (.number 0) false t ⟨(keyWord env rv.2 rk.1).1, rk.1⟩ (some rv.1) with
    | .error e => .error (.raised e)
    | .ok t' => readPairs l t' (keyWord env rv.2 rk.1).2

end

variable {env}

/-- a value only if `good`, or an error: a read that loses step only if `lost`, and if `good` an LPC error -/
def Verdict (good lost : Prop) : Except Fail α → Prop
  | .ok _ => good
  | .error e => (e = .fault → lost) ∧ (good → e.IsLpcError)

theorem Verdict.imp {x : Except Fail α} (h : Verdict good lost x) (hlost : lost → lost') : Verdict good lost' x := by
  cases x with
  | error e => exact ⟨fun he => hlost (h.1 he), h.2⟩
  | ok r => exact h

theorem Verdict.map {x : Except Fail α} (h : Verdict good lost x) (f : α → β) (hgood : good ↔ good')
    (hlost : lost → lost') : Verdict good' lost' (x.map f) := by
  cases x with
  | error e => exact ⟨fun he => hlost (h.1 he), fun hg => h.2 (hgood.2 hg)⟩
  | ok r => exact hgood.1 h

theorem Verdict.bind {x : Except Fail α} (h : Verdict good lost x) {f : α → Except Fail β} (hgood : good' → good)
    (hlost : lost → lost') (hf : ∀ r, good → Verdict good' lost' (f r)) : Verdict good' lost' (x >>= f) := by
  cases x with
  | error e => exact ⟨fun he => hlost (h.1 he), fun hg => h.2 (hgood hg)⟩
  | ok r => exact hf r h

/-! ## Elements without elements in them -/

theorem unquote_cons (h1 : c ≠ quote) (h2 : c ≠ nul) (h3 : c ≠ backslash) (m : Mem) :
    unquoteAndUnescapeString (c :: m) = (unquoteAndUnescapeString m).map fun r => (unCr c :: r.1, r.2) := by
  rw [unquoteAndUnescapeString.eq_def]
  simp only [if_neg h1, if_neg h2, if_neg h3]

theorem unquote_escaped {raw : List Byte} (h : Escaped raw) :
    ∃ s, ∀ m, unquoteAndUnescapeString (raw ++ quote :: m) = .ok (s, m) := by
  induction h with
  | nil =>
    refine ⟨[], fun m => ?_⟩
    rw [unquoteAndUnescapeString.eq_def]
    simp
  | @char c r h1 h2 h3 _ ih =>
    obtain ⟨s, hs⟩ := ih
    refine ⟨unCr c :: s, fun m => ?_⟩
    rw [cons_append, unquote_cons h1 h2 h3, hs]
    rfl
  | @escape d r hd _ ih =>
    obtain ⟨s, hs⟩ := ih
    refine ⟨unCr d :: s, fun m => ?_⟩
    rw [cons_append, cons_append, unquoteAndUnescapeString, if_neg (by decide), if_neg (by decide), if_pos rfl,
      if_neg hd, hs]
    rfl

theorem delim_ne (p : Place) : p.delim ≠ quote ∧ p.delim ≠ lparen ∧ Delim p.delim := by
  unfold Delim
  cases p <;> exact ⟨by decide, by decide, by decide⟩

/-- a text that starts like a number is read up to its end, or is no numeral, or goes on behind one -/
theorem parseNumeric_cases (hc : c = minus ∨ isDigit c = true) (hd : Delim d) :
    (∃ x : Except Fail (Svalue ρ), Verdict (Numeral (c :: t)) False x ∧
      ∀ rest, parseNumeric c (t ++ d :: rest) = x.map (·, rest)) ∨
    Overruns (c :: t) ∧ ∃ (w : Svalue ρ) (m : Mem), m ≠ [] ∧ parseNumeric c (t ++ [d]) = .ok (w, m) := by
  by_cases hover : Overruns (c :: t)
  · obtain ⟨num, x, r, heq, hnum⟩ := hover
    obtain ⟨c', num, rfl⟩ := exists_cons_of_ne_nil hnum.ne_nil
    obtain ⟨rfl, rfl⟩ := cons.inj heq
    obtain ⟨w, hw⟩ := parseNumeric_reads (ρ := ρ) hnum
    refine .inr ⟨⟨_, x, r, heq, hnum⟩, w, r ++ [d], by simp, ?_⟩
    show parseNumeric c (num ++ x :: r ++ [d]) = _
    rw [append_assoc, cons_append, hw]
  refine .inl ?_
  by_cases hnum : Numeral (c :: t)
  · obtain ⟨w, hw⟩ := parseNumeric_reads (ρ := ρ) (hnum.then hd)
    exact ⟨.ok w, hnum, hw⟩
  · refine ⟨.error (.rob .numeral), ⟨nofun, fun h => absurd h hnum⟩, fun rest => ?_⟩
    rcases parseNumeric_spec (ρ := ρ) hc hd (m := t ++ d :: rest) (by simp) with he | ⟨w, num, x, m', -, hsplit, hthen⟩
    · exact he
    · rcases numeral_cut (t := c :: t) hthen hd hsplit.symm with ⟨rfl, -⟩ | h
      · exact absurd hthen.numeral hnum
      · exact absurd h hover

theorem leaf_reads (hn : ∀ o c l, n ≠ .group o c l) (hlex : n.Lexed p.delim) :
    Verdict n.Readable n.Lost (n.leaf (ρ := ρ) env p) ∧ (n.leaf (ρ := ρ) env p ≠ .error .fault →
      ∀ (nested : Nested ρ) rest st,
        readElement env nested p (n.render ++ p.delim :: rest) st = (n.leaf env p).map fun w => ⟨w, [], rest, st⟩) := by
  obtain ⟨x, hx, hread⟩ | ⟨hover, hleaf⟩ : (∃ x : Except Fail (Svalue ρ), Verdict n.Readable n.Lost x ∧
      ∀ (nested : Nested ρ) rest st,
        readElement env nested p (n.render ++ p.delim :: rest) st = x.map fun w => ⟨w, [], rest, st⟩) ∨
      n.Lost ∧ n.leaf (ρ := ρ) env p = .error .fault := by
    obtain ⟨hquote, hparen, hdelim⟩ := delim_ne p
    cases n with
    | group o c l => exact absurd rfl (hn o c l)
    | missing =>
      refine .inl ⟨.ok (.number 0), trivial, fun nested rest st => ?_⟩
      simp only [readElement, render, nil_append, next_cons, bind_ok]
      unfold restoreElement
      rw [if_neg hquote, if_neg hparen, if_pos rfl]
      rfl
    | quoted raw =>
      obtain ⟨s, hs⟩ := unquote_escaped hlex
      refine .inl ⟨.ok (.string (if p = .key then s.take (hardLimit env.cfg) else s)), trivial, fun nested rest st => ?_⟩
      simp only [readElement, render, cons_append, append_assoc, nil_append, next_cons, bind_ok]
      unfold restoreElement
      rw [hs]
      rfl
    | plain t =>
      obtain ⟨⟨c, t, rfl, hc⟩, hbytes⟩ := hlex
      have h1 : c ≠ quote := fun h => hc (by simp [Special, h])
      have h2 : c ≠ lparen := fun h => hc (by simp [Special, h])
      have h3 : c ≠ p.delim := (hbytes c mem_cons_self).1
      simp only [leaf, readElement, render, cons_append, next_cons, bind_ok]
      unfold restoreElement
      simp only [if_neg h1, if_neg h2, if_neg h3]
      by_cases hstart : c = minus ∨ isDigit c = true
      · rcases parseNumeric_cases (ρ := ρ) (t := t) hstart hdelim with ⟨x, hx, hread⟩ | ⟨hover, w, m, hm, hread⟩
        · refine .inl ⟨x, hx.imp False.elim, fun nested rest st => ?_⟩
          rw [if_pos hstart, hread]
          cases x <;> rfl
        · refine .inr ⟨hover, ?_⟩
          rw [if_pos hstart, hread]
          simp [Except.map, hm]
      · have hcode : Fail.rob p.code ≠ .fault := by simp
        have hx : Verdict (Node.plain (c :: t)).Readable (Node.plain (c :: t)).Lost
            (.error (.rob p.code) : Except Fail (Svalue ρ)) :=
          ⟨fun h => absurd h hcode, fun h => absurd (numeral_head h) hstart⟩
        exact .inl ⟨.error (.rob p.code), hx, fun _ _ _ => if_neg hstart⟩
  · have hleaf : n.leaf env p = x := by
      rw [leaf, hread]
      cases x <;> rfl
    rw [hleaf]
    exact ⟨hx, fun _ => hread⟩
  · rw [hleaf]
    refine ⟨⟨fun _ => hover, fun hgood => ?_⟩, fun h => absurd rfl h⟩
    cases n with
    | plain t => exact Numeral.not_overruns ρ hgood hover
    | missing | quoted raw => exact hover.elim
    | group o c l => exact hn o c l rfl

/-! ## What has a value -/

mutual

/-- **Only readable elements have a value**, and nothing but an LPC error can keep them from having one. -/
theorem read_verdict : ∀ (n : Node) (p : Place) (a : ℕ), n.Lexed p.delim →
    Verdict n.Readable n.Lost (n.read (ρ := ρ) env p a)
  | .missing, _, _, hlex | .quoted _, _, _, hlex | .plain _, _, _, hlex => by
    rw [Node.read]
    exact (leaf_reads (by simp) hlex).1.map _ Iff.rfl id
  | .group o c l, p, a, hlex => by
    have hgood : (group o c l).Readable ↔ (o = lbracket → Even l.length) ∧ ∀ n ∈ l, n.Readable :=
      and_congr_right' allIn_iff
    rw [Node.read, hgood, Node.Lost]
    split_ifs with hmap hnil hbrace hlarge
    · obtain rfl := isEmpty_iff.1 hnil
      exact ⟨fun _ => by simp, fun n hn => absurd hn not_mem_nil⟩
    · subst hmap
      exact (pairs_verdict l hlex.2 _ a).map _ (by simp) id
    · exact ⟨nofun, fun _ => trivial⟩
    all_goals exact (items_verdict l rfl (beq_false_of_ne hmap ▸ hlex.2) a).map _ (by simp [hmap]) id

theorem items_verdict : ∀ (l : List Node) {p : Place}, p.delim = comma →
    LexedItems false false l → ∀ a, Verdict (∀ n ∈ l, n.Readable) (LostIn l) (readItems (ρ := ρ) env l p a)
  | [], _, _, _, _ => fun n hn => absurd hn not_mem_nil
  | n :: l, p, hp, hlex, a => by
    rw [readItems, LostIn]
    refine (read_verdict n p a (hp ▸ hlex.1)).bind (fun h => h n mem_cons_self) .inl fun r hn => ?_
    refine (items_verdict l hp hlex.2 r.2).map _ ?_ fun h => .inr ⟨hn, h⟩
    rw [forall_mem_cons, and_iff_right hn]

theorem pairs_verdict : ∀ l : List Node, LexedItems true false l →
    ∀ (t : MappingT (RKey ρ) (Svalue ρ)) (a : ℕ),
      Verdict (Even l.length ∧ ∀ n ∈ l, n.Readable) (LostIn l) (readPairs env l t a)
  | [], _, _, _ => ⟨by simp, fun n hn => absurd hn not_mem_nil⟩
  | [k], hlex, _, a => by
    rw [readPairs, LostIn]
    exact (read_verdict k .key a hlex.1).bind (fun h => h.2 k mem_cons_self) .inl fun _ _ =>
      ⟨nofun, fun h => absurd h.1 (by simp)⟩
  | k :: v :: l, hlex, t, a => by
    obtain ⟨hk, hv, hlex⟩ := hlex
    have heven : Even (k :: v :: l).length ↔ Even l.length := by
      simp only [length_cons, Nat.even_add_one, not_not]
    rw [readPairs, LostIn, LostIn]
    refine (read_verdict k .key a hk).bind (fun h => h.2 k mem_cons_self) .inl fun rk hkgood => ?_
    refine (read_verdict v .value rk.2 hv).bind (fun h => h.2 v (by simp)) (fun h => .inr ⟨hkgood, .inl h⟩)
      fun rv hvgood => ?_
    rw [forall_mem_cons, forall_mem_cons, and_iff_right hkgood, and_iff_right hvgood, heven]
    split
    · exact ⟨nofun, fun _ => trivial⟩
    · exact (pairs_verdict l hlex _ _).imp fun h => .inr ⟨hkgood, .inr ⟨hvgood, h⟩⟩

end

/-! ## The parser over elements -/

/-- the slots from the current depth on hold these sizes -/
def SlotsHold (st : St) (l : List ℕ) : Prop :=
  ∀ (i n : ℕ), l[i]? = some n → st.sizes.slots[st.sizes.depth + i]? = some n

/-- the state after `k` containers -/
def advance (st : St) (k allocs : ℕ) : St := ⟨⟨st.sizes.depth + k, st.sizes.slots⟩, allocs⟩

/-- every container reads as many elements as it was given -/
def diag (l : List ℕ) : List (ℕ × ℕ) := l.map fun n => (n, n)

theorem SlotsHold.left {a b : List ℕ} (h : SlotsHold st (a ++ b)) : SlotsHold st a := by
  intro i n hn
  refine h i n ?_
  obtain ⟨hi, -⟩ := List.getElem?_eq_some_iff.1 hn
  rw [List.getElem?_append_left hi, hn]

theorem SlotsHold.right {a b : List ℕ} (h : SlotsHold st (a ++ b)) (allocs : ℕ) :
    SlotsHold (advance st a.length allocs) b := by
  intro i n hn
  have := h (a.length + i) n (by rw [getElem?_append_right (by omega), Nat.add_sub_cancel_left, hn])
  rw [advance]
  rwa [add_assoc]

@[simp] theorem advance_allocs (st : St) (k a : ℕ) : (advance st k a).allocs = a := rfl

theorem advance_advance (st : St) (j k a b : ℕ) : advance (advance st j a) k b = advance st (j + k) b := by
  simp only [advance, add_assoc]

theorem diag_append (a b : List ℕ) : diag (a ++ b) = diag a ++ diag b := map_append

theorem restoreElements_succ (nested : Nested ρ) (p : Place) (n : ℕ) (m : Mem) (st : St) :
    restoreElements env nested p (n + 1) m st = (readElement env nested p m st >>= fun r =>
      restoreElements env nested p n r.mem r.st >>= fun rs =>
        .ok ⟨r.val :: rs.val, r.log ++ rs.log, rs.mem, rs.st⟩) := by
  rw [restoreElements, readElement]
  cases next m <;> rfl

/-- the step of `restore_mapping`'s loop on a pair -/
theorem restorePairs_succ (nested : Nested ρ) (fuel : ℕ) (t : MappingT (RKey ρ) (Svalue ρ)) (hc : c ≠ rbracket)
    (st : St) :
    restorePairs env nested (fuel + 1) t (c :: m) st = (readElement env nested .key (c :: m) st >>= fun k =>
      readElement env nested .value k.mem k.st >>= fun v =>
        match Mapping.insert env.cfg (.number 0) false t ⟨(keyWord env v.st.allocs k.val).1, k.val⟩ (some v.val) with
        | .error e => .error (.raised e)
        | .ok t' => restorePairs env nested fuel t' v.mem { v.st with allocs := (keyWord env v.st.allocs k.val).2 } >>=
            fun r => .ok ⟨(r.val.1, r.val.2 + 1), k.log ++ v.log ++ r.log, r.mem, r.st⟩) := by
  rw [restorePairs]
  simp only [next_cons, bind_ok, if_neg hc, readElement]
  cases restoreElement env nested .key c m st with
  | error e => rfl
  | ok k =>
    simp only [bind_ok]
    cases next k.mem <;> rfl

/-- the parser, run on the element where one is due, does what `read` says, unless it loses step -/
def Node.Reads (ρ : Type) [Double ρ] (env : Env) (n : Node) : Prop :=
  ∀ (fuel : ℕ) (p : Place) (rest : Mem) (st : St), n.render.length ≤ fuel → n.Lexed p.delim → SlotsHold st n.sizes →
    n.read (ρ := ρ) env p st.allocs ≠ .error .fault →
    readElement env (restoreContainer env fuel : Nested ρ) p (n.render ++ p.delim :: rest) st =
      (n.read env p st.allocs).map fun r => ⟨r.1, diag n.sizes, rest, advance st n.sizes.length r.2⟩

/-- the loop of `restore_array` and `restore_class` -/
theorem reads_items (hp : p.delim = comma) (ih : ∀ n ∈ l, n.Reads ρ env) (hlex : LexedItems false false l) (fuel : ℕ)
    (rest : Mem) (st : St) (hf : (renderItems false false l).length ≤ fuel) (hs : SlotsHold st (itemsSizes l))
    (hstep : readItems (ρ := ρ) env l p st.allocs ≠ .error .fault) :
    restoreElements env (restoreContainer env fuel : Nested ρ) p l.length (renderItems false false l ++ rest) st =
      (readItems env l p st.allocs).map fun r =>
        ⟨r.1, diag (itemsSizes l), rest, advance st (itemsSizes l).length r.2⟩ := by
  induction l generalizing st with
  | nil => rfl
  | cons n l ihl =>
    have htext : renderItems false false (n :: l) = n.render ++ p.delim :: renderItems false false l := by
      rw [renderItems, hp]
      rfl
    rw [htext, length_append, length_cons] at hf
    have hfirst : n.read (ρ := ρ) env p st.allocs ≠ .error .fault := fun h => hstep (by rw [readItems, h]; rfl)
    rw [htext, append_assoc, cons_append, length_cons, restoreElements_succ,
      ih n mem_cons_self fuel p _ st (by omega) (hp ▸ hlex.1) hs.left hfirst, readItems]
    rw [readItems] at hstep
    cases hn : n.read (ρ := ρ) env p st.allocs with
    | error e => rfl
    | ok r =>
      simp only [Except.map, bind_ok]
      rw [ihl (fun w hw => ih w (.tail _ hw)) hlex.2 (advance st n.sizes.length r.2) (by omega) (hs.right r.2)
        fun h => hstep (by rw [hn, bind_ok, ← advance_allocs st n.sizes.length r.2, h]; rfl), advance_allocs]
      cases readItems (ρ := ρ) env l p r.2 with
      | error e => rfl
      | ok rs =>
        simp only [Except.map, bind_ok, itemsSizes, diag_append, length_append, advance_advance]

theorem render_head {n : Node} (h : n.Lexed d) (hd : d ≠ rbracket) (m : Mem) :
    ∃ c m', n.render ++ d :: m = c :: m' ∧ c ≠ rbracket := by
  cases n with
  | missing => exact ⟨d, m, rfl, hd⟩
  | quoted raw => exact ⟨quote, _, rfl, by decide⟩
  | group o c l => exact ⟨lparen, _, by rfl, by decide⟩
  | plain t =>
    obtain ⟨⟨c, t, rfl, hc⟩, -⟩ := h
    exact ⟨c, _, rfl, fun h => hc (by simp [Special, h])⟩

theorem length_le_renderItems (isMapping index : Bool) (l : List Node) :
    l.length ≤ (renderItems isMapping index l).length := by
  induction l generalizing index with
  | nil => simp
  | cons n l ih =>
    have := ih (nextIndex isMapping index)
    simp only [renderItems, length_append, length_cons]
    omega

/-- the loop of `restore_mapping` -/
theorem reads_pairs (ih : ∀ n ∈ l, n.Reads ρ env) (hlex : LexedItems true false l) (fuel loop : ℕ)
    (t : MappingT (RKey ρ) (Svalue ρ)) (rest : Mem) (st : St) (hf : (renderItems true false l).length ≤ fuel)
    (hl : l.length < loop) (hs : SlotsHold st (itemsSizes l)) (hstep : readPairs env l t st.allocs ≠ .error .fault) :
    restorePairs env (restoreContainer env fuel) loop t (renderItems true false l ++ rbracket :: rparen :: rest) st =
      (readPairs env l t st.allocs).map fun r =>
        ⟨(r.1, l.length / 2), diag (itemsSizes l), rest, advance st (itemsSizes l).length r.2⟩ := by
  induction loop generalizing l t st with
  | zero => omega
  | succ loop ihloop =>
    cases l with
    | nil => rfl
    | cons k l =>
      obtain ⟨hklex, hllex⟩ := hlex
      have htext : renderItems true false (k :: l) = k.render ++ Place.key.delim :: renderItems true true l := by
        rw [renderItems]
        rfl
      rw [htext, length_append, length_cons] at hf
      obtain ⟨c, m', hhead, hc⟩ := render_head (d := Place.key.delim) hklex (by decide)
        (renderItems true true l ++ rbracket :: rparen :: rest)
      have hkey : k.read (ρ := ρ) env .key st.allocs ≠ .error .fault := by
        intro h
        refine hstep ?_
        cases l <;> rw [readPairs, h] <;> rfl
      rw [htext, append_assoc, cons_append, hhead, restorePairs_succ _ _ _ hc, ← hhead,
        ih k mem_cons_self fuel .key _ st (by omega) hklex hs.left hkey]
      cases l with
      | nil =>
        rw [readPairs]
        cases k.read (ρ := ρ) env .key st.allocs with
        | error e | ok rk => rfl
      | cons v l =>
        rw [readPairs] at hstep ⊢
        cases hk : k.read (ρ := ρ) env .key st.allocs with
        | error e => rfl
        | ok rk =>
          have htext2 : renderItems true true (v :: l) = v.render ++ Place.value.delim :: renderItems true false l := by
            rw [renderItems]
            rfl
          rw [htext2, length_append, length_cons] at hf
          have hs' := hs.right rk.2
          rw [hk, bind_ok] at hstep
          simp only [Except.map, bind_ok]
          rw [htext2, append_assoc, cons_append,
            ih v (by simp) fuel .value _ (advance st k.sizes.length rk.2) (by omega) hllex.1 hs'.left
              fun h => hstep (by rw [← advance_allocs st k.sizes.length rk.2, h]; rfl), advance_allocs]
          cases hv : v.read (ρ := ρ) env .value rk.2 with
          | error e => rfl
          | ok rv =>
            simp only [Except.map, bind_ok, advance_advance, advance_allocs]
            rw [hv, bind_ok] at hstep
            cases hins : Mapping.insert env.cfg (.number 0) false t ⟨(keyWord env rv.2 rk.1).1, rk.1⟩ (some rv.1) with
            | error e => rfl
            | ok t' =>
              rw [hins] at hstep
              have hrest := ihloop (fun n hn => ih n (by simp [hn])) hllex.2 t'
                (advance st (k.sizes.length + v.sizes.length) (keyWord env rv.2 rk.1).2) (by omega)
                (by simp only [length_cons] at hl; omega) (advance_advance st _ _ rk.2 _ ▸ hs'.right _) hstep
              rw [advance_allocs] at hrest
              simp only [advance] at hrest ⊢
              rw [hrest]
              cases readPairs env l t' (keyWord env rv.2 rk.1).2 with
              | error e => rfl
              | ok rs =>
                simp only [Except.map, bind_ok, itemsSizes, diag_append, length_append, length_cons, append_assoc,
                  add_assoc, Nat.add_div_right _ (show 0 < 2 by decide)]

theorem length_readItems {a : ℕ} {r : List (Svalue ρ) × ℕ} (h : readItems env l p a = .ok r) :
    r.1.length = l.length := by
  induction l generalizing a r with
  | nil =>
    cases h
    rfl
  | cons n l ih =>
    rw [readItems] at h
    cases hn : n.read (ρ := ρ) env p a with
    | error e => rw [hn] at h; cases h
    | ok w =>
      rw [hn, bind_ok] at h
      cases hl : readItems (ρ := ρ) env l p w.2 with
      | error e => rw [hl] at h; cases h
      | ok ws =>
        rw [hl] at h
        cases h
        exact congrArg (· + 1) (ih hl)

theorem closes_cases (h : Opens o c) :
    (o = lbracket ∧ c = rbracket) ∨ ((o == lbracket) = false ∧ o ≠ lbracket ∧ (o = lbrace ∨ o = slash)) := by
  rcases h with h | ⟨h, -⟩
  · exact .inl h
  · refine .inr ?_
    rcases h with rfl | rfl
    · exact ⟨rfl, by decide, .inl rfl⟩
    · exact ⟨rfl, by decide, .inr rfl⟩

/-- the body of a list whose size is known -/
theorem reads_body (ho : Opens o c) (ih : ∀ n ∈ l, n.Reads ρ env)
    (hlex : LexedItems (o == lbracket) false l) (fuel : ℕ) (p : Place) (rest : Mem) (st : St)
    (hf : (renderItems (o == lbracket) false l).length ≤ fuel) (hs : SlotsHold st (itemsSizes l)) (hstep : (group o c l).read (ρ := ρ) env p st.allocs ≠ .error .fault) :
    restoreBody env (restoreContainer env fuel : Nested ρ) o l.length
        (renderItems (o == lbracket) false l ++ c :: rparen :: rest) st =
      ((group o c l).read env p st.allocs).map fun r =>
        ⟨r.1, diag (group o c l).sizes, rest, advance st (itemsSizes l).length r.2⟩ := by
  unfold restoreBody
  rw [Node.read] at hstep ⊢
  rcases closes_cases ho with ⟨rfl, rfl⟩ | ⟨hb, hne, -⟩
  · rw [if_pos rfl] at hstep ⊢
    rw [if_pos rfl]
    cases l with
    | nil => rfl
    | cons k l =>
      rw [if_neg (by simp)] at hstep
      have hlen := length_le_renderItems true false (k :: l)
      rw [if_neg (by simp), if_neg (by simp),
        show (lbracket == lbracket) = true from rfl, reads_pairs ih hlex fuel _ _ rest st hf
          (by rw [length_append]; exact Nat.lt_succ_of_le (Nat.le_add_right_of_le hlen)) hs
            fun h => hstep (by rw [h]; rfl)]
      generalize allocateMapping env.cfg ((k :: l).length / 2) = t
      have heven : Verdict _ _ (readPairs env (k :: l) t st.allocs) := pairs_verdict (k :: l) hlex t _
      cases hr : readPairs env (k :: l) t st.allocs with
      | error e => rfl
      | ok r =>
        rw [hr] at heven
        simp only [Except.map, Nat.two_mul_div_two_of_even heven.1]
        rfl
  · rw [if_neg hne] at hstep ⊢
    rw [if_neg hne]
    rw [hb] at hlex hf ⊢
    have hitems := fun (p : Place) (hp : p.delim = comma) =>
      reads_items hp ih hlex fuel (c :: rparen :: rest) st hf hs
    split_ifs at hstep ⊢ with hbrace hlarge
    · rfl
    · rw [hitems .array rfl fun h => hstep (by rw [h]; rfl)]
      cases hr : readItems (ρ := ρ) env l .array st.allocs with
      | error e => rfl
      | ok r => simp only [Except.map, length_readItems hr]; rfl
    · rw [hitems .class_ rfl fun h => hstep (by rw [h]; rfl)]
      cases hr : readItems (ρ := ρ) env l .class_ st.allocs with
      | error e => rfl
      | ok r => simp only [Except.map, length_readItems hr]; rfl

/-- **The parser keeps to the elements.** It reads an element as `read` says, to its end and its delimiter, and takes its
sizes, unless it loses step. -/
theorem reads (n : Node) : n.Reads ρ env := by
  induction n using Node.induction with
  | missing | quoted raw | plain t =>
    intro fuel p rest st _ hlex _ hstep
    rw [Node.read] at hstep ⊢
    rw [(leaf_reads (by simp) hlex).2 fun h => hstep (by rw [h]; rfl)]
    cases Node.leaf (ρ := ρ) env _ p <;> rfl
  | group o c l ih =>
    intro fuel p rest st hf hlex hs hstep
    obtain ⟨ho, hlex⟩ := hlex
    rw [render] at hf
    simp only [length_cons, length_append] at hf
    obtain _ | f := fuel
    · omega
    rw [sizes] at hs
    have hslot : st.sizes.slots[st.sizes.depth]? = some l.length := by simpa using hs 0 l.length rfl
    have hbody := reads_body ho ih hlex f p (p.delim :: rest)
      (advance st 1 st.allocs) (by omega) (SlotsHold.right (a := [l.length]) hs st.allocs) hstep
    have htext : (group o c l).render ++ p.delim :: rest =
        lparen :: o :: (renderItems (o == lbracket) false l ++ c :: rparen :: p.delim :: rest) := by
      rw [render]
      simp
    have hd : o = lbracket ∨ o = lbrace ∨ o = slash := by
      rcases closes_cases ho with ⟨h, -⟩ | ⟨-, -, h⟩
      · exact .inl h
      · exact .inr h
    rw [htext]
    simp only [readElement, next_cons, bind_ok]
    unfold restoreElement
    dsimp only
    rw [if_pos hd, restoreContainer]
    simp only [advance, Nat.add_sub_cancel, hslot] at hbody ⊢
    rw [if_neg (by decide), if_pos trivial, hbody]
    cases (group o c l).read (ρ := ρ) env p st.allocs with
    | error e => rfl
    | ok r =>
      simp only [Except.map, sizes, length_cons, add_assoc, add_comm 1]
      rfl

/-! ## Whole texts -/

/-- the brackets a container opens with -/
def Opening (o : Byte) : Prop := o = lbrace ∨ o = lbracket ∨ o = slash

/-- the sizing pass over a container's text behind its opening bracket -/
def sizing (slots : List ℕ) (o : Byte) (m : Mem) : Sized := restoreSize (m.length + 1) m (o == lbracket) false 0 ⟨0, slots⟩

variable (env) (slots : List ℕ)

theorem restoreOutermost_sized {n : ℕ} {st : Sizes} (h : sizing slots o m = .size n st) :
    restoreOutermost (ρ := ρ) env ⟨0, slots⟩ o m =
      (restoreBody env (restoreContainer env (m.length + 1)) o n m ⟨st, 0⟩).map fun r => (some r, r.st.sizes) := by
  rw [restoreOutermost, if_neg (by simp), show restoreSize (m.length + 1) m (o == lbracket) false 0 ⟨0, slots⟩ = _ from h]

/-- a container whose text the sizing pass cuts into the elements that stand there -/
theorem restoreOutermost_group {st : Sizes} (hlex : (group o c l).Lexed d) {rest : Mem}
    (hstep : (group o c l).read (ρ := ρ) env .array 0 ≠ .error .fault)
    (hsize : sizing slots o (renderItems (o == lbracket) false l ++ c :: rparen :: rest) =
      .size l.length { st with depth := 0 })
    (hrec : Recorded ⟨0, slots⟩ st (itemsSizes l)) :
    restoreOutermost env ⟨0, slots⟩ o (renderItems (o == lbracket) false l ++ c :: rparen :: rest) =
      ((group o c l).read (ρ := ρ) env .array 0).map fun r =>
        (some ⟨r.1, diag (group o c l).sizes, rest, ⟨st, r.2⟩⟩, st) := by
  have hdepth : st.depth = (itemsSizes l).length := by simpa using hrec.depth
  rw [restoreOutermost_sized env slots hsize, reads_body hlex.1 (fun n _ => reads n) hlex.2 _
    .array rest ⟨{ st with depth := 0 }, 0⟩ (by rw [length_append]; omega)
    (fun i n hn => by simpa using hrec.new i n hn) hstep]
  simp only [advance, zero_add, ← hdepth]
  cases (group o c l).read (ρ := ρ) env .array 0 <;> rfl

theorem restoreValue_opening (entry : Sizes) (ho : Opening o) (m : Mem) :
    restoreValue (ρ := ρ) env entry (lparen :: o :: m) =
      (restoreOutermost env entry o m).map fun r => (r.1.map Parsed.val, resetSizes r.2) := by
  unfold restoreValue
  simp only [next_cons, bind_ok, if_neg (by decide : ¬ lparen = quote), if_true]
  rw [if_pos (show o = lbrace ∨ o = lbracket ∨ o = slash from ho)]
  cases restoreOutermost (ρ := ρ) env entry o m with
  | error e | ok r => rfl

end Lithos.Lpc.Save
