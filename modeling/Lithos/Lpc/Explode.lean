/-
`explode_string` and `implode_string` (`array.c`), in the build with REVERSIBLE_EXPLODE_STRING.

Strings are counted, but both passes of `explode_string` stop at a NUL and its last piece is copied as a C string, while
`implode_string` copies with `strncpy`. The memory behind a string is part of the model: a delimiter that holds a NUL
can carry the passes past the end of the string.

Results:
  * `countLoop_eq`, `cutLoop_eq`: the counting and the cutting pass agree.
  * `Cuts.split_eq`, `cuts_of_split`: the passes follow the cuts of the string at character boundaries.
  * `reversed_iff`: when imploding an exploded string gives it back.
-/
import Mathlib.Data.List.TakeWhile
import Lithos.Lpc.Save.Syntax

namespace Lithos.Lpc.Explode

open List

open Lithos.Lpc.Save (Mem nul mblen)

/-! ## C strings -/

/-- how an explode can end without an array: a read outside memory, "Index out of bounds in explode!", or an invalid
multibyte sequence -/
inductive Fail where
  | fault
  | fatal
  | invalid
deriving DecidableEq, Repr

/-- `strncmp (p, q, n) == 0`: equal up to `n` bytes or a common NUL -/
def strncmpEq : ℕ → Mem → Mem → Except Fail Bool
  | 0, _, _ => .ok true
  | n + 1, a :: p, b :: q => if a ≠ b then .ok false else if a = nul then .ok true else strncmpEq n p q
  | _ + 1, _, _ => .error .fault

/-- what `strncpy (buf, p, n)` leaves in `buf`: the bytes up to a NUL, then NULs -/
def strncpy (n : ℕ) (p : Mem) : List Byte :=
  let s := (p.take n).takeWhile (· ≠ nul)
  s ++ replicate (n - s.length) nul

/-- `string_copy`: the string up to its NUL, cut to the longest string allowed -/
def stringCopy (maxLen : ℕ) (p : Mem) : Except Fail (List Byte) :=
  if nul ∈ p then .ok ((p.takeWhile (· ≠ nul)).take maxLen) else .error .fault

/-- `mblen (p, left)`; a negative `left` counts as unbounded -/
def mblenAt (left : ℤ) (p : Mem) : Option ℕ := if 0 ≤ left then mblen (p.take left.toNat) else mblen p

/-! ## Exploding -/

/-- what a loop of `explode_string` does at `p` -/
inductive Move where
  | stop
  | delimiter
  | char (mb : ℕ)
deriving DecidableEq, Repr

/-- the body of both loops: a delimiter is only looked for at the start of a character -/
def look (del : List Byte) (left : ℤ) (p : Mem) : Except Fail Move :=
  match p with
  | [] => .error .fault
  | c :: _ =>
    if c = nul then .ok .stop
    else
      match mblenAt left p with
      | none => .ok .stop
      | some 0 => .ok .stop
      | some (mb + 1) =>
        if mb + 1 ≤ del.length then
          (strncmpEq del.length p (del ++ [nul])).map fun eq => if eq then .delimiter else .char (mb + 1)
        else .ok (.char (mb + 1))

/-- the first loop: the number of delimiters -/
def countLoop (del : List Byte) : ℕ → Mem → ℤ → ℕ → Except Fail ℕ
  | 0, _, _, _ => .error .fault
  | fuel + 1, p, left, num =>
    match look del left p with
    | .error e => .error e
    | .ok .stop => .ok num
    | .ok .delimiter => countLoop del fuel (p.drop del.length) (left - del.length) (num + 1)
    | .ok (.char mb) => countLoop del fuel (p.drop mb) (left - mb) num

/-- the second loop: the pieces in front of delimiters, and where the last piece begins; `k` is `p - beg` -/
def cutLoop (del : List Byte) (limit size : ℕ) :
    ℕ → Mem → ℤ → Mem → ℕ → ℕ → Except Fail (List (List Byte) × Mem)
  | 0, _, _, _, _, _ => .error .fault
  | fuel + 1, p, left, beg, k, num =>
    if num ≥ limit then (if p = [] then .error .fault else .ok ([], beg))
    else
      match look del left p with
      | .error e => .error e
      | .ok .stop => .ok ([], beg)
      | .ok .delimiter =>
        if num ≥ size then .error .fatal
        else
          let p' := p.drop del.length
          (cutLoop del limit size fuel p' (left - del.length) p' 0 (num + 1)).map fun r => (strncpy k beg :: r.1, r.2)
      | .ok (.char mb) => cutLoop del limit size fuel (p.drop mb) (left - mb) beg (k + mb) num

/-- the characters one by one: what an empty delimiter gives; `n` of them at most -/
def chars : ℕ → Mem → ℕ → List (List Byte)
  | 0, _, _ => []
  | n + 1, p, left =>
    match mblen (p.take left) with
    | some (mb + 1) => p.take (mb + 1) :: chars n (p.drop (mb + 1)) (left - (mb + 1))
    | _ => []

/-- `mbstowcs (NULL, p, 0)`: the number of characters up to the NUL -/
def mbstowcs : ℕ → Mem → Except Fail ℕ
  | 0, _ => .error .fault
  | fuel + 1, p =>
    match mblen p with
    | none => .error .invalid
    | some 0 => .ok 0
    | some (mb + 1) => (mbstowcs fuel (p.drop (mb + 1))).map (· + 1)

/-- `explode_string` on the counted string `str` with `rest` behind its NUL: the strings of the array -/
def explodeString (cfg : Config) (str del : List Byte) (rest : Mem) : Except Fail (List (List Byte)) :=
  let p := str ++ nul :: rest
  if str.length = 0 then .ok []
  else if del.length = 0 then
    (mbstowcs (p.length + 1) p).map fun n =>
      (chars (min n cfg.maxArraySize) p str.length).take (ushort (min n cfg.maxArraySize))
  else do
    let num ← countLoop del (p.length + 1) p str.length 0
    let size := ushort (min (num + 1) cfg.maxArraySize)
    let r ← cutLoop del (cfg.maxArraySize - 1) size (p.length + 1) p str.length p 0 0
    let last ← stringCopy cfg.maxStringLength r.2
    .ok ((r.1 ++ [last]).take size)

/-- `implode_string` on an array of strings -/
def implodeString : List (List Byte) → List Byte → List Byte
  | [], _ => []
  | s :: l, del => strncpy s.length s ++ l.flatMap fun t => strncpy del.length (del ++ [nul]) ++ strncpy t.length t

/-! ## One cut without limits -/

/-- the second loop as it would run in an array of any size -/
def split (del : List Byte) : ℕ → Mem → ℤ → Mem → ℕ → Except Fail (List (List Byte) × Mem)
  | 0, _, _, _, _ => .error .fault
  | fuel + 1, p, left, beg, k =>
    match look del left p with
    | .error e => .error e
    | .ok .stop => .ok ([], beg)
    | .ok .delimiter =>
      (split del fuel (p.drop del.length) (left - del.length) (p.drop del.length) 0).map
        fun r => (strncpy k beg :: r.1, r.2)
    | .ok (.char mb) => split del fuel (p.drop mb) (left - mb) beg (k + mb)

variable {del : List Byte} {fuel k num limit size : ℕ} {p beg : Mem} {left : ℤ} {r : List (List Byte) × Mem}
  {a u : List Byte} {mb : ℕ}

/-- inversion of a cut: where it stops, at a delimiter, or over a character -/
theorem split_cases (h : split del (fuel + 1) p left beg k = .ok r) : (look del left p = .ok .stop ∧ r = ([], beg)) ∨
    (look del left p = .ok .delimiter ∧ ∃ r', r = (strncpy k beg :: r'.1, r'.2) ∧
      split del fuel (p.drop del.length) (left - del.length) (p.drop del.length) 0 = .ok r') ∨
    (∃ mb, look del left p = .ok (.char mb) ∧ split del fuel (p.drop mb) (left - mb) beg (k + mb) = .ok r) := by
  rw [split] at h
  cases hlook : look del left p with
  | error e => simp [hlook] at h
  | ok m =>
    cases m with
    | stop => simp only [hlook, Except.ok.injEq] at h; exact .inl ⟨rfl, h.symm⟩
    | delimiter =>
      simp only [hlook] at h
      cases hs : split del fuel (p.drop del.length) (left - del.length) (p.drop del.length) 0 with
      | error e => rw [hs] at h; cases h
      | ok r' => rw [hs] at h; cases h; exact .inr (.inl ⟨rfl, r', rfl, rfl⟩)
    | char mb => simp only [hlook] at h; exact .inr (.inr ⟨mb, rfl, h⟩)

/-- the counting pass counts the pieces of the cutting pass -/
theorem countLoop_eq (fuel : ℕ) (p : Mem) (left : ℤ) (beg : Mem) (k num : ℕ) :
    countLoop del fuel p left num = (split del fuel p left beg k).map fun r => num + r.1.length := by
  induction fuel generalizing p left beg k num with
  | zero => rfl
  | succ fuel ih =>
    rw [countLoop, split]
    cases look del left p with
    | error e => rfl
    | ok m =>
      cases m with
      | stop => rfl
      | char mb => exact ih _ _ _ _ _
      | delimiter =>
        rw [ih _ _ (p.drop del.length) 0 _]
        cases split del fuel (p.drop del.length) (left - del.length) (p.drop del.length) 0 with
        | error e => rfl
        | ok r' =>
          have : num + 1 + r'.1.length = num + (r'.1.length + 1) := by omega
          simp [Except.map, this]

theorem split_nil (h : split del fuel p left beg k = .ok r) (hr : r.1 = []) : r.2 = beg := by
  induction fuel generalizing p left beg k with
  | zero => cases h
  | succ fuel ih =>
    rcases split_cases h with ⟨-, rfl⟩ | ⟨-, r', rfl, -⟩ | ⟨mb, -, hs⟩
    · rfl
    · cases hr
    · exact ih hs

theorem split_mem_ne_nil (h : split del fuel p left beg k = .ok r) : p ≠ [] := by
  rintro rfl
  cases fuel <;> simp [split, look] at h

/-- the cutting pass within the limit: it fails exactly when the array is too short -/
theorem cutLoop_eq (h : split del fuel p left beg k = .ok r) (hlim : num + r.1.length ≤ limit) (hnum : num ≤ size) :
    cutLoop del limit size fuel p left beg k num = if size < num + r.1.length then .error .fatal else .ok r := by
  induction fuel generalizing p left beg k num r with
  | zero => cases h
  | succ fuel ih =>
    rw [cutLoop]
    by_cases hl : num ≥ limit
    · have hr : r.1 = [] := length_eq_zero_iff.1 (by omega)
      rw [if_pos hl, if_neg (split_mem_ne_nil h), hr, if_neg (by simpa using hnum), ← split_nil h hr, ← hr]
    rw [if_neg hl]
    rcases split_cases h with ⟨hlook, rfl⟩ | ⟨hlook, r', rfl, hs⟩ | ⟨mb, hlook, hs⟩
    · rw [hlook]
      exact (if_neg (by simpa using hnum)).symm
    · rw [hlook]
      dsimp only at hlim ⊢
      rw [length_cons] at hlim ⊢
      by_cases hsz : num ≥ size
      · rw [if_pos hsz, if_pos (by omega)]
      · rw [if_neg hsz, ih hs (by omega) (by omega)]
        by_cases hf : size < num + 1 + r'.1.length
        · rw [if_pos hf, if_pos (by omega)]; rfl
        · rw [if_neg hf, if_neg (by omega)]; rfl
    · rw [hlook]
      exact ih hs hlim hnum

/-! ## Copies of counted bytes -/

theorem strncpy_length (n : ℕ) (p : Mem) : (strncpy n p).length = n := by
  have hle : ((p.take n).takeWhile (· ≠ nul)).length ≤ n :=
    (List.takeWhile_prefix _).length_le.trans (length_take_le _ _)
  rw [strncpy, length_append, length_replicate]
  omega

theorem takeWhile_append_nul {b : List Byte} (ha : nul ∉ a) : (a ++ nul :: b).takeWhile (· ≠ nul) = a := by
  have hall : ∀ c ∈ a, decide (c ≠ nul) = true := fun c hc => by simpa using ne_of_mem_of_not_mem hc ha
  rw [takeWhile_append_of_pos hall, takeWhile_cons_of_neg (by simp), append_nil]

theorem takeWhile_self (ha : nul ∉ a) : a.takeWhile (· ≠ nul) = a :=
  takeWhile_eq_self_iff.2 fun c hc => by simpa using ne_of_mem_of_not_mem hc ha

/-- bytes without NUL are copied as they are -/
theorem strncpy_append (ha : nul ∉ a) (b : Mem) : strncpy a.length (a ++ b) = a := by
  rw [strncpy, take_left, takeWhile_self ha, Nat.sub_self]
  exact append_nil a

theorem strncpy_self (ha : nul ∉ a) : strncpy a.length a = a := by
  simpa using strncpy_append ha []

/-- copying a copy changes nothing -/
theorem strncpy_strncpy (n : ℕ) (p : Mem) : strncpy n (strncpy n p) = strncpy n p := by
  have htake : (strncpy n p).take n = strncpy n p := take_of_length_le (strncpy_length n p).le
  have hclean : nul ∉ (p.take n).takeWhile (· ≠ nul) := fun hmem => by simpa using mem_takeWhile_imp hmem
  have hword : (strncpy n p).takeWhile (· ≠ nul) = (p.take n).takeWhile (· ≠ nul) := by
    rw [strncpy]
    cases n - ((p.take n).takeWhile (· ≠ nul)).length with
    | zero => rw [replicate_zero, append_nil, takeWhile_self hclean]
    | succ j => rw [replicate_succ, takeWhile_append_nul hclean]
  rw [strncpy, htake, hword]
  rfl

/-- the separator as `implode_string` writes it: everything behind a NUL of it becomes NUL -/
def separator (del : List Byte) : List Byte := strncpy del.length (del ++ [nul])

/-- the pieces and the last one with the separator between them -/
def join (del : List Byte) (as : List (List Byte)) (t : List Byte) : List Byte :=
  as.foldr (fun a s => a ++ (separator del ++ s)) t

theorem join_inj {as : List (List Byte)} {t : List Byte} (h : join del as t = join del as u) : t = u := by
  induction as with
  | nil => exact h
  | cons a as ih => exact ih (append_cancel_left (append_cancel_left h))

theorem nul_mem_join (as : List (List Byte)) (t : List Byte) (hsep : nul ∉ separator del) (has : ∀ a ∈ as, nul ∉ a) :
    nul ∈ join del as t ↔ nul ∈ t := by
  induction as with
  | nil => rfl
  | cons a as ih =>
    have hrest := ih fun b hb => has b (.tail _ hb)
    have ha := has a (.head _)
    show nul ∈ a ++ (separator del ++ join del as t) ↔ nul ∈ t
    simp [ha, hsep, hrest]

/-- imploding copied pieces joins them -/
theorem implodeString_eq_join (as : List (List Byte)) (t : List Byte) (has : ∀ a ∈ as, strncpy a.length a = a)
    (ht : strncpy t.length t = t) : implodeString (as ++ [t]) del = join del as t := by
  have hlater : ∀ l : List (List Byte), (∀ a ∈ l, strncpy a.length a = a) →
      ((l ++ [t]).flatMap fun s => strncpy del.length (del ++ [nul]) ++ strncpy s.length s) =
        separator del ++ join del l t := by
    intro l hl
    induction l with
    | nil => simp [join, separator, ht]
    | cons a l ih =>
      have := ih fun b hb => hl b (.tail _ hb)
      rw [cons_append, flatMap_cons, this, hl a mem_cons_self]
      exact append_assoc _ _ _
  cases as with
  | nil => simp [implodeString, join, ht]
  | cons a as =>
    rw [cons_append, implodeString, hlater as fun b hb => has b (.tail _ hb), has a mem_cons_self]
    rfl

/-- every piece of a cut is a copy -/
theorem split_copies (h : split del fuel p left beg k = .ok r) : ∀ a ∈ r.1, strncpy a.length a = a := by
  induction fuel generalizing p left beg k r with
  | zero => cases h
  | succ fuel ih =>
    rcases split_cases h with ⟨-, rfl⟩ | ⟨-, r', rfl, hs⟩ | ⟨mb, -, hs⟩
    · simp
    · exact forall_mem_cons.2 ⟨by rw [strncpy_length, strncpy_strncpy], ih hs⟩
    · exact ih hs

/-! ## Characters and delimiters of a counted string -/

/-- the length of the character at the start of `s`, if one starts there -/
def charLen (s : List Byte) : Option ℕ :=
  match mblen s with
  | some (mb + 1) => some (mb + 1)
  | _ => none

/-- `del` is found at the start of `s`: it is no shorter than the first character, and the bytes agree as C strings -/
def hit (del s : List Byte) : Bool :=
  match charLen s with
  | none => false
  | some mb => decide (mb ≤ del.length) && decide (strncmpEq del.length (s ++ [nul]) (del ++ [nul]) = .ok true)

/-- a comparison with a NUL-terminated string ends at its NUL, whatever lies behind -/
theorem strncmpEq_nul {n : ℕ} {q : Mem} (hn : n ≤ q.length) (s : List Byte) :
    ∃ b, ∀ rest, strncmpEq n (s ++ nul :: rest) q = .ok b := by
  induction n generalizing s q with
  | zero => exact ⟨true, fun _ => rfl⟩
  | succ n ih =>
    cases q with
    | nil => simp at hn
    | cons b q =>
      cases s with
      | nil =>
        by_cases hb : nul = b
        · exact ⟨true, fun _ => by simp [strncmpEq, ← hb]⟩
        · exact ⟨false, fun _ => by simp [strncmpEq, hb]⟩
      | cons a s =>
        obtain ⟨v, hv⟩ := ih (Nat.le_of_succ_le_succ hn) s
        by_cases hab : a = b
        · by_cases ha : a = nul
          · exact ⟨true, fun _ => by simp [strncmpEq, ← hab, ha]⟩
          · exact ⟨v, fun rest => by rw [cons_append, strncmpEq, if_neg (by simpa using hab), if_neg ha, hv rest]⟩
        · exact ⟨false, fun _ => by simp [strncmpEq, hab]⟩

/-- a delimiter without NUL is found only where all its bytes stand -/
theorem prefix_of_strncmpEq {d s rest q : List Byte} (hd : nul ∉ d)
    (h : strncmpEq d.length (s ++ nul :: rest) (d ++ q) = .ok true) : d <+: s := by
  induction d generalizing s with
  | nil => exact nil_prefix
  | cons b d ih =>
    rw [mem_cons, not_or] at hd
    cases s with
    | nil => simp [strncmpEq, hd.1] at h
    | cons a s =>
      rw [cons_append, cons_append, length_cons, strncmpEq] at h
      by_cases hab : a = b
      · rw [if_neg (by simpa using hab), if_neg (by rw [hab]; exact Ne.symm hd.1)] at h
        rw [hab]
        exact cons_prefix_cons.2 ⟨rfl, ih hd.2 h⟩
      · simp [hab] at h

/-- a character is a non-empty run of bytes without NUL -/
theorem charLen_some {s : List Byte} (h : charLen s = some mb) :
    ∃ c t, s = c ++ t ∧ c.length = mb ∧ c ≠ [] ∧ nul ∉ c := by
  rw [charLen] at h
  cases s with
  | nil => simp [mblen] at h
  | cons b m =>
    by_cases hb : b = nul
    · simp [mblen, hb] at h
    have hspan : mblen (b :: m) = some mb := by
      split at h
      · next hm => rw [hm, ← h]
      · cases h
    obtain ⟨t, hm, hlen, hhigh, -⟩ := Save.mblen_some hspan hb
    refine ⟨b :: t, (b :: m).drop mb, ?_, hlen.symm, by simp, ?_⟩
    · rw [cons_append, ← hm]
    · exact not_mem_cons_of_ne_of_not_mem (Ne.symm hb) fun h0 => absurd (hhigh nul h0) (by decide)

/-- what the loops do at the start of a suffix `s` of the string -/
theorem look_eq (del s : List Byte) (rest : Mem) : look del s.length (s ++ nul :: rest) =
      .ok (match charLen s with
        | none => .stop
        | some mb => if hit del s then .delimiter else .char mb) := by
  cases s with
  | nil => rfl
  | cons c m =>
    by_cases hc : c = nul
    · simp [look, hc, charLen, mblen]
    have hat : mblenAt (c :: m).length (c :: m ++ nul :: rest) = mblen (c :: m) := by
      rw [mblenAt, if_pos (Int.natCast_nonneg _), Int.toNat_natCast, take_left]
    obtain ⟨b, hb⟩ := strncmpEq_nul (n := del.length) (q := del ++ [nul]) (by simp) (c :: m)
    simp only [cons_append] at hat hb
    rw [look.eq_def, cons_append]
    dsimp only
    rw [if_neg hc, hat, hit, charLen]
    cases mblen (c :: m) with
    | none => rfl
    | some n =>
      cases n with
      | zero => rfl
      | succ mb =>
        dsimp only
        by_cases hlen : mb + 1 ≤ del.length
        · rw [hb, cons_append, hb]
          cases b <;> simp [Except.map, hlen]
        · simp [hlen]

/-! ## Strings as pieces and delimiters -/

/-- `Cuts del w s as t`: reading `s` behind the bytes `w` of the piece begun, the pieces are `as` and the last one is
`t`, each delimiter found being followed by exactly the bytes that `implode_string` writes for it -/
inductive Cuts (del : List Byte) : List Byte → List Byte → List (List Byte) → List Byte → Prop
  | tail {w s} : charLen s = none → Cuts del w s [] (w ++ s)
  | char {w c s as t} : charLen (c ++ s) = some c.length → hit del (c ++ s) = false → Cuts del (w ++ c) s as t →
      Cuts del w (c ++ s) as t
  | cut {w s as t} : hit del (separator del ++ s) = true → Cuts del [] s as t →
      Cuts del w (separator del ++ s) (w :: as) t

variable {w s t : List Byte} {as : List (List Byte)} {rest : Mem}

theorem charLen_of_hit (h : hit del s = true) : ∃ mb, charLen s = some mb := by
  rw [hit] at h
  cases hc : charLen s with
  | none => simp [hc] at h
  | some mb => exact ⟨mb, rfl⟩

theorem separator_length (del : List Byte) : (separator del).length = del.length := strncpy_length _ _

theorem Cuts.join_eq (h : Cuts del w s as t) : join del as t = w ++ s := by
  induction h with
  | tail _ => rfl
  | char _ _ _ ih => rw [ih, append_assoc]
  | cut _ _ ih =>
    show _ ++ (separator del ++ join del _ _) = _
    rw [ih, nil_append]

theorem Cuts.clean (h : Cuts del w s as t) (hw : nul ∉ w) : ∀ a ∈ as, nul ∉ a := by
  induction h with
  | tail _ => simp
  | char hc _ _ ih =>
    obtain ⟨c, u, heq, hlen, -, hclean⟩ := charLen_some hc
    obtain ⟨rfl, -⟩ := append_inj heq hlen.symm
    exact ih (by simp [hw, hclean])
  | cut _ _ ih =>
    exact forall_mem_cons.2 ⟨hw, ih (by simp)⟩

/-- what is left behind a part of the string -/
theorem left_append (c s : List Byte) : (((c ++ s).length : ℕ) : ℤ) - (c.length : ℤ) = (s.length : ℤ) := by
  rw [length_append]; push_cast; ring

/-- the loops follow the cuts -/
theorem Cuts.split_eq (h : Cuts del w s as t) (hw : nul ∉ w) (hdel : del ≠ []) (hfuel : s.length < fuel) :
    split del fuel (s ++ nul :: rest) s.length (w ++ (s ++ nul :: rest)) w.length = .ok (as, t ++ nul :: rest) := by
  induction h generalizing fuel with
  | @tail w s hc =>
    obtain _ | n := fuel
    · omega
    rw [split, look_eq, hc, append_assoc]
  | @char w c s as t hc hhit _ ih =>
    obtain _ | n := fuel
    · omega
    obtain ⟨c', u, heq, hlen, hne, hclean⟩ := charLen_some hc
    obtain ⟨rfl, -⟩ := append_inj heq hlen.symm
    have hpos : 0 < c.length := length_pos_iff.2 hne
    rw [length_append] at hfuel
    have hrec : split del n _ _ _ _ = _ := ih (by simp [hw, hclean]) (by omega)
    rw [split, look_eq, hc, hhit]
    dsimp only
    rw [if_neg Bool.false_ne_true]
    dsimp only
    rw [left_append, append_assoc, drop_left, ← length_append, ← append_assoc w c]
    exact hrec
  | @cut w s as t hhit _ ih =>
    obtain _ | n := fuel
    · omega
    obtain ⟨mb, hc⟩ := charLen_of_hit hhit
    have hpos : 0 < del.length := length_pos_iff.2 hdel
    rw [length_append, separator_length] at hfuel
    have hrec : split del n _ _ _ _ = _ := ih (by simp) (by omega)
    rw [split, look_eq, hc, hhit]
    dsimp only
    rw [nil_append, length_nil] at hrec
    rw [if_pos rfl, ← separator_length del, left_append, append_assoc, drop_left, hrec, strncpy_append hw]
    rfl

/-- inversion of a look -/
theorem look_cases {move : Move} (h : look del s.length (s ++ nul :: rest) = .ok move) : match move with
    | .stop => charLen s = none
    | .delimiter => hit del s = true
    | .char mb => charLen s = some mb ∧ hit del s = false := by
  rw [look_eq] at h
  cases hc : charLen s with
  | none => rw [hc] at h; cases h; rfl
  | some n => cases hh : hit del s <;> rw [hc, hh] at h <;> cases h <;> simp

/-- a cut whose pieces join to the string follows the string's own cuts -/
theorem cuts_of_split (h : split del fuel (s ++ nul :: rest) s.length (w ++ (s ++ nul :: rest)) w.length = .ok r)
    (hw : nul ∉ w) (hjoin : join del r.1 u = w ++ s) : ∃ as t, Cuts del w s as t := by
  induction fuel generalizing w s r with
  | zero => cases h
  | succ fuel ih =>
    rcases split_cases h with ⟨hlook, -⟩ | ⟨hlook, r', rfl, hs⟩ | ⟨mb, hlook, hs⟩
    · exact ⟨[], w ++ s, .tail (look_cases hlook)⟩
    · -- the joined pieces put the separator where the delimiter was found
      rw [strncpy_append hw] at hjoin
      have hsep : separator del ++ join del r'.1 u = s := append_cancel_left hjoin
      obtain ⟨s', rfl⟩ : ∃ s', s = separator del ++ s' := ⟨_, hsep.symm⟩
      rw [← separator_length del, left_append, append_assoc, drop_left] at hs
      obtain ⟨as, t, hcuts⟩ := ih (w := []) hs (by simp) (append_cancel_left hsep)
      exact ⟨w :: as, t, .cut (look_cases hlook) hcuts⟩
    · obtain ⟨hc, hhit⟩ := look_cases hlook
      obtain ⟨c, s', rfl, rfl, -, hclean⟩ := charLen_some hc
      rw [left_append, append_assoc, drop_left, ← length_append, ← append_assoc w c] at hs
      obtain ⟨as, t, hcuts⟩ := ih hs (by simp [hw, hclean]) (by rw [hjoin, append_assoc])
      exact ⟨as, t, .char hc hhit hcuts⟩

theorem separator_eq (hdel : nul ∉ del) : separator del = del := strncpy_append hdel [nul]

/-- with a delimiter that has no NUL every string falls into cuts -/
theorem Cuts.total (hne : del ≠ []) (hdel : nul ∉ del) (w s : List Byte) : ∃ as t, Cuts del w s as t := by
  induction hn : s.length using Nat.strong_induction_on generalizing w s with
  | _ n ih =>
    cases hc : charLen s with
    | none => exact ⟨[], w ++ s, .tail hc⟩
    | some mb =>
      cases hh : hit del s with
      | false =>
        obtain ⟨c, s', rfl, rfl, hpos, -⟩ := charLen_some hc
        have hlt : s'.length < n := by
          have := length_pos_iff.2 hpos
          rw [← hn, length_append]; omega
        obtain ⟨as, t, hcuts⟩ := ih _ hlt (w ++ c) s' rfl
        exact ⟨as, t, .char hc hh hcuts⟩
      | true =>
        have hmatch : strncmpEq del.length (s ++ [nul]) (del ++ [nul]) = .ok true := by
          have := hh
          rw [hit, hc] at this
          simp only [Bool.and_eq_true, decide_eq_true_eq] at this
          exact this.2
        obtain ⟨s', rfl⟩ := prefix_of_strncmpEq hdel hmatch
        have hlt : s'.length < n := by
          have := length_pos_iff.2 hne
          rw [← hn, length_append]; omega
        obtain ⟨as, t, hcuts⟩ := ih _ hlt [] s' rfl
        have hcut := Cuts.cut (w := w) (by rw [separator_eq hdel]; exact hh) hcuts
        rw [separator_eq hdel] at hcut
        exact ⟨w :: as, t, hcut⟩

/-! ## Reversibility -/

/-- the number of pieces that the counting pass finds in `str` -/
def pieces (str del : List Byte) (rest : Mem) : Except Fail ℕ :=
  (countLoop del ((str ++ nul :: rest).length + 1) (str ++ nul :: rest) str.length 0).map (· + 1)

/-- `explode_string` gives an array, and imploding it with the same separator gives the string back -/
def Reversed (cfg : Config) (str del : List Byte) (rest : Mem) : Prop :=
  ∃ items, explodeString cfg str del rest = .ok items ∧ implodeString items del = str

/-- the whole cut that an explode makes -/
def wholeSplit (str del : List Byte) (rest : Mem) : Except Fail (List (List Byte) × Mem) :=
  split del ((str ++ nul :: rest).length + 1) (str ++ nul :: rest) str.length (str ++ nul :: rest) 0

variable {cfg : Config} {str : List Byte}

theorem countLoop_whole (str del : List Byte) (rest : Mem) :
    countLoop del ((str ++ nul :: rest).length + 1) (str ++ nul :: rest) str.length 0 =
      (wholeSplit str del rest).map fun r => r.1.length := by
  rw [countLoop_eq _ _ _ (str ++ nul :: rest) 0 0, wholeSplit]
  simp only [zero_add]

theorem pieces_eq (str del : List Byte) (rest : Mem) :
    pieces str del rest = (wholeSplit str del rest).map fun r => r.1.length + 1 := by
  rw [pieces, countLoop_whole]
  cases wholeSplit str del rest <;> rfl

theorem explodeString_error {e : Fail} (hstr : str ≠ []) (hdel : del ≠ []) (h : wholeSplit str del rest = .error e) :
    explodeString cfg str del rest = .error e := by
  rw [explodeString, if_neg (by simpa using hstr), if_neg (by simpa using hdel), countLoop_whole, h]
  rfl

/-- within the array limit an explode is its whole cut, unless the `unsigned short` size of the array is too small -/
theorem explodeString_eq (hstr : str ≠ []) (hdel : del ≠ []) (h : wholeSplit str del rest = .ok r)
    (hlim : r.1.length + 1 ≤ cfg.maxArraySize) :
    explodeString cfg str del rest =
      if r.1.length < 65535 then (stringCopy cfg.maxStringLength r.2).map (fun t => r.1 ++ [t]) else .error .fatal := by
  have hcut : cutLoop del (cfg.maxArraySize - 1) (ushort (r.1.length + 1)) _ _ _ _ _ 0 = _ := cutLoop_eq h (by omega)
    (Nat.zero_le _)
  rw [Nat.zero_add] at hcut
  rw [explodeString, if_neg (by simpa using hstr), if_neg (by simpa using hdel), countLoop_whole, h]
  show Except.bind (.ok r.1.length) _ = _
  rw [Except.bind]
  dsimp only
  rw [Nat.min_eq_left hlim, hcut]
  by_cases hsize : r.1.length < 65535
  · rw [if_pos hsize, ushort_of_lt (by omega), if_neg (by omega)]
    show (stringCopy cfg.maxStringLength r.2 >>= fun t => Except.ok ((r.1 ++ [t]).take (r.1.length + 1))) = _
    cases stringCopy cfg.maxStringLength r.2 with
    | error e => rfl
    | ok t =>
      show Except.ok ((r.1 ++ [t]).take (r.1.length + 1)) = Except.ok (r.1 ++ [t])
      rw [take_of_length_le (by simp)]
  · have hwrap : ushort (r.1.length + 1) < r.1.length := by unfold ushort; omega
    rw [if_neg hsize, if_pos hwrap]
    rfl

theorem stringCopy_nul (maxLen : ℕ) (t : List Byte) (rest : Mem) :
    stringCopy maxLen (t ++ nul :: rest) = .ok ((t.takeWhile (· ≠ nul)).take maxLen) := by
  rw [stringCopy, if_pos (by simp)]
  by_cases ht : nul ∈ t
  · obtain ⟨a, b, rfl, ha⟩ := eq_append_cons_of_mem ht
    rw [append_assoc, cons_append, takeWhile_append_nul ha, takeWhile_append_nul ha]
  · rw [takeWhile_append_nul ht, takeWhile_self ht]

theorem nul_notMem_copy (maxLen : ℕ) (t : List Byte) : nul ∉ (t.takeWhile (· ≠ nul)).take maxLen :=
  fun hmem => by simpa using mem_takeWhile_imp (mem_of_mem_take hmem)

/-- the copied last piece is the whole last piece -/
theorem copy_eq_self_iff (maxLen : ℕ) (t : List Byte) :
    (t.takeWhile (· ≠ nul)).take maxLen = t ↔ nul ∉ t ∧ t.length ≤ maxLen := by
  constructor
  · intro h
    rw [← h]
    exact ⟨nul_notMem_copy maxLen t, length_take_le _ _⟩
  · rintro ⟨hclean, hlen⟩
    rw [takeWhile_self hclean, take_of_length_le hlen]

theorem Cuts.whole (hcuts : Cuts del [] str as t) (hdel : del ≠ []) :
    wholeSplit str del rest = .ok (as, t ++ nul :: rest) :=
  hcuts.split_eq (by simp) hdel (by simp only [length_append, length_cons]; omega)

/-- within the array limit a string comes back exactly when its pieces are counted in 16 bits and, the last one copied,
join to it -/
theorem reversed_iff_join (hstr : str ≠ []) (hdel : del ≠ [])
    (hlim : ∀ n, pieces str del rest = .ok n → n ≤ cfg.maxArraySize) :
    Reversed cfg str del rest ↔ ∃ r t, wholeSplit str del rest = .ok r ∧
      stringCopy cfg.maxStringLength r.2 = .ok t ∧ r.1.length < 65535 ∧ join del r.1 t = str := by
  cases hsplit : wholeSplit str del rest with
  | error e => simp [Reversed, explodeString_error hstr hdel hsplit]
  | ok r =>
    have hexp := explodeString_eq hstr hdel hsplit (hlim _ (by rw [pieces_eq, hsplit]; rfl))
    have himp : ∀ t, stringCopy cfg.maxStringLength r.2 = .ok t →
        implodeString (r.1 ++ [t]) del = join del r.1 t := by
      intro t ht
      refine implodeString_eq_join _ _ (split_copies hsplit) (strncpy_self ?_)
      rw [stringCopy] at ht
      split_ifs at ht
      cases ht
      exact nul_notMem_copy _ r.2
    constructor
    · rintro ⟨items, hitems, hx⟩
      rw [hexp] at hitems
      split_ifs at hitems with hsize
      cases hcopy : stringCopy cfg.maxStringLength r.2 with
      | error e => rw [hcopy] at hitems; cases hitems
      | ok t =>
        rw [hcopy] at hitems
        cases hitems
        exact ⟨r, t, rfl, hcopy, hsize, (himp t hcopy).symm.trans hx⟩
    · rintro ⟨r', t, hr, hcopy, hsize, hjoin⟩
      obtain rfl := Except.ok.inj hr
      rw [if_pos hsize, hcopy] at hexp
      exact ⟨_, hexp, (himp t hcopy).trans hjoin⟩

/-- **Reversible explode.** With a separator that is not empty, and no more pieces than an array may have, a string
comes back exactly when it falls into cuts whose last piece has no NUL and is not too long for a string copy, and the
pieces can be counted in 16 bits. A separator without NUL cuts every string, and then only the NULs of the string itself
matter. -/
theorem reversed_iff (cfg : Config) (str del : List Byte) (rest : Mem) (hdel : del ≠ [])
    (hlim : ∀ n, pieces str del rest = .ok n → n ≤ cfg.maxArraySize) :
    (Reversed cfg str del rest ↔
      ∃ as t, Cuts del [] str as t ∧ nul ∉ t ∧ t.length ≤ cfg.maxStringLength ∧ as.length < 65535) ∧
    (nul ∉ del → ∃ as t, Cuts del [] str as t ∧ (nul ∉ t ↔ nul ∉ str)) := by
  refine ⟨?_, fun hclean => ?_⟩
  · by_cases hstr : str = []
    · subst hstr
      have hrev : Reversed cfg [] del rest := ⟨[], rfl, rfl⟩
      exact ⟨fun _ => ⟨[], [], .tail rfl, by simp, by simp, by simp⟩, fun _ => hrev⟩
    rw [reversed_iff_join hstr hdel hlim]
    constructor
    · rintro ⟨r, t', hsplit, hcopy, hsize, hjoin⟩
      obtain ⟨as, t, hcuts⟩ := cuts_of_split (w := []) hsplit (by simp) hjoin
      obtain rfl := Except.ok.inj (hsplit.symm.trans (hcuts.whole hdel))
      rw [stringCopy_nul] at hcopy
      cases hcopy
      obtain ⟨hclean, hlen⟩ := (copy_eq_self_iff _ t).1 (join_inj (hjoin.trans hcuts.join_eq.symm))
      exact ⟨as, t, hcuts, hclean, hlen, hsize⟩
    · rintro ⟨as, t, hcuts, hclean, hlen, hsize⟩
      refine ⟨_, t, hcuts.whole hdel, ?_, hsize, hcuts.join_eq⟩
      rw [stringCopy_nul, (copy_eq_self_iff _ t).2 ⟨hclean, hlen⟩]
  · obtain ⟨as, t, hcuts⟩ := Cuts.total hdel hclean [] str
    have hmem := nul_mem_join as t (by rwa [separator_eq hclean]) (hcuts.clean (by simp))
    rw [hcuts.join_eq] at hmem
    exact ⟨as, t, hcuts, not_congr hmem.symm⟩

/-- "a,b" with "," -/
theorem pair_reversed : Reversed .default [97, 44, 98] [44] [] ∧
      (∀ n, pieces [97, 44, 98] [44] [] = .ok n → n ≤ Config.default.maxArraySize) := by
  have hlim : ∀ n, pieces [97, 44, 98] [44] [] = .ok n → n ≤ Config.default.maxArraySize := by
    intro n hn
    cases hn
    decide
  refine ⟨(reversed_iff .default [97, 44, 98] [44] [] (by decide) hlim).1.2 ?_, hlim⟩
  refine ⟨[[97]], [98], ?_, by decide, by decide, by decide⟩
  refine Cuts.char (c := [97]) (by decide) (by decide) ?_
  refine Cuts.cut (by decide) ?_
  refine Cuts.char (c := [98]) (by decide) (by decide) ?_
  exact .tail rfl

/-- the bytes `a`, NUL, `b` with ",": what comes back ends at the NUL -/
theorem nul_not_reversed :
    pieces [97, 0, 98] [44] [] = .ok 1 ∧ explodeString .default [97, 0, 98] [44] [] = .ok [[97]] ∧
      implodeString [[97]] [44] = [97] ∧ ¬ Reversed .default [97, 0, 98] [44] [] := by
  have hexp : explodeString .default [97, 0, 98] [44] [] = .ok [[97]] := by decide
  refine ⟨by decide, hexp, by decide, ?_⟩
  rintro ⟨items, hitems, hx⟩
  cases hitems
  cases hx

end Lithos.Lpc.Explode
