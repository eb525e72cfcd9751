/-
File-name wildcards (`match_string` of `file_utils.c`).

`match_string` tries the rest of the pattern behind a `*` at every character of the name, but not at its end, so a second
`*` at the end of the pattern asks for a character. A backslash that ends the pattern matches nothing.

Results:
- `matchString_iff`: a pattern is matched by the names it stands for, unless it ends in two stars or in a backslash.
- `two_stars_miss`: `a**` does not match `a`.
-/
import Lithos.Lpc.Types

namespace Lithos.Misc.Wildcard

open Lithos.Lpc List

def question : Byte := 63
def star : Byte := 42
def backslash : Byte := 92

/-- `match_string` -/
def matchString : List Byte → List Byte → Bool
  | [], str => str.isEmpty
  | c :: rest, str =>
    if c = question then !str.isEmpty && matchString rest str.tail
    else if c = star then rest.isEmpty || (range str.length).any fun i => matchString rest (str.drop i)
    else if c = backslash then
      match rest with
      | [] => false
      | d :: rest => str.head? == some d && matchString rest str.tail
    else str.head? == some c && matchString rest str.tail

/-- the name belongs to the language of the pattern -/
def Fits : List Byte → List Byte → Prop
  | [], str => str = []
  | c :: rest, str =>
    if c = question then ∃ d s, str = d :: s ∧ Fits rest s
    else if c = star then ∃ i ≤ str.length, Fits rest (str.drop i)
    else if c = backslash then
      match rest with
      | [] => str = [backslash]
      | d :: rest => ∃ s, str = d :: s ∧ Fits rest s
    else ∃ s, str = c :: s ∧ Fits rest s

/-- the pattern ends in two stars or in a backslash, escaped characters apart -/
def EndsOpen : List Byte → Prop
  | [] => False
  | c :: rest =>
    if c = backslash then
      match rest with
      | [] => True
      | _ :: rest => EndsOpen rest
    else (c = star ∧ rest = [star]) ∨ EndsOpen rest

/-- a pattern that fits the empty name is made of stars, so two of them end it -/
theorem endsOpen_of_fits_nil (m : List Byte) (hm : m ≠ []) (h : Fits m []) : EndsOpen (star :: m) := by
  induction m with
  | nil => exact absurd rfl hm
  | cons c m ih =>
    unfold Fits at h
    rw [EndsOpen, if_neg (by decide)]
    split_ifs at h with hq hs hb
    · obtain ⟨d, s, hnil, -⟩ := h
      cases hnil
    · subst hs
      by_cases hm : m = []
      · exact .inl ⟨rfl, by rw [hm]⟩
      · obtain ⟨i, -, hfits⟩ := h
        exact .inr (ih hm (drop_nil ▸ hfits))
    · split at h
      · cases h
      · obtain ⟨s, hnil, -⟩ := h
        cases hnil
    · obtain ⟨s, hnil, -⟩ := h
      cases hnil

theorem head_and_iff {f : List Byte → Bool} {P : List Byte → Prop} (hf : ∀ s, f s = true ↔ P s) (c : Byte)
    (str : List Byte) : (str.head? == some c && f str.tail) = true ↔ ∃ s, str = c :: s ∧ P s := by
  cases str with
  | nil => simp
  | cons d s => simp [hf]

/-- behind a star the rest is found at a character of the name, or at its end -/
theorem star_iff {f : List Byte → Bool} {P : List Byte → Prop} (hf : ∀ s, f s = true ↔ P s) (hnil : ¬ P [])
    (str : List Byte) : ((range str.length).any fun i => f (str.drop i)) = true ↔ ∃ i ≤ str.length, P (str.drop i) := by
  simp only [any_eq_true, mem_range, hf]
  refine exists_congr fun i => and_congr_left fun hdrop => ⟨le_of_lt, fun hle => lt_of_le_of_ne hle ?_⟩
  rintro rfl
  exact hnil (drop_length ▸ hdrop)

theorem matchString_of_closed (m : List Byte) (h : ¬ EndsOpen m) (str : List Byte) :
    matchString m str = true ↔ Fits m str := by
  induction m using EndsOpen.induct generalizing str with
  | case1 => exact isEmpty_iff
  | case2 => exact absurd trivial h
  | case3 d rest ih =>
    unfold matchString Fits
    exact head_and_iff (ih h) d str
  | case4 c rest hc ih =>
    have hopen := h
    rw [EndsOpen.eq_def] at h
    dsimp only at h
    rw [if_neg hc, not_or] at h
    unfold matchString Fits
    split_ifs with hq hs
    · cases str <;> simp [ih h.2]
    · subst hs
      by_cases hrest : rest = []
      · subst hrest
        exact iff_of_true rfl ⟨str.length, le_rfl, drop_length⟩
      · rw [isEmpty_eq_false_iff.2 hrest, Bool.false_or]
        exact star_iff (ih h.2) (fun hnil => hopen (endsOpen_of_fits_nil rest hrest hnil)) str
    · exact head_and_iff (ih h.2) c str

/-- a shortest name of a pattern -/
def shortest : List Byte → List Byte
  | [] => []
  | c :: rest =>
    if c = backslash then
      match rest with
      | [] => [backslash]
      | d :: rest => d :: shortest rest
    else if c = star then shortest rest
    else c :: shortest rest

theorem fits_shortest (m : List Byte) : Fits m (shortest m) := by
  induction m using shortest.induct with
  | case1 => rfl
  | case2 => rfl
  | case3 d rest ih => exact ⟨_, rfl, ih⟩
  | case4 rest _ ih =>
    unfold Fits shortest
    rw [if_neg (by decide), if_pos rfl, if_neg (by decide), if_pos rfl]
    exact ⟨0, Nat.zero_le _, ih⟩
  | case5 c rest hb hs ih =>
    unfold Fits shortest
    rw [if_neg hb, if_neg hs, if_neg hs, if_neg hb]
    split_ifs
    · exact ⟨c, _, rfl, ih⟩
    · exact ⟨_, rfl, ih⟩

theorem lt_of_matchString (m : List Byte) (h : EndsOpen m) {str : List Byte} (hm : matchString m str = true) :
    (shortest m).length < str.length := by
  induction m using EndsOpen.induct generalizing str with
  | case1 => exact h.elim
  | case2 => cases hm
  | case3 d rest ih =>
    obtain ⟨s, rfl, hs⟩ := (head_and_iff (fun _ => Iff.rfl) d str).1 hm
    exact Nat.succ_lt_succ (ih h hs)
  | case4 c rest hc ih =>
    unfold EndsOpen at h
    unfold matchString at hm
    unfold shortest
    rw [if_neg hc] at h hm ⊢
    by_cases hs : c = star
    · subst hs
      rw [if_neg (by decide), if_pos rfl] at hm
      rw [if_pos rfl]
      rcases h with ⟨-, rfl⟩ | h
      · cases str with
        | nil => cases hm
        | cons d s => exact Nat.succ_pos _
      · have hrest : rest.isEmpty = false := isEmpty_eq_false_iff.2 (by rintro rfl; exact h)
        rw [hrest, Bool.false_or, any_eq_true] at hm
        obtain ⟨i, -, hi⟩ := hm
        exact (ih h hi).trans_le (drop_sublist i str).length_le
    · replace h := h.resolve_left fun h => hs h.1
      rw [if_neg hs] at hm ⊢
      split_ifs at hm with hq
      · cases str with
        | nil => cases hm
        | cons d s => exact Nat.succ_lt_succ (ih h hm)
      · obtain ⟨s, rfl, hmatch⟩ := (head_and_iff (fun _ => Iff.rfl) c str).1 hm
        exact Nat.succ_lt_succ (ih h hmatch)

/-- **Wildcards.** The names that a pattern matches are those of its language iff the pattern ends neither in two stars
nor in a backslash. -/
theorem matchString_iff (m : List Byte) : (∀ str, matchString m str = true ↔ Fits m str) ↔ ¬ EndsOpen m := by
  refine ⟨fun hall hopen => ?_, matchString_of_closed m⟩
  exact absurd (lt_of_matchString m hopen ((hall _).2 (fits_shortest m))) (lt_irrefl _)

/-- `a**` and the name `a` -/
theorem two_stars_miss : matchString [97, star, star] [97] = false ∧ Fits [97, star, star] [97] :=
  ⟨by decide, fits_shortest [97, star, star]⟩

end Lithos.Misc.Wildcard
