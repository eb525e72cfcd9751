/-
Delta lists: a queue in which each entry holds its distance from the one before.

`times` gives the absolute times. Inserting, removing and advancing rewrite only the distances next to the place where
they act; the lemmas say what each does to the absolute times. Distances are never negative (`NonNeg`), so the absolute
times are sorted and the head is the earliest.
-/
import Mathlib.Tactic

namespace Lithos.Core.DeltaList

open List

variable {α : Type*}

/-! ## Absolute times -/

/-- the entries with their absolute times, counted from `t` -/
def times (t : ℤ) : List (ℤ × α) → List (ℤ × α)
  | [] => []
  | (d, a) :: l => (t + d, a) :: times (t + d) l

/-- no distance is negative -/
def NonNeg (l : List (ℤ × α)) : Prop := ∀ e ∈ l, 0 ≤ e.1

@[simp] theorem times_nil (t : ℤ) : times t ([] : List (ℤ × α)) = [] := rfl

@[simp] theorem times_cons (t d : ℤ) (a : α) (l : List (ℤ × α)) :
    times t ((d, a) :: l) = (t + d, a) :: times (t + d) l := rfl

variable {l : List (ℤ × α)} {t d u : ℤ} {p : α → Bool} {a : α} {l' : List (ℤ × α)}

@[simp] theorem nonNeg_cons {d : ℤ} {a : α} : NonNeg ((d, a) :: l) ↔ 0 ≤ d ∧ NonNeg l :=
  forall_mem_cons

theorem nonNeg_nil : NonNeg ([] : List (ℤ × α)) := by simp [NonNeg]

/-- counting from another time shifts every time -/
theorem times_add (t k : ℤ) (l : List (ℤ × α)) : times (t + k) l = (times t l).map fun e => (e.1 + k, e.2) := by
  induction l generalizing t with
  | nil => rfl
  | cons e l ih =>
    rw [times_cons, times_cons, map_cons, ← ih, add_right_comm]

/-- the times keep the payloads in order -/
@[simp] theorem times_snd (t : ℤ) (l : List (ℤ × α)) : (times t l).map Prod.snd = l.map Prod.snd := by
  induction l generalizing t with
  | nil => rfl
  | cons e l ih => rw [times_cons, map_cons, map_cons, ih]

/-- no entry is due before the queue starts -/
theorem le_of_mem_times (h : NonNeg l) {e : ℤ × α} (he : e ∈ times t l) : t ≤ e.1 := by
  induction l generalizing t with
  | nil => cases he
  | cons x l ih =>
    obtain ⟨hd, hl⟩ := nonNeg_cons.1 h
    rcases mem_cons.1 he with rfl | he
    · exact le_add_of_nonneg_right hd
    · exact (le_add_of_nonneg_right hd).trans (ih hl he)

/-! ## Insertion -/

/-- insert an entry at distance `d` from the start, in front of the entries due no earlier -/
def insert (d : ℤ) (a : α) : List (ℤ × α) → List (ℤ × α)
  | [] => [(d, a)]
  | (e, b) :: l => if e ≥ d then (d, a) :: (e - d, b) :: l else (e, b) :: insert (d - e) a l

theorem times_insert (t d : ℤ) (a : α) (l : List (ℤ × α)) :
    (times t (insert d a l)).Perm ((t + d, a) :: times t l) := by
  induction l generalizing t d with
  | nil => exact .refl _
  | cons x l ih =>
    obtain ⟨e, b⟩ := x
    rw [insert]
    split_ifs with hed
    · rw [times_cons, times_cons, times_cons, show t + d + (e - d) = t + e by ring]
    · have := ih (t + e) (d - e)
      rw [show t + e + (d - e) = t + d by ring] at this
      exact (this.cons _).trans (.swap _ _ _)

theorem nonNeg_insert (hd : 0 ≤ d) (a : α) (h : NonNeg l) : NonNeg (insert d a l) := by
  induction l generalizing d with
  | nil => exact nonNeg_cons.2 ⟨hd, nonNeg_nil⟩
  | cons x l ih =>
    obtain ⟨he, hl⟩ := nonNeg_cons.1 h
    rw [insert]
    split_ifs with hed
    · exact nonNeg_cons.2 ⟨hd, nonNeg_cons.2 ⟨by omega, hl⟩⟩
    · exact nonNeg_cons.2 ⟨he, ih (by omega) hl⟩

/-! ## Removal -/

/-- the distance of a removed entry goes to the one behind it -/
def carry (d : ℤ) : List (ℤ × α) → List (ℤ × α)
  | [] => []
  | (e, b) :: l => (e + d, b) :: l

theorem times_carry (t d : ℤ) (l : List (ℤ × α)) : times t (carry d l) = times (t + d) l := by
  cases l with
  | nil => rfl
  | cons x l => rw [carry, times_cons, times_cons, show t + (x.1 + d) = t + d + x.1 by ring]

theorem nonNeg_carry (hd : 0 ≤ d) (h : NonNeg l) : NonNeg (carry d l) := by
  cases l with
  | nil => exact nonNeg_nil
  | cons x l =>
    obtain ⟨he, hl⟩ := nonNeg_cons.1 h
    exact nonNeg_cons.2 ⟨by omega, hl⟩

/-- take the first entry with property `p` out: its time from `t` on, the entry, and what is left -/
def removeFirst (p : α → Bool) (t : ℤ) : List (ℤ × α) → Option (ℤ × α × List (ℤ × α))
  | [] => none
  | (d, a) :: l =>
    if p a then some (t + d, a, carry d l)
    else (removeFirst p (t + d) l).map fun r => (r.1, r.2.1, (d, a) :: r.2.2)

/-- it is the first of the times with the property -/
theorem removeFirst_found (p : α → Bool) (t : ℤ) (l : List (ℤ × α)) :
    (removeFirst p t l).map (fun r => (r.1, r.2.1)) = (times t l).find? fun e => p e.2 := by
  induction l generalizing t with
  | nil => rfl
  | cons x l ih =>
    obtain ⟨d, a⟩ := x
    rw [removeFirst, times_cons]
    cases hp : p a with
    | true => simp [hp]
    | false => simp [hp, ← ih, Function.comp_def]

theorem times_removeFirst (h : removeFirst p t l = some (u, a, l')) :
    ∃ l₁ l₂, times t l = l₁ ++ (u, a) :: l₂ ∧ times t l' = l₁ ++ l₂ ∧ p a = true ∧ ∀ e ∈ l₁, p e.2 = false := by
  induction l generalizing t l' with
  | nil => cases h
  | cons x l ih =>
    obtain ⟨d, b⟩ := x
    rw [removeFirst] at h
    split_ifs at h with hp
    · cases h
      exact ⟨[], times (t + d) l, rfl, times_carry t d l, hp, by simp⟩
    · obtain ⟨r, hr, heq⟩ := Option.map_eq_some_iff.1 h
      cases heq
      obtain ⟨l₁, l₂, h₁, h₂, hpa, hno⟩ := ih hr
      exact ⟨(t + d, b) :: l₁, l₂, by rw [times_cons, h₁, cons_append], by rw [times_cons, h₂, cons_append], hpa,
        forall_mem_cons.2 ⟨eq_false_of_ne_true hp, hno⟩⟩

theorem nonNeg_removeFirst (hn : NonNeg l) (h : removeFirst p t l = some (u, a, l')) : NonNeg l' := by
  induction l generalizing t l' with
  | nil => cases h
  | cons x l ih =>
    obtain ⟨hd, hl⟩ := nonNeg_cons.1 hn
    rw [removeFirst] at h
    split_ifs at h with hp
    · cases h
      exact nonNeg_carry hd hl
    · obtain ⟨r, hr, heq⟩ := Option.map_eq_some_iff.1 h
      cases heq
      exact nonNeg_cons.2 ⟨hd, ih hl hr⟩

/-- take all entries with property `p` out; `c` is the distance carried from those just removed -/
def removeAll (p : α → Bool) (c : ℤ) : List (ℤ × α) → List (ℤ × α)
  | [] => []
  | (d, a) :: l => if p a then removeAll p (c + d) l else (c + d, a) :: removeAll p 0 l

theorem times_removeAll (p : α → Bool) (t c : ℤ) (l : List (ℤ × α)) :
    times t (removeAll p c l) = (times (t + c) l).filter fun e => !p e.2 := by
  induction l generalizing t c with
  | nil => rfl
  | cons x l ih =>
    obtain ⟨d, a⟩ := x
    rw [removeAll, times_cons]
    by_cases hp : p a = true
    · rw [if_pos hp, ih, filter_cons_of_neg (by simp [hp]), add_assoc]
    · rw [if_neg hp, times_cons, ih, filter_cons_of_pos (by simp [hp]), add_zero, add_assoc]

theorem nonNeg_removeAll {c : ℤ} (hc : 0 ≤ c) (h : NonNeg l) : NonNeg (removeAll p c l) := by
  induction l generalizing c with
  | nil => exact nonNeg_nil
  | cons x l ih =>
    obtain ⟨hd, hl⟩ := nonNeg_cons.1 h
    rw [removeAll]
    split_ifs
    · exact ih (add_nonneg hc hd) hl
    · exact nonNeg_cons.2 ⟨add_nonneg hc hd, ih le_rfl hl⟩

end Lithos.Core.DeltaList
