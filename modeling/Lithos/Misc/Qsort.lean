/-
`quickSort` of `lib/misc/qsort.c`, which sorts with comparison functions of the mudlib.

The comparator is called with a state of its own, so it may answer anything at any call. The array is a function of the
index, as `doSwap` exchanges whole elements; `stop` is `right + 1`. The offsets `size * i` and the sum `left + right`
are of type `int`, and a larger value has no result.

Results:
* `quickSort_correct_iff`: every array of `nmemb` elements of `size` bytes is permuted, whatever the comparator, and
  sorted by one that is a total preorder, exactly if the offset of the last element is an `int` and there are at most
  `2 ^ 30 + 1` elements.
-/
import Lithos.Core.QuickSort
import Mathlib.Algebra.Group.Nat.Defs
import Mathlib.Order.Antisymmetrization

namespace Lithos.Misc.Qsort

open Core.QuickSort List

variable {α σ : Type}

variable (compar : σ → α → α → ℤ × σ) (size : ℕ)

/-- the loop of `qSort`, with `n` elements left from `i` on -/
def loop (left : ℕ) : ℕ → ℕ → ℕ → (ℕ → α) → σ → Option (ℕ × (ℕ → α) × σ)
  | 0, _, last, v, st => some (last, v, st)
  | n + 1, i, last, v, st =>
    if size * i < 2 ^ 31 then
      let (order, st) := compar st (v i) (v left)
      if order < 0 then
        if size * (last + 1) < 2 ^ 31 then loop left n (i + 1) (last + 1) (swap v (last + 1) i) st else none
      else loop left n (i + 1) last v st
    else none

variable {compar size} {left stop rightmost n i last : ℕ} {v : ℕ → α} {st : σ}

theorem loop_bounds {r : ℕ × (ℕ → α) × σ} (h : loop compar size left n i last v st = some r) :
    last ≤ r.1 ∧ r.1 ≤ last + n := by
  induction n generalizing i last v st with
  | zero =>
    cases h
    exact ⟨le_rfl, le_rfl⟩
  | succ n ih =>
    rw [loop] at h
    dsimp only at h
    split_ifs at h
    all_goals
      have := ih h
      omega

variable (compar size)

def qSort (rightmost : ℕ) (v : ℕ → α) (left stop : ℕ) (st : σ) : Option ((ℕ → α) × σ) :=
  if stop ≤ left + 1 ∨ rightmost + 1 < stop then some (v, st)
  else
    let mid := (left + (stop - 1)) / 2
    if size * left < 2 ^ 31 ∧ left + (stop - 1) < 2 ^ 31 ∧ size * mid < 2 ^ 31 then
      match _h : loop compar size left (stop - left - 1) (left + 1) left (swap v left mid) st with
      | none => none
      | some (last, v, st) =>
        if size * last < 2 ^ 31 then
          (qSort rightmost (swap v left last) left last st).bind fun (v, st) => qSort rightmost v (last + 1) stop st
        else none
    else none
termination_by stop - left
decreasing_by
  all_goals
    have := loop_bounds _h
    omega

def quickSort (v : ℕ → α) (nmemb : ℕ) (st : σ) : Option ((ℕ → α) × σ) :=
  if nmemb < 2 then some (v, st) else qSort compar size (nmemb - 1) v 0 nmemb st

/-! ## Sorting within the limits -/

/-- the comparator tells if the first element is before the second -/
def Follows (lt : α → α → Bool) : Prop := ∀ st a b, (compar st a b).1 < 0 ↔ lt a b = true

variable {compar size}

theorem loop_spec (v : ℕ → α) (st : σ) (hint : ∀ k < stop, size * k < 2 ^ 31) (hl : left ≤ last) (hi : last < i)
    (hn : i + n ≤ stop) :
    ∃ r, loop compar size left n i last v st = some r ∧ Rearranged left stop v r.2.1 ∧
      ∀ lt, Follows compar lt → split lt left n i last v = (r.1, r.2.1) := by
  induction n generalizing i last v st with
  | zero => exact ⟨_, rfl, .refl v, fun _ _ => rfl⟩
  | succ n ih =>
    rw [loop, if_pos (hint i (by omega))]
    dsimp only
    by_cases hlt : (compar st (v i) (v left)).1 < 0
    · rw [if_pos hlt, if_pos (hint (last + 1) (by omega))]
      obtain ⟨r, hr, hmoved, hsplit⟩ := ih (swap v (last + 1) i) _ (show left ≤ last + 1 by omega) (Nat.succ_lt_succ hi)
        (by omega)
      refine ⟨r, hr, (Rearranged.swap v (by omega) (by omega) (by omega) (by omega)).trans hmoved, fun lt hf => ?_⟩
      rw [split, if_pos ((hf ..).1 hlt)]
      exact hsplit lt hf
    · rw [if_neg hlt]
      obtain ⟨r, hr, hmoved, hsplit⟩ := ih v _ hl (Nat.lt_succ_of_lt hi) (by omega)
      refine ⟨r, hr, hmoved, fun lt hf => ?_⟩
      rw [split, if_neg fun hc => hlt ((hf ..).2 hc)]
      exact hsplit lt hf

theorem qSort_spec (hsize : size * rightmost < 2 ^ 31) (hmany : rightmost ≤ 2 ^ 30) (v : ℕ → α) (st : σ) (left stop : ℕ)
    (hstop : stop ≤ rightmost + 1) :
    ∃ r, qSort compar size rightmost v left stop st = some r ∧ Rearranged left stop v r.1 ∧
      ∀ lt, Follows compar lt → r.1 = Core.QuickSort.qSort lt v left stop := by
  induction hd : stop - left using Nat.strong_induction_on generalizing v st left stop with
  | _ d ih =>
    have hint : ∀ k < stop, size * k < 2 ^ 31 := fun k hk => (Nat.mul_le_mul_left size (by omega)).trans_lt hsize
    rw [qSort]
    by_cases hshort : stop ≤ left + 1
    · rw [if_pos (.inl hshort)]
      exact ⟨_, rfl, .refl v, fun lt _ => by rw [Core.QuickSort.qSort, if_pos hshort]⟩
    obtain ⟨r, hloop, hmoved, hsplit⟩ := loop_spec (swap v left ((left + (stop - 1)) / 2)) st hint (le_refl left)
      (Nat.lt_succ_self left) (show left + 1 + (stop - left - 1) ≤ stop by omega)
    obtain ⟨hle, hlast⟩ := loop_bounds hloop
    obtain ⟨r₁, hr₁, hmoved₁, hsame₁⟩ := ih _ (by omega) (swap r.2.1 left r.1) r.2.2 left r.1 (by omega) rfl
    obtain ⟨r₂, hr₂, hmoved₂, hsame₂⟩ := ih _ (by omega) r₁.1 r₁.2 (r.1 + 1) stop hstop rfl
    rw [if_neg (by omega)]
    dsimp only
    rw [if_pos ⟨hint _ (by omega), by omega, hint _ (by omega)⟩]
    split
    · next hnone => cases hloop.symm.trans hnone
    · next last w st' hsome =>
      cases hloop.symm.trans hsome
      rw [if_pos (hint _ (by omega)), hr₁]
      have hfirst : Rearranged left stop v (swap v left ((left + (stop - 1)) / 2)) :=
        .swap v le_rfl (by omega) (by omega) (by omega)
      have hput : Rearranged left stop w (swap w left last) := .swap w le_rfl (by omega) hle (by omega)
      refine ⟨r₂, hr₂, ?_, fun lt hf => ?_⟩
      · exact (((hfirst.trans hmoved).trans hput).trans (hmoved₁.mono le_rfl (by omega))).trans
          (hmoved₂.mono (by omega) le_rfl)
      · have hparts : partition lt v left stop = (last, w) := hsplit lt hf
        rw [hsame₂ lt hf, hsame₁ lt hf, Core.QuickSort.qSort.eq_def lt v left stop, if_neg hshort, hparts]

theorem quickSort_spec (compar : σ → α → α → ℤ × σ) {nmemb : ℕ}
    (h : nmemb < 2 ∨ size * (nmemb - 1) < 2 ^ 31 ∧ nmemb - 1 ≤ 2 ^ 30) (v : ℕ → α) (st : σ) :
    ∃ r, quickSort compar size v nmemb st = some r ∧ Rearranged 0 nmemb v r.1 ∧
      ∀ lt, Follows compar lt → r.1 = Core.QuickSort.qSort lt v 0 nmemb := by
  rw [quickSort]
  split_ifs with hshort
  · exact ⟨_, rfl, .refl v, fun lt _ => by rw [Core.QuickSort.qSort, if_pos (by omega)]⟩
  · obtain ⟨hsize, hmany⟩ := h.resolve_left hshort
    exact qSort_spec hsize hmany v st 0 nmemb (by omega)

/-- the order that a total preorder gives to the sorted array -/
theorem qSort_le {le : α → α → Prop} (htrans : ∀ a b c, le a b → le b c → le a c) (htotal : ∀ a b, le a b ∨ le b a)
    {lt : α → α → Bool} (hlt : ∀ a b, lt a b = true ↔ ¬ le b a) (v : ℕ → α) {i j n : ℕ} (hij : i ≤ j) (hj : j < n) :
    le (Core.QuickSort.qSort lt v 0 n i) (Core.QuickSort.qSort lt v 0 n j) := by
  classical
  let _ : Preorder α := { le := le, le_refl := fun a => (htotal a a).elim id id, le_trans := htrans }
  have : Std.Total fun a b : α => a ≤ b := ⟨htotal⟩
  -- elements that are equal for the preorder have the same key
  have hkey : ∀ a b, lt a b = true ↔ toAntisymmetrization (fun a b : α => a ≤ b) a < toAntisymmetrization _ b := by
    intro a b
    rw [hlt, toAntisymmetrization_lt_toAntisymmetrization_iff]
    exact ⟨fun h => ⟨(htotal _ _).resolve_right h, h⟩, fun h => h.2⟩
  exact toAntisymmetrization_le_toAntisymmetrization_iff.1 (qSort_sorted hkey v 0 n i j (Nat.zero_le i) hij hj)

/-! ## Sizes outside the limits -/

variable {k : ℕ}

theorem loop_none (hk : ¬ size * k < 2 ^ 31) (hi : i ≤ k) (hn : k < i + n) (v : ℕ → α) (st : σ) :
    loop compar size left n i last v st = none := by
  induction n generalizing i last v st with
  | zero => omega
  | succ n ih =>
    rw [loop]
    by_cases heq : i = k
    · rw [heq, if_neg hk]
    dsimp only
    split_ifs
    · exact ih (by omega) (by omega) _ _
    · rfl
    · exact ih (by omega) (by omega) _ _
    · rfl

/-- a comparator for which all elements are equal -/
def never : Unit → Unit → Unit → ℤ × Unit := fun _ _ _ => (0, ())

theorem loop_never {v : ℕ → Unit} {r : ℕ × (ℕ → Unit) × Unit} (h : loop never size left n i last v () = some r) :
    r = (last, v, ()) := by
  induction n generalizing i with
  | zero => exact (Option.some.inj h).symm
  | succ n ih =>
    rw [loop] at h
    by_cases hi : size * i < 2 ^ 31
    · rw [if_pos hi] at h
      exact ih h
    · rw [if_neg hi] at h
      cases h

/-- with such a comparator only the second part is left to sort, up to the end of the array -/
theorem qSort_never (hmany : 2 ^ 30 < rightmost) (d : ℕ) (v : ℕ → Unit) (hd : 2 ^ 31 ≤ left + rightmost + d)
    (hl : left < rightmost) : qSort never size rightmost v left (rightmost + 1) () = none := by
  induction d generalizing left v with
  | zero =>
    rw [qSort, if_neg (by omega)]
    exact if_neg fun h => absurd h.2.1 (by omega)
  | succ d ih =>
    rw [qSort, if_neg (by omega)]
    dsimp only
    split_ifs with hint
    · split
      · rfl
      · next last w st hsome =>
        cases loop_never hsome
        split_ifs
        · rw [qSort, if_pos (.inl (Nat.le_succ _))]
          exact ih _ (by omega) (by omega)
        · rfl
    · rfl

/-! ## Every array -/

/-- **quickSort.** For a number and a size of elements: with every array and every comparator `quickSort` ends with the
elements permuted, and in the order of a comparator that is a total preorder, exactly if the offset of the last element
is an `int` and so is the sum of two indices. -/
theorem quickSort_correct_iff (nmemb size : ℕ) : (∀ (α σ : Type) (compar : σ → α → α → ℤ × σ) (v : ℕ → α) (st : σ),
      ∃ w st', quickSort compar size v nmemb st = some (w, st') ∧
        ((range nmemb).map w).Perm ((range nmemb).map v) ∧ (∀ i, nmemb ≤ i → w i = v i) ∧
        ∀ le : α → α → Prop, (∀ a b c, le a b → le b c → le a c) → (∀ a b, le a b ∨ le b a) →
          (∀ st a b, (compar st a b).1 < 0 ↔ ¬ le b a) → ∀ i j, i ≤ j → j < nmemb → le (w i) (w j)) ↔
      (nmemb < 2 ∨ size * (nmemb - 1) < 2 ^ 31 ∧ nmemb - 1 ≤ 2 ^ 30) := by
  constructor
  · intro h
    by_cases hshort : nmemb < 2
    · exact .inl hshort
    obtain ⟨w, st', hsome, -⟩ := h Unit Unit never (fun _ => ()) ()
    rw [quickSort, if_neg hshort] at hsome
    obtain ⟨rightmost, rfl⟩ : ∃ k, nmemb = k + 1 := ⟨nmemb - 1, by omega⟩
    refine .inr ⟨?_, ?_⟩
    · by_contra hsize
      rw [qSort, if_neg (by omega)] at hsome
      dsimp only at hsome
      split_ifs at hsome
      split at hsome
      · cases hsome
      · next hloop => cases (loop_none hsize (by omega) (by omega) _ _).symm.trans hloop
    · by_contra hmany
      cases (qSort_never (not_le.1 hmany) (2 ^ 31) _ (by omega) (by omega)).symm.trans hsome
  · intro h α σ compar v st
    classical
    obtain ⟨⟨w, st'⟩, hsome, hmoved, hsame⟩ := quickSort_spec compar h v st
    refine ⟨w, st', hsome, hmoved.perm, fun i hi => hmoved.outside (.inr hi), ?_⟩
    intro le htrans htotal hcompar i j hij hj
    have hlt : ∀ a b, decide (¬ le b a) = true ↔ ¬ le b a := fun a b => decide_eq_true_iff
    obtain rfl := hsame (fun a b => decide (¬ le b a)) fun st a b => (hcompar st a b).trans (hlt a b).symm
    exact qSort_le htrans htotal hlt v hij hj

/-- the third of three elements of `2 ^ 30` bytes has no offset -/
theorem large_elements : quickSort never (2 ^ 30) (fun _ => ()) 3 () = none := by
  rw [quickSort, if_neg (by decide), qSort]
  simp [loop, never]

end Lithos.Misc.Qsort
