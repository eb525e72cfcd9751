/-
Binary search by the two loops C programs write: the search for an equal key in an inclusive range, and the search for the
last position whose key does not exceed a bound.

Results:
* `bsearch_spec`: a position the search returns holds the key;
* `bsearch_eq_some`: a key is found where it stands, even when the last position of the range is out of order;
* `lastLE_spec`: the second loop ends at the last position whose key is at most the bound.
-/
import Mathlib.Data.Nat.Basic
import Mathlib.Order.Lattice
import Mathlib.Tactic.Common

namespace Lithos.Core.BinarySearch

variable {α : Type} [LinearOrder α] (key : ℕ → α)

/-- search of the positions `low … high - 1` for one whose key is `x` -/
def bsearch (key : ℕ → α) (x : α) (low high : ℕ) : Option ℕ :=
  if low < high then
    let mid := (high - 1 + low) / 2
    if x < key mid then bsearch key x low mid
    else if key mid < x then bsearch key x (mid + 1) high
    else some mid
  else none
  termination_by high - low

/-- what the search returns is in the range and holds the key -/
theorem bsearch_spec (x : α) (low high m : ℕ) (h : bsearch key x low high = some m) :
    low ≤ m ∧ m < high ∧ key m = x := by
  fun_induction bsearch key x low high with
  | case1 low high hlt mid hx ih =>
    obtain ⟨hl, hm, hk⟩ := ih h
    exact ⟨hl, by omega, hk⟩
  | case2 low high hlt mid hx hy ih =>
    obtain ⟨hl, hm, hk⟩ := ih h
    exact ⟨by omega, hm, hk⟩
  | case3 low high hlt mid hx hy =>
    have hm : mid = m := Option.some.inj h
    subst hm
    exact ⟨by omega, by omega, le_antisymm (not_lt.1 hx) (not_lt.1 hy)⟩
  | case4 low high hlt => cases h

/-- a key is found at its position `t` as soon as the keys before `t` are smaller and those after it larger; the last
position of the range is only looked at when it is the only one left, so nothing is asked of it -/
theorem bsearch_eq_some (x : α) (low high t : ℕ) (hlow : low ≤ t) (hhigh : t < high) (hx : key t = x)
    (hsmall : ∀ i, low ≤ i → i < t → key i < x) (hlarge : ∀ i, t < i → i + 1 < high → x < key i) :
    bsearch key x low high = some t := by
  fun_induction bsearch key x low high with
  | case1 low high hlt mid hmid ih =>
    have htm : t < mid := by
      by_contra hge
      rcases Nat.lt_or_eq_of_le (not_lt.1 hge) with hm | hm
      · exact lt_asymm hmid (hsmall mid (by omega) hm)
      · rw [hm, hx] at hmid
        exact lt_irrefl x hmid
    exact ih hlow htm hsmall fun i hi hi' => hlarge i hi (by omega)
  | case2 low high hlt mid hmid hmid' ih =>
    have htm : mid < t := by
      by_contra hge
      rcases Nat.lt_or_eq_of_le (not_lt.1 hge) with hm | hm
      · exact hmid (hlarge mid hm (by omega))
      · rw [← hm, hx] at hmid'
        exact lt_irrefl x hmid'
    exact ih htm hhigh (fun i hi hi' => hsmall i (by omega) hi') hlarge
  | case3 low high hlt mid hmid hmid' =>
    have hk : key mid = x := le_antisymm (not_lt.1 hmid) (not_lt.1 hmid')
    rcases lt_trichotomy mid t with hm | hm | hm
    · exact absurd hk (ne_of_lt (hsmall mid (by omega) hm))
    · rw [hm]
    · exact absurd hk (ne_of_gt (hlarge mid hm (by omega)))
  | case4 low high hlt => exact absurd (lt_of_le_of_lt hlow hhigh) hlt

/-- the loop `while (last > first)` that looks for the last position whose key is at most `x` -/
def lastLE (key : ℕ → α) (x : α) (first last : ℕ) : ℕ :=
  if first < last then
    let mid := (last + first + 1) / 2
    if x < key mid then lastLE key x first (mid - 1) else lastLE key x mid last
  else first
  termination_by last - first

/-- over keys in order, the loop ends at position `t` when the key at `t` is at most `x` and every later key is larger -/
theorem lastLE_spec (x : α) (first last t : ℕ) (hfirst : first ≤ t) (hlast : t ≤ last)
    (hle : ∀ i, first ≤ i → i ≤ t → key i ≤ x) (hgt : ∀ i, t < i → i ≤ last → x < key i) :
    lastLE key x first last = t := by
  fun_induction lastLE key x first last with
  | case1 first last hlt mid hmid ih =>
    have htm : t < mid := by
      by_contra hge
      exact not_lt.2 (hle mid (by omega) (not_lt.1 hge)) hmid
    exact ih hfirst (by omega) hle fun i hi hi' => hgt i hi (by omega)
  | case2 first last hlt mid hmid ih =>
    have htm : mid ≤ t := by
      by_contra hge
      exact hmid (hgt mid (not_le.1 hge) (by omega))
    exact ih htm hlast (fun i hi hi' => hle i (by omega) hi') hgt
  | case3 first last hlt => omega

end Lithos.Core.BinarySearch
