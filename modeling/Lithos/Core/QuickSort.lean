/-
Quicksort on an array, with the pivot taken from the middle.

The array is a function of the index. Sorting a segment only rearranges it (`Rearranged`: the array before, after a
permutation of the indices that moves none outside). The comparison is any Boolean; if it is the order of a key, the
segment comes out in that order (`qSort_sorted`). It is enough that it agrees with the order on the pairs that are
compared when the array is sorted by the key (`comparisons`, `quickSort_sorted`).
-/
import Mathlib.Logic.Equiv.Basic
import Mathlib.Data.List.Perm.Basic
import Mathlib.Data.List.GetD
import Mathlib.Data.List.Nodup
import Mathlib.Data.Nat.Basic
import Mathlib.Order.Lattice
import Mathlib.Tactic.Common

namespace Lithos.Core.QuickSort

open List

variable {α β : Type*} {lt : α → α → Bool} {v w u : ℕ → α} {left stop : ℕ}

/-! ## The algorithm -/

def swap (v : ℕ → α) (i j : ℕ) : ℕ → α := v ∘ Equiv.swap i j

/-- the elements from `i` on, `n` of them, against the pivot at `left`: those before it go behind `last` -/
def split (lt : α → α → Bool) (left : ℕ) : ℕ → ℕ → ℕ → (ℕ → α) → ℕ × (ℕ → α)
  | 0, _, last, v => (last, v)
  | n + 1, i, last, v =>
    if lt (v i) (v left) then split lt left n (i + 1) (last + 1) (swap v (last + 1) i)
    else split lt left n (i + 1) last v

theorem split_bounds (lt : α → α → Bool) (left n i last : ℕ) (v : ℕ → α) :
    last ≤ (split lt left n i last v).1 ∧ (split lt left n i last v).1 ≤ last + n := by
  induction n generalizing i last v with
  | zero => exact ⟨le_rfl, le_rfl⟩
  | succ n ih =>
    rw [split]
    split_ifs
    · have := ih (i + 1) (last + 1) (swap v (last + 1) i)
      omega
    · have := ih (i + 1) last v
      omega

/-- the middle element becomes the pivot; where it ends, and the array before it is put there -/
def partition (lt : α → α → Bool) (v : ℕ → α) (left stop : ℕ) : ℕ × (ℕ → α) :=
  split lt left (stop - left - 1) (left + 1) left (swap v left ((left + (stop - 1)) / 2))

theorem partition_bounds (lt : α → α → Bool) (v : ℕ → α) {left stop : ℕ} (h : ¬ stop ≤ left + 1) :
    left ≤ (partition lt v left stop).1 ∧ (partition lt v left stop).1 < stop := by
  have := split_bounds lt left (stop - left - 1) (left + 1) left (swap v left ((left + (stop - 1)) / 2))
  unfold partition
  omega

/-- sorting the segment from `left` up to but not including `stop` -/
def qSort (lt : α → α → Bool) (v : ℕ → α) (left stop : ℕ) : ℕ → α :=
  if stop ≤ left + 1 then v
  else
    let parts := partition lt v left stop
    qSort lt (qSort lt (swap parts.2 left parts.1) left parts.1) (parts.1 + 1) stop
termination_by stop - left
decreasing_by
  all_goals
    have := partition_bounds lt v (by assumption)
    omega

/-- the pairs that are compared while a segment is sorted: each element of a part with the part's pivot -/
def comparisons (lt : α → α → Bool) (v : ℕ → α) (left stop : ℕ) : List (α × α) :=
  if stop ≤ left + 1 then []
  else
    let w := swap v left ((left + (stop - 1)) / 2)
    let parts := partition lt v left stop
    (range' (left + 1) (stop - left - 1)).map (fun i => (w i, w left)) ++
      comparisons lt (swap parts.2 left parts.1) left parts.1 ++
        comparisons lt (qSort lt (swap parts.2 left parts.1) left parts.1) (parts.1 + 1) stop
termination_by stop - left
decreasing_by
  all_goals
    have := partition_bounds lt v (by assumption)
    omega

/-- sorting a list as an array -/
def quickSort [Inhabited α] (lt : α → α → Bool) (l : List α) : List α :=
  (range l.length).map (qSort lt (fun i => l.getD i default) 0 l.length)

/-! ## Rearranging -/

/-- `w` is `v` with the segment from `left` to `stop` rearranged -/
def Rearranged (left stop : ℕ) (v w : ℕ → α) : Prop :=
  ∃ σ : Equiv.Perm ℕ, (∀ i, i < left ∨ stop ≤ i → σ i = i) ∧ w = v ∘ σ

/-- a permutation that moves nothing outside a segment keeps what is inside it there -/
theorem perm_mem {σ : Equiv.Perm ℕ} (hσ : ∀ i, i < left ∨ stop ≤ i → σ i = i) {i : ℕ} (hi : left ≤ i) (hi' : i < stop) :
    left ≤ σ i ∧ σ i < stop := by
  by_contra hout
  have hfix : σ (σ i) = σ i := hσ (σ i) (by omega)
  have := σ.injective hfix
  omega

namespace Rearranged

theorem refl (v : ℕ → α) : Rearranged left stop v v := ⟨Equiv.refl ℕ, fun _ _ => rfl, rfl⟩

theorem trans (h : Rearranged left stop v w) (h' : Rearranged left stop w u) : Rearranged left stop v u := by
  obtain ⟨σ, hσ, rfl⟩ := h
  obtain ⟨τ, hτ, rfl⟩ := h'
  exact ⟨τ.trans σ, fun i hi => by rw [Equiv.trans_apply, hτ i hi, hσ i hi], rfl⟩

theorem mono {left' stop' : ℕ} (h : Rearranged left stop v w) (hl : left' ≤ left) (hs : stop ≤ stop') :
    Rearranged left' stop' v w := by
  obtain ⟨σ, hσ, rfl⟩ := h
  exact ⟨σ, fun i hi => hσ i (by omega), rfl⟩

variable {i : ℕ}

theorem swap (v : ℕ → α) {j : ℕ} (hi : left ≤ i) (hi' : i < stop) (hj : left ≤ j) (hj' : j < stop) :
    Rearranged left stop v (swap v i j) :=
  ⟨Equiv.swap i j, fun k hk => Equiv.swap_apply_of_ne_of_ne (by omega) (by omega), rfl⟩

/-- outside the segment nothing changes -/
theorem outside (h : Rearranged left stop v w) (hi : i < left ∨ stop ≤ i) : w i = v i := by
  obtain ⟨σ, hσ, rfl⟩ := h
  rw [Function.comp_apply, hσ i hi]

/-- what holds of all elements of the segment holds of them after rearranging -/
theorem forall_mem (h : Rearranged left stop v w) {P : α → Prop} (hP : ∀ i, left ≤ i → i < stop → P (v i)) :
    ∀ i, left ≤ i → i < stop → P (w i) := by
  obtain ⟨σ, hσ, rfl⟩ := h
  intro i hi hi'
  exact hP (σ i) (perm_mem hσ hi hi').1 (perm_mem hσ hi hi').2

/-- an array that is rearranged within its bounds is permuted -/
theorem perm {n : ℕ} (h : Rearranged 0 n v w) : ((range n).map w).Perm ((range n).map v) := by
  obtain ⟨σ, hσ, rfl⟩ := h
  have hperm : ((range n).map σ).Perm (range n) := by
    refine (perm_ext_iff_of_nodup (nodup_range.map σ.injective) nodup_range).2 fun i => ?_
    have hin : ∀ i, σ i < n ↔ i < n := by
      intro i
      by_cases hi : i < n
      · exact ⟨fun _ => hi, fun _ => (perm_mem hσ (Nat.zero_le i) hi).2⟩
      · rw [hσ i (Or.inr (by omega))]
    rw [mem_map, mem_range]
    constructor
    · rintro ⟨j, hj, rfl⟩
      exact (hin j).2 (mem_range.1 hj)
    · intro hi
      refine ⟨σ.symm i, mem_range.2 ((hin _).1 ?_), σ.apply_symm_apply i⟩
      rwa [σ.apply_symm_apply]
  rw [← map_map]
  exact hperm.map v

end Rearranged

section Sorted

variable [LinearOrder β] {key : α → β} {last i : ℕ}

/-- the array while the elements are compared with the pivot -/
structure Parted (lt : α → α → Bool) (v : ℕ → α) (left last i : ℕ) : Prop where
  left_le : left ≤ last
  lt_i : last < i
  before : ∀ k, left < k → k ≤ last → lt (v k) (v left) = true
  behind : ∀ k, last < k → k < i → lt (v k) (v left) = false

theorem Parted.skip (h : Parted lt v left last i) (hi : lt (v i) (v left) = false) : Parted lt v left last (i + 1) where
  left_le := h.left_le
  lt_i := Nat.lt_succ_of_lt h.lt_i
  before := h.before
  behind := by
    intro k hk hk'
    rcases Nat.lt_succ_iff_lt_or_eq.1 hk' with hlt | rfl
    · exact h.behind k hk hlt
    · exact hi

theorem Parted.take (h : Parted lt v left last i) (hi : lt (v i) (v left) = true) :
    Parted lt (swap v (last + 1) i) left (last + 1) (i + 1) := by
  have hleft := h.left_le
  have hlt := h.lt_i
  have hpivot : swap v (last + 1) i left = v left :=
    congrArg v (Equiv.swap_apply_of_ne_of_ne (by omega) (by omega))
  refine ⟨by omega, by omega, fun k hk hk' => ?_, fun k hk hk' => ?_⟩
  · rw [hpivot]
    by_cases hlast : k = last + 1
    · rw [hlast, swap, Function.comp_apply, Equiv.swap_apply_left]; exact hi
    · rw [swap, Function.comp_apply, Equiv.swap_apply_of_ne_of_ne hlast (by omega)]
      exact h.before k hk (by omega)
  · rw [hpivot]
    by_cases hki : k = i
    · rw [hki, swap, Function.comp_apply, Equiv.swap_apply_right]
      exact h.behind (last + 1) (by omega) (by omega)
    · rw [swap, Function.comp_apply, Equiv.swap_apply_of_ne_of_ne (by omega) hki]
      exact h.behind k (by omega) (by omega)

theorem split_parted (n : ℕ) (h : Parted lt v left last i) :
    Parted lt (split lt left n i last v).2 left (split lt left n i last v).1 (i + n) ∧
      Rearranged (left + 1) (i + n) v (split lt left n i last v).2 := by
  induction n generalizing i last v with
  | zero => exact ⟨h, Rearranged.refl v⟩
  | succ n ih =>
    have hleft := h.left_le
    have hlt := h.lt_i
    have hstop : i + (n + 1) = i + 1 + n := by omega
    rw [split, hstop]
    split_ifs with hi
    · obtain ⟨hp, hr⟩ := ih (h.take hi)
      refine ⟨hp, Rearranged.trans (Rearranged.swap v ?_ ?_ ?_ ?_) hr⟩ <;> omega
    · exact ih (h.skip (by simpa using hi))

/-- the pivot in its place: what is before it is smaller, what is behind it is not -/
structure Placed (key : α → β) (v : ℕ → α) (left p stop : ℕ) : Prop where
  before : ∀ k, left ≤ k → k < p → key (v k) ≤ key (v p)
  behind : ∀ k, p < k → k < stop → key (v p) ≤ key (v k)

theorem partition_parted (lt : α → α → Bool) (v : ℕ → α) (hlong : ¬ stop ≤ left + 1) :
    Parted lt (partition lt v left stop).2 left (partition lt v left stop).1 stop ∧
      Rearranged left stop v (partition lt v left stop).2 := by
  have hmid : left ≤ (left + (stop - 1)) / 2 ∧ (left + (stop - 1)) / 2 < stop := by omega
  have hfirst : Rearranged left stop v (swap v left ((left + (stop - 1)) / 2)) :=
    Rearranged.swap v le_rfl (by omega) hmid.1 hmid.2
  have hstart : Parted lt (swap v left ((left + (stop - 1)) / 2)) left left (left + 1) :=
    ⟨le_rfl, Nat.lt_succ_self left, fun k _ _ => by omega, fun k _ _ => by omega⟩
  obtain ⟨hparted, hr⟩ := split_parted (stop - left - 1) hstart
  have hstop : left + 1 + (stop - left - 1) = stop := by omega
  rw [hstop] at hparted hr
  exact ⟨hparted, hfirst.trans (hr.mono (by omega) le_rfl)⟩

/-- putting the pivot in its place -/
theorem Parted.placed {p : ℕ} (h : Parted lt w left p stop) (hlt : ∀ a b, lt a b = true ↔ key a < key b) :
    Placed key (swap w left p) left p stop := by
  have hle := h.left_le
  have hpivot : swap w left p p = w left := congrArg w (Equiv.swap_apply_right left p)
  refine ⟨fun k hk hk' => ?_, fun k hk hk' => ?_⟩
  · rw [hpivot]
    by_cases hkl : k = left
    · have hlast : swap w left p k = w p := by rw [hkl]; exact congrArg w (Equiv.swap_apply_left left p)
      rw [hlast]
      exact ((hlt _ _).1 (h.before p (by omega) le_rfl)).le
    · have hsame : swap w left p k = w k := congrArg w (Equiv.swap_apply_of_ne_of_ne hkl (by omega))
      rw [hsame]
      exact ((hlt _ _).1 (h.before k (by omega) hk'.le)).le
  · have hsame : swap w left p k = w k := congrArg w (Equiv.swap_apply_of_ne_of_ne (by omega) (by omega))
    rw [hpivot, hsame]
    refine le_of_not_gt fun hgt => ?_
    have hbefore := (hlt _ _).2 hgt
    rw [h.behind k hk hk'] at hbefore
    cases hbefore

/-! ## Sorting -/

theorem qSort_rearranged (lt : α → α → Bool) (v : ℕ → α) (left stop : ℕ) :
    Rearranged left stop v (qSort lt v left stop) := by
  fun_induction qSort lt v left stop with
  | case1 v left stop _ => exact Rearranged.refl v
  | case2 v left stop hlong parts ihleft _ ihright =>
    obtain ⟨hle, hlt⟩ : left ≤ parts.1 ∧ parts.1 < stop := partition_bounds lt v hlong
    obtain ⟨-, hr⟩ := partition_parted lt v hlong
    have hput : Rearranged left stop parts.2 (swap parts.2 left parts.1) :=
      Rearranged.swap parts.2 le_rfl (by omega) hle hlt
    exact ((hr.trans hput).trans (ihleft.mono le_rfl hlt.le)).trans (ihright.mono (by omega) le_rfl)

/-- **Quicksort.** The segment comes out in the order of the key. -/
theorem qSort_sorted (h : ∀ a b, lt a b = true ↔ key a < key b) (v : ℕ → α) (left stop : ℕ) :
    ∀ i j, left ≤ i → i ≤ j → j < stop → key (qSort lt v left stop i) ≤ key (qSort lt v left stop j) := by
  fun_induction qSort lt v left stop with
  | case1 v left stop hshort =>
    intro i j hi hij hj
    obtain rfl : i = j := by omega
    exact le_rfl
  | case2 v left stop hlong parts ihleft _ ihright =>
    obtain ⟨hle, hlt⟩ : left ≤ parts.1 ∧ parts.1 < stop := partition_bounds lt v hlong
    have hplaced : Placed key (swap parts.2 left parts.1) left parts.1 stop := (partition_parted lt v hlong).1.placed h
    generalize swap parts.2 left parts.1 = w at *
    generalize parts.1 = p at *
    have hl : Rearranged left p w (qSort lt w left p) := qSort_rearranged lt w left p
    generalize qSort lt w left p = u at *
    have hu : Rearranged (p + 1) stop u (qSort lt u (p + 1) stop) := qSort_rearranged lt u (p + 1) stop
    generalize qSort lt u (p + 1) stop = x at *
    -- the pivot stays where it is, smaller and larger elements stay on their sides
    have hpivot : x p = w p := (hu.outside (.inl (Nat.lt_succ_self p))).trans (hl.outside (.inr le_rfl))
    have hbefore : ∀ k, left ≤ k → k < p → key (x k) ≤ key (x p) := by
      intro k hk hk'
      rw [hpivot, hu.outside (.inl (by omega))]
      exact hl.forall_mem (P := fun a => key a ≤ key (w p)) hplaced.before k hk hk'
    have hbehind : ∀ k, p < k → k < stop → key (x p) ≤ key (x k) := by
      intro k hk hk'
      rw [hpivot]
      refine hu.forall_mem (P := fun a => key (w p) ≤ key a) (fun i hi hi' => ?_) k hk hk'
      rw [hl.outside (.inr (by omega))]
      exact hplaced.behind i hi hi'
    intro i j hi hij hj
    rcases lt_trichotomy i p with hip | rfl | hip
    · rcases lt_trichotomy j p with hjp | rfl | hjp
      · rw [hu.outside (.inl (by omega)), hu.outside (.inl (by omega))]
        exact ihleft i j hi hij hjp
      · exact hbefore i hi hip
      · exact (hbefore i hi hip).trans (hbehind j hjp hj)
    · rcases Nat.eq_or_lt_of_le hij with rfl | hlt
      · exact le_rfl
      · exact hbehind j hlt hj
    · exact ihright i j hip hij hj

/-! ## The comparisons -/

variable {lt' : α → α → Bool}

theorem split_congr (n : ℕ) (hleft : left ≤ last) (hlast : last < i)
    (h : ∀ k, i ≤ k → k < i + n → lt (v k) (v left) = lt' (v k) (v left)) :
    split lt left n i last v = split lt' left n i last v := by
  induction n generalizing i last v with
  | zero => rfl
  | succ n ih =>
    -- the elements that are still to be compared and the pivot are not moved
    have hsame : ∀ k, i < k ∨ k = left → swap v (last + 1) i k = v k := fun k hk =>
      congrArg v (Equiv.swap_apply_of_ne_of_ne (by omega) (by omega))
    rw [split, split, h i le_rfl (by omega)]
    split_ifs
    · refine ih (by omega) (by omega) fun k hk hk' => ?_
      rw [hsame k (.inl (by omega)), hsame left (.inr rfl)]
      exact h k (by omega) (by omega)
    · exact ih hleft (by omega) fun k hk hk' => h k (by omega) (by omega)

/-- two comparisons that agree on the pairs that one of them compares sort alike -/
theorem qSort_congr (h : ∀ c ∈ comparisons lt' v left stop, lt c.1 c.2 = lt' c.1 c.2) :
    qSort lt v left stop = qSort lt' v left stop := by
  fun_induction qSort lt' v left stop with
  | case1 v left stop hshort => rw [qSort, if_pos hshort]
  | case2 v left stop hlong parts ihleft _ ihright =>
    rw [comparisons, if_neg hlong] at h
    obtain ⟨hfirst, hright⟩ := forall_mem_append.1 h
    obtain ⟨hpivot, hleft⟩ := forall_mem_append.1 hfirst
    have hparts : partition lt v left stop = parts := by
      refine split_congr _ le_rfl (Nat.lt_succ_self left) fun k hk hk' => ?_
      exact hpivot _ (mem_map_of_mem (mem_range'_1.2 ⟨hk, hk'⟩))
    rw [qSort, if_neg hlong]
    dsimp only
    rw [hparts, ihleft hleft, ihright hright]

/-! ## Lists -/

variable [Inhabited α]

theorem map_getD_range (l : List α) : (range l.length).map (fun i => l.getD i default) = l := by
  refine ext_getElem (by simp) fun i h₁ h₂ => ?_
  rw [getElem_map, getElem_range, getD_eq_getElem _ _ h₂]

theorem quickSort_perm (lt : α → α → Bool) (l : List α) : (quickSort lt l).Perm l :=
  (qSort_rearranged lt (fun i => l.getD i default) 0 l.length).perm.trans (List.Perm.of_eq (map_getD_range l))

/-- the pairs that are compared while a list is sorted by a key -/
def compared (key : α → β) (l : List α) : List (α × α) :=
  comparisons (fun a b => decide (key a < key b)) (fun i => l.getD i default) 0 l.length

/-- a list is sorted by a comparison that agrees with a key on the pairs that sorting by the key compares -/
theorem quickSort_sorted {l : List α} (h : ∀ c ∈ compared key l, (lt c.1 c.2 = true ↔ key c.1 < key c.2)) :
    (quickSort lt l).Pairwise fun a b => key a ≤ key b := by
  rw [quickSort, qSort_congr fun c hc => Bool.eq_iff_iff.2 ((h c hc).trans decide_eq_true_iff.symm), pairwise_map]
  refine pairwise_lt_range.imp_of_mem fun hi hj hij => ?_
  exact qSort_sorted (fun a b => decide_eq_true_iff) _ 0 _ _ _ (Nat.zero_le _) hij.le (mem_range.1 hj)

end Sorted

end Lithos.Core.QuickSort
