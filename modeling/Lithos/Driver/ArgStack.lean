/-
Argument lists on the evaluator stack (`src/stack.c`, `lib/lpc/functional.cpp`).

The stack is memory with a pointer to its top. `merge_arg_lists` puts the elements of an array in front of the arguments
that are on the stack: it raises the pointer, moves the arguments up and writes the elements below them. Unlike a push it
does not look where the stack ends, nor whether the start index lies in the array.

Results:
* `merge_arg_lists_iff`: the allocated stack then holds what was below, the elements and the arguments, and they are
  counted right, if and only if the start index is at most the size of the array and the elements fit;
* `merge_past_end`: an array of eight elements is written over the end of a stack of eight values.
-/
import Mathlib.Data.List.Induction
import Mathlib.Data.Int.Order.Basic

namespace Lithos.Driver.ArgStack

open List Function

variable {α : Type}

/-! ## Model -/

/-- the evaluator stack: its memory, counted from `start_of_stack`, and `sp` -/
structure Stack (α : Type) where
  cells : ℤ → α
  sp : ℤ

/-- `*sptr = *(sptr - n); sptr--`, `k` times -/
def move (n : ℤ) : ℕ → ℤ → (ℤ → α) → ℤ × (ℤ → α)
  | 0, sptr, cells => (sptr, cells)
  | k + 1, sptr, cells => move n k (sptr - 1) (update cells sptr (cells (sptr - n)))

/-- values are written downwards from `sptr` -/
def fill : List α → ℤ → (ℤ → α) → ℤ × (ℤ → α)
  | [], sptr, cells => (sptr, cells)
  | v :: vs, sptr, cells => fill vs (sptr - 1) (update cells sptr v)

def mergeArgLists (numArg : ℕ) (arr : List α) (start : ℕ) (s : Stack α) : Stack α × ℤ :=
  let numArrArg : ℤ := arr.length - start
  if numArrArg ≠ 0 then
    let sp := s.sp + numArrArg
    let moved := move numArrArg numArg sp s.cells
    let filled := fill (arr.drop start).reverse moved.1 moved.2
    (⟨filled.2, sp⟩, sp - filled.1)
  else (s, numArg)

/-! ## What the stack holds -/

/-- the memory holds a list from `i` on -/
def At (cells : ℤ → α) : ℤ → List α → Prop
  | _, [] => True
  | i, v :: l => cells i = v ∧ At cells (i + 1) l

/-- the stack holds a list, its bottom first -/
def Stack.Holds (s : Stack α) (l : List α) : Prop := s.sp + 1 = l.length ∧ At s.cells 0 l

variable {cells cells' : ℤ → α} {i sptr n : ℤ} {l a b : List α} {s : Stack α}

theorem at_append : At cells i (a ++ b) ↔ At cells i a ∧ At cells (i + a.length) b := by
  induction a generalizing i with
  | nil => simp [At]
  | cons v a ih =>
    rw [cons_append, At, At, ih, and_assoc, length_cons, show i + 1 + a.length = i + (a.length + 1 : ℕ) by omega]

theorem At.congr (h : At cells i l) (hsame : ∀ j, i ≤ j → j < i + l.length → cells' j = cells j) : At cells' i l := by
  induction l generalizing i with
  | nil => trivial
  | cons v l ih =>
    simp only [length_cons] at hsame
    refine ⟨(hsame i le_rfl (by omega)).trans h.1, ih h.2 fun j hlow hhigh => hsame j (by omega) (by omega)⟩

theorem fill_append : fill (a ++ b) sptr cells = fill b (fill a sptr cells).1 (fill a sptr cells).2 := by
  induction a generalizing sptr cells with
  | nil => rfl
  | cons v a ih => exact ih

/-- the list stands below `sptr`, and nothing else is written -/
theorem fill_spec (l : List α) (sptr : ℤ) (cells : ℤ → α) :
    (fill l.reverse sptr cells).1 = sptr - l.length ∧ At (fill l.reverse sptr cells).2 (sptr - l.length + 1) l ∧
      ∀ j, j ≤ sptr - l.length ∨ sptr < j → (fill l.reverse sptr cells).2 j = cells j := by
  induction l using List.reverseRecOn generalizing sptr cells with
  | nil => simp [fill, At]
  | append_singleton l v ih =>
    obtain ⟨hend, hat, hframe⟩ := ih (sptr - 1) (update cells sptr v)
    have hstart : sptr - 1 - l.length = sptr - (l.length + 1 : ℕ) := by omega
    rw [hstart] at hend hat hframe
    rw [reverse_append, reverse_singleton, singleton_append, fill, length_append, length_singleton]
    refine ⟨hend, at_append.2 ⟨hat, ?_, trivial⟩, fun j hj => ?_⟩
    · rw [show sptr - (l.length + 1 : ℕ) + 1 + l.length = sptr by omega, hframe sptr (by omega), update_self]
    · rw [hframe j (by omega), update_of_ne (by omega)]

/-- moving values up writes what was there: each is read before it is overwritten -/
theorem move_eq_fill (hn : 0 < n) (h : At cells (sptr - n - l.length + 1) l) :
    move n l.length sptr cells = fill l.reverse sptr cells := by
  induction l using List.reverseRecOn generalizing sptr cells with
  | nil => rfl
  | append_singleton l v ih =>
    obtain ⟨hl, hv, -⟩ := at_append.1 h
    rw [length_append, length_singleton] at *
    rw [show sptr - n - (l.length + 1 : ℕ) + 1 + l.length = sptr - n by omega] at hv
    rw [move, hv, reverse_append, reverse_singleton, singleton_append, fill]
    rw [show sptr - n - (l.length + 1 : ℕ) + 1 = sptr - 1 - n - l.length + 1 by omega] at hl
    exact ih (hl.congr fun j _ hj => update_of_ne (by omega) _ _)

/-! ## Merging -/

theorem sp_mergeArgLists (numArg : ℕ) (arr : List α) (start : ℕ) (s : Stack α) :
    (mergeArgLists numArg arr start s).1.sp = s.sp + (arr.length - start) := by
  simp only [mergeArgLists]
  split_ifs
  · rfl
  · dsimp only
    omega

variable {below args arr : List α} {start : ℕ}

theorem mergeArgLists_holds (hs : s.Holds (below ++ args)) (hstart : start ≤ arr.length) :
    (mergeArgLists args.length arr start s).1.Holds (below ++ (arr.drop start ++ args)) ∧
      (mergeArgLists args.length arr start s).2 = (arr.drop start ++ args).length := by
  obtain ⟨hsp, hat⟩ := hs
  obtain ⟨hbelow, hargs⟩ := at_append.1 hat
  rw [length_append] at hsp
  have hlen : (arr.drop start ++ args).length = arr.length - start + args.length := by
    rw [length_append, length_drop]
  by_cases hn : (arr.length : ℤ) - start = 0
  · have hnil : arr.drop start = [] := drop_of_length_le (by omega)
    simp only [mergeArgLists, hn, ne_eq, not_true_eq_false, if_false, hnil, nil_append, and_true]
    exact ⟨by rw [length_append, hsp], hat⟩
  · set n : ℤ := arr.length - start with hndef
    have hmove : move n args.length (s.sp + n) s.cells = fill args.reverse (s.sp + n) s.cells := by
      refine move_eq_fill (by omega) ?_
      rwa [show s.sp + n - n - args.length + 1 = 0 + below.length by omega]
    obtain ⟨hend, hitems, hframe⟩ := fill_spec (arr.drop start ++ args) (s.sp + n) s.cells
    rw [reverse_append, fill_append, ← hmove] at hend hitems hframe
    simp only [mergeArgLists, ← hndef, if_pos hn, hend]
    refine ⟨⟨?_, at_append.2 ⟨hbelow.congr fun j _ hj => hframe j (by omega), ?_⟩⟩, by omega⟩
    · rw [length_append]
      show s.sp + n + 1 = _
      omega
    · rwa [show (0 : ℤ) + below.length = s.sp + n - (arr.drop start ++ args).length + 1 by omega]

/-- **Merging argument lists.** On a stack that holds `below` and the arguments, `merge_arg_lists` leaves `below`, the
elements of the array from the start index and the arguments, returns the number of the last two and keeps the pointer in the
allocated stack, if and only if the start index is at most the size of the array and the elements fit. -/
theorem merge_arg_lists_iff (size : ℕ) (below args arr : List α) (start : ℕ) (s : Stack α)
    (hs : s.Holds (below ++ args)) :
    ((mergeArgLists args.length arr start s).1.Holds (below ++ (arr.drop start ++ args)) ∧
        (mergeArgLists args.length arr start s).2 = (arr.drop start ++ args).length ∧
        (mergeArgLists args.length arr start s).1.sp < size) ↔
      start ≤ arr.length ∧ s.sp + (arr.length - start) < size := by
  have hsp := sp_mergeArgLists args.length arr start s
  constructor
  · rintro ⟨⟨hholds, -⟩, -, hlt⟩
    refine ⟨?_, hsp ▸ hlt⟩
    by_contra hpast
    have hnil : arr.drop start = [] := drop_of_length_le (by omega)
    have := hs.1
    rw [hsp, hnil, nil_append] at hholds
    omega
  · rintro ⟨hstart, hfits⟩
    obtain ⟨hholds, hcount⟩ := mergeArgLists_holds hs hstart
    exact ⟨hholds, hcount, hsp ▸ hfits⟩

/-- a stack with one value below two arguments -/
def sampleStack : Stack ℕ := ⟨fun i => i.toNat, 2⟩

theorem sampleStack_merges : sampleStack.Holds ([0] ++ [1, 2]) ∧
    (mergeArgLists 2 [7, 8, 9] 1 sampleStack).1.Holds [0, 8, 9, 1, 2] ∧ (mergeArgLists 2 [7, 8, 9] 1 sampleStack).2 = 4 := by
  have hs : sampleStack.Holds ([0] ++ [1, 2]) := ⟨rfl, rfl, rfl, rfl, trivial⟩
  obtain ⟨hholds, hcount, -⟩ := (merge_arg_lists_iff 8 [0] [1, 2] [7, 8, 9] 1 sampleStack hs).2 (by decide)
  exact ⟨hs, hholds, hcount⟩

/-- With eight elements the pointer passes the end of a stack of eight values, and no error is raised. -/
theorem merge_past_end : sampleStack.Holds ([0] ++ [1, 2]) ∧ sampleStack.sp < 8 ∧
    8 ≤ (mergeArgLists 2 (replicate 8 5) 0 sampleStack).1.sp :=
  ⟨⟨rfl, rfl, rfl, rfl, trivial⟩, by decide, by decide⟩

end Lithos.Driver.ArgStack
