/-
Circular buffers: the cells that are in use, as a list.

A buffer of `n` cells has its oldest element at `tail`; the elements in use are the `count` cells from there on, around
the end. Writing behind them appends to the list, moving `tail` on takes its first element.
-/
import Mathlib.Data.List.Range
import Mathlib.Data.Nat.ModEq

namespace Lithos.Core.Ring

open List

variable {α : Type*} {n tail count : ℕ} (data : ℕ → α)

/-- the `count` cells from `tail` on -/
def window (n : ℕ) (data : ℕ → α) (tail count : ℕ) : List α :=
  (range count).map fun i => data ((tail + i) % n)

@[simp]
theorem length_window : (window n data tail count).length = count := by
  rw [window, length_map, length_range]

/-- the first `k` cells, and the window behind them -/
theorem window_add (k : ℕ) :
    window n data tail (k + count) = window n data tail k ++ window n data ((tail + k) % n) count := by
  rw [window, range_add, map_append, map_map]
  congr 1
  apply map_congr_left
  intro i _
  show data ((tail + (k + i)) % n) = data (((tail + k) % n + i) % n)
  rw [Nat.mod_add_mod, Nat.add_assoc]

theorem window_succ : window n data tail (count + 1) = data (tail % n) :: window n data ((tail + 1) % n) count := by
  rw [Nat.add_comm, window_add]
  rfl

/-- different places of a window are different cells -/
theorem cell_inj {i j : ℕ} (hi : i < n) (hj : j < n) (h : (tail + i) % n = (tail + j) % n) : i = j := by
  have hmod : i % n = j % n := Nat.ModEq.add_left_cancel' tail h
  rwa [Nat.mod_eq_of_lt hi, Nat.mod_eq_of_lt hj] at hmod

/-- a write into the first free cell appends -/
theorem window_push (x : α) (hroom : count < n) :
    window n (Function.update data ((tail + count) % n) x) tail (count + 1) = window n data tail count ++ [x] := by
  rw [window, range_succ, map_append, map_singleton, Function.update_self]
  congr 1
  apply map_congr_left
  intro i hi
  have hlt : i < count := mem_range.1 hi
  apply Function.update_of_ne
  intro h
  exact hlt.ne (cell_inj (hlt.trans hroom) hroom h)

/-- the number of cells in use, from the two ends of the window -/
theorem ends_sub (ht : tail < n) (hc : count < n) : ((tail + count) % n + n - tail) % n = count := by
  by_cases h : tail + count < n
  · rw [Nat.mod_eq_of_lt h, show tail + count + n - tail = count + n by omega, Nat.add_mod_right, Nat.mod_eq_of_lt hc]
  · have hwrap : (tail + count) % n = tail + count - n := by
      rw [Nat.mod_eq_sub_mod (not_lt.1 h), Nat.mod_eq_of_lt (by omega)]
    rw [hwrap, show tail + count - n + n - tail = count by omega, Nat.mod_eq_of_lt hc]

end Lithos.Core.Ring
