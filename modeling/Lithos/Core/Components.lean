/-
Paths as lists of components.

A path is a text, its components stand between separators. `join` writes a list of components as a text; what an editor
of such texts does (cut at the last separator, append a component) is here put in terms of the list.
-/
import Mathlib.Data.List.Induction

namespace Lithos.Core.Components

open List

variable {α : Type*} {sep : α} {D cs : List (List α)} {c d : List α}

/-- the text of a list of components -/
def join (sep : α) (cs : List (List α)) : List α := [sep].intercalate cs

/-- components are the parts between the separators, so none has one -/
def Free (sep : α) (cs : List (List α)) : Prop := ∀ c ∈ cs, sep ∉ c

@[simp]
theorem join_nil : join sep [] = [] := intercalate_nil

@[simp]
theorem join_singleton : join sep [c] = c := intercalate_singleton

@[simp]
theorem join_cons_cons : join sep (c :: d :: cs) = c ++ sep :: join sep (d :: cs) := by
  simp [join, intercalate_cons_cons]

theorem join_append_singleton (hD : D ≠ []) : join sep (D ++ [c]) = join sep D ++ sep :: c := by
  induction D with
  | nil => exact absurd rfl hD
  | cons d D ih =>
    cases D with
    | nil => simp
    | cons e D =>
      have := ih (cons_ne_nil e D)
      simp only [cons_append] at this ⊢
      rw [join_cons_cons, this, join_cons_cons, append_assoc, cons_append]

/-- only the empty list, or the one empty component, has an empty text -/
theorem join_eq_nil (h : join sep D = []) : D = [] ∨ D = [[]] := by
  match D with
  | [] => exact .inl rfl
  | [d] => exact .inr (by rw [join_singleton] at h; rw [h])
  | d :: e :: D => simp at h

theorem join_ne_nil (hne : D ≠ []) (hhead : D.head? ≠ some []) : join sep D ≠ [] := by
  intro h
  rcases join_eq_nil h with h | h
  · exact hne h
  · exact hhead (by rw [h]; rfl)

/-- the text without its last component: cut before the last separator, empty if there is none -/
def cutLast [DecidableEq α] (sep : α) (s : List α) : List α :=
  ((s.reverse.dropWhile (· ≠ sep)).drop 1).reverse

theorem Free.tail (h : Free sep (c :: cs)) : Free sep cs := fun d hd => h d (mem_cons_of_mem c hd)

theorem Free.dropLast (h : Free sep cs) : Free sep cs.dropLast := fun d hd => h d (dropLast_subset cs hd)

theorem Free.append (h : Free sep cs) (hc : sep ∉ c) : Free sep (cs ++ [c]) := by
  intro d hd
  rcases mem_append.1 hd with hd | hd
  · exact h d hd
  · exact (mem_singleton.1 hd) ▸ hc

section
variable [DecidableEq α]

/-- up to the first separator, a text without one is passed over -/
theorem dropWhile_free (h : sep ∉ c) (s : List α) : (c ++ s).dropWhile (· ≠ sep) = s.dropWhile (· ≠ sep) := by
  refine dropWhile_append_of_pos fun a ha => ?_
  have : a ≠ sep := fun e => h (e ▸ ha)
  simpa using this

theorem takeWhile_free (h : sep ∉ c) (s : List α) : (c ++ sep :: s).takeWhile (· ≠ sep) = c := by
  rw [takeWhile_append_of_pos, takeWhile_cons_of_neg (by simp), append_nil]
  intro a ha
  have : a ≠ sep := fun e => h (e ▸ ha)
  simpa using this

theorem cutLast_free (h : sep ∉ c) : cutLast sep c = [] := by
  have hc : sep ∉ c.reverse := by simpa using h
  have hdrop := dropWhile_free hc []
  rw [append_nil] at hdrop
  rw [cutLast, hdrop]
  rfl

theorem cutLast_append (h : sep ∉ c) (s : List α) : cutLast sep (s ++ sep :: c) = s := by
  have hc : sep ∉ c.reverse := by simpa using h
  rw [cutLast, reverse_append, reverse_cons, append_assoc, dropWhile_free hc, singleton_append,
    dropWhile_cons_of_neg (by simp), drop_one, tail_cons, reverse_reverse]

/-- cutting the text at its last separator drops the last component -/
theorem cutLast_join (h : Free sep D) : cutLast sep (join sep D) = join sep D.dropLast := by
  cases D using reverseRecOn with
  | nil => rfl
  | append_singleton E c =>
    have hc : sep ∉ c := h c (mem_append_right E (mem_singleton_self c))
    rw [dropLast_concat]
    by_cases hE : E = []
    · rw [hE, nil_append, join_singleton, join_nil, cutLast_free hc]
    · rw [join_append_singleton hE, cutLast_append hc]

/-- the components of a text -/
theorem join_splitOn (sep : α) (s : List α) : join sep (s.splitOn sep) = s := intercalate_splitOn sep

theorem splitOn_join (h : Free sep D) (hne : D ≠ []) : (join sep D).splitOn sep = D :=
  splitOn_intercalate sep h hne

theorem free_splitOn (s : List α) : Free sep (s.splitOn sep) := by
  induction s with
  | nil => intro c hc; rw [splitOn_nil, mem_singleton] at hc; rw [hc]; exact not_mem_nil
  | cons a s ih =>
    rw [List.splitOn] at ih ⊢
    rw [splitOnP_cons_eq_if_modifyHead]
    by_cases ha : a = sep
    · rw [if_pos (by simpa using ha)]
      exact forall_mem_cons.2 ⟨not_mem_nil, ih⟩
    · rw [if_neg (by simpa using ha)]
      cases hs : s.splitOnP (· == sep) with
      | nil => exact absurd hs (splitOnP_ne_nil _ s)
      | cons d ds =>
        rw [hs] at ih
        intro c hc
        rcases mem_cons.1 hc with rfl | hc
        · exact not_mem_cons_of_ne_of_not_mem (Ne.symm ha) (ih d mem_cons_self)
        · exact ih c (mem_cons_of_mem d hc)

end

end Lithos.Core.Components
