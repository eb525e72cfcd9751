/-
Tri-colour marking over an arbitrary graph.

Nodes are shaded when the marker has seen them, and pending while it has yet to scan them. `Closed` is the invariant of
an incremental marker: what a scanned node points to is shaded. `Closed.shade`, `Closed.scan` and `Closed.store` are the
rules for the three things that happen to it, and `Closed.reachable` is what it is for: when nothing is pending, all that
can be reached from a shaded node is shaded.
-/
import Mathlib.Data.Set.Basic

namespace Lithos.Core.Tricolor

variable {ν : Type*} {edge edge' : ν → ν → Prop} {shaded shaded' pending pending' : Set ν} {n : ν}

/-- a shaded node that is not pending points to shaded nodes only -/
def Closed (edge : ν → ν → Prop) (shaded pending : Set ν) : Prop :=
  ∀ a ∈ shaded, a ∉ pending → ∀ b, edge a b → b ∈ shaded

/-- shading more nodes, all of them pending -/
theorem Closed.shade (h : Closed edge shaded pending) (hs : shaded ⊆ shaded') (hp : pending ⊆ pending')
    (hnew : ∀ a ∈ shaded', a ∉ shaded → a ∈ pending') : Closed edge shaded' pending' := by
  intro a ha hpend b hab
  by_cases hold : a ∈ shaded
  · exact hs (h a hold (fun hin => hpend (hp hin)) b hab)
  · exact absurd (hnew a ha hold) hpend

/-- a node whose targets are all shaded need not be pending any more -/
theorem Closed.scan (h : Closed edge shaded pending) (hs : shaded ⊆ shaded') (hnew : ∀ a ∈ shaded', a ∈ shaded ∨ a = n)
    (hn : ∀ b, edge n b → b ∈ shaded') (hp : ∀ a ∈ pending, a = n ∨ a ∈ pending') : Closed edge shaded' pending' := by
  intro a ha hpend b hab
  by_cases heq : a = n
  · subst heq
    exact hn b hab
  · apply hs
    apply h a ((hnew a ha).resolve_right heq) _ b hab
    intro hin
    rcases hp a hin with h' | h'
    · exact heq h'
    · exact hpend h'

/-- edges may go, and a new one needs a shaded target, or a source that is not shaded -/
theorem Closed.store (h : Closed edge shaded pending)
    (hnew : ∀ a b, edge' a b → edge a b ∨ (a ∈ shaded → b ∈ shaded)) : Closed edge' shaded pending := by
  intro a ha hpend b hab
  rcases hnew a b hab with h' | h'
  · exact h a ha hpend b h'
  · exact h' ha

/-- when nothing is pending, the shaded nodes are closed under reachability -/
theorem Closed.reachable (h : Closed edge shaded ∅) {a b : ν} (ha : a ∈ shaded) (hab : Relation.ReflTransGen edge a b) :
    b ∈ shaded := by
  induction hab with
  | refl => exact ha
  | tail _ hbc ih => exact h _ ih (Set.notMem_empty _) _ hbc

end Lithos.Core.Tricolor
