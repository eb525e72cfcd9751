/-
Trees stored as parent pointers with linked lists of children: every node has a parent, a first child and a next sibling.

A node is unlinked by walking the child list with a pointer to the link that leads to it, and linked in at the front. The
walk for a move checks that the node is not above its new parent.

Results:
* `unlinkFrom_spec`: the walk takes the node out of the list and changes no other list;
* `climb_sound`: the check finds the node exactly when it is the new parent or above it;
* `Ranked.link`: linking a node below a node it is not above keeps the parent relation without cycles.
-/
import Mathlib.Logic.Relation
import Mathlib.Data.Finset.Card
import Mathlib.Data.Finset.Range
import Mathlib.Tactic.Common

namespace Lithos.Core.Siblings

open Relation List Function

variable {α : Type}

/-- the pointers of all nodes -/
structure Links (α : Type) where
  parent : α → Option α
  first : α → Option α
  next : α → Option α

open Links

/-! ## Child lists -/

/-- the list that starts at a link -/
inductive Chain (next : α → Option α) : Option α → List α → Prop
  | nil : Chain next none []
  | cons {a : α} {l : List α} (h : Chain next (next a) l) : Chain next (some a) (a :: l)

namespace Chain

variable {next next' : α → Option α} {o : Option α} {l : List α}

theorem unique {l' : List α} (h : Chain next o l) (h' : Chain next o l') : l = l' := by
  induction h generalizing l' with
  | nil => cases h'; rfl
  | cons _ ih =>
    cases h' with
    | cons h' => rw [ih h']

theorem congr (h : Chain next o l) (heq : ∀ a ∈ l, next' a = next a) : Chain next' o l := by
  induction h with
  | nil => exact .nil
  | @cons a l _ ih =>
    refine .cons ?_
    rw [heq a mem_cons_self]
    exact ih fun b hb => heq b (mem_cons_of_mem a hb)

/-- from each of its elements a list goes on as its own tail -/
theorem suffix_of_mem (h : Chain next o l) {a : α} (ha : a ∈ l) :
    ∃ l', Chain next (some a) (a :: l') ∧ (a :: l').length ≤ l.length := by
  induction h with
  | nil => cases ha
  | @cons b l hrest ih =>
    rcases mem_cons.1 ha with rfl | hmem
    · exact ⟨l, .cons hrest, le_refl _⟩
    · obtain ⟨l', hl', hlen⟩ := ih hmem
      exact ⟨l', hl', le_trans hlen (Nat.le_succ _)⟩

/-- a list that ends has no node twice -/
theorem nodup (h : Chain next o l) : l.Nodup := by
  induction h with
  | nil => exact nodup_nil
  | @cons a l hrest ih =>
    refine nodup_cons.2 ⟨fun ha => ?_, ih⟩
    -- a second occurrence would have a tail as long as the whole
    obtain ⟨l', hl', hlen⟩ := hrest.suffix_of_mem ha
    have hsame : a :: l' = a :: l := hl'.unique (.cons hrest)
    rw [hsame] at hlen
    exact absurd hlen (Nat.not_succ_le_self _)

end Chain

/-! ## Unlinking -/

/-- a link of a child list -/
inductive Slot (α : Type) where
  | first (p : α)
  | next (a : α)
  deriving DecidableEq

namespace Links

variable [DecidableEq α]

def read (L : Links α) : Slot α → Option α
  | .first p => L.first p
  | .next a => L.next a

def write (L : Links α) (s : Slot α) (o : Option α) : Links α :=
  match s with
  | .first p => { L with first := update L.first p o }
  | .next a => { L with next := update L.next a o }

/-- the loop that takes `x` out of the list behind a link; `none` when the list does not end within the fuel -/
def unlinkFrom (x : α) : ℕ → Slot α → Links α → Option (Links α)
  | 0, _, _ => none
  | n + 1, s, L =>
    match L.read s with
    | none => some L
    | some a => if a = x then unlinkFrom x n s (L.write s (L.next a)) else unlinkFrom x n (.next a) L

/-- `x` becomes the first child of `p` -/
def push (L : Links α) (x p : α) : Links α where
  parent := update L.parent x (some p)
  first := update L.first p (some x)
  next := update L.next x (L.first p)

end Links

variable [DecidableEq α] {L L' : Links α} {x p : α} {o : Option α} {parent : α → Option α} {n : ℕ}

theorem read_write_self (s : Slot α) (o : Option α) : (L.write s o).read s = o := by
  cases s <;> simp [Links.write, Links.read]

/-- a link in front of a list that is not one of the list's own links -/
def Slot.Before (s : Slot α) (l : List α) : Prop := ∀ a, s = .next a → a ∉ l

/-- what a walk from the link `s` over the list `l` may change -/
structure Walked (L L' : Links α) (s : Slot α) (l : List α) : Prop where
  parent : L'.parent = L.parent
  first : ∀ q, s ≠ .first q → L'.first q = L.first q
  next : ∀ a, s ≠ .next a → a ∉ l → L'.next a = L.next a

theorem chain_write_next {s : Slot α} {l : List α} (h : Chain L.next o l) (hs : s.Before l) (v : Option α) :
    Chain (L.write s v).next o l := by
  cases s with
  | first q => exact h
  | next b =>
    refine h.congr fun a ha => ?_
    have hne : a ≠ b := fun he => hs b rfl (he ▸ ha)
    simp [write, hne]

/-- the walk takes `x` out of the list and changes nothing but links of the list -/
theorem unlinkFrom_spec (x : α) (n : ℕ) (s : Slot α) (L : Links α) (l : List α) (hc : Chain L.next (L.read s) l)
    (hs : s.Before l) (hn : l.length < n) :
    ∃ L', L.unlinkFrom x n s = some L' ∧ Chain L'.next (L'.read s) (l.filter (· ≠ x)) ∧ Walked L L' s l := by
  induction l generalizing n s L with
  | nil =>
    obtain ⟨n, rfl⟩ := Nat.exists_eq_succ_of_ne_zero (Nat.ne_of_gt hn)
    have hread : L.read s = none := by
      generalize L.read s = o at hc
      cases hc
      rfl
    refine ⟨L, ?_, hc, ⟨rfl, fun _ _ => rfl, fun _ _ _ => rfl⟩⟩
    simp only [unlinkFrom, hread]
  | cons a l ih =>
    obtain ⟨n, rfl⟩ := Nat.exists_eq_succ_of_ne_zero (Nat.ne_of_gt (Nat.zero_lt_of_lt hn))
    have hnodup := hc.nodup
    obtain ⟨hread, hrest⟩ : L.read s = some a ∧ Chain L.next (L.next a) l := by
      generalize L.read s = o at hc
      cases hc with
      | cons h => exact ⟨rfl, h⟩
    have hn' : l.length < n := Nat.lt_of_succ_lt_succ hn
    have hs' : s.Before l := fun b hb hmem => hs b hb (mem_cons_of_mem a hmem)
    by_cases hax : a = x
    · -- the link is set to the node behind `x`, and the walk stays at this link
      have hwrite : Chain (L.write s (L.next a)).next ((L.write s (L.next a)).read s) l := by
        rw [read_write_self]
        exact chain_write_next hrest hs' _
      obtain ⟨L', hL', hchain, hwalk⟩ := ih n s (L.write s (L.next a)) hwrite hs' hn'
      refine ⟨L', ?_, ?_, ?_⟩
      · simp only [unlinkFrom, hread, if_pos hax]
        exact hL'
      · rw [filter_cons_of_neg (by simpa using hax)]
        exact hchain
      · refine ⟨hwalk.parent.trans (by cases s <;> rfl), fun q hq => ?_, fun b hb hmem => ?_⟩
        · rw [hwalk.first q hq]
          cases s with
          | first r =>
            have hne : q ≠ r := fun he => hq (he ▸ rfl)
            simp [write, hne]
          | next _ => rfl
        · rw [hwalk.next b hb fun hmem' => hmem (mem_cons_of_mem a hmem')]
          cases s with
          | first _ => rfl
          | next c =>
            have hne : b ≠ c := fun he => hb (he ▸ rfl)
            simp [write, hne]
    · have hbefore : (Slot.next a).Before l := fun b hb hmem => by
        cases hb
        exact (nodup_cons.1 hnodup).1 hmem
      obtain ⟨L', hL', hchain, hwalk⟩ := ih n (.next a) L hrest hbefore hn'
      have hkeep : L'.read s = some a := by
        rw [← hread]
        cases s with
        | first q => exact hwalk.first q nofun
        | next b =>
          have hb := hs b rfl
          rw [mem_cons, not_or] at hb
          exact hwalk.next b (fun he => hb.1 (Slot.next.inj he).symm) hb.2
      refine ⟨L', ?_, ?_, ?_⟩
      · simp only [unlinkFrom, hread, if_neg hax]
        exact hL'
      · rw [filter_cons_of_pos (by simpa using hax), hkeep]
        exact .cons hchain
      · refine ⟨hwalk.parent, fun q _ => hwalk.first q nofun, fun b _ hmem => ?_⟩
        rw [mem_cons, not_or] at hmem
        exact hwalk.next b (fun he => hmem.1 (Slot.next.inj he).symm) hmem.2

/-! ## Which nodes are listed where -/

/-- the child list of `e` holds exactly the nodes `y` with `P y e` -/
def Listed (L : Links α) (P : α → α → Prop) : Prop :=
  ∀ e, ∃ l, Chain L.next (L.first e) l ∧ ∀ y, y ∈ l ↔ P y e

/-- a node is listed below one node at most -/
def Single (P : α → α → Prop) : Prop := ∀ y e e', P y e → P y e' → e = e'

namespace Listed

variable {P : α → α → Prop}

omit [DecidableEq α] in
theorem congr {Q : α → α → Prop} (h : Listed L P) (hPQ : ∀ y e, P y e ↔ Q y e) : Listed L Q := by
  intro e
  obtain ⟨l, hl, hmem⟩ := h e
  exact ⟨l, hl, fun y => (hmem y).trans (hPQ y e)⟩

omit [DecidableEq α] in
/-- changing the links of nodes that are not listed, and of lists that stay as they are -/
theorem of_eq (h : Listed L P) (hfirst : ∀ e, L'.first e = L.first e)
    (hnext : ∀ y, (∃ e, P y e) → L'.next y = L.next y) : Listed L' P := by
  intro e
  obtain ⟨l, hl, hmem⟩ := h e
  refine ⟨l, ?_, hmem⟩
  rw [hfirst e]
  exact hl.congr fun y hy => hnext y ⟨e, (hmem y).1 hy⟩

/-- the walk over the list of `p` ends within the number of nodes, and takes `x` out of this list only -/
theorem unlink (h : Listed L P) (hP : Single P) (x p : α) {S : Finset α} (hS : ∀ y e, P y e → y ∈ S) {n : ℕ}
    (hn : S.card < n) :
    ∃ L', L.unlinkFrom x n (.first p) = some L' ∧ L'.parent = L.parent ∧
      Listed L' (fun y e => P y e ∧ ¬ (y = x ∧ e = p)) := by
  obtain ⟨l, hl, hmem⟩ := h p
  have hlen : l.length ≤ S.card := by
    calc l.length = l.toFinset.card := (toFinset_card_of_nodup hl.nodup).symm
      _ ≤ S.card := Finset.card_le_card fun y hy => hS y p ((hmem y).1 (mem_toFinset.1 hy))
  obtain ⟨L', hL', hchain, hwalk⟩ :=
    unlinkFrom_spec x n (.first p) L l hl nofun (lt_of_le_of_lt hlen hn)
  refine ⟨L', hL', hwalk.parent, fun e => ?_⟩
  by_cases hep : e = p
  · subst hep
    refine ⟨l.filter (· ≠ x), hchain, fun y => ?_⟩
    rw [mem_filter, hmem y]
    simp
  · obtain ⟨l', hl', hmem'⟩ := h e
    refine ⟨l', ?_, fun y => ?_⟩
    · rw [hwalk.first e fun he => hep (Slot.first.inj he).symm]
      refine hl'.congr fun y hy => hwalk.next y nofun fun hyl => ?_
      exact hep (hP y e p ((hmem' y).1 hy) ((hmem y).1 hyl))
    · rw [hmem' y]
      exact ⟨fun hy => ⟨hy, fun he => hep he.2⟩, fun hy => hy.1⟩

/-- a node that is listed nowhere is put in front of the list of `p` -/
theorem push (h : Listed L P) {x p : α} (hx : ∀ e, ¬ P x e) :
    Listed (L.push x p) (fun y e => P y e ∨ (y = x ∧ e = p)) := by
  have hkeep : ∀ e l, Chain L.next (L.first e) l → (∀ y, y ∈ l ↔ P y e) → ∀ y ∈ l, (L.push x p).next y = L.next y := by
    intro e l _ hmem y hy
    have hne : y ≠ x := fun he => hx e (he ▸ (hmem y).1 hy)
    simp [Links.push, hne]
  intro e
  obtain ⟨l, hl, hmem⟩ := h e
  have hl' : Chain (L.push x p).next (L.first e) l := hl.congr (hkeep e l hl hmem)
  by_cases hep : e = p
  · subst hep
    refine ⟨x :: l, ?_, fun y => ?_⟩
    · have hfirst : (L.push x e).first e = some x := by simp [Links.push]
      rw [hfirst]
      refine .cons ?_
      have hnext : (L.push x e).next x = L.first e := by simp [Links.push]
      rw [hnext]
      exact hl'
    · rw [mem_cons, hmem y]
      tauto
  · refine ⟨l, ?_, fun y => ?_⟩
    · have hfirst : (L.push x p).first e = L.first e := by simp [Links.push, hep]
      rw [hfirst]
      exact hl'
    · rw [hmem y]
      tauto

end Listed

/-! ## Parents -/

/-- `b` is `a` or above it -/
def Above (parent : α → Option α) : α → α → Prop := ReflTransGen fun a b => parent a = some b

/-- ranks fall along the parent pointers -/
def Ranked (parent : α → Option α) (rank : α → ℕ) : Prop := ∀ a b, parent a = some b → rank b < rank a

namespace Ranked

variable {parent parent' : α → Option α} {rank : α → ℕ}

omit [DecidableEq α] in
theorem no_cycle (h : Ranked parent rank) (a : α) : ¬ TransGen (fun a b => parent a = some b) a a := by
  have hlt : ∀ b, TransGen (fun a b => parent a = some b) a b → rank b < rank a := by
    intro b hb
    induction hb with
    | single hab => exact h _ _ hab
    | tail _ hbc ih => exact lt_trans (h _ _ hbc) ih
  exact fun hcycle => lt_irrefl _ (hlt a hcycle)

omit [DecidableEq α] in
theorem mono (h : Ranked parent rank) (hsub : ∀ a b, parent' a = some b → parent a = some b) : Ranked parent' rank :=
  fun a b hab => h a b (hsub a b hab)

/-- a node can be put below a node it is not above: its whole subtree gets larger ranks -/
theorem link (h : Ranked parent rank) {x p : α} (hx : ¬ Above parent p x) :
    ∃ rank', Ranked (update parent x (some p)) rank' := by
  classical
  refine ⟨fun a => if Above parent a x then rank a + rank p + 1 else rank a, fun a b hab => ?_⟩
  beta_reduce
  by_cases hax : a = x
  · subst hax
    rw [update_self, Option.some.injEq] at hab
    subst hab
    have hself : Above parent a a := ReflTransGen.refl
    rw [if_neg hx, if_pos hself]
    omega
  · rw [update_of_ne hax] at hab
    have hfall := h a b hab
    have hiff : Above parent a x ↔ Above parent b x := by
      constructor
      · intro habove
        rcases ReflTransGen.cases_head habove with rfl | ⟨c, hac, hcx⟩
        · exact absurd rfl hax
        · have hbc : b = c := Option.some.inj (hab.symm.trans hac)
          exact hbc ▸ hcx
      · exact ReflTransGen.head hab
    by_cases hb : Above parent b x
    · rw [if_pos hb, if_pos (hiff.2 hb)]
      omega
    · rw [if_neg hb, if_neg fun ha => hb (hiff.1 ha)]
      exact hfall

end Ranked

/-- the loop up the parent pointers in search of `x`; `none` when it does not end within the fuel -/
def climb (parent : α → Option α) (x : α) : ℕ → Option α → Option Bool
  | _, none => some false
  | 0, some _ => none
  | n + 1, some a => if a = x then some true else climb parent x n (parent a)

/-- when the loop ends without meeting `x`, then `x` is not above the start -/
theorem climb_sound {x a : α} (h : climb parent x n (some a) = some false) : ¬ Above parent a x := by
  induction n generalizing a with
  | zero => exact absurd h (by simp [climb])
  | succ n ih =>
    rw [climb] at h
    split at h
    case isTrue => cases h
    case isFalse hax =>
      intro habove
      rcases ReflTransGen.cases_head habove with rfl | ⟨b, hab, hbx⟩
      · exact hax rfl
      · rw [hab] at h
        exact ih h hbx

/-- over ranked parents the loop ends within the number of nodes -/
theorem climb_total {rank : α → ℕ} (h : Ranked parent rank) (x : α) {S : Finset α}
    (hS : ∀ a b, parent a = some b → a ∈ S) (hn : S.card ≤ n) (a : α) :
    ∃ found, climb parent x (n + 1) (some a) = some found := by
  have hvisit : ∀ (n : ℕ) (a : α) (V : Finset α), V ⊆ S → (∀ v ∈ V, rank a < rank v) → S.card ≤ n + V.card →
      ∃ found, climb parent x (n + 1) (some a) = some found := by
    intro n
    induction n with
    | zero =>
      -- every node has been visited, so this one has no parent
      intro a V hV hlow hcard
      rw [climb]
      split
      · exact ⟨true, rfl⟩
      · cases hp : parent a with
        | none => exact ⟨false, rfl⟩
        | some b =>
          have hVS : V = S := Finset.eq_of_subset_of_card_le hV (by omega)
          exact absurd (hlow a (hVS ▸ hS a b hp)) (lt_irrefl _)
    | succ n ih =>
      intro a V hV hlow hcard
      rw [climb]
      split
      · exact ⟨true, rfl⟩
      · cases hp : parent a with
        | none => exact ⟨false, rfl⟩
        | some b =>
          have haV : a ∉ V := fun ha => lt_irrefl _ (hlow a ha)
          refine ih b (insert a V) ?_ ?_ ?_
          · exact Finset.insert_subset (hS a b hp) hV
          · intro v hv
            rcases Finset.mem_insert.1 hv with rfl | hv
            · exact h v b hp
            · exact lt_trans (h a b hp) (hlow v hv)
          · rw [Finset.card_insert_of_notMem haV]
            omega
  exact hvisit n a ∅ (Finset.empty_subset S) (fun v hv => absurd hv (Finset.notMem_empty v)) (by simpa using hn)

end Lithos.Core.Siblings
