/-
Chained hash tables: a table is a list of chains, a chain is a list of (key, value) nodes, and a slot function says in
which chain a key belongs. Nothing here knows how the slot is computed or which program uses the table.

Keys are compared by a Boolean `same`, which is only assumed to be an equivalence (`IsEquiv`), and where a table is
searched by bucket equal keys are assumed to have equal slots. Everything is over arbitrary key and value types.

Results:
- `lookup_perm`: in a chain without two equal keys the order of the nodes does not matter to `lookup`.
- `lookup_bucket`: in a table whose nodes sit in their slots, looking at one bucket is looking at the whole table.
- `set_flatten_perm`, `placed_set`: what replacing one bucket does to the nodes of the table.
- `filled_set`: how the number of non-empty buckets changes when one bucket is replaced.
- `filled_eq_card`: the non-empty buckets are as many as the slots of the keys.
- `search_eq_some`, `search_perm`: a search that moves what it finds to the head of its bucket finds the node with the
  key and keeps the nodes.
-/
import Mathlib.Tactic

namespace Lithos.Core.ChainTable

open List

variable {κ υ : Type}

/-- a bucket: its nodes in chain order -/
abbrev Chain (κ υ : Type) := List (κ × υ)

/-- the buckets of a table, by index -/
abbrev Table (κ υ : Type) := List (Chain κ υ)

/-- the value of the first node of the chain with a key equal to `k` -/
def lookup (same : κ → κ → Bool) (k : κ) : Chain κ υ → Option υ
  | [] => none
  | p :: c => if same p.1 k then some p.2 else lookup same k c

/-- `same` is an equivalence on keys -/
structure IsEquiv (same : κ → κ → Bool) : Prop where
  refl : ∀ a, same a a = true
  symm : ∀ a b, same a b = true → same b a = true
  trans : ∀ a b c, same a b = true → same b c = true → same a c = true

/-- no two nodes have equal keys -/
def Distinct (same : κ → κ → Bool) (c : Chain κ υ) : Prop := c.Pairwise fun p q => same p.1 q.1 = false

/-- every node sits in the bucket its key's slot names -/
def Placed (slot : κ → ℕ) (t : Table κ υ) : Prop := ∀ i c, t[i]? = some c → ∀ p ∈ c, slot p.1 = i

/-- the first node of a bucket that `f` accepts, and the table with that node at the head of the bucket -/
def search (f : κ × υ → Bool) (i : ℕ) (t : Table κ υ) : Option (κ × υ) × Table κ υ :=
  match (t.getD i []).find? f with
  | none => (none, t)
  | some p => (some p, t.set i (p :: (t.getD i []).eraseP f))

/-- the number of non-empty buckets -/
def filled (t : Table κ υ) : ℕ := t.countP fun c => !c.isEmpty

variable {same : κ → κ → Bool}

theorem lookup_append (k : κ) (a b : Chain κ υ) : lookup same k (a ++ b) = (lookup same k a).or (lookup same k b) := by
  induction a with
  | nil => simp [lookup]
  | cons p a ih =>
    simp only [cons_append, lookup]
    split_ifs
    · rfl
    · exact ih

variable {c : Chain κ υ} {k : κ} {d : Chain κ υ}

theorem lookup_eq_none : lookup same k c = none ↔ ∀ p ∈ c, same p.1 k = false := by
  induction c with
  | nil => simp [lookup]
  | cons p c ih =>
    simp only [lookup, forall_mem_cons]
    split_ifs with h
    · simp [h]
    · rw [ih]; simp [Bool.eq_false_iff.2 h]

theorem mem_of_lookup {v : υ} (h : lookup same k c = some v) : ∃ p ∈ c, same p.1 k = true ∧ p.2 = v := by
  induction c with
  | nil => simp [lookup] at h
  | cons p c ih =>
    simp only [lookup] at h
    split_ifs at h with hp
    · exact ⟨p, by simp, hp, by simpa using h⟩
    · obtain ⟨q, hq, h1, h2⟩ := ih h
      exact ⟨q, .tail _ hq, h1, h2⟩

theorem lookup_of_mem (E : IsEquiv same) (hd : Distinct same c) {p : κ × υ} (hp : p ∈ c)
    (hk : same p.1 k = true) : lookup same k c = some p.2 := by
  induction c with
  | nil => simp at hp
  | cons q c ih =>
    obtain ⟨hq, hd'⟩ := pairwise_cons.1 hd
    simp only [lookup]
    rcases mem_cons.1 hp with rfl | hp
    · rw [if_pos hk]
    · have hqk : ¬ same q.1 k = true := by
        intro h
        have := E.trans _ _ _ h (E.symm _ _ hk)
        rw [hq p hp] at this
        cases this
      rw [if_neg hqk]
      exact ih hd' hp

theorem distinct_perm (E : IsEquiv same) (h : c.Perm d) : Distinct same c ↔ Distinct same d := by
  refine h.pairwise_iff ?_
  intro p q hpq
  by_contra hne
  have := E.symm _ _ (by simpa using hne)
  rw [hpq] at this
  cases this

/-- **Order does not matter**: a permutation of a chain without equal keys answers every lookup the same. -/
theorem lookup_perm (E : IsEquiv same) (h : c.Perm d) (hd : Distinct same c) (k : κ) :
    lookup same k c = lookup same k d := by
  cases hl : lookup same k c with
  | none =>
    rw [lookup_eq_none] at hl
    exact (lookup_eq_none.2 fun p hp => hl p (h.mem_iff.2 hp)).symm
  | some v =>
    obtain ⟨p, hp, hs, rfl⟩ := mem_of_lookup hl
    exact (lookup_of_mem E ((distinct_perm E h).1 hd) (h.mem_iff.1 hp) hs).symm

variable {slot : κ → ℕ} {t : Table κ υ}

theorem lookup_flatten_none (h : ∀ c ∈ t, lookup same k c = none) : lookup same k t.flatten = none := by
  rw [lookup_eq_none]
  intro p hp
  obtain ⟨c, hc, hpc⟩ := mem_flatten.1 hp
  exact lookup_eq_none.1 (h c hc) p hpc

variable {i : ℕ}

theorem lookup_other_bucket (hs : ∀ a b, same a b = true → slot a = slot b) (hp : Placed slot t) (hc : t[i]? = some c)
    (hi : i ≠ slot k) : lookup same k c = none := by
  rw [lookup_eq_none]
  intro p hpc
  by_contra hne
  have h1 := hs _ _ (by simpa using hne : same p.1 k = true)
  exact hi ((hp i c hc p hpc).symm.trans h1)

/-- a table around its `i`-th bucket -/
theorem split_at (h : t[i]? = some c) : t = t.take i ++ c :: t.drop (i + 1) := by
  obtain ⟨hi, rfl⟩ := List.getElem?_eq_some_iff.1 h
  simp

/-- **One bucket answers for the table.** -/
theorem lookup_bucket (hs : ∀ a b, same a b = true → slot a = slot b) (hp : Placed slot t)
    (hc : t[slot k]? = some c) : lookup same k t.flatten = lookup same k c := by
  have hpre : lookup same k (t.take (slot k)).flatten = none := by
    refine lookup_flatten_none fun d hd => ?_
    obtain ⟨j, hj, rfl⟩ := mem_take_iff_getElem.1 hd
    exact lookup_other_bucket hs hp (getElem?_eq_getElem (by omega)) (by omega)
  have hpost : lookup same k (t.drop (slot k + 1)).flatten = none := by
    refine lookup_flatten_none fun d hd => ?_
    obtain ⟨j, hj, rfl⟩ := mem_drop_iff_getElem.1 hd
    exact lookup_other_bucket hs hp (getElem?_eq_getElem (by omega)) (by omega)
  conv_lhs => rw [split_at hc]
  rw [flatten_append, flatten_cons, lookup_append, lookup_append, hpre, hpost]
  simp

theorem set_flatten_perm {rest : Chain κ υ} (hc : t[i]? = some c)
    (h : d.Perm (rest ++ c)) : (t.set i d).flatten.Perm (rest ++ t.flatten) := by
  obtain ⟨hi, -⟩ := List.getElem?_eq_some_iff.1 hc
  rw [List.set_eq_take_append_cons_drop, if_pos hi]
  conv_rhs => rw [split_at hc]
  simp only [flatten_append, flatten_cons, ← append_assoc]
  refine List.Perm.append_right _ ?_
  calc ((t.take i).flatten ++ d).Perm ((t.take i).flatten ++ (rest ++ c)) := h.append_left _
    _ = (t.take i).flatten ++ rest ++ c := by rw [append_assoc]
    _ |>.Perm (rest ++ (t.take i).flatten ++ c) := perm_append_comm.append_right _

theorem placed_set (hp : Placed slot t) (hd : ∀ p ∈ d, slot p.1 = i) : Placed slot (t.set i d) := by
  intro j c hj p hpc
  rw [getElem?_set] at hj
  split_ifs at hj with hij hlt
  · obtain rfl : d = c := by simpa using hj
    rw [← hij]; exact hd p hpc
  · exact hp j c hj p hpc

theorem filled_cons (c : Chain κ υ) (t : Table κ υ) : filled (c :: t) = filled t + if c.isEmpty then 0 else 1 := by
  unfold filled
  rw [countP_cons]
  cases c.isEmpty <;> simp

/-- replacing one bucket changes the number of non-empty buckets by that bucket alone -/
theorem filled_set (hc : t[i]? = some c) :
    filled (t.set i d) + (if c.isEmpty then 0 else 1) = filled t + (if d.isEmpty then 0 else 1) := by
  obtain ⟨hi, -⟩ := List.getElem?_eq_some_iff.1 hc
  have h1 : filled t = (t.take i).countP (fun c => !c.isEmpty) + ((if c.isEmpty then 0 else 1) +
      (t.drop (i + 1)).countP fun c => !c.isEmpty) := by
    conv_lhs => rw [filled, split_at hc]
    rw [countP_append, countP_cons]
    cases c.isEmpty with
    | true => simp
    | false => simp; omega
  have h2 : filled (t.set i d) = (t.take i).countP (fun c => !c.isEmpty) + ((if d.isEmpty then 0 else 1) +
      (t.drop (i + 1)).countP fun c => !c.isEmpty) := by
    rw [filled, set_eq_take_append_cons_drop, if_pos hi, countP_append, countP_cons]
    cases d.isEmpty with
    | true => simp
    | false => simp; omega
  omega

theorem filled_le_length (t : Table κ υ) : filled t ≤ t.flatten.length := by
  induction t with
  | nil => simp [filled]
  | cons c t ih =>
    rw [filled_cons, flatten_cons, length_append]
    cases c with
    | nil => simpa using ih
    | cons p c => simp only [isEmpty_cons, Bool.false_eq_true, if_false, length_cons]; omega

/-- the non-empty buckets are the slots of the keys in the table -/
theorem filled_eq_card (hp : Placed slot t) : filled t = (t.flatten.map fun p => slot p.1).toFinset.card := by
  -- from the last bucket: its nodes have the one slot that no earlier node has
  induction t using reverseRecOn with
  | nil => simp [filled]
  | append_singleton t c ih =>
    have ht : Placed slot t := fun i d hd => hp i d (by
      rw [List.getElem?_append_left (List.getElem?_eq_some_iff.1 hd).1, hd])
    have hc : ∀ p ∈ c, slot p.1 = t.length := hp t.length c (by simp)
    have hold : ∀ p ∈ t.flatten, slot p.1 < t.length := by
      intro p hmem
      obtain ⟨d, hd, hpd⟩ := mem_flatten.1 hmem
      obtain ⟨i, hi⟩ := mem_iff_getElem?.1 hd
      rw [ht i d hi p hpd]
      exact (List.getElem?_eq_some_iff.1 hi).1
    have hfilled : filled (t ++ [c]) = filled t + if c.isEmpty then 0 else 1 := by
      rw [filled, filled]
      cases c <;> simp
    rw [hfilled, ih ht, flatten_append, map_append, toFinset_append]
    cases c with
    | nil => simp
    | cons p c =>
      have hone : ((([p :: c] : Table κ υ).flatten).map fun p => slot p.1).toFinset = {t.length} := by
        ext i
        simp only [flatten_singleton, mem_toFinset, mem_map, Finset.mem_singleton]
        constructor
        · rintro ⟨q, hq, rfl⟩
          exact hc q hq
        · rintro rfl
          exact ⟨p, by simp, hc p (by simp)⟩
      rw [hone, Finset.card_union_of_disjoint]
      · rfl
      · rw [Finset.disjoint_singleton_right, mem_toFinset, mem_map]
        rintro ⟨q, hq, heq⟩
        exact absurd (hold q hq) (by omega)

/-- a bucket with a node more or less: the same for the nodes of the table -/
theorem set_flatten_cons (hi : i < t.length) {x : κ × υ}
    (h : d.Perm (x :: c)) : (t.set i d).flatten.Perm (x :: (t.set i c).flatten) := by
  have hc : (t.set i c)[i]? = some c := getElem?_set_self hi
  have h' : d.Perm ([x] ++ c) := h
  have := set_flatten_perm hc h'
  rwa [set_set] at this

theorem eraseP_perm {f : κ × υ → Bool} (h : c.any f = true) : ∃ p ∈ c, f p = true ∧ c.Perm (p :: c.eraseP f) := by
  obtain ⟨a, ha, hfa⟩ := any_eq_true.1 h
  obtain ⟨p, l₁, l₂, -, hp, hc, he⟩ := exists_of_eraseP ha hfa
  refine ⟨p, by rw [hc]; simp, hp, ?_⟩
  rw [he, hc]
  exact perm_middle

theorem getElem?_getD (hi : i < t.length) : t[i]? = some (t.getD i []) := by
  rw [getD_eq_getElem?_getD, getElem?_eq_getElem hi]
  rfl

theorem set_getD (hi : i < t.length) : t.set i (t.getD i []) = t := by
  have hget := getElem?_getD hi
  rw [getElem?_eq_getElem hi, Option.some_inj] at hget
  rw [← hget, set_getElem_self]

variable {p : κ × υ} {f : κ × υ → Bool}

theorem mem_getD_iff (hp : Placed slot t) (hi : i < t.length) : p ∈ t.getD i [] ↔ p ∈ t.flatten ∧ slot p.1 = i := by
  have hget := getElem?_getD hi
  constructor
  · intro hmem
    exact ⟨mem_flatten.2 ⟨_, mem_of_getElem? hget, hmem⟩, hp i _ hget p hmem⟩
  · rintro ⟨hmem, rfl⟩
    obtain ⟨c, hc, hpc⟩ := mem_flatten.1 hmem
    obtain ⟨j, hj⟩ := mem_iff_getElem?.1 hc
    rw [hp j c hj p hpc, getD_eq_getElem?_getD, hj]
    exact hpc

theorem front_perm (h : c.find? f = some p) : (p :: c.eraseP f).Perm c := by
  obtain ⟨hf, l, r, rfl, hl⟩ := find?_eq_some_iff_append.1 h
  rw [eraseP_append_right _ fun a ha => by simpa using hl a ha, eraseP_cons_of_pos hf]
  exact perm_middle.symm

/-- what a search leaves: the bucket in another order -/
theorem search_snd (hi : i < t.length) : ∃ d, (search f i t).2 = t.set i d ∧ d.Perm (t.getD i []) := by
  unfold search
  split
  · exact ⟨_, (set_getD hi).symm, List.Perm.refl _⟩
  · next h => exact ⟨_, rfl, front_perm h⟩

theorem search_perm (hi : i < t.length) : (search f i t).2.flatten.Perm t.flatten := by
  obtain ⟨d, hd, hperm⟩ := search_snd (f := f) hi
  rw [hd]
  have hperm' : d.Perm ([] ++ t.getD i []) := hperm
  exact set_flatten_perm (getElem?_getD hi) hperm'

theorem placed_search (hp : Placed slot t) (hi : i < t.length) : Placed slot (search f i t).2 := by
  obtain ⟨d, hd, hperm⟩ := search_snd (f := f) hi
  rw [hd]
  exact placed_set hp fun q hq => ((mem_getD_iff hp hi).1 (hperm.mem_iff.1 hq)).2

@[simp] theorem length_search : (search f i t).2.length = t.length := by
  unfold search
  split
  · rfl
  · exact length_set

/-- **A search finds the node with the key.** -/
theorem search_eq_some (hp : Placed slot t) (hi : slot k < t.length) (hk : (t.flatten.map Prod.fst).Nodup)
    (hf : ∀ q ∈ t.flatten, f q = true ↔ q.1 = k) :
    (search f (slot k) t).1 = some p ↔ p ∈ t.flatten ∧ p.1 = k := by
  have hfst : (search f (slot k) t).1 = (t.getD (slot k) []).find? f := by
    unfold search
    split
    · next h => exact h.symm
    · next h => exact h.symm
  rw [hfst]
  constructor
  · intro h
    have hmem := ((mem_getD_iff hp hi).1 (mem_of_find?_eq_some h)).1
    exact ⟨hmem, (hf p hmem).1 (find?_some h)⟩
  · rintro ⟨hmem, rfl⟩
    cases h : (t.getD (slot p.1) []).find? f with
    | none => exact absurd ((hf p hmem).2 rfl) (find?_eq_none.1 h p ((mem_getD_iff hp hi).2 ⟨hmem, rfl⟩))
    | some q =>
      have hq := ((mem_getD_iff hp hi).1 (mem_of_find?_eq_some h)).1
      rw [inj_on_of_nodup_map hk hq hmem ((hf q hq).1 (find?_some h))]

theorem filled_map_reverse (t : Table κ υ) : filled (t.map List.reverse) = filled t := by
  simp only [filled, countP_map, Function.comp_def, isEmpty_reverse]

theorem flatten_map_reverse_perm (t : Table κ υ) : (t.map List.reverse).flatten.Perm t.flatten := by
  induction t with
  | nil => simp
  | cons c t ih =>
    exact (reverse_perm c).append ih

end Lithos.Core.ChainTable
