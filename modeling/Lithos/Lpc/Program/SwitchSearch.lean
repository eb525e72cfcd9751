/-
Searching the table of an integer switch (the bisection of `f_switch`).

The bisection ends at an entry with the value or between two entries around it (`Answer`), for any table. In a table made
of ordered, disjoint labels that is the label with the value, or none (`Answer.right`).
-/
import Lithos.Lpc.Program.Switch

namespace Lithos.Lpc.Program.Switch

open Lithos.Core.Bytes List Option Nat

/-! ## Labels -/

/-- the last value of a label -/
def Label.last (l : Label) : ℤ := l.hi.getD l.lo

def Label.Contains (l : Label) (s : ℤ) : Prop := l.lo ≤ s ∧ s ≤ l.last

/-- the value goes to the label that contains it, or to the default -/
def Right (ls : List Label) (default : ℕ) (s : ℤ) (target : ℕ) : Prop :=
  (∀ l ∈ ls, l.Contains s → target = l.addr) ∧ ((∀ l ∈ ls, ¬ l.Contains s) → target = default)

/-- labels in order: each one ends before the next starts -/
structure Ordered (ls : List Label) : Prop where
  nonempty : ∀ l ∈ ls, l.lo ≤ l.last
  apart : ls.Pairwise fun a b => a.last < b.lo

variable {l : Label}

theorem last_eq {hi : ℤ} (h : l.hi = some hi) : l.last = hi := by
  rw [Label.last, h]
  rfl

theorem Ordered.tail {ls : List Label} (h : Ordered (l :: ls)) : Ordered ls :=
  ⟨(forall_mem_cons.1 h.nonempty).2, (pairwise_cons.1 h.apart).2⟩

variable {s : ℤ}

theorem Ordered.eq_of_contains {ls : List Label} (h : Ordered ls) {a b : Label} (ha : a ∈ ls) (hb : b ∈ ls)
    (hsa : a.Contains s) (hsb : b.Contains s) : a = b := by
  have hapart : ls.Pairwise fun a b => ¬ (a.Contains s ∧ b.Contains s) :=
    h.apart.imp fun hab hs => (hs.1.2.trans_lt (hab.trans_le hs.2.1)).false
  have : Std.Symm fun a b : Label => ¬ (a.Contains s ∧ b.Contains s) := ⟨fun _ _ h hs => h hs.symm⟩
  by_contra hne
  exact hapart.forall ha hb hne ⟨hsa, hsb⟩

/-- the one label that contains a value decides -/
theorem Ordered.right_of_contains {ls : List Label} (h : Ordered ls) (hl : l ∈ ls) (hs : l.Contains s)
    (default : ℕ) : Right ls default s l.addr :=
  ⟨fun l' hl' hs' => by rw [h.eq_of_contains hl hl' hs hs'], fun hno => absurd hs (hno l hl)⟩

theorem right_default {ls : List Label} (hno : ∀ l ∈ ls, ¬ l.Contains s) (default : ℕ) : Right ls default s default :=
  ⟨fun l hl hs => absurd hs (hno l hl), fun _ => rfl⟩

/-! ## Entries -/

variable {ls : List Label} {j : ℕ} {e : ℤ × ℕ}

theorem entries_cons (l : Label) (ls : List Label) : entries (l :: ls) = (match l.hi with
      | none => [(l.lo, l.addr)]
      | some hi => [(l.lo, 1), (hi, l.addr)]) ++ entries ls := by
  rfl

/-- what an entry is: a number, the lower or the upper end of a range -/
inductive EntryOf (ls : List Label) (j : ℕ) (e : ℤ × ℕ) : Prop where
  | number (l : Label) (hl : l ∈ ls) (hhi : l.hi = none) (he : e = (l.lo, l.addr))
  | lower (l : Label) (hl : l ∈ ls) (hi : ℤ) (hhi : l.hi = some hi) (he : e = (l.lo, 1))
      (hnext : (entries ls)[j + 1]? = some (hi, l.addr))
  | upper (l : Label) (hl : l ∈ ls) (hi : ℤ) (hhi : l.hi = some hi) (he : e = (hi, l.addr)) (hj : 1 ≤ j)
      (hprev : (entries ls)[j - 1]? = some (l.lo, 1))

theorem getElem?_behind (pre E : List (ℤ × ℕ)) (k : ℕ) : (pre ++ E)[pre.length + k]? = E[k]? := by
  rw [getElem?_append_right le_self_add, Nat.add_sub_cancel_left]

/-- the entries of a list of labels start with those of its first -/
theorem EntryOf.cons {pre : List (ℤ × ℕ)} (hpre : entries (l :: ls) = pre ++ entries ls)
    (h : EntryOf ls j e) : EntryOf (l :: ls) (pre.length + j) e := by
  cases h with
  | number l' hl' hhi he => exact .number l' (mem_cons_of_mem l hl') hhi he
  | lower l' hl' hi hhi he hnext =>
    refine .lower l' (mem_cons_of_mem l hl') hi hhi he ?_
    rw [Nat.add_assoc, hpre, getElem?_behind]
    exact hnext
  | upper l' hl' hi hhi he hj hprev =>
    refine .upper l' (mem_cons_of_mem l hl') hi hhi he (by omega) ?_
    rw [Nat.add_sub_assoc hj, hpre, getElem?_behind]
    exact hprev

theorem entryOf_getElem? (h : (entries ls)[j]? = some e) : EntryOf ls j e := by
  induction ls generalizing j with
  | nil => simp [entries] at h
  | cons l ls ih =>
    have hcons := entries_cons l ls
    cases hhi : l.hi with
    | none =>
      rw [hhi] at hcons
      rw [hcons] at h
      cases j with
      | zero => exact .number l (.head _) hhi (some.inj h).symm
      | succ j =>
        have := (ih h).cons hcons
        rwa [length_singleton, add_comm] at this
    | some hi =>
      rw [hhi] at hcons
      rw [hcons] at h
      match j, h with
      | 0, h =>
        refine .lower l (.head _) hi hhi (some.inj h).symm ?_
        rw [hcons]; rfl
      | 1, h =>
        refine .upper l (.head _) hi hhi (some.inj h).symm le_rfl ?_
        rw [hcons]; rfl
      | j + 2, h =>
        have := (ih h).cons hcons
        rwa [length_cons, length_singleton, add_comm] at this

/-- a value of a label is at one of its entries, or between the two of a range -/
theorem exists_entry (hl : l ∈ ls) (hs : l.Contains s) : ∃ p a, (entries ls)[p]? = some a ∧ a.1 ≤ s ∧
    (a.1 = s ∨ a.2 = 1 ∧ ∃ b, (entries ls)[p + 1]? = some b ∧ s ≤ b.1) := by
  induction ls with
  | nil => cases hl
  | cons l' ls ih =>
    rw [entries_cons]
    rcases mem_cons.1 hl with rfl | hl
    · refine ⟨0, ?_⟩
      obtain ⟨hlo, hlast⟩ := hs
      rw [Label.last] at hlast
      cases hhi : l.hi with
      | none =>
        rw [hhi] at hlast
        exact ⟨_, rfl, hlo, .inl (hlo.antisymm hlast)⟩
      | some hi =>
        rw [hhi] at hlast
        exact ⟨_, rfl, hlo, .inr ⟨rfl, _, rfl, hlast⟩⟩
    · obtain ⟨p, a, ha, hle, hor⟩ := ih hl
      generalize (match l'.hi with
        | none => [(l'.lo, l'.addr)]
        | some hi => [(l'.lo, 1), (hi, l'.addr)]) = pre
      exact ⟨pre.length + p, a, by rw [getElem?_behind, ha], hle, by rwa [add_assoc, getElem?_behind]⟩

theorem EntryOf.key_mem (h : EntryOf ls j e) (hord : Ordered ls) : ∃ l ∈ ls, l.lo ≤ e.1 ∧ e.1 ≤ l.last := by
  cases h with
  | number l hl hhi he | lower l hl hi hhi he _ =>
    refine ⟨l, hl, ?_⟩
    rw [he]
    exact ⟨le_rfl, hord.nonempty l hl⟩
  | upper l hl hi hhi he _ _ =>
    have hlast := last_eq hhi
    refine ⟨l, hl, ?_⟩
    rw [he]
    exact ⟨hlast ▸ hord.nonempty l hl, hlast.ge⟩

/-- the keys of ordered labels are in order -/
theorem entries_sorted (hord : Ordered ls) : (entries ls).Pairwise fun a b => a.1 ≤ b.1 := by
  induction ls with
  | nil => exact List.Pairwise.nil
  | cons l ls ih =>
    have hrest : ∀ e ∈ entries ls, l.last ≤ e.1 := by
      intro e he
      obtain ⟨j, hj⟩ := mem_iff_getElem?.1 he
      obtain ⟨l', hl', hle, -⟩ := (entryOf_getElem? hj).key_mem hord.tail
      have := (pairwise_cons.1 hord.apart).1 l' hl'
      omega
    have hlast := hord.nonempty l (.head _)
    rw [entries_cons]
    refine pairwise_append.2 ⟨?_, ih hord.tail, fun a ha b hb => ?_⟩
    · cases hhi : l.hi with
      | none => exact pairwise_singleton _ _
      | some hi =>
        rw [Label.last, hhi] at hlast
        exact pairwise_pair.2 hlast
    · have hb' := hrest b hb
      cases hhi : l.hi with
      | none =>
        rw [hhi] at ha
        rw [mem_singleton.1 ha]
        exact hlast.trans hb'
      | some hi =>
        rw [hhi] at ha
        rcases mem_pair.1 ha with rfl | rfl
        · exact hlast.trans hb'
        · exact (last_eq hhi).ge.trans hb'

/-- where a search for `s` ends: at an entry with that key, before all entries, or behind one and before the next. An
entry with 1 for an address hands on to the next. -/
inductive Answer (E : List (ℤ × ℕ)) (default : ℕ) (s : ℤ) (target : ℕ) : Prop where
  | hit (j : ℕ) (e : ℤ × ℕ) (he : E[j]? = some e) (hs : e.1 = s) (hnumber : 1 < e.2 → target = e.2)
      (hrange : e.2 ≤ 1 → ∃ e', E[j + 1]? = some e' ∧ target = e'.2)
  | first (hs : ∀ e, E[0]? = some e → s < e.1) (htarget : target = default)
  | behind (j : ℕ) (e : ℤ × ℕ) (he : E[j]? = some e) (hs : e.1 < s) (hnext : ∀ e', E[j + 1]? = some e' → s < e'.1)
      (hnumber : 1 < e.2 → target = default) (hrange : e.2 ≤ 1 → ∃ e', E[j + 1]? = some e' ∧ target = e'.2)

/-- entries in order: from their place follows the order of the keys -/
theorem key_le {E : List (ℤ × ℕ)} (hsorted : E.Pairwise fun a b => a.1 ≤ b.1) {i k : ℕ} {a b : ℤ × ℕ}
    (ha : E[i]? = some a) (hb : E[k]? = some b) (hik : i ≤ k) : a.1 ≤ b.1 := by
  rcases eq_or_lt_of_le hik with rfl | hlt
  · rw [some.inj (ha.symm.trans hb)]
  · obtain ⟨hi, rfl⟩ := List.getElem?_eq_some_iff.1 ha
    obtain ⟨hk, rfl⟩ := List.getElem?_eq_some_iff.1 hb
    exact List.pairwise_iff_getElem.1 hsorted i k hi hk hlt

section Right

variable (hord : Ordered ls) (haddr : ∀ l ∈ ls, 1 < l.addr) {s : ℤ} {target default : ℕ}
include hord haddr

/-- an entry that is found belongs to the label with the value -/
theorem hit_right (he : (entries ls)[j]? = some e) (hs : e.1 = s) (hnumber : 1 < e.2 → target = e.2)
    (hrange : e.2 ≤ 1 → ∃ e', (entries ls)[j + 1]? = some e' ∧ target = e'.2) :
    Right ls default s target := by
  cases entryOf_getElem? he with
  | number l hl hhi heq =>
    rw [heq] at hs hnumber
    rw [hnumber (haddr l hl)]
    exact hord.right_of_contains hl (hs ▸ ⟨le_rfl, hord.nonempty l hl⟩) default
  | lower l hl hi hhi heq hnext =>
    rw [heq] at hs hrange
    obtain ⟨e', he', ht⟩ := hrange le_rfl
    rw [hnext] at he'
    rw [ht, ← some.inj he']
    exact hord.right_of_contains hl (hs ▸ ⟨le_rfl, hord.nonempty l hl⟩) default
  | upper l hl hi hhi heq hj hprev =>
    have hlast := last_eq hhi
    rw [heq] at hs hnumber
    rw [hnumber (haddr l hl)]
    exact hord.right_of_contains hl (hs ▸ hlast ▸ ⟨hord.nonempty l hl, le_rfl⟩) default

theorem Answer.right (h : Answer (entries ls) default s target) : Right ls default s target := by
  cases h with
  | hit j e he hs hnumber hrange => exact hit_right hord haddr he hs hnumber hrange
  | first hs htarget =>
    rw [htarget]
    refine right_default (fun l hl hcontains => ?_) default
    obtain ⟨p, a, ha, hle, -⟩ := exists_entry hl hcontains
    obtain ⟨hp, -⟩ := List.getElem?_eq_some_iff.1 ha
    have hzero : (entries ls)[0]? = some (entries ls)[0] := List.getElem?_eq_getElem (by omega)
    have h1 := hs _ hzero
    have h2 := key_le (entries_sorted hord) hzero ha (zero_le p)
    omega
  | behind j e he hs hnext hnumber hrange =>
    by_cases htype : e.2 ≤ 1
    · obtain ⟨e', he', ht⟩ := hrange htype
      have hs' := hnext e' he'
      cases entryOf_getElem? he with
      | number l hl hhi heq | upper l hl hi hhi heq _ _ => rw [heq] at htype; exact absurd (haddr l hl) (by omega)
      | lower l hl hi hhi heq hnext' =>
        have hlast := last_eq hhi
        rw [hnext'] at he'
        cases he'
        rw [ht]
        rw [heq] at hs
        exact hord.right_of_contains hl ⟨hs.le, hlast ▸ hs'.le⟩ default
    · rw [hnumber (by omega)]
      refine right_default (fun l hl hcontains => ?_) default
      obtain ⟨p, a, ha, hle, hor⟩ := exists_entry hl hcontains
      -- a key equal to the value, or two keys around it, would have to stand where there is none
      have hplace : ∀ {k : ℕ} {a : ℤ × ℕ}, (entries ls)[k]? = some a → (k ≤ j → a.1 < s) ∧ (j < k → s < a.1) := by
        intro k a ha
        refine ⟨fun hk => (key_le (entries_sorted hord) ha he hk).trans_lt hs, fun hk => ?_⟩
        obtain ⟨hk', -⟩ := List.getElem?_eq_some_iff.1 ha
        have hget : (entries ls)[j + 1]? = some (entries ls)[j + 1] := List.getElem?_eq_getElem (by omega)
        exact (hnext _ hget).trans_le (key_le (entries_sorted hord) hget ha hk)
      have hpj : p ≤ j := not_lt.1 fun hlt => hle.not_gt ((hplace ha).2 hlt)
      rcases hor with heq | ⟨htwo, b, hb, hsb⟩
      · exact ((hplace ha).1 hpj).ne heq
      · have hjp : j ≤ p := not_lt.1 fun hlt => hsb.not_gt ((hplace hb).1 hlt)
        obtain rfl := hpj.antisymm hjp
        rw [he] at ha
        exact htype (some.inj ha ▸ htwo.le)

end Right

/-! ## The bisection -/

/-- the table in the readram, from `T` on: no address is 0, and a marked entry is not the last -/
structure TableAt (read : Reader) (T : ℕ) (E : List (ℤ × ℕ)) : Prop where
  key : ∀ j e, E[j]? = some e → fetchPtr read (T + j * caseSize) = some e.1
  addr : ∀ j e, E[j]? = some e → read (T + j * caseSize + 8) 2 = some e.2
  nonzero : ∀ e ∈ E, e.2 ≠ 0
  marked : ∀ j e, E[j]? = some e → e.2 ≤ 1 → ∃ e', E[j + 1]? = some e'

/-- the short before the table is no mark, or the value is behind the first entry, so that it is not read -/
def Before (read : Reader) (T : ℕ) (E : List (ℤ × ℕ)) (s : ℤ) : Prop :=
  (∃ b, 1 < b ∧ read (T - 2) 2 = some b) ∨ ∀ e, E[0]? = some e → e.1 < s

theorem fixUp_eq (endTab l d : ℕ) : fixUp endTab l d =
    if l < endTab then (l, d) else if d / 2 < 10 then (l, 0) else fixUp endTab (l - d / 2) (d / 2) := by
  rw [fixUp]
  rfl

/-- stepping back into the table: the step is halved until the place is in it -/
theorem fixUp_spec {T n j : ℕ} (hj : j < n) (m : ℕ) :
    (j + 1 = n ∧ fixUp (T + n * caseSize) (T + (j + 2 ^ m) * caseSize) (5 * 2 ^ (m + 1)) = (T + n * caseSize, 0)) ∨
      ∃ k ≤ m, j + 2 ^ k < n ∧ (k = m ∨ n ≤ j + 2 ^ (k + 1)) ∧
        fixUp (T + n * caseSize) (T + (j + 2 ^ m) * caseSize) (5 * 2 ^ (m + 1)) =
          (T + (j + 2 ^ k) * caseSize, 5 * 2 ^ (k + 1)) := by
  unfold caseSize
  induction m with
  | zero =>
    by_cases hin : j + 1 < n
    · refine .inr ⟨0, le_rfl, hin, .inl rfl, ?_⟩
      rw [fixUp_eq, if_pos (by omega)]
    · refine .inl ⟨by omega, ?_⟩
      rw [fixUp_eq, if_neg (by omega), if_pos (by omega)]
      congr 1
      omega
  | succ m ih =>
    by_cases hin : j + 2 ^ (m + 1) < n
    · refine .inr ⟨m + 1, le_rfl, hin, .inl rfl, ?_⟩
      rw [fixUp_eq, if_pos (by omega)]
    · have hstep : fixUp (T + n * 10) (T + (j + 2 ^ (m + 1)) * 10) (5 * 2 ^ (m + 1 + 1)) =
          fixUp (T + n * 10) (T + (j + 2 ^ m) * 10) (5 * 2 ^ (m + 1)) := by
        rw [fixUp_eq, if_neg (by omega), if_neg (by omega)]
        congr 1
        all_goals omega
      rw [hstep]
      rcases ih with h | ⟨k, hk, hlt, hor, heq⟩
      · exact .inl h
      · refine .inr ⟨k, by omega, hlt, .inr ?_, heq⟩
        rcases hor with rfl | hge
        · omega
        · exact hge

/-- the first step is half the size of the table, or 0 -/
theorem firstStep_cases (k : ℕ) : (if 2 ^ k * caseSize / 2 < caseSize then 0 else 2 ^ k * caseSize / 2) = 5 * 2 ^ k ∨
    k = 0 ∧ (if 2 ^ k * caseSize / 2 < caseSize then 0 else 2 ^ k * caseSize / 2) = 0 := by
  unfold caseSize
  by_cases hstep : 2 ^ k * 10 / 2 < 10
  · have hzero : k = 0 := by
      by_contra hne0
      have : 2 ^ 1 ≤ 2 ^ k := Nat.pow_le_pow_right two_pos (by omega)
      omega
    exact .inr ⟨hzero, if_pos hstep⟩
  · rw [if_neg hstep]
    exact .inl (by omega)

section Search

variable {read : Reader} {T default : ℕ} {E : List (ℤ × ℕ)} {s : ℤ} (ht : TableAt read T E) {d : ℕ}
include ht

/-- the short before an entry is the address of the entry before, or what stands before the table -/
theorem TableAt.short_before (hbefore : Before read T E s) {j : ℕ} {e : ℤ × ℕ} (he : E[j]? = some e) (hs : s ≤ e.1) :
    ∃ b, read (T + j * caseSize - 2) 2 = some b ∧ b ≠ 0 ∧ (j = 0 → 1 < b) ∧
      ∀ e, 1 ≤ j → E[j - 1]? = some e → b = e.2 := by
  have hj : j < E.length := (List.getElem?_eq_some_iff.1 he).1
  cases j with
  | zero =>
    obtain ⟨b, hb, hread⟩ := hbefore.resolve_right fun h => hs.not_gt (h e he)
    refine ⟨b, ?_, by omega, fun _ => hb, fun _ h => by omega⟩
    exact hread
  | succ j =>
    have hget : E[j]? = some E[j] := getElem?_eq_getElem (by omega)
    have hpos : T + (j + 1) * caseSize - 2 = T + j * caseSize + 8 := by unfold caseSize; omega
    refine ⟨E[j].2, ?_, ht.nonzero _ (getElem_mem _), fun h => by omega, fun e _ he => ?_⟩
    · rw [hpos]; exact ht.addr j _ hget
    · rw [Nat.add_sub_cancel, hget] at he
      rw [some.inj he]

theorem TableAt.rangeTarget_eq {j : ℕ} {e : ℤ × ℕ} (he : E[j]? = some e) (i : ℤ) :
    rangeTarget read (T + j * caseSize + 8) i = some e.2 := by
  rw [rangeTarget, ht.addr j e he, bind_some, if_neg (ht.nonzero e (mem_of_getElem? he))]

/-- the value is found: its entry, or the next one for the lower end of a range -/
theorem TableAt.found (hbefore : Before read T E s) {j : ℕ} {e : ℤ × ℕ} (he : E[j]? = some e) (hs : e.1 = s)
    (endTab : ℕ) (default? : Option ℕ) (d : ℕ) : ∃ target, searchLoop read endTab default? s (T + j * caseSize) d = some target ∧
      Answer E default s target := by
  obtain ⟨b, hb, hb0, -, -⟩ := ht.short_before hbefore he hs.ge
  rw [searchLoop, ht.key j e he, bind_some, if_neg (by omega), if_neg (by omega), ht.addr j e he,
    bind_some, hb, bind_some, if_neg hb0, bind_some]
  by_cases htype : e.2 ≤ 1
  · obtain ⟨e', he'⟩ := ht.marked j e he htype
    have hplace : T + j * caseSize + caseSize + 8 = T + (j + 1) * caseSize + 8 := by unfold caseSize; omega
    refine ⟨e'.2, ?_, .hit j e he hs (fun h => by omega) fun _ => ⟨e', he', rfl⟩⟩
    rw [if_pos htype]
    rw [hplace, ht.rangeTarget_eq he']
  · exact ⟨e.2, by rw [if_neg htype], .hit j e he hs (fun _ => rfl) fun h => absurd h htype⟩

/-- the search ends before an entry -/
theorem TableAt.ends_before (hbefore : Before read T E s) {j : ℕ} {e : ℤ × ℕ} (he : E[j]? = some e) (hs : s < e.1)
    (hlow : ∀ e, 1 ≤ j → E[j - 1]? = some e → e.1 < s) (endTab : ℕ) (hd : d < caseSize) :
    ∃ target, searchLoop read endTab (some default) s (T + j * caseSize) d = some target ∧
      Answer E default s target := by
  have hj : j < E.length := (List.getElem?_eq_some_iff.1 he).1
  obtain ⟨b, hb, -, hfirst, hprev⟩ := ht.short_before hbefore he hs.le
  rw [searchLoop, ht.key j e he, bind_some, if_pos hs, if_pos hd, hb, bind_some]
  cases j with
  | zero =>
    refine ⟨default, by rw [if_neg (by have := hfirst rfl; omega)], .first (fun e' he' => ?_) rfl⟩
    rw [← some.inj (he.symm.trans he')]
    exact hs
  | succ j =>
    have hget : E[j]? = some E[j] := getElem?_eq_getElem (by omega)
    have hs' : E[j].1 < s := hlow E[j] (by omega) hget
    have hnext : ∀ e', E[j + 1]? = some e' → s < e'.1 := fun e' he' => some.inj (he.symm.trans he') ▸ hs
    rw [hprev E[j] (by omega) hget]
    by_cases htype : E[j].2 ≤ 1
    · have hplace : T + (j + 1) * caseSize - caseSize = T + j * caseSize := by unfold caseSize; omega
      refine ⟨e.2, ?_, .behind j E[j] hget hs' hnext (fun h => by omega) fun _ => ⟨e, he, rfl⟩⟩
      rw [if_pos htype, hplace, ht.key j _ hget, bind_some, if_pos hs'.le, ht.rangeTarget_eq he]
    · exact ⟨default, by rw [if_neg htype], .behind j E[j] hget hs' hnext (fun _ => rfl) fun h => absurd h htype⟩

/-- the search ends behind an entry -/
theorem TableAt.ends_behind {j : ℕ} {e : ℤ × ℕ} (he : E[j]? = some e) (hs : e.1 < s)
    (hhigh : ∀ e', E[j + 1]? = some e' → s < e'.1) (endTab : ℕ) (hd : d < caseSize) :
    ∃ target, searchLoop read endTab (some default) s (T + j * caseSize) d = some target ∧
      Answer E default s target := by
  rw [searchLoop, ht.key j e he, bind_some, if_neg (by omega), if_pos hs, if_pos hd, ht.addr j e he, bind_some]
  by_cases htype : e.2 ≤ 1
  · obtain ⟨e', he'⟩ := ht.marked j e he htype
    have hplace : T + j * caseSize + caseSize = T + (j + 1) * caseSize := by unfold caseSize; omega
    refine ⟨e'.2, ?_, .behind j e he hs hhigh (fun h => by omega) fun _ => ⟨e', he', rfl⟩⟩
    rw [if_pos htype, hplace, ht.key _ _ he', bind_some, if_pos (hhigh e' he').le, ht.rangeTarget_eq he']
  · exact ⟨default, by rw [if_neg htype], .behind j e he hs hhigh (fun _ => rfl) fun h => absurd h htype⟩

/-- **The bisection.** At entry `j` with steps of `2 ^ k` entries left, the value lies between the entries that far away
on both sides; the search ends where it belongs. -/
theorem TableAt.search (hbefore : Before read T E s) (k : ℕ) {j : ℕ} (hj : j < E.length) (hroom : 2 ^ k ≤ j + 1)
    (hd : d = 5 * 2 ^ k ∨ k = 0 ∧ d = 0) (hlow : ∀ e, 2 ^ k ≤ j → E[j - 2 ^ k]? = some e → e.1 < s) (hhigh : ∀ e, E[j + 2 ^ k]? = some e → s < e.1) :
    ∃ target, searchLoop read (T + E.length * caseSize) (some default) s (T + j * caseSize) d = some target ∧
      Answer E default s target := by
  induction k using Nat.strong_induction_on generalizing j d with
  | _ k ih =>
    have he : E[j]? = some E[j] := getElem?_eq_getElem hj
    rcases lt_trichotomy s E[j].1 with hs | hs | hs
    · cases k with
      | zero => exact ht.ends_before hbefore he hs hlow _ (by unfold caseSize; omega)
      | succ k =>
        have hpow : 2 ^ (k + 1) = 2 * 2 ^ k := by ring
        obtain rfl : d = 5 * 2 ^ (k + 1) := hd.resolve_right fun h => absurd h.1 (Nat.succ_ne_zero k)
        have hpos := Nat.two_pow_pos k
        have hplace : T + j * caseSize - 5 * 2 ^ (k + 1) = T + (j - 2 ^ k) * caseSize := by unfold caseSize; omega
        have hhalf : 5 * 2 ^ (k + 1) / 2 = 5 * 2 ^ k := by omega
        rw [searchLoop, ht.key j _ he, bind_some, if_pos hs, if_neg (by unfold caseSize; omega), hplace, hhalf]
        refine ih k (Nat.lt_succ_self k) (by omega) (by omega) (.inl rfl) (fun e hle hget => ?_) fun e hget => ?_
        · refine hlow e (by omega) ?_
          rwa [hpow, two_mul, Nat.sub_add_eq]
        · rw [Nat.sub_add_cancel (by omega), he] at hget
          rwa [← some.inj hget]
    · exact ht.found hbefore he hs.symm _ _ d
    · cases k with
      | zero => exact ht.ends_behind he hs hhigh _ (by unfold caseSize; omega)
      | succ k =>
        obtain rfl : d = 5 * 2 ^ (k + 1) := hd.resolve_right fun h => absurd h.1 (Nat.succ_ne_zero k)
        have hpos := Nat.two_pow_pos k
        have hplace : T + j * caseSize + 5 * 2 ^ (k + 1) = T + (j + 2 ^ k) * caseSize := by unfold caseSize; omega
        rw [searchLoop, ht.key j _ he, bind_some, if_neg (by omega), if_pos hs,
          if_neg (by unfold caseSize; omega), hplace]
        rcases fixUp_spec hj k with ⟨hlast, hfix⟩ | ⟨m, hm, hin, hbound, hfix⟩
        · -- behind the last entry
          have hnone : E[j + 1]? = none := getElem?_eq_none (by omega)
          have htype : 1 < E[j].2 := by
            by_contra hle
            obtain ⟨e', he'⟩ := ht.marked j _ he (by omega)
            rw [hnone] at he'
            cases he'
          refine ⟨default, by rw [hfix, if_pos rfl], .behind j E[j] he hs (fun e' he' => ?_) (fun _ => rfl) fun h => ?_⟩
          · rw [hnone] at he'
            cases he'
          · omega
        · have hne : T + (j + 2 ^ m) * caseSize ≠ T + E.length * caseSize := by unfold caseSize; omega
          have hhalf : 5 * 2 ^ (m + 1) / 2 = 5 * 2 ^ m := by omega
          rw [hfix, if_neg hne, hhalf]
          refine ih m (by omega) hin (by omega) (.inl rfl) (fun e hle hget => ?_) fun e hget => ?_
          · rw [Nat.add_sub_cancel, he] at hget
            rwa [← some.inj hget]
          · have hsum : j + 2 ^ m + 2 ^ m = j + 2 ^ (m + 1) := by omega
            rw [hsum] at hget
            rcases hbound with rfl | hge
            · exact hhigh e hget
            · rw [getElem?_eq_none hge] at hget
              cases hget

/-- the search of a whole table: it starts at the entry that the size of the table, as a power of 2, gives -/
theorem TableAt.bisect (hbefore : Before read T E s) (hne : E ≠ []) :
    ∃ target, searchLoop read (T + E.length * caseSize) (some default) s (T + (2 ^ log2 E.length - 1) * caseSize)
      (if 2 ^ log2 E.length * caseSize / 2 < caseSize then 0 else 2 ^ log2 E.length * caseSize / 2) =
        some target ∧ Answer E default s target := by
  have hpos : 0 < E.length := length_pos_iff.2 hne
  have hle : 2 ^ log2 E.length ≤ E.length := log2_self_le hpos.ne'
  have hlt : E.length < 2 ^ (log2 E.length + 1) := lt_log2_self
  refine ht.search hbefore (log2 E.length) (by omega) (by omega) (firstStep_cases _) (fun e h => by omega) fun e he => ?_
  rw [getElem?_eq_none (by rw [pow_succ] at hlt; omega)] at he
  cases he

end Search

end Lithos.Lpc.Program.Switch
