/-
Hash tables with open addressing and linear probing.

A key is looked for from its home slot on, around the end of the table, until it or a free slot is found. That finds every
key as long as no free slot stands between a key and its home (`Sound`). A key put into the first free slot keeps this;
freeing the slot of a key keeps it if no other key was put behind that slot because of it (`Crosses`).
-/
import Lithos.Core.Ring

namespace Lithos.Core.LinearProbing

open List Option Function Nat

variable {K V : Type*} {home : K → ℕ} {n : ℕ} {p : ℕ → Bool} {fuel h : ℕ}

/-! ## Probing -/

/-- the first slot with `p` among `fuel` ones from `s` on -/
def probe (n : ℕ) (p : ℕ → Bool) : ℕ → ℕ → Option ℕ
  | 0, _ => none
  | fuel + 1, s => if p s then some s else probe n p fuel ((s + 1) % n)

theorem slot_succ (h d : ℕ) : ((h + 1) % n + d) % n = (h + (d + 1)) % n := by
  rw [mod_add_mod, add_assoc, add_comm 1 d]

theorem probe_eq_none (hh : h < n) : probe n p fuel h = none ↔ ∀ d < fuel, p ((h + d) % n) = false := by
  induction fuel generalizing h with
  | zero => exact ⟨fun _ d hd => absurd hd (not_lt_zero d), fun _ => rfl⟩
  | succ fuel ih =>
    have hfirst : (h + 0) % n = h := mod_eq_of_lt hh
    rw [probe]
    cases hp : p h with
    | true =>
      refine ⟨nofun, fun hall => ?_⟩
      have := hall 0 (succ_pos fuel)
      rw [hfirst, hp] at this
      cases this
    | false =>
      rw [if_neg Bool.false_ne_true, ih (mod_lt _ (zero_lt_of_lt hh))]
      constructor
      · intro hall d hd
        cases d with
        | zero => rw [hfirst, hp]
        | succ d =>
          rw [← slot_succ]
          exact hall d (lt_of_succ_lt_succ hd)
      · intro hall d hd
        rw [slot_succ]
        exact hall (d + 1) (succ_lt_succ hd)

variable {s : ℕ} {e : K × V}

theorem probe_eq_some (hh : h < n) : probe n p fuel h = some s ↔
      ∃ d < fuel, s = (h + d) % n ∧ p s = true ∧ ∀ e < d, p ((h + e) % n) = false := by
  induction fuel generalizing h with
  | zero => exact ⟨nofun, fun ⟨d, hd, _⟩ => absurd hd (not_lt_zero d)⟩
  | succ fuel ih =>
    have hfirst : (h + 0) % n = h := mod_eq_of_lt hh
    rw [probe]
    cases hp : p h with
    | true =>
      rw [if_pos rfl]
      constructor
      · intro heq
        cases heq
        exact ⟨0, succ_pos fuel, hfirst.symm, hp, fun e he => absurd he (not_lt_zero e)⟩
      · rintro ⟨d, -, rfl, -, hbefore⟩
        cases d with
        | zero => rw [hfirst]
        | succ d =>
          have := hbefore 0 (succ_pos d)
          rw [hfirst, hp] at this
          cases this
    | false =>
      rw [if_neg Bool.false_ne_true, ih (mod_lt _ (zero_lt_of_lt hh))]
      constructor
      · rintro ⟨d, hd, hs, hps, hbefore⟩
        refine ⟨d + 1, succ_lt_succ hd, by rw [hs, slot_succ], hps, ?_⟩
        intro e he
        cases e with
        | zero => rw [hfirst, hp]
        | succ e =>
          rw [← slot_succ]
          exact hbefore e (lt_of_succ_lt_succ he)
      · rintro ⟨d, hd, hs, hps, hbefore⟩
        cases d with
        | zero =>
          rw [hs, hfirst, hp] at hps
          cases hps
        | succ d =>
          refine ⟨d, lt_of_succ_lt_succ hd, by rw [hs, slot_succ], hps, ?_⟩
          intro e he
          rw [slot_succ]
          exact hbefore (e + 1) (succ_lt_succ he)

/-- only the slots of the table are looked at -/
theorem probe_congr {q : ℕ → Bool} (hpq : ∀ s < n, p s = q s) (fuel : ℕ) (hh : h < n) :
    probe n p fuel h = probe n q fuel h := by
  induction fuel generalizing h with
  | zero => rfl
  | succ fuel ih => rw [probe, probe, hpq h hh, ih (mod_lt _ (zero_lt_of_lt hh))]

/-! ## Tables -/

/-- the slots of a table, as far as they are taken -/
abbrev Slots (K V : Type*) := ℕ → Option (K × V)

def entries (n : ℕ) (t : Slots K V) : List (K × V) := (range n).filterMap t

theorem mem_entries {t : Slots K V} : e ∈ entries n t ↔ ∃ s < n, t s = some e := by
  rw [entries, mem_filterMap]
  constructor
  · rintro ⟨s, hs, he⟩
    exact ⟨s, mem_range.1 hs, he⟩
  · rintro ⟨s, hs, he⟩
    exact ⟨s, mem_range.2 hs, he⟩

theorem entries_succ (n : ℕ) (t : Slots K V) : entries (n + 1) t = entries n t ++ (t n).toList := by
  rw [entries, range_succ, filterMap_append]
  congr 1

theorem length_entries_le (n : ℕ) (t : Slots K V) : (entries n t).length ≤ n := by
  have h := length_filterMap_le t (range n)
  rwa [length_range] at h

/-- filling a free slot -/
theorem entries_fill {t : Slots K V} (hs : s < n) (hfree : t s = none) (e : K × V) :
    (entries n (update t s (some e))).Perm (e :: entries n t) := by
  have hrange := perm_cons_erase (mem_range.2 hs)
  have hrest : ((range n).erase s).filterMap (update t s (some e)) = ((range n).erase s).filterMap t := by
    apply filterMap_congr
    intro i hi
    have hne : i ≠ s := ((List.Nodup.mem_erase_iff nodup_range).1 hi).1
    exact update_of_ne hne ..
  have hfull := hrange.filterMap (update t s (some e))
  rw [filterMap_cons_some (update_self ..), hrest] at hfull
  have hold := hrange.filterMap t
  rw [filterMap_cons_none hfree] at hold
  exact hfull.trans (hold.symm.cons e)

/-- freeing a slot -/
theorem entries_free {t : Slots K V} (hs : s < n) (he : t s = some e) :
    (entries n t).Perm (e :: entries n (update t s none)) := by
  have hfill := entries_fill (t := update t s none) hs (update_self ..) e
  rw [update_idem, ← he, update_eq_self] at hfill
  exact hfill

/-- fewer entries than slots leave one free -/
theorem exists_free {t : Slots K V} (h : (entries n t).length < n) : ∃ s < n, t s = none := by
  by_contra hnone
  push Not at hnone
  have hall : ∀ s ∈ range n, (t s).isSome = true := fun s hs =>
    isSome_iff_ne_none.2 (hnone s (mem_range.1 hs))
  rw [entries, length_filterMap_eq_countP, countP_eq_length.2 hall, length_range] at h
  exact lt_irrefl n h

/-- keys stand once, and no slot between a key and its home is free -/
structure Sound (home : K → ℕ) (n : ℕ) (t : Slots K V) : Prop where
  distinct : ∀ i < n, ∀ j < n, ∀ k v w, t i = some (k, v) → t j = some (k, w) → i = j
  reached : ∀ s < n, ∀ k v, t s = some (k, v) → ∃ d < n, s = (home k + d) % n ∧ ∀ e < d, t ((home k + e) % n) ≠ none

variable [DecidableEq K] {t : Slots K V} {k : K} {v : V}

/-- a search for `k` ends at a free slot, or at `k` -/
def stops (t : Slots K V) (k : K) (s : ℕ) : Bool :=
  match t s with
  | none => true
  | some e => e.1 = k

/-- the value of a key, as far as probing finds it -/
def lookup (home : K → ℕ) (n : ℕ) (t : Slots K V) (k : K) : Option V :=
  (probe n (stops t k) n (home k % n)).bind fun s => (t s).map Prod.snd

theorem stops_of_some (h : t s = some (k, v)) : stops t k s = true := by
  rw [stops, h]
  exact decide_eq_true rfl

theorem stops_eq_true (h : stops t k s = true) : t s = none ∨ ∃ v, t s = some (k, v) := by
  rw [stops] at h
  cases ht : t s with
  | none => exact .inl rfl
  | some e =>
    rw [ht] at h
    obtain rfl := of_decide_eq_true h
    exact .inr ⟨e.2, rfl⟩

theorem stops_eq_false (h : t s ≠ none) (hk : ∀ v, t s ≠ some (k, v)) : stops t k s = false := by
  cases hs : stops t k s with
  | false => rfl
  | true =>
    rcases stops_eq_true hs with h' | ⟨v, h'⟩
    · exact absurd h' h
    · exact absurd h' (hk v)

/-- in a sound table probing finds what is there, and nothing else -/
theorem Sound.lookup_iff (hs : Sound home n t) (k : K) (v : V) : lookup home n t k = some v ↔ (k, v) ∈ entries n t := by
  rw [mem_entries, lookup]
  constructor
  · intro h
    obtain ⟨s, hp, hv⟩ := bind_eq_some_iff.1 h
    obtain ⟨e, he, rfl⟩ := map_eq_some_iff.1 hv
    have hn : 0 < n := by
      rcases n.eq_zero_or_pos with rfl | hn
      · cases hp
      · exact hn
    obtain ⟨d, -, hsd, hstop, -⟩ := (probe_eq_some (mod_lt _ hn)).1 hp
    rcases stops_eq_true hstop with h' | ⟨w, h'⟩
    · rw [h'] at he
      cases he
    · rw [h'] at he
      cases he
      exact ⟨s, hsd ▸ mod_lt _ hn, h'⟩
  · rintro ⟨s, hsn, he⟩
    have hn := zero_lt_of_lt hsn
    obtain ⟨d, hd, hsd, hbefore⟩ := hs.reached s hsn k v he
    have hprobe : probe n (stops t k) n (home k % n) = some s := by
      rw [probe_eq_some (mod_lt _ hn)]
      refine ⟨d, hd, by rw [hsd, mod_add_mod], stops_of_some he, ?_⟩
      intro e hed
      rw [mod_add_mod]
      apply stops_eq_false (hbefore e hed)
      intro w hw
      -- the key stands nowhere else
      have heq := hs.distinct _ (mod_lt _ hn) s hsn k w v hw he
      rw [hsd] at heq
      exact hed.ne (Ring.cell_inj (hed.trans hd) hd heq)
    rw [hprobe, bind_some, he]
    rfl

/-- the first free slot from the home of a key on -/
def freeSlot (home : K → ℕ) (n : ℕ) (t : Slots K V) (k : K) : Option ℕ :=
  probe n (fun s => (t s).isNone) n (home k % n)

omit [DecidableEq K] in
theorem freeSlot_eq_some (hn : 0 < n) : freeSlot home n t k = some s ↔
      ∃ d < n, s = (home k + d) % n ∧ t s = none ∧ ∀ e < d, t ((home k + e) % n) ≠ none := by
  rw [freeSlot, probe_eq_some (mod_lt _ hn)]
  simp only [mod_add_mod, isNone_iff_eq_none, isNone_eq_false_iff, isSome_iff_ne_none]

omit [DecidableEq K] in
theorem exists_freeSlot (k : K) (h : (entries n t).length < n) : ∃ s, freeSlot home n t k = some s := by
  obtain ⟨s, hs, hfree⟩ := exists_free h
  have hn := zero_lt_of_lt hs
  cases hf : freeSlot home n t k with
  | some s => exact ⟨s, rfl⟩
  | none =>
    rw [freeSlot, probe_eq_none (mod_lt _ hn)] at hf
    -- every slot is some way behind the home of the key
    have hd := hf ((s + (n - home k % n)) % n) (mod_lt _ hn)
    have hlt := mod_lt (home k) hn
    rw [add_mod_mod, show home k % n + (s + (n - home k % n)) = s + n by omega, add_mod_right,
      mod_eq_of_lt hs, hfree] at hd
    cases hd

omit [DecidableEq K] in
/-- a full slot stays full -/
theorem update_ne_none {i : ℕ} (h : t i ≠ none) : update t s (some e) i ≠ none := by
  by_cases his : i = s
  · rw [his, update_self]
    nofun
  · rwa [update_of_ne his]

omit [DecidableEq K] in
theorem Sound.insert (hs : Sound home n t) (hn : 0 < n) (hk : ∀ v, (k, v) ∉ entries n t)
    (hfree : freeSlot home n t k = some s) (v : V) : Sound home n (update t s (some (k, v))) := by
  obtain ⟨d, hd, hsd, hnone, hbefore⟩ := (freeSlot_eq_some hn).1 hfree
  have hstill := fun i => update_ne_none (t := t) (s := s) (e := (k, v)) (i := i)
  have hold : ∀ i < n, ∀ k' v', update t s (some (k, v)) i = some (k', v') →
      (i = s ∧ k' = k) ∨ t i = some (k', v') ∧ k' ≠ k := by
    intro i hi k' v' h
    by_cases his : i = s
    · rw [his, update_self] at h
      exact .inl ⟨his, (Prod.mk.inj (some.inj h)).1.symm⟩
    · rw [update_of_ne his] at h
      refine .inr ⟨h, fun hkk => ?_⟩
      rw [hkk] at h
      exact hk v' (mem_entries.2 ⟨i, hi, h⟩)
  refine ⟨?_, ?_⟩
  · intro i hi j hj k' v' w' h1 h2
    rcases hold i hi k' v' h1 with ⟨hi', h1⟩ | ⟨h1, hne⟩
    · rcases hold j hj k' w' h2 with ⟨hj', -⟩ | ⟨-, hne⟩
      · rw [hi', hj']
      · exact absurd h1 hne
    · rcases hold j hj k' w' h2 with ⟨-, h2⟩ | ⟨h2, -⟩
      · exact absurd h2 hne
      · exact hs.distinct i hi j hj k' v' w' h1 h2
  · intro i hi k' v' h
    rcases hold i hi k' v' h with ⟨rfl, rfl⟩ | ⟨h, -⟩
    · exact ⟨d, hd, hsd, fun e he => hstill _ (hbefore e he)⟩
    · obtain ⟨d', hd', hid, hbefore'⟩ := hs.reached i hi k' v' h
      exact ⟨d', hd', hid, fun e he => hstill _ (hbefore' e he)⟩

/-- some key stands behind the slot `s` as seen from its home -/
def Crosses (home : K → ℕ) (n : ℕ) (t : Slots K V) (s : ℕ) : Prop :=
  ∃ k v d e, d < e ∧ e < n ∧ (home k + d) % n = s ∧ t ((home k + e) % n) = some (k, v)

omit [DecidableEq K] in
/-- keys that all stand at home do not stand behind any slot -/
theorem not_crosses_of_home (h : ∀ i < n, ∀ k v, t i = some (k, v) → home k % n = i) (s : ℕ) :
    ¬ Crosses home n t s := by
  rintro ⟨k, v, d, e, hde, hen, -, hslot⟩
  have hpos := zero_lt_of_lt hen
  have hhome := h _ (mod_lt _ hpos) k v hslot
  have hzero : e = 0 := Ring.cell_inj hen hpos hhome.symm
  exact not_lt_zero d (hzero ▸ hde)

omit [DecidableEq K] in
theorem Sound.erase (hs : Sound home n t) (hclear : ¬ Crosses home n t s) : Sound home n (update t s none) := by
  have hold : ∀ i e, update t s none i = some e → i ≠ s ∧ t i = some e := by
    intro i e h
    by_cases his : i = s
    · rw [his, update_self] at h
      cases h
    · rw [update_of_ne his] at h
      exact ⟨his, h⟩
  refine ⟨fun i hi j hj k v w h1 h2 => hs.distinct i hi j hj k v w (hold i _ h1).2 (hold j _ h2).2, ?_⟩
  intro i hi k v h
  obtain ⟨-, h⟩ := hold i _ h
  obtain ⟨d, hd, hid, hbefore⟩ := hs.reached i hi k v h
  refine ⟨d, hd, hid, fun e he => ?_⟩
  have hne : (home k + e) % n ≠ s := fun hes => hclear ⟨k, v, e, d, he, hd, hes, hid ▸ h⟩
  rw [update_of_ne hne]
  exact hbefore e he

omit [DecidableEq K] in
/-- another value for a key -/
theorem Sound.replace (hs : Sound home n t) (he : t s = some (k, v)) (w : V) :
    Sound home n (update t s (some (k, w))) := by
  have hnone := fun i => update_ne_none (t := t) (s := s) (e := (k, w)) (i := i)
  have hold : ∀ i k' v', update t s (some (k, w)) i = some (k', v') → ∃ u, t i = some (k', u) := by
    intro i k' v' h
    by_cases his : i = s
    · rw [his, update_self] at h
      rw [his, he, (Prod.mk.inj (some.inj h)).1]
      exact ⟨v, rfl⟩
    · rw [update_of_ne his] at h
      exact ⟨v', h⟩
  refine ⟨?_, ?_⟩
  · intro i hi j hj k' v' w' h1 h2
    obtain ⟨u, hu⟩ := hold i k' v' h1
    obtain ⟨u', hu'⟩ := hold j k' w' h2
    exact hs.distinct i hi j hj k' u u' hu hu'
  · intro i hi k' v' h
    obtain ⟨u, hu⟩ := hold i k' v' h
    obtain ⟨d, hd, hid, hbefore⟩ := hs.reached i hi k' u hu
    exact ⟨d, hd, hid, fun e he => hnone _ (hbefore e he)⟩

end Lithos.Core.LinearProbing
