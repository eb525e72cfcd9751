/-
The invariant of `mapping.c`'s table, and the finite map a table stands for (`absOf`: a partial function on the union
words of keys).

Results:
- `Inv`: the bucket count is a power of two, every node sits in its bucket, keys are distinct, `count` is the number
  of nodes, and `unfilled` plus the number of non-empty buckets is the share of the table's history (`fillShare`).
- `fillShare_le`, `le_fillShare`: the share is `FILL_PERCENT` of the table, less a rounding loss below one bucket for
  each doubling.
- `findForInsert_cases`: everything an insertion can do, growth and failure included; `findForInsert_ok` and
  `findForInsert_total` are read off it.
- `Inv.store`, `Inv.delete`, `Inv.copy`, `inv_emptyTable`: the other operations keep the invariant, and what each does
  to the finite map.
-/
import Lithos.Lpc.Mapping

namespace Lithos.Lpc.Mapping

open Lithos.Core.ChainTable Function MapKey
open List hiding lookup

/-! ## Abstract finite maps -/

/-- a finite map from the union words of keys to values -/
abbrev FinMap (υ : Type) := Int64 → Option υ

variable {κ υ : Type} [MapKey κ] {c d : Chain κ υ} {k : κ}

/-- the nodes of a chain under their union words -/
def words (c : Chain κ υ) : Chain Int64 υ := c.map fun p => (word p.1, p.2)

/-- the finite map a list of nodes stands for -/
def chainMap (c : Chain κ υ) : FinMap υ := fun w => lookup (· == ·) w (words c)

/-- the finite map a mapping stands for -/
def absOf (m : MappingT κ υ) : FinMap υ := chainMap (nodes m)

theorem isEquiv_beq : IsEquiv (fun a b : Int64 => a == b) where
  refl a := by simp
  symm a b h := by simp only [beq_iff_eq] at h ⊢; exact h.symm
  trans a b c h1 h2 := by simp only [beq_iff_eq] at h1 h2 ⊢; exact h1.trans h2

theorem chainMap_word (c : Chain κ υ) (k : κ) : chainMap c (word k) = lookup sameWord k c := by
  induction c with
  | nil => rfl
  | cons p c ih =>
    change (if sameWord p.1 k then some p.2 else chainMap c (word k)) = _
    rw [ih]
    rfl

theorem chainMap_cons (k : κ) (v : υ) (c : Chain κ υ) :
    chainMap ((k, v) :: c) = update (chainMap c) (word k) (some v) := by
  funext w
  rw [update_apply]
  simp only [chainMap, words, map_cons, lookup, beq_iff_eq, eq_comm (a := w)]

theorem distinct_words (h : ∀ p ∈ c, NonReal p.1) :
    Distinct (fun a b : Int64 => a == b) (words c) ↔ Distinct msameval c := by
  rw [distinct_word h]
  simp only [Distinct, words, pairwise_map, sameWord]

theorem chainMap_perm (h : c.Perm d) (hn : ∀ p ∈ c, NonReal p.1) (hd : Distinct msameval c) :
    chainMap c = chainMap d := by
  funext w
  exact lookup_perm isEquiv_beq (h.map _) ((distinct_words hn).2 hd) w

theorem chainMap_none : chainMap c (word k) = none ↔ ∀ p ∈ c, sameWord p.1 k = false := by
  rw [chainMap_word, lookup_eq_none]

/-- a node list without equal keys, one node taken out: the map without that key -/
theorem chainMap_erase {v : υ} (h : c.Perm ((k, v) :: d)) (hn : ∀ p ∈ c, NonReal p.1)
    (hd : Distinct msameval c) : chainMap d = update (chainMap c) (word k) none := by
  have hd' : Distinct sameWord ((k, v) :: d) :=
    (distinct_perm isEquiv_sameWord h).1 ((distinct_word hn).1 hd)
  have hk : chainMap d (word k) = none := by
    rw [chainMap_none]
    intro p hp
    have := (pairwise_cons.1 hd').1 p hp
    by_contra hne
    rw [isEquiv_sameWord.symm _ _ (by simpa using hne)] at this
    cases this
  rw [chainMap_perm h hn hd, chainMap_cons, update_idem, ← hk, update_eq_self]

/-! ## The invariant -/

/-- the share of the table a mapping keeps: `FILL_PERCENT` of its first size, and of the old size at each doubling -/
def fillShare (e : ℕ) : ℕ → ℕ
  | 0 => 2 ^ e * fillPercent / 100
  | d + 1 => fillShare e d + 2 ^ (e + d) * fillPercent / 100

theorem fillShare_le (e d : ℕ) : fillShare e d ≤ 2 ^ (e + d) * fillPercent / 100 := by
  induction d with
  | zero => simp [fillShare]
  | succ d ih =>
    rw [fillShare, ← add_assoc]
    simp only [fillPercent] at ih ⊢
    omega

/-- each doubling loses less than one bucket to rounding -/
theorem le_fillShare (e d : ℕ) : 2 ^ (e + d) * fillPercent ≤ 100 * (fillShare e d + d + 1) := by
  induction d with
  | zero => simp only [fillShare, fillPercent, add_zero]; omega
  | succ d ih =>
    rw [fillShare, ← add_assoc]
    simp only [fillPercent] at ih ⊢
    omega

theorem le_fillShare_of_large {e d : ℕ} (he : 3 ≤ e) (hd : 15 ≤ e + d) (hd' : e + d ≤ 16) : 26200 < fillShare e d := by
  have hsh := le_fillShare e d
  have hpow := Nat.pow_le_pow_right (n := 2) (by omega) hd
  simp only [fillPercent] at hsh
  omega

/-- a well-formed table of `2 ^ j` buckets whose `unfilled` counter and non-empty buckets add up to `s` -/
structure Shape (j s : ℕ) (m : MappingT κ υ) : Prop where
  mask : m.tableSize = 2 ^ j - 1
  len : m.table.length = 2 ^ j
  placed : Placed (bucketOf m) m.table
  nonReal : ∀ p ∈ nodes m, NonReal p.1
  distinct : Distinct msameval (nodes m)
  count : m.count = (nodes m).length
  share : m.unfilled + filled m.table = s
  unfilled_pos : 0 < m.unfilled

/-- a mapping made with `2 ^ e` buckets and doubled `d` times since; allocation goes up to 16 bits, doubling to 15 -/
structure Inv (e d : ℕ) (m : MappingT κ υ) : Prop where
  shape : Shape (e + d) (fillShare e d) m
  least : 3 ≤ e
  made : e ≤ 16
  grew : d ≠ 0 → e + d ≤ 15

variable {m : MappingT κ υ} {e d : ℕ}

theorem Inv.most (h : Inv e d m) : e + d ≤ 16 := by
  have := h.made
  by_cases hd : d = 0
  · omega
  · have := h.grew hd
    omega

theorem Inv.share_lt (h : Inv e d m) : fillShare e d < 65536 := by
  have := fillShare_le e d
  have := Nat.pow_le_pow_right (n := 2) (by omega) h.most
  simp only [fillPercent] at *
  omega

variable {j : ℕ} {s i : ℕ} {p : κ × υ}

theorem bucketOf_eq (h : m.tableSize = 2 ^ j - 1) (k : κ) :
    bucketOf m k = svalueToInt k % 2 ^ j := by rw [bucketOf, h, Nat.and_two_pow_sub_one_eq_mod]

theorem Shape.bucket (h : Shape j s m) (k : κ) : m.table[bucketOf m k]? = some (chainAt m (bucketOf m k)) := by
  have hlt : bucketOf m k < m.table.length := by
    rw [h.len, bucketOf_eq h.mask]
    exact Nat.mod_lt _ (Nat.two_pow_pos j)
  rw [chainAt, getD_eq_getElem?_getD, getElem?_eq_getElem hlt]
  rfl

omit [MapKey κ] in
theorem mem_nodes (hp : p ∈ chainAt m i) : p ∈ nodes m := by
  rw [chainAt, getD_eq_getElem?_getD] at hp
  cases hc : m.table[i]? with
  | none => rw [hc] at hp; simp at hp
  | some c =>
    rw [hc] at hp
    exact mem_flatten.2 ⟨c, mem_of_getElem? hc, hp⟩

/-- one bucket answers for the whole mapping -/
theorem Shape.lookup_chain (h : Shape j s m) (k : κ) :
    absOf m (word k) = lookup msameval k (chainAt m (bucketOf m k)) := by
  have hcongr (a b : κ) (h : sameWord a b = true) : bucketOf m a = bucketOf m b := by
    rw [bucketOf, svalueToInt_congr h, bucketOf]
  rw [absOf, chainMap_word, nodes, lookup_bucket hcongr h.placed (h.bucket k),
    lookup_word fun p hp => h.nonReal p (mem_nodes hp)]

/-! ## Operations keep the shape -/

variable {lv : κ} {u n : ℕ} {oom : Bool}

/-- a fresh node in its bucket; `t` allows for one bucket more when that bucket was empty -/
theorem Shape.addNode {t : ℕ} (h : Shape j s m) (zero : υ) (hlv : NonReal lv) (hnew : absOf m (word lv) = none)
    (hs : t = s + if (chainAt m (bucketOf m lv)).isEmpty then 1 else 0) :
    Shape j t (addNode zero m (bucketOf m lv) lv) ∧
      (nodes (addNode zero m (bucketOf m lv) lv)).Perm ((lv, zero) :: nodes m) := by
  have hb := h.bucket lv
  have hperm : (nodes (Mapping.addNode zero m (bucketOf m lv) lv)).Perm ([(lv, zero)] ++ nodes m) :=
    set_flatten_perm hb (by simp)
  have hnr : ∀ p ∈ [(lv, zero)] ++ nodes m, NonReal p.1 := forall_mem_cons.2 ⟨hlv, h.nonReal⟩
  refine ⟨⟨h.mask, ?_, ?_, ?_, ?_, ?_, ?_, h.unfilled_pos⟩, hperm⟩
  · rw [Mapping.addNode, length_set]; exact h.len
  · exact placed_set h.placed (forall_mem_cons.2 ⟨rfl, h.placed _ _ hb⟩)
  · exact fun p hp => hnr p (hperm.mem_iff.1 hp)
  · rw [distinct_word fun p hp => hnr p (hperm.mem_iff.1 hp), distinct_perm isEquiv_sameWord hperm]
    refine pairwise_cons.2 ⟨fun p hp => ?_, (distinct_word h.nonReal).1 h.distinct⟩
    by_contra hne
    have := chainMap_none.1 hnew p hp
    rw [isEquiv_sameWord.symm _ _ (by simpa using hne)] at this
    cases this
  · rw [hperm.length_eq, length_append, length_singleton, ← h.count, add_comm]
    rfl
  · have hf := filled_set (d := (lv, zero) :: chainAt m (bucketOf m lv)) hb
    have hsh := h.share
    simp only [isEmpty_cons, Bool.false_eq_true, if_false] at hf
    simp only [Mapping.addNode]
    split_ifs at hf hs <;> omega

/-- the counter may stand at any positive value as long as the sum is known -/
theorem Shape.setUnfilled (h : Shape j s m) (hu : 0 < u) : Shape j (u + filled m.table) { m with unfilled := u } :=
  ⟨h.mask, h.len, h.placed, h.nonReal, h.distinct, h.count, rfl, hu⟩

/-- the doubled table, one bucket short of the share of its new size -/
theorem Shape.grown (h : Shape j s m) (hj : j < 15) (hu : m.unfilled = 1) (hs : s ≤ 2 ^ j * fillPercent / 100) :
    Shape (j + 1) (s - 1 + 2 ^ j * fillPercent / 100) (grown j m) ∧ (nodes (grown j m)).Perm (nodes m) := by
  have hsh := h.share
  have hf : filled m.table ≤ 2 ^ j * fillPercent / 100 := by omega
  have hplaced : Placed (fun k => svalueToInt k % 2 ^ j) m.table :=
    fun i c hc p hp => (bucketOf_eq h.mask _).symm.trans (h.placed i c hc p hp)
  have hperm : (nodes (Mapping.grown j m)).Perm (nodes m) := by
    rw [nodes, Mapping.grown, flatten_append]
    exact split_perm _ _
  have hnr : ∀ p ∈ nodes (Mapping.grown j m), NonReal p.1 := fun p hp => h.nonReal p (hperm.mem_iff.1 hp)
  obtain ⟨hsum, hpos⟩ := grown_share hj hf
  refine ⟨⟨rfl, ?_, ?_, hnr, ?_, ?_, by omega, by omega⟩, hperm⟩
  · simp only [Mapping.grown, length_append, length_map, h.len, pow_succ]; omega
  · intro i c hc p hp
    rw [bucketOf_eq rfl]
    exact split_placed h.len hplaced i c hc p hp
  · rw [distinct_word hnr, distinct_perm isEquiv_sameWord hperm, ← distinct_word h.nonReal]
    exact h.distinct
  · rw [hperm.length_eq]; exact h.count

/-- the bucket `find_for_insert` computes after growing is the one of the doubled table -/
theorem bucketOf_grown (h : m.tableSize = 2 ^ j - 1) (lv : κ) :
    (if svalueToInt lv &&& 2 ^ j ≠ 0 then bucketOf m lv ||| 2 ^ j else bucketOf m lv) = bucketOf (grown j m) lv := by
  have hlt : svalueToInt lv % 2 ^ j < 2 ^ j := Nat.mod_lt _ (Nat.two_pow_pos j)
  rw [bucketOf_eq h, bucketOf_eq rfl, mod_double]
  split_ifs
  · have := Nat.two_pow_add_eq_or_of_lt hlt 1
    rw [mul_one] at this
    rw [Nat.or_comm, ← this, add_comm]
  · rfl

theorem findIdx_none (hc : ∀ p ∈ c, NonReal p.1)
    (h : (c.findIdx? fun n => msameval lv n.1) = none) : lookup msameval lv c = none := by
  rw [lookup_eq_none]
  intro p hp
  have hp' : ¬ msameval lv p.1 = true := by simpa using findIdx?_eq_none_iff.1 h p hp
  rw [msameval_right _ (hc p hp)] at hp'
  rw [msameval_left (hc p hp)]
  by_contra hne
  exact hp' (isEquiv_sameWord.symm _ _ (by simpa using hne))

/-- a fresh key needs a bucket more exactly when its bucket is empty; `m'` is the table it then goes to -/
structure Ready (e d : ℕ) (lv : κ) (m m' : MappingT κ υ) : Prop where
  shape : ∃ s, Shape (e + d) s m' ∧ fillShare e d = s + if (chainAt m' (bucketOf m' lv)).isEmpty then 1 else 0
  grew : d ≠ 0 → e + d ≤ 15
  perm : (nodes m').Perm (nodes m)

/-- the growing branch: the doubled table takes the node in an empty bucket -/
theorem Inv.ready_grown (h : Inv e d m) (hone : m.unfilled = 1)
    (hem : (chainAt m (bucketOf m lv)).isEmpty = true) (hj : e + d < 15) : Ready e (d + 1) lv m (grown (e + d) m) := by
  obtain ⟨hg, hperm⟩ := h.shape.grown hj hone (fillShare_le e d)
  have hpos : 0 < fillShare e d := by have := h.shape.share; omega
  have hlt : bucketOf m lv < 2 ^ (e + d) := by
    rw [bucketOf_eq h.shape.mask]
    exact Nat.mod_lt _ (Nat.two_pow_pos _)
  obtain ⟨he1, he2⟩ := grown_empty h.shape.len hlt (isEmpty_iff.1 hem)
  have hempty : chainAt (grown (e + d) m) (bucketOf (grown (e + d) m) lv) = [] := by
    rw [bucketOf_eq rfl, mod_double, ← bucketOf_eq h.shape.mask]
    split_ifs
    · exact he2
    · exact he1
  refine ⟨⟨_, hg, ?_⟩, fun _ => by omega, hperm⟩
  rw [hempty, fillShare]
  simp only [isEmpty_nil, if_true]
  omega

theorem growMap_none (h : m.tableSize = 2 ^ j - 1) (hg : oom = true ∨ 15 ≤ j) : growMap oom m = none := by
  unfold growMap
  simp only
  split_ifs with h1 h2
  · rfl
  · rfl
  · exfalso
    rcases hg with rfl | hj
    · exact h2 rfl
    · have := Nat.pow_le_pow_right (n := 2) (by omega) hj
      simp only [maxTableSize] at h1
      omega

/-- **What `find_for_insert` can do**: find the key, make room and insert, or fail to grow. -/
theorem findForInsert_cases (h : Inv e d m) (cfg : Config) (zero : υ) (oom : Bool) (hlv : NonReal lv) :
    (∃ i p, (chainAt m (bucketOf m lv))[i]? = some p ∧ sameWord p.1 lv = true ∧
      findForInsert cfg zero oom m lv = (m, .ok ⟨bucketOf m lv, i⟩)) ∨
    (absOf m (word lv) = none ∧ ∃ d' m', Ready e d' lv m m' ∧
      findForInsert cfg zero oom m lv = insertNode cfg zero m' (bucketOf m' lv) lv) ∨
    (absOf m (word lv) = none ∧ (oom = true ∨ 15 ≤ e + d) ∧ filled m.table + 1 = fillShare e d ∧
      chainAt m (bucketOf m lv) = [] ∧ (findForInsert cfg zero oom m lv).2 = .error .outOfMemory) := by
  have hnr : ∀ p ∈ chainAt m (bucketOf m lv), NonReal p.1 := fun p hp => h.shape.nonReal p (mem_nodes hp)
  have hsh := h.shape.share
  have hpos := h.shape.unfilled_pos
  have hle := h.share_lt
  unfold findForInsert
  cases hidx : (chainAt m (bucketOf m lv)).findIdx? fun n => msameval lv n.1 with
  | some i =>
    obtain ⟨hi, hsame, -⟩ := findIdx?_eq_some_iff_getElem.1 hidx
    rw [msameval_left hlv] at hsame
    exact .inl ⟨i, _, getElem?_eq_getElem hi, isEquiv_sameWord.symm _ _ hsame, by simp only [hidx]⟩
  | none =>
    have hnew : absOf m (word lv) = none := by rw [h.shape.lookup_chain, findIdx_none hnr hidx]
    refine .inr ?_
    simp only [hidx]
    by_cases hem : (chainAt m (bucketOf m lv)).isEmpty = true
    · rw [if_pos hem, decUshort_of_pos hpos (by omega)]
      by_cases hone : m.unfilled = 1
      · rw [if_pos (by omega)]
        by_cases hgrow : oom = true ∨ 15 ≤ e + d
        · rw [growMap_none (m := { m with unfilled := m.unfilled - 1 }) h.shape.mask hgrow]
          exact .inr ⟨hnew, hgrow, by omega, isEmpty_iff.1 hem, rfl⟩
        · obtain ⟨hoom, hj⟩ := not_or.1 hgrow
          have hready := h.ready_grown hone hem (by omega)
          have hfilled : filled m.table ≤ 2 ^ (e + d) * fillPercent / 100 := by have := fillShare_le e d; omega
          have hsize : m.tableSize + 1 = 2 ^ (e + d) := by
            rw [h.shape.mask]
            exact Nat.sub_add_cancel (Nat.two_pow_pos _)
          rw [Bool.eq_false_iff.2 hoom, growMap_eq (m := { m with unfilled := m.unfilled - 1 }) (by omega) h.shape.mask
            h.shape.len hfilled]
          refine .inl ⟨hnew, d + 1, grown (e + d) m, hready, ?_⟩
          simp only [hsize, bucketOf_grown h.shape.mask]
          rfl
      · rw [if_neg (by omega)]
        refine .inl ⟨hnew, d, { m with unfilled := m.unfilled - 1 }, ⟨⟨_, h.shape.setUnfilled (by omega), ?_⟩, h.grew,
          List.Perm.refl _⟩, rfl⟩
        change fillShare e d = m.unfilled - 1 + filled m.table + if (chainAt m (bucketOf m lv)).isEmpty then 1 else 0
        rw [if_pos hem]
        omega
    · rw [if_neg hem]
      refine .inl ⟨hnew, d, m, ⟨⟨_, h.shape, ?_⟩, h.grew, List.Perm.refl _⟩, rfl⟩
      rw [if_neg hem, add_zero]

omit [MapKey κ] in
theorem chainAt_addNode (hi : i < m.table.length) (zero : υ) (lv : κ) :
    (chainAt (addNode zero m i lv) i)[0]? = some (lv, zero) := by
  rw [chainAt, addNode, getD_eq_getElem?_getD, getElem?_set_self hi]
  rfl

/-- the cell a slot names holds a value of key `lv` -/
def Holds (m : MappingT κ υ) (s : Slot) (lv : κ) : Prop :=
  ∃ p, (chainAt m s.bucket)[s.index]? = some p ∧ sameWord p.1 lv = true

/-- what asking for a key's cell does to the finite map: a missing key is there afterwards, with value zero -/
def FinMap.touch (zero : υ) (f : FinMap υ) (w : Int64) : FinMap υ := update f w (some ((f w).getD zero))

theorem findForInsert_ok {m' : MappingT κ υ} (h : Inv e d m) {cfg : Config} {zero : υ} (hlv : NonReal lv) {s : Slot}
    (hok : findForInsert cfg zero oom m lv = (m', .ok s)) :
    (∃ d', Inv e d' m') ∧ absOf m' = (absOf m).touch zero (word lv) ∧ Holds m' s lv := by
  rcases findForInsert_cases h cfg zero oom hlv with ⟨i, p, hp, hsame, heq⟩ | ⟨hnew, d', m2, hr, heq⟩ | ⟨-, -, -, -, heq⟩
  · rw [hok] at heq
    obtain ⟨rfl, hs⟩ := Prod.mk.inj heq
    obtain rfl : s = ⟨bucketOf m' lv, i⟩ := Except.ok.inj hs
    have hval : absOf m' (word lv) = some p.2 := by
      have hmem : p ∈ nodes m' := mem_nodes (mem_of_getElem? hp)
      rw [absOf, chainMap_word]
      exact lookup_of_mem isEquiv_sameWord ((distinct_word h.shape.nonReal).1 h.shape.distinct) hmem hsame
    refine ⟨⟨d, h⟩, ?_, p, hp, hsame⟩
    rw [FinMap.touch, hval, Option.getD_some, ← hval, update_eq_self]
  · obtain ⟨⟨sh, hshape, hshare⟩, hgrew, hperm⟩ := hr
    have habs : absOf m2 = absOf m := chainMap_perm hperm hshape.nonReal hshape.distinct
    have hadd := hshape.addNode zero hlv (by rw [habs]; exact hnew) hshare
    rw [hok, insertNode] at heq
    split_ifs at heq with hfull
    · exact absurd (Prod.mk.inj heq).2 (by simp)
    · obtain ⟨rfl, hs⟩ := Prod.mk.inj heq
      rw [Except.ok.inj hs]
      refine ⟨⟨d', hadd.1, h.least, h.made, hgrew⟩, ?_, _, chainAt_addNode ?_ zero lv, isEquiv_sameWord.refl lv⟩
      · rw [absOf, chainMap_perm hadd.2 hadd.1.nonReal hadd.1.distinct, chainMap_cons, FinMap.touch, hnew,
          Option.getD_none, ← habs, absOf]
      · exact (List.getElem?_eq_some_iff.1 (hshape.bucket lv)).1
  · rw [hok] at heq
    cases heq

/-- an insertion goes through when the mapping has room, memory is there and the table can still double or will not
have to -/
theorem findForInsert_total (h : Inv e d m) (cfg : Config) (zero : υ)
    (hlv : NonReal lv) (hroom : absOf m (word lv) = none → m.count < cfg.maxMappingSize)
    (hlimit : cfg.maxMappingSize ≤ 26200) : ∃ m' s, findForInsert cfg zero false m lv = (m', .ok s) := by
  rcases findForInsert_cases h cfg zero false hlv with ⟨i, p, -, -, heq⟩ | ⟨hnew, d', m2, hr, heq⟩ | ⟨hnew, hg, hf, -⟩
  · exact ⟨m, _, heq⟩
  · obtain ⟨⟨sh, hshape, -⟩, -, hperm⟩ := hr
    have hcount : m2.count = m.count := by rw [hshape.count, h.shape.count, hperm.length_eq]
    refine ⟨addNode zero m2 (bucketOf m2 lv) lv, ⟨bucketOf m2 lv, 0⟩, heq.trans ?_⟩
    rw [insertNode, if_neg (by have := hroom hnew; omega)]
  · have hroom := hroom hnew
    have hlen := filled_le_length m.table
    have hshare := le_fillShare_of_large h.least (by simpa using hg) h.most
    rw [h.shape.count, nodes] at hroom
    omega

/-- one bucket replaced by one with keys it already had: what keeps the shape -/
theorem Shape.setBucket (h : Shape j s m) {d : Chain κ υ} (hc : m.table[i]? = some c) (hd : ∀ p ∈ d, ∃ q ∈ c, p.1 = q.1)
    (hdist : Distinct sameWord (m.table.set i d).flatten) (hcount : n = (m.table.set i d).flatten.length)
    (hu : u + (if d.isEmpty then 0 else 1) = m.unfilled + (if c.isEmpty then 0 else 1)) (hpos : 0 < u) :
    Shape j s { m with table := m.table.set i d, unfilled := u, count := n } := by
  have hnr : ∀ p ∈ (m.table.set i d).flatten, NonReal p.1 := by
    intro p hp
    obtain ⟨b, hb, hpb⟩ := mem_flatten.1 hp
    rcases mem_or_eq_of_mem_set hb with hb | rfl
    · exact h.nonReal p (mem_flatten.2 ⟨b, hb, hpb⟩)
    · obtain ⟨q, hq, hpq⟩ := hd p hpb
      rw [hpq]
      exact h.nonReal q (mem_flatten.2 ⟨c, mem_of_getElem? hc, hq⟩)
  refine ⟨h.mask, by rw [length_set]; exact h.len, ?_, hnr, (distinct_word hnr).2 hdist, hcount, ?_, hpos⟩
  · refine placed_set h.placed fun p hp => ?_
    obtain ⟨q, hq, hpq⟩ := hd p hp
    rw [hpq]
    exact h.placed i c hc q hq
  · have := filled_set (d := d) hc
    have := h.share
    simp only
    omega

omit [MapKey κ] in
theorem store_eq {s : Slot} {l : Chain κ υ} (hc : m.table[s.bucket]? = some l) (hp : l[s.index]? = some p) (v : υ) :
    store m s v = { m with table := m.table.set s.bucket (l.set s.index (p.1, v)) } := by
  obtain ⟨hb, rfl⟩ := List.getElem?_eq_some_iff.1 hc
  obtain ⟨hi, rfl⟩ := List.getElem?_eq_some_iff.1 hp
  rw [store, List.modify_eq_set_get _ hb, List.get_eq_getElem, List.modify_eq_set_get _ hi]
  rfl

omit [MapKey κ] in
theorem bucket_of_chainAt (h : (chainAt m i)[n]? = some p) : m.table[i]? = some (chainAt m i) := by
  rw [chainAt, getD_eq_getElem?_getD] at h ⊢
  cases hc : m.table[i]? with
  | none => rw [hc] at h; simp at h
  | some c => rfl

/-- writing through the pointer gives the key its value and changes no other -/
theorem Inv.store (h : Inv e d m) {s : Slot} (hs : Holds m s lv) (v : υ) :
    Inv e d (store m s v) ∧ absOf (store m s v) = update (absOf m) (word lv) (some v) := by
  obtain ⟨p, hp, hsame⟩ := hs
  have hc := bucket_of_chainAt hp
  obtain ⟨hi, hpi⟩ := List.getElem?_eq_some_iff.1 hp
  have hb : s.bucket < m.table.length := (List.getElem?_eq_some_iff.1 hc).1
  have hnew : (m.table.set s.bucket ((chainAt m s.bucket).set s.index (p.1, v))).flatten.Perm
      ((p.1, v) :: (m.table.set s.bucket ((chainAt m s.bucket).eraseIdx s.index)).flatten) :=
    set_flatten_cons hb (List.set_perm_cons_eraseIdx hi _)
  have hold : (nodes m).Perm (p :: (m.table.set s.bucket ((chainAt m s.bucket).eraseIdx s.index)).flatten) := by
    have := set_flatten_cons hb (List.getElem_cons_eraseIdx_perm hi).symm
    obtain ⟨hb', hget⟩ := List.getElem?_eq_some_iff.1 hc
    have hself : m.table.set s.bucket (chainAt m s.bucket) = m.table := by rw [← hget, List.set_getElem_self]
    rwa [hself, hpi] at this
  have hd := (distinct_perm isEquiv_sameWord hold).1 ((distinct_word h.shape.nonReal).1 h.shape.distinct)
  have hd' : Distinct sameWord (m.table.set s.bucket ((chainAt m s.bucket).set s.index (p.1, v))).flatten := by
    rw [distinct_perm isEquiv_sameWord hnew]
    simpa only [Distinct, List.pairwise_cons] using hd
  have hkeys : ∀ q ∈ (chainAt m s.bucket).set s.index (p.1, v), ∃ r ∈ chainAt m s.bucket, q.1 = r.1 := by
    intro q hq
    rcases List.mem_or_eq_of_mem_set hq with hq | rfl
    · exact ⟨q, hq, rfl⟩
    · exact ⟨p, List.mem_of_getElem? hp, rfl⟩
  have hcount : m.count = (m.table.set s.bucket ((chainAt m s.bucket).set s.index (p.1, v))).flatten.length := by
    rw [h.shape.count, hold.length_eq, hnew.length_eq, List.length_cons, List.length_cons]
  have hsh := h.shape.setBucket hc hkeys hd' hcount (u := m.unfilled) (by cases chainAt m s.bucket <;> simp)
    h.shape.unfilled_pos
  have hw : word p.1 = word lv := by simpa [sameWord] using hsame
  rw [store_eq hc hp]
  refine ⟨⟨hsh, h.least, h.made, h.grew⟩, ?_⟩
  have hmap := chainMap_perm hnew hsh.nonReal hsh.distinct
  rw [absOf, nodes, hmap, chainMap_cons, chainMap_erase hold h.shape.nonReal h.shape.distinct, update_idem, hw]
  rfl

/-- **Deletion** keeps the invariant and takes the key out of the finite map. -/
theorem Inv.delete (h : Inv e d m) (lv : κ) :
    Inv e d (mappingDelete m lv) ∧ absOf (mappingDelete m lv) = update (absOf m) (word lv) none := by
  have hc := h.shape.bucket lv
  have hnr : ∀ p ∈ chainAt m (bucketOf m lv), NonReal p.1 := fun p hp => h.shape.nonReal p (mem_nodes hp)
  have hle : fillShare e d < 65536 := h.share_lt
  have hsh := h.shape.share
  unfold mappingDelete
  by_cases hany : (chainAt m (bucketOf m lv)).any (fun n => msameval n.1 lv) = true
  · simp only
    rw [if_pos hany]
    obtain ⟨p, hp, hpk, hperm⟩ := eraseP_perm hany
    set c' := (chainAt m (bucketOf m lv)).eraseP fun n => msameval n.1 lv
    obtain ⟨hb, hget⟩ := List.getElem?_eq_some_iff.1 hc
    have hold : (nodes m).Perm (p :: (m.table.set (bucketOf m lv) c').flatten) := by
      have := set_flatten_cons hb hperm
      rwa [← hget, set_getElem_self] at this
    have hd := (distinct_perm isEquiv_sameWord hold).1 ((distinct_word h.shape.nonReal).1 h.shape.distinct)
    have hkeys : ∀ q ∈ c', ∃ r ∈ chainAt m (bucketOf m lv), q.1 = r.1 :=
      fun q hq => ⟨q, hperm.mem_iff.2 (.tail _ hq), rfl⟩
    have hcount : m.count - 1 = (m.table.set (bucketOf m lv) c').flatten.length := by
      rw [h.shape.count, hold.length_eq, length_cons, Nat.add_sub_cancel]
    have hw : word p.1 = word lv := by
      rw [msameval_left (hnr p hp)] at hpk
      simpa [sameWord] using hpk
    have hne : (chainAt m (bucketOf m lv)).isEmpty = false := by
      rw [isEmpty_eq_false_iff]
      exact ne_nil_of_mem hp
    have hpos : 0 < filled m.table := countP_pos_iff.2 ⟨_, mem_of_getElem? hc, by simp [hne]⟩
    have hsh := h.shape.setBucket hc hkeys (pairwise_cons.1 hd).2 hcount
      (u := if c'.isEmpty then ushort (m.unfilled + 1) else m.unfilled) (by
        rw [ushort_of_lt (by omega)]
        split_ifs <;> simp_all) (by
        rw [ushort_of_lt (by omega)]
        have := h.shape.unfilled_pos
        split_ifs <;> omega)
    refine ⟨⟨hsh, h.least, h.made, h.grew⟩, ?_⟩
    rw [absOf, nodes, chainMap_erase hold h.shape.nonReal h.shape.distinct, hw]
    rfl
  · rw [if_neg hany]
    refine ⟨h, ?_⟩
    have hnone : absOf m (word lv) = none := by
      rw [h.shape.lookup_chain, lookup_eq_none]
      simpa using hany
    rw [← hnone, update_eq_self]

theorem Inv.copy_table (h : Inv e d m) : (copyMapping m).table = m.table.map reverse := by
  rw [copyMapping, h.shape.mask, Nat.sub_add_cancel (Nat.two_pow_pos _), ← h.shape.len, take_length]

theorem Inv.copy_perm (h : Inv e d m) : (nodes (copyMapping m)).Perm (nodes m) := by
  rw [nodes, h.copy_table]
  exact flatten_map_reverse_perm _

/-- **Copying** gives a mapping with the same history, standing for the same finite map. -/
theorem Inv.copy (h : Inv e d m) : Inv e d (copyMapping m) ∧ absOf (copyMapping m) = absOf m := by
  have hperm := h.copy_perm
  have hnr : ∀ p ∈ nodes (copyMapping m), NonReal p.1 := fun p hp => h.shape.nonReal p (hperm.mem_iff.1 hp)
  have hd : Distinct msameval (nodes (copyMapping m)) := by
    rw [distinct_word hnr, distinct_perm isEquiv_sameWord hperm, ← distinct_word h.shape.nonReal]
    exact h.shape.distinct
  refine ⟨⟨⟨h.shape.mask, ?_, ?_, hnr, hd, ?_, ?_, h.shape.unfilled_pos⟩, h.least, h.made, h.grew⟩,
    chainMap_perm hperm hnr hd⟩
  · rw [h.copy_table, length_map]; exact h.shape.len
  · intro i c hi p hp
    rw [h.copy_table, getElem?_map] at hi
    obtain ⟨b, hb, rfl⟩ := Option.map_eq_some_iff.1 hi
    exact h.shape.placed i b hb p (mem_reverse.1 hp)
  · rw [hperm.length_eq]; exact h.shape.count
  · rw [h.copy_table, filled_map_reverse]; exact h.shape.share

/-! ## Making a mapping -/

/-- an empty table of `2 ^ e` buckets -/
def emptyTable (e : ℕ) : MappingT κ υ := ⟨replicate (2 ^ e) [], 2 ^ e - 1, 2 ^ e * fillPercent / 100, 0⟩

theorem inv_emptyTable (h3 : 3 ≤ e) (h16 : e ≤ 16) : Inv e 0 (emptyTable e : MappingT κ υ) := by
  have hpow := Nat.pow_le_pow_right (n := 2) (by omega) h3
  have hn : nodes (emptyTable e : MappingT κ υ) = [] := by simp [nodes, emptyTable]
  refine ⟨⟨rfl, by simp [emptyTable], ?_, by simp [hn], by simp [hn, Distinct], by rw [hn]; rfl, ?_, ?_⟩, h3, h16,
    fun h => absurd rfl h⟩
  · intro i c hc p hp
    obtain rfl : c = [] := by
      have := mem_of_getElem? hc
      simpa [emptyTable] using this
    simp at hp
  · have : filled (replicate (2 ^ e) ([] : Chain κ υ)) = 0 := by simp [filled]
    rw [emptyTable, this]
    rfl
  · simp only [emptyTable, fillPercent]; omega

/-- `allocate_mapping` makes a table of `2 ^ tableExp n` buckets for `n` nodes -/
def tableExp (n : ℕ) : ℕ := if n > mapHashTableSize then n.size else 3

theorem three_le_tableExp (n : ℕ) : 3 ≤ tableExp n := by
  unfold tableExp
  split_ifs with hn
  · have : 3 < n.size := Nat.lt_size.2 (by simp only [mapHashTableSize] at hn; omega)
    omega
  · rfl

theorem tableExp_le (h : n < 65536) : tableExp n ≤ 16 := by
  unfold tableExp
  split_ifs
  · exact Nat.size_le.2 (by omega)
  · omega

omit [MapKey κ] in
/-- **Allocation.** A size hint below 65536, once cut to the limit, gives an empty table of a power-of-two size. -/
theorem allocateMapping_eq (cfg : Config) (h : min n cfg.maxMappingSize < 65536) :
    (allocateMapping cfg n : MappingT κ υ) = emptyTable (tableExp (min n cfg.maxMappingSize)) := by
  unfold allocateMapping
  have hmin : (if n > cfg.maxMappingSize then cfg.maxMappingSize else n) = min n cfg.maxMappingSize := by
    split_ifs <;> omega
  simp only [hmin]
  generalize min n cfg.maxMappingSize = n at h
  have hle := tableExp_le h
  unfold tableExp at hle ⊢
  split_ifs at hle ⊢ with hn
  · have hpow := Nat.pow_le_pow_right (n := 2) (by omega) hle
    have hpos := Nat.two_pow_pos n.size
    rw [smear_eq h, Nat.sub_add_cancel hpos, ushort_of_lt (by omega), ushort_of_lt (by simp only [fillPercent]; omega)]
    rfl
  · rfl

theorem inv_allocateMapping (cfg : Config) (h : min n cfg.maxMappingSize < 65536) :
    Inv (tableExp (min n cfg.maxMappingSize)) 0 (allocateMapping cfg n : MappingT κ υ) := by
  rw [allocateMapping_eq cfg h]
  exact inv_emptyTable (three_le_tableExp _) (tableExp_le h)

end Lithos.Lpc.Mapping
