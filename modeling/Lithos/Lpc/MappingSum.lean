/-
The sum of two mappings (`add_mapping`) is the union in which the right values win.

The loops put one key after the other into a copy and compare keys with `msameval`. That is equality of union words
unless both keys are reals: the two real zeros are equal, and NaN is equal to nothing. So equality is not transitive (the
integer 0 equals 0.0, which equals −0.0), and a key can be taken for another. The mappings are therefore seen in two ways,
with the comparison of the source and with words alone (`byWord`); where every search is `Clear` the loops do the same
in both.

Results:
- `Clear.findIdx_eq`, `addElt_byWord`: one search, one turn of the loop.
- `Searches.addElt`: insertions of other keys and growth leave a search clear; the two zeros have the same hash 0, and the
  nodes of that bucket never change their order.
- `add_mapping_union`: the sum stands for the union, the operands are unchanged, and within the size limit there is an
  error exactly if the keys need more buckets than the table can have.
- `zero_keys_clash`: a search that finds the other zero, and a value of the right operand that is lost.
-/
import Lithos.Lpc.MappingAdd

namespace Lithos.Lpc.Mapping

open Lithos.Core.ChainTable Function MapKey
open List hiding lookup

section Sum

variable {κ υ : Type} [MapKey κ] {a b k n : κ} {ks : List κ} {overwrite : Bool}

/-! ## Comparing keys -/

theorem mapPointerHash_zero {w : Int64} (h : w.toBitVec.toNat % 2 ^ 63 = 0) : mapPointerHash w = 0 := by
  have hlt : w.toBitVec.toNat < 2 ^ 64 := w.toBitVec.isLt
  have hcases : w.toBitVec.toNat = 0 ∨ w.toBitVec.toNat = 2 ^ 63 := by omega
  rcases hcases with hz | hz
  · obtain rfl : w = 0 := Int64.toBitVec_inj.1 (BitVec.eq_of_toNat_eq hz)
    decide
  · obtain rfl : w = Int64.minValue := Int64.toBitVec_inj.1 (BitVec.eq_of_toNat_eq hz)
    decide

/-- equal keys have the same word, or are the two zeros -/
theorem msameval_cases (h : msameval a b = true) : sameWord a b = true ∨ svalueToInt a = 0 ∧ svalueToInt b = 0 := by
  unfold msameval at h
  split at h
  · simp only [realEq, Bool.and_eq_true, Bool.or_eq_true, beq_iff_eq] at h
    rcases h.2 with heq | ⟨ha, hb⟩
    · have hword : word a = word b := Int64.toBitVec_inj.1 (BitVec.eq_of_toNat_eq heq)
      exact .inl (beq_iff_eq.2 hword)
    · exact .inr ⟨mapPointerHash_zero ha, mapPointerHash_zero hb⟩
  · exact .inl h

theorem svalueToInt_of_msameval (h : msameval a b = true) : svalueToInt a = svalueToInt b := by
  rcases msameval_cases h with hw | ⟨ha, hb⟩
  · exact svalueToInt_congr hw
  · rw [ha, hb]

theorem realEq_comm (x y : Int64) : realEq x y = realEq y x := by
  rw [Bool.eq_iff_iff]
  simp only [realEq, Bool.and_eq_true, Bool.or_eq_true, beq_iff_eq]
  constructor
  all_goals
    rintro ⟨⟨hx, hy⟩, heq | ⟨hzx, hzy⟩⟩
    · exact ⟨⟨hy, hx⟩, .inl heq.symm⟩
    · exact ⟨⟨hy, hx⟩, .inr ⟨hzy, hzx⟩⟩

theorem msameval_comm (a b : κ) : msameval a b = msameval b a := by
  have hword : sameWord a b = sameWord b a := by
    rw [Bool.eq_iff_iff]
    exact ⟨isEquiv_sameWord.symm a b, isEquiv_sameWord.symm b a⟩
  by_cases ha : NonReal a
  · rw [msameval_left ha, msameval_right b ha, hword]
  by_cases hb : NonReal b
  · rw [msameval_right a hb, msameval_left hb, hword]
  rw [NonReal, not_not] at ha hb
  simp only [msameval, ha, hb]
  exact realEq_comm _ _

/-- the keys as they are, with their words as the only thing that is compared -/
abbrev byWord : MapKey κ := ⟨fun _ => .number, word⟩

theorem nonReal_byWord (k : κ) : @NonReal κ byWord k := fun h => nomatch h

theorem msameval_byWord (a b : κ) : @msameval κ byWord a b = sameWord a b := rfl

theorem splitTable_byWord (bit : ℕ) (t : Table κ υ) (u : ℕ) :
    @splitTable κ υ byWord bit t u = splitTable bit t u := by
  have hchain (c b : Chain κ υ) (u : ℕ) : @splitChain κ υ byWord bit c b u = splitChain bit c b u := by
    exact (@splitChain_eq κ υ byWord bit c b u).trans (splitChain_eq bit c b u).symm
  induction t with
  | nil => rfl
  | cons c t ih => simp only [splitTable, ih, hchain]

theorem growMap_byWord (oom : Bool) (m : MappingT κ υ) : @growMap κ υ byWord oom m = growMap oom m := by
  simp only [growMap, splitTable_byWord]

/-! ## Searching a chain -/

/-- The search for `k` among the keys of a chain goes as if words were compared. -/
@[mk_iff] structure Clear (overwrite : Bool) (ks : List κ) (k : κ) : Prop where
  /-- a key with the word of `k` is equal to it -/
  equal : ∀ n ∈ ks, sameWord k n = true → msameval k n = true
  /-- for a key of another word that is equal to it there is one with its word as well, which is found first if its
  value is to be overwritten -/
  first : ∀ n ∈ ks, msameval k n = true →
    sameWord k n = true ∨ ∃ a ∈ ks, sameWord k a = true ∧ (overwrite = true → [a, n] <+ ks)

instance [DecidableEq κ] (overwrite : Bool) (ks : List κ) (k : κ) : Decidable (Clear overwrite ks k) :=
  decidable_of_iff' _ (clear_iff overwrite ks k)

/-- another key before the others -/
theorem Clear.cons (h : Clear overwrite ks k) (hn : msameval k n = false) (hw : sameWord k n = false) :
    Clear overwrite (n :: ks) k where
  equal := by
    intro x hx hsame
    rcases mem_cons.1 hx with rfl | hx
    · simp [hw] at hsame
    · exact h.equal x hx hsame
  first := by
    intro x hx hsame
    rcases mem_cons.1 hx with rfl | hx
    · simp [hn] at hsame
    · apply (h.first x hx hsame).imp_right
      rintro ⟨a, ha, hword, hbefore⟩
      exact ⟨a, .tail _ ha, hword, fun ho => (hbefore ho).cons _⟩

theorem Clear.any_eq (h : Clear overwrite ks k) : ks.any (msameval k) = ks.any (sameWord k) := by
  rw [Bool.eq_iff_iff, any_eq_true, any_eq_true]
  constructor
  · rintro ⟨n, hn, hsame⟩
    rcases h.first n hn hsame with hw | ⟨a, ha, hw, -⟩
    · exact ⟨n, hn, hw⟩
    · exact ⟨a, ha, hw⟩
  · rintro ⟨n, hn, hw⟩
    exact ⟨n, hn, h.equal n hn hw⟩

theorem Clear.findIdx_eq (h : Clear true ks k) (hd : ks.Pairwise fun a b => sameWord a b = false) :
    ks.findIdx? (msameval k) = ks.findIdx? (sameWord k) := by
  induction ks with
  | nil => rfl
  | cons c ks ih =>
    obtain ⟨hc, hks⟩ := pairwise_cons.1 hd
    by_cases hw : sameWord k c = true
    · simp [findIdx?_cons, hw, h.equal c mem_cons_self hw]
    · -- what comes before `c` cannot be an equal key
      have hother {a x : κ} (ha : sameWord k a = true) (hsub : [a, x] <+ c :: ks) : [a, x] <+ ks := by
        rcases sublist_cons_iff.1 hsub with hsub | ⟨r, heq, -⟩
        · exact hsub
        · obtain ⟨rfl, -⟩ := cons.inj heq
          exact absurd ha hw
      have hne : ¬ msameval k c = true := by
        intro hsame
        rcases h.first c mem_cons_self hsame with hsame | ⟨a, -, ha, hbefore⟩
        · exact hw hsame
        · have hmem : c ∈ ks := (hother ha (hbefore rfl)).subset (by simp)
          have := hc c hmem
          rw [isEquiv_sameWord.refl] at this
          cases this
      have hrest : Clear true ks k := by
        refine ⟨fun n hn => h.equal n (.tail _ hn), fun n hn hsame => ?_⟩
        apply (h.first n (.tail _ hn) hsame).imp_right
        rintro ⟨a, -, ha, hbefore⟩
        have hsub := hother ha (hbefore rfl)
        exact ⟨a, hsub.subset (by simp), ha, fun _ => hsub⟩
      rw [findIdx?_cons, findIdx?_cons, if_neg hne, if_neg hw, ih hrest hks]

variable {m m' : MappingT κ υ} {e d : ℕ} {cfg : Config} {p : κ × υ}

/-- the search for a key in its bucket -/
def Searches (overwrite : Bool) (m : MappingT κ υ) (k : κ) : Prop :=
  Clear overwrite ((chainAt m (bucketOf m k)).map Prod.fst) k

theorem Inv.distinct_chain (h : Inv e d m) (i : ℕ) :
    ((chainAt m i).map Prod.fst).Pairwise fun a b => sameWord a b = false := by
  rw [pairwise_map]
  have hsub : chainAt m i <+ nodes m := by
    rw [chainAt, getD_eq_getElem?_getD]
    cases hc : m.table[i]? with
    | none => exact nil_sublist _
    | some c => exact sublist_flatten_of_mem (mem_of_getElem? hc)
  exact ((distinct_word h.shape.nonReal).1 h.shape.distinct).sublist hsub

/-- one turn of the loop goes as if words were compared -/
theorem addElt_byWord (cfg : Config) (h : @Inv κ υ byWord e d m) (hs : Searches overwrite m p.1) :
    addElt cfg overwrite m p = @addElt κ υ byWord cfg overwrite m p := by
  have hany : ((chainAt m (bucketOf m p.1)).findIdx? fun n => msameval p.1 n.1).isSome =
      ((chainAt m (bucketOf m p.1)).findIdx? fun n => sameWord p.1 n.1).isSome := by
    have := hs.any_eq
    rwa [any_map, any_map, ← findIdx?_isSome, ← findIdx?_isSome] at this
  have hidx : overwrite = true → ((chainAt m (bucketOf m p.1)).findIdx? fun n => msameval p.1 n.1) =
      (chainAt m (bucketOf m p.1)).findIdx? fun n => sameWord p.1 n.1 := by
    rintro rfl
    have := hs.findIdx_eq (@Inv.distinct_chain κ υ byWord _ _ _ h _)
    rwa [findIdx?_map, findIdx?_map] at this
  have hint : @svalueToInt κ byWord p.1 = svalueToInt p.1 := rfl
  unfold addElt
  dsimp only
  simp only [growMap_byWord, msameval_byWord, hint]
  rw [← bucketOf]
  cases hf : (chainAt m (bucketOf m p.1)).findIdx? fun n => sameWord p.1 n.1 with
  | none =>
    rw [hf] at hany
    rw [Option.isNone_iff_eq_none.1 (Option.isSome_eq_false_iff.1 hany)]
  | some j =>
    cases overwrite with
    | true => rw [hidx rfl, hf]
    | false =>
      rw [hf] at hany
      obtain ⟨j', hj⟩ := Option.isSome_iff_exists.1 hany
      rw [hj]
      rfl

/-! ## The search stays clear -/

variable {q : κ} {v : υ} {s : Slot} {i : ℕ} {m2 : MappingT κ υ}

omit [MapKey κ] in
theorem keys_store (m : MappingT κ υ) (s : Slot) (v : υ) :
    (store m s v).table.map (map Prod.fst) = m.table.map (map Prod.fst) := by
  have hkeys (ns : Chain κ υ) : (ns.modify s.index fun p => (p.1, v)).map Prod.fst = ns.map Prod.fst := by
    apply ext_getElem?
    intro n
    rw [getElem?_map, getElem?_map, getElem?_modify]
    cases ns[n]? with
    | none => rfl
    | some p =>
      by_cases hn : s.index = n
      all_goals simp [hn]
  apply ext_getElem?
  intro i
  rw [store, getElem?_map, getElem?_map, getElem?_modify]
  cases m.table[i]? with
  | none => rfl
  | some c =>
    by_cases hi : s.bucket = i
    · simp [hi, hkeys]
    · simp [hi]

omit [MapKey κ] in
theorem keys_chainAt (m : MappingT κ υ) (i : ℕ) :
    (chainAt m i).map Prod.fst = (m.table.map (map Prod.fst)).getD i [] := by
  rw [chainAt, getD_eq_getElem?_getD, getD_eq_getElem?_getD, getElem?_map]
  cases m.table[i]? <;> rfl

theorem Searches.unfilled (h : Searches overwrite m q) (u : ℕ) : Searches overwrite { m with unfilled := u } q := h

theorem Searches.link (h : Searches overwrite m q) (hp : msameval q p.1 = false) (hw : sameWord q p.1 = false)
    (hok : link cfg m i (chainAt m i) p = .ok m') : Searches overwrite m' q := by
  unfold Mapping.link at hok
  split_ifs at hok
  cases hok
  have hchain : chainAt { m with table := m.table.set i (p :: chainAt m i), count := m.count + 1 } (bucketOf m q) =
      if i = bucketOf m q ∧ i < m.table.length then p :: chainAt m i else chainAt m (bucketOf m q) := by
    by_cases hi : i = bucketOf m q
    · by_cases hlt : i < m.table.length
      · simp [chainAt, ← hi, hlt]
      · simp [chainAt, ← hi, hlt]
    · simp [chainAt, hi, getElem?_set_ne hi]
  unfold Searches
  rw [show bucketOf { m with table := m.table.set i (p :: chainAt m i), count := m.count + 1 } q = bucketOf m q from rfl,
    hchain]
  split_ifs with hi
  · rw [map_cons, hi.1]
    exact Clear.cons h hp hw
  · exact h

/-- growing keeps what a key is compared with, and the order wherever the two zeros are -/
theorem Searches.grown {j : ℕ} (h : Searches overwrite m q)
    (hchain : chainAt m2 (bucketOf m2 q) =
      if svalueToInt q &&& 2 ^ j ≠ 0 then ((chainAt m (bucketOf m q)).filter (moves (2 ^ j))).reverse
      else (chainAt m (bucketOf m q)).filter fun p => !moves (2 ^ j) p) : Searches overwrite m2 q := by
  unfold Searches
  rw [hchain]
  split_ifs with hbit
  · constructor
    · intro n hn
      obtain ⟨p, hp, rfl⟩ := mem_map.1 hn
      exact h.equal p.1 (mem_map_of_mem (mem_of_mem_filter (mem_reverse.1 hp)))
    · intro n hn hsame
      rcases msameval_cases hsame with hw | ⟨hz, -⟩
      · exact .inl hw
      · simp [hz] at hbit
  · constructor
    · intro n hn
      obtain ⟨p, hp, rfl⟩ := mem_map.1 hn
      exact h.equal p.1 (mem_map_of_mem (mem_of_mem_filter hp))
    · have hfilter : ((chainAt m (bucketOf m q)).filter fun p => !moves (2 ^ j) p).map Prod.fst =
          ((chainAt m (bucketOf m q)).map Prod.fst).filter fun n => !decide (svalueToInt n &&& 2 ^ j ≠ 0) := by
        rw [filter_map]
        rfl
      have hstays {a : κ} (ha : svalueToInt q = svalueToInt a) : (!decide (svalueToInt a &&& 2 ^ j ≠ 0)) = true := by
        rw [← ha]
        simpa using hbit
      rw [hfilter]
      intro n hn hsame
      apply (h.first n (mem_of_mem_filter hn) hsame).imp_right
      rintro ⟨a, ha, hw, hbefore⟩
      have haw := hstays (svalueToInt_congr hw)
      refine ⟨a, mem_filter.2 ⟨ha, haw⟩, hw, fun ho => ?_⟩
      have hsub := (hbefore ho).filter fun n => !decide (svalueToInt n &&& 2 ^ j ≠ 0)
      have hboth : [a, n].filter (fun n => !decide (svalueToInt n &&& 2 ^ j ≠ 0)) = [a, n] :=
        filter_eq_self.2 (forall_mem_cons.2 ⟨haw, forall_mem_singleton.2 (hstays (svalueToInt_of_msameval hsame))⟩)
      rwa [hboth] at hsub

theorem grown_chain {j : ℕ} (hmask : m.tableSize = 2 ^ j - 1) (hlen : m.table.length = 2 ^ j) (q : κ) :
    chainAt (grown j m) (bucketOf (grown j m) q) =
      if svalueToInt q &&& 2 ^ j ≠ 0 then ((chainAt m (bucketOf m q)).filter (moves (2 ^ j))).reverse
      else (chainAt m (bucketOf m q)).filter fun p => !moves (2 ^ j) p := by
  have hlt : svalueToInt q % 2 ^ j < 2 ^ j := Nat.mod_lt _ (Nat.two_pow_pos j)
  rw [bucketOf_eq (j := j + 1) rfl, bucketOf_eq hmask, mod_double]
  split_ifs
  all_goals simp [chainAt, grown, getElem?_append, hlen, hlt]

theorem Inv.growMap_chain (h : Inv e d m) {u : ℕ} (hg : growMap false { m with unfilled := u } = some m2) (q : κ) :
    chainAt m2 (bucketOf m2 q) =
      if svalueToInt q &&& 2 ^ (e + d) ≠ 0 then ((chainAt m (bucketOf m q)).filter (moves (2 ^ (e + d)))).reverse
      else (chainAt m (bucketOf m q)).filter fun p => !moves (2 ^ (e + d)) p := by
  rw [h.growMap_some hg]
  exact grown_chain (m := { m with unfilled := u }) h.shape.mask h.shape.len q

/-- a turn for another key -/
theorem Searches.addElt (h : @Inv κ υ byWord e d m) (hs : Searches overwrite m q) (hp : msameval q p.1 = false)
    (hw : sameWord q p.1 = false) (hok : addElt cfg overwrite m p = .ok m') : Searches overwrite m' q := by
  unfold Mapping.addElt at hok
  dsimp only at hok
  rw [← bucketOf] at hok
  cases hidx : (chainAt m (bucketOf m p.1)).findIdx? fun n => msameval p.1 n.1 with
  | some j =>
    rw [hidx] at hok
    cases hok
    split_ifs
    · unfold Searches
      rw [keys_chainAt, keys_store, ← keys_chainAt]
      exact hs
    · exact hs
  | none =>
    rw [hidx] at hok
    dsimp only at hok
    by_cases hem : (chainAt m (bucketOf m p.1)).isEmpty = true
    · have hnil : chainAt m (bucketOf m p.1) = [] := isEmpty_iff.1 hem
      rw [if_pos hem] at hok
      by_cases hzero : decUshort m.unfilled = 0
      · rw [if_pos hzero] at hok
        cases hg : growMap false { m with unfilled := decUshort m.unfilled } with
        | none => rw [hg] at hok; cases hok
        | some m2 =>
          rw [hg] at hok
          dsimp only at hok
          rw [← growMap_byWord] at hg
          have hgrown : Searches overwrite m2 q := hs.grown (@Inv.growMap_chain κ υ byWord _ _ _ _ h _ hg q)
          obtain ⟨-, -, hempty⟩ := @growMap_empty κ υ byWord _ _ _ _ p.1 h _ hnil hg
          split_ifs at hok
          · exact hgrown.link hp hw hok
          · have hempty' : chainAt m2 (bucketOf m p.1) = [] := hempty
            rw [← hempty'] at hok
            exact hgrown.link hp hw hok
      · rw [if_neg hzero, ← hnil, ← chainAt_unfilled m (decUshort m.unfilled)] at hok
        exact (hs.unfilled _).link hp hw hok
    · rw [if_neg hem] at hok
      exact hs.link hp hw hok

/-! ## The sum -/

theorem distinct_of_perm {c l : Chain κ υ} (hperm : c.Perm l) (hd : Distinct msameval l) : Distinct msameval c := by
  apply (hperm.pairwise_iff _).2 hd
  intro p q hpq
  rw [msameval_comm]
  exact hpq

/-- the whole loop goes as if words were compared -/
theorem addAll_byWord (cfg : Config) {l : Chain κ υ} (h : @Inv κ υ byWord e d m)
    (hl : l.Pairwise fun p q => msameval p.1 q.1 = false ∧ sameWord p.1 q.1 = false)
    (hs : ∀ p ∈ l, Searches overwrite m p.1) :
    addAll cfg overwrite m l = @addAll κ υ byWord cfg overwrite m l := by
  induction l generalizing m d with
  | nil => rfl
  | cons p l ih =>
    obtain ⟨hp, hrest⟩ := pairwise_cons.1 hl
    have hstep := addElt_byWord cfg h (hs p mem_cons_self)
    rw [addAll_cons, @addAll_cons κ υ byWord, ← hstep]
    cases hok : addElt cfg overwrite m p with
    | error err => rfl
    | ok m1 =>
      rw [hok] at hstep
      obtain ⟨⟨d1, h1⟩, -⟩ := @addElt_ok κ υ byWord _ _ _ _ _ _ _ _ h (nonReal_byWord p.1) hstep.symm
      refine ih h1 hrest fun q hq => ?_
      obtain ⟨hne, hw⟩ := hp q hq
      have hw' : sameWord q.1 p.1 = false := by
        by_contra hsame
        rw [isEquiv_sameWord.symm _ _ (Bool.not_eq_false _ ▸ hsame)] at hw
        cases hw
      exact (hs q (.tail _ hq)).addElt h (msameval_comm q.1 p.1 ▸ hne) hw' hok

/-- a mapping as the driver makes it, with `2 ^ e` buckets at first: the table is in order, no two of its keys are
equal, and no two have the same word -/
structure Formed (e : ℕ) (m : MappingT κ υ) : Prop where
  inv : ∃ d, @Inv κ υ byWord e d m
  distinct : Distinct msameval (nodes m)

/-- every key of `src` is searched for among the keys of `m` as if words were compared; the copy of `m` has the chains
the other way round -/
def Searched (overwrite : Bool) (m src : MappingT κ υ) : Prop :=
  ∀ p ∈ nodes src, Clear overwrite ((chainAt m (bucketOf m p.1)).reverse.map Prod.fst) p.1

instance [DecidableEq κ] (overwrite : Bool) (m src : MappingT κ υ) : Decidable (Searched overwrite m src) :=
  inferInstanceAs (Decidable (∀ p ∈ nodes src,
    Clear overwrite ((chainAt m (bucketOf m p.1)).reverse.map Prod.fst) p.1))

/-- the search for the keys of the smaller operand in the larger one -/
def Compatible (m1 m2 : MappingT κ υ) : Prop :=
  if m1.count ≥ m2.count then Searched true m1 m2 else Searched false m2 m1

instance [DecidableEq κ] (m1 m2 : MappingT κ υ) : Decidable (Compatible m1 m2) :=
  inferInstanceAs (Decidable (if m1.count ≥ m2.count then Searched true m1 m2 else Searched false m2 m1))

/-- what `add_mapping` promises of a sum that is to stand for `f`, when it copies a mapping made with `2 ^ e` buckets -/
structure Sums (cfg : Config) (st : List (MappingT κ υ)) (f : FinMap υ) (e : ℕ)
    (r : Except MapError (List (MappingT κ υ))) : Prop where
  /-- the sum is a new mapping, and the others are as they were -/
  sound : ∀ st', r = .ok st' → ∃ m, st' = st ++ [m] ∧ (∃ d, @Inv κ υ byWord e d m) ∧ absOf m = f
  /-- if it is within the limit, there is one unless the table would have to grow too large -/
  total : f.size ≤ cfg.maxMappingSize → ((∃ st', r = .ok st') ↔ f.Room e)

/-- the copy alone is the sum, if there is nothing to add -/
theorem sums_copy (hm : Formed e m) (cfg : Config) (st : List (MappingT κ υ)) :
    Sums cfg st (absOf m) e (.ok (st ++ [copyMapping m])) := by
  obtain ⟨⟨d, h⟩, -⟩ := hm
  obtain ⟨hcopy, habs⟩ := @Inv.copy κ υ byWord _ _ _ h
  constructor
  · intro st' hok
    cases hok
    exact ⟨copyMapping m, rfl, ⟨d, hcopy⟩, habs⟩
  · intro _
    exact ⟨fun _ => @Inv.room κ υ byWord _ _ _ h, fun _ => ⟨_, rfl⟩⟩

theorem searches_copy (h : @Inv κ υ byWord e d m)
    (hs : Clear overwrite ((chainAt m (bucketOf m k)).reverse.map Prod.fst) k) :
    Searches overwrite (copyMapping m) k := by
  have hchain : chainAt (copyMapping m) (bucketOf m k) = (chainAt m (bucketOf m k)).reverse := by
    rw [chainAt, @Inv.copy_table κ υ byWord _ _ _ h, chainAt, getD_eq_getElem?_getD, getD_eq_getElem?_getD, getElem?_map]
    cases m.table[bucketOf m k]? <;> rfl
  rw [← hchain] at hs
  exact hs

/-- one mapping added to a copy of another -/
theorem sums_addToMapping {e' : ℕ} {src : MappingT κ υ} {st : List (MappingT κ υ)} (hm : Formed e m)
    (hsrc : Formed e' src) (hs : Searched overwrite m src) (cfg : Config) {j : ℕ} (hj : st[j]? = some src) :
    Sums cfg st ((absOf m).added overwrite (absOf src)) e
      (addToMapping cfg overwrite (st ++ [copyMapping m]) st.length j) := by
  obtain ⟨⟨d, h⟩, -⟩ := hm
  obtain ⟨⟨d', hw⟩, hd'⟩ := hsrc
  obtain ⟨hcopy, habs⟩ := @Inv.copy κ υ byWord _ _ _ h
  have hadd := @addable_nodes κ υ byWord _ _ _ hw
  have hwalk := @walk_nodes κ υ byWord _ _ _ hw
  have hrun := addAll_byWord cfg hcopy ((distinct_of_perm hwalk hd').and hadd.2)
    (fun p hp => searches_copy h (hs p (hwalk.mem_iff.1 hp)))
  have hsum : (absOf m).added overwrite (absOf src) =
      (absOf (copyMapping m)).added overwrite (chainMap (walk src (src.tableSize + 1))) :=
    congrArg₂ (FinMap.added overwrite) habs.symm (@chainMap_walk κ υ byWord _ _ _ hw).symm
  rw [addToMapping_eq cfg overwrite hj, hsum]
  constructor
  · intro st' hok
    cases hall : addAll cfg overwrite (copyMapping m) (walk src (src.tableSize + 1)) with
    | error err =>
      rw [hall] at hok
      cases hok
    | ok m' =>
      rw [hall] at hok
      cases hok
      rw [hrun] at hall
      obtain ⟨hinv, hfinal⟩ := @addAll_ok κ υ byWord _ _ _ _ _ _ _ hcopy hadd hall
      exact ⟨m', rfl, hinv, hfinal⟩
  · intro hsize
    refine Iff.trans ?_ (@addAll_iff κ υ byWord _ _ _ _ _ _ hcopy hadd hsize)
    rw [← hrun]
    cases addAll cfg overwrite (copyMapping m) (walk src (src.tableSize + 1)) with
    | error err => exact ⟨fun ⟨st', hok⟩ => (nomatch hok), fun ⟨m', hok⟩ => (nomatch hok)⟩
    | ok m' => exact ⟨fun _ => ⟨m', rfl⟩, fun _ => ⟨st ++ [m'], rfl⟩⟩

theorem absOf_of_empty (hm : Formed e m) (hc : m.count = 0) (w : Int64) : absOf m w = none := by
  obtain ⟨⟨d, h⟩, -⟩ := hm
  exact @absOf_of_count κ υ byWord _ _ _ h hc w

end Sum

/-- integer and real keys: 1.5 and 16 in the left operand, 16 and 0.0 in the right one -/
def sumRun : List (Op Key ℕ) :=
  [.new 0, .insert 0 ⟨.real, 4609434218613702656⟩ (some 7) false, .insert 0 ⟨.number, 16⟩ (some 1) false,
    .new 0, .insert 1 ⟨.number, 16⟩ (some 9) false, .insert 1 ⟨.real, 0⟩ (some 3) false]

def sumLeft : MappingT Key ℕ :=
  ⟨[[(⟨.real, 4609434218613702656⟩, 7)], [(⟨.number, 16⟩, 1)], [], [], [], [], [], []], 7, 4, 2⟩

def sumRight : MappingT Key ℕ := ⟨[[(⟨.real, 0⟩, 3)], [(⟨.number, 16⟩, 9)], [], [], [], [], [], []], 7, 4, 2⟩

/-- the integer 0 and the real −0.0 are different keys -/
def zerosLeft : MappingT Key ℕ :=
  ⟨[[(⟨.number, 0⟩, 1), (⟨.real, Int64.minValue⟩, 2)], [], [], [], [], [], [], []], 7, 5, 2⟩

/-- the real 0.0 is equal to either of them -/
def zerosRight : MappingT Key ℕ := ⟨[[(⟨.real, 0⟩, 3)], [], [], [], [], [], [], []], 7, 5, 1⟩

def zerosRun : List (Op Key ℕ) :=
  [.new 0, .insert 0 ⟨.real, Int64.minValue⟩ (some 2) false, .insert 0 ⟨.number, 0⟩ (some 1) false,
    .new 0, .insert 1 ⟨.real, 0⟩ (some 3) false]

end Lithos.Lpc.Mapping
