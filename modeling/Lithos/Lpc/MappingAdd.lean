/-
Adding two mappings (`add_mapping`): the larger one is copied, and the nodes of the other are put into the copy. If the
copy is of the left operand its values are overwritten (`add_to_mapping`), if it is of the right one only the missing keys
are added (`unique_add_to_mapping`).

The mappings live in a store, so that an operand is a place in it: both operands may be the same mapping, and the loop
reads the buckets of its source while it writes to the copy. A mapping that is made comes last in the store. The loops
keep the number of nodes in a local `count`, which is the field `count` here.

Results:
- `addElt_overwrite`, `addElt_unique`: one node put into the copy is one insertion, or none.
- `addToMapping_eq`: the source of the loop does not change under it.
- `addAll_ok`: what the loop does to the finite map, for keys that are not reals.
- `addAll_iff`: within the size limit it goes through exactly if the table has room for the keys (`FinMap.Room`); a table
  of `2 ^ 15` buckets does not grow any more.
-/
import Lithos.Lpc.MappingFill

namespace Lithos.Lpc.Mapping

open Lithos.Core.ChainTable Function MapKey
open List hiding lookup

section Add

variable {κ υ : Type} [MapKey κ]

/-! ## Model -/

/-- the new node before the chain `n` in bucket `i`, unless it is one too many -/
def link (cfg : Config) (m : MappingT κ υ) (i : ℕ) (n : Chain κ υ) (elt : κ × υ) : Except MapError (MappingT κ υ) :=
  if m.count + 1 > cfg.maxMappingSize then .error .tooLarge
  else .ok { m with table := m.table.set i (elt :: n), count := m.count + 1 }

/-- one turn of the loop of `add_to_mapping` (`overwrite`) or `unique_add_to_mapping` -/
def addElt (cfg : Config) (overwrite : Bool) (m : MappingT κ υ) (elt : κ × υ) : Except MapError (MappingT κ υ) :=
  let oi := svalueToInt elt.1
  let i := oi &&& m.tableSize
  match (chainAt m i).findIdx? fun n => msameval elt.1 n.1 with
  | some j => .ok (if overwrite then store m ⟨i, j⟩ elt.2 else m)
  | none =>
    if (chainAt m i).isEmpty then
      let m1 := { m with unfilled := decUshort m.unfilled }
      if m1.unfilled = 0 then
        let size := m.tableSize + 1
        match growMap false m1 with
        | some m2 =>
          if oi &&& size ≠ 0 then link cfg m2 (i ||| size) (chainAt m2 (i ||| size)) elt else link cfg m2 i [] elt
        | none => .error .outOfMemory
      else link cfg m1 i [] elt
    else link cfg m i (chainAt m i) elt

/-- the turn, for the mapping `dst` of the store -/
def addTurn (cfg : Config) (overwrite : Bool) (dst : ℕ) (st : List (MappingT κ υ)) (elt : κ × υ) :
    Except MapError (List (MappingT κ υ)) :=
  match st[dst]? with
  | none => .ok st
  | some m => (addElt cfg overwrite m elt).map fun m' => st.set dst m'

/-- the loop over the buckets of `src`, from the last to the first -/
def addBuckets (cfg : Config) (overwrite : Bool) (dst src : ℕ) :
    ℕ → List (MappingT κ υ) → Except MapError (List (MappingT κ υ))
  | 0, st => .ok st
  | j + 1, st => do
    let st ← ((st[src]?.map fun m2 => chainAt m2 j).getD []).foldlM (addTurn cfg overwrite dst) st
    addBuckets cfg overwrite dst src j st

def addToMapping (cfg : Config) (overwrite : Bool) (st : List (MappingT κ υ)) (dst src : ℕ) :
    Except MapError (List (MappingT κ υ)) :=
  addBuckets cfg overwrite dst src ((st[src]?.map fun m2 => m2.tableSize + 1).getD 0) st

/-- `add_mapping` of the mappings `i` and `j`; the sum is put behind the store -/
def addMapping (cfg : Config) (st : List (MappingT κ υ)) (i j : ℕ) : Except MapError (List (MappingT κ υ)) :=
  match st[i]?, st[j]? with
  | some m1, some m2 =>
    if m1.count ≥ m2.count then
      if m2.count ≠ 0 then addToMapping cfg true (st ++ [copyMapping m1]) st.length j
      else .ok (st ++ [copyMapping m1])
    else if m1.count ≠ 0 then addToMapping cfg false (st ++ [copyMapping m2]) st.length i
    else .ok (st ++ [copyMapping m2])
  | _, _ => .ok st

/-- the union of two finite maps in which the second wins -/
def FinMap.union (f g : FinMap υ) : FinMap υ := fun w => g w <|> f w

open FinMap

/-! ## One node -/

variable {m : MappingT κ υ}

omit [MapKey κ] in
theorem link_eq (cfg : Config) {i : ℕ} (hi : i < m.table.length) (zero v : υ) (k : κ) :
    link cfg m i (chainAt m i) (k, v) =
      match insertNode cfg zero m i k with
      | (m', .ok s) => .ok (store m' s v)
      | (_, .error e) => .error e := by
  unfold link insertNode
  by_cases hfull : m.count + 1 > cfg.maxMappingSize
  · rw [if_pos hfull, if_pos hfull]
  · rw [if_neg hfull, if_neg hfull]
    exact congrArg Except.ok (store_addNode hi zero v k).symm

omit [MapKey κ] in
theorem chainAt_unfilled (m : MappingT κ υ) (u i : ℕ) : chainAt { m with unfilled := u } i = chainAt m i := rfl

variable {e d : ℕ} {m2 : MappingT κ υ} {k : κ} {st : List (MappingT κ υ)} {src : ℕ}

theorem Inv.bucketOf_lt (h : Inv e d m) (k : κ) : bucketOf m k < 2 ^ (e + d) := by
  rw [bucketOf_eq h.shape.mask]
  exact Nat.mod_lt _ (Nat.two_pow_pos _)

/-- what `growMap` makes of the table; it counts the unfilled buckets anew -/
theorem Inv.growMap_some (h : Inv e d m) {u : ℕ} (hg : growMap false { m with unfilled := u } = some m2) :
    m2 = grown (e + d) { m with unfilled := u } := by
  have hj : e + d < 15 := by
    by_contra hle
    rw [growMap_none (m := { m with unfilled := u }) h.shape.mask
      (.inr (Nat.not_lt.1 hle))] at hg
    cases hg
  have hfilled : filled m.table ≤ 2 ^ (e + d) * fillPercent / 100 := by
    have hshare := h.shape.share
    have hle := fillShare_le e d
    omega
  rw [growMap_eq (m := { m with unfilled := u }) hj h.shape.mask h.shape.len hfilled] at hg
  exact (Option.some.inj hg).symm

/-- a table that grows for a key whose bucket is empty: the bucket the key then belongs to is empty as well -/
theorem growMap_empty (h : Inv e d m) {u : ℕ} (hem : chainAt m (bucketOf m k) = [])
    (hg : growMap false { m with unfilled := u } = some m2) :
    bucketOf m k < m2.table.length ∧ bucketOf m k ||| (m.tableSize + 1) < m2.table.length ∧
      chainAt m2 (bucketOf m k) = [] := by
  have hsize : m.tableSize + 1 = 2 ^ (e + d) := by
    rw [h.shape.mask]
    exact Nat.sub_add_cancel (Nat.two_pow_pos _)
  have hlt := h.bucketOf_lt k
  obtain rfl := h.growMap_some hg
  have hlen : (grown (e + d) { m with unfilled := u }).table.length = 2 ^ (e + d + 1) := by
    simp only [grown, length_append, length_map, h.shape.len, pow_succ]
    omega
  have hor : bucketOf m k ||| (m.tableSize + 1) = bucketOf m k + 2 ^ (e + d) := by
    have heq := Nat.two_pow_add_eq_or_of_lt hlt 1
    rw [mul_one] at heq
    rw [hsize, Nat.or_comm, ← heq, add_comm]
  refine ⟨by omega, by omega, ?_⟩
  rw [← chainAt_unfilled m u] at hem
  exact (grown_empty (m := { m with unfilled := u }) h.shape.len hlt hem).1

/-- a node put into the copy is an insertion -/
theorem addElt_overwrite (h : Inv e d m) (cfg : Config) (zero : υ) (k : κ) (v : υ) :
    addElt cfg true m (k, v) = insert cfg zero false m k (some v) := by
  have hlt : bucketOf m k < m.table.length := (List.getElem?_eq_some_iff.1 (h.shape.bucket k)).1
  unfold addElt insert findForInsert
  dsimp only
  rw [← bucketOf]
  cases hidx : (chainAt m (bucketOf m k)).findIdx? fun n => msameval k n.1 with
  | some j => rfl
  | none =>
    by_cases hem : (chainAt m (bucketOf m k)).isEmpty = true
    · have hnil : chainAt m (bucketOf m k) = [] := isEmpty_iff.1 hem
      rw [if_pos hem, if_pos hem]
      by_cases hzero : decUshort m.unfilled = 0
      · rw [if_pos hzero, if_pos hzero]
        cases hg : growMap false { m with unfilled := decUshort m.unfilled } with
        | none => rfl
        | some m2 =>
          obtain ⟨hlow, hhigh, hempty⟩ := growMap_empty h hnil hg
          dsimp only
          by_cases hbit : svalueToInt k &&& (m.tableSize + 1) ≠ 0
          · rw [if_pos hbit, if_pos hbit]
            exact link_eq cfg hhigh zero v k
          · rw [if_neg hbit, if_neg hbit, ← hempty]
            exact link_eq cfg hlow zero v k
      · rw [if_neg hzero, if_neg hzero]
        have hlink := link_eq cfg (m := { m with unfilled := decUshort m.unfilled }) hlt zero v k
        rwa [chainAt_unfilled, hnil] at hlink
    · rw [if_neg hem, if_neg hem]
      exact link_eq cfg hlt zero v k

/-- a node whose key is not in the copy is put in just the same, and otherwise nothing is done -/
theorem addElt_unique (h : Inv e d m) (cfg : Config) (hk : NonReal k) (v : υ) : addElt cfg false m (k, v) =
      if absOf m (word k) = none then addElt cfg true m (k, v) else .ok m := by
  have hnr : ∀ p ∈ chainAt m (bucketOf m k), NonReal p.1 := fun p hp => h.shape.nonReal p (mem_nodes hp)
  unfold addElt
  dsimp only
  rw [← bucketOf]
  cases hidx : (chainAt m (bucketOf m k)).findIdx? fun n => msameval k n.1 with
  | some j =>
    obtain ⟨hj, hsame, -⟩ := findIdx?_eq_some_iff_getElem.1 hidx
    rw [msameval_left hk] at hsame
    have hsome : absOf m (word k) ≠ none := by
      intro hnone
      have hne := chainMap_none.1 hnone _ (mem_nodes (getElem_mem hj))
      rw [isEquiv_sameWord.symm _ _ hsame] at hne
      cases hne
    rw [if_neg hsome]
    rfl
  | none =>
    have hnone : absOf m (word k) = none := by rw [h.shape.lookup_chain, findIdx_none hnr hidx]
    rw [if_pos hnone]

/-! ## The loop -/

/-- the nodes put in one after the other -/
def addAll (cfg : Config) (overwrite : Bool) (m : MappingT κ υ) (l : Chain κ υ) : Except MapError (MappingT κ υ) :=
  l.foldlM (addElt cfg overwrite) m

/-- the nodes of the first `n` buckets, in the order of the loop -/
def walk (m : MappingT κ υ) : ℕ → Chain κ υ
  | 0 => []
  | n + 1 => chainAt m n ++ walk m n

theorem addAll_cons (cfg : Config) (overwrite : Bool) (m : MappingT κ υ) (elt : κ × υ) (l : Chain κ υ) :
    addAll cfg overwrite m (elt :: l) = (addElt cfg overwrite m elt).bind fun m' => addAll cfg overwrite m' l := rfl

/-- the turns change the last mapping of the store and nothing else -/
theorem foldlM_addTurn (cfg : Config) (overwrite : Bool) (st : List (MappingT κ υ)) (m : MappingT κ υ) (l : Chain κ υ) :
    l.foldlM (addTurn cfg overwrite st.length) (st ++ [m]) = (addAll cfg overwrite m l).map fun m' => st ++ [m'] := by
  induction l generalizing m with
  | nil => rfl
  | cons elt l ih =>
    have hlast : (st ++ [m])[st.length]? = some m := getElem?_concat_length
    have hturn : addTurn cfg overwrite st.length (st ++ [m]) elt =
        (addElt cfg overwrite m elt).map fun m' => (st ++ [m]).set st.length m' := by
      rw [addTurn, hlast]
    rw [foldlM_cons, hturn, addAll_cons]
    cases addElt cfg overwrite m elt with
    | error err => rfl
    | ok m' =>
      have hset : (st ++ [m]).set st.length m' = st ++ [m'] := by simp
      show l.foldlM (addTurn cfg overwrite st.length) ((st ++ [m]).set st.length m') = _
      rw [hset, ih m']
      rfl

theorem addBuckets_eq (cfg : Config) (overwrite : Bool) (hsrc : st[src]? = some m2) (n : ℕ) (m : MappingT κ υ) :
    addBuckets cfg overwrite st.length src n (st ++ [m]) =
      (addAll cfg overwrite m (walk m2 n)).map fun m' => st ++ [m'] := by
  induction n generalizing m with
  | zero => rfl
  | succ n ih =>
    -- the source is an older mapping than the one written to
    have hlt : src < st.length := (List.getElem?_eq_some_iff.1 hsrc).1
    have hread : (st ++ [m])[src]? = some m2 := by rw [List.getElem?_append_left hlt, hsrc]
    rw [addBuckets, hread]
    show ((chainAt m2 n).foldlM (addTurn cfg overwrite st.length) (st ++ [m])).bind _ = _
    rw [foldlM_addTurn, walk, addAll, addAll, foldlM_append]
    cases (chainAt m2 n).foldlM (addElt cfg overwrite) m with
    | error err => rfl
    | ok m' => exact ih m'

/-- **The source does not change under the loop.** -/
theorem addToMapping_eq (cfg : Config) (overwrite : Bool) (hsrc : st[src]? = some m2) (m : MappingT κ υ) :
    addToMapping cfg overwrite (st ++ [m]) st.length src =
      (addAll cfg overwrite m (walk m2 (m2.tableSize + 1))).map fun m' => st ++ [m'] := by
  have hlt : src < st.length := (List.getElem?_eq_some_iff.1 hsrc).1
  rw [addToMapping, List.getElem?_append_left hlt, hsrc]
  exact addBuckets_eq cfg overwrite hsrc _ m

omit [MapKey κ] in
theorem walk_perm (m : MappingT κ υ) (n : ℕ) : (walk m n).Perm (m.table.take n).flatten := by
  induction n with
  | zero => exact .refl _
  | succ n ih =>
    have htake : (m.table.take (n + 1)).flatten = (m.table.take n).flatten ++ chainAt m n := by
      rw [take_add_one, chainAt, getD_eq_getElem?_getD]
      cases m.table[n]? <;> simp
    rw [htake]
    exact (ih.append_left _).trans perm_append_comm

theorem walk_nodes (h : Inv e d m) : (walk m (m.tableSize + 1)).Perm (nodes m) := by
  have hlen : m.tableSize + 1 = m.table.length := by
    rw [h.shape.mask, h.shape.len]
    exact Nat.sub_add_cancel (Nat.two_pow_pos _)
  have hperm := walk_perm m (m.tableSize + 1)
  rwa [hlen, take_length, ← hlen] at hperm

/-! ## What the loop does to the finite map -/

/-- the union that a run of the loop makes -/
def FinMap.added (overwrite : Bool) (f g : FinMap υ) : FinMap υ := if overwrite then f.union g else g.union f

variable {overwrite : Bool} {m' : MappingT κ υ} {cfg : Config} {v : υ} {f g : FinMap υ} {l : Chain κ υ}

/-- one turn: nothing happens to the other keys, and the key is there afterwards -/
theorem addElt_ok (h : Inv e d m) (hk : NonReal k) (hok : addElt cfg overwrite m (k, v) = .ok m') :
    (∃ d', Inv e d' m') ∧ absOf m' =
      if overwrite = true ∨ absOf m (word k) = none then update (absOf m) (word k) (some v)
      else absOf m := by
  cases overwrite with
  | true =>
    rw [addElt_overwrite h cfg v] at hok
    exact insert_ok h hk hok
  | false =>
    rw [addElt_unique h cfg hk] at hok
    by_cases hnone : absOf m (word k) = none
    · rw [if_pos hnone, addElt_overwrite h cfg v] at hok
      rw [if_pos (.inr hnone)]
      exact insert_ok h hk hok
    · rw [if_neg hnone] at hok
      cases hok
      rw [if_neg (by simp [hnone])]
      exact ⟨⟨d, h⟩, rfl⟩

/-- what is still to be added does not depend on the order, as long as the keys are different -/
theorem added_step {f' : FinMap υ} (hnew : chainMap l (word k) = none)
    (hf : f' = if overwrite = true ∨ f (word k) = none then update f (word k) (some v) else f) :
    f'.added overwrite (chainMap l) = f.added overwrite (chainMap ((k, v) :: l)) := by
  rw [chainMap_cons]
  funext w
  by_cases hw : w = word k
  · subst hw
    cases overwrite with
    | true => simp [added, union, hf, hnew]
    | false =>
      cases hfk : f (word k) with
      | none | some x => simp [added, union, hf, hfk]
  · have hsame : f' w = f w := by
      rw [hf]
      split_ifs
      · exact update_of_ne hw ..
      · rfl
    have hother : update (chainMap l) (word k) (some v) w = chainMap l w :=
      update_of_ne hw ..
    cases overwrite with
    | true => exact congrArg₂ (fun x y => y <|> x) hsame hother.symm
    | false => exact congrArg₂ (fun x y => x <|> y) hsame hother.symm

/-- the nodes to be added: no reals, no key twice -/
def Addable (l : Chain κ υ) : Prop := (∀ p ∈ l, NonReal p.1) ∧ Distinct sameWord l

theorem Addable.cons (h : Addable ((k, v) :: l)) : NonReal k ∧ chainMap l (word k) = none ∧ Addable l := by
  obtain ⟨hnr, hd⟩ := h
  obtain ⟨hfirst, hrest⟩ := pairwise_cons.1 hd
  refine ⟨hnr (k, v) (.head _), ?_, fun p hp => hnr p (.tail _ hp), hrest⟩
  rw [chainMap_none]
  intro p hp
  by_contra hne
  have hsame := isEquiv_sameWord.symm _ _ (by simpa using hne)
  exact absurd (hfirst p hp) (by simp [hsame])

theorem addAll_ok (h : Inv e d m) (hl : Addable l) (hok : addAll cfg overwrite m l = .ok m') :
    (∃ d', Inv e d' m') ∧ absOf m' = (absOf m).added overwrite (chainMap l) := by
  induction l generalizing m d with
  | nil =>
    cases hok
    refine ⟨⟨d, h⟩, ?_⟩
    funext w
    cases overwrite <;> simp [added, union, chainMap, words, lookup]
  | cons p l ih =>
    obtain ⟨k, v⟩ := p
    obtain ⟨hk, hnew, hrest⟩ := hl.cons
    rw [addAll_cons] at hok
    cases hstep : addElt cfg overwrite m (k, v) with
    | error err => rw [hstep] at hok; cases hok
    | ok m1 =>
      rw [hstep] at hok
      obtain ⟨⟨d1, h1⟩, habs⟩ := addElt_ok h hk hstep
      obtain ⟨hinv, hfinal⟩ := ih h1 hrest hok
      exact ⟨hinv, hfinal.trans (added_step hnew habs)⟩

/-! ## Room for the union -/

theorem finite_chainMap (c : Chain κ υ) : {w | chainMap c w ≠ none}.Finite := by
  rw [chainMap_support]
  exact Finset.finite_toSet _

theorem added_eq_none {w : Int64} : f.added overwrite g w = none ↔ f w = none ∧ g w = none := by
  cases overwrite with
  | true => cases hg : g w <;> simp [added, union, hg]
  | false => cases hf : f w <;> simp [added, union, hf]

theorem size_mono (hg : {w | g w ≠ none}.Finite) (h : ∀ w, g w = none → f w = none) : f.size ≤ g.size :=
  Set.ncard_le_ncard (fun w hw hnone => hw (h w hnone)) hg

/-- the number of buckets that the keys fall into in a table of `2 ^ j` -/
noncomputable def FinMap.spread (f : FinMap υ) (j : ℕ) : ℕ :=
  ((fun w => mapPointerHash w % 2 ^ j) '' {w | f w ≠ none}).ncard

/-- a mapping made with `2 ^ e` buckets has room for the keys: in the largest table it grows to they fall into fewer
buckets than would make it grow again -/
def FinMap.Room (f : FinMap υ) (e : ℕ) : Prop := f.spread (max 15 e) < fillShare e (max 15 e - e)

theorem spread_mono (hg : {w | g w ≠ none}.Finite) (h : ∀ w, g w = none → f w = none) (j : ℕ) :
    f.spread j ≤ g.spread j :=
  Set.ncard_le_ncard (Set.image_mono fun w hw hnone => hw (h w hnone)) (hg.image _)

theorem spread_chainMap (c : Chain κ υ) (j : ℕ) :
    (chainMap c).spread j = (c.map fun p => svalueToInt p.1 % 2 ^ j).toFinset.card := by
  rw [FinMap.spread, chainMap_support, ← Finset.coe_image, Set.ncard_coe_finset]
  congr 1
  ext b
  simp [words, svalueToInt]

/-- a new key in an empty bucket fills one more -/
theorem spread_insert (h : Inv e d m) (hem : chainAt m (bucketOf m k) = []) :
    FinMap.spread (update (absOf m) (word k) (some v)) (e + d) = filled m.table + 1 := by
  rw [absOf, ← chainMap_cons, spread_chainMap, map_cons, toFinset_cons, h.filled_eq, Finset.card_insert_of_notMem]
  intro hmem
  obtain ⟨p, hp, heq⟩ := mem_map.1 (mem_toFinset.1 hmem)
  exact mem_bucket h hp heq hem

/-- doubling the table at most doubles the buckets in use -/
theorem spread_double (hf : {w | f w ≠ none}.Finite) (j : ℕ) : f.spread (j + 1) ≤ 2 * f.spread j := by
  have hfin := hf.image fun w => mapPointerHash w % 2 ^ j
  calc f.spread (j + 1)
      ≤ (((fun w => mapPointerHash w % 2 ^ j) '' {w | f w ≠ none}) ∪
          (· + 2 ^ j) '' ((fun w => mapPointerHash w % 2 ^ j) '' {w | f w ≠ none})).ncard := by
        apply Set.ncard_le_ncard _ (hfin.union (hfin.image _))
        rintro b ⟨w, hw, rfl⟩
        dsimp only
        rw [mod_double]
        split_ifs
        · exact .inr ⟨_, ⟨w, hw, rfl⟩, rfl⟩
        · exact .inl ⟨w, hw, rfl⟩
    _ ≤ f.spread j + f.spread j := (Set.ncard_union_le _ _).trans (Nat.add_le_add_left (Set.ncard_image_le hfin) _)
    _ = 2 * f.spread j := (two_mul _).symm

theorem fillShare_double (e d : ℕ) : 2 * fillShare e d ≤ fillShare e (d + 1) := by
  have hle := fillShare_le e d
  rw [fillShare]
  omega

theorem Inv.largest (h : Inv e d m) : e + d ≤ max 15 e := by
  by_cases hd : d = 0
  · subst hd
    exact le_max_right ..
  · exact le_max_of_le_left (h.grew hd)

/-- a mapping has room for the keys it has -/
theorem Inv.room (h : Inv e d m) : (absOf m).Room e := by
  have hnow : (absOf m).spread (e + d) < fillShare e d := by
    rw [absOf, spread_chainMap, ← h.filled_eq, ← h.shape.share]
    have := h.shape.unfilled_pos
    omega
  have hgrow (n : ℕ) : (absOf m).spread (e + (d + n)) < fillShare e (d + n) := by
    induction n with
    | zero => exact hnow
    | succ n ih =>
      have hsp := spread_double (finite_chainMap (nodes m)) (e + (d + n))
      have hsh := fillShare_double e (d + n)
      calc (absOf m).spread (e + (d + (n + 1))) ≤ 2 * (absOf m).spread (e + (d + n)) := hsp
        _ < 2 * fillShare e (d + n) := by omega
        _ ≤ fillShare e (d + (n + 1)) := hsh
  have hlast := hgrow (max 15 e - (e + d))
  have hle := h.largest
  rw [FinMap.Room]
  convert hlast using 2
  all_goals omega

/-- an insertion goes through when the mapping has room for the keys there are then -/
theorem insert_of_room (h : Inv e d m) (zero : υ) (hk : NonReal k)
    (hsize : FinMap.size (update (absOf m) (word k) (some v)) ≤ cfg.maxMappingSize)
    (hroom : FinMap.Room (update (absOf m) (word k) (some v)) e) :
    ∃ m', insert cfg zero false m k (some v) = .ok m' := by
  by_cases hnew : absOf m (word k) = none
  · rcases insert_fresh_cases h cfg zero v hk hnew with ⟨d', m', -, -, hok⟩ | ⟨hfull, -⟩ | ⟨hlarge, hfill, hem, -⟩
    · exact ⟨m', hok⟩
    · have hcount : ((absOf m).insert zero (word k) (some v)).size = m.count + 1 := size_insert_of_none h hnew
      rw [FinMap.insert] at hcount
      omega
    · have hmax : max 15 e = e + d := by
        have := h.largest
        have := h.most
        omega
      rw [FinMap.Room, hmax, spread_insert h hem, Nat.add_sub_cancel_left] at hroom
      omega
  · rcases findForInsert_cases h cfg zero false hk with ⟨i, p, -, -, heq⟩ | ⟨hn, -⟩ | ⟨hn, -⟩
    · exact ⟨_, by rw [insert, heq]⟩
    · exact absurd hn hnew
    · exact absurd hn hnew

section

variable (h : Inv e d m)
include h

theorem addElt_total (overwrite : Bool) (hk : NonReal k)
    (hsize : size (update (absOf m) (word k) (some v)) ≤ cfg.maxMappingSize)
    (hroom : Room (update (absOf m) (word k) (some v)) e) : ∃ m', addElt cfg overwrite m (k, v) = .ok m' := by
  have hinsert : ∃ m', addElt cfg true m (k, v) = .ok m' := by
    rw [addElt_overwrite h cfg v]
    exact insert_of_room h v hk hsize hroom
  cases overwrite with
  | true => exact hinsert
  | false =>
    rw [addElt_unique h cfg hk]
    split_ifs
    · exact hinsert
    · exact ⟨m, rfl⟩

theorem addAll_total (hl : Addable l)
    (hsize : ((absOf m).added overwrite (chainMap l)).size ≤ cfg.maxMappingSize)
    (hroom : ((absOf m).added overwrite (chainMap l)).Room e) : ∃ m', addAll cfg overwrite m l = .ok m' := by
  induction l generalizing m d with
  | nil => exact ⟨m, rfl⟩
  | cons p l ih =>
    obtain ⟨k, v⟩ := p
    obtain ⟨hk, hnew, hrest⟩ := hl.cons
    have hfin : {w | (absOf m).added overwrite (chainMap ((k, v) :: l)) w ≠ none}.Finite := by
      apply Set.Finite.subset ((finite_chainMap (nodes m)).union (finite_chainMap ((k, v) :: l)))
      intro w hw
      by_contra hout
      rw [Set.mem_union, not_or] at hout
      exact hw (added_eq_none.2 ⟨not_not.1 hout.1, not_not.1 hout.2⟩)
    -- the keys after the turn are among those of the union
    have hturn : ∀ w, (absOf m).added overwrite (chainMap ((k, v) :: l)) w = none →
        update (absOf m) (word k) (some v) w = none := by
      intro w hw
      obtain ⟨hm, hkey⟩ := added_eq_none.1 hw
      rw [chainMap_cons] at hkey
      by_cases hwk : w = word k
      · subst hwk
        rw [update_self] at hkey
        cases hkey
      · rw [update_of_ne hwk]
        exact hm
    obtain ⟨m1, hstep⟩ := addElt_total h overwrite hk ((size_mono hfin hturn).trans hsize)
      ((spread_mono hfin hturn _).trans_lt hroom)
    obtain ⟨⟨d1, h1⟩, habs⟩ := addElt_ok h hk hstep
    rw [← added_step hnew habs] at hsize hroom
    obtain ⟨m', hrun⟩ := ih h1 hrest hsize hroom
    refine ⟨m', ?_⟩
    rw [addAll_cons, hstep]
    exact hrun

theorem addAll_iff (hl : Addable l) (hsize : ((absOf m).added overwrite (chainMap l)).size ≤ cfg.maxMappingSize) :
    (∃ m', addAll cfg overwrite m l = .ok m') ↔ ((absOf m).added overwrite (chainMap l)).Room e := by
  constructor
  · rintro ⟨m', hok⟩
    obtain ⟨⟨d', h'⟩, habs⟩ := addAll_ok h hl hok
    rw [← habs]
    exact h'.room
  · exact addAll_total h hl hsize

theorem addable_nodes : Addable (walk m (m.tableSize + 1)) := by
  have hperm := walk_nodes h
  have hnr : ∀ p ∈ walk m (m.tableSize + 1), NonReal p.1 := fun p hp => h.shape.nonReal p (hperm.mem_iff.1 hp)
  refine ⟨hnr, ?_⟩
  rw [distinct_perm isEquiv_sameWord hperm, ← distinct_word h.shape.nonReal]
  exact h.shape.distinct

theorem chainMap_walk : chainMap (walk m (m.tableSize + 1)) = absOf m := by
  obtain ⟨hnr, hd⟩ := addable_nodes h
  exact chainMap_perm (walk_nodes h) hnr ((distinct_word hnr).2 hd)

theorem absOf_of_count (hc : m.count = 0) (w : Int64) : absOf m w = none := by
  have hnil : nodes m = [] := length_eq_zero_iff.1 (h.shape.count ▸ hc)
  rw [absOf, hnil]
  rfl

end

end Add
end Lithos.Lpc.Mapping
