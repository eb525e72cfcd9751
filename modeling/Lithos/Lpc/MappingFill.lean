/-
Filling a fresh mapping: `restore_mapping` and the efuns that build mappings ask for a table of the right size and then
insert one pair after the other.

Results:
- `insert_fresh_cases`: what the insertion of a key that is not there yet can do.
- `fill_ok`, `fill_perm`: a run of insertions keeps the invariant; with distinct union words the table ends up with
  exactly the nodes that were inserted.
- `fill_allocated_iff`: when such a run goes through. A table below `2 ^ 15` buckets doubles when it has to; a table that
  starts larger cannot, and the run fails with "Out of memory" once `FILL_PERCENT` of its buckets would be in use.
- `Everywhere.insert`: whatever the table looks like, insertions put nothing into it but what they were given.
-/
import Lithos.Lpc.MappingRefine

namespace Lithos.Lpc.Mapping

open Lithos.Core.ChainTable List Function MapKey

variable {κ υ : Type} [MapKey κ]

/-- insert the nodes one after the other, up to the first error -/
def fill (cfg : Config) (zero : υ) : MappingT κ υ → Chain κ υ → Except MapError (MappingT κ υ)
  | m, [] => .ok m
  | m, (k, v) :: l =>
    match insert cfg zero false m k (some v) with
    | .error e => .error e
    | .ok m' => fill cfg zero m' l

/-- a table with enough buckets for keys with these union words -/
def HasRoom (ws : List Int64) : Prop :=
  tableExp ws.length < 15 ∨
    (ws.map fun w => mapPointerHash w % 2 ^ tableExp ws.length).toFinset.card <
      2 ^ tableExp ws.length * fillPercent / 100

instance (ws : List Int64) : Decidable (HasRoom ws) := inferInstanceAs (Decidable (_ ∨ _))

/-! ## One insertion -/

variable {m : MappingT κ υ}

omit [MapKey κ] in
/-- a node that is added and then written is a node added with that value -/
theorem store_addNode {i : ℕ} (hi : i < m.table.length) (zero v : υ) (lv : κ) :
    store (addNode zero m i lv) ⟨i, 0⟩ v = addNode v m i lv := by
  have hc : (addNode zero m i lv).table[i]? = some ((lv, zero) :: chainAt m i) := by
    rw [addNode, getElem?_set_self hi]
  rw [store_eq hc rfl]
  simp only [addNode, set_cons_zero, set_set]

variable {e d : ℕ} {k : κ}

/-- **What the insertion of a new key can do**: add exactly that node, or fail because the mapping or the table is
full. -/
theorem insert_fresh_cases (h : Inv e d m) (cfg : Config) (zero v : υ) (hk : NonReal k)
    (hnew : absOf m (word k) = none) :
    (∃ d' m', Inv e d' m' ∧ (nodes m').Perm ((k, v) :: nodes m) ∧ insert cfg zero false m k (some v) = .ok m') ∨
    (cfg.maxMappingSize < m.count + 1 ∧ insert cfg zero false m k (some v) = .error .tooLarge) ∨
    (15 ≤ e + d ∧ filled m.table + 1 = fillShare e d ∧ chainAt m (bucketOf m k) = [] ∧
      insert cfg zero false m k (some v) = .error .outOfMemory) := by
  rcases findForInsert_cases h cfg zero false hk with ⟨i, p, hp, hsame, -⟩ | ⟨-, d', m2, hr, heq⟩ | ⟨-, hg, hf, hem, heq⟩
  · -- a node found in the bucket contradicts the key being new
    have hne := chainMap_none.1 hnew p (mem_nodes (mem_of_getElem? hp))
    rw [hsame] at hne
    cases hne
  · obtain ⟨⟨s, hshape, hshare⟩, hgrew, hperm⟩ := hr
    have habs : absOf m2 = absOf m := chainMap_perm hperm hshape.nonReal hshape.distinct
    have hcount : m2.count = m.count := by rw [hshape.count, h.shape.count, hperm.length_eq]
    by_cases hfull : m2.count + 1 > cfg.maxMappingSize
    · refine .inr (.inl ⟨by omega, ?_⟩)
      rw [insert, heq, insertNode, if_pos hfull]
    · obtain ⟨hadd, hnodes⟩ := hshape.addNode v hk (by rw [habs]; exact hnew) hshare
      refine .inl ⟨d', _, ⟨hadd, h.least, h.made, hgrew⟩, hnodes.trans (hperm.cons _), ?_⟩
      rw [insert, heq, insertNode, if_neg hfull]
      exact congrArg Except.ok (store_addNode (List.getElem?_eq_some_iff.1 (hshape.bucket k)).1 zero v k)
  · refine .inr (.inr ⟨by simpa using hg, hf, hem, ?_⟩)
    rw [insert]
    generalize findForInsert cfg zero false m k = r at heq
    obtain ⟨m', o⟩ := r
    obtain rfl : o = .error .outOfMemory := heq
    rfl

variable {cfg : Config}

theorem insert_room (h : Inv e d m) (zero : υ) (hk : NonReal k) (w : Option υ) (hroom : m.count < cfg.maxMappingSize)
    (hlimit : cfg.maxMappingSize ≤ 26200) :
    ∃ m', insert cfg zero false m k w = .ok m' := by
  obtain ⟨m', s, heq⟩ := findForInsert_total h cfg zero hk (fun _ => hroom) hlimit
  exact ⟨_, by rw [insert, heq]⟩

variable {m' : MappingT κ υ} {zero : υ}

/-- an insertion adds at most one node -/
theorem insert_count (h : Inv e d m) {oom : Bool} (hk : NonReal k) {w : Option υ}
    (hok : insert cfg zero oom m k w = .ok m') : m'.count ≤ m.count + 1 := by
  obtain ⟨⟨d', hinv⟩, habs⟩ := insert_ok h hk hok
  rw [← size_absOf hinv, habs]
  by_cases hnew : absOf m (word k) = none
  · rw [size_insert_of_none h hnew]
  · have hset : {x | (absOf m).insert zero (word k) w x ≠ none} = {x | absOf m x ≠ none} := by
      ext x
      cases w with
      | none =>
        rw [Set.mem_ofPred_eq, FinMap.insert, FinMap.touch, update_apply]
        split_ifs with hx
        · simp [hx, hnew]
        · rfl
      | some v =>
        rw [Set.mem_ofPred_eq, FinMap.insert, update_apply]
        split_ifs with hx
        · simp [hx, hnew]
        · rfl
    rw [FinMap.size, hset]
    have := size_absOf h
    rw [FinMap.size] at this
    omega

/-- the non-empty buckets are those the keys hash to -/
theorem Inv.filled_eq (h : Inv e d m) :
    filled m.table = ((nodes m).map fun p => svalueToInt p.1 % 2 ^ (e + d)).toFinset.card := by
  rw [filled_eq_card h.shape.placed, nodes]
  simp only [bucketOf_eq h.shape.mask]

theorem mem_bucket (h : Inv e d m) {p : κ × υ} (hp : p ∈ nodes m)
    (heq : svalueToInt p.1 % 2 ^ (e + d) = svalueToInt k % 2 ^ (e + d)) : chainAt m (bucketOf m k) ≠ [] := by
  obtain ⟨c, hc, hpc⟩ := mem_flatten.1 hp
  obtain ⟨i, hi⟩ := mem_iff_getElem?.1 hc
  have hslot := h.shape.placed i c hi p hpc
  rw [bucketOf_eq h.shape.mask, heq, ← bucketOf_eq h.shape.mask] at hslot
  have := h.shape.bucket k
  rw [hslot, hi] at this
  rw [hslot, ← Option.some.inj this]
  exact ne_nil_of_mem hpc

/-! ## Runs of insertions -/

variable {l : Chain κ υ}

theorem fill_ok (h : Inv e d m) (hnr : ∀ p ∈ l, NonReal p.1) (hok : fill cfg zero m l = .ok m') :
    (∃ d', Inv e d' m') ∧ ∀ w, absOf m' w ≠ none → absOf m w ≠ none ∨ w ∈ l.map fun p => word p.1 := by
  induction l generalizing m d with
  | nil =>
    cases hok
    exact ⟨⟨d, h⟩, fun w hw => .inl hw⟩
  | cons p l ih =>
    obtain ⟨k, v⟩ := p
    rw [fill] at hok
    cases hins : insert cfg zero false m k (some v) with
    | error err => rw [hins] at hok; cases hok
    | ok m1 =>
      rw [hins] at hok
      obtain ⟨⟨d1, hinv⟩, habs⟩ := insert_ok h (hnr (k, v) mem_cons_self) hins
      obtain ⟨hinv', hsub⟩ := ih hinv (fun q hq => hnr q (mem_cons_of_mem _ hq)) hok
      refine ⟨hinv', fun w hw => ?_⟩
      rcases hsub w hw with hw | hw
      · rw [habs, FinMap.insert, update_apply] at hw
        split_ifs at hw with hkw
        · exact .inr (by simp [hkw])
        · exact .inl hw
      · exact .inr (.tail _ hw)

/-- the words still to come are new and distinct -/
def Fresh (m : MappingT κ υ) (l : Chain κ υ) : Prop :=
  (∀ p ∈ l, absOf m (MapKey.word p.1) = none) ∧ (l.map fun p => MapKey.word p.1).Nodup

theorem Fresh.step {v : υ} (h : Fresh m ((k, v) :: l)) (hinv : Inv e d m')
    (hperm : (nodes m').Perm ((k, v) :: nodes m)) : Fresh m' l := by
  obtain ⟨hnew, hnodup⟩ := h
  rw [map_cons, nodup_cons] at hnodup
  refine ⟨fun p hp => ?_, hnodup.2⟩
  have hne : word p.1 ≠ word k := by
    intro heq
    exact hnodup.1 (heq ▸ mem_map_of_mem hp)
  rw [absOf, chainMap_perm hperm hinv.shape.nonReal hinv.shape.distinct, chainMap_cons, update_apply, if_neg hne]
  exact hnew p (.tail _ hp)

theorem fill_perm (h : Inv e d m) (hnr : ∀ p ∈ l, NonReal p.1) (hfresh : Fresh m l) (hok : fill cfg zero m l = .ok m') :
    (nodes m').Perm (nodes m ++ l) := by
  induction l generalizing m d with
  | nil =>
    cases hok
    simp
  | cons p l ih =>
    obtain ⟨k, v⟩ := p
    rw [fill] at hok
    rcases insert_fresh_cases h cfg zero v (hnr (k, v) mem_cons_self) (hfresh.1 (k, v) mem_cons_self) with
      ⟨d1, m1, hinv, hperm, hins⟩ | ⟨-, hins⟩ | ⟨-, -, -, hins⟩
    · rw [hins] at hok
      have := ih hinv (fun q hq => hnr q (.tail _ hq)) (hfresh.step hinv hperm) hok
      exact (this.trans (hperm.append_right l)).trans perm_middle.symm
    all_goals rw [hins] at hok; cases hok

/-- the buckets of the nodes that are there and of those to come fit the table, or the table is small enough to grow -/
def Fits (e : ℕ) (m : MappingT κ υ) (l : Chain κ υ) : Prop :=
  (nodes m ++ l).length ≤ 26200 ∨
    15 ≤ e ∧ ((nodes m ++ l).map fun p => svalueToInt p.1 % 2 ^ e).toFinset.card < fillShare e 0

theorem fill_total (h : Inv e d m) (hnr : ∀ p ∈ l, NonReal p.1) (hfresh : Fresh m l)
    (hlen : (nodes m ++ l).length ≤ cfg.maxMappingSize) (hfits : Fits e m l) : ∃ m', fill cfg zero m l = .ok m' := by
  induction l generalizing m d with
  | nil => exact ⟨m, rfl⟩
  | cons p l ih =>
    obtain ⟨k, v⟩ := p
    rw [length_append, length_cons] at hlen
    rw [fill]
    rcases insert_fresh_cases h cfg zero v (hnr (k, v) mem_cons_self) (hfresh.1 (k, v) mem_cons_self) with
      ⟨d1, m1, hinv, hperm, hins⟩ | ⟨hfull, -⟩ | ⟨h15, hshare, hempty, -⟩
    · have hall : (nodes m1 ++ l).Perm (nodes m ++ (k, v) :: l) := (hperm.append_right l).trans perm_middle.symm
      rw [hins]
      refine ih hinv (fun q hq => hnr q (.tail _ hq)) (hfresh.step hinv hperm) ?_ ?_
      · rw [hall.length_eq, length_append, length_cons]; exact hlen
      · rw [Fits, hall.length_eq, toFinset_eq_of_perm _ _ (hall.map fun p => svalueToInt p.1 % 2 ^ e)]
        exact hfits
    · rw [h.shape.count] at hfull
      omega
    · exfalso
      rcases hfits with hsmall | ⟨he, hcard⟩
      · have hle := filled_le_length m.table
        have hlarge := le_fillShare_of_large h.least h15 h.most
        rw [length_append, length_cons, nodes] at hsmall
        omega
      · -- a table this large has not grown, and the key's bucket is one more than the share allows
        obtain rfl : d = 0 := by
          by_contra hd
          have := h.grew hd
          omega
        have hnot : svalueToInt k % 2 ^ e ∉ ((nodes m).map fun p => svalueToInt p.1 % 2 ^ e).toFinset := by
          intro hmem
          obtain ⟨p, hp, heq⟩ := mem_map.1 (mem_toFinset.1 hmem)
          exact mem_bucket h hp (by simpa using heq) hempty
        have hsub : Insert.insert (svalueToInt k % 2 ^ e) ((nodes m).map fun p => svalueToInt p.1 % 2 ^ e).toFinset ⊆
            ((nodes m ++ (k, v) :: l).map fun p => svalueToInt p.1 % 2 ^ e).toFinset := by
          intro i hi
          simp only [Finset.mem_insert, mem_toFinset, map_append, map_cons, mem_append, mem_cons] at hi ⊢
          tauto
        have hcard' := Finset.card_le_card hsub
        rw [Finset.card_insert_of_notMem hnot] at hcard'
        have hfilled := h.filled_eq
        simp only [add_zero] at hfilled
        omega

theorem length_lt_of_tableExp {n : ℕ} (h : tableExp n < 15) : n < 2 ^ 14 := by
  unfold tableExp at h
  split_ifs at h with hn
  · exact Nat.size_le.1 (by omega)
  · simp only [mapHashTableSize] at hn; omega

/-- **Filling a fresh table.** With distinct union words and within the limit, the insertions go through exactly when
the table has room. -/
theorem fill_allocated_iff (hcfg : cfg.maxMappingSize < 65536) (zero : υ)
    (hnr : ∀ p ∈ l, NonReal p.1) (hnodup : (l.map fun p => word p.1).Nodup) (hlen : l.length ≤ cfg.maxMappingSize) :
    (∃ m, fill cfg zero (allocateMapping cfg l.length) l = .ok m) ↔ HasRoom (l.map fun p => word p.1) := by
  have hmin : min l.length cfg.maxMappingSize = l.length := by omega
  have hinv := inv_allocateMapping (κ := κ) (υ := υ) cfg (n := l.length) (by omega)
  have halloc := allocateMapping_eq (κ := κ) (υ := υ) cfg (n := l.length) (by omega)
  rw [hmin] at hinv halloc
  have hnil : nodes (allocateMapping cfg l.length : MappingT κ υ) = [] := by simp [halloc, nodes, emptyTable]
  have hfresh : Fresh (allocateMapping cfg l.length) l :=
    ⟨fun p _ => by rw [halloc, absOf_emptyTable], hnodup⟩
  have hbuckets : (l.map fun p => word p.1).map (fun w => mapPointerHash w % 2 ^ tableExp l.length) =
      l.map fun p => svalueToInt p.1 % 2 ^ tableExp l.length := by
    rw [map_map]
    rfl
  rw [HasRoom, length_map, hbuckets]
  constructor
  · rintro ⟨m, hok⟩
    by_cases he : tableExp l.length < 15
    · exact .inl he
    · obtain ⟨⟨d, hinv'⟩, -⟩ := fill_ok hinv hnr hok
      obtain rfl : d = 0 := by
        by_contra hd
        have := hinv'.grew hd
        omega
      have hperm := fill_perm hinv hnr hfresh hok
      rw [hnil, nil_append] at hperm
      have hfilled := hinv'.filled_eq
      have hshare := hinv'.shape.share
      have hpos := hinv'.shape.unfilled_pos
      rw [toFinset_eq_of_perm _ _ (hperm.map _), add_zero] at hfilled
      rw [fillShare] at hshare
      exact .inr (by omega)
  · intro hroom
    refine fill_total hinv hnr hfresh (by rwa [hnil, nil_append]) ?_
    rw [Fits, hnil, nil_append]
    rcases hroom with he | hcard
    · have := length_lt_of_tableExp he
      exact .inl (by omega)
    · by_cases he : tableExp l.length < 15
      · have := length_lt_of_tableExp he
        exact .inl (by omega)
      · exact .inr ⟨by omega, hcard⟩

/-! ## What a table holds -/

variable {p : κ × υ}

/-- every node of the table has a key in `K` and a value in `V` -/
def Everywhere (K : κ → Prop) (V : υ → Prop) (m : MappingT κ υ) : Prop := ∀ c ∈ m.table, ∀ p ∈ c, K p.1 ∧ V p.2

theorem mem_splitTable {bit : ℕ} {t : Table κ υ} {u : ℕ} {c : Chain κ υ}
    (hc : c ∈ (splitTable bit t u).1 ++ (splitTable bit t u).2.1) (hp : p ∈ c) : ∃ b ∈ t, p ∈ b := by
  induction t with
  | nil => simp [splitTable] at hc
  | cons b t ih =>
    have hrest : c ∈ (splitTable bit t u).1 ++ (splitTable bit t u).2.1 → ∃ b' ∈ b :: t, p ∈ b' := by
      intro hc
      obtain ⟨b', hb', hpb⟩ := ih hc
      exact ⟨b', .tail _ hb', hpb⟩
    rw [splitTable] at hc
    by_cases hb : b.isEmpty = true
    · simp only [hb, if_true, cons_append, mem_cons, mem_append] at hc
      rcases hc with rfl | hc | rfl | hc
      · cases hp
      · exact hrest (mem_append_left _ hc)
      · cases hp
      · exact hrest (mem_append_right _ hc)
    · simp only [if_neg hb, splitChain_eq, cons_append, mem_cons, mem_append] at hc
      rcases hc with rfl | hc | rfl | hc
      · exact ⟨b, by simp, (mem_filter.1 hp).1⟩
      · exact hrest (mem_append_left _ hc)
      · refine ⟨b, by simp, ?_⟩
        simp only [append_nil, mem_reverse, mem_filter] at hp
        exact hp.1
      · exact hrest (mem_append_right _ hc)

variable {K : κ → Prop} {V : υ → Prop} {oom : Bool} {i : ℕ}
  {zero : υ} {k : κ}

theorem Everywhere.grow (h : Everywhere K V m) (hg : growMap oom m = some m') : Everywhere K V m' := by
  unfold growMap at hg
  dsimp only at hg
  split_ifs at hg
  cases hg
  intro c hc p hp
  obtain ⟨b, hb, hpb⟩ := mem_splitTable hc hp
  exact h b (mem_of_mem_take hb) p hpb

omit [MapKey κ] in
theorem Everywhere.chainAt (h : Everywhere K V m) (hp : p ∈ chainAt m i) : K p.1 ∧ V p.2 := by
  obtain ⟨c, hc, hpc⟩ := mem_flatten.1 (mem_nodes hp)
  exact h c hc p hpc

omit [MapKey κ] in
theorem Everywhere.insertNode (h : Everywhere K V m) (hk : K k) (hz : V zero) {s : Slot}
    (hi : insertNode cfg zero m i k = (m', .ok s)) :
    Everywhere K V m' := by
  unfold Mapping.insertNode at hi
  split_ifs at hi
  · exact absurd (Prod.mk.inj hi).2 (by simp)
  · obtain ⟨rfl, -⟩ := Prod.mk.inj hi
    intro c hc p hp
    rcases mem_or_eq_of_mem_set hc with hc | rfl
    · exact h c hc p hp
    · rcases mem_cons.1 hp with rfl | hp
      · exact ⟨hk, hz⟩
      · exact h.chainAt hp

/-- an insertion puts nothing into the table but the key and the value it was given, and zero -/
theorem Everywhere.insert (h : Everywhere K V m) {v : υ} (hk : K k) (hz : V zero) (hv : V v)
    (hok : insert cfg zero oom m k (some v) = .ok m') : Everywhere K V m' := by
  unfold Mapping.insert at hok
  split at hok
  · next m1 s heq =>
    cases hok
    have h1 : Everywhere K V m1 := by
      unfold findForInsert at heq
      dsimp only at heq
      split at heq
      · obtain ⟨rfl, -⟩ := Prod.mk.inj heq
        exact h
      · split at heq
        · have hu : Everywhere K V { m with unfilled := decUshort m.unfilled } := fun c hc => h c hc
          split at heq
          · split at heq
            · next m2 hg => exact (hu.grow hg).insertNode hk hz heq
            · exact absurd (Prod.mk.inj heq).2 (by simp)
          · exact hu.insertNode hk hz heq
        · exact h.insertNode hk hz heq
    intro c hc p hp
    obtain ⟨i, hi⟩ := mem_iff_getElem?.1 hc
    simp only [store, getElem?_modify] at hi
    obtain ⟨b, hb, rfl⟩ := Option.map_eq_some_iff.1 hi
    have hbm := mem_of_getElem? hb
    split_ifs at hp
    · obtain ⟨j, hj⟩ := mem_iff_getElem?.1 hp
      rw [getElem?_modify] at hj
      obtain ⟨q, hq, rfl⟩ := Option.map_eq_some_iff.1 hj
      have hqm := h1 b hbm q (mem_of_getElem? hq)
      split_ifs
      · exact ⟨hqm.1, hv⟩
      · exact hqm
    · exact h1 b hbm p hp
  · cases hok

omit [MapKey κ] in
theorem everywhere_allocateMapping (K : κ → Prop) (V : υ → Prop) (cfg : Config) (n : ℕ) :
    Everywhere K V (allocateMapping cfg n) := by
  intro c hc p hp
  dsimp only [allocateMapping] at hc
  generalize (if n > cfg.maxMappingSize then cfg.maxMappingSize else n) = size at hc
  split_ifs at hc
  all_goals
    obtain rfl : c = [] := eq_of_mem_replicate hc
    cases hp

end Lithos.Lpc.Mapping
