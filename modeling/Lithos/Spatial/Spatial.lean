/-
The entity table of a spatial index (`spatial.c`).

Entities stand in an array without gaps: a removed one is replaced by the last. Their places in it are found through a
hash table with linear probing, in which the key 0 marks a free slot.

Results:
* `positions_correct`: positions are found for exactly the entities in the index, in every run that inserts no entity 0
  and removes none that stands between another one and its home slot;
* `lost_behind_gap`: an entity behind the slot of a removed one is not found any more.
-/
import Mathlib.Tactic
import Lithos.Core.LinearProbing

namespace Lithos.Spatial

open Lithos.Core LinearProbing Function Option LinearProbing.Sound
open List hiding lookup

/-! ## The hash table -/

/-- `spatial_entity_id_t` -/
abbrev EntityId := Int64

/-- `hash_keys`, `hash_values` (-1 is `none`), `hash_size` and `hash_count` -/
structure HashTable where
  keys : ℕ → EntityId
  values : ℕ → Option ℕ
  size : ℕ
  count : ℕ

/-- `(uint64_t)id` -/
def home (id : EntityId) : ℕ := id.toUInt64.toNat

namespace HashTable

/-- `hash_find` -/
def find (t : HashTable) (id : EntityId) : Option ℕ :=
  (probe t.size (fun s => t.values s = none ∨ t.keys s = id) t.size (home id % t.size)).bind t.values

/-- the loop that `hash_grow` and `hash_insert` share, and the writes after it; without a free slot it does not end -/
def store (t : HashTable) (id : EntityId) (val : Option ℕ) : Option HashTable :=
  (probe t.size (fun s => t.keys s = 0) t.size (home id % t.size)).map fun s =>
    { t with keys := update t.keys s id, values := update t.values s val }

/-- a round of the second loop of `hash_grow` -/
def rehash (t : HashTable) (new : HashTable) (i : ℕ) : Option HashTable :=
  if t.keys i ≠ 0 ∨ t.values i ≠ none then new.store (t.keys i) (t.values i) else some new

/-- `hash_grow` -/
def grow (t : HashTable) : Option HashTable :=
  let ns := if t.size ≠ 0 then t.size * 2 else 256
  (range t.size).foldlM (rehash t) ⟨fun _ => 0, fun _ => none, ns, t.count⟩

/-- `hash_insert` -/
def insert (t : HashTable) (id : EntityId) (val : ℕ) : Option HashTable :=
  (if t.size * 3 / 4 ≤ t.count then t.grow else some t).bind fun t =>
    (t.store id (some val)).map fun t => { t with count := t.count + 1 }

/-- `hash_remove` -/
def remove (t : HashTable) (id : EntityId) : HashTable :=
  match probe t.size (fun s => t.keys s = id) t.size (home id % t.size) with
  | none => t
  | some s =>
    { t with
      keys := update t.keys s 0
      values := update t.values s none
      count := t.count - 1 }

end HashTable

/-! ## The index -/

/-- `entity_entry_t` -/
structure Entity (P : Type) where
  id : EntityId
  pos : P
  cell : ℕ

/-- `spatial_index_t`: the ids in the cells of the grid, the entities, and their places. `P` has the positions. -/
structure Index (P : Type) where
  cells : ℕ → List EntityId
  entities : List (Entity P)
  hash : HashTable

open Index

/-- after `spatial_create` -/
def Index.create (P : Type) : Index P := ⟨fun _ => [], [], ⟨fun _ => 0, fun _ => none, 0, 0⟩⟩

/-- `cell_remove`: the last id takes the place of the removed one -/
def cellRemove (cell : List EntityId) (id : EntityId) : List EntityId :=
  match cell.findIdx? (· = id) with
  | none => cell
  | some i => (cell.set i (cell.getLastD id)).dropLast

variable {P : Type} (cellIndex : P → ℕ)

namespace Index

/-- `spatial_move`; `cellIndex` gives the cell of a position. The second component is what it returns. -/
def move (idx : Index P) (id : EntityId) (p : P) : Option (Index P × Bool) :=
  match idx.hash.find id with
  | none => some (idx, false)
  | some ei => do
    let e ← idx.entities[ei]?
    let nc := cellIndex p
    let cells :=
      if e.cell ≠ nc then
        let cells := update idx.cells e.cell (cellRemove (idx.cells e.cell) id)
        update cells nc (cells nc ++ [id])
      else idx.cells
    some ({ idx with cells := cells, entities := idx.entities.set ei ⟨e.id, p, nc⟩ }, true)

/-- `spatial_insert` -/
def insert (idx : Index P) (id : EntityId) (p : P) : Option (Index P × Bool) :=
  if (idx.hash.find id).isSome then idx.move cellIndex id p
  else do
    let ci := cellIndex p
    let hash ← idx.hash.insert id idx.entities.length
    some (⟨update idx.cells ci (idx.cells ci ++ [id]), idx.entities ++ [⟨id, p, ci⟩], hash⟩, true)

/-- `spatial_remove` -/
def remove (idx : Index P) (id : EntityId) : Option (Index P × Bool) :=
  match idx.hash.find id with
  | none => some (idx, false)
  | some ei => do
    let e ← idx.entities[ei]?
    let cells := update idx.cells e.cell (cellRemove (idx.cells e.cell) id)
    let hash := idx.hash.remove id
    let last := idx.entities.length - 1
    if ei < last then
      let l ← idx.entities[last]?
      let hash ← (hash.remove l.id).insert l.id ei
      some (⟨cells, (idx.entities.set ei l).take last, hash⟩, true)
    else some (⟨cells, idx.entities.take last, hash⟩, true)

/-- `spatial_get_pos` -/
def getPos (idx : Index P) (id : EntityId) : Option P :=
  (idx.hash.find id).bind fun ei => (idx.entities[ei]?).map Entity.pos

end Index

/-- operations on an index -/
inductive Op (P : Type) where
  | insert (id : EntityId) (p : P)
  | move (id : EntityId) (p : P)
  | remove (id : EntityId)

def Index.step (idx : Index P) : Op P → Option (Index P)
  | .insert id p => (idx.insert cellIndex id p).map Prod.fst
  | .move id p => (idx.move cellIndex id p).map Prod.fst
  | .remove id => (idx.remove id).map Prod.fst

def Index.run (idx : Index P) (ops : List (Op P)) : Option (Index P) := ops.foldlM (Index.step cellIndex) idx

/-- what an operation does to the positions -/
def record (m : EntityId → Option P) : Op P → EntityId → Option P
  | .insert id p => update m id (some p)
  | .move id p => if (m id).isSome then update m id (some p) else m
  | .remove id => update m id none

/-- the positions that entities have after the operations -/
def positions (ops : List (Op P)) : EntityId → Option P := ops.foldl record fun _ => none

/-! ## The hash table as a table of slots -/

namespace HashTable

/-- the slots, as far as they have a value -/
def slots (t : HashTable) : Slots EntityId ℕ := fun s => (t.values s).map (Prod.mk (t.keys s))

/-- free slots are those with the key 0 -/
def Consistent (t : HashTable) : Prop := ∀ s < t.size, t.keys s = 0 ↔ t.values s = none

def entries (t : HashTable) : List (EntityId × ℕ) := LinearProbing.entries t.size t.slots

def Sound (t : HashTable) : Prop := LinearProbing.Sound home t.size t.slots

variable {t : HashTable} {id : EntityId} {s v : ℕ}

theorem slots_eq_some {k : EntityId} : t.slots s = some (k, v) ↔ t.keys s = k ∧ t.values s = some v := by
  rw [slots, map_eq_some_iff]
  constructor
  · rintro ⟨w, hw, heq⟩
    cases heq
    exact ⟨rfl, hw⟩
  · rintro ⟨rfl, hv⟩
    exact ⟨v, hv, rfl⟩

theorem slots_eq_none : t.slots s = none ↔ t.values s = none := map_eq_none_iff

/-- writing a slot -/
theorem slots_update (t : HashTable) (s : ℕ) (k : EntityId) (val : Option ℕ) (n c : ℕ) :
    slots ⟨update t.keys s k, update t.values s val, n, c⟩ = update t.slots s (val.map (Prod.mk k)) := by
  funext i
  by_cases hi : i = s
  · rw [hi, update_self, slots]
    dsimp only
    rw [update_self, update_self]
  · rw [update_of_ne hi, slots, slots]
    dsimp only
    rw [update_of_ne hi, update_of_ne hi]

theorem find_eq (t : HashTable) (id : EntityId) : t.find id = lookup home t.size t.slots id := by
  have hstop : (fun s => decide (t.values s = none ∨ t.keys s = id)) = stops t.slots id := by
    funext s
    rw [stops, slots]
    cases t.values s with
    | none | some v => simp
  have hval : t.values = fun s => (t.slots s).map Prod.snd := by
    funext s
    rw [slots, Option.map_map]
    exact Option.map_id'.symm
  rw [find, lookup, hstop]
  exact congrArg _ hval

theorem Sound.find_iff (h : t.Sound) (v : ℕ) : t.find id = some v ↔ (id, v) ∈ t.entries := by
  rw [find_eq]
  exact lookup_iff h id v

section

variable (hc : t.Consistent)
include hc

theorem Consistent.ne_zero (hs : s < t.size) (hslot : t.slots s = some (id, v)) : id ≠ 0 := by
  obtain ⟨hkey, hval⟩ := slots_eq_some.1 hslot
  intro h0
  have hnone := (hc s hs).1 (hkey.trans h0)
  rw [hval] at hnone
  cases hnone

theorem Consistent.store_eq (hpos : 0 < t.size) (id : EntityId) (val : Option ℕ) :
    t.store id val = (freeSlot home t.size t.slots id).map fun s =>
      { t with keys := update t.keys s id, values := update t.values s val } := by
  rw [store, freeSlot]
  congr 1
  apply probe_congr _ _ (Nat.mod_lt _ hpos)
  intro s hs
  rw [Bool.eq_iff_iff, decide_eq_true_iff, isNone_iff_eq_none, slots_eq_none]
  exact hc s hs

theorem Consistent.write {val : Option ℕ} (hid : id = 0 ↔ val = none) (s c : ℕ) :
    Consistent ⟨update t.keys s id, update t.values s val, t.size, c⟩ := by
  intro i hi
  dsimp only
  by_cases his : i = s
  · rw [his, update_self, update_self]
    exact hid
  · rw [update_of_ne his, update_of_ne his]
    exact hc i hi

/-- a new key in a table with room -/
theorem Consistent.store (hs : t.Sound) (hid : id ≠ 0) (hnew : ∀ v, (id, v) ∉ t.entries)
    (hroom : t.entries.length < t.size) (v : ℕ) :
    ∃ t', t.store id (some v) = some t' ∧ t'.Consistent ∧ t'.Sound ∧ t'.entries.Perm ((id, v) :: t.entries) ∧
      t'.size = t.size ∧ t'.count = t.count := by
  have hpos : 0 < t.size := Nat.zero_lt_of_lt hroom
  obtain ⟨s, hfree⟩ : ∃ s, freeSlot home t.size t.slots id = some s := exists_freeSlot id hroom
  obtain ⟨d, -, hsd, hnone, -⟩ := (freeSlot_eq_some hpos).1 hfree
  have hsn : s < t.size := hsd ▸ Nat.mod_lt _ hpos
  rw [hc.store_eq hpos, hfree]
  refine ⟨_, rfl, hc.write (iff_of_false hid (some_ne_none v)) s _, ?_, ?_, rfl, rfl⟩
  · rw [Sound, slots_update]
    exact LinearProbing.Sound.insert hs hpos hnew hfree v
  · rw [entries, slots_update]
    exact entries_fill hsn hnone _

/-- the entries of the first `i` slots have moved -/
theorem rehash_foldlM (hs : t.Sound) {ns : ℕ} (hns : t.size < ns) (i : ℕ) (hi : i ≤ t.size) :
    ∃ t', (range i).foldlM (rehash t) ⟨fun _ => 0, fun _ => none, ns, t.count⟩ = some t' ∧ t'.Consistent ∧
      t'.Sound ∧ t'.entries.Perm (LinearProbing.entries i t.slots) ∧ t'.size = ns ∧ t'.count = t.count := by
  induction i with
  | zero =>
    refine ⟨_, rfl, fun _ _ => ⟨fun _ => rfl, fun _ => rfl⟩, ⟨nofun, nofun⟩, ?_, rfl, rfl⟩
    have hnil : HashTable.entries ⟨fun _ => 0, fun _ => none, ns, t.count⟩ = [] :=
      filterMap_eq_nil_iff.2 fun _ _ => rfl
    rw [hnil]
    exact .nil
  | succ i ih =>
    obtain ⟨t', hfold, hc', hs', hperm, hsize, hcount⟩ := ih (Nat.le_of_succ_le hi)
    have hlen := length_entries_le i t.slots
    rw [range_succ, foldlM_append, hfold, bind_eq_bind, bind_some, foldlM_cons, entries_succ]
    simp only [foldlM_nil, bind_pure]
    cases hslot : t.slots i with
    | none =>
      have hval : t.values i = none := slots_eq_none.1 hslot
      have hkey : t.keys i = 0 := (hc i hi).2 hval
      rw [rehash, if_neg (by rw [hval, hkey]; simp)]
      refine ⟨t', rfl, hc', hs', ?_, hsize, hcount⟩
      rwa [toList_none, append_nil]
    | some e =>
      obtain ⟨k, v⟩ := e
      obtain ⟨hkey, hval⟩ := slots_eq_some.1 hslot
      have hnew : ∀ w, (k, w) ∉ t'.entries := by
        intro w hw
        obtain ⟨j, hj, hjs⟩ := mem_entries.1 (hperm.mem_iff.1 hw)
        have := distinct hs j (hj.trans hi) i hi k w v hjs hslot
        exact hj.ne this
      have hroom : t'.entries.length < t'.size := by
        rw [hperm.length_eq, hsize]
        omega
      obtain ⟨t'', hstore, hc'', hs'', hperm'', hsize'', hcount''⟩ := hc'.store hs' (hc.ne_zero hi hslot) hnew hroom v
      rw [rehash, if_pos (.inr (by rw [hval]; nofun)), hkey, hval]
      refine ⟨t'', hstore, hc'', hs'', ?_, hsize''.trans hsize, hcount''.trans hcount⟩
      exact hperm''.trans ((hperm.cons _).trans (perm_append_singleton _ _).symm)

/-- a grown table has the same entries -/
theorem Consistent.grow (hs : t.Sound) : ∃ t', t.grow = some t' ∧ t'.Consistent ∧ t'.Sound ∧ t'.entries.Perm t.entries ∧
      (t'.size = if t.size ≠ 0 then t.size * 2 else 256) ∧ t'.count = t.count := by
  have hns : t.size < if t.size ≠ 0 then t.size * 2 else 256 := by
    split_ifs with h
    all_goals omega
  exact rehash_foldlM hc hs hns t.size le_rfl

end

/-- what holds between operations -/
structure Inv (t : HashTable) : Prop where
  consistent : t.Consistent
  sound : t.Sound
  count : t.count = t.entries.length
  load : t.count ≤ t.size * 3 / 4
  size : t.size = 0 ∨ 256 ≤ t.size

theorem inv_empty : Inv ⟨fun _ => 0, fun _ => none, 0, 0⟩ :=
  ⟨fun _ _ => ⟨fun _ => rfl, fun _ => rfl⟩, ⟨nofun, nofun⟩, rfl, le_rfl, .inl rfl⟩

theorem Inv.insert (h : t.Inv) (hid : id ≠ 0) (hnew : ∀ v, (id, v) ∉ t.entries) (v : ℕ) :
    ∃ t', t.insert id v = some t' ∧ t'.Inv ∧ t'.entries.Perm ((id, v) :: t.entries) := by
  have hload := h.load
  have hsize := h.size
  -- the table that the key is stored in
  obtain ⟨u, hu, huc, hus, hperm, hcount, huload, husize⟩ : ∃ u, (if t.size * 3 / 4 ≤ t.count then t.grow else some t) =
      some u ∧ u.Consistent ∧ u.Sound ∧ u.entries.Perm t.entries ∧ u.count = t.count ∧
      t.count < u.size * 3 / 4 ∧ 256 ≤ u.size := by
    split_ifs with hfull
    · obtain ⟨u, hu, huc, hus, hperm, husize, hcount⟩ := h.consistent.grow h.sound
      refine ⟨u, hu, huc, hus, hperm, hcount, ?_, ?_⟩
      all_goals
        rw [husize]
        split_ifs
        all_goals omega
    · exact ⟨t, rfl, h.consistent, h.sound, .refl _, rfl, not_le.1 hfull, by omega⟩
  have hnew' : ∀ w, (id, w) ∉ u.entries := fun w hw => hnew w (hperm.mem_iff.1 hw)
  have hroom : u.entries.length < u.size := by
    rw [hperm.length_eq, ← h.count]
    omega
  obtain ⟨t', hstore, hc', hs', hperm', hsize', hcount'⟩ := huc.store hus hid hnew' hroom v
  refine ⟨{ t' with count := t'.count + 1 }, ?_, ⟨hc', hs', ?_, ?_, ?_⟩, hperm'.trans (hperm.cons _)⟩
  · rw [HashTable.insert, hu, bind_some, hstore, map_some]
  · show t'.count + 1 = t'.entries.length
    rw [hcount', hcount, hperm'.length_eq, length_cons, hperm.length_eq, h.count]
  · show t'.count + 1 ≤ t'.size * 3 / 4
    rw [hcount', hcount, hsize']
    omega
  · exact .inr (hsize' ▸ husize)

/-- the key is found by its slot -/
theorem Inv.remove_eq (hc : t.Consistent) (hs : t.Sound) (hid : id ≠ 0) (hsn : s < t.size)
    (hslot : t.slots s = some (id, v)) :
    t.remove id = { t with
      keys := update t.keys s 0
      values := update t.values s none
      count := t.count - 1 } := by
  have hpos : 0 < t.size := Nat.zero_lt_of_lt hsn
  obtain ⟨d, hd, hsd, -⟩ := reached hs s hsn id v hslot
  have hprobe : probe t.size (fun s => t.keys s = id) t.size (home id % t.size) = some s := by
    rw [probe_eq_some (Nat.mod_lt _ hpos)]
    refine ⟨d, hd, by rw [hsd, Nat.mod_add_mod], decide_eq_true (slots_eq_some.1 hslot).1, ?_⟩
    intro e he
    rw [Nat.mod_add_mod, decide_eq_false_iff_not]
    intro hkey
    have hlt : (home id + e) % t.size < t.size := Nat.mod_lt _ hpos
    cases hval : t.values ((home id + e) % t.size) with
    | none => exact hid (hkey.symm.trans ((hc _ hlt).2 hval))
    | some w =>
      have heq := distinct hs _ hlt s hsn id w v (slots_eq_some.2 ⟨hkey, hval⟩) hslot
      rw [hsd] at heq
      exact he.ne (Ring.cell_inj (he.trans hd) hd heq)
  rw [remove, hprobe]

/-- the table without a key -/
theorem Inv.remove_facts (h : t.Inv) (hid : id ≠ 0) (hsn : s < t.size) (hslot : t.slots s = some (id, v)) :
    (t.remove id).Consistent ∧ (t.remove id).slots = update t.slots s none ∧ (t.remove id).size = t.size ∧
      (t.remove id).count + 1 = t.count ∧ t.entries.Perm ((id, v) :: (t.remove id).entries) := by
  have heq := Inv.remove_eq h.consistent h.sound hid hsn hslot
  have hslots : (t.remove id).slots = update t.slots s none := by
    rw [heq]
    exact slots_update t s 0 none t.size (t.count - 1)
  have hsize : (t.remove id).size = t.size := by rw [heq]
  have hperm : t.entries.Perm ((id, v) :: (t.remove id).entries) := by
    rw [entries, entries, hslots, hsize]
    exact entries_free hsn hslot
  have hcount : (t.remove id).count = t.count - 1 := by rw [heq]
  have hlen := hperm.length_eq
  rw [length_cons, ← h.count] at hlen
  refine ⟨?_, hslots, hsize, by omega, hperm⟩
  rw [heq]
  exact h.consistent.write (iff_of_true rfl rfl) s _

/-- removing a key that no other one stands behind -/
theorem Inv.remove (h : t.Inv) (hid : id ≠ 0) (hsn : s < t.size) (hslot : t.slots s = some (id, v))
    (hclear : ¬ Crosses home t.size t.slots s) :
    (t.remove id).Inv ∧ t.entries.Perm ((id, v) :: (t.remove id).entries) := by
  obtain ⟨hcons, hslots, hsize, hcount, hperm⟩ := h.remove_facts hid hsn hslot
  have hlen := hperm.length_eq
  rw [length_cons, ← h.count] at hlen
  have hload := h.load
  refine ⟨⟨hcons, ?_, by omega, ?_, ?_⟩, hperm⟩
  · rw [Sound, hslots, hsize]
    exact erase h.sound hclear
  · rw [hsize]
    omega
  · rw [hsize]
    exact h.size

theorem Inv.ne_zero (h : t.Inv) (hmem : (id, v) ∈ t.entries) : id ≠ 0 := by
  obtain ⟨s, hs, hslot⟩ := mem_entries.1 hmem
  exact h.consistent.ne_zero hs hslot

/-- a key that is removed and inserted again comes back into its slot -/
theorem Inv.relocate (h : t.Inv) (hmem : (id, v) ∈ t.entries) (w : ℕ) :
    ∃ t' rest, (t.remove id).insert id w = some t' ∧ t'.Inv ∧ t.entries.Perm ((id, v) :: rest) ∧
      t'.entries.Perm ((id, w) :: rest) := by
  have hid := h.ne_zero hmem
  obtain ⟨s, hsn, hslot⟩ := mem_entries.1 hmem
  have hpos := Nat.zero_lt_of_lt hsn
  have hload := h.load
  obtain ⟨hcons, hslots, hsize, hcount, hpermV⟩ := h.remove_facts hid hsn hslot
  have hlen := hpermV.length_eq
  rw [length_cons, ← h.count] at hlen
  generalize t.remove id = r at hcons hslots hsize hcount hpermV hlen
  have hfree : freeSlot home r.size r.slots id = some s := by
    obtain ⟨d, hd, hsd, hbefore⟩ := reached h.sound s hsn id v hslot
    rw [hsize, hslots, freeSlot_eq_some hpos]
    refine ⟨d, hd, hsd, update_self .., ?_⟩
    intro e he
    have hne : (home id + e) % t.size ≠ s := by
      intro hes
      rw [hsd] at hes
      exact he.ne (Ring.cell_inj (he.trans hd) hd hes)
    rw [update_of_ne hne]
    exact hbefore e he
  obtain ⟨u, hins, hcons', huslots, husize, hucount⟩ : ∃ u, r.insert id w = some u ∧ u.Consistent ∧
      u.slots = update t.slots s (some (id, w)) ∧ u.size = t.size ∧ u.count = t.count := by
    refine ⟨⟨update r.keys s id, update r.values s (some w), r.size, r.count + 1⟩, ?_,
      hcons.write (iff_of_false hid (some_ne_none w)) s _, ?_, hsize, hcount⟩
    · rw [HashTable.insert, if_neg (by rw [hsize]; omega), bind_some, hcons.store_eq (hsize ▸ hpos), hfree]
      rfl
    · rw [slots_update, hslots, update_idem, map_some]
  have hpermW : u.entries.Perm ((id, w) :: r.entries) := by
    have hfill := entries_fill (t := r.slots) hsn (by rw [hslots, update_self]) (id, w)
    rw [hslots, update_idem] at hfill
    rw [entries, entries, huslots, husize, hslots, hsize]
    exact hfill
  refine ⟨u, r.entries, hins, ⟨hcons', ?_, ?_, ?_, ?_⟩, hpermV, hpermW⟩
  · rw [Sound, huslots, husize]
    exact replace h.sound hslot w
  · rw [hpermW.length_eq, length_cons, hucount, hlen]
  · rw [hucount, husize]
    exact hload
  · rw [husize]
    exact h.size

end HashTable

/-! ## The index -/

/-- the ids of entities, with the places from `k` on -/
def indexed (k : ℕ) (l : List (Entity P)) : List (EntityId × ℕ) := (l.zipIdx k).map fun e => (e.1.id, e.2)

variable {l : List (Entity P)} {i : ℕ}

theorem mem_indexed {id : EntityId} : (id, i) ∈ indexed 0 l ↔ ∃ e, l[i]? = some e ∧ e.id = id := by
  rw [indexed, List.mem_map]
  constructor
  · rintro ⟨⟨e, j⟩, he, heq⟩
    cases heq
    exact ⟨e, mk_mem_zipIdx_iff_getElem?.1 he, rfl⟩
  · rintro ⟨e, he, rfl⟩
    exact ⟨(e, i), mk_mem_zipIdx_iff_getElem?.2 he, rfl⟩

theorem indexed_append (k : ℕ) (l l' : List (Entity P)) :
    indexed k (l ++ l') = indexed k l ++ indexed (k + l.length) l' := by
  rw [indexed, zipIdx_append, map_append]
  rfl

theorem indexed_cons (k : ℕ) (e : Entity P) (l : List (Entity P)) :
    indexed k (e :: l) = (e.id, k) :: indexed (k + 1) l := rfl

/-- the hash table has the places of the entities -/
structure Index.Inv (idx : Index P) : Prop where
  hash : idx.hash.Inv
  places : idx.hash.entries.Perm (indexed 0 idx.entities)

variable {idx : Index P} {id : EntityId}

section

variable (h : idx.Inv)
include h

theorem Index.Inv.find_iff (i : ℕ) : idx.hash.find id = some i ↔ ∃ e, idx.entities[i]? = some e ∧ e.id = id := by
  rw [h.hash.sound.find_iff, h.places.mem_iff, mem_indexed]

variable {e : Entity P} {e' : Entity P}

theorem Index.Inv.place_inj {j : ℕ} (he : idx.entities[i]? = some e) (he' : idx.entities[j]? = some e')
    (hid : e.id = e'.id) : i = j := by
  have hi := (h.find_iff i).2 ⟨e, he, rfl⟩
  have hj := (h.find_iff j).2 ⟨e', he', rfl⟩
  rw [← hid, hi] at hj
  exact some.inj hj

theorem Index.Inv.find_none (hn : idx.hash.find id = none) : ∀ e ∈ idx.entities, e.id ≠ id := by
  intro e he hid
  obtain ⟨i, hi⟩ := mem_iff_getElem?.1 he
  have := (h.find_iff i).2 ⟨e, hi, hid⟩
  rw [hn] at this
  cases this

/-- the index has the positions `m` -/
def Index.Has (idx : Index P) (m : EntityId → Option P) : Prop :=
  ∀ id p, m id = some p ↔ ∃ e ∈ idx.entities, e.id = id ∧ e.pos = p

variable {m : EntityId → Option P} {rest : List (Entity P)}

theorem Index.Inv.getPos_eq (hm : idx.Has m) (id : EntityId) : idx.getPos id = m id := by
  apply Option.ext
  intro p
  rw [hm id p, getPos, bind_eq_some_iff]
  constructor
  · rintro ⟨i, hi, hp⟩
    obtain ⟨e, he, hid⟩ := (h.find_iff i).1 hi
    rw [he] at hp
    exact ⟨e, mem_of_getElem? he, hid, some.inj hp⟩
  · rintro ⟨e, he, hid, rfl⟩
    obtain ⟨i, hi⟩ := mem_iff_getElem?.1 he
    exact ⟨i, (h.find_iff i).2 ⟨e, hi, hid⟩, by rw [hi, map_some]⟩

theorem Index.Inv.isSome_iff (hm : idx.Has m) (id : EntityId) : (m id).isSome = (idx.hash.find id).isSome := by
  rw [← h.getPos_eq hm, getPos]
  cases hf : idx.hash.find id with
  | none => rfl
  | some i =>
    obtain ⟨e, he, -⟩ := (h.find_iff i).1 hf
    rw [bind_some, he]
    rfl

theorem Index.Inv.ids_nodup : (idx.entities.map Entity.id).Nodup := by
  rw [nodup_iff_getElem?_ne_getElem?]
  intro i j hij hj heq
  rw [length_map] at hj
  have hei := getElem?_eq_getElem (hij.trans hj)
  have hej := getElem?_eq_getElem hj
  rw [getElem?_map, getElem?_map, hei, hej] at heq
  exact hij.ne (h.place_inj hei hej (some.inj heq))

theorem Index.Inv.ne_of_perm (hperm : idx.entities.Perm (e :: rest)) : ∀ e' ∈ rest, e'.id ≠ e.id := by
  have hnd := ((hperm.map Entity.id).nodup_iff.1 h.ids_nodup)
  rw [map_cons, nodup_cons] at hnd
  intro e' he' heq
  exact hnd.1 (heq ▸ mem_map_of_mem he')

end

/-- the entities of one id are exchanged, all others stay -/
theorem Index.Has.exchange (hm : idx.Has m) {a b entities : List (Entity P)}
    (hold : idx.entities.Perm (a ++ rest)) (hnew : entities.Perm (b ++ rest)) (hrest : ∀ e ∈ rest, e.id ≠ id)
    (hids : ∀ e ∈ a ++ b, e.id = id) {o : Option P} (ho : ∀ p, o = some p ↔ ∃ e ∈ b, e.pos = p)
    (cells : ℕ → List EntityId) (hash : HashTable) : Index.Has ⟨cells, entities, hash⟩ (update m id o) := by
  intro id' p'
  by_cases hid' : id' = id
  · rw [hid', update_self, ho]
    constructor
    · rintro ⟨e, he, hpos⟩
      exact ⟨e, hnew.mem_iff.2 (mem_append_left _ he), hids e (mem_append_right _ he), hpos⟩
    · rintro ⟨e, he, heid, hpos⟩
      exact ⟨e, (mem_append.1 (hnew.mem_iff.1 he)).resolve_right fun he => hrest e he heid, hpos⟩
  · have hkept : ∀ e : Entity P, e.id = id' → (e ∈ idx.entities ↔ e ∈ rest) ∧ (e ∈ entities ↔ e ∈ rest) := by
      rintro e rfl
      rw [hold.mem_iff, hnew.mem_iff, mem_append, mem_append]
      exact ⟨or_iff_right fun he => hid' (hids e (mem_append_left _ he)),
        or_iff_right fun he => hid' (hids e (mem_append_right _ he))⟩
    rw [update_of_ne hid', hm id' p']
    refine exists_congr fun e => ⟨fun ⟨he, hrest⟩ => ?_, fun ⟨he, hrest⟩ => ?_⟩
    · exact ⟨(hkept e hrest.1).2.2 ((hkept e hrest.1).1.1 he), hrest⟩
    · exact ⟨(hkept e hrest.1).1.2 ((hkept e hrest.1).2.1 he), hrest⟩

theorem split_at (he : l[i]? = some e) : l = l.take i ++ e :: l.drop (i + 1) := by
  obtain ⟨hlt, heq⟩ := List.getElem?_eq_some_iff.1 he
  rw [← heq, List.getElem_cons_drop, List.take_append_drop]

theorem indexed_set (he : l[i]? = some e) (hid : e'.id = e.id) (k : ℕ) : indexed k (l.set i e') = indexed k l := by
  induction l generalizing i k with
  | nil => rfl
  | cons a l ih =>
    cases i with
    | zero =>
      cases he
      rw [set_cons_zero, indexed_cons, indexed_cons, hid]
    | succ i =>
      rw [set_cons_succ, indexed_cons, indexed_cons, ih he]

/-- a move keeps the places; the position of a known entity changes -/
theorem Index.Inv.move (h : idx.Inv) (hm : idx.Has m) (p : P) : ∃ r, idx.move cellIndex id p = some r ∧ r.1.Inv ∧
      r.1.Has (if (m id).isSome then update m id (some p) else m) := by
  rw [Index.move, h.isSome_iff hm]
  cases hf : idx.hash.find id with
  | none => exact ⟨_, rfl, h, hm⟩
  | some ei =>
    obtain ⟨e, he, hid⟩ := (h.find_iff ei).1 hf
    dsimp only
    rw [he]
    refine ⟨_, rfl, ⟨h.hash, ?_⟩, ?_⟩
    · have hsame : indexed 0 (idx.entities.set ei ⟨e.id, p, cellIndex p⟩) = indexed 0 idx.entities :=
        indexed_set he (by rfl) 0
      exact hsame ▸ h.places
    · have hlt : ei < idx.entities.length := (List.getElem?_eq_some_iff.1 he).1
      have hold : idx.entities.Perm (e :: (idx.entities.take ei ++ idx.entities.drop (ei + 1))) :=
        (Perm.of_eq (split_at he)).trans perm_middle
      have hnew : (idx.entities.set ei ⟨e.id, p, cellIndex p⟩).Perm
          (⟨e.id, p, cellIndex p⟩ :: (idx.entities.take ei ++ idx.entities.drop (ei + 1))) :=
        (Perm.of_eq (set_eq_take_append_cons_drop.trans (if_pos hlt))).trans perm_middle
      subst hid
      exact hm.exchange (a := [e]) (b := [_]) hold hnew (h.ne_of_perm hold) (by simp) (by simp) _ _

theorem Index.Inv.insert (h : idx.Inv) (hm : idx.Has m) (hid : id ≠ 0) (p : P) :
    ∃ r, idx.insert cellIndex id p = some r ∧ r.1.Inv ∧ r.1.Has (update m id (some p)) := by
  rw [Index.insert]
  split_ifs with hf
  · have hmove : ∃ r, idx.move cellIndex id p = some r ∧ _ := h.move cellIndex hm p
    rw [h.isSome_iff hm, if_pos hf] at hmove
    exact hmove
  · have hnone := h.find_none (not_isSome_iff_eq_none.1 hf)
    have hnew : ∀ v, (id, v) ∉ idx.hash.entries := by
      intro v hv
      obtain ⟨e, he, heid⟩ := mem_indexed.1 (h.places.mem_iff.1 hv)
      exact hnone e (mem_of_getElem? he) heid
    obtain ⟨t, hins, ht, hperm⟩ := h.hash.insert hid hnew idx.entities.length
    dsimp only
    rw [hins]
    refine ⟨_, rfl, ⟨ht, ?_⟩, ?_⟩
    · show t.entries.Perm (indexed 0 (idx.entities ++ [⟨id, p, cellIndex p⟩]))
      rw [indexed_append, Nat.zero_add]
      exact hperm.trans ((h.places.cons _).trans (perm_append_singleton _ _).symm)
    · exact hm.exchange (a := []) (b := [_]) (.refl _) (perm_append_singleton _ _) hnone (by simp) (by simp) _ _

/-- the last entity, or one before it: what stands where -/
theorem split_at_place (he : l[i]? = some e) :
    (∃ a, l = a ++ [e] ∧ a.length = i) ∨ ∃ a b x, l = a ++ e :: (b ++ [x]) ∧ a.length = i := by
  have hsplit := split_at he
  have hlen : (l.take i).length = i := length_take_of_le (List.getElem?_eq_some_iff.1 he).1.le
  rcases eq_nil_or_concat (l.drop (i + 1)) with hnil | ⟨b, x, hb⟩
  · rw [hnil] at hsplit
    exact .inl ⟨l.take i, hsplit, hlen⟩
  · rw [hb, concat_eq_append] at hsplit
    exact .inr ⟨l.take i, b, x, hsplit, hlen⟩

/-- the last entity takes the place of another one -/
theorem swap_last {a b : List (Entity P)} {x : Entity P} (h : l = a ++ e :: (b ++ [x])) :
    a.length < l.length - 1 ∧ l[l.length - 1]? = some x ∧ (l.set a.length x).take (l.length - 1) = a ++ x :: b := by
  have hlen : l.length - 1 = a.length + (b.length + 1) := by
    rw [h]
    simp only [length_append, length_cons, length_nil]
    omega
  have hset : l.set a.length x = (a ++ x :: b) ++ [x] := by
    rw [h, set_append_right _ _ le_rfl, Nat.sub_self, set_cons_zero, append_assoc, cons_append]
  have hfront : (a ++ x :: b).length = a.length + (b.length + 1) := by rw [length_append, length_cons]
  rw [hlen]
  refine ⟨by omega, ?_, ?_⟩
  · rw [h, getElem?_append_right (le_self_add), Nat.add_sub_cancel_left, getElem?_cons_succ, getElem?_concat_length]
  · rw [hset, ← hfront, take_left]

/-- the condition of a removal: no other entity stands behind the slot of the removed one -/
def Index.RemoveOk (idx : Index P) (id : EntityId) : Prop :=
  ∀ s < idx.hash.size, ∀ v, idx.hash.slots s = some (id, v) → ¬ Crosses home idx.hash.size idx.hash.slots s

theorem Index.Inv.remove (h : idx.Inv) (hm : idx.Has m) (hok : idx.RemoveOk id) :
    ∃ r, idx.remove id = some r ∧ r.1.Inv ∧ r.1.Has (update m id none) := by
  rw [Index.remove]
  cases hf : idx.hash.find id with
  | none =>
    refine ⟨_, rfl, h, ?_⟩
    have hnone : m id = none := by
      have := h.isSome_iff hm id
      rw [hf] at this
      exact not_isSome_iff_eq_none.1 (by rw [this]; nofun)
    rw [← hnone, update_eq_self]
    exact hm
  | some ei =>
    obtain ⟨e, he, rfl⟩ := (h.find_iff ei).1 hf
    have hmem : (e.id, ei) ∈ idx.hash.entries := (h.hash.sound.find_iff ei).1 hf
    obtain ⟨s, hsn, hslot⟩ := mem_entries.1 hmem
    obtain ⟨hinv, hperm⟩ := h.hash.remove (h.hash.ne_zero hmem) hsn hslot (hok s hsn ei hslot)
    have hplaces := hperm.symm.trans h.places
    dsimp only
    rw [he]
    rcases split_at_place he with ⟨a, ha, rfl⟩ | ⟨a, b, x, hab, rfl⟩
    · -- the last entity: nothing moves
      have hlast : ¬ a.length < idx.entities.length - 1 := by
        rw [ha, length_append, length_singleton]
        omega
      have htake : idx.entities.take (idx.entities.length - 1) = a := by
        rw [ha, length_append, length_singleton, Nat.add_sub_cancel, take_left]
      have hents : idx.entities.Perm (e :: a) := ha ▸ perm_append_singleton e a
      rw [bind_eq_bind, bind_some, if_neg hlast, htake]
      refine ⟨_, rfl, ⟨hinv, ?_⟩, hm.exchange (a := [e]) (b := []) hents (.refl _) (h.ne_of_perm hents) (by simp)
        (by simp) _ _⟩
      rw [ha, indexed_append, Nat.zero_add] at hplaces
      exact (hplaces.trans (perm_append_singleton _ _)).cons_inv
    · obtain ⟨hlt, hlast, hset⟩ := swap_last hab
      have hents : idx.entities.Perm (e :: (a ++ x :: b)) := by
        rw [hab]
        refine perm_middle.trans (List.Perm.cons e ?_)
        exact (perm_append_singleton x b).append_left a
      rw [hab, indexed_append, indexed_cons, indexed_append, Nat.zero_add] at hplaces
      have hrest : (idx.hash.remove e.id).entries.Perm
          ((x.id, a.length + 1 + b.length) :: (indexed 0 a ++ indexed (a.length + 1) b)) := by
        have hmid := (hplaces.trans perm_middle).cons_inv
        rw [← append_assoc] at hmid
        exact hmid.trans (perm_append_singleton _ _)
      have hxmem : (x.id, a.length + 1 + b.length) ∈ (idx.hash.remove e.id).entries :=
        hrest.mem_iff.2 (.head _)
      obtain ⟨t, rest, hins, ht, hold, hnew⟩ := hinv.relocate hxmem a.length
      rw [bind_eq_bind, bind_some, if_pos hlt, hlast, bind_some, hins, bind_eq_bind, bind_some, hset]
      refine ⟨_, rfl, ⟨ht, ?_⟩, hm.exchange (a := [e]) (b := []) hents (.refl _) (h.ne_of_perm hents) (by simp)
        (by simp) _ _⟩
      show t.entries.Perm (indexed 0 (a ++ x :: b))
      rw [indexed_append, indexed_cons, Nat.zero_add]
      have hsame : rest.Perm (indexed 0 a ++ indexed (a.length + 1) b) := (hold.symm.trans hrest).cons_inv
      exact hnew.trans ((hsame.cons _).trans perm_middle.symm)

/-! ## Runs -/

/-- the condition of an operation -/
def Index.StepOk (idx : Index P) : Op P → Prop
  | .insert id _ => id ≠ 0
  | .move _ _ => True
  | .remove id => idx.RemoveOk id

def Index.RunOk (idx : Index P) : List (Op P) → Prop
  | [] => True
  | op :: ops => idx.StepOk op ∧ ∀ idx', idx.step cellIndex op = some idx' → Index.RunOk idx' ops

theorem Index.Inv.step (h : idx.Inv) (hm : idx.Has m) {op : Op P} (hok : idx.StepOk op) :
    ∃ idx', idx.step cellIndex op = some idx' ∧ idx'.Inv ∧ idx'.Has (record m op) := by
  have hfst : ∀ {o : Option (Index P × Bool)} {m' : EntityId → Option P}, (∃ r, o = some r ∧ r.1.Inv ∧ r.1.Has m') →
      ∃ idx', o.map Prod.fst = some idx' ∧ idx'.Inv ∧ idx'.Has m' := by
    rintro o m' ⟨r, rfl, hr⟩
    exact ⟨r.1, rfl, hr⟩
  cases op with
  | insert id p => exact hfst (h.insert cellIndex hm hok p)
  | move id p => exact hfst (h.move cellIndex hm p)
  | remove id => exact hfst (h.remove hm hok)

theorem Index.Inv.run (h : idx.Inv) (hm : idx.Has m) {ops : List (Op P)} (hok : idx.RunOk cellIndex ops) :
    ∃ idx', idx.run cellIndex ops = some idx' ∧ idx'.Inv ∧ idx'.Has (ops.foldl record m) := by
  induction ops generalizing idx m with
  | nil => exact ⟨idx, rfl, h, hm⟩
  | cons op ops ih =>
    obtain ⟨idx₁, hstep, h₁, hm₁⟩ := h.step cellIndex hm hok.1
    obtain ⟨idx₂, hrun, h₂⟩ := ih h₁ hm₁ (hok.2 idx₁ hstep)
    refine ⟨idx₂, ?_, h₂⟩
    rw [run, foldlM_cons, hstep]
    exact hrun

/-- **Positions.** After any run whose operations all meet their condition, a position is found for exactly the entities
inserted and not removed since, and it is the last one given. -/
theorem positions_correct (ops : List (Op P)) (hok : (Index.create P).RunOk cellIndex ops) :
    ∃ idx, (Index.create P).run cellIndex ops = some idx ∧ ∀ id, idx.getPos id = positions ops id := by
  have hinv : (create P).Inv := ⟨HashTable.inv_empty, .nil⟩
  have hempty : (create P).Has fun _ => none := fun _ _ => ⟨nofun, fun ⟨_, he, _⟩ => absurd he not_mem_nil⟩
  obtain ⟨idx, hrun, hinv', hhas⟩ := hinv.run cellIndex hempty hok
  exact ⟨idx, hrun, hinv'.getPos_eq hhas⟩

/-- two entities, one of which moves and is removed -/
def sampleOps : List (Op ℕ) := [.insert 5 30, .insert 7 40, .move 5 31, .remove 5]

theorem sampleOps_ok : (create ℕ).RunOk (fun p => p) sampleOps := by
  have hfive : (5 : EntityId) ≠ 0 := by decide
  have hseven : (7 : EntityId) ≠ 0 := by decide
  refine ⟨hfive, fun idx₁ h₁ => ⟨hseven, fun idx₂ h₂ => ⟨trivial, fun idx₃ h₃ => ⟨?_, fun _ _ => trivial⟩⟩⟩⟩
  cases h₁
  cases h₂
  have hsize : idx₃.hash.size = 256 := by
    cases h₃
    rfl
  have hhome : ∀ i < 256, ((idx₃.hash.slots i).all fun e => home e.1 % 256 = i) = true := by
    cases h₃
    decide +kernel
  intro s _ v _
  apply not_crosses_of_home
  intro i hi k w hslot
  rw [hsize] at hi ⊢
  have := hhome i hi
  rw [hslot] at this
  exact of_decide_eq_true this

theorem positions_sample :
    ∃ idx, (Index.create ℕ).run (fun p => p) sampleOps = some idx ∧ (∀ id, idx.getPos id = positions sampleOps id) ∧
      positions sampleOps 7 = some 40 ∧ positions sampleOps 5 = none := by
  obtain ⟨idx, hrun, hpos⟩ := positions_correct (fun p => p) sampleOps sampleOps_ok
  exact ⟨idx, hrun, hpos, by decide, by decide⟩

/-- entities 1 and 257 have the same home; when 1 is removed, the search for 257 ends at the free slot -/
theorem lost_behind_gap :
    ∃ idx, (Index.create ℕ).run (fun p => p) [.insert 1 10, .insert 257 20, .insert 5 30, .remove 1] = some idx ∧
      idx.getPos 257 = none ∧ positions ([.insert 1 10, .insert 257 20, .insert 5 30, .remove 1] : List (Op ℕ)) 257 =
        some 20 :=
  ⟨_, rfl, by decide, by decide⟩

end Lithos.Spatial
