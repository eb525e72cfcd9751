/-
The table of object names (`otable.c`).

An object hangs in the chain of the hash of its name. Every search brings the object it finds to the head of its chain,
and `remove_object_hash` relies on that: it makes what follows the object the new chain.

Results:
* `find_object_by_name_correct`: whatever was entered, removed and looked up before, any spelling of a name finds the
  live object of that name or nothing.
* `stranger_removed`: removing an object that is not in the table loses the chain it would be in.
-/
import Lithos.Driver.Stralloc

namespace Lithos.Lpc.Otable

open Lithos.Core.ChainTable Lithos.Driver.Stralloc List Option

/-! ## Names -/

/-- the copying loop of `make_otable_name`, with room for `room` bytes; `none` for a double slash -/
def copyName (lastC : Byte) : List Byte → ℕ → Option (List Byte)
  | [], _ => some []
  | _ :: _, 0 => some []
  | c :: src, room + 1 => if lastC = 47 ∧ c = 47 then none else (copyName c src room).map (c :: ·)

/-- taking `.c` off, as long as something is left, from a name written backwards -/
def stripC : List Byte → List Byte
  | 99 :: 46 :: c :: s => stripC (c :: s)
  | s => s

/-- `make_otable_name`, for the bytes before the terminator of `src` -/
def makeOtableName (src : List Byte) (size : ℕ) : Option (List Byte) :=
  (copyName 0 (src.dropWhile (· = 47)) (size - 1)).map fun s => (stripC s.reverse).reverse

/-! ## The table -/

/-- the name and the address of an object -/
abbrev Obj := List Byte × ℕ

/-- the chains of `obj_table` -/
abbrev Chains := Table (List Byte) ℕ

/-- `init_otable`, for sizes that an `int` can double up to -/
def initOtable (sz : ℕ) : Chains := replicate sz.nextPowerOfTwo []

/-- `ObjHash` -/
def objHash (otableSize : ℕ) (s : List Byte) : ℕ := whashstr s 40 &&& (otableSize - 1)

/-- `find_obj_n` -/
def findObjN (t : Chains) (s : List Byte) : Option Obj × Chains := search (·.1 = s) (objHash t.length s) t

/-- `enter_object_hash` -/
def enterObjectHash (t : Chains) (ob : Obj) : Chains :=
  match findObjN t ob.1 with
  | (none, t) => t.set (objHash t.length ob.1) (ob :: t.getD (objHash t.length ob.1) [])
  | (some _, t) => t

/-- `remove_object_hash`; nothing follows an object that is in no chain -/
def removeObjectHash (t : Chains) (ob : Obj) : Chains :=
  let t := (findObjN t ob.1).2
  t.set (objHash t.length ob.1) ((t.getD (objHash t.length ob.1) []).dropWhile (· ≠ ob)).tail

/-- `lookup_object_hash` -/
def lookupObjectHash (t : Chains) (s : List Byte) : Option Obj × Chains := findObjN t s

/-- `find_object_by_name`, with a buffer of `size` bytes for the name -/
def findObjectByName (t : Chains) (str : List Byte) (size : ℕ) : Option Obj :=
  (makeOtableName str size).bind fun s => (lookupObjectHash t s).1

/-! ## Runs -/

inductive Op where
  | enter (ob : Obj)
  | remove (ob : Obj)
  | lookup (s : List Byte)

def step (t : Chains) : Op → Chains
  | .enter ob => enterObjectHash t ob
  | .remove ob => removeObjectHash t ob
  | .lookup s => (lookupObjectHash t s).2

/-- the objects that were entered and not removed since -/
def after (live : List Obj) : Op → List Obj
  | .enter ob => live.insert ob
  | .remove ob => live.erase ob
  | .lookup _ => live

/-- live objects keep different names, and only they are removed -/
def Legal (live : List Obj) : List Op → Prop
  | [] => True
  | .enter ob :: ops => (∀ o ∈ live, o.1 = ob.1 → o = ob) ∧ Legal (live.insert ob) ops
  | .remove ob :: ops => ob ∈ live ∧ Legal (live.erase ob) ops
  | .lookup _ :: ops => Legal live ops

/-- the table has the live objects, each in the chain of its name -/
structure Holds (t : Chains) (live : List Obj) : Prop where
  perm : t.flatten.Perm live
  placed : Placed (objHash t.length) t
  names : (live.map Prod.fst).Nodup
  nonempty : 0 < t.length

variable {t : Chains} {live : List Obj} {ob : Obj}

namespace Holds

section

variable (h : Holds t live)
include h

theorem objHash_lt (s : List Byte) : objHash t.length s < t.length := by
  have hle : objHash t.length s ≤ t.length - 1 := Nat.and_le_right
  have := h.nonempty
  omega

theorem findObjN_iff (s : List Byte) : (findObjN t s).1 = some ob ↔ ob ∈ live ∧ ob.1 = s := by
  have hnames : (t.flatten.map Prod.fst).Nodup := (h.perm.map _).nodup_iff.2 h.names
  rw [findObjN, search_eq_some h.placed (h.objHash_lt s) hnames (by simp), h.perm.mem_iff]

theorem findObjN (s : List Byte) : Holds (findObjN t s).2 live where
  perm := (search_perm (h.objHash_lt s)).trans h.perm
  placed := by
    rw [Otable.findObjN, length_search]
    exact placed_search h.placed (h.objHash_lt s)
  names := h.names
  nonempty := by
    rw [Otable.findObjN, length_search]
    exact h.nonempty

/-- another chain for a name -/
theorem set {s : List Byte} {d : List Obj} {live' : List Obj}
    (hperm : (t.set (objHash t.length s) d).flatten.Perm live') (hnames : (live'.map Prod.fst).Nodup)
    (hd : ∀ o ∈ d, o ∈ t.getD (objHash t.length s) [] ∨ o.1 = s) : Holds (t.set (objHash t.length s) d) live' where
  perm := hperm
  placed := by
    rw [length_set]
    refine placed_set h.placed fun o ho => ?_
    rcases hd o ho with hmem | rfl
    · exact ((mem_getD_iff h.placed (h.objHash_lt s)).1 hmem).2
    · rfl
  names := hnames
  nonempty := by
    rw [length_set]
    exact h.nonempty

theorem enter (hsame : ∀ o ∈ live, o.1 = ob.1 → o = ob) : Holds (enterObjectHash t ob) (live.insert ob) := by
  have hfound : ∀ o, (Otable.findObjN t ob.1).1 = some o ↔ o ∈ live ∧ o.1 = ob.1 := fun _ => h.findObjN_iff _
  have h' := h.findObjN ob.1
  unfold enterObjectHash
  revert hfound h'
  rcases Otable.findObjN t ob.1 with ⟨_ | o, t⟩ <;> intro hfound h'
  · have hnew : ∀ o ∈ live, o.1 ≠ ob.1 := fun o ho heq => by simpa using (hfound o).2 ⟨ho, heq⟩
    rw [insert_of_not_mem fun hmem => hnew ob hmem rfl]
    refine h'.set ?_ ?_ ?_
    · have hcons : (ob :: t.getD (objHash t.length ob.1) []).Perm ([ob] ++ t.getD (objHash t.length ob.1) []) :=
        List.Perm.refl _
      exact (set_flatten_perm (getElem?_getD (h'.objHash_lt _)) hcons).trans (h'.perm.cons ob)
    · refine nodup_cons.2 ⟨fun hmem => ?_, h.names⟩
      obtain ⟨o, ho, heq⟩ := mem_map.1 hmem
      exact hnew o ho heq
    · exact forall_mem_cons.2 ⟨.inr rfl, fun o ho => .inl ho⟩
  · obtain ⟨ho, heq⟩ := (hfound o).1 rfl
    rw [insert_of_mem (hsame o ho heq ▸ ho)]
    exact h'

/-- the search has brought the object to the head, so what follows it is the rest of the chain -/
theorem remove (hob : ob ∈ live) : Holds (removeObjectHash t ob) (live.erase ob) := by
  have hfound := (h.findObjN_iff ob.1).2 ⟨hob, rfl⟩
  have hlt := h.objHash_lt ob.1
  simp only [Otable.findObjN, search] at hfound
  split at hfound
  · simp at hfound
  next o hfind =>
  obtain rfl : o = ob := by simpa using hfound
  have hcons := (front_perm hfind).symm
  have hset := set_flatten_cons hlt hcons
  rw [set_getD hlt] at hset
  have hfront : (Otable.findObjN t o.1).2 =
      t.set (objHash t.length o.1) (o :: (t.getD (objHash t.length o.1) []).eraseP (·.1 = o.1)) := by
    simp only [Otable.findObjN, search, hfind]
  have htable : removeObjectHash t o =
      t.set (objHash t.length o.1) ((t.getD (objHash t.length o.1) []).eraseP (·.1 = o.1)) := by
    rw [removeObjectHash, hfront]
    simp [hlt]
  rw [htable]
  refine h.set ?_ ?_ fun p hp => .inl (mem_of_mem_eraseP hp)
  · have hrest := (h.perm.symm.trans hset).erase o
    rw [erase_cons_head] at hrest
    exact hrest.symm
  · exact h.names.sublist (erase_sublist.map _)

end

theorem init (sz : ℕ) : Holds (initOtable sz) [] where
  perm := by simp [initOtable]
  placed := by
    intro i c hc o ho
    rw [initOtable, getElem?_replicate] at hc
    split_ifs at hc
    simp_all
  names := nodup_nil
  nonempty := by
    rw [initOtable, length_replicate]
    exact Nat.pos_of_isPowerOfTwo (Nat.isPowerOfTwo_nextPowerOfTwo sz)

theorem run (h : Holds t live) {ops : List Op} (hlegal : Legal live ops) :
    Holds (ops.foldl step t) (ops.foldl after live) := by
  induction ops generalizing t live with
  | nil => exact h
  | cons op ops ih =>
    cases op with
    | enter ob => exact ih (h.enter hlegal.1) hlegal.2
    | remove ob => exact ih (h.remove hlegal.1) hlegal.2
    | lookup s => exact ih (h.findObjN s) hlegal

end Holds

/-- **A name finds its object.** -/
theorem find_object_by_name_correct {sz : ℕ} {ops : List Op} (h : Legal [] ops) (str : List Byte) (size : ℕ) (ob : Obj) :
    findObjectByName (ops.foldl step (initOtable sz)) str size = some ob ↔
      ob ∈ ops.foldl after [] ∧ makeOtableName str size = some ob.1 := by
  have hall := (Holds.init sz).run h
  unfold findObjectByName lookupObjectHash
  cases makeOtableName str size with
  | none => simp
  | some s => rw [bind_some, hall.findObjN_iff, some_inj, eq_comm (a := ob.1)]

theorem box_found : findObjectByName ([.enter ([98], 1), .enter ([99], 2), .lookup [98], .remove ([99], 2)].foldl step
    (initOtable 1)) [47, 98, 46, 99] 20 = some ([98], 1) := by
  have hlegal : Legal [] [.enter ([98], 1), .enter ([99], 2), .lookup [98], .remove ([99], 2)] := by simp [Legal]
  exact (find_object_by_name_correct hlegal _ _ _).2 (by decide)

theorem stranger_removed : [.enter ([98], 1), .remove ([99], 2)].foldl after [] = [([98], 1)] ∧
    findObjectByName ([.enter ([98], 1), .remove ([99], 2)].foldl step (initOtable 1)) [98] 20 = none := by
  decide +kernel

end Lithos.Lpc.Otable
