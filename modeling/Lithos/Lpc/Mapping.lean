/-
LPC mappings (`mapping.c`): a chained hash table with a power-of-two number of buckets that doubles in place when a
fixed share of its buckets is non-empty.

A key is known to the table by its runtime type and by the 64-bit word of its union (`u.number`): the integer itself,
or the address of the shared string, array, object. The hash is that word shifted right by four. Keys and values are
otherwise arbitrary types; the model keeps the node order inside each chain, the `unsigned short` counters and the two
error exits of `find_for_insert`.

Operations: `allocateMapping`, `growMap`, `findForInsert` (and the `store` its caller does through the returned
pointer), `findInMapping`, `mappingDelete`, `copyMapping`.

Results:
- `msameval_left`, `svalueToInt_congr`: on keys that are not reals the key comparison is equality of union words, and
  equal keys hash alike.
- `smear_eq`: a size hint below 65536 is rounded up to a power of two.
- `splitTable_spec`, `growMap_eq`: growth keeps the nodes, puts each in its new bucket, and moves `unfilled` with the
  number of non-empty buckets.
-/
import Mathlib.Data.Nat.Size
import Lithos.Core.ChainTable
import Lithos.Lpc.Types

namespace Lithos.Lpc.Mapping

open Lithos.Core.ChainTable
open List hiding lookup

/-! ## Model -/

/-- what the table reads of a key svalue -/
class MapKey (κ : Type) where
  type : κ → SvType
  word : κ → Int64

open MapKey

/-- a bare key svalue: runtime type and union word -/
structure Key where
  type : SvType
  word : Int64
deriving DecidableEq

instance : MapKey Key := ⟨Key.type, Key.word⟩

def maxTableSize : ℕ := 32768
def mapHashTableSize : ℕ := 8
def fillPercent : ℕ := 80

/-- `mapping_t`; `tableSize` is the bit mask, one less than the number of buckets -/
structure MappingT (κ υ : Type) where
  table : Table κ υ
  tableSize : ℕ
  unfilled : ℕ
  count : ℕ
deriving DecidableEq

/-- how an insertion can fail -/
inductive MapError where
  | outOfMemory
  | tooLarge
deriving DecidableEq, Repr

/-- the value cell `find_for_insert` returns a pointer to -/
structure Slot where
  bucket : ℕ
  index : ℕ
deriving DecidableEq, Repr

/-- `(int)MAP_POINTER_HASH (x)`, as the 32 bits of the `int` -/
def mapPointerHash (w : Int64) : ℕ := ((w.toInt >>> (4 : ℕ)) % 2 ^ 32).toNat

/-- equality of two doubles given by their bits: NaN equals nothing, the two zeros are equal -/
def realEq (a b : Int64) : Bool :=
  let x := a.toBitVec.toNat
  let y := b.toBitVec.toNat
  let isNan (n : ℕ) := 0x7ff0000000000000 < n % 2 ^ 63
  !isNan x && !isNan y && (x == y || (x % 2 ^ 63 == 0 && y % 2 ^ 63 == 0))

variable {κ υ : Type} [MapKey κ]

/-- two keys of type real compare as doubles, all others by their union word -/
def msameval (a b : κ) : Bool :=
  match MapKey.type a, MapKey.type b with
  | .real, .real => realEq (MapKey.word a) (MapKey.word b)
  | _, _ => MapKey.word a == MapKey.word b

/-- `svalue_to_int` of a key whose string, if it is one, is already shared -/
def svalueToInt (k : κ) : ℕ := mapPointerHash (MapKey.word k)

/-- the loop of `growMap` over one chain: nodes with the new hash bit go to the head of `b`, the others stay -/
def splitChain (bit : ℕ) : Chain κ υ → Chain κ υ → ℕ → Chain κ υ × Chain κ υ × ℕ
  | [], b, u => ([], b, u)
  | elt :: rest, b, u =>
    if svalueToInt elt.1 &&& bit ≠ 0 then
      splitChain bit rest (elt :: b) (if b.isEmpty then decUshort u else u)
    else
      let r := splitChain bit rest b u
      (elt :: r.1, r.2.1, r.2.2)

/-- the loop of `growMap` over the old buckets, from the last to the first -/
def splitTable (bit : ℕ) : Table κ υ → ℕ → Table κ υ × Table κ υ × ℕ
  | [], u => ([], [], u)
  | c :: t, u =>
    let r := splitTable bit t u
    if c.isEmpty then ([] :: r.1, [] :: r.2.1, r.2.2)
    else
      let s := splitChain bit c [] r.2.2
      (s.1 :: r.1, s.2.1 :: r.2.1, if s.1.isEmpty then ushort (s.2.2 + 1) else s.2.2)

/-- double the table in place; `none` when it is already at its largest or the memory cannot be had (`oom`) -/
def growMap (oom : Bool) (m : MappingT κ υ) : Option (MappingT κ υ) :=
  let oldsize := m.tableSize + 1
  let newsize := oldsize <<< 1
  if newsize > maxTableSize then none
  else if oom then none
  else
    let r := splitTable oldsize (m.table.take oldsize) (ushort (ushort oldsize * fillPercent / 100))
    some { m with table := r.1 ++ r.2.1, tableSize := ushort (ushort newsize - 1), unfilled := r.2.2 }

/-- all bits below the highest one of a 16-bit number -/
def smear (n : ℕ) : ℕ :=
  let n := n ||| n >>> 1
  let n := n ||| n >>> 2
  let n := n ||| n >>> 4
  if n &&& 0xff00 ≠ 0 then n ||| n >>> 8 else n

/-- `allocate_mapping`; a hint above the size limit is cut to it -/
def allocateMapping (cfg : Config) (n : ℕ) : MappingT κ υ :=
  let n := if n > cfg.maxMappingSize then cfg.maxMappingSize else n
  if n > mapHashTableSize then
    let mask := smear n
    ⟨replicate (mask + 1) [], ushort mask, ushort ((mask + 1) * fillPercent / 100), 0⟩
  else
    ⟨replicate mapHashTableSize [], ushort (mapHashTableSize - 1), ushort (mapHashTableSize * fillPercent / 100), 0⟩

/-- the copy has the same buckets with every chain reversed -/
def copyMapping (m : MappingT κ υ) : MappingT κ υ :=
  { m with table := (m.table.take (m.tableSize + 1)).map List.reverse }

/-- the bucket a key belongs to -/
def bucketOf (m : MappingT κ υ) (k : κ) : ℕ := svalueToInt k &&& m.tableSize

def chainAt (m : MappingT κ υ) (i : ℕ) : Chain κ υ := m.table.getD i []

/-- a counted node at the head of bucket `i` -/
def addNode (zero : υ) (m : MappingT κ υ) (i : ℕ) (lv : κ) : MappingT κ υ :=
  { m with table := m.table.set i ((lv, zero) :: chainAt m i), count := m.count + 1 }

/-- the end of `find_for_insert`: count the node, or find the mapping too large -/
def insertNode (cfg : Config) (zero : υ) (m : MappingT κ υ) (i : ℕ) (lv : κ) : MappingT κ υ × Except MapError Slot :=
  if m.count + 1 > cfg.maxMappingSize then (m, .error .tooLarge) else (addNode zero m i lv, .ok ⟨i, 0⟩)

/-- `find_for_insert`: the mapping afterwards, and the cell found or the error raised -/
def findForInsert (cfg : Config) (zero : υ) (oom : Bool) (m : MappingT κ υ) (lv : κ) :
    MappingT κ υ × Except MapError Slot :=
  let oi := svalueToInt lv
  let i := bucketOf m lv
  match (chainAt m i).findIdx? fun n => msameval lv n.1 with
  | some j => (m, .ok ⟨i, j⟩)
  | none =>
    if (chainAt m i).isEmpty then
      let m1 := { m with unfilled := decUshort m.unfilled }
      if m1.unfilled = 0 then
        let size := m.tableSize + 1
        match growMap oom m1 with
        | some m2 => insertNode cfg zero m2 (if oi &&& size ≠ 0 then i ||| size else i) lv
        | none => (m1, .error .outOfMemory)
      else insertNode cfg zero m1 i lv
    else insertNode cfg zero m i lv

/-- the assignment through the pointer `find_for_insert` returned -/
def store (m : MappingT κ υ) (s : Slot) (v : υ) : MappingT κ υ :=
  { m with table := m.table.modify s.bucket fun c => c.modify s.index fun p => (p.1, v) }

/-- `find_in_mapping`: the value found, or `const0u` -/
def findInMapping (zero : υ) (m : MappingT κ υ) (lv : κ) : υ :=
  (lookup msameval lv (chainAt m (bucketOf m lv))).getD zero

/-- `mapping_delete`: unlink the first node with an equal key -/
def mappingDelete (m : MappingT κ υ) (lv : κ) : MappingT κ υ :=
  let i := bucketOf m lv
  let c := chainAt m i
  if c.any fun n => msameval n.1 lv then
    let c' := c.eraseP fun n => msameval n.1 lv
    { m with table := m.table.set i c', unfilled := if c'.isEmpty then ushort (m.unfilled + 1) else m.unfilled,
             count := m.count - 1 }
  else m

/-- the nodes of a mapping, bucket by bucket -/
def nodes (m : MappingT κ υ) : Chain κ υ := m.table.flatten

/-! ## Keys -/

variable {a b : κ} {c : Chain κ υ}

/-- the key is not a real, so that `msameval` compares union words -/
def NonReal (k : κ) : Prop := MapKey.type k ≠ .real

/-- equality of union words, which is what `msameval` is on keys that are not reals -/
def sameWord (a b : κ) : Bool := MapKey.word a == MapKey.word b

theorem isEquiv_sameWord : IsEquiv (sameWord (κ := κ)) where
  refl a := by simp [sameWord]
  symm a b h := by simp only [sameWord, beq_iff_eq] at h ⊢; exact h.symm
  trans a b c h1 h2 := by simp only [sameWord, beq_iff_eq] at h1 h2 ⊢; exact h1.trans h2

theorem msameval_left (h : NonReal a) (b : κ) : msameval a b = sameWord a b := by
  unfold msameval sameWord NonReal at *
  split
  · contradiction
  · rfl

theorem msameval_right (a : κ) (h : NonReal b) : msameval a b = sameWord a b := by
  unfold msameval sameWord NonReal at *
  split
  · contradiction
  · rfl

theorem svalueToInt_congr (h : sameWord a b = true) : svalueToInt a = svalueToInt b := by
  simp only [sameWord, beq_iff_eq] at h
  simp only [svalueToInt, h]

theorem lookup_word (h : ∀ p ∈ c, NonReal p.1) (k : κ) : lookup msameval k c = lookup sameWord k c := by
  induction c with
  | nil => rfl
  | cons p c ih =>
    have hp := msameval_left (h p (by simp)) k
    simp only [lookup, hp, ih fun q hq => h q (.tail _ hq)]

theorem distinct_word (h : ∀ p ∈ c, NonReal p.1) : Distinct msameval c ↔ Distinct sameWord c := by
  induction c with
  | nil => simp [Distinct]
  | cons p c ih =>
    have hc := ih fun q hq => h q (.tail _ hq)
    have hp := fun q : κ × υ => msameval_left (h p (by simp)) q.1
    simp only [Distinct, pairwise_cons, hp] at hc ⊢
    exact and_congr_right fun _ => hc

/-! ## Sizes -/

theorem and_bit (h j : ℕ) : h &&& 2 ^ j ≠ 0 ↔ h.testBit j = true := by
  constructor
  · intro hne
    by_contra hb
    refine hne (Nat.eq_of_testBit_eq fun i => ?_)
    by_cases hij : j = i
    · subst hij; simpa using hb
    · simp [hij]
  · intro hb h0
    have := congrArg (fun n => n.testBit j) h0
    simp [Nat.testBit_and, hb] at this

/-- the masked hash after doubling: the old one, plus the old size when the new bit is set -/
theorem mod_double (h j : ℕ) : h % 2 ^ (j + 1) = h % 2 ^ j + if h &&& 2 ^ j ≠ 0 then 2 ^ j else 0 := by
  have hdiv : h % 2 ^ (j + 1) = h % 2 ^ j + 2 ^ j * (h / 2 ^ j % 2) := by rw [pow_succ, Nat.mod_mul]
  have hb : h.testBit j = decide (h / 2 ^ j % 2 = 1) := Nat.testBit_eq_decide_div_mod_eq
  rw [hdiv]
  by_cases hbit : h / 2 ^ j % 2 = 1
  · rw [if_pos ((and_bit h j).2 (by simp [hb, hbit])), hbit, mul_one]
  · have h0 : h / 2 ^ j % 2 = 0 := by omega
    rw [if_neg (mt (and_bit h j).1 (by simp [hb, h0])), h0, mul_zero]

/-- `m` has bit `i` exactly when `n` has one of the `w` bits from `i` on -/
def Smears (w n m : ℕ) : Prop := ∀ i, m.testBit i = true ↔ ∃ d < w, n.testBit (i + d) = true

theorem smears_one (n : ℕ) : Smears 1 n n := by
  intro i
  constructor
  · intro h; exact ⟨0, by omega, h⟩
  · rintro ⟨d, hd, h⟩
    obtain rfl : d = 0 := by omega
    exact h

variable {n m : ℕ}

theorem Smears.step {w s : ℕ} (h : Smears w n m) (hs : s ≤ w) : Smears (w + s) n (m ||| m >>> s) := by
  intro i
  rw [Nat.testBit_or, Nat.testBit_shiftRight, Bool.or_eq_true, h i, h (s + i)]
  constructor
  · rintro (⟨d, hd, hb⟩ | ⟨d, hd, hb⟩)
    · exact ⟨d, by omega, hb⟩
    · exact ⟨s + d, by omega, by rwa [show i + (s + d) = s + i + d by omega]⟩
  · rintro ⟨d, hd, hb⟩
    by_cases hdw : d < w
    · exact .inl ⟨d, hdw, hb⟩
    · exact .inr ⟨d - s, by omega, by rwa [show s + i + (d - s) = i + d by omega]⟩

theorem bit_lt_sixteen {i : ℕ} (h : n < 65536) (hb : n.testBit i = true) : i < 16 := by
  by_contra hi
  have : 2 ^ 16 ≤ 2 ^ i := Nat.pow_le_pow_right (by omega) (by omega)
  have := Nat.ge_two_pow_of_testBit hb
  omega

/-- the guard of the last step only skips it when it would add nothing -/
theorem smear_guard (h : n < 65536) (hm : Smears 8 n m) (hc : m &&& 0xff00 = 0) : m >>> 8 = 0 := by
  refine Nat.eq_of_testBit_eq fun i => ?_
  by_contra hb
  have hb : m.testBit (8 + i) = true := by simpa using hb
  obtain ⟨d, -, hd⟩ := (hm (8 + i)).1 hb
  have hi : i < 8 := by have := bit_lt_sixteen h hd; omega
  have hmask : (0xff00 : ℕ).testBit (8 + i) = true := by interval_cases i <;> decide
  have := congrArg (fun x => x.testBit (8 + i)) hc
  simp [Nat.testBit_and, hb, hmask] at this

/-- for a 16-bit number `smear` sets every bit up to the highest one -/
theorem smear_eq (h : n < 65536) : smear n = 2 ^ n.size - 1 := by
  have h8 : Smears 8 n _ :=
    (((smears_one n).step (s := 1) (by omega)).step (s := 2) (by omega)).step (s := 4) (by omega)
  have h16 : Smears 16 n (smear n) := by
    unfold smear
    simp only
    split_ifs with hc
    · exact h8.step (by omega)
    · have := h8.step (s := 8) (by omega)
      rwa [smear_guard h h8 (by simpa using hc), Nat.or_zero] at this
  refine Nat.eq_of_testBit_eq fun i => ?_
  rw [Nat.testBit_two_pow_sub_one, Bool.eq_iff_iff, h16 i, decide_eq_true_eq, Nat.lt_size]
  constructor
  · rintro ⟨d, -, hb⟩
    calc 2 ^ i ≤ 2 ^ (i + d) := Nat.pow_le_pow_right (by omega) (by omega)
      _ ≤ n := Nat.ge_two_pow_of_testBit hb
  · intro hi
    obtain ⟨j, hj, hb⟩ := Nat.exists_ge_and_testBit_of_ge_two_pow hi
    have := bit_lt_sixteen h hb
    exact ⟨j - i, by omega, by rwa [show i + (j - i) = j by omega]⟩

/-! ## Growing -/

section Grow

variable {j : ℕ} {m : MappingT κ υ} (bit : ℕ)

/-- the node moves to the upper half when the table doubles from `bit` buckets -/
def moves (bit : ℕ) (p : κ × υ) : Bool := decide (svalueToInt p.1 &&& bit ≠ 0)

theorem splitChain_eq (c b : Chain κ υ) (u : ℕ) :
    splitChain bit c b u = (c.filter fun p => !moves bit p, (c.filter (moves bit)).reverse ++ b,
      if b.isEmpty && c.any (moves bit) then decUshort u else u) := by
  induction c generalizing b u with
  | nil => simp [splitChain]
  | cons e c ih =>
    unfold splitChain
    by_cases h : svalueToInt e.1 &&& bit ≠ 0
    · have hm : moves bit e = true := by simp [moves, h]
      rw [if_pos h, ih]
      cases b <;> simp [hm]
    · have hm : moves bit e = false := by simpa [moves] using h
      rw [if_neg h, ih]
      simp only [filter_cons, any_cons, hm, Bool.not_false, ↓reduceIte, Bool.false_eq_true, Bool.false_or]

/-- what one non-empty bucket adds to the non-empty buckets of the two halves -/
theorem filter_split_filled {c : Chain κ υ} (hc : c ≠ []) :
    (c.filter fun p => !moves bit p) ≠ [] ∨ c.any (moves bit) = true := by
  by_contra hne
  push Not at hne
  obtain ⟨h1, h2⟩ := hne
  obtain ⟨p, hp⟩ := exists_mem_of_ne_nil c hc
  have hm : moves bit p = false := by
    have := (any_eq_false.1 (by simpa using h2)) p hp
    simpa using this
  have : p ∈ c.filter fun p => !moves bit p := mem_filter.2 ⟨hp, by simp [hm]⟩
  rw [h1] at this
  simp at this

/-- the two halves hold the nodes of the old buckets, and `unfilled` follows the number of non-empty buckets -/
theorem splitTable_spec (t : Table κ υ) (u : ℕ) (hu : u < 65536) (hf : filled t ≤ u) :
    (splitTable bit t u).1 = t.map (fun c => c.filter fun p => !moves bit p) ∧
    (splitTable bit t u).2.1 = t.map (fun c => (c.filter (moves bit)).reverse) ∧
    (splitTable bit t u).2.2 ≤ u ∧
    (splitTable bit t u).2.2 + (filled (splitTable bit t u).1 + filled (splitTable bit t u).2.1) = u + filled t ∧
    u ≤ (splitTable bit t u).2.2 + filled t := by
  induction t with
  | nil => simp [splitTable, filled]
  | cons c t ih =>
    rw [filled_cons] at hf
    obtain ⟨h1, h2, h3, h4, h5⟩ := ih (by omega)
    unfold splitTable
    cases c with
    | nil => simp_all [filled_cons]
    | cons e c =>
      have hne := filter_split_filled bit (c := e :: c) (by simp)
      generalize hc : e :: c = d at *
      have hd : d.isEmpty = false := by rw [← hc]; rfl
      have hlt : (splitTable bit t u).2.2 < 65536 := by omega
      have hpos : 0 < (splitTable bit t u).2.2 := by simp [hd] at hf; omega
      simp only [hd, Bool.false_eq_true, ↓reduceIte, splitChain_eq, isEmpty_nil, Bool.true_and,
        append_nil, filled_cons, map_cons, h1, h2, isEmpty_reverse, true_and] at *
      by_cases hany : d.any (moves bit) = true
      · have hfil : (d.filter (moves bit)).isEmpty = false := by
          simpa [isEmpty_eq_false_iff, filter_eq_nil_iff] using hany
        simp only [hany, ↓reduceIte, hfil, Bool.false_eq_true, decUshort_of_pos hpos hlt]
        by_cases hlo : (d.filter fun p => !moves bit p).isEmpty = true
        · simp only [hlo, ↓reduceIte]
          rw [ushort_of_lt (by omega)]
          omega
        · simp only [hlo, ↓reduceIte, Bool.false_eq_true]
          omega
      · have hfil : (d.filter (moves bit)).isEmpty = true := by
          simpa [filter_eq_nil_iff] using hany
        have hlo : (d.filter fun p => !moves bit p).isEmpty = false := by
          simpa [hany] using hne
        simp only [hany, Bool.false_eq_true, ↓reduceIte, hfil, hlo]
        omega

/-- the two halves together hold the old nodes, in another order -/
theorem split_perm (t : Table κ υ) : ((t.map fun c => c.filter fun p => !moves bit p).flatten ++
      (t.map fun c => (c.filter (moves bit)).reverse).flatten).Perm t.flatten := by
  induction t with
  | nil => simp
  | cons c t ih =>
    have hc : ((c.filter fun p => !moves bit p) ++ (c.filter (moves bit)).reverse).Perm c :=
      ((reverse_perm _).append_left _).trans (perm_append_comm.trans (filter_append_perm (moves bit) c))
    have hmid : ∀ a b c d : Chain κ υ, (a ++ b ++ (c ++ d)).Perm (a ++ c ++ (b ++ d)) := by
      intro a b c d
      simp only [append_assoc]
      refine List.Perm.append_left _ ?_
      simp only [← append_assoc]
      exact perm_append_comm.append_right _
    exact (hmid _ _ _ _).trans (hc.append ih)

/-- after the split every node sits in the bucket its hash names in the doubled table -/
theorem split_placed {t : Table κ υ} (hlen : t.length = 2 ^ j) (hp : Placed (fun k => svalueToInt k % 2 ^ j) t) :
    Placed (fun k => svalueToInt k % 2 ^ (j + 1))
      ((t.map fun c => c.filter fun p => !moves (2 ^ j) p) ++ t.map fun c => (c.filter (moves (2 ^ j))).reverse) := by
  intro i d hd p hpd
  rw [getElem?_append] at hd
  simp only [length_map, getElem?_map, mod_double] at hd ⊢
  split_ifs at hd with hi
  · obtain ⟨c, hc, rfl⟩ := Option.map_eq_some_iff.1 hd
    obtain ⟨hpc, hm⟩ := mem_filter.1 hpd
    have hold := hp i c hc p hpc
    simp only [moves, Bool.not_eq_true', decide_eq_false_iff_not] at hm
    simp only at hold
    rw [if_neg hm, hold, add_zero]
  · obtain ⟨c, hc, rfl⟩ := Option.map_eq_some_iff.1 hd
    obtain ⟨hpc, hm⟩ := mem_filter.1 (mem_reverse.1 hpd)
    have hold := hp _ c hc p hpc
    simp only [moves, decide_eq_true_eq] at hm
    simp only at hold
    rw [if_pos hm]
    omega

/-- what the table looks like after growing from `2 ^ j` buckets -/
def grown (j : ℕ) (m : MappingT κ υ) : MappingT κ υ :=
  { m with table := (m.table.map fun c => c.filter fun p => !moves (2 ^ j) p) ++
             m.table.map fun c => (c.filter (moves (2 ^ j))).reverse
           tableSize := 2 ^ (j + 1) - 1
           unfilled := (splitTable (2 ^ j) m.table (2 ^ j * fillPercent / 100)).2.2 }

theorem growMap_eq (hj : j < 15) (hmask : m.tableSize = 2 ^ j - 1) (hlen : m.table.length = 2 ^ j)
    (hf : filled m.table ≤ 2 ^ j * fillPercent / 100) :
    growMap false m = some (grown j m) := by
  have hpow : 2 ^ j ≤ 2 ^ 14 := Nat.pow_le_pow_right (by omega) (by omega)
  have hpos : 0 < 2 ^ j := Nat.two_pow_pos j
  have hold : m.tableSize + 1 = 2 ^ j := by omega
  have hnew : 2 ^ j <<< 1 = 2 ^ (j + 1) := by rw [Nat.shiftLeft_eq]; rfl
  have hu : 2 ^ j * fillPercent / 100 < 65536 := by simp only [fillPercent]; omega
  have hshare : ushort (ushort (2 ^ j) * fillPercent / 100) = 2 ^ j * fillPercent / 100 := by
    rw [ushort_of_lt (by omega : 2 ^ j < 65536), ushort_of_lt hu]
  obtain ⟨h1, h2, -⟩ := splitTable_spec (2 ^ j) m.table (2 ^ j * fillPercent / 100) hu hf
  unfold growMap grown
  have htake : m.table.take (2 ^ j) = m.table := by rw [← hlen, take_length]
  simp only [hold, hnew, hshare, htake]
  rw [if_neg (by simp only [maxTableSize]; omega), if_neg (by simp), h1, h2,
    ushort_of_lt (by omega : 2 ^ (j + 1) < 65536), ushort_of_lt (by omega : 2 ^ (j + 1) - 1 < 65536)]

theorem grown_share (hj : j < 15) (hf : filled m.table ≤ 2 ^ j * fillPercent / 100) :
    (grown j m).unfilled + filled (grown j m).table = 2 ^ j * fillPercent / 100 + filled m.table ∧
      2 ^ j * fillPercent / 100 ≤ (grown j m).unfilled + filled m.table := by
  have hpow : 2 ^ j ≤ 2 ^ 14 := Nat.pow_le_pow_right (by omega) (by omega)
  obtain ⟨h1, h2, -, h4, h5⟩ := splitTable_spec (2 ^ j) m.table (2 ^ j * fillPercent / 100)
    (by simp only [fillPercent]; omega) hf
  refine ⟨?_, h5⟩
  rw [h1, h2] at h4
  simpa only [grown, filled, countP_append] using h4

/-- a bucket that was empty is empty in both halves -/
theorem grown_empty {i : ℕ} (hlen : m.table.length = 2 ^ j) (hi : i < 2 ^ j)
    (he : chainAt m i = []) : chainAt (grown j m) i = [] ∧ chainAt (grown j m) (i + 2 ^ j) = [] := by
  have hc : m.table[i]? = some [] := by
    rw [chainAt, getD_eq_getElem?_getD] at he
    rw [getElem?_eq_getElem (by omega)] at he ⊢
    simpa using he
  constructor
  · rw [chainAt, grown, getD_eq_getElem?_getD, getElem?_append_left (by simpa [hlen] using hi)]
    simp [getElem?_map, hc]
  · simp [chainAt, grown, getD_eq_getElem?_getD, getElem?_append, hlen, hc]

end Grow

/-! ## Insertions that fail -/

variable {m : MappingT κ υ}

/-- growing changes the size of the table -/
theorem tableSize_growMap {oom : Bool} {m' : MappingT κ υ} (h : growMap oom m = some m') :
    m'.tableSize ≠ m.tableSize := by
  unfold growMap at h
  dsimp only at h
  split_ifs at h with hmax hoom
  cases h
  have hsize : (m.tableSize + 1) <<< 1 = 2 * (m.tableSize + 1) := by omega
  simp only [maxTableSize, hsize] at hmax
  show ushort (ushort ((m.tableSize + 1) <<< 1) - 1) ≠ m.tableSize
  rw [hsize, ushort_of_lt (n := 2 * (m.tableSize + 1)) (by omega), ushort_of_lt (by omega)]
  omega

omit [MapKey κ] in
/-- a node that is one too many leaves the mapping as it is handed to `insertNode` -/
theorem insertNode_error {cfg : Config} {zero : υ} {i : ℕ} {lv : κ} {err : MapError}
    (h : (insertNode cfg zero m i lv).2 = .error err) : (insertNode cfg zero m i lv).1 = m := by
  unfold insertNode at h ⊢
  split_ifs at h ⊢
  rfl

/-- **A failed insertion.** If `find_for_insert` raises an error, the mapping is unchanged exactly if the bucket of the
key was not empty: for an empty one `unfilled` is counted down, and the table may grow, before the error is found. -/
theorem failed_insert_unchanged_iff (cfg : Config) (zero : υ) (oom : Bool) (m : MappingT κ υ) (lv : κ) (err : MapError)
    (h : (findForInsert cfg zero oom m lv).2 = .error err) :
    (findForInsert cfg zero oom m lv).1 = m ↔ chainAt m (bucketOf m lv) ≠ [] := by
  unfold findForInsert at h ⊢
  dsimp only at h ⊢
  cases hidx : (chainAt m (bucketOf m lv)).findIdx? fun n => msameval lv n.1 with
  | some j =>
    rw [hidx] at h
    cases h
  | none =>
    rw [hidx] at h
    by_cases hem : (chainAt m (bucketOf m lv)).isEmpty = true
    · have hnil : chainAt m (bucketOf m lv) = [] := isEmpty_iff.1 hem
      have hunfilled : ({ m with unfilled := decUshort m.unfilled } : MappingT κ υ) ≠ m := by
        intro heq
        have hu := congrArg MappingT.unfilled heq
        dsimp only [decUshort, ushort] at hu
        omega
      rw [if_pos hem] at h ⊢
      refine iff_of_false ?_ (not_not.2 hnil)
      by_cases hzero : decUshort m.unfilled = 0
      · rw [if_pos hzero] at h ⊢
        cases hgrow : growMap oom { m with unfilled := decUshort m.unfilled } with
        | none => exact hunfilled
        | some m2 =>
          rw [hgrow] at h
          rw [insertNode_error h]
          intro heq
          rw [heq] at hgrow
          exact tableSize_growMap hgrow rfl
      · rw [if_neg hzero] at h ⊢
        rw [insertNode_error h]
        exact hunfilled
    · rw [if_neg hem] at h ⊢
      refine iff_of_true (insertNode_error h) ?_
      intro hnil
      exact hem (isEmpty_iff.2 hnil)

/-- a mapping with one node, in bucket 0 -/
def oneNode : MappingT Key ℕ := ⟨[[(⟨.number, 0⟩, 5)], [], [], [], [], [], [], []], 7, 5, 1⟩

/-- a second node for bucket 0 is one too many -/
theorem oneNode_unchanged :
    (findForInsert { Config.default with maxMappingSize := 1 } 0 false oneNode ⟨.number, 1⟩).2 = .error .tooLarge ∧
      (findForInsert { Config.default with maxMappingSize := 1 } 0 false oneNode ⟨.number, 1⟩).1 = oneNode :=
  ⟨by decide, (failed_insert_unchanged_iff _ 0 false oneNode ⟨.number, 1⟩ .tooLarge (by decide)).2 (by decide)⟩

/-- **A node for an empty bucket.** It is refused for the size of the mapping, and `unfilled` has changed. -/
theorem unfilled_lost :
    (findForInsert { Config.default with maxMappingSize := 1 } 0 false oneNode ⟨.number, 16⟩).2 = .error .tooLarge ∧
      (findForInsert { Config.default with maxMappingSize := 1 } 0 false oneNode ⟨.number, 16⟩).1 =
        { oneNode with unfilled := 4 } := by
  decide

end Lithos.Lpc.Mapping
