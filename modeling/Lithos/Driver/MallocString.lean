/-
The counted length of malloc'ed strings (`stralloc.h`, `stralloc.c`).

In front of a string stands its block. A length below 65535 is in the 16 bits of `size`; from there on `size` is 65535 and
`blkend` is the address behind the string. Where the allocator puts a string is an argument of the operation.

Results:
* `counted_strlen_correct`: after every run, each string has the length last given to it.
-/
import Mathlib.Tactic

namespace Lithos.Driver.MallocString

open Function Option

/-- `USHRT_MAX` -/
abbrev ushrtMax : ℕ := 65535

/-- `malloc_block_t` -/
structure Block where
  blkend : Option ℕ
  size : ℕ
  ref : ℕ
  deriving DecidableEq, Repr

open Block

/-- the blocks, by the addresses of their strings -/
abbrev Heap := ℕ → Option Block

/-- the fields that `int_new_string` and `int_extend_string` write for a string at `str` -/
def Block.ofLength (str len ref : ℕ) : Block :=
  if len < ushrtMax then ⟨none, len, ref⟩ else ⟨some (str + len), ushrtMax, ref⟩

/-- `counted_strlen` of the string at `str` -/
def Block.countedStrlen (str : ℕ) (b : Block) : ℕ := if b.size = ushrtMax then b.blkend.elim 0 (· - str) else b.size

/-- the block that `int_string_unlink` writes for the copy at `dst` -/
def Block.copy (str dst : ℕ) (b : Block) : Block :=
  ⟨if b.size = ushrtMax then some (dst + b.countedStrlen str) else none, b.size, 1⟩

/-- the operations; `dst` is the address that the allocator returns -/
inductive Op where
  | newString (dst size : ℕ)
  | extendString (str dst len : ℕ)
  | stringUnlink (str dst : ℕ)
  | updateSize (str len : ℕ)
  /-- `INC_COUNTED_REF`; a count of 0 stays -/
  | incRef (str : ℕ)
  deriving DecidableEq, Repr

/-- an operation on a string that there is, with an address that no other string has -/
def step (heap : Heap) : Op → Option Heap
  | .newString dst size => if heap dst = none then some (update heap dst (Block.ofLength dst size 1)) else none
  | .extendString str dst len =>
    (heap str).bind fun b =>
      if dst = str ∨ heap dst = none then some (update (update heap str none) dst (Block.ofLength dst len b.ref)) else none
  | .stringUnlink str dst =>
    (heap str).bind fun b =>
      if 1 < b.ref ∧ heap dst = none then
        some (update (update heap str (some { b with ref := b.ref - 1 })) dst (some (b.copy str dst)))
      else none
  | .updateSize str len =>
    (heap str).map fun b =>
      update heap str (some ⟨if ushrtMax ≤ len then some (str + len) else none, min len ushrtMax, b.ref⟩)
  | .incRef str =>
    (heap str).map fun b => update heap str (some { b with ref := if b.ref = 0 then 0 else (b.ref + 1) % 2 ^ 16 })

/-- the lengths last given to the strings -/
def give (given : ℕ → Option ℕ) : Op → ℕ → Option ℕ
  | .newString dst size => update given dst size
  | .extendString str dst len => update (update given str none) dst len
  | .stringUnlink str dst => update given dst (given str)
  | .updateSize str len => update given str len
  | .incRef _ => given

/-- a run from a heap without strings -/
def run (ops : List Op) : Option Heap := ops.foldlM step fun _ => none

/-- every string has its length -/
def Counted (heap : Heap) (given : ℕ → Option ℕ) : Prop :=
  ∀ str, (heap str).map (Block.countedStrlen str) = given str

theorem countedStrlen_ofLength (str len ref : ℕ) : (ofLength str len ref).countedStrlen str = len := by
  unfold ofLength countedStrlen
  split_ifs with hlt hmax
  · exact absurd hmax hlt.ne
  · rfl
  · exact Nat.add_sub_cancel_left ..
  · exact absurd rfl ‹_›

variable {heap : Heap} {given : ℕ → Option ℕ}

theorem Counted.set (h : Counted heap given) (str : ℕ) {b : Option Block} {len : Option ℕ}
    (hb : b.map (countedStrlen str) = len) : Counted (update heap str b) (update given str len) := by
  intro x
  by_cases hx : x = str
  · subst hx
    rw [update_self, update_self, hb]
  · rw [update_of_ne hx, update_of_ne hx, h x]

theorem countedStrlen_copy (str dst : ℕ) (b : Block) : (b.copy str dst).countedStrlen dst = b.countedStrlen str := by
  unfold copy
  by_cases hmax : b.size = ushrtMax <;> simp [countedStrlen, hmax]

/-- a change of the block that keeps the length -/
theorem Counted.keep (h : Counted heap given) {str : ℕ} {b b' : Block} (hb : heap str = some b)
    (hlen : b'.countedStrlen str = b.countedStrlen str) :
    Counted (update heap str (some b')) given := by
  rw [← update_eq_self str given]
  refine h.set str ?_
  rw [← h str, hb, map_some, map_some, hlen]

theorem Counted.step {heap' : Heap} (h : Counted heap given) {op : Op}
    (hstep : step heap op = some heap') : Counted heap' (give given op) := by
  cases op with
  | newString dst size =>
    simp only [MallocString.step] at hstep
    split_ifs at hstep
    cases hstep
    exact h.set dst (congrArg some (countedStrlen_ofLength ..))
  | extendString str dst len =>
    obtain ⟨b, -, hstep⟩ := bind_eq_some_iff.1 hstep
    split_ifs at hstep
    cases hstep
    exact (h.set str rfl).set dst (congrArg some (countedStrlen_ofLength ..))
  | stringUnlink str dst =>
    obtain ⟨b, hb, hstep⟩ := bind_eq_some_iff.1 hstep
    split_ifs at hstep with hdst
    cases hstep
    have hkeep : Counted (update heap str (some { b with ref := b.ref - 1 })) given := h.keep hb rfl
    refine hkeep.set dst ?_
    rw [← h str, hb, map_some, map_some, countedStrlen_copy]
  | updateSize str len =>
    obtain ⟨b, -, rfl⟩ := map_eq_some_iff.1 hstep
    refine h.set str (congrArg some ?_)
    unfold countedStrlen
    by_cases hmax : ushrtMax ≤ len
    · simp [hmax]
    · have hlt : len < ushrtMax := not_le.1 hmax
      simp [hlt.le, hlt.ne]
  | incRef str =>
    obtain ⟨b, hb, rfl⟩ := map_eq_some_iff.1 hstep
    exact h.keep hb rfl

/-- **Counted lengths.** After every run of the operations, with lengths of any size, `COUNTED_STRLEN` of every string is
the length last given to it. -/
theorem counted_strlen_correct (ops : List Op) (heap : Heap) (hrun : run ops = some heap) :
    ∀ str, (heap str).map (Block.countedStrlen str) = ops.foldl give (fun _ => none) str := by
  suffices h : ∀ (heap₀ : Heap) given, Counted heap₀ given → ops.foldlM step heap₀ = some heap →
      Counted heap (ops.foldl give given) from h _ _ (fun _ => rfl) hrun
  clear hrun
  induction ops with
  | nil =>
    intro heap₀ given hcounted hrun
    cases hrun
    exact hcounted
  | cons op ops ih =>
    intro heap₀ given hcounted hrun
    obtain ⟨heap₁, hstep, hrest⟩ := bind_eq_some_iff.1 hrun
    exact ih heap₁ _ (hcounted.step hstep) hrest

/-- across the boundary and back, with a copy in between -/
def sampleOps : List Op :=
  [.newString 16 65534, .extendString 16 80000 70000, .incRef 80000, .stringUnlink 80000 900000, .updateSize 900000 65535]

theorem sampleOps_counted : ∃ heap, run sampleOps = some heap ∧
    (heap 80000).map (Block.countedStrlen 80000) = some 70000 ∧
    (heap 900000).map (Block.countedStrlen 900000) = some 65535 := by
  obtain ⟨heap, hrun⟩ : ∃ heap, run sampleOps = some heap := ⟨_, rfl⟩
  have h := counted_strlen_correct sampleOps heap hrun
  exact ⟨heap, hrun, (h 80000).trans rfl, (h 900000).trans rfl⟩

end Lithos.Driver.MallocString
