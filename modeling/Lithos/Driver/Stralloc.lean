/-
The shared-string table (`stralloc.c`, hashing in `hash.c`).

A shared string is kept once: `make_shared_string` looks its bytes up in a chained hash table and only allocates a block
when there is none. A block has a 16-bit count of references. When the count overflows it is 0, and the string stays for
good. A lookup moves the block it finds to the front of its chain.

A ledger follows what callers do: how many references to each pointer they have not freed, and the most there ever were.
What a run keeps is said about the blocks of all chains in any order (`Sound`), so moving blocks about does not matter.

Results:
* `shared_strings_correct`: in every state of a legal run one block for each content, a block for every reference not
  freed, the exact count or 0, and lookups that find exactly the blocks that live.
* `empty_span_not_found`: except for the empty span, for which `findstring` does not look.
-/
import Lithos.Core.ChainTable
import Lithos.Lpc.Types

namespace Lithos.Driver.Stralloc

open Lithos.Core.ChainTable List Option Function
open Lithos.Lpc (Byte)

/-! ## Hashing -/

def T : List ℕ :=
  [1, 87, 49, 12, 176, 178, 102, 166, 121, 193, 6, 84, 249, 230, 44, 163, 14, 197, 213, 181, 161, 85, 218, 80, 64,
   239, 24, 226, 236, 142, 38, 200, 110, 177, 104, 103, 141, 253, 255, 50, 77, 101, 81, 18, 45, 96, 31, 222, 25, 107,
   190, 70, 86, 237, 240, 34, 72, 242, 20, 214, 244, 227, 149, 235, 97, 234, 57, 22, 60, 250, 82, 175, 208, 5, 127,
   199, 111, 62, 135, 248, 174, 169, 211, 58, 66, 154, 106, 195, 245, 171, 17, 187, 182, 179, 0, 243, 132, 56, 148,
   75, 128, 133, 158, 100, 130, 126, 91, 13, 153, 246, 216, 219, 119, 68, 223, 78, 83, 88, 201, 99, 122, 11, 92, 32,
   136, 114, 52, 10, 138, 30, 48, 183, 156, 35, 61, 26, 143, 74, 251, 94, 129, 162, 63, 152, 170, 7, 115, 167, 241,
   206, 3, 150, 55, 59, 151, 220, 90, 53, 23, 131, 125, 173, 15, 238, 79, 95, 89, 16, 105, 137, 225, 224, 217, 160,
   37, 123, 118, 73, 2, 157, 46, 116, 9, 145, 134, 228, 207, 212, 202, 215, 69, 229, 27, 188, 67, 124, 168, 252, 42,
   4, 29, 108, 21, 247, 19, 205, 39, 203, 233, 40, 186, 147, 198, 192, 155, 33, 164, 191, 98, 204, 165, 180, 117, 76,
   140, 36, 210, 172, 41, 54, 159, 8, 185, 232, 113, 196, 231, 47, 146, 120, 51, 65, 28, 144, 254, 221, 93, 189, 194,
   139, 112, 43, 71, 109, 184, 209]

/-- `whashstr` of a span: the first `maxn` bytes count -/
def whashstr (s : List Byte) (maxn : ℕ) : ℕ :=
  match s with
  | [] => 0
  | c :: s =>
    if maxn = 0 then 0
    else
      let round (h : ℕ) (c : Byte) : ℕ := T.getD (h ^^^ c.toNat) 0
      let oh := (s.take (maxn - 1)).foldl round (T.getD c.toNat 0)
      let h := (s.take (maxn - 1)).foldl round ((c.toNat + 1) % 256)
      oh * 256 + h

/-! ## The table -/

/-- what stands before the bytes of a shared string, and where; `size` and `refs` are unsigned shorts -/
structure Header where
  addr : ℕ
  size : ℕ
  refs : ℕ
  deriving DecidableEq, Repr

/-- the bytes of a shared string and its header -/
abbrev Block := List Byte × Header

/-- the hash table and the settings of `init_strings`; `asserts` is set in builds that keep `assert` -/
structure Strings where
  baseTable : Table (List Byte) Header
  maxStringLength : ℕ
  asserts : Bool

/-- the blocks of all chains -/
def Strings.blocks (s : Strings) : List Block := s.baseTable.flatten

/-- `StrHashN`, with a table size that is a power of two -/
def strHash (htableSize : ℕ) (s : List Byte) : ℕ := whashstr s 20 &&& (htableSize - 1)

/-- `init_strings` -/
def initStrings (hashSize maxLen : ℕ) (asserts : Bool) : Strings where
  baseTable := replicate hashSize.nextPowerOfTwo []
  maxStringLength := maxLen
  asserts := asserts

/-- `SIZE (curr) == len && memcmp (STRING (curr), s, len) == 0` -/
def isBlock (s : List Byte) (b : Block) : Bool := b.2.size = s.length && b.1.take s.length = s

/-- the chain of a hash value -/
def Strings.chain (st : Strings) (h : ℕ) : Chain (List Byte) Header := st.baseTable.getD h []

/-- `sfindblock`: the block, and the table with that block at the head of its chain -/
def sfindblock (st : Strings) (s : List Byte) (h : ℕ) : Option Block × Strings :=
  match (st.chain h).find? (isBlock s) with
  | none => (none, st)
  | some b => (some b, { st with baseTable := st.baseTable.set h (b :: (st.chain h).eraseP (isBlock s)) })

/-- `hfindblockn` -/
def findblockn (st : Strings) (s : List Byte) : Option Block × Strings :=
  sfindblock st s (strHash st.baseTable.length s)

/-- the two ways to pass a string: a pointer to bytes with a NUL behind them, or the bytes between two pointers (none
if the end is not behind the start) -/
inductive Text where
  | cstring (bytes : List Byte)
  | span (bytes : List Byte)
  deriving DecidableEq, Repr

/-- `findstring` -/
def findstring (st : Strings) : Text → Option ℕ × Strings
  | .span [] => (none, st)
  | .span (c :: s) => ((findblockn st (c :: s)).1.map (·.2.addr), (findblockn st (c :: s)).2)
  | .cstring bytes =>
    let s := bytes.takeWhile (· ≠ 0)
    ((findblockn st s).1.map (·.2.addr), (findblockn st s).2)

/-- `alloc_new_string`: the block goes to the head of its chain -/
def allocNewString (st : Strings) (s : List Byte) (h addr : ℕ) : Strings :=
  let b : Block := (s, { addr := addr, size := s.length % 2 ^ 16, refs := 1 })
  { st with baseTable := st.baseTable.set h (b :: st.chain h) }

/-- the longest shared string: its length fits an unsigned short and is not the largest of those -/
def hardLimit (st : Strings) : ℕ := if 2 ^ 16 - 1 ≤ st.maxStringLength then 2 ^ 16 - 2 else st.maxStringLength

/-- `memchr (str, '\0', n)` on a string with a NUL behind it -/
def findNul (bytes : List Byte) (n : ℕ) : Option ℕ :=
  let i := (bytes.takeWhile (· ≠ 0)).length
  if i < n then some i else none

/-- what `make_shared_string` shares: the string, cut to the longest length -/
def shared (st : Strings) : Text → List Byte
  | .span bytes => bytes.take (hardLimit st)
  | .cstring bytes => bytes.take ((findNul bytes (hardLimit st + 1)).getD (hardLimit st))

/-- the block with its count changed, if it is the one at `p` -/
def withRefs (p : ℕ) (f : ℕ → ℕ) (b : Block) : Block :=
  if b.2.addr = p then (b.1, { b.2 with refs := f b.2.refs }) else b

/-- a change of the count of the block at `p` -/
def setRefs (st : Strings) (p : ℕ) (f : ℕ → ℕ) : Strings :=
  { st with baseTable := st.baseTable.map (List.map (withRefs p f)) }

/-- `if (REFS (b)) REFS (b)++` -/
def moreRefs (refs : ℕ) : ℕ := if refs = 0 then 0 else (refs + 1) % 2 ^ 16

/-- `make_shared_string`: the pointer it returns. `addr` is where the allocator would put a new block. -/
def makeSharedString (st : Strings) (t : Text) (addr : ℕ) : ℕ × Strings :=
  let s := shared st t
  match findblockn st s with
  | (none, st) => (addr, allocNewString st s (strHash st.baseTable.length s) addr)
  | (some b, st) => (b.2.addr, setRefs st b.2.addr moreRefs)

/-- `BLOCK (raw)` -/
def blockAt (st : Strings) (p : ℕ) : Option Block := st.blocks.find? (·.2.addr = p)

/-- `assert (b == findblockn (raw, SIZE (b)))`: the lookup moves the block; `none` stops the driver -/
def assertShared (st : Strings) (b : Block) : Option Strings :=
  if st.asserts then
    match findblockn st (b.1.take b.2.size) with
    | (some b', st) => if b'.2.addr = b.2.addr then some st else none
    | (none, _) => none
  else some st

/-- `ref_string`; no result for a pointer that is no shared string -/
def refString (st : Strings) (p : ℕ) : Option Strings :=
  (blockAt st p).bind fun b => (assertShared st b).map fun st => setRefs st p moreRefs

/-- unlinking the block at `p` from its chain, as `free_string` and `dealloc_string` do it -/
def unlinkBlock (st : Strings) (b : Block) : Strings :=
  let h := strHash st.baseTable.length (b.1.take b.2.size)
  { st with baseTable := st.baseTable.set h ((st.chain h).eraseP (·.2.addr = b.2.addr)) }

/-- a reference less to the block `b`; with none left it is unlinked and freed -/
def dropRef (st : Strings) (b : Block) : Strings :=
  if b.2.refs = 0 then st
  else if 0 < b.2.refs - 1 then setRefs st b.2.addr (· - 1)
  else unlinkBlock st b

/-- `free_string` -/
def freeString (st : Strings) (p : ℕ) : Option Strings :=
  (blockAt st p).bind fun b => (assertShared st b).map fun st => dropRef st b

/-- `free_string_svalue` of a shared string, with `dealloc_string` -/
def freeStringSvalue (st : Strings) (p : ℕ) : Option Strings := (blockAt st p).map (dropRef st)

/-! ## Runs -/

/-- what callers hold: the references to each pointer not freed yet, and the most there ever were -/
structure Ledger where
  held : ℕ → ℕ
  most : ℕ → ℕ

open Ledger

def Ledger.take (l : Ledger) (p : ℕ) : Ledger where
  held := update l.held p (l.held p + 1)
  most := update l.most p (max (l.most p) (l.held p + 1))

def Ledger.give (l : Ledger) (p : ℕ) : Ledger where
  held := update l.held p (l.held p - 1)
  most := l.most

inductive Op where
  | make (t : Text) (addr : ℕ)
  | find (t : Text)
  | ref (p : ℕ)
  | free (p : ℕ)
  | freeSvalue (p : ℕ)

/-- the table and the ledger -/
structure State where
  strings : Strings
  ledger : Ledger

def step (s : State) : Op → Option State
  | .make t addr =>
    some ⟨(makeSharedString s.strings t addr).2, s.ledger.take (makeSharedString s.strings t addr).1⟩
  | .find t => some ⟨(findstring s.strings t).2, s.ledger⟩
  | .ref p => (refString s.strings p).map fun st => ⟨st, s.ledger.take p⟩
  | .free p => (freeString s.strings p).map fun st => ⟨st, s.ledger.give p⟩
  | .freeSvalue p => (freeStringSvalue s.strings p).map fun st => ⟨st, s.ledger.give p⟩

def run (s : State) : List Op → Option State
  | [] => some s
  | op :: ops => (step s op).bind fun s => run s ops

/-- `p` is the pointer of a block in the table -/
def Live (st : Strings) (p : ℕ) : Prop := ∃ b ∈ st.blocks, b.2.addr = p

/-- the allocator gives no memory that is in use, and callers free only what they hold -/
def Legal (s : State) : Op → Prop
  | .make _ addr => ¬ Live s.strings addr
  | .find _ => True
  | .ref p => Live s.strings p
  | .free p => 0 < s.ledger.held p
  | .freeSvalue p => 0 < s.ledger.held p

/-- each operation is legal where it is done -/
def LegalRun (s : State) : List Op → Prop
  | [] => True
  | op :: ops => Legal s op ∧ ∀ s', step s op = some s' → LegalRun s' ops

/-- nothing is shared yet -/
def start (hashSize maxLen : ℕ) (asserts : Bool) : State where
  strings := initStrings hashSize maxLen asserts
  ledger := ⟨fun _ => 0, fun _ => 0⟩

/-! ## What holds of the blocks -/

/-- the blocks of all chains, in any order, against the ledger -/
structure Sound (blocks : List Block) (l : Ledger) : Prop where
  keys : (blocks.map Prod.fst).Nodup
  addrs : (blocks.map (·.2.addr)).Nodup
  sizes : ∀ b ∈ blocks, b.2.size = b.1.length
  counted : ∀ b ∈ blocks, b.2.refs = if l.most b.2.addr < 2 ^ 16 then l.held b.2.addr else 0
  used : ∀ b ∈ blocks, l.most b.2.addr < 2 ^ 16 → 0 < l.held b.2.addr
  present : ∀ p, 0 < l.held p → ∃ b ∈ blocks, b.2.addr = p
  mortal : ∀ p, (∀ b ∈ blocks, b.2.addr ≠ p) → l.most p < 2 ^ 16
  le : ∀ p, l.held p ≤ l.most p

variable {blocks blocks' : List Block} {l : Ledger} {b b' : Block} {p : ℕ} (f : ℕ → ℕ)

namespace Sound

theorem perm (h : Sound blocks l) (hp : blocks'.Perm blocks) : Sound blocks' l where
  keys := (hp.map Prod.fst).nodup_iff.2 h.keys
  addrs := (hp.map _).nodup_iff.2 h.addrs
  sizes b hb := h.sizes b (hp.mem_iff.1 hb)
  counted b hb := h.counted b (hp.mem_iff.1 hb)
  used b hb := h.used b (hp.mem_iff.1 hb)
  present p hpos := (h.present p hpos).imp fun _ hb => ⟨hp.mem_iff.2 hb.1, hb.2⟩
  mortal p hall := h.mortal p fun b hb => hall b (hp.mem_iff.2 hb)
  le := h.le

theorem eq_of_addr (h : Sound blocks l) (hb : b ∈ blocks) (hb' : b' ∈ blocks) (heq : b.2.addr = b'.2.addr) : b = b' :=
  inj_on_of_nodup_map h.addrs hb hb' heq

/-- an address without a block has no references -/
theorem held_eq_zero (h : Sound blocks l) (hdead : ∀ b ∈ blocks, b.2.addr ≠ p) : l.held p = 0 := by
  by_contra hne
  obtain ⟨b, hb, heq⟩ := h.present p (Nat.pos_of_ne_zero hne)
  exact hdead b hb heq

end Sound

theorem withRefs_key (b : Block) : (withRefs p f b).1 = b.1 := by
  unfold withRefs; split <;> rfl

theorem withRefs_addr (b : Block) : (withRefs p f b).2.addr = b.2.addr := by
  unfold withRefs; split <;> rfl

theorem withRefs_size (b : Block) : (withRefs p f b).2.size = b.2.size := by
  unfold withRefs; split <;> rfl

theorem withRefs_refs (b : Block) : (withRefs p f b).2.refs = if b.2.addr = p then f b.2.refs else b.2.refs := by
  unfold withRefs; split <;> rfl

namespace Sound

/-- only the block at one address changes, and what the ledger says of it -/
theorem change (h : Sound blocks l) {a : ℕ} {l' : Ledger} (hkeys : (blocks'.map Prod.fst).Nodup)
    (haddrs : (blocks'.map (·.2.addr)).Nodup) (hsame : ∀ b : Block, b.2.addr ≠ a → (b ∈ blocks' ↔ b ∈ blocks))
    (hat : ∀ b ∈ blocks', b.2.addr = a → b.2.size = b.1.length ∧
      b.2.refs = (if l'.most a < 2 ^ 16 then l'.held a else 0) ∧ (l'.most a < 2 ^ 16 → 0 < l'.held a))
    (hgone : (∀ b ∈ blocks', b.2.addr ≠ a) → l'.held a = 0 ∧ l'.most a < 2 ^ 16) (hle : l'.held a ≤ l'.most a)
    (hother : ∀ p, p ≠ a → l'.held p = l.held p ∧ l'.most p = l.most p) : Sound blocks' l' := by
  have hblock : ∀ b ∈ blocks', b.2.size = b.1.length ∧
      b.2.refs = (if l'.most b.2.addr < 2 ^ 16 then l'.held b.2.addr else 0) ∧
        (l'.most b.2.addr < 2 ^ 16 → 0 < l'.held b.2.addr) := by
    intro b hb
    by_cases hba : b.2.addr = a
    · rw [hba]; exact hat b hb hba
    · have hold := (hsame b hba).1 hb
      rw [(hother _ hba).1, (hother _ hba).2]
      exact ⟨h.sizes b hold, h.counted b hold, h.used b hold⟩
  refine ⟨hkeys, haddrs, fun b hb => (hblock b hb).1, fun b hb => (hblock b hb).2.1, fun b hb => (hblock b hb).2.2,
    fun p hpos => ?_, fun p hall => ?_, fun p => ?_⟩
  · by_cases hp : p = a
    · rw [hp] at hpos ⊢
      by_contra hnone
      have := (hgone fun b hb hba => hnone ⟨b, hb, hba⟩).1
      omega
    · obtain ⟨b, hb, rfl⟩ := h.present p ((hother p hp).1 ▸ hpos)
      exact ⟨b, (hsame b hp).2 hb, rfl⟩
  · by_cases hp : p = a
    · rw [hp] at hall ⊢; exact (hgone hall).2
    · rw [(hother p hp).2]
      exact h.mortal p fun b hb hbp => hall b ((hsame b (hbp ▸ hp)).2 hb) hbp
  · by_cases hp : p = a
    · rw [hp]; exact hle
    · rw [(hother p hp).1, (hother p hp).2]; exact h.le p

/-- a change of the count of one block is sound if that block's is -/
theorem withRefs (h : Sound blocks l) (hb : b ∈ blocks) (f : ℕ → ℕ) {l' : Ledger}
    (hcount : f b.2.refs = if l'.most b.2.addr < 2 ^ 16 then l'.held b.2.addr else 0)
    (hused : l'.most b.2.addr < 2 ^ 16 → 0 < l'.held b.2.addr) (hle : l'.held b.2.addr ≤ l'.most b.2.addr)
    (hother : ∀ p, p ≠ b.2.addr → l'.held p = l.held p ∧ l'.most p = l.most p) :
    Sound (blocks.map (Stralloc.withRefs b.2.addr f)) l' := by
  refine h.change ?_ ?_ (fun c hc => ⟨fun hmem => ?_, fun hmem => ?_⟩) (fun c hmem hc => ?_)
    (fun hnone => absurd (withRefs_addr f b) (hnone _ (mem_map_of_mem hb))) hle hother
  · rw [List.map_map, Function.comp_def]
    simpa only [withRefs_key] using h.keys
  · rw [List.map_map, Function.comp_def]
    simpa only [withRefs_addr] using h.addrs
  · obtain ⟨d, hd, rfl⟩ := mem_map.1 hmem
    rw [withRefs_addr] at hc
    rwa [Stralloc.withRefs, if_neg hc]
  · exact mem_map.2 ⟨c, hmem, if_neg hc⟩
  · obtain ⟨d, hd, rfl⟩ := mem_map.1 hmem
    obtain rfl := h.eq_of_addr hd hb (by rwa [withRefs_addr] at hc)
    rw [withRefs_size, withRefs_key, withRefs_refs, if_pos rfl]
    exact ⟨h.sizes d hd, hcount, hused⟩

end Sound

theorem Ledger.give_of_ne {q : ℕ} (h : q ≠ p) : (l.give p).held q = l.held q := update_of_ne h _ _

namespace Sound

section

variable (h : Sound blocks l)
include h

/-- a count is not overflown exactly while the block was never held `2 ^ 16` times -/
theorem refs_eq_zero_iff (hb : b ∈ blocks) : b.2.refs = 0 ↔ 2 ^ 16 ≤ l.most b.2.addr := by
  rw [h.counted b hb]
  by_cases hmost : l.most b.2.addr < 2 ^ 16
  · have hpos := h.used b hb hmost
    rw [if_pos hmost]
    omega
  · rw [if_neg hmost]
    simpa using hmost

/-- a count that is not overflown is exact -/
theorem held_eq (hb : b ∈ blocks) (hne : b.2.refs ≠ 0) : l.most b.2.addr < 2 ^ 16 ∧ l.held b.2.addr = b.2.refs := by
  have hmost : l.most b.2.addr < 2 ^ 16 := not_le.1 (mt (h.refs_eq_zero_iff hb).2 hne)
  exact ⟨hmost, by rw [h.counted b hb, if_pos hmost]⟩

/-- a reference more: the count stays at 0 once it has overflown -/
theorem take (hb : b ∈ blocks) : Sound (blocks.map (Stralloc.withRefs b.2.addr moreRefs)) (l.take b.2.addr) := by
  have hle := h.le b.2.addr
  refine h.withRefs hb moreRefs ?_ ?_ ?_ ?_
  · simp only [Ledger.take, update_self, moreRefs, h.refs_eq_zero_iff hb]
    by_cases hmost : l.most b.2.addr < 2 ^ 16
    · rw [if_neg (by omega), h.counted b hb, if_pos hmost]
      split <;> omega
    · rw [if_pos (by omega), if_neg (by omega)]
  · simp only [Ledger.take, update_self]
    omega
  · simp only [Ledger.take, update_self]
    omega
  · intro p hp
    exact ⟨update_of_ne hp _ _, update_of_ne hp _ _⟩

/-- a reference less, and not the last -/
theorem give (hb : b ∈ blocks) (hmore : 0 < b.2.refs - 1) :
    Sound (blocks.map (Stralloc.withRefs b.2.addr (· - 1))) (l.give b.2.addr) := by
  have hle := h.le b.2.addr
  obtain ⟨hmost, hheld⟩ := h.held_eq hb (by omega)
  refine h.withRefs hb (· - 1) ?_ ?_ ?_ ?_
  · simp only [Ledger.give, update_self]
    rw [if_pos hmost, hheld]
  · simp only [Ledger.give, update_self]
    omega
  · simp only [Ledger.give, update_self]
    omega
  · exact fun p hp => ⟨give_of_ne hp, rfl⟩

/-- an overflown count says nothing about the references that are left -/
theorem give_immortal (hb : b ∈ blocks) (hzero : b.2.refs = 0) : Sound blocks (l.give b.2.addr) := by
  have hmost : ¬ l.most b.2.addr < 2 ^ 16 := not_lt.2 ((h.refs_eq_zero_iff hb).1 hzero)
  refine h.change h.keys h.addrs (fun _ _ => Iff.rfl) (fun c hc hcb => ?_) (fun hnone => absurd rfl (hnone b hb)) ?_
    fun p hp => ⟨give_of_ne hp, rfl⟩
  · obtain rfl := h.eq_of_addr hc hb hcb
    exact ⟨h.sizes c hc, hzero.trans (if_neg hmost).symm, fun hlt => absurd hlt hmost⟩
  · have := h.le b.2.addr
    simp only [Ledger.give, update_self]
    omega

/-- a new block, where there is none and for bytes that have none -/
theorem insert {s : List Byte} {addr : ℕ} (hkey : ∀ c ∈ blocks, c.1 ≠ s)
    (haddr : ∀ c ∈ blocks, c.2.addr ≠ addr) (hlen : s.length < 2 ^ 16) :
    Sound ((s, ⟨addr, s.length % 2 ^ 16, 1⟩) :: blocks) (l.take addr) := by
  have hzero := h.held_eq_zero haddr
  have hmortal := h.mortal addr haddr
  have hheld : (l.take addr).held addr = 1 := by simp [Ledger.take, hzero]
  have hmost : (l.take addr).most addr = max (l.most addr) 1 := by simp [Ledger.take, hzero]
  refine h.change (a := addr) (nodup_cons.2 ⟨fun hmem => ?_, h.keys⟩) (nodup_cons.2 ⟨fun hmem => ?_, h.addrs⟩)
    (fun c hc => mem_cons.trans (or_iff_right fun heq => hc (heq ▸ rfl))) (fun c hmem hc => ?_)
    (fun hnone => absurd rfl (hnone _ (.head _))) (by omega) fun p hp => ⟨update_of_ne hp _ _, update_of_ne hp _ _⟩
  · obtain ⟨c, hc, heq⟩ := mem_map.1 hmem
    exact hkey c hc heq
  · obtain ⟨c, hc, heq⟩ := mem_map.1 hmem
    exact haddr c hc heq
  · rcases mem_cons.1 hmem with rfl | hmem
    · exact ⟨Nat.mod_eq_of_lt hlen, by rw [if_pos (by omega), hheld], fun _ => by omega⟩
    · exact absurd hc (haddr c hmem)

end

/-- the last reference goes, and the block with it -/
theorem remove (h : Sound (b :: blocks) l) (hlast : b.2.refs = 1) : Sound blocks (l.give b.2.addr) := by
  obtain ⟨hmost, hheld⟩ := h.held_eq mem_cons_self (by omega)
  have haddr : ∀ c ∈ blocks, c.2.addr ≠ b.2.addr := by
    intro c hc heq
    exact (nodup_cons.1 h.addrs).1 (mem_map.2 ⟨c, hc, heq⟩)
  have hgone : (l.give b.2.addr).held b.2.addr = 0 := by simp [Ledger.give, hheld, hlast]
  exact h.change (nodup_cons.1 h.keys).2 (nodup_cons.1 h.addrs).2
    (fun c hc => (mem_cons.trans (or_iff_right fun heq => hc (heq ▸ rfl))).symm)
    (fun c hc heq => absurd heq (haddr c hc)) (fun _ => ⟨hgone, hmost⟩) (hgone ▸ Nat.zero_le _)
    fun p hp => ⟨give_of_ne hp, rfl⟩

end Sound

/-! ## The operations -/

/-- what the table keeps between operations -/
structure Inv (st : Strings) (l : Ledger) : Prop where
  sound : Sound st.blocks l
  placed : Placed (strHash st.baseTable.length) st.baseTable
  nonempty : 0 < st.baseTable.length

variable {st st' : Strings} {ops : List Op}

theorem strHash_lt {n : ℕ} (hn : 0 < n) (s : List Byte) : strHash n s < n := by
  have hle : strHash n s ≤ n - 1 := Nat.and_le_right
  omega

/-- the hash value of a string in this table -/
abbrev Strings.hash (st : Strings) (s : List Byte) : ℕ := strHash st.baseTable.length s

theorem findblockn_eq (st : Strings) (s : List Byte) :
    findblockn st s = ((search (isBlock s) (st.hash s) st.baseTable).1,
      { st with baseTable := (search (isBlock s) (st.hash s) st.baseTable).2 }) := by
  unfold findblockn sfindblock search Strings.chain
  cases (st.baseTable.getD (st.hash s) []).find? (isBlock s) <;> rfl

/-- another table of the same size with the same blocks -/
structure Moved (st st' : Strings) : Prop where
  perm : st'.blocks.Perm st.blocks
  placed : Placed (strHash st'.baseTable.length) st'.baseTable
  length : st'.baseTable.length = st.baseTable.length
  limit : hardLimit st' = hardLimit st

theorem Moved.mem (h : Moved st st') (hb : b ∈ st.blocks) : b ∈ st'.blocks := h.perm.mem_iff.2 hb

theorem Inv.moved (h : Inv st l) (hm : Moved st st') : Inv st' l where
  sound := h.sound.perm hm.perm
  placed := hm.placed
  nonempty := hm.length ▸ h.nonempty

theorem Moved.refl (h : Inv st l) : Moved st st := ⟨List.Perm.refl _, h.placed, rfl, rfl⟩

namespace Inv

theorem isBlock_iff (h : Inv st l) (hb : b ∈ st.blocks) (s : List Byte) : isBlock s b = true ↔ b.1 = s := by
  rw [isBlock, Bool.and_eq_true, decide_eq_true_eq, decide_eq_true_eq, h.sound.sizes b hb]
  constructor
  · rintro ⟨hlen, htake⟩
    rwa [← hlen, take_length] at htake
  · rintro rfl
    exact ⟨rfl, take_length⟩

theorem getElem?_own (h : Inv st l) (s : List Byte) : st.baseTable[st.hash s]? = some (st.chain (st.hash s)) :=
  getElem?_getD (strHash_lt h.nonempty s)

theorem mem_chain (h : Inv st l) {s : List Byte} (hb : b ∈ st.chain (st.hash s)) : b ∈ st.blocks :=
  ((mem_getD_iff h.placed (strHash_lt h.nonempty s)).1 hb).1

/-- a block is in the chain of its bytes -/
theorem mem_own_chain (h : Inv st l) (hb : b ∈ st.blocks) : b ∈ st.chain (st.hash b.1) :=
  (mem_getD_iff h.placed (strHash_lt h.nonempty b.1)).2 ⟨hb, rfl⟩

/-- a lookup finds the block with these bytes, if there is one -/
theorem findblockn_iff (h : Inv st l) (s : List Byte) : (findblockn st s).1 = some b ↔ b ∈ st.blocks ∧ b.1 = s := by
  rw [findblockn_eq]
  exact search_eq_some h.placed (strHash_lt h.nonempty s) h.sound.keys fun b hb => h.isBlock_iff hb s

/-- a chain is replaced by one with nodes that belong there -/
theorem set (h : Inv st l) {s : List Byte} {d : Chain (List Byte) Header} {l' : Ledger}
    (hs : Sound (st.baseTable.set (st.hash s) d).flatten l') (hd : ∀ b ∈ d, b ∈ st.chain (st.hash s) ∨ b.1 = s) :
    Inv { st with baseTable := st.baseTable.set (st.hash s) d } l' := by
  refine ⟨hs, ?_, ?_⟩
  · rw [length_set]
    refine placed_set h.placed fun b hb => ?_
    rcases hd b hb with hb | hb
    · exact h.placed _ _ (h.getElem?_own s) b hb
    · rw [hb]
  · rw [length_set]
    exact h.nonempty

/-- moving a block to the head of its chain -/
theorem findblockn_moved (h : Inv st l) (s : List Byte) : Moved st (findblockn st s).2 := by
  have hlt := strHash_lt h.nonempty s
  rw [findblockn_eq]
  refine ⟨search_perm hlt, ?_, length_search, rfl⟩
  rw [length_search]
  exact placed_search h.placed hlt

theorem findblockn_of_mem (h : Inv st l) (hb : b ∈ st.blocks) :
    ∃ st', Moved st st' ∧ findblockn st b.1 = (some b, st') :=
  ⟨_, h.findblockn_moved b.1, Prod.ext ((h.findblockn_iff b.1).2 ⟨hb, rfl⟩) rfl⟩

theorem findblockn_of_not_mem (h : Inv st l) {s : List Byte} (hkey : ∀ b ∈ st.blocks, b.1 ≠ s) :
    ∃ st', Moved st st' ∧ findblockn st s = (none, st') :=
  ⟨_, h.findblockn_moved s, Prod.ext (eq_none_iff_forall_ne_some.2 fun b hb =>
    hkey b ((h.findblockn_iff s).1 hb).1 ((h.findblockn_iff s).1 hb).2) rfl⟩

end Inv

theorem setRefs_blocks (st : Strings) (p : ℕ) (f : ℕ → ℕ) :
    (setRefs st p f).blocks = st.blocks.map (withRefs p f) := map_flatten.symm

theorem Inv.setRefs (h : Inv st l) {l' : Ledger} {f : ℕ → ℕ} (hs : Sound (st.blocks.map (withRefs p f)) l') :
    Inv (setRefs st p f) l' where
  sound := setRefs_blocks st p f ▸ hs
  placed := by
    intro i c hc b hb
    simp only [Stralloc.setRefs, getElem?_map, length_map] at hc ⊢
    obtain ⟨d, hd, rfl⟩ := map_eq_some_iff.1 hc
    obtain ⟨a, ha, rfl⟩ := mem_map.1 hb
    rw [withRefs_key]
    exact h.placed i d hd a ha
  nonempty := by
    rw [Stralloc.setRefs, length_map]
    exact h.nonempty

namespace Inv

theorem allocNewString_perm (h : Inv st l) (s : List Byte) (addr : ℕ) :
    (allocNewString st s (st.hash s) addr).blocks.Perm
      ([(s, ⟨addr, s.length % 2 ^ 16, 1⟩)] ++ st.blocks) :=
  set_flatten_perm (h.getElem?_own s) (List.Perm.refl _)

theorem allocNewString (h : Inv st l) {s : List Byte} {addr : ℕ} (hkey : ∀ b ∈ st.blocks, b.1 ≠ s)
    (haddr : ¬ Live st addr) (hlen : s.length < 2 ^ 16) :
    Inv (allocNewString st s (st.hash s) addr) (l.take addr) :=
  h.set ((h.sound.insert hkey (fun b hb heq => haddr ⟨b, hb, heq⟩) hlen).perm (h.allocNewString_perm s addr))
    (forall_mem_cons.2 ⟨.inr rfl, fun _ hb => .inl hb⟩)

section Unlink

variable (h : Inv st l) (hb : b ∈ st.blocks)
include h hb

theorem take_size : b.1.take b.2.size = b.1 := by
  rw [h.sound.sizes b hb, take_length]

/-- unlinking takes the block, and no other, out of the table -/
theorem unlinkBlock_perm : st.blocks.Perm (b :: (unlinkBlock st b).blocks) := by
  have hany : (st.chain (st.hash b.1)).any (·.2.addr = b.2.addr) = true :=
    any_eq_true.2 ⟨b, h.mem_own_chain hb, decide_eq_true rfl⟩
  obtain ⟨c, hc, hcb, hperm⟩ := eraseP_perm hany
  obtain rfl : c = b := h.sound.eq_of_addr (h.mem_chain hc) hb (of_decide_eq_true hcb)
  have hlt := strHash_lt h.nonempty c.1
  have hall := set_flatten_cons hlt hperm
  rw [Strings.chain, set_getD hlt] at hall
  rw [unlinkBlock, h.take_size hb]
  exact hall

theorem unlinkBlock (hlast : b.2.refs = 1) : Inv (unlinkBlock st b) (l.give b.2.addr) := by
  have hsound := (h.sound.perm (h.unlinkBlock_perm hb).symm).remove hlast
  rw [Stralloc.unlinkBlock, h.take_size hb] at hsound ⊢
  exact h.set hsound fun c hc => .inl (mem_of_mem_eraseP hc)

/-- a reference less -/
theorem dropRef : Inv (dropRef st b) (l.give b.2.addr) := by
  unfold Stralloc.dropRef
  split
  · next hzero => exact ⟨h.sound.give_immortal hb hzero, h.placed, h.nonempty⟩
  · next hzero =>
    split
    · next hmore => exact h.setRefs (h.sound.give hb hmore)
    · next hmore => exact h.unlinkBlock hb (by omega)

theorem blockAt_eq : blockAt st b.2.addr = some b := by
  unfold blockAt
  cases hfind : st.blocks.find? (·.2.addr = b.2.addr) with
  | none => exact absurd (decide_eq_true rfl) (find?_eq_none.1 hfind b hb)
  | some c =>
    have hc := mem_of_find?_eq_some hfind
    have haddr := find?_some hfind
    rw [h.sound.eq_of_addr hc hb (of_decide_eq_true haddr)]

/-- the assertion that a string is shared holds -/
theorem assertShared_eq : ∃ st', assertShared st b = some st' ∧ Moved st st' := by
  unfold assertShared
  split
  · obtain ⟨st', hmoved, heq⟩ := h.findblockn_of_mem hb
    rw [h.take_size hb, heq]
    exact ⟨st', if_pos rfl, hmoved⟩
  · exact ⟨st, rfl, Moved.refl h⟩

end Unlink

end Inv

/-! ## Whole runs -/

/-- the block is still there, with its bytes and where it was -/
def Survives (st : Strings) (b : Block) : Prop := ∃ b' ∈ st.blocks, b'.1 = b.1 ∧ b'.2.addr = b.2.addr

theorem Moved.survives (h : Moved st st') (hb : b ∈ st.blocks) : Survives st' b :=
  ⟨b, h.mem hb, rfl, rfl⟩

theorem survives_setRefs (hb : b ∈ st.blocks) : Survives (setRefs st p f) b :=
  ⟨withRefs p f b, setRefs_blocks st p f ▸ mem_map_of_mem hb, withRefs_key f b, withRefs_addr f b⟩

/-- `free_string` only takes a block away with its last reference -/
theorem survives_dropRef (h : Inv st l) (hb : b ∈ st.blocks) (hb' : b' ∈ st.blocks) :
    Survives (dropRef st b) b' ∨ b'.2.addr = b.2.addr ∧ l.held b'.2.addr = 1 ∧ l.most b'.2.addr < 2 ^ 16 := by
  by_cases hzero : b.2.refs = 0
  · rw [dropRef, if_pos hzero]
    exact .inl ⟨b', hb', rfl, rfl⟩
  · by_cases hmore : 0 < b.2.refs - 1
    · rw [dropRef, if_neg hzero, if_pos hmore]
      exact .inl (survives_setRefs _ hb')
    · rw [dropRef, if_neg hzero, if_neg hmore]
      rcases mem_cons.1 ((h.unlinkBlock_perm hb).mem_iff.1 hb') with rfl | hmem
      · obtain ⟨hmost, hheld⟩ := h.sound.held_eq hb' hzero
        exact .inr ⟨rfl, by omega, hmost⟩
      · exact .inl ⟨b', hmem, rfl, rfl⟩

theorem length_shared (st : Strings) (t : Text) : (shared st t).length < 2 ^ 16 := by
  have hlimit : hardLimit st < 2 ^ 16 := by
    unfold hardLimit
    split <;> omega
  cases t with
  | span bytes => exact (length_take_le _ bytes).trans_lt hlimit
  | cstring bytes =>
    refine (length_take_le _ bytes).trans_lt ?_
    unfold findNul
    dsimp only
    split
    · next hlt => exact (Nat.le_of_lt_succ hlt).trans_lt hlimit
    · exact hlimit

/-- what `make_shared_string` does for a string that is there -/
theorem makeSharedString_of_mem (h : Inv st l) {t : Text} (hb : b ∈ st.blocks) (hkey : b.1 = shared st t) (addr : ℕ) :
    ∃ st', Moved st st' ∧ makeSharedString st t addr = (b.2.addr, setRefs st' b.2.addr moreRefs) := by
  obtain ⟨st', hmoved, heq⟩ := h.findblockn_of_mem hb
  exact ⟨st', hmoved, by simp only [makeSharedString, ← hkey, heq]⟩

/-- what holds after `make_shared_string` returned `p` -/
structure Made (st : Strings) (l : Ledger) (t : Text) (st' : Strings) (p : ℕ) : Prop where
  inv : Inv st' (l.take p)
  survives : ∀ b ∈ st.blocks, Survives st' b
  block : ∃ b ∈ st'.blocks, b.1 = shared st t ∧ b.2.addr = p

theorem makeSharedString_made (h : Inv st l) (t : Text) {addr : ℕ} (haddr : ¬ Live st addr) :
    Made st l t (makeSharedString st t addr).2 (makeSharedString st t addr).1 := by
  by_cases hmem : ∃ b ∈ st.blocks, b.1 = shared st t
  · obtain ⟨b, hb, hkey⟩ := hmem
    obtain ⟨st', hmoved, heq⟩ := makeSharedString_of_mem h hb hkey addr
    have hinv := h.moved hmoved
    rw [heq]
    exact {
      inv := hinv.setRefs (hinv.sound.take (hmoved.mem hb))
      survives := fun c hc => survives_setRefs _ (hmoved.mem hc)
      block := by
        obtain ⟨c, hc, hck, hca⟩ := survives_setRefs moreRefs (hmoved.mem hb)
        exact ⟨c, hc, hck.trans hkey, hca⟩ }
  · have hkey : ∀ b ∈ st.blocks, b.1 ≠ shared st t := fun b hb heq => hmem ⟨b, hb, heq⟩
    obtain ⟨st', hmoved, heq⟩ := h.findblockn_of_not_mem hkey
    have hinv := h.moved hmoved
    have hperm := hinv.allocNewString_perm (shared st t) addr
    simp only [makeSharedString, heq]
    exact {
      inv := hinv.allocNewString (fun b hb => hkey b (hmoved.perm.mem_iff.1 hb))
        (fun ⟨b, hb, hba⟩ => haddr ⟨b, hmoved.perm.mem_iff.1 hb, hba⟩) (length_shared st t)
      survives := fun c hc =>
        ⟨c, hperm.mem_iff.2 (.tail _ (hmoved.mem hc)), rfl, rfl⟩
      block := ⟨_, hperm.mem_iff.2 (.head _), rfl, rfl⟩ }

/-- the bytes a caller means -/
def Text.bytes : Text → List Byte
  | .span bytes => bytes
  | .cstring bytes => bytes.takeWhile (· ≠ 0)

theorem findstring_eq {t : Text} (ht : t ≠ .span []) :
    findstring st t = ((findblockn st t.bytes).1.map (·.2.addr), (findblockn st t.bytes).2) := by
  match t, ht with
  | .span (_ :: _), _ | .cstring _, _ => rfl

theorem findstring_moved (h : Inv st l) (t : Text) : Moved st (findstring st t).2 := by
  by_cases ht : t = .span []
  · rw [ht]; exact Moved.refl h
  · rw [findstring_eq ht]; exact h.findblockn_moved _

/-- the operation frees a reference to `p` -/
def Op.Frees (p : ℕ) : Op → Prop
  | .free q => q = p
  | .freeSvalue q => q = p
  | _ => False

/-- what one operation does: a block only goes with its last reference, and not if its count has overflown -/
structure Step (s : State) (op : Op) (s' : State) : Prop where
  inv : Inv s'.strings s'.ledger
  survives : ∀ b ∈ s.strings.blocks, Survives s'.strings b ∨
    op.Frees b.2.addr ∧ s.ledger.held b.2.addr = 1 ∧ s.ledger.most b.2.addr < 2 ^ 16
  most : ∀ p, s.ledger.most p ≤ s'.ledger.most p

theorem Ledger.most_le_take (l : Ledger) (p q : ℕ) : l.most q ≤ (l.take p).most q := by
  by_cases h : q = p
  · rw [h, take]
    simp only [update_self]
    exact le_max_left _ _
  · exact (update_of_ne h _ _).symm.le

/-- **One operation.** A legal operation succeeds and keeps the table right. -/
theorem step_ok {s : State} (h : Inv s.strings s.ledger) {op : Op} (hop : Legal s op) :
    ∃ s', step s op = some s' ∧ Step s op s' := by
  cases op with
  | make t addr =>
    have hmade := makeSharedString_made h t hop
    exact ⟨_, rfl, hmade.inv, fun b hb => .inl (hmade.survives b hb), most_le_take _ _⟩
  | find t =>
    have hmoved := findstring_moved h t
    exact ⟨_, rfl, h.moved hmoved, fun b hb => .inl (hmoved.survives hb), fun _ => le_rfl⟩
  | ref p =>
    obtain ⟨b, hb, rfl⟩ := hop
    obtain ⟨st', hassert, hmoved⟩ := h.assertShared_eq hb
    have hinv := h.moved hmoved
    refine ⟨⟨setRefs st' b.2.addr moreRefs, s.ledger.take b.2.addr⟩, ?_, ?_⟩
    · rw [step, refString, h.blockAt_eq hb, bind_some, hassert]; rfl
    · exact ⟨hinv.setRefs (hinv.sound.take (hmoved.mem hb)), fun c hc => .inl (survives_setRefs _ (hmoved.mem hc)),
        most_le_take _ _⟩
  | free p =>
    obtain ⟨b, hb, rfl⟩ := h.sound.present p hop
    obtain ⟨st', hassert, hmoved⟩ := h.assertShared_eq hb
    have hinv := h.moved hmoved
    refine ⟨⟨dropRef st' b, s.ledger.give b.2.addr⟩, ?_, ?_⟩
    · rw [step, freeString, h.blockAt_eq hb, bind_some, hassert]; rfl
    · exact ⟨hinv.dropRef (hmoved.mem hb), fun c hc => (survives_dropRef hinv (hmoved.mem hb) (hmoved.mem hc)).imp_right
        fun hgone => ⟨hgone.1.symm, hgone.2⟩, fun _ => le_rfl⟩
  | freeSvalue p =>
    obtain ⟨b, hb, rfl⟩ := h.sound.present p hop
    refine ⟨⟨dropRef s.strings b, s.ledger.give b.2.addr⟩, ?_, ?_⟩
    · rw [step, freeStringSvalue, h.blockAt_eq hb]; rfl
    · exact ⟨h.dropRef hb, fun c hc => (survives_dropRef h hb hc).imp_right
        fun hgone => ⟨hgone.1.symm, hgone.2⟩, fun _ => le_rfl⟩

theorem run_inv {s : State} (h : Inv s.strings s.ledger) (hops : LegalRun s ops) :
    ∃ s', run s ops = some s' ∧ Inv s'.strings s'.ledger := by
  induction ops generalizing s with
  | nil => exact ⟨s, rfl, h⟩
  | cons op ops ih =>
    obtain ⟨s₁, hstep, hs₁⟩ := step_ok h hops.1
    obtain ⟨s', hrun, hs'⟩ := ih hs₁.inv (hops.2 s₁ hstep)
    exact ⟨s', by rw [run, hstep]; exact hrun, hs'⟩

theorem inv_start (hashSize maxLen : ℕ) (asserts : Bool) :
    Inv (start hashSize maxLen asserts).strings (start hashSize maxLen asserts).ledger := by
  have hnone : (start hashSize maxLen asserts).strings.blocks = [] := by
    simp [start, initStrings, Strings.blocks]
  refine ⟨?_, ?_, ?_⟩
  · rw [hnone]
    exact ⟨nodup_nil, nodup_nil, nofun, nofun, nofun, fun p hp => absurd hp (lt_irrefl 0),
      fun p _ => Nat.two_pow_pos 16, fun p => le_rfl⟩
  · intro i c hc b hb
    obtain ⟨-, rfl⟩ := mem_replicate.1 (mem_of_getElem? hc)
    cases hb
  · rw [start, initStrings, length_replicate]
    exact Nat.pos_of_isPowerOfTwo (Nat.isPowerOfTwo_nextPowerOfTwo hashSize)

/-- what callers rely on in a state -/
structure Correct (s : State) : Prop where
  /-- one block for each content -/
  unique : (s.strings.blocks.map Prod.fst).Nodup
  /-- a block for every reference that is not freed -/
  present : ∀ p, 0 < s.ledger.held p → Live s.strings p
  /-- the count is exact, until it has overflown to 0 -/
  counted : ∀ b ∈ s.strings.blocks, b.2.refs = if s.ledger.most b.2.addr < 2 ^ 16 then s.ledger.held b.2.addr else 0
  /-- the pointer of a string that is there -/
  same : ∀ t addr, ∀ b ∈ s.strings.blocks, b.1 = shared s.strings t → (makeSharedString s.strings t addr).1 = b.2.addr
  /-- the block of the pointer that is returned -/
  made : ∀ t addr, Legal s (.make t addr) → ∃ b ∈ (makeSharedString s.strings t addr).2.blocks,
    b.1 = shared s.strings t ∧ b.2.addr = (makeSharedString s.strings t addr).1
  /-- what is looked up is found exactly when it is there, except for the empty span -/
  found : ∀ t p, t ≠ .span [] →
    ((findstring s.strings t).1 = some p ↔ ∃ b ∈ s.strings.blocks, b.1 = t.bytes ∧ b.2.addr = p)
  /-- that one is not looked for -/
  emptySpan : (findstring s.strings (.span [])).1 = none
  /-- a block stays, with its bytes, until its last reference is freed, and for good once the count has overflown -/
  stays : ∀ op s', Legal s op → step s op = some s' → (∀ p, s.ledger.most p ≤ s'.ledger.most p) ∧
    ∀ b ∈ s.strings.blocks, Survives s'.strings b ∨
      op.Frees b.2.addr ∧ s.ledger.held b.2.addr = 1 ∧ s.ledger.most b.2.addr < 2 ^ 16

/-- **The shared-string table.** Every legal run goes through, and in every state it reaches the table is right. -/
theorem shared_strings_correct (hashSize maxLen : ℕ) (asserts : Bool) (ops : List Op)
    (hops : LegalRun (start hashSize maxLen asserts) ops) :
    ∃ s, run (start hashSize maxLen asserts) ops = some s ∧ Correct s := by
  obtain ⟨s, hrun, h⟩ := run_inv (inv_start hashSize maxLen asserts) hops
  refine ⟨s, hrun, ?_⟩
  exact {
    unique := h.sound.keys
    present := h.sound.present
    counted := h.sound.counted
    same := by
      intro t addr b hb hkey
      obtain ⟨st', -, heq⟩ := makeSharedString_of_mem h hb hkey addr
      rw [heq]
    made := fun t addr hlegal => (makeSharedString_made h t hlegal).block
    found := fun t p ht => by
      rw [findstring_eq ht, map_eq_some_iff]
      simp only [h.findblockn_iff, and_assoc]
    emptySpan := rfl
    stays := by
      intro op s' hop hstep
      obtain ⟨s₁, hs₁, hone⟩ := step_ok h hop
      obtain rfl : s₁ = s' := some.inj (hs₁.symm.trans hstep)
      exact ⟨hone.most, hone.survives⟩ }

theorem LegalRun.cons {s s' : State} {op : Op} (hop : Legal s op) (hstep : step s op = some s')
    (hops : LegalRun s' ops) : LegalRun s (op :: ops) := by
  refine ⟨hop, fun s₁ hs₁ => ?_⟩
  obtain rfl : s' = s₁ := some.inj (hstep.symm.trans hs₁)
  exact hops

/-- a table of one chain -/
def oneChain : State := ⟨⟨[[]], 100, true⟩, ⟨fun _ => 0, fun _ => 0⟩⟩

theorem start_one : start 1 100 true = oneChain := by
  have hsize : Nat.nextPowerOfTwo 1 = 1 := by decide +kernel
  rw [start, initStrings, hsize]
  rfl

/-- two strings shared, one of them twice, found and freed -/
def sampleOps : List Op :=
  [.make (.cstring [97]) 1, .make (.span [98]) 2, .ref 1, .find (.span [97]), .free 1, .free 1]

theorem sampleOps_correct : ∃ s, run (start 1 100 true) sampleOps = some s ∧ Correct s := by
  refine shared_strings_correct 1 100 true sampleOps ?_
  rw [start_one]
  refine .cons (by unfold Legal Live; decide) rfl ?_
  refine .cons (by unfold Legal Live; decide) rfl ?_
  refine .cons (by unfold Legal Live; decide) rfl ?_
  refine .cons trivial rfl ?_
  refine .cons (by unfold Legal; decide) rfl ?_
  refine .cons (by unfold Legal; decide) rfl trivial

/-- **The empty span.** The empty string is shared, but the span without bytes is not looked for. -/
theorem empty_span_not_found : LegalRun (start 1 100 true) [.make (.span []) 1] ∧
    ∃ s, run (start 1 100 true) [.make (.span []) 1] = some s ∧
      (∃ b ∈ s.strings.blocks, b.1 = (Text.span []).bytes) ∧ (findstring s.strings (.span [])).1 = none := by
  rw [start_one]
  exact ⟨.cons (by unfold Legal Live; decide) rfl trivial, _, rfl, ⟨_, mem_singleton_self _, rfl⟩, rfl⟩

end Lithos.Driver.Stralloc
