/-
Numbers in a byte memory, lowest byte first.

`store w n` are the `w` bytes of `n`, `fetch` reads them back from a list of bytes, `patch` overwrites a place. A place
that is not in the memory cannot be fetched. What is fetched from a piece of a memory is fetched from the whole
(`fetch_append`).
-/
import Mathlib.Tactic

namespace Lithos.Core.Bytes

open List

def store : ℕ → ℕ → List UInt8
  | 0, _ => []
  | w + 1, n => UInt8.ofNat n :: store w (n / 256)

def value : List UInt8 → ℕ
  | [] => 0
  | b :: bs => b.toNat + 256 * value bs

/-- the number in the `w` bytes at `pos` -/
def fetch (mem : List UInt8) (pos w : ℕ) : Option ℕ :=
  if pos + w ≤ mem.length then some (value ((mem.drop pos).take w)) else none

/-- the memory with the `w` bytes at `pos` overwritten -/
def patch (mem : List UInt8) (pos w n : ℕ) : List UInt8 := mem.take pos ++ store w n ++ mem.drop (pos + w)

variable {mem : List UInt8} {pos w n : ℕ} {size j : ℕ}

@[simp]
theorem length_store (w n : ℕ) : (store w n).length = w := by
  induction w generalizing n with
  | zero => rfl
  | succ w ih => rw [store, length_cons, ih]

theorem value_store (w n : ℕ) : value (store w n) = n % 256 ^ w := by
  induction w generalizing n with
  | zero => rw [pow_zero, Nat.mod_one]; rfl
  | succ w ih =>
    have hbyte : (UInt8.ofNat n).toNat = n % 256 := UInt8.toNat_ofNat'
    rw [store, value, ih, hbyte, pow_succ', Nat.mod_mul]

/-- what is fetched from a part is fetched from the whole -/
theorem fetch_append (pre post : List UInt8) (h : pos + w ≤ mem.length) :
    fetch (pre ++ mem ++ post) (pre.length + pos) w = fetch mem pos w := by
  have hlen : pre.length + pos + w ≤ (pre ++ mem ++ post).length := by
    rw [length_append, length_append]; omega
  rw [fetch, fetch, if_pos hlen, if_pos h, append_assoc, drop_append, drop_eq_nil_of_le (by omega),
    nil_append, Nat.add_sub_cancel_left, drop_append_of_le_length (by omega),
    take_append_of_le_length (by rw [length_drop]; omega)]

theorem fetch_append_left (post : List UInt8) (h : pos + w ≤ mem.length) :
    fetch (mem ++ post) pos w = fetch mem pos w := by
  have := fetch_append [] post h
  rwa [nil_append, length_nil, Nat.zero_add] at this

/-- fetching what was stored between two pieces -/
theorem fetch_between (pre post : List UInt8) (w n : ℕ) :
    fetch (pre ++ store w n ++ post) pre.length w = some (n % 256 ^ w) := by
  have hlen : 0 + w ≤ (store w n).length := by rw [length_store]; omega
  have hfetch : fetch (store w n) 0 w = some (n % 256 ^ w) := by
    rw [fetch, if_pos hlen, drop_zero, take_of_length_le (length_store w n).le, value_store]
  rw [← hfetch, ← fetch_append pre post hlen, Nat.add_zero]

/-- records of one size, one behind the other: the `j`-th starts at `j` sizes -/
theorem fetch_flatten {l : List (List UInt8)} (hl : ∀ b ∈ l, b.length = size) {b : List UInt8} (hb : l[j]? = some b)
    (h : pos + w ≤ size) : fetch l.flatten (j * size + pos) w = fetch b pos w := by
  obtain ⟨hj, rfl⟩ := List.getElem?_eq_some_iff.1 hb
  have hlen : (l.take j).flatten.length = j * size := by
    rw [List.length_flatten, List.map_eq_replicate_iff.2 fun b hb => hl b (List.mem_of_mem_take hb),
      sum_replicate, length_take, Nat.min_eq_left hj.le, smul_eq_mul]
  have hsplit : l.flatten = (l.take j).flatten ++ l[j] ++ (l.drop (j + 1)).flatten := by
    conv_lhs => rw [← take_append_drop j l, drop_eq_getElem_cons hj]
    rw [flatten_append, flatten_cons, append_assoc]
  rw [hsplit, ← hlen]
  exact fetch_append _ _ (by rw [hl _ (getElem_mem hj)]; exact h)

theorem fetch_flatMap {β : Type*} {f : β → List UInt8} (hf : ∀ b, (f b).length = size) {l : List β} {b : β}
    (hb : l[j]? = some b) (h : pos + w ≤ size) :
    fetch (l.flatMap f) (j * size + pos) w = fetch (f b) pos w := by
  refine fetch_flatten (forall_mem_map.2 fun b _ => hf b) ?_ h
  rw [getElem?_map, hb, Option.map_some]

/-- a signed number as the value of its bytes -/
theorem bmod_value {w : ℕ} {k : ℤ} (hlow : -(2 ^ (8 * w) : ℕ) ≤ k * 2) (hhigh : k * 2 < (2 ^ (8 * w) : ℕ)) :
    (((k % (2 ^ (8 * w) : ℕ)).toNat % 256 ^ w : ℕ) : ℤ).bmod (2 ^ (8 * w)) = k := by
  have hpow : 256 ^ w = 2 ^ (8 * w) := by rw [pow_mul]; norm_num
  have hpos : (0 : ℤ) < (2 ^ (8 * w) : ℕ) := by positivity
  have hnonneg : 0 ≤ k % (2 ^ (8 * w) : ℕ) := Int.emod_nonneg k hpos.ne'
  have hlt : (k % (2 ^ (8 * w) : ℕ)).toNat < 2 ^ (8 * w) := by
    omega
  rw [hpow, Nat.mod_eq_of_lt hlt, Int.toNat_of_nonneg hnonneg, Int.emod_bmod, Int.bmod_eq_of_le_mul_two hlow hhigh]

/-- overwriting what was stored between two pieces -/
theorem patch_between (pre post : List UInt8) (w m n : ℕ) :
    patch (pre ++ store w m ++ post) pre.length w n = pre ++ store w n ++ post := by
  have htake : (pre ++ store w m ++ post).take pre.length = pre := by
    rw [append_assoc, take_left]
  have hdrop : (pre ++ store w m ++ post).drop (pre.length + w) = post := by
    rw [drop_left' (by rw [length_append, length_store])]
  rw [patch, htake, hdrop]

theorem patch_append_left (post : List UInt8) (h : pos + w ≤ mem.length) :
    patch (mem ++ post) pos w n = patch mem pos w n ++ post := by
  rw [patch, patch, take_append_of_le_length (by omega), drop_append_of_le_length h, append_assoc,
    append_assoc, append_assoc]

theorem length_patch (h : pos + w ≤ mem.length) : (patch mem pos w n).length = mem.length := by
  simp only [patch, length_append, length_take, length_drop, length_store]
  omega

/-- overwriting changes nothing outside the place -/
theorem getElem?_patch_of_outside (h : pos + w ≤ mem.length) {i : ℕ} (hi : i < pos ∨ pos + w ≤ i) :
    (patch mem pos w n)[i]? = mem[i]? := by
  have hlen : (mem.take pos ++ store w n).length = pos + w := by
    rw [length_append, length_take, length_store, Nat.min_eq_left (by omega)]
  rcases hi with hi | hi
  · have htake : i < (mem.take pos).length := by rw [length_take]; omega
    rw [patch, append_assoc, getElem?_append_left htake, getElem?_take_of_lt hi]
  · rw [patch, getElem?_append_right (by omega), hlen, getElem?_drop, Nat.add_sub_cancel' hi]

/-- what is fetched depends on the bytes of its place only -/
theorem fetch_congr {mem' : List UInt8} (hw : 0 < w) (h : ∀ i, pos ≤ i → i < pos + w → mem'[i]? = mem[i]?) :
    fetch mem' pos w = fetch mem pos w := by
  have hlast := h (pos + w - 1) (by omega) (by omega)
  have hlen : pos + w ≤ mem'.length ↔ pos + w ≤ mem.length := by
    have : mem'.length ≤ pos + w - 1 ↔ mem.length ≤ pos + w - 1 := by
      rw [← getElem?_eq_none_iff, ← getElem?_eq_none_iff, hlast]
    omega
  have hbytes : (mem'.drop pos).take w = (mem.drop pos).take w := by
    apply ext_getElem?
    intro i
    rcases lt_or_ge i w with hi | hi
    · rw [getElem?_take_of_lt hi, getElem?_take_of_lt hi, getElem?_drop, getElem?_drop]
      exact h _ (by omega) (by omega)
    · rw [getElem?_take_eq_none hi, getElem?_take_eq_none hi]
  simp only [fetch, hlen, hbytes]

theorem fetch_patch (h : pos + w ≤ mem.length) : fetch (patch mem pos w n) pos w = some (n % 256 ^ w) := by
  have hpos : (mem.take pos).length = pos := by rw [length_take, Nat.min_eq_left (by omega)]
  have := fetch_between (mem.take pos) (mem.drop (pos + w)) w n
  rwa [hpos] at this

end Lithos.Core.Bytes
