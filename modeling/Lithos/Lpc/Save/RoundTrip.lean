/-
The round trip of the save format: what `restore_svalue` makes of the text `save_svalue` writes.

`Same` is equality of values with mappings taken as functions from keys to values; `Saveable` are the values the format
is meant for. The parser reads every number into an `int`, whatever the text, so a number that needs more than 32 bits
never comes back. A mapping comes back when the union words of its keys differ (an integer key may equal the address of
a string key) and when the table it is put together in does not run out of buckets.

Results:
- `restoreValue_small`: every number in a restored value fits an `int`, for any text.
- `rebuilt_iff`: a saveable value with such numbers is rebuilt as an equal one exactly when its mappings can be refilled.
- `roundTrips_iff`: when a saveable value survives saving and restoring.
-/
import Mathlib.Data.List.TakeWhile
import Lithos.Lpc.MappingFill
import Lithos.Lpc.Save.Rebuild

namespace Lithos.Lpc.Save

open List Option Except Prod Mapping List Svalue

open Lithos.Lpc.Mapping (MapKey MappingT allocateMapping Everywhere HasRoom fill nodes NonReal absOf)

/-! ## Equal values, saveable values -/

variable {ρ : Type}

mutual

/-- equality of values, mappings taken as functions from keys to values -/
def Same : Svalue ρ → Svalue ρ → Prop
  | .number n, w => w = .number n
  | .real r, w => w = .real r
  | .string s, w => w = .string s
  | .other, w => w = .other
  | .array l, w => ∃ l', w = .array l' ∧ SameItems l l'
  | .class_ l, w => ∃ l', w = .class_ l' ∧ SameItems l l'
  | .mapping l, w =>
    ∃ l', w = .mapping l' ∧ (l'.map fst).Nodup ∧ l'.map fst ⊆ l.map fst ∧ SameNodes l l'

def SameItems : List (Svalue ρ) → List (Svalue ρ) → Prop
  | [], l' => l' = []
  | v :: l, l' => ∃ w r, l' = w :: r ∧ Same v w ∧ SameItems l r

def SameNodes : List (Svalue ρ × Svalue ρ) → List (Svalue ρ × Svalue ρ) → Prop
  | [], _ => True
  | (k, v) :: l, l' => (∃ w, (k, w) ∈ l' ∧ Same v w) ∧ SameNodes l l'

end

theorem sameNodes_iff {l l' : List (Svalue ρ × Svalue ρ)} :
    SameNodes l l' ↔ ∀ p ∈ l, ∃ w, (p.1, w) ∈ l' ∧ Same p.2 w := by
  induction l with
  | nil => simp [SameNodes]
  | cons p l ih => rw [SameNodes, forall_mem_cons, ih]

/-- a key `restore_mapping` can give back: an integer, or a string no longer than a shared string can be -/
def KeyOk (cfg : Config) : Svalue ρ → Prop
  | .number _ => True
  | .string s => s.length ≤ hardLimit cfg
  | _ => False

/-- the values the format is meant for: integers, UTF-8 strings without NUL and carriage return, and containers of them
within the size limits, the keys of a mapping being distinct integers and strings -/
def Saveable (cfg : Config) (v : Svalue ρ) : Prop :=
  v.All fun w =>
    match w with
    | .number _ => True
    | .string s => ValidUtf8 s ∧ nul ∉ s ∧ cr ∉ s
    | .array l => l.length ≤ cfg.maxArraySize
    | .class_ _ => True
    | .mapping l => l.length ≤ cfg.maxMappingSize ∧ (∀ p ∈ l, KeyOk cfg p.1) ∧ (l.map fst).Nodup
    | .real _ => False
    | .other => False

/-- the number fits an `int` -/
def FitsInt (n : Int64) : Prop := -2 ^ 31 ≤ n.toInt ∧ n.toInt < 2 ^ 31

instance (n : Int64) : Decidable (FitsInt n) := inferInstanceAs (Decidable (_ ∧ _))

/-- every number in the value fits an `int` -/
def Small (v : Svalue ρ) : Prop := v.All (OnNumber FitsInt)

variable [Double ρ]

/-- the union word of an integer or string key -/
def keyAddr (env : Env) (k : Svalue ρ) : Int64 := (keyWord env 0 k).1

/-- a mapping that can be put together again: the union words of its keys differ, and the table it is restored into has
room for them -/
def Refillable (env : Env) (l : List (Svalue ρ × Svalue ρ)) : Prop :=
  (l.map fun p => keyAddr env p.1).Nodup ∧ HasRoom (l.map fun p => keyAddr env p.1)

/-- numbers fit an `int`, mappings can be refilled -/
def Restorable (env : Env) (v : Svalue ρ) : Prop := Small v ∧ v.All (OnMapping (Refillable env))

/-- saving and restoring gives an equal value, whatever the size buffer, the variable and the memory behind the text
held before -/
def RoundTrips (env : Env) (v : Svalue ρ) : Prop :=
  ∃ buf, saveSvalue v [] = some buf ∧ ∀ slots old rest,
    ∃ w slots', restoreSvalue env slots old (buf ++ nul :: rest) = .ok (w, slots') ∧ Same v w

/-! ## Numbers of restored values -/

variable {env : Env} {c : Byte} {m : Mem} {w : Svalue ρ}

omit [Double ρ] in
theorem small_zero : Small (.number 0 : Svalue ρ) := by
  show FitsInt 0
  decide

theorem parseNumeric_small {m' : Mem} (h : parseNumeric c m = .ok (w, m')) : Small w := by
  rcases parseNumeric_value h with ⟨n, rfl⟩ | ⟨r, rfl⟩
  · show FitsInt n.toInt64
    rw [FitsInt, Int32.toInt_toInt64]
    exact ⟨n.le_toInt, n.toInt_lt⟩
  · exact trivial

/-- a container parser that returns small values -/
def NestedSmall (nested : Nested ρ) : Prop := ∀ d m st r, nested d m st = .ok r → Small r.val

variable {nested : Nested ρ} {p : Place} {st : St} {r : Parsed (Svalue ρ)}

section

variable (hn : NestedSmall nested)
include hn

theorem restoreElement_small (h : restoreElement env nested p c m st = .ok r) : Small r.val := by
  unfold restoreElement at h
  split at h
  · split at h
    · cases h
      exact trivial
    all_goals cases h
  · split_ifs at h
    · split at h
      · cases h
      · split_ifs at h
        obtain ⟨r', hr, rfl⟩ := map_eq_ok h
        exact hn _ _ _ r' hr
    · cases h
      exact small_zero
    · obtain ⟨r', hr, rfl⟩ := map_eq_ok h
      exact parseNumeric_small hr

theorem restoreElements_small {n : ℕ} {r : Parsed (List (Svalue ρ))}
    (h : restoreElements env nested p n m st = .ok r) : ∀ v ∈ r.val, Small v := by
  induction n generalizing m st r with
  | zero =>
    cases h
    simp
  | succ n ih =>
    obtain ⟨⟨c, m1⟩, -, h⟩ := bind_eq_ok.1 h
    obtain ⟨r1, hr1, h⟩ := bind_eq_ok.1 h
    obtain ⟨rs, hrs, h⟩ := bind_eq_ok.1 h
    cases h
    exact forall_mem_cons.2 ⟨restoreElement_small hn hr1, ih hrs⟩

theorem restorePairs_small {fuel : ℕ} {t : MappingT (RKey ρ) (Svalue ρ)}
    (ht : Everywhere (fun k => Small k.value) Small t) {r : Parsed (MappingT (RKey ρ) (Svalue ρ) × ℕ)}
    (h : restorePairs env nested fuel t m st = .ok r) :
    Everywhere (fun k => Small k.value) Small r.val.1 := by
  induction fuel generalizing t m st r with
  | zero => exact absurd h (by simp [restorePairs])
  | succ fuel ih =>
    obtain ⟨⟨c, m1⟩, -, h⟩ := bind_eq_ok.1 h
    dsimp only at h
    split_ifs at h
    · cases h
      exact ht
    · obtain ⟨k, hk, h⟩ := bind_eq_ok.1 h
      obtain ⟨⟨c', m2⟩, -, h⟩ := bind_eq_ok.1 h
      obtain ⟨v, hv, h⟩ := bind_eq_ok.1 h
      split at h
      · cases h
      · next t' hins =>
        obtain ⟨r', hr', h⟩ := bind_eq_ok.1 h
        cases h
        have ht' := ht.insert (restoreElement_small hn hk) small_zero (restoreElement_small hn hv) hins
        exact ih (r := r') ht' hr'

theorem restoreBody_small {d : Byte} {size : ℕ} (h : restoreBody env nested d size m st = .ok r) : Small r.val := by
  unfold restoreBody at h
  split_ifs at h
  · cases h
    exact ⟨trivial, trivial⟩
  · obtain ⟨r', hr, rfl⟩ := map_eq_ok h
    have hall := restorePairs_small hn (everywhere_allocateMapping _ _ _ _) hr
    refine ⟨trivial, allNodes_iff.2 fun p hp => ?_⟩
    obtain ⟨q, hq, rfl⟩ := mem_map.1 hp
    obtain ⟨c, hc, hqc⟩ := mem_flatten.1 hq
    exact hall c (mem_reverse.1 hc) q hqc
  all_goals
    obtain ⟨r', hr, rfl⟩ := map_eq_ok h
    exact ⟨trivial, allItems_iff.2 (restoreElements_small hn hr)⟩

end

theorem restoreContainer_small (fuel : ℕ) : NestedSmall (restoreContainer env fuel : Nested ρ) := by
  induction fuel with
  | zero => intro d m st r h; exact absurd h (by simp [restoreContainer])
  | succ fuel ih =>
    intro d m st r h
    rw [restoreContainer] at h
    dsimp only at h
    split at h
    · cases h
    · exact restoreBody_small ih h

/-- **Whatever the text, a restored number fits an `int`.** -/
theorem restoreValue_small {entry st : Sizes} (h : restoreValue env entry m = .ok (some w, st)) : Small w := by
  obtain ⟨⟨c, m1⟩, -, h⟩ := bind_eq_ok.1 h
  dsimp only at h
  split_ifs at h
  · obtain ⟨s, -, h⟩ := bind_eq_ok.1 h
    obtain ⟨hw, -⟩ := mk.inj (ok.inj h)
    cases hw
    exact trivial
  · obtain ⟨⟨d, m2⟩, -, h⟩ := bind_eq_ok.1 h
    split_ifs at h
    obtain ⟨⟨r, st⟩, hr, h⟩ := bind_eq_ok.1 h
    obtain ⟨hw, -⟩ := mk.inj (ok.inj h)
    obtain ⟨r', rfl, rfl⟩ := map_eq_some_iff.1 hw
    unfold restoreOutermost at hr
    split at hr
    · obtain ⟨r1, hr1, h1⟩ := map_eq_ok hr
      obtain rfl := some.inj (mk.inj h1).1
      exact restoreContainer_small _ _ _ _ _ hr1
    split at hr
    · cases hr
    · split_ifs at hr
      all_goals cases hr
    · obtain ⟨r1, hr1, h1⟩ := map_eq_ok hr
      obtain rfl := some.inj (mk.inj h1).1
      exact restoreBody_small (restoreContainer_small _) hr1
  · obtain ⟨⟨v, m2⟩, hv, h⟩ := bind_eq_ok.1 h
    obtain ⟨hw, -⟩ := mk.inj (ok.inj h)
    cases hw
    exact parseNumeric_small hv
  · obtain ⟨hw, -⟩ := mk.inj (ok.inj h)
    cases hw
    exact small_zero

/-! ## Rebuilding a saveable value -/

variable {back : ρ → Svalue ρ} {s : List Byte}

/-- such a key as the table sees it -/
def toKey (env : Env) (k : Svalue ρ) : RKey ρ := ⟨keyAddr env k, k⟩

/-- the key is rebuilt as it is -/
structure KeyStays (env : Env) (back : ρ → Svalue ρ) (k : Svalue ρ) : Prop where
  rebuilt : ∀ a, rebuild env back k a = .ok (k, a)
  kept : keyed env .key k = k
  word : ∀ a, keyWord env a k = (keyAddr env k, a)
  nonReal : k.type ≠ .real

theorem cstr_of_notMem (h : nul ∉ s) : cstr s = s :=
  takeWhile_eq_self_iff.2 fun c hc => by
    have : c ≠ nul := fun hcn => h (hcn ▸ hc)
    simpa using this

theorem rebuild_string (hnul : nul ∉ s) (hcr : cr ∉ s) (a : ℕ) :
    rebuild env back (.string s) a = .ok (.string s, a) := by
  have hmap : s.map unCr = s := by
    refine (map_congr_left fun c hc => ?_).trans (map_id s)
    exact if_neg fun h : c = cr => hcr (h ▸ hc)
  rw [rebuild, cstr_of_notMem hnul, hmap]

theorem rebuild_number {n : Int64} (h : FitsInt n) (a : ℕ) : rebuild env back (.number n) a = .ok (.number n, a) := by
  rw [rebuild, (wrap32_eq_iff n).2 h]

theorem keyStays {k : Svalue ρ} (hk : KeyOk env.cfg k) (hs : Saveable env.cfg k) (hn : Small k) : KeyStays env back k := by
  cases k with
  | number n => exact ⟨rebuild_number hn, rfl, fun _ => rfl, by simp [type]⟩
  | string s =>
    refine ⟨rebuild_string hs.2.1 hs.2.2, ?_, fun _ => rfl, by simp [type]⟩
    rw [keyed, if_pos rfl, take_of_length_le hk]
  | real r | array l | class_ l | mapping l | other => exact hk.elim

/-- rebuilding the value allocates no key container -/
def Stays (env : Env) (back : ρ → Svalue ρ) (v : Svalue ρ) : Prop := ∀ a r, rebuild env back v a = .ok r → r.2 = a

/-- the value is rebuilt as an equal one -/
def Rebuilt (env : Env) (back : ρ → Svalue ρ) (a : ℕ) (v w : Svalue ρ) : Prop :=
  rebuild env back v a = .ok (w, a) ∧ Same v w

/-- what a node is rebuilt as, if its value is -/
def rebuildNode (env : Env) (back : ρ → Svalue ρ) (a : ℕ) (p : Svalue ρ × Svalue ρ) : RKey ρ × Svalue ρ :=
  (toKey env p.1, ((rebuild env back p.2 a).toOption.map fst).getD p.2)

variable {a : ℕ} {l : List (Svalue ρ × Svalue ρ)} {r : Svalue ρ × ℕ}

theorem rebuildNode_snd {p : Svalue ρ × Svalue ρ} (h : rebuild env back p.2 a = .ok (w, a)) :
    (rebuildNode env back a p).2 = w := by
  rw [rebuildNode, h]
  rfl

theorem rebuildNodes_ok_iff (hkey : ∀ p ∈ l, KeyStays env back p.1) (hstay : ∀ p ∈ l, Stays env back p.2)
    {t : MappingT (RKey ρ) (Svalue ρ)} {r : MappingT (RKey ρ) (Svalue ρ) × ℕ} :
    rebuildNodes env back l t a = .ok r ↔ (∀ p ∈ l, ∃ w, rebuild env back p.2 a = .ok (w, a)) ∧
      fill env.cfg (.number 0) t (l.map (rebuildNode env back a)) = .ok r.1 ∧ r.2 = a := by
  induction l generalizing t with
  | nil =>
    obtain ⟨t', a'⟩ := r
    simp [rebuildNodes, fill, eq_comm]
  | cons p l ih =>
    obtain ⟨k, v⟩ := p
    obtain ⟨hk, hkey⟩ := forall_mem_cons.1 hkey
    obtain ⟨hv, hstay⟩ := forall_mem_cons.1 hstay
    rw [forall_mem_cons, map_cons, rebuildNode, rebuildNodes, hk.rebuilt]
    dsimp only at hv hk ⊢
    cases hw : rebuild env back v a with
    | error e => simp
    | ok w =>
      obtain rfl : w.2 = a := hv _ _ hw
      simp only [hk.kept, hk.word, fill, toKey, Except.toOption, map_some, getD_some]
      cases insert env.cfg (.number 0) false t (⟨keyAddr env k, k⟩ : RKey ρ) (some w.1) with
      | error e => simp
      | ok t' =>
        dsimp only
        rw [ih hkey hstay, and_iff_right (a := ∃ w', Except.ok w = .ok (w', w.2)) ⟨w.1, rfl⟩]

omit [Double ρ] in
theorem walk_perm (t : MappingT (RKey ρ) (Svalue ρ)) : (walk t).Perm ((nodes t).map fun p => (p.1.value, p.2)) :=
  (List.Perm.flatten (reverse_perm t.table)).map _

theorem rebuild_mapping_ok_iff (hkey : ∀ p ∈ l, KeyStays env back p.1) (hstay : ∀ p ∈ l, Stays env back p.2) :
    rebuild env back (.mapping l) a = .ok r ↔ (∀ p ∈ l, ∃ w, rebuild env back p.2 a = .ok (w, a)) ∧
      ∃ t, fill env.cfg (.number 0) (allocateMapping env.cfg l.length) (l.map (rebuildNode env back a)) = .ok t ∧
        r = (.mapping (walk t), a) := by
  rw [rebuild]
  cases l with
  | nil =>
    have hempty : walk (allocateMapping env.cfg 0 : MappingT (RKey ρ) (Svalue ρ)) = [] := by
      have hnil : nodes (allocateMapping env.cfg 0 : MappingT (RKey ρ) (Svalue ρ)) = [] := by
        simp [allocateMapping_eq env.cfg (by simp : min 0 env.cfg.maxMappingSize < 65536), nodes, emptyTable]
      have := walk_perm (allocateMapping env.cfg 0 : MappingT (RKey ρ) (Svalue ρ))
      rw [hnil] at this
      exact this.eq_nil
    simp [fill, hempty, eq_comm]
  | cons p l =>
    constructor
    · intro h
      obtain ⟨r', hr', rfl⟩ := map_eq_ok h
      obtain ⟨hval, hfill, rfl⟩ := (rebuildNodes_ok_iff hkey hstay).1 hr'
      exact ⟨hval, r'.1, hfill, rfl⟩
    · rintro ⟨hval, t, hfill, rfl⟩
      rw [(rebuildNodes_ok_iff hkey hstay (r := (t, a))).2 ⟨hval, hfill, rfl⟩]
      rfl

theorem items_stay {l : List (Svalue ρ)} (hstay : ∀ v ∈ l, Stays env back v) {r : List (Svalue ρ) × ℕ}
    (h : rebuildItems env back l a = .ok r) : r.2 = a := by
  induction l generalizing r with
  | nil =>
    cases h
    rfl
  | cons v l ih =>
    obtain ⟨hv, hl⟩ := forall_mem_cons.1 hstay
    rw [rebuildItems] at h
    cases hw : rebuild env back v a with
    | error e => rw [hw] at h; cases h
    | ok w =>
      obtain rfl : w.2 = a := hv _ _ hw
      rw [hw] at h
      obtain ⟨q, hq, rfl⟩ := map_eq_ok h
      exact ih hl (r := q) hq

theorem rebuild_array {l : List (Svalue ρ)} (hlen : l.length ≤ env.cfg.maxArraySize) :
    rebuild env back (.array l) a = (rebuildItems env back l a).map fun r => (.array r.1, r.2) := by
  rw [rebuild, if_neg (by omega)]

variable (back) in
/-- what the conditions say of the parts of a mapping -/
theorem mapping_parts (hs : Saveable env.cfg (.mapping l)) (hn : Small (.mapping l)) :
    ∀ p ∈ l, KeyStays env back p.1 ∧ Saveable env.cfg p.2 ∧ Small p.2 := by
  intro p hp
  have hs' := allNodes_iff.1 hs.2 p hp
  have hn' := allNodes_iff.1 hn.2 p hp
  exact ⟨keyStays (hs.1.2.1 p hp) hs'.1 hn'.1, hs'.2, hn'.2⟩

variable {v : Svalue ρ}

theorem stays (hs : Saveable env.cfg v) (hn : Small v) : Stays env back v := by
  induction v using induction with
  | number n | string s => intro a r h; obtain rfl := ok.inj h; rfl
  | real r | other => exact hs.elim
  | array l ih =>
    intro a r h
    rw [rebuild_array hs.1] at h
    obtain ⟨r', hr, rfl⟩ := map_eq_ok h
    exact items_stay (fun v hv => ih v hv (allItems_iff.1 hs.2 v hv) (allItems_iff.1 hn.2 v hv)) hr
  | class_ l ih =>
    intro a r h
    obtain ⟨r', hr, rfl⟩ := map_eq_ok h
    exact items_stay (fun v hv => ih v hv (allItems_iff.1 hs.2 v hv) (allItems_iff.1 hn.2 v hv)) hr
  | mapping l ih =>
    intro a r h
    have hparts := mapping_parts back hs hn
    obtain ⟨-, t, -, rfl⟩ := (rebuild_mapping_ok_iff (fun p hp => (hparts p hp).1)
      (fun p hp => (ih p hp).2 (hparts p hp).2.1 (hparts p hp).2.2)).1 h
    rfl

/-- an array or class instance comes back when its items do, one by one -/
theorem items_rebuilt_iff {C : List (Svalue ρ) → Svalue ρ} (hinj : Function.Injective C) {l : List (Svalue ρ)}
    (hC : rebuild env back (C l) a = (rebuildItems env back l a).map fun r => (C r.1, r.2))
    (hstay : ∀ v ∈ l, Stays env back v) (hsame : ∀ w, Same (C l) w ↔ ∃ l', w = C l' ∧ SameItems l l') :
    (∃ w, Rebuilt env back a (C l) w) ↔ ∀ v ∈ l, ∃ w, Rebuilt env back a v w := by
  have hwhole : (∃ w, Rebuilt env back a (C l) w) ↔
      ∃ l', rebuildItems env back l a = .ok (l', a) ∧ SameItems l l' := by
    constructor
    · rintro ⟨w, hw, hs⟩
      obtain ⟨⟨l', a'⟩, hl, heq⟩ := map_eq_ok (hC ▸ hw)
      obtain ⟨l2, rfl, hs2⟩ := (hsame w).1 hs
      obtain ⟨h1, rfl⟩ := mk.inj heq
      obtain rfl : l' = l2 := hinj h1
      exact ⟨l', hl, hs2⟩
    · rintro ⟨l', hl, hs⟩
      exact ⟨C l', by rw [hC, hl]; rfl, (hsame _).2 ⟨l', rfl, hs⟩⟩
  rw [hwhole]
  clear hwhole hC hsame
  induction l with
  | nil => simp [SameItems, rebuildItems]
  | cons v l ih =>
    obtain ⟨hv, hl⟩ := forall_mem_cons.1 hstay
    rw [forall_mem_cons]
    constructor
    · rintro ⟨l', h, w, r, rfl, hw, hr⟩
      rw [rebuildItems] at h
      cases hx : rebuild env back v a with
      | error e => rw [hx] at h; cases h
      | ok x =>
        obtain rfl : x.2 = a := hv _ _ hx
        rw [hx] at h
        obtain ⟨⟨q, b⟩, hq, heq⟩ := map_eq_ok h
        cases heq
        exact ⟨⟨x.1, hx, hw⟩, (ih hl).1 ⟨q, hq, hr⟩⟩
    · rintro ⟨⟨w, hRw, hw⟩, hrest⟩
      obtain ⟨r, hR, hr⟩ := (ih hl).2 hrest
      refine ⟨w :: r, ?_, w, r, rfl, hw, hr⟩
      rw [rebuildItems, hRw]
      simp only [hR]
      rfl

/-! ## Mappings -/

variable {t : MappingT (RKey ρ) (Svalue ρ)} {l' : List (RKey ρ × Svalue ρ)}

omit [Double ρ] in
/-- a table filled with distinct union words holds exactly the rebuilt nodes -/
theorem walk_filled (hcfg : env.cfg.maxMappingSize < 65536) (hnr : ∀ q ∈ l', NonReal q.1)
    (hnodup : (l'.map fun q => MapKey.word q.1).Nodup)
    (hfill : fill env.cfg (.number 0) (allocateMapping env.cfg l'.length) l' = .ok t) :
    (walk t).Perm (l'.map fun q => (q.1.value, q.2)) := by
  have hmin : min l'.length env.cfg.maxMappingSize < 65536 := by omega
  have halloc := allocateMapping_eq (κ := RKey ρ) (υ := Svalue ρ) env.cfg hmin
  have hfresh : Mapping.Fresh (allocateMapping env.cfg l'.length) l' :=
    ⟨fun q _ => by rw [halloc, absOf_emptyTable], hnodup⟩
  have hperm := fill_perm (inv_allocateMapping env.cfg hmin) hnr hfresh hfill
  have hnil : nodes (allocateMapping env.cfg l'.length : MappingT (RKey ρ) (Svalue ρ)) = [] := by
    simp [halloc, nodes, emptyTable]
  rw [hnil] at hperm
  exact (walk_perm t).trans (hperm.map _)

omit [Double ρ] in
/-- a table with a node for each of the given keys has lost none to another with the same union word -/
theorem nodup_of_kept (hcfg : env.cfg.maxMappingSize < 65536) (hnr : ∀ q ∈ l', NonReal q.1)
    (hfill : fill env.cfg (.number 0) (allocateMapping env.cfg l'.length) l' = .ok t)
    (hlen : l'.length ≤ (walk t).length) : (l'.map fun q => MapKey.word q.1).Nodup := by
  have hmin : min l'.length env.cfg.maxMappingSize < 65536 := by omega
  obtain ⟨⟨d, hinv⟩, hsub⟩ := fill_ok (inv_allocateMapping env.cfg hmin) hnr hfill
  rw [allocateMapping_eq env.cfg hmin, absOf_emptyTable] at hsub
  have hnodup : ((nodes t).map fun q => MapKey.word q.1).Nodup := by
    have := (distinct_word hinv.shape.nonReal).1 hinv.shape.distinct
    rw [List.Nodup, pairwise_map]
    exact this.imp fun hne heq => by simp [sameWord, heq] at hne
  have hwords : (nodes t).map (fun q => MapKey.word q.1) ⊆ (l'.map fun q => MapKey.word q.1).dedup := by
    intro w hw
    obtain ⟨q, hq, rfl⟩ := mem_map.1 hw
    have hsome : absOf t (MapKey.word q.1) ≠ none := by
      intro hnone
      have := chainMap_none.1 hnone q hq
      simp [sameWord] at this
    rcases hsub _ hsome with h | h
    · exact absurd rfl h
    · exact mem_dedup.2 h
  have hle := (hnodup.subperm hwords).length_le
  have hwalk := (walk_perm t).length_eq
  rw [length_map] at hle hwalk
  have hsl := dedup_sublist (l'.map fun q => MapKey.word q.1)
  have heq := hsl.eq_of_length_le (by rw [length_map]; omega)
  rw [← heq]
  exact nodup_dedup _

theorem rebuildNode_nonReal (hkey : ∀ p ∈ l, KeyStays env back p.1) :
    ∀ q ∈ l.map (rebuildNode env back a), NonReal q.1 := forall_mem_map.2 fun p hp => (hkey p hp).nonReal

section

variable (hcfg : env.cfg.maxMappingSize < 65536)
include hcfg

/-- a mapping that comes back as the same function was refilled without losing a key, and its values came back -/
theorem refillable_of_same (hs : Saveable env.cfg (.mapping l)) (hn : Small (.mapping l))
    (h : Rebuilt env back a (.mapping l) w) : Refillable env l ∧ ∀ p ∈ l, ∃ w, Rebuilt env back a p.2 w := by
  have hparts := mapping_parts back hs hn
  obtain ⟨hw, lt, rfl, -, -, hnodes⟩ := h
  obtain ⟨hval, t, hfill, heq⟩ := (rebuild_mapping_ok_iff (fun p hp => (hparts p hp).1)
    (fun p hp => stays (hparts p hp).2.1 (hparts p hp).2.2)).1 hw
  obtain rfl := mapping.inj (mk.inj heq).1
  rw [sameNodes_iff] at hnodes
  have hnr := rebuildNode_nonReal (a := a) fun p hp => (hparts p hp).1
  rw [← length_map (rebuildNode env back a)] at hfill
  have hlen : (l.map (rebuildNode env back a)).length ≤ (walk t).length := by
    have hsub : l.map fst ⊆ (walk t).map fst := by
      intro k hk
      obtain ⟨p, hp, rfl⟩ := mem_map.1 hk
      obtain ⟨w, hw, -⟩ := hnodes p hp
      exact mem_map.2 ⟨_, hw, rfl⟩
    simpa only [length_map] using (hs.1.2.2.subperm hsub).length_le
  have hnodup := nodup_of_kept hcfg hnr hfill hlen
  have hroom := (fill_allocated_iff hcfg _ hnr hnodup (by rw [length_map]; exact hs.1.1)).1 ⟨t, hfill⟩
  have hperm := walk_filled hcfg hnr hnodup hfill
  rw [List.map_map] at hnodup hroom
  refine ⟨⟨hnodup, hroom⟩, fun p hp => ?_⟩
  -- the node with this key is the one that was rebuilt from it, since the keys are distinct
  obtain ⟨w, hw, hpw⟩ := hnodes p hp
  obtain ⟨q, hq, hqw⟩ := mem_map.1 (hperm.mem_iff.1 hw)
  obtain ⟨p', hp', rfl⟩ := mem_map.1 hq
  obtain ⟨h1, rfl⟩ := mk.inj hqw
  obtain rfl : p' = p := inj_on_of_nodup_map hs.1.2.2 hp' hp h1
  obtain ⟨w, hw⟩ := hval p' hp
  exact ⟨w, hw, rebuildNode_snd hw ▸ hpw⟩

theorem same_of_refillable (hs : Saveable env.cfg (.mapping l)) (hn : Small (.mapping l)) (hr : Refillable env l)
    (hvals : ∀ p ∈ l, ∃ w, Rebuilt env back a p.2 w) : ∃ w, Rebuilt env back a (.mapping l) w := by
  have hparts := mapping_parts back hs hn
  obtain ⟨hnodup, hroom⟩ := hr
  have hval : ∀ p ∈ l, Rebuilt env back a p.2 (rebuildNode env back a p).2 := by
    intro p hp
    obtain ⟨w, hw, hsame⟩ := hvals p hp
    rw [rebuildNode_snd hw]
    exact ⟨hw, hsame⟩
  have hnr := rebuildNode_nonReal (a := a) fun p hp => (hparts p hp).1
  have hwords : (l.map (rebuildNode env back a)).map (fun q => MapKey.word q.1) = l.map fun p => keyAddr env p.1 :=
    List.map_map
  rw [← hwords] at hnodup hroom
  obtain ⟨t, hfill⟩ := (fill_allocated_iff hcfg (.number 0) hnr hnodup (by rw [length_map]; exact hs.1.1)).2 hroom
  have hperm := walk_filled hcfg hnr hnodup hfill
  have hwalk : ((walk t).map fst).Perm (l.map fst) := by
    have := hperm.map fst
    rw [List.map_map, List.map_map] at this
    exact this
  refine ⟨.mapping (walk t), (rebuild_mapping_ok_iff (fun p hp => (hparts p hp).1)
    (fun p hp => stays (hparts p hp).2.1 (hparts p hp).2.2)).2 ⟨fun p hp => ⟨_, (hval p hp).1⟩, t, ?_, rfl⟩,
    walk t, rfl, hwalk.nodup_iff.2 hs.1.2.2, hwalk.subset, sameNodes_iff.2 fun p hp => ?_⟩
  · rwa [length_map] at hfill
  · exact ⟨_, hperm.mem_iff.2 (mem_map.2 ⟨_, mem_map_of_mem hp, rfl⟩), (hval p hp).2⟩

variable (back) in
/-- **Rebuilding a saveable value** whose numbers fit an `int` gives an equal value exactly when all its mappings can be
refilled. -/
theorem rebuilt_iff (v : Svalue ρ) (hs : Saveable env.cfg v) (hn : Small v)
    (a : ℕ) : (∃ w, Rebuilt env back a v w) ↔ v.All (OnMapping (Refillable env)) := by
  induction v using induction with
  | number n => exact iff_of_true ⟨_, rebuild_number hn a, rfl⟩ trivial
  | string s => exact iff_of_true ⟨_, rebuild_string hs.2.1 hs.2.2 a, rfl⟩ trivial
  | real r | other => exact hs.elim
  | array l ih =>
    have hsl := allItems_iff.1 hs.2
    have hnl := allItems_iff.1 hn.2
    rw [Svalue.All, allItems_iff, ← forall₂_congr fun v hv => ih v hv (hsl v hv) (hnl v hv),
      items_rebuilt_iff (fun _ _ => array.inj) (rebuild_array hs.1) (fun v hv => stays (hsl v hv) (hnl v hv))
        fun w => by rw [Same]]
    exact (and_iff_right trivial).symm
  | class_ l ih =>
    have hsl := allItems_iff.1 hs.2
    have hnl := allItems_iff.1 hn.2
    rw [Svalue.All, allItems_iff, ← forall₂_congr fun v hv => ih v hv (hsl v hv) (hnl v hv),
      items_rebuilt_iff (fun _ _ => class_.inj) (by rw [rebuild]) (fun v hv => stays (hsl v hv) (hnl v hv))
        fun w => by rw [Same]]
    exact (and_iff_right trivial).symm
  | mapping l ih =>
    have hkey : ∀ p ∈ l, p.1.All (OnMapping (Refillable env)) := by
      intro p hp
      have := hs.1.2.1 p hp
      cases hk : p.1 <;> rw [hk] at this <;> first | exact trivial | exact this.elim
    have hval : ∀ p ∈ l, (∃ w, Rebuilt env back a p.2 w) ↔ p.2.All (OnMapping (Refillable env)) := fun p hp =>
      (ih p hp).2 (allNodes_iff.1 hs.2 p hp).2 (allNodes_iff.1 hn.2 p hp).2
    rw [Svalue.All, allNodes_iff]
    constructor
    · rintro ⟨w, hw⟩
      obtain ⟨hr, hvals⟩ := refillable_of_same hcfg hs hn hw
      exact ⟨hr, fun p hp => ⟨hkey p hp, (hval p hp).1 (hvals p hp)⟩⟩
    · rintro ⟨hr, hvals⟩
      exact same_of_refillable hcfg hs hn hr fun p hp => (hval p hp).2 (hvals p hp).2

end

/-! ## The round trip -/

omit [Double ρ] in
mutual

/-- equal values have numbers of the same size -/
theorem small_of_same : ∀ {v w : Svalue ρ}, Same v w → Small w → Small v
  | .number n, w, h, hw => by rw [h] at hw; exact hw
  | .string _, _, _, _ | .real _, _, _, _ | .other, _, _, _ => trivial
  | .array l, w, h, hw | .class_ l, w, h, hw => by
    obtain ⟨l', rfl, hl⟩ := h
    exact ⟨trivial, smallItems_of_same hl hw.2⟩
  | .mapping l, w, h, hw => by
    obtain ⟨l', rfl, -, -, hl⟩ := h
    exact ⟨trivial, smallNodes_of_same hl hw.2⟩

theorem smallItems_of_same : ∀ {l l' : List (Svalue ρ)}, SameItems l l' → AllItems (OnNumber FitsInt) l' →
    AllItems (OnNumber FitsInt) l
  | [], _, _, _ => trivial
  | v :: l, _, h, hl' => by
    obtain ⟨w, r, rfl, hw, hr⟩ := h
    exact ⟨small_of_same hw hl'.1, smallItems_of_same hr hl'.2⟩

theorem smallNodes_of_same : ∀ {l l' : List (Svalue ρ × Svalue ρ)}, SameNodes l l' →
    AllNodes (OnNumber FitsInt) l' → AllNodes (OnNumber FitsInt) l
  | [], _, _, _ => trivial
  | (k, v) :: l, l', h, hl' => by
    obtain ⟨⟨w, hw, hvw⟩, hl⟩ := h
    obtain ⟨hk, hw⟩ := allNodes_iff.1 hl' _ hw
    exact ⟨hk, small_of_same hvw hw, smallNodes_of_same hl hl'⟩

end

omit [Double ρ] in
theorem noMin_of_small (h : Small v) : NoMin v := by
  refine h.imp fun w hw => ?_
  cases w with
  | number n =>
    rintro rfl
    exact absurd (show FitsInt Int64.minValue from hw) (by decide)
  | _ => exact trivial

omit [Double ρ] in
theorem scannable_of_saveable {cfg : Config} (h : Saveable cfg v) : Scannable v := by
  have hitem : ∀ w : Svalue ρ, Saveable cfg w → OuterOk w := by
    intro w hw
    cases w with
    | string s =>
      change ValidUtf8 (cstr s)
      rw [cstr_of_notMem hw.2.1]
      exact hw.1
    | _ => exact trivial
  intro w hw
  cases v with
  | array l | class_ l => exact hitem w (allItems_iff.1 h.2 w hw)
  | mapping l =>
    obtain ⟨p, hp, hw⟩ := mem_flatMap.1 hw
    have hnode := allNodes_iff.1 h.2 p hp
    rcases mem_pair.1 hw with rfl | rfl
    · exact hitem _ hnode.1
    · exact hitem _ hnode.2
  | _ => exact absurd hw (by simp [children])

theorem realsRead_of_saveable (h : Saveable env.cfg v) : RealsRead back v := by
  refine h.imp fun w hw => ?_
  cases w with
  | real r => exact hw.elim
  | _ => exact trivial

/-- **The round trip.** A saveable value survives saving and restoring exactly when its numbers fit an `int` and its
mappings can be refilled. -/
theorem roundTrips_iff (env : Env) (hcfg : env.cfg.maxMappingSize < 65536) (hfmt : ∀ r : ρ, Plain (Double.fmtG r))
    (v : Svalue ρ) (hs : Saveable env.cfg v) : RoundTrips env v ↔ Restorable env v := by
  have hback : RealsRead (fun r => .real r) v := realsRead_of_saveable hs
  constructor
  · rintro ⟨buf, hbuf, hrestore⟩
    have hn : Small v := by
      obtain ⟨w, slots, hw, hsame⟩ := hrestore [] (.number 0) []
      obtain ⟨r, hr, hrw⟩ := map_eq_ok hw
      obtain ⟨o, slots'⟩ := r
      refine small_of_same hsame ?_
      rw [← (mk.inj hrw).1]
      cases o with
      | none => exact small_zero
      | some w' => exact restoreValue_small hr
    rw [saveSvalue_eq v (noMin_of_small hn), nil_append] at hbuf
    cases hbuf
    obtain ⟨w, slots, hw, hsame⟩ := hrestore [] (.number 0) []
    obtain ⟨slots', htext⟩ := restoreValue_text env hfmt hback (scannable_of_saveable hs) [] []
    rw [restoreSvalue, htext] at hw
    obtain ⟨r, hr, hrw⟩ := map_eq_ok hw
    obtain ⟨r', hr', rfl⟩ := map_eq_ok hr
    obtain ⟨rfl, -⟩ := mk.inj hrw
    obtain ⟨w, a⟩ := r'
    obtain rfl : a = 0 := stays hs hn _ _ hr'
    exact ⟨hn, (rebuilt_iff _ hcfg v hs hn 0).1 ⟨w, hr', hsame⟩⟩
  · rintro ⟨hn, hr⟩
    obtain ⟨w, hw, hsame⟩ := (rebuilt_iff (fun r => .real r) hcfg v hs hn 0).2 hr
    refine ⟨text v, by rw [saveSvalue_eq v (noMin_of_small hn), nil_append], fun slots old rest => ?_⟩
    obtain ⟨st, htext⟩ := restoreValue_text env hfmt hback (scannable_of_saveable hs) slots rest
    refine ⟨w, st.slots, ?_, hsame⟩
    rw [restoreSvalue, htext, hw]
    rfl

/-! ## Cases -/

/-- a C library whose only double is zero -/
inductive ZeroReal where
  | zero
deriving DecidableEq

instance : Double ZeroReal := ⟨fun _ => [digit0], fun _ _ _ _ => .zero, fun _ => 0⟩

theorem plain_zero (r : ZeroReal) : Plain (Double.fmtG r) := by
  refine ⟨by simp [Double.fmtG], ?_, ?_, ?_⟩
  all_goals simp [Double.fmtG]
  all_goals decide

/-- the default limits, and shared strings sixteen bytes apart by length -/
def sampleEnv : Env := ⟨Config.default, fun s => Int64.ofNat (16 * s.length + 4096), fun n => Int64.ofNat (16 * n), 0⟩

/-- an array of a string and a mapping -/
def sampleValue : Svalue ZeroReal :=
  .array [.string [104, 10, 105], .mapping [(.number 7, .string []), (.string [107], .number (-2147483648))]]

theorem sampleValue_roundTrips : Restorable sampleEnv sampleValue ∧ RoundTrips sampleEnv sampleValue := by
  have hok : Restorable sampleEnv sampleValue := by
    refine ⟨?_, ?_⟩
    · simp only [Small, sampleValue, Svalue.All, AllItems, AllNodes, OnNumber]
      decide
    · simp only [sampleValue, Svalue.All, AllItems, AllNodes, OnMapping, Refillable]
      decide
  have hsave : Saveable sampleEnv.cfg sampleValue := by
    refine ⟨by decide, ⟨⟨['h', '\n', 'i'], by decide⟩, by decide, by decide⟩, ⟨⟨by decide, ?_, ?_⟩, trivial,
      ⟨⟨[], rfl⟩, by decide, by decide⟩, ⟨⟨['k'], by decide⟩, by decide, by decide⟩, trivial, trivial⟩, trivial⟩
    · intro p hp
      rcases mem_pair.1 hp with rfl | rfl
      · exact trivial
      · show 1 ≤ hardLimit sampleEnv.cfg
        decide
    · simp
  exact ⟨hok, (roundTrips_iff sampleEnv (by decide) plain_zero sampleValue hsave).2 hok⟩

/-- **A number past 31 bits comes back as another one**: 2147483648 is written as it is and read as -2147483648. -/
theorem number_past_int : Saveable sampleEnv.cfg (.number 2147483648 : Svalue ZeroReal) ∧
    saveSvalue (.number 2147483648 : Svalue ZeroReal) [] = some [50, 49, 52, 55, 52, 56, 51, 54, 52, 56] ∧
    restoreSvalue sampleEnv [] (.number 0 : Svalue ZeroReal) [50, 49, 52, 55, 52, 56, 51, 54, 52, 56, 0] =
      .ok (.number (-2147483648), []) ∧
    ¬ RoundTrips sampleEnv (.number 2147483648 : Svalue ZeroReal) := by
  have hsave : saveSvalue (.number 2147483648 : Svalue ZeroReal) [] = some [50, 49, 52, 55, 52, 56, 51, 54, 52, 56] := by
    decide
  have hread : restoreSvalue sampleEnv [] (.number 0 : Svalue ZeroReal) [50, 49, 52, 55, 52, 56, 51, 54, 52, 56, 0] =
      .ok (.number (-2147483648), []) := rfl
  refine ⟨trivial, hsave, hread, ?_⟩
  rintro ⟨buf, hbuf, hrestore⟩
  obtain rfl := some.inj (hsave.symm.trans hbuf)
  obtain ⟨w, slots, hw, hsame⟩ := hrestore [] (.number 0) []
  obtain ⟨rfl, -⟩ := mk.inj (ok.inj (hread.symm.trans hw))
  exact absurd (number.inj hsame) (by decide)

end Lithos.Lpc.Save
