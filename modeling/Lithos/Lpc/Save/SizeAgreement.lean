/-
The two passes over a saved container: the sizes that `restore_size` and `restore_internal_size` leave in
`save_svalue_sizes`, and what `restore_array`, `restore_class` and `restore_mapping` then do with them.

The parser can stop half way only by raising an LPC error (an array above the size limit, a mapping that is full); within
the limits it does not (`rebuild_total`).

Results:
- `sizes_agree`: the sizing pass records the sizes of the inner containers in the order in which they open, every
  container reads exactly as many elements as it was sized for, and the recorded sizes are used up at the end of the
  text.
- `invalid_utf8_not_sized`: a string directly in the outermost container that is not UTF-8 makes the sizing pass fail.
-/
import Lithos.Lpc.Save.RoundTrip

namespace Lithos.Lpc.Save

open List Except

open Lithos.Lpc.Mapping (MapKey MappingT MapError allocateMapping NonReal absOf)

section SizeAgreement

variable {ρ : Type} [Double ρ] {env : Env} {back : ρ → Svalue ρ} {l : List (Svalue ρ)} {e : Fail}
  {t : MappingT (RKey ρ) (Svalue ρ)}

/-- what is rebuilt stops only at an LPC error -/
theorem rebuild_error (hfmt : ∀ r : ρ, Plain (Double.fmtG r)) (v : Svalue ρ) (hr : RealsRead back v) (a : ℕ) (e : Fail)
    (h : rebuild env back v a = .error e) : e.IsLpcError := by
  have hgood := node_readable v hr
  have hread : Verdict _ _ (v.node.read (ρ := ρ) env .array a) :=
    read_verdict _ .array a ((node_saves hfmt v).lexed false false)
  rw [read_node v hr, h] at hread
  exact hread.2 hgood

/-! ## Within the limits it does not stop -/

/-- containers within the size limits, no real as a key -/
def WithinLimits (cfg : Config) (v : Svalue ρ) : Prop :=
  v.All fun w =>
    match w with
    | .array l => l.length ≤ cfg.maxArraySize
    | .mapping l => l.length ≤ cfg.maxMappingSize ∧ ∀ p ∈ l, p.1.type ≠ .real
    | _ => True

theorem rebuildItems_total (ih : ∀ v ∈ l, ∀ a, ∃ r, rebuild env back v a = .ok r) (a : ℕ) :
    ∃ r, rebuildItems env back l a = .ok r := by
  induction l generalizing a with
  | nil => exact ⟨_, rfl⟩
  | cons v l ihl =>
    obtain ⟨r, hr⟩ := ih v (by simp) a
    obtain ⟨rs, hrs⟩ := ihl (fun w hw => ih w (.tail _ hw)) r.2
    exact ⟨_, by rw [rebuildItems, hr]; simp only [hrs]; rfl⟩

theorem type_rebuild {k : Svalue ρ} (hk : k.type ≠ .real) {a : ℕ} {r : Svalue ρ × ℕ} (h : rebuild env back k a = .ok r)
    (p : Place) : (keyed env p r.1).type ≠ .real := by
  cases k with
  | real x => exact absurd rfl hk
  | number n | string s | other => obtain rfl := ok.inj h; simp [keyed, Svalue.type]
  | array l =>
    rw [rebuild] at h
    split_ifs at h
    obtain ⟨r', -, rfl⟩ := map_eq_ok h
    simp [keyed, Svalue.type]
  | class_ l =>
    obtain ⟨r', -, rfl⟩ := map_eq_ok h
    simp [keyed, Svalue.type]
  | mapping l =>
    rw [rebuild] at h
    split_ifs at h
    · obtain rfl := ok.inj h; simp [keyed, Svalue.type]
    · obtain ⟨r', -, rfl⟩ := map_eq_ok h
      simp [keyed, Svalue.type]

theorem rebuildNodes_total (hlimit : env.cfg.maxMappingSize ≤ 26200) {l : List (Svalue ρ × Svalue ρ)}
    (ih : ∀ p ∈ l, (∀ a, ∃ r, rebuild env back p.1 a = .ok r) ∧ ∀ a, ∃ r, rebuild env back p.2 a = .ok r)
    (hkey : ∀ p ∈ l, p.1.type ≠ .real) {e d : ℕ} (ht : Mapping.Inv e d t)
    (hroom : t.count + l.length ≤ env.cfg.maxMappingSize) (a : ℕ) : ∃ r, rebuildNodes env back l t a = .ok r := by
  induction l generalizing t d a with
  | nil => exact ⟨_, rfl⟩
  | cons p l ihl =>
    obtain ⟨k, v⟩ := p
    rw [length_cons] at hroom
    obtain ⟨ihk, ihv⟩ := ih (k, v) (.head _)
    obtain ⟨rk, hrk⟩ := ihk a
    obtain ⟨rv, hrv⟩ := ihv rk.2
    have hnr : NonReal (⟨(keyWord env rv.2 (keyed env .key rk.1)).1, keyed env .key rk.1⟩ : RKey ρ) :=
      type_rebuild (hkey (k, v) mem_cons_self) hrk .key
    obtain ⟨t', hins⟩ := Mapping.insert_room ht (.number 0) hnr (some rv.1) (by omega) hlimit
    obtain ⟨⟨d', ht'⟩, -⟩ := Mapping.insert_ok ht hnr hins
    have hcount := Mapping.insert_count ht hnr hins
    obtain ⟨r, hr⟩ := ihl (fun q hq => ih q (.tail _ hq)) (fun q hq => hkey q (.tail _ hq))
      ht' (by omega) (keyWord env rv.2 (keyed env .key rk.1)).2
    refine ⟨r, ?_⟩
    rw [rebuildNodes, hrk]
    simp only [hrv, hins, hr]

variable (back) in
theorem rebuild_total (hlimit : env.cfg.maxMappingSize ≤ 26200) (v : Svalue ρ) (h : WithinLimits env.cfg v) (a : ℕ) :
    ∃ r, rebuild env back v a = .ok r := by
  induction v using Svalue.induction generalizing a with
  | number n | real r | string s | other => exact ⟨_, rfl⟩
  | array l ih =>
    obtain ⟨r, hr⟩ := rebuildItems_total (fun v hv a => ih v hv (allItems_iff.1 h.2 v hv) a) a
    exact ⟨_, by rw [rebuild, if_neg (Nat.not_lt.2 h.1), hr]; rfl⟩
  | class_ l ih =>
    obtain ⟨r, hr⟩ := rebuildItems_total (fun v hv a => ih v hv (allItems_iff.1 h.2 v hv) a) a
    exact ⟨_, by rw [rebuild, hr]; rfl⟩
  | mapping l ih =>
    rw [rebuild]
    split_ifs with hl
    · exact ⟨_, rfl⟩
    · have hparts := allNodes_iff.1 h.2
      have hmin : min l.length env.cfg.maxMappingSize < 65536 := by omega
      have hcount : (allocateMapping env.cfg l.length : MappingT (RKey ρ) (Svalue ρ)).count = 0 := by
        rw [Mapping.allocateMapping_eq env.cfg hmin]
        rfl
      obtain ⟨r, hr⟩ := rebuildNodes_total hlimit
        (fun p hp => ⟨fun a => (ih p hp).1 (hparts p hp).1 a, fun a => (ih p hp).2 (hparts p hp).2 a⟩) h.1.2
        (Mapping.inv_allocateMapping env.cfg hmin) (by have := h.1.1; omega) a
      exact ⟨_, by rw [hr]; rfl⟩

/-! ## The two passes -/

def Svalue.IsContainer : Svalue ρ → Prop
  | .array _ => True
  | .class_ _ => True
  | .mapping _ => True
  | _ => False

theorem exists_group {v : Svalue ρ} (h : v.IsContainer) : ∃ o c l, v.node = .group o c l := by
  cases v with
  | array l | class_ l | mapping l => exact ⟨_, _, _, rfl⟩
  | _ => exact h.elim

/-- the parse of the container that opens with `d`: every container gives back as many elements as it was sized for,
the text is read to its end, and so are the sizes -/
def ReadsAll (env : Env) (slots : List ℕ) (v : Svalue ρ) (d : Byte) (b rest : Mem) (st : Sizes) : Prop :=
  ∃ (w : Svalue ρ) (allocs : ℕ),
    restoreOutermost env ⟨0, slots⟩ d (b ++ rest) = .ok (some ⟨w, diag (sizesOf v), rest, ⟨st, allocs⟩⟩, st)

/-- **The two passes agree.** For the text of a container, the sizing pass leaves the size of every inner container in
the order in which they open. The parser gives each container exactly that many elements and is at the end of the list
when it is at the end of the text, unless it stops at an LPC error; within the limits it does not. -/
theorem sizes_agree (env : Env) (back : ρ → Svalue ρ) (hfmt : ∀ r : ρ, Plain (Double.fmtG r)) (v : Svalue ρ)
    (hv : v.IsContainer) (hmin : NoMin v) (hreal : RealsRead back v) (hutf8 : Scannable v) (slots : List ℕ) (rest : Mem) :
    ∃ d b st, saveSvalue v [] = some (lparen :: d :: b) ∧ Recorded ⟨0, slots⟩ st (sizesOf v).tail ∧
      restoreSize ((b ++ rest).length + 1) (b ++ rest) (d == lbracket) false 0 ⟨0, slots⟩ =
        .size v.slotSize { st with depth := 0 } ∧
      ((∃ e : Fail, e.IsLpcError ∧
        restoreOutermost env ⟨0, slots⟩ d (b ++ rest) = (.error e : Except Fail (Option (Parsed (Svalue ρ)) × Sizes))) ∨
        ReadsAll env slots v d b rest st) ∧
      (env.cfg.maxMappingSize ≤ 26200 → WithinLimits env.cfg v → ReadsAll env slots v d b rest st) := by
  obtain ⟨o, c, l, hnode⟩ := exists_group hv
  obtain ⟨st, hrec, hsize, hparse⟩ := restoreOutermost_text env hfmt hreal hutf8 hnode slots rest
  obtain ⟨hrender, hsizes, hlex⟩ := node_saves hfmt v
  have hsave : saveSvalue v [] = some (lparen :: o :: (renderItems (o == lbracket) false l ++ [c, rparen])) := by
    rw [saveSvalue_eq v hmin, nil_append, ← hrender, hnode, Node.render]
  have hmem : renderItems (o == lbracket) false l ++ [c, rparen] ++ rest =
      renderItems (o == lbracket) false l ++ c :: rparen :: rest := append_assoc ..
  rw [← hmem] at hsize hparse
  rw [hnode, Node.sizes] at hsizes
  refine ⟨o, _, st, hsave, hsizes ▸ hrec, hsize, ?_, fun hlimit hwithin => ?_⟩
  · cases hr : rebuild env back v 0 with
    | error e => exact .inl ⟨e, rebuild_error hfmt v hreal 0 e hr, by rw [hparse, hr]; rfl⟩
    | ok r => exact .inr ⟨r.1, r.2, by rw [hparse, hr]; rfl⟩
  · obtain ⟨r, hr⟩ := rebuild_total back hlimit v hwithin 0
    exact ⟨r.1, r.2, by rw [hparse, hr]; rfl⟩

end SizeAgreement

/-- an array in a class instance in an array, with a mapping behind it -/
def nestedSample : Svalue ZeroReal :=
  .array [.class_ [.array [.number 1, .string [34]], .other, .number 5], .mapping [(.string [92], .real .zero)],
    .string [200, 162]]

theorem nestedSample_agrees : sizesOf nestedSample = [3, 3, 2, 2] ∧ ∃ d b st,
    saveSvalue nestedSample [] = some (lparen :: d :: b) ∧ Recorded ⟨0, []⟩ st [3, 2, 2] ∧
      ReadsAll sampleEnv [] nestedSample d b [nul] st := by
  have hmin : NoMin nestedSample := by
    simp only [NoMin, nestedSample, Svalue.All, AllItems, AllNodes, OnNumber]
    decide
  have hreal : RealsRead (fun _ => .number 0) nestedSample := by
    simp only [RealsRead, nestedSample, Svalue.All, AllItems, AllNodes, OnReal, true_and, and_true]
    exact numberText_readsAs 0
  have hutf8 : Scannable nestedSample := by
    intro w hw
    simp only [nestedSample, Svalue.children, mem_cons, not_mem_nil, or_false] at hw
    rcases hw with rfl | rfl | rfl
    · exact trivial
    · exact trivial
    · exact ⟨['Ȣ'], by decide⟩
  have hlimits : WithinLimits sampleEnv.cfg nestedSample := by
    simp only [WithinLimits, nestedSample, Svalue.All, AllItems, AllNodes]
    decide
  obtain ⟨d, b, st, hsave, hrec, -, -, hread⟩ :=
    sizes_agree sampleEnv _ plain_zero nestedSample trivial hmin hreal hutf8 [] [nul]
  exact ⟨rfl, d, b, st, hsave, hrec, hread (by decide) hlimits⟩

/-- **A string that is not UTF-8 is not sized.** The text of an array with the one-byte string 0xff is written, but the
sizing pass stops at it and the array is not read back. -/
theorem invalid_utf8_not_sized :
    saveSvalue (.array [.string [255]] : Svalue ZeroReal) [] = some [40, 123, 34, 255, 34, 44, 125, 41] ∧
    restoreSize 100 [34, 255, 34, 44, 125, 41, 0] false false 0 ⟨0, []⟩ = .bad ⟨0, []⟩ ∧
    restoreOutermost sampleEnv ⟨0, []⟩ lbrace [34, 255, 34, 44, 125, 41, 0] =
      (.error (.rob .array) : Except Fail (Option (Parsed (Svalue ZeroReal)) × Sizes)) := by
  exact ⟨by decide, rfl, rfl⟩

end Lithos.Lpc.Save
