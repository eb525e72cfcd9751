/-
Mappings as finite maps, over whole runs.

The concrete side is a list of `MappingT` values, the abstract side a list of finite maps (`FinMap`). Both take the same
operations (`Op`): make a mapping, ask for a key's cell and write through it, look up, delete, copy.

Results:
- `step_refines`, `step_total`: one operation does to the mappings what it does to the finite maps, and within the size
  limit it has no error.
- `run_refines`: the same for every run from no mappings, with the invariant in every mapping the run has made.
- `share_depends_on_history`: the share of a table is not a function of its size alone.
-/
import Lithos.Lpc.MappingInv

namespace Lithos.Lpc.Mapping

open Lithos.Core.ChainTable List Function MapKey

/-! ## Runs -/

/-- what a program does with its mappings; a mapping is named by the order in which it was made -/
inductive Op (κ υ : Type) where
  | new (n : ℕ)
  | insert (i : ℕ) (k : κ) (w : Option υ) (oom : Bool)
  | find (i : ℕ) (k : κ)
  | delete (i : ℕ) (k : κ)
  | copy (i : ℕ)
deriving DecidableEq

section Runs

variable {κ υ : Type} [MapKey κ]

/-- ask for the key's cell, then write `w` through the pointer if there is something to write -/
def insert (cfg : Config) (zero : υ) (oom : Bool) (m : MappingT κ υ) (k : κ) (w : Option υ) :
    Except MapError (MappingT κ υ) :=
  match findForInsert cfg zero oom m k with
  | (m', .ok s) => .ok (match w with | some v => store m' s v | none => m')
  | (_, .error e) => .error e

/-- one operation: the mappings afterwards and what a lookup returned -/
def step (cfg : Config) (zero : υ) (st : List (MappingT κ υ)) :
    Op κ υ → Except MapError (List (MappingT κ υ) × Option υ)
  | .new n => .ok (st ++ [allocateMapping cfg n], none)
  | .insert i k w oom =>
    match st[i]? with
    | none => .ok (st, none)
    | some m => (insert cfg zero oom m k w).map fun m' => (st.set i m', none)
  | .find i k => .ok (st, st[i]?.map fun m => findInMapping zero m k)
  | .delete i k =>
    match st[i]? with
    | none => .ok (st, none)
    | some m => .ok (st.set i (mappingDelete m k), none)
  | .copy i => .ok (st ++ (st[i]?.map copyMapping).toList, none)

/-- a whole run, with the answers of its lookups in order; it stops at the first error -/
def run (cfg : Config) (zero : υ) : List (MappingT κ υ) → List (Op κ υ) → Except MapError (List (MappingT κ υ) × List υ)
  | st, [] => .ok (st, [])
  | st, op :: ops =>
    match step cfg zero st op with
    | .error e => .error e
    | .ok (st', o) => (run cfg zero st' ops).map fun r => (r.1, o.toList ++ r.2)

/-- the same insertion on a finite map -/
def FinMap.insert (zero : υ) (f : FinMap υ) (w : Int64) : Option υ → FinMap υ
  | some v => update f w (some v)
  | none => f.touch zero w

/-- the same operation on finite maps -/
def astep (zero : υ) (fs : List (FinMap υ)) : Op κ υ → List (FinMap υ) × Option υ
  | .new _ => (fs ++ [(fun _ => none : FinMap υ)], none)
  | .insert i k w _ => (fs.modify i fun f => f.insert zero (word k) w, none)
  | .find i k => (fs, fs[i]?.map fun f => (f (word k)).getD zero)
  | .delete i k => (fs.modify i fun f => update f (word k) none, none)
  | .copy i => (fs ++ fs[i]?.toList, none)

def arun (zero : υ) : List (FinMap υ) → List (Op κ υ) → List (FinMap υ) × List υ
  | fs, [] => (fs, [])
  | fs, op :: ops =>
    let s := astep zero fs op
    let r := arun zero s.1 ops
    (r.1, s.2.toList ++ r.2)

/-- keys are not reals, and a size hint cut to the limit fits 16 bits -/
def Op.Admissible (cfg : Config) : Op κ υ → Prop
  | .new n => min n cfg.maxMappingSize < 65536
  | .insert _ k _ _ => NonReal k
  | .find _ _ => True
  | .delete _ _ => True
  | .copy _ => True

/-- every mapping of the state has the invariant -/
def AllInv (st : List (MappingT κ υ)) : Prop := ∀ m ∈ st, ∃ e d, Inv e d m

variable {m : MappingT κ υ} {cfg : Config} {zero : υ} {e d : ℕ} {m' : MappingT κ υ} {k : κ} {w : Option υ}

theorem insert_ok (h : Inv e d m) {oom : Bool} (hk : NonReal k) (hok : insert cfg zero oom m k w = .ok m') :
    (∃ d', Inv e d' m') ∧ absOf m' = (absOf m).insert zero (word k) w := by
  unfold insert at hok
  split at hok
  · next m1 s heq =>
    obtain ⟨⟨d', hinv⟩, habs, hholds⟩ := findForInsert_ok h hk heq
    cases w with
    | none =>
      cases hok
      exact ⟨⟨d', hinv⟩, habs⟩
    | some v =>
      cases hok
      obtain ⟨hinv', habs'⟩ := hinv.store hholds v
      refine ⟨⟨d', hinv'⟩, ?_⟩
      rw [habs', habs, FinMap.touch, update_idem, FinMap.insert]
  · cases hok

theorem absOf_emptyTable (e : ℕ) : absOf (emptyTable e : MappingT κ υ) = fun _ => none := by
  have hn : nodes (emptyTable e : MappingT κ υ) = [] := by simp [nodes, emptyTable]
  rw [absOf, hn]
  rfl

variable {st : List (MappingT κ υ)} {i : ℕ} {st' : List (MappingT κ υ)} {op : Op κ υ} {ops : List (Op κ υ)}

theorem modify_none (h : st[i]? = none) (f : FinMap υ → FinMap υ) : (st.map absOf).modify i f = st.map absOf :=
  modify_eq_self (by simpa using getElem?_eq_none_iff.1 h)

/-- one mapping of the state replaced: the finite map of that one follows -/
theorem set_refines (h : AllInv st) (hm : st[i]? = some m) (hinv : ∃ e d, Inv e d m') {f : FinMap υ → FinMap υ}
    (habs : absOf m' = f (absOf m)) :
    (st.map absOf).modify i f = (st.set i m').map absOf ∧ AllInv (st.set i m') := by
  obtain ⟨hi, rfl⟩ := List.getElem?_eq_some_iff.1 hm
  refine ⟨?_, fun x hx => ?_⟩
  · rw [List.modify_eq_set_get f (by simpa using hi), List.map_set, habs]
    simp
  · rcases mem_or_eq_of_mem_set hx with hx | rfl
    · exact h x hx
    · exact hinv

/-- **One step refines**: what the finite maps do is what the mappings do, and the invariant is kept. -/
theorem step_refines {o : Option υ} (h : AllInv st) (ha : op.Admissible cfg)
    (hok : step cfg zero st op = .ok (st', o)) :
    astep zero (st.map absOf) op = (st'.map absOf, o) ∧ AllInv st' := by
  cases op with
  | new n =>
    cases hok
    refine ⟨?_, forall_mem_append.2 ⟨h, forall_mem_singleton.2 ⟨_, 0, inv_allocateMapping cfg ha⟩⟩⟩
    rw [allocateMapping_eq cfg ha, map_append, map_singleton, absOf_emptyTable]
    rfl
  | insert i k w oom =>
    simp only [step] at hok
    cases hm : st[i]? with
    | none =>
      rw [hm] at hok
      cases hok
      exact ⟨by rw [astep, modify_none hm], h⟩
    | some m =>
      obtain ⟨e, d, hinv⟩ := h m (mem_of_getElem? hm)
      simp only [hm] at hok
      cases hins : insert cfg zero oom m k w with
      | error err => rw [hins] at hok; exact absurd hok (by simp [Except.map])
      | ok m' =>
        rw [hins] at hok
        cases hok
        obtain ⟨⟨d', hinv'⟩, habs⟩ := insert_ok hinv ha hins
        obtain ⟨hmap, hall⟩ := set_refines h hm ⟨e, d', hinv'⟩ (f := fun f => f.insert zero (word k) w) habs
        exact ⟨by rw [astep, hmap], hall⟩
  | find i k =>
    cases hok
    refine ⟨?_, h⟩
    rw [astep, getElem?_map]
    cases hm : st[i]? with
    | none => rfl
    | some m =>
      obtain ⟨e, d, hinv⟩ := h m (mem_of_getElem? hm)
      simp only [Option.map_some, findInMapping, hinv.shape.lookup_chain]
  | delete i k =>
    simp only [step] at hok
    cases hm : st[i]? with
    | none =>
      rw [hm] at hok
      cases hok
      exact ⟨by rw [astep, modify_none hm], h⟩
    | some m =>
      obtain ⟨e, d, hinv⟩ := h m (mem_of_getElem? hm)
      rw [hm] at hok
      cases hok
      obtain ⟨hmap, hall⟩ := set_refines h hm ⟨e, d, (hinv.delete k).1⟩
        (f := fun f => update f (word k) none) (hinv.delete k).2
      exact ⟨by rw [astep, hmap], hall⟩
  | copy i =>
    cases hok
    rw [astep, getElem?_map]
    cases hm : st[i]? with
    | none => exact ⟨by simp, by simpa using h⟩
    | some m =>
      obtain ⟨e, d, hinv⟩ := h m (mem_of_getElem? hm)
      refine ⟨?_, forall_mem_append.2 ⟨h, forall_mem_singleton.2 ⟨e, d, hinv.copy.1⟩⟩⟩
      simp [hinv.copy.2]

/-- the number of keys of a finite map -/
noncomputable def FinMap.size (f : FinMap υ) : ℕ := {w | f w ≠ none}.ncard

theorem chainMap_support (c : Chain κ υ) : {w | chainMap c w ≠ none} = ↑((words c).map Prod.fst).toFinset := by
  ext w
  simp only [Set.mem_ofPred_eq, coe_toFinset, mem_map]
  rw [ne_eq, chainMap, lookup_eq_none]
  push Not
  constructor
  all_goals
    rintro ⟨p, hp, hw⟩
    exact ⟨p, hp, by simpa using hw⟩

/-- the size of the finite map is the recorded count -/
theorem size_absOf (h : Inv e d m) : (absOf m).size = m.count := by
  have hnodup : ((words (nodes m)).map Prod.fst).Nodup := by
    have := (distinct_words h.shape.nonReal).2 h.shape.distinct
    rw [List.Nodup, pairwise_map]
    exact this.imp fun hne heq => by simp [heq] at hne
  rw [FinMap.size, absOf, chainMap_support, Set.ncard_coe_finset, toFinset_card_of_nodup hnodup, h.shape.count,
    length_map, words, length_map]

theorem size_insert_of_none (h : Inv e d m)
    (hk : absOf m (word k) = none) : ((absOf m).insert zero (word k) w).size = m.count + 1 := by
  have hset : {x | (absOf m).insert zero (word k) w x ≠ none} = Insert.insert (word k) {x | absOf m x ≠ none} := by
    ext x
    have hval : ∃ v, (absOf m).insert zero (word k) w = update (absOf m) (word k) (some v) := by
      cases w with
      | none => exact ⟨_, rfl⟩
      | some v => exact ⟨v, rfl⟩
    obtain ⟨v, hv⟩ := hval
    rw [hv, Set.mem_ofPred_eq, update_apply]
    split_ifs with hx
    all_goals simp [hx]
  have hfin : {x | absOf m x ≠ none}.Finite := by rw [absOf, chainMap_support]; exact Finset.finite_toSet _
  rw [FinMap.size, hset, Set.ncard_insert_of_notMem (by simp [hk]) hfin]
  exact congrArg (· + 1) (size_absOf h)

theorem insert_total (h : Inv e d m) (hk : NonReal k) (hlimit : cfg.maxMappingSize ≤ 26200)
    (hsize : ((absOf m).insert zero (word k) w).size ≤ cfg.maxMappingSize) :
    ∃ m', insert cfg zero false m k w = .ok m' := by
  have hroom : absOf m (word k) = none → m.count < cfg.maxMappingSize := by
    intro hnone
    rw [size_insert_of_none h hnone] at hsize
    omega
  obtain ⟨m', s, heq⟩ := findForInsert_total h cfg zero hk hroom hlimit
  exact ⟨_, by rw [insert, heq]⟩

/-- memory is there whenever this operation asks for it -/
def Op.MemoryThere : Op κ υ → Prop
  | .insert _ _ _ oom => oom = false
  | _ => True

/-- **Progress**: with memory there and every mapping within the limit afterwards, the step has no error. -/
theorem step_total (h : AllInv st) (ha : op.Admissible cfg) (hmem : op.MemoryThere)
    (hlimit : cfg.maxMappingSize ≤ 26200)
    (hsize : ∀ f ∈ (astep zero (st.map absOf) op).1, FinMap.size f ≤ cfg.maxMappingSize) :
    ∃ r, step cfg zero st op = .ok r := by
  cases op with
  | new n | find i k | copy i => exact ⟨_, rfl⟩
  | insert i k w oom =>
    obtain rfl : oom = false := hmem
    cases hm : st[i]? with
    | none => exact ⟨_, by simp only [step, hm]; rfl⟩
    | some m =>
      obtain ⟨e, d, hinv⟩ := h m (mem_of_getElem? hm)
      have hmem : (absOf m).insert zero (word k) w ∈ (astep zero (st.map absOf) (.insert i k w false)).1 := by
        refine mem_of_getElem? (i := i) ?_
        simp [astep, hm]
      obtain ⟨m', hm'⟩ := insert_total hinv ha hlimit (hsize _ hmem)
      exact ⟨_, by simp only [step, hm, hm']; rfl⟩
  | delete i k =>
    cases hm : st[i]? with
    | none | some m => exact ⟨_, by simp only [step, hm]; rfl⟩

theorem run_refines_from {outs : List υ} (h : AllInv st) (ha : ∀ op ∈ ops, op.Admissible cfg)
    (hok : run cfg zero st ops = .ok (st', outs)) :
    arun zero (st.map absOf) ops = (st'.map absOf, outs) ∧ AllInv st' := by
  induction ops generalizing st outs with
  | nil =>
    cases hok
    exact ⟨rfl, h⟩
  | cons op ops ih =>
    rw [run] at hok
    cases hs : step cfg zero st op with
    | error err => rw [hs] at hok; cases hok
    | ok r =>
      obtain ⟨habs, hall⟩ := step_refines h (ha op (by simp)) hs
      simp only [hs] at hok
      cases hr : run cfg zero r.1 ops with
      | error err => rw [hr] at hok; exact absurd hok (by simp [Except.map])
      | ok q =>
        rw [hr] at hok
        cases hok
        obtain ⟨habs', hall'⟩ := ih hall (fun op' hop => ha op' (.tail _ hop)) hr
        exact ⟨by simp only [arun, habs, habs'], hall'⟩

theorem run_total_from (h : AllInv st) (ha : ∀ op ∈ ops, op.Admissible cfg) (hmem : ∀ op ∈ ops, op.MemoryThere)
    (hlimit : cfg.maxMappingSize ≤ 26200)
    (hsize : ∀ pre, pre <+: ops → ∀ f ∈ (arun zero (st.map absOf) pre).1, FinMap.size f ≤ cfg.maxMappingSize) :
    ∃ r, run cfg zero st ops = .ok r := by
  induction ops generalizing st with
  | nil => exact ⟨_, rfl⟩
  | cons op ops ih =>
    have hone : ∀ f ∈ (astep zero (st.map absOf) op).1, FinMap.size f ≤ cfg.maxMappingSize :=
      hsize [op] (by simp)
    obtain ⟨⟨st1, o⟩, hs⟩ := step_total h (ha op (by simp)) (hmem op (by simp)) hlimit hone
    obtain ⟨habs, hall⟩ := step_refines h (ha op (by simp)) hs
    obtain ⟨r, hr⟩ := ih hall (fun op' hop => ha op' (.tail _ hop))
      (fun op' hop => hmem op' (.tail _ hop)) (fun pre hpre f hf => by
        refine hsize (op :: pre) (cons_prefix_cons.2 ⟨rfl, hpre⟩) f ?_
        simpa only [arun, habs] using hf)
    exact ⟨_, by simp only [run, hs, hr]; rfl⟩

/-- **Mapping refinement.** A run of mapping operations with keys that are not reals and that ends without an error
answers every lookup as finite maps do, its mappings stand for the finite maps of the same run, and each has the
invariant: a power-of-two size, placement, distinct keys, the count, and `unfilled` plus the non-empty buckets equal to
the share of its history, which is `FILL_PERCENT` of the table up to one bucket per doubling. Within a size limit of at
most 26200 a run that never exceeds the limit and finds memory when it asks for it has no error. -/
theorem run_refines (cfg : Config) (zero : υ) (ops : List (Op κ υ)) (ha : ∀ op ∈ ops, op.Admissible cfg) :
    (∀ st outs, run cfg zero [] ops = .ok (st, outs) →
      arun zero [] ops = (st.map absOf, outs) ∧
      ∀ m ∈ st, ∃ e d, Inv e d m ∧ 100 * fillShare e d ≤ fillPercent * (m.tableSize + 1) ∧
        fillPercent * (m.tableSize + 1) ≤ 100 * (fillShare e d + d + 1)) ∧
    (cfg.maxMappingSize ≤ 26200 → (∀ op ∈ ops, op.MemoryThere) →
      (∀ pre, pre <+: ops → ∀ f ∈ (arun zero [] pre).1, FinMap.size f ≤ cfg.maxMappingSize) →
      ∃ r, run cfg zero [] ops = .ok r) := by
  refine ⟨fun st outs hok => ?_, fun hlimit hmem hsize => run_total_from (by simp [AllInv]) ha hmem hlimit hsize⟩
  obtain ⟨habs, hall⟩ := run_refines_from (by simp [AllInv]) ha hok
  refine ⟨habs, fun m hm => ?_⟩
  obtain ⟨e, d, hinv⟩ := hall m hm
  have hsize : m.tableSize + 1 = 2 ^ (e + d) := by
    rw [hinv.shape.mask]
    exact Nat.sub_add_cancel (Nat.two_pow_pos _)
  have h1 := fillShare_le e d
  have h2 := le_fillShare e d
  exact ⟨e, d, hinv, by simp only [fillPercent] at *; omega, by simp only [fillPercent] at *; omega⟩

theorem mem_modify {α : Type*} {l : List α} {i : ℕ} {g : α → α} {x : α} (h : x ∈ l.modify i g) :
    x ∈ l ∨ ∃ y ∈ l, x = g y := by
  obtain ⟨j, hj⟩ := mem_iff_getElem?.1 h
  rw [getElem?_modify] at hj
  obtain ⟨y, hy, rfl⟩ := Option.map_eq_some_iff.1 hj
  split_ifs
  · exact .inr ⟨y, mem_of_getElem? hy, rfl⟩
  · exact .inl (mem_of_getElem? hy)

/-- a run of finite maps has no words but those of the keys it inserts -/
theorem arun_words {fs : List (FinMap υ)} {s : Set Int64} (hfs : ∀ f ∈ fs, ∀ x, f x ≠ none → x ∈ s)
    (hops : ∀ i k w oom, .insert i k w oom ∈ ops → word k ∈ s) :
    ∀ f ∈ (arun zero fs ops).1, ∀ x, f x ≠ none → x ∈ s := by
  induction ops generalizing fs with
  | nil => exact hfs
  | cons op ops ih =>
    refine ih (fun f hf x hx => ?_) fun i k w oom hop => hops i k w oom (.tail _ hop)
    cases op with
    | new n =>
      rcases mem_append.1 hf with hf | hf
      · exact hfs f hf x hx
      · exact absurd (congrFun (mem_singleton.1 hf) x) hx
    | insert i k w oom =>
      rcases mem_modify hf with hf | ⟨g, hg, rfl⟩
      · exact hfs f hf x hx
      · by_cases hxk : x = word k
        · exact hxk ▸ hops i k w oom mem_cons_self
        · apply hfs g hg
          cases w
          all_goals simpa [FinMap.insert, FinMap.touch, hxk] using hx
    | find i k => exact hfs f hf x hx
    | delete i k =>
      rcases mem_modify hf with hf | ⟨g, hg, rfl⟩
      · exact hfs f hf x hx
      · apply hfs g hg
        by_cases hxk : x = word k
        all_goals simp [hxk] at hx ⊢
        exact hx
    | copy i =>
      rcases mem_append.1 hf with hf | hf
      · exact hfs f hf x hx
      · exact hfs f (mem_of_getElem? (Option.mem_toList.1 hf)) x hx

end Runs

/-- a run that makes a mapping of 8 buckets and fills 7 of them, so that it grows, then deletes one of the keys, copies
the mapping and looks up two keys in the copy -/
def sampleRun : List (Op Key ℕ) :=
  .new 0 :: (range 7).map (fun i => .insert 0 ⟨.number, Int64.ofNat (16 * i)⟩ (some i) false) ++
    [.delete 0 ⟨.number, 16⟩, .copy 0, .find 1 ⟨.number, 16⟩, .find 1 ⟨.number, 32⟩]

theorem sampleRun_refines : (∃ st, run Config.default 0 [] sampleRun = .ok (st, [0, 2]) ∧
      (arun 0 [] sampleRun).2 = [0, 2] ∧ ∀ m ∈ st, ∃ e d, Inv e d m) ∧
    ((run Config.default 0 [] sampleRun).toOption.map fun r => r.1.map (·.tableSize)) = some [15, 15] ∧
    (∀ pre, pre <+: sampleRun → ∀ f ∈ (arun 0 [] pre).1, FinMap.size f ≤ Config.default.maxMappingSize) := by
  have ha : ∀ op ∈ sampleRun, op.Admissible Config.default := by
    simp [sampleRun, or_imp, forall_and, Op.Admissible, Config.default, NonReal, type]
  have hsize : ∀ pre, pre <+: sampleRun → ∀ f ∈ (arun 0 [] pre).1, FinMap.size f ≤ Config.default.maxMappingSize := by
    intro pre hpre f hf
    have hwords := arun_words (s := ((range 7).map fun i => Int64.ofNat (16 * i)).toFinset) (by simp) (fun i k w oom hop => by
      have hop := hpre.subset hop
      simp only [sampleRun, cons_append, mem_cons, mem_append, mem_map, reduceCtorEq, false_or, or_false, not_mem_nil,
        Op.insert.injEq] at hop
      obtain ⟨n, hn, -, rfl, -⟩ := hop
      exact Finset.mem_coe.2 (mem_toFinset.2 (mem_map_of_mem hn))) f hf
    have hle := Set.ncard_le_ncard (show {x | f x ≠ none} ⊆ _ from hwords) (Finset.finite_toSet _)
    rw [Set.ncard_coe_finset] at hle
    exact hle.trans (by decide)
  obtain ⟨⟨st, outs⟩, hok⟩ := (run_refines Config.default 0 sampleRun ha).2 (by decide)
    (by simp [sampleRun, or_imp, forall_and, Op.MemoryThere]) hsize
  obtain ⟨harun, hinv⟩ := (run_refines Config.default 0 sampleRun ha).1 st outs hok
  have hout : (arun 0 [] sampleRun).2 = [0, 2] := by decide
  obtain rfl : outs = [0, 2] := (congrArg Prod.snd harun).symm.trans hout
  refine ⟨⟨st, hok, hout, fun m hm => ?_⟩, by decide +kernel, hsize⟩
  obtain ⟨e, d, h, -⟩ := hinv m hm
  exact ⟨e, d, h⟩

/-- twelve keys in twelve different buckets make a table of 8 buckets grow to 32, beside one made with 32 -/
def shareRun : List (Op Key ℕ) :=
  [.new 20, .new 0] ++ (range 12).map fun i => .insert 1 ⟨.number, Int64.ofNat (16 * i)⟩ (some i) false

/-- **The share is not fixed by the table size**: two tables of 32 buckets, one made so and one grown to it, keep
different shares; and a size hint of 65536 gives a mask that is not one below a power of two. -/
theorem share_depends_on_history :
    ((run Config.default 0 [] shareRun).toOption.map fun r => r.1.map fun m => (m.tableSize, m.unfilled + filled m.table)) =
      some [(31, 25), (31, 24)] ∧
    (allocateMapping { Config.default with maxMappingSize := 65536 } 65536 : MappingT Key ℕ).tableSize = 65534 := by
  refine ⟨by decide +kernel, by decide +kernel⟩

end Lithos.Lpc.Mapping
