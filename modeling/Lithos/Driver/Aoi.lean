/-
Area-of-interest deltas (`aoi_efun.c`).

A manager keeps, for each subscribed observer, the ids it saw when its last delta was reported. The observers are in a
sorted array, what they saw in arrays parallel to it. A delta compares the sorted ids seen now with those seen before, as
a merge does.

Results:
* `deltas_correct`: folding the deltas of an observer since it subscribed gives what it saw last, deltas have no double
  and no common ids, and the arrays stay sorted and aligned;
* `view_after_resubscribing`: a new subscription starts from nothing, so that deltas from before do not count.
-/
import Mathlib.Tactic

namespace Lithos.Driver.Aoi

open List Option

/-! ## The manager -/

/-- `aoi_manager_t`: the subscribers, and for each of them its buffer, the number of ids in it and its room. Ids are
only compared. -/
structure Manager (ι : Type) where
  subscribers : List ι
  prevVisible : List (List ι)
  prevCount : List ℕ
  prevCap : List ℕ
deriving DecidableEq, Repr

variable {ι : Type} [LinearOrder ι] {id : ι} {α : Type} (renew : Bool)

/-- after `f_aoi_create` -/
def Manager.create : Manager ι := ⟨[], [], [], []⟩

/-- the loop of `aoi_find_sub`, which halves the interval in each round -/
def findSubLoop (subs : List ι) (id : ι) : ℕ → ℤ → ℤ → Option ℕ
  | 0, _, _ => none
  | fuel + 1, lo, hi =>
    if lo ≤ hi then
      let mid := (lo + hi) / 2
      match subs[mid.toNat]? with
      | none => none
      | some x =>
        if x = id then some mid.toNat
        else if x < id then findSubLoop subs id fuel (mid + 1) hi
        else findSubLoop subs id fuel lo (mid - 1)
    else none

/-- `aoi_find_sub` -/
def findSub (m : Manager ι) (id : ι) : Option ℕ :=
  findSubLoop m.subscribers id (m.subscribers.length + 1) 0 (m.subscribers.length - 1)

/-- the loop of `aoi_add_sub`: the place of an id, and whether it is there already -/
def insertPos (id : ι) : List ι → ℕ × Bool
  | [] => (0, false)
  | x :: xs =>
    if id < x then (0, false)
    else if x = id then (0, true)
    else ((insertPos id xs).1 + 1, (insertPos id xs).2)

/-- `aoi_add_sub` -/
def addSub (m : Manager ι) (id : ι) : Manager ι :=
  let r := insertPos id m.subscribers
  if r.2 then m
  else
    ⟨m.subscribers.insertIdx r.1 id, m.prevVisible.insertIdx r.1 [], m.prevCount.insertIdx r.1 0,
      m.prevCap.insertIdx r.1 0⟩

/-- `aoi_remove_sub` -/
def removeSub (m : Manager ι) (slot : ℕ) : Manager ι :=
  ⟨m.subscribers.eraseIdx slot, m.prevVisible.eraseIdx slot, m.prevCount.eraseIdx slot, m.prevCap.eraseIdx slot⟩

/-- `aoi_compute_delta`: what enters and what leaves -/
def computeDelta : List ι → List ι → List ι × List ι
  | [], new => (new, [])
  | o :: old, [] => ([], o :: old)
  | o :: old, n :: new =>
    if o = n then computeDelta old new
    else if o < n then
      let d := computeDelta old (n :: new)
      (d.1, o :: d.2)
    else
      let d := computeDelta (o :: old) new
      (n :: d.1, d.2)
termination_by old new => old.length + new.length

/-- how `f_aoi_get_delta` ends: it returns 0, fails to allocate an array, or returns a delta -/
inductive Outcome (ι : Type) where
  | zero
  | error
  | delta (enter leave : List ι)
deriving DecidableEq, Repr

/-- `f_aoi_get_delta`. `visible` has the ids that the query gives, unless the observer has no position. A result of
`none` would be an access outside the arrays. -/
def getDelta (maxArraySize : ℕ) (m : Manager ι) (eid : ι) (visible : Option (List ι)) :
    Option (Manager ι × Outcome ι) :=
  match findSub m eid, visible with
  | none, _ => some (m, .zero)
  | some _, none => some (m, .zero)
  | some slot, some ids => do
    let res := ids.insertionSort (· ≤ ·)
    let buf ← m.prevVisible[slot]?
    let count ← m.prevCount[slot]?
    let cap ← m.prevCap[slot]?
    let d := computeDelta (buf.take count) res
    -- the buffer is enlarged when needed, then the ids are copied over its start
    let m := { m with
      prevVisible := m.prevVisible.set slot (res ++ buf.drop res.length)
      prevCount := m.prevCount.set slot res.length
      prevCap := m.prevCap.set slot (max cap res.length) }
    -- the two arrays are allocated last
    if maxArraySize < d.1.length ∨ maxArraySize < d.2.length then some (m, .error) else some (m, .delta d.1 d.2)

/-! ## Runs -/

/-- calls for a manager -/
inductive Op (ι : Type) where
  | subscribe (id : ι)
  | unsubscribe (id : ι)
  | getDelta (id : ι) (visible : Option (List ι))
deriving DecidableEq, Repr

/-- what an observer learns: a delta (with the ids it was computed from), or the end of its subscription -/
inductive Event (ι : Type) where
  | delta (obs : ι) (enter leave visible : List ι)
  | unsubscribed (obs : ι)
deriving DecidableEq, Repr

/-- a manager, and what it has reported so far -/
structure State (ι : Type) where
  manager : Manager ι
  log : List (Event ι)
deriving DecidableEq, Repr

def State.create : State ι := ⟨.create, []⟩

def step (maxArraySize : ℕ) (s : State ι) : Op ι → Option (State ι)
  | .subscribe id => some { s with manager := addSub s.manager id }
  | .unsubscribe id =>
    match findSub s.manager id with
    | none => some s
    | some slot => some ⟨removeSub s.manager slot, s.log ++ [.unsubscribed id]⟩
  | .getDelta id visible => do
    let r ← getDelta maxArraySize s.manager id visible
    match r.2 with
    | .delta enter leave => some ⟨r.1, s.log ++ [.delta id enter leave (visible.getD [])]⟩
    | _ => some { s with manager := r.1 }

def run (maxArraySize : ℕ) (s : State ι) (ops : List (Op ι)) : Option (State ι) := ops.foldlM (step maxArraySize) s

/-- the set that an observer gets by folding its deltas; with `renew` it starts again when its subscription ends -/
def view (renew : Bool) (obs : ι) : List (Event ι) → Finset ι :=
  List.foldl (fun v e =>
    match e with
    | .delta o enter leave _ => if o = obs then (v \ leave.toFinset) ∪ enter.toFinset else v
    | .unsubscribed o => if renew ∧ o = obs then ∅ else v) ∅

/-- what an observer saw last -/
def latest (renew : Bool) (obs : ι) : List (Event ι) → Finset ι :=
  List.foldl (fun v e =>
    match e with
    | .delta o _ _ visible => if o = obs then visible.toFinset else v
    | .unsubscribed o => if renew ∧ o = obs then ∅ else v) ∅

/-! ## Deltas -/

/-- ids below all others make no difference to a test for these -/
theorem filter_notMem_cons {a : ι} {l m : List ι} (h : ∀ x ∈ l, a < x) : l.filter (· ∉ a :: m) = l.filter (· ∉ m) := by
  apply filter_congr
  intro x hx
  have hne : x ≠ a := (h x hx).ne'
  simp [hne]

theorem filter_notMem_keep {a : ι} {l m : List ι} (h : ∀ x ∈ m, a < x) :
    (a :: l).filter (· ∉ m) = a :: l.filter (· ∉ m) :=
  filter_cons_of_pos (decide_eq_true fun ha => lt_irrefl a (h a ha))

theorem lt_of_sorted {a b : ι} {l : List ι} (hab : a < b) (hl : (b :: l).Pairwise (· < ·)) : ∀ x ∈ b :: l, a < x :=
  forall_mem_cons.2 ⟨hab, fun x hx => hab.trans ((pairwise_cons.1 hl).1 x hx)⟩

/-- of strictly sorted ids the merge gives the new ones that are not old, and the old ones that are not new -/
theorem computeDelta_eq (old new : List ι) (ho : old.Pairwise (· < ·)) (hn : new.Pairwise (· < ·)) :
    computeDelta old new = (new.filter (· ∉ old), old.filter (· ∉ new)) := by
  fun_induction computeDelta old new with
  | case1 new | case2 o old => simp
  | case3 old n new ih =>
    rw [pairwise_cons] at ho hn
    rw [ih ho.2 hn.2, filter_cons_of_neg (by simp), filter_cons_of_neg (by simp), filter_notMem_cons hn.1,
      filter_notMem_cons ho.1]
  | case4 o old n new hne hlt d ih =>
    have habove := lt_of_sorted hlt hn
    have hd : d = _ := ih (pairwise_cons.1 ho).2 hn
    rw [hd, filter_notMem_cons habove, filter_notMem_keep habove]
  | case5 o old n new hne hlt d ih =>
    have habove := lt_of_sorted (lt_of_le_of_ne (not_lt.1 hlt) (Ne.symm hne)) ho
    have hd : d = _ := ih ho (pairwise_cons.1 hn).2
    rw [hd, filter_notMem_cons habove, filter_notMem_keep habove]

/-- old ids without those that leave, and those that enter, are the new ones -/
theorem fold_delta (old new : List ι) :
    (old.toFinset \ (old.filter (· ∉ new)).toFinset) ∪ (new.filter (· ∉ old)).toFinset = new.toFinset := by
  ext x
  simp only [Finset.mem_union, Finset.mem_sdiff, List.mem_toFinset, List.mem_filter, decide_eq_true_eq]
  tauto

/-! ## The subscriber table -/

/-- what the arrays have for one observer -/
structure Row (ι : Type) where
  id : ι
  buf : List ι
  count : ℕ
  cap : ℕ

/-- the arrays of a table of rows -/
def Manager.ofRows (rows : List (Row ι)) : Manager ι :=
  ⟨rows.map Row.id, rows.map Row.buf, rows.map Row.count, rows.map Row.cap⟩

section Sorted

variable {subs : List ι} (hs : subs.Pairwise (· < ·)) {j k : ℕ} {x : ι}
include hs

theorem index_lt {y : ι} (hj : subs[j]? = some x) (hk : subs[k]? = some y) (hxy : x < y) : j < k := by
  by_contra hle
  obtain ⟨hj', rfl⟩ := List.getElem?_eq_some_iff.1 hj
  obtain ⟨hk', rfl⟩ := List.getElem?_eq_some_iff.1 hk
  rcases (not_lt.1 hle).lt_or_eq with hkj | rfl
  · exact lt_asymm hxy (pairwise_iff_getElem.1 hs k j hk' hj' hkj)
  · exact lt_irrefl _ hxy

theorem index_inj (hj : subs[j]? = some x) (hk : subs[k]? = some x) : j = k := by
  obtain ⟨hj', hje⟩ := List.getElem?_eq_some_iff.1 hj
  obtain ⟨hk', hke⟩ := List.getElem?_eq_some_iff.1 hk
  have hnd : subs.Nodup := hs.imp fun h => h.ne
  exact hnd.getElem_inj_iff.1 (hje.trans hke.symm)

/-- an id in strictly sorted ids is found from any interval around it -/
theorem findSubLoop_eq {id : ι} (fuel : ℕ) (lo hi : ℤ) (hlo : 0 ≤ lo)
    (hhi : hi < subs.length) (hfuel : hi - lo + 1 < fuel)
    (hin : ∀ j : ℕ, subs[j]? = some id → lo ≤ j ∧ (j : ℤ) ≤ hi) (i : ℕ) :
    findSubLoop subs id fuel lo hi = some i ↔ subs[i]? = some id := by
  induction fuel generalizing lo hi with
  | zero =>
    -- the interval is empty
    constructor
    · nofun
    · intro h
      have := hin i h
      omega
  | succ fuel ih =>
    rw [findSubLoop]
    split_ifs
    · dsimp only
      have hmid : ((lo + hi) / 2).toNat < subs.length := by omega
      rw [getElem?_eq_getElem hmid]
      have hget := getElem?_eq_getElem hmid
      generalize subs[((lo + hi) / 2).toNat] = x at hget
      dsimp only
      by_cases hx : x = id
      · rw [if_pos hx]
        constructor
        · intro h
          rw [← some.inj h, hget, hx]
        · intro h
          rw [hx] at hget
          rw [index_inj hs h hget]
      · rw [if_neg hx]
        split_ifs with hlt
        · apply ih _ _ (by omega) hhi (by omega)
          intro j hj
          have := index_lt hs hget hj hlt
          have := hin j hj
          omega
        · have hgt : id < x := lt_of_le_of_ne (not_lt.1 hlt) (Ne.symm hx)
          apply ih _ _ hlo (by omega) (by omega)
          intro j hj
          have := index_lt hs hj hget hgt
          have := hin j hj
          omega
    · constructor
      · nofun
      · intro h
        have := hin i h
        omega

end Sorted

theorem findSub_eq {m : Manager ι} (hs : m.subscribers.Pairwise (· < ·)) (i : ℕ) :
    findSub m id = some i ↔ m.subscribers[i]? = some id := by
  apply findSubLoop_eq hs
  · exact le_rfl
  · omega
  · omega
  · intro j hj
    have := (List.getElem?_eq_some_iff.1 hj).1
    omega

/-- where an id goes among strictly sorted ids -/
theorem insertPos_spec (id : ι) (subs : List ι) (hs : subs.Pairwise (· < ·)) : if (insertPos id subs).2 then id ∈ subs
    else ∃ a b, subs = a ++ b ∧ (insertPos id subs).1 = a.length ∧ (∀ x ∈ a, x < id) ∧ ∀ x ∈ b, id < x := by
  induction subs with
  | nil => exact ⟨[], [], rfl, rfl, nofun, nofun⟩
  | cons x xs ih =>
    obtain ⟨hx, hxs⟩ := pairwise_cons.1 hs
    rw [insertPos]
    by_cases hlt : id < x
    · rw [if_pos hlt]
      exact ⟨[], x :: xs, rfl, rfl, nofun, forall_mem_cons.2 ⟨hlt, fun y hy => hlt.trans (hx y hy)⟩⟩
    · rw [if_neg hlt]
      by_cases heq : x = id
      · rw [if_pos heq, heq]
        exact (.head _)
      · rw [if_neg heq]
        have ih := ih hxs
        cases hfound : (insertPos id xs).2 with
        | true =>
          rw [hfound] at ih
          exact mem_cons_of_mem x ih
        | false =>
          rw [hfound] at ih
          obtain ⟨a, b, hab, hpos, ha, hb⟩ := ih
          exact ⟨x :: a, b, by rw [hab, cons_append], congrArg _ hpos,
            forall_mem_cons.2 ⟨lt_of_le_of_ne (not_lt.1 hlt) heq, ha⟩, hb⟩

theorem insertIdx_append (a b : List α) (x : α) : (a ++ b).insertIdx a.length x = a ++ x :: b := by
  induction a with
  | nil => rfl
  | cons y a ih => exact congrArg _ ih

/-- a new row goes to its place; an observer that is there already keeps its row -/
theorem addSub_ofRows (rows : List (Row ι)) (hs : (rows.map Row.id).Pairwise (· < ·)) (id : ι) :
    (id ∈ rows.map Row.id ∧ addSub (.ofRows rows) id = .ofRows rows) ∨
      ∃ a b, rows = a ++ b ∧ addSub (.ofRows rows) id = .ofRows (a ++ ⟨id, [], 0, 0⟩ :: b) ∧
        (∀ r ∈ a, r.id < id) ∧ ∀ r ∈ b, id < r.id := by
  have hpos := insertPos_spec id (rows.map Row.id) hs
  cases hfound : (insertPos id (rows.map Row.id)).2 with
  | true =>
    rw [hfound] at hpos
    refine .inl ⟨hpos, ?_⟩
    exact if_pos hfound
  | false =>
    rw [hfound] at hpos
    obtain ⟨_, _, hab, hlen, ha, hb⟩ := hpos
    obtain ⟨a, b, rfl, rfl, rfl⟩ := map_eq_append_iff.1 hab
    refine .inr ⟨a, b, rfl, ?_, fun r hr => ha _ (mem_map_of_mem hr), fun r hr => hb _ (mem_map_of_mem hr)⟩
    rw [length_map] at hlen
    have hnew : ¬ (insertPos id (Manager.ofRows (a ++ b)).subscribers).2 = true := by
      show ¬ (insertPos id ((a ++ b).map Row.id)).2 = true
      rw [hfound]
      exact Bool.false_ne_true
    rw [addSub, if_neg hnew]
    show Manager.mk (((a ++ b).map Row.id).insertIdx (insertPos id ((a ++ b).map Row.id)).1 id)
      (((a ++ b).map Row.buf).insertIdx (insertPos id ((a ++ b).map Row.id)).1 [])
      (((a ++ b).map Row.count).insertIdx (insertPos id ((a ++ b).map Row.id)).1 0)
      (((a ++ b).map Row.cap).insertIdx (insertPos id ((a ++ b).map Row.id)).1 0) = _
    rw [hlen, ← insertIdx_append, Manager.ofRows, map_insertIdx, map_insertIdx, map_insertIdx, map_insertIdx]

omit [LinearOrder ι] in
theorem removeSub_ofRows (rows : List (Row ι)) (slot : ℕ) :
    removeSub (.ofRows rows) slot = .ofRows (rows.eraseIdx slot) := by
  rw [removeSub, Manager.ofRows, Manager.ofRows, eraseIdx_map, eraseIdx_map, eraseIdx_map, eraseIdx_map]

/-! ## The invariant -/

/-- the buffer of a row has the ids `seen`, sorted, and no more than an array can take -/
structure RowOk (maxArraySize : ℕ) (seen : Finset ι) (r : Row ι) : Prop where
  room : r.buf.length = r.cap
  count_le : r.count ≤ r.cap
  small : r.count ≤ maxArraySize
  sorted : (r.buf.take r.count).Pairwise (· < ·)
  seen : (r.buf.take r.count).toFinset = seen

/-- a delta has no double and no common ids -/
def Event.Tidy : Event ι → Prop
  | .delta _ enter leave _ => enter.Nodup ∧ leave.Nodup ∧ enter.Disjoint leave
  | .unsubscribed _ => True

structure Inv (maxArraySize : ℕ) (s : State ι) (rows : List (Row ι)) : Prop where
  manager : s.manager = .ofRows rows
  sorted : (rows.map Row.id).Pairwise (· < ·)
  each : ∀ r ∈ rows, RowOk maxArraySize (view true r.id s.log) r
  others : ∀ obs, obs ∉ rows.map Row.id → view true obs s.log = ∅
  views : ∀ obs, view true obs s.log = latest true obs s.log
  tidy : ∀ e ∈ s.log, e.Tidy

section Fold

variable (obs o : ι) (log : List (Event ι)) (enter leave visible : List ι)

theorem view_delta : view renew obs (log ++ [.delta o enter leave visible]) =
    if o = obs then (view renew obs log \ leave.toFinset) ∪ enter.toFinset else view renew obs log := by
  rw [view, foldl_append]
  rfl

theorem latest_delta : latest renew obs (log ++ [.delta o enter leave visible]) =
    if o = obs then visible.toFinset else latest renew obs log := by
  rw [latest, foldl_append]
  rfl

theorem view_unsubscribed :
    view renew obs (log ++ [.unsubscribed o]) = if renew ∧ o = obs then ∅ else view renew obs log := by
  rw [view, foldl_append]
  rfl

theorem latest_unsubscribed :
    latest renew obs (log ++ [.unsubscribed o]) = if renew ∧ o = obs then ∅ else latest renew obs log := by
  rw [latest, foldl_append]
  rfl

end Fold

variable {n : ℕ} {s : State ι} {rows : List (Row ι)}

theorem Inv.subscribe (h : Inv n s rows) (id : ι) : ∃ rows', Inv n { s with manager := addSub s.manager id } rows' := by
  rcases addSub_ofRows rows h.sorted id with ⟨-, hsame⟩ | ⟨a, b, hab, hnew, ha, hb⟩
  · refine ⟨rows, ?_⟩
    rw [h.manager, hsame, ← h.manager]
    exact h
  · subst hab
    have hid : id ∉ (a ++ b).map Row.id := by
      rw [List.mem_map]
      rintro ⟨r, hr, rfl⟩
      exact (mem_append.1 hr).elim (fun hr => (ha r hr).false) fun hr => (hb r hr).false
    have hmem : ∀ r, r ∈ a ++ ⟨id, [], 0, 0⟩ :: b ↔ r = ⟨id, [], 0, 0⟩ ∨ r ∈ a ++ b := by
      intro r
      rw [mem_append, mem_cons, mem_append, or_left_comm]
    refine ⟨a ++ ⟨id, [], 0, 0⟩ :: b, ⟨by rw [h.manager, hnew], ?_, ?_, ?_, h.views, h.tidy⟩⟩
    · have hs := h.sorted
      rw [map_append, pairwise_append] at hs
      rw [map_append, map_cons, pairwise_append, pairwise_cons]
      exact ⟨hs.1, ⟨forall_mem_map.2 hb, hs.2.1⟩,
        forall_mem_map.2 fun r hr => forall_mem_cons.2 ⟨ha r hr, hs.2.2 _ (mem_map_of_mem hr)⟩⟩
    · intro r hr
      rcases (hmem r).1 hr with rfl | hr
      · exact ⟨rfl, le_rfl, Nat.zero_le n, .nil, (h.others id hid).symm⟩
      · exact h.each r hr
    · intro obs hobs
      apply h.others
      intro hobs'
      obtain ⟨r, hr, rfl⟩ := mem_map.1 hobs'
      exact hobs (mem_map_of_mem ((hmem r).2 (.inr hr)))

/-- the slot of a subscriber has its row -/
theorem Inv.findSub_eq (h : Inv n s rows) (slot : ℕ) :
    findSub s.manager id = some slot ↔ ∃ r, rows[slot]? = some r ∧ r.id = id := by
  have hsubs : s.manager.subscribers = rows.map Row.id := by rw [h.manager]; rfl
  rw [Aoi.findSub_eq (hsubs ▸ h.sorted), hsubs, getElem?_map, map_eq_some_iff]

variable {r : Row ι} {slot : ℕ} {ids : List ι}

theorem Inv.row_inj (h : Inv n s rows) {i j : ℕ} {r' : Row ι} (hi : rows[i]? = some r) (hj : rows[j]? = some r')
    (hid : r.id = r'.id) : i = j := by
  apply index_inj h.sorted
  · rw [getElem?_map, hi]
    rfl
  · rw [getElem?_map, hj, hid]
    rfl

theorem Inv.unsubscribe (h : Inv n s rows) (hslot : findSub s.manager id = some slot) :
    Inv n ⟨removeSub s.manager slot, s.log ++ [.unsubscribed id]⟩ (rows.eraseIdx slot) := by
  obtain ⟨r₀, hr₀, rfl⟩ := (h.findSub_eq slot).1 hslot
  have hother : ∀ r ∈ rows.eraseIdx slot, r ∈ rows ∧ r₀.id ≠ r.id := by
    intro r hr
    obtain ⟨i, hne, hi⟩ := mem_eraseIdx_iff_getElem?.1 hr
    exact ⟨mem_of_getElem? hi, fun heq => hne (h.row_inj hr₀ hi heq).symm⟩
  refine ⟨by rw [h.manager, removeSub_ofRows], ?_, ?_, ?_, ?_, ?_⟩
  · rw [← eraseIdx_map]
    exact h.sorted.sublist (eraseIdx_sublist _ _)
  · intro r hr
    obtain ⟨hr, hne⟩ := hother r hr
    rw [view_unsubscribed, if_neg fun hc => hne hc.2]
    exact h.each r hr
  · intro obs hobs
    rw [view_unsubscribed]
    split_ifs with hc
    · rfl
    · apply h.others
      intro hobs'
      obtain ⟨r, hr, rfl⟩ := mem_map.1 hobs'
      obtain ⟨i, hi⟩ := mem_iff_getElem?.1 hr
      refine hobs (mem_map_of_mem (mem_eraseIdx_iff_getElem?.2 ⟨i, ?_, hi⟩))
      rintro rfl
      rw [hr₀] at hi
      exact hc ⟨rfl, congrArg Row.id (some.inj hi)⟩
  · intro obs
    rw [view_unsubscribed, latest_unsubscribed, h.views]
  · exact forall_mem_append.2 ⟨h.tidy, forall_mem_singleton.2 trivial⟩

/-- the row of an observer after a delta from the ids `res` -/
def Row.seeing (r : Row ι) (res : List ι) : Row ι :=
  ⟨r.id, res ++ r.buf.drop res.length, res.length, max r.cap res.length⟩

theorem RowOk.seeing {seen : Finset ι} (h : RowOk n seen r) {res : List ι} (hs : res.Pairwise (· < ·))
    (hsmall : res.length ≤ n) {new : Finset ι} (hnew : res.toFinset = new) : RowOk n new (r.seeing res) where
  room := by
    have := h.room
    simp only [Row.seeing, length_append, length_drop]
    omega
  count_le := le_max_right _ _
  small := hsmall
  sorted := by
    simp only [Row.seeing, take_left]
    exact hs
  seen := by
    simp only [Row.seeing, take_left]
    exact hnew

/-- the condition of a call: the ids seen are distinct, and no more than an array can take -/
def OpOk (maxArraySize : ℕ) : Op ι → Prop
  | .getDelta _ (some ids) => ids.Nodup ∧ ids.length ≤ maxArraySize
  | _ => True

theorem sort_strict (h : ids.Nodup) : (ids.insertionSort (· ≤ ·)).Pairwise (· < ·) := by
  have hle := pairwise_insertionSort (· ≤ ·) ids
  have hnd : (ids.insertionSort (· ≤ ·)).Nodup := (perm_insertionSort (· ≤ ·) ids).nodup_iff.2 h
  exact (hle.and hnd).imp fun hab => lt_of_le_of_ne hab.1 hab.2

omit [LinearOrder ι] in
theorem getElem?_col (hr : rows[slot]? = some r) (f : Row ι → α) : (rows.map f)[slot]? = some (f r) := by
  rw [getElem?_map, hr]
  rfl

omit [LinearOrder ι] in
/-- a column that a row keeps -/
theorem set_col (hr : rows[slot]? = some r) (f : Row ι → α) {x : α} (hx : x = f r) :
    (rows.map f).set slot x = rows.map f := by
  obtain ⟨hlt, heq⟩ := List.getElem?_eq_some_iff.1 (getElem?_col hr f)
  rw [hx, ← heq, List.set_getElem_self hlt]

/-- a delta for a subscriber: what the table is then, and what is reported -/
theorem Inv.getDelta_eq (h : Inv n s rows) (hr : rows[slot]? = some r) (hnd : ids.Nodup) (hsmall : ids.length ≤ n) :
    ∃ res enter leave, res.Perm ids ∧ res.Pairwise (· < ·) ∧ enter = res.filter (· ∉ r.buf.take r.count) ∧
      leave = (r.buf.take r.count).filter (· ∉ res) ∧
      getDelta n s.manager r.id (some ids) = some (.ofRows (rows.set slot (r.seeing res)), .delta enter leave) := by
  have hfind : findSub s.manager r.id = some slot := (h.findSub_eq slot).2 ⟨r, hr, rfl⟩
  have hrow := h.each r (mem_of_getElem? hr)
  have hres := perm_insertionSort (· ≤ ·) ids
  have hsorted := sort_strict hnd
  refine ⟨ids.insertionSort (· ≤ ·), _, _, hres, hsorted, rfl, rfl, ?_⟩
  rw [Aoi.getDelta.eq_def, hfind, h.manager]
  dsimp only [Manager.ofRows]
  rw [getElem?_col hr, getElem?_col hr, getElem?_col hr]
  generalize ids.insertionSort (· ≤ ·) = res at hres hsorted ⊢
  simp only [bind_eq_bind, bind_some]
  -- neither array is too large
  have henter : (res.filter (· ∉ r.buf.take r.count)).length ≤ n :=
    (length_filter_le _ _).trans (hres.length_eq.trans_le hsmall)
  have hleave : ((r.buf.take r.count).filter (· ∉ res)).length ≤ n :=
    (length_filter_le _ _).trans ((length_take_le _ _).trans hrow.small)
  rw [computeDelta_eq _ _ hrow.sorted hsorted, if_neg (not_or.2 ⟨not_lt.2 henter, not_lt.2 hleave⟩)]
  simp only [map_set]
  have hid : (rows.map Row.id).set slot (r.seeing res).id = rows.map Row.id := set_col hr Row.id rfl
  rw [hid]
  rfl

theorem Inv.getDelta (h : Inv n s rows) (hr : rows[slot]? = some r) (hnd : ids.Nodup) (hsmall : ids.length ≤ n) :
    ∃ s' rows', step n s (.getDelta r.id (some ids)) = some s' ∧ Inv n s' rows' := by
  obtain ⟨res, enter, leave, hperm, hsorted, henter, hleave, heq⟩ := h.getDelta_eq hr hnd hsmall
  have hrow := h.each r (List.mem_of_getElem? hr)
  have hlt : slot < rows.length := (List.getElem?_eq_some_iff.1 hr).1
  have hfin : res.toFinset = ids.toFinset := List.toFinset_eq_of_perm _ _ hperm
  have hview : (view true r.id s.log \ leave.toFinset) ∪ enter.toFinset = ids.toFinset := by
    rw [henter, hleave, ← hrow.seen, fold_delta, hfin]
  have hids : (rows.set slot (r.seeing res)).map Row.id = rows.map Row.id := by
    rw [map_set]
    exact set_col hr Row.id rfl
  refine ⟨⟨.ofRows (rows.set slot (r.seeing res)), s.log ++ [.delta r.id enter leave ids]⟩,
    rows.set slot (r.seeing res), ?_, ?_⟩
  · rw [step, heq]
    rfl
  · refine ⟨rfl, hids ▸ h.sorted, ?_, ?_, ?_, ?_⟩
    · intro r' hr'
      obtain ⟨j, hj⟩ := mem_iff_getElem?.1 hr'
      by_cases hjs : slot = j
      · rw [← hjs, getElem?_set_self hlt] at hj
        cases hj
        have hseen := view_delta true r.id r.id s.log enter leave ids
        rw [if_pos rfl, hview] at hseen
        exact hrow.seeing hsorted (hperm.length_eq.trans_le hsmall) (hfin.trans hseen.symm)
      · rw [getElem?_set_ne hjs] at hj
        rw [view_delta, if_neg fun hid => hjs (h.row_inj hr hj hid)]
        exact h.each r' (mem_of_getElem? hj)
    · intro obs hobs
      rw [hids] at hobs
      have hne : r.id ≠ obs := by
        rintro rfl
        exact hobs (mem_map_of_mem (mem_of_getElem? hr))
      rw [view_delta, if_neg hne]
      exact h.others obs hobs
    · intro obs
      rw [view_delta, latest_delta]
      split_ifs with hobs
      · rw [← hobs, hview]
      · exact h.views obs
    · refine forall_mem_append.2 ⟨h.tidy, forall_mem_singleton.2 ?_⟩
      have hres : res.Nodup := hsorted.imp fun hlt => hlt.ne
      have hprev : (r.buf.take r.count).Nodup := hrow.sorted.imp fun hlt => hlt.ne
      rw [henter, hleave]
      exact ⟨hres.filter _, hprev.filter _, fun x hx hx' =>
        absurd (mem_filter.1 hx').1 (of_decide_eq_true (mem_filter.1 hx).2)⟩

theorem Inv.step (h : Inv n s rows) {op : Op ι} (hok : OpOk n op) :
    ∃ s' rows', step n s op = some s' ∧ Inv n s' rows' := by
  cases op with
  | subscribe id =>
    obtain ⟨rows', h'⟩ := h.subscribe id
    exact ⟨_, rows', rfl, h'⟩
  | unsubscribe id =>
    cases hf : findSub s.manager id with
    | none => exact ⟨s, rows, by rw [Aoi.step, hf], h⟩
    | some slot => exact ⟨_, _, by rw [Aoi.step, hf], h.unsubscribe hf⟩
  | getDelta id visible =>
    have hzero : Aoi.getDelta n s.manager id visible = some (s.manager, .zero) →
        Aoi.step n s (.getDelta id visible) = some s := by
      intro hz
      rw [Aoi.step, hz]
      rfl
    cases hf : findSub s.manager id with
    | none =>
      refine ⟨s, rows, hzero ?_, h⟩
      rw [Aoi.getDelta.eq_def, hf]
    | some slot =>
      cases visible with
      | none =>
        refine ⟨s, rows, hzero ?_, h⟩
        rw [Aoi.getDelta.eq_def, hf]
      | some ids =>
        obtain ⟨r, hr, rfl⟩ := (h.findSub_eq slot).1 hf
        exact h.getDelta hr hok.1 hok.2

theorem Inv.run (h : Inv n s rows) {ops : List (Op ι)} (hok : ∀ op ∈ ops, OpOk n op) :
    ∃ s' rows', run n s ops = some s' ∧ Inv n s' rows' := by
  induction ops generalizing s rows with
  | nil => exact ⟨s, rows, rfl, h⟩
  | cons op ops ih =>
    obtain ⟨s₁, rows₁, hstep, h₁⟩ := h.step (hok op mem_cons_self)
    obtain ⟨s₂, rows₂, hrun, h₂⟩ := ih h₁ fun op hop => hok op (mem_cons_of_mem _ hop)
    refine ⟨s₂, rows₂, ?_, h₂⟩
    rw [Aoi.run, foldlM_cons, hstep]
    exact hrun

theorem inv_create (n : ℕ) : Inv n (State.create : State ι) [] :=
  ⟨rfl, .nil, nofun, fun _ _ => rfl, fun _ => rfl, nofun⟩

/-- the arrays of a manager go together: the ids are sorted (strictly, so none is there twice), and the buffer of each
observer has what it saw -/
structure Manager.Aligned (m : Manager ι) (seen : ι → Finset ι) : Prop where
  sorted : m.subscribers.Pairwise (· < ·)
  visible : m.prevVisible.length = m.subscribers.length
  count : m.prevCount.length = m.subscribers.length
  cap : m.prevCap.length = m.subscribers.length
  slot : ∀ (i : ℕ) (obs : ι) (buf : List ι) (count cap : ℕ), m.subscribers[i]? = some obs → m.prevVisible[i]? = some buf →
    m.prevCount[i]? = some count → m.prevCap[i]? = some cap →
    buf.length = cap ∧ count ≤ cap ∧ (buf.take count).toFinset = seen obs

theorem Inv.aligned (h : Inv n s rows) : s.manager.Aligned fun obs => view true obs s.log := by
  rw [h.manager]
  have hlen : ∀ {α : Type} (f : Row ι → α), (rows.map f).length = (rows.map Row.id).length := by
    intro α f
    rw [length_map, length_map]
  refine ⟨h.sorted, hlen _, hlen _, hlen _, ?_⟩
  intro i obs buf count cap hobs hbuf hcount hcap
  obtain ⟨r, hr, rfl⟩ := map_eq_some_iff.1 ((getElem?_map ..).symm.trans hobs)
  rw [Manager.ofRows] at hbuf hcount hcap
  rw [getElem?_col hr] at hbuf hcount hcap
  cases hbuf
  cases hcount
  cases hcap
  have hrow := h.each r (mem_of_getElem? hr)
  exact ⟨hrow.room, hrow.count_le, hrow.seen⟩

/-- **Deltas.** After any calls with sets of ids that an array can take: folding the deltas that an observer got since it
subscribed gives what it saw last, every delta is tidy, and the arrays are sorted and aligned. -/
theorem deltas_correct (maxArraySize : ℕ) (ops : List (Op ι)) (hok : ∀ op ∈ ops, OpOk maxArraySize op) :
    ∃ s, run maxArraySize State.create ops = some s ∧ (∀ obs, view true obs s.log = latest true obs s.log) ∧
      (∀ e ∈ s.log, e.Tidy) ∧ s.manager.Aligned fun obs => view true obs s.log := by
  obtain ⟨s, rows, hrun, h⟩ := (inv_create maxArraySize).run hok
  exact ⟨s, hrun, h.views, h.tidy, h.aligned⟩

/-- observer 7 sees 2 and 1, then 1 and 3 -/
theorem deltas_sample :
    ∃ s : State ℤ, run 10 State.create [.subscribe 7, .getDelta 7 (some [2, 1]), .getDelta 7 (some [1, 3])] = some s ∧
      (∀ obs, view true obs s.log = latest true obs s.log) ∧ (∀ e ∈ s.log, e.Tidy) ∧
      s.manager.Aligned fun obs => view true obs s.log := by
  apply deltas_correct
  simp only [forall_mem_cons]
  exact ⟨trivial, ⟨by decide, by decide⟩, ⟨by decide, by decide⟩, nofun⟩

/-- observer 7 sees 1, gives up its subscription, takes it up again and sees nothing: no delta says that 1 has left -/
theorem view_after_resubscribing :
    ∃ s : State ℤ, run 10 State.create [.subscribe 7, .getDelta 7 (some [1]), .unsubscribe 7, .subscribe 7,
        .getDelta 7 (some [])] = some s ∧
      view false 7 s.log = {1} ∧ latest false 7 s.log = ∅ := by
  have henter : computeDelta ([] : List ℤ) [1] = ([1], []) := by rw [computeDelta]
  have hnone : computeDelta ([] : List ℤ) [] = ([], []) := by rw [computeDelta]
  refine ⟨⟨⟨[7], [[]], [0], [0]⟩, [.delta 7 [1] [] [1], .unsubscribed 7, .delta 7 [] [] []]⟩, ?_, by decide, by decide⟩
  simp [run, step, addSub, insertPos, findSub, findSubLoop, getDelta, removeSub, State.create, Manager.create, henter,
    hnone]

end Lithos.Driver.Aoi
