/-
Who snoops on whom (`new_set_snoop` in `command.c`, `remove_interactive` and `replace_interactive` in `comm.c`).

A user has a pointer to the user they snoop on and one to the user they are snooped by. Starting to snoop follows the
pointers from the other user first, so as not to close a loop, and ends what either of the two had before. A
disconnection ends both. Users are named by their objects; `exec` gives a user another one.

Results:
- `snoop_right`: after any steps the two pointers are inverse to each other, lead from connected users to connected
  users and nowhere in a circle; and the search for a loop has ended every time.
-/
import Lithos.Core.Siblings

namespace Lithos.Driver.Snoop

open Function Lithos.Core.Siblings

structure State where
  destructed : Finset ℕ
  /-- the objects with an `interactive` -/
  connected : Finset ℕ
  snoopOn : ℕ → Option ℕ
  snoopBy : ℕ → Option ℕ

def start : State := ⟨∅, ∅, fun _ => none, fun _ => none⟩

/-- 0, 1, or an error -/
inductive Reply where
  | refused
  | done
  | error (message : String)

namespace State

variable (s : State)

def cut (a b : ℕ) : State := { s with snoopOn := update s.snoopOn a none, snoopBy := update s.snoopBy b none }

/-- the user snoops on nobody any more -/
def endOn (u : ℕ) : State := (s.snoopOn u).elim s fun other => s.cut u other

/-- nobody snoops on the user any more -/
def endBy (u : ℕ) : State := (s.snoopBy u).elim s fun other => s.cut other u

def link (a b : ℕ) : State :=
  { s with snoopOn := update s.snoopOn a (some b), snoopBy := update s.snoopBy b (some a) }

/-- `new_set_snoop`; `none` if the search for a loop does not end -/
def newSetSnoop (me : ℕ) (you : Option ℕ) : Option (Reply × State) :=
  if me ∈ s.destructed then some (.refused, s)
  else if ∃ ob ∈ you, ob ∈ s.destructed then some (.refused, s)
  else if me ∉ s.connected then some (.error "First argument of snoop() is not interactive!\n", s)
  else match you with
    | none => some (.done, s.endOn me)
    | some you =>
      if you ∉ s.connected then some (.error "Second argument of snoop() is not interactive!\n", s)
      else (climb s.snoopOn me (s.connected.card + 1) (some you)).map fun found =>
        if found then (.refused, s) else (.done, ((s.endOn me).endBy you).link me you)

/-- `new_interactive` -/
def newInteractive (ob : ℕ) : State :=
  if ob ∈ s.destructed ∨ ob ∈ s.connected then s
  else { s with
    connected := insert ob s.connected
    snoopOn := update s.snoopOn ob none
    snoopBy := update s.snoopBy ob none }

/-- `remove_interactive` -/
def removeInteractive (ob : ℕ) : State :=
  if ob ∉ s.connected then s
  else
    let s := (s.endBy ob).endOn ob
    { s with connected := s.connected.erase ob }

/-- `replace_interactive`, by `exec`: the `interactive` of `obfrom` with its pointers goes to `ob`, and pointers to it go
there -/
def replaceInteractive (ob obfrom : ℕ) : State :=
  if ob ∈ s.destructed ∨ ob ∈ s.connected ∨ obfrom ∉ s.connected then s
  else { s with
    connected := insert ob (s.connected.erase obfrom)
    snoopOn := fun u => (s.snoopOn (Equiv.swap ob obfrom u)).map (Equiv.swap ob obfrom)
    snoopBy := fun u => (s.snoopBy (Equiv.swap ob obfrom u)).map (Equiv.swap ob obfrom) }

end State

inductive Step where
  | connect (ob : ℕ)
  | snoop (me : ℕ) (you : Option ℕ)
  | disconnect (ob : ℕ)
  | exec (ob obfrom : ℕ)
  | destruct (ob : ℕ)

def step (s : State) : Step → Option State
  | .connect ob => some (s.newInteractive ob)
  | .snoop me you => (s.newSetSnoop me you).map Prod.snd
  | .disconnect ob => some (s.removeInteractive ob)
  | .exec ob obfrom => some (s.replaceInteractive ob obfrom)
  | .destruct ob => some { s.removeInteractive ob with destructed := insert ob s.destructed }

def run (s : State) (steps : List Step) : Option State := steps.foldlM step s

/-- the pointers of connected users -/
structure Inv (s : State) : Prop where
  inverse : ∀ a b, s.snoopOn a = some b ↔ s.snoopBy b = some a
  connected : ∀ a b, s.snoopOn a = some b → a ∈ s.connected ∧ b ∈ s.connected
  ranked : ∃ rank, Ranked s.snoopOn rank

section
variable {s : State} {a b u : ℕ}

theorem update_none_eq_some {f : ℕ → Option ℕ} {x y : ℕ} : update f u none x = some y ↔ x ≠ u ∧ f x = some y := by
  by_cases h : x = u <;> simp [h]

theorem Inv.cut (h : Inv s) (hab : s.snoopOn a = some b) : Inv (s.cut a b) where
  inverse x y := by
    simp only [State.cut, update_none_eq_some, ← h.inverse]
    refine and_congr_left fun hxy => not_congr ⟨?_, ?_⟩
    · rintro rfl
      exact Option.some.inj (hxy.symm.trans hab)
    · rintro rfl
      exact Option.some.inj (((h.inverse x y).1 hxy).symm.trans ((h.inverse a y).1 hab))
  connected x y hxy := h.connected x y (update_none_eq_some.1 hxy).2
  ranked := h.ranked.imp fun _ hrank => hrank.mono fun _ _ hxy => (update_none_eq_some.1 hxy).2

/-- `s'` has some of the pointers of `s` -/
structure Fewer (s' s : State) : Prop where
  inv : Inv s'
  sub : ∀ x y, s'.snoopOn x = some y → s.snoopOn x = some y
  connected : s'.connected = s.connected

theorem Fewer.trans {s₁ s₂ s₃ : State} (h : Fewer s₁ s₂) (h' : Fewer s₂ s₃) : Fewer s₁ s₃ :=
  ⟨h.inv, fun x y hxy => h'.sub x y (h.sub x y hxy), h.connected.trans h'.connected⟩

theorem Fewer.none {s' : State} (h : Fewer s' s) (hu : s.snoopOn u = none) : s'.snoopOn u = none :=
  Option.eq_none_iff_forall_ne_some.2 fun y hy => Option.some_ne_none y ((h.sub u y hy).symm.trans hu)

theorem Inv.fewer_cut (h : Inv s) (hab : s.snoopOn a = some b) : Fewer (s.cut a b) s :=
  ⟨h.cut hab, fun _ _ hxy => (update_none_eq_some.1 hxy).2, rfl⟩

theorem Inv.endOn (h : Inv s) (u : ℕ) : Fewer (s.endOn u) s ∧ (s.endOn u).snoopOn u = none := by
  unfold State.endOn
  cases hon : s.snoopOn u with
  | none => exact ⟨⟨h, fun _ _ => id, rfl⟩, hon⟩
  | some other => exact ⟨h.fewer_cut hon, update_self _ _ _⟩

theorem Inv.endBy (h : Inv s) (u : ℕ) : Fewer (s.endBy u) s ∧ (s.endBy u).snoopBy u = none := by
  unfold State.endBy
  cases hby : s.snoopBy u with
  | none => exact ⟨⟨h, fun _ _ => id, rfl⟩, hby⟩
  | some other => exact ⟨h.fewer_cut ((h.inverse _ _).2 hby), update_self _ _ _⟩

/-- a new pair of pointers between users without -/
theorem Inv.link (h : Inv s) (ha : a ∈ s.connected) (hb : b ∈ s.connected) (hon : s.snoopOn a = none)
    (hby : s.snoopBy b = none) (habove : ¬ Above s.snoopOn b a) : Inv (s.link a b) where
  inverse x y := by
    have hx : s.snoopBy y ≠ some a := fun hya => Option.some_ne_none y (((h.inverse a y).2 hya).symm.trans hon)
    have hy : s.snoopOn x ≠ some b := fun hxb => Option.some_ne_none x (((h.inverse x b).1 hxb).symm.trans hby)
    simp only [State.link, update_apply]
    split_ifs with hxa hyb hyb
    · simp [hxa, hyb]
    · exact iff_of_false (fun hby => hyb (Option.some.inj hby).symm) (hxa ▸ hx)
    · exact iff_of_false (hyb ▸ hy) fun hax => hxa (Option.some.inj hax).symm
    · exact h.inverse x y
  connected x y hxy := by
    by_cases hxa : x = a
    · subst hxa
      obtain rfl : b = y := by simpa [State.link] using hxy
      exact ⟨ha, hb⟩
    · exact h.connected x y (by simpa [State.link, hxa] using hxy)
  ranked := h.ranked.elim fun _ hrank => hrank.link habove

theorem Inv.newSetSnoop (h : Inv s) (me : ℕ) (you : Option ℕ) :
    ∃ reply s', s.newSetSnoop me you = some (reply, s') ∧ Inv s' := by
  unfold State.newSetSnoop
  split_ifs with _ _ hme
  · exact ⟨_, _, rfl, h⟩
  · exact ⟨_, _, rfl, h⟩
  · cases you with
    | none => exact ⟨_, _, rfl, (h.endOn me).1.inv⟩
    | some you =>
      dsimp only
      split_ifs with hyou
      · obtain ⟨rank, hrank⟩ := h.ranked
        obtain ⟨found, hfound⟩ := climb_total hrank me (fun a b hab => (h.connected a b hab).1) le_rfl you
        rw [hfound]
        cases found with
        | true => exact ⟨_, _, rfl, h⟩
        | false =>
          obtain ⟨hon, hnone⟩ := h.endOn me
          obtain ⟨hby, hnone'⟩ := hon.inv.endBy you
          have hall := hby.trans hon
          have habove : ¬ Above ((s.endOn me).endBy you).snoopOn you me := fun habove =>
            climb_sound hfound (Relation.ReflTransGen.mono hall.sub _ _ habove)
          refine ⟨_, _, rfl, hby.inv.link (hall.connected ▸ hme) (hall.connected ▸ hyou) ?_ hnone' habove⟩
          exact hby.none hnone
      · exact ⟨_, _, rfl, h⟩
  · exact ⟨_, _, rfl, h⟩

theorem Inv.newInteractive (h : Inv s) (ob : ℕ) : Inv (s.newInteractive ob) := by
  unfold State.newInteractive
  split_ifs with hob
  · exact h
  · rw [not_or] at hob
    have hon : s.snoopOn ob = none := Option.eq_none_iff_forall_ne_some.2 fun b hb => hob.2 (h.connected ob b hb).1
    have hby : s.snoopBy ob = none := Option.eq_none_iff_forall_ne_some.2 fun a ha =>
      hob.2 (h.connected a ob ((h.inverse a ob).2 ha)).2
    rw [← hon, update_eq_self, hon, ← hby, update_eq_self]
    exact ⟨h.inverse, fun a b hab => (h.connected a b hab).imp (Finset.mem_insert_of_mem ·) (Finset.mem_insert_of_mem ·),
      h.ranked⟩

theorem Inv.removeInteractive (h : Inv s) (ob : ℕ) : Inv (s.removeInteractive ob) := by
  unfold State.removeInteractive
  split_ifs with hob
  · obtain ⟨hby, hnone⟩ := h.endBy ob
    obtain ⟨hon, hnone'⟩ := hby.inv.endOn ob
    refine ⟨hon.inv.inverse, fun a b hab => ?_, hon.inv.ranked⟩
    have ha : a ≠ ob := by
      rintro rfl
      exact Option.some_ne_none b (hab.symm.trans hnone')
    have hb : b ≠ ob := by
      rintro rfl
      exact Option.some_ne_none a (((hby.inv.inverse a b).1 (hon.sub a b hab)).symm.trans hnone)
    exact (hon.inv.connected a b hab).imp (Finset.mem_erase.2 ⟨ha, ·⟩) (Finset.mem_erase.2 ⟨hb, ·⟩)
  · exact h

theorem map_swap_eq_some {o : Option ℕ} {y : ℕ} :
    o.map (Equiv.swap a b) = some y ↔ o = some (Equiv.swap a b y) := by
  rw [Option.map_eq_some_iff]
  constructor
  · rintro ⟨z, rfl, rfl⟩
    simp
  · exact fun ho => ⟨_, ho, by simp⟩

theorem Inv.replaceInteractive (h : Inv s) (ob obfrom : ℕ) : Inv (s.replaceInteractive ob obfrom) := by
  unfold State.replaceInteractive
  split_ifs with hbad
  · exact h
  push Not at hbad
  have hmem : ∀ x, Equiv.swap ob obfrom x ∈ s.connected → x ∈ insert ob (s.connected.erase obfrom) := by
    intro x hx
    by_cases hob : x = ob
    · exact hob ▸ Finset.mem_insert_self _ _
    · have hfrom : x ≠ obfrom := by
        rintro rfl
        rw [Equiv.swap_apply_right] at hx
        exact hbad.2.1 hx
      rw [Equiv.swap_apply_of_ne_of_ne hob hfrom] at hx
      exact Finset.mem_insert_of_mem (Finset.mem_erase.2 ⟨hfrom, hx⟩)
  refine ⟨fun x y => ?_, fun x y hxy => ?_, ?_⟩
  · rw [map_swap_eq_some, map_swap_eq_some, h.inverse]
  · exact (h.connected _ _ (map_swap_eq_some.1 hxy)).imp (hmem x) (hmem y)
  · obtain ⟨rank, hrank⟩ := h.ranked
    exact ⟨rank ∘ Equiv.swap ob obfrom, fun x y hxy => hrank _ _ (map_swap_eq_some.1 hxy)⟩

theorem Inv.step (h : Inv s) (st : Step) : ∃ s', step s st = some s' ∧ Inv s' := by
  cases st with
  | connect ob => exact ⟨_, rfl, h.newInteractive ob⟩
  | snoop me you =>
    obtain ⟨reply, s', hs', hinv⟩ := h.newSetSnoop me you
    exact ⟨s', by rw [Snoop.step, hs']; rfl, hinv⟩
  | disconnect ob => exact ⟨_, rfl, h.removeInteractive ob⟩
  | exec ob obfrom => exact ⟨_, rfl, h.replaceInteractive ob obfrom⟩
  | destruct ob =>
    have hinv := h.removeInteractive ob
    exact ⟨_, rfl, hinv.inverse, hinv.connected, hinv.ranked⟩

theorem Inv.run (h : Inv s) (steps : List Step) : ∃ s', run s steps = some s' ∧ Inv s' := by
  induction steps generalizing s with
  | nil => exact ⟨s, rfl, h⟩
  | cons st steps ih =>
    obtain ⟨s₁, hs₁, h₁⟩ := h.step st
    obtain ⟨s', hs', hinv⟩ := ih h₁
    exact ⟨s', by rw [Snoop.run, List.foldlM_cons, hs₁]; exact hs', hinv⟩

end

end Lithos.Driver.Snoop
