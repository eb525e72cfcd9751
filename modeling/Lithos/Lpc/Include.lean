/-
The path of an include file (`inc_lexically_normal` and `inc_open` in `lex.c`).

The name in an `#include` is resolved against the directory of the current file: the destination text is edited in
place, a component at a time. Read by components, the destination is a stack that `..` pops, and a `..` with nothing to
pop ends the reading. Two things are outside this picture. The last component has no slash behind it, so it is appended
whatever it is. And after `./` or `../` a further slash is taken for the end of the next component: the length of that
component is negative, the whole rest of the name is appended, and then read once more.

Results:
* `include_confined_iff`: for names in which no such further slash is reached, the path that is opened first stays below
  the root unless the name ends in `..` where no ordinary component is left.
* `climbs_over_root`: with one, it can lead above.
-/
import Lithos.Core.Components
import Lithos.Lpc.Types

namespace Lithos.Lpc.Include

open Lithos.Core.Components List Option

/-- a C string without its final NUL -/
abbrev Path := List Byte

def slash : Byte := 47

def dot : Byte := 46

/-! ## `inc_lexically_normal` -/

/-- `strncat (dest, from, s1 - from)`, where `from` was moved over its leading slashes. If there are any, `s1` is the
first of them and the count is negative: a `size_t` larger than any text. -/
def firstComponent (rest : Path) : Path :=
  let s1 := (rest.takeWhile (· ≠ slash)).length
  let lead := (rest.takeWhile (· = slash)).length
  let start := rest.drop lead
  start.take (if s1 < lead then start.length else s1 - lead)

/-- `for (from = s1 + 1; *from == '/'; from++)` -/
def afterComponent (rest : Path) : Path :=
  ((rest.dropWhile (· ≠ slash)).drop 1).dropWhile (· = slash)

theorem length_afterComponent {rest : Path} (h : rest ≠ []) : (afterComponent rest).length < rest.length := by
  have h1 := (dropWhile_suffix (l := (rest.dropWhile (· ≠ slash)).drop 1) (· = slash)).length_le
  have h2 := (dropWhile_suffix (l := rest) (· ≠ slash)).length_le
  have h3 := length_pos_iff.2 h
  rw [length_drop] at h1
  unfold afterComponent
  omega

/-- a component is appended behind a slash, except to the empty path -/
def openComponent (dest : Path) : Path := if dest = [] then [] else dest ++ [slash]

/-- the loop over the name -/
def normalLoop (dest rest : Path) : Path :=
  if rest = [] then dest
  else if [dot, dot, slash] <+: rest then
    -- including from above the root is not allowed
    if dest = [] then dest else normalLoop (cutLast slash dest) (rest.drop 3)
  else if [dot, slash] <+: rest then normalLoop dest (rest.drop 2)
  else if slash ∈ rest then normalLoop (openComponent dest ++ firstComponent rest) (afterComponent rest)
  else openComponent dest ++ rest
termination_by rest.length
decreasing_by
  all_goals have hpos : 0 < rest.length := length_pos_iff.2 (by assumption)
  · rw [length_drop]; omega
  · rw [length_drop]; omega
  · exact length_afterComponent (length_pos_iff.1 hpos)

/-- `inc_lexically_normal` -/
def incLexicallyNormal (absBase name : Path) : Path :=
  -- strip the file name; a name that starts with a slash is absolute
  let dest := if name.head? = some slash then [] else cutLast slash absBase
  normalLoop dest (name.dropWhile (· = slash))

/-! ## `inc_open` -/

/-- what `inc_open` finds around it; `openFile` gives the descriptor of a file that can be opened -/
structure Environment where
  openFile : Path → Option ℕ
  withinRoot : Path → Bool
  currentFile : Path
  mudlibDir : Path
  incList : List (Option Path)
  bufSize : ℕ

/-- the text `name` has two dots next to each other (the search directories are then not tried) -/
def dotDot (name : Path) : Bool := [dot, dot] <:+: name

/-- the path tried for one search directory: the empty one is the root itself -/
def searchPath (mudlibDir dir name : Path) : Path :=
  if dir = [] then mudlibDir ++ slash :: name else mudlibDir ++ slash :: dir ++ slash :: name

/-- the loop over the search directories: what is opened in turn, and the descriptor -/
def searchDirs (env : Environment) (name : Path) : List (Option Path) → List Path × Option ℕ
  | [] => ([], none)
  | none :: dirs => searchDirs env name dirs
  | some dir :: dirs =>
    let buf := searchPath env.mudlibDir dir name
    if env.bufSize < buf.length + 1 then searchDirs env name dirs
    else if ¬ env.withinRoot buf then searchDirs env name dirs
    else match env.openFile buf with
      | some fd => ([buf], some fd)
      | none => (buf :: (searchDirs env name dirs).1, (searchDirs env name dirs).2)

/-- `inc_open`: the paths it opens in turn, and the descriptor it returns (`none` for -1) -/
def incOpen (env : Environment) (name : Path) : List Path × Option ℕ :=
  let buf := incLexicallyNormal env.currentFile name
  match env.openFile buf with
  | some fd => ([buf], some fd)
  | none =>
    if dotDot name ∨ env.mudlibDir = [] then ([buf], none)
    else (buf :: (searchDirs env name env.incList).1, (searchDirs env name env.incList).2)

theorem incOpen_first (env : Environment) (name : Path) :
    (incOpen env name).1.head? = some (incLexicallyNormal env.currentFile name) := by
  unfold incOpen
  dsimp only
  split
  · rfl
  · split <;> rfl

/-! ## Components -/

abbrev Component := List Byte

def here : Component := [dot]

def up : Component := [dot, dot]

/-- a component that leads one directory down -/
def Ordinary (c : Component) : Prop := c ≠ [] ∧ c ≠ here ∧ c ≠ up

instance : DecidablePred Ordinary := fun c => inferInstanceAs (Decidable (c ≠ [] ∧ c ≠ here ∧ c ≠ up))

/-- at no component the `..` up to there outnumber the ordinary ones -/
def Below (cs : List Component) : Prop := ∀ pre, pre <+: cs → pre.count up ≤ pre.countP Ordinary

/-- read component by component the path never leads above the root -/
def Confined (path : Path) : Prop := Below (path.splitOn slash)

/-- the directory an include name starts from -/
def directory (base name : Path) : List Component :=
  if name.head? = some slash then [] else (base.splitOn slash).dropLast

/-- the components of an include name -/
def components (name : Path) : List Component := (name.dropWhile (· = slash)).splitOn slash

/-- reading a name from directory `D`; `none` when it leads above the root -/
def walk (D : List Component) : List Component → Option (List Component)
  | [] => some D
  | c :: cs =>
    if c = up then (if D = [] then none else walk D.dropLast cs)
    else if c = here ∨ c = [] then walk D cs
    else walk (D ++ [c]) cs

/-- a `.` or `..` with two slashes behind it is not passed: the reading from `D` has led above the root by then -/
def NoGap (D cs : List Component) : Prop :=
  ∀ pre c e rest, cs = pre ++ c :: [] :: e :: rest → c = here ∨ c = up → walk D (pre ++ [c]) = none

/-- if the last component is `..`, it is read where an ordinary component is left -/
def FinalOk (D cs : List Component) : Prop :=
  cs.getLast? = some up → ∀ E, walk D cs.dropLast = some E → ∃ c ∈ E, Ordinary c

/-- the destination as a list of components: the last one is appended as it is -/
def resolve (D : List Component) : List Component → List Component
  | [] => D
  | [c] => if c = [] then D else D ++ [c]
  | c :: d :: cs =>
    if c = up then (if D = [] then [] else resolve D.dropLast (d :: cs))
    else if c = here ∨ c = [] then resolve D (d :: cs)
    else resolve (D ++ [c]) (d :: cs)

variable {D : List Component}

theorem resolve_of_walk (cs : List Component) (last : Component) :
    resolve D (cs ++ [last]) = (walk D cs).elim [] fun E => if last = [] then E else E ++ [last] := by
  induction cs generalizing D with
  | nil => rfl
  | cons c cs ih =>
    obtain ⟨d, ds, hds⟩ : ∃ d ds, cs ++ [last] = d :: ds := exists_cons_of_ne_nil (by simp)
    rw [cons_append, hds, resolve, walk, ← hds]
    by_cases hup : c = up
    · rw [if_pos hup, if_pos hup]
      by_cases hD : D = []
      · rw [if_pos hD, if_pos hD]; rfl
      · rw [if_neg hD, if_neg hD, ih]
    · rw [if_neg hup, if_neg hup]
      by_cases hskip : c = here ∨ c = []
      · rw [if_pos hskip, if_pos hskip, ih]
      · rw [if_neg hskip, if_neg hskip, ih]

/-! ## The loop by components -/

/-- components of a text that does not start with a slash -/
def Started (cs : List Component) : Prop := cs = [[]] ∨ ∃ c ds, cs = c :: ds ∧ c ≠ []

/-- leading empty components are passed over, unless one is the last -/
def skipEmpty : List Component → List Component
  | [] :: d :: cs => skipEmpty (d :: cs)
  | cs => cs

theorem started_skipEmpty (c : Component) (cs : List Component) : Started (skipEmpty (c :: cs)) := by
  induction cs generalizing c with
  | nil =>
    cases c with
    | nil => exact .inl rfl
    | cons b c => exact .inr ⟨_, _, rfl, cons_ne_nil b c⟩
  | cons d cs ih =>
    cases c with
    | nil => exact ih d
    | cons b c => exact .inr ⟨_, _, rfl, cons_ne_nil b c⟩

theorem skipEmpty_suffix (cs : List Component) : skipEmpty cs <:+ cs := by
  fun_induction skipEmpty cs with
  | case1 d cs ih => exact ih.trans (suffix_cons [] (d :: cs))
  | case2 cs _ => exact suffix_rfl

theorem resolve_skipEmpty (D cs : List Component) : resolve D (skipEmpty cs) = resolve D cs := by
  fun_induction skipEmpty cs with
  | case1 d cs ih => rw [ih, resolve]; rfl
  | case2 cs _ => rfl

variable {cs : List Component} {c : Component} {d : Component} {E : List Component} {base : Path}

theorem NoGap.tail (h : NoGap D (c :: cs)) (hwalk : ∀ l, walk D (c :: l) = walk E l) : NoGap E cs := by
  intro pre c' e rest hcs hc'
  rw [← hwalk, ← cons_append]
  exact h (c :: pre) c' e rest (by rw [hcs, cons_append]) hc'

theorem NoGap.skipEmpty (h : NoGap D cs) : NoGap D (skipEmpty cs) := by
  fun_induction Include.skipEmpty cs with
  | case1 d cs ih => exact ih (h.tail fun _ => rfl)
  | case2 cs _ => exact h

/-- behind a dot component that is passed the text does not go on with a slash -/
theorem NoGap.started (h : NoGap D (c :: d :: cs)) (hc : c = here ∨ c = up) (hpass : walk D [c] ≠ none) :
    Started (d :: cs) := by
  cases d with
  | cons b d => exact .inr ⟨_, _, rfl, cons_ne_nil b d⟩
  | nil =>
    cases cs with
    | nil => exact .inl rfl
    | cons e cs => exact absurd (h [] c e cs rfl hc) hpass

theorem dropWhile_join_skipEmpty (hfree : Free slash cs) :
    (join slash cs).dropWhile (· = slash) = join slash (skipEmpty cs) := by
  fun_induction skipEmpty cs with
  | case1 d cs ih =>
    rw [join_cons_cons, nil_append, dropWhile_cons_of_pos (by simp), ih hfree.tail]
  | case2 cs hcs =>
    match cs, hcs with
    | [], _ | [[]], _ => rfl
    | [] :: d :: cs, hcs => exact absurd rfl (hcs d cs)
    | (b :: c) :: cs, _ =>
      have hb : b ≠ slash := fun e => hfree _ (.head _) (e ▸ .head _)
      cases cs with
      | nil => rw [join_singleton, dropWhile_cons_of_neg (by simpa using hb)]
      | cons d cs => rw [join_cons_cons, cons_append, dropWhile_cons_of_neg (by simpa using hb)]

theorem firstComponent_append (hne : c ≠ []) (hc : slash ∉ c) (s : Path) : firstComponent (c ++ slash :: s) = c := by
  obtain ⟨b, bs, rfl⟩ := exists_cons_of_ne_nil hne
  have hb : b ≠ slash := fun e => hc (e ▸ .head _)
  have hlead : (b :: bs ++ slash :: s).takeWhile (· = slash) = [] := by
    rw [cons_append, takeWhile_cons_of_neg (by simpa using hb)]
  unfold firstComponent
  rw [hlead, takeWhile_free hc]
  simp

theorem afterComponent_append (hc : slash ∉ c) (s : Path) :
    afterComponent (c ++ slash :: s) = s.dropWhile (· = slash) := by
  rw [afterComponent, dropWhile_free hc, dropWhile_cons_of_neg (by simp), drop_one, tail_cons]

theorem openComponent_join (hhead : D.head? ≠ some []) (c : Component) :
    openComponent (join slash D) ++ c = join slash (D ++ [c]) := by
  by_cases hD : D = []
  · rw [hD]; simp [openComponent]
  · rw [openComponent, if_neg (join_ne_nil hD hhead), join_append_singleton hD, append_assoc]
    rfl

theorem head_dropLast (h : D.head? ≠ some []) : D.dropLast.head? ≠ some [] := by
  match D, h with
  | [], _ | [_], _ => exact nofun
  | d :: _ :: _, h => exact h

theorem head_append (h : D.head? ≠ some []) (hc : c ≠ []) : (D ++ [c]).head? ≠ some [] := by
  cases D with
  | nil => exact fun e => hc (some.inj e)
  | cons d D => exact h

theorem prefix_component (hc : slash ∉ c) (hd : slash ∉ d) (s : Path) : d ++ [slash] <+: c ++ slash :: s ↔ c = d := by
  constructor
  · rintro ⟨t, ht⟩
    rw [append_assoc, singleton_append] at ht
    rw [← takeWhile_free hc s, ← ht, takeWhile_free hd]
  · rintro rfl
    exact ⟨s, by rw [append_assoc, singleton_append]⟩

theorem not_prefix_of_free {c d : Path} (hc : slash ∉ c) (hd : slash ∈ d) : ¬ d <+: c :=
  fun h => hc (h.subset hd)

theorem normalLoop_up (dest s : Path) :
    normalLoop dest (up ++ slash :: s) = if dest = [] then dest else normalLoop (cutLast slash dest) s := by
  rw [normalLoop]
  rfl

theorem normalLoop_here (dest s : Path) : normalLoop dest (here ++ slash :: s) = normalLoop dest s := by
  rw [normalLoop]
  rfl

theorem normalLoop_component (dest s : Path) (hfree : slash ∉ c) (hc : Ordinary c) :
    normalLoop dest (c ++ slash :: s) = normalLoop (openComponent dest ++ c) (s.dropWhile (· = slash)) := by
  obtain ⟨hne, hhere, hup⟩ := hc
  have hnotUp : ¬ [dot, dot, slash] <+: c ++ slash :: s := mt (prefix_component (d := up) hfree (by decide) s).1 hup
  have hnotHere : ¬ [dot, slash] <+: c ++ slash :: s := mt (prefix_component (d := here) hfree (by decide) s).1 hhere
  rw [normalLoop, if_neg (by simp), if_neg hnotUp, if_neg hnotHere, if_pos (by simp),
    firstComponent_append hne hfree, afterComponent_append hfree]

/-- what has no slash behind it is appended, `.` and `..` too -/
theorem normalLoop_last (dest : Path) (hfree : slash ∉ c) (hne : c ≠ []) :
    normalLoop dest c = openComponent dest ++ c := by
  rw [normalLoop, if_neg hne, if_neg (not_prefix_of_free hfree (by decide)),
    if_neg (not_prefix_of_free hfree (by decide)), if_neg hfree]

/-- **The loop by components.** For a name in which no gap is reached, editing the text is reading the components. -/
theorem normalLoop_join (hD : Free slash D) (hhead : D.head? ≠ some [])
    (hcs : Free slash cs) (hgap : NoGap D cs) (hstart : Started cs) :
    normalLoop (join slash D) (join slash cs) = join slash (resolve D cs) := by
  -- the components that are skipped make the induction one on the length
  induction hn : cs.length using Nat.strong_induction_on generalizing D cs with
  | _ n ih =>
    rcases hstart with rfl | ⟨c, ds, rfl, hne⟩
    · rw [join_singleton, normalLoop, if_pos rfl, resolve, if_pos rfl]
    · have hfree : slash ∉ c := hcs c (.head _)
      cases ds with
      | nil => rw [join_singleton, normalLoop_last _ hfree hne, resolve, if_neg hne, openComponent_join hhead]
      | cons d ds =>
        have hshort : (d :: ds).length < n := hn ▸ lt_add_one _
        rw [join_cons_cons, resolve]
        by_cases hup : c = up
        · rw [hup, normalLoop_up, if_pos rfl]
          by_cases hnil : D = []
          · rw [hnil, if_pos join_nil, if_pos rfl]
          · rw [if_neg (join_ne_nil hnil hhead), if_neg hnil, cutLast_join hD]
            have hwalk : ∀ l, walk D (c :: l) = walk D.dropLast l := fun l => by rw [walk, if_pos hup, if_neg hnil]
            exact ih _ hshort hD.dropLast (head_dropLast hhead) hcs.tail (hgap.tail hwalk)
              (hgap.started (.inr hup) (hwalk [] ▸ some_ne_none _)) rfl
        · rw [if_neg hup]
          by_cases hhere : c = here
          · have hwalk : ∀ l, walk D (c :: l) = walk D l := fun l => by rw [walk, if_neg hup, if_pos (.inl hhere)]
            have hstarted := hgap.started (.inl hhere) (hwalk [] ▸ some_ne_none _)
            rw [hhere, normalLoop_here]
            exact ih _ hshort hD hhead hcs.tail (hgap.tail hwalk) hstarted rfl
          · rw [if_neg (not_or.2 ⟨hhere, hne⟩), normalLoop_component _ _ hfree ⟨hne, hhere, hup⟩,
              openComponent_join hhead, dropWhile_join_skipEmpty hcs.tail, ← resolve_skipEmpty]
            have hsuffix := skipEmpty_suffix (d :: ds)
            have hwalk : ∀ l, walk D (c :: l) = walk (D ++ [c]) l := fun l => by
              rw [walk, if_neg hup, if_neg (not_or.2 ⟨hhere, hne⟩)]
            exact ih _ (hsuffix.length_le.trans_lt hshort) (hD.append hfree) (head_append hhead hne)
              (fun e he => hcs e (mem_cons_of_mem c (hsuffix.subset he))) (hgap.tail hwalk).skipEmpty
              (started_skipEmpty d ds) rfl

/-! ## Confinement -/

/-- without `..` no path leads above the root -/
theorem below_of_noUp (h : up ∉ cs) : Below cs := by
  intro pre hpre
  rw [count_eq_zero_of_not_mem fun hup => h (hpre.subset hup)]
  exact Nat.zero_le _

/-- with a last `..` it does so when nothing ordinary is before it -/
theorem below_append_up (h : up ∉ E) : Below (E ++ [up]) ↔ ∃ c ∈ E, Ordinary c := by
  have hcount : (E ++ [up]).count up = 1 := by
    rw [count_append, count_eq_zero_of_not_mem h, count_singleton_self]
  have hord : (E ++ [up]).countP Ordinary = E.countP Ordinary := by
    rw [countP_append]
    exact Nat.add_eq_left.2 (by decide)
  constructor
  · intro hbelow
    have hall := hbelow _ prefix_rfl
    rw [hcount, hord] at hall
    obtain ⟨c, hc, hc'⟩ := countP_pos_iff.1 hall
    exact ⟨c, hc, of_decide_eq_true hc'⟩
  · rintro ⟨c, hc, hc'⟩ pre hpre
    rcases prefix_concat_iff.1 hpre with rfl | hpre
    · rw [hcount, hord]
      exact countP_pos_iff.2 ⟨c, hc, decide_eq_true hc'⟩
    · exact below_of_noUp h pre hpre

theorem walk_noUp (hD : up ∉ D) (h : walk D cs = some E) : up ∉ E := by
  induction cs generalizing D with
  | nil => exact some.inj h ▸ hD
  | cons c cs ih =>
    rw [walk] at h
    by_cases hup : c = up
    · rw [if_pos hup] at h
      by_cases hnil : D = []
      · rw [if_pos hnil] at h; cases h
      · rw [if_neg hnil] at h
        exact ih (fun hmem => hD (dropLast_subset D hmem)) h
    · rw [if_neg hup] at h
      by_cases hskip : c = here ∨ c = []
      · rw [if_pos hskip] at h
        exact ih hD h
      · rw [if_neg hskip] at h
        exact ih (not_mem_append hD fun hmem => hup (mem_singleton.1 hmem).symm) h

theorem below_resolve_iff (hD : up ∉ D) (hne : cs ≠ []) : Below (resolve D cs) ↔ FinalOk D cs := by
  obtain ⟨init, last, rfl⟩ : ∃ init last, cs = init ++ [last] :=
    ⟨cs.dropLast, cs.getLast hne, (dropLast_append_getLast hne).symm⟩
  rw [FinalOk, getLast?_concat, dropLast_concat, resolve_of_walk]
  cases hwalk : walk D init with
  | none => exact ⟨nofun, fun _ => below_of_noUp not_mem_nil⟩
  | some E =>
    have hE := walk_noUp hD hwalk
    rw [elim_some]
    by_cases hlast : last = up
    · rw [hlast, if_neg (by decide), below_append_up hE]
      exact ⟨fun h _ _ heq => some.inj heq ▸ h, fun h => h rfl E rfl⟩
    · refine ⟨fun _ h => absurd (some.inj h) hlast, fun _ => below_of_noUp ?_⟩
      split
      · exact hE
      · exact not_mem_append hE fun hmem => hlast (mem_singleton.1 hmem).symm

/-- the path has the components it was put together from -/
theorem confined_join (hfree : Free slash cs) : Confined (join slash cs) ↔ Below cs := by
  by_cases hcs : cs = []
  · rw [hcs]
    exact ⟨fun _ => below_of_noUp not_mem_nil, fun _ => below_of_noUp (by decide)⟩
  · rw [Confined, splitOn_join hfree hcs]

theorem resolve_free (hD : Free slash D) (hcs : Free slash cs) : Free slash (resolve D cs) := by
  fun_induction resolve D cs with
  | case1 D | case2 D => exact hD
  | case3 D c _ => exact hD.append (hcs c mem_cons_self)
  | case4 c cs => exact nofun
  | case5 D d cs _ ih => exact ih hD.dropLast hcs.tail
  | case6 D c d cs _ _ ih => exact ih hD hcs.tail
  | case7 D c d cs _ _ ih => exact ih (hD.append (hcs c mem_cons_self)) hcs.tail

theorem directory_free (base name : Path) : Free slash (directory base name) := by
  unfold directory
  split
  · exact nofun
  · exact (free_splitOn base).dropLast

theorem directory_noUp (hup : up ∉ base.splitOn slash) (name : Path) : up ∉ directory base name := by
  unfold directory
  split
  · exact not_mem_nil
  · exact fun h => hup (dropLast_subset _ h)

/-- a relative path does not start with an empty component -/
theorem directory_head (hrel : base.head? ≠ some slash) (name : Path) : (directory base name).head? ≠ some [] := by
  unfold directory
  split
  · exact nofun
  · have hjoin := join_splitOn slash base
    match hsplit : base.splitOn slash with
    | [] | [_] => exact nofun
    | c :: d :: cs =>
      intro hc
      have hc : c = [] := some.inj hc
      rw [hsplit, hc] at hjoin
      exact hrel (by rw [← hjoin]; rfl)

theorem components_started (name : Path) : Started (components name) := by
  have hjoin := join_splitOn slash (name.dropWhile (· = slash))
  match hsplit : (name.dropWhile (· = slash)).splitOn slash with
  | [] => exact absurd hsplit (splitOn_ne_nil _ _)
  | [[]] => exact .inl hsplit
  | (b :: c) :: cs => exact .inr ⟨b :: c, cs, hsplit, cons_ne_nil b c⟩
  | [] :: d :: cs =>
    -- the text would start with a slash
    rw [hsplit, join_cons_cons] at hjoin
    have hhead := head?_dropWhile_not (· = slash) name
    rw [← hjoin] at hhead
    simp at hhead

theorem incLexicallyNormal_join {name : Path} (hrel : base.head? ≠ some slash)
    (hgap : NoGap (directory base name) (components name)) :
    incLexicallyNormal base name = join slash (resolve (directory base name) (components name)) := by
  have hdest : (if name.head? = some slash then [] else cutLast slash base) = join slash (directory base name) := by
    unfold directory
    split
    · rfl
    · rw [← cutLast_join (free_splitOn base), join_splitOn slash]
  rw [incLexicallyNormal, hdest, ← join_splitOn slash (name.dropWhile (· = slash))]
  exact normalLoop_join (directory_free base name) (directory_head hrel name) (free_splitOn _) hgap
    (components_started name)

/-- **Include confinement.** From a file below the root, and for a name whose reading passes no `.` or `..` with a second
slash behind it, the path opened first never leads above the root exactly when a last `..` of the name finds an ordinary
component to leave. -/
theorem include_confined_iff (env : Environment) (name : Path) (hrel : env.currentFile.head? ≠ some slash)
    (hup : up ∉ env.currentFile.splitOn slash) (hgap : NoGap (directory env.currentFile name) (components name)) :
    ∃ path, (incOpen env name).1.head? = some path ∧
      (Confined path ↔ FinalOk (directory env.currentFile name) (components name)) := by
  refine ⟨_, incOpen_first env name, ?_⟩
  have hfree : Free slash (resolve (directory env.currentFile name) (components name)) :=
    resolve_free (directory_free _ name) (free_splitOn _)
  rw [incLexicallyNormal_join hrel hgap, confined_join hfree]
  exact below_resolve_iff (directory_noUp hup name) (splitOn_ne_nil _ _)

/-- a file `a/b.c` that includes others, none of which can be opened -/
def sampleEnv : Environment where
  openFile _ := none
  withinRoot _ := true
  currentFile := [97, 47, 98, 46, 99]
  mudlibDir := [109]
  incList := []
  bufSize := 100

/-- `../x/../.././/y`; the reading stops at the third `..` -/
def besideName : Path := [46, 46, 47, 120, 47, 46, 46, 47, 46, 46, 47, 46, 47, 47, 121]

theorem include_sample : ∃ path, (incOpen sampleEnv besideName).1.head? = some path ∧ Confined path := by
  have hparts : components besideName = [up, [120], up, up, here, [], [121]] := by decide
  have hgap : NoGap (directory sampleEnv.currentFile besideName) (components besideName) := by
    rw [hparts]
    intro pre c e rest hcs _
    -- the one empty component is behind the fifth
    obtain _ | ⟨_, _ | ⟨_, _ | ⟨_, _ | ⟨_, _ | ⟨_, _ | ⟨_, pre⟩⟩⟩⟩⟩⟩ := pre
    · cases hcs
    · cases hcs
    · cases hcs
    · cases hcs
    · cases hcs
      decide
    · cases hcs
    · have hlen := congrArg length hcs
      simp only [length_append, length_cons, length_nil] at hlen
      omega
  obtain ⟨path, hpath, hiff⟩ := include_confined_iff sampleEnv besideName (by decide) (by decide) hgap
  refine ⟨path, hpath, hiff.2 fun hlast => ?_⟩
  rw [hparts] at hlast
  cases hlast

/-- `..//../../x` -/
def gapName : Path := [46, 46, 47, 47, 46, 46, 47, 46, 46, 47, 120]

theorem climbs_over_root : sampleEnv.currentFile.head? ≠ some slash ∧ up ∉ sampleEnv.currentFile.splitOn slash ∧
    ∃ path, (incOpen sampleEnv gapName).1.head? = some path ∧ ¬ Confined path := by
  have hpath : incLexicallyNormal sampleEnv.currentFile gapName = [46, 46, 47, 120] := by
    decide +kernel
  refine ⟨by decide, by decide, _, incOpen_first sampleEnv gapName, fun hconf => ?_⟩
  have hfirst := hconf [up] (by rw [hpath]; decide)
  cases hfirst

end Lithos.Lpc.Include
