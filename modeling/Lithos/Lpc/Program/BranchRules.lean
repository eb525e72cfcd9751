/-
The code generator realises the shapes of code.

`Realises` says that a generator function writes the code of a shape and fails exactly where the shape does not fit;
`RealisesLinks` is the same for the left operand of a chain, whose branches land later. There is one rule for each
shape.
-/
import Lithos.Lpc.Program.BranchRun

namespace Lithos.Lpc.Program.Branch

open Lithos.Core.Bytes List Option Shape Gen

/-! ## One rule for each shape -/

/-- a result with `P` where `b` holds, and none elsewhere -/
def Yields {α : Type} (b : Bool) (P : α → Prop) (x : Option α) : Prop := if b then ∃ a, x = some a ∧ P a else x = none

namespace Yields

variable {α β : Type} {p q : Bool} {P P' : α → Prop} {Q : β → Prop} {x : Option α}

theorem of_true (hp : p = true) {a : α} (hx : x = some a) (ha : P a) : Yields p P x := by
  subst hp
  exact ⟨a, hx, ha⟩

theorem of_false (hp : p = false) (hx : x = none) : Yields p P x := by
  subst hp
  exact hx

theorem runs (h : Yields p P x) (hp : p = true) : ∃ a, x = some a ∧ P a := by
  subst hp
  exact h

theorem stuck (h : Yields p P x) (hp : p = false) : x = none := by
  subst hp
  exact h

theorem bind (hx : Yields p P x) {k : α → Option β} (hk : ∀ a, P a → Yields q Q (k a)) :
    Yields (p && q) Q (x.bind k) := by
  cases p with
  | false => exact of_false rfl (by rw [hx.stuck rfl]; rfl)
  | true =>
    obtain ⟨a, rfl, ha⟩ := hx.runs rfl
    exact hk a ha

theorem map (hx : Yields p P x) {k : α → β} (hk : ∀ a, P a → Q (k a)) : Yields p Q (x.map k) := by
  cases p with
  | false => exact of_false rfl (by rw [hx.stuck rfl]; rfl)
  | true =>
    obtain ⟨a, rfl, ha⟩ := hx.runs rfl
    exact of_true rfl rfl (hk a ha)

/-- a step that does not fail -/
theorem andThen (hx : Yields p P x) {k : α → Option β} (hk : ∀ a, P a → ∃ b, k a = some b ∧ Q b) :
    Yields p Q (x.bind k) := by
  rw [← Bool.and_true p]
  exact hx.bind hk

theorem mono (hx : Yields p P x) (hP : ∀ a, P a → P' a) : Yields p P' x := by
  have := hx.map (k := id) hP
  rwa [Option.map_id] at this

end Yields

variable {g g₁ g₂ g' : Gen} {d : ℕ} {f f' fl fr : Gen → Option Gen} {F : Gen → Option (Gen × List ℕ)}
  {a b l r sh : Shape} {c : Cursor} {T S : Jump → Prop} {xs : List Site} {e em : Bool}

/-- a generator function writes the code of a shape, inside `d` loops over `foreach`; it fails where the shape does not
fit -/
def Realises (d : ℕ) (f : Gen → Option Gen) (sh : Shape) : Prop :=
  ∀ g, g.Ok → g.foreachDepth = d → (sh.lay g.cursor).size ≤ 65535 → Yields (sh.fits g.cursor) (Done sh g) (f g)

/-- the same for a left operand of `&&` or `||`: the places of its links are returned -/
def RealisesLinks (d : ℕ) (f : Gen → Option (Gen × List ℕ)) (sh : Shape) : Prop :=
  ∀ g, g.Ok → g.foreachDepth = d → (sh.lay g.cursor).size ≤ 65535 →
    Yields (sh.fits g.cursor) (fun x => x.2 = places .link (sh.sites g.cursor) ∧ Done sh g x.1) (f g)

namespace Realises

theorem of_done {f : Gen → Gen} (hfits : ∀ c, sh.fits c = true)
    (h : ∀ g, g.Ok → g.foreachDepth = d → Done sh g (f g)) : Realises d (fun g => some (f g)) sh :=
  fun g hg hd _ => .of_true (hfits _) rfl (h g hg hd)

theorem nop : Realises d some .nop := of_done (fun _ => rfl) fun _ hg _ => ⟨.refl hg, rfl, fun _ _ => rfl⟩

theorem op (bs : List UInt8) : Realises d (fun g => some (g.endPushes.insBytes bs)) (.op bs) :=
  of_done (fun _ => rfl) fun _ hg _ => done_op hg bs

theorem yields (h : Realises d f sh) (hg : g.Ok) (hd : g.foreachDepth = d) (hc : g.cursor = c)
    (hsize : (sh.lay c).size ≤ 65535) : Yields (sh.fits c) (Part T (sh.sites c) sh.emits (sh.lay c) g) (f g) := by
  subst hc
  exact (h g hg hd hsize).mono fun _ hdone => ⟨hdone.toRan, hdone.cursor, fun k _ => hdone.lists k trivial⟩

/-- a shape behind other code -/
theorem after (h : Realises d f sh) (hp : Part T xs em c g g₁) (hd : g.foreachDepth = d)
    (hsize : (sh.lay c).size ≤ 65535) :
    Yields (sh.fits c) (Part T (xs ++ sh.sites c) (em || sh.emits) (sh.lay c) g) (f g₁) :=
  (h.yields hp.ok (hp.depth.trans hd) hp.cursor hsize).mono fun _ => hp.trans

/-- a body under a pending branch -/
theorem body (op : BranchOp) (hf : Realises d f sh) (hd : g.foreachDepth = d) (hc : g.cursor = c)
    (hsize : (sh.lay (c.emit 3)).size ≤ 65535) :
    Yields (sh.fits (c.emit 3)) (Part ⊤ (sh.sites (c.emit 3)) sh.emits (sh.lay (c.emit 3)) (g.forwardBranch op))
      (f (g.forwardBranch op)) :=
  hf.yields (ok_forwardBranch op) ((foreachDepth_forwardBranch op).trans hd) (by rw [cursor_forwardBranch, hc]) hsize

theorem seq (ha : Realises d f a) (hb : Realises d f' b) : Realises d (fun g => do let g ← f g; f' g) (.seq a b) :=
  fun g hg hd hsize => (ha g hg hd ((b.le_lay (a.ok_lay hg.cursor)).trans hsize)).bind fun _ hdone =>
    hb.after hdone hd hsize

end Realises

variable {op : BranchOp}

namespace Part

/-- the branch left open lands behind the code or some bytes further, if it is found -/
theorem lands (h : Part T xs e c (g.forwardBranch op) g₂) (hg : g.Ok) (hop : op.backward = false) (n : ℕ)
    (hsize : c.size + n ≤ 65535) :
    Yields (near (g.size + 1) e) (Part T (⟨g.size, op, .addr (c.size + n)⟩ :: xs) true c.cut g)
      (g₂.endPushes.landForward ((c.size + n : ℕ) : ℤ)) := by
  obtain rfl := h.cursor
  have hlow : g.size + 3 ≤ g₂.cursor.size := (size_forwardBranch op).ge.trans h.size_le
  cases hnear : near (g.size + 1) e with
  | false => exact .of_false rfl (landForward_of_neg (forward_endPushes.trans_lt (h.forward_neg hnear (by omega))) _)
  | true => exact h.endPushes.land hg hop hnear _ (by omega) (by omega)

theorem closes (h : Part T xs e c (g.forwardBranch op) g₂) (hg : g.Ok) (hop : op.backward = false)
    (hsize : c.size ≤ 65535) :
    Yields (near (g.size + 1) e) (Part T (⟨g.size, op, .addr c.size⟩ :: xs) true c.cut g) g₂.updateForwardBranch := by
  obtain rfl := h.cursor
  rw [updateForwardBranch_eq (h.pending hsize)]
  exact h.lands hg hop 0 hsize

/-- the same for a branch to the second part of an alternative, with the branch over that part written -/
theorem closesElse (h : Part T xs e c (g.forwardBranch op) g₂) (hg : g.Ok) (hop : op.backward = false)
    (hsize : c.size + 3 ≤ 65535) :
    Yields (near (g.size + 1) e)
      (fun g₄ => ∃ g₃ : Gen, g₄ = g₃.forwardBranch .branch ∧
        Part T (⟨g.size, op, .addr (c.size + 3)⟩ :: xs) true c.cut g g₃) g₂.generateElse := by
  obtain rfl := h.cursor
  rw [generateElse_eq h.ok (h.pending (Nat.le_of_add_right_le hsize))]
  exact (h.lands hg hop 3 hsize).map fun g₃ hend => ⟨g₃, rfl, hend⟩

/-- a list of jumps lands at the end of the code -/
theorem updateBranchList {k : Jump} (h : Part T xs em c g g') (hg : g.Ok) (hsize : c.size ≤ 65535)
    (hT : ∀ j, S j → T j ∧ j ≠ k) :
    ∃ g'', g'.updateBranchList (places (.jump k) xs) = some g'' ∧
      Part S (xs.map (Site.land (.jump k) c.size)) em c.cut g g'' := by
  obtain ⟨g'', hupd, hpart⟩ := h.endPushes.updatePlaces hg rfl (Nat.lt_succ_of_le hsize)
    (show Marked none (.jump k) xs from nofun) fun j hj => (hT j hj).imp_right fun hne heq => hne (Exit.jump.inj heq)
  exact ⟨g'', (updateList_eq _ _).trans hupd, hpart⟩

end Part

namespace Realises

theorem skip (hop : op.backward = false) (hf : Realises d f sh) :
    Realises d (fun g => do let g ← f (g.forwardBranch op); g.updateForwardBranch) (.skip op sh) :=
  fun _ hg hd hsize => (hf.body op hd rfl hsize).bind fun _ hpart => hpart.closes hg hop hsize

theorem alt (hop : op.backward = false) (hl : Realises d fl l) (hr : Realises d fr r) : Realises d (fun g => do
      let g ← fl (g.forwardBranch op)
      let g ← g.generateElse
      let g ← fr g
      g.updateForwardBranch) (.alt op l r) := by
  intro g hg hd hsize
  have hsizer : (r.lay ((l.lay (g.cursor.emit 3)).emit 3)).size ≤ 65535 := hsize
  have hler := r.le_lay (Cursor.Ok.emit (c := l.lay (g.cursor.emit 3)) (n := 3))
  rw [Cursor.size_emit] at hler
  rw [fits, Bool.and_assoc]
  refine (hl.body op hd rfl (by omega)).bind fun g₂ hpart => ?_
  refine (hpart.closesElse hg hop (by omega)).bind fun g₄ ⟨g₃, hg₄, hend⟩ => ?_
  subst hg₄
  exact (skip rfl hr).after hend hd hsizer

end Realises

/-- an instruction and its offset are written behind the pushes -/
theorem part_site (hg : g.Ok) {s : Site} {head : List UInt8} {n : ℤ} (hpc : s.pc = g.size)
    (hlen : head.length = s.op.arity + 1) (hright : s.Right ((g.endPushes.insBytes head).insShort n).code)
    (hT : ∀ k, T k → s.dest ≠ .exit (.jump k)) :
    Part T [s] false (g.cursor.emit (s.op.arity + 3)) g ((g.endPushes.insBytes head).insShort n) := by
  rw [insShort_insBytes] at hright ⊢
  have hdone := done_op hg (head ++ bytesOf 2 n)
  have hcursor : g.cursor.emit (head ++ bytesOf 2 n).length = g.cursor.emit (s.op.arity + 3) := by
    rw [length_append, hlen, length_bytesOf]
  have hsettled : _ = g.size + (s.op.arity + 3) := congrArg Cursor.settled (hdone.cursor.trans hcursor)
  refine ⟨⟨hdone.ok, hdone.settled_le, hdone.size_le, hdone.forward, hdone.depth, hdone.frame,
    .singleton hpc.ge (hsettled.ge.trans' ?_), fun t ht => mem_singleton.1 ht ▸ hright⟩, hdone.cursor.trans hcursor, ?_⟩
  · unfold Site.next Site.place
    omega
  · intro k hk
    rw [hdone.lists k trivial, places_cons, if_neg (hT k hk)]
    rfl

/-- a branch whose target is not known yet -/
theorem part_exit (hg : g.Ok) {e : Exit} (hop : op.backward = false) {b : UInt8} (hb : e ≠ .link → b = op.code)
    (hT : ∀ k, T k → e ≠ .jump k) :
    Part T [⟨g.size, op, .exit e⟩] false (g.cursor.emit 3) g ((g.endPushes.insByte b).insShort 0) := by
  have harity := BranchOp.arity_of_forward hop
  have hsite : Site.Right ((g.endPushes.insByte b).insShort 0).code ⟨g.size, op, .exit e⟩ := by
    match e, hb with
    | .link, _ => exact hop
    | .jump k, hb => exact ⟨hop, hb nofun ▸ op_insShort⟩
  have := part_site hg rfl (by rw [harity]; rfl) hsite fun k hk heq => hT k hk (Dest.exit.inj heq)
  rwa [harity] at this

namespace RealisesLinks

theorem of_plain (hf : Realises d f sh) (hlinks : sh.leaves .link = false) :
    RealisesLinks d (fun g => (f g).map (·, [])) sh :=
  fun g hg hd hsize => (hf g hg hd hsize).map fun _ hdone => ⟨(sh.places_eq_nil hlinks _).symm, hdone⟩

theorem link (hop : op.backward = false) (ha : RealisesLinks d F a) (hb : Realises d f b)
    (hlinks : b.leaves .link = false) :
    RealisesLinks d (fun g => do
      let (g, links) ← F g
      let g := g.endPushes.insByte 0
      let place := g.size
      let g ← f (g.insShort 0)
      some (g, place :: links)) (.seq (.seq a (.exit .link op)) b) := by
  intro g hg hd hsize
  have hsizeb : (b.lay ((a.lay g.cursor).emit 3)).size ≤ 65535 := hsize
  have hleb := b.le_lay (Cursor.Ok.emit (c := a.lay g.cursor) (n := 3))
  rw [Cursor.size_emit] at hleb
  rw [fits, fits, fits, Bool.and_true]
  refine (ha g hg hd (by omega)).bind ?_
  rintro ⟨g₁, links⟩ ⟨rfl, hdone⟩
  have hexit := part_exit (T := ⊤) hdone.ok hop (b := 0) (fun h => absurd rfl h) fun _ _ => nofun
  rw [hdone.cursor, show g₁.size = _ from congrArg Cursor.size hdone.cursor] at hexit
  have hplace : (g₁.endPushes.insByte 0).size = (a.lay g.cursor).size + 1 := by
    rw [insByte, size_insBytes, size_endPushes, show g₁.size = _ from congrArg Cursor.size hdone.cursor]
    rfl
  refine (hb.after (hdone.trans hexit) hd hsizeb).andThen fun g₃ hpart => ⟨_, rfl, ?_, hpart⟩
  simp [sites, b.places_eq_nil hlinks, places_cons, hplace]

end RealisesLinks

theorem places_eq_nil_iff {e : Exit} : places e xs = [] ↔ ∀ s ∈ xs, s.dest ≠ .exit e := by
  simp [places, filter_eq_nil_iff]

theorem landLinks_eq (h : g.Pending) (links : List ℕ) :
    (if links.isEmpty then g.updateForwardBranch else g.updateForwardBranchLinks op links) =
      (g.endPushes.landForward g.size).bind (updateLinks op links) := by
  split_ifs with hempty
  · rw [isEmpty_iff.1 hempty, updateForwardBranch_eq h]
    exact (bind_fun_some _).symm
  · exact updateForwardBranchLinks_eq op links

theorem Realises.join (hop : op.backward = false) (hl : RealisesLinks d F l) (hr : Realises d f r)
    (hmarked : ∀ c, Marked (some op) .link (l.sites c)) (hlinks : r.leaves .link = false) :
    Realises d (fun g => do
      let (g, links) ← F g
      let g ← f (g.forwardBranch op)
      if links.isEmpty then g.updateForwardBranch else g.updateForwardBranchLinks op links) (.join op l r) := by
  intro g hg hd hsize
  have hsizer : (r.lay ((l.lay g.cursor).emit 3)).size ≤ 65535 := hsize
  have hler := r.le_lay (Cursor.Ok.emit (c := l.lay g.cursor) (n := 3))
  rw [Cursor.size_emit] at hler
  refine (hl g hg hd (by omega)).bind ?_
  rintro ⟨g₁, links⟩ ⟨rfl, (hdone : Done l g g₁)⟩
  refine (hr.body op (hdone.depth.trans hd) hdone.cursor hsizer).bind fun g₂ hpart => ?_
  have hsize₁ : g₁.size = (l.lay g.cursor).size := congrArg Cursor.size hdone.cursor
  have hsize₂ : g₂.size = _ := congrArg Cursor.size hpart.cursor
  rw [landLinks_eq (hpart.pending (by omega)), ← hsize₁, hsize₂]
  refine (hpart.lands hdone.ok hop 0 hsizer).andThen fun g₃ hend => ?_
  -- all of it, with the links still open
  have hall := hdone.trans hend
  rw [Bool.or_true, hsize₁] at hall
  have hrlinks := places_eq_nil_iff.1 (r.places_eq_nil hlinks ((l.lay g.cursor).emit 3))
  obtain ⟨g₄, hupd, hpart₄⟩ := hall.updatePlaces (S := ⊤) (e := .link) (b := some op) hg rfl
    (Nat.lt_succ_of_le hsizer) (by
      intro s hs hdest
      rcases mem_append.1 hs with hs | hs
      · exact hmarked g.cursor s hs hdest
      · rcases mem_cons.1 hs with rfl | hs
        · cases hdest
        · exact absurd hdest (hrlinks s hs)) fun _ _ => ⟨trivial, nofun⟩
  refine ⟨g₄, ?_, hpart₄⟩
  rw [updateLinks_eq, ← hupd]
  simp [places_cons, r.places_eq_nil hlinks]

/-! ## Loops -/

/-- the branch that closes a loop -/
def Gen.closeLoop (back : Option BackBranch) (pos : ℕ) (g : Gen) : Gen :=
  match back with
  | none => g.endPushes
  | some b =>
    let g := g.endPushes.insBytes b.head
    g.insShort ((g.size : ℤ) - pos)

theorem BackBranch.length_head (b : BackBranch) : b.head.length = b.op.arity + 1 := by
  rw [head, length_cons, b.length_args]

theorem part_closeLoop (h : Part T xs em c g g') (back : Option BackBranch) (start : Cursor)
    (hstart : start.size ≤ c.size) (hsize : (c.loopStop back).size ≤ 65535) :
    Part T (xs ++ backSites back start c) em (c.loopStop back) g (g'.closeLoop back start.size) := by
  obtain rfl := h.cursor
  match back, hsize with
  | none, _ =>
    have := h.endPushes
    rwa [← append_nil xs] at this
  | some b, hsize =>
    have hend : g'.size + (b.op.arity + 3) ≤ 65535 := hsize
    have hplace : (g'.endPushes.insBytes b.head).size = g'.size + 1 + b.op.arity := by
      rw [size_insBytes, size_endPushes, b.length_head]
      omega
    have hback : Part T [⟨g'.size, b.op, .addr start.size⟩] false (g'.cursor.loopStop (some b)) g'
        (g'.closeLoop (some b) start.size) := by
      refine part_site h.ok rfl b.length_head (Site.right_of_offset _ op_insShort (fetch_insShort hplace) ?_) fun _ _ => nofun
      have hlow : start.size ≤ g'.size := hstart
      rw [if_pos b.backward]
      omega
    have := h.trans hback
    rwa [Bool.or_false] at this

/-- the block and the increment of a loop, with the branch that enters it -/
def loopFront (enter : Bool) (block inc : Gen → Option Gen) (g : Gen) : Option Gen := do
  let g' := if enter then g.forwardBranch .branch else g
  let g' ← block g'
  let g' ← g'.updateBranchList g'.continues
  let g' ← inc g'
  if enter then g'.updateForwardBranch else some g'

/-- the state in which the block of a loop starts -/
def Gen.enterLoop (kind : LoopKind) (g : Gen) : Gen :=
  { g with breaks := [], continues := [], foreachDepth := kind.depth g.foreachDepth }.endPushes

theorem generateLoop_eq (kind : LoopKind) (forever : Bool) (block inc : Gen → Option Gen)
    (test : ℕ → Gen → Option Gen) (g : Gen) :
    generateLoop kind forever block inc test g =
      (loopFront (!forever && kind ≠ .doWhile) block inc (g.enterLoop kind)).bind fun g' =>
        (test ((g.enterLoop kind).cursor.loopStart (!forever && kind ≠ .doWhile)).size g').bind fun g' =>
          (g'.updateBranchList g'.breaks).map fun g' =>
            { g' with breaks := g.breaks, continues := g.continues, foreachDepth := g.foreachDepth } := by
  have hpos : ∀ (enter : Bool) (G : Gen),
      (if enter then G.forwardBranch .branch else G).size = (G.cursor.loopStart enter).size := by
    intro enter G
    cases enter
    · rfl
    · exact size_forwardBranch _
  simp only [generateLoop, loopFront, ← hpos, bind_eq_bind, bind_assoc, map_eq_bind]
  generalize (!forever && decide (kind ≠ LoopKind.doWhile)) = enter
  cases enter <;> rfl

variable {fb fi ft : Gen → Option Gen} {block inc test : Shape} {kind : LoopKind}

/-- the sites of a loop's block and increment -/
def bodySites (block inc : Shape) (start : Cursor) : List Site :=
  (block.sites start).map (Site.land (.jump .continue) (block.lay start).size) ++ inc.sites (block.lay start).cut

/-- the block, the place where its `continue`s land, and the increment -/
def blockInc (fb fi : Gen → Option Gen) (g : Gen) : Option Gen := do
  let g ← fb g
  let g ← g.updateBranchList g.continues
  fi g

theorem blockInc_yields (hblock : Realises d fb block) (hinc : Realises d fi inc) (hg : g.Ok)
    (hd : g.foreachDepth = d) (hcont : g.continues = []) (hc : g.cursor = c)
    (hsize : (inc.lay (block.lay c).cut).size ≤ 65535) :
    Yields (block.fits c && inc.fits (block.lay c).cut)
      (Part (· = .break) (bodySites block inc c) (block.emits || inc.emits) (inc.lay (block.lay c).cut) g)
      (blockInc fb fi g) := by
  have hle := inc.le_lay (Cursor.Ok.cut (c := block.lay c))
  rw [Cursor.size_cut] at hle
  refine (hblock.yields (T := ⊤) hg hd hc (by omega)).bind fun g₂ hpart => ?_
  obtain ⟨g₃, hrun, hpart₃⟩ := hpart.updateBranchList (S := (· = .break)) (k := .continue) hg (by omega)
    fun _ hj => ⟨trivial, by rw [hj]; nofun⟩
  have hlist : g₂.continues = places (.jump .continue) (block.sites c) ++ g.continues := hpart.lists .continue trivial
  rw [hcont, append_nil] at hlist
  rw [← hlist] at hrun
  simp only [hrun, bind_eq_bind, bind_some]
  exact hinc.after hpart₃ hd hsize

theorem loopFront_eq (enter : Bool) (g : Gen) : loopFront enter fb fi g =
      (blockInc fb fi (if enter then g.forwardBranch .branch else g)).bind fun g' =>
        if enter then g'.updateForwardBranch else some g' := by
  simp only [loopFront, blockInc, bind_eq_bind, bind_assoc]

/-- where the test of a loop starts -/
def checkCursor (enter : Bool) (block inc : Shape) (c : Cursor) : Cursor :=
  (inc.lay (block.lay (c.loopStart enter)).cut).cutIf enter

/-- the sites up to the test of a loop -/
def frontSites (enter : Bool) (block inc : Shape) (c : Cursor) : List Site :=
  enterSites enter c (checkCursor enter block inc c) ++ bodySites block inc (c.loopStart enter)

theorem cursor_enterLoop : (g.enterLoop kind).cursor = g.cursor.cut := cursor_endPushes

theorem ok_enterLoop : (g.enterLoop kind).Ok := ok_of_closed pushState_endPushes

theorem loopFront_yields (enter : Bool) (hblock : Realises d fb block) (hinc : Realises d fi inc)
    (hd : (g.enterLoop kind).foreachDepth = d)
    (hsize : (inc.lay (block.lay (g.cursor.loopStart enter)).cut).size ≤ 65535) :
    Yields (block.fits (g.cursor.loopStart enter) && inc.fits (block.lay (g.cursor.loopStart enter)).cut &&
        near (g.size + 1) (enter && (block.emits || inc.emits)))
      (Part (· = .break) (frontSites enter block inc g.cursor) (enter || (block.emits || inc.emits))
        (checkCursor enter block inc g.cursor) (g.enterLoop kind))
      (loopFront enter fb fi (g.enterLoop kind)) := by
  have hcont : (g.enterLoop kind).continues = [] := congrFun branchList_endPushes .continue
  rw [loopFront_eq]
  cases enter with
  | false =>
    exact (blockInc_yields hblock hinc ok_enterLoop hd hcont cursor_enterLoop hsize).bind fun g' h => .of_true rfl rfl h
  | true =>
    have hstart : ((g.enterLoop kind).forwardBranch .branch).cursor = g.cursor.loopStart true := by
      rw [cursor_forwardBranch, cursor_enterLoop]
      rfl
    have hGsize : (g.enterLoop kind).size = g.size := size_endPushes
    rw [← hGsize, frontSites, enterSites, if_pos rfl, ← show _ = g.cursor.size from hGsize]
    exact (blockInc_yields hblock hinc (ok_forwardBranch _) ((foreachDepth_forwardBranch _).trans hd)
      ((congrFun (branchList_forwardBranch _) .continue).trans hcont) hstart hsize).bind fun g₄ hpart =>
        hpart.closes ok_enterLoop rfl hsize

/-- a run does not depend on the lists and the depth around it -/
theorem Ran.relist {breaks continues : List ℕ} {depth : ℕ}
    (h : Ran xs em { g with breaks := breaks, continues := continues, foreachDepth := depth } g') :
    Ran xs em g { g' with breaks := g.breaks, continues := g.continues, foreachDepth := g.foreachDepth } :=
  ⟨⟨h.ok.start_lt, h.ok.size_le, h.ok.packs⟩, h.settled_le, h.size_le, h.forward, rfl, h.frame, h.ordered, h.right⟩

/-- the parts of a loop lie one behind the other -/
theorem le_loop (enter : Bool) (block inc test : Shape) (back : Option BackBranch) (c : Cursor) :
    (c.loopStart enter).size ≤ (inc.lay (block.lay (c.loopStart enter)).cut).size ∧
      (inc.lay (block.lay (c.loopStart enter)).cut).size ≤ (test.lay (checkCursor enter block inc c)).size ∧
      (test.lay (checkCursor enter block inc c)).size ≤ ((loop enter block inc test back).lay c).size := by
  have hb := block.le_lay (ok_loopStart (c := c) enter)
  have hi := inc.le_lay (Cursor.Ok.cut (c := block.lay (c.loopStart enter)))
  have ht := test.le_lay ((inc.ok_lay (Cursor.Ok.cut (c := block.lay (c.loopStart enter)))).cutIf enter)
  rw [Cursor.size_cutIf] at ht
  exact ⟨hb.trans hi, ht, le_loopStop back⟩

theorem Realises.loop (kind : LoopKind) (forever : Bool) (back : Option BackBranch)
    (hblock : Realises (kind.depth d) fb block) (hinc : Realises (kind.depth d) fi inc)
    (htest : Realises (kind.depth d) ft test) (hcinc : inc.leaves (.jump .continue) = false)
    (hctest : test.leaves (.jump .continue) = false) :
    Realises d (generateLoop kind forever fb fi fun pos g => (ft g).map (closeLoop back pos))
      (.loop (!forever && kind ≠ .doWhile) block inc test back) := by
  intro g hg hd hsize
  have hstart : ∀ enter, (g.enterLoop kind).cursor.loopStart enter = g.cursor.loopStart enter := fun enter => by
    rw [cursor_enterLoop]
    cases enter <;> rfl
  have hd' : (g.enterLoop kind).foreachDepth = kind.depth d := foreachDepth_endPushes.trans (congrArg kind.depth hd)
  rw [generateLoop_eq, hstart]
  generalize (!forever && decide (kind ≠ LoopKind.doWhile)) = enter at hsize ⊢
  obtain ⟨hlow, hmid, hhigh⟩ := le_loop enter block inc test back g.cursor
  rw [Shape.fits, ← Bool.and_assoc, ← Bool.and_assoc]
  refine (loopFront_yields enter hblock hinc hd' (by omega)).bind fun g₅ hpart => ?_
  have htested := (htest.after hpart hd' (by omega)).map fun g₆ hpart₆ =>
    part_closeLoop hpart₆ back (g.cursor.loopStart enter) (by omega) hsize
  refine htested.andThen fun g₇ hpart₇ => ?_
  rw [append_assoc] at hpart₇
  obtain ⟨g₈, hrun, hpart₈⟩ := hpart₇.updateBranchList (S := ⊥) (k := .break) ok_enterLoop hsize nofun
  have hlist : g₇.breaks = _ ++ (g.enterLoop kind).breaks := hpart₇.lists .break rfl
  rw [show (g.enterLoop kind).breaks = [] from congrFun branchList_endPushes .break, append_nil] at hlist
  rw [← hlist] at hrun
  have hbefore : ({ g with breaks := [], continues := [], foreachDepth := kind.depth g.foreachDepth } : Gen).Ok :=
    ⟨hg.start_lt, hg.size_le, hg.packs⟩
  refine ⟨_, by rw [hrun]; rfl, ((Ran.endPushes hbefore).trans hpart₈.toRan).relist, ?_, fun k _ => ?_⟩
  · refine hpart₈.cursor.trans ?_
    cases back <;> rfl
  · cases k with
    | «break» =>
      rw [sites, places_map_land_self]
      rfl
    | «continue» =>
      rw [places_eq_nil _ (by simp [leaves, hcinc, hctest])]
      rfl

end Lithos.Lpc.Program.Branch
