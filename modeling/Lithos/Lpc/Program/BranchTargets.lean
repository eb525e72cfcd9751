/-
Branches land where their constructs say.

The generator functions of a parse tree realise its shape in each of its roles (`generates`): as a node, as the left
operand of a chain, as the test of an `if`, as the test of a loop.

Results:
- `branches_land_iff`: in a program of at most 65535 bytes the generator finishes with every branch leading to the
  address its construct designates if and only if each branch with another one pending inside has its offset below
  32768; loop tests that look like another opcode are excluded.
- `nested_if_far`: two nested `if`s behind 32768 bytes of code, where the outer one is never patched.
-/
import Lithos.Lpc.Program.BranchRules

namespace Lithos.Lpc.Program.Branch

open Option Bool Shape Node

/-! ## Exits -/

theorem pushShape_leaves (e : Exit) (kind : PushKind) (value : ℕ) (bs : List UInt8) :
    (pushShape kind value bs).leaves e = false := by
  unfold pushShape
  split_ifs <;> rfl

theorem numberShape_leaves (e : Exit) (n : ℤ) : (numberShape n).leaves e = false := by
  unfold numberShape
  split_ifs
  · exact pushShape_leaves e _ _ _
  all_goals rfl

/-- what leaves the code of a tree are jumps that leave the tree -/
def StaysIn (e : Exit) (t : Node) (sh : Shape) : Prop := sh.leaves e = true → e ≠ .link ∧ t.jumps = true

/-- links are closed by their chain, jumps by the loop around them -/
theorem staysIn_shapes (e : Exit) :
    (∀ d t, StaysIn e t (shape d t)) ∧ (∀ d t, StaysIn e t (loopShape d t).1) ∧ (∀ d t, StaysIn e t (testShape d t).1) ∧
      (∀ d invert t, StaysIn e t (ifShape d invert t).1) ∧ ∀ d op t, e ≠ .link → StaysIn e t (linkShape d op t) := by
  apply shape.mutual_induct
  all_goals
    unfold StaysIn
    intros
  case case10 d op l r ihl ihr h =>
    simp only [shape, leaves, jumps, Bool.and_eq_true, Bool.or_eq_true, decide_eq_true_eq] at h ⊢
    tauto
  case case12 d kind block inc test ht hb hi h =>
    simp only [shape, leaves, jumps, Bool.and_eq_true, Bool.or_eq_true, decide_eq_true_eq] at h ⊢
    cases e with
    | link => tauto
    | jump kind => cases kind <;> tauto
  case case11 d test l r ht hl hr h =>
    simp only [shape, leaves, jumps, Bool.or_eq_true] at h ⊢
    split_ifs at h <;> simp only [leaves, Bool.or_eq_true] at h <;> tauto
  case case14 d r ih h =>
    simp only [shape, leaves, Bool.false_or] at h
    split_ifs at h
    · cases h
    · exact ih (by simpa [leaves] using h)
  all_goals simp_all [shape, loopShape, testShape, ifShape, linkShape, leaves, jumps, pushShape_leaves, numberShape_leaves]
  all_goals tauto

theorem StaysIn.closed {e : Exit} {t : Node} {sh : Shape} (h : StaysIn e t sh) (ht : e = .link ∨ t.jumps = false) :
    sh.leaves e = false := by
  by_contra hleaves
  obtain ⟨he, hjumps⟩ := h (eq_true_of_ne_false hleaves)
  exact he (ht.resolve_right (ne_false_of_eq_true hjumps))

theorem shape_links (d : ℕ) (t : Node) : (shape d t).leaves .link = false :=
  ((staysIn_shapes .link).1 d t).closed (.inl rfl)

/-- the links of a chain have its operator -/
theorem marked_linkShape (d : ℕ) (op : Logical) (t : Node) (c : Cursor) :
    Marked (some op.op) .link ((linkShape d op t).sites c) := by
  have hclosed : ∀ t' : Node, ∀ c, Marked (some op.op) .link ((shape d t').sites c) := fun t' c s hs hdest =>
    absurd hdest (places_eq_nil_iff.1 ((shape d t').places_eq_nil (shape_links d t') c) s hs)
  induction t generalizing c with
  | landLor op' l r ihl ihr =>
    rw [linkShape]
    split_ifs
    · intro s hs hdest
      simp only [sites, List.mem_append, List.mem_singleton] at hs
      rcases hs with (hs | rfl) | hs
      · exact ihl c s hs hdest
      · rfl
      · exact hclosed r _ s hs hdest
    · exact hclosed _ c
  | _ =>
    simp only [linkShape]
    exact hclosed _ c

/-! ## From the tree to its shape -/

/-- what `i_generate_loop` does behind a block and its increment -/
def loopTail (t : Node) (pos : ℕ) (g : Gen) : Option Gen :=
  if t.looksLikeLoopTest then do
    let g ← generateNode t g
    some (g.insShort ((g.size : ℤ) - pos))
  else do
    let (branch, g) ← generateConditionalBranch t g
    some (g.branchBackwards branch pos)

/-- a test closes its loop as a shape and a branch back say -/
def Closes (d : ℕ) (F : Gen → Option (Option BranchOp × Gen)) (sh : Shape × Option BackBranch) : Prop :=
  ∃ f, Realises d f sh.1 ∧ ∀ pos g,
    ((F g).bind fun x => some (x.2.branchBackwards x.1 pos)) = (f g).map (Gen.closeLoop sh.2 pos)

/-- the same for what comes behind a block and its increment -/
def Tails (d : ℕ) (t : Node) (sh : Shape × Option BackBranch) : Prop :=
  ∃ f, Realises d f sh.1 ∧ ∀ pos g, loopTail t pos g = (f g).map (Gen.closeLoop sh.2 pos)

/-- a test branches over what follows as a shape and a branch say -/
def Branches (d : ℕ) (F : Gen → Option Gen) (sh : Shape × BranchOp) : Prop :=
  sh.2.backward = false ∧ ∃ f, Realises d f sh.1 ∧ F = fun g => (f g).map (Gen.forwardBranch sh.2)

variable {op : BranchOp} {d : ℕ} {f : Gen → Option Gen} {sh : Shape} {t : Node}

theorem compareBranch_forward {op : UInt8} {invert : Bool} {b : BranchOp} (h : compareBranch op invert = some b) :
    b.backward = false := by
  revert h
  unfold compareBranch
  cases invert <;> split_ifs <;> intro h <;> first | cases h; rfl | cases h

/-- a branch back that is one opcode -/
theorem closeLoop_ofOp (harity : op.arity = 0) (hback : op.backward = true) (pos : ℕ) (g : Gen) :
    g.branchBackwards (some op) pos = g.closeLoop (some (.ofOp op harity hback)) pos := by
  have hne : op ≠ .whileDec := by rintro rfl; cases harity
  simp only [Gen.branchBackwards, if_neg hne]
  rfl

/-- a loop's test by value -/
theorem closes_value (harity : op.arity = 0) (hback : op.backward = true) (hf : Realises d f sh) :
    Closes d (fun g => (f g).map (some op, ·)) (sh, some (.ofOp op harity hback)) := by
  refine ⟨f, hf, fun pos g => ?_⟩
  dsimp only
  cases f g with
  | none => rfl
  | some g' => exact congrArg some (closeLoop_ofOp harity hback pos g')

/-- a loop whose test does not look like a branch -/
theorem tails_of_test (hloop : t.isLoopTest = false) (hlook : (t.isLoopTest || !t.looksLikeLoopTest) = true)
    {sh : Shape × Option BackBranch} (h : Closes d (generateConditionalBranch t) sh) : Tails d t sh := by
  rw [hloop, Bool.false_or, Bool.not_eq_true'] at hlook
  obtain ⟨f, hf, hrun⟩ := h
  refine ⟨f, hf, fun pos g => ?_⟩
  rw [← hrun, loopTail, hlook]
  rfl

/-- a loop whose test is the branch -/
theorem tails_of_branch {b : BackBranch} (hlook : t.looksLikeLoopTest = true)
    (hgen : generateNode t = fun g => some (g.endPushes.insBytes b.head)) : Tails d t (.nop, some b) := by
  refine ⟨some, .nop, fun pos g => ?_⟩
  rw [loopTail, hlook, hgen]
  rfl

/-- a test by value -/
theorem branches_value (hf : Realises d f sh) (invert : Bool) :
    Branches d (fun g => do let g ← f g; some (g.forwardBranch (valueBranch invert))) (sh, valueBranch invert) := by
  refine ⟨?_, f, hf, funext fun _ => (map_eq_bind ..).symm⟩
  cases invert <;> rfl

theorem realises_push (kind : PushKind) (value : ℕ) (bs : List UInt8) :
    Realises d (fun g => some (g.pushOr kind value bs)) (pushShape kind value bs) := by
  refine .of_done (fun c => ?_) fun g hg _ => done_pushOr hg kind value bs
  unfold pushShape
  split_ifs <;> rfl

theorem realises_number (n : ℤ) : Realises d (fun g => some (g.writeLongNumber n)) (numberShape n) := by
  refine .of_done (fun c => ?_) fun g hg _ => done_number hg n
  unfold numberShape pushShape
  split_ifs <;> rfl

theorem Realises.plain (h : Realises d (generateNode t) (shape d t)) :
    RealisesLinks d (fun g => (generateNode t g).map (·, [])) (shape d t) := .of_plain h (shape_links d t)

theorem closes_number (n : ℤ) : Closes d (generateTest (.number n)) (testShape d (.number n)) := by
  simp only [generateTest, testShape]
  refine ⟨some, .nop, fun pos g => ?_⟩
  split_ifs
  · rfl
  · exact congrArg some (closeLoop_ofOp rfl rfl pos g)

theorem closes_whileDec (x : UInt8) : Closes d (generateTest (.whileDec x)) (testShape d (.whileDec x)) := by
  simp only [generateTest, testShape, generateNode]
  refine ⟨some, .nop, fun pos g => ?_⟩
  have hclosed : (g.endPushes.insBytes [BranchOp.whileDec.code, x]).pushState = 0 := Gen.pushState_endPushes
  refine congrArg some ?_
  simp only [Gen.branchBackwards, Gen.endPushes_of_closed hclosed, if_true]
  rfl

theorem realises_controlJump (kind : Jump) :
    Realises d (generateNode (.controlJump kind)) (shape d (.controlJump kind)) := by
  have hdone : ∀ (g g' : Gen) (breaks continues : List ℕ), g.Ok → g' = { (g.endPushes.insByte
        BranchOp.branch.code).insShort 0 with breaks := breaks, continues := continues } →
      (∀ k, g'.branchList k = places (.jump k) [⟨g.size, .branch, .exit (.jump kind)⟩] ++ g.endPushes.branchList k) →
      Done (.exit (.jump kind) .branch) g g' := by
    rintro g _ breaks continues hg rfl hlists
    have h := part_exit (T := ⊥) (e := .jump kind) hg (show BranchOp.branch.backward = false from rfl) (fun _ => rfl) nofun
    refine ⟨⟨⟨h.ok.start_lt, h.ok.size_le, h.ok.packs⟩, h.settled_le, h.size_le, h.forward, h.depth, h.frame, h.ordered,
      h.right⟩, h.cursor, fun k _ => (hlists k).trans ?_⟩
    rw [Gen.branchList_endPushes]
    rfl
  have hplace : ∀ g : Gen, (g.endPushes.insByte BranchOp.branch.code).size = g.size + 1 := fun g => by
    rw [Gen.insByte, Gen.size_insBytes, Gen.size_endPushes]
    rfl
  simp only [generateNode, shape, hplace]
  cases kind with
  | «break» | «continue» => exact .of_done (fun _ => rfl) fun g hg _ => hdone g _ _ _ hg rfl fun k => by cases k <;> rfl

theorem realises_return {r : Node} (hr : Realises d (generateNode r) (shape d r)) :
    Realises d (generateNode (.return r)) (shape d (.return r)) := by
  have hexit : Realises d (fun g => some (g.endPushes.insBytes (List.replicate g.foreachDepth opExitForeach)))
      (.op (List.replicate d opExitForeach)) :=
    .of_done (fun _ => rfl) fun g hg hd => hd ▸ done_op hg _
  simp only [generateNode, shape]
  split_ifs
  · have := hexit.seq (.op [opReturnZero])
    have hclosed : ∀ g : Gen, (g.endPushes.insBytes (List.replicate g.foreachDepth opExitForeach)).endPushes =
        g.endPushes.insBytes (List.replicate g.foreachDepth opExitForeach) :=
      fun g => Gen.endPushes_of_closed Gen.pushState_endPushes
    simpa only [bind_eq_bind, bind_some, hclosed, Gen.insByte] using this
  · exact hexit.seq (hr.seq (.op [opReturn]))

theorem realises_loop (kind : LoopKind) {block inc test : Node}
    (hb : Realises (kind.depth d) (generateNode block) (shape (kind.depth d) block))
    (hi : Realises (kind.depth d) (generateNode inc) (shape (kind.depth d) inc))
    (ht : Tails (kind.depth d) test (loopShape (kind.depth d) test)) (hinc : inc.jumps = false)
    (htest : test.jumps = false) :
    Realises d (generateNode (.loop kind block inc test)) (shape d (.loop kind block inc test)) := by
  obtain ⟨f, hf, htail⟩ := ht
  have hrule := Realises.loop kind test.alwaysTrue (loopShape (kind.depth d) test).2 hb hi hf
    (((staysIn_shapes _).1 _ inc).closed (.inr hinc)) (((staysIn_shapes _).2.1 _ test).closed (.inr htest))
  have htails : (fun pos g => (f g).map (Gen.closeLoop (loopShape (kind.depth d) test).2 pos)) = loopTail test :=
    funext fun pos => funext fun g => (htail pos g).symm
  rw [htails] at hrule
  simp only [generateNode, shape]
  exact hrule

theorem realises_ifElse {test l r : Node} (ht : Branches d (generateIfBranch false test) (ifShape d false test))
    (hl : Realises d (generateNode l) (shape d l)) (hr : Realises d (generateNode r) (shape d r)) :
    Realises d (generateNode (.ifElse test l r)) (shape d (.ifElse test l r)) := by
  obtain ⟨hop, f, hf, hbranch⟩ := ht
  simp only [generateNode, shape, hbranch]
  split_ifs
  · have := hf.seq (.skip hop hl)
    simpa only [bind_eq_bind, bind_map, Function.comp_def] using this
  · have := hf.seq (.alt hop hl hr)
    simpa only [bind_eq_bind, bind_map, Function.comp_def] using this

theorem Logical.forward (op : Logical) : op.op.backward = false := by cases op <;> rfl

/-- a tree of which the shapes tell -/
def Node.Regular (t : Node) : Prop := t.wellFormed = true ∧ t.testsPlain = true

/-- **Every tree generates its shape.** In each of its roles. -/
theorem generates :
    (∀ d t, t.Regular → Realises d (generateNode t) (shape d t)) ∧
    (∀ d t, t.Regular → (t.isLoopTest || !t.looksLikeLoopTest) = true → Tails d t (loopShape d t)) ∧
    (∀ d t, t.Regular → Closes d (generateTest t) (testShape d t)) ∧
    (∀ d invert t, t.Regular → Branches d (generateIfBranch invert t) (ifShape d invert t)) ∧
    ∀ d op t, t.Regular → RealisesLinks d (generateLinks op t) (linkShape d op t) := by
  apply shape.mutual_induct
  all_goals
    intros
    simp only [Regular, wellFormed, testsPlain, and_eq_true, not_eq_true'] at *
  -- a node by itself
  case case1 => simpa only [generateNode, shape] using .nop
  case case2 n _ => simpa only [generateNode, shape] using realises_number n
  case case3 | case4 | case5 => simpa only [generateNode, shape] using realises_push _ _ _
  case case6 | case15 | case16 | case17 | case18 =>
    simp only [generateNode, shape]
    exact .op _
  case case7 op r ih h =>
    simp only [generateNode, shape]
    exact (ih h).seq (.op [op])
  case case8 op l r ihl ihr h =>
    have := ((ihl ⟨h.1.1, h.2.1⟩).seq (ihr ⟨h.1.2, h.2.2⟩)).seq (.op [op])
    simp only [generateNode, shape]
    simp only [bind_eq_bind, bind_assoc] at this ⊢
    exact this
  case case9 l r ihl ihr h =>
    simp only [generateNode, shape]
    exact (ihl ⟨h.1.1, h.2.1⟩).seq (ihr ⟨h.1.2, h.2.2⟩)
  case case10 d op l r ihl ihr h =>
    simp only [generateNode, shape]
    exact .join op.forward (ihl ⟨h.1.1, h.2.1⟩) (ihr ⟨h.1.2, h.2.2⟩) (marked_linkShape d op l) (shape_links d r)
  case case11 iht ihl ihr h =>
    exact realises_ifElse (iht ⟨h.1.1.1, h.2.1.1⟩) (ihl ⟨h.1.1.2, h.2.1.2⟩) (ihr ⟨h.1.2, h.2.2⟩)
  case case12 kind block inc test d' iht ihb ihi h =>
    obtain ⟨⟨⟨⟨⟨hwb, hwi⟩, hwt⟩, hji⟩, hjt⟩, ⟨⟨hpb, hpi⟩, hpt⟩, hlook⟩ := h
    exact realises_loop kind (ihb ⟨hwb, hpb⟩) (ihi ⟨hwi, hpi⟩) (iht ⟨hwt, hpt⟩ hlook) hji hjt
  case case13 kind _ => exact realises_controlJump kind
  case case14 ih h => exact realises_return (ih h)
  -- the test of a loop
  case case19 | case20 | case21 =>
    simp only [loopShape]
    exact tails_of_branch rfl (by simp only [generateNode]; rfl)
  case case22 hr ih hlook h =>
    refine tails_of_test rfl hlook ?_
    rw [generateConditionalBranch, loopShape, if_pos rfl, if_pos rfl, if_pos hr, if_pos hr]
    exact ih ⟨h.1.1, h.2.1⟩
  case case23 hr hl ih hlook h =>
    refine tails_of_test rfl hlook ?_
    rw [generateConditionalBranch, loopShape, if_pos rfl, if_pos rfl, if_neg hr, if_neg hr, if_pos hl, if_pos hl]
    exact ih ⟨h.1.2, h.2.2⟩
  case case24 hr hl hlook ih h =>
    refine tails_of_test rfl hlook ?_
    rw [generateConditionalBranch, loopShape, if_pos rfl, if_pos rfl, if_neg hr, if_neg hr, if_neg hl, if_neg hl]
    exact ih h
  case case25 hop hlook ih h =>
    refine tails_of_test rfl hlook ?_
    rw [generateConditionalBranch, loopShape, if_neg hop, if_neg hop]
    exact ih h
  case case26 t h₁ h₂ h₃ h₄ ih h hlook =>
    have hloop : t.isLoopTest = false := by
      cases t <;> first | rfl | cases h₁ _ _ rfl | cases h₂ _ _ rfl | cases h₃ rfl
    refine tails_of_test hloop hlook ?_
    rw [generateConditionalBranch, loopShape] <;> first | assumption | exact ih h
  -- the same without a comparison with zero
  case case27 ih h =>
    rw [generateTest, testShape, if_pos rfl, if_pos rfl]
    exact closes_value rfl rfl (ih h)
  case case28 hop ih h =>
    rw [generateTest, testShape, if_neg hop, if_neg hop]
    exact closes_value rfl rfl (ih h)
  case case29 n _ => exact closes_number n
  case case30 ihl ihr h =>
    rw [generateTest, testShape, if_pos rfl, if_pos rfl]
    refine ⟨_, (ihl ⟨h.1.1, h.2.1⟩).seq (ihr ⟨h.1.2, h.2.2⟩), fun pos g => ?_⟩
    simp only [bind_eq_bind, map_eq_bind, Option.bind_assoc, bind_some]
    rfl
  case case31 hop ih h =>
    rw [generateTest, testShape, if_neg hop, if_neg hop]
    exact closes_value rfl rfl (ih h)
  case case32 x _ => exact closes_whileDec x
  case case33 ih h =>
    rw [generateTest, testShape] <;> first | assumption | exact closes_value rfl rfl (ih h)
  -- the test of an `if`
  case case34 ih h =>
    rw [generateIfBranch, ifShape, if_pos rfl, if_pos rfl]
    exact ih h
  case case35 hop ih h =>
    rw [generateIfBranch, ifShape, if_neg hop, if_neg hop]
    exact branches_value (ih h) _
  case case36 hb ihl ihr h =>
    simp only [generateIfBranch, ifShape, hb]
    refine ⟨compareBranch_forward hb, _, (ihl ⟨h.1.1, h.2.1⟩).seq (ihr ⟨h.1.2, h.2.2⟩), ?_⟩
    simp only [bind_eq_bind, map_eq_bind, Option.bind_assoc]
    rfl
  case case37 hb ih h =>
    simp only [generateIfBranch, ifShape, hb]
    exact branches_value (ih h) _
  case case38 ih h =>
    rw [generateIfBranch, ifShape] <;> first | assumption | exact branches_value (ih h) _
  -- the left operand of a chain
  case case39 d op l r ihl ihr h =>
    rw [generateLinks, linkShape, if_pos rfl, if_pos rfl]
    exact .link op.forward (ihl ⟨h.1.1, h.2.1⟩) (ihr ⟨h.1.2, h.2.2⟩) (shape_links d r)
  case case40 hop ih h =>
    rw [generateLinks, linkShape, if_neg hop, if_neg hop]
    exact (ih h).plain
  case case41 ih h =>
    rw [generateLinks, linkShape] <;> first | assumption | exact (ih h).plain

/-! ## Functions behind the code of others -/

theorem Gen.ok_start (code : List UInt8) : (Gen.start code).Ok := ok_of_closed rfl

open Gen

/-- a function that no jump leaves has a target for each of its branches -/
theorem exists_target (hjumps : t.jumps = false) {c : Cursor} {s : Site} (hs : s ∈ (shape 0 t).sites c) :
    ∃ target, s.dest = .addr target := by
  have hopen : ∀ e, s.dest ≠ .exit e := fun e => by
    have hclosed := ((staysIn_shapes e).1 0 t).closed (.inr hjumps)
    exact places_eq_nil_iff.1 ((shape 0 t).places_eq_nil hclosed c) s hs
  match hdest : s.dest with
  | .addr target => exact ⟨target, rfl⟩
  | .exit e => exact absurd hdest (hopen e)

/-- **Branches land where their constructs say.** For a function of which no `break` or `continue` leads out, generated
behind the code of others in a program of at most 65535 bytes: the generator finishes, and every branch of its code
leads to the address its construct designates when it is taken and behind itself when it is not, if and only if every
branch that has another one pending inside has its offset below 32768. -/
theorem branches_land_iff (code : List UInt8) (t : Node) (hwf : t.wellFormed = true) (hplain : t.testsPlain = true)
    (hjumps : t.jumps = false) (hsize : ((shape 0 t).lay (Gen.start code).cursor).size ≤ 65535) :
    (∃ g, generate code t = some g ∧ g.size = ((shape 0 t).lay (Gen.start code).cursor).size ∧
      ∀ s ∈ (shape 0 t).sites (Gen.start code).cursor, ∃ target, s.dest = .addr target ∧
        g.code[s.pc]? = some s.op.code ∧ branchStep g.code s.pc true = some (target : ℤ) ∧
        branchStep g.code s.pc false = some (s.next : ℤ)) ↔
      (shape 0 t).fits (Gen.start code).cursor = true := by
  have hgen := generates.1 0 t ⟨hwf, hplain⟩
  constructor
  · rintro ⟨g, hrun, -⟩
    by_contra hfit
    have hstuck := (hgen _ (ok_start code) rfl hsize).stuck (eq_false_iff.2 hfit)
    rw [generate, hstuck] at hrun
    cases hrun
  · intro hfit
    obtain ⟨g, hrun, hdone⟩ := (hgen _ (ok_start code) rfl hsize).runs hfit
    refine ⟨g, hrun, congrArg Cursor.size hdone.cursor, fun s hs => ?_⟩
    obtain ⟨target, hdest⟩ := exists_target hjumps hs
    have hright := hdone.right s hs
    rw [Site.Right, hdest] at hright
    obtain ⟨htaken, hnot, hop⟩ := hright
    exact ⟨target, hdest, hop, htaken, hnot⟩

/-- `if (a) while (b && c && d) if (e) break; else continue;` with locals -/
def sampleTree : Node :=
  .ifElse (.local 0)
    (.loop .while (.ifElse (.local 4) (.controlJump .break) (.controlJump .continue)) .null
      (.landLor .land (.landLor .land (.local 1) (.local 2)) (.local 3)))
    .null

theorem shape_sampleTree : shape 0 sampleTree = .seq (.push .local 0) (.skip .branchWhenZero (.loop true
      (.seq (.push .local 4) (.alt .branchWhenZero (.exit (.jump .break) .branch) (.exit (.jump .continue) .branch))) .nop
      (.join .land (.seq (.seq (.push .local 1) (.exit .link .land)) (.push .local 2)) (.push .local 3))
      (some (.ofOp .bbranchWhenNonZero rfl rfl)))) := by
  simp only [sampleTree, shape, ifShape, linkShape, loopShape, testShape, if_true]
  rfl

theorem sampleTree_lands : sampleTree.wellFormed = true ∧ sampleTree.testsPlain = true ∧ sampleTree.jumps = false ∧
    ((shape 0 sampleTree).lay (Gen.start []).cursor).size ≤ 65535 ∧
    ∃ g, generate [] sampleTree = some g ∧ g.size = ((shape 0 sampleTree).lay (Gen.start []).cursor).size ∧
      ∀ s ∈ (shape 0 sampleTree).sites (Gen.start []).cursor, ∃ target, s.dest = .addr target ∧
        g.code[s.pc]? = some s.op.code ∧ branchStep g.code s.pc true = some (target : ℤ) ∧
        branchStep g.code s.pc false = some (s.next : ℤ) := by
  have hsize : ((shape 0 sampleTree).lay (start []).cursor).size ≤ 65535 := by
    rw [shape_sampleTree]
    decide
  have hfit : (shape 0 sampleTree).fits (start []).cursor = true := by
    rw [shape_sampleTree]
    decide
  exact ⟨by decide, by decide, by decide, hsize,
    (branches_land_iff [] sampleTree (by decide) (by decide) (by decide) hsize).2 hfit⟩

/-- `if (a) if (b) c;` -/
def nestedIf : Node := .ifElse (.local 0) (.ifElse (.local 1) (.code 0 [7]) .null) .null

theorem shape_nestedIf : shape 0 nestedIf = .seq (.push .local 0) (.skip .branchWhenZero
    (.seq (.push .local 1) (.skip .branchWhenZero (.op [7])))) := by
  simp only [nestedIf, shape, ifShape]
  rfl

/-- **A nested branch behind 32768 bytes.** The place of the outer branch comes back negative, and no branch is patched
there: the program has less than 32800 bytes, and the generator does not finish. -/
theorem nested_if_far : nestedIf.wellFormed = true ∧ nestedIf.testsPlain = true ∧ nestedIf.jumps = false ∧
    ((shape 0 nestedIf).lay (Gen.start (List.replicate 32768 0)).cursor).size < 32800 ∧
    generate (List.replicate 32768 0) nestedIf = none := by
  have hcursor : (start (List.replicate 32768 0)).cursor = ⟨32768, 0, 0⟩ :=
    congrArg (Cursor.mk · 0 0) List.length_replicate
  have hsize : ((shape 0 nestedIf).lay (start (List.replicate 32768 0)).cursor).size < 32800 := by
    rw [hcursor, shape_nestedIf]
    decide
  have hfit : (shape 0 nestedIf).fits (start (List.replicate 32768 0)).cursor = false := by
    rw [hcursor, shape_nestedIf]
    decide
  have hgen := generates.1 0 nestedIf ⟨by decide, by decide⟩
  exact ⟨by decide, by decide, by decide, hsize, (hgen _ (ok_start _) rfl (hsize.le.trans (by decide))).stuck hfit⟩

/-- the offset of `while (33) ;` stands behind the pushed number, without the opcode of a branch -/
example : (generate [] (.loop .while .null .null (.number 33))).map (·.code) = some [11, 33, 2, 0] := by
  simp only [generate, generateNode]
  decide

example : (generate [] (.loop .while .null .null (.number 32))).map (·.code) = some [24, 1, 0] := by
  simp only [generate, generateNode, generateConditionalBranch, generateTest]
  decide

end Lithos.Lpc.Program.Branch
