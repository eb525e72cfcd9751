/-
The code generator on one stretch of code.

`Ran` says what a stretch of the run leaves behind: the code before it is untouched, its branch sites are right, and the
pending branch around it is found again, as a short. `Part` adds the place reached and the lists of jumps. There is one
lemma for each thing the generator does: ending a series of pushes, writing bytes, pushing, letting a pending branch
land, letting a list of branches land.
-/
import Lithos.Lpc.Program.BranchLayout

namespace Lithos.Lpc.Program.Branch

open Lithos.Core.Bytes List Gen

/-! ## Right sites -/

variable {op : BranchOp}

theorem BranchOp.arity_of_forward (h : op.backward = false) : op.arity = 0 := by
  cases op <;> first | rfl | cases h

/-- a branch instruction with the offset found behind it -/
theorem branchStep_eq {code : List UInt8} {pc off : ℕ} (hop : code[pc]? = some op.code)
    (hoff : fetch code (pc + 1 + op.arity) 2 = some off) (taken : Bool) :
    branchStep code pc taken = some (if taken then
      (if op.backward then ((pc + 1 + op.arity : ℕ) : ℤ) - off else ((pc + 1 + op.arity : ℕ) : ℤ) + off)
      else ((pc + 1 + op.arity : ℕ) : ℤ) + 2) := by
  simp only [branchStep, hop, Option.bind_eq_bind, Option.bind_some, BranchOp.ofCode_code, hoff]
  cases taken <;> rfl

variable {code code' : List UInt8} {s : Site} {target p : ℕ}

namespace Site

variable {pc : ℕ}

theorem right_of_offset (off : ℕ) (hop : code[pc]? = some op.code) (hoff : fetch code (pc + 1 + op.arity) 2 = some off)
    (htarget : (target : ℤ) = if op.backward then ((pc + 1 + op.arity : ℕ) : ℤ) - off else ((pc + 1 + op.arity : ℕ) : ℤ) + off) :
    Right code ⟨pc, op, .addr target⟩ := by
  refine ⟨?_, ?_, hop⟩
  · rw [branchStep_eq hop hoff, htarget]
    rfl
  · rw [branchStep_eq hop hoff]
    simp [next, place]

theorem next_of_forward (h : s.op.backward = false) : s.next = s.pc + 3 := by
  simp only [next, place, BranchOp.arity_of_forward h]

/-- a forward branch leads where its offset is patched to -/
theorem right_patch (hback : op.backward = false) (hop : code[pc]? = some op.code) (hroom : pc + 1 + 2 ≤ code.length)
    (hlow : pc + 1 ≤ target) (hhigh : target < 2 ^ 16) :
    Right (patch code (pc + 1) 2 (((target : ℤ) - (pc + 1 : ℕ)) % 2 ^ 16).toNat) ⟨pc, op, .addr target⟩ := by
  have harity := BranchOp.arity_of_forward hback
  refine right_of_offset (((target : ℤ) - (pc + 1 : ℕ)) % 2 ^ 16).toNat ?_ ?_ ?_
  · rw [getElem?_patch_of_outside hroom (.inl (by omega)), hop]
  · rw [harity]
    exact (fetch_patch hroom).trans (congrArg some (Nat.mod_eq_of_lt (by omega)))
  · simp only [hback, harity, Bool.false_eq_true, if_false]
    omega

/-- only the bytes of the instruction matter -/
theorem Right.congr (h : s.Right code) (hsame : ∀ i, s.pc ≤ i → i < s.next → code'[i]? = code[i]?) : s.Right code' := by
  have hop : code'[s.pc]? = code[s.pc]? := hsame _ le_rfl (by unfold next place; omega)
  match hdest : s.dest with
  | .addr target =>
    simp only [Right, hdest] at h ⊢
    obtain ⟨htaken, hnot, hcode⟩ := h
    have hoff : fetch code' (s.pc + 1 + s.op.arity) 2 = fetch code (s.pc + 1 + s.op.arity) 2 :=
      fetch_congr two_pos fun i hlow hhigh => hsame i (by omega) hhigh
    have hstep : ∀ taken, branchStep code' s.pc taken = branchStep code s.pc taken := by
      intro taken
      simp only [branchStep, hop, hcode, Option.bind_eq_bind, Option.bind_some, BranchOp.ofCode_code, hoff]
    exact ⟨(hstep _).trans htaken, (hstep _).trans hnot, hop.trans hcode⟩
  | .exit (.jump _) =>
    simp only [Right, hdest] at h ⊢
    exact ⟨h.1, hop.trans h.2⟩
  | .exit .link =>
    simp only [Right, hdest] at h ⊢
    exact h

theorem Right.forward_of_exit (h : s.Right code) {e : Exit} (hdest : s.dest = .exit e) : s.op.backward = false := by
  match e, hdest with
  | .jump _, hdest =>
    simp only [Right, hdest] at h
    exact h.1
  | .link, hdest =>
    simp only [Right, hdest] at h
    exact h

end Site

open Site

/-- the sites lie between two addresses, one behind the other -/
structure Ordered (lo hi : ℕ) (xs : List Site) : Prop where
  apart : xs.Pairwise fun s t => s.next ≤ t.pc
  low : ∀ s ∈ xs, lo ≤ s.pc
  high : ∀ s ∈ xs, s.next ≤ hi

variable {lo hi lo' hi' : ℕ} {xs ys : List Site} {g g' g'' g₂ : Gen}

namespace Ordered

theorem nil : Ordered lo hi [] := ⟨.nil, nofun, nofun⟩

theorem mono (h : Ordered lo hi xs) (hlo : lo' ≤ lo) (hhi : hi ≤ hi') : Ordered lo' hi' xs :=
  ⟨h.apart, fun s hs => hlo.trans (h.low s hs), fun s hs => (h.high s hs).trans hhi⟩

theorem append (hx : Ordered lo hi xs) (hy : Ordered lo' hi' ys) (hmid : hi ≤ lo') (hlo : lo ≤ lo')
    (hhi : hi ≤ hi') : Ordered lo hi' (xs ++ ys) := by
  refine ⟨pairwise_append.2 ⟨hx.apart, hy.apart, fun s hs t ht => ?_⟩, forall_mem_append.2 ⟨hx.low, fun s hs => ?_⟩,
    forall_mem_append.2 ⟨fun s hs => ?_, hy.high⟩⟩
  · exact (hx.high s hs).trans (hmid.trans (hy.low t ht))
  · exact hlo.trans (hy.low s hs)
  · exact (hx.high s hs).trans hhi

theorem singleton (hlo : lo ≤ s.pc) (hhi : s.next ≤ hi) : Ordered lo hi [s] :=
  ⟨pairwise_singleton _ _, by simpa using hlo, by simpa using hhi⟩

/-- two sites that share a byte are one -/
theorem eq_of_overlap (h : Ordered lo hi xs) {t : Site} (hs : s ∈ xs) (ht : t ∈ xs) {i : ℕ} (his : s.pc ≤ i)
    (hsi : i < s.next) (hit : t.pc ≤ i) (hti : i < t.next) : s = t := by
  obtain ⟨m, hm, rfl⟩ := mem_iff_getElem.1 hs
  obtain ⟨n, hn, rfl⟩ := mem_iff_getElem.1 ht
  have hapart := pairwise_iff_getElem.1 h.apart
  rcases lt_trichotomy m n with hlt | heq | hlt
  · have := hapart m n hm hn hlt
    omega
  · subst heq
    rfl
  · have := hapart n m hn hm hlt
    omega

end Ordered

/-! ## What a piece of the run leaves behind -/

namespace Gen

structure Ok (g : Gen) : Prop where
  start_lt : g.pushState ≠ 0 → g.pushStart < g.size
  size_le : g.pushState = 1 → g.size ≤ g.pushStart + 2
  /-- a series of one push can be rewritten -/
  packs : g.pushState = 1 → ∀ arg, (packedPush (g.code.getD g.pushStart 0) arg).length = 1

def settled (g : Gen) : ℕ := g.cursor.settled

/-- `branch_list` -/
def branchList (g : Gen) : Jump → List ℕ
  | .break => g.breaks
  | .continue => g.continues

variable {i : ℕ} {bs : List UInt8}

theorem Ok.cursor (h : g.Ok) : g.cursor.Ok := ⟨h.start_lt, h.size_le⟩

theorem Ok.settled_le (h : g.Ok) : g.settled ≤ g.size := h.cursor.settled_le

theorem ok_of_closed (h : g.pushState = 0) : g.Ok :=
  ⟨fun h0 => absurd h h0, fun h1 => by omega, fun h1 => by omega⟩

theorem settled_of_closed (h : g.pushState = 0) : g.settled = g.size := if_pos h

theorem settled_of_open (h : g.pushState ≠ 0) : g.settled = g.pushStart := if_neg h

@[simp]
theorem pushState_endPushes : g.endPushes.pushState = 0 := by unfold endPushes; split_ifs <;> rfl

@[simp]
theorem size_endPushes : g.endPushes.size = g.size := by
  unfold endPushes updByte size
  split_ifs <;> simp

@[simp]
theorem pushStart_endPushes : g.endPushes.pushStart = g.pushStart := by unfold endPushes; split_ifs <;> rfl

@[simp]
theorem forward_endPushes : g.endPushes.forward = g.forward := by unfold endPushes; split_ifs <;> rfl

@[simp]
theorem branchList_endPushes : g.endPushes.branchList = g.branchList := by unfold endPushes; split_ifs <;> rfl

@[simp]
theorem foreachDepth_endPushes : g.endPushes.foreachDepth = g.foreachDepth := by
  unfold endPushes
  split_ifs <;> rfl

@[simp]
theorem cursor_endPushes : g.endPushes.cursor = g.cursor.cut := by
  simp [cursor, Cursor.cut]

/-- ending a series writes into the series only -/
theorem getElem?_endPushes (hi : i < g.settled) : g.endPushes.code[i]? = g.code[i]? := by
  unfold endPushes
  split_ifs with h
  · have hlt : i < g.pushStart := by
      have := settled_of_open (show g.pushState ≠ 0 by omega)
      omega
    exact getElem?_set_ne (by omega)
  · rfl

@[simp]
theorem size_insBytes (bs : List UInt8) : (g.insBytes bs).size = g.size + bs.length := length_append

theorem getElem?_insBytes_add (i : ℕ) : (g.insBytes bs).code[g.size + i]? = bs[i]? := by
  rw [insBytes, size, getElem?_append_right (le_self_add), Nat.add_sub_cancel_left]

end Gen

/-- from `g` to `g'`: code before `g` is as it was, the sites written since are right, and with a branch among them
the pending one around is known as a short -/
structure Ran (xs : List Site) (emits : Bool) (g g' : Gen) : Prop where
  ok : g'.Ok
  settled_le : g.settled ≤ g'.settled
  size_le : g.size ≤ g'.size
  forward : g'.forward = if emits then short g.forward else g.forward
  depth : g'.foreachDepth = g.foreachDepth
  frame : ∀ i, i < g.settled → g'.code[i]? = g.code[i]?
  ordered : Ordered g.size g'.settled xs
  right : ∀ s ∈ xs, s.Right g'.code

/-- a stretch that ends at `c`, with the lists of the jumps in `T` known -/
structure Part (T : Jump → Prop) (xs : List Site) (emits : Bool) (c : Cursor) (g g' : Gen) : Prop extends
    Ran xs emits g g' where
  cursor : g'.cursor = c
  lists : ∀ k, T k → g'.branchList k = places (.jump k) xs ++ g.branchList k

namespace Ran

variable {e e' : Bool}

theorem refl (h : g.Ok) : Ran [] false g g :=
  ⟨h, le_rfl, le_rfl, rfl, rfl, fun _ _ => rfl, .nil, nofun⟩

theorem trans (h : Ran xs e g g') (h' : Ran ys e' g' g'') : Ran (xs ++ ys) (e || e') g g'' := by
  refine ⟨h'.ok, h.settled_le.trans h'.settled_le, h.size_le.trans h'.size_le, ?_, h'.depth.trans h.depth, ?_, ?_, ?_⟩
  · rw [h'.forward, h.forward]
    cases e <;> cases e' <;> simp [short]
  · intro i hi
    rw [h'.frame i (hi.trans_le h.settled_le), h.frame i hi]
  · exact h.ordered.append h'.ordered h.ok.settled_le h.size_le h'.settled_le
  · refine forall_mem_append.2 ⟨fun s hs => ?_, h'.right⟩
    exact (h.right s hs).congr fun i _ hi => h'.frame i (hi.trans_le (h.ordered.high s hs))

theorem endPushes (h : g.Ok) : Ran [] false g g.endPushes := by
  have hsettled : g.endPushes.settled = g.size := by
    rw [settled_of_closed pushState_endPushes, size_endPushes]
  refine ⟨ok_of_closed pushState_endPushes, ?_, size_endPushes.ge, forward_endPushes,
    foreachDepth_endPushes, fun i hi => getElem?_endPushes hi, .nil, nofun⟩
  rw [hsettled]
  exact h.settled_le

theorem insBytes (h : g.pushState = 0) (bs : List UInt8) : Ran [] false g (g.insBytes bs) := by
  have hsettled : (g.insBytes bs).settled = g.size + bs.length := by
    rw [settled_of_closed (g := g.insBytes bs) h, size_insBytes]
  refine ⟨ok_of_closed h, ?_, ?_, rfl, rfl, ?_, .nil, nofun⟩
  · rw [hsettled, settled_of_closed h]
    exact le_self_add
  · rw [size_insBytes]
    exact le_self_add
  · intro i hi
    rw [settled_of_closed h] at hi
    exact getElem?_append_left hi

end Ran

namespace Part

variable {T : Jump → Prop} {e e' : Bool} {c c' : Cursor}

theorem trans (h : Part T xs e c g g') (h' : Part T ys e' c' g' g'') : Part T (xs ++ ys) (e || e') c' g g'' := by
  refine ⟨h.toRan.trans h'.toRan, h'.cursor, fun k hk => ?_⟩
  rw [h'.lists k hk, h.lists k hk, places_append, append_assoc]

theorem endPushes (h : Part T xs e c g g') : Part T xs e c.cut g g'.endPushes := by
  have hend : Part T [] false c.cut g' g'.endPushes :=
    ⟨.endPushes h.ok, by rw [cursor_endPushes, h.cursor], fun _ _ => congrFun branchList_endPushes _⟩
  have := h.trans hend
  rwa [append_nil, Bool.or_false] at this

end Part

/-- `g'` is what a generator function makes of `g` when it writes the code of a shape -/
def Done (sh : Shape) (g g' : Gen) : Prop :=
  Part ⊤ (sh.sites g.cursor) sh.emits (sh.lay g.cursor) g g'

/-! ## Straight code -/

theorem cursor_insBytes (bs : List UInt8) : (g.endPushes.insBytes bs).cursor = g.cursor.emit bs.length := by
  have hstate : (g.endPushes.insBytes bs).pushState = 0 := pushState_endPushes
  have hstart : (g.endPushes.insBytes bs).pushStart = g.pushStart := pushStart_endPushes
  rw [cursor, size_insBytes, size_endPushes, hstate, hstart]
  rfl

theorem done_op (h : g.Ok) (bs : List UInt8) : Done (.op bs) g (g.endPushes.insBytes bs) := by
  have hran := (Ran.endPushes h).trans (.insBytes pushState_endPushes bs)
  exact ⟨hran, cursor_insBytes bs, fun _ _ => congrFun branchList_endPushes _⟩

theorem length_packedPush_firstPush (kind : PushKind) (value : ℕ) (arg : UInt8) :
    (packedPush ((firstPush kind value).getD 0 0) arg).length = 1 := by
  cases kind with
  | string | global | «local» => rfl
  | number => unfold firstPush; split_ifs <;> rfl

/-- the first push of a series -/
theorem done_push_first (h0 : g.pushState = 0) (kind : PushKind) (value : ℕ) :
    Done (.push kind value) g ({ g with pushStart := g.size, pushState := 1 }.insBytes (firstPush kind value)) := by
  obtain ⟨hpos, hle⟩ := Cursor.length_firstPush kind value
  set g' := { g with pushStart := g.size, pushState := 1 }.insBytes (firstPush kind value)
  have hsize : g'.size = g.size + (firstPush kind value).length := length_append
  have hsettled : g.settled = g.size := settled_of_closed h0
  have hsettled' : g'.settled = g.size := settled_of_open one_ne_zero
  refine ⟨⟨⟨fun _ => ?_, fun _ => ?_, fun _ arg => ?_⟩, ?_, ?_, rfl, rfl, fun i hi => ?_, .nil, nofun⟩, ?_, fun _ _ => rfl⟩
  · show g.size < g'.size
    omega
  · show g'.size ≤ g.size + 2
    omega
  · have hbyte : g'.code.getD g.size 0 = (firstPush kind value).getD 0 0 := by
      exact congrArg (Option.getD · 0)
        (getElem?_insBytes_add 0)
    show (packedPush (g'.code.getD g.size 0) arg).length = 1
    rw [hbyte]
    exact length_packedPush_firstPush kind value arg
  · exact (hsettled.trans hsettled'.symm).le
  · omega
  · exact getElem?_append_left (hi.trans_le hsettled.le)
  · show (⟨g'.size, 1, g.size⟩ : Cursor) = g.cursor.push kind value
    rw [hsize]
    exact (if_pos h0).symm

/-- the second push of a series, which packs the first -/
theorem done_push_second (h : g.Ok) (h1 : g.pushState = 1) (kind : PushKind) (value : ℕ) (b : UInt8) :
    Done (.push kind value) g ({ g.initializePush with pushState := 2 }.insByte b) := by
  have hlt := h.start_lt (by omega)
  set g' := { g.initializePush with pushState := 2 }.insByte b
  have htake : (g.code.take g.pushStart).length = g.pushStart := by
    rw [length_take]
    exact Nat.min_eq_left hlt.le
  have hsize : g'.size = g.pushStart + 4 := by
    show (g.code.take g.pushStart ++ [opPush, 0] ++ packedPush _ _ ++ [b]).length = _
    simp only [length_append, htake, h.packs h1, length_cons, length_nil]
  have hsettled : g.settled = g.pushStart := settled_of_open (by omega)
  have hsettled' : g'.settled = g.pushStart + 1 := settled_of_open two_ne_zero
  refine ⟨⟨⟨fun _ => ?_, nofun, nofun⟩, by omega, ?_, rfl, rfl, fun i hi => ?_, .nil, nofun⟩, ?_, fun _ _ => rfl⟩
  · show g.pushStart + 1 < g'.size
    omega
  · have := h.size_le h1
    omega
  · have hi' : i < (g.code.take g.pushStart).length := by omega
    show (g.code.take g.pushStart ++ [opPush, 0] ++ packedPush _ _ ++ [b])[i]? = _
    rw [append_assoc, append_assoc, getElem?_append_left hi', getElem?_take_of_lt (by omega)]
  · show (⟨g'.size, 2, g.pushStart + 1⟩ : Cursor) = g.cursor.push kind value
    have h0 : ¬ g.cursor.pushState = 0 := show ¬ g.pushState = 0 by omega
    rw [hsize, Cursor.push, if_neg h0]
    exact (if_pos h1).symm

/-- every other push of a series -/
theorem ran_push_next (h : g.Ok) (h1 : 1 < g.pushState) (b : UInt8) :
    Ran [] false g ({ g with pushState := g.pushState + 1 }.insByte b) := by
  have hlt := h.start_lt (by omega)
  set g' := { g with pushState := g.pushState + 1 }.insByte b
  have hsize : g'.size = g.size + 1 := length_append
  have hsettled : g.settled = g.pushStart := settled_of_open (by omega)
  have hsettled' : g'.settled = g.pushStart := settled_of_open (Nat.succ_ne_zero g.pushState)
  refine ⟨⟨fun _ => ?_, fun h2 => ?_, fun h2 => ?_⟩, (hsettled.trans hsettled'.symm).le, by omega, rfl, rfl,
    fun i hi => ?_, .nil, nofun⟩
  · show g.pushStart < g'.size
    omega
  · have : g.pushState + 1 = 1 := h2
    omega
  · have : g.pushState + 1 = 1 := h2
    omega
  · exact getElem?_append_left (hi.trans_le (hsettled.le.trans hlt.le))

theorem done_push (h : g.Ok) (kind : PushKind) {value : ℕ} (hvalue : value ≤ pushMask) :
    ∃ g', g.tryToPush kind value = (true, g') ∧ Done (.push kind value) g g' := by
  rcases Nat.lt_or_ge g.pushState 2 with hsmall | hlarge
  · rcases Nat.eq_zero_or_pos g.pushState with h0 | hpos
    · refine ⟨_, ?_, done_push_first h0 kind value⟩
      simp [tryToPush, h0, hvalue]
    · have h1 : g.pushState = 1 := by omega
      refine ⟨_, ?_, done_push_second h h1 kind value (kind.bits ||| UInt8.ofNat value)⟩
      simp [tryToPush, h1, hvalue, initializePush, insByte, insBytes]
  · have hran := ran_push_next h hlarge (kind.bits ||| UInt8.ofNat value)
    set g₁ := { g with pushState := g.pushState + 1 }.insByte (kind.bits ||| UInt8.ofNat value) with hg₁
    have hsize : g₁.size = g.size + 1 := length_append
    have hne : g.pushState ≠ 0 ∧ g.pushState ≠ 1 := by omega
    have hstep : g.tryToPush kind value = (true, if g₁.pushState = 255 then g₁.endPushes else g₁) := by
      simp [tryToPush, hne.1, hne.2, hvalue, hg₁]
    have hcursor : g.cursor.push kind value =
        ⟨g.size + 1, if g.pushState = 254 then 0 else g.pushState + 1, g.pushStart⟩ :=
      (if_neg hne.1).trans (if_neg hne.2)
    refine ⟨_, hstep, ?_⟩
    have hstate : g₁.pushState = g.pushState + 1 := rfl
    by_cases hfull : g.pushState = 254
    · rw [if_pos (by omega)]
      refine ⟨hran.trans (.endPushes hran.ok), ?_, fun _ _ => congrFun branchList_endPushes _⟩
      rw [cursor_endPushes]
      show (⟨g₁.size, 0, g.pushStart⟩ : Cursor) = g.cursor.push kind value
      rw [hcursor, hsize, if_pos hfull]
    · rw [if_neg (by omega)]
      refine ⟨hran, ?_, fun _ _ => rfl⟩
      show (⟨g₁.size, g.pushState + 1, g.pushStart⟩ : Cursor) = g.cursor.push kind value
      rw [hcursor, hsize, if_neg hfull]

/-- an operand that is too large for a packed push ends the series -/
theorem done_pushOr (h : g.Ok) (kind : PushKind) (value : ℕ) (bs : List UInt8) :
    Done (pushShape kind value bs) g (g.pushOr kind value bs) := by
  unfold pushShape
  split_ifs with hvalue
  · obtain ⟨g', hpush, hdone⟩ := done_push h kind hvalue
    simpa only [pushOr, hpush, if_true] using hdone
  · have hpush : g.tryToPush kind value = (false, g.endPushes) := by
      unfold tryToPush
      by_cases h0 : g.pushState = 0
      · have : g.endPushes = g := by
          unfold endPushes
          rw [if_neg (by omega), ← h0]
        simp [h0, hvalue, this]
      · simp [h0, hvalue]
    rw [pushOr, hpush]
    exact done_op h bs

theorem done_number (h : g.Ok) (n : ℤ) : Done (numberShape n) g (g.writeLongNumber n) := by
  unfold numberShape writeLongNumber writeNumber
  split_ifs
  · exact done_pushOr h .number _ _
  all_goals exact done_op h _

/-! ## Pending branches -/

variable {n : ℕ}

theorem short_of_lt (h : n < 2 ^ 15) : short n = n := by
  unfold short
  rw [Int.bmod_eq_of_le_mul_two] <;> omega

theorem short_neg (hlow : 2 ^ 15 ≤ n) (hhigh : n < 2 ^ 16) : short n < 0 := by
  have : short n = n - 2 ^ 16 := by
    unfold short
    rw [Int.bmod_def]
    omega
  omega

theorem short_emod (n : ℤ) : short (((n % 2 ^ 16).toNat % 256 ^ 2 : ℕ) : ℤ) = short n := by
  have hcast : (((n % 2 ^ 16).toNat % 256 ^ 2 : ℕ) : ℤ) = n % 2 ^ 16 := by omega
  rw [hcast]
  exact Int.emod_bmod n (2 ^ 16)

namespace Gen

variable {n : ℤ}

/-- the innermost pending branch gets its target, and the one around it is the innermost again -/
def landForward (target : ℤ) (g : Gen) : Option Gen := do
  let i ← g.readShort g.forward
  let g ← g.updShort g.forward (target - g.forward)
  some { g with forward := i }

theorem endPushes_of_closed (h : g.pushState = 0) : g.endPushes = g := by
  unfold endPushes
  rw [if_neg (by omega), ← h]

theorem insShort_insBytes (bs : List UInt8) (n : ℤ) : (g.insBytes bs).insShort n = g.insBytes (bs ++ bytesOf 2 n) := by
  simp only [insShort, insBytes, append_assoc]

theorem op_insShort {b : UInt8} {bs : List UInt8} : ((g.endPushes.insBytes (b :: bs)).insShort n).code[g.size]? = some b := by
  rw [insShort_insBytes, ← size_endPushes]
  exact getElem?_insBytes_add 0

theorem fetch_insShort {p : ℕ} (hp : g.size = p) :
    fetch (g.insShort n).code p 2 = some ((n % 2 ^ 16).toNat % 256 ^ 2) := by
  have := fetch_between g.code [] 2 (n % 2 ^ 16).toNat
  rwa [append_nil, show g.code.length = p from hp] at this

@[simp]
theorem cursor_forwardBranch (op : BranchOp) : (g.forwardBranch op).cursor = g.cursor.emit 3 :=
  (congrArg cursor (insShort_insBytes [op.code] g.forward)).trans (cursor_insBytes _)

theorem length_bytesOf (w : ℕ) (n : ℤ) : (bytesOf w n).length = w := length_store w _

theorem size_forwardBranch (op : BranchOp) : (g.forwardBranch op).size = g.size + 3 :=
  congrArg Cursor.size (cursor_forwardBranch op)

@[simp]
theorem pushState_forwardBranch (op : BranchOp) : (g.forwardBranch op).pushState = 0 := pushState_endPushes

theorem forward_forwardBranch (op : BranchOp) : (g.forwardBranch op).forward = (g.size + 1 : ℕ) := by
  show (((g.endPushes.insByte op.code).insShort g.forward).size : ℤ) - 2 = _
  have : ((g.endPushes.insByte op.code).insShort g.forward).size = g.size + 3 := size_forwardBranch op
  omega

@[simp]
theorem branchList_forwardBranch (op : BranchOp) : (g.forwardBranch op).branchList = g.branchList :=
  branchList_endPushes

@[simp]
theorem foreachDepth_forwardBranch (op : BranchOp) : (g.forwardBranch op).foreachDepth = g.foreachDepth :=
  foreachDepth_endPushes

theorem ok_forwardBranch (op : BranchOp) : (g.forwardBranch op).Ok := ok_of_closed (pushState_forwardBranch op)

theorem settled_forwardBranch (op : BranchOp) : (g.forwardBranch op).settled = g.size + 3 := by
  rw [settled_of_closed (pushState_forwardBranch op), size_forwardBranch]

theorem getElem?_forwardBranch (hg : g.Ok) (op : BranchOp) {i : ℕ} (hi : i < g.settled) :
    (g.forwardBranch op).code[i]? = g.code[i]? := by
  have hcode := congrArg Gen.code (insShort_insBytes (g := g.endPushes) [op.code] g.forward)
  exact (congrArg (·[i]?) hcode).trans ((done_op hg _).frame i hi)

theorem fetch_forwardBranch (op : BranchOp) :
    fetch (g.forwardBranch op).code (g.size + 1) 2 = some ((g.forward % 2 ^ 16).toNat % 256 ^ 2) :=
  fetch_insShort ((size_insBytes _).trans (congrArg (· + 1) size_endPushes))

theorem readShort_of_neg (h : n < 0) : g.readShort n = none := if_pos h

theorem landForward_of_neg (h : g.forward < 0) (target : ℤ) : g.landForward target = none := by
  rw [landForward, readShort_of_neg h]
  rfl

/-- the place of the innermost pending branch is lost, or stands in code that is not written again -/
def Pending (g : Gen) : Prop := g.forward < 0 ∨ ∃ p : ℕ, g.forward = p ∧ p + 2 ≤ g.settled

theorem readShort_eq {n : ℕ} (h : fetch g.code p 2 = some n) : g.readShort p = some (short n) := by
  simp only [readShort, Int.toNat_natCast, h]
  exact if_neg (by omega)

theorem updShort_eq (h : p + 2 ≤ g.size) :
    g.updShort p n = some { g with code := patch g.code p 2 (n % 2 ^ 16).toNat } :=
  if_neg (by omega)

/-- the place of a pending branch is not touched by ending a series -/
theorem readShort_endPushes (h : p + 2 ≤ g.settled) : g.endPushes.readShort p = g.readShort p := by
  have hfetch := fetch_congr two_pos fun _ _ hi => getElem?_endPushes (hi.trans_le h)
  simp only [readShort, Int.toNat_natCast, hfetch]

theorem updateForwardBranch_eq (h : g.Pending) : g.updateForwardBranch = g.endPushes.landForward g.size := by
  have hread : g.endPushes.readShort g.forward = g.readShort g.forward := by
    rcases h with h | ⟨p, hp, h⟩
    · rw [readShort_of_neg h, readShort_of_neg h]
    · rw [hp, readShort_endPushes h]
  simp only [updateForwardBranch, landForward, forward_endPushes, size_endPushes, hread]

theorem updateForwardBranchLinks_eq (op : BranchOp) (links : List ℕ) :
    g.updateForwardBranchLinks op links = g.endPushes.landForward g.size >>= updateLinks op links := by
  simp only [updateForwardBranchLinks, landForward, forward_endPushes, size_endPushes, Option.bind_eq_bind,
    Option.bind_assoc, Option.bind_some]

theorem landForward_eq {n : ℕ} (target : ℤ) (hp : g.forward = p) (h : p + 2 ≤ g.size)
    (hlink : fetch g.code p 2 = some n) :
    g.landForward target =
      some { g with code := patch g.code p 2 ((target - p) % 2 ^ 16).toNat, forward := short n } := by
  simp only [landForward, hp, readShort_eq hlink, updShort_eq h, Option.bind_eq_bind, Option.bind_some]

/-- the branch over the second part is written with the link and the pending branch patched then; patched first, the
pending branch leaves the link to the new one -/
theorem generateElse_eq (hg : g.Ok) (h : g.Pending) :
    g.generateElse = (g.endPushes.landForward ((g.size + 3 : ℕ) : ℤ)).map (forwardBranch .branch) := by
  rcases h with hneg | ⟨p, hp, h⟩
  · have hneg' : g.endPushes.forward < 0 := forward_endPushes.trans_lt hneg
    rw [landForward_of_neg hneg']
    exact congrArg (Option.bind · _) (readShort_of_neg hneg')
  have h0 : g.endPushes.pushState = 0 := pushState_endPushes
  have hp' : g.endPushes.forward = p := forward_endPushes.trans hp
  have hsize : p + 2 ≤ g.endPushes.size := h.trans (hg.settled_le.trans size_endPushes.ge)
  rw [generateElse, ← size_endPushes]
  generalize g.endPushes = E at h0 hp' hsize
  obtain ⟨n, hn⟩ : ∃ n, fetch E.code p 2 = some n := ⟨_, if_pos hsize⟩
  have hread : (E.insByte BranchOp.branch.code).readShort p = some (short n) :=
    readShort_eq ((fetch_append_left _ hsize).trans hn)
  have hlen : ((E.insByte BranchOp.branch.code).insShort (short n)).size = E.size + 3 := by
    simp only [insShort, insByte, size_insBytes, length_bytesOf, length_singleton]
  have hupd := updShort_eq (g := (E.insByte BranchOp.branch.code).insShort (short n)) (p := p)
    (n := ((E.size + 3 : ℕ) : ℤ) - p) (by omega)
  have hfwd : (E.insByte BranchOp.branch.code).forward = p := hp'
  have hfwd' : ((E.insByte BranchOp.branch.code).insShort (short n)).forward = p := hp'
  have hpatch : ∀ off, patch ((E.insByte BranchOp.branch.code).insShort (short n)).code p 2 off =
      patch E.code p 2 off ++ [BranchOp.branch.code] ++ bytesOf 2 (short n) := by
    intro off
    show patch (E.code ++ [BranchOp.branch.code] ++ bytesOf 2 (short n)) p 2 off = _
    rw [append_assoc, patch_append_left _ hsize, append_assoc]
  rw [landForward_eq _ hp' hsize hn, Option.map_some]
  simp only [hfwd, hread, Option.bind_eq_bind, Option.bind_some, hfwd', hlen, hupd, hpatch]
  rw [forwardBranch, endPushes_of_closed (g := { E with code := patch E.code p 2 _, forward := short n }) h0]
  simp only [insShort, insByte, insBytes, size]

end Gen

variable {e : Bool}

theorem Shape.near_eq_true : Shape.near p e = true ↔ (e = true → p < 2 ^ 15) := by
  cases e <;> simp [Shape.near]

theorem Shape.near_eq_false : Shape.near p e = false ↔ e = true ∧ 2 ^ 15 ≤ p := by
  cases e <;> simp [Shape.near]

namespace Ran

section

variable (h : Ran xs e (g.forwardBranch op) g₂)
include h

/-- the pending branch is found again if nothing was pending inside, or its place is a positive short -/
theorem forward_eq (hnear : Shape.near (g.size + 1) e = true) : g₂.forward = (g.size + 1 : ℕ) := by
  rw [h.forward, forward_forwardBranch]
  cases e with
  | false => rfl
  | true =>
    rw [if_pos rfl]
    exact short_of_lt (Shape.near_eq_true.1 hnear rfl)

/-- otherwise it is looked for before the start of the program -/
theorem forward_neg (hfar : Shape.near (g.size + 1) e = false) (hsize : g.size + 1 < 2 ^ 16) : g₂.forward < 0 := by
  obtain ⟨rfl, hlow⟩ := Shape.near_eq_false.1 hfar
  rw [h.forward, forward_forwardBranch, if_pos rfl]
  exact short_neg hlow hsize

theorem place_le : g.size + 1 + 2 ≤ g₂.settled :=
  (settled_forwardBranch op).ge.trans h.settled_le

theorem pending (hsize : g₂.size ≤ 65535) : g₂.Pending := by
  have hlow := h.size_le
  rw [size_forwardBranch] at hlow
  cases hnear : Shape.near (g.size + 1) e with
  | false => exact .inl (h.forward_neg hnear (by omega))
  | true => exact .inr ⟨_, h.forward_eq hnear, h.place_le⟩

end

end Ran

variable {T : Jump → Prop} {c : Cursor}

/-- the pending branch lands -/
theorem Part.land (h : Part T xs e c (g.forwardBranch op) g₂) (hg : g.Ok) (hop : op.backward = false)
    (hnear : Shape.near (g.size + 1) e = true) (target : ℕ) (hlow : g.size + 1 ≤ target) (hhigh : target < 2 ^ 16) :
    ∃ g₃, g₂.landForward (target : ℤ) = some g₃ ∧ Part T (⟨g.size, op, .addr target⟩ :: xs) true c g g₃ := by
  have hplace := h.place_le
  have hsize : g.size + 1 + 2 ≤ g₂.size := hplace.trans h.ok.settled_le
  have hframe : ∀ i, i < g.size + 3 → g₂.code[i]? = (g.forwardBranch op).code[i]? := fun i hi =>
    h.frame i (hi.trans_le (settled_forwardBranch op).ge)
  have hlink : fetch g₂.code (g.size + 1) 2 = some ((g.forward % 2 ^ 16).toNat % 256 ^ 2) :=
    (fetch_congr two_pos fun i _ hi => hframe i hi).trans (fetch_forwardBranch op)
  set off := (((target : ℤ) - (g.size + 1 : ℕ)) % 2 ^ 16).toNat
  have hland := landForward_eq target (h.forward_eq hnear) hsize hlink
  set g₃ : Gen := { g₂ with code := patch g₂.code (g.size + 1) 2 off, forward := short _ }
  have hlen : g₃.size = g₂.size := length_patch hsize
  have hcursor : g₃.cursor = g₂.cursor := by rw [Gen.cursor, Gen.cursor, hlen]
  have hsettled : g₃.settled = g₂.settled := congrArg Cursor.settled hcursor
  have houtside : ∀ i, i < g.size + 1 ∨ g.size + 1 + 2 ≤ i → g₃.code[i]? = g₂.code[i]? := fun i hi =>
    getElem?_patch_of_outside hsize hi
  have hbefore : ∀ i, i < g.settled → g₃.code[i]? = g.code[i]? := by
    intro i hi
    have := hg.settled_le
    rw [houtside i (.inl (by omega)), hframe i (by omega), getElem?_forwardBranch hg op hi]
  have hlists : ∀ k, T k → g₃.branchList k = places (.jump k) (⟨g.size, op, .addr target⟩ :: xs) ++ g.branchList k :=
    fun k hk => (h.lists k hk).trans (by simp [places_cons])
  refine ⟨g₃, hland, ⟨⟨?_, ?_, ?_⟩, ?_, ?_, ?_, ?_, hbefore, ?_, ?_⟩, hcursor.trans h.cursor, hlists⟩
  · intro h0
    exact (h.ok.start_lt h0).trans_le hlen.ge
  · intro h1
    exact hlen.le.trans (h.ok.size_le h1)
  · intro h1 arg
    have hopen : g₂.settled = g₂.pushStart := settled_of_open (show g₂.pushState ≠ 0 by
      have : g₂.pushState = 1 := h1
      omega)
    have hbyte : g₃.code.getD g₂.pushStart 0 = g₂.code.getD g₂.pushStart 0 := by
      rw [getD_eq_getElem?_getD, getD_eq_getElem?_getD, houtside _ (.inr (by omega))]
    rw [hbyte]
    exact h.ok.packs h1 arg
  · exact hg.settled_le.trans (by omega)
  · omega
  · rw [if_pos rfl, ← short_emod g.forward]
  · exact h.depth.trans (foreachDepth_forwardBranch op)
  · have hsite : Ordered g.size (g.size + 3) [⟨g.size, op, .addr target⟩] := .singleton le_rfl (next_of_forward hop).le
    refine hsite.append (h.ordered.mono (size_forwardBranch op).ge hsettled.ge) le_rfl (le_self_add) ?_
    rw [hsettled]
    exact hplace
  · intro s hs
    rcases mem_cons.1 hs with rfl | hs
    · exact right_patch hop ((hframe _ (by omega)).trans op_insShort) hsize hlow hhigh
    · refine (h.right s hs).congr fun i hi _ => houtside i (.inr ?_)
      have := h.ordered.low s hs
      rw [size_forwardBranch] at this
      omega

/-! ## Lists of branches -/

theorem mem_places {e : Exit} : p ∈ places e xs ↔ ∃ s ∈ xs, s.dest = .exit e ∧ p = s.pc + 1 := by
  simp only [places, List.mem_reverse, List.mem_map, List.mem_filter, decide_eq_true_eq]
  constructor
  · rintro ⟨s, ⟨hs, hdest⟩, hp⟩
    exact ⟨s, hs, hdest, hp.symm⟩
  · rintro ⟨s, hs, hdest, hp⟩
    exact ⟨s, ⟨hs, hdest⟩, hp.symm⟩

namespace Gen

/-- a link gets its opcode, the other branches have it -/
def mark (b : Option BranchOp) (p : ℕ) (g : Gen) : Gen :=
  match b with
  | none => g
  | some op => g.updByte (p - 1) op.code

/-- the branches of a list land at the end of the code -/
def updatePlaces (b : Option BranchOp) : List ℕ → Gen → Option Gen
  | [], g => some g
  | p :: ps, g => do
    let g ← (g.mark b p).updShort p ((g.size : ℤ) - p)
    g.updatePlaces b ps

theorem updateList_eq (ps : List ℕ) (g : Gen) : g.updateList ps = g.updatePlaces none ps := by
  induction ps generalizing g with
  | nil => rfl
  | cons p ps ih => simp only [updateList, updatePlaces, mark, ih]

theorem updateLinks_eq (op : BranchOp) (ps : List ℕ) (g : Gen) : g.updateLinks op ps = g.updatePlaces (some op) ps := by
  induction ps generalizing g with
  | nil => rfl
  | cons p ps ih => simp only [updateLinks, updatePlaces, mark, ih]

end Gen

/-- a site whose exit has landed if its place is in a list -/
def Site.landIf (e : Exit) (target : ℕ) (done : List ℕ) (s : Site) : Site :=
  if s.pc + 1 ∈ done then s.land e target else s

@[simp]
theorem Site.pc_landIf (e : Exit) (target : ℕ) (done : List ℕ) (s : Site) : (s.landIf e target done).pc = s.pc := by
  unfold landIf land
  split_ifs <;> rfl

@[simp]
theorem Site.op_landIf (e : Exit) (target : ℕ) (done : List ℕ) (s : Site) : (s.landIf e target done).op = s.op := by
  unfold landIf land
  split_ifs <;> rfl

@[simp]
theorem Site.next_landIf (e : Exit) (target : ℕ) (done : List ℕ) (s : Site) : (s.landIf e target done).next = s.next := by
  simp only [next, place, pc_landIf, op_landIf]

section Places

variable {e : Exit} {b : Option BranchOp}

/-- which branches a list may be given: `mark` knows their opcode -/
def Marked (b : Option BranchOp) (e : Exit) (xs : List Site) : Prop :=
  match b with
  | none => e ≠ .link
  | some op => ∀ s ∈ xs, s.dest = .exit e → s.op = op

/-- the opcode of a branch that is about to land -/
theorem op_mark {target : ℕ} {done : List ℕ} (hmarked : Marked b e xs) (hs : s ∈ xs) (hdest : s.dest = .exit e)
    (hlt : s.pc < g.code.length) (hright : (s.landIf e target done).Right g.code) :
    (g.mark b (s.pc + 1)).code[s.pc]? = some s.op.code := by
  match b, hmarked with
  | some op, hmarked =>
    show (g.code.set (s.pc + 1 - 1) op.code)[s.pc]? = _
    rw [Nat.add_sub_cancel, getElem?_set_self hlt, hmarked s hs hdest]
  | none, hlink =>
    match e, hlink, hdest with
    | .jump k, _, hdest =>
      unfold landIf land at hright
      split_ifs at hright
      · exact hright.2.2
      · simp only [Site.Right, hdest] at hright
        exact hright.2

theorem mark_code (b : Option BranchOp) (p : ℕ) (g : Gen) :
    ∃ code, g.mark b p = { g with code := code } ∧ code.length = g.code.length ∧
      ∀ i, i ≠ p - 1 → code[i]? = g.code[i]? := by
  match b with
  | none => exact ⟨g.code, rfl, rfl, fun _ _ => rfl⟩
  | some op => exact ⟨_, rfl, length_set, fun i hi => getElem?_set_ne hi.symm⟩

/-- one branch of a list lands: its bytes become those of the instruction, all others stay -/
theorem land_place (hforward : s.op.backward = false) (hhi : s.next ≤ g.size) (hsize : g.size < 2 ^ 16)
    (hop : (g.mark b (s.pc + 1)).code[s.pc]? = some s.op.code) :
    ∃ code, (g.mark b (s.pc + 1)).updShort (s.pc + 1 : ℕ) ((g.size : ℤ) - (s.pc + 1 : ℕ)) =
        some { g with code := code } ∧ code.length = g.code.length ∧
      (∀ i, i < s.pc ∨ s.next ≤ i → code[i]? = g.code[i]?) ∧
      Site.Right code { s with dest := .addr g.size } := by
  obtain ⟨marked, hmark, hlen, hother⟩ := mark_code b (s.pc + 1) g
  rw [hmark] at hop ⊢
  have hnext := next_of_forward hforward
  have hroom : s.pc + 1 + 2 ≤ marked.length := by
    rw [hlen]
    exact hnext.symm.le.trans hhi
  have hupd := updShort_eq (g := { g with code := marked }) (n := (g.size : ℤ) - (s.pc + 1 : ℕ)) hroom
  refine ⟨_, hupd, (length_patch hroom).trans hlen, fun i hi => ?_, right_patch hforward hop hroom (by omega) hsize⟩
  rw [getElem?_patch_of_outside hroom (by omega), hother i (by omega)]

/-- a list of branches lands: the run over the list keeps every other byte, and the sites of the places passed are
right -/
theorem updatePlaces_spec (hord : Ordered lo hi xs) (hmarked : Marked b e xs) (ps done : List ℕ) (hhi : hi ≤ g.size)
    (hsize : g.size < 2 ^ 16) (hps : ∀ p ∈ ps, p ∈ places e xs)
    (hexit : ∀ s ∈ xs, s.dest = .exit e → s.op.backward = false)
    (hright : ∀ s ∈ xs, (s.landIf e g.size done).Right g.code) :
    ∃ code, g.updatePlaces b ps = some { g with code := code } ∧ code.length = g.code.length ∧
      (∀ i, (∀ s ∈ xs, i < s.pc ∨ s.next ≤ i) → code[i]? = g.code[i]?) ∧
      ∀ s ∈ xs, (s.landIf e g.size (ps ++ done)).Right code := by
  induction ps generalizing g done with
  | nil => exact ⟨g.code, rfl, rfl, fun _ _ => rfl, hright⟩
  | cons p ps ih =>
    obtain ⟨s, hs, hdest, rfl⟩ := mem_places.1 (hps p List.mem_cons_self)
    have hnext : s.pc < s.next := by unfold Site.next Site.place; omega
    have hin : s.next ≤ g.size := (hord.high s hs).trans hhi
    have hop := op_mark hmarked hs hdest (hnext.trans_le hin) (hright s hs)
    obtain ⟨code, hupd, hlen, hother, hlands⟩ := land_place (hexit s hs hdest) hin hsize hop
    set g₁ : Gen := { g with code := code }
    have hsize₁ : g₁.size = g.size := hlen
    have hright₁ : ∀ t ∈ xs, (t.landIf e g₁.size ((s.pc + 1) :: done)).Right g₁.code := by
      intro t ht
      rw [hsize₁]
      by_cases hpc : t.pc = s.pc
      · have heq : t = s := hord.eq_of_overlap ht hs le_rfl (by unfold Site.next Site.place; omega) hpc.ge (by omega)
        subst heq
        simpa [landIf, land, hdest] using hlands
      · have hsame : t.landIf e g.size ((s.pc + 1) :: done) = t.landIf e g.size done := by
          simp [landIf, hpc]
        rw [hsame]
        refine (hright t ht).congr fun i hlow hhigh => hother i ?_
        rw [pc_landIf] at hlow
        rw [next_landIf] at hhigh
        by_contra hover
        exact hpc (congrArg pc (hord.eq_of_overlap ht hs hlow hhigh (by omega) (by omega)))
    obtain ⟨code', hrest, hlen', hother', hright'⟩ :=
      ih ((s.pc + 1) :: done) (hsize₁.ge.trans' hhi) (hsize₁.le.trans_lt hsize)
        (fun p hp => hps p (.tail _ hp)) hright₁
    refine ⟨code', ?_, hlen'.trans hlen, fun i hi => ?_, fun t ht => ?_⟩
    · rw [updatePlaces, hupd]
      exact hrest
    · rw [hother' i hi]
      exact hother i (hi s hs)
    · have := hright' t ht
      rw [hsize₁] at this
      simpa [landIf, or_comm, or_left_comm, or_assoc] using this

end Places

theorem Ordered.map_land {lo hi : ℕ} (h : Ordered lo hi xs) (e : Exit) (target : ℕ) :
    Ordered lo hi (xs.map (land e target)) := by
  have hpc : ∀ s : Site, (s.land e target).pc = s.pc := fun s => by unfold land; split_ifs <;> rfl
  have hnext : ∀ s : Site, (s.land e target).next = s.next := fun s => by unfold land; split_ifs <;> rfl
  refine ⟨pairwise_map.2 (h.apart.imp fun hst => by rwa [hpc, hnext]), fun s hs => ?_, fun s hs => ?_⟩
  · obtain ⟨t, ht, rfl⟩ := mem_map.1 hs
    exact (h.low t ht).trans (hpc t).ge
  · obtain ⟨t, ht, rfl⟩ := mem_map.1 hs
    exact (hnext t).le.trans (h.high t ht)

/-- the exits of a kind land at the end of the code -/
theorem Part.updatePlaces {S : Jump → Prop} {em : Bool} {e : Exit} {b : Option BranchOp} (hg : g.Ok)
    (h : Part T xs em c g g') (h0 : c.pushState = 0) (hsize : c.size < 2 ^ 16) (hmarked : Marked b e xs)
    (hT : ∀ k, S k → T k ∧ Exit.jump k ≠ e) :
    ∃ g'', g'.updatePlaces b (places e xs) = some g'' ∧ Part S (xs.map (Site.land e c.size)) em c g g'' := by
  obtain rfl := h.cursor
  obtain ⟨code, hupd, hlen, hother, hright⟩ := updatePlaces_spec h.ordered hmarked (places e xs) [] h.ok.settled_le hsize
    (fun p hp => hp) (fun s hs hdest => (h.right s hs).forward_of_exit hdest)
    (fun s hs => by simpa [landIf] using h.right s hs)
  have hcursor : ({ g' with code := code } : Gen).cursor = g'.cursor := congrArg (Cursor.mk · _ _) hlen
  have hsettled : ({ g' with code := code } : Gen).settled = g'.settled := congrArg Cursor.settled hcursor
  refine ⟨_, hupd, ⟨ok_of_closed h0, ?_, ?_, h.forward, h.depth, ?_, ?_, ?_⟩, hcursor, ?_⟩
  · exact h.settled_le.trans hsettled.ge
  · exact h.size_le.trans hlen.ge
  · intro i hi
    refine (hother i fun s hs => .inl ?_).trans (h.frame i hi)
    exact hi.trans_le (hg.settled_le.trans (h.ordered.low s hs))
  · rw [hsettled]
    exact h.ordered.map_land e g'.size
  · intro s hs
    obtain ⟨t, ht, rfl⟩ := mem_map.1 hs
    have : (t.landIf e g'.cursor.size (places e xs ++ [])).Right code := hright t ht
    by_cases hdest : t.dest = .exit e
    · have hmem : t.pc + 1 ∈ places e xs := mem_places.2 ⟨t, ht, hdest, rfl⟩
      simpa [landIf, hmem] using this
    · simpa [Site.landIf, Site.land, hdest] using this
  · intro k hk
    rw [places_map_land_of_ne (hT k hk).2]
    exact h.lists k (hT k hk).1

end Lithos.Lpc.Program.Branch
