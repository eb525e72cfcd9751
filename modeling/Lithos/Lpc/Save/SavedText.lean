/-
The text of a saved value, and the sizing pass over it.

`Svalue.node` is the text of a value as an element (`Node`). What is shown of the two scans is shown for lexed elements:
a list of elements is counted element by element, the sizes of the groups in it are recorded in the order in which they
open. The outermost scan goes by characters, so it needs UTF-8 strings on top.

Results:
- `node_saves`: the element of a value has its text and its sizes, and is lexed.
- `restoreSize_text`: the outermost scan of a saved container returns its size and has recorded all the others.
-/
import Lithos.Lpc.Save.Syntax

namespace Lithos.Lpc.Save

open List

/-! ## Numbers and strings -/

variable {t s raw : List Byte} {c d o : Byte} {l : List Node} {n : Node} {m rest : Mem}

theorem isDigit_digitByte {d : ℕ} (h : d < 10) : isDigit (digitByte d) = true := by
  interval_cases d <;> rfl

theorem isDigit_digitsBack (fuel n : ℕ) : ∀ c ∈ digitsBack fuel n, isDigit c = true := by
  induction fuel generalizing n with
  | zero => simp [digitsBack]
  | succ fuel ih =>
    have hd := isDigit_digitByte (Nat.mod_lt n (by omega : 10 > 0))
    rw [digitsBack_nat]
    split_ifs
    · intro c hc
      rw [mem_singleton.1 hc]
      exact hd
    · exact forall_mem_append.2 ⟨ih (n / 10), forall_mem_singleton.2 hd⟩

theorem digitsBack_ne_nil (fuel n : ℕ) : digitsBack (fuel + 1) n ≠ [] := by
  rw [digitsBack_nat]
  split_ifs <;> simp

/-- a digit or a minus sign is none of the bytes with a meaning to the scanners -/
theorem numeral_ne {c : Byte} (h : isDigit c = true ∨ c = minus) :
    c ≠ nul ∧ c ≠ quote ∧ c ≠ lparen ∧ c ≠ rbracket ∧ c ≠ slash ∧ c ≠ rbrace ∧ c ≠ colon ∧ c ≠ comma := by
  refine ⟨?_, ?_, ?_, ?_, ?_, ?_, ?_, ?_⟩ <;> (rintro rfl; revert h; decide)

theorem numeral_ascii {c : Byte} (h : isDigit c = true ∨ c = minus) : c.toNat < 128 := by
  rcases h with h | rfl
  · simp only [isDigit, Bool.and_eq_true, decide_eq_true_eq, UInt8.le_iff_toNat_le] at h
    have : digit9.toNat = 57 := rfl
    omega
  · decide

theorem numberText_chars (n : Int64) : ∀ c ∈ numberText n, isDigit c = true ∨ c = minus := by
  intro c hc
  rcases mem_append.1 hc with hc | hc
  · split_ifs at hc
    · exact .inr (mem_singleton.1 hc)
    · simp at hc
  · exact .inl (isDigit_digitsBack _ _ c hc)

theorem plain_numberText (n : Int64) : Plain (numberText n) := by
  refine ⟨append_ne_nil_of_right_ne_nil _ (digitsBack_ne_nil 19 _),
    fun c hc => numeral_ne (numberText_chars n c (mem_of_mem_head? hc)),
    fun c hc => numeral_ascii (numberText_chars n c (mem_of_mem_head? hc)), fun c hc => ?_⟩
  obtain ⟨h0, -, -, -, -, -, h6, h7⟩ := numeral_ne (numberText_chars n c hc)
  exact ⟨h0, h7, h6⟩

theorem Plain.lexed (h : Plain t) (hd : d = colon ∨ d = comma) : (Node.plain t).Lexed d := by
  refine ⟨?_, fun x hx => ?_⟩
  · cases t with
    | nil => exact absurd rfl h.ne_nil
    | cons c t =>
      obtain ⟨h0, h1, h2, h3, h4, h5, h6, h7⟩ := h.head c rfl
      exact ⟨c, t, rfl, special_iff_not h0 h1 h2 (by simp [h3, h4, h5]) (by simp [h6, h7])⟩
  · obtain ⟨hn, hcomma, hcolon⟩ := h.rest x hx
    rcases hd with rfl | rfl
    · exact ⟨hcolon, hn⟩
    · exact ⟨hcomma, hn⟩

theorem escaped_saveChar (h : ∀ c ∈ s, c ≠ nul) : Escaped (s.flatMap saveChar) := by
  induction s with
  | nil => exact .nil
  | cons c s ih =>
    have hs := ih fun x hx => h x (.tail _ hx)
    rw [flatMap_cons, saveChar]
    split_ifs with hq hn
    · exact .escape (h c (.head _)) hs
    · exact .char (by decide) (by decide) (by decide) hs
    · exact .char (not_or.1 hq).1 (h c (.head _)) (not_or.1 hq).2 hs

/-! ## Values as elements -/

variable {ρ : Type} [Double ρ] {v : Svalue ρ}

mutual

def Svalue.node : Svalue ρ → Node
  | .number n => .plain (numberText n)
  | .real r => .plain (Double.fmtG r)
  | .string s => .quoted ((cstr s).flatMap saveChar)
  | .array l => .group lbrace rbrace (itemNodes l)
  | .class_ l => .group slash slash (itemNodes l)
  | .mapping l => .group lbracket rbracket (pairNodes l)
  | .other => .missing

def itemNodes : List (Svalue ρ) → List Node
  | [] => []
  | v :: l => v.node :: itemNodes l

def pairNodes : List (Svalue ρ × Svalue ρ) → List Node
  | [] => []
  | (k, v) :: l => k.node :: v.node :: pairNodes l

end

/-- the elements of a list, in a text that is lexed whatever delimiters stand in it -/
structure Saves (isMapping : Bool) (l : List Node) (t : List Byte) (sizes : List ℕ) : Prop where
  render_eq : renderItems isMapping false l = t
  sizes_eq : itemsSizes l = sizes
  lexed : LexedItems isMapping false l

/-- an element with the text and the sizes of a value, lexed in any place -/
structure Node.Saves (n : Node) (v : Svalue ρ) : Prop where
  render_eq : n.render = text v
  sizes_eq : n.sizes = sizesOf v
  lexed : ∀ isMapping index, n.Lexed (delimOf isMapping index)

theorem length_itemNodes (l : List (Svalue ρ)) : (itemNodes l).length = l.length := by
  induction l with
  | nil => rfl
  | cons v l ih => rw [itemNodes, length_cons, ih, length_cons]

theorem length_pairNodes (l : List (Svalue ρ × Svalue ρ)) : (pairNodes l).length = 2 * l.length := by
  induction l with
  | nil => rfl
  | cons p l ih =>
    rw [pairNodes, length_cons, length_cons, ih, length_cons]
    omega

mutual

/-- **The text of a value is a lexed element.** -/
theorem node_saves (hfmt : ∀ r : ρ, Plain (Double.fmtG r)) : ∀ v : Svalue ρ, v.node.Saves v
  | .number n => ⟨rfl, rfl, fun _ _ => (plain_numberText n).lexed (delimOf_cases _ _)⟩
  | .real r => ⟨rfl, rfl, fun _ _ => (hfmt r).lexed (delimOf_cases _ _)⟩
  | .string _ => ⟨rfl, rfl, fun _ _ => escaped_saveChar mem_takeWhile_ne_nul⟩
  | .other => ⟨rfl, rfl, fun _ _ => trivial⟩
  | .array l | .class_ l => by
    obtain ⟨htext, hsizes, hlex⟩ := itemNodes_saves hfmt l
    refine ⟨?_, ?_, fun _ _ => ⟨.inr (by simp), hlex⟩⟩
    · rw [Svalue.node, Node.render, text, ← htext]
      rfl
    · rw [Svalue.node, Node.sizes, sizesOf, hsizes, length_itemNodes]
  | .mapping l => by
    obtain ⟨htext, hsizes, hlex⟩ := pairNodes_saves hfmt l
    refine ⟨?_, ?_, fun _ _ => ⟨.inl (by simp), hlex⟩⟩
    · rw [Svalue.node, Node.render, text, ← htext]
      rfl
    · rw [Svalue.node, Node.sizes, sizesOf, hsizes, length_pairNodes]

theorem itemNodes_saves (hfmt : ∀ r : ρ, Plain (Double.fmtG r)) :
    ∀ l : List (Svalue ρ), Saves false (itemNodes l) (itemsText l) (itemSizes l)
  | [] => ⟨rfl, rfl, trivial⟩
  | v :: l => by
    obtain ⟨htext, hsizes, hlex⟩ := node_saves hfmt v
    obtain ⟨htexts, hsizess, hlexs⟩ := itemNodes_saves hfmt l
    refine ⟨?_, by rw [itemNodes, itemsSizes, hsizes, hsizess, itemSizes], hlex _ _, hlexs⟩
    rw [itemNodes, renderItems, htext]
    simp [nextIndex, htexts, itemsText, delimOf]

theorem pairNodes_saves (hfmt : ∀ r : ρ, Plain (Double.fmtG r)) :
    ∀ l : List (Svalue ρ × Svalue ρ), Saves true (pairNodes l) (nodesText l) (pairSizes l)
  | [] => ⟨rfl, rfl, trivial⟩
  | (k, v) :: l => by
    obtain ⟨hkt, hks, hklex⟩ := node_saves hfmt k
    obtain ⟨hvt, hvs, hvlex⟩ := node_saves hfmt v
    obtain ⟨htexts, hsizess, hlexs⟩ := pairNodes_saves hfmt l
    refine ⟨?_, ?_, hklex _ _, hvlex _ _, hlexs⟩
    · rw [pairNodes, renderItems, renderItems, hkt, hvt]
      simp [nextIndex, htexts, nodesText, delimOf]
    · rw [pairNodes, itemsSizes, itemsSizes, hks, hvs, hsizess, pairSizes, append_assoc]

end

/-! ## Scanning elements -/

/-- a scan steps over the element in front of its delimiter and counts it -/
def StepsOver {R : Type} (scan : ℕ → Mem → Bool → Bool → ℕ → Sizes → R) (n : Node) : Prop :=
  ∀ (fuel : ℕ) (rest : Mem) (isMapping index : Bool) (size : ℕ) (st : Sizes), n.Lexed (delimOf isMapping index) →
    scan (fuel + 1) (n.render ++ delimOf isMapping index :: rest) isMapping index size st =
      scan fuel rest isMapping (nextIndex isMapping index) (size + 1) st

/-- scanning the element in front of its delimiter counts it once and records its groups -/
def ScansBy {R : Type} (scan : ℕ → Mem → Bool → Bool → ℕ → Sizes → R) (n : Node) : Prop :=
  ∀ (fuel : ℕ) (rest : Mem) (isMapping index : Bool) (size : ℕ) (st : Sizes), n.Lexed (delimOf isMapping index) →
    (n.render ++ delimOf isMapping index :: rest).length < fuel →
    ∃ fuel' st', rest.length < fuel' ∧ Recorded st st' n.sizes ∧
      scan fuel (n.render ++ delimOf isMapping index :: rest) isMapping index size st =
        scan fuel' rest isMapping (nextIndex isMapping index) (size + 1) st'

section

variable {R : Type} {scan : ℕ → Mem → Bool → Bool → ℕ → Sizes → R} {final : ℕ → Sizes → R}

theorem StepsOver.scansBy (h : StepsOver scan n) (hsizes : n.sizes = []) : ScansBy scan n := by
  intro fuel rest isMapping index size st hlex hf
  obtain _ | f := fuel
  · omega
  simp only [length_append, length_cons] at hf
  exact ⟨f, st, by omega, by rw [hsizes]; exact Recorded.refl st, h f rest isMapping index size st hlex⟩

/-- a list and its closing bracket, for either scan -/
theorem scan_items {isMapping index : Bool}
    (hclose : ∀ f index size st, scan (f + 1) (c :: rparen :: rest) isMapping index size st = final size st)
    (ih : ∀ n ∈ l, ScansBy scan n) (hlex : LexedItems isMapping index l) (fuel size : ℕ) (st : Sizes)
    (hf : (renderItems isMapping index l ++ c :: rparen :: rest).length < fuel) : ∃ st', Recorded st st' (itemsSizes l) ∧
      scan fuel (renderItems isMapping index l ++ c :: rparen :: rest) isMapping index size st =
        final (size + l.length) st' := by
  induction l generalizing fuel index size st with
  | nil =>
    obtain _ | f := fuel
    · omega
    exact ⟨st, Recorded.refl st, hclose f index size st⟩
  | cons n l ihl =>
    rw [renderItems, append_assoc, cons_append] at hf ⊢
    obtain ⟨f1, st1, hf1, hrec1, heq1⟩ := ih n mem_cons_self fuel _ isMapping index size st hlex.1 hf
    obtain ⟨st2, hrec2, heq2⟩ := ihl (fun w hw => ih w (.tail _ hw)) hlex.2 f1 (size + 1) st1 hf1
    refine ⟨st2, hrec1.trans hrec2, ?_⟩
    rw [heq1, heq2, length_cons, add_assoc, add_comm 1]

end

/-! ## The inner scan -/

theorem Opens.closes (h : Opens o c) : Closes (o == lbracket) c := by
  rcases h with ⟨rfl, rfl⟩ | ⟨rfl | rfl, rfl | rfl⟩ <;> exact ⟨rfl, by simp⟩

theorem Opens.opening (h : Opens o c) : o = lbrace ∨ o = lbracket ∨ o = slash := by
  rcases h with ⟨rfl, -⟩ | ⟨rfl | rfl, -⟩ <;> simp

theorem skipString_escaped (h : Escaped raw) (m : Mem) : skipString (raw ++ quote :: m) = .ok m := by
  induction h with
  | nil =>
    rw [nil_append, skipString.eq_def]
    simp only [if_true]
  | char h1 h2 h3 _ ih =>
    rw [cons_append, skipString.eq_def]
    simp only [if_neg h1, if_neg h2, if_neg h3]
    exact ih
  | escape hd _ ih =>
    rw [cons_append, cons_append, skipString, if_neg (by decide), if_neg (by decide), if_pos rfl, if_neg hd]
    exact ih

/-- the inner scan, for a container with index `depth` -/
def innerScan (depth : ℕ) : ℕ → Mem → Bool → Bool → ℕ → Sizes → Scan :=
  fun fuel m isMapping index size st => restoreInternalSize fuel m isMapping index size depth st

variable (depth : ℕ)

theorem internal_quoted (raw : List Byte) : StepsOver (innerScan depth) (.quoted raw) := by
  intro fuel rest isMapping index size st hlex
  simp only [innerScan, Node.render, cons_append, nil_append, append_assoc]
  rw [restoreInternalSize.eq_def]
  dsimp only
  rw [skipString_escaped hlex]
  simp only [if_true]
  rfl

theorem internal_plain (t : List Byte) : StepsOver (innerScan depth) (.plain t) := by
  intro fuel rest isMapping index size st hlex
  obtain ⟨⟨c, t, rfl, hc⟩, hbytes⟩ := hlex
  simp only [Special, not_or] at hc
  obtain ⟨h1, h2, h3, h4, h5, h6, h7, h0⟩ := hc
  rw [Node.render, cons_append, innerScan, restoreInternalSize.eq_def]
  dsimp only
  rw [if_neg h0, if_neg h1, if_neg h2, if_neg (by simp [h3, h4, h5]), if_neg (by simp [h6, h7]),
    strchr_append fun x hx => hbytes x (.tail _ hx)]
  rfl

theorem internal_missing : StepsOver (innerScan depth) .missing := by
  intro fuel rest isMapping index size st _
  rw [Node.render, nil_append, innerScan, restoreInternalSize.eq_def]
  dsimp only
  obtain ⟨h0, -, h1, h2, h3, h4⟩ := delimOf_spec isMapping index
  rw [if_neg h0, if_neg h1, if_neg h2, if_neg h3, if_pos h4, if_pos rfl]
  rfl

variable {depth} {fuel : ℕ}

/-- a container inside: scanned with its own index, then the delimiter -/
theorem internal_container (hd : d = lbrace ∨ d = lbracket ∨ d = slash)
    (isMapping index : Bool) (size depth : ℕ) (st st' : Sizes)
    (h : restoreInternalSize fuel m (d == lbracket) false 0 st.depth { st with depth := st.depth + 1 } =
      .ok (delimOf isMapping index :: rest) st') :
    restoreInternalSize (fuel + 1) (lparen :: d :: m) isMapping index size depth st =
      restoreInternalSize fuel rest isMapping (nextIndex isMapping index) (size + 1) depth st' := by
  rw [restoreInternalSize]
  simp only [if_pos hd, h, if_true]
  rfl

/-- the closing bracket writes the size -/
theorem internal_close {isMapping : Bool} (hc : Closes isMapping c) (index : Bool) (size depth : ℕ) (st : Sizes) :
    restoreInternalSize (fuel + 1) (c :: rparen :: rest) isMapping index size depth st =
      .ok rest (record depth size st) := by
  obtain ⟨rfl, rfl | rfl | rfl⟩ := hc
  all_goals
    rfl

/-- the inner scan of what stands behind an opening bracket -/
theorem internal_body (ho : Opens o c) (ih : ∀ n ∈ l, ∀ depth, ScansBy (innerScan depth) n)
    (hlex : LexedItems (o == lbracket) false l) (depth : ℕ) (rest : Mem) (st : Sizes)
    (hf : (renderItems (o == lbracket) false l ++ c :: rparen :: rest).length < fuel) : ∃ st', Recorded st st' (itemsSizes l) ∧
      restoreInternalSize fuel (renderItems (o == lbracket) false l ++ c :: rparen :: rest) (o == lbracket) false 0 depth
        st = .ok rest (record depth l.length st') := by
  have hclose : ∀ f index size st, innerScan depth (f + 1) (c :: rparen :: rest) (o == lbracket) index size st =
      .ok rest (record depth size st) := fun f index size st => internal_close ho.closes index size depth st
  simpa [innerScan] using scan_items hclose (fun n hn => ih n hn depth) hlex fuel 0 st hf

/-- **Every element is scanned**: by induction, the elements of a group being so makes its body so. -/
theorem internal_scans (n : Node) (depth : ℕ) : ScansBy (innerScan depth) n := by
  induction n using Node.induction generalizing depth with
  | missing => exact (internal_missing depth).scansBy rfl
  | quoted raw => exact (internal_quoted depth raw).scansBy rfl
  | plain t => exact (internal_plain depth t).scansBy rfl
  | group o c l ih =>
    intro fuel rest isMapping index size st hlex hf
    obtain _ | f := fuel
    · omega
    rw [Node.render, cons_append, cons_append, append_assoc, cons_append, cons_append, nil_append] at hf ⊢
    simp only [length_append, length_cons] at hf
    obtain ⟨st', hrec, heq⟩ := internal_body hlex.1 ih hlex.2 st.depth (delimOf isMapping index :: rest)
      { st with depth := st.depth + 1 } (show _ < f by simp only [length_append, length_cons]; omega)
    exact ⟨f, _, by omega, hrec.close, internal_container hlex.1.opening isMapping index size depth st _ heq⟩

/-! ## The outermost scan -/

/-- what the outermost scan asks of a value: a string has to be valid UTF-8 up to its NUL -/
def OuterOk : Svalue ρ → Prop
  | .string s => ValidUtf8 (cstr s)
  | _ => True

theorem outer_string (hs : ValidUtf8 (cstr s)) : StepsOver restoreSize (.quoted ((cstr s).flatMap saveChar)) := by
  intro fuel rest isMapping index size st _
  obtain ⟨l, hl⟩ := hs
  have hnul : ∀ ch ∈ l, ch.toNat ≠ 0 := by
    intro ch hch h0
    have hmem : nul ∈ cstr s := by
      rw [hl, mem_flatMap]
      refine ⟨ch, hch, ?_⟩
      rw [encode_low (by omega), h0]
      exact mem_singleton.2 rfl
    exact mem_takeWhile_ne_nul nul hmem rfl
  have hskip := skipStringMb_body hnul (delimOf isMapping index :: rest) (lt_add_one _)
  rw [← hl] at hskip
  simp only [Node.render, cons_append, nil_append, append_assoc]
  rw [restoreSize.eq_def]
  dsimp only
  rw [mblen_ascii (by decide) (by decide)]
  simp only [drop_one, tail_cons, if_true]
  rw [hskip]
  simp only [if_true]
  rfl

theorem outer_plain (h : ∀ c, t.head? = some c → c.toNat < 128) : StepsOver restoreSize (.plain t) := by
  intro fuel rest isMapping index size st hlex
  obtain ⟨⟨c, t, rfl, hc⟩, hbytes⟩ := hlex
  simp only [Special, not_or] at hc
  obtain ⟨h1, h2, h3, h4, h5, h6, h7, h0⟩ := hc
  rw [Node.render, cons_append, restoreSize.eq_def]
  dsimp only
  rw [if_neg h0, mblen_ascii h0 (h c rfl)]
  simp only [drop_one, tail_cons, strchr_append fun x hx => hbytes x (.tail _ hx)]
  rw [if_neg h1, if_neg h2, if_neg (by simp [h3, h4, h5]), if_neg (by simp [h6, h7])]
  rfl

theorem outer_missing : StepsOver restoreSize .missing := by
  intro fuel rest isMapping index size st _
  rw [Node.render, nil_append, restoreSize.eq_def]
  dsimp only
  obtain ⟨h0, hascii, h1, h2, h3, h4⟩ := delimOf_spec isMapping index
  rw [if_neg h0, mblen_ascii h0 hascii]
  simp only [drop_one, tail_cons]
  rw [if_neg h1, if_neg h2, if_neg h3, if_pos h4]
  rfl

theorem outer_container (hd : d = lbrace ∨ d = lbracket ∨ d = slash)
    (isMapping index : Bool) (size : ℕ) (st st' : Sizes)
    (h : restoreInternalSize (m.length + 1) m (d == lbracket) false 0 st.depth { st with depth := st.depth + 1 } =
      .ok (delimOf isMapping index :: rest) st') :
    restoreSize (fuel + 1) (lparen :: d :: m) isMapping index size st =
      restoreSize fuel rest isMapping (nextIndex isMapping index) (size + 1) st' := by
  rw [restoreSize.eq_def]
  dsimp only
  rw [mblen_ascii (by decide) (by decide)]
  simp only [drop_one, tail_cons]
  rw [if_pos hd, h]
  simp only [if_true]
  rfl

theorem outer_close {isMapping : Bool} (hc : Closes isMapping c) (rest : Mem) (fuel : ℕ) (index : Bool) (size : ℕ)
    (st : Sizes) :
    restoreSize (fuel + 1) (c :: rparen :: rest) isMapping index size st = .size size { st with depth := 0 } := by
  rw [restoreSize.eq_def]
  dsimp only
  obtain ⟨rfl, rfl | rfl | rfl⟩ := hc
  all_goals
    rw [mblen_ascii (by decide) (by decide)]
    rfl

theorem outer_group (o c : Byte) (l : List Node) : ScansBy restoreSize (.group o c l) := by
  intro fuel rest isMapping index size st hlex hf
  obtain _ | f := fuel
  · omega
  rw [Node.render, cons_append, cons_append, append_assoc, cons_append, cons_append, nil_append] at hf ⊢
  simp only [length_append, length_cons] at hf
  obtain ⟨st', hrec, heq⟩ := internal_body hlex.1 (fun n _ => internal_scans n) hlex.2 st.depth
    (delimOf isMapping index :: rest) { st with depth := st.depth + 1 } (lt_add_one _)
  exact ⟨f, _, by omega, hrec.close, outer_container hlex.1.opening isMapping index size st _ heq⟩

theorem outer_scans (hfmt : ∀ r : ρ, Plain (Double.fmtG r)) (v : Svalue ρ) (ho : OuterOk v) : ScansBy restoreSize v.node := by
  cases v with
  | number n => exact (outer_plain (plain_numberText n).ascii).scansBy rfl
  | real r => exact (outer_plain (hfmt r).ascii).scansBy rfl
  | string s => exact (outer_string ho).scansBy rfl
  | array l | class_ l | mapping l => exact outer_group _ _ _
  | other => exact outer_missing.scansBy rfl

/-- what stands directly in a container -/
def Svalue.children : Svalue ρ → List (Svalue ρ)
  | .array l => l
  | .class_ l => l
  | .mapping l => l.flatMap fun p => [p.1, p.2]
  | _ => []

theorem itemNodes_eq (l : List (Svalue ρ)) : itemNodes l = l.map Svalue.node := by
  induction l with
  | nil => rfl
  | cons v l ih => rw [itemNodes, map_cons, ih]

theorem pairNodes_eq (l : List (Svalue ρ × Svalue ρ)) :
    pairNodes l = (l.flatMap fun p => [p.1, p.2]).map Svalue.node := by
  induction l with
  | nil => rfl
  | cons p l ih =>
    rw [pairNodes, ih]
    rfl

/-- a container is the group of its children -/
theorem node_children (h : v.node = .group o c l) : l = v.children.map Svalue.node ∧ l.length = v.slotSize := by
  cases v with
  | number n | real r | string s | other => cases h
  | array l | class_ l =>
    cases h
    exact ⟨itemNodes_eq l, length_itemNodes l⟩
  | mapping l =>
    cases h
    exact ⟨pairNodes_eq l, length_pairNodes l⟩

/-- what the outermost scan asks of a value's text: the strings directly in it are valid UTF-8 up to their NUL -/
def Scannable (v : Svalue ρ) : Prop := ∀ w ∈ v.children, OuterOk w

/-- **The outermost scan.** It finds the size of the container and has recorded those of all containers inside. -/
theorem restoreSize_text (hfmt : ∀ r : ρ, Plain (Double.fmtG r)) (h : v.node = .group o c l) (ho : Scannable v)
    (rest : Mem) (st : Sizes) (hf : (renderItems (o == lbracket) false l ++ c :: rparen :: rest).length < fuel) :
    ∃ st', Recorded st st' (itemsSizes l) ∧
      restoreSize fuel (renderItems (o == lbracket) false l ++ c :: rparen :: rest) (o == lbracket) false 0 st =
        .size v.slotSize { st' with depth := 0 } := by
  obtain ⟨hl, hlen⟩ := node_children h
  obtain ⟨hopens, hlex⟩ : (Node.group o c l).Lexed comma := h ▸ (node_saves hfmt v).lexed false false
  have houter : ∀ n ∈ l, ScansBy restoreSize n := by
    intro n hn
    rw [hl] at hn
    obtain ⟨w, hw, rfl⟩ := mem_map.1 hn
    exact outer_scans hfmt w (ho w hw)
  simpa [hlen] using scan_items (outer_close hopens.closes rest) houter hlex fuel 0 st hf

end Lithos.Lpc.Save
