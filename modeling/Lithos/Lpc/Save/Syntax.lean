/-
The text of saved values as the sizing pass (`restore_size`, `restore_internal_size`) cuts it up.

`Node` is the text of an element with the closing brackets that stand there; `Lexed` says that each element ends where the
scanners look for its delimiter. `internal_spec` and `outer_spec` say all the two scans can do on memory that holds a NUL:
they fail, or they have cut the text into lexed elements and recorded the sizes of the groups in it; the outermost scan
also returns a size when the text ends inside a string.
-/
import Lithos.Lpc.Save.Scanner

namespace Lithos.Lpc.Save

open List Recorded

/-! ## Concrete syntax -/

/-- the text of an element as the sizing pass cuts it: nothing, what stands between quotes, what stands before the
delimiter, or a bracketed list with the brackets it was written with -/
inductive Node where
  | missing
  | quoted (raw : List Byte)
  | plain (t : List Byte)
  | group (opening closing : Byte) (items : List Node)

theorem Node.induction {P : Node → Prop} (missing : P .missing) (quoted : ∀ raw, P (.quoted raw))
    (plain : ∀ t, P (.plain t)) (group : ∀ o c l, (∀ n ∈ l, P n) → P (.group o c l)) (n : Node) : P n := by
  refine @Node.rec P (fun l => ∀ n ∈ l, P n) missing quoted plain group ?_ ?_ n
  · simp
  · exact fun n l hn hl => forall_mem_cons.2 ⟨hn, hl⟩

mutual

def Node.render : Node → List Byte
  | .missing => []
  | .quoted raw => quote :: raw ++ [quote]
  | .plain t => t
  | .group o c l => lparen :: o :: (renderItems (o == lbracket) false l ++ [c, rparen])

/-- elements with the delimiter each has to have behind it -/
def renderItems (isMapping index : Bool) : List Node → List Byte
  | [] => []
  | n :: l => n.render ++ delimOf isMapping index :: renderItems isMapping (nextIndex isMapping index) l

end

/-- a string body without an open end: every quote and backslash is escaped, no NUL -/
inductive Escaped : List Byte → Prop where
  | nil : Escaped []
  | char {c : Byte} {r : List Byte} : c ≠ quote → c ≠ nul → c ≠ backslash → Escaped r → Escaped (c :: r)
  | escape {d : Byte} {r : List Byte} : d ≠ nul → Escaped r → Escaped (backslash :: d :: r)

/-- the bytes that mean something to the scanners at the start of an element -/
def Special (c : Byte) : Prop :=
  c = quote ∨ c = lparen ∨ c = rbracket ∨ c = slash ∨ c = rbrace ∨ c = colon ∨ c = comma ∨ c = nul

/-- the closing brackets the scanners take for an opening one: a class may be closed like an array -/
def Opens (o c : Byte) : Prop :=
  (o = lbracket ∧ c = rbracket) ∨ ((o = lbrace ∨ o = slash) ∧ (c = slash ∨ c = rbrace))

/-- the closing bracket that belongs to the opening one -/
def Matches (o c : Byte) : Prop := (o = lbracket ∧ c = rbracket) ∨ (o = lbrace ∧ c = rbrace) ∨ (o = slash ∧ c = slash)

mutual

/-- an element that ends at the first `delim` after it -/
def Node.Lexed (delim : Byte) : Node → Prop
  | .missing => True
  | .quoted raw => Escaped raw
  | .plain t => (∃ c t', t = c :: t' ∧ ¬ Special c) ∧ ∀ x ∈ t, x ≠ delim ∧ x ≠ nul
  | .group o c l => Opens o c ∧ LexedItems (o == lbracket) false l

def LexedItems (isMapping index : Bool) : List Node → Prop
  | [] => True
  | n :: l => n.Lexed (delimOf isMapping index) ∧ LexedItems isMapping (nextIndex isMapping index) l

end

mutual

/-- the slot sizes of an element's groups in the order in which they open -/
def Node.sizes : Node → List ℕ
  | .group _ _ l => l.length :: itemsSizes l
  | .missing => []
  | .quoted _ => []
  | .plain _ => []

def itemsSizes : List Node → List ℕ
  | [] => []
  | n :: l => n.sizes ++ itemsSizes l

end

/-! ## The end of the text -/

variable {raw : List Byte}

theorem Escaped.nul_notMem (h : Escaped raw) : nul ∉ raw := by
  induction h with
  | nil => simp
  | char _ h2 _ _ ih => exact not_mem_cons_of_ne_of_not_mem h2.symm ih
  | escape hd _ ih =>
    exact not_mem_cons_of_ne_of_not_mem (by decide) (not_mem_cons_of_ne_of_not_mem hd.symm ih)

theorem delimOf_ne_nul (isMapping index : Bool) : delimOf isMapping index ≠ nul := by
  rcases delimOf_cases isMapping index with h | h <;> (rw [h]; decide)

variable {c : Byte} {o : Byte}

theorem Opens.ne_nul (h : Opens o c) : o ≠ nul ∧ c ≠ nul := by
  rcases h with ⟨rfl, rfl⟩ | ⟨rfl | rfl, rfl | rfl⟩ <;> exact ⟨by decide, by decide⟩

variable {isMapping : Bool} {l : List Node} {index : Bool} {a : List Byte}

mutual

theorem render_nul : ∀ (n : Node) (d : Byte), n.Lexed d → nul ∉ n.render
  | .missing, _, _ => by simp [Node.render]
  | .quoted _, _, h =>
    not_mem_cons_of_ne_of_not_mem (by decide) (not_mem_append (Escaped.nul_notMem h) (by decide))
  | .plain _, _, h => fun hmem => (h.2 nul hmem).2 rfl
  | .group o c l, _, h => by
    obtain ⟨ho, hc⟩ := h.1.ne_nul
    rw [Node.render]
    simp only [mem_cons, mem_append, not_mem_nil, or_false, not_or]
    exact ⟨by decide, ho.symm, items_nul h.2, hc.symm, by decide⟩

theorem items_nul : ∀ {l : List Node} {isMapping index : Bool}, LexedItems isMapping index l →
    nul ∉ renderItems isMapping index l
  | [], _, _, _ => by simp [renderItems]
  | n :: _, _, _, h => not_mem_append (render_nul n _ h.1)
      (not_mem_cons_of_ne_of_not_mem (delimOf_ne_nul _ _).symm (items_nul h.2))

end

/-- what follows a part without NUL still has the NUL -/
theorem nul_right {b : List Byte} (h : nul ∈ a ++ b) (ha : nul ∉ a) : nul ∈ b := (mem_append.1 h).resolve_left ha

variable {m : Mem} {t : List Byte} {m' : Mem} {n : Node} {size fuel : ℕ} {st st1 : Sizes}

theorem nul_tail (h : nul ∈ c :: m) (hc : c ≠ nul) : nul ∈ m := (mem_cons.1 h).resolve_left hc.symm

/-! ## What the sizing pass sees -/

theorem strchr_spec (d : Byte) (h : nul ∈ m) :
    strchr d m = .fail ∨ ∃ t m', strchr d m = .ok m' ∧ (∀ x ∈ t, x ≠ d ∧ x ≠ nul) ∧ m = t ++ d :: m' := by
  induction m with
  | nil => cases h
  | cons c m ih =>
    rw [strchr]
    split_ifs with hc hn
    · exact .inr ⟨[], m, rfl, by simp, by rw [hc]; rfl⟩
    · exact .inl rfl
    · rcases ih (nul_tail h hn) with hf | ⟨t, m', hok, ht, rfl⟩
      · exact .inl hf
      · exact .inr ⟨c :: t, m', hok, forall_mem_cons.2 ⟨⟨hc, hn⟩, ht⟩, rfl⟩

theorem skipString_spec (h : nul ∈ m) :
    skipString m = .fail ∨ ∃ raw m', skipString m = .ok m' ∧ Escaped raw ∧ m = raw ++ quote :: m' := by
  fun_induction skipString m with
  | case1 => cases h
  | case2 m => exact .inr ⟨[], m, rfl, .nil, rfl⟩
  | case3 m | case5 => exact .inl rfl
  | case4 => exact absurd h (by decide)
  | case6 d m hd hq hn ih =>
    rcases ih (nul_tail (nul_tail h (by decide)) hd) with hf | ⟨raw, m', hok, hraw, rfl⟩
    · exact .inl hf
    · exact .inr ⟨backslash :: d :: raw, m', hok, .escape hd hraw, rfl⟩
  | case7 c m hq hn hb ih =>
    rcases ih (nul_tail h hn) with hf | ⟨raw, m', hok, hraw, rfl⟩
    · exact .inl hf
    · exact .inr ⟨c :: raw, m', hok, .char hq hn hb hraw, rfl⟩

/-- the closing bracket of a list that is a mapping or not -/
def Closes (isMapping : Bool) (c : Byte) : Prop :=
  isMapping = decide (c = rbracket) ∧ (c = rbracket ∨ c = slash ∨ c = rbrace)

theorem opens_of_closes (ho : o = lbrace ∨ o = lbracket ∨ o = slash) (hc : Closes (o == lbracket) c) : Opens o c := by
  obtain ⟨h1, h2⟩ := hc
  rcases ho with rfl | rfl | rfl
  · rcases h2 with rfl | h2
    · cases h1
    · exact .inr ⟨.inl rfl, h2⟩
  · have : c = rbracket := by simpa using h1.symm
    exact .inl ⟨rfl, this⟩
  · rcases h2 with rfl | h2
    · cases h1
    · exact .inr ⟨.inr rfl, h2⟩

theorem special_iff_not (h1 : c ≠ nul) (h2 : c ≠ quote) (h3 : c ≠ lparen)
    (h4 : ¬ (c = rbracket ∨ c = slash ∨ c = rbrace)) (h5 : ¬ (c = colon ∨ c = comma)) : ¬ Special c := by
  rintro (h | h | h | h | h | h | h | h)
  · exact h2 h
  · exact h3 h
  · exact h4 (.inl h)
  · exact h4 (.inr (.inl h))
  · exact h4 (.inr (.inr h))
  · exact h5 (.inl h)
  · exact h5 (.inr h)
  · exact h1 h

theorem lexed_plain (isMapping index : Bool) (hc : ¬ Special c)
    (ht : ∀ x ∈ t, x ≠ delimOf isMapping index ∧ x ≠ nul) : (Node.plain (c :: t)).Lexed (delimOf isMapping index) := by
  refine ⟨⟨c, t, rfl, hc⟩, fun x hx => ?_⟩
  rcases mem_cons.1 hx with rfl | hx
  · refine ⟨fun h => hc ?_, fun h => hc (by simp [Special, h])⟩
    rcases delimOf_cases isMapping index with hd | hd
    all_goals rw [hd] at h; simp [Special, h]
  · exact ht x hx

/-- what is left of the text after `l` and a closing bracket -/
def Cut (isMapping index : Bool) (m : Mem) (l : List Node) (c : Byte) (m' : Mem) : Prop :=
  LexedItems isMapping index l ∧ Closes isMapping c ∧ m = renderItems isMapping index l ++ c :: rparen :: m'

theorem Cut.cons (index : Bool) (hn : n.Lexed (delimOf isMapping index))
    (h : Cut isMapping (nextIndex isMapping index) m l c m') :
    Cut isMapping index (n.render ++ delimOf isMapping index :: m) (n :: l) c m' := by
  obtain ⟨hl, hc, rfl⟩ := h
  refine ⟨⟨hn, hl⟩, hc, ?_⟩
  rw [renderItems, append_assoc]
  rfl

theorem string_rest (hraw : Escaped raw) (h : nul ∈ raw ++ quote :: m') : nul ∈ m' :=
  nul_tail (nul_right h hraw.nul_notMem) (by decide)

/-- what a scan says of a text, whichever of the two: nothing where it fails, and one element more if one more stands in
front -/
structure Reads {R : Type} (isMapping : Bool) (fail : Sizes → R) (Seen : Bool → Mem → ℕ → Sizes → R → Prop) : Prop where
  failed : ∀ {index m size st} st', Seen index m size st (fail st')
  cons : ∀ {index} {n : Node} {m size st st1 r}, n.Lexed (delimOf isMapping index) → Recorded st st1 n.sizes →
    Seen (nextIndex isMapping index) m (size + 1) st1 r → Seen index (n.render ++ delimOf isMapping index :: m) size st r

/-- a step over one element and its delimiter leaves a shorter text with the NUL still in it -/
theorem element_rest {m : List Byte} {d : Byte} (ha : nul ∉ a) (hd : d ≠ nul) (h : nul ∈ a ++ d :: m) :
    nul ∈ m ∧ m.length < (a ++ d :: m).length := by
  refine ⟨nul_tail (nul_right h ha) hd, ?_⟩
  simp only [length_append, length_cons]
  omega

/-- what the inner scan says of a text: nothing, or that it is cut into elements whose groups' sizes it has recorded -/
def InnerSeen (isMapping index : Bool) (m : Mem) (size depth : ℕ) (st : Sizes) (r : Scan) : Prop :=
  (∃ st', r = .fail st') ∨ ∃ l c m' st1, r = .ok m' (record depth (size + l.length) st1) ∧ Cut isMapping index m l c m' ∧
    Recorded st st1 (itemsSizes l)

theorem InnerSeen.cons (index : Bool) {depth : ℕ} {r : Scan} (hn : n.Lexed (delimOf isMapping index))
    (hst : Recorded st st1 n.sizes) (h : InnerSeen isMapping (nextIndex isMapping index) m (size + 1) depth st1 r) :
    InnerSeen isMapping index (n.render ++ delimOf isMapping index :: m) size depth st r := by
  rcases h with hf | ⟨l, c, m', st2, rfl, hcut, hrec⟩
  · exact .inl hf
  · refine .inr ⟨n :: l, c, m', st2, ?_, hcut.cons index hn, hst.trans hrec⟩
    rw [length_cons, add_assoc, add_comm 1]

section

variable {R : Type} {fail : Sizes → R} {Seen : Bool → Mem → ℕ → Sizes → R → Prop} (hreads : Reads isMapping fail Seen)
include hreads

/-- behind an element the delimiter has to come -/
theorem Reads.behind {e : Byte} {r : R} (hlex : n.Lexed (delimOf isMapping index)) (hrec : Recorded st st1 n.sizes)
    (hnul : nul ∈ e :: m) (h : nul ∈ m → Seen (nextIndex isMapping index) m (size + 1) st1 r) :
    Seen index (n.render ++ e :: m) size st (if e = delimOf isMapping index then r else fail st1) := by
  split_ifs with he
  · subst he
    exact hreads.cons hlex hrec (h (nul_tail hnul (delimOf_ne_nul _ _)))
  · exact hreads.failed st1

theorem Reads.string {e : Byte} {r : R} (hraw : Escaped raw) (hnul : nul ∈ e :: m)
    (h : nul ∈ m → Seen (nextIndex isMapping index) m (size + 1) st r) :
    Seen index (quote :: (raw ++ quote :: e :: m)) size st (if e = delimOf isMapping index then r else fail st) := by
  simpa [Node.render] using hreads.behind (n := .quoted raw) hraw (refl st) hnul h

/-- a group inside: the inner scan has cut it, and the delimiter has to come -/
theorem Reads.group {r : Scan} {fault : R} (ho : o = lbrace ∨ o = lbracket ∨ o = slash) (hm : nul ∈ m)
    (hin : InnerSeen (o == lbracket) false m 0 st.depth { st with depth := st.depth + 1 } r) (next : Mem → Sizes → R)
    (h : ∀ m' st', nul ∈ m' → m'.length < m.length → Seen (nextIndex isMapping index) m' (size + 1) st' (next m' st')) :
    Seen index (lparen :: o :: m) size st (match r with
      | .ok [] _ => fault
      | .ok (e :: m') st' => if e = delimOf isMapping index then next m' st' else fail st'
      | .fail st' => fail st'
      | .fault => fault) := by
  rcases hin with ⟨st2, rfl⟩ | ⟨l, c, m', st1, rfl, ⟨hlex, hc, rfl⟩, hrec⟩
  · exact hreads.failed st2
  · have hclose := nul_tail (nul_right hm (items_nul hlex)) (by rcases hc.2 with rfl | rfl | rfl <;> decide)
    have hnul := nul_tail hclose (by decide)
    cases m' with
    | nil => cases hnul
    | cons e m' =>
      have := hreads.behind (n := .group o c l) ⟨opens_of_closes ho hc, hlex⟩ hrec.close hnul
        fun hm' => h m' _ hm' (by simp only [length_append, length_cons]; omega)
      simpa [Node.render] using this

end

theorem innerReads (isMapping : Bool) (depth : ℕ) : Reads isMapping Scan.fail fun index m size st r =>
    InnerSeen isMapping index m size depth st r :=
  ⟨fun st' => .inl ⟨st', rfl⟩, fun hn hst h => h.cons _ hn hst⟩

/-- **The inner scan cuts the text into elements.** -/
theorem internal_spec (isMapping index : Bool) (size depth : ℕ) (st : Sizes) (hnul : nul ∈ m) (hf : m.length < fuel) :
    InnerSeen isMapping index m size depth st (restoreInternalSize fuel m isMapping index size depth st) := by
  induction fuel generalizing m isMapping index size depth st with
  | zero => omega
  | succ fuel ih =>
    have hreads := innerReads isMapping depth
    cases m with
    | nil => cases hnul
    | cons c m =>
      rw [restoreInternalSize.eq_def]
      dsimp only
      rw [show (if isMapping = true then !index else index) = nextIndex isMapping index from rfl]
      by_cases hn : c = nul
      · rw [if_pos hn]
        exact hreads.failed st
      rw [if_neg hn]
      have hm := nul_tail hnul hn
      by_cases hq : c = quote
      · subst hq
        rw [if_pos rfl]
        rcases skipString_spec hm with hs | ⟨raw, m', hs, hraw, rfl⟩
        · rw [hs]
          exact hreads.failed st
        · have hm' := string_rest hraw hm
          rw [hs]
          cases m' with
          | nil => cases hm'
          | cons e m' =>
            simp only [length_append, length_cons] at hf
            exact hreads.string hraw hm' fun h => ih _ _ _ _ _ h (by omega)
      rw [if_neg hq]
      by_cases hp : c = lparen
      · subst hp
        rw [if_pos rfl]
        cases m with
        | nil => cases hm
        | cons d m =>
          dsimp only
          split_ifs with hd
          · have hm1 := nul_tail hm (by rcases hd with rfl | rfl | rfl <;> decide)
            simp only [length_cons] at hf
            exact hreads.group hd hm1 (ih _ _ _ _ _ hm1 (by omega))
              (restoreInternalSize fuel · isMapping (nextIndex isMapping index) (size + 1) depth ·)
              fun m' st' hm' hlen => ih _ _ _ _ _ hm' (by omega)
          · exact hreads.failed st
      rw [if_neg hp]
      by_cases hcl : c = rbracket ∨ c = slash ∨ c = rbrace
      · cases m with
        | nil => cases hm
        | cons e m1 =>
          dsimp only
          split_ifs with he
          · refine .inr ⟨[], c, m1, st, rfl, ⟨trivial, ⟨he.2, hcl⟩, ?_⟩, refl st⟩
            rw [he.1]
            rfl
          · exact hreads.failed st
      rw [if_neg hcl]
      by_cases hdl : c = colon ∨ c = comma
      · rw [if_pos hdl]
        exact hreads.behind (n := .missing) trivial (refl st) hnul fun h => ih _ _ _ _ _ h (Nat.lt_of_succ_lt_succ hf)
      rw [if_neg hdl]
      rcases strchr_spec (delimOf isMapping index) hm with hs | ⟨t, m', hs, ht, rfl⟩
      · rw [hs]
        exact hreads.failed st
      · obtain ⟨hm', hlen⟩ := element_rest (fun h => (ht nul h).2 rfl) (delimOf_ne_nul _ _) hm
        have hlex := lexed_plain isMapping index (special_iff_not hn hq hp hcl hdl) ht
        rw [hs]
        exact hreads.cons hlex (refl st) (ih _ _ _ _ _ hm' (by rw [length_cons] at hf; omega))

/-- a character that `mblen` steps over: a first byte, and bytes above ASCII behind it -/
theorem mblen_some {span : ℕ} (h : mblen (c :: m) = some span) (hc : c ≠ nul) :
    ∃ t, m = t ++ (c :: m).drop span ∧ span = t.length + 1 ∧ (∀ x ∈ t, 128 ≤ x.toNat) ∧ (c.toNat < 128 → t = []) := by
  rw [mblen] at h
  simp only [if_neg hc, Option.map_eq_some_iff] at h
  obtain ⟨ch, hdec, rfl⟩ := h
  obtain ⟨r, hr⟩ := ByteArray.exists_of_utf8DecodeChar?_eq_some hdec
  have htake : (c :: m).take 4 = String.utf8EncodeChar ch ++ r.data.toList := by
    have := congrArg (fun b => b.data.toList) hr
    simpa using this
  have hlen : (String.utf8EncodeChar ch).length = ch.utf8Size := String.length_utf8EncodeChar ch
  have hsplit : c :: m = String.utf8EncodeChar ch ++ (c :: m).drop ch.utf8Size := by
    have hpre : String.utf8EncodeChar ch <+: c :: m :=
      (prefix_append _ _).trans (htake ▸ take_prefix 4 (c :: m))
    have := prefix_iff_eq_append.1 hpre
    rw [hlen] at this
    exact this.symm
  obtain ⟨e, t, henc⟩ := exists_cons_of_ne_nil (String.utf8EncodeChar_ne_nil (c := ch))
  rw [henc] at hsplit hlen
  obtain ⟨rfl, hm⟩ := cons.inj hsplit
  refine ⟨t, hm, hlen.symm, ?_⟩
  by_cases hlow : ch.toNat < 128
  · rw [encode_low hlow] at henc
    obtain ⟨-, rfl⟩ := cons.inj henc
    simp
  · have hhigh := encode_high (not_lt.1 hlow)
    rw [henc] at hhigh
    refine ⟨fun x hx => hhigh x (.tail _ hx), fun hlt => ?_⟩
    have := hhigh c (.head _)
    omega

theorem Escaped.append_high {r : List Byte} (ht : ∀ x ∈ t, 128 ≤ x.toNat) (hr : Escaped r) : Escaped (t ++ r) := by
  induction t with
  | nil => exact hr
  | cons c t ih =>
    obtain ⟨h0, h1, h2, -⟩ := high_ne (ht c (.head _))
    exact .char h1 h0 h2 (ih fun x hx => ht x (.tail _ hx))

/-- a string body that the text ends in -/
def OpenEnd (raw : List Byte) : Prop := Escaped raw ∨ ∃ r, Escaped r ∧ raw = r ++ [backslash]

/-- what the outermost scan says of a string: that a byte is no UTF-8, or that it ends at a quote, or with the text -/
def StringSeen (m : Mem) (r : ReadMb) : Prop :=
  r = .bad ∨ (∃ raw m', r = .ok m' ∧ Escaped raw ∧ m = raw ++ quote :: m') ∨
    (r = .ended ∧ ∃ raw r, OpenEnd raw ∧ m = raw ++ nul :: r)

theorem StringSeen.prepend {r : ReadMb} (ha : ∀ raw, Escaped raw → Escaped (a ++ raw)) (h : StringSeen m r) :
    StringSeen (a ++ m) r := by
  rcases h with hs | ⟨raw, m', hs, hraw, rfl⟩ | ⟨hs, raw, r', hraw, rfl⟩
  · exact .inl hs
  · exact .inr (.inl ⟨a ++ raw, m', hs, ha raw hraw, (append_assoc ..).symm⟩)
  · refine .inr (.inr ⟨hs, a ++ raw, r', ?_, (append_assoc ..).symm⟩)
    rcases hraw with hraw | ⟨t, ht, rfl⟩
    · exact .inl (ha raw hraw)
    · exact .inr ⟨a ++ t, ha t ht, (append_assoc ..).symm⟩

theorem skipStringMb_spec (h : nul ∈ m) (hf : m.length < fuel) : StringSeen m (skipStringMb fuel m) := by
  induction fuel generalizing m with
  | zero => omega
  | succ fuel ih =>
    cases m with
    | nil => cases h
    | cons c m =>
      rw [length_cons] at hf
      rw [skipStringMb]
      by_cases hq : c = quote
      · rw [if_pos hq]
        exact .inr (.inl ⟨[], m, rfl, .nil, by rw [hq]; rfl⟩)
      rw [if_neg hq]
      cases hmb : mblen (c :: m) with
      | none => exact .inl rfl
      | some span =>
        dsimp only
        by_cases hn : c = nul
        · rw [if_pos hn]
          exact .inr (.inr ⟨rfl, [], m, .inl .nil, by rw [hn]; rfl⟩)
        rw [if_neg hn]
        obtain ⟨t, hm, -, hhigh, hlow⟩ := mblen_some hmb hn
        by_cases hb : c = backslash
        · -- the backslash is one byte, and so is what it escapes
          obtain rfl : t = [] := hlow (by rw [hb]; decide)
          rw [nil_append] at hm
          rw [← hm]
          cases m with
          | nil => exact absurd (nul_tail h hn) (by simp)
          | cons d m =>
            dsimp only
            split_ifs with hd
            · refine .inr (.inr ⟨rfl, [backslash], m, .inr ⟨[], .nil, rfl⟩, ?_⟩)
              rw [hb, hd]
              rfl
            · rw [hb]
              simp only [length_cons] at hf
              exact (ih (nul_tail (nul_tail h hn) hd) (by omega)).prepend (a := [backslash, d]) fun _ => .escape hd
        · rw [if_neg hb]
          have hlen := congrArg length hm
          rw [length_append] at hlen
          have htail : nul ∈ (c :: m).drop span := by
            have := nul_tail h hn
            rw [hm] at this
            exact nul_right this fun hmem => (high_ne (hhigh nul hmem)).1 rfl
          have := (ih htail (by omega)).prepend (a := c :: t) fun _ hraw => .char hq hn hb (hraw.append_high hhigh)
          rwa [cons_append, ← hm] at this

/-- the text ends in a string that stands directly in the outermost list -/
def EndsOpen (isMapping index : Bool) (m : Mem) : Prop :=
  ∃ l raw r, LexedItems isMapping index l ∧ OpenEnd raw ∧ m = renderItems isMapping index l ++ quote :: raw ++ nul :: r

theorem EndsOpen.cons (index : Bool) (hn : n.Lexed (delimOf isMapping index))
    (h : EndsOpen isMapping (nextIndex isMapping index) m) :
    EndsOpen isMapping index (n.render ++ delimOf isMapping index :: m) := by
  obtain ⟨l, raw, r, hl, hraw, rfl⟩ := h
  refine ⟨n :: l, raw, r, ⟨hn, hl⟩, hraw, ?_⟩
  simp [renderItems]

/-- what the outermost scan says of a text: nothing, that it is cut into elements, or that it ends in a string -/
def OuterSeen (isMapping index : Bool) (m : Mem) (size : ℕ) (st : Sizes) (r : Sized) : Prop :=
  (∃ st', r = .bad st') ∨
  (∃ l c m' st1, r = .size (size + l.length) { st1 with depth := 0 } ∧ Cut isMapping index m l c m' ∧
    Recorded st st1 (itemsSizes l)) ∨
  ((∃ st', r = .size 0 st') ∧ EndsOpen isMapping index m)

theorem OuterSeen.cons (index : Bool) {r : Sized} (hn : n.Lexed (delimOf isMapping index))
    (hst : Recorded st st1 n.sizes) (h : OuterSeen isMapping (nextIndex isMapping index) m (size + 1) st1 r) :
    OuterSeen isMapping index (n.render ++ delimOf isMapping index :: m) size st r := by
  rcases h with hf | ⟨l, c, m', st2, rfl, hcut, hrec⟩ | ⟨hr, hend⟩
  · exact .inl hf
  · refine .inr (.inl ⟨n :: l, c, m', st2, ?_, hcut.cons index hn, hst.trans hrec⟩)
    rw [length_cons, add_assoc, add_comm 1]
  · exact .inr (.inr ⟨hr, hend.cons index hn⟩)

theorem outerReads (isMapping : Bool) : Reads isMapping Sized.bad (OuterSeen isMapping) :=
  ⟨fun st' => .inl ⟨st', rfl⟩, fun hn hst h => h.cons _ hn hst⟩

/-- **The outermost scan cuts the text into elements**, unless the text ends in a string. -/
theorem outer_spec (isMapping index : Bool) (size : ℕ) (st : Sizes) (hnul : nul ∈ m)
    (hf : m.length < fuel) : OuterSeen isMapping index m size st (restoreSize fuel m isMapping index size st) := by
  have hreads := outerReads isMapping
  induction fuel generalizing m index size st with
  | zero => omega
  | succ fuel ih =>
    cases m with
    | nil => cases hnul
    | cons c m =>
      rw [restoreSize.eq_def]
      dsimp only
      rw [show (if isMapping = true then !index else index) = nextIndex isMapping index from rfl]
      by_cases hn : c = nul
      · rw [if_pos hn]
        exact hreads.failed st
      rw [if_neg hn]
      have hm := nul_tail hnul hn
      cases hmb : mblen (c :: m) with
      | none => exact hreads.failed st
      | some span =>
        dsimp only
        obtain ⟨t, hsplit, -, hhigh, hlow⟩ := mblen_some hmb hn
        have hone : c.toNat < 128 → (c :: m).drop span = m := by
          intro hc
          rw [hlow hc] at hsplit
          exact hsplit.symm
        by_cases hq : c = quote
        · subst hq
          rw [if_pos rfl, hone (by decide)]
          rcases skipStringMb_spec hm (lt_add_one _) with hs | ⟨raw, m', hs, hraw, rfl⟩ | ⟨hs, raw, r, hraw, rfl⟩
          · rw [hs]
            exact hreads.failed st
          · have hm' := string_rest hraw hm
            rw [hs]
            cases m' with
            | nil => cases hm'
            | cons e m' =>
              simp only [length_append, length_cons] at hf
              exact hreads.string hraw hm' fun h => ih _ _ _ h (by omega)
          · rw [hs]
            exact .inr (.inr ⟨⟨st, rfl⟩, [], raw, r, trivial, hraw, rfl⟩)
        rw [if_neg hq]
        by_cases hp : c = lparen
        · subst hp
          rw [if_pos rfl, hone (by decide)]
          cases m with
          | nil => cases hm
          | cons d m =>
            dsimp only
            split_ifs with hd
            · have hm1 := nul_tail hm (by rcases hd with rfl | rfl | rfl <;> decide)
              simp only [length_cons] at hf
              exact hreads.group hd hm1 (internal_spec _ _ _ _ _ hm1 (lt_add_one _))
                (restoreSize fuel · isMapping (nextIndex isMapping index) (size + 1) ·)
                fun m' st' hm' hlen => ih _ _ _ hm' (by omega)
            · exact hreads.failed st
        rw [if_neg hp]
        by_cases hcl : c = rbracket ∨ c = slash ∨ c = rbrace
        · rw [if_pos hcl, hone (by rcases hcl with rfl | rfl | rfl <;> decide)]
          cases m with
          | nil => cases hm
          | cons e m1 =>
            dsimp only
            split_ifs with he
            · refine .inr (.inl ⟨[], c, m1, st, rfl, ⟨trivial, ⟨he.2, hcl⟩, ?_⟩, refl st⟩)
              rw [he.1]
              rfl
            · exact hreads.failed _
        rw [if_neg hcl]
        by_cases hdl : c = colon ∨ c = comma
        · rw [if_pos hdl, hone (by rcases hdl with rfl | rfl <;> decide)]
          exact hreads.behind (n := .missing) trivial (refl st) hnul fun h => ih _ _ _ h (Nat.lt_of_succ_lt_succ hf)
        rw [if_neg hdl]
        have htail : nul ∈ (c :: m).drop span := by
          rw [hsplit] at hm
          exact nul_right hm fun hmem => (high_ne (hhigh nul hmem)).1 rfl
        rcases strchr_spec (delimOf isMapping index) htail with hs | ⟨t2, m', hs, ht2, hd⟩
        · rw [hs]
          exact hreads.failed st
        · rw [hd, ← append_assoc] at hsplit
          have hall : ∀ x ∈ t ++ t2, x ≠ delimOf isMapping index ∧ x ≠ nul := by
            intro x hx
            rcases mem_append.1 hx with hx | hx
            · have hxh := hhigh x hx
              refine ⟨fun h => ?_, (high_ne hxh).1⟩
              have := (delimOf_spec isMapping index).2.1
              rw [h] at hxh
              omega
            · exact ht2 x hx
          have hlex := lexed_plain isMapping index (special_iff_not hn hq hp hcl hdl) hall
          rw [hs]
          rw [hsplit] at hm hf ⊢
          obtain ⟨hm', hlen⟩ := element_rest (fun h => (hall nul h).2 rfl) (delimOf_ne_nul _ _) hm
          exact hreads.cons hlex (refl st) (ih _ _ _ hm' (by rw [length_cons] at hf; omega))

end Lithos.Lpc.Save
