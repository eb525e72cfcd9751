/-
Malformed text: what `safe_restore_svalue` does with bytes that `save_svalue` could not have written.

A text is well formed when it is an element (`Node`) whose plain parts are numerals, whose mappings have a value for every
key and whose brackets match. The parser checks less: it never looks at the closing brackets, nor behind the outermost one,
and trusts the sizing pass, whose failures and early ends its callers mistake for success.

Results:
- `malformed_rejected`: a text that is not well formed gives an error code, and the target keeps its value, exactly when
  it is of none of five kinds that are taken for a value and does not come to a container above the limits. Left out are
  texts in which the parser loses step, and containers after an LPC error that has left the depth above 0.
- `openString_accepted`: an array cut off inside a string is taken for an empty array.
-/
import Lithos.Lpc.Save.SizeAgreement

namespace Lithos.Lpc.Save

open List

open Node

variable {ρ : Type} [Double ρ] {env : Env} {m : Mem} {t : List Byte} {c o : Byte}

/-- a complete saved value -/
def WellFormed (t : List Byte) : Prop :=
  ∃ n : Node, n ≠ .missing ∧ n.Lexed comma ∧ n.Readable ∧ n.Closed ∧ t = n.render

/-- nothing a value can start with: the default branch takes it for zero -/
def Stray (t : List Byte) : Prop :=
  ∀ c t', t = c :: t' → c ≠ quote ∧ c ≠ lparen ∧ ¬ (c = minus ∨ isDigit c = true)

/-- a mapping whose sizing fails: `restore_mapping` returns 0, which its caller takes for success -/
def Unsized (slots : List ℕ) (t rest : List Byte) : Prop :=
  ∃ m st, t = lparen :: lbracket :: m ∧ sizing slots lbracket (m ++ nul :: rest) = .bad st

/-- a container that ends inside one of its strings: the sizing pass returns 0, which its callers take for no elements -/
def EndsInString (slots : List ℕ) (t rest : List Byte) : Prop :=
  ∃ o m st, t = lparen :: o :: m ∧ Opening o ∧ EndsOpen (o == lbracket) false (m ++ nul :: rest) ∧
    sizing slots o (m ++ nul :: rest) = .size 0 st

/-- the sizing pass takes the text for the container `o`, `l`, `c`, and `tail` for what follows it -/
structure SizedAs (slots : List ℕ) (t rest : List Byte) (o c : Byte) (l : List Node) (tail : List Byte) : Prop where
  text : t = (Node.group o c l).render ++ tail
  lexed : (Node.group o c l).Lexed comma
  sized : ∃ st, sizing slots o (renderItems (o == lbracket) false l ++ c :: rparen :: (tail ++ nul :: rest)) =
    .size l.length { st with depth := 0 } ∧ Recorded ⟨0, slots⟩ st (itemsSizes l)

/-- a container with its elements in order, but with text behind it or closed by another kind's bracket: nobody looks -/
def Loose (slots : List ℕ) (t rest : List Byte) : Prop :=
  ∃ o c l tail, SizedAs slots t rest o c l tail ∧ (Node.group o c l).Readable ∧
    (tail ≠ [] ∨ ¬ (Node.group o c l).Closed)

/-- a container that, read in order, comes to a numeral with text before its delimiter: the parser goes on behind the
numeral and one byte, the sizing pass had gone on behind the delimiter -/
def LosesStep (slots : List ℕ) (t rest : List Byte) : Prop :=
  ∃ o c l tail, SizedAs slots t rest o c l tail ∧ (Node.group o c l).Lost

/-- a container that, read in order, comes to one above the limits before anything that is not readable -/
def Limited (ρ : Type) [Double ρ] (env : Env) (slots : List ℕ) (t rest : List Byte) : Prop :=
  ∃ o c l tail e, SizedAs slots t rest o c l tail ∧ (Node.group o c l).read (ρ := ρ) env .array 0 = .error e ∧
    e.IsLpcError

/-- a container that is not sized, since an earlier LPC error has left the depth above 0 -/
def Stale (entry : Sizes) (t : List Byte) : Prop := entry.depth ≠ 0 ∧ ∃ o m, t = lparen :: o :: m ∧ Opening o

/-- the texts that are taken for a value, or end in an LPC error, whatever stands in them -/
def Accepted (slots : List ℕ) (t rest : List Byte) : Prop :=
  Stray t ∨ Overruns t ∨ Unsized slots t rest ∨ EndsInString slots t rest ∨ Loose slots t rest

variable (env) (slots : List ℕ)

theorem unquote_spec (h : nul ∈ m) : unquoteAndUnescapeString m = .error (.rob .string) ∨
    ∃ s raw m', unquoteAndUnescapeString m = .ok (s, m') ∧ Escaped raw ∧ m = raw ++ quote :: m' := by
  fun_induction unquoteAndUnescapeString m with
  | case1 => cases h
  | case2 m => exact .inr ⟨[], [], m, rfl, .nil, rfl⟩
  | case3 | case5 => exact .inl rfl
  | case4 => exact absurd h (by decide)
  | case6 d m hd hq hn ih =>
    rcases ih (nul_tail (nul_tail h (by decide)) hd) with he | ⟨s, raw, m', hs, hraw, rfl⟩
    · exact .inl (by rw [he]; rfl)
    · exact .inr ⟨unCr d :: s, backslash :: d :: raw, m', by rw [hs]; rfl, .escape hd hraw, rfl⟩
  | case7 c m hq hn hb ih =>
    rcases ih (nul_tail h hn) with he | ⟨s, raw, m', hs, hraw, rfl⟩
    · exact .inl (by rw [he]; rfl)
    · exact .inr ⟨unCr c :: s, c :: raw, m', by rw [hs]; rfl, .char hq hn hb hraw, rfl⟩

variable {st : Sizes} {rest : List Byte}

/-- a string as the whole text -/
theorem restoreString_spec (rest : List Byte) (ht : nul ∉ t) :
    restoreString (t ++ nul :: rest) = .error (.rob .string) ∨ WellFormed (quote :: t) := by
  unfold restoreString
  rcases unquote_spec (m := t ++ nul :: rest) (by simp) with he | ⟨s, raw, m', hs, hraw, hm⟩
  · exact .inl (by rw [he]; rfl)
  · obtain ⟨tail, rfl, rfl⟩ :=
      rest_of_text (d := nul) (a := raw ++ [quote]) (by simp [hraw.nul_notMem]; decide) (by simpa using hm)
    rw [hs]
    cases tail with
    | nil =>
      refine .inr ⟨.quoted raw, by simp, hraw, trivial, trivial, ?_⟩
      rw [render]
      simp
    | cons c tail =>
      have hc : c ≠ nul := fun h => ht (by simp [h])
      exact .inl (by simp only [cons_append, bind_ok, next_cons, if_pos hc])

/-- a number as the whole text -/
theorem numeral_cases (hc : c = minus ∨ isDigit c = true) (rest : List Byte) (ht : nul ∉ c :: t) :
    parseNumeric (ρ := ρ) c (t ++ nul :: rest) = .error (.rob .numeral) ∨ WellFormed (c :: t) ∨ Overruns (c :: t) := by
  rcases parseNumeric_spec (ρ := ρ) hc (.inr (.inr rfl)) (m := t ++ nul :: rest) (by simp) with
    he | ⟨w, num, x, m', -, hsplit, hnum⟩
  · exact .inl he
  · rcases numeral_cut (t := c :: t) hnum (.inr (.inr rfl)) hsplit.symm with ⟨rfl, -⟩ | hover
    · have hspecial : ¬ Special c := by
        rintro (rfl | rfl | rfl | rfl | rfl | rfl | rfl | rfl) <;> exact absurd hc (by decide)
      refine .inr (.inl ⟨.plain (c :: t), by simp, ⟨⟨c, t, rfl, hspecial⟩, fun y hy => ⟨?_, ?_⟩⟩, hnum.numeral, trivial, rfl⟩)
      · exact (Delim.ne (.inl rfl) (numeral_bytes hnum y hy)).symm
      · rintro rfl
        exact ht hy
    · exact .inr (.inr hover)

/-- a text that goes on behind a numeral is taken for that numeral -/
theorem Overruns.reads (h : Overruns t) (rest : Mem) :
    ∃ (c : Byte) (t' : List Byte) (w : Svalue ρ × Mem), t = c :: t' ∧ (c = minus ∨ isDigit c = true) ∧
      parseNumeric c (t' ++ rest) = .ok w := by
  obtain ⟨num, x, r, rfl, hnum⟩ := h
  cases num with
  | nil => exact absurd rfl hnum.ne_nil
  | cons c num =>
    obtain ⟨w, hw⟩ := parseNumeric_reads (ρ := ρ) hnum
    exact ⟨c, num ++ x :: r, _, rfl, numeral_head hnum, by simpa using hw (r ++ rest)⟩

theorem restoreOutermost_bad (h : sizing slots o m = .bad st) : restoreOutermost (ρ := ρ) env ⟨0, slots⟩ o m =
      if o = lbracket then .ok (none, st) else .error (.rob (if o = lbrace then .array else .class_)) := by
  rw [restoreOutermost, if_neg (by simp), show restoreSize (m.length + 1) m (o == lbracket) false 0 ⟨0, slots⟩ = _ from h]

variable {slots} in
theorem opening_of_sized {l : List Node} {tail : List Byte} (h : SizedAs slots t rest o c l tail) : Opening o := by
  rcases h.lexed.1 with ⟨h, -⟩ | ⟨h | h, -⟩
  · exact .inr (.inl h)
  · exact .inl h
  · exact .inr (.inr h)

/-- a container whose text the two passes cut alike is read as its elements say, unless the parser loses step -/
theorem SizedAs.restored {m : List Byte} {l : List Node} {tail : List Byte}
    (h : SizedAs slots (lparen :: o :: m) rest o c l tail)
    (hstep : (group o c l).read (ρ := ρ) env .array 0 ≠ .error .fault) :
    ∃ f, restoreOutermost (ρ := ρ) env ⟨0, slots⟩ o (m ++ nul :: rest) =
      ((group o c l).read (ρ := ρ) env .array 0).map f := by
  obtain ⟨htext, hlex, st, hsize, hrec⟩ := h
  have hm : m ++ nul :: rest = renderItems (o == lbracket) false l ++ c :: rparen :: (tail ++ nul :: rest) := by
    rw [render] at htext
    simp only [cons_append, append_assoc, List.cons.injEq, true_and, nil_append] at htext
    rw [htext]
    simp
  rw [hm]
  exact ⟨_, restoreOutermost_group env slots hlex hstep hsize hrec⟩

theorem SizedAs.verdict {l : List Node} {tail : List Byte} (h : SizedAs slots t rest o c l tail) :
    Verdict (group o c l).Readable (group o c l).Lost ((group o c l).read (ρ := ρ) env .array 0) :=
  read_verdict _ .array 0 h.lexed

/-- a container as the whole text -/
theorem container_cases (ho : Opening o) {m : List Byte} (rest : List Byte) (hm : nul ∉ m) :
    (∃ code, restoreOutermost (ρ := ρ) env ⟨0, slots⟩ o (m ++ nul :: rest) = .error (.rob code)) ∨
      WellFormed (lparen :: o :: m) ∨ Accepted slots (lparen :: o :: m) rest ∨
        Limited ρ env slots (lparen :: o :: m) rest ∨ LosesStep slots (lparen :: o :: m) rest := by
  rcases outer_spec (o == lbracket) false 0 ⟨0, slots⟩ (m := m ++ nul :: rest) (by simp) (Nat.lt_succ_self _) with
    ⟨st, hbad⟩ | ⟨l, c, m', st, hsize, ⟨hlex, hclose, hcut⟩, hrec⟩ | ⟨⟨st, hsize⟩, hend⟩
  · by_cases hb : o = lbracket
    · subst hb
      exact .inr (.inr (.inl (.inr (.inr (.inl ⟨m, st, rfl, hbad⟩)))))
    · exact .inl ⟨_, by rw [restoreOutermost_bad env slots hbad, if_neg hb]⟩
  · have hopens := opens_of_closes ho hclose
    obtain ⟨tail, rfl, rfl⟩ := rest_of_text (a := renderItems (o == lbracket) false l ++ [c, rparen]) (m := m') (by
      simp only [mem_append, mem_cons, not_mem_nil, or_false, not_or]
      exact ⟨items_nul hlex, hopens.ne_nul.2.symm, by decide⟩) (by rw [hcut]; simp)
    have hsized : SizedAs slots (lparen :: o :: (renderItems (o == lbracket) false l ++ [c, rparen] ++ tail)) rest o c l
        tail := by
      refine ⟨by rfl, ⟨hopens, hlex⟩, st, ?_, hrec⟩
      rw [← hcut, sizing, hsize, zero_add]
    have hverdict := hsized.verdict (ρ := ρ) env slots
    cases hread : (group o c l).read (ρ := ρ) env .array 0 with
    | ok r =>
      rw [hread] at hverdict
      by_cases htail : tail = [] ∧ (group o c l).Closed
      · refine .inr (.inl ⟨.group o c l, by simp, ⟨hopens, hlex⟩, hverdict, htail.2, ?_⟩)
        rw [hsized.text, htail.1, append_nil]
      · have hloose := not_and_or.1 htail
        exact .inr (.inr (.inl (.inr (.inr (.inr (.inr ⟨o, c, l, tail, hsized, hverdict, hloose⟩))))))
    | error e =>
      rw [hread] at hverdict
      cases e with
      | fault => exact .inr (.inr (.inr (.inr ⟨o, c, l, tail, hsized, hverdict.1 rfl⟩)))
      | illegalArraySize | raised e => exact .inr (.inr (.inr (.inl ⟨o, c, l, tail, _, hsized, hread, trivial⟩)))
      | rob code =>
        obtain ⟨f, hf⟩ := hsized.restored (ρ := ρ) env slots (by rw [hread]; simp)
        exact .inl ⟨code, by rw [hf, hread]; rfl⟩
  · exact .inr (.inr (.inl (.inr (.inr (.inr (.inl ⟨o, m, st, rfl, ho, hend, hsize⟩))))))

variable (entry : Sizes)

/-- what can happen to a text -/
theorem restoreValue_cases (rest : List Byte) (ht : nul ∉ t) (hstale : ¬ Stale entry t) :
    (∃ code, restoreValue (ρ := ρ) env entry (t ++ nul :: rest) = .error (.rob code)) ∨ WellFormed t ∨
      Accepted entry.slots t rest ∨ Limited ρ env entry.slots t rest ∨ LosesStep entry.slots t rest := by
  cases t with
  | nil => exact .inr (.inr (.inl (.inl fun c t' h => absurd h (by simp))))
  | cons c t =>
    have htail : nul ∉ t := fun h => ht (.tail _ h)
    by_cases hopen : ∃ o m, c :: t = lparen :: o :: m ∧ Opening o
    · have hdepth : entry = ⟨0, entry.slots⟩ := by
        obtain ⟨depth, slots⟩ := entry
        obtain rfl : depth = 0 := by_contra fun h => hstale ⟨h, hopen⟩
        rfl
      obtain ⟨o, m, heq, ho⟩ := hopen
      rw [heq] at ht ⊢
      rw [cons_append, cons_append, restoreValue_opening env entry ho, hdepth]
      rcases container_cases (ρ := ρ) env entry.slots ho (m := m) rest (fun h => ht (by simp [h])) with ⟨code, hs⟩ | h
      · exact .inl ⟨code, by rw [hs]; rfl⟩
      · exact .inr h
    unfold restoreValue
    simp only [cons_append, next_cons, bind_ok]
    by_cases hq : c = quote
    · rw [if_pos hq]
      rcases restoreString_spec rest htail with hs | hwf
      · exact .inl ⟨.string, by rw [hs]; rfl⟩
      · exact .inr (.inl (hq ▸ hwf))
    rw [if_neg hq]
    by_cases hp : c = lparen
    · rw [hp]
      cases t with
      | nil => exact .inl ⟨.general, rfl⟩
      | cons o m =>
        simp only [cons_append, next_cons, bind_ok]
        have ho : ¬ (o = lbrace ∨ o = lbracket ∨ o = slash) := fun ho => hopen ⟨o, m, by rw [hp], ho⟩
        rw [if_neg ho]
        exact .inl ⟨.general, rfl⟩
    rw [if_neg hp]
    by_cases hnum : c = minus ∨ isDigit c = true
    · rw [if_pos hnum]
      rcases numeral_cases (ρ := ρ) hnum rest ht with he | hwf | hover
      · exact .inl ⟨.numeral, by rw [he]; rfl⟩
      · exact .inr (.inl hwf)
      · exact .inr (.inr (.inl (.inr (.inl hover))))
    · refine .inr (.inr (.inl (.inl fun c' t' h => ?_)))
      cases h
      exact ⟨hq, hp, hnum⟩

theorem Stray.taken (h : Stray t) (rest : Mem) :
    restoreValue (ρ := ρ) env entry (t ++ nul :: rest) = .ok (some (.number 0), entry) := by
  cases t with
  | nil => rfl
  | cons c t =>
    obtain ⟨h1, h2, h3⟩ := h c t rfl
    unfold restoreValue
    simp only [cons_append, next_cons, bind_ok]
    rw [if_neg h1, if_neg h2, if_neg h3]

theorem Overruns.taken (h : Overruns t) (rest : Mem) :
    ∃ w : Svalue ρ, restoreValue env entry (t ++ nul :: rest) = .ok (some w, entry) := by
  obtain ⟨c, t, w, rfl, hc, hw⟩ := h.reads (ρ := ρ) (nul :: rest)
  refine ⟨w.1, ?_⟩
  unfold restoreValue
  simp only [cons_append, next_cons, bind_ok]
  rw [if_neg (by rintro rfl; exact absurd hc (by decide)), if_neg (by rintro rfl; exact absurd hc (by decide)), if_pos hc, hw]
  rfl

theorem restoreBody_zero (nested : Nested ρ) (m : Mem) (st : St) : ∃ r, restoreBody env nested o 0 m st = .ok r := by
  unfold restoreBody
  by_cases h1 : o = lbracket
  · rw [if_pos h1]
    exact ⟨_, rfl⟩
  · by_cases h2 : o = lbrace <;> exact ⟨_, by rw [if_neg h1]; first | rw [if_pos h2]; rfl | rw [if_neg h2]; rfl⟩

/-- a container whose elements are readable, or come to one above the limits, never gives an error code -/
theorem SizedAs.not_coded {l : List Node} {tail : List Byte} (h : SizedAs slots t rest o c l tail)
    (hcode : ∀ e, (group o c l).read (ρ := ρ) env .array 0 = .error e → e.IsLpcError) (code : Rob) :
    restoreValue (ρ := ρ) env ⟨0, slots⟩ (t ++ nul :: rest) ≠ .error (.rob code) := by
  have ho := opening_of_sized h
  obtain rfl : t = lparen :: o :: (renderItems (o == lbracket) false l ++ [c, rparen] ++ tail) := by
    rw [h.text]
    rfl
  obtain ⟨f, hf⟩ := h.restored (ρ := ρ) env slots fun hfault => hcode _ hfault
  rw [cons_append, cons_append, restoreValue_opening env _ ho, hf]
  cases hread : (group o c l).read (ρ := ρ) env .array 0 with
  | ok r => simp [Except.map]
  | error e =>
    rintro heq
    obtain rfl : e = .rob code := by simpa [Except.map] using heq
    exact hcode _ hread

/-- an accepted text never gives an error code -/
theorem Accepted.not_coded (h : Accepted entry.slots t rest) (hstale : ¬ Stale entry t) (code : Rob) :
    restoreValue (ρ := ρ) env entry (t ++ nul :: rest) ≠ .error (.rob code) := by
  obtain ⟨depth, slots⟩ := entry
  have hdepth : ∀ {o m}, t = lparen :: o :: m → Opening o → depth = 0 :=
    fun heq ho => by_contra fun h => hstale ⟨h, _, _, heq, ho⟩
  rcases h with h | h | ⟨m, st, rfl, hbad⟩ | ⟨o, m, st, rfl, ho, -, hsize⟩ | ⟨o, c, l, tail, hsized, hread, -⟩
  · rw [h.taken env _]
    simp
  · obtain ⟨w, hw⟩ := h.taken (ρ := ρ) env ⟨depth, slots⟩ rest
    rw [hw]
    simp
  · obtain rfl := hdepth rfl (.inr (.inl rfl))
    rw [cons_append, cons_append, restoreValue_opening env _ (.inr (.inl rfl)),
      restoreOutermost_bad env slots hbad, if_pos rfl]
    simp [Except.map]
  · obtain rfl := hdepth rfl ho
    obtain ⟨r, hr⟩ := restoreBody_zero (ρ := ρ) env (restoreContainer env ((m ++ nul :: rest).length + 1))
      (m ++ nul :: rest) ⟨st, 0⟩
    rw [cons_append, cons_append, restoreValue_opening env _ ho, restoreOutermost_sized env slots hsize, hr]
    simp [Except.map]
  · obtain rfl := hdepth hsized.text (opening_of_sized hsized)
    refine hsized.not_coded env slots (fun e he => ?_) code
    have hverdict := hsized.verdict (ρ := ρ) env slots
    rw [he] at hverdict
    exact hverdict.2 hread

/-- **Malformed text is rejected.** A text that is no complete saved value gives an error code and the target keeps its
value exactly when it is not one of the accepted kinds and does not come to a container above the limits. Not said of
texts in which the parser loses step, and of containers that are not sized. -/
theorem malformed_rejected {t rest : List Byte} (ht : nul ∉ t) (target : Svalue ρ) (hwf : ¬ WellFormed t)
    (hstale : ¬ Stale entry t) (hstep : ¬ LosesStep entry.slots t rest) :
    (∃ code, safeRestoreSvalue env entry (t ++ nul :: rest) target = (.error (.rob code), target)) ↔
      ¬ Accepted entry.slots t rest ∧ ¬ Limited ρ env entry.slots t rest := by
  have hcoded : (∃ code, safeRestoreSvalue env entry (t ++ nul :: rest) target = (.error (.rob code), target)) ↔
      ∃ code, restoreValue (ρ := ρ) env entry (t ++ nul :: rest) = .error (.rob code) := by
    refine exists_congr fun code => ?_
    unfold safeRestoreSvalue
    cases restoreValue (ρ := ρ) env entry (t ++ nul :: rest) <;> simp
  rw [hcoded]
  constructor
  · rintro ⟨code, hv⟩
    refine ⟨fun hacc => hacc.not_coded env entry hstale code hv, ?_⟩
    rintro ⟨o, c, l, tail, e, hsized, hread, he⟩
    obtain ⟨depth, slots⟩ := entry
    obtain rfl : depth = 0 := by_contra fun h => hstale ⟨h, _, _, hsized.text, opening_of_sized hsized⟩
    exact hsized.not_coded env slots (fun e' he' => by cases hread.symm.trans he'; exact he) code hv
  · rintro ⟨hacc, hlim⟩
    rcases restoreValue_cases (ρ := ρ) env entry rest ht hstale with hv | h | h | h | h
    · exact hv
    · exact absurd h hwf
    · exact absurd h hacc
    · exact absurd h hlim
    · exact absurd h hstep

theorem WellFormed.last (h : WellFormed (lparen :: t)) : (lparen :: t).getLast? = some rparen := by
  obtain ⟨n, hne, hlex, -, -, ht⟩ := h
  cases n with
  | missing => exact absurd rfl hne
  | quoted raw => exact absurd (cons.inj (ht.trans (by rfl))).1 (by decide)
  | plain t =>
    obtain ⟨⟨c, t', rfl, hc⟩, -⟩ := hlex
    exact absurd (cons.inj ht).1.symm (fun h => hc (by simp [Special, h]))
  | group o c l =>
    rw [ht, render]
    simp [getLast?_cons, getLast?_append]

/-- an array whose closing bracket is missing -/
def openArray : List Byte := [lparen, lbrace, 49, comma]

/-- an array of a string, cut off inside the string -/
def openString : List Byte := [lparen, lbrace, quote, 97]

theorem openArray_rejected : ∃ code,
    safeRestoreSvalue (ρ := ZeroReal) sampleEnv ⟨0, []⟩ (openArray ++ [nul]) (.number 7) =
      (.error (.rob code), .number 7) := by
  have hwf : ¬ WellFormed openArray := fun h => absurd h.last (by decide)
  -- no kind that the sizing pass lets through
  have hsized : ∀ o c l tail, ¬ SizedAs [] openArray [] o c l tail := by
    rintro o c l tail ⟨htext, -, st, hsize, -⟩
    obtain ⟨rfl, htext⟩ := cons.inj (cons.inj htext).2
    have hm : renderItems (lbrace == lbracket) false l ++ c :: rparen :: (tail ++ [nul]) = [49, comma, nul] := by
      simpa using (congrArg (· ++ [nul]) htext).symm
    rw [hm] at hsize
    cases hsize
  have hacc : ¬ Accepted [] openArray [] := by
    rintro (h | h | ⟨m, st, heq, -⟩ | ⟨o, m, st, heq, -, -, hsize⟩ | ⟨o, c, l, tail, h, -⟩)
    · exact (h lparen _ rfl).2.1 rfl
    · obtain ⟨num, x, r, heq, hnum⟩ := h
      cases num with
      | nil => exact absurd rfl hnum.ne_nil
      | cons c num =>
        obtain ⟨rfl, -⟩ := cons.inj heq
        exact absurd (numeral_head hnum) (by decide)
    · exact absurd (cons.inj (cons.inj heq).2).1 (by decide)
    · obtain ⟨rfl, rfl⟩ := cons.inj (cons.inj heq).2
      cases hsize
    · exact hsized o c l tail h
  have hlim : ¬ Limited ZeroReal sampleEnv [] openArray [] := fun ⟨o, c, l, tail, _, h, _⟩ => hsized o c l tail h
  exact (malformed_rejected sampleEnv ⟨0, []⟩ (by decide) (.number 7) hwf (fun h => h.1 rfl)
    fun ⟨o, c, l, tail, h, _⟩ => hsized o c l tail h).2 ⟨hacc, hlim⟩

theorem openString_accepted : ¬ WellFormed openString ∧
    safeRestoreSvalue (ρ := ZeroReal) sampleEnv ⟨0, []⟩ (openString ++ [nul]) (.number 7) = (.ok ⟨0, []⟩, .array []) :=
  ⟨fun h => absurd h.last (by decide), rfl⟩

end Lithos.Lpc.Save
