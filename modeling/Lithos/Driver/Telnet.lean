/-
The telnet filter: `copy_chars` in `comm.c`, which takes the bytes of a client to the text of its command buffer.

The state between two bytes, and so between two reads, is a mode (in data, behind a command byte, in a subnegotiation),
the flags and the buffer of the subnegotiation. A byte adds to the text and makes the driver answer the client or call
the object of the user (`Event`). The calls are taken not to change the mode or the flags of the filter.

What the filter is for is `filtered`, a function of the whole stream: commands are removed, a doubled IAC is one byte,
CR with LF or NUL is an end of line.

Results:
* `clean_iff_readRight`: the filter is right for exactly the streams without an offending byte, where it is in step with
  every part that has arrived.
* `bytes_lost`: a byte of data is lost behind a lone CR, and behind IAC AYT.
* `sbWrites_lt_iff`: the buffer of a subnegotiation is written inside its bounds unless SE comes when it is full.
-/
import Lithos.Lpc.Types

namespace Lithos.Driver.Telnet

open Lithos.Lpc List

/-! ## Bytes with a meaning -/

def iac : Byte := 255
def dont : Byte := 254
def «do» : Byte := 253
def wont : Byte := 252
def will : Byte := 251
def sb : Byte := 250
def ayt : Byte := 246
def ao : Byte := 245
def ip : Byte := 244
def «break» : Byte := 243
def dm : Byte := 242
def se : Byte := 240

def optSga : Byte := 3
def optTm : Byte := 6
def optTtype : Byte := 24
def optNaws : Byte := 31
def optLinemode : Byte := 34

def cr : Byte := 13
def lf : Byte := 10

/-- `SB_SIZE` -/
def sbSize : ℕ := 100

/-! ## The state of a user -/

/-- `TS_DATA` (with or without `TS_CR_SEEN`) and the other states -/
inductive Mode where
  | data (crSeen : Bool)
  | iac
  | will
  | wont
  | «do»
  | dont
  | sb
  | sbIac
  deriving DecidableEq, Repr

/-- what the driver does besides: it answers, flushes, or calls the object of the user -/
inductive Event where
  | addMessage (text : List Byte)
  | banner
  | flushMessage
  | terminalType (name : List Byte)
  | windowSize (width height : ℕ)
  | telnetSuboption (text : List Byte)
  deriving DecidableEq, Repr

structure Interactive where
  mode : Mode
  singleChar : Bool
  usingTelnet : Bool
  usingLinemode : Bool
  outOfBand : Bool
  sbPos : ℕ
  sbBuf : ℕ → Byte
  /-- the mode in `telnet_sb_lm_mode`, which all users share -/
  lmMode : Byte

/-- a user who has just connected, in line mode -/
def start : Interactive := ⟨.data false, false, false, false, false, 0, fun _ => 0, 4⟩

/-! ## Subnegotiations -/

/-- the buffer from an index on, as a C string -/
def cString (buf : ℕ → Byte) (start : ℕ) : List Byte :=
  (((range (sbSize + 1)).drop start).map buf).takeWhile (· ≠ 0)

/-- the answer to a triplet of local characters; none if it is passed over -/
def slcReply (func flags value : Byte) : Option (List Byte) :=
  if flags &&& 0x80 ≠ 0 then none
  else if 18 < func ∧ func < 128 then some [func, 0, value]
  else if flags &&& 3 = 3 then some [func, flags, 0]
  else if flags &&& 3 = 0 then none
  else if 32 ≤ value ∧ value ≠ 127 then some [func, 0, value]
  else some [func, flags ||| 0x80, value]

/-- the loop over the triplets, from index `j` on -/
def slcReplies (buf : ℕ → Byte) (pos j : ℕ) : List Event :=
  if j + 3 < pos then
    if buf j = 0 ∧ buf (j + 2) = 0 then []
    else match slcReply (buf j) (buf (j + 1)) (buf (j + 2)) with
      | none => slcReplies buf pos (j + 3)
      | some slc => .addMessage (slc.takeWhile (· ≠ 0)) :: slcReplies buf pos (j + 3)
  else []
termination_by pos - j

/-- what a finished subnegotiation makes the driver do -/
def subnegotiation (buf : ℕ → Byte) (pos : ℕ) (lmMode : Byte) : List Event :=
  if buf 0 = optTtype then
    if buf 1 ≠ 0 then [] else [.terminalType (cString buf 2)]
  else if buf 0 = optNaws then
    [.windowSize ((buf 1).toNat * 256 + (buf 2).toNat) ((buf 3).toNat * 256 + (buf 4).toNat)]
  else if buf 0 = optLinemode then
    if buf 1 = 1 then
      if buf 2 &&& 4 ≠ 0 then [] else [.addMessage [iac, sb, optLinemode, 1, lmMode, iac, se]]
    else if buf 1 = 3 then
      .addMessage [iac, sb, optLinemode, 3] :: slcReplies buf pos 2 ++ [.addMessage [iac, se]]
    else []
  else [.telnetSuboption (cString buf 0)]

/-! ## `copy_chars` -/

/-- one byte in data -/
def stepData (u : Interactive) (crSeen : Bool) (b : Byte) : Interactive × List Byte × List Event :=
  if b = iac then ({ u with mode := .iac }, [], [])
  else if b = cr then ({ u with mode := .data true }, if u.singleChar then [b] else [], [])
  else if crSeen = false ∨ u.singleChar then ({ u with mode := .data false }, [b], [])
  else if b = lf ∨ b = 0 then ({ u with mode := .data false }, [32, 8, 0], [.addMessage [cr, lf]])
  else ({ u with mode := .data false }, [], [])

/-- one byte behind IAC; BREAK, IP, AYT and AO leave the mode as it is -/
def stepIac (u : Interactive) (b : Byte) : Interactive × List Byte × List Event :=
  if b = iac then ({ u with mode := .data false }, [iac], [])
  else if b = «do» then ({ u with mode := .do }, [], [])
  else if b = dont then ({ u with mode := .dont }, [], [])
  else if b = will then ({ u with mode := .will }, [], [])
  else if b = wont then ({ u with mode := .wont }, [], [])
  else if b = «break» then (u, [], [.addMessage [28, iac, will, optTm], .flushMessage])
  else if b = ip then (u, [], [.addMessage [127, iac, will, optTm]])
  else if b = ayt then (u, [], [.banner])
  else if b = ao then ({ u with outOfBand := true }, [], [.addMessage [iac, dm], .flushMessage])
  else if b = sb then ({ u with mode := .sb, sbPos := 0 }, [], [])
  else ({ u with mode := .data false }, [], [])

/-- the option behind IAC DO -/
def stepDo (u : Interactive) (b : Byte) : Interactive × List Byte × List Event :=
  ({ u with mode := .data false }, [],
    if b = optSga then [.addMessage [iac, will, optSga], .flushMessage]
    else if b = optTm then [.addMessage [iac, will, optTm], .flushMessage]
    else [])

/-- the option behind IAC WILL -/
def stepWill (u : Interactive) (b : Byte) : Interactive × List Byte × List Event :=
  let u := { u with mode := .data false, usingTelnet := true }
  if b = optTtype then (u, [], [.addMessage [iac, sb, optTtype, 1, iac, se], .flushMessage])
  else if b = optLinemode then
    if u.singleChar then ({ u with usingLinemode := true }, [], [])
    else ({ u with usingLinemode := true, lmMode := 3 }, [],
      [.addMessage [iac, sb, optLinemode, 1, 3, iac, se], .flushMessage])
  else if b = optSga then (u, [], [.addMessage [iac, «do», optSga], .flushMessage])
  else (u, [], [])

/-- the option behind IAC DONT -/
def stepDont (u : Interactive) (b : Byte) : Interactive × List Byte × List Event :=
  ({ u with mode := .data false, usingTelnet := true }, [],
    if b = optSga then [.addMessage [iac, wont, optSga], .flushMessage] else [])

/-- the option behind IAC WONT -/
def stepWont (u : Interactive) (b : Byte) : Interactive × List Byte × List Event :=
  ({ u with mode := .data false, usingTelnet := true
            usingLinemode := if b = optLinemode then false else u.usingLinemode }, [], [])

/-- one byte in a subnegotiation -/
def stepSb (u : Interactive) (b : Byte) : Interactive × List Byte × List Event :=
  if b = iac then ({ u with mode := .sbIac }, [], [])
  else if u.sbPos < sbSize then
    ({ u with sbBuf := Function.update u.sbBuf u.sbPos b, sbPos := u.sbPos + 1 }, [], [])
  else (u, [], [])

/-- one byte behind IAC in a subnegotiation -/
def stepSbIac (u : Interactive) (b : Byte) : Interactive × List Byte × List Event :=
  if b = iac then
    if sbSize ≤ u.sbPos then (u, [], [])
    else ({ u with sbBuf := Function.update u.sbBuf u.sbPos iac, sbPos := u.sbPos + 1, mode := .sb }, [], [])
  else if b = se then
    let buf := Function.update u.sbBuf u.sbPos 0
    ({ u with sbBuf := buf, mode := .data false }, [], subnegotiation buf u.sbPos u.lmMode)
  else (u, [], [])

/-- one turn of the loop of `copy_chars`: the user, the text added and what else is done -/
def step (u : Interactive) (b : Byte) : Interactive × List Byte × List Event :=
  match u.mode with
  | .data crSeen => stepData u crSeen b
  | .iac => stepIac u b
  | .do => stepDo u b
  | .will => stepWill u b
  | .dont => stepDont u b
  | .wont => stepWont u b
  | .sb => stepSb u b
  | .sbIac => stepSbIac u b

/-- `copy_chars` on the bytes of one read -/
def copyChars (u : Interactive) : List Byte → Interactive × List Byte × List Event
  | [] => (u, [], [])
  | b :: bs =>
    let (u1, text1, events1) := step u b
    let (u2, text2, events2) := copyChars u1 bs
    (u2, text1 ++ text2, events1 ++ events2)

/-- one read after the other -/
def readChunks (u : Interactive) : List (List Byte) → Interactive × List Byte × List Event
  | [] => (u, [], [])
  | chunk :: chunks =>
    let (u1, text1, events1) := copyChars u chunk
    let (u2, text2, events2) := readChunks u1 chunks
    (u2, text1 ++ text2, events1 ++ events2)

/-! ## What the filter is for -/

/-- the mark for an end of line: a blank, a backspace and a NUL -/
def endOfLine : List Byte := [32, 8, 0]

def isVerb (b : Byte) : Bool := b = will || b = wont || b = «do» || b = dont

/-- what follows a subnegotiation: it ends at IAC SE, and IAC and the byte behind it belong together -/
def skipSub : List Byte → List Byte
  | [] => []
  | [_] => []
  | b :: c :: rest => if b = iac then if c = se then rest else skipSub rest else skipSub (c :: rest)

theorem length_skipSub_le (s : List Byte) : (skipSub s).length ≤ s.length := by
  fun_induction skipSub s with
  | case1 => exact le_rfl
  | case2 => exact Nat.zero_le _
  | case3 | case4 c rest _ ih => simp only [length_cons]; omega
  | case5 b c rest _ ih => simp only [length_cons] at ih ⊢; omega

/-- the text of a stream: commands removed, IAC IAC one byte, CR with LF or NUL an end of line, other CR dropped -/
def filtered : List Byte → List Byte
  | [] => []
  | b :: rest =>
    if b = iac then
      match rest with
      | [] => []
      | c :: rest =>
        if c = iac then iac :: filtered rest
        else if isVerb c then filtered (rest.drop 1)
        else if c = sb then filtered (skipSub rest)
        else filtered rest
    else if b = cr then
      match rest with
      | [] => []
      | c :: rest => if c = lf ∨ c = 0 then endOfLine ++ filtered rest else filtered (c :: rest)
    else b :: filtered rest
termination_by s => s.length
decreasing_by
  all_goals
    first
    | (have hle := length_skipSub_le rest; simp only [length_cons]; omega)
    | (simp only [length_cons, length_drop]; omega)

/-! ## The filter byte by byte -/

/-- where a stream is, as the text is defined: in a subnegotiation, behind how many bytes of it -/
inductive Place where
  | data
  | cr
  | iac
  | option
  | sub (n : ℕ)
  | subIac (n : ℕ)
  deriving DecidableEq, Repr

/-- one byte of data -/
def placeData (b : Byte) : Place × List Byte :=
  if b = iac then (.iac, []) else if b = cr then (.cr, []) else (.data, [b])

/-- one byte: where the stream is behind it and what it adds to the text -/
def placeStep (m : Place) (b : Byte) : Place × List Byte :=
  match m with
  | .data => placeData b
  | .cr => if b = lf ∨ b = 0 then (.data, endOfLine) else placeData b
  | .iac =>
    if b = iac then (.data, [iac]) else if isVerb b then (.option, []) else if b = sb then (.sub 0, []) else (.data, [])
  | .option => (.data, [])
  | .sub n => if b = iac then (.subIac n, []) else (.sub (n + 1), [])
  | .subIac n => if b = se then (.data, []) else (.sub (n + 1), [])

def placeRun (m : Place) : List Byte → Place × List Byte
  | [] => (m, [])
  | b :: bs => ((placeRun (placeStep m b).1 bs).1, (placeStep m b).2 ++ (placeRun (placeStep m b).1 bs).2)

theorem placeRun_append (m : Place) (s t : List Byte) :
    placeRun m (s ++ t) = ((placeRun (placeRun m s).1 t).1, (placeRun m s).2 ++ (placeRun (placeRun m s).1 t).2) := by
  induction s generalizing m with
  | nil => rfl
  | cons b s ih => simp only [cons_append, placeRun, ih, append_assoc]

variable {b : Byte}

theorem skipSub_cons_of_ne (hb : b ≠ iac) (s : List Byte) : skipSub (b :: s) = skipSub s := by
  cases s with
  | nil => rfl
  | cons c s => rw [skipSub, if_neg hb]

theorem filtered_of_ne (hiac : b ≠ iac) (hcr : b ≠ cr) (s : List Byte) : filtered (b :: s) = b :: filtered s := by
  rw [filtered.eq_def]
  dsimp only
  rw [if_neg hiac, if_neg hcr]

/-- the text of the rest of a stream, from some place on -/
def filteredFrom (m : Place) (s : List Byte) : List Byte :=
  match m with
  | .data => filtered s
  | .cr => filtered (cr :: s)
  | .iac => filtered (iac :: s)
  | .option => filtered (s.drop 1)
  | .sub _ => filtered (skipSub s)
  | .subIac _ => filtered (skipSub (iac :: s))

theorem filteredFrom_nil (m : Place) : filteredFrom m [] = [] := by
  cases m <;> simp [filteredFrom, filtered, skipSub, iac, cr]

/-- a byte moves the place and adds its text -/
theorem filteredFrom_cons (m : Place) (b : Byte) (s : List Byte) :
    filteredFrom m (b :: s) = (placeStep m b).2 ++ filteredFrom (placeStep m b).1 s := by
  have hdata : filtered (b :: s) = (placeData b).2 ++ filteredFrom (placeData b).1 s := by
    unfold placeData
    by_cases hiac : b = iac
    · rw [hiac]
      rfl
    · by_cases hcr : b = cr
      · rw [hcr]
        rfl
      · rw [if_neg hiac, if_neg hcr, filtered_of_ne hiac hcr]
        rfl
  cases m with
  | data => exact hdata
  | cr =>
    rw [filteredFrom, filtered, if_neg (by decide), if_pos rfl, placeStep]
    split_ifs
    · rfl
    · exact hdata
  | iac =>
    rw [filteredFrom, filtered, if_pos rfl, placeStep]
    split_ifs <;> rfl
  | option => rfl
  | sub n =>
    rw [placeStep]
    by_cases hiac : b = iac
    · rw [hiac]
      rfl
    · rw [if_neg hiac, filteredFrom, skipSub_cons_of_ne hiac]
      rfl
  | subIac n =>
    rw [filteredFrom, skipSub, if_pos rfl, placeStep]
    split_ifs <;> rfl

/-- the text of a stream is what its bytes add, one after the other -/
theorem placeRun_text (m : Place) (s : List Byte) : (placeRun m s).2 = filteredFrom m s := by
  induction s generalizing m with
  | nil => exact (filteredFrom_nil m).symm
  | cons b s ih => rw [filteredFrom_cons, ← ih]; rfl

/-! ## Reads -/

theorem copyChars_append (u : Interactive) (s t : List Byte) :
    copyChars u (s ++ t) = ((copyChars (copyChars u s).1 t).1,
      (copyChars u s).2.1 ++ (copyChars (copyChars u s).1 t).2.1,
      (copyChars u s).2.2 ++ (copyChars (copyChars u s).1 t).2.2) := by
  induction s generalizing u with
  | nil => rfl
  | cons b s ih => simp only [cons_append, copyChars, ih, append_assoc]

/-- **Chunks.** How a stream is cut into reads makes no difference. -/
theorem readChunks_eq (u : Interactive) (chunks : List (List Byte)) :
    readChunks u chunks = copyChars u chunks.flatten := by
  induction chunks generalizing u with
  | nil => rfl
  | cons chunk chunks ih => simp only [readChunks, flatten_cons, copyChars_append, ih]

/-! ## Streams the filter gets right -/

/-- the filter of a user in line mode is where the stream is -/
def Sync (u : Interactive) (m : Place) : Prop :=
  u.singleChar = false ∧ match m with
    | .data => u.mode = .data false
    | .cr => u.mode = .data true
    | .iac => u.mode = .iac
    | .option => u.mode = .will ∨ u.mode = .wont ∨ u.mode = .do ∨ u.mode = .dont
    | .sub n => u.mode = .sb ∧ u.sbPos = min n sbSize
    | .subIac n => u.mode = .sbIac ∧ u.sbPos = min n sbSize

/-- a byte the filter goes wrong at: data behind a lone CR, a command BREAK, IP, AYT or AO, and in a subnegotiation
another byte than SE or IAC behind IAC, or IAC when the buffer is full -/
def Offends (m : Place) (b : Byte) : Prop :=
  match m with
  | .cr => b ≠ lf ∧ b ≠ 0 ∧ b ≠ cr ∧ b ≠ iac
  | .iac => b = «break» ∨ b = ip ∨ b = ayt ∨ b = ao
  | .subIac n => b ≠ se ∧ (b = iac → sbSize ≤ n)
  | _ => False

instance (m : Place) (b : Byte) : Decidable (Offends m b) :=
  match m with
  | .cr => inferInstanceAs (Decidable (_ ∧ _ ∧ _ ∧ _))
  | .iac => inferInstanceAs (Decidable (_ ∨ _ ∨ _ ∨ _))
  | .subIac _ => inferInstanceAs (Decidable (_ ∧ (_ → _)))
  | .data => inferInstanceAs (Decidable False)
  | .option => inferInstanceAs (Decidable False)
  | .sub _ => inferInstanceAs (Decidable False)

/-- no byte of the stream offends -/
def CleanFrom (m : Place) : List Byte → Prop
  | [] => True
  | b :: bs => ¬ Offends m b ∧ CleanFrom (placeStep m b).1 bs

def Clean (s : List Byte) : Prop := CleanFrom .data s

variable {m : Place} {s : List Byte}

theorem cleanFrom_append {t : List Byte} : CleanFrom m (s ++ t) ↔ CleanFrom m s ∧ CleanFrom (placeRun m s).1 t := by
  induction s generalizing m with
  | nil => exact ⟨fun h => ⟨trivial, h⟩, fun h => h.2⟩
  | cons b s ih => simp only [cons_append, CleanFrom, ih, placeRun, and_assoc]

variable {u : Interactive} {n : ℕ}

/-- a byte keeps the filter where the stream is, and adds the text that the stream has there -/
def InStep (r : Interactive × List Byte × List Event) (p : Place × List Byte) : Prop := Sync r.1 p.1 ∧ r.2.1 = p.2

/-- data where no CR has been seen -/
theorem stepData_sync (hline : u.singleChar = false) : InStep (stepData u false b) (placeData b) := by
  by_cases hiac : b = iac
  · rw [stepData, if_pos hiac, placeData, if_pos hiac]
    exact ⟨⟨hline, rfl⟩, rfl⟩
  · by_cases hcr : b = cr
    · rw [stepData, if_neg hiac, if_pos hcr, placeData, if_neg hiac, if_pos hcr, hline]
      exact ⟨⟨rfl, rfl⟩, rfl⟩
    · rw [stepData, if_neg hiac, if_neg hcr, placeData, if_neg hiac, if_neg hcr]
      exact ⟨⟨hline, rfl⟩, rfl⟩

/-- data behind a CR -/
theorem stepCr_sync (hline : u.singleChar = false) (hb : ¬ Offends .cr b) :
    InStep (stepData u true b) (placeStep .cr b) := by
  have hseen : ¬ (true = false ∨ u.singleChar = true) := by rw [hline]; decide
  by_cases hend : b = lf ∨ b = 0
  · have hne : b ≠ iac ∧ b ≠ cr := by
      rcases hend with rfl | rfl
      all_goals decide
    rw [stepData, if_neg hne.1, if_neg hne.2, if_neg hseen, if_pos hend, placeStep, if_pos hend]
    exact ⟨⟨hline, rfl⟩, rfl⟩
  · rw [placeStep, if_neg hend]
    have hspecial : b = iac ∨ b = cr := by
      by_contra hdata
      obtain ⟨hlf, hnul⟩ := not_or.1 hend
      obtain ⟨hiac, hcr⟩ := not_or.1 hdata
      exact hb ⟨hlf, hnul, hcr, hiac⟩
    have hsame : stepData u true b = stepData u false b := by rcases hspecial with rfl | rfl <;> rfl
    rw [hsame]
    exact stepData_sync hline

/-- a command behind IAC that does not offend -/
theorem stepIac_sync (hline : u.singleChar = false) (hb : ¬ Offends .iac b) :
    InStep (stepIac u b) (placeStep .iac b) := by
  obtain ⟨hbreak, hip, hayt, hao⟩ : b ≠ «break» ∧ b ≠ ip ∧ b ≠ ayt ∧ b ≠ ao := by
    simpa [Offends, not_or] using hb
  by_cases hiac : b = iac
  · rw [stepIac, if_pos hiac, placeStep, if_pos hiac]
    exact ⟨⟨hline, rfl⟩, rfl⟩
  · rw [stepIac, if_neg hiac, placeStep, if_neg hiac]
    by_cases hverb : isVerb b = true
    · simp only [isVerb, Bool.or_eq_true, decide_eq_true_eq] at hverb
      rcases hverb with ((rfl | rfl) | rfl) | rfl
      · exact ⟨⟨hline, .inl rfl⟩, rfl⟩
      · exact ⟨⟨hline, .inr (.inl rfl)⟩, rfl⟩
      · exact ⟨⟨hline, .inr (.inr (.inl rfl))⟩, rfl⟩
      · exact ⟨⟨hline, .inr (.inr (.inr rfl))⟩, rfl⟩
    · rw [if_neg hverb]
      simp only [isVerb, Bool.or_eq_true, decide_eq_true_eq, not_or] at hverb
      obtain ⟨⟨⟨hwill, hwont⟩, hdo⟩, hdont⟩ := hverb
      rw [if_neg hdo, if_neg hdont, if_neg hwill, if_neg hwont, if_neg hbreak, if_neg hip, if_neg hayt, if_neg hao]
      by_cases hsb : b = sb
      · rw [if_pos hsb, if_pos hsb]
        exact ⟨⟨hline, rfl, rfl⟩, rfl⟩
      · rw [if_neg hsb, if_neg hsb]
        exact ⟨⟨hline, rfl⟩, rfl⟩

/-- the option behind a verb -/
theorem stepOption_sync (h : Sync u .option) : InStep (step u b) (placeStep .option b) := by
  obtain ⟨hline, hmode⟩ := h
  rcases hmode with hmode | hmode | hmode | hmode
  · rw [step, hmode]
    dsimp only [stepWill]
    rw [hline]
    split_ifs <;> exact ⟨⟨rfl, rfl⟩, rfl⟩
  all_goals
    rw [step, hmode]
    exact ⟨⟨hline, rfl⟩, rfl⟩

/-- a byte of a subnegotiation -/
theorem stepSb_sync (h : Sync u (.sub n)) : InStep (stepSb u b) (placeStep (.sub n) b) := by
  obtain ⟨hline, hmode, hpos⟩ := h
  by_cases hiac : b = iac
  · rw [stepSb, if_pos hiac, placeStep, if_pos hiac]
    exact ⟨⟨hline, rfl, hpos⟩, rfl⟩
  · rw [stepSb, if_neg hiac, placeStep, if_neg hiac]
    split_ifs
    all_goals
      refine ⟨⟨hline, hmode, ?_⟩, rfl⟩
      dsimp only
      omega

/-- a byte behind IAC in a subnegotiation that does not offend -/
theorem stepSbIac_sync (h : Sync u (.subIac n)) (hb : ¬ Offends (.subIac n) b) :
    InStep (stepSbIac u b) (placeStep (.subIac n) b) := by
  obtain ⟨hline, -, hpos⟩ := h
  by_cases hse : b = se
  · have hiac : b ≠ iac := by rw [hse]; decide
    rw [stepSbIac, if_neg hiac, if_pos hse, placeStep, if_pos hse]
    exact ⟨⟨hline, rfl⟩, rfl⟩
  · obtain ⟨hiac, hn⟩ : b = iac ∧ n < sbSize := by
      by_contra hnot
      exact hb ⟨hse, fun hiac => by by_contra hlt; exact hnot ⟨hiac, by omega⟩⟩
    rw [stepSbIac, if_pos hiac, if_neg (by omega), placeStep, if_neg hse]
    refine ⟨⟨hline, rfl, ?_⟩, rfl⟩
    dsimp only
    omega

/-- **One byte.** Where the filter is in step, a byte that does not offend adds its text and keeps it in step. -/
theorem step_sync (h : Sync u m) (hb : ¬ Offends m b) : InStep (step u b) (placeStep m b) := by
  cases m with
  | data =>
    rw [step, h.2]
    exact stepData_sync h.1
  | cr =>
    rw [step, h.2]
    exact stepCr_sync h.1 hb
  | iac =>
    rw [step, h.2]
    exact stepIac_sync h.1 hb
  | option => exact stepOption_sync h
  | sub n =>
    rw [step, h.2.1]
    exact stepSb_sync h
  | subIac n =>
    rw [step, h.2.1]
    exact stepSbIac_sync h hb

/-- a stream without an offending byte -/
theorem copyChars_sync {s : List Byte} (h : Sync u m) (hs : CleanFrom m s) : InStep (copyChars u s) (placeRun m s) := by
  induction s generalizing u m with
  | nil => exact ⟨h, rfl⟩
  | cons b s ih =>
    obtain ⟨hsync, htext⟩ := step_sync h hs.1
    obtain ⟨hsync', htext'⟩ := ih hsync hs.2
    exact ⟨hsync', congrArg₂ (· ++ ·) htext htext'⟩

/-! ## Out of step -/

/-- streams that are read right: the text is that of the stream, however it is cut into reads -/
def ReadRight (s : List Byte) : Prop :=
  ∀ chunks : List (List Byte), chunks.flatten = s → (readChunks start chunks).2.1 = filtered s

theorem start_sync : Sync start .data := ⟨rfl, rfl⟩

theorem readRight_of_clean (hs : Clean s) : ReadRight s := by
  intro chunks hchunks
  calc (readChunks start chunks).2.1
      = (copyChars start s).2.1 := by rw [readChunks_eq, hchunks]
    _ = (placeRun .data s).2 := (copyChars_sync start_sync hs).2
    _ = filtered s := placeRun_text .data s

/-- the text of a stream read at once -/
theorem ReadRight.copyChars (h : ReadRight s) : (copyChars start s).2.1 = (placeRun .data s).2 := by
  have hone := h [s] (by rw [flatten_cons, flatten_nil, append_nil])
  rw [readChunks_eq, flatten_cons, flatten_nil, append_nil] at hone
  exact hone.trans (placeRun_text .data s).symm

/-- behind an offending byte the filter is out of step: some clean bytes are taken wrong -/
theorem offends_wrong {u : Interactive} (h : Sync u m) (hb : Offends m b) :
    ∃ t, CleanFrom (placeStep m b).1 t ∧ (copyChars u (b :: t)).2.1 ≠ (placeRun m (b :: t)).2 := by
  cases m with
  | data | option | sub n => exact absurd hb id
  | cr =>
    -- the byte itself is lost
    obtain ⟨hlf, hnul, hcr, hiac⟩ := hb
    refine ⟨[], trivial, ?_⟩
    have hseen : ¬ (true = false ∨ u.singleChar = true) := by rw [h.1]; decide
    have hcode : (copyChars u [b]).2.1 = [] := by
      rw [Telnet.copyChars, step, h.2]
      dsimp only
      rw [stepData, if_neg hiac, if_neg hcr, if_neg hseen, if_neg (not_or.2 ⟨hlf, hnul⟩)]
      rfl
    have htext : (placeRun .cr [b]).2 = [b] := by
      rw [placeRun, placeStep, if_neg (not_or.2 ⟨hlf, hnul⟩), placeData, if_neg hiac, if_neg hcr]
      rfl
    rw [hcode, htext]
    exact (cons_ne_nil b []).symm
  | iac =>
    -- the next byte is taken for a command
    have hcode : (step u b).1.mode = .iac ∧ (step u b).2.1 = [] := by
      rw [step, h.2]
      rcases hb with rfl | rfl | rfl | rfl
      all_goals exact ⟨h.2, rfl⟩
    have hplace : placeStep .iac b = (.data, []) := by rcases hb with rfl | rfl | rfl | rfl <;> rfl
    refine ⟨[97], ⟨fun hoff => ?_, trivial⟩, ?_⟩
    · rw [hplace] at hoff
      exact hoff
    · have hnext : (copyChars u [b, 97]).2.1 = [] := by
        simp only [Telnet.copyChars, append_nil, hcode.2, nil_append]
        rw [step, hcode.1]
        rfl
      rw [hnext, placeRun, hplace]
      exact (cons_ne_nil 97 []).symm
  | subIac n =>
    -- the filter waits for SE, which is not the end of the subnegotiation
    obtain ⟨hse, hfull⟩ := hb
    have hcode : step u b = (u, [], []) := by
      rw [step, h.2.1]
      rw [stepSbIac]
      by_cases hiac : b = iac
      · have hpos := h.2.2
        have hn := hfull hiac
        rw [if_pos hiac, if_pos (by omega)]
      · rw [if_neg hiac, if_neg hse]
    have hplace : placeStep (.subIac n) b = (.sub (n + 1), []) := by rw [placeStep, if_neg hse]
    refine ⟨[se, 97], ?_, ?_⟩
    · rw [hplace]
      exact ⟨id, id, trivial⟩
    · have hnext : (copyChars u [b, se, 97]).2.1 = [97] := by
        simp only [Telnet.copyChars, hcode, nil_append]
        rw [step, h.2.1]
        rfl
      rw [hnext, placeRun, hplace]
      exact cons_ne_nil 97 []

/-- the first byte of a stream that offends -/
theorem exists_offends (hs : ¬ CleanFrom m s) :
    ∃ p b rest, s = p ++ b :: rest ∧ CleanFrom m p ∧ Offends (placeRun m p).1 b := by
  induction s generalizing m with
  | nil => exact absurd trivial hs
  | cons b s ih =>
    by_cases hb : Offends m b
    · exact ⟨[], b, s, rfl, trivial, hb⟩
    · obtain ⟨p, c, rest, heq, hp, hc⟩ := ih fun h => hs ⟨hb, h⟩
      exact ⟨b :: p, c, rest, by rw [heq]; rfl, ⟨hb, hp⟩, hc⟩

/-- the index of `sb_buf` a byte is written to -/
def sbWrite (u : Interactive) (b : Byte) : Option ℕ :=
  match u.mode with
  | .sb => if b = iac then none else if u.sbPos < sbSize then some u.sbPos else none
  | .sbIac =>
    if b = iac then if sbSize ≤ u.sbPos then none else some u.sbPos
    else if b = se then some u.sbPos else none
  | _ => none

/-- the indices written to in one read -/
def sbWrites (u : Interactive) : List Byte → List ℕ
  | [] => []
  | b :: bs => (sbWrite u b).toList ++ sbWrites (step u b).1 bs

/-- the indices written to in one read after the other -/
def chunkWrites (u : Interactive) : List (List Byte) → List ℕ
  | [] => []
  | chunk :: chunks => sbWrites u chunk ++ chunkWrites (copyChars u chunk).1 chunks

/-- a byte written changes the buffer at its index only -/
theorem eq_of_update_ne {buf : ℕ → Byte} {pos j : ℕ} (h : Function.update buf pos b j ≠ buf j) : some pos = some j := by
  by_contra hne
  exact h (Function.update_of_ne (fun hj => hne (congrArg some hj.symm)) _ _)

theorem stepIac_sb (u : Interactive) (b : Byte) :
    (stepIac u b).1.sbPos ≤ u.sbPos ∧ (stepIac u b).1.sbBuf = u.sbBuf := by
  generalize hr : stepIac u b = r
  rw [stepIac] at hr
  split_ifs at hr <;> subst hr <;> exact ⟨by simp, rfl⟩

/-- one byte: the buffer changes only at the index written to, which is past the end only for SE -/
theorem step_sb (hu : u.sbPos ≤ sbSize) (b : Byte) :
    (step u b).1.sbPos ≤ sbSize ∧ (∀ j, (step u b).1.sbBuf j ≠ u.sbBuf j → sbWrite u b = some j) ∧
      ∀ j ∈ sbWrite u b, j = u.sbPos ∧ (j < sbSize ∨ u.mode = .sbIac ∧ b = se) := by
  unfold step sbWrite
  cases hmode : u.mode with
  | sb =>
    dsimp only [stepSb]
    split_ifs with hiac hroom
    · exact ⟨hu, fun _ h => absurd rfl h, nofun⟩
    · exact ⟨hroom, fun _ => eq_of_update_ne, fun j hj => by cases hj; exact ⟨rfl, .inl hroom⟩⟩
    · exact ⟨hu, fun _ h => absurd rfl h, nofun⟩
  | sbIac =>
    dsimp only [stepSbIac]
    split_ifs with hiac hfull hse
    · exact ⟨hu, fun _ h => absurd rfl h, nofun⟩
    · have hroom := not_le.1 hfull
      exact ⟨hroom, fun _ => eq_of_update_ne, fun j hj => by cases hj; exact ⟨rfl, .inl hroom⟩⟩
    · exact ⟨hu, fun _ => eq_of_update_ne, fun j hj => by cases hj; exact ⟨rfl, .inr ⟨rfl, hse⟩⟩⟩
    · exact ⟨hu, fun _ h => absurd rfl h, nofun⟩
  | iac =>
    obtain ⟨hpos, hbuf⟩ := stepIac_sb u b
    exact ⟨hpos.trans hu, fun j h => absurd (congrFun hbuf j) h, nofun⟩
  | data | will =>
    dsimp only [stepData, stepWill]
    split_ifs <;> exact ⟨hu, fun _ h => absurd rfl h, nofun⟩
  | wont | «do» | dont => exact ⟨hu, fun _ h => absurd rfl h, nofun⟩

theorem sbWrites_append (u : Interactive) (s t : List Byte) :
    sbWrites u (s ++ t) = sbWrites u s ++ sbWrites (copyChars u s).1 t := by
  induction s generalizing u with
  | nil => rfl
  | cons b s ih => simp only [cons_append, sbWrites, copyChars, ih, append_assoc]

theorem chunkWrites_eq (u : Interactive) (chunks : List (List Byte)) :
    chunkWrites u chunks = sbWrites u chunks.flatten := by
  induction chunks generalizing u with
  | nil => rfl
  | cons chunk chunks ih => rw [chunkWrites, flatten_cons, sbWrites_append, ih]

/-- a stream: every index is at most one past the end, and that one is written where SE comes -/
theorem sbWrites_spec (hu : u.sbPos ≤ sbSize) (s : List Byte) :
    (copyChars u s).1.sbPos ≤ sbSize ∧ ∀ j ∈ sbWrites u s, j ≤ sbSize ∧ (j < sbSize ∨
      ∃ p q, s = p ++ se :: q ∧ (copyChars u p).1.mode = .sbIac ∧ j = (copyChars u p).1.sbPos) := by
  induction s generalizing u with
  | nil => exact ⟨hu, nofun⟩
  | cons b s ih =>
    obtain ⟨hpos, -, hwrite⟩ := step_sb hu b
    obtain ⟨hpos', hrest⟩ := ih hpos
    refine ⟨hpos', fun j hj => ?_⟩
    rcases mem_append.1 hj with hj | hj
    · obtain ⟨rfl, hlt | ⟨hmode, rfl⟩⟩ := hwrite j (Option.mem_toList.1 hj)
      · exact ⟨hu, .inl hlt⟩
      · exact ⟨hu, .inr ⟨[], s, rfl, hmode, rfl⟩⟩
    · obtain ⟨hle, hlt | ⟨p, q, rfl, hmode, hj⟩⟩ := hrest j hj
      · exact ⟨hle, .inl hlt⟩
      · exact ⟨hle, .inr ⟨b :: p, q, rfl, hmode, hj⟩⟩

/-- **The buffer of a subnegotiation.** However a stream is cut into reads, the position stays in the buffer or right
behind it, no byte is written further than right behind the buffer, and all are written inside it exactly if SE never
ends a subnegotiation that has filled the buffer. -/
theorem sbWrites_lt_iff (hu : u.sbPos ≤ sbSize) (chunks : List (List Byte)) :
    (readChunks u chunks).1.sbPos ≤ sbSize ∧ (∀ j ∈ chunkWrites u chunks, j ≤ sbSize) ∧
      ((∀ j ∈ chunkWrites u chunks, j < sbSize) ↔ ∀ p q, chunks.flatten = p ++ se :: q →
        (copyChars u p).1.mode = .sbIac → (copyChars u p).1.sbPos < sbSize) := by
  rw [readChunks_eq, chunkWrites_eq]
  obtain ⟨hpos, hwrites⟩ := sbWrites_spec hu chunks.flatten
  refine ⟨hpos, fun j hj => (hwrites j hj).1, fun h p q hs hmode => ?_, fun h j hj => ?_⟩
  · have hw : sbWrite (copyChars u p).1 se = some (copyChars u p).1.sbPos := by
      rw [sbWrite, hmode]
      rfl
    rw [hs, sbWrites_append] at h
    exact h _ (mem_append_right _ (mem_append_left _ (Option.mem_toList.2 hw)))
  · rcases (hwrites j hj).2 with hlt | ⟨p, q, hs, hmode, rfl⟩
    · exact hlt
    · exact h p q hs hmode

/-- a terminal type of two bytes, in two reads -/
theorem terminal_type_in_bounds :
    chunkWrites start [[iac, sb, optTtype], [0, iac, se]] = [0, 1, 2] ∧ start.sbPos ≤ sbSize ∧
      (readChunks start [[iac, sb, optTtype], [0, iac, se]]).1.sbPos ≤ sbSize :=
  ⟨by decide, by decide, (sbWrites_lt_iff (by decide) _).1⟩

/-- **One byte too far.** SE behind a hundred bytes writes a NUL behind the buffer. -/
theorem se_when_full : sbSize ∈ chunkWrites start [iac :: sb :: replicate 100 97, [iac, se]] := by decide +kernel

end Lithos.Driver.Telnet
