/-
Programs as sets of paths, and rules for monitors that run along them.

A path is a list of events with an outcome: it runs to the end of the program, or leaves it by an exit (a jump, a return,
an error). Programs are put together by `seq`, `choice`, `iter` and `redirect`. A monitor is a partial step function on
states of its own: it stops at an event that it forbids. `Triple` says that from every state with the precondition the
monitor runs along every path of the program, to a state with the postcondition for the outcome; each way to put programs
together has its rule.
-/
import Mathlib.Data.List.Basic

namespace Lithos.Core.Paths

variable {ε κ σ : Type*}

/-- how a path ends -/
inductive Outcome (κ : Type*) where
  | normal
  | exit (k : κ)
deriving DecidableEq, Repr

/-- a program: its paths -/
abbrev PathSet (ε κ : Type*) := List ε → Outcome κ → Prop

/-! ## Programs -/

def skip : PathSet ε κ := fun τ o => τ = [] ∧ o = .normal

def emit (e : ε) : PathSet ε κ := fun τ o => τ = [e] ∧ o = .normal

def leave (k : κ) : PathSet ε κ := fun τ o => τ = [] ∧ o = .exit k

def choice (P Q : PathSet ε κ) : PathSet ε κ := fun τ o => P τ o ∨ Q τ o

def seq (P Q : PathSet ε κ) : PathSet ε κ := fun τ o =>
  (∃ τ₁ τ₂, P τ₁ .normal ∧ Q τ₂ o ∧ τ = τ₁ ++ τ₂) ∨ (∃ k, P τ (.exit k) ∧ o = .exit k)

/-- any number of rounds, or an exit from one of them -/
inductive iter (P : PathSet ε κ) : PathSet ε κ
  | done : iter P [] .normal
  | more {τ₁ τ₂ : List ε} {o : Outcome κ} : P τ₁ .normal → iter P τ₂ o → iter P (τ₁ ++ τ₂) o
  | leave {τ : List ε} {k : κ} : P τ (.exit k) → iter P τ (.exit k)

/-- exits of one kind end the program normally -/
def redirect [DecidableEq κ] (k : κ) (P : PathSet ε κ) : PathSet ε κ := fun τ o =>
  (P τ o ∧ o ≠ .exit k) ∨ (P τ (.exit k) ∧ o = .normal)

theorem skip_seq (P : PathSet ε κ) : seq skip P = P := by
  funext τ o
  apply propext
  constructor
  · intro h
    rcases h with ⟨τ₁, τ₂, ⟨rfl, -⟩, hp, rfl⟩ | ⟨k, ⟨-, h⟩, -⟩
    · exact hp
    · cases h
  · intro hp
    exact .inl ⟨[], τ, ⟨rfl, rfl⟩, hp, rfl⟩

/-! ## Monitors -/

/-- the monitor along a list of events -/
def monitor (step : σ → ε → Option σ) : σ → List ε → Option σ
  | d, [] => some d
  | d, e :: τ => (step d e).bind fun d' => monitor step d' τ

theorem monitor_append (step : σ → ε → Option σ) (d : σ) (τ₁ τ₂ : List ε) :
    monitor step d (τ₁ ++ τ₂) = (monitor step d τ₁).bind fun d' => monitor step d' τ₂ := by
  induction τ₁ generalizing d with
  | nil => rfl
  | cons e τ₁ ih =>
    rw [List.cons_append, monitor, monitor, Option.bind_assoc]
    exact congrArg _ (funext ih)

variable {step : σ → ε → Option σ} {pre mid : σ → Prop} {post post' : Outcome κ → σ → Prop} {P Q : PathSet ε κ} {k : κ}

/-- along every path of `P` from a state with `pre` the monitor runs, to a state with `post` for the outcome -/
def Triple (step : σ → ε → Option σ) (pre : σ → Prop) (P : PathSet ε κ) (post : Outcome κ → σ → Prop) : Prop :=
  ∀ d, pre d → ∀ τ o, P τ o → ∃ d', monitor step d τ = some d' ∧ post o d'

theorem Triple.mono {pre' : σ → Prop} (h : Triple step pre P post) (hpre : ∀ d, pre' d → pre d)
    (hpost : ∀ o d, post o d → post' o d) : Triple step pre' P post' := by
  intro d hd τ o hp
  obtain ⟨d', hrun, hd'⟩ := h d (hpre d hd) τ o hp
  exact ⟨d', hrun, hpost o d' hd'⟩

theorem triple_skip (h : ∀ d, pre d → post .normal d) : Triple step pre (skip : PathSet ε κ) post := by
  rintro d hd τ o ⟨rfl, rfl⟩
  exact ⟨d, rfl, h d hd⟩

theorem triple_leave (h : ∀ d, pre d → post (.exit k) d) : Triple step pre (leave k : PathSet ε κ) post := by
  rintro d hd τ o ⟨rfl, rfl⟩
  exact ⟨d, rfl, h d hd⟩

theorem triple_emit {e : ε} (h : ∀ d, pre d → ∃ d', step d e = some d' ∧ post .normal d') :
    Triple step pre (emit e : PathSet ε κ) post := by
  rintro d hd τ o ⟨rfl, rfl⟩
  obtain ⟨d', hs, hd'⟩ := h d hd
  refine ⟨d', ?_, hd'⟩
  rw [monitor, hs]
  rfl

theorem Triple.choice (h₁ : Triple step pre P post) (h₂ : Triple step pre Q post) :
    Triple step pre (choice P Q) post := by
  intro d hd τ o hp
  rcases hp with hp | hp
  · exact h₁ d hd τ o hp
  · exact h₂ d hd τ o hp

/-- what holds between the parts of a sequence, and at the exits of its first part -/
def between (mid : σ → Prop) (post : Outcome κ → σ → Prop) : Outcome κ → σ → Prop
  | .normal => mid
  | .exit k => post (.exit k)

theorem Triple.seq (h₁ : Triple step pre P (between mid post)) (h₂ : Triple step mid Q post) :
    Triple step pre (seq P Q) post := by
  intro d hd τ o hp
  rcases hp with ⟨τ₁, τ₂, hp₁, hp₂, rfl⟩ | ⟨k, hp, rfl⟩
  · obtain ⟨d₁, hrun₁, hmid⟩ := h₁ d hd τ₁ _ hp₁
    obtain ⟨d₂, hrun₂, hpost⟩ := h₂ d₁ hmid τ₂ o hp₂
    refine ⟨d₂, ?_, hpost⟩
    rw [monitor_append, hrun₁]
    exact hrun₂
  · exact h₁ d hd τ _ hp

/-- rounds that keep the precondition -/
theorem Triple.iter (h : Triple step pre P (between pre post)) (hdone : ∀ d, pre d → post .normal d) :
    Triple step pre (iter P) post := by
  intro d hd τ o hp
  induction hp generalizing d with
  | done => exact ⟨d, rfl, hdone d hd⟩
  | @more τ₁ τ₂ o hp₁ _ ih =>
    obtain ⟨d₁, hrun₁, hmid⟩ := h d hd τ₁ _ hp₁
    obtain ⟨d₂, hrun₂, hpost⟩ := ih d₁ hmid
    refine ⟨d₂, ?_, hpost⟩
    rw [monitor_append, hrun₁]
    exact hrun₂
  | leave hp => exact h d hd _ _ hp

theorem Triple.redirect [DecidableEq κ] (h : Triple step pre P post)
    (hk : ∀ d, post (.exit k) d → post .normal d) : Triple step pre (redirect k P) post := by
  intro d hd τ o hp
  rcases hp with ⟨hp, -⟩ | ⟨hp, rfl⟩
  · exact h d hd τ o hp
  · obtain ⟨d', hrun, hpost⟩ := h d hd τ _ hp
    exact ⟨d', hrun, hk d' hpost⟩

end Lithos.Core.Paths
