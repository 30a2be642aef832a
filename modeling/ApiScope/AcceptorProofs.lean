import ApiScope.TransitionProofs
import Mathlib.Algebra.GroupWithZero.Nat

/-! # Acceptors — call logs that keep to a protocol

    A program that talks to something outside leaves a log of its calls.  An
    acceptor is the other side: it follows the log call by call, and stops at
    the first one that is out of turn.  A log that it follows to the end keeps
    to the protocol.

    The rule `accepted_reachable` proves this of every run of a system: state a
    relation between the states of the program and those of the acceptor, and
    show for one step that the acceptor follows its calls and that the states
    behind it are related again.  Where the program relies on what it is
    answered, the rule is `assumed_reachable`: the answers in the log are as
    assumed, each in the state that the other side is in then.  What every call
    keeps, a followed log keeps (`run_invariant`), and what it spends and gets
    is balanced by the states at its ends (`run_balance`). -/

namespace ScopeAcceptor

open ScopeTransition

variable {σ τ α ε : Type}

/-- The state of the other side after each call that it accepts. -/
structure Acceptor (τ ε : Type) where
  accept : τ → ε → Option τ

/-- Follow a log. -/
def Acceptor.run (A : Acceptor τ ε) : τ → List ε → Option τ
  | q, [] => some q
  | q, e :: es =>
      match A.accept q e with
      | none => none
      | some q' => A.run q' es

variable {A : Acceptor τ ε} {q q' q'' : τ}

@[simp] theorem run_nil : A.run q [] = some q := rfl

theorem run_cons {e : ε} (h : A.accept q e = some q') (es : List ε) :
    A.run q (e :: es) = A.run q' es := by
  rw [Acceptor.run, h]

@[simp] theorem run_single {e : ε} : A.run q [e] = A.accept q e := by
  rw [Acceptor.run]
  cases A.accept q e with
  | none => rfl
  | some q' => rfl

/-- One log behind the other. -/
theorem run_append {es : List ε} (h : A.run q es = some q') (es' : List ε) :
    A.run q (es ++ es') = A.run q' es' := by
  induction es generalizing q with
  | nil =>
      cases h
      rfl
  | cons e es ih =>
      rw [Acceptor.run] at h
      rw [List.cons_append, Acceptor.run]
      split at h
      next => cases h
      next q₁ hq₁ => exact ih h

/-- What every accepted call keeps, a followed log keeps. -/
theorem run_invariant (P : τ → Prop) (hone : ∀ q e q', P q → A.accept q e = some q' → P q')
    {es : List ε} (hq : P q) (h : A.run q es = some q') : P q' := by
  induction es generalizing q with
  | nil =>
      cases h
      exact hq
  | cons e es ih =>
      rw [Acceptor.run] at h
      split at h
      next => cases h
      next q₁ hq₁ => exact ih (hone q e q₁ hq hq₁) h

/-- Every answer in the log is as assumed of the state that the other side is in
    when it comes. -/
def Acceptor.Assumed (A : Acceptor τ ε) (P : τ → ε → Prop) : τ → List ε → Prop
  | _, [] => True
  | q, e :: es => P q e ∧ ∀ q', A.accept q e = some q' → A.Assumed P q' es

theorem assumed_append {P : τ → ε → Prop} {es es' : List ε}
    (h : A.Assumed P q (es ++ es')) :
    A.Assumed P q es ∧ ∀ q', A.run q es = some q' → A.Assumed P q' es' := by
  induction es generalizing q with
  | nil =>
      refine ⟨trivial, fun q' hq => ?_⟩
      cases hq
      exact h
  | cons e es ih =>
      obtain ⟨hfirst, hrest⟩ := h
      refine ⟨⟨hfirst, fun q' hq => (ih (hrest q' hq)).1⟩, fun q' hrun => ?_⟩
      rw [Acceptor.run] at hrun
      split at hrun
      next => cases hrun
      next q₁ hq₁ => exact (ih (hrest q₁ hq₁)).2 q' hrun

theorem assumed_true (q : τ) (es : List ε) : A.Assumed (fun _ _ => True) q es := by
  induction es generalizing q with
  | nil => trivial
  | cons e es ih => exact ⟨trivial, fun q' _ => ih q'⟩

/-- **ASSUMED LOGS**: the log of every run whose answers are as assumed is
    followed, and the states at its end are related. -/
theorem assumed_reachable {M : System σ α} {obs : σ → α → List ε} {ok : σ → α → Prop}
    {R : σ → τ → Prop} {P : τ → ε → Prop} (hinit : ∀ s, M.init s → R s q)
    (hstep : ∀ s a s' q₁, R s q₁ → ok s a → A.Assumed P q₁ (obs s a) →
      M.step s a = some s' → ∃ q₂, A.run q₁ (obs s a) = some q₂ ∧ R s' q₂)
    {p : σ × List ε} (h : ReachableIf (M.traced obs) (fun p a => ok p.1 a) p)
    (hlog : A.Assumed P q p.2) : ∃ q', A.run q p.2 = some q' ∧ R p.1 q' := by
  revert hlog
  refine traced_invariant (Q := fun _ => True)
    (P := fun s log => A.Assumed P q log → ∃ q', A.run q log = some q' ∧ R s q')
    (fun _ _ => trivial) ?_ ?_ h
  · intro s hs _
    exact ⟨q, rfl, hinit s hs⟩
  · intro s log a s' _ hold hok hs hlog
    obtain ⟨hbefore, hnow⟩ := assumed_append hlog
    obtain ⟨q₁, hrun, hrel⟩ := hold hbefore
    obtain ⟨q₂, hrun', hrel'⟩ := hstep s a s' q₁ hrel hok (hnow q₁ hrun) hs
    exact ⟨q₂, by rw [run_append hrun, hrun'], hrel'⟩

/-- **LOG RULE**: the log of every run is followed, and the states at its end
    are related. -/
theorem accepted_reachable {M : System σ α} {obs : σ → α → List ε} {ok : σ → α → Prop}
    {R : σ → τ → Prop} (hinit : ∀ s, M.init s → R s q)
    (hstep : ∀ s a s' q₁, R s q₁ → ok s a → M.step s a = some s' →
      ∃ q₂, A.run q₁ (obs s a) = some q₂ ∧ R s' q₂)
    {p : σ × List ε} (h : ReachableIf (M.traced obs) (fun p a => ok p.1 a) p) :
    ∃ q', A.run q p.2 = some q' ∧ R p.1 q' :=
  assumed_reachable hinit (fun s a s' q₁ hrel hok _ hs => hstep s a s' q₁ hrel hok hs) h
    (assumed_true q p.2)

/-- **BALANCE**: if every call moves the level of the acceptor by what it gets
    less what it spends, so does every log. -/
theorem run_balance (level : τ → Nat) (gets spends : ε → Nat)
    (hone : ∀ q e q', A.accept q e = some q' → level q + gets e = level q' + spends e)
    {es : List ε} (h : A.run q es = some q') :
    level q + (es.map gets).sum = level q' + (es.map spends).sum := by
  induction es generalizing q with
  | nil =>
      cases h
      rfl
  | cons e es ih =>
      rw [Acceptor.run] at h
      split at h
      next => cases h
      next q₁ hq₁ =>
        have hfirst := hone q e q₁ hq₁
        have hrest := ih h
        simp only [List.map_cons, List.sum_cons]
        omega

end ScopeAcceptor
