import Mathlib.Data.List.Basic

/-! # Transition systems — runs, invariants, histories and projections

    A system is a set of initial states and a partial step function: an
    action is enabled exactly where the step returns a state.  One definition
    then replays concrete runs (`exec`) and defines the reachable states.

    Runs may be restricted to steps that meet a condition (`ReachableIf`),
    and may carry a history of what each step lets an observer see
    (`System.traced`).  The invariant rules are stated once here; every
    safety theorem of a model is an instance of them. -/

namespace ScopeTransition

variable {σ τ α β ω : Type}

/-- A labelled transition system with a partial step function. -/
structure System (σ α : Type) where
  init : σ → Prop
  step : σ → α → Option σ

/-- The states reached by runs all of whose steps satisfy `ok`. -/
inductive ReachableIf (M : System σ α) (ok : σ → α → Prop) : σ → Prop where
  | init {s : σ} : M.init s → ReachableIf M ok s
  | step {s s' : σ} {a : α} : ReachableIf M ok s → ok s a →
      M.step s a = some s' → ReachableIf M ok s'

/-- The states reached by unrestricted runs. -/
abbrev Reachable (M : System σ α) : σ → Prop :=
  ReachableIf M fun _ _ => True

/-- **INVARIANT RULE**: what holds initially and is kept by every admitted
    step holds of every state such runs reach. -/
theorem ReachableIf.invariant {M : System σ α} {ok : σ → α → Prop}
    {P : σ → Prop} (hinit : ∀ s, M.init s → P s)
    (hstep : ∀ s a s', P s → ok s a → M.step s a = some s' → P s')
    {s : σ} (h : ReachableIf M ok s) : P s := by
  induction h with
  | init h0 => exact hinit _ h0
  | step _ hok hs ih => exact hstep _ _ _ ih hok hs

/-- The rule relative to an invariant that is already known. -/
theorem ReachableIf.invariant_under {M : System σ α} {ok : σ → α → Prop}
    {Q P : σ → Prop} (hQ : ∀ s, ReachableIf M ok s → Q s)
    (hinit : ∀ s, M.init s → P s)
    (hstep : ∀ s a s', Q s → P s → ok s a → M.step s a = some s' → P s')
    {s : σ} (h : ReachableIf M ok s) : P s := by
  induction h with
  | init h0 => exact hinit _ h0
  | step hr hok hs ih => exact hstep _ _ _ (hQ _ hr) ih hok hs

/-- Fewer admitted steps reach fewer states. -/
theorem ReachableIf.mono {M : System σ α} {ok ok' : σ → α → Prop}
    (himp : ∀ s a, ok s a → ok' s a) {s : σ} (h : ReachableIf M ok s) :
    ReachableIf M ok' s := by
  induction h with
  | init h0 => exact .init h0
  | step _ hok hs ih => exact .step ih (himp _ _ hok) hs

/-! ## Replay -/

/-- Replay a list of actions. -/
def System.exec (M : System σ α) : σ → List α → Option σ
  | s, [] => some s
  | s, a :: as =>
      match M.step s a with
      | none => none
      | some s' => M.exec s' as

/-- A replayed run reaches its last state, if every step it takes is admitted;
    `Q` is what the run keeps and admission needs. -/
theorem ReachableIf.exec_under {M : System σ α} {ok : σ → α → Prop} {Q : σ → Prop}
    {s s' : σ} (hr : ReachableIf M ok s) (hQ : Q s) (as : List α)
    (hok : ∀ s a, a ∈ as → Q s → ok s a)
    (hkeep : ∀ s a s', a ∈ as → Q s → M.step s a = some s' → Q s')
    (h : M.exec s as = some s') : ReachableIf M ok s' := by
  induction as generalizing s with
  | nil => exact Option.some.inj h ▸ hr
  | cons a as ih =>
      rw [System.exec] at h
      cases hs : M.step s a with
      | none => rw [hs] at h; cases h
      | some s₁ =>
          rw [hs] at h
          have ha : a ∈ a :: as := List.mem_cons_self
          refine ih (.step hr (hok s a ha hQ) hs) (hkeep s a s₁ ha hQ hs) ?_ ?_ h
          · exact fun s b hb => hok s b (List.mem_cons_of_mem _ hb)
          · exact fun s b s' hb => hkeep s b s' (List.mem_cons_of_mem _ hb)

/-- What every step of a replayed run keeps, the run keeps. -/
theorem exec_keeps {M : System σ α} {Q : σ → Prop} {s s' : σ} (hQ : Q s) (as : List α)
    (hkeep : ∀ s a s', a ∈ as → Q s → M.step s a = some s' → Q s')
    (h : M.exec s as = some s') : Q s' := by
  induction as generalizing s with
  | nil => exact Option.some.inj h ▸ hQ
  | cons a as ih =>
      rw [System.exec] at h
      cases hs : M.step s a with
      | none => rw [hs] at h; cases h
      | some s₁ =>
          rw [hs] at h
          exact ih (hkeep s a s₁ List.mem_cons_self hQ hs)
            (fun s b s' hb => hkeep s b s' (List.mem_cons_of_mem _ hb)) h

theorem ReachableIf.exec {M : System σ α} {ok : σ → α → Prop} {s s' : σ}
    (hr : ReachableIf M ok s) (hok : ∀ s a, ok s a) (as : List α)
    (h : M.exec s as = some s') : ReachableIf M ok s' :=
  hr.exec_under (Q := fun _ => True) trivial as (fun s a _ _ => hok s a)
    (fun _ _ _ _ _ _ => trivial) h

/-- Replay a list of actions as long as each is admitted where it is taken. -/
def System.execWhile (M : System σ α) (admits : σ → α → Bool) : σ → List α → Option σ
  | s, [] => some s
  | s, a :: as =>
      if admits s a then
        match M.step s a with
        | none => none
        | some s' => M.execWhile admits s' as
      else none

theorem ReachableIf.execWhile_mem {M : System σ α} {ok : σ → α → Prop}
    {admits : σ → α → Bool} {s s' : σ} (hr : ReachableIf M ok s) (as : List α)
    (hok : ∀ s a, a ∈ as → admits s a = true → ok s a)
    (h : M.execWhile admits s as = some s') : ReachableIf M ok s' := by
  induction as generalizing s with
  | nil => exact Option.some.inj h ▸ hr
  | cons a as ih =>
      rw [System.execWhile] at h
      split at h
      next ha =>
        cases hs : M.step s a with
        | none => rw [hs] at h; cases h
        | some s₁ =>
            rw [hs] at h
            refine ih (.step hr (hok s a List.mem_cons_self ha) hs) ?_ h
            exact fun s b hb => hok s b (List.mem_cons_of_mem _ hb)
      next => cases h

theorem ReachableIf.execWhile {M : System σ α} {ok : σ → α → Prop}
    {admits : σ → α → Bool} (hok : ∀ s a, admits s a = true → ok s a) {s s' : σ}
    (hr : ReachableIf M ok s) (as : List α)
    (h : M.execWhile admits s as = some s') : ReachableIf M ok s' :=
  hr.execWhile_mem as (fun s a _ => hok s a) h

/-! ## Histories -/

/-- The system that also records, for every step, what `obs` shows of it. -/
def System.traced (M : System σ α) (obs : σ → α → List ω) :
    System (σ × List ω) α where
  init p := M.init p.1 ∧ p.2 = []
  step p a := (M.step p.1 a).map fun s' => (s', p.2 ++ obs p.1 a)

/-- A traced step is a step, and extends the history by its observations. -/
theorem traced_step {M : System σ α} {obs : σ → α → List ω}
    {p p' : σ × List ω} {a : α} (h : (M.traced obs).step p a = some p') :
    M.step p.1 a = some p'.1 ∧ p'.2 = p.2 ++ obs p.1 a := by
  have h' : (M.step p.1 a).map (fun s' => (s', p.2 ++ obs p.1 a))
      = some p' := h
  obtain ⟨s', hs, hp⟩ := Option.map_eq_some_iff.mp h'
  rw [← hp]
  exact ⟨hs, rfl⟩

/-- Recording a history does not change what is reachable. -/
theorem reachable_of_traced {M : System σ α} {obs : σ → α → List ω}
    {ok : σ → α → Prop} {p : σ × List ω}
    (h : ReachableIf (M.traced obs) (fun p a => ok p.1 a) p) :
    ReachableIf M ok p.1 := by
  induction h with
  | init h0 => exact .init h0.1
  | step _ hok hs ih => exact .step ih hok (traced_step hs).1

/-- The invariant rule for a state together with its history. -/
theorem traced_invariant {M : System σ α} {obs : σ → α → List ω}
    {ok : σ → α → Prop} {Q : σ → Prop} {P : σ → List ω → Prop}
    (hQ : ∀ s, ReachableIf M ok s → Q s)
    (hinit : ∀ s, M.init s → P s [])
    (hstep : ∀ s h a s', Q s → P s h → ok s a → M.step s a = some s' →
      P s' (h ++ obs s a))
    {p : σ × List ω}
    (h : ReachableIf (M.traced obs) (fun p a => ok p.1 a) p) :
    P p.1 p.2 := by
  induction h with
  | init h0 =>
      rw [h0.2]
      exact hinit _ h0.1
  | step hr hok hs ih =>
      obtain ⟨h1, h2⟩ := traced_step hs
      rw [h2]
      exact hstep _ _ _ _ (hQ _ (reachable_of_traced hr)) ih hok h1

/-- Both rules for unrestricted runs. -/
theorem Reachable.untraced {M : System σ α} {obs : σ → α → List ω}
    {p : σ × List ω} (h : Reachable (M.traced obs) p) : Reachable M p.1 :=
  @reachable_of_traced _ _ _ M obs (fun _ _ => True) p h

theorem Reachable.traced_invariant {M : System σ α} {obs : σ → α → List ω}
    {Q : σ → Prop} {P : σ → List ω → Prop}
    (hQ : ∀ s, Reachable M s → Q s) (hinit : ∀ s, M.init s → P s [])
    (hstep : ∀ s h a s', Q s → P s h → M.step s a = some s' →
      P s' (h ++ obs s a))
    {p : σ × List ω} (h : Reachable (M.traced obs) p) : P p.1 p.2 :=
  @ScopeTransition.traced_invariant _ _ _ M obs (fun _ _ => True) Q P hQ hinit
    (fun s h a s' hq hp _ hs => hstep s h a s' hq hp hs) p h

/-! ## Projections -/

/-- A component whose value every step of the big system keeps or moves by a
    step of the small one stays among the small system's reachable states. -/
theorem ReachableIf.project {M : System σ α} {N : System τ β}
    {ok : σ → α → Prop} {ok' : τ → β → Prop} (f : σ → τ)
    (hinit : ∀ s, M.init s → N.init (f s))
    (hstep : ∀ s a s', ok s a → M.step s a = some s' →
      f s' = f s ∨ ∃ b, ok' (f s) b ∧ N.step (f s) b = some (f s'))
    {s : σ} (h : ReachableIf M ok s) : ReachableIf N ok' (f s) := by
  induction h with
  | init h0 => exact .init (hinit _ h0)
  | step _ hok hs ih =>
      rcases hstep _ _ _ hok hs with heq | ⟨b, hb, hN⟩
      · rw [heq]
        exact ih
      · exact .step ih hb hN

end ScopeTransition
