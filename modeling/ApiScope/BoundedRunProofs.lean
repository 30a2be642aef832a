import ApiScope.TransitionProofs
import Mathlib.Algebra.GroupWithZero.Nat

/-! # Bounded runs — what a run may spend

    A weight on the states pays for steps: a step costs something, and may
    gain something, by its kind or by how far it raises a level.  Summed over
    a run this bounds the cost of the run by the weight it starts with, what
    its steps gain and how far the level rises, whatever the order of the
    steps.

    Where some step of a kind is enabled as long as a goal is not met, and
    each step of the kind lowers the weight, some run of the kind meets the
    goal. -/

namespace ScopeTransition

variable {σ α ω : Type}

section Runs

variable {M : System σ α} {Q : σ → Prop} {weight level : σ → Nat}

/-- **COST RULE**: what every step pays out of the weight, a run pays. -/
theorem exec_cost {cost gain : α → Nat}
    (hkeep : ∀ s a s', Q s → M.step s a = some s' → Q s')
    (hpay : ∀ s a s', Q s → M.step s a = some s' →
      weight s' + cost a + level s ≤ weight s + gain a + level s')
    {s s' : σ} {as : List α} (hQ : Q s) (h : M.exec s as = some s') :
    weight s' + (as.map cost).sum + level s ≤ weight s + (as.map gain).sum + level s' := by
  induction as generalizing s with
  | nil =>
      rw [Option.some.inj h]
      exact Nat.le_refl _
  | cons a as ih =>
      rw [System.exec] at h
      cases hs : M.step s a with
      | none =>
          rw [hs] at h
          cases h
      | some s₁ =>
          rw [hs] at h
          have hrest := ih (hkeep s a s₁ hQ hs) h
          have hfirst := hpay s a s₁ hQ hs
          simp only [List.map_cons, List.sum_cons]
          omega

/-- **GOAL RULE**: if an own step is enabled wherever the goal is not met, and
    own steps lower the weight, own steps alone can meet the goal. -/
theorem exec_goal {own : α → Prop} {goal : σ → Prop}
    (hkeep : ∀ s a s', Q s → M.step s a = some s' → Q s')
    (hlower : ∀ s a s', Q s → own a → M.step s a = some s' → weight s' < weight s)
    (henabled : ∀ s, Q s → goal s ∨ ∃ a s', own a ∧ M.step s a = some s')
    {s : σ} (hQ : Q s) :
    ∃ as s', (∀ a ∈ as, own a) ∧ M.exec s as = some s' ∧ goal s' := by
  induction hw : weight s using Nat.strongRecOn generalizing s with
  | ind n ih =>
      rcases henabled s hQ with hgoal | ⟨a, s₁, ha, hs⟩
      · exact ⟨[], s, fun _ h => (List.not_mem_nil h).elim, rfl, hgoal⟩
      · have hlt := hlower s a s₁ hQ ha hs
        obtain ⟨as, s', hown, hexec, hgoal⟩ := ih _ (hw ▸ hlt) (hkeep s a s₁ hQ hs) rfl
        refine ⟨a :: as, s', ?_, ?_, hgoal⟩
        · intro b hb
          rcases List.mem_cons.mp hb with rfl | hb
          · exact ha
          · exact hown b hb
        · rw [System.exec, hs]
          exact hexec

end Runs

/-- A run shows some history. -/
theorem Reachable.with_history {M : System σ α} (obs : σ → α → List ω) {s : σ}
    (h : Reachable M s) : ∃ l, Reachable (M.traced obs) (s, l) := by
  induction h with
  | init h0 => exact ⟨[], .init ⟨h0, rfl⟩⟩
  | @step s s' a _ _ hs ih =>
      obtain ⟨l, hl⟩ := ih
      refine ⟨l ++ obs s a, .step (a := a) hl trivial ?_⟩
      show (M.step s a).map _ = _
      rw [hs]
      rfl

end ScopeTransition
