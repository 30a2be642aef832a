import Mathlib.Logic.Function.Basic
import Mathlib.Data.List.Basic

/-! # Replay — keyed actions delivered out of order

    Actions put, drop and look up the value of a key.  They take effect in
    one order and are delivered, one by one, in another.  An action may be
    delivered before earlier ones as long as it conflicts with none of them:
    it changes no key they touch and touches no key they change.  Then the
    receiver's map plus what is still on the way is always the real map
    (`replay_deliver`), and each look-up finds at delivery what it saw at its
    effect (`Consistent.deliver`). -/

namespace ScopeReplay

variable {κ ν : Type} [DecidableEq κ]

inductive KeyAct (κ ν : Type) where
  | put (k : κ) (v : ν)
  | drop (k : κ)
  | look (k : κ)
  | skip
  deriving DecidableEq

namespace KeyAct

/-- The key an action touches. -/
def key : KeyAct κ ν → Option κ
  | put k _ => some k
  | drop k => some k
  | look k => some k
  | skip => none

/-- The key an action changes. -/
def changed : KeyAct κ ν → Option κ
  | put k _ => some k
  | drop k => some k
  | look _ => none
  | skip => none

/-- The value the changed key gets. -/
def value : KeyAct κ ν → Option ν
  | put _ v => some v
  | _ => none

def apply (m : κ → Option ν) (a : KeyAct κ ν) : κ → Option ν :=
  match a.changed with
  | some k => Function.update m k a.value
  | none => m

/-- One of two actions changes a key the other touches. -/
def Conflict (a b : KeyAct κ ν) : Prop :=
  ∃ k, a.changed = some k ∧ b.key = some k ∨ a.key = some k ∧ b.changed = some k

omit [DecidableEq κ] in
theorem key_of_changed {a : KeyAct κ ν} {k : κ} (h : a.changed = some k) :
    a.key = some k := by
  cases a with
  | put _ _ => exact h
  | drop _ => exact h
  | look _ => cases h
  | skip => cases h

theorem apply_of_eq {a : KeyAct κ ν} {k : κ} (h : a.changed = some k)
    (m : κ → Option ν) : a.apply m k = a.value := by
  rw [apply, h]
  exact Function.update_self ..

/-- An action leaves every key it does not change. -/
theorem apply_of_ne {a : KeyAct κ ν} {k : κ} (h : a.changed ≠ some k)
    (m : κ → Option ν) : a.apply m k = m k := by
  rw [apply]
  cases hc : a.changed with
  | none => rfl
  | some k' =>
      refine Function.update_of_ne (fun heq => ?_) _ _
      rw [hc, heq] at h
      exact h rfl

/-- Actions that change no common key commute. -/
theorem apply_comm {a b : KeyAct κ ν}
    (h : ∀ k, a.changed = some k → b.changed ≠ some k) (m : κ → Option ν) :
    a.apply (b.apply m) = b.apply (a.apply m) := by
  funext k
  by_cases ha : a.changed = some k
  · rw [apply_of_eq ha, apply_of_ne (h k ha), apply_of_eq ha]
  · rw [apply_of_ne ha]
    by_cases hb : b.changed = some k
    · rw [apply_of_eq hb, apply_of_eq hb]
    · rw [apply_of_ne hb, apply_of_ne hb, apply_of_ne ha]

end KeyAct

open KeyAct

/-- The map after a list of actions. -/
def replay (m : κ → Option ν) (as : List (KeyAct κ ν)) : κ → Option ν :=
  as.foldl KeyAct.apply m

theorem replay_cons (m : κ → Option ν) (a : KeyAct κ ν) (as : List (KeyAct κ ν)) :
    replay m (a :: as) = replay (a.apply m) as := rfl

theorem replay_append (m : κ → Option ν) (as bs : List (KeyAct κ ν)) :
    replay m (as ++ bs) = replay (replay m as) bs := List.foldl_append

/-- A key that no action changes keeps its value. -/
theorem replay_of_unchanged {as : List (KeyAct κ ν)} {k : κ}
    (h : ∀ a ∈ as, a.changed ≠ some k) (m : κ → Option ν) : replay m as k = m k := by
  induction as generalizing m with
  | nil => rfl
  | cons a rest ih =>
      rw [replay_cons, ih fun b hb => h b (List.mem_cons_of_mem _ hb)]
      exact apply_of_ne (h a List.mem_cons_self) m

/-- A key with a value keeps one until it is dropped. -/
theorem replay_ne_none {as : List (KeyAct κ ν)} {k : κ} {m : κ → Option ν}
    (hm : m k ≠ none) (h : ∀ a ∈ as, a ≠ .drop k) : replay m as k ≠ none := by
  induction as generalizing m with
  | nil => exact hm
  | cons a rest ih =>
      rw [replay_cons]
      refine ih ?_ fun b hb => h b (List.mem_cons_of_mem _ hb)
      by_cases hk : a.changed = some k
      · rw [apply_of_eq hk]
        cases a with
        | put k' v => exact Option.some_ne_none v
        | drop k' =>
            rw [Option.some.inj hk] at h
            exact absurd rfl (h _ List.mem_cons_self)
        | look _ => cases hk
        | skip => cases hk
      · rw [apply_of_ne hk]
        exact hm

/-- **DELIVERY**: an action that conflicts with none of the earlier ones may
    be applied before them. -/
theorem replay_deliver {as : List (KeyAct κ ν)} {x : KeyAct κ ν}
    (h : ∀ a ∈ as, ¬ Conflict x a) (m : κ → Option ν) (bs : List (KeyAct κ ν)) :
    replay (x.apply m) (as ++ bs) = replay m (as ++ x :: bs) := by
  induction as generalizing m with
  | nil => rfl
  | cons a rest ih =>
      have hcomm : a.apply (x.apply m) = x.apply (a.apply m) :=
        apply_comm (fun k ha hx => h a List.mem_cons_self
          ⟨k, Or.inl ⟨hx, key_of_changed ha⟩⟩) m
      rw [List.cons_append, List.cons_append, replay_cons, replay_cons, hcomm]
      exact ih (fun b hb => h b (List.mem_cons_of_mem _ hb)) _

/-- Each action of the list saw the value its key has when the ones before it
    are replayed. -/
def Consistent (m : κ → Option ν) : List (KeyAct κ ν × Option ν) → Prop
  | [] => True
  | x :: xs => (∀ k, x.1.key = some k → x.2 = m k) ∧ Consistent (x.1.apply m) xs

theorem consistent_append {m : κ → Option ν} {as bs : List (KeyAct κ ν × Option ν)} :
    Consistent m (as ++ bs)
      ↔ Consistent m as ∧ Consistent (replay m (as.map Prod.fst)) bs := by
  induction as generalizing m with
  | nil => exact ⟨fun h => ⟨trivial, h⟩, And.right⟩
  | cons a rest ih =>
      rw [List.cons_append, List.map_cons, replay_cons, Consistent, Consistent, ih,
        and_assoc]

/-- Applying an action that conflicts with none of a list first. -/
theorem Consistent.apply {m : κ → Option ν} {as : List (KeyAct κ ν × Option ν)}
    (hc : Consistent m as) {x : KeyAct κ ν} (h : ∀ a ∈ as, ¬ Conflict x a.1) :
    Consistent (x.apply m) as := by
  induction as generalizing m with
  | nil => exact trivial
  | cons a rest ih =>
      have hfree := h a List.mem_cons_self
      refine ⟨fun k hk => ?_, ?_⟩
      · have hx : x.changed ≠ some k := fun hx => hfree ⟨k, Or.inl ⟨hx, hk⟩⟩
        rw [apply_of_ne hx]
        exact hc.1 k hk
      · rw [apply_comm (fun k ha hx => hfree ⟨k, Or.inl ⟨hx, key_of_changed ha⟩⟩)]
        exact ih hc.2 fun b hb => h b (List.mem_cons_of_mem _ hb)

/-- **DELIVERY KEEPS CONSISTENCY**, and the delivered action saw the value its
    key has at the receiver. -/
theorem Consistent.deliver {m : κ → Option ν} {as bs : List (KeyAct κ ν × Option ν)}
    {x : KeyAct κ ν × Option ν} (hc : Consistent m (as ++ x :: bs))
    (h : ∀ a ∈ as, ¬ Conflict x.1 a.1) :
    (∀ k, x.1.key = some k → x.2 = m k) ∧ Consistent (x.1.apply m) (as ++ bs) := by
  obtain ⟨has, hx, hbs⟩ := consistent_append.mp hc
  constructor
  · intro k hk
    rw [hx k hk]
    refine replay_of_unchanged (fun a ha => ?_) m
    obtain ⟨y, hy, rfl⟩ := List.mem_map.mp ha
    exact fun hyk => h y hy ⟨k, Or.inr ⟨hk, hyk⟩⟩
  · refine consistent_append.mpr ⟨has.apply h, ?_⟩
    have hdeliver := @replay_deliver _ _ _ (as.map Prod.fst) x.1 (by
      intro a ha
      obtain ⟨y, hy, rfl⟩ := List.mem_map.mp ha
      exact h y hy) m []
    rw [List.append_nil, replay_append] at hdeliver
    rw [hdeliver]
    exact hbs

end ScopeReplay
