import Mathlib.Algebra.GroupWithZero.Nat
import Mathlib.Data.List.Basic
import Mathlib.Data.List.Nodup
import Mathlib.Data.List.Induction

/-! # Tallies — counters by key

    A table of counters that are created when their key is first met.  What a
    table holds after a list of keys is the number of times each was met,
    and the counters add up to the length of the list. -/

namespace ScopeTally

variable {κ : Type} [DecidableEq κ]

/-- `++table[key]`. -/
def bump (key : κ) : List (κ × Nat) → List (κ × Nat)
  | [] => [(key, 1)]
  | (k, n) :: rest => if k = key then (k, n + 1) :: rest else (k, n) :: bump key rest

/-- The table after the keys of a list. -/
def tally (keys : List κ) : List (κ × Nat) := keys.foldl (fun t k => bump k t) []

theorem tally_snoc (keys : List κ) (key : κ) :
    tally (keys ++ [key]) = bump key (tally keys) := by
  rw [tally, List.foldl_append]
  rfl

theorem mem_keys_bump {key k : κ} {t : List (κ × Nat)} :
    k ∈ (bump key t).map Prod.fst ↔ k = key ∨ k ∈ t.map Prod.fst := by
  induction t with
  | nil => simp [bump]
  | cons x rest ih =>
      obtain ⟨k', n⟩ := x
      rw [bump]
      by_cases hk : k' = key
      · rw [if_pos hk, hk]
        simp
      · rw [if_neg hk, List.map_cons, List.mem_cons, ih, List.map_cons, List.mem_cons]
        exact or_left_comm

/-- A key has one counter. -/
theorem nodup_bump {key : κ} {t : List (κ × Nat)} (h : (t.map Prod.fst).Nodup) :
    ((bump key t).map Prod.fst).Nodup := by
  induction t with
  | nil => exact List.nodup_singleton key
  | cons x rest ih =>
      obtain ⟨k, n⟩ := x
      obtain ⟨hk, hrest⟩ := List.nodup_cons.mp h
      rw [bump]
      by_cases heq : k = key
      · rw [if_pos heq]
        exact h
      · rw [if_neg heq]
        refine List.nodup_cons.mpr ⟨fun hmem => ?_, ih hrest⟩
        exact (mem_keys_bump.mp hmem).elim heq hk

theorem nodup_tally (keys : List κ) : ((tally keys).map Prod.fst).Nodup := by
  induction keys using List.reverseRecOn with
  | nil => exact List.nodup_nil
  | append_singleton keys key ih =>
      rw [tally_snoc]
      exact nodup_bump ih

theorem mem_bump {key k : κ} {n : Nat} {t : List (κ × Nat)} (h : (t.map Prod.fst).Nodup) :
    (k, n) ∈ bump key t ↔ (k ≠ key ∧ (k, n) ∈ t) ∨
      (k = key ∧ ((key ∉ t.map Prod.fst ∧ n = 1) ∨ ∃ m, (key, m) ∈ t ∧ n = m + 1)) := by
  induction t with
  | nil =>
      simp only [bump, List.mem_singleton, Prod.mk.injEq, List.not_mem_nil, and_false, false_or,
        List.map_nil, not_false_eq_true, true_and, false_and, exists_false, or_false]
  | cons x rest ih =>
      obtain ⟨k', m⟩ := x
      obtain ⟨hk', hrest⟩ := List.nodup_cons.mp h
      have hpair : ∀ {a : κ} {b : Nat}, (a, b) ∈ rest → a ∈ rest.map Prod.fst :=
        fun hmem => List.mem_map.mpr ⟨_, hmem, rfl⟩
      rw [bump]
      by_cases heq : k' = key
      · subst heq
        rw [if_pos rfl]
        by_cases hk : k = k'
        · subst hk
          have hno : ∀ b, (k, b) ∉ rest := fun b hmem => hk' (hpair hmem)
          simp [hno]
        · simp [hk]
      · rw [if_neg heq, List.mem_cons, ih hrest]
        by_cases hk : k = key
        · subst hk
          have hne : k ≠ k' := fun h => heq h.symm
          simp [hne]
        · simp [hk]

/-- **COUNTS**: the counter of a key is the number of its occurrences; a key
    that does not occur has none. -/
theorem mem_tally [BEq κ] [LawfulBEq κ] {keys : List κ} {k : κ} {n : Nat} :
    (k, n) ∈ tally keys ↔ n = keys.count k ∧ 0 < n := by
  induction keys using List.reverseRecOn generalizing k n with
  | nil =>
      simp only [tally, List.foldl_nil, List.not_mem_nil, List.count_nil, false_iff, not_and]
      rintro rfl
      exact Nat.lt_irrefl 0
  | append_singleton keys key ih =>
      have hkeys : key ∈ (tally keys).map Prod.fst ↔ 0 < keys.count key := by
        rw [List.mem_map]
        constructor
        · rintro ⟨⟨a, m⟩, hmem, rfl⟩
          obtain ⟨rfl, hpos⟩ := ih.mp hmem
          exact hpos
        · exact fun hpos => ⟨(key, keys.count key), ih.mpr ⟨rfl, hpos⟩, rfl⟩
      rw [tally_snoc, mem_bump (nodup_tally keys), List.count_append, List.count_singleton, hkeys,
        ih]
      by_cases hk : k = key
      · subst hk
        simp only [ne_eq, not_true_eq_false, false_and, false_or, true_and, beq_self_eq_true,
          if_true]
        constructor
        · rintro (⟨hzero, rfl⟩ | ⟨m, hm, rfl⟩)
          · omega
          · obtain ⟨rfl, -⟩ := ih.mp hm
            omega
        · rintro ⟨rfl, -⟩
          by_cases hpos : 0 < keys.count k
          · exact Or.inr ⟨_, ih.mpr ⟨rfl, hpos⟩, rfl⟩
          · exact Or.inl ⟨hpos, by omega⟩
      · have hbeq : (key == k) = false := beq_eq_false_iff_ne.mpr fun h => hk h.symm
        simp [hk, hbeq]

theorem sum_bump (key : κ) (t : List (κ × Nat)) :
    ((bump key t).map Prod.snd).sum = (t.map Prod.snd).sum + 1 := by
  induction t with
  | nil => rfl
  | cons x rest ih =>
      obtain ⟨k, n⟩ := x
      rw [bump]
      split
      · simp only [List.map_cons, List.sum_cons]
        omega
      · simp only [List.map_cons, List.sum_cons, ih]
        omega

/-- The counters add up. -/
theorem sum_tally (keys : List κ) : ((tally keys).map Prod.snd).sum = keys.length := by
  induction keys using List.reverseRecOn with
  | nil => rfl
  | append_singleton keys key ih =>
      rw [tally_snoc, sum_bump, ih, List.length_append, List.length_singleton]

end ScopeTally
