import Mathlib.Algebra.Order.BigOperators.Group.List
import Mathlib.Algebra.Order.Ring.Nat

/-! # Lines — texts whose parts end with a terminator

    A text is written as a list of lines, with a terminator behind each.  The
    lines are not a function of the text as long as a line may hold the
    terminator itself; but of two readings with the same number of lines, if
    no line of the one holds it, then the other is the same. -/

namespace ScopeLines

variable {α : Type} {t : α}

/-- The lines, each with its terminator. -/
def terminated (t : α) (lines : List (List α)) : List α := lines.flatMap (· ++ [t])

theorem terminated_cons (line : List α) (lines : List (List α)) :
    terminated t (line :: lines) = line ++ t :: terminated t lines := by
  rw [terminated, List.flatMap_cons, List.append_assoc]
  rfl

theorem terminated_append (lines lines' : List (List α)) :
    terminated t (lines ++ lines') = terminated t lines ++ terminated t lines' :=
  List.flatMap_append

/-- Two texts up to their first terminator. -/
theorem append_cons_inj {x y r s : List α} (hx : t ∉ x) (hy : t ∉ y)
    (h : x ++ t :: r = y ++ t :: s) : x = y ∧ r = s := by
  induction x generalizing y with
  | nil =>
      cases y with
      | nil => exact ⟨rfl, (List.cons.inj h).2⟩
      | cons b y => exact absurd (List.mem_cons.mpr (Or.inl (List.cons.inj h).1)) hy
  | cons a x ih =>
      cases y with
      | nil => exact absurd (List.mem_cons.mpr (Or.inl (List.cons.inj h).1.symm)) hx
      | cons b y =>
          obtain ⟨rfl, hrest⟩ := List.cons.inj h
          obtain ⟨rfl, hrs⟩ := ih (fun hmem => hx (List.mem_cons_of_mem _ hmem))
            (fun hmem => hy (List.mem_cons_of_mem _ hmem)) hrest
          exact ⟨rfl, hrs⟩

section
variable [DecidableEq α]

/-- One terminator for each line, and those inside of the lines. -/
theorem count_terminated (lines : List (List α)) :
    (terminated t lines).count t = lines.length + (lines.map (List.count t)).sum := by
  induction lines with
  | nil => rfl
  | cons line lines ih =>
      rw [terminated_cons, List.count_append, List.count_cons_self, ih, List.length_cons,
        List.map_cons, List.sum_cons]
      omega

/-- **ONE READING**: of two readings with as many lines, one without a terminator in a
    line is the other. -/
theorem terminated_inj {lines lines' : List (List α)}
    (h : terminated t lines = terminated t lines') (hlength : lines.length = lines'.length)
    (hfree : ∀ line ∈ lines', t ∉ line) : lines = lines' := by
  have hcount := congrArg (List.count t) h
  have hzero : (lines'.map (List.count t)).sum = 0 := by
    refine List.sum_eq_zero fun n hn => ?_
    obtain ⟨line, hline, rfl⟩ := List.mem_map.mp hn
    exact List.count_eq_zero.mpr (hfree line hline)
  rw [count_terminated, count_terminated, hlength, hzero] at hcount
  have hfree' : ∀ line ∈ lines, t ∉ line := by
    intro line hline
    have hle := List.single_le_sum (l := lines.map (List.count t))
      (fun n _ => Nat.zero_le n) _ (List.mem_map_of_mem hline)
    exact List.count_eq_zero.mp (by omega)
  -- with no terminator inside of either, the texts are compared line by line
  clear hcount hzero
  induction lines generalizing lines' with
  | nil => exact (List.length_eq_zero_iff.mp hlength.symm).symm
  | cons line lines ih =>
      cases lines' with
      | nil => cases hlength
      | cons line' lines' =>
          rw [terminated_cons, terminated_cons] at h
          obtain ⟨rfl, hrest⟩ := append_cons_inj (hfree' _ List.mem_cons_self)
            (hfree _ List.mem_cons_self) h
          rw [ih hrest (Nat.succ.inj hlength) (fun l hl => hfree l (List.mem_cons_of_mem _ hl))
            (fun l hl => hfree' l (List.mem_cons_of_mem _ hl))]

/-- Lines without a terminator are read back from the text. -/
theorem splitOn_terminated {lines : List (List α)} (hfree : ∀ line ∈ lines, t ∉ line) :
    ((terminated t lines).splitOn t).dropLast = lines := by
  have hsplit : (terminated t lines).splitOn t = lines ++ [[]] := by
    induction lines with
    | nil => rfl
    | cons line lines ih =>
        rw [terminated_cons, List.splitOn_append_cons_self_of_not_mem (hfree _ List.mem_cons_self),
          ih fun l hl => hfree l (List.mem_cons_of_mem _ hl)]
        rfl
  rw [hsplit, List.dropLast_concat]

end

end ScopeLines
