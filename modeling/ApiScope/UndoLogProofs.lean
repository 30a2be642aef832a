import ApiScope.OverlayProofs

/-! # Undo logs — saved runs, stored back from the last to the first

    Before a run of bytes is overwritten, the bytes are appended to a log.
    `undo` stores them all back, the last entry first, and gives the memory of
    the start, whatever runs overlap.  Only the watched addresses count: an
    entry beside them can be dropped, and one that shares no byte with a later
    entry can be taken back early. -/

namespace ScopeUndo

open ScopeBytes ScopeOverlay

/-- Store the saved runs back, the last one first. -/
def undo (log : List Run) (mem : Memory) : Memory :=
  log.foldr (fun r m => store m r.off r.bytes) mem

/-- The memories agree on the watched addresses. -/
def AgreeOn (p : Nat → Prop) (mem mem' : Memory) : Prop := ∀ a, p a → mem a = mem' a

variable {p : Nat → Prop} {mem mem' mem'' : Memory} {log front rear : List Run} {r : Run}

theorem AgreeOn.refl (p : Nat → Prop) (mem : Memory) : AgreeOn p mem mem := fun _ _ => rfl

theorem AgreeOn.symm (h : AgreeOn p mem mem') : AgreeOn p mem' mem :=
  fun a ha => (h a ha).symm

theorem AgreeOn.trans (h : AgreeOn p mem mem') (h' : AgreeOn p mem' mem'') :
    AgreeOn p mem mem'' :=
  fun a ha => (h a ha).trans (h' a ha)

theorem AgreeOn.store (h : AgreeOn p mem mem') (off : Nat) (bytes : List UInt8) :
    AgreeOn p (store mem off bytes) (store mem' off bytes) := by
  intro a ha
  rw [ScopeBytes.store, ScopeBytes.store, h a ha]

/-- A store beside the watched addresses. -/
theorem agreeOn_store {off : Nat} {bytes : List UInt8}
    (h : ∀ a, off ≤ a → a < off + bytes.length → ¬p a) :
    AgreeOn p (store mem off bytes) mem := by
  intro a ha
  refine store_outside ?_
  by_contra hin
  exact h a (by omega) (by omega) ha

@[simp] theorem undo_nil (mem : Memory) : undo [] mem = mem := rfl

theorem undo_cons (r : Run) (log : List Run) (mem : Memory) :
    undo (r :: log) mem = store (undo log mem) r.off r.bytes := rfl

theorem undo_append (front rear : List Run) (mem : Memory) :
    undo (front ++ rear) mem = undo front (undo rear mem) :=
  List.foldr_append

theorem AgreeOn.undo (h : AgreeOn p mem mem') (log : List Run) :
    AgreeOn p (undo log mem) (undo log mem') := by
  induction log with
  | nil => exact h
  | cons r log ih => exact ih.store r.off r.bytes

/-- **LOG**: a run that was saved before it was overwritten is undone. -/
theorem undo_push {off n : Nat}
    (h : ∀ a, p a → ¬(off ≤ a ∧ a < off + n) → mem' a = mem a) (log : List Run) :
    AgreeOn p (undo (log ++ [⟨off, slice mem off n⟩]) mem') (undo log mem) := by
  rw [undo_append]
  refine AgreeOn.undo (fun a ha => ?_) log
  show store mem' off (slice mem off n) a = mem a
  by_cases hin : off ≤ a ∧ a < off + n
  · have hself := byte_eq_of_slice_eq (n := n)
      ((congrArg (slice (store mem' off (slice mem off n)) off) (slice_length mem off n).symm).trans
        (slice_store_self mem' off (slice mem off n))) hin.1 hin.2
    exact hself
  · rw [store_outside (by rw [slice_length]; omega)]
    exact h a ha hin

/-- Runs that share no byte are all there afterwards. -/
theorem slice_undo
    (h : log.Pairwise fun r r' =>
      r.off + r.bytes.length ≤ r'.off ∨ r'.off + r'.bytes.length ≤ r.off)
    (hr : r ∈ log) (mem : Memory) : slice (undo log mem) r.off r.bytes.length = r.bytes := by
  induction log with
  | nil => cases hr
  | cons r' log ih =>
      obtain ⟨hfirst, hlater⟩ := List.pairwise_cons.mp h
      rw [undo_cons]
      rcases List.mem_cons.mp hr with rfl | hlog
      · exact slice_store_self _ _ _
      · rw [slice_store_disjoint (hfirst r hlog).symm]
        exact ih hlater hlog

/-- An entry beside the watched addresses does not count. -/
theorem undo_drop (h : ∀ a, p a → ¬r.Covers a) :
    AgreeOn p (undo (front ++ r :: rear) mem) (undo (front ++ rear) mem) := by
  rw [undo_append, undo_append, undo_cons]
  refine AgreeOn.undo (agreeOn_store fun a h1 h2 ha => ?_) front
  exact h a ha ⟨h1, h2⟩

/-- Two runs that share no byte can be stored in either order. -/
theorem store_comm {r' : Run} (h : r.Disjoint r') (mem : Memory) :
    store (store mem r.off r.bytes) r'.off r'.bytes
      = store (store mem r'.off r'.bytes) r.off r.bytes := by
  funext a
  by_cases hr : r.Covers a
  · rw [store_uncovered (h a hr), store_covered hr, store_covered hr]
  · by_cases hr' : r'.Covers a
    · rw [store_uncovered hr, store_covered hr', store_covered hr']
    · rw [store_uncovered hr, store_uncovered hr', store_uncovered hr', store_uncovered hr]

/-- **EARLY**: an entry that no later entry touches can be taken back first. -/
theorem undo_early (h : ∀ r' ∈ rear, r.Disjoint r') :
    undo (front ++ r :: rear) mem = undo (front ++ rear) (store mem r.off r.bytes) := by
  rw [undo_append, undo_append, undo_cons]
  refine congrArg (undo front) ?_
  induction rear with
  | nil => rfl
  | cons r' rear ih =>
      have hhead := h r' List.mem_cons_self
      have htail := ih fun x hx => h x (List.mem_cons_of_mem r' hx)
      rw [undo_cons, undo_cons, ← htail, store_comm hhead.symm]

end ScopeUndo
