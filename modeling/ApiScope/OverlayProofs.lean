import ApiScope.ByteProofs
import Mathlib.Data.List.Perm.Basic

/-! # Overlays — a memory with runs laid over it

    Some runs of bytes lie over a memory, no two of them over one address.
    Then it does not matter in what order they were stored: an address shows
    the byte of the one run that covers it, or what lies below.  A run can be
    taken away again, by storing what lies below it. -/

namespace ScopeOverlay

open ScopeBytes

/-- A run of bytes at an address. -/
structure Run where
  off : Nat
  bytes : List UInt8

/-- The run lies over the address. -/
def Run.Covers (r : Run) (a : Nat) : Prop := r.off ≤ a ∧ a < r.off + r.bytes.length

/-- No address is covered by both. -/
def Run.Disjoint (r r' : Run) : Prop := ∀ a, r.Covers a → ¬r'.Covers a

theorem Run.Disjoint.symm {r r' : Run} (h : r.Disjoint r') : r'.Disjoint r :=
  fun a h' hr => h a hr h'

/-- The memory with the runs stored over it, the head of the list last. -/
def overlay (mem : Memory) : List Run → Memory
  | [] => mem
  | r :: rs => store (overlay mem rs) r.off r.bytes

variable {mem : Memory} {rs rs' : List Run} {r : Run} {a : Nat}

theorem store_covered (h : r.Covers a) :
    store mem r.off r.bytes a = r.bytes.getD (a - r.off) 0 :=
  store_inside h.1 h.2

theorem store_uncovered (h : ¬r.Covers a) : store mem r.off r.bytes a = mem a := by
  refine store_outside ?_
  by_contra hin
  exact h ⟨by omega, by omega⟩

/-- An address under no run shows what lies below. -/
theorem overlay_uncovered (h : ∀ r ∈ rs, ¬r.Covers a) : overlay mem rs a = mem a := by
  induction rs with
  | nil => rfl
  | cons r rs ih =>
      rw [overlay, store_uncovered (h r List.mem_cons_self)]
      exact ih fun r' hr' => h r' (List.mem_cons_of_mem r hr')

/-- An address under a run shows the byte of the run. -/
theorem overlay_covered (hdisj : rs.Pairwise Run.Disjoint) (hr : r ∈ rs) (h : r.Covers a) :
    overlay mem rs a = r.bytes.getD (a - r.off) 0 := by
  induction rs with
  | nil => cases hr
  | cons r' rs ih =>
      obtain ⟨hhead, htail⟩ := List.pairwise_cons.mp hdisj
      rcases List.mem_cons.mp hr with rfl | hr
      · exact store_covered h
      · rw [overlay, store_uncovered fun h' => hhead r hr a h' h]
        exact ih htail hr

/-- **THE ORDER** of disjoint runs does not matter. -/
theorem overlay_perm (hdisj : rs.Pairwise Run.Disjoint) (hperm : rs.Perm rs') :
    overlay mem rs = overlay mem rs' := by
  have hdisj' : rs'.Pairwise Run.Disjoint := hdisj.perm hperm Run.Disjoint.symm
  funext a
  by_cases hcovered : ∃ r ∈ rs, r.Covers a
  · obtain ⟨r, hr, h⟩ := hcovered
    rw [overlay_covered hdisj hr h, overlay_covered hdisj' (hperm.mem_iff.mp hr) h]
  · have hnone : ∀ r ∈ rs, ¬r.Covers a := fun r hr h => hcovered ⟨r, hr, h⟩
    rw [overlay_uncovered hnone,
      overlay_uncovered fun r hr => hnone r (hperm.mem_iff.mpr hr)]

/-- **TAKING A RUN AWAY**: what lies below it is stored over it. -/
theorem overlay_restore (hdisj : (r :: rs).Pairwise Run.Disjoint) :
    store (overlay mem (r :: rs)) r.off (slice mem r.off r.bytes.length)
      = overlay mem rs := by
  have hlength : (slice mem r.off r.bytes.length).length = r.bytes.length :=
    slice_length _ _ _
  funext a
  by_cases h : r.Covers a
  · have hrest : ∀ r' ∈ rs, ¬r'.Covers a := fun r' hr' =>
      (List.pairwise_cons.mp hdisj).1 r' hr' a h
    rw [overlay_uncovered hrest]
    have hbelow : slice (store (overlay mem (r :: rs)) r.off
        (slice mem r.off r.bytes.length)) r.off r.bytes.length
        = slice mem r.off r.bytes.length := by
      have hself := slice_store_self (overlay mem (r :: rs)) r.off
        (slice mem r.off r.bytes.length)
      rwa [hlength] at hself
    exact byte_eq_of_slice_eq hbelow h.1 h.2
  · have hout : ¬(⟨r.off, slice mem r.off r.bytes.length⟩ : Run).Covers a := by
      rintro ⟨h1, h2⟩
      exact h ⟨h1, hlength ▸ h2⟩
    exact (store_uncovered (r := ⟨r.off, slice mem r.off r.bytes.length⟩) hout).trans
      (store_uncovered h)

end ScopeOverlay
