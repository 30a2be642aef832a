import ApiScope.ByteProofs

/-! # Read programs — walkers over a byte memory, with every access logged

    A walker that only reads memory is a decision tree: it returns, or it
    asks for one byte and continues with the answer.  Written this way one
    definition has two readings: `run` is what the walker computes, `reads`
    is the list of addresses it touched on the way.

    Two laws carry everything built on top: `run` and `reads` distribute over
    sequencing, and a program cannot distinguish two memories that agree on
    the addresses it read (`run_congr`). -/

namespace ScopeRead

open ScopeBytes

/-- A program that reads bytes and returns a value. -/
inductive Read (α : Type) where
  | ret (a : α) : Read α
  | fetch (i : Nat) (k : UInt8 → Read α) : Read α

namespace Read

variable {α β γ : Type}

def andThen : Read α → (α → Read β) → Read β
  | .ret a, f => f a
  | .fetch i k, f => .fetch i fun b => (k b).andThen f

instance : Monad Read where
  pure := Read.ret
  bind := Read.andThen

/-- The value the program returns on a memory. -/
def run : Read α → Memory → α
  | .ret a, _ => a
  | .fetch i k, mem => (k (mem i)).run mem

/-- The addresses the program reads on a memory, in order. -/
def reads : Read α → Memory → List Nat
  | .ret _, _ => []
  | .fetch i k, mem => i :: (k (mem i)).reads mem

@[simp] theorem run_pure (a : α) (mem : Memory) :
    (Pure.pure a : Read α).run mem = a := by
  show (Read.ret a).run mem = a
  simp [run]

@[simp] theorem reads_pure (a : α) (mem : Memory) :
    (Pure.pure a : Read α).reads mem = [] := rfl

@[simp] theorem run_bind (p : Read α) (f : α → Read β) (mem : Memory) :
    (p >>= f).run mem = (f (p.run mem)).run mem := by
  induction p with
  | ret a => rfl
  | fetch i k ih => exact ih (mem i)

@[simp] theorem reads_bind (p : Read α) (f : α → Read β) (mem : Memory) :
    (p >>= f).reads mem = p.reads mem ++ (f (p.run mem)).reads mem := by
  induction p with
  | ret a => rfl
  | fetch i k ih =>
      show i :: ((k (mem i)).andThen f).reads mem
        = (i :: (k (mem i)).reads mem) ++ (f ((k (mem i)).run mem)).reads mem
      rw [List.cons_append]
      exact congrArg (i :: ·) (ih (mem i))

@[simp] theorem run_ite (c : Prop) [Decidable c] (p q : Read α) (mem : Memory) :
    (if c then p else q).run mem = if c then p.run mem else q.run mem := by
  split <;> rfl

@[simp] theorem reads_ite (c : Prop) [Decidable c] (p q : Read α) (mem : Memory) :
    (if c then p else q).reads mem = if c then p.reads mem else q.reads mem := by
  split <;> rfl

/-- A program sees only what it reads: memories that agree on the addresses
    it touches give it the same result and the same accesses. -/
theorem run_congr {p : Read α} {mem mem' : Memory}
    (h : ∀ i ∈ p.reads mem, mem i = mem' i) :
    p.run mem = p.run mem' ∧ p.reads mem = p.reads mem' := by
  induction p with
  | ret a => exact ⟨rfl, rfl⟩
  | fetch i k ih =>
      have hi : mem i = mem' i := h i (List.mem_cons_self ..)
      have hk := ih (mem i) (fun j hj => h j (List.mem_cons_of_mem _ hj))
      constructor
      · show (k (mem i)).run mem = (k (mem' i)).run mem'
        rw [← hi]
        exact hk.1
      · show i :: (k (mem i)).reads mem = i :: (k (mem' i)).reads mem'
        rw [← hi, hk.2]

/-! ## Bounded accesses -/

/-- Every access of the program on `mem` satisfies `P`. -/
def Within (P : Nat → Prop) (p : Read α) (mem : Memory) : Prop :=
  ∀ i ∈ p.reads mem, P i

theorem within_pure (P : Nat → Prop) (a : α) (mem : Memory) :
    Within P (Pure.pure a : Read α) mem := fun _ h => nomatch h

/-- The accesses of a sequence are those of its parts. -/
theorem within_bind {P : Nat → Prop} {p : Read α} {f : α → Read β}
    {mem : Memory} :
    Within P (p >>= f) mem
      ↔ Within P p mem ∧ Within P (f (p.run mem)) mem := by
  unfold Within
  rw [reads_bind]
  constructor
  · intro h
    exact ⟨fun i hi => h i (List.mem_append_left _ hi),
      fun i hi => h i (List.mem_append_right _ hi)⟩
  · rintro ⟨h1, h2⟩ i hi
    rcases List.mem_append.mp hi with hL | hR
    · exact h1 i hL
    · exact h2 i hR

theorem within_seq {P : Nat → Prop} {p : Read α} {f : α → Read β}
    {mem : Memory} (h1 : Within P p mem)
    (h2 : Within P (f (p.run mem)) mem) : Within P (p >>= f) mem :=
  within_bind.mpr ⟨h1, h2⟩

theorem within_ite {P : Nat → Prop} {c : Prop} [Decidable c] {p q : Read α}
    {mem : Memory} (hp : c → Within P p mem) (hq : ¬ c → Within P q mem) :
    Within P (if c then p else q) mem := by
  by_cases hc : c
  · rw [if_pos hc]
    exact hp hc
  · rw [if_neg hc]
    exact hq hc

/-- Two memories that agree on `P` agree on every program that stays in it. -/
theorem run_eq_of_within {P : Nat → Prop} {p : Read α} {mem mem' : Memory}
    (h : Within P p mem) (hagree : ∀ i, P i → mem i = mem' i) :
    p.run mem = p.run mem' :=
  (run_congr fun i hi => hagree i (h i hi)).1

end Read

open Read

/-! ## The elementary readers -/

def readByte (i : Nat) : Read UInt8 := .fetch i .ret

/-- Read `n` bytes from `off` on. -/
def readBytes : (off n : Nat) → Read (List UInt8)
  | _, 0 => pure []
  | off, n + 1 => do
      let b ← readByte off
      let bs ← readBytes (off + 1) n
      pure (b :: bs)

/-- Read an `n`-byte little-endian word. -/
def readWord (off n : Nat) : Read Nat := do
  let bs ← readBytes off n
  pure (leNat bs)

/-- Test the bytes of a run in order, stopping at the first that fails. -/
def readAll (p : UInt8 → Bool) : (off n : Nat) → Read Bool
  | _, 0 => pure true
  | off, n + 1 => do
      let b ← readByte off
      if p b then readAll p (off + 1) n else pure false

/-- Compare a run with given bytes in order, stopping at a difference. -/
def readEqual : (off : Nat) → List UInt8 → Read Bool
  | _, [] => pure true
  | off, c :: cs => do
      let b ← readByte off
      if b = c then readEqual (off + 1) cs else pure false

@[simp] theorem run_readByte (i : Nat) (mem : Memory) :
    (readByte i).run mem = mem i := by
  simp [readByte, run]

@[simp] theorem reads_readByte (i : Nat) (mem : Memory) :
    (readByte i).reads mem = [i] := rfl

@[simp] theorem run_readBytes (off n : Nat) (mem : Memory) :
    (readBytes off n).run mem = slice mem off n := by
  induction n generalizing off with
  | zero => rfl
  | succ n ih =>
      rw [slice_succ, readBytes]
      simp [ih]

@[simp] theorem run_readWord (off n : Nat) (mem : Memory) :
    (readWord off n).run mem = word mem off n := by
  simp [readWord, word]

@[simp] theorem run_readAll (p : UInt8 → Bool) (off n : Nat) (mem : Memory) :
    (readAll p off n).run mem = (slice mem off n).all p := by
  induction n generalizing off with
  | zero => rfl
  | succ n ih =>
      rw [slice_succ, readAll]
      simp only [run_bind, run_readByte, run_ite, run_pure, List.all_cons, ih]
      cases p (mem off) <;> simp

theorem run_readEqual (off : Nat) (cs : List UInt8) (mem : Memory) :
    (readEqual off cs).run mem = true ↔ Holds mem off cs := by
  induction cs generalizing off with
  | nil =>
      rw [readEqual, run_pure]
      exact ⟨fun _ => holds_nil mem off, fun _ => rfl⟩
  | cons c cs ih =>
      rw [readEqual, run_bind, run_readByte, run_ite, holds_cons]
      by_cases hc : mem off = c
      · rw [if_pos hc, ih]
        exact ⟨fun h => ⟨hc, h⟩, And.right⟩
      · rw [if_neg hc, run_pure]
        constructor
        · intro h
          cases h
        · rintro ⟨h, -⟩
          exact absurd h hc

theorem within_readByte {P : Nat → Prop} {i : Nat} (mem : Memory) (h : P i) :
    Within P (readByte i) mem := by
  intro j hj
  rw [reads_readByte, List.mem_singleton] at hj
  rw [hj]
  exact h

theorem within_readBytes {P : Nat → Prop} {off n : Nat} (mem : Memory)
    (h : ∀ i, off ≤ i → i < off + n → P i) :
    Within P (readBytes off n) mem := by
  induction n generalizing off with
  | zero => exact within_pure P _ mem
  | succ n ih =>
      refine within_seq (within_readByte mem (h off (by omega) (by omega))) ?_
      refine within_seq (ih fun i h1 h2 => h i (by omega) (by omega)) ?_
      exact within_pure P _ mem

theorem within_readWord {P : Nat → Prop} {off n : Nat} (mem : Memory)
    (h : ∀ i, off ≤ i → i < off + n → P i) :
    Within P (readWord off n) mem :=
  within_seq (within_readBytes mem h) (within_pure P _ mem)

theorem within_readAll {P : Nat → Prop} {p : UInt8 → Bool} {off n : Nat}
    (mem : Memory) (h : ∀ i, off ≤ i → i < off + n → P i) :
    Within P (readAll p off n) mem := by
  induction n generalizing off with
  | zero => exact within_pure P _ mem
  | succ n ih =>
      refine within_seq (within_readByte mem (h off (by omega) (by omega))) ?_
      refine within_ite (fun _ => ?_) (fun _ => within_pure P _ mem)
      exact ih fun i h1 h2 => h i (by omega) (by omega)

end ScopeRead
