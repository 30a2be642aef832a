import ApiScope.MachineProofs

/-! # Moved code — a block of instructions at another address

    A processor with more instructions than a stub has: `length` finds the end
    of an instruction, `exec` is what it does.  Of the address of an
    instruction `exec` sees what the processor itself works with, the address
    behind it; a relative jump adds to it, a call saves it.

    An instruction is movable if it does the same wherever it stands.  A block
    of them runs at another address as it does at its own (`through_moved`,
    `run_through`): it falls out at its end, leaves to an address, or faults. -/

namespace ScopeMoved

open ScopeBytes ScopeMachine

/-! ## The processor -/

/-- The state of the processor without the instruction pointer. -/
structure Data where
  regs : Fin 16 → BitVec 64
  flags : BitVec 64
  memory : BitVec 64 → UInt8

def Data.cpu (d : Data) (rip : BitVec 64) : Cpu := ⟨rip, d.regs, d.flags, d.memory⟩

def dataOf (c : Cpu) : Data := ⟨c.regs, c.flags, c.memory⟩

@[simp] theorem cpu_rip (d : Data) (rip : BitVec 64) : (d.cpu rip).rip = rip := rfl

@[simp] theorem dataOf_cpu (d : Data) (rip : BitVec 64) : dataOf (d.cpu rip) = d := rfl

@[simp] theorem cpu_dataOf (c : Cpu) : (dataOf c).cpu c.rip = c := rfl

/-- The data after a push, a mov and a ret that go to `a`: the 8 bytes below
    the stack are written. -/
def Data.jumped (d : Data) (a : BitVec 64) : Data :=
  { d with memory := storeAt d.memory (d.regs rsp - 8) (leBytes 8 a.toNat) }

/-- What an instruction does. -/
inductive Effect where
  | goesOn (d : Data)
  | goesTo (a : BitVec 64) (d : Data)
  | faults

def Effect.cpu (next : BitVec 64) : Effect → Option Cpu
  | .goesOn d => some (d.cpu next)
  | .goesTo a d => some (d.cpu a)
  | .faults => none

/-- A processor.  The end of an instruction depends on its own bytes only. -/
structure Processor where
  length : List UInt8 → Option Nat
  exec : List UInt8 → BitVec 64 → Data → Effect
  bounded : ∀ code n, length code = some n → 0 < n ∧ n ≤ 15 ∧ n ≤ code.length
  own : ∀ code n rest, length code = some n → length (code.take n ++ rest) = some n

/-- One instruction, fetched from the code. -/
def Processor.step (P : Processor) (code : BitVec 64 → UInt8) (c : Cpu) : Option Cpu :=
  (P.length (loadAt code c.rip 15)).bind fun n =>
    (P.exec (loadAt code c.rip n) (c.rip + BitVec.ofNat 64 n) (dataOf c)).cpu
      (c.rip + BitVec.ofNat 64 n)

/-- A number of instructions. -/
def Processor.run (P : Processor) (code : BitVec 64 → UInt8) : Nat → Cpu → Option Cpu
  | 0, c => some c
  | n + 1, c => (P.step code c).bind (P.run code n)

variable {P : Processor} {code code' : BitVec 64 → UInt8} {c : Cpu}

theorem Processor.run_add (m n : Nat) (c : Cpu) :
    P.run code (m + n) c = (P.run code m c).bind (P.run code n) := by
  induction m generalizing c with
  | zero => rw [Nat.zero_add, Processor.run, Option.bind_some]
  | succ m ih =>
      rw [Nat.add_right_comm, Processor.run, Processor.run, Option.bind_assoc]
      exact congrArg _ (funext ih)

/-- The bytes of one whole instruction. -/
def Whole (P : Processor) (i : List UInt8) : Prop := P.length i = some i.length

theorem take_loadAt (mem : BitVec 64 → UInt8) (a : BitVec 64) {m n : Nat} (h : m ≤ n) :
    (loadAt mem a n).take m = loadAt mem a m := by
  rw [← Nat.add_sub_of_le h, loadAt_add]
  exact List.take_left' (loadAt_length mem a m)

/-- **STEP**: the instruction that the code holds is the one that is executed. -/
theorem Processor.step_eq {i : List UInt8} (hi : Whole P i) (h : HoldsAt code c.rip i) :
    P.step code c = (P.exec i (c.rip + BitVec.ofNat 64 i.length) (dataOf c)).cpu
      (c.rip + BitVec.ofNat 64 i.length) := by
  obtain ⟨-, h15, -⟩ := P.bounded i i.length hi
  have hfetch : loadAt code c.rip 15 = i.take i.length
      ++ loadAt code (c.rip + BitVec.ofNat 64 i.length) (15 - i.length) := by
    rw [List.take_length, ← Nat.add_sub_of_le h15, loadAt_add, Nat.add_sub_of_le h15, h]
  have hload : loadAt code c.rip i.length = i := h
  rw [Processor.step, hfetch, P.own i i.length _ hi, Option.bind_some, hload]

/-! ## Code that is the same -/

/-- A step on other code, that agrees on the instruction. -/
theorem step_agrees {c' : Cpu} (hstep : P.step code c = some c')
    (h : ∀ n, P.length (loadAt code c.rip 15) = some n →
      ∀ i < n, code' (c.rip + BitVec.ofNat 64 i) = code (c.rip + BitVec.ofNat 64 i)) :
    P.step code' c = some c' := by
  rw [Processor.step] at hstep
  cases hlength : P.length (loadAt code c.rip 15) with
  | none =>
      rw [hlength] at hstep
      cases hstep
  | some n =>
      obtain ⟨-, h15, -⟩ := P.bounded _ n hlength
      have hsame : loadAt code' c.rip n = loadAt code c.rip n :=
        List.map_congr_left fun i hi => h n hlength i (List.mem_range.mp hi)
      have hown := P.own _ n (loadAt code' (c.rip + BitVec.ofNat 64 n) (15 - n)) hlength
      rw [take_loadAt _ _ h15, ← hsame, ← loadAt_add, Nat.add_sub_of_le h15] at hown
      rw [hlength, Option.bind_some] at hstep
      rw [Processor.step, hown, Option.bind_some, hsame]
      exact hstep

/-- Every instruction of the first `m` steps satisfies `p` at each of its
    bytes. -/
def StaysIn (P : Processor) (code : BitVec 64 → UInt8) (p : BitVec 64 → Prop) (m : Nat)
    (c : Cpu) : Prop :=
  ∀ k < m, ∀ ck, P.run code k c = some ck → ∀ n, P.length (loadAt code ck.rip 15) = some n →
    ∀ i < n, p (ck.rip + BitVec.ofNat 64 i)

/-- **RUN**: a run does not notice a change of code that it does not execute. -/
theorem run_agrees {p : BitVec 64 → Prop} (h : ∀ a, p a → code' a = code a) {m : Nat}
    {c' : Cpu} (hstays : StaysIn P code p m c) (hrun : P.run code m c = some c') :
    P.run code' m c = some c' := by
  induction m generalizing c with
  | zero => exact hrun
  | succ m ih =>
      rw [Processor.run] at hrun
      cases hstep : P.step code c with
      | none =>
          rw [hstep] at hrun
          cases hrun
      | some c1 =>
          rw [hstep, Option.bind_some] at hrun
          have hfirst : P.step code' c = some c1 := by
            refine step_agrees hstep fun n hn i hi => h _ ?_
            exact hstays 0 (Nat.succ_pos m) c rfl n hn i hi
          rw [Processor.run, hfirst, Option.bind_some]
          refine ih (fun k hk ck hck => hstays (k + 1) (Nat.succ_lt_succ hk) ck ?_) hrun
          rw [Processor.run, hstep, Option.bind_some]
          exact hck

/-! ## Blocks -/

/-- How control gets out of a block. -/
inductive Way where
  | behind (d : Data)
  | away (a : BitVec 64) (d : Data)
  | stuck (d : Data)

/-- The way through a block at an address, and the number of its steps. -/
def Processor.through (P : Processor) : List (List UInt8) → BitVec 64 → Data → Nat × Way
  | [], _, d => (0, .behind d)
  | i :: is, a, d =>
      match P.exec i (a + BitVec.ofNat 64 i.length) d with
      | .goesOn d' =>
          ((P.through is (a + BitVec.ofNat 64 i.length) d').1 + 1,
            (P.through is (a + BitVec.ofNat 64 i.length) d').2)
      | .goesTo b d' => (1, .away b d')
      | .faults => (0, .stuck d)

/-- A run of the code takes that way; `stop` is the address behind the block. -/
def Takes (P : Processor) (code : BitVec 64 → UInt8) (c : Cpu) (stop : BitVec 64) :
    Nat × Way → Prop
  | (n, .behind d) => P.run code n c = some (d.cpu stop)
  | (n, .away a d) => P.run code n c = some (d.cpu a)
  | (n, .stuck d) => ∃ rip, P.run code n c = some (d.cpu rip) ∧ P.step code (d.cpu rip) = none

/-- One more step before. -/
theorem Takes.cons {c' : Cpu} {stop : BitVec 64} {n : Nat} {way : Way}
    (hstep : P.step code c = some c') (h : Takes P code c' stop (n, way)) :
    Takes P code c stop (n + 1, way) := by
  have hrun : P.run code (n + 1) c = P.run code n c' := by
    rw [Processor.run, hstep, Option.bind_some]
  cases way with
  | behind d => exact hrun.trans h
  | away a d => exact hrun.trans h
  | stuck d =>
      obtain ⟨rip, hreached, hfault⟩ := h
      exact ⟨rip, hrun.trans hreached, hfault⟩

/-- **BLOCK**: a block that the code holds is run through on its way. -/
theorem run_through {is : List (List UInt8)} (hwhole : ∀ i ∈ is, Whole P i) {a : BitVec 64}
    (hcode : HoldsAt code a is.flatten) (d : Data) :
    Takes P code (d.cpu a) (a + BitVec.ofNat 64 is.flatten.length) (P.through is a d) := by
  induction is generalizing a d with
  | nil => exact congrArg some (congrArg d.cpu (BitVec.add_zero a).symm)
  | cons i is ih =>
      rw [List.flatten_cons] at hcode ⊢
      obtain ⟨hi, his⟩ := holdsAt_append.mp hcode
      have hstep := Processor.step_eq (c := d.cpu a) (hwhole i List.mem_cons_self) hi
      rw [cpu_rip, dataOf_cpu] at hstep
      rw [Processor.through]
      cases heffect : P.exec i (a + BitVec.ofNat 64 i.length) d with
      | goesOn d' =>
          rw [heffect] at hstep
          have hrest := ih (fun i' hi' => hwhole i' (List.mem_cons_of_mem i hi')) his d'
          rw [List.length_append, add_ofNat_add]
          exact Takes.cons hstep hrest
      | goesTo b d' =>
          rw [heffect] at hstep
          show P.run code 1 (d.cpu a) = some (d'.cpu b)
          rw [Processor.run, hstep]
          rfl
      | faults =>
          rw [heffect] at hstep
          exact ⟨a, rfl, hstep⟩

/-- An instruction that does the same wherever it stands. -/
def Movable (P : Processor) (i : List UInt8) : Prop := ∀ a b d, P.exec i a d = P.exec i b d

/-- **MOVED**: a block of movable instructions has one way through it. -/
theorem through_moved {is : List (List UInt8)} (h : ∀ i ∈ is, Movable P i) (a b : BitVec 64)
    (d : Data) : P.through is a d = P.through is b d := by
  induction is generalizing a b d with
  | nil => rfl
  | cons i is ih =>
      rw [Processor.through, Processor.through, h i List.mem_cons_self
        (a + BitVec.ofNat 64 i.length) (b + BitVec.ofNat 64 i.length) d]
      cases P.exec i (b + BitVec.ofNat 64 i.length) d with
      | goesOn d' =>
          dsimp only
          rw [ih (fun i' hi' => h i' (List.mem_cons_of_mem i hi'))
            (a + BitVec.ofNat 64 i.length) (b + BitVec.ofNat 64 i.length) d']
      | goesTo x d' => rfl
      | faults => rfl

/-! ## The instructions of a stub -/

/-- The processor executes the instructions of a stub as these are defined. -/
def Executes (P : Processor) : Prop := ∀ i : Instr, Whole P i.encode ∧
  ∀ next c, (P.exec i.encode next (dataOf c)).cpu next = some (i.exec next c)

theorem step_stub (hP : Executes P) {i : Instr} (h : HoldsAt code c.rip i.encode) :
    P.step code c = some (i.exec (c.rip + BitVec.ofNat 64 i.encode.length) c) := by
  rw [Processor.step_eq (hP i).1 h, (hP i).2]

/-- A stub is run as it is on its own: instructions that go on, and one. -/
theorem run_stub (hP : Executes P) {is : List Instr} {last : Instr}
    (hcode : HoldsAt code c.rip (encodeBlock is ++ last.encode)) (hgo : ∀ i ∈ is, i.GoesOn) :
    P.run code (is.length + 1) c = ScopeMachine.run code (is.length + 1) c := by
  induction is generalizing c with
  | nil =>
      rw [List.length_nil, Processor.run, ScopeMachine.run, step_stub hP hcode,
        ScopeMachine.step_eq hcode]
      rfl
  | cons i is ih =>
      rw [encodeBlock, List.flatMap_cons, List.append_assoc] at hcode
      obtain ⟨hi, his⟩ := holdsAt_append.mp hcode
      rw [← exec_rip (c := c) (hgo i List.mem_cons_self)
        (c.rip + BitVec.ofNat 64 i.encode.length)] at his
      rw [List.length_cons, Processor.run, ScopeMachine.run, step_stub hP hi,
        ScopeMachine.step_eq hi, Option.bind_some, Option.bind_some]
      exact ih his fun i' hi' => hgo i' (List.mem_cons_of_mem i hi')

/-! ## The stub's instructions as a processor -/

/-- What is decoded stands at the start of the bytes. -/
theorem decode_some {bytes : List UInt8} {i : Instr} (h : decode bytes = some i) :
    ∃ rest, bytes = i.encode ++ rest := by
  have hdword : ∀ b0 b1 b2 b3 : UInt8,
      leBytes 4 (BitVec.ofNat 32 (leNat [b0, b1, b2, b3])).toNat = [b0, b1, b2, b3] := by
    intro b0 b1 b2 b3
    have hlt : leNat [b0, b1, b2, b3] < 256 ^ 4 := leNat_lt [b0, b1, b2, b3]
    rw [BitVec.toNat_ofNat, show (2 : Nat) ^ 32 = 256 ^ 4 from rfl, Nat.mod_eq_of_lt hlt]
    exact leBytes_leNat_of_length rfl
  unfold decode at h
  split at h
  next rest =>
    cases Option.some.inj h
    exact ⟨rest, rfl⟩
  next b0 b1 b2 b3 rest =>
    cases Option.some.inj h
    exact ⟨rest, by rw [Instr.encode, hdword]; rfl⟩
  next disp b0 b1 b2 b3 rest =>
    cases Option.some.inj h
    have hdisp : UInt8.ofNat (BitVec.ofNat 8 disp.toNat).toNat = disp := by
      rw [BitVec.toNat_ofNat, Nat.mod_eq_of_lt disp.toNat_lt, UInt8.ofNat_toNat]
    exact ⟨rest, by rw [Instr.encode, hdword, hdisp]; rfl⟩
  next rest =>
    cases Option.some.inj h
    exact ⟨rest, rfl⟩
  next => cases h

/-- What an instruction of a stub does. -/
def stubEffect (next : BitVec 64) (d : Data) : Instr → Effect
  | .ret => .goesTo (Instr.exec next (d.cpu next) .ret).rip
      (dataOf (Instr.exec next (d.cpu next) .ret))
  | i => .goesOn (dataOf (i.exec next (d.cpu next)))

theorem stubEffect_cpu (next : BitVec 64) (c : Cpu) (i : Instr) :
    (stubEffect next (dataOf c) i).cpu next = some (i.exec next c) := by
  cases i <;> simp only [stubEffect, Effect.cpu, Instr.exec, Data.cpu, dataOf]

/-- A processor that has the instructions of a stub only. -/
def stubProcessor : Processor where
  length code := (decode code).map fun i => i.encode.length
  exec bytes next d := ((decode bytes).map (stubEffect next d)).getD .faults
  bounded code n h := by
    obtain ⟨i, hi, rfl⟩ := Option.map_eq_some_iff.mp h
    obtain ⟨rest, rfl⟩ := decode_some hi
    refine ⟨?_, encode_length_le i, by rw [List.length_append]; exact Nat.le_add_right _ _⟩
    cases i <;> exact Nat.succ_pos _
  own code n rest h := by
    obtain ⟨i, hi, rfl⟩ := Option.map_eq_some_iff.mp h
    obtain ⟨rest', rfl⟩ := decode_some hi
    rw [List.take_left' rfl, decode_encode]
    rfl

theorem stubProcessor_executes : Executes stubProcessor := by
  intro i
  have hdecode : decode i.encode = some i := by
    rw [← List.append_nil i.encode]
    exact decode_encode i []
  constructor
  · show (decode i.encode).map _ = some i.encode.length
    rw [hdecode]
    rfl
  · intro next c
    show (((decode i.encode).map _).getD Effect.faults).cpu next = _
    rw [hdecode]
    exact stubEffect_cpu next c i

end ScopeMoved
