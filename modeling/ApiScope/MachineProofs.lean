import ApiScope.ByteProofs
import Mathlib.Data.List.GetD

/-! # The machine — a jump made of push, mov and ret

    Of the 64-bit processor this is what a stub of stack instructions needs:
    the instruction pointer, the sixteen registers, the flags, and a memory of
    64-bit addresses, all of them with their arithmetic modulo 2^64.

    Instructions are fetched from the code, data is in the memory: pages that
    are executed are not written, so a push changes no instruction.

    `run_block` runs instructions that go on behind themselves, by induction
    over the list; a `ret` comes after them. -/

namespace ScopeMachine

open ScopeBytes

/-- The part of the processor's state that the instructions use. -/
structure Cpu where
  rip : BitVec 64
  regs : Fin 16 → BitVec 64
  flags : BitVec 64
  memory : BitVec 64 → UInt8

/-- The number of the stack pointer. -/
def rsp : Fin 16 := 4

/-! ## Bytes at 64-bit addresses -/

/-- The `n` bytes of `mem` from `a` on. -/
def loadAt (mem : BitVec 64 → UInt8) (a : BitVec 64) (n : Nat) : List UInt8 :=
  (List.range n).map fun i => mem (a + BitVec.ofNat 64 i)

/-- Overwrite the run at `a` with `bytes`. -/
def storeAt (mem : BitVec 64 → UInt8) (a : BitVec 64) (bytes : List UInt8) :
    BitVec 64 → UInt8 :=
  fun x => if (x - a).toNat < bytes.length then bytes.getD (x - a).toNat 0 else mem x

/-- The memory holds the run at `a`. -/
def HoldsAt (mem : BitVec 64 → UInt8) (a : BitVec 64) (bytes : List UInt8) : Prop :=
  loadAt mem a bytes.length = bytes

@[simp] theorem loadAt_length (mem : BitVec 64 → UInt8) (a : BitVec 64) (n : Nat) :
    (loadAt mem a n).length = n := by
  simp [loadAt]

theorem add_ofNat_add (a : BitVec 64) (m n : Nat) :
    a + BitVec.ofNat 64 (m + n) = a + BitVec.ofNat 64 m + BitVec.ofNat 64 n := by
  rw [BitVec.ofNat_add, BitVec.add_assoc]

theorem loadAt_add (mem : BitVec 64 → UInt8) (a : BitVec 64) (m n : Nat) :
    loadAt mem a (m + n) = loadAt mem a m ++ loadAt mem (a + BitVec.ofNat 64 m) n := by
  rw [loadAt, List.range_add, List.map_append, List.map_map, loadAt, loadAt]
  refine congrArg _ (List.map_congr_left fun i _ => ?_)
  show mem (a + BitVec.ofNat 64 (m + i)) = _
  rw [add_ofNat_add]

theorem holdsAt_append {mem : BitVec 64 → UInt8} {a : BitVec 64} {bs cs : List UInt8} :
    HoldsAt mem a (bs ++ cs) ↔
      HoldsAt mem a bs ∧ HoldsAt mem (a + BitVec.ofNat 64 bs.length) cs := by
  rw [HoldsAt, List.length_append, loadAt_add, HoldsAt, HoldsAt]
  constructor
  · intro h
    exact List.append_inj h (loadAt_length _ _ _)
  · rintro ⟨h1, h2⟩
    rw [h1, h2]

/-- The distance of an address from one that lies `n` bytes further. -/
theorem toNat_sub_add (x a : BitVec 64) {n : Nat} (hn : n < 2 ^ 64) :
    (x - (a + BitVec.ofNat 64 n)).toNat
      = if n ≤ (x - a).toNat then (x - a).toNat - n
        else (x - a).toNat + 2 ^ 64 - n := by
  have hlt := (x - a).isLt
  rw [← BitVec.sub_sub, BitVec.toNat_sub (x - a), BitVec.toNat_ofNat, Nat.mod_eq_of_lt hn]
  split <;> omega

/-- Reading a stored run back. -/
theorem loadAt_storeAt_self (mem : BitVec 64 → UInt8) (a : BitVec 64) (bytes : List UInt8)
    (h : bytes.length ≤ 2 ^ 64) : loadAt (storeAt mem a bytes) a bytes.length = bytes := by
  calc loadAt (storeAt mem a bytes) a bytes.length
      = (List.range bytes.length).map fun i => bytes.getD i 0 := by
        refine List.map_congr_left fun i hi => ?_
        have hlt : i < bytes.length := List.mem_range.mp hi
        have hdist : (a + BitVec.ofNat 64 i - a).toNat = i := by
          rw [BitVec.add_comm, BitVec.add_sub_cancel, BitVec.toNat_ofNat,
            Nat.mod_eq_of_lt (Nat.lt_of_lt_of_le hlt h)]
        rw [storeAt, hdist, if_pos hlt]
    _ = bytes := map_range_getD bytes

/-- Overwriting the rear of a stored run. -/
theorem storeAt_append (mem : BitVec 64 → UInt8) (a : BitVec 64) {front rear rear' : List UInt8}
    (hlength : rear.length = rear'.length) (h : (front ++ rear').length < 2 ^ 64) :
    storeAt (storeAt mem a (front ++ rear)) (a + BitVec.ofNat 64 front.length) rear'
      = storeAt mem a (front ++ rear') := by
  rw [List.length_append] at h
  funext x
  have hdist := toNat_sub_add x a (n := front.length) (by omega)
  have hlt := (x - a).isLt
  rw [storeAt, storeAt, storeAt, hdist, List.length_append, List.length_append, hlength]
  by_cases hfront : front.length ≤ (x - a).toNat
  · rw [if_pos hfront]
    by_cases hrear : (x - a).toNat < front.length + rear'.length
    · rw [if_pos (by omega), if_pos hrear, List.getD_append_right _ _ _ _ hfront]
    · rw [if_neg (by omega), if_neg hrear, if_neg hrear]
  · have hin : (x - a).toNat < front.length := Nat.lt_of_not_le hfront
    rw [if_neg hfront, if_neg (by omega), if_pos (by omega), if_pos (by omega),
      List.getD_append _ _ _ _ hin, List.getD_append _ _ _ _ hin]

/-! ## Little-endian halves -/

theorem leBytes_add (m n v : Nat) :
    leBytes (m + n) v = leBytes m v ++ leBytes n (v / 256 ^ m) := by
  induction m generalizing v with
  | zero => rw [Nat.zero_add, Nat.pow_zero, Nat.div_one, leBytes, List.nil_append]
  | succ m ih =>
      rw [Nat.add_right_comm, leBytes, leBytes, ih, Nat.pow_succ', ← Nat.div_div_eq_div_mul]
      rfl

/-- The low bytes do not depend on what is above them. -/
theorem leBytes_congr {n v w : Nat} (h : v % 256 ^ n = w % 256 ^ n) :
    leBytes n v = leBytes n w := by
  refine leNat_inj (by rw [leBytes_length, leBytes_length]) ?_
  rw [leNat_leBytes, leNat_leBytes, h]

/-- Sign extension keeps the low dword, whatever its top bit is. -/
theorem toNat_signExtend_mod (x : BitVec 32) :
    (x.signExtend 64).toNat % 2 ^ 32 = x.toNat := by
  have hlt := x.isLt
  rw [BitVec.toNat_signExtend]
  split <;> simp <;> omega

/-! ## Instructions -/

/-- The instructions of a stub. -/
inductive Instr where
  | nop
  /-- `push imm32`: the dword is sign-extended to a qword. -/
  | pushImm (imm : BitVec 32)
  /-- `mov dword [rsp+disp8], imm32`. -/
  | movStackImm (disp : BitVec 8) (imm : BitVec 32)
  | ret

def Instr.encode : Instr → List UInt8
  | .nop => [0x90]
  | .pushImm imm => 0x68 :: leBytes 4 imm.toNat
  | .movStackImm disp imm =>
      [0xC7, 0x44, 0x24, UInt8.ofNat disp.toNat] ++ leBytes 4 imm.toNat
  | .ret => [0xC3]

/-- The instruction at the start of some bytes. -/
def decode : List UInt8 → Option Instr
  | 0x90 :: _ => some .nop
  | 0x68 :: b0 :: b1 :: b2 :: b3 :: _ =>
      some (.pushImm (BitVec.ofNat 32 (leNat [b0, b1, b2, b3])))
  | 0xC7 :: 0x44 :: 0x24 :: disp :: b0 :: b1 :: b2 :: b3 :: _ =>
      some (.movStackImm (BitVec.ofNat 8 disp.toNat)
        (BitVec.ofNat 32 (leNat [b0, b1, b2, b3])))
  | 0xC3 :: _ => some .ret
  | _ => none

theorem ofNat_leNat (imm : BitVec 32) :
    BitVec.ofNat 32 (leNat (leBytes 4 imm.toNat)) = imm := by
  rw [leNat_leBytes_of_lt imm.isLt, BitVec.ofNat_toNat, BitVec.setWidth_eq]

/-- **ROUND TRIP**: an encoded instruction is decoded, whatever follows it. -/
theorem decode_encode (i : Instr) (rest : List UInt8) : decode (i.encode ++ rest) = some i := by
  cases i with
  | nop => rfl
  | pushImm imm =>
      show some (Instr.pushImm (BitVec.ofNat 32 (leNat (leBytes 4 imm.toNat)))) = _
      rw [ofNat_leNat]
  | movStackImm disp imm =>
      show some (Instr.movStackImm (BitVec.ofNat 8 (UInt8.ofNat disp.toNat).toNat)
        (BitVec.ofNat 32 (leNat (leBytes 4 imm.toNat)))) = _
      rw [ofNat_leNat, UInt8.toNat_ofNat_of_lt' disp.isLt, BitVec.ofNat_toNat,
        BitVec.setWidth_eq]
  | ret => rfl

/-- An instruction has at most 15 bytes. -/
theorem encode_length_le (i : Instr) : i.encode.length ≤ 15 := by
  cases i with
  | nop => decide
  | pushImm imm => simp [Instr.encode]
  | movStackImm disp imm => simp [Instr.encode]
  | ret => decide

/-! ## Execution -/

/-- What an instruction does; `next` is the address behind it. -/
def Instr.exec (next : BitVec 64) (c : Cpu) : Instr → Cpu
  | .nop => { c with rip := next }
  | .pushImm imm =>
      { c with
          rip := next
          regs := Function.update c.regs rsp (c.regs rsp - 8)
          memory := storeAt c.memory (c.regs rsp - 8) (leBytes 8 (imm.signExtend 64).toNat) }
  | .movStackImm disp imm =>
      { c with
          rip := next
          memory := storeAt c.memory (c.regs rsp + disp.signExtend 64)
            (leBytes 4 imm.toNat) }
  | .ret =>
      { c with
          rip := BitVec.ofNat 64 (leNat (loadAt c.memory (c.regs rsp) 8))
          regs := Function.update c.regs rsp (c.regs rsp + 8) }

/-- One instruction, fetched from the code. -/
def step (code : BitVec 64 → UInt8) (c : Cpu) : Option Cpu :=
  (decode (loadAt code c.rip 15)).map fun i =>
    i.exec (c.rip + BitVec.ofNat 64 i.encode.length) c

/-- A number of instructions. -/
def run (code : BitVec 64 → UInt8) : Nat → Cpu → Option Cpu
  | 0, c => some c
  | n + 1, c => (step code c).bind (run code n)

variable {code : BitVec 64 → UInt8} {c : Cpu}

/-- **STEP**: the instruction that the code holds is the one that is executed. -/
theorem step_eq {i : Instr} (h : HoldsAt code c.rip i.encode) :
    step code c = some (i.exec (c.rip + BitVec.ofNat 64 i.encode.length) c) := by
  have hfetch : loadAt code c.rip 15 = i.encode
      ++ loadAt code (c.rip + BitVec.ofNat 64 i.encode.length) (15 - i.encode.length) := by
    rw [← Nat.add_sub_of_le (encode_length_le i), loadAt_add, Nat.add_sub_of_le
      (encode_length_le i), h]
  rw [step, hfetch, decode_encode]
  rfl

theorem run_add (m n : Nat) (c : Cpu) : run code (m + n) c = (run code m c).bind (run code n) := by
  induction m generalizing c with
  | zero => rw [Nat.zero_add, run, Option.bind_some]
  | succ m ih =>
      rw [Nat.add_right_comm, run, run, Option.bind_assoc]
      exact congrArg _ (funext ih)

theorem run_one {c' : Cpu} (h : step code c = some c') : run code 1 c = some c' := by
  rw [run, h, Option.bind_some, run]

/-- An instruction after which the one behind it is executed. -/
def Instr.GoesOn (i : Instr) : Prop := i ≠ .ret

theorem exec_rip {i : Instr} (h : i.GoesOn) (next : BitVec 64) : (i.exec next c).rip = next := by
  cases i with
  | ret => exact absurd rfl h
  | _ => rfl

/-- Instructions one behind another. -/
def execBlock : List Instr → Cpu → Cpu
  | [], c => c
  | i :: is, c => execBlock is (i.exec (c.rip + BitVec.ofNat 64 i.encode.length) c)

/-- The bytes of a block. -/
def encodeBlock (is : List Instr) : List UInt8 := is.flatMap Instr.encode

/-- **BLOCK**: a block that the code holds runs to its end. -/
theorem run_block {is : List Instr} (hcode : HoldsAt code c.rip (encodeBlock is))
    (hgo : ∀ i ∈ is, i.GoesOn) :
    run code is.length c = some (execBlock is c) ∧
      (execBlock is c).rip = c.rip + BitVec.ofNat 64 (encodeBlock is).length := by
  induction is generalizing c with
  | nil => exact ⟨rfl, (BitVec.add_zero c.rip).symm⟩
  | cons i is ih =>
      rw [encodeBlock, List.flatMap_cons] at hcode ⊢
      obtain ⟨hi, his⟩ := holdsAt_append.mp hcode
      have hrip := exec_rip (c := c) (hgo i List.mem_cons_self)
        (c.rip + BitVec.ofNat 64 i.encode.length)
      rw [← hrip] at his
      obtain ⟨hrun, hend⟩ := ih his fun i' hi' => hgo i' (List.mem_cons_of_mem i hi')
      refine ⟨?_, ?_⟩
      · rw [List.length_cons, run, step_eq hi, Option.bind_some]
        exact hrun
      · rw [execBlock, hend, hrip, List.length_append, add_ofNat_add]
        rfl

/-! ## A jump to any address -/

/-- The dword that is pushed is extended by its sign; what the extension is
    does not matter, the high dword is stored over it. -/
theorem store_pushMov (mem : BitVec 64 → UInt8) (a target : BitVec 64) :
    storeAt (storeAt mem a (leBytes 8 ((target.setWidth 32).signExtend 64).toNat))
        (a + BitVec.ofNat 64 4) (leBytes 4 ((target >>> 32).setWidth 32).toNat)
      = storeAt mem a (leBytes 8 target.toNat) := by
  have hlow : leBytes 4 ((target.setWidth 32).signExtend 64).toNat
      = leBytes 4 target.toNat := by
    refine leBytes_congr ?_
    show _ % 2 ^ 32 = target.toNat % 2 ^ 32
    rw [toNat_signExtend_mod, BitVec.toNat_setWidth]
  have hhigh : leBytes 4 ((target >>> 32).setWidth 32).toNat
      = leBytes 4 (target.toNat / 256 ^ 4) := by
    refine leBytes_congr ?_
    rw [BitVec.toNat_setWidth, BitVec.toNat_ushiftRight, Nat.shiftRight_eq_div_pow]
    exact Nat.mod_mod _ _
  rw [leBytes_add 4 4 ((target.setWidth 32).signExtend 64).toNat, hlow, hhigh,
    leBytes_add 4 4 target.toNat]
  refine storeAt_append mem a ?_ ?_
  · rw [leBytes_length, leBytes_length]
  · rw [List.length_append, leBytes_length, leBytes_length]
    decide

/-- **PUSH, MOV, RET**: push the low dword, store the high one over its
    extension, return to both.  Every register is as before, and so is the
    memory but for the 8 bytes below the stack, which hold the target. -/
theorem run_pushMovRet {target : BitVec 64}
    (hcode : HoldsAt code c.rip
      (encodeBlock [.pushImm (target.setWidth 32),
        .movStackImm 4 ((target >>> 32).setWidth 32)] ++ Instr.encode .ret)) :
    run code 3 c = some { c with
      rip := target
      memory := storeAt c.memory (c.regs rsp - 8) (leBytes 8 target.toNat) } := by
  obtain ⟨hblock, hret⟩ := holdsAt_append.mp hcode
  obtain ⟨hrun, hrip⟩ := run_block hblock (by simp [Instr.GoesOn])
  rw [← hrip] at hret
  have hmemory : (execBlock [.pushImm (target.setWidth 32),
      .movStackImm 4 ((target >>> 32).setWidth 32)] c).memory
      = storeAt c.memory (c.regs rsp - 8) (leBytes 8 target.toNat) := by
    show storeAt _ (Function.update c.regs rsp (c.regs rsp - 8) rsp + _) _ = _
    rw [Function.update_self]
    exact store_pushMov _ _ _
  have hregs : (execBlock [.pushImm (target.setWidth 32),
      .movStackImm 4 ((target >>> 32).setWidth 32)] c).regs
      = Function.update c.regs rsp (c.regs rsp - 8) := rfl
  have htop : loadAt (storeAt c.memory (c.regs rsp - 8) (leBytes 8 target.toNat))
      (c.regs rsp - 8) 8 = leBytes 8 target.toNat := by
    have hself := loadAt_storeAt_self c.memory (c.regs rsp - 8) (leBytes 8 target.toNat)
      (by rw [leBytes_length]; decide)
    rwa [leBytes_length] at hself
  have htarget : BitVec.ofNat 64 (leNat (leBytes 8 target.toNat)) = target := by
    rw [leNat_leBytes_of_lt target.isLt, BitVec.ofNat_toNat, BitVec.setWidth_eq]
  rw [show (3 : Nat) = 2 + 1 from rfl, run_add, show run code 2 c = _ from hrun,
    Option.bind_some, run_one (step_eq hret), Instr.exec, hmemory, hregs,
    Function.update_self, htop, htarget, BitVec.sub_add_cancel, Function.update_idem,
    Function.update_eq_self]
  rfl

end ScopeMachine
