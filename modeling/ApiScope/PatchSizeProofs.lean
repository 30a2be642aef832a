import ApiScope.HookOutcomeProofs

/-! # The patch size — whole instructions that may be moved

    `CalculatePatchSize` decodes instruction after instruction from the entry
    of a function until they cover the 14 bytes of a jump.  The decoder is
    Zydis behind `DecodeInstruction64`; of Zydis only this is used, that an
    instruction it decodes has at most 15 bytes and ends in the bytes given.

    `LoopEnds` is the loop without a bound on its passes; the model's bound
    is never reached (`coverPatch_ends`).  What a loop that ends well went
    over is a run of instructions (`loopEnds_some`), and the first 14 bytes
    decide its length: the run was short of them before its last
    instruction, so it has at most 13 + 15 bytes. -/

namespace ScopePatchSize

open ScopeBytes ScopeProtocol ScopeHook ScopeOutcome

/-! ## DecodeInstruction64 -/

/-- The base register of a memory operand. -/
inductive ZydisRegister where
  | rip
  | eip
  | other
  deriving DecidableEq

inductive ZydisOperand where
  | memory (base : ZydisRegister)
  | immediate (isRelative : Bool)
  | other
  deriving DecidableEq

structure ZydisInstruction where
  length : Nat
  operands : List ZydisOperand

/-- An operand that `DecodeInstruction64` reports as RIP-relative memory. -/
def ZydisOperand.ripRelative : ZydisOperand → Bool
  | .memory .rip => true
  | .memory .eip => true
  | _ => false

/-- An operand that `DecodeInstruction64` reports as a relative immediate. -/
def ZydisOperand.relativeImmediate : ZydisOperand → Bool
  | .immediate isRelative => isRelative
  | _ => false

/-- One pass of the loop over the operands. -/
def noteOperand (result : DecodedInstruction) (operand : ZydisOperand) :
    DecodedInstruction where
  length := result.length
  hasRipRelativeMemory := result.hasRipRelativeMemory || operand.ripRelative
  hasRelativeImmediate := result.hasRelativeImmediate || operand.relativeImmediate

/-- `DecodeInstruction64`, over what Zydis makes of the bytes. -/
def decodeInstruction64 (zydis : List UInt8 → Option ZydisInstruction)
    (code : List UInt8) : Option DecodedInstruction :=
  if code.length = 0 then none
  else
    match zydis code with
    | none => none
    | some instruction =>
        some (instruction.operands.foldl noteOperand ⟨instruction.length, false, false⟩)

/-- What Zydis promises of an instruction. -/
def ZydisContract (zydis : List UInt8 → Option ZydisInstruction) : Prop :=
  ∀ code instruction, zydis code = some instruction →
    instruction.length ≤ 15 ∧ instruction.length ≤ code.length

/-- An instruction that may be moved: it has bytes, and no operand depends on
    its address. -/
structure Relocatable (instruction : ZydisInstruction) : Prop where
  length : 0 < instruction.length
  operands : ∀ operand ∈ instruction.operands,
    operand.ripRelative = false ∧ operand.relativeImmediate = false

theorem foldl_noteOperand (operands : List ZydisOperand) (result : DecodedInstruction) :
    (operands.foldl noteOperand result).length = result.length ∧
      ((operands.foldl noteOperand result).hasRipRelativeMemory
        = (result.hasRipRelativeMemory || operands.any ZydisOperand.ripRelative)) ∧
      ((operands.foldl noteOperand result).hasRelativeImmediate
        = (result.hasRelativeImmediate || operands.any ZydisOperand.relativeImmediate)) := by
  induction operands generalizing result with
  | nil => simp
  | cons operand operands ih =>
      obtain ⟨h1, h2, h3⟩ := ih (noteOperand result operand)
      rw [List.foldl_cons, h1, h2, h3, List.any_cons, List.any_cons, ← Bool.or_assoc,
        ← Bool.or_assoc]
      exact ⟨rfl, rfl, rfl⟩

/-- What the loop of `CalculatePatchSize` does not accept. -/
def Rejected (instruction : DecodedInstruction) : Prop :=
  instruction.length = 0 ∨ instruction.hasRipRelativeMemory ∨
    instruction.hasRelativeImmediate

/-- **THE DECODER**: it fails where Zydis does, and what it reports is accepted
    exactly if the instruction may be moved. -/
theorem decodeInstruction64_some {zydis : List UInt8 → Option ZydisInstruction}
    {code : List UInt8} (hcode : code.length ≠ 0) :
    match zydis code with
    | none => decodeInstruction64 zydis code = none
    | some instruction => ∃ decoded, decodeInstruction64 zydis code = some decoded ∧
        decoded.length = instruction.length ∧
        (¬Rejected decoded ↔ Relocatable instruction) := by
  rw [decodeInstruction64, if_neg hcode]
  cases zydis code with
  | none => rfl
  | some instruction =>
      obtain ⟨h1, h2, h3⟩ := foldl_noteOperand instruction.operands
        ⟨instruction.length, false, false⟩
      refine ⟨_, rfl, h1, ?_⟩
      rw [Rejected, h1, h2, h3, Bool.false_or, Bool.false_or]
      constructor
      · intro h
        refine ⟨Nat.pos_of_ne_zero fun hz => h (Or.inl hz), fun operand hmem => ⟨?_, ?_⟩⟩
        · refine Bool.eq_false_iff.mpr fun hrip => h (Or.inr (Or.inl ?_))
          exact List.any_eq_true.mpr ⟨operand, hmem, hrip⟩
        · refine Bool.eq_false_iff.mpr fun hrel => h (Or.inr (Or.inr ?_))
          exact List.any_eq_true.mpr ⟨operand, hmem, hrel⟩
      · rintro ⟨hlen, hoperands⟩ (hz | hrip | hrel)
        · exact absurd hz (Nat.ne_of_gt hlen)
        · obtain ⟨operand, hmem, hr⟩ := List.any_eq_true.mp hrip
          rw [(hoperands operand hmem).1] at hr
          cases hr
        · obtain ⟨operand, hmem, hr⟩ := List.any_eq_true.mp hrel
          rw [(hoperands operand hmem).2] at hr
          cases hr

/-! ## The loop -/

section Loop

variable (zydis : List UInt8 → Option ZydisInstruction) (buffer : List UInt8)

/-- The loop of `CalculatePatchSize` from a total on, and what it ends with:
    none for the early returns of 0. -/
inductive LoopEnds : Nat → Option Nat → Prop where
  | done {totalSize} (h : ¬(totalSize < patchSize ∧ totalSize < buffer.length)) :
      LoopEnds totalSize (some totalSize)
  | undecodable {totalSize} (h : totalSize < patchSize ∧ totalSize < buffer.length)
      (hdecode : decodeInstruction64 zydis (buffer.drop totalSize) = none) :
      LoopEnds totalSize none
  | rejected {totalSize instruction} (h : totalSize < patchSize ∧ totalSize < buffer.length)
      (hdecode : decodeInstruction64 zydis (buffer.drop totalSize) = some instruction)
      (hbad : Rejected instruction) : LoopEnds totalSize none
  | next {totalSize instruction result}
      (h : totalSize < patchSize ∧ totalSize < buffer.length)
      (hdecode : decodeInstruction64 zydis (buffer.drop totalSize) = some instruction)
      (hgood : ¬Rejected instruction)
      (hrest : LoopEnds (totalSize + instruction.length) result) :
      LoopEnds totalSize result

/-- Instructions that Zydis decodes one after another, from one offset to
    another. -/
inductive Decodes : Nat → List ZydisInstruction → Nat → Prop where
  | nil {off} : Decodes off [] off
  | cons {off instruction run stop} (hdecode : zydis (buffer.drop off) = some instruction)
      (hrest : Decodes (off + instruction.length) run stop) :
      Decodes off (instruction :: run) stop

/-- The sum of the lengths of a run. -/
def totalLength (run : List ZydisInstruction) : Nat := (run.map ZydisInstruction.length).sum

variable {zydis buffer}

/-- **TERMINATION**: every accepted instruction adds a byte, so the loop ends
    within the passes that the model allows it, with the model's result. -/
theorem coverPatch_ends {passes totalSize : Nat} (h : patchSize ≤ totalSize + passes) :
    LoopEnds zydis buffer totalSize
      (coverPatch (decodeInstruction64 zydis) buffer passes totalSize) := by
  induction passes generalizing totalSize with
  | zero =>
      rw [coverPatch]
      exact .done fun hlt => by omega
  | succ passes ih =>
      rw [coverPatch]
      split
      next hlt =>
        cases hdecode : decodeInstruction64 zydis (buffer.drop totalSize) with
        | none => exact .undecodable hlt hdecode
        | some instruction =>
            dsimp only
            split
            next hbad => exact .rejected hlt hdecode hbad
            next hgood =>
              have hpos : instruction.length ≠ 0 := fun hz => hgood (Or.inl hz)
              exact .next hlt hdecode hgood (ih (by omega))
      next hdone => exact .done hdone

/-- What Zydis says of an instruction that the loop went on with. -/
theorem relocatable_of_next {totalSize : Nat} {decoded : DecodedInstruction}
    (hlt : totalSize < buffer.length)
    (hdecode : decodeInstruction64 zydis (buffer.drop totalSize) = some decoded)
    (hgood : ¬Rejected decoded) :
    ∃ instruction, zydis (buffer.drop totalSize) = some instruction ∧
      decoded.length = instruction.length ∧ Relocatable instruction := by
  have hsome := @decodeInstruction64_some zydis (buffer.drop totalSize)
    (by rw [List.length_drop]; omega)
  cases hz : zydis (buffer.drop totalSize) with
  | none =>
      rw [hz, hdecode] at hsome
      cases hsome
  | some instruction =>
      rw [hz] at hsome
      obtain ⟨decoded', hdecode', hlen, hiff⟩ := hsome
      rw [hdecode] at hdecode'
      cases hdecode'
      exact ⟨instruction, rfl, hlen, hiff.mp hgood⟩

/-- **A LOOP THAT ENDS WELL** went over a run of instructions that may be
    moved, and was short of a patch before the last of them. -/
theorem loopEnds_some {totalSize n : Nat} (h : LoopEnds zydis buffer totalSize (some n)) :
    ∃ run, Decodes zydis buffer totalSize run n ∧ (∀ i ∈ run, Relocatable i) ∧
      ∀ front last, run = front ++ [last] → totalSize + totalLength front < patchSize := by
  generalize hr : some n = result at h
  induction h with
  | done h =>
      cases hr
      refine ⟨[], .nil, (fun i hi => nomatch hi), fun front last heq => ?_⟩
      exact absurd heq.symm (List.append_ne_nil_of_right_ne_nil _ (List.cons_ne_nil _ _))
  | undecodable h hdecode => cases hr
  | rejected h hdecode hbad => cases hr
  | next h hdecode hgood hrest ih =>
      obtain ⟨run, hrun, hall, hshort⟩ := ih hr
      obtain ⟨instruction, hz, hlen, hrel⟩ := relocatable_of_next h.2 hdecode hgood
      rw [hlen] at hrun hshort
      refine ⟨instruction :: run, .cons hz hrun, ?_, fun front last heq => ?_⟩
      · intro i hi
        rcases List.mem_cons.mp hi with rfl | hi
        · exact hrel
        · exact hall i hi
      · cases front with
        | nil => exact h.1
        | cons i front =>
            obtain ⟨rfl, hrest'⟩ := List.cons.inj heq
            have hlt := hshort front last hrest'
            rw [totalLength, List.map_cons, List.sum_cons, ← totalLength]
            omega

theorem Decodes.stop_eq {off stop : Nat} {run : List ZydisInstruction}
    (h : Decodes zydis buffer off run stop) : stop = off + totalLength run := by
  induction h with
  | nil => rfl
  | cons _ _ ih =>
      rw [ih, totalLength, totalLength, List.map_cons, List.sum_cons, Nat.add_assoc]

/-- **A BAD INSTRUCTION** among those that would cover the patch ends the loop
    with nothing. -/
theorem loopEnds_none {off stop : Nat} {run : List ZydisInstruction} {result : Option Nat}
    (hrun : Decodes zydis buffer off run stop) (hstop : stop < patchSize)
    (hbuffer : patchSize ≤ buffer.length)
    (hbad : ∀ i, zydis (buffer.drop stop) = some i → ¬Relocatable i)
    (h : LoopEnds zydis buffer off result) : result = none := by
  induction hrun generalizing result with
  | nil =>
      cases h with
      | done h => exact absurd ⟨hstop, by omega⟩ h
      | undecodable h hdecode => rfl
      | rejected h hdecode hr => rfl
      | next h hdecode hgood hrest =>
          obtain ⟨i, hz, -, hrel⟩ := relocatable_of_next h.2 hdecode hgood
          exact absurd hrel (hbad i hz)
  | @cons off instruction run stop hz hrun ih =>
      have hle : off ≤ stop := by
        have heq := (Decodes.cons hz hrun).stop_eq
        omega
      cases h with
      | done h => exact absurd ⟨by omega, by omega⟩ h
      | undecodable h hdecode => rfl
      | rejected h hdecode hr => rfl
      | next h hdecode hgood hrest =>
          obtain ⟨i, hi, hlen, -⟩ := relocatable_of_next h.2 hdecode hgood
          rw [hz] at hi
          cases hi
          rw [hlen] at hrest
          exact ih hstop hbad hrest

end Loop

/-! ## The patch size -/

/-- The bytes that `CalculatePatchSize` decodes. -/
def entryBytes (t : Target) (address : Nat) : List UInt8 := slice t.memory address 32

/-- A patch of `n` bytes covers whole instructions that may be moved: they are
    decoded one after another from the entry, the last one is needed, and the
    trampoline has room for them and for a jump. -/
structure WholeSpan (zydis : List UInt8 → Option ZydisInstruction) (buffer : List UInt8)
    (n : Nat) : Prop where
  run : ∃ front last, Decodes zydis buffer 0 (front ++ [last]) n ∧
    n = totalLength (front ++ [last]) ∧ totalLength front < patchSize ∧
    ∀ i ∈ front ++ [last], Relocatable i
  bounds : patchSize ≤ n ∧ n ≤ 28
  room : n + patchSize ≤ trampolineSize
  window : n ≤ buffer.length

/-- The run of instructions that would cover a patch meets one that Zydis does
    not decode, or that may not be moved. -/
def RunFails (zydis : List UInt8 → Option ZydisInstruction) (buffer : List UInt8) : Prop :=
  ∃ run stop, Decodes zydis buffer 0 run stop ∧ stop < patchSize ∧
    ∀ i, zydis (buffer.drop stop) = some i → ¬Relocatable i

theorem totalLength_snoc (front : List ZydisInstruction) (last : ZydisInstruction) :
    totalLength (front ++ [last]) = totalLength front + last.length := by
  simp [totalLength]

/-- The last instruction of a run is one that Zydis decoded. -/
theorem Decodes.last_length {zydis : List UInt8 → Option ZydisInstruction}
    {buffer : List UInt8} (hzydis : ZydisContract zydis) {off stop : Nat}
    {front : List ZydisInstruction} {last : ZydisInstruction}
    (h : Decodes zydis buffer off (front ++ [last]) stop) : last.length ≤ 15 := by
  induction front generalizing off with
  | nil =>
      cases h with
      | cons hdecode _ => exact (hzydis _ _ hdecode).1
  | cons i front ih =>
      cases h with
      | cons _ hrest => exact ih hrest

theorem wholeSpan_of_loopEnds {zydis : List UInt8 → Option ZydisInstruction}
    {buffer : List UInt8} (hzydis : ZydisContract zydis) (hbuffer : buffer.length = 32)
    {n : Nat} (h : LoopEnds zydis buffer 0 (some n)) (hn : patchSize ≤ n) :
    WholeSpan zydis buffer n := by
  have h14 : patchSize = 14 := rfl
  have h1024 : trampolineSize = 1024 := rfl
  obtain ⟨run, hrun, hall, hshort⟩ := loopEnds_some h
  have hstop := hrun.stop_eq
  rcases List.eq_nil_or_concat run with rfl | ⟨front, last, rfl⟩
  · rw [totalLength, List.map_nil, List.sum_nil] at hstop
    omega
  · rw [List.concat_eq_append] at hrun hall hshort hstop
    have hfront := hshort front last rfl
    have hlast := hrun.last_length hzydis
    have hsum := totalLength_snoc front last
    refine ⟨⟨front, last, hrun, ?_, ?_, hall⟩, ⟨hn, ?_⟩, ?_, ?_⟩ <;> omega

/-- A size that is not 0 is the total of the loop. -/
theorem coverPatch_of_pos {decode : List UInt8 → Option DecodedInstruction}
    {readEntry : Bool} {address : Nat} {t : Target}
    (h : 0 < calculatePatchSize decode readEntry address t) :
    coverPatch decode (entryBytes t address) patchSize 0
      = some (calculatePatchSize decode readEntry address t) := by
  rw [calculatePatchSize] at h ⊢
  cases readEntry with
  | false => exact absurd h (Nat.lt_irrefl 0)
  | true =>
      rw [if_neg Bool.false_ne_true.symm] at h ⊢
      rw [entryBytes]
      cases hcover : coverPatch decode (slice t.memory address 32) patchSize 0 with
      | none =>
          rw [hcover] at h
          exact absurd h (Nat.lt_irrefl 0)
      | some total =>
          rw [hcover] at h
          dsimp only at h ⊢
          by_cases hshort : total < patchSize
          · rw [if_pos hshort] at h
            exact absurd h (Nat.lt_irrefl 0)
          · rw [if_neg hshort]

/-- **THE PATCH SPAN IS WHOLE, RELOCATABLE AND FITS**: for every memory the
    loop ends; a size that is not 0 is that of a whole run of movable
    instructions, at least 14 and at most 28 bytes; and a run that fails
    before it covers a patch makes the size 0, and no trampoline is made. -/
theorem calculatePatchSize_whole {zydis : List UInt8 → Option ZydisInstruction}
    (hzydis : ZydisContract zydis) (readEntry : Bool) (address : Nat) (t : Target) :
    (∃ result, LoopEnds zydis (entryBytes t address) 0 result ∧
      calculatePatchSize (decodeInstruction64 zydis) readEntry address t
        = if readEntry = false then 0
          else match result with
            | none => 0
            | some totalSize => if totalSize < patchSize then 0 else totalSize) ∧
    (0 < calculatePatchSize (decodeInstruction64 zydis) readEntry address t →
      WholeSpan zydis (entryBytes t address)
        (calculatePatchSize (decodeInstruction64 zydis) readEntry address t)) ∧
    (RunFails zydis (entryBytes t address) →
      calculatePatchSize (decodeInstruction64 zydis) readEntry address t = 0 ∧
      ∀ calls : BypassCalls, calls.readEntry = readEntry →
        createBypassTrampoline (decodeInstruction64 zydis) calls address t = (none, t)) := by
  have hlength : (entryBytes t address).length = 32 := slice_length ..
  have hends := @coverPatch_ends zydis (entryBytes t address) patchSize 0 (by omega)
  refine ⟨⟨_, hends, rfl⟩, ?_, ?_⟩
  · intro hpos
    rw [coverPatch_of_pos hpos] at hends
    exact wholeSpan_of_loopEnds hzydis hlength hends
      (calculatePatchSize_ge (Nat.ne_of_gt hpos))
  · rintro ⟨run, stop, hrun, hstop, hbad⟩
    have hnone := loopEnds_none hrun hstop (by rw [hlength]; decide) hbad hends
    have hzero : calculatePatchSize (decodeInstruction64 zydis) readEntry address t = 0 := by
      have hnone' : coverPatch (decodeInstruction64 zydis) (slice t.memory address 32)
          patchSize 0 = none := hnone
      rw [calculatePatchSize, hnone']
      exact ite_self 0
    refine ⟨hzero, fun calls hcalls => ?_⟩
    rw [createBypassTrampoline, hcalls, hzero]
    exact if_pos rfl

/-- Zydis on code of `nop` and `ret`, of which only the first goes on. -/
def zydisNop : List UInt8 → Option ZydisInstruction
  | 0x90 :: _ => some ⟨1, []⟩
  | _ => none

theorem zydisNop_contract : ZydisContract zydisNop := by
  intro code instruction h
  unfold zydisNop at h
  split at h
  next rest =>
    cases h
    exact ⟨by decide, Nat.succ_le_succ (Nat.zero_le _)⟩
  next => cases h

/-- Fourteen nops. -/
theorem calculatePatchSize_whole_nops :
    calculatePatchSize (decodeInstruction64 zydisNop) true 0x20100 unhookedTarget = 14 ∧
      WholeSpan zydisNop (entryBytes unhookedTarget 0x20100) 14 := by
  have hsize : calculatePatchSize (decodeInstruction64 zydisNop) true 0x20100 unhookedTarget
      = 14 := by
    decide +kernel
  obtain ⟨-, hspan, -⟩ :=
    calculatePatchSize_whole zydisNop_contract true 0x20100 unhookedTarget
  rw [hsize] at hspan
  exact ⟨hsize, hspan (by decide)⟩

end ScopePatchSize
