import ApiScope.HookManagerProofs

/-! # The outcome of HookFunction — all or nothing

    `HookFunction` makes about ten calls on the target, and any of them may
    fail.  What it did before the failure is undone: the trampoline is freed,
    the slot is cleared.  The write of `PatchFunction` is the exception.  Once
    the jump is in the function, a failure of the two calls that follow it
    leaves it there, with a null slot and a freed trampoline behind it.

    The statements are for every target and every outcome of every call.  The
    undo calls succeed, and the block that `VirtualAllocEx` returns is a new
    one. -/

namespace ScopeOutcome

open ScopeBytes ScopeProtocol ScopeHook

variable (getRemoteExport : Nat → List UInt8 → Option RemoteExport)
  (decodeInstruction64 : List UInt8 → Option DecodedInstruction)
  (calls : HookCalls) (f hookImageBase : Nat) (definition : HookDefinition) (t : Target)

/-- The handler that the entry is made to jump to. -/
def handlerOf : Option Nat :=
  exportAddress (getRemoteExport hookImageBase definition.handlerExport)

/-- The variable that holds the trampoline. -/
def slotOf : Option Nat :=
  exportAddress (getRemoteExport hookImageBase definition.trampolineExport)

/-- The size of the patch. -/
def sizeOf : Nat := calculatePatchSize decodeInstruction64 calls.bypass.readEntry f t

/-- The bytes that `PatchFunction` writes. -/
def patchBytes (handler size : Nat) : List UInt8 :=
  absoluteJump handler ++ List.replicate (size - patchSize) 0x90

/-! ## What the claim of a call is -/

/-- A failed call left nothing: the bytes of the function, the slot and the
    allocations are as before. -/
structure Nothing (t' : Target) : Prop where
  function : ∀ n, RunsApart f n calls.bypass.allocated trampolineSize →
    slice t'.memory f n = slice t.memory f n
  slot : ∀ slot, slotOf getRemoteExport hookImageBase definition = some slot →
    t'.pointer slot = t.pointer slot
  blocks : t'.blocks = t.blocks

/-- A successful call did everything: the function jumps to the handler, the
    slot holds a live trampoline, and the record has the bytes before. -/
structure Everything (hook : InstalledHook) (t' : Target) : Prop where
  patched : ∃ handler, handlerOf getRemoteExport hookImageBase definition = some handler ∧
    slice t'.memory f hook.originalBytes.length
      = patchBytes handler hook.originalBytes.length
  slot : slotOf getRemoteExport hookImageBase definition = some hook.trampolineSlot ∧
    t'.pointer hook.trampolineSlot = hook.trampolineAddress
  live : ⟨hook.trampolineAddress, trampolineSize⟩ ∈ t'.blocks ∧
    slice t'.memory hook.trampolineAddress (hook.originalBytes.length + patchSize)
      = hook.originalBytes ++ absoluteJump (f + hook.originalBytes.length)
  record : hook.canonicalName = definition.canonicalName ∧ hook.originalFunction = f ∧
    hook.originalBytes = slice t.memory f hook.originalBytes.length

/-- All or nothing. -/
def AllOrNothing : Option InstalledHook × Target → Prop
  | (none, t') => Nothing getRemoteExport calls f hookImageBase definition t t'
  | (some hook, t') => Everything getRemoteExport f hookImageBase definition t hook t'

/-! ## What the system promises -/

/-- An instruction lies in the bytes it is decoded from. -/
def DecodesWithin : Prop := ∀ bytes instruction,
  decodeInstruction64 bytes = some instruction → instruction.length ≤ bytes.length

/-- The undo calls succeed. -/
structure UndoSucceeds : Prop where
  bypass : calls.bypass.free = true
  clearSlot : calls.clearSlot = true
  free : calls.free = true

/-- `VirtualAllocEx` returns an address of 64 bits, at which there was no
    block, nor the entry of a function, nor a variable. -/
structure FreshBlock : Prop where
  range : calls.bypass.allocated < 2 ^ 64
  block : ∀ b ∈ t.blocks, b.base ≠ calls.bypass.allocated
  function : RunsApart f 32 calls.bypass.allocated trampolineSize
  slot : ∀ slot, slotOf getRemoteExport hookImageBase definition = some slot →
    RunsApart slot 8 calls.bypass.allocated trampolineSize

/-! ## When it holds -/

/-- The calls that make the trampoline succeed. -/
structure TrampolineMade : Prop where
  size : sizeOf decodeInstruction64 calls f t ≠ 0
  allocated : calls.bypass.allocated ≠ 0
  code : calls.bypass.readOriginal = true ∧ calls.bypass.writeCode = true ∧
    calls.bypass.protectCode = true ∧ calls.bypass.flushCode = true

/-- The calls up to the write of the jump succeed. -/
structure PatchWritten : Prop where
  function : f ≠ 0
  trampoline : TrampolineMade decodeInstruction64 calls f t
  preserve : calls.preserve = true
  writeSlot : calls.writeSlot = true
  patch : calls.patch.protect = true ∧ calls.patch.write = true

/-- The entry is that jump already, as far as the slot does not lie in it. -/
def AlreadyJumps (slot : Nat) (patch : List UInt8) : Prop :=
  ∀ a, f ≤ a → a < f + patch.length → ¬(slot ≤ a ∧ a < slot + 8) →
    t.memory a = patch.getD (a - f) 0

/-- The jump leaves the slot as it is. -/
def SlotSurvives (slot : Nat) (patch : List UInt8) : Prop :=
  ∀ a, f ≤ a → a < f + patch.length → slot ≤ a → a < slot + 8 →
    patch.getD (a - f) 0 = (pointerBytes calls.bypass.allocated).getD (a - slot) 0

/-- A written jump is one that stays with its support, or changes nothing. -/
def WrittenSafely : Prop :=
  ∀ handler slot, handlerOf getRemoteExport hookImageBase definition = some handler →
    slotOf getRemoteExport hookImageBase definition = some slot →
    PatchWritten decodeInstruction64 calls f t →
    if calls.patch.reprotect = true ∧ calls.patch.flush = true then
      SlotSurvives calls f slot (patchBytes handler (sizeOf decodeInstruction64 calls f t))
    else
      AlreadyJumps f t slot (patchBytes handler (sizeOf decodeInstruction64 calls f t))

variable {getRemoteExport decodeInstruction64 calls f hookImageBase definition t}

/-! ## Sizes -/

/-- Whole instructions out of a buffer end in it. -/
theorem coverPatch_le (hdecode : DecodesWithin decodeInstruction64) {buffer : List UInt8}
    {passes totalSize size : Nat} (htotal : totalSize ≤ buffer.length)
    (h : coverPatch decodeInstruction64 buffer passes totalSize = some size) :
    size ≤ buffer.length := by
  induction passes generalizing totalSize with
  | zero => exact Option.some.inj h ▸ htotal
  | succ passes ih =>
      rw [coverPatch] at h
      split at h
      next =>
        split at h
        next => cases h
        next instruction hinstruction =>
          split at h
          next => cases h
          next =>
            refine ih ?_ h
            have hlen := hdecode _ _ hinstruction
            rw [List.length_drop] at hlen
            omega
      next => exact Option.some.inj h ▸ htotal

theorem sizeOf_eq : calculatePatchSize decodeInstruction64 calls.bypass.readEntry f t
    = sizeOf decodeInstruction64 calls f t := rfl

theorem sizeOf_le (hdecode : DecodesWithin decodeInstruction64) :
    sizeOf decodeInstruction64 calls f t ≤ 32 := by
  rw [sizeOf, calculatePatchSize]
  split
  next => exact Nat.zero_le _
  next =>
    split
    next => exact Nat.zero_le _
    next total htotal =>
      have hle := coverPatch_le hdecode (Nat.zero_le _) htotal
      rw [slice_length] at hle
      split
      next => exact Nat.zero_le _
      next => exact hle

@[simp] theorem absoluteJump_length (a : Nat) : (absoluteJump a).length = patchSize := by
  simp [absoluteJump, patchSize]

theorem patchBytes_length {handler size : Nat} (h : patchSize ≤ size) :
    (patchBytes handler size).length = size := by
  rw [patchBytes, List.length_append, absoluteJump_length, List.length_replicate]
  omega

/-! ## Stores that cancel -/

/-- Storing what is there. -/
theorem store_slice (mem : Memory) (off n : Nat) : store mem off (slice mem off n) = mem := by
  funext a
  by_cases h : off ≤ a ∧ a < off + n
  · have hin : store mem off (slice mem off n) a = mem a :=
      byte_eq_of_slice_eq (n := n)
        ((congrArg (slice _ off) (slice_length mem off n).symm).trans
          (slice_store_self mem off (slice mem off n))) h.1 h.2
    exact hin
  · refine store_outside ?_
    rw [slice_length]
    omega

/-- The second of two stores to one place is the one that stays. -/
theorem store_store {mem : Memory} {off : Nat} {data data' : List UInt8}
    (h : data.length = data'.length) :
    store (store mem off data) off data' = store mem off data' := by
  funext a
  by_cases ha : off ≤ a ∧ a < off + data'.length
  · rw [store_inside ha.1 ha.2, store_inside ha.1 ha.2]
  · have hout : a < off ∨ off + data'.length ≤ a := by omega
    rw [store_outside hout, store_outside hout, store_outside (by rwa [h])]

/-- Clearing a pointer that is null. -/
theorem store_null {mem : Memory} {slot : Nat} (h : leNat (slice mem slot 8) = 0) :
    store mem slot (pointerBytes 0) = mem := by
  have hbytes : pointerBytes 0 = slice mem slot 8 := by
    rw [pointerBytes, ← h, leBytes_leNat_of_length (slice_length mem slot 8)]
  rw [hbytes, store_slice]

/-! ## The trampoline -/

/-- The bytes outside the new block are as before. -/
def OutsideKept (calls : HookCalls) (mem mem' : Memory) : Prop :=
  ∀ a, ¬(calls.bypass.allocated ≤ a ∧ a < calls.bypass.allocated + trampolineSize) →
    mem' a = mem a

theorem OutsideKept.slice_eq {mem mem' : Memory} (h : OutsideKept calls mem mem')
    {off n : Nat} (hapart : RunsApart off n calls.bypass.allocated trampolineSize) :
    slice mem' off n = slice mem off n := by
  refine slice_congr fun a h1 h2 => h a ?_
  rcases hapart with hapart | hapart
  · omega
  · omega

/-- The code of a trampoline stays in its block. -/
theorem OutsideKept.write {mem : Memory} {data : List UInt8}
    (h : data.length ≤ trampolineSize) :
    OutsideKept calls mem (store mem calls.bypass.allocated data) := by
  intro a ha
  refine store_outside ?_
  omega

theorem nothing_self : Nothing getRemoteExport calls f hookImageBase definition t t :=
  ⟨fun _ _ => rfl, fun _ _ => rfl, rfl⟩

/-- What is left of a call that failed: the free block. -/
theorem nothing_of_outsideKept
    (hfresh : FreshBlock getRemoteExport calls f hookImageBase definition t) {t' : Target}
    (hmemory : OutsideKept calls t.memory t'.memory) (hblocks : t'.blocks = t.blocks) :
    Nothing getRemoteExport calls f hookImageBase definition t t' := by
  refine ⟨fun n hn => hmemory.slice_eq hn, fun slot hslot => ?_, hblocks⟩
  exact congrArg leNat (hmemory.slice_eq (hfresh.slot slot hslot))

theorem free_map_blocks
    (hfresh : FreshBlock getRemoteExport calls f hookImageBase definition t) :
    ((⟨calls.bypass.allocated, trampolineSize⟩ :: t.blocks).filter fun b =>
      b.base ≠ calls.bypass.allocated) = t.blocks := by
  rw [List.filter_cons_of_neg (by simp)]
  exact List.filter_eq_self.mpr fun b hb => decide_eq_true (hfresh.block b hb)

/-- The code of the trampoline. -/
def trampolineCode (f size : Nat) (t : Target) : List UInt8 :=
  slice t.memory f size ++ absoluteJump (f + size)

theorem trampolineCode_length (f size : Nat) (t : Target) :
    (trampolineCode f size t).length = size + patchSize := by
  rw [trampolineCode, List.length_append, slice_length, absoluteJump_length]

/-- The target with the trampoline. -/
def withTrampoline (calls : HookCalls) (f size : Nat) (t : Target) : Target :=
  (t.map ⟨calls.bypass.allocated, trampolineSize⟩).write true calls.bypass.allocated
    (trampolineCode f size t)

theorem withTrampoline_kept {size : Nat} (h : size ≤ 32) :
    OutsideKept calls t.memory (withTrampoline calls f size t).memory := by
  refine OutsideKept.write ?_
  rw [trampolineCode_length, patchSize, trampolineSize]
  omega

theorem createBypassTrampoline_made (h : TrampolineMade decodeInstruction64 calls f t) :
    createBypassTrampoline decodeInstruction64 calls.bypass f t
      = (some ⟨calls.bypass.allocated, sizeOf decodeInstruction64 calls f t⟩,
        withTrampoline calls f (sizeOf decodeInstruction64 calls f t) t) := by
  obtain ⟨hread, hwrite, hprotect, hflush⟩ := h.code
  rw [createBypassTrampoline]
  dsimp only
  rw [sizeOf_eq]
  rw [if_neg h.size, if_neg h.allocated, createTrampoline, hread, hwrite, hprotect, hflush]
  rfl

/-- A trampoline that is not made is freed. -/
theorem createBypassTrampoline_unmade (hdecode : DecodesWithin decodeInstruction64)
    (hundo : UndoSucceeds calls)
    (hfresh : FreshBlock getRemoteExport calls f hookImageBase definition t)
    (h : ¬TrampolineMade decodeInstruction64 calls f t) :
    (createBypassTrampoline decodeInstruction64 calls.bypass f t).1 = none ∧
      Nothing getRemoteExport calls f hookImageBase definition t
        (createBypassTrampoline decodeInstruction64 calls.bypass f t).2 := by
  rw [createBypassTrampoline]
  dsimp only
  rw [sizeOf_eq]
  by_cases hsize : sizeOf decodeInstruction64 calls f t = 0
  · rw [if_pos hsize]
    exact ⟨rfl, nothing_self⟩
  rw [if_neg hsize]
  by_cases halloc : calls.bypass.allocated = 0
  · rw [if_pos halloc]
    exact ⟨rfl, nothing_self⟩
  rw [if_neg halloc, hundo.bypass, createTrampoline]
  cases hread : calls.bypass.readOriginal with
  | false => exact ⟨rfl, nothing_of_outsideKept hfresh (fun _ _ => rfl)
      (free_map_blocks hfresh)⟩
  | true =>
      have hfailed : (calls.bypass.writeCode && calls.bypass.protectCode
          && calls.bypass.flushCode) = false := by
        rw [Bool.eq_false_iff]
        intro hall
        obtain ⟨hwp, hflush⟩ := Bool.and_eq_true_iff.mp hall
        obtain ⟨hwrite, hprotect⟩ := Bool.and_eq_true_iff.mp hwp
        exact h ⟨hsize, halloc, hread, hwrite, hprotect, hflush⟩
      dsimp only
      rw [if_neg Bool.false_ne_true.symm, hfailed]
      refine ⟨rfl, nothing_of_outsideKept hfresh ?_ ?_⟩
      · show OutsideKept calls t.memory (Target.write _ calls.bypass.writeCode _ _).memory
        cases calls.bypass.writeCode with
        | false => exact fun _ _ => rfl
        | true => exact withTrampoline_kept (sizeOf_le hdecode)
      · show (Target.write _ _ _ _).blocks.filter _ = t.blocks
        rw [write_blocks]
        exact free_map_blocks hfresh

/-! ## Calls that do not write the jump -/

/-- The target with the trampoline and its address in the slot. -/
def slotSet (calls : HookCalls) (f size slot : Nat) (t : Target) : Target :=
  (withTrampoline calls f size t).write true slot (pointerBytes calls.bypass.allocated)

theorem slotSet_blocks (calls : HookCalls) (f size slot : Nat) (t : Target) :
    (slotSet calls f size slot t).blocks
      = ⟨calls.bypass.allocated, trampolineSize⟩ :: t.blocks := by
  rw [slotSet, write_blocks, withTrampoline, write_blocks, map_blocks]

/-- The slot is null before the call. -/
theorem withTrampoline_slot (hdecode : DecodesWithin decodeInstruction64)
    (hfresh : FreshBlock getRemoteExport calls f hookImageBase definition t) {slot : Nat}
    (hslot : slotOf getRemoteExport hookImageBase definition = some slot)
    (hnull : t.pointer slot = 0) :
    leNat (slice (withTrampoline calls f (sizeOf decodeInstruction64 calls f t) t).memory
      slot 8) = 0 := by
  rw [(withTrampoline_kept (sizeOf_le hdecode)).slice_eq (hfresh.slot slot hslot)]
  exact hnull

/-- A jump that is not written. -/
theorem patchFunction_unwritten {calls : PatchCalls} {a size : Nat}
    (h : ¬(calls.protect = true ∧ calls.write = true)) :
    patchFunction calls f a size t = (false, t) := by
  rw [patchFunction]
  cases hp : calls.protect with
  | false => rfl
  | true =>
      cases hw : calls.write with
      | false => rfl
      | true => exact absurd ⟨hp, hw⟩ h

/-- A call that does not get to the jump leaves nothing. -/
theorem hookFunction_unwritten (hdecode : DecodesWithin decodeInstruction64)
    (hundo : UndoSucceeds calls)
    (hfresh : FreshBlock getRemoteExport calls f hookImageBase definition t)
    (hnull : ∀ slot, slotOf getRemoteExport hookImageBase definition = some slot →
      t.pointer slot = 0)
    (h : ∀ handler slot, handlerOf getRemoteExport hookImageBase definition = some handler →
      slotOf getRemoteExport hookImageBase definition = some slot →
      ¬PatchWritten decodeInstruction64 calls f t) :
    AllOrNothing getRemoteExport calls f hookImageBase definition t
      (hookFunction getRemoteExport decodeInstruction64 calls f hookImageBase definition
        t) := by
  -- every way out in front of the jump frees the trampoline, if there is one
  rw [hookFunction]
  by_cases hf : f = 0
  · rw [if_pos hf]
    exact nothing_self
  rw [if_neg hf]
  split
  next => exact nothing_self
  next handler hhandler =>
    split
    next => exact nothing_self
    next slot hslot =>
      by_cases hmade : TrampolineMade decodeInstruction64 calls f t
      · rw [createBypassTrampoline_made hmade]
        dsimp only
        have hkept : OutsideKept calls t.memory
            (withTrampoline calls f (sizeOf decodeInstruction64 calls f t) t).memory :=
          withTrampoline_kept (sizeOf_le hdecode)
        have hfreed : Nothing getRemoteExport calls f hookImageBase definition t
            ((withTrampoline calls f (sizeOf decodeInstruction64 calls f t) t).free
              calls.free calls.bypass.allocated) := by
          rw [hundo.free]
          refine nothing_of_outsideKept hfresh hkept ?_
          show (Target.write _ _ _ _).blocks.filter _ = _
          rw [write_blocks]
          exact free_map_blocks hfresh
        by_cases hpreserve : calls.preserve = false
        · rw [if_pos hpreserve]
          exact hfreed
        rw [if_neg hpreserve]
        by_cases hwriteSlot : calls.writeSlot = false
        · rw [if_pos hwriteSlot]
          exact hfreed
        rw [if_neg hwriteSlot, patchFunction_unwritten]
        · -- the slot is set and cleared again
          rw [if_neg Bool.false_ne_true, hundo.clearSlot, hundo.free]
          refine nothing_of_outsideKept hfresh ?_ ?_
          · show OutsideKept calls t.memory (store (store _ slot _) slot _)
            rw [store_store (by rw [pointerBytes_length, pointerBytes_length]),
              store_null (withTrampoline_slot hdecode hfresh hslot (hnull slot hslot))]
            exact hkept
          · show ((slotSet calls f (sizeOf decodeInstruction64 calls f t) slot t).blocks.filter
              fun b => b.base ≠ calls.bypass.allocated) = t.blocks
            rw [slotSet_blocks]
            exact free_map_blocks hfresh
        · exact fun hpatch => h handler slot hhandler hslot ⟨hf, hmade,
            Bool.not_eq_false _ ▸ hpreserve, Bool.not_eq_false _ ▸ hwriteSlot, hpatch⟩
      · obtain ⟨hnone, hnothing⟩ := createBypassTrampoline_unmade hdecode hundo hfresh hmade
        dsimp only
        rw [hnone]
        exact hnothing

/-! ## Calls that write the jump -/

/-- The target with the jump. -/
def jumped (calls : HookCalls) (f size slot handler : Nat) (t : Target) : Target :=
  (slotSet calls f size slot t).patch true f (patchBytes handler size)

/-- The record of the call. -/
def recordOf (calls : HookCalls) (f size slot : Nat) (definition : HookDefinition)
    (t : Target) : InstalledHook where
  canonicalName := definition.canonicalName
  sourceModuleBase := 0
  targetModuleBase := 0
  originalFunction := f
  trampolineAddress := calls.bypass.allocated
  trampolineSlot := slot
  originalBytes := slice (withTrampoline calls f size t).memory f size

/-- The jump stays, whatever the two calls after it do. -/
theorem hookFunction_written {handler slot : Nat}
    (hhandler : handlerOf getRemoteExport hookImageBase definition = some handler)
    (hslot : slotOf getRemoteExport hookImageBase definition = some slot)
    (hw : PatchWritten decodeInstruction64 calls f t) :
    hookFunction getRemoteExport decodeInstruction64 calls f hookImageBase definition t
      = if calls.patch.reprotect = true ∧ calls.patch.flush = true then
          (some (recordOf calls f (sizeOf decodeInstruction64 calls f t) slot definition t),
            jumped calls f (sizeOf decodeInstruction64 calls f t) slot handler t)
        else
          (none, ((jumped calls f (sizeOf decodeInstruction64 calls f t) slot handler
            t).write calls.clearSlot slot (pointerBytes 0)).free calls.free
              calls.bypass.allocated) := by
  have hpatch : ∀ size t', patchFunction calls.patch f handler size t'
      = (calls.patch.reprotect && calls.patch.flush,
        t'.patch true f (patchBytes handler size)) := by
    intro size t'
    rw [patchFunction, hw.patch.1, hw.patch.2, if_neg Bool.false_ne_true.symm,
      Bool.true_and]
    rfl
  rw [handlerOf] at hhandler
  rw [slotOf] at hslot
  rw [hookFunction, if_neg hw.function, hhandler, hslot]
  dsimp only
  rw [createBypassTrampoline_made hw.trampoline]
  dsimp only
  rw [if_neg (by rw [hw.preserve]; exact Bool.false_ne_true.symm),
    if_neg (by rw [hw.writeSlot]; exact Bool.false_ne_true.symm), hpatch]
  refine if_congr ?_ rfl rfl
  exact Bool.and_eq_true_iff

theorem sizeOf_ge (h : TrampolineMade decodeInstruction64 calls f t) :
    patchSize ≤ sizeOf decodeInstruction64 calls f t :=
  calculatePatchSize_ge h.size

/-- The jump is as long as the bytes it covers. -/
theorem patchBytes_sizeOf {handler : Nat} (h : TrampolineMade decodeInstruction64 calls f t) :
    (patchBytes handler (sizeOf decodeInstruction64 calls f t)).length
      = sizeOf decodeInstruction64 calls f t :=
  patchBytes_length (sizeOf_ge h)

/-- The covered bytes are not in the new block. -/
theorem covered_apart (hdecode : DecodesWithin decodeInstruction64)
    (hfresh : FreshBlock getRemoteExport calls f hookImageBase definition t) :
    RunsApart f (sizeOf decodeInstruction64 calls f t) calls.bypass.allocated
      trampolineSize := by
  have hle : sizeOf decodeInstruction64 calls f t ≤ 32 := sizeOf_le hdecode
  rcases hfresh.function with h | h
  · exact Or.inl (by omega)
  · exact Or.inr h

/-- A jump written between setting and clearing the slot. -/
theorem store_between {mem : Memory} {slot f p : Nat} {patch : List UInt8}
    (hnull : leNat (slice mem slot 8) = 0) (a : Nat) :
    store (store (store mem slot (pointerBytes p)) f patch) slot (pointerBytes 0) a
      = if slot ≤ a ∧ a < slot + 8 then mem a else store mem f patch a := by
  have hlen : ∀ q, (pointerBytes q).length = 8 := pointerBytes_length
  by_cases ha : slot ≤ a ∧ a < slot + 8
  · rw [if_pos ha, store_inside ha.1 (by rw [hlen]; exact ha.2)]
    calc (pointerBytes 0).getD (a - slot) 0
        = store mem slot (pointerBytes 0) a :=
          (store_inside ha.1 (by rw [hlen]; exact ha.2)).symm
      _ = mem a := by rw [store_null hnull]
  · have hout : a < slot ∨ slot + 8 ≤ a := by omega
    rw [if_neg ha, store_outside (by rwa [hlen])]
    by_cases hin : f ≤ a ∧ a < f + patch.length
    · rw [store_inside hin.1 hin.2, store_inside hin.1 hin.2]
    · have hout' : a < f ∨ f + patch.length ≤ a := by omega
      rw [store_outside hout', store_outside hout', store_outside (by rwa [hlen])]

/-- After a jump that stays without support nothing has changed only if the
    jump was there before. -/
theorem nothing_undone_iff (hdecode : DecodesWithin decodeInstruction64)
    (hundo : UndoSucceeds calls)
    (hfresh : FreshBlock getRemoteExport calls f hookImageBase definition t)
    {handler slot : Nat}
    (hslot : slotOf getRemoteExport hookImageBase definition = some slot)
    (hnull : t.pointer slot = 0) (hmade : TrampolineMade decodeInstruction64 calls f t) :
    Nothing getRemoteExport calls f hookImageBase definition t
        (((jumped calls f (sizeOf decodeInstruction64 calls f t) slot handler t).write
          calls.clearSlot slot (pointerBytes 0)).free calls.free calls.bypass.allocated) ↔
      AlreadyJumps f t slot
        (patchBytes handler (sizeOf decodeInstruction64 calls f t)) := by
  have hkept : OutsideKept calls t.memory
      (withTrampoline calls f (sizeOf decodeInstruction64 calls f t) t).memory :=
    withTrampoline_kept (sizeOf_le hdecode)
  have hbetween := @store_between _ slot f calls.bypass.allocated
    (patchBytes handler (sizeOf decodeInstruction64 calls f t))
    (withTrampoline_slot hdecode hfresh hslot hnull)
  have houtside : ∀ a, f ≤ a →
      a < f + (patchBytes handler (sizeOf decodeInstruction64 calls f t)).length →
      ¬(calls.bypass.allocated ≤ a ∧ a < calls.bypass.allocated + trampolineSize) := by
    intro a h1 h2
    rw [patchBytes_sizeOf hmade] at h2
    rcases covered_apart hdecode hfresh with h | h
    · omega
    · omega
  rw [hundo.clearSlot, hundo.free]
  constructor
  · intro h a h1 h2 hnotslot
    have hsame := h.function _ (covered_apart hdecode hfresh)
    have hbyte := byte_eq_of_slice_eq hsame h1 (patchBytes_sizeOf hmade ▸ h2)
    -- the byte of the jump is still there, so it was there before
    have hwritten := hbyte.symm.trans ((hbetween a).trans (if_neg hnotslot))
    exact hwritten.trans (store_inside h1 h2)
  · intro h
    refine nothing_of_outsideKept hfresh (fun a ha => (hbetween a).trans ?_) ?_
    · split
      next => exact hkept a ha
      next hnotslot =>
        by_cases hin : f ≤ a ∧
            a < f + (patchBytes handler (sizeOf decodeInstruction64 calls f t)).length
        · rw [store_inside hin.1 hin.2]
          exact (h a hin.1 hin.2 hnotslot).symm
        · rw [store_outside (by omega)]
          exact hkept a ha
    · show ((slotSet calls f (sizeOf decodeInstruction64 calls f t) slot t).blocks.filter
        fun b => b.base ≠ calls.bypass.allocated) = t.blocks
      rw [slotSet_blocks]
      exact free_map_blocks hfresh

/-- The slot of a successful call is right if the jump does not cover it. -/
theorem jumped_slot_iff (hfresh : calls.bypass.allocated < 2 ^ 64) {size slot handler : Nat} :
    (jumped calls f size slot handler t).pointer slot = calls.bypass.allocated ↔
      SlotSurvives calls f slot (patchBytes handler size) := by
  have hread : slice (slotSet calls f size slot t).memory slot 8
      = pointerBytes calls.bypass.allocated := by
    have h := slice_store_self (withTrampoline calls f size t).memory slot
      (pointerBytes calls.bypass.allocated)
    rwa [pointerBytes_length] at h
  have hbyte : ∀ a, slot ≤ a → a < slot + 8 → (slotSet calls f size slot t).memory a
      = (pointerBytes calls.bypass.allocated).getD (a - slot) 0 := by
    intro a h1 h2
    exact store_inside h1 (by rwa [pointerBytes_length])
  constructor
  · intro h a h1 h2 h3 h4
    have hslice : slice (jumped calls f size slot handler t).memory slot 8
        = slice (slotSet calls f size slot t).memory slot 8 := by
      rw [hread, pointerBytes, ← h, Target.pointer,
        leBytes_leNat_of_length (slice_length _ _ _)]
    rw [← hbyte a h3 h4, ← byte_eq_of_slice_eq hslice h3 h4]
    exact (store_inside h1 h2).symm
  · intro h
    have hslice : slice (jumped calls f size slot handler t).memory slot 8
        = slice (slotSet calls f size slot t).memory slot 8 := by
      refine slice_congr fun a h3 h4 => ?_
      by_cases hin : f ≤ a ∧ a < f + (patchBytes handler size).length
      · rw [hbyte a h3 h4, ← h a hin.1 hin.2 h3 h4]
        exact store_inside hin.1 hin.2
      · exact store_outside (by omega)
    rw [Target.pointer, hslice, hread]
    exact leNat_leBytes_of_lt hfresh

/-- The code of the trampoline after everything has been written. -/
theorem jumped_trampoline (hdecode : DecodesWithin decodeInstruction64)
    (hfresh : FreshBlock getRemoteExport calls f hookImageBase definition t)
    {handler slot : Nat}
    (hslot : slotOf getRemoteExport hookImageBase definition = some slot)
    (hmade : TrampolineMade decodeInstruction64 calls f t) :
    slice (jumped calls f (sizeOf decodeInstruction64 calls f t) slot handler t).memory
        calls.bypass.allocated (sizeOf decodeInstruction64 calls f t + patchSize)
      = trampolineCode f (sizeOf decodeInstruction64 calls f t) t := by
  have hle : sizeOf decodeInstruction64 calls f t ≤ 32 := sizeOf_le hdecode
  have hcode : sizeOf decodeInstruction64 calls f t + patchSize ≤ trampolineSize := by
    rw [patchSize, trampolineSize]
    omega
  have hinside : ∀ {off n}, RunsApart off n calls.bypass.allocated trampolineSize →
      RunsApart calls.bypass.allocated (sizeOf decodeInstruction64 calls f t + patchSize)
        off n := by
    intro off n h
    rcases h with h | h
    · exact Or.inr h
    · exact Or.inl (by omega)
  calc slice (jumped calls f (sizeOf decodeInstruction64 calls f t) slot handler t).memory _ _
      = slice (slotSet calls f (sizeOf decodeInstruction64 calls f t) slot t).memory
          calls.bypass.allocated (sizeOf decodeInstruction64 calls f t + patchSize) := by
        refine slice_store_disjoint ?_
        rw [patchBytes_sizeOf hmade]
        exact hinside (covered_apart hdecode hfresh)
    _ = slice (withTrampoline calls f (sizeOf decodeInstruction64 calls f t) t).memory
          calls.bypass.allocated (sizeOf decodeInstruction64 calls f t + patchSize) := by
        refine slice_store_disjoint ?_
        rw [pointerBytes_length]
        exact hinside (hfresh.slot slot hslot)
    _ = trampolineCode f (sizeOf decodeInstruction64 calls f t) t := by
        rw [← trampolineCode_length]
        exact slice_store_self _ _ _

/-- A successful call did everything if the jump leaves the slot as it is. -/
theorem everything_jumped_iff (hdecode : DecodesWithin decodeInstruction64)
    (hfresh : FreshBlock getRemoteExport calls f hookImageBase definition t)
    {handler slot : Nat}
    (hhandler : handlerOf getRemoteExport hookImageBase definition = some handler)
    (hslot : slotOf getRemoteExport hookImageBase definition = some slot)
    (hmade : TrampolineMade decodeInstruction64 calls f t) :
    Everything getRemoteExport f hookImageBase definition t
        (recordOf calls f (sizeOf decodeInstruction64 calls f t) slot definition t)
        (jumped calls f (sizeOf decodeInstruction64 calls f t) slot handler t) ↔
      SlotSurvives calls f slot
        (patchBytes handler (sizeOf decodeInstruction64 calls f t)) := by
  have hbytes : (recordOf calls f (sizeOf decodeInstruction64 calls f t) slot definition
      t).originalBytes = slice t.memory f (sizeOf decodeInstruction64 calls f t) :=
    (withTrampoline_kept (sizeOf_le hdecode)).slice_eq (covered_apart hdecode hfresh)
  have hlength : (recordOf calls f (sizeOf decodeInstruction64 calls f t) slot definition
      t).originalBytes.length = sizeOf decodeInstruction64 calls f t := by
    rw [hbytes, slice_length]
  refine ⟨fun h => (jumped_slot_iff hfresh.range).mp h.slot.2, fun h =>
    ⟨⟨handler, hhandler, ?_⟩, ⟨hslot, (jumped_slot_iff hfresh.range).mpr h⟩, ⟨?_, ?_⟩,
      rfl, rfl, ?_⟩⟩
  · rw [hlength]
    have hwritten := slice_store_self
      (slotSet calls f (sizeOf decodeInstruction64 calls f t) slot t).memory f
      (patchBytes handler (sizeOf decodeInstruction64 calls f t))
    rwa [patchBytes_sizeOf hmade] at hwritten
  · show _ ∈ (slotSet calls f (sizeOf decodeInstruction64 calls f t) slot t).blocks
    rw [slotSet_blocks]
    exact List.mem_cons_self
  · rw [hlength, hbytes]
    exact jumped_trampoline hdecode hfresh hslot hmade
  · rw [hlength]
    exact hbytes

/-- **ALL OR NOTHING**: `HookFunction` leaves everything or nothing exactly if
    a written jump stays with its support, or changes nothing. -/
theorem hookFunction_all_or_nothing (hdecode : DecodesWithin decodeInstruction64)
    (hundo : UndoSucceeds calls)
    (hfresh : FreshBlock getRemoteExport calls f hookImageBase definition t)
    (hnull : ∀ slot, slotOf getRemoteExport hookImageBase definition = some slot →
      t.pointer slot = 0) :
    AllOrNothing getRemoteExport calls f hookImageBase definition t
        (hookFunction getRemoteExport decodeInstruction64 calls f hookImageBase definition
          t) ↔
      WrittenSafely getRemoteExport decodeInstruction64 calls f hookImageBase definition
        t := by
  by_cases hwritten : ∃ handler slot,
      handlerOf getRemoteExport hookImageBase definition = some handler ∧
      slotOf getRemoteExport hookImageBase definition = some slot ∧
      PatchWritten decodeInstruction64 calls f t
  · obtain ⟨handler, slot, hhandler, hslot, hw⟩ := hwritten
    have hunique : WrittenSafely getRemoteExport decodeInstruction64 calls f hookImageBase
        definition t ↔
        if calls.patch.reprotect = true ∧ calls.patch.flush = true then
          SlotSurvives calls f slot
            (patchBytes handler (sizeOf decodeInstruction64 calls f t))
        else
          AlreadyJumps f t slot
            (patchBytes handler (sizeOf decodeInstruction64 calls f t)) := by
      refine ⟨fun h => h handler slot hhandler hslot hw, fun h handler' slot' hh hs _ => ?_⟩
      rw [hhandler] at hh
      rw [hslot] at hs
      rwa [← Option.some.inj hh, ← Option.some.inj hs]
    rw [hookFunction_written hhandler hslot hw, hunique]
    by_cases hrest : calls.patch.reprotect = true ∧ calls.patch.flush = true
    · rw [if_pos hrest, if_pos hrest]
      exact everything_jumped_iff hdecode hfresh hhandler hslot hw.trampoline
    · rw [if_neg hrest, if_neg hrest]
      exact nothing_undone_iff hdecode hundo hfresh hslot (hnull slot hslot) hw.trampoline
  · have hnever : ∀ handler slot,
        handlerOf getRemoteExport hookImageBase definition = some handler →
        slotOf getRemoteExport hookImageBase definition = some slot →
        ¬PatchWritten decodeInstruction64 calls f t :=
      fun handler slot hh hs hw => hwritten ⟨handler, slot, hh, hs, hw⟩
    exact ⟨fun _ handler slot hh hs hw => absurd hw (hnever handler slot hh hs),
      fun _ => hookFunction_unwritten hdecode hundo hfresh hnull hnever⟩

/-! ## One call that fails last -/

/-- The handler and the slot of the image at `0x30000`. -/
def imageExports (base : Nat) (name : List UInt8) : Option RemoteExport :=
  if base = 0x30000 then
    if name = cstr "OpenHandler" then some ⟨0x30500, []⟩ else some ⟨0x30010, []⟩
  else none

def decodeNop : List UInt8 → Option DecodedInstruction
  | 0x90 :: _ => some ⟨1, false, false⟩
  | _ => none

theorem decodeNop_within : DecodesWithin decodeNop := by
  intro bytes instruction h
  unfold decodeNop at h
  split at h
  next rest =>
    cases Option.some.inj h
    exact Nat.succ_le_succ (Nat.zero_le _)
  next => cases h

def openDefinition : HookDefinition where
  moduleName := cstr "api.dll"
  exportName := cstr "Open"
  handlerExport := cstr "OpenHandler"
  trampolineExport := cstr "OpenTrampoline"
  canonicalName := cstr "api.dll!Open"

/-- Every call succeeds, but for the last one as given. -/
def lastCall (flush : Bool) : HookCalls where
  bypass := ⟨true, 0x40000, true, true, true, true, true⟩
  preserve := true
  writeSlot := true
  patch := ⟨true, true, true, flush⟩
  clearSlot := true
  free := true

/-- Code that is all `nop`, and an image that is all zero. -/
def unhookedTarget : Target where
  memory a := if 0x30000 ≤ a ∧ a < 0x31000 then 0 else 0x90
  blocks := [⟨0x30000, 0x1000⟩]
  patched := []
  activeHookCalls := 0#32

theorem lastCall_undo (flush : Bool) : UndoSucceeds (lastCall flush) := ⟨rfl, rfl, rfl⟩

theorem unhookedTarget_fresh (flush : Bool) :
    FreshBlock imageExports (lastCall flush) 0x20100 0x30000 openDefinition
      unhookedTarget where
  range := show 0x40000 < 2 ^ 64 by decide
  block := show ∀ b ∈ unhookedTarget.blocks, b.base ≠ 0x40000 by decide
  function := Or.inl (show 0x20100 + 32 ≤ 0x40000 by decide)
  slot := by
    intro slot hslot
    cases Option.some.inj hslot
    exact Or.inl (show 0x30010 + 8 ≤ 0x40000 by decide)

theorem unhookedTarget_null : ∀ slot, slotOf imageExports 0x30000 openDefinition = some slot →
    unhookedTarget.pointer slot = 0 := by
  intro slot hslot
  cases Option.some.inj hslot
  decide

/-- **NEITHER ALL NOR NOTHING**: the flush fails, the call fails, and the
    function jumps to a handler whose slot is null. -/
theorem hookFunction_half_done :
    (hookFunction imageExports decodeNop (lastCall false) 0x20100 0x30000 openDefinition
      unhookedTarget).1.isNone = true ∧
    slice (hookFunction imageExports decodeNop (lastCall false) 0x20100 0x30000
      openDefinition unhookedTarget).2.memory 0x20100 14 = absoluteJump 0x30500 ∧
    (hookFunction imageExports decodeNop (lastCall false) 0x20100 0x30000 openDefinition
      unhookedTarget).2.pointer 0x30010 = 0 ∧
    UndoSucceeds (lastCall false) ∧
    FreshBlock imageExports (lastCall false) 0x20100 0x30000 openDefinition
      unhookedTarget ∧
    ¬AllOrNothing imageExports (lastCall false) 0x20100 0x30000 openDefinition
      unhookedTarget (hookFunction imageExports decodeNop (lastCall false) 0x20100 0x30000
        openDefinition unhookedTarget) := by
  refine ⟨by decide +kernel, by decide +kernel, by decide +kernel, lastCall_undo false,
    unhookedTarget_fresh false, fun h => ?_⟩
  have hslice := h.function 14 (Or.inl (by decide))
  exact absurd hslice (by decide +kernel)

/-- The same call, if the flush succeeds. -/
theorem hookFunction_all_or_nothing_flushed :
    AllOrNothing imageExports (lastCall true) 0x20100 0x30000 openDefinition
      unhookedTarget (hookFunction imageExports decodeNop (lastCall true) 0x20100 0x30000
        openDefinition unhookedTarget) := by
  refine (hookFunction_all_or_nothing decodeNop_within (lastCall_undo true)
    (unhookedTarget_fresh true) unhookedTarget_null).mpr ?_
  intro handler slot _ hslot _
  cases Option.some.inj hslot
  rw [if_pos ⟨rfl, rfl⟩]
  -- the slot lies behind the covered bytes
  intro a _ h2 h3 _
  exfalso
  have hsize : sizeOf decodeNop (lastCall true) 0x20100 unhookedTarget = patchSize := by
    decide +kernel
  rw [hsize, patchBytes_length (Nat.le_refl _)] at h2
  exact absurd (Nat.lt_of_le_of_lt h3 h2) (by decide)

end ScopeOutcome
