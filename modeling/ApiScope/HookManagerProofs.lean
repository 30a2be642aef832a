import ApiScope.TraceProtocolProofs

/-! # The hook manager — HookFunction, UnhookFunction, ReleaseUnloadedHook

    `hook_manager.cpp` works on the target through the process-memory calls
    of the system.  Any of them may fail; a failed call changes nothing.  The
    outcomes of the calls a function makes are a parameter of its model, one
    field for each call, so a statement for all outcomes is a statement for
    every pattern of failures.

    `Target.patched` keeps account of the writes: that of `PatchFunction` adds
    the function, and the restoring write of `UnhookFunction` takes it out.
    Which entries hold a jump is another matter where patches overlap, and is
    read off the memory. -/

namespace ScopeHook

open ScopeBytes ScopeProtocol

/-- `PATCH_SIZE`. -/
def patchSize : Nat := 14

/-- `TRAMPOLINE_SIZE`. -/
def trampolineSize : Nat := 1024

/-- A region the controller allocated or mapped in the target. -/
structure Block where
  base : Nat
  size : Nat
  deriving DecidableEq

/-- The part of the target process that the controller changes. -/
structure Target where
  memory : Memory
  /-- The regions that are allocated or mapped. -/
  blocks : List Block
  patched : List Nat
  /-- `ActiveHookCalls` of the mapped hook image. -/
  activeHookCalls : BitVec 32

structure RemoteExport where
  address : Nat
  forwarder : List UInt8

structure HookDefinition where
  moduleName : List UInt8
  exportName : List UInt8
  handlerExport : List UInt8
  trampolineExport : List UInt8
  canonicalName : List UInt8

structure RemoteTrampoline where
  address : Nat
  patchSize : Nat

structure InstalledHook where
  canonicalName : List UInt8
  sourceModuleBase : Nat
  targetModuleBase : Nat
  originalFunction : Nat
  trampolineAddress : Nat
  trampolineSlot : Nat
  originalBytes : List UInt8

structure DecodedInstruction where
  length : Nat
  hasRipRelativeMemory : Bool
  hasRelativeImmediate : Bool

/-! ## The calls on the target -/

/-- `WriteProcessMemory` to data or to an allocated block. -/
def Target.write (t : Target) (ok : Bool) (address : Nat) (bytes : List UInt8) :
    Target :=
  if ok then { t with memory := store t.memory address bytes } else t

/-- `WriteProcessMemory` of a jump over the entry of a function. -/
def Target.patch (t : Target) (ok : Bool) (function : Nat) (bytes : List UInt8) :
    Target :=
  if ok then
    { t with
        memory := store t.memory function bytes
        patched := function :: t.patched }
  else t

/-- `WriteProcessMemory` of the saved bytes over the entry of a function. -/
def Target.restore (t : Target) (ok : Bool) (function : Nat)
    (bytes : List UInt8) : Target :=
  if ok then
    { t with
        memory := store t.memory function bytes
        patched := t.patched.filter (· ≠ function) }
  else t

/-- `VirtualAllocEx` and the mapping of a view. -/
def Target.map (t : Target) (b : Block) : Target :=
  { t with blocks := b :: t.blocks }

/-- `VirtualFreeEx` with `MEM_RELEASE`, and the unmapping of a view. -/
def Target.free (t : Target) (ok : Bool) (base : Nat) : Target :=
  if ok then { t with blocks := t.blocks.filter fun b => b.base ≠ base } else t

/-- A pointer variable of the target. -/
def Target.pointer (t : Target) (address : Nat) : Nat :=
  leNat (slice t.memory address 8)

/-- The bytes of a pointer. -/
def pointerBytes (p : Nat) : List UInt8 := leBytes 8 p

@[simp] theorem write_blocks (t : Target) (ok : Bool) (a : Nat) (bytes : List UInt8) :
    (t.write ok a bytes).blocks = t.blocks := by
  cases ok <;> rfl

@[simp] theorem write_patched (t : Target) (ok : Bool) (a : Nat)
    (bytes : List UInt8) : (t.write ok a bytes).patched = t.patched := by
  cases ok <;> rfl

@[simp] theorem write_activeHookCalls (t : Target) (ok : Bool) (a : Nat)
    (bytes : List UInt8) :
    (t.write ok a bytes).activeHookCalls = t.activeHookCalls := by
  cases ok <;> rfl

@[simp] theorem patch_blocks (t : Target) (ok : Bool) (f : Nat)
    (bytes : List UInt8) : (t.patch ok f bytes).blocks = t.blocks := by
  cases ok <;> rfl

@[simp] theorem patch_activeHookCalls (t : Target) (ok : Bool) (f : Nat)
    (bytes : List UInt8) :
    (t.patch ok f bytes).activeHookCalls = t.activeHookCalls := by
  cases ok <;> rfl

@[simp] theorem restore_blocks (t : Target) (ok : Bool) (f : Nat)
    (bytes : List UInt8) : (t.restore ok f bytes).blocks = t.blocks := by
  cases ok <;> rfl

@[simp] theorem restore_activeHookCalls (t : Target) (ok : Bool) (f : Nat)
    (bytes : List UInt8) :
    (t.restore ok f bytes).activeHookCalls = t.activeHookCalls := by
  cases ok <;> rfl

@[simp] theorem map_blocks (t : Target) (b : Block) :
    (t.map b).blocks = b :: t.blocks := rfl

@[simp] theorem map_patched (t : Target) (b : Block) :
    (t.map b).patched = t.patched := rfl

@[simp] theorem map_activeHookCalls (t : Target) (b : Block) :
    (t.map b).activeHookCalls = t.activeHookCalls := rfl

@[simp] theorem free_patched (t : Target) (ok : Bool) (base : Nat) :
    (t.free ok base).patched = t.patched := by
  cases ok <;> rfl

@[simp] theorem free_memory (t : Target) (ok : Bool) (base : Nat) :
    (t.free ok base).memory = t.memory := by
  cases ok <;> rfl

@[simp] theorem free_activeHookCalls (t : Target) (ok : Bool) (base : Nat) :
    (t.free ok base).activeHookCalls = t.activeHookCalls := by
  cases ok <;> rfl

theorem mem_free_of_ne {t : Target} {ok : Bool} {base : Nat} {b : Block}
    (h : b ∈ t.blocks) (hne : b.base ≠ base) : b ∈ (t.free ok base).blocks := by
  cases ok
  · exact h
  · exact List.mem_filter.mpr ⟨h, decide_eq_true hne⟩

/-! ## The size of a patch -/

/-- The loop of `CalculatePatchSize`: whole instructions, from `totalSize`
    on, until they cover a patch.  Every pass adds at least one byte, so
    `PATCH_SIZE` passes are enough. -/
def coverPatch (decodeInstruction64 : List UInt8 → Option DecodedInstruction)
    (buffer : List UInt8) : Nat → Nat → Option Nat
  | 0, totalSize => some totalSize
  | passes + 1, totalSize =>
      if totalSize < patchSize ∧ totalSize < buffer.length then
        match decodeInstruction64 (buffer.drop totalSize) with
        | none => none
        | some instruction =>
            if instruction.length = 0 ∨ instruction.hasRipRelativeMemory ∨
                instruction.hasRelativeImmediate then none
            else
              coverPatch decodeInstruction64 buffer passes
                (totalSize + instruction.length)
      else some totalSize

/-- `CalculatePatchSize`; 0 stands for a function that cannot be patched. -/
def calculatePatchSize
    (decodeInstruction64 : List UInt8 → Option DecodedInstruction)
    (readEntry : Bool) (address : Nat) (t : Target) : Nat :=
  if readEntry = false then 0
  else
    match coverPatch decodeInstruction64 (slice t.memory address 32) patchSize 0 with
    | none => 0
    | some totalSize => if totalSize < patchSize then 0 else totalSize

theorem calculatePatchSize_ge
    {decodeInstruction64 : List UInt8 → Option DecodedInstruction} {readEntry : Bool}
    {address : Nat} {t : Target}
    (h : calculatePatchSize decodeInstruction64 readEntry address t ≠ 0) :
    patchSize ≤ calculatePatchSize decodeInstruction64 readEntry address t := by
  rw [calculatePatchSize] at h ⊢
  split at h
  next => exact absurd rfl h
  next hread =>
    rw [if_neg hread]
    split at h
    next => exact absurd rfl h
    next total htotal =>
      split at h
      next => exact absurd rfl h
      next hle => rwa [if_neg hle, Nat.not_lt] at *

/-! ## Trampolines and patches -/

/-- The 14-byte absolute jump: push the low half, store the high half, return. -/
def absoluteJump (address : Nat) : List UInt8 :=
  0x68 :: leBytes 4 address ++ [0xC7, 0x44, 0x24, 0x04]
    ++ leBytes 4 (address / 2 ^ 32) ++ [0xC3]

/-- What the calls of `CreateBypassTrampoline` return. -/
structure BypassCalls where
  readEntry : Bool
  /-- `VirtualAllocEx`: the address, or null. -/
  allocated : Nat
  readOriginal : Bool
  writeCode : Bool
  protectCode : Bool
  flushCode : Bool
  /-- `VirtualFreeEx` after a failure. -/
  free : Bool

/-- What the calls of `PatchFunction` return. -/
structure PatchCalls where
  protect : Bool
  write : Bool
  reprotect : Bool
  flush : Bool

/-- What the calls of `HookFunction` return. -/
structure HookCalls where
  bypass : BypassCalls
  preserve : Bool
  writeSlot : Bool
  patch : PatchCalls
  clearSlot : Bool
  free : Bool

/-- What the calls of `UnhookFunction` and `ReleaseUnloadedHook` return. -/
structure UnhookCalls where
  protect : Bool
  restore : Bool
  reprotect : Bool
  flush : Bool
  clearSlot : Bool
  free : Bool

/-- `CreateTrampoline`: the displaced instructions and a jump past them. -/
def createTrampoline (calls : BypassCalls) (originalFunction trampolineAddress
    patchSize : Nat) (t : Target) : Bool × Target :=
  if calls.readOriginal = false then (false, t)
  else
    let code := slice t.memory originalFunction patchSize
      ++ absoluteJump (originalFunction + patchSize)
    (calls.writeCode && calls.protectCode && calls.flushCode,
      t.write calls.writeCode trampolineAddress code)

/-- `CreateBypassTrampoline`. -/
def createBypassTrampoline
    (decodeInstruction64 : List UInt8 → Option DecodedInstruction)
    (calls : BypassCalls) (originalFunction : Nat) (t : Target) :
    Option RemoteTrampoline × Target :=
  let size := calculatePatchSize decodeInstruction64 calls.readEntry originalFunction t
  if size = 0 then (none, t)
  else if calls.allocated = 0 then (none, t)
  else
    let r := createTrampoline calls originalFunction calls.allocated size
      (t.map ⟨calls.allocated, trampolineSize⟩)
    if r.1 then (some ⟨calls.allocated, size⟩, r.2)
    else (none, r.2.free calls.free calls.allocated)

/-- `PatchFunction`: the jump to the handler, filled up with `nop`. -/
def patchFunction (calls : PatchCalls) (originalFunction newAddress size : Nat)
    (t : Target) : Bool × Target :=
  if calls.protect = false then (false, t)
  else
    (calls.write && calls.reprotect && calls.flush,
      t.patch calls.write originalFunction
        (absoluteJump newAddress ++ List.replicate (size - patchSize) 0x90))

/-- The address of an export that is not a forwarder. -/
def exportAddress : Option RemoteExport → Option Nat
  | none => none
  | some e => if e.address = 0 then none else some e.address

/-- `HookFunction`.  The module bases of the record are filled in by the
    caller. -/
def hookFunction (getRemoteExport : Nat → List UInt8 → Option RemoteExport)
    (decodeInstruction64 : List UInt8 → Option DecodedInstruction)
    (calls : HookCalls) (originalFunction hookImageBase : Nat)
    (definition : HookDefinition) (t : Target) : Option InstalledHook × Target :=
  if originalFunction = 0 then (none, t)
  else
    match exportAddress (getRemoteExport hookImageBase definition.handlerExport) with
    | none => (none, t)
    | some hookedFunction =>
      match exportAddress
          (getRemoteExport hookImageBase definition.trampolineExport) with
      | none => (none, t)
      | some trampolineVarAddr =>
        let created := createBypassTrampoline decodeInstruction64 calls.bypass
          originalFunction t
        match created.1 with
        | none => (none, created.2)
        | some trampoline =>
          if calls.preserve = false then
            (none, created.2.free calls.free trampoline.address)
          else if calls.writeSlot = false then
            (none, created.2.free calls.free trampoline.address)
          else
            let hook : InstalledHook :=
              { canonicalName := definition.canonicalName
                sourceModuleBase := 0
                targetModuleBase := 0
                originalFunction
                trampolineAddress := trampoline.address
                trampolineSlot := trampolineVarAddr
                originalBytes :=
                  slice created.2.memory originalFunction trampoline.patchSize }
            let patched := patchFunction calls.patch originalFunction hookedFunction
              trampoline.patchSize
              (created.2.write true trampolineVarAddr (pointerBytes trampoline.address))
            if patched.1 then (some hook, patched.2)
            else
              (none, (patched.2.write calls.clearSlot trampolineVarAddr
                (pointerBytes 0)).free calls.free trampoline.address)

/-- `UnhookFunction`. -/
def unhookFunction (calls : UnhookCalls) (hook : InstalledHook) (t : Target) :
    Bool × Target :=
  if hook.originalFunction = 0 ∨ hook.trampolineAddress = 0 ∨
      hook.trampolineSlot = 0 ∨ hook.originalBytes = [] then (false, t)
  else if calls.protect = false then (false, t)
  else
    -- restoring, reprotecting and flushing are all tried
    let restored := t.restore calls.restore hook.originalFunction hook.originalBytes
    if calls.restore = false ∨ calls.reprotect = false ∨ calls.flush = false then
      (false, restored)
    else if calls.clearSlot = false then (false, restored)
    else
      (calls.free, (restored.write true hook.trampolineSlot (pointerBytes 0)).free
        calls.free hook.trampolineAddress)

/-- `ReleaseUnloadedHook`. -/
def releaseUnloadedHook (calls : UnhookCalls) (hook : InstalledHook) (t : Target) :
    Bool × Target :=
  (calls.clearSlot && calls.free,
    (t.write calls.clearSlot hook.trampolineSlot (pointerBytes 0)).free calls.free
      hook.trampolineAddress)

/-! ## What each function does -/

/-- A trampoline that was made is a live block of its own. -/
theorem createBypassTrampoline_some
    {decodeInstruction64 : List UInt8 → Option DecodedInstruction}
    {calls : BypassCalls} {f : Nat} {t t' : Target} {trampoline : RemoteTrampoline}
    (h : createBypassTrampoline decodeInstruction64 calls f t
      = (some trampoline, t')) :
    trampoline.address ≠ 0 ∧ patchSize ≤ trampoline.patchSize ∧
      t'.blocks = ⟨trampoline.address, trampolineSize⟩ :: t.blocks ∧
      t'.patched = t.patched ∧ t'.activeHookCalls = t.activeHookCalls := by
  rw [createBypassTrampoline] at h
  split at h
  next => cases h
  next hsize =>
    split at h
    next => cases h
    next halloc =>
      dsimp only at h
      split at h
      next hok =>
        obtain ⟨htramp, rfl⟩ := Prod.mk.inj h
        cases Option.some.inj htramp
        refine ⟨halloc, calculatePatchSize_ge hsize, ?_⟩
        rw [createTrampoline]
        split
        next => exact ⟨rfl, rfl, rfl⟩
        next =>
          refine ⟨?_, ?_, ?_⟩
          · exact write_blocks _ _ _ _
          · exact write_patched _ _ _ _
          · exact write_activeHookCalls _ _ _ _
      next => cases h

/-- What a successful `HookFunction` leaves. -/
structure Hooked (f : Nat) (t : Target) (hook : InstalledHook) (t' : Target) :
    Prop where
  function : hook.originalFunction = f
  nonnull : f ≠ 0 ∧ hook.trampolineAddress ≠ 0 ∧ hook.trampolineSlot ≠ 0
  covers : patchSize ≤ hook.originalBytes.length
  blocks : t'.blocks = ⟨hook.trampolineAddress, trampolineSize⟩ :: t.blocks
  patched : t'.patched = f :: t.patched
  counter : t'.activeHookCalls = t.activeHookCalls

theorem exportAddress_ne_zero {e : Option RemoteExport} {a : Nat}
    (h : exportAddress e = some a) : a ≠ 0 := by
  cases e with
  | none => cases h
  | some e =>
      rw [exportAddress] at h
      split at h
      next => cases h
      next hne => exact Option.some.inj h ▸ hne

/-- A patch that succeeded was written. -/
theorem patchFunction_true {calls : PatchCalls} {f a size : Nat} {t : Target}
    (h : (patchFunction calls f a size t).1 = true) :
    (patchFunction calls f a size t).2.patched = f :: t.patched ∧
      (patchFunction calls f a size t).2.blocks = t.blocks ∧
      (patchFunction calls f a size t).2.activeHookCalls = t.activeHookCalls := by
  rw [patchFunction] at h ⊢
  split at h
  next => cases h
  next hp =>
    rw [if_neg hp]
    have hw : calls.write = true := (Bool.and_eq_true_iff.mp
      (Bool.and_eq_true_iff.mp h).1).1
    refine ⟨?_, patch_blocks _ _ _ _, patch_activeHookCalls _ _ _ _⟩
    rw [hw]
    rfl

theorem hookFunction_some
    {getRemoteExport : Nat → List UInt8 → Option RemoteExport}
    {decodeInstruction64 : List UInt8 → Option DecodedInstruction}
    {calls : HookCalls} {f hookImageBase : Nat} {definition : HookDefinition}
    {t t' : Target} {hook : InstalledHook}
    (h : hookFunction getRemoteExport decodeInstruction64 calls f hookImageBase
      definition t = (some hook, t')) :
    Hooked f t hook t' ∧ hook.canonicalName = definition.canonicalName := by
  rw [hookFunction] at h
  split at h
  next => cases h
  next hf =>
    split at h
    next => cases h
    next handler hhandler =>
      split at h
      next => cases h
      next slot hslot =>
        dsimp only at h
        split at h
        next => cases h
        next trampoline hcreated =>
          split at h
          next => cases h
          next =>
            split at h
            next => cases h
            next =>
              split at h
              next hpatched =>
                obtain ⟨hhook, rfl⟩ := Prod.mk.inj h
                cases Option.some.inj hhook
                obtain ⟨hp, hb, hc⟩ := patchFunction_true hpatched
                obtain ⟨hne, hsize, hblocks, hpat, hcount⟩ :=
                  createBypassTrampoline_some (Prod.ext hcreated rfl)
                refine ⟨⟨rfl, ⟨hf, hne, exportAddress_ne_zero hslot⟩, ?_, ?_, ?_, ?_⟩, rfl⟩
                · rwa [slice_length]
                · rw [hb, write_blocks, hblocks]
                · rw [hp, write_patched, hpat]
                · rw [hc, write_activeHookCalls, hcount]
              next => cases h

/-- The records that `UnhookFunction` does not refuse. -/
structure Complete (hook : InstalledHook) : Prop where
  function : hook.originalFunction ≠ 0
  trampoline : hook.trampolineAddress ≠ 0
  slot : hook.trampolineSlot ≠ 0
  bytes : hook.originalBytes ≠ []

/-- `UnhookFunction` goes on with such a record. -/
theorem Complete.accepted {hook : InstalledHook} (hc : Complete hook) :
    ¬(hook.originalFunction = 0 ∨ hook.trampolineAddress = 0 ∨
      hook.trampolineSlot = 0 ∨ hook.originalBytes = []) := by
  rintro (h | h | h | h)
  · exact hc.function h
  · exact hc.trampoline h
  · exact hc.slot h
  · exact hc.bytes h

/-- The two calls that decide whether the function gets its bytes back. -/
def UnhookCalls.restores (calls : UnhookCalls) : Bool :=
  calls.protect && calls.restore

/-- `UnhookFunction` frees no block but the trampoline's. -/
theorem mem_unhookFunction_blocks {calls : UnhookCalls} {hook : InstalledHook}
    {t : Target} {b : Block} (hb : b ∈ t.blocks)
    (hne : b.base ≠ hook.trampolineAddress) :
    b ∈ (unhookFunction calls hook t).2.blocks := by
  rw [unhookFunction]
  split
  next => exact hb
  next =>
    split
    next => exact hb
    next =>
      have hr : b ∈ (t.restore calls.restore hook.originalFunction
          hook.originalBytes).blocks := by
        rwa [restore_blocks]
      dsimp only
      split
      next => exact hr
      next =>
        split
        next => exact hr
        next =>
          refine mem_free_of_ne ?_ hne
          rwa [write_blocks]

@[simp] theorem unhookFunction_activeHookCalls (calls : UnhookCalls)
    (hook : InstalledHook) (t : Target) :
    (unhookFunction calls hook t).2.activeHookCalls = t.activeHookCalls := by
  rw [unhookFunction]
  split
  next => rfl
  next =>
    split
    next => rfl
    next =>
      dsimp only
      split
      next => exact restore_activeHookCalls _ _ _ _
      next =>
        split
        next => exact restore_activeHookCalls _ _ _ _
        next => rw [free_activeHookCalls, write_activeHookCalls, restore_activeHookCalls]

@[simp] theorem releaseUnloadedHook_activeHookCalls (calls : UnhookCalls)
    (hook : InstalledHook) (t : Target) :
    (releaseUnloadedHook calls hook t).2.activeHookCalls = t.activeHookCalls := by
  rw [releaseUnloadedHook, free_activeHookCalls, write_activeHookCalls]

theorem mem_releaseUnloadedHook_blocks {calls : UnhookCalls} {hook : InstalledHook}
    {t : Target} {b : Block} (hb : b ∈ t.blocks)
    (hne : b.base ≠ hook.trampolineAddress) :
    b ∈ (releaseUnloadedHook calls hook t).2.blocks := by
  refine mem_free_of_ne ?_ hne
  rwa [write_blocks]

/-! ## Memory that the functions leave alone -/

/-- The run of `n` bytes at `off` and the run of `m` bytes at `a` are apart. -/
def RunsApart (off n a m : Nat) : Prop := off + n ≤ a ∨ a + m ≤ off

instance (off n a m : Nat) : Decidable (RunsApart off n a m) :=
  inferInstanceAs (Decidable (_ ∨ _))

theorem RunsApart.symm {off n a m : Nat} (h : RunsApart off n a m) :
    RunsApart a m off n := Or.symm h

@[simp] theorem pointerBytes_length (p : Nat) : (pointerBytes p).length = 8 :=
  leBytes_length 8 p

theorem write_slice {t : Target} {ok : Bool} {a off n : Nat} {bytes : List UInt8}
    (h : RunsApart off n a bytes.length) :
    slice (t.write ok a bytes).memory off n = slice t.memory off n := by
  cases ok
  · rfl
  · exact slice_store_disjoint h

theorem restore_slice {t : Target} {ok : Bool} {f off n : Nat} {bytes : List UInt8}
    (h : RunsApart off n f bytes.length) :
    slice (t.restore ok f bytes).memory off n = slice t.memory off n := by
  cases ok
  · rfl
  · exact slice_store_disjoint h

/-- `UnhookFunction` writes to the patched bytes and to the slot only. -/
theorem unhookFunction_slice {calls : UnhookCalls} {hook : InstalledHook} {t : Target}
    {off n : Nat}
    (hbytes : RunsApart off n hook.originalFunction hook.originalBytes.length)
    (hslot : RunsApart off n hook.trampolineSlot 8) :
    slice (unhookFunction calls hook t).2.memory off n = slice t.memory off n := by
  rw [unhookFunction]
  split
  next => rfl
  next =>
    split
    next => rfl
    next =>
      dsimp only
      split
      next => exact restore_slice hbytes
      next =>
        split
        next => exact restore_slice hbytes
        next =>
          rw [free_memory, write_slice (by rwa [pointerBytes_length])]
          exact restore_slice hbytes

/-- The patched bytes after `UnhookFunction`: the saved ones where they were
    written back, the old ones otherwise. -/
theorem unhookFunction_entry {calls : UnhookCalls} {hook : InstalledHook}
    (hc : Complete hook) {t : Target}
    (hslot : RunsApart hook.originalFunction hook.originalBytes.length
      hook.trampolineSlot 8) :
    slice (unhookFunction calls hook t).2.memory hook.originalFunction
        hook.originalBytes.length
      = if calls.restores then hook.originalBytes
        else slice t.memory hook.originalFunction hook.originalBytes.length := by
  have hrestored : ∀ ok, slice (t.restore ok hook.originalFunction
      hook.originalBytes).memory hook.originalFunction hook.originalBytes.length
      = if ok then hook.originalBytes
        else slice t.memory hook.originalFunction hook.originalBytes.length := by
    intro ok
    cases ok
    · rfl
    · exact slice_store_self _ _ _
  rw [unhookFunction, if_neg hc.accepted, UnhookCalls.restores]
  cases hp : calls.protect with
  | false => rfl
  | true =>
      simp only [Bool.true_and, Bool.true_eq_false, if_false]
      split
      next => exact hrestored _
      next =>
        split
        next => exact hrestored _
        next =>
          rw [free_memory, write_slice (by rwa [pointerBytes_length])]
          exact hrestored _

theorem releaseUnloadedHook_slice {calls : UnhookCalls} {hook : InstalledHook}
    {t : Target} {off n : Nat} (hslot : RunsApart off n hook.trampolineSlot 8) :
    slice (releaseUnloadedHook calls hook t).2.memory off n = slice t.memory off n := by
  rw [releaseUnloadedHook, free_memory, write_slice (by rwa [pointerBytes_length])]

end ScopeHook
