import ApiScope.HookInverseProofs
import ApiScope.PatchSizeProofs
import ApiScope.MovedCodeProofs

/-! # The trampoline — the displaced part of a function at its new place

    The trampoline of a hook holds the instructions that the jump covers and a
    jump behind them.  `CalculatePatchSize` takes instructions without
    RIP-relative memory and without relative immediates; such an instruction
    does the same wherever it stands, unless it saves the address behind it,
    as a call or a `syscall` does.  That is asked of the processor by
    `AgreesWith`, and the displaced instructions are asked to save nothing.

    So a run from the trampoline is the run from the entry of the unhooked
    function (`Replays`): it leaves the displaced part by the same way, with
    the same registers, flags and memory.  Where it comes out behind, the jump
    has written the 8 bytes below the stack, as any interrupt may.

    The trampolines that the transport calls instead of `NtSetEvent` and
    `NtReadVirtualMemory` stand for functions without a hook; installing and
    removing hooks writes to no such block (`aside_reachable`). -/

namespace ScopeTrampoline

open ScopeBytes ScopeProtocol ScopeHook ScopeOutcome ScopeTransition ScopeOverlay ScopeMachine
open ScopeInverse ScopePatchSize ScopeMoved

variable {zydis : List UInt8 → Option ZydisInstruction}

/-! ## What was displaced -/

/-- The bytes of an instruction that Zydis decodes and that may be moved. -/
def Displaceable (zydis : List UInt8 → Option ZydisInstruction) (i : List UInt8) : Prop :=
  ∃ code instruction, zydis code = some instruction ∧ Relocatable instruction ∧
    i = code.take instruction.length

/-- The bytes are instructions that may be moved, one behind another. -/
structure Displaced (zydis : List UInt8 → Option ZydisInstruction) (bytes : List UInt8)
    (is : List (List UInt8)) : Prop where
  bytes : is.flatten = bytes
  each : ∀ i ∈ is, Displaceable zydis i

/-- A run of decoded instructions, as pieces of the buffer. -/
theorem displaced_of_decodes {buffer : List UInt8} {off stop : Nat}
    {run : List ZydisInstruction} (h : Decodes zydis buffer off run stop)
    (hall : ∀ i ∈ run, Relocatable i) :
    ∃ is, Displaced zydis ((buffer.drop off).take (stop - off)) is := by
  induction h with
  | nil =>
      refine ⟨[], ?_, fun i hi => nomatch hi⟩
      rw [Nat.sub_self, List.take_zero, List.flatten_nil]
  | @cons off instruction run stop hdecode hrest ih =>
      obtain ⟨is, hbytes, heach⟩ := ih fun i hi => hall i (List.mem_cons_of_mem _ hi)
      have hstop := hrest.stop_eq
      refine ⟨(buffer.drop off).take instruction.length :: is, ?_, fun i hi => ?_⟩
      · rw [List.flatten_cons, hbytes, ← List.drop_drop,
          show stop - off = instruction.length + (stop - (off + instruction.length)) by omega,
          List.take_add]
      · rcases List.mem_cons.mp hi with rfl | hi
        · exact ⟨_, instruction, hdecode, hall instruction List.mem_cons_self, rfl⟩
        · exact heach i hi

theorem decodesWithin (hzydis : ZydisContract zydis) :
    DecodesWithin (decodeInstruction64 zydis) := by
  intro bytes decoded h
  rw [decodeInstruction64] at h
  split at h
  next => cases h
  next =>
    split at h
    next => cases h
    next instruction hinstruction =>
      cases Option.some.inj h
      rw [(foldl_noteOperand instruction.operands _).1]
      exact (hzydis bytes instruction hinstruction).2

/-- The bytes that a patch covers. -/
theorem displaced_of_size (hzydis : ZydisContract zydis) {calls : HookCalls} {f : Nat}
    {t : Target} (hsize : sizeOf (decodeInstruction64 zydis) calls f t ≠ 0) :
    ∃ is, Displaced zydis (slice t.memory f (sizeOf (decodeInstruction64 zydis) calls f t)) is := by
  have hends := @coverPatch_ends zydis (entryBytes t f) patchSize 0 (by omega)
  rw [coverPatch_of_pos (Nat.pos_of_ne_zero hsize)] at hends
  obtain ⟨run, hrun, hall, -⟩ := loopEnds_some hends
  obtain ⟨is, hbytes, heach⟩ := displaced_of_decodes hrun hall
  refine ⟨is, hbytes.trans ?_, heach⟩
  have hle : sizeOf (decodeInstruction64 zydis) calls f t ≤ 32 := sizeOf_le (decodesWithin hzydis)
  show ((slice t.memory f 32).drop 0).take (sizeOf (decodeInstruction64 zydis) calls f t - 0) = _
  have hsplit := slice_add t.memory f (sizeOf (decodeInstruction64 zydis) calls f t)
    (32 - sizeOf (decodeInstruction64 zydis) calls f t)
  rw [Nat.add_sub_of_le hle] at hsplit
  rw [List.drop_zero, Nat.sub_zero, hsplit]
  exact List.take_left' (slice_length _ _ _)

/-! ## What every installed hook has displaced -/

variable {layout : Layout}

/-- Every installed hook has displaced whole instructions. -/
def AllDisplaced (zydis : List UInt8 → Option ZydisInstruction) (s : HookState) : Prop :=
  ∀ h ∈ s.installed, ∃ is, Displaced zydis h.hook.originalBytes is

/-- **STEP**: a call that succeeds displaces whole instructions, if any. -/
theorem allDisplaced_step (hzydis : ZydisContract zydis) {s s' : HookState}
    {action : HookAction} (hs : AllDisplaced zydis s)
    (hadmits : Admits (decodeInstruction64 zydis) layout s action)
    (h : hookStep (decodeInstruction64 zydis) s action = some s') : AllDisplaced zydis s' := by
  cases action with
  | hook getRemoteExport calls f hookImageBase definition =>
      obtain ⟨hblock, hcode, -, hvariable⟩ := hadmits
      rw [hookStep] at h
      split at h
      next handler hook t' hhandler hcall =>
        cases Option.some.inj h
        obtain ⟨-, slot, -, hslot, hmade, rfl, -⟩ := hookFunction_success hcall
        have hi : Installs layout (decodeInstruction64 zydis) getRemoteExport calls f
            hookImageBase definition slot s.target :=
          ⟨decodesWithin hzydis, hmade, hblock, hcode, hslot, (hvariable slot hslot).1⟩
        intro g hg
        rcases List.mem_cons.mp hg with rfl | hg
        · obtain ⟨is, his⟩ := displaced_of_size hzydis hmade.size
          have hsaved := @Installs.saved (decodeInstruction64 zydis) layout getRemoteExport calls f
            hookImageBase handler slot definition s.target hi
          exact ⟨is, hsaved ▸ his⟩
        · exact hs g hg
      next => cases h
  | unhook calls index =>
      rw [hookStep] at h
      split at h
      next => cases h
      next h' hget =>
        split at h
        next t' hcall =>
          cases Option.some.inj h
          exact fun g hg => hs g (List.mem_of_mem_eraseIdx hg)
        next => cases h

theorem allDisplaced_reachable (hzydis : ZydisContract zydis) {original : Target}
    {s : HookState} (h : ReachableIf (hookSystem (decodeInstruction64 zydis) original)
      (Admits (decodeInstruction64 zydis) layout) s) : AllDisplaced zydis s := by
  refine h.invariant (fun s0 h0 => ?_) fun _ _ _ hs hok hstep =>
    allDisplaced_step hzydis hs hok hstep
  rw [h0]
  exact fun g hg => nomatch hg

/-! ## The processor -/

/-- What the processor and Zydis have in common: both find the same end of an
    instruction, and one that Zydis reports as free of relative operands does
    the same wherever it stands, unless it saves the address behind it. -/
structure AgreesWith (P : Processor) (zydis : List UInt8 → Option ZydisInstruction)
    (savesNext : List UInt8 → Prop) : Prop where
  whole : ∀ code instruction, zydis code = some instruction →
    P.length (code.take instruction.length) = some instruction.length
  movable : ∀ code instruction, zydis code = some instruction → Relocatable instruction →
    ¬savesNext (code.take instruction.length) → Movable P (code.take instruction.length)
  stub : Executes P

variable {P : Processor} {savesNext : List UInt8 → Prop}

theorem AgreesWith.displaceable (hP : AgreesWith P zydis savesNext) {i : List UInt8}
    (h : Displaceable zydis i) : Whole P i ∧ (¬savesNext i → Movable P i) := by
  obtain ⟨code, instruction, hdecode, hrel, rfl⟩ := h
  have hlength := hP.whole code instruction hdecode
  obtain ⟨-, -, hle⟩ := P.bounded _ _ hlength
  have htake : (code.take instruction.length).length = instruction.length :=
    Nat.le_antisymm (List.length_take_le _ _) hle
  exact ⟨hlength.trans (congrArg some htake.symm), hP.movable code instruction hdecode hrel⟩

/-- **THE JUMP** of a patch or of a trampoline. -/
theorem AgreesWith.jump (hP : AgreesWith P zydis savesNext) {code : BitVec 64 → UInt8}
    {source : BitVec 64} {address : Nat} (h : HoldsAt code source (absoluteJump address))
    {c : Cpu} (hc : c.rip = source) :
    P.run code 3 c = some { c with
      rip := BitVec.ofNat 64 address
      memory := storeAt c.memory (c.regs rsp - 8)
        (leBytes 8 (BitVec.ofNat 64 address).toNat) } := by
  rw [← absoluteJump_transfers h c hc]
  rw [absoluteJump_encode, ← hc] at h
  exact run_stub hP.stub h (by simp [Instr.GoesOn])

/-! ## The run from a trampoline -/

/-- From the trampoline control takes the way that it takes from the entry of
    the unhooked function: behind the displaced bytes, away from them, or into
    a fault. -/
inductive Replays (P : Processor) (original t : Target) (entry trampoline behind : BitVec 64)
    (d : Data) : Prop where
  | behind {n : Nat} {d' : Data}
      (horiginal : P.run (codeOf original) n (d.cpu entry) = some (d'.cpu behind))
      (htrampoline : P.run (codeOf t) (n + 3) (d.cpu trampoline)
        = some ((d'.jumped behind).cpu behind))
  | away {n : Nat} {a : BitVec 64} {d' : Data}
      (horiginal : P.run (codeOf original) n (d.cpu entry) = some (d'.cpu a))
      (htrampoline : P.run (codeOf t) n (d.cpu trampoline) = some (d'.cpu a))
  | stuck {n : Nat} {d' : Data} {rip rip' : BitVec 64}
      (horiginal : P.run (codeOf original) n (d.cpu entry) = some (d'.cpu rip) ∧
        P.step (codeOf original) (d'.cpu rip) = none)
      (htrampoline : P.run (codeOf t) n (d.cpu trampoline) = some (d'.cpu rip') ∧
        P.step (codeOf t) (d'.cpu rip') = none)

/-- Two copies of a movable block, one of them with a jump behind it. -/
theorem replays_of_blocks (hP : AgreesWith P zydis savesNext) {original t : Target}
    {f address : Nat} {is : List (List UInt8)} (his : ∀ i ∈ is, Whole P i ∧ Movable P i)
    (horiginal : HoldsAt (codeOf original) (BitVec.ofNat 64 f) is.flatten)
    (htrampoline : HoldsAt (codeOf t) (BitVec.ofNat 64 address)
      (is.flatten ++ absoluteJump (f + is.flatten.length))) (d : Data) :
    Replays P original t (BitVec.ofNat 64 f) (BitVec.ofNat 64 address)
      (BitVec.ofNat 64 (f + is.flatten.length)) d := by
  obtain ⟨hblock, hjump⟩ := holdsAt_append.mp htrampoline
  have hwhole : ∀ i ∈ is, Whole P i := fun i hi => (his i hi).1
  have hthere := run_through hwhole horiginal d
  have hhere := run_through hwhole hblock d
  rw [through_moved (fun i hi => (his i hi).2) (BitVec.ofNat 64 address) (BitVec.ofNat 64 f) d]
    at hhere
  rw [← BitVec.ofNat_add] at hthere
  generalize P.through is (BitVec.ofNat 64 f) d = way at hthere hhere
  obtain ⟨n, way⟩ := way
  cases way with
  | behind d' =>
      refine .behind hthere ?_
      rw [Processor.run_add, show P.run (codeOf t) n _ = _ from hhere, Option.bind_some,
        hP.jump hjump (cpu_rip _ _)]
      rfl
  | away a d' => exact .away hthere hhere
  | stuck d' =>
      obtain ⟨rip, hthere⟩ := hthere
      obtain ⟨rip', hhere⟩ := hhere
      exact .stuck hthere hhere

/-- What is asked of a function and of a block to stand for its displaced
    part. -/
structure Holds (zydis : List UInt8 → Option ZydisInstruction) (original t : Target)
    (f size address : Nat) (is : List (List UInt8)) : Prop where
  displaced : Displaced zydis (slice original.memory f size) is
  block : slice t.memory address (size + patchSize)
    = slice original.memory f size ++ absoluteJump (f + size)
  ends : f + size ≤ 2 ^ 64 ∧ address + (size + patchSize) ≤ 2 ^ 64

/-- **REPLAY**: a block with the displaced bytes and the jump runs as the
    function did. -/
theorem Holds.replays (hP : AgreesWith P zydis savesNext) {original t : Target}
    {f size address : Nat} {is : List (List UInt8)}
    (h : Holds zydis original t f size address is) (hno : ∀ i ∈ is, ¬savesNext i) (d : Data) :
    Replays P original t (BitVec.ofNat 64 f) (BitVec.ofNat 64 address)
      (BitVec.ofNat 64 (f + size)) d := by
  obtain ⟨⟨hbytes, heach⟩, hblock, hend, hend'⟩ := h
  have hlength : is.flatten.length = size := by rw [hbytes, slice_length]
  have hthere : HoldsAt (codeOf original) (BitVec.ofNat 64 f) is.flatten := by
    refine holdsAt_codeOf ?_ (by rwa [hlength])
    rw [hlength, hbytes]
  have hhere : HoldsAt (codeOf t) (BitVec.ofNat 64 address)
      (is.flatten ++ absoluteJump (f + is.flatten.length)) := by
    have hcode : (is.flatten ++ absoluteJump (f + is.flatten.length)).length
        = size + patchSize := by
      rw [List.length_append, hlength, absoluteJump_length]
    refine holdsAt_codeOf ?_ (by rwa [hcode])
    rw [hcode, hlength, hbytes]
    exact hblock
  have hreplays := replays_of_blocks hP (fun i hi => ⟨(hP.displaceable (heach i hi)).1,
    (hP.displaceable (heach i hi)).2 (hno i hi)⟩) hthere hhere d
  rwa [hlength] at hreplays

/-! ## The trampoline of a hook -/

def entryOf (h : Installed) : BitVec 64 := BitVec.ofNat 64 h.hook.originalFunction

def trampolineOf (h : Installed) : BitVec 64 := BitVec.ofNat 64 h.hook.trampolineAddress

/-- The address behind what the jump covers. -/
def behindOf (h : Installed) : BitVec 64 :=
  BitVec.ofNat 64 (h.hook.originalFunction + h.size)

/-- A byte of the code that no installed hook covers. -/
def Uncovered (layout : Layout) (s : HookState) (a : BitVec 64) : Prop :=
  layout.code a.toNat ∧ ∀ h ∈ s.installed, ¬h.jump.Covers a.toNat

/-- An installed hook, as the processor sees it. -/
structure Trampolined (P : Processor) (zydis : List UInt8 → Option ZydisInstruction)
    (savesNext : List UInt8 → Prop) (layout : Layout) (original : Target) (s : HookState)
    (h : Installed) : Prop where
  /-- The function goes to the handler. -/
  diverted : ∀ d : Data, P.run (codeOf s.target) 3 (d.cpu (entryOf h))
    = some ((d.jumped (BitVec.ofNat 64 h.handler)).cpu (BitVec.ofNat 64 h.handler))
  /-- The handler finds the trampoline. -/
  slot : s.target.pointer h.hook.trampolineSlot = h.hook.trampolineAddress
  /-- The trampoline does what the displaced instructions did. -/
  replays : ∃ is, Displaced zydis (slice original.memory h.hook.originalFunction h.size) is ∧
    ((∀ i ∈ is, ¬savesNext i) →
      ∀ d, Replays P original s.target (entryOf h) (trampolineOf h) (behindOf h) d)
  /-- From there on it is the original function, up to the next hooked one. -/
  elsewhere : ∀ m c c', StaysIn P (codeOf original) (Uncovered layout s) m c →
    P.run (codeOf original) m c = some c' → P.run (codeOf s.target) m c = some c'

/-- Code that no hook covers is the original code. -/
theorem uncovered_same {original : Target} {s : HookState} (hs : Exact layout original s)
    {a : BitVec 64} (h : Uncovered layout s a) : codeOf s.target a = codeOf original a := by
  refine (hs.code a.toNat h.1).trans (overlay_uncovered fun r hr hcovers => ?_)
  obtain ⟨g, hg, rfl⟩ := List.mem_map.mp hr
  exact h.2 g hg hcovers

/-- Code does not reach over the end of the addresses. -/
theorem code_end {f size : Nat} (hpos : 0 < size)
    (hcode : ∀ a, f ≤ a → a < f + size → layout.code a) : f + size ≤ 2 ^ 64 := by
  have hlast := layout.code_lt _ (hcode (f + size - 1) (by omega) (by omega))
  omega

/-- **THE TRAMPOLINE**: after any installs and removals, a function with a hook
    goes to the handler, and what the handler finds in its variable runs as
    the function did before it was hooked. -/
theorem trampoline_replays (hzydis : ZydisContract zydis) (hP : AgreesWith P zydis savesNext)
    {original : Target} {s : HookState}
    (h : ReachableIf (hookSystem (decodeInstruction64 zydis) original)
      (Admits (decodeInstruction64 zydis) layout) s)
    {g : Installed} (hg : g ∈ s.installed) :
    Trampolined P zydis savesNext layout original s g := by
  have hs : Exact layout original s := exact_reachable (decodesWithin hzydis) h
  have hlive := hs.live g hg
  have hplace := hs.inPlace hg
  have hend := code_end hlive.size_pos hlive.code
  have hroom := hlive.code_in_block
  have hrange := hlive.range
  obtain ⟨is, his⟩ := allDisplaced_reachable hzydis h g hg
  rw [hlive.saved] at his
  refine ⟨fun d => ?_, hplace.slot, ⟨is, his, fun hno => ?_⟩,
    fun m c c' => run_agrees fun a => uncovered_same hs⟩
  · have hpatch := hlive.size.1
    have hjump : HoldsAt (codeOf s.target) (entryOf g) (absoluteJump g.handler) := by
      refine holdsAt_codeOf (slice_front hplace.entry).1 ?_
      rw [absoluteJump_length]
      omega
    exact hP.jump hjump (cpu_rip _ _)
  · exact Holds.replays hP ⟨his, hplace.trampoline, hend, by omega⟩ hno

/-! ## A trampoline without a hook -/

/-- A live block that is neither code nor a variable of the image. -/
structure Aside (layout : Layout) (b : Block) : Prop where
  size : 0 < b.size
  code : ∀ a, b.base ≤ a → a < b.base + b.size → ¬layout.code a
  slots : ∀ x, layout.slot x → RunsApart x 8 b.base b.size

theorem slice_shorter {mem mem' : Memory} {off n k : Nat}
    (h : slice mem off n = slice mem' off n) (hk : k ≤ n) :
    slice mem off k = slice mem' off k := by
  obtain ⟨m, rfl⟩ := Nat.exists_eq_add_of_le hk
  rw [slice_add, slice_add] at h
  exact (List.append_inj h (by rw [slice_length, slice_length])).1

/-- **STEP**: installing and removing hooks writes to no other block. -/
theorem aside_step (hzydis : ZydisContract zydis) {original : Target} {b : Block}
    (haside : Aside layout b) (hb : b ∈ original.blocks) {s s' : HookState}
    {action : HookAction} (hs : Exact layout original s)
    (hadmits : Admits (decodeInstruction64 zydis) layout s action)
    (h : hookStep (decodeInstruction64 zydis) s action = some s') :
    slice s'.target.memory b.base b.size = slice s.target.memory b.base b.size := by
  have hspan : ∀ {f size}, 0 < size → (∀ a, f ≤ a → a < f + size → layout.code a) →
      RunsApart b.base b.size f size := fun hpos hcode =>
    (runsApart_of_split hpos haside.size hcode haside.code).symm
  cases action with
  | hook getRemoteExport calls f hookImageBase definition =>
      obtain ⟨hblock, hcode, -, hvariable⟩ := hadmits
      rw [hookStep] at h
      split at h
      next handler hook t' hhandler hcall =>
        cases Option.some.inj h
        obtain ⟨handler', slot, hhandler', hslot, hmade, rfl, rfl⟩ := hookFunction_success hcall
        obtain ⟨hisSlot, -⟩ := hvariable slot hslot
        have hi : Installs layout (decodeInstruction64 zydis) getRemoteExport calls f
            hookImageBase definition slot s.target :=
          ⟨decodesWithin hzydis, hmade, hblock, hcode, hslot, hisSlot⟩
        have hlive : b ∈ s.target.blocks := (hs.blocks b).mpr (Or.inl hb)
        exact hi.slice_eq (hblock.blocks b hlive) (haside.slots slot hisSlot).symm
          (hspan hi.size_pos hcode)
      next => cases h
  | unhook calls index =>
      rw [hookStep] at h
      split at h
      next => cases h
      next g hget =>
        split at h
        next t' hcall =>
          cases Option.some.inj h
          obtain ⟨hmemory, -⟩ := unhookFunction_success hcall
          have hlive := hs.live g (List.mem_of_getElem? hget)
          have hrestored : Restored g s.target t' := hmemory
          exact hrestored.slice_eq (hspan hlive.size_pos hlive.code)
            (haside.slots _ hlive.isSlot).symm
        next => cases h

theorem aside_reachable (hzydis : ZydisContract zydis) {original : Target} {b : Block}
    (haside : Aside layout b) (hb : b ∈ original.blocks) {s : HookState}
    (h : ReachableIf (hookSystem (decodeInstruction64 zydis) original)
      (Admits (decodeInstruction64 zydis) layout) s) :
    slice s.target.memory b.base b.size = slice original.memory b.base b.size := by
  refine ReachableIf.invariant_under
    (P := fun s => slice s.target.memory b.base b.size = slice original.memory b.base b.size)
    (fun s => exact_reachable (decodesWithin hzydis)) ?_ ?_ h
  · rintro s rfl
    rfl
  · intro s a s' hs hkept hok hstep
    exact (aside_step hzydis haside hb hs hok hstep).trans hkept

/-- **THE BYPASS**: a trampoline that was made for a function keeps its bytes,
    and keeps running the function as it was, whatever is hooked and unhooked
    afterwards, be it the function itself. -/
theorem bypass_replays (hzydis : ZydisContract zydis) (hP : AgreesWith P zydis savesNext)
    {calls : BypassCalls} {f : Nat} {t original : Target} {trampoline : RemoteTrampoline}
    (hmade : createBypassTrampoline (decodeInstruction64 zydis) calls f t
      = (some trampoline, original))
    (hrange : trampoline.address + trampolineSize ≤ 2 ^ 64)
    (haside : Aside layout ⟨trampoline.address, trampolineSize⟩)
    (hcode : ∀ a, f ≤ a → a < f + trampoline.patchSize → layout.code a) {s : HookState}
    (h : ReachableIf (hookSystem (decodeInstruction64 zydis) original)
      (Admits (decodeInstruction64 zydis) layout) s) :
    slice s.target.memory trampoline.address trampolineSize
        = slice original.memory trampoline.address trampolineSize ∧
      ∃ is, Displaced zydis (slice t.memory f trampoline.patchSize) is ∧
        ((∀ i ∈ is, ¬savesNext i) →
          ∀ d, Replays P t s.target (BitVec.ofNat 64 f) (BitVec.ofNat 64 trampoline.address)
            (BitVec.ofNat 64 (f + trampoline.patchSize)) d) := by
  -- only the calls for the trampoline matter
  let hook : HookCalls := ⟨calls, true, true, ⟨true, true, true, true⟩, true, true⟩
  have hcalls : TrampolineMade (decodeInstruction64 zydis) hook f t :=
    trampolineMade_of_some (congrArg Prod.fst hmade)
  have hcreated := createBypassTrampoline_made hcalls
  rw [show hook.bypass = calls from rfl, hmade] at hcreated
  obtain ⟨htrampoline, rfl⟩ := Prod.mk.inj hcreated
  cases Option.some.inj htrampoline
  have hle : sizeOf (decodeInstruction64 zydis) hook f t ≤ 32 := sizeOf_le (decodesWithin hzydis)
  have hpos : 0 < sizeOf (decodeInstruction64 zydis) hook f t := Nat.pos_of_ne_zero hcalls.size
  have hroom : sizeOf (decodeInstruction64 zydis) hook f t + patchSize ≤ trampolineSize := by
    rw [patchSize, trampolineSize]
    omega
  obtain ⟨is, his⟩ := displaced_of_size hzydis hcalls.size
  have hkept := aside_reachable hzydis haside List.mem_cons_self h
  refine ⟨hkept, is, his, fun hno => Holds.replays hP ⟨his, ?_, code_end hpos hcode, ?_⟩ hno⟩
  · have hstored := slice_store_self t.memory calls.allocated
      (trampolineCode f (sizeOf (decodeInstruction64 zydis) hook f t) t)
    rw [trampolineCode_length] at hstored
    exact (slice_shorter hkept hroom).trans hstored
  · exact Nat.le_trans (Nat.add_le_add_left hroom _) hrange

/-! ## A hook on nops -/

theorem decodeInstruction64_nop : decodeInstruction64 zydisNop = decodeNop := by
  funext code
  cases code with
  | nil => rfl
  | cons b rest =>
      by_cases hb : b = 0x90
      · subst hb
        rfl
      · have hzydis : zydisNop (b :: rest) = none := by
          rw [zydisNop]
          rintro rest' heq
          exact hb (List.cons.inj heq).1
        have hdecode : decodeNop (b :: rest) = none := by
          rw [decodeNop]
          rintro rest' heq
          exact hb (List.cons.inj heq).1
        rw [decodeInstruction64, hzydis, hdecode]
        rfl

/-- Zydis decodes the nops of the stub's processor; they save nothing. -/
theorem stubProcessor_agrees : AgreesWith stubProcessor zydisNop fun _ => False := by
  have hnop : ∀ code instruction, zydisNop code = some instruction →
      instruction.length = 1 ∧ code.take instruction.length = [0x90] := by
    intro code instruction h
    unfold zydisNop at h
    split at h
    next rest =>
      cases Option.some.inj h
      exact ⟨rfl, rfl⟩
    next => cases h
  refine ⟨fun code instruction h => ?_, fun code instruction h _ _ => ?_, stubProcessor_executes⟩
  · obtain ⟨hlength, hbytes⟩ := hnop code instruction h
    rw [hbytes, hlength]
    rfl
  · obtain ⟨-, hbytes⟩ := hnop code instruction h
    rw [hbytes]
    exact fun a b d => rfl

/-- Two hooked functions of nops. -/
theorem trampoline_replays_nops : ∃ s,
    ReachableIf (hookSystem (decodeInstruction64 zydisNop) unhookedTarget)
      (Admits (decodeInstruction64 zydisNop) pageLayout) s ∧
    hookView s = ([0x20140, 0x20100], []) ∧
    ∀ g ∈ s.installed,
      Trampolined stubProcessor zydisNop (fun _ => False) pageLayout unhookedTarget s g := by
  have hexec : ((hookSystem decodeNop unhookedTarget).execWhile pairAdmits
      ⟨unhookedTarget, [], []⟩ [openCall, closeCall]).map hookView
      = some ([0x20140, 0x20100], []) := by
    decide +kernel
  obtain ⟨s, hs, hview⟩ := Option.map_eq_some_iff.mp hexec
  have hreach := pair_reachable (by simp) hs
  rw [← decodeInstruction64_nop] at hreach
  exact ⟨s, hreach, hview,
    fun g hg => trampoline_replays zydisNop_contract stubProcessor_agrees hreach hg⟩

/-- A trampoline for `Open`, which is then hooked, unhooked under the hook of
    `Close`, and hooked again. -/
theorem bypass_replays_nops : ∃ t trampoline s,
    createBypassTrampoline (decodeInstruction64 zydisNop) (pairCalls 0x42000).bypass
      0x20100 unhookedTarget = (some trampoline, t) ∧
    hookView s = ([0x20100, 0x20140], [0x20100]) ∧
    slice s.target.memory trampoline.address trampolineSize
      = slice t.memory trampoline.address trampolineSize ∧
    ∃ is, Displaced zydisNop (slice unhookedTarget.memory 0x20100 trampoline.patchSize) is ∧
      ((∀ i ∈ is, ¬False) → ∀ d, Replays stubProcessor unhookedTarget s.target
        (BitVec.ofNat 64 0x20100) (BitVec.ofNat 64 trampoline.address)
        (BitVec.ofNat 64 (0x20100 + trampoline.patchSize)) d) := by
  let made := createBypassTrampoline decodeNop (pairCalls 0x42000).bypass 0x20100 unhookedTarget
  have hexec : made.1.bind (fun trampoline =>
      ((hookSystem decodeNop made.2).execWhile pairAdmits ⟨made.2, [], []⟩
        [openCall, closeCall, .unhook unhookCall 1, openCall]).map fun s =>
          (trampoline.address, trampoline.patchSize, hookView s))
      = some (0x42000, 14, [0x20100, 0x20140], [0x20100]) := by
    decide +kernel
  obtain ⟨trampoline, htrampoline, hexec⟩ := Option.bind_eq_some_iff.mp hexec
  obtain ⟨s, hs, hviews⟩ := Option.map_eq_some_iff.mp hexec
  obtain ⟨haddress, hrest⟩ := Prod.mk.inj hviews
  obtain ⟨hsize, hview⟩ := Prod.mk.inj hrest
  have hmade : createBypassTrampoline decodeNop (pairCalls 0x42000).bypass 0x20100
      unhookedTarget = (some trampoline, made.2) := Prod.ext htrampoline rfl
  have hreach := pair_reachable (by simp) hs
  rw [← decodeInstruction64_nop] at hmade hreach
  obtain ⟨address, patchSize⟩ := trampoline
  cases haddress
  cases hsize
  have haside : Aside pageLayout ⟨0x42000, trampolineSize⟩ := by
    refine ⟨by decide, ?_, ?_⟩
    · rintro a h1 - ⟨-, h2⟩
      have h1' : 0x42000 ≤ a := h1
      omega
    · rintro x (rfl | rfl)
      · exact Or.inl (show 0x30010 + 8 ≤ 0x42000 by decide)
      · exact Or.inl (show 0x30018 + 8 ≤ 0x42000 by decide)
  have hcode : ∀ a, 0x20100 ≤ a → a < 0x20100 + 14 → pageLayout.code a :=
    fun a h1 h2 => ⟨by omega, by omega⟩
  obtain ⟨hkept, hreplays⟩ := bypass_replays zydisNop_contract stubProcessor_agrees hmade
    (by decide) haside hcode hreach
  exact ⟨_, _, s, hmade, hview, hkept, hreplays⟩

end ScopeTrampoline
