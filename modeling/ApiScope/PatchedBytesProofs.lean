import ApiScope.DebugSessionProofs
import ApiScope.HookInverseProofs
import ApiScope.UndoLogProofs

/-! # Patched bytes — the jumps in the target, read off its memory

    What makes a function patched is not what somebody noted down about it,
    it is the bytes of its entry: a jump into the hook image.  A jump can also
    come back without anybody having written it as one, where two patches
    overlap and the saved bytes of one hold a part of the other.

    This file says when bytes are such a jump (`jumpsInto_iff`), what
    releasing hooks leaves at the entry of each of them (`releaseHooks_entry`,
    `unhookAll_entry`, and `unhookAll_log` where patches overlap), and which
    bytes the other operations leave alone. -/

namespace ScopePatched

open ScopeBytes ScopeProtocol ScopeHook ScopeDebug ScopeOutcome ScopeInverse ScopeOverlay
  ScopeUndo

/-! ## Jumps into the image -/

/-- The address that an absolute jump goes to. -/
def jumpTarget (code : List UInt8) : Nat :=
  leNat ((code.drop 1).take 4) + 2 ^ 32 * leNat ((code.drop 9).take 4)

/-- The bytes are an absolute jump into the `size` bytes from `base` on. -/
def jumpsInto (base size : Nat) (code : List UInt8) : Bool :=
  code = absoluteJump (jumpTarget code) ∧ base ≤ jumpTarget code ∧
    jumpTarget code < base + size

/-- The entry of `f` holds an absolute jump into the `size` bytes from `base`
    on. -/
def holdsJump (base size : Nat) (t : Target) (f : Nat) : Bool :=
  jumpsInto base size (slice t.memory f patchSize)

theorem jumpTarget_absoluteJump {a : Nat} (h : a < 2 ^ 64) :
    jumpTarget (absoluteJump a) = a := by
  have hlow : (absoluteJump a).drop 1
      = leBytes 4 a ++ ([0xC7, 0x44, 0x24, 0x04] ++ leBytes 4 (a / 2 ^ 32) ++ [0xC3]) := by
    simp [absoluteJump]
  have hhigh : (absoluteJump a).drop 9 = leBytes 4 (a / 2 ^ 32) ++ [0xC3] := by
    rw [show 9 = 1 + (4 + 4) from rfl, ← List.drop_drop, hlow, ← List.drop_drop,
      List.drop_left' (leBytes_length 4 a)]
    rfl
  rw [jumpTarget, hlow, hhigh, List.take_left' (leBytes_length 4 a),
    List.take_left' (leBytes_length 4 _), leNat_leBytes, leNat_leBytes,
    Nat.mod_eq_of_lt (show a / 2 ^ 32 < 256 ^ 4 by omega)]
  exact Nat.mod_add_div a (2 ^ 32)

/-- The bytes that are a jump into a region are those of `absoluteJump`. -/
theorem jumpsInto_iff {base size : Nat} {code : List UInt8} (h : base + size ≤ 2 ^ 64) :
    jumpsInto base size code = true ↔
      ∃ a, base ≤ a ∧ a < base + size ∧ code = absoluteJump a := by
  rw [jumpsInto, decide_eq_true_eq]
  constructor
  · rintro ⟨hcode, hlow, hhigh⟩
    exact ⟨_, hlow, hhigh, hcode⟩
  · rintro ⟨a, hlow, hhigh, rfl⟩
    rw [jumpTarget_absoluteJump (by omega)]
    exact ⟨rfl, hlow, hhigh⟩

/-! ## Runs of bytes -/

/-- A run inside the second one. -/
theorem RunsApart.inside {off n a m a' m' : Nat} (h : RunsApart off n a m)
    (hlow : a ≤ a') (hhigh : a' + m' ≤ a + m) : RunsApart off n a' m' := by
  rcases h with h | h
  · exact Or.inl (by omega)
  · exact Or.inr (by omega)

theorem holdsJump_congr {base size f n : Nat} {t t' : Target} (hn : patchSize ≤ n)
    (h : slice t'.memory f n = slice t.memory f n) :
    holdsJump base size t' f = holdsJump base size t f := by
  rw [holdsJump, holdsJump, ← slice_take _ _ _ _ hn, h, slice_take _ _ _ _ hn]

/-- An entry that holds the saved bytes holds a jump where these do. -/
theorem holdsJump_saved {base size f : Nat} {t : Target} {bytes : List UInt8}
    (hn : patchSize ≤ bytes.length) (h : slice t.memory f bytes.length = bytes) :
    holdsJump base size t f = jumpsInto base size (bytes.take patchSize) := by
  rw [holdsJump, ← slice_take _ _ _ _ hn, h]

/-! ## Releasing hooks -/

/-- The patched spans of two hooks have no byte in common. -/
def SpansApart (g h : InstalledHook) : Prop :=
  RunsApart g.originalFunction g.originalBytes.length h.originalFunction
    h.originalBytes.length

instance : DecidableRel SpansApart := fun _ _ => inferInstanceAs (Decidable (_ ∨ _))

/-- The bytes have nothing to do with a hook: they are neither in its patch
    nor in its slot. -/
structure Clear (off n : Nat) (h : InstalledHook) : Prop where
  span : RunsApart off n h.originalFunction h.originalBytes.length
  slot : RunsApart off n h.trampolineSlot 8

variable {env : Environment} {base : Nat}

theorem releaseHooks_slice {hooks : List InstalledHook} {off n : Nat}
    (hspans : ∀ g ∈ hooks, g.targetModuleBase ≠ base ∧ g.sourceModuleBase = base →
      RunsApart off n g.originalFunction g.originalBytes.length)
    (hslots : ∀ g ∈ hooks, RunsApart off n g.trampolineSlot 8) (t : Target) :
    slice (releaseHooks env base hooks t).2.memory off n = slice t.memory off n := by
  refine releaseHooks_keeps
    (P := fun t' => slice t'.memory off n = slice t.memory off n) ?_ ?_ rfl
  · intro g hg _ t' ht'
    rw [releaseUnloadedHook_slice (hslots g hg), ht']
  · intro g hg ht hs t' ht'
    rw [unhookFunction_slice (hspans g hg ⟨ht, hs⟩) (hslots g hg), ht']

/-- One of the hooks that a loop releases: complete and met once, with its
    bytes clear of the variables and of the hooks that are unhooked. -/
structure Releasable (unhooks : InstalledHook → Prop) (hooks : List InstalledHook)
    (h : InstalledHook) : Prop where
  complete : Complete h
  once : hooks.Nodup
  spans : ∀ g ∈ hooks, unhooks g → g ≠ h → SpansApart h g
  slots : ∀ g ∈ hooks, RunsApart h.originalFunction h.originalBytes.length g.trampolineSlot 8

section Releasable

variable {unhooks : InstalledHook → Prop} {hooks : List InstalledHook} {g h : InstalledHook}

theorem Releasable.tail (hr : Releasable unhooks (g :: hooks) h) :
    Releasable unhooks hooks h where
  complete := hr.complete
  once := (List.nodup_cons.mp hr.once).2
  spans g' hg' := hr.spans g' (List.mem_cons_of_mem g hg')
  slots g' hg' := hr.slots g' (List.mem_cons_of_mem g hg')

/-- After its turn a hook is not met again. -/
theorem Releasable.others (hr : Releasable unhooks (h :: hooks) h) :
    ∀ g ∈ hooks, unhooks g → SpansApart h g := by
  intro g hg hu
  refine hr.spans g (List.mem_cons_of_mem h hg) hu ?_
  rintro rfl
  exact (List.nodup_cons.mp hr.once).1 hg

/-- Before its turn another one is met. -/
theorem Releasable.other (hr : Releasable unhooks (g :: hooks) h) (hh : h ∈ hooks)
    (hu : unhooks g) : SpansApart h g := by
  refine hr.spans g List.mem_cons_self hu ?_
  rintro rfl
  exact (List.nodup_cons.mp hr.once).1 hh

theorem Releasable.reverse (hr : Releasable unhooks hooks h) :
    Releasable unhooks hooks.reverse h where
  complete := hr.complete
  once := List.pairwise_reverse.mpr (hr.once.imp Ne.symm)
  spans g hg := hr.spans g (List.mem_reverse.mp hg)
  slots g hg := hr.slots g (List.mem_reverse.mp hg)

end Releasable

/-- The hooks that `HandleUnloadDll` unhooks from a module that stays, and
    whose bytes it manages to write back. -/
def Unhooked (env : Environment) (base : Nat) (h : InstalledHook) : Prop :=
  h.targetModuleBase ≠ base ∧ h.sourceModuleBase = base ∧
    (env.unhookCalls h).restores = true

instance (env : Environment) (base : Nat) (h : InstalledHook) :
    Decidable (Unhooked env base h) :=
  inferInstanceAs (Decidable (_ ∧ _))

/-- **AFTER AN UNLOAD** the entry of every hook holds its saved bytes where
    they were written back, and the bytes it had otherwise. -/
theorem releaseHooks_entry {hooks : List InstalledHook} {h : InstalledHook}
    (hr : Releasable (fun g => g.targetModuleBase ≠ base ∧ g.sourceModuleBase = base) hooks h)
    (hh : h ∈ hooks) (t : Target) :
    slice (releaseHooks env base hooks t).2.memory h.originalFunction
        h.originalBytes.length
      = if Unhooked env base h then h.originalBytes
        else slice t.memory h.originalFunction h.originalBytes.length := by
  induction hooks generalizing t with
  | nil => cases hh
  | cons g rest ih =>
      rw [releaseHooks]
      rcases List.mem_cons.mp hh with rfl | hrest
      · -- its own turn; the hooks after it leave its bytes alone
        have hafter : ∀ t', slice (releaseHooks env base rest t').2.memory
            h.originalFunction h.originalBytes.length
            = slice t'.memory h.originalFunction h.originalBytes.length :=
          fun t' => releaseHooks_slice hr.others hr.tail.slots t'
        have hslot := hr.slots h hh
        by_cases htarget : h.targetModuleBase = base
        · rw [if_pos htarget, hafter, releaseUnloadedHook_slice hslot,
            if_neg fun hu => hu.1 htarget]
        · rw [if_neg htarget]
          by_cases hsource : h.sourceModuleBase = base
          · rw [if_pos hsource, hafter, unhookFunction_entry hr.complete hslot]
            refine if_congr ?_ rfl rfl
            exact ⟨fun hrestores => ⟨htarget, hsource, hrestores⟩, fun hu => hu.2.2⟩
          · rw [if_neg hsource]
            dsimp only
            rw [hafter, if_neg fun hu => hsource hu.2.1]
      · -- the turn of another one
        have hslot := hr.slots g List.mem_cons_self
        have ih' := ih hr.tail hrest
        by_cases htarget : g.targetModuleBase = base
        · rw [if_pos htarget, ih', releaseUnloadedHook_slice hslot]
        · rw [if_neg htarget]
          by_cases hsource : g.sourceModuleBase = base
          · rw [if_pos hsource, ih',
              unhookFunction_slice (hr.other hrest ⟨htarget, hsource⟩) hslot]
          · rw [if_neg hsource]
            exact ih' t

/-- Nothing of the run is watched code. -/
def Beside (code : Nat → Prop) (a n : Nat) : Prop := ∀ x, a ≤ x → x < a + n → ¬code x

/-- The bytes that a hook has saved. -/
def savedRun (h : InstalledHook) : Run := ⟨h.originalFunction, h.originalBytes⟩

variable {code : Nat → Prop}

/-- `UnhookFunction` that writes the saved bytes back does nothing else to
    watched code. -/
theorem unhookFunction_back {calls : UnhookCalls} {hook : InstalledHook}
    (hc : Complete hook) (hrestores : calls.restores = true)
    (hslot : Beside code hook.trampolineSlot 8) (t : Target) :
    AgreeOn code (unhookFunction calls hook t).2.memory
      (store t.memory (savedRun hook).off (savedRun hook).bytes) := by
  obtain ⟨hprotect, hrestore⟩ := Bool.and_eq_true_iff.mp hrestores
  rw [unhookFunction, if_neg hc.accepted, hprotect, hrestore, if_neg (by decide)]
  dsimp only
  split
  next => exact .refl code _
  next =>
    split
    next => exact .refl code _
    next =>
      rw [free_memory]
      exact agreeOn_store (by rwa [pointerBytes_length])

/-- **THE LOG**: unhooking from the last to the first is undoing the log of the
    saved bytes, whatever patches overlap. -/
theorem unhookAll_log {hooks : List InstalledHook}
    (hrestores : ∀ h ∈ hooks, (env.unhookCalls h).restores = true)
    (hrecords : ∀ h ∈ hooks, Complete h ∧ Beside code h.trampolineSlot 8) (t : Target) :
    AgreeOn code (unhookAll env hooks t).2.memory (undo (hooks.reverse.map savedRun) t.memory) := by
  induction hooks generalizing t with
  | nil => exact .refl code _
  | cons h rest ih =>
      obtain ⟨hcomplete, hslot⟩ := hrecords h List.mem_cons_self
      have hcode := unhookFunction_back hcomplete (hrestores h List.mem_cons_self) hslot t
      have hrest := ih (fun g hg => hrestores g (List.mem_cons_of_mem h hg))
        (fun g hg => hrecords g (List.mem_cons_of_mem h hg))
        (unhookFunction (env.unhookCalls h) h t).2
      rw [List.reverse_cons, List.map_append, undo_append]
      exact hrest.trans (hcode.undo _)

/-! ## Installing hooks and configuring the transport -/

/-- A trampoline is written to its own block. -/
theorem createBypassTrampoline_slice
    {decodeInstruction64 : List UInt8 → Option DecodedInstruction}
    (hdecode : DecodesWithin decodeInstruction64) {calls : BypassCalls} {f : Nat}
    {t : Target} {trampoline : RemoteTrampoline}
    (h : (createBypassTrampoline decodeInstruction64 calls f t).1 = some trampoline)
    {off n : Nat} (hblock : RunsApart off n trampoline.address trampolineSize) :
    slice (createBypassTrampoline decodeInstruction64 calls f t).2.memory off n
      = slice t.memory off n := by
  let whole : HookCalls := ⟨calls, true, true, ⟨true, true, true, true⟩, true, true⟩
  have hmade : TrampolineMade decodeInstruction64 whole f t := trampolineMade_of_some h
  have heq := createBypassTrampoline_made hmade
  have hat : trampoline.address = calls.allocated := by
    rw [show calls = whole.bypass from rfl, heq] at h
    exact (congrArg RemoteTrampoline.address (Option.some.inj h)).symm
  rw [show calls = whole.bypass from rfl, heq]
  refine write_slice ?_
  refine RunsApart.inside (hat ▸ hblock) (Nat.le_refl _) ?_
  have hsize := @sizeOf_le decodeInstruction64 whole f t hdecode
  rw [trampolineCode_length, patchSize, trampolineSize]
  show calls.allocated + _ ≤ calls.allocated + _
  omega

/-- A hook is written to its trampoline, its slot and the bytes it covers. -/
theorem hookFunction_slice
    {getRemoteExport : Nat → List UInt8 → Option RemoteExport}
    {decodeInstruction64 : List UInt8 → Option DecodedInstruction}
    (hdecode : DecodesWithin decodeInstruction64) {calls : HookCalls}
    {f hookImageBase : Nat} {definition : HookDefinition} {t t' : Target}
    {hook : InstalledHook}
    (h : hookFunction getRemoteExport decodeInstruction64 calls f hookImageBase definition t
      = (some hook, t'))
    {off n : Nat} (hclear : Clear off n hook)
    (hblock : RunsApart off n hook.trampolineAddress trampolineSize) :
    slice t'.memory off n = slice t.memory off n := by
  obtain ⟨handler, slot, -, -, hmade, rfl, rfl⟩ := hookFunction_success h
  have hspan : RunsApart off n f (sizeOf decodeInstruction64 calls f t) := by
    have hlen := hclear.span
    rwa [recordOf, slice_length] at hlen
  have hsize : sizeOf decodeInstruction64 calls f t ≤ 32 := sizeOf_le hdecode
  have hkept : OutsideKept calls t.memory
      (withTrampoline calls f (sizeOf decodeInstruction64 calls f t) t).memory :=
    withTrampoline_kept hsize
  show slice (Target.patch _ true f _).memory off n = _
  calc slice (store (slotSet calls f (sizeOf decodeInstruction64 calls f t) slot t).memory f
          (patchBytes handler (sizeOf decodeInstruction64 calls f t))) off n
      = slice (slotSet calls f (sizeOf decodeInstruction64 calls f t) slot t).memory off n := by
        refine slice_store_disjoint ?_
        rw [patchBytes_sizeOf hmade]
        exact hspan
    _ = slice (withTrampoline calls f (sizeOf decodeInstruction64 calls f t) t).memory
          off n := by
        refine write_slice ?_
        rw [pointerBytes_length]
        exact hclear.slot
    _ = slice t.memory off n := hkept.slice_eq hblock

theorem writeRemoteExport_slice {image : Nat} {name : List UInt8} {value : Nat}
    {t : Target} {off n : Nat}
    (h : ∀ a, exportAddress (env.getRemoteExport image name) = some a → RunsApart off n a 8) :
    slice (writeRemoteExport env image name (pointerBytes value) t).2.memory off n
      = slice t.memory off n := by
  rw [writeRemoteExport]
  split
  next => rfl
  next a ha =>
    refine write_slice ?_
    rw [pointerBytes_length]
    exact h a ha

/-- The variables of the image: what its exports name lies in it. -/
def ExportsInside (env : Environment) (image size : Nat) : Prop :=
  ∀ name a, exportAddress (env.getRemoteExport image name) = some a →
    image ≤ a ∧ a + 8 ≤ image + size

theorem ExportsInside.clear {image size off n : Nat} (h : ExportsInside env image size)
    (himage : RunsApart off n image size) {name : List UInt8} {a : Nat}
    (ha : exportAddress (env.getRemoteExport image name) = some a) : RunsApart off n a 8 := by
  obtain ⟨hlow, hhigh⟩ := h name a ha
  exact RunsApart.inside himage hlow hhigh

/-- The blocks of the two bypasses and the variables of the image take all that
    `ConfigureTransport` writes. -/
theorem configureTransport_slice (hdecode : DecodesWithin env.decodeInstruction64)
    {ntdllBase : Nat} {d : DebugState} {size off n : Nat}
    (hexports : ExportsInside env d.session.hookImageBase size)
    (himage : RunsApart off n d.session.hookImageBase size)
    (h : (configureTransport env ntdllBase d).1 = true)
    (hblocks : ∀ b ∈ (configureTransport env ntdllBase d).2.target.blocks,
      RunsApart off n b.base b.size) :
    slice (configureTransport env ntdllBase d).2.target.memory off n
      = slice d.target.memory off n := by
  have hbypass : ∀ {name : List UInt8} {t : Target} {trampoline : RemoteTrampoline},
      (createBypassTrampolineForFunction env ntdllBase name t).1 = some trampoline →
      RunsApart off n trampoline.address trampolineSize →
      slice (createBypassTrampolineForFunction env ntdllBase name t).2.memory off n
        = slice t.memory off n := by
    intro name t trampoline hsome hapart
    rw [createBypassTrampolineForFunction] at hsome ⊢
    split at hsome
    next => cases hsome
    next => exact createBypassTrampoline_slice hdecode hsome hapart
  revert hblocks
  rw [configureTransport] at h ⊢
  dsimp only at h ⊢
  split at h
  next => cases h
  next setEvent hset =>
    obtain ⟨hb, -, -⟩ := createBypassTrampolineForFunction_some hset
    split at h
    next => cases h
    next readMemory hread =>
      obtain ⟨hb', -, -⟩ := createBypassTrampolineForFunction_some hread
      split at h
      next => cases h
      next hwrote =>
        rw [if_neg hwrote]
        simp only [writeRemoteExport_blocks, hb', hb, List.forall_mem_cons]
        rintro ⟨hread', hset', -⟩
        show slice (writeRemoteExport env _ _ _ _).2.memory off n = _
        rw [writeRemoteExport_slice fun a ha => hexports.clear himage ha,
          writeRemoteExport_slice fun a ha => hexports.clear himage ha,
          hbypass hread hread', hbypass hset hset']

end ScopePatched
