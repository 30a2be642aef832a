import ApiScope.HookInverseProofs
import ApiScope.ModuleEventsProofs
import ApiScope.UndoLogProofs

/-! # Detaching — what is left of a session in its target

    A session ends with `CleanupRemote`: after a stop at rest, or because an
    event failed.  By then anything may have gone wrong on the way in, a missing
    export, a ring that was not mapped, a hook that was refused.  Whatever it
    was, the code of the target is the original code and the controller has no
    block in it any more, provided the calls that undo something succeed.

    The installed hooks are an undo log (`ScopeUndo`): each one saved the bytes
    that its jump covers, and `CleanupRemote` goes from the last to the first.
    So nothing is asked about overlaps there.  A hook that is removed earlier,
    because the module of its forwarder is unloaded, has to be apart from the
    others. -/

namespace ScopeDetach

open ScopeBytes ScopeProtocol ScopeHook ScopeDebug ScopeOutcome ScopeTransition ScopeOverlay
open ScopeUndo ScopeInverse ScopeQuiescence ScopePatched

/-! ## What the hook manager does to code and blocks -/

/-- The watched code and the blocks are as before. -/
structure Untouched (code : Nat → Prop) (t t' : Target) : Prop where
  code : AgreeOn code t'.memory t.memory
  blocks : t'.blocks = t.blocks

variable {code : Nat → Prop}

theorem Untouched.refl (code : Nat → Prop) (t : Target) : Untouched code t t :=
  ⟨.refl code _, rfl⟩

theorem Untouched.trans {t t' t'' : Target} (h : Untouched code t t')
    (h' : Untouched code t' t'') : Untouched code t t'' :=
  ⟨h'.code.trans h.code, h'.blocks.trans h.blocks⟩

theorem write_untouched {t : Target} {ok : Bool} {a : Nat} {bytes : List UInt8}
    (h : Beside code a bytes.length) : Untouched code t (t.write ok a bytes) := by
  refine ⟨?_, write_blocks t ok a bytes⟩
  cases ok with
  | false => exact .refl code _
  | true => exact agreeOn_store h

/-- A block that was allocated and freed again. -/
theorem map_free_untouched {t t' : Target} {base size : Nat}
    (hnew : ∀ b ∈ t.blocks, b.base ≠ base) (h : Untouched code (t.map ⟨base, size⟩) t') :
    Untouched code t (t'.free true base) := by
  refine ⟨h.code, ?_⟩
  show t'.blocks.filter _ = t.blocks
  rw [h.blocks, map_blocks, List.filter_cons_of_neg (by simp)]
  exact List.filter_eq_self.mpr fun b hb => decide_eq_true (hnew b hb)

/-- What is asked of the calls of `CreateBypassTrampoline`: the undo call
    succeeds, and a block that is returned is a new one and is not code. -/
structure BypassOk (code : Nat → Prop) (calls : BypassCalls) (t : Target) : Prop where
  free : calls.free = true
  new : calls.allocated ≠ 0 → ∀ b ∈ t.blocks, b.base ≠ calls.allocated
  beside : calls.allocated ≠ 0 → Beside code calls.allocated trampolineSize

/-- What `CreateBypassTrampoline` does: nothing that stays, or a new block. -/
inductive Bypassed (code : Nat → Prop) (calls : BypassCalls) (t : Target) :
    Option RemoteTrampoline × Target → Prop where
  | refused {t' : Target} (h : Untouched code t t') : Bypassed code calls t (none, t')
  | made {t' : Target} (size : Nat) (hne : calls.allocated ≠ 0)
      (hblocks : t'.blocks = ⟨calls.allocated, trampolineSize⟩ :: t.blocks)
      (hcode : AgreeOn code t'.memory t.memory) :
      Bypassed code calls t (some ⟨calls.allocated, size⟩, t')

theorem createBypassTrampoline_bypassed
    {decodeInstruction64 : List UInt8 → Option DecodedInstruction}
    (hdecode : DecodesWithin decodeInstruction64) {calls : BypassCalls} {t : Target}
    (hok : BypassOk code calls t) (f : Nat) :
    Bypassed code calls t (createBypassTrampoline decodeInstruction64 calls f t) := by
  rw [createBypassTrampoline]
  dsimp only
  generalize hsize : calculatePatchSize decodeInstruction64 calls.readEntry f t = size
  by_cases hzero : size = 0
  · rw [if_pos hzero]
    exact .refused (.refl code t)
  rw [if_neg hzero]
  by_cases halloc : calls.allocated = 0
  · rw [if_pos halloc]
    exact .refused (.refl code t)
  rw [if_neg halloc]
  have hroom : size + patchSize ≤ trampolineSize := by
    have hle : sizeOf decodeInstruction64 ⟨calls, true, true, ⟨true, true, true, true⟩, true, true⟩
        f t ≤ 32 := sizeOf_le hdecode
    have hsize' : sizeOf decodeInstruction64
        ⟨calls, true, true, ⟨true, true, true, true⟩, true, true⟩ f t = size := hsize
    rw [hsize'] at hle
    rw [patchSize, trampolineSize]
    omega
  have hwritten : Untouched code (t.map ⟨calls.allocated, trampolineSize⟩)
      (createTrampoline calls f calls.allocated size
        (t.map ⟨calls.allocated, trampolineSize⟩)).2 := by
    rw [createTrampoline]
    split
    next => exact .refl code _
    next =>
      refine write_untouched fun x h1 h2 => hok.beside halloc x h1 ?_
      rw [List.length_append, slice_length, absoluteJump_length] at h2
      omega
  split
  next => exact .made size halloc hwritten.blocks hwritten.code
  next =>
    rw [hok.free]
    exact .refused (map_free_untouched (hok.new halloc) hwritten)

/-- What is asked of the calls of `HookFunction`: a jump that was written is
    kept, and what the image exports as a variable is not code. -/
structure HookOk (code : Nat → Prop)
    (getRemoteExport : Nat → List UInt8 → Option RemoteExport) (calls : HookCalls)
    (hookImageBase : Nat) (definition : HookDefinition) (t : Target) : Prop where
  bypass : BypassOk code calls.bypass t
  free : calls.free = true
  kept : calls.patch.write = true → calls.patch.reprotect = true ∧ calls.patch.flush = true
  slot : ∀ slot, slotOf getRemoteExport hookImageBase definition = some slot →
    Beside code slot 8

/-- What `HookFunction` does: nothing that stays, or a hook whose saved bytes
    undo it. -/
inductive HookResult (code : Nat → Prop) (calls : HookCalls) (f : Nat) (t : Target) :
    Option InstalledHook × Target → Prop where
  | refused {t' : Target} (h : Untouched code t t') : HookResult code calls f t (none, t')
  | made {hook : InstalledHook} {t' : Target} (hcomplete : Complete hook)
      (hslot : Beside code hook.trampolineSlot 8)
      (haddress : hook.trampolineAddress = calls.bypass.allocated)
      (hblocks : t'.blocks = ⟨hook.trampolineAddress, trampolineSize⟩ :: t.blocks)
      (hlog : ∀ log, AgreeOn code (undo (log ++ [savedRun hook]) t'.memory) (undo log t.memory)) :
      HookResult code calls f t (some hook, t')

/-- Behind a write of the jump that is kept, `PatchFunction` succeeds. -/
theorem patchFunction_kept {calls : PatchCalls}
    (hkept : calls.write = true → calls.reprotect = true ∧ calls.flush = true) {f a size : Nat}
    {t : Target} (h : (patchFunction calls f a size t).1 = false) :
    (patchFunction calls f a size t).2 = t := by
  rw [patchFunction] at h ⊢
  split at h
  next hprotect => rw [if_pos hprotect]
  next hprotect =>
    rw [if_neg hprotect]
    cases hwrite : calls.write with
    | false => rfl
    | true =>
        obtain ⟨hreprotect, hflush⟩ := hkept hwrite
        rw [hwrite, hreprotect, hflush] at h
        cases h

/-- The bytes saved before the jump was written undo it. -/
theorem jumped_log {decodeInstruction64 : List UInt8 → Option DecodedInstruction}
    (hdecode : DecodesWithin decodeInstruction64) {calls : HookCalls} {f slot handler : Nat}
    {definition : HookDefinition} {t : Target}
    (hmade : TrampolineMade decodeInstruction64 calls f t)
    (hblock : Beside code calls.bypass.allocated trampolineSize) (hslot : Beside code slot 8)
    (log : List Run) :
    AgreeOn code
      (undo (log ++ [savedRun (recordOf calls f (sizeOf decodeInstruction64 calls f t) slot
          definition t)])
        (jumped calls f (sizeOf decodeInstruction64 calls f t) slot handler t).memory)
      (undo log t.memory) := by
  have htrampoline : AgreeOn code
      (withTrampoline calls f (sizeOf decodeInstruction64 calls f t) t).memory t.memory :=
    fun a ha => withTrampoline_kept (sizeOf_le hdecode) a fun hin => hblock a hin.1 hin.2 ha
  refine AgreeOn.trans (undo_push (fun a ha hout => ?_) log) (htrampoline.undo log)
  have hout' : ¬(f ≤ a ∧ a < f + sizeOf decodeInstruction64 calls f t) := hout
  have hpatch : (jumped calls f (sizeOf decodeInstruction64 calls f t) slot handler t).memory a
      = (slotSet calls f (sizeOf decodeInstruction64 calls f t) slot t).memory a := by
    refine store_outside ?_
    rw [patchBytes_sizeOf hmade]
    omega
  have hvariable : AgreeOn code
      (slotSet calls f (sizeOf decodeInstruction64 calls f t) slot t).memory
      (withTrampoline calls f (sizeOf decodeInstruction64 calls f t) t).memory :=
    agreeOn_store (by rwa [pointerBytes_length])
  exact hpatch.trans (hvariable a ha)

/-- A call that made its trampoline and is given up frees it. -/
theorem freed_untouched {calls : HookCalls} {t t' : Target} (hbypass : BypassOk code calls.bypass t)
    (hne : calls.bypass.allocated ≠ 0)
    (hblocks : t'.blocks = ⟨calls.bypass.allocated, trampolineSize⟩ :: t.blocks)
    (hcode : AgreeOn code t'.memory t.memory) (hfree : calls.free = true) :
    Untouched code t (t'.free calls.free calls.bypass.allocated) := by
  rw [hfree]
  exact map_free_untouched (hbypass.new hne) ⟨hcode, hblocks⟩

theorem hookFunction_refused
    {getRemoteExport : Nat → List UInt8 → Option RemoteExport}
    {decodeInstruction64 : List UInt8 → Option DecodedInstruction}
    (hdecode : DecodesWithin decodeInstruction64) {calls : HookCalls} {f hookImageBase : Nat}
    {definition : HookDefinition} {t t' : Target}
    (hok : HookOk code getRemoteExport calls hookImageBase definition t)
    (h : hookFunction getRemoteExport decodeInstruction64 calls f hookImageBase definition t
      = (none, t')) : Untouched code t t' := by
  rw [hookFunction] at h
  split at h
  next =>
    cases h
    exact .refl code t
  next =>
    split at h
    next =>
      cases h
      exact .refl code t
    next =>
      split at h
      next =>
        cases h
        exact .refl code t
      next slot hslot =>
        have hbypassed := createBypassTrampoline_bypassed hdecode hok.bypass f
        dsimp only at h
        generalize createBypassTrampoline decodeInstruction64 calls.bypass f t = created
          at h hbypassed
        cases hbypassed with
        | refused hsame =>
            cases h
            exact hsame
        | @made made size hne hblocks hcode =>
            have hfreed := freed_untouched hok.bypass hne hblocks hcode hok.free
            dsimp only at h
            split at h
            next =>
              cases h
              exact hfreed
            next =>
              split at h
              next =>
                cases h
                exact hfreed
              next =>
                split at h
                next => cases h
                next hpatched =>
                  obtain ⟨-, rfl⟩ := Prod.mk.inj h
                  rw [patchFunction_kept hok.kept (Bool.eq_false_iff.mpr hpatched)]
                  -- the variable is set and cleared again
                  have hset := @write_untouched code made true slot
                    (pointerBytes calls.bypass.allocated)
                    (by rw [pointerBytes_length]; exact hok.slot slot hslot)
                  have hcleared := hset.trans (@write_untouched code _ calls.clearSlot slot
                    (pointerBytes 0) (by rw [pointerBytes_length]; exact hok.slot slot hslot))
                  exact freed_untouched hok.bypass hne (hcleared.blocks.trans hblocks)
                    (hcleared.code.trans hcode) hok.free

/-- **HOOKING**: all that a call leaves is undone by what it recorded. -/
theorem hookFunction_result
    {getRemoteExport : Nat → List UInt8 → Option RemoteExport}
    {decodeInstruction64 : List UInt8 → Option DecodedInstruction}
    (hdecode : DecodesWithin decodeInstruction64) {calls : HookCalls} {hookImageBase : Nat}
    {definition : HookDefinition} {t : Target}
    (hok : HookOk code getRemoteExport calls hookImageBase definition t) (f : Nat) :
    HookResult code calls f t
      (hookFunction getRemoteExport decodeInstruction64 calls f hookImageBase definition t) := by
  generalize hr : hookFunction getRemoteExport decodeInstruction64 calls f hookImageBase
    definition t = r
  obtain ⟨hook, t'⟩ := r
  cases hook with
  | some hook =>
      obtain ⟨handler, slot, -, hslot, hmade, rfl, rfl⟩ := hookFunction_success hr
      obtain ⟨hhooked, -⟩ := hookFunction_some hr
      refine .made ⟨hhooked.nonnull.1, hhooked.nonnull.2.1, hhooked.nonnull.2.2, fun hnil => ?_⟩
        (hok.slot slot hslot) rfl hhooked.blocks
        (jumped_log hdecode hmade (hok.bypass.beside hmade.allocated) (hok.slot slot hslot))
      have hcovers := hhooked.covers
      rw [hnil] at hcovers
      exact absurd hcovers (by decide)
  | none => exact .refused (hookFunction_refused hdecode hok hr)

/-- `UnhookFunction` when every call succeeds. -/
theorem unhookFunction_restores {calls : UnhookCalls} (hcalls : calls = unhookCall)
    {hook : InstalledHook} (hcomplete : Complete hook) (hslot : Beside code hook.trampolineSlot 8)
    (t : Target) :
    AgreeOn code (unhookFunction calls hook t).2.memory
        (store t.memory (savedRun hook).off (savedRun hook).bytes) ∧
      (unhookFunction calls hook t).2.blocks
        = t.blocks.filter fun b => b.base ≠ hook.trampolineAddress := by
  have hrestores : calls.restores = true := by
    rw [hcalls]
    rfl
  refine ⟨unhookFunction_back hcomplete hrestores hslot t, ?_⟩
  obtain ⟨t', ht'⟩ := unhookFunction_made hcomplete t
  rw [hcalls, ht']
  exact (unhookFunction_success ht').2

/-- `ReleaseUnloadedHook` when every call succeeds. -/
theorem releaseUnloadedHook_frees {calls : UnhookCalls} (hcalls : calls = unhookCall)
    {hook : InstalledHook} (hslot : Beside code hook.trampolineSlot 8) (t : Target) :
    AgreeOn code (releaseUnloadedHook calls hook t).2.memory t.memory ∧
      (releaseUnloadedHook calls hook t).2.blocks
        = t.blocks.filter fun b => b.base ≠ hook.trampolineAddress := by
  rw [hcalls]
  exact ⟨agreeOn_store (by rwa [pointerBytes_length]), rfl⟩

/-! ## What a session has to give back -/

/-- The addresses that the session has recorded, or null. -/
def owned (s : Session) : List Nat :=
  s.hookImageBase :: s.remoteRing :: s.setEventBypass :: s.readMemoryBypass
    :: s.installedHooks.map InstalledHook.trampolineAddress

def Owns (s : Session) (base : Nat) : Prop := base ≠ 0 ∧ base ∈ owned s

theorem mem_owned {s : Session} {base : Nat} :
    base ∈ owned s ↔ base = s.hookImageBase ∨ base = s.remoteRing ∨ base = s.setEventBypass ∨
      base = s.readMemoryBypass ∨ ∃ h ∈ s.installedHooks, h.trampolineAddress = base := by
  simp only [owned, List.mem_cons, List.mem_map]

/-- One address more. -/
theorem owns_more {s s' : Session} {new : Nat} (hne : new ≠ 0)
    (h : ∀ base, base ≠ 0 → (base ∈ owned s' ↔ base ∈ owned s ∨ base = new)) (base : Nat) :
    Owns s' base ↔ Owns s base ∨ base = new := by
  constructor
  · rintro ⟨hb, hown⟩
    exact ((h base hb).mp hown).imp (⟨hb, ·⟩) id
  · rintro (⟨hb, hown⟩ | rfl)
    · exact ⟨hb, (h base hb).mpr (Or.inl hown)⟩
    · exact ⟨hne, (h base hne).mpr (Or.inr rfl)⟩

/-- **THE INVARIANT**: undoing the installed hooks now would give the original
    code, and every block that was not there before is recorded. -/
structure Accounted (code : Nat → Prop) (original : Target) (d : DebugState) : Prop where
  restores : AgreeOn code (undo (d.session.installedHooks.map savedRun) d.target.memory)
    original.memory
  records : ∀ h ∈ d.session.installedHooks, Complete h ∧ Beside code h.trampolineSlot 8
  blocks : ∀ b ∈ d.target.blocks, b ∈ original.blocks ∨ Owns d.session b.base
  kept : ∀ b ∈ original.blocks, b ∈ d.target.blocks ∧ ¬Owns d.session b.base
  transport : d.session.hookImageBase = 0 →
    d.session.remoteRing = 0 ∧ d.session.setEventBypass = 0 ∧ d.session.readMemoryBypass = 0

variable {original : Target} {d d' : DebugState}

/-- A change that touches neither the code nor the blocks. -/
theorem Accounted.same (h : Accounted code original d) (ht : Untouched code d.target d'.target)
    (hhooks : d'.session.installedHooks = d.session.installedHooks)
    (howns : ∀ base, Owns d'.session base ↔ Owns d.session base)
    (htransport : d'.session.hookImageBase = 0 → d'.session.remoteRing = 0 ∧
      d'.session.setEventBypass = 0 ∧ d'.session.readMemoryBypass = 0) :
    Accounted code original d' where
  restores := hhooks ▸ (ht.code.undo _).trans h.restores
  records := hhooks ▸ h.records
  blocks b hb := (h.blocks b (ht.blocks ▸ hb)).imp id (howns b.base).mpr
  kept b hb := by
    obtain ⟨hin, hno⟩ := h.kept b hb
    exact ⟨ht.blocks ▸ hin, fun hown => hno ((howns b.base).mp hown)⟩
  transport := htransport

/-- A new block that is recorded. -/
theorem Accounted.gain (h : Accounted code original d) {new : Block}
    (hnew : ∀ b ∈ d.target.blocks, b.base ≠ new.base)
    (hcode : AgreeOn code (undo (d'.session.installedHooks.map savedRun) d'.target.memory)
      (undo (d.session.installedHooks.map savedRun) d.target.memory))
    (hrecords : ∀ g ∈ d'.session.installedHooks, g ∈ d.session.installedHooks ∨
      Complete g ∧ Beside code g.trampolineSlot 8)
    (hblocks : d'.target.blocks = new :: d.target.blocks)
    (howns : ∀ base, Owns d'.session base ↔ Owns d.session base ∨ base = new.base)
    (htransport : d'.session.hookImageBase = 0 → d'.session.remoteRing = 0 ∧
      d'.session.setEventBypass = 0 ∧ d'.session.readMemoryBypass = 0) :
    Accounted code original d' where
  restores := hcode.trans h.restores
  records g hg := (hrecords g hg).elim (h.records g) id
  blocks b hb := by
    rw [hblocks] at hb
    rcases List.mem_cons.mp hb with rfl | hb
    · exact Or.inr ((howns b.base).mpr (Or.inr rfl))
    · exact (h.blocks b hb).imp id fun hown => (howns b.base).mpr (Or.inl hown)
  kept b hb := by
    obtain ⟨hin, hno⟩ := h.kept b hb
    refine ⟨hblocks ▸ List.mem_cons_of_mem _ hin, fun hown => ?_⟩
    exact ((howns b.base).mp hown).elim hno (hnew b hin)
  transport := htransport

/-! ## New blocks -/

/-- The addresses that calls still to come may return: null, or new and
    different from each other. -/
structure Fresh (pending : List Nat) (t : Target) : Prop where
  distinct : (pending.filter (· ≠ 0)).Nodup
  new : ∀ a ∈ pending, a ≠ 0 → ∀ b ∈ t.blocks, b.base ≠ a

theorem Fresh.head {a : Nat} {pending : List Nat} {t : Target} (h : Fresh (a :: pending) t)
    (hne : a ≠ 0) : ∀ b ∈ t.blocks, b.base ≠ a :=
  h.new a List.mem_cons_self hne

/-- The call did not get a block. -/
theorem Fresh.unused {a : Nat} {pending : List Nat} {t t' : Target} (h : Fresh (a :: pending) t)
    (hblocks : t'.blocks = t.blocks) : Fresh pending t' := by
  refine ⟨?_, fun x hx hne => hblocks ▸ h.new x (List.mem_cons_of_mem a hx) hne⟩
  have hdistinct := h.distinct
  rw [List.filter_cons] at hdistinct
  split at hdistinct
  next => exact (List.nodup_cons.mp hdistinct).2
  next => exact hdistinct

/-- The call got its block. -/
theorem Fresh.used {a size : Nat} {pending : List Nat} {t t' : Target}
    (h : Fresh (a :: pending) t) (hne : a ≠ 0) (hblocks : t'.blocks = ⟨a, size⟩ :: t.blocks) :
    Fresh pending t' := by
  have hdistinct := h.distinct
  rw [List.filter_cons, if_pos (decide_eq_true hne)] at hdistinct
  obtain ⟨hnot, hrest⟩ := List.nodup_cons.mp hdistinct
  refine ⟨hrest, fun x hx hx0 b hb => ?_⟩
  rw [hblocks] at hb
  rcases List.mem_cons.mp hb with rfl | hb
  · rintro rfl
    exact hnot (List.mem_filter.mpr ⟨hx, decide_eq_true hx0⟩)
  · exact h.new x (List.mem_cons_of_mem a hx) hx0 b hb

/-! ## Installing -/

/-- The undo calls of an event succeed, and a jump that was written is kept. -/
structure Undoes (env : Environment) (hooks : List HookDefinition) : Prop where
  decode : DecodesWithin env.decodeInstruction64
  unhook : ∀ h, env.unhookCalls h = unhookCall
  unmapRing : env.unmapRing = true
  freeSetEventBypass : env.freeSetEventBypass = true
  freeReadMemoryBypass : env.freeReadMemoryBypass = true
  freeHookImage : env.freeHookImage = true
  bypassFree : ∀ name, (env.bypassCalls name).free = true
  hookFree : ∀ definition ∈ hooks, (env.hookCalls definition).bypass.free = true ∧
    (env.hookCalls definition).free = true
  kept : ∀ definition ∈ hooks, (env.hookCalls definition).patch.write = true →
    (env.hookCalls definition).patch.reprotect = true ∧
      (env.hookCalls definition).patch.flush = true

/-- The addresses for the trampolines of the hooks. -/
def hookBases (env : Environment) (hooks : List HookDefinition) : List Nat :=
  hooks.map fun definition => (env.hookCalls definition).bypass.allocated

/-- What the image exports is not code. -/
def ExportsBeside (code : Nat → Prop) (env : Environment) (image : Nat) : Prop :=
  ∀ name address, exportAddress (env.getRemoteExport image name) = some address →
    Beside code address 8

/-- One call of `HookFunction`, whether it succeeds or not. -/
theorem accounted_installHook {env : Environment} {hooks : List HookDefinition}
    (hu : Undoes env hooks) {definition : HookDefinition} (hmem : definition ∈ hooks)
    (h : Accounted code original d) (hexports : ExportsBeside code env d.session.hookImageBase)
    (hnew : (env.hookCalls definition).bypass.allocated ≠ 0 → ∀ b ∈ d.target.blocks,
      b.base ≠ (env.hookCalls definition).bypass.allocated)
    (hbeside : (env.hookCalls definition).bypass.allocated ≠ 0 →
      Beside code (env.hookCalls definition).bypass.allocated trampolineSize)
    (address source target : Nat) :
    Accounted code original (installHook env definition address source target d).2 ∧
      ((installHook env definition address source target d).2.target.blocks = d.target.blocks ∨
        (env.hookCalls definition).bypass.allocated ≠ 0 ∧
          (installHook env definition address source target d).2.target.blocks
            = ⟨(env.hookCalls definition).bypass.allocated, trampolineSize⟩ :: d.target.blocks) ∧
      ∃ hs, (installHook env definition address source target d).2.session
        = { d.session with installedHooks := hs } := by
  have hok : HookOk code env.getRemoteExport (env.hookCalls definition) d.session.hookImageBase
      definition d.target :=
    ⟨⟨(hu.hookFree definition hmem).1, hnew, hbeside⟩, (hu.hookFree definition hmem).2,
      hu.kept definition hmem, fun slot hslot => hexports _ slot hslot⟩
  have hresult := hookFunction_result hu.decode hok address
  rw [installHook]
  generalize hookFunction env.getRemoteExport env.decodeInstruction64 (env.hookCalls definition)
    address d.session.hookImageBase definition d.target = r at hresult
  cases hresult with
  | refused hsame =>
      exact ⟨h.same hsame rfl (fun _ => Iff.rfl) h.transport, Or.inl hsame.blocks, _, rfl⟩
  | @made hook t' hcomplete hslot haddress hblocks hlog =>
      have hne : (env.hookCalls definition).bypass.allocated ≠ 0 :=
        haddress ▸ hcomplete.trampoline
      rw [haddress] at hblocks
      refine ⟨h.gain (hnew hne) ?_ ?_ hblocks ?_ h.transport, Or.inr ⟨hne, hblocks⟩, _, rfl⟩
      · show AgreeOn code (undo (List.map savedRun (d.session.installedHooks
          ++ [InstalledHook.located hook source target])) t'.memory) _
        rw [List.map_append]
        exact hlog _
      · intro g hg
        rcases List.mem_append.mp hg with hg | hg
        · exact Or.inl hg
        · cases List.mem_singleton.mp hg
          exact Or.inr ⟨⟨hcomplete.function, hcomplete.trampoline, hcomplete.slot,
            hcomplete.bytes⟩, hslot⟩
      · refine owns_more hne fun base _ => ?_
        simp only [owned, List.mem_cons, List.map_append, List.mem_append, List.map_cons,
          List.map_nil, List.not_mem_nil, or_false, InstalledHook.located, haddress, or_assoc]

theorem Undoes.mono {env : Environment} {hooks hooks' : List HookDefinition}
    (hu : Undoes env hooks) (hsub : ∀ x ∈ hooks', x ∈ hooks) : Undoes env hooks' :=
  { hu with
    hookFree := fun x hx => hu.hookFree x (hsub x hx)
    kept := fun x hx => hu.kept x (hsub x hx) }

/-- **INSTALLING**, up to the first hook that is refused. -/
theorem accounted_tryInstall {env : Environment} {hooks : List HookDefinition}
    (hu : Undoes env hooks) (h : Accounted code original d)
    (hexports : ExportsBeside code env d.session.hookImageBase)
    (hfresh : Fresh (hookBases env hooks) d.target)
    (hbeside : ∀ a ∈ hookBases env hooks, a ≠ 0 → Beside code a trampolineSize) :
    Accounted code original (tryInstallPendingHooks env hooks d).2 ∧
      ∃ hs, (tryInstallPendingHooks env hooks d).2.session
        = { d.session with installedHooks := hs } := by
  induction hooks generalizing d with
  | nil => exact ⟨h, _, rfl⟩
  | cons definition rest ih =>
      have hrest := hu.mono fun x hx => List.mem_cons_of_mem definition hx
      have hbeside' : ∀ a ∈ hookBases env rest, a ≠ 0 → Beside code a trampolineSize :=
        fun a ha => hbeside a (List.mem_cons_of_mem _ ha)
      have hskip := ih hrest h hexports (hfresh.unused rfl) hbeside'
      rw [tryInstallPendingHooks]
      split
      next => exact hskip
      next =>
        cases resolveHookAddress env d.session.modules definition with
        | mk result source =>
            cases result with
            | pending => exact hskip
            | error => exact ⟨h, _, rfl⟩
            | resolved address target =>
                dsimp only
                split
                next => exact ⟨h, _, rfl⟩
                next =>
                  obtain ⟨hacc, hblocks, hs, hsession⟩ := accounted_installHook hu
                    List.mem_cons_self h hexports hfresh.head
                    (hbeside _ List.mem_cons_self) address source target
                  have hfresh' : Fresh (hookBases env rest)
                      (installHook env definition address source target d).2.target := by
                    rcases hblocks with hblocks | ⟨hne, hblocks⟩
                    · exact hfresh.unused hblocks
                    · exact hfresh.used hne hblocks
                  split
                  next =>
                    obtain ⟨hacc', hs', hsession'⟩ := ih hrest hacc
                      (by rw [hsession]; exact hexports) hfresh' hbeside'
                    exact ⟨hacc', hs', by rw [hsession', hsession]⟩
                  next => exact ⟨hacc, hs, hsession⟩

/-! ## The transport -/

theorem writeRemoteExport_untouched {env : Environment} {image : Nat}
    (hexports : ExportsBeside code env image) (name : List UInt8) {value : List UInt8}
    (hvalue : value.length = 8) (t : Target) :
    Untouched code t (writeRemoteExport env image name value t).2 := by
  rw [writeRemoteExport]
  split
  next => exact .refl code t
  next address haddress => exact write_untouched (hvalue ▸ hexports name address haddress)

theorem resetActiveHookCalls_untouched (env : Environment) (image : Nat) (t : Target) :
    Untouched code t (resetActiveHookCalls env image t).2 := by
  rw [resetActiveHookCalls]
  split
  next => exact .refl code t
  next =>
    split
    next => exact ⟨.refl code _, rfl⟩
    next => exact .refl code t

theorem bypassForFunction {env : Environment} {hooks : List HookDefinition}
    (hu : Undoes env hooks) (name : List UInt8) (base : Nat) {t : Target}
    (hnew : (env.bypassCalls name).allocated ≠ 0 →
      ∀ b ∈ t.blocks, b.base ≠ (env.bypassCalls name).allocated)
    (hbeside : (env.bypassCalls name).allocated ≠ 0 →
      Beside code (env.bypassCalls name).allocated trampolineSize) :
    Bypassed code (env.bypassCalls name) t
      (createBypassTrampolineForFunction env base name t) := by
  rw [createBypassTrampolineForFunction]
  split
  next => exact .refused (.refl code t)
  next f hf =>
    exact createBypassTrampoline_bypassed hu.decode ⟨hu.bypassFree name, hnew, hbeside⟩ f

/-- The addresses for the two bypasses. -/
def setEventBase (env : Environment) : Nat := (env.bypassCalls (cstr "NtSetEvent")).allocated

def readMemoryBase (env : Environment) : Nat :=
  (env.bypassCalls (cstr "NtReadVirtualMemory")).allocated

/-- What a step of the setup leaves: the invariant, and the addresses that the
    calls behind it may return. -/
structure Steps (code : Nat → Prop) (original : Target) (pending : List Nat)
    (r : Bool × DebugState) : Prop where
  accounted : Accounted code original r.2
  fresh : r.1 = true → Fresh pending r.2.target

/-- A step that failed. -/
theorem Steps.stop {pending : List Nat} (h : Accounted code original d) :
    Steps code original pending (false, d) := by
  refine ⟨h, ?_⟩
  intro hok
  cases hok

/-- **`ConfigureTransport`**, up to the call that fails. -/
theorem steps_configureTransport {env : Environment} {hooks : List HookDefinition}
    {pending : List Nat} (hu : Undoes env hooks) (h : Accounted code original d)
    (himage : d.session.hookImageBase ≠ 0)
    (hzero : d.session.setEventBypass = 0 ∧ d.session.readMemoryBypass = 0)
    (hexports : ExportsBeside code env d.session.hookImageBase)
    (hfresh : Fresh (setEventBase env :: readMemoryBase env :: pending) d.target)
    (hbeside : ∀ a ∈ [setEventBase env, readMemoryBase env], a ≠ 0 →
      Beside code a trampolineSize) (base : Nat) :
    Steps code original pending (configureTransport env base d) := by
  have hset := bypassForFunction hu (cstr "NtSetEvent") base hfresh.head
    (hbeside _ List.mem_cons_self)
  rw [configureTransport]
  generalize createBypassTrampolineForFunction env base (cstr "NtSetEvent") d.target
    = setEvent at hset
  cases hset with
  | refused hsame =>
      exact .stop (h.same hsame rfl (fun _ => Iff.rfl) h.transport)
  | @made t₁ size hne hblocks hcode =>
      have hfresh₁ : Fresh (readMemoryBase env :: pending) t₁ := hfresh.used hne hblocks
      have h₁ : Accounted code original
          ⟨{ d.session with setEventBypass := setEventBase env }, t₁⟩ := by
        refine h.gain (hfresh.head hne) (hcode.undo _) (fun g hg => Or.inl hg) hblocks
          (owns_more hne fun base hb => ?_) (fun h0 => absurd h0 himage)
        simp only [owned, List.mem_cons, hzero.1]
        constructor
        · tauto
        · tauto
      have hread := @bypassForFunction code _ _ hu (cstr "NtReadVirtualMemory") base _
        hfresh₁.head (hbeside _ (List.mem_cons_of_mem _ List.mem_cons_self))
      dsimp only
      generalize createBypassTrampolineForFunction env base (cstr "NtReadVirtualMemory") t₁
        = readMemory at hread
      cases hread with
      | refused hsame =>
          exact .stop (h₁.same hsame rfl (fun _ => Iff.rfl) (fun h0 => absurd h0 himage))
      | @made t₂ size' hne' hblocks' hcode' =>
          have hfresh₂ : Fresh pending t₂ := hfresh₁.used hne' hblocks'
          have h₂ : Accounted code original
              ⟨{ d.session with
                setEventBypass := setEventBase env
                readMemoryBypass := readMemoryBase env }, t₂⟩ := by
            refine h₁.gain (hfresh₁.head hne') (hcode'.undo _) (fun g hg => Or.inl hg) hblocks'
              (owns_more hne' fun base hb => ?_) (fun h0 => absurd h0 himage)
            simp only [owned, List.mem_cons, hzero.2]
            constructor
            · tauto
            · tauto
          have hwrote := writeRemoteExport_untouched hexports (cstr "TransportNtSetEvent")
            (pointerBytes_length (setEventBase env)) t₂
          have hwrote' := hwrote.trans (writeRemoteExport_untouched hexports
            (cstr "TransportNtReadVirtualMemory") (pointerBytes_length (readMemoryBase env)) _)
          dsimp only
          split
          next =>
            exact .stop (h₂.same hwrote rfl (fun _ => Iff.rfl) (fun h0 => absurd h0 himage))
          next =>
            refine ⟨h₂.same hwrote' rfl (fun _ => Iff.rfl) (fun h0 => absurd h0 himage), ?_⟩
            exact fun _ => ⟨hfresh₂.distinct, hwrote'.blocks ▸ hfresh₂.new⟩

/-- The address for the ring, and for the image. -/
def ringBase (env : Environment) : Nat := (env.createSharedRing.map fun r => r.1.base).getD 0

def imageBase (env : Environment) : Nat := (env.injectDll.map Block.base).getD 0

/-- A view or an image that was mapped is not at null. -/
structure MapsSomewhere (env : Environment) : Prop where
  image : ∀ image, env.injectDll = some image → image.base ≠ 0
  ring : ∀ ring wakeEvent, env.createSharedRing = some (ring, wakeEvent) → ring.base ≠ 0

/-- **`TraceSession::Start`**, up to the call that fails; the ring is unmapped
    again then. -/
theorem steps_traceStart {env : Environment} {pending : List Nat} (hmaps : MapsSomewhere env)
    (h : Accounted code original d) (himage : d.session.hookImageBase ≠ 0)
    (hzero : d.session.remoteRing = 0)
    (hexports : ExportsBeside code env d.session.hookImageBase)
    (hfresh : Fresh (ringBase env :: pending) d.target) :
    Steps code original pending (traceStart env d) := by
  rw [traceStart]
  split
  next => exact .stop h
  next =>
    cases hring : env.createSharedRing with
    | none => exact .stop h
    | some mapped =>
        obtain ⟨ring, wakeEvent⟩ := mapped
        have hbase : ringBase env = ring.base := by rw [ringBase, hring]; rfl
        have hne : ring.base ≠ 0 := hmaps.ring ring wakeEvent hring
        rw [hbase] at hfresh
        have hwrote := writeRemoteExport_untouched hexports (cstr "TransportRing")
          (pointerBytes_length ring.base) (d.target.map ring)
        have hwrote' := hwrote.trans (writeRemoteExport_untouched hexports
          (cstr "TransportWakeEvent") (pointerBytes_length wakeEvent) _)
        have hreset := hwrote'.trans (resetActiveHookCalls_untouched env d.session.hookImageBase _)
        have hundone : ∀ t', Untouched code (d.target.map ring) t' →
            Steps code original pending (false,
              ⟨{ d.session with remoteRing := 0, remoteWakeEvent := wakeEvent },
                t'.free true ring.base⟩) := by
          intro t' ht'
          refine .stop (h.same (map_free_untouched (hfresh.head hne) ht') rfl (fun base => ?_)
            (fun h0 => absurd h0 himage))
          rw [Owns, Owns, owned, owned, hzero]
        dsimp only
        split
        next => exact hundone _ hwrote
        next =>
          split
          next => exact hundone _ hwrote'
          next =>
            split
            next => exact hundone _ hreset
            next =>
              refine ⟨h.gain (hfresh.head hne) (hreset.code.undo _) (fun g hg => Or.inl hg)
                hreset.blocks (owns_more hne fun base hb => ?_) (fun h0 => absurd h0 himage),
                fun _ => hfresh.used hne hreset.blocks⟩
              simp only [owned, List.mem_cons, hzero]
              constructor
              · tauto
              · tauto

/-- **`InitializeDebuggee`**, up to the call that fails. -/
theorem steps_initializeDebuggee {env : Environment} {pending : List Nat}
    (hmaps : MapsSomewhere env) (h : Accounted code original d)
    (himage : d.session.hookImageBase = 0) (hexports : ExportsBeside code env (imageBase env))
    (hfresh : Fresh (imageBase env :: ringBase env :: pending) d.target) :
    Steps code original pending (initializeDebuggee env d) := by
  obtain ⟨hring, hset, hread⟩ := h.transport himage
  rw [initializeDebuggee]
  split
  next => exact .stop h
  next =>
    cases hinject : env.injectDll with
    | none => exact .stop h
    | some image =>
        have hbase : imageBase env = image.base := by rw [imageBase, hinject]; rfl
        have hne : image.base ≠ 0 := hmaps.image image hinject
        rw [hbase] at hfresh hexports
        dsimp only
        generalize (if env.readImageSize = true then image.size else 0) = size
        have hmapped : Accounted code original
            ⟨{ d.session with hookImageBase := image.base, hookImageSize := size },
              d.target.map image⟩ := by
          refine h.gain (hfresh.head hne) (.refl code _) (fun g hg => Or.inl hg) rfl
            (owns_more hne fun base hb => ?_) (fun h0 => absurd h0 hne)
          simp only [owned, List.mem_cons, himage]
          constructor
          · tauto
          · tauto
        split
        next => exact .stop hmapped
        next => exact steps_traceStart hmaps hmapped hne hring hexports (hfresh.used hne rfl)

theorem traceStart_image (env : Environment) (d : DebugState) :
    (traceStart env d).2.session.hookImageBase = d.session.hookImageBase := by
  rw [traceStart]
  split
  next => rfl
  next =>
    cases env.createSharedRing with
    | none => rfl
    | some mapped =>
        dsimp only
        split
        next => rfl
        next =>
          split
          next => rfl
          next => split <;> rfl

/-- The image of a session that was initialized. -/
theorem initializeDebuggee_image {env : Environment}
    (h : (initializeDebuggee env d).1 = true) :
    (initializeDebuggee env d).2.session.hookImageBase = imageBase env := by
  rw [initializeDebuggee] at h ⊢
  rw [imageBase]
  split at h
  next => cases h
  next hkill =>
    rw [if_neg hkill]
    cases hinject : env.injectDll with
    | none =>
        rw [hinject] at h
        cases h
    | some image =>
        rw [hinject] at h
        dsimp only at h ⊢
        generalize (if env.readImageSize = true then image.size else 0) = size at h ⊢
        split at h
        next => cases h
        next hsize =>
          rw [if_neg hsize]
          exact traceStart_image env _

/-! ## The handlers of debug events -/

/-- The invariant between two events: without a transport there are no
    bypasses. -/
structure Settled (code : Nat → Prop) (original : Target) (d : DebugState) : Prop extends
    Accounted code original d where
  bypasses : d.session.transportConfigured = false →
    d.session.setEventBypass = 0 ∧ d.session.readMemoryBypass = 0

/-- What is asked of an event: the undo calls succeed, blocks are new, and
    neither they nor the variables of the image are code. -/
structure EventOk (code : Nat → Prop) (env : Environment) (hooks : List HookDefinition)
    (d : DebugState) : Prop where
  undoes : Undoes env hooks
  maps : MapsSomewhere env
  fresh : Fresh (imageBase env :: ringBase env :: setEventBase env :: readMemoryBase env
    :: hookBases env hooks) d.target
  beside : ∀ a ∈ setEventBase env :: readMemoryBase env :: hookBases env hooks, a ≠ 0 →
    Beside code a trampolineSize
  exports : ∀ image, image = d.session.hookImageBase ∨ image = imageBase env →
    ExportsBeside code env image

/-- What a handler leaves: the invariant, and between two events more. -/
structure Handles (code : Nat → Prop) (original : Target) (r : Bool × DebugState) : Prop where
  accounted : Accounted code original r.2
  settled : r.1 = true → Settled code original r.2

theorem Handles.stop (h : Accounted code original d) : Handles code original (false, d) := by
  refine ⟨h, ?_⟩
  intro hok
  cases hok

theorem Handles.done {ok : Bool} (h : Settled code original d) : Handles code original (ok, d) :=
  ⟨h.toAccounted, fun _ => h⟩

theorem handles_tryInstall {env : Environment} {hooks : List HookDefinition}
    (hu : Undoes env hooks) (h : Settled code original d)
    (hexports : ExportsBeside code env d.session.hookImageBase)
    (hfresh : Fresh (hookBases env hooks) d.target)
    (hbeside : ∀ a ∈ hookBases env hooks, a ≠ 0 → Beside code a trampolineSize) :
    Handles code original (tryInstallPendingHooks env hooks d) := by
  obtain ⟨hacc, hs, hsession⟩ := accounted_tryInstall hu h.toAccounted hexports hfresh hbeside
  exact ⟨hacc, fun _ => ⟨hacc, by rw [hsession]; exact h.bypasses⟩⟩

/-- A module is recorded; that is no block. -/
theorem settled_recordModule (h : Settled code original d) (base : Nat) (path : List UInt16)
    (name : List UInt8) : Settled code original (recordModule base path name d) :=
  ⟨h.toAccounted.same (.refl code _) rfl (fun _ => Iff.rfl) h.transport, h.bypasses⟩

/-- **`RegisterModule`**, up to the call that fails. -/
theorem handles_registerModule {env : Environment} {hooks : List HookDefinition}
    (hu : Undoes env hooks) (h : Settled code original d) (himage : d.session.hookImageBase ≠ 0)
    (hexports : ExportsBeside code env d.session.hookImageBase)
    (hfresh : Fresh (setEventBase env :: readMemoryBase env :: hookBases env hooks) d.target)
    (hbeside : ∀ a ∈ setEventBase env :: readMemoryBase env :: hookBases env hooks, a ≠ 0 →
      Beside code a trampolineSize) (base : Nat) (path : List UInt16) :
    Handles code original (registerModule env hooks base path d) := by
  have hhooks : ∀ a ∈ hookBases env hooks, a ≠ 0 → Beside code a trampolineSize :=
    fun a ha => hbeside a (List.mem_cons_of_mem _ (List.mem_cons_of_mem _ ha))
  rw [registerModule]
  dsimp only
  split
  next => exact .done h
  next =>
    generalize registeredName env base path = name
    have hrecorded := settled_recordModule h base path name
    rw [configureOnce]
    split
    next hfirst =>
      have hsteps := steps_configureTransport hu hrecorded.toAccounted himage
        (hrecorded.bypasses hfirst.2) hexports hfresh
        (fun a ha => hbeside a (List.mem_append_left (hookBases env hooks) ha)) base
      have hsession := @configureTransport_true env base (recordModule base path name d)
      generalize configureTransport env base (recordModule base path name d) = r
        at hsteps hsession
      obtain ⟨ok, d₁⟩ := r
      cases ok with
      | false => exact .stop hsteps.accounted
      | true =>
          obtain ⟨a, b, hs⟩ := (hsession rfl).session
          have hconfigured : Settled code original
              { d₁ with session := { d₁.session with transportConfigured := true } } := by
            refine ⟨hsteps.accounted.same (.refl code _) rfl (fun _ => Iff.rfl)
              hsteps.accounted.transport, ?_⟩
            intro hfalse
            cases hfalse
          refine handles_tryInstall hu hconfigured ?_ (hsteps.fresh rfl) hhooks
          show ExportsBeside code env d₁.session.hookImageBase
          rw [hs]
          exact hexports
    next =>
      dsimp only
      split
      next hfalse => cases hfalse
      next =>
        split
        next =>
          exact handles_tryInstall hu hrecorded hexports ((hfresh.unused rfl).unused rfl) hhooks
        next => exact .done hrecorded

/-- **`HandleCreateProcess`**, up to the call that fails. -/
theorem handles_createProcess {env : Environment} {hooks : List HookDefinition}
    (hok : EventOk code env hooks d) (h : Settled code original d) (base : Nat)
    (path : List UInt16) :
    Handles code original (handleCreateProcess env hooks base path d) := by
  rw [handleCreateProcess]
  split
  next himage =>
    have hsteps := steps_initializeDebuggee hok.maps h.toAccounted himage
      (hok.exports _ (Or.inr rfl)) hok.fresh
    have hinitialized := @initializeDebuggee_true env d
    have hbase := @initializeDebuggee_image d env
    dsimp only
    generalize initializeDebuggee env d = r at hsteps hinitialized hbase
    obtain ⟨ok, d₁⟩ := r
    cases ok with
    | false => exact .stop hsteps.accounted
    | true =>
        have hi := hinitialized rfl
        obtain ⟨image, size, ring, wakeEvent, hs⟩ := hi.session
        obtain ⟨-, hset, hread⟩ := h.transport himage
        refine handles_registerModule hok.undoes ⟨hsteps.accounted, fun _ => ?_⟩ hi.image ?_
          (hsteps.fresh rfl) hok.beside base path
        · rw [hs]
          exact ⟨hset, hread⟩
        · rw [show d₁.session.hookImageBase = imageBase env from hbase rfl]
          exact hok.exports _ (Or.inr rfl)
  next himage =>
    exact handles_registerModule hok.undoes h himage (hok.exports _ (Or.inl rfl))
      ((hok.fresh.unused rfl).unused rfl) hok.beside base path

/-! ## Unloading a module -/

theorem mem_free {t : Target} {ok : Bool} {base : Nat} {b : Block} :
    b ∈ (t.free ok base).blocks ↔ b ∈ t.blocks ∧ (ok = true → b.base ≠ base) := by
  cases ok with
  | false => simp [Target.free]
  | true => simp [Target.free]

/-- What is asked of an unload: the code of the module is not watched, and a
    hook whose forwarder is unloaded is apart from those behind it. -/
structure UnloadOk (code : Nat → Prop) (base : Nat) (hooks : List InstalledHook) : Prop where
  unmapped : ∀ h ∈ hooks, h.targetModuleBase = base → ∀ a, code a → ¬(savedRun h).Covers a
  apart : hooks.Pairwise fun g h => g.sourceModuleBase = base → (savedRun g).Disjoint (savedRun h)

theorem UnloadOk.tail {base : Nat} {h : InstalledHook} {hooks : List InstalledHook}
    (hok : UnloadOk code base (h :: hooks)) : UnloadOk code base hooks :=
  ⟨fun g hg => hok.unmapped g (List.mem_cons_of_mem h hg), (List.pairwise_cons.mp hok.apart).2⟩

/-- The hooks that an unload removes. -/
def Removed (base : Nat) (h : InstalledHook) : Prop :=
  h.targetModuleBase = base ∨ h.sourceModuleBase = base

/-- **UNLOAD**: the log without the removed hooks undoes as much as before;
    `front` are the hooks in front that stay. -/
theorem releaseHooks_log {env : Environment} (hunhook : ∀ h, env.unhookCalls h = unhookCall)
    {base : Nat} {hooks : List InstalledHook} (hok : UnloadOk code base hooks)
    (hrecords : ∀ h ∈ hooks, Complete h ∧ Beside code h.trampolineSlot 8)
    (front : List InstalledHook) (t : Target) :
    AgreeOn code
      (undo ((front ++ (releaseHooks env base hooks t).1).map savedRun)
        (releaseHooks env base hooks t).2.memory)
      (undo ((front ++ hooks).map savedRun) t.memory) := by
  induction hooks generalizing front t with
  | nil => exact .refl code _
  | cons h rest ih =>
      have hrest : ∀ g ∈ rest, Complete g ∧ Beside code g.trampolineSlot 8 :=
        fun g hg => hrecords g (List.mem_cons_of_mem h hg)
      obtain ⟨hcomplete, hslot⟩ := hrecords h List.mem_cons_self
      obtain ⟨hapart, -⟩ := List.pairwise_cons.mp hok.apart
      rw [releaseHooks]
      split
      next htarget =>
        obtain ⟨hcode, -⟩ := releaseUnloadedHook_frees (hunhook h) hslot t
        refine (ih hok.tail hrest front _).trans ((hcode.undo _).trans ?_)
        rw [List.map_append, List.map_append, List.map_cons]
        exact (undo_drop (hok.unmapped h List.mem_cons_self htarget)).symm
      next =>
        split
        next hsource =>
          obtain ⟨hcode, -⟩ := unhookFunction_restores (hunhook h) hcomplete hslot t
          refine (ih hok.tail hrest front _).trans ((hcode.undo _).trans ?_)
          rw [List.map_append, List.map_append, List.map_cons, undo_early]
          · exact .refl code _
          · intro r hr
            obtain ⟨g, hg, rfl⟩ := List.mem_map.mp hr
            exact hapart g hg hsource
        next =>
          have hkept := ih hok.tail hrest (front ++ [h]) t
          rw [List.append_assoc, List.append_assoc] at hkept
          exact hkept

theorem mem_releaseHooks_blocks {env : Environment}
    (hunhook : ∀ h, env.unhookCalls h = unhookCall) {base : Nat} {hooks : List InstalledHook}
    (hrecords : ∀ h ∈ hooks, Complete h ∧ Beside code h.trampolineSlot 8) {t : Target}
    {b : Block} :
    b ∈ (releaseHooks env base hooks t).2.blocks ↔
      b ∈ t.blocks ∧ ∀ h ∈ hooks, Removed base h → b.base ≠ h.trampolineAddress := by
  induction hooks generalizing t with
  | nil => simp [releaseHooks]
  | cons h rest ih =>
      have ih' := fun t => @ih (fun g hg => hrecords g (List.mem_cons_of_mem h hg)) t
      obtain ⟨hcomplete, hslot⟩ := hrecords h List.mem_cons_self
      rw [releaseHooks, List.forall_mem_cons]
      split
      next htarget =>
        rw [ih', (releaseUnloadedHook_frees (hunhook h) hslot t).2, List.mem_filter,
          decide_eq_true_iff, and_assoc]
        simp only [Removed, htarget, true_or, forall_const]
      next htarget =>
        split
        next hsource =>
          rw [ih', (unhookFunction_restores (hunhook h) hcomplete hslot t).2, List.mem_filter,
            decide_eq_true_iff, and_assoc]
          simp only [Removed, hsource, or_true, forall_const]
        next hsource =>
          rw [ih']
          simp only [Removed, htarget, hsource, or_false, false_implies, true_and]

/-- **`HandleUnloadDll`**. -/
theorem settled_unload {env : Environment} {hooks : List HookDefinition} (hu : Undoes env hooks)
    (h : Settled code original d) {base : Nat}
    (hok : UnloadOk code base d.session.installedHooks) :
    Settled code original (handleUnloadDll env base d) := by
  have hstays : ∀ g, g ∈ (releaseHooks env base d.session.installedHooks d.target).1 ↔
      g ∈ d.session.installedHooks ∧ ¬Removed base g := by
    intro g
    rw [releaseHooks_hooks, List.mem_filter, decide_eq_true_iff, Removed, not_or]
  have hlog := releaseHooks_log hu.unhook hok h.records [] d.target
  have hmem := fun b => @mem_releaseHooks_blocks code env hu.unhook base
    d.session.installedHooks h.records d.target b
  refine ⟨⟨hlog.trans h.restores, ?_, ?_, ?_, h.transport⟩, h.bypasses⟩
  · intro g hg
    exact h.records g ((hstays g).mp hg).1
  · intro b hb
    obtain ⟨hin, hnot⟩ := (hmem b).mp hb
    refine (h.blocks b hin).imp id fun hown => ⟨hown.1, mem_owned.mpr ?_⟩
    rcases mem_owned.mp hown.2 with hr | hr | hr | hr | ⟨g, hg, htrampoline⟩
    · exact Or.inl hr
    · exact Or.inr (Or.inl hr)
    · exact Or.inr (Or.inr (Or.inl hr))
    · exact Or.inr (Or.inr (Or.inr (Or.inl hr)))
    · refine Or.inr (Or.inr (Or.inr (Or.inr ⟨g, (hstays g).mpr ⟨hg, fun hr => ?_⟩, htrampoline⟩)))
      exact hnot g hg hr htrampoline.symm
  · intro b hb
    obtain ⟨hin, hno⟩ := h.kept b hb
    refine ⟨(hmem b).mpr ⟨hin, fun g hg _ heq => hno ?_⟩, fun hown => hno ⟨hown.1, ?_⟩⟩
    · exact ⟨heq ▸ (h.records g hg).1.trampoline,
        mem_owned.mpr (Or.inr (Or.inr (Or.inr (Or.inr ⟨g, hg, heq.symm⟩))))⟩
    · refine mem_owned.mpr ?_
      rcases mem_owned.mp hown.2 with hr | hr | hr | hr | ⟨g, hg, htrampoline⟩
      · exact Or.inl hr
      · exact Or.inr (Or.inl hr)
      · exact Or.inr (Or.inr (Or.inl hr))
      · exact Or.inr (Or.inr (Or.inr (Or.inl hr)))
      · exact Or.inr (Or.inr (Or.inr (Or.inr ⟨g, ((hstays g).mp hg).1, htrampoline⟩)))

/-! ## The cleanup -/

/-- What a cleanup leaves of the session in its target: nothing. -/
structure Restored (code : Nat → Prop) (original : Target) (d : DebugState) : Prop where
  code : AgreeOn code d.target.memory original.memory
  blocks : ∀ b, b ∈ d.target.blocks ↔ b ∈ original.blocks
  session : ∀ base, ¬Owns d.session base

theorem mem_unhookAll_blocks {env : Environment}
    (hunhook : ∀ h, env.unhookCalls h = unhookCall) {hooks : List InstalledHook}
    (hrecords : ∀ h ∈ hooks, Complete h ∧ Beside code h.trampolineSlot 8) {t : Target}
    {b : Block} :
    b ∈ (unhookAll env hooks t).2.blocks ↔
      b ∈ t.blocks ∧ ∀ h ∈ hooks, b.base ≠ h.trampolineAddress := by
  induction hooks generalizing t with
  | nil => simp [unhookAll]
  | cons h rest ih =>
      obtain ⟨hcomplete, hslot⟩ := hrecords h List.mem_cons_self
      have ih' := @ih (fun g hg => hrecords g (List.mem_cons_of_mem h hg))
        (unhookFunction (env.unhookCalls h) h t).2
      rw [unhookAll, List.forall_mem_cons]
      refine ih'.trans ?_
      rw [(unhookFunction_restores (hunhook h) hcomplete hslot t).2, List.mem_filter,
        decide_eq_true_iff, and_assoc]

/-- The cleanup of the transport: what it writes is not code, and it frees the
    ring and the bypasses. -/
theorem traceCleanupRemote_frees {env : Environment} {hooks : List HookDefinition}
    (hu : Undoes env hooks) (hexports : ExportsBeside code env d.session.hookImageBase) :
    AgreeOn code (traceCleanupRemote env d).2.target.memory d.target.memory ∧
      ∀ b, b ∈ (traceCleanupRemote env d).2.target.blocks ↔ b ∈ d.target.blocks ∧
        ∀ base ∈ [d.session.remoteRing, d.session.setEventBypass, d.session.readMemoryBypass],
          base ≠ 0 → b.base ≠ base := by
  have hring := writeRemoteExport_untouched hexports (cstr "TransportRing")
    (pointerBytes_length 0) d.target
  have hwake := hring.trans (writeRemoteExport_untouched hexports (cstr "TransportWakeEvent")
    (pointerBytes_length 0) _)
  have hset := hwake.trans (writeRemoteExport_untouched hexports (cstr "TransportNtSetEvent")
    (pointerBytes_length 0) _)
  have hread := hset.trans (writeRemoteExport_untouched hexports
    (cstr "TransportNtReadVirtualMemory") (pointerBytes_length 0) _)
  rw [traceCleanupRemote]
  dsimp only
  refine ⟨?_, fun b => ?_⟩
  · rw [free_memory, free_memory, free_memory]
    exact hread.code
  · rw [mem_free, mem_free, mem_free, hread.blocks, hu.unmapRing, hu.freeSetEventBypass,
      hu.freeReadMemoryBypass]
    simp only [and_true, decide_eq_true_eq, List.mem_cons, List.not_mem_nil, or_false,
      forall_eq_or_imp, forall_eq, and_assoc]

/-- **`CleanupRemote`** takes everything out of the target. -/
theorem cleanupRemote_restores {env : Environment} {hooks : List HookDefinition}
    (hu : Undoes env hooks) (h : Accounted code original d)
    (hexports : ExportsBeside code env d.session.hookImageBase) :
    Restored code original (cleanupRemote env d).2 := by
  have hrecords : ∀ g ∈ d.session.installedHooks.reverse,
      Complete g ∧ Beside code g.trampolineSlot 8 :=
    fun g hg => h.records g (List.mem_reverse.mp hg)
  have hrestores : ∀ g ∈ d.session.installedHooks.reverse,
      (env.unhookCalls g).restores = true := by
    intro g _
    rw [hu.unhook]
    rfl
  have hlog := unhookAll_log hrestores hrecords d.target
  rw [List.reverse_reverse] at hlog
  have hblocks := fun b => @mem_unhookAll_blocks code env hu.unhook
    d.session.installedHooks.reverse hrecords d.target b
  rw [cleanupRemote]
  dsimp only
  generalize unhookAll env d.session.installedHooks.reverse d.target = unhooked at hlog hblocks
  have hcode := hlog.trans h.restores
  -- no block of the original target is at a recorded address
  have hapart : ∀ b ∈ original.blocks, ∀ base ∈ owned d.session, base ≠ 0 → b.base ≠ base :=
    fun b hb base hown hne heq => (h.kept b hb).2 ⟨heq ▸ hne, heq ▸ hown⟩
  have htrampolines : ∀ b ∈ original.blocks, b ∈ unhooked.2.blocks := fun b hb =>
    (hblocks b).mpr ⟨(h.kept b hb).1, fun g hg => hapart b hb _
      (mem_owned.mpr (Or.inr (Or.inr (Or.inr (Or.inr ⟨g, List.mem_reverse.mp hg, rfl⟩)))))
      (hrecords g hg).1.trampoline⟩
  have hleft : ∀ b ∈ unhooked.2.blocks, b ∈ original.blocks ∨ b.base ≠ 0 ∧
      (b.base = d.session.hookImageBase ∨ b.base = d.session.remoteRing ∨
        b.base = d.session.setEventBypass ∨ b.base = d.session.readMemoryBypass) := by
    intro b hb
    obtain ⟨hin, hnot⟩ := (hblocks b).mp hb
    refine (h.blocks b hin).imp id fun hown => ⟨hown.1, ?_⟩
    rcases mem_owned.mp hown.2 with hr | hr | hr | hr | ⟨g, hg, htrampoline⟩
    · exact Or.inl hr
    · exact Or.inr (Or.inl hr)
    · exact Or.inr (Or.inr (Or.inl hr))
    · exact Or.inr (Or.inr (Or.inr hr))
    · exact absurd htrampoline.symm (hnot g (List.mem_reverse.mpr hg))
  by_cases himage : d.session.hookImageBase = 0
  · rw [if_pos himage]
    obtain ⟨hring, hset, hread⟩ := h.transport himage
    refine ⟨hcode, fun b => ⟨fun hb => ?_, htrampolines b⟩, ?_⟩
    · rcases hleft b hb with hb | ⟨hne, hr⟩
      · exact hb
      · rw [himage, hring, hset, hread] at hr
        tauto
    · rintro base ⟨hne, hown⟩
      simp only [owned, himage, hring, hset, hread, List.map_nil, List.mem_cons,
        List.not_mem_nil, or_false, or_self] at hown
      exact hne hown
  · rw [if_neg himage]
    obtain ⟨htraced, hfreed⟩ := @traceCleanupRemote_frees code
      ⟨{ d.session with installedHooks := [] }, unhooked.2⟩ env hooks hu hexports
    refine ⟨?_, fun b => ?_, ?_⟩
    · show AgreeOn code (Target.free _ _ _).memory original.memory
      rw [free_memory]
      exact htraced.trans hcode
    · show b ∈ (Target.free _ _ _).blocks ↔ _
      rw [mem_free, hfreed b, hu.freeHookImage]
      constructor
      · rintro ⟨⟨hb, hbases⟩, himg⟩
        rcases hleft b hb with hb | ⟨hne, hr | hr | hr | hr⟩
        · exact hb
        · exact absurd hr (himg rfl)
        · exact absurd hr (hbases _ (by simp) (hr ▸ hne))
        · exact absurd hr (hbases _ (by simp) (hr ▸ hne))
        · exact absurd hr (hbases _ (by simp) (hr ▸ hne))
      · intro hb
        refine ⟨⟨htrampolines b hb, fun base hbase => hapart b hb base ?_⟩, fun _ =>
          hapart b hb _ List.mem_cons_self himage⟩
        refine mem_owned.mpr ?_
        simp only [List.mem_cons, List.not_mem_nil, or_false] at hbase
        tauto
    · rintro base ⟨hne, hown⟩
      simp only [owned, traceCleanupRemote, List.map_nil, List.mem_cons, List.not_mem_nil,
        or_false, or_self] at hown
      exact hne hown

/-! ## Runs -/

inductive DetachAction where
  /-- A debug event, handled with these answers of the system. -/
  | event (env : Environment) (e : DebugEvent)
  /-- The user asks to stop, and `DebugBreakProcess` succeeds. -/
  | requestStop
  /-- The threads of the target run; they write data. -/
  | targetRuns (memory : Memory) (activeHookCalls : BitVec 32)

variable (code) (hooks : List HookDefinition)

def detachStep (d : DebugState) : DetachAction → Option DebugState
  | .event env e => if d.session.finished then none else some (handleEvent env hooks d e)
  | .requestStop =>
      if d.session.finished then none
      else some { d with session := { d.session with stopBreakRequested := true } }
  | .targetRuns memory activeHookCalls =>
      some { d with target := { d.target with memory, activeHookCalls } }

def detachSystem (original : Target) : System DebugState DetachAction where
  init d := (∃ processId, d.session = newSession processId) ∧ d.target = original
  step := detachStep hooks

/-- The runs: the events are as `EventOk` and `UnloadOk` ask, a process is
    reported before its modules, and no thread writes to code. -/
def Undoable (d : DebugState) : DetachAction → Prop
  | .event env e => EventOk code env hooks d ∧
      match e with
      | .loadDll _ _ => d.session.hookImageBase ≠ 0
      | .unloadDll base => UnloadOk code base d.session.installedHooks
      | _ => True
  | .requestStop => True
  | .targetRuns memory _ => AgreeOn code memory d.target.memory

variable {code hooks}

/-! ### The image of an event -/

theorem configureTransport_image (env : Environment) (base : Nat) (d : DebugState) :
    (configureTransport env base d).2.session.hookImageBase = d.session.hookImageBase := by
  rw [configureTransport]
  dsimp only
  split
  next => rfl
  next =>
    split
    next => rfl
    next => split <;> rfl

theorem tryInstallPendingHooks_image (env : Environment) (hooks : List HookDefinition)
    (d : DebugState) : (tryInstallPendingHooks env hooks d).2.session.hookImageBase
      = d.session.hookImageBase := by
  induction hooks generalizing d with
  | nil => rfl
  | cons definition rest ih =>
      rw [tryInstallPendingHooks]
      split
      next => exact ih d
      next =>
        cases resolveHookAddress env d.session.modules definition with
        | mk result source =>
            cases result with
            | pending => exact ih d
            | error => rfl
            | resolved address target =>
                have hone : (installHook env definition address source
                    target d).2.session.hookImageBase = d.session.hookImageBase := by
                  rw [installHook]
                  dsimp only
                  split <;> rfl
                dsimp only
                split
                next => rfl
                next =>
                  split
                  next => exact (ih _).trans hone
                  next => exact hone

theorem registerModule_image (env : Environment) (hooks : List HookDefinition) (base : Nat)
    (path : List UInt16) (d : DebugState) :
    (registerModule env hooks base path d).2.session.hookImageBase
      = d.session.hookImageBase := by
  have honce : ∀ name, (configureOnce env base name
      (recordModule base path name d)).2.session.hookImageBase = d.session.hookImageBase := by
    intro name
    rw [configureOnce]
    split
    next =>
      have hconfigured := configureTransport_image env base (recordModule base path name d)
      dsimp only
      split
      next => exact hconfigured
      next => exact hconfigured
    next => rfl
  rw [registerModule]
  dsimp only
  split
  next => rfl
  next =>
    split
    next => exact honce _
    next =>
      split
      next => exact (tryInstallPendingHooks_image env hooks _).trans (honce _)
      next => exact honce _

theorem initializeDebuggee_images (env : Environment) (d : DebugState) :
    (initializeDebuggee env d).2.session.hookImageBase = d.session.hookImageBase ∨
      (initializeDebuggee env d).2.session.hookImageBase = imageBase env := by
  rw [initializeDebuggee, imageBase]
  split
  next => exact Or.inl rfl
  next =>
    cases env.injectDll with
    | none => exact Or.inl rfl
    | some image =>
        refine Or.inr ?_
        dsimp only
        generalize (if env.readImageSize = true then image.size else 0) = size
        split
        next => rfl
        next => exact traceStart_image env _

theorem handleCreateProcess_images (env : Environment) (hooks : List HookDefinition)
    (base : Nat) (path : List UInt16) (d : DebugState) :
    (handleCreateProcess env hooks base path d).2.session.hookImageBase
        = d.session.hookImageBase ∨
      (handleCreateProcess env hooks base path d).2.session.hookImageBase = imageBase env := by
  have hinitialized := initializeDebuggee_images env d
  rw [handleCreateProcess]
  split
  next =>
    dsimp only
    split
    next => rwa [registerModule_image]
    next => exact hinitialized
  next => exact Or.inl (registerModule_image env hooks base path d)

/-- **EVENT**: what an event leaves before the cleanup. -/
theorem handles_dispatch {env : Environment} {e : DebugEvent} (h : Settled code original d)
    (hok : Undoable code hooks d (.event env e)) :
    Handles code original ((dispatchEvent env hooks d e).eventOk,
        (dispatchEvent env hooks d e).state) ∧
      ((dispatchEvent env hooks d e).state.session.hookImageBase = d.session.hookImageBase ∨
        (dispatchEvent env hooks d e).state.session.hookImageBase = imageBase env) := by
  obtain ⟨hevent, hcase⟩ := hok
  have hflags : ∀ {s : Session}, s.installedHooks = d.session.installedHooks →
      owned s = owned d.session → s.hookImageBase = d.session.hookImageBase →
      s.remoteRing = d.session.remoteRing → s.setEventBypass = d.session.setEventBypass →
      s.readMemoryBypass = d.session.readMemoryBypass →
      s.transportConfigured = d.session.transportConfigured →
      Settled code original { d with session := s } := by
    intro s hhooks howned himage hring hset hread hconfigured
    refine ⟨h.toAccounted.same (.refl code _) hhooks (fun base => ?_) ?_, ?_⟩
    · show base ≠ 0 ∧ base ∈ owned s ↔ _
      rw [howned]
      exact Iff.rfl
    · show s.hookImageBase = 0 → s.remoteRing = 0 ∧ s.setEventBypass = 0 ∧ s.readMemoryBypass = 0
      rw [himage, hring, hset, hread]
      exact h.transport
    · show s.transportConfigured = false → s.setEventBypass = 0 ∧ s.readMemoryBypass = 0
      rw [hconfigured, hset, hread]
      exact h.bypasses
  cases e with
  | createProcess base path =>
      exact ⟨handles_createProcess hevent h base path,
        handleCreateProcess_images env hooks base path d⟩
  | loadDll base path =>
      refine ⟨handles_registerModule hevent.undoes h hcase (hevent.exports _ (Or.inl rfl))
        ((hevent.fresh.unused rfl).unused rfl) hevent.beside base path, Or.inl ?_⟩
      exact registerModule_image env hooks base path d
  | unloadDll base => exact ⟨.done (settled_unload hevent.undoes h hcase), Or.inl rfl⟩
  | breakpoint =>
      rw [dispatchEvent]
      split
      next => exact ⟨.done h, Or.inl rfl⟩
      next => exact ⟨.done (hflags rfl rfl rfl rfl rfl rfl rfl), Or.inl rfl⟩
  | exception => exact ⟨.done h, Or.inl rfl⟩
  | exitProcess => exact ⟨.done (hflags rfl rfl rfl rfl rfl rfl rfl), Or.inl rfl⟩
  | other => exact ⟨.done h, Or.inl rfl⟩

theorem settled_new {processId : Nat} (h : d.session = newSession processId) :
    Settled code d.target d := by
  have howns : ∀ base, ¬Owns d.session base := by
    rintro base ⟨hne, hown⟩
    rw [h] at hown
    simp only [owned, newSession, List.map_nil, List.mem_cons, List.not_mem_nil, or_false,
      or_self] at hown
    exact hne hown
  have hhooks : d.session.installedHooks = [] := by rw [h]; rfl
  refine ⟨⟨?_, ?_, fun b hb => Or.inl hb, fun b hb => ⟨hb, howns b.base⟩, ?_⟩, ?_⟩
  · rw [hhooks]
    exact .refl code _
  · rw [hhooks]
    intro g hg
    cases hg
  · rw [h]
    exact fun _ => ⟨rfl, rfl, rfl⟩
  · rw [h]
    exact fun _ => ⟨rfl, rfl⟩

/-- **RUN**: between two events the session is settled. -/
theorem settled_reachable (h : ReachableIf (detachSystem hooks original) (Undoable code hooks) d) :
    d.session.finished = false → Settled code original d := by
  refine ReachableIf.invariant (M := detachSystem hooks original)
    (P := fun d => d.session.finished = false → Settled code original d) ?_ ?_ h
  · rintro d ⟨⟨processId, hsession⟩, rfl⟩ -
    exact settled_new hsession
  · intro d a d' hs hok hstep hfinished
    cases a with
    | event env e =>
        have hevent : (if d.session.finished then none else some (handleEvent env hooks d e))
          = some d' := hstep
        split at hevent
        next => cases hevent
        next hrunning =>
        cases hevent
        obtain ⟨hhandles, -⟩ := handles_dispatch (hs (Bool.eq_false_iff.mpr hrunning)) hok
        rw [handleEvent] at hfinished ⊢
        dsimp only at hfinished ⊢
        split
        next hclean =>
          rw [if_pos hclean] at hfinished
          cases hfinished
        next hgoes =>
          exact hhandles.settled (Bool.not_eq_false _ ▸ fun hfalse => hgoes (Or.inl hfalse))
    | requestStop =>
        have hrequest : (if d.session.finished then none
          else some { d with session := { d.session with stopBreakRequested := true } })
            = some d' := hstep
        split at hrequest
        next => cases hrequest
        next hrunning =>
        cases hrequest
        have hsettled := hs (Bool.eq_false_iff.mpr hrunning)
        exact ⟨hsettled.toAccounted.same (.refl code _) rfl (fun _ => Iff.rfl) hsettled.transport,
          hsettled.bypasses⟩
    | targetRuns memory activeHookCalls =>
        cases hstep
        have hsettled := hs hfinished
        exact ⟨hsettled.toAccounted.same ⟨hok, rfl⟩ rfl (fun _ => Iff.rfl) hsettled.transport,
          hsettled.bypasses⟩

/-- **DETACHING LEAVES NOTHING**: whatever failed on the way in, the event that
    ends the session leaves the original code, and no block of the controller. -/
theorem detach_leaves_nothing {env : Environment} {e : DebugEvent}
    (h : ReachableIf (detachSystem hooks original) (Undoable code hooks) d)
    (hrunning : d.session.finished = false) (hok : Undoable code hooks d (.event env e))
    (hends : (dispatchEvent env hooks d e).eventOk = false ∨
      (dispatchEvent env hooks d e).cleanStop = true) :
    Restored code original (handleEvent env hooks d e) := by
  obtain ⟨hhandles, himage⟩ := handles_dispatch (settled_reachable h hrunning) hok
  have hexports := hok.1.exports _ himage
  have hrestored := cleanupRemote_restores hok.1.undoes hhandles.accounted hexports
  rw [handleEvent]
  dsimp only
  rw [if_pos hends]
  exact ⟨hrestored.code, hrestored.blocks, hrestored.session⟩

/-- The first instructions of the function that is hooked. -/
def openCode (a : Nat) : Prop := 0x20100 ≤ a ∧ a < 0x20140

/-- `sampleEnvironment`, but an address that was returned is not returned
    again. -/
def freshEnvironment (used : List Nat) : Environment :=
  let allocated := fun name => if sampleAllocated name ∈ used then 0 else sampleAllocated name
  { Environment.cooperative sampleExports allocated ⟨0x30000, 0x1000⟩ ⟨0x50000, 0x1000⟩ with
    injectDll := if 0x30000 ∈ used then none else some ⟨0x30000, 0x1000⟩
    createSharedRing := if 0x50000 ∈ used then none else some (⟨0x50000, 0x1000⟩, 4)
    snapshot := some [⟨1, 7⟩]
    threadContext := fun _ => some 0x900100 }

theorem freshEnvironment_undoes (used : List Nat) (hooks : List HookDefinition) :
    Undoes (freshEnvironment used) hooks where
  decode := by
    intro bytes instruction h
    dsimp only [freshEnvironment, Environment.cooperative] at h
    split at h
    next =>
      cases h
      exact Nat.succ_le_succ (Nat.zero_le _)
    next => cases h
  unhook _ := rfl
  unmapRing := rfl
  freeSetEventBypass := rfl
  freeReadMemoryBypass := rfl
  freeHookImage := rfl
  bypassFree _ := rfl
  hookFree _ _ := ⟨rfl, rfl⟩
  kept _ _ _ := ⟨rfl, rfl⟩

theorem freshEnvironment_maps (used : List Nat) : MapsSomewhere (freshEnvironment used) := by
  constructor
  · intro image h
    dsimp only [freshEnvironment] at h
    split at h
    next => cases h
    next =>
      cases h
      simp
  · intro ring wakeEvent h
    dsimp only [freshEnvironment] at h
    split at h
    next => cases h
    next =>
      cases h
      simp

theorem sampleAllocated_beside (name : List UInt8) :
    Beside openCode (sampleAllocated name) trampolineSize := by
  intro x h1 h2 hcode
  rw [trampolineSize] at h2
  have hin := hcode.2
  rw [sampleAllocated] at h1
  split at h1
  · omega
  · split at h1 <;> omega

theorem freshEnvironment_exports (used : List Nat) {image : Nat}
    (himage : image = 0 ∨ image = 0x30000) :
    ExportsBeside openCode (freshEnvironment used) image := by
  intro name address h x h1 h2 hcode
  have hin := hcode.2
  rcases himage with rfl | rfl
  · rw [Environment.getRemoteExport, if_pos rfl] at h
    cases h
  · have h' : exportAddress (sampleExports 0x30000 name) = some address := h
    rw [sampleExports, if_neg (by decide), if_neg (by decide), if_pos rfl] at h'
    have hle : 0x30010 ≤ address := by
      split at h'
      · cases h'
        decide
      · split at h' <;> cases h' <;> decide
    omega

theorem freshEnvironment_ok {used : List Nat} {d : DebugState}
    (himage : d.session.hookImageBase = 0 ∨ d.session.hookImageBase = 0x30000)
    (hfresh : Fresh (imageBase (freshEnvironment used) :: ringBase (freshEnvironment used)
      :: setEventBase (freshEnvironment used) :: readMemoryBase (freshEnvironment used)
      :: hookBases (freshEnvironment used) [openHook]) d.target) :
    EventOk openCode (freshEnvironment used) [openHook] d where
  undoes := freshEnvironment_undoes used _
  maps := freshEnvironment_maps used
  fresh := hfresh
  beside := by
    have hone : ∀ name, ((if sampleAllocated name ∈ used then 0 else sampleAllocated name) ≠ 0 →
        Beside openCode (if sampleAllocated name ∈ used then 0 else sampleAllocated name)
          trampolineSize) := by
      intro name hne
      split at hne
      next => exact absurd rfl hne
      next hunused =>
        rw [if_neg hunused]
        exact sampleAllocated_beside name
    intro a ha
    simp only [hookBases, List.map_cons, List.map_nil, List.mem_cons, List.not_mem_nil,
      or_false] at ha
    rcases ha with rfl | rfl | rfl <;> exact hone _
  exports := by
    rintro image (rfl | rfl)
    · exact freshEnvironment_exports used himage
    · refine freshEnvironment_exports used ?_
      rw [imageBase, freshEnvironment]
      dsimp only
      split
      next => exact Or.inl rfl
      next => exact Or.inr rfl

/-- An event of a target in which nothing is at the addresses that are left. -/
def AdmitsFresh (used : List Nat) (d : DebugState) (e : DebugEvent) : Prop :=
  let pending := imageBase (freshEnvironment used) :: ringBase (freshEnvironment used)
    :: setEventBase (freshEnvironment used) :: readMemoryBase (freshEnvironment used)
    :: hookBases (freshEnvironment used) [openHook]
  d.session.finished = false ∧
    (d.session.hookImageBase = 0 ∨ d.session.hookImageBase = 0x30000) ∧
    (pending.filter (· ≠ 0)).Nodup ∧ (∀ a ∈ pending, a ≠ 0 → ∀ b ∈ d.target.blocks, b.base ≠ a) ∧
    match e with
    | .loadDll _ _ => d.session.hookImageBase ≠ 0
    | .unloadDll _ => False
    | _ => True

instance (used : List Nat) (d : DebugState) (e : DebugEvent) :
    Decidable (AdmitsFresh used d e) := by
  unfold AdmitsFresh
  cases e <;> infer_instance

theorem undoable_of_admits {used : List Nat} {d : DebugState} {e : DebugEvent}
    (h : AdmitsFresh used d e) :
    Undoable openCode [openHook] d (.event (freshEnvironment used) e) := by
  obtain ⟨-, himage, hdistinct, hnew, hevent⟩ := h
  refine ⟨freshEnvironment_ok himage ⟨hdistinct, hnew⟩, ?_⟩
  cases e with
  | loadDll base path => exact hevent
  | unloadDll base => cases hevent
  | _ => trivial

/-- The session that ends half-done: both regions are mapped and the first bypass
    is made, and there is no address for the second one. -/
def HalfDone (d : DebugState) : Prop :=
  let failed := dispatchEvent (freshEnvironment [0x30000, 0x50000, 0x70000]) [openHook] d
    (.loadDll 0x80000 (wideName "ntdll.dll"))
  failed.eventOk = false ∧ failed.state.session.setEventBypass ≠ 0 ∧
    failed.state.target.blocks.map (·.base) = [0x60000, 0x50000, 0x30000]

/-- The hook is installed, and the stop finds the target at rest; and a session
    that ends half-done. -/
theorem detach_leaves_nothing_both : ∃ d d',
    ReachableIf (detachSystem [openHook] sampleWorld.d.target) (Undoable openCode [openHook]) d ∧
    d.target.memory 0x20100 ≠ sampleWorld.d.target.memory 0x20100 ∧
    Restored openCode sampleWorld.d.target (handleEvent
      (freshEnvironment [0x30000, 0x50000, 0x60000, 0x70000, 0x40000]) [openHook] d
      .breakpoint) ∧
    HalfDone d' ∧
    Restored openCode sampleWorld.d.target (handleEvent
      (freshEnvironment [0x30000, 0x50000, 0x70000]) [openHook] d'
      (.loadDll 0x80000 (wideName "ntdll.dll"))) := by
  have hevent : ∀ {d : DebugState}, ReachableIf (detachSystem [openHook] sampleWorld.d.target)
      (Undoable openCode [openHook]) d → ∀ (used : List Nat) (e : DebugEvent),
      AdmitsFresh used d e → ReachableIf (detachSystem [openHook] sampleWorld.d.target)
        (Undoable openCode [openHook]) (handleEvent (freshEnvironment used) [openHook] d e) := by
    intro d h used e ha
    refine h.step (undoable_of_admits ha) ?_
    show (if d.session.finished then none else _) = _
    rw [ha.1]
    rfl
  have hstop : ∀ {d : DebugState}, ReachableIf (detachSystem [openHook] sampleWorld.d.target)
      (Undoable openCode [openHook]) d → d.session.finished = false →
      ReachableIf (detachSystem [openHook] sampleWorld.d.target) (Undoable openCode [openHook])
        { d with session := { d.session with stopBreakRequested := true } } := by
    intro d h hrunning
    refine h.step (a := .requestStop) trivial ?_
    show (if d.session.finished then none else _) = _
    rw [hrunning]
    rfl
  have h0 : ReachableIf (detachSystem [openHook] sampleWorld.d.target)
      (Undoable openCode [openHook]) sampleWorld.d := .init ⟨⟨1, rfl⟩, rfl⟩
  have h1 := hevent h0 [] (.createProcess 0x400000 (wideName "a.exe")) (by decide)
  have h2 := hevent h1 [0x30000, 0x50000] (.loadDll 0x80000 (wideName "ntdll.dll")) (by decide)
  have h3 := hevent h2 [0x30000, 0x50000, 0x60000, 0x70000] (.loadDll 0x10000
    (wideName "api.dll")) (by decide)
  have h4 := hevent h3 [0x30000, 0x50000, 0x60000, 0x70000] (.loadDll 0x20000
    (wideName "base.dll")) (by decide)
  have h5 := hstop h4 (by decide)
  have hhalf : HalfDone (handleEvent (freshEnvironment []) [openHook] sampleWorld.d
      (.createProcess 0x400000 (wideName "a.exe"))) := by
    unfold HalfDone
    decide
  exact ⟨_, _, h5, by decide,
    detach_leaves_nothing h5 (by decide) (undoable_of_admits (by decide)) (Or.inr (by decide)),
    hhalf,
    detach_leaves_nothing h1 (by decide) (undoable_of_admits (by decide)) (Or.inl hhalf.1)⟩

end ScopeDetach
