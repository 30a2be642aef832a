import ApiScope.QuiescenceProofs

/-! # Live patches and their support — HandleUnloadDll and CleanupRemote

    A function whose entry jumps to a handler needs the handler's image, a
    trampoline slot that points to a live trampoline, and a record in
    `installedHooks_`, without which nobody will take the jump out again.
    Both operations that release hooks drop the records whatever
    `UnhookFunction` returned, so the support survives the jump's removal
    only where the jump is really removed: where the first `VirtualProtectEx`
    and the restoring `WriteProcessMemory` succeed for every hook that is
    unhooked.

    Where two patches overlap, the saved bytes of the later one hold a part of
    the other's jump.  `CleanupRemote` goes from the last hook to the first, so
    what the later one puts back the earlier one overwrites.  `HandleUnloadDll`
    goes from the first to the last, and puts that jump back.

    `moduleOf` names the module each function lies in. -/

namespace ScopeSupport

open ScopeBytes ScopeProtocol ScopeHook ScopeDebug ScopePatched ScopeTransition
open ScopeQuiescence ScopeOutcome ScopeOverlay ScopeUndo

/-- The two operations that release installed hooks. -/
inductive Release where
  | unloadDll (base : Nat)
  | cleanupRemote

/-- The state after the operation. -/
def Release.run (env : Environment) : Release → DebugState → DebugState
  | .unloadDll base, d => handleUnloadDll env base d
  | .cleanupRemote, d => (ScopeDebug.cleanupRemote env d).2

/-- The hooks that the operation takes out of a module that stays. -/
def Release.Unhooks : Release → InstalledHook → Prop
  | .unloadDll base, h => h.targetModuleBase ≠ base ∧ h.sourceModuleBase = base
  | .cleanupRemote, _ => True

/-- The order in which the operation goes does no harm.  An unload goes from
    the first hook to the last, so no two that it unhooks may overlap.  Cleaning
    up goes from the last to the first, so overlaps do not matter as long as each
    hook saved what the hooks before it had left: the saved bytes, stored back in
    this order, are those of functions that do not jump. -/
def Release.InOrder (d : DebugState) : Release → Prop
  | .unloadDll base => d.session.installedHooks.Pairwise fun g h =>
      (Release.unloadDll base).Unhooks g → (Release.unloadDll base).Unhooks h → SpansApart g h
  | .cleanupRemote => ∀ h ∈ d.session.installedHooks,
      jumpsInto d.session.hookImageBase d.session.hookImageSize
        (slice (undo (d.session.installedHooks.map savedRun) d.target.memory) h.originalFunction
          patchSize) = false

/-- The function is one of those that the session has to do with: its entry
    jumps into the hook image, or it has a record. -/
def Concerned (d : DebugState) (f : Nat) : Prop :=
  jumps d f = true ∨ ∃ h ∈ d.session.installedHooks, h.originalFunction = f

/-- Two hooks on different functions, with their own slot and trampoline. -/
structure Apart (g h : InstalledHook) : Prop where
  function : g.originalFunction ≠ h.originalFunction
  trampoline : g.trampolineAddress ≠ h.trampolineAddress
  slot : RunsApart g.trampolineSlot 8 h.trampolineSlot 8

/-- The state in which the hooks are installed: every record describes a hook
    on a function of a loaded module, with a live trampoline in its slot and
    saved bytes that are no jump; a jump that no other patch covers is there,
    and every jump has its record. -/
structure Installed (moduleOf : Nat → Nat) (d : DebugState) : Prop where
  image : d.session.installedHooks ≠ [] → d.session.hookImageBase ≠ 0 ∧
    ∃ b ∈ d.target.blocks, b.base = d.session.hookImageBase
  complete : ∀ h ∈ d.session.installedHooks,
    Complete h ∧ patchSize ≤ h.originalBytes.length
  jumps : d.session.installedHooks.Pairwise SpansApart →
    ∀ h ∈ d.session.installedHooks, jumps d h.originalFunction = true
  recorded : ∀ f, ScopeQuiescence.jumps d f = true →
    ∃ h ∈ d.session.installedHooks, h.originalFunction = f
  saved : ∀ h ∈ d.session.installedHooks,
    jumpsInto d.session.hookImageBase d.session.hookImageSize
      (h.originalBytes.take patchSize) = false
  loaded : ∀ h ∈ d.session.installedHooks,
    moduleOf h.originalFunction = h.targetModuleBase ∧
      ∃ m ∈ d.session.modules, m.base = h.targetModuleBase
  slot : ∀ h ∈ d.session.installedHooks,
    d.target.pointer h.trampolineSlot = h.trampolineAddress
  live : ∀ h ∈ d.session.installedHooks,
    ∃ b ∈ d.target.blocks, b.base = h.trampolineAddress
  notImage : ∀ h ∈ d.session.installedHooks,
    h.trampolineAddress ≠ d.session.hookImageBase
  outside : ∀ h ∈ d.session.installedHooks,
    RunsApart h.originalFunction h.originalBytes.length d.session.hookImageBase
      d.session.hookImageSize
  apart : d.session.installedHooks.Pairwise Apart
  clear : ∀ g ∈ d.session.installedHooks, ∀ h ∈ d.session.installedHooks,
    RunsApart h.trampolineSlot 8 g.originalFunction g.originalBytes.length

instance : Std.Symm Apart where
  symm _ _ h := ⟨h.function.symm, h.trampoline.symm, h.slot.symm⟩

/-! ## Unloading a module -/

variable {env : Environment} {moduleOf : Nat → Nat} {d : DebugState} {base : Nat}

/-- What a hook that stays needs, all through the loop. -/
structure Keeps (d : DebugState) (h : InstalledHook) (t : Target) : Prop where
  slot : slice t.memory h.trampolineSlot 8 = slice d.target.memory h.trampolineSlot 8
  live : ∃ b ∈ t.blocks, b.base = h.trampolineAddress
  image : ∃ b ∈ t.blocks, b.base = d.session.hookImageBase

theorem Keeps.unhook (hi : Installed moduleOf d) {g h : InstalledHook}
    (hg : g ∈ d.session.installedHooks) (hh : h ∈ d.session.installedHooks)
    (ha : Apart g h) {calls : UnhookCalls} {t : Target} (hk : Keeps d h t) :
    Keeps d h (unhookFunction calls g t).2 where
  slot := by
    rw [unhookFunction_slice (hi.clear g hg h hh) ha.slot.symm]
    exact hk.slot
  live := by
    obtain ⟨b, hb, hbase⟩ := hk.live
    exact ⟨b, mem_unhookFunction_blocks hb (hbase ▸ ha.trampoline.symm), hbase⟩
  image := by
    obtain ⟨b, hb, hbase⟩ := hk.image
    exact ⟨b, mem_unhookFunction_blocks hb (hbase ▸ (hi.notImage g hg).symm), hbase⟩

theorem Keeps.release (hi : Installed moduleOf d) {g h : InstalledHook}
    (hg : g ∈ d.session.installedHooks) (ha : Apart g h) {calls : UnhookCalls}
    {t : Target} (hk : Keeps d h t) : Keeps d h (releaseUnloadedHook calls g t).2 where
  slot := by
    rw [releaseUnloadedHook_slice ha.slot.symm]
    exact hk.slot
  live := by
    obtain ⟨b, hb, hbase⟩ := hk.live
    exact ⟨b, mem_releaseUnloadedHook_blocks hb (hbase ▸ ha.trampoline.symm), hbase⟩
  image := by
    obtain ⟨b, hb, hbase⟩ := hk.image
    exact ⟨b, mem_releaseUnloadedHook_blocks hb (hbase ▸ (hi.notImage g hg).symm), hbase⟩

/-- An installed hook can be released where the hooks that are unhooked are
    apart from it. -/
theorem Installed.releasable (hi : Installed moduleOf d) {h : InstalledHook}
    (hh : h ∈ d.session.installedHooks) {unhooks : InstalledHook → Prop}
    (hspans : ∀ g ∈ d.session.installedHooks, unhooks g → g ≠ h → SpansApart h g) :
    Releasable unhooks d.session.installedHooks h where
  complete := (hi.complete h hh).1
  once := hi.apart.imp fun ha heq => ha.function (congrArg _ heq)
  spans := hspans
  slots g hg := (hi.clear h hh g hg).symm

/-- A concerned function has a record. -/
theorem Installed.record (hi : Installed moduleOf d) {f : Nat} (hf : Concerned d f) :
    ∃ h ∈ d.session.installedHooks, h.originalFunction = f := by
  rcases hf with hjumps | hrecord
  · exact hi.recorded f hjumps
  · exact hrecord

/-- An entry that gets its saved bytes back does not jump. -/
theorem Installed.quiet (hi : Installed moduleOf d) {h : InstalledHook}
    (hh : h ∈ d.session.installedHooks) {t : Target}
    (hentry : slice t.memory h.originalFunction h.originalBytes.length = h.originalBytes) :
    holdsJump d.session.hookImageBase d.session.hookImageSize t h.originalFunction = false :=
  (holdsJump_saved (hi.complete h hh).2 hentry).trans (hi.saved h hh)

theorem cleanupRemote_session (env : Environment) (d : DebugState) :
    (ScopeDebug.cleanupRemote env d).2.session.installedHooks = [] ∧
      (ScopeDebug.cleanupRemote env d).2.session.modules = d.session.modules := by
  rw [ScopeDebug.cleanupRemote]
  dsimp only
  split
  next => exact ⟨rfl, rfl⟩
  next => exact ⟨rfl, rfl⟩

/-- The order does not matter for patches with no byte in common. -/
theorem Installed.inOrder (hi : Installed moduleOf d)
    (hspans : d.session.installedHooks.Pairwise SpansApart) (op : Release) : op.InOrder d := by
  cases op with
  | unloadDll base => exact hspans.imp fun h _ _ => h
  | cleanupRemote =>
      intro h hh
      have hback : slice (undo (d.session.installedHooks.map savedRun) d.target.memory)
          (savedRun h).off (savedRun h).bytes.length = (savedRun h).bytes :=
        slice_undo (List.pairwise_map.mpr hspans) (List.mem_map_of_mem hh) _
      rw [← slice_take _ _ _ _ (hi.complete h hh).2]
      exact (congrArg (fun bytes => jumpsInto _ _ (bytes.take patchSize)) hback).trans
        (hi.saved h hh)

end ScopeSupport
