import ApiScope.HookManagerProofs

/-! # The debug session — modules, hooks and debug events

    `debug_session.cpp`: the controller is the debugger of its target.  While
    it handles a debug event every thread of the target is frozen; between
    two events they all run.  The module list, the installed hooks and the
    remote half of the trace transport change only while an event is handled.

    What the system answers while one event is handled is the `Environment`
    of the event: the exports of the modules it reads, the outcomes of the
    process-memory calls, the thread snapshot.  No result of this file
    depends on two events seeing the same environment. -/

namespace ScopeDebug

open ScopeBytes ScopeProtocol ScopeHook

structure ModuleRecord where
  base : Nat
  path : List UInt16
  name : List UInt8
  generation : Nat

/-- What `OpenThread` and `GetLastError` say about a listed thread. -/
inductive OpenThread where
  | opened
  /-- `ERROR_INVALID_PARAMETER`: no thread has this id. -/
  | invalidParameter
  | failed
  deriving DecidableEq

structure ThreadEntry where
  ownerProcessId : Nat
  threadId : Nat

/-- `DebugSession` and the remote half of its `TraceSession`. -/
structure Session where
  processId : Nat
  hookImageBase : Nat
  hookImageSize : Nat
  transportConfigured : Bool
  initialBreakpointSeen : Bool
  stopBreakRequested : Bool
  modules : List ModuleRecord
  moduleGeneration : Nat
  installedHooks : List InstalledHook
  remoteRing : Nat
  remoteWakeEvent : Nat
  setEventBypass : Nat
  readMemoryBypass : Nat
  /-- The event loop has been left. -/
  finished : Bool

/-- The controller and its target. -/
structure DebugState where
  session : Session
  target : Target

/-- The answers of the system while one debug event is handled. -/
structure Environment where
  exports : Nat → List UInt8 → Option RemoteExport
  getRemoteModuleName : Nat → List UInt8
  decodeInstruction64 : List UInt8 → Option DecodedInstruction
  debugSetProcessKillOnExit : Bool
  /-- `InjectDll`: the mapped image, or nothing. -/
  injectDll : Option Block
  readImageSize : Bool
  /-- `Start` gets its stop event and its output. -/
  openOutput : Bool
  /-- `CreateSharedRing`: the view in the target and the duplicated event. -/
  createSharedRing : Option (Block × Nat)
  writeExport : List UInt8 → Bool
  unmapRing : Bool
  closeWakeEvent : Bool
  freeSetEventBypass : Bool
  freeReadMemoryBypass : Bool
  freeHookImage : Bool
  bypassCalls : List UInt8 → BypassCalls
  hookCalls : HookDefinition → HookCalls
  unhookCalls : InstalledHook → UnhookCalls
  readActiveCalls : Bool
  snapshot : Option (List ThreadEntry)
  openThread : Nat → OpenThread
  /-- `GetThreadContext`: the instruction pointer of a thread. -/
  threadContext : Nat → Option Nat

/-- `GetRemoteExport`; at a null base there is no header to read. -/
def Environment.getRemoteExport (env : Environment) (base : Nat)
    (name : List UInt8) : Option RemoteExport :=
  if base = 0 then none else env.exports base name

/-- A system in which every call succeeds, for given exports and addresses of
    new trampolines; the code of its modules is all `nop`. -/
def Environment.cooperative (exports : Nat → List UInt8 → Option RemoteExport)
    (allocated : List UInt8 → Nat) (image ring : Block) : Environment where
  exports := exports
  getRemoteModuleName _ := []
  decodeInstruction64
    | 0x90 :: _ => some ⟨1, false, false⟩
    | _ => none
  debugSetProcessKillOnExit := true
  injectDll := some image
  readImageSize := true
  openOutput := true
  createSharedRing := some (ring, 4)
  writeExport _ := true
  unmapRing := true
  closeWakeEvent := true
  freeSetEventBypass := true
  freeReadMemoryBypass := true
  freeHookImage := true
  bypassCalls name := ⟨true, allocated name, true, true, true, true, true⟩
  hookCalls definition :=
    ⟨⟨true, allocated definition.canonicalName, true, true, true, true, true⟩,
      true, true, ⟨true, true, true, true⟩, true, true⟩
  unhookCalls _ := ⟨true, true, true, true, true, true⟩
  readActiveCalls := true
  snapshot := some []
  openThread _ := .opened
  threadContext _ := none

/-! ## Module names and exports -/

/-- `std::tolower` of the C locale. -/
def toLower (c : UInt8) : UInt8 := if 65 ≤ c ∧ c ≤ 90 then c + 32 else c

/-- The part after the last separator, the whole name if there is none. -/
def afterSeparator (name : List UInt8) : List UInt8 :=
  (name.reverse.takeWhile fun c => c ≠ 92 ∧ c ≠ 47).reverse

/-- `NormalizeModuleName`. -/
def normalizeModuleName (moduleName : List UInt8) : List UInt8 :=
  (afterSeparator moduleName).map toLower

/-- `NarrowAscii`. -/
def narrowAscii (value : List UInt16) : List UInt8 :=
  if value.all (· ≤ 0x7F) then value.map fun c => UInt8.ofNat c.toNat else []

/-- `FindModule`: the newest module of that name. -/
def findModule (modules : List ModuleRecord) (normalizedName : List UInt8) :
    Option ModuleRecord :=
  modules.foldl
    (fun newest m =>
      if m.name = normalizedName ∧ newest.all (·.generation < m.generation) then some m
      else newest)
    none

/-- `ResolveResult`, with the address and module base of a resolved export. -/
inductive ResolveResult where
  | resolved (address targetModuleBase : Nat)
  | pending
  | error
  deriving DecidableEq

/-- The module and the export of a forwarder, split at its last dot. -/
def splitForwarder (forwarder : List UInt8) : Option (List UInt8 × List UInt8) :=
  let exportName := (forwarder.reverse.takeWhile (· ≠ 46)).reverse
  let separator := forwarder.length - exportName.length - 1
  if 46 ∉ forwarder ∨ separator = 0 ∨ exportName = [] ∨ exportName.head? = some 35 then
    none
  else some (forwarder.take separator, exportName)

/-- The name under which a forwarder's module is looked up. -/
def lookupName (moduleName : List UInt8) : List UInt8 :=
  let normalizedModule := normalizeModuleName moduleName
  if 46 ∈ normalizedModule then normalizedModule
  else normalizedModule ++ cstr ".dll"

/-- `ResolveExportAddress`; the first argument is `8 - depth`. -/
def resolveExportAddress (env : Environment) (modules : List ModuleRecord) :
    Nat → List (List UInt8) → List UInt8 → List UInt8 → ResolveResult
  | 0, _, _, _ => .error
  | hops + 1, visited, moduleName, exportName =>
      let normalizedModule := lookupName moduleName
      let identity := normalizedModule ++ cstr "!" ++ exportName
      if identity ∈ visited then .error
      else
        match findModule modules normalizedModule with
        | none => .pending
        | some module =>
            match env.getRemoteExport module.base exportName with
            | none => .error
            | some remoteExport =>
                if remoteExport.address ≠ 0 then
                  .resolved remoteExport.address module.base
                else
                  match splitForwarder remoteExport.forwarder with
                  | none => .error
                  | some (forwardModule, forwardExport) =>
                      resolveExportAddress env modules hops (identity :: visited)
                        forwardModule forwardExport

/-- `ResolveHookAddress`: with the source module's base when it is loaded. -/
def resolveHookAddress (env : Environment) (modules : List ModuleRecord)
    (hook : HookDefinition) : ResolveResult × Nat :=
  match findModule modules hook.moduleName with
  | none => (.pending, 0)
  | some source =>
      (resolveExportAddress env modules 8 [] hook.moduleName hook.exportName,
        source.base)

/-! ## Installing hooks -/

/-- The record that `TryInstallPendingHooks` keeps. -/
def InstalledHook.located (hook : InstalledHook) (sourceModuleBase
    targetModuleBase : Nat) : InstalledHook :=
  { hook with sourceModuleBase, targetModuleBase }

/-- One `HookFunction` call of `TryInstallPendingHooks`. -/
def installHook (env : Environment) (definition : HookDefinition)
    (address source target : Nat) (d : DebugState) : Bool × DebugState :=
  let r := hookFunction env.getRemoteExport env.decodeInstruction64
    (env.hookCalls definition) address d.session.hookImageBase definition d.target
  match r.1 with
  | none => (false, { d with target := r.2 })
  | some hook =>
      (true,
        { session :=
            { d.session with
                installedHooks :=
                  d.session.installedHooks ++ [InstalledHook.located hook source target] }
          target := r.2 })

/-- `TryInstallPendingHooks`. -/
def tryInstallPendingHooks (env : Environment) :
    List HookDefinition → DebugState → Bool × DebugState
  | [], d => (true, d)
  | definition :: rest, d =>
      if d.session.installedHooks.any (·.canonicalName = definition.canonicalName) then
        tryInstallPendingHooks env rest d
      else
        match resolveHookAddress env d.session.modules definition with
        | (.pending, _) => tryInstallPendingHooks env rest d
        | (.error, _) => (false, d)
        | (.resolved address target, source) =>
            if d.session.installedHooks.any (·.originalFunction = address) then (false, d)
            else
              let r := installHook env definition address source target d
              if r.1 then tryInstallPendingHooks env rest r.2 else (false, r.2)

/-! ## The remote transport -/

/-- `WriteRemoteExport`. -/
def writeRemoteExport (env : Environment) (hookImageBase : Nat)
    (exportName value : List UInt8) (t : Target) : Bool × Target :=
  match exportAddress (env.getRemoteExport hookImageBase exportName) with
  | none => (false, t)
  | some address =>
      (env.writeExport exportName, t.write (env.writeExport exportName) address value)

/-- `WriteRemoteExport` of a zero to the call counter. -/
def resetActiveHookCalls (env : Environment) (hookImageBase : Nat) (t : Target) :
    Bool × Target :=
  match exportAddress (env.getRemoteExport hookImageBase (cstr "ActiveHookCalls")) with
  | none => (false, t)
  | some _ =>
      if env.writeExport (cstr "ActiveHookCalls") then
        (true, { t with activeHookCalls := 0#32 })
      else (false, t)

/-- `CreateBypassTrampolineForFunction`. -/
def createBypassTrampolineForFunction (env : Environment) (moduleBase : Nat)
    (functionName : List UInt8) (t : Target) : Option RemoteTrampoline × Target :=
  match exportAddress (env.getRemoteExport moduleBase functionName) with
  | none => (none, t)
  | some originalFunction =>
      createBypassTrampoline env.decodeInstruction64 (env.bypassCalls functionName)
        originalFunction t

/-- `TraceSession::ConfigureTransport`. -/
def configureTransport (env : Environment) (ntdllBase : Nat) (d : DebugState) :
    Bool × DebugState :=
  let setEvent :=
    createBypassTrampolineForFunction env ntdllBase (cstr "NtSetEvent") d.target
  match setEvent.1 with
  | none => (false, { d with target := setEvent.2 })
  | some setEventBypass =>
      let session := { d.session with setEventBypass := setEventBypass.address }
      let readMemory := createBypassTrampolineForFunction env ntdllBase
        (cstr "NtReadVirtualMemory") setEvent.2
      match readMemory.1 with
      | none => (false, ⟨session, readMemory.2⟩)
      | some readMemoryBypass =>
          let session := { session with readMemoryBypass := readMemoryBypass.address }
          let wroteSetEvent := writeRemoteExport env d.session.hookImageBase
            (cstr "TransportNtSetEvent") (pointerBytes setEventBypass.address)
            readMemory.2
          if wroteSetEvent.1 = false then (false, ⟨session, wroteSetEvent.2⟩)
          else
            let wroteReadMemory := writeRemoteExport env d.session.hookImageBase
              (cstr "TransportNtReadVirtualMemory")
              (pointerBytes readMemoryBypass.address) wroteSetEvent.2
            (wroteReadMemory.1, ⟨session, wroteReadMemory.2⟩)

/-- The remote half of `TraceSession::Start`. -/
def traceStart (env : Environment) (d : DebugState) : Bool × DebugState :=
  if env.openOutput = false then (false, d)
  else
    match env.createSharedRing with
    | none => (false, d)
    | some (ring, wakeEvent) =>
        let image := d.session.hookImageBase
        let session :=
          { d.session with remoteRing := ring.base, remoteWakeEvent := wakeEvent }
        let undone := { session with remoteRing := 0 }
        let wroteRing := writeRemoteExport env image (cstr "TransportRing")
          (pointerBytes ring.base) (d.target.map ring)
        if wroteRing.1 = false then (false, ⟨undone, wroteRing.2.free true ring.base⟩)
        else
          let wroteWake := writeRemoteExport env image (cstr "TransportWakeEvent")
            (pointerBytes wakeEvent) wroteRing.2
          if wroteWake.1 = false then (false, ⟨undone, wroteWake.2.free true ring.base⟩)
          else
            let reset := resetActiveHookCalls env image wroteWake.2
            if reset.1 = false then (false, ⟨undone, reset.2.free true ring.base⟩)
            else (true, ⟨session, reset.2⟩)

/-- `TraceSession::CleanupRemote`. -/
def traceCleanupRemote (env : Environment) (d : DebugState) : Bool × DebugState :=
  let image := d.session.hookImageBase
  let ring := writeRemoteExport env image (cstr "TransportRing") (pointerBytes 0)
    d.target
  let wake := writeRemoteExport env image (cstr "TransportWakeEvent") (pointerBytes 0)
    ring.2
  let setEvent := writeRemoteExport env image (cstr "TransportNtSetEvent")
    (pointerBytes 0) wake.2
  let readMemory := writeRemoteExport env image (cstr "TransportNtReadVirtualMemory")
    (pointerBytes 0) setEvent.2
  let s := d.session
  let unmapped := readMemory.2.free (s.remoteRing ≠ 0 ∧ env.unmapRing) s.remoteRing
  let freed := unmapped.free (s.setEventBypass ≠ 0 ∧ env.freeSetEventBypass)
    s.setEventBypass
  let freed' := freed.free (s.readMemoryBypass ≠ 0 ∧ env.freeReadMemoryBypass)
    s.readMemoryBypass
  (ring.1 && wake.1 && setEvent.1 && readMemory.1
      && (s.remoteRing = 0 || env.unmapRing)
      && (s.remoteWakeEvent = 0 || env.closeWakeEvent)
      && (s.setEventBypass = 0 || env.freeSetEventBypass)
      && (s.readMemoryBypass = 0 || env.freeReadMemoryBypass),
    { session :=
        { s with
            remoteRing := 0
            remoteWakeEvent := 0
            setEventBypass := 0
            readMemoryBypass := 0 }
      target := freed' })

/-! ## The handlers of debug events -/

/-- `InitializeDebuggee`. -/
def initializeDebuggee (env : Environment) (d : DebugState) : Bool × DebugState :=
  if env.debugSetProcessKillOnExit = false then (false, d)
  else
    match env.injectDll with
    | none => (false, d)
    | some image =>
        let size := if env.readImageSize then image.size else 0
        let mapped : DebugState :=
          { session :=
              { d.session with hookImageBase := image.base, hookImageSize := size }
            target := d.target.map image }
        if size = 0 then (false, mapped) else traceStart env mapped

/-- The name under which `RegisterModule` records a module. -/
def registeredName (env : Environment) (base : Nat) (path : List UInt16) :
    List UInt8 :=
  let name := normalizeModuleName (narrowAscii path)
  if name = [] then normalizeModuleName (env.getRemoteModuleName base) else name

/-- `modules_[base] = module` with the next generation. -/
def recordModule (base : Nat) (path : List UInt16) (name : List UInt8)
    (d : DebugState) : DebugState :=
  { d with
      session :=
        { d.session with
            modules :=
              ⟨base, path, name, d.session.moduleGeneration + 1⟩
                :: d.session.modules.filter (·.base ≠ base)
            moduleGeneration := d.session.moduleGeneration + 1 } }

/-- The first `ntdll.dll` configures the transport. -/
def configureOnce (env : Environment) (base : Nat) (name : List UInt8)
    (d : DebugState) : Bool × DebugState :=
  if name = cstr "ntdll.dll" ∧ d.session.transportConfigured = false then
    let r := configureTransport env base d
    if r.1 then
      (true, { r.2 with session := { r.2.session with transportConfigured := true } })
    else (false, r.2)
  else (true, d)

/-- `RegisterModule`. -/
def registerModule (env : Environment) (hooks : List HookDefinition) (base : Nat)
    (path : List UInt16) (d : DebugState) : Bool × DebugState :=
  let name := registeredName env base path
  if name = [] then (true, d)
  else
    let r := configureOnce env base name (recordModule base path name d)
    if r.1 = false then (false, r.2)
    else if r.2.session.transportConfigured then tryInstallPendingHooks env hooks r.2
    else (true, r.2)

/-- `HandleCreateProcess`. -/
def handleCreateProcess (env : Environment) (hooks : List HookDefinition)
    (base : Nat) (path : List UInt16) (d : DebugState) : Bool × DebugState :=
  if d.session.hookImageBase = 0 then
    let r := initializeDebuggee env d
    if r.1 then registerModule env hooks base path r.2 else (false, r.2)
  else registerModule env hooks base path d

/-- `HandleLoadDll`. -/
def handleLoadDll (env : Environment) (hooks : List HookDefinition) (base : Nat)
    (path : List UInt16) (d : DebugState) : Bool × DebugState :=
  registerModule env hooks base path d

/-- The loop of `HandleUnloadDll`: the hooks that stay, and the target. -/
def releaseHooks (env : Environment) (base : Nat) :
    List InstalledHook → Target → List InstalledHook × Target
  | [], t => ([], t)
  | hook :: rest, t =>
      if hook.targetModuleBase = base then
        releaseHooks env base rest (releaseUnloadedHook (env.unhookCalls hook) hook t).2
      else if hook.sourceModuleBase = base then
        releaseHooks env base rest (unhookFunction (env.unhookCalls hook) hook t).2
      else
        let r := releaseHooks env base rest t
        (hook :: r.1, r.2)

/-- `HandleUnloadDll`. -/
def handleUnloadDll (env : Environment) (base : Nat) (d : DebugState) : DebugState :=
  let r := releaseHooks env base d.session.installedHooks d.target
  { session :=
      { d.session with
          installedHooks := r.1
          modules := d.session.modules.filter (·.base ≠ base) }
    target := r.2 }

/-- `UnhookFunction` on one hook after the other. -/
def unhookAll (env : Environment) : List InstalledHook → Target → Bool × Target
  | [], t => (true, t)
  | hook :: rest, t =>
      let r := unhookFunction (env.unhookCalls hook) hook t
      let rs := unhookAll env rest r.2
      (r.1 && rs.1, rs.2)

/-- `CleanupRemote`. -/
def cleanupRemote (env : Environment) (d : DebugState) : Bool × DebugState :=
  let unhooked := unhookAll env d.session.installedHooks.reverse d.target
  let d₁ : DebugState := ⟨{ d.session with installedHooks := [] }, unhooked.2⟩
  if d.session.hookImageBase = 0 then (unhooked.1, d₁)
  else
    let traced := traceCleanupRemote env d₁
    (unhooked.1 && traced.1 && env.freeHookImage,
      { session := { traced.2.session with hookImageBase := 0 }
        target := traced.2.target.free env.freeHookImage d.session.hookImageBase })

/-! ## The quiescence check -/

/-- `IsInstrumentationAddress`, in the arithmetic of `DWORD64`. -/
def isInstrumentationAddress (s : Session) (instructionPointer : Nat) : Bool :=
  (s.hookImageBase ≠ 0 ∧ s.hookImageBase ≤ instructionPointer ∧
      instructionPointer < (s.hookImageBase + s.hookImageSize) % 2 ^ 64)
    || s.installedHooks.any fun hook =>
      (hook.originalFunction ≤ instructionPointer ∧ instructionPointer
          < (hook.originalFunction + hook.originalBytes.length) % 2 ^ 64)
        || (hook.trampolineAddress ≤ instructionPointer ∧
          instructionPointer < (hook.trampolineAddress + 1024) % 2 ^ 64)

/-- The body of the snapshot loop: whether the entry lets it go on. -/
def threadQuiescent (env : Environment) (s : Session) (entry : ThreadEntry) : Bool :=
  if entry.ownerProcessId ≠ s.processId then true
  else
    match env.openThread entry.threadId with
    | .invalidParameter => true
    | .failed => false
    | .opened =>
        match env.threadContext entry.threadId with
        | none => false
        | some instructionPointer => !isInstrumentationAddress s instructionPointer

/-- `IsCleanupQuiescent`. -/
def isCleanupQuiescent (env : Environment) (d : DebugState) : Bool :=
  if d.session.hookImageBase = 0 then true
  else
    match exportAddress
        (env.getRemoteExport d.session.hookImageBase (cstr "ActiveHookCalls")) with
    | none => false
    | some _ =>
        if env.readActiveCalls = false ∨ d.target.activeHookCalls ≠ 0#32 then false
        else
          match env.snapshot with
          | none => false
          | some entries => entries.all (threadQuiescent env d.session)

/-! ## The event loop -/

inductive DebugEvent where
  | createProcess (base : Nat) (path : List UInt16)
  | loadDll (base : Nat) (path : List UInt16)
  | unloadDll (base : Nat)
  /-- `EXCEPTION_BREAKPOINT`. -/
  | breakpoint
  /-- Any other exception. -/
  | exception
  | exitProcess
  /-- Any other event: the loop does nothing. -/
  | other

/-- `eventOk` and `cleanStop` after the switch of `EventLoop`. -/
structure Dispatched where
  eventOk : Bool
  cleanStop : Bool
  state : DebugState

/-- The switch of `EventLoop`. -/
def dispatchEvent (env : Environment) (hooks : List HookDefinition) (d : DebugState) :
    DebugEvent → Dispatched
  | .createProcess base path =>
      let r := handleCreateProcess env hooks base path d
      ⟨r.1, false, r.2⟩
  | .loadDll base path =>
      let r := handleLoadDll env hooks base path d
      ⟨r.1, false, r.2⟩
  | .unloadDll base => ⟨true, false, handleUnloadDll env base d⟩
  | .breakpoint =>
      if d.session.stopBreakRequested then ⟨true, isCleanupQuiescent env d, d⟩
      else
        ⟨true, false, { d with session := { d.session with initialBreakpointSeen := true } }⟩
  | .exception => ⟨true, false, d⟩
  | .exitProcess => ⟨true, false, { d with session := { d.session with finished := true } }⟩
  | .other => ⟨true, false, d⟩

/-- One pass of `EventLoop` with an event. -/
def handleEvent (env : Environment) (hooks : List HookDefinition) (d : DebugState)
    (e : DebugEvent) : DebugState :=
  let r := dispatchEvent env hooks d e
  if r.eventOk = false ∨ r.cleanStop = true then
    let c := cleanupRemote env r.state
    { c.2 with session := { c.2.session with finished := true } }
  else r.state

/-! ## What the loops do

    Each loop calls one function of the hook manager on one hook after the
    other, so what every such call keeps, the loop keeps. -/

/-- The hooks that an unload leaves are those of other modules. -/
theorem releaseHooks_hooks (env : Environment) (base : Nat)
    (hooks : List InstalledHook) (t : Target) :
    (releaseHooks env base hooks t).1 = hooks.filter fun h =>
      h.targetModuleBase ≠ base ∧ h.sourceModuleBase ≠ base := by
  induction hooks generalizing t with
  | nil => rfl
  | cons hook rest ih =>
      rw [releaseHooks, List.filter_cons]
      by_cases htarget : hook.targetModuleBase = base
      · rw [if_pos htarget, ih, if_neg (by simp [htarget])]
      · rw [if_neg htarget]
        by_cases hsource : hook.sourceModuleBase = base
        · rw [if_pos hsource, ih, if_neg (by simp [hsource])]
        · rw [if_neg hsource, if_pos (by simp [htarget, hsource])]
          exact congrArg (hook :: ·) (ih t)

theorem releaseHooks_keeps {env : Environment} {base : Nat} {P : Target → Prop}
    {hooks : List InstalledHook}
    (hrelease : ∀ hook ∈ hooks, hook.targetModuleBase = base → ∀ t, P t →
      P (releaseUnloadedHook (env.unhookCalls hook) hook t).2)
    (hunhook : ∀ hook ∈ hooks, hook.targetModuleBase ≠ base →
      hook.sourceModuleBase = base → ∀ t, P t →
      P (unhookFunction (env.unhookCalls hook) hook t).2)
    {t : Target} (h : P t) : P (releaseHooks env base hooks t).2 := by
  induction hooks generalizing t with
  | nil => exact h
  | cons hook rest ih =>
      have ih' : ∀ {t}, P t → P (releaseHooks env base rest t).2 := by
        refine ih ?_ ?_
        · intro g hg
          exact hrelease g (List.mem_cons_of_mem _ hg)
        · intro g hg
          exact hunhook g (List.mem_cons_of_mem _ hg)
      rw [releaseHooks]
      by_cases htarget : hook.targetModuleBase = base
      · rw [if_pos htarget]
        exact ih' (hrelease hook List.mem_cons_self htarget t h)
      · rw [if_neg htarget]
        by_cases hsource : hook.sourceModuleBase = base
        · rw [if_pos hsource]
          exact ih' (hunhook hook List.mem_cons_self htarget hsource t h)
        · rw [if_neg hsource]
          exact ih' h

/-- One successful pass that installs a hook at `address`. -/
inductive Installs (env : Environment) (hooks : List HookDefinition)
    (d : DebugState) (address : Nat) : DebugState → Prop where
  | mk {definition : HookDefinition} {source target : Nat} {hook : InstalledHook}
      {t' : Target} (hmem : definition ∈ hooks)
      (hnew : ∀ h ∈ d.session.installedHooks,
        h.canonicalName ≠ definition.canonicalName)
      (hres : resolveHookAddress env d.session.modules definition
        = (.resolved address target, source))
      (hdistinct : ∀ h ∈ d.session.installedHooks, h.originalFunction ≠ address)
      (hcall : hookFunction env.getRemoteExport env.decodeInstruction64
        (env.hookCalls definition) address d.session.hookImageBase definition d.target
          = (some hook, t')) :
      Installs env hooks d address
        { session :=
            { d.session with
                installedHooks :=
                  d.session.installedHooks ++ [InstalledHook.located hook source target] }
          target := t' }

/-- Installations one after the other, each admitted by `Q`. -/
inductive InstallRun (env : Environment) (hooks : List HookDefinition)
    (Q : Nat → DebugState → Prop) : DebugState → DebugState → Prop where
  | refl (d : DebugState) : InstallRun env hooks Q d d
  | step {d d₁ d' : DebugState} {address : Nat} : Q address d →
      Installs env hooks d address d₁ → InstallRun env hooks Q d₁ d' →
      InstallRun env hooks Q d d'

/-- What every admitted installation keeps, the run keeps. -/
theorem InstallRun.keeps {env : Environment} {hooks : List HookDefinition}
    {Q : Nat → DebugState → Prop} {P : DebugState → Prop} {d d' : DebugState}
    (hr : InstallRun env hooks Q d d')
    (hstep : ∀ d address d', Q address d → Installs env hooks d address d' →
      P d → P d')
    (h : P d) : P d' := by
  induction hr with
  | refl => exact h
  | step hq hs _ ih => exact ih (hstep _ _ _ hq hs h)

theorem InstallRun.mono {env : Environment} {hooks hooks' : List HookDefinition}
    {Q : Nat → DebugState → Prop} (hsub : ∀ x ∈ hooks, x ∈ hooks') {d d' : DebugState}
    (hr : InstallRun env hooks Q d d') : InstallRun env hooks' Q d d' := by
  induction hr with
  | refl => exact .refl _
  | step hq hs _ ih =>
      refine .step hq ?_ ih
      cases hs with
      | mk hmem hnew hres hdistinct hcall =>
          exact .mk (hsub _ hmem) hnew hres hdistinct hcall

/-- The `HookFunction` calls that `TryInstallPendingHooks` makes: the address,
    and the state before the call. -/
def hookFunctionCalls (env : Environment) :
    List HookDefinition → DebugState → List (Nat × DebugState)
  | [], _ => []
  | definition :: rest, d =>
      if d.session.installedHooks.any (·.canonicalName = definition.canonicalName) then
        hookFunctionCalls env rest d
      else
        match resolveHookAddress env d.session.modules definition with
        | (.pending, _) => hookFunctionCalls env rest d
        | (.error, _) => []
        | (.resolved address target, source) =>
            if d.session.installedHooks.any (·.originalFunction = address) then []
            else
              let r := installHook env definition address source target d
              (address, d) :: if r.1 then hookFunctionCalls env rest r.2 else []

theorem installHook_installs {env : Environment} {hooks : List HookDefinition}
    {definition : HookDefinition} {address source target : Nat} {d : DebugState}
    (hmem : definition ∈ hooks)
    (hnew : ¬(d.session.installedHooks.any
      (·.canonicalName = definition.canonicalName)) = true)
    (hres : resolveHookAddress env d.session.modules definition
      = (.resolved address target, source))
    (hdistinct : ¬(d.session.installedHooks.any (·.originalFunction = address)) = true)
    (hok : (installHook env definition address source target d).1 = true) :
    Installs env hooks d address (installHook env definition address source target d).2 := by
  have hnone : ∀ {p : InstalledHook → Prop} [DecidablePred p],
      ¬(d.session.installedHooks.any fun h => decide (p h)) = true →
      ∀ h ∈ d.session.installedHooks, ¬ p h := by
    intro p _ hany h hh hp
    exact hany (List.any_eq_true.mpr ⟨h, hh, decide_eq_true hp⟩)
  rw [installHook] at hok ⊢
  split at hok
  next => cases hok
  next hook hcall =>
    dsimp only
    exact .mk hmem (hnone hnew) hres (hnone hdistinct) (Prod.ext hcall rfl)

/-- **INSTALLATION RUN**: success is a run of admitted installations. -/
theorem tryInstallPendingHooks_run {env : Environment}
    {Q : Nat → DebugState → Prop} {hooks : List HookDefinition} {d : DebugState}
    (hQ : ∀ c ∈ hookFunctionCalls env hooks d, Q c.1 c.2)
    (hok : (tryInstallPendingHooks env hooks d).1 = true) :
    InstallRun env hooks Q d (tryInstallPendingHooks env hooks d).2 := by
  induction hooks generalizing d with
  | nil => exact .refl d
  | cons definition rest ih =>
      have hsub : ∀ x ∈ rest, x ∈ definition :: rest :=
        fun x hx => List.mem_cons_of_mem _ hx
      rw [tryInstallPendingHooks] at hok ⊢
      rw [hookFunctionCalls] at hQ
      split at hok
      next hin =>
        rw [if_pos hin] at hQ ⊢
        exact (ih hQ hok).mono hsub
      next hnew =>
        rw [if_neg hnew] at hQ ⊢
        split at hok
        next source hres =>
          simp only [hres] at hQ ⊢
          exact (ih hQ hok).mono hsub
        next => cases hok
        next address target source hres =>
          simp only [hres] at hQ ⊢
          split at hok
          next => cases hok
          next hdistinct =>
            rw [if_neg hdistinct] at hQ ⊢
            dsimp only at hok hQ ⊢
            split at hok
            next hinstalled =>
              rw [if_pos hinstalled] at hQ ⊢
              obtain ⟨hhead, htail⟩ := List.forall_mem_cons.mp hQ
              refine .step hhead ?_ ((ih htail hok).mono hsub)
              exact installHook_installs List.mem_cons_self hnew hres hdistinct
                hinstalled
            next => cases hok

/-- Installing changes neither the module list nor any other part of the
    session but the installed hooks, which it extends. -/
structure SameButHooks (s s' : Session) : Prop where
  eq : ∃ more, s' = { s with installedHooks := s.installedHooks ++ more }

theorem InstallRun.session {env : Environment} {hooks : List HookDefinition}
    {Q : Nat → DebugState → Prop} {d d' : DebugState}
    (hr : InstallRun env hooks Q d d') : SameButHooks d.session d'.session := by
  induction hr with
  | refl => exact ⟨⟨[], by rw [List.append_nil]⟩⟩
  | step _ hs _ ih =>
      cases hs with
      | mk =>
          obtain ⟨more, heq⟩ := ih.eq
          rw [heq]
          exact ⟨⟨_, by rw [List.append_assoc]⟩⟩

/-! ## The remote transport

    Configuring and starting the transport touch neither the hooks nor the
    patched functions. -/

@[simp] theorem writeRemoteExport_patched (env : Environment) (image : Nat)
    (name value : List UInt8) (t : Target) :
    (writeRemoteExport env image name value t).2.patched = t.patched := by
  rw [writeRemoteExport]
  split
  next => rfl
  next => exact write_patched _ _ _ _

@[simp] theorem writeRemoteExport_blocks (env : Environment) (image : Nat)
    (name value : List UInt8) (t : Target) :
    (writeRemoteExport env image name value t).2.blocks = t.blocks := by
  rw [writeRemoteExport]
  split
  next => rfl
  next => exact write_blocks _ _ _ _

@[simp] theorem writeRemoteExport_activeHookCalls (env : Environment) (image : Nat)
    (name value : List UInt8) (t : Target) :
    (writeRemoteExport env image name value t).2.activeHookCalls
      = t.activeHookCalls := by
  rw [writeRemoteExport]
  split
  next => rfl
  next => exact write_activeHookCalls _ _ _ _

/-- There are no exports to write at a null base. -/
theorem writeRemoteExport_base {env : Environment} {image : Nat}
    {name value : List UInt8} {t : Target}
    (h : (writeRemoteExport env image name value t).1 = true) : image ≠ 0 := by
  rintro rfl
  rw [writeRemoteExport, Environment.getRemoteExport, if_pos rfl] at h
  cases h

theorem createBypassTrampolineForFunction_some {env : Environment} {base : Nat}
    {name : List UInt8} {t : Target} {trampoline : RemoteTrampoline}
    (h : (createBypassTrampolineForFunction env base name t).1 = some trampoline) :
    (createBypassTrampolineForFunction env base name t).2.blocks
        = ⟨trampoline.address, trampolineSize⟩ :: t.blocks ∧
      (createBypassTrampolineForFunction env base name t).2.patched = t.patched ∧
      (createBypassTrampolineForFunction env base name t).2.activeHookCalls
        = t.activeHookCalls := by
  rw [createBypassTrampolineForFunction] at h ⊢
  split at h
  next => cases h
  next f hf =>
    obtain ⟨-, -, hb, hp, hc⟩ := createBypassTrampoline_some (Prod.ext h rfl)
    exact ⟨hb, hp, hc⟩

/-- What a successful `ConfigureTransport` leaves. -/
structure Configured (d d' : DebugState) : Prop where
  image : d.session.hookImageBase ≠ 0
  session : ∃ setEvent readMemory, d'.session = { d.session with
    setEventBypass := setEvent, readMemoryBypass := readMemory }
  blocks : ∀ b ∈ d.target.blocks, b ∈ d'.target.blocks
  patched : d'.target.patched = d.target.patched
  counter : d'.target.activeHookCalls = d.target.activeHookCalls

theorem configureTransport_true {env : Environment} {base : Nat} {d : DebugState}
    (h : (configureTransport env base d).1 = true) :
    Configured d (configureTransport env base d).2 := by
  rw [configureTransport] at h ⊢
  dsimp only at h ⊢
  split at h
  next => cases h
  next setEvent hset =>
    obtain ⟨hb, hp, hc⟩ := createBypassTrampolineForFunction_some hset
    split at h
    next => cases h
    next readMemory hread =>
      obtain ⟨hb', hp', hc'⟩ := createBypassTrampolineForFunction_some hread
      split at h
      next => cases h
      next hwrote =>
        rw [if_neg hwrote]
        refine ⟨writeRemoteExport_base h, ⟨_, _, rfl⟩, ?_, ?_, ?_⟩
        · intro b hmem
          simp only [writeRemoteExport_blocks, hb', hb]
          exact List.mem_cons_of_mem _ (List.mem_cons_of_mem _ hmem)
        · simp only [writeRemoteExport_patched, hp', hp]
        · simp only [writeRemoteExport_activeHookCalls, hc', hc]

/-- What the first `ntdll.dll` does, and any other module. -/
theorem configureOnce_true {env : Environment} {base : Nat} {name : List UInt8}
    {d : DebugState} (h : (configureOnce env base name d).1 = true) :
    (configureOnce env base name d).2 = d ∨
      (name = cstr "ntdll.dll" ∧ d.session.transportConfigured = false ∧
        ∃ d', Configured d d' ∧ (configureOnce env base name d).2 = { d' with
          session := { d'.session with transportConfigured := true } }) := by
  rw [configureOnce] at h ⊢
  split at h
  next hfirst =>
    rw [if_pos hfirst]
    dsimp only at h ⊢
    split at h
    next hok =>
      rw [if_pos hok]
      exact Or.inr ⟨hfirst.1, hfirst.2, _, configureTransport_true hok, rfl⟩
    next => cases h
  next hother =>
    rw [if_neg hother]
    exact Or.inl rfl

/-- What configuring the transport leaves of a session. -/
structure KeepsModules (d d' : DebugState) : Prop where
  modules : d'.session.modules = d.session.modules
  moduleGeneration : d'.session.moduleGeneration = d.session.moduleGeneration
  installedHooks : d'.session.installedHooks = d.session.installedHooks
  hookImageBase : d'.session.hookImageBase = d.session.hookImageBase
  hookImageSize : d'.session.hookImageSize = d.session.hookImageSize

theorem configureOnce_keeps {env : Environment} {base : Nat} {name : List UInt8}
    {d : DebugState} (h : (configureOnce env base name d).1 = true) :
    KeepsModules d (configureOnce env base name d).2 := by
  rcases configureOnce_true h with heq | ⟨-, -, d', hc, heq⟩
  · rw [heq]
    exact ⟨rfl, rfl, rfl, rfl, rfl⟩
  · obtain ⟨setEvent, readMemory, hs⟩ := hc.session
    rw [heq, hs]
    exact ⟨rfl, rfl, rfl, rfl, rfl⟩

/-- What a successful `Start` leaves. -/
structure Started (d d' : DebugState) : Prop where
  image : d.session.hookImageBase ≠ 0
  session : ∃ ring wake, d'.session = { d.session with
    remoteRing := ring, remoteWakeEvent := wake }
  blocks : ∀ b ∈ d.target.blocks, b ∈ d'.target.blocks
  patched : d'.target.patched = d.target.patched
  counter : d'.target.activeHookCalls = 0#32

theorem resetActiveHookCalls_true {env : Environment} {image : Nat} {t : Target}
    (h : (resetActiveHookCalls env image t).1 = true) :
    (resetActiveHookCalls env image t).2 = { t with activeHookCalls := 0#32 } := by
  rw [resetActiveHookCalls] at h ⊢
  split at h
  next => cases h
  next a ha =>
    split at h
    next hw => rw [if_pos hw]
    next => cases h

theorem traceStart_true {env : Environment} {d : DebugState}
    (h : (traceStart env d).1 = true) : Started d (traceStart env d).2 := by
  rw [traceStart] at h ⊢
  split at h
  next => cases h
  next hout =>
    rw [if_neg hout]
    split at h
    next => cases h
    next ring wake hring =>
      dsimp only at h ⊢
      split at h
      next => cases h
      next hwroteRing =>
        rw [if_neg hwroteRing]
        split at h
        next => cases h
        next hwroteWake =>
          rw [if_neg hwroteWake]
          split at h
          next => cases h
          next hreset =>
            rw [if_neg hreset, resetActiveHookCalls_true (Bool.not_eq_false _ ▸ hreset)]
            have hwrote := Bool.not_eq_false _ ▸ hwroteRing
            refine ⟨writeRemoteExport_base hwrote, ⟨_, _, rfl⟩, ?_, ?_, rfl⟩
            · intro b hmem
              simp only [writeRemoteExport_blocks, map_blocks]
              exact List.mem_cons_of_mem _ hmem
            · simp only [writeRemoteExport_patched, map_patched]

/-- What a successful `InitializeDebuggee` leaves. -/
structure Initialized (d d' : DebugState) : Prop where
  image : d'.session.hookImageBase ≠ 0
  session : ∃ base size ring wake, d'.session = { d.session with
    hookImageBase := base
    hookImageSize := size
    remoteRing := ring
    remoteWakeEvent := wake }
  blocks : ∀ b ∈ d.target.blocks, b ∈ d'.target.blocks
  patched : d'.target.patched = d.target.patched
  counter : d'.target.activeHookCalls = 0#32

theorem initializeDebuggee_true {env : Environment} {d : DebugState}
    (h : (initializeDebuggee env d).1 = true) :
    Initialized d (initializeDebuggee env d).2 := by
  rw [initializeDebuggee] at h ⊢
  split at h
  next => cases h
  next hkill =>
    rw [if_neg hkill]
    split at h
    next => cases h
    next image himage =>
      dsimp only at h ⊢
      generalize (if env.readImageSize = true then image.size else 0) = size at h ⊢
      by_cases hsize : size = 0
      · rw [if_pos hsize] at h
        cases h
      · rw [if_neg hsize] at h ⊢
        obtain ⟨hbase, ⟨ring, wake, hsession⟩, hblocks, hpatched, hcounter⟩ :=
          traceStart_true h
        refine ⟨?_, ⟨image.base, size, ring, wake, ?_⟩, ?_, hpatched, hcounter⟩
        · rw [hsession]
          exact hbase
        · rw [hsession]
        · intro b hb
          exact hblocks b (List.mem_cons_of_mem _ hb)

/-- **REGISTRATION**: a module that is registered without an error is
    ignored, or recorded, the transport configured if it is the first
    `ntdll.dll`, and the pending hooks installed once it is configured. -/
theorem registerModule_true {env : Environment} {hooks : List HookDefinition}
    {base : Nat} {path : List UInt16} {d : DebugState}
    {Q : Nat → DebugState → Prop}
    (hQ : ∀ c ∈ hookFunctionCalls env hooks
      (configureOnce env base (registeredName env base path)
        (recordModule base path (registeredName env base path) d)).2, Q c.1 c.2)
    (h : (registerModule env hooks base path d).1 = true) :
    (registeredName env base path = [] ∧
        (registerModule env hooks base path d).2 = d) ∨
      (registeredName env base path ≠ [] ∧
        (configureOnce env base (registeredName env base path)
          (recordModule base path (registeredName env base path) d)).1 = true ∧
        let d₁ := (configureOnce env base (registeredName env base path)
          (recordModule base path (registeredName env base path) d)).2
        (d₁.session.transportConfigured = false ∧
            (registerModule env hooks base path d).2 = d₁) ∨
          (d₁.session.transportConfigured = true ∧
            (tryInstallPendingHooks env hooks d₁).1 = true ∧
            (registerModule env hooks base path d).2
              = (tryInstallPendingHooks env hooks d₁).2 ∧
            InstallRun env hooks Q d₁ (registerModule env hooks base path d).2)) := by
  rw [registerModule] at h ⊢
  dsimp only at h ⊢
  split at h
  next hname =>
    rw [if_pos hname]
    exact Or.inl ⟨hname, rfl⟩
  next hname =>
    rw [if_neg hname]
    refine Or.inr ⟨hname, ?_⟩
    split at h
    next => cases h
    next hconf =>
      have hconf' := Bool.not_eq_false _ ▸ hconf
      rw [if_neg hconf]
      refine ⟨hconf', ?_⟩
      split at h
      next hready =>
        rw [if_pos hready]
        exact Or.inr ⟨hready, h, rfl, tryInstallPendingHooks_run hQ h⟩
      next hready =>
        rw [if_neg hready]
        exact Or.inl ⟨Bool.eq_false_iff.mpr hready, rfl⟩

/-- The first process event maps the image, and then registers its module. -/
theorem handleCreateProcess_true {env : Environment} {hooks : List HookDefinition}
    {base : Nat} {path : List UInt16} {d : DebugState}
    (h : (handleCreateProcess env hooks base path d).1 = true) :
    ∃ d₁, (d₁ = d ∨ (d.session.hookImageBase = 0 ∧ Initialized d d₁)) ∧
      (registerModule env hooks base path d₁).1 = true ∧
      (handleCreateProcess env hooks base path d).2
        = (registerModule env hooks base path d₁).2 := by
  rw [handleCreateProcess] at h ⊢
  split at h
  next hzero =>
    rw [if_pos hzero]
    dsimp only at h ⊢
    split at h
    next hinit =>
      rw [if_pos hinit]
      exact ⟨_, Or.inr ⟨hzero, initializeDebuggee_true hinit⟩, h, rfl⟩
    next => cases h
  next hmapped =>
    rw [if_neg hmapped]
    exact ⟨d, Or.inl rfl, h, rfl⟩

end ScopeDebug
