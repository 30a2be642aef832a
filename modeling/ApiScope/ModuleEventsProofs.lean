import ApiScope.QuiescenceProofs

/-! # Module events — what the installed hooks have to do with the modules

    Create-process, load and unload events change three things: the module
    list with its generations, the installed hooks, and whether the transport
    is configured.  Module names, bases and export tables are whatever the
    system answers; a base may be taken again at any time.  Between two events
    the target runs, and may write wherever it likes.

    A session processes such events until one ends with an error.  Up to then
    every record of an installed hook speaks about loaded modules. -/

namespace ScopeModules

open ScopeBytes ScopeProtocol ScopeHook ScopeDebug ScopeTransition ScopeQuiescence

/-- The debug events that change the module list. -/
inductive ModuleEvent where
  | createProcess (base : Nat) (path : List UInt16)
  | loadDll (base : Nat) (path : List UInt16)
  | unloadDll (base : Nat)

def ModuleEvent.debugEvent : ModuleEvent → DebugEvent
  | .createProcess base path => .createProcess base path
  | .loadDll base path => .loadDll base path
  | .unloadDll base => .unloadDll base

inductive SessionAction where
  /-- An event, handled with these answers of the system. -/
  | event (env : Environment) (e : ModuleEvent)
  /-- The target runs; no patch of the controller comes in. -/
  | targetRuns (t : Target)

variable (options : List HookDefinition)

/-- An event ends the runs of this file where it ends with an error. -/
def sessionStep (d : DebugState) : SessionAction → Option DebugState
  | .event env e =>
      let r := dispatchEvent env options d e.debugEvent
      if r.eventOk then some r.state else none
  | .targetRuns t =>
      if ∀ f ∈ t.patched, f ∈ d.target.patched then some { d with target := t } else none

/-- A session that begins, launched or attached. -/
def NewSession (d : DebugState) : Prop :=
  (∃ processId, d.session = newSession processId) ∧ d.target.patched = []

def sessionSystem : System DebugState SessionAction where
  init := NewSession
  step := sessionStep options

/-! ## The invariant -/

/-- A base that is a key of `modules_`. -/
def Loaded (modules : List ModuleRecord) (base : Nat) : Prop :=
  ∃ m ∈ modules, m.base = base

/-- What holds of the installed hooks. -/
structure HooksOk (d : DebugState) : Prop where
  names : (d.session.installedHooks.map InstalledHook.canonicalName).Nodup
  selected : ∀ h ∈ d.session.installedHooks,
    h.canonicalName ∈ options.map HookDefinition.canonicalName
  functions : (d.session.installedHooks.map InstalledHook.originalFunction).Nodup
  source : ∀ h ∈ d.session.installedHooks, Loaded d.session.modules h.sourceModuleBase
  target : ∀ h ∈ d.session.installedHooks, Loaded d.session.modules h.targetModuleBase

/-- A successful call of `ConfigureTransport`: the answers of the system, the
    base, and the state before it. -/
structure ConfigureCall where
  env : Environment
  base : Nat
  before : DebugState

/-- The state that the call leaves; its caller sets the flag. -/
def ConfigureCall.after (c : ConfigureCall) : DebugState :=
  let d := (configureTransport c.env c.base c.before).2
  { d with session := { d.session with transportConfigured := true } }

/-- The two bypasses that the session uses. -/
def bypasses (d : DebugState) : Nat × Nat :=
  (d.session.setEventBypass, d.session.readMemoryBypass)

variable {options}

/-! ## Modules that resolution finds -/

/-- One record of `FindModule`'s loop. -/
def newer (name : List UInt8) (newest : Option ModuleRecord) (m : ModuleRecord) :
    Option ModuleRecord :=
  if m.name = name ∧ newest.all (·.generation < m.generation) then some m else newest

/-- The loop holds what it held, or a record of that name; and something once
    it has passed one. -/
theorem foldl_newer (name : List UInt8) (rest : List ModuleRecord)
    (newest : Option ModuleRecord) :
    (∀ m ∈ rest.foldl (newer name) newest, m ∈ newest ∨ m ∈ rest ∧ m.name = name) ∧
      (rest.foldl (newer name) newest = none →
        newest = none ∧ ∀ m ∈ rest, m.name ≠ name) := by
  induction rest generalizing newest with
  | nil => exact ⟨fun m hm => Or.inl hm, fun h => ⟨h, nofun⟩⟩
  | cons r rest ih =>
      obtain ⟨hsome, hnone⟩ := ih (newer name newest r)
      rw [List.foldl_cons]
      constructor
      · intro m hm
        rcases hsome m hm with hr | ⟨hrest, hname⟩
        · unfold newer at hr
          split at hr
          · rename_i hnew
            cases Option.mem_some.mp hr
            exact Or.inr ⟨List.mem_cons_self, hnew.1⟩
          · exact Or.inl hr
        · exact Or.inr ⟨List.mem_cons_of_mem _ hrest, hname⟩
      · intro h
        obtain ⟨hr, hrest⟩ := hnone h
        unfold newer at hr
        split at hr
        · cases hr
        · rename_i hold
          refine ⟨hr, List.forall_mem_cons.mpr ⟨fun hname => hold ⟨hname, ?_⟩, hrest⟩⟩
          rw [hr]
          rfl

/-- `FindModule` finds a record of that name. -/
theorem findModule_some {modules : List ModuleRecord} {name : List UInt8}
    {m : ModuleRecord} (h : findModule modules name = some m) :
    m ∈ modules ∧ m.name = name := by
  rcases (foldl_newer name modules none).1 m h with hm | hm
  · cases hm
  · exact hm

/-- `FindModule` fails where no record has the name. -/
theorem findModule_none {modules : List ModuleRecord} {name : List UInt8}
    (h : findModule modules name = none) : ∀ m ∈ modules, m.name ≠ name :=
  ((foldl_newer name modules none).2 h).2

/-- A resolved export lies in a loaded module. -/
theorem resolveExportAddress_target {env : Environment} {modules : List ModuleRecord}
    {hops : Nat} {visited : List (List UInt8)} {moduleName exportName : List UInt8}
    {address target : Nat}
    (h : resolveExportAddress env modules hops visited moduleName exportName
      = .resolved address target) : Loaded modules target := by
  induction hops generalizing visited moduleName exportName with
  | zero => cases h
  | succ hops ih =>
      rw [resolveExportAddress] at h
      split at h
      next => cases h
      next =>
        split at h
        next => cases h
        next module hmodule =>
          split at h
          next => cases h
          next =>
            split at h
            next =>
              obtain ⟨-, rfl⟩ := ResolveResult.resolved.inj h
              exact ⟨module, (findModule_some hmodule).1, rfl⟩
            next =>
              split at h
              next => cases h
              next => exact ih h

theorem resolveHookAddress_loaded {env : Environment} {modules : List ModuleRecord}
    {definition : HookDefinition} {address target source : Nat}
    (h : resolveHookAddress env modules definition = (.resolved address target, source)) :
    Loaded modules source ∧ Loaded modules target := by
  rw [resolveHookAddress] at h
  split at h
  next => cases h
  next m hm =>
    obtain ⟨htarget, rfl⟩ := Prod.mk.inj h
    exact ⟨⟨m, (findModule_some hm).1, rfl⟩, resolveExportAddress_target htarget⟩

/-! ## What each step keeps -/

/-- One installation adds a record for a new name at a new address. -/
theorem HooksOk.installs {env : Environment} {d d' : DebugState} {address : Nat}
    (h : HooksOk options d) (hs : Installs env options d address d') :
    HooksOk options d' := by
  cases hs with
  | @mk definition source target hook t' hmem hnew hres hdistinct hcall =>
      obtain ⟨hhooked, hname⟩ := hookFunction_some hcall
      obtain ⟨hsource, htarget⟩ := resolveHookAddress_loaded hres
      -- names and functions are kept apart by the same argument
      have hnodup : ∀ {β : Type} (f : InstalledHook → β),
          (d.session.installedHooks.map f).Nodup →
          (∀ g ∈ d.session.installedHooks,
            f g ≠ f (InstalledHook.located hook source target)) →
          ((d.session.installedHooks
            ++ [InstalledHook.located hook source target]).map f).Nodup := by
        intro β f hold hfresh
        rw [List.map_append, List.map_singleton]
        refine List.nodup_append.mpr ⟨hold, List.pairwise_singleton _ _, ?_⟩
        intro a ha b hb
        obtain ⟨g, hg, rfl⟩ := List.mem_map.mp ha
        rw [List.mem_singleton.mp hb]
        exact hfresh g hg
      refine ⟨hnodup _ h.names ?_, ?_, hnodup _ h.functions ?_, ?_, ?_⟩
      · intro g hg
        show g.canonicalName ≠ hook.canonicalName
        rw [hname]
        exact hnew g hg
      · intro g hg
        rcases List.mem_append.mp hg with hg | hg
        · exact h.selected g hg
        · rw [List.mem_singleton.mp hg]
          show hook.canonicalName ∈ _
          rw [hname]
          exact List.mem_map_of_mem hmem
      · intro g hg
        show g.originalFunction ≠ hook.originalFunction
        rw [hhooked.function]
        exact hdistinct g hg
      · intro g hg
        rcases List.mem_append.mp hg with hg | hg
        · exact h.source g hg
        · rw [List.mem_singleton.mp hg]
          exact hsource
      · intro g hg
        rcases List.mem_append.mp hg with hg | hg
        · exact h.target g hg
        · rw [List.mem_singleton.mp hg]
          exact htarget

/-- Recording a module loads its base and unloads none. -/
theorem loaded_recordModule {d : DebugState} {base : Nat} {path : List UInt16}
    {name : List UInt8} {b : Nat} (h : Loaded d.session.modules b) :
    Loaded (recordModule base path name d).session.modules b := by
  obtain ⟨m, hm, rfl⟩ := h
  by_cases hb : m.base = base
  · exact ⟨_, List.mem_cons_self, hb.symm⟩
  · exact ⟨m, List.mem_cons_of_mem _ (List.mem_filter.mpr ⟨hm, decide_eq_true hb⟩), rfl⟩

/-- What the hooks have to do with the session is said by two of its members. -/
theorem HooksOk.congr {d d' : DebugState} (h : HooksOk options d)
    (hhooks : d'.session.installedHooks = d.session.installedHooks)
    (hmodules : ∀ b, Loaded d.session.modules b → Loaded d'.session.modules b) :
    HooksOk options d' where
  names := hhooks ▸ h.names
  selected g hg := h.selected g (hhooks ▸ hg)
  functions := hhooks ▸ h.functions
  source g hg := hmodules _ (h.source g (hhooks ▸ hg))
  target g hg := hmodules _ (h.target g (hhooks ▸ hg))

/-- An unload drops the records that speak about the module. -/
theorem HooksOk.unload {d : DebugState} (h : HooksOk options d) (env : Environment)
    (base : Nat) : HooksOk options (handleUnloadDll env base d) := by
  have hkept := releaseHooks_hooks env base d.session.installedHooks d.target
  have hsub : ((handleUnloadDll env base d).session.installedHooks).Sublist
      d.session.installedHooks := by
    show ((releaseHooks env base d.session.installedHooks d.target).1).Sublist _
    rw [hkept]
    exact List.filter_sublist
  have hstay : ∀ g ∈ (handleUnloadDll env base d).session.installedHooks,
      g.targetModuleBase ≠ base ∧ g.sourceModuleBase ≠ base := by
    intro g hg
    have hg' : g ∈ (releaseHooks env base d.session.installedHooks d.target).1 := hg
    rw [hkept] at hg'
    exact of_decide_eq_true (List.mem_filter.mp hg').2
  have hloaded : ∀ b, b ≠ base → Loaded d.session.modules b →
      Loaded (handleUnloadDll env base d).session.modules b := by
    rintro b hb ⟨m, hm, rfl⟩
    exact ⟨m, List.mem_filter.mpr ⟨hm, decide_eq_true hb⟩, rfl⟩
  refine ⟨h.names.sublist (hsub.map _), fun g hg => h.selected g (hsub.mem hg),
    h.functions.sublist (hsub.map _), fun g hg => ?_, fun g hg => ?_⟩
  · exact hloaded _ (hstay g hg).2 (h.source g (hsub.mem hg))
  · exact hloaded _ (hstay g hg).1 (h.target g (hsub.mem hg))

/-- An installation touches neither the modules nor the transport. -/
theorem installRun_session {env : Environment} {Q : Nat → DebugState → Prop}
    {d d' : DebugState} (hr : InstallRun env options Q d d') :
    d'.session.modules = d.session.modules ∧
      d'.session.transportConfigured = d.session.transportConfigured := by
  obtain ⟨more, heq⟩ := hr.session.eq
  rw [heq]
  exact ⟨rfl, rfl⟩

/-- The first `ntdll.dll` configures the transport. -/
theorem configureOnce_first {env : Environment} {base : Nat} {name : List UInt8}
    {d : DebugState}
    (hfirst : name = cstr "ntdll.dll" ∧ d.session.transportConfigured = false)
    (h : (configureOnce env base name d).1 = true) :
    ∃ d', Configured d d' ∧ (configureOnce env base name d).2
      = { d' with session := { d'.session with transportConfigured := true } } := by
  rw [configureOnce, if_pos hfirst] at h ⊢
  dsimp only at h ⊢
  split at h
  next hok =>
    rw [if_pos hok]
    exact ⟨_, configureTransport_true hok, rfl⟩
  next => cases h

theorem configureOnce_other {env : Environment} {base : Nat} {name : List UInt8}
    {d : DebugState}
    (hother : ¬(name = cstr "ntdll.dll" ∧ d.session.transportConfigured = false)) :
    (configureOnce env base name d).2 = d := by
  rw [configureOnce, if_neg hother]

/-- A step that leaves the transport as it is. -/
structure KeepsTransport (d d' : DebugState) : Prop where
  flag : d'.session.transportConfigured = d.session.transportConfigured
  bypasses : bypasses d' = bypasses d
  unconfigured : d.session.transportConfigured = false →
    d'.session.installedHooks = d.session.installedHooks ∧
      (d.target.patched = [] → d'.target.patched = [])

theorem KeepsTransport.refl (d : DebugState) : KeepsTransport d d :=
  ⟨rfl, rfl, fun _ => ⟨rfl, id⟩⟩

theorem KeepsTransport.trans {a b c : DebugState} (hab : KeepsTransport a b)
    (hbc : KeepsTransport b c) : KeepsTransport a c where
  flag := hbc.flag.trans hab.flag
  bypasses := hbc.bypasses.trans hab.bypasses
  unconfigured hun := by
    obtain ⟨hhooks, hpatched⟩ := hab.unconfigured hun
    obtain ⟨hhooks', hpatched'⟩ := hbc.unconfigured (hab.flag.trans hun)
    exact ⟨hhooks'.trans hhooks, fun hnil => hpatched' (hpatched hnil)⟩

theorem sampleSession_new : NewSession sampleWorld.d := ⟨⟨1, rfl⟩, rfl⟩

end ScopeModules
