import ApiScope.ResolutionProofs
import Mathlib.Data.List.Nodup

/-! # Retries — which events install what has become resolvable

    A hook is pending until its export resolves.  Every load asks again, since
    `RegisterModule` ends with `TryInstallPendingHooks`.  An unload can make a
    hook resolvable, too: the record of a hook goes with the module, and an
    older module of the same name may take the module's place.
    `HandleUnloadDll` does not ask.

    Several modules may have one name; the newest is the one it denotes.  The
    state remembers the answers of the last event, in which the exports of the
    modules that stay loaded are those of the event before. -/

namespace ScopeRetry

open ScopeBytes ScopeProtocol ScopeHook ScopeDebug ScopeTransition ScopeQuiescence
  ScopeModules ScopeResolution

variable (options : List HookDefinition)

/-- The answers that hold after an action. -/
def answers (p : DebugState × Environment) : SessionAction → Environment
  | .event env _ => env
  | .targetRuns _ => p.2

def retrySystem : System (DebugState × Environment) SessionAction where
  init p := NewSession p.1
  step p a := (sessionStep options p.1 a).map fun d => (d, answers p a)

/-- The records that an event leaves in `modules_`. -/
def keptModules (env : Environment) (d : DebugState) : ModuleEvent → List ModuleRecord
  | .createProcess base path | .loadDll base path =>
      if registeredName env base path = [] then d.session.modules
      else d.session.modules.filter (·.base ≠ base)
  | .unloadDll base => d.session.modules.filter (·.base ≠ base)

/-- A module has one export table as long as it is loaded. -/
def KeepsExports (p : DebugState × Environment) : SessionAction → Prop
  | .event env e => ∀ m ∈ keptModules env p.1 e, ∀ name,
      env.getRemoteExport m.base name = p.2.getRemoteExport m.base name
  | .targetRuns _ => True

/-- Every selected hook that resolves is installed. -/
def Settled (p : DebugState × Environment) : Prop :=
  p.1.session.transportConfigured = true → ∀ definition ∈ options,
    resolves p.2 p.1.session.modules definition = true →
    Named p.1.session.installedHooks definition.canonicalName

/-- The module at `base` stands before an older one of its name. -/
def Hides (modules : List ModuleRecord) (base : Nat) : Prop :=
  ∃ m ∈ modules, m.base = base ∧ ∃ m' ∈ modules, m'.base ≠ base ∧ m'.name = m.name ∧
    m'.generation < m.generation

/-- The hooks that may want another module when the one at `base` goes: those
    whose record goes with it, and those without one if it hides another. -/
def Loses (d : DebugState) (base : Nat) (name : List UInt8) : Prop :=
  (∃ h ∈ d.session.installedHooks, h.canonicalName = name ∧
      (h.targetModuleBase = base ∨ h.sourceModuleBase = base)) ∨
    (¬Named d.session.installedHooks name ∧ Hides d.session.modules base)

/-- No such hook resolves on the modules that stay. -/
def QuietUnload (p : DebugState × Environment) : SessionAction → Prop
  | .event env (.unloadDll base) => p.1.session.transportConfigured = true →
      ∀ definition ∈ options, Loses p.1 base definition.canonicalName →
        resolves env (p.1.session.modules.filter (·.base ≠ base)) definition = false
  | _ => True

variable {options}

/-! ## Generations -/

/-- The loop of `FindModule` holds the newest. -/
theorem foldl_newer_le (name : List UInt8) (rest : List ModuleRecord)
    (newest : Option ModuleRecord) :
    ∀ m ∈ rest.foldl (newer name) newest,
      (∀ r ∈ newest, r.generation ≤ m.generation) ∧
        ∀ r ∈ rest, r.name = name → r.generation ≤ m.generation := by
  induction rest generalizing newest with
  | nil =>
      intro m hm
      refine ⟨fun r hr => ?_, nofun⟩
      rw [Option.mem_unique hm hr]
  | cons first rest ih =>
      intro m hm
      obtain ⟨hold, hrest⟩ := ih _ m hm
      have hstep : (∀ r ∈ newest, ∃ s ∈ newer name newest first,
          r.generation ≤ s.generation) ∧
          (first.name = name → ∃ s ∈ newer name newest first,
            first.generation ≤ s.generation) := by
        unfold newer
        split
        · rename_i hnew
          refine ⟨fun r hr => ⟨first, rfl, ?_⟩, fun _ => ⟨first, rfl, Nat.le_refl _⟩⟩
          have hall := hnew.2
          rw [Option.mem_def.mp hr, Option.all_some] at hall
          exact Nat.le_of_lt (of_decide_eq_true hall)
        · rename_i hnew
          refine ⟨fun r hr => ⟨r, hr, Nat.le_refl _⟩, fun hname => ?_⟩
          cases newest with
          | none => exact absurd ⟨hname, rfl⟩ hnew
          | some r =>
              refine ⟨r, rfl, Nat.le_of_not_lt fun hlt => hnew ⟨hname, ?_⟩⟩
              rw [Option.all_some]
              exact decide_eq_true hlt
      refine ⟨fun r hr => ?_, List.forall_mem_cons.mpr ⟨fun hname => ?_, hrest⟩⟩
      · obtain ⟨s, hs, hle⟩ := hstep.1 r hr
        exact Nat.le_trans hle (hold s hs)
      · obtain ⟨s, hs, hle⟩ := hstep.2 hname
        exact Nat.le_trans hle (hold s hs)

/-- No two records have one generation, and none has a coming one. -/
structure GensOk (d : DebugState) : Prop where
  bound : ∀ m ∈ d.session.modules, m.generation ≤ d.session.moduleGeneration
  inj : ∀ m ∈ d.session.modules, ∀ m' ∈ d.session.modules,
    m.generation = m'.generation → m = m'

/-- `FindModule` finds the newest record of the name. -/
theorem findModule_of_newest {modules : List ModuleRecord} {name : List UInt8}
    {m : ModuleRecord}
    (hinj : ∀ m ∈ modules, ∀ m' ∈ modules, m.generation = m'.generation → m = m')
    (hm : m ∈ modules) (hname : m.name = name)
    (hnewest : ∀ r ∈ modules, r.name = name → r.generation ≤ m.generation) :
    findModule modules name = some m := by
  cases hfind : findModule modules name with
  | none => exact absurd hname (findModule_none hfind m hm)
  | some r =>
      obtain ⟨hr, hrname⟩ := findModule_some hfind
      have hle := (foldl_newer_le name modules none r hfind).2 m hm hname
      rw [hinj r hr m hm (Nat.le_antisymm (hnewest r hr hrname) hle)]

/-- What a name denotes without the module at `base` it denotes with it, if
    that module hides no other. -/
theorem findModule_filter {d : DebugState} (hgens : GensOk d) {base : Nat}
    (hhides : ¬Hides d.session.modules base) {name : List UInt8} {m : ModuleRecord}
    (h : findModule (d.session.modules.filter (·.base ≠ base)) name = some m) :
    findModule d.session.modules name = some m := by
  obtain ⟨hmem, hname⟩ := findModule_some h
  obtain ⟨hm, hbase⟩ := List.mem_filter.mp hmem
  refine findModule_of_newest hgens.inj hm hname fun r hr hrname => ?_
  by_cases hrbase : r.base = base
  · refine Nat.le_of_not_lt fun hlt => hhides ⟨r, hr, hrbase, m, hm, ?_, ?_, hlt⟩
    · exact of_decide_eq_true hbase
    · rw [hname, hrname]
  · exact (foldl_newer_le name _ none m h).2 r
      (List.mem_filter.mpr ⟨hr, decide_eq_true hrbase⟩) hrname

/-! ## Unloads -/

/-- The hooks that keep their record through an unload. -/
theorem named_unload {env : Environment} {d : DebugState} {base : Nat} {h : InstalledHook}
    (hh : h ∈ d.session.installedHooks)
    (hkept : h.targetModuleBase ≠ base ∧ h.sourceModuleBase ≠ base) :
    Named (handleUnloadDll env base d).session.installedHooks h.canonicalName := by
  refine ⟨h, ?_, rfl⟩
  rw [handleUnloadDll, releaseHooks_hooks]
  exact List.mem_filter.mpr ⟨hh, decide_eq_true hkept⟩

/-- An unload that leaves nothing to retry. -/
theorem settled_unload {p : DebugState × Environment} {env : Environment} {base : Nat}
    (hgens : GensOk p.1) (h : Settled options p)
    (hexports : KeepsExports p (.event env (.unloadDll base)))
    (hquiet : QuietUnload options p (.event env (.unloadDll base))) :
    Settled options (handleUnloadDll env base p.1, env) := by
  intro hconf definition hmem hres
  by_cases hnamed : Named p.1.session.installedHooks definition.canonicalName
  · obtain ⟨g, hg, hname⟩ := hnamed
    by_cases hkept : g.targetModuleBase ≠ base ∧ g.sourceModuleBase ≠ base
    · rw [← hname]
      exact named_unload hg hkept
    · have hlost : g.targetModuleBase = base ∨ g.sourceModuleBase = base := by
        by_contra hno
        obtain ⟨h1, h2⟩ := not_or.mp hno
        exact hkept ⟨h1, h2⟩
      have hquiet' := hquiet hconf definition hmem (Or.inl ⟨g, hg, hname, hlost⟩)
      exact absurd (hres.symm.trans hquiet') Bool.false_ne_true.symm
  · by_cases hhides : Hides p.1.session.modules base
    · have hquiet' := hquiet hconf definition hmem (Or.inr ⟨hnamed, hhides⟩)
      exact absurd (hres.symm.trans hquiet') Bool.false_ne_true.symm
    · -- what resolves now has resolved before, and then it was installed
      refine absurd (h hconf definition hmem (resolves_extends ?_ hres)) hnamed
      intro name m hfind
      have hm := (findModule_some hfind).1
      exact ⟨m, findModule_filter hgens hhides hfind, rfl,
        fun e => (hexports m hm e).symm⟩

/-- Nothing else is to be asked of an unload: where it leaves the hooks
    settled, no hook that loses a module resolves. -/
theorem quietUnload_of_settled {p : DebugState × Environment} {env : Environment}
    {base : Nat} (hhooks : HooksOk options p.1)
    (h : Settled options (handleUnloadDll env base p.1, env)) :
    QuietUnload options p (.event env (.unloadDll base)) := by
  intro hconf definition hmem hloses
  rw [Bool.eq_false_iff]
  intro hres
  obtain ⟨g, hg, hname⟩ := h hconf definition hmem hres
  have hg' : g ∈ (releaseHooks env base p.1.session.installedHooks p.1.target).1 := hg
  rw [releaseHooks_hooks] at hg'
  obtain ⟨hold, hkept⟩ := List.mem_filter.mp hg'
  rcases hloses with ⟨g', hg'', hname', hlost⟩ | ⟨hnone, -⟩
  · have heq : g' = g := List.inj_on_of_nodup_map hhooks.names hg'' hold
      (hname'.trans hname.symm)
    obtain ⟨h1, h2⟩ := of_decide_eq_true hkept
    rw [heq] at hlost
    rcases hlost with hlost | hlost
    · exact h1 hlost
    · exact h2 hlost
  · exact hnone ⟨g, hold, hname⟩

/-! ## Loads -/

/-- Exports that stay as they are change no answer. -/
theorem extends_of_exports {env env' : Environment} {modules : List ModuleRecord}
    (h : ∀ m ∈ modules, ∀ name,
      env'.getRemoteExport m.base name = env.getRemoteExport m.base name) :
    Extends env env' modules modules :=
  fun _ m hfind => ⟨m, hfind, rfl, h m (findModule_some hfind).1⟩

/-- The modules after a registration. -/
theorem registerModule_modules {env : Environment} {base : Nat} {path : List UInt16}
    {d : DebugState} (hok : (registerModule env options base path d).1 = true) :
    ((registerModule env options base path d).2 = d) ∨
      ((registerModule env options base path d).2.session.modules
          = (recordModule base path (registeredName env base path) d).session.modules ∧
        (registerModule env options base path d).2.session.moduleGeneration
          = d.session.moduleGeneration + 1) := by
  rcases registerModule_true (Q := fun _ _ => True) (fun _ _ => trivial) hok with
    ⟨-, heq⟩ | ⟨-, hconf, hcase⟩
  · exact Or.inl heq
  · have hmodules := (configureOnce_keeps hconf).modules
    have hgeneration := (configureOnce_keeps hconf).moduleGeneration
    refine Or.inr ?_
    rcases hcase with ⟨-, heq⟩ | ⟨-, -, -, hrun⟩
    · rw [heq]
      exact ⟨hmodules, hgeneration⟩
    · obtain ⟨more, hs⟩ := hrun.session.eq
      rw [hs]
      exact ⟨hmodules, hgeneration⟩

theorem gensOk_registerModule {env : Environment} {base : Nat} {path : List UInt16}
    {d : DebugState} (h : GensOk d)
    (hok : (registerModule env options base path d).1 = true) :
    GensOk (registerModule env options base path d).2 := by
  rcases registerModule_modules hok with heq | ⟨hmodules, hgeneration⟩
  · rw [heq]
    exact h
  · have hold : ∀ m ∈ d.session.modules.filter (·.base ≠ base),
        m ∈ d.session.modules ∧ m.generation ≤ d.session.moduleGeneration :=
      fun m hm => ⟨List.mem_of_mem_filter hm, h.bound m (List.mem_of_mem_filter hm)⟩
    constructor
    · rw [hmodules, hgeneration]
      refine List.forall_mem_cons.mpr ⟨Nat.le_refl _, fun m hm => ?_⟩
      exact Nat.le_succ_of_le (hold m hm).2
    · rw [hmodules]
      intro m hm m' hm' heq
      rcases List.mem_cons.mp hm with rfl | hm <;> rcases List.mem_cons.mp hm' with rfl | hm'
      · rfl
      · exact absurd heq (Nat.ne_of_gt (Nat.lt_succ_of_le (hold m' hm').2))
      · exact absurd heq (Nat.ne_of_lt (Nat.lt_succ_of_le (hold m hm).2))
      · exact h.inj m (hold m hm).1 m' (hold m' hm').1 heq

/-- **RETRY**: a registration asks for every hook that has no record. -/
theorem settled_registerModule {p : DebugState × Environment} {env : Environment}
    {base : Nat} {path : List UInt16} (h : Settled options p)
    (hexports : KeepsExports p (.event env (.loadDll base path)))
    (hok : (registerModule env options base path p.1).1 = true) :
    Settled options ((registerModule env options base path p.1).2, env) := by
  rcases registerModule_true (Q := fun _ _ => True) (fun _ _ => trivial) hok with
    ⟨hname, heq⟩ | ⟨-, hconf, hcase⟩
  · -- a module without a name changes nothing
    rw [KeepsExports, keptModules, if_pos hname] at hexports
    rw [heq]
    intro hready definition hmem hres
    exact h hready definition hmem
      (resolves_extends (extends_of_exports fun m hm e => (hexports m hm e).symm) hres)
  · rcases hcase with ⟨hunready, heq⟩ | ⟨-, hinstall, heq, hrun⟩
    · rw [heq]
      intro hready
      exact absurd (hready.symm.trans hunready) Bool.false_ne_true.symm
    · have hmodules := (installRun_session hrun).1
      intro _ definition hmem hres
      obtain ⟨address, target, source, hanswer⟩ := resolves_iff.mp hres
      show Named (registerModule env options base path p.1).2.session.installedHooks _
      rw [heq]
      rcases tryInstallPendingHooks_settles hinstall definition hmem with hnamed | hpending
      · exact hnamed
      · rw [← hmodules] at hpending
        have hanswer' := congrArg Prod.fst hanswer
        exact absurd (hpending.symm.trans hanswer') nofun

theorem initialized_same {d d' : DebugState} (hd : Initialized d d') :
    d'.session.modules = d.session.modules ∧
      d'.session.moduleGeneration = d.session.moduleGeneration ∧
      d'.session.installedHooks = d.session.installedHooks ∧
      d'.session.transportConfigured = d.session.transportConfigured := by
  obtain ⟨base, size, ring, wake, hs⟩ := hd.session
  rw [hs]
  exact ⟨rfl, rfl, rfl, rfl⟩

/-! ## Runs -/

variable (options) in
/-- What holds of a run's states. -/
structure RetryOk (p : DebugState × Environment) : Prop where
  gens : GensOk p.1
  settled : Settled options p

/-- One load, of the first module or a later one. -/
theorem retryOk_registerModule {p : DebugState × Environment} {env : Environment}
    {base : Nat} {path : List UInt16} (h : RetryOk options p)
    (hexports : KeepsExports p (.event env (.loadDll base path)))
    (hok : (registerModule env options base path p.1).1 = true) :
    RetryOk options ((registerModule env options base path p.1).2, env) :=
  ⟨gensOk_registerModule h.gens hok, settled_registerModule h.settled hexports hok⟩

theorem RetryOk.initialized {d d' : DebugState} {env : Environment}
    (h : RetryOk options (d, env)) (hd : Initialized d d') : RetryOk options (d', env) := by
  obtain ⟨hmodules, hgeneration, hhooks, hconf⟩ := initialized_same hd
  refine ⟨⟨?_, ?_⟩, ?_⟩
  · rw [hmodules, hgeneration]
    exact h.gens.bound
  · rw [hmodules]
    exact h.gens.inj
  · rw [Settled, hmodules, hhooks, hconf]
    exact h.settled

theorem retryOk_step {p p' : DebugState × Environment} {a : SessionAction}
    (h : RetryOk options p) (hexports : KeepsExports p a) (hquiet : QuietUnload options p a)
    (hs : (retrySystem options).step p a = some p') : RetryOk options p' := by
  obtain ⟨d', hd', rfl⟩ := Option.map_eq_some_iff.mp hs
  cases a with
  | targetRuns t =>
      obtain ⟨-, heq⟩ := Option.ite_none_right_eq_some.mp hd'
      rw [← Option.some.inj heq]
      exact ⟨⟨h.gens.bound, h.gens.inj⟩, fun hready => h.settled hready⟩
  | event env e =>
      obtain ⟨hok, heq⟩ := Option.ite_none_right_eq_some.mp hd'
      rw [← Option.some.inj heq]
      cases e with
      | loadDll base path => exact retryOk_registerModule h hexports hok
      | unloadDll base =>
          refine ⟨⟨fun m hm => ?_, fun m hm m' hm' => ?_⟩,
            settled_unload h.gens h.settled hexports hquiet⟩
          · exact h.gens.bound m (List.mem_of_mem_filter hm)
          · exact h.gens.inj m (List.mem_of_mem_filter hm) m' (List.mem_of_mem_filter hm')
      | createProcess base path =>
          obtain ⟨d₁, hfirst, hregister, hstate⟩ := handleCreateProcess_true hok
          show RetryOk options ((handleCreateProcess env options base path p.1).2, env)
          rw [hstate]
          rcases hfirst with rfl | ⟨-, hinit⟩
          · exact retryOk_registerModule h hexports hregister
          · refine @retryOk_registerModule _ (d₁, p.2) env base path (h.initialized hinit)
              ?_ hregister
            have hsame : keptModules env d₁ (.loadDll base path)
                = keptModules env p.1 (.createProcess base path) := by
              show (if _ then d₁.session.modules else d₁.session.modules.filter _) = _
              rw [(initialized_same hinit).1]
              rfl
            intro m hm
            exact hexports m (hsame ▸ hm)

/-- **EVERY RESOLVABLE HOOK IS INSTALLED** after every event of a run in which
    no unload leaves a hook to retry. -/
theorem resolvable_installed {p : DebugState × Environment}
    (hr : ReachableIf (retrySystem options)
      (fun p a => KeepsExports p a ∧ QuietUnload options p a) p) : Settled options p := by
  have hok : RetryOk options p := by
    refine hr.invariant ?_ fun _ _ _ h hok hs => retryOk_step h hok.1 hok.2 hs
    rintro ⟨d, env⟩ ⟨⟨processId, hs⟩, -⟩
    have hs' : d.session = newSession processId := hs
    refine ⟨⟨?_, ?_⟩, fun hready => ?_⟩
    · rw [hs']
      exact nofun
    · rw [hs']
      exact nofun
    · rw [hs'] at hready
      cases hready
  exact hok.settled

/-! ## Two modules of one name -/

instance (installed : List InstalledHook) (name : List UInt8) :
    Decidable (Named installed name) :=
  inferInstanceAs (Decidable (∃ h ∈ installed, _))

instance (modules : List ModuleRecord) (base : Nat) : Decidable (Hides modules base) :=
  inferInstanceAs (Decidable (∃ m ∈ modules, _ ∧ ∃ m' ∈ modules, _))

instance (d : DebugState) (base : Nat) (name : List UInt8) :
    Decidable (Loses d base name) :=
  inferInstanceAs (Decidable ((∃ h ∈ d.session.installedHooks, _) ∨ _))

/-- Two modules export `Open` themselves. -/
def copyExports (base : Nat) (name : List UInt8) : Option RemoteExport :=
  if base = 0x10000 then some ⟨0x10100, []⟩
  else if base = 0x18000 then some ⟨0x18100, []⟩
  else sampleExports base name

def copyEnvironment : Environment :=
  { sampleEnvironment 0x900000 with exports := copyExports }

/-- Both are `api.dll`; the first one is hooked when the one at `base` goes. -/
def copyRun (base : Nat) : List ModuleEvent :=
  [.createProcess 0x400000 (wideName "a.exe"), .loadDll 0x80000 (wideName "ntdll.dll"),
    .loadDll 0x10000 (wideName "api.dll"), .loadDll 0x18000 (wideName "api.dll"),
    .unloadDll base]

/-- The runs in which the exports never change. -/
theorem copy_reaches {ok : DebugState × Environment → SessionAction → Prop}
    {events : List ModuleEvent} {p : DebugState × Environment}
    (hok : ∀ p e, e ∈ events → p.2 = copyEnvironment → ok p (.event copyEnvironment e))
    (hexec : (retrySystem [openHook]).exec (sampleWorld.d, copyEnvironment)
      (events.map (.event copyEnvironment)) = some p) :
    ReachableIf (retrySystem [openHook]) ok p ∧ p.2 = copyEnvironment := by
  have hstart : ReachableIf (retrySystem [openHook]) ok (sampleWorld.d, copyEnvironment) :=
    .init sampleSession_new
  have hkeep : ∀ s a s', a ∈ events.map (SessionAction.event copyEnvironment) →
      s.2 = copyEnvironment → (retrySystem [openHook]).step s a = some s' →
      s'.2 = copyEnvironment := by
    intro s a s' ha _ hstep
    obtain ⟨e, -, rfl⟩ := List.mem_map.mp ha
    obtain ⟨d, -, rfl⟩ := Option.map_eq_some_iff.mp hstep
    rfl
  refine ⟨hstart.exec_under (Q := fun s => s.2 = copyEnvironment) rfl _ ?_ hkeep hexec,
    exec_keeps (Q := fun s => s.2 = copyEnvironment) rfl _ hkeep hexec⟩
  intro s a ha hs
  obtain ⟨e, he, rfl⟩ := List.mem_map.mp ha
  exact hok s e he hs

theorem keepsExports_copy {p : DebugState × Environment} (hp : p.2 = copyEnvironment)
    (e : ModuleEvent) : KeepsExports p (.event copyEnvironment e) := by
  intro m _ name
  rw [hp]

/-- **AN UNLOAD WITHOUT A RETRY**: the hooked copy goes, the other copy stays
    loaded with an export that resolves, and nothing is hooked. -/
theorem resolvable_not_installed : ∃ p,
    ReachableIf (retrySystem [openHook]) KeepsExports p ∧
      p.1.session.transportConfigured = true ∧ p.1.session.installedHooks.length = 0 ∧
      p.1.session.modules.map ModuleRecord.base = [0x18000, 0x80000, 0x400000] ∧
      (resolveHookAddress p.2 p.1.session.modules openHook).1
        = .resolved 0x18100 0x18000 ∧ ¬Settled [openHook] p := by
  have hexec : ((retrySystem [openHook]).exec (sampleWorld.d, copyEnvironment)
      ((copyRun 0x10000).map (.event copyEnvironment))).map (fun p => decide
        (p.1.session.transportConfigured = true ∧
          p.1.session.installedHooks.length = 0 ∧
          p.1.session.modules.map ModuleRecord.base = [0x18000, 0x80000, 0x400000] ∧
          (resolveHookAddress p.2 p.1.session.modules openHook).1
            = .resolved 0x18100 0x18000)) = some true := by
    decide +kernel
  obtain ⟨p, hp, hseen⟩ := Option.map_eq_some_iff.mp hexec
  obtain ⟨hready, hhooks, hmodules, hanswer⟩ := of_decide_eq_true hseen
  obtain ⟨hr, -⟩ := copy_reaches (fun s e _ hs => keepsExports_copy hs e) hp
  refine ⟨p, hr, hready, hhooks, hmodules, hanswer, fun hsettled => ?_⟩
  have hres : resolves p.2 p.1.session.modules openHook = true := by
    rw [resolves, hanswer]
  obtain ⟨g, hg, -⟩ := hsettled hready openHook (List.mem_singleton.mpr rfl) hres
  rw [List.length_eq_zero_iff.mp hhooks] at hg
  cases hg

/-- The same run, if the copy that is not hooked goes. -/
theorem resolvable_installed_copy : ∃ p,
    ReachableIf (retrySystem [openHook])
      (fun p a => KeepsExports p a ∧ QuietUnload [openHook] p a) p ∧
      p.1.session.modules.map ModuleRecord.base = [0x10000, 0x80000, 0x400000] ∧
      Settled [openHook] p := by
  have hexec : ((retrySystem [openHook]).exec (sampleWorld.d, copyEnvironment)
      (((copyRun 0x18000).take 4).map (.event copyEnvironment))).map (fun p => decide
        (¬Loses p.1 0x18000 openHook.canonicalName) &&
          ((retrySystem [openHook]).step p (.event copyEnvironment (.unloadDll 0x18000))).any
            fun p => decide (p.1.session.modules.map ModuleRecord.base
              = [0x10000, 0x80000, 0x400000])) = some true := by
    decide +kernel
  obtain ⟨p, hp, hseen⟩ := Option.map_eq_some_iff.mp hexec
  obtain ⟨hnoLoss, hlast⟩ := Bool.and_eq_true_iff.mp hseen
  obtain ⟨p', hstep, hmodules⟩ := (Option.any_eq_true _ _).mp hlast
  have hloads : ∀ (s : DebugState × Environment) (e : ModuleEvent),
      e ∈ (copyRun 0x18000).take 4 → s.2 = copyEnvironment →
      KeepsExports s (.event copyEnvironment e) ∧
        QuietUnload [openHook] s (.event copyEnvironment e) := by
    intro s e he hs
    refine ⟨keepsExports_copy hs e, ?_⟩
    simp only [copyRun, List.take_succ_cons, List.take_zero, List.mem_cons,
      List.not_mem_nil, or_false] at he
    rcases he with rfl | rfl | rfl | rfl
    all_goals trivial
  obtain ⟨hr, henv⟩ := @copy_reaches (fun p a => KeepsExports p a ∧
    QuietUnload [openHook] p a) _ p hloads hp
  have hquiet : QuietUnload [openHook] p (.event copyEnvironment (.unloadDll 0x18000)) := by
    intro _ definition hmem hloses
    rw [List.mem_singleton.mp hmem] at hloses
    exact absurd hloses (of_decide_eq_true hnoLoss)
  have hr' := hr.step ⟨keepsExports_copy henv _, hquiet⟩ hstep
  exact ⟨p', hr', of_decide_eq_true hmodules, resolvable_installed hr'⟩

end ScopeRetry
