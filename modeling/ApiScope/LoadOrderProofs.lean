import ApiScope.ResolutionProofs
import Mathlib.Data.List.Nodup

/-! # Load order — the same modules in another order

    Modules with distinct names at distinct bases are loaded one after the
    other, and none is unloaded.  After the load of `ntdll.dll` every load
    asks for all hooks without a record, on the modules that are there.  An
    answer that is not Pending never changes again, so which hooks get a
    record, at which address and for which modules, and whether any answer is
    an error, is decided by the modules alone.

    Every load comes with the answers of the system, whose exports are those
    of the modules, and with the target as the event finds it. -/

namespace ScopeLoadOrder

open ScopeBytes ScopeProtocol ScopeHook ScopeDebug ScopeTransition ScopeQuiescence
  ScopeModules ScopeResolution

/-! ## The selected hooks -/

/-- `AddHook`. -/
def addHook (hooks : List HookDefinition) (hook : HookDefinition) : List HookDefinition :=
  if hooks.any (·.canonicalName = hook.canonicalName) then hooks else hooks ++ [hook]

/-- The hooks that `ExpandAndValidateHooks` adds, one after the other. -/
def selectHooks (requested : List HookDefinition) : List HookDefinition :=
  requested.foldl addHook []

theorem addHook_nodup {hooks : List HookDefinition} {hook : HookDefinition}
    (h : (hooks.map HookDefinition.canonicalName).Nodup) :
    ((addHook hooks hook).map HookDefinition.canonicalName).Nodup := by
  rw [addHook]
  split
  next => exact h
  next hnew =>
    rw [List.map_append, List.map_singleton]
    refine List.nodup_append.mpr ⟨h, List.pairwise_singleton _ _, ?_⟩
    intro a ha b hb heq
    obtain ⟨g, hg, rfl⟩ := List.mem_map.mp ha
    rw [List.mem_singleton.mp hb] at heq
    exact hnew (List.any_eq_true.mpr ⟨g, hg, decide_eq_true heq⟩)

/-- The selected hooks have distinct names. -/
theorem selectHooks_nodup (requested : List HookDefinition) :
    ((selectHooks requested).map HookDefinition.canonicalName).Nodup := by
  have hfold : ∀ (rest hooks : List HookDefinition),
      (hooks.map HookDefinition.canonicalName).Nodup →
      ((rest.foldl addHook hooks).map HookDefinition.canonicalName).Nodup := by
    intro rest
    induction rest with
    | nil => exact fun hooks h => h
    | cons hook rest ih => exact fun hooks h => ih _ (addHook_nodup h)
  exact hfold requested [] List.nodup_nil

/-! ## Loads -/

/-- A module of the target. -/
structure LoadedModule where
  base : Nat
  name : List UInt8
  exports : List UInt8 → Option RemoteExport

/-- A load event: its module, the answers of the system while it is handled,
    and the target that it finds. -/
structure Load where
  loaded : LoadedModule
  path : List UInt16
  env : Environment
  target : Target

/-- The modules of a target. -/
structure Layout (modules : List LoadedModule) : Prop where
  names : (modules.map LoadedModule.name).Nodup
  bases : (modules.map LoadedModule.base).Nodup
  ntdll : ∃ m ∈ modules, m.name = cstr "ntdll.dll"

/-- The exports that are read are those of the modules. -/
def Reads (modules : List LoadedModule) (env : Environment) : Prop :=
  ∀ m ∈ modules, env.exports m.base = m.exports

/-- An order in which the modules are loaded. -/
structure LoadOrder (modules : List LoadedModule) (order : List Load) : Prop where
  perm : (order.map Load.loaded).Perm modules
  name : ∀ l ∈ order, registeredName l.env l.loaded.base l.path = l.loaded.name
  reads : ∀ l ∈ order, Reads modules l.env

variable (options : List HookDefinition)

/-- One load; an error ends the session. -/
def loadStep (d : DebugState) (l : Load) : Option DebugState :=
  let r := handleLoadDll l.env options l.loaded.base l.path { d with target := l.target }
  if r.1 then some r.2 else none

/-- A session before the first load. -/
structure Unloaded (d : DebugState) : Prop where
  modules : d.session.modules = []
  hooks : d.session.installedHooks = []
  transport : d.session.transportConfigured = false

def loadSystem : System DebugState Load where
  init := Unloaded
  step := loadStep options

/-- The `HookFunction` calls of a pass succeed. -/
def hookFunctionSucceeds (env : Environment) : List HookDefinition → DebugState → Bool
  | [], _ => true
  | definition :: rest, d =>
      if d.session.installedHooks.any (·.canonicalName = definition.canonicalName) then
        hookFunctionSucceeds env rest d
      else
        match resolveHookAddress env d.session.modules definition with
        | (.resolved address target, source) =>
            if d.session.installedHooks.any (·.originalFunction = address) then true
            else
              let r := installHook env definition address source target d
              r.1 && hookFunctionSucceeds env rest r.2
        | (.pending, _) => hookFunctionSucceeds env rest d
        | (.error, _) => true

/-- `ConfigureTransport` and the `HookFunction` calls of one load succeed. -/
def callsSucceed (d : DebugState) (l : Load) : Bool :=
  let name := registeredName l.env l.loaded.base l.path
  if name = [] then true
  else
    let r := configureOnce l.env l.loaded.base name
      (recordModule l.loaded.base l.path name { d with target := l.target })
    r.1 && (!r.2.session.transportConfigured || hookFunctionSucceeds l.env options r.2)

/-- They succeed in every load. -/
def allCallsSucceed : DebugState → List Load → Bool
  | _, [] => true
  | d, l :: rest =>
      callsSucceed options d l &&
        match loadStep options d l with
        | none => true
        | some d' => allCallsSucceed d' rest

/-- The map from canonical name to function, source module and target module. -/
def hookMap (installed : List InstalledHook) (name : List UInt8) : Option (Nat × Nat × Nat) :=
  (installed.find? (·.canonicalName = name)).map fun h =>
    (h.originalFunction, h.sourceModuleBase, h.targetModuleBase)

variable {options}

/-! ## The modules that are recorded -/

/-- The records are those of the loaded modules that have a name. -/
def Recorded (loaded : List LoadedModule) (records : List ModuleRecord) : Prop :=
  ∀ name base, (∃ r ∈ records, r.name = name ∧ r.base = base) ↔
    name ≠ [] ∧ ∃ m ∈ loaded, m.name = name ∧ m.base = base

/-- A name denotes the same module in every list that has recorded it. -/
theorem extends_of_recorded {modules loaded loaded' : List LoadedModule}
    {env env' : Environment} {A B : List ModuleRecord} (hlayout : Layout modules)
    (hreads : Reads modules env) (hreads' : Reads modules env') (hA : Recorded loaded A)
    (hB : Recorded loaded' B) (hsub : ∀ m ∈ loaded, m ∈ loaded')
    (hsub' : ∀ m ∈ loaded', m ∈ modules) : Extends env env' A B := by
  intro name r hfind
  obtain ⟨hr, hrname⟩ := findModule_some hfind
  obtain ⟨hname, m, hm, hmname, hmbase⟩ := (hA name r.base).mp ⟨r, hr, hrname, rfl⟩
  obtain ⟨s, hs, hsname, -⟩ := (hB name r.base).mpr ⟨hname, m, hsub m hm, hmname, hmbase⟩
  cases hfind' : findModule B name with
  | none => exact absurd hsname (findModule_none hfind' s hs)
  | some s' =>
      obtain ⟨hs', hsname'⟩ := findModule_some hfind'
      obtain ⟨-, m', hm', hmname', hmbase'⟩ := (hB name s'.base).mp ⟨s', hs', hsname', rfl⟩
      have hsame : m' = m := List.inj_on_of_nodup_map hlayout.names (hsub' m' hm')
        (hsub' m (hsub m hm)) (hmname'.trans hmname.symm)
      refine ⟨s', rfl, ?_, fun e => ?_⟩
      · rw [← hmbase', ← hmbase, hsame]
      · rw [Environment.getRemoteExport, Environment.getRemoteExport, ← hmbase,
          hreads m (hsub' m (hsub m hm)), hreads' m (hsub' m (hsub m hm))]

/-- Recording one more module. -/
theorem recorded_recordModule {modules loaded : List LoadedModule} {m : LoadedModule}
    {path : List UInt16} {d : DebugState} (hlayout : Layout modules) (hm : m ∈ modules)
    (hsub : ∀ m ∈ loaded, m ∈ modules) (hname : m.name ≠ [])
    (h : Recorded loaded d.session.modules) :
    Recorded (m :: loaded) (recordModule m.base path m.name d).session.modules := by
  intro name base
  constructor
  · rintro ⟨r, hr, rfl, rfl⟩
    rcases List.mem_cons.mp hr with rfl | hr
    · exact ⟨hname, m, List.mem_cons_self, rfl, rfl⟩
    · obtain ⟨hne, m', hm', heq⟩ := (h _ _).mp ⟨r, List.mem_of_mem_filter hr, rfl, rfl⟩
      exact ⟨hne, m', List.mem_cons_of_mem _ hm', heq⟩
  · rintro ⟨hne, m', hm', rfl, rfl⟩
    by_cases hbase : m'.base = m.base
    · have hsame : m' = m := by
        rcases List.mem_cons.mp hm' with heq | hold
        · exact heq
        · exact List.inj_on_of_nodup_map hlayout.bases (hsub m' hold) hm hbase
      rw [hsame]
      exact ⟨_, List.mem_cons_self, rfl, rfl⟩
    · rcases List.mem_cons.mp hm' with rfl | hold
      · exact absurd rfl hbase
      · obtain ⟨r, hr, hrname, hrbase⟩ := (h _ _).mpr ⟨hne, m', hold, rfl, rfl⟩
        refine ⟨r, List.mem_cons_of_mem _ (List.mem_filter.mpr ⟨hr, ?_⟩), hrname, hrbase⟩
        rw [hrbase]
        exact decide_eq_true hbase

/-! ## What a load keeps -/

variable (options) in
/-- A record that says what its definition resolves to. -/
def Right (env : Environment) (records : List ModuleRecord) (h : InstalledHook) : Prop :=
  ∃ definition ∈ options, definition.canonicalName = h.canonicalName ∧
    resolveHookAddress env records definition
      = (.resolved h.originalFunction h.targetModuleBase, h.sourceModuleBase)

/-- It goes on to say so. -/
theorem Right.mono {env env' : Environment} {A B : List ModuleRecord} {h : InstalledHook}
    (hext : Extends env env' A B) (hright : Right options env A h) :
    Right options env' B h := by
  obtain ⟨definition, hmem, hname, hanswer⟩ := hright
  have hne : (resolveHookAddress env A definition).1 ≠ .pending := by
    rw [hanswer]
    exact nofun
  exact ⟨definition, hmem, hname, (resolveHookAddress_extends hext hne).trans hanswer⟩

theorem right_installs {env : Environment} {d d' : DebugState} {address : Nat}
    (hs : Installs env options d address d')
    (h : ∀ g ∈ d.session.installedHooks, Right options env d.session.modules g) :
    ∀ g ∈ d'.session.installedHooks, Right options env d'.session.modules g := by
  cases hs with
  | @mk definition source target hook t' hmem hnew hres hdistinct hcall =>
      obtain ⟨hhooked, hname⟩ := hookFunction_some hcall
      intro g hg
      rcases List.mem_append.mp hg with hg | hg
      · exact h g hg
      · rw [List.mem_singleton.mp hg]
        refine ⟨definition, hmem, hname.symm, ?_⟩
        show _ = (ResolveResult.resolved hook.originalFunction target, source)
        rw [hhooked.function]
        exact hres

variable (options) in
/-- What the session knows after the loads of some modules. -/
structure Known (modules loaded : List LoadedModule) (d : DebugState) : Prop where
  recorded : Recorded loaded d.session.modules
  ready : d.session.transportConfigured = true ↔
    ∃ m ∈ loaded, m.name = cstr "ntdll.dll"
  hooks : HooksOk options d
  unready : d.session.transportConfigured = false → d.session.installedHooks = []
  right : ∀ env, Reads modules env → ∀ h ∈ d.session.installedHooks,
    Right options env d.session.modules h

variable (options) in
/-- What holds after these loads. -/
structure LoadOk (modules loaded : List LoadedModule) (d : DebugState) : Prop extends
    Known options modules loaded d where
  settled : ∀ env, Reads modules env → d.session.transportConfigured = true →
    ∀ definition ∈ options, Named d.session.installedHooks definition.canonicalName ∨
      (resolveHookAddress env d.session.modules definition).1 = .pending

/-- What is pending for one reader is pending for every other. -/
theorem pending_extends {env env' : Environment} {A B : List ModuleRecord}
    {definition : HookDefinition} (hext : Extends env env' A B)
    (h : (resolveHookAddress env' B definition).1 = .pending) :
    (resolveHookAddress env A definition).1 = .pending := by
  by_contra hne
  rw [resolveHookAddress_extends hext hne] at h
  exact hne h

/-- The transport after the load of a module with a name. -/
theorem configureOnce_ready {env : Environment} {base : Nat} {name : List UInt8}
    {d : DebugState} (h : (configureOnce env base name d).1 = true) :
    (configureOnce env base name d).2.session.modules = d.session.modules ∧
      (configureOnce env base name d).2.session.installedHooks
        = d.session.installedHooks ∧
      ((configureOnce env base name d).2.session.transportConfigured = true ↔
        d.session.transportConfigured = true ∨ name = cstr "ntdll.dll") := by
  refine ⟨(configureOnce_keeps h).modules, (configureOnce_keeps h).installedHooks, ?_⟩
  by_cases hfirst : name = cstr "ntdll.dll" ∧ d.session.transportConfigured = false
  · obtain ⟨d', -, heq⟩ := configureOnce_first hfirst h
    rw [heq]
    exact ⟨fun _ => Or.inr hfirst.1, fun _ => rfl⟩
  · rw [configureOnce_other hfirst]
    refine ⟨Or.inl, ?_⟩
    rintro (hready | hname)
    · exact hready
    · by_contra hno
      exact hfirst ⟨hname, Bool.eq_false_iff.mpr hno⟩

theorem mem_cons_or {m : LoadedModule} {loaded : List LoadedModule}
    {P : LoadedModule → Prop} : (∃ m' ∈ m :: loaded, P m') ↔ P m ∨ ∃ m' ∈ loaded, P m' := by
  constructor
  · rintro ⟨m', hm', hp⟩
    rcases List.mem_cons.mp hm' with rfl | hm'
    · exact Or.inl hp
    · exact Or.inr ⟨m', hm', hp⟩
  · rintro (hp | ⟨m', hm', hp⟩)
    · exact ⟨m, List.mem_cons_self, hp⟩
    · exact ⟨m', List.mem_cons_of_mem _ hm', hp⟩

section Step

variable {modules loaded : List LoadedModule} {d : DebugState} {m : LoadedModule}
  {env : Environment} {path : List UInt16}

/-- A module without a name is not recorded. -/
theorem LoadOk.ignored (h : LoadOk options modules loaded d) (hname : m.name = [])
    (t : Target) : LoadOk options modules (m :: loaded) { d with target := t } where
  recorded name base := by
    refine (h.recorded name base).trans (and_congr_right fun hne => ?_)
    rw [mem_cons_or]
    refine ⟨Or.inr, ?_⟩
    rintro (⟨hmname, -⟩ | hold)
    · exact absurd (hmname.symm.trans hname) hne
    · exact hold
  ready := by
    rw [mem_cons_or]
    refine h.ready.trans ⟨Or.inr, ?_⟩
    rintro (hmname | hold)
    · exact absurd (hname.symm.trans hmname) (by decide)
    · exact hold
  hooks := h.hooks.congr rfl fun _ hb => hb
  unready := h.unready
  right := h.right
  settled := h.settled

/-- A module with a name is recorded before any hook is asked for. -/
theorem Known.configured (hlayout : Layout modules) (hm : m ∈ modules)
    (hsub : ∀ m ∈ loaded, m ∈ modules) (hname : m.name ≠ [])
    (h : Known options modules loaded d) (t : Target)
    (hconf : (configureOnce env m.base m.name
      (recordModule m.base path m.name { d with target := t })).1 = true) :
    Known options modules (m :: loaded) (configureOnce env m.base m.name
      (recordModule m.base path m.name { d with target := t })).2 := by
  obtain ⟨hmodules, hhooks, hready⟩ := configureOnce_ready hconf
  have hrecorded : Recorded (m :: loaded) (configureOnce env m.base m.name
      (recordModule m.base path m.name { d with target := t })).2.session.modules := by
    rw [hmodules]
    exact recorded_recordModule (d := { d with target := t }) hlayout hm hsub hname h.recorded
  have hsub' : ∀ m' ∈ m :: loaded, m' ∈ modules := List.forall_mem_cons.mpr ⟨hm, hsub⟩
  refine ⟨hrecorded, hready.trans ?_, h.hooks.congr hhooks fun b hb => ?_, fun hun => ?_, ?_⟩
  · rw [mem_cons_or]
    constructor
    · rintro (hold | hnew)
      · exact Or.inr (h.ready.mp hold)
      · exact Or.inl hnew
    · rintro (hnew | hold)
      · exact Or.inr hnew
      · exact Or.inl (h.ready.mpr hold)
  · rw [hmodules]
    exact loaded_recordModule (d := { d with target := t }) hb
  · rw [hhooks]
    refine h.unready (Bool.eq_false_iff.mpr fun hold => ?_)
    rw [hready.mpr (Or.inl hold)] at hun
    cases hun
  · intro env' hreads g hg
    rw [hhooks] at hg
    refine (h.right env' hreads g hg).mono ?_
    exact extends_of_recorded hlayout hreads hreads h.recorded hrecorded
      (fun _ => List.mem_cons_of_mem _) hsub'

/-- Then the pass settles the hooks. -/
theorem Known.installed (hlayout : Layout modules) (hsub : ∀ m ∈ loaded, m ∈ modules)
    (hreads : Reads modules env) (h : Known options modules loaded d)
    (hready : d.session.transportConfigured = true)
    (hok : (tryInstallPendingHooks env options d).1 = true) :
    LoadOk options modules loaded (tryInstallPendingHooks env options d).2 := by
  have hrun := tryInstallPendingHooks_run (Q := fun _ _ => True) (fun _ _ => trivial) hok
  obtain ⟨hmodules, htransport⟩ := installRun_session hrun
  have hother : ∀ env', Reads modules env' →
      Extends env env' d.session.modules d.session.modules :=
    fun env' hreads' => extends_of_recorded hlayout hreads hreads' h.recorded h.recorded
      (fun _ => id) hsub
  have hright : ∀ g ∈ (tryInstallPendingHooks env options d).2.session.installedHooks,
      Right options env (tryInstallPendingHooks env options d).2.session.modules g :=
    hrun.keeps (P := fun d => ∀ g ∈ d.session.installedHooks,
      Right options env d.session.modules g)
      (fun _ _ _ _ hs hd => right_installs hs hd) (h.right env hreads)
  refine ⟨⟨?_, ?_, hrun.keeps (fun _ _ _ _ hs hd => hd.installs hs) h.hooks, ?_, ?_⟩, ?_⟩
  · rw [hmodules]
    exact h.recorded
  · rw [htransport]
    exact h.ready
  · rw [htransport, hready]
    exact nofun
  · intro env' hreads' g hg
    refine (hright g hg).mono ?_
    rw [hmodules]
    exact hother env' hreads'
  · intro env' hreads' _ definition hmem
    refine (tryInstallPendingHooks_settles hok definition hmem).imp_right fun hpending => ?_
    rw [hmodules]
    exact pending_extends (extends_of_recorded hlayout hreads' hreads h.recorded h.recorded
      (fun _ => id) hsub) hpending

end Step

/-- A load without an error. -/
theorem loadOk_step {modules loaded : List LoadedModule} {d d' : DebugState} {l : Load}
    (hlayout : Layout modules) (hl : l.loaded ∈ modules)
    (hname : registeredName l.env l.loaded.base l.path = l.loaded.name)
    (hreads : Reads modules l.env) (hsub : ∀ m ∈ loaded, m ∈ modules)
    (h : LoadOk options modules loaded d) (hs : loadStep options d l = some d') :
    LoadOk options modules (l.loaded :: loaded) d' := by
  obtain ⟨hok, heq⟩ := Option.ite_none_right_eq_some.mp hs
  rw [← Option.some.inj heq]
  have hregister : (registerModule l.env options l.loaded.base l.path
      { d with target := l.target }).1 = true := hok
  show LoadOk options modules (l.loaded :: loaded) (registerModule l.env options
    l.loaded.base l.path { d with target := l.target }).2
  rcases registerModule_true (Q := fun _ _ => True) (fun _ _ => trivial) hregister with
    ⟨hnil, hsame⟩ | ⟨hne, hconf, hcase⟩
  · rw [hsame]
    exact h.ignored (hname.symm.trans hnil) l.target
  · rw [hname] at hne hconf hcase
    have hknown := h.toKnown.configured hlayout hl hsub hne l.target hconf
    rcases hcase with ⟨hun, heq⟩ | ⟨hready, hinstall, heq, -⟩
    · rw [heq]
      refine ⟨hknown, fun env _ hready => ?_⟩
      rw [hun] at hready
      cases hready
    · rw [heq]
      exact hknown.installed hlayout (List.forall_mem_cons.mpr ⟨hl, hsub⟩) hreads hready
        hinstall

/-! ## When a pass succeeds -/

variable (options) in
/-- No answer is an error, and no two hooks have one address. -/
structure Decided (env : Environment) (records : List ModuleRecord) : Prop where
  noError : ∀ definition ∈ options,
    (resolveHookAddress env records definition).1 ≠ .error
  distinct : ∀ definition ∈ options, ∀ definition' ∈ options,
    ∀ address target source target' source',
    resolveHookAddress env records definition = (.resolved address target, source) →
    resolveHookAddress env records definition' = (.resolved address target', source') →
    definition.canonicalName = definition'.canonicalName

/-- With more modules decided is with fewer modules decided. -/
theorem Decided.extends {env env' : Environment} {A B : List ModuleRecord}
    (hext : Extends env env' A B) (h : Decided options env' B) : Decided options env A := by
  have hanswer : ∀ definition result source, result ≠ ResolveResult.pending →
      resolveHookAddress env A definition = (result, source) →
      resolveHookAddress env' B definition = (result, source) := by
    intro definition result source hne heq
    refine (resolveHookAddress_extends hext ?_).trans heq
    rw [heq]
    exact hne
  constructor
  · intro definition hmem herror
    have heq := hanswer definition .error _ nofun (Prod.ext herror rfl)
    exact h.noError definition hmem (congrArg Prod.fst heq)
  · intro definition hmem definition' hmem' address target source target' source' h1 h2
    exact h.distinct definition hmem definition' hmem' address target source target' source'
      (hanswer _ _ _ nofun h1) (hanswer _ _ _ nofun h2)

/-- A session that has settled its hooks has decided. -/
theorem LoadOk.decided {modules loaded : List LoadedModule} {d : DebugState}
    (hoptions : (options.map HookDefinition.canonicalName).Nodup)
    (h : LoadOk options modules loaded d) (hready : d.session.transportConfigured = true)
    {env : Environment} (hreads : Reads modules env) :
    Decided options env d.session.modules := by
  have hrecord : ∀ definition ∈ options,
      (resolveHookAddress env d.session.modules definition).1 ≠ .pending →
      ∃ g ∈ d.session.installedHooks, g.canonicalName = definition.canonicalName ∧
        resolveHookAddress env d.session.modules definition
          = (.resolved g.originalFunction g.targetModuleBase, g.sourceModuleBase) := by
    intro definition hmem hne
    rcases h.settled env hreads hready definition hmem with ⟨g, hg, hname⟩ | hpending
    · obtain ⟨definition', hmem', hname', hanswer⟩ := h.right env hreads g hg
      have hsame : definition' = definition :=
        List.inj_on_of_nodup_map hoptions hmem' hmem (hname'.trans hname)
      exact ⟨g, hg, hname, hsame ▸ hanswer⟩
    · exact absurd hpending hne
  constructor
  · intro definition hmem herror
    obtain ⟨g, -, -, hanswer⟩ := hrecord definition hmem (by rw [herror]; exact nofun)
    rw [hanswer] at herror
    cases herror
  · intro definition hmem definition' hmem' address target source target' source' h1 h2
    obtain ⟨g, hg, hname, hanswer⟩ := hrecord definition hmem (by rw [h1]; exact nofun)
    obtain ⟨g', hg', hname', hanswer'⟩ := hrecord definition' hmem' (by rw [h2]; exact nofun)
    have hfunction : g.originalFunction = address :=
      (ResolveResult.resolved.inj (Prod.mk.inj (hanswer.symm.trans h1)).1).1
    have hfunction' : g'.originalFunction = address :=
      (ResolveResult.resolved.inj (Prod.mk.inj (hanswer'.symm.trans h2)).1).1
    have hsame : g = g' := List.inj_on_of_nodup_map h.hooks.functions hg hg'
      (hfunction.trans hfunction'.symm)
    rw [← hname, ← hname', hsame]

/-- **A PASS SUCCEEDS** where everything is decided and the calls succeed. -/
theorem tryInstallPendingHooks_succeeds {env : Environment} {hooks : List HookDefinition}
    {d : DebugState} (hsub : ∀ x ∈ hooks, x ∈ options)
    (hdecided : Decided options env d.session.modules)
    (hright : ∀ g ∈ d.session.installedHooks, Right options env d.session.modules g)
    (hcalls : hookFunctionSucceeds env hooks d = true) :
    (tryInstallPendingHooks env hooks d).1 = true := by
  induction hooks generalizing d with
  | nil => rfl
  | cons definition rest ih =>
      have hrest : ∀ x ∈ rest, x ∈ options := fun x hx => hsub x (List.mem_cons_of_mem _ hx)
      have hmem : definition ∈ options := hsub definition List.mem_cons_self
      rw [hookFunctionSucceeds] at hcalls
      rw [tryInstallPendingHooks]
      by_cases hin : d.session.installedHooks.any
          (·.canonicalName = definition.canonicalName) = true
      · rw [if_pos hin] at hcalls ⊢
        exact ih hrest hdecided hright hcalls
      rw [if_neg hin] at hcalls ⊢
      cases hres : resolveHookAddress env d.session.modules definition with
      | mk result source =>
          rw [hres] at hcalls
          cases result with
          | pending => exact ih hrest hdecided hright hcalls
          | error => exact absurd (congrArg Prod.fst hres) (hdecided.noError definition hmem)
          | resolved address target =>
              dsimp only at hcalls ⊢
              by_cases hconflict : d.session.installedHooks.any
                  (·.originalFunction = address) = true
              · -- the hook at this address has the same name, and is installed
                obtain ⟨g, hg, hfunction⟩ := List.any_eq_true.mp hconflict
                obtain ⟨definition', hmem', hname', hanswer'⟩ := hright g hg
                rw [of_decide_eq_true hfunction] at hanswer'
                have hname := hdecided.distinct definition hmem definition' hmem' _ _ _ _ _
                  hres hanswer'
                exact absurd (List.any_eq_true.mpr
                  ⟨g, hg, decide_eq_true (hname.trans hname').symm⟩) hin
              · rw [if_neg hconflict] at hcalls ⊢
                obtain ⟨hok, hlater⟩ := Bool.and_eq_true_iff.mp hcalls
                rw [if_pos hok]
                have hs := installHook_installs hmem hin hres hconflict hok
                refine ih hrest ?_ (right_installs hs hright) hlater
                rw [(installHook_true hok).2]
                exact hdecided

/-! ## Orders -/

/-- One load of a run whose outcome is decided. -/
theorem loadStep_succeeds {modules loaded : List LoadedModule} {d : DebugState} {l : Load}
    (hlayout : Layout modules) (hl : l.loaded ∈ modules)
    (hname : registeredName l.env l.loaded.base l.path = l.loaded.name)
    (hreads : Reads modules l.env) (hsub : ∀ m ∈ loaded, m ∈ modules)
    (h : LoadOk options modules loaded d) (hcalls : callsSucceed options d l = true)
    {env : Environment} {records : List ModuleRecord} (henv : Reads modules env)
    (hall : Recorded modules records) (hdecided : Decided options env records) :
    ∃ d', loadStep options d l = some d' := by
  have hregister : (registerModule l.env options l.loaded.base l.path
      { d with target := l.target }).1 = true := by
    rw [callsSucceed, hname] at hcalls
    rw [registerModule, hname]
    dsimp only at hcalls ⊢
    by_cases hne : l.loaded.name = []
    · rw [if_pos hne]
    rw [if_neg hne] at hcalls
    obtain ⟨hconf, hinstall⟩ := Bool.and_eq_true_iff.mp hcalls
    rw [if_neg hne, if_neg (by rw [hconf]; exact Bool.false_ne_true.symm)]
    split
    next hready =>
      have hknown := h.toKnown.configured hlayout hl hsub hne l.target hconf
      rw [hready, Bool.not_true, Bool.false_or] at hinstall
      refine tryInstallPendingHooks_succeeds (fun _ => id) ?_ (hknown.right l.env hreads)
        hinstall
      have hsub' : ∀ m ∈ l.loaded :: loaded, m ∈ modules :=
        List.forall_mem_cons.mpr ⟨hl, hsub⟩
      exact hdecided.extends (extends_of_recorded hlayout hreads henv hknown.recorded hall
        hsub' fun _ => id)
    next => rfl
  exact ⟨_, if_pos hregister⟩

/-- The loads of an order speak about the modules. -/
structure Fits (modules : List LoadedModule) (order : List Load) : Prop where
  loaded : ∀ l ∈ order, l.loaded ∈ modules
  name : ∀ l ∈ order, registeredName l.env l.loaded.base l.path = l.loaded.name
  reads : ∀ l ∈ order, Reads modules l.env

theorem Fits.tail {modules : List LoadedModule} {l : Load} {rest : List Load}
    (h : Fits modules (l :: rest)) : Fits modules rest :=
  ⟨fun x hx => h.loaded x (List.mem_cons_of_mem _ hx),
    fun x hx => h.name x (List.mem_cons_of_mem _ hx),
    fun x hx => h.reads x (List.mem_cons_of_mem _ hx)⟩

/-- What holds after a run of loads. -/
theorem loadOk_exec {modules loaded : List LoadedModule} {d d' : DebugState}
    {order : List Load} (hlayout : Layout modules) (hfits : Fits modules order)
    (hsub : ∀ m ∈ loaded, m ∈ modules) (h : LoadOk options modules loaded d)
    (hexec : (loadSystem options).exec d order = some d') :
    ∃ loaded', LoadOk options modules loaded' d' ∧ (∀ m ∈ loaded', m ∈ modules) ∧
      (∀ m ∈ loaded, m ∈ loaded') ∧ ∀ l ∈ order, l.loaded ∈ loaded' := by
  induction order generalizing loaded d with
  | nil =>
      cases Option.some.inj hexec
      exact ⟨loaded, h, hsub, fun _ hm => hm, fun l hl => (List.not_mem_nil hl).elim⟩
  | cons l rest ih =>
      rw [System.exec] at hexec
      cases hs : (loadSystem options).step d l with
      | none =>
          rw [hs] at hexec
          cases hexec
      | some d₁ =>
          rw [hs] at hexec
          have hl : l ∈ l :: rest := List.mem_cons_self
          have hstep := loadOk_step hlayout (hfits.loaded l hl) (hfits.name l hl)
            (hfits.reads l hl) hsub h hs
          obtain ⟨loaded', hok, hsub', hold, hnew⟩ := ih hfits.tail
            (List.forall_mem_cons.mpr ⟨hfits.loaded l hl, hsub⟩) hstep hexec
          refine ⟨loaded', hok, hsub', fun m hm => hold m (List.mem_cons_of_mem _ hm), ?_⟩
          exact List.forall_mem_cons.mpr ⟨hold _ List.mem_cons_self, hnew⟩

/-- A run whose outcome is decided ends without an error. -/
theorem exec_succeeds {modules loaded : List LoadedModule} {d : DebugState}
    {order : List Load} (hlayout : Layout modules) (hfits : Fits modules order)
    (hsub : ∀ m ∈ loaded, m ∈ modules) (h : LoadOk options modules loaded d)
    (hcalls : allCallsSucceed options d order = true) {env : Environment}
    {records : List ModuleRecord} (henv : Reads modules env)
    (hall : Recorded modules records) (hdecided : Decided options env records) :
    ∃ d', (loadSystem options).exec d order = some d' := by
  induction order generalizing loaded d with
  | nil => exact ⟨d, rfl⟩
  | cons l rest ih =>
      obtain ⟨hfirst, hlater⟩ := Bool.and_eq_true_iff.mp hcalls
      have hl : l ∈ l :: rest := List.mem_cons_self
      obtain ⟨d₁, hs⟩ := loadStep_succeeds hlayout (hfits.loaded l hl) (hfits.name l hl)
        (hfits.reads l hl) hsub h hfirst henv hall hdecided
      rw [hs] at hlater
      have hstep := loadOk_step hlayout (hfits.loaded l hl) (hfits.name l hl)
        (hfits.reads l hl) hsub h hs
      obtain ⟨d', hexec⟩ := ih hfits.tail
        (List.forall_mem_cons.mpr ⟨hfits.loaded l hl, hsub⟩) hstep hlater
      refine ⟨d', ?_⟩
      rw [System.exec, show (loadSystem options).step d l = some d₁ from hs]
      exact hexec

theorem loadOk_unloaded {modules : List LoadedModule} {d : DebugState} (h : Unloaded d) :
    LoadOk options modules [] d where
  recorded name base := by
    rw [h.modules]
    constructor
    · rintro ⟨r, hr, -⟩
      exact (List.not_mem_nil hr).elim
    · rintro ⟨-, m, hm, -⟩
      exact (List.not_mem_nil hm).elim
  ready := by
    rw [h.transport]
    constructor
    · exact nofun
    · rintro ⟨m, hm, -⟩
      exact (List.not_mem_nil hm).elim
  hooks := by
    refine ⟨?_, ?_, ?_, ?_, ?_⟩
    all_goals rw [h.hooks]
    · exact List.nodup_nil
    · exact nofun
    · exact List.nodup_nil
    · exact nofun
    · exact nofun
  unready _ := h.hooks
  right env _ := by
    rw [h.hooks]
    exact nofun
  settled env _ hready := by
    rw [h.transport] at hready
    cases hready

theorem LoadOrder.fits {modules : List LoadedModule} {order : List Load}
    (h : LoadOrder modules order) : Fits modules order :=
  ⟨fun _ hl => h.perm.mem_iff.mp (List.mem_map_of_mem hl), h.name, h.reads⟩

/-- What is known after all modules are loaded. -/
theorem loadOk_all {modules : List LoadedModule} {order : List Load} {d d' : DebugState}
    (hlayout : Layout modules) (horder : LoadOrder modules order) (hd : Unloaded d)
    (hexec : (loadSystem options).exec d order = some d') :
    LoadOk options modules modules d' ∧ d'.session.transportConfigured = true := by
  obtain ⟨loaded, hok, hsub, -, hall⟩ := loadOk_exec hlayout horder.fits
    (fun _ hm => (List.not_mem_nil hm).elim) (loadOk_unloaded hd) hexec
  have hmem : ∀ m, m ∈ loaded ↔ m ∈ modules := by
    intro m
    refine ⟨hsub m, fun hm => ?_⟩
    obtain ⟨l, hl, rfl⟩ := List.mem_map.mp (horder.perm.mem_iff.mpr hm)
    exact hall l hl
  have hready : d'.session.transportConfigured = true := by
    obtain ⟨m, hm, hname⟩ := hlayout.ntdll
    exact hok.ready.mpr ⟨m, (hmem m).mpr hm, hname⟩
  refine ⟨⟨⟨?_, ?_, hok.hooks, hok.unready, hok.right⟩, hok.settled⟩, hready⟩
  · intro name base
    simp only [hok.recorded name base, hmem]
  · simp only [hok.ready, hmem]

/-- The map of a session that has settled its hooks tells what the selected
    hooks resolve to. -/
theorem hookMap_eq_some {modules loaded : List LoadedModule} {d : DebugState}
    (hoptions : (options.map HookDefinition.canonicalName).Nodup)
    (h : LoadOk options modules loaded d) (hready : d.session.transportConfigured = true)
    {env : Environment} (hreads : Reads modules env) {name : List UInt8}
    {function source target : Nat} :
    hookMap d.session.installedHooks name = some (function, source, target) ↔
      ∃ definition ∈ options, definition.canonicalName = name ∧
        resolveHookAddress env d.session.modules definition
          = (.resolved function target, source) := by
  rw [hookMap, Option.map_eq_some_iff]
  constructor
  · rintro ⟨g, hfind, heq⟩
    have hname : g.canonicalName = name := by simpa using List.find?_some hfind
    obtain ⟨definition, hmem, hname', hanswer⟩ :=
      h.right env hreads g (List.mem_of_find?_eq_some hfind)
    obtain ⟨hfunction, hrest⟩ := Prod.mk.inj heq
    obtain ⟨hsource, htarget⟩ := Prod.mk.inj hrest
    refine ⟨definition, hmem, hname'.trans hname, ?_⟩
    rw [hanswer, hfunction, hsource, htarget]
  · rintro ⟨definition, hmem, hname, hanswer⟩
    rcases h.settled env hreads hready definition hmem with ⟨g, hg, hgname⟩ | hpending
    · obtain ⟨definition', hmem', hname', hanswer'⟩ := h.right env hreads g hg
      have hsame : definition' = definition :=
        List.inj_on_of_nodup_map hoptions hmem' hmem (hname'.trans hgname)
      rw [hsame, hanswer] at hanswer'
      obtain ⟨hresult, hsource⟩ := Prod.mk.inj hanswer'
      obtain ⟨hfunction, htarget⟩ := ResolveResult.resolved.inj hresult
      cases hfind : d.session.installedHooks.find? (·.canonicalName = name) with
      | none =>
          have hno := List.find?_eq_none.mp hfind g hg
          exact absurd (decide_eq_true (hgname.trans hname)) hno
      | some g' =>
          have hname' : g'.canonicalName = name := by simpa using List.find?_some hfind
          have hg' : g' = g := List.inj_on_of_nodup_map h.hooks.names
            (List.mem_of_find?_eq_some hfind) hg (hname'.trans (hgname.trans hname).symm)
          refine ⟨g', rfl, ?_⟩
          rw [hg', ← hfunction, ← hsource, ← htarget]
    · rw [hanswer] at hpending
      cases hpending

/-- **LOAD ORDER DOES NOT MATTER**: if one order of the loads ends without an
    error, every other order does, and with the same hooks. -/
theorem load_order_irrelevant {requested : List HookDefinition}
    {modules : List LoadedModule} {order order' : List Load} {d d₁ : DebugState}
    (hlayout : Layout modules) (hd : Unloaded d) (horder : LoadOrder modules order)
    (horder' : LoadOrder modules order')
    (hcalls : allCallsSucceed (selectHooks requested) d order' = true)
    (hrun : (loadSystem (selectHooks requested)).exec d order = some d₁) :
    ∃ d₂, (loadSystem (selectHooks requested)).exec d order' = some d₂ ∧
      hookMap d₂.session.installedHooks = hookMap d₁.session.installedHooks := by
  have hoptions := selectHooks_nodup requested
  obtain ⟨hok, hready⟩ := loadOk_all hlayout horder hd hrun
  -- the system answers with the same exports throughout
  obtain ⟨m, hm, -⟩ := hlayout.ntdll
  obtain ⟨l, hl, -⟩ := List.mem_map.mp (horder.perm.mem_iff.mpr hm)
  have hreads := horder.reads l hl
  have hdecided := hok.decided hoptions hready hreads
  obtain ⟨d₂, hrun'⟩ := exec_succeeds hlayout horder'.fits
    (fun _ hm => (List.not_mem_nil hm).elim) (loadOk_unloaded hd) hcalls hreads
    hok.recorded hdecided
  obtain ⟨hok', hready'⟩ := loadOk_all hlayout horder' hd hrun'
  refine ⟨d₂, hrun', funext fun name => Option.ext fun ⟨function, source, target⟩ => ?_⟩
  have hext : ∀ {A B}, Recorded modules A → Recorded modules B → Extends l.env l.env A B :=
    fun hA hB => extends_of_recorded hlayout hreads hreads hA hB (fun _ => id) fun _ => id
  have hsame : ∀ {A B}, Recorded modules A → Recorded modules B → ∀ definition,
      resolveHookAddress l.env A definition = (.resolved function target, source) →
      resolveHookAddress l.env B definition = (.resolved function target, source) := by
    intro A B hA hB definition hanswer
    refine (resolveHookAddress_extends (hext hA hB) ?_).trans hanswer
    rw [hanswer]
    exact nofun
  rw [hookMap_eq_some hoptions hok' hready' hreads, hookMap_eq_some hoptions hok hready hreads]
  constructor
  · rintro ⟨definition, hmem, hname, hanswer⟩
    exact ⟨definition, hmem, hname, hsame hok'.recorded hok.recorded definition hanswer⟩
  · rintro ⟨definition, hmem, hname, hanswer⟩
    exact ⟨definition, hmem, hname, hsame hok.recorded hok'.recorded definition hanswer⟩

/-! ## Two orders -/

def sampleModule (base : Nat) (name : String) : LoadedModule :=
  ⟨base, cstr name, sampleExports base⟩

def sampleModules : List LoadedModule :=
  [sampleModule 0x80000 "ntdll.dll", sampleModule 0x10000 "api.dll",
    sampleModule 0x20000 "base.dll"]

/-- The load of one of these modules. -/
def sampleLoad (base : Nat) (name : String) : Load where
  loaded := sampleModule base name
  path := wideName name
  env := sampleEnvironment 0x900000
  target := sampleWorld.d.target

/-- The image is mapped, and no module is loaded. -/
def mappedSession : DebugState where
  session := { newSession 1 with hookImageBase := 0x30000, hookImageSize := 0x1000 }
  target := sampleWorld.d.target

def forwardOrder : List Load :=
  [sampleLoad 0x80000 "ntdll.dll", sampleLoad 0x10000 "api.dll",
    sampleLoad 0x20000 "base.dll"]

theorem sampleModules_layout : Layout sampleModules :=
  ⟨by decide, by decide, by decide⟩

theorem forwardOrder_order : LoadOrder sampleModules forwardOrder :=
  ⟨.refl _, by decide, by
    intro l hl m hm
    simp only [forwardOrder, sampleModules, List.mem_cons, List.not_mem_nil, or_false] at hl hm
    rcases hl with rfl | rfl | rfl <;> rcases hm with rfl | rfl | rfl <;> rfl⟩

theorem LoadOrder.reverse {modules : List LoadedModule} {order : List Load}
    (h : LoadOrder modules order) : LoadOrder modules order.reverse where
  perm := by
    rw [List.map_reverse]
    exact (List.reverse_perm _).trans h.perm
  name l hl := h.name l (List.mem_reverse.mp hl)
  reads l hl := h.reads l (List.mem_reverse.mp hl)

/-- `ntdll.dll` first and last: the forwarded hook is installed either way. -/
theorem load_order_irrelevant_reversed : ∃ d₁ d₂,
    (loadSystem (selectHooks [openHook])).exec mappedSession forwardOrder = some d₁ ∧
      (loadSystem (selectHooks [openHook])).exec mappedSession forwardOrder.reverse = some d₂ ∧
      hookMap d₁.session.installedHooks (cstr "api.dll!Open")
        = some (0x20100, 0x10000, 0x20000) ∧
      hookMap d₂.session.installedHooks = hookMap d₁.session.installedHooks := by
  have hexec : ((loadSystem (selectHooks [openHook])).exec mappedSession forwardOrder).map
      (fun d => decide (hookMap d.session.installedHooks (cstr "api.dll!Open")
        = some (0x20100, 0x10000, 0x20000))) = some true := by
    decide +kernel
  have hcalls : allCallsSucceed (selectHooks [openHook]) mappedSession forwardOrder.reverse
      = true := by
    decide +kernel
  obtain ⟨d₁, hrun, hmap⟩ := Option.map_eq_some_iff.mp hexec
  obtain ⟨d₂, hrun', hsame⟩ := load_order_irrelevant sampleModules_layout ⟨rfl, rfl, rfl⟩
    forwardOrder_order forwardOrder_order.reverse hcalls hrun
  exact ⟨d₁, d₂, hrun, hrun', of_decide_eq_true hmap, hsame⟩

end ScopeLoadOrder
