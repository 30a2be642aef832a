import ApiScope.ModuleEventsProofs

/-! # Resolution — what more modules can change

    `ResolveExportAddress` asks the module list for one name after the other
    and reads one export of each module it gets.  An answer that is not
    Pending has found all its modules, so a list that gives the same modules
    for these names gives the same answer: with more modules a Pending hook
    may become Resolved or an Error, and these never change.

    `TryInstallPendingHooks` leaves a selected hook without a record only
    where its answer is Pending. -/

namespace ScopeResolution

open ScopeBytes ScopeProtocol ScopeHook ScopeDebug ScopeModules

/-- `ResolveHookAddress` would return Resolved. -/
def resolves (env : Environment) (modules : List ModuleRecord)
    (definition : HookDefinition) : Bool :=
  match (resolveHookAddress env modules definition).1 with
  | .resolved _ _ => true
  | _ => false

/-- Every name that `A` knows denotes the same module, with the same exports,
    in `B`. -/
def Extends (env env' : Environment) (A B : List ModuleRecord) : Prop :=
  ∀ name m, findModule A name = some m → ∃ m', findModule B name = some m' ∧
    m'.base = m.base ∧
    ∀ e, env'.getRemoteExport m.base e = env.getRemoteExport m.base e

variable {env env' : Environment} {A B : List ModuleRecord}

/-! ## Answers that stay -/

/-- An answer that has found its modules is the answer of every larger list. -/
theorem resolveExportAddress_extends (h : Extends env env' A B) {hops : Nat}
    {visited : List (List UInt8)} {moduleName exportName : List UInt8}
    (hanswer : resolveExportAddress env A hops visited moduleName exportName ≠ .pending) :
    resolveExportAddress env' B hops visited moduleName exportName
      = resolveExportAddress env A hops visited moduleName exportName := by
  induction hops generalizing visited moduleName exportName with
  | zero => rfl
  | succ hops ih =>
      rw [resolveExportAddress] at hanswer ⊢
      rw [resolveExportAddress]
      by_cases hloop : lookupName moduleName ++ cstr "!" ++ exportName ∈ visited
      · rw [if_pos hloop, if_pos hloop]
      · rw [if_neg hloop] at hanswer ⊢
        rw [if_neg hloop]
        cases hfind : findModule A (lookupName moduleName) with
        | none =>
            rw [hfind] at hanswer
            exact absurd rfl hanswer
        | some m =>
            obtain ⟨m', hfind', hbase, hexports⟩ := h _ _ hfind
            rw [hfind] at hanswer
            rw [hfind']
            dsimp only at hanswer ⊢
            rw [hbase, hexports]
            cases hexport : env.getRemoteExport m.base exportName with
            | none => rfl
            | some e =>
                rw [hexport] at hanswer
                dsimp only at hanswer ⊢
                by_cases haddress : e.address ≠ 0
                · rw [if_pos haddress, if_pos haddress]
                · rw [if_neg haddress] at hanswer ⊢
                  rw [if_neg haddress]
                  cases hsplit : splitForwarder e.forwarder with
                  | none => rfl
                  | some forward =>
                      rw [hsplit] at hanswer
                      exact ih hanswer

theorem resolveHookAddress_extends (h : Extends env env' A B) {definition : HookDefinition}
    (hanswer : (resolveHookAddress env A definition).1 ≠ .pending) :
    resolveHookAddress env' B definition = resolveHookAddress env A definition := by
  rw [resolveHookAddress] at hanswer ⊢
  rw [resolveHookAddress]
  cases hfind : findModule A definition.moduleName with
  | none =>
      rw [hfind] at hanswer
      exact absurd rfl hanswer
  | some m =>
      obtain ⟨m', hfind', hbase, -⟩ := h _ _ hfind
      rw [hfind] at hanswer
      rw [hfind']
      dsimp only at hanswer ⊢
      rw [hbase, resolveExportAddress_extends h hanswer]

/-- The resolved answers are those that `resolves` tells. -/
theorem resolves_iff {definition : HookDefinition} :
    resolves env A definition = true ↔ ∃ address target source,
      resolveHookAddress env A definition = (.resolved address target, source) := by
  rw [resolves]
  cases hanswer : resolveHookAddress env A definition with
  | mk result source =>
      cases result with
      | resolved address target => exact ⟨fun _ => ⟨_, _, _, rfl⟩, fun _ => rfl⟩
      | pending => exact ⟨nofun, nofun⟩
      | error => exact ⟨nofun, nofun⟩

/-- What resolves goes on to resolve. -/
theorem resolves_extends (h : Extends env env' A B) {definition : HookDefinition}
    (hres : resolves env A definition = true) : resolves env' B definition = true := by
  obtain ⟨address, target, source, hanswer⟩ := resolves_iff.mp hres
  have hne : (resolveHookAddress env A definition).1 ≠ .pending := by
    rw [hanswer]
    exact nofun
  exact resolves_iff.mpr ⟨address, target, source,
    (resolveHookAddress_extends h hne).trans hanswer⟩

/-! ## What TryInstallPendingHooks leaves -/

/-- A hook with this name is installed. -/
def Named (installed : List InstalledHook) (name : List UInt8) : Prop :=
  ∃ h ∈ installed, h.canonicalName = name

theorem Named.append {installed more : List InstalledHook} {name : List UInt8}
    (h : Named installed name) : Named (installed ++ more) name := by
  obtain ⟨g, hg, hname⟩ := h
  exact ⟨g, List.mem_append_left _ hg, hname⟩

/-- A pass that succeeds only adds hooks. -/
theorem tryInstallPendingHooks_session {hooks : List HookDefinition} {d : DebugState}
    (hok : (tryInstallPendingHooks env hooks d).1 = true) :
    SameButHooks d.session (tryInstallPendingHooks env hooks d).2.session :=
  (tryInstallPendingHooks_run (Q := fun _ _ => True) (fun _ _ => trivial) hok).session

/-- An installed name stays installed. -/
theorem Named.tryInstall {hooks : List HookDefinition} {d : DebugState} {name : List UInt8}
    (hok : (tryInstallPendingHooks env hooks d).1 = true)
    (h : Named d.session.installedHooks name) :
    Named (tryInstallPendingHooks env hooks d).2.session.installedHooks name := by
  obtain ⟨more, heq⟩ := (tryInstallPendingHooks_session hok).eq
  rw [heq]
  exact h.append

/-- One installation adds its name and leaves the modules. -/
theorem installHook_true {definition : HookDefinition} {address source target : Nat}
    {d : DebugState} (hok : (installHook env definition address source target d).1 = true) :
    Named (installHook env definition address source target d).2.session.installedHooks
        definition.canonicalName ∧
      (installHook env definition address source target d).2.session.modules
        = d.session.modules := by
  rw [installHook] at hok ⊢
  split at hok
  next => cases hok
  next hook hcall =>
    dsimp only
    refine ⟨⟨InstalledHook.located hook source target, ?_, ?_⟩, rfl⟩
    · exact List.mem_append_right _ (List.mem_singleton.mpr rfl)
    · exact (hookFunction_some (Prod.ext hcall rfl)).2

/-- **SETTLED**: after a pass that succeeds every selected hook has a record,
    or its answer is Pending. -/
theorem tryInstallPendingHooks_settles {hooks : List HookDefinition} {d : DebugState}
    (hok : (tryInstallPendingHooks env hooks d).1 = true) :
    ∀ definition ∈ hooks,
      Named (tryInstallPendingHooks env hooks d).2.session.installedHooks
          definition.canonicalName ∨
        (resolveHookAddress env d.session.modules definition).1 = .pending := by
  induction hooks generalizing d with
  | nil => exact nofun
  | cons first rest ih =>
      rw [tryInstallPendingHooks] at hok ⊢
      rw [List.forall_mem_cons]
      split at hok
      next hin =>
        rw [if_pos hin]
        refine ⟨Or.inl (Named.tryInstall hok ?_), ih hok⟩
        obtain ⟨g, hg, hname⟩ := List.any_eq_true.mp hin
        exact ⟨g, hg, of_decide_eq_true hname⟩
      next hnew =>
        rw [if_neg hnew]
        split at hok
        next source hres =>
          simp only [hres]
          exact ⟨Or.inr trivial, ih hok⟩
        next => cases hok
        next address target source hres =>
          simp only [hres]
          split at hok
          next => cases hok
          next hdistinct =>
            rw [if_neg hdistinct]
            dsimp only at hok ⊢
            split at hok
            next hinstalled =>
              rw [if_pos hinstalled]
              obtain ⟨hnamed, hmodules⟩ := installHook_true hinstalled
              refine ⟨Or.inl (Named.tryInstall hok hnamed), ?_⟩
              rw [← hmodules]
              exact ih hok
            next => cases hok

end ScopeResolution
