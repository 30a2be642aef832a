import ApiScope.ModuleEventsProofs
import ApiScope.PatchSupportProofs

/-! # Patched spans — which bytes an installation overwrites

    `TryInstallPendingHooks` compares the address of a pending hook with the
    addresses of the installed ones, and asks nothing about the threads that
    the debug event froze.  A patch covers whole instructions, 14 to 28 bytes
    of them: a function that starts a few bytes before or after a patched one
    has another address, and a thread may stand behind the first instruction
    that goes.

    What goes well is told from the state before the event: where its pending
    hooks resolve to (`eventPending`), which patches are there, and where the
    threads are.  The runs are those of the event loop, failing events and
    their cleanup included; every event comes with the threads it froze. -/

namespace ScopeSpans

open ScopeBytes ScopeProtocol ScopeHook ScopeDebug ScopeTransition ScopeQuiescence
  ScopeModules ScopePatched

inductive FrozenAction where
  /-- An event that froze the threads at these instruction pointers. -/
  | event (threads : List Nat) (env : Environment) (e : ModuleEvent)
  /-- The target runs. -/
  | targetRuns (t : Target)

variable (options : List HookDefinition)

def frozenStep (d : DebugState) : FrozenAction → Option DebugState
  | .event _ env e =>
      if d.session.finished then none
      else some (handleEvent env options d e.debugEvent)
  | .targetRuns t => some { d with target := t }

def frozenSystem : System DebugState FrozenAction where
  init := NewSession
  step := frozenStep options

/-! ## The calls of HookFunction -/

/-- The state in which `RegisterModule` calls `TryInstallPendingHooks`. -/
def registerInstall (env : Environment) (base : Nat) (path : List UInt16)
    (d : DebugState) : Option DebugState :=
  let name := registeredName env base path
  if name = [] then none
  else
    let r := configureOnce env base name (recordModule base path name d)
    if r.1 = true ∧ r.2.session.transportConfigured = true then some r.2 else none

/-- The state in which an event calls `TryInstallPendingHooks`. -/
def eventInstall (env : Environment) (d : DebugState) : ModuleEvent → Option DebugState
  | .createProcess base path =>
      if d.session.hookImageBase = 0 then
        if (initializeDebuggee env d).1 then
          registerInstall env base path (initializeDebuggee env d).2
        else none
      else registerInstall env base path d
  | .loadDll base path => registerInstall env base path d
  | .unloadDll _ => none

/-- The calls of an event: the address, and the state before the call. -/
def eventCalls (env : Environment) (d : DebugState) (e : ModuleEvent) :
    List (Nat × DebugState) :=
  (eventInstall env d e).elim [] (hookFunctionCalls env options)

/-- A call that succeeded: its record, and the state before it. -/
structure Hooking where
  hook : InstalledHook
  before : DebugState

/-- The calls of `TryInstallPendingHooks` that succeed. -/
def hookings (env : Environment) : List HookDefinition → DebugState → List Hooking
  | [], _ => []
  | definition :: rest, d =>
      if d.session.installedHooks.any (·.canonicalName = definition.canonicalName) then
        hookings env rest d
      else
        match resolveHookAddress env d.session.modules definition with
        | (.pending, _) => hookings env rest d
        | (.error, _) => []
        | (.resolved address target, source) =>
            if d.session.installedHooks.any (·.originalFunction = address) then []
            else
              match (hookFunction env.getRemoteExport env.decodeInstruction64
                  (env.hookCalls definition) address d.session.hookImageBase definition
                  d.target).1 with
              | none => []
              | some hook =>
                  ⟨InstalledHook.located hook source target, d⟩
                    :: hookings env rest (installHook env definition address source target d).2

/-- A call that succeeded, in an event that froze these threads in this state. -/
structure FrozenCall extends Hooking where
  threads : List Nat
  start : DebugState

/-- The successful calls of an event. -/
def observed (d : DebugState) : FrozenAction → List FrozenCall
  | .event threads env e =>
      ((eventInstall env d e).elim [] (hookings env options)).map fun x => ⟨x, threads, d⟩
  | .targetRuns _ => []

/-! ## Where the hooks of an event go -/

/-- The addresses of the hooks that are not installed and resolve; an address
    that has its hook is an error. -/
def pendingAddresses (env : Environment) (hooks : List HookDefinition)
    (modules : List ModuleRecord) (installed : List InstalledHook) : List Nat :=
  hooks.filterMap fun definition =>
    if installed.any (·.canonicalName = definition.canonicalName) then none
    else
      match (resolveHookAddress env modules definition).1 with
      | .resolved address _ =>
          if installed.any (·.originalFunction = address) then none else some address
      | _ => none

/-- Where the pending hooks of an event resolve to, once it has recorded its
    module. -/
def eventPending (env : Environment) (d : DebugState) : ModuleEvent → List Nat
  | .createProcess base path =>
      pendingAddresses env options
        (recordModule base path (registeredName env base path) d).session.modules
        d.session.installedHooks
  | .loadDll base path =>
      pendingAddresses env options
        (recordModule base path (registeredName env base path) d).session.modules
        d.session.installedHooks
  | .unloadDll _ => []

/-- An instruction has at most 15 bytes. -/
def ShortInstructions (env : Environment) : Prop :=
  ∀ bytes instruction, env.decodeInstruction64 bytes = some instruction →
    instruction.length ≤ 15

/-- The longest patch: an instruction of 15 bytes behind 13 bytes. -/
def longestPatch : Nat := 28

/-- The bytes that `CalculatePatchSize` finds to cover at an address. -/
def coveredSize (env : Environment) (address : Nat) (t : Target) : Nat :=
  calculatePatchSize env.decodeInstruction64 true address t

variable {options}

/-! ## What a call overwrites -/

/-- A trampoline covers the instructions that `CalculatePatchSize` found. -/
theorem createBypassTrampoline_size
    {decodeInstruction64 : List UInt8 → Option DecodedInstruction} {calls : BypassCalls}
    {f : Nat} {t t' : Target} {trampoline : RemoteTrampoline}
    (h : createBypassTrampoline decodeInstruction64 calls f t = (some trampoline, t')) :
    trampoline.patchSize = calculatePatchSize decodeInstruction64 true f t := by
  rw [createBypassTrampoline] at h
  split at h
  next => cases h
  next hsize =>
    have hread : calls.readEntry = true := by
      by_contra hfalse
      exact hsize (if_pos (Bool.eq_false_iff.mpr hfalse))
    split at h
    next => cases h
    next =>
      dsimp only at h
      split at h
      next =>
        obtain ⟨htramp, -⟩ := Prod.mk.inj h
        rw [← Option.some.inj htramp, hread]
      next => cases h

/-- **THE SAVED BYTES** are as many as `CalculatePatchSize` found. -/
theorem hookFunction_size
    {getRemoteExport : Nat → List UInt8 → Option RemoteExport}
    {decodeInstruction64 : List UInt8 → Option DecodedInstruction}
    {calls : HookCalls} {f hookImageBase : Nat} {definition : HookDefinition}
    {t : Target} {hook : InstalledHook}
    (h : (hookFunction getRemoteExport decodeInstruction64 calls f hookImageBase
      definition t).1 = some hook) :
    hook.originalFunction = f ∧
      hook.originalBytes.length = calculatePatchSize decodeInstruction64 true f t := by
  rw [hookFunction] at h
  split at h
  next => cases h
  next =>
    split at h
    next => cases h
    next =>
      split at h
      next => cases h
      next =>
        dsimp only at h
        split at h
        next => cases h
        next trampoline hcreated =>
          split at h
          next => cases h
          next =>
            split at h
            next => cases h
            next =>
              split at h
              next =>
                rw [← Option.some.inj h]
                refine ⟨rfl, ?_⟩
                rw [slice_length]
                exact createBypassTrampoline_size (Prod.ext hcreated rfl)
              next => cases h

/-- The record of an installation is the one of its call. -/
theorem installHook_some {env : Environment} {definition : HookDefinition}
    {address source target : Nat} {d : DebugState} {hook : InstalledHook}
    (h : (hookFunction env.getRemoteExport env.decodeInstruction64
      (env.hookCalls definition) address d.session.hookImageBase definition
      d.target).1 = some hook) :
    (installHook env definition address source target d).1 = true := by
  rw [installHook]
  dsimp only
  rw [h]

/-- A successful call is one of the calls, and covers what it found. -/
theorem mem_hookings {env : Environment} {hooks : List HookDefinition} {d : DebugState}
    {x : Hooking} (h : x ∈ hookings env hooks d) :
    (x.hook.originalFunction, x.before) ∈ hookFunctionCalls env hooks d ∧
      x.hook.originalBytes.length
        = coveredSize env x.hook.originalFunction x.before.target := by
  induction hooks generalizing d with
  | nil => cases h
  | cons definition rest ih =>
      rw [hookings] at h
      rw [hookFunctionCalls]
      by_cases hin : d.session.installedHooks.any
          (·.canonicalName = definition.canonicalName) = true
      · rw [if_pos hin] at h ⊢
        exact ih h
      rw [if_neg hin] at h ⊢
      cases hres : resolveHookAddress env d.session.modules definition with
      | mk result source =>
          rw [hres] at h
          cases result with
          | pending => exact ih h
          | error => cases h
          | resolved address target =>
              dsimp only at h ⊢
              by_cases hconflict : d.session.installedHooks.any
                  (·.originalFunction = address) = true
              · rw [if_pos hconflict] at h
                cases h
              rw [if_neg hconflict] at h ⊢
              split at h
              next => cases h
              next hook hcall =>
                rw [if_pos (installHook_some hcall)]
                rcases List.mem_cons.mp h with rfl | hrest
                · obtain ⟨hf, hsize⟩ := hookFunction_size hcall
                  have hf' : (InstalledHook.located hook source target).originalFunction
                      = address := hf
                  rw [hf']
                  exact ⟨List.mem_cons_self, hsize⟩
                · exact (ih hrest).imp_left (List.mem_cons_of_mem _)

theorem mem_observed {threads : List Nat} {env : Environment} {d : DebugState}
    {e : ModuleEvent} {o : FrozenCall}
    (h : o ∈ observed options d (.event threads env e)) :
    o.threads = threads ∧ o.start = d ∧
      (o.hook.originalFunction, o.before) ∈ eventCalls options env d e ∧
      o.hook.originalBytes.length
        = coveredSize env o.hook.originalFunction o.before.target := by
  obtain ⟨x, hx, rfl⟩ := List.mem_map.mp h
  refine ⟨rfl, rfl, ?_⟩
  rw [eventCalls]
  cases hinstall : eventInstall env d e with
  | none =>
      rw [hinstall] at hx
      cases hx
  | some d₁ =>
      rw [hinstall] at hx
      exact mem_hookings hx

/-! ## The records of the calls

    The calls that `observed` lists are those of the handlers: the records that
    an event leaves are the ones it found and those of its calls, failing
    events included. -/

theorem tryInstallPendingHooks_hooks (env : Environment) (hooks : List HookDefinition)
    (d : DebugState) : (tryInstallPendingHooks env hooks d).2.session.installedHooks
      = d.session.installedHooks ++ (hookings env hooks d).map Hooking.hook := by
  induction hooks generalizing d with
  | nil => exact (List.append_nil _).symm
  | cons definition rest ih =>
      rw [tryInstallPendingHooks, hookings]
      by_cases hin : d.session.installedHooks.any
          (·.canonicalName = definition.canonicalName) = true
      · rw [if_pos hin, if_pos hin]
        exact ih d
      rw [if_neg hin, if_neg hin]
      cases resolveHookAddress env d.session.modules definition with
      | mk result source =>
          cases result with
          | pending => exact ih d
          | error => exact (List.append_nil _).symm
          | resolved address target =>
              dsimp only
              by_cases hconflict : d.session.installedHooks.any
                  (·.originalFunction = address) = true
              · rw [if_pos hconflict, if_pos hconflict]
                exact (List.append_nil _).symm
              rw [if_neg hconflict, if_neg hconflict]
              cases hcall : (hookFunction env.getRemoteExport env.decodeInstruction64
                  (env.hookCalls definition) address d.session.hookImageBase definition
                  d.target).1 with
              | none =>
                  rw [installHook, hcall]
                  exact (List.append_nil _).symm
              | some hook =>
                  rw [if_pos (installHook_some hcall), ih, List.map_cons]
                  have hgrown : (installHook env definition address source
                      target d).2.session.installedHooks
                        = d.session.installedHooks ++ [InstalledHook.located hook source target] := by
                    rw [installHook, hcall]
                  rw [hgrown, List.append_assoc]
                  rfl

theorem configureOnce_hooks (env : Environment) (base : Nat) (name : List UInt8)
    (d : DebugState) :
    (configureOnce env base name d).2.session.installedHooks = d.session.installedHooks := by
  have htransport : (configureTransport env base d).2.session.installedHooks
      = d.session.installedHooks := by
    rw [configureTransport]
    dsimp only
    split
    next => rfl
    next =>
      split
      next => rfl
      next => split <;> rfl
  rw [configureOnce]
  split
  next =>
    dsimp only
    split
    next => exact htransport
    next => exact htransport
  next => rfl

theorem initializeDebuggee_hooks (env : Environment) (d : DebugState) :
    (initializeDebuggee env d).2.session.installedHooks = d.session.installedHooks := by
  have htrace : ∀ d : DebugState,
      (traceStart env d).2.session.installedHooks = d.session.installedHooks := by
    intro d
    rw [traceStart]
    split
    next => rfl
    next =>
      split
      next => rfl
      next =>
        dsimp only
        split
        next => rfl
        next =>
          split
          next => rfl
          next => split <;> rfl
  rw [initializeDebuggee]
  split
  next => rfl
  next =>
    split
    next => rfl
    next image himage =>
      dsimp only
      generalize (if env.readImageSize = true then image.size else 0) = size
      by_cases hsize : size = 0
      · rw [if_pos hsize]
      · rw [if_neg hsize]
        exact htrace _

theorem registerModule_hooks (env : Environment) (base : Nat) (path : List UInt16)
    (d : DebugState) : (registerModule env options base path d).2.session.installedHooks
      = d.session.installedHooks
        ++ ((registerInstall env base path d).elim [] (hookings env options)).map
          Hooking.hook := by
  have hconfigured := configureOnce_hooks env base (registeredName env base path)
    (recordModule base path (registeredName env base path) d)
  rw [registerModule, registerInstall]
  dsimp only
  by_cases hname : registeredName env base path = []
  · rw [if_pos hname, if_pos hname]
    exact (List.append_nil _).symm
  rw [if_neg hname, if_neg hname]
  cases hok : (configureOnce env base (registeredName env base path)
      (recordModule base path (registeredName env base path) d)).1 with
  | false =>
      rw [if_pos rfl, if_neg (by simp)]
      exact hconfigured.trans (List.append_nil _).symm
  | true =>
      rw [if_neg (by simp)]
      by_cases hready : (configureOnce env base (registeredName env base path)
          (recordModule base path (registeredName env base path)
            d)).2.session.transportConfigured = true
      · rw [if_pos hready, if_pos ⟨rfl, hready⟩, tryInstallPendingHooks_hooks, hconfigured]
        rfl
      · rw [if_neg hready, if_neg fun h => hready h.2]
        exact hconfigured.trans (List.append_nil _).symm

/-- **THE RECORDS OF AN EVENT** are some of those it found, and those of its
    calls. -/
theorem dispatchEvent_hooks (env : Environment) (d : DebugState) (e : ModuleEvent) :
    ∃ kept, kept.Sublist d.session.installedHooks ∧
      (dispatchEvent env options d e.debugEvent).state.session.installedHooks
        = kept ++ ((eventInstall env d e).elim [] (hookings env options)).map
          Hooking.hook := by
  cases e with
  | createProcess base path =>
      refine ⟨_, List.Sublist.refl _, ?_⟩
      show (handleCreateProcess env options base path d).2.session.installedHooks = _
      rw [handleCreateProcess, eventInstall]
      by_cases hzero : d.session.hookImageBase = 0
      · rw [if_pos hzero, if_pos hzero]
        have hinit := initializeDebuggee_hooks env d
        dsimp only
        by_cases hok : (initializeDebuggee env d).1 = true
        · rw [if_pos hok, if_pos hok, registerModule_hooks, hinit]
        · rw [if_neg hok, if_neg hok]
          exact hinit.trans (List.append_nil _).symm
      · rw [if_neg hzero, if_neg hzero]
        exact registerModule_hooks env base path d
  | loadDll base path => exact ⟨_, List.Sublist.refl _, registerModule_hooks env base path d⟩
  | unloadDll base =>
      refine ⟨(releaseHooks env base d.session.installedHooks d.target).1, ?_,
        (List.append_nil _).symm⟩
      rw [releaseHooks_hooks]
      exact List.filter_sublist

/-- **EVERY RECORD** is that of a call in the history. -/
theorem installed_observed {ok : DebugState × List FrozenCall → FrozenAction → Prop}
    {p : DebugState × List FrozenCall}
    (hr : ReachableIf ((frozenSystem options).traced (observed options)) ok p) :
    ∀ g ∈ p.1.session.installedHooks, ∃ o ∈ p.2, o.hook = g := by
  refine hr.invariant (P := fun p => ∀ g ∈ p.1.session.installedHooks, ∃ o ∈ p.2, o.hook = g)
    ?_ ?_
  · rintro ⟨d, history⟩ ⟨⟨⟨processId, hsession⟩, -⟩, -⟩ g hg
    rw [hsession] at hg
    cases hg
  · intro p a p' h _ hs g hg
    obtain ⟨hstep, hhistory⟩ := traced_step hs
    rw [hhistory]
    cases a with
    | targetRuns t =>
        rw [← Option.some.inj hstep] at hg
        obtain ⟨o, ho, heq⟩ := h g hg
        exact ⟨o, List.mem_append_left _ ho, heq⟩
    | event threads env e =>
        have hevent : frozenStep options p.1 (.event threads env e) = some p'.1 := hstep
        rw [frozenStep] at hevent
        obtain ⟨-, hp'⟩ := Option.ite_none_left_eq_some.mp hevent
        rw [← Option.some.inj hp', handleEvent] at hg
        dsimp only at hg
        split at hg
        next =>
          have hnone : (ScopeDebug.cleanupRemote env
              (dispatchEvent env options p.1 e.debugEvent).state).2.session.installedHooks = [] :=
            (ScopeSupport.cleanupRemote_session env _).1
          rw [hnone] at hg
          cases hg
        next =>
          obtain ⟨kept, hkept, hhooks⟩ := dispatchEvent_hooks env p.1 e
          rw [hhooks] at hg
          rcases List.mem_append.mp hg with hold | hnew
          · obtain ⟨o, ho, heq⟩ := h g (hkept.subset hold)
            exact ⟨o, List.mem_append_left _ ho, heq⟩
          · obtain ⟨x, hx, rfl⟩ := List.mem_map.mp hnew
            exact ⟨⟨x, threads, p.1⟩,
              List.mem_append_right _ (List.mem_map.mpr ⟨x, hx, rfl⟩), rfl⟩

/-! ## The calls of an event -/

/-- A run of instructions that ends with the first one past 14 bytes. -/
theorem coverPatch_short {decodeInstruction64 : List UInt8 → Option DecodedInstruction}
    (hshort : ∀ bytes instruction, decodeInstruction64 bytes = some instruction →
      instruction.length ≤ 15) {buffer : List UInt8} {passes totalSize size : Nat}
    (htotal : totalSize ≤ longestPatch)
    (h : coverPatch decodeInstruction64 buffer passes totalSize = some size) :
    size ≤ longestPatch := by
  induction passes generalizing totalSize with
  | zero => exact Option.some.inj h ▸ htotal
  | succ passes ih =>
      rw [coverPatch] at h
      split at h
      next hmore =>
        split at h
        next => cases h
        next instruction hinstruction =>
          split at h
          next => cases h
          next =>
            refine ih ?_ h
            have hlen := hshort _ _ hinstruction
            have hless := hmore.1
            rw [patchSize] at hless
            rw [longestPatch]
            omega
      next => exact Option.some.inj h ▸ htotal

/-- **NO PATCH IS LONGER** than 28 bytes. -/
theorem coveredSize_le {env : Environment} (hshort : ShortInstructions env) (address : Nat)
    (t : Target) : coveredSize env address t ≤ longestPatch := by
  rw [coveredSize, calculatePatchSize]
  split
  next => exact Nat.zero_le _
  next =>
    split
    next => exact Nat.zero_le _
    next total htotal =>
      split
      next => exact Nat.zero_le _
      next => exact coverPatch_short hshort (Nat.zero_le _) htotal

theorem mem_pendingAddresses {env : Environment} {hooks : List HookDefinition}
    {modules : List ModuleRecord} {installed : List InstalledHook}
    {definition : HookDefinition} {address target source : Nat} (hmem : definition ∈ hooks)
    (hnew : ¬installed.any (·.canonicalName = definition.canonicalName) = true)
    (hres : resolveHookAddress env modules definition = (.resolved address target, source))
    (hfree : ¬installed.any (·.originalFunction = address) = true) :
    address ∈ pendingAddresses env hooks modules installed := by
  refine List.mem_filterMap.mpr ⟨definition, hmem, ?_⟩
  rw [if_neg hnew, hres]
  exact if_neg hfree

/-- A hook found by a call of an event: one that was there before the event, or
    one of its own. -/
def Found (pending : List Nat) (installed : List InstalledHook) (g : InstalledHook) : Prop :=
  g ∈ installed ∨ (g.originalFunction ∈ pending ∧ g.originalBytes.length ≤ longestPatch)

/-- Every call goes to a pending address, and finds the hooks of before and
    those of the calls before it, on other functions. -/
theorem mem_hookFunctionCalls {env : Environment} (hshort : ShortInstructions env)
    {all hooks : List HookDefinition} {modules : List ModuleRecord}
    {installed : List InstalledHook} {d : DebugState} (hsub : ∀ x ∈ hooks, x ∈ all)
    (hmodules : d.session.modules = modules)
    (hold : ∀ g ∈ installed, g ∈ d.session.installedHooks)
    (hfound : ∀ g ∈ d.session.installedHooks,
      Found (pendingAddresses env all modules installed) installed g)
    {c : Nat × DebugState} (hc : c ∈ hookFunctionCalls env hooks d) :
    c.1 ∈ pendingAddresses env all modules installed ∧
      ∀ g ∈ c.2.session.installedHooks, g.originalFunction ≠ c.1 ∧
        Found (pendingAddresses env all modules installed) installed g := by
  have hfewer : ∀ {p : InstalledHook → Bool}, ¬d.session.installedHooks.any p = true →
      ¬installed.any p = true := by
    intro p hnone hsome
    obtain ⟨g, hg, hp⟩ := List.any_eq_true.mp hsome
    exact hnone (List.any_eq_true.mpr ⟨g, hold g hg, hp⟩)
  induction hooks generalizing d with
  | nil => cases hc
  | cons definition rest ih =>
      have hsub' : ∀ x ∈ rest, x ∈ all := fun x hx => hsub x (List.mem_cons_of_mem _ hx)
      rw [hookFunctionCalls] at hc
      split at hc
      next => exact ih hsub' hmodules hold hfound hc hfewer
      next hnew =>
        split at hc
        next => exact ih hsub' hmodules hold hfound hc hfewer
        next => cases hc
        next address target source hres =>
          split at hc
          next => cases hc
          next hdistinct =>
            dsimp only at hc
            rw [hmodules] at hres
            have hpending : address ∈ pendingAddresses env all modules installed :=
              mem_pendingAddresses (hsub definition List.mem_cons_self) (hfewer hnew) hres
                (hfewer hdistinct)
            rcases List.mem_cons.mp hc with rfl | hrest
            · refine ⟨hpending, fun g hg => ⟨fun hfun => hdistinct ?_, hfound g hg⟩⟩
              exact List.any_eq_true.mpr ⟨g, hg, decide_eq_true hfun⟩
            · split at hrest
              next hok =>
                -- the new record is one of the event's own
                rw [installHook] at hok hrest
                split at hok
                next => cases hok
                next hook hcall =>
                  obtain ⟨hf, hsize⟩ := hookFunction_size hcall
                  rw [hcall] at hrest
                  have hgrown : ∀ g ∈ d.session.installedHooks
                      ++ [InstalledHook.located hook source target],
                      Found (pendingAddresses env all modules installed) installed g := by
                    intro g hg
                    rcases List.mem_append.mp hg with hg | hg
                    · exact hfound g hg
                    · rw [List.mem_singleton.mp hg]
                      refine Or.inr ⟨?_, ?_⟩
                      · show hook.originalFunction ∈ _
                        rw [hf]
                        exact hpending
                      · show hook.originalBytes.length ≤ _
                        rw [hsize]
                        exact coveredSize_le hshort address d.target
                  have hkept : ∀ g ∈ installed, g ∈ d.session.installedHooks
                      ++ [InstalledHook.located hook source target] :=
                    fun g hg => List.mem_append_left _ (hold g hg)
                  refine ih hsub' ?_ ?_ ?_ hrest ?_
                  · exact hmodules
                  · exact hkept
                  · exact hgrown
                  · intro p hnone hsome
                    obtain ⟨g, hg, hp⟩ := List.any_eq_true.mp hsome
                    exact hnone (List.any_eq_true.mpr ⟨g, hkept g hg, hp⟩)
              next => cases hrest

/-- Registering a module gets to its calls with the module recorded and the
    same hooks. -/
theorem registerInstall_session {env : Environment} {base : Nat} {path : List UInt16}
    {d d₁ : DebugState} (h : registerInstall env base path d = some d₁) :
    d₁.session.modules
        = (recordModule base path (registeredName env base path) d).session.modules ∧
      d₁.session.installedHooks = d.session.installedHooks := by
  rw [registerInstall] at h
  dsimp only at h
  split at h
  next => cases h
  next =>
    split at h
    next hgood =>
      cases h
      have hkeeps := configureOnce_keeps hgood.1
      exact ⟨hkeeps.modules, hkeeps.installedHooks⟩
    next => cases h

/-- **THE CALLS OF AN EVENT** go to the pending addresses that are told from
    the state before it, and find no other hooks than those of that state and
    their own. -/
theorem mem_eventCalls {env : Environment} (hshort : ShortInstructions env) {d : DebugState}
    {e : ModuleEvent} {c : Nat × DebugState} (hc : c ∈ eventCalls options env d e) :
    c.1 ∈ eventPending options env d e ∧
      ∀ g ∈ c.2.session.installedHooks, g.originalFunction ≠ c.1 ∧
        Found (eventPending options env d e) d.session.installedHooks g := by
  have hregister : ∀ {base path d₀ d₁},
      d₀.session.modules = d.session.modules →
      d₀.session.moduleGeneration = d.session.moduleGeneration →
      d₀.session.installedHooks = d.session.installedHooks →
      registerInstall env base path d₀ = some d₁ → c ∈ hookFunctionCalls env options d₁ →
      c.1 ∈ pendingAddresses env options
          (recordModule base path (registeredName env base path) d).session.modules
          d.session.installedHooks ∧
        ∀ g ∈ c.2.session.installedHooks, g.originalFunction ≠ c.1 ∧
          Found (pendingAddresses env options
            (recordModule base path (registeredName env base path) d).session.modules
            d.session.installedHooks) d.session.installedHooks g := by
    intro base path d₀ d₁ hmodules hgeneration hhooks hinstall hmem
    obtain ⟨hrecorded, hsame⟩ := registerInstall_session hinstall
    have hrecorded' : d₁.session.modules
        = (recordModule base path (registeredName env base path) d).session.modules := by
      rw [hrecorded, recordModule, recordModule]
      dsimp only
      rw [hmodules, hgeneration]
    have hsame' := hsame.trans hhooks
    exact mem_hookFunctionCalls hshort (fun _ hx => hx) hrecorded'
      (fun g hg => hsame'.symm ▸ hg) (fun g hg => Or.inl (hsame' ▸ hg)) hmem
  rw [eventCalls] at hc
  cases e with
  | createProcess base path =>
      rw [eventInstall] at hc
      by_cases hzero : d.session.hookImageBase = 0
      · rw [if_pos hzero] at hc
        cases hok : (initializeDebuggee env d).1 with
        | false =>
            rw [hok] at hc
            cases hc
        | true =>
            rw [hok, if_pos rfl] at hc
            obtain ⟨image, size, ring, wake, hs⟩ := (initializeDebuggee_true hok).session
            cases hinstall : registerInstall env base path (initializeDebuggee env d).2 with
            | none =>
                rw [hinstall] at hc
                cases hc
            | some d₁ =>
                rw [hinstall] at hc
                exact hregister (by rw [hs]) (by rw [hs]) (by rw [hs]) hinstall hc
      · rw [if_neg hzero] at hc
        cases hinstall : registerInstall env base path d with
        | none =>
            rw [hinstall] at hc
            cases hc
        | some d₁ =>
            rw [hinstall] at hc
            exact hregister rfl rfl rfl hinstall hc
  | loadDll base path =>
      rw [eventInstall] at hc
      cases hinstall : registerInstall env base path d with
      | none =>
          rw [hinstall] at hc
          cases hc
      | some d₁ =>
          rw [hinstall] at hc
          exact hregister rfl rfl rfl hinstall hc
  | unloadDll base => cases hc

/-! ## Spans that stay apart -/

/-- A call keeps clear of the spans of the hooks that are installed then. -/
def ClearCall (env : Environment) (address : Nat) (d : DebugState) : Prop :=
  ∀ g ∈ d.session.installedHooks,
    RunsApart g.originalFunction g.originalBytes.length address
      (coveredSize env address d.target)

/-- The bytes that a patch at `a` may take have nothing to do with `h`. -/
def BesideHook (a : Nat) (h : InstalledHook) : Prop :=
  RunsApart h.originalFunction h.originalBytes.length a longestPatch

/-- The entry of a function that was hooked jumps into the image. -/
def StillJumps (d : DebugState) (o : FrozenCall) : Prop :=
  jumps d o.hook.originalFunction = true

variable (options) in
/-- Before the event: every pending address is at least a longest patch away
    from the other ones, and from the patches that are there, with or without a
    record. -/
structure FarApart (history : List FrozenCall) (env : Environment) (d : DebugState)
    (e : ModuleEvent) : Prop where
  installed : ∀ a ∈ eventPending options env d e, ∀ g ∈ d.session.installedHooks,
    BesideHook a g
  left : ∀ a ∈ eventPending options env d e, ∀ o ∈ history, StillJumps d o →
    BesideHook a o.hook
  pending : ∀ a ∈ eventPending options env d e, ∀ b ∈ eventPending options env d e,
    a ≠ b → RunsApart a longestPatch b longestPatch

variable (options) in
/-- The steps of a run whose hooks are far apart. -/
def SpreadOut (p : DebugState × List FrozenCall) : FrozenAction → Prop
  | .event _ env e => ShortInstructions env ∧ FarApart options p.2 env p.1 e
  | .targetRuns _ => True

/-- Two runs inside two others. -/
theorem RunsApart.within {off n a m n' m' : Nat} (h : RunsApart off n a m) (hn : n' ≤ n)
    (hm : m' ≤ m) : RunsApart off n' a m' := by
  rcases h with h | h
  · exact Or.inl (by omega)
  · exact Or.inr (by omega)

/-- Calls to addresses that are far apart keep clear. -/
theorem clearCall_of_farApart {history : List FrozenCall} {env : Environment}
    {d : DebugState} {e : ModuleEvent} (hshort : ShortInstructions env)
    (hfar : FarApart options history env d e) {c : Nat × DebugState}
    (hc : c ∈ eventCalls options env d e) : ClearCall env c.1 c.2 := by
  obtain ⟨hpending, hfound⟩ := mem_eventCalls hshort hc
  have hsize := coveredSize_le hshort c.1 c.2.target
  intro g hg
  obtain ⟨hne, hold | ⟨hnew, hlength⟩⟩ := hfound g hg
  · exact RunsApart.within (hfar.installed _ hpending g hold) (Nat.le_refl _) hsize
  · exact RunsApart.within (hfar.pending _ hnew _ hpending hne) hlength hsize

/-- One installation that keeps clear. -/
theorem pairwise_installs {env : Environment} {d d' : DebugState} {address : Nat}
    (hclear : ClearCall env address d) (hs : Installs env options d address d')
    (h : d.session.installedHooks.Pairwise SpansApart) :
    d'.session.installedHooks.Pairwise SpansApart := by
  cases hs with
  | @mk definition source target hook t' hmem hnew hres hdistinct hcall =>
      obtain ⟨hf, hsize⟩ := hookFunction_size (congrArg Prod.fst hcall)
      refine List.pairwise_append.mpr ⟨h, List.pairwise_singleton _ _, ?_⟩
      intro g hg g' hg'
      rw [List.mem_singleton.mp hg']
      show RunsApart g.originalFunction _ hook.originalFunction hook.originalBytes.length
      rw [hf, hsize]
      exact hclear g hg

theorem registerInstall_some {env : Environment} {base : Nat} {path : List UInt16}
    {d : DebugState} (hname : registeredName env base path ≠ [])
    (hconf : (configureOnce env base (registeredName env base path)
      (recordModule base path (registeredName env base path) d)).1 = true)
    (hready : (configureOnce env base (registeredName env base path)
      (recordModule base path (registeredName env base path)
        d)).2.session.transportConfigured = true) :
    registerInstall env base path d = some (configureOnce env base
      (registeredName env base path)
      (recordModule base path (registeredName env base path) d)).2 := by
  rw [registerInstall, if_neg hname]
  exact if_pos ⟨hconf, hready⟩

/-- Registering a module with calls that keep clear. -/
theorem pairwise_registerModule {env : Environment} {base : Nat} {path : List UInt16}
    {d : DebugState}
    (hclear : ∀ c ∈ (registerInstall env base path d).elim []
      (hookFunctionCalls env options), ClearCall env c.1 c.2)
    (hok : (registerModule env options base path d).1 = true)
    (h : d.session.installedHooks.Pairwise SpansApart) :
    (registerModule env options base path d).2.session.installedHooks.Pairwise
      SpansApart := by
  rcases registerModule_true (Q := fun _ _ => True) (fun _ _ => trivial) hok with
    ⟨-, heq⟩ | ⟨hname, hconf, hcase⟩
  · rwa [heq]
  · have hstart : (configureOnce env base (registeredName env base path)
        (recordModule base path (registeredName env base path)
          d)).2.session.installedHooks.Pairwise SpansApart := by
      rw [(configureOnce_keeps hconf).installedHooks]
      exact h
    rcases hcase with ⟨-, heq⟩ | ⟨hready, hinstall, heq, -⟩
    · rwa [heq]
    · rw [registerInstall_some hname hconf hready] at hclear
      rw [heq]
      exact (tryInstallPendingHooks_run hclear hinstall).keeps
        (fun _ _ _ hq hs hd => pairwise_installs hq hs hd) hstart

/-- The first process event maps the image before it registers its module. -/
theorem pairwise_createProcess {env : Environment} {base : Nat} {path : List UInt16}
    {d : DebugState}
    (hclear : ∀ c ∈ eventCalls options env d (.createProcess base path),
      ClearCall env c.1 c.2)
    (hok : (handleCreateProcess env options base path d).1 = true)
    (h : d.session.installedHooks.Pairwise SpansApart) :
    (handleCreateProcess env options base path d).2.session.installedHooks.Pairwise
      SpansApart := by
  rw [eventCalls, eventInstall] at hclear
  rw [handleCreateProcess] at hok ⊢
  split at hok
  next hzero =>
    rw [if_pos hzero] at hclear ⊢
    dsimp only at hok ⊢
    split at hok
    next hinit =>
      rw [if_pos hinit] at hclear ⊢
      refine pairwise_registerModule hclear hok ?_
      obtain ⟨image, size, ring, wake, hs⟩ := (initializeDebuggee_true hinit).session
      rw [hs]
      exact h
    next => cases hok
  next hmapped =>
    rw [if_neg hmapped] at hclear ⊢
    exact pairwise_registerModule hclear hok h

/-- One step that keeps clear. -/
theorem pairwise_step {d d' : DebugState} {a : FrozenAction} {history : List FrozenCall}
    (h : d.session.installedHooks.Pairwise SpansApart)
    (hspread : SpreadOut options (d, history) a)
    (hs : frozenStep options d a = some d') :
    d'.session.installedHooks.Pairwise SpansApart := by
  cases a with
  | targetRuns t =>
      rw [← Option.some.inj hs]
      exact h
  | event threads env e =>
      rw [frozenStep] at hs
      obtain ⟨-, hd'⟩ := Option.ite_none_left_eq_some.mp hs
      have hcalls : ∀ c ∈ eventCalls options env d e, ClearCall env c.1 c.2 :=
        fun c hc => clearCall_of_farApart hspread.1 hspread.2 hc
      rw [← Option.some.inj hd', handleEvent]
      dsimp only
      split
      next =>
        -- a failing event ends without a record
        show (ScopeDebug.cleanupRemote env _).2.session.installedHooks.Pairwise _
        rw [(ScopeSupport.cleanupRemote_session env _).1]
        exact List.Pairwise.nil
      next hgood =>
        have hok : (dispatchEvent env options d e.debugEvent).eventOk = true :=
          Bool.not_eq_false _ ▸ fun hbad => hgood (Or.inl hbad)
        cases e with
        | createProcess base path => exact pairwise_createProcess hcalls hok h
        | loadDll base path => exact pairwise_registerModule hcalls hok h
        | unloadDll base =>
            show ((releaseHooks env base d.session.installedHooks d.target).1).Pairwise _
            rw [releaseHooks_hooks]
            exact h.sublist List.filter_sublist

/-! ## Bytes that no patch covers -/

/-- The record of the first call, in the state before the second. -/
def Recorded (x y : Hooking) : Prop :=
  ∃ g ∈ y.before.session.installedHooks,
    g.originalFunction = x.hook.originalFunction ∧ g.originalBytes = x.hook.originalBytes

/-- What is installed before the calls is installed before each of them. -/
theorem installed_before {env : Environment} {hooks : List HookDefinition}
    {d : DebugState} {y : Hooking} (h : y ∈ hookings env hooks d) {g : InstalledHook}
    (hg : g ∈ d.session.installedHooks) : g ∈ y.before.session.installedHooks := by
  induction hooks generalizing d with
  | nil => cases h
  | cons definition rest ih =>
      rw [hookings] at h
      split at h
      next => exact ih h hg
      next =>
        split at h
        next => exact ih h hg
        next => cases h
        next address target source _ =>
          split at h
          next => cases h
          next =>
            split at h
            next => cases h
            next hook hcall =>
              rcases List.mem_cons.mp h with rfl | hrest
              · exact hg
              · refine ih hrest ?_
                rw [installHook]
                dsimp only
                rw [hcall]
                exact List.mem_append_left _ hg

/-- Each call of an event finds the records of the calls before it. -/
theorem hookings_recorded (env : Environment) (hooks : List HookDefinition)
    (d : DebugState) : (hookings env hooks d).Pairwise Recorded := by
  induction hooks generalizing d with
  | nil => exact List.Pairwise.nil
  | cons definition rest ih =>
      rw [hookings]
      split
      next => exact ih d
      next =>
        split
        next => exact ih d
        next => exact List.Pairwise.nil
        next address target source _ =>
          split
          next => exact List.Pairwise.nil
          next =>
            split
            next => exact List.Pairwise.nil
            next hook hcall =>
              refine List.pairwise_cons.mpr ⟨fun y hy => ?_, ih _⟩
              refine ⟨InstalledHook.located hook source target, installed_before hy ?_,
                rfl, rfl⟩
              rw [installHook]
              dsimp only
              rw [hcall]
              exact List.mem_append_right _ (List.mem_singleton.mpr rfl)

theorem observed_recorded (d : DebugState) (a : FrozenAction) :
    (observed options d a).Pairwise fun x y => Recorded x.toHooking y.toHooking := by
  cases a with
  | targetRuns t => exact List.Pairwise.nil
  | event threads env e =>
      rw [observed]
      cases eventInstall env d e with
      | none => exact List.Pairwise.nil
      | some d₁ => exact List.pairwise_map.mpr (hookings_recorded env options d₁)

/-- The bytes of `y` are no bytes of the patch of `x`, if its function jumped
    when the event of `y` came. -/
def NotOver (x y : FrozenCall) : Prop := StillJumps y.start x → SpansApart x.hook y.hook

/-- What holds of the installed hooks and of all calls so far. -/
structure SpansOk (p : DebugState × List FrozenCall) : Prop where
  installed : p.1.session.installedHooks.Pairwise SpansApart
  saved : ∀ o ∈ p.2, ∀ g ∈ o.before.session.installedHooks, SpansApart g o.hook
  left : p.2.Pairwise NotOver

/-- The calls of a step whose hooks are far apart. -/
theorem clear_of_mem_observed {p : DebugState × List FrozenCall} {a : FrozenAction}
    (hspread : SpreadOut options p a) {o : FrozenCall} (ho : o ∈ observed options p.1 a) :
    (∀ g ∈ o.before.session.installedHooks, SpansApart g o.hook) ∧
      ∀ x ∈ p.2, NotOver x o := by
  cases a with
  | targetRuns t => cases ho
  | event threads env e =>
      obtain ⟨hshort, hfar⟩ := hspread
      obtain ⟨-, hstart, hcall, hsize⟩ := mem_observed ho
      refine ⟨fun g hg => ?_, fun x hx hjumps => ?_⟩
      · rw [SpansApart, hsize]
        exact clearCall_of_farApart hshort hfar hcall g hg
      · rw [hstart] at hjumps
        have hbeside := hfar.left _ (mem_eventCalls hshort hcall).1 x hx hjumps
        rw [SpansApart, hsize]
        exact RunsApart.within hbeside (Nat.le_refl _) (coveredSize_le hshort _ _)

theorem spansOk_step {p p' : DebugState × List FrozenCall} {a : FrozenAction}
    (h : SpansOk p) (hspread : SpreadOut options p a)
    (hs : ((frozenSystem options).traced (observed options)).step p a = some p') :
    SpansOk p' := by
  obtain ⟨hstep, hhistory⟩ := traced_step hs
  refine ⟨pairwise_step h.installed hspread hstep, ?_, ?_⟩
  · rw [hhistory]
    intro o ho
    rcases List.mem_append.mp ho with hold | hnew
    · exact h.saved o hold
    · exact (clear_of_mem_observed hspread hnew).1
  · rw [hhistory]
    refine List.pairwise_append.mpr ⟨h.left, ?_, ?_⟩
    · -- within one event the earlier call has left its record
      refine (observed_recorded p.1 a).imp_of_mem ?_
      rintro x y - hy ⟨g, hg, hfunction, hbytes⟩ -
      rw [SpansApart, ← hfunction, ← hbytes]
      exact (clear_of_mem_observed hspread hy).1 g hg
    · intro x hx y hy
      exact (clear_of_mem_observed hspread hy).2 x hx

/-- **PATCHED SPANS**: as long as the pending hooks of every event resolve to
    addresses a longest patch away from each other and from the patches that
    are there, the patched spans of the installed hooks are pairwise disjoint,
    and no byte that a call saved and copied belonged to a patch.  Every
    installed hook is that of such a call. -/
theorem patched_spans_apart {p : DebugState × List FrozenCall}
    (hr : ReachableIf ((frozenSystem options).traced (observed options))
      (SpreadOut options) p) :
    p.1.session.installedHooks.Pairwise SpansApart ∧
      (∀ o ∈ p.2, ∀ g ∈ o.before.session.installedHooks, SpansApart g o.hook) ∧
      p.2.Pairwise NotOver ∧ ∀ g ∈ p.1.session.installedHooks, ∃ o ∈ p.2, o.hook = g := by
  have hok : SpansOk p := by
    refine hr.invariant ?_ fun _ _ _ h hspread hs => spansOk_step h hspread hs
    rintro ⟨d, history⟩ ⟨⟨⟨processId, hsession⟩, -⟩, hnil⟩
    refine ⟨?_, ?_, ?_⟩
    · show d.session.installedHooks.Pairwise _
      rw [hsession]
      exact List.Pairwise.nil
    · rw [hnil]
      intro o ho
      cases ho
    · rw [hnil]
      exact List.Pairwise.nil
  have hrecords := installed_observed hr
  exact ⟨hok.installed, hok.saved, hok.left, hrecords⟩

/-! ## Two exports that are close together -/

instance (history : List FrozenCall) (env : Environment) (d : DebugState) (e : ModuleEvent) :
    Decidable (FarApart options history env d e) :=
  decidable_of_iff
    ((∀ a ∈ eventPending options env d e, ∀ g ∈ d.session.installedHooks,
        RunsApart g.originalFunction g.originalBytes.length a longestPatch) ∧
      (∀ a ∈ eventPending options env d e, ∀ o ∈ history,
        jumps d o.hook.originalFunction = true →
        RunsApart o.hook.originalFunction o.hook.originalBytes.length a longestPatch) ∧
      ∀ a ∈ eventPending options env d e, ∀ b ∈ eventPending options env d e,
        a ≠ b → RunsApart a longestPatch b longestPatch)
    ⟨fun h => ⟨h.1, h.2.1, h.2.2⟩, fun h => ⟨h.installed, h.left, h.pending⟩⟩

/-- `Open` of `api.dll` is at `0x10100`, and `Close` at the given address. -/
def closeExports (close base : Nat) (name : List UInt8) : Option RemoteExport :=
  if base = 0x10000 then
    if name = cstr "Open" then some ⟨0x10100, []⟩ else some ⟨close, []⟩
  else if base = 0x30000 then
    if name = cstr "CloseHandler" then some ⟨0x30600, []⟩
    else if name = cstr "CloseTrampoline" then some ⟨0x30018, []⟩
    else sampleExports base name
  else sampleExports base name

def closeEnvironment (close : Nat) : Environment :=
  { Environment.cooperative (closeExports close)
      (fun name => if name = cstr "api.dll!Close" then 0x41000 else sampleAllocated name)
      ⟨0x30000, 0x1000⟩ ⟨0x50000, 0x1000⟩ with
    decodeInstruction64 := decodeSample }

def closeRun (close : Nat) : List FrozenAction :=
  [.event [] (closeEnvironment close) (.createProcess 0x400000 (wideName "a.exe")),
    .event [] (closeEnvironment close) (.loadDll 0x80000 (wideName "ntdll.dll")),
    .event [] (closeEnvironment close) (.loadDll 0x10000 (wideName "api.dll"))]

/-- **OVERLAPPING PATCHES**: of two exports eight bytes apart the second one is
    hooked first; the patch of the other then saves, copies and overwrites the
    jump that is there. -/
theorem patched_spans_overlap : ∃ p,
    Reachable ((frozenSystem [closeHook, openHook]).traced
      (observed [closeHook, openHook])) p ∧
      ¬p.1.session.installedHooks.Pairwise SpansApart ∧
      ∃ o ∈ p.2, (o.hook.originalBytes.drop 8).take 5 = (absoluteJump 0x30600).take 5 := by
  have hexec : (((frozenSystem [closeHook, openHook]).traced
      (observed [closeHook, openHook])).exec (sampleWorld.d, []) (closeRun 0x10108)).map
      (fun p => decide (¬p.1.session.installedHooks.Pairwise SpansApart ∧
        ∃ o ∈ p.2, (o.hook.originalBytes.drop 8).take 5
          = (absoluteJump 0x30600).take 5)) = some true := by
    decide +kernel
  obtain ⟨p, hp, hseen⟩ := Option.map_eq_some_iff.mp hexec
  have hstart : Reachable ((frozenSystem [closeHook, openHook]).traced
      (observed [closeHook, openHook])) (sampleWorld.d, []) :=
    .init ⟨sampleSession_new, rfl⟩
  exact ⟨p, hstart.exec (fun _ _ => trivial) (closeRun 0x10108) hp, of_decide_eq_true hseen⟩

theorem closeEnvironment_short (close : Nat) : ShortInstructions (closeEnvironment close) := by
  intro bytes instruction h
  have h' : decodeSample bytes = some instruction := h
  unfold decodeSample at h'
  split at h' <;> cases h' <;> decide

/-- An event of the sample before which the hooks are far apart. -/
def farStep (p : DebugState × List FrozenCall) : FrozenAction → Bool
  | .event _ env e => decide (FarApart [closeHook, openHook] p.2 env p.1 e)
  | .targetRuns _ => true

/-- The spans of a run whose two exports are far enough apart. -/
theorem patched_spans_apart_far : ∃ p,
    ReachableIf ((frozenSystem [closeHook, openHook]).traced
      (observed [closeHook, openHook])) (SpreadOut [closeHook, openHook]) p ∧
      p.1.session.installedHooks.map InstalledHook.originalFunction
        = [0x10140, 0x10100] ∧
      p.1.session.installedHooks.Pairwise SpansApart ∧
      (∀ o ∈ p.2, ∀ g ∈ o.before.session.installedHooks, SpansApart g o.hook) ∧
      p.2.Pairwise NotOver ∧ ∀ g ∈ p.1.session.installedHooks, ∃ o ∈ p.2, o.hook = g := by
  have hexec : (((frozenSystem [closeHook, openHook]).traced
      (observed [closeHook, openHook])).execWhile farStep (sampleWorld.d, [])
        (closeRun 0x10140)).map (fun p =>
        decide (p.1.session.installedHooks.map InstalledHook.originalFunction
          = [0x10140, 0x10100])) = some true := by
    decide +kernel
  obtain ⟨p, hp, hseen⟩ := Option.map_eq_some_iff.mp hexec
  have hstart : ReachableIf ((frozenSystem [closeHook, openHook]).traced
      (observed [closeHook, openHook])) (SpreadOut [closeHook, openHook])
      (sampleWorld.d, []) := .init ⟨sampleSession_new, rfl⟩
  have hr : ReachableIf ((frozenSystem [closeHook, openHook]).traced
      (observed [closeHook, openHook])) (SpreadOut [closeHook, openHook]) p := by
    refine hstart.execWhile_mem (closeRun 0x10140) ?_ hp
    intro q a ha hfar
    simp only [closeRun, List.mem_cons, List.not_mem_nil, or_false] at ha
    rcases ha with rfl | rfl | rfl
    all_goals exact ⟨closeEnvironment_short _, of_decide_eq_true hfar⟩
  exact ⟨p, hr, of_decide_eq_true hseen, patched_spans_apart hr⟩

/-! ## Threads behind the first instruction

    The removal of a patch asks where the threads are; an installation only
    has them frozen. -/

variable (options) in
/-- Before the event: no frozen thread stands behind the first byte of an
    address where a pending hook goes, within a longest patch. -/
def ThreadsClear (threads : List Nat) (env : Environment) (d : DebugState)
    (e : ModuleEvent) : Prop :=
  ∀ a ∈ eventPending options env d e, ∀ rip ∈ threads,
    ¬(a < rip ∧ rip < a + longestPatch)

instance (threads : List Nat) (env : Environment) (d : DebugState) (e : ModuleEvent) :
    Decidable (ThreadsClear options threads env d e) :=
  inferInstanceAs (Decidable (∀ a ∈ _, ∀ rip ∈ threads, ¬(_ < rip ∧ rip < _)))

variable (options) in
/-- The steps of a run that installs away from the threads. -/
def Unoccupied (d : DebugState) : FrozenAction → Prop
  | .event threads env e => ShortInstructions env ∧ ThreadsClear options threads env d e
  | .targetRuns _ => True

/-- No frozen thread was inside the patch of a successful call. -/
def NotUnder (o : FrozenCall) : Prop :=
  ∀ rip ∈ o.threads, ¬(o.hook.originalFunction < rip ∧
    rip < o.hook.originalFunction + o.hook.originalBytes.length)

/-- The calls of one step. -/
theorem notUnder_of_mem_observed {d : DebugState} {a : FrozenAction}
    (hfree : Unoccupied options d a) {o : FrozenCall}
    (ho : o ∈ observed options d a) : NotUnder o := by
  cases a with
  | targetRuns t => cases ho
  | event threads env e =>
      obtain ⟨hshort, hnone⟩ := hfree
      obtain ⟨hthreads, -, hcall, hsize⟩ := mem_observed ho
      have hpending := (mem_eventCalls hshort hcall).1
      have hle := coveredSize_le hshort o.hook.originalFunction o.before.target
      rintro rip hrip ⟨hafter, hbefore⟩
      refine hnone _ hpending rip (hthreads ▸ hrip) ⟨hafter, ?_⟩
      show rip < o.hook.originalFunction + longestPatch
      omega

/-- **NO PATCH UNDER A THREAD** as long as no thread stands behind the first
    byte of where a pending hook goes: of all calls, and every installed hook is
    that of one. -/
theorem no_patch_under_thread {p : DebugState × List FrozenCall}
    (hr : ReachableIf ((frozenSystem options).traced (observed options))
      (fun p a => Unoccupied options p.1 a) p) :
    (∀ o ∈ p.2, NotUnder o) ∧ ∀ g ∈ p.1.session.installedHooks, ∃ o ∈ p.2, o.hook = g := by
  have hrecords := installed_observed hr
  refine ⟨?_, hrecords⟩
  refine @traced_invariant _ _ _ (frozenSystem options) (observed options)
    (Unoccupied options) (fun _ => True) (fun _ history => ∀ o ∈ history, NotUnder o)
    (fun _ _ => trivial) ?_ ?_ p hr
  · intro d _ o ho
    cases ho
  intro d history a d' _ hold hfree _ o ho
  rcases List.mem_append.mp ho with h | h
  · exact hold o h
  · exact notUnder_of_mem_observed hfree h

/-- The start of a target whose thread is at `rip` when the hooked module is
    loaded. -/
def threadRun (rip : Nat) : List FrozenAction :=
  [.event [0x900000] (sampleEnvironment 0x900000)
      (.createProcess 0x400000 (wideName "a.exe")),
    .event [0x900000] (sampleEnvironment 0x900000)
      (.loadDll 0x80000 (wideName "ntdll.dll")),
    .event [0x900000] (sampleEnvironment 0x900000)
      (.loadDll 0x10000 (wideName "api.dll")),
    .event [rip] (sampleEnvironment rip) (.loadDll 0x20000 (wideName "base.dll"))]

/-- **A THREAD INSIDE A PATCH**: the thread has done the first instruction of
    the function, one byte long, when the patch is written over the next. -/
theorem patched_under_thread : ∃ p,
    Reachable ((frozenSystem [openHook]).traced (observed [openHook])) p ∧
      ∃ o ∈ p.2, ∃ rip ∈ o.threads, rip = o.hook.originalFunction + 1 ∧
        ((sampleEnvironment rip).decodeInstruction64
          (slice o.before.target.memory o.hook.originalFunction 32)).map
          DecodedInstruction.length = some 1 ∧
        o.hook.originalBytes.length = 14 ∧ ¬NotUnder o := by
  have hexec : (((frozenSystem [openHook]).traced (observed [openHook])).exec
      (sampleWorld.d, []) (threadRun 0x20101)).map (fun p => decide
        (∃ o ∈ p.2, ∃ rip ∈ o.threads, rip = o.hook.originalFunction + 1 ∧
          ((sampleEnvironment rip).decodeInstruction64
            (slice o.before.target.memory o.hook.originalFunction 32)).map
            DecodedInstruction.length = some 1 ∧
          o.hook.originalBytes.length = 14)) = some true := by
    decide +kernel
  obtain ⟨p, hp, hseen⟩ := Option.map_eq_some_iff.mp hexec
  have hstart : Reachable ((frozenSystem [openHook]).traced (observed [openHook]))
      (sampleWorld.d, []) := .init ⟨sampleSession_new, rfl⟩
  obtain ⟨o, ho, rip, hrip, hnext, hfirst, hlength⟩ := of_decide_eq_true hseen
  refine ⟨p, hstart.exec (fun _ _ => trivial) _ hp, o, ho, rip, hrip, hnext, hfirst,
    hlength, fun hnot => hnot rip hrip ⟨?_, ?_⟩⟩
  · rw [hnext]
    exact Nat.lt_succ_self _
  · rw [hnext, hlength]
    exact Nat.add_lt_add_left (by decide) _

theorem sampleEnvironment_short (rip : Nat) : ShortInstructions (sampleEnvironment rip) := by
  intro bytes instruction h
  dsimp only [sampleEnvironment, Environment.cooperative] at h
  split at h
  next =>
    cases h
    decide
  next => cases h

/-- An event of the sample before which no thread is in the way. -/
def freeStep (p : DebugState × List FrozenCall) : FrozenAction → Bool
  | .event threads env e => decide (ThreadsClear [openHook] threads env p.1 e)
  | .targetRuns _ => true

/-- The same target with its thread at the first byte. -/
theorem no_patch_under_thread_entry : ∃ p,
    ReachableIf ((frozenSystem [openHook]).traced (observed [openHook]))
      (fun p a => Unoccupied [openHook] p.1 a) p ∧
      p.2.map (fun o => (o.threads, o.hook.originalFunction)) = [([0x20100], 0x20100)] ∧
      (∀ o ∈ p.2, NotUnder o) ∧
      ∀ g ∈ p.1.session.installedHooks, ∃ o ∈ p.2, o.hook = g := by
  have hexec : (((frozenSystem [openHook]).traced (observed [openHook])).execWhile
      freeStep (sampleWorld.d, []) (threadRun 0x20100)).map (fun p => decide
        (p.2.map (fun o => (o.threads, o.hook.originalFunction)) = [([0x20100], 0x20100)]))
      = some true := by
    decide +kernel
  obtain ⟨p, hp, hseen⟩ := Option.map_eq_some_iff.mp hexec
  have hstart : ReachableIf ((frozenSystem [openHook]).traced (observed [openHook]))
      (fun p a => Unoccupied [openHook] p.1 a) (sampleWorld.d, []) :=
    .init ⟨sampleSession_new, rfl⟩
  have hr : ReachableIf ((frozenSystem [openHook]).traced (observed [openHook]))
      (fun p a => Unoccupied [openHook] p.1 a) p := by
    refine hstart.execWhile_mem (threadRun 0x20100) ?_ hp
    intro q a ha hfree
    simp only [threadRun, List.mem_cons, List.not_mem_nil, or_false] at ha
    rcases ha with rfl | rfl | rfl | rfl
    all_goals exact ⟨sampleEnvironment_short _, of_decide_eq_true hfree⟩
  exact ⟨p, hr, of_decide_eq_true hseen, no_patch_under_thread hr⟩

end ScopeSpans
