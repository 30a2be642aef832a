import ApiScope.QuiescenceProofs

/-! # Release — when instrumentation is cleared and freed

    Three paths of the event loop release instrumentation of a live target:
    the clean stop, which asks `IsCleanupQuiescent` first; an event that
    fails, for example a hook that cannot be installed in a module loaded
    later; and the unload of a module that a hook is in or is forwarded from.
    The last two ask nothing, and a thread may be inside a hooked call for
    any time.

    In runs where those two only happen at rest, no unload loses a patch and
    no two patches overlap, no thread is involved in any instrumentation when
    some of it goes. -/

namespace ScopeRelease

open ScopeBytes ScopeProtocol ScopeHook ScopeDebug ScopeInFlight ScopeTransition
open ScopeQuiescence ScopePatched

variable {options : List HookDefinition}

/-- The steps that call `CleanupRemote`, or `UnhookFunction` or
    `ReleaseUnloadedHook` from `HandleUnloadDll`. -/
def Releases (options : List HookDefinition) (w : World) : WorldAction → Prop
  | .event _ (.unloadDll base) =>
      ∃ h ∈ w.d.session.installedHooks,
        h.targetModuleBase = base ∨ h.sourceModuleBase = base
  | .event env e =>
      (dispatchEvent env options w.d e).eventOk = false ∨
        (dispatchEvent env options w.d e).cleanStop = true
  | _ => False

theorem blocks_installRun {env : Environment} {Q : Nat → DebugState → Prop}
    {d d' : DebugState} (hr : InstallRun env options Q d d') {b : Block}
    (hb : b ∈ d.target.blocks) : b ∈ d'.target.blocks := by
  refine hr.keeps (P := fun d => b ∈ d.target.blocks) ?_ hb
  intro d address d' _ hs hb
  cases hs with
  | mk hmem hnew hres hdistinct hcall =>
      obtain ⟨hh, -⟩ := hookFunction_some hcall
      show b ∈ Target.blocks _
      rw [hh.blocks]
      exact List.mem_cons_of_mem _ hb

theorem blocks_registerModule {env : Environment} {base : Nat} {path : List UInt16}
    {d : DebugState} (hok : (registerModule env options base path d).1 = true)
    {b : Block} (hb : b ∈ d.target.blocks) :
    b ∈ (registerModule env options base path d).2.target.blocks := by
  rcases registerModule_true (Q := fun _ _ => True) (fun _ _ => trivial) hok with
    ⟨-, heq⟩ | ⟨-, hconf, hcase⟩
  · rwa [heq]
  · have hstart : b ∈ (configureOnce env base (registeredName env base path)
        (recordModule base path (registeredName env base path) d)).2.target.blocks := by
      rcases configureOnce_true hconf with heq | ⟨-, -, d', hc, heq⟩
      · rw [heq]
        exact hb
      · rw [heq]
        exact hc.blocks b hb
    rcases hcase with ⟨-, heq⟩ | ⟨-, -, -, hrun⟩
    · rwa [heq]
    · exact blocks_installRun hrun hstart

/-- An unload of a module without hooks changes nothing in the target. -/
theorem releaseHooks_untouched {env : Environment} {base : Nat}
    {hooks : List InstalledHook} {t : Target}
    (h : ∀ g ∈ hooks, g.targetModuleBase ≠ base ∧ g.sourceModuleBase ≠ base) :
    (releaseHooks env base hooks t).2 = t := by
  refine releaseHooks_keeps (P := fun t' => t' = t) ?_ ?_ rfl
  · intro g hg ht
    exact absurd ht (h g hg).1
  · intro g hg _ hs
    exact absurd hs (h g hg).2

/-- **NOTHING ELSE IS FREED**: an event that is not counted as a release
    leaves every block in place. -/
theorem blocks_of_not_releases {w w' : World} {env : Environment} {e : DebugEvent}
    (hs : debugStep options w (.event env e) = some w')
    (hrel : ¬Releases options w (.event env e)) {b : Block}
    (hb : b ∈ w.d.target.blocks) : b ∈ w'.d.target.blocks := by
  rw [debugStep] at hs
  split at hs
  next => cases hs
  next =>
    obtain ⟨-, heq⟩ := Option.ite_none_right_eq_some.mp hs
    cases heq
    -- without a failure or a clean stop the session goes on as dispatched
    have hstate : ∀ d : DebugState, (dispatchEvent env options d e).eventOk = true →
        (dispatchEvent env options d e).cleanStop = false →
        handleEvent env options d e = (dispatchEvent env options d e).state := by
      intro d hok hclean
      rw [handleEvent, hok, hclean]
      rfl
    have hkept : ∀ {P : DebugState → Prop},
        ¬((dispatchEvent env options w.d e).eventOk = false ∨
          (dispatchEvent env options w.d e).cleanStop = true) →
        ((dispatchEvent env options w.d e).eventOk = true →
          P (dispatchEvent env options w.d e).state) →
        P (handleEvent env options w.d e) := by
      intro P hno hP
      obtain ⟨hok, hclean⟩ := not_or.mp hno
      have hok' := Bool.not_eq_false _ ▸ hok
      rw [hstate w.d hok' (Bool.eq_false_iff.mpr hclean)]
      exact hP hok'
    cases e with
    | createProcess base path =>
        refine hkept (P := fun d => b ∈ d.target.blocks) hrel ?_
        intro hok
        obtain ⟨d₁, hd₁, hok₁, hsame⟩ := handleCreateProcess_true hok
        show b ∈ (handleCreateProcess env options base path w.d).2.target.blocks
        rw [hsame]
        refine blocks_registerModule hok₁ ?_
        rcases hd₁ with rfl | ⟨-, hinit⟩
        · exact hb
        · exact hinit.blocks b hb
    | loadDll base path =>
        refine hkept (P := fun d => b ∈ d.target.blocks) hrel ?_
        intro hok
        exact blocks_registerModule hok hb
    | unloadDll base =>
        have hnone : ∀ g ∈ w.d.session.installedHooks,
            g.targetModuleBase ≠ base ∧ g.sourceModuleBase ≠ base := by
          intro g hg
          exact not_or.mp fun h => hrel ⟨g, hg, h⟩
        rw [hstate _ rfl rfl]
        show b ∈ (releaseHooks env base w.d.session.installedHooks _).2.blocks
        rw [releaseHooks_untouched hnone]
        exact hb
    | breakpoint =>
        refine hkept (P := fun d => b ∈ d.target.blocks) hrel ?_
        intro _
        rw [dispatchEvent]
        split
        next => exact hb
        next => exact hb
    | _ =>
        refine hkept (P := fun d => b ∈ d.target.blocks) hrel ?_
        intro _
        exact hb

end ScopeRelease
