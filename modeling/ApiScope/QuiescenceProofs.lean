import ApiScope.InFlightProofs
import ApiScope.PatchedBytesProofs
import Mathlib.Data.List.Pairwise

/-! # Quiescence — IsCleanupQuiescent against the threads of the target

    The debug session of `debug_session.cpp` together with the threads of its
    target.  The threads run between debug events and are frozen while one is
    handled.  Each moves through the stages of an intercepted call
    (`api_hook.h`): outside, a patched entry, the handler before
    `HookCallGuard` counts the call, the counted body with everything it
    calls, the handler after the count is taken back, outside again.  A patched
    entry is one whose bytes jump into the hook image, whatever the session
    has noted down about it.

    The check knows the functions in `installedHooks_` only.  It misses one
    that an unload drops from there while its bytes are not restored, and one
    whose jump a restored neighbour puts back, because the two patches overlap
    and the saved bytes of one hold the jump of the other.  In runs without
    these, a state in which `IsCleanupQuiescent` returns true has no thread in
    any instrumentation and none that is due to return into it. -/

namespace ScopeQuiescence

open ScopeBytes ScopeProtocol ScopeHook ScopeDebug ScopeInFlight ScopeTransition
open ScopePatched ScopeOutcome

/-- The session, its target's memory, and the threads of the target. -/
structure World where
  d : DebugState
  crowd : Crowd Nat
  /-- The last hook on each function of a module that is still loaded, whether
      it is installed or not. -/
  hooked : List InstalledHook

inductive WorldAction where
  /-- A step of the target's threads. -/
  | threads (a : CrowdAction Nat)
  /-- The target's threads, or the loader, change its memory. -/
  | targetWrites (memory : Memory)
  /-- A debug event, handled with these answers of the system. -/
  | event (env : Environment) (e : DebugEvent)
  /-- The user asks to stop, and `DebugBreakProcess` succeeds. -/
  | requestStop
  /-- A failed call leaves the event loop without a cleanup. -/
  | leaveLoop

/-! ## Where instrumentation is -/

/-- `a` lies in the `size` bytes from `base` on. -/
def inRange (base size a : Nat) : Bool := base ≤ a ∧ a < base + size

/-- The mapped hook image. -/
def inImage (d : DebugState) (a : Nat) : Bool :=
  d.session.hookImageBase ≠ 0 ∧ inRange d.session.hookImageBase d.session.hookImageSize a

/-- The entry of `f` holds a jump into the hook image. -/
def jumps (d : DebugState) (f : Nat) : Bool :=
  holdsJump d.session.hookImageBase d.session.hookImageSize d.target f

/-- The patch of a hooked function whose entry holds the jump. -/
def inPatchedEntry (w : World) (a : Nat) : Bool :=
  w.hooked.any fun h => jumps w.d h.originalFunction
    && inRange h.originalFunction h.originalBytes.length a

/-- The patched bytes of an installed hook. -/
def inPatchedSpan (d : DebugState) (a : Nat) : Bool :=
  d.session.installedHooks.any fun h =>
    inRange h.originalFunction h.originalBytes.length a

/-- The trampoline of an installed hook. -/
def inTrampoline (d : DebugState) (a : Nat) : Bool :=
  d.session.installedHooks.any fun h => inRange h.trampolineAddress trampolineSize a

/-- One of the two transport bypasses. -/
def inBypass (d : DebugState) (a : Nat) : Bool :=
  (d.session.setEventBypass ≠ 0 ∧ inRange d.session.setEventBypass trampolineSize a)
    || (d.session.readMemoryBypass ≠ 0 ∧
      inRange d.session.readMemoryBypass trampolineSize a)

/-- Any region the controller allocated or mapped and did not free. -/
def inBlock (d : DebugState) (a : Nat) : Bool :=
  d.target.blocks.any fun b => inRange b.base b.size a

/-- The layout of the code that intercepted calls run through. -/
def layout (w : World) : Layout Nat where
  entry := inPatchedEntry w
  handler := inImage w.d
  support a := inImage w.d a || inTrampoline w.d a || inBypass w.d a || inBlock w.d a

/-- A thread that depends on no instrumentation: it is in no intercepted
    call, executes none of it and is due to return into none of it. -/
structure Uninvolved (w : World) (t : Thread Nat) : Prop where
  frames : t.frames = []
  image : inImage w.d t.rip = false
  patchedEntry : inPatchedEntry w t.rip = false
  patchedSpan : inPatchedSpan w.d t.rip = false
  trampoline : inTrampoline w.d t.rip = false
  bypass : inBypass w.d t.rip = false
  block : inBlock w.d t.rip = false
  pending : ∀ r ∈ t.pending, inImage w.d r = false ∧ inTrampoline w.d r = false ∧
    inBypass w.d r = false ∧ inBlock w.d r = false

/-! ## The system -/

/-- The snapshot lists every thread of the frozen process; a listed thread
    that lives can be told by its id, and its context is its own. -/
def Seen (env : Environment) (w : World) : Prop :=
  ∀ t ∈ w.crowd.threads,
    env.openThread t.id ≠ .invalidParameter ∧
      (∀ rip ∈ env.threadContext t.id, rip = t.rip) ∧
        ∀ entries ∈ env.snapshot, ∃ entry ∈ entries,
          entry.ownerProcessId = w.d.session.processId ∧ entry.threadId = t.id

/-- What the system allocates is not code that a thread outside executes or
    returns to. -/
def Fresh (w w' : World) : Prop :=
  ∀ t ∈ w.crowd.threads,
    (∀ r ∈ t.returns, (layout w').support r = true → (layout w).support r = true) ∧
      (t.frames = [] → (layout w').support t.rip = true →
        (layout w).support t.rip = true)

/-- Nor is it the code of a function that is or was hooked. -/
def Separate (w : World) : Prop :=
  ∀ h ∈ w.hooked,
    RunsApart h.originalFunction h.originalBytes.length w.d.session.hookImageBase
        w.d.session.hookImageSize ∧
      ∀ b ∈ w.d.target.blocks,
        RunsApart h.originalFunction h.originalBytes.length b.base b.size

/-- Regions and functions end below the end of the address space. -/
def Bounded (d : DebugState) : Prop :=
  d.session.hookImageBase + d.session.hookImageSize < 2 ^ 64 ∧
    ∀ h ∈ d.session.installedHooks,
      h.originalFunction + h.originalBytes.length < 2 ^ 64

instance (env : Environment) (w : World) : Decidable (Seen env w) := by
  unfold Seen
  infer_instance

instance (w w' : World) : Decidable (Fresh w w') := by
  unfold Fresh
  infer_instance

instance (w : World) : Decidable (Separate w) := by
  unfold Separate
  infer_instance

instance (d : DebugState) : Decidable (Bounded d) := by
  unfold Bounded
  infer_instance

/-- The hooks whose module an event leaves loaded. -/
def stillLoaded : DebugEvent → List InstalledHook → List InstalledHook
  | .unloadDll base, hooked => hooked.filter fun h => h.targetModuleBase ≠ base
  | _, hooked => hooked

/-- The last hook on each function after an event: the installed ones, and
    the earlier ones on other functions. -/
def lastHooks (e : DebugEvent) (hooked : List InstalledHook) (d : DebugState) :
    List InstalledHook :=
  d.session.installedHooks ++ (stillLoaded e hooked).filter fun h =>
    d.session.installedHooks.all fun g => g.originalFunction ≠ h.originalFunction

/-- The world in which an event has led to `d`. -/
def World.moved (w : World) (e : DebugEvent) (d : DebugState) : World :=
  { w with d, hooked := lastHooks e w.hooked d }

variable (options : List HookDefinition)

def debugStep (w : World) : WorldAction → Option World
  | .threads a =>
      match crowdStep (layout w) w.crowd w.d.target.activeHookCalls a with
      | none => none
      | some (crowd, counter) =>
          some
            { w with
              d := { w.d with target := { w.d.target with activeHookCalls := counter } }
              crowd }
  | .targetWrites memory =>
      -- only `HookFunction` and `UnhookFunction` write jumps into the image
      let d := { w.d with target := { w.d.target with memory } }
      if ∀ h ∈ w.hooked, jumps d h.originalFunction = jumps w.d h.originalFunction then
        some { w with d }
      else none
  | .event env e =>
      if w.d.session.finished then none
      else
        let w' := w.moved e (handleEvent env options w.d e)
        if Seen env w ∧ Fresh w w' ∧ Separate w' ∧ Bounded w'.d then some w' else none
  | .requestStop =>
      if w.d.session.finished then none
      else
        some { w with
          d := { w.d with session := { w.d.session with stopBreakRequested := true } } }
  | .leaveLoop =>
      some { w with d := { w.d with session := { w.d.session with finished := true } } }

/-- `DebugSession` as constructed. -/
def newSession (processId : Nat) : Session where
  processId
  hookImageBase := 0
  hookImageSize := 0
  transportConfigured := false
  initialBreakpointSeen := false
  stopBreakRequested := false
  modules := []
  moduleGeneration := 0
  installedHooks := []
  remoteRing := 0
  remoteWakeEvent := 0
  setEventBypass := 0
  readMemoryBypass := 0
  finished := false

/-- A session that begins, launched or attached: the threads that are there
    are in no call. -/
structure Initial (w : World) : Prop where
  session : ∃ processId, w.d.session = newSession processId
  blocks : w.d.target.blocks = []
  counter : w.d.target.activeHookCalls = 0#32
  crowd : w.crowd.Idle
  hooked : w.hooked = []

def debugSystem : System World WorldAction where
  init := Initial
  step := debugStep options

/-! ## What a run has to keep to -/

/-- What the decoder and the exports of the hook image answer: an instruction
    lies in the bytes it is decoded from, and the image exports what is in it. -/
structure Answers (w : World) (env : Environment) : Prop where
  decode : DecodesWithin env.decodeInstruction64
  mapped : ExportsInside env w.d.session.hookImageBase w.d.session.hookImageSize
  injected : ∀ b ∈ env.injectDll, ExportsInside env b.base b.size

/-- The patched spans of different functions do not overlap, and no hook saved
    bytes that jump into the image. -/
structure PatchesClear (w : World) : Prop where
  spans : ∀ g ∈ w.hooked, ∀ h ∈ w.hooked, g.originalFunction ≠ h.originalFunction →
    SpansApart g h
  saved : ∀ h ∈ w.hooked, jumpsInto w.d.session.hookImageBase w.d.session.hookImageSize
    (h.originalBytes.take patchSize) = false

/-- An unload that takes a hook off the records takes the jump out as well,
    unless it went with the module, and no thread is in the patched bytes. -/
def SafeUnload (w : World) : WorldAction → Prop
  | .event env (.unloadDll base) =>
      ∀ h ∈ w.d.session.installedHooks,
        h.targetModuleBase = base ∨ h.sourceModuleBase = base →
        (∀ t ∈ w.crowd.threads,
          inRange h.originalFunction h.originalBytes.length t.rip = false) ∧
          (h.targetModuleBase ≠ base → (env.unhookCalls h).restores = true)
  | _ => True

/-- A step that loses no patch. -/
structure Keeps (w : World) (a : WorldAction) : Prop where
  answers : ∀ env e, a = .event env e → Answers w env
  clear : PatchesClear w
  unload : SafeUnload w a

/-! ## The invariant -/

/-- The part of the invariant that is about the session: before the image is
    mapped there is nothing else, and the records describe patches with their
    variables in the image. -/
structure SessionInv (d : DebugState) : Prop where
  unmapped : d.session.hookImageBase = 0 →
    d.session.transportConfigured = false ∧ d.session.installedHooks = [] ∧
      d.session.setEventBypass = 0 ∧ d.session.readMemoryBypass = 0 ∧
        d.target.blocks = []
  complete : ∀ h ∈ d.session.installedHooks,
    Complete h ∧ patchSize ≤ h.originalBytes.length
  slots : ∀ h ∈ d.session.installedHooks, d.session.hookImageBase ≤ h.trampolineSlot ∧
    h.trampolineSlot + 8 ≤ d.session.hookImageBase + d.session.hookImageSize
  distinct : d.session.installedHooks.Pairwise fun g h =>
    g.originalFunction ≠ h.originalFunction

/-- A hooked function whose entry jumps into the image has its record. -/
structure Recorded (w : World) : Prop where
  none : w.d.session.hookImageBase = 0 → w.hooked = []
  tracked : ∀ h ∈ w.d.session.installedHooks, h ∈ w.hooked
  last : ∀ h ∈ w.hooked, h ∈ w.d.session.installedHooks ∨
    ∀ g ∈ w.d.session.installedHooks, g.originalFunction ≠ h.originalFunction
  covers : ∀ h ∈ w.hooked, patchSize ≤ h.originalBytes.length
  recorded : ∀ h ∈ w.hooked, jumps w.d h.originalFunction = true →
    h ∈ w.d.session.installedHooks

/-- The invariant of a running session. -/
structure Inv (w : World) : Prop where
  session : SessionInv w.d
  recorded : Recorded w
  separate : Separate w
  bounded : Bounded w.d
  idle : w.d.session.hookImageBase = 0 → w.crowd.Idle
  crowd : w.crowd.Inv (layout w) w.d.target.activeHookCalls

/-- Bytes that neither the image nor a block nor a newly hooked function of the
    later state has. -/
structure Aside (d d' : DebugState) (off n : Nat) : Prop where
  image : RunsApart off n d'.session.hookImageBase d'.session.hookImageSize
  blocks : ∀ b ∈ d'.target.blocks, RunsApart off n b.base b.size
  hooks : ∀ h ∈ d'.session.installedHooks, h ∈ d.session.installedHooks ∨
    RunsApart off n h.originalFunction h.originalBytes.length

/-- What a successful event other than an unload does. -/
structure Grows (d d' : DebugState) : Prop where
  base : d'.session.hookImageBase = d.session.hookImageBase
  size : d'.session.hookImageSize = d.session.hookImageSize
  blocks : ∀ b ∈ d.target.blocks, b ∈ d'.target.blocks
  hooks : ∀ h ∈ d.session.installedHooks, h ∈ d'.session.installedHooks
  counter : d'.target.activeHookCalls = d.target.activeHookCalls
  memory : ∀ off n, Aside d d' off n →
    slice d'.target.memory off n = slice d.target.memory off n

theorem Grows.refl (d : DebugState) : Grows d d :=
  ⟨rfl, rfl, fun _ h => h, fun _ h => h, rfl, fun _ _ _ => rfl⟩

theorem Grows.trans {a b c : DebugState} (hab : Grows a b) (hbc : Grows b c) :
    Grows a c where
  base := hbc.base.trans hab.base
  size := hbc.size.trans hab.size
  blocks x hx := hbc.blocks x (hab.blocks x hx)
  hooks h hh := hbc.hooks h (hab.hooks h hh)
  counter := hbc.counter.trans hab.counter
  memory := by
    intro off n h
    have hfirst : Aside a b off n :=
      ⟨hbc.base ▸ hbc.size ▸ h.image, fun x hx => h.blocks x (hbc.blocks x hx),
        fun g hg => h.hooks g (hbc.hooks g hg)⟩
    have hsecond : Aside b c off n :=
      ⟨h.image, h.blocks, fun g hg => (h.hooks g hg).imp_left (hab.hooks g)⟩
    rw [hbc.memory off n hsecond, hab.memory off n hfirst]

/-- An event that keeps the session in order and lets it grow. -/
structure Advances (d d' : DebugState) : Prop where
  session : SessionInv d'
  grows : Grows d d'

theorem Advances.refl {d : DebugState} (h : SessionInv d) : Advances d d :=
  ⟨h, Grows.refl d⟩

theorem Advances.trans {a b c : DebugState} (hab : Advances a b)
    (hbc : SessionInv b → Advances b c) : Advances a c :=
  ⟨(hbc hab.session).session, hab.grows.trans (hbc hab.session).grows⟩

variable {options : List HookDefinition}

/-! ## Loading modules -/

section Loading

variable {env : Environment} {d d' : DebugState}

/-- One installation: a new record, and bytes written to the new trampoline,
    the slot and the function. -/
theorem advances_installs (hdecode : DecodesWithin env.decodeInstruction64)
    (hexports : ExportsInside env d.session.hookImageBase d.session.hookImageSize)
    {address : Nat} (hbase : d.session.hookImageBase ≠ 0) (h : SessionInv d)
    (hs : Installs env options d address d') : Advances d d' := by
  cases hs with
  | @mk definition source target hook t' hmem hnew hres hdistinct hcall =>
      obtain ⟨hh, -⟩ := hookFunction_some hcall
      obtain ⟨-, slot, -, hslot, -, hrecord, -⟩ := ScopeInverse.hookFunction_success hcall
      obtain ⟨hf, htramp, hslotne⟩ := hh.nonnull
      have hinside := hexports _ _ hslot
      have hat : hook.trampolineSlot = slot := by rw [hrecord]; rfl
      rw [← hat] at hinside
      have hblocks : ∀ b ∈ d.target.blocks, b ∈ t'.blocks := by
        intro b hb
        rw [hh.blocks]
        exact List.mem_cons_of_mem _ hb
      refine ⟨⟨fun hzero => absurd hzero hbase, ?_, ?_, ?_⟩,
        rfl, rfl, hblocks, fun g hg => List.mem_append_left _ hg, hh.counter, ?_⟩
      · intro g hg
        rcases List.mem_append.mp hg with hg | hg
        · exact h.complete g hg
        · cases List.mem_singleton.mp hg
          refine ⟨⟨?_, htramp, hslotne, ?_⟩, hh.covers⟩
          · exact hh.function ▸ hf
          · intro hnil
            have hlen := hh.covers
            have hnil' : hook.originalBytes = [] := hnil
            rw [hnil'] at hlen
            exact absurd hlen (by decide)
      · intro g hg
        rcases List.mem_append.mp hg with hg | hg
        · exact h.slots g hg
        · cases List.mem_singleton.mp hg
          exact hinside
      · refine List.pairwise_append.mpr ⟨h.distinct, List.pairwise_singleton _ _, ?_⟩
        intro g hg g' hg'
        rw [List.mem_singleton.mp hg']
        show g.originalFunction ≠ hook.originalFunction
        rw [hh.function]
        exact hdistinct g hg
      · intro off n haside
        have hspan : RunsApart off n hook.originalFunction hook.originalBytes.length := by
          refine (haside.hooks (InstalledHook.located hook source target)
            (List.mem_append_right _ List.mem_cons_self)).resolve_left ?_
          intro hold
          exact hdistinct _ hold hh.function
        have himage := haside.image
        have hblock := haside.blocks ⟨hook.trampolineAddress, trampolineSize⟩
          (hh.blocks ▸ List.mem_cons_self)
        exact hookFunction_slice hdecode hcall
          ⟨hspan, RunsApart.inside himage hinside.1 hinside.2⟩ hblock

theorem advances_installRun (hdecode : DecodesWithin env.decodeInstruction64)
    {Q : Nat → DebugState → Prop}
    (hexports : ExportsInside env d.session.hookImageBase d.session.hookImageSize)
    (hbase : d.session.hookImageBase ≠ 0) (h : SessionInv d)
    (hr : InstallRun env options Q d d') : Advances d d' := by
  induction hr with
  | refl => exact Advances.refl h
  | step _ hs _ ih =>
      have hfirst := advances_installs hdecode hexports hbase h hs
      refine hfirst.trans (ih ?_ ?_)
      · rw [hfirst.grows.base, hfirst.grows.size]
        exact hexports
      · rw [hfirst.grows.base]
        exact hbase

theorem advances_recordModule (h : SessionInv d) (base : Nat) (path : List UInt16)
    (name : List UInt8) : Advances d (recordModule base path name d) :=
  ⟨⟨h.unmapped, h.complete, h.slots, h.distinct⟩,
    rfl, rfl, fun _ hb => hb, fun _ hh => hh, rfl, fun _ _ _ => rfl⟩

theorem advances_configureOnce (hdecode : DecodesWithin env.decodeInstruction64)
    (hexports : ExportsInside env d.session.hookImageBase d.session.hookImageSize)
    {base : Nat} {name : List UInt8} (h : SessionInv d)
    (hok : (configureOnce env base name d).1 = true) :
    Advances d (configureOnce env base name d).2 := by
  have hkeeps := configureOnce_keeps hok
  rw [configureOnce] at hok hkeeps ⊢
  split at hok
  next hfirst =>
    rw [if_pos hfirst] at hkeeps ⊢
    dsimp only at hok hkeeps ⊢
    split at hok
    next hconf =>
      rw [if_pos hconf] at hkeeps ⊢
      have hc := configureTransport_true hconf
      refine ⟨⟨?_, ?_, ?_, ?_⟩, hkeeps.hookImageBase, hkeeps.hookImageSize, hc.blocks, ?_,
        hc.counter, ?_⟩
      · intro hzero
        exact absurd (hkeeps.hookImageBase.symm.trans hzero) hc.image
      · rw [hkeeps.installedHooks]
        exact h.complete
      · rw [hkeeps.installedHooks, hkeeps.hookImageBase, hkeeps.hookImageSize]
        exact h.slots
      · rw [hkeeps.installedHooks]
        exact h.distinct
      · rw [hkeeps.installedHooks]
        exact fun g hg => hg
      · intro off n haside
        have himage := haside.image
        rw [hkeeps.hookImageBase, hkeeps.hookImageSize] at himage
        exact configureTransport_slice hdecode hexports himage hconf haside.blocks
    next => cases hok
  next hother =>
    rw [if_neg hother]
    exact Advances.refl h

/-- Registering a module, whatever it installs. -/
theorem advances_registerModule (hdecode : DecodesWithin env.decodeInstruction64)
    (hexports : ExportsInside env d.session.hookImageBase d.session.hookImageSize)
    {base : Nat} {path : List UInt16} (h : SessionInv d)
    (hok : (registerModule env options base path d).1 = true) :
    Advances d (registerModule env options base path d).2 := by
  rcases registerModule_true (Q := fun _ _ => True) (fun _ _ => trivial) hok with
    ⟨-, heq⟩ | ⟨-, hconf, hcase⟩
  · rw [heq]
    exact Advances.refl h
  · have hrecord := advances_recordModule h base path (registeredName env base path)
    have hstart := hrecord.trans fun h' =>
      advances_configureOnce (d := recordModule base path (registeredName env base path) d)
        hdecode hexports h' hconf
    rcases hcase with ⟨-, heq⟩ | ⟨hready, -, -, hrun⟩
    · rw [heq]
      exact hstart
    · refine hstart.trans fun h' => advances_installRun hdecode ?_ ?_ h' hrun
      · rw [hstart.grows.base, hstart.grows.size]
        exact hexports
      · intro hzero
        exact Bool.false_ne_true ((h'.unmapped hzero).1.symm.trans hready)

end Loading

/-! ## One event -/

/-- An event that leaves the session running did not clean up. -/
theorem handleEvent_running {env : Environment} {d : DebugState} {e : DebugEvent}
    (h : (handleEvent env options d e).session.finished = false) :
    (dispatchEvent env options d e).eventOk = true ∧
      (dispatchEvent env options d e).cleanStop = false ∧
      handleEvent env options d e = (dispatchEvent env options d e).state := by
  rw [handleEvent] at h ⊢
  dsimp only at h ⊢
  split at h
  next => cases h
  next hno =>
    rw [if_neg hno]
    obtain ⟨hok, hclean⟩ := not_or.mp hno
    exact ⟨Bool.not_eq_false _ ▸ hok, Bool.eq_false_iff.mpr hclean, rfl⟩

/-- A hook after an event is installed, or an earlier one on a function of its
    own. -/
theorem mem_lastHooks {e : DebugEvent} {hooked : List InstalledHook} {d : DebugState}
    {h : InstalledHook} : h ∈ lastHooks e hooked d ↔
      h ∈ d.session.installedHooks ∨ (h ∈ stillLoaded e hooked ∧
        ∀ g ∈ d.session.installedHooks, g.originalFunction ≠ h.originalFunction) := by
  rw [lastHooks, List.mem_append, List.mem_filter, List.all_eq_true]
  simp only [decide_eq_true_eq]

theorem mem_stillLoaded {e : DebugEvent} {hooked : List InstalledHook} {h : InstalledHook}
    (hh : h ∈ stillLoaded e hooked) : h ∈ hooked := by
  cases e with
  | unloadDll base => exact List.mem_of_mem_filter hh
  | _ => exact hh

/-- Two records of one function are the same record. -/
theorem SessionInv.unique {d : DebugState} (h : SessionInv d) {g g' : InstalledHook}
    (hg : g ∈ d.session.installedHooks) (hg' : g' ∈ d.session.installedHooks)
    (hfun : g.originalFunction = g'.originalFunction) : g = g' := by
  by_contra hne
  have : Std.Symm fun g h : InstalledHook => g.originalFunction ≠ h.originalFunction :=
    ⟨fun _ _ => Ne.symm⟩
  exact h.distinct.forall hg hg' hne hfun

/-- An event that lets the session grow leaves the entries of the hooks that
    are not new. -/
theorem Advances.jumps {w : World} {d' : DebugState} {e : DebugEvent}
    (ha : Advances w.d d')
    (hclear : PatchesClear (w.moved e d'))
    (hsep : Separate (w.moved e d'))
    {h : InstalledHook} (hh : h ∈ lastHooks e w.hooked d')
    (hold : h ∈ w.d.session.installedHooks ∨
      ∀ g ∈ d'.session.installedHooks, g.originalFunction ≠ h.originalFunction)
    (hcovers : patchSize ≤ h.originalBytes.length) :
    jumps d' h.originalFunction = jumps w.d h.originalFunction := by
  rw [ScopeQuiescence.jumps, ScopeQuiescence.jumps, ha.grows.base, ha.grows.size]
  obtain ⟨himage, hblocks⟩ := hsep h hh
  refine holdsJump_congr hcovers (ha.grows.memory _ _ ⟨himage, hblocks, ?_⟩)
  intro g hg
  by_cases hfun : g.originalFunction = h.originalFunction
  · -- the same function, so the same record
    rcases hold with hold | hold
    · exact Or.inl (ha.session.unique hg (ha.grows.hooks h hold) hfun ▸ hold)
    · exact absurd hfun (hold g hg)
  · exact Or.inr (hclear.spans h hh g (mem_lastHooks.mpr (Or.inl hg)) (Ne.symm hfun))

/-- The invariant after an event that lets the session grow. -/
theorem Inv.advance {w : World} {d' : DebugState} {e : DebugEvent}
    (hall : stillLoaded e w.hooked = w.hooked) (hi : Inv w) (ha : Advances w.d d')
    (hclear : PatchesClear (w.moved e d'))
    (hfresh : Fresh w (w.moved e d'))
    (hsep : Separate (w.moved e d'))
    (hbounded : Bounded d') :
    Inv (w.moved e d') := by
  have hcovers : ∀ h ∈ lastHooks e w.hooked d', patchSize ≤ h.originalBytes.length := by
    intro h hh
    rcases mem_lastHooks.mp hh with hh | ⟨hh, -⟩
    · exact (ha.session.complete h hh).2
    · exact hi.recorded.covers h (mem_stillLoaded hh)
  have hrecorded : Recorded (w.moved e d') := by
    refine ⟨?_, ?_, ?_, hcovers, ?_⟩
    · intro hzero
      have hnone := hi.recorded.none (ha.grows.base.symm.trans hzero)
      show lastHooks e w.hooked d' = []
      rw [lastHooks, hall, hnone, (ha.session.unmapped hzero).2.1]
      rfl
    · intro h hh
      exact mem_lastHooks.mpr (Or.inl hh)
    · intro h hh
      exact (mem_lastHooks.mp hh).imp_right And.right
    · intro h hh hjumps
      rcases mem_lastHooks.mp hh with hin | ⟨hold, hnew⟩
      · exact hin
      · have hjumps' : jumps d' h.originalFunction = true := hjumps
        rw [ha.jumps hclear hsep hh (Or.inr hnew) (hcovers h hh)] at hjumps'
        exact ha.grows.hooks h (hi.recorded.recorded h (mem_stillLoaded hold) hjumps')
  refine ⟨ha.session, hrecorded, hsep, hbounded,
    fun hzero => hi.idle (ha.grows.base.symm.trans hzero), ?_⟩
  show w.crowd.Inv (layout _) d'.target.activeHookCalls
  rw [ha.grows.counter]
  refine hi.crowd.relayout ?_ ?_ hfresh
  · -- a thread in a patch is in a recorded one, which stays
    intro t _ hentry
    obtain ⟨h, hh, hin⟩ := List.any_eq_true.mp hentry
    obtain ⟨hjumps, hrange⟩ := Bool.and_eq_true_iff.mp hin
    have hinstalled := hi.recorded.recorded h hh hjumps
    have hlast : h ∈ lastHooks e w.hooked d' :=
      mem_lastHooks.mpr (Or.inl (ha.grows.hooks h hinstalled))
    refine List.any_eq_true.mpr ⟨h, hlast, Bool.and_eq_true_iff.mpr ⟨?_, hrange⟩⟩
    exact (ha.jumps hclear hsep hlast (Or.inl hinstalled) (hcovers h hlast)).trans hjumps
  · funext a
    show inImage d' a = inImage w.d a
    rw [inImage, inImage, ha.grows.base, ha.grows.size]

/-- The invariant after the event that maps the image. -/
theorem Inv.initialize {w : World} {d₁ d' : DebugState} {e : DebugEvent} (hi : Inv w)
    (hzero : w.d.session.hookImageBase = 0) (hbase : d₁.session.hookImageBase ≠ 0)
    (hcounter : d₁.target.activeHookCalls = 0#32)
    (ha : Advances d₁ d')
    (hfresh : Fresh w (w.moved e d'))
    (hsep : Separate (w.moved e d'))
    (hbounded : Bounded d') :
    Inv (w.moved e d') := by
  have hall : ∀ h, h ∈ lastHooks e w.hooked d' ↔ h ∈ d'.session.installedHooks := by
    intro h
    rw [mem_lastHooks]
    refine or_iff_left ?_
    rintro ⟨hold, -⟩
    have hold' := mem_stillLoaded hold
    rw [hi.recorded.none hzero] at hold'
    cases hold'
  have hidle := hi.idle hzero
  refine ⟨ha.session, ⟨?_, fun h => (hall h).mpr, fun h hh => Or.inl ((hall h).mp hh), ?_,
    fun h hh _ => (hall h).mp hh⟩, hsep, hbounded, fun _ => hidle, ?_⟩
  · intro hzero'
    exact absurd (ha.grows.base.symm.trans hzero') hbase
  · intro h hh
    exact (ha.session.complete h ((hall h).mp hh)).2
  show w.crowd.Inv (layout _) d'.target.activeHookCalls
  rw [ha.grows.counter, hcounter]
  refine hidle.inv ?_
  intro t ht
  have hsound := hi.crowd.sound t ht
  refine ⟨?_, ?_⟩
  · refine Bool.eq_false_iff.mpr ?_
    intro hsup
    have hnil := hidle.frames t ht
    exact Bool.false_ne_true
      ((hsound.idle hnil).symm.trans ((hfresh t ht).2 hnil hsup))
  · intro r hr
    refine Bool.eq_false_iff.mpr ?_
    intro hsup
    exact Bool.false_ne_true ((hsound.outside r hr).symm.trans ((hfresh t ht).1 r hr hsup))

/-- The image that `InitializeDebuggee` maps is the one that `InjectDll` found. -/
theorem initializeDebuggee_maps {env : Environment} {d : DebugState}
    (h : (initializeDebuggee env d).1 = true) :
    ∃ b ∈ env.injectDll, (initializeDebuggee env d).2.session.hookImageBase = b.base ∧
      (initializeDebuggee env d).2.session.hookImageSize = b.size := by
  rw [initializeDebuggee] at h ⊢
  split at h
  next => cases h
  next hkill =>
    rw [if_neg hkill]
    split at h
    next => cases h
    next image himage =>
      dsimp only at h ⊢
      cases hread : env.readImageSize with
      | false =>
          rw [hread] at h
          cases h
      | true =>
          rw [hread, if_pos rfl] at h
          by_cases hsize : image.size = 0
          · rw [if_pos hsize] at h
            cases h
          · rw [if_neg hsize] at h
            obtain ⟨ring, wake, hsession⟩ := (traceStart_true h).session
            rw [if_pos rfl, if_neg hsize, hsession]
            exact ⟨image, himage, rfl, rfl⟩

/-- The session that has just mapped the image. -/
theorem sessionInv_initialized {d d₁ : DebugState} (h : SessionInv d)
    (hzero : d.session.hookImageBase = 0) (hinit : Initialized d d₁) : SessionInv d₁ := by
  obtain ⟨-, hhooks, -, -, -⟩ := h.unmapped hzero
  obtain ⟨base, size, ring, wake, hs⟩ := hinit.session
  have hnone : d₁.session.installedHooks = [] := by
    rw [hs]
    exact hhooks
  refine ⟨fun hz => absurd hz hinit.image, ?_, ?_, ?_⟩
  · rw [hnone]
    intro g hg
    cases hg
  · rw [hnone]
    intro g hg
    cases hg
  · rw [hnone]
    exact List.Pairwise.nil

/-! ## Unloading a module -/

section Unload

variable {env : Environment} {base : Nat} {w : World}

theorem mem_unloaded {d : DebugState} {h : InstalledHook} :
    h ∈ (handleUnloadDll env base d).session.installedHooks ↔
      h ∈ d.session.installedHooks ∧ h.targetModuleBase ≠ base ∧ h.sourceModuleBase ≠ base := by
  rw [handleUnloadDll, releaseHooks_hooks]
  exact List.mem_filter.trans (and_congr_right fun _ => decide_eq_true_iff)

/-- A slot lies in the image, and so in no hooked function. -/
theorem Inv.slot_apart (hi : Inv w) {g h : InstalledHook} (hg : g ∈ w.hooked)
    (hh : h ∈ w.d.session.installedHooks) :
    RunsApart g.originalFunction g.originalBytes.length h.trampolineSlot 8 := by
  obtain ⟨hlow, hhigh⟩ := hi.session.slots h hh
  exact RunsApart.inside (hi.separate g hg).1 hlow hhigh

/-- The installed hooks can be released one by one. -/
theorem Inv.releasable (hi : Inv w) (hclear : PatchesClear w) {h : InstalledHook}
    (hh : h ∈ w.d.session.installedHooks) (unhooks : InstalledHook → Prop) :
    Releasable unhooks w.d.session.installedHooks h where
  complete := (hi.session.complete h hh).1
  once := hi.session.distinct.imp fun hne heq => hne (congrArg _ heq)
  spans g hg _ hne := by
    refine hclear.spans h (hi.recorded.tracked h hh) g (hi.recorded.tracked g hg) ?_
    intro hfun
    exact hne (hi.session.unique hg hh hfun.symm)
  slots g hg := hi.slot_apart (hi.recorded.tracked h hh) hg

/-- The entry of an installed hook after the unload. -/
theorem jumps_unloaded (hi : Inv w) (hclear : PatchesClear w) {h : InstalledHook}
    (hh : h ∈ w.d.session.installedHooks) :
    jumps (handleUnloadDll env base w.d) h.originalFunction
      = if Unhooked env base h then false else jumps w.d h.originalFunction := by
  have hcovers := (hi.session.complete h hh).2
  have hentry : slice (handleUnloadDll env base w.d).target.memory h.originalFunction
        h.originalBytes.length
      = if Unhooked env base h then h.originalBytes
        else slice w.d.target.memory h.originalFunction h.originalBytes.length :=
    releaseHooks_entry (hi.releasable hclear hh _) hh w.d.target
  by_cases hu : Unhooked env base h
  · rw [if_pos hu] at hentry ⊢
    exact (holdsJump_saved hcovers hentry).trans
      (hclear.saved h (hi.recorded.tracked h hh))
  · rw [if_neg hu] at hentry ⊢
    exact holdsJump_congr hcovers hentry

/-- Nothing is written to the function of a hook that is no longer installed. -/
theorem jumps_unloaded_old (hi : Inv w) (hclear : PatchesClear w) {h : InstalledHook}
    (hh : h ∈ w.hooked)
    (hold : ∀ g ∈ w.d.session.installedHooks, g.originalFunction ≠ h.originalFunction) :
    jumps (handleUnloadDll env base w.d) h.originalFunction
      = jumps w.d h.originalFunction := by
  refine holdsJump_congr (hi.recorded.covers h hh) ?_
  refine releaseHooks_slice (fun g hg _ => ?_) (fun g hg => hi.slot_apart hh hg) _
  exact hclear.spans h hh g (hi.recorded.tracked g hg) (hold g hg).symm

theorem sessionInv_unload (hi : Inv w) : SessionInv (handleUnloadDll env base w.d) := by
  have hsub : ∀ h ∈ (handleUnloadDll env base w.d).session.installedHooks,
      h ∈ w.d.session.installedHooks := fun h hh => (mem_unloaded.mp hh).1
  refine ⟨?_, fun h hh => hi.session.complete h (hsub h hh),
    fun h hh => hi.session.slots h (hsub h hh), ?_⟩
  · intro hzero
    obtain ⟨hconf, hhooks, hset, hread, hblocks⟩ := hi.session.unmapped hzero
    refine ⟨hconf, ?_, hset, hread, ?_⟩
    · refine List.eq_nil_iff_forall_not_mem.mpr ?_
      intro h hh
      have hmem := hsub h hh
      rw [hhooks] at hmem
      cases hmem
    · show (releaseHooks env base w.d.session.installedHooks w.d.target).2.blocks = []
      rw [hhooks]
      exact hblocks
  · show ((releaseHooks env base w.d.session.installedHooks w.d.target).1).Pairwise _
    rw [releaseHooks_hooks]
    exact hi.session.distinct.filter _

/-- Every function that still jumps is still recorded. -/
theorem recorded_unload (hi : Inv w) (hclear : PatchesClear w)
    (hsafe : SafeUnload w (.event env (.unloadDll base))) :
    Recorded (w.moved (.unloadDll base) (handleUnloadDll env base w.d)) where
  none hzero := by
    show lastHooks _ _ _ = []
    rw [lastHooks, hi.recorded.none hzero, ((sessionInv_unload hi).unmapped hzero).2.1]
    rfl
  tracked h hh := mem_lastHooks.mpr (Or.inl hh)
  last h hh := (mem_lastHooks.mp hh).imp_right And.right
  covers := by
    intro h hh
    rcases mem_lastHooks.mp hh with hin | ⟨hold, -⟩
    · exact (hi.session.complete h (mem_unloaded.mp hin).1).2
    · exact hi.recorded.covers h (mem_stillLoaded hold)
  recorded := by
    intro h hh hjumps
    rcases mem_lastHooks.mp hh with hin | ⟨hold, -⟩
    · exact hin
    have hmem := mem_stillLoaded hold
    have ht : h.targetModuleBase ≠ base := of_decide_eq_true (List.mem_filter.mp hold).2
    have hjumps' : jumps (handleUnloadDll env base w.d) h.originalFunction = true := hjumps
    rcases hi.recorded.last h hmem with hinstalled | hfree
    · rw [jumps_unloaded hi hclear hinstalled] at hjumps'
      refine mem_unloaded.mpr ⟨hinstalled, ht, ?_⟩
      -- an unhooked function got its saved bytes back, which are no jump
      intro hs
      rw [if_pos ⟨ht, hs, (hsafe h hinstalled (Or.inr hs)).2 ht⟩] at hjumps'
      cases hjumps'
    · -- nobody wrote to a function that was not hooked
      rw [jumps_unloaded_old hi hclear hmem hfree] at hjumps'
      have hinstalled := hi.recorded.recorded h hmem hjumps'
      exact absurd rfl (hfree h hinstalled)

/-- A thread in a patched entry stays in one: its hook is not dropped. -/
theorem entry_unload (hi : Inv w) (hclear : PatchesClear w)
    (hsafe : SafeUnload w (.event env (.unloadDll base))) {t : Thread Nat}
    (ht : t ∈ w.crowd.threads) (hentry : inPatchedEntry w t.rip = true) :
    inPatchedEntry (w.moved (.unloadDll base) (handleUnloadDll env base w.d)) t.rip
      = true := by
  obtain ⟨h, hh, hin⟩ := List.any_eq_true.mp hentry
  obtain ⟨hjumps, hrange⟩ := Bool.and_eq_true_iff.mp hin
  have hinstalled := hi.recorded.recorded h hh hjumps
  have hkept : h.targetModuleBase ≠ base ∧ h.sourceModuleBase ≠ base := by
    refine not_or.mp ?_
    intro hdropped
    exact Bool.false_ne_true (((hsafe h hinstalled hdropped).1 t ht).symm.trans hrange)
  refine List.any_eq_true.mpr ⟨h, mem_lastHooks.mpr (Or.inl (mem_unloaded.mpr
    ⟨hinstalled, hkept⟩)), Bool.and_eq_true_iff.mpr ⟨?_, hrange⟩⟩
  show jumps (handleUnloadDll env base w.d) h.originalFunction = true
  rw [jumps_unloaded hi hclear hinstalled, if_neg fun hu => hkept.2 hu.2.1]
  exact hjumps

theorem unloaded_counter {d : DebugState} :
    (handleUnloadDll env base d).target.activeHookCalls = d.target.activeHookCalls := by
  refine releaseHooks_keeps
    (P := fun t => t.activeHookCalls = d.target.activeHookCalls) ?_ ?_ rfl
  · intro g _ _ t ht
    rw [releaseUnloadedHook_activeHookCalls, ht]
  · intro g _ _ _ t ht
    rw [unhookFunction_activeHookCalls, ht]

theorem Inv.unload (hi : Inv w) (hclear : PatchesClear w)
    (hsafe : SafeUnload w (.event env (.unloadDll base)))
    (hfresh : Fresh w (w.moved (.unloadDll base) (handleUnloadDll env base w.d)))
    (hsep : Separate (w.moved (.unloadDll base) (handleUnloadDll env base w.d)))
    (hbounded : Bounded (handleUnloadDll env base w.d)) :
    Inv (w.moved (.unloadDll base) (handleUnloadDll env base w.d)) where
  session := sessionInv_unload hi
  recorded := recorded_unload hi hclear hsafe
  separate := hsep
  bounded := hbounded
  idle hzero := hi.idle hzero
  crowd := by
    show w.crowd.Inv (layout _) (Target.activeHookCalls _)
    rw [World.moved, unloaded_counter]
    refine hi.crowd.relayout ?_ rfl hfresh
    intro t ht hentry
    exact entry_unload hi hclear hsafe ht hentry

end Unload

/-! ## All runs -/

theorem initial_inv {w : World} (h : Initial w) : Inv w := by
  obtain ⟨⟨pid, hs⟩, hblocks, hcounter, hidle, hhooked⟩ := h
  have hhooks : w.d.session.installedHooks = [] := by rw [hs]; rfl
  have hfar : ∀ a, (layout w).support a = false := by
    intro a
    simp [layout, inImage, inTrampoline, inBypass, inBlock, hs, hblocks, newSession]
  refine ⟨⟨?_, ?_, ?_, ?_⟩, ⟨fun _ => hhooked, ?_, ?_, ?_, ?_⟩, ?_, ⟨?_, ?_⟩,
    fun _ => hidle, ?_⟩
  · intro _
    rw [hs]
    exact ⟨rfl, rfl, rfl, rfl, hblocks⟩
  · rw [hhooks]
    exact fun g hg => (List.not_mem_nil hg).elim
  · rw [hhooks]
    exact fun g hg => (List.not_mem_nil hg).elim
  · rw [hhooks]
    exact List.Pairwise.nil
  · rw [hhooks]
    exact fun g hg => (List.not_mem_nil hg).elim
  · rw [hhooked]
    exact fun g hg => (List.not_mem_nil hg).elim
  · rw [hhooked]
    exact fun g hg => (List.not_mem_nil hg).elim
  · rw [hhooked]
    exact fun g hg => (List.not_mem_nil hg).elim
  · rw [Separate, hhooked]
    exact fun g hg => (List.not_mem_nil hg).elim
  · rw [hs]
    show 0 + 0 < 2 ^ 64
    decide
  · rw [hhooks]
    exact fun g hg => (List.not_mem_nil hg).elim
  · rw [hcounter]
    exact hidle.inv fun t _ => ⟨hfar _, fun r _ => hfar r⟩

/-- The invariant does not look at what a step of the target changes. -/
theorem Inv.same {w : World} {d' : DebugState} {crowd : Crowd Nat} (hi : Inv w)
    (hsession : d'.session = w.d.session) (hblocks : d'.target.blocks = w.d.target.blocks)
    (hjumps : ∀ h ∈ w.hooked, jumps d' h.originalFunction = jumps w.d h.originalFunction)
    (hidle : w.d.session.hookImageBase = 0 → crowd.Idle)
    (hcrowd : crowd.Inv (layout w) d'.target.activeHookCalls) :
    Inv { w with d := d', crowd } := by
  have hentry : inPatchedEntry { w with d := d', crowd } = inPatchedEntry w := by
    funext a
    rw [Bool.eq_iff_iff, inPatchedEntry, inPatchedEntry, List.any_eq_true, List.any_eq_true]
    refine exists_congr fun h => and_congr_right fun hh => ?_
    rw [hjumps h hh]
  have hlayout : layout { w with d := d', crowd } = layout w := by
    rw [layout, hentry, layout]
    congr 1
    · funext a
      simp only [inImage, hsession]
    · funext a
      simp only [inImage, inTrampoline, inBypass, inBlock, hsession, hblocks]
  refine ⟨⟨?_, ?_, ?_, ?_⟩, ⟨?_, ?_, ?_, hi.recorded.covers, ?_⟩, ?_, ?_, ?_, ?_⟩
  · rw [hsession, hblocks]
    exact hi.session.unmapped
  · rw [hsession]
    exact hi.session.complete
  · rw [hsession]
    exact hi.session.slots
  · rw [hsession]
    exact hi.session.distinct
  · rw [hsession]
    exact hi.recorded.none
  · rw [hsession]
    exact hi.recorded.tracked
  · rw [hsession]
    exact hi.recorded.last
  · intro h hh hj
    rw [hsession]
    exact hi.recorded.recorded h hh ((hjumps h hh).symm.trans hj)
  · rw [Separate, hsession, hblocks]
    exact hi.separate
  · rw [Bounded, hsession]
    exact hi.bounded
  · rw [hsession]
    exact hidle
  · rw [hlayout]
    exact hcrowd

/-- An event, in all its cases. -/
theorem event_inv {w : World} {env : Environment} {e : DebugEvent} (hi : Inv w)
    (hkeeps : Keeps w (.event env e))
    (hrun : (handleEvent env options w.d e).session.finished = false)
    (hclear : PatchesClear (w.moved e (handleEvent env options w.d e)))
    (hfresh : Fresh w (w.moved e (handleEvent env options w.d e)))
    (hsep : Separate (w.moved e (handleEvent env options w.d e)))
    (hbounded : Bounded (handleEvent env options w.d e)) :
    Inv (w.moved e (handleEvent env options w.d e)) := by
  obtain ⟨hok, -, heq⟩ := handleEvent_running hrun
  have hanswers := hkeeps.answers env e rfl
  rw [heq] at hrun hclear hfresh hsep hbounded ⊢
  cases e with
  | createProcess base path =>
      have hok' : (handleCreateProcess env options base path w.d).1 = true := hok
      rw [dispatchEvent] at hclear hfresh hsep hbounded ⊢
      dsimp only at hclear hfresh hsep hbounded ⊢
      rw [handleCreateProcess] at hok' hclear hfresh hsep hbounded ⊢
      by_cases hzero : w.d.session.hookImageBase = 0
      · rw [if_pos hzero] at hok' hclear hfresh hsep hbounded ⊢
        dsimp only at hok' hclear hfresh hsep hbounded ⊢
        cases hmapped : (initializeDebuggee env w.d).1 with
        | false =>
            rw [hmapped] at hok'
            cases hok'
        | true =>
            rw [hmapped] at hok' hclear hfresh hsep hbounded
            rw [if_pos rfl] at hok' hclear hfresh hsep hbounded ⊢
            have hinit := initializeDebuggee_true hmapped
            have hsession := sessionInv_initialized hi.session hzero hinit
            obtain ⟨b, hb, hbase, hsize⟩ := initializeDebuggee_maps hmapped
            refine hi.initialize hzero hinit.image hinit.counter
              (advances_registerModule hanswers.decode ?_ hsession hok') hfresh hsep hbounded
            rw [hbase, hsize]
            exact hanswers.injected b hb
      · rw [if_neg hzero] at hok' hclear hfresh hsep hbounded ⊢
        exact hi.advance rfl (advances_registerModule hanswers.decode hanswers.mapped
          hi.session hok') hclear hfresh hsep hbounded
  | loadDll base path =>
      exact hi.advance rfl (advances_registerModule hanswers.decode hanswers.mapped
        hi.session hok) hclear hfresh hsep hbounded
  | unloadDll base => exact hi.unload hkeeps.clear hkeeps.unload hfresh hsep hbounded
  | breakpoint =>
      refine hi.advance rfl ?_ hclear hfresh hsep hbounded
      rw [dispatchEvent]
      split
      next => exact Advances.refl hi.session
      next =>
        exact ⟨⟨hi.session.unmapped, hi.session.complete, hi.session.slots,
          hi.session.distinct⟩, rfl, rfl, fun _ hb => hb, fun _ hh => hh, rfl,
          fun _ _ _ => rfl⟩
  | exception =>
      exact hi.advance rfl (Advances.refl hi.session) hclear hfresh hsep hbounded
  | exitProcess => cases hrun
  | other => exact hi.advance rfl (Advances.refl hi.session) hclear hfresh hsep hbounded

/-- **STEP**: an admitted step keeps the invariant while the session runs and
    its patches are clear of each other. -/
theorem debugStep_inv {w w' : World} {a : WorldAction} (hi : Inv w)
    (hkeeps : Keeps w a) (hs : debugStep options w a = some w')
    (hrun : w'.d.session.finished = false) (hclear : PatchesClear w') : Inv w' := by
  cases a with
  | threads a =>
      rw [debugStep] at hs
      split at hs
      next => cases hs
      next crowd counter hstep =>
        cases hs
        refine hi.same rfl rfl (fun _ _ => rfl) ?_ (crowdStep_inv hstep hi.crowd)
        intro hzero
        refine crowdStep_idle ?_ hstep (hi.idle hzero)
        intro a
        show inPatchedEntry w a = false
        rw [inPatchedEntry, hi.recorded.none hzero]
        rfl
  | targetWrites memory =>
      obtain ⟨hjumps, heq⟩ := Option.ite_none_right_eq_some.mp hs
      cases heq
      exact hi.same rfl rfl hjumps hi.idle hi.crowd
  | event env e =>
      rw [debugStep] at hs
      split at hs
      next => cases hs
      next =>
        obtain ⟨⟨-, hfresh, hsep, hbounded⟩, heq⟩ := Option.ite_none_right_eq_some.mp hs
        cases heq
        exact event_inv hi hkeeps hrun hclear hfresh hsep hbounded
  | requestStop =>
      rw [debugStep] at hs
      split at hs
      next => cases hs
      next =>
        cases hs
        exact ⟨⟨hi.session.unmapped, hi.session.complete, hi.session.slots,
          hi.session.distinct⟩, ⟨hi.recorded.none, hi.recorded.tracked, hi.recorded.last,
          hi.recorded.covers, hi.recorded.recorded⟩, hi.separate, hi.bounded, hi.idle, hi.crowd⟩
  | leaveLoop =>
      cases hs
      cases hrun

/-- A session that runs after a step ran before it. -/
theorem running_before {w w' : World} {a : WorldAction}
    (hs : debugStep options w a = some w') (hrun : w'.d.session.finished = false) :
    w.d.session.finished = false := by
  cases a with
  | threads a =>
      rw [debugStep] at hs
      split at hs
      next => cases hs
      next =>
        cases hs
        exact hrun
  | targetWrites memory =>
      obtain ⟨-, heq⟩ := Option.ite_none_right_eq_some.mp hs
      cases heq
      exact hrun
  | leaveLoop =>
      cases hs
      cases hrun
  | _ =>
      rw [debugStep] at hs
      split at hs
      next => cases hs
      next hnot => exact Bool.eq_false_iff.mpr hnot

/-- **RUN**: the invariant holds while the session runs, in every run whose
    steps are admitted by a condition that loses no patch. -/
theorem inv_of_reachable {ok : World → WorldAction → Prop}
    (hclear : ∀ w a, ok w a → PatchesClear w)
    (hok : ∀ w a, Inv w → ok w a → Keeps w a) {w : World}
    (hr : ReachableIf (debugSystem options) ok w)
    (hrun : w.d.session.finished = false) (hlast : PatchesClear w) : Inv w := by
  revert hrun hlast
  refine hr.invariant (P := fun w => w.d.session.finished = false → PatchesClear w → Inv w)
    ?_ ?_
  · intro w h0 _ _
    exact initial_inv h0
  · intro w a w' ih ha hs hrun hlast
    have hi := ih (running_before hs hrun) (hclear w a ha)
    exact debugStep_inv hi (hok w a hi ha) hs hrun hlast

/-! ## The check -/

/-- What `IsCleanupQuiescent` looks for: no call counted, and no thread with
    its instruction pointer in an instrumentation address. -/
structure AtRest (w : World) : Prop where
  counter : w.d.target.activeHookCalls = 0#32
  rip : ∀ t ∈ w.crowd.threads, isInstrumentationAddress w.d.session t.rip = false

/-- Without wrap-around, the check knows image, patched bytes and trampolines. -/
theorem not_instrumentation {d : DebugState} (hb : Bounded d) {a : Nat}
    (h : isInstrumentationAddress d.session a = false) :
    inImage d a = false ∧ inPatchedSpan d a = false := by
  rw [isInstrumentationAddress, Bool.or_eq_false_iff] at h
  obtain ⟨himage, hhooks⟩ := h
  rw [Nat.mod_eq_of_lt hb.1] at himage
  refine ⟨?_, ?_⟩
  · simp only [decide_eq_false_iff_not] at himage
    simpa [inImage, inRange] using himage
  · rw [inPatchedSpan, List.any_eq_false]
    rw [List.any_eq_false] at hhooks
    intro g hg hin
    refine hhooks g hg ?_
    simp only [inRange, decide_eq_true_eq] at hin
    rw [Nat.mod_eq_of_lt (hb.2 g hg)]
    simp [hin]

/-- **REST IS QUIET**: at rest no thread is involved in any way. -/
theorem uninvolved_of_atRest {w : World} (hi : Inv w) (hn : w.crowd.nested < 2 ^ 31)
    (hrest : AtRest w) : ∀ t ∈ w.crowd.threads, Uninvolved w t := by
  have hrip : ∀ t ∈ w.crowd.threads,
      (layout w).handler t.rip = false ∧ (layout w).entry t.rip = false := by
    intro t ht
    obtain ⟨himage, hspan⟩ := not_instrumentation hi.bounded (hrest.rip t ht)
    refine ⟨himage, ?_⟩
    show inPatchedEntry w t.rip = false
    rw [inPatchedEntry, List.any_eq_false]
    intro h hh hin
    obtain ⟨hjumps, hrange⟩ := Bool.and_eq_true_iff.mp hin
    rw [inPatchedSpan, List.any_eq_false] at hspan
    exact hspan h (hi.recorded.recorded h hh hjumps) hrange
  have hquiet := hi.crowd.quiet (by omega) hrest.counter hrip
  intro t ht
  have hq := hquiet t ht
  have hsplit : ∀ a, (layout w).support a = false → inImage w.d a = false ∧
      inTrampoline w.d a = false ∧ inBypass w.d a = false ∧ inBlock w.d a = false := by
    intro a ha
    simpa only [layout, Bool.or_eq_false_iff, and_assoc] using ha
  obtain ⟨himage, htramp, hbypass, hblock⟩ := hsplit _ hq.rip.1
  exact ⟨hq.frames, himage, hq.rip.2.2, (not_instrumentation hi.bounded
    (hrest.rip t ht)).2, htramp, hbypass, hblock, fun r hr => hsplit r (hq.pending r hr)⟩

/-- The check sees rest, where the snapshot shows every thread. -/
theorem atRest_of_quiescent {w : World} {env : Environment}
    (hzero : w.d.session.hookImageBase ≠ 0) (hseen : Seen env w)
    (hq : isCleanupQuiescent env w.d = true) : AtRest w := by
  rw [isCleanupQuiescent, if_neg hzero] at hq
  split at hq
  next => cases hq
  next =>
    split at hq
    next => cases hq
    next hcounter =>
      obtain ⟨-, hcounter⟩ := not_or.mp hcounter
      split at hq
      next => cases hq
      next entries hsnapshot =>
        refine ⟨not_not.mp hcounter, ?_⟩
        intro t ht
        obtain ⟨hopen, hcontext, hlisted⟩ := hseen t ht
        obtain ⟨entry, hentry, howner, hid⟩ := hlisted entries hsnapshot
        have hone := List.all_eq_true.mp hq entry hentry
        rw [threadQuiescent, if_neg (not_not.mpr howner), hid] at hone
        split at hone
        next hgone => exact absurd hgone hopen
        next => cases hone
        next =>
          split at hone
          next => cases hone
          next rip hrip =>
            rw [hcontext rip hrip] at hone
            exact Bool.not_eq_true' _ ▸ hone

/-- The check, in any state with the invariant. -/
theorem uninvolved_of_quiescent {w : World} (hi : Inv w) (hn : w.crowd.nested < 2 ^ 31)
    {env : Environment} (hseen : Seen env w)
    (hq : isCleanupQuiescent env w.d = true) :
    ∀ t ∈ w.crowd.threads, Uninvolved w t := by
  by_cases hzero : w.d.session.hookImageBase = 0
  · -- nothing is mapped: the threads are outside, and there is no region
    obtain ⟨-, hhooks, hset, hread, hblocks⟩ := hi.session.unmapped hzero
    intro t ht
    have hnil := (hi.idle hzero).frames t ht
    refine ⟨hnil, ?_, ?_, ?_, ?_, ?_, ?_, ?_⟩
    · simp [inImage, hzero]
    · simp [inPatchedEntry, hi.recorded.none hzero]
    · simp [inPatchedSpan, hhooks]
    · simp [inTrampoline, hhooks]
    · simp [inBypass, hset, hread]
    · simp [inBlock, hblocks]
    · intro r _
      simp [inImage, inTrampoline, inBypass, inBlock, hzero, hhooks, hset, hread, hblocks]
  · exact uninvolved_of_atRest hi hn (atRest_of_quiescent hzero hseen hq)

/-- **THE CHECK IS SOUND** in every run whose unloads take out the jumps whose
    records they drop, with no thread in them, and whose patches are clear of
    each other: whenever `IsCleanupQuiescent` returns true, no thread is in any
    instrumentation or due to return into it. -/
theorem quiescence_sound {w : World}
    (hr : ReachableIf (debugSystem options) Keeps w) (hclear : PatchesClear w)
    (hrun : w.d.session.finished = false) (hn : w.crowd.nested < 2 ^ 31)
    {env : Environment} (hseen : Seen env w)
    (hq : isCleanupQuiescent env w.d = true) :
    ∀ t ∈ w.crowd.threads, Uninvolved w t :=
  uninvolved_of_quiescent
    (inv_of_reachable (fun _ _ h => h.clear) (fun _ _ _ h => h) hr hrun hclear) hn hseen hq

/-! ## Concrete runs -/

/-- The characters of a path. -/
def wideName (name : String) : List UInt16 := (cstr name).map UInt8.toUInt16

def openHook : HookDefinition where
  moduleName := cstr "api.dll"
  exportName := cstr "Open"
  handlerExport := cstr "OpenHandler"
  trampolineExport := cstr "OpenTrampoline"
  canonicalName := cstr "api.dll!Open"

/-- `ntdll.dll` is at `0x80000`, the hook image at `0x30000`, and `Open` of
    the module at `0x10000` is a forwarder to the one at `0x20000`. -/
def sampleExports (base : Nat) (name : List UInt8) : Option RemoteExport :=
  if base = 0x10000 then some ⟨0, cstr "base.Open"⟩
  else if base = 0x20000 then
    if name = cstr "Open" then some ⟨0x20100, []⟩ else none
  else if base = 0x30000 then
    if name = cstr "OpenHandler" then some ⟨0x30500, []⟩
    else if name = cstr "OpenTrampoline" then some ⟨0x30010, []⟩
    else some ⟨0x30020, []⟩
  else if base = 0x80000 then
    if name = cstr "NtSetEvent" then some ⟨0x80100, []⟩ else some ⟨0x80200, []⟩
  else none

def sampleAllocated (name : List UInt8) : Nat :=
  if name = cstr "NtSetEvent" then 0x60000
  else if name = cstr "NtReadVirtualMemory" then 0x70000
  else 0x40000

/-- Everything succeeds, and the one thread of the target is at `rip`. -/
def sampleEnvironment (rip : Nat) : Environment :=
  { Environment.cooperative sampleExports sampleAllocated ⟨0x30000, 0x1000⟩
      ⟨0x50000, 0x1000⟩ with
    snapshot := some [⟨1, 7⟩]
    threadContext := fun _ => some rip }

def sampleWorld : World where
  d :=
    { session := newSession 1
      target :=
        { memory := fun _ => 0x90
          blocks := []
          patched := []
          activeHookCalls := 0#32 } }
  crowd := ⟨[⟨7, 0x900000, [0x900100], []⟩], 0⟩
  hooked := []

theorem sampleWorld_initial : Initial sampleWorld :=
  ⟨⟨1, rfl⟩, rfl, rfl, ⟨by decide, rfl⟩, rfl⟩

/-- The start of the target, up to the installed hook. -/
def startRun : List WorldAction :=
  [.event (sampleEnvironment 0x900000) (.createProcess 0x400000 (wideName "a.exe")),
    .event (sampleEnvironment 0x900000) (.loadDll 0x80000 (wideName "ntdll.dll")),
    .event (sampleEnvironment 0x900000) (.loadDll 0x10000 (wideName "api.dll")),
    .event (sampleEnvironment 0x900000) (.loadDll 0x20000 (wideName "base.dll"))]

/-- The thread calls the hooked function and comes back. -/
def callRun : List WorldAction :=
  [.threads (.act 0 (.enter 0x20100)), .threads (.act 0 (.dispatch 0x30500)),
    .threads (.act 0 .increment), .threads (.act 0 (.decrement 0x30580 [])),
    .threads (.act 0 .leave)]

theorem sampleExports_inside {env : Environment} (h : env.exports = sampleExports)
    {image size : Nat} (himage : (image = 0) ∨ (image = 0x30000 ∧ size = 0x1000)) :
    ExportsInside env image size := by
  intro name a ha
  rcases himage with rfl | ⟨rfl, rfl⟩
  · rw [Environment.getRemoteExport, if_pos rfl] at ha
    cases ha
  · have ha' : exportAddress (sampleExports 0x30000 name) = some a := by
      rw [← h]
      exact ha
    rw [sampleExports, if_neg (by decide), if_neg (by decide), if_pos rfl] at ha'
    split at ha'
    · cases ha'
      decide
    · split at ha' <;> cases ha' <;> decide

theorem sampleEnvironment_answers {w : World} (rip : Nat)
    (himage : w.d.session.hookImageBase = 0 ∨
      (w.d.session.hookImageBase = 0x30000 ∧ w.d.session.hookImageSize = 0x1000)) :
    Answers w (sampleEnvironment rip) where
  decode := by
    intro bytes instruction h
    dsimp only [sampleEnvironment, Environment.cooperative] at h
    split at h
    next =>
      cases h
      exact Nat.succ_le_succ (Nat.zero_le _)
    next => cases h
  mapped := sampleExports_inside rfl himage
  injected := by
    intro b hb
    cases hb
    exact sampleExports_inside rfl (Or.inr ⟨rfl, rfl⟩)

instance (w : World) : Decidable (PatchesClear w) :=
  decidable_of_iff
    ((∀ g ∈ w.hooked, ∀ h ∈ w.hooked, g.originalFunction ≠ h.originalFunction →
        SpansApart g h) ∧
      ∀ h ∈ w.hooked, jumpsInto w.d.session.hookImageBase w.d.session.hookImageSize
        (h.originalBytes.take patchSize) = false)
    ⟨fun h => ⟨h.1, h.2⟩, fun h => ⟨h.spans, h.saved⟩⟩

/-- A state of a run of the sample. -/
def sampleState (w : World) : Bool :=
  (w.d.session.hookImageBase = 0 ∨
      (w.d.session.hookImageBase = 0x30000 ∧ w.d.session.hookImageSize = 0x1000)) ∧
    PatchesClear w

/-- A step of the sample that is no unload keeps to everything. -/
theorem keeps_of_sample {w : World} {a : WorldAction} (hw : sampleState w = true)
    (hevent : ∀ env e, a = .event env e → ∃ rip, env = sampleEnvironment rip)
    (hunload : SafeUnload w a) : Keeps w a := by
  obtain ⟨himage, hclear⟩ := of_decide_eq_true hw
  refine ⟨?_, hclear, hunload⟩
  intro env e heq
  obtain ⟨rip, rfl⟩ := hevent env e heq
  exact sampleEnvironment_answers rip himage

/-- The hook is installed, the call is over, and the check returns true. -/
theorem quiescence_sound_called : ∃ w, ReachableIf (debugSystem [openHook]) Keeps w ∧
    inPatchedEntry w 0x20100 = true ∧ isCleanupQuiescent (sampleEnvironment 0x900100) w.d
      = true ∧ ∀ t ∈ w.crowd.threads, Uninvolved w t := by
  have hexec : ((debugSystem [openHook]).execWhile (fun w _ => sampleState w) sampleWorld
      (startRun ++ callRun)).map
      (fun w => decide (PatchesClear w ∧ w.d.session.finished = false ∧
        w.crowd.nested < 2 ^ 31 ∧ Seen (sampleEnvironment 0x900100) w) && isCleanupQuiescent
          (sampleEnvironment 0x900100) w.d && inPatchedEntry w 0x20100) = some true := by
    decide +kernel
  obtain ⟨w, hw, hp⟩ := Option.map_eq_some_iff.mp hexec
  simp only [Bool.and_eq_true, decide_eq_true_eq] at hp
  obtain ⟨⟨⟨hclear, hrun, hn, hseen⟩, hq⟩, hentry⟩ := hp
  have hr : ReachableIf (debugSystem [openHook]) Keeps w := by
    refine (ReachableIf.init sampleWorld_initial).execWhile_mem (startRun ++ callRun) ?_ hw
    intro s a ha hs
    simp only [startRun, callRun, List.cons_append, List.nil_append, List.mem_cons,
      List.not_mem_nil, or_false] at ha
    rcases ha with rfl | rfl | rfl | rfl | rfl | rfl | rfl | rfl | rfl
    all_goals refine keeps_of_sample hs ?_ trivial
    all_goals rintro env e heq; cases heq
    all_goals exact ⟨_, rfl⟩
  exact ⟨w, hr, hentry, hq, quiescence_sound hr hclear hrun hn hseen hq⟩

/-- The forwarding module is unloaded while the write of saved bytes fails;
    then the thread calls the function, which still jumps. -/
def lostPatchRun : List WorldAction :=
  [.event { sampleEnvironment 0x900000 with
      unhookCalls := fun _ => ⟨true, false, true, true, true, true⟩ } (.unloadDll 0x10000),
    .requestStop, .threads (.act 0 (.enter 0x20100))]

/-- **A LOST PATCH**: the check returns true with a thread in the patched
    entry of a function whose record an unload has dropped. -/
theorem quiescence_loses_patch : ∃ w env, Reachable (debugSystem [openHook]) w ∧
    w.d.session.finished = false ∧ w.crowd.nested < 2 ^ 31 ∧ Seen env w ∧
    isCleanupQuiescent env w.d = true ∧
    ∃ t ∈ w.crowd.threads, inPatchedEntry w t.rip = true := by
  have hexec : ((debugSystem [openHook]).exec sampleWorld (startRun ++ lostPatchRun)).map
      (fun w => decide (w.d.session.finished = false ∧ w.crowd.nested < 2 ^ 31 ∧
        Seen (sampleEnvironment 0x20100) w) && isCleanupQuiescent
          (sampleEnvironment 0x20100) w.d
        && w.crowd.threads.any fun t => inPatchedEntry w t.rip) = some true := by
    decide +kernel
  obtain ⟨w, hw, hp⟩ := Option.map_eq_some_iff.mp hexec
  simp only [Bool.and_eq_true, decide_eq_true_eq, List.any_eq_true] at hp
  obtain ⟨⟨⟨hrun, hn, hseen⟩, hq⟩, hin⟩ := hp
  have hr : Reachable (debugSystem [openHook]) w :=
    (ReachableIf.init sampleWorld_initial).exec (fun _ _ => trivial) _ hw
  exact ⟨w, _, hr, hrun, hn, hseen, hq, hin⟩

/-! ## Two functions that are close together -/

def closeHook : HookDefinition where
  moduleName := cstr "api.dll"
  exportName := cstr "Close"
  handlerExport := cstr "CloseHandler"
  trampolineExport := cstr "CloseTrampoline"
  canonicalName := cstr "api.dll!Close"

/-- `nop`, `push imm32`, `mov dword [rsp+4], imm32` and `ret`. -/
def decodeSample : List UInt8 → Option DecodedInstruction
  | 0x90 :: _ => some ⟨1, false, false⟩
  | 0x68 :: _ => some ⟨5, false, false⟩
  | 0xC7 :: _ => some ⟨8, false, false⟩
  | 0xC3 :: _ => some ⟨1, false, false⟩
  | _ => none

/-- `Close` is eight bytes behind `Open` in `base.dll`, and `api.dll` forwards
    both. -/
def nearExports (base : Nat) (name : List UInt8) : Option RemoteExport :=
  if base = 0x10000 then some ⟨0, cstr "base." ++ name⟩
  else if base = 0x20000 ∧ name = cstr "Close" then some ⟨0x20108, []⟩
  else if base = 0x30000 ∧ name = cstr "CloseHandler" then some ⟨0x30600, []⟩
  else if base = 0x30000 ∧ name = cstr "CloseTrampoline" then some ⟨0x30018, []⟩
  else sampleExports base name

def nearEnvironment (rip : Nat) : Environment :=
  { sampleEnvironment rip with
    exports := nearExports
    decodeInstruction64 := decodeSample
    hookCalls := fun definition =>
      ⟨⟨true, if definition.exportName = cstr "Close" then 0x41000 else 0x40000, true, true,
        true, true, true⟩, true, true, ⟨true, true, true, true⟩, true, true⟩ }

/-- The code is all `nop` up to the `ret` of `Close`. -/
def nearWorld : World :=
  { sampleWorld with
    d :=
      { sampleWorld.d with
        target :=
          { sampleWorld.d.target with
            memory := fun a => if a = 0x20115 then 0xC3 else 0x90 } } }

/-- `Close` is hooked first; the patch of `Open` then covers all of its jump but
    the `ret`.  Every call succeeds. -/
def nearRun : List WorldAction :=
  [.event (nearEnvironment 0x900000) (.createProcess 0x400000 (wideName "a.exe")),
    .event (nearEnvironment 0x900000) (.loadDll 0x80000 (wideName "ntdll.dll")),
    .event (nearEnvironment 0x900000) (.loadDll 0x10000 (wideName "api.dll")),
    .event (nearEnvironment 0x900000) (.loadDll 0x20000 (wideName "base.dll"))]

/-- The unload restores `Close`, and then `Open` with the jump in its saved
    bytes; the thread calls `Close`. -/
def overlapRun : List WorldAction :=
  nearRun ++
    [.event (nearEnvironment 0x900000) (.unloadDll 0x10000), .requestStop,
      .threads (.act 0 (.enter 0x20108))]

instance (w : World) : DecidablePred (SafeUnload w)
  | .event _ (.unloadDll _) => inferInstanceAs (Decidable (∀ h ∈ _, _ ∨ _ → _ ∧ (_ → _)))
  | .event _ (.createProcess _ _) => .isTrue trivial
  | .event _ (.loadDll _ _) => .isTrue trivial
  | .event _ .breakpoint => .isTrue trivial
  | .event _ .exception => .isTrue trivial
  | .event _ .exitProcess => .isTrue trivial
  | .event _ .other => .isTrue trivial
  | .threads _ => .isTrue trivial
  | .targetWrites _ => .isTrue trivial
  | .requestStop => .isTrue trivial
  | .leaveLoop => .isTrue trivial

/-- **A JUMP PUT BACK**: without any failing call, the unload of a module leaves
    a jump without a record where two patches overlap, and the check returns
    true with a thread in it. -/
theorem quiescence_loses_overlap : ∃ w env,
    ReachableIf (debugSystem [closeHook, openHook]) SafeUnload w ∧
    w.d.session.finished = false ∧ w.crowd.nested < 2 ^ 31 ∧ Seen env w ∧
    isCleanupQuiescent env w.d = true ∧ w.d.session.installedHooks = [] ∧
    ∃ t ∈ w.crowd.threads, inPatchedEntry w t.rip = true := by
  have hexec : ((debugSystem [closeHook, openHook]).execWhile
      (fun w a => decide (SafeUnload w a)) nearWorld overlapRun).map
      (fun w => decide (w.d.session.finished = false ∧ w.crowd.nested < 2 ^ 31 ∧
        Seen (sampleEnvironment 0x20108) w) && isCleanupQuiescent
          (sampleEnvironment 0x20108) w.d && w.d.session.installedHooks.isEmpty
        && w.crowd.threads.any fun t => inPatchedEntry w t.rip) = some true := by
    decide +kernel
  obtain ⟨w, hw, hp⟩ := Option.map_eq_some_iff.mp hexec
  simp only [Bool.and_eq_true, decide_eq_true_eq, List.any_eq_true] at hp
  obtain ⟨⟨⟨⟨hrun, hn, hseen⟩, hq⟩, hempty⟩, hin⟩ := hp
  have hstart : Initial nearWorld := ⟨⟨1, rfl⟩, rfl, rfl, ⟨by decide, rfl⟩, rfl⟩
  have hr : ReachableIf (debugSystem [closeHook, openHook]) SafeUnload w :=
    (ReachableIf.init hstart).execWhile (fun _ _ => of_decide_eq_true) overlapRun hw
  exact ⟨w, _, hr, hrun, hn, hseen, hq, List.isEmpty_iff.mp hempty, hin⟩

end ScopeQuiescence
