import ApiScope.AcceptorProofs
import ApiScope.DetachProofs

/-! # The event loop — what the debugger asks of the debug port

    `EventLoop` waits for debug events, handles each of them and lets the
    target go on.  The other side is the debug port of the system
    (`debugPort`): it reports an event only while the target runs, then holds
    the target until the event is continued.  Whatever the system answers, the
    calls of the loop keep to that protocol: memory of the target is written
    only while an event is held, and every event is continued once, with the
    handles that came with it closed.

    Whose a breakpoint is, the event does not say.  The loop takes the first
    one for the loader's, and every one that comes while it waits for a break
    for the one that it asked for.  Where that is so (`InTurn`), the
    breakpoints of the target get to the target, a stop that was begun always
    has one break request on the way, and a clean stop detaches with none
    (`breakPort`). -/

namespace ScopeEventLoop

open ScopeBytes ScopeTransition ScopeAcceptor ScopeHook ScopeDebug ScopeQuiescence ScopeDetach

/-! ## Debug events -/

/-- `EXCEPTION_BREAKPOINT`. -/
def exceptionBreakpoint : Nat := 0x80000003

/-- The union of a `DEBUG_EVENT`.  A handle may be null, and `path` is what
    `GetModulePath` finds for `hFile`. -/
inductive EventInfo where
  | createProcess (lpBaseOfImage : Nat) (path : List UInt16) (hFile hThread hProcess : Nat)
  | createThread (hThread : Nat)
  | loadDll (lpBaseOfDll : Nat) (path : List UInt16) (hFile : Nat)
  | unloadDll (lpBaseOfDll : Nat)
  | exception (exceptionCode : Nat)
  | exitProcess (dwExitCode : Nat)
  /-- Any other event. -/
  | other
  deriving DecidableEq

/-- `DEBUG_EVENT`. -/
structure DebugEventRecord where
  dwProcessId : Nat
  dwThreadId : Nat
  u : EventInfo
  deriving DecidableEq

/-- The case of the switch that takes the event. -/
def EventInfo.debugEvent : EventInfo → DebugEvent
  | .createProcess base path _ _ _ => .createProcess base path
  | .createThread _ => .other
  | .loadDll base path _ => .loadDll base path
  | .unloadDll base => .unloadDll base
  | .exception code => if code = exceptionBreakpoint then .breakpoint else .exception
  | .exitProcess _ => .exitProcess
  | .other => .other

/-- `if (handle) CloseHandle(handle)`. -/
def closeUnlessNull (handle : Nat) : List Nat := if handle = 0 then [] else [handle]

/-- `CloseDebugEventHandles`: the handles, in the order they are closed. -/
def closeDebugEventHandles : EventInfo → List Nat
  | .createProcess _ _ hFile hThread hProcess =>
      closeUnlessNull hFile ++ (closeUnlessNull hThread ++ closeUnlessNull hProcess)
  | .createThread hThread => closeUnlessNull hThread
  | .loadDll _ _ hFile => closeUnlessNull hFile
  | _ => []

inductive ContinueStatus where
  | dbgContinue
  | dbgExceptionNotHandled
  deriving DecidableEq

/-- Who raised a breakpoint: the loader, when the process is ready; the thread
    that `DebugBreakProcess` makes; or the code of the target. -/
inductive Origin where
  | loader
  | request
  | target
  deriving DecidableEq

/-- What `WaitForDebugEventEx` returns: nothing in 100 ms, a failure, or an event;
    the loop is not told the origin. -/
inductive Wait where
  | timeout
  | failed
  | event (e : DebugEventRecord) (origin : Origin)

/-! ## The calls of the loop -/

inductive Call where
  | setConsoleCtrlHandler (add : Bool)
  | debugBreakProcess (ok : Bool)
  | waitForDebugEvent (w : Wait)
  /-- The handler of the event; it writes to the target. -/
  | handle (u : EventInfo)
  | drain
  /-- `DebugSession::CleanupRemote`, which writes to the target. -/
  | cleanupRemote
  | closeHandle (handle : Nat)
  | continueDebugEvent (dwProcessId dwThreadId : Nat) (status : ContinueStatus) (ok : Bool)
  | sleep
  | debugActiveProcessStop
  | stop

/-- What the system answers in one pass of the loop. -/
structure Turn where
  /-- `StopRequested`, which the console handler sets. -/
  stopRequested : Bool
  debugBreakProcess : Bool
  waitForDebugEvent : Wait
  env : Environment
  continueDebugEvent : Bool
  debugBreakRetry : Bool

/-- The local variables of `EventLoop`, and the session. -/
structure Loop where
  d : DebugState
  debugActive : Bool
  result : Nat
  finished : Bool
  naturalExit : Bool
  targetExitCode : Nat
  /-- A `break` has left the loop. -/
  broken : Bool

/-- The request for a break, once the user has asked to stop. -/
def requestBreak (t : Turn) (s : Loop) : Loop × List Call :=
  if t.stopRequested = true ∧ s.d.session.stopBreakRequested = false then
    if t.debugBreakProcess then
      ({ s with d := { s.d with session := { s.d.session with stopBreakRequested := true } } },
        [.debugBreakProcess true])
    else ({ s with broken := true }, [.debugBreakProcess false])
  else (s, [])

/-- `continueStatus` after the switch. -/
def continueStatus (s : Session) : EventInfo → ContinueStatus
  | .exception code =>
      if code = exceptionBreakpoint ∧
          (s.stopBreakRequested = true ∨ s.initialBreakpointSeen = false) then .dbgContinue
      else .dbgExceptionNotHandled
  | _ => .dbgContinue

/-- `InitializeDebuggee` sets `debugActive_`. -/
def clearsKillOnExit (env : Environment) (s : Session) : EventInfo → Bool
  | .createProcess _ _ _ _ _ => s.hookImageBase = 0 ∧ env.debugSetProcessKillOnExit = true
  | _ => false

/-- The variables after the switch and the cleanup. -/
def switchEvent (options : List HookDefinition) (env : Environment) (u : EventInfo)
    (s : Loop) : Loop :=
  let s' := { s with
    d := handleEvent env options s.d u.debugEvent
    debugActive := s.debugActive || clearsKillOnExit env s.d.session u }
  match u with
  | .exitProcess code =>
      { s' with
        targetExitCode := code
        result := if code = 0 then 0 else 1
        naturalExit := true
        finished := true }
  | _ => s'

/-- `!eventOk || cleanStop`. -/
def ends (r : Dispatched) : Bool := !r.eventOk || r.cleanStop

/-- The switch calls `Drain` when the target has exited. -/
def drains : EventInfo → List Call
  | .exitProcess _ => [.drain]
  | _ => []

/-- The calls up to `ContinueDebugEvent`. -/
def switchCalls (options : List HookDefinition) (env : Environment) (u : EventInfo)
    (s : Loop) : List Call :=
  .handle u :: (drains u
    ++ ((if ends (dispatchEvent env options s.d u.debugEvent) then [.cleanupRemote] else [])
      ++ (closeDebugEventHandles u).map .closeHandle))

/-- `retryCleanStop`: a breakpoint of the stop found the target not at rest. -/
def retries (env : Environment) (d : DebugState) : EventInfo → Bool
  | .exception code =>
      code = exceptionBreakpoint ∧ d.session.stopBreakRequested = true ∧
        isCleanupQuiescent env d = false
  | _ => false

/-- Behind `ContinueDebugEvent`: `s` is the state before the event, and `s'`
    the one with its changes. -/
def afterContinue (options : List HookDefinition) (t : Turn) (u : EventInfo) (s s' : Loop) :
    Loop × List Call :=
  let r := dispatchEvent t.env options s.d u.debugEvent
  if retries t.env s.d u then
    ({ s' with broken := !t.debugBreakRetry }, [.sleep, .debugBreakProcess t.debugBreakRetry])
  else if ends r then
    ({ s' with debugActive := false, result := if r.cleanStop then 0 else 1, finished := true },
      [.debugActiveProcessStop])
  else (s', [])

/-- The body of the loop behind an event. -/
def handleRecord (options : List HookDefinition) (t : Turn) (e : DebugEventRecord) (s : Loop) :
    Loop × List Call :=
  let s' := switchEvent options t.env e.u s
  let continued := Call.continueDebugEvent e.dwProcessId e.dwThreadId
    (continueStatus s.d.session e.u) t.continueDebugEvent
  if t.continueDebugEvent then
    let r := afterContinue options t e.u s s'
    (r.1, switchCalls options t.env e.u s ++ continued :: r.2)
  else ({ s' with broken := true }, switchCalls options t.env e.u s ++ [continued])

/-- The loop goes on: neither an end nor a `break`. -/
def GoesOn (s : Loop) : Prop := s.finished = false ∧ s.broken = false

/-- One pass of the loop. -/
def pass (options : List HookDefinition) (t : Turn) (s : Loop) : Loop × List Call :=
  let r := requestBreak t s
  if r.1.broken then r
  else
    match t.waitForDebugEvent with
    | .timeout => (r.1, r.2 ++ [.waitForDebugEvent .timeout])
    | .failed => ({ r.1 with broken := true }, r.2 ++ [.waitForDebugEvent .failed])
    | .event e origin =>
        let h := handleRecord options t e r.1
        (h.1, r.2 ++ .waitForDebugEvent (.event e origin) :: h.2)

/-- The calls behind the loop. -/
def leave (s : Loop) : List Call :=
  .setConsoleCtrlHandler false ::
    ((if s.debugActive = true ∧ s.finished = false then [.debugActiveProcessStop] else [])
      ++ (if s.naturalExit then [] else [.stop]))

/-! ## Runs -/

inductive LoopAction where
  | pass (t : Turn)
  /-- The threads of the target run between two events; they write data. -/
  | targetRuns (memory : Memory) (activeHookCalls : BitVec 32)

/-- `EventLoop` as it is entered. -/
structure Entered (original : Target) (s : Loop) : Prop where
  session : ∃ processId, s.d.session = newSession processId
  target : s.d.target = original
  debugActive : s.debugActive = false
  result : s.result = 1
  finished : s.finished = false
  naturalExit : s.naturalExit = false
  broken : s.broken = false

def loopStep (options : List HookDefinition) (s : Loop) : LoopAction → Option Loop
  | .pass t => if s.finished ∨ s.broken then none else some (pass options t s).1
  | .targetRuns memory activeHookCalls =>
      some { s with d := { s.d with target := { s.d.target with memory, activeHookCalls } } }

def eventLoop (options : List HookDefinition) (original : Target) : System Loop LoopAction where
  init := Entered original
  step := loopStep options

/-- The calls of a step. -/
def loopCalls (options : List HookDefinition) (s : Loop) : LoopAction → List Call
  | .pass t => (pass options t s).2
  | .targetRuns _ _ => []

/-! ## The debug port -/

/-- The handles that come with an event. -/
def EventInfo.handles : EventInfo → List Nat
  | .createProcess _ _ hFile hThread hProcess => [hFile, hThread, hProcess].filter (· ≠ 0)
  | .createThread hThread => [hThread].filter (· ≠ 0)
  | .loadDll _ _ hFile => [hFile].filter (· ≠ 0)
  | _ => []

inductive Phase where
  | running
  /-- The target is frozen at `e`, and `handles` are still open. -/
  | held (e : DebugEventRecord) (handles : List Nat)
  | exited (code : Nat)
  /-- The debugger is detached, from an event that was not continued if `held`. -/
  | detached (held : Bool)

/-- The port; `cleaned` says that the debugger has given up the target. -/
structure DebugPort where
  phase : Phase
  cleaned : Bool

/-- The port reports an event. -/
def DebugPort.report (q : DebugPort) (e : DebugEventRecord) : DebugPort :=
  { q with phase := .held e e.u.handles }

/-- An exception goes to the target, unless it is a breakpoint. -/
def statusFits (status : ContinueStatus) : EventInfo → Bool
  | .exception code => code = exceptionBreakpoint || status = .dbgExceptionNotHandled
  | _ => status = .dbgContinue

/-- The phase behind an event that was continued. -/
def continuedPhase : EventInfo → Phase
  | .exitProcess code => .exited code
  | _ => .running

/-- The calls that are accepted while the target runs: no event is waited for
    behind the cleanup. -/
def DebugPort.whileRunning (q : DebugPort) : Call → Option DebugPort
  | .debugBreakProcess _ => some q
  | .waitForDebugEvent (.event e _) => if q.cleaned then none else some (q.report e)
  | .waitForDebugEvent _ => some q
  | .sleep => some q
  | .debugActiveProcessStop => some { q with phase := .detached false }
  | .setConsoleCtrlHandler _ => some q
  | .stop => some q
  | _ => none

/-- The calls that are accepted while an event is held. -/
def DebugPort.whileHeld (q : DebugPort) (e : DebugEventRecord) (handles : List Nat) :
    Call → Option DebugPort
  | .handle u => if u = e.u ∧ q.cleaned = false then some q else none
  | .drain =>
      match e.u with
      | .exitProcess _ => some q
      | _ => none
  | .cleanupRemote => if q.cleaned then none else some { q with cleaned := true }
  | .closeHandle handle =>
      if handle ∈ handles then some { q with phase := .held e (handles.erase handle) }
      else none
  | .continueDebugEvent processId threadId status ok =>
      if handles = [] ∧ processId = e.dwProcessId ∧ threadId = e.dwThreadId ∧
          statusFits status e.u = true then
        some (if ok then { q with phase := continuedPhase e.u } else q)
      else none
  | .debugActiveProcessStop =>
      if handles = [] then some { q with phase := .detached true } else none
  | .setConsoleCtrlHandler _ => some q
  | .stop => some q
  | _ => none

/-- The calls that are accepted when there is no target any more. -/
def DebugPort.whileGone (q : DebugPort) : Call → Option DebugPort
  | .setConsoleCtrlHandler _ => some q
  | .stop => some q
  | _ => none

def debugPort : Acceptor DebugPort Call where
  accept q c :=
    match q.phase with
    | .running => q.whileRunning c
    | .held e handles => q.whileHeld e handles c
    | .exited _ => q.whileGone c
    | .detached _ => q.whileGone c

/-- The port when the target has just been started or attached to. -/
def attachedPort : DebugPort := ⟨.running, false⟩

/-! ## The breaks -/

/-- The breakpoints that the debugger will get. -/
structure BreakPort where
  /-- The breakpoint of the loader has not been reported. -/
  loaderPending : Bool
  /-- The break requests that have not been reported. -/
  requested : Nat
  /-- What the event that was reported last is to be continued with. -/
  due : ContinueStatus

/-- The breakpoints of the loader and of a request are the debugger's; every
    other exception goes to the target. -/
def dueStatus (origin : Origin) : EventInfo → ContinueStatus
  | .exception code =>
      if code = exceptionBreakpoint ∧ origin ≠ .target then .dbgContinue
      else .dbgExceptionNotHandled
  | _ => .dbgContinue

/-- The port reports an event; a breakpoint is the loader's, that of a request
    or the target's. -/
def BreakPort.report (q : BreakPort) (u : EventInfo) (origin : Origin) : BreakPort where
  loaderPending := q.loaderPending &&
    !decide (u = .exception exceptionBreakpoint ∧ origin = .loader)
  requested :=
    if u = .exception exceptionBreakpoint ∧ origin = .request then q.requested - 1
    else q.requested
  due := dueStatus origin u

/-- No break is asked for while one is on the way, and every event is continued
    with what is due. -/
def breakPort : Acceptor BreakPort Call where
  accept q
  | .debugBreakProcess ok =>
      if q.requested = 0 then some { q with requested := if ok then 1 else 0 } else none
  | .waitForDebugEvent (.event e origin) => some (q.report e.u origin)
  | .continueDebugEvent _ _ status _ => if status = q.due then some q else none
  | _ => some q

/-- The port when the target has just been started or attached to. -/
def unaskedPort : BreakPort := ⟨true, 0, .dbgContinue⟩

/-- Whose the next breakpoint is, if the target has none of its own while the
    debugger waits for one. -/
def BreakPort.next (q : BreakPort) : Origin :=
  if q.requested ≠ 0 then .request else if q.loaderPending then .loader else .target

/-- A breakpoint that is reported while a break request is on the way is that of
    the request, and else the first one is the loader's. -/
def InTurn (q : BreakPort) : Call → Prop
  | .waitForDebugEvent (.event e origin) =>
      e.u = .exception exceptionBreakpoint → origin = q.next
  | _ => True

/-! ## What the handlers leave of the flags -/

/-- The flags of the loop in a session. -/
structure SameFlags (s s' : Session) : Prop where
  stop : s'.stopBreakRequested = s.stopBreakRequested
  initial : s'.initialBreakpointSeen = s.initialBreakpointSeen
  finished : s'.finished = s.finished

theorem SameFlags.trans {s s' s'' : Session} (h : SameFlags s s') (h' : SameFlags s' s'') :
    SameFlags s s'' :=
  ⟨h'.stop.trans h.stop, h'.initial.trans h.initial, h'.finished.trans h.finished⟩

variable {options : List HookDefinition} {env : Environment} {d : DebugState}

theorem registerModule_flags {base : Nat} {path : List UInt16}
    (h : (registerModule env options base path d).1 = true) :
    SameFlags d.session (registerModule env options base path d).2.session := by
  rcases registerModule_true (Q := fun _ _ => True) (fun _ _ => trivial) h with
    ⟨-, hsame⟩ | ⟨-, hconfigured, hrest⟩
  · rw [hsame]
    exact ⟨rfl, rfl, rfl⟩
  · have honce : SameFlags d.session (configureOnce env base (registeredName env base path)
        (recordModule base path (registeredName env base path) d)).2.session := by
      rcases configureOnce_true hconfigured with hsame | ⟨-, -, d', hd', hsame⟩
      · rw [hsame]
        exact ⟨rfl, rfl, rfl⟩
      · obtain ⟨setEvent, readMemory, hsession⟩ := hd'.session
        rw [hsame]
        show SameFlags d.session { d'.session with transportConfigured := true }
        rw [hsession]
        exact ⟨rfl, rfl, rfl⟩
    rcases hrest with ⟨-, hsame⟩ | ⟨-, -, -, hrun⟩
    · rw [hsame]
      exact honce
    · obtain ⟨hooks, hsession⟩ := hrun.session
      refine honce.trans ?_
      rw [hsession]
      exact ⟨rfl, rfl, rfl⟩

theorem handleCreateProcess_flags {base : Nat} {path : List UInt16}
    (h : (handleCreateProcess env options base path d).1 = true) :
    SameFlags d.session (handleCreateProcess env options base path d).2.session := by
  obtain ⟨d₁, hd₁, hregister, hsame⟩ := handleCreateProcess_true h
  rw [hsame]
  refine SameFlags.trans ?_ (registerModule_flags hregister)
  rcases hd₁ with rfl | ⟨-, hinitialized⟩
  · exact ⟨rfl, rfl, rfl⟩
  · obtain ⟨base, size, ring, wake, hsession⟩ := hinitialized.session
    rw [hsession]
    exact ⟨rfl, rfl, rfl⟩

/-- The flags behind an event that goes on: only the first breakpoint before a
    stop is noted. -/
structure FlagsAfter (s : Session) (u : EventInfo) (s' : Session) : Prop where
  stop : s'.stopBreakRequested = s.stopBreakRequested
  initial : s'.initialBreakpointSeen = (s.initialBreakpointSeen ||
    (decide (u = .exception exceptionBreakpoint) && !s.stopBreakRequested))
  finished : s'.finished = s.finished

theorem SameFlags.after {s s' : Session} {u : EventInfo} (h : SameFlags s s')
    (hu : u ≠ .exception exceptionBreakpoint) : FlagsAfter s u s' where
  stop := h.stop
  initial := by rw [h.initial, decide_eq_false hu, Bool.false_and, Bool.or_false]
  finished := h.finished

/-- **FLAGS** behind an event that does not end the session. -/
theorem handleEvent_flags {u : EventInfo} (hexit : ∀ code, u ≠ .exitProcess code)
    (hgoes : ends (dispatchEvent env options d u.debugEvent) = false) :
    FlagsAfter d.session u (handleEvent env options d u.debugEvent).session := by
  have hok : (dispatchEvent env options d u.debugEvent).eventOk = true ∧
      (dispatchEvent env options d u.debugEvent).cleanStop = false := by
    rw [ends] at hgoes
    simpa using hgoes
  rw [handleEvent]
  dsimp only
  rw [if_neg (by rw [hok.1, hok.2]; simp)]
  cases u with
  | createProcess base path hFile hThread hProcess =>
      exact (handleCreateProcess_flags hok.1).after (by simp)
  | createThread hThread => exact SameFlags.after ⟨rfl, rfl, rfl⟩ (by simp)
  | loadDll base path hFile => exact (registerModule_flags hok.1).after (by simp)
  | unloadDll base => exact SameFlags.after ⟨rfl, rfl, rfl⟩ (by simp)
  | exception code =>
      rw [EventInfo.debugEvent]
      by_cases hcode : code = exceptionBreakpoint
      · rw [if_pos hcode, dispatchEvent, hcode]
        cases hstop : d.session.stopBreakRequested with
        | true =>
            rw [if_pos rfl]
            exact ⟨rfl, by simp [hstop], rfl⟩
        | false =>
            rw [if_neg (by simp)]
            exact ⟨rfl, by simp [hstop], rfl⟩
      · rw [if_neg hcode]
        exact SameFlags.after ⟨rfl, rfl, rfl⟩ (by simpa using hcode)
  | exitProcess code => exact absurd rfl (hexit code)
  | other => exact SameFlags.after ⟨rfl, rfl, rfl⟩ (by simp)

/-! ## The loop and the port -/

/-- The loop goes on. -/
structure Looping (s : Loop) (q : DebugPort) : Prop where
  finished : s.finished = false
  broken : s.broken = false
  session : s.d.session.finished = false
  result : s.result = 1
  naturalExit : s.naturalExit = false
  phase : q.phase = .running
  cleaned : q.cleaned = false

/-- A call of the debug port has failed. -/
structure Broken (s : Loop) (q : DebugPort) : Prop where
  finished : s.finished = false
  broken : s.broken = true
  result : s.result = 1
  naturalExit : s.naturalExit = false
  phase : q.phase = .running ∨ ∃ e, q.phase = .held e []

/-- The session has ended in the loop. -/
structure Detached (s : Loop) (q : DebugPort) : Prop where
  finished : s.finished = true
  debugActive : s.debugActive = false
  naturalExit : s.naturalExit = false
  phase : q.phase = .detached false
  result : s.result = 1 ∨ s.result = 0

/-- The target has exited. -/
structure Exited (s : Loop) (q : DebugPort) : Prop where
  finished : s.finished = true
  naturalExit : s.naturalExit = true
  result : s.result = if s.targetExitCode = 0 then 0 else 1
  phase : q.phase = .exited s.targetExitCode ∨ s.broken = true ∧ ∃ processId threadId,
    q.phase = .held ⟨processId, threadId, .exitProcess s.targetExitCode⟩ []

inductive Follows (s : Loop) (q : DebugPort) : Prop where
  | looping (h : Looping s q)
  | broken (h : Broken s q)
  | detached (h : Detached s q)
  | exited (h : Exited s q)

variable {s : Loop} {q : DebugPort} {t : Turn} {e : DebugEventRecord}

theorem accept_running (h : q.phase = .running) (c : Call) :
    debugPort.accept q c = q.whileRunning c := by
  simp only [debugPort, h]

theorem accept_held {handles : List Nat} (h : q.phase = .held e handles) (c : Call) :
    debugPort.accept q c = q.whileHeld e handles c := by
  simp only [debugPort, h]

/-- The request for a break. -/
theorem requestBreak_follows (h : Looping s q) (t : Turn) :
    debugPort.run q (requestBreak t s).2 = some q ∧
      (Looping (requestBreak t s).1 q ∨ Broken (requestBreak t s).1 q) := by
  have hbreak : ∀ ok, debugPort.run q [.debugBreakProcess ok] = some q := by
    intro ok
    rw [run_single, accept_running h.phase]
    rfl
  rw [requestBreak]
  split
  next hask =>
    split
    next => exact ⟨hbreak true, Or.inl { h with }⟩
    next =>
      exact ⟨hbreak false,
        Or.inr ⟨h.finished, rfl, h.result, h.naturalExit, Or.inl h.phase⟩⟩
  next => exact ⟨rfl, Or.inl h⟩

/-- The handles are closed one by one. -/
theorem run_closeHandles (handles : List Nat) {q : DebugPort}
    (h : q.phase = .held e handles) :
    debugPort.run q (handles.map .closeHandle) = some { q with phase := .held e [] } := by
  induction handles generalizing q with
  | nil =>
      rw [← h]
      rfl
  | cons handle rest ih =>
      have hone : debugPort.accept q (.closeHandle handle)
          = some { q with phase := .held e rest } := by
        rw [accept_held h, DebugPort.whileHeld, if_pos List.mem_cons_self, List.erase_cons_head]
      rw [List.map_cons, run_cons hone, ih rfl]

theorem closeDebugEventHandles_handles (u : EventInfo) :
    closeDebugEventHandles u = u.handles := by
  have hone : ∀ handle, closeUnlessNull handle = [handle].filter (· ≠ 0) := by
    intro handle
    rw [closeUnlessNull]
    by_cases hnull : handle = 0
    · simp [hnull]
    · simp [hnull]
  cases u with
  | createProcess base path hFile hThread hProcess =>
      rw [closeDebugEventHandles, hone, hone, hone, ← List.filter_append, ← List.filter_append]
      rfl
  | createThread hThread => exact hone hThread
  | loadDll base path hFile => exact hone hFile
  | _ => rfl

/-- Whether the event makes the loop clean up. -/
def cleansUp (options : List HookDefinition) (env : Environment) (u : EventInfo) (s : Loop) :
    Bool := ends (dispatchEvent env options s.d u.debugEvent)

/-- Up to `ContinueDebugEvent`, the event is held, and its handles are closed. -/
theorem run_switchCalls (h : q.phase = .held e e.u.handles) (hclean : q.cleaned = false) :
    debugPort.run q (switchCalls options env e.u s)
      = some ⟨.held e [], cleansUp options env e.u s⟩ := by
  have hhandle : debugPort.accept q (.handle e.u) = some q := by
    rw [accept_held h, DebugPort.whileHeld, if_pos ⟨rfl, hclean⟩]
  have hdrain : debugPort.run q (drains e.u) = some q := by
    cases hu : e.u with
    | exitProcess code =>
        rw [drains, run_single, accept_held h, DebugPort.whileHeld, hu]
    | _ => rfl
  have hcleanup : debugPort.run q
      (if ends (dispatchEvent env options s.d e.u.debugEvent) then [.cleanupRemote] else [])
        = some { q with cleaned := cleansUp options env e.u s } := by
    rw [cleansUp]
    cases ends (dispatchEvent env options s.d e.u.debugEvent) with
    | true =>
        rw [if_pos rfl, run_single, accept_held h, DebugPort.whileHeld, hclean]
        rfl
    | false =>
        show some q = some { q with cleaned := false }
        rw [← hclean]
  rw [switchCalls, run_cons hhandle, run_append hdrain, run_append hcleanup,
    closeDebugEventHandles_handles]
  exact run_closeHandles _ h

theorem statusFits_continueStatus (s : Session) (u : EventInfo) :
    statusFits (continueStatus s u) u = true := by
  cases u with
  | exception code =>
      rw [statusFits, continueStatus]
      by_cases hcode : code = exceptionBreakpoint
      · rw [decide_eq_true hcode]
        rfl
      · rw [if_neg fun hboth => hcode hboth.1]
        exact Bool.or_true _
  | _ => rfl

/-- The event is continued, or the call fails. -/
theorem accept_continue (s : Session) (e : DebugEventRecord) (cleaned ok : Bool) :
    debugPort.accept ⟨.held e [], cleaned⟩
        (.continueDebugEvent e.dwProcessId e.dwThreadId (continueStatus s e.u) ok)
      = some (if ok then ⟨continuedPhase e.u, cleaned⟩ else ⟨.held e [], cleaned⟩) := by
  rw [accept_held rfl, DebugPort.whileHeld,
    if_pos ⟨rfl, rfl, rfl, statusFits_continueStatus s e.u⟩]

/-! ### Behind the switch -/

theorem cleanStop_breakpoint {u : EventInfo}
    (h : (dispatchEvent env options d u.debugEvent).cleanStop = true) :
    u = .exception exceptionBreakpoint := by
  cases u with
  | exception code =>
      rw [EventInfo.debugEvent] at h
      by_cases hcode : code = exceptionBreakpoint
      · rw [hcode]
      · rw [if_neg hcode] at h
        cases h
  | _ => cases h

theorem switchEvent_plain {u : EventInfo} (hexit : ∀ code, u ≠ .exitProcess code) :
    switchEvent options env u s = { s with
      d := handleEvent env options s.d u.debugEvent
      debugActive := s.debugActive || clearsKillOnExit env s.d.session u } := by
  cases u with
  | exitProcess code => exact absurd rfl (hexit code)
  | _ => rfl

theorem continuedPhase_plain {u : EventInfo} (hexit : ∀ code, u ≠ .exitProcess code) :
    continuedPhase u = .running := by
  cases u with
  | exitProcess code => exact absurd rfl (hexit code)
  | _ => rfl

theorem retries_other {u : EventInfo} (hu : u ≠ .exception exceptionBreakpoint) :
    retries env d u = false := by
  cases u with
  | exception code =>
      have hcode : ¬code = exceptionBreakpoint := fun heq => hu (heq ▸ rfl)
      simp [retries, hcode]
  | _ => rfl

theorem dispatch_stop (hu : e.u = .exception exceptionBreakpoint)
    (hstop : s.d.session.stopBreakRequested = true) :
    dispatchEvent t.env options s.d e.u.debugEvent
      = ⟨true, isCleanupQuiescent t.env s.d, s.d⟩ := by
  rw [hu]
  show (if s.d.session.stopBreakRequested then _ else _) = _
  rw [if_pos hstop]

theorem handleEvent_stop (hu : e.u = .exception exceptionBreakpoint)
    (hstop : s.d.session.stopBreakRequested = true)
    (hquiet : isCleanupQuiescent t.env s.d = false) :
    handleEvent t.env options s.d e.u.debugEvent = s.d := by
  rw [handleEvent, dispatch_stop hu hstop, hquiet]
  rfl

/-- No clean stop without a breakpoint of a stop. -/
theorem cleanStop_other (hother : e.u = .exception exceptionBreakpoint →
    s.d.session.stopBreakRequested = false) :
    (dispatchEvent t.env options s.d e.u.debugEvent).cleanStop = false := by
  by_contra hstop
  have hu := cleanStop_breakpoint (Bool.not_eq_false _ ▸ hstop)
  rw [hu] at hstop
  refine hstop ?_
  show Dispatched.cleanStop (if s.d.session.stopBreakRequested then _ else _) = false
  rw [hother hu]
  rfl

theorem retries_none (hother : e.u = .exception exceptionBreakpoint →
    s.d.session.stopBreakRequested = false) : retries t.env s.d e.u = false := by
  by_cases hu : e.u = .exception exceptionBreakpoint
  · rw [hu]
    simp [retries, hother hu]
  · exact retries_other hu

/-- A breakpoint while stopping: the target is at rest, or the loop asks for
    another break. -/
theorem after_stop (h : Looping s q) (hu : e.u = .exception exceptionBreakpoint)
    (hstop : s.d.session.stopBreakRequested = true) :
    ∃ q', debugPort.run ⟨continuedPhase e.u, cleansUp options t.env e.u s⟩
        (afterContinue options t e.u s (switchEvent options t.env e.u s)).2 = some q' ∧
      Follows (afterContinue options t e.u s (switchEvent options t.env e.u s)).1 q' := by
  have hexit : ∀ code, e.u ≠ .exitProcess code := by
    intro code heq
    rw [hu] at heq
    cases heq
  rw [afterContinue, cleansUp, dispatch_stop hu hstop, continuedPhase_plain hexit]
  dsimp only
  cases hquiet : isCleanupQuiescent t.env s.d with
  | true =>
      have hretries : retries t.env s.d e.u = false := by
        rw [hu]
        simp [retries, hquiet]
      rw [if_neg (by rw [hretries]; simp), if_pos (by rfl), switchEvent_plain hexit]
      exact ⟨⟨.detached false, true⟩, rfl, .detached ⟨rfl, rfl, h.naturalExit, rfl, Or.inr rfl⟩⟩
  | false =>
      have hretries : retries t.env s.d e.u = true := by
        rw [hu]
        simp [retries, hquiet, hstop]
      rw [if_pos hretries, switchEvent_plain hexit, handleEvent_stop hu hstop hquiet]
      refine ⟨⟨.running, false⟩, rfl, ?_⟩
      cases t.debugBreakRetry with
      | true =>
          exact .looping ⟨h.finished, rfl, h.session, h.result, h.naturalExit, rfl, rfl⟩
      | false =>
          exact .broken ⟨h.finished, rfl, h.result, h.naturalExit, Or.inl rfl⟩

/-- An event that is not a breakpoint of a stop, and not the exit. -/
theorem after_other (h : Looping s q) (hexit : ∀ code, e.u ≠ .exitProcess code)
    (hother : e.u = .exception exceptionBreakpoint → s.d.session.stopBreakRequested = false) :
    ∃ q', debugPort.run ⟨continuedPhase e.u, cleansUp options t.env e.u s⟩
        (afterContinue options t e.u s (switchEvent options t.env e.u s)).2 = some q' ∧
      Follows (afterContinue options t e.u s (switchEvent options t.env e.u s)).1 q' := by
  rw [afterContinue, cleansUp, if_neg (by rw [retries_none hother]; simp),
    switchEvent_plain hexit, continuedPhase_plain hexit]
  cases hends : ends (dispatchEvent t.env options s.d e.u.debugEvent) with
  | true =>
      rw [if_pos rfl, cleanStop_other hother]
      exact ⟨⟨.detached false, true⟩, rfl, .detached ⟨rfl, rfl, h.naturalExit, rfl, Or.inl rfl⟩⟩
  | false =>
      rw [if_neg (by simp)]
      have hflags := handleEvent_flags hexit hends
      exact ⟨⟨.running, false⟩, rfl, .looping ⟨h.finished, h.broken,
        hflags.finished.trans h.session, h.result, h.naturalExit, rfl, rfl⟩⟩

/-- The exit of the target. -/
theorem after_exit {code : Nat} (hu : e.u = .exitProcess code) :
    ∃ q', debugPort.run ⟨continuedPhase e.u, cleansUp options t.env e.u s⟩
        (afterContinue options t e.u s (switchEvent options t.env e.u s)).2 = some q' ∧
      Follows (afterContinue options t e.u s (switchEvent options t.env e.u s)).1 q' := by
  rw [hu]
  exact ⟨⟨.exited code, false⟩, rfl, .exited ⟨rfl, rfl, rfl, Or.inl rfl⟩⟩

/-- **AN EVENT** is handled and continued. -/
theorem handleRecord_follows (h : Looping s q) (e : DebugEventRecord) :
    ∃ q', debugPort.run (q.report e) (handleRecord options t e s).2 = some q' ∧
      Follows (handleRecord options t e s).1 q' := by
  have hswitch : debugPort.run (q.report e) (switchCalls options t.env e.u s)
      = some ⟨.held e [], cleansUp options t.env e.u s⟩ := run_switchCalls rfl h.cleaned
  have haccept := accept_continue s.d.session e (cleansUp options t.env e.u s)
    t.continueDebugEvent
  rw [handleRecord]
  dsimp only
  cases hok : t.continueDebugEvent with
  | true =>
      rw [hok] at haccept
      rw [if_pos rfl, run_append hswitch, run_cons haccept]
      by_cases hexit : ∃ code, e.u = .exitProcess code
      · obtain ⟨code, hu⟩ := hexit
        exact after_exit hu
      · have hno : ∀ code, e.u ≠ .exitProcess code := fun code hu => hexit ⟨code, hu⟩
        by_cases hstop : e.u = .exception exceptionBreakpoint ∧
            s.d.session.stopBreakRequested = true
        · exact after_stop h hstop.1 hstop.2
        · refine after_other h hno fun hu => ?_
          by_contra htrue
          exact hstop ⟨hu, Bool.not_eq_false _ ▸ htrue⟩
  | false =>
      rw [hok] at haccept
      rw [if_neg (by simp), run_append hswitch, run_single, haccept]
      refine ⟨_, rfl, ?_⟩
      by_cases hexit : ∃ code, e.u = .exitProcess code
      · obtain ⟨code, hu⟩ := hexit
        refine .exited ?_
        rw [hu]
        refine ⟨rfl, rfl, rfl, Or.inr ⟨rfl, e.dwProcessId, e.dwThreadId, ?_⟩⟩
        show Phase.held e [] = _
        obtain ⟨processId, threadId, u⟩ := e
        cases hu
        rfl
      · have hno : ∀ code, e.u ≠ .exitProcess code := fun code hu => hexit ⟨code, hu⟩
        refine .broken ?_
        rw [switchEvent_plain hno]
        exact ⟨h.finished, rfl, h.result, h.naturalExit, Or.inr ⟨e, rfl⟩⟩

/-- **ONE PASS** of the loop. -/
theorem pass_follows (h : Looping s q) (t : Turn) :
    ∃ q', debugPort.run q (pass options t s).2 = some q' ∧ Follows (pass options t s).1 q' := by
  obtain ⟨hrun, hrequest⟩ := requestBreak_follows h t
  rw [pass]
  dsimp only
  rcases hrequest with hlooping | hbroken
  · rw [if_neg (by rw [hlooping.broken]; simp)]
    cases t.waitForDebugEvent with
    | timeout =>
        refine ⟨q, ?_, .looping hlooping⟩
        rw [run_append hrun, run_single, accept_running hlooping.phase]
        rfl
    | failed =>
        refine ⟨q, ?_, .broken ?_⟩
        · rw [run_append hrun, run_single, accept_running hlooping.phase]
          rfl
        · exact ⟨hlooping.finished, rfl, hlooping.result, hlooping.naturalExit,
            Or.inl hlooping.phase⟩
    | event e origin =>
        have hreport : debugPort.accept q (.waitForDebugEvent (.event e origin))
            = some (q.report e) := by
          rw [accept_running hlooping.phase, DebugPort.whileRunning, hlooping.cleaned]
          rfl
        obtain ⟨q₂, hhandled, hfollows⟩ := handleRecord_follows hlooping e
        exact ⟨q₂, by rw [run_append hrun, run_cons hreport, hhandled], hfollows⟩
  · rw [if_pos hbroken.broken]
    exact ⟨q, hrun, .broken hbroken⟩

/-! ## The loop and the breaks -/

/-- While the loop is stopping, one break request is on the way; behind a clean
    stop none is. -/
structure Asked (s : Loop) (q : BreakPort) : Prop where
  requested : GoesOn s → q.requested = if s.d.session.stopBreakRequested then 1 else 0
  loader : GoesOn s → s.d.session.stopBreakRequested = false →
    q.loaderPending = !s.d.session.initialBreakpointSeen
  clean : s.finished = true → s.naturalExit = false → s.result = 0 → q.requested = 0

variable {b : BreakPort}

/-- A call that has nothing to do with the breaks. -/
def Call.plain : Call → Bool
  | .debugBreakProcess _ => false
  | .waitForDebugEvent (.event _ _) => false
  | .continueDebugEvent _ _ _ _ => false
  | _ => true

theorem run_plain {calls : List Call} (h : ∀ c ∈ calls, c.plain = true) :
    breakPort.run b calls = some b := by
  induction calls with
  | nil => rfl
  | cons c calls ih =>
      have hone : breakPort.accept b c = some b := by
        have hc := h c List.mem_cons_self
        cases c with
        | debugBreakProcess ok => cases hc
        | continueDebugEvent processId threadId status ok => cases hc
        | waitForDebugEvent w =>
            cases w with
            | event e origin => cases hc
            | _ => rfl
        | _ => rfl
      rw [run_cons hone]
      exact ih fun c hc => h c (List.mem_cons_of_mem _ hc)

theorem plain_switchCalls (u : EventInfo) (s : Loop) :
    ∀ c ∈ switchCalls options env u s, c.plain = true := by
  intro c hc
  rw [switchCalls] at hc
  rcases List.mem_cons.mp hc with rfl | hc
  · rfl
  rcases List.mem_append.mp hc with hc | hc
  · cases u with
    | exitProcess code =>
        rw [List.mem_singleton.mp hc]
        rfl
    | _ => cases hc
  rcases List.mem_append.mp hc with hc | hc
  · split at hc
    next =>
      rw [List.mem_singleton.mp hc]
      rfl
    next => cases hc
  · obtain ⟨handle, -, rfl⟩ := List.mem_map.mp hc
    rfl

/-- Behind a report the loop continues with what is due. -/
theorem due_continueStatus (h : Asked s b) (hgoes : GoesOn s) {u : EventInfo} {origin : Origin}
    (horigin : u = .exception exceptionBreakpoint → origin = b.next) :
    (b.report u origin).due = continueStatus s.d.session u := by
  cases u with
  | exception code =>
      show dueStatus origin (.exception code) = _
      rw [dueStatus, continueStatus]
      by_cases hcode : code = exceptionBreakpoint
      · rw [horigin (hcode ▸ rfl), BreakPort.next, h.requested hgoes]
        cases hstop : s.d.session.stopBreakRequested with
        | true => simp [hcode]
        | false =>
            rw [h.loader hgoes hstop]
            cases s.d.session.initialBreakpointSeen with
            | true => simp
            | false => simp [hcode]
      · rw [if_neg fun hboth => hcode hboth.1, if_neg fun hboth => hcode hboth.1]
  | _ => rfl

/-- The breaks behind an event, in the state of the session behind it. -/
theorem report_other (h : Asked s b) (hgoes : GoesOn s) {origin : Origin}
    (horigin : e.u = .exception exceptionBreakpoint → origin = b.next)
    (hother : e.u = .exception exceptionBreakpoint → s.d.session.stopBreakRequested = false)
    {d' : DebugState} (hflags : FlagsAfter s.d.session e.u d'.session) :
    (b.report e.u origin).requested = (if d'.session.stopBreakRequested then 1 else 0) ∧
      (d'.session.stopBreakRequested = false →
        (b.report e.u origin).loaderPending = !d'.session.initialBreakpointSeen) := by
  have hrequested := h.requested hgoes
  rw [hflags.stop, hflags.initial]
  by_cases hu : e.u = .exception exceptionBreakpoint
  · have hstop := hother hu
    have hloader := h.loader hgoes hstop
    rw [hstop] at hrequested ⊢
    have hnext : origin = if b.loaderPending then .loader else .target := by
      rw [horigin hu, BreakPort.next, if_neg (by simp [hrequested])]
    rw [hloader] at hnext
    rw [BreakPort.report, hnext, hloader, hrequested]
    cases s.d.session.initialBreakpointSeen with
    | true => simp
    | false => simp [hu]
  · have hsame : (b.report e.u origin).requested = b.requested ∧
        (b.report e.u origin).loaderPending = b.loaderPending := by
      rw [BreakPort.report]
      exact ⟨if_neg fun hboth => hu hboth.1, by
        rw [decide_eq_false fun hboth => hu hboth.1, Bool.not_false, Bool.and_true]⟩
    rw [hsame.1, hsame.2, decide_eq_false hu, Bool.false_and, Bool.or_false]
    exact ⟨hrequested, h.loader hgoes⟩

/-- A loop that was left by a `break` asks for nothing any more. -/
theorem asked_of_broken (hfinished : s.finished = false) (hbroken : s.broken = true) :
    Asked s b where
  requested hon := absurd (hbroken.symm.trans hon.2) (by simp)
  loader hon := absurd (hbroken.symm.trans hon.2) (by simp)
  clean hyes := absurd (hfinished.symm.trans hyes) (by simp)

/-- Nor does one that has ended; behind a clean stop no break is on the way. -/
theorem asked_of_finished (hfinished : s.finished = true)
    (hclean : s.naturalExit = false → s.result = 0 → b.requested = 0) : Asked s b where
  requested hon := absurd (hfinished.symm.trans hon.1) (by simp)
  loader hon := absurd (hfinished.symm.trans hon.1) (by simp)
  clean _ := hclean

/-- A loop that goes on. -/
theorem asked_of_going (hfinished : s.finished = false)
    (hrequested : b.requested = if s.d.session.stopBreakRequested then 1 else 0)
    (hloader : s.d.session.stopBreakRequested = false →
      b.loaderPending = !s.d.session.initialBreakpointSeen) : Asked s b where
  requested _ := hrequested
  loader _ := hloader
  clean hyes := absurd (hfinished.symm.trans hyes) (by simp)

/-- The break that was asked for: the target is at rest, or the loop asks for
    another one. -/
theorem after_stop_asked (hlooping : Looping s q)
    (hu : e.u = .exception exceptionBreakpoint)
    (hstop : s.d.session.stopBreakRequested = true) (hnone : b.requested = 0) :
    ∃ b', breakPort.run b
        (afterContinue options t e.u s (switchEvent options t.env e.u s)).2 = some b' ∧
      Asked (afterContinue options t e.u s (switchEvent options t.env e.u s)).1 b' := by
  have hexit : ∀ code, e.u ≠ .exitProcess code := by
    intro code heq
    rw [hu] at heq
    cases heq
  rw [afterContinue, dispatch_stop hu hstop, switchEvent_plain hexit]
  cases hquiet : isCleanupQuiescent t.env s.d with
  | true =>
      have hretries : retries t.env s.d e.u = false := by
        rw [hu]
        simp [retries, hquiet]
      rw [if_neg (by rw [hretries]; simp), if_pos (by rfl)]
      exact ⟨b, rfl, asked_of_finished rfl fun _ _ => hnone⟩
  | false =>
      have hretries : retries t.env s.d e.u = true := by
        rw [hu]
        simp [retries, hquiet, hstop]
      have hbreak : breakPort.accept b (.debugBreakProcess t.debugBreakRetry)
          = some { b with requested := if t.debugBreakRetry then 1 else 0 } := if_pos hnone
      have hsleep : breakPort.accept b .sleep = some b := rfl
      rw [if_pos hretries, handleEvent_stop hu hstop hquiet, run_cons hsleep, run_single,
        hbreak]
      refine ⟨_, rfl, ?_⟩
      cases t.debugBreakRetry with
      | true =>
          refine asked_of_going hlooping.finished ?_ fun hfalse => ?_
          · show 1 = if s.d.session.stopBreakRequested then 1 else 0
            rw [hstop]
            rfl
          · rw [hstop] at hfalse
            cases hfalse
      | false => exact asked_of_broken hlooping.finished rfl

/-- **AN EVENT** and the breaks. -/
theorem handleRecord_asked (hlooping : Looping s q) (h : Asked s b) {origin : Origin}
    (horigin : e.u = .exception exceptionBreakpoint → origin = b.next) :
    ∃ b', breakPort.run (b.report e.u origin) (handleRecord options t e s).2 = some b' ∧
      Asked (handleRecord options t e s).1 b' := by
  have hgoes : GoesOn s := ⟨hlooping.finished, hlooping.broken⟩
  have hswitch : breakPort.run (b.report e.u origin) (switchCalls options t.env e.u s)
      = some (b.report e.u origin) := run_plain (plain_switchCalls e.u s)
  have haccept : ∀ ok, breakPort.accept (b.report e.u origin)
      (.continueDebugEvent e.dwProcessId e.dwThreadId (continueStatus s.d.session e.u) ok)
        = some (b.report e.u origin) :=
    fun ok => if_pos (due_continueStatus h hgoes horigin).symm
  rw [handleRecord]
  dsimp only
  by_cases hexit : ∃ code, e.u = .exitProcess code
  · -- behind the exit no break is asked for
    obtain ⟨code, hu⟩ := hexit
    have hended : ∀ {s' : Loop} {b' : BreakPort}, s'.finished = true →
        s'.naturalExit = true → Asked s' b' := fun hfinished hnatural =>
      asked_of_finished hfinished fun hno => absurd (hnatural.symm.trans hno) (by simp)
    split
    next =>
      rw [run_append hswitch, run_cons (haccept _), hu]
      exact ⟨_, rfl, hended rfl rfl⟩
    next =>
      rw [run_append hswitch, run_single, haccept, hu]
      exact ⟨_, rfl, hended rfl rfl⟩
  have hno : ∀ code, e.u ≠ .exitProcess code := fun code hu => hexit ⟨code, hu⟩
  split
  next =>
    rw [run_append hswitch, run_cons (haccept _)]
    by_cases hstop : e.u = .exception exceptionBreakpoint ∧
        s.d.session.stopBreakRequested = true
    · refine after_stop_asked hlooping hstop.1 hstop.2 ?_
      have hone := h.requested hgoes
      rw [hstop.2] at hone
      have hnext : origin = .request := by
        rw [horigin hstop.1, BreakPort.next, if_pos (by simp [hone])]
      rw [BreakPort.report, hnext, hone]
      simp [hstop.1]
    · have hother : e.u = .exception exceptionBreakpoint →
          s.d.session.stopBreakRequested = false := by
        intro hu
        by_contra htrue
        exact hstop ⟨hu, Bool.not_eq_false _ ▸ htrue⟩
      rw [afterContinue, if_neg (by rw [retries_none hother]; simp), switchEvent_plain hno]
      cases hends : ends (dispatchEvent t.env options s.d e.u.debugEvent) with
      | true =>
          rw [if_pos rfl, cleanStop_other hother]
          exact ⟨_, rfl, asked_of_finished rfl fun _ hzero => nomatch hzero⟩
      | false =>
          rw [if_neg (by simp)]
          obtain ⟨hrequested, hloader⟩ :=
            report_other h hgoes horigin hother (handleEvent_flags hno hends)
          exact ⟨_, rfl, asked_of_going hlooping.finished hrequested hloader⟩
  next =>
    rw [run_append hswitch, run_single, haccept, switchEvent_plain hno]
    exact ⟨_, rfl, asked_of_broken hlooping.finished rfl⟩

/-- The request for a break. -/
theorem requestBreak_asked (hlooping : Looping s q) (h : Asked s b) (t : Turn) :
    ∃ b', breakPort.run b (requestBreak t s).2 = some b' ∧ Asked (requestBreak t s).1 b' := by
  have hgoes : GoesOn s := ⟨hlooping.finished, hlooping.broken⟩
  rw [requestBreak]
  split
  next hask =>
    have hnone : b.requested = 0 := by
      rw [h.requested hgoes, hask.2]
      rfl
    have hbreak : ∀ ok, breakPort.run b [.debugBreakProcess ok]
        = some { b with requested := if ok then 1 else 0 } := by
      intro ok
      rw [run_single]
      exact if_pos hnone
    split
    next =>
      exact ⟨_, hbreak true,
        asked_of_going hlooping.finished rfl fun hfalse => nomatch hfalse⟩
    next => exact ⟨_, hbreak false, asked_of_broken hlooping.finished rfl⟩
  next => exact ⟨b, rfl, h⟩

/-- **ONE PASS** and the breaks. -/
theorem pass_asked (hlooping : Looping s q) (h : Asked s b)
    (hturn : breakPort.Assumed InTurn b (pass options t s).2) :
    ∃ b', breakPort.run b (pass options t s).2 = some b' ∧ Asked (pass options t s).1 b' := by
  obtain ⟨b₁, hrun, hasked⟩ := requestBreak_asked hlooping h t
  obtain ⟨-, hrequest⟩ := requestBreak_follows hlooping t
  rw [pass] at hturn ⊢
  dsimp only at hturn ⊢
  rcases hrequest with hon | hbroken
  · rw [if_neg (by rw [hon.broken]; simp)] at hturn ⊢
    cases hwait : t.waitForDebugEvent with
    | timeout =>
        refine ⟨b₁, ?_, hasked⟩
        rw [run_append hrun, run_single]
        rfl
    | failed =>
        refine ⟨b₁, ?_, asked_of_broken hon.finished rfl⟩
        rw [run_append hrun, run_single]
        rfl
    | event e origin =>
        rw [hwait] at hturn
        have horigin := ((assumed_append hturn).2 b₁ hrun).1
        have hreport : breakPort.accept b₁ (.waitForDebugEvent (.event e origin))
            = some (b₁.report e.u origin) := rfl
        obtain ⟨b₂, hhandled, hasked₂⟩ := handleRecord_asked hon hasked horigin
        exact ⟨b₂, by rw [run_append hrun, run_cons hreport, hhandled], hasked₂⟩
  · rw [if_pos hbroken.broken]
    exact ⟨b₁, hrun, hasked⟩

/-! ## The whole run -/

theorem attached_follows (h : Entered original s) : Looping s attachedPort := by
  obtain ⟨processId, hsession⟩ := h.session
  refine ⟨h.finished, h.broken, ?_, h.result, h.naturalExit, rfl, rfl⟩
  rw [hsession]
  rfl

theorem unasked_asked (h : Entered original s) : Asked s unaskedPort := by
  obtain ⟨processId, hsession⟩ := h.session
  refine ⟨fun _ => ?_, fun _ _ => ?_, fun hyes => ?_⟩
  · rw [hsession]
    rfl
  · rw [hsession]
    rfl
  · rw [h.finished] at hyes
    cases hyes

theorem loopStep_follows {s' : Loop} {a : LoopAction} (h : Follows s q)
    (hs : loopStep options s a = some s') :
    ∃ q', debugPort.run q (loopCalls options s a) = some q' ∧ Follows s' q' := by
  cases a with
  | pass t =>
      rw [loopStep] at hs
      split at hs
      next => cases hs
      next hgoes =>
        cases hs
        rcases h with hl | hb | hd | he
        · exact pass_follows hl t
        · exact absurd (Or.inr hb.broken) hgoes
        · exact absurd (Or.inl hd.finished) hgoes
        · exact absurd (Or.inl he.finished) hgoes
  | targetRuns memory activeHookCalls =>
      cases hs
      refine ⟨q, rfl, ?_⟩
      rcases h with hl | hb | hd | he
      · exact .looping { hl with }
      · exact .broken { hb with }
      · exact .detached { hd with }
      · exact .exited { he with }

theorem loopStep_asked {s' : Loop} {a : LoopAction} (hfollows : Follows s q) (h : Asked s b)
    (hturn : breakPort.Assumed InTurn b (loopCalls options s a))
    (hs : loopStep options s a = some s') :
    ∃ b', breakPort.run b (loopCalls options s a) = some b' ∧ Asked s' b' := by
  cases a with
  | pass t =>
      obtain ⟨hgoes, hs'⟩ := Option.ite_none_left_eq_some.mp hs
      cases hs'
      rcases hfollows with hl | hb | hd | he
      · exact pass_asked hl h hturn
      · exact absurd (Or.inr hb.broken) hgoes
      · exact absurd (Or.inl hd.finished) hgoes
      · exact absurd (Or.inl he.finished) hgoes
  | targetRuns memory activeHookCalls =>
      cases hs
      exact ⟨b, rfl, { h with }⟩

/-- The events that a call reports. -/
def Call.reports : Call → Nat
  | .waitForDebugEvent (.event _ _) => 1
  | _ => 0

/-- The events that a call continues. -/
def Call.continues : Call → Nat
  | .continueDebugEvent _ _ _ true => 1
  | _ => 0

/-- The events that were reported and not continued. -/
def Phase.level : Phase → Nat
  | .held _ _ => 1
  | .detached true => 1
  | _ => 0

theorem level_continuedPhase (u : EventInfo) : (continuedPhase u).level = 0 := by
  cases u with
  | _ => rfl

/-- A call that neither reports nor continues, and keeps the phase. -/
theorem balance_same {c : Call} {q' : DebugPort} (hphase : q'.phase = q.phase)
    (hr : c.reports = 0) (hc : c.continues = 0) :
    q.phase.level + c.reports = q'.phase.level + c.continues := by
  rw [hphase, hr, hc]

theorem whileRunning_balance {c : Call} {q' : DebugPort} (hphase : q.phase = .running)
    (h : q.whileRunning c = some q') :
    q.phase.level + c.reports = q'.phase.level + c.continues := by
  cases c with
  | debugBreakProcess ok =>
      cases h
      exact balance_same rfl rfl rfl
  | waitForDebugEvent w =>
      cases w with
      | event e origin =>
          obtain ⟨-, hq⟩ := Option.ite_none_left_eq_some.mp h
          cases hq
          rw [hphase]
          rfl
      | _ =>
          cases h
          exact balance_same rfl rfl rfl
  | debugActiveProcessStop =>
      cases h
      rw [hphase]
      rfl
  | sleep =>
      cases h
      exact balance_same rfl rfl rfl
  | setConsoleCtrlHandler add =>
      cases h
      exact balance_same rfl rfl rfl
  | stop =>
      cases h
      exact balance_same rfl rfl rfl
  | _ => cases h

theorem whileHeld_balance {c : Call} {q' : DebugPort} {handles : List Nat}
    (hphase : q.phase = .held e handles) (h : q.whileHeld e handles c = some q') :
    q.phase.level + c.reports = q'.phase.level + c.continues := by
  cases c with
  | handle u =>
      obtain ⟨-, hq⟩ := Option.ite_none_right_eq_some.mp h
      cases hq
      exact balance_same rfl rfl rfl
  | drain =>
      rw [DebugPort.whileHeld] at h
      split at h
      next =>
        cases h
        exact balance_same rfl rfl rfl
      next => cases h
  | cleanupRemote =>
      obtain ⟨-, hq⟩ := Option.ite_none_left_eq_some.mp h
      cases hq
      exact balance_same rfl rfl rfl
  | closeHandle handle =>
      obtain ⟨-, hq⟩ := Option.ite_none_right_eq_some.mp h
      cases hq
      rw [hphase]
      rfl
  | continueDebugEvent processId threadId status ok =>
      obtain ⟨-, hq⟩ := Option.ite_none_right_eq_some.mp h
      cases hq
      rw [hphase]
      cases ok with
      | true =>
          show 1 + 0 = (continuedPhase e.u).level + 1
          rw [level_continuedPhase]
      | false =>
          show 1 + 0 = q.phase.level + 0
          rw [hphase]
          rfl
  | debugActiveProcessStop =>
      obtain ⟨-, hq⟩ := Option.ite_none_right_eq_some.mp h
      cases hq
      rw [hphase]
      rfl
  | setConsoleCtrlHandler add =>
      cases h
      exact balance_same rfl rfl rfl
  | stop =>
      cases h
      exact balance_same rfl rfl rfl
  | _ => cases h

theorem whileGone_balance {c : Call} {q' : DebugPort} (h : q.whileGone c = some q') :
    q.phase.level + c.reports = q'.phase.level + c.continues := by
  cases c with
  | setConsoleCtrlHandler add =>
      cases h
      exact balance_same rfl rfl rfl
  | stop =>
      cases h
      exact balance_same rfl rfl rfl
  | _ => cases h

theorem accept_balance {c : Call} {q' : DebugPort} (h : debugPort.accept q c = some q') :
    q.phase.level + c.reports = q'.phase.level + c.continues := by
  cases hphase : q.phase with
  | running =>
      rw [accept_running hphase] at h
      exact hphase ▸ whileRunning_balance hphase h
  | held e handles =>
      rw [accept_held hphase] at h
      exact hphase ▸ whileHeld_balance hphase h
  | exited code =>
      have h' : q.whileGone c = some q' := by simpa only [debugPort, hphase] using h
      exact hphase ▸ whileGone_balance h'
  | detached held =>
      have h' : q.whileGone c = some q' := by simpa only [debugPort, hphase] using h
      exact hphase ▸ whileGone_balance h'

theorem handleRecord_session (s : Loop) : (handleRecord options t e s).1.d
    = handleEvent t.env options s.d e.u.debugEvent := by
  have hswitch : (switchEvent options t.env e.u s).d
      = handleEvent t.env options s.d e.u.debugEvent := by
    cases hu : e.u with
    | _ => rfl
  rw [handleRecord]
  dsimp only
  split
  next =>
    rw [afterContinue]
    split
    next => exact hswitch
    next =>
      split
      next => exact hswitch
      next => exact hswitch
  next => exact hswitch

/-- A pass is at most a request for a break and an event of the session. -/
theorem pass_session (h : Reachable (detachSystem options original) s.d)
    (hrunning : s.d.session.finished = false) (t : Turn) :
    Reachable (detachSystem options original) (pass options t s).1.d := by
  have hrequest : Reachable (detachSystem options original) (requestBreak t s).1.d ∧
      (requestBreak t s).1.d.session.finished = false := by
    rw [requestBreak]
    split
    next =>
      split
      next =>
        refine ⟨h.step (a := .requestStop) trivial ?_, hrunning⟩
        show (if s.d.session.finished then none else _) = _
        rw [hrunning]
        rfl
      next => exact ⟨h, hrunning⟩
    next => exact ⟨h, hrunning⟩
  rw [pass]
  dsimp only
  split
  next => exact hrequest.1
  next =>
    cases t.waitForDebugEvent with
    | timeout => exact hrequest.1
    | failed => exact hrequest.1
    | event e origin =>
        show Reachable _ (handleRecord options t e (requestBreak t s).1).1.d
        rw [handleRecord_session]
        refine hrequest.1.step (a := .event t.env e.u.debugEvent) trivial ?_
        show (if (requestBreak t s).1.d.session.finished then none else _) = _
        rw [hrequest.2]
        rfl

/-- The states of the session in the loop are those of `detachSystem`. -/
theorem session_of_loop (h : Reachable (eventLoop options original) s) :
    (∃ q, Follows s q) ∧ Reachable (detachSystem options original) s.d := by
  refine ReachableIf.invariant (M := eventLoop options original) (P := fun s =>
    (∃ q, Follows s q) ∧ Reachable (detachSystem options original) s.d) ?_ ?_ h
  · intro s h0
    exact ⟨⟨attachedPort, .looping (attached_follows h0)⟩, .init ⟨h0.session, h0.target⟩⟩
  · rintro s a s' ⟨⟨q, hq⟩, hr⟩ - hs
    obtain ⟨q', -, hq'⟩ := loopStep_follows hq hs
    refine ⟨⟨q', hq'⟩, ?_⟩
    cases a with
    | pass t =>
        obtain ⟨hgoes, hs'⟩ := Option.ite_none_left_eq_some.mp hs
        cases hs'
        rcases hq with hl | hb | hd | he
        · exact pass_session hr hl.session t
        · exact absurd (Or.inr hb.broken) hgoes
        · exact absurd (Or.inl hd.finished) hgoes
        · exact absurd (Or.inl he.finished) hgoes
    | targetRuns memory activeHookCalls =>
        cases hs
        exact hr.step (a := .targetRuns memory activeHookCalls) trivial rfl

/-- How the loop is left. -/
inductive Returned (s : Loop) (q : DebugPort) : Prop where
  /-- The target runs on without a debugger; a clean stop is not made at an event
      that is still held. -/
  | detached {held : Bool} (hphase : q.phase = .detached held)
      (hresult : s.result = 1 ∨ s.result = 0 ∧ held = false)
  | exited (hphase : q.phase = .exited s.targetExitCode ∨ ∃ processId threadId,
        q.phase = .held ⟨processId, threadId, .exitProcess s.targetExitCode⟩ [])
      (hresult : s.result = if s.targetExitCode = 0 then 0 else 1)
  /-- A call of the debug port has failed before `DebugSetProcessKillOnExit`: the
      debugger is still attached. -/
  | unconfigured (hactive : s.debugActive = false)
      (hphase : q.phase = .running ∨ ∃ e, q.phase = .held e [])
      (hresult : s.result = 1)

/-- In every phase the console handler may be removed and the trace session
    stopped. -/
theorem accept_local (q : DebugPort) :
    debugPort.accept q (.setConsoleCtrlHandler false) = some q ∧
      debugPort.accept q .stop = some q := by
  cases hphase : q.phase with
  | running => exact ⟨by rw [accept_running hphase]; rfl, by rw [accept_running hphase]; rfl⟩
  | held e handles =>
      exact ⟨by rw [accept_held hphase]; rfl, by rw [accept_held hphase]; rfl⟩
  | exited code =>
      simp only [debugPort, hphase]
      exact ⟨rfl, rfl⟩
  | detached held =>
      simp only [debugPort, hphase]
      exact ⟨rfl, rfl⟩

/-- The debugger detaches where the target is frozen at no event, or at one
    whose handles are closed. -/
theorem accept_detach (h : q.phase = .running ∨ ∃ e, q.phase = .held e []) :
    ∃ held, debugPort.accept q .debugActiveProcessStop
      = some { q with phase := .detached held } := by
  rcases h with hrunning | ⟨e, hheld⟩
  · exact ⟨false, by rw [accept_running hrunning]; rfl⟩
  · exact ⟨true, by rw [accept_held hheld, DebugPort.whileHeld, if_pos rfl]⟩

/-- **LEAVING** the loop. -/
theorem leave_returned (h : Follows s q) (hends : s.finished = true ∨ s.broken = true) :
    ∃ q', debugPort.run q (leave s) = some q' ∧ Returned s q' := by
  rw [leave, run_cons (accept_local q).1]
  rcases h with hl | hb | hd | he
  · rw [hl.finished, hl.broken] at hends
    rcases hends with hfalse | hfalse
    · cases hfalse
    · cases hfalse
  · rw [hb.finished, hb.naturalExit]
    cases hactive : s.debugActive with
    | true =>
        obtain ⟨held, hdetach⟩ := accept_detach hb.phase
        refine ⟨{ q with phase := .detached held }, ?_, .detached rfl (Or.inl hb.result)⟩
        show debugPort.run q [.debugActiveProcessStop, .stop] = _
        rw [run_cons hdetach, run_single]
        exact (accept_local _).2
    | false =>
        refine ⟨q, ?_, .unconfigured hactive hb.phase hb.result⟩
        show debugPort.run q [.stop] = _
        rw [run_single]
        exact (accept_local _).2
  · rw [hd.finished, hd.naturalExit, hd.debugActive]
    refine ⟨q, ?_, .detached hd.phase (hd.result.imp id fun hclean => ⟨hclean, rfl⟩)⟩
    show debugPort.run q [.stop] = _
    rw [run_single]
    exact (accept_local _).2
  · rw [he.finished, he.naturalExit]
    refine ⟨q, ?_, .exited (he.phase.imp id fun hheld => hheld.2) he.result⟩
    rw [if_neg (by simp)]
    rfl

/-- **THE LOOP KEEPS TO THE PROTOCOL** of the debug port; and where the target
    raises no breakpoint while the debugger waits for one of its own, it asks
    for one break at a time, and continues every event with what is due. -/
theorem event_loop_protocol {p : Loop × List Call}
    (h : Reachable ((eventLoop options original).traced (loopCalls options)) p) :
    (∃ q, debugPort.run attachedPort p.2 = some q ∧ Follows p.1 q ∧
      (p.2.map Call.reports).sum = q.phase.level + (p.2.map Call.continues).sum) ∧
    (p.1.finished = true ∨ p.1.broken = true → ∃ q,
      debugPort.run attachedPort (.setConsoleCtrlHandler true :: (p.2 ++ leave p.1)) = some q ∧
        Returned p.1 q) ∧
    (breakPort.Assumed InTurn unaskedPort p.2 → ∃ b,
      breakPort.run unaskedPort p.2 = some b ∧ Asked p.1 b) ∧
    Reachable (detachSystem options original) p.1.d := by
  obtain ⟨q, hrun, hfollows⟩ := @accepted_reachable _ _ _ _ debugPort attachedPort
    (eventLoop options original) (loopCalls options) (fun _ _ => True) Follows
    (fun s h0 => .looping (attached_follows h0))
    (fun s a s' q₁ hq₁ _ hs => loopStep_follows hq₁ hs) p h
  refine ⟨⟨q, hrun, hfollows, ?_⟩, ?_, ?_, ?_⟩
  · have hbalance := run_balance (fun q => q.phase.level) Call.reports Call.continues
      (fun q c q' hc => accept_balance hc) hrun
    have hstart : attachedPort.phase.level = 0 := rfl
    omega
  · intro hends
    obtain ⟨q', hleave, hreturned⟩ := leave_returned hfollows hends
    refine ⟨q', ?_, hreturned⟩
    have hhandler : debugPort.accept attachedPort (.setConsoleCtrlHandler true)
        = some attachedPort := rfl
    rw [run_cons hhandler, run_append hrun, hleave]
  · intro hturn
    obtain ⟨b, hrun', -, hasked⟩ := @assumed_reachable _ _ _ _ breakPort unaskedPort
      (eventLoop options original) (loopCalls options) (fun _ _ => True)
      (fun s b => (∃ q, Follows s q) ∧ Asked s b) InTurn
      (fun s h0 => ⟨⟨attachedPort, .looping (attached_follows h0)⟩, unasked_asked h0⟩)
      (fun s a s' b₁ hb₁ _ hlog hs => by
        obtain ⟨⟨q₁, hq₁⟩, hasked⟩ := hb₁
        obtain ⟨q₂, -, hq₂⟩ := loopStep_follows hq₁ hs
        obtain ⟨b₂, hrun₂, hasked₂⟩ := loopStep_asked hq₁ hasked hlog hs
        exact ⟨b₂, hrun₂, ⟨q₂, hq₂⟩, hasked₂⟩) p h hturn
    exact ⟨b, hrun', hasked⟩
  · exact (session_of_loop (Reachable.untraced h)).2

/-- A pass in which every call succeeds. -/
def sampleTurn (stopRequested : Bool) (w : Wait) : LoopAction :=
  .pass ⟨stopRequested, true, w, sampleEnvironment 0x900100, true, true⟩

/-- The start of the target, its first breakpoint and one of its own, and a stop
    by the user. -/
def stoppedRun : List LoopAction :=
  [sampleTurn false (.event ⟨1, 7, .createProcess 0x400000 (wideName "a.exe") 5 6 7⟩ .target),
    sampleTurn false (.event ⟨1, 7, .exception exceptionBreakpoint⟩ .loader),
    sampleTurn false (.event ⟨1, 7, .exception exceptionBreakpoint⟩ .target),
    sampleTurn false (.event ⟨1, 7, .exception 0xC0000005⟩ .target), sampleTurn true .timeout,
    sampleTurn true (.event ⟨1, 8, .exception exceptionBreakpoint⟩ .request)]

/-- The origins in a log are those that are expected. -/
def inTurn : BreakPort → List Call → Bool
  | _, [] => true
  | b, c :: calls =>
      (match c with
        | .waitForDebugEvent (.event e origin) =>
            e.u ≠ .exception exceptionBreakpoint || origin = b.next
        | _ => true) &&
      match breakPort.accept b c with
      | none => true
      | some b' => inTurn b' calls

theorem assumed_of_inTurn {calls : List Call} (h : inTurn b calls = true) :
    breakPort.Assumed InTurn b calls := by
  induction calls generalizing b with
  | nil => trivial
  | cons c calls ih =>
      obtain ⟨hc, hrest⟩ := Bool.and_eq_true_iff.mp h
      refine ⟨?_, fun b' hb' => ?_⟩
      · cases c with
        | waitForDebugEvent w =>
            cases w with
            | event e origin =>
                intro hu
                simpa [hu] using hc
            | _ => trivial
        | _ => trivial
      · rw [hb'] at hrest
        exact ih hrest

theorem event_loop_protocol_stopped : ∃ p,
    Reachable ((eventLoop [openHook] sampleWorld.d.target).traced (loopCalls [openHook])) p ∧
    p.1.finished = true ∧ p.1.result = 0 ∧
    (∃ q, debugPort.run attachedPort
      (.setConsoleCtrlHandler true :: (p.2 ++ leave p.1)) = some q ∧ Returned p.1 q) ∧
    ∃ b, breakPort.run unaskedPort p.2 = some b ∧ Asked p.1 b := by
  let start : Loop := ⟨sampleWorld.d, false, 1, false, false, 0, false⟩
  have hexec : (((eventLoop [openHook] sampleWorld.d.target).traced
      (loopCalls [openHook])).exec (start, []) stoppedRun).map
      (fun p => p.1.finished && decide (p.1.result = 0) && inTurn unaskedPort p.2)
        = some true := by
    decide
  obtain ⟨p, hp, hdone⟩ := Option.map_eq_some_iff.mp hexec
  simp only [Bool.and_eq_true, decide_eq_true_eq] at hdone
  obtain ⟨⟨hfinished, hresult⟩, hturn⟩ := hdone
  have hstart : Reachable ((eventLoop [openHook] sampleWorld.d.target).traced
      (loopCalls [openHook])) (start, []) :=
    .init ⟨⟨⟨1, rfl⟩, rfl, rfl, rfl, rfl, rfl, rfl⟩, rfl⟩
  have hr := hstart.exec (fun _ _ => trivial) _ hp
  obtain ⟨-, hreturned, hbreaks, -⟩ := event_loop_protocol hr
  exact ⟨p, hr, hfinished, hresult, hreturned (Or.inl hfinished),
    hbreaks (assumed_of_inTurn hturn)⟩

end ScopeEventLoop
