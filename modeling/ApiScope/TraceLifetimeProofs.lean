import ApiScope.CliOptionsProofs
import ApiScope.EventLoopProofs

/-! # The trace session — its handles and threads, from first to last

    A `TraceSession` holds four system objects: its stop event, and the file
    mapping, the view and the wake event of the ring.  Its threads use them.
    They are made by the constructor and by `Start`, which may give up at every
    call, and released by `Stop` or `Drain`, which the event loop calls when the
    session ends, and by the destructor.

    The other side is a ledger (`ledger`): it knows what is open and which
    threads run with what.  An object is released once, and not while a thread
    uses it; a thread is joined only when the stop event is set.  Whatever fails
    and however the loop is left, at the end nothing is open, no thread runs, and
    the summary was printed once if there was anything to tell. -/

namespace ScopeLifetime

open ScopeBytes ScopeProtocol ScopeTransition ScopeAcceptor ScopeHook ScopeDebug ScopeQuiescence
open ScopeCliOptions ScopeEventLoop
open ScopeDetach (registerModule_image)

/-! ## The calls -/

inductive Resource where
  | handle (h : Nat)
  | view (a : Nat)
  deriving DecidableEq

inductive Worker where
  | reader
  | writer
  | footer
  deriving DecidableEq

inductive LifeCall where
  | acquire (r : Resource)
  | use (r : Resource)
  | release (r : Resource)
  | setEvent (h : Nat)
  | resetEvent (h : Nat)
  /-- A thread that uses these objects. -/
  | spawn (w : Worker) (uses : List Resource)
  | join (w : Worker)
  | printSummary
  deriving DecidableEq

/-! ## TraceSession -/

/-- The local members of `TraceSession`: handles and a view, null at 0, and the
    threads that are joinable. -/
structure TraceMembers where
  mappingHandle : Nat
  localRing : Nat
  wakeEvent : Nat
  stopEvent : Nat
  readerThread : Bool
  writerThread : Bool
  footerThread : Bool
  started : Bool
  summaryPrinted : Bool

/-- `TraceSession()`, with the answer of `CreateEventW`. -/
def construct (createEvent : Nat) : TraceMembers where
  mappingHandle := 0
  localRing := 0
  wakeEvent := 0
  stopEvent := createEvent
  readerThread := false
  writerThread := false
  footerThread := false
  started := false
  summaryPrinted := false

/-- What the system answers while `Start` runs. -/
structure StartCalls where
  opens : List UInt16 → Bool
  /-- `_isatty(_fileno(stdout))`. -/
  stdoutTty : Bool
  createFileMapping : Nat
  mapViewOfFile : Nat
  ntMapViewOfSection : Option Block
  createEvent : Nat
  duplicateHandle : Option Nat

/-- What there is to an object that is not null. -/
def unlessNull {α : Type} (value : Nat) (x : α) : List α := if value = 0 then [] else [x]

/-- `ReleaseLocalRing`. -/
def releaseLocalRing (m : TraceMembers) : TraceMembers × List LifeCall :=
  ({ m with wakeEvent := 0, localRing := 0, mappingHandle := 0 },
    unlessNull m.wakeEvent (.release (.handle m.wakeEvent))
      ++ (unlessNull m.localRing (.release (.view m.localRing))
        ++ unlessNull m.mappingHandle (.release (.handle m.mappingHandle))))

/-- A step of `CreateSharedRing` that gives up. -/
def giveUp (m : TraceMembers) (calls : List LifeCall) :
    Option (Block × Nat) × TraceMembers × List LifeCall :=
  let r := releaseLocalRing m
  (none, r.1, calls ++ r.2)

/-- `CreateSharedRing`: the view and the duplicated event in the target. -/
def createSharedRing (c : StartCalls) (m : TraceMembers) :
    Option (Block × Nat) × TraceMembers × List LifeCall :=
  let m₁ := { m with mappingHandle := c.createFileMapping }
  if c.createFileMapping = 0 then (none, m₁, [])
  else
    let calls₁ := [LifeCall.acquire (.handle c.createFileMapping)]
    let m₂ := { m₁ with localRing := c.mapViewOfFile }
    if c.mapViewOfFile = 0 then giveUp m₂ calls₁
    else
      let calls₂ := calls₁ ++ [.acquire (.view c.mapViewOfFile), .use (.view c.mapViewOfFile)]
      match c.ntMapViewOfSection with
      | none => giveUp m₂ calls₂
      | some ring =>
          let m₃ := { m₂ with wakeEvent := c.createEvent }
          if c.createEvent = 0 then giveUp m₃ calls₂
          else
            let calls₃ := calls₂ ++ [.acquire (.handle c.createEvent)]
            match c.duplicateHandle with
            | none => giveUp m₃ calls₃
            | some remoteWakeEvent => (some (ring, remoteWakeEvent), m₃, calls₃)

/-- `footerEnabled_`. -/
def footerEnabled (o : TraceOutputOptions) (c : StartCalls) : Bool :=
  o.status = .always ∨ o.status = .auto ∧ c.stdoutTty = true

/-- The three `WriteRemoteExport` of `Start`. -/
def startWrites (env : Environment) (image : Nat) : Bool :=
  [cstr "TransportRing", cstr "TransportWakeEvent", cstr "ActiveHookCalls"].all fun name =>
    (exportAddress (env.getRemoteExport image name)).isSome && env.writeExport name

/-- The end of `Start`: its threads. -/
def startThreads (footer : Bool) (m : TraceMembers) : TraceMembers × List LifeCall :=
  ({ m with
      writerThread := true
      readerThread := true
      footerThread := m.footerThread || footer },
    [.resetEvent m.stopEvent, .spawn .writer [.view m.localRing],
      .spawn .reader [.view m.localRing, .handle m.stopEvent, .handle m.wakeEvent]]
      ++ if footer then [.spawn .footer [.view m.localRing, .handle m.stopEvent]] else [])

/-- `Start`; `writes` tells whether the exports of the image were written. -/
def start (o : TraceOutputOptions) (c : StartCalls) (writes : Bool) (m : TraceMembers) :
    Bool × TraceMembers × List LifeCall :=
  if m.stopEvent = 0 then (false, m, [])
  else
    match openOutput c.opens o with
    | .error _ => (false, m, [])
    | .ok () =>
        let r := createSharedRing c { m with started := true, summaryPrinted := false }
        match r.1 with
        | none => (false, r.2)
        | some _ =>
            if writes then
              let started := startThreads (footerEnabled o c) r.2.1
              (true, started.1, r.2.2 ++ started.2)
            else
              let released := releaseLocalRing r.2.1
              (false, released.1, r.2.2 ++ released.2)

/-- `PrintSummary`. -/
def printSummary (m : TraceMembers) : TraceMembers × List LifeCall :=
  if m.started = false ∨ m.summaryPrinted = true then (m, [])
  else ({ m with summaryPrinted := true },
    .printSummary :: unlessNull m.localRing (.use (.view m.localRing)))

/-- `if (thread.joinable()) thread.join()`. -/
def joinThread (joinable : Bool) (w : Worker) : List LifeCall :=
  if joinable then [.join w] else []

/-- `Stop`. -/
def stop (m : TraceMembers) : TraceMembers × List LifeCall :=
  let joined := { m with readerThread := false, writerThread := false, footerThread := false }
  let printed := printSummary joined
  let released := releaseLocalRing printed.1
  (released.1, unlessNull m.stopEvent (.setEvent m.stopEvent)
    ++ (joinThread m.readerThread .reader ++ (joinThread m.writerThread .writer
      ++ (joinThread m.footerThread .footer ++ (printed.2 ++ released.2)))))

/-- `Drain`, which has the body of `Stop`. -/
def drain (m : TraceMembers) : TraceMembers × List LifeCall := stop m

/-- `~TraceSession()`. -/
def destruct (m : TraceMembers) : TraceMembers × List LifeCall :=
  let stopped := stop m
  ({ stopped.1 with stopEvent := 0 },
    stopped.2 ++ unlessNull stopped.1.stopEvent (.release (.handle stopped.1.stopEvent)))

/-! ## The ledger -/

structure Ledger where
  live : List Resource
  workers : List (Worker × List Resource)
  /-- The stop event is set. -/
  signalled : Bool
  printed : Bool

/-- The object is open, and no thread uses it. -/
def Ledger.idle (q : Ledger) (r : Resource) : Bool :=
  r ∈ q.live ∧ q.workers.all fun w => r ∉ w.2

def ledger : Acceptor Ledger LifeCall where
  accept q c :=
    match c with
    | .acquire r => if r ∈ q.live then none else some { q with live := r :: q.live }
    | .use r => if r ∈ q.live then some q else none
    | .release r => if q.idle r then some { q with live := q.live.erase r } else none
    | .setEvent h => if .handle h ∈ q.live then some { q with signalled := true } else none
    | .resetEvent h => if .handle h ∈ q.live then some { q with signalled := false } else none
    | .spawn w uses =>
        if (∀ x ∈ q.workers, x.1 ≠ w) ∧ ∀ r ∈ uses, r ∈ q.live then
          some { q with workers := (w, uses) :: q.workers }
        else none
    | .join w =>
        if (∃ x ∈ q.workers, x.1 = w) ∧ q.signalled = true then
          some { q with workers := q.workers.filter fun x => x.1 ≠ w }
        else none
    | .printSummary =>
        if q.workers = [] ∧ q.printed = false then some { q with printed := true } else none

def emptyLedger : Ledger := ⟨[], [], false, false⟩

/-! ## The members and the ledger -/

/-- The objects of the ring, the last one first. -/
def ringLive (m : TraceMembers) : List Resource :=
  unlessNull m.wakeEvent (.handle m.wakeEvent)
    ++ (unlessNull m.localRing (.view m.localRing)
      ++ unlessNull m.mappingHandle (.handle m.mappingHandle))

/-- The stop event, if there is one. -/
def stopLive (m : TraceMembers) : List Resource := unlessNull m.stopEvent (.handle m.stopEvent)

/-- The threads, the last one first. -/
def workersOf (m : TraceMembers) : List (Worker × List Resource) :=
  (if m.footerThread then [(.footer, [.view m.localRing, .handle m.stopEvent])] else [])
    ++ ((if m.readerThread then
        [(.reader, [.view m.localRing, .handle m.stopEvent, .handle m.wakeEvent])] else [])
      ++ (if m.writerThread then [(.writer, [.view m.localRing])] else []))

/-- **THE INVARIANT**: the ledger has what the members say; threads only run
    with a ring. -/
structure Holds (m : TraceMembers) (q : Ledger) : Prop where
  live : q.live = ringLive m ++ stopLive m
  workers : q.workers = workersOf m
  printed : q.printed = (m.started && m.summaryPrinted)
  threads : m.stopEvent = 0 → q.workers = []

/-- No ring, and no thread. -/
structure Resting (m : TraceMembers) : Prop where
  mappingHandle : m.mappingHandle = 0
  localRing : m.localRing = 0
  wakeEvent : m.wakeEvent = 0
  readerThread : m.readerThread = false
  writerThread : m.writerThread = false
  footerThread : m.footerThread = false

variable {m : TraceMembers} {q : Ledger}

theorem accept_acquire {r : Resource} (h : r ∉ q.live) :
    ledger.accept q (.acquire r) = some { q with live := r :: q.live } := if_neg h

theorem accept_use {r : Resource} (h : r ∈ q.live) : ledger.accept q (.use r) = some q := if_pos h

/-- What was opened last and is not in use is released. -/
theorem accept_release {r : Resource} {rest : List Resource} (hlive : q.live = r :: rest)
    (hworkers : q.workers = []) :
    ledger.accept q (.release r) = some { q with live := rest } := by
  have hidle : q.idle r = true := by
    simp [Ledger.idle, hlive, hworkers]
  show (if q.idle r then _ else none) = _
  rw [if_pos hidle, hlive, List.erase_cons_head]

theorem accept_setEvent {h : Nat} (hlive : .handle h ∈ q.live) :
    ledger.accept q (.setEvent h) = some { q with signalled := true } := if_pos hlive

theorem accept_resetEvent {h : Nat} (hlive : .handle h ∈ q.live) :
    ledger.accept q (.resetEvent h) = some { q with signalled := false } := if_pos hlive

theorem accept_printSummary (hworkers : q.workers = []) (hprinted : q.printed = false) :
    ledger.accept q .printSummary = some { q with printed := true } :=
  if_pos ⟨hworkers, hprinted⟩

theorem unlessNull_pos {α : Type} {value : Nat} (h : value ≠ 0) (x : α) :
    unlessNull value x = [x] := if_neg h

theorem map_unlessNull {α β : Type} (f : α → β) (value : Nat) (x : α) :
    (unlessNull value x).map f = unlessNull value (f x) := by
  rw [unlessNull, unlessNull]
  split
  next => rfl
  next => rfl

/-- Objects are released from the last one on. -/
theorem run_releases (rs : List Resource) {q : Ledger} {rest : List Resource}
    (hlive : q.live = rs ++ rest) (hworkers : q.workers = []) :
    ledger.run q (rs.map .release) = some { q with live := rest } := by
  induction rs generalizing q with
  | nil =>
      rw [show rest = q.live from hlive.symm]
      rfl
  | cons r rs ih =>
      have hone : ledger.accept q (.release r) = some { q with live := rs ++ rest } :=
        accept_release hlive hworkers
      rw [List.map_cons, run_cons hone]
      exact ih rfl hworkers

/-- `ReleaseLocalRing` releases what there is of a ring. -/
theorem run_releaseLocalRing {rest : List Resource} (hlive : q.live = ringLive m ++ rest)
    (hworkers : q.workers = []) :
    ledger.run q (releaseLocalRing m).2 = some { q with live := rest } := by
  have hcalls : (releaseLocalRing m).2 = (ringLive m).map .release := by
    rw [ringLive, List.map_append, List.map_append, map_unlessNull, map_unlessNull,
      map_unlessNull]
    rfl
  rw [hcalls]
  exact run_releases _ hlive hworkers

/-- The summary is printed unless nothing was started, or it was printed before. -/
theorem run_printSummary {rest : List Resource} (hlive : q.live = ringLive m ++ rest)
    (hworkers : q.workers = [])
    (hprinted : q.printed = (m.started && m.summaryPrinted)) :
    ledger.run q (printSummary m).2 = some { q with printed := m.started } ∧
      (printSummary m).1 = { m with summaryPrinted := m.started || m.summaryPrinted } := by
  rw [printSummary]
  split
  next hquiet =>
    rcases hquiet with hno | hyes
    · rw [hno] at hprinted ⊢
      refine ⟨?_, by rw [Bool.false_or, ← hno]⟩
      rw [show false = q.printed from hprinted.symm]
      rfl
    · rw [hyes, Bool.and_true] at hprinted
      refine ⟨?_, by rw [hyes, Bool.or_true, ← hyes]⟩
      rw [← hprinted]
      rfl
  next htell =>
    rw [not_or, Bool.not_eq_false, Bool.not_eq_true] at htell
    rw [htell.1, htell.2] at hprinted
    rw [run_cons (accept_printSummary hworkers hprinted), htell.1]
    refine ⟨?_, by rw [Bool.true_or]⟩
    by_cases hring : m.localRing = 0
    · rw [hring]
      rfl
    · rw [unlessNull_pos hring, run_single]
      refine accept_use ?_
      show Resource.view m.localRing ∈ q.live
      rw [hlive, ringLive, unlessNull_pos hring]
      simp

/-! ### Stopping -/

/-- The thread is joinable. -/
def joinable (m : TraceMembers) : Worker → Bool
  | .reader => m.readerThread
  | .writer => m.writerThread
  | .footer => m.footerThread

theorem mem_workersOf (w : Worker) :
    joinable m w = true ↔ ∃ x ∈ workersOf m, x.1 = w := by
  rw [workersOf]
  cases w with
  | reader => cases hr : m.readerThread <;> simp [joinable, hr]
  | writer => cases hw : m.writerThread <;> simp [joinable, hw]
  | footer => cases hf : m.footerThread <;> simp [joinable, hf]

/-- The threads but this one. -/
def without (workers : List (Worker × List Resource)) (w : Worker) :
    List (Worker × List Resource) := workers.filter fun x => x.1 ≠ w

theorem mem_without {workers : List (Worker × List Resource)} {v w : Worker} (hne : v ≠ w) :
    (∃ x ∈ without workers w, x.1 = v) ↔ ∃ x ∈ workers, x.1 = v := by
  constructor
  · rintro ⟨x, hx, hv⟩
    exact ⟨x, (List.mem_filter.mp hx).1, hv⟩
  · rintro ⟨x, hx, hv⟩
    exact ⟨x, List.mem_filter.mpr ⟨hx, by simpa [hv] using hne⟩, hv⟩

/-- A thread is joined if it runs, when the stop event is set. -/
theorem run_joinThread {j : Bool} {w : Worker} (hj : j = true ↔ ∃ x ∈ q.workers, x.1 = w)
    (hset : q.signalled = true ∨ q.workers = []) :
    ledger.run q (joinThread j w) = some { q with workers := without q.workers w } := by
  rw [joinThread]
  cases j with
  | true =>
      obtain ⟨x, hx, hw⟩ := hj.mp rfl
      have hsignalled : q.signalled = true := by
        rcases hset with hyes | hnil
        · exact hyes
        · rw [hnil] at hx
          cases hx
      rw [if_pos rfl, run_single]
      exact if_pos ⟨⟨x, hx, hw⟩, hsignalled⟩
  | false =>
      have hall : without q.workers w = q.workers := by
        refine List.filter_eq_self.mpr fun x hx => decide_eq_true ?_
        intro hw
        cases hj.mpr ⟨x, hx, hw⟩
      rw [hall]
      rfl

theorem run_joins (hworkers : q.workers = workersOf m)
    (hset : q.signalled = true ∨ q.workers = []) :
    ledger.run q (joinThread m.readerThread .reader ++ (joinThread m.writerThread .writer
      ++ joinThread m.footerThread .footer)) = some { q with workers := [] } := by
  have hmem : ∀ w, joinable m w = true ↔ ∃ x ∈ q.workers, x.1 = w := by
    intro w
    rw [hworkers]
    exact mem_workersOf w
  have hreader : ledger.run q (joinThread m.readerThread .reader)
      = some { q with workers := without q.workers .reader } :=
    run_joinThread (hmem .reader) hset
  have hwriter : ledger.run { q with workers := without q.workers .reader }
      (joinThread m.writerThread .writer)
        = some { q with workers := without (without q.workers .reader) .writer } := by
    refine run_joinThread ((hmem .writer).trans (mem_without (by decide)).symm) ?_
    exact hset.imp id fun hnil => by simp [without, hnil]
  have hfooter : ledger.run { q with workers := without (without q.workers .reader) .writer }
      (joinThread m.footerThread .footer)
        = some { q with
            workers := without (without (without q.workers .reader) .writer) .footer } := by
    refine run_joinThread ((hmem .footer).trans ((mem_without (by decide)).trans
      (mem_without (by decide))).symm) ?_
    exact hset.imp id fun hnil => by simp [without, hnil]
  have hnone : without (without (without q.workers .reader) .writer) .footer = [] := by
    refine List.eq_nil_iff_forall_not_mem.mpr fun x hx => ?_
    simp only [without, List.mem_filter, decide_eq_true_eq] at hx
    obtain ⟨⟨⟨-, h1⟩, h2⟩, h3⟩ := hx
    cases hw : x.1 with
    | reader => exact h1 hw
    | writer => exact h2 hw
    | footer => exact h3 hw
  rw [run_append hreader, run_append hwriter, hfooter, hnone]

theorem stop_mem {before : List Resource} (h : q.live = before ++ stopLive m)
    (hne : m.stopEvent ≠ 0) : .handle m.stopEvent ∈ q.live := by
  rw [h, stopLive, unlessNull_pos hne]
  exact List.mem_append_right _ (List.mem_singleton.mpr rfl)

/-- **STOPPING**: whatever there was, the stop event is left, and the summary is
    printed if anything was started. -/
theorem stop_holds (h : Holds m q) :
    ∃ q', ledger.run q (stop m).2 = some q' ∧ Holds (stop m).1 q' ∧ Resting (stop m).1 ∧
      (stop m).1.stopEvent = m.stopEvent ∧ (stop m).1.started = m.started ∧
      q'.printed = m.started := by
  obtain ⟨signalled, hset, hsignalled⟩ :
      ∃ signalled, ledger.run q (unlessNull m.stopEvent (.setEvent m.stopEvent))
        = some { q with signalled } ∧ (signalled = true ∨ q.workers = []) := by
    by_cases hzero : m.stopEvent = 0
    · exact ⟨q.signalled, by rw [hzero]; rfl, Or.inr (h.threads hzero)⟩
    · rw [unlessNull_pos hzero, run_single, accept_setEvent (stop_mem h.live hzero)]
      exact ⟨true, rfl, Or.inl rfl⟩
  let joined := { m with readerThread := false, writerThread := false, footerThread := false }
  let told := { joined with summaryPrinted := joined.started || joined.summaryPrinted }
  have hjoins : ledger.run { q with signalled } (joinThread m.readerThread .reader
      ++ (joinThread m.writerThread .writer ++ joinThread m.footerThread .footer))
        = some { q with signalled, workers := [] } := run_joins h.workers hsignalled
  obtain ⟨hprint, hprinted⟩ := @run_printSummary joined { q with signalled, workers := [] } _
    h.live rfl h.printed
  have hrelease := @run_releaseLocalRing told
    { q with signalled, workers := [], printed := joined.started } _ h.live rfl
  have hcalls : (stop m).2 = unlessNull m.stopEvent (.setEvent m.stopEvent)
      ++ ((joinThread m.readerThread .reader ++ (joinThread m.writerThread .writer
        ++ joinThread m.footerThread .footer))
      ++ ((printSummary joined).2 ++ (releaseLocalRing told).2)) := by
    rw [show told = (printSummary joined).1 from hprinted.symm]
    simp only [stop, List.append_assoc]
    rfl
  have hmembers : (stop m).1 = (releaseLocalRing told).1 := by
    rw [show told = (printSummary joined).1 from hprinted.symm]
    rfl
  rw [hcalls, hmembers, run_append hset, run_append hjoins, run_append hprint, hrelease]
  refine ⟨_, rfl, ⟨rfl, rfl, ?_, fun _ => rfl⟩,
    ⟨rfl, rfl, rfl, rfl, rfl, rfl⟩, rfl, rfl, rfl⟩
  show m.started = (m.started && (m.started || m.summaryPrinted))
  cases m.started with
  | true => rfl
  | false => rfl

/-! ### Starting -/

/-- What the system promises: a new handle is not one that is open. -/
structure FreshCalls (c : StartCalls) (stopEvent : Nat) : Prop where
  mapping : c.createFileMapping ≠ 0 → c.createFileMapping ≠ stopEvent
  wake : c.createEvent ≠ 0 → c.createEvent ≠ stopEvent ∧ c.createEvent ≠ c.createFileMapping

variable {c : StartCalls}

/-- The members behind `CreateSharedRing`, which succeeds with all of a ring and
    fails with nothing. -/
structure Made (m m' : TraceMembers) (ok : Bool) : Prop where
  same : ∃ mapping ring wake, m' = { m with
    mappingHandle := mapping, localRing := ring, wakeEvent := wake }
  failed : ok = false → m'.mappingHandle = 0 ∧ m'.localRing = 0 ∧ m'.wakeEvent = 0
  made : ok = true → m'.localRing ≠ 0 ∧ m'.wakeEvent ≠ 0

/-- Giving up releases what was made so far. -/
theorem giveUp_made {m m' : TraceMembers} {calls : List LifeCall} {rest : List Resource}
    (hrun : ledger.run q calls = some { q with live := ringLive m' ++ rest })
    (hworkers : q.workers = []) (hsame : ∃ mapping ring wake, m' = { m with
      mappingHandle := mapping, localRing := ring, wakeEvent := wake }) :
    ledger.run q (giveUp m' calls).2.2
        = some { q with live := ringLive (giveUp m' calls).2.1 ++ rest } ∧
      Made m (giveUp m' calls).2.1 (giveUp m' calls).1.isSome := by
  refine ⟨?_, ?_, fun _ => ⟨rfl, rfl, rfl⟩, fun hok => absurd hok (by simp [giveUp])⟩
  · show ledger.run q (calls ++ (releaseLocalRing m').2) = some { q with live := rest }
    rw [run_append hrun]
    exact run_releaseLocalRing rfl hworkers
  · obtain ⟨mapping, ring, wake, rfl⟩ := hsame
    exact ⟨0, 0, 0, rfl⟩

/-- **`CreateSharedRing`**, up to the call that fails. -/
theorem createSharedRing_made (hfresh : FreshCalls c m.stopEvent)
    (hring : m.localRing = 0 ∧ m.wakeEvent = 0) (hlive : q.live = stopLive m)
    (hworkers : q.workers = []) (hstop : m.stopEvent ≠ 0) :
    ledger.run q (createSharedRing c m).2.2
        = some { q with live := ringLive (createSharedRing c m).2.1 ++ stopLive m } ∧
      Made m (createSharedRing c m).2.1 (createSharedRing c m).1.isSome := by
  obtain ⟨hlocal, hwake⟩ := hring
  rw [stopLive, unlessNull_pos hstop] at hlive
  rw [createSharedRing]
  dsimp only
  split
  next hmapping =>
    refine ⟨?_, ⟨c.createFileMapping, m.localRing, m.wakeEvent, rfl⟩,
      fun _ => ⟨hmapping, hlocal, hwake⟩, fun hok => absurd hok (by simp)⟩
    rw [ringLive, hmapping, hlocal, hwake, stopLive, unlessNull_pos hstop]
    show some q = some { q with live := [.handle m.stopEvent] }
    rw [← hlive]
  next hmapping =>
    have hmapped : ledger.run q [.acquire (.handle c.createFileMapping)] = some { q with
        live := [.handle c.createFileMapping, .handle m.stopEvent] } := by
      rw [run_single, accept_acquire, hlive]
      rw [hlive]
      simpa using hfresh.mapping hmapping
    split
    next hview =>
      refine giveUp_made ?_ hworkers ⟨c.createFileMapping, c.mapViewOfFile, m.wakeEvent, rfl⟩
      rw [hmapped]
      simp [ringLive, stopLive, unlessNull, hwake, hview, hmapping, hstop]
    next hview =>
      have hviewed : ledger.run q ([.acquire (.handle c.createFileMapping)]
          ++ [.acquire (.view c.mapViewOfFile), .use (.view c.mapViewOfFile)]) = some { q with
            live := [.view c.mapViewOfFile, .handle c.createFileMapping,
              .handle m.stopEvent] } := by
        rw [run_append hmapped, run_cons (accept_acquire (by simp)), run_single]
        exact accept_use (by simp)
      cases c.ntMapViewOfSection with
      | none =>
          refine giveUp_made ?_ hworkers ⟨c.createFileMapping, c.mapViewOfFile, m.wakeEvent, rfl⟩
          rw [hviewed]
          simp [ringLive, stopLive, unlessNull, hwake, hview, hmapping, hstop]
      | some ring =>
          dsimp only
          split
          next hevent =>
            refine giveUp_made ?_ hworkers
              ⟨c.createFileMapping, c.mapViewOfFile, c.createEvent, rfl⟩
            rw [hviewed]
            simp [ringLive, stopLive, unlessNull, hevent, hview, hmapping, hstop]
          next hevent =>
            have hmade : ledger.run q ([.acquire (.handle c.createFileMapping)]
                ++ [.acquire (.view c.mapViewOfFile), .use (.view c.mapViewOfFile)]
                ++ [.acquire (.handle c.createEvent)]) = some { q with
                  live := [.handle c.createEvent, .view c.mapViewOfFile,
                    .handle c.createFileMapping, .handle m.stopEvent] } := by
              rw [run_append hviewed, run_single]
              refine accept_acquire ?_
              simpa using ⟨(hfresh.wake hevent).2, (hfresh.wake hevent).1⟩
            have hlives : ringLive { m with
                mappingHandle := c.createFileMapping
                localRing := c.mapViewOfFile
                wakeEvent := c.createEvent } ++ stopLive m = [.handle c.createEvent,
                  .view c.mapViewOfFile, .handle c.createFileMapping, .handle m.stopEvent] := by
              simp [ringLive, stopLive, unlessNull, hevent, hview, hmapping, hstop]
            cases c.duplicateHandle with
            | none =>
                refine giveUp_made ?_ hworkers
                  ⟨c.createFileMapping, c.mapViewOfFile, c.createEvent, rfl⟩
                rw [hmade, ← hlives]
            | some remoteWakeEvent =>
                refine ⟨?_, ⟨c.createFileMapping, c.mapViewOfFile, c.createEvent, rfl⟩, ?_,
                  fun _ => ⟨hview, hevent⟩⟩
                · show ledger.run q _ = some { q with live := ringLive { m with
                    mappingHandle := c.createFileMapping
                    localRing := c.mapViewOfFile
                    wakeEvent := c.createEvent } ++ stopLive m }
                  rw [hlives]
                  exact hmade
                · intro hfailed
                  cases hfailed

theorem Resting.ringLive (h : Resting m) : ringLive m = [] := by
  rw [ScopeLifetime.ringLive, h.mappingHandle, h.localRing, h.wakeEvent]
  rfl

theorem Resting.workersOf (h : Resting m) : workersOf m = [] := by
  rw [ScopeLifetime.workersOf, h.readerThread, h.writerThread, h.footerThread]
  rfl

theorem accept_spawn {w : Worker} {uses : List Resource} (hnew : ∀ x ∈ q.workers, x.1 ≠ w)
    (huses : ∀ r ∈ uses, r ∈ q.live) :
    ledger.accept q (.spawn w uses) = some { q with workers := (w, uses) :: q.workers } :=
  if_pos ⟨hnew, huses⟩

/-- The threads start when the ring is there. -/
theorem startThreads_holds (h : Holds m q) (hreader : m.readerThread = false)
    (hwriter : m.writerThread = false) (hfooter : m.footerThread = false)
    (hring : m.localRing ≠ 0) (hwake : m.wakeEvent ≠ 0) (hstop : m.stopEvent ≠ 0)
    (footer : Bool) :
    ∃ q', ledger.run q (startThreads footer m).2 = some q' ∧
      Holds (startThreads footer m).1 q' := by
  have hworkers : q.workers = [] := by
    rw [h.workers, workersOf, hreader, hwriter, hfooter]
    rfl
  have hview : Resource.view m.localRing ∈ q.live := by
    rw [h.live, ringLive, unlessNull_pos hring]
    simp
  have hevent : Resource.handle m.wakeEvent ∈ q.live := by
    rw [h.live, ringLive, unlessNull_pos hwake]
    simp
  have hstopped : Resource.handle m.stopEvent ∈ q.live := stop_mem h.live hstop
  have hwrites : ledger.accept { q with signalled := false }
      (.spawn .writer [.view m.localRing]) = some { q with
        signalled := false
        workers := [(.writer, [.view m.localRing])] } := by
    rw [accept_spawn (by simp [hworkers]) (by simpa using hview), hworkers]
  have hreads : ledger.accept { q with
      signalled := false
      workers := [(.writer, [.view m.localRing])] }
      (.spawn .reader [.view m.localRing, .handle m.stopEvent, .handle m.wakeEvent])
        = some { q with
            signalled := false
            workers := [(.reader, [.view m.localRing, .handle m.stopEvent, .handle m.wakeEvent]),
              (.writer, [.view m.localRing])] } :=
    accept_spawn (by simp) (by simpa using ⟨hview, hstopped, hevent⟩)
  rw [startThreads]
  show ∃ q', ledger.run q (_ :: _ :: _ :: _) = some q' ∧ _
  rw [run_cons (accept_resetEvent hstopped), run_cons hwrites, run_cons hreads, hfooter,
    Bool.false_or]
  cases footer with
  | true =>
      refine ⟨_, (run_single).trans (accept_spawn (by simp) (by simpa using ⟨hview, hstopped⟩)),
        ⟨h.live, rfl, ?_, fun hzero => absurd hzero hstop⟩⟩
      exact h.printed
  | false => exact ⟨_, rfl, ⟨h.live, rfl, h.printed, fun hzero => absurd hzero hstop⟩⟩

/-- **STARTING**, up to the call that fails. -/
theorem start_holds (h : Holds m q) (hrest : Resting m) (hnew : m.summaryPrinted = false)
    (hfresh : FreshCalls c m.stopEvent) (o : TraceOutputOptions) (writes : Bool) :
    ∃ q', ledger.run q (start o c writes m).2.2 = some q' ∧ Holds (start o c writes m).2.1 q' ∧
      (start o c writes m).2.1.stopEvent = m.stopEvent ∧
      ((start o c writes m).1 = false → Resting (start o c writes m).2.1) := by
  have hworkers : q.workers = [] := h.workers.trans hrest.workersOf
  rw [start]
  split
  next => exact ⟨q, rfl, h, rfl, fun _ => hrest⟩
  next hstop =>
    cases openOutput c.opens o with
    | error message => exact ⟨q, rfl, h, rfl, fun _ => hrest⟩
    | ok u =>
        have hlive : q.live = stopLive m := by rw [h.live, hrest.ringLive, List.nil_append]
        have hprinted : q.printed = false := by rw [h.printed, hnew, Bool.and_false]
        obtain ⟨hrun, hsame, hfailed, hmade⟩ := @createSharedRing_made
          { m with started := true, summaryPrinted := false } q c hfresh
          ⟨hrest.localRing, hrest.wakeEvent⟩ hlive hworkers hstop
        obtain ⟨mapping, ring, wake, hmembers⟩ := hsame
        dsimp only
        generalize createSharedRing c { m with started := true, summaryPrinted := false } = r
          at hrun hfailed hmade hmembers
        obtain ⟨made, m₁, calls⟩ := r
        dsimp only at hrun hfailed hmade hmembers ⊢
        subst hmembers
        cases made with
        | none =>
            obtain ⟨h1, h2, h3⟩ := hfailed rfl
            have hresting : Resting { m with
                mappingHandle := mapping
                localRing := ring
                wakeEvent := wake
                started := true
                summaryPrinted := false } :=
              ⟨h1, h2, h3, hrest.readerThread, hrest.writerThread, hrest.footerThread⟩
            refine ⟨_, hrun, ⟨rfl, ?_, hprinted, fun _ => hworkers⟩, rfl, fun _ => hresting⟩
            exact hworkers.trans hresting.workersOf.symm
        | some made =>
            obtain ⟨hring, hwake⟩ := hmade rfl
            let m₁ : TraceMembers := { m with
              mappingHandle := mapping
              localRing := ring
              wakeEvent := wake
              started := true
              summaryPrinted := false }
            let q₁ : Ledger := { q with live := ringLive m₁ ++ stopLive m₁ }
            have hnone : workersOf m₁ = [] := by
              rw [workersOf, hrest.readerThread, hrest.writerThread, hrest.footerThread]
              rfl
            have hholds : Holds m₁ q₁ := ⟨rfl, hworkers.trans hnone.symm, hprinted,
              fun _ => hworkers⟩
            dsimp only
            split
            next =>
              obtain ⟨q', hrun', hholds'⟩ := startThreads_holds hholds hrest.readerThread
                hrest.writerThread hrest.footerThread hring hwake hstop (footerEnabled o c)
              refine ⟨q', by rw [run_append hrun]; exact hrun', hholds', rfl, fun hfalse => ?_⟩
              cases hfalse
            next =>
              have hrelease := @run_releaseLocalRing m₁ q₁ (stopLive m₁) rfl hworkers
              have hresting : Resting (releaseLocalRing m₁).1 := ⟨rfl, rfl, rfl,
                hrest.readerThread, hrest.writerThread, hrest.footerThread⟩
              refine ⟨{ q₁ with live := stopLive m₁ }, ?_, ⟨rfl, ?_, hprinted, fun _ => hworkers⟩,
                rfl, fun _ => hresting⟩
              · rw [run_append hrun]
                exact hrelease
              · exact hworkers.trans hresting.workersOf.symm

/-- **THE END**: nothing is left. -/
theorem destruct_released (h : Holds m q) :
    ∃ q', ledger.run q (destruct m).2 = some q' ∧ q'.live = [] ∧ q'.workers = [] ∧
      q'.printed = m.started := by
  obtain ⟨q₁, hrun, hholds, hrest, hstop, -, hprinted⟩ := stop_holds h
  have hworkers : q₁.workers = [] := hholds.workers.trans hrest.workersOf
  have hlive : q₁.live = stopLive (stop m).1 := by
    rw [hholds.live, hrest.ringLive, List.nil_append]
  show ∃ q', ledger.run q ((stop m).2 ++ unlessNull (stop m).1.stopEvent
    (.release (.handle (stop m).1.stopEvent))) = some q' ∧ _
  rw [run_append hrun, ← map_unlessNull]
  refine ⟨{ q₁ with live := [] }, run_releases _ ?_ hworkers, rfl, hworkers, hprinted⟩
  rw [hlive, List.append_nil, stopLive]

theorem construct_holds (createEvent : Nat) :
    ledger.run emptyLedger (unlessNull createEvent (.acquire (.handle createEvent)))
        = some ⟨stopLive (construct createEvent), [], false, false⟩ ∧
      Holds (construct createEvent) ⟨stopLive (construct createEvent), [], false, false⟩ := by
  refine ⟨?_, rfl, rfl, rfl, fun _ => rfl⟩
  by_cases hzero : createEvent = 0
  · rw [hzero]
    rfl
  · rw [unlessNull_pos hzero, stopLive]
    show _ = some (Ledger.mk (unlessNull createEvent _) _ _ _)
    rw [unlessNull_pos hzero]
    rfl

/-! ## The life of a session -/

/-- The base of the image for which the handler of an event calls `Start`. -/
def startsTrace (env : Environment) (s : Session) : EventInfo → Option Nat
  | .createProcess _ _ _ _ _ =>
      if s.hookImageBase = 0 ∧ env.debugSetProcessKillOnExit = true then
        match env.injectDll with
        | none => none
        | some image =>
            if (if env.readImageSize then image.size else 0) = 0 then none else some image.base
      else none
  | _ => none

/-- The result of `CreateSharedRing`. -/
def sharedRing (c : StartCalls) : Option (Block × Nat) :=
  if c.createFileMapping = 0 then none
  else if c.mapViewOfFile = 0 then none
  else
    match c.ntMapViewOfSection with
    | none => none
    | some ring =>
        if c.createEvent = 0 then none
        else
          match c.duplicateHandle with
          | none => none
          | some remoteWakeEvent => some (ring, remoteWakeEvent)

/-- The answers to an event, with those to `Start` in the terms of the session. -/
def lifeTurn (o : TraceOutputOptions) (c : StartCalls) (m : TraceMembers) (t : Turn) : Turn :=
  { t with env := { t.env with
    openOutput := m.stopEvent ≠ 0 ∧ (openOutput c.opens o).isOk = true
    createSharedRing := sharedRing c } }

/-- One thing after the other. -/
def andThen (r : TraceMembers × List LifeCall)
    (f : TraceMembers → TraceMembers × List LifeCall) : TraceMembers × List LifeCall :=
  ((f r.1).1, r.2 ++ (f r.1).2)

/-- `Start`, where the handler gets to it. -/
def startInEvent (o : TraceOutputOptions) (env : Environment) (c : StartCalls) (u : EventInfo)
    (s : Session) (m : TraceMembers) : TraceMembers × List LifeCall :=
  match startsTrace env s u with
  | some image => (start o c (startWrites env image) m).2
  | none => (m, [])

/-- `Drain`, when the target has exited. -/
def drainInEvent (u : EventInfo) (m : TraceMembers) : TraceMembers × List LifeCall :=
  match u with
  | .exitProcess _ => drain m
  | _ => (m, [])

/-- What an event does to the trace session; the cleanup stops it. -/
def traceEvent (options : List HookDefinition) (o : TraceOutputOptions) (t : Turn)
    (c : StartCalls) (u : EventInfo) (s : Loop) (m : TraceMembers) :
    TraceMembers × List LifeCall :=
  andThen (andThen (startInEvent o t.env c u s.d.session m) (drainInEvent u)) fun m =>
    if cleansUp options t.env u s then stop m else (m, [])

/-- What a pass of the event loop does to it. -/
def tracePass (options : List HookDefinition) (o : TraceOutputOptions) (t : Turn)
    (c : StartCalls) (s : Loop) (m : TraceMembers) : TraceMembers × List LifeCall :=
  let r := requestBreak t s
  if r.1.broken then (m, [])
  else
    match t.waitForDebugEvent with
    | .event e _ => traceEvent options o t c e.u r.1 m
    | _ => (m, [])

/-- The event loop and its trace session. -/
structure Life where
  loop : Loop
  trace : TraceMembers

inductive LifeAction where
  | pass (t : Turn) (c : StartCalls)
  | targetRuns (memory : Memory) (activeHookCalls : BitVec 32)

def lifeStep (options : List HookDefinition) (o : TraceOutputOptions) (l : Life) :
    LifeAction → Option Life
  | .pass t c =>
      let t' := lifeTurn o c l.trace t
      (loopStep options l.loop (.pass t')).map fun loop =>
        ⟨loop, (tracePass options o t' c l.loop l.trace).1⟩
  | .targetRuns memory activeHookCalls =>
      (loopStep options l.loop (.targetRuns memory activeHookCalls)).map fun loop =>
        ⟨loop, l.trace⟩

def lifeCalls (options : List HookDefinition) (o : TraceOutputOptions) (l : Life) :
    LifeAction → List LifeCall
  | .pass t c => (tracePass options o (lifeTurn o c l.trace t) c l.loop l.trace).2
  | .targetRuns _ _ => []

/-- The loop of a session whose constructor got `createEvent`. -/
def lifeSystem (options : List HookDefinition) (o : TraceOutputOptions) (original : Target)
    (createEvent : Nat) : System Life LifeAction where
  init l := Entered original l.loop ∧ l.trace = construct createEvent
  step := lifeStep options o

/-- What the system promises in a step. -/
def Promises (l : Life) : LifeAction → Prop
  | .pass _ c => FreshCalls c l.trace.stopEvent
  | .targetRuns _ _ => True

instance (c : StartCalls) (stopEvent : Nat) : Decidable (FreshCalls c stopEvent) :=
  decidable_of_iff ((c.createFileMapping ≠ 0 → c.createFileMapping ≠ stopEvent) ∧
      (c.createEvent ≠ 0 → c.createEvent ≠ stopEvent ∧ c.createEvent ≠ c.createFileMapping))
    ⟨fun h => ⟨h.1, h.2⟩, fun h => ⟨h.mapping, h.wake⟩⟩

instance (l : Life) : (a : LifeAction) → Decidable (Promises l a)
  | .pass _ c => inferInstanceAs (Decidable (FreshCalls c l.trace.stopEvent))
  | .targetRuns _ _ => .isTrue trivial

/-- Before the loop: the constructor. -/
def opening (createEvent : Nat) : List LifeCall :=
  unlessNull createEvent (.acquire (.handle createEvent))

/-- Behind the loop: `Stop` unless the target has exited, then the destructor. -/
def finish (l : Life) : List LifeCall :=
  if l.loop.naturalExit then (destruct l.trace).2
  else (stop l.trace).2 ++ (destruct (stop l.trace).1).2

/-! ### Start, here and in the session -/

theorem createSharedRing_result (c : StartCalls) (m : TraceMembers) :
    (createSharedRing c m).1 = sharedRing c := by
  rw [createSharedRing, sharedRing]
  dsimp only
  split
  next => rfl
  next =>
    split
    next => rfl
    next =>
      cases c.ntMapViewOfSection with
      | none => rfl
      | some ring =>
          dsimp only
          split
          next => rfl
          next =>
            cases c.duplicateHandle with
            | none => rfl
            | some remoteWakeEvent => rfl

theorem writeRemoteExport_result (env : Environment) (image : Nat) (name value : List UInt8)
    (t : Target) : (writeRemoteExport env image name value t).1
      = ((exportAddress (env.getRemoteExport image name)).isSome && env.writeExport name) := by
  rw [writeRemoteExport]
  cases exportAddress (env.getRemoteExport image name) with
  | none => rfl
  | some address => simp

theorem resetActiveHookCalls_result (env : Environment) (image : Nat) (t : Target) :
    (resetActiveHookCalls env image t).1
      = ((exportAddress (env.getRemoteExport image (cstr "ActiveHookCalls"))).isSome
        && env.writeExport (cstr "ActiveHookCalls")) := by
  rw [resetActiveHookCalls]
  cases exportAddress (env.getRemoteExport image (cstr "ActiveHookCalls")) with
  | none => rfl
  | some address =>
      cases env.writeExport (cstr "ActiveHookCalls") with
      | true => rfl
      | false => rfl

/-- **REFINEMENT**: `Start` succeeds with its calls where it does in the session. -/
theorem start_result {t : Turn} {d : DebugState} {image : Nat}
    (himage : d.session.hookImageBase = image) (o : TraceOutputOptions) (c : StartCalls)
    (m : TraceMembers) : (start o c (startWrites (lifeTurn o c m t).env image) m).1
      = (traceStart (lifeTurn o c m t).env d).1 := by
  have hwrites : ∀ env : Environment, startWrites env image
      = ((exportAddress (env.getRemoteExport image (cstr "TransportRing"))).isSome
          && env.writeExport (cstr "TransportRing")
        && ((exportAddress (env.getRemoteExport image (cstr "TransportWakeEvent"))).isSome
          && env.writeExport (cstr "TransportWakeEvent"))
        && ((exportAddress (env.getRemoteExport image (cstr "ActiveHookCalls"))).isSome
          && env.writeExport (cstr "ActiveHookCalls"))) := by
    intro env
    simp [startWrites, Bool.and_assoc]
  have hopen : (lifeTurn o c m t).env.openOutput
      = decide (m.stopEvent ≠ 0 ∧ (openOutput c.opens o).isOk = true) := rfl
  have hring : (lifeTurn o c m t).env.createSharedRing = sharedRing c := rfl
  generalize (lifeTurn o c m t).env = env at hopen hring ⊢
  rw [start, traceStart, hopen, hring, hwrites]
  by_cases hstop : m.stopEvent = 0
  · rw [if_pos hstop, if_pos (by simp [hstop])]
  rw [if_neg hstop]
  cases hok : openOutput c.opens o with
  | error message => rw [if_pos (by simp [Except.isOk, Except.toBool])]
  | ok u =>
      rw [if_neg (by simp [hstop, Except.isOk, Except.toBool])]
      dsimp only
      rw [createSharedRing_result]
      cases sharedRing c with
      | none => rfl
      | some made =>
          obtain ⟨ring, wakeEvent⟩ := made
          dsimp only
          rw [himage, writeRemoteExport_result, writeRemoteExport_result,
            resetActiveHookCalls_result]
          generalize ((exportAddress (env.getRemoteExport image (cstr "TransportRing"))).isSome
            && env.writeExport (cstr "TransportRing")) = wroteRing
          generalize ((exportAddress
            (env.getRemoteExport image (cstr "TransportWakeEvent"))).isSome
            && env.writeExport (cstr "TransportWakeEvent")) = wroteWake
          generalize ((exportAddress
            (env.getRemoteExport image (cstr "ActiveHookCalls"))).isSome
            && env.writeExport (cstr "ActiveHookCalls")) = reset
          cases wroteRing with
          | false => rfl
          | true =>
              cases wroteWake with
              | false => rfl
              | true =>
                  cases reset with
                  | false => rfl
                  | true => rfl

theorem start_running {o : TraceOutputOptions} {writes : Bool}
    (h : (start o c writes m).1 = true) :
    (start o c writes m).2.1.readerThread = true ∧
      (start o c writes m).2.1.writerThread = true := by
  rw [start] at h ⊢
  split at h
  next => cases h
  next hstop =>
    rw [if_neg hstop]
    split at h
    next => cases h
    next hopen =>
      dsimp only at h ⊢
      split at h
      next => cases h
      next made hmade =>
        split at h
        next hwrites =>
          rw [if_pos hwrites]
          exact ⟨rfl, rfl⟩
        next => cases h

/-! ### Steps -/

variable {options : List HookDefinition} {env : Environment} {d : DebugState}

/-- An initialization that succeeds has started the trace session. -/
theorem initialize_starts {u : EventInfo} {base : Nat} {path : List UInt16}
    {hFile hThread hProcess : Nat} (hu : u = .createProcess base path hFile hThread hProcess)
    (hzero : d.session.hookImageBase = 0) (h : (initializeDebuggee env d).1 = true) :
    ∃ image d', startsTrace env d.session u = some image ∧ d'.session.hookImageBase = image ∧
      (traceStart env d').1 = true := by
  rw [initializeDebuggee] at h
  rw [hu, startsTrace]
  split at h
  next => cases h
  next hkill =>
    rw [if_pos ⟨hzero, Bool.not_eq_false _ ▸ hkill⟩]
    cases hinject : env.injectDll with
    | none =>
        rw [hinject] at h
        cases h
    | some image =>
        rw [hinject] at h
        dsimp only at h ⊢
        generalize (if env.readImageSize = true then image.size else 0) = size at h ⊢
        split at h
        next => cases h
        next hsize =>
          rw [if_neg hsize]
          exact ⟨image.base, _, rfl, rfl, h⟩

/-- **THE IMAGE** behind an event that goes on: either it was mapped now, and
    `Start` has succeeded, or it is the one from before. -/
theorem handleEvent_image {u : EventInfo} (hexit : ∀ code, u ≠ .exitProcess code)
    (hgoes : ends (dispatchEvent env options d u.debugEvent) = false) :
    (handleEvent env options d u.debugEvent).session.hookImageBase ≠ 0 ∧
        (∃ image d', startsTrace env d.session u = some image ∧
          d'.session.hookImageBase = image ∧ (traceStart env d').1 = true) ∨
      (handleEvent env options d u.debugEvent).session.hookImageBase = d.session.hookImageBase ∧
        startsTrace env d.session u = none := by
  have hok : (dispatchEvent env options d u.debugEvent).eventOk = true ∧
      (dispatchEvent env options d u.debugEvent).cleanStop = false := by
    rw [ends] at hgoes
    simpa using hgoes
  rw [handleEvent]
  dsimp only
  rw [if_neg (by rw [hok.1, hok.2]; simp)]
  cases hu : u with
  | createProcess base path hFile hThread hProcess =>
      rw [hu] at hok
      have hcreate : (handleCreateProcess env options base path d).1 = true := hok.1
      show (handleCreateProcess env options base path d).2.session.hookImageBase ≠ 0 ∧ _ ∨
        (handleCreateProcess env options base path d).2.session.hookImageBase
          = d.session.hookImageBase ∧ _
      rw [handleCreateProcess] at hcreate ⊢
      by_cases hzero : d.session.hookImageBase = 0
      · rw [if_pos hzero] at hcreate ⊢
        dsimp only at hcreate ⊢
        split at hcreate
        next hinit =>
          rw [if_pos hinit, registerModule_image]
          exact Or.inl ⟨(initializeDebuggee_true hinit).image,
            initialize_starts rfl hzero hinit⟩
        next => cases hcreate
      · rw [if_neg hzero, registerModule_image]
        exact Or.inr ⟨rfl, if_neg fun hboth => hzero hboth.1⟩
  | loadDll base path hFile => exact Or.inr ⟨registerModule_image env options base path d, rfl⟩
  | exception code =>
      refine Or.inr ⟨?_, rfl⟩
      show (dispatchEvent env options d (if code = exceptionBreakpoint then .breakpoint
        else .exception)).state.session.hookImageBase = _
      split
      next =>
        rw [dispatchEvent]
        split
        next => rfl
        next => rfl
      next => rfl
  | exitProcess code => exact absurd hu (hexit code)
  | _ => exact Or.inr ⟨rfl, rfl⟩

/-- While the loop goes on: without an image nothing was started, and with one
    the threads run. -/
structure Alive (s : Loop) (m : TraceMembers) : Prop where
  unmapped : s.d.session.hookImageBase = 0 → Resting m ∧ m.summaryPrinted = false
  mapped : s.d.session.hookImageBase ≠ 0 → m.readerThread = true ∧ m.writerThread = true

variable {s : Loop} {t : Turn} {o : TraceOutputOptions}

/-- A breakpoint that asks for another break does not end the session. -/
theorem retries_goes {u : EventInfo} (h : retries env s.d u = true) :
    cleansUp options env u s = false := by
  cases u with
  | exception code =>
      obtain ⟨hcode, hstop, hquiet⟩ := of_decide_eq_true h
      rw [cleansUp, EventInfo.debugEvent, if_pos hcode, dispatchEvent, if_pos hstop, hquiet]
      rfl
  | _ => cases h

/-- An event that makes the loop clean up ends it. -/
theorem cleansUp_ends {e : DebugEventRecord} (h : cleansUp options t.env e.u s = true) :
    (handleRecord options t e s).1.finished = true ∨
      (handleRecord options t e s).1.broken = true := by
  rw [handleRecord]
  dsimp only
  split
  next =>
    have hretries : ¬retries t.env s.d e.u = true := by
      intro hr
      rw [retries_goes hr] at h
      cases h
    refine Or.inl ?_
    have hends : ends (dispatchEvent t.env options s.d e.u.debugEvent) = true := h
    rw [afterContinue, if_neg hretries]
    dsimp only
    rw [if_pos hends]
  next => exact Or.inr rfl

theorem exit_ends {e : DebugEventRecord} {code : Nat} (hu : e.u = .exitProcess code) :
    (handleRecord options t e s).1.finished = true := by
  rw [handleRecord, hu]
  dsimp only
  split
  next => rfl
  next => rfl

theorem startsTrace_zero {u : EventInfo} {image : Nat}
    (h : startsTrace env s.d.session u = some image) : s.d.session.hookImageBase = 0 := by
  cases u with
  | createProcess base path hFile hThread hProcess =>
      rw [startsTrace] at h
      split at h
      next hboth => exact hboth.1
      next => cases h
  | _ => cases h

/-- The ledger follows what is done, and has what is left. -/
def Sound (q : Ledger) (stopEvent : Nat) (r : TraceMembers × List LifeCall) : Prop :=
  ∃ q', ledger.run q r.2 = some q' ∧ Holds r.1 q' ∧ r.1.stopEvent = stopEvent

theorem Sound.andThen {stopEvent : Nat} {r : TraceMembers × List LifeCall}
    {f : TraceMembers → TraceMembers × List LifeCall} (h : Sound q stopEvent r)
    (hf : ∀ {q'}, Holds r.1 q' → Sound q' r.1.stopEvent (f r.1)) :
    Sound q stopEvent (andThen r f) := by
  obtain ⟨q₁, hrun, hholds, hstop⟩ := h
  obtain ⟨q₂, hrun', hholds', hstop'⟩ := hf hholds
  exact ⟨q₂, (run_append hrun _).trans hrun', hholds', hstop'.trans hstop⟩

theorem sound_nothing (h : Holds m q) : Sound q m.stopEvent (m, []) := ⟨q, rfl, h, rfl⟩

theorem sound_stop (h : Holds m q) : Sound q m.stopEvent (stop m) := by
  obtain ⟨q', hrun, hholds, -, hstop, -⟩ := stop_holds h
  exact ⟨q', hrun, hholds, hstop⟩

theorem sound_start (h : Holds m q) (halive : Alive s m) (hfresh : FreshCalls c m.stopEvent)
    (u : EventInfo) : Sound q m.stopEvent (startInEvent o env c u s.d.session m) := by
  rw [startInEvent]
  cases hs : startsTrace env s.d.session u with
  | none => exact sound_nothing h
  | some image =>
      obtain ⟨hrest, hnew⟩ := halive.unmapped (startsTrace_zero hs)
      obtain ⟨q', hrun, hholds, hstop, -⟩ := start_holds h hrest hnew hfresh o
        (startWrites env image)
      exact ⟨q', hrun, hholds, hstop⟩

/-- **AN EVENT** and the ledger. -/
theorem sound_event (h : Holds m q) (halive : Alive s m) (hfresh : FreshCalls c m.stopEvent)
    (u : EventInfo) : Sound q m.stopEvent (traceEvent options o t c u s m) := by
  rw [traceEvent]
  refine (Sound.andThen (sound_start h halive hfresh u) ?_).andThen ?_
  · intro q' h'
    cases u with
    | exitProcess code => exact sound_stop h'
    | _ => exact sound_nothing h'
  · intro q' h'
    by_cases hclean : cleansUp options t.env u s = true
    · rw [if_pos hclean]
      exact sound_stop h'
    · rw [if_neg hclean]
      exact sound_nothing h'

/-- **AN EVENT** and the session. -/
theorem alive_event {e : DebugEventRecord} (halive : Alive s m)
    (hgoes : GoesOn (handleRecord options (lifeTurn o c m t) e s).1) :
    Alive (handleRecord options (lifeTurn o c m t) e s).1
      (traceEvent options o (lifeTurn o c m t) c e.u s m).1 := by
  have hexit : ∀ code, e.u ≠ .exitProcess code := by
    intro code hu
    have hends := @exit_ends options s (lifeTurn o c m t) e code hu
    rw [hgoes.1] at hends
    cases hends
  have hclean : cleansUp options (lifeTurn o c m t).env e.u s = false := by
    by_contra hyes
    rcases cleansUp_ends (Bool.not_eq_false _ ▸ hyes) with hfinished | hbroken
    · rw [hgoes.1] at hfinished
      cases hfinished
    · rw [hgoes.2] at hbroken
      cases hbroken
  have hdrain : ∀ m, drainInEvent e.u m = (m, []) := by
    intro m
    cases hu : e.u with
    | exitProcess code => exact absurd hu (hexit code)
    | _ => rfl
  have hd : (handleRecord options (lifeTurn o c m t) e s).1.d
      = handleEvent (lifeTurn o c m t).env options s.d e.u.debugEvent :=
    handleRecord_session s
  have htrace : (traceEvent options o (lifeTurn o c m t) c e.u s m).1
      = (startInEvent o (lifeTurn o c m t).env c e.u s.d.session m).1 := by
    rw [traceEvent, hclean]
    show (drainInEvent e.u _).1 = _
    rw [hdrain]
  rw [htrace, startInEvent]
  rcases handleEvent_image hexit hclean with ⟨hne, image, d', hs, himage, hstarted⟩ | ⟨hsame, hs⟩
  · rw [hs]
    refine ⟨fun hzero => absurd (hd ▸ hzero) hne, fun _ => ?_⟩
    rw [← start_result himage] at hstarted
    exact start_running hstarted
  · rw [hs]
    refine ⟨fun hzero => halive.unmapped ?_, fun hne => halive.mapped ?_⟩
    · rw [← hsame, ← hd]
      exact hzero
    · rw [← hsame, ← hd]
      exact hne

/-! ### Passes -/

theorem requestBreak_image (t : Turn) (s : Loop) :
    (requestBreak t s).1.d.session.hookImageBase = s.d.session.hookImageBase := by
  rw [requestBreak]
  split
  next =>
    split
    next => rfl
    next => rfl
  next => rfl

theorem Alive.same {s' : Loop} (h : Alive s m)
    (himage : s'.d.session.hookImageBase = s.d.session.hookImageBase) : Alive s' m where
  unmapped hzero := h.unmapped (himage ▸ hzero)
  mapped hne := h.mapped (himage ▸ hne)

/-- **ONE PASS** and the ledger. -/
theorem sound_pass (h : Holds m q) (halive : Alive s m) (hfresh : FreshCalls c m.stopEvent) :
    Sound q m.stopEvent (tracePass options o t c s m) := by
  rw [tracePass]
  split
  next => exact sound_nothing h
  next =>
    cases t.waitForDebugEvent with
    | event e origin => exact sound_event h (halive.same (requestBreak_image t s)) hfresh e.u
    | timeout => exact sound_nothing h
    | failed => exact sound_nothing h

/-- **ONE PASS** and the session. -/
theorem alive_pass (halive : Alive s m)
    (hgoes : GoesOn (ScopeEventLoop.pass options (lifeTurn o c m t) s).1) :
    Alive (ScopeEventLoop.pass options (lifeTurn o c m t) s).1
      (tracePass options o (lifeTurn o c m t) c s m).1 := by
  have hsame := halive.same (requestBreak_image (lifeTurn o c m t) s)
  rw [ScopeEventLoop.pass] at hgoes ⊢
  rw [tracePass]
  dsimp only at hgoes ⊢
  split
  next => exact hsame
  next hbroken =>
    rw [if_neg hbroken] at hgoes
    cases hw : (lifeTurn o c m t).waitForDebugEvent with
    | event e origin =>
        rw [hw] at hgoes
        exact alive_event hsame hgoes
    | timeout => exact hsame
    | failed => exact hsame.same rfl

/-! ## The whole run -/

/-- **THE INVARIANT** of the runs. -/
structure Tracked (createEvent : Nat) (l : Life) (q : Ledger) : Prop where
  holds : Holds l.trace q
  alive : GoesOn l.loop → Alive l.loop l.trace
  stopEvent : l.trace.stopEvent = createEvent

variable {createEvent : Nat} {original : Target}

theorem entered_tracked {l : Life} (h : Entered original l.loop)
    (htrace : l.trace = construct createEvent) :
    Tracked createEvent l ⟨stopLive (construct createEvent), [], false, false⟩ where
  holds := htrace ▸ (construct_holds createEvent).2
  alive _ := by
    obtain ⟨processId, hsession⟩ := h.session
    rw [htrace]
    refine ⟨fun _ => ⟨⟨rfl, rfl, rfl, rfl, rfl, rfl⟩, rfl⟩, fun hne => absurd ?_ hne⟩
    rw [hsession]
    rfl
  stopEvent := htrace ▸ rfl

/-- **ONE STEP** of the loop, the target and the session. -/
theorem lifeStep_tracked {l l' : Life} {a : LifeAction} (h : Tracked createEvent l q)
    (hok : Promises l a) (hs : lifeStep options o l a = some l') :
    ∃ q', ledger.run q (lifeCalls options o l a) = some q' ∧ Tracked createEvent l' q' := by
  cases a with
  | pass t c =>
      obtain ⟨loop, hloop, hl'⟩ := Option.map_eq_some_iff.mp hs
      obtain ⟨hgoes, hpass⟩ := Option.ite_none_left_eq_some.mp hloop
      have hon : GoesOn l.loop := by
        rw [not_or, Bool.not_eq_true, Bool.not_eq_true] at hgoes
        exact hgoes
      have halive := h.alive hon
      have hsound : Sound q l.trace.stopEvent
          (tracePass options o (lifeTurn o c l.trace t) c l.loop l.trace) :=
        sound_pass h.holds halive hok
      obtain ⟨q', hrun, hholds, hstop⟩ := hsound
      rw [← hl', ← Option.some.inj hpass]
      exact ⟨q', hrun, hholds, alive_pass halive, hstop.trans h.stopEvent⟩
  | targetRuns memory activeHookCalls =>
      cases hs
      exact ⟨q, rfl, h.holds, fun hgoes => (h.alive hgoes).same rfl, h.stopEvent⟩

/-- A thread uses only what is open. -/
def Ledger.Safe (q : Ledger) : Prop := ∀ w ∈ q.workers, ∀ r ∈ w.2, r ∈ q.live

theorem accept_safe {call : LifeCall} {q' : Ledger} (h : q.Safe)
    (haccept : ledger.accept q call = some q') : q'.Safe := by
  cases call with
  | acquire r =>
      obtain ⟨-, hq⟩ := Option.ite_none_left_eq_some.mp haccept
      cases hq
      exact fun w hw x hx => List.mem_cons_of_mem _ (h w hw x hx)
  | release r =>
      obtain ⟨hidle, hq⟩ := Option.ite_none_right_eq_some.mp haccept
      cases hq
      intro w hw x hx
      have hunused : r ∉ w.2 := by
        simp only [Ledger.idle, Bool.decide_and, Bool.and_eq_true, decide_eq_true_eq,
          List.all_eq_true] at hidle
        exact hidle.2 w hw
      have hne : x ≠ r := by
        rintro rfl
        exact hunused hx
      exact (List.mem_erase_of_ne hne).mpr (h w hw x hx)
  | spawn w uses =>
      obtain ⟨⟨-, huses⟩, hq⟩ := Option.ite_none_right_eq_some.mp haccept
      cases hq
      intro x hx
      rcases List.mem_cons.mp hx with rfl | hx
      · exact huses
      · exact h x hx
  | join w =>
      obtain ⟨-, hq⟩ := Option.ite_none_right_eq_some.mp haccept
      cases hq
      exact fun x hx => h x (List.mem_filter.mp hx).1
  | use r =>
      obtain ⟨-, hq⟩ := Option.ite_none_right_eq_some.mp haccept
      cases hq
      exact h
  | _ =>
      obtain ⟨-, hq⟩ := Option.ite_none_right_eq_some.mp haccept
      cases hq
      exact h

/-- **THE END** of the session: `Stop` where the loop calls it, and the
    destructor. -/
theorem finish_released {l : Life} (h : Holds l.trace q) :
    ∃ q', ledger.run q (finish l) = some q' ∧ q'.live = [] ∧ q'.workers = [] ∧
      q'.printed = l.trace.started := by
  rw [finish]
  split
  next => exact destruct_released h
  next =>
    obtain ⟨q₁, hrun, hholds, -, -, hstarted, -⟩ := stop_holds h
    obtain ⟨q₂, hrun', hlive, hworkers, hprinted⟩ := destruct_released hholds
    exact ⟨q₂, by rw [run_append hrun, hrun'], hlive, hworkers, hprinted.trans hstarted⟩

/-- The loop does what it does without its trace session. -/
theorem loop_of_life {l : Life} {ok : Life → LifeAction → Prop}
    (h : ReachableIf (lifeSystem options o original createEvent) ok l) :
    Reachable (eventLoop options original) l.loop := by
  refine ReachableIf.project (M := lifeSystem options o original createEvent)
    (N := eventLoop options original) Life.loop ?_ ?_ h
  · intro l h0
    exact h0.1
  rintro l a l' - hs
  cases a with
  | pass t c =>
      obtain ⟨loop, hloop, hl'⟩ := Option.map_eq_some_iff.mp hs
      exact Or.inr ⟨.pass (lifeTurn o c l.trace t), trivial, hl' ▸ hloop⟩
  | targetRuns memory activeHookCalls =>
      cases hs
      exact Or.inr ⟨.targetRuns memory activeHookCalls, trivial, rfl⟩

/-- **NOTHING IS LEFT BEHIND**, and nothing is gone while it is used. -/
theorem trace_session_released {p : Life × List LifeCall}
    (h : ReachableIf ((lifeSystem options o original createEvent).traced (lifeCalls options o))
      (fun p a => Promises p.1 a) p) :
    (∃ q, ledger.run emptyLedger (opening createEvent ++ p.2) = some q ∧ q.Safe ∧
      q.live = ringLive p.1.trace ++ stopLive p.1.trace ∧ q.workers = workersOf p.1.trace ∧
      (GoesOn p.1.loop → p.1.loop.d.session.hookImageBase ≠ 0 →
        ∀ w, w ≠ .footer → ∃ x ∈ q.workers, x.1 = w)) ∧
    (p.1.loop.finished = true ∨ p.1.loop.broken = true → ∃ q,
      ledger.run emptyLedger (opening createEvent ++ (p.2 ++ finish p.1)) = some q ∧
        q.live = [] ∧ q.workers = [] ∧ q.printed = p.1.trace.started) ∧
    (∀ t c d image, d.session.hookImageBase = image →
      (start o c (startWrites (lifeTurn o c p.1.trace t).env image) p.1.trace).1
        = (traceStart (lifeTurn o c p.1.trace t).env d).1) ∧
    Reachable (eventLoop options original) p.1.loop := by
  obtain ⟨q, hrun, htracked⟩ := @accepted_reachable _ _ _ _ ledger
    ⟨stopLive (construct createEvent), [], false, false⟩
    (lifeSystem options o original createEvent) (lifeCalls options o) Promises
    (Tracked createEvent) (fun l h0 => entered_tracked h0.1 h0.2)
    (fun l a l' q₁ hq₁ hok hs => lifeStep_tracked hq₁ hok hs) p h
  have hopening : ledger.run emptyLedger (opening createEvent)
      = some ⟨stopLive (construct createEvent), [], false, false⟩ :=
    (construct_holds createEvent).1
  have hall : ledger.run emptyLedger (opening createEvent ++ p.2) = some q := by
    rw [run_append hopening, hrun]
  refine ⟨⟨q, hall, ?_, htracked.holds.live, htracked.holds.workers, ?_⟩, ?_,
    fun t c d image himage => start_result himage o c p.1.trace, ?_⟩
  · have hempty : emptyLedger.Safe := by
      intro w hw
      cases hw
    exact run_invariant Ledger.Safe (fun q call q' hq haccept => accept_safe hq haccept) hempty
      hall
  · intro hgoes himage w hw
    obtain ⟨hreader, hwriter⟩ := (htracked.alive hgoes).mapped himage
    rw [htracked.holds.workers, workersOf, hreader, hwriter]
    cases w with
    | reader => simp
    | writer => simp
    | footer => exact absurd rfl hw
  · intro _
    obtain ⟨q', hfinish, hreleased⟩ := finish_released htracked.holds
    refine ⟨q', ?_, hreleased⟩
    rw [run_append hopening, run_append hrun, hfinish]
  · exact loop_of_life (reachable_of_traced h)

/-- A pass in which every call succeeds, with a ring of its own. -/
def samplePass (stopRequested : Bool) (w : Wait) : LifeAction :=
  .pass ⟨stopRequested, true, w, sampleEnvironment 0x900100, true, true⟩
    ⟨fun _ => true, true, 12, 0x70000, some ⟨0x50000, 0x1000⟩, 16, some 4⟩

/-- The start of the target, its first breakpoint, and a stop by the user. -/
def tracedRun : List LifeAction :=
  [samplePass false
      (.event ⟨1, 7, .createProcess 0x400000 (wideName "a.exe") 5 6 7⟩ .target),
    samplePass false (.event ⟨1, 7, .exception exceptionBreakpoint⟩ .loader), samplePass true .timeout,
    samplePass true (.event ⟨1, 8, .exception exceptionBreakpoint⟩ .request)]

theorem trace_session_released_stopped : ∃ p : Life × List LifeCall,
    p.1.loop.finished = true ∧ LifeCall.printSummary ∈ p.2 ∧ ∃ q,
      ledger.run emptyLedger (opening 8 ++ (p.2 ++ finish p.1)) = some q ∧
        q.live = [] ∧ q.workers = [] ∧ q.printed = p.1.trace.started := by
  let o : TraceOutputOptions := ⟨.text, [], false, .auto, .auto⟩
  let M := (lifeSystem [openHook] o sampleWorld.d.target 8).traced (lifeCalls [openHook] o)
  let start : Life := ⟨⟨sampleWorld.d, false, 1, false, false, 0, false⟩, construct 8⟩
  have hexec : (M.execWhile (fun p a => decide (Promises p.1 a)) (start, []) tracedRun).map
      (fun p => p.1.loop.finished && decide (LifeCall.printSummary ∈ p.2)) = some true := by
    decide
  obtain ⟨p, hp, hdone⟩ := Option.map_eq_some_iff.mp hexec
  simp only [Bool.and_eq_true, decide_eq_true_eq] at hdone
  have hstart : ReachableIf M (fun p a => Promises p.1 a) (start, []) :=
    .init ⟨⟨⟨⟨1, rfl⟩, rfl, rfl, rfl, rfl, rfl, rfl⟩, rfl⟩, rfl⟩
  have hr := hstart.execWhile (fun _ _ => of_decide_eq_true) _ hp
  exact ⟨p, hdone.1, hdone.2, (trace_session_released hr).2.1 (Or.inl hdone.1)⟩

end ScopeLifetime
