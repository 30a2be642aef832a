import ApiScope.RingProofs

/-! # The trace session — ReaderLoop and WriterLoop

    `trace_session.cpp`: the reader moves events from the ring to a bounded
    queue and sleeps on two events when the ring is empty; the writer takes
    them from the queue.  A critical section of `queueMutex_` is one step,
    because nothing inside it blocks except the condition variable, which
    releases the mutex; a condition wait ends by a notification or
    spuriously.  The target's threads run on the ring underneath.

    The validity check of `queueEvent` is a parameter here: no result of this
    file depends on which events it accepts. -/

namespace ScopeSession

open ScopeProtocol ScopeTransition ScopeRing

def traceEventQueueCapacity : Nat := 16384
def traceRingReadBatch : Nat := 256

/-- Where the reader thread is in `ReaderLoop`. -/
inductive Reader where
  /-- Inside `TryReadRing`, after `eventsRead` events of the batch. -/
  | reading (stopping : Bool) (eventsRead : Nat)
  /-- `queueEvent`: the validity check. -/
  | checking (stopping : Bool) (eventsRead : Nat) (event : TraceEvent)
  /-- `queueEvent`: about to lock the queue. -/
  | pushing (stopping : Bool) (eventsRead : Nat) (event : TraceEvent)
  /-- `queueEvent`: asleep on `queueNotFull_`. -/
  | pushBlocked (stopping : Bool) (eventsRead : Nat) (event : TraceEvent)
  /-- `queueEvent`: `queueNotEmpty_.notify_one()`. -/
  | notifying (stopping : Bool) (eventsRead : Nat)
  /-- `reportDroppedEvents()`. -/
  | reporting (stopping : Bool) (eventsRead : Nat)
  /-- The exchange of `wakePending` with 0. -/
  | clearing (stopping : Bool)
  /-- Inside the second `TryReadRing`. -/
  | rereading (stopping : Bool)
  /-- Inside `WaitForMultipleObjects`. -/
  | waiting
  /-- `readerFinished_ = true` under the lock. -/
  | finishing
  /-- `queueNotEmpty_.notify_all()`. -/
  | announcing
  | done

/-- Where the writer thread is in `WriterLoop`. -/
inductive Writer where
  /-- About to lock the queue. -/
  | popping
  /-- Asleep on `queueNotEmpty_`. -/
  | popBlocked
  /-- `queueNotFull_.notify_one()`. -/
  | notifying (event : TraceEvent)
  /-- The tracker calls and `RenderEvent`. -/
  | handling (event : TraceEvent)
  | done

/-- The two threads of the controller over the ring and the target. -/
structure Session (T : Type) where
  target : RingState T
  reader : Reader
  writer : Writer
  eventQueue : List TraceEvent
  readerFinished : Bool
  /-- `stopEvent_`, a manual-reset event. -/
  stopEvent : Bool
  reportedDroppedCount : UInt32

inductive SessionAction (T : Type) where
  /-- A step of the target, or of the handles the controller gave it. -/
  | target (a : RingAction T)
  | reader
  | readByte (i : Nat)
  | waitFails
  | writer
  /-- A spurious wake-up of a condition wait. -/
  | wakeReader
  | wakeWriter
  /-- `SetEvent(stopEvent_)` in `Stop` and `Drain`. -/
  | requestStop

/-- The head of the batch loop. -/
def nextRead (stopping : Bool) (eventsRead : Nat) : Reader :=
  if eventsRead < traceRingReadBatch then .reading stopping eventsRead
  else .reporting stopping eventsRead

/-- After a `TryReadRing` of the batch. -/
def afterRead (stopping : Bool) (eventsRead : Nat) : Option TraceEvent → Reader
  | none => .reporting stopping eventsRead
  | some e => .checking stopping (eventsRead + 1) e

/-- After the `TryReadRing` that follows the exchange. -/
def afterReread (stopping : Bool) : Option TraceEvent → Reader
  | none => if stopping then .finishing else .waiting
  | some e => .checking stopping 0 e

/-- A notification moves a sleeping writer to the lock. -/
def Writer.notified : Writer → Writer
  | .popBlocked => .popping
  | w => w

/-- A notification moves a sleeping reader to the lock. -/
def Reader.notified : Reader → Reader
  | .pushBlocked stopping n e => .pushing stopping n e
  | r => r

/-- The actions of the target's threads and of the export writes. -/
def ofTarget {T : Type} : RingAction T → Bool
  | .emit _ _ => true
  | .producer _ => true
  | .copyByte _ _ => true
  | .setEvent _ _ => true
  | .setExports _ => true
  | _ => false

variable {T : Type} [DecidableEq T]

/-- One operation of `TryReadRing` inside the reader thread; `after` is where
    the reader goes with the result of the call. -/
def tryReadStep (s : Session T) (after : Option TraceEvent → Reader) :
    Option (Session T) :=
  (consumerStep s.target.ring s.target.consumer).map fun (r, c, result) =>
    { s with
      target := { s.target with ring := r, consumer := c }
      reader := match result with
        | none => s.reader
        | some result => after result }

variable (valid : TraceEvent → Bool)

def readerStep (s : Session T) : Option (Session T) :=
  match s.reader with
  | .reading stopping n => tryReadStep s (afterRead stopping n)
  | .checking stopping n e =>
      if valid e then some { s with reader := .pushing stopping n e }
      else some { s with reader := nextRead stopping n }
  | .pushing stopping n e =>
      if s.eventQueue.length < traceEventQueueCapacity then
        some { s with
          eventQueue := s.eventQueue ++ [e]
          reader := .notifying stopping n }
      else some { s with reader := .pushBlocked stopping n e }
  | .pushBlocked _ _ _ => none
  | .notifying stopping n =>
      some { s with writer := s.writer.notified, reader := nextRead stopping n }
  | .reporting stopping n =>
      let droppedCount := s.target.ring.droppedEvents
      let reported :=
        if s.reportedDroppedCount < droppedCount then droppedCount
        else s.reportedDroppedCount
      some { s with
        reportedDroppedCount := reported
        reader := if n ≠ 0 then nextRead stopping 0 else .clearing stopping }
  | .clearing stopping =>
      (ringStep s.target .clearWakePending).map fun target =>
        { s with target := target, reader := .rereading stopping }
  | .rereading stopping => tryReadStep s (afterReread stopping)
  | .waiting =>
      -- the lowest signalled handle decides
      if s.target.wakeEvent then
        (ringStep s.target .takeWakeEvent).map fun target =>
          { s with target := target, reader := nextRead false 0 }
      else if s.stopEvent then some { s with reader := nextRead true 0 }
      else none
  | .finishing => some { s with readerFinished := true, reader := .announcing }
  | .announcing => some { s with writer := s.writer.notified, reader := .done }
  | .done => none

def writerStep (s : Session T) : Option (Session T) :=
  match s.writer with
  | .popping =>
      match s.eventQueue with
      | e :: rest => some { s with eventQueue := rest, writer := .notifying e }
      | [] =>
          if s.readerFinished then some { s with writer := .done }
          else some { s with writer := .popBlocked }
  | .popBlocked => none
  | .notifying e => some { s with reader := s.reader.notified, writer := .handling e }
  | .handling _ => some { s with writer := .popping }
  | .done => none

def sessionStep (s : Session T) : SessionAction T → Option (Session T)
  | .target a =>
      if ofTarget a then
        (ringStep s.target a).map fun target => { s with target := target }
      else none
  | .reader => readerStep valid s
  | .readByte i =>
      (ringStep s.target (.readByte i)).map fun target => { s with target := target }
  | .waitFails =>
      match s.reader with
      | .waiting => some { s with reader := .finishing }
      | _ => none
  | .writer => writerStep s
  | .wakeReader => some { s with reader := s.reader.notified }
  | .wakeWriter => some { s with writer := s.writer.notified }
  | .requestStop => some { s with stopEvent := true }

/-- The session as `ConfigureTransport` starts it. -/
def SessionInit (s : Session T) : Prop :=
  RingInit s.target ∧ s.reader = nextRead false 0 ∧ s.writer = .popping ∧
    s.eventQueue = [] ∧ s.readerFinished = false ∧ s.stopEvent = false ∧
    s.reportedDroppedCount = 0

def sessionSystem (T : Type) [DecidableEq T] : System (Session T) (SessionAction T) where
  init := SessionInit
  step := sessionStep valid

/-! ## What a step can do -/

/-- The call of `TryReadRing` a reader is in: where each result leads. -/
def Reader.call : Reader → Option (Option TraceEvent → Reader)
  | .reading stopping n => some (afterRead stopping n)
  | .rereading stopping => some (afterReread stopping)
  | _ => none

inductive SessionStep (s : Session T) : SessionAction T → Session T → Prop where
  | target {a target'} (ha : ofTarget a = true)
      (hs : ringStep s.target a = some target') :
      SessionStep s (.target a) { s with target := target' }
  | copy {i target'} (hs : ringStep s.target (.readByte i) = some target') :
      SessionStep s (.readByte i) { s with target := target' }
  | readOn {after r c} (hr : s.reader.call = some after)
      (hc : consumerStep s.target.ring s.target.consumer = some (r, c, none)) :
      SessionStep s .reader
        { s with target := { s.target with ring := r, consumer := c } }
  | readReturn {after r c result} (hr : s.reader.call = some after)
      (hc : consumerStep s.target.ring s.target.consumer = some (r, c, some result)) :
      SessionStep s .reader
        { s with
          target := { s.target with ring := r, consumer := c }
          reader := after result }
  | accept {stopping n e} (hr : s.reader = .checking stopping n e)
      (hv : valid e = true) :
      SessionStep s .reader { s with reader := .pushing stopping n e }
  | ignore {stopping n e} (hr : s.reader = .checking stopping n e)
      (hv : valid e = false) :
      SessionStep s .reader { s with reader := nextRead stopping n }
  | push {stopping n e} (hr : s.reader = .pushing stopping n e)
      (hroom : s.eventQueue.length < traceEventQueueCapacity) :
      SessionStep s .reader
        { s with
          eventQueue := s.eventQueue ++ [e]
          reader := .notifying stopping n }
  | pushBlock {stopping n e} (hr : s.reader = .pushing stopping n e)
      (hfull : traceEventQueueCapacity ≤ s.eventQueue.length) :
      SessionStep s .reader { s with reader := .pushBlocked stopping n e }
  | notify {stopping n} (hr : s.reader = .notifying stopping n) :
      SessionStep s .reader
        { s with writer := s.writer.notified, reader := nextRead stopping n }
  | report {stopping n reported} (hr : s.reader = .reporting stopping n) :
      SessionStep s .reader
        { s with
          reportedDroppedCount := reported
          reader := if n ≠ 0 then nextRead stopping 0 else .clearing stopping }
  | clear {stopping} (hr : s.reader = .clearing stopping) :
      SessionStep s .reader
        { s with
          target := { s.target with ring := { s.target.ring with wakePending := false } }
          reader := .rereading stopping }
  | wake (hr : s.reader = .waiting) (hw : s.target.wakeEvent = true) :
      SessionStep s .reader
        { s with
          target := { s.target with wakeEvent := false }
          reader := nextRead false 0 }
  | stop (hr : s.reader = .waiting) (hw : s.target.wakeEvent = false)
      (hstop : s.stopEvent = true) :
      SessionStep s .reader { s with reader := nextRead true 0 }
  | finish (hr : s.reader = .finishing) :
      SessionStep s .reader
        { s with readerFinished := true, reader := .announcing }
  | announce (hr : s.reader = .announcing) :
      SessionStep s .reader
        { s with writer := s.writer.notified, reader := .done }
  | waitFail (hr : s.reader = .waiting) :
      SessionStep s .waitFails { s with reader := .finishing }
  | pop {e rest} (hw : s.writer = .popping) (hq : s.eventQueue = e :: rest) :
      SessionStep s .writer { s with eventQueue := rest, writer := .notifying e }
  | popEnd (hw : s.writer = .popping) (hq : s.eventQueue = [])
      (hfin : s.readerFinished = true) :
      SessionStep s .writer { s with writer := .done }
  | popBlock (hw : s.writer = .popping) (hq : s.eventQueue = [])
      (hfin : s.readerFinished = false) :
      SessionStep s .writer { s with writer := .popBlocked }
  | notifyReader {e} (hw : s.writer = .notifying e) :
      SessionStep s .writer
        { s with reader := s.reader.notified, writer := .handling e }
  | handled {e} (hw : s.writer = .handling e) :
      SessionStep s .writer { s with writer := .popping }
  | spuriousReader : SessionStep s .wakeReader { s with reader := s.reader.notified }
  | spuriousWriter : SessionStep s .wakeWriter { s with writer := s.writer.notified }
  | requestStop : SessionStep s .requestStop { s with stopEvent := true }

private theorem tryRead_cases {s s' : Session T} {after : Option TraceEvent → Reader}
    (hr : s.reader.call = some after) (h : tryReadStep s after = some s') :
    SessionStep valid s .reader s' := by
  rw [tryReadStep] at h
  obtain ⟨⟨r, c, result⟩, hc, rfl⟩ := Option.map_eq_some_iff.mp h
  cases result with
  | none => exact .readOn hr hc
  | some result => exact .readReturn hr hc

private theorem reader_cases {s s' : Session T}
    (h : readerStep valid s = some s') : SessionStep valid s .reader s' := by
  rw [readerStep] at h
  cases hr : s.reader with
  | reading stopping n =>
      rw [hr] at h
      exact tryRead_cases valid (by rw [hr]; rfl) h
  | rereading stopping =>
      rw [hr] at h
      exact tryRead_cases valid (by rw [hr]; rfl) h
  | checking stopping n e =>
      simp only [hr] at h
      cases hv : valid e with
      | true =>
          rw [hv] at h
          cases h
          exact .accept hr hv
      | false =>
          rw [hv] at h
          cases h
          exact .ignore hr hv
  | pushing stopping n e =>
      simp only [hr] at h
      by_cases hq : s.eventQueue.length < traceEventQueueCapacity
      · rw [if_pos hq] at h
        cases h
        exact .push hr hq
      · rw [if_neg hq] at h
        cases h
        exact .pushBlock hr (Nat.le_of_not_lt hq)
  | pushBlocked stopping n e =>
      rw [hr] at h
      cases h
  | notifying stopping n =>
      rw [hr] at h
      cases h
      exact .notify hr
  | reporting stopping n =>
      rw [hr] at h
      cases h
      exact .report hr
  | clearing stopping =>
      rw [hr] at h
      cases h
      exact .clear hr
  | waiting =>
      simp only [hr] at h
      by_cases hw : s.target.wakeEvent = true
      · rw [if_pos hw, ringStep, if_pos hw] at h
        cases h
        exact .wake hr hw
      · rw [if_neg hw] at h
        by_cases hstop : s.stopEvent = true
        · rw [if_pos hstop] at h
          cases h
          exact .stop hr (Bool.eq_false_iff.mpr hw) hstop
        · rw [if_neg hstop] at h
          cases h
  | finishing =>
      rw [hr] at h
      cases h
      exact .finish hr
  | announcing =>
      rw [hr] at h
      cases h
      exact .announce hr
  | done =>
      rw [hr] at h
      cases h

private theorem writer_cases {s s' : Session T} (h : writerStep s = some s') :
    SessionStep valid s .writer s' := by
  rw [writerStep] at h
  cases hw : s.writer with
  | popping =>
      simp only [hw] at h
      split at h
      next e rest hq =>
        cases h
        exact .pop hw hq
      next hq =>
        by_cases hfin : s.readerFinished = true
        · rw [if_pos hfin] at h
          cases h
          exact .popEnd hw hq hfin
        · rw [if_neg hfin] at h
          cases h
          exact .popBlock hw hq (Bool.eq_false_iff.mpr hfin)
  | popBlocked =>
      rw [hw] at h
      cases h
  | notifying e =>
      rw [hw] at h
      cases h
      exact .notifyReader hw
  | handling e =>
      rw [hw] at h
      cases h
      exact .handled hw
  | done =>
      rw [hw] at h
      cases h

/-- **STEP INVERSION** for the session. -/
theorem sessionStep_cases {s s' : Session T} {a : SessionAction T}
    (h : sessionStep valid s a = some s') : SessionStep valid s a s' := by
  cases a with
  | target a =>
      rw [sessionStep] at h
      by_cases ha : ofTarget a = true
      · rw [if_pos ha] at h
        obtain ⟨target', hs, rfl⟩ := Option.map_eq_some_iff.mp h
        exact .target ha hs
      · rw [if_neg ha] at h
        cases h
  | reader => exact reader_cases valid h
  | readByte i =>
      obtain ⟨target', hs, rfl⟩ := Option.map_eq_some_iff.mp h
      exact .copy hs
  | waitFails =>
      rw [sessionStep] at h
      cases hr : s.reader <;> rw [hr] at h
      case waiting =>
        cases h
        exact .waitFail hr
      all_goals cases h
  | writer => exact writer_cases valid h
  | wakeReader =>
      cases h
      exact .spuriousReader
  | wakeWriter =>
      cases h
      exact .spuriousWriter
  | requestStop =>
      cases h
      exact .requestStop

/-! ## The ring underneath

    A session step is a step of the ring or leaves it alone, so whatever holds
    of the reachable states of the ring holds under the session. -/

theorem consumer_of_tryRead {s : Session T} {r : TraceRing} {c : Consumer}
    {result : Option (Option TraceEvent)}
    (hc : consumerStep s.target.ring s.target.consumer = some (r, c, result)) :
    ringStep s.target .consumer
      = some { s.target with ring := r, consumer := c } := by
  rw [ringStep, hc]
  rfl

theorem session_ring {s s' : Session T} {a : SessionAction T}
    (h : sessionStep valid s a = some s') :
    s'.target = s.target ∨ ∃ b, ringStep s.target b = some s'.target := by
  cases sessionStep_cases valid h with
  | target ha hs => exact Or.inr ⟨_, hs⟩
  | copy hs => exact Or.inr ⟨_, hs⟩
  | readOn hr hc => exact Or.inr ⟨.consumer, consumer_of_tryRead hc⟩
  | readReturn hr hc => exact Or.inr ⟨.consumer, consumer_of_tryRead hc⟩
  | clear => exact Or.inr ⟨.clearWakePending, rfl⟩
  | wake hr hw =>
      refine Or.inr ⟨.takeWakeEvent, ?_⟩
      rw [ringStep, if_pos hw]
  | _ => exact Or.inl rfl

/-- The ring of a reachable session is a reachable ring. -/
theorem ring_of_session {ok : Session T → SessionAction T → Prop} {s : Session T}
    (h : ReachableIf (sessionSystem valid T) ok s) :
    Reachable (ringSystem T) s.target := by
  refine h.project (N := ringSystem T) Session.target ?_ ?_
  · intro s h0
    exact h0.1
  intro s a s' _ hs
  rcases session_ring valid hs with heq | ⟨b, hb⟩
  · exact Or.inl heq
  · exact Or.inr ⟨b, trivial, hb⟩

/-! ## A start -/

def startSession (T : Type) : Session T where
  target := startState T
  reader := nextRead false 0
  writer := .popping
  eventQueue := []
  readerFinished := false
  stopEvent := false
  reportedDroppedCount := 0

theorem startSession_init (T : Type) : SessionInit (startSession T) :=
  ⟨startState_init T, rfl, rfl, rfl, rfl, rfl, rfl⟩

end ScopeSession
