import ApiScope.TraceSessionProofs
import ApiScope.RingDeliveryProofs

/-! # Hand-off — from the ring to the renderer

    `ReaderLoop` and `WriterLoop` share a bounded queue.  The history of a run
    records what the two loops do: every return of `TryReadRing`, the clearing
    of `wakePending`, the stop the reader sees, and the events the writer has
    handled.

    `HandOff` accounts for every event that was read: it is rendered, in the
    writer's hands, in the queue or in the reader's hands, and the order is
    the one of the ring.  `ReaderLog` says how the reader leaves its loop.
    Both hold in every run in which the wait does not fail, and neither
    depends on which events the validity check accepts. -/

namespace ScopeSession

open ScopeProtocol ScopeTransition ScopeRing

/-! ## Histories -/

/-- What an observer sees of one step of the session. -/
inductive SessionEvent (T : Type) where
  /-- A step of the ring underneath. -/
  | ring (v : RingEvent T)
  /-- `SetEvent(stopEvent_)`. -/
  | stopRequested
  /-- `TryReadRing` returns, with an event or without. -/
  | read (result : Option TraceEvent)
  /-- The exchange of `wakePending` with 0. -/
  | cleared
  /-- The wait of the reader returns for `stopEvent_`. -/
  | stopSeen
  /-- The writer has handled an event. -/
  | rendered (event : TraceEvent)

variable {T : Type}

/-- What a call of `TryReadRing` that ends with this operation shows. -/
def readObserve (s : Session T) : List (SessionEvent T) :=
  match consumerStep s.target.ring s.target.consumer with
  | some (_, _, some result) => [.read result]
  | _ => []

/-- What a step shows. -/
def sessionObserve (s : Session T) : SessionAction T → List (SessionEvent T)
  | .target a => (observe s.target a).map .ring
  | .reader =>
      match s.reader with
      | .reading _ _ => (observe s.target .consumer).map .ring ++ readObserve s
      | .rereading _ => (observe s.target .consumer).map .ring ++ readObserve s
      | .clearing _ => [.cleared]
      | .waiting => if s.target.wakeEvent then [] else [.stopSeen]
      | _ => []
  | .writer =>
      match s.writer with
      | .handling e => [.rendered e]
      | _ => []
  | .requestStop => [.stopRequested]
  | _ => []

variable (valid : TraceEvent → Bool)

/-- The session with its history. -/
def tracedSession (T : Type) [DecidableEq T] :
    System (Session T × List (SessionEvent T)) (SessionAction T) :=
  (sessionSystem valid T).traced sessionObserve

/-- The wait of the reader does not fail. -/
def WaitWorks (_ : Session T) (a : SessionAction T) : Prop := a ≠ .waitFails

namespace SessionEvent

def asRead : SessionEvent T → Option TraceEvent
  | .read result => result
  | _ => none

def asRendered : SessionEvent T → Option TraceEvent
  | .rendered e => some e
  | _ => none

def ofReader : SessionEvent T → Bool
  | .read _ => true
  | .cleared => true
  | .stopSeen => true
  | _ => false

end SessionEvent

/-- The events `TryReadRing` has returned, in order. -/
def reads (h : List (SessionEvent T)) : List TraceEvent := h.filterMap SessionEvent.asRead

/-- The events the writer has handled, in order. -/
def renders (h : List (SessionEvent T)) : List TraceEvent :=
  h.filterMap SessionEvent.asRendered

/-- What the reader has done, in order. -/
def readerLog (h : List (SessionEvent T)) : List (SessionEvent T) :=
  h.filter SessionEvent.ofReader

theorem reads_append (h o : List (SessionEvent T)) :
    reads (h ++ o) = reads h ++ reads o := List.filterMap_append

theorem renders_append (h o : List (SessionEvent T)) :
    renders (h ++ o) = renders h ++ renders o := List.filterMap_append

theorem readerLog_append (h o : List (SessionEvent T)) :
    readerLog (h ++ o) = readerLog h ++ readerLog o := List.filter_append _ _

theorem reads_ring (l : List (RingEvent T)) : reads (l.map .ring) = [] := by
  induction l with
  | nil => rfl
  | cons v l ih => exact ih

theorem renders_ring (l : List (RingEvent T)) : renders (l.map .ring) = [] := by
  induction l with
  | nil => rfl
  | cons v l ih => exact ih

theorem readerLog_ring (l : List (RingEvent T)) : readerLog (l.map .ring) = [] := by
  induction l with
  | nil => rfl
  | cons v l ih => exact ih

/-! ## Who holds what -/

/-- The event the writer has taken and not handled yet. -/
def Writer.held : Writer → List TraceEvent
  | .notifying e => [e]
  | .handling e => [e]
  | _ => []

/-- The event the reader is queuing, if the check accepts it. -/
def Reader.queuing : Reader → List TraceEvent
  | .checking _ _ e => [e].filter valid
  | .pushing _ _ e => [e]
  | .pushBlocked _ _ e => [e]
  | _ => []

def Reader.stopping : Reader → Bool
  | .reading stopping _ => stopping
  | .checking stopping _ _ => stopping
  | .pushing stopping _ _ => stopping
  | .pushBlocked stopping _ _ => stopping
  | .notifying stopping _ => stopping
  | .reporting stopping _ => stopping
  | .clearing stopping => stopping
  | .rereading stopping => stopping
  | _ => false

/-- The reader has left its loop. -/
def Reader.left : Reader → Bool
  | .finishing => true
  | .announcing => true
  | .done => true
  | _ => false

theorem nextRead_queuing (stopping : Bool) (n : Nat) :
    (nextRead stopping n).queuing valid = [] := by
  rw [nextRead]
  split <;> rfl

theorem nextRead_stopping (stopping : Bool) (n : Nat) :
    (nextRead stopping n).stopping = stopping := by
  rw [nextRead]
  split <;> rfl

theorem nextRead_left (stopping : Bool) (n : Nat) : (nextRead stopping n).left = false := by
  rw [nextRead]
  split <;> rfl

theorem nextRead_ne_rereading (stopping : Bool) (n : Nat) (st : Bool) :
    nextRead stopping n ≠ .rereading st := by
  rw [nextRead]
  split <;> nofun

/-- A notification wakes a writer and changes nothing else about it. -/
theorem notified_writer (w : Writer) :
    w.notified ≠ .popBlocked ∧ (w.notified = .done → w = .done) ∧
      ∀ e, w = .notifying e → w.notified = .notifying e := by
  cases w with
  | popBlocked => exact ⟨nofun, nofun, nofun⟩
  | popping => exact ⟨nofun, nofun, nofun⟩
  | notifying e => exact ⟨nofun, nofun, fun _ h => h⟩
  | handling e => exact ⟨nofun, nofun, nofun⟩
  | done => exact ⟨nofun, fun _ => rfl, nofun⟩

theorem notified_reader (r : Reader) :
    (∀ stopping n e, r.notified ≠ .pushBlocked stopping n e) ∧
      (∀ stopping n, r = .notifying stopping n → r.notified = .notifying stopping n) ∧
      (r = .announcing → r.notified = .announcing) ∧ (r = .done → r.notified = .done) := by
  cases r with
  | pushBlocked => exact ⟨nofun, nofun, nofun, nofun⟩
  | notifying => exact ⟨nofun, fun _ _ h => h, nofun, nofun⟩
  | announcing => exact ⟨nofun, nofun, fun h => h, nofun⟩
  | done => exact ⟨nofun, nofun, nofun, fun h => h⟩
  | _ => exact ⟨nofun, nofun, nofun, nofun⟩

theorem notified_queuing (r : Reader) : r.notified.queuing valid = r.queuing valid := by
  cases r <;> rfl

theorem notified_held (w : Writer) : w.notified.held = w.held := by
  cases w <;> rfl

/-- Where every event is that `TryReadRing` has returned. -/
structure HandOff (s : Session T) (h : List (SessionEvent T)) : Prop where
  exact : renders h ++ (s.writer.held ++ (s.eventQueue ++ s.reader.queuing valid))
    = (reads h).filter valid
  bounded : s.eventQueue.length ≤ traceEventQueueCapacity
  finished : s.readerFinished = true → s.reader = .announcing ∨ s.reader = .done
  ended : s.writer = .done → s.readerFinished = true ∧ s.eventQueue = []
  /-- A reader sleeps over a full queue, or a notification is on its way. -/
  full : ∀ stopping n e, s.reader = .pushBlocked stopping n e →
    traceEventQueueCapacity ≤ s.eventQueue.length ∨ ∃ e', s.writer = .notifying e'
  /-- A writer sleeps over an empty queue, or a notification is on its way. -/
  empty : s.writer = .popBlocked → (s.eventQueue = [] ∧ s.readerFinished = false) ∨
    (∃ stopping n, s.reader = .notifying stopping n) ∨ s.reader = .announcing

theorem handOff_init {s : Session T} (h : SessionInit s) : HandOff valid s [] := by
  obtain ⟨-, hr, hw, hq, hf, -, -⟩ := h
  refine ⟨?_, ?_, ?_, ?_, ?_, ?_⟩
  · rw [hr, hw, hq, nextRead_queuing]
    rfl
  · rw [hq]
    exact Nat.zero_le _
  · intro hfin
    rw [hf] at hfin
    cases hfin
  · intro hdone
    rw [hw] at hdone
    cases hdone
  · intro stopping n e hb
    rw [hr] at hb
    cases hb
  · intro hb
    rw [hw] at hb
    cases hb

/-- A reader that neither sleeps nor owes a notification, and has not ended. -/
def Reader.quiet : Reader → Bool
  | .pushBlocked _ _ _ => false
  | .notifying _ _ => false
  | .announcing => false
  | .done => false
  | _ => true

theorem nextRead_quiet (stopping : Bool) (n : Nat) : (nextRead stopping n).quiet = true := by
  rw [nextRead]
  split <;> rfl

/-- The reader inside a call of `TryReadRing`. -/
theorem call_cases {r : Reader} {after : Option TraceEvent → Reader}
    (h : r.call = some after) :
    (∃ stopping n, r = .reading stopping n ∧ after = afterRead stopping n) ∨
      ∃ stopping, r = .rereading stopping ∧ after = afterReread stopping := by
  cases r with
  | reading stopping n => exact Or.inl ⟨stopping, n, rfl, (Option.some.inj h).symm⟩
  | rereading stopping => exact Or.inr ⟨stopping, rfl, (Option.some.inj h).symm⟩
  | _ => cases h

/-- Where a step of the reader shows nothing. -/
def Reader.silent : Reader → Bool
  | .reading _ _ => false
  | .clearing _ => false
  | .rereading _ => false
  | .waiting => false
  | _ => true

/-- Where a step of the writer shows nothing. -/
def Writer.silent : Writer → Bool
  | .handling _ => false
  | _ => true

section Observed

variable {s : Session T}

theorem observe_reader {r : Reader} (hr : s.reader = r) (hsilent : r.silent = true) :
    sessionObserve s .reader = [] := by
  simp only [sessionObserve, hr]
  cases r with
  | reading => cases hsilent
  | clearing => cases hsilent
  | rereading => cases hsilent
  | waiting => cases hsilent
  | _ => rfl

theorem observe_clear {stopping : Bool} (hr : s.reader = .clearing stopping) :
    sessionObserve s .reader = [.cleared] := by
  simp only [sessionObserve, hr]

theorem observe_wake (hr : s.reader = .waiting) (hw : s.target.wakeEvent = true) :
    sessionObserve s .reader = [] := by
  simp only [sessionObserve, hr, hw, if_true]

theorem observe_stop (hr : s.reader = .waiting) (hw : s.target.wakeEvent = false) :
    sessionObserve s .reader = [.stopSeen] := by
  simp only [sessionObserve, hr, hw, Bool.false_eq_true, if_false]

theorem observe_writer {w : Writer} (hw : s.writer = w) (hsilent : w.silent = true) :
    sessionObserve s .writer = [] := by
  simp only [sessionObserve, hw]
  cases w with
  | handling => cases hsilent
  | _ => rfl

theorem observe_handled {e : TraceEvent} (hw : s.writer = .handling e) :
    sessionObserve s .writer = [.rendered e] := by
  simp only [sessionObserve, hw]

end Observed

theorem observe_call {s : Session T} {after : Option TraceEvent → Reader}
    (h : s.reader.call = some after) :
    sessionObserve s .reader = (observe s.target .consumer).map .ring ++ readObserve s := by
  rcases call_cases h with ⟨stopping, n, hr, -⟩ | ⟨stopping, hr, -⟩
  · simp only [sessionObserve, hr]
  · simp only [sessionObserve, hr]

theorem readObserve_on {s : Session T} {r : TraceRing} {c : Consumer}
    (h : consumerStep s.target.ring s.target.consumer = some (r, c, none)) :
    readObserve s = [] := by
  rw [readObserve, h]

theorem readObserve_return {s : Session T} {r : TraceRing} {c : Consumer}
    {result : Option TraceEvent}
    (h : consumerStep s.target.ring s.target.consumer = some (r, c, some result)) :
    readObserve s = [.read result] := by
  rw [readObserve, h]

/-- Where a returned call leads. -/
theorem after_call {r : Reader} {after : Option TraceEvent → Reader}
    (h : r.call = some after) (result : Option TraceEvent) :
    r.quiet = true ∧ r.queuing valid = [] ∧ (after result).quiet = true ∧
      (after result).queuing valid = (result.toList).filter valid := by
  rcases call_cases h with ⟨stopping, n, rfl, rfl⟩ | ⟨stopping, rfl, rfl⟩
  · cases result with
    | none => exact ⟨rfl, rfl, rfl, rfl⟩
    | some e => exact ⟨rfl, rfl, rfl, rfl⟩
  · cases result with
    | none => cases stopping <;> exact ⟨rfl, rfl, rfl, rfl⟩
    | some e => exact ⟨rfl, rfl, rfl, rfl⟩

variable {valid}

/-- A step that touches neither the loops nor the queue. -/
theorem HandOff.same {s s' : Session T} {h o : List (SessionEvent T)}
    (hi : HandOff valid s h) (hr : s'.reader = s.reader) (hw : s'.writer = s.writer)
    (hq : s'.eventQueue = s.eventQueue) (hf : s'.readerFinished = s.readerFinished)
    (hreads : reads o = []) (hrenders : renders o = []) : HandOff valid s' (h ++ o) := by
  refine ⟨?_, hq ▸ hi.bounded, ?_, ?_, ?_, ?_⟩
  · rw [hr, hw, hq, renders_append, reads_append, hreads, hrenders, List.append_nil,
      List.append_nil]
    exact hi.exact
  · rw [hf, hr]
    exact hi.finished
  · rw [hw, hf, hq]
    exact hi.ended
  · rw [hr, hq, hw]
    exact hi.full
  · rw [hw, hq, hf, hr]
    exact hi.empty

/-- A step of the reader that leaves the queue alone. -/
theorem HandOff.move {s s' : Session T} {h o : List (SessionEvent T)}
    (hi : HandOff valid s h) (hquiet : s.reader.quiet = true)
    (hquiet' : s'.reader.quiet = true) (hw : s'.writer = s.writer)
    (hq : s'.eventQueue = s.eventQueue) (hf : s'.readerFinished = s.readerFinished)
    (hrenders : renders o = [])
    (hqueuing : s'.reader.queuing valid = s.reader.queuing valid ++ (reads o).filter valid) :
    HandOff valid s' (h ++ o) := by
  refine ⟨?_, hq ▸ hi.bounded, ?_, ?_, ?_, ?_⟩
  · rw [hw, hq, hqueuing, renders_append, reads_append, hrenders, List.append_nil,
      List.filter_append, ← hi.exact]
    simp only [List.append_assoc]
  · intro hfin
    rw [hf] at hfin
    rcases hi.finished hfin with hr | hr
    · rw [hr] at hquiet
      cases hquiet
    · rw [hr] at hquiet
      cases hquiet
  · rw [hw, hf, hq]
    exact hi.ended
  · intro stopping n e hr
    rw [hr] at hquiet'
    cases hquiet'
  · intro hb
    rw [hw] at hb
    rw [hq, hf]
    rcases hi.empty hb with hempty | ⟨stopping, n, hr⟩ | hr
    · exact Or.inl hempty
    · rw [hr] at hquiet
      cases hquiet
    · rw [hr] at hquiet
      cases hquiet

/-- A reader elsewhere than at its end has not set `readerFinished_`. -/
theorem HandOff.unfinished {s : Session T} {h : List (SessionEvent T)} (hi : HandOff valid s h)
    {r : Reader} (hr : s.reader = r) (hannounce : r ≠ .announcing) (hdone : r ≠ .done) :
    ¬ s.readerFinished = true := by
  intro hfin
  rcases hi.finished hfin with hr' | hr'
  · exact hannounce (hr.symm.trans hr')
  · exact hdone (hr.symm.trans hr')

/-- A step of the writer that leaves the reader alone. -/
theorem HandOff.take {s s' : Session T} {h o : List (SessionEvent T)}
    (hi : HandOff valid s h) (hr : s'.reader = s.reader)
    (hf : s'.readerFinished = s.readerFinished) (hreads : reads o = [])
    (hheld : renders o ++ (s'.writer.held ++ s'.eventQueue) = s.writer.held ++ s.eventQueue)
    (hlength : s'.eventQueue.length ≤ s.eventQueue.length)
    (hdone : s'.writer = .done → s.readerFinished = true ∧ s'.eventQueue = [])
    (hblocked : s'.writer = .popBlocked → s'.eventQueue = [] ∧ s.readerFinished = false)
    (hfull : ∀ stopping n e, s.reader = .pushBlocked stopping n e →
      traceEventQueueCapacity ≤ s'.eventQueue.length ∨ ∃ e', s'.writer = .notifying e') :
    HandOff valid s' (h ++ o) := by
  refine ⟨?_, Nat.le_trans hlength hi.bounded, ?_, ?_, ?_, ?_⟩
  · have hexact := hi.exact
    rw [← List.append_assoc s.writer.held, ← hheld] at hexact
    rw [hr, renders_append, reads_append, hreads, List.append_nil, ← hexact]
    simp only [List.append_assoc]
  · rw [hf, hr]
    exact hi.finished
  · rw [hf]
    exact hdone
  · rw [hr]
    exact hfull
  · rw [hf]
    exact fun hb => Or.inl (hblocked hb)

variable [DecidableEq T]

/-- **HAND-OFF STEP**: every step keeps the account. -/
theorem handOff_step {s s' : Session T} {a : SessionAction T} {h : List (SessionEvent T)}
    (hi : HandOff valid s h) (hs : sessionStep valid s a = some s') :
    HandOff valid s' (h ++ sessionObserve s a) := by
  cases sessionStep_cases valid hs with
  | target ha hring => exact hi.same rfl rfl rfl rfl (reads_ring _) (renders_ring _)
  | copy hring => exact hi.same rfl rfl rfl rfl rfl rfl
  | readOn hr hc =>
      rw [observe_call hr, readObserve_on hc, List.append_nil]
      exact hi.same rfl rfl rfl rfl (reads_ring _) (renders_ring _)
  -- what was read goes to the check, or the reader goes on without
  | @readReturn after r c result hr hc =>
      rw [observe_call hr, readObserve_return hc]
      obtain ⟨hquiet, hnone, hquiet', hafter⟩ := after_call valid hr result
      refine hi.move hquiet hquiet' rfl rfl rfl ?_ ?_
      · rw [renders_append, renders_ring]
        rfl
      · rw [reads_append, reads_ring, hnone]
        refine hafter.trans ?_
        cases result <;> rfl
  | @accept stopping n e hr hv =>
      rw [observe_reader hr rfl]
      refine hi.move (by rw [hr]; rfl) rfl rfl rfl rfl rfl ?_
      rw [hr]
      show [e] = [e].filter valid ++ []
      rw [List.filter_cons, if_pos hv]
      rfl
  | @ignore stopping n e hr hv =>
      rw [observe_reader hr rfl]
      refine hi.move (by rw [hr]; rfl) (nextRead_quiet _ _) rfl rfl rfl rfl ?_
      rw [hr, nextRead_queuing]
      show [] = [e].filter valid ++ []
      rw [List.filter_cons, if_neg (Bool.eq_false_iff.mp hv)]
      rfl
  | @push stopping n e hr hroom =>
      -- the event moves from the reader to the queue; a writer that sleeps is about to be woken
      rw [observe_reader hr rfl, List.append_nil]
      have hexact := hi.exact
      rw [hr] at hexact
      refine ⟨?_, ?_, ?_, ?_, ?_, fun _ => Or.inr (Or.inl ⟨stopping, n, rfl⟩)⟩
      · rw [← hexact]
        show _ ++ (_ ++ ((s.eventQueue ++ [e]) ++ [])) = _ ++ (_ ++ (s.eventQueue ++ [e]))
        rw [List.append_nil]
      · show (s.eventQueue ++ [e]).length ≤ _
        rw [List.length_append]
        exact hroom
      · exact fun hfin => absurd hfin (hi.unfinished hr nofun nofun)
      · exact fun hdone => absurd (hi.ended hdone).1 (hi.unfinished hr nofun nofun)
      · intro _ _ _ hb
        cases hb
  | @pushBlock stopping n e hr hfull =>
      rw [observe_reader hr rfl, List.append_nil]
      have hexact := hi.exact
      rw [hr] at hexact
      refine ⟨hexact, hi.bounded, ?_, hi.ended, fun _ _ _ _ => Or.inl hfull, ?_⟩
      · exact fun hfin => absurd hfin (hi.unfinished hr nofun nofun)
      · intro hb
        rcases hi.empty hb with hempty | ⟨_, _, hr'⟩ | hr'
        · exact Or.inl hempty
        · cases hr.symm.trans hr'
        · cases hr.symm.trans hr'
  | @notify stopping n hr =>
      -- the notification is given: from here on the writer does not sleep
      rw [observe_reader hr rfl, List.append_nil]
      obtain ⟨hawake, hdone', -⟩ := notified_writer s.writer
      have hexact := hi.exact
      rw [hr] at hexact
      refine ⟨?_, hi.bounded, ?_, fun hdone => hi.ended (hdone' hdone), ?_,
        fun hb => absurd hb hawake⟩
      · dsimp only
        rw [notified_held, nextRead_queuing]
        exact hexact
      · exact fun hfin => absurd hfin (hi.unfinished hr nofun nofun)
      · intro stopping' n' e hb
        have hquiet := nextRead_quiet stopping n
        rw [show nextRead stopping n = .pushBlocked stopping' n' e from hb] at hquiet
        cases hquiet
  | @report stopping n reported hr =>
      rw [observe_reader hr rfl]
      refine hi.move (by rw [hr]; rfl) ?_ rfl rfl rfl rfl ?_
      · dsimp only
        split
        · exact nextRead_quiet _ _
        · rfl
      · rw [hr]
        dsimp only
        split
        · exact nextRead_queuing _ _ _
        · rfl
  | clear hr =>
      rw [observe_clear hr]
      exact hi.move (by rw [hr]; rfl) rfl rfl rfl rfl rfl (by rw [hr]; rfl)
  | wake hr hw =>
      rw [observe_wake hr hw]
      exact hi.move (by rw [hr]; rfl) (nextRead_quiet false 0) rfl rfl rfl rfl
        (by rw [hr, nextRead_queuing]; rfl)
  | stop hr hw hstop =>
      rw [observe_stop hr hw]
      exact hi.move (by rw [hr]; rfl) (nextRead_quiet true 0) rfl rfl rfl rfl
        (by rw [hr, nextRead_queuing]; rfl)
  | finish hr =>
      rw [observe_reader hr rfl, List.append_nil]
      have hexact := hi.exact
      rw [hr] at hexact
      exact ⟨hexact, hi.bounded, fun _ => Or.inl rfl, fun hdone => ⟨rfl, (hi.ended hdone).2⟩,
        nofun, fun _ => Or.inr (Or.inr rfl)⟩
  | announce hr =>
      rw [observe_reader hr rfl, List.append_nil]
      obtain ⟨hawake, hdone', -⟩ := notified_writer s.writer
      have hexact := hi.exact
      rw [hr] at hexact
      refine ⟨?_, hi.bounded, fun _ => Or.inr rfl, fun hdone => hi.ended (hdone' hdone),
        nofun, fun hb => absurd hb hawake⟩
      dsimp only
      rw [notified_held]
      exact hexact
  | waitFail hr =>
      exact hi.move (by rw [hr]; rfl) rfl rfl rfl rfl rfl (by rw [hr]; rfl)
  | @pop e rest hw hq =>
      rw [observe_writer hw rfl]
      refine hi.take rfl rfl rfl ?_ ?_ nofun nofun fun _ _ _ _ => Or.inr ⟨e, rfl⟩
      · rw [hw, hq]
        rfl
      · rw [hq]
        exact Nat.le_succ _
  | popEnd hw hq hfin =>
      rw [observe_writer hw rfl]
      refine hi.take rfl rfl rfl (by rw [hw]; rfl) (Nat.le_refl _) (fun _ => ⟨hfin, hq⟩) nofun ?_
      intro _ _ _ hb
      exact absurd hfin (hi.unfinished hb nofun nofun)
  | popBlock hw hq hfin =>
      rw [observe_writer hw rfl]
      refine hi.take rfl rfl rfl (by rw [hw]; rfl) (Nat.le_refl _) nofun (fun _ => ⟨hq, hfin⟩) ?_
      intro stopping n e hb
      rcases hi.full stopping n e hb with hfull | ⟨e', hw'⟩
      · exact Or.inl hfull
      · cases hw.symm.trans hw'
  | @notifyReader e hw =>
      rw [observe_writer hw rfl, List.append_nil]
      obtain ⟨hawake, -, hannounce, hdone⟩ := notified_reader s.reader
      have hexact := hi.exact
      rw [hw] at hexact
      refine ⟨?_, hi.bounded, ?_, nofun, fun stopping n e' hb => absurd hb (hawake _ _ _),
        nofun⟩
      · dsimp only
        rw [notified_queuing]
        exact hexact
      · intro hfin
        exact (hi.finished hfin).imp hannounce hdone
  | @handled e hw =>
      rw [observe_handled hw]
      refine hi.take rfl rfl rfl (by rw [hw]; rfl) (Nat.le_refl _) nofun nofun ?_
      intro stopping n e' hb
      rcases hi.full stopping n e' hb with hfull | ⟨e'', hw'⟩
      · exact Or.inl hfull
      · cases hw.symm.trans hw'
  | spuriousReader =>
      obtain ⟨hawake, hnotify, hannounce, hdone⟩ := notified_reader s.reader
      refine ⟨?_, hi.bounded, ?_, hi.ended, fun stopping n e hb => absurd hb (hawake _ _ _), ?_⟩
      · rw [show sessionObserve s .wakeReader = [] from rfl, List.append_nil]
        dsimp only
        rw [notified_queuing]
        exact hi.exact
      · intro hfin
        exact (hi.finished hfin).imp hannounce hdone
      · intro hb
        rcases hi.empty hb with hempty | ⟨stopping, n, hr⟩ | hr
        · exact Or.inl hempty
        · exact Or.inr (Or.inl ⟨stopping, n, hnotify stopping n hr⟩)
        · exact Or.inr (Or.inr (hannounce hr))
  | spuriousWriter =>
      obtain ⟨hawake, hdone, hnotify⟩ := notified_writer s.writer
      refine ⟨?_, hi.bounded, hi.finished, fun hend => hi.ended (hdone hend), ?_,
        fun hb => absurd hb hawake⟩
      · rw [show sessionObserve s .wakeWriter = [] from rfl, List.append_nil]
        dsimp only
        rw [notified_held]
        exact hi.exact
      · intro stopping n e hb
        exact (hi.full stopping n e hb).imp_right fun ⟨e', hw⟩ => ⟨e', hnotify e' hw⟩
  | requestStop => exact hi.same rfl rfl rfl rfl rfl rfl

/-! ## How the reader leaves -/

/-- What the reader has done before it stands where it does. -/
structure ReaderLog (s : Session T) (h : List (SessionEvent T)) : Prop where
  stopping : s.reader.stopping = true → .stopSeen ∈ readerLog h
  requested : .stopSeen ∈ readerLog h → s.stopEvent = true
  cleared : ∀ stopping, s.reader = .rereading stopping → ∃ l, readerLog h = l ++ [.cleared]
  left : s.reader.left = true →
    ∃ l, readerLog h = l ++ [.cleared, .read none] ∧ .stopSeen ∈ l

omit [DecidableEq T] in
theorem readerLog_init {s : Session T} (h : SessionInit s) : ReaderLog s [] := by
  obtain ⟨-, hr, -⟩ := h
  refine ⟨?_, fun hmem => (List.not_mem_nil hmem).elim, ?_, ?_⟩
  · intro hstop
    rw [hr] at hstop
    cases hstop
  · intro stopping hre
    rw [hr] at hre
    cases hre
  · intro hleft
    rw [hr] at hleft
    cases hleft

omit [DecidableEq T] in
/-- A step that the reader's log does not show. -/
theorem ReaderLog.keep {s s' : Session T} {h o : List (SessionEvent T)}
    (hi : ReaderLog s h) (hlog : readerLog o = [])
    (hstopping : s'.reader.stopping = true → s.reader.stopping = true)
    (hre : ∀ stopping, s'.reader = .rereading stopping → s.reader = .rereading stopping)
    (hleft : s'.reader.left = true → s.reader.left = true)
    (hstop : s.stopEvent = true → s'.stopEvent = true) : ReaderLog s' (h ++ o) := by
  have heq : readerLog (h ++ o) = readerLog h := by
    rw [readerLog_append, hlog, List.append_nil]
  refine ⟨?_, ?_, ?_, ?_⟩
  · rw [heq]
    exact fun hs => hi.stopping (hstopping hs)
  · rw [heq]
    exact fun hs => hstop (hi.requested hs)
  · rw [heq]
    exact fun stopping hr => hi.cleared stopping (hre stopping hr)
  · rw [heq]
    exact fun hl => hi.left (hleft hl)

omit [DecidableEq T] in
/-- A step that shows one thing and keeps the reader in its loop. -/
theorem ReaderLog.snoc {s s' : Session T} {h : List (SessionEvent T)} {v : SessionEvent T}
    (hi : ReaderLog s h) (hv : v.ofReader = true)
    (hstopping : s'.reader.stopping = true → s.reader.stopping = true ∨ v = .stopSeen)
    (hre : ∀ stopping, s'.reader = .rereading stopping → v = .cleared)
    (hleft : s'.reader.left = false) (hstop : s'.stopEvent = s.stopEvent)
    (hseen : v = .stopSeen → s.stopEvent = true) : ReaderLog s' (h ++ [v]) := by
  have heq : readerLog (h ++ [v]) = readerLog h ++ [v] := by
    rw [readerLog_append]
    exact congrArg _ (List.filter_cons_of_pos hv)
  refine ⟨?_, ?_, ?_, ?_⟩
  · intro hs
    rw [heq]
    rcases hstopping hs with hs | rfl
    · exact List.mem_append_left _ (hi.stopping hs)
    · exact List.mem_append_right _ List.mem_cons_self
  · intro hmem
    rw [hstop]
    rw [heq] at hmem
    rcases List.mem_append.mp hmem with hmem | hmem
    · exact hi.requested hmem
    · exact hseen (List.mem_singleton.mp hmem).symm
  · intro stopping hr
    rw [heq, hre stopping hr]
    exact ⟨readerLog h, rfl⟩
  · intro hl
    rw [hleft] at hl
    cases hl

/-- A notification leaves the reader where it is in its loop. -/
theorem notified_log (r : Reader) :
    r.notified.stopping = r.stopping ∧ r.notified.left = r.left ∧
      ∀ stopping, r.notified = .rereading stopping → r = .rereading stopping := by
  cases r with
  | pushBlocked => exact ⟨rfl, rfl, nofun⟩
  | _ => exact ⟨rfl, rfl, fun _ h => h⟩

/-- **READER STEP**: while the wait works, every step keeps the log. -/
theorem readerLog_step {s s' : Session T} {a : SessionAction T} {h : List (SessionEvent T)}
    (hi : ReaderLog s h) (hwait : WaitWorks s a) (hs : sessionStep valid s a = some s') :
    ReaderLog s' (h ++ sessionObserve s a) := by
  have same : ∀ {s' : Session T} {o : List (SessionEvent T)}, readerLog o = [] →
      s'.reader = s.reader → s'.stopEvent = s.stopEvent → ReaderLog s' (h ++ o) := by
    intro s' o hlog hr hstop
    refine hi.keep hlog ?_ ?_ ?_ (fun heq => hstop.trans heq)
    · rw [hr]
      exact id
    · rw [hr]
      exact fun _ => id
    · rw [hr]
      exact id
  have next : ∀ {s' : Session T} {stopping : Bool} {n : Nat},
      s'.reader = nextRead stopping n → s'.stopEvent = s.stopEvent →
      (stopping = true → s.reader.stopping = true) → ReaderLog s' (h ++ []) := by
    intro s' stopping n hr hstop hold
    refine hi.keep rfl ?_ ?_ ?_ (fun heq => hstop.trans heq)
    · rw [hr, nextRead_stopping]
      exact hold
    · rw [hr]
      exact fun st heq => absurd heq (nextRead_ne_rereading _ _ _)
    · rw [hr, nextRead_left]
      exact fun heq => nomatch heq
  cases sessionStep_cases valid hs with
  | target ha hring => exact same (readerLog_ring _) rfl rfl
  | copy hring => exact same rfl rfl rfl
  | readOn hr hc =>
      rw [observe_call hr, readObserve_on hc, List.append_nil]
      exact same (readerLog_ring _) rfl rfl
  | @readReturn after r c result hr hc =>
      rw [observe_call hr, readObserve_return hc, ← List.append_assoc]
      have hring : ReaderLog s (h ++ (observe s.target .consumer).map .ring) :=
        same (readerLog_ring _) rfl rfl
      rcases call_cases hr with ⟨stopping, n, hrd, rfl⟩ | ⟨stopping, hrd, rfl⟩
      · refine hring.snoc rfl ?_ ?_ ?_ rfl nofun
        · rw [hrd]
          cases result <;> exact Or.inl
        · cases result <;> nofun
        · cases result <;> rfl
      · cases result with
        | some e =>
            refine hring.snoc rfl ?_ nofun rfl rfl nofun
            rw [hrd]
            exact Or.inl
        | none =>
            -- the second read found nothing: back to the wait, or out of the loop
            cases stopping with
            | false => exact hring.snoc rfl nofun nofun rfl rfl nofun
            | true =>
                have hseen := hring.stopping (by rw [hrd]; rfl)
                obtain ⟨l, hl⟩ := hring.cleared true hrd
                have heq : readerLog ((h ++ (observe s.target .consumer).map .ring)
                    ++ [.read none]) = l ++ [.cleared, .read none] := by
                  rw [readerLog_append, hl, List.append_assoc]
                  rfl
                refine ⟨nofun, ?_, nofun, fun _ => ⟨l, heq, ?_⟩⟩
                · exact fun _ => hring.requested hseen
                · rw [hl] at hseen
                  rcases List.mem_append.mp hseen with hmem | hmem
                  · exact hmem
                  · cases List.mem_singleton.mp hmem
  | @accept stopping n e hr hv =>
      rw [observe_reader hr rfl]
      exact hi.keep rfl (by rw [hr]; exact id) nofun nofun id
  | @ignore stopping n e hr hv =>
      rw [observe_reader hr rfl]
      exact next rfl rfl (by rw [hr]; exact id)
  | @push stopping n e hr hroom =>
      rw [observe_reader hr rfl]
      exact hi.keep rfl (by rw [hr]; exact id) nofun nofun id
  | @pushBlock stopping n e hr hfull =>
      rw [observe_reader hr rfl]
      exact hi.keep rfl (by rw [hr]; exact id) nofun nofun id
  | @notify stopping n hr =>
      rw [observe_reader hr rfl]
      exact next rfl rfl (by rw [hr]; exact id)
  | @report stopping n reported hr =>
      rw [observe_reader hr rfl]
      by_cases hn : n ≠ 0
      · exact next (if_pos hn) rfl (by rw [hr]; exact id)
      · refine hi.keep rfl ?_ ?_ ?_ id
        · rw [hr]
          dsimp only
          rw [if_neg hn]
          exact id
        · dsimp only
          rw [if_neg hn]
          nofun
        · dsimp only
          rw [if_neg hn]
          nofun
  | @clear stopping hr =>
      rw [observe_clear hr]
      exact hi.snoc rfl (by rw [hr]; exact Or.inl) (fun _ _ => rfl) rfl rfl nofun
  | wake hr hw =>
      rw [observe_wake hr hw]
      exact @next _ false 0 rfl rfl nofun
  | stop hr hw hstop =>
      rw [observe_stop hr hw]
      exact hi.snoc rfl (fun _ => Or.inr rfl)
        (fun st heq => absurd heq (nextRead_ne_rereading true 0 st)) (nextRead_left true 0) rfl
        (fun _ => hstop)
  | finish hr =>
      rw [observe_reader hr rfl]
      exact hi.keep rfl nofun nofun (by rw [hr]; exact id) id
  | announce hr =>
      rw [observe_reader hr rfl]
      exact hi.keep rfl nofun nofun (by rw [hr]; exact id) id
  | waitFail hr => exact absurd rfl hwait
  | pop hw hq =>
      rw [observe_writer hw rfl]
      exact same rfl rfl rfl
  | popEnd hw hq hfin =>
      rw [observe_writer hw rfl]
      exact same rfl rfl rfl
  | popBlock hw hq hfin =>
      rw [observe_writer hw rfl]
      exact same rfl rfl rfl
  | notifyReader hw =>
      obtain ⟨hstopping, hleft, hre⟩ := notified_log s.reader
      rw [observe_writer hw rfl]
      exact hi.keep rfl (hstopping ▸ id) hre (hleft ▸ id) id
  | @handled e hw =>
      rw [observe_handled hw]
      exact same rfl rfl rfl
  | spuriousReader =>
      obtain ⟨hstopping, hleft, hre⟩ := notified_log s.reader
      exact hi.keep rfl (hstopping ▸ id) hre (hleft ▸ id) id
  | spuriousWriter => exact same rfl rfl rfl
  | requestStop => exact hi.keep rfl id (fun _ => id) id (fun _ => rfl)

/-! ## The hand-off -/

/-- What the hand-off guarantees in a state reached with a history. -/
structure HandOffSafe (valid : TraceEvent → Bool) (s : Session T)
    (h : List (SessionEvent T)) : Prop where
  /-- The queue is bounded. -/
  bounded : s.eventQueue.length ≤ traceEventQueueCapacity
  /-- Handled, held, queued and being queued: the valid events that were read. -/
  exact : renders h ++ (s.writer.held ++ (s.eventQueue ++ s.reader.queuing valid))
    = (reads h).filter valid
  /-- The reader leaves after it has seen the stop, when the read after the
      clearing of `wakePending` has found nothing. -/
  left : s.reader.left = true → s.stopEvent = true ∧
    ∃ l, readerLog h = l ++ [.cleared, .read none] ∧ .stopSeen ∈ l
  /-- When both loops have ended, every valid event read is rendered. -/
  complete : s.reader = .done → s.writer = .done → renders h = (reads h).filter valid
  /-- The two threads never both sleep on the queue. -/
  notBothBlocked : ∀ stopping n e, s.reader = .pushBlocked stopping n e →
    s.writer ≠ .popBlocked

omit [DecidableEq T] in
/-- When both loops have ended, every valid event read is rendered. -/
theorem HandOff.complete {s : Session T} {h : List (SessionEvent T)} (hi : HandOff valid s h)
    (hr : s.reader = .done) (hw : s.writer = .done) : renders h = (reads h).filter valid := by
  have hexact := hi.exact
  rw [hr, hw, (hi.ended hw).2] at hexact
  exact (List.append_nil _).symm.trans hexact

omit [DecidableEq T] in
theorem HandOff.safe {s : Session T} {h : List (SessionEvent T)} (hi : HandOff valid s h)
    (hl : ReaderLog s h) : HandOffSafe valid s h := by
  refine ⟨hi.bounded, hi.exact, ?_, hi.complete, ?_⟩
  · intro hleft
    obtain ⟨l, heq, hseen⟩ := hl.left hleft
    refine ⟨hl.requested ?_, l, heq, hseen⟩
    rw [heq]
    exact List.mem_append_left _ hseen
  · intro stopping n e hr hw
    rcases hi.full stopping n e hr with hfull | ⟨e', hw'⟩
    · rcases hi.empty hw with ⟨hempty, -⟩ | ⟨_, _, hr'⟩ | hr'
      · rw [hempty] at hfull
        exact absurd hfull (by decide)
      · cases hr.symm.trans hr'
      · cases hr.symm.trans hr'
    · cases hw.symm.trans hw'

/-- What is between the two threads, whether the wait works or not. -/
theorem handOff_reachable {ok : Session T → SessionAction T → Prop}
    {p : Session T × List (SessionEvent T)}
    (h : ReachableIf (tracedSession valid T) (fun p a => ok p.1 a) p) :
    HandOff valid p.1 p.2 :=
  traced_invariant (Q := fun _ => True) (P := HandOff valid) (fun _ _ => trivial)
    (fun _ => handOff_init valid) (fun _ _ _ _ _ hi _ hs => handOff_step hi hs) h

/-- **HAND-OFF**: in every state that any interleaving of the two loops and a
    stop request reaches while the wait works. -/
theorem handOff_safe {p : Session T × List (SessionEvent T)}
    (h : ReachableIf (tracedSession valid T) (fun p a => WaitWorks p.1 a) p) :
    HandOffSafe valid p.1 p.2 := by
  have hlog : ReaderLog p.1 p.2 := by
    refine traced_invariant (Q := fun _ => True) (P := ReaderLog) (fun _ _ => trivial) ?_ ?_ h
    · exact fun s h0 => readerLog_init h0
    · exact fun s h a s' _ hl hwait hs => readerLog_step hl hwait hs
  exact (handOff_reachable h).safe hlog

/-! ## A run -/

/-- A thread publishes an event. -/
def publishOne (t : T) : List (SessionAction T) :=
  .target (.emit t headerOnly) :: List.replicate 4 (.target (.producer t)) ++
    (List.range sizeofEventHeader).map (fun i => .target (.copyByte t i)) ++
    [.target (.producer t)]

/-- The reader takes one event out of the ring and puts it into the queue. -/
def readOne : List (SessionAction T) :=
  List.replicate 2 .reader ++ (List.range traceMaxEventBytes).map .readByte ++
    List.replicate 5 .reader

def isWaitFailure : SessionAction T → Bool
  | .waitFails => true
  | _ => false

/-- Both loops have ended, and so many events were handled. -/
def endedAfter (n : Nat) (p : Session T × List (SessionEvent T)) : Bool :=
  match p.1.reader, p.1.writer with
  | .done, .done => (renders p.2).length == n
  | _, _ => false

/-- One event goes all the way; then the session is stopped. -/
theorem handOff_safe_run : ∃ p : Session Unit × List (SessionEvent Unit),
    endedAfter 1 p = true ∧ HandOffSafe (fun _ => true) p.1 p.2 := by
  have hexec : ((tracedSession (fun _ => true) Unit).execWhile
      (fun _ a => !isWaitFailure a) (startSession Unit, [])
      (publishOne () ++ readOne ++ List.replicate 9 .reader ++ [.requestStop] ++
        List.replicate 9 .reader ++ List.replicate 4 .writer)).map (endedAfter 1)
      = some true := by
    decide +kernel
  obtain ⟨p, hp, hended⟩ := Option.map_eq_some_iff.mp hexec
  have hstart : ReachableIf (tracedSession (fun _ => true) Unit) (fun p a => WaitWorks p.1 a)
      (startSession Unit, []) := .init ⟨startSession_init Unit, rfl⟩
  refine ⟨p, hended, handOff_safe (hstart.execWhile ?_ _ hp)⟩
  rintro s a ha rfl
  cases ha

end ScopeSession
