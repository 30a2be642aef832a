import ApiScope.BoundedRunProofs
import ApiScope.DrainProofs

/-! # Progress — the two loops never spin, and Drain ends

    What `ReaderLoop` and `WriterLoop` still have to do is weighed: a position
    of the ring that the reader has not claimed, an event in the queue, the
    signalled wake event, and the place where each thread stands.  Every step
    of the two threads lowers the weight by at least one; only a reserved
    position, a signal and a spurious wake-up of a condition wait raise it.

    So the steps of the two threads are bounded by the positions the target
    reserves and the signals it sends, in any interleaving.  Once the stop event is set no state but the end of
    both loops is without an enabled step: `Drain` joins both threads,
    wherever the target's threads were when they stopped. -/

namespace ScopeSession

open ScopeProtocol ScopeTransition ScopeRing ScopeDrain

variable {T : Type} [DecidableEq T]

/-! ## The weight -/

/-- An event in the queue: the writer's pass over it. -/
def queueWork : Nat := 4

/-- What a reader that has not seen the stop does more than one that has. -/
def sleepWork : Nat := 7

/-- A position of the ring: the copy, and the reader's pass over the event. -/
def eventWork : Nat := 22 + traceMaxEventBytes

def Writer.work : Writer → Nat
  | .popping => 1
  | .popBlocked => 0
  | .notifying _ => 4
  | .handling _ => 2
  | .done => 0

/-- Inside `TryReadRing`; `after` is what is left when it finds nothing. -/
def callWork (after : Nat) : Consumer → Nat
  | .idle => after + 2
  | .loadingSequence _ => after + 1
  | .copying _ _ todo => 22 + todo.length
  | .storing _ _ => 21

/-- Before the reader has seen the stop. -/
def lateWork (stopping : Bool) : Nat := if stopping then 0 else sleepWork

/-- At `reportDroppedEvents`: after an empty batch the reader goes on to the
    exchange, after any other it reads again. -/
def reportWork (eventsRead : Nat) : Nat := if eventsRead = 0 then 7 else 10

def Reader.work (c : Consumer) : Reader → Nat
  | .reading stopping n => lateWork stopping + callWork (reportWork n) c
  | .checking stopping _ _ => lateWork stopping + 20
  | .pushing stopping _ _ => lateWork stopping + 19
  | .pushBlocked stopping _ _ => lateWork stopping + 18
  | .notifying stopping _ => lateWork stopping + 14
  | .reporting stopping n => lateWork stopping + reportWork n
  | .clearing stopping => lateWork stopping + 6
  | .rereading stopping => lateWork stopping + callWork 3 c
  | .waiting => 10
  | .finishing => 3
  | .announcing => 2
  | .done => 0

/-- The first position that the reader has not begun to copy. -/
def claimed (r : RingState T) : Nat :=
  match r.consumer with
  | .copying position _ _ => position + 1
  | .storing position _ => position + 1
  | _ => r.ring.dequeuePosition

/-- The positions that are reserved and not claimed. -/
def unclaimed (r : RingState T) : Nat := r.ring.enqueuePosition - claimed r

def wakeWork (r : RingState T) : Nat := if r.wakeEvent then sleepWork else 0

/-- What the two threads have to do at most, if nothing else happens. -/
def work (s : Session T) : Nat :=
  eventWork * unclaimed s.target + wakeWork s.target + s.reader.work s.target.consumer +
    s.writer.work + queueWork * s.eventQueue.length

/-- One step of the reader or the writer. -/
def SessionAction.cost : SessionAction T → Nat
  | .reader => 1
  | .readByte _ => 1
  | .waitFails => 1
  | .writer => 1
  | _ => 0

/-- The positions reserved so far; each of them is work for the two threads. -/
def reserved (s : Session T) : Nat := s.target.ring.enqueuePosition

/-- What a step adds to the work of the two threads besides a reserved position. -/
def SessionAction.gain : SessionAction T → Nat
  | .target (.setEvent _ true) => sleepWork
  | .wakeReader => 1
  | .wakeWriter => 1
  | _ => 0

/-! ## What each step pays -/

theorem nextRead_work (stopping : Bool) (n : Nat) :
    (nextRead stopping n).work .idle ≤ lateWork stopping + 12 := by
  rw [nextRead]
  split
  · show lateWork stopping + (reportWork n + 2) ≤ _
    rw [reportWork]
    split <;> omega
  · show lateWork stopping + reportWork n ≤ _
    rw [reportWork]
    split <;> omega

theorem nextRead_zero_work (stopping : Bool) :
    (nextRead stopping 0).work .idle = lateWork stopping + 9 := rfl

theorem notified_work (w : Writer) : w.notified.work ≤ w.work + 1 := by
  cases w with
  | popBlocked => exact Nat.le_refl _
  | _ => exact Nat.le_succ _

theorem notified_reader_work (r : Reader) (c : Consumer) :
    r.notified.work c ≤ r.work c + 1 := by
  cases r with
  | pushBlocked => exact Nat.le_refl _
  | _ => exact Nat.le_succ _

/-- A step of the target moves neither the reader nor what it has claimed. -/
theorem target_keeps {r r' : RingState T} {a : RingAction T} (ha : ofTarget a = true)
    (h : ringStep r a = some r') :
    r'.consumer = r.consumer ∧ r'.ring.dequeuePosition = r.ring.dequeuePosition := by
  cases ringStep_cases h with
  | readPosition | readNothing | readClaim | readCopy | release | deliver | clearWake
  | takeWake =>
      cases ha
  | _ => exact ⟨rfl, rfl⟩

omit [DecidableEq T] in
/-- Where a step leaves the end of the ring and the wake event alone. -/
theorem quiet_work {r r' : RingState T} (n : Nat) (hclaimed : claimed r' = claimed r)
    (henq : r'.ring.enqueuePosition = r.ring.enqueuePosition)
    (hwake : r'.wakeEvent = r.wakeEvent) :
    eventWork * unclaimed r' + wakeWork r' + eventWork * r.ring.enqueuePosition ≤
      eventWork * unclaimed r + wakeWork r + n + eventWork * r'.ring.enqueuePosition := by
  rw [unclaimed, unclaimed, wakeWork, wakeWork, hclaimed, henq, hwake]
  omega

omit [DecidableEq T] in
theorem wakeWork_le (r : RingState T) : wakeWork r ≤ sleepWork := by
  rw [wakeWork]
  split
  · exact Nat.le_refl _
  · exact Nat.zero_le _

/-- The target reserves a position or signals, or adds nothing to the work. -/
theorem target_work {r r' : RingState T} {a : RingAction T} (ha : ofTarget a = true)
    (h : ringStep r a = some r') :
    eventWork * unclaimed r' + wakeWork r' + eventWork * r.ring.enqueuePosition ≤
      eventWork * unclaimed r + wakeWork r + SessionAction.gain (.target a) +
        eventWork * r'.ring.enqueuePosition := by
  obtain ⟨hcons, hdeq⟩ := target_keeps ha h
  have hclaimed : claimed r' = claimed r := by
    rw [claimed, claimed, hcons, hdeq]
  cases ringStep_cases h with
  | @reserve t e position hp henq =>
      have hstep : unclaimed { r.setProducer t (.copying e position (List.range e.size)) with
          ring := { r.ring with enqueuePosition := position + 1 } } ≤ unclaimed r + 1 := by
        rw [unclaimed, unclaimed, hclaimed]
        show position + 1 - claimed r ≤ _
        omega
      have hmul := Nat.mul_le_mul_left eventWork hstep
      rw [Nat.mul_succ] at hmul
      show _ + wakeWork r + _ ≤ _ + 0 + eventWork * (position + 1)
      rw [Nat.mul_succ, henq]
      omega
  | @signal t e position hp =>
      have hsame : unclaimed { r.setProducer t (.returning e (some position)) with
          wakeEvent := true } = unclaimed r := by
        rw [unclaimed, unclaimed, hclaimed]
        rfl
      rw [hsame]
      show _ + sleepWork + _ ≤ _ + sleepWork + eventWork * r.ring.enqueuePosition
      omega
  | readPosition | readNothing | readClaim | readCopy | release | deliver | clearWake
  | takeWake =>
      cases ha
  | _ => exact quiet_work _ hclaimed rfl rfl

omit [DecidableEq T] in
/-- A published head is a position that is reserved and not claimed. -/
theorem unclaimed_pos {r : RingState T} (hi : RingInv r) {p : Nat}
    (hc : r.consumer = .loadingSequence p) (heq : r.seqAt p = p + 1) :
    p = r.ring.dequeuePosition ∧ p < r.ring.enqueuePosition := by
  have hp : p = r.ring.dequeuePosition := by
    have hconsumer := hi.consumer
    rwa [hc] at hconsumer
  have hrel : r.released = p := by
    rw [RingState.released, hc, hp]
  exact ⟨hp, hi.lt_enqueue (by rw [hrel]; exact Nat.lt_add_of_pos_right (by decide)) heq⟩

omit [DecidableEq T] in
/-- One operation of `TryReadRing` that does not return. -/
theorem call_work {r : RingState T} (hi : RingInv r) {ring : TraceRing} {c : Consumer}
    (hc : consumerStep r.ring r.consumer = some (ring, c, none)) (after : Nat) :
    eventWork * unclaimed { r with ring := ring, consumer := c } +
        callWork after c + 1 ≤ eventWork * unclaimed r + callWork after r.consumer := by
  cases hcons : r.consumer with
  | idle =>
      rw [hcons] at hc
      cases hc
      have hsame : unclaimed { r with consumer := .loadingSequence r.ring.dequeuePosition }
          = unclaimed r := by
        rw [unclaimed, unclaimed, claimed, claimed, hcons]
      rw [hsame]
      exact Nat.le_refl _
  | loadingSequence p =>
      rw [hcons, consumerStep] at hc
      by_cases heq : (r.ring.slot p).sequence = p + 1
      · rw [if_neg (not_not.mpr heq)] at hc
        cases hc
        obtain ⟨hp, hlt⟩ := unclaimed_pos hi hcons heq
        -- the position is claimed here, and pays for the copy
        have hone : unclaimed r = unclaimed { r with
            consumer := .copying p TraceEvent.zero (List.range traceMaxEventBytes) } + 1 := by
          rw [unclaimed, unclaimed, claimed, claimed, hcons]
          dsimp only
          omega
        rw [hone, Nat.mul_succ]
        simp only [callWork, List.length_range, eventWork]
        omega
      · rw [if_pos heq] at hc
        cases hc
  | copying p e todo =>
      rw [hcons] at hc
      cases todo with
      | cons i todo => cases hc
      | nil =>
          cases hc
          rw [unclaimed, unclaimed, claimed, claimed, hcons]
          show eventWork * (r.ring.enqueuePosition - (p + 1)) + 21 + 1 ≤ _
          exact Nat.le_refl _
  | storing p e =>
      rw [hcons] at hc
      cases hc

omit [DecidableEq T] in
/-- The operation with which `TryReadRing` returns. -/
theorem return_work {r : RingState T} {ring : TraceRing} {c : Consumer}
    {result : Option TraceEvent}
    (hc : consumerStep r.ring r.consumer = some (ring, c, some result)) (after : Nat) :
    unclaimed { r with ring := ring, consumer := c } = unclaimed r ∧ c = .idle ∧
      callWork after r.consumer = result.elim (after + 1) (fun _ => 21) := by
  cases hcons : r.consumer with
  | idle =>
      rw [hcons] at hc
      cases hc
  | loadingSequence p =>
      rw [hcons, consumerStep] at hc
      by_cases heq : (r.ring.slot p).sequence = p + 1
      · rw [if_neg (not_not.mpr heq)] at hc
        cases hc
      · rw [if_pos heq] at hc
        cases hc
        refine ⟨?_, rfl, rfl⟩
        rw [unclaimed, unclaimed, claimed, claimed, hcons]
  | copying p e todo =>
      rw [hcons] at hc
      cases todo with
      | nil => cases hc
      | cons i todo => cases hc
  | storing p e =>
      rw [hcons] at hc
      cases hc
      refine ⟨?_, rfl, rfl⟩
      rw [unclaimed, unclaimed, claimed, claimed, hcons]

/-- Inside a call of `TryReadRing` the reader has the work of the call. -/
theorem work_of_call {rd : Reader} {after : Option TraceEvent → Reader}
    (h : rd.call = some after) :
    ∃ stopping left, (∀ c, rd.work c = lateWork stopping + callWork left c) ∧
      (after none).work .idle ≤ lateWork stopping + left ∧
      ∀ e, (after (some e)).work .idle ≤ lateWork stopping + 20 := by
  rcases call_cases h with ⟨stopping, n, rfl, rfl⟩ | ⟨stopping, rfl, rfl⟩
  · exact ⟨stopping, reportWork n, fun _ => rfl, Nat.le_refl _, fun _ => Nat.le_refl _⟩
  · refine ⟨stopping, 3, fun _ => rfl, ?_, fun _ => Nat.le_refl _⟩
    cases stopping with
    | false => exact Nat.le_refl _
    | true => exact Nat.le_refl _

variable {valid : TraceEvent → Bool}

/-- A step that is not the target's. -/
def SessionAction.ofController : SessionAction T → Bool
  | .target _ => false
  | _ => true

theorem consumer_reserves {r r' : TraceRing} {c c' : Consumer}
    {result : Option (Option TraceEvent)} (h : consumerStep r c = some (r', c', result)) :
    r'.enqueuePosition = r.enqueuePosition := by
  cases c with
  | idle | storing =>
      cases h
      rfl
  | loadingSequence p =>
      rw [consumerStep] at h
      split at h <;>
        · cases h
          rfl
  | copying p e todo =>
      cases todo with
      | nil =>
          cases h
          rfl
      | cons i todo => cases h

/-- Only the target reserves positions. -/
theorem controller_reserves {s s' : Session T} {a : SessionAction T}
    (ha : a.ofController = true) (hs : sessionStep valid s a = some s') :
    reserved s' = reserved s := by
  cases sessionStep_cases valid hs with
  | target => cases ha
  | copy hring =>
      cases ringStep_cases hring
      rfl
  | readOn hr hc => exact consumer_reserves hc
  | readReturn hr hc => exact consumer_reserves hc
  | _ => rfl

/-- What the reader, the writer and the scheduler do to the work. -/
theorem controller_work {s s' : Session T} {a : SessionAction T} (hi : RingInv s.target)
    (hidle : s.reader.call = none → s.target.consumer = .idle)
    (ha : a.ofController = true) (hs : sessionStep valid s a = some s') :
    work s' + a.cost ≤ work s + a.gain := by
  cases sessionStep_cases valid hs with
  | target => cases ha
  | @copy i target' hring =>
      cases ringStep_cases hring with
      | @readCopy position e todo i hc hmem =>
          cases hcall : s.reader.call with
          | none => cases (hidle hcall).symm.trans hc
          | some after =>
              obtain ⟨stopping, left, hwork, -, -⟩ := work_of_call hcall
              have hlen := List.length_erase_of_mem hmem
              have hpos := List.length_pos_of_mem hmem
              simp only [work, SessionAction.cost, SessionAction.gain, hwork, hc, callWork,
                unclaimed, claimed, wakeWork]
              omega
  | @readOn after r c hr hc =>
      obtain ⟨stopping, left, hwork, -, -⟩ := work_of_call hr
      have hcall := call_work hi hc left
      simp only [work, SessionAction.cost, SessionAction.gain, hwork, wakeWork]
      omega
  | @readReturn after r c result hr hc =>
      obtain ⟨stopping, left, hwork, hnone, hsome⟩ := work_of_call hr
      obtain ⟨hsame, hidle', hcall⟩ := return_work hc left
      have hafter : (after result).work .idle + 1 ≤ s.reader.work s.target.consumer := by
        rw [hwork, hcall]
        cases result with
        | none => exact Nat.succ_le_succ hnone
        | some e => exact Nat.succ_le_succ (hsome e)
      subst hidle'
      simp only [work, SessionAction.cost, SessionAction.gain, hsame, wakeWork]
      omega
  | @accept stopping n e hr hv | @pushBlock stopping n e hr hfull | finish hr =>
      simp only [work, SessionAction.cost, SessionAction.gain, hr, Reader.work]
      omega
  | @ignore stopping n e hr hv =>
      have hc : s.target.consumer = .idle := hidle (by rw [hr]; rfl)
      have hnow : s.reader.work .idle = lateWork stopping + 20 := by rw [hr]; rfl
      have hnext := nextRead_work stopping n
      simp only [work, SessionAction.cost, SessionAction.gain, hc]
      omega
  | @push stopping n e hr hroom =>
      simp only [work, SessionAction.cost, SessionAction.gain, hr, Reader.work, queueWork,
        List.length_append, List.length_singleton]
      omega
  | @notify stopping n hr =>
      have hc : s.target.consumer = .idle := hidle (by rw [hr]; rfl)
      have hnow : s.reader.work .idle = lateWork stopping + 14 := by rw [hr]; rfl
      have hnext := nextRead_work stopping n
      have hwriter := notified_work s.writer
      simp only [work, SessionAction.cost, SessionAction.gain, hc]
      omega
  | @report stopping n reported hr =>
      have hc : s.target.consumer = .idle := hidle (by rw [hr]; rfl)
      have hnow : s.reader.work .idle = lateWork stopping + reportWork n := by rw [hr]; rfl
      have hnext : (if n ≠ 0 then nextRead stopping 0 else .clearing stopping).work .idle + 1
          ≤ lateWork stopping + reportWork n := by
        by_cases hn : n = 0
        · subst hn
          exact Nat.le_refl _
        · rw [if_pos hn, nextRead_zero_work, reportWork, if_neg hn]
      simp only [work, SessionAction.cost, SessionAction.gain, hc]
      omega
  | @clear stopping hr =>
      have hc : s.target.consumer = .idle := hidle (by rw [hr]; rfl)
      simp only [work, SessionAction.cost, SessionAction.gain, hr, hc, Reader.work, callWork,
        unclaimed, claimed, wakeWork]
      omega
  | wake hr hw =>
      have hc : s.target.consumer = .idle := hidle (by rw [hr]; rfl)
      have hnow : s.reader.work .idle = 10 := by rw [hr]; rfl
      have hnext : (nextRead false 0).work .idle = 16 := rfl
      simp only [work, SessionAction.cost, SessionAction.gain, hc, wakeWork, hw, unclaimed,
        claimed, sleepWork, if_true, Bool.false_eq_true, if_false]
      omega
  | stop hr hw hstop =>
      have hc : s.target.consumer = .idle := hidle (by rw [hr]; rfl)
      have hnow : s.reader.work .idle = 10 := by rw [hr]; rfl
      have hnext : (nextRead true 0).work .idle = 9 := rfl
      simp only [work, SessionAction.cost, SessionAction.gain, hc]
      omega
  | announce hr =>
      have hwriter := notified_work s.writer
      simp only [work, SessionAction.cost, SessionAction.gain, hr, Reader.work]
      omega
  | waitFail hr =>
      simp only [work, SessionAction.cost, SessionAction.gain, hr, Reader.work]
      omega
  | @pop e rest hw hq =>
      simp only [work, SessionAction.cost, SessionAction.gain, hw, hq, Writer.work, queueWork,
        List.length_cons]
      omega
  | popEnd hw hq hfin | popBlock hw hq hfin | handled hw =>
      simp only [work, SessionAction.cost, SessionAction.gain, hw, Writer.work]
      omega
  | notifyReader hw =>
      have hreader := notified_reader_work s.reader s.target.consumer
      simp only [work, SessionAction.cost, SessionAction.gain, hw, Writer.work]
      omega
  | spuriousReader =>
      have hreader := notified_reader_work s.reader s.target.consumer
      simp only [work, SessionAction.cost, SessionAction.gain]
      omega
  | spuriousWriter =>
      have hwriter := notified_work s.writer
      simp only [work, SessionAction.cost, SessionAction.gain]
      omega
  | requestStop => exact Nat.le_refl _

/-- **WORK STEP**: every step of the two threads lowers the work by one, and
    any other step raises it by no more than its gain and the position it
    reserves. -/
theorem work_step {s s' : Session T} {a : SessionAction T} (hi : RingInv s.target)
    (hidle : s.reader.call = none → s.target.consumer = .idle)
    (hs : sessionStep valid s a = some s') :
    work s' + a.cost + eventWork * reserved s ≤
      work s + a.gain + eventWork * reserved s' := by
  cases ha : a.ofController with
  | true =>
      have hwork := controller_work hi hidle ha hs
      rw [controller_reserves ha hs]
      omega
  | false =>
      cases sessionStep_cases valid hs with
      | @target a target' hof hring =>
          obtain ⟨hcons, -⟩ := target_keeps hof hring
          have hwork := target_work hof hring
          simp only [work, reserved, SessionAction.cost]
          rw [hcons]
          omega
      | _ => cases ha

/-! ## A bound for every state -/

/-- The most work there ever is: a full ring, a copy in progress and a full
    queue. -/
def drainBound : Nat :=
  eventWork * traceRingCapacity + queueWork * traceEventQueueCapacity +
    (sleepWork + sleepWork + eventWork + 4)

/-- The reader has announced the end of its loop. -/
def Reader.announced : Reader → Bool
  | .announcing => true
  | .done => true
  | _ => false

theorem nextRead_announced (stopping : Bool) (n : Nat) :
    (nextRead stopping n).announced = false := by
  rw [nextRead]
  split <;> rfl

theorem notified_announced (r : Reader) : r.notified.announced = r.announced := by
  cases r <;> rfl

/-- What progress rests on besides the ring and the hand-off. -/
structure Standing (s : Session T) : Prop where
  /-- The reader uses the ring only inside `TryReadRing`. -/
  idle : s.reader.call = none → s.target.consumer = .idle
  /-- A copy has at most the bytes of an event to do. -/
  copy : ∀ p e todo, s.target.consumer = .copying p e todo → todo.length ≤ traceMaxEventBytes
  announced : s.reader.announced = true → s.readerFinished = true

omit [DecidableEq T] in
theorem standing_init {s : Session T} (h : SessionInit s) : Standing s := by
  obtain ⟨⟨-, -, hc, -⟩, hr, -⟩ := h
  refine ⟨fun _ => hc, ?_, ?_⟩
  · intro p e todo hcopy
    cases hc.symm.trans hcopy
  · rw [hr, nextRead_announced]
    nofun

/-- The bytes left to copy, after one operation of the reader or the target. -/
theorem copy_step {r r' : RingState T} {b : RingAction T}
    (h : ∀ p e todo, r.consumer = .copying p e todo → todo.length ≤ traceMaxEventBytes)
    (hs : ringStep r b = some r') :
    ∀ p e todo, r'.consumer = .copying p e todo → todo.length ≤ traceMaxEventBytes := by
  intro p e todo hcopy
  cases ringStep_cases hs with
  | @readClaim position hc heq =>
      cases hcopy
      rw [List.length_range]
  | @readCopy position e todo i hc hmem =>
      cases hcopy
      exact Nat.le_trans (List.length_erase_le ..) (h _ _ _ hc)
  | readPosition | readNothing | release | deliver => cases hcopy
  | _ => exact h p e todo hcopy

theorem announced_step {s s' : Session T} {a : SessionAction T}
    (h : s.reader.announced = true → s.readerFinished = true)
    (hs : sessionStep valid s a = some s') :
    s'.reader.announced = true → s'.readerFinished = true := by
  cases sessionStep_cases valid hs with
  | @readReturn after r c result hr hc =>
      have hno : (after result).announced = false := by
        rcases call_cases hr with ⟨stopping, n, -, rfl⟩ | ⟨stopping, -, rfl⟩
        · cases result <;> rfl
        · cases result with
          | none => cases stopping <;> rfl
          | some e => rfl
      intro hann
      cases hno.symm.trans hann
  | ignore | notify | wake | stop =>
      intro hann
      dsimp only at hann
      rw [nextRead_announced] at hann
      cases hann
  | @report stopping n reported hr =>
      intro hann
      dsimp only at hann
      split at hann
      · cases (nextRead_announced _ _).symm.trans hann
      · cases hann
  | accept | push | pushBlock | clear | waitFail => nofun
  | finish => exact fun _ => rfl
  | announce hr =>
      intro _
      exact h (by rw [hr]; rfl)
  | notifyReader | spuriousReader =>
      rw [← notified_announced] at h
      exact h
  | _ => exact h

theorem standing_step {s s' : Session T} {a : SessionAction T} (h : Standing s)
    (hs : sessionStep valid s a = some s') : Standing s' := by
  refine ⟨consumer_idle_step h.idle hs, ?_, announced_step h.announced hs⟩
  rcases session_ring valid hs with heq | ⟨b, hb⟩
  · rw [heq]
    exact h.copy
  · exact copy_step h.copy hb

theorem standing_reachable {ok : Session T → SessionAction T → Prop} {s : Session T}
    (h : ReachableIf (sessionSystem valid T) ok s) : Standing s :=
  h.invariant (P := Standing) (fun _ => standing_init) fun _ _ _ hi _ hs => standing_step hi hs

theorem handOff_exists {s : Session T} (h : Reachable (sessionSystem valid T) s) :
    ∃ l, HandOff valid s l := by
  obtain ⟨l, hl⟩ := h.with_history sessionObserve
  exact ⟨l, hl.traced_invariant (P := HandOff valid) (Q := fun _ => True) (fun _ _ => trivial)
    (fun _ => handOff_init valid) (fun _ _ _ _ _ hi hs => handOff_step hi hs)⟩

omit [DecidableEq T] in
theorem unclaimed_le {r : RingState T} (hi : RingInv r) : unclaimed r ≤ traceRingCapacity := by
  have hroom := hi.room
  have hle : r.released ≤ claimed r := by
    have hconsumer := hi.consumer
    rw [RingState.released, claimed]
    cases hc : r.consumer with
    | copying p e todo =>
        rw [hc] at hconsumer
        have hp : p = r.ring.dequeuePosition := hconsumer.1
        show r.ring.dequeuePosition ≤ p + 1
        omega
    | _ => exact Nat.le_refl _
  rw [unclaimed]
  omega

theorem lateWork_le (stopping : Bool) : lateWork stopping ≤ sleepWork := by
  cases stopping with
  | false => exact Nat.le_refl _
  | true => exact Nat.zero_le _

omit [DecidableEq T] in
theorem reader_work_le {s : Session T} (h : Standing s) :
    s.reader.work s.target.consumer ≤ sleepWork + eventWork := by
  have hcall : ∀ left, left ≤ 10 → callWork left s.target.consumer ≤ eventWork := by
    intro left hleft
    cases hc : s.target.consumer with
    | copying p e todo =>
        have hcopy := h.copy p e todo hc
        simp only [callWork, eventWork]
        omega
    | _ =>
        simp only [callWork, eventWork]
        omega
  have hreport : ∀ n, reportWork n ≤ 10 := by
    intro n
    rw [reportWork]
    split <;> omega
  have hsmall : 22 ≤ eventWork := Nat.le_add_right _ _
  cases hr : s.reader with
  | reading stopping n =>
      exact Nat.add_le_add (lateWork_le stopping) (hcall _ (hreport n))
  | rereading stopping =>
      exact Nat.add_le_add (lateWork_le stopping) (hcall 3 (by omega))
  | reporting stopping n =>
      exact Nat.add_le_add (lateWork_le stopping) (by have := hreport n; omega)
  | checking stopping n e | pushing stopping n e | pushBlocked stopping n e
  | notifying stopping n | clearing stopping =>
      exact Nat.add_le_add (lateWork_le stopping) (by omega)
  | waiting | finishing | announcing | done =>
      simp only [Reader.work]
      omega

theorem work_le {s : Session T} (h : Reachable (sessionSystem valid T) s) :
    work s ≤ drainBound := by
  obtain ⟨l, hhand⟩ := handOff_exists h
  have hring := Nat.mul_le_mul_left eventWork
    (unclaimed_le (ringInv_reachable (ring_of_session valid h)))
  have hqueue := Nat.mul_le_mul_left queueWork hhand.bounded
  have hreader := reader_work_le (standing_reachable h)
  have hwake := wakeWork_le s.target
  have hwriter : s.writer.work ≤ 4 := by
    cases s.writer <;> simp only [Writer.work] <;> omega
  rw [work, drainBound]
  omega

/-! ## Runs -/

/-- The steps of the two threads in a run. -/
def spent (as : List (SessionAction T)) : Nat := (as.map SessionAction.cost).sum

/-- What a run adds to the work by signals and spurious wake-ups. -/
def gained (as : List (SessionAction T)) : Nat := (as.map SessionAction.gain).sum

theorem session_keeps {s s' : Session T} {a : SessionAction T}
    (h : Reachable (sessionSystem valid T) s)
    (hs : (sessionSystem valid T).step s a = some s') : Reachable (sessionSystem valid T) s' :=
  .step h trivial hs

theorem session_pays {s s' : Session T} {a : SessionAction T}
    (h : Reachable (sessionSystem valid T) s)
    (hs : (sessionSystem valid T).step s a = some s') :
    work s' + a.cost + eventWork * reserved s ≤
      work s + a.gain + eventWork * reserved s' :=
  work_step (ringInv_reachable (ring_of_session valid h)) (standing_reachable h).idle hs

/-- A run pays for the steps of the two threads. -/
theorem run_pays {s s' : Session T} {as : List (SessionAction T)}
    (h : Reachable (sessionSystem valid T) s)
    (hexec : (sessionSystem valid T).exec s as = some s') :
    work s' + spent as + eventWork * reserved s ≤
      work s + gained as + eventWork * reserved s' :=
  exec_cost (fun _ _ _ => session_keeps) (fun _ _ _ => session_pays) h hexec

/-- **NO SPINNING**: in every run the steps of the two threads are bounded by a
    constant, whatever the state it starts in, and by what the target and the
    scheduler add to their work: the positions that are reserved in the run,
    its signals and its spurious wake-ups. -/
theorem loops_never_spin {s s' : Session T} {as : List (SessionAction T)}
    (h : Reachable (sessionSystem valid T) s)
    (hexec : (sessionSystem valid T).exec s as = some s') :
    spent as + eventWork * reserved s ≤
      drainBound + gained as + eventWork * reserved s' := by
  have hpays := run_pays h hexec
  have hle := work_le h
  omega

/-- The thread publishes an event and signals, the reader wakes up and hands the
    event over, and the writer handles it. -/
def wakeOnce : List (SessionAction Unit) :=
  List.replicate 6 .reader ++ publishOne () ++
    [.target (.producer ()), .target (.setEvent () true), .target (.producer ()), .reader] ++
    readOne ++ List.replicate 4 .writer

theorem loops_never_spin_wakes : ∃ s',
    (sessionSystem (fun _ => true) Unit).exec (startSession Unit) wakeOnce = some s' ∧
      reserved s' = 1 ∧ (writerStep s').isNone = true ∧
      spent wakeOnce + eventWork * reserved (startSession Unit) ≤
        drainBound + gained wakeOnce + eventWork * reserved s' := by
  have hexec : ((sessionSystem (fun _ => true) Unit).exec (startSession Unit) wakeOnce).map
      (fun s' => (reserved s', (writerStep s').isNone)) = some (1, true) := by
    decide +kernel
  obtain ⟨s', hs', hseen⟩ := Option.map_eq_some_iff.mp hexec
  obtain ⟨hreserved, hwriter⟩ := Prod.mk.inj hseen
  exact ⟨s', hs', hreserved, hwriter,
    loops_never_spin (.init (startSession_init Unit)) hs'⟩

/-- The reader can take a step unless it sleeps on the queue or has ended. -/
theorem reader_enabled {s : Session T} (hstop : s.stopEvent = true) :
    (∃ stopping n e, s.reader = .pushBlocked stopping n e) ∨ s.reader = .done ∨
      ∃ a s', 0 < SessionAction.cost a ∧ (sessionSystem valid T).step s a = some s' := by
  have hread : ∀ after, s.reader.call = some after → readerStep valid s = tryReadStep s after →
      ∃ a s', 0 < SessionAction.cost a ∧ (sessionSystem valid T).step s a = some s' := by
    intro after hcall hstep
    have hreader : (sessionSystem valid T).step s .reader = tryReadStep s after := hstep
    cases hc : consumerStep s.target.ring s.target.consumer with
    | some x =>
        obtain ⟨s', hs⟩ : ∃ s', tryReadStep s after = some s' := by
          rw [tryReadStep, hc]
          exact ⟨_, rfl⟩
        exact ⟨.reader, s', Nat.one_pos, hreader.trans hs⟩
    | none =>
        -- only the copy of a byte is not an operation of the reader itself
        cases hcons : s.target.consumer with
        | copying p e todo =>
            cases todo with
            | nil =>
                rw [hcons] at hc
                cases hc
            | cons i todo =>
                obtain ⟨target, ht⟩ : ∃ target, ringStep s.target (.readByte i) = some target := by
                  simp only [ringStep, hcons, List.mem_cons_self, if_true]
                  exact ⟨_, rfl⟩
                refine ⟨.readByte i, { s with target := target }, Nat.one_pos, ?_⟩
                exact congrArg (Option.map _) ht
        | loadingSequence p =>
            rw [hcons, consumerStep] at hc
            split at hc <;> cases hc
        | idle | storing =>
            rw [hcons] at hc
            cases hc
  have hmove : (∃ s', readerStep valid s = some s') →
      ∃ a s', 0 < SessionAction.cost a ∧ (sessionSystem valid T).step s a = some s' := by
    intro h
    obtain ⟨s', hs⟩ := h
    exact ⟨.reader, s', Nat.one_pos, hs⟩
  cases hr : s.reader with
  | pushBlocked stopping n e => exact Or.inl ⟨stopping, n, e, rfl⟩
  | done => exact Or.inr (Or.inl rfl)
  | reading stopping n =>
      exact Or.inr (Or.inr (hread (afterRead stopping n) (by rw [hr]; rfl)
        (by simp only [readerStep, hr])))
  | rereading stopping =>
      exact Or.inr (Or.inr (hread (afterReread stopping) (by rw [hr]; rfl)
        (by simp only [readerStep, hr])))
  | checking stopping n e =>
      refine Or.inr (Or.inr (hmove ?_))
      simp only [readerStep, hr]
      split <;> exact ⟨_, rfl⟩
  | pushing stopping n e =>
      refine Or.inr (Or.inr (hmove ?_))
      simp only [readerStep, hr]
      split <;> exact ⟨_, rfl⟩
  | waiting =>
      refine Or.inr (Or.inr (hmove ?_))
      simp only [readerStep, hr, hstop, if_true, ringStep]
      by_cases hw : s.target.wakeEvent = true
      · rw [if_pos hw, if_pos hw]
        exact ⟨_, rfl⟩
      · rw [if_neg hw]
        exact ⟨_, rfl⟩
  | notifying | reporting | clearing | finishing | announcing =>
      refine Or.inr (Or.inr (hmove ?_))
      simp only [readerStep, hr]
      exact ⟨_, rfl⟩

theorem writer_enabled (s : Session T) :
    s.writer = .popBlocked ∨ s.writer = .done ∨
      ∃ a s', 0 < SessionAction.cost a ∧ (sessionSystem valid T).step s a = some s' := by
  have hmove : (∃ s', writerStep s = some s') →
      ∃ a s', 0 < SessionAction.cost a ∧ (sessionSystem valid T).step s a = some s' := by
    intro h
    obtain ⟨s', hs⟩ := h
    exact ⟨.writer, s', Nat.one_pos, hs⟩
  cases hw : s.writer with
  | popBlocked => exact Or.inl rfl
  | done => exact Or.inr (Or.inl rfl)
  | popping =>
      refine Or.inr (Or.inr (hmove ?_))
      simp only [writerStep, hw]
      split
      · exact ⟨_, rfl⟩
      · split <;> exact ⟨_, rfl⟩
  | notifying | handling =>
      refine Or.inr (Or.inr (hmove ?_))
      simp only [writerStep, hw]
      exact ⟨_, rfl⟩

/-- Both threads have left their loops. -/
def Joined (s : Session T) : Prop := s.reader = .done ∧ s.writer = .done

/-- **NO DEADLOCK**: once the stop event is set, one of the two threads can take
    a step, or both have ended. -/
theorem joined_or_enabled {s : Session T} (h : Reachable (sessionSystem valid T) s)
    (hstop : s.stopEvent = true) :
    Joined s ∨
      ∃ a s', 0 < SessionAction.cost a ∧ (sessionSystem valid T).step s a = some s' := by
  obtain ⟨l, hhand⟩ := handOff_exists h
  have hann := (standing_reachable h).announced
  rcases @reader_enabled T _ valid s hstop with ⟨stopping, n, e, hr⟩ | hr | hstep
  · -- the reader sleeps over a full queue: the writer neither sleeps nor has ended
    rcases @writer_enabled T _ valid s with hw | hw | hstep
    · rcases hhand.full stopping n e hr with hfull | ⟨e', hw'⟩
      · rcases hhand.empty hw with ⟨hempty, -⟩ | ⟨_, _, hr'⟩ | hr'
        · rw [hempty] at hfull
          exact absurd hfull (by decide)
        · cases hr.symm.trans hr'
        · cases hr.symm.trans hr'
      · cases hw.symm.trans hw'
    · rcases hhand.finished (hhand.ended hw).1 with hr' | hr'
      · cases hr.symm.trans hr'
      · cases hr.symm.trans hr'
    · exact Or.inr hstep
  · -- the reader has ended: its announcement has reached the writer
    have hfin := hann (by rw [hr]; rfl)
    rcases @writer_enabled T _ valid s with hw | hw | hstep
    · rcases hhand.empty hw with ⟨-, hnot⟩ | ⟨_, _, hr'⟩ | hr'
      · cases hfin.symm.trans hnot
      · cases hr.symm.trans hr'
      · cases hr.symm.trans hr'
    · exact Or.inl ⟨hr, hw⟩
    · exact Or.inr hstep
  · exact Or.inr hstep

def SessionAction.spurious : SessionAction T → Bool
  | .wakeReader => true
  | .wakeWriter => true
  | _ => false

omit [DecidableEq T] in
/-- Without the target only spurious wake-ups add to the work. -/
theorem gained_controller {as : List (SessionAction T)}
    (h : ∀ a ∈ as, a.ofController = true) : gained as = as.countP SessionAction.spurious := by
  induction as with
  | nil => rfl
  | cons a as ih =>
      have hrest := ih fun b hb => h b (List.mem_cons_of_mem _ hb)
      have ha := h a List.mem_cons_self
      rw [gained, List.map_cons, List.sum_cons, List.countP_cons, ← hrest, gained]
      cases a with
      | target b => cases ha
      | _ => simp [SessionAction.gain, SessionAction.spurious, Nat.add_comm]

/-- What `Drain` can rely on from a state on: the target takes no further step. -/
structure DrainEnds (valid : TraceEvent → Bool) (s : Session T) : Prop where
  /-- The two threads take a bounded number of steps. -/
  bounded : ∀ as s', (∀ a ∈ as, a.ofController = true) →
    (sessionSystem valid T).exec s as = some s' →
      spent as ≤ drainBound + as.countP SessionAction.spurious
  /-- Wherever they stop, both have ended or one of them can go on. -/
  progress : ∀ as s', (sessionSystem valid T).exec s as = some s' →
    Joined s' ∨ ∃ a s'', 0 < SessionAction.cost a ∧ (sessionSystem valid T).step s' a = some s''
  /-- Their own steps lead to the end of both. -/
  ends : ∃ as s', (∀ a ∈ as, 0 < SessionAction.cost a) ∧
    (sessionSystem valid T).exec s as = some s' ∧ Joined s'

theorem stopEvent_stays {s s' : Session T} {a : SessionAction T} (h : s.stopEvent = true)
    (hs : sessionStep valid s a = some s') : s'.stopEvent = true := by
  by_cases ha : a = .requestStop
  · subst ha
    cases hs
    rfl
  · rw [(stop_step ha hs).1]
    exact h

/-- **DRAIN ENDS**: once the stop event is set, the reader and the writer end
    without the target, from every state that a run reaches. -/
theorem drain_ends {s : Session T} (h : Reachable (sessionSystem valid T) s)
    (hstop : s.stopEvent = true) : DrainEnds valid s := by
  have hkeep : ∀ s a s', (Reachable (sessionSystem valid T) s ∧ s.stopEvent = true) →
      (sessionSystem valid T).step s a = some s' →
      Reachable (sessionSystem valid T) s' ∧ s'.stopEvent = true :=
    fun s a s' hQ hs => ⟨session_keeps hQ.1 hs, stopEvent_stays hQ.2 hs⟩
  refine ⟨?_, ?_, ?_⟩
  · intro as s' hown hexec
    have hpays := run_pays h hexec
    have hle := work_le h
    have hsame : reserved s' = reserved s :=
      exec_keeps (Q := fun s' => reserved s' = reserved s) rfl as
        (fun _ a _ ha hq hs => (controller_reserves (hown a ha) hs).trans hq) hexec
    rw [gained_controller hown, hsame] at hpays
    omega
  · intro as s' hexec
    obtain ⟨hr, hset⟩ := exec_keeps ⟨h, hstop⟩ as (fun s a s' _ => hkeep s a s') hexec
    exact joined_or_enabled hr hset
  · have hlower := @exec_goal _ _ (sessionSystem valid T) _ work (fun a => 0 < SessionAction.cost a)
      Joined hkeep
    refine hlower ?_ ?_ ⟨h, hstop⟩
    · intro s a s' hQ ha hs
      have hpay := session_pays hQ.1 hs
      obtain ⟨hof, hgain⟩ : a.ofController = true ∧ a.gain = 0 := by
        cases a with
        | reader | readByte | waitFails | writer => exact ⟨rfl, rfl⟩
        | target | wakeReader | wakeWriter | requestStop => cases ha
      rw [controller_reserves hof hs] at hpay
      omega
    · exact fun s hQ => joined_or_enabled hQ.1 hQ.2

/-- An event is in the ring, another one in the queue, and the writer sleeps when
    the stop event is set. -/
def stopInFlight : List (SessionAction Unit) :=
  [.writer] ++ publishOne () ++ readOne ++
    [.target (.producer ()), .target (.setEvent () true), .target (.producer ())] ++
    publishOne () ++ [.requestStop]

theorem drain_ends_in_flight : ∃ s,
    (sessionSystem (fun _ => true) Unit).exec (startSession Unit) stopInFlight = some s ∧
      s.eventQueue.length = 1 ∧ unclaimed s.target = 1 ∧
      DrainEnds (fun _ => true) s := by
  have hexec : ((sessionSystem (fun _ => true) Unit).exec (startSession Unit) stopInFlight).map
      (fun s => (s.eventQueue.length, unclaimed s.target, s.stopEvent)) = some (1, 1, true) := by
    decide +kernel
  obtain ⟨s, hs, hseen⟩ := Option.map_eq_some_iff.mp hexec
  obtain ⟨hqueue, hrest⟩ := Prod.mk.inj hseen
  obtain ⟨hring, hstop⟩ := Prod.mk.inj hrest
  have hstart : Reachable (sessionSystem (fun _ => true) Unit) (startSession Unit) :=
    .init (startSession_init Unit)
  have hreach := hstart.exec (fun _ _ => trivial) stopInFlight hs
  exact ⟨s, hs, hqueue, hring, drain_ends hreach hstop⟩

end ScopeSession
