import ApiScope.HandOffProofs
import ApiScope.WakeUpProofs
import ApiScope.ReadBoundsProofs
import Mathlib.Data.List.TakeWhile

/-! # Drain — what is rendered when the target has exited

    The threads of the target may be terminated at any operation of
    `EmitTraceEvent`, as they are when the process exits.  `Drain` then sets
    the stop event and waits for the two loops.

    A thread that dies between the compare-exchange on `enqueuePosition` and
    the exchange that publishes its slot leaves a hole in the ring.
    `TryReadRing` never gets past it, and the events published behind it are
    lost (`drain_loses_event`).  If no published slot lies behind such a hole
    when the stop event is set, `Drain` delivers every event that was accepted
    before (`drain_delivers`). -/

namespace ScopeDrain

open ScopeProtocol ScopeTransition ScopeRing ScopeSession ScopeBounds ScopeGrammar
  ScopeParser

variable {T : Type} [DecidableEq T]

/-! ## Holes in the ring -/

/-- A published slot stays so until the reader releases it. -/
theorem published_step {s s' : RingState T} {a : RingAction T} (hi : RingInv s)
    (hs : ringStep s a = some s') {p : Nat} (hp : s.released ≤ p)
    (henq : p < s.ring.enqueuePosition) (hp' : s'.released ≤ p)
    (hseq : s.seqAt p = p + 1) : s'.seqAt p = p + 1 := by
  have hroom := hi.room
  cases ringStep_cases hs with
  | copy => exact (seqAt_setSlotByte _ _ _ _ _).trans hseq
  | @publish t e q hcopy =>
      obtain ⟨h1, h2, h3⟩ := hi.of_filling (t := t) (p := q) (by rw [hcopy]; rfl)
      have hne : p ≠ q := by
        rintro rfl
        omega
      have hidx := hi.slotIndex_ne h1 h2 hp (by omega) hne
      exact (congrArg TraceRingSlot.sequence (slot_setSlot_of_ne _ _ hidx)).trans hseq
  | @release q e hc =>
      obtain ⟨hrel, -, hlt, -⟩ := hi.of_reading hc
      have hp' : q + 1 ≤ p := hp'
      have hidx := hi.slotIndex_ne (Nat.le_of_eq hrel) hlt hp (by omega) (by omega)
      exact (congrArg TraceRingSlot.sequence (slot_setSlot_of_ne _ _ hidx)).trans hseq
  | _ => exact hseq

theorem released_mono {s s' : RingState T} {a : RingAction T} (hi : RingInv s)
    (hs : ringStep s a = some s') : s.released ≤ s'.released := by
  cases ringStep_cases hs with
  | readPosition hc | readNothing hc | readClaim hc | readCopy hc =>
      rw [RingState.released, RingState.released, hc]
  | @release q e hc =>
      rw [(hi.of_reading hc).1]
      exact Nat.le_succ q
  | @deliver q e hc =>
      rw [RingState.released, hc]
      exact Nat.le_refl _
  | _ => exact Nat.le_refl _

theorem enqueue_mono {s s' : RingState T} {a : RingAction T}
    (hs : ringStep s a = some s') : s.ring.enqueuePosition ≤ s'.ring.enqueuePosition := by
  cases ringStep_cases hs with
  | reserve hp henq =>
      rw [henq]
      exact Nat.le_succ _
  | _ => exact Nat.le_refl _

/-- Every reserved slot that is not published is that of a thread, running or
    terminated, between its compare-exchange and its publishing exchange. -/
def Filled (s : RingState T) : Prop :=
  ∀ p, s.released ≤ p → p < s.ring.enqueuePosition → s.seqAt p = p →
    ∃ t, (s.producers t).filling = some p

omit [DecidableEq T] in
theorem filled_init {s : RingState T} (h : RingInit s) : Filled s := by
  intro p _ hlt
  rw [h.1] at hlt
  exact absurd hlt (Nat.not_lt_zero p)

/-- A thread that was not filling a slot moves. -/
theorem Filled.move {s : RingState T} (h : Filled s) {t : T} {x : Producer}
    (hx : (s.producers t).filling = none) {p : Nat} (hp : s.released ≤ p)
    (henq : p < s.ring.enqueuePosition) (hseq : s.seqAt p = p) :
    ∃ u, (Function.update s.producers t x u).filling = some p := by
  obtain ⟨u, hu⟩ := h p hp henq hseq
  refine ⟨u, ?_⟩
  rw [Function.update_of_ne]
  · exact hu
  · rintro rfl
    rw [hx] at hu
    cases hu

theorem filled_step {s s' : RingState T} {a : RingAction T} (hi : RingInv s)
    (h : Filled s) (hs : ringStep s a = some s') : Filled s' := by
  have hroom := hi.room
  cases ringStep_cases hs with
  | reject | clearWake | takeWake | configure => exact h
  | call hp | count hp | loadPosition hp | loadSequence hp | drop hp | retry hp
  | wakeNot hp | wakeAgain hp | wakeFirst hp | signal hp | signalFail hp | unwake hp
  | ret hp =>
      intro p h1 h2 h3
      exact h.move (by rw [hp]; rfl) h1 h2 h3
  | @reserve t e q hp henq =>
      intro p h1 h2 h3
      have h2 : p < q + 1 := h2
      by_cases hpq : p = q
      · refine ⟨t, ?_⟩
        dsimp only [RingState.setProducer]
        rw [Function.update_self, hpq]
        rfl
      · exact h.move (by rw [hp]; rfl) h1 (by omega) h3
  | @copy t e q todo i hp hmem =>
      intro p h1 h2 h3
      obtain ⟨u, hu⟩ := h p h1 h2 ((seqAt_setSlotByte _ _ _ _ _).symm.trans h3)
      refine ⟨u, ?_⟩
      dsimp only [RingState.setProducer]
      by_cases hut : u = t
      · rw [hut, hp] at hu
        rw [hut, Function.update_self]
        exact hu
      · rw [Function.update_of_ne hut]
        exact hu
  | @publish t e q hp =>
      intro p h1 h2 h3
      obtain ⟨h4, h5, h6⟩ := hi.of_filling (t := t) (p := q) (by rw [hp]; rfl)
      -- the slot of q is published now, that of p is not
      have hne : p ≠ q := by
        rintro rfl
        have hself : ((s.ring.setSlotSequence p (p + 1)).slot p).sequence = p + 1 :=
          congrArg TraceRingSlot.sequence (slot_setSlot_self _ _ rfl)
        have h3 : ((s.ring.setSlotSequence p (p + 1)).slot p).sequence = p := h3
        omega
      have h1 : s.released ≤ p := h1
      have h2 : p < s.ring.enqueuePosition := h2
      have hidx := hi.slotIndex_ne h4 h5 h1 (by omega) hne
      have hslot : (s.ring.setSlotSequence q (q + 1)).slot p = s.ring.slot p :=
        slot_setSlot_of_ne _ _ hidx
      obtain ⟨u, hu⟩ := h p h1 h2 ((congrArg TraceRingSlot.sequence hslot).symm.trans h3)
      refine ⟨u, ?_⟩
      dsimp only [RingState.setProducer]
      rw [Function.update_of_ne]
      · exact hu
      · rintro rfl
        rw [hp] at hu
        exact hne (Option.some.inj hu).symm
  | readPosition hc | readNothing hc | readClaim hc | readCopy hc | deliver hc =>
      intro p h1 h2 h3
      have hrel : s.released ≤ p := by
        rw [RingState.released, hc]
        exact h1
      exact h p hrel h2 h3
  | @release q e hc =>
      intro p h1 h2 h3
      obtain ⟨hrel, -, hlt, -⟩ := hi.of_reading hc
      have h1 : q + 1 ≤ p := h1
      have h2 : p < s.ring.enqueuePosition := h2
      have hidx := hi.slotIndex_ne (Nat.le_of_eq hrel) hlt (show s.released ≤ p by omega)
        (by omega) (by omega)
      have hslot : (s.ring.setSlotSequence q (q + traceRingCapacity)).slot p
          = s.ring.slot p := slot_setSlot_of_ne _ _ hidx
      exact h p (by omega) h2 ((congrArg TraceRingSlot.sequence hslot).symm.trans h3)

/-- No published slot lies behind that of a thread between its compare-exchange
    and its publishing exchange. -/
def NoHole (s : RingState T) : Prop :=
  ∀ t p, (s.producers t).filling = some p →
    ∀ q, p < q → q < s.ring.enqueuePosition → s.seqAt q ≠ q + 1

omit [DecidableEq T] in
/-- Then everything in front of a published slot is published. -/
theorem NoHole.published {s : RingState T} (h : NoHole s) (hi : RingInv s) (hf : Filled s)
    {p q : Nat} (hp : s.released ≤ p) (hpq : p ≤ q) (hq : q < s.ring.enqueuePosition)
    (hseq : s.seqAt q = q + 1) : s.seqAt p = p + 1 := by
  rcases hi.taken p hp (by omega) with hfree | hdone
  · obtain ⟨t, ht⟩ := hf p hp (by omega) hfree
    rcases Nat.lt_or_eq_of_le hpq with hlt | rfl
    · exact absurd hseq (h t p ht q hlt hq)
    · omega
  · exact hdone

/-! ## The ring in the history of the session -/

def asRing : SessionEvent T → Option (RingEvent T)
  | .ring v => some v
  | _ => none

/-- The history of the ring underneath. -/
def ringHistory (h : List (SessionEvent T)) : List (RingEvent T) := h.filterMap asRing

omit [DecidableEq T] in
theorem ringHistory_append (h o : List (SessionEvent T)) :
    ringHistory (h ++ o) = ringHistory h ++ ringHistory o := List.filterMap_append

omit [DecidableEq T] in
theorem ringHistory_ring (l : List (RingEvent T)) : ringHistory (l.map .ring) = l := by
  induction l with
  | nil => rfl
  | cons v l ih => exact congrArg (v :: ·) ih

omit [DecidableEq T] in
theorem mem_ringHistory {h : List (SessionEvent T)} {v : RingEvent T} :
    v ∈ ringHistory h ↔ .ring v ∈ h := by
  rw [ringHistory, List.mem_filterMap]
  constructor
  · rintro ⟨x, hx, heq⟩
    cases x with
    | ring w =>
        cases heq
        exact hx
    | _ => cases heq
  · intro hv
    exact ⟨_, hv, rfl⟩

omit [DecidableEq T] in
theorem ringHistory_readObserve (s : Session T) : ringHistory (readObserve s) = [] := by
  rw [readObserve]
  split <;> rfl

variable {valid : TraceEvent → Bool}

/-- A step of the session is a step of the ring, seen as one, or is none. -/
theorem session_traced {s s' : Session T} {a : SessionAction T}
    (h : sessionStep valid s a = some s') :
    (s'.target = s.target ∧ ringHistory (sessionObserve s a) = []) ∨
      ∃ b, ringStep s.target b = some s'.target ∧
        ringHistory (sessionObserve s a) = observe s.target b := by
  cases sessionStep_cases valid h with
  | @target b target' ha hs => exact Or.inr ⟨b, hs, ringHistory_ring _⟩
  | @copy i target' hs => exact Or.inr ⟨.readByte i, hs, rfl⟩
  | readOn hr hc =>
      refine Or.inr ⟨.consumer, consumer_of_tryRead hc, ?_⟩
      rw [observe_call hr, ringHistory_append, ringHistory_ring, ringHistory_readObserve,
        List.append_nil]
  | readReturn hr hc =>
      refine Or.inr ⟨.consumer, consumer_of_tryRead hc, ?_⟩
      rw [observe_call hr, ringHistory_append, ringHistory_ring, ringHistory_readObserve,
        List.append_nil]
  | clear hr =>
      refine Or.inr ⟨.clearWakePending, rfl, ?_⟩
      simp only [sessionObserve, hr]
      rfl
  | wake hr hw =>
      refine Or.inr ⟨.takeWakeEvent, ?_, ?_⟩
      · rw [ringStep, if_pos hw]
      · simp only [sessionObserve, hr, hw, if_true]
        rfl
  | accept hr | ignore hr | push hr | pushBlock hr | notify hr | report hr | finish hr
  | announce hr =>
      refine Or.inl ⟨rfl, ?_⟩
      simp only [sessionObserve, hr]
      rfl
  | stop hr hw =>
      refine Or.inl ⟨rfl, ?_⟩
      simp only [sessionObserve, hr, hw, Bool.false_eq_true, if_false]
      rfl
  | pop hw | popEnd hw | popBlock hw | notifyReader hw | handled hw =>
      refine Or.inl ⟨rfl, ?_⟩
      simp only [sessionObserve, hw]
      rfl
  | waitFail | spuriousReader | spuriousWriter | requestStop => exact Or.inl ⟨rfl, rfl⟩

/-- The ring of a session and its history are those of a run of the ring. -/
theorem ring_of_traced {ok : Session T → SessionAction T → Prop}
    {p : Session T × List (SessionEvent T)}
    (h : ReachableIf (tracedSession valid T) (fun p a => ok p.1 a) p) :
    Reachable (tracedRing T) (p.1.target, ringHistory p.2) := by
  refine h.project (N := tracedRing T) (fun p => (p.1.target, ringHistory p.2)) ?_ ?_
  · rintro p ⟨h0, hnil⟩
    refine ⟨h0.1, ?_⟩
    rw [hnil]
    rfl
  · intro p a p' _ hs
    obtain ⟨hstep, hhist⟩ := traced_step hs
    rw [hhist]
    rcases session_traced hstep with ⟨htarget, hnil⟩ | ⟨b, hb, ho⟩
    · refine Or.inl ?_
      rw [htarget, ringHistory_append, hnil, List.append_nil]
    · refine Or.inr ⟨b, trivial, ?_⟩
      show ((ringSystem T).step p.1.target b).map _ = _
      rw [show (ringSystem T).step p.1.target b = some p'.1.target from hb, Option.map_some,
        ringHistory_append, ho]

theorem reads_observe {s s' : Session T} {a : SessionAction T}
    (h : sessionStep valid s a = some s') :
    reads (sessionObserve s a) = deliveries (ringHistory (sessionObserve s a)) := by
  cases sessionStep_cases valid h with
  -- a step of a producer delivers nothing
  | @target b target' ha hs =>
      rw [sessionObserve, reads_ring, ringHistory_ring]
      cases ringStep_cases hs with
      | reject hp hno | call hp hno => simp only [observe, hp, hno]; rfl
      | count hp | loadPosition hp | loadSequence hp | publish hp | wakeNot hp
      | wakeAgain hp | wakeFirst hp | unwake hp | ret hp =>
          simp only [observe, hp]
          rfl
      | drop hp hlt =>
          simp only [observe, hp, hlt, if_true]
          rfl
      | reserve hp henq =>
          simp only [observe, hp, henq, Nat.lt_irrefl, if_false, and_self, if_true]
          rfl
      | retry hp hge hne =>
          simp only [observe, hp, Nat.not_lt.mpr hge, hne, if_false]
          rfl
      | copy | signal | signalFail | configure => rfl
      | readPosition | readNothing | readClaim | readCopy | release | deliver | clearWake
      | takeWake => cases ha
  | copy => rfl
  | readOn hr hc =>
      rw [observe_call hr, readObserve_on hc, List.append_nil, reads_ring, ringHistory_ring]
      cases hcs : s.target.consumer with
      | idle => simp only [observe, hcs]; rfl
      | loadingSequence p => simp only [observe, hcs]; rfl
      | copying p e todo =>
          cases todo with
          | nil => simp only [observe, hcs]; rfl
          | cons i todo => simp only [observe, hcs]; rfl
      | storing p e =>
          rw [hcs] at hc
          cases hc
  | @readReturn after r c result hr hc =>
      rw [observe_call hr, readObserve_return hc, reads_append, reads_ring,
        ringHistory_append, ringHistory_ring, deliveries_append]
      cases hcs : s.target.consumer with
      | idle =>
          rw [hcs] at hc
          cases hc
      | loadingSequence p =>
          rw [hcs, consumerStep] at hc
          split at hc
          · cases hc
            simp only [observe, hcs]
            rfl
          · cases hc
      | copying p e todo =>
          rw [hcs] at hc
          cases todo <;> cases hc
      | storing p e =>
          rw [hcs] at hc
          cases hc
          simp only [observe, hcs]
          rfl
  | accept hr | ignore hr | push hr | pushBlock hr | notify hr | report hr | finish hr
  | announce hr | clear hr =>
      simp only [sessionObserve, hr]
      rfl
  | wake hr hw =>
      simp only [sessionObserve, hr, hw, if_true]
      rfl
  | stop hr hw =>
      simp only [sessionObserve, hr, hw, Bool.false_eq_true, if_false]
      rfl
  | pop hw | popEnd hw | popBlock hw | notifyReader hw | handled hw =>
      simp only [sessionObserve, hw]
      rfl
  | waitFail | spuriousReader | spuriousWriter | requestStop => rfl

/-- What the session reads is what the ring delivers. -/
theorem reads_eq_deliveries {ok : Session T → SessionAction T → Prop}
    {p : Session T × List (SessionEvent T)}
    (h : ReachableIf (tracedSession valid T) (fun p a => ok p.1 a) p) :
    reads p.2 = deliveries (ringHistory p.2) := by
  refine traced_invariant (Q := fun _ => True)
    (P := fun _ h => reads h = deliveries (ringHistory h)) (fun _ _ => trivial)
    (fun _ _ => rfl) ?_ h
  intro s h a s' _ hold _ hs
  rw [reads_append, ringHistory_append, deliveries_append, hold, reads_observe hs]

theorem filled_of_traced {ok : Session T → SessionAction T → Prop}
    {p : Session T × List (SessionEvent T)}
    (h : ReachableIf (tracedSession valid T) (fun p a => ok p.1 a) p) : Filled p.1.target := by
  have hring : Reachable (ringSystem T) p.1.target := (ring_of_traced h).untraced
  exact hring.invariant_under (P := Filled) (fun _ hr => ringInv_reachable hr)
    (fun _ => filled_init) (fun _ _ _ hi hf _ hs => filled_step hi hf hs)

/-! ## The end of the reader -/

def isStopRequest : SessionEvent T → Bool
  | .stopRequested => true
  | _ => false

/-- What had happened when the stop event was set. -/
def beforeStop (h : List (SessionEvent T)) : List (SessionEvent T) :=
  h.takeWhile fun v => !isStopRequest v

omit [DecidableEq T] in
/-- Nothing that happens later changes what had happened before. -/
theorem beforeStop_append {h : List (SessionEvent T)} (hmem : .stopRequested ∈ h)
    (o : List (SessionEvent T)) : beforeStop (h ++ o) = beforeStop h := by
  induction h with
  | nil => cases hmem
  | cons v h ih =>
      rw [beforeStop, beforeStop, List.cons_append, List.takeWhile_cons, List.takeWhile_cons]
      by_cases hv : isStopRequest v = true
      · rw [hv]
        rfl
      · have hne : v ≠ .stopRequested := by
          rintro rfl
          exact hv rfl
        have hmem : .stopRequested ∈ h := (List.mem_cons.mp hmem).resolve_left (Ne.symm hne)
        rw [Bool.not_eq_true] at hv
        rw [hv]
        exact congrArg (v :: ·) (ih hmem)

/-- The call of `EmitTraceEvent` that published `e` at `q` returned true before
    the stop event was set. -/
def AcceptedBeforeStop (h : List (SessionEvent T)) (e : TraceEvent) (q : Nat) : Prop :=
  ∃ t, .ring (.returned t e (some q)) ∈ beforeStop h

/-- The steps of a run in which the wait works, and no published slot lies
    behind a hole when the stop event is set. -/
def SetsStopClear (s : Session T) (a : SessionAction T) : Prop :=
  WaitWorks s a ∧ (a = .requestStop → s.stopEvent = false → NoHole s.target)

/-- Everything accepted before the stop is published up to it until it is read,
    and read when the reader leaves. -/
structure Drained (s : Session T) (h : List (SessionEvent T)) : Prop where
  requested : s.stopEvent = true ↔ .stopRequested ∈ h
  idle : s.reader.call = none → s.target.consumer = .idle
  clear : s.stopEvent = true → ∀ e q, AcceptedBeforeStop h e q →
    q < s.target.ring.enqueuePosition ∧
      ∀ p, s.target.released ≤ p → p ≤ q → s.target.seqAt p = p + 1
  passed : s.reader.left = true → ∀ e q, AcceptedBeforeStop h e q → q < s.target.released

omit [DecidableEq T] in
theorem drained_init {s : Session T} (h : SessionInit s) : Drained s [] := by
  obtain ⟨hring, hr, -, -, -, hstop, -⟩ := h
  refine ⟨?_, fun _ => hring.2.2.1, ?_, ?_⟩
  · rw [hstop]
    exact ⟨nofun, nofun⟩
  · intro hset
    rw [hstop] at hset
    cases hset
  · intro hleft
    rw [hr] at hleft
    cases hleft

/-- The reader leaves its loop after a read that found nothing. -/
theorem left_step {s s' : Session T} {a : SessionAction T} (hwait : WaitWorks s a)
    (hs : sessionStep valid s a = some s') (hleft : s'.reader.left = true) :
    s.reader.left = true ∨ s.reader = .rereading true ∧
      ∃ r c, consumerStep s.target.ring s.target.consumer = some (r, c, some none) ∧
        s'.target = { s.target with ring := r, consumer := c } := by
  have next : ∀ {r : Reader} {stopping : Bool} {n : Nat}, r = nextRead stopping n →
      r.left ≠ true := by
    rintro r stopping n rfl hl
    rw [nextRead_left] at hl
    cases hl
  cases sessionStep_cases valid hs with
  | @readReturn after r c result hr hc =>
      rcases call_cases hr with ⟨stopping, n, -, rfl⟩ | ⟨stopping, hre, rfl⟩
      · cases result <;> cases hleft
      · cases result with
        | some e => cases hleft
        | none =>
            cases stopping with
            | false => cases hleft
            | true => exact Or.inr ⟨hre, r, c, hc, rfl⟩
  | ignore hr | notify hr => exact absurd hleft (next rfl)
  | wake hr => exact absurd hleft (@next _ false 0 rfl)
  | stop hr => exact absurd hleft (@next _ true 0 rfl)
  | @report stopping n reported hr =>
      by_cases hn : n ≠ 0
      · exact absurd hleft (next (if_pos hn))
      · dsimp only at hleft
        rw [if_neg hn] at hleft
        cases hleft
  | accept | push | pushBlock | clear => cases hleft
  | finish hr | announce hr =>
      left
      rw [hr]
      rfl
  | waitFail => exact absurd rfl hwait
  | notifyReader | spuriousReader => exact Or.inl ((notified_log _).2.1 ▸ hleft)
  | _ => exact Or.inl hleft

/-- The consumer is in a call exactly when the reader is. -/
theorem consumer_idle_step {s s' : Session T} {a : SessionAction T}
    (h : s.reader.call = none → s.target.consumer = .idle)
    (hs : sessionStep valid s a = some s') :
    s'.reader.call = none → s'.target.consumer = .idle := by
  cases sessionStep_cases valid hs with
  | target ha hring =>
      intro hcall
      have hidle := h hcall
      cases ringStep_cases hring with
      | readPosition | readNothing | readClaim | readCopy | release | deliver =>
          cases ha
      | _ => exact hidle
  | copy hring =>
      intro hcall
      have hidle := h hcall
      cases ringStep_cases hring with
      | readCopy hc => cases hidle.symm.trans hc
  | readOn hr hc =>
      intro hcall
      cases hr.symm.trans hcall
  | readReturn hr hc => exact fun _ => (consumerStep_spec hc).2.1 nofun
  | accept hr | ignore hr | push hr | pushBlock hr | notify hr | report hr | clear hr
  | wake hr | stop hr | finish hr | announce hr | waitFail hr =>
      intro _
      refine h ?_
      rw [hr]
      rfl
  | notifyReader | spuriousReader =>
      intro hcall
      refine h ?_
      cases hr : s.reader <;> rw [hr] at hcall <;> first | rfl | cases hcall
  | _ => exact h

omit [DecidableEq T] in
/-- The stop event is set: what was accepted before is published, and nothing in
    front of it is not. -/
theorem drained_request {s : Session T} {h : List (SessionEvent T)} (hi : RingInv s.target)
    (hf : Filled s.target) (hh : RingHistory s.target (ringHistory h)) (hl : ReaderLog s h)
    (hd : Drained s h) (hhole : s.stopEvent = false → NoHole s.target) :
    Drained { s with stopEvent := true } (h ++ [.stopRequested]) := by
  have hmem : .stopRequested ∈ h ++ [(.stopRequested : SessionEvent T)] :=
    List.mem_append_right _ List.mem_cons_self
  by_cases hset : s.stopEvent = true
  · have hold : ∀ {e q}, AcceptedBeforeStop (h ++ [.stopRequested]) e q →
        AcceptedBeforeStop h e q := by
      intro e q hacc
      rwa [AcceptedBeforeStop, beforeStop_append (hd.requested.mp hset)] at hacc
    exact ⟨⟨fun _ => hmem, fun _ => rfl⟩, hd.idle,
      fun _ e q hacc => hd.clear hset e q (hold hacc),
      fun hleft e q hacc => hd.passed hleft e q (hold hacc)⟩
  · have hno : .stopRequested ∉ h := fun hin => hset (hd.requested.mpr hin)
    have hnow : beforeStop (h ++ [(.stopRequested : SessionEvent T)]) = h := by
      rw [beforeStop, List.takeWhile_append_of_pos, List.takeWhile_cons_of_neg Bool.false_ne_true,
        List.append_nil]
      intro v hv
      cases v with
      | stopRequested => exact absurd hv hno
      | _ => rfl
    refine ⟨⟨fun _ => hmem, fun _ => rfl⟩, hd.idle, fun _ e q hacc => ?_,
      fun hleft e q hacc => ?_⟩
    · obtain ⟨t, ht⟩ := hacc
      rw [hnow] at ht
      have hpub : ⟨t, q, e⟩ ∈ publications (ringHistory h) :=
        hh.outcomes.returned _ [] (List.append_nil _).symm t e q (mem_ringHistory.mpr ht)
      have henq := hh.delivery.below _ hpub
      refine ⟨henq, fun p hp hpq => ?_⟩
      have hseq := (hh.delivery.pending _ hpub (Nat.le_trans hp hpq)).1
      exact (hhole (Bool.eq_false_iff.mpr hset)).published hi hf hp hpq henq hseq
    · obtain ⟨l, heq, hseen⟩ := hl.left hleft
      refine absurd (hl.requested ?_) hset
      rw [heq]
      exact List.mem_append_left _ hseen

/-- Only the request sets the stop event. -/
theorem stop_step {s s' : Session T} {a : SessionAction T} (ha : a ≠ .requestStop)
    (hs : sessionStep valid s a = some s') :
    s'.stopEvent = s.stopEvent ∧ .stopRequested ∉ sessionObserve s a := by
  have hring : ∀ l : List (RingEvent T), (.stopRequested : SessionEvent T) ∉ l.map .ring := by
    intro l hmem
    obtain ⟨v, -, hv⟩ := List.mem_map.mp hmem
    cases hv
  cases sessionStep_cases valid hs with
  | target => exact ⟨rfl, hring _⟩
  | copy => exact ⟨rfl, List.not_mem_nil⟩
  | readOn hr hc =>
      refine ⟨rfl, ?_⟩
      rw [observe_call hr, readObserve_on hc, List.append_nil]
      exact hring _
  | readReturn hr hc =>
      refine ⟨rfl, ?_⟩
      rw [observe_call hr, readObserve_return hc]
      intro hmem
      rcases List.mem_append.mp hmem with hmem | hmem
      · exact hring _ hmem
      · cases List.mem_singleton.mp hmem
  | accept hr | ignore hr | push hr | pushBlock hr | notify hr | report hr | finish hr
  | announce hr | clear hr =>
      refine ⟨rfl, ?_⟩
      simp [sessionObserve, hr]
  | wake hr hw | stop hr hw =>
      refine ⟨rfl, ?_⟩
      simp [sessionObserve, hr, hw]
  | pop hw | popEnd hw | popBlock hw | notifyReader hw | handled hw =>
      refine ⟨rfl, ?_⟩
      simp [sessionObserve, hw]
  | waitFail | spuriousReader | spuriousWriter => exact ⟨rfl, List.not_mem_nil⟩
  | requestStop => exact absurd rfl ha

omit [DecidableEq T] in
/-- A read that finds nothing has seen an unpublished head. -/
theorem head_of_nothing {s : Session T} (hi : RingInv s.target) {r : TraceRing} {c : Consumer}
    (hc : consumerStep s.target.ring s.target.consumer = some (r, c, some none)) :
    s.target.seqAt s.target.released ≠ s.target.released + 1 := by
  obtain ⟨-, -, hnothing⟩ := consumerStep_spec hc
  obtain ⟨-, p, hload, hne⟩ := hnothing rfl
  have hpos : p = s.target.ring.dequeuePosition := by
    have hconsumer := hi.consumer
    rwa [hload] at hconsumer
  have hrel : s.target.released = p := by
    rw [RingState.released, hload]
    exact hpos.symm
  rw [hrel]
  exact hne

/-- **DRAIN STEP**: every admitted step keeps what was accepted before the stop
    within reach of the reader. -/
theorem drained_step {s s' : Session T} {a : SessionAction T} {h : List (SessionEvent T)}
    (hi : RingInv s.target) (hf : Filled s.target)
    (hh : RingHistory s.target (ringHistory h)) (hl : ReaderLog s h) (hd : Drained s h)
    (hok : SetsStopClear s a) (hs : sessionStep valid s a = some s') :
    Drained s' (h ++ sessionObserve s a) := by
  by_cases hreq : a = .requestStop
  · subst hreq
    cases hs
    exact drained_request hi hf hh hl hd (hok.2 rfl)
  obtain ⟨hstop, hno⟩ := stop_step hreq hs
  have hold : s.stopEvent = true → ∀ {e q}, AcceptedBeforeStop (h ++ sessionObserve s a) e q →
      AcceptedBeforeStop h e q := by
    intro hset e q hacc
    rwa [AcceptedBeforeStop, beforeStop_append (hd.requested.mp hset)] at hacc
  have hmove : s.target.released ≤ s'.target.released ∧
      s.target.ring.enqueuePosition ≤ s'.target.ring.enqueuePosition ∧
      ∀ p, s.target.released ≤ p → p < s.target.ring.enqueuePosition →
        s'.target.released ≤ p → s.target.seqAt p = p + 1 → s'.target.seqAt p = p + 1 := by
    rcases session_traced hs with ⟨htarget, -⟩ | ⟨b, hb, -⟩
    · rw [htarget]
      exact ⟨Nat.le_refl _, Nat.le_refl _, fun _ _ _ _ h => h⟩
    · exact ⟨released_mono hi hb, enqueue_mono hb, fun p => published_step hi hb⟩
  obtain ⟨hrel, henq, hkeep⟩ := hmove
  refine ⟨?_, consumer_idle_step hd.idle hs, ?_, ?_⟩
  · rw [hstop, hd.requested, List.mem_append, or_iff_left hno]
  · intro hset e q hacc
    rw [hstop] at hset
    obtain ⟨hq, hclear⟩ := hd.clear hset e q (hold hset hacc)
    exact ⟨by omega, fun p hp hpq =>
      hkeep p (by omega) (by omega) hp (hclear p (by omega) hpq)⟩
  · intro hleft e q hacc
    rcases left_step hok.1 hs hleft with hwas | ⟨hre, r, c, hc, htarget⟩
    · obtain ⟨l, heq, hseen⟩ := hl.left hwas
      have hset := hl.requested (by rw [heq]; exact List.mem_append_left _ hseen)
      exact Nat.lt_of_lt_of_le (hd.passed hwas e q (hold hset hacc)) hrel
    · -- the head is not published, so it lies behind everything accepted
      have hset := hl.requested (hl.stopping (by rw [hre]; rfl))
      obtain ⟨-, hclear⟩ := hd.clear hset e q (hold hset hacc)
      refine Nat.lt_of_lt_of_le ?_ hrel
      by_contra hge
      exact head_of_nothing hi hc (hclear _ (Nat.le_refl _) (Nat.not_lt.mp hge))

theorem drained_reachable {p : Session T × List (SessionEvent T)}
    (h : ReachableIf (tracedSession valid T) (fun p a => SetsStopClear p.1 a) p) :
    HandOffSafe valid p.1 p.2 ∧ RingHistory p.1.target (ringHistory p.2) ∧
      Drained p.1 p.2 := by
  have hfacts : ∀ p, ReachableIf (tracedSession valid T) (fun p a => SetsStopClear p.1 a) p →
      RingInv p.1.target ∧ Filled p.1.target ∧
        RingHistory p.1.target (ringHistory p.2) ∧ ReaderLog p.1 p.2 := by
    intro p hp
    obtain ⟨hi, hh⟩ := ringHistory_reachable (ring_of_traced hp)
    refine ⟨hi, filled_of_traced hp, hh, ?_⟩
    exact traced_invariant (Q := fun _ => True) (P := ReaderLog) (fun _ _ => trivial)
      (fun _ => readerLog_init)
      (fun _ _ _ _ _ hl hok hs => readerLog_step hl hok.1 hs) hp
  refine ⟨(handOff_reachable h).safe (hfacts p h).2.2.2, (hfacts p h).2.2.1, ?_⟩
  refine ReachableIf.invariant_under (P := fun p => Drained p.1 p.2) hfacts ?_ ?_ h
  · rintro p ⟨h0, hnil⟩
    rw [hnil]
    exact drained_init h0
  · rintro p a p' ⟨hi, hf, hh, hl⟩ hd hok hs
    obtain ⟨hstep, hhist⟩ := traced_step hs
    rw [hhist]
    exact drained_step hi hf hh hl hd hok hstep

/-! ## Threads that are terminated -/

/-- The check of `queueEvent`: `IsValidTraceEvent(event, event.header.size)`. -/
def receivedValid (e : TraceEvent) : Bool := isValidReceived.run e.byte

/-- The session, and the threads of the target that were terminated. -/
structure Exit (T : Type) where
  session : Session T
  terminated : T → Bool

inductive ExitAction (T : Type) where
  | session (a : SessionAction T)
  /-- A thread is terminated at the operation it was about to do. -/
  | terminate (t : T)

/-- The thread of the target that takes a step. -/
def actor : SessionAction T → Option T
  | .target (.emit t _) => some t
  | .target (.producer t) => some t
  | .target (.copyByte t _) => some t
  | .target (.setEvent t _) => some t
  | _ => none

/-- A terminated thread takes no further step; its slot stays as it is. -/
def exitStep (s : Exit T) : ExitAction T → Option (Exit T)
  | .session a =>
      if (actor a).any s.terminated then none
      else (sessionStep receivedValid s.session a).map fun session =>
        { s with session := session }
  | .terminate t => some { s with terminated := Function.update s.terminated t true }

def exitObserve (s : Exit T) : ExitAction T → List (SessionEvent T)
  | .session a => sessionObserve s.session a
  | .terminate _ => []

def exitSystem (T : Type) [DecidableEq T] :
    System (Exit T × List (SessionEvent T)) (ExitAction T) :=
  (⟨fun s => SessionInit s.session ∧ ∀ t, s.terminated t = false, exitStep⟩ :
    System (Exit T) (ExitAction T)).traced exitObserve

/-- When `Drain` returns, every well-formed event that `EmitTraceEvent` accepted
    before the stop event was set has been rendered. -/
def DrainDelivers (p : Exit T × List (SessionEvent T)) : Prop :=
  p.1.session.reader = .done → p.1.session.writer = .done →
    ∀ e q, AcceptedBeforeStop p.2 e q → receivedValid e = true →
      ∃ d ∈ renders p.2, Copied d e

/-- The steps of a run in which the wait works, and no published slot lies
    behind one that a thread, terminated or not, has reserved and not published
    when the stop event is set. -/
def ExitsClear (p : Exit T × List (SessionEvent T)) (a : ExitAction T) : Prop :=
  ∀ b, a = .session b → SetsStopClear p.1.session b

/-- The session of a run with terminated threads is that of a run without. -/
theorem session_of_exit {ok : Session T → SessionAction T → Prop}
    {p : Exit T × List (SessionEvent T)}
    (h : ReachableIf (exitSystem T)
      (fun p a => ∀ b, a = .session b → ok p.1.session b) p) :
    ReachableIf (tracedSession receivedValid T) (fun p a => ok p.1 a)
      (p.1.session, p.2) := by
  refine h.project (N := tracedSession receivedValid T) (fun p => (p.1.session, p.2)) ?_ ?_
  · rintro p ⟨h0, hnil⟩
    exact ⟨h0.1, hnil⟩
  · intro p a p' hok hs
    obtain ⟨hstep, hhist⟩ := traced_step hs
    cases a with
    | terminate t =>
        have hstep : some { p.1 with terminated := Function.update p.1.terminated t true }
          = some p'.1 := hstep
        refine Or.inl ?_
        rw [hhist, ← Option.some.inj hstep]
        exact congrArg (Prod.mk _) (List.append_nil _)
    | session b =>
        have hstep : exitStep p.1 (.session b) = some p'.1 := hstep
        rw [exitStep] at hstep
        split at hstep
        · cases hstep
        · obtain ⟨session, hb, heq⟩ := Option.map_eq_some_iff.mp hstep
          refine Or.inr ⟨b, hok b rfl, ?_⟩
          rw [hhist, ← heq]
          show ((sessionSystem receivedValid T).step p.1.session b).map _ = _
          rw [show (sessionSystem receivedValid T).step p.1.session b = some session from hb]
          rfl

/-- What holds of every run, whether the wait works or not. -/
theorem exit_facts {p : Exit T × List (SessionEvent T)} (h : Reachable (exitSystem T) p) :
    HandOff receivedValid p.1.session p.2 ∧
      RingHistory p.1.session.target (ringHistory p.2) ∧
      reads p.2 = deliveries (ringHistory p.2) := by
  have hrun := @session_of_exit T _ (fun _ _ => True) p (h.mono fun _ _ _ _ _ => trivial)
  exact ⟨@handOff_reachable _ _ _ (fun _ _ => True) _ hrun,
    (ringHistory_reachable (@ring_of_traced _ _ _ (fun _ _ => True) _ hrun)).2,
    @reads_eq_deliveries _ _ _ (fun _ _ => True) _ hrun⟩

theorem receivedValid_congr {d e : TraceEvent} (hsize : sizeofEventHeader ≤ e.size)
    (h : Copied d e) : receivedValid d = receivedValid e := by
  have hagree : ∀ i, Declared e i → d.byte i = e.byte i := by
    rintro i (hi | hi)
    · exact h i (by omega)
    · exact h i hi
  exact (ScopeRead.Read.run_eq_of_within (within_isValidReceived e)
    fun i hi => (hagree i hi).symm).symm

/-- **DRAIN**: if no published slot lies behind a hole when the stop event is
    set, `Drain` delivers every event that was accepted before. -/
theorem drain_delivers {p : Exit T × List (SessionEvent T)}
    (h : ReachableIf (exitSystem T) ExitsClear p) : DrainDelivers p := by
  intro hr hw e q hacc hvalid
  have hrun := session_of_exit h
  obtain ⟨hsafe, hh, hd⟩ := drained_reachable hrun
  have hpassed := hd.passed (by rw [hr]; rfl) e q hacc
  have hidle : p.1.session.target.consumer = .idle := hd.idle (by rw [hr]; rfl)
  have hdeq : p.1.session.target.released = p.1.session.target.ring.dequeuePosition := by
    rw [RingState.released, hidle]
  obtain ⟨t, ht⟩ := hacc
  have hmem : .ring (.returned t e (some q)) ∈ p.2 :=
    (List.takeWhile_prefix _).subset ht
  have hpub : ⟨t, q, e⟩ ∈ publications (ringHistory p.2) :=
    hh.outcomes.returned _ [] (List.append_nil _).symm t e q (mem_ringHistory.mpr hmem)
  have hlen : q < (deliveries (ringHistory p.2)).length := by
    rw [hh.delivery.count, ← hdeq]
    exact hpassed
  have hget := List.getElem?_eq_getElem hlen
  have hcopied := hh.delivery.copied hpub hget
  have hsize := (hh.delivery.sized _ hpub).1
  refine ⟨_, ?_, hcopied⟩
  rw [hsafe.complete hr hw, reads_eq_deliveries hrun]
  exact List.mem_filter.mpr ⟨List.getElem_mem hlen,
    (receivedValid_congr hsize hcopied).trans hvalid⟩

/-! ## Two runs -/

/-- An event with two names and no fields. -/
def namedRecord : TraceRecord :=
  { flags := 0, sequence := 0, timestamp100ns := 0, threadId := 0, reserved := 0
    moduleName := [0x61], apiName := [0x62], fields := [] }

def targetSteps {T : Type} (as : List (RingAction T)) : List (ExitAction T) :=
  as.map fun a => .session (.target a)

/-- A thread emits the event and returns. -/
def emitOne {T : Type} (t : T) : List (ExitAction T) :=
  targetSteps ([.emit t namedRecord.event] ++ List.replicate 4 (.producer t) ++
    (List.range namedRecord.size).map (.copyByte t) ++ List.replicate 2 (.producer t) ++
    [.setEvent t true, .producer t])

def readerSteps {T : Type} (n : Nat) : List (ExitAction T) :=
  List.replicate n (.session .reader)

def writerSteps {T : Type} (n : Nat) : List (ExitAction T) :=
  List.replicate n (.session .writer)

def startExit (T : Type) : Exit T × List (SessionEvent T) :=
  (⟨startSession T, fun _ => false⟩, [])

/-- A well-formed event was accepted before the stop. -/
def acceptedOne (h : List (SessionEvent T)) : Bool :=
  (beforeStop h).any fun v =>
    match v with
    | .ring (.returned _ e (some _)) => receivedValid e
    | _ => false

omit [DecidableEq T] in
theorem acceptedOne_iff {h : List (SessionEvent T)} (hacc : acceptedOne h = true) :
    ∃ e q, AcceptedBeforeStop h e q ∧ receivedValid e = true := by
  obtain ⟨v, hv, hgood⟩ := List.any_eq_true.mp hacc
  cases v with
  | ring w =>
      cases w with
      | returned t e position =>
          cases position with
          | some q => exact ⟨e, q, ⟨t, hv⟩, hgood⟩
          | none => cases hgood
      | _ => cases hgood
  | _ => cases hgood

/-- Both loops have ended after so many events. -/
def drainedAfter (n : Nat) (p : Exit T × List (SessionEvent T)) : Bool :=
  endedAfter n (p.1.session, p.2) && acceptedOne p.2

omit [DecidableEq T] in
theorem drainedAfter_iff {n : Nat} {p : Exit T × List (SessionEvent T)}
    (h : drainedAfter n p = true) :
    p.1.session.reader = .done ∧ p.1.session.writer = .done ∧ (renders p.2).length = n ∧
      ∃ e q, AcceptedBeforeStop p.2 e q ∧ receivedValid e = true := by
  obtain ⟨hended, haccepted⟩ := Bool.and_eq_true_iff.mp h
  rw [endedAfter] at hended
  split at hended
  · rename_i hr hw
    exact ⟨hr, hw, beq_iff_eq.mp hended, acceptedOne_iff haccepted⟩
  · cases hended

/-- A thread emits an event before the process exits. -/
def deliveredRun : List (ExitAction Unit) :=
  emitOne () ++ [.terminate (), .session .requestStop] ++ readerSteps 2 ++
    (List.range traceMaxEventBytes).map (fun i => .session (.readByte i)) ++
    readerSteps 30 ++ writerSteps 4

/-- The wait works, and the thread has published what it reserved. -/
def admitsClear (p : Exit Unit × List (SessionEvent Unit)) : ExitAction Unit → Bool
  | .session .waitFails => false
  | .session .requestStop => (p.1.session.target.producers ()).filling.isNone
  | _ => true

theorem exitsClear_of_admits {p : Exit Unit × List (SessionEvent Unit)} {a : ExitAction Unit}
    (h : admitsClear p a = true) : ExitsClear p a := by
  rintro b rfl
  refine ⟨?_, ?_⟩
  · rintro rfl
    cases h
  · rintro rfl - t q hfilling
    have hnone := Option.isNone_iff_eq_none.mp h
    cases hnone.symm.trans hfilling

/-- The event is rendered. -/
theorem drain_delivers_run : ∃ p : Exit Unit × List (SessionEvent Unit),
    ∃ e q, AcceptedBeforeStop p.2 e q ∧ receivedValid e = true ∧
      ∃ d ∈ renders p.2, Copied d e := by
  have hexec : ((exitSystem Unit).execWhile admitsClear (startExit Unit) deliveredRun).map
      (drainedAfter 1) = some true := by
    decide +kernel
  obtain ⟨p, hp, hdrained⟩ := Option.map_eq_some_iff.mp hexec
  have hstart : ReachableIf (exitSystem Unit) ExitsClear (startExit Unit) :=
    .init ⟨⟨startSession_init Unit, fun _ => rfl⟩, rfl⟩
  have hrun := hstart.execWhile (fun _ _ => exitsClear_of_admits) _ hp
  obtain ⟨hr, hw, -, e, q, hacc, hvalid⟩ := drainedAfter_iff hdrained
  exact ⟨p, e, q, hacc, hvalid, drain_delivers hrun hr hw e q hacc hvalid⟩

/-- Thread `false` dies with slot 0 reserved, and thread `true` publishes in slot
    1 before the process exits. -/
def lostRun : List (ExitAction Bool) :=
  targetSteps (.emit false namedRecord.event :: List.replicate 4 (.producer false)) ++
    [.terminate false] ++ emitOne true ++ [.terminate true, .session .requestStop] ++ readerSteps 22 ++
    writerSteps 1

/-- **A LOST EVENT**: an event accepted before the stop is never rendered. -/
theorem drain_loses_event : ¬ ∀ p, Reachable (exitSystem Bool) p → DrainDelivers p := by
  intro hall
  have hexec : ((exitSystem Bool).exec (startExit Bool) lostRun).map (drainedAfter 0)
      = some true := by
    decide +kernel
  obtain ⟨p, hp, hdrained⟩ := Option.map_eq_some_iff.mp hexec
  have hstart : Reachable (exitSystem Bool) (startExit Bool) :=
    .init ⟨⟨startSession_init Bool, fun _ => rfl⟩, rfl⟩
  obtain ⟨hr, hw, hnone, e, q, hacc, hvalid⟩ := drainedAfter_iff hdrained
  obtain ⟨d, hd, -⟩ := hall p (hstart.exec (fun _ _ => trivial) _ hp) hr hw e q hacc hvalid
  rw [List.length_eq_zero_iff.mp hnone] at hd
  cases hd

end ScopeDrain
