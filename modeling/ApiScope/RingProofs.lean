import ApiScope.TraceProtocolProofs
import ApiScope.TransitionProofs

/-! # The shared ring — EmitTraceEvent against TryReadRing

    `trace_ring.h`, `EmitTraceEvent` (the hook DLL, any number of threads)
    and `TryReadRing` (the controller, one thread), as a transition system.
    Every interlocked operation is one step; the two payload copies are one
    step per byte, in any order.  Positions are `LONG64` counters that start
    at 0 and only grow, and are modelled as naturals (`positions_fit` bounds
    them by the number of steps); `eventSequence` and `droppedEvents` are
    `LONG` and wrap.

    This file has the model, the inversion of a step into the operations of
    the two functions (`RingStep`), and the slot invariant: the slot of a
    position holds `p` when it is free or being filled, `p + 1` when it is
    published, and is handed to `p + 16384` by the reader. -/

namespace ScopeRing

open ScopeBytes ScopeProtocol ScopeTransition

/-! ## trace_ring.h -/

def traceRingMagic : Nat := 0x474E4952
def traceRingVersion : Nat := 1
def traceRingCapacity : Nat := 16384

structure TraceRingSlot where
  sequence : Nat
  event : TraceEvent

structure TraceRing where
  magic : Nat
  version : Nat
  capacity : Nat
  eventSize : Nat
  enqueuePosition : Nat
  dequeuePosition : Nat
  eventSequence : UInt32
  droppedEvents : UInt32
  /-- `LONG wakePending`, only ever 0 or 1. -/
  wakePending : Bool
  slots : Fin traceRingCapacity → TraceRingSlot

theorem mask_lt (position : Nat) :
    position &&& (traceRingCapacity - 1) < traceRingCapacity := by
  have h : position &&& (traceRingCapacity - 1) ≤ traceRingCapacity - 1 :=
    Nat.and_le_right
  have hc : traceRingCapacity = 16384 := rfl
  omega

/-- `(uint64_t)position & (TRACE_RING_CAPACITY - 1)`. -/
def slotIndex (position : Nat) : Fin traceRingCapacity :=
  ⟨position &&& (traceRingCapacity - 1), mask_lt position⟩

namespace TraceRing

/-- `ring->slots[position & (TRACE_RING_CAPACITY - 1)]`. -/
def slot (r : TraceRing) (position : Nat) : TraceRingSlot :=
  r.slots (slotIndex position)

def setSlot (r : TraceRing) (position : Nat) (slot : TraceRingSlot) : TraceRing :=
  { r with slots := Function.update r.slots (slotIndex position) slot }

/-- `_InterlockedExchange64(&slot->sequence, sequence)`. -/
def setSlotSequence (r : TraceRing) (position sequence : Nat) : TraceRing :=
  r.setSlot position { r.slot position with sequence := sequence }

/-- One byte of `CustomMemCpy(&slot->event, ...)`. -/
def setSlotByte (r : TraceRing) (position i : Nat) (b : UInt8) : TraceRing :=
  r.setSlot position
    { r.slot position with event := (r.slot position).event.store i [b] }

end TraceRing

/-- The ring as `TraceSession::CreateSharedRing` leaves it. -/
def createSharedRing : TraceRing where
  magic := traceRingMagic
  version := traceRingVersion
  capacity := traceRingCapacity
  eventSize := traceMaxEventBytes
  enqueuePosition := 0
  dequeuePosition := 0
  eventSequence := 0
  droppedEvents := 0
  wakePending := false
  slots := fun index => { sequence := index, event := TraceEvent.zero }

/-! ## EmitTraceEvent -/

/-- Which of the hook DLL's transport exports are non-null. -/
structure TransportExports where
  ring : Bool
  wakeEvent : Bool
  ntSetEvent : Bool
  deriving DecidableEq

/-- The entry checks of `EmitTraceEvent`. -/
def emitAccepts (x : TransportExports) (r : TraceRing) (e : TraceEvent) : Bool :=
  x.ring
    && r.magic == traceRingMagic
    && r.version == traceRingVersion
    && r.capacity == traceRingCapacity
    && r.eventSize == traceMaxEventBytes
    && e.magic == traceEventMagic
    && e.version == traceEventVersion
    && sizeofEventHeader + (e.moduleNameLength + e.apiNameLength) ≤ e.size
    && e.size ≤ traceMaxEventBytes

/-- Where a thread is in `EmitTraceEvent`: the operation it does next. -/
inductive Producer where
  | idle
  /-- `_InterlockedIncrement(&ring->eventSequence)`. -/
  | counting (event : TraceEvent)
  /-- The load of `enqueuePosition` at the top of the loop. -/
  | loadingPosition (event : TraceEvent)
  /-- The load of `slot->sequence`. -/
  | loadingSequence (event : TraceEvent) (position : Nat)
  /-- The drop, the compare-exchange, or the next pass. -/
  | deciding (event : TraceEvent) (position sequence : Nat)
  /-- The payload copy; `todo` are the bytes not yet copied. -/
  | copying (event : TraceEvent) (position : Nat) (todo : List Nat)
  /-- Published; the exchange on `wakePending`. -/
  | waking (event : TraceEvent) (position : Nat)
  /-- `wakePending` was 0: the call of `NtSetEvent`. -/
  | signalling (event : TraceEvent) (position : Nat)
  /-- `NtSetEvent` failed: the exchange back to 0. -/
  | signalFailed (event : TraceEvent) (position : Nat)
  /-- The return: the position published, or none after a drop. -/
  | returning (event : TraceEvent) (position : Option Nat)

/-- The next interlocked operation of a thread inside `EmitTraceEvent`. -/
def producerStep (x : TransportExports) (r : TraceRing) :
    Producer → Option (TraceRing × Producer)
  | .idle => none
  | .counting e =>
      let value := r.eventSequence + 1
      some ({ r with eventSequence := value },
        .loadingPosition (e.setSequence value.toNat))
  | .loadingPosition e => some (r, .loadingSequence e r.enqueuePosition)
  | .loadingSequence e position =>
      some (r, .deciding e position (r.slot position).sequence)
  | .deciding e position sequence =>
      let difference : Int := (sequence : Int) - (position : Int)
      if difference < 0 then
        some ({ r with droppedEvents := r.droppedEvents + 1 },
          .returning e none)
      else if difference = 0 ∧ r.enqueuePosition = position then
        some ({ r with enqueuePosition := position + 1 },
          .copying e position (List.range e.size))
      else some (r, .loadingPosition e)
  | .copying e position [] =>
      some (r.setSlotSequence position (position + 1), .waking e position)
  | .copying _ _ (_ :: _) => none
  | .waking e position =>
      if x.wakeEvent && x.ntSetEvent then
        if r.wakePending then some (r, .returning e (some position))
        else some ({ r with wakePending := true }, .signalling e position)
      else some (r, .returning e (some position))
  | .signalling _ _ => none
  | .signalFailed e position =>
      some ({ r with wakePending := false }, .returning e (some position))
  | .returning _ _ => some (r, .idle)

/-! ## TryReadRing -/

/-- Where the reader is in `TryReadRing`. -/
inductive Consumer where
  | idle
  | loadingSequence (position : Nat)
  | copying (position : Nat) (event : TraceEvent) (todo : List Nat)
  /-- The slot is released; the exchange on `dequeuePosition`. -/
  | storing (position : Nat) (event : TraceEvent)

/-- The next interlocked operation of `TryReadRing`, and what the call
    returns when it is the last one: `some none` for false, `some (some e)`
    for true with the event copied out. -/
def consumerStep (r : TraceRing) :
    Consumer → Option (TraceRing × Consumer × Option (Option TraceEvent))
  | .idle => some (r, .loadingSequence r.dequeuePosition, none)
  | .loadingSequence position =>
      if (r.slot position).sequence ≠ position + 1 then some (r, .idle, some none)
      else some (r, .copying position TraceEvent.zero
        (List.range traceMaxEventBytes), none)
  | .copying position e [] =>
      some (r.setSlotSequence position (position + traceRingCapacity),
        .storing position e, none)
  | .copying _ _ (_ :: _) => none
  | .storing position e =>
      some ({ r with dequeuePosition := position + 1 }, .idle, some (some e))

/-! ## The system -/

/-- Producers `T`, the reader, the ring and the wake event. -/
structure RingState (T : Type) where
  ring : TraceRing
  exports : TransportExports
  producers : T → Producer
  consumer : Consumer
  /-- `wakeEvent_` is signalled (auto-reset). -/
  wakeEvent : Bool

inductive RingAction (T : Type) where
  /-- A hook handler calls `EmitTraceEvent(&event)`. -/
  | emit (t : T) (event : TraceEvent)
  | producer (t : T)
  | copyByte (t : T) (i : Nat)
  | setEvent (t : T) (succeeds : Bool)
  | consumer
  | readByte (i : Nat)
  /-- The reader's `_InterlockedExchange(&wakePending, 0)`. -/
  | clearWakePending
  /-- A wait on `wakeEvent_` is satisfied and resets it. -/
  | takeWakeEvent
  /-- The controller rewrites the transport exports. -/
  | setExports (x : TransportExports)

variable {T : Type} [DecidableEq T]

namespace RingState

def setProducer (s : RingState T) (t : T) (p : Producer) : RingState T :=
  { s with producers := Function.update s.producers t p }

/-- The slot sequence at a position. -/
def seqAt (s : RingState T) (position : Nat) : Nat :=
  (s.ring.slot position).sequence

/-- The event bytes in the slot of a position. -/
def eventAt (s : RingState T) (position : Nat) : TraceEvent :=
  (s.ring.slot position).event

/-- How many positions the reader has released. -/
def released (s : RingState T) : Nat :=
  match s.consumer with
  | .storing position _ => position + 1
  | _ => s.ring.dequeuePosition

end RingState

def ringStep (s : RingState T) : RingAction T → Option (RingState T)
  | .emit t e =>
      match s.producers t with
      | .idle =>
          if emitAccepts s.exports s.ring e then
            some (s.setProducer t (.counting e))
          else some s
      | _ => none
  | .producer t =>
      (producerStep s.exports s.ring (s.producers t)).map fun (r, p) =>
        { s.setProducer t p with ring := r }
  | .copyByte t i =>
      match s.producers t with
      | .copying e position todo =>
          if i ∈ todo then
            some { s.setProducer t (.copying e position (todo.erase i)) with
              ring := s.ring.setSlotByte position i (e.byte i) }
          else none
      | _ => none
  | .setEvent t succeeds =>
      match s.producers t with
      | .signalling e position =>
          if succeeds then
            some { s.setProducer t (.returning e (some position)) with
              wakeEvent := true }
          else some (s.setProducer t (.signalFailed e position))
      | _ => none
  | .consumer =>
      (consumerStep s.ring s.consumer).map fun (r, c, _) =>
        { s with ring := r, consumer := c }
  | .readByte i =>
      match s.consumer with
      | .copying position e todo =>
          if i ∈ todo then
            let e' := e.store i [(s.eventAt position).byte i]
            some { s with consumer := .copying position e' (todo.erase i) }
          else none
      | _ => none
  | .clearWakePending =>
      some { s with ring := { s.ring with wakePending := false } }
  | .takeWakeEvent =>
      if s.wakeEvent then some { s with wakeEvent := false } else none
  | .setExports x => some { s with exports := x }

/-- The ring as created, no call in progress. -/
def RingInit (s : RingState T) : Prop :=
  s.ring = createSharedRing ∧ (∀ t, s.producers t = .idle)
    ∧ s.consumer = .idle ∧ s.wakeEvent = false

def ringSystem (T : Type) [DecidableEq T] : System (RingState T) (RingAction T) where
  init := RingInit
  step := ringStep

/-! ## What a step can do

    One constructor per operation of the two functions, with the guard that
    selects it and the state it leaves. -/

inductive RingStep (s : RingState T) : RingAction T → RingState T → Prop where
  | reject {t e} (hp : s.producers t = .idle)
      (hno : emitAccepts s.exports s.ring e = false) :
      RingStep s (.emit t e) s
  | call {t e} (hp : s.producers t = .idle)
      (hok : emitAccepts s.exports s.ring e = true) :
      RingStep s (.emit t e) (s.setProducer t (.counting e))
  | count {t e} (hp : s.producers t = .counting e) :
      RingStep s (.producer t)
        { s.setProducer t (.loadingPosition
            (e.setSequence (s.ring.eventSequence + 1).toNat)) with
          ring := { s.ring with eventSequence := s.ring.eventSequence + 1 } }
  | loadPosition {t e} (hp : s.producers t = .loadingPosition e) :
      RingStep s (.producer t)
        (s.setProducer t (.loadingSequence e s.ring.enqueuePosition))
  | loadSequence {t e position} (hp : s.producers t = .loadingSequence e position) :
      RingStep s (.producer t)
        (s.setProducer t (.deciding e position (s.seqAt position)))
  | drop {t e position sequence} (hp : s.producers t = .deciding e position sequence)
      (hlt : sequence < position) :
      RingStep s (.producer t)
        { s.setProducer t (.returning e none) with
          ring := { s.ring with droppedEvents := s.ring.droppedEvents + 1 } }
  | reserve {t e position} (hp : s.producers t = .deciding e position position)
      (henq : s.ring.enqueuePosition = position) :
      RingStep s (.producer t)
        { s.setProducer t (.copying e position (List.range e.size)) with
          ring := { s.ring with enqueuePosition := position + 1 } }
  | retry {t e position sequence} (hp : s.producers t = .deciding e position sequence)
      (hge : position ≤ sequence)
      (hne : ¬ (sequence = position ∧ s.ring.enqueuePosition = position)) :
      RingStep s (.producer t) (s.setProducer t (.loadingPosition e))
  | copy {t e position todo i} (hp : s.producers t = .copying e position todo)
      (hi : i ∈ todo) :
      RingStep s (.copyByte t i)
        { s.setProducer t (.copying e position (todo.erase i)) with
          ring := s.ring.setSlotByte position i (e.byte i) }
  | publish {t e position} (hp : s.producers t = .copying e position []) :
      RingStep s (.producer t)
        { s.setProducer t (.waking e position) with
          ring := s.ring.setSlotSequence position (position + 1) }
  | wakeNot {t e position} (hp : s.producers t = .waking e position)
      (hno : (s.exports.wakeEvent && s.exports.ntSetEvent) = false) :
      RingStep s (.producer t) (s.setProducer t (.returning e (some position)))
  | wakeAgain {t e position} (hp : s.producers t = .waking e position)
      (hok : (s.exports.wakeEvent && s.exports.ntSetEvent) = true)
      (hw : s.ring.wakePending = true) :
      RingStep s (.producer t) (s.setProducer t (.returning e (some position)))
  | wakeFirst {t e position} (hp : s.producers t = .waking e position)
      (hok : (s.exports.wakeEvent && s.exports.ntSetEvent) = true)
      (hw : s.ring.wakePending = false) :
      RingStep s (.producer t)
        { s.setProducer t (.signalling e position) with
          ring := { s.ring with wakePending := true } }
  | signal {t e position} (hp : s.producers t = .signalling e position) :
      RingStep s (.setEvent t true)
        { s.setProducer t (.returning e (some position)) with wakeEvent := true }
  | signalFail {t e position} (hp : s.producers t = .signalling e position) :
      RingStep s (.setEvent t false) (s.setProducer t (.signalFailed e position))
  | unwake {t e position} (hp : s.producers t = .signalFailed e position) :
      RingStep s (.producer t)
        { s.setProducer t (.returning e (some position)) with
          ring := { s.ring with wakePending := false } }
  | ret {t e position} (hp : s.producers t = .returning e position) :
      RingStep s (.producer t) (s.setProducer t .idle)
  | readPosition (hc : s.consumer = .idle) :
      RingStep s .consumer
        { s with consumer := .loadingSequence s.ring.dequeuePosition }
  | readNothing {position} (hc : s.consumer = .loadingSequence position)
      (hne : s.seqAt position ≠ position + 1) :
      RingStep s .consumer { s with consumer := .idle }
  | readClaim {position} (hc : s.consumer = .loadingSequence position)
      (heq : s.seqAt position = position + 1) :
      RingStep s .consumer
        { s with
          consumer := .copying position TraceEvent.zero
            (List.range traceMaxEventBytes) }
  | readCopy {position e todo i} (hc : s.consumer = .copying position e todo)
      (hi : i ∈ todo) :
      RingStep s (.readByte i)
        { s with
          consumer := .copying position
            (e.store i [(s.eventAt position).byte i]) (todo.erase i) }
  | release {position e} (hc : s.consumer = .copying position e []) :
      RingStep s .consumer
        { s with
          ring := s.ring.setSlotSequence position (position + traceRingCapacity)
          consumer := .storing position e }
  | deliver {position e} (hc : s.consumer = .storing position e) :
      RingStep s .consumer
        { s with
          ring := { s.ring with dequeuePosition := position + 1 }
          consumer := .idle }
  | clearWake :
      RingStep s .clearWakePending
        { s with ring := { s.ring with wakePending := false } }
  | takeWake (hw : s.wakeEvent = true) :
      RingStep s .takeWakeEvent { s with wakeEvent := false }
  | configure {x} :
      RingStep s (.setExports x) { s with exports := x }

private theorem producer_cases {s s' : RingState T} {t : T}
    (h : ringStep s (.producer t) = some s') : RingStep s (.producer t) s' := by
  have h' : (producerStep s.exports s.ring (s.producers t)).map
      (fun x : TraceRing × Producer => { s.setProducer t x.2 with ring := x.1 })
      = some s' := h
  obtain ⟨⟨r, p⟩, hstep, rfl⟩ := Option.map_eq_some_iff.mp h'
  cases hp : s.producers t with
  | idle => rw [hp] at hstep; cases hstep
  | counting e =>
      rw [hp] at hstep
      cases hstep
      exact .count hp
  | loadingPosition e =>
      rw [hp] at hstep
      cases hstep
      exact .loadPosition hp
  | loadingSequence e position =>
      rw [hp] at hstep
      cases hstep
      exact .loadSequence hp
  | deciding e position sequence =>
      rw [hp, producerStep] at hstep
      by_cases hlt : (sequence : Int) - (position : Int) < 0
      · rw [if_pos hlt] at hstep
        cases hstep
        exact .drop hp (by omega)
      · rw [if_neg hlt] at hstep
        by_cases hw : (sequence : Int) - (position : Int) = 0
            ∧ s.ring.enqueuePosition = position
        · rw [if_pos hw] at hstep
          cases hstep
          have hseq : sequence = position := by omega
          subst hseq
          exact .reserve hp hw.2
        · rw [if_neg hw] at hstep
          cases hstep
          refine .retry hp (by omega) ?_
          rintro ⟨h1, h2⟩
          exact hw ⟨by omega, h2⟩
  | copying e position todo =>
      rw [hp] at hstep
      cases todo with
      | nil =>
          cases hstep
          exact .publish hp
      | cons i todo => cases hstep
  | waking e position =>
      rw [hp, producerStep] at hstep
      cases hx : s.exports.wakeEvent && s.exports.ntSetEvent with
      | false =>
          rw [hx] at hstep
          cases hstep
          exact .wakeNot hp hx
      | true =>
          rw [hx, if_pos rfl] at hstep
          cases hw : s.ring.wakePending with
          | true =>
              rw [hw] at hstep
              cases hstep
              exact .wakeAgain hp hx hw
          | false =>
              rw [hw] at hstep
              cases hstep
              exact .wakeFirst hp hx hw
  | signalling e position => rw [hp] at hstep; cases hstep
  | signalFailed e position =>
      rw [hp] at hstep
      cases hstep
      exact .unwake hp
  | returning e position =>
      rw [hp] at hstep
      cases hstep
      exact .ret hp

private theorem consumer_cases {s s' : RingState T}
    (h : ringStep s .consumer = some s') : RingStep s .consumer s' := by
  have h' : (consumerStep s.ring s.consumer).map
      (fun x : TraceRing × Consumer × Option (Option TraceEvent) =>
        { s with ring := x.1, consumer := x.2.1 }) = some s' := h
  obtain ⟨⟨r, c, result⟩, hstep, rfl⟩ := Option.map_eq_some_iff.mp h'
  cases hc : s.consumer with
  | idle =>
      rw [hc] at hstep
      cases hstep
      exact .readPosition hc
  | loadingSequence position =>
      rw [hc, consumerStep] at hstep
      by_cases hne : (s.ring.slot position).sequence ≠ position + 1
      · rw [if_pos hne] at hstep
        cases hstep
        exact .readNothing hc hne
      · rw [if_neg hne] at hstep
        cases hstep
        exact .readClaim hc (not_not.mp hne)
  | copying position e todo =>
      rw [hc] at hstep
      cases todo with
      | nil =>
          cases hstep
          exact .release hc
      | cons i todo => cases hstep
  | storing position e =>
      rw [hc] at hstep
      cases hstep
      exact .deliver hc

/-- **STEP INVERSION**: every enabled action is one of the listed
    operations. -/
theorem ringStep_cases {s s' : RingState T} {a : RingAction T}
    (h : ringStep s a = some s') : RingStep s a s' := by
  cases a with
  | emit t e =>
      rw [ringStep] at h
      cases hp : s.producers t <;> rw [hp] at h
      case idle =>
        cases hok : emitAccepts s.exports s.ring e with
        | true =>
            rw [hok] at h
            cases h
            exact .call hp hok
        | false =>
            rw [hok] at h
            cases h
            exact .reject hp hok
      all_goals cases h
  | producer t => exact producer_cases h
  | copyByte t i =>
      rw [ringStep] at h
      cases hp : s.producers t <;> rw [hp] at h
      case copying e position todo =>
        by_cases hi : i ∈ todo
        · simp only [if_pos hi] at h
          cases h
          exact .copy hp hi
        · simp only [if_neg hi] at h
          cases h
      all_goals cases h
  | setEvent t ok =>
      rw [ringStep] at h
      cases hp : s.producers t <;> rw [hp] at h
      case signalling e position =>
        cases ok with
        | true =>
            cases h
            exact .signal hp
        | false =>
            cases h
            exact .signalFail hp
      all_goals cases h
  | consumer => exact consumer_cases h
  | readByte i =>
      rw [ringStep] at h
      cases hc : s.consumer <;> rw [hc] at h
      case copying position e todo =>
        by_cases hi : i ∈ todo
        · simp only [if_pos hi] at h
          cases h
          exact .readCopy hc hi
        · simp only [if_neg hi] at h
          cases h
      all_goals cases h
  | clearWakePending =>
      cases h
      exact .clearWake
  | takeWakeEvent =>
      rw [ringStep] at h
      by_cases hw : s.wakeEvent = true
      · rw [if_pos hw] at h
        cases h
        exact .takeWake hw
      · rw [if_neg hw] at h
        cases h
  | setExports x =>
      cases h
      exact .configure

/-! ## Slots -/

theorem slotIndex_val (p : Nat) : (slotIndex p).val = p % 16384 := by
  show p &&& (2 ^ 14 - 1) = p % 16384
  rw [Nat.and_two_pow_sub_one_eq_mod]

/-- Positions of one window of the ring have different slots. -/
theorem slotIndex_window {lo p q : Nat} (hp : lo ≤ p)
    (hp' : p < lo + traceRingCapacity) (hq : lo ≤ q)
    (hq' : q < lo + traceRingCapacity) (h : slotIndex p = slotIndex q) :
    p = q := by
  have hc : traceRingCapacity = 16384 := rfl
  have hv : p % 16384 = q % 16384 := by
    rw [← slotIndex_val, ← slotIndex_val, h]
  omega

/-- The reader hands a slot to the position one lap ahead. -/
theorem slotIndex_lap (p : Nat) :
    slotIndex (p + traceRingCapacity) = slotIndex p := by
  refine Fin.ext ?_
  rw [slotIndex_val, slotIndex_val]
  show (p + 16384) % 16384 = p % 16384
  omega

theorem slot_setSlot_self (r : TraceRing) {p q : Nat} (x : TraceRingSlot)
    (h : slotIndex q = slotIndex p) : (r.setSlot p x).slot q = x := by
  show Function.update r.slots (slotIndex p) x (slotIndex q) = x
  rw [h, Function.update_self]

theorem slot_setSlot_of_ne (r : TraceRing) {p q : Nat} (x : TraceRingSlot)
    (h : slotIndex q ≠ slotIndex p) : (r.setSlot p x).slot q = r.slot q := by
  show Function.update r.slots (slotIndex p) x (slotIndex q) = r.slots (slotIndex q)
  rw [Function.update_of_ne h]

/-- One stored byte, read back. -/
theorem byte_store_one (e : TraceEvent) (i j : Nat) (b : UInt8) :
    (e.store i [b]).byte j
      = if j = i ∧ j < traceMaxEventBytes then b else e.byte j := by
  by_cases hj : j < traceMaxEventBytes
  · rw [TraceEvent.byte_of_lt _ hj]
    show ScopeBytes.store e.byte i [b] j = _
    by_cases hji : j = i
    · rw [if_pos ⟨hji, hj⟩, hji, store_inside (by omega) (by simp)]
      simp
    · rw [if_neg (by omega), store_outside (by simp only [List.length_singleton]; omega)]
  · rw [if_neg (by omega), TraceEvent.byte_of_ge _ (by omega),
      TraceEvent.byte_of_ge _ (by omega)]

/-! ## The slot invariant -/

namespace Producer

/-- The position whose slot the thread is filling. -/
def filling : Producer → Option Nat
  | .copying _ position _ => some position
  | _ => none

end Producer

/-- What a thread knows: positions it loaded are not ahead of the ring, and a
    slot it fills is reserved, unpublished and holds the bytes copied so far. -/
def ProducerOk (s : RingState T) : Producer → Prop
  | .loadingSequence _ position => position ≤ s.ring.enqueuePosition
  | .deciding _ position sequence =>
      position ≤ s.ring.enqueuePosition ∧
        (sequence = position → position < s.released + traceRingCapacity)
  | .copying e position todo =>
      s.released ≤ position ∧ position < s.ring.enqueuePosition ∧
        s.seqAt position = position ∧
        ∀ i, i < e.size → i ∉ todo → (s.eventAt position).byte i = e.byte i
  | _ => True

/-- What the reader knows: it stands at `dequeuePosition`, and copies only a
    published slot. -/
def ConsumerOk (s : RingState T) : Consumer → Prop
  | .idle => True
  | .loadingSequence position => position = s.ring.dequeuePosition
  | .copying position e todo =>
      position = s.ring.dequeuePosition ∧ position < s.ring.enqueuePosition ∧
        s.seqAt position = position + 1 ∧
        ∀ i, i < traceMaxEventBytes → i ∉ todo →
          e.byte i = (s.eventAt position).byte i
  | .storing position _ => position = s.ring.dequeuePosition

/-- No two threads fill the slot of one position. -/
def SoleFilling (producers : T → Producer) : Prop :=
  ∀ t t' p, (producers t).filling = some p → (producers t').filling = some p →
    t = t'

/-- The slots of one lap: reserved or published below `enqueuePosition`, free
    above it. -/
structure RingInv (s : RingState T) : Prop where
  behind : s.released ≤ s.ring.enqueuePosition
  room : s.ring.enqueuePosition ≤ s.released + traceRingCapacity
  taken : ∀ p, s.released ≤ p → p < s.ring.enqueuePosition →
    s.seqAt p = p ∨ s.seqAt p = p + 1
  free : ∀ p, s.ring.enqueuePosition ≤ p → p < s.released + traceRingCapacity →
    s.seqAt p = p
  producer : ∀ t, ProducerOk s (s.producers t)
  owner : SoleFilling s.producers
  consumer : ConsumerOk s s.consumer

omit [DecidableEq T] in
theorem ringInv_init {s : RingState T} (h : RingInit s) : RingInv s := by
  obtain ⟨hr, hp, hc, -⟩ := h
  have hrel : s.released = 0 := by
    rw [RingState.released, hc, hr]
    rfl
  have henq : s.ring.enqueuePosition = 0 := by rw [hr]; rfl
  refine ⟨by omega, by omega, ?_, ?_, ?_, ?_, ?_⟩
  · intro p _ hlt
    omega
  · intro p _ hlt
    rw [RingState.seqAt, hr]
    show (slotIndex p).val = p
    rw [slotIndex_val]
    have hc : traceRingCapacity = 16384 := rfl
    omega
  · intro t
    rw [hp t]
    trivial
  · intro t t' p ht
    rw [hp t] at ht
    cases ht
  · rw [hc]
    trivial

omit [DecidableEq T] in
/-- A slot that says `p + 1` belongs to a reserved position. -/
theorem RingInv.lt_enqueue {s : RingState T} (h : RingInv s) {p : Nat}
    (hlt : p < s.released + traceRingCapacity)
    (hseq : s.seqAt p = p + 1) : p < s.ring.enqueuePosition := by
  by_contra hge
  have := h.free p (by omega) hlt
  omega

omit [DecidableEq T] in
/-- Knowledge survives growing positions and foreign slots. -/
theorem ProducerOk.mono {s s' : RingState T} {p : Producer}
    (h : ProducerOk s p)
    (henq : s.ring.enqueuePosition ≤ s'.ring.enqueuePosition)
    (hrel : s.released ≤ s'.released)
    (hslot : ∀ q, p.filling = some q →
      s'.released ≤ q ∧ s'.ring.slot q = s.ring.slot q) :
    ProducerOk s' p := by
  cases p with
  | loadingSequence e q => exact Nat.le_trans h henq
  | deciding e q sequence =>
      obtain ⟨h1, h2⟩ := h
      refine ⟨Nat.le_trans h1 henq, fun heq => ?_⟩
      have := h2 heq
      omega
  | copying e q todo =>
      obtain ⟨-, h2, h3, h4⟩ := h
      obtain ⟨h5, h6⟩ := hslot q rfl
      refine ⟨h5, by omega, ?_, ?_⟩
      · rw [RingState.seqAt, h6]
        exact h3
      · rw [RingState.eventAt, h6]
        exact h4
  | _ => trivial

omit [DecidableEq T] in
/-- A filling thread holds a reserved, unpublished position. -/
theorem RingInv.of_filling {s : RingState T} (h : RingInv s) {t : T} {p : Nat}
    (ht : (s.producers t).filling = some p) :
    s.released ≤ p ∧ p < s.ring.enqueuePosition ∧ s.seqAt p = p := by
  have hok := h.producer t
  cases hp : s.producers t <;> rw [hp] at ht hok
  case copying e q todo =>
    have hq : q = p := Option.some.inj ht
    rw [← hq]
    exact ⟨hok.1, hok.2.1, hok.2.2.1⟩
  all_goals cases ht

/-- One thread's move keeps what holds of every thread. -/
theorem forall_update {f : T → Producer} {P : T → Producer → Prop} {t : T}
    {p : Producer} (h : ∀ u, P u (f u)) (hp : P t p) :
    ∀ u, P u (Function.update f t p u) := by
  intro u
  by_cases hu : u = t
  · rw [hu, Function.update_self]
    exact hp
  · rw [Function.update_of_ne hu]
    exact h u

/-- One thread's move keeps the slots apart when it takes no slot of
    another. -/
theorem SoleFilling.update {f : T → Producer} (h : SoleFilling f) {t : T}
    {p : Producer}
    (hp : ∀ q, p.filling = some q → ∀ u, u ≠ t → (f u).filling ≠ some q) :
    SoleFilling (Function.update f t p) := by
  intro u u' q hq hq'
  by_cases hu : u = t
  · by_cases hu' : u' = t
    · rw [hu, hu']
    · rw [hu, Function.update_self] at hq
      rw [Function.update_of_ne hu'] at hq'
      exact absurd hq' (hp q hq u' hu')
  · rw [Function.update_of_ne hu] at hq
    by_cases hu' : u' = t
    · rw [hu', Function.update_self] at hq'
      exact absurd hq (hp q hq' u hu)
    · rw [Function.update_of_ne hu'] at hq'
      exact h u u' q hq hq'

/-- A thread's move that leaves slots and positions alone. -/
theorem RingInv.quiet {s : RingState T} (h : RingInv s) {t : T} {p : Producer}
    {r : TraceRing} {x : TransportExports} {w : Bool}
    (hslots : r.slots = s.ring.slots)
    (henq : r.enqueuePosition = s.ring.enqueuePosition)
    (hdeq : r.dequeuePosition = s.ring.dequeuePosition)
    (hfill : p.filling = none) (hok : ProducerOk s p) :
    RingInv { s.setProducer t p with ring := r, exports := x, wakeEvent := w } := by
  obtain ⟨magic, version, capacity, eventSize, enq, deq, es, dr, wp, slots⟩ := r
  subst hslots henq hdeq
  refine ⟨h.behind, h.room, h.taken, h.free, ?_, ?_, h.consumer⟩
  · exact forall_update (P := fun _ p => ProducerOk s p) h.producer hok
  · refine h.owner.update fun q hq => ?_
    rw [hfill] at hq
    cases hq

omit [DecidableEq T] in
/-- The reader's move that leaves slots and released positions alone. -/
theorem RingInv.reader {s : RingState T} (h : RingInv s) {d : Nat} {c : Consumer}
    (hrel : RingState.released
        { s with ring := { s.ring with dequeuePosition := d }, consumer := c }
      = s.released)
    (hok : ConsumerOk
      { s with ring := { s.ring with dequeuePosition := d }, consumer := c } c) :
    RingInv
      { s with ring := { s.ring with dequeuePosition := d }, consumer := c } := by
  refine ⟨hrel ▸ h.behind, hrel ▸ h.room, ?_, ?_, ?_, h.owner, hok⟩
  · rw [hrel]
    exact h.taken
  · rw [hrel]
    exact h.free
  · intro u
    refine (h.producer u).mono (Nat.le_refl _) (Nat.le_of_eq hrel.symm) ?_
    intro q hq
    rw [hrel]
    exact ⟨(h.of_filling hq).1, rfl⟩

theorem ringInv_reserve {s : RingState T} (h : RingInv s) {t : T}
    {e : TraceEvent} {p : Nat} (hp : s.producers t = .deciding e p p)
    (henq : s.ring.enqueuePosition = p) :
    RingInv { s.setProducer t (.copying e p (List.range e.size)) with
      ring := { s.ring with enqueuePosition := p + 1 } } := by
  have hok : ProducerOk s (.deciding e p p) := hp ▸ h.producer t
  have hroom : p < s.released + traceRingCapacity := hok.2 rfl
  -- the position is free: it lies behind all that are taken and within one lap
  have hfree : s.seqAt p = p := h.free p (by omega) hroom
  have hb := h.behind
  refine ⟨?_, ?_, ?_, ?_, ?_, ?_, ?_⟩
  · show s.released ≤ p + 1
    omega
  · show p + 1 ≤ s.released + traceRingCapacity
    omega
  · intro q hq hlt
    have hlt' : q < p + 1 := hlt
    by_cases hqp : q = p
    · exact Or.inl (hqp ▸ hfree)
    · exact h.taken q hq (by omega)
  · intro q hq hlt
    have hq' : p + 1 ≤ q := hq
    exact h.free q (by omega) hlt
  · intro u
    show ProducerOk _ (Function.update s.producers t (.copying e p (List.range e.size)) u)
    by_cases hu : u = t
    · rw [hu, Function.update_self]
      refine ⟨?_, Nat.lt_succ_self p, hfree, ?_⟩
      · show s.released ≤ p
        omega
      · intro i hi hni
        exact absurd (List.mem_range.mpr hi) hni
    · rw [Function.update_of_ne hu]
      refine (h.producer u).mono ?_ (Nat.le_refl _) ?_
      · show s.ring.enqueuePosition ≤ p + 1
        omega
      · intro q hq
        exact ⟨(h.of_filling hq).1, rfl⟩
  · -- the new position lies above every position being filled
    refine h.owner.update ?_
    intro q hq u _ hu
    have hpq : p = q := Option.some.inj hq
    have := (h.of_filling hu).2.1
    omega
  · have hc := h.consumer
    show ConsumerOk _ s.consumer
    cases hcs : s.consumer <;> rw [hcs] at hc
    case copying q e' todo =>
      obtain ⟨h1, h2, h3, h4⟩ := hc
      refine ⟨h1, ?_, h3, h4⟩
      show q < p + 1
      omega
    all_goals exact hc

omit [DecidableEq T] in
/-- The slot of a position being filled is no other live position's slot. -/
theorem RingInv.slotIndex_ne {s : RingState T} (h : RingInv s) {p q : Nat}
    (hp : s.released ≤ p) (hp' : p < s.ring.enqueuePosition)
    (hq : s.released ≤ q) (hq' : q < s.released + traceRingCapacity)
    (hne : q ≠ p) : slotIndex q ≠ slotIndex p := by
  intro heq
  have := h.room
  exact hne (slotIndex_window hq hq' hp (by omega) heq)

omit [DecidableEq T] in
/-- The reader copies from a live position that nobody fills. -/
theorem RingInv.of_reading {s : RingState T} (h : RingInv s) {p : Nat}
    {e : TraceEvent} {todo : List Nat} (hc : s.consumer = .copying p e todo) :
    s.released = p ∧ p = s.ring.dequeuePosition ∧
      p < s.ring.enqueuePosition ∧ s.seqAt p = p + 1 := by
  have hok : ConsumerOk s (.copying p e todo) := hc ▸ h.consumer
  refine ⟨?_, hok.1, hok.2.1, hok.2.2.1⟩
  rw [RingState.released, hc]
  exact hok.1.symm

omit [DecidableEq T] in
/-- What the reader knows survives a change of the slot of a position it is
    not reading. -/
theorem RingInv.consumer_setSlot {s : RingState T} (h : RingInv s) {p : Nat}
    (x : TraceRingSlot) (f : T → Producer)
    (hne : ∀ q e todo, s.consumer = .copying q e todo → slotIndex q ≠ slotIndex p) :
    ConsumerOk { s with ring := s.ring.setSlot p x, producers := f } s.consumer := by
  have hc := h.consumer
  cases hcs : s.consumer with
  | copying q e todo =>
      rw [hcs] at hc
      obtain ⟨h1, h2, h3, h4⟩ := hc
      have hs : (s.ring.setSlot p x).slot q = s.ring.slot q :=
        slot_setSlot_of_ne _ _ (hne q e todo hcs)
      refine ⟨h1, h2, ?_, ?_⟩
      · show ((s.ring.setSlot p x).slot q).sequence = q + 1
        rw [hs]
        exact h3
      · show ∀ i, i < traceMaxEventBytes → i ∉ todo →
          e.byte i = ((s.ring.setSlot p x).slot q).event.byte i
        rw [hs]
        exact h4
  | idle => trivial
  | loadingSequence q => rwa [hcs] at hc
  | storing q e => rwa [hcs] at hc

/-- A thread writes the slot it fills: every other position of the lap keeps
    its slot. -/
theorem RingInv.fillSlot {s : RingState T} (h : RingInv s) {t : T} {p : Nat}
    (ht : (s.producers t).filling = some p) (x : TraceRingSlot)
    (hx : x.sequence = p ∨ x.sequence = p + 1) {p' : Producer}
    (hfill : ∀ q, p'.filling = some q → q = p)
    (hok : ProducerOk
      { s.setProducer t p' with ring := s.ring.setSlot p x } p') :
    RingInv { s.setProducer t p' with ring := s.ring.setSlot p x } := by
  obtain ⟨hrel, hlt, hseq⟩ := h.of_filling ht
  have hroom := h.room
  -- within one lap different positions have different slots
  have hother : ∀ q, s.released ≤ q → q < s.released + traceRingCapacity → q ≠ p →
      (s.ring.setSlot p x).slot q = s.ring.slot q := fun q h1 h2 hne =>
    slot_setSlot_of_ne _ _ (h.slotIndex_ne hrel hlt h1 h2 hne)
  refine ⟨h.behind, h.room, ?_, ?_, ?_, ?_, ?_⟩
  · intro q hq hq'
    have hq : s.released ≤ q := hq
    have hq' : q < s.ring.enqueuePosition := hq'
    show ((s.ring.setSlot p x).slot q).sequence = q
      ∨ ((s.ring.setSlot p x).slot q).sequence = q + 1
    by_cases hqp : q = p
    · rw [hqp, slot_setSlot_self _ _ rfl]
      exact hx
    · rw [hother q hq (by omega) hqp]
      exact h.taken q hq hq'
  · intro q hq hq'
    have hq : s.ring.enqueuePosition ≤ q := hq
    have hq' : q < s.released + traceRingCapacity := hq'
    show ((s.ring.setSlot p x).slot q).sequence = q
    rw [hother q (by omega) hq' (by omega)]
    exact h.free q hq hq'
  · intro u
    show ProducerOk _ (Function.update s.producers t p' u)
    by_cases hu : u = t
    · rw [hu, Function.update_self]
      exact hok
    · rw [Function.update_of_ne hu]
      refine (h.producer u).mono (Nat.le_refl _) (Nat.le_refl _) ?_
      intro q hq
      obtain ⟨h1, h2, -⟩ := h.of_filling hq
      have hne : q ≠ p := fun hqp => hu (h.owner u t p (hqp ▸ hq) ht)
      exact ⟨h1, hother q h1 (by omega) hne⟩
  · refine h.owner.update ?_
    intro q hq u hu huq
    exact hu (h.owner u t p (hfill q hq ▸ huq) ht)
  · refine h.consumer_setSlot x _ ?_
    intro q e todo hc
    obtain ⟨h1, -, -, h4⟩ := h.of_reading hc
    have hne : q ≠ p := by
      intro hqp
      rw [hqp] at h4
      omega
    exact h.slotIndex_ne hrel hlt (by omega) (by omega) hne

theorem ringInv_copy {s : RingState T} (h : RingInv s) {t : T} {e : TraceEvent}
    {p i : Nat} {todo : List Nat} (hp : s.producers t = .copying e p todo) :
    RingInv { s.setProducer t (.copying e p (todo.erase i)) with
      ring := s.ring.setSlotByte p i (e.byte i) } := by
  have hok : ProducerOk s (.copying e p todo) := hp ▸ h.producer t
  obtain ⟨h1, h2, h3, h4⟩ := hok
  refine h.fillSlot (by rw [hp]; rfl)
    { s.ring.slot p with event := (s.eventAt p).store i [e.byte i] }
    (Or.inl h3) ?_ ?_
  · intro q hq
    exact (Option.some.inj hq).symm
  have hself : (s.ring.setSlotByte p i (e.byte i)).slot p
      = { s.ring.slot p with event := (s.eventAt p).store i [e.byte i] } :=
    slot_setSlot_self _ _ rfl
  refine ⟨h1, h2, ?_, ?_⟩
  · show ((s.ring.setSlotByte p i (e.byte i)).slot p).sequence = p
    rw [hself]
    exact h3
  · intro j hj hnj
    show ((s.ring.setSlotByte p i (e.byte i)).slot p).event.byte j = e.byte j
    rw [hself]
    show ((s.eventAt p).store i [e.byte i]).byte j = e.byte j
    rw [byte_store_one]
    by_cases hji : j = i
    · by_cases hlt : j < traceMaxEventBytes
      · rw [if_pos ⟨hji, hlt⟩, hji]
      · rw [if_neg (by omega), TraceEvent.byte_of_ge _ (by omega),
          TraceEvent.byte_of_ge _ (by omega)]
    · rw [if_neg (by omega)]
      refine h4 j hj fun hmem => hnj ?_
      exact (List.mem_erase_of_ne hji).mpr hmem

theorem ringInv_publish {s : RingState T} (h : RingInv s) {t : T} {e : TraceEvent}
    {p : Nat} {todo : List Nat} (hp : s.producers t = .copying e p todo) :
    RingInv { s.setProducer t (.waking e p) with
      ring := s.ring.setSlotSequence p (p + 1) } :=
  h.fillSlot (by rw [hp]; rfl) _ (Or.inr rfl) (fun _ hq => nomatch hq) trivial

omit [DecidableEq T] in
theorem ringInv_release {s : RingState T} (h : RingInv s) {e : TraceEvent}
    {p : Nat} {todo : List Nat} (hc : s.consumer = .copying p e todo) :
    RingInv { s with
      ring := s.ring.setSlotSequence p (p + traceRingCapacity)
      consumer := .storing p e } := by
  obtain ⟨hrel, hdeq, hlt, hseq⟩ := h.of_reading hc
  have hroom := h.room
  have hother : ∀ q, p + 1 ≤ q → q < p + traceRingCapacity →
      (s.ring.setSlotSequence p (p + traceRingCapacity)).slot q = s.ring.slot q :=
    fun q h1 h2 => slot_setSlot_of_ne _ _
      (h.slotIndex_ne (by omega) hlt (by omega) (by omega) (by omega))
  refine ⟨?_, ?_, ?_, ?_, ?_, h.owner, hdeq⟩
  · show p + 1 ≤ s.ring.enqueuePosition
    omega
  · show s.ring.enqueuePosition ≤ p + 1 + traceRingCapacity
    omega
  · intro q hq hq'
    have hq : p + 1 ≤ q := hq
    have hq' : q < s.ring.enqueuePosition := hq'
    rw [RingState.seqAt, hother q hq (by omega)]
    exact h.taken q (by omega) hq'
  · intro q hq hq'
    have hq : s.ring.enqueuePosition ≤ q := hq
    have hq' : q < p + 1 + traceRingCapacity := hq'
    by_cases hlap : q = p + traceRingCapacity
    · rw [RingState.seqAt, hlap]
      exact congrArg TraceRingSlot.sequence
        (slot_setSlot_self _ _ (slotIndex_lap p))
    · rw [RingState.seqAt, hother q (by omega) (by omega)]
      exact h.free q hq (by omega)
  · intro u
    refine (h.producer u).mono (Nat.le_refl _) ?_ ?_
    · show s.released ≤ p + 1
      omega
    · intro q hq
      obtain ⟨h1, h2, h3⟩ := h.of_filling hq
      have hne : q ≠ p := by
        intro hqp
        rw [hqp] at h3
        omega
      refine ⟨?_, hother q (by omega) (by omega)⟩
      show p + 1 ≤ q
      omega

/-- **THE SLOT INVARIANT IS KEPT** by every step. -/
theorem ringInv_step {s s' : RingState T} {a : RingAction T} (h : RingInv s)
    (hs : ringStep s a = some s') : RingInv s' := by
  cases ringStep_cases hs with
  | reject => exact h
  | call => exact h.quiet rfl rfl rfl rfl trivial
  | count => exact h.quiet rfl rfl rfl rfl trivial
  | loadPosition => exact h.quiet rfl rfl rfl rfl (Nat.le_refl _)
  | @loadSequence t e position hp =>
      have hle : position ≤ s.ring.enqueuePosition := by
        have := h.producer t
        rwa [hp] at this
      refine h.quiet rfl rfl rfl rfl ⟨hle, fun heq => ?_⟩
      -- a position a whole lap ahead still shows the sequence of its lap
      by_contra hge
      have hb := h.behind
      have hr := h.room
      have hc : traceRingCapacity = 16384 := rfl
      have hidx : slotIndex position = slotIndex s.released := by
        have : position = s.released + traceRingCapacity := by omega
        rw [this, slotIndex_lap]
      have hsame : s.seqAt position = s.seqAt s.released := by
        rw [RingState.seqAt, TraceRing.slot, hidx]
        rfl
      have := h.taken s.released (Nat.le_refl _) (by omega)
      omega
  | drop => exact h.quiet rfl rfl rfl rfl trivial
  | reserve hp henq => exact ringInv_reserve h hp henq
  | retry => exact h.quiet rfl rfl rfl rfl trivial
  | copy hp _ => exact ringInv_copy h hp
  | publish hp => exact ringInv_publish h hp
  | wakeNot => exact h.quiet rfl rfl rfl rfl trivial
  | wakeAgain => exact h.quiet rfl rfl rfl rfl trivial
  | wakeFirst => exact h.quiet rfl rfl rfl rfl trivial
  | signal => exact h.quiet rfl rfl rfl rfl trivial
  | signalFail => exact h.quiet rfl rfl rfl rfl trivial
  | unwake => exact h.quiet rfl rfl rfl rfl trivial
  | ret => exact h.quiet rfl rfl rfl rfl trivial
  | readPosition hc =>
      refine h.reader (d := s.ring.dequeuePosition) ?_ rfl
      rw [RingState.released, RingState.released, hc]
  | readNothing hc _ =>
      refine h.reader (d := s.ring.dequeuePosition) ?_ trivial
      rw [RingState.released, RingState.released, hc]
  | @readClaim position hc hseq =>
      have hpos : position = s.ring.dequeuePosition := by
        have := h.consumer
        rwa [hc] at this
      have hrel : s.released = position := by
        rw [RingState.released, hc]
        exact hpos.symm
      refine h.reader (d := s.ring.dequeuePosition) ?_ ⟨hpos, ?_, hseq, ?_⟩
      · rw [RingState.released, RingState.released, hc]
      · exact h.lt_enqueue (by
          have : traceRingCapacity = 16384 := rfl
          omega) hseq
      · intro i hi hni
        exact absurd (List.mem_range.mpr hi) hni
  | @readCopy position e todo i hc hi =>
      have hok : ConsumerOk s (.copying position e todo) := hc ▸ h.consumer
      obtain ⟨h1, h2, h3, h4⟩ := hok
      refine h.reader (d := s.ring.dequeuePosition) ?_ ⟨h1, h2, h3, ?_⟩
      · rw [RingState.released, RingState.released, hc]
      · intro j hj hnj
        show (e.store i [(s.eventAt position).byte i]).byte j = _
        rw [byte_store_one]
        by_cases hji : j = i
        · rw [if_pos ⟨hji, hj⟩, hji]
          rfl
        · rw [if_neg (by omega)]
          refine h4 j hj fun hmem => hnj ?_
          exact (List.mem_erase_of_ne hji).mpr hmem
  | release hc => exact ringInv_release h hc
  | @deliver position e hc =>
      refine h.reader ?_ trivial
      rw [RingState.released, RingState.released, hc]
  | clearWake =>
      exact ⟨h.behind, h.room, h.taken, h.free, h.producer, h.owner, h.consumer⟩
  | takeWake =>
      exact ⟨h.behind, h.room, h.taken, h.free, h.producer, h.owner, h.consumer⟩
  | configure =>
      exact ⟨h.behind, h.room, h.taken, h.free, h.producer, h.owner, h.consumer⟩

/-- Every reachable state of the ring satisfies the slot invariant. -/
theorem ringInv_reachable {s : RingState T} {ok : RingState T → RingAction T → Prop}
    (h : ReachableIf (ringSystem T) ok s) : RingInv s :=
  h.invariant (P := RingInv) (fun _ => ringInv_init)
    fun _ _ _ hi _ hs => ringInv_step hi hs

/-! ## A start -/

/-- The ring as created, transport configured. -/
def startState (T : Type) : RingState T where
  ring := createSharedRing
  exports := ⟨true, true, true⟩
  producers := fun _ => .idle
  consumer := .idle
  wakeEvent := false

theorem startState_init (T : Type) : RingInit (startState T) :=
  ⟨rfl, fun _ => rfl, rfl, rfl⟩

/-- An event of nothing but a header. -/
def headerOnly : TraceEvent :=
  ((TraceEvent.zero.setMagic traceEventMagic).setVersion traceEventVersion).setSize
    sizeofEventHeader

/-! ## Positions stay small -/

/-- Every window of one lap has a position with a given slot. -/
theorem exists_window (lo p : Nat) :
    ∃ q, lo ≤ q ∧ q < lo + traceRingCapacity ∧ slotIndex q = slotIndex p := by
  have hc : traceRingCapacity = 16384 := rfl
  refine ⟨lo + (p + 16384 - lo % 16384) % 16384, by omega, by omega, Fin.ext ?_⟩
  rw [slotIndex_val, slotIndex_val]
  omega

omit [DecidableEq T] in
theorem RingInv.seqAt_le {s : RingState T} (h : RingInv s) (p : Nat) :
    s.seqAt p ≤ s.released + traceRingCapacity := by
  obtain ⟨q, hq, hq', hidx⟩ := exists_window s.released p
  have hseq : s.seqAt p = s.seqAt q := by
    rw [RingState.seqAt, RingState.seqAt, TraceRing.slot, TraceRing.slot, hidx]
  by_cases henq : q < s.ring.enqueuePosition
  · rcases h.taken q hq henq with h1 | h1 <;> omega
  · have := h.free q (by omega) hq'
    omega

theorem enqueue_step {s s' : RingState T} {a : RingAction T}
    (hs : ringStep s a = some s') :
    s'.ring.enqueuePosition ≤ s.ring.enqueuePosition + 1 := by
  cases ringStep_cases hs with
  | @reserve t e p hp henq =>
      show p + 1 ≤ s.ring.enqueuePosition + 1
      omega
  | _ => exact Nat.le_succ _

/-- **NO OVERFLOW**: a run of `n` steps keeps every position within `n` and
    every slot sequence within `n + 16384`, far below the range of `LONG64`. -/
theorem positions_fit {s s' : RingState T} {as : List (RingAction T)}
    (hi : RingInit s) (h : (ringSystem T).exec s as = some s') :
    s'.ring.enqueuePosition ≤ as.length ∧
      ∀ p, s'.seqAt p ≤ as.length + traceRingCapacity := by
  have hgrow : ∀ (as : List (RingAction T)) (s : RingState T),
      (ringSystem T).exec s as = some s' →
      s'.ring.enqueuePosition ≤ s.ring.enqueuePosition + as.length := by
    intro as
    induction as with
    | nil =>
        intro s h
        rw [Option.some.inj h]
        exact Nat.le_refl _
    | cons a as ih =>
        intro s h
        rw [System.exec] at h
        cases hs : (ringSystem T).step s a with
        | none =>
            rw [hs] at h
            cases h
        | some s₁ =>
            rw [hs] at h
            have h1 := ih s₁ h
            have h2 := enqueue_step hs
            rw [List.length_cons]
            omega
  have hinv : RingInv s' := ringInv_reachable
    ((show Reachable (ringSystem T) s from .init hi).exec (fun _ _ => trivial) as h)
  have h0 : s.ring.enqueuePosition = 0 := by
    rw [hi.1]
    rfl
  have hle := hgrow as s h
  refine ⟨by omega, fun p => ?_⟩
  have h1 := hinv.seqAt_le p
  have h2 := hinv.behind
  omega

end ScopeRing
