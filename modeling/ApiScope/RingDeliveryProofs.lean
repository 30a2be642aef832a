import Mathlib.Data.List.Nodup
import ApiScope.RingProofs

/-! # Ring delivery — every published event, once and in order

    The history of a run records what the two functions do: calls, sequence
    numbers, reservations, publications, drops, returns, releases and
    deliveries.  Three invariants tie it to the ring:

    1. `Delivery` — the events handed to the reader are those published at
       positions 0, 1, 2, …, and no published event is lost on the way;
    2. `CallOrder` — a call that starts after another returned publishes at
       a later position;
    3. `Numbering` — while fewer than 2^32 calls were made, sequence numbers
       are distinct and grow along the same order.

    `ring_safe` collects them over every reachable state. -/

namespace ScopeRing

open ScopeBytes ScopeProtocol ScopeTransition

/-! ## Histories -/

/-- What an observer sees of one step. -/
inductive RingEvent (T : Type) where
  /-- A call of `EmitTraceEvent` with this event passes the entry checks. -/
  | called (t : T) (event : TraceEvent)
  /-- The call takes its sequence number. -/
  | sequenced (t : T)
  /-- The call loads the slot sequence of a position. -/
  | loaded (t : T) (position sequence : Nat)
  | reserved (t : T) (position : Nat)
  | published (t : T) (position : Nat) (event : TraceEvent)
  | dropped (t : T)
  /-- The call returns: true with the position published, or false. -/
  | returned (t : T) (event : TraceEvent) (position : Option Nat)
  | released (position : Nat)
  /-- `TryReadRing` returns true with this event. -/
  | delivered (event : TraceEvent)

variable {T : Type}

/-- What a step shows. -/
def observe (s : RingState T) : RingAction T → List (RingEvent T)
  | .emit t e =>
      match s.producers t with
      | .idle => if emitAccepts s.exports s.ring e then [.called t e] else []
      | _ => []
  | .producer t =>
      match s.producers t with
      | .counting _ => [.sequenced t]
      | .loadingSequence _ position => [.loaded t position (s.seqAt position)]
      | .deciding _ position sequence =>
          if sequence < position then [.dropped t]
          else if sequence = position ∧ s.ring.enqueuePosition = position then
            [.reserved t position]
          else []
      | .copying e position [] => [.published t position e]
      | .returning e position => [.returned t e position]
      | _ => []
  | .consumer =>
      match s.consumer with
      | .copying position _ [] => [.released position]
      | .storing _ e => [.delivered e]
      | _ => []
  | _ => []

/-- The ring with its history. -/
def tracedRing (T : Type) [DecidableEq T] :
    System (RingState T × List (RingEvent T)) (RingAction T) :=
  (ringSystem T).traced observe

/-- One publication: who, where, what. -/
structure Publication (T : Type) where
  thread : T
  position : Nat
  event : TraceEvent

namespace RingEvent

def asPublished : RingEvent T → Option (Publication T)
  | .published t p e => some ⟨t, p, e⟩
  | _ => none

def asDelivered : RingEvent T → Option TraceEvent
  | .delivered e => some e
  | _ => none

def isSequenced : RingEvent T → Bool
  | .sequenced _ => true
  | _ => false

end RingEvent

/-- The publications of a history, in the order they happened. -/
def publications (h : List (RingEvent T)) : List (Publication T) :=
  h.filterMap RingEvent.asPublished

/-- The events `TryReadRing` returned, in order. -/
def deliveries (h : List (RingEvent T)) : List TraceEvent :=
  h.filterMap RingEvent.asDelivered

/-- The calls of `EmitTraceEvent`, counted where they take their number. -/
def emits (h : List (RingEvent T)) : Nat := h.countP RingEvent.isSequenced

theorem publications_append (h o : List (RingEvent T)) :
    publications (h ++ o) = publications h ++ publications o :=
  List.filterMap_append

theorem deliveries_append (h o : List (RingEvent T)) :
    deliveries (h ++ o) = deliveries h ++ deliveries o :=
  List.filterMap_append

theorem emits_append (h o : List (RingEvent T)) :
    emits (h ++ o) = emits h + emits o :=
  List.countP_append

theorem mem_publications {h : List (RingEvent T)} {t : T} {p : Nat} {e : TraceEvent} :
    ⟨t, p, e⟩ ∈ publications h ↔ RingEvent.published t p e ∈ h := by
  rw [publications, List.mem_filterMap]
  constructor
  · rintro ⟨v, hv, heq⟩
    cases v with
    | published t' p' e' =>
        cases heq
        exact hv
    | _ => cases heq
  · intro hmem
    exact ⟨_, hmem, rfl⟩

/-- `d` is a copy of `e` on the bytes that `e` declares. -/
def Copied (d e : TraceEvent) : Prop :=
  ∀ i, i < e.size → d.byte i = e.byte i

/-- The sizes that `EmitTraceEvent` lets through. -/
def SizeOk (e : TraceEvent) : Prop :=
  sizeofEventHeader ≤ e.size ∧ e.size ≤ traceMaxEventBytes

/-- A copy carries the header of its original. -/
theorem Copied.sequence_eq {d e : TraceEvent} (h : Copied d e) (hs : SizeOk e) :
    d.sequence = e.sequence := by
  refine TraceEvent.word_congr_header (fun i hi => h i ?_) (by decide)
  have := hs.1
  omega

theorem emitAccepts_size {x : TransportExports} {r : TraceRing} {e : TraceEvent}
    (h : emitAccepts x r e = true) : SizeOk e := by
  simp only [emitAccepts, Bool.and_eq_true, decide_eq_true_eq] at h
  have h1 := h.1.2
  have h2 := h.2
  exact ⟨by omega, h2⟩

theorem size_setSequence (e : TraceEvent) (v : Nat) :
    (e.setSequence v).size = e.size :=
  e.word_setWord_of_disjoint (by decide) (by decide)

theorem sequence_setSequence (e : TraceEvent) (v : UInt32) :
    (e.setSequence v.toNat).sequence = v.toNat := by
  have h : word (e.setWord 12 4 v.toNat).byte 12 4 = v.toNat % 256 ^ 4 :=
    e.word_setWord_self (by decide)
  have hv : v.toNat < 256 ^ 4 := v.toNat_lt
  rw [Nat.mod_eq_of_lt hv] at h
  exact h

/-! ## Events in flight -/

namespace Producer

/-- The event of a call in progress. -/
def event : Producer → Option TraceEvent
  | .idle => none
  | .counting e => some e
  | .loadingPosition e => some e
  | .loadingSequence e _ => some e
  | .deciding e _ _ => some e
  | .copying e _ _ => some e
  | .waking e _ => some e
  | .signalling e _ => some e
  | .signalFailed e _ => some e
  | .returning e _ => some e

/-- The event of a call that has its sequence number and is not published. -/
def unpublished : Producer → Option TraceEvent
  | .loadingPosition e => some e
  | .loadingSequence e _ => some e
  | .deciding e _ _ => some e
  | .copying e _ _ => some e
  | _ => none

/-- What a call has published. -/
def outcome : Producer → Option (TraceEvent × Nat)
  | .waking e p => some (e, p)
  | .signalling e p => some (e, p)
  | .signalFailed e p => some (e, p)
  | .returning e (some p) => some (e, p)
  | _ => none

end Producer

/-- Every call in progress holds an event of an admissible size. -/
def SizesOk (s : RingState T) : Prop :=
  ∀ t e, (s.producers t).event = some e → SizeOk e

variable [DecidableEq T]

theorem sizesOk_step {s s' : RingState T} {a : RingAction T} (h : SizesOk s)
    (hs : ringStep s a = some s') : SizesOk s' := by
  have same : ∀ {t : T} {p : Producer}, p.event = (s.producers t).event →
      ∀ u e, (Function.update s.producers t p u).event = some e → SizeOk e := by
    intro t p hp
    refine forall_update (P := fun _ p => ∀ e, p.event = some e → SizeOk e) h ?_
    rw [hp]
    exact h t
  have gone : ∀ {t : T} {p : Producer}, p.event = none →
      ∀ u e, (Function.update s.producers t p u).event = some e → SizeOk e := by
    intro t p hp
    refine forall_update (P := fun _ p => ∀ e, p.event = some e → SizeOk e) h ?_
    intro e he
    rw [hp] at he
    cases he
  cases ringStep_cases hs with
  | call hp hok =>
      refine forall_update (P := fun _ p => ∀ e, p.event = some e → SizeOk e) h ?_
      intro e he
      cases he
      exact emitAccepts_size hok
  | @count t e hp =>
      refine forall_update (P := fun _ p => ∀ e, p.event = some e → SizeOk e) h ?_
      intro e' he
      cases he
      have hsize := h t e (by rw [hp]; rfl)
      rw [SizeOk, size_setSequence]
      exact hsize
  | loadPosition hp | loadSequence hp | drop hp | reserve hp | retry hp | copy hp
  | publish hp | wakeNot hp | wakeAgain hp | wakeFirst hp | signal hp
  | signalFail hp | unwake hp => exact same (by rw [hp]; rfl)
  | ret hp => exact gone rfl
  | reject | readPosition | readNothing | readClaim | readCopy | release | deliver
  | clearWake | takeWake | configure => exact h

/-! ## Publication and delivery -/

/-- Where every published event is: delivered, in the reader's hands, or in
    its slot. -/
structure Delivery (s : RingState T) (pubs : List (Publication T))
    (dels : List TraceEvent) : Prop where
  below : ∀ x ∈ pubs, x.position < s.ring.enqueuePosition
  sized : ∀ x ∈ pubs, SizeOk x.event
  once : (pubs.map Publication.position).Nodup
  pending : ∀ x ∈ pubs, s.released ≤ x.position →
    s.seqAt x.position = x.position + 1 ∧ Copied (s.eventAt x.position) x.event
  ready : ∀ p, s.released ≤ p → p < s.ring.enqueuePosition → s.seqAt p = p + 1 →
    ∃ x ∈ pubs, x.position = p
  storing : ∀ p d, s.consumer = .storing p d →
    ∃ x ∈ pubs, x.position = p ∧ Copied d x.event
  count : dels.length = s.ring.dequeuePosition
  inOrder : ∀ k d, dels[k]? = some d →
    ∃ x ∈ pubs, x.position = k ∧ Copied d x.event

omit [DecidableEq T] in
/-- A step that touches no slot and hands nothing over. -/
theorem Delivery.quiet {s s' : RingState T} {pubs : List (Publication T)}
    {dels : List TraceEvent} (h : Delivery s pubs dels)
    (hslots : s'.ring.slots = s.ring.slots)
    (henq : s'.ring.enqueuePosition = s.ring.enqueuePosition)
    (hdeq : s'.ring.dequeuePosition = s.ring.dequeuePosition)
    (hrel : s'.released = s.released)
    (hcons : ∀ p d, s'.consumer = .storing p d → s.consumer = .storing p d) :
    Delivery s' pubs dels := by
  have hslot : ∀ p, s'.ring.slot p = s.ring.slot p := fun p =>
    congrFun hslots (slotIndex p)
  refine ⟨henq ▸ h.below, h.sized, h.once, ?_, ?_, ?_, hdeq ▸ h.count, h.inOrder⟩
  · rw [hrel]
    intro x hx hle
    rw [RingState.seqAt, RingState.eventAt, hslot]
    exact h.pending x hx hle
  · rw [hrel, henq]
    intro p hle hlt hseq
    rw [RingState.seqAt, hslot] at hseq
    exact h.ready p hle hlt hseq
  · intro p d hc
    exact h.storing p d (hcons p d hc)

omit [DecidableEq T] in
theorem delivery_init {s : RingState T} (h : RingInit s) :
    Delivery s ([] : List (Publication T)) [] := by
  obtain ⟨hr, -, hc, -⟩ := h
  refine ⟨?_, ?_, List.nodup_nil, ?_, ?_, ?_, ?_, ?_⟩
  · intro x hx
    cases hx
  · intro x hx
    cases hx
  · intro x hx
    cases hx
  · intro p _ hlt _
    rw [hr] at hlt
    exact absurd hlt (Nat.not_lt_zero p)
  · intro p d hs
    rw [hc] at hs
    cases hs
  · rw [hr]
    rfl
  · intro k d hk
    cases hk

/-- A reservation publishes nothing: the new position still shows itself. -/
theorem delivery_reserve {s : RingState T} {pubs : List (Publication T)}
    {dels : List TraceEvent} (hi : RingInv s) (h : Delivery s pubs dels) {t : T}
    {e : TraceEvent} {p : Nat} (hp : s.producers t = .deciding e p p)
    (henq : s.ring.enqueuePosition = p) :
    Delivery { s.setProducer t (.copying e p (List.range e.size)) with
      ring := { s.ring with enqueuePosition := p + 1 } } pubs dels := by
  have hok : ProducerOk s (.deciding e p p) := hp ▸ hi.producer t
  have hfree : s.seqAt p = p := hi.free p (by omega) (hok.2 rfl)
  refine ⟨?_, h.sized, h.once, h.pending, ?_, h.storing, h.count, h.inOrder⟩
  · intro x hx
    have := h.below x hx
    show x.position < p + 1
    omega
  · intro q hle hlt hseq
    have hlt : q < p + 1 := hlt
    have hseq : s.seqAt q = q + 1 := hseq
    have hne : q ≠ p := by
      intro hqp
      rw [hqp] at hseq
      omega
    exact h.ready q hle (by omega) hseq

/-- The slots other than the one a thread fills keep their publications. -/
theorem delivery_copy {s : RingState T} {pubs : List (Publication T)}
    {dels : List TraceEvent} (hi : RingInv s) (h : Delivery s pubs dels) {t : T}
    {e : TraceEvent} {p i : Nat} {todo : List Nat}
    (hp : s.producers t = .copying e p todo) :
    Delivery { s.setProducer t (.copying e p (todo.erase i)) with
      ring := s.ring.setSlotByte p i (e.byte i) } pubs dels := by
  obtain ⟨hrel, hlt, hseq⟩ := hi.of_filling (t := t) (p := p) (by rw [hp]; rfl)
  have hroom := hi.room
  have hself : ((s.ring.setSlotByte p i (e.byte i)).slot p).sequence = p := by
    rw [TraceRing.setSlotByte, slot_setSlot_self _ _ rfl]
    exact hseq
  have hother : ∀ q, s.released ≤ q → q < s.ring.enqueuePosition → q ≠ p →
      (s.ring.setSlotByte p i (e.byte i)).slot q = s.ring.slot q := fun q h1 h2 hne =>
    slot_setSlot_of_ne _ _ (hi.slotIndex_ne hrel hlt h1 (by omega) hne)
  refine ⟨h.below, h.sized, h.once, ?_, ?_, h.storing, h.count, h.inOrder⟩
  · intro x hx hle
    obtain ⟨h1, h2⟩ := h.pending x hx hle
    have hne : x.position ≠ p := by
      intro hxp
      rw [hxp] at h1
      omega
    rw [RingState.seqAt, RingState.eventAt, hother _ hle (h.below x hx) hne]
    exact ⟨h1, h2⟩
  · intro q hle hlt' hseq'
    have hne : q ≠ p := by
      intro hqp
      rw [RingState.seqAt, hqp, hself] at hseq'
      omega
    rw [RingState.seqAt, hother q hle hlt' hne] at hseq'
    exact h.ready q hle hlt' hseq'

theorem delivery_publish {s : RingState T} {pubs : List (Publication T)}
    {dels : List TraceEvent} (hi : RingInv s) (hz : SizesOk s)
    (h : Delivery s pubs dels) {t : T} {e : TraceEvent} {p : Nat}
    (hp : s.producers t = .copying e p []) :
    Delivery { s.setProducer t (.waking e p) with
      ring := s.ring.setSlotSequence p (p + 1) } (pubs ++ [⟨t, p, e⟩]) dels := by
  have hok : ProducerOk s (.copying e p []) := hp ▸ hi.producer t
  obtain ⟨hrel, hlt, hseq, hbytes⟩ := hok
  have hroom := hi.room
  have hself : (s.ring.setSlotSequence p (p + 1)).slot p
      = { s.ring.slot p with sequence := p + 1 } := slot_setSlot_self _ _ rfl
  have hother : ∀ q, s.released ≤ q → q < s.ring.enqueuePosition → q ≠ p →
      (s.ring.setSlotSequence p (p + 1)).slot q = s.ring.slot q := fun q h1 h2 hne =>
    slot_setSlot_of_ne _ _ (hi.slotIndex_ne hrel hlt h1 (by omega) hne)
  -- the slot is not published yet, so no publication has its position
  have hnew : ∀ x ∈ pubs, x.position ≠ p := by
    intro x hx hxp
    obtain ⟨h1, -⟩ := h.pending x hx (by omega)
    rw [hxp] at h1
    omega
  refine ⟨?_, ?_, ?_, ?_, ?_, ?_, h.count, ?_⟩
  · intro x hx
    rcases List.mem_append.mp hx with hx | hx
    · exact h.below x hx
    · rw [List.mem_singleton.mp hx]
      exact hlt
  · intro x hx
    rcases List.mem_append.mp hx with hx | hx
    · exact h.sized x hx
    · rw [List.mem_singleton.mp hx]
      exact hz t e (by rw [hp]; rfl)
  · rw [List.map_append, List.map_singleton]
    refine List.nodup_append.mpr ⟨h.once, by simp, ?_⟩
    intro q hq q' hq' hqq
    obtain ⟨x, hx, hxq⟩ := List.mem_map.mp hq
    rw [hqq, List.mem_singleton.mp hq'] at hxq
    exact hnew x hx hxq
  · intro x hx hle
    rcases List.mem_append.mp hx with hx | hx
    · rw [RingState.seqAt, RingState.eventAt,
        hother _ hle (h.below x hx) (hnew x hx)]
      exact h.pending x hx hle
    · rw [List.mem_singleton.mp hx, RingState.seqAt, RingState.eventAt, hself]
      exact ⟨rfl, fun i hi => hbytes i hi List.not_mem_nil⟩
  · intro q hle hlt' hseq'
    by_cases hqp : q = p
    · exact ⟨⟨t, p, e⟩, List.mem_append_right _ (List.mem_singleton_self _), hqp.symm⟩
    · rw [RingState.seqAt, hother q hle hlt' hqp] at hseq'
      obtain ⟨x, hx, hxq⟩ := h.ready q hle hlt' hseq'
      exact ⟨x, List.mem_append_left _ hx, hxq⟩
  · intro q d hc
    obtain ⟨x, hx, hxd⟩ := h.storing q d hc
    exact ⟨x, List.mem_append_left _ hx, hxd⟩
  · intro k d hk
    obtain ⟨x, hx, hxd⟩ := h.inOrder k d hk
    exact ⟨x, List.mem_append_left _ hx, hxd⟩

omit [DecidableEq T] in
/-- The reader leaves the slot with a copy of what was published there. -/
theorem delivery_release {s : RingState T} {pubs : List (Publication T)}
    {dels : List TraceEvent} (hi : RingInv s) (h : Delivery s pubs dels)
    {d : TraceEvent} {p : Nat} (hc : s.consumer = .copying p d []) :
    Delivery { s with
      ring := s.ring.setSlotSequence p (p + traceRingCapacity)
      consumer := .storing p d } pubs dels := by
  have hok : ConsumerOk s (.copying p d []) := hc ▸ hi.consumer
  obtain ⟨hdeq, hlt, hseq, hbytes⟩ := hok
  obtain ⟨hrel, -, -, -⟩ := hi.of_reading hc
  have hroom := hi.room
  have hother : ∀ q, p + 1 ≤ q → q < s.ring.enqueuePosition →
      (s.ring.setSlotSequence p (p + traceRingCapacity)).slot q = s.ring.slot q :=
    fun q h1 h2 => slot_setSlot_of_ne _ _
      (hi.slotIndex_ne (by omega) hlt (by omega) (by omega) (by omega))
  refine ⟨h.below, h.sized, h.once, ?_, ?_, ?_, h.count, h.inOrder⟩
  · intro x hx hle
    have hle : p + 1 ≤ x.position := hle
    rw [RingState.seqAt, RingState.eventAt, hother _ hle (h.below x hx)]
    exact h.pending x hx (by omega)
  · intro q hle hlt' hseq'
    have hle : p + 1 ≤ q := hle
    rw [RingState.seqAt, hother q hle hlt'] at hseq'
    exact h.ready q (by omega) hlt' hseq'
  · intro q d' hc'
    cases hc'
    obtain ⟨x, hx, hxp⟩ := h.ready p (by omega) hlt hseq
    obtain ⟨-, hcopy⟩ := h.pending x hx (by omega)
    refine ⟨x, hx, hxp, fun i hi => ?_⟩
    have hsize := (h.sized x hx).2
    rw [hbytes i (by omega) List.not_mem_nil, ← hxp]
    exact hcopy i hi

omit [DecidableEq T] in
theorem delivery_deliver {s : RingState T} {pubs : List (Publication T)}
    {dels : List TraceEvent} (hi : RingInv s) (h : Delivery s pubs dels)
    {d : TraceEvent} {p : Nat} (hc : s.consumer = .storing p d) :
    Delivery { s with
      ring := { s.ring with dequeuePosition := p + 1 }
      consumer := .idle } pubs (dels ++ [d]) := by
  have hok : ConsumerOk s (.storing p d) := hc ▸ hi.consumer
  have hdeq : p = s.ring.dequeuePosition := hok
  have hrel : s.released = p + 1 := by rw [RingState.released, hc]
  have hlen := h.count
  refine ⟨h.below, h.sized, h.once, ?_, ?_, ?_, ?_, ?_⟩
  · intro x hx hle
    have hle : p + 1 ≤ x.position := hle
    exact h.pending x hx (by omega)
  · intro q hle hlt hseq
    have hle : p + 1 ≤ q := hle
    exact h.ready q (by omega) hlt hseq
  · intro q d' hc'
    cases hc'
  · show (dels ++ [d]).length = p + 1
    rw [List.length_append, List.length_singleton]
    omega
  · intro k d' hk
    rcases Nat.lt_or_ge k dels.length with hlt | hge
    · rw [List.getElem?_append_left hlt] at hk
      exact h.inOrder k d' hk
    · rw [List.getElem?_append_right hge] at hk
      have hk0 : k - dels.length = 0 := by
        by_contra hne
        rw [List.getElem?_eq_none (by rw [List.length_singleton]; omega)] at hk
        cases hk
      rw [hk0] at hk
      have hd : d = d' := Option.some.inj hk
      obtain ⟨x, hx, hxp, hxd⟩ := h.storing p d hc
      exact ⟨x, hx, by omega, hd ▸ hxd⟩

/-- Every step keeps published and delivered events in correspondence. -/
theorem delivery_step {s s' : RingState T} {a : RingAction T}
    {h : List (RingEvent T)} (hi : RingInv s) (hz : SizesOk s)
    (hd : Delivery s (publications h) (deliveries h))
    (hs : ringStep s a = some s') :
    Delivery s' (publications (h ++ observe s a)) (deliveries (h ++ observe s a)) := by
  -- most steps publish and deliver nothing
  have silent : ∀ {o}, observe s a = o → publications o = [] → deliveries o = [] →
      Delivery s' (publications h) (deliveries h) →
      Delivery s' (publications (h ++ observe s a))
        (deliveries (h ++ observe s a)) := by
    intro o ho hp hd'
    rw [ho, publications_append, deliveries_append, hp, hd', List.append_nil,
      List.append_nil]
    exact id
  cases ringStep_cases hs with
  | reject hp hno => exact silent (by simp [observe, hp, hno]; rfl) rfl rfl hd
  | call hp hok =>
      exact silent (by simp [observe, hp, hok]; rfl) rfl rfl
        (hd.quiet rfl rfl rfl rfl fun _ _ hc => hc)
  | count hp | loadPosition hp | loadSequence hp | wakeNot hp | wakeAgain hp
  | wakeFirst hp | signal hp | signalFail hp | unwake hp | ret hp =>
      exact silent (by simp [observe, hp]; rfl) rfl rfl
        (hd.quiet rfl rfl rfl rfl fun _ _ hc => hc)
  | drop hp hlt =>
      exact silent (by simp [observe, hp, hlt]; rfl) rfl rfl
        (hd.quiet rfl rfl rfl rfl fun _ _ hc => hc)
  | reserve hp henq =>
      exact silent (by simp [observe, hp, henq]; rfl) rfl rfl
        (delivery_reserve hi hd hp henq)
  | @retry t e position sequence hp hge hne =>
      have hlt : ¬ sequence < position := by omega
      exact silent (by simp [observe, hp, hlt, hne]; rfl) rfl rfl
        (hd.quiet rfl rfl rfl rfl fun _ _ hc => hc)
  | copy hp _ => exact silent rfl rfl rfl (delivery_copy hi hd hp)
  | @publish t e position hp =>
      have ho : observe s (.producer t) = [.published t position e] := by
        simp [observe, hp]
      rw [ho, publications_append, deliveries_append]
      show Delivery _ _ (deliveries h ++ [])
      rw [List.append_nil]
      exact delivery_publish hi hz hd hp
  | readPosition hc =>
      exact silent (by simp [observe, hc]; rfl) rfl rfl
        (hd.quiet rfl rfl rfl (by rw [RingState.released, RingState.released, hc])
          fun _ _ h' => by cases h')
  | readNothing hc =>
      exact silent (by simp [observe, hc]; rfl) rfl rfl
        (hd.quiet rfl rfl rfl (by rw [RingState.released, RingState.released, hc])
          fun _ _ h' => by cases h')
  | readClaim hc =>
      exact silent (by simp [observe, hc]; rfl) rfl rfl
        (hd.quiet rfl rfl rfl (by rw [RingState.released, RingState.released, hc])
          fun _ _ h' => by cases h')
  | readCopy hc =>
      exact silent rfl rfl rfl
        (hd.quiet rfl rfl rfl (by rw [RingState.released, RingState.released, hc])
          fun _ _ h' => by cases h')
  | release hc =>
      exact silent (by simp [observe, hc]; rfl) rfl rfl (delivery_release hi hd hc)
  | @deliver position e hc =>
      have ho : observe s .consumer = [.delivered e] := by simp [observe, hc]
      rw [ho, publications_append, deliveries_append]
      show Delivery _ (publications h ++ []) _
      rw [List.append_nil]
      exact delivery_deliver hi hd hc
  | clearWake | takeWake | configure =>
      exact silent rfl rfl rfl (hd.quiet rfl rfl rfl rfl fun _ _ hc => hc)

/-! ## The order of calls

    A call is identified in the history by its `called` event and, when it
    returned, by the first `returned` event of the same thread after it.
    `Ordered` says of a measure of publications that every call stays above
    whatever was published before it started; positions and sequence numbers
    are both such measures. -/

omit [DecidableEq T] in
/-- Split a grown history at an event that is not its last one. -/
theorem snoc_split {h h₁ g : List (RingEvent T)} {o a : RingEvent T}
    (heq : h ++ [o] = h₁ ++ a :: g) :
    (g = [] ∧ h₁ = h ∧ a = o) ∨ ∃ g', g = g' ++ [o] ∧ h = h₁ ++ a :: g' := by
  rcases List.eq_nil_or_concat g with hg | ⟨g', b, hg⟩
  · rw [hg] at heq
    obtain ⟨h1, h2⟩ := List.append_inj' heq rfl
    exact Or.inl ⟨hg, h1.symm, (List.head_eq_of_cons_eq h2).symm⟩
  · rw [List.concat_eq_append] at hg
    rw [hg, ← List.cons_append, ← List.append_assoc] at heq
    obtain ⟨h1, h2⟩ := List.append_inj' heq rfl
    have hob : o = b := List.head_eq_of_cons_eq h2
    exact Or.inr ⟨g', by rw [hg, hob], h1⟩

/-- Calls measured by `key` stay above what was published, measured by `val`,
    before they started; `result` is the measure of a call that returned. -/
structure Ordered (key : Producer → Option Nat) (val : Publication T → Nat)
    (result : TraceEvent → Nat → Nat) (s : RingState T) (h : List (RingEvent T)) :
    Prop where
  floor : ∀ u e₀ h₁ h₂ q, h = h₁ ++ .called u e₀ :: h₂ → (∀ e, .called u e ∉ h₂) →
    key (s.producers u) = some q → ∀ x ∈ publications h₁, val x < q
  order : ∀ u e₀ h₁ h₂ h₃ e q,
    h = h₁ ++ .called u e₀ :: (h₂ ++ .returned u e (some q) :: h₃) →
    (∀ e, .called u e ∉ h₂) → ∀ x ∈ publications h₁, val x < result e q

omit [DecidableEq T] in
/-- **ORDER RULE**: it is enough that a thread's measure, when it changes,
    starts above everything published so far. -/
theorem Ordered.step {key : Producer → Option Nat} {val : Publication T → Nat}
    {result : TraceEvent → Nat → Nat} {s s' : RingState T}
    {h o : List (RingEvent T)} (hord : Ordered key val result s h)
    (hkey : ∀ u q, key (s'.producers u) = some q →
      key (s.producers u) = some q ∨ ∀ x ∈ publications h, val x < q)
    (ho : o = [] ∨ ∃ v, o = [v] ∧
      (∀ u e, v = .called u e → key (s'.producers u) = none) ∧
      (∀ u e q, v = .returned u e (some q) →
        key (s.producers u) = some (result e q))) :
    Ordered key val result s' (h ++ o) := by
  have hpre : ∀ {h₁ g : List (RingEvent T)} {a : RingEvent T}, h = h₁ ++ a :: g →
      ∀ x ∈ publications h₁, x ∈ publications h := by
    intro h₁ g a heq x hx
    rw [heq, publications_append]
    exact List.mem_append_left _ hx
  have hfloor : ∀ u e₀ h₁ h₂ q, h = h₁ ++ .called u e₀ :: h₂ → (∀ e, .called u e ∉ h₂) →
      key (s'.producers u) = some q → ∀ x ∈ publications h₁, val x < q := by
    intro u e₀ h₁ h₂ q heq hno hq x hx
    rcases hkey u q hq with hold | hnew
    · exact hord.floor u e₀ h₁ h₂ q heq hno hold x hx
    · exact hnew x (hpre heq x hx)
  rcases ho with ho | ⟨v, ho, hcall, hret⟩
  · rw [ho, List.append_nil]
    exact ⟨hfloor, hord.order⟩
  · rw [ho]
    refine ⟨?_, ?_⟩
    · intro u e₀ h₁ h₂ q heq hno hq
      rcases snoc_split heq with ⟨-, -, hv⟩ | ⟨g', hg, hh⟩
      · rw [hcall u e₀ hv.symm] at hq
        cases hq
      · refine hfloor u e₀ h₁ g' q hh (fun e hmem => hno e ?_) hq
        rw [hg]
        exact List.mem_append_left _ hmem
    · intro u e₀ h₁ h₂ h₃ e q heq hno
      rcases snoc_split heq with ⟨hnil, -, -⟩ | ⟨g', hg, hh⟩
      · exact absurd hnil (by simp)
      · rcases snoc_split hg.symm with ⟨-, hg', hv⟩ | ⟨g'', -, hg''⟩
        · -- the step is the return of this very call
          have hlast := hret u e q hv.symm
          exact hord.floor u e₀ h₁ h₂ _ (hg' ▸ hh) hno hlast
        · exact hord.order u e₀ h₁ h₂ g'' e q (hg'' ▸ hh) hno

/-- A `called` event starts a call, a `returned` event ends one. -/
theorem observe_call_return {s s' : RingState T} {a : RingAction T}
    (hs : ringStep s a = some s') :
    observe s a = [] ∨ ∃ v, observe s a = [v] ∧
      (∀ u e, v = .called u e → s'.producers u = .counting e) ∧
      (∀ u e p, v = .returned u e p → s.producers u = .returning e p) := by
  have other : ∀ v, observe s a = [v] → (∀ u e, v ≠ .called u e) →
      (∀ u e p, v ≠ .returned u e p) →
      observe s a = [] ∨ ∃ v, observe s a = [v] ∧
        (∀ u e, v = .called u e → s'.producers u = .counting e) ∧
        (∀ u e p, v = .returned u e p → s.producers u = .returning e p) :=
    fun v hv hcall hret => Or.inr ⟨v, hv, fun u e hu => absurd hu (hcall u e),
      fun u e p hu => absurd hu (hret u e p)⟩
  cases ringStep_cases hs with
  | reject hp hno => exact Or.inl (by simp [observe, hp, hno])
  | @call t e hp hok =>
      refine Or.inr ⟨.called t e, by simp [observe, hp, hok], ?_, ?_⟩
      · intro u e hu
        cases hu
        exact Function.update_self ..
      · intro u e p h
        cases h
  | @ret t e p hp =>
      refine Or.inr ⟨.returned t e p, by simp [observe, hp], ?_, ?_⟩
      · intro u e h
        cases h
      · intro u e' p' h
        cases h
        exact hp
  | loadPosition hp | wakeNot hp | wakeAgain hp | wakeFirst hp | unwake hp =>
      exact Or.inl (by simp [observe, hp])
  | @retry t e position sequence hp hge hne =>
      have hlt : ¬ sequence < position := by omega
      exact Or.inl (by simp [observe, hp, hlt, hne])
  | copy | signal | signalFail | readCopy | clearWake | takeWake | configure =>
      exact Or.inl rfl
  | readPosition hc | readNothing hc | readClaim hc =>
      exact Or.inl (by simp [observe, hc])
  | @count t e hp =>
      exact other (.sequenced t) (by simp [observe, hp]) (by simp) (by simp)
  | @loadSequence t e position hp =>
      exact other (.loaded t position (s.seqAt position)) (by simp [observe, hp])
        (by simp) (by simp)
  | @publish t e position hp =>
      exact other (.published t position e) (by simp [observe, hp]) (by simp)
        (by simp)
  | @drop t e position sequence hp hlt =>
      exact other (.dropped t) (by simp [observe, hp, hlt]) (by simp) (by simp)
  | @reserve t e position hp henq =>
      exact other (.reserved t position) (by simp [observe, hp, henq]) (by simp)
        (by simp)
  | @release position e hc =>
      exact other (.released position) (by simp [observe, hc]) (by simp) (by simp)
  | @deliver position e hc =>
      exact other (.delivered e) (by simp [observe, hc]) (by simp) (by simp)

/-! ### Positions -/

namespace Producer

/-- The position a call has reserved. -/
def position : Producer → Option Nat
  | .copying _ p _ => some p
  | .waking _ p => some p
  | .signalling _ p => some p
  | .signalFailed _ p => some p
  | .returning _ p => p
  | _ => none

/-- The sequence number a call carries, unless it dropped its event. -/
def number : Producer → Option Nat
  | .loadingPosition e => some e.sequence
  | .loadingSequence e _ => some e.sequence
  | .deciding e _ _ => some e.sequence
  | .copying e _ _ => some e.sequence
  | .waking e _ => some e.sequence
  | .signalling e _ => some e.sequence
  | .signalFailed e _ => some e.sequence
  | .returning e (some _) => some e.sequence
  | _ => none

end Producer

/-- Positions grow from call to call. -/
abbrev PositionOrder (s : RingState T) (h : List (RingEvent T)) : Prop :=
  Ordered Producer.position Publication.position (fun _ q => q) s h

/-- Sequence numbers grow from call to call. -/
abbrev NumberOrder (s : RingState T) (h : List (RingEvent T)) : Prop :=
  Ordered Producer.number (fun x => x.event.sequence) (fun e _ => e.sequence) s h

omit [DecidableEq T] in
theorem ordered_init {key : Producer → Option Nat} {val : Publication T → Nat}
    {result : TraceEvent → Nat → Nat} (s : RingState T) :
    Ordered key val result s [] := by
  refine ⟨?_, ?_⟩
  · intro u e₀ h₁ h₂ q heq
    exact absurd heq (by simp)
  · intro u e₀ h₁ h₂ h₃ e q heq
    exact absurd heq (by simp)

/-- Only a reservation gives a call a position, and it is the next one. -/
theorem position_move {s s' : RingState T} {a : RingAction T}
    (hs : ringStep s a = some s') (u : T) (q : Nat)
    (hq : (s'.producers u).position = some q) :
    (s.producers u).position = some q ∨ q = s.ring.enqueuePosition := by
  have move : ∀ {t p}, (∀ q, Producer.position p = some q →
        (s.producers t).position = some q ∨ q = s.ring.enqueuePosition) →
      ∀ u q, (Function.update s.producers t p u).position = some q →
        (s.producers u).position = some q ∨ q = s.ring.enqueuePosition := by
    intro t p hp
    refine forall_update (P := fun u p => ∀ q, p.position = some q →
      (s.producers u).position = some q ∨ q = s.ring.enqueuePosition) ?_ hp
    exact fun _ _ h => Or.inl h
  cases ringStep_cases hs with
  | call | count | loadPosition | loadSequence | drop | retry | ret =>
      exact move (by intro _ h; cases h) u q hq
  | reserve hp henq =>
      refine move (fun q h => Or.inr ?_) u q hq
      rw [henq]
      exact (Option.some.inj h).symm
  | copy hp | publish hp | wakeNot hp | wakeAgain hp | wakeFirst hp | signal hp
  | signalFail hp | unwake hp =>
      exact move (fun _ h => Or.inl (by rw [hp]; exact h)) u q hq
  | reject | readPosition | readNothing | readClaim | readCopy | release | deliver
  | clearWake | takeWake | configure => exact Or.inl hq

theorem positionOrder_step {s s' : RingState T} {a : RingAction T}
    {h : List (RingEvent T)} {dels : List TraceEvent}
    (hd : Delivery s (publications h) dels) (ho : PositionOrder s h)
    (hs : ringStep s a = some s') : PositionOrder s' (h ++ observe s a) := by
  refine ho.step ?_ ?_
  · intro u q hq
    rcases position_move hs u q hq with hold | hnew
    · exact Or.inl hold
    · exact Or.inr fun x hx => hnew ▸ hd.below x hx
  · rcases observe_call_return hs with hnil | ⟨v, hv, hcall, hret⟩
    · exact Or.inl hnil
    · refine Or.inr ⟨v, hv, ?_, ?_⟩
      · intro u e hu
        rw [hcall u e hu]
        rfl
      · intro u e q hu
        rw [hret u e (some q) hu]
        rfl

/-- A call that has published, or returned true, is in the history. -/
structure Outcomes (s : RingState T) (h : List (RingEvent T)) : Prop where
  outcome : ∀ t e p, (s.producers t).outcome = some (e, p) →
    ⟨t, p, e⟩ ∈ publications h
  returned : ∀ h₁ h₂, h = h₁ ++ h₂ → ∀ t e p, .returned t e (some p) ∈ h₁ →
    ⟨t, p, e⟩ ∈ publications h₁

theorem outcomes_step {s s' : RingState T} {a : RingAction T}
    {h : List (RingEvent T)} (hi : Outcomes s h)
    (hs : ringStep s a = some s') : Outcomes s' (h ++ observe s a) := by
  have hold : ∀ x ∈ publications h, x ∈ publications (h ++ observe s a) := by
    intro x hx
    rw [publications_append]
    exact List.mem_append_left _ hx
  have move : ∀ {t p}, (∀ e q, Producer.outcome p = some (e, q) →
        ⟨t, q, e⟩ ∈ publications (h ++ observe s a)) →
      ∀ u e q, (Function.update s.producers t p u).outcome = some (e, q) →
        ⟨u, q, e⟩ ∈ publications (h ++ observe s a) := by
    intro t p hp
    refine forall_update (P := fun u p => ∀ e q, p.outcome = some (e, q) →
      ⟨u, q, e⟩ ∈ publications (h ++ observe s a)) ?_ hp
    exact fun u e q hq => hold _ (hi.outcome u e q hq)
  refine ⟨?_, ?_⟩
  · cases ringStep_cases hs with
    | call | count | loadPosition | loadSequence | drop | reserve | retry | copy
    | ret => exact move fun _ _ hq => nomatch hq
    | @publish t e position hp =>
        refine move fun e' q hq => ?_
        cases hq
        have ho : observe s (.producer t) = [.published t position e] := by
          simp [observe, hp]
        rw [ho, mem_publications]
        exact List.mem_append_right _ (List.mem_singleton_self _)
    | @wakeNot t e position hp | @wakeAgain t e position hp
    | @wakeFirst t e position hp | @signal t e position hp
    | @signalFail t e position hp | @unwake t e position hp =>
        refine move fun e' q hq => hold _ (hi.outcome t e' q ?_)
        rw [hp]
        exact hq
    | reject | readPosition | readNothing | readClaim | readCopy | release
    | deliver | clearWake | takeWake | configure =>
        exact fun u e q hq => hold _ (hi.outcome u e q hq)
  · rcases observe_call_return hs with hnil | ⟨v, hv, -, hret⟩
    · rw [hnil, List.append_nil]
      exact hi.returned
    · intro h₁ h₂ heq t e p hmem
      -- the return is the last event, or it is in the history before the step
      rcases List.eq_nil_or_concat h₂ with hg | ⟨g, b, hg⟩
      · rw [hg, List.append_nil] at heq
        rw [← heq] at hmem ⊢
        rcases List.mem_append.mp hmem with hmem | hmem
        · exact hold _ (hi.returned h [] (List.append_nil h).symm t e p hmem)
        · rw [hv] at hmem
          have hp := hret t e (some p) (List.mem_singleton.mp hmem).symm
          refine hold _ (hi.outcome t e p ?_)
          rw [hp]
          rfl
      · rw [hg, hv, List.concat_eq_append, ← List.append_assoc] at heq
        exact hi.returned h₁ g (List.append_inj' heq rfl).1 t e p hmem

/-! ### What a call was given, and what it gives back -/

/-- The call gives up: it is to return false. -/
def Producer.gaveUp : Producer → Bool
  | .returning _ none => true
  | _ => false

/-- The event of a call that was given `e₀`: the same until it has its sequence
    number, and then the same but for that. -/
def Producer.Carries (e₀ : TraceEvent) : Producer → Prop
  | .counting e => e = e₀
  | p => ∀ e, p.event = some e → ∃ v : UInt32, e = e₀.setSequence v.toNat

/-- The last call of `t` was given `e₀`, and has shown a drop or not. -/
def LastCall (h : List (RingEvent T)) (t : T) (e₀ : TraceEvent) (dropped : Bool) : Prop :=
  ∃ g₁ g₂, h = g₁ ++ .called t e₀ :: g₂ ∧ (∀ e, .called t e ∉ g₂) ∧
    (.dropped t ∈ g₂ ↔ dropped = true)

omit [DecidableEq T] in
theorem lastCall_called (h : List (RingEvent T)) (t : T) (e : TraceEvent) :
    LastCall (h ++ [.called t e]) t e false :=
  ⟨h, [], rfl, by simp, by simp⟩

omit [DecidableEq T] in
/-- Nothing new of the call. -/
theorem LastCall.append {h o : List (RingEvent T)} {t : T} {e₀ : TraceEvent}
    {dropped : Bool} (hl : LastCall h t e₀ dropped) (hcall : ∀ e, .called t e ∉ o)
    (hdrop : .dropped t ∉ o) : LastCall (h ++ o) t e₀ dropped := by
  obtain ⟨g₁, g₂, heq, hno, hiff⟩ := hl
  refine ⟨g₁, g₂ ++ o, ?_, ?_, ?_⟩
  · rw [heq, List.append_assoc, List.cons_append]
  · intro e hmem
    rcases List.mem_append.mp hmem with hmem | hmem
    · exact hno e hmem
    · exact hcall e hmem
  · rw [List.mem_append, or_iff_left hdrop]
    exact hiff

omit [DecidableEq T] in
/-- The call drops its event. -/
theorem LastCall.drop {h : List (RingEvent T)} {t : T} {e₀ : TraceEvent} {dropped : Bool}
    (hl : LastCall h t e₀ dropped) : LastCall (h ++ [.dropped t]) t e₀ true := by
  obtain ⟨g₁, g₂, heq, hno, -⟩ := hl
  refine ⟨g₁, g₂ ++ [.dropped t], ?_, ?_, by simp⟩
  · rw [heq, List.append_assoc, List.cons_append]
  · intro e hmem
    rcases List.mem_append.mp hmem with hmem | hmem
    · exact hno e hmem
    · cases List.mem_singleton.mp hmem

/-- What the history shows of calls: what each was given, what it has published
    and whether it has dropped its event when it returns. -/
structure Calls (s : RingState T) (h : List (RingEvent T)) : Prop where
  current : ∀ t, s.producers t ≠ .idle →
    ∃ e₀, LastCall h t e₀ (s.producers t).gaveUp ∧ (s.producers t).Carries e₀
  published : ∀ h₁ h₂ t p e, h = h₁ ++ .published t p e :: h₂ →
    ∃ e₀, LastCall h₁ t e₀ false ∧ ∃ v : UInt32, e = e₀.setSequence v.toNat
  returned : ∀ h₁ h₂ t e p, h = h₁ ++ .returned t e p :: h₂ →
    ∃ e₀, LastCall h₁ t e₀ p.isNone

/-- One thread moves, and shows something of itself only. -/
theorem Calls.move {s : RingState T} {h o : List (RingEvent T)} (hc : Calls s h) {t : T}
    {p : Producer} (hcall : ∀ u e, u ≠ t → .called u e ∉ o)
    (hdrop : ∀ u, u ≠ t → .dropped u ∉ o)
    (hself : p ≠ .idle → ∃ e₀, LastCall (h ++ o) t e₀ p.gaveUp ∧ p.Carries e₀) (u : T)
    (hu : Function.update s.producers t p u ≠ .idle) :
    ∃ e₀, LastCall (h ++ o) u e₀ (Function.update s.producers t p u).gaveUp ∧
      (Function.update s.producers t p u).Carries e₀ := by
  by_cases hut : u = t
  · subst hut
    rw [Function.update_self] at hu ⊢
    exact hself hu
  · rw [Function.update_of_ne hut] at hu ⊢
    obtain ⟨e₀, hlast, hcarries⟩ := hc.current u hu
    exact ⟨e₀, hlast.append (fun e => hcall u e hut) (hdrop u hut), hcarries⟩

omit [DecidableEq T] in
/-- **CALL RULE**: what the step shows of a publication or a return is what its
    thread's call is about. -/
theorem Calls.step {s s' : RingState T} {h o : List (RingEvent T)} (hc : Calls s h)
    (hcurrent : ∀ t, s'.producers t ≠ .idle →
      ∃ e₀, LastCall (h ++ o) t e₀ (s'.producers t).gaveUp ∧ (s'.producers t).Carries e₀)
    (ho : o = [] ∨ ∃ v, o = [v] ∧
      (∀ t p e, v = .published t p e →
        ∃ e₀, LastCall h t e₀ false ∧ ∃ n : UInt32, e = e₀.setSequence n.toNat) ∧
      (∀ t e p, v = .returned t e p → ∃ e₀, LastCall h t e₀ p.isNone)) :
    Calls s' (h ++ o) := by
  rcases ho with ho | ⟨v, ho, hpub, hret⟩
  · refine ⟨hcurrent, ?_, ?_⟩
    · rw [ho, List.append_nil]
      exact hc.published
    · rw [ho, List.append_nil]
      exact hc.returned
  · refine ⟨hcurrent, ?_, ?_⟩
    · rw [ho]
      intro h₁ h₂ t p e heq
      rcases snoc_split heq with ⟨-, hh, hv⟩ | ⟨g, -, hh⟩
      · rw [hh]
        exact hpub t p e hv.symm
      · exact hc.published h₁ g t p e hh
    · rw [ho]
      intro h₁ h₂ t e p heq
      rcases snoc_split heq with ⟨-, hh, hv⟩ | ⟨g, -, hh⟩
      · rw [hh]
        exact hret t e p hv.symm
      · exact hc.returned h₁ g t e p hh

/-- An event that neither starts nor ends a call, and is none of its outcomes. -/
def RingEvent.plain : RingEvent T → Bool
  | .called _ _ => false
  | .dropped _ => false
  | .published _ _ _ => false
  | .returned _ _ _ => false
  | _ => true

/-- A step that shows at most such an event. -/
theorem Calls.plain {s s' : RingState T} {h o : List (RingEvent T)} (hc : Calls s h)
    (ho : o = [] ∨ ∃ v, o = [v] ∧ v.plain = true)
    (hmove : s'.producers = s.producers ∨ ∃ t p, s'.producers = Function.update s.producers t p ∧
      s.producers t ≠ .idle ∧ p.gaveUp = (s.producers t).gaveUp ∧
      ∀ e₀, (s.producers t).Carries e₀ → p.Carries e₀) : Calls s' (h ++ o) := by
  have hplain : ∀ v ∈ o, v.plain = true := by
    intro v hv
    rcases ho with rfl | ⟨w, rfl, hw⟩
    · cases hv
    · rwa [List.mem_singleton.mp hv]
  have hcall : ∀ u e, .called u e ∉ o := fun u e hmem => nomatch hplain _ hmem
  have hdrop : ∀ u, .dropped u ∉ o := fun u hmem => nomatch hplain _ hmem
  have hlater : ∀ t, s.producers t ≠ .idle →
      ∃ e₀, LastCall (h ++ o) t e₀ (s.producers t).gaveUp ∧ (s.producers t).Carries e₀ := by
    intro t ht
    obtain ⟨e₀, hlast, hcarries⟩ := hc.current t ht
    exact ⟨e₀, hlast.append (hcall t) (hdrop t), hcarries⟩
  refine hc.step ?_ (ho.imp_right ?_)
  · rcases hmove with hsame | ⟨t, p, hmoved, hbusy, hgave, hcarries⟩
    · rw [hsame]
      exact hlater
    · rw [hmoved]
      refine hc.move (fun u e _ => hcall u e) (fun u _ => hdrop u) fun _ => ?_
      obtain ⟨e₀, hlast, hold⟩ := hlater t hbusy
      exact ⟨e₀, hgave ▸ hlast, hcarries e₀ hold⟩
  · rintro ⟨v, rfl, hv⟩
    refine ⟨v, rfl, ?_, ?_⟩
    · rintro t p e rfl
      cases hv
    · rintro t e p rfl
      cases hv

theorem calls_step {s s' : RingState T} {a : RingAction T} {h : List (RingEvent T)}
    (hc : Calls s h) (hs : ringStep s a = some s') : Calls s' (h ++ observe s a) := by
  have silent : observe s a = [] → s'.producers = s.producers →
      Calls s' (h ++ observe s a) := by
    intro ho hsame
    rw [ho]
    exact hc.plain (Or.inl rfl) (Or.inl hsame)
  have shown : ∀ v, observe s a = [v] → v.plain = true → s'.producers = s.producers →
      Calls s' (h ++ observe s a) := by
    intro v ho hv hsame
    rw [ho]
    exact hc.plain (Or.inr ⟨v, rfl, hv⟩) (Or.inl hsame)
  -- a thread goes on in its call, with the event that it has
  have goes : ∀ {t : T} {p q : Producer}, s.producers t = p →
      (observe s a = [] ∨ ∃ v, observe s a = [v] ∧ v.plain = true) →
      s'.producers = Function.update s.producers t q → p ≠ .idle → q.gaveUp = p.gaveUp →
      (∀ e₀, p.Carries e₀ → q.Carries e₀) → Calls s' (h ++ observe s a) := by
    rintro t p q rfl ho hmoved hbusy hgave hcarries
    exact hc.plain ho (Or.inr ⟨t, q, hmoved, hbusy, hgave, hcarries⟩)
  cases ringStep_cases hs with
  | reject hp hno => exact silent (by simp [observe, hp, hno]) rfl
  | @call t e hp hok =>
      have ho : observe s (.emit t e) = [.called t e] := by simp [observe, hp, hok]
      rw [ho]
      refine hc.step (hc.move ?_ (by simp) fun _ => ⟨e, lastCall_called h t e, rfl⟩)
        (Or.inr ⟨_, rfl, by simp, by simp⟩)
      rintro u e' hne hmem
      cases List.mem_singleton.mp hmem
      exact hne rfl
  | @count t e hp =>
      refine goes hp (Or.inr ⟨.sequenced t, by simp [observe, hp], rfl⟩) rfl (by simp) rfl ?_
      intro e₀ heq e' he'
      have heq : e = e₀ := heq
      cases he'
      exact ⟨_, by rw [heq]⟩
  | @drop t e position sequence hp hlt =>
      have ho : observe s (.producer t) = [.dropped t] := by simp [observe, hp, hlt]
      rw [ho]
      refine hc.step (hc.move (by simp) ?_ fun _ => ?_) (Or.inr ⟨_, rfl, by simp, by simp⟩)
      · rintro u hne hmem
        cases List.mem_singleton.mp hmem
        exact hne rfl
      · obtain ⟨e₀, hlast, hcarries⟩ := hc.current t (by rw [hp]; simp)
        rw [hp] at hcarries
        exact ⟨e₀, hlast.drop, hcarries⟩
  | @publish t e position hp =>
      have ho : observe s (.producer t) = [.published t position e] := by simp [observe, hp]
      obtain ⟨e₀, hlast, hcarries⟩ := hc.current t (by rw [hp]; simp)
      rw [hp] at hlast hcarries
      rw [ho]
      refine hc.step (hc.move (by simp) (by simp) fun _ =>
        ⟨e₀, hlast.append (by simp) (by simp), hcarries⟩) (Or.inr ⟨_, rfl, ?_, by simp⟩)
      intro t' p' e' heq
      cases heq
      exact ⟨e₀, hlast, hcarries e rfl⟩
  | @ret t e position hp =>
      have ho : observe s (.producer t) = [.returned t e position] := by simp [observe, hp]
      obtain ⟨e₀, hlast, -⟩ := hc.current t (by rw [hp]; simp)
      rw [hp] at hlast
      rw [ho]
      refine hc.step (hc.move (by simp) (by simp) fun hne => absurd rfl hne)
        (Or.inr ⟨_, rfl, by simp, ?_⟩)
      intro t' e' p' heq
      cases heq
      refine ⟨e₀, ?_⟩
      cases position with
      | none => exact hlast
      | some q => exact hlast
  | loadPosition hp | wakeNot hp | wakeAgain hp | wakeFirst hp | unwake hp =>
      exact goes hp (Or.inl (by simp [observe, hp])) rfl (by simp) rfl fun _ h => h
  | @retry t e position sequence hp hge hne =>
      have hlt : ¬ sequence < position := by omega
      exact goes hp (Or.inl (by simp [observe, hp, hlt, hne])) rfl (by simp) rfl fun _ h => h
  | copy hp | signal hp | signalFail hp =>
      exact goes hp (Or.inl rfl) rfl (by simp) rfl fun _ h => h
  | @loadSequence t e position hp =>
      exact goes hp (Or.inr ⟨.loaded t position (s.seqAt position), by simp [observe, hp], rfl⟩)
        rfl (by simp) rfl fun _ h => h
  | @reserve t e position hp henq =>
      exact goes hp (Or.inr ⟨.reserved t position, by simp [observe, hp, henq], rfl⟩) rfl
        (by simp) rfl fun _ h => h
  | readPosition hc' | readNothing hc' | readClaim hc' =>
      exact silent (by simp [observe, hc']) rfl
  | readCopy | clearWake | takeWake | configure => exact silent rfl rfl
  | @release position e hc' =>
      exact shown (.released position) (by simp [observe, hc']) rfl rfl
  | @deliver position e hc' => exact shown (.delivered e) (by simp [observe, hc']) rfl rfl

/-! ### Sequence numbers -/

/-- After `n` increments that did not wrap: the numbers in flight and
    published are distinct and at most `n`. -/
structure Numbered (s : RingState T) (n : Nat) (pubs : List (Publication T)) :
    Prop where
  counter : s.ring.eventSequence.toNat = n
  held : ∀ t e, (s.producers t).unpublished = some e → e.sequence ≤ n
  known : ∀ x ∈ pubs, x.event.sequence ≤ n
  apart : ∀ t u e e', t ≠ u → (s.producers t).unpublished = some e →
    (s.producers u).unpublished = some e' → e.sequence ≠ e'.sequence
  fresh : ∀ t e, (s.producers t).unpublished = some e →
    ∀ x ∈ pubs, x.event.sequence ≠ e.sequence
  distinct : (pubs.map fun x => x.event.sequence).Nodup

omit [DecidableEq T] in
theorem Numbered.quiet {s s' : RingState T} {n : Nat} {pubs : List (Publication T)}
    (h : Numbered s n pubs)
    (hcount : s'.ring.eventSequence = s.ring.eventSequence)
    (hmove : ∀ t e, (s'.producers t).unpublished = some e →
      (s.producers t).unpublished = some e) : Numbered s' n pubs := by
  refine ⟨hcount ▸ h.counter, ?_, h.known, ?_, ?_, h.distinct⟩
  · exact fun t e he => h.held t e (hmove t e he)
  · exact fun t u e e' hne he he' =>
      h.apart t u e e' hne (hmove t e he) (hmove u e' he')
  · exact fun t e he => h.fresh t e (hmove t e he)

theorem numbered_count {s : RingState T} {n : Nat} {pubs : List (Publication T)}
    (h : Numbered s n pubs) (hn : n + 1 < 2 ^ 32) {t : T} {e : TraceEvent} :
    Numbered { s.setProducer t (.loadingPosition
        (e.setSequence (s.ring.eventSequence + 1).toNat)) with
      ring := { s.ring with eventSequence := s.ring.eventSequence + 1 } }
      (n + 1) pubs := by
  have hcount := h.counter
  have hval : (s.ring.eventSequence + 1).toNat = n + 1 := by
    rw [UInt32.toNat_add, hcount]
    exact Nat.mod_eq_of_lt hn
  have hnew : (e.setSequence (s.ring.eventSequence + 1).toNat).sequence = n + 1 := by
    rw [sequence_setSequence, hval]
  have hof : ∀ u e', (Function.update s.producers t (.loadingPosition
        (e.setSequence (s.ring.eventSequence + 1).toNat)) u).unpublished = some e' →
      (u = t ∧ e'.sequence = n + 1) ∨
        (u ≠ t ∧ (s.producers u).unpublished = some e' ∧ e'.sequence ≤ n) := by
    intro u e' he
    by_cases hu : u = t
    · rw [hu, Function.update_self] at he
      cases he
      exact Or.inl ⟨hu, hnew⟩
    · rw [Function.update_of_ne hu] at he
      exact Or.inr ⟨hu, he, h.held u e' he⟩
  refine ⟨hval, ?_, ?_, ?_, ?_, h.distinct⟩
  · intro u e' he
    rcases hof u e' he with ⟨-, h1⟩ | ⟨-, -, h1⟩ <;> omega
  · intro x hx
    have := h.known x hx
    omega
  · intro u v e₁ e₂ hne he₁ he₂
    rcases hof u e₁ he₁ with ⟨hu, h1⟩ | ⟨-, hu, h1⟩ <;>
      rcases hof v e₂ he₂ with ⟨hv, h2⟩ | ⟨-, hv, h2⟩
    · exact absurd (hu.trans hv.symm) hne
    · omega
    · omega
    · exact h.apart u v e₁ e₂ hne hu hv
  · intro u e' he x hx
    have hle := h.known x hx
    rcases hof u e' he with ⟨-, h1⟩ | ⟨-, hu, -⟩
    · omega
    · exact h.fresh u e' hu x hx

theorem numbered_publish {s : RingState T} {n : Nat} {pubs : List (Publication T)}
    (h : Numbered s n pubs) {t : T} {e : TraceEvent} {p : Nat} {todo : List Nat}
    (hp : s.producers t = .copying e p todo) :
    Numbered { s.setProducer t (.waking e p) with
      ring := s.ring.setSlotSequence p (p + 1) } n (pubs ++ [⟨t, p, e⟩]) := by
  have hun : (s.producers t).unpublished = some e := by rw [hp]; rfl
  have hof : ∀ u e', (Function.update s.producers t (.waking e p) u).unpublished
      = some e' → u ≠ t ∧ (s.producers u).unpublished = some e' := by
    intro u e' he
    by_cases hu : u = t
    · rw [hu, Function.update_self] at he
      cases he
    · rw [Function.update_of_ne hu] at he
      exact ⟨hu, he⟩
  refine ⟨h.counter, ?_, ?_, ?_, ?_, ?_⟩
  · exact fun u e' he => h.held u e' (hof u e' he).2
  · intro x hx
    rcases List.mem_append.mp hx with hx | hx
    · exact h.known x hx
    · rw [List.mem_singleton.mp hx]
      exact h.held t e hun
  · exact fun u v e₁ e₂ hne he₁ he₂ =>
      h.apart u v e₁ e₂ hne (hof u e₁ he₁).2 (hof v e₂ he₂).2
  · intro u e' he x hx
    obtain ⟨hu, he⟩ := hof u e' he
    rcases List.mem_append.mp hx with hx | hx
    · exact h.fresh u e' he x hx
    · rw [List.mem_singleton.mp hx]
      exact h.apart t u e e' (Ne.symm hu) hun he
  · rw [List.map_append, List.map_singleton]
    refine List.nodup_append.mpr ⟨h.distinct, by simp, ?_⟩
    intro v hv w hw hvw
    obtain ⟨x, hx, hxv⟩ := List.mem_map.mp hv
    rw [hvw, List.mem_singleton.mp hw] at hxv
    exact h.fresh t e hun x hx hxv

/-- One step keeps the numbers distinct, as long as the counter has not
    wrapped. -/
theorem numbered_step {s s' : RingState T} {a : RingAction T}
    {h : List (RingEvent T)} (hn : emits (h ++ observe s a) < 2 ^ 32)
    (hi : Numbered s (emits h) (publications h)) (hs : ringStep s a = some s') :
    Numbered s' (emits (h ++ observe s a)) (publications (h ++ observe s a)) := by
  have silent : ∀ {o}, observe s a = o → publications o = [] → emits o = 0 →
      Numbered s' (emits h) (publications h) →
      Numbered s' (emits (h ++ observe s a)) (publications (h ++ observe s a)) := by
    intro o ho hp he
    rw [ho, publications_append, emits_append, hp, he, List.append_nil]
    exact id
  -- only the stepping thread may change the event it holds
  have move : ∀ {t p}, (∀ e, Producer.unpublished p = some e →
        (s.producers t).unpublished = some e) →
      ∀ u e, (Function.update s.producers t p u).unpublished = some e →
        (s.producers u).unpublished = some e := by
    intro t p hp
    refine forall_update (P := fun u p => ∀ e, p.unpublished = some e →
      (s.producers u).unpublished = some e) ?_ hp
    exact fun _ _ he => he
  cases ringStep_cases hs with
  | reject hp hno => exact silent (by simp [observe, hp, hno]; rfl) rfl rfl hi
  | call hp hok =>
      exact silent (by simp [observe, hp, hok]; rfl) rfl rfl
        (hi.quiet rfl (move fun _ he => nomatch he))
  | @count t e hp =>
      have ho : observe s (.producer t) = [.sequenced t] := by simp [observe, hp]
      rw [ho, emits_append] at hn
      rw [ho, emits_append, publications_append]
      show Numbered _ (emits h + 1) (publications h ++ [])
      rw [List.append_nil]
      exact numbered_count hi hn
  | loadPosition hp | loadSequence hp =>
      exact silent (by simp [observe, hp]; rfl) rfl rfl
        (hi.quiet rfl (move fun _ he => by rw [hp]; exact he))
  | drop hp hlt =>
      exact silent (by simp [observe, hp, hlt]; rfl) rfl rfl
        (hi.quiet rfl (move fun _ he => nomatch he))
  | reserve hp henq =>
      exact silent (by simp [observe, hp, henq]; rfl) rfl rfl
        (hi.quiet rfl (move fun _ he => by rw [hp]; exact he))
  | @retry t e position sequence hp hge hne =>
      have hlt : ¬ sequence < position := by omega
      exact silent (by simp [observe, hp, hlt, hne]; rfl) rfl rfl
        (hi.quiet rfl (move fun _ he => by rw [hp]; exact he))
  | copy hp =>
      exact silent rfl rfl rfl
        (hi.quiet rfl (move fun _ he => by rw [hp]; exact he))
  | @publish t e position hp =>
      have ho : observe s (.producer t) = [.published t position e] := by
        simp [observe, hp]
      rw [ho, emits_append, publications_append]
      exact numbered_publish hi hp
  | wakeNot hp | wakeAgain hp | wakeFirst hp | signal hp | signalFail hp
  | unwake hp | ret hp =>
      exact silent (by simp [observe, hp]; rfl) rfl rfl
        (hi.quiet rfl (move fun _ he => nomatch he))
  | readPosition hc | readNothing hc | readClaim hc | release hc | deliver hc =>
      exact silent (by simp [observe, hc]; rfl) rfl rfl
        (hi.quiet rfl fun _ _ he => he)
  | readCopy | clearWake | takeWake | configure =>
      exact silent rfl rfl rfl (hi.quiet rfl fun _ _ he => he)

/-- Only the increment gives a call a number, and it is the next one. -/
theorem number_move {s s' : RingState T} {a : RingAction T}
    (hs : ringStep s a = some s') (u : T) (q : Nat)
    (hq : (s'.producers u).number = some q) :
    (s.producers u).number = some q ∨
      (observe s a = [.sequenced u] ∧ q = s'.ring.eventSequence.toNat) := by
  have move : ∀ {t p}, (∀ q, Producer.number p = some q →
        (s.producers t).number = some q) →
      ∀ u q, (Function.update s.producers t p u).number = some q →
        (s.producers u).number = some q := by
    intro t p hp
    refine forall_update (P := fun u p => ∀ q, p.number = some q →
      (s.producers u).number = some q) ?_ hp
    exact fun _ _ he => he
  cases ringStep_cases hs with
  | call | drop | ret =>
      exact Or.inl (move (by intro _ h; cases h) u q hq)
  | @count t e hp =>
      by_cases hu : u = t
      · refine Or.inr ⟨by simp [observe, hp, hu], ?_⟩
        have hq : (Function.update s.producers t (.loadingPosition
            (e.setSequence (s.ring.eventSequence + 1).toNat)) u).number = some q := hq
        rw [hu, Function.update_self] at hq
        rw [← Option.some.inj hq]
        exact sequence_setSequence e _
      · refine Or.inl ?_
        have hq : (Function.update s.producers t (.loadingPosition
            (e.setSequence (s.ring.eventSequence + 1).toNat)) u).number = some q := hq
        rwa [Function.update_of_ne hu] at hq
  | loadPosition hp | loadSequence hp | reserve hp | retry hp | copy hp | publish hp
  | wakeNot hp | wakeAgain hp | wakeFirst hp | signal hp | signalFail hp
  | unwake hp =>
      exact Or.inl (move (fun _ h => by rw [hp]; exact h) u q hq)
  | reject | readPosition | readNothing | readClaim | readCopy | release | deliver
  | clearWake | takeWake | configure => exact Or.inl hq

theorem numberOrder_step {s s' : RingState T} {a : RingAction T}
    {h : List (RingEvent T)} (hn : emits (h ++ observe s a) < 2 ^ 32)
    (hi : Numbered s (emits h) (publications h)) (ho : NumberOrder s h)
    (hs : ringStep s a = some s') : NumberOrder s' (h ++ observe s a) := by
  have hnew := (numbered_step hn hi hs).counter
  refine ho.step ?_ ?_
  · intro u q hq
    rcases number_move hs u q hq with hold | ⟨hobs, hval⟩
    · exact Or.inl hold
    · refine Or.inr fun x hx => ?_
      have hle := hi.known x hx
      have hgrow : emits (h ++ observe s a) = emits h + 1 := by
        rw [hobs, emits_append]
        rfl
      show x.event.sequence < q
      omega
  · rcases observe_call_return hs with hnil | ⟨v, hv, hcall, hret⟩
    · exact Or.inl hnil
    · refine Or.inr ⟨v, hv, ?_, ?_⟩
      · intro u e hu
        rw [hcall u e hu]
        rfl
      · intro u e q hu
        rw [hret u e (some q) hu]
        rfl

/-! ## Ring safety -/

/-- Everything the history and the ring have in common. -/
structure RingHistory (s : RingState T) (h : List (RingEvent T)) : Prop where
  sizes : SizesOk s
  delivery : Delivery s (publications h) (deliveries h)
  outcomes : Outcomes s h
  calls : Calls s h
  positions : PositionOrder s h
  numbers : emits h < 2 ^ 32 →
    Numbered s (emits h) (publications h) ∧ NumberOrder s h

omit [DecidableEq T] in
theorem ringHistory_init {s : RingState T} (h : RingInit s) : RingHistory s [] := by
  have hidle := h.2.1
  refine ⟨?_, delivery_init h, ⟨?_, ?_⟩, ⟨?_, ?_, ?_⟩, ordered_init s,
    fun _ => ⟨?_, ordered_init s⟩⟩
  · intro t e he
    rw [hidle t] at he
    cases he
  · intro t e p he
    rw [hidle t] at he
    cases he
  · intro h₁ h₂ heq t e p hmem
    rw [(List.append_eq_nil_iff.mp heq.symm).1] at hmem
    cases hmem
  · exact fun t ht => absurd (hidle t) ht
  · intro h₁ h₂ t p e heq
    exact absurd heq (by simp)
  · intro h₁ h₂ t e p heq
    exact absurd heq (by simp)
  · refine ⟨by rw [h.1]; rfl, ?_, by simp [publications], ?_, ?_, List.nodup_nil⟩
    · intro t e he
      rw [hidle t] at he
      cases he
    · intro t u e e' _ he
      rw [hidle t] at he
      cases he
    · intro t e he
      rw [hidle t] at he
      cases he

theorem ringHistory_step {s s' : RingState T} {a : RingAction T}
    {h : List (RingEvent T)} (hi : RingInv s) (hh : RingHistory s h)
    (hs : ringStep s a = some s') : RingHistory s' (h ++ observe s a) := by
  refine ⟨sizesOk_step hh.sizes hs, delivery_step hi hh.sizes hh.delivery hs,
    outcomes_step hh.outcomes hs, calls_step hh.calls hs,
    positionOrder_step hh.delivery hh.positions hs,
    fun hn => ?_⟩
  have hlt : emits h < 2 ^ 32 := by
    rw [emits_append] at hn
    omega
  obtain ⟨h1, h2⟩ := hh.numbers hlt
  exact ⟨numbered_step hn h1 hs, numberOrder_step hn h1 h2 hs⟩

/-- The history invariant holds along every run. -/
theorem ringHistory_reachable {p : RingState T × List (RingEvent T)}
    (h : Reachable (tracedRing T) p) : RingInv p.1 ∧ RingHistory p.1 p.2 := by
  refine ⟨ringInv_reachable h.untraced, ?_⟩
  exact h.traced_invariant (P := RingHistory) (fun _ hr => ringInv_reachable hr)
    (fun _ => ringHistory_init)
    fun _ _ _ _ hi hh hs => ringHistory_step hi hh hs

/-- `d` is the event that `TryReadRing` returns in its `k`-th successful call. -/
def DeliveredAt (h : List (RingEvent T)) (k : Nat) (d : TraceEvent) : Prop :=
  (deliveries h)[k]? = some d

/-- The call of `t` that published `e` at `p` returned true before the call
    of `u` that published `e'` at `q`, and returned true as well, started. -/
def FinishedBefore (h : List (RingEvent T)) (t : T) (e : TraceEvent) (p : Nat)
    (u : T) (e' : TraceEvent) (q : Nat) : Prop :=
  ∃ e₀ h₁ h₂ h₃, h = h₁ ++ .called u e₀ :: (h₂ ++ .returned u e' (some q) :: h₃) ∧
    (∀ x, .called u x ∉ h₂) ∧ .returned t e (some p) ∈ h₁

/-- What the ring guarantees in a state reached with a history. -/
structure RingSafe (s : RingState T) (h : List (RingEvent T)) : Prop where
  /-- Nobody fills the slot the reader is copying. -/
  apart : ∀ t e p todo q d todo', s.producers t = .copying e p todo →
    s.consumer = .copying q d todo' → slotIndex p ≠ slotIndex q
  /-- One publication a position. -/
  once : ((publications h).map Publication.position).Nodup
  /-- The `k`-th delivered event is the one published at position `k`. -/
  inOrder : ∀ k d, DeliveredAt h k d →
    ∃ t e, .published t k e ∈ h ∧ Copied d e
  /-- A published event is the one that its thread's call was given, with its
      sequence number set. -/
  emitted : ∀ h₁ h₂ t p e, h = h₁ ++ .published t p e :: h₂ →
    ∃ e₀, LastCall h₁ t e₀ false ∧ ∃ v : UInt32, e = e₀.setSequence v.toNat
  /-- A published event is delivered, in the reader's hands or in its slot. -/
  notLost : ∀ t p e, .published t p e ∈ h →
    (∃ d, DeliveredAt h p d ∧ Copied d e) ∨
      (∃ d, s.consumer = .storing p d ∧ Copied d e) ∨
      (s.seqAt p = p + 1 ∧ Copied (s.eventAt p) e)
  /-- Calls that do not overlap are published and delivered in their order. -/
  calls : ∀ t e p u e' q, FinishedBefore h t e p u e' q →
    p < q ∧ .published t p e ∈ h ∧ .published u q e' ∈ h ∧
      ∀ d', DeliveredAt h q d' →
        Copied d' e' ∧ ∃ d, DeliveredAt h p d ∧ Copied d e
  /-- Until the counter wraps, numbers grow along that order and differ. -/
  numbers : emits h < 2 ^ 32 →
    (∀ t e p u e' q, FinishedBefore h t e p u e' q → e.sequence < e'.sequence) ∧
      (deliveries h).Pairwise fun d d' => d.sequence ≠ d'.sequence

omit [DecidableEq T] in
/-- Two publications at one position are the same. -/
theorem Delivery.eq_of_position {s : RingState T} {pubs : List (Publication T)}
    {dels : List TraceEvent} (h : Delivery s pubs dels) {x y : Publication T}
    (hx : x ∈ pubs) (hy : y ∈ pubs) (heq : x.position = y.position) : x = y :=
  List.inj_on_of_nodup_map h.once hx hy heq

omit [DecidableEq T] in
/-- What is delivered at the position of a publication is a copy of it. -/
theorem Delivery.copied {s : RingState T} {pubs : List (Publication T)}
    {dels : List TraceEvent} (h : Delivery s pubs dels) {x : Publication T}
    (hx : x ∈ pubs) {d : TraceEvent} (hd : dels[x.position]? = some d) :
    Copied d x.event := by
  obtain ⟨y, hy, hyx, hyd⟩ := h.inOrder _ d hd
  rwa [h.eq_of_position hy hx hyx] at hyd

omit [DecidableEq T] in
/-- Delivered numbers differ because published ones do. -/
theorem deliveries_pairwise {s : RingState T} {n : Nat} {pubs : List (Publication T)}
    {dels : List TraceEvent} (hd : Delivery s pubs dels) (hn : Numbered s n pubs) :
    dels.Pairwise fun d d' => d.sequence ≠ d'.sequence := by
  refine List.pairwise_iff_getElem.mpr ?_
  intro i j hi hj hij heq
  obtain ⟨x, hx, hxi, hxd⟩ := hd.inOrder i _ (List.getElem?_eq_getElem hi)
  obtain ⟨y, hy, hyj, hyd⟩ := hd.inOrder j _ (List.getElem?_eq_getElem hj)
  rw [hxd.sequence_eq (hd.sized x hx), hyd.sequence_eq (hd.sized y hy)] at heq
  have hxy : x = y := List.inj_on_of_nodup_map hn.distinct hx hy heq
  rw [hxy, hyj] at hxi
  omega

/-- **RING SAFETY**: in every state that any interleaving of producers and
    reader reaches, with the history that led there. -/
theorem ring_safe {p : RingState T × List (RingEvent T)}
    (h : Reachable (tracedRing T) p) : RingSafe p.1 p.2 := by
  obtain ⟨hi, hh⟩ := ringHistory_reachable h
  have hd := hh.delivery
  refine ⟨?_, hd.once, ?_, hh.calls.published, ?_, ?_, ?_⟩
  · intro t e p' todo q d todo' hp hc
    obtain ⟨h1, h2, h3⟩ := hi.of_filling (t := t) (p := p') (by rw [hp]; rfl)
    obtain ⟨h4, -, h5, h6⟩ := hi.of_reading hc
    have hroom := hi.room
    intro hidx
    have hpq : p' = q :=
      slotIndex_window h1 (by omega) (by omega) (by omega) hidx
    rw [hpq] at h3
    omega
  · intro k d hk
    obtain ⟨⟨t, k', e⟩, hx, hxk, hxd⟩ := hd.inOrder k d hk
    have hxk : k' = k := hxk
    exact ⟨t, e, mem_publications.mp (hxk ▸ hx), hxd⟩
  · intro t q e hpub
    have hx := mem_publications.mpr hpub
    by_cases hdel : q < (deliveries p.2).length
    · have hk := List.getElem?_eq_getElem hdel
      exact Or.inl ⟨_, hk, hd.copied hx hk⟩
    · by_cases hrel : p.1.released ≤ q
      · exact Or.inr (Or.inr (hd.pending _ hx hrel))
      · -- released but not yet returned: the reader holds it
        have hcount := hd.count
        have hc := hi.consumer
        rw [RingState.released] at hrel
        cases hcs : p.1.consumer with
        | storing q' d =>
            rw [hcs] at hrel hc
            have hdeq : q' = p.1.ring.dequeuePosition := hc
            have hqq : q = q' := by
              have hrel : ¬ q' + 1 ≤ q := hrel
              omega
            obtain ⟨y, hy, hyk, hyd⟩ := hd.storing q' d hcs
            have hxy := hd.eq_of_position hx hy (hqq.trans hyk.symm)
            rw [← hxy] at hyd
            exact Or.inr (Or.inl ⟨d, by rw [hqq], hyd⟩)
        | idle | loadingSequence | copying =>
            rw [hcs] at hrel
            have hrel : ¬ p.1.ring.dequeuePosition ≤ q := hrel
            omega
  · rintro t e p' u e' q hbefore
    obtain ⟨e₀, h₁, h₂, h₃, heq, hno, hret⟩ := id hbefore
    have hx := hh.outcomes.returned h₁ _ heq t e p' hret
    have hy := hh.outcomes.returned p.2 [] (List.append_nil _).symm u e' q
      (by rw [heq]; simp)
    have hx' : ⟨t, p', e⟩ ∈ publications p.2 := by
      rw [heq, publications_append]
      exact List.mem_append_left _ hx
    have hlt : p' < q := hh.positions.order u e₀ h₁ h₂ h₃ e' q heq hno _ hx
    refine ⟨hlt, mem_publications.mp hx', mem_publications.mp hy, ?_⟩
    intro d' hd'
    have hlen : q < (deliveries p.2).length := (List.getElem?_eq_some_iff.mp hd').1
    have hfirst := List.getElem?_eq_getElem (show p' < (deliveries p.2).length by omega)
    exact ⟨hd.copied hy hd', _, hfirst, hd.copied hx' hfirst⟩
  · intro hn
    obtain ⟨hnum, hord⟩ := hh.numbers hn
    refine ⟨?_, deliveries_pairwise hd hnum⟩
    rintro t e p' u e' q ⟨e₀, h₁, h₂, h₃, heq, hno, hret⟩
    have hx := hh.outcomes.returned h₁ _ heq t e p' hret
    exact hord.order u e₀ h₁ h₂ h₃ e' q heq hno _ hx

/-! ## A run -/

/-- The thread calls, and gets up to the exchange that publishes. -/
def fillSlot (t : Bool) : List (RingAction Bool) :=
  List.flatten [[.emit t headerOnly], List.replicate 4 (.producer t),
    (List.range sizeofEventHeader).map (.copyByte t)]

/-- Two threads publish one after the other, and the first event is read while
    the second thread reserves again. -/
def twoEvents : List (RingAction Bool) :=
  List.flatten [fillSlot true,
    [.producer true, .producer true, .setEvent true true, .producer true],
    fillSlot false, List.replicate 3 (.producer false), [.consumer, .consumer],
    (List.range traceMaxEventBytes).map .readByte,
    [.emit false headerOnly], List.replicate 4 (.producer false), [.consumer, .consumer]]

theorem ring_safe_two :
    ∃ p : RingState Bool × List (RingEvent Bool),
      (publications p.2).map (fun x => (x.thread, x.position)) = [(true, 0), (false, 1)] ∧
      (deliveries p.2).map TraceEvent.sequence = [1] ∧ emits p.2 = 3 ∧ RingSafe p.1 p.2 := by
  have hexec : ((tracedRing Bool).exec (startState Bool, []) twoEvents).map (fun p =>
      ((publications p.2).map (fun x => (x.thread, x.position)),
        (deliveries p.2).map TraceEvent.sequence, emits p.2))
      = some ([(true, 0), (false, 1)], [1], 3) := by
    decide +kernel
  obtain ⟨p, hp, hseen⟩ := Option.map_eq_some_iff.mp hexec
  obtain ⟨hpublished, hrest⟩ := Prod.mk.inj hseen
  obtain ⟨hdelivered, hemits⟩ := Prod.mk.inj hrest
  have hstart : Reachable (tracedRing Bool) (startState Bool, []) :=
    .init ⟨startState_init Bool, rfl⟩
  exact ⟨p, hpublished, hdelivered, hemits,
    ring_safe (hstart.exec (fun _ _ => trivial) twoEvents hp)⟩

end ScopeRing
