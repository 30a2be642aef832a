import ApiScope.TraceSessionProofs

/-! # Wake-ups — the reader never sleeps over a readable event

    `wakePending` coalesces the signals of many producers, `wakeEvent_` is
    auto-reset, and publication is out of order, so the signal of an event
    may come from another producer or from before the last wait.  Two facts
    carry the proof while the reader is between its exchange and its wait:

    1. `wakePending` set means the event is signalled or its setter is about
       to call `NtSetEvent`;
    2. a published head slot means `wakePending` is set or its publisher has
       not done its exchange yet.

    The second starts at the failed check of `TryReadRing`, which is why the
    reader repeats the check after clearing the flag. -/

namespace ScopeSession

open ScopeProtocol ScopeTransition ScopeRing

variable {T : Type} [DecidableEq T] (valid : TraceEvent → Bool)

/-- The transport is configured when the step is taken, and `NtSetEvent` does
    not fail. -/
def KeepsConfigured (s : Session T) (a : SessionAction T) : Prop :=
  (s.target.exports.wakeEvent && s.target.exports.ntSetEvent) = true ∧
    ∀ t, a ≠ .target (.setEvent t false)

/-- Between the exchange of `wakePending` and the end of the wait. -/
def Reader.afterClear : Reader → Bool
  | .rereading _ => true
  | .waiting => true
  | _ => false

def someWaking (r : RingState T) : Prop :=
  ∃ t e p, r.producers t = .waking e p

def someSignalling (r : RingState T) : Prop :=
  ∃ t e p, r.producers t = .signalling e p

/-- The slot at `dequeuePosition` is published. -/
def headReady (r : RingState T) : Prop :=
  r.seqAt r.ring.dequeuePosition = r.ring.dequeuePosition + 1

structure WakeInv (s : Session T) : Prop where
  noFail : ∀ t e p, s.target.producers t ≠ .signalFailed e p
  idle : s.reader.call = none → s.target.consumer = .idle
  pending : s.reader.afterClear = true → s.target.ring.wakePending = true →
    s.target.wakeEvent = true ∨ someSignalling s.target
  ready : s.reader = .waiting → headReady s.target →
    s.target.ring.wakePending = true ∨ someWaking s.target

omit [DecidableEq T] in
theorem wakeInv_init {s : Session T} (h : SessionInit s) : WakeInv s := by
  obtain ⟨⟨hr, hp, hc, -⟩, hreader, -⟩ := h
  have hread : s.reader = .reading false 0 := hreader
  refine ⟨?_, fun _ => hc, ?_, ?_⟩
  · intro t e p ht
    rw [hp t] at ht
    cases ht
  · intro hclear
    rw [hread] at hclear
    cases hclear
  · intro hwait
    rw [hread] at hwait
    cases hwait

/-! ## Steps of the target -/

/-- A thread other than the one that moves stays where it is. -/
theorem exists_update {f : T → Producer} {t : T} {p : Producer}
    {P : Producer → Prop} (ht : ¬ P (f t)) (h : ∃ u, P (f u)) :
    ∃ u, P (Function.update f t p u) := by
  obtain ⟨u, hu⟩ := h
  have hne : u ≠ t := fun heq => ht (heq ▸ hu)
  exact ⟨u, by rwa [Function.update_of_ne hne]⟩

theorem someWaking_update {r r' : RingState T} {t : T} {p : Producer}
    (hf : r'.producers = Function.update r.producers t p)
    (ht : ∀ e q, r.producers t ≠ .waking e q) (h : someWaking r) :
    someWaking r' := by
  obtain ⟨u, hu⟩ := exists_update (P := fun x => ∃ e q, x = .waking e q) (p := p)
    (fun ⟨e, q, heq⟩ => ht e q heq) h
  rw [← hf] at hu
  exact ⟨u, hu⟩

theorem someSignalling_update {r r' : RingState T} {t : T} {p : Producer}
    (hf : r'.producers = Function.update r.producers t p)
    (ht : ∀ e q, r.producers t ≠ .signalling e q) (h : someSignalling r) :
    someSignalling r' := by
  obtain ⟨u, hu⟩ := exists_update (P := fun x => ∃ e q, x = .signalling e q) (p := p)
    (fun ⟨e, q, heq⟩ => ht e q heq) h
  rw [← hf] at hu
  exact ⟨u, hu⟩

/-- A thread's move: what it must establish for the flag and for the head. -/
theorem WakeInv.move {s : Session T} (h : WakeInv s) {r' : RingState T} {t : T}
    {p : Producer} (hf : r'.producers = Function.update s.target.producers t p)
    (hcons : r'.consumer = s.target.consumer)
    (hp : ∀ e q, p ≠ .signalFailed e q)
    (hpending : (s.target.ring.wakePending = true →
        s.target.wakeEvent = true ∨ someSignalling s.target) →
      r'.ring.wakePending = true → r'.wakeEvent = true ∨ someSignalling r')
    (hready : s.reader = .waiting → (headReady s.target →
        s.target.ring.wakePending = true ∨ someWaking s.target) →
      headReady r' → r'.ring.wakePending = true ∨ someWaking r') :
    WakeInv { s with target := r' } := by
  refine ⟨?_, fun hcall => hcons.trans (h.idle hcall), ?_, ?_⟩
  · show ∀ u e q, r'.producers u ≠ .signalFailed e q
    rw [hf]
    exact forall_update (P := fun _ x => ∀ e q, x ≠ .signalFailed e q) h.noFail hp
  · exact fun hclear => hpending (h.pending hclear)
  · exact fun hwait => hready hwait (h.ready hwait)

/-- A move that touches neither the flag, nor the event, nor the head, by a
    thread that is neither waking nor signalling. -/
theorem WakeInv.quiet {s : Session T} (h : WakeInv s) {r' : RingState T} {t : T}
    {p : Producer} (hf : r'.producers = Function.update s.target.producers t p)
    (hcons : r'.consumer = s.target.consumer)
    (hp : ∀ e q, p ≠ .signalFailed e q)
    (hwake : ∀ e q, s.target.producers t ≠ .waking e q)
    (hsig : ∀ e q, s.target.producers t ≠ .signalling e q)
    (hflag : r'.ring.wakePending = s.target.ring.wakePending)
    (hevent : r'.wakeEvent = s.target.wakeEvent)
    (hhead : headReady r' → headReady s.target) :
    WakeInv { s with target := r' } := by
  refine h.move hf hcons hp ?_ ?_
  · rw [hflag, hevent]
    exact fun hold hset => (hold hset).imp_right (someSignalling_update hf hsig)
  · rw [hflag]
    exact fun _ hold hr => (hold (hhead hr)).imp_right (someWaking_update hf hwake)

/-- Publishing another position does not publish the head. -/
theorem headReady_publish {r : RingState T} (hi : RingInv r) (hidle : r.consumer = .idle)
    {t : T} {e : TraceEvent} {p : Nat} {todo : List Nat}
    (hp : r.producers t = .copying e p todo) (hne : p ≠ r.ring.dequeuePosition)
    (h : headReady { r.setProducer t (.waking e p) with
      ring := r.ring.setSlotSequence p (p + 1) }) : headReady r := by
  obtain ⟨h1, h2, -⟩ := hi.of_filling (t := t) (p := p) (by rw [hp]; rfl)
  have hrel : r.released = r.ring.dequeuePosition := by
    rw [RingState.released, hidle]
  have hb := hi.behind
  have hidx : slotIndex r.ring.dequeuePosition ≠ slotIndex p :=
    hi.slotIndex_ne h1 h2 (by omega)
      (by rw [hrel]; exact Nat.lt_add_of_pos_right (by decide)) (Ne.symm hne)
  have hslot : (r.ring.setSlotSequence p (p + 1)).slot r.ring.dequeuePosition
      = r.ring.slot r.ring.dequeuePosition := slot_setSlot_of_ne _ _ hidx
  have h' : ((r.ring.setSlotSequence p (p + 1)).slot r.ring.dequeuePosition).sequence
      = r.ring.dequeuePosition + 1 := h
  rwa [hslot] at h'

/-- Copying payload bytes publishes nothing. -/
theorem seqAt_setSlotByte (r : TraceRing) (p q i : Nat) (b : UInt8) :
    ((r.setSlotByte p i b).slot q).sequence = (r.slot q).sequence := by
  by_cases hidx : slotIndex q = slotIndex p
  · rw [TraceRing.setSlotByte, slot_setSlot_self _ _ hidx, TraceRing.slot,
      TraceRing.slot, hidx]
  · rw [TraceRing.setSlotByte, slot_setSlot_of_ne _ _ hidx]

theorem wakeInv_target {s : Session T} (hi : RingInv s.target) (h : WakeInv s)
    {a : RingAction T} {r' : RingState T}
    (hok : KeepsConfigured s (.target a)) (ha : ofTarget a = true)
    (hs : ringStep s.target a = some r') : WakeInv { s with target := r' } := by
  obtain ⟨hconf, hset⟩ := hok
  cases ringStep_cases hs with
  | reject => exact h
  | call hp | count hp | loadPosition hp | loadSequence hp | drop hp | reserve hp
  | retry hp =>
      exact h.quiet rfl rfl (by simp) (by simp [hp]) (by simp [hp]) rfl rfl id
  | ret hp =>
      exact h.quiet rfl rfl (by simp) (by simp [hp]) (by simp [hp]) rfl rfl id
  | @copy t e p todo i hp =>
      refine h.quiet rfl rfl (by simp) (by simp [hp]) (by simp [hp]) rfl rfl ?_
      intro hr
      have hr : ((s.target.ring.setSlotByte p i (e.byte i)).slot
          s.target.ring.dequeuePosition).sequence
          = s.target.ring.dequeuePosition + 1 := hr
      rwa [seqAt_setSlotByte] at hr
  | @publish t e p hp =>
      refine h.move rfl rfl (by simp) ?_ ?_
      · exact fun hold hset =>
          (hold hset).imp_right (someSignalling_update rfl (by simp [hp]))
      · intro hwait hold hr
        by_cases hhead : p = s.target.ring.dequeuePosition
        · exact Or.inr ⟨t, e, p, Function.update_self ..⟩
        · have hidle := h.idle (by rw [hwait]; rfl)
          exact (hold (headReady_publish hi hidle hp hhead hr)).imp_right
            (someWaking_update rfl (by simp [hp]))
  | wakeNot hp hno =>
      rw [hconf] at hno
      cases hno
  | wakeAgain hp _ hflag =>
      -- the flag is already set: the head has its signal coming
      refine h.move rfl rfl (by simp) ?_ (fun _ _ _ => Or.inl hflag)
      exact fun hold hset =>
        (hold hset).imp_right (someSignalling_update rfl (by simp [hp]))
  | @wakeFirst t e p hp _ hflag =>
      refine h.move rfl rfl (by simp) ?_ (fun _ _ _ => Or.inl rfl)
      exact fun _ _ => Or.inr ⟨t, e, p, Function.update_self ..⟩
  | signal hp =>
      refine h.move rfl rfl (by simp) (fun _ _ => Or.inl rfl) ?_
      exact fun _ hold hr =>
        (hold hr).imp_right (someWaking_update rfl (by simp [hp]))
  | @signalFail t e p hp => exact absurd rfl (hset t)
  | @unwake t e p hp => exact absurd hp (h.noFail t e p)
  | configure => exact ⟨h.noFail, h.idle, h.pending, h.ready⟩
  | readPosition | readNothing | readClaim | readCopy | release | deliver
  | clearWake | takeWake => cases ha

/-! ## Steps of the controller -/

omit [DecidableEq T] in
/-- A reader that leaves, or never was in, the stretch after its exchange. -/
theorem WakeInv.leave {s : Session T} (h : WakeInv s) {s' : Session T}
    (htarget : s'.target = s.target) (hclear : s'.reader.afterClear = false)
    (hcall : s.reader.call = none) : WakeInv s' := by
  refine ⟨?_, ?_, ?_, ?_⟩
  · rw [htarget]
    exact h.noFail
  · intro _
    rw [htarget]
    exact h.idle hcall
  · intro hc
    rw [hclear] at hc
    cases hc
  · intro hwait
    rw [hwait] at hclear
    cases hclear

omit [DecidableEq T] in
/-- A step that moves neither the ring nor the reader. -/
theorem WakeInv.same {s : Session T} (h : WakeInv s) {s' : Session T}
    (htarget : s'.target = s.target) (hreader : s'.reader = s.reader) :
    WakeInv s' := by
  refine ⟨?_, ?_, ?_, ?_⟩
  · rw [htarget]
    exact h.noFail
  · rw [htarget, hreader]
    exact h.idle
  · rw [htarget, hreader]
    exact h.pending
  · rw [htarget, hreader]
    exact h.ready

theorem nextRead_afterClear (stopping : Bool) (n : Nat) :
    (nextRead stopping n).afterClear = false := by
  rw [nextRead]
  split <;> rfl

theorem afterRead_afterClear (stopping : Bool) (n : Nat) (o : Option TraceEvent) :
    (afterRead stopping n o).afterClear = false := by
  cases o <;> rfl

/-- What one operation of `TryReadRing` does: it keeps the flag, and a call
    that finds nothing has just seen an unpublished head. -/
theorem consumerStep_spec {r r' : TraceRing} {c c' : Consumer}
    {result : Option (Option TraceEvent)} (h : consumerStep r c = some (r', c', result)) :
    r'.wakePending = r.wakePending ∧ (result ≠ none → c' = .idle) ∧
      (result = some none → r' = r ∧
        ∃ p, c = .loadingSequence p ∧ (r.slot p).sequence ≠ p + 1) := by
  cases c with
  | idle =>
      cases h
      exact ⟨rfl, fun hne => absurd rfl hne, fun hr => by cases hr⟩
  | loadingSequence p =>
      rw [consumerStep] at h
      by_cases hne : (r.slot p).sequence ≠ p + 1
      · rw [if_pos hne] at h
        cases h
        exact ⟨rfl, fun _ => rfl, fun _ => ⟨rfl, p, rfl, hne⟩⟩
      · rw [if_neg hne] at h
        cases h
        exact ⟨rfl, fun hno => absurd rfl hno, fun hr => by cases hr⟩
  | copying p e todo =>
      cases todo with
      | nil =>
          cases h
          exact ⟨rfl, fun hne => absurd rfl hne, fun hr => by cases hr⟩
      | cons i todo => cases h
  | storing p e =>
      cases h
      exact ⟨rfl, fun _ => rfl, fun hr => by cases hr⟩

omit [DecidableEq T] in
theorem wakeInv_read {s : Session T} (hi : RingInv s.target) (h : WakeInv s)
    {after : Option TraceEvent → Reader} {r : TraceRing} {c : Consumer}
    {result : Option TraceEvent} (hr : s.reader.call = some after)
    (hc : consumerStep s.target.ring s.target.consumer = some (r, c, some result)) :
    WakeInv { s with
      target := { s.target with ring := r, consumer := c }
      reader := after result } := by
  obtain ⟨hflag, hidle, hnothing⟩ := consumerStep_spec hc
  refine ⟨h.noFail, fun _ => hidle (by simp), ?_, ?_⟩
  · intro hclear hset
    have hset : r.wakePending = true := hset
    rw [hflag] at hset
    -- only the second call leads to the wait
    have hwas : s.reader.afterClear = true := by
      cases hcs : s.reader with
      | rereading stopping => rfl
      | reading stopping n =>
          rw [hcs] at hr
          have hafter : after = afterRead stopping n := (Option.some.inj hr).symm
          have hclear : (after result).afterClear = true := hclear
          rw [hafter, afterRead_afterClear] at hclear
          cases hclear
      | _ =>
          rw [hcs] at hr
          cases hr
    exact h.pending hwas hset
  · intro hwait hready
    have hwait : after result = .waiting := hwait
    have hnone : result = none := by
      cases result with
      | none => rfl
      | some e =>
          cases hcs : s.reader <;> rw [hcs] at hr <;> cases hr <;> cases hwait
    obtain ⟨hsame, p, hp, hne⟩ := hnothing (by rw [hnone])
    have hpos : p = s.target.ring.dequeuePosition := by
      have := hi.consumer
      rwa [hp] at this
    have hready : (r.slot r.dequeuePosition).sequence = r.dequeuePosition + 1 := hready
    rw [hsame, ← hpos] at hready
    exact absurd hready hne

theorem wakeInv_step {s s' : Session T} {a : SessionAction T}
    (hi : RingInv s.target) (h : WakeInv s) (hok : KeepsConfigured s a)
    (hs : sessionStep valid s a = some s') : WakeInv s' := by
  cases sessionStep_cases valid hs with
  | target ha hr => exact wakeInv_target hi h hok ha hr
  | @copy i target' hr =>
      cases ringStep_cases hr with
      | readCopy hc =>
          refine ⟨h.noFail, fun hcall => ?_, h.pending, h.ready⟩
          rw [h.idle hcall] at hc
          cases hc
  | @readOn after r c hr hc =>
      obtain ⟨hflag, -, -⟩ := consumerStep_spec hc
      refine ⟨h.noFail, fun hcall => ?_, ?_, fun hwait => ?_⟩
      · have hcall : s.reader.call = none := hcall
        rw [hr] at hcall
        cases hcall
      · intro hclear hset
        have hset : r.wakePending = true := hset
        rw [hflag] at hset
        exact h.pending hclear hset
      · have hwait : s.reader = .waiting := hwait
        rw [hwait] at hr
        cases hr
  | readReturn hr hc => exact wakeInv_read hi h hr hc
  | accept hr | pushBlock hr | push hr | finish hr | announce hr | waitFail hr =>
      exact h.leave rfl rfl (by rw [hr]; rfl)
  | ignore hr | notify hr =>
      exact h.leave rfl (nextRead_afterClear _ _) (by rw [hr]; rfl)
  | stop hr => exact h.leave rfl (nextRead_afterClear true 0) (by rw [hr]; rfl)
  | @report stopping n reported hr =>
      refine h.leave rfl ?_ (by rw [hr]; rfl)
      show (if n ≠ 0 then nextRead stopping 0 else .clearing stopping).afterClear = false
      split
      · exact nextRead_afterClear _ _
      · rfl
  | clear hr =>
      refine ⟨h.noFail, ?_, ?_, ?_⟩
      · intro hcall
        cases hcall
      · intro _ hset
        cases hset
      · intro hwait
        cases hwait
  -- the next read comes first; the reader waits again only behind a clear
  | wake hr =>
      refine ⟨h.noFail, fun _ => h.idle (by rw [hr]; rfl), ?_, ?_⟩
      · intro hclear
        rw [nextRead_afterClear] at hclear
        cases hclear
      · intro hwait
        have hclear := nextRead_afterClear false 0
        rw [show nextRead false 0 = .waiting from hwait] at hclear
        cases hclear
  | pop | popEnd | popBlock | handled | spuriousWriter | requestStop =>
      exact h.same rfl rfl
  -- only a reader that sleeps on the queue is moved by a notification
  | notifyReader | spuriousReader =>
      cases hr : s.reader with
      | pushBlocked stopping n e =>
          exact h.leave rfl (by rw [Reader.notified]; rfl) (by rw [hr]; rfl)
      | _ => exact h.same rfl (by simp [hr, Reader.notified])

/-- The wake-up invariant holds along every run with a configured transport. -/
theorem wakeInv_reachable {s : Session T}
    (h : ReachableIf (sessionSystem valid T) KeepsConfigured s) : WakeInv s :=
  h.invariant_under (P := WakeInv)
    (fun _ hr => ringInv_reachable (ring_of_session valid hr))
    (fun _ => wakeInv_init)
    (fun _ _ _ hi hw hok hs => wakeInv_step valid hi hw hok hs)

/-- **NO LOST WAKE-UP**: while the reader waits over a published head, a
    signal is there or on its way; once every call has returned, it is
    there and the wait ends. -/
theorem no_lost_wakeup {s : Session T}
    (h : ReachableIf (sessionSystem valid T) KeepsConfigured s)
    (hwait : s.reader = .waiting) (hready : headReady s.target) :
    (s.target.wakeEvent = true ∨ someWaking s.target ∨ someSignalling s.target) ∧
      ((∀ t, s.target.producers t = .idle) →
        s.target.wakeEvent = true ∧
          ∃ s', sessionStep valid s .reader = some s' ∧ s'.reader ≠ .waiting) := by
  have hi := wakeInv_reachable valid h
  have hsignal : s.target.wakeEvent = true ∨ someWaking s.target ∨
      someSignalling s.target := by
    rcases hi.ready hwait hready with hset | hwaking
    · exact (hi.pending (by rw [hwait]; rfl) hset).imp_right Or.inr
    · exact Or.inr (Or.inl hwaking)
  refine ⟨hsignal, fun hidle => ?_⟩
  have hevent : s.target.wakeEvent = true := by
    rcases hsignal with hevent | ⟨t, e, p, ht⟩ | ⟨t, e, p, ht⟩
    · exact hevent
    · rw [hidle t] at ht
      cases ht
    · rw [hidle t] at ht
      cases ht
  refine ⟨hevent, { s with
    target := { s.target with wakeEvent := false }
    reader := nextRead false 0 }, ?_, ?_⟩
  · rw [sessionStep, readerStep, hwait]
    simp only [if_pos hevent, ringStep]
    rfl
  · simp [nextRead, traceRingReadBatch]

/-! ## A run into the wait -/

/-- Only the controller's export writes change the exports. -/
theorem exports_step {s s' : Session T} {a : SessionAction T}
    (hs : sessionStep valid s a = some s')
    (ha : ∀ x, a ≠ .target (.setExports x)) :
    s'.target.exports = s.target.exports := by
  cases sessionStep_cases valid hs with
  | @target b target' hb hr =>
      cases ringStep_cases hr with
      | @configure x => exact absurd rfl (ha x)
      | _ => rfl
  | copy hr =>
      cases ringStep_cases hr with
      | readCopy => rfl
  | _ => rfl

/-- The reader falls asleep on the empty ring, then a thread publishes. -/
def sleepThenPublish : List (SessionAction Unit) :=
  List.replicate 6 .reader ++
    [.target (.emit () headerOnly)] ++
    List.replicate 4 (.target (.producer ())) ++
    (List.range sizeofEventHeader).map (fun i => .target (.copyByte () i)) ++
    [.target (.producer ())]

theorem no_lost_wakeup_run :
    ∃ s : Session Unit, s.reader = .waiting ∧ headReady s.target ∧
      (s.target.wakeEvent = true ∨ someWaking s.target ∨ someSignalling s.target) := by
  have hstart : ReachableIf (sessionSystem (fun _ => true) Unit) KeepsConfigured
      (startSession Unit) :=
    .init (startSession_init Unit)
  have hplain : ∀ a ∈ sleepThenPublish, ∀ x, a ≠ .target (.setExports x) := by
    intro a ha x heq
    subst heq
    simp [sleepThenPublish] at ha
  have hset : ∀ a ∈ sleepThenPublish, ∀ t, a ≠ .target (.setEvent t false) := by
    intro a ha t heq
    subst heq
    simp [sleepThenPublish] at ha
  have hrun := hstart.exec_under
    (Q := fun s => (s.target.exports.wakeEvent && s.target.exports.ntSetEvent) = true)
    rfl sleepThenPublish (fun _ a ha hq => ⟨hq, hset a ha⟩)
    (fun s a s' ha hq hs => by rw [exports_step _ hs (hplain a ha)]; exact hq) rfl
  refine ⟨_, ?_, ?_, (no_lost_wakeup _ hrun ?_ ?_).1⟩
  all_goals rfl

end ScopeSession
