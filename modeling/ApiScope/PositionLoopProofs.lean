import ApiScope.RingDropProofs

/-! # The position loop — producers never wait

    The loop of `EmitTraceEvent` goes round again when the slot is ahead of
    the position it loaded, and when the compare-exchange finds that another
    thread has moved the position.  Nothing bounds the number of passes as
    long as other threads move.

    A thread that runs alone is another matter, wherever the others have
    stopped: no slot is ever ahead of `enqueuePosition`
    (`RingInv.seqAt_enqueue_le`), so a pass that loads the position it
    decides on takes the slot or counts a drop (`pass_fresh`).  A pass begun
    earlier may end in a retry, but only one. -/

namespace ScopeRing

open ScopeBytes ScopeProtocol ScopeTransition

variable {T : Type} [DecidableEq T]

/-! ## Passes -/

/-- The operations that a thread still makes until it decides on a slot: none
    behind the loop. -/
def Producer.toDecide : Producer → Nat
  | .counting _ => 4
  | .loadingPosition _ => 3
  | .loadingSequence _ _ => 2
  | .deciding _ _ _ => 1
  | _ => 0

/-- The thread is in front of the loop or in it. -/
def InLoop (p : Producer) : Prop :=
  (∃ e, p = .counting e) ∨ p.looping = true

/-- The thread `t` alone ends the pass it is in. -/
def pass (t : T) (s : RingState T) : Option (RingState T) :=
  (ringSystem T).exec s (List.replicate (Producer.toDecide (s.producers t)) (.producer t))

/-- The thread `t` alone, for a number of passes. -/
def passes (t : T) : Nat → RingState T → Option (RingState T)
  | 0, s => some s
  | n + 1, s => (pass t s).bind (passes t n)

/-- The thread has taken the slot at `enqueuePosition`. -/
structure Owns (t : T) (s s' : RingState T) : Prop where
  producer : ∃ e, s'.producers t
    = .copying e s.ring.enqueuePosition (List.range e.size)
  enqueue : s'.ring.enqueuePosition = s.ring.enqueuePosition + 1
  free : s'.seqAt s.ring.enqueuePosition = s.ring.enqueuePosition
  drops : s'.ring.droppedEvents = s.ring.droppedEvents

/-- The thread has counted a drop and returns false. -/
structure Dropped (t : T) (s s' : RingState T) : Prop where
  producer : ∃ e, s'.producers t = .returning e none
  enqueue : s'.ring.enqueuePosition = s.ring.enqueuePosition
  drops : s'.ring.droppedEvents = s.ring.droppedEvents + 1

/-- The thread is out of the loop, in one of the two ways. -/
def Left (t : T) (s s' : RingState T) : Prop := Owns t s s' ∨ Dropped t s s'

/-- How a pass ends. -/
inductive Ends (t : T) (s s' : RingState T) : Prop where
  | left (h : Left t s s')
  | again (e : TraceEvent) (hp : s'.producers t = .loadingPosition e)
      (henqueue : s'.ring.enqueuePosition = s.ring.enqueuePosition)
      (hdrops : s'.ring.droppedEvents = s.ring.droppedEvents)

/-! ## The slot at `enqueuePosition` -/

omit [DecidableEq T] in
/-- No slot is ahead of the next position: it is free, or still belongs to the
    position one lap behind. -/
theorem RingInv.seqAt_enqueue_le {s : RingState T} (h : RingInv s) :
    s.seqAt s.ring.enqueuePosition ≤ s.ring.enqueuePosition := by
  have hroom := h.room
  by_cases hfull : s.ring.enqueuePosition < s.released + traceRingCapacity
  · exact Nat.le_of_eq (h.free _ (Nat.le_refl _) hfull)
  · have hle := h.seqAt_le s.ring.enqueuePosition
    omega

/-! ## One pass -/

section Pass

variable {s : RingState T} {t : T} {e : TraceEvent}

/-- A thread that has more than one operation to make makes one, and ends the
    same pass from there. -/
theorem pass_step {s' : RingState T} (h : ringStep s (.producer t) = some s')
    (hcount : Producer.toDecide (s.producers t)
      = Producer.toDecide (s'.producers t) + 1) :
    pass t s = pass t s' := by
  have hstep : (ringSystem T).step s (.producer t) = some s' := h
  rw [pass, pass, hcount, List.replicate_succ, System.exec, hstep]

/-- The decision is the last operation of a pass. -/
theorem pass_decide {s' : RingState T} (h : ringStep s (.producer t) = some s')
    (hcount : Producer.toDecide (s.producers t) = 1) : pass t s = some s' := by
  have hstep : (ringSystem T).step s (.producer t) = some s' := h
  rw [pass, hcount, List.replicate_succ, System.exec, hstep]
  rfl

theorem step_counting (hp : s.producers t = .counting e) :
    ∃ s₁ e₁, ringStep s (.producer t) = some s₁ ∧ s₁.producers t = .loadingPosition e₁ ∧
      s₁.ring.enqueuePosition = s.ring.enqueuePosition ∧
      s₁.ring.droppedEvents = s.ring.droppedEvents := by
  rw [ringStep, hp]
  exact ⟨_, _, rfl, Function.update_self _ _ _, rfl, rfl⟩

theorem step_loadingPosition (hp : s.producers t = .loadingPosition e) :
    ∃ s₁, ringStep s (.producer t) = some s₁ ∧
      s₁.producers t = .loadingSequence e s.ring.enqueuePosition ∧ s₁.ring = s.ring := by
  rw [ringStep, hp]
  exact ⟨_, rfl, Function.update_self _ _ _, rfl⟩

theorem step_loadingSequence {position : Nat}
    (hp : s.producers t = .loadingSequence e position) :
    ∃ s₁, ringStep s (.producer t) = some s₁ ∧
      s₁.producers t = .deciding e position (s.seqAt position) ∧ s₁.ring = s.ring := by
  rw [ringStep, hp]
  exact ⟨_, rfl, Function.update_self _ _ _, rfl⟩

omit [DecidableEq T] in
/-- Only the position and the drop count of the state before matter. -/
theorem Left.of_same {s₁ s' : RingState T} (h : Left t s₁ s')
    (henqueue : s₁.ring.enqueuePosition = s.ring.enqueuePosition)
    (hdrops : s₁.ring.droppedEvents = s.ring.droppedEvents) : Left t s s' := by
  rcases h with ⟨h1, h2, h3, h4⟩ | ⟨h1, h2, h3⟩
  · rw [henqueue] at h1 h2 h3
    exact Or.inl ⟨h1, h2, h3, h4.trans hdrops⟩
  · exact Or.inr ⟨h1, h2.trans henqueue, by rw [h3, hdrops]⟩

omit [DecidableEq T] in
theorem Ends.of_same {s₁ s' : RingState T} (h : Ends t s₁ s')
    (henqueue : s₁.ring.enqueuePosition = s.ring.enqueuePosition)
    (hdrops : s₁.ring.droppedEvents = s.ring.droppedEvents) : Ends t s s' := by
  cases h with
  | left h => exact .left (h.of_same henqueue hdrops)
  | again e hp h1 h2 => exact .again e hp (h1.trans henqueue) (h2.trans hdrops)

/-- **THE DECISION**: a drop if the slot is behind, the slot if it is free and
    the position has not moved, and another pass otherwise. -/
theorem step_deciding (hi : RingInv s) {position sequence : Nat}
    (hp : s.producers t = .deciding e position sequence) :
    ∃ s', ringStep s (.producer t) = some s' ∧
      (Left t s s' ∨
        position ≤ sequence ∧ ¬(sequence = position ∧ s.ring.enqueuePosition = position) ∧
          s' = s.setProducer t (.loadingPosition e)) := by
  rw [ringStep, hp, producerStep]
  by_cases hlt : (sequence : Int) - (position : Int) < 0
  · rw [if_pos hlt]
    exact ⟨_, rfl, Or.inl (Or.inr ⟨⟨e, Function.update_self _ _ _⟩, rfl, rfl⟩)⟩
  rw [if_neg hlt]
  by_cases hwin : (sequence : Int) - (position : Int) = 0 ∧ s.ring.enqueuePosition = position
  · rw [if_pos hwin]
    have hseq : sequence = position := by omega
    -- the sequence it loaded says that the slot is free, and it still is
    have hknown : ProducerOk s (.deciding e position sequence) := hp ▸ hi.producer t
    have hfree : s.seqAt position = position :=
      hi.free position (Nat.le_of_eq hwin.2) (hknown.2 hseq)
    refine ⟨_, rfl, Or.inl (Or.inl ⟨⟨e, ?_⟩, ?_, ?_, rfl⟩)⟩
    · rw [hwin.2]
      exact Function.update_self _ _ _
    · rw [hwin.2]
    · rw [hwin.2]
      exact hfree
  · rw [if_neg hwin]
    refine ⟨_, rfl, Or.inr ⟨by omega, ?_, rfl⟩⟩
    rintro ⟨h1, h2⟩
    exact hwin ⟨by omega, h2⟩

theorem pass_deciding (hi : RingInv s) {position sequence : Nat}
    (hp : s.producers t = .deciding e position sequence) :
    ∃ s', pass t s = some s' ∧ Ends t s s' := by
  obtain ⟨s', hstep, hend⟩ := step_deciding hi hp
  refine ⟨s', pass_decide hstep (by rw [hp]; rfl), ?_⟩
  rcases hend with hleft | ⟨-, -, rfl⟩
  · exact .left hleft
  · exact .again e (Function.update_self _ _ _) rfl rfl

theorem pass_loadingSequence (hi : RingInv s) {position : Nat}
    (hp : s.producers t = .loadingSequence e position) :
    ∃ s', pass t s = some s' ∧ Ends t s s' := by
  obtain ⟨s₁, hstep, hp₁, hring⟩ := step_loadingSequence hp
  obtain ⟨s', hpass, hend⟩ := pass_deciding (ringInv_step hi hstep) hp₁
  refine ⟨s', ?_, hend.of_same (by rw [hring]) (by rw [hring])⟩
  rw [pass_step hstep (by rw [hp, hp₁]; rfl)]
  exact hpass

/-- **A FRESH PASS** is the last one: the position it decides on is the one the
    ring has, and the slot is not ahead of it. -/
theorem pass_fresh (hi : RingInv s) (hp : s.producers t = .loadingPosition e) :
    ∃ s', pass t s = some s' ∧ Left t s s' := by
  obtain ⟨s₁, hstep₁, hp₁, hring₁⟩ := step_loadingPosition hp
  have hi₁ := ringInv_step hi hstep₁
  obtain ⟨s₂, hstep₂, hp₂, hring₂⟩ := step_loadingSequence hp₁
  obtain ⟨s', hstep, hend⟩ := step_deciding (ringInv_step hi₁ hstep₂) hp₂
  have hring : s₂.ring = s.ring := hring₂.trans hring₁
  have hpass : pass t s = some s' := by
    rw [pass_step hstep₁ (by rw [hp, hp₁]; rfl), pass_step hstep₂ (by rw [hp₁, hp₂]; rfl)]
    exact pass_decide hstep (by rw [hp₂]; rfl)
  have hahead : s₁.seqAt s.ring.enqueuePosition ≤ s.ring.enqueuePosition := by
    rw [← hring₁]
    exact hi₁.seqAt_enqueue_le
  rcases hend with hleft | ⟨hle, hmoved, -⟩
  · exact ⟨s', hpass, hleft.of_same (by rw [hring]) (by rw [hring])⟩
  · exact absurd ⟨by omega, by rw [hring]⟩ hmoved

theorem pass_counting (hi : RingInv s) (hp : s.producers t = .counting e) :
    ∃ s', pass t s = some s' ∧ Left t s s' := by
  obtain ⟨s₁, e₁, hstep, hp₁, henqueue, hdrops⟩ := step_counting hp
  obtain ⟨s', hpass, hleft⟩ := pass_fresh (ringInv_step hi hstep) hp₁
  refine ⟨s', ?_, hleft.of_same henqueue hdrops⟩
  rw [pass_step hstep (by rw [hp, hp₁]; rfl)]
  exact hpass

/-- **ONE PASS** of a thread alone, wherever it stands in the loop. -/
theorem pass_ends (hi : RingInv s) (hloop : InLoop (s.producers t)) :
    ∃ s', pass t s = some s' ∧ Ends t s s' := by
  cases hp : s.producers t with
  | counting e =>
      obtain ⟨s', hpass, hleft⟩ := pass_counting hi hp
      exact ⟨s', hpass, .left hleft⟩
  | loadingPosition e =>
      obtain ⟨s', hpass, hleft⟩ := pass_fresh hi hp
      exact ⟨s', hpass, .left hleft⟩
  | loadingSequence e position => exact pass_loadingSequence hi hp
  | deciding e position sequence => exact pass_deciding hi hp
  | _ =>
      rw [hp] at hloop
      rcases hloop with ⟨e, he⟩ | hlooping
      · cases he
      · cases hlooping

end Pass

/-! ## Producers never wait -/

/-- **NO WAITING**: whatever the reader and the other threads did and wherever
    they stopped, the slot at `enqueuePosition` is not ahead of it, and a
    thread in front of the loop or in it, running alone, is out of it after at
    most two passes, with a slot or a counted drop. -/
theorem producers_never_wait {s : RingState T} (h : Reachable (ringSystem T) s) :
    s.seqAt s.ring.enqueuePosition ≤ s.ring.enqueuePosition ∧
      ∀ t, InLoop (s.producers t) →
        ∃ n s', n ≤ 2 ∧ passes t n s = some s' ∧ (Owns t s s' ∨ Dropped t s s') := by
  have hi : RingInv s := ringInv_reachable h
  refine ⟨hi.seqAt_enqueue_le, fun t hloop => ?_⟩
  obtain ⟨s₁, hpass, hend⟩ := pass_ends hi hloop
  cases hend with
  | left hleft =>
      refine ⟨1, s₁, by decide, ?_, hleft⟩
      rw [passes, hpass]
      rfl
  | again e hp henqueue hdrops =>
      have h₁ : Reachable (ringSystem T) s₁ := h.exec (fun _ _ => trivial) _ hpass
      obtain ⟨s₂, hpass₂, hleft⟩ := pass_fresh (ringInv_reachable h₁) hp
      refine ⟨2, s₂, Nat.le_refl 2, ?_, hleft.of_same henqueue hdrops⟩
      rw [passes, hpass, Option.bind_some, passes, hpass₂]
      rfl

/-- The first thread took the position that the second one had loaded and
    stopped in the middle of its copy; the second one retries, alone. -/
theorem producers_never_wait_alone :
    ∃ s : RingState Bool, (∃ e, s.producers false = .deciding e 0 0) ∧
      (∃ e, s.producers true = .copying e 0 (List.range e.size)) ∧
      s.seqAt s.ring.enqueuePosition ≤ s.ring.enqueuePosition ∧
      ∃ n s', n ≤ 2 ∧ passes false n s = some s' ∧ (Owns false s s' ∨ Dropped false s s') := by
  have hstart : Reachable (ringSystem Bool) (startState Bool) := .init (startState_init Bool)
  have hrun := hstart.exec (fun _ _ => trivial)
    [.emit true headerOnly, .emit false headerOnly, .producer true, .producer true,
      .producer true, .producer false, .producer false, .producer false, .producer true] rfl
  obtain ⟨hahead, halone⟩ := producers_never_wait hrun
  exact ⟨_, ⟨_, rfl⟩, ⟨_, rfl⟩, hahead, halone false (Or.inr rfl)⟩

end ScopeRing
