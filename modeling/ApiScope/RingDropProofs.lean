import Mathlib.Data.Finset.Card
import ApiScope.RingDeliveryProofs

/-! # Ring drops — only when full, and counted

    A producer drops its event when the slot sequence it loaded is behind the
    position it loaded before.  The two loads happen at different times, so
    the comparison alone says little; with the slot invariant it says that at
    the second load a whole lap of positions was reserved and unreleased.

    A call that drops its event counts it and returns false, and no other call
    does either.  The counters are conserved: every number taken ends in a
    reservation or in a drop, or belongs to a thread still in the loop. -/

namespace ScopeRing

open ScopeBytes ScopeProtocol ScopeTransition

variable {T : Type}

/-! ## Counting reservations and releases -/

namespace RingEvent

def isReserved : RingEvent T → Bool
  | .reserved _ _ => true
  | _ => false

def isReleased : RingEvent T → Bool
  | .released _ => true
  | _ => false

def isDropped : RingEvent T → Bool
  | .dropped _ => true
  | _ => false

end RingEvent

/-- Positions reserved in a history. -/
def reservations (h : List (RingEvent T)) : Nat := h.countP RingEvent.isReserved

/-- Positions released in a history. -/
def releases (h : List (RingEvent T)) : Nat := h.countP RingEvent.isReleased

/-- Events dropped in a history. -/
def drops (h : List (RingEvent T)) : Nat := h.countP RingEvent.isDropped

theorem drops_append (h o : List (RingEvent T)) : drops (h ++ o) = drops h + drops o :=
  List.countP_append

theorem reservations_append (h o : List (RingEvent T)) :
    reservations (h ++ o) = reservations h + reservations o :=
  List.countP_append

theorem releases_append (h o : List (RingEvent T)) :
    releases (h ++ o) = releases h + releases o :=
  List.countP_append

/-- The history counts what the positions and the drop counter count. -/
def Counted (s : RingState T) (h : List (RingEvent T)) : Prop :=
  reservations h = s.ring.enqueuePosition ∧ releases h = s.released ∧
    UInt32.ofNat (drops h) = s.ring.droppedEvents

theorem ofNat_succ (n : Nat) : UInt32.ofNat (n + 1) = UInt32.ofNat n + 1 := by
  rw [UInt32.ofNat_add]
  rfl

variable [DecidableEq T]

theorem counted_step {s s' : RingState T} {a : RingAction T}
    {h : List (RingEvent T)} (hi : RingInv s) (hc : Counted s h)
    (hs : ringStep s a = some s') : Counted s' (h ++ observe s a) := by
  have silent : ∀ {o}, observe s a = o → reservations o = 0 → releases o = 0 →
      drops o = 0 → s'.ring.enqueuePosition = s.ring.enqueuePosition →
      s'.released = s.released → s'.ring.droppedEvents = s.ring.droppedEvents →
      Counted s' (h ++ observe s a) := by
    intro o ho hres hrel hdrop henq hreleased hcounter
    rw [Counted, ho, reservations_append, releases_append, drops_append, hres, hrel, hdrop,
      henq, hreleased, hcounter]
    exact hc
  cases ringStep_cases hs with
  | reject hp hno => exact silent (by simp [observe, hp, hno]; rfl) rfl rfl rfl rfl rfl rfl
  | call hp hok => exact silent (by simp [observe, hp, hok]; rfl) rfl rfl rfl rfl rfl rfl
  | count hp | loadPosition hp | loadSequence hp | publish hp | wakeNot hp
  | wakeAgain hp | wakeFirst hp | signal hp | signalFail hp | unwake hp | ret hp =>
      exact silent (by simp [observe, hp]; rfl) rfl rfl rfl rfl rfl rfl
  | @drop t e position sequence hp hlt =>
      have ho : observe s (.producer t) = [.dropped t] := by
        simp [observe, hp, hlt]
      rw [Counted, ho, reservations_append, releases_append, drops_append]
      refine ⟨hc.1, hc.2.1, ?_⟩
      show UInt32.ofNat (drops h + 1) = s.ring.droppedEvents + 1
      rw [ofNat_succ, hc.2.2]
  | @retry t e position sequence hp hge hne =>
      have hlt : ¬ sequence < position := by omega
      exact silent (by simp [observe, hp, hlt, hne]; rfl) rfl rfl rfl rfl rfl rfl
  | copy | clearWake | takeWake | configure => exact silent rfl rfl rfl rfl rfl rfl rfl
  | @reserve t e position hp henq =>
      have ho : observe s (.producer t) = [.reserved t position] := by
        simp [observe, hp, henq]
      rw [Counted, ho, reservations_append, releases_append, drops_append]
      refine ⟨?_, hc.2⟩
      show reservations h + 1 = position + 1
      rw [hc.1, henq]
  | readPosition hcs | readNothing hcs | readClaim hcs | deliver hcs =>
      exact silent (by simp [observe, hcs]; rfl) rfl rfl rfl rfl
        (by rw [RingState.released, RingState.released, hcs]) rfl
  | readCopy hcs =>
      exact silent rfl rfl rfl rfl rfl
        (by rw [RingState.released, RingState.released, hcs]) rfl
  | @release position e hcs =>
      have ho : observe s .consumer = [.released position] := by
        simp [observe, hcs]
      rw [Counted, ho, reservations_append, releases_append, drops_append]
      refine ⟨hc.1, ?_, hc.2.2⟩
      show releases h + 1 = position + 1
      rw [hc.2.1, (hi.of_reading hcs).1]

/-! ## A drop means a full ring -/

omit [DecidableEq T] in
/-- A slot of the current lap never shows less than the position that maps to
    it, not even to a thread holding an old position. -/
theorem RingInv.le_seqAt {s : RingState T} (h : RingInv s) {p : Nat}
    (hp : p < s.released + traceRingCapacity) : p ≤ s.seqAt p := by
  have hb := h.behind
  -- the position of the current lap with the same slot
  obtain ⟨q, hq, hq', hidx⟩ := exists_window s.released p
  have hpq : p ≤ q := by
    by_cases hold : s.released ≤ p
    · exact Nat.le_of_eq (slotIndex_window hold hp hq hq' hidx.symm)
    · omega
  have hseq : s.seqAt p = s.seqAt q := by
    rw [RingState.seqAt, RingState.seqAt, TraceRing.slot, TraceRing.slot, hidx]
  by_cases henq : q < s.ring.enqueuePosition
  · rcases h.taken q hq henq with h1 | h1 <;> omega
  · have := h.free q (by omega) hq'
    omega

omit [DecidableEq T] in
/-- A slot sequence behind a position that was current shows a full ring. -/
theorem RingInv.full_of_behind {s : RingState T} (h : RingInv s) {p : Nat}
    (hp : p ≤ s.ring.enqueuePosition) (hlt : s.seqAt p < p) :
    s.ring.enqueuePosition = s.released + traceRingCapacity := by
  have hroom := h.room
  by_contra hne
  have := h.le_seqAt (p := p) (by omega)
  omega

/-- The last load of a slot sequence by `t` in a history read `sequence` at
    `position`; if that was behind, the ring was full at that moment. -/
def LoadedFull (h : List (RingEvent T)) (t : T) (position sequence : Nat) : Prop :=
  ∃ g₁ g₂, h = g₁ ++ .loaded t position sequence :: g₂ ∧
    (∀ p q, .loaded t p q ∉ g₂) ∧
    (sequence < position → reservations g₁ = releases g₁ + traceRingCapacity)

omit [DecidableEq T] in
/-- Steps of other threads do not touch the last load of `t`. -/
theorem LoadedFull.append {h o : List (RingEvent T)} {t : T} {p q : Nat}
    (hl : LoadedFull h t p q) (ho : ∀ p q, .loaded t p q ∉ o) :
    LoadedFull (h ++ o) t p q := by
  obtain ⟨g₁, g₂, heq, hno, hfull⟩ := hl
  refine ⟨g₁, g₂ ++ o, ?_, ?_, hfull⟩
  · rw [heq, List.append_assoc, List.cons_append]
  · intro p' q' hmem
    rcases List.mem_append.mp hmem with hmem | hmem
    · exact hno p' q' hmem
    · exact ho p' q' hmem

omit [DecidableEq T] in
/-- Only a thread about to load shows a load. -/
theorem loaded_of_observe {s : RingState T} {a : RingAction T} {t : T} {p q : Nat}
    (h : .loaded t p q ∈ observe s a) :
    a = .producer t ∧ ∃ e, s.producers t = .loadingSequence e p := by
  cases a with
  | producer u =>
      cases hp : s.producers u with
      | loadingSequence e p' =>
          simp only [observe, hp, List.mem_singleton] at h
          cases h
          exact ⟨rfl, e, hp⟩
      | copying e p' todo =>
          cases todo <;> simp [observe, hp] at h
      | deciding e p' q' =>
          simp only [observe, hp] at h
          split at h
          · simp at h
          · split at h <;> simp at h
      | _ => simp [observe, hp] at h
  | emit u e =>
      cases hp : s.producers u <;> simp [observe, hp] at h
  | consumer =>
      cases hc : s.consumer with
      | copying p' e todo => cases todo <;> simp [observe, hc] at h
      | _ => simp [observe, hc] at h
  | _ => simp [observe] at h

/-- A thread that decides has just loaded, or already decided before. -/
theorem deciding_move {s s' : RingState T} {a : RingAction T}
    (hs : ringStep s a = some s') {u : T} {e : TraceEvent} {p q : Nat}
    (hu : s'.producers u = .deciding e p q) :
    (s.producers u = .deciding e p q ∧ a ≠ .producer u) ∨
      (s.producers u = .loadingSequence e p ∧ a = .producer u ∧
        q = s.seqAt p) := by
  have move : ∀ {t p'}, (∀ e p q, p' ≠ .deciding e p q) →
      Function.update s.producers t p' u = .deciding e p q →
      s.producers u = .deciding e p q ∧ u ≠ t := by
    intro t p' hp' hu
    by_cases hut : u = t
    · rw [hut, Function.update_self] at hu
      exact absurd hu (hp' e p q)
    · rw [Function.update_of_ne hut] at hu
      exact ⟨hu, hut⟩
  cases ringStep_cases hs with
  | @loadSequence t e' p' hp =>
      have hu : Function.update s.producers t (.deciding e' p' (s.seqAt p')) u
        = .deciding e p q := hu
      by_cases hut : u = t
      · rw [hut, Function.update_self] at hu
        cases hu
        exact Or.inr ⟨hut ▸ hp, by rw [hut], rfl⟩
      · rw [Function.update_of_ne hut] at hu
        refine Or.inl ⟨hu, fun ha => hut ?_⟩
        cases ha
        rfl
  | count | loadPosition | drop | reserve | retry | publish | wakeNot | wakeAgain
  | wakeFirst | unwake | ret =>
      obtain ⟨h1, h2⟩ := move (by intro _ _ _ h; cases h) hu
      refine Or.inl ⟨h1, fun ha => h2 ?_⟩
      cases ha
      rfl
  | call | copy | signal | signalFail =>
      obtain ⟨h1, -⟩ := move (by intro _ _ _ h; cases h) hu
      exact Or.inl ⟨h1, fun ha => nomatch ha⟩
  | reject | readPosition | readNothing | readClaim | readCopy | release | deliver
  | clearWake | takeWake | configure => exact Or.inl ⟨hu, fun ha => nomatch ha⟩

/-- What the history says about loads and drops. -/
structure DropHistory (s : RingState T) (h : List (RingEvent T)) : Prop where
  counted : Counted s h
  loads : ∀ t e p q, s.producers t = .deciding e p q → LoadedFull h t p q
  drops : ∀ h₁ h₂ t, h = h₁ ++ .dropped t :: h₂ →
    ∃ p q, q < p ∧ LoadedFull h₁ t p q

theorem loadedFull_step {s s' : RingState T} {a : RingAction T}
    {h : List (RingEvent T)} (hi : RingInv s) (hh : DropHistory s h)
    (hs : ringStep s a = some s') {t : T} {e : TraceEvent} {p q : Nat}
    (ht : s'.producers t = .deciding e p q) : LoadedFull (h ++ observe s a) t p q := by
  rcases deciding_move hs ht with ⟨hold, hne⟩ | ⟨hload, ha, hq⟩
  · refine (hh.loads t e p q hold).append ?_
    intro p' q' hmem
    exact hne (loaded_of_observe hmem).1
  · refine ⟨h, [], ?_, by simp, ?_⟩
    · rw [ha, hq]
      simp [observe, hload]
    · intro hlt
      have hle : ProducerOk s (.loadingSequence e p) := hload ▸ hi.producer t
      rw [hq] at hlt
      have hfull := hi.full_of_behind hle hlt
      rw [hh.counted.1, hh.counted.2.1]
      exact hfull

/-- A drop follows its thread's last load. -/
theorem dropped_of_observe {s s' : RingState T} {a : RingAction T} {t : T}
    (hs : ringStep s a = some s') (h : .dropped t ∈ observe s a) :
    observe s a = [.dropped t] ∧
      ∃ e p q, s.producers t = .deciding e p q ∧ q < p := by
  cases ringStep_cases hs with
  | @drop u e p q hp hlt =>
      have ho : observe s (.producer u) = [.dropped u] := by
        simp [observe, hp, hlt]
      rw [ho, List.mem_singleton] at h
      cases h
      exact ⟨ho, e, p, q, hp, hlt⟩
  | reject hp hno => simp [observe, hp, hno] at h
  | call hp hok => simp [observe, hp, hok] at h
  | count hp | loadPosition hp | loadSequence hp | publish hp | wakeNot hp
  | wakeAgain hp | wakeFirst hp | unwake hp | ret hp => simp [observe, hp] at h
  | reserve hp henq => simp [observe, hp, henq] at h
  | @retry u e p q hp hge hne =>
      have hlt : ¬ q < p := by omega
      simp [observe, hp, hlt, hne] at h
  | copy | signal | signalFail | readCopy | clearWake | takeWake | configure =>
      simp [observe] at h
  | readPosition hc | readNothing hc | readClaim hc | release hc | deliver hc =>
      simp [observe, hc] at h

theorem dropHistory_step {s s' : RingState T} {a : RingAction T}
    {h : List (RingEvent T)} (hi : RingInv s) (hh : DropHistory s h)
    (hs : ringStep s a = some s') : DropHistory s' (h ++ observe s a) := by
  refine ⟨counted_step hi hh.counted hs, ?_, ?_⟩
  · exact fun t e p q ht => loadedFull_step hi hh hs ht
  · intro h₁ h₂ t heq
    rcases List.append_eq_append_iff.mp heq with ⟨g, hg, ho⟩ | ⟨g, hg, ho⟩
    · -- the drop is the step itself, or the history would end before it
      have hmem : .dropped t ∈ observe s a := by
        rw [ho]
        simp
      obtain ⟨hobs, e, p, q, hp, hlt⟩ := dropped_of_observe hs hmem
      have hnil : g = [] := by
        rw [hobs] at ho
        cases g with
        | nil => rfl
        | cons v g => simp at ho
      rw [hnil, List.append_nil] at hg
      rw [hg]
      exact ⟨p, q, hlt, hh.loads t e p q hp⟩
    · cases g with
      | nil =>
          have ho : .dropped t :: h₂ = observe s a := by simpa using ho
          obtain ⟨-, e, p, q, hp, hlt⟩ := dropped_of_observe hs (t := t) (by
            rw [← ho]
            simp)
          rw [List.append_nil] at hg
          rw [← hg]
          exact ⟨p, q, hlt, hh.loads t e p q hp⟩
      | cons v g =>
          rw [List.cons_append] at ho
          cases ho
          exact hh.drops h₁ g t hg

/-! ## Numbers are conserved -/

/-- The call has its number and has neither reserved nor dropped. -/
def Producer.looping : Producer → Bool
  | .loadingPosition _ => true
  | .loadingSequence _ _ => true
  | .deciding _ _ _ => true
  | _ => false

/-- Numbers taken are positions reserved, drops, and the threads of `S`. -/
structure Conserved (s : RingState T) (S : Finset T) : Prop where
  threads : ∀ t, t ∈ S ↔ (s.producers t).looping = true
  balance : s.ring.eventSequence
    = UInt32.ofNat (s.ring.enqueuePosition + S.card) + s.ring.droppedEvents

omit [DecidableEq T] in
/-- A thread that stays in the loop, or outside it, changes no count. -/
theorem Conserved.quiet {s s' : RingState T} {S : Finset T} (h : Conserved s S)
    (hmove : ∀ t, (s'.producers t).looping = (s.producers t).looping)
    (hseq : s'.ring.eventSequence = s.ring.eventSequence)
    (henq : s'.ring.enqueuePosition = s.ring.enqueuePosition)
    (hdrop : s'.ring.droppedEvents = s.ring.droppedEvents) : Conserved s' S := by
  refine ⟨?_, by rw [hseq, henq, hdrop, h.balance]⟩
  intro t
  rw [hmove]
  exact h.threads t

/-- The loop after one thread entered it. -/
theorem threads_enter {f : T → Producer} {S : Finset T}
    (h : ∀ t, t ∈ S ↔ (f t).looping = true) {t : T} {p : Producer}
    (hp : p.looping = true) (u : T) :
    u ∈ insert t S ↔ (Function.update f t p u).looping = true := by
  rw [Finset.mem_insert]
  by_cases hu : u = t
  · rw [hu, Function.update_self]
    exact ⟨fun _ => hp, fun _ => Or.inl rfl⟩
  · rw [Function.update_of_ne hu, ← h u]
    exact ⟨fun hor => hor.resolve_left hu, Or.inr⟩

/-- The loop after one thread left it. -/
theorem threads_leave {f : T → Producer} {S : Finset T}
    (h : ∀ t, t ∈ S ↔ (f t).looping = true) {t : T} {p : Producer}
    (hp : p.looping = false) (u : T) :
    u ∈ S.erase t ↔ (Function.update f t p u).looping = true := by
  rw [Finset.mem_erase]
  by_cases hu : u = t
  · rw [hu, Function.update_self, hp]
    exact ⟨fun hand => absurd rfl hand.1, fun hf => nomatch hf⟩
  · rw [Function.update_of_ne hu, ← h u]
    exact ⟨And.right, fun hmem => ⟨hu, hmem⟩⟩

theorem conserved_step {s s' : RingState T} {a : RingAction T} {S : Finset T}
    (h : Conserved s S) (hs : ringStep s a = some s') :
    ∃ S' : Finset T, Conserved s' S' := by
  have move : ∀ {t p}, Producer.looping p = (s.producers t).looping →
      ∀ u, (Function.update s.producers t p u).looping = (s.producers u).looping := by
    intro t p hp
    exact forall_update (P := fun u p => p.looping = (s.producers u).looping)
      (fun _ => rfl) hp
  cases ringStep_cases hs with
  | @count t e hp =>
      -- one number more, one looping thread more
      have hnot : t ∉ S := by
        rw [h.threads t, hp]
        simp [Producer.looping]
      refine ⟨insert t S, threads_enter h.threads rfl, ?_⟩
      show s.ring.eventSequence + 1
        = UInt32.ofNat (s.ring.enqueuePosition + (insert t S).card)
          + s.ring.droppedEvents
      rw [Finset.card_insert_of_notMem hnot, ← Nat.add_assoc, ofNat_succ, h.balance]
      ac_rfl
  | @drop t e p q hp hlt =>
      -- one drop more, one looping thread less
      have hin : t ∈ S := by
        rw [h.threads t, hp]
        rfl
      refine ⟨S.erase t, threads_leave h.threads rfl, ?_⟩
      show s.ring.eventSequence
        = UInt32.ofNat (s.ring.enqueuePosition + (S.erase t).card)
          + (s.ring.droppedEvents + 1)
      rw [h.balance, ← Finset.card_erase_add_one hin, ← Nat.add_assoc, ofNat_succ]
      ac_rfl
  | @reserve t e p hp henq =>
      -- one position more, one looping thread less
      have hin : t ∈ S := by
        rw [h.threads t, hp]
        rfl
      refine ⟨S.erase t, threads_leave h.threads rfl, ?_⟩
      show s.ring.eventSequence
        = UInt32.ofNat (p + 1 + (S.erase t).card) + s.ring.droppedEvents
      rw [h.balance, henq, ← Finset.card_erase_add_one hin]
      congr 2
      omega
  | call hp | loadPosition hp | loadSequence hp | retry hp | copy hp | publish hp
  | wakeNot hp | wakeAgain hp | wakeFirst hp | signal hp | signalFail hp
  | unwake hp | ret hp =>
      exact ⟨S, h.quiet (move (by rw [hp]; rfl)) rfl rfl rfl⟩
  | reject | readPosition | readNothing | readClaim | readCopy | release | deliver
  | clearWake | takeWake | configure =>
      exact ⟨S, h.quiet (fun _ => rfl) rfl rfl rfl⟩

/-! ## Drops are exact -/

/-- What the drop counter of a reached state stands for. -/
structure DropsExact (s : RingState T) (h : List (RingEvent T)) : Prop where
  /-- Before every drop, at its thread's last load of a slot sequence, exactly
      one lap of positions was reserved and not released. -/
  onlyFull : ∀ h₁ h₂ t, h = h₁ ++ .dropped t :: h₂ →
    ∃ g₁ g₂ p q, h₁ = g₁ ++ .loaded t p q :: g₂ ∧ (∀ p' q', .loaded t p' q' ∉ g₂) ∧
      q < p ∧ reservations g₁ = releases g₁ + traceRingCapacity
  /-- Every drop is counted. -/
  counter : UInt32.ofNat (drops h) = s.ring.droppedEvents
  /-- A call returns false if it has dropped its event, and only then. -/
  refused : ∀ h₁ h₂ t e p, h = h₁ ++ .returned t e p :: h₂ →
    ∃ e₀, LastCall h₁ t e₀ p.isNone
  /-- With no call in progress every number is accounted for. -/
  conserved : (∀ t, s.producers t = .idle) →
    s.ring.eventSequence.toNat
      = (s.ring.enqueuePosition + s.ring.droppedEvents.toNat) % 2 ^ 32

omit [DecidableEq T] in
theorem dropHistory_init {s : RingState T} (h : RingInit s) : DropHistory s [] := by
  obtain ⟨hr, hp, hc, -⟩ := h
  refine ⟨⟨?_, ?_, ?_⟩, ?_, ?_⟩
  · rw [hr]
    rfl
  · rw [RingState.released, hc, hr]
    rfl
  · rw [hr]
    rfl
  · intro t e p q ht
    rw [hp t] at ht
    cases ht
  · intro h₁ h₂ t heq
    exact absurd heq (by simp)

omit [DecidableEq T] in
theorem conserved_init {s : RingState T} (h : RingInit s) :
    Conserved s (∅ : Finset T) := by
  refine ⟨?_, ?_⟩
  · intro t
    rw [h.2.1 t]
    simp [Producer.looping]
  · rw [h.1]
    rfl

/-- **DROPS**: in every state that any interleaving of producers and reader
    reaches, drops happened only at a full ring and every number is
    accounted for. -/
theorem drops_exact {p : RingState T × List (RingEvent T)}
    (h : Reachable (tracedRing T) p) : DropsExact p.1 p.2 := by
  have hh : DropHistory p.1 p.2 :=
    h.traced_invariant (fun _ hr => ringInv_reachable hr)
      (fun _ => dropHistory_init)
      fun _ _ _ _ hi hd hs => dropHistory_step hi hd hs
  have hc : ∃ S : Finset T, Conserved p.1 S :=
    h.untraced.invariant (P := fun s => ∃ S : Finset T, Conserved s S)
      (fun _ h0 => ⟨∅, conserved_init h0⟩)
      fun _ _ _ ⟨_, hi⟩ _ hs => conserved_step hi hs
  refine ⟨?_, hh.counted.2.2, (ringHistory_reachable h).2.calls.returned, ?_⟩
  · intro h₁ h₂ t heq
    obtain ⟨q, v, hlt, g₁, g₂, hg, hno, hfull⟩ := hh.drops h₁ h₂ t heq
    exact ⟨g₁, g₂, q, v, hg, hno, hlt, hfull hlt⟩
  · intro hidle
    obtain ⟨S, hthreads, hbalance⟩ := hc
    have hnone : S = ∅ := by
      refine Finset.eq_empty_of_forall_notMem fun t ht => ?_
      rw [hthreads t, hidle t] at ht
      cases ht
    rw [hbalance, hnone, UInt32.toNat_add, UInt32.toNat_ofNat', Finset.card_empty,
      Nat.add_zero]
    exact Nat.mod_add_mod _ _ _

/-! ## A full ring

    One thread publishes a whole lap that nobody reads, and calls once more. -/

/-- The thread is at `p` of a call, with `n` positions reserved, none of them
    read, and `k` events dropped. -/
structure Unread (s : RingState Unit) (p : Producer) (n : Nat) (k : UInt32) : Prop where
  reached : ∃ h, Reachable (tracedRing Unit) (s, h)
  producer : s.producers () = p
  accepts : emitAccepts s.exports s.ring headerOnly = true
  quiet : (s.exports.wakeEvent && s.exports.ntSetEvent) = false
  released : s.released = 0
  reserved : s.ring.enqueuePosition = n
  dropped : s.ring.droppedEvents = k

theorem reached_step {s s' : RingState Unit} {a : RingAction Unit}
    (h : ∃ h, Reachable (tracedRing Unit) (s, h)) (hs : ringStep s a = some s') :
    ∃ h, Reachable (tracedRing Unit) (s', h) := by
  obtain ⟨g, hg⟩ := h
  refine ⟨g ++ observe s a, hg.step (a := a) trivial ?_⟩
  show (ringStep s a).map _ = _
  rw [hs]
  rfl

theorem setProducer_self (s : RingState Unit) (t : Unit) (p : Producer) :
    (s.setProducer t p).producers t = p := by
  simp [RingState.setProducer]

/-- An operation of the thread that touches neither what is accepted nor what is
    read. -/
theorem Unread.step {s : RingState Unit} {p p' : Producer} {n : Nat} {k : UInt32}
    {r : TraceRing} (h : Unread s p n k)
    (hs : producerStep s.exports s.ring p = some (r, p'))
    (haccepts : emitAccepts s.exports r headerOnly = emitAccepts s.exports s.ring headerOnly)
    (hdequeue : r.dequeuePosition = s.ring.dequeuePosition) :
    Unread { s.setProducer () p' with ring := r } p' r.enqueuePosition r.droppedEvents where
  reached := by
    refine reached_step (a := .producer ()) h.reached ?_
    rw [ringStep, h.producer, hs]
    rfl
  producer := setProducer_self s () p'
  accepts := haccepts.trans h.accepts
  quiet := h.quiet
  released := by
    rw [← h.released]
    simp only [RingState.released, RingState.setProducer, hdequeue]
  reserved := rfl
  dropped := rfl

/-- The call gets to its decision. -/
theorem Unread.decides {s : RingState Unit} {n : Nat} {k : UInt32}
    (h : Unread s .idle n k) : ∃ s' e, Unread s' (.deciding e n (s'.seqAt n)) n k := by
  have hcalled : Unread (s.setProducer () (.counting headerOnly)) (.counting headerOnly) n k := by
    refine ⟨reached_step (a := .emit () headerOnly) h.reached ?_,
      setProducer_self s () _, h.accepts, h.quiet, h.released,
      h.reserved, h.dropped⟩
    rw [ringStep, h.producer]
    exact if_pos h.accepts
  have hcounted := hcalled.step rfl rfl rfl
  have hposition := hcounted.step rfl rfl rfl
  have hsequence := hposition.step rfl rfl rfl
  have hn : s.ring.enqueuePosition = n := h.reserved
  have hk : s.ring.droppedEvents = k := h.dropped
  subst hn hk
  exact ⟨_, _, hsequence⟩

/-- The event is copied. -/
theorem Unread.copies {e : TraceEvent} {q n : Nat} {k : UInt32} (todo : List Nat)
    {s : RingState Unit} (h : Unread s (.copying e q todo) n k) :
    ∃ s', Unread s' (.copying e q []) n k := by
  induction todo generalizing s with
  | nil => exact ⟨s, h⟩
  | cons i todo ih =>
      refine ih (s := { s.setProducer () (.copying e q todo) with
        ring := s.ring.setSlotByte q i (e.byte i) }) ?_
      refine ⟨reached_step (a := .copyByte () i) h.reached ?_,
        setProducer_self s () _, h.accepts, h.quiet,
        h.released, h.reserved, h.dropped⟩
      rw [ringStep, h.producer]
      show (if i ∈ i :: todo then _ else none) = _
      rw [if_pos List.mem_cons_self, List.erase_cons_head]

/-- A call publishes, as long as there is room. -/
theorem Unread.publishes {s : RingState Unit} {n : Nat} {k : UInt32}
    (h : Unread s .idle n k) (hn : n < traceRingCapacity) : ∃ s', Unread s' .idle (n + 1) k := by
  obtain ⟨s₁, e, hdecides⟩ := h.decides
  obtain ⟨g, hg⟩ := hdecides.reached
  have hinv : RingInv s₁ := ringInv_reachable hg.untraced
  have hseq : s₁.seqAt n = n := by
    refine hinv.free n (Nat.le_of_eq hdecides.reserved) ?_
    rw [hdecides.released, Nat.zero_add]
    exact hn
  have hreserve : producerStep s₁.exports s₁.ring (.deciding e n (s₁.seqAt n))
      = some ({ s₁.ring with enqueuePosition := n + 1 },
        .copying e n (List.range e.size)) := by
    rw [hseq, producerStep, hdecides.reserved]
    simp
  obtain ⟨s₂, hcopied⟩ := Unread.copies _ (hdecides.step hreserve rfl rfl)
  have hpublished := hcopied.step rfl rfl rfl
  have hwakes : producerStep s₂.exports (s₂.ring.setSlotSequence n (n + 1)) (.waking e n)
      = some (s₂.ring.setSlotSequence n (n + 1), .returning e (some n)) := by
    have hquiet := hcopied.quiet
    rw [producerStep, hquiet]
    rfl
  have hreturned := (hpublished.step hwakes rfl rfl).step rfl rfl rfl
  have hn : s₂.ring.enqueuePosition = n + 1 := hcopied.reserved
  have hk : s₂.ring.droppedEvents = s₁.ring.droppedEvents := hcopied.dropped
  rw [hdecides.dropped] at hk
  subst hk
  exact ⟨_, hn ▸ hreturned⟩

/-- A call at a full ring drops its event. -/
theorem Unread.drops {s : RingState Unit} {k : UInt32}
    (h : Unread s .idle traceRingCapacity k) :
    ∃ s', Unread s' .idle traceRingCapacity (k + 1) := by
  obtain ⟨s₁, e, hdecides⟩ := h.decides
  obtain ⟨g, hg⟩ := hdecides.reached
  have hinv : RingInv s₁ := ringInv_reachable hg.untraced
  have hbehind : s₁.seqAt traceRingCapacity < traceRingCapacity := by
    have hsame : s₁.seqAt traceRingCapacity = s₁.seqAt 0 := rfl
    rcases hinv.taken 0 (Nat.le_of_eq hdecides.released)
      (by rw [hdecides.reserved]; decide) with hzero | hone
    · rw [hsame, hzero]
      decide
    · rw [hsame, hone]
      decide
  have hdrop : producerStep s₁.exports s₁.ring
      (.deciding e traceRingCapacity (s₁.seqAt traceRingCapacity))
      = some ({ s₁.ring with droppedEvents := s₁.ring.droppedEvents + 1 },
        .returning e none) := by
    rw [producerStep]
    exact if_pos (by omega)
  have hreturned := (hdecides.step hdrop rfl rfl).step rfl rfl rfl
  have hn : s₁.ring.enqueuePosition = traceRingCapacity := hdecides.reserved
  have hk : s₁.ring.droppedEvents = k := hdecides.dropped
  subst hk
  exact ⟨_, hn ▸ hreturned⟩

/-- A lap of calls. -/
theorem unread_lap {n : Nat} (hn : n ≤ traceRingCapacity) : ∃ s, Unread s .idle n 0 := by
  induction n with
  | zero =>
      have hinit : RingInit { startState Unit with exports := ⟨true, false, false⟩ } :=
        ⟨rfl, fun _ => rfl, rfl, rfl⟩
      exact ⟨_, ⟨[], .init ⟨hinit, rfl⟩⟩, rfl, by decide, rfl, rfl, rfl, rfl⟩
  | succ n ih =>
      obtain ⟨s, hs⟩ := ih (Nat.le_of_succ_le hn)
      exact hs.publishes hn

/-- A ring that is full, with one event dropped and every call returned. -/
theorem drops_exact_full : ∃ p : RingState Unit × List (RingEvent Unit),
    (∀ t, p.1.producers t = .idle) ∧ p.1.ring.enqueuePosition = traceRingCapacity ∧
      p.1.ring.droppedEvents = 1 ∧ DropsExact p.1 p.2 := by
  obtain ⟨s, hs⟩ := unread_lap (Nat.le_refl traceRingCapacity)
  obtain ⟨s', hdropped⟩ := hs.drops
  obtain ⟨h, hr⟩ := hdropped.reached
  exact ⟨(s', h), fun _ => hdropped.producer, hdropped.reserved, hdropped.dropped,
    drops_exact hr⟩

end ScopeRing
