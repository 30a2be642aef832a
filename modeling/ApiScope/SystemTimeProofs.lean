import ApiScope.TransitionProofs
import Mathlib.Algebra.Order.Ring.Nat

/-! # The system time — a read that is never torn

    `GetSystemTime100nsFast` reads a 64-bit time that the kernel keeps in
    three words of a shared page, without a lock.  Every update writes
    `High2Time`, then `LowPart`, then `High1Time`; the reader goes the other
    way and starts over as long as the two high words differ.

    Each word is at any moment that of one update.  Read in that order, the
    three words come from updates `i ≤ j ≤ k`; the time does not decrease, so
    if the high words of `i` and `k` agree, `j` has that high word too, and
    what the reader puts together is the time of `j`. -/

namespace ScopeSystemTime

open ScopeTransition

/-! ## The words of a time -/

structure SharedSystemTime where
  lowPart : UInt32
  high1Time : Int32
  high2Time : Int32

def highWord (time : UInt64) : Int32 := (time >>> 32).toUInt32.toInt32

def lowWord (time : UInt64) : UInt32 := time.toUInt32

/-- `((uint64_t)(uint32_t)high1Time << 32) | lowPart`. -/
def combine (high1Time : Int32) (lowPart : UInt32) : UInt64 :=
  high1Time.toUInt32.toUInt64 <<< 32 ||| lowPart.toUInt64

theorem toNat_highWord (time : UInt64) :
    (highWord time).toUInt32.toNat = time.toNat / 2 ^ 32 := by
  have hlt := time.toNat_lt
  rw [highWord, UInt32.toUInt32_toInt32, UInt64.toNat_toUInt32, UInt64.toNat_shiftRight,
    Nat.shiftRight_eq_div_pow]
  show time.toNat / 2 ^ 32 % 2 ^ 32 = _
  omega

/-- Equal high words are equal numbers above the low 32 bits. -/
theorem highWord_eq_iff {t u : UInt64} :
    highWord t = highWord u ↔ t.toNat / 2 ^ 32 = u.toNat / 2 ^ 32 := by
  rw [← toNat_highWord, ← toNat_highWord]
  constructor
  · intro h
    rw [h]
  · intro h
    rw [← Int32.toInt32_toUInt32 (highWord t), UInt32.toNat_inj.mp h,
      Int32.toInt32_toUInt32]

/-- A time is put together from its own words. -/
theorem combine_words (time : UInt64) : combine (highWord time) (lowWord time) = time := by
  refine UInt64.toNat_inj.mp ?_
  have hlt := time.toNat_lt
  have hlow : (lowWord time).toNat < 2 ^ 32 := (lowWord time).toNat_lt
  have hval : (lowWord time).toNat = time.toNat % 2 ^ 32 := UInt64.toNat_toUInt32 _
  have hshift : ((highWord time).toUInt32.toUInt64 <<< 32).toNat
      = 2 ^ 32 * (time.toNat / 2 ^ 32) := by
    rw [UInt64.toNat_shiftLeft, UInt32.toNat_toUInt64, toNat_highWord, Nat.shiftLeft_eq]
    show time.toNat / 2 ^ 32 * 2 ^ 32 % 2 ^ 64 = _
    omega
  rw [combine, UInt64.toNat_or, UInt32.toNat_toUInt64, hshift,
    ← Nat.two_pow_add_eq_or_of_lt hlow]
  omega

/-- **BETWEEN**: between two times with one high word every time has it. -/
theorem highWord_between {t u w : UInt64} (htu : t ≤ u) (huw : u ≤ w)
    (h : highWord t = highWord w) : highWord u = highWord t := by
  have h1 : t.toNat ≤ u.toNat := UInt64.le_iff_toNat_le.mp htu
  have h2 : u.toNat ≤ w.toNat := UInt64.le_iff_toNat_le.mp huw
  have h3 := highWord_eq_iff.mp h
  refine highWord_eq_iff.mpr ?_
  omega

/-! ## Kernel and reader -/

/-- Where the kernel is in an update: the write it does next. -/
inductive Kernel where
  /-- The last update is complete. -/
  | resting (time : UInt64)
  | storingLow (time : UInt64)
  | storingHigh1 (time : UInt64)

/-- Where the reader is in `GetSystemTime100nsFast`: the read it does next. -/
inductive Reader where
  | idle
  | loadingHigh1
  | loadingLow (high1Time : Int32)
  | loadingHigh2 (high1Time : Int32) (lowPart : UInt32)
  | returning (value : UInt64)

structure TimeState where
  shared : SharedSystemTime
  kernel : Kernel
  reader : Reader

inductive TimeAction where
  /-- An update begins: the write of `High2Time`. -/
  | update (time : UInt64)
  /-- The next write of the update. -/
  | kernel
  | reader

/-- The next read of `GetSystemTime100nsFast`. -/
def getSystemTime100nsFast (systemTime : SharedSystemTime) : Reader → Reader
  | .idle => .loadingHigh1
  | .loadingHigh1 => .loadingLow systemTime.high1Time
  | .loadingLow high1Time => .loadingHigh2 high1Time systemTime.lowPart
  | .loadingHigh2 high1Time lowPart =>
      if high1Time ≠ systemTime.high2Time then .loadingHigh1
      else .returning (combine high1Time lowPart)
  | .returning _ => .idle

def timeStep (s : TimeState) : TimeAction → Option TimeState
  | .update time =>
      match s.kernel with
      | .resting last =>
          if last ≤ time then
            some { s with
              shared := { s.shared with high2Time := highWord time }
              kernel := .storingLow time }
          else none
      | _ => none
  | .kernel =>
      match s.kernel with
      | .resting _ => none
      | .storingLow time =>
          some { s with
            shared := { s.shared with lowPart := lowWord time }
            kernel := .storingHigh1 time }
      | .storingHigh1 time =>
          some { s with
            shared := { s.shared with high1Time := highWord time }
            kernel := .resting time }
  | .reader => some { s with reader := getSystemTime100nsFast s.shared s.reader }

/-- The three words of a time. -/
def wordsOf (time : UInt64) : SharedSystemTime where
  lowPart := lowWord time
  high1Time := highWord time
  high2Time := highWord time

/-- The state with one complete update and no call. -/
def startAt (start : UInt64) : TimeState where
  shared := wordsOf start
  kernel := .resting start
  reader := .idle

def timeSystem (start : UInt64) : System TimeState TimeAction where
  init := (· = startAt start)
  step := timeStep

/-! ## Histories -/

inductive TimeEvent where
  | began (time : UInt64)
  | completed
  /-- The first read of a pass. -/
  | pass
  | returned (value : UInt64)
  deriving DecidableEq

def observe (s : TimeState) : TimeAction → List TimeEvent
  | .update time => [.began time]
  | .kernel =>
      match s.kernel with
      | .storingHigh1 _ => [.completed]
      | _ => []
  | .reader =>
      match s.reader with
      | .loadingHigh1 => [.pass]
      | .returning value => [.returned value]
      | _ => []

/-- The times of the updates begun. -/
def begunTimes : List TimeEvent → List UInt64
  | [] => []
  | .began time :: h => time :: begunTimes h
  | _ :: h => begunTimes h

/-- The update sequence, from the one that was complete at the start. -/
def times (start : UInt64) (h : List TimeEvent) : List UInt64 := start :: begunTimes h

/-- How many updates have been completed. -/
def completions (h : List TimeEvent) : Nat := h.count .completed

/-- When the last pass in the history began, `n` updates were complete. -/
def LastPass (h : List TimeEvent) (n : Nat) : Prop :=
  ∃ g₁ g₂, h = g₁ ++ .pass :: g₂ ∧ .pass ∉ g₂ ∧ completions g₁ = n

/-- The value is the time of an update: not before the last one complete when
    the last pass began, nor behind the last one begun. -/
def Untorn (start : UInt64) (h : List TimeEvent) (value : UInt64) : Prop :=
  ∃ n j, LastPass h n ∧ n ≤ j ∧ j ≤ (begunTimes h).length ∧
    (times start h)[j]? = some value

/-! ## Histories that grow -/

theorem begunTimes_append (h o : List TimeEvent) :
    begunTimes (h ++ o) = begunTimes h ++ begunTimes o := by
  induction h with
  | nil => rfl
  | cons x h ih => cases x with
    | began time => exact congrArg (time :: ·) ih
    | completed => exact ih
    | pass => exact ih
    | returned value => exact ih

theorem times_append (start : UInt64) (h o : List TimeEvent) :
    times start (h ++ o) = times start h ++ begunTimes o := by
  rw [times, begunTimes_append]
  rfl

theorem completions_append (h o : List TimeEvent) :
    completions (h ++ o) = completions h + completions o := List.count_append ..

/-- The number of an update does not change. -/
theorem times_mono {start : UInt64} {h : List TimeEvent} (o : List TimeEvent) {i : Nat}
    {t : UInt64} (ht : (times start h)[i]? = some t) :
    (times start (h ++ o))[i]? = some t := by
  obtain ⟨hlt, -⟩ := List.getElem?_eq_some_iff.mp ht
  rw [times_append, List.getElem?_append_left hlt]
  exact ht

theorem LastPass.append {h : List TimeEvent} {n : Nat} (hl : LastPass h n)
    {o : List TimeEvent} (ho : .pass ∉ o) : LastPass (h ++ o) n := by
  obtain ⟨g₁, g₂, rfl, hno, hn⟩ := hl
  refine ⟨g₁, g₂ ++ o, by rw [List.append_assoc, List.cons_append], ?_, hn⟩
  rw [List.mem_append]
  rintro (hmem | hmem)
  · exact hno hmem
  · exact ho hmem

theorem lastPass_self (h : List TimeEvent) : LastPass (h ++ [.pass]) (completions h) :=
  ⟨h, [], rfl, List.not_mem_nil, rfl⟩

theorem Untorn.append {start : UInt64} {h : List TimeEvent} {value : UInt64}
    (hu : Untorn start h value) {o : List TimeEvent} (ho : .pass ∉ o) :
    Untorn start (h ++ o) value := by
  obtain ⟨n, j, hl, hnj, hj, ht⟩ := hu
  refine ⟨n, j, hl.append ho, hnj, ?_, times_mono o ht⟩
  rw [begunTimes_append, List.length_append]
  omega

/-! ## What the words and the reader hold -/

/-- Word by word: the high words are those of the last update completed and of
    the last one begun; the low word follows the write of the kernel. -/
inductive KernelOk (ts : List UInt64) (done : Nat) : SharedSystemTime → Kernel → Prop where
  | resting {time} (hlen : ts.length = done + 1) (htime : ts[done]? = some time) :
      KernelOk ts done (wordsOf time) (.resting time)
  | storingLow {old time} (hlen : ts.length = done + 2) (hold : ts[done]? = some old)
      (htime : ts[done + 1]? = some time) :
      KernelOk ts done ⟨lowWord old, highWord old, highWord time⟩ (.storingLow time)
  | storingHigh1 {old time} (hlen : ts.length = done + 2) (hold : ts[done]? = some old)
      (htime : ts[done + 1]? = some time) :
      KernelOk ts done ⟨lowWord time, highWord old, highWord time⟩ (.storingHigh1 time)

/-- What the reader has read in this pass: the words of an update complete when
    the pass began or later, and of that one or a later one. -/
def ReaderOk (start : UInt64) (h : List TimeEvent) : Reader → Prop
  | .idle => True
  | .loadingHigh1 => True
  | .loadingLow high1Time =>
      ∃ n i t, LastPass h n ∧ n ≤ i ∧ i ≤ completions h ∧
        (times start h)[i]? = some t ∧ high1Time = highWord t
  | .loadingHigh2 high1Time lowPart =>
      ∃ n i j t u, LastPass h n ∧ n ≤ i ∧ i ≤ j ∧ (times start h)[i]? = some t ∧
        (times start h)[j]? = some u ∧ high1Time = highWord t ∧ lowPart = lowWord u
  | .returning value => Untorn start h value

structure TimeInv (start : UInt64) (s : TimeState) (h : List TimeEvent) : Prop where
  sorted : (times start h).Pairwise (· ≤ ·)
  kernel : KernelOk (times start h) (completions h) s.shared s.kernel
  reader : ReaderOk start h s.reader
  returned : ∀ h₁ h₂ value, h = h₁ ++ .returned value :: h₂ → Untorn start h₁ value

/-- The reader's knowledge survives what the kernel does. -/
theorem ReaderOk.append {start : UInt64} {h : List TimeEvent} {r : Reader}
    (hr : ReaderOk start h r) {o : List TimeEvent} (ho : .pass ∉ o) :
    ReaderOk start (h ++ o) r := by
  cases r with
  | idle => trivial
  | loadingHigh1 => trivial
  | loadingLow high1Time =>
      obtain ⟨n, i, t, hl, hni, hi, ht, hw⟩ := hr
      refine ⟨n, i, t, hl.append ho, hni, ?_, times_mono o ht, hw⟩
      rw [completions_append]
      omega
  | loadingHigh2 high1Time lowPart =>
      obtain ⟨n, i, j, t, u, hl, hni, hij, ht, hu, hw⟩ := hr
      exact ⟨n, i, j, t, u, hl.append ho, hni, hij, times_mono o ht, times_mono o hu, hw⟩
  | returning value => exact Untorn.append hr ho

/-- A value returned earlier stays one returned earlier. -/
theorem returned_append {start : UInt64} {h o : List TimeEvent}
    (hold : ∀ h₁ h₂ value, h = h₁ ++ .returned value :: h₂ → Untorn start h₁ value)
    (ho : ∀ value, o = [.returned value] → Untorn start h value)
    (hone : o.length ≤ 1) :
    ∀ h₁ h₂ value, h ++ o = h₁ ++ .returned value :: h₂ → Untorn start h₁ value := by
  intro h₁ h₂ value heq
  rcases List.append_eq_append_iff.mp heq with ⟨k, hk, ho'⟩ | ⟨k, hk, ho'⟩
  · -- the event lies in the part that is new
    rw [ho', List.length_append, List.length_cons] at hone
    have hk0 : k = [] := List.eq_nil_of_length_eq_zero (by omega)
    have h20 : h₂ = [] := List.eq_nil_of_length_eq_zero (by omega)
    rw [hk0, List.nil_append, h20] at ho'
    rw [hk, hk0, List.append_nil]
    exact ho value ho'
  · cases k with
    | nil =>
        rw [List.nil_append] at ho'
        rw [List.append_nil] at hk
        have h20 : h₂ = [] := by
          rw [← ho', List.length_cons] at hone
          exact List.eq_nil_of_length_eq_zero (by omega)
        rw [h20] at ho'
        rw [← hk]
        exact ho value ho'.symm
    | cons x k =>
        obtain ⟨rfl, -⟩ := List.cons.inj ho'
        exact hold h₁ k value hk

section Words

variable {ts : List UInt64} {done : Nat} {shared : SharedSystemTime} {kernel : Kernel}

theorem KernelOk.high1 (h : KernelOk ts done shared kernel) :
    ∃ t, ts[done]? = some t ∧ shared.high1Time = highWord t := by
  cases h with
  | resting _ htime => exact ⟨_, htime, rfl⟩
  | storingLow _ hold _ => exact ⟨_, hold, rfl⟩
  | storingHigh1 _ hold _ => exact ⟨_, hold, rfl⟩

theorem KernelOk.low (h : KernelOk ts done shared kernel) :
    ∃ l t, done ≤ l ∧ ts[l]? = some t ∧ shared.lowPart = lowWord t := by
  cases h with
  | resting _ htime => exact ⟨done, _, Nat.le_refl _, htime, rfl⟩
  | storingLow _ hold _ => exact ⟨done, _, Nat.le_refl _, hold, rfl⟩
  | storingHigh1 _ _ htime => exact ⟨done + 1, _, Nat.le_succ _, htime, rfl⟩

theorem KernelOk.high2 (h : KernelOk ts done shared kernel) :
    ∃ l t, ts.length = l + 1 ∧ ts[l]? = some t ∧ shared.high2Time = highWord t := by
  cases h with
  | resting hlen htime => exact ⟨done, _, hlen, htime, rfl⟩
  | storingLow hlen _ htime => exact ⟨done + 1, _, hlen, htime, rfl⟩
  | storingHigh1 hlen _ htime => exact ⟨done + 1, _, hlen, htime, rfl⟩

/-- The sequence is in order. -/
theorem le_of_index {i j : Nat} {t u : UInt64} (hsorted : ts.Pairwise (· ≤ ·))
    (hi : ts[i]? = some t) (hj : ts[j]? = some u) (hij : i ≤ j) : t ≤ u := by
  obtain ⟨hilt, rfl⟩ := List.getElem?_eq_some_iff.mp hi
  obtain ⟨hjlt, rfl⟩ := List.getElem?_eq_some_iff.mp hj
  rcases Nat.lt_or_eq_of_le hij with hlt | rfl
  · exact List.pairwise_iff_getElem.mp hsorted i j hilt hjlt hlt
  · exact UInt64.le_refl _

end Words

/-! ## The steps -/

section Steps

variable {start : UInt64} {s : TimeState} {h : List TimeEvent}

/-- The kernel begins an update. -/
theorem timeInv_update (hi : TimeInv start s h) {last time : UInt64}
    (hk : s.kernel = .resting last) (hle : last ≤ time) :
    TimeInv start
      { s with
        shared := { s.shared with high2Time := highWord time }
        kernel := .storingLow time } (h ++ [.began time]) := by
  have hkernel := hi.kernel
  rw [hk] at hkernel
  have htimes : times start (h ++ [.began time]) = times start h ++ [time] :=
    times_append start h [.began time]
  have hdone : completions (h ++ [.began time]) = completions h := completions_append h _
  have hnopass : TimeEvent.pass ∉ [TimeEvent.began time] := by simp
  obtain ⟨shared, kernel, reader⟩ := s
  cases hkernel with
  | resting hlen hlast =>
      refine ⟨?_, ?_, hi.reader.append hnopass,
        returned_append hi.returned (fun v hv => nomatch hv) (Nat.le_refl 1)⟩
      · rw [htimes]
        refine List.pairwise_append.mpr ⟨hi.sorted, List.pairwise_singleton _ _, ?_⟩
        intro t ht u hu
        rw [List.mem_singleton.mp hu]
        obtain ⟨i, hilt, hget⟩ := List.mem_iff_getElem.mp ht
        have hi' : (times start h)[i]? = some t := List.getElem?_eq_some_iff.mpr ⟨hilt, hget⟩
        exact UInt64.le_trans (le_of_index hi.sorted hi' hlast (by omega)) hle
      · rw [htimes, hdone]
        refine .storingLow ?_ ?_ ?_
        · rw [List.length_append, hlen]
          rfl
        · rw [List.getElem?_append_left (by omega)]
          exact hlast
        · rw [List.getElem?_append_right (by omega), hlen, Nat.sub_self]
          rfl

/-- The two other writes of an update. -/
theorem timeInv_kernel (hi : TimeInv start s h) {s' : TimeState}
    (hs : timeStep s .kernel = some s') : TimeInv start s' (h ++ observe s .kernel) := by
  have hkernel := hi.kernel
  obtain ⟨shared, kernel, reader⟩ := s
  cases hkernel with
  | resting hlen htime => cases hs
  | storingLow hlen hold htime =>
      cases hs
      show TimeInv start _ (h ++ [])
      rw [List.append_nil]
      exact ⟨hi.sorted, .storingHigh1 hlen hold htime, hi.reader, hi.returned⟩
  | storingHigh1 hlen hold htime =>
      cases hs
      have htimes : times start (h ++ [.completed]) = times start h :=
        (times_append start h [.completed]).trans (List.append_nil _)
      have hdone : completions (h ++ [.completed]) = completions h + 1 :=
        completions_append h _
      have hnopass : TimeEvent.pass ∉ [TimeEvent.completed] := by simp
      refine ⟨?_, ?_, hi.reader.append hnopass,
        returned_append hi.returned (fun v hv => nomatch hv) (Nat.le_refl 1)⟩
      · show (times start (h ++ [.completed])).Pairwise (· ≤ ·)
        rw [htimes]
        exact hi.sorted
      · show KernelOk (times start (h ++ [.completed])) (completions (h ++ [.completed])) _ _
        rw [htimes, hdone]
        exact .resting hlen htime

/-- What the third read decides: the value is the time whose low word was read. -/
theorem untorn_of_match (hi : TimeInv start s h) {high1Time : Int32} {lowPart : UInt32}
    (hr : ReaderOk start h (.loadingHigh2 high1Time lowPart))
    (hmatch : high1Time = s.shared.high2Time) :
    Untorn start h (combine high1Time lowPart) := by
  obtain ⟨n, i, j, t, u, hl, hni, hij, ht, hu, hhigh, hlow⟩ := hr
  obtain ⟨k, w, hlen, hw, hhigh2⟩ := hi.kernel.high2
  obtain ⟨hjlt, -⟩ := List.getElem?_eq_some_iff.mp hu
  have hjk : j ≤ k := by omega
  -- the updates i ≤ j ≤ k of the three reads
  have htu := le_of_index hi.sorted ht hu hij
  have huw := le_of_index hi.sorted hu hw hjk
  have hsame : highWord u = highWord t :=
    highWord_between htu huw (hhigh.symm.trans (hmatch.trans hhigh2))
  have hvalue : combine high1Time lowPart = u := by
    rw [hhigh, hlow, ← hsame, combine_words]
  refine ⟨n, j, hl, by omega, ?_, by rw [hvalue]; exact hu⟩
  have hlength : (times start h).length = (begunTimes h).length + 1 := rfl
  omega

/-- A move of the reader that begins no pass and returns nothing. -/
theorem TimeInv.move (hi : TimeInv start s h) {r : Reader} (hr : ReaderOk start h r) :
    TimeInv start { s with reader := r } (h ++ []) := by
  rw [List.append_nil]
  exact ⟨hi.sorted, hi.kernel, hr, hi.returned⟩

/-- A move of the reader that an observer sees; the updates are as before. -/
theorem TimeInv.seen (hi : TimeInv start s h) {r : Reader} {x : TimeEvent}
    (htimes : begunTimes [x] = []) (hdone : completions [x] = 0)
    (hr : ReaderOk start (h ++ [x]) r)
    (hreturned : ∀ value, [x] = [.returned value] → Untorn start h value) :
    TimeInv start { s with reader := r } (h ++ [x]) := by
  refine ⟨?_, ?_, hr, returned_append hi.returned hreturned (Nat.le_refl 1)⟩
  · rw [times_append, htimes, List.append_nil]
    exact hi.sorted
  · rw [times_append, htimes, List.append_nil, completions_append, hdone]
    exact hi.kernel

/-- The reads. -/
theorem timeInv_reader (hi : TimeInv start s h) :
    TimeInv start { s with reader := getSystemTime100nsFast s.shared s.reader }
      (h ++ observe s .reader) := by
  have hr := hi.reader
  obtain ⟨shared, kernel, reader⟩ := s
  cases reader with
  | idle => exact hi.move trivial
  | loadingHigh1 =>
      obtain ⟨t, ht, hhigh1⟩ := hi.kernel.high1
      refine hi.seen rfl rfl ⟨completions h, completions h, t, lastPass_self h,
        Nat.le_refl _, ?_, times_mono _ ht, hhigh1⟩ (fun v hv => nomatch hv)
      rw [completions_append]
      exact Nat.le_add_right _ _
  | loadingLow high1Time =>
      obtain ⟨n, i, t, hl, hni, hdone, ht, hhigh⟩ := hr
      obtain ⟨j, u, hj, hu, hlow⟩ := hi.kernel.low
      exact hi.move ⟨n, i, j, t, u, hl, hni, by omega, ht, hu, hhigh, hlow⟩
  | loadingHigh2 high1Time lowPart =>
      show TimeInv start
        ⟨shared, kernel, if high1Time ≠ shared.high2Time then .loadingHigh1 else _⟩ (h ++ [])
      split
      next => exact hi.move (r := .loadingHigh1) trivial
      next hmatch =>
        exact hi.move (r := .returning _) (untorn_of_match hi hr (not_not.mp hmatch))
  | returning value =>
      refine hi.seen rfl rfl trivial fun v hv => ?_
      cases hv
      exact hr

end Steps

/-! ## Timestamps are never torn -/

theorem timeInv_start (start : UInt64) : TimeInv start (startAt start) [] := by
  refine ⟨List.pairwise_singleton _ _, .resting rfl rfl, trivial, ?_⟩
  intro h₁ h₂ value heq
  exact absurd heq.symm (List.append_ne_nil_of_right_ne_nil _ (List.cons_ne_nil _ _))

theorem timeInv_step {start : UInt64} {s s' : TimeState} {h : List TimeEvent}
    {a : TimeAction} (hi : TimeInv start s h) (hs : timeStep s a = some s') :
    TimeInv start s' (h ++ observe s a) := by
  cases a with
  | update time =>
      rw [timeStep] at hs
      split at hs
      next last hk =>
        split at hs
        next hle =>
          cases hs
          exact timeInv_update hi hk hle
        next => cases hs
      next => cases hs
  | kernel => exact timeInv_kernel hi hs
  | reader =>
      cases hs
      exact timeInv_reader hi

/-- **NEVER TORN**: in every interleaving of updates and reads, a returned value
    is a time of the update sequence, no earlier than the last update complete
    when the last pass began and no later than the last update begun. -/
theorem timestamps_never_torn {start : UInt64} {p : TimeState × List TimeEvent}
    (h : Reachable ((timeSystem start).traced observe) p) :
    ∀ h₁ h₂ value, p.2 = h₁ ++ .returned value :: h₂ →
      ∃ g₁ g₂ j, h₁ = g₁ ++ .pass :: g₂ ∧ .pass ∉ g₂ ∧ completions g₁ ≤ j ∧
        j ≤ (begunTimes h₁).length ∧ (times start h₁)[j]? = some value := by
  have hinv : TimeInv start p.1 p.2 :=
    h.traced_invariant (Q := fun _ => True) (fun _ _ => trivial)
      (fun s hs => by rw [hs]; exact timeInv_start start)
      fun s h a s' _ hi hs => timeInv_step hi hs
  intro h₁ h₂ value heq
  obtain ⟨n, j, ⟨g₁, g₂, hpass, hno, hn⟩, hnj, hj, ht⟩ := hinv.returned h₁ h₂ value heq
  exact ⟨g₁, g₂, j, hpass, hno, hn ▸ hnj, hj, ht⟩

/-- A carry into the high word between the first two reads: the pass is
    repeated, and the value is the new time. -/
theorem timestamps_never_torn_carry :
    ∃ g₁ g₂ j, [.pass, .began 0x100000000, .completed, .pass] = g₁ ++ .pass :: g₂ ∧
      .pass ∉ g₂ ∧ completions g₁ ≤ j ∧ j ≤ 1 ∧
      (times 0xFFFFFFFF [.pass, .began 0x100000000, .completed, .pass])[j]?
        = some 0x100000000 := by
  have hstart : Reachable ((timeSystem 0xFFFFFFFF).traced observe)
      (startAt 0xFFFFFFFF, []) := .init ⟨rfl, rfl⟩
  have hrun := hstart.exec (fun _ _ => trivial)
    [.reader, .reader, .update 0x100000000, .kernel, .reader, .reader, .kernel,
      .reader, .reader, .reader, .reader] rfl
  exact timestamps_never_torn hrun [.pass, .began 0x100000000, .completed, .pass] []
    0x100000000 rfl

end ScopeSystemTime
