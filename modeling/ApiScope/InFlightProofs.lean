import Mathlib.Algebra.Order.BigOperators.Group.List
import Mathlib.Algebra.Order.Ring.Nat

/-! # Calls in flight — threads inside intercepted calls, and their counter

    A patched function sends its callers through a handler.  Between the
    patch and the caller's next instruction a thread depends on code that
    somebody may want to free: the handler, and the code the handler calls.
    The handler counts the calls that are inside its body in a shared word.

    This file is about such threads and such a counter, for any set of
    patched entries, any handler code and any other code that supports it.
    A thread is a stack of intercepted calls, the innermost first; only calls
    in their body can have another call above them.  The main fact is
    `Crowd.Inv.quiet`: a zero counter, and no instruction pointer in the handler
    or in a patched entry, leave no thread that depends on any of the code. -/

namespace ScopeInFlight

variable {A : Type}

/-- The stages of one intercepted call. -/
inductive Stage where
  /-- In the patched entry, before the handler. -/
  | entry
  /-- In the handler, before it counts the call. -/
  | prologue
  /-- Counted: in the handler or in anything it calls. -/
  | body
  /-- In the handler, after it took the call off the counter. -/
  | epilogue
  deriving DecidableEq

/-- An intercepted call in progress, with the return addresses pushed in it. -/
structure Frame (A : Type) where
  stage : Stage
  returns : List A

/-- A thread; `returns` are those pushed outside all intercepted calls. -/
structure Thread (A : Type) where
  id : Nat
  rip : A
  returns : List A
  frames : List (Frame A)

/-- Which addresses are patched entries, handler code, and code of either
    the handler or what supports it. -/
structure Layout (A : Type) where
  entry : A → Bool
  handler : A → Bool
  support : A → Bool

inductive ThreadAction (A : Type) where
  /-- Execution inside the current stage. -/
  | move (rip : A) (returns : List A)
  /-- Control reaches a patched entry. -/
  | enter (rip : A)
  /-- The patch jumps to the handler. -/
  | dispatch (rip : A)
  | increment
  | decrement (rip : A) (returns : List A)
  /-- The handler returns to its caller. -/
  | leave

/-- Where a call's own code may be, by its stage. -/
def Stage.allows (L : Layout A) : Stage → A → List A → Bool
  | .entry, rip, returns => L.entry rip && returns.all L.handler
  | .prologue, rip, returns => L.handler rip && returns.all L.handler
  | .body, _, _ => true
  | .epilogue, rip, returns => L.handler rip && returns.all L.handler

/-- Only code outside all calls, or the body of a call, calls functions. -/
def Thread.mayCall (t : Thread A) : Bool :=
  match t.frames with
  | [] => true
  | f :: _ => f.stage = .body

/-- One step of a thread, if it is there to be taken. -/
def threadStep (L : Layout A) (t : Thread A) :
    ThreadAction A → Option (Thread A)
  | .move rip returns =>
      match t.frames with
      | [] =>
          if L.support rip = false ∧ returns.all (fun r => !L.support r) then
            some { t with rip, returns }
          else none
      | f :: fs =>
          if f.stage.allows L rip returns then
            some { t with rip, frames := ⟨f.stage, returns⟩ :: fs }
          else none
  | .enter rip =>
      if t.mayCall ∧ L.entry rip then
        some { t with rip, frames := ⟨.entry, []⟩ :: t.frames }
      else none
  | .dispatch rip =>
      match t.frames with
      | ⟨.entry, _⟩ :: fs =>
          if L.handler rip then
            some { t with rip, frames := ⟨.prologue, []⟩ :: fs }
          else none
      | _ => none
  | .increment =>
      match t.frames with
      | ⟨.prologue, returns⟩ :: fs =>
          some { t with frames := ⟨.body, returns⟩ :: fs }
      | _ => none
  | .decrement rip returns =>
      match t.frames with
      | ⟨.body, _⟩ :: fs =>
          if L.handler rip ∧ returns.all L.handler then
            some { t with rip, frames := ⟨.epilogue, returns⟩ :: fs }
          else none
      | _ => none
  | .leave =>
      match t.frames with
      | ⟨.epilogue, _⟩ :: [] =>
          match t.returns with
          | r :: returns => some { t with rip := r, returns, frames := [] }
          | [] => none
      | ⟨.epilogue, _⟩ :: f :: fs =>
          match f.returns with
          | r :: returns =>
              some { t with rip := r, frames := ⟨f.stage, returns⟩ :: fs }
          | [] => none
      | _ => none

/-- The calls of a stack that are in their body. -/
def bodyCount : List (Frame A) → Nat
  | [] => 0
  | f :: fs => (if f.stage = .body then 1 else 0) + bodyCount fs

/-- The calls of a thread that the counter counts. -/
def Thread.counted (t : Thread A) : Nat := bodyCount t.frames

/-- All the addresses a thread is due to return to. -/
def Thread.pending (t : Thread A) : List A :=
  t.frames.flatMap Frame.returns ++ t.returns

/-- What an action does to the counter. -/
def ThreadAction.count {w : Nat} : ThreadAction A → BitVec w → BitVec w
  | .increment, n => n + 1#w
  | .decrement _ _, n => n - 1#w
  | _, n => n

/-! ## One thread -/

/-- The shape every thread keeps: calls below another are in their body, the
    innermost one is where its stage allows, and outside all calls the thread
    has nothing to do with the support code. -/
structure Thread.Sound (L : Layout A) (t : Thread A) : Prop where
  outside : ∀ r ∈ t.returns, L.support r = false
  idle : t.frames = [] → L.support t.rip = false
  top : ∀ f fs, t.frames = f :: fs → f.stage.allows L t.rip f.returns = true
  below : ∀ f ∈ t.frames.tail, f.stage = .body

/-- A thread that depends on none of the code. -/
structure Thread.Quiet (L : Layout A) (t : Thread A) : Prop where
  frames : t.frames = []
  rip : L.support t.rip = false ∧ L.handler t.rip = false ∧ L.entry t.rip = false
  pending : ∀ r ∈ t.pending, L.support r = false

/-- A stack under a new innermost call that is where its stage allows. -/
theorem Thread.Sound.push {L : Layout A} {t : Thread A} (h : t.Sound L)
    {rip : A} {f : Frame A} {fs : List (Frame A)}
    (hf : f.stage.allows L rip f.returns = true)
    (hfs : ∀ g ∈ fs, g.stage = .body) :
    Thread.Sound L { t with rip, frames := f :: fs } where
  outside := h.outside
  idle := by
    intro hnil
    cases hnil
  top := by
    intro g gs heq
    obtain ⟨rfl, -⟩ := List.cons.inj heq
    exact hf
  below := hfs

/-- The stack of a thread that may call is all bodies. -/
theorem Thread.Sound.bodies {L : Layout A} {t : Thread A} (h : t.Sound L)
    (hc : t.mayCall = true) : ∀ f ∈ t.frames, f.stage = .body := by
  obtain ⟨id, rip, returns, frames⟩ := t
  cases frames with
  | nil => intro f hf; cases hf
  | cons g gs =>
      have hg : g.stage = .body := of_decide_eq_true hc
      intro f hf
      rcases List.mem_cons.mp hf with rfl | hf
      · exact hg
      · exact h.below f hf

theorem Thread.Sound.tail {L : Layout A} {t : Thread A} (h : t.Sound L)
    {f : Frame A} {fs : List (Frame A)} (hfs : t.frames = f :: fs) :
    ∀ g ∈ fs, g.stage = .body := by
  have hb := h.below
  rwa [hfs] at hb

/-- A body allows anything. -/
theorem allows_body {L : Layout A} {f : Frame A} (hf : f.stage = .body) (rip : A)
    (returns : List A) : f.stage.allows L rip returns = true := by
  rw [hf]
  rfl

/-- **THREAD STEP**: every step keeps the shape. -/
theorem threadStep_sound {L : Layout A} {t t' : Thread A} {a : ThreadAction A}
    (hs : threadStep L t a = some t') (h : t.Sound L) : t'.Sound L := by
  cases a with
  | move rip returns =>
      rw [threadStep] at hs
      split at hs
      next hf =>
        obtain ⟨⟨hrip, hret⟩, heq⟩ := Option.ite_none_right_eq_some.mp hs
        cases heq
        refine ⟨?_, fun _ => hrip, ?_, ?_⟩
        · intro r hr
          exact Bool.not_eq_true' _ ▸ List.all_eq_true.mp hret r hr
        · intro f fs heq
          cases hf.symm.trans heq
        · intro f hmem
          have hmem' : f ∈ t.frames.tail := hmem
          rw [hf] at hmem'
          cases hmem'
      next f fs hf =>
        obtain ⟨hal, heq⟩ := Option.ite_none_right_eq_some.mp hs
        cases heq
        exact h.push hal (h.tail hf)
  | enter rip =>
      obtain ⟨⟨hcall, hentry⟩, heq⟩ := Option.ite_none_right_eq_some.mp hs
      cases heq
      refine h.push ?_ (h.bodies hcall)
      simp [Stage.allows, hentry]
  | dispatch rip =>
      rw [threadStep] at hs
      split at hs
      next returns fs hf =>
        obtain ⟨hh, heq⟩ := Option.ite_none_right_eq_some.mp hs
        cases heq
        refine h.push ?_ (h.tail hf)
        simp [Stage.allows, hh]
      next => cases hs
  | increment =>
      rw [threadStep] at hs
      split at hs
      next returns fs hf =>
        cases hs
        exact h.push rfl (h.tail hf)
      next => cases hs
  | decrement rip returns =>
      rw [threadStep] at hs
      split at hs
      next rs fs hf =>
        obtain ⟨⟨hh, hret⟩, heq⟩ := Option.ite_none_right_eq_some.mp hs
        cases heq
        refine h.push ?_ (h.tail hf)
        simp only [Stage.allows, hh, hret, Bool.and_self]
      next => cases hs
  | leave =>
      rw [threadStep] at hs
      split at hs
      next rs hf =>
        -- the outermost call: the thread is outside again
        split at hs
        next r returns hr =>
          cases hs
          have hout := h.outside
          rw [hr] at hout
          refine ⟨?_, ?_, ?_, ?_⟩
          · intro r' hr'
            exact hout r' (List.mem_cons_of_mem _ hr')
          · intro _
            exact hout r List.mem_cons_self
          · intro f fs heq
            cases heq
          · intro f hmem
            cases hmem
        next => cases hs
      next rs f fs hf =>
        -- a nested call: the caller is a body again
        split at hs
        next r returns hr =>
          cases hs
          have hall := h.tail hf
          have hbody : f.stage = .body := hall f List.mem_cons_self
          refine h.push (allows_body hbody _ _) ?_
          intro g hg
          exact hall g (List.mem_cons_of_mem _ hg)
        next => cases hs
      next => cases hs

/-- What a step does to the number of counted calls. -/
inductive Counts {w : Nat} (a : ThreadAction A) (n n' : Nat) : Prop where
  | same : n' = n → (∀ c : BitVec w, a.count c = c) → Counts a n n'
  | up : n' = n + 1 → (∀ c : BitVec w, a.count c = c + 1#w) → Counts a n n'
  | down : n = n' + 1 → (∀ c : BitVec w, a.count c = c - 1#w) → Counts a n n'

/-- **COUNTING**: the counter moves exactly as the counted calls do. -/
theorem threadStep_counts (w : Nat) {L : Layout A} {t t' : Thread A}
    {a : ThreadAction A} (hs : threadStep L t a = some t') :
    Counts (w := w) a t.counted t'.counted := by
  rw [Thread.counted, Thread.counted]
  cases a with
  | move rip returns =>
      refine .same ?_ fun _ => rfl
      rw [threadStep] at hs
      split at hs
      next hf =>
        obtain ⟨-, heq⟩ := Option.ite_none_right_eq_some.mp hs
        cases heq
        rfl
      next f fs hf =>
        obtain ⟨-, heq⟩ := Option.ite_none_right_eq_some.mp hs
        cases heq
        rw [hf]
        rfl
  | enter rip =>
      refine .same ?_ fun _ => rfl
      obtain ⟨-, heq⟩ := Option.ite_none_right_eq_some.mp hs
      cases heq
      exact Nat.zero_add _
  -- between the jump and the increment a call is in the handler, but not counted
  | dispatch rip =>
      refine .same ?_ fun _ => rfl
      rw [threadStep] at hs
      split at hs
      next returns fs hf =>
        obtain ⟨-, heq⟩ := Option.ite_none_right_eq_some.mp hs
        cases heq
        rw [hf]
        rfl
      next => cases hs
  | increment =>
      refine .up ?_ fun _ => rfl
      rw [threadStep] at hs
      split at hs
      next returns fs hf =>
        cases hs
        rw [hf]
        show 1 + bodyCount fs = 0 + bodyCount fs + 1
        omega
      next => cases hs
  | decrement rip returns =>
      refine .down ?_ fun _ => rfl
      rw [threadStep] at hs
      split at hs
      next rs fs hf =>
        obtain ⟨-, heq⟩ := Option.ite_none_right_eq_some.mp hs
        cases heq
        rw [hf]
        show 1 + bodyCount fs = 0 + bodyCount fs + 1
        omega
      next => cases hs
  | leave =>
      refine .same ?_ fun _ => rfl
      rw [threadStep] at hs
      split at hs
      next rs hf =>
        split at hs
        next =>
          cases hs
          rw [hf]
          rfl
        next => cases hs
      next rs f fs hf =>
        split at hs
        next =>
          cases hs
          rw [hf]
          exact (Nat.zero_add _).symm
        next => cases hs
      next => cases hs

/-- A thread with no counted call and its instruction pointer clear of the
    handler and of the patched entries depends on none of the code. -/
theorem Thread.Sound.quiet {L : Layout A} {t : Thread A} (h : t.Sound L)
    (hcount : t.counted = 0) (hh : L.handler t.rip = false)
    (he : L.entry t.rip = false) : t.Quiet L := by
  have hnil : t.frames = [] := by
    obtain ⟨id, rip, returns, frames⟩ := t
    cases frames with
    | nil => rfl
    | cons f fs =>
        exfalso
        have htop := h.top f fs rfl
        have hcount' : (if f.stage = .body then 1 else 0) + bodyCount fs = 0 := hcount
        cases hst : f.stage with
        | body =>
            rw [if_pos hst] at hcount'
            omega
        | _ =>
            rw [hst] at htop
            simp only [Stage.allows, hh, he, Bool.false_and] at htop
            cases htop
  refine ⟨hnil, ⟨h.idle hnil, hh, he⟩, ?_⟩
  intro r hr
  rw [Thread.pending, hnil] at hr
  exact h.outside r hr

/-- A change of the code around a thread: patched entries it stands in and
    handler code stay, and support code that appears is code the thread has
    nothing to do with. -/
theorem Thread.Sound.relayout {L L' : Layout A} {t : Thread A} (h : t.Sound L)
    (hentry : L.entry t.rip = true → L'.entry t.rip = true)
    (hhandler : L'.handler = L.handler)
    (hret : ∀ r ∈ t.returns, L'.support r = true → L.support r = true)
    (hrip : t.frames = [] → L'.support t.rip = true → L.support t.rip = true) :
    t.Sound L' where
  outside := by
    intro r hr
    refine Bool.eq_false_iff.mpr ?_
    intro hs
    exact Bool.false_ne_true ((h.outside r hr).symm.trans (hret r hr hs))
  idle := by
    intro hnil
    refine Bool.eq_false_iff.mpr ?_
    intro hs
    exact Bool.false_ne_true ((h.idle hnil).symm.trans (hrip hnil hs))
  top := by
    intro f fs hf
    have htop := h.top f fs hf
    cases hst : f.stage with
    | body => rfl
    | entry =>
        rw [hst] at htop
        simp only [Stage.allows, Bool.and_eq_true] at htop ⊢
        rw [hhandler]
        exact ⟨hentry htop.1, htop.2⟩
    | _ =>
        rw [hst] at htop
        simp only [Stage.allows] at htop ⊢
        rw [hhandler]
        exact htop
  below := h.below

/-! ## A crowd of threads and the counter -/

/-- All threads; `abandoned` counts the calls whose thread ended in them. -/
structure Crowd (A : Type) where
  threads : List (Thread A)
  abandoned : Nat

inductive CrowdAction (A : Type) where
  /-- A thread starts outside. -/
  | spawn (id : Nat) (rip : A) (returns : List A)
  /-- A thread ends, wherever it is. -/
  | terminate (i : Nat)
  | act (i : Nat) (a : ThreadAction A)

/-- One step of the crowd with the counter. -/
def crowdStep {w : Nat} (L : Layout A) (c : Crowd A) (n : BitVec w) :
    CrowdAction A → Option (Crowd A × BitVec w)
  | .spawn id rip returns =>
      if L.support rip = false ∧ returns.all (fun r => !L.support r) then
        some ({ c with threads := ⟨id, rip, returns, []⟩ :: c.threads }, n)
      else none
  | .terminate i =>
      match c.threads[i]? with
      | none => none
      | some t =>
          some (⟨c.threads.eraseIdx i, c.abandoned + t.counted⟩, n)
  | .act i a =>
      match c.threads[i]? with
      | none => none
      | some t =>
          match threadStep L t a with
          | none => none
          | some t' => some ({ c with threads := c.threads.set i t' }, a.count n)

/-- The calls begun and not returned from that were counted. -/
def Crowd.nested (c : Crowd A) : Nat :=
  (c.threads.map Thread.counted).sum + c.abandoned

/-- The shape of every thread, and what the counter holds. -/
structure Crowd.Inv {w : Nat} (L : Layout A) (c : Crowd A) (n : BitVec w) :
    Prop where
  sound : ∀ t ∈ c.threads, t.Sound L
  counter : n = BitVec.ofNat w c.nested

/-- The thread at an index, between those before and after it. -/
theorem split_threads {l : List (Thread A)} {i : Nat} {t : Thread A}
    (h : l[i]? = some t) : ∃ before after, l = before ++ t :: after ∧
      l.eraseIdx i = before ++ after ∧
      ∀ t', l.set i t' = before ++ t' :: after := by
  induction l generalizing i with
  | nil => cases h
  | cons x xs ih =>
      cases i with
      | zero =>
          cases Option.some.inj h
          exact ⟨[], xs, rfl, rfl, fun _ => rfl⟩
      | succ i =>
          obtain ⟨before, after, hl, herase, hset⟩ := ih h
          refine ⟨x :: before, after, ?_, ?_, ?_⟩
          · rw [hl, List.cons_append]
          · rw [List.eraseIdx_cons_succ, herase, List.cons_append]
          · intro t'
            rw [List.set_cons_succ, hset t', List.cons_append]

/-- The counter follows a change of the number it holds. -/
theorem count_ofNat {w : Nat} {a : ThreadAction A} {m m' : Nat} (rest : Nat)
    (h : Counts (w := w) a m m') :
    a.count (BitVec.ofNat w (m + rest)) = BitVec.ofNat w (m' + rest) := by
  cases h with
  | same heq hc => rw [hc, heq]
  | up heq hc =>
      rw [hc, heq, Nat.add_right_comm, BitVec.ofNat_add (m + rest) 1]
  | down heq hc =>
      rw [hc, heq, Nat.add_right_comm, BitVec.ofNat_add (m' + rest) 1,
        BitVec.add_sub_cancel]

/-- What a step of the crowd can be. -/
inductive CrowdStep {w : Nat} (L : Layout A) (c : Crowd A) (n : BitVec w) :
    CrowdAction A → Crowd A → BitVec w → Prop where
  | spawn {id rip returns} (hrip : L.support rip = false)
      (hreturns : returns.all (fun r => !L.support r) = true) :
      CrowdStep L c n (.spawn id rip returns)
        { c with threads := ⟨id, rip, returns, []⟩ :: c.threads } n
  | terminate {i t} (ht : c.threads[i]? = some t) :
      CrowdStep L c n (.terminate i) ⟨c.threads.eraseIdx i, c.abandoned + t.counted⟩ n
  | act {i a t t'} (ht : c.threads[i]? = some t) (hstep : threadStep L t a = some t') :
      CrowdStep L c n (.act i a) { c with threads := c.threads.set i t' } (a.count n)

theorem crowdStep_cases {w : Nat} {L : Layout A} {c c' : Crowd A} {n n' : BitVec w}
    {a : CrowdAction A} (hs : crowdStep L c n a = some (c', n')) :
    CrowdStep L c n a c' n' := by
  cases a with
  | spawn id rip returns =>
      obtain ⟨⟨hrip, hreturns⟩, heq⟩ := Option.ite_none_right_eq_some.mp hs
      cases heq
      exact .spawn hrip hreturns
  | terminate i =>
      rw [crowdStep] at hs
      cases ht : c.threads[i]? with
      | none => rw [ht] at hs; cases hs
      | some t =>
          rw [ht] at hs
          cases hs
          exact .terminate ht
  | act i a =>
      rw [crowdStep] at hs
      cases ht : c.threads[i]? with
      | none => rw [ht] at hs; cases hs
      | some t =>
          simp only [ht] at hs
          cases hstep : threadStep L t a with
          | none => rw [hstep] at hs; cases hs
          | some t' =>
              rw [hstep] at hs
              cases hs
              exact .act ht hstep

/-- **CROWD STEP**: every step keeps the shapes and the count. -/
theorem crowdStep_inv {w : Nat} {L : Layout A} {c c' : Crowd A} {n n' : BitVec w}
    {a : CrowdAction A} (hs : crowdStep L c n a = some (c', n'))
    (h : c.Inv L n) : c'.Inv L n' := by
  cases crowdStep_cases hs with
  | spawn hrip hreturns =>
      refine ⟨?_, ?_⟩
      · intro t ht
        rcases List.mem_cons.mp ht with rfl | ht
        · refine ⟨?_, fun _ => hrip, ?_, ?_⟩
          · intro r hr
            exact Bool.not_eq_true' _ ▸ List.all_eq_true.mp hreturns r hr
          · intro f fs hf
            cases hf
          · intro f hf
            cases hf
        · exact h.sound t ht
      · rw [h.counter, Crowd.nested, Crowd.nested, List.map_cons, List.sum_cons]
        exact congrArg _ (congrArg (· + c.abandoned) (Nat.zero_add _).symm)
  | terminate ht =>
      -- the calls the thread was in are counted for ever
      obtain ⟨before, after, hl, herase, -⟩ := split_threads ht
      refine ⟨?_, ?_⟩
      · intro u hu
        exact h.sound u (List.mem_of_mem_eraseIdx hu)
      · rw [h.counter, Crowd.nested, Crowd.nested, herase, hl]
        simp only [List.map_append, List.map_cons, List.sum_append, List.sum_cons]
        exact congrArg _ (by omega)
  | @act i a t t' ht hstep =>
      obtain ⟨before, after, hl, -, hset⟩ := split_threads ht
      have hmem : t ∈ c.threads := List.mem_of_getElem? ht
      refine ⟨?_, ?_⟩
      · intro u hu
        rcases List.mem_or_eq_of_mem_set hu with hu | rfl
        · exact h.sound u hu
        · exact threadStep_sound hstep (h.sound t hmem)
      · -- only the count of the stepping thread changes
        have hcount := count_ofNat
          ((before.map Thread.counted).sum + (after.map Thread.counted).sum
            + c.abandoned) (threadStep_counts w hstep)
        rw [h.counter, Crowd.nested, Crowd.nested, hset t', hl]
        simp only [List.map_append, List.map_cons, List.sum_append,
          List.sum_cons]
        refine Eq.trans ?_ (hcount.trans ?_)
        · exact congrArg _ (congrArg _ (by omega))
        · exact congrArg _ (by omega)

/-- The same crowd in a changed layout. -/
theorem Crowd.Inv.relayout {w : Nat} {L L' : Layout A} {c : Crowd A} {n : BitVec w}
    (h : c.Inv L n)
    (hentry : ∀ t ∈ c.threads, L.entry t.rip = true → L'.entry t.rip = true)
    (hhandler : L'.handler = L.handler)
    (hfresh : ∀ t ∈ c.threads,
      (∀ r ∈ t.returns, L'.support r = true → L.support r = true) ∧
        (t.frames = [] → L'.support t.rip = true → L.support t.rip = true)) :
    c.Inv L' n where
  sound := by
    intro t ht
    exact (h.sound t ht).relayout (hentry t ht) hhandler (hfresh t ht).1 (hfresh t ht).2
  counter := h.counter

/-- No thread is in a call, and none ended in one. -/
structure Crowd.Idle (c : Crowd A) : Prop where
  frames : ∀ t ∈ c.threads, t.frames = []
  abandoned : c.abandoned = 0

theorem Crowd.Idle.nested {c : Crowd A} (h : c.Idle) : c.nested = 0 := by
  rw [Crowd.nested, h.abandoned, Nat.add_zero]
  refine List.sum_eq_zero ?_
  intro n hn
  obtain ⟨t, ht, rfl⟩ := List.mem_map.mp hn
  rw [Thread.counted, h.frames t ht]
  rfl

/-- Without a patched entry nobody gets into a call. -/
theorem crowdStep_idle {w : Nat} {L : Layout A} {c c' : Crowd A} {n n' : BitVec w}
    {a : CrowdAction A} (hentry : ∀ a, L.entry a = false)
    (hs : crowdStep L c n a = some (c', n')) (h : c.Idle) : c'.Idle := by
  cases crowdStep_cases hs with
  | spawn =>
      refine ⟨?_, h.abandoned⟩
      intro t ht
      rcases List.mem_cons.mp ht with rfl | ht
      · rfl
      · exact h.frames t ht
  | @terminate i t ht =>
      refine ⟨?_, ?_⟩
      · intro u hu
        exact h.frames u (List.mem_of_mem_eraseIdx hu)
      · show c.abandoned + t.counted = 0
        rw [h.abandoned, Thread.counted, h.frames t (List.mem_of_getElem? ht)]
        rfl
  | @act i a t t' ht hstep =>
      have hnil := h.frames t (List.mem_of_getElem? ht)
      refine ⟨?_, h.abandoned⟩
      intro u hu
      rcases List.mem_or_eq_of_mem_set hu with hu | rfl
      · exact h.frames u hu
      · -- only `move` is there for a thread outside
        cases a <;> simp only [threadStep, hnil, hentry] at hstep
        case move =>
          obtain ⟨-, heq⟩ := Option.ite_none_right_eq_some.mp hstep
          cases heq
          rfl
        case enter => simp at hstep
        all_goals cases hstep

/-- Threads outside all calls, far from the support code. -/
theorem Crowd.Idle.inv {w : Nat} {L : Layout A} {c : Crowd A} (h : c.Idle)
    (hfar : ∀ t ∈ c.threads, L.support t.rip = false ∧
      ∀ r ∈ t.returns, L.support r = false) : c.Inv L (0#w) where
  sound := by
    intro t ht
    refine ⟨(hfar t ht).2, fun _ => (hfar t ht).1, ?_, ?_⟩
    · intro f fs hf
      cases (h.frames t ht).symm.trans hf
    · rw [h.frames t ht]
      intro f hf
      cases hf
  counter := by rw [h.nested]

/-- A zero counter counts nothing, while it cannot have wrapped. -/
theorem nested_eq_zero {w : Nat} {L : Layout A} {c : Crowd A} {n : BitVec w}
    (h : c.Inv L n) (hn : c.nested < 2 ^ w) (hz : n = 0#w) : c.nested = 0 := by
  have hmod : c.nested % 2 ^ w = 0 := by
    have hcounter := congrArg BitVec.toNat (h.counter.symm.trans hz)
    rwa [BitVec.toNat_ofNat, BitVec.toNat_ofNat, Nat.zero_mod] at hcounter
  rwa [Nat.mod_eq_of_lt hn] at hmod

/-- **QUIESCENCE**: a zero counter that cannot have wrapped, and no
    instruction pointer in the handler or in a patched entry, leave no thread
    that depends on any of the code. -/
theorem Crowd.Inv.quiet {w : Nat} {L : Layout A} {c : Crowd A} {n : BitVec w}
    (h : c.Inv L n) (hn : c.nested < 2 ^ w) (hz : n = 0#w)
    (hrip : ∀ t ∈ c.threads, L.handler t.rip = false ∧ L.entry t.rip = false) :
    ∀ t ∈ c.threads, t.Quiet L := by
  intro t ht
  have hzero := nested_eq_zero h hn hz
  have hle : t.counted ≤ (c.threads.map Thread.counted).sum :=
    List.single_le_sum (fun _ _ => Nat.zero_le _) _ (List.mem_map_of_mem ht)
  have hcount : t.counted = 0 := by
    rw [Crowd.nested] at hzero
    omega
  exact (h.sound t ht).quiet hcount (hrip t ht).1 (hrip t ht).2

end ScopeInFlight
