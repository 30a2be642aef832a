import ApiScope.HandlerEventsProofs
import ApiScope.TransitionProofs
import Mathlib.Data.Finset.Card

/-! # Correlation — concurrent threads and the handle tracker

    Threads of the target call hooked functions.  A call takes its effect on
    the kernel's handle table at `CALL_ORIGINAL` and puts its event into the
    stream later, when it runs `EmitTraceEvent`; between the two other
    threads run.  The writer sees the events in the order of the stream.

    The tracker is right as long as no event overtakes one that it conflicts
    with, on the same handle value (`correlation_in_order`).  Nothing in the
    handlers ensures that: a close may take effect, the freed value may be
    opened again and recorded, and then the event of the close removes the new
    path (`correlation_overtaken`). -/

namespace ScopeCorrelation

open ScopeBytes ScopeRead ScopeProtocol ScopeParser ScopeGrammar ScopeTransport
  ScopeCorrelator ScopeReplay ScopeHandlers ScopeTransition

/-! ## The target -/

/-- The open handles and the paths they were opened with. -/
abbrev HandleTable := AList fun _ : UInt64 => List UInt16

/-- A call that has taken its effect and has not put its event into the
    stream. -/
structure Inflight where
  thread : Nat
  call : Call
  ret : Return
  /-- The event as it is at `CALL_ORIGINAL`. -/
  event : TraceEvent
  /-- The path of the handle of the call when it took its effect. -/
  seen : Option (List UInt16)

def Inflight.act (x : Inflight) : KeyAct UInt64 (List UInt16) := x.call.act x.ret

/-- An event of the stream, with the call it is of. -/
structure Emitted where
  event : TraceEvent
  call : Call
  ret : Return
  seen : Option (List UInt16)

def Emitted.act (x : Emitted) : KeyAct UInt64 (List UInt16) := x.call.act x.ret

structure State where
  handles : HandleTable
  /-- The calls that have not reached `CALL_ORIGINAL`'s effect, by thread. -/
  entered : Nat → Option (Call × TraceEvent)
  /-- In the order of the effects. -/
  inflight : List Inflight
  stream : List Emitted

inductive Action where
  | enter (thread : Nat) (call : Call) (threadId : UInt32) (timestamp100ns : UInt64)
  | effect (thread : Nat) (ret : Return)
  /-- With the sequence number, and the bytes an earlier event left in the
      slot. -/
  | emit (thread : Nat) (sequence : UInt32) (stale : TraceEvent)

/-- The kernel's handle table after a call; none where it cannot answer so.  A
    new handle has a value that is free, and fewer than 65536 are open. -/
def kernel (handles : HandleTable) (c : Call) (r : Return) : Option HandleTable :=
  match c.act r with
  | .put handle path =>
      if handle ∉ handles ∧ handles.keys.length + 1 < maxTrackedHandles then
        some (handles.insert handle path)
      else none
  | .drop handle => if handle ∈ handles then some (handles.erase handle) else none
  | .look _ | .skip => some handles

/-- The path of the handle that a call touches. -/
def seenBy (handles : HandleTable) (a : KeyAct UInt64 (List UInt16)) :
    Option (List UInt16) :=
  match a.key with
  | some handle => handles.lookup handle
  | none => none

/-- What the controller copies out of the slot of an event. -/
def received (e : TraceEvent) (sequence : UInt32) (stale : TraceEvent) : TraceEvent where
  bytes i := if i.val < e.size then (e.setSequence sequence.toNat).bytes i
    else stale.bytes i

/-- The inflight call of a thread, and those before and behind it. -/
def takeOf (thread : Nat) :
    List Inflight → Option (List Inflight × Inflight × List Inflight)
  | [] => none
  | x :: xs =>
      if x.thread = thread then some ([], x, xs)
      else (takeOf thread xs).map fun p => (x :: p.1, p.2)

def step (s : State) : Action → Option State
  | .enter thread call threadId timestamp100ns =>
      if s.entered thread = none ∧ (takeOf thread s.inflight).isNone then
        some { s with
          entered := Function.update s.entered thread
            (some (call, call.entryEvent threadId timestamp100ns)) }
      else none
  | .effect thread ret =>
      match s.entered thread with
      | none => none
      | some (call, event) =>
          match kernel s.handles call ret with
          | none => none
          | some handles =>
              some { s with
                handles
                entered := Function.update s.entered thread none
                inflight := s.inflight
                  ++ [⟨thread, call, ret, event, seenBy s.handles (call.act ret)⟩] }
  | .emit thread sequence stale =>
      match takeOf thread s.inflight with
      | none => none
      | some (before, x, behind) =>
          some { s with
            inflight := before ++ behind
            stream := s.stream ++ [⟨received (x.call.emittedEvent x.event x.ret) sequence
              stale, x.call, x.ret, x.seen⟩] }

def target : System State Action where
  init s := s = ⟨∅, fun _ => none, [], []⟩
  step := step

/-- Every event of a read or write leaves the writer with the path its handle
    had when the kernel performed the operation, or with none if it had
    none. -/
def Annotated (stream : List Emitted) : Prop :=
  List.Forall₂ (fun x out => ∀ handle, x.call.transferHandle = some handle →
      (readWideString (cstr "path")).run (TraceEvent.byte out) = x.seen)
    stream (writeAll .empty (stream.map Emitted.event)).2

/-! ## What a step does -/

theorem takeOf_some {thread : Nat} {xs before behind : List Inflight} {x : Inflight}
    (h : takeOf thread xs = some (before, x, behind)) :
    xs = before ++ x :: behind ∧ x.thread = thread := by
  induction xs generalizing before with
  | nil => cases h
  | cons y rest ih =>
      rw [takeOf] at h
      split at h
      · rename_i hy
        cases Option.some.inj h
        exact ⟨rfl, hy⟩
      · obtain ⟨p, hp, heq⟩ := Option.map_eq_some_iff.mp h
        obtain ⟨b, x', bs⟩ := p
        cases heq
        obtain ⟨hrest, hx⟩ := ih hp
        exact ⟨by rw [hrest, List.cons_append], hx⟩

/-- Everything a step can do. -/
theorem step_cases {s s' : State} {a : Action} (h : step s a = some s') :
    (∃ thread call threadId time, a = .enter thread call threadId time ∧
      s' = { s with
        entered := Function.update s.entered thread
          (some (call, call.entryEvent threadId time)) }) ∨
    (∃ thread ret call event handles, a = .effect thread ret ∧
      s.entered thread = some (call, event) ∧
      kernel s.handles call ret = some handles ∧
      s' = { s with
        handles
        entered := Function.update s.entered thread none
        inflight := s.inflight
          ++ [⟨thread, call, ret, event, seenBy s.handles (call.act ret)⟩] }) ∨
    ∃ thread sequence stale before x behind, a = .emit thread sequence stale ∧
      takeOf thread s.inflight = some (before, x, behind) ∧
      s' = { s with
        inflight := before ++ behind
        stream := s.stream ++ [⟨received (x.call.emittedEvent x.event x.ret) sequence
          stale, x.call, x.ret, x.seen⟩] } := by
  cases a with
  | enter thread call threadId time =>
      rw [step] at h
      split at h
      · exact Or.inl ⟨_, _, _, _, rfl, (Option.some.inj h).symm⟩
      · cases h
  | effect thread ret =>
      rw [step] at h
      split at h
      · cases h
      · rename_i call event hentered
        split at h
        · cases h
        · rename_i handles hkernel
          exact Or.inr (Or.inl ⟨_, _, _, _, _, rfl, hentered, hkernel,
            (Option.some.inj h).symm⟩)
  | emit thread sequence stale =>
      rw [step] at h
      split at h
      · cases h
      · rename_i before x behind htake
        exact Or.inr (Or.inr ⟨_, _, _, _, _, _, rfl, htake, (Option.some.inj h).symm⟩)

/-- The kernel's table moves as the call acts; a new handle was free. -/
theorem kernel_some {handles handles' : HandleTable} {c : Call} {r : Return}
    (h : kernel handles c r = some handles') :
    (fun k => handles'.lookup k) = (c.act r).apply (fun k => handles.lookup k) ∧
      ∀ handle path, c.act r = .put handle path → handles.lookup handle = none := by
  rw [kernel] at h
  cases hact : c.act r with
  | put handle path =>
      rw [hact] at h
      dsimp only at h
      split at h
      · rename_i hfree
        rw [← Option.some.inj h]
        refine ⟨?_, ?_⟩
        · funext k
          by_cases hk : k = handle
          · rw [hk, AList.lookup_insert, KeyAct.apply_of_eq rfl]
            rfl
          · rw [AList.lookup_insert_ne hk, KeyAct.apply_of_ne]
            exact fun heq => hk (Option.some.inj heq).symm
        · intro handle' path' heq
          cases heq
          exact AList.lookup_eq_none.mpr hfree.1
      · cases h
  | drop handle =>
      rw [hact] at h
      dsimp only at h
      split at h
      · rw [← Option.some.inj h]
        refine ⟨?_, ?_⟩
        · funext k
          by_cases hk : k = handle
          · rw [hk, AList.lookup_erase, KeyAct.apply_of_eq rfl]
            rfl
          · rw [AList.lookup_erase_ne hk, KeyAct.apply_of_ne]
            exact fun heq => hk (Option.some.inj heq).symm
        · intro handle' path' heq
          cases heq
      · cases h
  | look handle =>
      rw [hact] at h
      rw [← Option.some.inj h]
      exact ⟨rfl, fun _ _ heq => nomatch heq⟩
  | skip =>
      rw [hact] at h
      rw [← Option.some.inj h]
      exact ⟨rfl, fun _ _ heq => nomatch heq⟩

/-! ## The stream, in any run -/

theorem received_represents {e : TraceEvent} {m a : List UInt8} {fs : List TraceField}
    (h : Represents e m a fs) (sequence : UInt32) (stale : TraceEvent) :
    Represents (received e sequence stale) m a fs := by
  refine h.congr fun i hi h1 h2 => ?_
  have hmax : i < traceMaxEventBytes := Nat.lt_of_lt_of_le hi h.fits
  rw [TraceEvent.byte_of_lt _ hmax]
  show (if i < e.size then (e.setSequence sequence.toNat).bytes ⟨i, hmax⟩
    else stale.bytes ⟨i, hmax⟩) = e.byte i
  rw [if_pos hi, ← TraceEvent.byte_of_lt _ hmax]
  exact TraceEvent.byte_setWord_of_outside _ (by decide) (by omega)

/-- What the events of a run are, whatever its order. -/
structure Built (s : State) : Prop where
  entered : ∀ thread c e, s.entered thread = some (c, e) →
    ∃ threadId time, e = c.entryEvent threadId time
  inflight : ∀ x ∈ s.inflight, ∃ threadId time, x.event = x.call.entryEvent threadId time
  stream : ∀ x ∈ s.stream,
    Represents x.event (cstr "ntdll.dll") x.call.api.name (x.call.fields x.ret)

theorem built_step {s s' : State} {a : Action} (hb : Built s) (h : step s a = some s') :
    Built s' := by
  rcases step_cases h with ⟨thread, call, threadId, time, -, rfl⟩ |
    ⟨thread, ret, call, event, handles, -, hentered, -, rfl⟩ |
    ⟨thread, sequence, stale, before, x, behind, -, htake, rfl⟩
  · refine ⟨fun thread' c e he => ?_, hb.inflight, hb.stream⟩
    by_cases heq : thread' = thread
    · rw [heq] at he
      change Function.update s.entered thread _ thread = _ at he
      rw [Function.update_self] at he
      cases he
      exact ⟨_, _, rfl⟩
    · change Function.update s.entered thread _ thread' = _ at he
      rw [Function.update_of_ne heq] at he
      exact hb.entered _ _ _ he
  · refine ⟨fun thread' c e he => ?_, fun y hy => ?_, hb.stream⟩
    · by_cases heq : thread' = thread
      · rw [heq] at he
        change Function.update s.entered thread _ thread = _ at he
        rw [Function.update_self] at he
        cases he
      · change Function.update s.entered thread _ thread' = _ at he
        rw [Function.update_of_ne heq] at he
        exact hb.entered _ _ _ he
    · rcases List.mem_append.mp hy with hy | hy
      · exact hb.inflight y hy
      · rw [List.mem_singleton.mp hy]
        exact hb.entered _ _ _ hentered
  · obtain ⟨hsplit, -⟩ := takeOf_some htake
    have hx : x ∈ s.inflight := by
      rw [hsplit]
      exact List.mem_append_right _ List.mem_cons_self
    refine ⟨hb.entered, fun y hy => hb.inflight y ?_, fun y hy => ?_⟩
    · rw [hsplit]
      rcases List.mem_append.mp hy with hy | hy
      · exact List.mem_append_left _ hy
      · exact List.mem_append_right _ (List.mem_cons_of_mem _ hy)
    · rcases List.mem_append.mp hy with hy | hy
      · exact hb.stream y hy
      · rw [List.mem_singleton.mp hy]
        obtain ⟨threadId, time, hevent⟩ := hb.inflight x hx
        rw [hevent]
        exact received_represents (represents_emittedEvent _ _ _ _) _ _

theorem built_reachable {ok : State → Action → Prop} {s : State}
    (h : ReachableIf target ok s) : Built s := by
  refine ReachableIf.invariant (M := target) (P := Built) ?_ ?_ h
  · rintro s rfl
    refine ⟨?_, ?_, ?_⟩
    · intro thread c e he
      cases he
    · intro x hx
      cases hx
    · intro x hx
      cases hx
  · intro s a s' hb _ hs
    exact built_step hb hs

/-! ## The tracker along the stream -/

/-- The table after the actions of a stream. -/
def trackAll (t : HandlePathTracker) (stream : List Emitted) : HandlePathTracker :=
  stream.foldl (fun t x => trackAct t x.act) t

/-- Every read or write of the stream saw the path the table has for its handle
    when its event arrives. -/
def TrackedRight : HandlePathTracker → List Emitted → Prop
  | _, [] => True
  | t, x :: xs =>
      (∀ handle, x.call.transferHandle = some handle → t.find handle = x.seen) ∧
        TrackedRight (trackAct t x.act) xs

/-- No entry for the null handle, and no path that an annotation would cut. -/
structure Sane (t : HandlePathTracker) : Prop where
  null : t.find 0 = none
  short : ∀ handle path, t.find handle = some path → path.length ≤ 256

theorem sane_empty : Sane .empty :=
  ⟨AList.lookup_empty _, fun handle path h => by
    rw [HandlePathTracker.find, HandlePathTracker.empty, AList.lookup_empty] at h
    cases h⟩

/-- The path a call puts into the table is that of an open of a valid handle. -/
theorem act_put {c : Call} {r : Return} {handle : UInt64} {path : List UInt16}
    (h : c.act r = .put handle path) : handle ≠ 0 ∧ path.length ≤ 256 := by
  have hopen : ∀ p : AbsolutePath,
      (if ntSuccess r.status ∧ r.handle ≠ 0 then KeyAct.put r.handle p.path else .skip)
        = .put handle path → handle ≠ 0 ∧ path.length ≤ 256 := by
    intro p heq
    split at heq
    · rename_i hgood
      cases heq
      exact ⟨hgood.2, p.short⟩
    · cases heq
  cases c with
  | ntCreateFile args => exact hopen _ h
  | ntOpenFile args => exact hopen _ h
  | ntOpenKey args => exact hopen _ h
  | ntReadFile args => cases h
  | ntWriteFile args preview => cases h
  | ntClose handle' =>
      rw [Call.act] at h
      split at h <;> cases h

theorem Sane.insert {t : HandlePathTracker} (h : Sane t) {handle : UInt64}
    {path : List UInt16} (hhandle : handle ≠ 0) (hpath : path.length ≤ 256) :
    Sane ⟨t.handlePaths.insert handle path⟩ := by
  constructor
  · rw [HandlePathTracker.find_insert, Function.update_of_ne (Ne.symm hhandle)]
    exact h.null
  · intro k path' hfind
    rw [HandlePathTracker.find_insert] at hfind
    by_cases hk : k = handle
    · rw [hk, Function.update_self] at hfind
      rw [← Option.some.inj hfind]
      exact hpath
    · rw [Function.update_of_ne hk] at hfind
      exact h.short k path' hfind

theorem Sane.trackAct {t : HandlePathTracker} (h : Sane t) (c : Call) (r : Return) :
    Sane (trackAct t (c.act r)) := by
  cases hact : c.act r with
  | put handle path =>
      obtain ⟨hhandle, hpath⟩ := act_put hact
      rw [ScopeHandlers.trackAct, HandlePathTracker.record]
      split
      · exact @Sane.insert .empty sane_empty _ _ hhandle hpath
      · exact h.insert hhandle hpath
  | drop handle =>
      have hforget : ∀ k path, (t.forget handle).find k = some path →
          t.find k = some path := by
        intro k path hfind
        by_cases hk : k = handle
        · rw [hk, HandlePathTracker.find, HandlePathTracker.forget,
            AList.lookup_erase] at hfind
          cases hfind
        · rw [HandlePathTracker.find, HandlePathTracker.forget,
            AList.lookup_erase_ne hk] at hfind
          exact hfind
      refine ⟨?_, fun k path hfind => h.short k path (hforget k path hfind)⟩
      cases hfind : (t.forget handle).find 0 with
      | none => exact hfind
      | some path => cases h.null.symm.trans (hforget 0 path hfind)
  | look handle => exact h
  | skip => exact h

/-- The writer's output, read off the actions of the stream. -/
theorem annotated_iff {stream : List Emitted}
    (hb : ∀ x ∈ stream,
      Represents x.event (cstr "ntdll.dll") x.call.api.name (x.call.fields x.ret))
    {t : HandlePathTracker} (ht : Sane t) :
    (writeAll t (stream.map Emitted.event)).1 = trackAll t stream ∧
      (List.Forall₂ (fun x out => ∀ handle, x.call.transferHandle = some handle →
          (readWideString (cstr "path")).run (TraceEvent.byte out) = x.seen)
        stream (writeAll t (stream.map Emitted.event)).2 ↔ TrackedRight t stream) := by
  induction stream generalizing t with
  | nil => exact ⟨rfl, fun _ => trivial, fun _ => .nil⟩
  | cons x rest ih =>
      have hx := hb x List.mem_cons_self
      have hnext : (writeEvent t x.event).1 = trackAct t x.act := writeEvent_call hx t
      obtain ⟨h1, h2⟩ := ih (fun y hy => hb y (List.mem_cons_of_mem _ hy))
        (ht.trackAct x.call x.ret)
      have hfst : (writeAll t ((x :: rest).map Emitted.event)).1
          = (writeAll (trackAct t x.act) (rest.map Emitted.event)).1 := by
        rw [← hnext, List.map_cons]
        dsimp only [writeAll]
      have hsnd : (writeAll t ((x :: rest).map Emitted.event)).2
          = (writeEvent t x.event).2
            :: (writeAll (trackAct t x.act) (rest.map Emitted.event)).2 := by
        rw [← hnext, List.map_cons]
        dsimp only [writeAll]
      refine ⟨hfst.trans h1, ?_⟩
      rw [hsnd, List.forall₂_cons, TrackedRight]
      refine and_congr (forall_congr' fun handle => imp_congr_right fun htransfer => ?_) h2
      rw [writeEvent_transfer hx htransfer t ht.null (ht.short handle)]

theorem trackedRight_append {t : HandlePathTracker} {xs ys : List Emitted} :
    TrackedRight t (xs ++ ys) ↔ TrackedRight t xs ∧ TrackedRight (trackAll t xs) ys := by
  induction xs generalizing t with
  | nil => exact ⟨fun h => ⟨trivial, h⟩, And.right⟩
  | cons x rest ih =>
      rw [List.cons_append, TrackedRight, TrackedRight, ih, and_assoc]
      exact Iff.rfl

/-! ## Delivery in order -/

/-- The handles that are open, or closed by a call whose event is not in the
    stream. -/
def handlesInUse (s : State) : Finset UInt64 :=
  (s.handles.keys ++ s.inflight.filterMap fun x =>
    match x.act with
    | .drop handle => some handle
    | _ => none).toFinset

/-- A step that puts an event into the stream overtakes no conflicting call,
    and an open finds at most 65536 handles in use. -/
def InOrder (s : State) : Action → Prop
  | .emit thread _ _ => ∀ before x behind,
      takeOf thread s.inflight = some (before, x, behind) →
        (∀ y ∈ before, ¬ KeyAct.Conflict x.act y.act) ∧
        (∀ handle path, x.act = .put handle path →
          (handlesInUse s).card ≤ maxTrackedHandles)
  | _ => True

/-- The inflight calls, as actions with what they saw. -/
def pending (s : State) : List (KeyAct UInt64 (List UInt16) × Option (List UInt16)) :=
  s.inflight.map fun x => (x.act, x.seen)

def trackerOf (s : State) : HandlePathTracker := trackAll .empty s.stream

/-- The table of the tracker, and the inflight calls on top of it, are the
    kernel's table. -/
structure InStep (s : State) : Prop where
  consistent : Consistent (trackerOf s).find (pending s)
  handles : replay (trackerOf s).find ((pending s).map Prod.fst)
    = fun k => s.handles.lookup k
  fresh : ∀ x ∈ s.inflight, ∀ handle path, x.act = .put handle path → x.seen = none
  sane : Sane (trackerOf s)
  right : TrackedRight .empty s.stream

theorem trackAll_snoc (t : HandlePathTracker) (xs : List Emitted) (x : Emitted) :
    trackAll t (xs ++ [x]) = trackAct (trackAll t xs) x.act := by
  rw [trackAll, List.foldl_append]
  rfl

/-- A table that is not full moves as the action says. -/
theorem find_trackAct {t : HandlePathTracker} {a : KeyAct UInt64 (List UInt16)}
    (h : ∀ handle path, a = .put handle path → t.size < maxTrackedHandles) :
    (trackAct t a).find = a.apply t.find := by
  funext k
  cases a with
  | put handle path =>
      rw [trackAct, HandlePathTracker.find_record (h handle path rfl)]
      by_cases hk : k = handle
      · rw [hk, Function.update_self, KeyAct.apply_of_eq rfl]
        rfl
      · rw [Function.update_of_ne hk, KeyAct.apply_of_ne]
        exact fun heq => hk (Option.some.inj heq).symm
  | drop handle =>
      rw [trackAct, HandlePathTracker.find_forget]
      by_cases hk : k = handle
      · rw [hk, Function.update_self, KeyAct.apply_of_eq rfl]
        rfl
      · rw [Function.update_of_ne hk, KeyAct.apply_of_ne]
        exact fun heq => hk (Option.some.inj heq).symm
  | look handle => rfl
  | skip => rfl

theorem mem_keys_iff {t : HandleTable} {k : UInt64} : k ∈ t.keys ↔ t.lookup k ≠ none := by
  rw [← AList.mem_keys, ← AList.lookup_isSome, Option.isSome_iff_ne_none]

theorem mem_handlesInUse {s : State} {k : UInt64} :
    k ∈ handlesInUse s ↔ s.handles.lookup k ≠ none ∨ ∃ x ∈ s.inflight, x.act = .drop k := by
  rw [handlesInUse, List.mem_toFinset, List.mem_append, List.mem_filterMap]
  refine or_congr ?_ ?_
  · exact mem_keys_iff
  · refine exists_congr fun x => and_congr_right fun _ => ?_
    cases x.act with
    | drop handle =>
        constructor
        · intro heq
          rw [Option.some.inj heq]
        · intro heq
          cases heq
          rfl
    | put handle path =>
        constructor <;> intro heq <;> cases heq
    | look handle =>
        constructor <;> intro heq <;> cases heq
    | skip =>
        constructor <;> intro heq <;> cases heq

/-- A value that some inflight calls leave is that of an open handle, or of one
    an inflight call closes. -/
theorem inUse_of_replay {s : State} (hi : InStep s)
    {first : List (KeyAct UInt64 (List UInt16))} {last : List (KeyAct UInt64 (List UInt16))}
    (hsplit : (pending s).map Prod.fst = first ++ last) {k : UInt64}
    (hk : replay (trackerOf s).find first k ≠ none) : k ∈ handlesInUse s := by
  rw [mem_handlesInUse]
  by_cases hdrop : ∃ x ∈ s.inflight, x.act = .drop k
  · exact Or.inr hdrop
  · left
    have hend := @replay_ne_none _ _ _ last k _ hk (by
      intro a ha heq
      refine hdrop ?_
      have hmem : a ∈ (pending s).map Prod.fst := by
        rw [hsplit]
        exact List.mem_append_right _ ha
      rw [pending, List.map_map] at hmem
      obtain ⟨x, hx, hxa⟩ := List.mem_map.mp hmem
      exact ⟨x, hx, (show x.act = a from hxa).trans heq⟩)
    rw [← replay_append, ← hsplit, hi.handles] at hend
    exact hend

/-- An open that is delivered in order finds room in the table. -/
theorem room_in_table {s : State} (hi : InStep s) {before behind : List Inflight}
    {x : Inflight} (hsplit : s.inflight = before ++ x :: behind)
    (hfree : ∀ y ∈ before, ¬ KeyAct.Conflict x.act y.act) {handle : UInt64}
    {path : List UInt16} (hact : x.act = .put handle path)
    (hcard : (handlesInUse s).card ≤ maxTrackedHandles) :
    (trackerOf s).size < maxTrackedHandles := by
  have hx : x ∈ s.inflight := by
    rw [hsplit]
    exact List.mem_append_right _ List.mem_cons_self
  have hpending : pending s = before.map (fun y => (y.act, y.seen))
      ++ (x.act, x.seen) :: behind.map (fun y => (y.act, y.seen)) := by
    rw [pending, hsplit, List.map_append, List.map_cons]
  have hc := hi.consistent
  rw [hpending] at hc
  have hseen := (hc.deliver (by
    intro a ha
    obtain ⟨y, hy, rfl⟩ := List.mem_map.mp ha
    exact hfree y hy)).1 handle (by rw [hact]; rfl)
  have hnew : (trackerOf s).find handle = none := by
    rw [← hseen]
    exact hi.fresh x hx handle path hact
  have hnotin : handle ∉ (trackerOf s).handlePaths.keys.toFinset := by
    rw [List.mem_toFinset, mem_keys_iff]
    exact fun hne => hne hnew
  have hsubset : insert handle (trackerOf s).handlePaths.keys.toFinset
      ⊆ handlesInUse s := by
    intro k hk
    rcases Finset.mem_insert.mp hk with rfl | hk
    · refine @inUse_of_replay s hi (before.map Inflight.act ++ [x.act])
        (behind.map Inflight.act) ?_ k ?_
      · rw [hpending, List.map_append, List.map_cons, List.map_map, List.map_map,
          List.append_assoc]
        rfl
      · rw [replay_append, replay_cons, hact]
        show KeyAct.apply _ (.put k path) k ≠ none
        rw [KeyAct.apply_of_eq rfl]
        exact Option.some_ne_none path
    · refine @inUse_of_replay s hi [] ((pending s).map Prod.fst) rfl k ?_
      rw [List.mem_toFinset, mem_keys_iff] at hk
      exact hk
  have hle := Finset.card_le_card hsubset
  rw [Finset.card_insert_of_notMem hnotin,
    List.toFinset_card_of_nodup (trackerOf s).handlePaths.keys_nodup] at hle
  exact Nat.lt_of_lt_of_le (Nat.lt_of_succ_le hle) hcard

theorem inStep_effect {s : State} (hi : InStep s) {thread : Nat} {ret : Return}
    {call : Call} {event : TraceEvent} {handles : HandleTable}
    (hkernel : kernel s.handles call ret = some handles) :
    InStep { s with
      handles
      entered := Function.update s.entered thread none
      inflight := s.inflight
        ++ [⟨thread, call, ret, event, seenBy s.handles (call.act ret)⟩] } := by
  obtain ⟨hmoves, hfree⟩ := kernel_some hkernel
  have hpending : ∀ x : Inflight, (s.inflight ++ [x]).map (fun y => (y.act, y.seen))
      = pending s ++ [(x.act, x.seen)] := by
    intro x
    rw [List.map_append]
    rfl
  refine ⟨?_, ?_, ?_, hi.sane, hi.right⟩
  · show Consistent (trackerOf s).find
      ((s.inflight ++ [_]).map fun y : Inflight => (y.act, y.seen))
    rw [hpending]
    refine consistent_append.mpr ⟨hi.consistent, fun k hk => ?_, trivial⟩
    rw [hi.handles]
    show seenBy s.handles (call.act ret) = _
    have hkey : (call.act ret).key = some k := hk
    rw [seenBy, hkey]
  · show replay (trackerOf s).find
      (((s.inflight ++ [_]).map fun y : Inflight => (y.act, y.seen)).map Prod.fst) = _
    rw [hpending, List.map_append, replay_append, hi.handles]
    exact hmoves.symm
  · intro y hy handle path hact
    rcases List.mem_append.mp hy with hy | hy
    · exact hi.fresh y hy handle path hact
    · rw [List.mem_singleton.mp hy] at hact ⊢
      show seenBy s.handles (call.act ret) = none
      have hput : call.act ret = .put handle path := hact
      rw [seenBy, hput]
      exact hfree handle path hput

theorem inStep_emit {s : State} (hi : InStep s) {before behind : List Inflight}
    {x : Inflight} (hsplit : s.inflight = before ++ x :: behind)
    (hfree : ∀ y ∈ before, ¬ KeyAct.Conflict x.act y.act)
    (hcard : ∀ handle path, x.act = .put handle path →
      (handlesInUse s).card ≤ maxTrackedHandles) (event : TraceEvent) :
    InStep { s with
      inflight := before ++ behind
      stream := s.stream ++ [⟨event, x.call, x.ret, x.seen⟩] } := by
  have hpending : pending s = before.map (fun y => (y.act, y.seen))
      ++ (x.act, x.seen) :: behind.map (fun y => (y.act, y.seen)) := by
    rw [pending, hsplit, List.map_append, List.map_cons]
  have hfree' : ∀ a ∈ before.map (fun y => (y.act, y.seen)),
      ¬ KeyAct.Conflict x.act a.1 := by
    intro a ha
    obtain ⟨y, hy, rfl⟩ := List.mem_map.mp ha
    exact hfree y hy
  have hc := hi.consistent
  rw [hpending] at hc
  -- x overtakes only calls that do not touch its handle, so it may come first
  obtain ⟨hseen, hkept⟩ := hc.deliver hfree'
  have htable : trackerOf { s with
      inflight := before ++ behind
      stream := s.stream ++ [⟨event, x.call, x.ret, x.seen⟩] }
      = trackAct (trackerOf s) x.act := trackAll_snoc _ _ _
  have hfind : (trackAct (trackerOf s) x.act).find = x.act.apply (trackerOf s).find :=
    find_trackAct fun handle path hact =>
      room_in_table hi hsplit hfree hact (hcard handle path hact)
  refine ⟨?_, ?_, ?_, ?_, ?_⟩
  · rw [htable, hfind]
    show Consistent _ ((before ++ behind).map fun y => (y.act, y.seen))
    rw [List.map_append]
    exact hkept
  · rw [htable, hfind]
    show replay _ (((before ++ behind).map fun y => (y.act, y.seen)).map Prod.fst)
      = fun k => s.handles.lookup k
    rw [← hi.handles, hpending, List.map_append, List.map_append, List.map_append,
      List.map_cons]
    refine replay_deliver (fun a ha => ?_) _ _
    obtain ⟨y, hy, rfl⟩ := List.mem_map.mp ha
    exact hfree' y hy
  · intro y hy
    refine hi.fresh y ?_
    rw [hsplit]
    rcases List.mem_append.mp hy with hy | hy
    · exact List.mem_append_left _ hy
    · exact List.mem_append_right _ (List.mem_cons_of_mem _ hy)
  · rw [htable]
    exact hi.sane.trackAct x.call x.ret
  · refine trackedRight_append.mpr ⟨hi.right, ?_, trivial⟩
    intro handle htransfer
    -- a transfer looks its handle up and changes nothing
    have hact : x.act = .look handle := by
      rw [Inflight.act]
      have htransfer' : x.call.transferHandle = some handle := htransfer
      cases hcall : x.call with
      | ntReadFile args =>
          rw [hcall] at htransfer'
          cases htransfer'
          rfl
      | ntWriteFile args preview =>
          rw [hcall] at htransfer'
          cases htransfer'
          rfl
      | ntCreateFile args => rw [hcall] at htransfer'; cases htransfer'
      | ntOpenFile args => rw [hcall] at htransfer'; cases htransfer'
      | ntOpenKey args => rw [hcall] at htransfer'; cases htransfer'
      | ntClose handle' => rw [hcall] at htransfer'; cases htransfer'
    exact (hseen handle (by rw [hact]; rfl)).symm

theorem inStep_step {s s' : State} {a : Action} (hi : InStep s) (hok : InOrder s a)
    (h : step s a = some s') : InStep s' := by
  rcases step_cases h with ⟨thread, call, threadId, time, -, rfl⟩ |
    ⟨thread, ret, call, event, handles, -, -, hkernel, rfl⟩ |
    ⟨thread, sequence, stale, before, x, behind, rfl, htake, rfl⟩
  · exact ⟨hi.consistent, hi.handles, hi.fresh, hi.sane, hi.right⟩
  · exact inStep_effect hi hkernel
  · obtain ⟨hfree, hcard⟩ := hok before x behind htake
    exact inStep_emit hi (takeOf_some htake).1 hfree hcard _

/-- **CORRELATION**: as long as no event overtakes a conflicting one, every
    read and write is annotated with the path its handle had at the
    operation. -/
theorem correlation_in_order {s : State} (h : ReachableIf target InOrder s) :
    Annotated s.stream := by
  have hi : InStep s := by
    refine ReachableIf.invariant (M := target) (P := InStep) ?_ ?_ h
    · rintro s rfl
      refine ⟨trivial, ?_, ?_, sane_empty, trivial⟩
      · funext k
        rfl
      · intro x hx
        cases hx
    · intro s a s' hi hok hs
      exact inStep_step hi hok hs
  exact (annotated_iff (built_reachable h).stream sane_empty).2.mpr hi.right

/-! ## Two runs -/

/-- A path of one character, and memory that holds it. -/
def pathOf (c : UInt8) : AbsolutePath where
  path := [UInt16.ofNat c.toNat]
  address := 4096
  readAttributes := ⟨0, 48, fun i => if i = 16 then 1 else 0⟩
  readHeader := ⟨0, 16, fun i => if i = 0 then 2 else if i = 8 then 1 else 0⟩
  readBuffer := ⟨0, 2, fun i => if i = 0 then c else 0⟩
  nonempty := List.cons_ne_nil _ _
  short := by
    show 1 ≤ 256
    decide
  address_ne := by decide
  attributes_read := by decide
  absolute := by decide
  name_ne := by decide
  header_read := by decide
  length_eq := rfl
  buffer_ne := by decide
  buffer_read := ⟨rfl, rfl⟩
  chars_eq := by
    show [UInt16.ofNat (c.toNat + 256 * (0 + 256 * 0))] = _
    rfl

def openOf (c : UInt8) : Call := .ntOpenFile ⟨0, pathOf c, 0, 0, 0⟩

def readOf (handle : UInt64) : Call := .ntReadFile ⟨handle, 0, 0, 0, 0, 0, 0, 0, 0⟩

/-- A return with status success. -/
def success (handle : UInt64) : Return := ⟨0, handle, 0, none⟩

def initial : State := ⟨∅, fun _ => none, [], []⟩

/-- An open and a read of the handle, one after the other. -/
theorem correlation_in_order_run : ∃ s, ReachableIf target InOrder s ∧
    s.stream.map (fun x => (x.act, x.seen))
      = [(.put 4 [0x41], none), (.look 4, some [0x41])] ∧ Annotated s.stream := by
  have inOrder : ∀ {s : State} {x : Inflight}, s.inflight = [x] →
      (handlesInUse s).card ≤ maxTrackedHandles →
      InOrder s (.emit 0 0 TraceEvent.zero) := by
    intro s x hx hcard before y behind htake
    refine ⟨?_, fun _ _ _ => hcard⟩
    intro z hz
    obtain ⟨hsplit, -⟩ := takeOf_some htake
    rw [hx] at hsplit
    cases before with
    | nil => cases hz
    | cons w rest =>
        have hlen := congrArg List.length hsplit
        exact absurd hlen (by simp)
  have h0 : ReachableIf target InOrder initial := .init rfl
  have h1 := h0.step (a := Action.enter 0 (openOf 0x41) 1 1) trivial rfl
  have h2 := h1.step (a := Action.effect 0 (success 4)) trivial rfl
  have h3 := h2.step (a := Action.emit 0 0 TraceEvent.zero) (inOrder rfl (by decide)) rfl
  have h4 := h3.step (a := Action.enter 0 (readOf 4) 1 1) trivial rfl
  have h5 := h4.step (a := Action.effect 0 (success 0)) trivial rfl
  have h6 := h5.step (a := Action.emit 0 0 TraceEvent.zero) (inOrder rfl (by decide)) rfl
  exact ⟨_, h6, rfl, correlation_in_order h6⟩

/-- While thread 1 reads from a file and has not put its event into the
    stream, thread 0 closes the handle and opens another file under it. -/
def overtakingRun : List Action :=
  [.enter 0 (openOf 0x41) 1 1, .effect 0 (success 4), .emit 0 1 TraceEvent.zero,
    .enter 1 (readOf 4) 2 2, .effect 1 (success 0),
    .enter 0 (.ntClose 4) 1 3, .effect 0 (success 0), .emit 0 2 TraceEvent.zero,
    .enter 0 (openOf 0x42) 1 4, .effect 0 (success 4), .emit 0 3 TraceEvent.zero,
    .emit 1 4 TraceEvent.zero]

/-- The read of the first file is annotated with the path of the second. -/
theorem correlation_overtaken : ¬ ∀ s, Reachable target s → Annotated s.stream := by
  intro hall
  have hexec : (target.exec initial overtakingRun).map
      (fun s => s.stream.map fun x => (x.act, x.call.transferHandle, x.seen))
      = some [(.put 4 [0x41], none, none), (.drop 4, none, some [0x41]),
        (.put 4 [0x42], none, none), (.look 4, some 4, some [0x41])] := rfl
  obtain ⟨s, hs, hstream⟩ := Option.map_eq_some_iff.mp hexec
  have hr : Reachable target s :=
    ReachableIf.exec (M := target) (.init rfl) (fun _ _ => trivial) overtakingRun hs
  have hright := (annotated_iff (built_reachable hr).stream sane_empty).2.mp (hall s hr)
  obtain ⟨x₁, rest, h0, hx₁, hstream⟩ := List.map_eq_cons_iff.mp hstream
  obtain ⟨x₂, rest₂, h2, hx₂, hstream⟩ := List.map_eq_cons_iff.mp hstream
  obtain ⟨x₃, rest₃, h3, hx₃, hstream⟩ := List.map_eq_cons_iff.mp hstream
  obtain ⟨x₄, rest₄, h4, hx₄, -⟩ := List.map_eq_cons_iff.mp hstream
  rw [h0, h2, h3, h4] at hright
  obtain ⟨-, -, -, hfourth, -⟩ := hright
  have hlast := hfourth 4 (congrArg (fun p => p.2.1) hx₄)
  rw [show x₁.act = _ from congrArg Prod.fst hx₁, show x₂.act = _ from congrArg Prod.fst hx₂,
    show x₃.act = _ from congrArg Prod.fst hx₃,
    show x₄.seen = _ from congrArg (fun p => p.2.2) hx₄] at hlast
  revert hlast
  decide

end ScopeCorrelation
