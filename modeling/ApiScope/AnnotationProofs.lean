import ApiScope.PathHistoryProofs

/-! # Annotation — what `Annotate` leaves of an event

    `Annotate` has an encoder of its own, which writes into the event it was
    given.  Whatever calls have filled the tracker, on whatever events, the
    paths in it are not empty; and an event that was accepted before is
    accepted afterwards, with every byte it had but the two members of the
    header that count the new field. -/

namespace ScopeAnnotation

open ScopeBytes ScopeRead ScopeProtocol ScopeParser ScopeGrammar ScopeCorrelator
  ScopeBounds ScopePathHistory

/-! ## Calls of the tracker -/

inductive TrackerCall where
  | observe (e : TraceEvent)
  | annotate (e : TraceEvent)
  | evict (e : TraceEvent)

/-- The tracker after a call; `Annotate` changes only the event. -/
def afterCall (t : HandlePathTracker) : TrackerCall → HandlePathTracker
  | .observe e => (observe t).run e.byte
  | .annotate _ => t
  | .evict e => (evict t).run e.byte

/-- The tracker after a sequence of calls. -/
def afterCalls (calls : List TrackerCall) : HandlePathTracker := calls.foldl afterCall .empty

theorem afterCalls_snoc (calls : List TrackerCall) (call : TrackerCall) :
    afterCalls (calls ++ [call]) = afterCall (afterCalls calls) call :=
  List.foldl_append

/-- No path in the table is empty. -/
def PathsNonempty (t : HandlePathTracker) : Prop :=
  ∀ handle path, t.find handle = some path → path ≠ []

/-- Recording a path adds that path and no other. -/
theorem find_record_cases {t : HandlePathTracker} {handle k : UInt64} {path q : List UInt16}
    (h : (t.record handle path).find k = some q) : q = path ∨ t.find k = some q := by
  rw [HandlePathTracker.record] at h
  have hinsert : ∀ t' : HandlePathTracker,
      HandlePathTracker.find ⟨t'.handlePaths.insert handle path⟩ k = some q →
      q = path ∨ t'.find k = some q := by
    intro t' h'
    rw [HandlePathTracker.find_insert] at h'
    by_cases hk : k = handle
    · rw [hk, Function.update_self] at h'
      exact Or.inl (Option.some.inj h').symm
    · rw [Function.update_of_ne hk] at h'
      exact Or.inr h'
  -- a full table is emptied first
  split at h
  · rcases hinsert .empty h with heq | hfind
    · exact Or.inl heq
    · cases (HandlePathTracker.find_empty k).symm.trans hfind
  · exact hinsert t h

/-- The path of a relative open is not empty. -/
theorem resolvePath_ne_nil (base : List UInt16) {path : List UInt16} :
    resolvePath base path ≠ [] := by
  rw [resolvePath_eq_under, under]
  intro hnil
  cases (List.append_eq_nil_iff.mp hnil).2

/-- **OBSERVE**, on any bytes: nothing, or a path that is not empty is recorded. -/
theorem observe_cases (t : HandlePathTracker) (mem : Memory) :
    (observe t).run mem = t ∨
      ∃ handle path, path ≠ [] ∧ (observe t).run mem = t.record handle path := by
  rw [observe, Read.run_bind]
  cases (readWideString (cstr "path")).run mem with
  | none => exact Or.inl (Read.run_pure _ _)
  | some path =>
      dsimp only
      rw [Read.run_ite]
      by_cases hpath : path = []
      · rw [if_pos hpath]
        exact Or.inl (Read.run_pure _ _)
      rw [if_neg hpath, Read.run_bind]
      cases findObjectHandle.run mem with
      | none => exact Or.inl (Read.run_pure _ _)
      | some handle =>
          dsimp only
          rw [Read.run_ite]
          split
          · exact Or.inl (Read.run_pure _ _)
          -- a handle is recorded for a successful call, under its root directory if that is known
          rw [Read.run_bind, Read.run_ite]
          split
          · rw [Read.run_bind]
            split
            · rw [Read.run_ite]
              split
              · split
                · exact Or.inr ⟨handle, _, resolvePath_ne_nil _, Read.run_pure _ _⟩
                · exact Or.inr ⟨handle, path, hpath, Read.run_pure _ _⟩
              · exact Or.inr ⟨handle, path, hpath, Read.run_pure _ _⟩
            · exact Or.inr ⟨handle, path, hpath, Read.run_pure _ _⟩
          · exact Or.inl (Read.run_pure _ _)

/-- **EVICT**, on any bytes: nothing, or a handle is forgotten. -/
theorem evict_cases (t : HandlePathTracker) (mem : Memory) :
    (evict t).run mem = t ∨ ∃ handle, (evict t).run mem = t.forget handle := by
  rw [evict, Read.run_bind]
  cases (readHandle (cstr "handle")).run mem with
  | none => exact Or.inl (Read.run_pure _ _)
  | some handle =>
      dsimp only
      rw [Read.run_ite]
      split
      · exact Or.inl (Read.run_pure _ _)
      · rw [Read.run_bind, Read.run_pure]
        split
        · exact Or.inr ⟨handle, rfl⟩
        · exact Or.inl rfl

theorem PathsNonempty.afterCall {t : HandlePathTracker} (h : PathsNonempty t)
    (call : TrackerCall) : PathsNonempty (afterCall t call) := by
  cases call with
  | annotate e => exact h
  | observe e =>
      show PathsNonempty ((observe t).run e.byte)
      rcases observe_cases t e.byte with hsame | ⟨handle, path, hpath, hrecord⟩
      · rw [hsame]
        exact h
      · rw [hrecord]
        intro k q hfind
        rcases find_record_cases hfind with rfl | hold
        · exact hpath
        · exact h k q hold
  | evict e =>
      show PathsNonempty ((evict t).run e.byte)
      rcases evict_cases t e.byte with hsame | ⟨handle, hforget⟩
      · rw [hsame]
        exact h
      · rw [hforget]
        intro k q hfind
        rw [HandlePathTracker.find_forget] at hfind
        by_cases hk : k = handle
        · rw [hk, Function.update_self] at hfind
          cases hfind
        · rw [Function.update_of_ne hk] at hfind
          exact h k q hfind

/-- **ANY HISTORY**: the paths in the tracker are not empty. -/
theorem pathsNonempty_afterCalls (calls : List TrackerCall) :
    PathsNonempty (afterCalls calls) := by
  -- the last call is the outermost
  induction calls using List.reverseRecOn with
  | nil =>
      intro handle path hfind
      cases (HandlePathTracker.find_empty handle).symm.trans hfind
  | append_singleton calls call ih =>
      rw [afterCalls_snoc]
      exact ih.afterCall call

/-! ## The event afterwards -/

/-- The fields that `ParseTraceEvent` returns for an event of the size it declares. -/
def parsedFields (e : TraceEvent) : Option (List TraceField) :=
  ((parseTraceEvent e.size).run e.byte).map fun p => p.fields.map (toField e.byte)

theorem parsedFields_of_represents {e : TraceEvent} {m a : List UInt8} {fs : List TraceField}
    (h : Represents e m a fs) : parsedFields e = some fs := by
  have hacc := accepted_of_valid (valid_of_represents h)
  rw [parsedFields, (run_parseTraceEvent e e.size _).mpr ⟨hacc, rfl⟩, Option.map_some]
  exact congrArg some h.parsed.2.2.1

theorem wideValue_ne_nil {path : List UInt16} (h : path ≠ []) : wideValue path ≠ [] := by
  have h512 : traceMaxStringBytes = 512 := rfl
  have hlength := wideValue_length path
  have hpos := List.length_pos_iff.mpr h
  intro hnil
  rw [hnil, List.length_nil] at hlength
  omega

/-- **VALIDITY AND CONTENT**: after any calls, an accepted event is still accepted when it
    has been annotated; the bytes it had are as they were, but for `size` and
    `fieldCount`; and it is the same event, or its fields are followed by one more, a path
    that is not empty. -/
theorem annotate_preserves (calls : List TrackerCall) {e : TraceEvent}
    (hvalid : isValidReceived.run e.byte = true) :
    isValidReceived.run (annotate (afterCalls calls) e).byte = true ∧
      (∀ i, i < e.size → i ≠ 6 → i ≠ 7 → i ≠ 10 → i ≠ 11 →
        (annotate (afterCalls calls) e).byte i = e.byte i) ∧
      (annotate (afterCalls calls) e = e ∨
        ∃ fields value, value ≠ [] ∧ parsedFields e = some fields ∧
          parsedFields (annotate (afterCalls calls) e) = some (fields ++
            [⟨UInt8.ofNat TraceFieldType.wideString.code, cstr "path", value⟩])) := by
  have hrep := represents_of_valid hvalid
  by_cases hroom : ∃ path, annotationOf (afterCalls calls) (fieldsOf e) = some path ∧
      e.size + (pathField path).serialise.length ≤ traceMaxEventBytes
  · obtain ⟨path, hpath, hfit⟩ := hroom
    have hout := annotate_represents hrep hpath hfit
    have hfind : ∃ handle, (afterCalls calls).find handle = some path := by
      rw [annotationOf] at hpath
      split at hpath
      · rename_i handle _ _
        split at hpath
        · cases hpath
        · exact ⟨handle, hpath⟩
      · cases hpath
    obtain ⟨handle, hfind⟩ := hfind
    refine ⟨valid_of_represents hout, fun i hi h6 h7 h10 h11 => ?_, Or.inr ⟨fieldsOf e,
      wideValue path, wideValue_ne_nil (pathsNonempty_afterCalls calls handle path hfind),
      parsedFields_of_represents hrep, parsedFields_of_represents hout⟩⟩
    exact annotate_byte hrep hpath hfit hi (by omega) (by omega)
  · have hself : annotate (afterCalls calls) e = e :=
      annotate_eq_self hrep fun path hpath =>
        Nat.not_le.mp fun hfit => hroom ⟨path, hpath, hfit⟩
    rw [hself]
    exact ⟨hvalid, fun _ _ _ _ _ _ => rfl, Or.inl rfl⟩

/-- A file is opened, and then read. -/
theorem annotate_preserves_read :
    isValidReceived.run
        (annotate (afterCalls [.observe openRecord.event]) readRecord.event).byte = true ∧
      (∀ i, i < readRecord.event.size → i ≠ 6 → i ≠ 7 → i ≠ 10 → i ≠ 11 →
        (annotate (afterCalls [.observe openRecord.event]) readRecord.event).byte i
          = readRecord.event.byte i) ∧
      (annotate (afterCalls [.observe openRecord.event]) readRecord.event = readRecord.event ∨
        ∃ fields value, value ≠ [] ∧ parsedFields readRecord.event = some fields ∧
          parsedFields (annotate (afterCalls [.observe openRecord.event]) readRecord.event)
            = some (fields ++
              [⟨UInt8.ofNat TraceFieldType.wideString.code, cstr "path", value⟩])) :=
  annotate_preserves [.observe openRecord.event]
    (valid_of_represents wellFormed_readRecord.represents)

end ScopeAnnotation
