import ApiScope.TraceCorrelatorProofs
import ApiScope.TraceRendererProofs

/-! # Read bounds — the controller and adversarial events

    The controller copies all 1024 bytes of a slot but may look only at the
    header and the bytes the header declares: the rest is whatever an earlier
    event left there.  Every walker stays inside, on any bytes at all, and so
    two events with the same header and the same declared bytes are the same
    to the controller. -/

namespace ScopeBounds

open ScopeBytes ScopeRead ScopeRead.Read ScopeProtocol ScopeParser ScopeGrammar
  ScopeRenderer ScopeCorrelator

/-- `IsValidTraceEvent(event, event.header.size)`. -/
def isValidReceived : Read Bool := do
  let size ← readSize
  isValidTraceEvent size

theorem within_isValidReceived (e : TraceEvent) :
    Within (Declared e) isValidReceived e.byte := by
  refine within_seq (within_header e (by decide)) ?_
  exact within_seq (within_parseTraceEvent e _) (within_pure _ _ _)

theorem run_isValidReceived (e : TraceEvent) :
    isValidReceived.run e.byte = ((parseTraceEvent e.size).run e.byte).isSome := by
  rw [isValidReceived, Read.run_bind, run_readSize, isValidTraceEvent, Read.run_bind,
    Read.run_pure]

theorem accepted_of_valid {e : TraceEvent} (h : isValidReceived.run e.byte = true) :
    Accepted e e.size := by
  rw [run_isValidReceived] at h
  obtain ⟨p, hp⟩ := Option.isSome_iff_exists.mp h
  exact ((run_parseTraceEvent e _ p).mp hp).1

theorem valid_of_represents {e : TraceEvent} {m a : List UInt8} {fs : List TraceField}
    (h : Represents e m a fs) : isValidReceived.run e.byte = true := by
  obtain ⟨p, hp, -⟩ := h.parse
  rw [run_isValidReceived, hp]
  rfl

/-- A valid event declares no more bytes than it has. -/
theorem size_le_of_valid {e : TraceEvent} (h : isValidReceived.run e.byte = true) :
    e.size ≤ traceMaxEventBytes := (accepted_of_valid h).fits

/-! ## What an annotation stores -/

theorem run_appendWideString (e : TraceEvent) (name : List UInt8) (value : List UInt16) :
    (appendWideString name value).run e.byte
      = if traceMaxEventBytes
          < e.size + (sizeofFieldHeader + name.length + (wideValue value).length) then none
        else some
          { cursor := e.size
            header := UInt8.ofNat TraceFieldType.wideString.code :: UInt8.ofNat name.length
              :: leBytes 2 (wideValue value).length
            name := name
            value := wideValue value
            size := e.size + (sizeofFieldHeader + name.length + (wideValue value).length)
            fieldCount := e.fieldCount + 1 } := by
  simp only [appendWideString, Read.run_bind, run_readSize, run_readFieldCount,
    Read.run_ite, Read.run_pure]

/-- An annotation is an append of the path of some handle. -/
theorem run_annotationPlan {e : TraceEvent} {t : HandlePathTracker} {stores : FieldStores}
    (h : (annotationPlan t).run e.byte = some stores) :
    ∃ path, (appendWideString (cstr "path") path).run e.byte = some stores := by
  rw [annotationPlan, Read.run_bind] at h
  split at h
  · rw [Read.run_pure] at h
    cases h
  · rw [Read.run_bind] at h
    split at h
    · rw [Read.run_pure] at h
      cases h
    · rw [Read.run_ite] at h
      split at h
      · rw [Read.run_pure] at h
        cases h
      · split at h
        · rw [Read.run_pure] at h
          cases h
        · exact ⟨_, h⟩

/-- The stores cover exactly the bytes that the new size declares more. -/
theorem stores_fit {e : TraceEvent} {t : HandlePathTracker} {stores : FieldStores}
    (h : (annotationPlan t).run e.byte = some stores) :
    stores.cursor = e.size ∧
      stores.size = stores.cursor
        + (stores.header.length + (stores.name.length + stores.value.length)) ∧
      stores.size ≤ traceMaxEventBytes := by
  obtain ⟨path, hpath⟩ := run_annotationPlan h
  rw [run_appendWideString] at hpath
  split at hpath
  · cases hpath
  · rename_i hfits
    rw [← Option.some.inj hpath]
    have h4 : sizeofFieldHeader = 4 := rfl
    simp only [List.length_cons, leBytes_length]
    refine ⟨trivial, ?_, ?_⟩ <;> omega

theorem byte_setWord_congr {e e' : TraceEvent} {off n v i : Nat}
    (h : off + n ≤ traceMaxEventBytes) (hi : e'.byte i = e.byte i) :
    (e'.setWord off n v).byte i = (e.setWord off n v).byte i := by
  rw [TraceEvent.byte_setWord _ h, TraceEvent.byte_setWord _ h]
  by_cases hin : off ≤ i ∧ i < off + (leBytes n v).length
  · rw [store_inside hin.1 hin.2, store_inside hin.1 hin.2]
  · have hout : i < off ∨ off + (leBytes n v).length ≤ i := by omega
    rw [store_outside hout, store_outside hout, hi]

/-- Applying stores to two events that agree on the declared bytes. -/
theorem byte_apply_congr {e e' : TraceEvent} {stores : FieldStores}
    (hcursor : stores.cursor = e.size)
    (hsize : stores.size = stores.cursor
      + (stores.header.length + (stores.name.length + stores.value.length)))
    (hfits : stores.size ≤ traceMaxEventBytes)
    (h : ∀ i, Declared e i → e'.byte i = e.byte i) {i : Nat}
    (hi : Declared (stores.apply e) i) :
    (stores.apply e').byte i = (stores.apply e).byte i := by
  have hnew : (stores.apply e).size = stores.size :=
    size_countField _ _ (Nat.lt_of_le_of_lt hfits (by decide))
  have hmax : traceMaxEventBytes = 1024 := rfl
  have hwrite := @byte_writeField e stores.cursor stores.header stores.name stores.value
    (by omega)
  have hwrite' := @byte_writeField e' stores.cursor stores.header stores.name stores.value
    (by omega)
  refine byte_setWord_congr (by decide) (byte_setWord_congr (by decide) ?_)
  by_cases hlow : i < stores.cursor
  · rw [hwrite.2 i hlow, hwrite'.2 i hlow]
    exact h i (Or.inr (hcursor ▸ hlow))
  · by_cases hhigh : i < stores.size
    · refine byte_eq_of_slice_eq (hwrite'.1.trans hwrite.1.symm) (Nat.not_lt.mp hlow) ?_
      rw [List.length_append, List.length_append, ← hsize]
      exact hhigh
    · -- a header byte behind a declared size below the header
      have hhead : i < sizeofEventHeader := by
        rcases hi with hi | hi
        · exact hi
        · exact absurd (hnew ▸ hi) hhigh
      have hout : ∀ d : TraceEvent,
          (writeField d stores.cursor stores.header stores.name stores.value).byte i
            = d.byte i := by
        intro d
        have h1 : (d.store stores.cursor stores.header).byte
            = store d.byte stores.cursor stores.header := d.byte_store (by omega)
        rw [writeField, TraceEvent.byte_store _ (by omega),
          TraceEvent.byte_store _ (by omega), h1, store_outside (by omega),
          store_outside (by omega), store_outside (by omega)]
      rw [hout, hout]
      exact h i (Or.inl hhead)

/-! ## The bounds -/

/-- Everything the controller reads from an event that passes the check. -/
structure ReadsBounded (e : TraceEvent) (calls : SystemCalls) : Prop where
  size : e.size ≤ traceMaxEventBytes
  text : ∀ useColor, Within (Declared e) (renderTraceEventText calls useColor) e.byte
  jsonl : Within (Declared e) (renderTraceEventJsonl calls) e.byte
  observe : ∀ t, Within (Declared e) (observe t) e.byte
  annotate : ∀ t, Within (Declared e) (annotationPlan t) e.byte
  evict : ∀ t, Within (Declared e) (evict t) e.byte

/-- Two events are the same to the controller. -/
structure SameToController (e e' : TraceEvent) (calls : SystemCalls) : Prop where
  valid : isValidReceived.run e'.byte = isValidReceived.run e.byte
  text : ∀ useColor, (renderTraceEventText calls useColor).run e'.byte
    = (renderTraceEventText calls useColor).run e.byte
  jsonl : (renderTraceEventJsonl calls).run e'.byte
    = (renderTraceEventJsonl calls).run e.byte
  observe : ∀ t, (observe t).run e'.byte = (observe t).run e.byte
  annotationPlan : ∀ t, (annotationPlan t).run e'.byte = (annotationPlan t).run e.byte
  annotate : ∀ t i, Declared (annotate t e) i → (annotate t e').byte i = (annotate t e).byte i
  evict : ∀ t, (evict t).run e'.byte = (evict t).run e.byte

/-- **READ BOUNDS**: on any bytes, the check reads only the header and the
    declared bytes; when it accepts, so do the renderers and the tracker; and
    events that agree there are the same to the controller. -/
theorem reads_bounded (e : TraceEvent) (calls : SystemCalls) :
    Within (Declared e) isValidReceived e.byte ∧
      (isValidReceived.run e.byte = true → ReadsBounded e calls) ∧
      ∀ e' : TraceEvent, (∀ i, Declared e i → e'.byte i = e.byte i) →
        SameToController e e' calls := by
  refine ⟨within_isValidReceived e, ?_, ?_⟩
  · intro hvalid
    exact ⟨size_le_of_valid hvalid, within_renderTraceEventText e calls,
      within_renderTraceEventJsonl e calls, within_observe e, within_annotationPlan e,
      within_evict e⟩
  · intro e' hagree
    have hsame : ∀ {α : Type} {p : Read α}, Within (Declared e) p e.byte →
        p.run e'.byte = p.run e.byte := by
      intro α p hp
      exact (run_eq_of_within hp fun i hi => (hagree i hi).symm).symm
    refine ⟨hsame (within_isValidReceived e), fun useColor => ?_,
      hsame (within_renderTraceEventJsonl e calls), fun t => hsame (within_observe e t),
      fun t => hsame (within_annotationPlan e t), fun t i => ?_,
      fun t => hsame (within_evict e t)⟩
    · exact hsame (within_renderTraceEventText e calls useColor)
    · have hplan := hsame (within_annotationPlan e t)
      rw [ScopeCorrelator.annotate, ScopeCorrelator.annotate, hplan]
      cases hstores : (ScopeCorrelator.annotationPlan t).run e.byte with
      | none => exact hagree i
      | some stores =>
          obtain ⟨h1, h2, h3⟩ := stores_fit hstores
          exact byte_apply_congr h1 h2 h3 hagree

end ScopeBounds
