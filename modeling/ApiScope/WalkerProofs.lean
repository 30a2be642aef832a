import ApiScope.PathHistoryProofs

/-! # The walkers — FindField, HasTraceField and ParseTraceEvent

    Three loops walk over the fields of an event.  `ParseTraceEvent` checks
    everything and keeps a list, `FindField` checks that each field ends
    before the event does, `HasTraceField` checks nothing.  On an accepted
    event they agree: the first two by one lemma each about the fields that
    the header counts (`run_findFieldFrom_views`, `run_hasTraceFieldFrom_views`),
    with no use of what these fields hold.

    Where an event represents a list of fields, the list alone says what is
    walked over (`viewsOf_eq`), so a field behind the others adds one view
    behind the others, whichever of the two encoders wrote it. -/

namespace ScopeWalkers

open ScopeBytes ScopeRead ScopeProtocol ScopeParser ScopeGrammar ScopeTransport
  ScopeCorrelator ScopeBounds ScopePathHistory

/-! ## Looking up a view -/

/-- The field of a name in the list of the parser. -/
def viewNamed (views : List TraceFieldView) (name : List UInt8) : Option TraceFieldView :=
  views.find? fun v => v.name == name

/-- What `FindField` reports of a field. -/
def refOf (v : TraceFieldView) : FieldRef where
  type := v.type
  value := v.value
  valueSize := v.valueSize

/-- Both walkers compare the lengths first, then the bytes. -/
theorem name_viewAt_iff {mem : Memory} {cursor : Nat} {name : List UInt8} :
    (viewAt mem cursor).name = name ↔
      word mem (cursor + 1) 1 = name.length ∧
        (readEqual (cursor + sizeofFieldHeader) name).run mem = true := by
  rw [run_readEqual, Holds]
  constructor
  · intro h
    have hlen : word mem (cursor + 1) 1 = name.length := by
      rw [← h]
      exact (slice_length ..).symm
    refine ⟨hlen, ?_⟩
    rw [← hlen]
    exact h
  · rintro ⟨hlen, heq⟩
    show slice mem (cursor + sizeofFieldHeader) (word mem (cursor + 1) 1) = name
    rw [hlen, heq]

/-- The loop of `FindField` looks a name up among fields that end in time. -/
theorem run_findFieldFrom_views {mem : Memory} {last : Nat} (name : List UInt8)
    {count cursor : Nat} (hfits : ∀ v ∈ viewsAt mem count cursor, v.stop ≤ last) :
    (findFieldFrom last name count cursor).run mem
      = (viewNamed (viewsAt mem count cursor) name).map refOf := by
  induction count generalizing cursor with
  | zero => exact Read.run_pure _ _
  | succ count ih =>
      rw [viewsAt, List.forall_mem_cons] at hfits
      obtain ⟨hfit, hrest⟩ := hfits
      have hstop := stop_viewAt mem cursor
      have hnext : cursor + sizeofFieldHeader
          + (word mem (cursor + 1) 1 + word mem (cursor + 2) 2)
          = (viewAt mem cursor).stop := by omega
      have hwalk := ih hrest
      rw [findFieldFrom, if_neg (by omega), viewsAt, viewNamed, List.find?_cons]
      simp only [Read.run_bind, run_readWord, Read.run_ite, Read.run_pure]
      rw [if_neg (by omega), hnext, hwalk]
      by_cases hname : (viewAt mem cursor).name = name
      · obtain ⟨hlen, hread⟩ := name_viewAt_iff.mp hname
        rw [if_pos hlen, if_pos hread, beq_iff_eq.mpr hname]
        rfl
      · rw [beq_eq_false_iff_ne.mpr hname]
        by_cases hlen : word mem (cursor + 1) 1 = name.length
        · rw [if_pos hlen, if_neg fun hread => hname (name_viewAt_iff.mpr ⟨hlen, hread⟩)]
          rfl
        · rw [if_neg hlen]
          rfl

/-- The loop of `HasTraceField` looks a name up, wherever the fields end. -/
theorem run_hasTraceFieldFrom_views (mem : Memory) (name : List UInt8)
    (count cursor : Nat) :
    (hasTraceFieldFrom name count cursor).run mem
      = (viewNamed (viewsAt mem count cursor) name).isSome := by
  induction count generalizing cursor with
  | zero => exact Read.run_pure _ _
  | succ count ih =>
      have hstop := stop_viewAt mem cursor
      have hnext : cursor + sizeofFieldHeader
          + (word mem (cursor + 1) 1 + word mem (cursor + 2) 2)
          = (viewAt mem cursor).stop := by omega
      rw [hasTraceFieldFrom, viewsAt, viewNamed, List.find?_cons]
      simp only [Read.run_bind, run_readWord, Read.run_ite, Read.run_pure]
      rw [hnext, ih]
      by_cases hname : (viewAt mem cursor).name = name
      · obtain ⟨hlen, hread⟩ := name_viewAt_iff.mp hname
        rw [if_pos hlen, if_pos hread, beq_iff_eq.mpr hname]
        rfl
      · rw [beq_eq_false_iff_ne.mpr hname]
        by_cases hlen : word mem (cursor + 1) 1 = name.length
        · rw [if_pos hlen, if_neg fun hread => hname (name_viewAt_iff.mpr ⟨hlen, hread⟩)]
          rfl
        · rw [if_neg hlen]
          rfl

/-! ## One event -/

/-- The three walkers report these fields of the event. -/
structure Reports (e : TraceEvent) (views : List TraceFieldView) : Prop where
  parsed : ∃ p, (parseTraceEvent e.size).run e.byte = some p ∧ p.fields = views
  found : ∀ name, (findField name).run e.byte = (viewNamed views name).map refOf
  present : ∀ name, hasTraceField e name = (viewNamed views name).isSome

/-- **AGREEMENT** on an event that the parser accepts. -/
theorem reports_of_accepted {e : TraceEvent} (h : Accepted e e.size) :
    Reports e (viewsOf e) := by
  refine ⟨⟨_, (run_parseTraceEvent e e.size _).mpr ⟨h, rfl⟩, rfl⟩, fun name => ?_,
    fun name => ?_⟩
  · simp only [findField, Read.run_bind, run_readModuleNameLength, run_readApiNameLength,
      run_readSize, run_readFieldCount]
    exact run_findFieldFrom_views name fun v hv => (h.fields v hv).fits
  · rw [hasTraceField, traceNameBytes, ← Nat.add_assoc]
    exact run_hasTraceFieldFrom_views e.byte name e.fieldCount (fieldsStart e)

/-! ## Views of a list of fields -/

/-- The view of a field at a cursor. -/
def viewOf (cursor : Nat) (f : TraceField) : TraceFieldView where
  type := f.type.toNat
  nameLength := f.name.length
  valueSize := f.value.length
  name := f.name
  value := cursor + sizeofFieldHeader + f.name.length

/-- The views of fields that stand one behind the other. -/
def layout : Nat → List TraceField → List TraceFieldView
  | _, [] => []
  | cursor, f :: fs => viewOf cursor f :: layout (cursor + f.serialise.length) fs

theorem layout_append (cursor : Nat) (fs gs : List TraceField) :
    layout cursor (fs ++ gs)
      = layout cursor fs ++ layout (cursor + (serialiseFields fs).length) gs := by
  induction fs generalizing cursor with
  | nil => rfl
  | cons f fs ih =>
      rw [List.cons_append, layout, layout, ih, serialiseFields_cons, List.length_append,
        Nat.add_assoc, List.cons_append]

/-- Held fields are seen where they were put. -/
theorem viewsAt_eq_layout {mem : Memory} {fs : List TraceField} {cursor : Nat}
    (hlen : ∀ f ∈ fs, f.name.length < 256 ∧ f.value.length < 65536)
    (h : Holds mem cursor (serialiseFields fs)) :
    viewsAt mem fs.length cursor = layout cursor fs := by
  induction fs generalizing cursor with
  | nil => rfl
  | cons f fs ih =>
      rw [serialiseFields_cons] at h
      obtain ⟨h1, h2⟩ := holds_append.mp h
      obtain ⟨hn, hv⟩ := hlen f List.mem_cons_self
      obtain ⟨htype, hnl, hvl, hname, -⟩ := holds_field hn hv h1
      obtain ⟨-, hstop⟩ := view_of_holds hn hv h1
      have hview : viewAt mem cursor = viewOf cursor f := by
        have hname' : slice mem (cursor + sizeofFieldHeader) f.name.length = f.name := hname
        rw [viewAt, viewOf, hnl, hvl, word_one, htype, hname']
      rw [List.length_cons, viewsAt, layout, hstop,
        ih (fun g hg => hlen g (List.mem_cons_of_mem _ hg)) h2, hview]

section Represented

variable {e e' : TraceEvent} {m a : List UInt8} {fs : List TraceField}

/-- The content of an event says what the walkers see. -/
theorem viewsOf_eq (h : Represents e m a fs) :
    viewsOf e = layout (sizeofEventHeader + m.length + a.length) fs := by
  obtain ⟨-, hrest⟩ := holds_append.mp h.held
  obtain ⟨-, hf⟩ := holds_append.mp hrest
  rw [viewsOf, fieldsStart, h.moduleNameLength, h.apiNameLength, h.fieldCount]
  exact viewsAt_eq_layout h.field_lengths hf

theorem reports_of_represents (h : Represents e m a fs) : Reports e (viewsOf e) :=
  reports_of_accepted (accepted_of_valid (valid_of_represents h))

/-- **ONE FIELD MORE**: what is reported of an event with another field behind
    its own. -/
theorem reports_snoc (h : Represents e m a fs) {f : TraceField}
    (h' : Represents e' m a (fs ++ [f])) : Reports e' (viewsOf e ++ [viewOf e.size f]) := by
  have hsize : sizeofEventHeader + m.length + a.length + (serialiseFields fs).length
      = e.size := by
    rw [h.size, List.length_append, List.length_append]
    omega
  have hviews : viewsOf e' = viewsOf e ++ [viewOf e.size f] := by
    rw [viewsOf_eq h', layout_append, ← viewsOf_eq h, hsize]
    rfl
  rw [← hviews]
  exact reports_of_represents h'

end Represented

/-! ## The second encoder -/

/-- The field `AppendWideString` writes. -/
def wideField (name : List UInt8) (value : List UInt16) : TraceField :=
  fieldOf .wideString name (wideValue value)

theorem wideField_ok {name : List UInt8} (hname : FieldNameOk name) (value : List UInt16) :
    (wideField name value).Ok := by
  refine fieldOf_ok hname ?_
  have h512 : traceMaxStringBytes = 512 := rfl
  have hlength := wideValue_length value
  show (wideValue value).length % 2 = 0 ∧ (wideValue value).length ≤ traceMaxStringBytes
  omega

/-- What `AppendWideString` stores is one field more. -/
theorem appendWideString_represents {e : TraceEvent} {m a : List UInt8}
    {fs : List TraceField} (h : Represents e m a fs) {name : List UInt8}
    (hname : FieldNameOk name) (hnew : name ∉ fs.map TraceField.name) {value : List UInt16}
    {stores : FieldStores} (hrun : (appendWideString name value).run e.byte = some stores) :
    Represents (stores.apply e) m a (fs ++ [wideField name value]) := by
  rw [run_appendWideString] at hrun
  split at hrun
  · cases hrun
  · rename_i hfit
    have hlen : (wideField name value).serialise.length
        = sizeofFieldHeader + name.length + (wideValue value).length :=
      TraceField.serialise_length _
    have happend := h.append (wideField_ok hname value) hnew
      (by rw [hlen]; exact Nat.not_lt.mp hfit) rfl
    rw [hlen] at happend
    rw [← Option.some.inj hrun]
    exact happend

/-! ## The three walkers agree -/

/-- The view of the field that an append puts behind the event. -/
def appendedView (e : TraceEvent) (type : TraceFieldType) (name value : List UInt8) :
    TraceFieldView where
  type := type.code
  nameLength := name.length
  valueSize := value.length
  name := name
  value := e.size + sizeofFieldHeader + name.length

theorem viewOf_fieldOf (e : TraceEvent) (type : TraceFieldType) (name value : List UInt8) :
    viewOf e.size (fieldOf type name value) = appendedView e type name value := by
  have htype : (UInt8.ofNat type.code).toNat = type.code := by
    rw [UInt8.toNat_ofNat', Nat.mod_eq_of_lt type.code_lt]
  rw [viewOf, appendedView, fieldOf, htype]

/-- **THE WALKERS AGREE** on every accepted event, and go on to agree after a
    successful append of a well-typed value and after `AppendWideString` of a
    field name that is not yet there: the event is accepted again, and all
    three report the fields they reported and the new one behind them. -/
theorem walkers_agree {e : TraceEvent} {bytesReceived : Nat}
    (h : (isValidTraceEvent bytesReceived).run e.byte = true) :
    ∃ views, Reports e views ∧
      (∀ type name value valueSize e', ValueOk type.code (bytesAt value valueSize) →
        appendTraceField e type name (some value) valueSize = (e', true) →
        ∃ s, name = some s ∧ Reports e'
          (views ++ [appendedView e type (cValue s) (bytesAt value valueSize)])) ∧
      ∀ name value stores, FieldNameOk name → viewNamed views name = none →
        (appendWideString name value).run e.byte = some stores →
        Reports (stores.apply e)
          (views ++ [appendedView e .wideString name (wideValue value)]) := by
  rw [isValidTraceEvent, Read.run_bind, Read.run_pure] at h
  obtain ⟨p, hp⟩ := Option.isSome_iff_exists.mp h
  obtain ⟨hacc, -⟩ := (run_parseTraceEvent e bytesReceived p).mp hp
  obtain ⟨-, m, a, fs, hrep⟩ := accepted_iff.mp hacc
  refine ⟨viewsOf e, reports_of_represents hrep, ?_, ?_⟩
  · intro type name value valueSize e' hvalue happend
    rcases append_represents hrep type name value hvalue with
      ⟨s, e'', hs, heq, hrep', -⟩ | ⟨e'', heq, -⟩
    · rw [happend] at heq
      cases heq
      refine ⟨s, hs, ?_⟩
      rw [← viewOf_fieldOf]
      exact reports_snoc hrep hrep'
    · rw [happend] at heq
      cases heq
  · intro name value stores hname hnew hrun
    have hnew' : name ∉ fs.map TraceField.name := by
      rw [← hrep.parsed.2.2.1, map_name_toField]
      intro hmem
      obtain ⟨v, hv, hvname⟩ := List.mem_map.mp hmem
      exact (List.find?_eq_none.mp hnew v hv) (beq_iff_eq.mpr hvname)
    rw [← viewOf_fieldOf]
    exact reports_snoc hrep (appendWideString_represents hrep hname hnew' hrun)

/-- A read, with no field of any name its list does not have; then a path is
    appended to it. -/
theorem walkers_agree_read :
    ∃ views, Reports readRecord.event views ∧
      (∀ type name value valueSize e', ValueOk type.code (bytesAt value valueSize) →
        appendTraceField readRecord.event type name (some value) valueSize = (e', true) →
        ∃ s, name = some s ∧ Reports e' (views
          ++ [appendedView readRecord.event type (cValue s) (bytesAt value valueSize)])) ∧
      ∀ name value stores, FieldNameOk name → viewNamed views name = none →
        (appendWideString name value).run readRecord.event.byte = some stores →
        Reports (stores.apply readRecord.event)
          (views ++ [appendedView readRecord.event .wideString name (wideValue value)]) := by
  have hvalid := valid_of_represents wellFormed_readRecord.represents
  rw [isValidReceived, Read.run_bind, run_readSize] at hvalid
  exact walkers_agree hvalid

end ScopeWalkers
