import ApiScope.TraceParserProofs

/-! # The trace grammar — what ParseTraceEvent accepts

    An abstract event is a header, two identifiers and a list of fields; its
    serialisation is the concatenation of their bytes.  The parser accepts
    exactly the events whose declared bytes are the serialisation of a well
    formed abstract event, and hands that event out: walking the bytes and
    concatenating them are inverse to each other, field by field
    (`serialise_views`, `views_of_holds`). -/

namespace ScopeGrammar

open ScopeBytes ScopeRead ScopeProtocol ScopeParser

/-! ## Abstract events -/

structure TraceField where
  type : UInt8
  name : List UInt8
  value : List UInt8
  deriving DecidableEq

namespace TraceField

/-- The 4-byte field header, the name, the value. -/
def serialise (f : TraceField) : List UInt8 :=
  f.type :: UInt8.ofNat f.name.length :: (leBytes 2 f.value.length ++ (f.name ++ f.value))

theorem serialise_length (f : TraceField) :
    f.serialise.length = sizeofFieldHeader + f.name.length + f.value.length := by
  simp only [serialise, List.length_cons, List.length_append, leBytes_length]
  show _ = 4 + _ + _
  omega

/-- A name and a value that pass their checks. -/
structure Ok (f : TraceField) : Prop where
  nameOk : FieldNameOk f.name
  valueOk : ValueOk f.type.toNat f.value

end TraceField

def serialiseFields (fs : List TraceField) : List UInt8 :=
  fs.flatMap TraceField.serialise

theorem serialiseFields_cons (f : TraceField) (fs : List TraceField) :
    serialiseFields (f :: fs) = f.serialise ++ serialiseFields fs := by
  rw [serialiseFields, serialiseFields, List.flatMap_cons]

theorem serialiseFields_append (fs gs : List TraceField) :
    serialiseFields (fs ++ gs) = serialiseFields fs ++ serialiseFields gs := by
  rw [serialiseFields, serialiseFields, serialiseFields, List.flatMap_append]

/-- An abstract event: the members of the header that the parser does not
    check, the names and the fields. -/
structure TraceRecord where
  flags : UInt16
  sequence : UInt32
  timestamp100ns : UInt64
  threadId : UInt32
  reserved : UInt16
  moduleName : List UInt8
  apiName : List UInt8
  fields : List TraceField

namespace TraceRecord

def payload (r : TraceRecord) : List UInt8 :=
  r.moduleName ++ (r.apiName ++ serialiseFields r.fields)

def size (r : TraceRecord) : Nat := sizeofEventHeader + r.payload.length

/-- The 32 bytes of the header. -/
def header (r : TraceRecord) : List UInt8 :=
  leBytes 4 traceEventMagic ++ (leBytes 2 traceEventVersion ++ (leBytes 2 r.size ++
    (leBytes 2 r.flags.toNat ++ (leBytes 2 r.fields.length ++
    (leBytes 4 r.sequence.toNat ++ (leBytes 8 r.timestamp100ns.toNat ++
    (leBytes 4 r.threadId.toNat ++ (leBytes 1 r.moduleName.length ++
    (leBytes 1 r.apiName.length ++ leBytes 2 r.reserved.toNat)))))))))

def serialise (r : TraceRecord) : List UInt8 := r.header ++ r.payload

structure WellFormed (r : TraceRecord) : Prop where
  moduleName : IdentifierOk true r.moduleName
  apiName : IdentifierOk false r.apiName
  fields : ∀ f ∈ r.fields, f.Ok
  distinct : (r.fields.map TraceField.name).Nodup
  fits : r.size ≤ traceMaxEventBytes

theorem header_length (r : TraceRecord) : r.header.length = sizeofEventHeader := by
  simp only [header, List.length_append, leBytes_length]
  rfl

theorem serialise_length (r : TraceRecord) : r.serialise.length = r.size := by
  rw [serialise, List.length_append, header_length, size]

end TraceRecord

/-! ## Fields and their bytes -/

/-- The abstract field a view stands for. -/
def toField (mem : Memory) (v : TraceFieldView) : TraceField where
  type := UInt8.ofNat v.type
  name := v.name
  value := v.valueBytes mem

theorem stop_ge (mem : Memory) (cursor : Nat) : cursor ≤ (viewAt mem cursor).stop := by
  rw [stop_viewAt]
  omega

theorem stopAt_ge (mem : Memory) (count cursor : Nat) :
    cursor ≤ stopAt mem count cursor := by
  induction count generalizing cursor with
  | zero => exact Nat.le_refl _
  | succ count ih => exact Nat.le_trans (stop_ge mem cursor) (ih _)

/-- Serialising the field at a cursor gives its bytes back. -/
theorem serialise_view (mem : Memory) (cursor : Nat) :
    Holds mem cursor (toField mem (viewAt mem cursor)).serialise ∧
      (toField mem (viewAt mem cursor)).serialise.length
        = (viewAt mem cursor).stop - cursor := by
  have hname : (viewAt mem cursor).name.length = word mem (cursor + 1) 1 :=
    slice_length ..
  have hvalue : ((viewAt mem cursor).valueBytes mem).length = word mem (cursor + 2) 2 :=
    slice_length ..
  constructor
  · refine holds_cons.mpr ⟨?_, holds_cons.mpr ⟨?_, ?_⟩⟩
    · show mem cursor = UInt8.ofNat (word mem cursor 1)
      rw [word_one, UInt8.ofNat_toNat]
    · show mem (cursor + 1) = UInt8.ofNat (viewAt mem cursor).name.length
      rw [hname, word_one, UInt8.ofNat_toNat]
    · refine holds_append.mpr ⟨?_, holds_append.mpr ⟨?_, ?_⟩⟩
      · refine holds_leBytes.mpr ?_
        show _ = ((viewAt mem cursor).valueBytes mem).length % 256 ^ 2
        rw [hvalue, Nat.mod_eq_of_lt (word_lt mem (cursor + 2) 2)]
      · rw [leBytes_length]
        exact holds_slice mem (cursor + 4) _
      · rw [leBytes_length]
        show Holds mem (cursor + 4 + (viewAt mem cursor).name.length) _
        rw [hname]
        exact holds_slice mem _ _
  · rw [TraceField.serialise_length, stop_viewAt]
    show sizeofFieldHeader + (viewAt mem cursor).name.length
      + ((viewAt mem cursor).valueBytes mem).length = _
    rw [hname, hvalue]
    omega

/-- The words and runs of a serialised field. -/
theorem holds_field {mem : Memory} {cursor : Nat} {f : TraceField}
    (hn : f.name.length < 256) (hv : f.value.length < 65536)
    (h : Holds mem cursor f.serialise) :
    mem cursor = f.type ∧ word mem (cursor + 1) 1 = f.name.length ∧
      word mem (cursor + 2) 2 = f.value.length ∧
      Holds mem (cursor + sizeofFieldHeader) f.name ∧
      Holds mem (cursor + sizeofFieldHeader + f.name.length) f.value := by
  obtain ⟨htype, h⟩ := holds_cons.mp h
  obtain ⟨hlen, h⟩ := holds_cons.mp h
  obtain ⟨hsize, h⟩ := holds_append.mp h
  obtain ⟨hname, hvalue⟩ := holds_append.mp h
  rw [leBytes_length] at hname hvalue
  refine ⟨htype, ?_, ?_, hname, hvalue⟩
  · rw [word_one, hlen, UInt8.toNat_ofNat', Nat.mod_eq_of_lt hn]
  · exact (holds_leBytes.mp hsize).trans (Nat.mod_eq_of_lt hv)

/-- A serialised field is read back, and the cursor moves behind it. -/
theorem view_of_holds {mem : Memory} {cursor : Nat} {f : TraceField}
    (hn : f.name.length < 256) (hv : f.value.length < 65536)
    (h : Holds mem cursor f.serialise) :
    toField mem (viewAt mem cursor) = f ∧
      (viewAt mem cursor).stop = cursor + f.serialise.length := by
  obtain ⟨htype, hnl, hvl, hname, hvalue⟩ := holds_field hn hv h
  refine ⟨?_, ?_⟩
  · have ht : UInt8.ofNat (word mem cursor 1) = f.type := by
      rw [word_one, UInt8.ofNat_toNat, htype]
    have hna : slice mem (cursor + sizeofFieldHeader) (word mem (cursor + 1) 1)
        = f.name := by
      rw [hnl]
      exact hname
    have hva : slice mem (cursor + sizeofFieldHeader + word mem (cursor + 1) 1)
        (word mem (cursor + 2) 2) = f.value := by
      rw [hnl, hvl]
      exact hvalue
    show TraceField.mk _ _ _ = f
    obtain ⟨type, name, value⟩ := f
    exact congr (congr (congrArg TraceField.mk ht) hna) hva
  · rw [stop_viewAt, hnl, hvl, TraceField.serialise_length]
    omega

/-- **WALK, THEN SERIALISE**: the fields walked over serialise to the bytes
    walked over. -/
theorem serialise_views (mem : Memory) (count cursor : Nat) :
    Holds mem cursor (serialiseFields ((viewsAt mem count cursor).map (toField mem))) ∧
      (serialiseFields ((viewsAt mem count cursor).map (toField mem))).length
        = stopAt mem count cursor - cursor := by
  induction count generalizing cursor with
  | zero =>
      refine ⟨holds_nil mem cursor, ?_⟩
      show 0 = cursor - cursor
      omega
  | succ count ih =>
      obtain ⟨h1, h2⟩ := serialise_view mem cursor
      obtain ⟨h3, h4⟩ := ih (viewAt mem cursor).stop
      have hle := stop_ge mem cursor
      have hle' := stopAt_ge mem count (viewAt mem cursor).stop
      rw [viewsAt, stopAt, List.map_cons, serialiseFields_cons]
      refine ⟨holds_append.mpr ⟨h1, ?_⟩, ?_⟩
      · rw [h2, show cursor + ((viewAt mem cursor).stop - cursor)
          = (viewAt mem cursor).stop by omega]
        exact h3
      · rw [List.length_append, h2, h4]
        omega

/-- **SERIALISE, THEN WALK**: held fields are walked over one by one. -/
theorem views_of_holds {mem : Memory} {fs : List TraceField} {cursor : Nat}
    (hlen : ∀ f ∈ fs, f.name.length < 256 ∧ f.value.length < 65536)
    (h : Holds mem cursor (serialiseFields fs)) :
    (viewsAt mem fs.length cursor).map (toField mem) = fs ∧
      stopAt mem fs.length cursor = cursor + (serialiseFields fs).length := by
  induction fs generalizing cursor with
  | nil => exact ⟨rfl, rfl⟩
  | cons f fs ih =>
      rw [serialiseFields_cons] at h
      obtain ⟨h1, h2⟩ := holds_append.mp h
      obtain ⟨hn, hv⟩ := hlen f List.mem_cons_self
      obtain ⟨hview, hstop⟩ := view_of_holds hn hv h1
      rw [← hstop] at h2
      obtain ⟨hviews, hstops⟩ := ih (fun g hg => hlen g (List.mem_cons_of_mem _ hg)) h2
      rw [List.length_cons, viewsAt, stopAt, List.map_cons, hview, hviews, hstops,
        serialiseFields_cons, List.length_append, hstop]
      exact ⟨rfl, by omega⟩

/-! ## Events and their content -/

/-- The event's declared bytes are two names and a list of fields, all well
    formed. -/
structure Represents (e : TraceEvent) (moduleName apiName : List UInt8)
    (fields : List TraceField) : Prop where
  magic : e.magic = traceEventMagic
  version : e.version = traceEventVersion
  moduleNameLength : e.moduleNameLength = moduleName.length
  apiNameLength : e.apiNameLength = apiName.length
  fieldCount : e.fieldCount = fields.length
  size : e.size = sizeofEventHeader
    + (moduleName ++ (apiName ++ serialiseFields fields)).length
  fits : e.size ≤ traceMaxEventBytes
  held : Holds e.byte sizeofEventHeader
    (moduleName ++ (apiName ++ serialiseFields fields))
  moduleOk : IdentifierOk true moduleName
  apiOk : IdentifierOk false apiName
  fieldsOk : ∀ f ∈ fields, f.Ok
  distinct : (fields.map TraceField.name).Nodup

theorem length_le_serialiseFields {fs : List TraceField} {f : TraceField}
    (hf : f ∈ fs) : f.serialise.length ≤ (serialiseFields fs).length := by
  obtain ⟨as, bs, rfl⟩ := List.append_of_mem hf
  rw [serialiseFields_append, serialiseFields_cons, List.length_append,
    List.length_append]
  omega

theorem length_le_fields (fs : List TraceField) :
    fs.length ≤ (serialiseFields fs).length := by
  induction fs with
  | nil => exact Nat.le_refl _
  | cons f fs ih =>
      rw [serialiseFields_cons, List.length_append, List.length_cons, f.serialise_length]
      have h4 : sizeofFieldHeader = 4 := rfl
      omega

/-- The length members of a field can hold its lengths. -/
theorem Represents.field_lengths {e : TraceEvent} {m a : List UInt8}
    {fs : List TraceField} (h : Represents e m a fs) :
    ∀ f ∈ fs, f.name.length < 256 ∧ f.value.length < 65536 := by
  intro f hf
  have h1 := length_le_serialiseFields hf
  have h2 := h.size
  have h3 := h.fits
  have hmax : traceMaxEventBytes = 1024 := rfl
  have hnm : traceMaxFieldNameBytes = 63 := rfl
  rw [f.serialise_length] at h1
  rw [List.length_append, List.length_append] at h2
  refine ⟨?_, by omega⟩
  have hname := (h.fieldsOk f hf).nameOk
  cases hn : f.name with
  | nil =>
      rw [hn] at hname
      exact hname.elim
  | cons c cs =>
      rw [hn] at hname
      have := hname.1
      rw [List.length_cons]
      omega

/-- The names and fields of a represented event are where the parser looks. -/
theorem Represents.parsed {e : TraceEvent} {m a : List UInt8} {fs : List TraceField}
    (h : Represents e m a fs) :
    moduleNameOf e = m ∧ apiNameOf e = a ∧
      (viewsOf e).map (toField e.byte) = fs ∧
      stopAt e.byte e.fieldCount (fieldsStart e) = e.size := by
  obtain ⟨hm, hrest⟩ := holds_append.mp h.held
  obtain ⟨ha, hf⟩ := holds_append.mp hrest
  have hstart : fieldsStart e = sizeofEventHeader + m.length + a.length := by
    rw [fieldsStart, h.moduleNameLength, h.apiNameLength]
  obtain ⟨hviews, hstop⟩ := views_of_holds h.field_lengths hf
  refine ⟨?_, ?_, ?_, ?_⟩
  · rw [moduleNameOf, h.moduleNameLength]
    exact hm
  · rw [apiNameOf, h.moduleNameLength, h.apiNameLength]
    exact ha
  · rw [viewsOf, h.fieldCount, hstart]
    exact hviews
  · rw [h.fieldCount, hstart, hstop, h.size, List.length_append, List.length_append]
    omega

theorem ok_of_toField {mem : Memory} {v : TraceFieldView} {last : Nat}
    (hfits : v.stop ≤ last) (htype : v.type < 256) (h : (toField mem v).Ok) :
    v.Ok mem last := by
  refine ⟨hfits, h.nameOk, ?_⟩
  have hv := h.valueOk
  rw [toField, UInt8.toNat_ofNat', Nat.mod_eq_of_lt htype] at hv
  exact hv

theorem toField_ok {mem : Memory} {v : TraceFieldView} {last : Nat}
    (htype : v.type < 256) (h : v.Ok mem last) : (toField mem v).Ok := by
  refine ⟨h.nameOk, ?_⟩
  rw [toField, UInt8.toNat_ofNat', Nat.mod_eq_of_lt htype]
  exact h.valueOk

/-- Each walked field is read at some cursor and ends before the walk does. -/
theorem mem_viewsAt {mem : Memory} {count cursor : Nat} {v : TraceFieldView}
    (hv : v ∈ viewsAt mem count cursor) :
    v.type < 256 ∧ v.stop ≤ stopAt mem count cursor := by
  induction count generalizing cursor with
  | zero => cases hv
  | succ count ih =>
      rw [viewsAt] at hv
      rw [stopAt]
      rcases List.mem_cons.mp hv with rfl | hv
      · exact ⟨word_lt mem cursor 1, stopAt_ge _ _ _⟩
      · exact ih hv

theorem map_name_toField (mem : Memory) (vs : List TraceFieldView) :
    (vs.map (toField mem)).map TraceField.name = vs.map TraceFieldView.name := by
  rw [List.map_map]
  rfl

/-- **ACCEPTANCE**: an event is accepted exactly when it represents something,
    and that is what the parser finds. -/
theorem accepted_iff {e : TraceEvent} {n : Nat} :
    Accepted e n ↔ e.size = n ∧ ∃ m a fs, Represents e m a fs := by
  constructor
  · intro h
    refine ⟨h.received, moduleNameOf e, apiNameOf e,
      (viewsOf e).map (toField e.byte), ?_⟩
    obtain ⟨hholds, hlen⟩ := serialise_views e.byte e.fieldCount (fieldsStart e)
    rw [h.stop] at hlen
    have hnames := h.names
    have hml : (moduleNameOf e).length = e.moduleNameLength := slice_length ..
    have hal : (apiNameOf e).length = e.apiNameLength := slice_length ..
    refine ⟨h.magic, h.version, hml.symm, hal.symm, ?_, ?_, h.fits, ?_,
      h.moduleName, h.apiName, ?_, ?_⟩
    · rw [List.length_map, viewsOf, viewsAt_length]
    · rw [List.length_append, List.length_append, hml, hal]
      rw [viewsOf, hlen]
      rw [fieldsStart] at hnames ⊢
      omega
    · refine holds_append.mpr ⟨holds_slice _ _ _, holds_append.mpr ⟨?_, ?_⟩⟩
      · rw [hml]
        exact holds_slice _ _ _
      · rw [hml, hal]
        exact hholds
    · intro f hf
      obtain ⟨v, hv, rfl⟩ := List.mem_map.mp hf
      exact toField_ok (mem_viewsAt hv).1 (h.fields v hv)
    · rw [map_name_toField]
      exact h.distinct
  · rintro ⟨hn, m, a, fs, h⟩
    obtain ⟨hm, ha, hviews, hstop⟩ := h.parsed
    refine ⟨h.magic, h.version, hn, h.fits, ?_, hm.symm ▸ h.moduleOk,
      ha.symm ▸ h.apiOk, ?_, ?_, hstop⟩
    · rw [fieldsStart, h.moduleNameLength, h.apiNameLength, h.size,
        List.length_append, List.length_append]
      omega
    · intro v hv
      obtain ⟨htype, hle⟩ := mem_viewsAt hv
      refine ok_of_toField (by rw [← hstop]; exact hle) htype ?_
      refine h.fieldsOk _ ?_
      rw [← hviews]
      exact List.mem_map_of_mem hv
    · rw [← map_name_toField e.byte, hviews]
      exact h.distinct

/-! ## Changing a represented event -/

/-- The flags, the members from the sequence to the thread id, and the rest of
    the payload are not part of the content. -/
theorem Represents.congr {e e' : TraceEvent} {m a : List UInt8} {fs : List TraceField}
    (h : Represents e m a fs)
    (hsame : ∀ i, i < e.size → i < 8 ∨ 10 ≤ i → i < 12 ∨ 28 ≤ i → e'.byte i = e.byte i) :
    Represents e' m a fs := by
  have h32 : sizeofEventHeader ≤ e.size := by
    rw [h.size]
    omega
  have hs : sizeofEventHeader = 32 := rfl
  have hword : ∀ off n, off + n ≤ 32 → (off + n ≤ 8 ∨ 10 ≤ off) →
      (off + n ≤ 12 ∨ 28 ≤ off) → word e'.byte off n = word e.byte off n :=
    fun off n hle h1 h2 =>
      word_congr fun i h3 h4 => hsame i (by omega) (by omega) (by omega)
  have hsize : e'.size = e.size := hword 6 2 (by omega) (by omega) (by omega)
  refine ⟨?_, ?_, ?_, ?_, ?_, hsize.trans h.size, by rw [hsize]; exact h.fits, ?_,
    h.moduleOk, h.apiOk, h.fieldsOk, h.distinct⟩
  · exact (hword 0 4 (by omega) (by omega) (by omega)).trans h.magic
  · exact (hword 4 2 (by omega) (by omega) (by omega)).trans h.version
  · exact (hword 28 1 (by omega) (by omega) (by omega)).trans h.moduleNameLength
  · exact (hword 29 1 (by omega) (by omega) (by omega)).trans h.apiNameLength
  · exact (hword 10 2 (by omega) (by omega) (by omega)).trans h.fieldCount
  · refine (holds_congr fun i h1 h2 => ?_).mpr h.held
    rw [← h.size] at h2
    exact hsame i h2 (by omega) (by omega)

/-- One field more, written behind the last one. -/
theorem Represents.snoc {e e' : TraceEvent} {m a : List UInt8} {fs : List TraceField}
    (h : Represents e m a fs) {f : TraceField} (hok : f.Ok)
    (hnew : f.name ∉ fs.map TraceField.name)
    (hfit : e.size + f.serialise.length ≤ traceMaxEventBytes)
    (hsize : e'.size = e.size + f.serialise.length)
    (hcount : e'.fieldCount = e.fieldCount + 1)
    (hsame : ∀ i, i < e.size → i < 6 ∨ 8 ≤ i → i < 10 ∨ 12 ≤ i →
      e'.byte i = e.byte i)
    (hheld : Holds e'.byte e.size f.serialise) :
    Represents e' m a (fs ++ [f]) := by
  have h32 : sizeofEventHeader ≤ e.size := by
    rw [h.size]
    omega
  have hs : sizeofEventHeader = 32 := rfl
  have hword : ∀ off n, off + n ≤ 32 → (off + n ≤ 6 ∨ 8 ≤ off) →
      (off + n ≤ 10 ∨ 12 ≤ off) → word e'.byte off n = word e.byte off n :=
    fun off n hle h1 h2 =>
      word_congr fun i h3 h4 => hsame i (by omega) (by omega) (by omega)
  have hfields : serialiseFields (fs ++ [f]) = serialiseFields fs ++ f.serialise := by
    rw [serialiseFields_append, serialiseFields_cons]
    exact congrArg (serialiseFields fs ++ ·) (List.append_nil f.serialise)
  -- names and fields are one run of bytes, and the new field stands behind it
  have hrun : m ++ (a ++ serialiseFields (fs ++ [f]))
      = (m ++ (a ++ serialiseFields fs)) ++ f.serialise := by
    rw [hfields, List.append_assoc, List.append_assoc]
  refine ⟨?_, ?_, ?_, ?_, ?_, ?_, by rw [hsize]; exact hfit, ?_, h.moduleOk, h.apiOk,
    ?_, ?_⟩
  · exact (hword 0 4 (by omega) (by omega) (by omega)).trans h.magic
  · exact (hword 4 2 (by omega) (by omega) (by omega)).trans h.version
  · exact (hword 28 1 (by omega) (by omega) (by omega)).trans h.moduleNameLength
  · exact (hword 29 1 (by omega) (by omega) (by omega)).trans h.apiNameLength
  · rw [hcount, h.fieldCount, List.length_append, List.length_singleton]
  · rw [hsize, hrun, List.length_append, h.size]
    omega
  · rw [hrun]
    refine holds_append.mpr ⟨(holds_congr fun i h1 h2 => ?_).mpr h.held, ?_⟩
    · rw [← h.size] at h2
      exact hsame i h2 (by omega) (by omega)
    · rw [← h.size]
      exact hheld
  · intro g hg
    rcases List.mem_append.mp hg with hg | hg
    · exact h.fieldsOk g hg
    · rw [List.mem_singleton.mp hg]
      exact hok
  · rw [List.map_append, List.map_singleton]
    refine List.nodup_append.mpr ⟨h.distinct, by simp, ?_⟩
    intro x hx y hy hxy
    rw [hxy, List.mem_singleton.mp hy] at hx
    exact hnew hx

/-- The three stores that write a field. -/
def writeField (e : TraceEvent) (cursor : Nat) (header name value : List UInt8) :
    TraceEvent :=
  ((e.store cursor header).store (cursor + header.length) name).store
    (cursor + header.length + name.length) value

theorem byte_writeField {e : TraceEvent} {cursor : Nat} {header name value : List UInt8}
    (hfit : cursor + (header.length + (name.length + value.length)) ≤ traceMaxEventBytes) :
    Holds (writeField e cursor header name value).byte cursor (header ++ (name ++ value)) ∧
      ∀ i, i < cursor → (writeField e cursor header name value).byte i = e.byte i := by
  have h1 : (e.store cursor header).byte = store e.byte cursor header :=
    e.byte_store (by omega)
  have h2 : ((e.store cursor header).store (cursor + header.length) name).byte
      = store (store e.byte cursor header) (cursor + header.length) name := by
    rw [TraceEvent.byte_store _ (by omega), h1]
  have h3 : (writeField e cursor header name value).byte
      = store (store (store e.byte cursor header) (cursor + header.length) name)
        (cursor + header.length + name.length) value := by
    rw [writeField, TraceEvent.byte_store _ (by omega), h2]
  rw [h3]
  refine ⟨holds_append.mpr ⟨?_, holds_append.mpr ⟨?_, holds_store _ _ _⟩⟩, ?_⟩
  · rw [holds_store_disjoint (by omega), holds_store_disjoint (by omega)]
    exact holds_store _ _ _
  · rw [holds_store_disjoint (by omega)]
    exact holds_store _ _ _
  · intro i hi
    rw [store_outside (by omega), store_outside (by omega), store_outside (by omega)]

/-- The event after a field is written and counted. -/
def countField (e : TraceEvent) (size fieldCount : Nat) : TraceEvent :=
  (e.setSize size).setFieldCount fieldCount

theorem byte_countField (e : TraceEvent) (size fieldCount : Nat) {i : Nat}
    (h1 : i < 6 ∨ 8 ≤ i) (h2 : i < 10 ∨ 12 ≤ i) :
    (countField e size fieldCount).byte i = e.byte i :=
  (TraceEvent.byte_setWord_of_outside _ (by decide) h2).trans
    (TraceEvent.byte_setWord_of_outside _ (by decide) h1)

theorem size_countField (e : TraceEvent) {size : Nat} (fieldCount : Nat)
    (h : size < 65536) : (countField e size fieldCount).size = size := by
  have h1 : (countField e size fieldCount).size = (e.setSize size).size :=
    TraceEvent.word_setWord_of_disjoint _ (by decide) (by decide)
  have h2 : (e.setSize size).size = size % 256 ^ 2 := e.word_setWord_self (by decide)
  exact h1.trans (h2.trans (Nat.mod_eq_of_lt h))

theorem fieldCount_countField (e : TraceEvent) (size : Nat) {fieldCount : Nat}
    (h : fieldCount < 65536) : (countField e size fieldCount).fieldCount = fieldCount :=
  (TraceEvent.word_setWord_self _ (by decide)).trans (Nat.mod_eq_of_lt h)

/-- **APPEND**: writing a new well-formed field that fits, behind the declared
    bytes, and counting it. -/
theorem Represents.append {e : TraceEvent} {m a : List UInt8} {fs : List TraceField}
    (h : Represents e m a fs) {f : TraceField} (hok : f.Ok)
    (hnew : f.name ∉ fs.map TraceField.name)
    (hfit : e.size + f.serialise.length ≤ traceMaxEventBytes) {header : List UInt8}
    (hheader : header = f.type :: UInt8.ofNat f.name.length :: leBytes 2 f.value.length) :
    Represents (countField (writeField e e.size header f.name f.value)
      (e.size + f.serialise.length) (e.fieldCount + 1)) m a (fs ++ [f]) := by
  have hmax : traceMaxEventBytes = 1024 := rfl
  have h4 : header.length = sizeofFieldHeader := by
    rw [hheader]
    simp only [List.length_cons, leBytes_length]
    rfl
  have hlen := f.serialise_length
  have hrun : f.serialise = header ++ (f.name ++ f.value) := by
    rw [hheader]
    rfl
  have hcount : e.fieldCount ≤ e.size := by
    have h1 := length_le_fields fs
    rw [h.fieldCount, h.size, List.length_append, List.length_append]
    omega
  obtain ⟨hheld, hsame⟩ := @byte_writeField e e.size header f.name f.value (by omega)
  have h32 : 32 ≤ e.size := by
    rw [h.size]
    exact Nat.le_add_right 32 _
  refine h.snoc hok hnew hfit (size_countField _ _ (by omega))
    (fieldCount_countField _ _ (by omega)) ?_ ?_
  · intro i hi h1 h2
    rw [byte_countField _ _ _ h1 h2]
    exact hsame i hi
  · rw [hrun]
    exact (holds_congr fun i h1 _ =>
      byte_countField _ _ _ (by omega) (by omega)).mpr hheld

/-! ## Serialisations -/

/-- What a parsed event says, its values resolved. -/
def contentOf (p : ParsedEvent) (e : TraceEvent) :
    List UInt8 × List UInt8 × List TraceField :=
  (p.moduleName, p.apiName, p.fields.map (toField e.byte))

theorem parse_content {e : TraceEvent} {n : Nat} {p : ParsedEvent}
    (h : (parseTraceEvent n).run e.byte = some p) :
    ∃ m a fs, Represents e m a fs ∧ contentOf p e = (m, a, fs) := by
  obtain ⟨hacc, rfl⟩ := (run_parseTraceEvent e n p).mp h
  obtain ⟨-, m, a, fs, hrep⟩ := accepted_iff.mp hacc
  obtain ⟨hm, ha, hviews, -⟩ := hrep.parsed
  refine ⟨m, a, fs, hrep, ?_⟩
  rw [contentOf, hm, ha, hviews]

/-- A represented event is parsed into what it represents. -/
theorem Represents.parse {e : TraceEvent} {m a : List UInt8} {fs : List TraceField}
    (h : Represents e m a fs) :
    ∃ p, (parseTraceEvent e.size).run e.byte = some p ∧ contentOf p e = (m, a, fs) := by
  obtain ⟨hm, ha, hviews, -⟩ := h.parsed
  refine ⟨⟨moduleNameOf e, apiNameOf e, viewsOf e⟩,
    (run_parseTraceEvent e e.size _).mpr ⟨accepted_iff.mpr ⟨rfl, m, a, fs, h⟩, rfl⟩, ?_⟩
  rw [contentOf, hm, ha, hviews]

/-- The header of a serialisation, member by member. -/
theorem holds_header {e : TraceEvent} {r : TraceRecord} :
    Holds e.byte 0 r.header
      ↔ e.magic = traceEventMagic % 256 ^ 4 ∧ e.version = traceEventVersion % 256 ^ 2 ∧
        e.size = r.size % 256 ^ 2 ∧ e.flags = r.flags.toNat % 256 ^ 2 ∧
        e.fieldCount = r.fields.length % 256 ^ 2 ∧
        e.sequence = r.sequence.toNat % 256 ^ 4 ∧
        e.timestamp100ns = r.timestamp100ns.toNat % 256 ^ 8 ∧
        e.threadId = r.threadId.toNat % 256 ^ 4 ∧
        e.moduleNameLength = r.moduleName.length % 256 ^ 1 ∧
        e.apiNameLength = r.apiName.length % 256 ^ 1 ∧
        word e.byte 30 2 = r.reserved.toNat % 256 ^ 2 := by
  simp only [TraceRecord.header, holds_append, holds_leBytes, leBytes_length]
  exact Iff.rfl

/-- The abstract event with the header members of `e`. -/
def recordOf (e : TraceEvent) (moduleName apiName : List UInt8)
    (fields : List TraceField) : TraceRecord where
  flags := UInt16.ofNat e.flags
  sequence := UInt32.ofNat e.sequence
  timestamp100ns := UInt64.ofNat e.timestamp100ns
  threadId := UInt32.ofNat e.threadId
  reserved := UInt16.ofNat (word e.byte 30 2)
  moduleName := moduleName
  apiName := apiName
  fields := fields

/-- A represented event holds the serialisation of its record. -/
theorem Represents.holds_serialise {e : TraceEvent} {m a : List UInt8}
    {fs : List TraceField} (h : Represents e m a fs) :
    (recordOf e m a fs).WellFormed ∧ e.size = (recordOf e m a fs).size ∧
      Holds e.byte 0 (recordOf e m a fs).serialise := by
  have hsize : e.size = (recordOf e m a fs).size := h.size
  refine ⟨⟨h.moduleOk, h.apiOk, h.fieldsOk, h.distinct, hsize ▸ h.fits⟩, hsize, ?_⟩
  have cut : ∀ {v n : Nat}, v < n → v % n = v := fun hlt => Nat.mod_eq_of_lt hlt
  have hword : ∀ off n, word e.byte off n % 256 ^ n = word e.byte off n :=
    fun off n => cut (word_lt _ _ _)
  refine holds_append.mpr ⟨holds_header.mpr ?_, ?_⟩
  · refine ⟨h.magic, h.version, ?_, ?_, ?_, ?_, ?_, ?_, ?_, ?_, ?_⟩
    · rw [← hsize]
      exact (hword 6 2).symm
    · exact ((congrArg (· % 256 ^ 2) (hword 8 2)).trans (hword 8 2)).symm
    · show e.fieldCount = fs.length % 256 ^ 2
      rw [← h.fieldCount]
      exact (hword 10 2).symm
    · exact ((congrArg (· % 256 ^ 4) (hword 12 4)).trans (hword 12 4)).symm
    · exact ((congrArg (· % 256 ^ 8) (hword 16 8)).trans (hword 16 8)).symm
    · exact ((congrArg (· % 256 ^ 4) (hword 24 4)).trans (hword 24 4)).symm
    · show e.moduleNameLength = m.length % 256 ^ 1
      rw [← h.moduleNameLength]
      exact (hword 28 1).symm
    · show e.apiNameLength = a.length % 256 ^ 1
      rw [← h.apiNameLength]
      exact (hword 29 1).symm
    · exact ((congrArg (· % 256 ^ 2) (hword 30 2)).trans (hword 30 2)).symm
  · rw [TraceRecord.header_length, Nat.zero_add]
    exact h.held

/-- An event that holds the serialisation of a well-formed record represents
    its content. -/
theorem represents_of_serialise {e : TraceEvent} {r : TraceRecord}
    (hr : r.WellFormed) (h : e.slice 0 e.size = r.serialise) :
    Represents e r.moduleName r.apiName r.fields := by
  have hsize : e.size = r.size := by
    have hlen := congrArg List.length h
    rw [TraceEvent.slice, slice_length, r.serialise_length] at hlen
    exact hlen
  have hholds : Holds e.byte 0 r.serialise := by
    rw [Holds, r.serialise_length, ← hsize]
    exact h
  obtain ⟨hheader, hpayload⟩ := holds_append.mp hholds
  obtain ⟨h1, h2, -, -, h5, -, -, -, h9, h10, -⟩ := holds_header.mp hheader
  rw [TraceRecord.header_length, Nat.zero_add] at hpayload
  have hfits := hr.fits
  have hmax : traceMaxEventBytes = 1024 := rfl
  have hname : traceMaxModuleNameBytes = 63 := rfl
  have hcount := length_le_fields r.fields
  have hpl : r.size = sizeofEventHeader + (r.moduleName.length
      + (r.apiName.length + (serialiseFields r.fields).length)) := by
    rw [TraceRecord.size, TraceRecord.payload, List.length_append, List.length_append]
  have hm := hr.moduleName.2.1
  have ha := hr.apiName.2.1
  refine ⟨h1, h2, ?_, ?_, ?_, hsize, by omega, hpayload, hr.moduleName, hr.apiName,
    hr.fields, hr.distinct⟩
  · rw [h9]
    exact Nat.mod_eq_of_lt (by omega)
  · rw [h10]
    exact Nat.mod_eq_of_lt (by omega)
  · rw [h5]
    exact Nat.mod_eq_of_lt (by omega)

/-- An event that holds the serialisation and zeros behind it. -/
def TraceRecord.event (r : TraceRecord) : TraceEvent := TraceEvent.zero.store 0 r.serialise

theorem TraceRecord.WellFormed.represents {r : TraceRecord} (h : r.WellFormed) :
    Represents r.event r.moduleName r.apiName r.fields := by
  have hfits : 0 + r.serialise.length ≤ traceMaxEventBytes := by
    rw [r.serialise_length, Nat.zero_add]
    exact h.fits
  have hholds : Holds r.event.byte 0 r.serialise := by
    rw [TraceRecord.event, TraceEvent.byte_store _ hfits]
    exact holds_store _ _ _
  obtain ⟨hheader, -⟩ := holds_append.mp hholds
  obtain ⟨-, -, hsize, -⟩ := holds_header.mp hheader
  have hmax : traceMaxEventBytes = 1024 := rfl
  have hle := h.fits
  have heq : r.event.size = r.serialise.length := by
    rw [hsize, r.serialise_length]
    exact Nat.mod_eq_of_lt (by omega)
  refine represents_of_serialise h ?_
  rw [heq]
  exact hholds

/-- Header, names and fields make up the declared bytes. -/
theorem Represents.slice_eq {e : TraceEvent} {m a : List UInt8} {fs : List TraceField}
    (h : Represents e m a fs) :
    e.slice 0 e.size
      = e.slice 0 sizeofEventHeader ++ (m ++ (a ++ serialiseFields fs)) := by
  have hcontent : slice e.byte sizeofEventHeader
      (m ++ (a ++ serialiseFields fs)).length = m ++ (a ++ serialiseFields fs) :=
    h.held
  rw [TraceEvent.slice, TraceEvent.slice, h.size, slice_add, Nat.zero_add, hcontent]

/-! ## The grammar -/

/-- **GRAMMAR**: `ParseTraceEvent` accepts exactly the serialisations of
    well-formed abstract events, returns that event, and determines the
    declared bytes together with the header. -/
theorem parse_grammar (e : TraceEvent) (bytesReceived : Nat) :
    (((parseTraceEvent bytesReceived).run e.byte).isSome = true ↔
      bytesReceived = e.size ∧ e.size ≤ traceMaxEventBytes ∧
        e.magic = traceEventMagic ∧ e.version = traceEventVersion ∧
        ∃ r : TraceRecord, r.WellFormed ∧ e.slice 0 e.size = r.serialise) ∧
    ∀ p, (parseTraceEvent bytesReceived).run e.byte = some p →
      (∀ r : TraceRecord, r.WellFormed → e.slice 0 e.size = r.serialise →
        contentOf p e = (r.moduleName, r.apiName, r.fields)) ∧
      e.slice 0 sizeofEventHeader ++ (p.moduleName ++ (p.apiName ++
        serialiseFields (p.fields.map (toField e.byte)))) = e.slice 0 e.size ∧
      ∀ (e' : TraceEvent) (bytesReceived' : Nat) (p' : ParsedEvent),
        (parseTraceEvent bytesReceived').run e'.byte = some p' →
        e.slice 0 sizeofEventHeader = e'.slice 0 sizeofEventHeader →
        contentOf p e = contentOf p' e' → e.slice 0 e.size = e'.slice 0 e'.size := by
  refine ⟨?_, ?_⟩
  · rw [Option.isSome_iff_exists]
    constructor
    · rintro ⟨p, hp⟩
      obtain ⟨hacc, -⟩ := (run_parseTraceEvent e bytesReceived p).mp hp
      obtain ⟨hn, m, a, fs, hrep⟩ := accepted_iff.mp hacc
      obtain ⟨hwf, hsize, hholds⟩ := hrep.holds_serialise
      refine ⟨hn.symm, hrep.fits, hrep.magic, hrep.version, recordOf e m a fs, hwf, ?_⟩
      rw [hsize, ← TraceRecord.serialise_length]
      exact hholds
    · rintro ⟨rfl, -, -, -, r, hwf, hr⟩
      obtain ⟨p, hp, -⟩ := (represents_of_serialise hwf hr).parse
      exact ⟨p, hp⟩
  · intro p hp
    obtain ⟨m, a, fs, hrep, hcontent⟩ := parse_content hp
    have hparts := Prod.mk.inj hcontent
    obtain ⟨hm, hparts⟩ := hparts
    obtain ⟨ha, hfs⟩ := Prod.mk.inj hparts
    refine ⟨?_, ?_, ?_⟩
    · intro r hwf hr
      -- the content of an event is unique, because the parser computes it
      have hrep' := represents_of_serialise hwf hr
      obtain ⟨hm1, ha1, hf1, -⟩ := hrep.parsed
      obtain ⟨hm2, ha2, hf2, -⟩ := hrep'.parsed
      rw [hcontent, ← hm1, ← ha1, ← hf1, hm2, ha2, hf2]
    · rw [hm, ha, hfs]
      exact hrep.slice_eq.symm
    · intro e' n' p' hp' hheader heq
      obtain ⟨m', a', fs', hrep', hcontent'⟩ := parse_content hp'
      rw [hcontent, hcontent'] at heq
      cases heq
      rw [hrep.slice_eq, hrep'.slice_eq, hheader]

end ScopeGrammar
