import ApiScope.TraceProtocolProofs

/-! # The trace parser — ParseTraceEvent

    The validator of `trace_renderer.cpp` as a read program over the 1024
    bytes of an event: every byte it looks at is a read of the program, and
    every early `return false` ends it there.  Pointers into the event are
    offsets; `(size_t)(end - cursor)` is the difference modulo 2^64.

    The second half says what the program computes, one lemma for each
    function: on a cursor that has not passed the end, a field is accepted
    exactly when it fits and its name and value pass their checks, and it is
    then the field at that cursor. -/

namespace ScopeParser

open ScopeBytes ScopeRead ScopeProtocol

/-! ## Header reads -/

def readMagic : Read Nat := readWord 0 4
def readVersion : Read Nat := readWord 4 2
def readSize : Read Nat := readWord 6 2
def readFlags : Read Nat := readWord 8 2
def readFieldCount : Read Nat := readWord 10 2
def readSequence : Read Nat := readWord 12 4
def readTimestamp100ns : Read Nat := readWord 16 8
def readThreadId : Read Nat := readWord 24 4
def readModuleNameLength : Read Nat := readWord 28 1
def readApiNameLength : Read Nat := readWord 29 1

section

variable (e : TraceEvent)

@[simp] theorem run_readMagic : readMagic.run e.byte = e.magic := run_readWord ..
@[simp] theorem run_readVersion : readVersion.run e.byte = e.version := run_readWord ..
@[simp] theorem run_readSize : readSize.run e.byte = e.size := run_readWord ..
@[simp] theorem run_readFlags : readFlags.run e.byte = e.flags := run_readWord ..
@[simp] theorem run_readFieldCount : readFieldCount.run e.byte = e.fieldCount :=
  run_readWord ..
@[simp] theorem run_readSequence : readSequence.run e.byte = e.sequence :=
  run_readWord ..
@[simp] theorem run_readTimestamp100ns :
    readTimestamp100ns.run e.byte = e.timestamp100ns := run_readWord ..
@[simp] theorem run_readThreadId : readThreadId.run e.byte = e.threadId :=
  run_readWord ..
@[simp] theorem run_readModuleNameLength :
    readModuleNameLength.run e.byte = e.moduleNameLength := run_readWord ..
@[simp] theorem run_readApiNameLength :
    readApiNameLength.run e.byte = e.apiNameLength := run_readWord ..

end

/-! ## ParseTraceEvent -/

/-- `TraceFieldView`; `value` is the offset of the value in the event. -/
structure TraceFieldView where
  type : Nat
  nameLength : Nat
  valueSize : Nat
  name : List UInt8
  value : Nat
  deriving DecidableEq

/-- What `ParseTraceEvent` hands out. -/
structure ParsedEvent where
  moduleName : List UInt8
  apiName : List UInt8
  fields : List TraceFieldView
  deriving DecidableEq

/-- `(size_t)(end - cursor)`. -/
def sizeDiff (last cursor : Nat) : Nat :=
  (((last : Int) - (cursor : Int)) % (2 ^ 64 : Int)).toNat

def byteOf (c : Char) : UInt8 := UInt8.ofNat c.toNat

def lowerLetter (c : UInt8) : Bool := byteOf 'a' ≤ c && c ≤ byteOf 'z'
def upperLetter (c : UInt8) : Bool := byteOf 'A' ≤ c && c ≤ byteOf 'Z'
def digit (c : UInt8) : Bool := byteOf '0' ≤ c && c ≤ byteOf '9'

/-- The characters of an identifier. -/
def identifierChar (moduleName : Bool) (c : UInt8) : Bool :=
  lowerLetter c || upperLetter c || digit c || c == byteOf '_'
    || (moduleName && (c == byteOf '.' || c == byteOf '-'))

/-- The characters of a field name after its first. -/
def fieldNameChar (c : UInt8) : Bool :=
  lowerLetter c || digit c || c == byteOf '_'

def isValidIdentifier (name length : Nat) (moduleName : Bool) : Read Bool :=
  let maximum := if moduleName then traceMaxModuleNameBytes else traceMaxApiNameBytes
  if length = 0 ∨ maximum < length then pure false
  else readAll (identifierChar moduleName) name length

def isValidFieldName (name length : Nat) : Read Bool :=
  if length = 0 ∨ traceMaxFieldNameBytes < length then pure false
  else do
    let first ← readByte name
    if lowerLetter first then readAll fieldNameChar (name + 1) (length - 1)
    else pure false

def hasExpectedValueSize (type value valueSize : Nat) : Read Bool :=
  match TraceFieldType.ofCode type with
  | some .pointer | some .uint64 | some .int64 => pure (valueSize == 8)
  | some .uint32 | some .status | some .int32 => pure (valueSize == 4)
  | some .boolean =>
      if valueSize = 1 then do
        let b ← readByte value
        pure (b == 0 || b == 1)
      else pure false
  | some .bytes =>
      if valueSize < sizeofBytesHeader then pure false
      else do
        let requested ← readWord value 4
        let captured ← readWord (value + 4) 4
        let _captureStatus ← readWord (value + 8) 4
        pure (captured ≤ traceMaxBufferBytes && captured ≤ requested
          && valueSize == sizeofBytesHeader + captured)
  | some .wideString =>
      pure (valueSize % 2 == 0 && valueSize ≤ traceMaxStringBytes)
  | none => pure true

/-- `if (!check) return false;`. -/
def require {α : Type} (check : Read Bool) (next : Read (Option α)) : Read (Option α) := do
  let ok ← check
  if ok then next else pure none

/-- One pass of the field loop, after the fields in `parsed`. -/
def parseField (last cursor : Nat) (parsed : List TraceFieldView) :
    Read (Option TraceFieldView) :=
  if sizeDiff last cursor < sizeofFieldHeader then pure none
  else do
    let type ← readWord cursor 1
    let nameLength ← readWord (cursor + 1) 1
    let valueSize ← readWord (cursor + 2) 2
    let cursor := cursor + sizeofFieldHeader
    if sizeDiff last cursor < nameLength + valueSize then pure none
    else
      require (isValidFieldName cursor nameLength) do
        let name ← readBytes cursor nameLength
        if name ∈ parsed.map TraceFieldView.name then pure none
        else
          let value := cursor + nameLength
          require (hasExpectedValueSize type value valueSize)
            (pure (some { type, nameLength, valueSize, name, value }))

/-- The field loop: `count` passes left; the fields and the final cursor. -/
def parseFields (last : Nat) :
    (count cursor : Nat) → List TraceFieldView → Read (Option (List TraceFieldView × Nat))
  | 0, cursor, parsed => pure (some (parsed, cursor))
  | count + 1, cursor, parsed => do
      let field ← parseField last cursor parsed
      match field with
      | none => pure none
      | some field =>
          parseFields last count (field.value + field.valueSize) (parsed ++ [field])

/-- `ParseTraceEvent` with all its outputs; with null outputs it skips the
    two copies of the names and decides the same. -/
def parseTraceEvent (bytesReceived : Nat) : Read (Option ParsedEvent) :=
  if bytesReceived < sizeofEventHeader then pure none
  else do
    let magic ← readMagic
    let version ← readVersion
    let size ← readSize
    let moduleNameLength ← readModuleNameLength
    let apiNameLength ← readApiNameLength
    if magic ≠ traceEventMagic ∨ version ≠ traceEventVersion ∨ size ≠ bytesReceived
        ∨ traceMaxEventBytes < size
        ∨ size < sizeofEventHeader + moduleNameLength + apiNameLength then pure none
    else
      let cursor := sizeofEventHeader
      require (isValidIdentifier cursor moduleNameLength true) do
        let moduleName ← readBytes cursor moduleNameLength
        let cursor := cursor + moduleNameLength
        require (isValidIdentifier cursor apiNameLength false) do
          let apiName ← readBytes cursor apiNameLength
          let cursor := cursor + apiNameLength
          let fieldCount ← readFieldCount
          let parsed ← parseFields size fieldCount cursor []
          match parsed with
          | none => pure none
          | some (fields, cursor) =>
              if cursor ≠ size then pure none
              else pure (some { moduleName, apiName, fields })

/-- `IsValidTraceEvent(event, bytesReceived)`. -/
def isValidTraceEvent (bytesReceived : Nat) : Read Bool := do
  let parsed ← parseTraceEvent bytesReceived
  pure parsed.isSome

/-! ## What the checks compute -/

/-- `IsValidIdentifier`, of the bytes of a name. -/
def IdentifierOk (moduleName : Bool) (name : List UInt8) : Prop :=
  name ≠ [] ∧ name.length ≤ traceMaxModuleNameBytes ∧
    ∀ c ∈ name, identifierChar moduleName c = true

/-- `IsValidFieldName`, of the bytes of a name. -/
def FieldNameOk : List UInt8 → Prop
  | [] => False
  | first :: rest =>
      rest.length < traceMaxFieldNameBytes ∧ lowerLetter first = true ∧
        ∀ c ∈ rest, fieldNameChar c = true

instance : DecidablePred FieldNameOk := fun name =>
  match name with
  | [] => inferInstanceAs (Decidable False)
  | c :: cs => inferInstanceAs (Decidable (cs.length < traceMaxFieldNameBytes ∧
      lowerLetter c = true ∧ ∀ d ∈ cs, fieldNameChar d = true))

/-- A literal is a field name by its characters. -/
theorem fieldNameOk_cstr (chars : List Char)
    (h : FieldNameOk (chars.map fun c => c.toNat.toUInt8)) :
    FieldNameOk (cstr (String.ofList chars)) := by
  rw [cstr_ofList]
  exact h

/-- The `requested` member of a bytes value. -/
def bytesRequested (value : List UInt8) : Nat := leNat (value.take 4)

/-- The `captured` member of a bytes value. -/
def bytesCaptured (value : List UInt8) : Nat := leNat ((value.drop 4).take 4)

/-- `HasExpectedValueSize`, of the type code and the bytes of a value. -/
def ValueOk (type : Nat) (value : List UInt8) : Prop :=
  match TraceFieldType.ofCode type with
  | some .pointer | some .uint64 | some .int64 => value.length = 8
  | some .uint32 | some .status | some .int32 => value.length = 4
  | some .boolean => value = [0] ∨ value = [1]
  | some .bytes =>
      bytesCaptured value ≤ traceMaxBufferBytes ∧
        bytesCaptured value ≤ bytesRequested value ∧
        value.length = sizeofBytesHeader + bytesCaptured value
  | some .wideString => value.length % 2 = 0 ∧ value.length ≤ traceMaxStringBytes
  | none => True

theorem sizeDiff_of_le {last cursor : Nat} (h : cursor ≤ last) (hl : last < 2 ^ 64) :
    sizeDiff last cursor = last - cursor := by
  rw [sizeDiff, Int.emod_eq_of_lt (by omega) (by omega)]
  omega

theorem maximum_eq (moduleName : Bool) :
    (if moduleName then traceMaxModuleNameBytes else traceMaxApiNameBytes)
      = traceMaxModuleNameBytes := by
  cases moduleName <;> rfl

theorem run_isValidIdentifier (mem : Memory) (name length : Nat) (moduleName : Bool) :
    (isValidIdentifier name length moduleName).run mem = true
      ↔ IdentifierOk moduleName (slice mem name length) := by
  rw [isValidIdentifier, maximum_eq, Read.run_ite, IdentifierOk, slice_length,
    Read.run_pure, run_readAll]
  have hnil : slice mem name length ≠ [] ↔ length ≠ 0 := by
    rw [ne_eq, ← List.length_eq_zero_iff, slice_length]
  rw [hnil]
  split
  · rename_i hbad
    constructor
    · intro h
      cases h
    · rintro ⟨h1, h2, -⟩
      omega
  · rename_i hgood
    rw [List.all_eq_true]
    constructor
    · intro h
      exact ⟨by omega, by omega, h⟩
    · rintro ⟨-, -, h⟩
      exact h

theorem run_isValidFieldName (mem : Memory) (name length : Nat) :
    (isValidFieldName name length).run mem = true
      ↔ FieldNameOk (slice mem name length) := by
  rw [isValidFieldName]
  cases length with
  | zero =>
      simp only [true_or, if_true, Read.run_pure, slice_zero, FieldNameOk]
      constructor
      · intro h
        cases h
      · exact False.elim
  | succ length =>
      rw [slice_succ, Read.run_ite, FieldNameOk, slice_length]
      simp only [Read.run_pure, Read.run_bind, Read.run_ite, run_readByte, run_readAll,
        Nat.add_sub_cancel]
      split
      · rename_i hbad
        constructor
        · intro h
          cases h
        · rintro ⟨h1, -⟩
          omega
      · rename_i hgood
        cases hfirst : lowerLetter (mem name) with
        | true =>
            rw [if_pos rfl, List.all_eq_true]
            constructor
            · intro h
              exact ⟨by omega, rfl, h⟩
            · rintro ⟨-, -, h⟩
              exact h
        | false =>
            simp

theorem bytesRequested_slice (mem : Memory) (off n : Nat) (h : 4 ≤ n) :
    bytesRequested (slice mem off n) = word mem off 4 := by
  rw [bytesRequested, slice_take mem off n 4 h, word]

theorem bytesCaptured_slice (mem : Memory) (off n : Nat) (h : 8 ≤ n) :
    bytesCaptured (slice mem off n) = word mem (off + 4) 4 := by
  rw [bytesCaptured, slice_drop mem off n 4 (by omega), slice_take _ _ _ 4 (by omega),
    word]

theorem run_hasExpectedValueSize (mem : Memory) (type value valueSize : Nat) :
    (hasExpectedValueSize type value valueSize).run mem = true
      ↔ ValueOk type (slice mem value valueSize) := by
  rw [hasExpectedValueSize, ValueOk]
  split
  · simp
  · simp
  · simp
  · simp
  · simp
  · simp
  · -- boolean
    rw [Read.run_ite]
    split
    · rename_i h1
      rw [h1, slice_one]
      simp
    · rename_i h1
      simp only [Read.run_pure]
      constructor
      · intro h
        cases h
      · rintro (h | h) <;>
        · have hl := congrArg List.length h
          rw [slice_length] at hl
          exact absurd hl h1
  · -- bytes
    rw [Read.run_ite]
    split
    · rename_i hlt
      simp only [Read.run_pure, slice_length]
      constructor
      · intro h
        cases h
      · rintro ⟨-, -, h⟩
        omega
    · rename_i hge
      have h12 : sizeofBytesHeader = 12 := rfl
      rw [bytesRequested_slice mem value valueSize (by omega),
        bytesCaptured_slice mem value valueSize (by omega)]
      simp [and_assoc]
  · simp
  · simp

/-! ## What the loop computes -/

/-- The field at a cursor, as the loop reads it. -/
def viewAt (mem : Memory) (cursor : Nat) : TraceFieldView where
  type := word mem cursor 1
  nameLength := word mem (cursor + 1) 1
  valueSize := word mem (cursor + 2) 2
  name := slice mem (cursor + sizeofFieldHeader) (word mem (cursor + 1) 1)
  value := cursor + sizeofFieldHeader + word mem (cursor + 1) 1

namespace TraceFieldView

/-- The cursor after the field. -/
def stop (v : TraceFieldView) : Nat := v.value + v.valueSize

/-- The bytes of the value. -/
def valueBytes (v : TraceFieldView) (mem : Memory) : List UInt8 :=
  slice mem v.value v.valueSize

/-- The checks of the loop on a field that ends at `last` or before. -/
structure Ok (v : TraceFieldView) (mem : Memory) (last : Nat) : Prop where
  fits : v.stop ≤ last
  nameOk : FieldNameOk v.name
  valueOk : ValueOk v.type (v.valueBytes mem)

end TraceFieldView

theorem run_require {α : Type} (check : Read Bool) (next : Read (Option α))
    (mem : Memory) :
    (require check next).run mem
      = if check.run mem = true then next.run mem else none := by
  simp [require]

theorem stop_viewAt (mem : Memory) (cursor : Nat) :
    (viewAt mem cursor).stop = cursor + sizeofFieldHeader
      + word mem (cursor + 1) 1 + word mem (cursor + 2) 2 := rfl

/-- **ONE FIELD**: on a cursor not past the end, the pass returns the field
    at the cursor exactly when it is well formed and new. -/
theorem run_parseField {mem : Memory} {last cursor : Nat} (hle : cursor ≤ last)
    (hlast : last < 2 ^ 64) (parsed : List TraceFieldView) (v : TraceFieldView) :
    (parseField last cursor parsed).run mem = some v
      ↔ v = viewAt mem cursor ∧ v.Ok mem last ∧
        v.name ∉ parsed.map TraceFieldView.name := by
  have h4 : sizeofFieldHeader = 4 := rfl
  rw [parseField, Read.run_ite, sizeDiff_of_le hle hlast, Read.run_pure]
  split
  · rename_i hshort
    constructor
    · intro h
      cases h
    · rintro ⟨rfl, hok, -⟩
      have := hok.fits
      rw [stop_viewAt] at this
      omega
  · rename_i hlong
    have hle' : cursor + sizeofFieldHeader ≤ last := by omega
    -- header read: now the lengths in it are checked against what is left
    simp only [Read.run_bind, run_readWord, Read.run_ite, Read.run_pure,
      sizeDiff_of_le hle' hlast, run_require, run_readBytes]
    split
    · rename_i hshort
      constructor
      · intro h
        cases h
      · rintro ⟨rfl, hok, -⟩
        have := hok.fits
        rw [stop_viewAt] at this
        omega
    · rename_i hfits
      by_cases hname : (isValidFieldName (cursor + sizeofFieldHeader)
          (word mem (cursor + 1) 1)).run mem = true
      · rw [if_pos hname]
        have hname' := (run_isValidFieldName _ _ _).mp hname
        by_cases hdup : slice mem (cursor + sizeofFieldHeader) (word mem (cursor + 1) 1)
            ∈ parsed.map TraceFieldView.name
        · rw [if_pos hdup]
          constructor
          · intro h
            cases h
          · rintro ⟨rfl, -, hnew⟩
            exact absurd hdup hnew
        · rw [if_neg hdup]
          by_cases hvalue : (hasExpectedValueSize (word mem cursor 1)
              (cursor + sizeofFieldHeader + word mem (cursor + 1) 1)
              (word mem (cursor + 2) 2)).run mem = true
          · rw [if_pos hvalue]
            have hvalue' := (run_hasExpectedValueSize _ _ _ _).mp hvalue
            constructor
            · intro h
              have hv : viewAt mem cursor = v := Option.some.inj h
              rw [← hv]
              refine ⟨rfl, ⟨?_, hname', hvalue'⟩, hdup⟩
              rw [stop_viewAt]
              omega
            · rintro ⟨rfl, -, -⟩
              rfl
          · rw [if_neg hvalue]
            constructor
            · intro h
              cases h
            · rintro ⟨rfl, hok, -⟩
              exact absurd ((run_hasExpectedValueSize _ _ _ _).mpr hok.valueOk) hvalue
      · rw [if_neg hname]
        constructor
        · intro h
          cases h
        · rintro ⟨rfl, hok, -⟩
          exact absurd ((run_isValidFieldName _ _ _).mpr hok.nameOk) hname

/-- The fields from a cursor on, as the loop walks them. -/
def viewsAt (mem : Memory) : (count cursor : Nat) → List TraceFieldView
  | 0, _ => []
  | count + 1, cursor => viewAt mem cursor :: viewsAt mem count (viewAt mem cursor).stop

/-- The cursor after `count` fields. -/
def stopAt (mem : Memory) : (count cursor : Nat) → Nat
  | 0, cursor => cursor
  | count + 1, cursor => stopAt mem count (viewAt mem cursor).stop

theorem viewsAt_length (mem : Memory) (count cursor : Nat) :
    (viewsAt mem count cursor).length = count := by
  induction count generalizing cursor with
  | zero => rfl
  | succ count ih =>
      rw [viewsAt, List.length_cons, ih]

/-- **THE FIELD LOOP** returns the fields it walked over exactly when each of
    them is well formed and no name occurs twice. -/
theorem run_parseFields (mem : Memory) {last : Nat} (hlast : last < 2 ^ 64)
    (count : Nat) {cursor : Nat} (hle : cursor ≤ last) (parsed : List TraceFieldView)
    (hparsed : (parsed.map TraceFieldView.name).Nodup)
    (result : List TraceFieldView × Nat) :
    (parseFields last count cursor parsed).run mem = some result
      ↔ result = (parsed ++ viewsAt mem count cursor, stopAt mem count cursor) ∧
        (∀ v ∈ viewsAt mem count cursor, v.Ok mem last) ∧
        ((parsed ++ viewsAt mem count cursor).map TraceFieldView.name).Nodup := by
  induction count generalizing cursor parsed with
  | zero =>
      rw [parseFields, viewsAt, stopAt, List.append_nil, Read.run_pure]
      constructor
      · intro h
        refine ⟨(Option.some.inj h).symm, ?_, hparsed⟩
        intro v hv
        cases hv
      · rintro ⟨rfl, -, -⟩
        rfl
  | succ count ih =>
      rw [parseFields, Read.run_bind]
      cases hfield : (parseField last cursor parsed).run mem with
      | none =>
          constructor
          · intro h
            cases h
          · rintro ⟨-, hok, hdup⟩
            -- the first field would have been returned
            have hv : viewAt mem cursor ∈ viewsAt mem (count + 1) cursor :=
              List.mem_cons_self
            have hsome := (run_parseField hle hlast parsed (viewAt mem cursor)).mpr
              ⟨rfl, hok _ hv, by
                rw [viewsAt, List.map_append, List.map_cons] at hdup
                intro hmem
                exact (List.nodup_append.mp hdup).2.2 _ hmem _ List.mem_cons_self rfl⟩
            rw [hfield] at hsome
            cases hsome
      | some v =>
          obtain ⟨rfl, hok, hnew⟩ := (run_parseField hle hlast parsed v).mp hfield
          have hparsed' : ((parsed ++ [viewAt mem cursor]).map
              TraceFieldView.name).Nodup := by
            rw [List.map_append]
            refine List.nodup_append.mpr ⟨hparsed, by simp, ?_⟩
            intro a ha b hb hab
            rw [hab, List.mem_singleton.mp hb] at ha
            exact hnew ha
          have hnext := ih hok.fits
            (parsed ++ [viewAt mem cursor]) hparsed'
          rw [List.append_assoc, List.singleton_append] at hnext
          refine hnext.trans ?_
          rw [viewsAt, stopAt, List.forall_mem_cons]
          constructor
          · rintro ⟨h1, h2, h3⟩
            exact ⟨h1, ⟨hok, h2⟩, h3⟩
          · rintro ⟨h1, ⟨-, h2⟩, h3⟩
            exact ⟨h1, h2, h3⟩

/-! ## What the parser computes -/

section Event

variable (e : TraceEvent)

/-- The bytes at the place of the module name. -/
def moduleNameOf : List UInt8 := e.slice sizeofEventHeader e.moduleNameLength

/-- The bytes at the place of the API name. -/
def apiNameOf : List UInt8 :=
  e.slice (sizeofEventHeader + e.moduleNameLength) e.apiNameLength

/-- Where the fields start. -/
def fieldsStart : Nat := sizeofEventHeader + e.moduleNameLength + e.apiNameLength

/-- The fields the header counts. -/
def viewsOf : List TraceFieldView := viewsAt e.byte e.fieldCount (fieldsStart e)

/-- The conditions under which `ParseTraceEvent` returns true. -/
structure Accepted (bytesReceived : Nat) : Prop where
  magic : e.magic = traceEventMagic
  version : e.version = traceEventVersion
  received : e.size = bytesReceived
  fits : e.size ≤ traceMaxEventBytes
  names : fieldsStart e ≤ e.size
  moduleName : IdentifierOk true (moduleNameOf e)
  apiName : IdentifierOk false (apiNameOf e)
  fields : ∀ v ∈ viewsOf e, v.Ok e.byte e.size
  distinct : ((viewsOf e).map TraceFieldView.name).Nodup
  stop : stopAt e.byte e.fieldCount (fieldsStart e) = e.size

end Event

/-- **THE PARSER** accepts an event exactly under `Accepted`, and returns its
    names and the fields its header counts. -/
theorem run_parseTraceEvent (e : TraceEvent) (bytesReceived : Nat) (p : ParsedEvent) :
    (parseTraceEvent bytesReceived).run e.byte = some p
      ↔ Accepted e bytesReceived ∧ p = ⟨moduleNameOf e, apiNameOf e, viewsOf e⟩ := by
  have h32 : sizeofEventHeader = 32 := rfl
  rw [parseTraceEvent, Read.run_ite, Read.run_pure]
  split
  · rename_i hshort
    constructor
    · intro h
      cases h
    · rintro ⟨hacc, -⟩
      have h1 := hacc.names
      have h2 := hacc.received
      rw [fieldsStart] at h1
      omega
  · simp only [Read.run_bind, run_readMagic, run_readVersion, run_readSize,
      run_readModuleNameLength, run_readApiNameLength, run_readFieldCount,
      Read.run_ite, Read.run_pure, run_require, run_readBytes]
    split
    · rename_i hbad
      constructor
      · intro h
        cases h
      · rintro ⟨hacc, -⟩
        rcases hbad with h | h | h | h | h
        · exact absurd hacc.magic h
        · exact absurd hacc.version h
        · exact absurd hacc.received h
        · exact absurd hacc.fits (by omega)
        · exact absurd hacc.names (Nat.not_le.mpr h)
    · rename_i hgood
      have hmagic : e.magic = traceEventMagic := by
        by_contra h
        exact hgood (Or.inl h)
      have hversion : e.version = traceEventVersion := by
        by_contra h
        exact hgood (Or.inr (Or.inl h))
      have hreceived : e.size = bytesReceived := by
        by_contra h
        exact hgood (Or.inr (Or.inr (Or.inl h)))
      have hfits : e.size ≤ traceMaxEventBytes := by omega
      have hnames : fieldsStart e ≤ e.size := by
        rw [fieldsStart]
        omega
      have hlast : e.size < 2 ^ 64 := by
        have := e.size_lt
        omega
      by_cases hmodule : (isValidIdentifier sizeofEventHeader e.moduleNameLength
          true).run e.byte = true
      · rw [if_pos hmodule]
        by_cases hapi : (isValidIdentifier (sizeofEventHeader + e.moduleNameLength)
            e.apiNameLength false).run e.byte = true
        · rw [if_pos hapi]
          -- the loop over the fields, and behind it the test that they end where the event does
          have hloop := run_parseFields e.byte hlast e.fieldCount hnames [] List.nodup_nil
          cases hrun : (parseFields e.size e.fieldCount
              (sizeofEventHeader + e.moduleNameLength + e.apiNameLength) []).run e.byte with
          | none =>
              constructor
              · intro h
                cases h
              · rintro ⟨hacc, -⟩
                have hsome := (hloop (_, _)).mpr ⟨rfl, hacc.fields, hacc.distinct⟩
                rw [fieldsStart, hrun] at hsome
                cases hsome
          | some result =>
              obtain ⟨rfl, hfields, hdistinct⟩ := (hloop result).mp hrun
              simp only [Read.run_ite, Read.run_pure, List.nil_append]
              split
              · rename_i hstop
                constructor
                · intro h
                  cases h
                · rintro ⟨hacc, -⟩
                  exact absurd hacc.stop hstop
              · rename_i hstop
                constructor
                · intro h
                  refine ⟨⟨hmagic, hversion, hreceived, hfits, hnames, ?_, ?_, hfields,
                    hdistinct, not_not.mp hstop⟩, (Option.some.inj h).symm⟩
                  · exact (run_isValidIdentifier _ _ _ _).mp hmodule
                  · exact (run_isValidIdentifier _ _ _ _).mp hapi
                · rintro ⟨-, rfl⟩
                  rfl
        · rw [if_neg hapi]
          constructor
          · intro h
            cases h
          · rintro ⟨hacc, -⟩
            exact absurd ((run_isValidIdentifier _ _ _ _).mpr hacc.apiName) hapi
      · rw [if_neg hmodule]
        constructor
        · intro h
          cases h
        · rintro ⟨hacc, -⟩
          exact absurd ((run_isValidIdentifier _ _ _ _).mpr hacc.moduleName) hmodule

/-! ## What the parser reads -/

open ScopeRead.Read

section Bounds

variable {P : Nat → Prop} {mem : Memory}

theorem within_isValidIdentifier {name length : Nat} (moduleName : Bool)
    (h : ∀ i, name ≤ i → i < name + length → P i) :
    Within P (isValidIdentifier name length moduleName) mem :=
  within_ite (fun _ => within_pure P _ mem) (fun _ => within_readAll mem h)

theorem within_isValidFieldName {name length : Nat}
    (h : ∀ i, name ≤ i → i < name + length → P i) :
    Within P (isValidFieldName name length) mem := by
  refine within_ite (fun _ => within_pure P _ mem) (fun hlen => ?_)
  refine within_seq (within_readByte mem (h name (by omega) (by omega))) ?_
  refine within_ite (fun _ => ?_) (fun _ => within_pure P _ mem)
  exact within_readAll mem fun i h1 h2 => h i (by omega) (by omega)

/-- The value check reads the value only, the boolean and the bytes header
    included. -/
theorem within_hasExpectedValueSize {type value valueSize : Nat}
    (h : ∀ i, value ≤ i → i < value + valueSize → P i) :
    Within P (hasExpectedValueSize type value valueSize) mem := by
  have h12 : sizeofBytesHeader = 12 := rfl
  unfold hasExpectedValueSize
  split
  · exact within_pure P _ mem
  · exact within_pure P _ mem
  · exact within_pure P _ mem
  · exact within_pure P _ mem
  · exact within_pure P _ mem
  · exact within_pure P _ mem
  · refine within_ite (fun hone => ?_) (fun _ => within_pure P _ mem)
    refine within_seq (within_readByte mem (h value (by omega) (by omega))) ?_
    exact within_pure P _ mem
  · refine within_ite (fun _ => within_pure P _ mem) (fun hlen => ?_)
    refine within_seq (within_readWord mem fun i h1 h2 => h i (by omega) (by omega)) ?_
    refine within_seq (within_readWord mem fun i h1 h2 => h i (by omega) (by omega)) ?_
    refine within_seq (within_readWord mem fun i h1 h2 => h i (by omega) (by omega)) ?_
    exact within_pure P _ mem
  · exact within_pure P _ mem
  · exact within_pure P _ mem

theorem within_require {α : Type} {check : Read Bool} {next : Read (Option α)}
    (h1 : Within P check mem) (h2 : check.run mem = true → Within P next mem) :
    Within P (require check next) mem :=
  within_seq h1 (within_ite h2 fun _ => within_pure P _ mem)

/-- A pass of the field loop stays between the cursor and the end. -/
theorem within_parseField {last cursor : Nat} (hle : cursor ≤ last)
    (hlast : last < 2 ^ 64) (parsed : List TraceFieldView)
    (h : ∀ i, cursor ≤ i → i < last → P i) :
    Within P (parseField last cursor parsed) mem := by
  have h4 : sizeofFieldHeader = 4 := rfl
  refine within_ite (fun _ => within_pure P _ mem) (fun hheader => ?_)
  rw [sizeDiff_of_le hle hlast] at hheader
  refine within_seq (within_readWord mem fun i h1 h2 => h i (by omega) (by omega)) ?_
  refine within_seq (within_readWord mem fun i h1 h2 => h i (by omega) (by omega)) ?_
  refine within_seq (within_readWord mem fun i h1 h2 => h i (by omega) (by omega)) ?_
  refine within_ite (fun _ => within_pure P _ mem) (fun hfits => ?_)
  rw [sizeDiff_of_le (by omega) hlast] at hfits
  refine within_require (within_isValidFieldName fun i h1 h2 =>
    h i (by omega) (by omega)) (fun _ => ?_)
  refine within_seq (within_readBytes mem fun i h1 h2 => h i (by omega) (by omega)) ?_
  refine within_ite (fun _ => within_pure P _ mem) (fun _ => ?_)
  exact within_require (within_hasExpectedValueSize fun i h1 h2 =>
    h i (by omega) (by omega)) (fun _ => within_pure P _ mem)

theorem within_parseFields {last cursor : Nat} (count : Nat) (hle : cursor ≤ last)
    (hlast : last < 2 ^ 64) (parsed : List TraceFieldView)
    (h : ∀ i, cursor ≤ i → i < last → P i) :
    Within P (parseFields last count cursor parsed) mem := by
  induction count generalizing cursor parsed with
  | zero => exact within_pure P _ mem
  | succ count ih =>
      refine within_seq (within_parseField hle hlast parsed h) ?_
      cases hfield : (parseField last cursor parsed).run mem with
      | none => exact within_pure P _ mem
      | some v =>
          -- the next pass starts where an accepted field ends
          obtain ⟨hview, hok, -⟩ := (run_parseField hle hlast parsed v).mp hfield
          have hstop : cursor ≤ v.stop := by
            rw [hview, stop_viewAt]
            omega
          exact ih hok.fits _ fun i h1 h2 => h i (Nat.le_trans hstop h1) h2

end Bounds

/-- The header and the declared bytes. -/
def Declared (e : TraceEvent) (i : Nat) : Prop := i < sizeofEventHeader ∨ i < e.size

theorem within_header (e : TraceEvent) {off n : Nat} (h : off + n ≤ sizeofEventHeader) :
    Within (Declared e) (readWord off n) e.byte :=
  within_readWord e.byte fun i _ h2 => Or.inl (by omega)

/-- **THE PARSER'S READS** lie in the header or the declared bytes, whether it
    accepts or not. -/
theorem within_parseTraceEvent (e : TraceEvent) (bytesReceived : Nat) :
    Within (Declared e) (parseTraceEvent bytesReceived) e.byte := by
  refine within_ite (fun _ => within_pure _ _ _) (fun _ => ?_)
  refine within_seq (within_header e (by decide)) ?_
  refine within_seq (within_header e (by decide)) ?_
  refine within_seq (within_header e (by decide)) ?_
  refine within_seq (within_header e (by decide)) ?_
  refine within_seq (within_header e (by decide)) ?_
  refine within_ite (fun _ => within_pure _ _ _) (fun hentry => ?_)
  simp only [not_or, run_readSize, run_readModuleNameLength,
    run_readApiNameLength] at hentry ⊢
  obtain ⟨-, -, -, hmax, hnames⟩ := hentry
  have h1024 : traceMaxEventBytes = 1024 := rfl
  refine within_require (within_isValidIdentifier true fun i _ h2 =>
    Or.inr (by omega)) (fun _ => ?_)
  refine within_seq (within_readBytes _ fun i _ h2 => Or.inr (by omega)) ?_
  refine within_require (within_isValidIdentifier false fun i _ h2 =>
    Or.inr (by omega)) (fun _ => ?_)
  refine within_seq (within_readBytes _ fun i _ h2 => Or.inr (by omega)) ?_
  refine within_seq (within_header e (by decide)) ?_
  refine within_seq (within_parseFields _ (by omega) (by omega) []
    fun i _ h2 => Or.inr h2) ?_
  split
  · exact within_pure _ _ _
  · exact within_ite (fun _ => within_pure _ _ _) (fun _ => within_pure _ _ _)

end ScopeParser
