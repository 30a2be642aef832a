import ApiScope.TraceGrammarProofs

/-! # The trace transport — building events in the target

    `InitializeTraceEvent`, `AppendTraceField` and the `AddTrace*` functions
    of `trace_transport.cpp`.  A pointer to characters is the memory it
    points to, with zeros beyond, or null; the guarded self-reads go through
    the `NtReadVirtualMemory` bypass, whose outcome is arbitrary: any status,
    any captured count, any bytes.

    The transport has its own copies of the name rules.  `append_represents`
    says what they and the size check amount to: an append adds one field to
    what the event represents, or only sets a flag. -/

namespace ScopeTransport

open ScopeBytes ScopeRead ScopeProtocol ScopeParser ScopeGrammar

/-! ## Names -/

/-- `const char*`: the bytes it points to, zeros beyond them, or null. -/
abbrev CharPtr := Option (List UInt8)

/-- The C string at a pointer. -/
def cValue (s : List UInt8) : List UInt8 := s.takeWhile (· ≠ 0)

/-- The scan of `GetBoundedStringLength`, with `budget` characters to go. -/
def scanString : (budget : Nat) → List UInt8 → Nat
  | 0, _ => 0
  | _, [] => 0
  | budget + 1, c :: cs => if c = 0 then 0 else scanString budget cs + 1

def getBoundedStringLength (value : CharPtr) (maximum : Nat) : Option Nat :=
  match value with
  | none => none
  | some s =>
      let index := scanString (maximum + 1) s
      if index = 0 ∨ maximum < index then none else some (index % 256)

/-- The characters the transport allows in a field name after its first. -/
def nameChar (c : UInt8) : Bool :=
  (byteOf 'a' ≤ c && c ≤ byteOf 'z') || (byteOf '0' ≤ c && c ≤ byteOf '9')
    || c == byteOf '_'

/-- The characters the transport allows in an identifier. -/
def moduleChar (moduleName : Bool) (c : UInt8) : Bool :=
  (byteOf 'a' ≤ c && c ≤ byteOf 'z') || (byteOf 'A' ≤ c && c ≤ byteOf 'Z')
    || (byteOf '0' ≤ c && c ≤ byteOf '9') || c == byteOf '_'
    || (moduleName && (c == byteOf '.' || c == byteOf '-'))

/-- `IsValidFieldName`: the length of an admissible name. -/
def isValidFieldName (name : CharPtr) : Option Nat :=
  match getBoundedStringLength name traceMaxFieldNameBytes, name with
  | some length, some s =>
      if s.getD 0 0 < byteOf 'a' ∨ byteOf 'z' < s.getD 0 0 then none
      else if ((s.take length).drop 1).all nameChar then some length
      else none
  | _, _ => none

/-- `IsValidIdentifier`: the length of an admissible identifier. -/
def isValidIdentifier (name : CharPtr) (maximum : Nat) (moduleName : Bool) : Option Nat :=
  match getBoundedStringLength name maximum, name with
  | some length, some s =>
      if (s.take length).all (moduleChar moduleName) then some length else none
  | _, _ => none

/-! ## Events -/

/-- `TraceNameBytes`. -/
def traceNameBytes (e : TraceEvent) : Nat := e.moduleNameLength + e.apiNameLength

/-- The walk of `HasTraceField`, with `count` fields to go. -/
def hasTraceFieldFrom (name : List UInt8) : (count cursor : Nat) → Read Bool
  | 0, _ => pure false
  | count + 1, cursor => do
      let _type ← readWord cursor 1
      let nameLength ← readWord (cursor + 1) 1
      let valueSize ← readWord (cursor + 2) 2
      let cursor := cursor + sizeofFieldHeader
      if nameLength = name.length then do
        let same ← readEqual cursor name
        if same then pure true
        else hasTraceFieldFrom name count (cursor + (nameLength + valueSize))
      else hasTraceFieldFrom name count (cursor + (nameLength + valueSize))

def hasTraceField (e : TraceEvent) (name : List UInt8) : Bool :=
  (hasTraceFieldFrom name e.fieldCount
    (sizeofEventHeader + traceNameBytes e)).run e.byte

/-- `size` bytes from a pointer. -/
def bytesAt (value : List UInt8) (size : Nat) : List UInt8 :=
  (List.range size).map fun i => value.getD i 0

/-- `AppendTraceField` on a non-null event; the new event and the result. -/
def appendTraceField (e : TraceEvent) (type : TraceFieldType) (name : CharPtr)
    (value : Option (List UInt8)) (valueSize : Nat) : TraceEvent × Bool :=
  match value with
  | none => (e.orFlags traceEventFlagFieldError, false)
  | some value =>
      if e.magic ≠ traceEventMagic ∨ e.version ≠ traceEventVersion
          ∨ e.size < sizeofEventHeader + traceNameBytes e
          ∨ traceMaxEventBytes < e.size then
        (e.orFlags traceEventFlagFieldError, false)
      else
        match isValidFieldName name, name with
        | some nameLength, some s =>
            if hasTraceField e (s.take nameLength) then
              (e.orFlags traceEventFlagFieldError, false)
            else
              let required := sizeofFieldHeader + nameLength + valueSize
              if traceMaxEventBytes < e.size + required then
                (e.orFlags traceEventFlagTruncated, false)
              else
                let cursor := e.size
                let field := UInt8.ofNat type.code :: UInt8.ofNat nameLength
                  :: leBytes 2 valueSize
                let written := ((e.store cursor field).store (cursor + sizeofFieldHeader)
                  (s.take nameLength)).store (cursor + sizeofFieldHeader + nameLength)
                  (bytesAt value valueSize)
                ((written.setSize (e.size + required)).setFieldCount (e.fieldCount + 1),
                  true)
        | _, _ => (e.orFlags traceEventFlagFieldError, false)

/-- `InitializeTraceEvent` on a non-null event, given the thread id and the
    time it reads. -/
def initializeTraceEvent (moduleName apiName : CharPtr) (threadId : UInt32)
    (timestamp100ns : UInt64) : TraceEvent × Bool :=
  match isValidIdentifier moduleName traceMaxModuleNameBytes true, moduleName,
      isValidIdentifier apiName traceMaxApiNameBytes false, apiName with
  | some moduleNameLength, some m, some apiNameLength, some a =>
      let e := TraceEvent.zero.setMagic traceEventMagic
      let e := e.setVersion traceEventVersion
      let e := e.setSize (sizeofEventHeader + moduleNameLength + apiNameLength)
      let e := e.setModuleNameLength moduleNameLength
      let e := e.setApiNameLength apiNameLength
      let e := e.setThreadId threadId.toNat
      let e := e.setTimestamp100ns timestamp100ns.toNat
      let e := e.store sizeofEventHeader (m.take moduleNameLength)
      (e.store (sizeofEventHeader + moduleNameLength) (a.take apiNameLength), true)
  | _, _, _, _ => (TraceEvent.zero.orFlags traceEventFlagFieldError, false)

/-! ## Guarded self-reads -/

def traceStatusNotConfigured : UInt32 := 0xC0000184
def traceStatusReadFailed : UInt32 := 0xC0000001

/-- `NT_SUCCESS`. -/
def ntSuccess (status : UInt32) : Bool := status < 0x80000000

/-- What a call of the `NtReadVirtualMemory` bypass did. -/
structure ReadOutcome where
  status : UInt32
  captured : UInt32
  /-- The bytes of the destination afterwards. -/
  bytes : Nat → UInt8

/-- `InvokeSelfRead` into a zeroed destination; the bypass is null, or it
    does what the outcome says. -/
def invokeSelfRead (bypass : Option ReadOutcome) (source : UInt64) (length : Nat) :
    ReadOutcome :=
  match bypass with
  | some outcome =>
      if source = 0 ∨ length = 0 then ⟨traceStatusNotConfigured, 0, fun _ => 0⟩
      else outcome
  | none => ⟨traceStatusNotConfigured, 0, fun _ => 0⟩

/-- `SafeReadSelf`: the status and the destination. -/
def safeReadSelf (bypass : Option ReadOutcome) (source : UInt64) (length : Nat) :
    UInt32 × Memory :=
  let r := invokeSelfRead bypass source length
  if ntSuccess r.status && r.captured.toNat ≠ length then (traceStatusReadFailed, r.bytes)
  else (r.status, r.bytes)

/-- `TraceBytesValue`. -/
structure TraceBytesValue where
  requested : UInt32
  captured : UInt32
  captureStatus : UInt32
  bytes : Memory

namespace TraceBytesValue

/-- The value in memory: the 12-byte header and the 64 bytes. -/
def encode (v : TraceBytesValue) : List UInt8 :=
  leBytes 4 v.requested.toNat ++ (leBytes 4 v.captured.toNat
    ++ (leBytes 4 v.captureStatus.toNat ++ slice v.bytes 0 traceMaxBufferBytes))

end TraceBytesValue

/-- `CaptureTraceBuffer`. -/
def captureTraceBuffer (bypass : Option ReadOutcome) (buffer : UInt64) (length : UInt32) :
    TraceBytesValue :=
  if buffer = 0 ∨ length = 0 then ⟨length, 0, 0, fun _ => 0⟩
  else
    let captureLength : UInt32 := if length < 64 then length else 64
    let r := invokeSelfRead bypass buffer captureLength.toNat
    { requested := length
      captured := if r.captured < captureLength then r.captured else captureLength
      captureStatus := r.status
      bytes := r.bytes }

/-! ## AddTrace* -/

section

variable (e : TraceEvent) (name : CharPtr)

def addTracePointer (value : UInt64) : TraceEvent × Bool :=
  appendTraceField e .pointer name (some (leBytes 8 value.toNat)) 8

def addTraceUInt32 (value : UInt32) : TraceEvent × Bool :=
  appendTraceField e .uint32 name (some (leBytes 4 value.toNat)) 4

def addTraceUInt64 (value : UInt64) : TraceEvent × Bool :=
  appendTraceField e .uint64 name (some (leBytes 8 value.toNat)) 8

def addTraceInt32 (value : Int32) : TraceEvent × Bool :=
  appendTraceField e .int32 name (some (leBytes 4 value.toUInt32.toNat)) 4

def addTraceInt64 (value : Int64) : TraceEvent × Bool :=
  appendTraceField e .int64 name (some (leBytes 8 value.toUInt64.toNat)) 8

def addTraceBoolean (value : Bool) : TraceEvent × Bool :=
  appendTraceField e .boolean name (some [if value then 1 else 0]) 1

def addTraceStatus (value : UInt32) : TraceEvent × Bool :=
  appendTraceField e .status name (some (leBytes 4 value.toNat)) 4

def addTraceBufferPreview (bypass : Option ReadOutcome) (buffer : UInt64)
    (length : UInt32) : TraceEvent × Bool :=
  let preview := captureTraceBuffer bypass buffer length
  appendTraceField e .bytes name (some preview.encode)
    ((sizeofBytesHeader + preview.captured.toNat) % 65536)

/-- `AddTraceWideString`; null is the empty string. -/
def addTraceWideString (value : Option (List UInt16)) (charCount : Nat) :
    TraceEvent × Bool :=
  let (chars, charCount) := match value with
    | some chars => (chars, charCount)
    | none => ([0], 0)
  let maxChars := traceMaxStringBytes / 2
  if maxChars < charCount then
    appendTraceField (e.orFlags traceEventFlagTruncated) .wideString name
      (some (wideBytes chars)) (maxChars * 2 % 65536)
  else
    appendTraceField e .wideString name (some (wideBytes chars)) (charCount * 2 % 65536)

/-- The wide characters of a buffer of bytes. -/
def wideChars (bytes : Memory) (count : Nat) : List UInt16 :=
  (List.range count).map fun i => UInt16.ofNat (word bytes (2 * i) 2)

/-- `AddTraceUnicodeString`, with the outcomes of its two reads. -/
def addTraceUnicodeString (readHeader readBuffer : Option ReadOutcome)
    (unicodeString : UInt64) : TraceEvent × Bool :=
  let (status, header) := safeReadSelf readHeader unicodeString 16
  if unicodeString = 0 ∨ ntSuccess status = false then addTraceWideString e name none 0
  else
    -- `header.Length & ~(USHORT)1`
    let length := word header 0 2 - word header 0 2 % 2
    let buffer := UInt64.ofNat (word header 8 8)
    let long := traceMaxStringBytes < length
    let byteLength := if long then traceMaxStringBytes else length
    let e := if long then e.orFlags traceEventFlagTruncated else e
    let (status, bytes) := safeReadSelf readBuffer buffer byteLength
    if buffer = 0 ∨ byteLength = 0 ∨ ntSuccess status = false then
      addTraceWideString e name none 0
    else addTraceWideString e name (some (wideChars bytes (byteLength / 2))) (byteLength / 2)

/-- `AddTraceObjectPath`, with the outcomes of its three reads. -/
def addTraceObjectPath (readAttributes readHeader readBuffer : Option ReadOutcome)
    (objectAttributes : UInt64) : TraceEvent × Bool :=
  let (status, header) := safeReadSelf readAttributes objectAttributes 48
  if objectAttributes = 0 ∨ ntSuccess status = false then addTraceWideString e name none 0
  else
    let rootDirectory := UInt64.ofNat (word header 8 8)
    let e := if rootDirectory ≠ 0 then
        (addTracePointer e (some (cstr "root_directory")) rootDirectory).1
      else e
    addTraceUnicodeString e name readHeader readBuffer (UInt64.ofNat (word header 16 8))

end

/-! ## What the name checks compute -/

theorem scanString_eq (budget : Nat) (s : List UInt8) :
    scanString budget s = min budget (cValue s).length := by
  induction s generalizing budget with
  | nil => cases budget <;> simp [scanString, cValue]
  | cons c cs ih =>
      cases budget with
      | zero => simp [scanString]
      | succ budget =>
          rw [scanString, cValue, List.takeWhile_cons]
          by_cases hc : c = 0
          · simp [hc]
          · rw [if_neg hc, ih, if_pos (by simpa using hc), List.length_cons, cValue]
            omega

/-- The C string is a prefix of the memory it starts. -/
theorem take_cValue (s : List UInt8) : s.take (cValue s).length = cValue s := by
  have hprefix : cValue s <+: s := List.takeWhile_prefix _
  exact (List.prefix_iff_eq_take.mp hprefix).symm

/-- The first character of a non-empty C string. -/
theorem head_cValue {s : List UInt8} {c : UInt8} {cs : List UInt8}
    (h : cValue s = c :: cs) : s.getD 0 0 = c := by
  cases s with
  | nil => cases h
  | cons d ds =>
      rw [cValue, List.takeWhile_cons] at h
      split at h
      · exact (List.cons.inj h).1
      · cases h

/-- A bounded string: its length is that of a non-empty C string. -/
theorem getBoundedStringLength_eq {value : CharPtr} {maximum length : Nat}
    (hmax : maximum < 256) :
    getBoundedStringLength value maximum = some length
      ↔ ∃ s, value = some s ∧ length = (cValue s).length ∧ cValue s ≠ [] ∧
        (cValue s).length ≤ maximum := by
  cases value with
  | none =>
      constructor
      · intro h
        cases h
      · rintro ⟨s, hs, -⟩
        cases hs
  | some s =>
      have hne : cValue s ≠ [] ↔ (cValue s).length ≠ 0 := by
        rw [ne_eq, ← List.length_eq_zero_iff]
      rw [getBoundedStringLength, scanString_eq]
      split
      · rename_i hbad
        constructor
        · intro h
          cases h
        · rintro ⟨s', hs, -, h2, h3⟩
          cases hs
          rw [hne] at h2
          omega
      · rename_i hgood
        constructor
        · intro h
          refine ⟨s, rfl, ?_, hne.mpr (by omega), by omega⟩
          rw [← Option.some.inj h]
          omega
        · rintro ⟨s', hs, h1, h2, h3⟩
          cases hs
          rw [h1]
          refine congrArg some ?_
          omega

/-- The transport admits a field name exactly when the parser does. -/
theorem isValidFieldName_eq {name : CharPtr} {length : Nat} :
    isValidFieldName name = some length
      ↔ ∃ s, name = some s ∧ length = (cValue s).length ∧ FieldNameOk (cValue s) := by
  have hbounded := @getBoundedStringLength_eq name traceMaxFieldNameBytes
  unfold isValidFieldName
  split
  · rename_i length' s hlen
    obtain ⟨s', hs, hl, hne, hmax⟩ := (hbounded (by decide)).mp hlen
    cases hs
    obtain ⟨c, cs, hc⟩ : ∃ c cs, cValue s = c :: cs := List.exists_cons_of_ne_nil hne
    have hhead := head_cValue hc
    have htake : s.take length' = cValue s := by
      rw [hl]
      exact take_cValue s
    have hlower : ¬ (s.getD 0 0 < byteOf 'a' ∨ byteOf 'z' < s.getD 0 0)
        ↔ lowerLetter c = true := by
      rw [hhead, lowerLetter, Bool.and_eq_true, decide_eq_true_eq, decide_eq_true_eq,
        not_or, UInt8.not_lt, UInt8.not_lt]
    have hall : ((s.take length').drop 1).all nameChar = true
        ↔ ∀ d ∈ cs, fieldNameChar d = true := by
      rw [htake, hc, List.all_eq_true]
      exact Iff.rfl
    have hcs : cs.length < traceMaxFieldNameBytes := by
      rw [hc, List.length_cons] at hmax
      omega
    constructor
    · intro h
      split at h
      · cases h
      · rename_i hfirst
        split at h
        · rename_i hrest
          refine ⟨s, rfl, ?_, ?_⟩
          · rw [← Option.some.inj h, hl]
          · rw [hc]
            exact ⟨hcs, hlower.mp hfirst, hall.mp hrest⟩
        · cases h
    · rintro ⟨s', hs, rfl, hok⟩
      cases hs
      rw [hc] at hok
      rw [if_neg (hlower.mpr hok.2.1), if_pos (hall.mpr hok.2.2), hl]
  · rename_i hnone
    constructor
    · intro h
      cases h
    · rintro ⟨s, hs, -, hok⟩
      cases hc : cValue s with
      | nil =>
          rw [hc] at hok
          exact hok.elim
      | cons c cs =>
          rw [hc] at hok
          have hsome := (@getBoundedStringLength_eq _ traceMaxFieldNameBytes
            (cValue s).length (by decide)).mpr ⟨s, hs, rfl, by rw [hc]; simp, by
              rw [hc, List.length_cons]
              exact hok.1⟩
          exact absurd hs (hnone _ s hsome)

/-- The transport admits an identifier exactly when the parser does. -/
theorem isValidIdentifier_eq {name : CharPtr} {moduleName : Bool} {length : Nat} :
    isValidIdentifier name traceMaxModuleNameBytes moduleName = some length
      ↔ ∃ s, name = some s ∧ length = (cValue s).length ∧
        IdentifierOk moduleName (cValue s) := by
  have hbounded := @getBoundedStringLength_eq name traceMaxModuleNameBytes
  unfold isValidIdentifier
  split
  · rename_i length' s hlen
    obtain ⟨s', hs, hl, hne, hmax⟩ := (hbounded (by decide)).mp hlen
    cases hs
    have hall : (s.take length').all (moduleChar moduleName) = true
        ↔ ∀ c ∈ cValue s, identifierChar moduleName c = true := by
      rw [hl, take_cValue, List.all_eq_true]
      exact Iff.rfl
    constructor
    · intro h
      split at h
      · rename_i hchars
        refine ⟨s, rfl, ?_, hne, hmax, hall.mp hchars⟩
        rw [← Option.some.inj h, hl]
      · cases h
    · rintro ⟨s', hs, rfl, -, -, hok⟩
      cases hs
      rw [if_pos (hall.mpr hok), hl]
  · rename_i hnone
    constructor
    · intro h
      cases h
    · rintro ⟨s, hs, -, hne, hmax, -⟩
      have hsome := (@getBoundedStringLength_eq _ traceMaxModuleNameBytes
        (cValue s).length (by decide)).mpr ⟨s, hs, rfl, hne, hmax⟩
      exact absurd hs (hnone _ s hsome)

/-! ## What the duplicate check computes -/

theorem run_hasTraceFieldFrom {mem : Memory} {name : List UInt8} {fs : List TraceField}
    {cursor : Nat} (hlen : ∀ f ∈ fs, f.name.length < 256 ∧ f.value.length < 65536)
    (h : Holds mem cursor (serialiseFields fs)) :
    (hasTraceFieldFrom name fs.length cursor).run mem = true
      ↔ name ∈ fs.map TraceField.name := by
  induction fs generalizing cursor with
  | nil =>
      rw [List.length_nil, hasTraceFieldFrom, Read.run_pure]
      simp
  | cons f fs ih =>
      rw [serialiseFields_cons] at h
      obtain ⟨h1, h2⟩ := holds_append.mp h
      obtain ⟨hn, hv⟩ := hlen f List.mem_cons_self
      obtain ⟨-, hnl, hvl, hname, -⟩ := holds_field hn hv h1
      rw [f.serialise_length] at h2
      have hrest := ih (fun g hg => hlen g (List.mem_cons_of_mem _ hg)) h2
      have hcursor : cursor + (sizeofFieldHeader + f.name.length + f.value.length)
          = cursor + sizeofFieldHeader + (f.name.length + f.value.length) := by omega
      rw [hcursor] at hrest
      rw [List.length_cons, hasTraceFieldFrom, List.map_cons, List.mem_cons]
      simp only [Read.run_bind, run_readWord, Read.run_ite, Read.run_pure, hnl, hvl]
      by_cases hl : f.name.length = name.length
      · rw [if_pos hl]
        by_cases hsame : (readEqual (cursor + sizeofFieldHeader) name).run mem = true
        · rw [if_pos hsame]
          have hheld : slice mem (cursor + sizeofFieldHeader) name.length = name :=
            (run_readEqual _ _ _).mp hsame
          have hheld' : slice mem (cursor + sizeofFieldHeader) f.name.length = f.name :=
            hname
          rw [← hl, hheld'] at hheld
          exact ⟨fun _ => Or.inl hheld.symm, fun _ => rfl⟩
        · rw [if_neg hsame, hrest]
          refine ⟨Or.inr, fun hor => hor.resolve_left ?_⟩
          intro heq
          exact hsame ((run_readEqual _ _ _).mpr (heq ▸ hname))
      · rw [if_neg hl, hrest]
        refine ⟨Or.inr, fun hor => hor.resolve_left ?_⟩
        intro heq
        exact hl (heq ▸ rfl)

/-- A represented event has a field of a name exactly when the walk finds it. -/
theorem hasTraceField_eq {e : TraceEvent} {m a : List UInt8} {fs : List TraceField}
    (h : Represents e m a fs) (name : List UInt8) :
    hasTraceField e name = true ↔ name ∈ fs.map TraceField.name := by
  obtain ⟨-, hrest⟩ := holds_append.mp h.held
  obtain ⟨-, hf⟩ := holds_append.mp hrest
  rw [hasTraceField, traceNameBytes, h.moduleNameLength, h.apiNameLength, h.fieldCount,
    ← Nat.add_assoc]
  exact run_hasTraceFieldFrom h.field_lengths hf

/-! ## What an append does -/

theorem bytesAt_length (value : List UInt8) (size : Nat) :
    (bytesAt value size).length = size := by
  rw [bytesAt, List.length_map, List.length_range]

/-- Exactly the bytes there are. -/
theorem bytesAt_self (value : List UInt8) : bytesAt value value.length = value :=
  map_range_getD value

/-- The field an append writes. -/
def fieldOf (type : TraceFieldType) (name value : List UInt8) : TraceField where
  type := UInt8.ofNat type.code
  name := name
  value := value

theorem fieldOf_ok {type : TraceFieldType} {name value : List UInt8}
    (hn : FieldNameOk name) (hv : ValueOk type.code value) :
    (fieldOf type name value).Ok := by
  refine ⟨hn, ?_⟩
  show ValueOk (UInt8.ofNat type.code).toNat value
  rw [UInt8.toNat_ofNat', Nat.mod_eq_of_lt type.code_lt]
  exact hv

/-- What a refused append leaves: one more flag. -/
def Refused (e e' : TraceEvent) : Prop :=
  ∃ flag, (flag = traceEventFlagTruncated ∨ flag = traceEventFlagFieldError) ∧
    e' = e.orFlags flag

/-- A represented event passes the checks that an append starts with. -/
theorem entry_of_represents {e : TraceEvent} {m a : List UInt8} {fs : List TraceField}
    (h : Represents e m a fs) :
    ¬ (e.magic ≠ traceEventMagic ∨ e.version ≠ traceEventVersion
      ∨ e.size < sizeofEventHeader + traceNameBytes e ∨ traceMaxEventBytes < e.size) := by
  rintro (h1 | h1 | h1 | h1)
  · exact h1 h.magic
  · exact h1 h.version
  · rw [traceNameBytes, h.moduleNameLength, h.apiNameLength, h.size, List.length_append,
      List.length_append] at h1
    omega
  · exact absurd h.fits (Nat.not_le.mpr h1)

/-- **AN APPEND** adds one field to what the event represents, or is refused
    with a flag. -/
theorem append_represents {e : TraceEvent} {m a : List UInt8} {fs : List TraceField}
    (h : Represents e m a fs) (type : TraceFieldType) (name : CharPtr)
    (value : List UInt8) {valueSize : Nat}
    (hvalue : ValueOk type.code (bytesAt value valueSize)) :
    (∃ s e', name = some s ∧
      appendTraceField e type name (some value) valueSize = (e', true) ∧
      Represents e' m a (fs ++ [fieldOf type (cValue s) (bytesAt value valueSize)]) ∧
      e'.flags = e.flags) ∨
    ∃ e', appendTraceField e type name (some value) valueSize = (e', false) ∧
      Refused e e' := by
  unfold appendTraceField
  simp only [if_neg (entry_of_represents h)]
  split
  · rename_i nameLength s hname
    obtain ⟨s', hs, hl, hok⟩ := isValidFieldName_eq.mp hname
    cases hs
    have htake : s.take nameLength = cValue s := by
      rw [hl]
      exact take_cValue s
    rw [htake]
    by_cases hdup : hasTraceField e (cValue s) = true
    · rw [if_pos hdup]
      exact Or.inr ⟨_, rfl, _, Or.inr rfl, rfl⟩
    · rw [if_neg hdup]
      have hlen : (fieldOf type (cValue s) (bytesAt value valueSize)).serialise.length
          = sizeofFieldHeader + nameLength + valueSize := by
        rw [TraceField.serialise_length, hl]
        show _ + _ + (bytesAt value valueSize).length = _
        rw [bytesAt_length]
        rfl
      -- a new name: the field is written if there is room
      by_cases hfit : traceMaxEventBytes
          < e.size + (sizeofFieldHeader + nameLength + valueSize)
      · rw [if_pos hfit]
        exact Or.inr ⟨_, rfl, _, Or.inl rfl, rfl⟩
      · rw [if_neg hfit]
        have hsize : 32 ≤ e.size := by
          rw [h.size]
          exact Nat.le_add_right 32 _
        have hvl : (bytesAt value valueSize).length = valueSize := bytesAt_length ..
        refine Or.inl ⟨s, _, rfl, rfl, ?_, ?_⟩
        · have hheader : UInt8.ofNat type.code :: UInt8.ofNat nameLength :: leBytes 2 valueSize
              = (fieldOf type (cValue s) (bytesAt value valueSize)).type
                :: UInt8.ofNat (cValue s).length
                :: leBytes 2 (bytesAt value valueSize).length := by
            rw [hl, hvl]
            rfl
          have happend := h.append (fieldOf_ok hok hvalue)
            (fun hmem => hdup ((hasTraceField_eq h _).mpr hmem))
            (by rw [hlen]; omega) hheader
          rw [hlen] at happend
          subst hl
          exact happend
        · -- flags live below every byte written
          have hlow := (@byte_writeField e e.size
            (UInt8.ofNat type.code :: UInt8.ofNat nameLength :: leBytes 2 valueSize)
            (cValue s) (bytesAt value valueSize) (by
              simp only [List.length_cons, leBytes_length, hvl, ← hl]
              have h4 : sizeofFieldHeader = 4 := rfl
              omega)).2
          subst hl
          refine word_congr fun i h1 h2 => ?_
          exact (byte_countField _ _ _ (by omega) (by omega)).trans (hlow i (by omega))
  · exact Or.inr ⟨_, rfl, _, Or.inr rfl, rfl⟩

/-- An append is accepted if its name is admissible and new, and its field
    fits. -/
theorem append_accepts_iff {e : TraceEvent} {m a : List UInt8} {fs : List TraceField}
    (h : Represents e m a fs) (type : TraceFieldType) (name : CharPtr) (value : List UInt8)
    {valueSize : Nat} :
    (appendTraceField e type name (some value) valueSize).2 = true ↔
      ∃ s, name = some s ∧ FieldNameOk (cValue s) ∧ cValue s ∉ fs.map TraceField.name ∧
        e.size + (sizeofFieldHeader + (cValue s).length + valueSize) ≤ traceMaxEventBytes := by
  unfold appendTraceField
  simp only [if_neg (entry_of_represents h)]
  split
  · rename_i nameLength s hname
    obtain ⟨s', hs, hl, hok⟩ := isValidFieldName_eq.mp hname
    cases hs
    have hdup : hasTraceField e (s.take nameLength) = true ↔ cValue s ∈ fs.map TraceField.name := by
      rw [hl, take_cValue]
      exact hasTraceField_eq h _
    constructor
    · intro htrue
      split at htrue
      next => cases htrue
      next hnew =>
        split at htrue
        next => cases htrue
        next hfit =>
          exact ⟨s, rfl, hok, fun hmem => hnew (hdup.mpr hmem), hl ▸ Nat.le_of_not_lt hfit⟩
    · rintro ⟨s', hs', -, hnew, hfit⟩
      cases hs'
      rw [if_neg (fun hd => hnew (hdup.mp hd)), hl, if_neg (Nat.not_lt.mpr hfit)]
  · rename_i hrefused
    constructor
    · intro hfalse
      cases hfalse
    · rintro ⟨s, rfl, hok, -⟩
      exact (hrefused _ s (isValidFieldName_eq.mpr ⟨s, rfl, rfl, hok⟩) rfl).elim

/-- A refused append leaves what the event represents. -/
theorem Refused.represents {e e' : TraceEvent} {m a : List UInt8}
    {fs : List TraceField} (hr : Refused e e') (h : Represents e m a fs) :
    Represents e' m a fs := by
  obtain ⟨flag, -, rfl⟩ := hr
  exact h.congr fun i _ hi _ => e.byte_orFlags flag hi

theorem Refused.byte_eq {e e' : TraceEvent} (hr : Refused e e') {i : Nat}
    (h8 : i ≠ 8) (h9 : i ≠ 9) : e'.byte i = e.byte i := by
  obtain ⟨flag, -, rfl⟩ := hr
  exact e.byte_orFlags flag (by omega)

/-- A refused append leaves a flag set. -/
theorem Refused.flags_ne {e e' : TraceEvent} (hr : Refused e e') : e'.flags ≠ 0 := by
  obtain ⟨flag, hflag, rfl⟩ := hr
  have hlt : flag < 2 ^ 16 := by
    rcases hflag with rfl | rfl <;> decide
  rw [e.flags_orFlags hlt]
  intro hzero
  have := (Nat.or_eq_zero_iff.mp hzero).2
  rcases hflag with rfl | rfl <;> cases this

/-! ## Initialisation -/

/-- The header that `InitializeTraceEvent` writes. -/
def headerEvent (moduleNameLength apiNameLength threadId timestamp100ns : Nat) :
    TraceEvent :=
  ((((((TraceEvent.zero.setMagic traceEventMagic).setVersion
    traceEventVersion).setSize (sizeofEventHeader + moduleNameLength
      + apiNameLength)).setModuleNameLength moduleNameLength).setApiNameLength
        apiNameLength).setThreadId threadId).setTimestamp100ns timestamp100ns

theorem headerEvent_members (ml al threadId timestamp : Nat) :
    let e := headerEvent ml al threadId timestamp
    e.magic = traceEventMagic ∧ e.version = traceEventVersion ∧
      e.size = (sizeofEventHeader + ml + al) % 256 ^ 2 ∧ e.flags = 0 ∧
      e.fieldCount = 0 ∧ e.moduleNameLength = ml % 256 ^ 1 ∧
      e.apiNameLength = al % 256 ^ 1 := by
  simp (disch := decide) only [headerEvent, TraceEvent.magic, TraceEvent.version,
    TraceEvent.size, TraceEvent.flags, TraceEvent.fieldCount,
    TraceEvent.moduleNameLength, TraceEvent.apiNameLength, TraceEvent.setMagic,
    TraceEvent.setVersion, TraceEvent.setSize, TraceEvent.setModuleNameLength,
    TraceEvent.setApiNameLength, TraceEvent.setThreadId, TraceEvent.setTimestamp100ns,
    TraceEvent.word_setWord_self, TraceEvent.word_setWord_of_disjoint,
    TraceEvent.byte_zero]
  refine ⟨rfl, rfl, trivial, rfl, rfl, ?_⟩
  exact ⟨trivial, trivial⟩

/-- **INITIALISATION** succeeds on two admissible identifiers and leaves an
    event of these and no field. -/
theorem initialize_represents {moduleName apiName : CharPtr} {threadId : UInt32}
    {timestamp100ns : UInt64} {e : TraceEvent}
    (h : initializeTraceEvent moduleName apiName threadId timestamp100ns = (e, true)) :
    ∃ m a, moduleName = some m ∧ apiName = some a ∧
      Represents e (cValue m) (cValue a) [] ∧ e.flags = 0 := by
  unfold initializeTraceEvent at h
  split at h
  · rename_i ml m al a hm ha
    obtain ⟨m', hm', hml, hmok⟩ := isValidIdentifier_eq.mp hm
    obtain ⟨a', ha', hal, haok⟩ := isValidIdentifier_eq.mp ha
    cases hm'
    cases ha'
    refine ⟨m, a, rfl, rfl, ?_⟩
    have hmt : m.take ml = cValue m := by
      rw [hml]
      exact take_cValue m
    have hat : a.take al = cValue a := by
      rw [hal]
      exact take_cValue a
    have he : e = ((headerEvent ml al threadId.toNat timestamp100ns.toNat).store
        sizeofEventHeader (cValue m)).store (sizeofEventHeader + ml) (cValue a) := by
      rw [← hmt, ← hat]
      exact (Prod.mk.inj h).1.symm
    obtain ⟨h1, h2, h3, h4, h5, h6, h7⟩ :=
      headerEvent_members ml al threadId.toNat timestamp100ns.toNat
    have hlim : traceMaxModuleNameBytes = 63 := rfl
    have hs : sizeofEventHeader = 32 := rfl
    have hmax : traceMaxEventBytes = 1024 := rfl
    have hm63 := hmok.2.1
    have ha63 := haok.2.1
    have hbyte : e.byte = store (store
        (headerEvent ml al threadId.toNat timestamp100ns.toNat).byte sizeofEventHeader
        (cValue m)) (sizeofEventHeader + ml) (cValue a) := by
      rw [he, TraceEvent.byte_store _ (by omega), TraceEvent.byte_store _ (by omega)]
    have hword : ∀ off n, off + n ≤ 32 → word e.byte off n
        = word (headerEvent ml al threadId.toNat timestamp100ns.toNat).byte off n := by
      intro off n hn
      rw [hbyte, word_store_disjoint (by omega), word_store_disjoint (by omega)]
    have hsize : e.size = sizeofEventHeader + ml + al :=
      (hword 6 2 (by omega)).trans (h3.trans (Nat.mod_eq_of_lt (by omega)))
    refine ⟨⟨?_, ?_, ?_, ?_, ?_, ?_, by omega, ?_, hmok, haok, ?_, List.nodup_nil⟩, ?_⟩
    · exact (hword 0 4 (by omega)).trans h1
    · exact (hword 4 2 (by omega)).trans h2
    · rw [← hml]
      exact (hword 28 1 (by omega)).trans (h6.trans (Nat.mod_eq_of_lt (by omega)))
    · rw [← hal]
      exact (hword 29 1 (by omega)).trans (h7.trans (Nat.mod_eq_of_lt (by omega)))
    · exact (hword 10 2 (by omega)).trans h5
    · rw [hsize, List.length_append, List.length_append, ← hml, ← hal]
      show _ = _ + (_ + (_ + 0))
      omega
    · rw [hbyte]
      refine holds_append.mpr ⟨?_, holds_append.mpr ⟨?_, holds_nil _ _⟩⟩
      · rw [holds_store_disjoint (by omega)]
        exact holds_store _ _ _
      · rw [← hml]
        exact holds_store _ _ _
    · intro f hf
      cases hf
    · exact (hword 8 2 (by omega)).trans h4
  · cases h

end ScopeTransport
