import ApiScope.TraceParserProofs

/-! # The trace renderer — text and JSON lines

    `RenderTraceEventText` and `RenderTraceEventJsonl` as read programs that
    return the bytes they put into the stream.  Two calls leave the
    repository: the conversion to UTF-8 and the conversion of a file time.
    Both are parameters (`SystemCalls`).

    The second half bounds what they read: each field is printed from the
    bytes of its own value. -/

namespace ScopeRenderer

open ScopeBytes ScopeRead ScopeProtocol ScopeParser

/-! ## Calls of the system -/

/-- `SYSTEMTIME`, the members that are printed. -/
structure SystemTime where
  year : Nat
  month : Nat
  day : Nat
  hour : Nat
  minute : Nat
  second : Nat

structure SystemCalls where
  /-- `WideCharToMultiByte` with `CP_UTF8`; empty when it fails. -/
  wideCharToMultiByte : List UInt16 → List UInt8
  /-- `FileTimeToSystemTime`; none when it fails. -/
  fileTimeToSystemTime : Nat → Option SystemTime

/-! ## Numbers -/

/-- An unsigned number in decimal. -/
def decimal (n : Nat) : List UInt8 := (Nat.toDigits 10 n).map byteOf

/-- A signed number in decimal. -/
def signedDecimal (i : Int) : List UInt8 :=
  if i < 0 then byteOf '-' :: decimal i.natAbs else decimal i.natAbs

def upperHex (n : Nat) : List UInt8 :=
  (Nat.toDigits 16 n).map fun c => byteOf c.toUpper

def lowerHex (n : Nat) : List UInt8 := (Nat.toDigits 16 n).map byteOf

/-- `setw` with `setfill('0')`, aligned right. -/
def zeroFill (width : Nat) (digits : List UInt8) : List UInt8 :=
  List.replicate (width - digits.length) (byteOf '0') ++ digits

def hexStatus (status : Nat) : List UInt8 := cstr "0x" ++ zeroFill 8 (upperHex status)

def formatPointer (pointer : Nat) : List UInt8 :=
  cstr "0x" ++ zeroFill 16 (upperHex pointer)

/-- The cases of `StatusName`. -/
def statusNames : List (Nat × String) :=
  [(0x00000000, "STATUS_SUCCESS"), (0x00000103, "STATUS_PENDING"),
    (0x00000104, "STATUS_REPARSE"), (0x00000105, "STATUS_MORE_ENTRIES"),
    (0x40000000, "STATUS_OBJECT_NAME_EXISTS"), (0x80000005, "STATUS_BUFFER_OVERFLOW"),
    (0x8000000D, "STATUS_PARTIAL_COPY"), (0x8000001A, "STATUS_NO_MORE_ENTRIES"),
    (0xC0000001, "STATUS_UNSUCCESSFUL"), (0xC0000002, "STATUS_NOT_IMPLEMENTED"),
    (0xC0000008, "STATUS_INVALID_HANDLE"), (0xC000000D, "STATUS_INVALID_PARAMETER"),
    (0xC000000F, "STATUS_NO_SUCH_FILE"), (0xC0000011, "STATUS_END_OF_FILE"),
    (0xC0000022, "STATUS_ACCESS_DENIED"), (0xC0000023, "STATUS_BUFFER_TOO_SMALL"),
    (0xC0000034, "STATUS_OBJECT_NAME_NOT_FOUND"),
    (0xC0000035, "STATUS_OBJECT_NAME_COLLISION"),
    (0xC000003A, "STATUS_OBJECT_PATH_NOT_FOUND"), (0xC0000043, "STATUS_SHARING_VIOLATION"),
    (0xC0000061, "STATUS_PRIVILEGE_NOT_HELD"), (0xC00000BA, "STATUS_FILE_IS_A_DIRECTORY"),
    (0xC0000103, "STATUS_NOT_A_DIRECTORY"), (0xC0000120, "STATUS_CANCELLED"),
    (0xC0000225, "STATUS_NOT_FOUND")]

def statusName (status : Nat) : Option String := statusNames.lookup status

def formatStatus (status : Nat) : List UInt8 :=
  match statusName status with
  | some name => cstr name ++ (cstr " (" ++ (hexStatus status ++ cstr ")"))
  | none => hexStatus status

def formatTimestamp (calls : SystemCalls) (timestamp100ns : Nat) : List UInt8 :=
  if timestamp100ns = 0 then cstr "unavailable"
  else
    match calls.fileTimeToSystemTime timestamp100ns with
    | none => cstr "invalid"
    | some time =>
        List.flatten
          [zeroFill 4 (decimal time.year), cstr "-", zeroFill 2 (decimal time.month),
            cstr "-", zeroFill 2 (decimal time.day), cstr "T",
            zeroFill 2 (decimal time.hour), cstr ":", zeroFill 2 (decimal time.minute),
            cstr ":", zeroFill 2 (decimal time.second), cstr ".",
            zeroFill 7 (decimal (timestamp100ns % 10000000)), cstr "Z"]

/-! ## Bytes and strings -/

/-- `HexBytes`, from the byte of the given index on. -/
def hexBytesFrom (spaced : Bool) : (index : Nat) → List UInt8 → List UInt8
  | _, [] => []
  | index, b :: bs =>
      (if spaced && index ≠ 0 then [byteOf ' '] else [])
        ++ zeroFill 2 (upperHex b.toNat) ++ hexBytesFrom spaced (index + 1) bs

def hexBytes (bytes : List UInt8) (spaced : Bool) : List UInt8 :=
  hexBytesFrom spaced 0 bytes

/-- One byte of `JsonEscape`. -/
def escapeByte (value : UInt8) : List UInt8 :=
  if value = byteOf '"' then cstr "\\\""
  else if value = byteOf '\\' then cstr "\\\\"
  else if value = 8 then cstr "\\b"
  else if value = 12 then cstr "\\f"
  else if value = 10 then cstr "\\n"
  else if value = 13 then cstr "\\r"
  else if value = 9 then cstr "\\t"
  else if value < 0x20 then cstr "\\u" ++ zeroFill 4 (lowerHex value.toNat)
  else [value]

def jsonEscape (input : List UInt8) : List UInt8 := input.flatMap escapeByte

def previewText (bytes : List UInt8) : List UInt8 :=
  bytes.map fun value => if 32 ≤ value ∧ value ≤ 126 then value else byteOf '.'

/-- `WideToUtf8`. -/
def wideToUtf8 (calls : SystemCalls) (value byteSize : Nat) : Read (List UInt8) :=
  if byteSize < 2 then pure []
  else do
    let bytes ← readBytes value (byteSize / 2 * 2)
    pure (calls.wideCharToMultiByte (wideOfBytes bytes))

/-! ## Text -/

def colorReset : List UInt8 := cstr "\x1b[0m"
def colorApi : List UInt8 := cstr "\x1b[36;1m"
def colorOk : List UInt8 := cstr "\x1b[32m"
def colorError : List UInt8 := cstr "\x1b[31m"
def colorPath : List UInt8 := cstr "\x1b[32m"
def colorDim : List UInt8 := cstr "\x1b[2m"

/-- `PutColor`. -/
def putColor (useColor : Bool) (code : List UInt8) : List UInt8 :=
  if useColor then code else []

/-- `status >= 0` of an `NTSTATUS`. -/
def statusOk (status : Nat) : Bool := 0 ≤ (UInt32.ofNat status).toInt32

/-- The label width after one more field. -/
def fieldLabelWidth (width : Nat) (field : TraceFieldView) : Nat :=
  let width := max width field.name.length
  if field.type = TraceFieldType.bytes.code then
    max (max width (field.name.length + (cstr "_ascii").length))
      (field.name.length + (cstr "_status").length)
  else width

def textLabelWidth (fields : List TraceFieldView) (flags : Nat) : Nat :=
  let width := fields.foldl fieldLabelWidth (cstr "timestamp").length
  let width := if flags &&& traceEventFlagTruncated ≠ 0 then
      max width (cstr "truncated").length
    else width
  if flags &&& traceEventFlagFieldError ≠ 0 then max width (cstr "field_error").length
  else width

def renderTextLabel (name : List UInt8) (width : Nat) : List UInt8 :=
  cstr "    " ++ name ++ List.replicate (width - name.length) (byteOf ' ') ++ cstr ": "

/-- `RenderBytesText`. -/
def renderBytesText (field : TraceFieldView) (labelWidth : Nat) (useColor : Bool) :
    Read (List UInt8) := do
  let requested ← readWord field.value 4
  let captured ← readWord (field.value + 4) 4
  let captureStatus ← readWord (field.value + 8) 4
  let preview := field.value + sizeofBytesHeader
  let hex ← readBytes preview captured
  let ascii ← readBytes preview captured
  let truncated := captured < requested
  pure <| List.flatten
    [renderTextLabel (field.name ++ cstr "_hex") labelWidth, hexBytes hex true,
      if truncated then cstr " ..." else [], cstr "\n",
      renderTextLabel (field.name ++ cstr "_ascii") labelWidth, previewText ascii,
      if truncated then cstr "..." else [], cstr "\n",
      renderTextLabel (field.name ++ cstr "_size") labelWidth, decimal captured,
      cstr " of ", decimal requested, cstr " bytes\n",
      renderTextLabel (field.name ++ cstr "_status") labelWidth,
      putColor useColor (if statusOk captureStatus then colorOk else colorError),
      formatStatus captureStatus, putColor useColor colorReset, cstr "\n"]

/-- The `switch` of the text renderer on a field that is not a buffer. -/
def renderTextValue (calls : SystemCalls) (useColor : Bool) (field : TraceFieldView) :
    Read (List UInt8) :=
  match TraceFieldType.ofCode field.type with
  | some .pointer => do
      let pointer ← readWord field.value 8
      pure (formatPointer pointer)
  | some .uint32 => do
      let n ← readWord field.value 4
      pure (decimal n)
  | some .uint64 => do
      let n ← readWord field.value 8
      pure (decimal n)
  | some .int32 => do
      let n ← readWord field.value 4
      pure (signedDecimal (UInt32.ofNat n).toInt32.toInt)
  | some .int64 => do
      let n ← readWord field.value 8
      pure (signedDecimal (UInt64.ofNat n).toInt64.toInt)
  | some .boolean => do
      let b ← readByte field.value
      pure (if b ≠ 0 then cstr "true" else cstr "false")
  | some .status => do
      let status ← readWord field.value 4
      pure (putColor useColor (if statusOk status then colorOk else colorError)
        ++ formatStatus status ++ putColor useColor colorReset)
  | some .wideString => do
      let utf8 ← wideToUtf8 calls field.value field.valueSize
      pure (putColor useColor colorPath ++ utf8 ++ putColor useColor colorReset)
  | _ => do
      let bytes ← readBytes field.value field.valueSize
      pure (cstr "type_" ++ decimal field.type ++ cstr " " ++ hexBytes bytes true)

/-- One pass of the field loop of the text renderer. -/
def renderTextField (calls : SystemCalls) (labelWidth : Nat) (useColor : Bool)
    (field : TraceFieldView) : Read (List UInt8) :=
  if field.type = TraceFieldType.bytes.code then renderBytesText field labelWidth useColor
  else do
    let value ← renderTextValue calls useColor field
    pure (renderTextLabel field.name labelWidth ++ value ++ cstr "\n")

/-- A loop over fields, from the one of the given index on. -/
def renderEach (separator : List UInt8) (render : TraceFieldView → Read (List UInt8)) :
    (index : Nat) → List TraceFieldView → Read (List UInt8)
  | _, [] => pure []
  | index, field :: fields => do
      let out ← render field
      let rest ← renderEach separator render (index + 1) fields
      pure ((if index ≠ 0 then separator else []) ++ out ++ rest)

/-- A line whose value is dim. -/
def renderDimLine (name : List UInt8) (labelWidth : Nat) (useColor : Bool)
    (value : List UInt8) : List UInt8 :=
  renderTextLabel name labelWidth ++ putColor useColor colorDim ++ value
    ++ putColor useColor colorReset ++ cstr "\n"

/-- A line of a flag that is set. -/
def renderFlagLine (flags flag : Nat) (name : List UInt8) (labelWidth : Nat) : List UInt8 :=
  if flags &&& flag ≠ 0 then renderTextLabel name labelWidth ++ cstr "true\n" else []

/-- `RenderTraceEventText`: what it puts into the stream. -/
def renderTraceEventText (calls : SystemCalls) (useColor : Bool) : Read (List UInt8) := do
  let size ← readSize
  let parsed ← parseTraceEvent size
  match parsed with
  | none => pure []
  | some p => do
      let flags ← readFlags
      let timestamp100ns ← readTimestamp100ns
      let threadId ← readThreadId
      let sequence ← readSequence
      let labelWidth := textLabelWidth p.fields flags
      let body ← renderEach [] (renderTextField calls labelWidth useColor) 0 p.fields
      pure <| List.flatten
        [cstr "\n[*] ", putColor useColor colorApi, p.moduleName, cstr "!", p.apiName,
          putColor useColor colorReset, cstr " ----------\n",
          renderDimLine (cstr "timestamp") labelWidth useColor
            (formatTimestamp calls timestamp100ns),
          renderDimLine (cstr "thread_id") labelWidth useColor (decimal threadId),
          renderDimLine (cstr "sequence") labelWidth useColor (decimal sequence), body,
          renderFlagLine flags traceEventFlagTruncated (cstr "truncated") labelWidth,
          renderFlagLine flags traceEventFlagFieldError (cstr "field_error") labelWidth]

/-! ## JSON lines -/

def quoted (s : List UInt8) : List UInt8 := cstr "\"" ++ s ++ cstr "\""

def jsonBool (b : Bool) : List UInt8 := if b then cstr "true" else cstr "false"

/-- The `switch` of the JSON renderer. -/
def renderJsonValue (calls : SystemCalls) (field : TraceFieldView) : Read (List UInt8) :=
  match TraceFieldType.ofCode field.type with
  | some .pointer => do
      let pointer ← readWord field.value 8
      pure (quoted (formatPointer pointer))
  | some .uint64 => do
      let n ← readWord field.value 8
      pure (decimal n)
  | some .uint32 => do
      let n ← readWord field.value 4
      pure (decimal n)
  | some .int32 => do
      let n ← readWord field.value 4
      pure (signedDecimal (UInt32.ofNat n).toInt32.toInt)
  | some .int64 => do
      let n ← readWord field.value 8
      pure (signedDecimal (UInt64.ofNat n).toInt64.toInt)
  | some .boolean => do
      let b ← readByte field.value
      pure (jsonBool (b ≠ 0))
  | some .status => do
      let status ← readWord field.value 4
      pure (quoted (formatStatus status))
  | some .wideString => do
      let utf8 ← wideToUtf8 calls field.value field.valueSize
      pure (quoted (jsonEscape utf8))
  | some .bytes => do
      let requested ← readWord field.value 4
      let captured ← readWord (field.value + 4) 4
      let captureStatus ← readWord (field.value + 8) 4
      let preview := field.value + sizeofBytesHeader
      let hex ← readBytes preview captured
      let ascii ← readBytes preview captured
      pure <| List.flatten
        [cstr "\x7b\"type\":\"bytes\",\"requested\":", decimal requested,
          cstr ",\"captured\":", decimal captured, cstr ",\"status\":",
          quoted (formatStatus captureStatus), cstr ",\"hex\":",
          quoted (hexBytes hex false), cstr ",\"ascii\":",
          quoted (jsonEscape (previewText ascii)), cstr "\x7d"]
  | none => do
      let bytes ← readBytes field.value field.valueSize
      pure <| List.flatten
        [cstr "\x7b\"type\":\"unknown_", decimal field.type, cstr "\",\"hex\":",
          quoted (hexBytes bytes false), cstr "\x7d"]

def renderJsonField (calls : SystemCalls) (field : TraceFieldView) : Read (List UInt8) := do
  let value ← renderJsonValue calls field
  pure (quoted field.name ++ cstr ":" ++ value)

def traceJsonSchemaVersion : Nat := 1

/-- `RenderTraceEventJsonl`: what it puts into the stream. -/
def renderTraceEventJsonl (calls : SystemCalls) : Read (List UInt8) := do
  let size ← readSize
  let parsed ← parseTraceEvent size
  match parsed with
  | none => pure []
  | some p => do
      let sequence ← readSequence
      let timestamp100ns ← readTimestamp100ns
      let threadId ← readThreadId
      let flags ← readFlags
      let body ← renderEach (cstr ",") (renderJsonField calls) 0 p.fields
      pure <| List.flatten
        [cstr "\x7b\"schema_version\":", decimal traceJsonSchemaVersion,
          cstr ",\"sequence\":", decimal sequence, cstr ",\"timestamp\":",
          quoted (formatTimestamp calls timestamp100ns), cstr ",\"timestamp_100ns\":",
          decimal timestamp100ns, cstr ",\"thread_id\":", decimal threadId,
          cstr ",\"module\":", quoted (jsonEscape p.moduleName), cstr ",\"api\":",
          quoted (jsonEscape p.apiName), cstr ",\"hook\":",
          quoted (jsonEscape (p.moduleName ++ cstr "!" ++ p.apiName)),
          cstr ",\"truncated\":", jsonBool (flags &&& traceEventFlagTruncated ≠ 0),
          cstr ",\"field_error\":", jsonBool (flags &&& traceEventFlagFieldError ≠ 0),
          cstr ",\"fields\":\x7b", body, cstr "\x7d\x7d\n"]

/-! ## What the renderers read -/

open ScopeRead.Read

section Bounds

variable {P : Nat → Prop} {mem : Memory} {field : TraceFieldView}

/-- The members of a bytes value, and the bytes it says were captured. -/
theorem within_bytesValue {f : Nat → Nat → Nat → List UInt8 → List UInt8 → List UInt8}
    (htype : TraceFieldType.ofCode field.type = some .bytes)
    (hok : ValueOk field.type (field.valueBytes mem))
    (h : ∀ i, field.value ≤ i → i < field.value + field.valueSize → P i) :
    Within P (do
      let requested ← readWord field.value 4
      let captured ← readWord (field.value + 4) 4
      let captureStatus ← readWord (field.value + 8) 4
      let hex ← readBytes (field.value + sizeofBytesHeader) captured
      let ascii ← readBytes (field.value + sizeofBytesHeader) captured
      pure (f requested captured captureStatus hex ascii)) mem := by
  have h12 : sizeofBytesHeader = 12 := rfl
  rw [ValueOk, htype] at hok
  obtain ⟨-, -, hlen⟩ := hok
  rw [TraceFieldView.valueBytes, slice_length] at hlen
  rw [bytesCaptured_slice mem _ _ (by omega)] at hlen
  refine within_seq (within_readWord mem fun i h1 h2 => h i (by omega) (by omega)) ?_
  refine within_seq (within_readWord mem fun i h1 h2 => h i (by omega) (by omega)) ?_
  refine within_seq (within_readWord mem fun i h1 h2 => h i (by omega) (by omega)) ?_
  simp only [run_readWord]
  refine within_seq (within_readBytes mem fun i h1 h2 => h i (by omega) (by omega)) ?_
  refine within_seq (within_readBytes mem fun i h1 h2 => h i (by omega) (by omega)) ?_
  exact within_pure P _ mem

theorem within_wideToUtf8 (calls : SystemCalls) {value byteSize : Nat}
    (h : ∀ i, value ≤ i → i < value + byteSize → P i) :
    Within P (wideToUtf8 calls value byteSize) mem := by
  refine within_ite (fun _ => within_pure P _ mem) (fun _ => ?_)
  refine within_seq (within_readBytes mem fun i h1 h2 => h i h1 (by omega)) ?_
  exact within_pure P _ mem

/-- A word of the size the type asks for. -/
theorem within_valueWord {β : Type} {n : Nat} {f : Nat → β} (hsize : field.valueSize = n)
    (h : ∀ i, field.value ≤ i → i < field.value + field.valueSize → P i) :
    Within P (do
      let v ← readWord field.value n
      pure (f v)) mem :=
  within_seq (within_readWord mem fun i h1 h2 => h i h1 (hsize ▸ h2)) (within_pure P _ mem)

/-- The size of a value of each type that has only one. -/
def fixedSize : TraceFieldType → Option Nat
  | .pointer | .uint64 | .int64 => some 8
  | .uint32 | .status | .int32 => some 4
  | .boolean => some 1
  | .bytes | .wideString => none

theorem valueSize_of_ok {t : TraceFieldType} {n : Nat}
    (htype : TraceFieldType.ofCode field.type = some t)
    (hok : ValueOk field.type (field.valueBytes mem)) (hn : fixedSize t = some n) :
    field.valueSize = n := by
  have hlen : (field.valueBytes mem).length = n := by
    rw [ValueOk, htype] at hok
    cases t with
    | pointer => exact hok.trans (Option.some.inj hn)
    | uint64 => exact hok.trans (Option.some.inj hn)
    | int64 => exact hok.trans (Option.some.inj hn)
    | uint32 => exact hok.trans (Option.some.inj hn)
    | status => exact hok.trans (Option.some.inj hn)
    | int32 => exact hok.trans (Option.some.inj hn)
    | boolean =>
        rw [← Option.some.inj hn]
        rcases hok with hok | hok <;>
        · rw [hok]
          rfl
    | bytes => cases hn
    | wideString => cases hn
  exact (slice_length mem field.value field.valueSize).symm.trans hlen

section

variable (calls : SystemCalls) (hok : ValueOk field.type (field.valueBytes mem))
  (h : ∀ i, field.value ≤ i → i < field.value + field.valueSize → P i)

include hok h

theorem within_renderTextValue (useColor : Bool) :
    Within P (renderTextValue calls useColor field) mem := by
  unfold renderTextValue
  split
  · rename_i ht
    exact within_valueWord (valueSize_of_ok ht hok rfl) h
  · rename_i ht
    exact within_valueWord (valueSize_of_ok ht hok rfl) h
  · rename_i ht
    exact within_valueWord (valueSize_of_ok ht hok rfl) h
  · rename_i ht
    exact within_valueWord (valueSize_of_ok ht hok rfl) h
  · rename_i ht
    exact within_valueWord (valueSize_of_ok ht hok rfl) h
  · rename_i ht
    have hone := valueSize_of_ok ht hok rfl
    exact within_seq (within_readByte mem (h _ (by omega) (by omega)))
      (within_pure P _ mem)
  · rename_i ht
    exact within_valueWord (valueSize_of_ok ht hok rfl) h
  · exact within_seq (within_wideToUtf8 calls h) (within_pure P _ mem)
  · exact within_seq (within_readBytes mem h) (within_pure P _ mem)

/-- A field is printed from its value. -/
theorem within_renderTextField (labelWidth : Nat) (useColor : Bool) :
    Within P (renderTextField calls labelWidth useColor field) mem := by
  refine within_ite (fun htype => ?_) (fun _ => ?_)
  · refine within_bytesValue ?_ hok h
    rw [htype]
    rfl
  · exact within_seq (within_renderTextValue calls hok h useColor) (within_pure P _ mem)

theorem within_renderJsonField : Within P (renderJsonField calls field) mem := by
  refine within_seq ?_ (within_pure P _ mem)
  unfold renderJsonValue
  split
  · rename_i ht
    exact within_valueWord (valueSize_of_ok ht hok rfl) h
  · rename_i ht
    exact within_valueWord (valueSize_of_ok ht hok rfl) h
  · rename_i ht
    exact within_valueWord (valueSize_of_ok ht hok rfl) h
  · rename_i ht
    exact within_valueWord (valueSize_of_ok ht hok rfl) h
  · rename_i ht
    exact within_valueWord (valueSize_of_ok ht hok rfl) h
  · rename_i ht
    have hone := valueSize_of_ok ht hok rfl
    exact within_seq (within_readByte mem (h _ (by omega) (by omega)))
      (within_pure P _ mem)
  · rename_i ht
    exact within_valueWord (valueSize_of_ok ht hok rfl) h
  · exact within_seq (within_wideToUtf8 calls h) (within_pure P _ mem)
  · rename_i ht
    exact within_bytesValue ht hok h
  · exact within_seq (within_readBytes mem h) (within_pure P _ mem)

end

theorem within_renderEach (separator : List UInt8)
    {render : TraceFieldView → Read (List UInt8)} {fields : List TraceFieldView}
    (h : ∀ v ∈ fields, Within P (render v) mem) (index : Nat) :
    Within P (renderEach separator render index fields) mem := by
  induction fields generalizing index with
  | nil => exact within_pure P _ mem
  | cons v rest ih =>
      refine within_seq (h v List.mem_cons_self) ?_
      refine within_seq (ih (fun w hw => h w (List.mem_cons_of_mem _ hw)) _) ?_
      exact within_pure P _ mem

end Bounds

/-- A field loop over an accepted event stays in its declared bytes. -/
theorem within_renderFields {e : TraceEvent} {n : Nat} {p : ParsedEvent}
    (hp : (parseTraceEvent n).run e.byte = some p) (separator : List UInt8)
    {render : TraceFieldView → Read (List UInt8)}
    (h : ∀ v, ValueOk v.type (v.valueBytes e.byte) →
      (∀ i, v.value ≤ i → i < v.value + v.valueSize → Declared e i) →
      Within (Declared e) (render v) e.byte) :
    Within (Declared e) (renderEach separator render 0 p.fields) e.byte := by
  obtain ⟨hacc, rfl⟩ := (run_parseTraceEvent e n p).mp hp
  refine within_renderEach separator (fun v hv => ?_) 0
  have hok := hacc.fields v hv
  exact h v hok.valueOk fun i _ h2 => Or.inr (Nat.lt_of_lt_of_le h2 hok.fits)

/-- **THE RENDERERS' READS** lie in the header or the declared bytes. -/
theorem within_renderTraceEventText (e : TraceEvent) (calls : SystemCalls)
    (useColor : Bool) :
    Within (Declared e) (renderTraceEventText calls useColor) e.byte := by
  refine within_seq (within_header e (by decide)) ?_
  refine within_seq (within_parseTraceEvent e _) ?_
  cases hp : (parseTraceEvent (readSize.run e.byte)).run e.byte with
  | none => exact within_pure _ _ _
  | some p =>
      refine within_seq (within_header e (by decide)) ?_
      refine within_seq (within_header e (by decide)) ?_
      refine within_seq (within_header e (by decide)) ?_
      refine within_seq (within_header e (by decide)) ?_
      refine within_seq (within_renderFields hp _ fun v hok h =>
        within_renderTextField calls hok h _ useColor) ?_
      exact within_pure _ _ _

theorem within_renderTraceEventJsonl (e : TraceEvent) (calls : SystemCalls) :
    Within (Declared e) (renderTraceEventJsonl calls) e.byte := by
  refine within_seq (within_header e (by decide)) ?_
  refine within_seq (within_parseTraceEvent e _) ?_
  cases hp : (parseTraceEvent (readSize.run e.byte)).run e.byte with
  | none => exact within_pure _ _ _
  | some p =>
      refine within_seq (within_header e (by decide)) ?_
      refine within_seq (within_header e (by decide)) ?_
      refine within_seq (within_header e (by decide)) ?_
      refine within_seq (within_header e (by decide)) ?_
      refine within_seq (within_renderFields hp _ fun v hok h =>
        within_renderJsonField calls hok h) ?_
      exact within_pure _ _ _

end ScopeRenderer
