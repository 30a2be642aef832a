import ApiScope.JsonProofs
import ApiScope.ReadBoundsProofs
import Mathlib.Data.List.TakeWhile

/-! # JSON lines — one event, one line, nothing lost

    `RenderTraceEventJsonl` never builds a JSON value: it streams bytes.  This
    file says which value the bytes are the text of (`eventJson`), so that the
    reader of the JSON library gives that value back, and what a consumer who
    knows the field types of the hook takes out of it (`readEvent`).  The two
    together return the event. -/

namespace ScopeJsonl

open ScopeBytes ScopeRead ScopeRead.Read ScopeProtocol ScopeParser ScopeRenderer
  ScopeGrammar ScopeBounds ScopeJson

/-! ## What an event says -/

/-- The value of a field. -/
inductive FieldValue where
  | pointer (address : Nat)
  | number (n : Int)
  | boolean (b : Bool)
  | status (code : Nat)
  | text (utf8 : List UInt8)
  | bytes (requested captured captureStatus : Nat) (data : List UInt8)
  | unknown (type : Nat) (data : List UInt8)
  deriving DecidableEq

/-- The `captureStatus` member of a bytes value. -/
def bytesStatus (value : List UInt8) : Nat := leNat ((value.drop 8).take 4)

/-- The text of a wide string. -/
def wideText (calls : SystemCalls) (value : List UInt8) : List UInt8 :=
  if value.length < 2 then [] else calls.wideCharToMultiByte (wideOfBytes value)

/-- The value that a type code and the bytes after it stand for. -/
def fieldValue (calls : SystemCalls) (type : Nat) (value : List UInt8) : FieldValue :=
  match TraceFieldType.ofCode type with
  | some .pointer => .pointer (leNat value)
  | some .uint64 | some .uint32 => .number (leNat value)
  | some .int32 => .number (UInt32.ofNat (leNat value)).toInt32.toInt
  | some .int64 => .number (UInt64.ofNat (leNat value)).toInt64.toInt
  | some .boolean => .boolean (value ≠ [0])
  | some .status => .status (leNat value)
  | some .wideString => .text (wideText calls value)
  | some .bytes =>
      .bytes (bytesRequested value) (bytesCaptured value) (bytesStatus value)
        (value.drop sizeofBytesHeader)
  | none => .unknown type value

/-- An event, as far as a line tells it. -/
structure JsonlEvent where
  sequence : Nat
  timestamp100ns : Nat
  threadId : Nat
  moduleName : List UInt8
  apiName : List UInt8
  truncated : Bool
  fieldError : Bool
  fields : List (List UInt8 × FieldValue)
  deriving DecidableEq

def jsonlEventOf (calls : SystemCalls) (e : TraceEvent) : JsonlEvent where
  sequence := e.sequence
  timestamp100ns := e.timestamp100ns
  threadId := e.threadId
  moduleName := moduleNameOf e
  apiName := apiNameOf e
  truncated := e.flags &&& traceEventFlagTruncated ≠ 0
  fieldError := e.flags &&& traceEventFlagFieldError ≠ 0
  fields := (viewsOf e).map fun v => (v.name, fieldValue calls v.type (v.valueBytes e.byte))

/-! ## What a consumer reads -/

def readInt : Json → Option Int
  | .number mantissa exponent =>
      if 0 ≤ exponent then some (mantissa * 10 ^ exponent.toNat) else none
  | _ => none

def readNat (j : Json) : Option Nat := do
  let i ← readInt j
  if 0 ≤ i then some i.toNat else none

def readBoolean : Json → Option Bool
  | .boolean b => some b
  | _ => none

def readText : Json → Option (List UInt8)
  | .string s => some s
  | _ => none

/-- The member of an object. -/
def readMember (j : Json) (key : List UInt8) : Option Json :=
  match j with
  | .object members => Json.lookup members key
  | _ => none

/-- `0x` and hexadecimal digits. -/
def readHexNumber (s : List UInt8) : Option Nat :=
  if s.take 2 = cstr "0x" then ofRadix 16 (s.drop 2) else none

/-- A status, with its name or without. -/
def readStatus (s : List UInt8) : Option Nat :=
  match s.dropWhile (· ≠ byteOf '(') with
  | [] => readHexNumber s
  | _ :: inner => readHexNumber (inner.takeWhile (· ≠ byteOf ')'))

/-- Bytes, two hexadecimal digits each. -/
def readHexBytes : List UInt8 → Option (List UInt8)
  | [] => some []
  | [_] => none
  | high :: low :: rest => do
      let b ← ofRadix 16 [high, low]
      let bs ← readHexBytes rest
      some (UInt8.ofNat b :: bs)

/-- The `hex` member of a nested object. -/
def readHex (j : Json) : Option (List UInt8) := do
  let hex ← readMember j (cstr "hex")
  let s ← readText hex
  readHexBytes s

/-- A value of a known type. -/
def readField (type : Nat) (j : Json) : Option FieldValue :=
  match TraceFieldType.ofCode type with
  | some .pointer => do
      let s ← readText j
      let address ← readHexNumber s
      some (.pointer address)
  | some .uint64 | some .uint32 | some .int32 | some .int64 => do
      let n ← readInt j
      some (.number n)
  | some .boolean => do
      let b ← readBoolean j
      some (.boolean b)
  | some .status => do
      let s ← readText j
      let code ← readStatus s
      some (.status code)
  | some .wideString => do
      let s ← readText j
      some (.text s)
  | some .bytes => do
      let requested ← (readMember j (cstr "requested")).bind readNat
      let captured ← (readMember j (cstr "captured")).bind readNat
      let status ← (readMember j (cstr "status")).bind readText
      let captureStatus ← readStatus status
      let data ← readHex j
      some (.bytes requested captured captureStatus data)
  | none => do
      let kind ← (readMember j (cstr "type")).bind readText
      let code ← if kind.take 8 = cstr "unknown_" then ofRadix 10 (kind.drop 8) else none
      let data ← readHex j
      some (.unknown code data)

/-- The fields in order, each by its type. -/
def readFields : List Nat → List (List UInt8 × Json) →
    Option (List (List UInt8 × FieldValue))
  | [], [] => some []
  | type :: types, (name, j) :: members => do
      let value ← readField type j
      let fields ← readFields types members
      some ((name, value) :: fields)
  | _, _ => none

/-- The members of an object, in order. -/
def readMembers : Json → Option (List (List UInt8 × Json))
  | .object members => some members
  | _ => none

/-- An event, from its line's value and the types of its fields. -/
def readEvent (types : List Nat) (j : Json) : Option JsonlEvent := do
  let sequence ← (readMember j (cstr "sequence")).bind readNat
  let timestamp100ns ← (readMember j (cstr "timestamp_100ns")).bind readNat
  let threadId ← (readMember j (cstr "thread_id")).bind readNat
  let moduleName ← (readMember j (cstr "module")).bind readText
  let apiName ← (readMember j (cstr "api")).bind readText
  let truncated ← (readMember j (cstr "truncated")).bind readBoolean
  let fieldError ← (readMember j (cstr "field_error")).bind readBoolean
  let members ← (readMember j (cstr "fields")).bind readMembers
  let fields ← readFields types members
  some { sequence, timestamp100ns, threadId, moduleName, apiName, truncated, fieldError,
         fields }

/-! ## The value of a line -/

/-- The value that `renderJsonValue` prints. -/
def jsonValue (calls : SystemCalls) (type : Nat) (value : List UInt8) : Json :=
  match TraceFieldType.ofCode type with
  | some .pointer => .string (formatPointer (leNat value))
  | some .uint64 | some .uint32 => .number (leNat value) 0
  | some .int32 => .number (UInt32.ofNat (leNat value)).toInt32.toInt 0
  | some .int64 => .number (UInt64.ofNat (leNat value)).toInt64.toInt 0
  | some .boolean => .boolean (value ≠ [0])
  | some .status => .string (formatStatus (leNat value))
  | some .wideString => .string (wideText calls value)
  | some .bytes =>
      .object
        [(cstr "type", .string (cstr "bytes")),
          (cstr "requested", .number (bytesRequested value) 0),
          (cstr "captured", .number (bytesCaptured value) 0),
          (cstr "status", .string (formatStatus (bytesStatus value))),
          (cstr "hex", .string (hexBytes (value.drop sizeofBytesHeader) false)),
          (cstr "ascii", .string (previewText (value.drop sizeofBytesHeader)))]
  | none =>
      .object
        [(cstr "type", .string (cstr "unknown_" ++ decimal type)),
          (cstr "hex", .string (hexBytes value false))]

def jsonField (calls : SystemCalls) (mem : Memory) (v : TraceFieldView) :
    List UInt8 × Json :=
  (v.name, jsonValue calls v.type (v.valueBytes mem))

/-- The value of the line of an event. -/
def jsonMembers (calls : SystemCalls) (e : TraceEvent) : List (List UInt8 × Json) :=
  [(cstr "schema_version", .number traceJsonSchemaVersion 0),
    (cstr "sequence", .number e.sequence 0),
    (cstr "timestamp", .string (formatTimestamp calls e.timestamp100ns)),
    (cstr "timestamp_100ns", .number e.timestamp100ns 0),
    (cstr "thread_id", .number e.threadId 0),
    (cstr "module", .string (moduleNameOf e)),
    (cstr "api", .string (apiNameOf e)),
    (cstr "hook", .string (moduleNameOf e ++ cstr "!" ++ apiNameOf e)),
    (cstr "truncated", .boolean (e.flags &&& traceEventFlagTruncated ≠ 0)),
    (cstr "field_error", .boolean (e.flags &&& traceEventFlagFieldError ≠ 0)),
    (cstr "fields", .object ((viewsOf e).map (jsonField calls e.byte)))]

/-! ## Texts without escapes -/

/-- ASCII that stands for itself in a JSON string. -/
def PlainText (s : List UInt8) : Prop := ∀ b ∈ s, Plain b ∧ b < 0x80

theorem PlainText.escape_eq {s : List UInt8} (h : PlainText s) : escape s = s :=
  escape_plain fun b hb => (h b hb).1

theorem PlainText.utf8 {s : List UInt8} (h : PlainText s) : isUtf8 s = true :=
  isUtf8_ascii fun b hb => (h b hb).2

/-- ASCII that stands for itself in a JSON string and on a terminal. -/
def SimpleText (s : List UInt8) : Prop := ∀ b ∈ s, Plain b ∧ b < 0x7F

instance (s : List UInt8) : Decidable (SimpleText s) :=
  List.decidableBAll (fun b => Plain b ∧ b < 0x7F) s

theorem SimpleText.plain {s : List UInt8} (h : SimpleText s) : PlainText s := fun b hb =>
  ⟨(h b hb).1, UInt8.lt_trans (h b hb).2 (by decide)⟩

theorem SimpleText.append {s t : List UInt8} (hs : SimpleText s) (ht : SimpleText t) :
    SimpleText (s ++ t) := fun b hb => (List.mem_append.mp hb).elim (hs b) (ht b)

theorem SimpleText.flatten {parts : List (List UInt8)} (h : ∀ s ∈ parts, SimpleText s) :
    SimpleText parts.flatten := fun b hb =>
  let ⟨s, hs, hb⟩ := List.mem_flatten.mp hb
  h s hs b hb

/-- The bytes from the hyphen to the letter `z`, but for the backslash. -/
theorem simple_of_range {c : UInt8} (hlow : 0x2D ≤ c) (hhigh : c ≤ 0x7A) (hne : c ≠ 0x5C) :
    Plain c ∧ c < 0x7F := by
  rw [UInt8.le_iff_toNat_le] at hlow hhigh
  refine ⟨⟨UInt8.le_iff_toNat_le.mpr (Nat.le_trans (by decide) hlow), ?_, hne⟩,
    UInt8.lt_iff_toNat_lt.mpr (Nat.lt_of_le_of_lt hhigh (by decide))⟩
  intro heq
  rw [heq] at hlow
  exact absurd hlow (by decide)

theorem simple_of_between {low high c : UInt8} (hlow : 0x2D ≤ low) (hhigh : high ≤ 0x7A)
    (hne : high < 0x5C ∨ 0x5C < low) (h : (low ≤ c && c ≤ high) = true) :
    Plain c ∧ c < 0x7F := by
  obtain ⟨h1, h2⟩ := Bool.and_eq_true_iff.mp h
  have h1 := of_decide_eq_true h1
  have h2 := of_decide_eq_true h2
  refine simple_of_range (UInt8.le_trans hlow h1) (UInt8.le_trans h2 hhigh) ?_
  rintro rfl
  rcases hne with hne | hne
  · exact absurd h2 (UInt8.not_le.mpr hne)
  · exact absurd h1 (UInt8.not_le.mpr hne)

theorem simple_of_identifierChar {moduleName : Bool} {c : UInt8}
    (h : identifierChar moduleName c = true) : Plain c ∧ c < 0x7F := by
  rw [identifierChar, Bool.or_eq_true, Bool.or_eq_true, Bool.or_eq_true, Bool.or_eq_true,
    Bool.and_eq_true, Bool.or_eq_true, beq_iff_eq, beq_iff_eq, beq_iff_eq] at h
  rcases h with (((hlower | hupper) | hdigit) | rfl) | ⟨-, rfl | rfl⟩
  · exact simple_of_between (by decide) (by decide) (by decide) hlower
  · exact simple_of_between (by decide) (by decide) (by decide) hupper
  · exact simple_of_between (by decide) (by decide) (by decide) hdigit
  · decide
  · decide
  · decide

theorem identifierChar_digit {d : Nat} (h : d < 10) :
    identifierChar false (byteOf d.digitChar) = true := by
  have hall : ∀ d < 10, identifierChar false (byteOf d.digitChar) = true := by decide +kernel
  exact hall d h

theorem identifierChar_upper {d : Nat} (h : d < 16) :
    identifierChar false (byteOf d.digitChar.toUpper) = true := by
  have hall : ∀ d < 16, identifierChar false (byteOf d.digitChar.toUpper) = true := by
    decide +kernel
  exact hall d h

theorem simpleText_decimal (n : Nat) : SimpleText (decimal n) := by
  intro b hb
  obtain ⟨c, hc, rfl⟩ := List.mem_map.mp hb
  obtain ⟨d, hd, rfl⟩ := mem_toDigits (by decide) hc
  exact simple_of_identifierChar (identifierChar_digit hd)

theorem simpleText_upperHex (n : Nat) : SimpleText (upperHex n) := by
  intro b hb
  obtain ⟨c, hc, rfl⟩ := List.mem_map.mp hb
  obtain ⟨d, hd, rfl⟩ := mem_toDigits (by decide) hc
  exact simple_of_identifierChar (identifierChar_upper hd)

theorem simpleText_zeroFill (width : Nat) {digits : List UInt8} (h : SimpleText digits) :
    SimpleText (zeroFill width digits) := by
  refine SimpleText.append (fun b hb => ?_) h
  rw [(List.mem_replicate.mp hb).2]
  decide

theorem simpleText_formatPointer (p : Nat) : SimpleText (formatPointer p) :=
  SimpleText.append (by decide) (simpleText_zeroFill 16 (simpleText_upperHex p))

theorem simpleText_hexStatus (status : Nat) : SimpleText (hexStatus status) :=
  SimpleText.append (by decide) (simpleText_zeroFill 8 (simpleText_upperHex status))

/-- A symbolic name comes from the table. -/
theorem mem_of_statusName {status : Nat} {name : String} (h : statusName status = some name) :
    (status, name) ∈ statusNames := by
  obtain ⟨before, after, heq, -⟩ := List.lookup_eq_some_iff.mp h
  rw [heq]
  exact List.mem_append_right _ List.mem_cons_self

/-- The symbolic names are identifiers. -/
theorem identifierChar_of_statusName {status : Nat} {name : String}
    (h : statusName status = some name) : ∀ b ∈ cstr name, identifierChar false b = true := by
  have hnames : ∀ entry ∈ statusNames, (cstr entry.2).all (identifierChar false) = true := by
    repeat refine List.forall_mem_cons.mpr ⟨cstr_all _ (by decide), ?_⟩
    exact nofun
  exact List.all_eq_true.mp (hnames _ (mem_of_statusName h))

theorem simpleText_formatStatus (status : Nat) : SimpleText (formatStatus status) := by
  unfold formatStatus
  split
  · rename_i name hname
    have hsimple : SimpleText (cstr name) := fun b hb =>
      simple_of_identifierChar (identifierChar_of_statusName hname b hb)
    exact hsimple.append (SimpleText.append (by decide)
      ((simpleText_hexStatus status).append (by decide)))
  · exact simpleText_hexStatus status

theorem simpleText_hexBytesFrom (spaced : Bool) (bytes : List UInt8) (index : Nat) :
    SimpleText (hexBytesFrom spaced index bytes) := by
  induction bytes generalizing index with
  | nil => exact nofun
  | cons b bs ih =>
      have hspace : SimpleText (if spaced && index ≠ 0 then [byteOf ' '] else []) := by
        split
        · decide
        · decide
      exact SimpleText.append (SimpleText.append hspace
        (simpleText_zeroFill 2 (simpleText_upperHex b.toNat))) (ih _)

theorem simpleText_formatTimestamp (calls : SystemCalls) (t : Nat) :
    SimpleText (formatTimestamp calls t) := by
  unfold formatTimestamp
  split
  · decide
  · split
    · decide
    · have hnumber : ∀ width n, SimpleText (zeroFill width (decimal n)) := fun width n =>
        simpleText_zeroFill width (simpleText_decimal n)
      refine SimpleText.flatten ?_
      simp only [List.forall_mem_cons]
      refine ⟨hnumber _ _, ?_, hnumber _ _, ?_, hnumber _ _, ?_, hnumber _ _, ?_,
        hnumber _ _, ?_, hnumber _ _, ?_, hnumber _ _, ?_, nofun⟩ <;>
      decide

theorem simpleText_identifier {moduleName : Bool} {name : List UInt8}
    (h : IdentifierOk moduleName name) : SimpleText name := fun b hb =>
  simple_of_identifierChar (h.2.2 b hb)

theorem identifierChar_of_fieldNameChar {c : UInt8} (h : fieldNameChar c = true) :
    identifierChar false c = true := by
  rw [fieldNameChar, Bool.or_eq_true, Bool.or_eq_true] at h
  rw [identifierChar]
  rcases h with (hlower | hdigit) | hmark
  · rw [hlower]
    rfl
  · rw [hdigit, Bool.or_true, Bool.true_or, Bool.true_or]
  · rw [hmark, Bool.or_true, Bool.true_or]

theorem simpleText_fieldName {name : List UInt8} (h : FieldNameOk name) :
    SimpleText name := by
  cases name with
  | nil => exact h.elim
  | cons first rest =>
      obtain ⟨-, hfirst, hrest⟩ := h
      intro b hb
      rcases List.mem_cons.mp hb with rfl | hb
      · have hletter : fieldNameChar b = true := by
          rw [fieldNameChar, hfirst]
          rfl
        exact simple_of_identifierChar (identifierChar_of_fieldNameChar hletter)
      · exact simple_of_identifierChar (identifierChar_of_fieldNameChar (hrest b hb))

/-! ## Reading the encodings back -/

theorem prints_upper : Prints 16 fun c => byteOf c.toUpper := by
  unfold Prints
  decide

theorem ofRadix_zeroFill (width n : Nat) :
    ofRadix 16 (zeroFill width (upperHex n)) = some n := by
  rw [zeroFill]
  exact (ofRadix_zeros (by decide) _ _).trans (ofRadix_toDigits (by decide) prints_upper n)

theorem readHexNumber_prefix (width n : Nat) :
    readHexNumber (cstr "0x" ++ zeroFill width (upperHex n)) = some n := by
  rw [readHexNumber]
  exact (if_pos rfl).trans (ofRadix_zeroFill width n)

/-- **A POINTER** from its digits. -/
theorem readHexNumber_formatPointer (p : Nat) : readHexNumber (formatPointer p) = some p :=
  readHexNumber_prefix 16 p

theorem hexStatus_ne (status : Nat) :
    ∀ b ∈ hexStatus status, b ≠ byteOf '(' ∧ b ≠ byteOf ')' := by
  have hname : ∀ b, identifierChar false b = true → b ≠ byteOf '(' ∧ b ≠ byteOf ')' := by
    intro b hb
    refine ⟨?_, ?_⟩
    · rintro rfl
      cases hb
    · rintro rfl
      cases hb
  have hprefix : ∀ b ∈ cstr "0x", b ≠ byteOf '(' ∧ b ≠ byteOf ')' :=
    forall_mem_of_all (by decide)
  intro b hb
  rcases List.mem_append.mp hb with hb | hb
  · exact hprefix b hb
  · rcases List.mem_append.mp hb with hb | hb
    · rw [(List.mem_replicate.mp hb).2]
      decide
    · obtain ⟨c, hc, rfl⟩ := List.mem_map.mp hb
      obtain ⟨d, hd, rfl⟩ := mem_toDigits (by decide) hc
      exact hname _ (identifierChar_upper hd)

/-- **A STATUS** from its digits, behind its name or alone. -/
theorem readStatus_formatStatus (status : Nat) :
    readStatus (formatStatus status) = some status := by
  have hhex : readHexNumber (hexStatus status) = some status :=
    readHexNumber_prefix 8 status
  unfold formatStatus
  split
  · rename_i name hname
    have hbefore : ∀ b ∈ cstr name ++ cstr " ", b ≠ byteOf '(' := by
      intro b hb
      rcases List.mem_append.mp hb with hb | hb
      · rintro rfl
        cases identifierChar_of_statusName hname _ hb
      · rw [List.mem_singleton.mp hb]
        decide
    have hdrop : (cstr name ++ (cstr " (" ++ (hexStatus status ++ cstr ")"))).dropWhile
        (fun b => decide (b ≠ byteOf '(')) = byteOf '(' :: (hexStatus status ++ cstr ")") := by
      have hsplit : cstr name ++ (cstr " (" ++ (hexStatus status ++ cstr ")"))
          = (cstr name ++ cstr " ") ++ byteOf '(' :: (hexStatus status ++ cstr ")") := by
        rw [List.append_assoc]
        rfl
      rw [hsplit, List.dropWhile_append_of_pos fun b hb => decide_eq_true (hbefore b hb),
        List.dropWhile_cons_of_neg (by decide)]
    have htake : (hexStatus status ++ cstr ")").takeWhile
        (fun b => decide (b ≠ byteOf ')')) = hexStatus status := by
      rw [List.takeWhile_append_of_pos fun b hb =>
        decide_eq_true (hexStatus_ne status b hb).2]
      exact List.append_nil _
    rw [readStatus, hdrop]
    dsimp only
    rw [htake, hhex]
  · have hdrop : (hexStatus status).dropWhile (fun b => decide (b ≠ byteOf '(')) = [] :=
      List.dropWhile_eq_nil_iff.mpr fun b hb => decide_eq_true (hexStatus_ne status b hb).1
    rw [readStatus, hdrop]
    exact hhex

/-- Two digits a byte. -/
theorem hexByte_length (b : UInt8) : (zeroFill 2 (upperHex b.toNat)).length = 2 := by
  have hlen : (upperHex b.toNat).length ≤ 2 := by
    rw [upperHex, List.length_map]
    exact (Nat.length_toDigits_le_iff (by decide) (by decide)).mpr b.toNat_lt
  rw [zeroFill, List.length_append, List.length_replicate]
  omega

theorem readHexBytes_from (bytes : List UInt8) (index : Nat) :
    readHexBytes (hexBytesFrom false index bytes) = some bytes := by
  induction bytes generalizing index with
  | nil => rfl
  | cons b bs ih =>
      obtain ⟨high, low, hpair⟩ := List.length_eq_two.mp (hexByte_length b)
      have hvalue := ofRadix_zeroFill 2 b.toNat
      rw [hpair] at hvalue
      rw [hexBytesFrom, Bool.false_and, hpair]
      simp only [Bool.false_eq_true, if_false, List.nil_append, List.cons_append]
      rw [readHexBytes, hvalue]
      simp only [Option.bind_eq_bind, Option.bind_some, ih, UInt8.ofNat_toNat]

/-- **BYTES** from their digits. -/
theorem readHexBytes_hexBytes (bytes : List UInt8) :
    readHexBytes (hexBytes bytes false) = some bytes := readHexBytes_from bytes 0

theorem readInt_number (i : Int) : readInt (.number i 0) = some i := by
  rw [readInt, if_pos (Int.le_refl 0)]
  exact congrArg some (Int.mul_one i)

theorem readNat_number (n : Nat) : readNat (.number n 0) = some n := by
  rw [readNat, readInt_number, Option.bind_eq_bind, Option.bind_some,
    if_pos (Int.natCast_nonneg n), Int.toNat_natCast]

theorem readHex_jsonValue {members : List (List UInt8 × Json)} {data : List UInt8}
    (h : Json.lookup members (cstr "hex") = some (.string (hexBytes data false))) :
    readHex (.object members) = some data := by
  rw [readHex, readMember, h]
  exact readHexBytes_hexBytes data

/-- **A FIELD** is read back from its value. -/
theorem readField_jsonValue (calls : SystemCalls) (type : Nat) (value : List UInt8) :
    readField type (jsonValue calls type value) = some (fieldValue calls type value) := by
  unfold readField jsonValue fieldValue
  cases TraceFieldType.ofCode type with
  -- a type without a name: its number stands in the kind, its bytes in hex
  | none =>
      have hcode : ofRadix 10 (decimal type) = some type := ofRadix_printNat type
      have hread : (if (cstr "unknown_" ++ decimal type).take 8 = cstr "unknown_" then
          ofRadix 10 ((cstr "unknown_" ++ decimal type).drop 8) else none) = some type :=
        (if_pos rfl).trans hcode
      dsimp only
      rw [readHex_jsonValue rfl]
      show (Option.some (cstr "unknown_" ++ decimal type)).bind (fun kind =>
        (if kind.take 8 = cstr "unknown_" then ofRadix 10 (kind.drop 8) else none).bind
          fun code => (some value).bind fun data => some (FieldValue.unknown code data)) = _
      rw [Option.bind_some, hread, Option.bind_some, Option.bind_some]
  | some t =>
      cases t with
      | pointer =>
          dsimp only [readText]
          simp only [Option.bind_eq_bind, Option.bind_some]
          rw [readHexNumber_formatPointer]
          rfl
      | uint32 | uint64 | int32 | int64 =>
          dsimp only
          rw [readInt_number]
          rfl
      | status =>
          dsimp only [readText]
          simp only [Option.bind_eq_bind, Option.bind_some]
          rw [readStatus_formatStatus]
          rfl
      | bytes =>
          dsimp only
          rw [readHex_jsonValue rfl]
          show (readNat (.number (bytesRequested value) 0)).bind (fun requested =>
            (readNat (.number (bytesCaptured value) 0)).bind fun captured =>
              (readStatus (formatStatus (bytesStatus value))).bind fun status =>
                (some (value.drop sizeofBytesHeader)).bind fun data =>
                  some (FieldValue.bytes requested captured status data)) = _
          rw [readNat_number, Option.bind_some, readNat_number, Option.bind_some,
            readStatus_formatStatus, Option.bind_some, Option.bind_some]
      | boolean => rfl
      | wideString => rfl

theorem readFields_jsonField (calls : SystemCalls) (mem : Memory)
    (views : List TraceFieldView) :
    readFields (views.map TraceFieldView.type) (views.map (jsonField calls mem))
      = some (views.map fun v => (v.name, fieldValue calls v.type (v.valueBytes mem))) := by
  induction views with
  | nil => rfl
  | cons v views ih =>
      rw [List.map_cons, List.map_cons, List.map_cons, jsonField, readFields,
        readField_jsonValue, ih]
      rfl

/-- The whole line gives the event back. -/
theorem readEvent_jsonMembers (calls : SystemCalls) (e : TraceEvent) :
    readEvent ((viewsOf e).map TraceFieldView.type) (.object (jsonMembers calls e))
      = some (jsonlEventOf calls e) := by
  show (readNat (.number e.sequence 0)).bind (fun sequence =>
    (readNat (.number e.timestamp100ns 0)).bind fun timestamp100ns =>
      (readNat (.number e.threadId 0)).bind fun threadId =>
        (readFields ((viewsOf e).map TraceFieldView.type)
            ((viewsOf e).map (jsonField calls e.byte))).bind fun fields =>
          some { sequence, timestamp100ns, threadId,
                 moduleName := moduleNameOf e, apiName := apiNameOf e,
                 truncated := e.flags &&& traceEventFlagTruncated ≠ 0,
                 fieldError := e.flags &&& traceEventFlagFieldError ≠ 0,
                 fields : JsonlEvent }) = _
  rw [readNat_number, Option.bind_some, readNat_number, Option.bind_some, readNat_number,
    Option.bind_some, readFields_jsonField, Option.bind_some]
  rfl

/-! ## Keys and strings -/

theorem distinctKeys_jsonValue (calls : SystemCalls) (type : Nat) (value : List UInt8) :
    (jsonValue calls type value).DistinctKeys := by
  unfold jsonValue
  cases TraceFieldType.ofCode type with
  | none =>
      exact ⟨by simp only [List.map_cons, List.map_nil]; decide, trivial, trivial, trivial⟩
  | some t =>
      cases t with
      | bytes =>
          exact ⟨by simp only [List.map_cons, List.map_nil]; decide, trivial, trivial,
            trivial, trivial, trivial, trivial, trivial⟩
      | _ => exact trivial

theorem distinctKeysIn_map (calls : SystemCalls) (mem : Memory)
    (views : List TraceFieldView) :
    Json.DistinctKeysIn (views.map (jsonField calls mem)) := by
  induction views with
  | nil => trivial
  | cons v views ih => exact ⟨distinctKeys_jsonValue calls _ _, ih⟩

/-- **NO KEY TWICE**: the fields' names are those the parser compared. -/
theorem distinctKeys_jsonMembers (calls : SystemCalls) {e : TraceEvent} {n : Nat}
    (h : Accepted e n) : (Json.object (jsonMembers calls e)).DistinctKeys := by
  have hnames : ((viewsOf e).map (jsonField calls e.byte)).map Prod.fst
      = (viewsOf e).map TraceFieldView.name := by
    rw [List.map_map]
    rfl
  have hfields : (Json.object ((viewsOf e).map (jsonField calls e.byte))).DistinctKeys := by
    refine ⟨?_, distinctKeysIn_map calls e.byte _⟩
    rw [hnames]
    exact h.distinct
  refine ⟨?_, trivial, trivial, trivial, trivial, trivial, trivial, trivial, trivial,
    trivial, trivial, hfields, trivial⟩
  simp only [jsonMembers, List.map_cons, List.map_nil]
  decide

section Strings

variable {calls : SystemCalls}
  (hcalls : ∀ wide, isUtf8 (calls.wideCharToMultiByte wide) = true)

theorem isUtf8_previewText (bytes : List UInt8) : isUtf8 (previewText bytes) = true := by
  refine isUtf8_ascii fun b hb => ?_
  obtain ⟨c, -, rfl⟩ := List.mem_map.mp hb
  split
  · rename_i h
    exact UInt8.lt_of_le_of_lt h.2 (by decide)
  · decide

include hcalls

theorem isUtf8_wideText (value : List UInt8) : isUtf8 (wideText calls value) = true := by
  unfold wideText
  split
  · rfl
  · exact hcalls _

theorem strings_jsonValue (type : Nat) (value : List UInt8) :
    (jsonValue calls type value).Strings fun s => isUtf8 s = true := by
  unfold jsonValue
  cases TraceFieldType.ofCode type with
  | none =>
      exact ⟨rfl, (SimpleText.append (by decide) (simpleText_decimal type)).plain.utf8, rfl,
        (simpleText_hexBytesFrom false _ 0).plain.utf8, trivial⟩
  | some t =>
      cases t with
      | pointer => exact (simpleText_formatPointer _).plain.utf8
      | status => exact (simpleText_formatStatus _).plain.utf8
      | wideString => exact isUtf8_wideText hcalls value
      | bytes =>
          exact ⟨rfl, rfl, rfl, trivial, rfl, trivial, rfl, (simpleText_formatStatus _).plain.utf8,
            rfl, (simpleText_hexBytesFrom false _ 0).plain.utf8, rfl, isUtf8_previewText _, trivial⟩
      | _ => exact trivial

theorem strings_fields {views : List TraceFieldView} (mem : Memory)
    (h : ∀ v ∈ views, FieldNameOk v.name) :
    Json.StringsIn (fun s => isUtf8 s = true) (views.map (jsonField calls mem)) := by
  induction views with
  | nil => trivial
  | cons v views ih =>
      exact ⟨(simpleText_fieldName (h v List.mem_cons_self)).plain.utf8,
        strings_jsonValue hcalls _ _, ih fun w hw => h w (List.mem_cons_of_mem _ hw)⟩

theorem strings_jsonMembers {e : TraceEvent} {n : Nat} (h : Accepted e n) :
    (Json.object (jsonMembers calls e)).Strings fun s => isUtf8 s = true := by
  have hmodule := simpleText_identifier h.moduleName
  have hapi := simpleText_identifier h.apiName
  have hhook : SimpleText (moduleNameOf e ++ cstr "!" ++ apiNameOf e) :=
    (hmodule.append (by decide)).append hapi
  have hfields := strings_fields hcalls e.byte fun v hv => (h.fields v hv).nameOk
  exact ⟨rfl, trivial, rfl, trivial, rfl, (simpleText_formatTimestamp calls _).plain.utf8, rfl,
    trivial, rfl, trivial, rfl, hmodule.plain.utf8, rfl, hapi.plain.utf8, rfl, hhook.plain.utf8, rfl, trivial,
    rfl, trivial, rfl, hfields, trivial⟩

end Strings

/-! ## The bytes of a line -/

/-- The escape of the renderer is the printer's. -/
theorem escapeByte_eq (b : UInt8) : ScopeRenderer.escapeByte b = ScopeJson.escapeByte b := by
  by_cases hb : b < 0x20
  · have hall : ∀ n < 32, ScopeRenderer.escapeByte (UInt8.ofNat n)
        = ScopeJson.escapeByte (UInt8.ofNat n) := by decide
    have h := hall b.toNat (UInt8.lt_iff_toNat_lt.mp hb)
    rwa [UInt8.ofNat_toNat] at h
  · rw [ScopeRenderer.escapeByte, ScopeJson.escapeByte, if_neg hb, if_neg hb]
    rfl

theorem jsonEscape_eq (s : List UInt8) : jsonEscape s = escape s :=
  congrArg (fun f => s.flatMap f) (funext escapeByte_eq)

theorem quoted_jsonEscape (s : List UInt8) :
    quoted (jsonEscape s) = (Json.string s).print := by
  rw [jsonEscape_eq]
  rfl

/-- A text that needs no escape is printed as a string. -/
theorem quoted_plain {s : List UInt8} (h : SimpleText s) :
    quoted s = (Json.string s).print := by
  rw [Json.print, printString, h.plain.escape_eq]
  rfl

theorem signedDecimal_eq (i : Int) : signedDecimal i = (Json.number i 0).print :=
  (List.append_nil (printInt i)).symm

theorem decimal_eq (n : Nat) : decimal n = (Json.number n 0).print :=
  (List.append_nil (printInt n)).symm

theorem jsonBool_eq (b : Bool) : jsonBool b = (Json.boolean b).print := by
  cases b <;> rfl

theorem word_of_slice {mem : Memory} {v : TraceFieldView} {n : Nat}
    (hsize : v.valueSize = n) : word mem v.value n = leNat (v.valueBytes mem) := by
  rw [TraceFieldView.valueBytes, hsize, word]

theorem quoted_hexBytes (bytes : List UInt8) :
    quoted (hexBytes bytes false) = (Json.string (hexBytes bytes false)).print :=
  quoted_plain (simpleText_hexBytesFrom false bytes 0)

/-- What the renderer prints for the bytes of a buffer. -/
theorem run_renderBytes {mem : Memory} {v : TraceFieldView} (calls : SystemCalls)
    (htype : TraceFieldType.ofCode v.type = some .bytes)
    (hok : ValueOk v.type (v.valueBytes mem)) :
    (renderJsonValue calls v).run mem = (jsonValue calls v.type (v.valueBytes mem)).print := by
  have h12 : sizeofBytesHeader = 12 := rfl
  rw [ValueOk, htype] at hok
  obtain ⟨-, -, hlen⟩ := hok
  rw [TraceFieldView.valueBytes, slice_length] at hlen
  have hrequested := bytesRequested_slice mem v.value v.valueSize (by omega)
  have hcaptured := bytesCaptured_slice mem v.value v.valueSize (by omega)
  have hstatus : bytesStatus (slice mem v.value v.valueSize) = word mem (v.value + 8) 4 := by
    rw [bytesStatus, slice_drop _ _ _ 8 (by omega), slice_take _ _ _ 4 (by omega), word]
  have hdata : (slice mem v.value v.valueSize).drop sizeofBytesHeader
      = slice mem (v.value + sizeofBytesHeader) (word mem (v.value + 4) 4) := by
    rw [slice_drop _ _ _ _ (by omega), ← hcaptured]
    exact congrArg _ (by omega)
  simp only [renderJsonValue, htype, run_bind, run_readWord, run_readBytes, run_pure,
    jsonValue, TraceFieldView.valueBytes, hrequested, hcaptured, hstatus, hdata, decimal_eq,
    quoted_jsonEscape, quoted_plain (simpleText_formatStatus _), quoted_hexBytes]
  simp only [List.flatten_cons, List.flatten_nil, Json.print, Json.printMembers]
  rfl

theorem run_wideToUtf8 (calls : SystemCalls) (mem : Memory) (value size : Nat)
    (heven : size % 2 = 0) :
    (wideToUtf8 calls value size).run mem = wideText calls (slice mem value size) := by
  have hsize : size / 2 * 2 = size := by omega
  rw [wideToUtf8, wideText, run_ite, slice_length]
  simp only [run_bind, run_readBytes, run_pure, hsize]

/-- **ONE VALUE**: the renderer prints the JSON value of the field. -/
theorem run_renderJsonValue (calls : SystemCalls) {mem : Memory} {v : TraceFieldView}
    (hok : ValueOk v.type (v.valueBytes mem)) :
    (renderJsonValue calls v).run mem
      = (jsonValue calls v.type (v.valueBytes mem)).print := by
  cases htype : TraceFieldType.ofCode v.type with
  | none =>
      have hkind : SimpleText (cstr "unknown_" ++ decimal v.type) :=
        SimpleText.append (by decide) (simpleText_decimal v.type)
      have hstring : printString (cstr "unknown_" ++ decimal v.type)
          = quotationMark :: (cstr "unknown_" ++ (decimal v.type ++ [quotationMark])) := by
        rw [printString, hkind.plain.escape_eq, List.append_assoc]
      simp only [renderJsonValue, htype, run_bind, run_readBytes, run_pure, jsonValue,
        TraceFieldView.valueBytes, quoted_hexBytes, List.flatten_cons, List.flatten_nil,
        Json.print, Json.printMembers, hstring, List.append_assoc, List.cons_append]
      rfl
  | some t =>
      cases t with
      | pointer =>
          have hsize := valueSize_of_ok htype hok rfl
          simp only [renderJsonValue, htype, run_bind, run_readWord, run_pure, jsonValue,
            word_of_slice hsize, quoted_plain (simpleText_formatPointer _)]
      | uint64 | uint32 =>
          have hsize := valueSize_of_ok htype hok rfl
          simp only [renderJsonValue, htype, run_bind, run_readWord, run_pure, jsonValue,
            word_of_slice hsize, decimal_eq]
      | int32 | int64 =>
          have hsize := valueSize_of_ok htype hok rfl
          simp only [renderJsonValue, htype, run_bind, run_readWord, run_pure, jsonValue,
            word_of_slice hsize, signedDecimal_eq]
      | status =>
          have hsize := valueSize_of_ok htype hok rfl
          simp only [renderJsonValue, htype, run_bind, run_readWord, run_pure, jsonValue,
            word_of_slice hsize, quoted_plain (simpleText_formatStatus _)]
      | boolean =>
          have hsize := valueSize_of_ok htype hok rfl
          have hbyte : v.valueBytes mem = [mem v.value] := by
            rw [TraceFieldView.valueBytes, hsize, slice_one]
          have hzero : ([mem v.value] ≠ [0]) ↔ mem v.value ≠ 0 := by
            rw [ne_eq, List.singleton_inj]
          simp only [renderJsonValue, htype, run_bind, run_readByte, run_pure, jsonValue,
            hbyte, jsonBool_eq, hzero]
      | wideString =>
          have heven : v.valueSize % 2 = 0 := by
            rw [ValueOk, htype, TraceFieldView.valueBytes, slice_length] at hok
            exact hok.1
          simp only [renderJsonValue, htype, run_bind, run_pure, jsonValue,
            run_wideToUtf8 calls mem v.value v.valueSize heven, quoted_jsonEscape,
            TraceFieldView.valueBytes]
      | bytes => exact run_renderBytes calls htype hok

theorem run_renderJsonField (calls : SystemCalls) {mem : Memory} {v : TraceFieldView}
    {last : Nat} (hok : v.Ok mem last) :
    (renderJsonField calls v).run mem
      = printString (jsonField calls mem v).1
        ++ nameSeparator :: (jsonField calls mem v).2.print := by
  have hname := quoted_plain (simpleText_fieldName hok.nameOk)
  simp only [renderJsonField, run_bind, run_pure, run_renderJsonValue calls hok.valueOk,
    hname, Json.print, jsonField, List.append_assoc]
  rfl

/-- The fields after the first. -/
theorem run_renderEach_succ (calls : SystemCalls) {mem : Memory} {last : Nat}
    {views : List TraceFieldView} (hok : ∀ v ∈ views, v.Ok mem last) (index : Nat) :
    (renderEach (cstr ",") (renderJsonField calls) (index + 1) views).run mem ++ [endObject]
      = Json.printMembers (views.map (jsonField calls mem)) := by
  induction views generalizing index with
  | nil => rfl
  | cons v views ih =>
      have hrest := ih (fun w hw => hok w (List.mem_cons_of_mem _ hw)) (index + 1)
      simp only [renderEach, run_bind, run_pure,
        run_renderJsonField calls (hok v List.mem_cons_self), List.append_assoc]
      rw [hrest]
      rfl

/-- **THE FIELDS** are the members of an object. -/
theorem run_renderEach (calls : SystemCalls) {mem : Memory} {last : Nat}
    {views : List TraceFieldView} (hok : ∀ v ∈ views, v.Ok mem last) :
    beginObject :: ((renderEach (cstr ",") (renderJsonField calls) 0 views).run mem
        ++ [endObject])
      = (Json.object (views.map (jsonField calls mem))).print := by
  cases views with
  | nil => rfl
  | cons v views =>
      have hrest := run_renderEach_succ calls (fun w hw => hok w (List.mem_cons_of_mem _ hw)) 0
      simp only [renderEach, run_bind, run_pure,
        run_renderJsonField calls (hok v List.mem_cons_self), List.append_assoc]
      rw [hrest]
      rfl

def newline : UInt8 := byteOf '\n'

/-- **ONE LINE**: an accepted event is printed as the text of its value. -/
theorem run_renderTraceEventJsonl (calls : SystemCalls) {e : TraceEvent}
    (h : Accepted e e.size) :
    (renderTraceEventJsonl calls).run e.byte
      = (Json.object (jsonMembers calls e)).print ++ [newline] := by
  have hparse := (run_parseTraceEvent e e.size _).mpr ⟨h, rfl⟩
  have hbody := run_renderEach calls h.fields
  rw [renderTraceEventJsonl, run_bind, run_readSize, run_bind, hparse]
  simp only [run_bind, run_readSequence, run_readTimestamp100ns, run_readThreadId,
    run_readFlags, run_pure, quoted_jsonEscape, decimal_eq, jsonBool_eq,
    quoted_plain (simpleText_formatTimestamp calls _), List.flatten_cons,
    List.flatten_nil, jsonMembers, Json.print, Json.printMembers, ← hbody]
  simp only [List.append_assoc, List.cons_append]
  rfl

theorem run_renderTraceEventJsonl_rejected (calls : SystemCalls) {e : TraceEvent}
    (h : isValidReceived.run e.byte = false) :
    (renderTraceEventJsonl calls).run e.byte = [] := by
  rw [run_isValidReceived, Option.isSome_eq_false_iff, Option.isNone_iff_eq_none] at h
  rw [renderTraceEventJsonl, run_bind, run_readSize, run_bind, h]
  rfl

/-- **JSON LINES ARE LOSSLESS**: where the conversion to UTF-8 gives UTF-8, an
    accepted event is one line that reads as an object without a repeated key
    and gives the event back; a rejected event leaves no byte. -/
theorem renderTraceEventJsonl_lossless (calls : SystemCalls)
    (hcalls : ∀ wide, isUtf8 (calls.wideCharToMultiByte wide) = true) (e : TraceEvent) :
    (isValidReceived.run e.byte = true → ∃ line members,
      (renderTraceEventJsonl calls).run e.byte = line ++ [newline] ∧ newline ∉ line ∧
        parse line = some (.object members) ∧ (Json.object members).DistinctKeys ∧
        readEvent ((viewsOf e).map TraceFieldView.type) (.object members)
          = some (jsonlEventOf calls e)) ∧
    (isValidReceived.run e.byte = false → (renderTraceEventJsonl calls).run e.byte = []) := by
  refine ⟨fun hvalid => ?_, run_renderTraceEventJsonl_rejected calls⟩
  have hacc := accepted_of_valid hvalid
  have hstrings := strings_jsonMembers hcalls hacc
  refine ⟨(Json.object (jsonMembers calls e)).print, jsonMembers calls e,
    run_renderTraceEventJsonl calls hacc, ?_, parse_print hstrings,
    distinctKeys_jsonMembers calls hacc, readEvent_jsonMembers calls e⟩
  intro hmem
  exact absurd (print_no_control hstrings newline hmem) (by decide)

/-- The conversion on ASCII; any other unit becomes U+FFFD. -/
def asciiCalls : SystemCalls where
  wideCharToMultiByte wide :=
    wide.flatMap fun c => if c < 0x80 then [c.toUInt8] else [0xEF, 0xBF, 0xBD]
  fileTimeToSystemTime _ := none

theorem isUtf8_asciiCalls (wide : List UInt16) :
    isUtf8 (asciiCalls.wideCharToMultiByte wide) = true := by
  have hall : ∀ n < 256, n < 0x80 → UInt8.ofNat n < 0x80 := by decide +kernel
  induction wide with
  | nil => rfl
  | cons c wide ih =>
      refine isUtf8_append (s := if c < 0x80 then [c.toUInt8] else [0xEF, 0xBF, 0xBD]) ?_ ih
      split
      · rename_i hc
        have hlt : c.toNat < 0x80 := UInt16.lt_iff_toNat_lt.mp hc
        refine isUtf8_ascii fun b hb => ?_
        rw [List.mem_singleton.mp hb, ← UInt8.ofNat_uInt16ToNat]
        exact hall c.toNat (by omega) hlt
      · decide

/-- A path that needs three escapes: a quotation mark, a backslash, a newline. -/
def quotedRecord : TraceRecord :=
  { flags := 1, sequence := 7, timestamp100ns := 9, threadId := 3, reserved := 0
    moduleName := cstr "ntdll.dll", apiName := cstr "NtOpenFile"
    fields := [⟨9, cstr "path", [0x22, 0, 0x5C, 0, 0x0A, 0]⟩, ⟨200, cstr "extra", [0xFF]⟩] }

theorem wellFormed_quotedRecord : quotedRecord.WellFormed := by
  refine ⟨?_, ?_, ?_, by decide +kernel, by decide +kernel⟩
  · show IdentifierOk true (cstr "ntdll.dll")
    unfold IdentifierOk
    decide +kernel
  · show IdentifierOk false (cstr "NtOpenFile")
    unfold IdentifierOk
    decide +kernel
  · intro f hf
    rcases List.mem_cons.mp hf with rfl | hf
    · exact ⟨by decide +kernel, show _ % 2 = 0 ∧ _ ≤ _ by decide⟩
    · rw [List.mem_singleton.mp hf]
      exact ⟨by decide +kernel, trivial⟩

theorem renderTraceEventJsonl_lossless_quoted : ∃ line members,
    (renderTraceEventJsonl asciiCalls).run quotedRecord.event.byte = line ++ [newline] ∧
      newline ∉ line ∧ parse line = some (.object members) ∧
      (Json.object members).DistinctKeys ∧
      readEvent ((viewsOf quotedRecord.event).map TraceFieldView.type) (.object members)
        = some (jsonlEventOf asciiCalls quotedRecord.event) :=
  (renderTraceEventJsonl_lossless asciiCalls isUtf8_asciiCalls quotedRecord.event).1
    (valid_of_represents wellFormed_quotedRecord.represents)

end ScopeJsonl
