import ApiScope.TraceTransportProofs

/-! # The round trip — what the target builds, the controller reads

    A run of `AddTrace*` calls on an initialised event, in any order, with any
    arguments and any outcome of the guarded self-reads.  Every call is one
    append, or two for `AddTraceObjectPath` (`run_appends`); every append
    adds its field to what the event represents or sets a flag.  The parser
    then returns the names and the accepted fields in call order. -/

namespace ScopeTransport

open ScopeBytes ScopeRead ScopeProtocol ScopeParser ScopeGrammar

/-! ## Calls and their appends -/

/-- One append: the field, and whether its string was cut to the limit before
    (which sets the truncation flag first). -/
structure Append where
  cut : Bool
  type : TraceFieldType
  name : CharPtr
  value : List UInt8
  valueSize : Nat

namespace Append

def run (x : Append) (e : TraceEvent) : TraceEvent × Bool :=
  appendTraceField (if x.cut then e.orFlags traceEventFlagTruncated else e) x.type x.name
    (some x.value) x.valueSize

/-- The field the append is about. -/
def field (x : Append) : TraceField :=
  fieldOf x.type (cValue (x.name.getD [])) (bytesAt x.value x.valueSize)

/-- The name is admissible and new among the fields, and an event of that size
    has room for the field. -/
def Fits (x : Append) (fs : List TraceField) (size : Nat) : Prop :=
  ∃ s, x.name = some s ∧ FieldNameOk (cValue s) ∧ cValue s ∉ fs.map TraceField.name ∧
    size + (sizeofFieldHeader + (cValue s).length + x.valueSize) ≤ traceMaxEventBytes

/-- The value the caller passes fits its type. -/
structure Ok (x : Append) : Prop where
  valueOk : ValueOk x.type.code (bytesAt x.value x.valueSize)

end Append

/-- A call of one of the `AddTrace*` functions. -/
inductive AddCall where
  | pointer (name : CharPtr) (value : UInt64)
  | uint32 (name : CharPtr) (value : UInt32)
  | uint64 (name : CharPtr) (value : UInt64)
  | int32 (name : CharPtr) (value : Int32)
  | int64 (name : CharPtr) (value : Int64)
  | boolean (name : CharPtr) (value : Bool)
  | status (name : CharPtr) (value : UInt32)
  | bufferPreview (name : CharPtr) (bypass : Option ReadOutcome) (buffer : UInt64)
      (length : UInt32)
  | wideString (name : CharPtr) (value : Option (List UInt16)) (charCount : Nat)
  | unicodeString (name : CharPtr) (readHeader readBuffer : Option ReadOutcome)
      (unicodeString : UInt64)
  | objectPath (name : CharPtr) (readAttributes readHeader readBuffer : Option ReadOutcome)
      (objectAttributes : UInt64)

/-- The append of `AddTraceWideString`, after a cut or not. -/
def wideAppend (cut : Bool) (name : CharPtr) (value : Option (List UInt16))
    (charCount : Nat) : Append :=
  match value with
  | none => ⟨cut, .wideString, name, wideBytes [0], 0⟩
  | some chars =>
      if traceMaxStringBytes / 2 < charCount then
        ⟨true, .wideString, name, wideBytes chars, traceMaxStringBytes / 2 * 2 % 65536⟩
      else ⟨cut, .wideString, name, wideBytes chars, charCount * 2 % 65536⟩

/-- The append of `AddTraceUnicodeString`. -/
def unicodeAppend (name : CharPtr) (readHeader readBuffer : Option ReadOutcome)
    (unicodeString : UInt64) : Append :=
  let r := safeReadSelf readHeader unicodeString 16
  if unicodeString = 0 ∨ ntSuccess r.1 = false then wideAppend false name none 0
  else
    let length := word r.2 0 2 - word r.2 0 2 % 2
    let buffer := UInt64.ofNat (word r.2 8 8)
    let long := decide (traceMaxStringBytes < length)
    let byteLength := if traceMaxStringBytes < length then traceMaxStringBytes else length
    let r := safeReadSelf readBuffer buffer byteLength
    if buffer = 0 ∨ byteLength = 0 ∨ ntSuccess r.1 = false then
      wideAppend long name none 0
    else
      wideAppend long name (some (wideChars r.2 (byteLength / 2))) (byteLength / 2)

namespace AddCall

def run : AddCall → TraceEvent → TraceEvent × Bool
  | pointer name v, e => addTracePointer e name v
  | uint32 name v, e => addTraceUInt32 e name v
  | uint64 name v, e => addTraceUInt64 e name v
  | int32 name v, e => addTraceInt32 e name v
  | int64 name v, e => addTraceInt64 e name v
  | boolean name v, e => addTraceBoolean e name v
  | status name v, e => addTraceStatus e name v
  | bufferPreview name bypass buffer length, e =>
      addTraceBufferPreview e name bypass buffer length
  | wideString name value charCount, e => addTraceWideString e name value charCount
  | unicodeString name r₁ r₂ p, e => addTraceUnicodeString e name r₁ r₂ p
  | objectPath name r₁ r₂ r₃ p, e => addTraceObjectPath e name r₁ r₂ r₃ p

/-- The appends a call makes, in order. -/
def appends : AddCall → List Append
  | pointer name v => [⟨false, .pointer, name, leBytes 8 v.toNat, 8⟩]
  | uint32 name v => [⟨false, .uint32, name, leBytes 4 v.toNat, 4⟩]
  | uint64 name v => [⟨false, .uint64, name, leBytes 8 v.toNat, 8⟩]
  | int32 name v => [⟨false, .int32, name, leBytes 4 v.toUInt32.toNat, 4⟩]
  | int64 name v => [⟨false, .int64, name, leBytes 8 v.toUInt64.toNat, 8⟩]
  | boolean name v => [⟨false, .boolean, name, [if v then 1 else 0], 1⟩]
  | status name v => [⟨false, .status, name, leBytes 4 v.toNat, 4⟩]
  | bufferPreview name bypass buffer length =>
      let preview := captureTraceBuffer bypass buffer length
      [⟨false, .bytes, name, preview.encode,
        (sizeofBytesHeader + preview.captured.toNat) % 65536⟩]
  | wideString name value charCount => [wideAppend false name value charCount]
  | unicodeString name r₁ r₂ p => [unicodeAppend name r₁ r₂ p]
  | objectPath name r₁ r₂ r₃ p =>
      let r := safeReadSelf r₁ p 48
      if p = 0 ∨ ntSuccess r.1 = false then [wideAppend false name none 0]
      else
        let rootDirectory := UInt64.ofNat (word r.2 8 8)
        let path := unicodeAppend name r₂ r₃ (UInt64.ofNat (word r.2 16 8))
        if rootDirectory ≠ 0 then
          [⟨false, .pointer, some (cstr "root_directory"),
            leBytes 8 rootDirectory.toNat, 8⟩, path]
        else [path]

end AddCall

/-- One append of a run: the event before and after, and the result. -/
structure Step where
  append : Append
  before : TraceEvent
  after : TraceEvent
  ok : Bool

/-- Make appends one after the other. -/
def addAll (e : TraceEvent) : List Append → TraceEvent × List Step
  | [] => (e, [])
  | x :: xs =>
      let (e', ok) := x.run e
      let (last, steps) := addAll e' xs
      (last, ⟨x, e, e', ok⟩ :: steps)

/-- Make calls one after the other, with a log of their appends. -/
def runCalls (e : TraceEvent) : List AddCall → TraceEvent × List Step
  | [] => (e, [])
  | c :: cs =>
      let (last, steps) := runCalls (c.run e).1 cs
      (last, (addAll e c.appends).2 ++ steps)

theorem addAll_nil (e : TraceEvent) : addAll e [] = (e, []) := by
  rw [addAll]

theorem addAll_cons_fst (e : TraceEvent) (x : Append) (xs : List Append) :
    (addAll e (x :: xs)).1 = (addAll (x.run e).1 xs).1 := by
  dsimp only [addAll]

theorem addAll_cons_snd (e : TraceEvent) (x : Append) (xs : List Append) :
    (addAll e (x :: xs)).2
      = ⟨x, e, (x.run e).1, (x.run e).2⟩ :: (addAll (x.run e).1 xs).2 := by
  dsimp only [addAll]

/-- One append: its event and its result. -/
theorem addAll_single (e : TraceEvent) (x : Append) :
    (x.run e).1 = (addAll e [x]).1 ∧
      (addAll e [x]).2.getLast?.map Step.ok = some (x.run e).2 := by
  rw [addAll_cons_fst, addAll_cons_snd, addAll_nil, List.getLast?_singleton, Option.map_some]
  trivial

/-- Two appends: the event and the result of the second. -/
theorem addAll_pair (e : TraceEvent) (x y : Append) :
    (y.run (x.run e).1).1 = (addAll e [x, y]).1 ∧
      (addAll e [x, y]).2.getLast?.map Step.ok = some (y.run (x.run e).1).2 := by
  have hlast := addAll_single (x.run e).1 y
  rw [addAll_cons_snd] at hlast
  rw [addAll_cons_fst, addAll_cons_snd, addAll_cons_snd, List.getLast?_cons_cons]
  exact hlast

theorem wideAppend_run (cut : Bool) (name : CharPtr) (value : Option (List UInt16))
    (charCount : Nat) (e : TraceEvent) (hcut : cut = true → charCount ≤ 256) :
    (wideAppend cut name value charCount).run e
      = addTraceWideString (if cut then e.orFlags traceEventFlagTruncated else e) name
        value charCount := by
  have h256 : traceMaxStringBytes / 2 = 256 := rfl
  cases value with
  | none =>
      rw [wideAppend, addTraceWideString, Append.run]
      rfl
  | some chars =>
      rw [wideAppend, addTraceWideString]
      by_cases hlong : traceMaxStringBytes / 2 < charCount
      · rw [if_pos hlong, if_pos hlong]
        cases cut with
        | true => exact absurd (hcut rfl) (by omega)
        | false => rfl
      · rw [if_neg hlong, if_neg hlong]
        rfl

theorem unicodeAppend_run (name : CharPtr) (readHeader readBuffer : Option ReadOutcome)
    (unicodeString : UInt64) (e : TraceEvent) :
    (unicodeAppend name readHeader readBuffer unicodeString).run e
      = addTraceUnicodeString e name readHeader readBuffer unicodeString := by
  have h512 : traceMaxStringBytes = 512 := rfl
  unfold unicodeAppend addTraceUnicodeString
  generalize safeReadSelf readHeader unicodeString 16 = r₁
  obtain ⟨status, header⟩ := r₁
  dsimp only
  by_cases hread : unicodeString = 0 ∨ ntSuccess status = false
  · rw [if_pos hread, if_pos hread]
    exact wideAppend_run false name none 0 e (fun _ => by omega)
  · rw [if_neg hread, if_neg hread]
    generalize word header 0 2 - word header 0 2 % 2 = length
    generalize UInt64.ofNat (word header 8 8) = buffer
    by_cases hlong : traceMaxStringBytes < length
    · simp only [if_pos hlong, decide_eq_true hlong]
      generalize safeReadSelf readBuffer buffer traceMaxStringBytes = r₂
      obtain ⟨status', bytes⟩ := r₂
      dsimp only
      split
      · exact wideAppend_run true name none 0 e (fun _ => by omega)
      · exact wideAppend_run true name _ _ e (fun _ => by omega)
    · simp only [if_neg hlong, decide_eq_false hlong]
      generalize safeReadSelf readBuffer buffer length = r₂
      obtain ⟨status', bytes⟩ := r₂
      dsimp only
      split
      · exact wideAppend_run false name none 0 e (fun h => nomatch h)
      · exact wideAppend_run false name _ _ e (fun h => nomatch h)

/-- **CALLS ARE APPENDS**: a call makes its appends in order and returns the
    result of the last. -/
theorem run_appends (c : AddCall) (e : TraceEvent) :
    (c.run e).1 = (addAll e c.appends).1 ∧
      ((addAll e c.appends).2.getLast?.map Step.ok) = some (c.run e).2 := by
  have single : ∀ x : Append, c.appends = [x] → c.run e = x.run e →
      (c.run e).1 = (addAll e c.appends).1 ∧
        ((addAll e c.appends).2.getLast?.map Step.ok) = some (c.run e).2 := by
    intro x happ hrun
    rw [hrun, happ]
    exact addAll_single e x
  cases c with
  | pointer name v => exact single _ rfl rfl
  | uint32 name v => exact single _ rfl rfl
  | uint64 name v => exact single _ rfl rfl
  | int32 name v => exact single _ rfl rfl
  | int64 name v => exact single _ rfl rfl
  | boolean name v => exact single _ rfl rfl
  | status name v => exact single _ rfl rfl
  | bufferPreview name bypass buffer length => exact single _ rfl rfl
  | wideString name value charCount =>
      exact single _ rfl (wideAppend_run false name value charCount e
        (fun h => nomatch h)).symm
  | unicodeString name r₁ r₂ p =>
      exact single _ rfl (unicodeAppend_run name r₁ r₂ p e).symm
  | objectPath name r₁ r₂ r₃ p =>
      rw [AddCall.run, AddCall.appends, addTraceObjectPath]
      generalize safeReadSelf r₁ p 48 = r
      obtain ⟨status, header⟩ := r
      dsimp only
      by_cases hread : p = 0 ∨ ntSuccess status = false
      · have hwide := wideAppend_run false name none 0 e (fun h => nomatch h)
        rw [if_neg Bool.false_ne_true] at hwide
        rw [if_pos hread, if_pos hread, ← hwide]
        exact addAll_single e _
      · rw [if_neg hread, if_neg hread]
        have hpath := unicodeAppend_run name r₂ r₃ (UInt64.ofNat (word header 16 8))
        by_cases hroot : UInt64.ofNat (word header 8 8) ≠ 0
        · have hpointer : ∀ v, Append.run ⟨false, .pointer, some (cstr "root_directory"),
              leBytes 8 v, 8⟩ e = appendTraceField e .pointer
                (some (cstr "root_directory")) (some (leBytes 8 v)) 8 := fun _ => rfl
          rw [if_pos hroot, if_pos hroot, addTracePointer, ← hpointer, ← hpath]
          exact addAll_pair e _ _
        · rw [if_neg hroot, if_neg hroot, ← hpath]
          exact addAll_single e _

/-- A log has the appends of its run, in order. -/
theorem addAll_appends (xs : List Append) (e : TraceEvent) :
    (addAll e xs).2.map Step.append = xs := by
  induction xs generalizing e with
  | nil => rfl
  | cons x xs ih => rw [addAll_cons_snd, List.map_cons, ih]

theorem runCalls_appends (calls : List AddCall) (e : TraceEvent) :
    (runCalls e calls).2.map Step.append = calls.flatMap AddCall.appends := by
  induction calls generalizing e with
  | nil => rfl
  | cons c cs ih =>
      show ((addAll e c.appends).2 ++ (runCalls (c.run e).1 cs).2).map Step.append = _
      rw [List.map_append, addAll_appends, ih, List.flatMap_cons]

/-! ## Every call passes values that fit -/

/-- A run of bytes cut inside what there is. -/
theorem bytesAt_take {value : List UInt8} {size : Nat} (h : size ≤ value.length) :
    bytesAt value size = value.take size := by
  refine List.ext_getElem ?_ ?_
  · rw [bytesAt_length, List.length_take, Nat.min_eq_left h]
  · intro i h1 h2
    rw [bytesAt_length] at h1
    have hi : i < value.length := by omega
    simp only [bytesAt, List.getElem_map, List.getElem_range, List.getElem_take]
    simp [List.getElem?_eq_getElem hi]

theorem wideAppend_ok (cut : Bool) (name : CharPtr) (value : Option (List UInt16))
    (charCount : Nat) : (wideAppend cut name value charCount).Ok := by
  have h512 : traceMaxStringBytes = 512 := rfl
  have hwide : ∀ (cut : Bool) (value : List UInt8) (size : Nat), size % 2 = 0 → size ≤ 512 →
      Append.Ok ⟨cut, .wideString, name, value, size⟩ := by
    intro cut value size h1 h2
    constructor
    show (bytesAt value size).length % 2 = 0 ∧ (bytesAt value size).length ≤ _
    rw [bytesAt_length]
    exact ⟨h1, h2⟩
  cases value with
  | none => exact hwide cut _ 0 rfl (Nat.zero_le _)
  | some chars =>
      rw [wideAppend]
      split
      · exact hwide true _ _ rfl (Nat.le_refl _)
      · exact hwide cut _ _ (by omega) (by omega)

theorem unicodeAppend_ok (name : CharPtr) (readHeader readBuffer : Option ReadOutcome)
    (unicodeString : UInt64) :
    (unicodeAppend name readHeader readBuffer unicodeString).Ok := by
  unfold unicodeAppend
  generalize safeReadSelf readHeader unicodeString 16 = r₁
  dsimp only
  generalize word r₁.2 0 2 - word r₁.2 0 2 % 2 = length
  generalize UInt64.ofNat (word r₁.2 8 8) = buffer
  generalize (if traceMaxStringBytes < length then traceMaxStringBytes else length)
    = byteLength
  generalize safeReadSelf readBuffer buffer byteLength = r₂
  by_cases hread : unicodeString = 0 ∨ ntSuccess r₁.1 = false
  · rw [if_pos hread]
    exact wideAppend_ok ..
  · rw [if_neg hread]
    by_cases hread' : buffer = 0 ∨ byteLength = 0 ∨ ntSuccess r₂.1 = false
    · rw [if_pos hread']
      exact wideAppend_ok ..
    · rw [if_neg hread']
      exact wideAppend_ok ..

/-- The clamps of `CaptureTraceBuffer`. -/
theorem captureTraceBuffer_captured (bypass : Option ReadOutcome) (buffer : UInt64)
    (length : UInt32) :
    let v := captureTraceBuffer bypass buffer length
    v.captured.toNat ≤ traceMaxBufferBytes ∧ v.captured.toNat ≤ v.requested.toNat := by
  have hmin : ∀ x y : UInt32, (if x < y then x else y).toNat ≤ y.toNat := by
    intro x y
    split
    · rename_i h
      exact Nat.le_of_lt (UInt32.lt_iff_toNat_lt.mp h)
    · exact Nat.le_refl _
  unfold captureTraceBuffer
  split
  · exact ⟨Nat.zero_le _, Nat.zero_le _⟩
  · have h1 := hmin (invokeSelfRead bypass buffer
      (if length < 64 then length else 64).toNat).captured (if length < 64 then length else 64)
    have h2 : (if length < 64 then length else 64).toNat ≤ (64 : UInt32).toNat := hmin _ _
    have h3 : (if length < 64 then length else 64).toNat ≤ length.toNat := by
      split
      · exact Nat.le_refl _
      · rename_i h
        exact UInt32.le_iff_toNat_le.mp (UInt32.not_lt.mp h)
    exact ⟨Nat.le_trans h1 h2, Nat.le_trans h1 h3⟩

theorem preview_ok (name : CharPtr) (v : TraceBytesValue)
    (h : v.captured.toNat ≤ traceMaxBufferBytes ∧ v.captured.toNat ≤ v.requested.toNat) :
    Append.Ok ⟨false, .bytes, name, v.encode,
      (sizeofBytesHeader + v.captured.toNat) % 65536⟩ := by
  have h64 : traceMaxBufferBytes = 64 := rfl
  have h12 : sizeofBytesHeader = 12 := rfl
  have hlen : v.encode.length = 76 := by
    simp only [TraceBytesValue.encode, List.length_append, leBytes_length, slice_length]
    omega
  have hsize : (sizeofBytesHeader + v.captured.toNat) % 65536
      = sizeofBytesHeader + v.captured.toNat := by omega
  have hbytes : bytesAt v.encode (sizeofBytesHeader + v.captured.toNat)
      = leBytes 4 v.requested.toNat ++ (leBytes 4 v.captured.toNat
        ++ (leBytes 4 v.captureStatus.toNat
          ++ (slice v.bytes 0 traceMaxBufferBytes).take v.captured.toNat)) := by
    rw [bytesAt_take (by omega), TraceBytesValue.encode]
    rw [show sizeofBytesHeader + v.captured.toNat = 4 + (4 + (4 + v.captured.toNat)) by omega]
    simp only [List.take_append, leBytes_length, Nat.add_sub_cancel_left]
    rw [List.take_of_length_le, List.take_of_length_le, List.take_of_length_le] <;>
      simp only [leBytes_length] <;> omega
  rw [hsize]
  constructor
  show bytesCaptured (bytesAt _ _) ≤ _ ∧ bytesCaptured (bytesAt _ _) ≤ bytesRequested _ ∧
    (bytesAt _ _).length = _
  have hr : bytesRequested (bytesAt v.encode (sizeofBytesHeader + v.captured.toNat))
      = v.requested.toNat := by
    rw [bytesRequested, hbytes, List.take_left' (leBytes_length 4 _), leNat_leBytes]
    exact Nat.mod_eq_of_lt v.requested.toNat_lt
  have hc : bytesCaptured (bytesAt v.encode (sizeofBytesHeader + v.captured.toNat))
      = v.captured.toNat := by
    rw [bytesCaptured, hbytes, List.drop_left' (leBytes_length 4 _),
      List.take_left' (leBytes_length 4 _), leNat_leBytes]
    exact Nat.mod_eq_of_lt v.captured.toNat_lt
  rw [hr, hc, bytesAt_length]
  exact ⟨h.1, h.2, rfl⟩

theorem mem_ok {x y : Append} (hx : x ∈ [y]) (hy : y.Ok) : x.Ok := by
  rw [List.mem_singleton.mp hx]
  exact hy

theorem objectPath_ok (name : CharPtr) (r₁ r₂ r₃ : Option ReadOutcome) (p : UInt64) :
    ∀ x ∈ (AddCall.objectPath name r₁ r₂ r₃ p).appends, x.Ok := by
  intro x hx
  rw [AddCall.appends] at hx
  generalize safeReadSelf r₁ p 48 = r at hx
  dsimp only at hx
  generalize UInt64.ofNat (word r.2 8 8) = root at hx
  have hpath := unicodeAppend_ok name r₂ r₃ (UInt64.ofNat (word r.2 16 8))
  generalize unicodeAppend name r₂ r₃ (UInt64.ofNat (word r.2 16 8)) = path at hx hpath
  by_cases hread : p = 0 ∨ ntSuccess r.1 = false
  · rw [if_pos hread] at hx
    exact mem_ok hx (wideAppend_ok ..)
  · rw [if_neg hread] at hx
    by_cases hroot : root ≠ 0
    · rw [if_pos hroot] at hx
      rcases List.mem_cons.mp hx with hx | hx
      · rw [hx]
        exact ⟨bytesAt_length _ 8⟩
      · exact mem_ok hx hpath
    · rw [if_neg hroot] at hx
      exact mem_ok hx hpath

/-- **EVERY VALUE FITS** its type, whatever is passed and whatever the guarded
    reads return. -/
theorem appends_ok (c : AddCall) : ∀ x ∈ c.appends, x.Ok := by
  intro x hx
  cases c with
  | pointer name v => exact mem_ok hx ⟨bytesAt_length _ 8⟩
  | uint32 name v => exact mem_ok hx ⟨bytesAt_length _ 4⟩
  | uint64 name v => exact mem_ok hx ⟨bytesAt_length _ 8⟩
  | int32 name v => exact mem_ok hx ⟨bytesAt_length _ 4⟩
  | int64 name v => exact mem_ok hx ⟨bytesAt_length _ 8⟩
  | status name v => exact mem_ok hx ⟨bytesAt_length _ 4⟩
  | boolean name v =>
      refine mem_ok hx ?_
      cases v with
      | true => exact ⟨Or.inr rfl⟩
      | false => exact ⟨Or.inl rfl⟩
  | bufferPreview name bypass buffer length =>
      exact mem_ok hx (preview_ok name _ (captureTraceBuffer_captured bypass buffer length))
  | wideString name value charCount => exact mem_ok hx (wideAppend_ok ..)
  | unicodeString name r₁ r₂ p => exact mem_ok hx (unicodeAppend_ok ..)
  | objectPath name r₁ r₂ r₃ p => exact objectPath_ok name r₁ r₂ r₃ p x hx

/-! ## What a run leaves -/

/-- The fields of the appends that returned true, in order. -/
def accepted (steps : List Step) : List TraceField :=
  (steps.filter Step.ok).map fun s => s.append.field

/-- From an event of some fields, the appends of a log lead to the last. -/
structure Leads (e : TraceEvent) (m a : List UInt8) (fs : List TraceField)
    (last : TraceEvent) (steps : List Step) : Prop where
  represents : Represents last m a (fs ++ accepted steps)
  /-- A refused append changes the flags only, at bytes 8 and 9. -/
  refused : ∀ s ∈ steps, s.ok = false →
    ∀ i, i ≠ 8 → i ≠ 9 → s.after.byte i = s.before.byte i
  clean : last.flags = 0 → e.flags = 0 ∧ ∀ s ∈ steps, s.ok = true ∧ s.append.cut = false
  /-- An append is accepted if its field fits, and only then. -/
  taken : ∀ before s after, steps = before ++ s :: after →
    (s.ok = true ↔ s.append.Fits (fs ++ accepted before) s.before.size)

theorem Leads.refl {e : TraceEvent} {m a : List UInt8} {fs : List TraceField}
    (h : Represents e m a fs) : Leads e m a fs e [] := by
  refine ⟨?_, ?_, ?_, ?_⟩
  · show Represents e m a (fs ++ [])
    rw [List.append_nil]
    exact h
  · intro s hs
    cases hs
  · intro hzero
    refine ⟨hzero, ?_⟩
    intro s hs
    cases hs
  · intro before s after heq
    exact absurd heq (by simp)

theorem accepted_append (steps steps' : List Step) :
    accepted (steps ++ steps') = accepted steps ++ accepted steps' := by
  rw [accepted, List.filter_append, List.map_append]
  rfl

theorem Leads.trans {e e' last : TraceEvent} {m a : List UInt8} {fs : List TraceField}
    {steps steps' : List Step} (h : Leads e m a fs e' steps)
    (h' : Leads e' m a (fs ++ accepted steps) last steps') :
    Leads e m a fs last (steps ++ steps') := by
  refine ⟨?_, ?_, ?_, ?_⟩
  · rw [accepted_append, ← List.append_assoc]
    exact h'.represents
  · intro s hs
    rcases List.mem_append.mp hs with hs | hs
    · exact h.refused s hs
    · exact h'.refused s hs
  · intro hzero
    obtain ⟨hzero', hsteps'⟩ := h'.clean hzero
    obtain ⟨hstart, hsteps⟩ := h.clean hzero'
    refine ⟨hstart, fun s hs => ?_⟩
    rcases List.mem_append.mp hs with hs | hs
    · exact hsteps s hs
    · exact hsteps' s hs
  · intro before s after heq
    rcases List.append_eq_append_iff.mp heq with ⟨l, rfl, hl⟩ | ⟨l, rfl, hl⟩
    · rw [accepted_append, ← List.append_assoc]
      exact h'.taken l s after hl
    · cases l with
      | nil =>
          have htaken := h'.taken [] s after hl.symm
          rw [List.append_assoc, ← accepted_append, List.append_nil, List.append_nil] at htaken
          exact htaken
      | cons s' l =>
          obtain ⟨rfl, -⟩ := List.cons.inj hl
          exact h.taken before s l rfl

/-- Setting the truncation flag for a cut string. -/
theorem cut_represents {e : TraceEvent} {m a : List UInt8} {fs : List TraceField}
    (h : Represents e m a fs) (cut : Bool) :
    let e₁ := if cut then e.orFlags traceEventFlagTruncated else e
    Represents e₁ m a fs ∧ (∀ i, i ≠ 8 → i ≠ 9 → e₁.byte i = e.byte i) ∧
      (e₁.flags = 0 → e.flags = 0 ∧ cut = false) := by
  cases cut with
  | false => exact ⟨h, fun _ _ _ => rfl, fun hzero => ⟨hzero, rfl⟩⟩
  | true =>
      have hr : Refused e (e.orFlags traceEventFlagTruncated) := ⟨_, Or.inl rfl, rfl⟩
      exact ⟨hr.represents h, fun i h8 h9 => hr.byte_eq h8 h9,
        fun hzero => absurd hzero hr.flags_ne⟩

/-- **ONE APPEND** leads from an event to the next. -/
theorem leads_append {e : TraceEvent} {m a : List UInt8} {fs : List TraceField}
    (h : Represents e m a fs) {x : Append} (hx : x.Ok) :
    Leads e m a fs (x.run e).1 [⟨x, e, (x.run e).1, (x.run e).2⟩] := by
  obtain ⟨hrep, hbytes, hflags⟩ := cut_represents h x.cut
  have htaken : ∀ before s after,
      [(⟨x, e, (x.run e).1, (x.run e).2⟩ : Step)] = before ++ s :: after →
        (s.ok = true ↔ s.append.Fits (fs ++ accepted before) s.before.size) := by
    intro before s after heq
    cases before with
    | nil =>
        obtain ⟨rfl, -⟩ := List.cons.inj heq
        have hiff := @append_accepts_iff _ m a fs hrep x.type x.name x.value x.valueSize
        rw [hrep.size, ← h.size] at hiff
        show _ ↔ x.Fits (fs ++ []) e.size
        rw [List.append_nil]
        exact hiff
    | cons s' rest => exact absurd (congrArg List.length heq) (by simp)
  rcases append_represents hrep x.type x.name x.value hx.valueOk with
    ⟨s, e', hname, hrun, hrep', heq⟩ | ⟨e', hrun, href⟩
  · have hx' : x.run e = (e', true) := hrun
    have hfield : x.field = fieldOf x.type (cValue s) (bytesAt x.value x.valueSize) := by
      rw [Append.field, hname]
      rfl
    rw [hx'] at htaken ⊢
    refine ⟨?_, ?_, ?_, htaken⟩
    · show Represents e' m a (fs ++ [x.field])
      rw [hfield]
      exact hrep'
    · intro s' hs' hfalse
      rw [List.mem_singleton.mp hs'] at hfalse
      cases hfalse
    · intro hzero
      obtain ⟨hzero', hcut⟩ := hflags (heq ▸ hzero)
      refine ⟨hzero', fun s' hs' => ?_⟩
      rw [List.mem_singleton.mp hs']
      exact ⟨rfl, hcut⟩
  · have hx' : x.run e = (e', false) := hrun
    rw [hx'] at htaken ⊢
    refine ⟨?_, ?_, ?_, htaken⟩
    · show Represents e' m a (fs ++ [])
      rw [List.append_nil]
      exact href.represents hrep
    · intro s' hs' _ i h8 h9
      rw [List.mem_singleton.mp hs']
      exact (href.byte_eq h8 h9).trans (hbytes i h8 h9)
    · intro hzero
      exact absurd hzero href.flags_ne

theorem leads_addAll {m a : List UInt8} (xs : List Append) {e : TraceEvent}
    {fs : List TraceField} (h : Represents e m a fs) (hok : ∀ x ∈ xs, x.Ok) :
    Leads e m a fs (addAll e xs).1 (addAll e xs).2 := by
  induction xs generalizing e fs with
  | nil => exact Leads.refl h
  | cons x rest ih =>
      have hhead := leads_append h (hok x List.mem_cons_self)
      have hrest := ih hhead.represents fun y hy => hok y (List.mem_cons_of_mem _ hy)
      rw [addAll_cons_fst, addAll_cons_snd]
      exact hhead.trans hrest

/-- **A RUN OF CALLS** leads from an event to the last. -/
theorem leads_runCalls {m a : List UInt8} (calls : List AddCall) {e : TraceEvent}
    {fs : List TraceField} (h : Represents e m a fs) :
    Leads e m a fs (runCalls e calls).1 (runCalls e calls).2 := by
  induction calls generalizing e fs with
  | nil => exact Leads.refl h
  | cons c rest ih =>
      have hhead := leads_addAll c.appends h (appends_ok c)
      rw [← (run_appends c e).1] at hhead
      have hrest := ih hhead.represents
      show Leads e m a fs (runCalls (c.run e).1 rest).1
        ((addAll e c.appends).2 ++ (runCalls (c.run e).1 rest).2)
      exact hhead.trans hrest

/-! ## The round trip -/

/-- The event after a run of calls, and the log of their appends. -/
structure RoundTrip (moduleName apiName : CharPtr) (e : TraceEvent) (steps : List Step) :
    Prop where
  valid : (isValidTraceEvent e.size).run e.byte = true
  parsed : ∃ p, (parseTraceEvent e.size).run e.byte = some p ∧
    contentOf p e
      = (cValue (moduleName.getD []), cValue (apiName.getD []), accepted steps)
  refused : ∀ s ∈ steps, s.ok = false →
    ∀ i, i ≠ 8 → i ≠ 9 → s.after.byte i = s.before.byte i
  clean : e.flags = 0 → ∀ s ∈ steps, s.ok = true ∧ s.append.cut = false
  /-- An append is accepted if its field fits behind those accepted before, and
      only then. -/
  taken : ∀ before s after, steps = before ++ s :: after →
    (s.ok = true ↔ s.append.Fits (accepted before) s.before.size)

/-- **ROUND TRIP**: after any calls on an initialised event, the parser
    accepts it and returns its names and the accepted fields in call order.
    The log is that of the calls: each makes its appends, and returns what
    the last of them returned. -/
theorem builder_round_trip {moduleName apiName : CharPtr} {threadId : UInt32}
    {timestamp100ns : UInt64} {e₀ : TraceEvent}
    (hinit : initializeTraceEvent moduleName apiName threadId timestamp100ns = (e₀, true))
    (calls : List AddCall) :
    RoundTrip moduleName apiName (runCalls e₀ calls).1 (runCalls e₀ calls).2 ∧
      ∀ (c : AddCall) (e : TraceEvent), (c.run e).1 = (addAll e c.appends).1 ∧
        (addAll e c.appends).2.getLast?.map Step.ok = some (c.run e).2 := by
  obtain ⟨m, a, rfl, rfl, hrep, -⟩ := initialize_represents hinit
  have hleads := leads_runCalls calls hrep
  obtain ⟨p, hp, hcontent⟩ := hleads.represents.parse
  refine ⟨⟨?_, ⟨p, hp, hcontent⟩, hleads.refused, fun hzero => (hleads.clean hzero).2,
    hleads.taken⟩, run_appends⟩
  rw [isValidTraceEvent, Read.run_bind, hp]
  rfl

/-- A duplicate, an inadmissible name and a cut string among good fields. -/
theorem builder_round_trip_run :
    let calls : List AddCall := [.boolean (some (cstr "ok")) true,
      .uint32 (some (cstr "ok")) 5, .uint64 (some (cstr "9")) 1,
      .wideString (some (cstr "path")) (some [0x43, 0x3A]) 300,
      .bufferPreview (some (cstr "data")) (some ⟨0x80000005, 70, fun _ => 1⟩) 4096 100]
    ∃ e₀, initializeTraceEvent (some (cstr "ntdll.dll")) (some (cstr "NtClose")) 7 9
        = (e₀, true) ∧
      (runCalls e₀ calls).2.map Step.ok = [true, false, false, true, true] ∧
      RoundTrip (some (cstr "ntdll.dll")) (some (cstr "NtClose")) (runCalls e₀ calls).1
        (runCalls e₀ calls).2 := by
  have hinit : (initializeTraceEvent (some (cstr "ntdll.dll")) (some (cstr "NtClose"))
      7 9).2 = true := by decide +kernel
  refine ⟨_, Prod.ext rfl hinit, by decide +kernel, ?_⟩
  exact (builder_round_trip (Prod.ext rfl hinit) _).1

end ScopeTransport
