import ApiScope.RoundTripProofs
import ApiScope.TraceCorrelatorProofs
import ApiScope.ReplayProofs

/-! # Handler events — what the hook handlers record

    The handlers of the file and registry hooks and of `NtClose`: the fields
    each adds before `CALL_ORIGINAL`, and those it adds after it from the
    status and the values the kernel wrote.  With names that fit all of them
    are accepted (`represents_addAll`), so the fields of an event are known
    (`represents_callEvent`), and with them what the tracker makes of it. -/

namespace ScopeHandlers

open ScopeBytes ScopeRead ScopeProtocol ScopeParser ScopeGrammar ScopeTransport
  ScopeCorrelator ScopeReplay

/-! ## Arguments -/

/-- An `OBJECT_ATTRIBUTES` with a readable, absolute path of at most 256
    characters, and what the three guarded reads of it return. -/
structure AbsolutePath where
  path : List UInt16
  address : UInt64
  readAttributes : ReadOutcome
  readHeader : ReadOutcome
  readBuffer : ReadOutcome
  nonempty : path ≠ []
  short : path.length ≤ 256
  address_ne : address ≠ 0
  attributes_read : ntSuccess readAttributes.status = true ∧
    readAttributes.captured.toNat = 48
  /-- `RootDirectory` is null. -/
  absolute : UInt64.ofNat (word readAttributes.bytes 8 8) = 0
  name_ne : UInt64.ofNat (word readAttributes.bytes 16 8) ≠ 0
  header_read : ntSuccess readHeader.status = true ∧ readHeader.captured.toNat = 16
  length_eq : word readHeader.bytes 0 2 = path.length * 2
  buffer_ne : UInt64.ofNat (word readHeader.bytes 8 8) ≠ 0
  buffer_read : ntSuccess readBuffer.status = true ∧
    readBuffer.captured.toNat = path.length * 2
  chars_eq : wideChars readBuffer.bytes path.length = path

structure NtCreateFileArgs where
  desiredAccess : UInt32
  objectAttributes : AbsolutePath
  ioStatusBlock : UInt64
  allocationSize : UInt64
  fileAttributes : UInt32
  shareAccess : UInt32
  createDisposition : UInt32
  createOptions : UInt32
  eaBuffer : UInt64
  eaLength : UInt32

structure NtOpenFileArgs where
  desiredAccess : UInt32
  objectAttributes : AbsolutePath
  ioStatusBlock : UInt64
  shareAccess : UInt32
  openOptions : UInt32

structure NtOpenKeyArgs where
  desiredAccess : UInt32
  objectAttributes : AbsolutePath

/-- The arguments of `NtReadFile` and `NtWriteFile`. -/
structure TransferArgs where
  fileHandle : UInt64
  event : UInt64
  apcRoutine : UInt64
  apcContext : UInt64
  ioStatusBlock : UInt64
  buffer : UInt64
  length : UInt32
  byteOffset : UInt64
  key : UInt64

/-- The functions whose calls are modelled. -/
inductive HookedApi where
  | ntCreateFile
  | ntOpenFile
  | ntOpenKey
  | ntReadFile
  | ntWriteFile
  | ntClose
  deriving DecidableEq

def HookedApi.name : HookedApi → List UInt8
  | ntCreateFile => cstr "NtCreateFile"
  | ntOpenFile => cstr "NtOpenFile"
  | ntOpenKey => cstr "NtOpenKey"
  | ntReadFile => cstr "NtReadFile"
  | ntWriteFile => cstr "NtWriteFile"
  | ntClose => cstr "NtClose"

/-- A call of a hooked function. -/
inductive Call where
  | ntCreateFile (args : NtCreateFileArgs)
  | ntOpenFile (args : NtOpenFileArgs)
  | ntOpenKey (args : NtOpenKeyArgs)
  | ntReadFile (args : TransferArgs)
  /-- With the outcome of the guarded read of the buffer. -/
  | ntWriteFile (args : TransferArgs) (preview : Option ReadOutcome)
  | ntClose (handle : UInt64)

/-- What the kernel left when the original function returns. -/
structure Return where
  status : UInt32
  /-- The handle an opening call wrote. -/
  handle : UInt64
  /-- `IoStatusBlock->Information`. -/
  information : UInt64
  /-- The outcome of the guarded read of the buffer that was read into. -/
  preview : Option ReadOutcome

namespace Call

/-! ## The handlers -/

def api : Call → HookedApi
  | ntCreateFile _ => .ntCreateFile
  | ntOpenFile _ => .ntOpenFile
  | ntOpenKey _ => .ntOpenKey
  | ntReadFile _ => .ntReadFile
  | ntWriteFile _ _ => .ntWriteFile
  | ntClose _ => .ntClose

/-- `AddTraceObjectPath(&event, "path", ObjectAttributes)`. -/
def addPath (p : AbsolutePath) : AddCall :=
  .objectPath (some (cstr "path")) (some p.readAttributes) (some p.readHeader)
    (some p.readBuffer) p.address

/-- The fields both transfer handlers start with. -/
def transferFields (args : TransferArgs) : List AddCall :=
  [.pointer (some (cstr "file_handle")) args.fileHandle,
    .pointer (some (cstr "event")) args.event,
    .pointer (some (cstr "apc_routine")) args.apcRoutine,
    .pointer (some (cstr "apc_context")) args.apcContext,
    .pointer (some (cstr "io_status_block")) args.ioStatusBlock,
    .pointer (some (cstr "buffer_address")) args.buffer,
    .uint32 (some (cstr "length")) args.length,
    .pointer (some (cstr "byte_offset")) args.byteOffset,
    .pointer (some (cstr "key")) args.key]

/-- The `AddTrace*` calls before `CALL_ORIGINAL`. -/
def before : Call → List AddCall
  | ntCreateFile args =>
      [.uint32 (some (cstr "desired_access")) args.desiredAccess,
        addPath args.objectAttributes,
        .pointer (some (cstr "io_status_block")) args.ioStatusBlock,
        .pointer (some (cstr "allocation_size")) args.allocationSize,
        .uint32 (some (cstr "file_attributes")) args.fileAttributes,
        .uint32 (some (cstr "share_access")) args.shareAccess,
        .uint32 (some (cstr "create_disposition")) args.createDisposition,
        .uint32 (some (cstr "create_options")) args.createOptions,
        .pointer (some (cstr "ea_buffer")) args.eaBuffer,
        .uint32 (some (cstr "ea_length")) args.eaLength]
  | ntOpenFile args =>
      [.uint32 (some (cstr "desired_access")) args.desiredAccess,
        addPath args.objectAttributes,
        .pointer (some (cstr "io_status_block")) args.ioStatusBlock,
        .uint32 (some (cstr "share_access")) args.shareAccess,
        .uint32 (some (cstr "open_options")) args.openOptions]
  | ntOpenKey args =>
      [.uint32 (some (cstr "desired_access")) args.desiredAccess,
        addPath args.objectAttributes]
  | ntReadFile args => transferFields args
  | ntWriteFile args preview =>
      transferFields args
        ++ [.bufferPreview (some (cstr "buffer")) preview args.buffer args.length]
  | ntClose handle => [.pointer (some (cstr "handle")) handle]

/-- `(NT_SUCCESS(result) && FileHandle) ? *FileHandle : nullptr`. -/
def openedHandle (r : Return) : UInt64 := if ntSuccess r.status then r.handle else 0

/-- `IoStatusBlock->Information < Length ? IoStatusBlock->Information : Length`. -/
def bytesRead (args : TransferArgs) (r : Return) : UInt32 :=
  if r.information < args.length.toUInt64 then r.information.toUInt32 else args.length

/-- The `AddTrace*` calls after `CALL_ORIGINAL`. -/
def after (r : Return) : Call → List AddCall
  | ntCreateFile _ | ntOpenFile _ =>
      [.pointer (some (cstr "file_handle")) (openedHandle r),
        .status (some (cstr "result")) r.status]
  | ntOpenKey _ =>
      [.pointer (some (cstr "key_handle")) (openedHandle r),
        .status (some (cstr "result")) r.status]
  | ntReadFile args =>
      (if ntSuccess r.status ∧ args.ioStatusBlock ≠ 0 then
        [.bufferPreview (some (cstr "buffer")) r.preview args.buffer (bytesRead args r)]
      else []) ++ [.status (some (cstr "result")) r.status]
  | ntWriteFile _ _ => [.status (some (cstr "result")) r.status]
  | ntClose _ => [.status (some (cstr "result")) r.status]

/-- The event of a handler at `CALL_ORIGINAL`. -/
def entryEvent (threadId : UInt32) (timestamp100ns : UInt64) (c : Call) : TraceEvent :=
  (runCalls (initializeTraceEvent (some (cstr "ntdll.dll")) (some c.api.name) threadId
    timestamp100ns).1 c.before).1

/-- The event of a handler at `EmitTraceEvent`. -/
def emittedEvent (c : Call) (e : TraceEvent) (r : Return) : TraceEvent :=
  (runCalls e (c.after r)).1

end Call

/-! ## Appends that are all accepted -/

/-- An append of a field with an admissible name, from a value that is not
    cut. -/
structure Plain (x : Append) : Prop where
  notCut : x.cut = false
  name : FieldNameOk x.field.name
  ok : x.Ok

/-- An append of an admissible, new name whose field fits, cut or not. -/
theorem run_accepts {e : TraceEvent} {m a : List UInt8} {fs : List TraceField}
    (h : Represents e m a fs) {x : Append} (hname : FieldNameOk x.field.name) (hx : x.Ok)
    (hnew : x.field.name ∉ fs.map TraceField.name)
    (hfit : e.size + x.field.serialise.length ≤ traceMaxEventBytes) :
    Represents (x.run e).1 m a (fs ++ [x.field]) ∧
      (x.cut = false → (x.run e).1.flags = e.flags) := by
  cases hs : x.name with
  | none =>
      rw [Append.field, hs] at hname
      exact hname.elim
  | some s =>
      obtain ⟨hrep, -, -⟩ := cut_represents h x.cut
      have hfield : x.field = fieldOf x.type (cValue s) (bytesAt x.value x.valueSize) := by
        rw [Append.field, hs]
        rfl
      have hlen : (fieldOf x.type (cValue s) (bytesAt x.value x.valueSize)).serialise.length
          = sizeofFieldHeader + (cValue s).length + x.valueSize := by
        rw [TraceField.serialise_length]
        exact congrArg _ (bytesAt_length ..)
      rw [hfield] at hname hnew hfit
      have hrun : x.run e = appendTraceField (if x.cut then e.orFlags traceEventFlagTruncated
          else e) x.type (some s) (some x.value) x.valueSize := by
        rw [Append.run, hs]
      have haccept : (x.run e).2 = true := by
        rw [hrun]
        refine (append_accepts_iff hrep x.type (some s) x.value).mpr ⟨s, rfl, hname, hnew, ?_⟩
        rw [hrep.size, ← h.size]
        omega
      rcases append_represents hrep x.type (some s) x.value hx.valueOk with
        ⟨s', e', hsome, happend, hrep', hflags⟩ | ⟨e', happend, -⟩
      · obtain rfl := Option.some.inj hsome
        rw [hrun, happend, hfield]
        refine ⟨hrep', fun hcut => ?_⟩
        rw [hcut] at hflags
        exact hflags
      · rw [hrun, happend] at haccept
        cases haccept

/-- **NOTHING REFUSED**: appends of new names that fit together. -/
theorem accepts_addAll {m a : List UInt8} (xs : List Append) {e : TraceEvent}
    {fs : List TraceField} (h : Represents e m a fs)
    (hok : ∀ x ∈ xs, FieldNameOk x.field.name ∧ x.Ok)
    (hnew : ((fs ++ xs.map Append.field).map TraceField.name).Nodup)
    (hfit : e.size + (serialiseFields (xs.map Append.field)).length ≤ traceMaxEventBytes) :
    Represents (addAll e xs).1 m a (fs ++ xs.map Append.field) ∧
      ((∀ x ∈ xs, x.cut = false) → (addAll e xs).1.flags = e.flags) := by
  induction xs generalizing e fs with
  | nil =>
      refine ⟨?_, fun _ => rfl⟩
      show Represents e m a (fs ++ [])
      rw [List.append_nil]
      exact h
  | cons x rest ih =>
      rw [List.map_cons, serialiseFields_cons, List.length_append] at hfit
      rw [List.map_cons, List.append_cons] at hnew ⊢
      have hx : x.field.name ∉ fs.map TraceField.name := by
        intro hmem
        rw [List.map_append, List.map_append, List.append_assoc] at hnew
        exact (List.nodup_append.mp hnew).2.2 _ hmem _ List.mem_cons_self rfl
      obtain ⟨hname, hxok⟩ := hok x List.mem_cons_self
      obtain ⟨hhead, hflags⟩ := run_accepts h hname hxok hx (by omega)
      have hsize : (x.run e).1.size = e.size + x.field.serialise.length := by
        have hone : (serialiseFields [x.field]).length = x.field.serialise.length :=
          congrArg List.length (List.append_nil _)
        rw [hhead.size, h.size, serialiseFields_append, List.length_append,
          List.length_append, List.length_append, List.length_append, List.length_append,
          hone]
        omega
      obtain ⟨hrest, hrestFlags⟩ := ih hhead (fun y hy => hok y (List.mem_cons_of_mem _ hy))
        hnew (by rw [hsize]; omega)
      rw [addAll_cons_fst]
      refine ⟨hrest, fun hcut => ?_⟩
      rw [hrestFlags fun y hy => hcut y (List.mem_cons_of_mem _ hy),
        hflags (hcut x List.mem_cons_self)]

theorem represents_addAll {m a : List UInt8} (xs : List Append) {e : TraceEvent}
    {fs : List TraceField} (h : Represents e m a fs) (hplain : ∀ x ∈ xs, Plain x)
    (hnew : ((fs ++ xs.map Append.field).map TraceField.name).Nodup)
    (hfit : e.size + (serialiseFields (xs.map Append.field)).length ≤ traceMaxEventBytes) :
    Represents (addAll e xs).1 m a (fs ++ xs.map Append.field) :=
  (accepts_addAll xs h (fun x hx => ⟨(hplain x hx).name, (hplain x hx).ok⟩) hnew hfit).1

theorem addAll_append (e : TraceEvent) (xs ys : List Append) :
    (addAll e (xs ++ ys)).1 = (addAll (addAll e xs).1 ys).1 := by
  induction xs generalizing e with
  | nil => rfl
  | cons x rest ih =>
      rw [List.cons_append, addAll_cons_fst, addAll_cons_fst]
      exact ih _

/-- A run of calls is the run of their appends. -/
theorem runCalls_fst (e : TraceEvent) (calls : List AddCall) :
    (runCalls e calls).1 = (addAll e (calls.flatMap AddCall.appends)).1 := by
  induction calls generalizing e with
  | nil => rfl
  | cons c rest ih =>
      rw [List.flatMap_cons, addAll_append, ← (run_appends c e).1]
      exact ih _

/-! ## The fields of an event -/

def pointerField (name : List UInt8) (v : UInt64) : TraceField :=
  fieldOf .pointer name (leBytes 8 v.toNat)

def uint32Field (name : List UInt8) (v : UInt32) : TraceField :=
  fieldOf .uint32 name (leBytes 4 v.toNat)

def statusField (v : UInt32) : TraceField :=
  fieldOf .status (cstr "result") (leBytes 4 v.toNat)

/-- The preview of a buffer of `length` bytes, as the guarded read saw it. -/
def previewField (bypass : Option ReadOutcome) (buffer : UInt64) (length : UInt32) :
    TraceField :=
  let preview := captureTraceBuffer bypass buffer length
  fieldOf .bytes (cstr "buffer")
    (bytesAt preview.encode ((sizeofBytesHeader + preview.captured.toNat) % 65536))

/-- The fields both transfer handlers start with. -/
def transferFieldsOf (args : TransferArgs) : List TraceField :=
  [pointerField (cstr "file_handle") args.fileHandle,
    pointerField (cstr "event") args.event,
    pointerField (cstr "apc_routine") args.apcRoutine,
    pointerField (cstr "apc_context") args.apcContext,
    pointerField (cstr "io_status_block") args.ioStatusBlock,
    pointerField (cstr "buffer_address") args.buffer,
    uint32Field (cstr "length") args.length,
    pointerField (cstr "byte_offset") args.byteOffset,
    pointerField (cstr "key") args.key]

namespace Call

/-- What the event of a call says: the fields, in order. -/
def fields (r : Return) : Call → List TraceField
  | ntCreateFile args =>
      [uint32Field (cstr "desired_access") args.desiredAccess,
        pathField args.objectAttributes.path,
        pointerField (cstr "io_status_block") args.ioStatusBlock,
        pointerField (cstr "allocation_size") args.allocationSize,
        uint32Field (cstr "file_attributes") args.fileAttributes,
        uint32Field (cstr "share_access") args.shareAccess,
        uint32Field (cstr "create_disposition") args.createDisposition,
        uint32Field (cstr "create_options") args.createOptions,
        pointerField (cstr "ea_buffer") args.eaBuffer,
        uint32Field (cstr "ea_length") args.eaLength,
        pointerField (cstr "file_handle") (openedHandle r), statusField r.status]
  | ntOpenFile args =>
      [uint32Field (cstr "desired_access") args.desiredAccess,
        pathField args.objectAttributes.path,
        pointerField (cstr "io_status_block") args.ioStatusBlock,
        uint32Field (cstr "share_access") args.shareAccess,
        uint32Field (cstr "open_options") args.openOptions,
        pointerField (cstr "file_handle") (openedHandle r), statusField r.status]
  | ntOpenKey args =>
      [uint32Field (cstr "desired_access") args.desiredAccess,
        pathField args.objectAttributes.path,
        pointerField (cstr "key_handle") (openedHandle r), statusField r.status]
  | ntReadFile args =>
      transferFieldsOf args
        ++ ((if ntSuccess r.status ∧ args.ioStatusBlock ≠ 0 then
          [previewField r.preview args.buffer (bytesRead args r)] else [])
        ++ [statusField r.status])
  | ntWriteFile args preview =>
      transferFieldsOf args
        ++ [previewField preview args.buffer args.length, statusField r.status]
  | ntClose handle => [pointerField (cstr "handle") handle, statusField r.status]

def appends (c : Call) (r : Return) : List Append :=
  (c.before ++ c.after r).flatMap AddCall.appends

end Call

/-- The append of an absolute path. -/
def pathAppend (path : List UInt16) : Append :=
  ⟨false, .wideString, some (cstr "path"), wideBytes path, path.length * 2 % 65536⟩

/-- A guarded read that captures everything. -/
theorem safeReadSelf_of_captured {r : ReadOutcome} {source : UInt64} {length : Nat}
    (hs : source ≠ 0) (hl : length ≠ 0) (hr : r.captured.toNat = length) :
    safeReadSelf (some r) source length = (r.status, r.bytes) := by
  have hinvoke : invokeSelfRead (some r) source length = r := by
    rw [invokeSelfRead, if_neg]
    rintro (h | h)
    · exact hs h
    · exact hl h
  rw [safeReadSelf, hinvoke]
  simp [hr]

/-- `AddTraceObjectPath` of an absolute path appends the path, uncut. -/
theorem addPath_appends (p : AbsolutePath) :
    (Call.addPath p).appends = [pathAppend p.path] := by
  have h512 : traceMaxStringBytes = 512 := rfl
  have hshort := p.short
  have hpos : p.path.length ≠ 0 := fun h => p.nonempty (List.length_eq_zero_iff.mp h)
  have hattributes := safeReadSelf_of_captured p.address_ne (by decide) p.attributes_read.2
  have hheader := safeReadSelf_of_captured p.name_ne (by decide) p.header_read.2
  have hbuffer := safeReadSelf_of_captured p.buffer_ne (by omega : p.path.length * 2 ≠ 0)
    p.buffer_read.2
  have hlen : word p.readHeader.bytes 0 2 - word p.readHeader.bytes 0 2 % 2
      = p.path.length * 2 := by
    rw [p.length_eq]
    omega
  have hunicode : unicodeAppend (some (cstr "path")) (some p.readHeader) (some p.readBuffer)
      (UInt64.ofNat (word p.readAttributes.bytes 16 8)) = pathAppend p.path := by
    rw [unicodeAppend, hheader]
    dsimp only
    rw [hlen, if_neg (show ¬ traceMaxStringBytes < p.path.length * 2 by omega), hbuffer]
    dsimp only
    have hgood : ¬ (UInt64.ofNat (word p.readAttributes.bytes 16 8) = 0
        ∨ ntSuccess p.readHeader.status = false) := by
      rintro (h | h)
      · exact p.name_ne h
      · cases h.symm.trans p.header_read.1
    have hgood' : ¬ (UInt64.ofNat (word p.readHeader.bytes 8 8) = 0 ∨ p.path.length * 2 = 0
        ∨ ntSuccess p.readBuffer.status = false) := by
      rintro (h | h | h)
      · exact p.buffer_ne h
      · omega
      · cases h.symm.trans p.buffer_read.1
    rw [if_neg hgood, if_neg hgood', Nat.mul_div_cancel _ (by decide : 0 < 2), p.chars_eq,
      wideAppend]
    rw [if_neg (by omega), decide_eq_false (by omega)]
    rfl
  have hgood : ¬ (p.address = 0 ∨ ntSuccess p.readAttributes.status = false) := by
    rintro (h | h)
    · exact p.address_ne h
    · cases h.symm.trans p.attributes_read.1
  rw [Call.addPath, AddCall.appends, hattributes]
  dsimp only
  rw [if_neg hgood, if_neg (fun hne => hne p.absolute), hunicode]

theorem pathAppend_field {path : List UInt16} (h : path.length ≤ 256) :
    (pathAppend path).field = pathField path := by
  have hsize : path.length * 2 % 65536 = (wideBytes path).length := by
    rw [wideBytes_length]
    omega
  have hvalue : bytesAt (wideBytes path) (path.length * 2 % 65536) = wideValue path := by
    rw [hsize, bytesAt_self, wideValue_of_le h]
  show fieldOf .wideString _ (bytesAt (wideBytes path) (path.length * 2 % 65536)) = _
  rw [hvalue]
  rfl

/-- A call makes one append, uncut, of the given field. -/
def Adds (c : AddCall) (f : TraceField) : Prop :=
  ∃ x, c.appends = [x] ∧ x.cut = false ∧ x.field = f

theorem adds_pointer {name : List UInt8} (hname : cValue name = name) (v : UInt64) :
    Adds (.pointer (some name) v) (pointerField name v) := by
  refine ⟨_, rfl, rfl, ?_⟩
  show fieldOf .pointer (cValue name) (bytesAt (leBytes 8 v.toNat) 8) = _
  have hvalue := bytesAt_self (leBytes 8 v.toNat)
  rw [leBytes_length] at hvalue
  rw [hname, hvalue]
  rfl

theorem adds_uint32 {name : List UInt8} (hname : cValue name = name) (v : UInt32) :
    Adds (.uint32 (some name) v) (uint32Field name v) := by
  refine ⟨_, rfl, rfl, ?_⟩
  show fieldOf .uint32 (cValue name) (bytesAt (leBytes 4 v.toNat) 4) = _
  have hvalue := bytesAt_self (leBytes 4 v.toNat)
  rw [leBytes_length] at hvalue
  rw [hname, hvalue]
  rfl

theorem adds_status (v : UInt32) : Adds (.status (some (cstr "result")) v) (statusField v) := by
  refine ⟨_, rfl, rfl, ?_⟩
  show fieldOf .status (cValue (cstr "result")) (bytesAt (leBytes 4 v.toNat) 4) = _
  have hvalue := bytesAt_self (leBytes 4 v.toNat)
  rw [leBytes_length] at hvalue
  rw [hvalue]
  rfl

theorem adds_preview (bypass : Option ReadOutcome) (buffer : UInt64) (length : UInt32) :
    Adds (.bufferPreview (some (cstr "buffer")) bypass buffer length)
      (previewField bypass buffer length) := ⟨_, rfl, rfl, rfl⟩

theorem adds_path (p : AbsolutePath) : Adds (Call.addPath p) (pathField p.path) :=
  ⟨_, addPath_appends p, rfl, pathAppend_field p.short⟩

theorem adds_transferFields (args : TransferArgs) :
    List.Forall₂ Adds (Call.transferFields args) (transferFieldsOf args) :=
  .cons (adds_pointer rfl _) <| .cons (adds_pointer rfl _) <| .cons (adds_pointer rfl _) <|
    .cons (adds_pointer rfl _) <| .cons (adds_pointer rfl _) <| .cons (adds_pointer rfl _) <|
    .cons (adds_uint32 rfl _) <| .cons (adds_pointer rfl _) <| .cons (adds_pointer rfl _) .nil

/-- Each call of a handler adds the field it is written for. -/
theorem adds_fields (c : Call) (r : Return) :
    List.Forall₂ Adds (c.before ++ c.after r) (c.fields r) := by
  cases c with
  | ntCreateFile args =>
      exact .cons (adds_uint32 rfl _) <| .cons (adds_path _) <| .cons (adds_pointer rfl _) <|
        .cons (adds_pointer rfl _) <| .cons (adds_uint32 rfl _) <|
        .cons (adds_uint32 rfl _) <| .cons (adds_uint32 rfl _) <|
        .cons (adds_uint32 rfl _) <| .cons (adds_pointer rfl _) <|
        .cons (adds_uint32 rfl _) <| .cons (adds_pointer rfl _) <| .cons (adds_status _) .nil
  | ntOpenFile args =>
      exact .cons (adds_uint32 rfl _) <| .cons (adds_path _) <| .cons (adds_pointer rfl _) <|
        .cons (adds_uint32 rfl _) <| .cons (adds_uint32 rfl _) <|
        .cons (adds_pointer rfl _) <| .cons (adds_status _) .nil
  | ntOpenKey args =>
      exact .cons (adds_uint32 rfl _) <| .cons (adds_path _) <| .cons (adds_pointer rfl _) <|
        .cons (adds_status _) .nil
  | ntReadFile args =>
      refine List.rel_append (adds_transferFields args) ?_
      by_cases hread : ntSuccess r.status ∧ args.ioStatusBlock ≠ 0
      · rw [Call.after, if_pos hread, if_pos hread]
        exact .cons (adds_preview _ _ _) <| .cons (adds_status _) .nil
      · rw [Call.after, if_neg hread, if_neg hread]
        exact .cons (adds_status _) .nil
  | ntWriteFile args preview =>
      rw [Call.before, Call.after, List.append_assoc]
      exact List.rel_append (adds_transferFields args) <|
        .cons (adds_preview _ _ _) <| .cons (adds_status _) .nil
  | ntClose handle => exact .cons (adds_pointer rfl _) <| .cons (adds_status _) .nil

theorem appends_of_adds {calls : List AddCall} {fs : List TraceField}
    (h : List.Forall₂ Adds calls fs) :
    (calls.flatMap AddCall.appends).map Append.field = fs ∧
      ∀ x ∈ calls.flatMap AddCall.appends, x.cut = false := by
  induction h with
  | nil => exact ⟨rfl, fun x hx => nomatch hx⟩
  | cons hadds _ ih =>
      obtain ⟨x, hx, hcut, hfield⟩ := hadds
      rw [List.flatMap_cons, hx]
      refine ⟨congrArg₂ List.cons hfield ih.1, fun y hy => ?_⟩
      rcases List.mem_cons.mp hy with rfl | hy
      · exact hcut
      · exact ih.2 y hy

/-! ## The names and the size of an event -/

theorem serialiseFields_length (fs : List TraceField) :
    (serialiseFields fs).length = sizeofFieldHeader * fs.length
      + (fs.map fun f => f.name.length).sum + (fs.map fun f => f.value.length).sum := by
  have h4 : sizeofFieldHeader = 4 := rfl
  induction fs with
  | nil => rfl
  | cons f rest ih =>
      rw [serialiseFields_cons, List.length_append, f.serialise_length, ih, List.map_cons,
        List.map_cons, List.sum_cons, List.sum_cons, List.length_cons, h4]
      omega

theorem previewField_length (bypass : Option ReadOutcome) (buffer : UInt64)
    (length : UInt32) : (previewField bypass buffer length).value.length ≤ 76 := by
  have h64 : traceMaxBufferBytes = 64 := rfl
  have h12 : sizeofBytesHeader = 12 := rfl
  have hcaptured := (captureTraceBuffer_captured bypass buffer length).1
  have hvalue : (previewField bypass buffer length).value.length
      = (sizeofBytesHeader + (captureTraceBuffer bypass buffer length).captured.toNat)
        % 65536 := bytesAt_length ..
  rw [hvalue]
  omega

theorem pathField_length (path : List UInt16) : (pathField path).value.length ≤ 512 := by
  show (wideValue path).length ≤ 512
  rw [wideValue_length]
  exact Nat.min_le_left _ _

/-- The names of the fields both transfer handlers may add. -/
def transferNames : List (List UInt8) :=
  [cstr "file_handle", cstr "event", cstr "apc_routine", cstr "apc_context",
    cstr "io_status_block", cstr "buffer_address", cstr "length", cstr "byte_offset",
    cstr "key", cstr "buffer", cstr "result"]

/-- The names of the fields an event may have. -/
def HookedApi.names : HookedApi → List (List UInt8)
  | .ntCreateFile =>
      [cstr "desired_access", cstr "path", cstr "io_status_block", cstr "allocation_size",
        cstr "file_attributes", cstr "share_access", cstr "create_disposition",
        cstr "create_options", cstr "ea_buffer", cstr "ea_length", cstr "file_handle",
        cstr "result"]
  | .ntOpenFile =>
      [cstr "desired_access", cstr "path", cstr "io_status_block", cstr "share_access",
        cstr "open_options", cstr "file_handle", cstr "result"]
  | .ntOpenKey => [cstr "desired_access", cstr "path", cstr "key_handle", cstr "result"]
  | .ntReadFile | .ntWriteFile => transferNames
  | .ntClose => [cstr "handle", cstr "result"]

theorem names_ok (api : HookedApi) :
    (∀ n ∈ api.names, FieldNameOk n) ∧ api.names.Nodup := by
  have htransfer : (∀ n ∈ transferNames, FieldNameOk n) ∧ transferNames.Nodup := by
    decide +kernel
  cases api with
  | ntReadFile => exact htransfer
  | ntWriteFile => exact htransfer
  | ntCreateFile => exact by decide +kernel
  | ntOpenFile => exact by decide +kernel
  | ntOpenKey => exact by decide +kernel
  | ntClose => exact by decide +kernel

theorem fields_names (c : Call) (r : Return) :
    ((c.fields r).map TraceField.name).Sublist c.api.names := by
  cases c with
  | ntCreateFile args => exact List.Sublist.refl (HookedApi.names .ntCreateFile)
  | ntOpenFile args => exact List.Sublist.refl (HookedApi.names .ntOpenFile)
  | ntOpenKey args => exact List.Sublist.refl (HookedApi.names .ntOpenKey)
  | ntReadFile args =>
      rw [Call.fields]
      split
      · exact List.Sublist.refl transferNames
      · have hmissing : ((transferFieldsOf args ++ ([] ++ [statusField r.status])).map
            TraceField.name) = transferNames.eraseIdx 9 := rfl
        rw [hmissing]
        exact List.eraseIdx_sublist transferNames 9
  | ntWriteFile args preview => exact List.Sublist.refl transferNames
  | ntClose handle => exact List.Sublist.refl (HookedApi.names .ntClose)

/-- A transfer. -/
def Call.isTransfer : Call → Bool
  | .ntReadFile _ | .ntWriteFile _ _ => true
  | _ => false

theorem transferFieldsOf_length (args : TransferArgs) :
    (serialiseFields (transferFieldsOf args)).length = 191 := by
  rw [serialiseFields_length]
  rfl

theorem result_length (status : UInt32) :
    (serialiseFields [statusField status]).length = 14 := by
  rw [serialiseFields_length]
  rfl

theorem preview_length (bypass : Option ReadOutcome) (buffer : UInt64) (length : UInt32) :
    (serialiseFields [previewField bypass buffer length]).length ≤ 86 := by
  have hvalue := previewField_length bypass buffer length
  rw [serialiseFields_length]
  show 4 * 1 + (6 + 0) + ((previewField bypass buffer length).value.length + 0) ≤ 86
  omega

/-- An event fits, and a transfer leaves room for a path. -/
theorem fields_length (c : Call) (r : Return) :
    (serialiseFields (c.fields r)).length ≤ 762 ∧
      (c.isTransfer = true → (serialiseFields (c.fields r)).length ≤ 291) := by
  cases c with
  | ntCreateFile args =>
      refine ⟨?_, fun h => nomatch h⟩
      have hpath := pathField_length args.objectAttributes.path
      have hnames : ((Call.fields r (.ntCreateFile args)).map fun f => f.name.length).sum
          = 142 := rfl
      rw [serialiseFields_length, hnames]
      show 4 * 12 + 142 + (4 + ((pathField args.objectAttributes.path).value.length
        + (8 + (8 + (4 + (4 + (4 + (4 + (8 + (4 + (8 + (4 + 0)))))))))))) ≤ 762
      omega
  | ntOpenFile args =>
      refine ⟨?_, fun h => nomatch h⟩
      have hpath := pathField_length args.objectAttributes.path
      have hnames : ((Call.fields r (.ntOpenFile args)).map fun f => f.name.length).sum
          = 74 := rfl
      rw [serialiseFields_length, hnames]
      show 4 * 7 + 74 + (4 + ((pathField args.objectAttributes.path).value.length
        + (8 + (4 + (4 + (8 + (4 + 0))))))) ≤ 762
      omega
  | ntOpenKey args =>
      refine ⟨?_, fun h => nomatch h⟩
      have hpath := pathField_length args.objectAttributes.path
      have hnames : ((Call.fields r (.ntOpenKey args)).map fun f => f.name.length).sum
          = 34 := rfl
      rw [serialiseFields_length, hnames]
      show 4 * 4 + 34 + (4 + ((pathField args.objectAttributes.path).value.length
        + (8 + (4 + 0)))) ≤ 762
      omega
  | ntReadFile args =>
      have hresult := result_length r.status
      -- a failed read has no preview, so its event is shorter
      have hpreview := preview_length r.preview args.buffer (Call.bytesRead args r)
      rw [Call.fields, serialiseFields_append, serialiseFields_append, List.length_append,
        List.length_append, transferFieldsOf_length]
      split
      · omega
      · rw [hresult]
        show 191 + (0 + 14) ≤ 762 ∧ (_ → 191 + (0 + 14) ≤ 291)
        omega
  | ntWriteFile args preview =>
      have hresult := result_length r.status
      have hpreview := preview_length preview args.buffer args.length
      have hsplit : (serialiseFields [previewField preview args.buffer args.length,
          statusField r.status]).length
          = (serialiseFields [previewField preview args.buffer args.length]).length
            + (serialiseFields [statusField r.status]).length := by
        rw [← List.length_append, ← serialiseFields_append]
        rfl
      rw [Call.fields, serialiseFields_append, List.length_append, transferFieldsOf_length,
        hsplit]
      omega
  | ntClose handle =>
      have hlen : (serialiseFields (Call.fields r (.ntClose handle))).length = 32 := by
        rw [serialiseFields_length]
        rfl
      rw [hlen]
      exact ⟨by decide, fun _ => by decide⟩

/-! ## The event -/

theorem initialize_ok (api : HookedApi) (threadId : UInt32) (timestamp100ns : UInt64) :
    (initializeTraceEvent (some (cstr "ntdll.dll")) (some api.name) threadId
      timestamp100ns).2 = true := by
  cases api <;> rfl

theorem apiName_length (api : HookedApi) :
    api.name.length ≤ 12 ∧ cValue api.name = api.name := by
  cases api <;> exact ⟨by decide, by decide⟩

/-- The event a handler starts with: the names, and no field or flag. -/
theorem represents_initialized (api : HookedApi) (threadId : UInt32)
    (timestamp100ns : UInt64) :
    let e := (initializeTraceEvent (some (cstr "ntdll.dll")) (some api.name) threadId
      timestamp100ns).1
    Represents e (cstr "ntdll.dll") api.name [] ∧ e.flags = 0 ∧ e.size ≤ 53 := by
  have hinit : initializeTraceEvent (some (cstr "ntdll.dll")) (some api.name) threadId
      timestamp100ns = ((initializeTraceEvent (some (cstr "ntdll.dll")) (some api.name)
        threadId timestamp100ns).1, true) :=
    Prod.ext rfl (initialize_ok api threadId timestamp100ns)
  obtain ⟨m, a, hm, ha, hrep, hflags⟩ := initialize_represents hinit
  cases hm
  cases ha
  rw [(apiName_length api).2] at hrep
  refine ⟨hrep, hflags, ?_⟩
  have h12 := (apiName_length api).1
  have h9 : (cValue (cstr "ntdll.dll")).length = 9 := by decide
  rw [hrep.size, List.length_append, List.length_append, h9]
  show 32 + (9 + (api.name.length + 0)) ≤ 53
  omega

/-- **THE EVENT OF A CALL** has exactly the fields of its handler. -/
theorem represents_emittedEvent (c : Call) (threadId : UInt32) (timestamp100ns : UInt64)
    (r : Return) :
    Represents (c.emittedEvent (c.entryEvent threadId timestamp100ns) r) (cstr "ntdll.dll")
      c.api.name (c.fields r) := by
  obtain ⟨hrep, -, hsize⟩ := represents_initialized c.api threadId timestamp100ns
  obtain ⟨hfields, hcut⟩ := appends_of_adds (adds_fields c r)
  have hsub := fields_names c r
  obtain ⟨hok, hnodup⟩ := names_ok c.api
  have hplain : ∀ x ∈ (c.before ++ c.after r).flatMap AddCall.appends, Plain x := by
    intro x hx
    have hfield : x.field ∈ c.fields r := by
      rw [← hfields]
      exact List.mem_map_of_mem hx
    obtain ⟨call, -, hxc⟩ := List.mem_flatMap.mp hx
    exact ⟨hcut x hx, hok _ (hsub.subset (List.mem_map_of_mem hfield)),
      appends_ok call x hxc⟩
  have hall := represents_addAll _ hrep hplain (by
    rw [hfields, List.nil_append]
    exact hsub.nodup hnodup) (by
    have h762 := (fields_length c r).1
    have hmax : traceMaxEventBytes = 1024 := rfl
    rw [hfields]
    omega)
  rw [hfields] at hall
  have hrun : c.emittedEvent (c.entryEvent threadId timestamp100ns) r
      = (addAll (initializeTraceEvent (some (cstr "ntdll.dll")) (some c.api.name) threadId
        timestamp100ns).1 ((c.before ++ c.after r).flatMap AddCall.appends)).1 := by
    rw [Call.emittedEvent, Call.entryEvent, runCalls_fst, runCalls_fst, ← addAll_append,
      List.flatMap_append]
  rw [hrun]
  exact hall

/-- The event of a transfer leaves room for a path. -/
theorem room_for_path {e : TraceEvent} {c : Call} {r : Return}
    (h : Represents e (cstr "ntdll.dll") c.api.name (c.fields r))
    (hc : c.isTransfer = true) (path : List UInt16) :
    e.size + (pathField path).serialise.length ≤ traceMaxEventBytes := by
  have h12 := (apiName_length c.api).1
  have h9 : (cstr "ntdll.dll").length = 9 := by decide
  have hname : (pathField path).name.length = 4 := rfl
  have hvalue := pathField_length path
  have hlen := (fields_length c r).2 hc
  rw [h.size, List.length_append, List.length_append, TraceField.serialise_length, h9, hname]
  show 32 + (9 + (c.api.name.length + _)) + (4 + 4 + _) ≤ 1024
  omega

/-! ## What the tracker makes of a call -/

section Lookups

variable {fs : List TraceField} {name : List UInt8}

theorem handleNamed_pointer {v : UInt64}
    (h : fieldNamed fs name = some (pointerField name v)) : handleNamed fs name = some v := by
  have hword : leNat (leBytes 8 v.toNat) = v.toNat := leNat_leBytes_of_lt v.toNat_lt
  rw [handleNamed, h]
  show some (UInt64.ofNat (leNat (leBytes 8 v.toNat))) = some v
  rw [hword, UInt64.ofNat_toNat]

theorem handleNamed_none (h : fieldNamed fs name = none) : handleNamed fs name = none := by
  rw [handleNamed, h]

theorem wideNamed_path {path : List UInt16} (hshort : path.length ≤ 256)
    (h : fieldNamed fs (cstr "path") = some (pathField path)) :
    wideNamed fs (cstr "path") = some path := by
  rw [wideNamed_pathField h, List.take_of_length_le hshort]

theorem statusSucceeded_eq (status : UInt32) :
    statusSucceeded status.toNat = ntSuccess status := by
  rw [statusSucceeded, ntSuccess, UInt32.ofNat_toNat]
  refine decide_eq_decide.mpr ?_
  rw [Int32.le_iff_toInt_le, UInt32.lt_iff_toNat_lt]
  have hint : status.toInt32.toInt = (status.toNat : Int).bmod (2 ^ 32) :=
    BitVec.toInt_eq_toNat_bmod status.toBitVec
  have hlt := status.toNat_lt
  rw [hint, Int.bmod_def]
  show 0 ≤ _ ↔ status.toNat < 2147483648
  omega

theorem succeeded_status {status : UInt32}
    (h : fieldNamed fs (cstr "result") = some (statusField status)) :
    succeeded fs = ntSuccess status := by
  have hword : leNat (leBytes 4 status.toNat) = status.toNat :=
    leNat_leBytes_of_lt status.toNat_lt
  rw [succeeded, h, ← statusSucceeded_eq]
  show statusSucceeded (leNat (leBytes 4 status.toNat)) = _
  rw [hword]

end Lookups

namespace Call

/-- The path an opening call opens. -/
def openPath : Call → Option AbsolutePath
  | ntCreateFile args => some args.objectAttributes
  | ntOpenFile args => some args.objectAttributes
  | ntOpenKey args => some args.objectAttributes
  | _ => none

/-- The handle a transfer uses. -/
def transferHandle : Call → Option UInt64
  | ntReadFile args => some args.fileHandle
  | ntWriteFile args _ => some args.fileHandle
  | _ => none

/-- What a call does to the open handles, and so to the tracker. -/
def act (c : Call) (r : Return) : KeyAct UInt64 (List UInt16) :=
  match c with
  | ntCreateFile ⟨_, p, _, _, _, _, _, _, _, _⟩ | ntOpenFile ⟨_, p, _, _, _⟩
  | ntOpenKey ⟨_, p⟩ =>
      if ntSuccess r.status ∧ r.handle ≠ 0 then .put r.handle p.path else .skip
  | ntReadFile args | ntWriteFile args _ => .look args.fileHandle
  | ntClose handle => if ntSuccess r.status ∧ handle ≠ 0 then .drop handle else .skip

end Call

/-- The table after an action. -/
def trackAct (t : HandlePathTracker) : KeyAct UInt64 (List UInt16) → HandlePathTracker
  | .put handle path => t.record handle path
  | .drop handle => t.forget handle
  | .look _ => t
  | .skip => t

/-- The lookups the tracker makes among the fields of an opening call. -/
theorem fields_of_open {c : Call} {p : AbsolutePath} (hc : c.openPath = some p)
    (r : Return) :
    fieldNamed (c.fields r) (cstr "path") = some (pathField p.path) ∧
      handleNamed (c.fields r) (cstr "root_directory") = none ∧
      objectHandle (c.fields r) = some (Call.openedHandle r) ∧
      handleNamed (c.fields r) (cstr "handle") = none ∧
      succeeded (c.fields r) = ntSuccess r.status := by
  cases c with
  | ntCreateFile args =>
      cases hc
      refine ⟨rfl, handleNamed_none rfl, ?_, handleNamed_none rfl, succeeded_status rfl⟩
      rw [objectHandle, @handleNamed_pointer _ (cstr "file_handle") (Call.openedHandle r) rfl]
  | ntOpenFile args =>
      cases hc
      refine ⟨rfl, handleNamed_none rfl, ?_, handleNamed_none rfl, succeeded_status rfl⟩
      rw [objectHandle, @handleNamed_pointer _ (cstr "file_handle") (Call.openedHandle r) rfl]
  | ntOpenKey args =>
      cases hc
      refine ⟨rfl, handleNamed_none rfl, ?_, handleNamed_none rfl, succeeded_status rfl⟩
      rw [objectHandle, @handleNamed_none _ (cstr "file_handle") rfl,
        @handleNamed_pointer _ (cstr "key_handle") (Call.openedHandle r) rfl]
  | ntReadFile args => cases hc
  | ntWriteFile args preview => cases hc
  | ntClose handle => cases hc

theorem fields_of_transfer {c : Call} {handle : UInt64}
    (hc : c.transferHandle = some handle) (r : Return) :
    fieldNamed (c.fields r) (cstr "path") = none ∧
      objectHandle (c.fields r) = some handle ∧
      handleNamed (c.fields r) (cstr "handle") = none := by
  cases c with
  | ntReadFile args =>
      cases hc
      rw [Call.fields]
      split
      · refine ⟨rfl, ?_, handleNamed_none rfl⟩
        rw [objectHandle, @handleNamed_pointer _ (cstr "file_handle") args.fileHandle rfl]
      · refine ⟨rfl, ?_, handleNamed_none rfl⟩
        rw [objectHandle, @handleNamed_pointer _ (cstr "file_handle") args.fileHandle rfl]
  | ntWriteFile args preview =>
      cases hc
      refine ⟨rfl, ?_, handleNamed_none rfl⟩
      rw [objectHandle, @handleNamed_pointer _ (cstr "file_handle") args.fileHandle rfl]
  | ntCreateFile args => cases hc
  | ntOpenFile args => cases hc
  | ntOpenKey args => cases hc
  | ntClose handle => cases hc

theorem fields_of_close (handle : UInt64) (r : Return) :
    fieldNamed (Call.fields r (.ntClose handle)) (cstr "path") = none ∧
      handleNamed (Call.fields r (.ntClose handle)) (cstr "handle") = some handle ∧
      succeeded (Call.fields r (.ntClose handle)) = ntSuccess r.status :=
  ⟨rfl, handleNamed_pointer rfl, succeeded_status rfl⟩

/-- An opening call records its path under the handle it got. -/
theorem track_open {c : Call} {p : AbsolutePath} (hc : c.openPath = some p) (r : Return)
    (t : HandlePathTracker) :
    evictFields (observeFields t (c.fields r)) (c.fields r)
      = if ntSuccess r.status ∧ r.handle ≠ 0 then t.record r.handle p.path else t := by
  obtain ⟨hpath, hroot, hobject, hhandle, hok⟩ := fields_of_open hc r
  rw [evictFields_no_handle _ hhandle, observeFields, sourceOf,
    wideNamed_path p.short hpath, hobject, hok]
  dsimp only
  rw [Call.openedHandle]
  by_cases hs : ntSuccess r.status = true
  · rw [if_pos hs]
    by_cases hzero : r.handle = 0
    · rw [if_neg (fun hand => hand.2.1 hzero), if_neg (fun hand => hand.2 hzero)]
    · rw [if_pos ⟨p.nonempty, hzero, hs⟩, if_pos ⟨hs, hzero⟩]
      dsimp only
      rw [openedPath, hroot]
  · rw [if_neg hs, if_neg (fun hand => hs hand.2.2), if_neg (fun hand => hs hand.1)]

/-- **ONE EVENT OF A CALL** moves the table as the call does. -/
theorem writeEvent_call {e : TraceEvent} {c : Call} {r : Return}
    (h : Represents e (cstr "ntdll.dll") c.api.name (c.fields r))
    (t : HandlePathTracker) : (writeEvent t e).1 = trackAct t (c.act r) := by
  rw [writeEvent_fst h]
  have hopen : ∀ p, c.openPath = some p →
      c.act r = (if ntSuccess r.status ∧ r.handle ≠ 0 then .put r.handle p.path else .skip) →
      evictFields (observeFields t (c.fields r)) (c.fields r) = trackAct t (c.act r) := by
    intro p hc hact
    rw [track_open hc, hact]
    by_cases hs : ntSuccess r.status ∧ r.handle ≠ 0
    · rw [if_pos hs, if_pos hs]
      rfl
    · rw [if_neg hs, if_neg hs]
      rfl
  have htransfer : ∀ handle, c.transferHandle = some handle → c.act r = .look handle →
      evictFields (observeFields t (c.fields r)) (c.fields r) = trackAct t (c.act r) := by
    intro handle hc hact
    obtain ⟨hpath, -, hhandle⟩ := fields_of_transfer hc r
    rw [observeFields_no_path t hpath, evictFields_no_handle t hhandle, hact]
    rfl
  cases c with
  | ntCreateFile args => exact hopen _ rfl rfl
  | ntOpenFile args => exact hopen _ rfl rfl
  | ntOpenKey args => exact hopen _ rfl rfl
  | ntReadFile args => exact htransfer _ rfl rfl
  | ntWriteFile args preview => exact htransfer _ rfl rfl
  | ntClose handle =>
      obtain ⟨hpath, hhandle, hok⟩ := fields_of_close handle r
      rw [observeFields_no_path t hpath, evictFields, releasedBy, hhandle, hok, Call.act]
      dsimp only
      by_cases hs : ntSuccess r.status ∧ handle ≠ 0
      · rw [if_pos hs, if_pos ⟨hs.2, hs.1⟩]
        rfl
      · rw [if_neg hs, if_neg (fun hand => hs ⟨hand.2, hand.1⟩)]
        rfl

/-- **THE EVENT OF A TRANSFER** leaves the writer with the path the table has
    for its handle. -/
theorem writeEvent_transfer {e : TraceEvent} {c : Call} {r : Return} {handle : UInt64}
    (h : Represents e (cstr "ntdll.dll") c.api.name (c.fields r))
    (hc : c.transferHandle = some handle) (t : HandlePathTracker)
    (hzero : t.find 0 = none)
    (hshort : ∀ path, t.find handle = some path → path.length ≤ 256) :
    (readWideString (cstr "path")).run (writeEvent t e).2.byte = t.find handle := by
  obtain ⟨hpath, hobject, -⟩ := fields_of_transfer hc r
  have htransfer : c.isTransfer = true := by
    cases c <;> first | rfl | cases hc
  have hannotated : annotationOf t (c.fields r) = t.find handle := by
    rw [annotationOf, hpath, hobject]
    dsimp only
    by_cases h0 : handle = 0
    · rw [if_pos h0, h0, hzero]
    · rw [if_neg h0]
  rw [writeEvent_snd h, observeFields_no_path t hpath]
  cases hfind : t.find handle with
  | none =>
      have hself : annotate t e = e := annotate_eq_self h (by
        rw [hannotated, hfind]
        intro path hsome
        cases hsome)
      rw [hself, run_readWideString h, wideNamed, hpath]
  | some path =>
      have hrep := annotate_represents h (hannotated.trans hfind)
        (room_for_path h htransfer path)
      rw [run_readWideString hrep]
      refine wideNamed_path (hshort path hfind) ?_
      rw [fieldNamed, List.find?_append]
      rw [fieldNamed] at hpath
      rw [hpath]
      rfl

end ScopeHandlers
