import ApiScope.ReadProgramProofs

/-! # The trace protocol — one event is 1024 packed bytes

    `trace_protocol.h`: the constants shared by the two binaries, the field
    types, and `TraceEvent` itself.  The struct is packed, so an event is its
    1024 bytes and every header member is the little-endian word at a fixed
    offset; the payload starts at offset 32.

    Members are read as natural numbers (`TraceEvent.size` and its
    neighbours) and written back cut to their width, as the C assignments
    are. -/

namespace ScopeProtocol

open ScopeBytes ScopeRead

/-! ## Constants -/

def traceEventMagic : Nat := 0x53495041
def traceEventVersion : Nat := 6
def traceMaxEventBytes : Nat := 1024
def traceMaxModuleNameBytes : Nat := 63
def traceMaxApiNameBytes : Nat := 63
def traceMaxFieldNameBytes : Nat := 63
def traceMaxBufferBytes : Nat := 64
def traceMaxStringBytes : Nat := 512

def traceEventFlagTruncated : Nat := 1
def traceEventFlagFieldError : Nat := 2

/-- `sizeof(TraceEventHeader)`. -/
def sizeofEventHeader : Nat := 32

/-- `sizeof(TraceFieldHeader)`. -/
def sizeofFieldHeader : Nat := 4

/-- `sizeof(TraceBytesHeader)`. -/
def sizeofBytesHeader : Nat := 12

/-- `TraceFieldType`. -/
inductive TraceFieldType where
  | pointer
  | uint32
  | uint64
  | status
  | bytes
  | int32
  | int64
  | boolean
  | wideString
  deriving DecidableEq, Repr

namespace TraceFieldType

/-- The value the enumerator has on the wire. -/
def code : TraceFieldType → Nat
  | pointer => 1
  | uint32 => 2
  | uint64 => 3
  | status => 4
  | bytes => 5
  | int32 => 6
  | int64 => 7
  | boolean => 8
  | wideString => 9

/-- The enumerator of a wire value; any other value is an unknown type. -/
def ofCode : Nat → Option TraceFieldType
  | 1 => some pointer
  | 2 => some uint32
  | 3 => some uint64
  | 4 => some status
  | 5 => some bytes
  | 6 => some int32
  | 7 => some int64
  | 8 => some boolean
  | 9 => some wideString
  | _ => none

@[simp] theorem ofCode_code (t : TraceFieldType) : ofCode t.code = some t := by
  cases t <;> rfl

theorem code_lt (t : TraceFieldType) : t.code < 256 := by
  cases t <;> decide

end TraceFieldType

/-- Texts are lists of bytes, and are compared byte by byte. -/
instance lawfulBEqText : LawfulBEq (List UInt8) := List.instLawfulBEq

/-- The bytes of a C string literal, without its terminator. -/
def cstr (s : String) : List UInt8 := s.toList.map fun c => c.toNat.toUInt8

/-- The bytes of a literal, from its characters. -/
theorem cstr_ofList (chars : List Char) :
    cstr (String.ofList chars) = chars.map fun c => c.toNat.toUInt8 := by
  rw [cstr, String.toList_ofList]

theorem cstr_all {p : UInt8 → Bool} (chars : List Char)
    (h : (chars.map fun c => c.toNat.toUInt8).all p = true) :
    (cstr (String.ofList chars)).all p = true := by
  rw [cstr_ofList]
  exact h

/-! ## Wide characters -/

/-- Wide characters in memory. -/
def wideBytes (chars : List UInt16) : List UInt8 :=
  chars.flatMap fun c => leBytes 2 c.toNat

/-- The wide characters of a run of bytes; an odd last byte is dropped. -/
def wideOfBytes : List UInt8 → List UInt16
  | lo :: hi :: rest => UInt16.ofNat (leNat [lo, hi]) :: wideOfBytes rest
  | _ => []

theorem wideBytes_cons (c : UInt16) (cs : List UInt16) :
    wideBytes (c :: cs) = leBytes 2 c.toNat ++ wideBytes cs := rfl

@[simp] theorem wideBytes_length (chars : List UInt16) :
    (wideBytes chars).length = chars.length * 2 := by
  induction chars with
  | nil => rfl
  | cons c cs ih =>
      rw [wideBytes_cons, List.length_append, ih, leBytes_length, List.length_cons]
      omega

/-- Characters survive the way through memory. -/
theorem wideOfBytes_wideBytes (chars : List UInt16) :
    wideOfBytes (wideBytes chars) = chars := by
  induction chars with
  | nil => rfl
  | cons c cs ih =>
      have hword : leNat (leBytes 2 c.toNat) = c.toNat :=
        leNat_leBytes_of_lt (UInt16.toNat_lt c)
      have hback : UInt16.ofNat (leNat (leBytes 2 c.toNat)) = c := by
        rw [hword]
        exact UInt16.ofNat_toNat
      show UInt16.ofNat (leNat (leBytes 2 c.toNat)) :: wideOfBytes (wideBytes cs) = c :: cs
      rw [hback, ih]

theorem wideBytes_take (chars : List UInt16) (n : Nat) :
    (wideBytes chars).take (n * 2) = wideBytes (chars.take n) := by
  induction chars generalizing n with
  | nil =>
      rw [List.take_nil]
      exact List.take_nil
  | cons c cs ih =>
      cases n with
      | zero => rfl
      | succ n =>
          rw [List.take_succ_cons, wideBytes_cons, wideBytes_cons, List.take_append,
            leBytes_length, List.take_of_length_le (by rw [leBytes_length]; omega),
            show (n + 1) * 2 - 2 = n * 2 by omega, ih]

/-! ## Events -/

/-- `TraceEvent`: header and payload, as one run of bytes. -/
@[ext] structure TraceEvent where
  bytes : Fin traceMaxEventBytes → UInt8

namespace TraceEvent

/-- The event as memory; nothing outside the struct is modelled. -/
def byte (e : TraceEvent) : Memory :=
  fun i => if h : i < traceMaxEventBytes then e.bytes ⟨i, h⟩ else 0

/-- The all-zero event. -/
def zero : TraceEvent := ⟨fun _ => 0⟩

/-- Overwrite a run of the event. -/
def store (e : TraceEvent) (off : Nat) (data : List UInt8) : TraceEvent :=
  ⟨fun i => ScopeBytes.store e.byte off data i⟩

/-- A run of the event. -/
def slice (e : TraceEvent) (off n : Nat) : List UInt8 :=
  ScopeBytes.slice e.byte off n

theorem byte_of_lt (e : TraceEvent) {i : Nat} (h : i < traceMaxEventBytes) :
    e.byte i = e.bytes ⟨i, h⟩ := by
  rw [byte, dif_pos h]

theorem byte_of_ge (e : TraceEvent) {i : Nat} (h : traceMaxEventBytes ≤ i) :
    e.byte i = 0 := by
  rw [byte, dif_neg (by omega)]

@[simp] theorem byte_zero : zero.byte = fun _ => 0 := by
  funext i
  unfold byte
  split <;> rfl

/-- A store inside the struct is a store to its memory. -/
theorem byte_store (e : TraceEvent) {off : Nat} {data : List UInt8}
    (h : off + data.length ≤ traceMaxEventBytes) :
    (e.store off data).byte = ScopeBytes.store e.byte off data := by
  funext i
  by_cases hi : i < traceMaxEventBytes
  · rw [byte_of_lt _ hi, store]
  · rw [byte_of_ge _ (by omega), store_outside (by omega),
      byte_of_ge _ (by omega)]

/-! ### Header members -/

def magic (e : TraceEvent) : Nat := word e.byte 0 4
def version (e : TraceEvent) : Nat := word e.byte 4 2
def size (e : TraceEvent) : Nat := word e.byte 6 2
def flags (e : TraceEvent) : Nat := word e.byte 8 2
def fieldCount (e : TraceEvent) : Nat := word e.byte 10 2
def sequence (e : TraceEvent) : Nat := word e.byte 12 4
def timestamp100ns (e : TraceEvent) : Nat := word e.byte 16 8
def threadId (e : TraceEvent) : Nat := word e.byte 24 4
def moduleNameLength (e : TraceEvent) : Nat := word e.byte 28 1
def apiNameLength (e : TraceEvent) : Nat := word e.byte 29 1

/-- Assign the `n`-byte member at `off`. -/
def setWord (e : TraceEvent) (off n v : Nat) : TraceEvent :=
  e.store off (leBytes n v)

def setMagic (e : TraceEvent) (v : Nat) : TraceEvent := e.setWord 0 4 v
def setVersion (e : TraceEvent) (v : Nat) : TraceEvent := e.setWord 4 2 v
def setSize (e : TraceEvent) (v : Nat) : TraceEvent := e.setWord 6 2 v
def setFlags (e : TraceEvent) (v : Nat) : TraceEvent := e.setWord 8 2 v
def setFieldCount (e : TraceEvent) (v : Nat) : TraceEvent := e.setWord 10 2 v
def setSequence (e : TraceEvent) (v : Nat) : TraceEvent := e.setWord 12 4 v
def setTimestamp100ns (e : TraceEvent) (v : Nat) : TraceEvent := e.setWord 16 8 v
def setThreadId (e : TraceEvent) (v : Nat) : TraceEvent := e.setWord 24 4 v
def setModuleNameLength (e : TraceEvent) (v : Nat) : TraceEvent := e.setWord 28 1 v
def setApiNameLength (e : TraceEvent) (v : Nat) : TraceEvent := e.setWord 29 1 v

/-- `event->header.flags |= flag`. -/
def orFlags (e : TraceEvent) (flag : Nat) : TraceEvent :=
  e.setFlags (e.flags ||| flag)

theorem byte_setWord (e : TraceEvent) {off n v : Nat}
    (h : off + n ≤ traceMaxEventBytes) :
    (e.setWord off n v).byte = ScopeBytes.store e.byte off (leBytes n v) :=
  e.byte_store (by rw [leBytes_length]; exact h)

/-- Assigning a member reads back, cut to its width. -/
theorem word_setWord_self (e : TraceEvent) {off n v : Nat}
    (h : off + n ≤ traceMaxEventBytes) :
    word (e.setWord off n v).byte off n = v % 256 ^ n := by
  rw [byte_setWord e h, word_store_self]

/-- Assigning a member leaves every disjoint member alone. -/
theorem word_setWord_of_disjoint (e : TraceEvent) {off n v off' n' : Nat}
    (h : off + n ≤ traceMaxEventBytes)
    (hd : off' + n' ≤ off ∨ off + n ≤ off') :
    word (e.setWord off n v).byte off' n' = word e.byte off' n' := by
  rw [byte_setWord e h, word_store_disjoint (by rw [leBytes_length]; exact hd)]

theorem byte_setWord_of_outside (e : TraceEvent) {off n v i : Nat}
    (h : off + n ≤ traceMaxEventBytes) (hi : i < off ∨ off + n ≤ i) :
    (e.setWord off n v).byte i = e.byte i := by
  rw [byte_setWord e h, store_outside (by rw [leBytes_length]; exact hi)]

/-- A flag is a store to bytes 8 and 9. -/
theorem byte_orFlags (e : TraceEvent) (flag : Nat) {i : Nat} (h : i < 8 ∨ 10 ≤ i) :
    (e.orFlags flag).byte i = e.byte i :=
  e.byte_setWord_of_outside (by decide) h

theorem flags_lt (e : TraceEvent) : e.flags < 2 ^ 16 := word_lt _ _ _

theorem flags_orFlags (e : TraceEvent) {flag : Nat} (h : flag < 2 ^ 16) :
    (e.orFlags flag).flags = e.flags ||| flag := by
  have hlt : e.flags ||| flag < 2 ^ 16 := Nat.or_lt_two_pow e.flags_lt h
  exact (e.word_setWord_self (by decide)).trans (Nat.mod_eq_of_lt hlt)

theorem size_lt (e : TraceEvent) : e.size < 65536 := word_lt _ _ _

/-- Every header member lies below offset 32, so events that agree there have
    equal members. -/
theorem word_congr_header {e e' : TraceEvent}
    (h : ∀ i, i < sizeofEventHeader → e.byte i = e'.byte i) {off n : Nat}
    (hn : off + n ≤ sizeofEventHeader) :
    word e.byte off n = word e'.byte off n :=
  word_congr fun i _ h2 => h i (by omega)

end TraceEvent

end ScopeProtocol
