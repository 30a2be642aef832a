import Mathlib.Data.List.Nodup
import Mathlib.Data.Nat.Init
import Mathlib.Tactic.SplitIfs

/-! # JSON — texts, values and the round trip

    The JSON of RFC 8259 over UTF-8 bytes: values, a reader for the whole
    grammar, a printer, and the theorem that the reader gives a printed value
    back.  A text is a list of bytes; a string of a value is the UTF-8 text it
    denotes, so the reader undoes every escape, surrogate pairs included.

    A number is read exactly, as a mantissa and a power of ten.  The reader
    recurses on a bound that the length of the text always meets. -/

namespace ScopeJson

/-- The byte of an ASCII character. -/
def ch (c : Char) : UInt8 := UInt8.ofNat c.toNat

/-- The bytes of an ASCII string. -/
def lit (s : String) : List UInt8 := s.toList.map ch

/-! ## Digits -/

/-- The value of a hexadecimal digit of either case. -/
def digitValue (b : UInt8) : Option Nat :=
  if ch '0' ≤ b ∧ b ≤ ch '9' then some (b.toNat - 48)
  else if ch 'a' ≤ b ∧ b ≤ ch 'f' then some (b.toNat - 87)
  else if ch 'A' ≤ b ∧ b ≤ ch 'F' then some (b.toNat - 55)
  else none

/-- One more digit. -/
def pushDigit (base n : Nat) (b : UInt8) : Option Nat := do
  let d ← digitValue b
  if d < base then some (base * n + d) else none

/-- The number with the given digits, most significant first. -/
def ofRadix (base : Nat) (digits : List UInt8) : Option Nat :=
  digits.foldlM (pushDigit base) 0

theorem ofRadix_append (base : Nat) (ds es : List UInt8) :
    ofRadix base (ds ++ es)
      = (ofRadix base ds).bind fun n => es.foldlM (pushDigit base) n :=
  List.foldlM_append

/-- `f` prints each digit below the base as a digit of that value. -/
def Prints (base : Nat) (f : Char → UInt8) : Prop :=
  ∀ d < base, digitValue (f d.digitChar) = some d

theorem pushDigit_printed {base : Nat} {f : Char → UInt8} (hf : Prints base f) {d : Nat}
    (hd : d < base) (n : Nat) : pushDigit base n (f d.digitChar) = some (base * n + d) := by
  simp only [pushDigit, hf d hd, Option.bind_eq_bind, Option.bind_some, if_pos hd]

/-- **DIGITS READ BACK**, in any base and through any way to print a digit. -/
theorem ofRadix_toDigits {base : Nat} (hbase : 1 < base) {f : Char → UInt8}
    (hf : Prints base f) (n : Nat) :
    ofRadix base ((Nat.toDigits base n).map f) = some n := by
  induction n using Nat.strongRecOn with
  | ind n ih =>
      rcases Nat.lt_or_ge n base with hlt | hge
      · rw [Nat.toDigits_of_lt_base hlt, List.map_singleton, ofRadix, List.foldlM_cons,
          pushDigit_printed hf hlt, Nat.mul_zero, Nat.zero_add]
        rfl
      · have hmod : n % base < base := Nat.mod_lt n (by omega)
        rw [Nat.toDigits_of_base_le hbase hge, List.map_append, ofRadix_append,
          ih (n / base) (Nat.div_lt_self (by omega) hbase), Option.bind_some,
          List.map_singleton, List.foldlM_cons, pushDigit_printed hf hmod,
          Nat.div_add_mod n base]
        rfl

/-- The characters of a number are digits below the base. -/
theorem mem_toDigits {base : Nat} (hbase : 1 < base) {n : Nat} {c : Char}
    (h : c ∈ Nat.toDigits base n) : ∃ d < base, c = d.digitChar := by
  induction n using Nat.strongRecOn with
  | ind n ih =>
      rcases Nat.lt_or_ge n base with hlt | hge
      · rw [Nat.toDigits_of_lt_base hlt, List.mem_singleton] at h
        exact ⟨n, hlt, h⟩
      · rw [Nat.toDigits_of_base_le hbase hge, List.mem_append, List.mem_singleton] at h
        rcases h with h | h
        · exact ih (n / base) (Nat.div_lt_self (by omega) hbase) h
        · exact ⟨n % base, Nat.mod_lt n (by omega), h⟩

/-- Leading zeros do not count. -/
theorem ofRadix_zeros {base : Nat} (hbase : 0 < base) (k : Nat) (ds : List UInt8) :
    ofRadix base (List.replicate k (ch '0') ++ ds) = ofRadix base ds := by
  induction k with
  | zero => rfl
  | succ k ih =>
      have hzero : pushDigit base 0 (ch '0') = some 0 := by
        simp only [pushDigit, show digitValue (ch '0') = some 0 from rfl,
          Option.bind_eq_bind, Option.bind_some, if_pos hbase, Nat.mul_zero, Nat.add_zero]
      rw [List.replicate_succ, List.cons_append, ofRadix, List.foldlM_cons, hzero]
      exact ih

/-! ## UTF-8 -/

/-- The ranges of the bytes that a first byte calls for. -/
def continuation (lead : UInt8) : Option (List (UInt8 × UInt8)) :=
  if lead < 0x80 then some []
  else if lead < 0xC2 then none
  else if lead < 0xE0 then some [(0x80, 0xBF)]
  else if lead = 0xE0 then some [(0xA0, 0xBF), (0x80, 0xBF)]
  else if lead = 0xED then some [(0x80, 0x9F), (0x80, 0xBF)]
  else if lead < 0xF0 then some [(0x80, 0xBF), (0x80, 0xBF)]
  else if lead = 0xF0 then some [(0x90, 0xBF), (0x80, 0xBF), (0x80, 0xBF)]
  else if lead < 0xF4 then some [(0x80, 0xBF), (0x80, 0xBF), (0x80, 0xBF)]
  else if lead = 0xF4 then some [(0x80, 0x8F), (0x80, 0xBF), (0x80, 0xBF)]
  else none

/-- The bytes finish the ranges that are pending, and go on as UTF-8. -/
def utf8After : List (UInt8 × UInt8) → List UInt8 → Bool
  | [], [] => true
  | _ :: _, [] => false
  | [], b :: bs =>
      match continuation b with
      | none => false
      | some pending => utf8After pending bs
  | (lo, hi) :: pending, b :: bs => (lo ≤ b && b ≤ hi) && utf8After pending bs

/-- The bytes are well-formed UTF-8: no overlong form, no surrogate, nothing
    past U+10FFFF. -/
def isUtf8 (text : List UInt8) : Bool := utf8After [] text

theorem utf8After_append {pending : List (UInt8 × UInt8)} {s t : List UInt8}
    (hs : utf8After pending s = true) (ht : isUtf8 t = true) :
    utf8After pending (s ++ t) = true := by
  induction s generalizing pending with
  | nil =>
      cases pending with
      | nil => exact ht
      | cons p pending => cases hs
  | cons b bs ih =>
      cases pending with
      | nil =>
          rw [List.cons_append, utf8After]
          rw [utf8After] at hs
          cases hb : continuation b with
          | none =>
              rw [hb] at hs
              cases hs
          | some next =>
              rw [hb] at hs
              exact ih hs
      | cons p pending =>
          rw [List.cons_append, utf8After, Bool.and_eq_true]
          rw [utf8After, Bool.and_eq_true] at hs
          exact ⟨hs.1, ih hs.2⟩

theorem isUtf8_append {s t : List UInt8} (hs : isUtf8 s = true) (ht : isUtf8 t = true) :
    isUtf8 (s ++ t) = true := utf8After_append hs ht

theorem utf8After_ascii {b : UInt8} (hb : b < 0x80) (bs : List UInt8) :
    utf8After [] (b :: bs) = utf8After [] bs := by
  rw [utf8After, continuation, if_pos hb]

theorem utf8After_ascii_append {s : List UInt8} (hs : ∀ b ∈ s, b < 0x80)
    (bs : List UInt8) : utf8After [] (s ++ bs) = utf8After [] bs := by
  induction s with
  | nil => rfl
  | cons b s ih =>
      rw [List.cons_append, utf8After_ascii (hs b List.mem_cons_self)]
      exact ih fun c hc => hs c (List.mem_cons_of_mem _ hc)

theorem isUtf8_ascii {s : List UInt8} (hs : ∀ b ∈ s, b < 0x80) : isUtf8 s = true := by
  have h := utf8After_ascii_append hs []
  rwa [List.append_nil] at h

/-- A property of the elements of a list, decided one by one. -/
theorem forall_mem_of_all {α : Type} {p : α → Prop} [DecidablePred p] {l : List α}
    (h : l.all (fun a => decide (p a)) = true) : ∀ a ∈ l, p a :=
  fun a ha => of_decide_eq_true (List.all_eq_true.mp h a ha)

/-- Only bytes from 80 on continue a character. -/
theorem continuation_high {lead : UInt8} {pending : List (UInt8 × UInt8)}
    (h : continuation lead = some pending) : ∀ p ∈ pending, 0x80 ≤ p.1 := by
  have hsome : ∀ {ranges : List (UInt8 × UInt8)}, some ranges = some pending →
      ranges.all (fun p => decide (0x80 ≤ p.1)) = true → ∀ p ∈ pending, 0x80 ≤ p.1 :=
    fun heq hall => Option.some.inj heq ▸ forall_mem_of_all hall
  rw [continuation] at h
  by_cases h1 : lead < 0x80
  · rw [if_pos h1] at h
    exact hsome h rfl
  rw [if_neg h1] at h
  by_cases h2 : lead < 0xC2
  · rw [if_pos h2] at h
    cases h
  rw [if_neg h2] at h
  by_cases h3 : lead < 0xE0
  · rw [if_pos h3] at h
    exact hsome h rfl
  rw [if_neg h3] at h
  by_cases h4 : lead = 0xE0
  · rw [if_pos h4] at h
    exact hsome h rfl
  rw [if_neg h4] at h
  by_cases h5 : lead = 0xED
  · rw [if_pos h5] at h
    exact hsome h rfl
  rw [if_neg h5] at h
  by_cases h6 : lead < 0xF0
  · rw [if_pos h6] at h
    exact hsome h rfl
  rw [if_neg h6] at h
  by_cases h7 : lead = 0xF0
  · rw [if_pos h7] at h
    exact hsome h rfl
  rw [if_neg h7] at h
  by_cases h8 : lead < 0xF4
  · rw [if_pos h8] at h
    exact hsome h rfl
  rw [if_neg h8] at h
  by_cases h9 : lead = 0xF4
  · rw [if_pos h9] at h
    exact hsome h rfl
  · rw [if_neg h9] at h
    cases h

/-- The UTF-8 bytes of a code point. -/
def encodeUtf8 (code : Nat) : List UInt8 :=
  if code < 0x80 then [UInt8.ofNat code]
  else if code < 0x800 then
    [UInt8.ofNat (0xC0 + code / 64), UInt8.ofNat (0x80 + code % 64)]
  else if code < 0x10000 then
    [UInt8.ofNat (0xE0 + code / 4096), UInt8.ofNat (0x80 + code / 64 % 64),
      UInt8.ofNat (0x80 + code % 64)]
  else
    [UInt8.ofNat (0xF0 + code / 262144), UInt8.ofNat (0x80 + code / 4096 % 64),
      UInt8.ofNat (0x80 + code / 64 % 64), UInt8.ofNat (0x80 + code % 64)]

/-! ## Values -/

/-- A JSON value; the number is `mantissa * 10 ^ exponent`. -/
inductive Json where
  | null
  | boolean (b : Bool)
  | number (mantissa exponent : Int)
  | string (s : List UInt8)
  | array (elements : List Json)
  | object (members : List (List UInt8 × Json))

namespace Json

mutual

/-- No object in the value repeats a key. -/
def DistinctKeys : Json → Prop
  | .array elements => DistinctKeysAll elements
  | .object members => (members.map Prod.fst).Nodup ∧ DistinctKeysIn members
  | _ => True

def DistinctKeysAll : List Json → Prop
  | [] => True
  | v :: vs => v.DistinctKeys ∧ DistinctKeysAll vs

def DistinctKeysIn : List (List UInt8 × Json) → Prop
  | [] => True
  | (_, v) :: ms => v.DistinctKeys ∧ DistinctKeysIn ms

end

mutual

/-- Every string and every key in the value satisfies `P`. -/
def Strings (P : List UInt8 → Prop) : Json → Prop
  | .string s => P s
  | .array elements => StringsAll P elements
  | .object members => StringsIn P members
  | _ => True

def StringsAll (P : List UInt8 → Prop) : List Json → Prop
  | [] => True
  | v :: vs => v.Strings P ∧ StringsAll P vs

def StringsIn (P : List UInt8 → Prop) : List (List UInt8 × Json) → Prop
  | [] => True
  | (k, v) :: ms => P k ∧ v.Strings P ∧ StringsIn P ms

end

/-- The value of a member. -/
def lookup (members : List (List UInt8 × Json)) (key : List UInt8) : Option Json :=
  members.lookup key

end Json

/-! ## The printer -/

def quotationMark : UInt8 := ch '"'
def reverseSolidus : UInt8 := ch '\\'
def beginObject : UInt8 := 0x7B
def endObject : UInt8 := 0x7D
def beginArray : UInt8 := ch '['
def endArray : UInt8 := ch ']'
def nameSeparator : UInt8 := ch ':'
def valueSeparator : UInt8 := ch ','

/-- The escapes of one letter: the letter and what it stands for. -/
def shortEscapes : List (UInt8 × UInt8) :=
  [(ch '"', ch '"'), (ch '\\', ch '\\'), (ch '/', ch '/'), (ch 'b', 8), (ch 'f', 12),
    (ch 'n', 10), (ch 'r', 13), (ch 't', 9)]

/-- A digit in lower case. -/
def lowerDigit (d : Nat) : UInt8 := ch d.digitChar

/-- One byte inside a string. -/
def escapeByte (b : UInt8) : List UInt8 :=
  if b = ch '"' then lit "\\\""
  else if b = ch '\\' then lit "\\\\"
  else if b = 8 then lit "\\b"
  else if b = 12 then lit "\\f"
  else if b = 10 then lit "\\n"
  else if b = 13 then lit "\\r"
  else if b = 9 then lit "\\t"
  else if b < 0x20 then
    lit "\\u00" ++ [lowerDigit (b.toNat / 16), lowerDigit (b.toNat % 16)]
  else [b]

def escape (s : List UInt8) : List UInt8 := s.flatMap escapeByte

def printString (s : List UInt8) : List UInt8 :=
  quotationMark :: (escape s ++ [quotationMark])

def printNat (n : Nat) : List UInt8 := (Nat.toDigits 10 n).map ch

def printInt (i : Int) : List UInt8 :=
  if i < 0 then ch '-' :: printNat i.natAbs else printNat i.natAbs

def printNumber (mantissa exponent : Int) : List UInt8 :=
  printInt mantissa ++ if exponent = 0 then [] else ch 'e' :: printInt exponent

namespace Json

mutual

def print : Json → List UInt8
  | .null => lit "null"
  | .boolean true => lit "true"
  | .boolean false => lit "false"
  | .number mantissa exponent => printNumber mantissa exponent
  | .string s => printString s
  | .array [] => [beginArray, endArray]
  | .array (v :: vs) => beginArray :: (v.print ++ printElements vs)
  | .object [] => [beginObject, endObject]
  | .object ((k, v) :: ms) =>
      beginObject :: (printString k ++ nameSeparator :: (v.print ++ printMembers ms))

/-- The elements after the first, and the end of the array. -/
def printElements : List Json → List UInt8
  | [] => [endArray]
  | v :: vs => valueSeparator :: (v.print ++ printElements vs)

/-- The members after the first, and the end of the object. -/
def printMembers : List (List UInt8 × Json) → List UInt8
  | [] => [endObject]
  | (k, v) :: ms =>
      valueSeparator :: (printString k ++ nameSeparator :: (v.print ++ printMembers ms))

end

end Json

/-! ## The reader -/

def isSpace (b : UInt8) : Bool := b == 0x20 || b == 0x09 || b == 0x0A || b == 0x0D

def skipSpace (text : List UInt8) : List UInt8 := text.dropWhile isSpace

def isDigit (b : UInt8) : Bool := ch '0' ≤ b && b ≤ ch '9'

/-- One digit or more. -/
def parseDigits (text : List UInt8) : Option (List UInt8 × List UInt8) :=
  if text.takeWhile isDigit = [] then none
  else some (text.takeWhile isDigit, text.dropWhile isDigit)

/-- A minus sign, if there is one. -/
def parseMinus : List UInt8 → Bool × List UInt8
  | [] => (false, [])
  | c :: rest => if c = ch '-' then (true, rest) else (false, c :: rest)

def signed (negative : Bool) (n : Nat) : Int := if negative then -n else n

def parseFraction : List UInt8 → Option (List UInt8 × List UInt8)
  | [] => some ([], [])
  | c :: rest => if c = ch '.' then parseDigits rest else some ([], c :: rest)

/-- A sign of either kind, if there is one. -/
def parseSign : List UInt8 → Bool × List UInt8
  | [] => (false, [])
  | c :: rest => if c = ch '+' then (false, rest) else parseMinus (c :: rest)

def parseExponent : List UInt8 → Option (Int × List UInt8)
  | [] => some (0, [])
  | c :: rest =>
      if c = ch 'e' ∨ c = ch 'E' then do
        let (negative, rest) := parseSign rest
        let (digits, rest) ← parseDigits rest
        let n ← ofRadix 10 digits
        some (signed negative n, rest)
      else some (0, c :: rest)

/-- A number; no digit precedes the others as a zero. -/
def parseNumber (text : List UInt8) : Option (Json × List UInt8) := do
  let (negative, rest) := parseMinus text
  let (whole, rest) ← parseDigits rest
  if whole.head? = some (ch '0') ∧ whole.length ≠ 1 then none
  else do
    let (fraction, rest) ← parseFraction rest
    let (exponent, rest) ← parseExponent rest
    let n ← ofRadix 10 (whole ++ fraction)
    some (.number (signed negative n) (exponent - fraction.length), rest)

/-- What stands for one byte in a string, or a UTF-16 unit. -/
inductive Item where
  | byte (b : UInt8)
  | unit (code : Nat)

/-- The rest of a string, after its opening mark. -/
def parseItems : List UInt8 → Option (List Item × List UInt8)
  | [] => none
  | b :: rest =>
      if b = quotationMark then some ([], rest)
      else if b = reverseSolidus then
        match rest with
        | [] => none
        | c :: rest =>
            if c = ch 'u' then
              match rest with
              | h1 :: h2 :: h3 :: h4 :: rest => do
                  let code ← ofRadix 16 [h1, h2, h3, h4]
                  let (items, rest) ← parseItems rest
                  some (.unit code :: items, rest)
              | _ => none
            else do
              let b ← shortEscapes.lookup c
              let (items, rest) ← parseItems rest
              some (.byte b :: items, rest)
      else if b < 0x20 then none
      else do
        let (items, rest) ← parseItems rest
        some (.byte b :: items, rest)

def isHighSurrogate (code : Nat) : Bool := 0xD800 ≤ code && code < 0xDC00
def isLowSurrogate (code : Nat) : Bool := 0xDC00 ≤ code && code < 0xE000

/-- The text the items denote; a surrogate stands with its other half only. -/
def resolve : List Item → Option (List UInt8)
  | [] => some []
  | .byte b :: items => do
      let s ← resolve items
      some (b :: s)
  | .unit high :: .unit low :: items =>
      if isHighSurrogate high then
        if isLowSurrogate low then do
          let s ← resolve items
          some (encodeUtf8 (0x10000 + (high - 0xD800) * 0x400 + (low - 0xDC00)) ++ s)
        else none
      else if isLowSurrogate high then none
      else do
        let s ← resolve (.unit low :: items)
        some (encodeUtf8 high ++ s)
  | .unit code :: items =>
      if isHighSurrogate code || isLowSurrogate code then none
      else do
        let s ← resolve items
        some (encodeUtf8 code ++ s)

def parseString (text : List UInt8) : Option (List UInt8 × List UInt8) := do
  let (items, rest) ← parseItems text
  let s ← resolve items
  some (s, rest)

/-- The words a value may be. -/
def words : List (List UInt8 × Json) :=
  [(lit "null", .null), (lit "true", .boolean true), (lit "false", .boolean false)]

def parseWord (text : List UInt8) : Option (Json × List UInt8) :=
  words.findSome? fun (word, v) =>
    if word.isPrefixOf text then some (v, text.drop word.length) else none

mutual

/-- A value, after any space. -/
def parseValue : Nat → List UInt8 → Option (Json × List UInt8)
  | 0, _ => none
  | fuel + 1, text =>
      match skipSpace text with
      | [] => none
      | c :: rest =>
          if c = quotationMark then do
            let (s, rest) ← parseString rest
            some (.string s, rest)
          else if c = beginObject then
            if (skipSpace rest).head? = some endObject then
              some (.object [], (skipSpace rest).tail)
            else do
              let (members, rest) ← parseMembers fuel rest
              some (.object members, rest)
          else if c = beginArray then
            if (skipSpace rest).head? = some endArray then
              some (.array [], (skipSpace rest).tail)
            else do
              let (elements, rest) ← parseElements fuel rest
              some (.array elements, rest)
          else
            match parseWord (c :: rest) with
            | some result => some result
            | none => parseNumber (c :: rest)

/-- The elements from one on, to the end of the array. -/
def parseElements : Nat → List UInt8 → Option (List Json × List UInt8)
  | 0, _ => none
  | fuel + 1, text => do
      let (v, rest) ← parseValue fuel text
      match skipSpace rest with
      | [] => none
      | c :: rest =>
          if c = endArray then some ([v], rest)
          else if c = valueSeparator then do
            let (vs, rest) ← parseElements fuel rest
            some (v :: vs, rest)
          else none

/-- The members from one on, to the end of the object. -/
def parseMembers : Nat → List UInt8 → Option (List (List UInt8 × Json) × List UInt8)
  | 0, _ => none
  | fuel + 1, text =>
      match skipSpace text with
      | [] => none
      | c :: rest =>
          if c = quotationMark then do
            let (k, rest) ← parseString rest
            match skipSpace rest with
            | [] => none
            | c :: rest =>
                if c = nameSeparator then do
                  let (v, rest) ← parseValue fuel rest
                  match skipSpace rest with
                  | [] => none
                  | c :: rest =>
                      if c = endObject then some ([(k, v)], rest)
                      else if c = valueSeparator then do
                        let (ms, rest) ← parseMembers fuel rest
                        some ((k, v) :: ms, rest)
                      else none
                else none
          else none

end

/-- The value a whole text denotes. -/
def parse (text : List UInt8) : Option Json :=
  if isUtf8 text then
    match parseValue (text.length + 1) text with
    | some (v, rest) => if skipSpace rest = [] then some v else none
    | none => none
  else none

/-! ## Strings read back -/

/-- A byte that stands for itself in a string. -/
def Plain (b : UInt8) : Prop := 0x20 ≤ b ∧ b ≠ ch '"' ∧ b ≠ ch '\\'

instance (b : UInt8) : Decidable (Plain b) :=
  inferInstanceAs (Decidable (_ ∧ _ ∧ _))

theorem escapeByte_plain {b : UInt8} (h : Plain b) : escapeByte b = [b] := by
  obtain ⟨hlow, hquote, hsolidus⟩ := h
  have hne : ∀ c : UInt8, c < 0x20 → b ≠ c := fun c hc hbc =>
    absurd (hbc ▸ hlow) (UInt8.not_le.mpr hc)
  rw [escapeByte, if_neg hquote, if_neg hsolidus, if_neg (hne 8 (by decide)),
    if_neg (hne 12 (by decide)), if_neg (hne 10 (by decide)), if_neg (hne 13 (by decide)),
    if_neg (hne 9 (by decide)), if_neg (UInt8.not_lt.mpr hlow)]

/-- A plain text is printed as it is. -/
theorem escape_plain {s : List UInt8} (h : ∀ b ∈ s, Plain b) : escape s = s := by
  induction s with
  | nil => rfl
  | cons b s ih =>
      rw [escape, List.flatMap_cons, escapeByte_plain (h b List.mem_cons_self)]
      exact congrArg (b :: ·) (ih fun c hc => h c (List.mem_cons_of_mem _ hc))

/-- What one escape is read as. -/
def itemOf (b : UInt8) : Item :=
  if b < 0x20 ∧ b ∉ [8, 9, 10, 12, 13] then .unit b.toNat else .byte b

theorem parseItems_short {c b : UInt8} (hc : c ≠ ch 'u')
    (hb : shortEscapes.lookup c = some b) (text : List UInt8) :
    parseItems (reverseSolidus :: c :: text)
      = (parseItems text).map fun r => (.byte b :: r.1, r.2) := by
  rw [parseItems.eq_def]
  dsimp only
  rw [if_neg (by decide), if_pos rfl, if_neg hc, hb]
  cases parseItems text <;> rfl

theorem digitValue_lower : Prints 16 ch := by
  unfold Prints
  decide

theorem parseItems_unit (b : UInt8) (text : List UInt8) :
    parseItems (lit "\\u00" ++ [lowerDigit (b.toNat / 16), lowerDigit (b.toNat % 16)]
        ++ text)
      = (parseItems text).map fun r => (.unit b.toNat :: r.1, r.2) := by
  have hhigh : b.toNat / 16 < 16 := by
    have := b.toNat_lt
    omega
  have hlow : b.toNat % 16 < 16 := Nat.mod_lt _ (by decide)
  have hcode : ofRadix 16 [ch '0', ch '0', lowerDigit (b.toNat / 16),
      lowerDigit (b.toNat % 16)] = some b.toNat := by
    rw [ofRadix, List.foldlM_cons, show pushDigit 16 0 (ch '0') = some 0 from rfl]
    simp only [Option.bind_eq_bind, Option.bind_some, List.foldlM_cons, List.foldlM_nil]
    rw [show pushDigit 16 0 (ch '0') = some 0 from rfl, Option.bind_some, lowerDigit,
      pushDigit_printed digitValue_lower hhigh, Option.bind_some, lowerDigit,
      pushDigit_printed digitValue_lower hlow, Option.bind_some, Nat.mul_zero,
      Nat.zero_add, Nat.div_add_mod b.toNat 16]
    rfl
  rw [show lit "\\u00" = [reverseSolidus, ch 'u', ch '0', ch '0'] from rfl]
  simp only [List.cons_append, List.nil_append]
  rw [parseItems.eq_def]
  dsimp only
  rw [if_neg (by decide), if_pos rfl, if_pos rfl, hcode]
  cases parseItems text <;> rfl

/-- Reading undoes one escape. -/
theorem parseItems_escapeByte (b : UInt8) (text : List UInt8) :
    parseItems (escapeByte b ++ text)
      = (parseItems text).map fun r => (itemOf b :: r.1, r.2) := by
  unfold escapeByte
  by_cases h1 : b = ch '"'
  · rw [if_pos h1, h1]
    exact parseItems_short (by decide) rfl text
  rw [if_neg h1]
  by_cases h2 : b = ch '\\'
  · rw [if_pos h2, h2]
    exact parseItems_short (by decide) rfl text
  rw [if_neg h2]
  by_cases h3 : b = 8
  · rw [if_pos h3, h3]
    exact parseItems_short (by decide) rfl text
  rw [if_neg h3]
  by_cases h4 : b = 12
  · rw [if_pos h4, h4]
    exact parseItems_short (by decide) rfl text
  rw [if_neg h4]
  by_cases h5 : b = 10
  · rw [if_pos h5, h5]
    exact parseItems_short (by decide) rfl text
  rw [if_neg h5]
  by_cases h6 : b = 13
  · rw [if_pos h6, h6]
    exact parseItems_short (by decide) rfl text
  rw [if_neg h6]
  by_cases h7 : b = 9
  · rw [if_pos h7, h7]
    exact parseItems_short (by decide) rfl text
  rw [if_neg h7]
  by_cases h8 : b < 0x20
  · rw [if_pos h8]
    -- a control character without a letter of its own
    have hitem : itemOf b = .unit b.toNat := by
      rw [itemOf, if_pos ⟨h8, by simp [h3, h4, h5, h6, h7]⟩]
    rw [hitem]
    exact parseItems_unit b text
  · rw [if_neg h8]
    have hitem : itemOf b = .byte b := by
      rw [itemOf, if_neg fun h => h8 h.1]
    rw [List.singleton_append, parseItems.eq_def]
    dsimp only
    rw [if_neg (show b ≠ quotationMark from h1), if_neg (show b ≠ reverseSolidus from h2),
      if_neg h8, hitem]
    cases parseItems text <;> rfl

theorem resolve_unit {code : Nat} (h : code < 0x80) (items : List Item) :
    resolve (.unit code :: items) = (resolve items).map (UInt8.ofNat code :: ·) := by
  have hhigh : isHighSurrogate code = false := by
    rw [isHighSurrogate, Bool.and_eq_false_iff]
    exact Or.inl (decide_eq_false (by omega))
  have hlow : isLowSurrogate code = false := by
    rw [isLowSurrogate, Bool.and_eq_false_iff]
    exact Or.inl (decide_eq_false (by omega))
  have hencode : encodeUtf8 code = [UInt8.ofNat code] := if_pos h
  rw [resolve.eq_def]
  split
  · rename_i heq
    cases heq
  · rename_i heq
    cases heq
  · rename_i high low rest heq
    obtain ⟨hcode, hitems⟩ := List.cons.inj heq
    rw [← Item.unit.inj hcode, hhigh, hlow, hencode, hitems, if_neg Bool.false_ne_true,
      if_neg Bool.false_ne_true]
    cases resolve (.unit low :: rest) <;> rfl
  · rename_i high rest _ heq
    obtain ⟨hcode, hitems⟩ := List.cons.inj heq
    rw [← Item.unit.inj hcode, hhigh, hlow, hencode, hitems, Bool.or_self,
      if_neg Bool.false_ne_true]
    cases resolve rest <;> rfl

theorem resolve_itemOf (b : UInt8) (items : List Item) :
    resolve (itemOf b :: items) = (resolve items).map (b :: ·) := by
  unfold itemOf
  split
  · rename_i h
    have hlt : b.toNat < 0x80 := by
      have := UInt8.lt_iff_toNat_lt.mp h.1
      exact Nat.lt_trans this (by decide)
    rw [resolve_unit hlt, UInt8.ofNat_toNat]
  · rw [resolve]
    cases resolve items <;> rfl

/-- **STRINGS READ BACK**, whatever bytes they hold. -/
theorem parseString_escape (s rest : List UInt8) :
    parseString (escape s ++ quotationMark :: rest) = some (s, rest) := by
  have hitems : parseItems (escape s ++ quotationMark :: rest)
      = some (s.map itemOf, rest) := by
    induction s with
    | nil =>
        rw [show escape [] ++ quotationMark :: rest = quotationMark :: rest from rfl,
          parseItems.eq_def]
        exact if_pos rfl
    | cons b s ih =>
        rw [escape, List.flatMap_cons, List.append_assoc, parseItems_escapeByte]
        rw [escape] at ih
        rw [ih]
        rfl
  have hresolve : resolve (s.map itemOf) = some s := by
    clear hitems
    induction s with
    | nil => rfl
    | cons b s ih =>
        rw [List.map_cons, resolve_itemOf, ih]
        rfl
  rw [parseString, hitems]
  simp only [Option.bind_eq_bind, Option.bind_some, hresolve]

/-! ## Numbers read back -/

theorem printNat_digits (n : Nat) : ∀ b ∈ printNat n, isDigit b = true := by
  intro b hb
  obtain ⟨c, hc, rfl⟩ := List.mem_map.mp hb
  have hdigit := Nat.isDigit_of_mem_toDigits (by decide) (by decide) hc
  obtain ⟨h1, h2⟩ := (Bool.and_eq_true _ _).mp hdigit
  have hlt : c.toNat < 58 := Nat.lt_succ_of_le (of_decide_eq_true h2)
  have hge : 48 ≤ c.toNat := of_decide_eq_true h1
  have hval : (ch c).toNat = c.toNat := by
    rw [ch, UInt8.toNat_ofNat', Nat.mod_eq_of_lt (by omega)]
  rw [isDigit, Bool.and_eq_true, decide_eq_true_eq, decide_eq_true_eq,
    UInt8.le_iff_toNat_le, UInt8.le_iff_toNat_le, hval]
  exact ⟨hge, Nat.le_of_lt_succ hlt⟩

theorem printNat_ne_nil (n : Nat) : printNat n ≠ [] := by
  rw [printNat, ne_eq, List.map_eq_nil_iff]
  exact Nat.toDigits_ne_nil

theorem digitValue_decimal : Prints 10 ch := by
  unfold Prints
  decide

theorem ofRadix_printNat (n : Nat) : ofRadix 10 (printNat n) = some n :=
  ofRadix_toDigits (by decide) digitValue_decimal n

/-- Only zero is printed with a zero in front. -/
theorem printNat_zero_head {n : Nat} (h : (printNat n).head? = some (ch '0')) : n = 0 := by
  induction n using Nat.strongRecOn with
  | ind n ih =>
      rcases Nat.lt_or_ge n 10 with hlt | hge
      · have hd : ∀ d < 10, [ch (Nat.digitChar d)].head? = some (ch '0') → d = 0 := by
          decide
        rw [printNat, Nat.toDigits_of_lt_base hlt] at h
        exact hd n hlt h
      · have hsplit : printNat n = printNat (n / 10) ++ [ch (n % 10).digitChar] := by
          rw [printNat, Nat.toDigits_of_base_le (by decide) hge, List.map_append]
          rfl
        rw [hsplit, List.head?_append_of_ne_nil _ (printNat_ne_nil _)] at h
        have := ih (n / 10) (Nat.div_lt_self (by omega) (by decide)) h
        omega

/-- A text that no number goes on into. -/
def EndsNumber (rest : List UInt8) : Prop :=
  ∀ c ∈ rest.head?, isDigit c = false ∧ c ≠ ch '.' ∧ c ≠ ch 'e' ∧ c ≠ ch 'E'

theorem takeWhile_append_digits {ds rest : List UInt8} (hds : ∀ b ∈ ds, isDigit b = true)
    (hrest : ∀ c ∈ rest.head?, isDigit c = false) :
    (ds ++ rest).takeWhile isDigit = ds ∧ (ds ++ rest).dropWhile isDigit = rest := by
  have htake : rest.takeWhile isDigit = [] ∧ rest.dropWhile isDigit = rest := by
    cases rest with
    | nil => exact ⟨rfl, rfl⟩
    | cons c rest =>
        have hc := hrest c rfl
        exact ⟨List.takeWhile_cons_of_neg (by rw [hc]; decide),
          List.dropWhile_cons_of_neg (by rw [hc]; decide)⟩
  rw [List.takeWhile_append_of_pos hds, List.dropWhile_append_of_pos hds, htake.1, htake.2,
    List.append_nil]
  exact ⟨rfl, rfl⟩

theorem parseDigits_append {ds rest : List UInt8} (hds : ∀ b ∈ ds, isDigit b = true)
    (hne : ds ≠ []) (hrest : ∀ c ∈ rest.head?, isDigit c = false) :
    parseDigits (ds ++ rest) = some (ds, rest) := by
  obtain ⟨htake, hdrop⟩ := takeWhile_append_digits hds hrest
  rw [parseDigits, htake, hdrop, if_neg hne]

/-- The sign of an integer, and its digits. -/
theorem parseMinus_printInt (i : Int) (rest : List UInt8) :
    parseMinus (printInt i ++ rest) = (decide (i < 0), printNat i.natAbs ++ rest) := by
  unfold printInt
  split
  · rename_i h
    rw [decide_eq_true h, List.cons_append, parseMinus, if_pos rfl]
  · rename_i h
    rw [decide_eq_false h]
    obtain ⟨b, ds, hds⟩ := List.exists_cons_of_ne_nil (printNat_ne_nil i.natAbs)
    have hb : b ≠ ch '-' := by
      intro hb
      have hdigit := printNat_digits i.natAbs b (by rw [hds]; exact List.mem_cons_self)
      rw [hb] at hdigit
      exact absurd hdigit (by decide)
    rw [hds, List.cons_append, parseMinus, if_neg hb]

theorem parseSign_printInt (i : Int) (rest : List UInt8) :
    parseSign (printInt i ++ rest) = (decide (i < 0), printNat i.natAbs ++ rest) := by
  have hsplit : ∃ b ds, printInt i = b :: ds ∧ b ≠ ch '+' := by
    unfold printInt
    split
    · exact ⟨_, _, rfl, by decide⟩
    · obtain ⟨b, ds, hds⟩ := List.exists_cons_of_ne_nil (printNat_ne_nil i.natAbs)
      refine ⟨b, ds, hds, fun hb => ?_⟩
      have hdigit := printNat_digits i.natAbs b (by rw [hds]; exact List.mem_cons_self)
      rw [hb] at hdigit
      exact absurd hdigit (by decide)
  obtain ⟨b, ds, hds, hb⟩ := hsplit
  have h := parseMinus_printInt i rest
  rw [hds, List.cons_append] at h ⊢
  rw [parseSign, if_neg hb, h]

theorem signed_natAbs (i : Int) : signed (decide (i < 0)) i.natAbs = i := by
  unfold signed
  split
  · rename_i h
    have := of_decide_eq_true h
    omega
  · rename_i h
    have := of_decide_eq_false (Bool.eq_false_iff.mpr h)
    omega

theorem parseExponent_print (e : Int) {rest : List UInt8} (hrest : EndsNumber rest) :
    parseExponent ((if e = 0 then [] else ch 'e' :: printInt e) ++ rest)
      = some (e, rest) := by
  split
  · rename_i h
    rw [h, List.nil_append]
    cases rest with
    | nil => rfl
    | cons c rest =>
        obtain ⟨-, -, he, hE⟩ := hrest c rfl
        rw [parseExponent, if_neg (not_or.mpr ⟨he, hE⟩)]
  · rw [List.cons_append, parseExponent, if_pos (Or.inl rfl), parseSign_printInt]
    simp only [Option.bind_eq_bind]
    rw [parseDigits_append (printNat_digits _) (printNat_ne_nil _) fun c hc =>
      (hrest c hc).1, Option.bind_some, ofRadix_printNat, Option.bind_some, signed_natAbs]

/-- **NUMBERS READ BACK** exactly, before anything that ends a number. -/
theorem parseNumber_print (m e : Int) {rest : List UInt8} (hrest : EndsNumber rest) :
    parseNumber (printNumber m e ++ rest) = some (.number m e, rest) := by
  have htail : ∀ c ∈ ((if e = 0 then [] else ch 'e' :: printInt e) ++ rest).head?,
      isDigit c = false ∧ c ≠ ch '.' := by
    split
    · intro c hc
      exact ⟨(hrest c hc).1, (hrest c hc).2.1⟩
    · intro c hc
      rw [List.cons_append, List.head?_cons, Option.mem_some] at hc
      rw [← hc]
      decide
  have hfraction : parseFraction ((if e = 0 then [] else ch 'e' :: printInt e) ++ rest)
      = some ([], (if e = 0 then [] else ch 'e' :: printInt e) ++ rest) := by
    cases htext : (if e = 0 then [] else ch 'e' :: printInt e) ++ rest with
    | nil => rfl
    | cons c text =>
        have hc := (htail c (by rw [htext]; rfl)).2
        rw [parseFraction, if_neg hc]
  have hzeros : ¬ ((printNat m.natAbs).head? = some (ch '0')
      ∧ (printNat m.natAbs).length ≠ 1) := by
    rintro ⟨hhead, hlen⟩
    rw [printNat_zero_head hhead] at hlen
    exact hlen rfl
  rw [parseNumber, printNumber, List.append_assoc, parseMinus_printInt]
  simp only [Option.bind_eq_bind]
  rw [parseDigits_append (printNat_digits _) (printNat_ne_nil _) fun c hc => (htail c hc).1,
    Option.bind_some, if_neg hzeros, hfraction, Option.bind_some,
    parseExponent_print e hrest, Option.bind_some, List.append_nil, ofRadix_printNat,
    Option.bind_some, signed_natAbs]
  simp

/-! ## Values read back -/

theorem skipSpace_cons {c : UInt8} (h : isSpace c = false) (text : List UInt8) :
    skipSpace (c :: text) = c :: text :=
  List.dropWhile_cons_of_neg (by rw [h]; decide)

/-- The first byte of a printed number. -/
theorem printNumber_head (m e : Int) :
    ∃ c text, printNumber m e = c :: text ∧ (isDigit c = true ∨ c = ch '-') := by
  unfold printNumber printInt
  split
  · exact ⟨_, _, rfl, Or.inr rfl⟩
  · obtain ⟨b, ds, hds⟩ := List.exists_cons_of_ne_nil (printNat_ne_nil m.natAbs)
    refine ⟨b, _, congrArg (· ++ _) hds, Or.inl ?_⟩
    exact printNat_digits m.natAbs b (by rw [hds]; exact List.mem_cons_self)

/-- A byte that can only start a number. -/
theorem numeric_ne {c : UInt8} (h : isDigit c = true ∨ c = ch '-') {d : UInt8}
    (hd : isDigit d = false) (hm : d ≠ ch '-') : c ≠ d := by
  rintro rfl
  rcases h with h | h
  · rw [hd] at h
    cases h
  · exact hm h

theorem numeric_not_space {c : UInt8} (h : isDigit c = true ∨ c = ch '-') :
    isSpace c = false := by
  have hne : ∀ d ∈ [(0x20 : UInt8), 0x09, 0x0A, 0x0D], c ≠ d := by
    intro d hd
    refine numeric_ne h ?_ ?_ <;>
    · revert d
      exact forall_mem_of_all (by decide)
  simp only [List.forall_mem_cons] at hne
  obtain ⟨h1, h2, h3, h4, -⟩ := hne
  simp [isSpace, h1, h2, h3, h4]

/-- No printed value starts with a space or a closing bracket. -/
theorem print_head (v : Json) :
    ∃ c text, v.print = c :: text ∧ isSpace c = false ∧ c ≠ endArray := by
  match v with
  | .null => exact ⟨_, _, rfl, rfl, by decide⟩
  | .boolean true => exact ⟨_, _, rfl, rfl, by decide⟩
  | .boolean false => exact ⟨_, _, rfl, rfl, by decide⟩
  | .number m e =>
      obtain ⟨c, text, htext, hc⟩ := printNumber_head m e
      exact ⟨c, text, htext, numeric_not_space hc, numeric_ne hc rfl (by decide)⟩
  | .string s => exact ⟨_, _, rfl, rfl, by decide⟩
  | .array [] => exact ⟨_, _, rfl, rfl, by decide⟩
  | .array (w :: vs) => exact ⟨_, _, rfl, rfl, by decide⟩
  | .object [] => exact ⟨_, _, rfl, rfl, by decide⟩
  | .object ((k, w) :: ms) => exact ⟨_, _, rfl, rfl, by decide⟩

theorem endsNumber_cons {c : UInt8} (h : isDigit c = false ∧ c ≠ ch '.' ∧ c ≠ ch 'e' ∧
    c ≠ ch 'E') (text : List UInt8) : EndsNumber (c :: text) := by
  intro d hd
  rw [← Option.mem_some.mp hd]
  exact h

theorem printElements_ends (vs : List Json) (rest : List UInt8) :
    EndsNumber (Json.printElements vs ++ rest) := by
  cases vs with
  | nil => exact endsNumber_cons (by decide) _
  | cons v vs => exact endsNumber_cons (by decide) _

theorem printMembers_ends (ms : List (List UInt8 × Json)) (rest : List UInt8) :
    EndsNumber (Json.printMembers ms ++ rest) := by
  cases ms with
  | nil => exact endsNumber_cons (by decide) _
  | cons m ms => exact endsNumber_cons (by decide) _

/-- The reader gives back `v` with any bound from the length of its text on. -/
def ReadsBack (v : Json) : Prop :=
  ∀ (fuel : Nat) (rest : List UInt8), v.print.length ≤ fuel → EndsNumber rest →
    parseValue fuel (v.print ++ rest) = some (v, rest)

theorem parseValue_string (fuel : Nat) (text : List UInt8) :
    parseValue (fuel + 1) (quotationMark :: text)
      = (parseString text).map fun r => (.string r.1, r.2) := by
  rw [parseValue, skipSpace_cons rfl]
  dsimp only
  rw [if_pos rfl]
  cases parseString text <;> rfl

theorem parseValue_array (fuel : Nat) {text : List UInt8}
    (h : (skipSpace text).head? ≠ some endArray) :
    parseValue (fuel + 1) (beginArray :: text)
      = (parseElements fuel text).map fun r => (.array r.1, r.2) := by
  rw [parseValue, skipSpace_cons rfl]
  dsimp only
  rw [if_neg (by decide), if_neg (by decide), if_pos rfl, if_neg h]
  cases parseElements fuel text <;> rfl

theorem parseValue_object (fuel : Nat) {text : List UInt8}
    (h : (skipSpace text).head? ≠ some endObject) :
    parseValue (fuel + 1) (beginObject :: text)
      = (parseMembers fuel text).map fun r => (.object r.1, r.2) := by
  rw [parseValue, skipSpace_cons rfl]
  dsimp only
  rw [if_neg (by decide), if_pos rfl, if_neg h]
  cases parseMembers fuel text <;> rfl

theorem parseValue_number (fuel : Nat) {c : UInt8} (h : isDigit c = true ∨ c = ch '-')
    (text : List UInt8) :
    parseValue (fuel + 1) (c :: text) = parseNumber (c :: text) := by
  have hword : parseWord (c :: text) = none := by
    rw [parseWord, List.findSome?_eq_none_iff]
    rintro ⟨w, v⟩ hw
    have hhead : ∃ d word, w = d :: word ∧ isDigit d = false ∧ d ≠ ch '-' := by
      simp only [words, List.mem_cons, List.not_mem_nil, or_false, Prod.mk.injEq] at hw
      rcases hw with ⟨rfl, -⟩ | ⟨rfl, -⟩ | ⟨rfl, -⟩ <;>
        exact ⟨_, _, rfl, rfl, by decide⟩
    obtain ⟨d, word, rfl, hdigit, hminus⟩ := hhead
    have hne : (d == c) = false := beq_eq_false_iff_ne.mpr fun hdc =>
      numeric_ne h hdigit hminus hdc.symm
    dsimp only
    rw [List.isPrefixOf, hne]
    rfl
  rw [parseValue, skipSpace_cons (numeric_not_space h)]
  dsimp only
  rw [if_neg (numeric_ne h rfl (by decide)), if_neg (numeric_ne h rfl (by decide)),
    if_neg (numeric_ne h rfl (by decide)), hword]

/-- One element, and what follows it. -/
theorem parseElements_succ {v : Json} (hv : ReadsBack v) {fuel : Nat}
    (hfuel : v.print.length ≤ fuel) (vs : List Json) (rest : List UInt8) :
    parseElements (fuel + 1) (v.print ++ (Json.printElements vs ++ rest))
      = match vs with
        | [] => some ([v], rest)
        | w :: ws =>
            (parseElements fuel (w.print ++ (Json.printElements ws ++ rest))).map
              fun r => (v :: r.1, r.2) := by
  rw [parseElements, hv fuel _ hfuel (printElements_ends vs rest)]
  cases vs with
  | nil => rfl
  | cons w ws =>
      rw [Json.printElements, List.cons_append, List.append_assoc]
      simp only [Option.bind_eq_bind, Option.bind_some]
      rw [skipSpace_cons rfl]
      dsimp only
      rw [if_neg (by decide), if_pos rfl]
      cases parseElements fuel (w.print ++ (Json.printElements ws ++ rest)) <;> rfl

/-- One member, and what follows it. -/
theorem parseMembers_succ {v : Json} (hv : ReadsBack v) {fuel : Nat}
    (hfuel : v.print.length ≤ fuel) (k : List UInt8) (ms : List (List UInt8 × Json))
    (rest : List UInt8) :
    parseMembers (fuel + 1)
        (printString k ++ nameSeparator :: (v.print ++ (Json.printMembers ms ++ rest)))
      = match ms with
        | [] => some ([(k, v)], rest)
        | (l, w) :: ms =>
            (parseMembers fuel (printString l
              ++ nameSeparator :: (w.print ++ (Json.printMembers ms ++ rest)))).map
              fun r => ((k, v) :: r.1, r.2) := by
  have hstring : printString k ++ nameSeparator ::
      (v.print ++ (Json.printMembers ms ++ rest))
      = quotationMark :: (escape k ++ quotationMark :: nameSeparator ::
        (v.print ++ (Json.printMembers ms ++ rest))) := by
    rw [printString, List.cons_append, List.append_assoc]
    rfl
  rw [hstring, parseMembers, skipSpace_cons rfl]
  dsimp only
  rw [if_pos rfl, parseString_escape]
  simp only [Option.bind_eq_bind, Option.bind_some]
  rw [skipSpace_cons rfl]
  dsimp only
  rw [if_pos rfl, hv fuel _ hfuel (printMembers_ends ms rest)]
  cases ms with
  | nil => rfl
  | cons m ms =>
      obtain ⟨l, w⟩ := m
      rw [Json.printMembers, List.cons_append, List.append_assoc]
      simp only [Option.bind_some]
      rw [skipSpace_cons rfl]
      dsimp only
      rw [if_neg (by decide), if_pos rfl, List.cons_append, List.append_assoc]
      cases parseMembers fuel (printString l
        ++ nameSeparator :: (w.print ++ (Json.printMembers ms ++ rest))) <;> rfl

theorem length_printElements_pos (vs : List Json) : 0 < (Json.printElements vs).length := by
  cases vs <;> exact Nat.succ_pos _

theorem length_printMembers_pos (ms : List (List UInt8 × Json)) :
    0 < (Json.printMembers ms).length := by
  cases ms <;> exact Nat.succ_pos _

mutual

/-- **VALUES READ BACK**, by recursion on the value. -/
theorem readsBack : ∀ v : Json, ReadsBack v
  | .null, 0, _, hfuel, _ => nomatch hfuel
  | .null, _ + 1, _, _, _ => rfl
  | .boolean true, 0, _, hfuel, _ => nomatch hfuel
  | .boolean true, _ + 1, _, _, _ => rfl
  | .boolean false, 0, _, hfuel, _ => nomatch hfuel
  | .boolean false, _ + 1, _, _, _ => rfl
  | .number m e, fuel, rest, hfuel, hrest => by
      obtain ⟨c, text, htext, hc⟩ := printNumber_head m e
      rw [Json.print] at hfuel ⊢
      rw [htext, List.length_cons] at hfuel
      obtain ⟨n, rfl⟩ := Nat.exists_eq_add_of_le' hfuel
      rw [← parseNumber_print m e hrest, htext]
      exact parseValue_number _ hc _
  | .string s, 0, _, hfuel, _ => nomatch hfuel
  | .string s, fuel + 1, rest, _, _ => by
      rw [Json.print, printString, List.cons_append, List.append_assoc, parseValue_string,
        List.singleton_append, parseString_escape]
      rfl
  | .array [], 0, _, hfuel, _ => nomatch hfuel
  | .array [], _ + 1, _, _, _ => rfl
  | .array (v :: vs), 0, _, hfuel, _ => nomatch hfuel
  | .array (v :: vs), fuel + 1, rest, hfuel, _ => by
      -- a first element, not the end of the array: no value starts with a bracket that closes
      obtain ⟨c, text, htext, hspace, hend⟩ := print_head v
      have hhead : (skipSpace (v.print ++ (Json.printElements vs ++ rest))).head?
          ≠ some endArray := by
        rw [htext, List.cons_append, skipSpace_cons hspace]
        intro h
        exact hend (Option.some.inj h)
      rw [Json.print, List.cons_append, List.append_assoc, parseValue_array _ hhead,
        readsBack_elements vs v (readsBack v) fuel rest]
      · rfl
      · rw [Json.print, List.length_cons, List.length_append] at hfuel
        omega
  | .object [], 0, _, hfuel, _ => nomatch hfuel
  | .object [], _ + 1, _, _, _ => rfl
  | .object ((k, v) :: ms), 0, _, hfuel, _ => nomatch hfuel
  | .object ((k, v) :: ms), fuel + 1, rest, hfuel, _ => by
      have hhead : (skipSpace (printString k ++ nameSeparator ::
          (v.print ++ (Json.printMembers ms ++ rest)))).head? ≠ some endObject := by
        rw [printString, List.cons_append, skipSpace_cons rfl]
        intro h
        exact absurd (Option.some.inj h) (by decide)
      rw [Json.print, List.cons_append, List.append_assoc, List.cons_append,
        List.append_assoc, parseValue_object _ hhead,
        readsBack_members ms k v (readsBack v) fuel rest]
      · rfl
      · rw [Json.print, List.length_cons, List.length_append, List.length_cons,
          List.length_append] at hfuel
        omega

theorem readsBack_elements : ∀ (vs : List Json) (v : Json), ReadsBack v →
    ∀ (fuel : Nat) (rest : List UInt8),
      v.print.length + (Json.printElements vs).length ≤ fuel →
      parseElements fuel (v.print ++ (Json.printElements vs ++ rest))
        = some (v :: vs, rest)
  | vs, v, _, 0, _, hfuel => by
      have := length_printElements_pos vs
      omega
  | [], v, hv, fuel + 1, rest, hfuel =>
      parseElements_succ hv (Nat.le_of_succ_le_succ hfuel) [] rest
  | w :: ws, v, hv, fuel + 1, rest, hfuel => by
      rw [Json.printElements, List.length_cons, List.length_append] at hfuel
      have hrest := readsBack_elements ws w (readsBack w) fuel rest (by omega)
      rw [parseElements_succ hv (by omega) (w :: ws) rest]
      dsimp only
      rw [hrest]
      rfl

theorem readsBack_members : ∀ (ms : List (List UInt8 × Json)) (k : List UInt8) (v : Json),
    ReadsBack v → ∀ (fuel : Nat) (rest : List UInt8),
      v.print.length + (Json.printMembers ms).length ≤ fuel →
      parseMembers fuel (printString k ++ nameSeparator ::
          (v.print ++ (Json.printMembers ms ++ rest)))
        = some ((k, v) :: ms, rest)
  | ms, k, v, _, 0, _, hfuel => by
      have := length_printMembers_pos ms
      omega
  | [], k, v, hv, fuel + 1, rest, hfuel =>
      parseMembers_succ hv (Nat.le_of_succ_le_succ hfuel) k [] rest
  | (l, w) :: ms, k, v, hv, fuel + 1, rest, hfuel => by
      rw [Json.printMembers, List.length_cons, List.length_append, List.length_cons,
        List.length_append] at hfuel
      have hrest := readsBack_members ms l w (readsBack w) fuel rest (by omega)
      rw [parseMembers_succ hv (by omega) k ((l, w) :: ms) rest]
      dsimp only
      rw [hrest]
      rfl

end

/-! ## What a printed text is made of -/

theorem printable_digit {b : UInt8} (h : isDigit b = true) : Plain b ∧ b < 0x80 := by
  rw [isDigit, Bool.and_eq_true, decide_eq_true_eq, decide_eq_true_eq,
    UInt8.le_iff_toNat_le, UInt8.le_iff_toNat_le] at h
  have h0 : (ch '0').toNat = 48 := rfl
  have h9 : (ch '9').toNat = 57 := rfl
  have hne : ∀ c : UInt8, c.toNat < 48 ∨ 57 < c.toNat → b ≠ c := by
    rintro c hc rfl
    omega
  refine ⟨⟨?_, hne _ (by decide), hne _ (by decide)⟩, ?_⟩
  · rw [UInt8.le_iff_toNat_le]
    exact Nat.le_trans (by decide) h.1
  · rw [UInt8.lt_iff_toNat_lt]
    exact Nat.lt_of_le_of_lt h.2 (by decide)

theorem printable_printInt (i : Int) : ∀ b ∈ printInt i, Plain b ∧ b < 0x80 := by
  intro b hb
  unfold printInt at hb
  split at hb
  · rcases List.mem_cons.mp hb with rfl | hb
    · decide
    · exact printable_digit (printNat_digits _ b hb)
  · exact printable_digit (printNat_digits _ b hb)

theorem printable_printNumber (m e : Int) :
    ∀ b ∈ printNumber m e, 0x20 ≤ b ∧ b < 0x80 := by
  intro b hb
  rcases List.mem_append.mp hb with hb | hb
  · exact (printable_printInt m b hb).imp_left And.left
  · split at hb
    · cases hb
    · rcases List.mem_cons.mp hb with rfl | hb
      · decide
      · exact (printable_printInt e b hb).imp_left And.left

section Parts

variable {P : List UInt8 → Prop} (happend : ∀ s t, P s → P t → P (s ++ t))
  (hplain : ∀ s : List UInt8, (∀ b ∈ s, 0x20 ≤ b ∧ b < 0x80) → P s)

include happend hplain

theorem cons_part {b : UInt8} (hb : 0x20 ≤ b ∧ b < 0x80) {s : List UInt8} (hs : P s) :
    P (b :: s) :=
  happend [b] s (hplain [b] fun _ hc => List.mem_singleton.mp hc ▸ hb) hs

theorem printString_part {s : List UInt8} (hs : P (escape s)) : P (printString s) := by
  refine cons_part happend hplain (by decide) (happend _ _ hs (hplain _ ?_))
  exact forall_mem_of_all (by decide)

mutual

/-- A property of texts that concatenation keeps, and that plain ASCII and
    the escaped strings of a value have, holds of the printed value. -/
theorem print_parts : ∀ v : Json, v.Strings (fun s => P (escape s)) → P v.print
  | .null, _ => hplain _ (forall_mem_of_all (by decide))
  | .boolean true, _ => hplain _ (forall_mem_of_all (by decide))
  | .boolean false, _ => hplain _ (forall_mem_of_all (by decide))
  | .number m e, _ => hplain _ (printable_printNumber m e)
  | .string _, h => printString_part happend hplain h
  | .array [], _ => hplain _ (forall_mem_of_all (by decide))
  | .array (v :: vs), h =>
      cons_part happend hplain (by decide)
        (happend _ _ (print_parts v h.1) (printElements_parts vs h.2))
  | .object [], _ => hplain _ (forall_mem_of_all (by decide))
  | .object ((_, v) :: ms), h =>
      cons_part happend hplain (by decide)
        (happend _ _ (printString_part happend hplain h.1)
          (cons_part happend hplain (by decide)
            (happend _ _ (print_parts v h.2.1) (printMembers_parts ms h.2.2))))

theorem printElements_parts : ∀ vs : List Json,
    Json.StringsAll (fun s => P (escape s)) vs → P (Json.printElements vs)
  | [], _ => hplain _ (forall_mem_of_all (by decide))
  | v :: vs, h =>
      cons_part happend hplain (by decide)
        (happend _ _ (print_parts v h.1) (printElements_parts vs h.2))

theorem printMembers_parts : ∀ ms : List (List UInt8 × Json),
    Json.StringsIn (fun s => P (escape s)) ms → P (Json.printMembers ms)
  | [], _ => hplain _ (forall_mem_of_all (by decide))
  | (_, v) :: ms, h =>
      cons_part happend hplain (by decide)
        (happend _ _ (printString_part happend hplain h.1)
          (cons_part happend hplain (by decide)
            (happend _ _ (print_parts v h.2.1) (printMembers_parts ms h.2.2))))

end

end Parts

mutual

theorem strings_mono {P Q : List UInt8 → Prop} (h : ∀ s, P s → Q s) :
    ∀ v : Json, v.Strings P → v.Strings Q
  | .null, _ => trivial
  | .boolean _, _ => trivial
  | .number _ _, _ => trivial
  | .string s, hs => h s hs
  | .array vs, hs => stringsAll_mono h vs hs
  | .object ms, hs => stringsIn_mono h ms hs

theorem stringsAll_mono {P Q : List UInt8 → Prop} (h : ∀ s, P s → Q s) :
    ∀ vs : List Json, Json.StringsAll P vs → Json.StringsAll Q vs
  | [], _ => trivial
  | v :: vs, hs => ⟨strings_mono h v hs.1, stringsAll_mono h vs hs.2⟩

theorem stringsIn_mono {P Q : List UInt8 → Prop} (h : ∀ s, P s → Q s) :
    ∀ ms : List (List UInt8 × Json), Json.StringsIn P ms → Json.StringsIn Q ms
  | [], _ => trivial
  | (k, v) :: ms, hs => ⟨h k hs.1, strings_mono h v hs.2.1, stringsIn_mono h ms hs.2.2⟩

end

theorem escapeByte_cases (b : UInt8) :
    escapeByte b = [b] ∧ 0x20 ≤ b
      ∨ b < 0x80 ∧ ∀ c ∈ escapeByte b, 0x20 ≤ c ∧ c < 0x80 := by
  have hdigit : ∀ d < 16, 0x20 ≤ lowerDigit d ∧ lowerDigit d < 0x80 := by decide
  have hprefix : ∀ c ∈ lit "\\u00", 0x20 ≤ c ∧ c < 0x80 :=
    forall_mem_of_all (by decide)
  unfold escapeByte
  by_cases h1 : b = ch '"'
  · rw [if_pos h1]
    exact Or.inr ⟨by rw [h1]; decide, forall_mem_of_all (by decide)⟩
  rw [if_neg h1]
  by_cases h2 : b = ch '\\'
  · rw [if_pos h2]
    exact Or.inr ⟨by rw [h2]; decide, forall_mem_of_all (by decide)⟩
  rw [if_neg h2]
  by_cases h3 : b = 8
  · rw [if_pos h3]
    exact Or.inr ⟨by rw [h3]; decide, forall_mem_of_all (by decide)⟩
  rw [if_neg h3]
  by_cases h4 : b = 12
  · rw [if_pos h4]
    exact Or.inr ⟨by rw [h4]; decide, forall_mem_of_all (by decide)⟩
  rw [if_neg h4]
  by_cases h5 : b = 10
  · rw [if_pos h5]
    exact Or.inr ⟨by rw [h5]; decide, forall_mem_of_all (by decide)⟩
  rw [if_neg h5]
  by_cases h6 : b = 13
  · rw [if_pos h6]
    exact Or.inr ⟨by rw [h6]; decide, forall_mem_of_all (by decide)⟩
  rw [if_neg h6]
  by_cases h7 : b = 9
  · rw [if_pos h7]
    exact Or.inr ⟨by rw [h7]; decide, forall_mem_of_all (by decide)⟩
  rw [if_neg h7]
  by_cases h8 : b < 0x20
  · rw [if_pos h8]
    refine Or.inr ⟨UInt8.lt_trans h8 (by decide), ?_⟩
    intro c hc
    rcases List.mem_append.mp hc with hc | hc
    · exact hprefix c hc
    · have hlt := b.toNat_lt
      rcases List.mem_cons.mp hc with rfl | hc
      · exact hdigit _ (by omega)
      · rw [List.mem_singleton.mp hc]
        exact hdigit _ (Nat.mod_lt _ (by decide))
  · rw [if_neg h8]
    exact Or.inl ⟨rfl, UInt8.not_lt.mp h8⟩

/-- Escaping keeps UTF-8. -/
theorem utf8After_escape {pending : List (UInt8 × UInt8)}
    (hpending : ∀ p ∈ pending, 0x80 ≤ p.1) {s : List UInt8}
    (hs : utf8After pending s = true) : utf8After pending (escape s) = true := by
  induction s generalizing pending with
  | nil => exact hs
  | cons b s ih =>
      rw [escape, List.flatMap_cons]
      rcases escapeByte_cases b with ⟨hsame, -⟩ | ⟨hlow, hascii⟩
      · rw [hsame, List.singleton_append]
        cases pending with
        | nil =>
            rw [utf8After] at hs ⊢
            cases hb : continuation b with
            | none =>
                rw [hb] at hs
                cases hs
            | some next =>
                rw [hb] at hs
                exact ih (continuation_high hb) hs
        | cons p pending =>
            rw [utf8After, Bool.and_eq_true] at hs ⊢
            exact ⟨hs.1, ih (fun q hq => hpending q (List.mem_cons_of_mem _ hq)) hs.2⟩
      · cases pending with
        | nil =>
            rw [utf8After_ascii_append fun c hc => (hascii c hc).2]
            rw [utf8After_ascii hlow] at hs
            exact ih hpending hs
        | cons p pending =>
            -- a byte below 80 continues nothing
            rw [utf8After, Bool.and_eq_true, Bool.and_eq_true] at hs
            have hp := hpending p List.mem_cons_self
            have hle := UInt8.le_trans hp (of_decide_eq_true hs.1.1)
            exact absurd hlow (UInt8.not_lt.mpr hle)

/-- The text of a value whose strings are UTF-8 is UTF-8. -/
theorem isUtf8_print {v : Json} (h : v.Strings fun s => isUtf8 s = true) :
    isUtf8 v.print = true := by
  refine @print_parts (fun s => isUtf8 s = true) (fun s t => isUtf8_append)
    (fun s hs => isUtf8_ascii fun b hb => (hs b hb).2) v ?_
  exact strings_mono (fun s hs => utf8After_escape (fun _ hp => (List.not_mem_nil hp).elim) hs) v h

/-- A printed value holds no control character, so it is one line. -/
theorem print_no_control {v : Json} {P : List UInt8 → Prop} (h : v.Strings P) :
    ∀ b ∈ v.print, 0x20 ≤ b := by
  refine @print_parts (fun s => ∀ b ∈ s, (0x20 : UInt8) ≤ b) (fun s t hs ht b hb => ?_)
    (fun s hs b hb => (hs b hb).1) v ?_
  · exact (List.mem_append.mp hb).elim (hs b) (ht b)
  · refine strings_mono (fun s _ b hb => ?_) v h
    obtain ⟨c, -, hc⟩ := List.mem_flatMap.mp hb
    rcases escapeByte_cases c with ⟨hsame, hle⟩ | ⟨-, hascii⟩
    · rw [hsame, List.mem_singleton] at hc
      rw [hc]
      exact hle
    · exact (hascii b hc).1

/-- **THE ROUND TRIP**: a printed value whose strings are UTF-8 is read back. -/
theorem parse_print {v : Json} (h : v.Strings fun s => isUtf8 s = true) :
    parse v.print = some v := by
  have hread := readsBack v (v.print.length + 1) [] (Nat.le_succ _) nofun
  rw [List.append_nil] at hread
  rw [parse, if_pos (isUtf8_print h), hread]
  rfl

end ScopeJson
