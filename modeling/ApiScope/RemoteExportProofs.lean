import ApiScope.HookManagerProofs
import ApiScope.TraceTransportProofs
import ApiScope.WordUpdateProofs

/-! # Remote exports — looking a name up in the memory of the target

    `GetRemoteExport` reads the headers, the export directory and its three
    tables from a memory of which only a part is readable, and then the name
    of one export after the other.  Names and forwarders are fetched with
    reads of 256 bytes, whatever their length: a string that ends close to
    unreadable memory is not seen, and a longer one is cut.

    What the lookup returns is compared with the tables themselves.  The two
    agree exactly when the window at the first entry of the name is readable,
    and the one at its forwarder, if it has one (`getRemoteExport_exact`). -/

namespace ScopeExports

open ScopeBytes ScopeWords ScopeTransport ScopeHook

/-! ## Memory of the target -/

/-- The readable bytes of the target. -/
abbrev TargetMemory := Nat → Option UInt8

/-- `ReadProcessMemory`: all the bytes that are asked for, or none. -/
def readProcessMemory (mem : TargetMemory) : (address size : Nat) → Option (List UInt8)
  | _, 0 => some []
  | address, size + 1 =>
      match mem address, readProcessMemory mem (address + 1) size with
      | some byte, some bytes => some (byte :: bytes)
      | _, _ => none

/-- A pointer and an offset. -/
def pointerAdd (base offset : Nat) : Nat := (base + offset) % 2 ^ 64

/-- A signed 32-bit value as an offset. -/
def signExtend (v : Nat) : Nat := if v < 2 ^ 31 then v else v + (2 ^ 64 - 2 ^ 32)

/-- A member of `n` bytes of a structure that was read. -/
def member (bytes : List UInt8) (offset n : Nat) : Nat := leNat ((bytes.drop offset).take n)

/-- `CustomStrCmp`, on the bytes from the two pointers on. -/
def customStrCmp : List UInt8 → List UInt8 → Int
  | left :: lefts, right :: rights =>
      if left ≠ 0 ∧ left = right then customStrCmp lefts rights
      else (left.toNat : Int) - right.toNat
  -- not reached: both strings are terminated
  | _, _ => 0

/-! ## The lookup -/

/-- The headers, the export directory and the tables, as they were read. -/
structure ExportTables where
  /-- `exportDataDir.VirtualAddress`. -/
  directoryAddress : Nat
  /-- `exportDataDir.Size`. -/
  directorySize : Nat
  numberOfFunctions : Nat
  numberOfNames : Nat
  addressOfFunctions : List UInt8
  addressOfNames : List UInt8
  addressOfNameOrdinals : List UInt8

namespace ExportTables

def functionRva (t : ExportTables) (ordinal : Nat) : Nat :=
  member t.addressOfFunctions (4 * ordinal) 4

def nameRva (t : ExportTables) (i : Nat) : Nat := member t.addressOfNames (4 * i) 4

def ordinal (t : ExportTables) (i : Nat) : Nat := member t.addressOfNameOrdinals (2 * i) 2

end ExportTables

/-- The first half of `GetRemoteExport`: everything in front of the loop. -/
def readExportTables (mem : TargetMemory) (dllBase : Nat) : Option ExportTables := do
  let dosHeader ← readProcessMemory mem dllBase 64
  if member dosHeader 0 2 ≠ 0x5A4D then none
  else do
    let ntHeaders ← readProcessMemory mem
      (pointerAdd dllBase (signExtend (member dosHeader 60 4))) 264
    if member ntHeaders 0 4 ≠ 0x4550 then none
    else if member ntHeaders 136 4 = 0 then none
    else do
      let exportDir ← readProcessMemory mem (pointerAdd dllBase (member ntHeaders 136 4)) 40
      let numberOfFunctions := member exportDir 20 4
      let numberOfNames := member exportDir 24 4
      let addressOfFunctions ← readProcessMemory mem
        (pointerAdd dllBase (member exportDir 28 4)) (numberOfFunctions * 4)
      let addressOfNames ← readProcessMemory mem
        (pointerAdd dllBase (member exportDir 32 4)) (numberOfNames * 4)
      let addressOfNameOrdinals ← readProcessMemory mem
        (pointerAdd dllBase (member exportDir 36 4)) (numberOfNames * 2)
      some { directoryAddress := member ntHeaders 136 4
             directorySize := member ntHeaders 140 4
             numberOfFunctions, numberOfNames, addressOfFunctions, addressOfNames,
             addressOfNameOrdinals }

/-- A buffer of 256 bytes with its last byte set to 0. -/
def terminated (buffer : List UInt8) : List UInt8 := buffer.take 255 ++ [0]

/-- Entry `i` has the name: its 256 bytes are read and compared. -/
def nameMatches (mem : TargetMemory) (dllBase : Nat) (t : ExportTables)
    (functionName : List UInt8) (i : Nat) : Bool :=
  match readProcessMemory mem (pointerAdd dllBase (t.nameRva i)) 256 with
  | none => false
  | some currentFunctionName =>
      decide (customStrCmp (terminated currentFunctionName) (functionName ++ [0]) = 0)

/-- The test for a forwarder; the end of the directory is a 32-bit sum. -/
def isForwarder (t : ExportTables) (functionRva : Nat) : Prop :=
  t.directoryAddress ≤ functionRva ∧
    functionRva < (t.directoryAddress + t.directorySize) % 2 ^ 32

instance (t : ExportTables) (functionRva : Nat) : Decidable (isForwarder t functionRva) :=
  inferInstanceAs (Decidable (_ ∧ _))

/-- What is returned for the entry `i`. -/
def exportOf (mem : TargetMemory) (dllBase : Nat) (t : ExportTables) (i : Nat) :
    Option RemoteExport :=
  if t.numberOfFunctions ≤ t.ordinal i then none
  else
    let functionRva := t.functionRva (t.ordinal i)
    if isForwarder t functionRva then
      match readProcessMemory mem (pointerAdd dllBase functionRva) 256 with
      | none => none
      | some forwarder => some ⟨0, cValue (terminated forwarder)⟩
    else some ⟨pointerAdd dllBase functionRva, []⟩

/-- The loop over the names, with `count` of them left from `i` on. -/
def searchNames (mem : TargetMemory) (dllBase : Nat) (t : ExportTables)
    (functionName : List UInt8) : (count i : Nat) → Option RemoteExport
  | 0, _ => none
  | count + 1, i =>
      if nameMatches mem dllBase t functionName i then exportOf mem dllBase t i
      else searchNames mem dllBase t functionName count (i + 1)

/-- `GetRemoteExport`. -/
def getRemoteExport (mem : TargetMemory) (dllBase : Nat) (functionName : List UInt8) :
    Option RemoteExport :=
  match readExportTables mem dllBase with
  | none => none
  | some t => searchNames mem dllBase t functionName t.numberOfNames 0

/-! ## What a read returns -/

section Reads

variable {mem : TargetMemory} {address : Nat}

theorem readProcessMemory_succ {size : Nat} {bytes : List UInt8}
    (h : readProcessMemory mem address (size + 1) = some bytes) :
    ∃ byte rest, bytes = byte :: rest ∧ mem address = some byte ∧
      readProcessMemory mem (address + 1) size = some rest := by
  rw [readProcessMemory] at h
  split at h
  next byte rest hbyte hrest =>
    cases h
    exact ⟨byte, rest, rfl, hbyte, hrest⟩
  next => cases h

theorem readProcessMemory_length {size : Nat} {bytes : List UInt8}
    (h : readProcessMemory mem address size = some bytes) : bytes.length = size := by
  induction size generalizing address bytes with
  | zero =>
      cases h
      rfl
  | succ size ih =>
      obtain ⟨byte, rest, rfl, -, hrest⟩ := readProcessMemory_succ h
      rw [List.length_cons, ih hrest]

/-- A read succeeds when every byte is readable. -/
theorem readProcessMemory_isSome {mem : TargetMemory} {address size : Nat} :
    (readProcessMemory mem address size).isSome = true ↔
      ∀ i < size, (mem (address + i)).isSome = true := by
  induction size generalizing address with
  | zero => exact ⟨fun _ i hi => absurd hi (Nat.not_lt_zero i), fun _ => rfl⟩
  | succ size ih =>
      have hsplit : (readProcessMemory mem address (size + 1)).isSome = true ↔
          (mem address).isSome = true ∧
            (readProcessMemory mem (address + 1) size).isSome = true := by
        rw [readProcessMemory]
        cases mem address with
        | none => exact ⟨(fun h => nomatch h), (fun h => nomatch h.1)⟩
        | some byte =>
            cases readProcessMemory mem (address + 1) size with
            | none => exact ⟨(fun h => nomatch h), (fun h => nomatch h.2)⟩
            | some bytes => exact ⟨fun _ => ⟨rfl, rfl⟩, fun _ => rfl⟩
      rw [hsplit, ih]
      constructor
      · rintro ⟨hfirst, hrest⟩ i hi
        cases i with
        | zero => exact hfirst
        | succ i =>
            rw [← Nat.add_assoc, Nat.add_right_comm]
            exact hrest i (Nat.lt_of_succ_lt_succ hi)
      · intro h
        refine ⟨h 0 (Nat.succ_pos _), fun i hi => ?_⟩
        have hnext := h (i + 1) (Nat.succ_lt_succ hi)
        rwa [← Nat.add_assoc, Nat.add_right_comm] at hnext

/-- More readable memory reads the same. -/
theorem readProcessMemory_mono {mem mem' : TargetMemory}
    (h : ∀ address byte, mem address = some byte → mem' address = some byte)
    {address size : Nat} {bytes : List UInt8}
    (hread : readProcessMemory mem address size = some bytes) :
    readProcessMemory mem' address size = some bytes := by
  induction size generalizing address bytes with
  | zero => exact hread
  | succ size ih =>
      obtain ⟨byte, rest, rfl, hbyte, hrest⟩ := readProcessMemory_succ hread
      rw [readProcessMemory, h _ _ hbyte, ih hrest]

/-- Of two reads from one address, the shorter is the beginning of the longer. -/
theorem readProcessMemory_prefix {m n : Nat} {xs ys : List UInt8} (hmn : m ≤ n)
    (hxs : readProcessMemory mem address m = some xs)
    (hys : readProcessMemory mem address n = some ys) : xs = ys.take m := by
  induction m generalizing address n xs ys with
  | zero =>
      cases hxs
      rfl
  | succ m ih =>
      obtain ⟨n, rfl⟩ : ∃ k, n = k + 1 := ⟨n - 1, by omega⟩
      obtain ⟨x, xs', rfl, hx, hxs'⟩ := readProcessMemory_succ hxs
      obtain ⟨y, ys', rfl, hy, hys'⟩ := readProcessMemory_succ hys
      have hxy : x = y := Option.some.inj (hx.symm.trans hy)
      rw [List.take_succ_cons, ih (by omega) hxs' hys', hxy]

/-- There is a terminated string at the address. -/
def HoldsString (mem : TargetMemory) (address : Nat) (s : List UInt8) : Prop :=
  0 ∉ s ∧ readProcessMemory mem address (s.length + 1) = some (s ++ [0])

/-- The 256 bytes from the address on are readable. -/
def Window (mem : TargetMemory) (address : Nat) : Prop :=
  (readProcessMemory mem address 256).isSome = true

theorem cValue_append_zero {s : List UInt8} (h : 0 ∉ s) (rest : List UInt8) :
    cValue (s ++ 0 :: rest) = s := by
  induction s with
  | nil => rfl
  | cons c s ih =>
      obtain ⟨hc, hs⟩ := not_or.mp (fun hor => h (List.mem_cons.mpr hor))
      rw [List.cons_append, cValue, List.takeWhile_cons, if_pos (decide_eq_true (Ne.symm hc))]
      exact congrArg (c :: ·) (ih hs)

/-- **THE WINDOW** at a string shows its first 255 characters. -/
theorem cValue_terminated {s buffer : List UInt8} (hs : HoldsString mem address s)
    (hread : readProcessMemory mem address 256 = some buffer) :
    cValue (terminated buffer) = s.take 255 := by
  obtain ⟨hzero, hholds⟩ := hs
  have hlength := readProcessMemory_length hread
  rw [terminated]
  rcases Nat.lt_or_ge s.length 255 with hshort | hlong
  -- the terminator is among the 255 characters that are kept
  · have hstart := readProcessMemory_prefix (by omega) hholds hread
    obtain ⟨rest, hrest⟩ : ∃ rest, buffer.take 255 = s ++ 0 :: rest := by
      refine ⟨(buffer.take 255).drop (s.length + 1), ?_⟩
      have hsplit := (List.take_append_drop (s.length + 1) (buffer.take 255)).symm
      rw [List.take_take, Nat.min_eq_left (by omega), ← hstart, List.append_assoc] at hsplit
      exact hsplit
    rw [hrest, List.take_of_length_le (by omega), List.append_assoc, List.cons_append]
    exact cValue_append_zero hzero _
  · -- the terminator is behind the 255 characters that are kept
    have hstart : buffer.take 255 = s.take 255 := by
      rcases Nat.lt_or_ge s.length 256 with heq | hlonger
      · have hwhole := readProcessMemory_prefix (by omega) hholds hread
        have hs255 : s.length = 255 := by omega
        rw [hs255, List.take_of_length_le (by omega)] at hwhole
        rw [← hwhole, List.take_append_of_le_length (by omega)]
      · have hwhole := readProcessMemory_prefix (by omega) hread hholds
        rw [hwhole, List.take_take, Nat.min_eq_left (by omega),
          List.take_append_of_le_length (by omega)]
    rw [hstart]
    exact cValue_append_zero (fun h => hzero (List.mem_of_mem_take h)) []

/-- Terminated strings compare equal when they are. -/
theorem customStrCmp_eq_zero {xs ys : List UInt8} (hxs : 0 ∈ xs) (hys : 0 ∈ ys) :
    customStrCmp xs ys = 0 ↔ cValue xs = cValue ys := by
  induction xs generalizing ys with
  | nil => cases hxs
  | cons x xs ih =>
      cases ys with
      | nil => cases hys
      | cons y ys =>
          have hvalue : ∀ (c : UInt8) (cs : List UInt8),
              cValue (c :: cs) = if c ≠ 0 then c :: cValue cs else [] := by
            intro c cs
            rw [cValue, List.takeWhile_cons]
            by_cases hc : c = 0
            · rw [if_neg (by simpa using hc), if_neg (fun h => h hc)]
            · rw [if_pos (by simpa using hc), if_pos hc]
              rfl
          rw [customStrCmp, hvalue, hvalue]
          by_cases hgo : x ≠ 0 ∧ x = y
          · obtain ⟨hx, rfl⟩ := hgo
            have hxs' : 0 ∈ xs := (List.mem_cons.mp hxs).resolve_left (Ne.symm hx)
            have hys' : 0 ∈ ys := (List.mem_cons.mp hys).resolve_left (Ne.symm hx)
            rw [if_pos ⟨hx, rfl⟩, if_pos hx, if_pos hx, ih hxs' hys']
            exact ⟨fun h => congrArg (x :: ·) h, fun h => (List.cons.inj h).2⟩
          · rw [if_neg hgo]
            have hdiff : (x.toNat : Int) - y.toNat = 0 ↔ x = y := by
              rw [← UInt8.toNat_inj]
              omega
            rw [hdiff]
            constructor
            · rintro rfl
              have hx : ¬ x ≠ 0 := fun hx => hgo ⟨hx, rfl⟩
              rw [if_neg hx, if_neg hx]
            · intro h
              by_cases hx : x = 0
              · by_cases hy : y = 0
                · rw [hx, hy]
                · rw [if_neg (fun hne => hne hx), if_pos hy] at h
                  cases h
              · by_cases hy : y = 0
                · rw [if_pos hx, if_neg (fun hne => hne hy)] at h
                  cases h
                · rw [if_pos hx, if_pos hy] at h
                  exact (List.cons.inj h).1

end Reads

/-! ## What the tables say -/

/-- The headers, the export directory and the tables at `dllBase` are readable
    and are those of `t`. -/
def HoldsTables (mem : TargetMemory) (dllBase : Nat) (t : ExportTables) : Prop :=
  ∃ dosHeader ntHeaders exportDir,
    readProcessMemory mem dllBase 64 = some dosHeader ∧ member dosHeader 0 2 = 0x5A4D ∧
    readProcessMemory mem (pointerAdd dllBase (signExtend (member dosHeader 60 4))) 264
      = some ntHeaders ∧
    member ntHeaders 0 4 = 0x4550 ∧
    member ntHeaders 136 4 = t.directoryAddress ∧ t.directoryAddress ≠ 0 ∧
    member ntHeaders 140 4 = t.directorySize ∧
    readProcessMemory mem (pointerAdd dllBase t.directoryAddress) 40 = some exportDir ∧
    member exportDir 20 4 = t.numberOfFunctions ∧
    member exportDir 24 4 = t.numberOfNames ∧
    readProcessMemory mem (pointerAdd dllBase (member exportDir 28 4)) (t.numberOfFunctions * 4)
      = some t.addressOfFunctions ∧
    readProcessMemory mem (pointerAdd dllBase (member exportDir 32 4)) (t.numberOfNames * 4)
      = some t.addressOfNames ∧
    readProcessMemory mem (pointerAdd dllBase (member exportDir 36 4)) (t.numberOfNames * 2)
      = some t.addressOfNameOrdinals

/-- The function lies in the export directory: its RVA is that of a forwarder. -/
def InDirectory (t : ExportTables) (functionRva : Nat) : Prop :=
  t.directoryAddress ≤ functionRva ∧ functionRva < t.directoryAddress + t.directorySize

/-- A PE image with readable tables, names and forwarders. -/
structure ExportImage (mem : TargetMemory) (dllBase : Nat) (t : ExportTables) : Prop where
  tables : HoldsTables mem dllBase t
  names : ∀ i < t.numberOfNames, ∃ s, HoldsString mem (pointerAdd dllBase (t.nameRva i)) s
  forwarders : ∀ k < t.numberOfFunctions, InDirectory t (t.functionRva k) →
    ∃ s, HoldsString mem (pointerAdd dllBase (t.functionRva k)) s

section Tables

variable {mem : TargetMemory} {dllBase : Nat} {t : ExportTables}

theorem readExportTables_of_holds (h : HoldsTables mem dllBase t) :
    readExportTables mem dllBase = some t := by
  obtain ⟨dosHeader, ntHeaders, exportDir, hdos, hmz, hnt, hpe, haddress, hne, hsize, hdir,
    hfunctions, hnames, hread1, hread2, hread3⟩ := h
  rw [readExportTables, hdos]
  dsimp only [Option.bind_eq_bind, Option.bind_some]
  rw [if_neg (fun hbad => hbad hmz), hnt]
  dsimp only [Option.bind_some]
  rw [if_neg (fun hbad => hbad hpe), haddress, if_neg hne, hdir]
  dsimp only [Option.bind_some]
  rw [hfunctions, hnames, hread1, hread2, hread3, hsize]
  rfl

theorem HoldsTables.mono {mem' : TargetMemory} (hmem : ∀ address byte,
    mem address = some byte → mem' address = some byte) (h : HoldsTables mem dllBase t) :
    HoldsTables mem' dllBase t := by
  obtain ⟨dosHeader, ntHeaders, exportDir, hdos, hmz, hnt, hpe, haddress, hne, hsize, hdir,
    hfunctions, hnames, hread1, hread2, hread3⟩ := h
  exact ⟨dosHeader, ntHeaders, exportDir, readProcessMemory_mono hmem hdos, hmz,
    readProcessMemory_mono hmem hnt, hpe, haddress, hne, hsize,
    readProcessMemory_mono hmem hdir, hfunctions, hnames, readProcessMemory_mono hmem hread1,
    readProcessMemory_mono hmem hread2, readProcessMemory_mono hmem hread3⟩

theorem HoldsTables.directorySize_lt (h : HoldsTables mem dllBase t) :
    t.directoryAddress < 2 ^ 32 ∧ t.directorySize < 2 ^ 32 := by
  obtain ⟨_, ntHeaders, _, -, -, -, -, haddress, -, hsize, -⟩ := h
  have hlt : ∀ offset, member ntHeaders offset 4 < 2 ^ 32 := by
    intro offset
    refine Nat.lt_of_lt_of_le (leNat_lt _) ?_
    have hlength : ((ntHeaders.drop offset).take 4).length ≤ 4 := List.length_take_le _ _
    exact Nat.pow_le_pow_right (by decide : 0 < 256) hlength
  exact ⟨haddress ▸ hlt 136, hsize ▸ hlt 140⟩

end Tables

/-- Entry `i` has the name. -/
def IsNamed (mem : TargetMemory) (dllBase : Nat) (t : ExportTables) (functionName : List UInt8)
    (i : Nat) : Prop :=
  HoldsString mem (pointerAdd dllBase (t.nameRva i)) functionName

/-- The first entry with the name. -/
def FirstNamed (mem : TargetMemory) (dllBase : Nat) (t : ExportTables)
    (functionName : List UInt8) (i : Nat) : Prop :=
  i < t.numberOfNames ∧ IsNamed mem dllBase t functionName i ∧
    ∀ j < i, ¬ IsNamed mem dllBase t functionName j

/-- What the tables say of entry `i`: the forwarder, or the address. -/
def Exported (mem : TargetMemory) (dllBase : Nat) (t : ExportTables) (i : Nat)
    (r : RemoteExport) : Prop :=
  t.ordinal i < t.numberOfFunctions ∧
    (InDirectory t (t.functionRva (t.ordinal i)) ∧
        (∃ s, HoldsString mem (pointerAdd dllBase (t.functionRva (t.ordinal i))) s ∧
          r = ⟨0, s⟩) ∨
      ¬ InDirectory t (t.functionRva (t.ordinal i)) ∧
        r = ⟨pointerAdd dllBase (t.functionRva (t.ordinal i)), []⟩)

/-- The first entry with the name and a readable window. -/
def FirstSeen (mem : TargetMemory) (dllBase : Nat) (t : ExportTables)
    (functionName : List UInt8) (i : Nat) : Prop :=
  i < t.numberOfNames ∧ IsNamed mem dllBase t functionName i ∧
    Window mem (pointerAdd dllBase (t.nameRva i)) ∧
    ∀ j < i, ¬ (IsNamed mem dllBase t functionName j ∧
      Window mem (pointerAdd dllBase (t.nameRva j)))

/-- The forwarder of entry `i`, if it has one, is seen whole: the directory ends
    in 32 bits, the window is readable, and 255 characters are enough.  (An
    empty forwarder at address 0 would be told as the address 0.) -/
def ValueSeen (mem : TargetMemory) (dllBase : Nat) (t : ExportTables) (i : Nat) : Prop :=
  t.ordinal i < t.numberOfFunctions → InDirectory t (t.functionRva (t.ordinal i)) →
    t.directoryAddress + t.directorySize < 2 ^ 32 ∧
        Window mem (pointerAdd dllBase (t.functionRva (t.ordinal i))) ∧
        (∀ s, HoldsString mem (pointerAdd dllBase (t.functionRva (t.ordinal i))) s →
          s.length ≤ 255) ∨
      2 ^ 32 ≤ t.directoryAddress + t.directorySize ∧
        HoldsString mem (pointerAdd dllBase (t.functionRva (t.ordinal i))) [] ∧
        pointerAdd dllBase (t.functionRva (t.ordinal i)) = 0

/-- The first entry with the name is seen, and its forwarder whole; or it is not
    seen, and the first entry that is seen has the same value. -/
def SeenExactly (mem : TargetMemory) (dllBase : Nat) (t : ExportTables)
    (functionName : List UInt8) : Prop :=
  ∀ i, FirstNamed mem dllBase t functionName i →
    Window mem (pointerAdd dllBase (t.nameRva i)) ∧ ValueSeen mem dllBase t i ∨
      ¬ Window mem (pointerAdd dllBase (t.nameRva i)) ∧
        ∀ r, Exported mem dllBase t i r ↔
          ∃ j, FirstSeen mem dllBase t functionName j ∧ exportOf mem dllBase t j = some r

section Lookup

variable {mem : TargetMemory} {dllBase : Nat} {t : ExportTables} {functionName : List UInt8}

/-- There is at most one string at an address. -/
theorem HoldsString.unique {address : Nat} {s s' : List UInt8} (hs : HoldsString mem address s)
    (hs' : HoldsString mem address s') : s = s' := by
  have hle : ∀ {x y : List UInt8}, HoldsString mem address x → HoldsString mem address y →
      y.length ≤ x.length := by
    rintro x y ⟨-, hx⟩ ⟨hzero, hy⟩
    refine Nat.not_lt.mp fun hlt => hzero ?_
    have hstart := readProcessMemory_prefix (by omega) hx hy
    rw [List.take_append_of_le_length (by omega)] at hstart
    refine List.mem_of_mem_take (i := x.length + 1) ?_
    rw [← hstart]
    exact List.mem_append_right _ List.mem_cons_self
  have hlength : s.length = s'.length := Nat.le_antisymm (hle hs' hs) (hle hs hs')
  have hread := hs.2.symm.trans (hlength ▸ hs'.2)
  exact List.append_cancel_right (Option.some.inj hread)

/-- An entry matches when its window is readable and it has the name. -/
theorem nameMatches_iff (hname : 0 ∉ functionName) (hshort : functionName.length < 255)
    {i : Nat} {s : List UInt8} (hs : HoldsString mem (pointerAdd dllBase (t.nameRva i)) s) :
    nameMatches mem dllBase t functionName i = true ↔
      IsNamed mem dllBase t functionName i ∧ Window mem (pointerAdd dllBase (t.nameRva i)) := by
  have hnamed : IsNamed mem dllBase t functionName i ↔ s = functionName :=
    ⟨fun h => hs.unique h, fun h => h ▸ hs⟩
  rw [nameMatches, Window, hnamed]
  cases hread : readProcessMemory mem (pointerAdd dllBase (t.nameRva i)) 256 with
  | none => exact ⟨(fun h => nomatch h), fun h => nomatch h.2⟩
  | some buffer =>
      dsimp only
      have hends : ∀ xs : List UInt8, 0 ∈ xs ++ [0] := fun xs =>
        List.mem_append_right xs List.mem_cons_self
      have hzero : 0 ∈ terminated buffer := hends _
      rw [decide_eq_true_iff, customStrCmp_eq_zero hzero (hends _),
        cValue_terminated hs hread, cValue_append_zero hname []]
      constructor
      · intro h
        refine ⟨?_, rfl⟩
        -- a name cut to 255 characters cannot equal one shorter than that
        have hlength : min 255 s.length = functionName.length := by
          rw [← h, List.length_take]
        rwa [List.take_of_length_le (by omega)] at h
      · rintro ⟨rfl, -⟩
        exact List.take_of_length_le (by omega)

/-- The loop returns the value of the first entry that matches. -/
theorem searchNames_eq_some {count i : Nat} {r : RemoteExport} :
    searchNames mem dllBase t functionName count i = some r ↔
      ∃ j, i ≤ j ∧ j < i + count ∧ nameMatches mem dllBase t functionName j = true ∧
        (∀ k, i ≤ k → k < j → nameMatches mem dllBase t functionName k ≠ true) ∧
        exportOf mem dllBase t j = some r := by
  induction count generalizing i with
  | zero =>
      refine ⟨(fun h => nomatch h), ?_⟩
      rintro ⟨j, h1, h2, -⟩
      omega
  | succ count ih =>
      rw [searchNames]
      by_cases hmatch : nameMatches mem dllBase t functionName i = true
      · rw [if_pos hmatch]
        constructor
        · intro h
          exact ⟨i, Nat.le_refl i, by omega, hmatch, fun k h1 h2 => by omega, h⟩
        · rintro ⟨j, hij, -, -, hfirst, hr⟩
          rcases Nat.lt_or_eq_of_le hij with hlt | rfl
          · exact absurd hmatch (hfirst i (Nat.le_refl i) hlt)
          · exact hr
      · rw [if_neg hmatch, ih]
        constructor
        · rintro ⟨j, h1, h2, hj, hfirst, hr⟩
          refine ⟨j, by omega, by omega, hj, fun k hik hkj => ?_, hr⟩
          rcases Nat.lt_or_eq_of_le hik with hlt | rfl
          · exact hfirst k hlt hkj
          · exact hmatch
        · rintro ⟨j, h1, h2, hj, hfirst, hr⟩
          refine ⟨j, ?_, by omega, hj, fun k hik hkj => hfirst k (by omega) hkj, hr⟩
          refine Nat.lt_of_le_of_ne h1 ?_
          rintro rfl
          exact hmatch hj

/-- **WHAT IS RETURNED**: the value of the first entry that is seen. -/
theorem getRemoteExport_eq_some (himage : ExportImage mem dllBase t)
    (hname : 0 ∉ functionName) (hshort : functionName.length < 255) {r : RemoteExport} :
    getRemoteExport mem dllBase functionName = some r ↔
      ∃ j, FirstSeen mem dllBase t functionName j ∧ exportOf mem dllBase t j = some r := by
  rw [getRemoteExport, readExportTables_of_holds himage.tables]
  dsimp only
  rw [searchNames_eq_some]
  have hmatches : ∀ j < t.numberOfNames, nameMatches mem dllBase t functionName j = true ↔
      IsNamed mem dllBase t functionName j ∧
        Window mem (pointerAdd dllBase (t.nameRva j)) := by
    intro j hj
    obtain ⟨s, hs⟩ := himage.names j hj
    exact nameMatches_iff hname hshort hs
  constructor
  · rintro ⟨j, -, hj, hmatch, hfirst, hr⟩
    rw [Nat.zero_add] at hj
    obtain ⟨hnamed, hwindow⟩ := (hmatches j hj).mp hmatch
    refine ⟨j, ⟨hj, hnamed, hwindow, fun k hk hseen => ?_⟩, hr⟩
    exact hfirst k (Nat.zero_le k) hk ((hmatches k (by omega)).mpr hseen)
  · rintro ⟨j, ⟨hj, hnamed, hwindow, hfirst⟩, hr⟩
    refine ⟨j, Nat.zero_le j, by omega, (hmatches j hj).mpr ⟨hnamed, hwindow⟩, ?_, hr⟩
    intro k _ hk hmatch
    exact hfirst k hk ((hmatches k (by omega)).mp hmatch)

theorem exported_forwarder {i : Nat} (hvalid : t.ordinal i < t.numberOfFunctions)
    (hdir : InDirectory t (t.functionRva (t.ordinal i))) {s : List UInt8}
    (hs : HoldsString mem (pointerAdd dllBase (t.functionRva (t.ordinal i))) s)
    (r : RemoteExport) : Exported mem dllBase t i r ↔ r = ⟨0, s⟩ := by
  constructor
  · rintro ⟨-, ⟨-, s', hs', hr⟩ | ⟨hnot, -⟩⟩
    · rw [hr, hs'.unique hs]
    · exact absurd hdir hnot
  · intro hr
    exact ⟨hvalid, Or.inl ⟨hdir, s, hs, hr⟩⟩

theorem exported_address {i : Nat} (hvalid : t.ordinal i < t.numberOfFunctions)
    (hdir : ¬ InDirectory t (t.functionRva (t.ordinal i))) (r : RemoteExport) :
    Exported mem dllBase t i r
      ↔ r = ⟨pointerAdd dllBase (t.functionRva (t.ordinal i)), []⟩ := by
  constructor
  · rintro ⟨-, ⟨h, -⟩ | ⟨-, hr⟩⟩
    · exact absurd h hdir
    · exact hr
  · intro hr
    exact ⟨hvalid, Or.inr ⟨hdir, hr⟩⟩

/-- **THE VALUE** of an entry is returned exactly when its forwarder, if it has
    one, is seen whole. -/
theorem exportOf_exact (himage : ExportImage mem dllBase t) (i : Nat) :
    (∀ r, exportOf mem dllBase t i = some r ↔ Exported mem dllBase t i r) ↔
      ValueSeen mem dllBase t i := by
  obtain ⟨haddress, hsize⟩ := himage.tables.directorySize_lt
  unfold exportOf ValueSeen
  by_cases hordinal : t.numberOfFunctions ≤ t.ordinal i
  · rw [if_pos hordinal]
    exact ⟨fun _ h => absurd hordinal (Nat.not_le.mpr h),
      fun _ r => ⟨(fun h => nomatch h), fun h => absurd hordinal (Nat.not_le.mpr h.1)⟩⟩
  rw [if_neg hordinal]
  have hvalid := Nat.not_le.mp hordinal
  dsimp only
  by_cases hdir : InDirectory t (t.functionRva (t.ordinal i))
  · obtain ⟨s, hs⟩ := himage.forwarders _ hvalid hdir
    have hexported := exported_forwarder hvalid hdir hs
    simp only [hexported]
    by_cases hsum : t.directoryAddress + t.directorySize < 2 ^ 32
    · have hforwarder : isForwarder t (t.functionRva (t.ordinal i)) := by
        rw [isForwarder, Nat.mod_eq_of_lt hsum]
        exact hdir
      rw [if_pos hforwarder]
      -- a failed read of the forwarder ends the lookup without a value
      cases hread : readProcessMemory mem
          (pointerAdd dllBase (t.functionRva (t.ordinal i))) 256 with
      | none =>
          constructor
          · intro h
            cases (h ⟨0, s⟩).mpr rfl
          · intro h
            rcases h hvalid hdir with ⟨-, hwindow, -⟩ | ⟨hlarge, -⟩
            · rw [Window, hread] at hwindow
              cases hwindow
            · omega
      | some buffer =>
          dsimp only
          rw [cValue_terminated hs hread]
          constructor
          · intro h _ _
            refine Or.inl ⟨hsum, by rw [Window, hread]; rfl, fun s' hs' => ?_⟩
            have hr := Option.some.inj ((h ⟨0, s⟩).mpr rfl)
            have htake : s.take 255 = s := congrArg RemoteExport.forwarder hr
            rw [hs'.unique hs, ← htake]
            exact List.length_take_le _ _
          · intro h r
            rcases h hvalid hdir with ⟨-, -, hlength⟩ | ⟨hlarge, -⟩
            · rw [List.take_of_length_le (hlength s hs), Option.some_inj]
              exact ⟨Eq.symm, Eq.symm⟩
            · omega
    · -- the sum wraps, and is in front of the directory
      have hforwarder : ¬ isForwarder t (t.functionRva (t.ordinal i)) := by
        rintro ⟨h1, h2⟩
        rw [Nat.mod_eq_sub_mod (Nat.not_lt.mp hsum), Nat.mod_eq_of_lt (by omega)] at h2
        omega
      rw [if_neg hforwarder]
      constructor
      · intro h _ _
        have hr := Option.some.inj ((h ⟨0, s⟩).mpr rfl)
        have hzero := congrArg RemoteExport.address hr
        have hempty : [] = s := congrArg RemoteExport.forwarder hr
        exact Or.inr ⟨Nat.not_lt.mp hsum, hempty ▸ hs, hzero⟩
      · intro h r
        rcases h hvalid hdir with ⟨hsmall, -⟩ | ⟨-, hempty, hzero⟩
        · exact absurd hsmall hsum
        · rw [hzero, hs.unique hempty, Option.some_inj]
          exact ⟨Eq.symm, Eq.symm⟩
  · have hforwarder : ¬ isForwarder t (t.functionRva (t.ordinal i)) := by
      rintro ⟨h1, h2⟩
      exact hdir ⟨h1, Nat.lt_of_lt_of_le h2 (Nat.mod_le _ _)⟩
    rw [if_neg hforwarder]
    refine ⟨fun _ _ h => absurd h hdir, fun _ r => ?_⟩
    rw [Option.some_inj, exported_address hvalid hdir]
    exact ⟨Eq.symm, Eq.symm⟩

/-- **COMPLETE AND SOUND**: the lookup returns what the tables say of the first
    entry with the name, exactly when that entry is seen, and its forwarder
    whole, or the first entry that is seen stands in for it. -/
theorem getRemoteExport_exact (himage : ExportImage mem dllBase t) (hname : 0 ∉ functionName)
    (hshort : functionName.length < 255) :
    (∀ r, getRemoteExport mem dllBase functionName = some r ↔
        ∃ i, FirstNamed mem dllBase t functionName i ∧ Exported mem dllBase t i r) ↔
      SeenExactly mem dllBase t functionName := by
  have hfirst : ∀ {i i'}, FirstNamed mem dllBase t functionName i →
      FirstNamed mem dllBase t functionName i' → i = i' := by
    rintro i i' ⟨-, hi, hbefore⟩ ⟨-, hi', hbefore'⟩
    rcases Nat.lt_trichotomy i i' with hlt | heq | hlt
    · exact absurd hi (hbefore' i hlt)
    · exact heq
    · exact absurd hi' (hbefore i' hlt)
  have hspec : ∀ {i}, FirstNamed mem dllBase t functionName i → ∀ r,
      (∃ i, FirstNamed mem dllBase t functionName i ∧ Exported mem dllBase t i r) ↔
        Exported mem dllBase t i r := by
    intro i hi r
    constructor
    · rintro ⟨i', hi', hr⟩
      rwa [hfirst hi hi']
    · exact fun hr => ⟨i, hi, hr⟩
  -- at a first entry that is seen, the lookup returns its value
  have hseen : ∀ {i}, FirstNamed mem dllBase t functionName i →
      Window mem (pointerAdd dllBase (t.nameRva i)) → ∀ r,
      getRemoteExport mem dllBase functionName = some r ↔ exportOf mem dllBase t i = some r := by
    intro i hi hwindow r
    rw [getRemoteExport_eq_some himage hname hshort]
    constructor
    · rintro ⟨j, ⟨hj, hnamed, hwindow', hbefore⟩, hr⟩
      rcases Nat.lt_trichotomy i j with hlt | rfl | hlt
      · exact absurd ⟨hi.2.1, hwindow⟩ (hbefore i hlt)
      · exact hr
      · exact absurd hnamed (hi.2.2 j hlt)
    · intro hr
      exact ⟨i, ⟨hi.1, hi.2.1, hwindow, fun j hj h => hi.2.2 j hj h.1⟩, hr⟩
  constructor
  · intro h i hi
    by_cases hwindow : Window mem (pointerAdd dllBase (t.nameRva i))
    · refine Or.inl ⟨hwindow, (exportOf_exact himage i).mp fun r => ?_⟩
      rw [← hseen hi hwindow, h, hspec hi]
    -- the entry is skipped, so a later one of the name has to stand in
    · refine Or.inr ⟨hwindow, fun r => ?_⟩
      rw [← hspec hi, ← h, getRemoteExport_eq_some himage hname hshort]
  · intro h r
    by_cases hnamed : ∃ i, FirstNamed mem dllBase t functionName i
    · obtain ⟨i, hi⟩ := hnamed
      rw [hspec hi]
      rcases h i hi with ⟨hwindow, hvalue⟩ | ⟨-, hstands⟩
      · rw [hseen hi hwindow]
        exact (exportOf_exact himage i).mpr hvalue r
      · rw [hstands, getRemoteExport_eq_some himage hname hshort]
    · constructor
      · intro hr
        obtain ⟨j, ⟨hj, hjnamed, -⟩, -⟩ :=
          (getRemoteExport_eq_some himage hname hshort).mp hr
        -- an entry that is seen has the name, so some entry is the first with it
        classical
        have hex : ∃ k, k < t.numberOfNames ∧ IsNamed mem dllBase t functionName k :=
          ⟨j, hj, hjnamed⟩
        refine absurd ⟨Nat.find hex, (Nat.find_spec hex).1, (Nat.find_spec hex).2, ?_⟩ hnamed
        intro k hk hknamed
        exact Nat.find_min hex hk ⟨Nat.lt_trans hk (Nat.find_spec hex).1, hknamed⟩
      · rintro ⟨i, hi, -⟩
        exact absurd ⟨i, hi⟩ hnamed

end Lookup

/-! ## A name at the end of the readable memory -/

/-- An image at 0x10000 that exports `A` at 0x10; its last two bytes are the
    name.  `size` bytes are readable. -/
def exportMemory (size : Nat) : TargetMemory := fun address =>
  if 0x10000 ≤ address ∧ address < 0x10000 + size then
    some (wordsAt [(0, 2, 0x5A4D), (60, 4, 64), (64, 4, 0x4550), (200, 4, 328), (204, 4, 40),
      (348, 4, 1), (352, 4, 1), (356, 4, 368), (360, 4, 372), (364, 4, 376), (368, 4, 0x10),
      (372, 4, 378), (376, 2, 0), (378, 2, 0x41)] (address - 0x10000))
  else none

def exportTables : ExportTables where
  directoryAddress := 328
  directorySize := 40
  numberOfFunctions := 1
  numberOfNames := 1
  addressOfFunctions := [0x10, 0, 0, 0]
  addressOfNames := [0x7A, 1, 0, 0]
  addressOfNameOrdinals := [0, 0]

/-- With its tables and the name readable, it is an image. -/
theorem exportMemory_image {size : Nat} (htables : HoldsTables (exportMemory size) 0x10000
      exportTables)
    (hname : HoldsString (exportMemory size) (pointerAdd 0x10000 (exportTables.nameRva 0))
      [0x41]) : ExportImage (exportMemory size) 0x10000 exportTables := by
  refine ⟨htables, fun i hi => ?_, fun k hk hdir => ?_⟩
  · have hzero : i = 0 := Nat.lt_one_iff.mp hi
    rw [hzero]
    exact ⟨_, hname⟩
  · have hzero : k = 0 := Nat.lt_one_iff.mp hk
    rw [hzero] at hdir
    exact absurd hdir.1 (by decide)

theorem exportMemory_readable {size address : Nat} :
    (exportMemory size address).isSome = true ↔ 0x10000 ≤ address ∧ address < 0x10000 + size := by
  rw [exportMemory]
  split
  · rename_i hin
    exact ⟨fun _ => hin, fun _ => rfl⟩
  · rename_i hout
    exact ⟨(fun h => nomatch h), fun h => absurd h hout⟩

theorem exportMemory_mono {size size' : Nat} (h : size ≤ size') (address : Nat) (byte : UInt8)
    (hbyte : exportMemory size address = some byte) :
    exportMemory size' address = some byte := by
  rw [exportMemory] at hbyte ⊢
  split at hbyte
  · rename_i hin
    rw [if_pos ⟨hin.1, by omega⟩]
    exact hbyte
  · cases hbyte

theorem exportMemory_name {size : Nat} (h : 380 ≤ size) :
    HoldsString (exportMemory size) (pointerAdd 0x10000 (exportTables.nameRva 0)) [0x41] := by
  have hread : readProcessMemory (exportMemory 380)
      (pointerAdd 0x10000 (exportTables.nameRva 0)) 2 = some [0x41, 0] := by decide +kernel
  exact ⟨by decide, readProcessMemory_mono (exportMemory_mono h) hread⟩

theorem exportMemory_exports {size : Nat} (h : 380 ≤ size) :
    ExportImage (exportMemory size) 0x10000 exportTables := by
  have htables : HoldsTables (exportMemory 380) 0x10000 exportTables := by
    refine ⟨(readProcessMemory (exportMemory 380) 0x10000 64).getD [],
      (readProcessMemory (exportMemory 380) 0x10040 264).getD [],
      (readProcessMemory (exportMemory 380) 0x10148 40).getD [], ?_⟩
    decide +kernel
  exact exportMemory_image (htables.mono (exportMemory_mono h)) (exportMemory_name h)

/-- The name is seen when 256 bytes are readable there. -/
theorem exportMemory_window {size : Nat} :
    Window (exportMemory size) (pointerAdd 0x10000 (exportTables.nameRva 0)) ↔ 634 ≤ size := by
  have haddress : pointerAdd 0x10000 (exportTables.nameRva 0) = 0x10000 + 378 := by decide
  rw [Window, readProcessMemory_isSome, haddress]
  constructor
  · intro h
    have hlast := exportMemory_readable.mp (h 255 (by decide))
    omega
  · intro h i hi
    exact exportMemory_readable.mpr (by omega)

theorem exportMemory_first {size : Nat}
    (hname : HoldsString (exportMemory size) (pointerAdd 0x10000 (exportTables.nameRva 0))
      [0x41]) : FirstNamed (exportMemory size) 0x10000 exportTables [0x41] 0 :=
  ⟨by decide, hname, fun j hj => absurd hj (Nat.not_lt_zero j)⟩

theorem exportMemory_exported (size : Nat) :
    Exported (exportMemory size) 0x10000 exportTables 0 ⟨0x10010, []⟩ :=
  (exported_address (by decide) (fun hdir => absurd hdir.1 (by decide)) _).mpr rfl

/-- The image ends with the name, and the name is not found. -/
theorem getRemoteExport_misses : ExportImage (exportMemory 380) 0x10000 exportTables ∧
    ¬ ∀ r, getRemoteExport (exportMemory 380) 0x10000 [0x41] = some r ↔
      ∃ i, FirstNamed (exportMemory 380) 0x10000 exportTables [0x41] i ∧
        Exported (exportMemory 380) 0x10000 exportTables i r := by
  have himage := exportMemory_exports (Nat.le_refl 380)
  refine ⟨himage, fun h => ?_⟩
  have hfound := (h ⟨0x10010, []⟩).mpr
    ⟨0, exportMemory_first (exportMemory_name (Nat.le_refl 380)), exportMemory_exported 380⟩
  obtain ⟨j, hseen, -⟩ := (getRemoteExport_eq_some himage (by decide) (by decide)).mp hfound
  obtain rfl : j = 0 := Nat.lt_one_iff.mp hseen.1
  exact absurd (exportMemory_window.mp hseen.2.2.1) (by decide)

/-- With 256 readable bytes at the name, it is found. -/
theorem getRemoteExport_exact_found :
    getRemoteExport (exportMemory 634) 0x10000 [0x41] = some ⟨0x10010, []⟩ := by
  have himage : ExportImage (exportMemory 634) 0x10000 exportTables :=
    exportMemory_exports (by decide)
  refine ((getRemoteExport_exact himage (by decide) (by decide)).mpr ?_ _).mpr
    ⟨0, exportMemory_first (exportMemory_name (by decide)), exportMemory_exported 634⟩
  rintro i ⟨hi, -⟩
  obtain rfl : i = 0 := Nat.lt_one_iff.mp hi
  exact Or.inl ⟨exportMemory_window.mpr (Nat.le_refl 634),
    fun _ hdir => absurd hdir.1 (by decide)⟩

end ScopeExports
