import ApiScope.TraceTransportProofs
import Mathlib.Data.List.AList

/-! # The trace correlator — HandlePathTracker

    `FindField` and its readers as read programs, then the three operations
    of the tracker.  `Observe` and `Evict` read an event and change the
    table; `Annotate` reads an event and may append one field to it.

    `FindField` trusts the event to be valid but still checks every step
    against the declared end, so its reads are bounded on any event
    (`within_findField`).  On an event that represents a list of fields the
    readers compute lookups in that list (`run_findField`), and so the
    operations depend on the fields alone. -/

namespace ScopeCorrelator

open ScopeBytes ScopeRead ScopeProtocol ScopeParser ScopeGrammar

/-! ## Field readers -/

/-- `FieldRef`; `value` is the offset of the value in the event. -/
structure FieldRef where
  type : Nat
  value : Nat
  valueSize : Nat
  deriving DecidableEq

/-- The loop of `FindField`, with `count` fields to go. -/
def findFieldFrom (last : Nat) (name : List UInt8) :
    (count cursor : Nat) → Read (Option FieldRef)
  | 0, _ => pure none
  | count + 1, cursor =>
      if last < cursor + sizeofFieldHeader then pure none
      else do
        let type ← readWord cursor 1
        let nameLength ← readWord (cursor + 1) 1
        let valueSize ← readWord (cursor + 2) 2
        let cursor := cursor + sizeofFieldHeader
        if last < cursor + nameLength + valueSize then pure none
        else if nameLength = name.length then do
          let same ← readEqual cursor name
          if same then pure (some { type, value := cursor + nameLength, valueSize })
          else findFieldFrom last name count (cursor + (nameLength + valueSize))
        else findFieldFrom last name count (cursor + (nameLength + valueSize))

def findField (name : List UInt8) : Read (Option FieldRef) := do
  let moduleNameLength ← readModuleNameLength
  let apiNameLength ← readApiNameLength
  let size ← readSize
  let fieldCount ← readFieldCount
  findFieldFrom size name fieldCount (sizeofEventHeader + moduleNameLength + apiNameLength)

def readHandle (name : List UInt8) : Read (Option UInt64) := do
  let ref ← findField name
  match ref with
  | none => pure none
  | some ref =>
      if ref.type ≠ TraceFieldType.pointer.code ∨ ref.valueSize ≠ 8 then pure none
      else do
        let handle ← readWord ref.value 8
        pure (some (UInt64.ofNat handle))

def readWideString (name : List UInt8) : Read (Option (List UInt16)) := do
  let ref ← findField name
  match ref with
  | none => pure none
  | some ref =>
      if ref.type ≠ TraceFieldType.wideString.code then pure none
      else do
        let bytes ← readBytes ref.value (ref.valueSize / 2 * 2)
        pure (some (wideOfBytes bytes))

/-- `status >= 0` of an `int32_t`. -/
def statusSucceeded (status : Nat) : Bool := 0 ≤ (UInt32.ofNat status).toInt32

def eventSucceeded : Read Bool := do
  let ref ← findField (cstr "result")
  match ref with
  | none => pure true
  | some ref =>
      if ref.type ≠ TraceFieldType.status.code ∨ ref.valueSize ≠ 4 then pure true
      else do
        let status ← readWord ref.value 4
        pure (statusSucceeded status)

def findObjectHandle : Read (Option UInt64) := do
  let file ← readHandle (cstr "file_handle")
  match file with
  | some handle => pure (some handle)
  | none => do
      let key ← readHandle (cstr "key_handle")
      match key with
      | some handle => pure (some handle)
      | none => readHandle (cstr "handle")

/-! ## The tracker -/

def maxTrackedHandles : Nat := 65536

/-- `HandlePathTracker`: one path a handle. -/
structure HandlePathTracker where
  handlePaths : AList fun _ : UInt64 => List UInt16
  deriving DecidableEq

namespace HandlePathTracker

def empty : HandlePathTracker := ⟨∅⟩

def find (t : HandlePathTracker) (handle : UInt64) : Option (List UInt16) :=
  t.handlePaths.lookup handle

def size (t : HandlePathTracker) : Nat := t.handlePaths.keys.length

/-- `handlePaths_[handle] = path`, after the table is cleared if it is full. -/
def record (t : HandlePathTracker) (handle : UInt64) (path : List UInt16) :
    HandlePathTracker :=
  if maxTrackedHandles ≤ t.size then ⟨AList.insert handle path ∅⟩
  else ⟨t.handlePaths.insert handle path⟩

def forget (t : HandlePathTracker) (handle : UInt64) : HandlePathTracker :=
  ⟨t.handlePaths.erase handle⟩

theorem find_empty (handle : UInt64) : empty.find handle = none := AList.lookup_empty handle

theorem find_insert (t : HandlePathTracker) (handle : UInt64) (path : List UInt16) :
    HandlePathTracker.find ⟨t.handlePaths.insert handle path⟩
      = Function.update t.find handle (some path) := by
  funext k
  by_cases hk : k = handle
  · rw [hk, Function.update_self]
    exact AList.lookup_insert _
  · rw [Function.update_of_ne hk]
    exact AList.lookup_insert_ne hk

/-- A table that is not full keeps its other entries. -/
theorem find_record {t : HandlePathTracker} (h : t.size < maxTrackedHandles)
    (handle : UInt64) (path : List UInt16) :
    (t.record handle path).find = Function.update t.find handle (some path) := by
  rw [record, if_neg (Nat.not_le.mpr h)]
  exact t.find_insert handle path

theorem find_forget (t : HandlePathTracker) (handle : UInt64) :
    (t.forget handle).find = Function.update t.find handle none := by
  funext k
  by_cases hk : k = handle
  · rw [hk, Function.update_self]
    exact AList.lookup_erase _ _
  · rw [Function.update_of_ne hk]
    exact AList.lookup_erase_ne hk

theorem size_record_le (t : HandlePathTracker) (handle : UInt64) (path : List UInt16) :
    (t.record handle path).size ≤ t.size + 1 := by
  have hinsert : ∀ t : HandlePathTracker,
      HandlePathTracker.size ⟨t.handlePaths.insert handle path⟩ ≤ t.size + 1 := by
    intro t
    rw [size, AList.keys_insert, List.length_cons]
    exact Nat.succ_le_succ (List.length_erase_le)
  rw [record]
  split
  · exact Nat.le_trans (hinsert empty) (Nat.succ_le_succ (Nat.zero_le _))
  · exact hinsert t

theorem size_forget_le (t : HandlePathTracker) (handle : UInt64) :
    (t.forget handle).size ≤ t.size := by
  rw [size, forget, AList.keys_erase]
  exact List.length_erase_le

end HandlePathTracker

/-- `L'\\'`. -/
def backslash : UInt16 := 0x5C

/-- `base + path`, without doubling or dropping the separator. -/
def resolvePath (base path : List UInt16) : List UInt16 :=
  if base.getLast? = some backslash ∧ path.head? = some backslash then base ++ path.drop 1
  else if base.getLast? ≠ some backslash ∧ path.head? ≠ some backslash then
    base ++ [backslash] ++ path
  else base ++ path

/-- `Observe`: the table afterwards. -/
def observe (t : HandlePathTracker) : Read HandlePathTracker := do
  let path ← readWideString (cstr "path")
  match path with
  | none => pure t
  | some path =>
      if path = [] then pure t
      else do
        let handle ← findObjectHandle
        match handle with
        | none => pure t
        | some handle =>
            if handle = 0 then pure t
            else do
              let succeeded ← eventSucceeded
              if succeeded then do
                let rootDirectory ← readHandle (cstr "root_directory")
                match rootDirectory with
                | some root =>
                    if root ≠ 0 then
                      match t.find root with
                      | some base => pure (t.record handle (resolvePath base path))
                      | none => pure (t.record handle path)
                    else pure (t.record handle path)
                | none => pure (t.record handle path)
              else pure t

/-- `Evict`: the table afterwards. -/
def evict (t : HandlePathTracker) : Read HandlePathTracker := do
  let handle ← readHandle (cstr "handle")
  match handle with
  | none => pure t
  | some handle =>
      if handle = 0 then pure t
      else do
        let succeeded ← eventSucceeded
        pure (if succeeded then t.forget handle else t)

/-- The stores of `AppendWideString`: a field behind the declared bytes, and
    the two members of the header that count it. -/
structure FieldStores where
  cursor : Nat
  header : List UInt8
  name : List UInt8
  value : List UInt8
  size : Nat
  fieldCount : Nat
  deriving DecidableEq

def FieldStores.apply (stores : FieldStores) (e : TraceEvent) : TraceEvent :=
  countField (writeField e stores.cursor stores.header stores.name stores.value)
    stores.size stores.fieldCount

/-- The value `AppendWideString` stores: the bytes of the string, cut to the
    limit. -/
def wideValue (value : List UInt16) : List UInt8 :=
  (wideBytes value).take traceMaxStringBytes

/-- `AppendWideString`; none when there is no room. -/
def appendWideString (name : List UInt8) (value : List UInt16) :
    Read (Option FieldStores) := do
  let bytes := wideValue value
  let required := sizeofFieldHeader + name.length + bytes.length
  let size ← readSize
  if traceMaxEventBytes < size + required then pure none
  else do
    let fieldCount ← readFieldCount
    pure (some
      { cursor := size
        header := UInt8.ofNat TraceFieldType.wideString.code :: UInt8.ofNat name.length
          :: leBytes 2 bytes.length
        name := name
        value := bytes
        size := size + required
        fieldCount := fieldCount + 1 })

/-- What `Annotate` stores, if anything. -/
def annotationPlan (t : HandlePathTracker) : Read (Option FieldStores) := do
  let path ← findField (cstr "path")
  match path with
  | some _ => pure none
  | none => do
      let handle ← findObjectHandle
      match handle with
      | none => pure none
      | some handle =>
          if handle = 0 then pure none
          else
            match t.find handle with
            | none => pure none
            | some path => appendWideString (cstr "path") path

/-- `Annotate`: the event afterwards. -/
def annotate (t : HandlePathTracker) (e : TraceEvent) : TraceEvent :=
  match (annotationPlan t).run e.byte with
  | none => e
  | some stores => stores.apply e

/-! ## What the readers read -/

section Bounds

open ScopeRead.Read

variable {P : Nat → Prop} {mem : Memory}

theorem within_readEqual {off : Nat} {cs : List UInt8}
    (h : ∀ i, off ≤ i → i < off + cs.length → P i) : Within P (readEqual off cs) mem := by
  induction cs generalizing off with
  | nil => exact within_pure P _ mem
  | cons c cs ih =>
      rw [List.length_cons] at h
      refine within_seq (within_readByte mem (h off (by omega) (by omega))) ?_
      refine within_ite (fun _ => ih fun i h1 h2 => h i (by omega) (by omega))
        (fun _ => within_pure P _ mem)

/-- `FindField` stays below the end, and what it finds lies there too. -/
theorem within_findFieldFrom {last : Nat} (h : ∀ i, i < last → P i) (name : List UInt8)
    (count cursor : Nat) :
    Within P (findFieldFrom last name count cursor) mem ∧
      ∀ ref, (findFieldFrom last name count cursor).run mem = some ref →
        ref.value + ref.valueSize ≤ last := by
  have h4 : sizeofFieldHeader = 4 := rfl
  induction count generalizing cursor with
  | zero =>
      refine ⟨within_pure P _ mem, fun ref href => ?_⟩
      rw [findFieldFrom, Read.run_pure] at href
      cases href
  | succ count ih =>
      rw [findFieldFrom]
      by_cases hheader : last < cursor + sizeofFieldHeader
      · rw [if_pos hheader]
        refine ⟨within_pure P _ mem, fun ref href => ?_⟩
        rw [Read.run_pure] at href
        cases href
      rw [if_neg hheader]
      obtain ⟨hw, hr⟩ := ih (cursor + sizeofFieldHeader
        + (word mem (cursor + 1) 1 + word mem (cursor + 2) 2))
      constructor
      · refine within_seq (within_readWord mem fun i h1 h2 => h i (by omega)) ?_
        refine within_seq (within_readWord mem fun i h1 h2 => h i (by omega)) ?_
        refine within_seq (within_readWord mem fun i h1 h2 => h i (by omega)) ?_
        simp only [run_readWord]
        refine within_ite (fun _ => within_pure P _ mem) (fun hfits => ?_)
        refine within_ite (fun hname => ?_) (fun _ => hw)
        refine within_seq (within_readEqual fun i h1 h2 => h i (by omega)) ?_
        exact within_ite (fun _ => within_pure P _ mem) (fun _ => hw)
      · intro ref href
        simp only [Read.run_bind, run_readWord, Read.run_ite, Read.run_pure] at href
        split at href
        · cases href
        · rename_i hfits
          split at href
          · split at href
            · rw [← Option.some.inj href]
              exact Nat.not_lt.mp hfits
            · exact hr ref href
          · exact hr ref href

variable (e : TraceEvent)

theorem within_findField (name : List UInt8) :
    Within (Declared e) (findField name) e.byte := by
  refine within_seq (within_header e (by decide)) ?_
  refine within_seq (within_header e (by decide)) ?_
  refine within_seq (within_header e (by decide)) ?_
  refine within_seq (within_header e (by decide)) ?_
  exact (within_findFieldFrom (fun i hi => Or.inr (by rw [run_readSize] at hi; exact hi))
    name _ _).1

theorem findField_fits {name : List UInt8} {ref : FieldRef}
    (h : (findField name).run e.byte = some ref) : ref.value + ref.valueSize ≤ e.size := by
  simp only [findField, Read.run_bind, run_readModuleNameLength, run_readApiNameLength,
    run_readSize, run_readFieldCount] at h
  exact (@within_findFieldFrom (fun _ => True) e.byte _ (fun _ _ => trivial) name _ _).2
    ref h

/-- A reader that looks at the value of a field it found. -/
theorem within_ofField {α : Type} (name : List UInt8) {f : Option FieldRef → Read α}
    (hnone : Within (Declared e) (f none) e.byte)
    (hsome : ∀ ref, (∀ i, ref.value ≤ i → i < ref.value + ref.valueSize → Declared e i) →
      Within (Declared e) (f (some ref)) e.byte) :
    Within (Declared e) (findField name >>= f) e.byte := by
  refine within_seq (within_findField e name) ?_
  cases href : (findField name).run e.byte with
  | none => exact hnone
  | some ref =>
      have hfits := findField_fits e href
      exact hsome ref fun i _ h2 => Or.inr (by omega)

theorem within_readHandle (name : List UInt8) :
    Within (Declared e) (readHandle name) e.byte := by
  refine within_ofField e name (within_pure _ _ _) (fun ref h => ?_)
  refine within_ite (fun _ => within_pure _ _ _) (fun hsize => ?_)
  refine within_seq (within_readWord _ fun i h1 h2 => h i h1 (by omega)) ?_
  exact within_pure _ _ _

theorem within_readWideString (name : List UInt8) :
    Within (Declared e) (readWideString name) e.byte := by
  refine within_ofField e name (within_pure _ _ _) (fun ref h => ?_)
  refine within_ite (fun _ => within_pure _ _ _) (fun _ => ?_)
  refine within_seq (within_readBytes _ fun i h1 h2 => h i h1 (by omega)) ?_
  exact within_pure _ _ _

theorem within_eventSucceeded : Within (Declared e) eventSucceeded e.byte := by
  refine within_ofField e _ (within_pure _ _ _) (fun ref h => ?_)
  refine within_ite (fun _ => within_pure _ _ _) (fun hsize => ?_)
  refine within_seq (within_readWord _ fun i h1 h2 => h i h1 (by omega)) ?_
  exact within_pure _ _ _

theorem within_findObjectHandle : Within (Declared e) findObjectHandle e.byte := by
  refine within_seq (within_readHandle e _) ?_
  split
  · exact within_pure _ _ _
  · refine within_seq (within_readHandle e _) ?_
    split
    · exact within_pure _ _ _
    · exact within_readHandle e _

/-- **THE TRACKER'S READS** lie in the header or the declared bytes. -/
theorem within_observe (t : HandlePathTracker) :
    Within (Declared e) (observe t) e.byte := by
  refine within_seq (within_readWideString e _) ?_
  split
  · exact within_pure _ _ _
  · refine within_ite (fun _ => within_pure _ _ _) (fun _ => ?_)
    refine within_seq (within_findObjectHandle e) ?_
    split
    · exact within_pure _ _ _
    · refine within_ite (fun _ => within_pure _ _ _) (fun _ => ?_)
      refine within_seq (within_eventSucceeded e) ?_
      refine within_ite (fun _ => ?_) (fun _ => within_pure _ _ _)
      refine within_seq (within_readHandle e _) ?_
      split
      · refine within_ite (fun _ => ?_) (fun _ => within_pure _ _ _)
        split
        · exact within_pure _ _ _
        · exact within_pure _ _ _
      · exact within_pure _ _ _

theorem within_evict (t : HandlePathTracker) : Within (Declared e) (evict t) e.byte := by
  refine within_seq (within_readHandle e _) ?_
  split
  · exact within_pure _ _ _
  · refine within_ite (fun _ => within_pure _ _ _) (fun _ => ?_)
    exact within_seq (within_eventSucceeded e) (within_pure _ _ _)

theorem within_annotationPlan (t : HandlePathTracker) :
    Within (Declared e) (annotationPlan t) e.byte := by
  refine within_seq (within_findField e _) ?_
  split
  · exact within_pure _ _ _
  · refine within_seq (within_findObjectHandle e) ?_
    split
    · exact within_pure _ _ _
    · refine within_ite (fun _ => within_pure _ _ _) (fun _ => ?_)
      split
      · exact within_pure _ _ _
      · refine within_seq (within_header e (by decide)) ?_
        refine within_ite (fun _ => within_pure _ _ _) (fun _ => ?_)
        exact within_seq (within_header e (by decide)) (within_pure _ _ _)

end Bounds

/-! ## What the readers compute -/

/-- The field of a name. -/
def fieldNamed (fs : List TraceField) (name : List UInt8) : Option TraceField :=
  fs.find? fun f => f.name == name

/-- A pointer field of eight bytes, as a handle. -/
def handleNamed (fs : List TraceField) (name : List UInt8) : Option UInt64 :=
  match fieldNamed fs name with
  | none => none
  | some f =>
      if f.type.toNat ≠ TraceFieldType.pointer.code ∨ f.value.length ≠ 8 then none
      else some (UInt64.ofNat (leNat f.value))

def wideNamed (fs : List TraceField) (name : List UInt8) : Option (List UInt16) :=
  match fieldNamed fs name with
  | none => none
  | some f =>
      if f.type.toNat ≠ TraceFieldType.wideString.code then none
      else some (wideOfBytes (f.value.take (f.value.length / 2 * 2)))

def succeeded (fs : List TraceField) : Bool :=
  match fieldNamed fs (cstr "result") with
  | none => true
  | some f =>
      if f.type.toNat ≠ TraceFieldType.status.code ∨ f.value.length ≠ 4 then true
      else statusSucceeded (leNat f.value)

/-- The object handle of the fields. -/
def objectHandle (fs : List TraceField) : Option UInt64 :=
  match handleNamed fs (cstr "file_handle") with
  | some handle => some handle
  | none =>
      match handleNamed fs (cstr "key_handle") with
      | some handle => some handle
      | none => handleNamed fs (cstr "handle")

/-- The walk of `FindField` over held fields is a lookup. -/
theorem run_findFieldFrom {mem : Memory} {name : List UInt8} {last : Nat}
    {fs : List TraceField} {cursor : Nat}
    (hlen : ∀ f ∈ fs, f.name.length < 256 ∧ f.value.length < 65536)
    (hlast : cursor + (serialiseFields fs).length ≤ last)
    (h : Holds mem cursor (serialiseFields fs)) :
    match fieldNamed fs name with
    | none => (findFieldFrom last name fs.length cursor).run mem = none
    | some f => ∃ ref, (findFieldFrom last name fs.length cursor).run mem = some ref ∧
        ref.type = f.type.toNat ∧ ref.valueSize = f.value.length ∧
        Holds mem ref.value f.value := by
  induction fs generalizing cursor with
  | nil =>
      show (findFieldFrom last name 0 cursor).run mem = none
      rw [findFieldFrom, Read.run_pure]
  | cons f fs ih =>
      rw [serialiseFields_cons] at h hlast
      obtain ⟨h1, h2⟩ := holds_append.mp h
      obtain ⟨hn, hv⟩ := hlen f List.mem_cons_self
      obtain ⟨htype, hnl, hvl, hname, hvalue⟩ := holds_field hn hv h1
      rw [List.length_append, f.serialise_length] at hlast
      rw [f.serialise_length] at h2
      have hcursor : cursor + sizeofFieldHeader + (f.name.length + f.value.length)
          = cursor + (sizeofFieldHeader + f.name.length + f.value.length) := by omega
      have hrest := ih (fun g hg => hlen g (List.mem_cons_of_mem _ hg)) (by omega) h2
      rw [← hcursor] at hrest
      -- the walk compares the lengths first, and the bytes only where these agree
      rw [List.length_cons, findFieldFrom, if_neg (by omega), fieldNamed,
        List.find?_cons]
      simp only [Read.run_bind, run_readWord, Read.run_ite, Read.run_pure, hnl, hvl]
      rw [if_neg (by omega)]
      by_cases hsame : f.name = name
      · have hread : (readEqual (cursor + sizeofFieldHeader) name).run mem = true :=
          (run_readEqual _ _ _).mpr (hsame ▸ hname)
        rw [if_pos (congrArg List.length hsame), if_pos hread, hsame, beq_self_eq_true]
        refine ⟨_, rfl, ?_, rfl, ?_⟩
        · show word mem cursor 1 = f.type.toNat
          rw [word_one, htype]
        · rw [← hsame]
          exact hvalue
      · have hbeq : (f.name == name) = false := beq_eq_false_iff_ne.mpr hsame
        rw [hbeq]
        by_cases hl : f.name.length = name.length
        · have hread : ¬ (readEqual (cursor + sizeofFieldHeader) name).run mem = true := by
            intro hread
            have hheld := (run_readEqual _ _ _).mp hread
            rw [Holds, ← hl] at hheld
            rw [Holds] at hname
            exact hsame (hname.symm.trans hheld)
          rw [if_pos hl, if_neg hread]
          exact hrest
        · rw [if_neg hl]
          exact hrest

section Represented

variable {e : TraceEvent} {m a : List UInt8} {fs : List TraceField}

/-- **FIND FIELD** on a represented event is a lookup among its fields. -/
theorem run_findField (h : Represents e m a fs) (name : List UInt8) :
    match fieldNamed fs name with
    | none => (findField name).run e.byte = none
    | some f => ∃ ref, (findField name).run e.byte = some ref ∧
        ref.type = f.type.toNat ∧ ref.valueSize = f.value.length ∧
        Holds e.byte ref.value f.value := by
  obtain ⟨-, hrest⟩ := holds_append.mp h.held
  obtain ⟨-, hf⟩ := holds_append.mp hrest
  have hlast : sizeofEventHeader + m.length + a.length + (serialiseFields fs).length
      ≤ e.size := by
    rw [h.size, List.length_append, List.length_append]
    omega
  have hfind := @run_findFieldFrom e.byte name e.size fs _ h.field_lengths hlast hf
  have heq : (findField name).run e.byte
      = (findFieldFrom e.size name fs.length
        (sizeofEventHeader + m.length + a.length)).run e.byte := by
    simp only [findField, Read.run_bind, run_readModuleNameLength, run_readApiNameLength,
      run_readSize, run_readFieldCount, h.moduleNameLength, h.apiNameLength, h.fieldCount]
  rw [heq]
  exact hfind

theorem run_findField_isSome (h : Represents e m a fs) (name : List UInt8) :
    ((findField name).run e.byte).isSome = (fieldNamed fs name).isSome := by
  have hfind := run_findField h name
  cases hn : fieldNamed fs name with
  | none =>
      rw [hn] at hfind
      rw [hfind]
      rfl
  | some f =>
      rw [hn] at hfind
      obtain ⟨ref, href, -⟩ := hfind
      rw [href]
      rfl

theorem run_readHandle (h : Represents e m a fs) (name : List UInt8) :
    (readHandle name).run e.byte = handleNamed fs name := by
  have hfind := run_findField h name
  rw [readHandle, handleNamed, Read.run_bind]
  cases hn : fieldNamed fs name with
  | none =>
      rw [hn] at hfind
      rw [hfind]
      exact Read.run_pure _ _
  | some f =>
      rw [hn] at hfind
      obtain ⟨ref, href, htype, hsize, hvalue⟩ := hfind
      rw [href]
      simp only [Read.run_ite, Read.run_bind, Read.run_pure, run_readWord, htype, hsize]
      by_cases hbad : f.type.toNat ≠ TraceFieldType.pointer.code ∨ f.value.length ≠ 8
      · rw [if_pos hbad, if_pos hbad]
      · rw [if_neg hbad, if_neg hbad]
        have h8 : f.value.length = 8 := by
          by_contra hne
          exact hbad (Or.inr hne)
        have hword : word e.byte ref.value 8 = leNat f.value := by
          rw [word, ← h8]
          exact congrArg leNat hvalue
        rw [hword]

theorem run_readWideString (h : Represents e m a fs) (name : List UInt8) :
    (readWideString name).run e.byte = wideNamed fs name := by
  have hfind := run_findField h name
  rw [readWideString, wideNamed, Read.run_bind]
  cases hn : fieldNamed fs name with
  | none =>
      rw [hn] at hfind
      rw [hfind]
      exact Read.run_pure _ _
  | some f =>
      rw [hn] at hfind
      obtain ⟨ref, href, htype, hsize, hvalue⟩ := hfind
      rw [href]
      simp only [Read.run_ite, Read.run_bind, Read.run_pure, run_readBytes, htype, hsize]
      have hslice : slice e.byte ref.value (f.value.length / 2 * 2)
          = f.value.take (f.value.length / 2 * 2) := by
        have hall : slice e.byte ref.value f.value.length = f.value := hvalue
        rw [← slice_take e.byte ref.value f.value.length _ (by omega), hall]
      rw [hslice]

theorem run_eventSucceeded (h : Represents e m a fs) :
    eventSucceeded.run e.byte = succeeded fs := by
  have hfind := run_findField h (cstr "result")
  rw [eventSucceeded, succeeded, Read.run_bind]
  cases hn : fieldNamed fs (cstr "result") with
  | none =>
      rw [hn] at hfind
      rw [hfind]
      exact Read.run_pure _ _
  | some f =>
      rw [hn] at hfind
      obtain ⟨ref, href, htype, hsize, hvalue⟩ := hfind
      rw [href]
      simp only [Read.run_ite, Read.run_bind, Read.run_pure, run_readWord, htype, hsize]
      by_cases hbad : f.type.toNat ≠ TraceFieldType.status.code ∨ f.value.length ≠ 4
      · rw [if_pos hbad, if_pos hbad]
      · rw [if_neg hbad, if_neg hbad]
        have h4 : f.value.length = 4 := by
          by_contra hne
          exact hbad (Or.inr hne)
        have hword : word e.byte ref.value 4 = leNat f.value := by
          rw [word, ← h4]
          exact congrArg leNat hvalue
        rw [hword]

theorem run_findObjectHandle (h : Represents e m a fs) :
    findObjectHandle.run e.byte = objectHandle fs := by
  rw [findObjectHandle, objectHandle, Read.run_bind, run_readHandle h]
  cases handleNamed fs (cstr "file_handle") with
  | some handle => exact Read.run_pure _ _
  | none =>
      show (readHandle (cstr "key_handle") >>= _).run e.byte = _
      rw [Read.run_bind, run_readHandle h]
      cases handleNamed fs (cstr "key_handle") with
      | some handle => exact Read.run_pure _ _
      | none => exact run_readHandle h _

end Represented

/-! ## What the operations compute -/

/-- The path `Observe` records for the fields of a successful open. -/
def openedPath (t : HandlePathTracker) (fs : List TraceField) (path : List UInt16) :
    List UInt16 :=
  match handleNamed fs (cstr "root_directory") with
  | none => path
  | some root =>
      if root = 0 then path
      else
        match t.find root with
        | some base => resolvePath base path
        | none => path

/-- The handle and the path of the fields of a successful open. -/
def sourceOf (fs : List TraceField) : Option (UInt64 × List UInt16) :=
  match wideNamed fs (cstr "path"), objectHandle fs with
  | some path, some handle =>
      if path ≠ [] ∧ handle ≠ 0 ∧ succeeded fs = true then some (handle, path) else none
  | _, _ => none

def observeFields (t : HandlePathTracker) (fs : List TraceField) : HandlePathTracker :=
  match sourceOf fs with
  | some (handle, path) => t.record handle (openedPath t fs path)
  | none => t

/-- The path `Annotate` adds to an event of the fields. -/
def annotationOf (t : HandlePathTracker) (fs : List TraceField) : Option (List UInt16) :=
  match fieldNamed fs (cstr "path"), objectHandle fs with
  | none, some handle => if handle = 0 then none else t.find handle
  | _, _ => none

/-- The handle that a successful close of the fields releases. -/
def releasedBy (fs : List TraceField) : Option UInt64 :=
  match handleNamed fs (cstr "handle") with
  | some handle => if handle ≠ 0 ∧ succeeded fs = true then some handle else none
  | none => none

def evictFields (t : HandlePathTracker) (fs : List TraceField) : HandlePathTracker :=
  match releasedBy fs with
  | some handle => t.forget handle
  | none => t

theorem observeFields_no_path {fs : List TraceField} (t : HandlePathTracker)
    (h : fieldNamed fs (cstr "path") = none) : observeFields t fs = t := by
  have hwide : wideNamed fs (cstr "path") = none := by
    rw [wideNamed, h]
  rw [observeFields, sourceOf, hwide]

theorem evictFields_no_handle {fs : List TraceField} (t : HandlePathTracker)
    (h : handleNamed fs (cstr "handle") = none) : evictFields t fs = t := by
  rw [evictFields, releasedBy, h]

/-- The field `Annotate` appends. -/
def pathField (path : List UInt16) : TraceField where
  type := UInt8.ofNat TraceFieldType.wideString.code
  name := cstr "path"
  value := wideValue path

section Represented

variable {e : TraceEvent} {m a : List UInt8} {fs : List TraceField}

theorem run_observe (h : Represents e m a fs) (t : HandlePathTracker) :
    (observe t).run e.byte = observeFields t fs := by
  rw [observe, observeFields, sourceOf, Read.run_bind, run_readWideString h]
  cases wideNamed fs (cstr "path") with
  | none => exact Read.run_pure _ _
  | some path =>
      show Read.run (ite (path = []) _ _) e.byte = _
      rw [Read.run_ite, Read.run_bind, run_findObjectHandle h]
      cases objectHandle fs with
      | none =>
          show ite _ _ ((Pure.pure t : Read HandlePathTracker).run e.byte) = _
          rw [Read.run_pure, ite_self]
      | some handle =>
          show ite _ _ (Read.run (ite (handle = 0) _ _) e.byte) = _
          rw [Read.run_ite, Read.run_bind, run_eventSucceeded h, Read.run_ite, Read.run_bind,
            run_readHandle h]
          simp only [Read.run_pure]
          by_cases hpath : path = []
          · rw [if_pos hpath, if_neg (fun hand => hand.1 hpath)]
          rw [if_neg hpath]
          by_cases hzero : handle = 0
          · rw [if_pos hzero, if_neg (fun hand => hand.2.1 hzero)]
          rw [if_neg hzero]
          by_cases hok : succeeded fs = true
          · rw [if_pos hok, if_pos ⟨hpath, hzero, hok⟩]
            simp only [openedPath]
            cases handleNamed fs (cstr "root_directory") with
            | none => exact Read.run_pure _ _
            | some root =>
                show Read.run (ite (root ≠ 0) _ _) e.byte = _
                rw [Read.run_ite, Read.run_pure]
                by_cases hroot : root = 0
                · rw [if_neg (fun hne => hne hroot), hroot]
                  rfl
                · rw [if_pos hroot]
                  simp only [if_neg hroot]
                  cases t.find root with
                  | none => exact Read.run_pure _ _
                  | some base => exact Read.run_pure _ _
          · rw [if_neg hok, if_neg (fun hand => hok hand.2.2)]

theorem run_evict (h : Represents e m a fs) (t : HandlePathTracker) :
    (evict t).run e.byte = evictFields t fs := by
  rw [evict, evictFields, releasedBy, Read.run_bind, run_readHandle h]
  cases handleNamed fs (cstr "handle") with
  | none => exact Read.run_pure _ _
  | some handle =>
      show Read.run (ite (handle = 0) _ _) e.byte = _
      rw [Read.run_ite, Read.run_bind, run_eventSucceeded h]
      simp only [Read.run_pure]
      by_cases hzero : handle = 0
      · rw [if_pos hzero, if_neg (fun hand => hand.1 hzero)]
      · rw [if_neg hzero]
        by_cases hok : succeeded fs = true
        · rw [if_pos hok, if_pos ⟨hzero, hok⟩]
        · rw [if_neg hok, if_neg (fun hand => hok hand.2)]

/-- `Annotate` looks up the object handle of an event without a path. -/
theorem run_annotation_of (h : Represents e m a fs) (t : HandlePathTracker) :
    (annotationPlan t).run e.byte
      = match annotationOf t fs with
        | none => none
        | some path => (appendWideString (cstr "path") path).run e.byte := by
  have hsome := run_findField_isSome h (cstr "path")
  rw [annotationPlan, annotationOf, Read.run_bind]
  cases hfield : fieldNamed fs (cstr "path") with
  | some f =>
      rw [hfield] at hsome
      obtain ⟨ref, href⟩ := Option.isSome_iff_exists.mp hsome
      rw [href]
      exact Read.run_pure _ _
  | none =>
      rw [hfield] at hsome
      have hnone : (findField (cstr "path")).run e.byte = none :=
        Option.not_isSome_iff_eq_none.mp (by rw [hsome]; exact Bool.false_ne_true)
      rw [hnone]
      show (findObjectHandle >>= _).run e.byte = _
      rw [Read.run_bind, run_findObjectHandle h]
      cases objectHandle fs with
      | none => exact Read.run_pure _ _
      | some handle =>
          show Read.run (ite (handle = 0) _ _) e.byte = _
          rw [Read.run_ite, Read.run_pure]
          by_cases hzero : handle = 0
          · rw [if_pos hzero]
            simp only [if_pos hzero]
          · rw [if_neg hzero]
            simp only [if_neg hzero]
            cases t.find handle with
            | none => exact Read.run_pure _ _
            | some path => rfl

end Represented

/-! ## Annotated events -/

theorem fieldNamed_eq_none {fs : List TraceField} {name : List UInt8} :
    fieldNamed fs name = none ↔ name ∉ fs.map TraceField.name := by
  rw [fieldNamed, List.find?_eq_none]
  constructor
  · intro h hmem
    obtain ⟨f, hf, heq⟩ := List.mem_map.mp hmem
    exact h f hf (beq_iff_eq.mpr heq)
  · intro h f hf heq
    exact h (List.mem_map.mpr ⟨f, hf, beq_iff_eq.mp heq⟩)

/-- A field behind the others hides behind them, and is found by its name only. -/
theorem fieldNamed_append_ne {fs : List TraceField} {g : TraceField} {name : List UInt8}
    (h : g.name ≠ name) : fieldNamed (fs ++ [g]) name = fieldNamed fs name := by
  rw [fieldNamed, fieldNamed, List.find?_append]
  have hg : List.find? (fun f => f.name == name) [g] = none := by
    rw [List.find?_cons, beq_eq_false_iff_ne.mpr h]
    rfl
  rw [hg, Option.or_none]

theorem wideValue_length (path : List UInt16) :
    (wideValue path).length = min traceMaxStringBytes (path.length * 2) := by
  rw [wideValue, List.length_take, wideBytes_length]

/-- A path is cut to 256 characters. -/
theorem wideValue_take (path : List UInt16) : wideValue path = wideBytes (path.take 256) :=
  wideBytes_take path 256

/-- A path that is not cut. -/
theorem wideValue_of_le {path : List UInt16} (h : path.length ≤ 256) :
    wideValue path = wideBytes path := by
  rw [wideValue_take, List.take_of_length_le h]

/-- What is read back of a path. -/
theorem wideNamed_pathField {fs : List TraceField} {path : List UInt16}
    (h : fieldNamed fs (cstr "path") = some (pathField path)) :
    wideNamed fs (cstr "path") = some (path.take 256) := by
  have hvalue : (pathField path).value = wideBytes (path.take 256) := wideValue_take path
  rw [wideNamed, h]
  show some (wideOfBytes ((pathField path).value.take ((pathField path).value.length / 2 * 2)))
    = _
  rw [hvalue, wideBytes_length, Nat.mul_div_cancel _ (by decide), ← wideBytes_length,
    List.take_length, wideOfBytes_wideBytes]

theorem pathField_ok (path : List UInt16) : (pathField path).Ok := by
  have h512 : traceMaxStringBytes = 512 := rfl
  have hname : FieldNameOk (cstr "path") := fieldNameOk_cstr _ (by decide +kernel)
  refine ⟨hname, ?_⟩
  show (wideValue path).length % 2 = 0 ∧ (wideValue path).length ≤ traceMaxStringBytes
  rw [wideValue_length]
  omega

section Represented

variable {e : TraceEvent} {m a : List UInt8} {fs : List TraceField} {t : HandlePathTracker}

/-- The stores of `Annotate` when there is a path and it fits. -/
theorem annotate_eq (h : Represents e m a fs) {path : List UInt16}
    (hpath : annotationOf t fs = some path)
    (hfit : e.size + (pathField path).serialise.length ≤ traceMaxEventBytes) :
    annotate t e = countField
      (writeField e e.size (UInt8.ofNat TraceFieldType.wideString.code
        :: UInt8.ofNat (cstr "path").length :: leBytes 2 (wideValue path).length)
        (cstr "path") (wideValue path))
      (e.size + (pathField path).serialise.length) (e.fieldCount + 1) := by
  have hlen : (pathField path).serialise.length
      = sizeofFieldHeader + (cstr "path").length + (wideValue path).length :=
    TraceField.serialise_length _
  have hrun : (annotationPlan t).run e.byte = some
      { cursor := e.size
        header := UInt8.ofNat TraceFieldType.wideString.code
          :: UInt8.ofNat (cstr "path").length :: leBytes 2 (wideValue path).length
        name := cstr "path"
        value := wideValue path
        size := e.size + (sizeofFieldHeader + (cstr "path").length
          + (wideValue path).length)
        fieldCount := e.fieldCount + 1 } := by
    rw [run_annotation_of h, hpath]
    simp only [appendWideString, Read.run_bind, run_readSize, run_readFieldCount,
      Read.run_ite, Read.run_pure]
    rw [if_neg (by rw [← hlen]; omega)]
  rw [annotate, hrun, hlen]
  rfl

/-- **ANNOTATE** appends the path of the object handle when there is one and it
    fits. -/
theorem annotate_represents (h : Represents e m a fs) {path : List UInt16}
    (hpath : annotationOf t fs = some path)
    (hfit : e.size + (pathField path).serialise.length ≤ traceMaxEventBytes) :
    Represents (annotate t e) m a (fs ++ [pathField path]) := by
  have hnew : cstr "path" ∉ fs.map TraceField.name := by
    refine fieldNamed_eq_none.mp ?_
    rw [annotationOf] at hpath
    split at hpath
    · assumption
    · cases hpath
  rw [annotate_eq h hpath hfit]
  exact h.append (pathField_ok path) hnew hfit rfl

/-- The declared bytes in front of the new field keep their values, but for the
    two members of the header that count it. -/
theorem annotate_byte (h : Represents e m a fs) {path : List UInt16}
    (hpath : annotationOf t fs = some path)
    (hfit : e.size + (pathField path).serialise.length ≤ traceMaxEventBytes) {i : Nat}
    (hi : i < e.size) (hsize : i < 6 ∨ 8 ≤ i) (hcount : i < 10 ∨ 12 ≤ i) :
    (annotate t e).byte i = e.byte i := by
  rw [annotate_eq h hpath hfit, byte_countField _ _ _ hsize hcount]
  have hlen : (pathField path).serialise.length
      = sizeofFieldHeader + (cstr "path").length + (wideValue path).length :=
    TraceField.serialise_length _
  have h4 : sizeofFieldHeader = 4 := rfl
  refine (byte_writeField ?_).2 i hi
  simp only [List.length_cons, leBytes_length]
  omega

/-- Without a path to add, or without room, the event is left alone. -/
theorem annotate_eq_self (h : Represents e m a fs)
    (hnone : ∀ path, annotationOf t fs = some path →
      traceMaxEventBytes < e.size + (pathField path).serialise.length) :
    annotate t e = e := by
  have hrun : (annotationPlan t).run e.byte = none := by
    rw [run_annotation_of h]
    cases hpath : annotationOf t fs with
    | none => rfl
    | some path =>
        have hfull := hnone path hpath
        rw [TraceField.serialise_length] at hfull
        simp only [appendWideString, Read.run_bind, run_readSize, run_readFieldCount,
          Read.run_ite, Read.run_pure]
        exact if_pos hfull
  rw [annotate, hrun]

/-- The fields of an event after `Annotate`. -/
theorem annotate_fields (h : Represents e m a fs) (t : HandlePathTracker) :
    ∃ fs', Represents (annotate t e) m a fs' ∧
      (fs' = fs ∨ ∃ path, annotationOf t fs = some path ∧ fs' = fs ++ [pathField path]) := by
  by_cases hroom : ∃ path, annotationOf t fs = some path ∧
      e.size + (pathField path).serialise.length ≤ traceMaxEventBytes
  · obtain ⟨path, hpath, hfit⟩ := hroom
    exact ⟨_, annotate_represents h hpath hfit, Or.inr ⟨path, hpath, rfl⟩⟩
  · refine ⟨fs, ?_, Or.inl rfl⟩
    rw [annotate_eq_self h fun path hpath =>
      Nat.not_le.mp fun hfit => hroom ⟨path, hpath, hfit⟩]
    exact h

end Represented

/-- An added path does not change what a close releases. -/
theorem evictFields_append_path (t : HandlePathTracker) (fs : List TraceField)
    (path : List UInt16) : evictFields t (fs ++ [pathField path]) = evictFields t fs := by
  have hhandle : fieldNamed (fs ++ [pathField path]) (cstr "handle")
      = fieldNamed fs (cstr "handle") :=
    fieldNamed_append_ne (show cstr "path" ≠ cstr "handle" by decide)
  have hresult : fieldNamed (fs ++ [pathField path]) (cstr "result")
      = fieldNamed fs (cstr "result") :=
    fieldNamed_append_ne (show cstr "path" ≠ cstr "result" by decide)
  rw [evictFields, evictFields, releasedBy, releasedBy, handleNamed, handleNamed, succeeded,
    succeeded, hhandle, hresult]

/-! ## The writer -/

/-- What `WriterLoop` does with one event before it renders it. -/
def writeEvent (t : HandlePathTracker) (e : TraceEvent) : HandlePathTracker × TraceEvent :=
  let t := (observe t).run e.byte
  let e := annotate t e
  ((evict t).run e.byte, e)

/-- `WriterLoop` on the events it pops: the tracker and the events it renders. -/
def writeAll (t : HandlePathTracker) :
    List TraceEvent → HandlePathTracker × List TraceEvent
  | [] => (t, [])
  | e :: es =>
      let (t, e) := writeEvent t e
      let (t, rendered) := writeAll t es
      (t, e :: rendered)

theorem writeAll_cons_fst (t : HandlePathTracker) (e : TraceEvent) (es : List TraceEvent) :
    (writeAll t (e :: es)).1 = (writeAll (writeEvent t e).1 es).1 := by
  dsimp only [writeAll]

/-- **ONE EVENT** of the writer: its fields decide the next table. -/
theorem writeEvent_fst {e : TraceEvent} {m a : List UInt8} {fs : List TraceField}
    (h : Represents e m a fs) (t : HandlePathTracker) :
    (writeEvent t e).1 = evictFields (observeFields t fs) fs := by
  have hrun : (writeEvent t e).1 = (evict ((observe t).run e.byte)).run
      (annotate ((observe t).run e.byte) e).byte := by
    dsimp only [writeEvent]
  rw [hrun, run_observe h t]
  obtain ⟨fs', hrep, hfs⟩ := annotate_fields h (observeFields t fs)
  rw [run_evict hrep]
  rcases hfs with rfl | ⟨path, -, rfl⟩
  · rfl
  · exact evictFields_append_path _ _ _

/-- The events in front of a suffix are written as if it were not there. -/
theorem writeAll_append (t : HandlePathTracker) (xs ys : List TraceEvent) :
    writeAll t (xs ++ ys)
      = ((writeAll (writeAll t xs).1 ys).1,
        (writeAll t xs).2 ++ (writeAll (writeAll t xs).1 ys).2) := by
  induction xs generalizing t with
  | nil => rfl
  | cons x xs ih => simp only [List.cons_append, writeAll, ih]

theorem writeAll_length (t : HandlePathTracker) (xs : List TraceEvent) :
    (writeAll t xs).2.length = xs.length := by
  induction xs generalizing t with
  | nil => rfl
  | cons x xs ih => simp only [writeAll, List.length_cons, ih]

theorem writeEvent_snd {e : TraceEvent} {m a : List UInt8} {fs : List TraceField}
    (h : Represents e m a fs) (t : HandlePathTracker) :
    (writeEvent t e).2 = annotate (observeFields t fs) e := by
  have hrun : (writeEvent t e).2 = annotate ((observe t).run e.byte) e := by
    dsimp only [writeEvent]
  rw [hrun, run_observe h t]

/-- What is rendered for an event is written with the table of those before it. -/
theorem writeAll_getElem? (t : HandlePathTracker) (before after : List TraceEvent)
    (e : TraceEvent) :
    (writeAll t (before ++ e :: after)).2[before.length]?
      = some (writeEvent (writeAll t before).1 e).2 := by
  rw [writeAll_append, List.getElem?_append_right (Nat.le_of_eq (writeAll_length _ _)),
    writeAll_length, Nat.sub_self]
  dsimp only [writeAll]
  rfl

end ScopeCorrelator
