import ApiScope.CliOptionsProofs
import ApiScope.CollectProofs
import ApiScope.RemoteExportProofs
import ApiScope.TraceRendererProofs
import Mathlib.Data.List.TakeWhile

/-! # The hook registry — descriptors in the hook DLL

    `DiscoverHooks` maps the hook DLL without running it and looks for exports
    whose names begin with `ApiScopeHook_`.  Each is a descriptor that
    `DEFINE_API_HOOK` has laid out: a header and four fixed-size strings.  One
    descriptor that is invalid, incomplete or there twice gives up all of them.

    The loop over the table of names is a collection (`discoverLoop_collect`):
    what is returned is sorted, has distinct names under which it is found, and
    describes every descriptor of the DLL, or nothing.  From the descriptors of
    any list of `DEFINE_API_HOOK`, in any order of the table, it gives back
    exactly the declared hooks (`discoverHooks_declared`). -/

namespace ScopeRegistry

open ScopeBytes ScopeProtocol ScopeHook ScopeDebug ScopeExports ScopeCliOptions ScopeCollect
open ScopeRenderer (decimal)

/-! ## ApiHookDescriptor -/

/-- `API_HOOK_DESCRIPTOR_MAGIC`. -/
def apiHookDescriptorMagic : Nat := 0x4B484150

/-- `API_HOOK_DESCRIPTOR_VERSION`. -/
def apiHookDescriptorVersion : Nat := 1

/-- `API_HOOK_MODULE_NAME_BYTES`. -/
def apiHookModuleNameBytes : Nat := 64

/-- `API_HOOK_EXPORT_NAME_BYTES`. -/
def apiHookExportNameBytes : Nat := 128

/-- `sizeof(ApiHookDescriptor)`, which is packed. -/
def sizeofApiHookDescriptor : Nat := 8 + apiHookModuleNameBytes + 3 * apiHookExportNameBytes

/-! ## Reading the module -/

/-- A module as `LoadLibraryExW` has mapped it, and what `GetProcAddress` finds
    in it. -/
structure HookModule where
  memory : TargetMemory
  base : Nat
  getProcAddress : List UInt8 → Option Nat

/-- Why no hooks are returned. -/
inductive Refusal where
  /-- A read outside of the memory, which ends the process. -/
  | accessViolation
  | notMapped (lastError : Nat)
  /-- The module has no headers of an image, or no exports. -/
  | noExports
  | invalid (exportName : List UInt8)
  | incomplete (exportName : List UInt8)
  deriving DecidableEq

/-- What is written to `stderr`. -/
def Refusal.message : Refusal → List UInt8
  | .accessViolation => []
  | .notMapped lastError =>
      cstr "[!] Failed to inspect hook DLL (" ++ (decimal lastError ++ cstr ")\n")
  | .noExports => []
  | .invalid exportName =>
      cstr "[!] Invalid hook descriptor export: " ++ (exportName ++ cstr "\n")
  | .incomplete exportName =>
      cstr "[!] Duplicate or incomplete hook descriptor: " ++ (exportName ++ cstr "\n")

/-- A number of `n` bytes. -/
def readNumber (m : HookModule) (address n : Nat) : Except Refusal Nat :=
  match readProcessMemory m.memory address n with
  | none => .error .accessViolation
  | some bytes => .ok (leNat bytes)

/-- The characters up to the NUL or the limit, and whether the NUL was seen. -/
def readUntilNul (mem : TargetMemory) : (limit address : Nat) → Option (List UInt8 × Bool)
  | 0, _ => some ([], false)
  | limit + 1, address =>
      match mem address with
      | none => none
      | some byte =>
          if byte = 0 then some ([], true)
          else (readUntilNul mem limit (address + 1)).map fun r => (byte :: r.1, r.2)

/-- A string of any length. -/
def readCString (m : HookModule) (address : Nat) : Except Refusal (List UInt8) :=
  match readUntilNul m.memory (2 ^ 64) address with
  | some (value, true) => .ok value
  | _ => .error .accessViolation

/-- `HasPrefix`. -/
def hasPrefix (value pre : List UInt8) : Bool :=
  pre.length ≤ value.length ∧ value.take pre.length = pre

/-- `ReadFixedString`, in the descriptor of an export: the string has a NUL
    within its capacity, and is not empty. -/
def readFixedString (m : HookModule) (exportName : List UInt8) (capacity address : Nat) :
    Except Refusal (List UInt8) :=
  match readUntilNul m.memory capacity address with
  | none => .error .accessViolation
  | some (value, ended) =>
      if value = [] ∨ ended = false then .error (.invalid exportName) else .ok value

/-- A number in the descriptor of an export that has only one value. -/
def checkNumber (m : HookModule) (exportName : List UInt8) (address n value : Nat) :
    Except Refusal Unit := do
  let found ← readNumber m address n
  if found = value then .ok () else .error (.invalid exportName)

/-- The descriptor at an address: the checks in the order of their reads. -/
def readDescriptor (m : HookModule) (exportName : List UInt8) (descriptor : Nat) :
    Except Refusal HookDefinition := do
  checkNumber m exportName descriptor 4 apiHookDescriptorMagic
  checkNumber m exportName (descriptor + 4) 2 apiHookDescriptorVersion
  checkNumber m exportName (descriptor + 6) 2 sizeofApiHookDescriptor
  let moduleName ← readFixedString m exportName apiHookModuleNameBytes (descriptor + 8)
  let name ← readFixedString m exportName apiHookExportNameBytes (descriptor + 72)
  let handlerExport ← readFixedString m exportName apiHookExportNameBytes (descriptor + 200)
  let trampolineExport ← readFixedString m exportName apiHookExportNameBytes (descriptor + 328)
  .ok { moduleName, exportName := name, handlerExport, trampolineExport, canonicalName := [] }

/-- The definition that the descriptor of an export gives. -/
def definitionOf (m : HookModule) (exportName : List UInt8) : Except Refusal HookDefinition :=
  match m.getProcAddress exportName with
  | none => .error (.invalid exportName)
  | some descriptor => do
      let hook ← readDescriptor m exportName descriptor
      let moduleName := normalizeModuleName hook.moduleName
      .ok { hook with
        moduleName
        canonicalName := moduleName ++ (cstr "!" ++ hook.exportName) }

/-- The handler and the slot of the trampoline are exported. -/
def complete (m : HookModule) (hook : HookDefinition) : Bool :=
  (m.getProcAddress hook.handlerExport).isSome &&
    (m.getProcAddress hook.trampolineExport).isSome

/-! ## `DiscoverHooks` -/

/-- `nameAddresses` and `NumberOfNames`. -/
def exportNames (m : HookModule) : Except Refusal (Nat × Nat) := do
  let e_magic ← readNumber m m.base 2
  if e_magic ≠ 0x5A4D then .error .noExports
  else
    let e_lfanew ← readNumber m (m.base + 60) 4
    let ntHeaders := pointerAdd m.base (signExtend e_lfanew)
    let exportDirectory ← readNumber m (ntHeaders + 136) 8
    let virtualAddress := exportDirectory % 2 ^ 32
    let signature ← readNumber m ntHeaders 4
    if signature ≠ 0x4550 ∨ virtualAddress = 0 then .error .noExports
    else
      let exports := pointerAdd m.base virtualAddress
      let addressOfNames ← readNumber m (exports + 32) 4
      let numberOfNames ← readNumber m (exports + 24) 4
      .ok (pointerAdd m.base addressOfNames, numberOfNames)

/-- The name with an index. -/
def exportNameAt (m : HookModule) (nameAddresses index : Nat) : Except Refusal (List UInt8) := do
  let nameAddress ← readNumber m (nameAddresses + 4 * index) 4
  readCString m (pointerAdd m.base nameAddress)

def descriptorPrefix : List UInt8 := cstr "ApiScopeHook_"

/-- The loop over the names, with `count` of them left. -/
def discoverLoop (m : HookModule) (nameAddresses : Nat) : (count index : Nat) →
    (canonicalNames : List (List UInt8)) → (hooks : List HookDefinition) →
    Except Refusal (List HookDefinition)
  | 0, _, _, hooks => .ok hooks
  | count + 1, index, canonicalNames, hooks => do
      let exportName ← exportNameAt m nameAddresses index
      if hasPrefix exportName descriptorPrefix = false then
        discoverLoop m nameAddresses count (index + 1) canonicalNames hooks
      else
        let hook ← definitionOf m exportName
        if hook.canonicalName ∈ canonicalNames ∨ complete m hook = false then
          .error (.incomplete exportName)
        else
          discoverLoop m nameAddresses count (index + 1) (hook.canonicalName :: canonicalNames)
            (hooks ++ [hook])

/-- The hooks of the module that `LoadLibraryExW` gives, or its last error. -/
def discover (loaded : Except Nat HookModule) : Except Refusal (List HookDefinition) :=
  match loaded with
  | .error lastError => .error (.notMapped lastError)
  | .ok m => do
      let (nameAddresses, numberOfNames) ← exportNames m
      discoverLoop m nameAddresses numberOfNames 0 [] []

/-- `DiscoverHooks`, with what it writes to `stderr`; nothing where a read faults. -/
def discoverHooks (loaded : Except Nat HookModule) :
    Option (List HookDefinition × List UInt8) :=
  match discover loaded with
  | .ok hooks => some (sortOn HookDefinition.canonicalName hooks, [])
  | .error .accessViolation => none
  | .error refusal => some ([], refusal.message)

/-! ## The loop as a collection -/

theorem bind_ok {α β : Type} {x : Except Refusal α} {f : α → Except Refusal β} {b : β} :
    x >>= f = .ok b ↔ ∃ a, x = .ok a ∧ f a = .ok b := by
  cases x with
  | error e =>
      constructor
      · intro h
        cases h
      · rintro ⟨a, h, -⟩
        cases h
  | ok a =>
      constructor
      · intro h
        exact ⟨a, rfl, h⟩
      · rintro ⟨a', h, hf⟩
        cases h
        exact hf

/-- The names that are looked at. -/
def descriptorNames (names : List (List UInt8)) : List (List UInt8) :=
  names.filter fun name => hasPrefix name descriptorPrefix

/-- The definition of an export whose functions are there. -/
def completeDefinition (m : HookModule) (exportName : List UInt8) :
    Except Refusal HookDefinition := do
  let hook ← definitionOf m exportName
  if complete m hook then .ok hook else .error (.incomplete exportName)

/-- The hooks of a table of names. -/
def collectHooks (m : HookModule) (canonicalNames names : List (List UInt8)) :
    Except Refusal (List HookDefinition) :=
  collect (completeDefinition m) HookDefinition.canonicalName .incomplete canonicalNames
    (descriptorNames names)

/-- The names from `index` on. -/
def NamesFrom (m : HookModule) (nameAddresses index : Nat) (names : List (List UInt8)) : Prop :=
  ∀ i (h : i < names.length), exportNameAt m nameAddresses (index + i) = .ok names[i]

variable {m : HookModule} {nameAddresses index : Nat}

theorem NamesFrom.tail {name : List UInt8} {names : List (List UInt8)}
    (h : NamesFrom m nameAddresses index (name :: names)) :
    NamesFrom m nameAddresses (index + 1) names := by
  intro i hi
  have hnext := h (i + 1) (Nat.succ_lt_succ hi)
  rw [Nat.add_right_comm, Nat.add_assoc]
  exact hnext

theorem NamesFrom.cons {name : List UInt8} {names : List (List UInt8)}
    (hname : exportNameAt m nameAddresses index = .ok name)
    (h : NamesFrom m nameAddresses (index + 1) names) :
    NamesFrom m nameAddresses index (name :: names) := by
  intro i hi
  cases i with
  | zero => exact hname
  | succ i =>
      have hrest := h i (Nat.lt_of_succ_lt_succ hi)
      rw [Nat.add_right_comm, Nat.add_assoc] at hrest
      exact hrest

theorem collectHooks_skip {name : List UInt8} (hstarts : hasPrefix name descriptorPrefix = false)
    (canonicalNames names : List (List UInt8)) :
    collectHooks m canonicalNames (name :: names) = collectHooks m canonicalNames names := by
  have hsame : descriptorNames (name :: names) = descriptorNames names :=
    List.filter_cons_of_neg (by rw [hstarts]; exact Bool.false_ne_true)
  rw [collectHooks, collectHooks, hsame]

/-- A descriptor is taken, or gives up all. -/
theorem collectHooks_cons {name : List UInt8} (hstarts : hasPrefix name descriptorPrefix = true)
    (canonicalNames names : List (List UInt8)) :
    collectHooks m canonicalNames (name :: names) = definitionOf m name >>= fun hook =>
      if hook.canonicalName ∈ canonicalNames ∨ complete m hook = false then
        .error (.incomplete name)
      else (collectHooks m (hook.canonicalName :: canonicalNames) names).map (hook :: ·) := by
  have htaken : descriptorNames (name :: names) = name :: descriptorNames names :=
    List.filter_cons_of_pos hstarts
  rw [collectHooks, htaken, collect]
  cases hdefinition : definitionOf m name with
  | error e =>
      have hread : completeDefinition m name = .error e := by
        rw [completeDefinition, hdefinition]
        rfl
      rw [hread]
      rfl
  | ok hook =>
      have hread : completeDefinition m name
          = if complete m hook then .ok hook else .error (.incomplete name) := by
        rw [completeDefinition, hdefinition]
        rfl
      rw [hread]
      show _ = if hook.canonicalName ∈ canonicalNames ∨ complete m hook = false then
          Except.error (Refusal.incomplete name)
        else _
      cases complete m hook with
      | false => rw [if_neg Bool.false_ne_true, if_pos (Or.inr rfl)]
      | true =>
          rw [if_pos rfl]
          dsimp only
          by_cases hseen : hook.canonicalName ∈ canonicalNames
          · rw [if_pos hseen, if_pos (Or.inl hseen)]
          · rw [if_neg hseen, if_neg (by simp [hseen]), collectHooks]
            cases collect (completeDefinition m) HookDefinition.canonicalName .incomplete
              (hook.canonicalName :: canonicalNames) (descriptorNames names) with
            | error e => rfl
            | ok found => rfl

/-- **THE LOOP** collects the hooks of the names that it reads. -/
theorem discoverLoop_collect {names : List (List UInt8)}
    (hnames : NamesFrom m nameAddresses index names) (canonicalNames : List (List UInt8))
    (hooks : List HookDefinition) :
    discoverLoop m nameAddresses names.length index canonicalNames hooks
      = (collectHooks m canonicalNames names).map (hooks ++ ·) := by
  induction names generalizing index canonicalNames hooks with
  | nil =>
      show Except.ok hooks = .ok (hooks ++ [])
      rw [List.append_nil]
  | cons name names ih =>
      have hname : exportNameAt m nameAddresses index = .ok name :=
        hnames 0 (Nat.zero_lt_succ _)
      rw [List.length_cons, discoverLoop, hname]
      show (if _ then _ else _) = _
      cases hstarts : hasPrefix name descriptorPrefix with
      | false => rw [if_pos rfl, ih hnames.tail, collectHooks_skip hstarts]
      | true =>
          rw [if_neg (by simp), collectHooks_cons hstarts]
          cases definitionOf m name with
          | error e => rfl
          | ok hook =>
              show (if _ then _ else _) = Except.map _ (if _ then _ else _)
              by_cases hrefused : hook.canonicalName ∈ canonicalNames ∨ complete m hook = false
              · rw [if_pos hrefused, if_pos hrefused]
                rfl
              · rw [if_neg hrefused, if_neg hrefused, ih hnames.tail]
                cases collectHooks m (hook.canonicalName :: canonicalNames) names with
                | error e => rfl
                | ok found =>
                    show Except.ok (hooks ++ [hook] ++ found) = Except.ok (hooks ++ hook :: found)
                    rw [List.append_assoc]
                    rfl

/-- A loop that succeeds has read all names. -/
theorem discoverLoop_names {count : Nat} {canonicalNames : List (List UInt8)}
    {hooks found : List HookDefinition}
    (h : discoverLoop m nameAddresses count index canonicalNames hooks = .ok found) :
    ∃ names, names.length = count ∧ NamesFrom m nameAddresses index names := by
  induction count generalizing index canonicalNames hooks with
  | zero => exact ⟨[], rfl, fun i hi => absurd hi (Nat.not_lt_zero i)⟩
  | succ count ih =>
      obtain ⟨name, hname, h⟩ := bind_ok.mp h
      have hrest : ∃ names, names.length = count ∧
          NamesFrom m nameAddresses (index + 1) names := by
        split at h
        next => exact ih h
        next =>
          obtain ⟨hook, -, h⟩ := bind_ok.mp h
          split at h
          next => cases h
          next => exact ih h
      obtain ⟨names, hlength, hnames⟩ := hrest
      exact ⟨name :: names, by rw [List.length_cons, hlength], hnames.cons hname⟩

/-! ## What is read -/

/-- The names of the export table. -/
def HoldsNames (m : HookModule) (names : List (List UInt8)) : Prop :=
  ∃ nameAddresses, exportNames m = .ok (nameAddresses, names.length) ∧
    NamesFrom m nameAddresses 0 names

theorem discover_names {names : List (List UInt8)} (h : HoldsNames m names) :
    discover (.ok m) = collectHooks m [] names := by
  obtain ⟨nameAddresses, htable, hnames⟩ := h
  rw [discover, htable]
  show discoverLoop m nameAddresses names.length 0 [] [] = _
  rw [discoverLoop_collect hnames]
  cases collectHooks m [] names with
  | error e => rfl
  | ok found => rfl

theorem discover_ok {loaded : Except Nat HookModule} {hooks : List HookDefinition}
    (h : discover loaded = .ok hooks) :
    ∃ m names, loaded = .ok m ∧ HoldsNames m names ∧ collectHooks m [] names = .ok hooks := by
  cases loaded with
  | error lastError => cases h
  | ok m =>
      obtain ⟨⟨nameAddresses, count⟩, htable, hloop⟩ := bind_ok.mp h
      obtain ⟨names, hlength, hnames⟩ := discoverLoop_names hloop
      have hholds : HoldsNames m names := ⟨nameAddresses, hlength ▸ htable, hnames⟩
      exact ⟨m, names, rfl, hholds, by rw [← discover_names hholds]; exact h⟩

/-- A valid descriptor whose functions are exported. -/
def Describes (m : HookModule) (name : List UInt8) (hook : HookDefinition) : Prop :=
  definitionOf m name = .ok hook ∧ complete m hook = true

theorem completeDefinition_ok {name : List UInt8} {hook : HookDefinition} :
    completeDefinition m name = .ok hook ↔ Describes m name hook := by
  rw [completeDefinition, bind_ok]
  constructor
  · rintro ⟨found, hfound, h⟩
    split at h
    next hcomplete =>
      cases h
      exact ⟨hfound, hcomplete⟩
    next => cases h
  · rintro ⟨hfound, hcomplete⟩
    exact ⟨hook, hfound, if_pos hcomplete⟩

/-- **ALL** descriptors, with distinct names. -/
theorem collectHooks_ok {names : List (List UInt8)} {hooks : List HookDefinition} :
    collectHooks m [] names = .ok hooks ↔
      List.Forall₂ (Describes m) (descriptorNames names) hooks ∧
        (hooks.map HookDefinition.canonicalName).Nodup := by
  have hdescribes : (fun name hook => completeDefinition m name = .ok hook) = Describes m := by
    funext name hook
    exact propext completeDefinition_ok
  rw [collectHooks, collect_ok_iff, hdescribes]
  simp

/-! ### Fields -/

/-- A string from a field of `capacity` bytes. -/
structure FieldValue (capacity : Nat) (value : List UInt8) : Prop where
  nonempty : value ≠ []
  noNul : 0 ∉ value
  fits : value.length < capacity

theorem readUntilNul_value {mem : TargetMemory} {limit address : Nat} {value : List UInt8}
    {ended : Bool} (h : readUntilNul mem limit address = some (value, ended)) :
    0 ∉ value ∧ (ended = true → value.length < limit) := by
  induction limit generalizing address value with
  | zero =>
      cases h
      exact ⟨List.not_mem_nil, fun hfalse => by cases hfalse⟩
  | succ limit ih =>
      rw [readUntilNul] at h
      split at h
      next => cases h
      next byte hbyte =>
        split at h
        next =>
          cases h
          exact ⟨List.not_mem_nil, fun _ => Nat.zero_lt_succ _⟩
        next hne =>
          obtain ⟨⟨rest, ended'⟩, hrest, heq⟩ := Option.map_eq_some_iff.mp h
          cases heq
          obtain ⟨hnul, hfits⟩ := ih hrest
          refine ⟨?_, fun hended => Nat.succ_lt_succ (hfits hended)⟩
          intro hmem
          rcases List.mem_cons.mp hmem with hzero | hmem
          · exact hne hzero.symm
          · exact hnul hmem

theorem readFixedString_ok {exportName value : List UInt8} {capacity address : Nat}
    (h : readFixedString m exportName capacity address = .ok value) :
    FieldValue capacity value := by
  rw [readFixedString] at h
  split at h
  next => cases h
  next found ended hread =>
    split at h
    next => cases h
    next hvalid =>
      cases h
      obtain ⟨hnul, hfits⟩ := readUntilNul_value hread
      exact ⟨fun hnil => hvalid (Or.inl hnil), hnul,
        hfits (Bool.not_eq_false _ ▸ fun hfalse => hvalid (Or.inr hfalse))⟩

/-- The fields of a descriptor that is valid. -/
structure DescriptorFields (hook : HookDefinition) : Prop where
  moduleName : FieldValue apiHookModuleNameBytes hook.moduleName
  exportName : FieldValue apiHookExportNameBytes hook.exportName
  handlerExport : FieldValue apiHookExportNameBytes hook.handlerExport
  trampolineExport : FieldValue apiHookExportNameBytes hook.trampolineExport

theorem readDescriptor_fields {exportName : List UInt8} {descriptor : Nat}
    {hook : HookDefinition} (h : readDescriptor m exportName descriptor = .ok hook) :
    DescriptorFields hook := by
  obtain ⟨-, -, h⟩ := bind_ok.mp h
  obtain ⟨-, -, h⟩ := bind_ok.mp h
  obtain ⟨-, -, h⟩ := bind_ok.mp h
  obtain ⟨moduleName, hmodule, h⟩ := bind_ok.mp h
  obtain ⟨name, hname, h⟩ := bind_ok.mp h
  obtain ⟨handlerExport, hhandler, h⟩ := bind_ok.mp h
  obtain ⟨trampolineExport, htrampoline, h⟩ := bind_ok.mp h
  cases h
  exact ⟨readFixedString_ok hmodule, readFixedString_ok hname, readFixedString_ok hhandler,
    readFixedString_ok htrampoline⟩

/-! ### Module names -/

theorem toLower_toNat (c : UInt8) :
    (toLower c).toNat = if 65 ≤ c.toNat ∧ c.toNat ≤ 90 then c.toNat + 32 else c.toNat := by
  have hcase : (65 ≤ c ∧ c ≤ 90) ↔ (65 ≤ c.toNat ∧ c.toNat ≤ 90) := by
    rw [UInt8.le_iff_toNat_le, UInt8.le_iff_toNat_le]
    rfl
  rw [toLower]
  split
  next h =>
    rw [if_pos (hcase.mp h), UInt8.toNat_add]
    have hupper := (hcase.mp h).2
    exact Nat.mod_eq_of_lt (by simp; omega)
  next h => rw [if_neg fun h' => h (hcase.mpr h')]

theorem toLower_idem (c : UInt8) : toLower (toLower c) = toLower c := by
  apply UInt8.toNat_inj.mp
  rw [toLower_toNat, toLower_toNat]
  split
  next => split <;> omega
  next => rfl

/-- What is no letter comes from itself. -/
theorem toLower_eq_small {b c : UInt8} (h : toLower c = b)
    (hb : b.toNat < 65 ∨ b.toNat = 92) : c = b := by
  apply UInt8.toNat_inj.mp
  have hvalue := toLower_toNat c
  rw [h] at hvalue
  split at hvalue
  next => omega
  next => exact hvalue.symm

theorem mem_afterSeparator {name : List UInt8} {c : UInt8} (h : c ∈ afterSeparator name) :
    c ∈ name ∧ c ≠ 92 ∧ c ≠ 47 := by
  rw [afterSeparator, List.mem_reverse] at h
  have hkept := List.mem_takeWhile_imp h
  have hname := List.mem_reverse.mp ((List.takeWhile_prefix _).subset h)
  exact ⟨hname, by simpa using hkept⟩

/-- A name without separators is the part after the last one. -/
theorem afterSeparator_self {name : List UInt8} (h : ∀ c ∈ name, c ≠ 92 ∧ c ≠ 47) :
    afterSeparator name = name := by
  have hall : name.reverse.takeWhile (fun c => c ≠ 92 ∧ c ≠ 47) = name.reverse :=
    List.takeWhile_eq_self_iff.mpr fun c hc => by
      simpa using h c (List.mem_reverse.mp hc)
  rw [afterSeparator, hall, List.reverse_reverse]

theorem mem_normalizeModuleName {name : List UInt8} {b : UInt8}
    (h : b ∈ normalizeModuleName name) : ∃ c ∈ name, toLower c = b ∧ b ≠ 92 ∧ b ≠ 47 := by
  obtain ⟨c, hc, rfl⟩ := List.mem_map.mp h
  obtain ⟨hname, hback, hslash⟩ := mem_afterSeparator hc
  refine ⟨c, hname, rfl, fun heq => hback ?_, fun heq => hslash ?_⟩
  · exact toLower_eq_small heq (Or.inr rfl)
  · exact toLower_eq_small heq (Or.inl (by decide))

/-- A normalized name stays as it is, and so does every part of it. -/
theorem normalizeModuleName_part {name part : List UInt8}
    (h : ∀ b ∈ part, b ∈ normalizeModuleName name) : normalizeModuleName part = part := by
  have hplain : ∀ b ∈ part, b ≠ 92 ∧ b ≠ 47 := by
    intro b hb
    obtain ⟨c, -, -, hne⟩ := mem_normalizeModuleName (h b hb)
    exact hne
  rw [normalizeModuleName, afterSeparator_self hplain]
  refine (List.map_congr_left ?_).trans (List.map_id part)
  intro b hb
  obtain ⟨c, -, rfl, -⟩ := mem_normalizeModuleName (h b hb)
  exact toLower_idem c

theorem length_normalizeModuleName (name : List UInt8) :
    (normalizeModuleName name).length ≤ name.length := by
  rw [normalizeModuleName, List.length_map, afterSeparator, List.length_reverse]
  exact (List.takeWhile_prefix _).length_le.trans (Nat.le_of_eq List.length_reverse)

/-! ### Definitions -/

/-- A definition that came from a descriptor. -/
structure WellFormed (hook : HookDefinition) : Prop where
  canonicalName : hook.canonicalName = hook.moduleName ++ (cstr "!" ++ hook.exportName)
  normalized : normalizeModuleName hook.moduleName = hook.moduleName
  moduleName : 0 ∉ hook.moduleName ∧ hook.moduleName.length < apiHookModuleNameBytes
  exportName : FieldValue apiHookExportNameBytes hook.exportName
  handlerExport : FieldValue apiHookExportNameBytes hook.handlerExport
  trampolineExport : FieldValue apiHookExportNameBytes hook.trampolineExport

theorem definitionOf_wellFormed {name : List UInt8} {hook : HookDefinition}
    (h : definitionOf m name = .ok hook) : WellFormed hook := by
  rw [definitionOf] at h
  split at h
  next => cases h
  next descriptor hdescriptor =>
    obtain ⟨found, hfound, h⟩ := bind_ok.mp h
    cases h
    have hfields := readDescriptor_fields hfound
    refine ⟨rfl, normalizeModuleName_part fun b hb => hb, ⟨?_, ?_⟩, hfields.exportName,
      hfields.handlerExport, hfields.trampolineExport⟩
    · intro hzero
      obtain ⟨c, hc, hlower, -⟩ := mem_normalizeModuleName hzero
      exact hfields.moduleName.noNul (toLower_eq_small hlower (Or.inl (by decide)) ▸ hc)
    · exact (length_normalizeModuleName _).trans_lt hfields.moduleName.fits

/-- What an error of a descriptor can be. -/
def NamesOnly (name : List UInt8) {α : Type} (x : Except Refusal α) : Prop :=
  ∀ e, x = .error e → e = .accessViolation ∨ e = .invalid name

theorem NamesOnly.bind {name : List UInt8} {α β : Type} {x : Except Refusal α}
    {f : α → Except Refusal β} (hx : NamesOnly name x) (hf : ∀ a, NamesOnly name (f a)) :
    NamesOnly name (x >>= f) := by
  intro e h
  cases x with
  | error e' =>
      cases h
      exact hx e rfl
  | ok a => exact hf a e h

theorem NamesOnly.ok {name : List UInt8} {α : Type} (a : α) :
    NamesOnly name (.ok a : Except Refusal α) := by
  intro e h
  cases h

theorem checkNumber_namesOnly (name : List UInt8) (address n value : Nat) :
    NamesOnly name (checkNumber m name address n value) := by
  refine NamesOnly.bind ?_ fun found => ?_
  · intro e h
    rw [readNumber] at h
    split at h
    next =>
      cases h
      exact Or.inl rfl
    next => cases h
  · intro e h
    split at h
    next => cases h
    next =>
      cases h
      exact Or.inr rfl

theorem readFixedString_namesOnly (name : List UInt8) (capacity address : Nat) :
    NamesOnly name (readFixedString m name capacity address) := by
  intro e h
  rw [readFixedString] at h
  split at h
  next =>
    cases h
    exact Or.inl rfl
  next =>
    split at h
    next =>
      cases h
      exact Or.inr rfl
    next => cases h

/-- **ERRORS** of a descriptor name its export. -/
theorem definitionOf_namesOnly (name : List UInt8) : NamesOnly name (definitionOf m name) := by
  rw [definitionOf]
  split
  next =>
    intro e h
    cases h
    exact Or.inr rfl
  next descriptor hdescriptor =>
    refine NamesOnly.bind ?_ fun hook => .ok _
    rw [readDescriptor]
    have hnumber := fun address n value => @checkNumber_namesOnly m name address n value
    have hstring := fun capacity address => @readFixedString_namesOnly m name capacity address
    refine .bind (hnumber _ _ _) fun _ => .bind (hnumber _ _ _) fun _ =>
      .bind (hnumber _ _ _) fun _ => ?_
    exact .bind (hstring _ _) fun _ => .bind (hstring _ _) fun _ => .bind (hstring _ _) fun _ =>
      .bind (hstring _ _) fun _ => .ok _

/-! ### Failures -/

/-- Why the descriptor of `name` gives up all of them; those of `before` come
    before it. -/
inductive Refused (m : HookModule) (before : List (List UInt8)) (name : List UInt8) :
    List UInt8 → Prop where
  | invalid (h : definitionOf m name = .error (.invalid name)) :
      Refused m before name (Refusal.invalid name).message
  | incomplete {hook : HookDefinition} (h : definitionOf m name = .ok hook)
      (hcomplete : complete m hook = false) :
      Refused m before name (Refusal.incomplete name).message
  | duplicate {hook first : HookDefinition} {other : List UInt8} (h : Describes m name hook)
      (hother : other ∈ before) (hfirst : Describes m other first)
      (hsame : first.canonicalName = hook.canonicalName) :
      Refused m before name (Refusal.incomplete name).message

/-- A collection that fails has met its first bad descriptor. -/
theorem collectHooks_error {names : List (List UInt8)} {e : Refusal}
    (h : collectHooks m [] names = .error e) (hread : e ≠ .accessViolation) :
    ∃ before name after, descriptorNames names = before ++ name :: after ∧
      (∀ other ∈ before, ∃ hook, Describes m other hook) ∧ Refused m before name e.message := by
  obtain ⟨before, name, after, hooks, hnames, hbefore, hspoiled⟩ := collect_error h
  have hdescribed := collect_mem hbefore
  refine ⟨before, name, after, hnames, ?_, ?_⟩
  · intro other hother
    obtain ⟨hook, -, hhook⟩ := hdescribed.1 other hother
    exact ⟨hook, completeDefinition_ok.mp hhook⟩
  · rcases hspoiled with herror | ⟨hook, hhook, rfl, hkey⟩
    · rw [completeDefinition] at herror
      cases hdefinition : definitionOf m name with
      | error e' =>
          rw [hdefinition] at herror
          cases herror
          rcases definitionOf_namesOnly name e hdefinition with rfl | rfl
          · exact absurd rfl hread
          · exact .invalid hdefinition
      | ok hook =>
          rw [hdefinition] at herror
          have hrefused : (if complete m hook then Except.ok hook
              else Except.error (Refusal.incomplete name)) = .error e := herror
          split at hrefused
          next => cases hrefused
          next hcomplete =>
            cases hrefused
            exact .incomplete hdefinition (Bool.not_eq_true _ ▸ hcomplete)
    · rcases hkey with hnone | hkey
      · cases hnone
      · obtain ⟨first, hfirst, hsame⟩ := List.mem_map.mp hkey
        obtain ⟨other, hother, hread⟩ := hdescribed.2 first hfirst
        exact .duplicate (completeDefinition_ok.mp hhook) hother (completeDefinition_ok.mp hread)
          hsame

/-! ## What `DEFINE_API_HOOK` lays out -/

/-- The arguments of a `DEFINE_API_HOOK`. -/
structure HookDeclaration where
  id : List UInt8
  moduleName : List UInt8
  exportName : List UInt8

/-- A `char` array that is initialized with a string. -/
def charArray (capacity : Nat) (value : List UInt8) : List UInt8 :=
  value ++ List.replicate (capacity - value.length) 0

namespace HookDeclaration

def handler (d : HookDeclaration) : List UInt8 := d.id ++ cstr "Handler"

def trampoline (d : HookDeclaration) : List UInt8 := d.id ++ cstr "Trampoline"

/-- The name of the descriptor. -/
def symbol (d : HookDeclaration) : List UInt8 := descriptorPrefix ++ d.id

/-- The bytes of the descriptor. -/
def descriptor (d : HookDeclaration) : List UInt8 :=
  leBytes 4 apiHookDescriptorMagic ++ (leBytes 2 apiHookDescriptorVersion
    ++ (leBytes 2 sizeofApiHookDescriptor ++ (charArray apiHookModuleNameBytes d.moduleName
      ++ (charArray apiHookExportNameBytes d.exportName
        ++ (charArray apiHookExportNameBytes d.handler
          ++ charArray apiHookExportNameBytes d.trampoline)))))

/-- The hook that is declared. -/
def definition (d : HookDeclaration) : HookDefinition where
  moduleName := normalizeModuleName d.moduleName
  exportName := d.exportName
  handlerExport := d.handler
  trampolineExport := d.trampoline
  canonicalName := normalizeModuleName d.moduleName ++ (cstr "!" ++ d.exportName)

/-- The strings fit into their arrays. -/
structure Fits (d : HookDeclaration) : Prop where
  moduleName : FieldValue apiHookModuleNameBytes d.moduleName
  exportName : FieldValue apiHookExportNameBytes d.exportName
  handler : FieldValue apiHookExportNameBytes d.handler
  trampoline : FieldValue apiHookExportNameBytes d.trampoline

end HookDeclaration

instance (capacity : Nat) (value : List UInt8) : Decidable (FieldValue capacity value) :=
  decidable_of_iff (value ≠ [] ∧ 0 ∉ value ∧ value.length < capacity)
    ⟨fun h => ⟨h.1, h.2.1, h.2.2⟩, fun h => ⟨h.nonempty, h.noNul, h.fits⟩⟩

/-- The DLL that the declarations are compiled to: among the names of its
    exports, those of the descriptors are the declared ones, in any order. -/
structure Declares (m : HookModule) (ds : List HookDeclaration) : Prop where
  names : ∃ names, HoldsNames m names ∧
    (descriptorNames names).Perm (ds.map HookDeclaration.symbol)
  descriptor : ∀ d ∈ ds, ∃ address, m.getProcAddress d.symbol = some address ∧
    readProcessMemory m.memory address sizeofApiHookDescriptor = some d.descriptor
  handler : ∀ d ∈ ds, (m.getProcAddress d.handler).isSome = true
  trampoline : ∀ d ∈ ds, (m.getProcAddress d.trampoline).isSome = true

/-! ### Reading it back -/

variable {mem : TargetMemory} {address : Nat}

/-- The parts of what is read are read. -/
theorem readProcessMemory_split {n k : Nat} {xs ys : List UInt8} (hn : xs.length = n)
    (h : readProcessMemory mem address (n + k) = some (xs ++ ys)) :
    readProcessMemory mem address n = some xs ∧
      readProcessMemory mem (address + n) k = some ys := by
  induction xs generalizing address n with
  | nil =>
      cases hn
      rw [List.length_nil, Nat.zero_add] at h
      exact ⟨rfl, h⟩
  | cons x xs ih =>
      cases hn
      rw [List.length_cons, Nat.add_right_comm] at h
      obtain ⟨byte, rest, heq, hbyte, hrest⟩ := readProcessMemory_succ h
      cases heq
      obtain ⟨hxs, hys⟩ := ih rfl hrest
      refine ⟨by rw [List.length_cons, readProcessMemory, hbyte, hxs], ?_⟩
      rw [List.length_cons, Nat.add_comm xs.length 1, ← Nat.add_assoc]
      exact hys

/-- What is in the memory byte by byte is read. -/
theorem readProcessMemory_bytes (bytes : List UInt8) {address : Nat}
    (h : ∀ i < bytes.length, mem (address + i) = bytes[i]?) :
    readProcessMemory mem address bytes.length = some bytes := by
  induction bytes generalizing address with
  | nil => rfl
  | cons byte bytes ih =>
      have hfirst : mem address = some byte := h 0 (Nat.zero_lt_succ _)
      have hrest : ∀ i < bytes.length, mem (address + 1 + i) = bytes[i]? := by
        intro i hi
        have hnext := h (i + 1) (Nat.succ_lt_succ hi)
        rw [Nat.add_right_comm, Nat.add_assoc]
        exact hnext
      rw [List.length_cons, readProcessMemory, hfirst, ih hrest]

theorem readUntilNul_holds {value : List UInt8} {limit : Nat}
    (h : HoldsString mem address value) (hlimit : value.length < limit) :
    readUntilNul mem limit address = some (value, true) := by
  obtain ⟨hnul, hread⟩ := h
  induction value generalizing limit address with
  | nil =>
      obtain ⟨byte, rest, heq, hbyte, -⟩ := readProcessMemory_succ hread
      cases heq
      cases limit with
      | zero => exact absurd hlimit (Nat.not_lt_zero _)
      | succ limit =>
          rw [readUntilNul, hbyte]
          exact if_pos rfl
  | cons c value ih =>
      obtain ⟨byte, rest, heq, hbyte, hrest⟩ := readProcessMemory_succ hread
      cases heq
      obtain ⟨hc, hvalue⟩ := not_or.mp fun hor => hnul (List.mem_cons.mpr hor)
      cases limit with
      | zero => exact absurd hlimit (Nat.not_lt_zero _)
      | succ limit =>
          have hnext := ih (Nat.lt_of_succ_lt_succ hlimit) hvalue hrest
          rw [readUntilNul, hbyte]
          dsimp only
          rw [if_neg (Ne.symm hc), hnext]
          rfl

theorem charArray_length {capacity : Nat} {value : List UInt8} (h : value.length < capacity) :
    (charArray capacity value).length = capacity := by
  rw [charArray, List.length_append, List.length_replicate]
  omega

/-- A `char` array gives its string back. -/
theorem readFixedString_charArray {exportName value : List UInt8} {capacity : Nat}
    (hvalue : FieldValue capacity value)
    (h : readProcessMemory m.memory address capacity = some (charArray capacity value)) :
    readFixedString m exportName capacity address = .ok value := by
  have hsplit : charArray capacity value
      = (value ++ [0]) ++ List.replicate (capacity - (value.length + 1)) 0 := by
    have hpad : capacity - value.length = (capacity - (value.length + 1)) + 1 := by
      have hfits := hvalue.fits
      omega
    rw [charArray, hpad, List.replicate_succ, List.append_assoc]
    rfl
  have hlength : capacity = (value.length + 1) + (capacity - (value.length + 1)) := by
    have hfits := hvalue.fits
    omega
  rw [hsplit, hlength, Nat.add_sub_cancel_left] at h
  have hholds : HoldsString m.memory address value :=
    ⟨hvalue.noNul, (readProcessMemory_split (by simp) h).1⟩
  rw [readFixedString, readUntilNul_holds hholds hvalue.fits]
  dsimp only
  rw [if_neg (by simp [hvalue.nonempty])]

theorem descriptor_length {d : HookDeclaration} (h : d.Fits) :
    d.descriptor.length = sizeofApiHookDescriptor := by
  simp only [HookDeclaration.descriptor, List.length_append, leBytes_length,
    charArray_length h.moduleName.fits, charArray_length h.exportName.fits,
    charArray_length h.handler.fits, charArray_length h.trampoline.fits]
  rfl

theorem checkNumber_leBytes {exportName : List UInt8} {n value : Nat} (hvalue : value < 256 ^ n)
    (h : readProcessMemory m.memory address n = some (leBytes n value)) :
    checkNumber m exportName address n value = .ok () := by
  have hread : readNumber m address n = .ok value := by
    rw [readNumber, h]
    dsimp only
    rw [leNat_leBytes_of_lt hvalue]
  rw [checkNumber, hread]
  exact if_pos rfl

/-- **A DESCRIPTOR** gives its declaration back. -/
theorem definitionOf_descriptor {d : HookDeclaration} (hfits : d.Fits)
    (haddress : m.getProcAddress d.symbol = some address)
    (h : readProcessMemory m.memory address sizeofApiHookDescriptor = some d.descriptor) :
    definitionOf m d.symbol = .ok d.definition := by
  obtain ⟨hmagic, h⟩ := readProcessMemory_split (n := 4) (k := 452) (leBytes_length ..) h
  obtain ⟨hversion, h⟩ := readProcessMemory_split (n := 2) (k := 450) (leBytes_length ..) h
  obtain ⟨hsize, h⟩ := readProcessMemory_split (n := 2) (k := 448) (leBytes_length ..) h
  obtain ⟨hmodule, h⟩ := readProcessMemory_split (n := 64) (k := 384)
    (charArray_length hfits.moduleName.fits) h
  obtain ⟨hexport, h⟩ := readProcessMemory_split (n := 128) (k := 256)
    (charArray_length hfits.exportName.fits) h
  obtain ⟨hhandler, htrampoline⟩ := readProcessMemory_split (n := 128) (k := 128)
    (charArray_length hfits.handler.fits) h
  have hread : readDescriptor m d.symbol address
      = .ok ⟨d.moduleName, d.exportName, d.handler, d.trampoline, []⟩ := by
    have hvalues : apiHookDescriptorMagic < 256 ^ 4 ∧ apiHookDescriptorVersion < 256 ^ 2 ∧
        sizeofApiHookDescriptor < 256 ^ 2 := by decide
    rw [readDescriptor, checkNumber_leBytes hvalues.1 hmagic,
      checkNumber_leBytes hvalues.2.1 hversion, checkNumber_leBytes hvalues.2.2 hsize,
      readFixedString_charArray hfits.moduleName hmodule,
      readFixedString_charArray hfits.exportName hexport,
      readFixedString_charArray hfits.handler hhandler,
      readFixedString_charArray hfits.trampoline htrampoline]
    rfl
  rw [definitionOf, haddress]
  dsimp only
  rw [hread]
  rfl

/-- **ROUND TRIP**: from the descriptors of `DEFINE_API_HOOK`, the declared
    hooks, whatever else is exported and in what order. -/
theorem discoverHooks_declared {ds : List HookDeclaration} (hfits : ∀ d ∈ ds, d.Fits)
    (hdistinct : (ds.map fun d => d.definition.canonicalName).Nodup) (h : Declares m ds) :
    discoverHooks (.ok m)
      = some (sortOn HookDefinition.canonicalName (ds.map HookDeclaration.definition), []) := by
  obtain ⟨names, hnames, hperm⟩ := h.names
  have hread : ∀ d ∈ ds, completeDefinition m d.symbol = .ok d.definition := by
    intro d hd
    obtain ⟨address, haddress, hbytes⟩ := h.descriptor d hd
    refine completeDefinition_ok.mpr ⟨definitionOf_descriptor (hfits d hd) haddress hbytes, ?_⟩
    rw [complete, Bool.and_eq_true]
    exact ⟨h.handler d hd, h.trampoline d hd⟩
  have hnodup : ((ds.map HookDeclaration.definition).map HookDefinition.canonicalName).Nodup := by
    rw [List.map_map]
    exact hdistinct
  have hdeclared : collect (completeDefinition m) HookDefinition.canonicalName .incomplete []
      (ds.map HookDeclaration.symbol) = .ok (ds.map HookDeclaration.definition) := by
    refine collect_ok_iff.mpr ⟨?_, hnodup, fun hook _ => List.not_mem_nil⟩
    rw [List.forall₂_map_left_iff, List.forall₂_map_right_iff, List.forall₂_same]
    exact hread
  obtain ⟨found, hfound, hsame⟩ := collect_perm hperm.symm hdeclared
  have hdiscover : discover (.ok m) = .ok found := (discover_names hnames).trans hfound
  rw [discoverHooks, hdiscover]
  dsimp only
  rw [sortOn_unique hsame ((hsame.map _).nodup_iff.mpr hnodup)]

/-! ## The registry -/

/-- What is returned: the sorted hooks, or none and a message. -/
theorem discoverHooks_cases {loaded : Except Nat HookModule} {hooks : List HookDefinition}
    {err : List UInt8} (h : discoverHooks loaded = some (hooks, err)) :
    (∃ found, discover loaded = .ok found ∧ err = [] ∧
      hooks = sortOn HookDefinition.canonicalName found) ∨
    ∃ e, discover loaded = .error e ∧ e ≠ .accessViolation ∧ err = e.message ∧ hooks = [] := by
  rw [discoverHooks] at h
  cases hdiscover : discover loaded with
  | ok found =>
      rw [hdiscover] at h
      cases h
      exact Or.inl ⟨found, rfl, rfl, rfl⟩
  | error e =>
      rw [hdiscover] at h
      cases e with
      | accessViolation => cases h
      | _ =>
          cases h
          exact Or.inr ⟨_, rfl, by simp, rfl, rfl⟩

section

variable {loaded : Except Nat HookModule} {hooks : List HookDefinition} {err : List UInt8}

theorem discoverHooks_sorted (h : discoverHooks loaded = some (hooks, err)) :
    hooks.Pairwise fun a b => a.canonicalName < b.canonicalName := by
  rcases discoverHooks_cases h with ⟨found, hdiscover, -, rfl⟩ | ⟨e, -, -, -, rfl⟩
  · obtain ⟨m, names, -, -, hcollect⟩ := discover_ok hdiscover
    exact sortOn_increasing (collectHooks_ok.mp hcollect).2
  · exact .nil

theorem discoverHooks_nodup (h : discoverHooks loaded = some (hooks, err)) :
    (hooks.map HookDefinition.canonicalName).Nodup := by
  refine List.pairwise_map.mpr ((discoverHooks_sorted h).imp fun hlt heq => ?_)
  rw [heq] at hlt
  exact List.lt_irrefl _ hlt

theorem discoverHooks_found (h : discoverHooks loaded = some (hooks, err)) {hook : HookDefinition}
    (hhook : hook ∈ hooks) :
    WellFormed hook ∧ findSupportedHook hooks hook.canonicalName = some hook := by
  refine ⟨?_, find?_key (discoverHooks_nodup h) hhook⟩
  rcases discoverHooks_cases h with ⟨found, hdiscover, -, rfl⟩ | ⟨e, -, -, -, rfl⟩
  · obtain ⟨m, names, -, -, hcollect⟩ := discover_ok hdiscover
    have hmem := (sortOn_perm HookDefinition.canonicalName found).mem_iff.mp hhook
    obtain ⟨name, -, hname⟩ := (collect_mem hcollect).2 hook hmem
    exact definitionOf_wellFormed (completeDefinition_ok.mp hname).1
  · cases hhook

/-- **THE REGISTRY**: sorted, with every hook found under its own name, and all
    of the descriptors or none. -/
theorem discoverHooks_registry (h : discoverHooks loaded = some (hooks, err)) :
    hooks.Pairwise (fun a b => a.canonicalName < b.canonicalName) ∧
    (∀ hook ∈ hooks, WellFormed hook ∧
      findSupportedHook hooks hook.canonicalName = some hook) ∧
    (hooks ≠ [] → ∃ m names, loaded = .ok m ∧ HoldsNames m names) ∧
    ∀ m names, loaded = .ok m → HoldsNames m names →
      (err = [] ∧ ∃ found, List.Forall₂ (Describes m) (descriptorNames names) found ∧
        found.Perm hooks) ∨
      hooks = [] ∧ ∃ before name after, descriptorNames names = before ++ name :: after ∧
        (∀ other ∈ before, ∃ hook, Describes m other hook) ∧ Refused m before name err := by
  refine ⟨discoverHooks_sorted h, fun hook hhook => discoverHooks_found h hhook, ?_, ?_⟩
  · intro hne
    rcases discoverHooks_cases h with ⟨found, hdiscover, -, -⟩ | ⟨e, -, -, -, hnone⟩
    · obtain ⟨m, names, hm, hnames, -⟩ := discover_ok hdiscover
      exact ⟨m, names, hm, hnames⟩
    · exact absurd hnone hne
  · rintro m names rfl hnames
    rcases discoverHooks_cases h with ⟨found, hdiscover, rfl, rfl⟩ | ⟨e, herror, hread, rfl, rfl⟩
    · rw [discover_names hnames] at hdiscover
      exact Or.inl ⟨rfl, found, (collectHooks_ok.mp hdiscover).1, (sortOn_perm _ found).symm⟩
    · rw [discover_names hnames] at herror
      exact Or.inr ⟨rfl, collectHooks_error herror hread⟩

end

/-- A memory that has some bytes at some addresses. -/
def memoryOf (segments : List (Nat × List UInt8)) : TargetMemory := fun address =>
  match segments.find? fun s => s.1 ≤ address ∧ address < s.1 + s.2.length with
  | none => none
  | some s => s.2[address - s.1]?

def readFile : HookDeclaration := ⟨cstr "R", cstr "NTDLL.dll", cstr "NtReadFile"⟩

def closeHandle : HookDeclaration := ⟨cstr "C", cstr "kernelbase.dll", cstr "CloseHandle"⟩

def sampleNames : List (List UInt8) :=
  [cstr "ActiveHookCalls", readFile.symbol, readFile.handler, closeHandle.symbol]

/-- The headers, the export directory and the names of a DLL with two hooks. -/
def sampleHeaders : TargetMemory :=
  memoryOf
    [(0x10000, cstr "MZ"), (0x1003C, leBytes 4 0x40), (0x10040, cstr "PE" ++ [0, 0]),
      (0x100C8, leBytes 4 0x200 ++ leBytes 4 0x300), (0x10218, leBytes 4 4),
      (0x10220, leBytes 4 0x300),
      (0x10300, leBytes 4 0x400 ++ leBytes 4 0x420 ++ leBytes 4 0x440 ++ leBytes 4 0x460),
      (0x10400, cstr "ActiveHookCalls" ++ [0]), (0x10420, readFile.symbol ++ [0]),
      (0x10440, readFile.handler ++ [0]), (0x10460, closeHandle.symbol ++ [0])]

def sampleModule : HookModule where
  memory address :=
    if address < 0x11000 then sampleHeaders address
    else if address < 0x12000 then readFile.descriptor[address - 0x11000]?
    else closeHandle.descriptor[address - 0x12000]?
  base := 0x10000
  getProcAddress name :=
    ([(readFile.symbol, 0x11000), (readFile.handler, 0x13000), (readFile.trampoline, 0x14000),
      (closeHandle.symbol, 0x12000), (closeHandle.handler, 0x13100),
      (closeHandle.trampoline, 0x14008)].find? fun e => e.1 = name).map Prod.snd

deriving instance DecidableEq for HookDefinition

theorem sampleModule_discovered : discoverHooks (.ok sampleModule)
    = some ([closeHandle.definition, readFile.definition], []) := by
  decide +kernel

theorem sampleModule_names : HoldsNames sampleModule sampleNames := by
  have hnames : ∀ i (h : i < sampleNames.length),
      exportNameAt sampleModule 0x10300 (0 + i) = .ok sampleNames[i] := by decide +kernel
  exact ⟨0x10300, by decide +kernel, hnames⟩

theorem discoverHooks_registry_sample :
    let hooks := [closeHandle.definition, readFile.definition]
    hooks.Pairwise (fun a b => a.canonicalName < b.canonicalName) ∧
    (∀ hook ∈ hooks, WellFormed hook ∧
      findSupportedHook hooks hook.canonicalName = some hook) ∧
    (∃ m names, (Except.ok sampleModule : Except Nat HookModule) = .ok m ∧
      HoldsNames m names) ∧
    ∃ found, List.Forall₂ (Describes sampleModule) (descriptorNames sampleNames) found ∧
      found.Perm hooks := by
  obtain ⟨hsorted, hfound, hread, hall⟩ := discoverHooks_registry sampleModule_discovered
  refine ⟨hsorted, hfound, hread (List.cons_ne_nil _ _), ?_⟩
  rcases hall _ _ rfl sampleModule_names with ⟨-, hdescribed⟩ | ⟨hnone, -⟩
  · exact hdescribed
  · exact absurd hnone (List.cons_ne_nil _ _)

theorem sample_fits : ∀ d ∈ [readFile, closeHandle], d.Fits := by
  intro d hd
  rcases List.mem_pair.mp hd with rfl | rfl
  · exact ⟨by decide, by decide, by decide, by decide⟩
  · exact ⟨by decide, by decide, by decide, by decide⟩

theorem sampleModule_declares : Declares sampleModule [readFile, closeHandle] where
  names := ⟨sampleNames, sampleModule_names, by decide⟩
  descriptor d hd := by
    have hlength := descriptor_length (sample_fits d hd)
    rw [← hlength]
    rw [show sizeofApiHookDescriptor = 456 from rfl] at hlength
    rcases List.mem_pair.mp hd with rfl | rfl
    · refine ⟨0x11000, by decide, readProcessMemory_bytes _ fun i hi => ?_⟩
      show (if _ then _ else if _ then _ else _) = _
      rw [if_neg (by omega), if_pos (by omega), Nat.add_sub_cancel_left]
    · refine ⟨0x12000, by decide, readProcessMemory_bytes _ fun i hi => ?_⟩
      show (if _ then _ else if _ then _ else _) = _
      rw [if_neg (by omega), if_neg (by omega), Nat.add_sub_cancel_left]
  handler := by decide
  trampoline := by decide

theorem discoverHooks_declared_sample : discoverHooks (.ok sampleModule)
    = some ([closeHandle.definition, readFile.definition], []) :=
  discoverHooks_declared sample_fits (by decide) sampleModule_declares

end ScopeRegistry
