import ApiScope.ReadProgramProofs
import ApiScope.RelocationProofs

/-! # Manual mapping — the image that `ReflectiveDLLInject` builds

    The mapper parses the headers of a DLL file, copies the headers and the
    raw data of the sections into a zeroed local image, relocates that image
    to the address it has in the target, and writes it there.

    It is a read program over the file buffer, so that every byte it reads is
    logged, and the local image keeps the log of its stores.  All of them stay
    inside of their buffer, but for one: the range check of a fix-up is made
    on a 32-bit sum and the store at the full one (`mapper_stays_inside`). -/

namespace ScopeMapper

open ScopeBytes ScopeWords ScopeRead ScopeRead.Read ScopeRelocation

/-! ## The headers -/

def imageDosSignature : Nat := 0x5A4D
def imageNtSignature : Nat := 0x4550
def imageNtOptionalHdr64Magic : Nat := 0x20B

/-- `sizeof(IMAGE_DOS_HEADER)`. -/
def sizeofDosHeader : Nat := 64

/-- `sizeof(IMAGE_NT_HEADERS)`. -/
def sizeofNtHeaders : Nat := 264

/-- `sizeof(IMAGE_SECTION_HEADER)`. -/
def sizeofSectionHeader : Nat := 40

/-- The members of `IMAGE_NT_HEADERS` that the mapper uses. -/
structure NtHeaders where
  signature : Nat
  numberOfSections : Nat
  sizeOfOptionalHeader : Nat
  magic : Nat
  imageBase : Nat
  sizeOfImage : Nat
  sizeOfHeaders : Nat
  /-- `DataDirectory[IMAGE_DIRECTORY_ENTRY_BASERELOC]`. -/
  relocationAddress : Nat
  relocationSize : Nat

def NtHeaders.at (mem : Memory) (nt : Nat) : NtHeaders where
  signature := word mem nt 4
  numberOfSections := word mem (nt + 6) 2
  sizeOfOptionalHeader := word mem (nt + 20) 2
  magic := word mem (nt + 24) 2
  imageBase := word mem (nt + 48) 8
  sizeOfImage := word mem (nt + 80) 4
  sizeOfHeaders := word mem (nt + 84) 4
  relocationAddress := word mem (nt + 176) 4
  relocationSize := word mem (nt + 180) 4

def readNtHeaders (nt : Nat) : Read NtHeaders := do
  let signature ← readWord nt 4
  let numberOfSections ← readWord (nt + 6) 2
  let sizeOfOptionalHeader ← readWord (nt + 20) 2
  let magic ← readWord (nt + 24) 2
  let imageBase ← readWord (nt + 48) 8
  let sizeOfImage ← readWord (nt + 80) 4
  let sizeOfHeaders ← readWord (nt + 84) 4
  let relocationAddress ← readWord (nt + 176) 4
  let relocationSize ← readWord (nt + 180) 4
  pure { signature, numberOfSections, sizeOfOptionalHeader, magic, imageBase, sizeOfImage,
         sizeOfHeaders, relocationAddress, relocationSize }

/-- The offset of `IMAGE_FIRST_SECTION(ntHeaders)`. -/
def firstSection (nt : Nat) (headers : NtHeaders) : Nat := nt + 24 + headers.sizeOfOptionalHeader

/-- The members of `IMAGE_SECTION_HEADER` that the mapper uses. -/
structure SectionHeader where
  virtualSize : Nat
  virtualAddress : Nat
  sizeOfRawData : Nat
  pointerToRawData : Nat
  characteristics : Nat

/-- `section[i]`. -/
def SectionHeader.at (mem : Memory) (first i : Nat) : SectionHeader where
  virtualSize := word mem (first + i * sizeofSectionHeader + 8) 4
  virtualAddress := word mem (first + i * sizeofSectionHeader + 12) 4
  sizeOfRawData := word mem (first + i * sizeofSectionHeader + 16) 4
  pointerToRawData := word mem (first + i * sizeofSectionHeader + 20) 4
  characteristics := word mem (first + i * sizeofSectionHeader + 36) 4

def readSection (first i : Nat) : Read SectionHeader := do
  let virtualSize ← readWord (first + i * sizeofSectionHeader + 8) 4
  let virtualAddress ← readWord (first + i * sizeofSectionHeader + 12) 4
  let sizeOfRawData ← readWord (first + i * sizeofSectionHeader + 16) 4
  let pointerToRawData ← readWord (first + i * sizeofSectionHeader + 20) 4
  let characteristics ← readWord (first + i * sizeofSectionHeader + 36) 4
  pure { virtualSize, virtualAddress, sizeOfRawData, pointerToRawData, characteristics }

/-- The checks of the headers: the offset of the NT headers and the headers, none
    when the file is refused. -/
def parseHeaders (dllFileSize : Nat) : Read (Option (Nat × NtHeaders)) :=
  if dllFileSize < sizeofDosHeader then pure none
  else do
    let e_magic ← readWord 0 2
    let e_lfanew ← readWord 60 4
    -- `e_lfanew` is signed
    if e_magic ≠ imageDosSignature ∨ 2 ^ 31 ≤ e_lfanew ∨
        isRangeWithin e_lfanew sizeofNtHeaders dllFileSize = false then pure none
    else do
      let headers ← readNtHeaders e_lfanew
      if headers.signature ≠ imageNtSignature ∨ headers.magic ≠ imageNtOptionalHdr64Magic then
        pure none
      else if isRangeWithin (firstSection e_lfanew headers)
          (headers.numberOfSections * sizeofSectionHeader) dllFileSize = false then pure none
      else if headers.sizeOfImage = 0 ∨ dllFileSize < headers.sizeOfHeaders ∨
          headers.sizeOfImage < headers.sizeOfHeaders then pure none
      else pure (some (e_lfanew, headers))

/-! ## The mapper -/

/-- The system calls of the mapper. -/
structure MapperCalls where
  /-- The address in the target; 0 on failure. -/
  virtualAllocEx : (size : Nat) → UInt64
  virtualAlloc : (size : Nat) → Bool
  writeProcessMemory : (address : UInt64) → List UInt8 → Bool
  virtualProtectEx : (address size newProtect : Nat) → Bool
  flushInstructionCache : (address : UInt64) → (size : Nat) → Bool

/-- `GetMemoryProtection`. -/
def getMemoryProtection (characteristics : Nat) : Nat :=
  let isExecutable := characteristics / 0x20000000 % 2 = 1
  let isReadable := characteristics / 0x40000000 % 2 = 1
  let isWritable := characteristics / 0x80000000 % 2 = 1
  if isExecutable ∧ isWritable then 0x40
  else if isExecutable ∧ ¬ isWritable ∧ isReadable then 0x20
  else if isExecutable ∧ ¬ isWritable ∧ ¬ isReadable then 0x10
  else if ¬ isExecutable ∧ isWritable then 0x04
  else if ¬ isExecutable ∧ ¬ isWritable ∧ isReadable then 0x02
  else 0x01

/-- `CustomMemCpy` from the file buffer to the local image. -/
def copyFromFile (image : LocalImage) (dest src count : Nat) : Read LocalImage := do
  let bytes ← readBytes src count
  pure (image.write dest bytes)

/-- Section `i` is checked and copied; an error is a refused file. -/
def copySection (dllFileSize dllImageSize first i : Nat) (image : LocalImage) :
    Read (Except LocalImage LocalImage) := do
  let header ← readSection first i
  if isRangeWithin header.pointerToRawData header.sizeOfRawData dllFileSize = false ∨
      isRangeWithin header.virtualAddress header.sizeOfRawData dllImageSize = false then
    pure (.error image)
  else do
    let image ← copyFromFile image header.virtualAddress header.pointerToRawData
      header.sizeOfRawData
    pure (.ok image)

/-- The first `count` sections. -/
def copySections (dllFileSize dllImageSize first : Nat) :
    (count : Nat) → LocalImage → Read (Except LocalImage LocalImage)
  | 0, image => pure (.ok image)
  | count + 1, image => do
      let copied ← copySections dllFileSize dllImageSize first count image
      match copied with
      | .error image => pure (.error image)
      | .ok image => copySection dllFileSize dllImageSize first count image

/-- Headers and sections, in a zeroed image. -/
def copyImage (dllFileSize nt : Nat) (headers : NtHeaders) :
    Read (Except LocalImage LocalImage) := do
  let image ← copyFromFile .zeroed 0 0 headers.sizeOfHeaders
  copySections dllFileSize headers.sizeOfImage (firstSection nt headers)
    headers.numberOfSections image

/-- `remoteDllBase - ImageBase`. -/
def deltaOf (remoteDllBase : UInt64) (headers : NtHeaders) : Nat :=
  (remoteDllBase.toNat + (2 ^ 64 - headers.imageBase)) % 2 ^ 64

def relocationsOf (delta : Nat) (headers : NtHeaders) : Relocations where
  delta := delta
  dllImageSize := headers.sizeOfImage
  relocationEnd := headers.relocationAddress + headers.relocationSize

/-- The relocations; an error is a refused image. -/
def relocateImage (delta : Nat) (headers : NtHeaders) (image : LocalImage) :
    Except LocalImage LocalImage :=
  if delta ≠ 0 ∧ headers.relocationSize ≠ 0 then
    if isRangeWithin headers.relocationAddress headers.relocationSize headers.sizeOfImage
        = false then .error image
    else
      -- the walk has ended by then (`relocate_ends`)
      match relocate (relocationsOf delta headers) image headers.relocationAddress
          (headers.relocationSize + 2) with
      | .finished image => .ok image
      | .rejected image => .error image
      | .running image _ => .error image
  else .ok image

/-- The protections of the first `count` sections. -/
def protectSections (calls : MapperCalls) (remoteDllBase : UInt64) (dllImageSize first : Nat) :
    (count : Nat) → Read Bool
  | 0 => pure true
  | count + 1 => do
      let done ← protectSections calls remoteDllBase dllImageSize first count
      if done then do
        let header ← readSection first count
        if header.virtualSize = 0 then pure true
        else if isRangeWithin header.virtualAddress header.virtualSize dllImageSize = false then
          pure false
        else
          pure (calls.virtualProtectEx (remoteDllBase.toNat + header.virtualAddress)
            header.virtualSize (getMemoryProtection header.characteristics))
      else pure false

/-- What the mapper leaves. -/
structure Injection where
  localImage : LocalImage
  /-- The bytes at the remote base, when they were written. -/
  written : Option (List UInt8)
  /-- The result, none for null. -/
  dllBase : Option UInt64

/-- `ReflectiveDLLInject`, over the bytes of the file buffer. -/
def reflectiveDLLInject (calls : MapperCalls) (dllFileSize : Nat) : Read Injection := do
  let parsed ← parseHeaders dllFileSize
  match parsed with
  | none => pure ⟨.zeroed, none, none⟩
  | some (nt, headers) =>
      let remoteDllBase := calls.virtualAllocEx headers.sizeOfImage
      if remoteDllBase = 0 then pure ⟨.zeroed, none, none⟩
      else if calls.virtualAlloc headers.sizeOfImage = false then pure ⟨.zeroed, none, none⟩
      else do
        let copied ← copyImage dllFileSize nt headers
        match copied with
        | .error image => pure ⟨image, none, none⟩
        | .ok image =>
            match relocateImage (deltaOf remoteDllBase headers) headers image with
            | .error image => pure ⟨image, none, none⟩
            | .ok image =>
                let bytes := slice image.bytes 0 headers.sizeOfImage
                if calls.writeProcessMemory remoteDllBase bytes = false then
                  pure ⟨image, none, none⟩
                else do
                  let done ← protectSections calls remoteDllBase headers.sizeOfImage
                    (firstSection nt headers) headers.numberOfSections
                  if done = true ∧
                      calls.flushInstructionCache remoteDllBase headers.sizeOfImage = true then
                    pure ⟨image, some bytes, some remoteDllBase⟩
                  else pure ⟨image, some bytes, none⟩

/-! ## What the header reads see -/

section Headers

variable {mem : Memory} {size : Nat}

theorem run_readNtHeaders (nt : Nat) (mem : Memory) :
    (readNtHeaders nt).run mem = NtHeaders.at mem nt := by
  simp only [readNtHeaders, run_bind, run_readWord, run_pure]
  rfl

theorem run_readSection (first i : Nat) (mem : Memory) :
    (readSection first i).run mem = SectionHeader.at mem first i := by
  simp only [readSection, run_bind, run_readWord, run_pure]
  rfl

/-- Reads inside of the first `size` bytes. -/
theorem within_readWord_lt (mem : Memory) {off n : Nat} (h : off + n ≤ size) :
    Within (· < size) (readWord off n) mem :=
  within_readWord mem fun _ _ hi => Nat.lt_of_lt_of_le hi h

theorem within_readNtHeaders (mem : Memory) {nt : Nat} (h : nt + sizeofNtHeaders ≤ size) :
    Within (· < size) (readNtHeaders nt) mem := by
  have h264 : sizeofNtHeaders = 264 := rfl
  unfold readNtHeaders
  repeat' first
    | exact within_pure _ _ mem
    | refine within_seq (within_readWord_lt mem (by omega)) ?_

theorem within_readSection (mem : Memory) {first i : Nat}
    (h : first + (i + 1) * sizeofSectionHeader ≤ size) :
    Within (· < size) (readSection first i) mem := by
  have h40 : sizeofSectionHeader = 40 := rfl
  unfold readSection
  rw [h40] at h ⊢
  repeat' first
    | exact within_pure _ _ mem
    | refine within_seq (within_readWord_lt mem (by omega)) ?_

/-- What the checks of the headers establish. -/
structure HeadersOk (mem : Memory) (size nt : Nat) (headers : NtHeaders) : Prop where
  nt_eq : nt = word mem 60 4
  headers_eq : headers = NtHeaders.at mem nt
  ntHeaders : nt + sizeofNtHeaders ≤ size
  sectionHeaders : firstSection nt headers
    + headers.numberOfSections * sizeofSectionHeader ≤ size
  sizeOfImage_pos : 0 < headers.sizeOfImage
  headers_in_file : headers.sizeOfHeaders ≤ size
  headers_in_image : headers.sizeOfHeaders ≤ headers.sizeOfImage

theorem run_parseHeaders {nt : Nat} {headers : NtHeaders}
    (h : (parseHeaders size).run mem = some (nt, headers)) :
    HeadersOk mem size nt headers := by
  rw [parseHeaders] at h
  by_cases hsmall : size < sizeofDosHeader
  · rw [if_pos hsmall, run_pure] at h
    cases h
  rw [if_neg hsmall] at h
  simp only [run_bind, run_readWord, run_ite, run_pure, run_readNtHeaders] at h
  split at h
  · cases h
  split at h
  · cases h
  split at h
  · cases h
  split at h
  · cases h
  -- what is left of the four tests is their negations
  rename_i hdos _ hsections hsizes
  cases h
  obtain ⟨-, hdos⟩ := not_or.mp hdos
  obtain ⟨-, hrange⟩ := not_or.mp hdos
  obtain ⟨hzero, hsizes⟩ := not_or.mp hsizes
  obtain ⟨hfile, himage⟩ := not_or.mp hsizes
  exact ⟨rfl, rfl, isRangeWithin_iff.mp (Bool.not_eq_false _ ▸ hrange),
    isRangeWithin_iff.mp (Bool.not_eq_false _ ▸ hsections), Nat.pos_of_ne_zero hzero,
    Nat.not_lt.mp hfile, Nat.not_lt.mp himage⟩

theorem within_parseHeaders (mem : Memory) (size : Nat) :
    Within (· < size) (parseHeaders size) mem := by
  rw [parseHeaders]
  refine within_ite (fun _ => within_pure _ _ mem) fun hsmall => ?_
  have h64 : sizeofDosHeader = 64 := rfl
  refine within_seq (within_readWord_lt mem (by omega)) ?_
  refine within_seq (within_readWord_lt mem (by omega)) ?_
  refine within_ite (fun _ => within_pure _ _ mem) fun hdos => ?_
  obtain ⟨-, hdos⟩ := not_or.mp hdos
  obtain ⟨-, hrange⟩ := not_or.mp hdos
  refine within_seq (within_readNtHeaders mem
    (isRangeWithin_iff.mp (Bool.not_eq_false _ ▸ hrange))) ?_
  refine within_ite (fun _ => within_pure _ _ mem) fun _ => ?_
  refine within_ite (fun _ => within_pure _ _ mem) fun _ => ?_
  exact within_ite (fun _ => within_pure _ _ mem) fun _ => within_pure _ _ mem

theorem HeadersOk.sizeOfImage_lt {nt : Nat} {headers : NtHeaders}
    (h : HeadersOk mem size nt headers) : headers.sizeOfImage < 2 ^ 32 := by
  rw [h.headers_eq]
  exact word_lt mem (nt + 80) 4

end Headers

/-! ## What is copied -/

section Copies

variable {mem : Memory} {size : Nat}

/-- The raw data of a section lies in the file, and its place in the image. -/
def SectionHeader.Fits (header : SectionHeader) (dllFileSize dllImageSize : Nat) : Prop :=
  header.pointerToRawData + header.sizeOfRawData ≤ dllFileSize ∧
    header.virtualAddress + header.sizeOfRawData ≤ dllImageSize

/-- The local image with the raw data of a section. -/
def SectionHeader.place (header : SectionHeader) (mem : Memory) (image : LocalImage) :
    LocalImage :=
  image.write header.virtualAddress (slice mem header.pointerToRawData header.sizeOfRawData)

theorem run_copyFromFile (image : LocalImage) (dest src count : Nat) (mem : Memory) :
    (copyFromFile image dest src count).run mem = image.write dest (slice mem src count) := by
  simp only [copyFromFile, run_bind, run_readBytes, run_pure]

theorem within_copyFromFile (image : LocalImage) (dest : Nat) {src count : Nat} (mem : Memory)
    (h : src + count ≤ size) : Within (· < size) (copyFromFile image dest src count) mem :=
  within_seq (within_readBytes mem fun _ _ hi => Nat.lt_of_lt_of_le hi h)
    (within_pure _ _ mem)

/-- A section is refused, or fits and is placed. -/
theorem run_copySection (dllFileSize dllImageSize first i : Nat) (image : LocalImage)
    (mem : Memory) :
    (copySection dllFileSize dllImageSize first i image).run mem = .error image ∨
      (SectionHeader.at mem first i).Fits dllFileSize dllImageSize ∧
        (copySection dllFileSize dllImageSize first i image).run mem
          = .ok ((SectionHeader.at mem first i).place mem image) := by
  simp only [copySection, run_bind, run_readSection, run_ite, run_copyFromFile, run_pure]
  split
  · exact Or.inl rfl
  · rename_i hfits
    obtain ⟨hfile, himage⟩ := not_or.mp hfits
    exact Or.inr ⟨⟨isRangeWithin_iff.mp (Bool.not_eq_false _ ▸ hfile),
      isRangeWithin_iff.mp (Bool.not_eq_false _ ▸ himage)⟩, rfl⟩

theorem within_copySection (mem : Memory) {dllImageSize first i : Nat} (image : LocalImage)
    (h : first + (i + 1) * sizeofSectionHeader ≤ size) :
    Within (· < size) (copySection size dllImageSize first i image) mem := by
  refine within_seq (within_readSection mem h) ?_
  refine within_ite (fun _ => within_pure _ _ mem) fun hfits => ?_
  obtain ⟨hfile, -⟩ := not_or.mp hfits
  exact within_seq (within_copyFromFile image _ mem
    (isRangeWithin_iff.mp (Bool.not_eq_false _ ▸ hfile))) (within_pure _ _ mem)

theorem within_copySections (mem : Memory) {dllImageSize first : Nat} {count : Nat}
    (image : LocalImage) (h : first + count * sizeofSectionHeader ≤ size) :
    Within (· < size) (copySections size dllImageSize first count image) mem := by
  induction count with
  | zero => exact within_pure _ _ mem
  | succ count ih =>
      have hless : first + count * sizeofSectionHeader ≤ size := by
        rw [Nat.succ_mul] at h
        omega
      rw [copySections]
      refine within_seq (ih hless) ?_
      cases (copySections size dllImageSize first count image).run mem with
      | error refused => exact within_pure _ _ mem
      | ok image => exact within_copySection mem image h

theorem storesWithin_place {header : SectionHeader} {dllFileSize dllImageSize : Nat}
    {image : LocalImage} (hfits : header.Fits dllFileSize dllImageSize)
    (h : image.StoresWithin dllImageSize) :
    (header.place mem image).StoresWithin dllImageSize := by
  refine storesWithin_write.mpr ⟨h, ?_⟩
  rw [slice_length]
  exact hfits.2

/-- Sections are only written inside of the image. -/
theorem storesWithin_copySections (dllFileSize : Nat) {dllImageSize : Nat} (first count : Nat)
    {image : LocalImage} (h : image.StoresWithin dllImageSize) (mem : Memory) :
    (imageOf ((copySections dllFileSize dllImageSize first count image).run mem)).StoresWithin
      dllImageSize := by
  induction count with
  | zero => exact h
  | succ count ih =>
      rw [copySections, run_bind]
      cases hrun : (copySections dllFileSize dllImageSize first count image).run mem with
      | error refused =>
          rw [hrun] at ih
          exact ih
      | ok copied =>
          rw [hrun] at ih
          rcases run_copySection dllFileSize dllImageSize first count copied mem with
            hrefused | ⟨hfits, hplaced⟩
          · dsimp only
            rw [hrefused]
            exact ih
          · dsimp only
            rw [hplaced]
            exact storesWithin_place hfits ih

theorem storesWithin_copyImage {nt : Nat} {headers : NtHeaders}
    (hok : HeadersOk mem size nt headers) :
    (imageOf ((copyImage size nt headers).run mem)).StoresWithin headers.sizeOfImage := by
  rw [copyImage, run_bind, run_copyFromFile]
  refine storesWithin_copySections _ _ _ (storesWithin_write.mpr ⟨?_, ?_⟩) mem
  · exact fun run hrun => nomatch hrun
  · rw [slice_length, Nat.zero_add]
    exact hok.headers_in_image

theorem within_copyImage {nt : Nat} {headers : NtHeaders}
    (hok : HeadersOk mem size nt headers) :
    Within (· < size) (copyImage size nt headers) mem := by
  refine within_seq (within_copyFromFile _ _ mem ?_) ?_
  · rw [Nat.zero_add]
    exact hok.headers_in_file
  · exact within_copySections mem _ hok.sectionHeaders

theorem within_protectSections (calls : MapperCalls) (remoteDllBase : UInt64)
    (dllImageSize first : Nat) {count : Nat} (mem : Memory)
    (h : first + count * sizeofSectionHeader ≤ size) :
    Within (· < size) (protectSections calls remoteDllBase dllImageSize first count) mem := by
  induction count with
  | zero => exact within_pure _ _ mem
  | succ count ih =>
      have hless : first + count * sizeofSectionHeader ≤ size := by
        rw [Nat.succ_mul] at h
        omega
      rw [protectSections]
      refine within_seq (ih hless) ?_
      refine within_ite (fun _ => ?_) fun _ => within_pure _ _ mem
      refine within_seq (within_readSection mem h) ?_
      refine within_ite (fun _ => within_pure _ _ mem) fun _ => ?_
      exact within_ite (fun _ => within_pure _ _ mem) fun _ => within_pure _ _ mem

end Copies

/-! ## Every access -/

/-- The file buffer of a file. -/
def fileBytes (file : List UInt8) : Memory := fun i => file.getD i 0

/-- What the mapper does with a file. -/
def inject (calls : MapperCalls) (file : List UInt8) : Injection :=
  (reflectiveDLLInject calls file.length).run (fileBytes file)

/-- `SizeOfImage` of the headers that `e_lfanew` points to. -/
def sizeOfImage (file : List UInt8) : Nat :=
  (NtHeaders.at (fileBytes file) (word (fileBytes file) 60 4)).sizeOfImage

/-- The mapper starts the relocation walk `m`, at `start` of the image. -/
def Relocates (calls : MapperCalls) (file : List UInt8) (m : Relocations) (image : LocalImage)
    (start : Nat) : Prop :=
  ∃ nt headers,
    (parseHeaders file.length).run (fileBytes file) = some (nt, headers) ∧
    calls.virtualAllocEx headers.sizeOfImage ≠ 0 ∧
    calls.virtualAlloc headers.sizeOfImage = true ∧
    (copyImage file.length nt headers).run (fileBytes file) = .ok image ∧
    deltaOf (calls.virtualAllocEx headers.sizeOfImage) headers ≠ 0 ∧
    headers.relocationSize ≠ 0 ∧
    isRangeWithin headers.relocationAddress headers.relocationSize headers.sizeOfImage = true ∧
    m = relocationsOf (deltaOf (calls.virtualAllocEx headers.sizeOfImage) headers) headers ∧
    start = headers.relocationAddress

/-- Every byte the mapper reads is in the file, every run it writes in the
    image. -/
structure StaysInside (calls : MapperCalls) (file : List UInt8) : Prop where
  reads : ∀ i ∈ (reflectiveDLLInject calls file.length).reads (fileBytes file),
    i < file.length
  stores : (inject calls file).localImage.StoresWithin (sizeOfImage file)

theorem within_reflectiveDLLInject (calls : MapperCalls) (size : Nat) (mem : Memory) :
    Within (· < size) (reflectiveDLLInject calls size) mem := by
  refine within_seq (within_parseHeaders mem size) ?_
  cases hparsed : (parseHeaders size).run mem with
  | none => exact within_pure _ _ mem
  | some parsed =>
      obtain ⟨nt, headers⟩ := parsed
      have hok := run_parseHeaders hparsed
      refine within_ite (fun _ => within_pure _ _ mem) fun _ => ?_
      refine within_ite (fun _ => within_pure _ _ mem) fun _ => ?_
      refine within_seq (within_copyImage hok) ?_
      cases (copyImage size nt headers).run mem with
      | error image => exact within_pure _ _ mem
      | ok image =>
          dsimp only
          cases relocateImage (deltaOf (calls.virtualAllocEx headers.sizeOfImage) headers) headers
              image with
          | error image => exact within_pure _ _ mem
          | ok image =>
              dsimp only
              refine within_ite (fun _ => within_pure _ _ mem) fun _ => ?_
              refine within_seq
                (within_protectSections calls _ _ _ mem hok.sectionHeaders) ?_
              exact within_ite (fun _ => within_pure _ _ mem) fun _ => within_pure _ _ mem

section Stores

variable {calls : MapperCalls} {file : List UInt8} {nt : Nat} {headers : NtHeaders}
  {image : LocalImage}

/-- With the headers parsed and the two regions allocated, the local image is
    what the copies and the relocations left. -/
theorem localImage_of_parsed
    (hparsed : (parseHeaders file.length).run (fileBytes file) = some (nt, headers))
    (hremote : calls.virtualAllocEx headers.sizeOfImage ≠ 0)
    (hlocal : calls.virtualAlloc headers.sizeOfImage = true) :
    (inject calls file).localImage
      = match (copyImage file.length nt headers).run (fileBytes file) with
        | .error image => image
        | .ok image => imageOf (relocateImage
            (deltaOf (calls.virtualAllocEx headers.sizeOfImage) headers) headers image) := by
  rw [inject, reflectiveDLLInject, run_bind, hparsed]
  dsimp only
  rw [if_neg hremote, if_neg (by rw [hlocal]; decide), run_bind]
  cases (copyImage file.length nt headers).run (fileBytes file) with
  | error image => rfl
  | ok image =>
      dsimp only
      cases relocateImage (deltaOf (calls.virtualAllocEx headers.sizeOfImage) headers) headers
          image with
      | error image => rfl
      | ok image =>
          dsimp only
          rw [run_ite]
          split
          · rfl
          · rw [run_bind, run_ite]
            split <;> rfl

/-- Without the headers or the two regions nothing is written. -/
theorem localImage_of_not_parsed
    (h : ∀ nt headers, (parseHeaders file.length).run (fileBytes file) = some (nt, headers) →
      calls.virtualAllocEx headers.sizeOfImage = 0 ∨
        calls.virtualAlloc headers.sizeOfImage = false) :
    (inject calls file).localImage = .zeroed := by
  rw [inject, reflectiveDLLInject, run_bind]
  cases hparsed : (parseHeaders file.length).run (fileBytes file) with
  | none => rfl
  | some parsed =>
      obtain ⟨nt, headers⟩ := parsed
      dsimp only
      by_cases hremote : calls.virtualAllocEx headers.sizeOfImage = 0
      · rw [if_pos hremote]
        rfl
      · rw [if_neg hremote,
          if_pos ((h nt headers hparsed).resolve_left hremote)]
        rfl

/-- The relocations leave the image they are given, or the one of the walk. -/
theorem imageOf_relocateImage (delta : Nat) (headers : NtHeaders) (image : LocalImage) :
    imageOf (relocateImage delta headers image) = image ∧
        ¬ (delta ≠ 0 ∧ headers.relocationSize ≠ 0 ∧ isRangeWithin headers.relocationAddress
          headers.relocationSize headers.sizeOfImage = true) ∨
      (delta ≠ 0 ∧ headers.relocationSize ≠ 0 ∧ isRangeWithin headers.relocationAddress
          headers.relocationSize headers.sizeOfImage = true) ∧
        imageOf (relocateImage delta headers image)
          = (relocate (relocationsOf delta headers) image headers.relocationAddress
            (headers.relocationSize + 2)).image := by
  rw [relocateImage]
  by_cases hneeded : delta ≠ 0 ∧ headers.relocationSize ≠ 0
  · rw [if_pos hneeded]
    by_cases hrange : isRangeWithin headers.relocationAddress headers.relocationSize
        headers.sizeOfImage = false
    · rw [if_pos hrange]
      refine Or.inl ⟨rfl, ?_⟩
      rintro ⟨-, -, h⟩
      cases hrange.symm.trans h
    · rw [if_neg hrange]
      refine Or.inr ⟨⟨hneeded.1, hneeded.2, Bool.not_eq_false _ ▸ hrange⟩, ?_⟩
      cases relocate (relocationsOf delta headers) image headers.relocationAddress
        (headers.relocationSize + 2) <;> rfl
  · rw [if_neg hneeded]
    exact Or.inl ⟨rfl, fun h => hneeded ⟨h.1, h.2.1⟩⟩

/-- **INSIDE OF BOTH BUFFERS**: the mapper reads in the file and writes in the
    image exactly when no DIR64 entry it comes to has an offset that does not
    fit 32 bits and is in the image once it is cut to them. -/
theorem mapper_stays_inside (calls : MapperCalls) (file : List UInt8) :
    StaysInside calls file ↔
      ∀ m image start, Relocates calls file m image start →
        ∀ reloc i now, ComesTo m image start reloc i now → ¬ WrapsInto m now reloc i := by
  have hsizes : ∀ {nt headers}, (parseHeaders file.length).run (fileBytes file)
      = some (nt, headers) → headers.sizeOfImage = sizeOfImage file := by
    intro nt headers hparsed
    have hok := run_parseHeaders hparsed
    rw [sizeOfImage, hok.headers_eq, hok.nt_eq]
  -- the walk, once it is started, decides
  have hwalk : ∀ {m image start}, Relocates calls file m image start →
      ((inject calls file).localImage.StoresWithin (sizeOfImage file) ↔
        ∀ reloc i now, ComesTo m image start reloc i now → ¬ WrapsInto m now reloc i) := by
    rintro m image start ⟨nt, headers, hparsed, hremote, hlocal, hcopied, hdelta, hsize, hrange,
      rfl, rfl⟩
    have hok := run_parseHeaders hparsed
    have hwithin := storesWithin_copyImage hok
    rw [hcopied] at hwithin
    have himage : (inject calls file).localImage = (relocate (relocationsOf
        (deltaOf (calls.virtualAllocEx headers.sizeOfImage) headers) headers) image
        headers.relocationAddress (headers.relocationSize + 2)).image := by
      rw [localImage_of_parsed hparsed hremote hlocal, hcopied]
      rcases imageOf_relocateImage (deltaOf (calls.virtualAllocEx headers.sizeOfImage) headers)
        headers image with ⟨-, hno⟩ | ⟨-, hwalked⟩
      · exact absurd ⟨hdelta, hsize, hrange⟩ hno
      · exact hwalked
    rw [himage, ← hsizes hparsed]
    refine walk_within hok.sizeOfImage_lt ?_ hwithin
    show headers.relocationAddress + headers.relocationSize - headers.relocationAddress + 2 ≤ _
    omega
  constructor
  · intro h m image start hrelocates
    exact (hwalk hrelocates).mp h.stores
  -- without a walk only the copies write, and these are range-checked
  · intro h
    refine ⟨within_reflectiveDLLInject calls file.length _, ?_⟩
    by_cases hstarts : ∃ m image start, Relocates calls file m image start
    · obtain ⟨m, image, start, hrelocates⟩ := hstarts
      exact (hwalk hrelocates).mpr (h m image start hrelocates)
    by_cases hparses : ∃ nt headers,
        (parseHeaders file.length).run (fileBytes file) = some (nt, headers) ∧
        calls.virtualAllocEx headers.sizeOfImage ≠ 0 ∧
        calls.virtualAlloc headers.sizeOfImage = true
    · obtain ⟨nt, headers, hparsed, hremote, hlocal⟩ := hparses
      have hwithin := storesWithin_copyImage (run_parseHeaders hparsed)
      rw [localImage_of_parsed hparsed hremote hlocal, ← hsizes hparsed]
      cases hcopied : (copyImage file.length nt headers).run (fileBytes file) with
      | error image =>
          rw [hcopied] at hwithin
          exact hwithin
      | ok image =>
          rw [hcopied] at hwithin
          rcases imageOf_relocateImage
            (deltaOf (calls.virtualAllocEx headers.sizeOfImage) headers) headers image with
            ⟨hsame, -⟩ | ⟨⟨hdelta, hsize, hrange⟩, -⟩
          · show (imageOf (relocateImage _ headers image)).StoresWithin _
            rw [hsame]
            exact hwithin
          · exact absurd ⟨_, image, _, nt, headers, hparsed, hremote, hlocal, hcopied, hdelta,
              hsize, hrange, rfl, rfl⟩ hstarts
    · rw [localImage_of_not_parsed]
      · exact fun run hrun => nomatch hrun
      · intro nt headers hparsed
        by_cases hremote : calls.virtualAllocEx headers.sizeOfImage = 0
        · exact Or.inl hremote
        · refine Or.inr (Bool.eq_false_iff.mpr fun hlocal => ?_)
          exact hparses ⟨nt, headers, hparsed, hremote, hlocal⟩

end Stores

/-! ## A file whose fix-up wraps -/

/-- Headers without sections, and behind them one block of relocations with one
    DIR64 entry, for the offset 0xFFFFFFFF + 1. -/
def wrappingFile : List UInt8 :=
  slice (wordsAt [(0, 2, 0x5A4D), (60, 4, 64), (64, 4, 0x4550), (84, 2, 240), (88, 2, 0x20B),
    (112, 8, 0x180000000), (144, 4, 0x1000), (148, 4, 338), (240, 4, 328), (244, 4, 10),
    (328, 4, 0xFFFFFFFF), (332, 4, 10), (336, 2, 0xA001)]) 0 338

/-- Every call succeeds; the region in the target is at 0x10000. -/
def cooperative : MapperCalls where
  virtualAllocEx := fun _ => 0x10000
  virtualAlloc := fun _ => true
  writeProcessMemory := fun _ _ => true
  virtualProtectEx := fun _ _ _ => true
  flushInstructionCache := fun _ _ => true

/-- The image has 4 KiB, and is written at 4 GiB. -/
theorem mapper_writes_outside : ¬ StaysInside cooperative wrappingFile := by
  intro h
  have hrun : (2 ^ 32, 8) ∈ (inject cooperative wrappingFile).localImage.stores ∧
      sizeOfImage wrappingFile = 0x1000 := by decide +kernel
  exact absurd (h.stores _ hrun.1) (by rw [hrun.2]; decide)

end ScopeMapper
