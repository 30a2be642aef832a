import ApiScope.ManualMapProofs
import Mathlib.Data.List.Nodup

/-! # Mapped images — what the mapper writes to the target

    The image that arrives in the target, described byte by byte from the
    file: the headers and the raw data of the sections at their addresses,
    zeros elsewhere, and the word of every DIR64 entry moved by the distance
    from the preferred base (`mapped_image_relocated`).

    The walk patches the buffer it reads the blocks from.  As long as no
    fix-up touches the relocation directory, what it reads is what the copies
    left there, and it applies exactly the entries of that directory, each
    once (`relocate_bytes`). -/

namespace ScopeMapper

open ScopeBytes ScopeWords ScopeRead ScopeRead.Read ScopeRelocation

/-! ## The relocation directory -/

/-- A block of the directory: the first, or the one behind a block, as long as
    there is room for a header and its address is not 0. -/
inductive IsBlock (m : Relocations) (image : LocalImage) (start : Nat) : Nat → Prop where
  | first (h : atBlock m image start) : IsBlock m image start start
  | next {reloc : Nat} (hreloc : IsBlock m image start reloc)
      (h : atBlock m image (reloc + image.sizeOfBlock reloc)) :
      IsBlock m image start (reloc + image.sizeOfBlock reloc)

/-- Entry `i` of the block at `reloc` is a DIR64 entry of the directory. -/
def IsFixup (m : Relocations) (image : LocalImage) (start reloc i : Nat) : Prop :=
  IsBlock m image start reloc ∧ i < image.entryCount reloc ∧ image.isDir64 reloc i

section Directory

variable {m : Relocations} {image : LocalImage} {start reloc i : Nat}

theorem IsBlock.start_le (h : IsBlock m image start reloc) : start ≤ reloc := by
  induction h with
  | first _ => exact Nat.le_refl _
  | next _ _ ih => exact Nat.le_trans ih (Nat.le_add_right _ _)

theorem IsBlock.atStart (h : IsBlock m image start reloc) : atBlock m image start := by
  induction h with
  | first h => exact h
  | next _ _ ih => exact ih

/-- The blocks from a block on: itself, and those from the one behind it. -/
theorem isBlock_iff : IsBlock m image start reloc ↔
    reloc = start ∧ atBlock m image start ∨
      atBlock m image start ∧
        IsBlock m image (start + image.sizeOfBlock start) reloc := by
  constructor
  · intro h
    induction h with
    | first h => exact Or.inl ⟨rfl, h⟩
    | next _ hat ih =>
        rcases ih with ⟨rfl, hstart⟩ | ⟨hstart, hrest⟩
        · exact Or.inr ⟨hstart, .first hat⟩
        · exact Or.inr ⟨hstart, .next hrest hat⟩
  · rintro (⟨rfl, h⟩ | ⟨hstart, hrest⟩)
    · exact .first h
    · induction hrest with
      | first h => exact .next (.first hstart) h
      | next _ h ih => exact .next ih h

/-! ## Reading an image that is being patched -/

/-- The images agree on the relocation directory. -/
def SameDirectory (m : Relocations) (start : Nat) (image image' : LocalImage) : Prop :=
  ∀ p, start ≤ p → p < m.relocationEnd → image'.bytes p = image.bytes p

variable {image' : LocalImage}

theorem SameDirectory.word (h : SameDirectory m start image image') {off n : Nat}
    (hstart : start ≤ off) (hend : off + n ≤ m.relocationEnd) :
    word image'.bytes off n = word image.bytes off n :=
  word_congr fun p h1 h2 => h p (by omega) (by omega)

theorem SameDirectory.header (h : SameDirectory m start image image') (hstart : start ≤ reloc)
    (hroom : reloc + 8 ≤ m.relocationEnd) :
    image'.virtualAddress reloc = image.virtualAddress reloc ∧
      image'.sizeOfBlock reloc = image.sizeOfBlock reloc :=
  ⟨h.word hstart (by omega), h.word (by omega) (by omega)⟩

theorem SameDirectory.atBlock_iff (h : SameDirectory m start image image')
    (hstart : start ≤ reloc) : atBlock m image' reloc ↔ atBlock m image reloc := by
  refine and_congr_right fun hroom => ?_
  rw [(h.header hstart hroom).1]

/-- The entries of a block that fits. -/
theorem SameDirectory.entry (h : SameDirectory m start image image') (hstart : start ≤ reloc)
    (hsize : sizeOk m image reloc) (hi : i < image.entryCount reloc) :
    (image'.isDir64 reloc i ↔ image.isDir64 reloc i) ∧
      image'.patchOffset reloc i = image.patchOffset reloc i := by
  obtain ⟨h8, hfits⟩ := hsize
  have hcount : image.entryCount reloc = (image.sizeOfBlock reloc - 8) / 2 := rfl
  have hdata : image'.relocData reloc i = image.relocData reloc i :=
    h.word (by omega) (by omega)
  constructor
  · rw [LocalImage.isDir64, hdata, LocalImage.isDir64]
  · rw [LocalImage.patchOffset, hdata, (h.header hstart (by omega)).1, LocalImage.patchOffset]

end Directory

/-! ## The entries that are applied -/

/-- The DIR64 entries among the first `count` of a block. -/
def blockEntries (image : LocalImage) (reloc count : Nat) : List (Nat × Nat) :=
  ((List.range count).filter fun i => decide (image.isDir64 reloc i)).map fun i => (reloc, i)

/-- Where an entry of the directory is applied. -/
def target (image : LocalImage) (entry : Nat × Nat) : Nat :=
  image.patchOffset entry.1 entry.2

section Entries

variable {m : Relocations} {image : LocalImage} {start reloc : Nat}

theorem mem_blockEntries {count : Nat} {entry : Nat × Nat} :
    entry ∈ blockEntries image reloc count ↔
      entry.1 = reloc ∧ entry.2 < count ∧ image.isDir64 reloc entry.2 := by
  obtain ⟨r, i⟩ := entry
  rw [blockEntries, List.mem_map]
  constructor
  · rintro ⟨j, hj, heq⟩
    cases heq
    obtain ⟨hrange, hdir⟩ := List.mem_filter.mp hj
    exact ⟨rfl, List.mem_range.mp hrange, of_decide_eq_true hdir⟩
  · rintro ⟨rfl, hi, hdir⟩
    exact ⟨i, List.mem_filter.mpr ⟨List.mem_range.mpr hi, decide_eq_true hdir⟩, rfl⟩

theorem nodup_blockEntries (image : LocalImage) (reloc count : Nat) :
    (blockEntries image reloc count).Nodup := by
  refine (List.nodup_range.filter _).map ?_
  intro i j h
  cases h
  rfl

/-- The image patched at the entries, over the bytes the copies left. -/
def Patched (m : Relocations) (image : LocalImage) (entries : List (Nat × Nat))
    (now : LocalImage) : Prop :=
  now.bytes = bumpAll 8 m.delta image.bytes (entries.map (target image))

/-- Fix-ups apart from the directory leave it alone. -/
theorem Patched.sameDirectory {entries : List (Nat × Nat)} {now : LocalImage}
    (h : Patched m image entries now)
    (hapart : ∀ entry ∈ entries, target image entry + 8 ≤ start ∨
      m.relocationEnd ≤ target image entry) : SameDirectory m start image now := by
  intro p hstart hend
  rw [h]
  refine bumpAll_outside fun off hoff => ?_
  obtain ⟨entry, hentry, rfl⟩ := List.mem_map.mp hoff
  have := hapart entry hentry
  omega

/-- **ONE BLOCK**: the entries of an admitted block are applied one after the
    other, and each of them passed the range check. -/
theorem fixEntries_bytes {entries : List (Nat × Nat)} {head now : LocalImage}
    (hhead : Patched m image entries head) (hstart : start ≤ reloc)
    (hsize : sizeOk m image reloc) {count : Nat} (hcount : count ≤ image.entryCount reloc)
    (hapart : ∀ entry ∈ entries ++ blockEntries image reloc count,
      target image entry + 8 ≤ start ∨ m.relocationEnd ≤ target image entry)
    (hfix : fixEntries m reloc count head = .ok now) :
    Patched m image (entries ++ blockEntries image reloc count) now ∧
      ∀ entry ∈ blockEntries image reloc count,
        target image entry % 2 ^ 32 + 8 ≤ m.dllImageSize := by
  -- the invariant: the bytes are those of the copies with the entries so far applied
  induction count generalizing now with
  | zero =>
      cases hfix
      refine ⟨?_, fun _ hentry => nomatch hentry⟩
      rwa [show blockEntries image reloc 0 = [] from rfl, List.append_nil]
  | succ count ih =>
      rw [fixEntries] at hfix
      cases hbefore : fixEntries m reloc count head with
      | error _ =>
          rw [hbefore] at hfix
          cases hfix
      | ok before =>
          rw [hbefore] at hfix
          dsimp only at hfix
          have hsub : ∀ entry ∈ blockEntries image reloc count,
              entry ∈ blockEntries image reloc (count + 1) := by
            intro entry hentry
            obtain ⟨h1, h2, h3⟩ := mem_blockEntries.mp hentry
            exact mem_blockEntries.mpr ⟨h1, Nat.lt_succ_of_lt h2, h3⟩
          have hapart' : ∀ entry ∈ entries ++ blockEntries image reloc count,
              target image entry + 8 ≤ start ∨ m.relocationEnd ≤ target image entry := by
            intro entry hentry
            refine hapart entry (List.mem_append.mpr ?_)
            exact (List.mem_append.mp hentry).imp_right (hsub entry)
          obtain ⟨hpatched, hrange⟩ := ih (by omega) hapart' hbefore
          -- so the entry reads as the copies left it
          obtain ⟨hdir, hoffset⟩ := (hpatched.sameDirectory hapart').entry hstart hsize
            (show count < image.entryCount reloc by omega)
          rw [fixEntry] at hfix
          by_cases hentry : image.isDir64 reloc count
          · have hlast : blockEntries image reloc (count + 1)
                = blockEntries image reloc count ++ [(reloc, count)] := by
              rw [blockEntries, List.range_succ, List.filter_append, List.map_append,
                List.filter_cons_of_pos (by exact decide_eq_true hentry)]
              rfl
            rw [if_pos (hdir.mpr hentry)] at hfix
            split at hfix
            · rename_i hchecked
              cases hfix
              rw [hlast]
              constructor
              · show store before.bytes _ _ = _
                rw [hoffset, ← List.append_assoc, List.map_append]
                exact (congrArg (fun mem => bump 8 m.delta mem (target image (reloc, count)))
                  hpatched).trans (bumpAll_snoc _ _ _).symm
              · intro entry hmem
                rcases List.mem_append.mp hmem with hold | hnew
                · exact hrange entry hold
                · rw [List.mem_singleton.mp hnew, target, ← hoffset]
                  exact isRangeWithin_iff.mp hchecked
            · cases hfix
          · have hsame : blockEntries image reloc (count + 1)
                = blockEntries image reloc count := by
              rw [blockEntries, List.range_succ, List.filter_append, List.map_append,
                List.filter_cons_of_neg (by exact fun h => hentry (of_decide_eq_true h))]
              exact List.append_nil _
            rw [if_neg (fun h => hentry (hdir.mp h))] at hfix
            cases hfix
            rw [hsame]
            exact ⟨hpatched, hrange⟩

/-- **THE WHOLE DIRECTORY**: a walk that is finished has applied the DIR64
    entries of the blocks from `reloc` on, each once, when none of them is in
    the directory. -/
theorem relocate_bytes {entries : List (Nat × Nat)} {head final : LocalImage} {n : Nat}
    (hhead : Patched m image entries head) (hstart : start ≤ reloc)
    (hapart : ∀ entry : Nat × Nat, entry ∈ entries ∨ IsFixup m image reloc entry.1 entry.2 →
      target image entry + 8 ≤ start ∨ m.relocationEnd ≤ target image entry)
    (hrun : relocate m head reloc n = .finished final) :
    ∃ rest : List (Nat × Nat), rest.Nodup ∧
      (∀ entry, entry ∈ rest ↔ IsFixup m image reloc entry.1 entry.2) ∧
      Patched m image (entries ++ rest) final ∧
      ∀ entry ∈ rest, target image entry % 2 ^ 32 + 8 ≤ m.dllImageSize := by
  have hsame := hhead.sameDirectory fun entry hentry => hapart entry (Or.inl hentry)
  -- one block for each pass; entries are those of the blocks already behind
  induction n generalizing entries head reloc with
  | zero => cases hrun
  | succ n ih =>
      cases hpass : relocBlock m head reloc with
      | rejected refused =>
          have hone : relocate m head reloc 1 = .rejected refused := hpass
          rw [relocate_of_ended (Nat.le_add_left 1 n)
            (not_running_of_rejected hone), hone] at hrun
          cases hrun
      | finished last =>
          have hone : relocate m head reloc 1 = .finished last := hpass
          rw [relocate_of_ended (Nat.le_add_left 1 n)
            (not_running_of_finished hone), hone] at hrun
          cases hrun
          obtain ⟨hnot, rfl⟩ := relocBlock_finished hpass
          refine ⟨[], List.nodup_nil, fun entry => ⟨(fun h => nomatch h), fun h => ?_⟩, ?_,
            (fun _ h => nomatch h)⟩
          · exact absurd ((hsame.atBlock_iff hstart).mpr h.1.atStart) hnot
          · rwa [List.append_nil]
      | running head' reloc' =>
          rw [relocate_succ_running hpass] at hrun
          obtain ⟨hat, hsize, hfix, rfl⟩ := relocBlock_running hpass
          have hheader := hsame.header hstart hat.1
          have hblock : atBlock m image reloc := (hsame.atBlock_iff hstart).mp hat
          have hsize' : sizeOk m image reloc := by
            rw [sizeOk, ← hheader.2]
            exact hsize
          rw [LocalImage.entryCount, hheader.2] at hfix
          -- the entries of this block
          have hfirst : ∀ entry, entry ∈ blockEntries image reloc (image.entryCount reloc) →
              IsFixup m image reloc entry.1 entry.2 := by
            rintro ⟨r, i⟩ hentry
            obtain ⟨hr, hi, hdir⟩ := mem_blockEntries.mp hentry
            cases hr
            exact ⟨.first hblock, hi, hdir⟩
          have hapart' : ∀ entry ∈ entries ++ blockEntries image reloc (image.entryCount reloc),
              target image entry + 8 ≤ start ∨ m.relocationEnd ≤ target image entry :=
            fun entry hentry => hapart entry ((List.mem_append.mp hentry).imp_right (hfirst entry))
          obtain ⟨hpatched, hrange⟩ :=
            fixEntries_bytes hhead hstart hsize' (Nat.le_refl _) hapart' hfix
          have hsame' := hpatched.sameDirectory hapart'
          have hnext : head'.sizeOfBlock reloc = image.sizeOfBlock reloc :=
            (hsame'.header hstart hat.1).2
          rw [hnext] at hrun
          -- and those of the blocks behind it
          have hlater : ∀ entry : Nat × Nat,
              IsFixup m image (reloc + image.sizeOfBlock reloc) entry.1 entry.2 →
              IsFixup m image reloc entry.1 entry.2 := fun entry h =>
            ⟨isBlock_iff.mpr (Or.inr ⟨hblock, h.1⟩), h.2⟩
          obtain ⟨rest, hnodup, hmem, hdone, hrest⟩ := ih hpatched
            (Nat.le_trans hstart (Nat.le_add_right _ _)) (fun entry hentry =>
              hentry.elim (hapart' entry) fun h => hapart entry (Or.inr (hlater entry h)))
            hrun hsame'
          refine ⟨blockEntries image reloc (image.entryCount reloc) ++ rest, ?_, ?_, ?_, ?_⟩
          · refine List.nodup_append.mpr ⟨nodup_blockEntries _ _ _, hnodup, ?_⟩
            -- the blocks behind start where this one ends, so no entry is in both
            rintro x hx y hy rfl
            have hbehind := ((hmem x).mp hy).1.start_le
            have h8 := hsize'.1
            rw [(mem_blockEntries.mp hx).1] at hbehind
            omega
          · intro entry
            rw [List.mem_append, hmem]
            constructor
            · exact fun h => h.elim (hfirst entry) (hlater entry)
            · rintro ⟨hisblock, hi, hdir⟩
              rcases isBlock_iff.mp hisblock with ⟨hr, -⟩ | ⟨-, hrest'⟩
              · rw [hr] at hi hdir
                exact Or.inl (mem_blockEntries.mpr ⟨hr, hi, hdir⟩)
              · exact Or.inr ⟨hrest', hi, hdir⟩
          · rwa [← List.append_assoc]
          · intro entry hentry
            exact (List.mem_append.mp hentry).elim (hrange entry) (hrest entry)

end Entries

/-! ## The image without relocations -/

/-- The headers that `e_lfanew` points to. -/
def headersOf (file : List UInt8) : NtHeaders :=
  NtHeaders.at (fileBytes file) (word (fileBytes file) 60 4)

/-- `section[i]`. -/
def sectionOf (file : List UInt8) (i : Nat) : SectionHeader :=
  SectionHeader.at (fileBytes file)
    (firstSection (word (fileBytes file) 60 4) (headersOf file)) i

/-- The raw data of the section comes to lie over the address `rva`. -/
def SectionHeader.Covers (header : SectionHeader) (rva : Nat) : Prop :=
  header.virtualAddress ≤ rva ∧ rva < header.virtualAddress + header.sizeOfRawData

instance (header : SectionHeader) (rva : Nat) : Decidable (header.Covers rva) :=
  inferInstanceAs (Decidable (_ ∧ _))

/-- The headers and the raw data of the sections at their addresses, zero
    elsewhere. -/
def placedByte (file : List UInt8) (rva : Nat) : UInt8 :=
  if rva < (headersOf file).sizeOfHeaders then fileBytes file rva
  else
    match (List.range (headersOf file).numberOfSections).find? fun i =>
        decide ((sectionOf file i).Covers rva) with
    | some i => fileBytes file
        ((sectionOf file i).pointerToRawData + (rva - (sectionOf file i).virtualAddress))
    | none => 0

def placedImage (file : List UInt8) : LocalImage := ⟨placedByte file, []⟩

/-- The sections overlap neither each other nor the headers. -/
structure SectionsApart (file : List UInt8) : Prop where
  sections : ∀ i j rva, i < (headersOf file).numberOfSections →
    j < (headersOf file).numberOfSections → (sectionOf file i).Covers rva →
    (sectionOf file j).Covers rva → i = j
  headers : ∀ i rva, i < (headersOf file).numberOfSections → (sectionOf file i).Covers rva →
    (headersOf file).sizeOfHeaders ≤ rva

/-- A run copied from one memory to another. -/
theorem store_slice {mem mem' : Memory} {off src n i : Nat} (h1 : off ≤ i) (h2 : i < off + n) :
    store mem off (slice mem' src n) i = mem' (src + (i - off)) := by
  have hi : i - off < (slice mem' src n).length := by
    rw [slice_length]
    omega
  rw [store_inside h1 (by rwa [slice_length]), List.getD_eq_getElem?_getD,
    List.getElem?_eq_getElem hi, Option.getD_some]
  simp only [slice, List.getElem_map, List.getElem_range]

/-- A placed section, byte by byte. -/
theorem place_bytes (header : SectionHeader) (mem : Memory) (image : LocalImage) (rva : Nat) :
    (header.place mem image).bytes rva
      = if header.Covers rva then
          mem (header.pointerToRawData + (rva - header.virtualAddress))
        else image.bytes rva := by
  by_cases hcovers : header.Covers rva
  · rw [if_pos hcovers]
    exact store_slice hcovers.1 hcovers.2
  · rw [if_neg hcovers]
    refine store_outside ?_
    rw [slice_length]
    by_cases h1 : header.virtualAddress ≤ rva
    · exact Or.inr (Nat.not_lt.mp fun h2 => hcovers ⟨h1, h2⟩)
    · exact Or.inl (Nat.not_le.mp h1)

/-- The first `count` sections that do not overlap: each is where it belongs, the
    rest is as it was. -/
theorem copySections_bytes {mem : Memory} {dllFileSize dllImageSize first : Nat} {count : Nat}
    {image copied : LocalImage}
    (hapart : ∀ i j rva, i < count → j < count → (SectionHeader.at mem first i).Covers rva →
      (SectionHeader.at mem first j).Covers rva → i = j)
    (hrun : (copySections dllFileSize dllImageSize first count image).run mem = .ok copied) :
    (∀ i rva, i < count → (SectionHeader.at mem first i).Covers rva →
      copied.bytes rva = mem ((SectionHeader.at mem first i).pointerToRawData
        + (rva - (SectionHeader.at mem first i).virtualAddress))) ∧
    ∀ rva, (∀ i < count, ¬ (SectionHeader.at mem first i).Covers rva) →
      copied.bytes rva = image.bytes rva := by
  induction count generalizing copied with
  | zero =>
      cases hrun
      exact ⟨fun i _ hi => absurd hi (Nat.not_lt_zero i), fun _ _ => rfl⟩
  | succ count ih =>
      rw [copySections, run_bind] at hrun
      cases hbefore : (copySections dllFileSize dllImageSize first count image).run mem with
      | error _ =>
          rw [hbefore] at hrun
          cases hrun
      | ok before =>
          rw [hbefore] at hrun
          obtain ⟨hold, hrest⟩ := ih
            (fun i j rva hi hj => hapart i j rva (Nat.lt_succ_of_lt hi) (Nat.lt_succ_of_lt hj))
            hbefore
          rcases run_copySection dllFileSize dllImageSize first count before mem with
            hrefused | ⟨-, hplaced⟩
          · cases hrefused.symm.trans hrun
          · cases hplaced.symm.trans hrun
            constructor
            · intro i rva hi hcovers
              rw [place_bytes]
              by_cases hlast : (SectionHeader.at mem first count).Covers rva
              · rw [if_pos hlast, hapart i count rva hi (Nat.lt_succ_self _) hcovers hlast]
              · rw [if_neg hlast]
                refine hold i rva ?_ hcovers
                refine Nat.lt_of_le_of_ne (Nat.lt_succ_iff.mp hi) ?_
                rintro rfl
                exact hlast hcovers
            · intro rva hnone
              rw [place_bytes, if_neg (hnone count (Nat.lt_succ_self _))]
              exact hrest rva fun i hi => hnone i (Nat.lt_succ_of_lt hi)

/-- **PLACED**: the copies leave the image without relocations. -/
theorem copyImage_bytes {file : List UInt8} (hapart : SectionsApart file) {nt : Nat}
    {headers : NtHeaders} {copied : LocalImage}
    (hok : HeadersOk (fileBytes file) file.length nt headers)
    (hrun : (copyImage file.length nt headers).run (fileBytes file) = .ok copied) :
    copied.bytes = placedByte file := by
  have hheaders : headersOf file = headers := by
    rw [headersOf, ← hok.nt_eq, ← hok.headers_eq]
  have hsection : ∀ i, sectionOf file i
      = SectionHeader.at (fileBytes file) (firstSection nt headers) i := by
    intro i
    rw [sectionOf, ← hok.nt_eq, hheaders]
  rw [copyImage, run_bind, run_copyFromFile] at hrun
  obtain ⟨hcovered, hrest⟩ := copySections_bytes (fun i j rva => by
    have := hapart.sections i j rva
    rwa [hsection, hsection, hheaders] at this) hrun
  funext rva
  rw [placedByte, hheaders]
  by_cases hhead : rva < headers.sizeOfHeaders
  · rw [if_pos hhead, hrest rva fun i hi hcovers => ?_]
    · refine (store_slice (Nat.zero_le _) (by rwa [Nat.zero_add])).trans ?_
      rw [Nat.sub_zero, Nat.zero_add]
    · rw [← hsection] at hcovers
      have := hapart.headers i rva (by rwa [hheaders]) hcovers
      rw [hheaders] at this
      omega
  · rw [if_neg hhead]
    -- the section that covers the address, if any, is the only one
    cases hfind : (List.range headers.numberOfSections).find? fun i =>
        decide ((sectionOf file i).Covers rva) with
    | some i =>
        have hi := List.mem_range.mp (List.mem_of_find?_eq_some hfind)
        have hcovers : (sectionOf file i).Covers rva := by
          have h := List.find?_some hfind
          exact of_decide_eq_true h
        dsimp only
        rw [hsection] at hcovers ⊢
        exact hcovered i rva hi hcovers
    | none =>
        have hnone : ∀ i < headers.numberOfSections,
            ¬ (SectionHeader.at (fileBytes file) (firstSection nt headers) i).Covers rva := by
          intro i hi hcovers
          rw [← hsection] at hcovers
          exact List.find?_eq_none.mp hfind i (List.mem_range.mpr hi) (decide_eq_true hcovers)
        refine (hrest rva hnone).trans (store_outside ?_)
        rw [slice_length, Nat.zero_add]
        exact Or.inr (Nat.not_lt.mp hhead)

/-! ## The image in the target -/

section Target

variable {calls : MapperCalls} {file : List UInt8} {base : UInt64}

/-- The mapper returns a base only at the end: every stage before succeeded, and
    the bytes of the local image were written. -/
theorem inject_some (h : (inject calls file).dllBase = some base) :
    ∃ nt headers image final,
      (parseHeaders file.length).run (fileBytes file) = some (nt, headers) ∧
      (copyImage file.length nt headers).run (fileBytes file) = .ok image ∧
      relocateImage (deltaOf base headers) headers image = .ok final ∧
      (inject calls file).written = some (slice final.bytes 0 headers.sizeOfImage) := by
  unfold inject reflectiveDLLInject at h ⊢
  rw [run_bind] at h ⊢
  cases hparsed : (parseHeaders file.length).run (fileBytes file) with
  | none =>
      rw [hparsed] at h
      cases h
  | some parsed =>
      obtain ⟨nt, headers⟩ := parsed
      rw [hparsed] at h
      dsimp only at h ⊢
      -- one stage after the other; each that fails has returned null
      by_cases hremote : calls.virtualAllocEx headers.sizeOfImage = 0
      · rw [if_pos hremote] at h
        cases h
      rw [if_neg hremote] at h ⊢
      by_cases hlocal : calls.virtualAlloc headers.sizeOfImage = false
      · rw [if_pos hlocal] at h
        cases h
      rw [if_neg hlocal, run_bind] at h ⊢
      cases hcopied : (copyImage file.length nt headers).run (fileBytes file) with
      | error _ =>
          rw [hcopied] at h
          cases h
      | ok image =>
          rw [hcopied] at h
          dsimp only at h ⊢
          cases hrelocated : relocateImage (deltaOf (calls.virtualAllocEx headers.sizeOfImage)
              headers) headers image with
          | error _ =>
              rw [hrelocated] at h
              cases h
          | ok final =>
              rw [hrelocated] at h
              dsimp only at h ⊢
              rw [run_ite] at h ⊢
              split at h
              · cases h
              rename_i hwritten
              rw [if_neg hwritten]
              rw [run_bind, run_ite] at h ⊢
              split at h
              · rename_i hdone
                rw [if_pos hdone]
                have hbase : calls.virtualAllocEx headers.sizeOfImage = base := Option.some.inj h
                rw [hbase] at hrelocated
                exact ⟨nt, headers, image, final, rfl, hcopied, hrelocated, rfl⟩
              · cases h

/-- Relocated: nothing was to be done, or the walk is finished. -/
theorem relocateImage_ok {delta : Nat} {headers : NtHeaders} {image final : LocalImage}
    (h : relocateImage delta headers image = .ok final) :
    (delta = 0 ∨ headers.relocationSize = 0) ∧ final = image ∨
      relocate (relocationsOf delta headers) image headers.relocationAddress
        (headers.relocationSize + 2) = .finished final := by
  rw [relocateImage] at h
  by_cases hneeded : delta ≠ 0 ∧ headers.relocationSize ≠ 0
  · rw [if_pos hneeded] at h
    split at h
    · cases h
    · split at h
      · cases h
        exact Or.inr (by assumption)
      · cases h
      · cases h
  · rw [if_neg hneeded] at h
    cases h
    refine Or.inl ⟨?_, rfl⟩
    by_cases hdelta : delta = 0
    · exact Or.inl hdelta
    · exact Or.inr (Classical.not_not.mp fun hsize => hneeded ⟨hdelta, hsize⟩)

theorem eight_bytes : 256 ^ 8 = 2 ^ 64 := by decide

/-- How far the image is moved: `remoteDllBase - ImageBase`. -/
def distance (file : List UInt8) (base : UInt64) : Nat := deltaOf base (headersOf file)

/-- The relocations of the file, at a base. -/
def directoryOf (file : List UInt8) (base : UInt64) : Relocations :=
  relocationsOf (distance file base) (headersOf file)

theorem directoryOf_end (file : List UInt8) (base : UInt64) :
    (directoryOf file base).relocationEnd
      = (headersOf file).relocationAddress + (headersOf file).relocationSize := rfl

/-- A block of the relocation directory, as the copies leave it. -/
def BlockOf (file : List UInt8) (base : UInt64) (reloc : Nat) : Prop :=
  IsBlock (directoryOf file base) (placedImage file) (headersOf file).relocationAddress reloc

/-- A DIR64 entry of the relocation directory, as the copies leave it. -/
def FixupOf (file : List UInt8) (base : UInt64) (entry : Nat × Nat) : Prop :=
  IsFixup (directoryOf file base) (placedImage file) (headersOf file).relocationAddress
    entry.1 entry.2

/-- The address of an entry. -/
def rvaOf (file : List UInt8) (entry : Nat × Nat) : Nat := target (placedImage file) entry

theorem rvaOf_eq (file : List UInt8) (reloc i : Nat) :
    rvaOf file (reloc, i) = (placedImage file).virtualAddress reloc
      + (placedImage file).relocData reloc i % 4096 := rfl

/-- The words of the entries lie in 32 bits, apart from each other and from the
    directory. -/
structure FixupsApart (file : List UInt8) (base : UInt64) : Prop where
  blocks : ∀ reloc, BlockOf file base reloc →
    (placedImage file).virtualAddress reloc + 0xFFF < 2 ^ 32
  entries : ∀ x y, FixupOf file base x → FixupOf file base y → x ≠ y →
    Apart 8 (rvaOf file x) (rvaOf file y)
  directory : ∀ x, FixupOf file base x →
    rvaOf file x + 8 ≤ (headersOf file).relocationAddress ∨
      (headersOf file).relocationAddress + (headersOf file).relocationSize ≤ rvaOf file x

/-- **THE RELOCATED IMAGE**: the bytes written to the target are the headers and
    sections at their addresses, with the word of every DIR64 entry moved by
    the distance and all other bytes as they were placed. -/
theorem mapped_image_relocated (h : (inject calls file).dllBase = some base)
    (hsections : SectionsApart file) (hfixups : FixupsApart file base) :
    ∃ image : Memory, (inject calls file).written = some (slice image 0 (sizeOfImage file)) ∧
      (∀ x, FixupOf file base x →
        (distance file base ≠ 0 → rvaOf file x + 8 ≤ sizeOfImage file) ∧
        word image (rvaOf file x) 8
          = (word (placedByte file) (rvaOf file x) 8 + distance file base) % 2 ^ 64) ∧
      ∀ rva, (∀ x, FixupOf file base x → rva < rvaOf file x ∨ rvaOf file x + 8 ≤ rva) →
        image rva = placedByte file rva := by
  obtain ⟨nt, headers, copied, final, hparsed, hcopied, hrelocated, hwritten⟩ := inject_some h
  have hok := run_parseHeaders hparsed
  have hheaders : headers = headersOf file := by
    rw [headersOf, ← hok.nt_eq, ← hok.headers_eq]
  have hplaced : copied.bytes = placedByte file := copyImage_bytes hsections hok hcopied
  rw [hheaders] at hrelocated hwritten
  refine ⟨final.bytes, hwritten, ?_⟩
  rcases relocateImage_ok hrelocated with ⟨hnone, rfl⟩ | hwalk
  · -- no distance, or no directory
    rw [hplaced]
    refine ⟨fun x hx => ?_, fun rva _ => rfl⟩
    have hmoved : distance file base = 0 := by
      rcases hnone with hdelta | hsize
      · exact hdelta
      · have hroom := hx.1.atStart.1
        have hend := directoryOf_end file base
        omega
    have hlt : word (placedByte file) (rvaOf file x) 8 < 2 ^ 64 :=
      Nat.lt_of_lt_of_eq (word_lt _ _ 8) eight_bytes
    rw [hmoved, Nat.add_zero (word _ _ _), Nat.mod_eq_of_lt hlt]
    exact ⟨fun hne => (hne rfl).elim, rfl⟩
  · have hstart : Patched (directoryOf file base) (placedImage file) [] copied := hplaced
    obtain ⟨rest, hnodup, hmem, hpatched, hrange⟩ := relocate_bytes hstart
      (Nat.le_refl (headersOf file).relocationAddress)
      (fun x hx => hfixups.directory x (hx.resolve_left List.not_mem_nil)) hwalk
    rw [List.nil_append] at hpatched
    have hapart : (rest.map (target (placedImage file))).Pairwise (Apart 8) := by
      refine List.pairwise_map.mpr (hnodup.imp_of_mem ?_)
      intro x y hx hy hne
      exact hfixups.entries x y ((hmem x).mp hx) ((hmem y).mp hy) hne
    constructor
    · intro x hx
      constructor
      · intro _
        have hrva : rvaOf file x < 2 ^ 32 := by
          have hblock := hfixups.blocks x.1 hx.1
          have hlow : (placedImage file).relocData x.1 x.2 % 4096 < 4096 :=
            Nat.mod_lt _ (by decide)
          rw [show x = (x.1, x.2) from rfl, rvaOf_eq]
          omega
        have hchecked := hrange x ((hmem x).mpr hx)
        rwa [show target (placedImage file) x % 2 ^ 32 = rvaOf file x from
          Nat.mod_eq_of_lt hrva] at hchecked
      · rw [hpatched, ← eight_bytes]
        exact word_bumpAll hapart (List.mem_map_of_mem ((hmem x).mpr hx))
    · intro rva houtside
      rw [hpatched]
      refine bumpAll_outside fun off hoff => ?_
      obtain ⟨x, hx, rfl⟩ := List.mem_map.mp hoff
      exact houtside x ((hmem x).mp hx)

end Target

/-! ## A file with two fix-ups -/

/-- Headers and one section, for 0x200: a block of relocations with two DIR64
    entries, and at 0x210 the two words that they move. -/
def relocatableFile : List UInt8 :=
  slice (wordsAt [(0, 2, 0x5A4D), (60, 4, 64), (64, 4, 0x4550), (70, 2, 1), (84, 2, 240),
    (88, 2, 0x20B), (112, 8, 0x180000000), (144, 4, 0x1000), (148, 4, 64), (240, 4, 0x200),
    (244, 4, 12), (340, 4, 0x200), (344, 4, 32), (348, 4, 368), (368, 4, 0x200), (372, 4, 12),
    (376, 2, 0xA010), (378, 2, 0xA018), (384, 8, 0x180000010), (392, 8, 0x180000020)]) 0 400

theorem relocatableFile_members :
    (headersOf relocatableFile).numberOfSections = 1 ∧
      (headersOf relocatableFile).sizeOfHeaders = 64 ∧
      (headersOf relocatableFile).relocationAddress = 0x200 ∧
      (headersOf relocatableFile).relocationSize = 12 ∧
      (sectionOf relocatableFile 0).virtualAddress = 0x200 ∧
      (placedImage relocatableFile).virtualAddress 0x200 = 0x200 ∧
      (placedImage relocatableFile).sizeOfBlock 0x200 = 12 ∧
      (placedImage relocatableFile).relocData 0x200 0 = 0xA010 ∧
      (placedImage relocatableFile).relocData 0x200 1 = 0xA018 := by
  decide +kernel

theorem relocatableFile_sections : SectionsApart relocatableFile := by
  obtain ⟨hcount, hheaders, -, -, haddress, -⟩ := relocatableFile_members
  constructor
  · intro i j _ hi hj _ _
    omega
  · intro i rva hi hcovers
    obtain rfl : i = 0 := by omega
    have := hcovers.1
    omega

/-- The only block is the one at 0x200. -/
theorem relocatableFile_block {base : UInt64} {reloc : Nat}
    (h : BlockOf relocatableFile base reloc) : reloc = 0x200 := by
  obtain ⟨-, -, hstart, hsize, -, -, hblock, -⟩ := relocatableFile_members
  have hend : (directoryOf relocatableFile base).relocationEnd = 0x20C := by
    rw [directoryOf_end, hstart, hsize]
  unfold BlockOf at h
  rw [hstart] at h
  rcases isBlock_iff.mp h with ⟨hfirst, -⟩ | ⟨-, hlater⟩
  · exact hfirst
  · have hroom := hlater.atStart.1
    omega

/-- Its two entries. -/
theorem relocatableFile_fixup {base : UInt64} {x : Nat × Nat} :
    FixupOf relocatableFile base x ↔ x = (0x200, 0) ∨ x = (0x200, 1) := by
  obtain ⟨-, -, hstart, hsize, -, haddress, hblock, hfirst, hsecond⟩ := relocatableFile_members
  have hcount : (placedImage relocatableFile).entryCount 0x200 = 2 := by
    rw [LocalImage.entryCount, hblock]
  have hisblock : BlockOf relocatableFile base 0x200 := by
    rw [BlockOf, hstart]
    refine .first ⟨?_, by rw [haddress]; decide⟩
    rw [directoryOf_end, hstart, hsize]
    decide
  obtain ⟨reloc, i⟩ := x
  constructor
  · rintro ⟨hreloc, hi, -⟩
    obtain rfl := relocatableFile_block hreloc
    have hlt : i < (placedImage relocatableFile).entryCount 0x200 := hi
    rw [hcount] at hlt
    rcases Nat.lt_or_ge i 1 with hzero | hone
    · exact Or.inl (by rw [Nat.lt_one_iff.mp hzero])
    · exact Or.inr (by rw [Nat.le_antisymm (Nat.le_of_lt_succ hlt) hone])
  · rintro (heq | heq)
    · cases heq
      exact ⟨hisblock, by rw [hcount]; decide, by rw [LocalImage.isDir64, hfirst]⟩
    · cases heq
      exact ⟨hisblock, by rw [hcount]; decide, by rw [LocalImage.isDir64, hsecond]⟩

theorem relocatableFile_rva : rvaOf relocatableFile (0x200, 0) = 0x210 ∧
    rvaOf relocatableFile (0x200, 1) = 0x218 := by
  obtain ⟨-, -, -, -, -, haddress, -, hfirst, hsecond⟩ := relocatableFile_members
  constructor
  · rw [rvaOf_eq, haddress, hfirst]
  · rw [rvaOf_eq, haddress, hsecond]

theorem relocatableFile_fixups (base : UInt64) : FixupsApart relocatableFile base := by
  obtain ⟨-, -, hstart, hsize, -, haddress, -⟩ := relocatableFile_members
  obtain ⟨hfirst, hsecond⟩ := relocatableFile_rva
  constructor
  · intro reloc hisblock
    rw [relocatableFile_block hisblock, haddress]
    decide
  · intro x y hx hy hne
    rcases relocatableFile_fixup.mp hx with rfl | rfl <;>
      rcases relocatableFile_fixup.mp hy with rfl | rfl
    · exact absurd rfl hne
    · rw [hfirst, hsecond]
      exact Or.inl (by decide)
    · rw [hfirst, hsecond]
      exact Or.inr (by decide)
    · exact absurd rfl hne
  · intro x hx
    rw [hstart, hsize]
    rcases relocatableFile_fixup.mp hx with rfl | rfl
    · rw [hfirst]
      exact Or.inr (by decide)
    · rw [hsecond]
      exact Or.inr (by decide)

/-- Moved from 0x180000000 to 0x10000. -/
theorem mapped_image_relocated_words : ∃ image : Memory,
    (inject cooperative relocatableFile).written
        = some (slice image 0 (sizeOfImage relocatableFile)) ∧
      word image 0x210 8 = 0x10010 ∧ word image 0x218 8 = 0x10020 := by
  have hbase : (inject cooperative relocatableFile).dllBase = some 0x10000 := by
    decide +kernel
  obtain ⟨image, hwritten, hwords, -⟩ := mapped_image_relocated hbase relocatableFile_sections
    (relocatableFile_fixups 0x10000)
  have hvalues : word (placedByte relocatableFile) 0x210 8 = 0x180000010 ∧
      word (placedByte relocatableFile) 0x218 8 = 0x180000020 ∧
      distance relocatableFile 0x10000 = 2 ^ 64 + 0x10000 - 0x180000000 := by decide +kernel
  obtain ⟨hfirst, hsecond, hdistance⟩ := hvalues
  refine ⟨image, hwritten, ?_, ?_⟩
  · have hmoved := (hwords _ (relocatableFile_fixup.mpr (Or.inl rfl))).2
    rw [relocatableFile_rva.1, hfirst, hdistance] at hmoved
    exact hmoved
  · have hmoved := (hwords _ (relocatableFile_fixup.mpr (Or.inr rfl))).2
    rw [relocatableFile_rva.2, hsecond, hdistance] at hmoved
    exact hmoved

end ScopeMapper
