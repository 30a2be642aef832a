import ApiScope.WordUpdateProofs
import Mathlib.Logic.Function.Iterate

/-! # Relocations — the fix-ups of the manual mapper

    The relocation walk of `ReflectiveDLLInject`.  It reads the blocks of the
    relocation directory from the very image it patches, so a fix-up may
    change a block that is still to be read, its own header included.

    One pass of the outer loop is a step on the states of the walk
    (`relocBlock`).  The size of a block is checked before its entries are
    applied and read again afterwards, so a pass need not move the cursor:
    the walk ends because a pass that stays where it is leaves a block of
    size 0, which the next pass refuses (`pass_moves_or_ends`). -/

namespace ScopeRelocation

open ScopeBytes ScopeWords

/-- `IsRangeWithin`. -/
def isRangeWithin (offset length bufferSize : Nat) : Bool :=
  decide (offset ≤ bufferSize) && decide (length ≤ bufferSize - offset)

theorem isRangeWithin_iff {offset length bufferSize : Nat} :
    isRangeWithin offset length bufferSize = true ↔ offset + length ≤ bufferSize := by
  rw [isRangeWithin, Bool.and_eq_true, decide_eq_true_iff, decide_eq_true_iff]
  omega

/-! ## The local image -/

/-- The buffer at `localDllBase`, and the runs written to it so far. -/
structure LocalImage where
  bytes : Memory
  /-- Offset and length of every store, in order. -/
  stores : List (Nat × Nat)

namespace LocalImage

/-- As `VirtualAlloc` returns it. -/
def zeroed : LocalImage := ⟨fun _ => 0, []⟩

def write (image : LocalImage) (offset : Nat) (data : List UInt8) : LocalImage where
  bytes := store image.bytes offset data
  stores := image.stores ++ [(offset, data.length)]

/-- `reloc->VirtualAddress`. -/
def virtualAddress (image : LocalImage) (reloc : Nat) : Nat := word image.bytes reloc 4

/-- `reloc->SizeOfBlock`. -/
def sizeOfBlock (image : LocalImage) (reloc : Nat) : Nat := word image.bytes (reloc + 4) 4

/-- `relocData[i]`. -/
def relocData (image : LocalImage) (reloc i : Nat) : Nat :=
  word image.bytes (reloc + 8 + 2 * i) 2

/-- `relocData[i] >> 12` is `IMAGE_REL_BASED_DIR64`. -/
def isDir64 (image : LocalImage) (reloc i : Nat) : Prop := image.relocData reloc i / 4096 = 10

instance (image : LocalImage) (reloc i : Nat) : Decidable (image.isDir64 reloc i) :=
  inferInstanceAs (Decidable (_ = _))

/-- `reloc->VirtualAddress` and the low twelve bits of `relocData[i]`, added as
    offsets into the image. -/
def patchOffset (image : LocalImage) (reloc i : Nat) : Nat :=
  image.virtualAddress reloc + image.relocData reloc i % 4096

/-- The number of entries of the block. -/
def entryCount (image : LocalImage) (reloc : Nat) : Nat := (image.sizeOfBlock reloc - 8) / 2

end LocalImage

/-! ## The walk -/

/-- What the walk is given. -/
structure Relocations where
  /-- `remoteDllBase - ImageBase`, modulo 2^64. -/
  delta : Nat
  dllImageSize : Nat
  /-- The offset of `relocationEnd`. -/
  relocationEnd : Nat

/-- One entry of a block; an error is a refused image, as it is then.  The check
    is on the 32-bit sum, the store at the pointer. -/
def fixEntry (m : Relocations) (reloc i : Nat) (image : LocalImage) :
    Except LocalImage LocalImage :=
  if image.isDir64 reloc i then
    if isRangeWithin (image.patchOffset reloc i % 2 ^ 32) 8 m.dllImageSize then
      let patchAddr := image.patchOffset reloc i
      .ok (image.write patchAddr (leBytes 8 (word image.bytes patchAddr 8 + m.delta)))
    else .error image
  else .ok image

/-- The first `count` entries of the block at `reloc`. -/
def fixEntries (m : Relocations) (reloc : Nat) :
    (count : Nat) → LocalImage → Except LocalImage LocalImage
  | 0, image => .ok image
  | count + 1, image =>
      match fixEntries m reloc count image with
      | .error image => .error image
      | .ok image => fixEntry m reloc count image

/-- A state of the walk between two passes of the outer loop. -/
inductive Walk where
  | running (image : LocalImage) (reloc : Nat)
  | rejected (image : LocalImage)
  | finished (image : LocalImage)

/-- The condition of the outer loop. -/
def atBlock (m : Relocations) (image : LocalImage) (reloc : Nat) : Prop :=
  reloc + 8 ≤ m.relocationEnd ∧ image.virtualAddress reloc ≠ 0

instance (m : Relocations) (image : LocalImage) (reloc : Nat) :
    Decidable (atBlock m image reloc) := inferInstanceAs (Decidable (_ ∧ _))

/-- The size of the block is one the loop goes on with. -/
def sizeOk (m : Relocations) (image : LocalImage) (reloc : Nat) : Prop :=
  8 ≤ image.sizeOfBlock reloc ∧ reloc + image.sizeOfBlock reloc ≤ m.relocationEnd

instance (m : Relocations) (image : LocalImage) (reloc : Nat) :
    Decidable (sizeOk m image reloc) := inferInstanceAs (Decidable (_ ∧ _))

/-- One pass of the outer loop.  The number of entries is computed before they
    are applied, the next block is found with the size that is there then. -/
def relocBlock (m : Relocations) (image : LocalImage) (reloc : Nat) : Walk :=
  if atBlock m image reloc then
    if sizeOk m image reloc then
      match fixEntries m reloc (image.entryCount reloc) image with
      | .error image => .rejected image
      | .ok image => .running image (reloc + image.sizeOfBlock reloc)
    else .rejected image
  else .finished image

def Walk.pass (m : Relocations) : Walk → Walk
  | .running image reloc => relocBlock m image reloc
  | .rejected image => .rejected image
  | .finished image => .finished image

/-- The walk from `reloc` on after `n` passes. -/
def relocate (m : Relocations) (image : LocalImage) (reloc n : Nat) : Walk :=
  (Walk.pass m)^[n] (.running image reloc)

def Walk.image : Walk → LocalImage
  | .running image _ => image
  | .rejected image => image
  | .finished image => image

/-- Neither stopped nor refused. -/
def Walk.Running (w : Walk) : Prop := ∃ image reloc, w = .running image reloc

section Walk

variable {m : Relocations} {image image' : LocalImage} {reloc reloc' : Nat}

theorem relocate_succ (image : LocalImage) (reloc n : Nat) :
    relocate m image reloc (n + 1) = (relocate m image reloc n).pass m :=
  Function.iterate_succ_apply' _ _ _

/-- The first pass, and the others from where it led. -/
theorem relocate_succ_running (h : relocBlock m image reloc = .running image' reloc')
    (n : Nat) : relocate m image reloc (n + 1) = relocate m image' reloc' n := by
  rw [relocate, Function.iterate_succ_apply, relocate]
  exact congrArg (Walk.pass m)^[n] h

/-- **ONE PASS** that goes on: the block was admitted, its entries applied, and
    the cursor moved by the size read afterwards. -/
theorem relocBlock_running (h : relocBlock m image reloc = .running image' reloc') :
    atBlock m image reloc ∧ sizeOk m image reloc ∧
      fixEntries m reloc (image.entryCount reloc) image = .ok image' ∧
      reloc' = reloc + image'.sizeOfBlock reloc := by
  rw [relocBlock] at h
  by_cases hblock : atBlock m image reloc
  · rw [if_pos hblock] at h
    by_cases hsize : sizeOk m image reloc
    · rw [if_pos hsize] at h
      cases hfix : fixEntries m reloc (image.entryCount reloc) image with
      | error _ =>
          rw [hfix] at h
          cases h
      | ok _ =>
          rw [hfix] at h
          cases h
          exact ⟨hblock, hsize, rfl, rfl⟩
    · rw [if_neg hsize] at h
      cases h
  · rw [if_neg hblock] at h
    cases h

/-- The loop is left at the first place that is no block. -/
theorem relocBlock_finished (h : relocBlock m image reloc = .finished image') :
    ¬ atBlock m image reloc ∧ image' = image := by
  rw [relocBlock] at h
  by_cases hblock : atBlock m image reloc
  · rw [if_pos hblock] at h
    split at h
    · split at h <;> cases h
    · cases h
  · rw [if_neg hblock] at h
    cases h
    exact ⟨hblock, rfl⟩

/-! ## The walk ends -/

/-- A pass moves the cursor forward, or the next pass ends the walk: it stays in
    place only at a block that now has size 0. -/
theorem pass_moves_or_ends (h : relocBlock m image reloc = .running image' reloc') :
    reloc < reloc' ∨ reloc' = reloc ∧
      (relocBlock m image' reloc' = .rejected image' ∨
        relocBlock m image' reloc' = .finished image') := by
  obtain ⟨-, -, -, rfl⟩ := relocBlock_running h
  rcases Nat.eq_zero_or_pos (image'.sizeOfBlock reloc) with hzero | hpos
  -- a fix-up has cleared SizeOfBlock, and the next pass refuses such a block
  · refine Or.inr ⟨by rw [hzero, Nat.add_zero], ?_⟩
    rw [hzero, Nat.add_zero, relocBlock]
    by_cases hblock : atBlock m image' reloc
    · have hsize : ¬ sizeOk m image' reloc := by
        rintro ⟨h8, -⟩
        omega
      rw [if_pos hblock, if_neg hsize]
      exact Or.inl rfl
    · rw [if_neg hblock]
      exact Or.inr rfl
  · exact Or.inl (Nat.lt_add_of_pos_right hpos)

/-- A walk that has ended stays as it is. -/
theorem relocate_of_ended {n n' : Nat} (hn : n ≤ n')
    (h : ¬ (relocate m image reloc n).Running) :
    relocate m image reloc n' = relocate m image reloc n := by
  induction n', hn using Nat.le_induction with
  | base => rfl
  | succ n' _ ih =>
      rw [relocate_succ, ih]
      cases hw : relocate m image reloc n with
      | running image' reloc' => exact absurd ⟨image', reloc', hw⟩ h
      | rejected _ => rfl
      | finished _ => rfl

theorem not_running_of_one (h : ¬ (relocBlock m image reloc).Running) {n : Nat} (hn : 0 < n) :
    ¬ (relocate m image reloc n).Running := by
  have hone : relocate m image reloc 1 = relocBlock m image reloc := rfl
  rwa [relocate_of_ended hn (by rwa [hone]), hone]

theorem not_running_of_rejected {w : Walk} {final : LocalImage} (h : w = .rejected final) :
    ¬ w.Running := by
  rintro ⟨_, _, hw⟩
  cases h.symm.trans hw

theorem not_running_of_finished {w : Walk} {final : LocalImage} (h : w = .finished final) :
    ¬ w.Running := by
  rintro ⟨_, _, hw⟩
  cases h.symm.trans hw

/-- The passes are at most two more than the bytes in front of
    `relocationEnd`. -/
theorem relocate_ends {n : Nat} (hn : m.relocationEnd - reloc + 2 ≤ n) :
    ¬ (relocate m image reloc n).Running := by
  -- each pass but the last two moves reloc, so relocationEnd - reloc bounds them
  induction n generalizing image reloc with
  | zero => omega
  | succ n ih =>
      cases hpass : relocBlock m image reloc with
      | rejected final =>
          exact not_running_of_one (not_running_of_rejected hpass) (Nat.succ_pos n)
      | finished final =>
          exact not_running_of_one (not_running_of_finished hpass) (Nat.succ_pos n)
      | running image' reloc' =>
          rw [relocate_succ_running hpass]
          obtain ⟨⟨hroom, -⟩, -, -, -⟩ := relocBlock_running hpass
          rcases pass_moves_or_ends hpass with hmoves | ⟨rfl, hends⟩
          · exact ih (by omega)
          · refine not_running_of_one ?_ (by omega)
            rcases hends with hrejected | hfinished
            · exact not_running_of_rejected hrejected
            · exact not_running_of_finished hfinished

theorem ended_of_not_running {w : Walk} (h : ¬ w.Running) :
    ∃ final, w = .rejected final ∨ w = .finished final := by
  cases w with
  | running image reloc => exact absurd ⟨image, reloc, rfl⟩ h
  | rejected final => exact ⟨final, Or.inl rfl⟩
  | finished final => exact ⟨final, Or.inr rfl⟩

/-- **THE WALK ENDS** on every image, from every block and with every delta:
    it is refused or finished after finitely many passes, and every pass ends
    it, moves the cursor forward, or is followed by the pass that ends it. -/
theorem relocation_walk_ends (m : Relocations) (image : LocalImage) (start : Nat) :
    (∃ n final, relocate m image start n = .rejected final ∨
      relocate m image start n = .finished final) ∧
    ∀ n head reloc, relocate m image start n = .running head reloc →
      (∃ final, relocBlock m head reloc = .rejected final) ∨
      (∃ final, relocBlock m head reloc = .finished final) ∨
      ∃ head' reloc', relocBlock m head reloc = .running head' reloc' ∧
        (reloc < reloc' ∨
          (∃ final, relocBlock m head' reloc' = .rejected final) ∨
          ∃ final, relocBlock m head' reloc' = .finished final) := by
  constructor
  · exact ⟨_, ended_of_not_running (relocate_ends (Nat.le_refl _))⟩
  · intro n head reloc _
    cases hpass : relocBlock m head reloc with
    | rejected final => exact Or.inl ⟨final, rfl⟩
    | finished final => exact Or.inr (Or.inl ⟨final, rfl⟩)
    | running head' reloc' =>
        refine Or.inr (Or.inr ⟨head', reloc', rfl, ?_⟩)
        rcases pass_moves_or_ends hpass with hmoves | ⟨-, hrejected | hfinished⟩
        · exact Or.inl hmoves
        · exact Or.inr (Or.inl ⟨_, hrejected⟩)
        · exact Or.inr (Or.inr ⟨_, hfinished⟩)

/-! ## What the walk writes -/

/-- Every run written lies in the first `size` bytes. -/
def LocalImage.StoresWithin (size : Nat) (image : LocalImage) : Prop :=
  ∀ run ∈ image.stores, run.1 + run.2 ≤ size

theorem storesWithin_write {size offset : Nat} {data : List UInt8} :
    (image.write offset data).StoresWithin size
      ↔ image.StoresWithin size ∧ offset + data.length ≤ size := by
  constructor
  · intro h
    exact ⟨fun run hrun => h run (List.mem_append_left _ hrun),
      h (offset, data.length) (List.mem_append_right _ List.mem_cons_self)⟩
  · rintro ⟨h, hlast⟩ run hrun
    rcases List.mem_append.mp hrun with hold | hnew
    · exact h run hold
    · rw [List.mem_singleton.mp hnew]
      exact hlast

/-- A DIR64 entry whose offset does not fit 32 bits, but is in the image once it
    is cut to them. -/
def WrapsInto (m : Relocations) (image : LocalImage) (reloc i : Nat) : Prop :=
  image.isDir64 reloc i ∧ 2 ^ 32 ≤ image.patchOffset reloc i ∧
    image.patchOffset reloc i % 2 ^ 32 + 8 ≤ m.dllImageSize

/-- The image a loop leaves, also when it refuses it. -/
def imageOf : Except LocalImage LocalImage → LocalImage
  | .error image => image
  | .ok image => image

/-- One entry writes outside of the image exactly when it wraps into it. -/
theorem fixEntry_within (hsize : m.dllImageSize < 2 ^ 32) (i : Nat) :
    (imageOf (fixEntry m reloc i image)).StoresWithin m.dllImageSize
      ↔ image.StoresWithin m.dllImageSize ∧ ¬ WrapsInto m image reloc i := by
  rw [fixEntry]
  by_cases hdir : image.isDir64 reloc i
  · rw [if_pos hdir]
    by_cases hrange : isRangeWithin (image.patchOffset reloc i % 2 ^ 32) 8 m.dllImageSize = true
    · rw [if_pos hrange]
      have hwrapped := isRangeWithin_iff.mp hrange
      show (image.write _ _).StoresWithin _ ↔ _
      -- the check saw the offset modulo 2^32, the store takes the whole of it
      rw [storesWithin_write, leBytes_length]
      refine and_congr_right fun _ => ?_
      constructor
      · rintro hfits ⟨-, hlarge, -⟩
        omega
      · intro hnot
        have hsmall : ¬ 2 ^ 32 ≤ image.patchOffset reloc i :=
          fun hlarge => hnot ⟨hdir, hlarge, hwrapped⟩
        rwa [Nat.mod_eq_of_lt (Nat.not_le.mp hsmall)] at hwrapped
    · rw [if_neg hrange]
      refine ⟨fun h => ⟨h, ?_⟩, And.left⟩
      rintro ⟨-, -, hin⟩
      exact hrange (isRangeWithin_iff.mpr hin)
  · rw [if_neg hdir]
    exact ⟨fun h => ⟨h, fun hwraps => hdir hwraps.1⟩, And.left⟩

theorem fixEntries_within (hsize : m.dllImageSize < 2 ^ 32) (count : Nat) :
    (imageOf (fixEntries m reloc count image)).StoresWithin m.dllImageSize
      ↔ image.StoresWithin m.dllImageSize ∧
        ∀ i < count, ∀ now, fixEntries m reloc i image = .ok now →
          ¬ WrapsInto m now reloc i := by
  induction count with
  | zero => exact ⟨fun h => ⟨h, fun i hi => absurd hi (Nat.not_lt_zero i)⟩, And.left⟩
  | succ count ih =>
      rw [fixEntries]
      -- a refused image is not touched by the entries behind
      cases hfix : fixEntries m reloc count image with
      | error refused =>
          rw [hfix] at ih
          refine ih.trans (and_congr_right fun _ => ?_)
          constructor
          · intro h i hi now hnow
            rcases Nat.lt_succ_iff_lt_or_eq.mp hi with hlt | rfl
            · exact h i hlt now hnow
            · cases hfix.symm.trans hnow
          · exact fun h i hi => h i (Nat.lt_succ_of_lt hi)
      | ok now =>
          rw [hfix] at ih
          refine (fixEntry_within hsize count).trans ?_
          rw [show (now.StoresWithin m.dllImageSize ↔ _) from ih, and_assoc]
          refine and_congr_right fun _ => ?_
          constructor
          · rintro ⟨h, hlast⟩ i hi now' hnow
            rcases Nat.lt_succ_iff_lt_or_eq.mp hi with hlt | rfl
            · exact h i hlt now' hnow
            · cases hfix.symm.trans hnow
              exact hlast
          · intro h
            exact ⟨fun i hi => h i (Nat.lt_succ_of_lt hi), h count (Nat.lt_succ_self _) now hfix⟩

/-- The walk comes to entry `i` of the block at `reloc`; `now` is the image it
    then has. -/
def ComesTo (m : Relocations) (image : LocalImage) (start reloc i : Nat) (now : LocalImage) :
    Prop :=
  ∃ n head, relocate m image start n = .running head reloc ∧ atBlock m head reloc ∧
    sizeOk m head reloc ∧ i < head.entryCount reloc ∧ fixEntries m reloc i head = .ok now

theorem relocBlock_within (hsize : m.dllImageSize < 2 ^ 32) :
    (relocBlock m image reloc).image.StoresWithin m.dllImageSize
      ↔ image.StoresWithin m.dllImageSize ∧
        (atBlock m image reloc → sizeOk m image reloc → ∀ i < image.entryCount reloc, ∀ now,
          fixEntries m reloc i image = .ok now → ¬ WrapsInto m now reloc i) := by
  rw [relocBlock]
  by_cases hblock : atBlock m image reloc
  · rw [if_pos hblock]
    by_cases hok : sizeOk m image reloc
    · rw [if_pos hok]
      have himage : (match fixEntries m reloc (image.entryCount reloc) image with
          | .error image => Walk.rejected image
          | .ok image => .running image (reloc + image.sizeOfBlock reloc)).image
          = imageOf (fixEntries m reloc (image.entryCount reloc) image) := by
        cases fixEntries m reloc (image.entryCount reloc) image <;> rfl
      rw [himage, fixEntries_within hsize]
      exact and_congr_right fun _ => ⟨fun h _ _ => h, fun h => h hblock hok⟩
    · rw [if_neg hok]
      exact ⟨fun h => ⟨h, fun _ h => absurd h hok⟩, And.left⟩
  · rw [if_neg hblock]
    exact ⟨fun h => ⟨h, fun h => absurd h hblock⟩, And.left⟩

/-- Every store of the first `n` passes, from the entries they come to. -/
theorem relocate_within (hsize : m.dllImageSize < 2 ^ 32) (start n : Nat) :
    (relocate m image start n).image.StoresWithin m.dllImageSize
      ↔ image.StoresWithin m.dllImageSize ∧ ∀ k < n, ∀ head reloc,
        relocate m image start k = .running head reloc → atBlock m head reloc →
        sizeOk m head reloc → ∀ i < head.entryCount reloc, ∀ now,
          fixEntries m reloc i head = .ok now → ¬ WrapsInto m now reloc i := by
  induction n with
  | zero => exact ⟨fun h => ⟨h, fun k hk => absurd hk (Nat.not_lt_zero k)⟩, And.left⟩
  | succ n ih =>
      have hsplit : ∀ {P : Nat → Prop}, (∀ k < n + 1, P k) ↔ (∀ k < n, P k) ∧ P n := by
        intro P
        exact ⟨fun h => ⟨fun k hk => h k (Nat.lt_succ_of_lt hk), h n (Nat.lt_succ_self n)⟩,
          fun h k hk => (Nat.lt_succ_iff_lt_or_eq.mp hk).elim (h.1 k) fun heq => heq ▸ h.2⟩
      rw [hsplit, ← and_assoc, ← ih, relocate_succ]
      cases hw : relocate m image start n with
      | rejected _ => exact ⟨fun h => ⟨h, fun _ _ heq => nomatch heq⟩, And.left⟩
      | finished _ => exact ⟨fun h => ⟨h, fun _ _ heq => nomatch heq⟩, And.left⟩
      | running head reloc =>
          refine (relocBlock_within hsize).trans (and_congr_right fun _ => ?_)
          constructor
          · intro h _ _ heq
            cases heq
            exact h
          · exact fun h => h head reloc rfl

/-- **WRITES OF THE WALK**: the whole walk stays inside of the image exactly
    when no entry it comes to wraps into it. -/
theorem walk_within (hsize : m.dllImageSize < 2 ^ 32) {start n : Nat}
    (hn : m.relocationEnd - start + 2 ≤ n) (himage : image.StoresWithin m.dllImageSize) :
    (relocate m image start n).image.StoresWithin m.dllImageSize
      ↔ ∀ reloc i now, ComesTo m image start reloc i now → ¬ WrapsInto m now reloc i := by
  rw [relocate_within hsize]
  constructor
  · rintro ⟨-, h⟩ reloc i now ⟨k, head, hk, hblock, hok, hi, hnow⟩
    refine h k ?_ head reloc hk hblock hok i hi now hnow
    -- an entry the walk comes to is met before the walk has ended
    refine Nat.not_le.mp fun hle => ?_
    have hended : ¬ (relocate m image start n).Running := relocate_ends hn
    exact hended ⟨head, reloc, (relocate_of_ended hle hended).symm.trans hk⟩
  · intro h
    exact ⟨himage, fun k _ head reloc hk hblock hok i hi now hnow =>
      h reloc i now ⟨k, head, hk, hblock, hok, hi, hnow⟩⟩

end Walk

end ScopeRelocation
