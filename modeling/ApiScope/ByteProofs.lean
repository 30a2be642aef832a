import Mathlib.Data.List.Basic
import Mathlib.Tactic.Ring
import Mathlib.Algebra.Order.Ring.Nat

/-! # Byte memories — slices, stores and little-endian words

    A memory is a total function from byte addresses to bytes.  Everything a
    packed C struct does to memory is one of three things: read a run of
    bytes (`slice`), store a run of bytes (`store`), or view a run of bytes
    as a little-endian number (`leNat`, `leBytes`).

    This file fixes those three and the laws between them: a slice of a store
    is the stored run or the old one, slices split and concatenate, and the
    two directions of the little-endian coding are inverse on runs of the
    right length. -/

namespace ScopeBytes

/-- A byte-addressed memory. -/
abbrev Memory := Nat → UInt8

/-- The `n` bytes of `mem` from `off` on. -/
def slice (mem : Memory) (off n : Nat) : List UInt8 :=
  (List.range n).map fun i => mem (off + i)

/-- Overwrite the run at `off` with `data`. -/
def store (mem : Memory) (off : Nat) (data : List UInt8) : Memory :=
  fun i =>
    if off ≤ i ∧ i < off + data.length then data.getD (i - off) 0 else mem i

/-- The number whose little-endian bytes are the list. -/
def leNat : List UInt8 → Nat
  | [] => 0
  | b :: bs => b.toNat + 256 * leNat bs

/-- The low `n` bytes of a number, little-endian. -/
def leBytes : Nat → Nat → List UInt8
  | 0, _ => []
  | n + 1, v => UInt8.ofNat (v % 256) :: leBytes n (v / 256)

/-! ## Slices -/

@[simp] theorem slice_length (mem : Memory) (off n : Nat) :
    (slice mem off n).length = n := by
  simp [slice]

@[simp] theorem slice_zero (mem : Memory) (off : Nat) :
    slice mem off 0 = [] := rfl

/-- A slice peels off its first byte. -/
theorem slice_succ (mem : Memory) (off n : Nat) :
    slice mem off (n + 1) = mem off :: slice mem (off + 1) n := by
  simp only [slice, List.range_succ_eq_map, List.map_cons, List.map_map,
    Nat.add_zero, List.cons.injEq, true_and]
  refine List.map_congr_left ?_
  intro i _
  show mem (off + (i + 1)) = mem (off + 1 + i)
  rw [show off + (i + 1) = off + 1 + i by omega]

@[simp] theorem slice_one (mem : Memory) (off : Nat) :
    slice mem off 1 = [mem off] := rfl

/-- Adjacent slices concatenate. -/
theorem slice_add (mem : Memory) (off a b : Nat) :
    slice mem off (a + b) = slice mem off a ++ slice mem (off + a) b := by
  induction a generalizing off with
  | zero => simp
  | succ a ih =>
      rw [show a + 1 + b = (a + b) + 1 by omega, slice_succ, slice_succ, ih,
        List.cons_append, show off + 1 + a = off + (a + 1) by omega]

theorem slice_take (mem : Memory) (off n k : Nat) (h : k ≤ n) :
    (slice mem off n).take k = slice mem off k := by
  obtain ⟨m, rfl⟩ := Nat.exists_eq_add_of_le h
  rw [slice_add, List.take_left' (slice_length mem off k)]

theorem slice_drop (mem : Memory) (off n k : Nat) (h : k ≤ n) :
    (slice mem off n).drop k = slice mem (off + k) (n - k) := by
  obtain ⟨m, rfl⟩ := Nat.exists_eq_add_of_le h
  rw [slice_add, List.drop_left' (slice_length mem off k), Nat.add_sub_cancel_left]

/-- A slice depends only on the bytes it covers. -/
theorem slice_congr {mem mem' : Memory} {off n : Nat}
    (h : ∀ i, off ≤ i → i < off + n → mem i = mem' i) :
    slice mem off n = slice mem' off n := by
  refine List.map_congr_left ?_
  intro i hi
  have hlt : i < n := List.mem_range.mp hi
  exact h (off + i) (by omega) (by omega)

/-- Equal slices agree at every covered address. -/
theorem byte_eq_of_slice_eq {mem mem' : Memory} {off n : Nat}
    (h : slice mem off n = slice mem' off n) {i : Nat}
    (h1 : off ≤ i) (h2 : i < off + n) : mem i = mem' i := by
  induction n generalizing off with
  | zero => omega
  | succ n ih =>
      rw [slice_succ, slice_succ] at h
      obtain ⟨hd, tl⟩ := List.cons.inj h
      by_cases hi : i = off
      · rw [hi]
        exact hd
      · exact ih tl (by omega) (by omega)

/-! ## Stores -/

theorem store_inside {mem : Memory} {off : Nat} {data : List UInt8} {i : Nat}
    (h1 : off ≤ i) (h2 : i < off + data.length) :
    store mem off data i = data.getD (i - off) 0 := by
  rw [store, if_pos ⟨h1, h2⟩]

theorem store_outside {mem : Memory} {off : Nat} {data : List UInt8} {i : Nat}
    (h : i < off ∨ off + data.length ≤ i) : store mem off data i = mem i := by
  rw [store, if_neg (by omega)]

@[simp] theorem store_nil (mem : Memory) (off : Nat) :
    store mem off [] = mem := by
  funext i
  refine store_outside ?_
  simp only [List.length_nil]
  omega

/-- The list read back at every index of its range is the list. -/
theorem map_range_getD (l : List UInt8) :
    (List.range l.length).map (fun i => l.getD i 0) = l := by
  refine List.ext_getElem (by simp) ?_
  intro i h1 h2
  simp [List.getElem?_eq_getElem h2]

/-- Reading a stored run back. -/
theorem slice_store_self (mem : Memory) (off : Nat) (data : List UInt8) :
    slice (store mem off data) off data.length = data := by
  rw [slice]
  calc (List.range data.length).map (fun i => store mem off data (off + i))
      = (List.range data.length).map (fun i => data.getD i 0) := by
        refine List.map_congr_left ?_
        intro i hi
        have hlt : i < data.length := List.mem_range.mp hi
        rw [store_inside (by omega) (by omega), Nat.add_sub_cancel_left]
    _ = data := map_range_getD data

/-- A slice that the stored run does not touch. -/
theorem slice_store_disjoint {mem : Memory} {off n at' : Nat}
    {data : List UInt8} (h : off + n ≤ at' ∨ at' + data.length ≤ off) :
    slice (store mem at' data) off n = slice mem off n := by
  refine slice_congr ?_
  intro i h1 h2
  exact store_outside (by omega)

/-! ## Little-endian words -/

@[simp] theorem leBytes_length (n v : Nat) : (leBytes n v).length = n := by
  induction n generalizing v with
  | zero => rfl
  | succ n ih => simp [leBytes, ih]

theorem leNat_lt (bs : List UInt8) : leNat bs < 256 ^ bs.length := by
  induction bs with
  | nil => simp [leNat]
  | cons b bs ih =>
      have hb : b.toNat < 256 := b.toNat_lt
      rw [leNat, List.length_cons, Nat.pow_succ]
      omega

/-- Decoding an encoded number keeps its low `n` bytes. -/
theorem leNat_leBytes (n v : Nat) : leNat (leBytes n v) = v % 256 ^ n := by
  induction n generalizing v with
  | zero => simp [leBytes, leNat, Nat.mod_one]
  | succ n ih =>
      have hb : (UInt8.ofNat (v % 256)).toNat = v % 256 := by
        simp [UInt8.toNat_ofNat']
      rw [leBytes, leNat, hb, ih, Nat.pow_succ, Nat.mul_comm (256 ^ n) 256,
        Nat.mod_mul]

theorem leNat_leBytes_of_lt {n v : Nat} (h : v < 256 ^ n) :
    leNat (leBytes n v) = v := by
  rw [leNat_leBytes, Nat.mod_eq_of_lt h]

/-- Encoding a decoded run gives the run back. -/
theorem leBytes_leNat (bs : List UInt8) :
    leBytes bs.length (leNat bs) = bs := by
  induction bs with
  | nil => rfl
  | cons b bs ih =>
      have hb : b.toNat < 256 := b.toNat_lt
      have h1 : (b.toNat + 256 * leNat bs) % 256 = b.toNat := by omega
      have h2 : (b.toNat + 256 * leNat bs) / 256 = leNat bs := by omega
      rw [List.length_cons, leNat, leBytes, h1, h2, ih]
      simp

theorem leBytes_leNat_of_length {bs : List UInt8} {n : Nat}
    (h : bs.length = n) : leBytes n (leNat bs) = bs := by
  rw [← h]
  exact leBytes_leNat bs

/-- Runs of one length with one value are equal. -/
theorem leNat_inj {bs bs' : List UInt8} (hl : bs.length = bs'.length)
    (h : leNat bs = leNat bs') : bs = bs' := by
  rw [← leBytes_leNat bs, hl, h]
  exact leBytes_leNat bs'

/-- The little-endian word of `n` bytes at `off`. -/
def word (mem : Memory) (off n : Nat) : Nat := leNat (slice mem off n)

theorem word_lt (mem : Memory) (off n : Nat) : word mem off n < 256 ^ n := by
  have h := leNat_lt (slice mem off n)
  rwa [slice_length] at h

theorem word_congr {mem mem' : Memory} {off n : Nat}
    (h : ∀ i, off ≤ i → i < off + n → mem i = mem' i) :
    word mem off n = word mem' off n := by
  rw [word, word, slice_congr h]

/-- A stored word reads back, cut to its width. -/
theorem word_store_self (mem : Memory) (off n v : Nat) :
    word (store mem off (leBytes n v)) off n = v % 256 ^ n := by
  have h := slice_store_self mem off (leBytes n v)
  rw [leBytes_length] at h
  rw [word, h, leNat_leBytes]

theorem word_store_disjoint {mem : Memory} {off n at' : Nat}
    {data : List UInt8} (h : off + n ≤ at' ∨ at' + data.length ≤ off) :
    word (store mem at' data) off n = word mem off n := by
  rw [word, word, slice_store_disjoint h]

/-! ## Runs held in memory -/

/-- The memory holds the run `bs` at `off`. -/
def Holds (mem : Memory) (off : Nat) (bs : List UInt8) : Prop :=
  slice mem off bs.length = bs

theorem holds_nil (mem : Memory) (off : Nat) : Holds mem off [] := rfl

theorem holds_slice (mem : Memory) (off n : Nat) :
    Holds mem off (slice mem off n) := by
  rw [Holds, slice_length]

theorem holds_cons {mem : Memory} {off : Nat} {b : UInt8} {bs : List UInt8} :
    Holds mem off (b :: bs) ↔ mem off = b ∧ Holds mem (off + 1) bs := by
  rw [Holds, List.length_cons, slice_succ, Holds]
  exact List.cons_eq_cons

/-- Concatenated runs are held one after the other. -/
theorem holds_append {mem : Memory} {off : Nat} {bs cs : List UInt8} :
    Holds mem off (bs ++ cs) ↔ Holds mem off bs ∧ Holds mem (off + bs.length) cs := by
  rw [Holds, List.length_append, slice_add, Holds, Holds]
  constructor
  · intro h
    exact List.append_inj h (slice_length _ _ _)
  · rintro ⟨h1, h2⟩
    rw [h1, h2]

/-- A held word is the number stored there, cut to its width. -/
theorem holds_leBytes {mem : Memory} {off n v : Nat} :
    Holds mem off (leBytes n v) ↔ word mem off n = v % 256 ^ n := by
  rw [Holds, leBytes_length, word]
  constructor
  · intro h
    rw [h, leNat_leBytes]
  · intro h
    refine leNat_inj (by rw [slice_length, leBytes_length]) ?_
    rw [h, leNat_leBytes]

theorem holds_congr {mem mem' : Memory} {off : Nat} {bs : List UInt8}
    (h : ∀ i, off ≤ i → i < off + bs.length → mem i = mem' i) :
    Holds mem off bs ↔ Holds mem' off bs := by
  rw [Holds, Holds, slice_congr h]

theorem holds_store (mem : Memory) (off : Nat) (bs : List UInt8) :
    Holds (store mem off bs) off bs :=
  slice_store_self mem off bs

theorem holds_store_disjoint {mem : Memory} {off at' : Nat} {bs data : List UInt8}
    (h : off + bs.length ≤ at' ∨ at' + data.length ≤ off) :
    Holds (store mem at' data) off bs ↔ Holds mem off bs := by
  rw [Holds, Holds, slice_store_disjoint h]

theorem word_one (mem : Memory) (off : Nat) : word mem off 1 = (mem off).toNat := by
  rw [word, slice_one, leNat, leNat, Nat.mul_zero, Nat.add_zero]

end ScopeBytes
