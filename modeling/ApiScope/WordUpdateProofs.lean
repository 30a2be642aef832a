import ApiScope.ByteProofs
import Mathlib.Data.List.Pairwise

/-! # Word updates — adding a number to many words of a memory

    `bump` adds a number to one little-endian word, modulo the width of the
    word.  Words that lie apart do not see each other's updates, so a whole
    list of them is described pointwise: every word of the list is increased
    once, every other byte is what it was (`word_bumpAll`,
    `bumpAll_outside`).  The order of the list plays no part. -/

namespace ScopeWords

open ScopeBytes

variable {n v : Nat} {mem : Memory}

/-- The ranges of `n` bytes at `a` and at `b` have no byte in common. -/
def Apart (n a b : Nat) : Prop := a + n ≤ b ∨ b + n ≤ a

theorem Apart.symm {a b : Nat} (h : Apart n a b) : Apart n b a := Or.symm h

/-- Add `v` to the word of `n` bytes at `off`. -/
def bump (n v : Nat) (mem : Memory) (off : Nat) : Memory :=
  store mem off (leBytes n (word mem off n + v))

theorem bump_outside {off i : Nat} (h : i < off ∨ off + n ≤ i) :
    bump n v mem off i = mem i :=
  store_outside (by rwa [leBytes_length])

theorem word_bump_self (n v : Nat) (mem : Memory) (off : Nat) :
    word (bump n v mem off) off n = (word mem off n + v) % 256 ^ n :=
  word_store_self mem off n _

theorem word_bump_disjoint {off off' n' : Nat} (h : off' + n' ≤ off ∨ off + n ≤ off') :
    word (bump n v mem off) off' n' = word mem off' n' :=
  word_store_disjoint (by rwa [leBytes_length])

/-- Add `v` to the words at all of `offs`, one after the other. -/
def bumpAll (n v : Nat) (mem : Memory) (offs : List Nat) : Memory :=
  offs.foldl (bump n v) mem

theorem bumpAll_append (mem : Memory) (xs ys : List Nat) :
    bumpAll n v mem (xs ++ ys) = bumpAll n v (bumpAll n v mem xs) ys :=
  List.foldl_append

theorem bumpAll_snoc (mem : Memory) (xs : List Nat) (off : Nat) :
    bumpAll n v mem (xs ++ [off]) = bump n v (bumpAll n v mem xs) off :=
  bumpAll_append mem xs [off]

/-- A byte in none of the words keeps its value. -/
theorem bumpAll_outside {offs : List Nat} {i : Nat}
    (h : ∀ off ∈ offs, i < off ∨ off + n ≤ i) : bumpAll n v mem offs i = mem i := by
  induction offs generalizing mem with
  | nil => rfl
  | cons off offs ih =>
      have hrest := @ih (bump n v mem off) fun x hx => h x (List.mem_cons_of_mem _ hx)
      exact hrest.trans (bump_outside (h off List.mem_cons_self))

/-- A word apart from all of them keeps its value. -/
theorem word_bumpAll_disjoint {offs : List Nat} {off' n' : Nat}
    (h : ∀ off ∈ offs, off' + n' ≤ off ∨ off + n ≤ off') :
    word (bumpAll n v mem offs) off' n' = word mem off' n' :=
  word_congr fun i h1 h2 => bumpAll_outside fun off hoff => by
    have := h off hoff
    omega

/-- **EACH WORD ONCE**: among words that lie apart, each is increased by `v`. -/
theorem word_bumpAll {offs : List Nat} (hapart : offs.Pairwise (Apart n)) {off : Nat}
    (hoff : off ∈ offs) :
    word (bumpAll n v mem offs) off n = (word mem off n + v) % 256 ^ n := by
  induction offs generalizing mem with
  | nil => cases hoff
  | cons x offs ih =>
      obtain ⟨hx, hrest⟩ := List.pairwise_cons.mp hapart
      rcases List.mem_cons.mp hoff with rfl | hmem
      · have hlater : word (bumpAll n v (bump n v mem off) offs) off n
            = word (bump n v mem off) off n :=
          word_bumpAll_disjoint fun y hy => hx y hy
        exact hlater.trans (word_bump_self n v mem off)
      · have hlater := @ih (bump n v mem x) hrest hmem
        rw [word_bump_disjoint (hx off hmem).symm] at hlater
        exact hlater

/-- A memory of zeros with some words stored: offset, width and value. -/
def wordsAt (words : List (Nat × Nat × Nat)) : Memory :=
  words.foldl (fun mem w => store mem w.1 (leBytes w.2.1 w.2.2)) fun _ => 0

end ScopeWords
