import Mathlib.Data.List.Nodup

/-! # Chain walks — following links, with a bound and a set of visited keys

    A node stops with an answer, fails, or links to another node.  `walk`
    follows the links for a bounded number of nodes and gives up at a key that
    it has met before.

    The chain itself is the relation `Follows`; it never meets a node twice.
    The walk finds what the chain ends in as long as the keys of its nodes are
    different, and misses it otherwise (`walk_exact`): a key that tells the
    nodes apart is all that a visited set needs. -/

namespace ScopeChain

/-- What a node leads to. -/
inductive Next (α ρ : Type) where
  | stop (answer : ρ)
  | hop (node : α)
  | fail
  deriving DecidableEq

variable {α ρ κ : Type}

/-- Follow the links from `x` over at most `n` nodes, none of whose keys is in
    `visited` or met twice. -/
def walk [DecidableEq κ] (next : α → Next α ρ) (key : α → κ) :
    (n : Nat) → (visited : List κ) → (x : α) → Option ρ
  | 0, _, _ => none
  | n + 1, visited, x =>
      if key x ∈ visited then none
      else
        match next x with
        | .stop answer => some answer
        | .hop y => walk next key n (key x :: visited) y
        | .fail => none

/-- The chain from `x`: its nodes, and the answer it stops with. -/
inductive Follows (next : α → Next α ρ) : α → List α → ρ → Prop where
  | stop {x : α} {answer : ρ} (h : next x = .stop answer) : Follows next x [x] answer
  | hop {x y : α} {path : List α} {answer : ρ} (h : next x = .hop y)
      (hy : Follows next y path answer) : Follows next x (x :: path) answer

section Chain

variable {next : α → Next α ρ}

/-- There is one chain from a node. -/
theorem Follows.unique {x : α} {path path' : List α} {answer answer' : ρ}
    (h : Follows next x path answer) (h' : Follows next x path' answer') :
    path = path' ∧ answer = answer' := by
  induction h generalizing path' answer' with
  | stop hx =>
      cases h' with
      | stop hx' =>
          cases hx.symm.trans hx'
          exact ⟨rfl, rfl⟩
      | hop hx' _ => cases hx.symm.trans hx'
  | hop hx _ ih =>
      cases h' with
      | stop hx' => cases hx.symm.trans hx'
      | hop hx' hy' =>
          cases hx.symm.trans hx'
          obtain ⟨rfl, rfl⟩ := ih hy'
          exact ⟨rfl, rfl⟩

/-- Every node of a chain starts the rest of it. -/
theorem Follows.rest {x : α} {path : List α} {answer : ρ} (h : Follows next x path answer)
    {y : α} (hy : y ∈ path) : ∃ rest, Follows next y rest answer ∧ rest <:+ path := by
  induction h with
  | stop hx =>
      rw [List.mem_singleton.mp hy]
      exact ⟨_, .stop hx, List.suffix_refl _⟩
  | hop hx hfollows ih =>
      rcases List.mem_cons.mp hy with rfl | hmem
      · exact ⟨_, .hop hx hfollows, List.suffix_refl _⟩
      · obtain ⟨rest, hrest, hsuffix⟩ := ih hmem
        exact ⟨rest, hrest, hsuffix.trans (List.suffix_cons _ _)⟩

/-- A chain meets no node twice: the rest of it would be as long as itself. -/
theorem Follows.nodup {x : α} {path : List α} {answer : ρ} (h : Follows next x path answer) :
    path.Nodup := by
  induction h with
  | stop _ => exact List.nodup_singleton _
  | hop hx hfollows ih =>
      refine List.nodup_cons.mpr ⟨fun hmem => ?_, ih⟩
      obtain ⟨rest, hrest, hsuffix⟩ := hfollows.rest hmem
      obtain ⟨rfl, -⟩ := hrest.unique (.hop hx hfollows)
      have hlength := hsuffix.length_le
      rw [List.length_cons] at hlength
      omega

variable [DecidableEq κ] {key : α → κ}

/-- **WHAT A WALK FINDS**: a chain short enough whose keys are new and
    different. -/
theorem walk_eq_some {n : Nat} {visited : List κ} {x : α} {answer : ρ} :
    walk next key n visited x = some answer ↔
      ∃ path, Follows next x path answer ∧ path.length ≤ n ∧ (path.map key).Nodup ∧
        ∀ y ∈ path, key y ∉ visited := by
  induction n generalizing visited x with
  | zero =>
      refine ⟨(fun h => nomatch h), ?_⟩
      rintro ⟨path, hfollows, hlength, -⟩
      cases hfollows <;> exact absurd hlength (Nat.not_succ_le_zero _)
  | succ n ih =>
      rw [walk]
      by_cases hmet : key x ∈ visited
      · rw [if_pos hmet]
        refine ⟨(fun h => nomatch h), ?_⟩
        rintro ⟨path, hfollows, -, -, hnew⟩
        have hx : x ∈ path := by
          cases hfollows <;> exact List.mem_cons_self
        exact absurd hmet (hnew x hx)
      · rw [if_neg hmet]
        cases hnext : next x with
        | stop answer' =>
            constructor
            · intro h
              cases h
              refine ⟨[x], .stop hnext, Nat.succ_le_succ (Nat.zero_le n),
                List.nodup_singleton _, fun y hy => ?_⟩
              rwa [List.mem_singleton.mp hy]
            · rintro ⟨path, hfollows, -⟩
              exact congrArg some (hfollows.unique (.stop hnext)).2.symm
        | fail =>
            refine ⟨(fun h => nomatch h), ?_⟩
            rintro ⟨path, hfollows, -⟩
            cases hfollows with
            | stop hx => cases hnext.symm.trans hx
            | hop hx _ => cases hnext.symm.trans hx
        | hop y =>
            refine ih.trans ⟨?_, ?_⟩
            -- the key of x was visited when the rest was walked, so none of its nodes has it
            · rintro ⟨path, hfollows, hlength, hnodup, hnew⟩
              refine ⟨x :: path, .hop hnext hfollows, Nat.succ_le_succ hlength, ?_, ?_⟩
              · refine List.nodup_cons.mpr ⟨fun hmem => ?_, hnodup⟩
                obtain ⟨z, hz, heq⟩ := List.mem_map.mp hmem
                exact hnew z hz (heq ▸ List.mem_cons_self)
              · intro z hz
                rcases List.mem_cons.mp hz with rfl | hrest
                · exact hmet
                · exact fun hmem => hnew z hrest (List.mem_cons_of_mem _ hmem)
            · rintro ⟨path, hfollows, hlength, hnodup, hnew⟩
              cases hfollows with
              | stop hx => cases hnext.symm.trans hx
              | hop hx hy =>
                  cases hnext.symm.trans hx
                  obtain ⟨hfirst, hrest⟩ := List.nodup_cons.mp hnodup
                  refine ⟨_, hy, Nat.le_of_succ_le_succ hlength, hrest, fun z hz hmem => ?_⟩
                  rcases List.mem_cons.mp hmem with heq | hold
                  · exact hfirst (List.mem_map.mpr ⟨z, hz, heq⟩)
                  · exact hnew z (List.mem_cons_of_mem _ hz) hold

/-- **EXACTLY**: the walk finds the end of every short chain when the keys tell
    the nodes of the chain apart, and only then. -/
theorem walk_exact {n : Nat} {x : α} :
    (∀ answer, walk next key n [] x = some answer ↔
        ∃ path, Follows next x path answer ∧ path.length ≤ n) ↔
      ∀ path answer, Follows next x path answer → path.length ≤ n →
        ∀ y ∈ path, ∀ z ∈ path, key y = key z → y = z := by
  constructor
  · intro h path answer hfollows hlength y hy z hz heq
    obtain ⟨path', hfollows', -, hnodup, -⟩ :=
      walk_eq_some.mp ((h answer).mpr ⟨path, hfollows, hlength⟩)
    obtain ⟨rfl, -⟩ := hfollows.unique hfollows'
    exact List.inj_on_of_nodup_map hnodup hy hz heq
  · intro h answer
    rw [walk_eq_some]
    constructor
    · rintro ⟨path, hfollows, hlength, -⟩
      exact ⟨path, hfollows, hlength⟩
    · rintro ⟨path, hfollows, hlength⟩
      refine ⟨path, hfollows, hlength, ?_, fun _ _ => List.not_mem_nil⟩
      exact hfollows.nodup.map_on fun y hy z hz heq =>
        h path answer hfollows hlength y hy z hz heq

end Chain

end ScopeChain
