import Mathlib.Data.List.Perm.Basic
import Mathlib.Data.List.Sort

/-! # Collections — all that is declared, in the order of the keys

    A registry is collected from a list of declarations: each of them is read,
    and none may have the key of one before it.  One that cannot be read, or
    has a key twice, spoils the whole collection.

    A collection succeeds exactly when every declaration can be read and the
    keys are distinct (`collect_ok_iff`), so the order of the declarations does
    not matter (`collect_perm`), and sorted by key the collection is always the
    same list (`sortOn_unique`). -/

namespace ScopeCollect

variable {ι β κ ε : Type}

/-! ## Collecting -/

section Collecting

variable [DecidableEq κ]

/-- Read the declarations; `seen` has the keys so far. -/
def collect (read : ι → Except ε β) (key : β → κ) (spoiled : ι → ε) :
    List κ → List ι → Except ε (List β)
  | _, [] => .ok []
  | seen, i :: is =>
      match read i with
      | .error e => .error e
      | .ok b =>
          if key b ∈ seen then .error (spoiled i)
          else
            match collect read key spoiled (key b :: seen) is with
            | .error e => .error e
            | .ok bs => .ok (b :: bs)

variable {read : ι → Except ε β} {key : β → κ} {spoiled : ι → ε}

theorem collect_cons_ok {seen : List κ} {i : ι} {is : List ι} {bs : List β} :
    collect read key spoiled seen (i :: is) = .ok bs ↔
      ∃ b rest, bs = b :: rest ∧ read i = .ok b ∧ key b ∉ seen ∧
        collect read key spoiled (key b :: seen) is = .ok rest := by
  rw [collect]
  constructor
  · intro h
    split at h
    next => cases h
    next b hb =>
      split at h
      next => cases h
      next hnew =>
        split at h
        next => cases h
        next rest hrest =>
          cases h
          exact ⟨b, rest, rfl, hb, hnew, hrest⟩
  · rintro ⟨b, rest, rfl, hb, hnew, hrest⟩
    simp only [hb, if_neg hnew, hrest]

/-- **ALL OR NOTHING**: a collection has every declaration, with distinct keys. -/
theorem collect_ok_iff {seen : List κ} {is : List ι} {bs : List β} :
    collect read key spoiled seen is = .ok bs ↔
      List.Forall₂ (fun i b => read i = .ok b) is bs ∧ (bs.map key).Nodup ∧
        ∀ b ∈ bs, key b ∉ seen := by
  induction is generalizing seen bs with
  | nil =>
      constructor
      · intro h
        cases h
        exact ⟨.nil, List.nodup_nil, fun b hb => absurd hb List.not_mem_nil⟩
      · rintro ⟨hread, -, -⟩
        cases hread
        rfl
  | cons i is ih =>
      rw [collect_cons_ok]
      constructor
      · rintro ⟨b, rest, rfl, hb, hnew, hrest⟩
        obtain ⟨hread, hnodup, hunseen⟩ := ih.mp hrest
        refine ⟨.cons hb hread, List.nodup_cons.mpr ⟨?_, hnodup⟩, ?_⟩
        · intro hmem
          obtain ⟨c, hc, hkey⟩ := List.mem_map.mp hmem
          exact hunseen c hc (hkey ▸ List.mem_cons_self)
        · intro c hc
          rcases List.mem_cons.mp hc with rfl | hc
          · exact hnew
          · exact fun hseen => hunseen c hc (List.mem_cons_of_mem _ hseen)
      · rintro ⟨hread, hnodup, hunseen⟩
        cases hread with
        | cons hb hread =>
            rename_i b rest
            obtain ⟨hfirst, hnodup⟩ := List.nodup_cons.mp hnodup
            refine ⟨b, rest, rfl, hb, hunseen b List.mem_cons_self, ih.mpr ⟨hread, hnodup, ?_⟩⟩
            intro c hc hseen
            rcases List.mem_cons.mp hseen with hkey | hseen
            · exact hfirst (hkey ▸ List.mem_map_of_mem hc)
            · exact hunseen c (List.mem_cons_of_mem _ hc) hseen

theorem collect_mem {seen : List κ} {is : List ι} {bs : List β}
    (h : collect read key spoiled seen is = .ok bs) :
    (∀ i ∈ is, ∃ b ∈ bs, read i = .ok b) ∧ ∀ b ∈ bs, ∃ i ∈ is, read i = .ok b := by
  induction is generalizing seen bs with
  | nil =>
      cases h
      exact ⟨fun i hi => absurd hi List.not_mem_nil, fun b hb => absurd hb List.not_mem_nil⟩
  | cons i is ih =>
      obtain ⟨b, rest, rfl, hb, -, hrest⟩ := collect_cons_ok.mp h
      obtain ⟨hitems, hdeclared⟩ := ih hrest
      constructor
      · intro j hj
        rcases List.mem_cons.mp hj with rfl | hj
        · exact ⟨b, List.mem_cons_self, hb⟩
        · obtain ⟨c, hc, hread⟩ := hitems j hj
          exact ⟨c, List.mem_cons_of_mem _ hc, hread⟩
      · intro c hc
        rcases List.mem_cons.mp hc with rfl | hc
        · exact ⟨i, List.mem_cons_self, hb⟩
        · obtain ⟨j, hj, hread⟩ := hdeclared c hc
          exact ⟨j, List.mem_cons_of_mem _ hj, hread⟩

/-- What spoils a collection is the first declaration that cannot be read or
    has a key that was there before. -/
theorem collect_error {seen : List κ} {is : List ι} {e : ε}
    (h : collect read key spoiled seen is = .error e) :
    ∃ before i after bs, is = before ++ i :: after ∧
      collect read key spoiled seen before = .ok bs ∧
      (read i = .error e ∨ ∃ b, read i = .ok b ∧ e = spoiled i ∧
        (key b ∈ seen ∨ key b ∈ bs.map key)) := by
  induction is generalizing seen with
  | nil => cases h
  | cons i is ih =>
      rw [collect] at h
      split at h
      next e' he =>
        cases h
        exact ⟨[], i, is, [], rfl, rfl, Or.inl he⟩
      next b hb =>
        split at h
        next hseen =>
          cases h
          exact ⟨[], i, is, [], rfl, rfl, Or.inr ⟨b, hb, rfl, Or.inl hseen⟩⟩
        next hnew =>
          split at h
          next e' hrest =>
            cases h
            obtain ⟨before, j, after, bs, rfl, hbefore, hj⟩ := ih hrest
            refine ⟨i :: before, j, after, b :: bs, rfl,
              collect_cons_ok.mpr ⟨b, bs, rfl, hb, hnew, hbefore⟩, hj.imp id ?_⟩
            rintro ⟨c, hc, he, hkey⟩
            refine ⟨c, hc, he, ?_⟩
            rw [List.map_cons, List.mem_cons]
            rcases hkey with hkey | hkey
            · exact (List.mem_cons.mp hkey).elim (fun heq => Or.inr (Or.inl heq)) Or.inl
            · exact Or.inr (Or.inr hkey)
          next => cases h

/-- **ORDER**: the declarations may come in any order. -/
theorem collect_perm {is js : List ι} {bs : List β} (hperm : is.Perm js)
    (h : collect read key spoiled [] is = .ok bs) :
    ∃ cs, collect read key spoiled [] js = .ok cs ∧ cs.Perm bs := by
  obtain ⟨hread, hnodup, -⟩ := collect_ok_iff.mp h
  obtain ⟨cs, hread', hcs⟩ := List.perm_comp_forall₂ hperm.symm hread
  refine ⟨cs, collect_ok_iff.mpr ⟨hread', ?_, fun c _ => List.not_mem_nil⟩, hcs⟩
  exact (hcs.map key).nodup_iff.mpr hnodup

end Collecting

/-! ## Sorting -/

section Sorting

variable {key : β → κ} {bs cs : List β}

/-- What increases is in one order only. -/
theorem increasing_unique [LE κ] [LT κ] [Std.LawfulOrderLT κ] (hperm : bs.Perm cs)
    (hbs : bs.Pairwise fun a b => key a < key b)
    (hcs : cs.Pairwise fun a b => key a < key b) : bs = cs := by
  refine List.Perm.eq_of_pairwise ?_ hbs hcs hperm
  intro a b _ _ hab hba
  exact absurd (Std.lt_iff_le_and_not_ge.mp hba).1 (Std.lt_iff_le_and_not_ge.mp hab).2

variable [LE κ] [DecidableLE κ]

/-- The items in the order of their keys. -/
def sortOn (key : β → κ) (bs : List β) : List β := bs.insertionSort fun a b => key a ≤ key b

theorem sortOn_perm (key : β → κ) (bs : List β) : (sortOn key bs).Perm bs :=
  List.perm_insertionSort _ bs

variable [Std.IsLinearOrder κ]

theorem sortOn_sorted (key : β → κ) (bs : List β) :
    (sortOn key bs).Pairwise fun a b => key a ≤ key b := by
  have htotal : Std.Total fun a b : β => key a ≤ key b := ⟨fun a b => Std.le_total⟩
  have htrans : IsTrans β fun a b => key a ≤ key b := ⟨fun a b c => Std.le_trans⟩
  exact List.pairwise_insertionSort _ bs

variable [LT κ] [Std.LawfulOrderLT κ]

/-- Distinct keys increase. -/
theorem sortOn_increasing (hnodup : (bs.map key).Nodup) :
    (sortOn key bs).Pairwise fun a b => key a < key b := by
  have hdistinct : (sortOn key bs).Pairwise fun a b => key a ≠ key b :=
    List.pairwise_map.mp (((sortOn_perm key bs).map key).nodup_iff.mpr hnodup)
  refine List.Pairwise.imp₂ ?_ (sortOn_sorted key bs) hdistinct
  intro a b hle hne
  exact Std.lt_iff_le_and_not_ge.mpr ⟨hle, fun hge => hne (Std.le_antisymm hle hge)⟩

theorem sortOn_unique (hperm : bs.Perm cs) (hnodup : (bs.map key).Nodup) :
    sortOn key bs = sortOn key cs := by
  have hsame : (sortOn key bs).Perm (sortOn key cs) :=
    (sortOn_perm key bs).trans (hperm.trans (sortOn_perm key cs).symm)
  exact increasing_unique hsame (sortOn_increasing hnodup)
    (sortOn_increasing ((hperm.map key).nodup_iff.mp hnodup))

end Sorting

/-- An item is found under its key. -/
theorem find?_key [DecidableEq κ] {key : β → κ} {bs : List β} {b : β}
    (hnodup : (bs.map key).Nodup) (hb : b ∈ bs) : bs.find? (fun c => key c = key b) = some b := by
  induction bs with
  | nil => cases hb
  | cons c bs ih =>
      obtain ⟨hfirst, hnodup⟩ := List.nodup_cons.mp hnodup
      rcases List.mem_cons.mp hb with rfl | hb
      · exact List.find?_cons_of_pos (decide_eq_true rfl)
      · have hne : key c ≠ key b := by
          intro heq
          exact hfirst (heq ▸ List.mem_map_of_mem hb)
        rw [List.find?_cons_of_neg (by simpa using hne)]
        exact ih hnodup hb

end ScopeCollect
