import Mathlib.Logic.Function.Basic
import Mathlib.Data.List.Induction

/-! # History — a table and the log it was built from

    The entries of a log open keys and close keys.  A table is built from the
    log one entry after the other: an opening gives its key a value, a close
    takes it away.  The value of an opening may be joined onto the value of
    another key, as the table has it at that moment.

    The table is compared with the log itself.  `Live` is the last opening of
    a key, if nothing closed the key since, and `Resolves` follows the bases
    of the openings back through the log.  The table holds exactly the
    resolved values of the live openings (`tableOf_eq_some`). -/

namespace ScopeHistory

/-- What an entry of the log says. -/
structure Reading (ε κ ν : Type) where
  opens : ε → Option κ
  closes : ε → Option κ
  /-- The key the value of an opening is joined onto. -/
  base : ε → Option κ
  own : ε → ν
  join : ν → ν → ν

section Reading

variable {ε κ ν : Type} (R : Reading ε κ ν)

/-! ## The table -/

/-- The value of an opening, over the table at that moment. -/
def Reading.valueIn (m : κ → Option ν) (x : ε) : ν :=
  match (R.base x).bind m with
  | some b => R.join b (R.own x)
  | none => R.own x

def Reading.openIn [DecidableEq κ] (m : κ → Option ν) (x : ε) : κ → Option ν :=
  match R.opens x with
  | some k => Function.update m k (some (R.valueIn m x))
  | none => m

def Reading.closeIn [DecidableEq κ] (m : κ → Option ν) (x : ε) : κ → Option ν :=
  match R.closes x with
  | some k => Function.update m k none
  | none => m

/-- One entry: it opens before it closes. -/
def Reading.step [DecidableEq κ] (m : κ → Option ν) (x : ε) : κ → Option ν :=
  R.closeIn (R.openIn m x) x

def Reading.tableOf [DecidableEq κ] (log : List ε) : κ → Option ν :=
  log.foldl R.step fun _ => none

variable {R}

theorem Reading.valueIn_some {m : κ → Option ν} {x : ε} {b : ν}
    (h : (R.base x).bind m = some b) : R.valueIn m x = R.join b (R.own x) := by
  rw [valueIn, h]

theorem Reading.valueIn_none {m : κ → Option ν} {x : ε} (h : (R.base x).bind m = none) :
    R.valueIn m x = R.own x := by
  rw [valueIn, h]

theorem Reading.openIn_some [DecidableEq κ] {m : κ → Option ν} {x : ε} {k : κ}
    (h : R.opens x = some k) : R.openIn m x = Function.update m k (some (R.valueIn m x)) := by
  rw [openIn, h]

theorem Reading.openIn_none [DecidableEq κ] {m : κ → Option ν} {x : ε}
    (h : R.opens x = none) : R.openIn m x = m := by
  rw [openIn, h]

theorem Reading.closeIn_some [DecidableEq κ] {m : κ → Option ν} {x : ε} {k : κ}
    (h : R.closes x = some k) : R.closeIn m x = Function.update m k none := by
  rw [closeIn, h]

theorem Reading.closeIn_none [DecidableEq κ] {m : κ → Option ν} {x : ε}
    (h : R.closes x = none) : R.closeIn m x = m := by
  rw [closeIn, h]

/-- Two readings with one base, over related tables, give related values. -/
theorem Reading.valueIn_rel {ε' ν' : Type} {R' : Reading ε' κ ν'} {V : ν → ν' → Prop}
    {m : κ → Option ν} {m' : κ → Option ν'} {x : ε} {x' : ε'} (hbase : R.base x = R'.base x')
    (htable : ∀ k, Option.Rel V (m k) (m' k)) (hown : V (R.own x) (R'.own x'))
    (hjoin : ∀ b b', V b b' → V (R.join b (R.own x)) (R'.join b' (R'.own x'))) :
    V (R.valueIn m x) (R'.valueIn m' x') := by
  have hrel : Option.Rel V ((R.base x).bind m) ((R'.base x').bind m') := by
    rw [hbase]
    cases R'.base x' with
    | none => exact .none
    | some k => exact htable k
  rw [valueIn, valueIn]
  generalize (R.base x).bind m = b at hrel
  generalize (R'.base x').bind m' = b' at hrel
  cases hrel with
  | none => exact hown
  | some hb => exact hjoin _ _ hb

variable (R)

/-! ## The log -/

/-- The entry `o` behind `past` is the last opening of the key, and neither it
    nor a later entry closes the key. -/
def Reading.Live (log : List ε) (k : κ) (past : List ε) (o : ε) : Prop :=
  ∃ since, log = past ++ o :: since ∧ R.opens o = some k ∧
    (∀ x ∈ since, R.opens x ≠ some k) ∧ ∀ x ∈ o :: since, R.closes x ≠ some k

/-- The value of the entry `o` behind `past`: its own, joined onto the value of
    the live opening of its base. -/
inductive Reading.Resolves : List ε → ε → ν → Prop where
  | own {past : List ε} {o : ε}
      (h : ∀ k past' o', R.base o = some k → ¬ R.Live past k past' o') :
      Resolves past o (R.own o)
  | joined {past past' : List ε} {o o' : ε} {k : κ} {b : ν} (hbase : R.base o = some k)
      (hlive : R.Live past k past' o') (h : Resolves past' o' b) :
      Resolves past o (R.join b (R.own o))

/-! ## The table against the log -/

variable {R}

theorem Reading.Live.length_lt {log past : List ε} {k : κ} {o : ε}
    (h : R.Live log k past o) : past.length < log.length := by
  obtain ⟨since, rfl, -⟩ := h
  rw [List.length_append, List.length_cons]
  exact Nat.lt_add_of_pos_right (Nat.succ_pos _)

theorem Reading.not_live_nil {k : κ} {past : List ε} {o : ε} : ¬ R.Live [] k past o :=
  fun h => Nat.not_lt_zero _ h.length_lt

/-- What the last entry of a log changes about the live openings. -/
theorem Reading.live_snoc {log past : List ε} {x o : ε} {k : κ} :
    R.Live (log ++ [x]) k past o ↔ R.closes x ≠ some k ∧
      ((R.opens x = some k ∧ past = log ∧ o = x) ∨
        (R.opens x ≠ some k ∧ R.Live log k past o)) := by
  constructor
  · rintro ⟨since, heq, hopen, hsince, hclose⟩
    rcases since.eq_nil_or_concat with rfl | ⟨since, y, hconcat⟩
    · obtain ⟨rfl, hx⟩ := List.append_inj' heq rfl
      cases hx
      exact ⟨hclose x List.mem_cons_self, Or.inl ⟨hopen, rfl, rfl⟩⟩
    · rw [List.concat_eq_append] at hconcat
      subst hconcat
      have heq' : log ++ [x] = (past ++ o :: since) ++ [y] := by
        rw [heq, List.append_assoc, List.cons_append]
      obtain ⟨rfl, hx⟩ := List.append_inj' heq' rfl
      cases hx
      have hmem : x ∈ since ++ [x] := List.mem_append_right _ List.mem_cons_self
      refine ⟨hclose x (List.mem_cons_of_mem _ hmem), Or.inr ⟨hsince x hmem, since, rfl,
        hopen, fun y hy => hsince y (List.mem_append_left _ hy), fun y hy => ?_⟩⟩
      rcases List.mem_cons.mp hy with rfl | hy
      · exact hclose y List.mem_cons_self
      · exact hclose y (List.mem_cons_of_mem _ (List.mem_append_left _ hy))
  · rintro ⟨hx, ⟨hopen, rfl, rfl⟩ | ⟨hopen, since, rfl, ho, hsince, hclose⟩⟩
    · refine ⟨[], rfl, hopen, fun y hy => (List.not_mem_nil hy).elim, fun y hy => ?_⟩
      rw [List.mem_singleton.mp hy]
      exact hx
    · refine ⟨since ++ [x], by rw [List.append_assoc, List.cons_append], ho, ?_, ?_⟩
      · intro y hy
        rcases List.mem_append.mp hy with hy | hy
        · exact hsince y hy
        · rw [List.mem_singleton.mp hy]
          exact hopen
      · intro y hy
        rcases List.mem_cons.mp hy with rfl | hy
        · exact hclose y List.mem_cons_self
        rcases List.mem_append.mp hy with hy | hy
        · exact hclose y (List.mem_cons_of_mem _ hy)
        · rw [List.mem_singleton.mp hy]
          exact hx

/-- A key has at most one live opening. -/
theorem Reading.Live.unique {log past past' : List ε} {k : κ} {o o' : ε}
    (h : R.Live log k past o) (h' : R.Live log k past' o') : past = past' ∧ o = o' := by
  induction log using List.reverseRecOn with
  | nil => exact (not_live_nil h).elim
  | append_singleton log x ih =>
      obtain ⟨-, ⟨hopen, rfl, rfl⟩ | ⟨hopen, hlive⟩⟩ := live_snoc.mp h
      · obtain ⟨-, ⟨-, rfl, rfl⟩ | ⟨hopen', -⟩⟩ := live_snoc.mp h'
        · exact ⟨rfl, rfl⟩
        · exact absurd hopen hopen'
      · obtain ⟨-, ⟨hopen', -⟩ | ⟨-, hlive'⟩⟩ := live_snoc.mp h'
        · exact absurd hopen' hopen
        · exact ih hlive hlive'

variable [DecidableEq κ]

theorem Reading.tableOf_snoc (log : List ε) (x : ε) :
    R.tableOf (log ++ [x]) = R.step (R.tableOf log) x := by
  rw [tableOf, List.foldl_append]
  rfl

/-- The value of a key after one more entry. -/
theorem Reading.step_apply (m : κ → Option ν) (x : ε) (k : κ) :
    R.step m x k = if R.closes x = some k then none
      else if R.opens x = some k then some (R.valueIn m x) else m k := by
  have hopen : R.openIn m x k
      = if R.opens x = some k then some (R.valueIn m x) else m k := by
    cases ho : R.opens x with
    | none => rw [openIn_none ho, if_neg nofun]
    | some k' =>
        rw [openIn_some ho]
        by_cases hk : k' = k
        · rw [hk, if_pos rfl]
          exact Function.update_self ..
        · rw [if_neg (fun heq => hk (Option.some.inj heq))]
          exact Function.update_of_ne (Ne.symm hk) ..
  rw [step, ← hopen]
  cases hc : R.closes x with
  | none => rw [closeIn_none hc, if_neg nofun]
  | some k' =>
      rw [closeIn_some hc]
      by_cases hk : k' = k
      · rw [hk, if_pos rfl]
        exact Function.update_self ..
      · rw [if_neg (fun heq => hk (Option.some.inj heq))]
        exact Function.update_of_ne (Ne.symm hk) ..

/-- A key has a value when it has a live opening: the value that opening got. -/
theorem Reading.tableOf_iff_live {log : List ε} {k : κ} {v : ν} :
    R.tableOf log k = some v ↔
      ∃ past o, R.Live log k past o ∧ v = R.valueIn (R.tableOf past) o := by
  induction log using List.reverseRecOn with
  | nil =>
      constructor
      · intro h
        cases h
      · rintro ⟨past, o, hlive, -⟩
        exact (not_live_nil hlive).elim
  | append_singleton log x ih =>
      rw [tableOf_snoc, step_apply]
      constructor
      · intro h
        split at h
        · cases h
        · rename_i hclose
          split at h
          · rename_i hopen
            exact ⟨log, x, live_snoc.mpr ⟨hclose, Or.inl ⟨hopen, rfl, rfl⟩⟩,
              (Option.some.inj h).symm⟩
          · rename_i hopen
            obtain ⟨past, o, hlive, hv⟩ := ih.mp h
            exact ⟨past, o, live_snoc.mpr ⟨hclose, Or.inr ⟨hopen, hlive⟩⟩, hv⟩
      · rintro ⟨past, o, hlive, rfl⟩
        obtain ⟨hclose, ⟨hopen, rfl, rfl⟩ | ⟨hopen, hlive⟩⟩ := live_snoc.mp hlive
        · rw [if_neg hclose, if_pos hopen]
        · rw [if_neg hclose, if_neg hopen]
          exact ih.mpr ⟨past, o, hlive, rfl⟩

/-- Following the bases back through the log gives the value that the table
    gave the opening. -/
theorem Reading.resolves_iff {past : List ε} {o : ε} {v : ν} :
    R.Resolves past o v ↔ v = R.valueIn (R.tableOf past) o := by
  constructor
  · intro h
    induction h with
    | @own past o h =>
        have hnone : (R.base o).bind (R.tableOf past) = none := by
          cases hbase : R.base o with
          | none => rfl
          | some k =>
              rw [Option.bind_some, Option.eq_none_iff_forall_not_mem]
              intro v hv
              obtain ⟨past', o', hlive, -⟩ := tableOf_iff_live.mp hv
              exact h k past' o' hbase hlive
        rw [valueIn_none hnone]
    | @joined past past' o o' k b hbase hlive _ ih =>
        have hsome : (R.base o).bind (R.tableOf past) = some b := by
          rw [hbase, Option.bind_some]
          exact tableOf_iff_live.mpr ⟨past', o', hlive, ih⟩
        rw [valueIn_some hsome]
  · rintro rfl
    -- the base of an opening lies in the past of that opening
    induction hn : past.length using Nat.strongRecOn generalizing past o with
    | ind n ih =>
        subst hn
        cases hbase : (R.base o).bind (R.tableOf past) with
        | none =>
            rw [valueIn_none hbase]
            refine .own fun k past' o' hk hlive => ?_
            rw [hk, Option.bind_some] at hbase
            rw [tableOf_iff_live.mpr ⟨past', o', hlive, rfl⟩] at hbase
            cases hbase
        | some b =>
            rw [valueIn_some hbase]
            obtain ⟨k, hk, hb⟩ := Option.bind_eq_some_iff.mp hbase
            obtain ⟨past', o', hlive, rfl⟩ := tableOf_iff_live.mp hb
            exact .joined hk hlive (ih _ hlive.length_lt rfl)

/-- **TABLE AND LOG**: the table holds the resolved values of the live
    openings. -/
theorem Reading.tableOf_eq_some {log : List ε} {k : κ} {v : ν} :
    R.tableOf log k = some v ↔ ∃ past o, R.Live log k past o ∧ R.Resolves past o v := by
  rw [tableOf_iff_live]
  exact exists_congr fun past => exists_congr fun o => and_congr_right fun _ =>
    resolves_iff.symm

end Reading

end ScopeHistory
