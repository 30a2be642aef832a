import ApiScope.ChainWalkProofs
import ApiScope.ModuleEventsProofs

/-! # Forwarders — where an export is resolved to

    `ResolveExportAddress` follows the forwarders of an export from module to
    module: to an address, to a module that is not loaded, or to an end that
    it refuses.  It is a chain walk over at most eight exports, the keys of
    its visited set being the texts `module!export`.

    These texts do not always tell two exports apart, since both parts may
    contain the separator.  The walk is exact on every chain whose exports
    have different texts, and takes the others for a loop
    (`forwarders_followed`). -/

namespace ScopeForwarders

open ScopeBytes ScopeProtocol ScopeHook ScopeDebug ScopeModules ScopeChain

/-! ## Forwarder texts -/

/-- The text behind the last dot. -/
theorem reverse_takeWhile_dot {before after : List UInt8} (h : 46 ∉ after) :
    ((before ++ 46 :: after).reverse.takeWhile (· ≠ 46)).reverse = after := by
  have hall : ∀ c ∈ after.reverse, decide (c ≠ 46) = true := by
    intro c hc
    refine decide_eq_true ?_
    rintro rfl
    exact h (List.mem_reverse.mp hc)
  rw [List.reverse_append, List.reverse_cons, List.append_assoc,
    List.takeWhile_append_of_pos hall, List.singleton_append, List.takeWhile_cons,
    if_neg (by decide), List.append_nil, List.reverse_reverse]

/-- A forwarder names a module and an export: they are split at the last dot, are
    not empty, and the export is not an ordinal. -/
theorem splitForwarder_iff {forwarder moduleText exportText : List UInt8} :
    splitForwarder forwarder = some (moduleText, exportText) ↔
      forwarder = moduleText ++ 46 :: exportText ∧ 46 ∉ exportText ∧ moduleText ≠ [] ∧
        exportText ≠ [] ∧ exportText.head? ≠ some 35 := by
  have hsplit : ∀ {before after : List UInt8}, 46 ∉ after →
      splitForwarder (before ++ 46 :: after)
        = if before = [] ∨ after = [] ∨ after.head? = some 35 then none
          else some (before, after) := by
    intro before after hafter
    have hseparator : (before ++ 46 :: after).length - after.length - 1 = before.length := by
      rw [List.length_append, List.length_cons]
      omega
    have hdot : 46 ∈ before ++ 46 :: after := List.mem_append_right _ List.mem_cons_self
    rw [splitForwarder, reverse_takeWhile_dot hafter, hseparator, List.take_left]
    simp only [hdot, not_true_eq_false, false_or, List.length_eq_zero_iff]
  constructor
  · intro h
    by_cases hdot : 46 ∈ forwarder
    · obtain ⟨after, before, heq, hafter⟩ :=
        List.eq_append_cons_of_mem (List.mem_reverse.mpr hdot)
      have hforwarder : forwarder = before.reverse ++ 46 :: after.reverse := by
        rw [← List.reverse_reverse forwarder, heq, List.reverse_append, List.reverse_cons,
          List.append_assoc]
        rfl
      have hnot : 46 ∉ after.reverse := fun hmem => hafter (List.mem_reverse.mp hmem)
      rw [hforwarder, hsplit hnot] at h
      split at h
      · cases h
      · rename_i hgood
        cases h
        obtain ⟨h1, h2⟩ := not_or.mp hgood
        obtain ⟨h2, h3⟩ := not_or.mp h2
        exact ⟨hforwarder, hnot, h1, h2, h3⟩
    · rw [splitForwarder, if_pos (Or.inl hdot)] at h
      cases h
  · rintro ⟨rfl, hdot, hmodule, hexport, hordinal⟩
    rw [hsplit hdot, if_neg]
    rintro (h | h | h)
    · exact hmodule h
    · exact hexport h
    · exact hordinal h

/-- No loaded module of the name is newer than the one `FindModule` returns. -/
theorem findModule_newest {modules : List ModuleRecord} {name : List UInt8}
    {m : ModuleRecord} (h : findModule modules name = some m) :
    ∀ m' ∈ modules, m'.name = name → m'.generation ≤ m.generation := by
  have hfold : ∀ (rest : List ModuleRecord) (newest : Option ModuleRecord),
      rest.foldl (newer name) newest = some m →
      (∀ m' ∈ newest, m'.generation ≤ m.generation) ∧
        ∀ m' ∈ rest, m'.name = name → m'.generation ≤ m.generation := by
    intro rest
    -- the fold keeps the newest seen so far; a later equal generation never replaces it
    induction rest with
    | nil =>
        rintro newest rfl
        exact ⟨fun m' hm' => (Option.mem_some.mp hm') ▸ Nat.le_refl _, nofun⟩
    | cons r rest ih =>
        intro newest hfold
        obtain ⟨hnewest, hrest⟩ := ih _ hfold
        by_cases htaken : r.name = name ∧ newest.all (·.generation < r.generation)
        · rw [newer, if_pos htaken] at hnewest
          have hr := hnewest r (Option.mem_some.mpr rfl)
          refine ⟨fun m' hm' => ?_, List.forall_mem_cons.mpr ⟨fun _ => hr, hrest⟩⟩
          rw [Option.mem_def.mp hm'] at htaken
          exact Nat.le_trans (Nat.le_of_lt (of_decide_eq_true htaken.2)) hr
        · rw [newer, if_neg htaken] at hnewest
          refine ⟨hnewest, List.forall_mem_cons.mpr ⟨fun hname => ?_, hrest⟩⟩
          cases hcase : newest with
          | none =>
              rw [hcase] at htaken
              exact absurd ⟨hname, rfl⟩ htaken
          | some m' =>
              rw [hcase] at htaken hnewest
              have hle : r.generation ≤ m'.generation :=
                Nat.not_lt.mp fun hlt => htaken ⟨hname, decide_eq_true hlt⟩
              exact Nat.le_trans hle (hnewest m' (Option.mem_some.mpr rfl))
  exact (hfold modules none h).2

/-! ## The chain of an export -/

/-- A module, by the name it is looked up with, and one of its exports. -/
abbrev Export := List UInt8 × List UInt8

/-- The text of an export: `normalizedModule + "!" + exportName`. -/
def identityOf (x : Export) : List UInt8 := x.1 ++ cstr "!" ++ x.2

/-- Where an export leads: to its address and the base of its module, to nothing
    while its module is not loaded, or to the export it is forwarded to. -/
def nextExport (env : Environment) (modules : List ModuleRecord) (x : Export) :
    Next Export (Option (Nat × Nat)) :=
  match findModule modules x.1 with
  | none => .stop none
  | some m =>
      match env.getRemoteExport m.base x.2 with
      | none => .fail
      | some remoteExport =>
          if remoteExport.address ≠ 0 then .stop (some (remoteExport.address, m.base))
          else
            match splitForwarder remoteExport.forwarder with
            | none => .fail
            | some (moduleText, exportText) => .hop (lookupName moduleText, exportText)

/-- The result of a walk. -/
def resultOf : Option (Option (Nat × Nat)) → ResolveResult
  | none => .error
  | some none => .pending
  | some (some (address, base)) => .resolved address base

section Resolution

variable {env : Environment} {modules : List ModuleRecord}

/-- A hop is a forwarder with a name, in the newest module of the name. -/
theorem nextExport_hop {x y : Export} : nextExport env modules x = .hop y ↔
    ∃ m remoteExport moduleText, findModule modules x.1 = some m ∧
      env.getRemoteExport m.base x.2 = some remoteExport ∧ remoteExport.address = 0 ∧
      (remoteExport.forwarder = moduleText ++ 46 :: y.2 ∧ 46 ∉ y.2 ∧ moduleText ≠ [] ∧
        y.2 ≠ [] ∧ y.2.head? ≠ some 35) ∧
      y.1 = lookupName moduleText := by
  rw [nextExport]
  cases hfind : findModule modules x.1 with
  | none =>
      refine ⟨(fun h => nomatch h), ?_⟩
      rintro ⟨_, _, _, hm, -⟩
      cases hm
  | some m =>
      dsimp only
      cases hexport : env.getRemoteExport m.base x.2 with
      | none =>
          refine ⟨(fun h => nomatch h), ?_⟩
          rintro ⟨m', _, _, hm, he, -⟩
          cases hm
          cases hexport.symm.trans he
      | some remoteExport =>
          dsimp only
          by_cases haddress : remoteExport.address ≠ 0
          · rw [if_pos haddress]
            refine ⟨(fun h => nomatch h), ?_⟩
            rintro ⟨m', e', _, hm, he, hzero, -⟩
            cases hm
            cases hexport.symm.trans he
            exact absurd hzero haddress
          -- no address: what follows depends on the text of the forwarder
          · rw [if_neg haddress]
            constructor
            · intro h
              cases hsplit : splitForwarder remoteExport.forwarder with
              | none =>
                  rw [hsplit] at h
                  cases h
              | some parts =>
                  rw [hsplit] at h
                  cases h
                  exact ⟨m, remoteExport, parts.1, rfl, hexport, Classical.not_not.mp haddress,
                    splitForwarder_iff.mp hsplit, rfl⟩
            · rintro ⟨m', e', moduleText, hm, he, -, htext, hname⟩
              cases hm
              cases hexport.symm.trans he
              rw [splitForwarder_iff.mpr htext]
              exact congrArg Next.hop (Prod.ext hname.symm rfl)

/-- `ResolveExportAddress` is the walk along the forwarders. -/
theorem resolveExportAddress_eq_walk (hops : Nat) (visited : List (List UInt8))
    (moduleName exportName : List UInt8) :
    resolveExportAddress env modules hops visited moduleName exportName
      = resultOf (walk (nextExport env modules) identityOf hops visited
          (lookupName moduleName, exportName)) := by
  induction hops generalizing visited moduleName exportName with
  | zero => rfl
  -- both test the text first, then look for the module and its export
  | succ hops ih =>
      rw [resolveExportAddress, walk]
      have hidentity : identityOf (lookupName moduleName, exportName)
          = lookupName moduleName ++ cstr "!" ++ exportName := rfl
      rw [hidentity]
      by_cases hmet : lookupName moduleName ++ cstr "!" ++ exportName ∈ visited
      · rw [if_pos hmet, if_pos hmet]
        rfl
      · rw [if_neg hmet, if_neg hmet, nextExport]
        dsimp only
        cases findModule modules (lookupName moduleName) with
        | none => rfl
        | some m =>
            dsimp only
            cases env.getRemoteExport m.base exportName with
            | none => rfl
            | some remoteExport =>
                dsimp only
                by_cases haddress : remoteExport.address ≠ 0
                · rw [if_pos haddress, if_pos haddress]
                  rfl
                · rw [if_neg haddress, if_neg haddress]
                  cases splitForwarder remoteExport.forwarder with
                  | none => rfl
                  | some parts => exact ih _ _ _

/-- The chain of an export, and what it ends in. -/
def Leads (env : Environment) (modules : List ModuleRecord) (moduleName exportName : List UInt8)
    (path : List Export) (answer : Option (Nat × Nat)) : Prop :=
  Follows (nextExport env modules) (lookupName moduleName, exportName) path answer

/-- Resolved, Pending or Error as the chain tells: within seven hops, which are
    eight exports. -/
structure ResolvesExactly (env : Environment) (modules : List ModuleRecord)
    (moduleName exportName : List UInt8) : Prop where
  resolved : ∀ address base,
    resolveExportAddress env modules 8 [] moduleName exportName = .resolved address base ↔
      ∃ path, Leads env modules moduleName exportName path (some (address, base)) ∧
        path.length ≤ 8
  pending : resolveExportAddress env modules 8 [] moduleName exportName = .pending ↔
    ∃ path, Leads env modules moduleName exportName path none ∧ path.length ≤ 8
  error : resolveExportAddress env modules 8 [] moduleName exportName = .error ↔
    ¬ ∃ path answer, Leads env modules moduleName exportName path answer ∧ path.length ≤ 8

theorem resultOf_inj {a b : Option (Option (Nat × Nat))} (h : resultOf a = resultOf b) :
    a = b := by
  rcases a with _ | _ | ⟨_, _⟩ <;> rcases b with _ | _ | ⟨_, _⟩ <;> cases h <;> rfl

/-- **FORWARDERS ARE FOLLOWED** exactly when no two exports of a chain that ends
    within seven hops have one text. -/
theorem forwarders_followed (env : Environment) (modules : List ModuleRecord)
    (moduleName exportName : List UInt8) :
    ResolvesExactly env modules moduleName exportName ↔
      ∀ path answer, Leads env modules moduleName exportName path answer →
        path.length ≤ 8 → ∀ x ∈ path, ∀ y ∈ path, identityOf x = identityOf y → x = y := by
  have hresult : ∀ a, resolveExportAddress env modules 8 [] moduleName exportName = resultOf a ↔
      walk (nextExport env modules) identityOf 8 [] (lookupName moduleName, exportName) = a := by
    intro a
    rw [resolveExportAddress_eq_walk]
    exact ⟨resultOf_inj, congrArg resultOf⟩
  refine Iff.trans ?_ walk_exact
  constructor
  · intro h answer
    rw [← hresult]
    rcases answer with _ | ⟨address, base⟩
    · exact h.pending
    · exact h.resolved address base
  · intro h
    refine ⟨fun address base => ?_, ?_, ?_⟩
    · exact (hresult (some (some (address, base)))).trans (h _)
    · exact (hresult (some none)).trans (h _)
    · refine (hresult none).trans ?_
      constructor
      · rintro hnone ⟨path, answer, hleads, hlength⟩
        cases hnone.symm.trans ((h answer).mpr ⟨path, hleads, hlength⟩)
      · intro hno
        cases hwalk : walk (nextExport env modules) identityOf 8 []
            (lookupName moduleName, exportName) with
        | none => rfl
        | some answer =>
            obtain ⟨path, hleads, hlength⟩ := (h answer).mp hwalk
            exact absurd ⟨path, answer, hleads, hlength⟩ hno

end Resolution

/-! ## Two exports with one text -/

/-- `k.dll!F` is forwarded to `a.dll`'s export `x!y`, and this to the export `y`
    of `a.dll!x`, which has an address. -/
def oneText : Nat → List UInt8 → Option RemoteExport := fun base name =>
  if base = 0x1000 ∧ name = cstr "F" then some ⟨0, cstr "a.x!y"⟩
  else if base = 0x2000 ∧ name = cstr "x!y" then some ⟨0, cstr "a.dll!x.y"⟩
  else if base = 0x3000 ∧ name = cstr "y" then some ⟨0x3010, []⟩
  else none

def oneTextModules : List ModuleRecord :=
  [⟨0x1000, [], cstr "k.dll", 1⟩, ⟨0x2000, [], cstr "a.dll", 2⟩, ⟨0x3000, [], cstr "a.dll!x", 3⟩]

/-- The third export has the text of the second, and is taken for a loop. -/
theorem forwarder_taken_for_loop :
    ¬ ResolvesExactly (Environment.cooperative oneText (fun _ => 0) ⟨0, 0⟩ ⟨0, 0⟩)
      oneTextModules (cstr "k.dll") (cstr "F") := by
  intro h
  have herror : resolveExportAddress
      (Environment.cooperative oneText (fun _ => 0) ⟨0, 0⟩ ⟨0, 0⟩) oneTextModules 8 []
      (cstr "k.dll") (cstr "F") = .error := by decide +kernel
  refine absurd ⟨[(cstr "k.dll", cstr "F"), (cstr "a.dll", cstr "x!y"),
    (cstr "a.dll!x", cstr "y")], some (0x3010, 0x3000), ?_, by decide⟩ (h.error.mp herror)
  exact .hop (by decide +kernel) (.hop (by decide +kernel) (.stop (by decide +kernel)))

end ScopeForwarders
