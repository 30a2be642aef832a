import ApiScope.HookRegistryProofs
import Mathlib.Data.List.Induction

/-! # The program — from the command line to a session

    `wmain` parses the command line twice: once without hooks, for `--help` and
    `--version`, and once with the hooks of the DLL.  What comes behind the
    second parse relies on the first: the branch of `run` reads the first
    argument of the target.

    The two parses agree, so a session is only started for a command line of the
    grammar, with hooks of the registry and no hook twice (`wmain_outcomes`), and
    every hook that is listed can be asked for by its name (`listed_hook_traced`). -/

namespace ScopeMain

open ScopeBytes ScopeProtocol ScopeHook ScopeDebug ScopeLoadOrder ScopeCliOptions ScopeRegistry

/-! ## `wmain` -/

/-- How `wmain` goes on, with what it prints. -/
inductive Outcome where
  | usage
  | version
  | listed (lines : List (List UInt8))
  | noHooks
  | failed (error : List UInt8)
  /-- `attach` with the id of the process itself. -/
  | refused
  /-- A `DebugSession` is run, or attached. -/
  | traced (options : CommandLineOptions)

def Outcome.isTraced : Outcome → Bool
  | .traced _ => true
  | _ => false

/-- `PrintSupportedHooks`. -/
def printSupportedHooks (hooks : List HookDefinition) : List (List UInt8) :=
  hooks.map HookDefinition.canonicalName

/-- `wmain` behind the hooks; nothing where `targetArguments[0]` is out of range. -/
def startSession (options : CommandLineOptions) (availableHooks : List HookDefinition)
    (currentProcessId : Nat) : Option Outcome :=
  if options.mode = .listHooks then
    some (if availableHooks = [] then .noHooks else .listed (printSupportedHooks availableHooks))
  else if options.mode = .error then some (.failed options.error)
  else if options.mode = .attach then
    some (if options.targetProcessId = currentProcessId then .refused else .traced options)
  else if options.targetArguments = [] then none
  else some (.traced options)

/-- `wmain`; `loaded` is what `LoadLibraryExW` gives for the hook DLL. -/
def wmain (argv : List (List UInt16)) (loaded : Except Nat HookModule)
    (currentProcessId : Nat) : Option Outcome :=
  let options := parseCommandLine argv []
  if options.mode = .help then some .usage
  else if options.mode = .version then some .version
  else
    match discoverHooks loaded with
    | none => none
    | some (availableHooks, _) =>
        startSession (parseCommandLine argv availableHooks) availableHooks currentProcessId

/-! ## The two parses -/

/-- A command line that begins with one of the commands. -/
def Command (argv : List (List UInt16)) : Prop :=
  ∃ program attach arguments, argv = program :: commandWord attach :: arguments

/-- Without a command the hooks do not matter. -/
theorem parse_other {argv : List (List UInt16)} (h : ¬Command argv)
    (available available' : List HookDefinition) :
    parseCommandLine argv available = parseCommandLine argv available' := by
  cases argv with
  | nil => rfl
  | cons program rest =>
      cases rest with
      | nil => rfl
      | cons command arguments =>
          have hcommand : ¬(command = wcstr "run" ∨ command = wcstr "attach") := by
            rintro (rfl | rfl)
            · exact h ⟨program, false, arguments, rfl⟩
            · exact h ⟨program, true, arguments, rfl⟩
          rw [parseCommandLine.eq_def, parseCommandLine.eq_def]
          dsimp only
          rw [if_neg hcommand, if_neg hcommand]

variable {available : List HookDefinition}

/-- A command is in the grammar, or an error. -/
theorem parse_command {argv : List (List UInt16)} (h : Command argv)
    (available : List HookDefinition) :
    (∃ attach groups targets hooks, Accepts available attach argv groups targets hooks ∧
      parseCommandLine argv available = acceptedOptions attach groups targets hooks) ∨
    Failed (parseCommandLine argv available) := by
  obtain ⟨program, attach, arguments, rfl⟩ := h
  rw [parseCommandLine_command]
  cases hparse : parseTraceCommand attach available arguments with
  | ok options =>
      obtain ⟨groups, targets, hooks, haccepts, rfl⟩ := (parseTraceCommand_iff program).mp hparse
      exact Or.inl ⟨attach, groups, targets, hooks, haccepts, rfl⟩
  | error options => exact Or.inr (parseTraceCommand_failed hparse)

theorem traceMode_ne (attach : Bool) : traceMode attach ≠ .help ∧ traceMode attach ≠ .version ∧
    traceMode attach ≠ .listHooks ∧ traceMode attach ≠ .error := by
  cases attach with
  | true => exact ⟨by decide, by decide, by decide, by decide⟩
  | false => exact ⟨by decide, by decide, by decide, by decide⟩

/-- A command asks neither for help nor for the version. -/
theorem command_mode {argv : List (List UInt16)} (h : Command argv)
    (available : List HookDefinition) :
    (parseCommandLine argv available).mode ≠ .help ∧
      (parseCommandLine argv available).mode ≠ .version := by
  rcases parse_command h available with ⟨attach, groups, targets, hooks, -, ho⟩ | hfailed
  · rw [ho]
    exact ⟨(traceMode_ne attach).1, (traceMode_ne attach).2.1⟩
  · rw [hfailed.1]
    exact ⟨by decide, by decide⟩

theorem other_command {argv : List (List UInt16)} (h : ¬Command argv) :
    ∀ program attach arguments, argv ≠ program :: commandWord attach :: arguments := by
  intro program attach arguments heq
  exact h ⟨program, attach, arguments, heq⟩

/-- After the first parse, the second one asks neither for help nor for the version. -/
theorem second_mode {argv : List (List UInt16)} (hhelp : (parseCommandLine argv []).mode ≠ .help)
    (hversion : (parseCommandLine argv []).mode ≠ .version) (available : List HookDefinition) :
    (parseCommandLine argv available).mode ≠ .help ∧
      (parseCommandLine argv available).mode ≠ .version := by
  by_cases hcommand : Command argv
  · exact command_mode hcommand available
  · rw [parse_other hcommand available []]
    exact ⟨hhelp, hversion⟩

/-- **A TRACE** is in the grammar. -/
theorem parse_trace {argv : List (List UInt16)} {attach : Bool}
    (h : (parseCommandLine argv available).mode = traceMode attach) :
    ∃ groups targets hooks, Accepts available attach argv groups targets hooks ∧
      parseCommandLine argv available = acceptedOptions attach groups targets hooks := by
  by_cases hcommand : Command argv
  · rcases parse_command hcommand available with ⟨attach', groups, targets, hooks, haccepts, ho⟩ |
      hfailed
    · have hsame : attach' = attach := by
        rw [ho] at h
        cases attach with
        | true =>
            cases attach' with
            | true => rfl
            | false => cases h
        | false =>
            cases attach' with
            | true => cases h
            | false => rfl
      subst hsame
      exact ⟨groups, targets, hooks, haccepts, ho⟩
    · rw [hfailed.1] at h
      exact absurd h.symm (traceMode_ne attach).2.2.2
  · have hmode := (parseCommandLine_other available (other_command hcommand)).1 attach
    exact absurd h hmode

/-! ### The hooks of a request -/

/-- A request asks for hooks that there are. -/
theorem expands_mem {name : List UInt8} {hooks : List HookDefinition}
    (h : Expands available name hooks) {hook : HookDefinition} (hhook : hook ∈ hooks) :
    hook ∈ available := by
  cases h with
  | all => exact hhook
  | named hm he hmne hene hfind =>
      rw [List.mem_singleton.mp hhook]
      exact List.mem_of_find?_eq_some hfind

theorem mem_selectHooks {requested : List HookDefinition} {hook : HookDefinition}
    (h : hook ∈ selectHooks requested) : hook ∈ requested := by
  have hfold : ∀ (rest hooks : List HookDefinition), hook ∈ rest.foldl addHook hooks →
      hook ∈ hooks ∨ hook ∈ rest := by
    intro rest
    induction rest with
    | nil => exact fun hooks hmem => Or.inl hmem
    | cons first rest ih =>
        intro hooks hmem
        rcases ih _ hmem with hadded | hrest
        · rw [addHook] at hadded
          split at hadded
          next => exact Or.inl hadded
          next =>
            rcases List.mem_append.mp hadded with hold | hnew
            · exact Or.inl hold
            · exact Or.inr (List.mem_singleton.mp hnew ▸ List.mem_cons_self)
        · exact Or.inr (List.mem_cons_of_mem _ hrest)
  exact (hfold requested [] h).resolve_left List.not_mem_nil

/-- The hooks of a command line of the grammar: some of the available ones, none
    of them twice. -/
theorem accepted_hooks {attach : Bool} {argv : List (List UInt16)} {groups : List OptionGroup}
    {targets : List (List UInt16)} {hooks : List HookDefinition}
    (h : Accepts available attach argv groups targets hooks) :
    hooks ≠ [] ∧ (hooks.map HookDefinition.canonicalName).Nodup ∧
      ∀ hook ∈ hooks, hook ∈ available := by
  obtain ⟨expansions, hexpands, rfl⟩ := h.expanded
  rw [← selectHooks_eq]
  refine ⟨selectHooks_eq expansions.flatten ▸ h.some, selectHooks_nodup _, ?_⟩
  intro hook hhook
  obtain ⟨expansion, hexpansion, hmem⟩ := List.mem_flatten.mp (mem_selectHooks hhook)
  obtain ⟨i, hi, rfl⟩ := List.getElem_of_mem hexpansion
  have hname := (List.forall₂_iff_get.mp hexpands).2 i (hexpands.length_eq ▸ hi) hi
  exact expands_mem hname hmem

/-! ## Outcomes -/

/-- A session that may be started: the target is known, and the hooks are of the
    registry. -/
structure Startable (currentProcessId : Nat) (options : CommandLineOptions) : Prop where
  target : options.mode = .run ∧ options.targetArguments ≠ [] ∨
    options.mode = .attach ∧ options.targetProcessId ≠ 0 ∧
      options.targetProcessId ≠ currentProcessId
  some : options.hooks ≠ []
  distinct : (options.hooks.map HookDefinition.canonicalName).Nodup
  wellFormed : ∀ hook ∈ options.hooks, WellFormed hook

variable {argv : List (List UInt16)} {loaded : Except Nat HookModule} {currentProcessId : Nat}

/-- Behind the first parse, the hooks are looked for. -/
theorem wmain_hooks (hhelp : (parseCommandLine argv []).mode ≠ .help)
    (hversion : (parseCommandLine argv []).mode ≠ .version) :
    wmain argv loaded currentProcessId = (discoverHooks loaded).bind fun r =>
      startSession (parseCommandLine argv r.1) r.1 currentProcessId := by
  rw [wmain, if_neg hhelp, if_neg hversion]
  cases discoverHooks loaded with
  | none => rfl
  | some r => rfl

/-- What is neither help nor the version comes from the second parse. -/
theorem wmain_second {r : Option Outcome} (h : wmain argv loaded currentProcessId = r)
    (husage : r ≠ some .usage) (hversion : r ≠ some .version) :
    ((parseCommandLine argv []).mode ≠ .help ∧ (parseCommandLine argv []).mode ≠ .version) ∧
      (discoverHooks loaded).bind (fun r =>
        startSession (parseCommandLine argv r.1) r.1 currentProcessId) = r := by
  have hmodes : (parseCommandLine argv []).mode ≠ .help ∧
      (parseCommandLine argv []).mode ≠ .version := by
    refine ⟨fun hmode => husage ?_, fun hmode => hversion ?_⟩
    · rw [← h, wmain, if_pos hmode]
    · rw [← h, wmain, if_neg (by rw [hmode]; decide), if_pos hmode]
  exact ⟨hmodes, by rw [← wmain_hooks hmodes.1 hmodes.2, h]⟩

theorem startSession_list {options : CommandLineOptions} (h : options.mode = .listHooks) :
    startSession options available currentProcessId
      = some (if available = [] then .noHooks else .listed (printSupportedHooks available)) := by
  rw [startSession, if_pos h]

theorem startSession_error {options : CommandLineOptions} (h : options.mode = .error) :
    startSession options available currentProcessId = some (.failed options.error) := by
  have hlist : options.mode ≠ .listHooks := by
    rw [h]
    decide
  rw [startSession, if_neg hlist, if_pos h]

/-- In the other modes there is no outcome but a session, where it is not refused. -/
theorem startSession_trace {options : CommandLineOptions} (hlist : options.mode ≠ .listHooks)
    (herror : options.mode ≠ .error) :
    startSession options available currentProcessId = none ∨
      startSession options available currentProcessId = some .refused ∨
      startSession options available currentProcessId = some (.traced options) := by
  rw [startSession, if_neg hlist, if_neg herror]
  by_cases hattach : options.mode = .attach
  · rw [if_pos hattach]
    by_cases hself : options.targetProcessId = currentProcessId
    · rw [if_pos hself]
      exact Or.inr (Or.inl rfl)
    · rw [if_neg hself]
      exact Or.inr (Or.inr rfl)
  · rw [if_neg hattach]
    by_cases htarget : options.targetArguments = []
    · rw [if_pos htarget]
      exact Or.inl rfl
    · rw [if_neg htarget]
      exact Or.inr (Or.inr rfl)

/-- With the options of the grammar a session is started, unless it is the
    process itself. -/
theorem startSession_accepted {attach : Bool} {groups : List OptionGroup}
    {targets : List (List UInt16)} {hooks : List HookDefinition}
    (h : Accepts available attach argv groups targets hooks) :
    startSession (acceptedOptions attach groups targets hooks) available currentProcessId
      = some (if attach = true ∧ lastOf OptionGroup.pidValue groups 0 = currentProcessId
          then .refused else .traced (acceptedOptions attach groups targets hooks)) := by
  have htarget := h.target
  have hlist : (acceptedOptions attach groups targets hooks).mode ≠ .listHooks :=
    (traceMode_ne attach).2.2.1
  have herror : (acceptedOptions attach groups targets hooks).mode ≠ .error :=
    (traceMode_ne attach).2.2.2
  rw [startSession, if_neg hlist, if_neg herror]
  cases attach with
  | true =>
      have hattach : (acceptedOptions true groups targets hooks).mode = .attach := rfl
      rw [if_pos hattach]
      by_cases hself : lastOf OptionGroup.pidValue groups 0 = currentProcessId
      · rw [if_pos (c := true = true ∧ _) ⟨rfl, hself⟩]
        exact congrArg some (if_pos hself)
      · rw [if_neg (c := true = true ∧ _) fun hboth => hself hboth.2]
        exact congrArg some (if_neg hself)
  | false =>
      have hrun : (acceptedOptions false groups targets hooks).mode ≠ .attach := by
        intro h
        cases h
      rw [if_neg Bool.false_ne_true] at htarget
      rw [if_neg hrun, if_neg (c := false = true ∧ _) fun hboth => Bool.false_ne_true hboth.1]
      exact if_neg htarget

/-- **EXACTLY** the command lines of the grammar, for another process, start a
    session with their options. -/
theorem wmain_traced {options : CommandLineOptions} :
    wmain argv loaded currentProcessId = some (.traced options) ↔
      ∃ available err attach groups targets hooks,
        discoverHooks loaded = some (available, err) ∧
          Accepts available attach argv groups targets hooks ∧
          options = acceptedOptions attach groups targets hooks ∧
          (attach = true → options.targetProcessId ≠ currentProcessId) := by
  constructor
  · intro h
    obtain ⟨⟨hhelp, hversion⟩, h⟩ := wmain_second h (by simp) (by simp)
    obtain ⟨⟨available, err⟩, hdiscover, hstart⟩ := Option.bind_eq_some_iff.mp h
    have hmodes := second_mode hhelp hversion available
    have htrace : ∃ attach, (parseCommandLine argv available).mode = traceMode attach := by
      dsimp only at hstart
      cases hmode : (parseCommandLine argv available).mode with
      | run => exact ⟨false, rfl⟩
      | attach => exact ⟨true, rfl⟩
      | help => exact absurd hmode hmodes.1
      | version => exact absurd hmode hmodes.2
      | listHooks =>
          rw [startSession_list hmode] at hstart
          split at hstart
          next => cases hstart
          next => cases hstart
      | error =>
          rw [startSession_error hmode] at hstart
          cases hstart
    obtain ⟨attach, hmode⟩ := htrace
    obtain ⟨groups, targets, hooks, haccepts, ho⟩ := parse_trace hmode
    dsimp only at hstart
    rw [ho, startSession_accepted haccepts] at hstart
    split at hstart
    next => cases hstart
    next hother =>
      cases hstart
      exact ⟨available, err, attach, groups, targets, hooks, hdiscover, haccepts, rfl,
        fun hattach hself => hother ⟨hattach, hself⟩⟩
  · rintro ⟨available, err, attach, groups, targets, hooks, hdiscover, haccepts, rfl, hself⟩
    have hcommand : Command argv := by
      obtain ⟨program, words, -, hargv⟩ := haccepts.words
      exact ⟨program, attach, _, hargv⟩
    have hfirst := command_mode hcommand []
    have hparse : parseCommandLine argv available = acceptedOptions attach groups targets hooks := by
      obtain ⟨program, words, -, rfl⟩ := haccepts.words
      rw [parseCommandLine_command,
        (parseTraceCommand_iff program).mpr ⟨groups, targets, hooks, haccepts, rfl⟩]
      rfl
    rw [wmain_hooks hfirst.1 hfirst.2, hdiscover]
    show startSession (parseCommandLine argv available) available currentProcessId = _
    rw [hparse, startSession_accepted haccepts]
    exact congrArg some (if_neg fun hboth => hself hboth.1 hboth.2)

theorem wmain_startable {options : CommandLineOptions}
    (h : wmain argv loaded currentProcessId = some (.traced options)) :
    Startable currentProcessId options := by
  obtain ⟨available, err, attach, groups, targets, hooks, hdiscover, haccepts, rfl, hself⟩ :=
    wmain_traced.mp h
  obtain ⟨hsome, hdistinct, hmem⟩ := accepted_hooks haccepts
  refine ⟨?_, hsome, hdistinct, fun hook hhook => (discoverHooks_found hdiscover (hmem hook hhook)).1⟩
  have htarget := haccepts.target
  cases attach with
  | true =>
      obtain ⟨program, words, hgroups, -⟩ := haccepts.words
      rw [if_pos rfl] at htarget
      exact Or.inr ⟨rfl, (lastOf_pid hgroups).mpr htarget.2, hself rfl⟩
  | false =>
      rw [if_neg Bool.false_ne_true] at htarget
      exact Or.inl ⟨rfl, htarget⟩

/-- An error has a text. -/
theorem parse_error (h : (parseCommandLine argv available).mode = .error) :
    (parseCommandLine argv available).error ≠ [] := by
  by_cases hcommand : Command argv
  · rcases parse_command hcommand available with ⟨attach, _, _, _, -, ho⟩ | hfailed
    · rw [ho] at h
      exact absurd h (traceMode_ne attach).2.2.2
    · exact hfailed.2
  · exact (parseCommandLine_other available (other_command hcommand)).2.mp h

/-- The error that is printed is that of the parse. -/
theorem startSession_failed {options : CommandLineOptions} {error : List UInt8}
    (h : startSession options available currentProcessId = some (.failed error)) :
    options.mode = .error ∧ options.error = error := by
  by_cases hlist : options.mode = .listHooks
  · rw [startSession_list hlist] at h
    split at h
    next => cases h
    next => cases h
  by_cases herror : options.mode = .error
  · rw [startSession_error herror] at h
    cases h
    exact ⟨herror, rfl⟩
  rcases @startSession_trace available currentProcessId options hlist herror with ho | ho | ho
  · cases ho.symm.trans h
  · cases ho.symm.trans h
  · cases ho.symm.trans h

theorem startSession_listed {options : CommandLineOptions} {lines : List (List UInt8)}
    (h : startSession options available currentProcessId = some (.listed lines)) :
    available ≠ [] ∧ lines = printSupportedHooks available := by
  by_cases hlist : options.mode = .listHooks
  · rw [startSession_list hlist] at h
    split at h
    next => cases h
    next hne =>
      cases h
      exact ⟨hne, rfl⟩
  by_cases herror : options.mode = .error
  · rw [startSession_error herror] at h
    cases h
  rcases @startSession_trace available currentProcessId options hlist herror with ho | ho | ho
  · cases ho.symm.trans h
  · cases ho.symm.trans h
  · cases ho.symm.trans h

/-- What the second parse gives is never out of range. -/
theorem startSession_some (hhelp : (parseCommandLine argv []).mode ≠ .help)
    (hversion : (parseCommandLine argv []).mode ≠ .version) (available : List HookDefinition) :
    startSession (parseCommandLine argv available) available currentProcessId ≠ none := by
  intro hnone
  have hmodes := second_mode hhelp hversion available
  have htrace : ∀ attach, (parseCommandLine argv available).mode ≠ traceMode attach := by
    intro attach hmode
    obtain ⟨groups, targets, hooks, haccepts, ho⟩ := parse_trace hmode
    rw [ho, startSession_accepted haccepts] at hnone
    cases hnone
  cases hmode : (parseCommandLine argv available).mode with
  | run => exact htrace false hmode
  | attach => exact htrace true hmode
  | help => exact hmodes.1 hmode
  | version => exact hmodes.2 hmode
  | listHooks =>
      rw [startSession_list hmode] at hnone
      cases hnone
  | error =>
      rw [startSession_error hmode] at hnone
      cases hnone

/-- **THE PROGRAM**: what each of its outcomes comes from. -/
theorem wmain_outcomes (argv : List (List UInt16)) (loaded : Except Nat HookModule)
    (currentProcessId : Nat) :
    (wmain argv loaded currentProcessId = none → discoverHooks loaded = none) ∧
    (∀ options, wmain argv loaded currentProcessId = some (.traced options) ↔
      ∃ available err attach groups targets hooks,
        discoverHooks loaded = some (available, err) ∧
          Accepts available attach argv groups targets hooks ∧
          options = acceptedOptions attach groups targets hooks ∧
          (attach = true → options.targetProcessId ≠ currentProcessId)) ∧
    (∀ options, wmain argv loaded currentProcessId = some (.traced options) →
      Startable currentProcessId options) ∧
    (∀ error, wmain argv loaded currentProcessId = some (.failed error) → error ≠ []) ∧
    ∀ lines, wmain argv loaded currentProcessId = some (.listed lines) →
      lines ≠ [] ∧ lines.Pairwise (· < ·) := by
  refine ⟨?_, fun _ => wmain_traced, fun _ h => wmain_startable h, ?_, ?_⟩
  · intro h
    obtain ⟨⟨hhelp, hversion⟩, h⟩ := wmain_second h (by simp) (by simp)
    rcases Option.bind_eq_none_iff.mp h with hnone
    cases hdiscover : discoverHooks loaded with
    | none => rfl
    | some r => exact absurd (hnone r hdiscover) (startSession_some hhelp hversion r.1)
  · intro error h
    obtain ⟨-, h⟩ := wmain_second h (by simp) (by simp)
    obtain ⟨⟨available, err⟩, -, hstart⟩ := Option.bind_eq_some_iff.mp h
    obtain ⟨hmode, rfl⟩ := startSession_failed hstart
    exact parse_error hmode
  · intro lines h
    obtain ⟨-, h⟩ := wmain_second h (by simp) (by simp)
    obtain ⟨⟨available, err⟩, hdiscover, hstart⟩ := Option.bind_eq_some_iff.mp h
    obtain ⟨hne, rfl⟩ := startSession_listed hstart
    exact ⟨fun hnil => hne (List.map_eq_nil_iff.mp hnil),
      List.pairwise_map.mpr (discoverHooks_sorted hdiscover)⟩

theorem wmain_outcomes_run : ∃ options,
    wmain [wcstr "apiscope", wcstr "run", wcstr "-k", wcstr "all", wcstr "--", wcstr "a.exe"]
      (.ok sampleModule) 1 = some (.traced options) ∧ Startable 1 options := by
  have hrun : (wmain [wcstr "apiscope", wcstr "run", wcstr "-k", wcstr "all", wcstr "--",
      wcstr "a.exe"] (.ok sampleModule) 1).map Outcome.isTraced = some true := by
    decide +kernel
  obtain ⟨outcome, hwmain, htraced⟩ := Option.map_eq_some_iff.mp hrun
  cases outcome with
  | traced options => exact ⟨options, hwmain, (wmain_outcomes _ _ _).2.2.1 options hwmain⟩
  | _ => cases htraced

/-! ## What is listed can be traced -/

/-- A name in the characters of the command line. -/
def wide (name : List UInt8) : List UInt16 := name.map fun b => b.toNat.toUInt16

theorem ascii_of_all {name : List UInt8} (hall : name.all (fun b => decide (b ≤ 0x7F)) = true) :
    ∀ b ∈ name, b ≤ 0x7F := by
  intro b hb
  exact of_decide_eq_true (List.all_eq_true.mp hall b hb)

theorem ascii_wide {name : List UInt8} (hne : name ≠ []) (hascii : ∀ b ∈ name, b ≤ 0x7F) :
    Ascii (wide name) name := by
  have hvalue : ∀ b : UInt8, b.toNat.toUInt16.toNat = b.toNat := by
    intro b
    have hb := b.toNat_lt
    rw [Nat.toUInt16, UInt16.toNat_ofNat']
    exact Nat.mod_eq_of_lt (by omega)
  refine ⟨fun hnil => hne (List.map_eq_nil_iff.mp hnil), ?_, ?_⟩
  · intro c hc
    obtain ⟨b, hb, rfl⟩ := List.mem_map.mp hc
    have hle := UInt8.le_iff_toNat_le.mp (hascii b hb)
    rw [UInt16.le_iff_toNat_le, hvalue]
    exact hle
  · rw [wide, List.map_map]
    refine (List.map_id name).symm.trans (List.map_congr_left fun b _ => ?_)
    show b = UInt8.ofNat b.toNat.toUInt16.toNat
    rw [hvalue, UInt8.ofNat_toNat]

/-- A spelling of the module of a hook that a command line can have. -/
structure Spells (moduleName : List UInt8) (hook : HookDefinition) : Prop where
  normalized : normalizeModuleName moduleName = hook.moduleName
  some : moduleName ≠ []
  separator : 33 ∉ moduleName ∧ 33 ∉ hook.exportName
  ascii : ∀ b ∈ moduleName ++ 33 :: hook.exportName, b ≤ 0x7F

/-- `run` with one `--hook`. -/
def runCommand (program : List UInt16) (request : List UInt8) (targets : List (List UInt16)) :
    List (List UInt16) :=
  program :: wcstr "run" :: wcstr "--hook" :: wide request :: wcstr "--" :: targets

/-- The options of such a command line. -/
def runOptions (hooks : List HookDefinition) (targets : List (List UInt16)) :
    CommandLineOptions :=
  { initialOptions with mode := .run, hooks, targetArguments := targets }

theorem accepts_runCommand {request : List UInt8} {expansion : List HookDefinition}
    {targets : List (List UInt16)} (hascii : Ascii (wide request) request)
    (hexpands : Expands available request expansion) (hnodup : selectHooks expansion = expansion)
    (hsome : expansion ≠ []) (htargets : targets ≠ []) (program : List UInt16) :
    Accepts available false (runCommand program request targets) [.hook request] targets
      expansion where
  words := by
    have hwritten : Written (.hook request) [wcstr "--hook", wide request] :=
      ⟨wcstr "--hook", List.mem_cons_self, [wide request], ⟨_, rfl, hascii⟩, rfl⟩
    exact ⟨program, _, .cons hwritten trivial .nil, rfl⟩
  target := htargets
  output := by
    rintro (⟨f, hf⟩ | hquiet)
    · simp at hf
    · simp at hquiet
  expanded := by
    refine ⟨[expansion], .cons hexpands .nil, ?_⟩
    rw [← selectHooks_eq, List.flatten_singleton]
    exact hnodup.symm
  some := hsome

/-- A list without repetitions is selected as it is. -/
theorem selectHooks_self {hooks : List HookDefinition}
    (h : (hooks.map HookDefinition.canonicalName).Nodup) : selectHooks hooks = hooks := by
  induction hooks using List.reverseRecOn with
  | nil => rfl
  | append_singleton hooks hook ih =>
      rw [List.map_append, List.map_singleton] at h
      obtain ⟨hrest, -, hnew⟩ := List.nodup_append.mp h
      rw [selectHooks, List.foldl_append]
      show addHook (selectHooks hooks) hook = _
      rw [ih hrest, addHook, if_neg]
      intro hthere
      obtain ⟨other, hother, hsame⟩ := List.any_eq_true.mp hthere
      exact hnew _ (List.mem_map_of_mem hother) _ List.mem_cons_self (of_decide_eq_true hsame)

/-- **EVERY LISTED HOOK** is traced when it is asked for by its name, in any
    spelling of its module, and `all` traces all of them. -/
theorem listed_hook_traced {err : List UInt8} (h : discoverHooks loaded = some (available, err))
    {hook : HookDefinition} (hhook : hook ∈ available) {targets : List (List UInt16)}
    (htargets : targets ≠ []) (program : List UInt16) (currentProcessId : Nat) :
    (∀ moduleName, Spells moduleName hook →
      wmain (runCommand program (moduleName ++ 33 :: hook.exportName) targets) loaded
        currentProcessId = some (.traced (runOptions [hook] targets))) ∧
    wmain (runCommand program (cstr "all") targets) loaded currentProcessId
      = some (.traced (runOptions available targets)) := by
  obtain ⟨hwell, hfound⟩ := discoverHooks_found h hhook
  have htraced : ∀ {request : List UInt8} {expansion : List HookDefinition},
      Accepts available false (runCommand program request targets) [.hook request] targets
        expansion → wmain (runCommand program request targets) loaded currentProcessId
          = some (.traced (runOptions expansion targets)) := by
    intro request expansion haccepts
    exact wmain_traced.mpr ⟨available, err, false, _, targets, expansion, h, haccepts, rfl,
      fun hfalse => absurd hfalse Bool.false_ne_true⟩
  constructor
  · intro moduleName hspells
    have hcanonical : normalizeModuleName moduleName ++ 33 :: hook.exportName
        = hook.canonicalName := by
      rw [hspells.normalized, hwell.canonicalName]
      rfl
    have hexpands : Expands available (moduleName ++ 33 :: hook.exportName) [hook] := by
      refine .named hspells.separator.1 hspells.separator.2 hspells.some
        hwell.exportName.nonempty ?_
      rw [hcanonical]
      exact hfound
    exact htraced (accepts_runCommand (ascii_wide (by simp) hspells.ascii) hexpands rfl (by simp)
      htargets program)
  · have hne : available ≠ [] := by
      rintro rfl
      cases hhook
    exact htraced (accepts_runCommand (ascii_wide (by decide) (ascii_of_all (by decide))) .all
      (selectHooks_self (discoverHooks_nodup h)) hne htargets program)

/-- A hook of the sample, with its module in another case and a path. -/
theorem listed_hook_traced_sample :
    wmain (runCommand (wcstr "apiscope") (cstr "C:\\KernelBase.DLL!CloseHandle") [wcstr "a.exe"])
        (.ok sampleModule) 1
      = some (.traced (runOptions [closeHandle.definition] [wcstr "a.exe"])) := by
  have hspells : Spells (cstr "C:\\KernelBase.DLL") closeHandle.definition :=
    ⟨by decide, by decide, by decide, ascii_of_all (by decide)⟩
  have hrequest : cstr "C:\\KernelBase.DLL!CloseHandle"
      = cstr "C:\\KernelBase.DLL" ++ 33 :: closeHandle.definition.exportName := by decide
  rw [hrequest]
  exact (listed_hook_traced sampleModule_discovered List.mem_cons_self (by decide) _ 1).1 _ hspells

end ScopeMain
