import ApiScope.LoadOrderProofs
import Mathlib.Data.Nat.Digits.Defs

/-! # Command-line options — the grammar that the parser accepts

    `ParseCommandLine` walks over the arguments once.  An option that takes a
    value takes the next argument, whatever it looks like; conditions between
    options are checked behind the loop.

    The grammar below knows nothing of a loop: the arguments are the command,
    a sequence of option groups, and what follows them.  The loop is related
    to it one group at a time (`optionLoop_group`, `optionLoop_cases`), and
    `parseCommandLine_exact` is the grammar of the whole command line. -/

namespace ScopeCliOptions

open ScopeBytes ScopeProtocol ScopeHook ScopeDebug ScopeLoadOrder

/-! ## Options -/

inductive TraceOutputFormat where
  | text
  | jsonl
  deriving DecidableEq

inductive TraceColorMode where
  | auto
  | always
  | never
  deriving DecidableEq

structure TraceOutputOptions where
  format : TraceOutputFormat
  outputPath : List UInt16
  quiet : Bool
  color : TraceColorMode
  status : TraceColorMode

inductive CommandMode where
  | run
  | attach
  | listHooks
  | help
  | version
  | error
  deriving DecidableEq

structure CommandLineOptions where
  mode : CommandMode
  hooks : List HookDefinition
  targetArguments : List (List UInt16)
  targetProcessId : Nat
  output : TraceOutputOptions
  error : List UInt8

/-- The characters of a wide string literal. -/
def wcstr (s : String) : List UInt16 := s.toList.map fun c => c.toNat.toUInt16

/-! ## Values -/

/-- `NarrowHookName`; as `NarrowAscii`, it gives nothing for a name that is not ASCII. -/
def narrowHookName (value : List UInt16) : List UInt8 := narrowAscii value

/-- The loop of `ParseProcessId`.  The number so far is at most `UINT32_MAX`, and
    ten times as much is no overflow of the 64 bits. -/
def parseDigits : (parsed : Nat) → List UInt16 → Option Nat
  | parsed, [] => some parsed
  | parsed, character :: rest =>
      if character < 48 ∨ character > 57 then none
      else if parsed * 10 + (character.toNat - 48) > 0xFFFFFFFF then none
      else parseDigits (parsed * 10 + (character.toNat - 48)) rest

/-- `ParseProcessId`. -/
def parseProcessId (value : List UInt16) : Option Nat :=
  if value = [] then none
  else match parseDigits 0 value with
    | none => none
    | some parsed => if parsed = 0 then none else some parsed

/-! ## The loop -/

/-- The variables of the loop. -/
structure Parse where
  options : CommandLineOptions
  requestedHooks : List (List UInt8)
  formatSpecified : Bool

/-- The options that are returned with an error. -/
def failed (options : CommandLineOptions) (message : String) : CommandLineOptions :=
  { options with error := cstr message }

/-- An option that takes a value: the message when there is none, and what a value does. -/
structure ValueOption where
  missing : String
  apply : List UInt16 → Parse → Except String Parse

def pidOption : ValueOption where
  missing := "--pid requires a positive process ID"
  apply value p :=
    match parseProcessId value with
    | none => .error "--pid requires a positive process ID"
    | some processId => .ok { p with options.targetProcessId := processId }

def hookOption : ValueOption where
  missing := "--hook requires a value"
  apply value p :=
    if narrowHookName value = [] then .error "Hook names must be ASCII"
    else .ok { p with requestedHooks := p.requestedHooks ++ [narrowHookName value] }

def formatOption : ValueOption where
  missing := "--format requires text or jsonl"
  apply value p :=
    if value = wcstr "text" then
      .ok { p with options.output.format := .text, formatSpecified := true }
    else if value = wcstr "jsonl" then
      .ok { p with options.output.format := .jsonl, formatSpecified := true }
    else .error "--format requires text or jsonl"

def outputOption : ValueOption where
  missing := "--output requires a path"
  apply value p := .ok { p with options.output.outputPath := value }

/-- `--color` and `--status` differ in their message and in the field they set. -/
def colorModeOption (message : String) (set : TraceColorMode → Parse → Parse) : ValueOption where
  missing := message
  apply value p :=
    if value = wcstr "auto" then .ok (set .auto p)
    else if value = wcstr "always" then .ok (set .always p)
    else if value = wcstr "never" then .ok (set .never p)
    else .error message

def setColor (mode : TraceColorMode) (p : Parse) : Parse :=
  { p with options.output.color := mode }

def setStatus (mode : TraceColorMode) (p : Parse) : Parse :=
  { p with options.output.status := mode }

def colorOption : ValueOption :=
  colorModeOption "--color requires auto, always, or never" setColor

def statusOption : ValueOption :=
  colorModeOption "--status requires auto, always, or never" setStatus

/-- The options with a value, by their long and short forms. -/
def valueOption (argument : List UInt16) : Option ValueOption :=
  if argument = wcstr "--pid" ∨ argument = wcstr "-p" then some pidOption
  else if argument = wcstr "--hook" ∨ argument = wcstr "-k" then some hookOption
  else if argument = wcstr "--format" ∨ argument = wcstr "-f" then some formatOption
  else if argument = wcstr "--output" ∨ argument = wcstr "-o" then some outputOption
  else if argument = wcstr "--color" then some colorOption
  else if argument = wcstr "--status" then some statusOption
  else none

/-- The loop over the arguments behind the command.  It ends at the end of the
    arguments or behind `--`, with the arguments that are left. -/
def optionLoop (attach : Bool) : Parse → List (List UInt16) →
    Except CommandLineOptions (Parse × List (List UInt16))
  | p, [] => .ok (p, [])
  | p, argument :: rest =>
      if argument = wcstr "--" then
        if attach then .error (failed p.options "attach does not accept a target command")
        else .ok (p, rest)
      else if (argument = wcstr "--pid" ∨ argument = wcstr "-p") ∧ attach = false then
        .error (failed p.options "--pid is only valid with attach")
      else if argument = wcstr "--quiet" ∨ argument = wcstr "-q" then
        optionLoop attach { p with options.output.quiet := true } rest
      else match valueOption argument with
        | none => .error (failed p.options "Unknown command option")
        | some option =>
            match rest with
            | [] => .error (failed p.options option.missing)
            | value :: rest =>
                match option.apply value p with
                | .error message => .error (failed p.options message)
                | .ok p => optionLoop attach p rest

/-! ## Behind the loop -/

/-- What each mode asks of the arguments that are left. -/
def checkTarget (attach : Bool) (options : CommandLineOptions) (rest : List (List UInt16)) :
    Except CommandLineOptions CommandLineOptions :=
  if attach then
    if rest ≠ [] then .error (failed options "attach accepts options only")
    else if options.targetProcessId = 0 then
      .error (failed options "attach requires --pid <pid>")
    else .ok options
  else if rest = [] then
    .error (failed options "run requires -- followed by a target program")
  else .ok { options with targetArguments := options.targetArguments ++ rest }

/-- The checks of `--format` and `--quiet`. -/
def checkOutput (formatSpecified : Bool) (options : CommandLineOptions) :
    Except CommandLineOptions CommandLineOptions :=
  if formatSpecified ∧ options.output.outputPath = [] then
    .error (failed options "--format requires --output <path>")
  else if options.output.quiet ∧ options.output.outputPath = [] then
    .error (failed options "--quiet requires --output <path>")
  else .ok options

/-- `FindSupportedHook`. -/
def findSupportedHook (hooks : List HookDefinition) (canonicalName : List UInt8) :
    Option HookDefinition :=
  hooks.find? (·.canonicalName = canonicalName)

/-- `find('!')` finds none, or one at an end, or another one behind it. -/
def badSeparator (requestedHook : List UInt8) : Prop :=
  33 ∉ requestedHook ∨ requestedHook.idxOf 33 = 0
    ∨ requestedHook.idxOf 33 + 1 = requestedHook.length
    ∨ 33 ∈ requestedHook.drop (requestedHook.idxOf 33 + 1)

instance (requestedHook : List UInt8) : Decidable (badSeparator requestedHook) :=
  inferInstanceAs (Decidable (_ ∨ _ ∨ _ ∨ _))

/-- The name with its module part normalized. -/
def canonicalNameOf (requestedHook : List UInt8) : List UInt8 :=
  normalizeModuleName (requestedHook.take (requestedHook.idxOf 33))
    ++ requestedHook.drop (requestedHook.idxOf 33)

/-- `ExpandAndValidateHooks`. -/
def expandAndValidateHooks (availableHooks : List HookDefinition) : CommandLineOptions →
    List (List UInt8) → Except CommandLineOptions CommandLineOptions
  | options, [] =>
      if options.hooks = [] then .error (failed options "At least one --hook is required")
      else .ok options
  | options, requestedHook :: rest =>
      if requestedHook = cstr "all" then
        expandAndValidateHooks availableHooks
          { options with hooks := availableHooks.foldl addHook options.hooks } rest
      else if badSeparator requestedHook then
        .error (failed options "Hook names must use module.dll!Export")
      else match findSupportedHook availableHooks (canonicalNameOf requestedHook) with
        | none => .error { options with error := cstr "Unsupported hook: " ++ requestedHook }
        | some definition =>
            expandAndValidateHooks availableHooks
              { options with hooks := addHook options.hooks definition } rest

/-! ## `ParseCommandLine` -/

/-- The options before the first argument is looked at. -/
def initialOptions : CommandLineOptions where
  mode := .error
  hooks := []
  targetArguments := []
  targetProcessId := 0
  output := ⟨.text, [], false, .auto, .auto⟩
  error := []

/-- The branch of `run` and `attach`, on the arguments behind the command. -/
def parseTraceCommand (attach : Bool) (availableHooks : List HookDefinition)
    (arguments : List (List UInt16)) : Except CommandLineOptions CommandLineOptions := do
  let (p, rest) ← optionLoop attach ⟨initialOptions, [], false⟩ arguments
  let options ← checkTarget attach p.options rest
  let options ← checkOutput p.formatSpecified options
  let options ← expandAndValidateHooks availableHooks options p.requestedHooks
  return { options with mode := if attach then .attach else .run }

/-- The options that are returned, with an error or without. -/
def returned : Except CommandLineOptions CommandLineOptions → CommandLineOptions
  | .ok options => options
  | .error options => options

/-- `ParseCommandLine`. -/
def parseCommandLine (argv : List (List UInt16)) (availableHooks : List HookDefinition) :
    CommandLineOptions :=
  if argv.length = 2 ∧ (argv[1]? = some (wcstr "--list-hooks") ∨ argv[1]? = some (wcstr "-l")) then
    { initialOptions with mode := .listHooks }
  else if argv.length = 1 ∨
      (argv.length = 2 ∧ (argv[1]? = some (wcstr "--help") ∨ argv[1]? = some (wcstr "-h"))) then
    { initialOptions with mode := .help }
  else if argv.length = 2 ∧
      (argv[1]? = some (wcstr "--version") ∨ argv[1]? = some (wcstr "-V")) then
    { initialOptions with mode := .version }
  else match argv with
    | _ :: command :: arguments =>
        if command = wcstr "run" ∨ command = wcstr "attach" then
          returned (parseTraceCommand (command = wcstr "attach") availableHooks arguments)
        else failed initialOptions
          "Expected 'run', 'attach', --list-hooks, --help, or --version"
    | _ => failed initialOptions
        "Expected 'run', 'attach', --list-hooks, --help, or --version"

/-! ## `OpenOutput` -/

/-- `OpenOutput`, with the message of a check that fails; `opens` tells which paths
    can be opened. -/
def openOutput (opens : List UInt16 → Bool) (outputOptions : TraceOutputOptions) :
    Except String Unit :=
  if outputOptions.outputPath = [] then
    if outputOptions.format = .jsonl then .error "[!] JSONL output requires --output <path>\n"
    else if outputOptions.quiet then .error "[!] Quiet mode requires --output <path>\n"
    else .ok ()
  else if opens outputOptions.outputPath then .ok ()
  else .error "[!] Failed to open trace output file\n"

/-! ## The grammar -/

/-- An option, with the value that is given to it. -/
inductive OptionGroup where
  | pid (processId : Nat)
  | hook (name : List UInt8)
  | format (format : TraceOutputFormat)
  | output (path : List UInt16)
  | quiet
  | color (mode : TraceColorMode)
  | status (mode : TraceColorMode)

/-- A text of decimal digits, and the number it writes. -/
def Numeral (value : List UInt16) (n : Nat) : Prop :=
  value ≠ [] ∧ (∀ c ∈ value, 48 ≤ c ∧ c ≤ 57)
    ∧ Nat.ofDigits 10 (value.map fun c => c.toNat - 48).reverse = n

/-- A text of ASCII characters, and the narrow text it writes. -/
def Ascii (value : List UInt16) (name : List UInt8) : Prop :=
  value ≠ [] ∧ (∀ c ∈ value, c ≤ 0x7F) ∧ name = value.map fun c => UInt8.ofNat c.toNat

def formatName : TraceOutputFormat → List UInt16
  | .text => wcstr "text"
  | .jsonl => wcstr "jsonl"

def colorModeName : TraceColorMode → List UInt16
  | .auto => wcstr "auto"
  | .always => wcstr "always"
  | .never => wcstr "never"

namespace OptionGroup

/-- The long and the short form of an option. -/
def forms : OptionGroup → List (List UInt16)
  | pid _ => [wcstr "--pid", wcstr "-p"]
  | hook _ => [wcstr "--hook", wcstr "-k"]
  | format _ => [wcstr "--format", wcstr "-f"]
  | output _ => [wcstr "--output", wcstr "-o"]
  | quiet => [wcstr "--quiet", wcstr "-q"]
  | color _ => [wcstr "--color"]
  | status _ => [wcstr "--status"]

/-- The arguments that give an option its value. -/
def Values : OptionGroup → List (List UInt16) → Prop
  | pid n, values => ∃ value, values = [value] ∧ Numeral value n ∧ 1 ≤ n ∧ n < 2 ^ 32
  | hook name, values => ∃ value, values = [value] ∧ Ascii value name
  | format f, values => values = [formatName f]
  | output path, values => values = [path]
  | quiet, values => values = []
  | color mode, values => values = [colorModeName mode]
  | status mode, values => values = [colorModeName mode]

/-- `--pid` is an option of `attach`. -/
def Allowed (attach : Bool) : OptionGroup → Prop
  | pid _ => attach = true
  | _ => True

/-- What an option does to the variables of the loop. -/
def effect : OptionGroup → Parse → Parse
  | pid n, p => { p with options.targetProcessId := n }
  | hook name, p => { p with requestedHooks := p.requestedHooks ++ [name] }
  | format f, p => { p with options.output.format := f, formatSpecified := true }
  | output path, p => { p with options.output.outputPath := path }
  | quiet, p => { p with options.output.quiet := true }
  | color mode, p => setColor mode p
  | status mode, p => setStatus mode p

end OptionGroup

/-- The arguments of one option. -/
def Written (g : OptionGroup) (words : List (List UInt16)) : Prop :=
  ∃ form ∈ g.forms, ∃ values, g.Values values ∧ words = form :: values

/-- A sequence of option groups. -/
inductive Groups (attach : Bool) : List OptionGroup → List (List UInt16) → Prop where
  | nil : Groups attach [] []
  | cons {g : OptionGroup} {groups : List OptionGroup} {words rest : List (List UInt16)} :
      Written g words → g.Allowed attach → Groups attach groups rest →
      Groups attach (g :: groups) (words ++ rest)

/-- The value that is given last. -/
def lastOf {V : Type} (value : OptionGroup → Option V) (groups : List OptionGroup)
    (default : V) : V :=
  (groups.filterMap value).getLast?.getD default

namespace OptionGroup

def pidValue : OptionGroup → Option Nat
  | pid n => some n
  | _ => none

def hookValue : OptionGroup → Option (List UInt8)
  | hook name => some name
  | _ => none

def formatValue : OptionGroup → Option TraceOutputFormat
  | format f => some f
  | _ => none

def outputValue : OptionGroup → Option (List UInt16)
  | output path => some path
  | _ => none

def quietValue : OptionGroup → Option Bool
  | quiet => some true
  | _ => none

def colorValue : OptionGroup → Option TraceColorMode
  | color mode => some mode
  | _ => none

def statusValue : OptionGroup → Option TraceColorMode
  | status mode => some mode
  | _ => none

end OptionGroup

/-- The hooks of one request: all of them, or the first one of its name. -/
inductive Expands (available : List HookDefinition) : List UInt8 → List HookDefinition → Prop where
  | all : Expands available (cstr "all") available
  | named {moduleName exportName : List UInt8} {hook : HookDefinition} :
      33 ∉ moduleName → 33 ∉ exportName → moduleName ≠ [] → exportName ≠ [] →
      available.find? (·.canonicalName = normalizeModuleName moduleName ++ 33 :: exportName)
        = some hook →
      Expands available (moduleName ++ 33 :: exportName) [hook]

/-- Repetitions have the same canonical name. -/
def sameName (a b : HookDefinition) : Bool := a.canonicalName = b.canonicalName

/-- The word of a mode. -/
def commandWord : (attach : Bool) → List UInt16
  | true => wcstr "attach"
  | false => wcstr "run"

def traceMode : (attach : Bool) → CommandMode
  | true => .attach
  | false => .run

/-- What follows the option groups. -/
def behindGroups (attach : Bool) (targets : List (List UInt16)) : List (List UInt16) :=
  if attach then [] else wcstr "--" :: targets

/-- **THE GRAMMAR**: a command line of one mode, its option groups, the target's
    arguments, and the hooks it asks for. -/
structure Accepts (available : List HookDefinition) (attach : Bool)
    (argv : List (List UInt16)) (groups : List OptionGroup)
    (targets : List (List UInt16)) (hooks : List HookDefinition) : Prop where
  words : ∃ program words, Groups attach groups words ∧
    argv = program :: commandWord attach :: (words ++ behindGroups attach targets)
  target : if attach then targets = [] ∧ ∃ n, OptionGroup.pid n ∈ groups else targets ≠ []
  output : (∃ f, OptionGroup.format f ∈ groups) ∨ OptionGroup.quiet ∈ groups →
    lastOf OptionGroup.outputValue groups [] ≠ []
  expanded : ∃ expansions,
    List.Forall₂ (Expands available) (groups.filterMap OptionGroup.hookValue) expansions ∧
      hooks = expansions.flatten.eraseDupsBy sameName
  some : hooks ≠ []

/-- The options of a command line of the grammar. -/
def acceptedOptions (attach : Bool) (groups : List OptionGroup)
    (targets : List (List UInt16)) (hooks : List HookDefinition) : CommandLineOptions where
  mode := traceMode attach
  hooks := hooks
  targetArguments := targets
  targetProcessId := lastOf OptionGroup.pidValue groups 0
  output :=
    { format := lastOf OptionGroup.formatValue groups .text
      outputPath := lastOf OptionGroup.outputValue groups []
      quiet := lastOf OptionGroup.quietValue groups false
      color := lastOf OptionGroup.colorValue groups .auto
      status := lastOf OptionGroup.statusValue groups .auto }
  error := []

/-! ## Numerals and names -/

/-- The number that the loop of `ParseProcessId` has read. -/
def numeralFrom (parsed : Nat) (value : List UInt16) : Nat :=
  value.foldl (fun n c => n * 10 + (c.toNat - 48)) parsed

theorem numeralFrom_eq (parsed : Nat) (value : List UInt16) :
    numeralFrom parsed value = parsed * 10 ^ value.length
      + Nat.ofDigits 10 (value.map fun c => c.toNat - 48).reverse := by
  induction value generalizing parsed with
  | nil => simp [numeralFrom]
  | cons c rest ih =>
      have hstep : numeralFrom parsed (c :: rest)
          = numeralFrom (parsed * 10 + (c.toNat - 48)) rest := rfl
      rw [hstep, ih, List.map_cons, Nat.ofDigits_reverse_cons, List.length_map,
        List.length_cons, pow_succ]
      ring

theorem numeralFrom_ge (parsed : Nat) (value : List UInt16) :
    parsed ≤ numeralFrom parsed value := by
  rw [numeralFrom_eq]
  exact Nat.le_trans (Nat.le_mul_of_pos_right parsed (Nat.pow_pos (by decide)))
    (Nat.le_add_right _ _)

/-- The number only grows, so the bound on every step is one on the whole. -/
theorem parseDigits_iff {parsed : Nat} (hparsed : parsed ≤ 0xFFFFFFFF) (value : List UInt16)
    (n : Nat) :
    parseDigits parsed value = some n ↔
      (∀ c ∈ value, 48 ≤ c ∧ c ≤ 57) ∧ numeralFrom parsed value = n ∧ n ≤ 0xFFFFFFFF := by
  induction value generalizing parsed with
  | nil =>
      constructor
      · intro h
        obtain rfl := Option.some.inj h
        exact ⟨(fun c hc => nomatch hc), rfl, hparsed⟩
      · rintro ⟨-, rfl, -⟩
        rfl
  | cons c rest ih =>
      have hstep : numeralFrom parsed (c :: rest)
          = numeralFrom (parsed * 10 + (c.toNat - 48)) rest := rfl
      rw [parseDigits, hstep, List.forall_mem_cons]
      by_cases hdigit : c < 48 ∨ c > 57
      · rw [if_pos hdigit]
        refine ⟨(fun h => nomatch h), ?_⟩
        rintro ⟨⟨⟨hlow, hhigh⟩, -⟩, -⟩
        rcases hdigit with hlt | hgt
        · exact absurd hlow (UInt16.not_le.mpr hlt)
        · exact absurd hhigh (UInt16.not_le.mpr hgt)
      rw [if_neg hdigit]
      rw [not_or, UInt16.not_lt, gt_iff_lt, UInt16.not_lt] at hdigit
      by_cases hlarge : parsed * 10 + (c.toNat - 48) > 0xFFFFFFFF
      · rw [if_pos hlarge]
        refine ⟨(fun h => nomatch h), ?_⟩
        rintro ⟨-, rfl, hn⟩
        exact absurd (Nat.le_trans (numeralFrom_ge _ rest) hn) (Nat.not_le.mpr hlarge)
      · rw [if_neg hlarge, ih (Nat.not_lt.mp hlarge)]
        exact ⟨fun h => ⟨⟨hdigit, h.1⟩, h.2⟩, fun h => ⟨h.1.2, h.2⟩⟩

theorem parseProcessId_iff (value : List UInt16) (n : Nat) :
    parseProcessId value = some n ↔ Numeral value n ∧ 1 ≤ n ∧ n < 2 ^ 32 := by
  have hnumeral : numeralFrom 0 value
      = Nat.ofDigits 10 (value.map fun c => c.toNat - 48).reverse := by
    rw [numeralFrom_eq, Nat.zero_mul, Nat.zero_add]
  have hdigits := parseDigits_iff (Nat.zero_le 0xFFFFFFFF) value
  rw [parseProcessId]
  by_cases hempty : value = []
  · rw [if_pos hempty]
    exact ⟨(fun h => nomatch h), fun h => absurd hempty h.1.1⟩
  rw [if_neg hempty]
  constructor
  · intro h
    cases hparse : parseDigits 0 value with
    | none =>
        rw [hparse] at h
        cases h
    | some m =>
        rw [hparse] at h
        dsimp only at h
        split at h
        · cases h
        · rename_i hzero
          obtain rfl := Option.some.inj h
          obtain ⟨hall, hvalue, hbound⟩ := (hdigits m).mp hparse
          exact ⟨⟨hempty, hall, hnumeral ▸ hvalue⟩, Nat.pos_of_ne_zero hzero,
            Nat.lt_succ_of_le hbound⟩
  · rintro ⟨⟨-, hall, hvalue⟩, hpos, hbound⟩
    rw [(hdigits n).mpr ⟨hall, hnumeral.trans hvalue, Nat.le_of_lt_succ hbound⟩]
    exact if_neg (Nat.pos_iff_ne_zero.mp hpos)

theorem narrowHookName_iff (value : List UInt16) (name : List UInt8) :
    narrowHookName value ≠ [] ∧ name = narrowHookName value ↔ Ascii value name := by
  rw [narrowHookName, narrowAscii, Ascii]
  by_cases hascii : value.all (· ≤ 0x7F) = true
  · have hall : ∀ c ∈ value, c ≤ 0x7F := fun c hc =>
      of_decide_eq_true (List.all_eq_true.mp hascii c hc)
    rw [if_pos hascii, ne_eq, List.map_eq_nil_iff]
    exact ⟨fun h => ⟨h.1, hall, h.2⟩, fun h => ⟨h.1, h.2.2⟩⟩
  · rw [if_neg hascii]
    refine ⟨fun h => absurd rfl h.1, fun h => ?_⟩
    exact absurd (List.all_eq_true.mpr fun c hc => decide_eq_true (h.2.1 c hc)) hascii

/-! ## One option -/

/-- What `--color` and `--status` accept. -/
theorem colorModeOption_apply {message : String} {set : TraceColorMode → Parse → Parse}
    {value : List UInt16} {p q : Parse} :
    (colorModeOption message set).apply value p = .ok q ↔
      ∃ mode, value = colorModeName mode ∧ q = set mode p := by
  rw [colorModeOption]
  dsimp only
  constructor
  · intro h
    split at h
    · rename_i hauto
      exact ⟨.auto, hauto, (Except.ok.inj h).symm⟩
    split at h
    · rename_i halways
      exact ⟨.always, halways, (Except.ok.inj h).symm⟩
    split at h
    · rename_i hnever
      exact ⟨.never, hnever, (Except.ok.inj h).symm⟩
    · cases h
  · rintro ⟨mode, rfl, rfl⟩
    cases mode with
    | auto => exact if_pos rfl
    | always =>
        rw [if_neg (by decide)]
        exact if_pos rfl
    | never =>
        rw [if_neg (by decide), if_neg (by decide)]
        exact if_pos rfl

theorem pidOption_apply {value : List UInt16} {p q : Parse} :
    pidOption.apply value p = .ok q ↔
      ∃ n, (OptionGroup.pid n).Values [value] ∧ q = (OptionGroup.pid n).effect p := by
  have happly : pidOption.apply value p = match parseProcessId value with
      | none => .error "--pid requires a positive process ID"
      | some processId => .ok { p with options.targetProcessId := processId } := rfl
  rw [happly]
  constructor
  · intro h
    cases hparse : parseProcessId value with
    | none =>
        rw [hparse] at h
        cases h
    | some n =>
        rw [hparse] at h
        exact ⟨n, ⟨value, rfl, (parseProcessId_iff value n).mp hparse⟩, (Except.ok.inj h).symm⟩
  · rintro ⟨n, ⟨value', hvalue, hn⟩, rfl⟩
    obtain rfl := List.head_eq_of_cons_eq hvalue
    rw [(parseProcessId_iff value n).mpr hn]
    rfl

theorem hookOption_apply {value : List UInt16} {p q : Parse} :
    hookOption.apply value p = .ok q ↔
      ∃ name, (OptionGroup.hook name).Values [value] ∧ q = (OptionGroup.hook name).effect p := by
  have happly : hookOption.apply value p =
      if narrowHookName value = [] then .error "Hook names must be ASCII"
      else .ok { p with requestedHooks := p.requestedHooks ++ [narrowHookName value] } := rfl
  rw [happly]
  constructor
  · intro h
    split at h
    · cases h
    · rename_i hne
      exact ⟨narrowHookName value, ⟨value, rfl, (narrowHookName_iff value _).mp ⟨hne, rfl⟩⟩,
        (Except.ok.inj h).symm⟩
  · rintro ⟨name, ⟨value', hvalue, hascii⟩, rfl⟩
    obtain rfl := List.head_eq_of_cons_eq hvalue
    obtain ⟨hne, rfl⟩ := (narrowHookName_iff value name).mpr hascii
    exact if_neg hne

theorem formatOption_apply {value : List UInt16} {p q : Parse} :
    formatOption.apply value p = .ok q ↔
      ∃ f, (OptionGroup.format f).Values [value] ∧ q = (OptionGroup.format f).effect p := by
  rw [formatOption]
  dsimp only
  constructor
  · intro h
    split at h
    · rename_i htext
      exact ⟨.text, congrArg (fun v => [v]) htext, (Except.ok.inj h).symm⟩
    split at h
    · rename_i hjsonl
      exact ⟨.jsonl, congrArg (fun v => [v]) hjsonl, (Except.ok.inj h).symm⟩
    · cases h
  · rintro ⟨f, hvalue, rfl⟩
    obtain rfl := List.head_eq_of_cons_eq hvalue
    cases f with
    | text => exact if_pos rfl
    | jsonl =>
        rw [if_neg (by decide)]
        exact if_pos rfl

/-- **ONE OPTION WITH A VALUE**: what it accepts is the value of a group. -/
theorem valueOption_sound {argument value : List UInt16} {option : ValueOption} {p q : Parse}
    (ho : valueOption argument = some option) (h : option.apply value p = .ok q) :
    ∃ g : OptionGroup, argument ∈ g.forms ∧ g.Values [value] ∧ q = g.effect p := by
  have hpair : ∀ {a b : List UInt16}, argument = a ∨ argument = b → argument ∈ [a, b] :=
    fun hab => hab.elim (fun ha => ha ▸ List.mem_cons_self)
      (fun hb => hb ▸ List.mem_cons_of_mem _ List.mem_cons_self)
  rw [valueOption] at ho
  split at ho
  · rename_i hform
    obtain rfl := Option.some.inj ho
    obtain ⟨n, hn⟩ := pidOption_apply.mp h
    exact ⟨.pid n, hpair hform, hn⟩
  split at ho
  · rename_i hform
    obtain rfl := Option.some.inj ho
    obtain ⟨name, hname⟩ := hookOption_apply.mp h
    exact ⟨.hook name, hpair hform, hname⟩
  split at ho
  · rename_i hform
    obtain rfl := Option.some.inj ho
    obtain ⟨f, hf⟩ := formatOption_apply.mp h
    exact ⟨.format f, hpair hform, hf⟩
  split at ho
  · rename_i hform
    obtain rfl := Option.some.inj ho
    exact ⟨.output value, hpair hform, rfl, (Except.ok.inj h).symm⟩
  split at ho
  · rename_i hform
    obtain rfl := Option.some.inj ho
    obtain ⟨mode, hvalue, hq⟩ := colorModeOption_apply.mp h
    exact ⟨.color mode, List.mem_singleton.mpr hform, congrArg (fun v => [v]) hvalue, hq⟩
  split at ho
  · rename_i hform
    obtain rfl := Option.some.inj ho
    obtain ⟨mode, hvalue, hq⟩ := colorModeOption_apply.mp h
    exact ⟨.status mode, List.mem_singleton.mpr hform, congrArg (fun v => [v]) hvalue, hq⟩
  · cases ho

/-- A group with a value is what its option does with the value. -/
theorem valueOption_complete {g : OptionGroup} {form value : List UInt16}
    (hform : form ∈ g.forms) (hvalue : g.Values [value]) (p : Parse) :
    ∃ option, valueOption form = some option ∧ option.apply value p = .ok (g.effect p) := by
  cases g with
  | pid n =>
      have happly := (pidOption_apply (p := p)).mpr ⟨n, hvalue, rfl⟩
      rcases List.mem_pair.mp hform with rfl | rfl
      · exact ⟨pidOption, rfl, happly⟩
      · exact ⟨pidOption, rfl, happly⟩
  | hook name =>
      have happly := (hookOption_apply (p := p)).mpr ⟨name, hvalue, rfl⟩
      rcases List.mem_pair.mp hform with rfl | rfl
      · exact ⟨hookOption, rfl, happly⟩
      · exact ⟨hookOption, rfl, happly⟩
  | format f =>
      have happly := (formatOption_apply (p := p)).mpr ⟨f, hvalue, rfl⟩
      rcases List.mem_pair.mp hform with rfl | rfl
      · exact ⟨formatOption, rfl, happly⟩
      · exact ⟨formatOption, rfl, happly⟩
  | output path =>
      obtain rfl := List.head_eq_of_cons_eq hvalue
      rcases List.mem_pair.mp hform with rfl | rfl
      · exact ⟨outputOption, rfl, rfl⟩
      · exact ⟨outputOption, rfl, rfl⟩
  | quiet => cases hvalue
  | color mode =>
      obtain rfl := List.head_eq_of_cons_eq hvalue
      obtain rfl := List.mem_singleton.mp hform
      exact ⟨colorOption, rfl, colorModeOption_apply.mpr ⟨mode, rfl, rfl⟩⟩
  | status mode =>
      obtain rfl := List.head_eq_of_cons_eq hvalue
      obtain rfl := List.mem_singleton.mp hform
      exact ⟨statusOption, rfl, colorModeOption_apply.mpr ⟨mode, rfl, rfl⟩⟩

/-! ## The loop, one group at a time -/

/-- Where the loop takes the next argument as a value. -/
theorem optionLoop_value {attach : Bool} {p : Parse} {argument value : List UInt16}
    {rest : List (List UInt16)} {option : ValueOption}
    (htarget : argument ≠ wcstr "--")
    (hpid : ¬ ((argument = wcstr "--pid" ∨ argument = wcstr "-p") ∧ attach = false))
    (hquiet : ¬ (argument = wcstr "--quiet" ∨ argument = wcstr "-q"))
    (ho : valueOption argument = some option) :
    optionLoop attach p (argument :: value :: rest) =
      match option.apply value p with
      | .error message => .error (failed p.options message)
      | .ok q => optionLoop attach q rest := by
  rw [optionLoop, if_neg htarget, if_neg hpid, if_neg hquiet, ho]

/-- No option is spelled `--`. -/
theorem forms_ne_target {g : OptionGroup} {form : List UInt16} (hform : form ∈ g.forms) :
    form ≠ wcstr "--" := by
  have hpair : ∀ {a b : List UInt16}, a ≠ wcstr "--" → b ≠ wcstr "--" → form ∈ [a, b] →
      form ≠ wcstr "--" := by
    intro a b ha hb hmem
    rcases List.mem_pair.mp hmem with rfl | rfl
    · exact ha
    · exact hb
  cases g with
  | pid n => exact hpair (by decide) (by decide) hform
  | hook name => exact hpair (by decide) (by decide) hform
  | format f => exact hpair (by decide) (by decide) hform
  | output path => exact hpair (by decide) (by decide) hform
  | quiet => exact hpair (by decide) (by decide) hform
  | color mode => exact List.mem_singleton.mp hform ▸ by decide
  | status mode => exact List.mem_singleton.mp hform ▸ by decide

/-- An option with a value is not `--quiet`. -/
theorem valueOption_ne_quiet {form : List UInt16} {option : ValueOption}
    (ho : valueOption form = some option) :
    ¬ (form = wcstr "--quiet" ∨ form = wcstr "-q") := by
  rintro (rfl | rfl)
  · cases ho
  · cases ho

/-- An option is allowed where its form passes the check of `--pid`. -/
theorem allowed_iff {attach : Bool} {g : OptionGroup} {form : List UInt16}
    (hform : form ∈ g.forms) :
    g.Allowed attach ↔
      ¬ ((form = wcstr "--pid" ∨ form = wcstr "-p") ∧ attach = false) := by
  have hpair : ∀ {a b : List UInt16}, a ≠ wcstr "--pid" ∧ a ≠ wcstr "-p" →
      b ≠ wcstr "--pid" ∧ b ≠ wcstr "-p" → form ∈ [a, b] →
      ¬ ((form = wcstr "--pid" ∨ form = wcstr "-p") ∧ attach = false) := by
    rintro a b ha hb hmem ⟨hpid, -⟩
    rcases List.mem_pair.mp hmem with rfl | rfl
    · exact hpid.elim ha.1 ha.2
    · exact hpid.elim hb.1 hb.2
  cases g with
  | pid n =>
      rw [not_and_or, Bool.not_eq_false]
      exact ⟨Or.inr, fun h => h.resolve_left (not_not_intro (List.mem_pair.mp hform))⟩
  | hook name => exact iff_of_true trivial (hpair (by decide) (by decide) hform)
  | format f => exact iff_of_true trivial (hpair (by decide) (by decide) hform)
  | output path => exact iff_of_true trivial (hpair (by decide) (by decide) hform)
  | quiet => exact iff_of_true trivial (hpair (by decide) (by decide) hform)
  | color mode =>
      exact iff_of_true trivial (hpair (a := wcstr "--color") (b := wcstr "--color")
        (by decide) (by decide) (List.mem_pair.mpr (Or.inl (List.mem_singleton.mp hform))))
  | status mode =>
      exact iff_of_true trivial (hpair (a := wcstr "--status") (b := wcstr "--status")
        (by decide) (by decide) (List.mem_pair.mpr (Or.inl (List.mem_singleton.mp hform))))

/-- **ONE GROUP**: the loop goes past a group with its effect. -/
theorem optionLoop_group {attach : Bool} {g : OptionGroup} {words : List (List UInt16)}
    (hg : Written g words) (hallowed : g.Allowed attach) (p : Parse)
    (rest : List (List UInt16)) :
    optionLoop attach p (words ++ rest) = optionLoop attach (g.effect p) rest := by
  obtain ⟨form, hform, values, hvalues, rfl⟩ := hg
  have hpid := (allowed_iff hform).mp hallowed
  have htarget := forms_ne_target hform
  have htakes : ∀ value, values = [value] →
      optionLoop attach p (form :: values ++ rest) = optionLoop attach (g.effect p) rest := by
    rintro value rfl
    obtain ⟨option, ho, happly⟩ := valueOption_complete hform hvalues p
    rw [List.cons_append, List.singleton_append,
      optionLoop_value htarget hpid (valueOption_ne_quiet ho) ho, happly]
  cases g with
  | pid n => exact htakes _ hvalues.choose_spec.1
  | hook name => exact htakes _ hvalues.choose_spec.1
  | format f => exact htakes _ hvalues
  | output path => exact htakes _ hvalues
  | color mode => exact htakes _ hvalues
  | status mode => exact htakes _ hvalues
  | quiet =>
      obtain rfl : values = [] := hvalues
      rw [List.cons_append, List.nil_append, optionLoop, if_neg htarget, if_neg hpid,
        if_pos (List.mem_pair.mp hform)]
      rfl

/-- What the loop does at an argument where it does not fail. -/
theorem optionLoop_cases {attach : Bool} {p q : Parse} {argument : List UInt16}
    {rest behind : List (List UInt16)}
    (h : optionLoop attach p (argument :: rest) = .ok (q, behind)) :
    (attach = false ∧ argument = wcstr "--" ∧ q = p ∧ behind = rest) ∨
      ∃ g words rest', Written g words ∧ g.Allowed attach ∧ argument :: rest = words ++ rest' ∧
        rest'.length < (argument :: rest).length ∧
        optionLoop attach (g.effect p) rest' = .ok (q, behind) := by
  rw [optionLoop] at h
  split at h
  · rename_i htarget
    cases attach with
    | true => cases h
    | false =>
        obtain ⟨rfl, rfl⟩ := Prod.mk.inj (Except.ok.inj h)
        exact Or.inl ⟨rfl, htarget, rfl, rfl⟩
  split at h
  · cases h
  rename_i hpid
  split at h
  · rename_i hquiet
    exact Or.inr ⟨.quiet, [argument], rest,
      ⟨argument, List.mem_pair.mpr hquiet, [], rfl, rfl⟩, trivial, rfl, Nat.lt_succ_self _, h⟩
  cases ho : valueOption argument with
  | none =>
      rw [ho] at h
      cases h
  | some option =>
      rw [ho] at h
      cases rest with
      | nil => cases h
      -- whatever stands behind the option is its value, also another option or `--`
      | cons value rest =>
          dsimp only at h
          cases happly : option.apply value p with
          | error message =>
              rw [happly] at h
              cases h
          | ok next =>
              rw [happly] at h
              obtain ⟨g, hform, hvalue, rfl⟩ := valueOption_sound ho happly
              exact Or.inr ⟨g, [argument, value], rest, ⟨argument, hform, [value], hvalue, rfl⟩,
                (allowed_iff hform).mpr hpid, rfl,
                Nat.lt_succ_of_lt (Nat.lt_succ_self _), h⟩

/-- The effects of a sequence of groups. -/
def effects (groups : List OptionGroup) (p : Parse) : Parse :=
  groups.foldl (fun p g => g.effect p) p

/-- **THE LOOP**: it ends without an error on exactly the sequences of groups, at the
    end of the arguments or behind a `--`. -/
theorem optionLoop_iff {attach : Bool} {p q : Parse} {arguments behind : List (List UInt16)} :
    optionLoop attach p arguments = .ok (q, behind) ↔
      ∃ groups words, Groups attach groups words ∧ q = effects groups p ∧
        (arguments = words ∧ behind = []
          ∨ attach = false ∧ arguments = words ++ wcstr "--" :: behind) := by
  constructor
  · intro h
    -- a group takes one argument or two, so the induction is on how many are left
    induction hlength : arguments.length using Nat.strong_induction_on
      generalizing p arguments with
    | _ length ih =>
        cases arguments with
        | nil =>
            obtain ⟨rfl, rfl⟩ := Prod.mk.inj (Except.ok.inj h)
            exact ⟨[], [], .nil, rfl, Or.inl ⟨rfl, rfl⟩⟩
        | cons argument rest =>
            rcases optionLoop_cases h with ⟨hattach, rfl, rfl, rfl⟩ |
              ⟨g, first, rest', hg, hallowed, hsplit, hshorter, hrest⟩
            · exact ⟨[], [], .nil, rfl, Or.inr ⟨hattach, rfl⟩⟩
            · obtain ⟨groups, words, hgroups, hq, hends⟩ :=
                ih _ (hlength ▸ hshorter) hrest rfl
              refine ⟨g :: groups, first ++ words, .cons hg hallowed hgroups, hq, ?_⟩
              rcases hends with ⟨rfl, hbehind⟩ | ⟨hattach, rfl⟩
              · exact Or.inl ⟨hsplit, hbehind⟩
              · exact Or.inr ⟨hattach, hsplit.trans (List.append_assoc _ _ _).symm⟩
  · rintro ⟨groups, words, hgroups, rfl, hends⟩
    -- the groups are passed one by one, and their effects add up
    have hpast : ∀ rest, optionLoop attach p (words ++ rest)
        = optionLoop attach (effects groups p) rest := by
      clear hends
      induction hgroups generalizing p with
      | nil => exact fun rest => rfl
      | cons hg hallowed _ ih =>
          intro rest
          rw [List.append_assoc, optionLoop_group hg hallowed, ih]
          rfl
    rcases hends with ⟨rfl, rfl⟩ | ⟨rfl, rfl⟩
    · rw [← List.append_nil arguments, hpast]
      rfl
    · rw [hpast, optionLoop, if_pos rfl]
      rfl

/-! ## The last value of each option -/

theorem lastOf_cons {V : Type} (value : OptionGroup → Option V) (g : OptionGroup)
    (groups : List OptionGroup) (default : V) :
    lastOf value (g :: groups) default = lastOf value groups ((value g).getD default) := by
  rw [lastOf, lastOf, List.filterMap_cons]
  cases value g with
  | none => rfl
  | some v =>
      dsimp only
      rw [List.getLast?_cons]
      rfl

/-- `--format` was given. -/
def formatGiven (groups : List OptionGroup) : Bool :=
  groups.any fun g => (g.formatValue).isSome

/-- **THE LAST VALUES**: the variables behind a sequence of groups. -/
theorem effects_eq (groups : List OptionGroup) (p : Parse) :
    effects groups p =
      { options :=
          { p.options with
            targetProcessId := lastOf OptionGroup.pidValue groups p.options.targetProcessId
            output :=
              { format := lastOf OptionGroup.formatValue groups p.options.output.format
                outputPath := lastOf OptionGroup.outputValue groups p.options.output.outputPath
                quiet := lastOf OptionGroup.quietValue groups p.options.output.quiet
                color := lastOf OptionGroup.colorValue groups p.options.output.color
                status := lastOf OptionGroup.statusValue groups p.options.output.status } }
        requestedHooks := p.requestedHooks ++ groups.filterMap OptionGroup.hookValue
        formatSpecified := p.formatSpecified || formatGiven groups } := by
  induction groups generalizing p with
  | nil =>
      show p = _
      rw [List.filterMap_nil, List.append_nil, formatGiven, List.any_nil, Bool.or_false]
      rfl
  | cons g groups ih =>
      have hstep : effects (g :: groups) p = effects groups (g.effect p) := rfl
      rw [hstep, ih]
      simp only [lastOf_cons, formatGiven, List.any_cons, List.filterMap_cons]
      cases g with
      | hook name => simp [OptionGroup.effect, OptionGroup.pidValue, OptionGroup.hookValue,
          OptionGroup.formatValue, OptionGroup.outputValue, OptionGroup.quietValue,
          OptionGroup.colorValue, OptionGroup.statusValue]
      | format f => simp [OptionGroup.effect, OptionGroup.pidValue, OptionGroup.hookValue,
          OptionGroup.formatValue, OptionGroup.outputValue, OptionGroup.quietValue,
          OptionGroup.colorValue, OptionGroup.statusValue]
      | pid n => rfl
      | output path => rfl
      | quiet => rfl
      | color mode => rfl
      | status mode => rfl

/-- A value that is given to an option stays, or a later one does. -/
theorem lastOf_mem {V : Type} (value : OptionGroup → Option V) (groups : List OptionGroup)
    (default : V) :
    (∀ g ∈ groups, value g = none) ∧ lastOf value groups default = default ∨
      ∃ g ∈ groups, value g = some (lastOf value groups default) := by
  rw [lastOf]
  cases h : (groups.filterMap value).getLast? with
  | none =>
      rw [List.getLast?_eq_none_iff, List.filterMap_eq_nil_iff] at h
      exact Or.inl ⟨h, rfl⟩
  | some v => exact Or.inr (List.mem_filterMap.mp (List.mem_of_getLast? h))

theorem formatGiven_iff (groups : List OptionGroup) :
    formatGiven groups = true ↔ ∃ f, OptionGroup.format f ∈ groups := by
  rw [formatGiven, List.any_eq_true]
  constructor
  · rintro ⟨g, hg, hsome⟩
    cases g with
    | format f => exact ⟨f, hg⟩
    | _ => cases hsome
  · rintro ⟨f, hf⟩
    exact ⟨_, hf, rfl⟩

theorem quiet_iff (groups : List OptionGroup) :
    lastOf OptionGroup.quietValue groups false = true ↔ OptionGroup.quiet ∈ groups := by
  rcases lastOf_mem OptionGroup.quietValue groups false with ⟨hnone, hlast⟩ | ⟨g, hg, hlast⟩
  · rw [hlast]
    exact ⟨(fun h => nomatch h), fun h => nomatch hnone _ h⟩
  · cases g with
    | quiet => exact ⟨fun _ => hg, fun _ => (Option.some.inj hlast).symm⟩
    | _ => cases hlast

/-! ## The requested hooks -/

/-- The hooks that are added one by one: those whose name is not there yet, without
    repetitions. -/
theorem foldl_addHook (requested hooks : List HookDefinition) :
    requested.foldl addHook hooks
      = hooks ++ (requested.filter fun h => !hooks.any (sameName h)).eraseDupsBy sameName := by
  induction requested generalizing hooks with
  | nil => exact (List.append_nil hooks).symm
  | cons h rest ih =>
      have hnames : hooks.any (·.canonicalName = h.canonicalName) = hooks.any (sameName h) :=
        congrArg hooks.any (funext fun g => decide_eq_decide.mpr eq_comm)
      rw [List.foldl_cons, addHook, hnames, List.filter_cons]
      cases hthere : hooks.any (sameName h) with
      | true =>
          rw [if_pos rfl, ih]
          rfl
      | false =>
          -- a name that is added now is left out of the rest, as `eraseDupsBy` does
          have hfilter : (rest.filter fun g => !(hooks ++ [h]).any (sameName g))
              = (rest.filter fun g => !hooks.any (sameName g)).filter
                  fun g => sameName g h = false := by
            rw [List.filter_filter]
            refine List.filter_congr fun g _ => ?_
            rw [List.any_append, List.any_cons, List.any_nil, Bool.or_false]
            cases sameName g h <;> simp
          rw [if_neg Bool.false_ne_true, ih, hfilter, List.append_assoc, Bool.not_false,
            if_pos rfl, List.eraseDupsBy_cons]
          rfl

theorem selectHooks_eq (requested : List HookDefinition) :
    requested.foldl addHook [] = requested.eraseDupsBy sameName := by
  rw [foldl_addHook, List.nil_append]
  exact congrArg _ (List.filter_eq_self.mpr fun h _ => rfl)

/-- Where the separator of a name is. -/
theorem idxOf_separator {moduleName exportName : List UInt8} (h : 33 ∉ moduleName) :
    (moduleName ++ 33 :: exportName).idxOf 33 = moduleName.length := by
  rw [List.idxOf_append_of_notMem h, List.idxOf_cons_self, Nat.add_zero]

/-- A name with a separator that is not bad, and its two parts. -/
theorem goodSeparator {moduleName exportName : List UInt8} (hm : 33 ∉ moduleName) :
    ¬ badSeparator (moduleName ++ 33 :: exportName) ↔
      33 ∉ exportName ∧ moduleName ≠ [] ∧ exportName ≠ [] := by
  have hdrop : (moduleName ++ 33 :: exportName).drop (moduleName.length + 1) = exportName := by
    rw [List.drop_append, List.drop_of_length_le (Nat.le_succ _), Nat.add_sub_cancel_left]
    rfl
  rw [badSeparator, idxOf_separator hm, hdrop, List.length_append, List.length_cons,
    List.length_eq_zero_iff]
  constructor
  · intro h
    refine ⟨fun hmem => h (Or.inr (Or.inr (Or.inr hmem))), fun hnil => h (Or.inr (Or.inl hnil)),
      ?_⟩
    rintro rfl
    exact h (Or.inr (Or.inr (Or.inl rfl)))
  · rintro ⟨he, hmne, hene⟩ (hnone | hnil | hlast | hmem)
    · exact hnone (List.mem_append_right _ List.mem_cons_self)
    · exact hmne hnil
    · exact hene (List.length_eq_zero_iff.mp (by omega))
    · exact he hmem

theorem canonicalNameOf_eq {moduleName exportName : List UInt8} (h : 33 ∉ moduleName) :
    canonicalNameOf (moduleName ++ 33 :: exportName)
      = normalizeModuleName moduleName ++ 33 :: exportName := by
  rw [canonicalNameOf, idxOf_separator h, List.take_left, List.drop_left]

section
variable {available : List HookDefinition}

/-- **ONE REQUEST**: it is expanded in front of the others. -/
theorem expand_request {name : List UInt8} {hooks : List HookDefinition}
    (h : Expands available name hooks) (options : CommandLineOptions)
    (rest : List (List UInt8)) :
    expandAndValidateHooks available options (name :: rest)
      = expandAndValidateHooks available
          { options with hooks := hooks.foldl addHook options.hooks } rest := by
  cases h with
  | all => rw [expandAndValidateHooks, if_pos rfl]
  | @named moduleName exportName hook hm he hmne hene hfind =>
      have hall : moduleName ++ 33 :: exportName ≠ cstr "all" := by
        intro heq
        have hmem : (33 : UInt8) ∈ cstr "all" :=
          heq ▸ List.mem_append_right _ List.mem_cons_self
        exact absurd hmem (by decide)
      rw [expandAndValidateHooks, if_neg hall, if_neg ((goodSeparator hm).mpr ⟨he, hmne, hene⟩),
        canonicalNameOf_eq hm, findSupportedHook, hfind]
      rfl

/-- A request that does not fail asks for hooks that there are. -/
theorem expand_cases {name : List UInt8} {options o : CommandLineOptions}
    {rest : List (List UInt8)}
    (h : expandAndValidateHooks available options (name :: rest) = .ok o) :
    ∃ hooks, Expands available name hooks := by
  rw [expandAndValidateHooks] at h
  split at h
  · rename_i hall
    exact ⟨available, hall ▸ .all⟩
  split at h
  · cases h
  rename_i hgood
  have hmem : 33 ∈ name := by
    by_contra hnone
    exact hgood (Or.inl hnone)
  obtain ⟨moduleName, exportName, rfl, hm⟩ := List.eq_append_cons_of_mem hmem
  obtain ⟨he, hmne, hene⟩ := (goodSeparator hm).mp hgood
  rw [canonicalNameOf_eq hm, findSupportedHook] at h
  cases hfind : available.find?
      (·.canonicalName = normalizeModuleName moduleName ++ 33 :: exportName) with
  | none =>
      rw [hfind] at h
      cases h
  | some hook => exact ⟨[hook], .named hm he hmne hene hfind⟩

/-- **THE REQUESTS**: all are expanded in their order. -/
theorem expandAndValidateHooks_iff {options o : CommandLineOptions}
    {requests : List (List UInt8)} :
    expandAndValidateHooks available options requests = .ok o ↔
      ∃ expansions, List.Forall₂ (Expands available) requests expansions ∧
        o = { options with hooks := expansions.flatten.foldl addHook options.hooks } ∧
        o.hooks ≠ [] := by
  constructor
  · intro h
    induction requests generalizing options with
    | nil =>
        rw [expandAndValidateHooks] at h
        split at h
        · cases h
        · rename_i hne
          obtain rfl := Except.ok.inj h
          exact ⟨[], .nil, rfl, hne⟩
    | cons name rest ih =>
        obtain ⟨hooks, hname⟩ := expand_cases h
        rw [expand_request hname] at h
        obtain ⟨expansions, hrest, ho, hne⟩ := ih h
        refine ⟨hooks :: expansions, .cons hname hrest, ?_, hne⟩
        rw [ho, List.flatten_cons, List.foldl_append]
  · rintro ⟨expansions, hexpands, ho, hne⟩
    induction hexpands generalizing options with
    | nil =>
        obtain rfl : o = options := ho
        exact if_neg hne
    | cons hname _ ih =>
        rw [expand_request hname]
        refine ih ?_
        rw [ho, List.flatten_cons, List.foldl_append]

end

/-! ## Behind the loop -/

theorem checkTarget_iff {attach : Bool} {options o : CommandLineOptions}
    {rest : List (List UInt16)} :
    checkTarget attach options rest = .ok o ↔
      if attach then rest = [] ∧ options.targetProcessId ≠ 0 ∧ o = options
      else rest ≠ [] ∧ o = { options with targetArguments := options.targetArguments ++ rest } := by
  rw [checkTarget]
  cases attach with
  | true =>
      by_cases hrest : rest = []
      · by_cases hpid : options.targetProcessId = 0
        · simp [hrest, hpid]
        · simp [hrest, hpid, eq_comm]
      · simp [hrest]
  | false =>
      by_cases hrest : rest = []
      · simp [hrest]
      · simp [hrest, eq_comm]

theorem checkOutput_iff {formatSpecified : Bool} {options o : CommandLineOptions} :
    checkOutput formatSpecified options = .ok o ↔
      (formatSpecified = true ∨ options.output.quiet = true → options.output.outputPath ≠ [])
        ∧ o = options := by
  rw [checkOutput]
  by_cases hformat : formatSpecified = true ∧ options.output.outputPath = []
  · rw [if_pos hformat]
    exact ⟨(fun h => nomatch h), fun h => absurd hformat.2 (h.1 (Or.inl hformat.1))⟩
  rw [if_neg hformat]
  by_cases hquiet : options.output.quiet = true ∧ options.output.outputPath = []
  · rw [if_pos hquiet]
    exact ⟨(fun h => nomatch h), fun h => absurd hquiet.2 (h.1 (Or.inr hquiet.1))⟩
  rw [if_neg hquiet]
  constructor
  · intro h
    refine ⟨?_, (Except.ok.inj h).symm⟩
    rintro (hgiven | hgiven) hpath
    · exact hformat ⟨hgiven, hpath⟩
    · exact hquiet ⟨hgiven, hpath⟩
  · rintro ⟨-, rfl⟩
    rfl

theorem bind_eq_ok {α β : Type} {x : Except CommandLineOptions α}
    {f : α → Except CommandLineOptions β} {b : β} :
    (x >>= f) = .ok b ↔ ∃ a, x = .ok a ∧ f a = .ok b := by
  cases x with
  | error e => exact ⟨(fun h => nomatch h), fun ⟨_, h, _⟩ => nomatch h⟩
  | ok a =>
      constructor
      · exact fun h => ⟨a, rfl, h⟩
      · rintro ⟨a', ha, h⟩
        obtain rfl := Except.ok.inj ha
        exact h

/-- A group of a sequence is written in its arguments. -/
theorem Groups.written {attach : Bool} {groups : List OptionGroup}
    {words : List (List UInt16)} (h : Groups attach groups words) {g : OptionGroup}
    (hg : g ∈ groups) : ∃ words, Written g words := by
  induction h with
  | nil => cases hg
  | cons hfirst _ _ ih =>
      rcases List.mem_cons.mp hg with rfl | hg
      · exact ⟨_, hfirst⟩
      · exact ih hg

/-- The last process ID is zero where none was given. -/
theorem lastOf_pid {attach : Bool} {groups : List OptionGroup} {words : List (List UInt16)}
    (h : Groups attach groups words) :
    lastOf OptionGroup.pidValue groups 0 ≠ 0 ↔ ∃ n, OptionGroup.pid n ∈ groups := by
  rcases lastOf_mem OptionGroup.pidValue groups 0 with ⟨hnone, hlast⟩ | ⟨g, hg, hlast⟩
  · exact ⟨fun hne => absurd hlast hne, fun ⟨n, hn⟩ => nomatch hnone _ hn⟩
  · cases g with
    | pid n =>
        obtain ⟨words, form, -, values, ⟨value, -, -, hpos, -⟩, -⟩ := h.written hg
        rw [← Option.some.inj hlast]
        exact ⟨fun _ => ⟨n, hg⟩, fun _ => Nat.pos_iff_ne_zero.mp hpos⟩
    | _ => cases hlast

/-- The variables behind the loop. -/
theorem effects_start (groups : List OptionGroup) :
    effects groups ⟨initialOptions, [], false⟩ =
      { options :=
          { initialOptions with
            targetProcessId := lastOf OptionGroup.pidValue groups 0
            output :=
              { format := lastOf OptionGroup.formatValue groups .text
                outputPath := lastOf OptionGroup.outputValue groups []
                quiet := lastOf OptionGroup.quietValue groups false
                color := lastOf OptionGroup.colorValue groups .auto
                status := lastOf OptionGroup.statusValue groups .auto } }
        requestedHooks := groups.filterMap OptionGroup.hookValue
        formatSpecified := formatGiven groups } :=
  effects_eq groups _

/-- The options of the loop, with the arguments of the target. -/
def targetOptions (groups : List OptionGroup) (targets : List (List UInt16)) :
    CommandLineOptions :=
  { (effects groups ⟨initialOptions, [], false⟩).options with targetArguments := targets }

/-- What the loop and the check behind it accept. -/
theorem loop_iff {attach : Bool} {arguments : List (List UInt16)} {p : Parse}
    {o : CommandLineOptions} :
    (∃ rest, optionLoop attach ⟨initialOptions, [], false⟩ arguments = .ok (p, rest) ∧
        checkTarget attach p.options rest = .ok o) ↔
      ∃ groups words targets, Groups attach groups words ∧
        arguments = words ++ behindGroups attach targets ∧
        (if attach then targets = [] ∧ ∃ n, OptionGroup.pid n ∈ groups else targets ≠ []) ∧
        p = effects groups ⟨initialOptions, [], false⟩ ∧ o = targetOptions groups targets := by
  constructor
  · rintro ⟨rest, hloop, hcheck⟩
    obtain ⟨groups, words, hgroups, rfl, hends⟩ := optionLoop_iff.mp hloop
    rw [checkTarget_iff] at hcheck
    cases attach with
    | true =>
        obtain ⟨rfl, hpid, rfl⟩ := hcheck
        rw [effects_start] at hpid
        rcases hends with ⟨rfl, -⟩ | ⟨hno, -⟩
        · refine ⟨groups, arguments, [], hgroups, (List.append_nil _).symm,
            ⟨rfl, (lastOf_pid hgroups).mp hpid⟩, rfl, ?_⟩
          rw [targetOptions, effects_start]
          rfl
        · cases hno
    | false =>
        obtain ⟨hne, rfl⟩ := hcheck
        rcases hends with ⟨-, hnil⟩ | ⟨-, rfl⟩
        · exact absurd hnil hne
        · refine ⟨groups, words, rest, hgroups, rfl, hne, rfl, ?_⟩
          rw [targetOptions, effects_start]
          rfl
  · rintro ⟨groups, words, targets, hgroups, rfl, htarget, rfl, rfl⟩
    cases attach with
    | true =>
        obtain ⟨rfl, hpid⟩ := htarget
        refine ⟨[], optionLoop_iff.mpr ⟨groups, words, hgroups, rfl,
          Or.inl ⟨List.append_nil _, rfl⟩⟩, checkTarget_iff.mpr ⟨rfl, ?_, ?_⟩⟩
        · rw [effects_start]
          exact (lastOf_pid hgroups).mpr hpid
        · rw [targetOptions, effects_start]
          rfl
    | false =>
        refine ⟨targets, optionLoop_iff.mpr ⟨groups, words, hgroups, rfl, Or.inr ⟨rfl, rfl⟩⟩,
          checkTarget_iff.mpr ⟨htarget, ?_⟩⟩
        rw [targetOptions, effects_start]
        rfl

/-- The checks of `--format` and `--quiet` are those of the grammar. -/
theorem targetOutput_iff (groups : List OptionGroup) (targets : List (List UInt16)) :
    ((effects groups ⟨initialOptions, [], false⟩).formatSpecified = true
        ∨ (targetOptions groups targets).output.quiet = true →
      (targetOptions groups targets).output.outputPath ≠ []) ↔
      ((∃ f, OptionGroup.format f ∈ groups) ∨ OptionGroup.quiet ∈ groups →
        lastOf OptionGroup.outputValue groups [] ≠ []) := by
  rw [targetOptions, effects_start, ← formatGiven_iff, ← quiet_iff]

/-- The options that are returned for a sequence of groups. -/
theorem acceptedOptions_eq (attach : Bool) (groups : List OptionGroup)
    (targets : List (List UInt16)) (expansions : List (List HookDefinition)) :
    acceptedOptions attach groups targets (expansions.flatten.eraseDupsBy sameName) =
      { targetOptions groups targets with
        hooks := expansions.flatten.foldl addHook (targetOptions groups targets).hooks
        mode := if attach then .attach else .run } := by
  have hhooks : (targetOptions groups targets).hooks = [] := by
    rw [targetOptions, effects_start]
    rfl
  rw [hhooks, selectHooks_eq, targetOptions, effects_start]
  cases attach <;> rfl

/-- **`run` AND `attach`**: the branch returns the options of the grammar. -/
theorem parseTraceCommand_iff {attach : Bool} {available : List HookDefinition}
    {arguments : List (List UInt16)} {o : CommandLineOptions} (program : List UInt16) :
    parseTraceCommand attach available arguments = .ok o ↔
      ∃ groups targets hooks,
        Accepts available attach (program :: commandWord attach :: arguments) groups targets hooks
          ∧ o = acceptedOptions attach groups targets hooks := by
  have hrequests : ∀ groups, (effects groups ⟨initialOptions, [], false⟩).requestedHooks
      = groups.filterMap OptionGroup.hookValue := fun groups => by rw [effects_start]
  have hnone : ∀ groups targets, (targetOptions groups targets).hooks = [] := by
    intro groups targets
    rw [targetOptions, effects_start]
    rfl
  constructor
  · intro h
    obtain ⟨⟨p, rest⟩, hloop, h⟩ := bind_eq_ok.mp h
    obtain ⟨checked, hcheck, h⟩ := bind_eq_ok.mp h
    -- the loop and the check behind it: groups of options, then the target
    obtain ⟨groups, words, targets, hgroups, rfl, htarget, rfl, rfl⟩ :=
      loop_iff.mp ⟨rest, hloop, hcheck⟩
    obtain ⟨output, houtput, h⟩ := bind_eq_ok.mp h
    obtain ⟨hpath, rfl⟩ := checkOutput_iff.mp houtput
    obtain ⟨final, hexpand, h⟩ := bind_eq_ok.mp h
    obtain ⟨expansions, hexpands, rfl, hne⟩ := expandAndValidateHooks_iff.mp hexpand
    obtain rfl := Except.ok.inj h
    rw [hrequests] at hexpands
    rw [hnone, selectHooks_eq] at hne
    exact ⟨groups, targets, _,
      { words := ⟨program, words, hgroups, rfl⟩
        target := htarget
        output := (targetOutput_iff groups targets).mp hpath
        expanded := ⟨expansions, hexpands, rfl⟩
        some := hne },
      (acceptedOptions_eq attach groups targets expansions).symm⟩
  · rintro ⟨groups, targets, hooks, haccepts, rfl⟩
    obtain ⟨program', words, hgroups, hargv⟩ := haccepts.words
    obtain ⟨expansions, hexpands, rfl⟩ := haccepts.expanded
    obtain rfl := (List.cons.inj (List.cons.inj hargv).2).2
    obtain ⟨rest, hloop, hcheck⟩ := loop_iff.mpr
      ⟨groups, words, targets, hgroups, rfl, haccepts.target, rfl, rfl⟩
    have houtput := checkOutput_iff.mpr
      ⟨(targetOutput_iff groups targets).mpr haccepts.output, rfl⟩
    have hne : expansions.flatten.foldl addHook (targetOptions groups targets).hooks ≠ [] := by
      rw [hnone, selectHooks_eq]
      exact haccepts.some
    have hexpand := expandAndValidateHooks_iff.mpr
      ⟨expansions, (hrequests groups).symm ▸ hexpands, rfl, hne⟩
    refine bind_eq_ok.mpr ⟨_, hloop, bind_eq_ok.mpr ⟨_, hcheck,
      bind_eq_ok.mpr ⟨_, houtput, bind_eq_ok.mpr ⟨_, hexpand, ?_⟩⟩⟩⟩
    exact congrArg Except.ok (acceptedOptions_eq attach groups targets expansions).symm

/-! ## Errors -/

/-- What is returned with an error: the mode that says so, and a text. -/
def Failed (o : CommandLineOptions) : Prop := o.mode = .error ∧ o.error ≠ []

theorem failed_failed {options : CommandLineOptions} {message : String}
    (hmode : options.mode = .error) (hmessage : cstr message ≠ []) :
    Failed (failed options message) :=
  ⟨hmode, hmessage⟩

/-- Steps of which each fails with an error that says so. -/
theorem bind_failed {α β : Type} {x : Except CommandLineOptions α}
    {f : α → Except CommandLineOptions β} {o : CommandLineOptions}
    (hx : ∀ e, x = .error e → Failed e) (hf : ∀ a, x = .ok a → ∀ e, f a = .error e → Failed e)
    (h : (x >>= f) = .error o) : Failed o := by
  cases x with
  | error e => exact hx o (Except.error.inj h ▸ rfl)
  | ok a => exact hf a rfl o h

theorem effect_mode (g : OptionGroup) (p : Parse) :
    (g.effect p).options.mode = p.options.mode := by
  cases g <;> rfl

/-- Every option has something to say about a value it does not accept. -/
theorem valueOption_message {argument value : List UInt16} {option : ValueOption} {p : Parse}
    {message : String} (ho : valueOption argument = some option)
    (h : message = option.missing ∨ option.apply value p = .error message) :
    cstr message ≠ [] := by
  -- `--color` and `--status` differ in their text and in what they set
  have hcolor : ∀ {text : String} {set : TraceColorMode → Parse → Parse}, cstr text ≠ [] →
      message = text ∨ (colorModeOption text set).apply value p = .error message →
      cstr message ≠ [] := by
    intro text set htext h
    rcases h with rfl | h
    · exact htext
    · rw [colorModeOption] at h
      dsimp only at h
      split at h
      · cases h
      split at h
      · cases h
      split at h
      · cases h
      · exact Except.error.inj h ▸ htext
  rw [valueOption] at ho
  split at ho
  · obtain rfl := Option.some.inj ho
    rcases h with rfl | h
    · decide
    · rw [pidOption] at h
      dsimp only at h
      split at h
      · exact Except.error.inj h ▸ by decide
      · cases h
  split at ho
  · obtain rfl := Option.some.inj ho
    rcases h with rfl | h
    · decide
    · rw [hookOption] at h
      dsimp only at h
      split at h
      · exact Except.error.inj h ▸ by decide
      · cases h
  split at ho
  · obtain rfl := Option.some.inj ho
    rcases h with rfl | h
    · decide
    · rw [formatOption] at h
      dsimp only at h
      split at h
      · cases h
      split at h
      · cases h
      · exact Except.error.inj h ▸ by decide
  split at ho
  · obtain rfl := Option.some.inj ho
    rcases h with rfl | h
    · decide
    · cases h
  split at ho
  · obtain rfl := Option.some.inj ho
    exact hcolor (by decide) h
  split at ho
  · obtain rfl := Option.some.inj ho
    exact hcolor (by decide) h
  · cases ho

theorem optionLoop_failed {attach : Bool} {p : Parse} {arguments : List (List UInt16)}
    {o : CommandLineOptions} (hp : p.options.mode = .error)
    (h : optionLoop attach p arguments = .error o) : Failed o := by
  induction hlength : arguments.length using Nat.strong_induction_on
    generalizing p arguments with
  | _ length ih =>
      cases arguments with
      | nil => cases h
      | cons argument rest =>
          rw [optionLoop] at h
          split at h
          · split at h
            · exact Except.error.inj h ▸ failed_failed hp (by decide)
            · cases h
          split at h
          · exact Except.error.inj h ▸ failed_failed hp (by decide)
          split at h
          · refine ih rest.length (hlength ▸ Nat.lt_succ_self _) ?_ h rfl
            exact hp
          cases ho : valueOption argument with
          | none =>
              rw [ho] at h
              exact Except.error.inj h ▸ failed_failed hp (by decide)
          | some option =>
              rw [ho] at h
              cases rest with
              | nil =>
                  have hmissing : cstr option.missing ≠ [] :=
                    @valueOption_message _ [] _ p _ ho (Or.inl rfl)
                  exact Except.error.inj h ▸ ⟨hp, hmissing⟩
              | cons value rest =>
                  dsimp only at h
                  cases happly : option.apply value p with
                  | error message =>
                      rw [happly] at h
                      exact Except.error.inj h ▸
                        ⟨hp, valueOption_message ho (Or.inr happly)⟩
                  | ok next =>
                      rw [happly] at h
                      obtain ⟨g, -, -, rfl⟩ := valueOption_sound ho happly
                      exact ih rest.length (hlength ▸ Nat.lt_succ_of_lt (Nat.lt_succ_self _))
                        ((effect_mode g p).trans hp) h rfl

theorem checkTarget_failed {attach : Bool} {options o : CommandLineOptions}
    {rest : List (List UInt16)} (hmode : options.mode = .error)
    (h : checkTarget attach options rest = .error o) : Failed o := by
  rw [checkTarget] at h
  split at h
  · split at h
    · exact Except.error.inj h ▸ failed_failed hmode (by decide)
    split at h
    · exact Except.error.inj h ▸ failed_failed hmode (by decide)
    · cases h
  · split at h
    · exact Except.error.inj h ▸ failed_failed hmode (by decide)
    · cases h

theorem checkOutput_failed {formatSpecified : Bool} {options o : CommandLineOptions}
    (hmode : options.mode = .error) (h : checkOutput formatSpecified options = .error o) :
    Failed o := by
  rw [checkOutput] at h
  split at h
  · exact Except.error.inj h ▸ failed_failed hmode (by decide)
  split at h
  · exact Except.error.inj h ▸ failed_failed hmode (by decide)
  · cases h

theorem expandAndValidateHooks_failed {available : List HookDefinition}
    {options o : CommandLineOptions} {requests : List (List UInt8)}
    (hmode : options.mode = .error)
    (h : expandAndValidateHooks available options requests = .error o) : Failed o := by
  induction requests generalizing options with
  | nil =>
      rw [expandAndValidateHooks] at h
      split at h
      · exact Except.error.inj h ▸ failed_failed hmode (by decide)
      · cases h
  | cons name rest ih =>
      rw [expandAndValidateHooks] at h
      split at h
      · refine ih ?_ h
        exact hmode
      split at h
      · exact Except.error.inj h ▸ failed_failed hmode (by decide)
      cases hfind : findSupportedHook available (canonicalNameOf name) with
      | none =>
          rw [hfind] at h
          refine Except.error.inj h ▸ ⟨hmode, fun hnil => ?_⟩
          exact absurd (List.append_eq_nil_iff.mp hnil).1 (by decide)
      | some definition =>
          rw [hfind] at h
          refine ih ?_ h
          exact hmode

/-- An error of the branch says so. -/
theorem parseTraceCommand_failed {attach : Bool} {available : List HookDefinition}
    {arguments : List (List UInt16)} {o : CommandLineOptions}
    (h : parseTraceCommand attach available arguments = .error o) : Failed o := by
  -- the mode says error from the start, and no check in between changes it
  refine bind_failed (fun e he => optionLoop_failed rfl he) ?_ h
  rintro ⟨p, rest⟩ hloop e h
  obtain ⟨groups, -, -, rfl, -⟩ := optionLoop_iff.mp hloop
  have hmode : (effects groups ⟨initialOptions, [], false⟩).options.mode = .error := by
    rw [effects_start]
    rfl
  refine bind_failed (fun e he => checkTarget_failed hmode he) ?_ h
  intro checked hcheck e h
  have hchecked : checked.mode = .error := by
    rw [checkTarget_iff] at hcheck
    cases attach with
    | true => exact hcheck.2.2 ▸ hmode
    | false => exact hcheck.2 ▸ hmode
  refine bind_failed (fun e he => checkOutput_failed hchecked he) ?_ h
  intro output houtput e hexpand
  have houtput' : output.mode = .error := (checkOutput_iff.mp houtput).2 ▸ hchecked
  refine bind_failed (fun e he => expandAndValidateHooks_failed houtput' he) ?_ hexpand
  intro final _ e he
  cases (show Except.ok _ = Except.error e from he)

/-! ## The whole command line -/

/-- The checks in front of `run` and `attach` look for other words. -/
theorem parseCommandLine_command (program : List UInt16) (attach : Bool)
    (arguments : List (List UInt16)) (available : List HookDefinition) :
    parseCommandLine (program :: commandWord attach :: arguments) available
      = returned (parseTraceCommand attach available arguments) := by
  have hwords : ∀ {a b : List UInt16}, commandWord attach ≠ a → commandWord attach ≠ b →
      ¬ ((program :: commandWord attach :: arguments).length = 2 ∧
        ((program :: commandWord attach :: arguments)[1]? = some a
          ∨ (program :: commandWord attach :: arguments)[1]? = some b)) := by
    rintro a b ha hb ⟨-, hword | hword⟩
    · exact ha (Option.some.inj hword)
    · exact hb (Option.some.inj hword)
  have hone : ¬ ((program :: commandWord attach :: arguments).length = 1) := by
    rw [List.length_cons, List.length_cons]
    omega
  rw [parseCommandLine.eq_def,
    if_neg (hwords (by cases attach <;> decide) (by cases attach <;> decide)),
    if_neg (not_or.mpr ⟨hone,
      hwords (by cases attach <;> decide) (by cases attach <;> decide)⟩),
    if_neg (hwords (by cases attach <;> decide) (by cases attach <;> decide))]
  cases attach with
  | true => exact if_pos (Or.inr rfl)
  | false => exact if_pos (Or.inl rfl)

/-- A command line of neither mode, and what its options say. -/
theorem parseCommandLine_other {argv : List (List UInt16)} (available : List HookDefinition)
    (h : ∀ program attach arguments, argv ≠ program :: commandWord attach :: arguments) :
    (∀ attach, (parseCommandLine argv available).mode ≠ traceMode attach) ∧
      ((parseCommandLine argv available).mode = .error ↔
        (parseCommandLine argv available).error ≠ []) := by
  have hplain : ∀ {mode : CommandMode}, mode ≠ .run → mode ≠ .attach → mode ≠ .error →
      (∀ attach, ({ initialOptions with mode := mode } : CommandLineOptions).mode
          ≠ traceMode attach) ∧
        (({ initialOptions with mode := mode } : CommandLineOptions).mode = .error ↔
          ({ initialOptions with mode := mode } : CommandLineOptions).error ≠ []) := by
    intro mode hrun hattach herror
    refine ⟨fun attach => ?_, iff_of_false herror (fun hne => hne rfl)⟩
    cases attach with
    | true => exact hattach
    | false => exact hrun
  have hfailed : ∀ {message : String}, cstr message ≠ [] →
      (∀ attach, (failed initialOptions message).mode ≠ traceMode attach) ∧
        ((failed initialOptions message).mode = .error ↔
          (failed initialOptions message).error ≠ []) := by
    intro message hmessage
    refine ⟨fun attach => ?_, iff_of_true rfl hmessage⟩
    cases attach <;> exact nofun
  rw [parseCommandLine.eq_def]
  split
  · exact hplain nofun nofun nofun
  split
  · exact hplain nofun nofun nofun
  split
  · exact hplain nofun nofun nofun
  match argv, h with
  | [], _ => exact hfailed (by decide)
  | [_], _ => exact hfailed (by decide)
  | program :: command :: arguments, h =>
      have hcommand : ¬ (command = wcstr "run" ∨ command = wcstr "attach") := by
        rintro (rfl | rfl)
        · exact h program false arguments rfl
        · exact h program true arguments rfl
      dsimp only
      rw [if_neg hcommand]
      exact hfailed (by decide)

/-- The options of the grammar pass the checks of `OpenOutput`. -/
theorem openOutput_accepted {available : List HookDefinition} {attach : Bool}
    {argv : List (List UInt16)} {groups : List OptionGroup} {targets : List (List UInt16)}
    {hooks : List HookDefinition} (h : Accepts available attach argv groups targets hooks)
    (opens : List UInt16 → Bool) :
    openOutput opens (acceptedOptions attach groups targets hooks).output =
      if lastOf OptionGroup.outputValue groups [] = []
          ∨ opens (lastOf OptionGroup.outputValue groups []) = true then .ok ()
      else .error "[!] Failed to open trace output file\n" := by
  rw [openOutput, acceptedOptions]
  dsimp only
  by_cases hpath : lastOf OptionGroup.outputValue groups [] = []
  -- no path: then neither `--format` nor `--quiet` was given, and the defaults pass
  · have hformat : lastOf OptionGroup.formatValue groups .text ≠ .jsonl := by
      rcases lastOf_mem OptionGroup.formatValue groups .text with ⟨-, hlast⟩ | ⟨g, hg, hlast⟩
      · rw [hlast]
        decide
      · cases g with
        | format f => exact absurd hpath (h.output (Or.inl ⟨f, hg⟩))
        | _ => cases hlast
    have hquiet : ¬ (lastOf OptionGroup.quietValue groups false = true) := fun hquiet =>
      h.output (Or.inr ((quiet_iff groups).mp hquiet)) hpath
    rw [if_pos hpath, if_neg hformat, if_neg hquiet, if_pos (Or.inl hpath)]
  · rw [if_neg hpath]
    cases hopens : opens (lastOf OptionGroup.outputValue groups []) with
    | true => rw [if_pos rfl, if_pos (Or.inr rfl)]
    | false => rw [if_neg Bool.false_ne_true, if_neg (not_or.mpr ⟨hpath, Bool.false_ne_true⟩)]

/-- **THE GRAMMAR IS ACCEPTED, AND NOTHING ELSE**: the mode is `run` or `attach` for
    exactly the command lines of the grammar, whose options are returned; the checks of
    `OpenOutput` do not fail on them; and the mode is an error where there is a text. -/
theorem parseCommandLine_exact (argv : List (List UInt16)) (available : List HookDefinition) :
    (∀ attach, (parseCommandLine argv available).mode = traceMode attach ↔
        ∃ groups targets hooks, Accepts available attach argv groups targets hooks) ∧
      (∀ attach groups targets hooks, Accepts available attach argv groups targets hooks →
        parseCommandLine argv available = acceptedOptions attach groups targets hooks) ∧
      (∀ attach opens, (parseCommandLine argv available).mode = traceMode attach →
        openOutput opens (parseCommandLine argv available).output =
          if (parseCommandLine argv available).output.outputPath = []
              ∨ opens (parseCommandLine argv available).output.outputPath = true then .ok ()
          else .error "[!] Failed to open trace output file\n") ∧
      ((parseCommandLine argv available).mode = .error ↔
        (parseCommandLine argv available).error ≠ []) := by
  by_cases hcommand : ∃ program attach arguments, argv = program :: commandWord attach :: arguments
  · obtain ⟨program, attach, arguments, rfl⟩ := hcommand
    -- the two commands have different words, so the mode is that of the word
    have hword : ∀ {attach' groups targets hooks},
        Accepts available attach' (program :: commandWord attach :: arguments) groups targets
          hooks → attach' = attach := by
      intro attach' groups targets hooks h
      obtain ⟨program', words, -, hargv⟩ := h.words
      have hwords := (List.cons.inj (List.cons.inj hargv).2).1
      cases attach <;> cases attach' <;> first | rfl | exact absurd hwords (by decide)
    rw [parseCommandLine_command]
    cases hparse : parseTraceCommand attach available arguments with
    | ok o =>
        obtain ⟨groups, targets, hooks, haccepts, rfl⟩ := (parseTraceCommand_iff program).mp hparse
        have hmode : ∀ attach', traceMode attach = traceMode attach' ↔ attach = attach' := by
          intro attach'
          cases attach <;> cases attach' <;> decide
        refine ⟨fun attach' => ?_, ?_, fun attach' opens _ => openOutput_accepted haccepts opens,
          ?_⟩
        · refine (hmode attach').trans ⟨?_, ?_⟩
          · rintro rfl
            exact ⟨groups, targets, hooks, haccepts⟩
          · rintro ⟨groups', targets', hooks', haccepts'⟩
            exact (hword haccepts').symm
        · intro attach' groups' targets' hooks' haccepts'
          obtain rfl := hword haccepts'
          have hok := (parseTraceCommand_iff program).mpr
            ⟨groups', targets', hooks', haccepts', rfl⟩
          exact (Except.ok.inj (hparse.symm.trans hok))
        · refine iff_of_false ?_ (fun hne => hne rfl)
          show traceMode attach ≠ .error
          cases attach <;> decide
    | error o =>
        -- refused: by the grammar theorem no groups would do
        obtain ⟨hmode, herror⟩ := parseTraceCommand_failed hparse
        have hnone : ∀ attach', (returned (.error o)).mode ≠ traceMode attach' := by
          intro attach' heq
          have hbad : CommandMode.error = traceMode attach' := hmode.symm.trans heq
          cases attach' <;> cases hbad
        have hreject : ∀ {attach' groups targets hooks}, ¬ Accepts available attach'
            (program :: commandWord attach :: arguments) groups targets hooks := by
          intro attach' groups targets hooks haccepts
          obtain rfl := hword haccepts
          have hok := (parseTraceCommand_iff program).mpr ⟨groups, targets, hooks, haccepts, rfl⟩
          cases hparse.symm.trans hok
        exact ⟨fun attach' => iff_of_false (hnone attach')
            (fun ⟨_, _, _, haccepts⟩ => hreject haccepts),
          fun _ _ _ _ haccepts => absurd haccepts hreject,
          fun attach' _ heq => absurd heq (hnone attach'), iff_of_true hmode herror⟩
  · have hother : ∀ program attach arguments,
        argv ≠ program :: commandWord attach :: arguments :=
      fun program attach arguments heq => hcommand ⟨program, attach, arguments, heq⟩
    obtain ⟨hmode, herror⟩ := parseCommandLine_other available hother
    have hreject : ∀ {attach groups targets hooks},
        ¬ Accepts available attach argv groups targets hooks := by
      intro attach groups targets hooks haccepts
      obtain ⟨program, words, -, hargv⟩ := haccepts.words
      exact hother program attach _ hargv
    exact ⟨fun attach => iff_of_false (hmode attach)
        (fun ⟨_, _, _, haccepts⟩ => hreject haccepts),
      fun _ _ _ _ haccepts => absurd haccepts hreject,
      fun attach _ heq => absurd heq (hmode attach), herror⟩

/-- A `--` behind `-o` is a path, so the word behind it is read as an option. -/
example :
    (parseCommandLine
      [wcstr "apiscope", wcstr "run", wcstr "-k", wcstr "all", wcstr "-o", wcstr "--",
        wcstr "a.exe"] []).error = cstr "Unknown command option" := by
  decide

end ScopeCliOptions
