import ApiScope.CliOptionsProofs
import ApiScope.TraceStatsProofs
import ApiScope.TraceCorrelatorProofs

/-! # Outputs — the console, the file and the counters

    `RenderEvent`, the footer functions and `PrintSummary`: what the writer
    thread and the footer thread put into `std::cout` and into the output
    file.  Both threads write to the console under `consoleMutex_`, so one
    pass of either is one step, and the steps may come in any order.

    The file and the counters depend on the events alone, whatever the footer
    does in between (`runOutput_file`, `runOutput_stats`). -/

namespace ScopeOutput

open ScopeRead ScopeRead.Read ScopeProtocol ScopeParser ScopeRenderer ScopeCorrelator
  ScopeGrammar ScopeBounds ScopeJsonl ScopeStats ScopeTally
open ScopeCliOptions (TraceOutputFormat TraceOutputOptions openOutput)

/-! ## Options -/

/-- The members of a session that decide what it writes. -/
structure OutputConfig where
  format : TraceOutputFormat
  quiet : Bool
  fileOpen : Bool
  colorEnabled : Bool
  footerEnabled : Bool

/-- The part of `Start` before the ring. -/
def startOutput (options : TraceOutputOptions) (opens : List UInt16 → Bool)
    (stdoutTty noColorEnv : Bool) : Option OutputConfig :=
  match openOutput opens options with
  | .error _ => none
  | .ok () =>
      some
        { format := options.format
          quiet := options.quiet
          fileOpen := options.outputPath ≠ []
          colorEnabled := options.color = .always ∨
            options.color = .auto ∧ stdoutTty = true ∧ noColorEnv = false
          footerEnabled := options.status = .always ∨ options.status = .auto ∧ stdoutTty = true }

/-! ## What is written -/

/-- What `RebuildFooterLine` and `PrintSummary` read: the clock, the width of the
    console and the drop counter of the ring.  The ring is mapped as long as
    they run: `ReleaseLocalRing` follows `PrintSummary`. -/
structure Readings where
  rate : Nat
  total : Nat
  width : Nat
  dropped : UInt32

structure Output where
  stats : TraceStats
  /-- What was put into `std::cout`. -/
  console : List UInt8
  /-- What was put into `outputFile_`. -/
  file : List UInt8
  footerLine : List UInt8
  footerDrawn : Bool

def Output.empty : Output :=
  { stats := .empty, console := [], file := [], footerLine := [], footerDrawn := false }

/-- `CurrentHookName`. -/
def currentHookName : Read (List UInt8) := do
  let moduleNameLength ← readModuleNameLength
  let apiNameLength ← readApiNameLength
  let moduleName ← readBytes sizeofEventHeader moduleNameLength
  let apiName ← readBytes (sizeofEventHeader + moduleNameLength) apiNameLength
  pure (moduleName ++ cstr "!" ++ apiName)

/-- `\r\x1b[K`: to the first column, erase to the end of the line. -/
def eraseLine : List UInt8 := cstr "\r\x1b[K"

def eraseFooter (out : Output) : Output :=
  if out.footerDrawn then
    { out with console := out.console ++ eraseLine, footerDrawn := false }
  else out

def rebuildFooterLine (c : OutputConfig) (now : Readings) (out : Output) : Output :=
  let stats := { out.stats with dropped := now.dropped }
  let line := formatStatusLine stats now.rate now.total now.width
  { out with
    stats := stats
    footerLine :=
      if c.colorEnabled ∧ line.length < now.width then
        line ++ List.replicate (now.width - line.length) (byteOf ' ')
      else line }

def drawFooter (c : OutputConfig) (now : Readings) (out : Output) : Output :=
  let out := if out.footerLine = [] then rebuildFooterLine c now out else out
  let bar :=
    if c.colorEnabled then cstr "\x1b[7m" ++ out.footerLine ++ cstr "\x1b[0m"
    else out.footerLine
  { out with
    console := out.console ++ (cstr "\r" ++ bar ++ cstr "\x1b[K")
    footerDrawn := true }

/-- The file's part of `RenderEvent`. -/
def fileText (c : OutputConfig) (calls : SystemCalls) (e : TraceEvent) : List UInt8 :=
  if c.fileOpen then
    match c.format with
    | .jsonl => (renderTraceEventJsonl calls).run e.byte
    | .text => (renderTraceEventText calls false).run e.byte
  else []

/-- The console's part of `RenderEvent`. -/
def showEvent (c : OutputConfig) (calls : SystemCalls) (now : Readings) (out : Output)
    (e : TraceEvent) : Output :=
  if c.quiet then out
  else
    let out := if c.footerEnabled then eraseFooter out else out
    let text := (renderTraceEventText calls c.colorEnabled).run e.byte
    let out := { out with console := out.console ++ text }
    if c.footerEnabled then drawFooter c now out else out

/-- `RenderEvent`. -/
def renderEvent (c : OutputConfig) (calls : SystemCalls) (now : Readings) (out : Output)
    (e : TraceEvent) : Output :=
  let out := { out with stats := out.stats.record (currentHookName.run e.byte) }
  let out := showEvent c calls now out e
  { out with file := out.file ++ fileText c calls e }

/-- `PrintSummary`, the first time: the text for `stderr`. -/
def printSummary (now : Readings) (out : Output) : Output × List UInt8 :=
  let out :=
    if out.footerDrawn then
      { out with console := out.console ++ eraseLine, footerDrawn := false }
    else out
  let out := { out with stats := { out.stats with dropped := now.dropped } }
  (out, formatSummary out.stats now.total)

/-! ## The two threads -/

inductive OutputStep where
  /-- `WriterLoop` handles an event. -/
  | event (e : TraceEvent) (now : Readings)
  /-- `FooterLoop` wakes up. -/
  | footer (now : Readings)

structure Writing where
  tracker : HandlePathTracker
  output : Output

def outputStep (c : OutputConfig) (calls : SystemCalls) (w : Writing) : OutputStep → Writing
  | .event e now =>
      let (tracker, e) := writeEvent w.tracker e
      { tracker := tracker, output := renderEvent c calls now w.output e }
  | .footer now =>
      { w with output := drawFooter c now (rebuildFooterLine c now w.output) }

def startWriting : Writing := { tracker := .empty, output := .empty }

def runOutput (c : OutputConfig) (calls : SystemCalls) (steps : List OutputStep) : Writing :=
  steps.foldl (outputStep c calls) startWriting

def OutputStep.asEvent : OutputStep → Option TraceEvent
  | .event e _ => some e
  | .footer _ => none

/-- The events that the writer handled, in order. -/
def eventsOf (steps : List OutputStep) : List TraceEvent := steps.filterMap OutputStep.asEvent

/-- The events as they were rendered. -/
def rendered (steps : List OutputStep) : List TraceEvent :=
  (writeAll .empty (eventsOf steps)).2

/-! ## The file and the counters -/

@[simp] theorem eraseFooter_file (out : Output) : (eraseFooter out).file = out.file := by
  rw [eraseFooter]
  split <;> rfl

@[simp] theorem eraseFooter_stats (out : Output) : (eraseFooter out).stats = out.stats := by
  rw [eraseFooter]
  split <;> rfl

@[simp] theorem rebuildFooterLine_file (c : OutputConfig) (now : Readings) (out : Output) :
    (rebuildFooterLine c now out).file = out.file := rfl

@[simp] theorem drawFooter_file (c : OutputConfig) (now : Readings) (out : Output) :
    (drawFooter c now out).file = out.file := by
  rw [drawFooter]
  dsimp only
  split <;> simp

/-- The footer reads the drop counter and leaves the counts alone. -/
def SameCounts (s s' : TraceStats) : Prop := s'.events = s.events ∧ s'.perHook = s.perHook

theorem drawFooter_counts (c : OutputConfig) (now : Readings) (out : Output) :
    SameCounts out.stats (drawFooter c now out).stats := by
  rw [drawFooter]
  dsimp only
  split <;> exact ⟨rfl, rfl⟩

theorem showEvent_file (c : OutputConfig) (calls : SystemCalls) (now : Readings)
    (out : Output) (e : TraceEvent) : (showEvent c calls now out e).file = out.file := by
  rw [showEvent]
  cases c.quiet <;> cases c.footerEnabled <;> simp

theorem showEvent_counts (c : OutputConfig) (calls : SystemCalls) (now : Readings)
    (out : Output) (e : TraceEvent) :
    SameCounts out.stats (showEvent c calls now out e).stats := by
  rw [showEvent]
  cases c.quiet with
  | true => exact ⟨rfl, rfl⟩
  | false =>
      cases c.footerEnabled with
      | false => exact ⟨rfl, rfl⟩
      | true =>
          have hcounts := drawFooter_counts c now
            { eraseFooter out with
              console := (eraseFooter out).console ++
                (renderTraceEventText calls c.colorEnabled).run e.byte }
          rw [eraseFooter_stats] at hcounts
          exact hcounts

theorem renderEvent_file (c : OutputConfig) (calls : SystemCalls) (now : Readings)
    (out : Output) (e : TraceEvent) :
    (renderEvent c calls now out e).file = out.file ++ fileText c calls e := by
  rw [renderEvent]
  dsimp only
  rw [showEvent_file]

theorem renderEvent_counts (c : OutputConfig) (calls : SystemCalls) (now : Readings)
    (out : Output) (e : TraceEvent) :
    SameCounts (out.stats.record (currentHookName.run e.byte))
      (renderEvent c calls now out e).stats := by
  rw [renderEvent]
  exact showEvent_counts c calls now
    { out with stats := out.stats.record (currentHookName.run e.byte) } e

theorem outputStep_event (c : OutputConfig) (calls : SystemCalls) (w : Writing)
    (e : TraceEvent) (now : Readings) :
    outputStep c calls w (.event e now)
      = { tracker := (writeEvent w.tracker e).1
          output := renderEvent c calls now w.output (writeEvent w.tracker e).2 } := by
  rw [outputStep]

/-- What holds of the file, the tracker and the counters after the steps. -/
structure Written (c : OutputConfig) (calls : SystemCalls) (steps : List OutputStep)
    (w : Writing) : Prop where
  tracker : w.tracker = (writeAll .empty (eventsOf steps)).1
  file : w.output.file = (rendered steps).flatMap (fileText c calls)
  counts : SameCounts
    (recordAll ((rendered steps).map fun e => currentHookName.run e.byte)) w.output.stats

theorem eventsOf_snoc (steps : List OutputStep) (step : OutputStep) :
    eventsOf (steps ++ [step]) = eventsOf steps ++ step.asEvent.toList := by
  rw [eventsOf, List.filterMap_append]
  cases step <;> rfl

/-- **OUTPUT STEP**: an event adds its text and its count, the footer neither. -/
theorem written_step {c : OutputConfig} {calls : SystemCalls} {steps : List OutputStep}
    {w : Writing} (h : Written c calls steps w) (step : OutputStep) :
    Written c calls (steps ++ [step]) (outputStep c calls w step) := by
  cases step with
  | footer now =>
      have hsame : eventsOf (steps ++ [.footer now]) = eventsOf steps := by
        rw [eventsOf_snoc]
        exact List.append_nil _
      have hrendered : rendered (steps ++ [.footer now]) = rendered steps := by
        rw [rendered, hsame, rendered]
      refine ⟨?_, ?_, ?_⟩
      · rw [hsame]
        exact h.tracker
      · rw [hrendered, ← h.file]
        exact drawFooter_file c now _
      · obtain ⟨hevents, hhooks⟩ := drawFooter_counts c now (rebuildFooterLine c now w.output)
        rw [hrendered]
        exact ⟨hevents.trans h.counts.1, hhooks.trans h.counts.2⟩
  | event e now =>
      have hevents : eventsOf (steps ++ [.event e now]) = eventsOf steps ++ [e] := by
        rw [eventsOf_snoc]
        rfl
      have hrendered : rendered (steps ++ [.event e now])
          = rendered steps ++ [(writeEvent w.tracker e).2] := by
        rw [rendered, hevents, writeAll_append, ← h.tracker]
        rfl
      rw [outputStep_event]
      refine ⟨?_, ?_, ?_⟩
      · rw [hevents, writeAll_append, ← h.tracker]
        rfl
      · rw [hrendered, List.flatMap_append, ← h.file, List.flatMap_singleton]
        exact renderEvent_file c calls now w.output _
      · obtain ⟨hcount, hhooks⟩ := renderEvent_counts c calls now w.output
          (writeEvent w.tracker e).2
        rw [hrendered, List.map_append, recordAll, List.foldl_append]
        refine ⟨hcount.trans ?_, hhooks.trans ?_⟩
        · exact congrArg (· + 1) h.counts.1
        · exact congrArg (bump _) h.counts.2

theorem written_run (c : OutputConfig) (calls : SystemCalls) (steps : List OutputStep) :
    Written c calls steps (runOutput c calls steps) := by
  induction steps using List.reverseRecOn with
  | nil => exact ⟨rfl, rfl, rfl, rfl⟩
  | append_singleton steps step ih =>
      rw [runOutput, List.foldl_append]
      exact written_step ih step

/-- A quiet session has a file, so no event is written nowhere. -/
theorem startOutput_somewhere {options : TraceOutputOptions} {opens : List UInt16 → Bool}
    {stdoutTty noColorEnv : Bool} {c : OutputConfig}
    (h : startOutput options opens stdoutTty noColorEnv = some c)
    (hneeds : c.quiet = true ∨ c.format = .jsonl) : c.fileOpen = true := by
  rw [startOutput] at h
  split at h
  next => cases h
  next hopen =>
    cases h
    rw [openOutput] at hopen
    refine decide_eq_true fun hpath => ?_
    rw [if_pos hpath] at hopen
    split at hopen
    next => cases hopen
    next htext =>
      split at hopen
      next => cases hopen
      next hquiet => exact hneeds.elim hquiet htext

end ScopeOutput
