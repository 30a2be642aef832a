import ApiScope.JsonLinesProofs
import ApiScope.LinesProofs
import ApiScope.TallyProofs
import Mathlib.Data.List.Lex

/-! # Session counters — the status line and the summary

    `trace_stats.cpp`: `Record` counts the events of a session by hook, and
    two functions print the counts.  The seconds and the rate are doubles in
    the source; the formatting starts from the values they are rounded to.

    The summary is a text that a reader can take apart again: it gives back
    every counter, with the hooks sorted by their number of events
    (`summary_tells`).  The status line never exceeds the width it is given,
    and shows the hooks with the most events. -/

namespace ScopeStats

open ScopeProtocol ScopeParser ScopeRenderer ScopeJson ScopeJsonl ScopeLines ScopeTally

/-! ## trace_stats.cpp -/

/-- The counts are `uint64_t`; a session does not reach 2^64 events, and they
    are natural numbers here. -/
structure TraceStats where
  events : Nat
  dropped : UInt32
  /-- `std::map<std::string, uint64_t>`; `SortedHooks` sorts it, so the order
      of its entries does not show. -/
  perHook : List (List UInt8 × Nat)

def TraceStats.empty : TraceStats := { events := 0, dropped := 0, perHook := [] }

/-- `TraceStats::Record`. -/
def TraceStats.record (s : TraceStats) (hook : List UInt8) : TraceStats :=
  { s with events := s.events + 1, perHook := bump hook s.perHook }

/-- The loop of `GroupThousands` over the reversed digits. -/
def groupFrom : (count : Nat) → List UInt8 → List UInt8
  | _, [] => []
  | count, d :: ds =>
      (if count ≠ 0 ∧ count % 3 = 0 then [byteOf ',', d] else [d]) ++ groupFrom (count + 1) ds

def groupThousands (value : Nat) : List UInt8 := (groupFrom 0 (decimal value).reverse).reverse

/-- `FormatDuration`, of the seconds as it clamps them at 0 and rounds them to
    `uint64_t`. -/
def formatDuration (total : Nat) : List UInt8 :=
  let hours := total / 3600
  let minutes := (total % 3600) / 60
  let secs := total % 60
  if hours ≠ 0 then
    decimal hours ++ cstr ":" ++ zeroFill 2 (decimal minutes) ++ cstr ":"
      ++ zeroFill 2 (decimal secs)
  else decimal minutes ++ cstr ":" ++ zeroFill 2 (decimal secs)

/-- The order of `std::string`: by the bytes as unsigned numbers. -/
def nameBefore (a b : List UInt8) : Bool := decide (a.map UInt8.toNat < b.map UInt8.toNat)

/-- The comparison of `SortedHooks`. -/
def hookBefore (a b : List UInt8 × Nat) : Bool :=
  if a.2 ≠ b.2 then decide (b.2 < a.2) else nameBefore a.1 b.1

def sortedHooks (stats : TraceStats) : List (List UInt8 × Nat) :=
  stats.perHook.mergeSort fun a b => !hookBefore b a

/-- The name behind the first `!`, or all of it. -/
def shortName (name : List UInt8) : List UInt8 :=
  match name.dropWhile (· ≠ byteOf '!') with
  | [] => name
  | _ :: api => api

def statusHook (hook : List UInt8 × Nat) : List UInt8 :=
  cstr "  " ++ shortName hook.1 ++ cstr " " ++ decimal hook.2

/-- `FormatStatusLine`; `rate` and `total` are `(uint64_t)(rate + 0.5)` and the
    seconds as `FormatDuration` rounds them. -/
def formatStatusLine (stats : TraceStats) (rate total maxWidth : Nat) : List UInt8 :=
  let result := List.flatten
    [cstr " ", groupThousands stats.events, cstr " events", cstr "  ",
      decimal stats.dropped.toNat, cstr " drops", cstr "  ", decimal rate, cstr "/s",
      cstr "  ", formatDuration total, ((sortedHooks stats).take 4).flatMap statusHook]
  if maxWidth ≠ 0 ∧ maxWidth < result.length then result.take maxWidth else result

def summaryHook (hook : List UInt8 × Nat) : List UInt8 :=
  cstr "      " ++ hook.1 ++ cstr " : " ++ decimal hook.2 ++ cstr "\n"

def formatSummary (stats : TraceStats) (total : Nat) : List UInt8 :=
  let hooks := sortedHooks stats
  List.flatten
    [cstr "[=] Session summary\n",
      cstr "    events   : ", decimal stats.events, cstr "\n",
      cstr "    dropped  : ", decimal stats.dropped.toNat, cstr "\n",
      cstr "    duration : ", formatDuration total, cstr "\n",
      if hooks ≠ [] then cstr "    per hook :\n" ++ hooks.flatMap summaryHook else []]

/-! ## What a reader takes from the summary -/

structure Summary where
  events : Nat
  dropped : Nat
  seconds : Nat
  perHook : List (List UInt8 × Nat)
  deriving DecidableEq

/-- What follows a label. -/
def readLabel (label line : List UInt8) : Option (List UInt8) :=
  if line.take label.length = label then some (line.drop label.length) else none

/-- `h:mm:ss` or `m:ss`. -/
def readDuration (text : List UInt8) : Option Nat :=
  match text.splitOn (byteOf ':') with
  | [minutes, secs] => do
      let m ← ofRadix 10 minutes
      let s ← ofRadix 10 secs
      some (60 * m + s)
  | [hours, minutes, secs] => do
      let h ← ofRadix 10 hours
      let m ← ofRadix 10 minutes
      let s ← ofRadix 10 secs
      some (3600 * h + 60 * m + s)
  | _ => none

def readHook (line : List UInt8) : Option (List UInt8 × Nat) := do
  let rest ← readLabel (cstr "      ") line
  let name := rest.takeWhile (· ≠ byteOf ' ')
  let digits ← readLabel (name ++ cstr " : ") rest
  let count ← ofRadix 10 digits
  some (name, count)

def readHooks : List (List UInt8) → Option (List (List UInt8 × Nat))
  | [] => some []
  | title :: lines =>
      if title = cstr "    per hook :" then lines.mapM readHook else none

def readSummary (text : List UInt8) : Option Summary :=
  match (text.splitOn newline).dropLast with
  | title :: events :: dropped :: duration :: hooks =>
      if title = cstr "[=] Session summary" then do
        let events ← (readLabel (cstr "    events   : ") events).bind (ofRadix 10)
        let dropped ← (readLabel (cstr "    dropped  : ") dropped).bind (ofRadix 10)
        let seconds ← (readLabel (cstr "    duration : ") duration).bind readDuration
        let perHook ← readHooks hooks
        some ⟨events, dropped, seconds, perHook⟩
      else none
  | _ => none

/-! ## The order of the hooks -/

theorem nameBefore_iff {a b : List UInt8} :
    nameBefore a b = true ↔ a.map UInt8.toNat < b.map UInt8.toNat := decide_eq_true_iff

theorem hookBefore_iff {a b : List UInt8 × Nat} : hookBefore a b = true ↔
    b.2 < a.2 ∨ a.2 = b.2 ∧ a.1.map UInt8.toNat < b.1.map UInt8.toNat := by
  rw [hookBefore]
  by_cases h : a.2 = b.2
  · rw [if_neg (not_not.mpr h), nameBefore_iff, h]
    simp
  · rw [if_pos h, decide_eq_true_iff]
    simp [h]

theorem notBefore_iff {a b : List UInt8 × Nat} : (!hookBefore b a) = true ↔
    b.2 < a.2 ∨ a.2 = b.2 ∧ a.1.map UInt8.toNat ≤ b.1.map UInt8.toNat := by
  rw [Bool.not_eq_true', ← Bool.not_eq_true, hookBefore_iff, not_or, not_and, not_lt]
  constructor
  · rintro ⟨hle, hname⟩
    rcases Nat.lt_or_eq_of_le hle with hlt | heq
    · exact Or.inl hlt
    · exact Or.inr ⟨heq.symm, not_lt.mp (hname heq)⟩
  · rintro (hlt | ⟨heq, hname⟩)
    · exact ⟨by omega, fun heq => by omega⟩
    · exact ⟨by omega, fun _ => not_lt.mpr hname⟩

/-- **THE ORDER**: more events first, then by name. -/
theorem sortedHooks_sorted (stats : TraceStats) :
    (sortedHooks stats).Pairwise fun a b =>
      b.2 < a.2 ∨ a.2 = b.2 ∧ a.1.map UInt8.toNat ≤ b.1.map UInt8.toNat := by
  have hsorted := @List.pairwise_mergeSort _ (fun a b => !hookBefore b a) ?_ ?_ stats.perHook
  · exact hsorted.imp notBefore_iff.mp
  · intro a b c hab hbc
    rw [notBefore_iff] at hab hbc ⊢
    rcases hab with hab | ⟨hab, hname⟩
    · rcases hbc with hbc | ⟨hbc, -⟩
      · exact Or.inl (by omega)
      · exact Or.inl (by omega)
    · rcases hbc with hbc | ⟨hbc, hname'⟩
      · exact Or.inl (by omega)
      · exact Or.inr ⟨by omega, le_trans hname hname'⟩
  · intro a b
    rw [Bool.or_eq_true, notBefore_iff, notBefore_iff]
    rcases lt_trichotomy a.2 b.2 with hlt | heq | hlt
    · exact Or.inr (Or.inl hlt)
    · rcases le_total (a.1.map UInt8.toNat) (b.1.map UInt8.toNat) with hle | hle
      · exact Or.inl (Or.inr ⟨heq, hle⟩)
      · exact Or.inr (Or.inr ⟨heq.symm, hle⟩)
    · exact Or.inl (Or.inl hlt)

theorem mem_sortedHooks {stats : TraceStats} {hook : List UInt8 × Nat} :
    hook ∈ sortedHooks stats ↔ hook ∈ stats.perHook :=
  (List.mergeSort_perm _ _).mem_iff

/-! ## Numbers and durations -/

theorem digit_mem_decimal {n : Nat} {b : UInt8} (h : b ∈ decimal n) : isDigit b = true :=
  printNat_digits n b h

theorem ofRadix_decimal (n : Nat) : ofRadix 10 (decimal n) = some n := ofRadix_printNat n

theorem ofRadix_zeroFill_decimal (width n : Nat) :
    ofRadix 10 (zeroFill width (decimal n)) = some n := by
  rw [zeroFill]
  exact (ofRadix_zeros (by decide) _ _).trans (ofRadix_decimal n)

/-- A digit is none of the separators. -/
theorem not_mem_decimal {c : UInt8} (hc : isDigit c = false) (n : Nat) : c ∉ decimal n := by
  intro hmem
  cases hc.symm.trans (digit_mem_decimal hmem)

theorem not_mem_zeroFill {c : UInt8} (hc : isDigit c = false) (width n : Nat) :
    c ∉ zeroFill width (decimal n) := by
  intro hmem
  rcases List.mem_append.mp hmem with hmem | hmem
  · rw [(List.mem_replicate.mp hmem).2] at hc
    cases hc
  · exact not_mem_decimal hc n hmem

/-- **A DURATION** is read back, in seconds. -/
theorem readDuration_formatDuration (total : Nat) :
    readDuration (formatDuration total) = some total := by
  have hcolon : isDigit (byteOf ':') = false := by decide
  have hminutes := not_mem_decimal hcolon (total % 3600 / 60)
  have hminutes' := not_mem_zeroFill hcolon 2 (total % 3600 / 60)
  have hsecs := not_mem_zeroFill hcolon 2 (total % 60)
  have hhours := not_mem_decimal hcolon (total / 3600)
  rw [formatDuration]
  by_cases hzero : total / 3600 = 0
  · rw [if_neg (not_not.mpr hzero), List.append_assoc]
    have hsplit : (decimal (total % 3600 / 60) ++ (cstr ":" ++ zeroFill 2
        (decimal (total % 60)))).splitOn (byteOf ':')
        = [decimal (total % 3600 / 60), zeroFill 2 (decimal (total % 60))] := by
      rw [show cstr ":" = [byteOf ':'] from rfl, List.singleton_append,
        List.splitOn_append_cons_self_of_not_mem hminutes, List.splitOn_eq_singleton hsecs]
    rw [readDuration, hsplit]
    simp only [ofRadix_decimal, ofRadix_zeroFill_decimal, Option.bind_eq_bind, Option.bind_some,
      Option.some.injEq]
    omega
  · rw [if_pos hzero]
    have hsplit : (decimal (total / 3600) ++ cstr ":" ++ zeroFill 2 (decimal
        (total % 3600 / 60)) ++ cstr ":" ++ zeroFill 2 (decimal (total % 60))).splitOn (byteOf ':')
        = [decimal (total / 3600), zeroFill 2 (decimal (total % 3600 / 60)),
          zeroFill 2 (decimal (total % 60))] := by
      rw [show cstr ":" = [byteOf ':'] from rfl]
      simp only [List.append_assoc, List.cons_append, List.nil_append]
      rw [List.splitOn_append_cons_self_of_not_mem hhours,
        List.splitOn_append_cons_self_of_not_mem hminutes', List.splitOn_eq_singleton hsecs]
    rw [readDuration, hsplit]
    simp only [ofRadix_decimal, ofRadix_zeroFill_decimal, Option.bind_eq_bind, Option.bind_some,
      Option.some.injEq]
    omega

/-! ## The summary -/

/-- A name without a space or a newline. -/
def HookName (name : List UInt8) : Prop := byteOf ' ' ∉ name ∧ newline ∉ name

theorem readLabel_append (label text : List UInt8) :
    readLabel label (label ++ text) = some text := by
  rw [readLabel, List.take_left, if_pos rfl, List.drop_left]

def summaryHookLine (hook : List UInt8 × Nat) : List UInt8 :=
  cstr "      " ++ (hook.1 ++ cstr " : " ++ decimal hook.2)

/-- The lines under the counters. -/
def hookLines : List (List UInt8 × Nat) → List (List UInt8)
  | [] => []
  | hooks => cstr "    per hook :" :: hooks.map summaryHookLine

def summaryLines (stats : TraceStats) (total : Nat) : List (List UInt8) :=
  [cstr "[=] Session summary", cstr "    events   : " ++ decimal stats.events,
    cstr "    dropped  : " ++ decimal stats.dropped.toNat,
    cstr "    duration : " ++ formatDuration total] ++ hookLines (sortedHooks stats)

theorem formatSummary_lines (stats : TraceStats) (total : Nat) :
    formatSummary stats total = terminated newline (summaryLines stats total) := by
  have hend : cstr "\n" = [newline] := rfl
  have hhooks : ∀ hooks : List (List UInt8 × Nat), hooks.flatMap summaryHook
      = terminated newline (hooks.map summaryHookLine) := by
    intro hooks
    have hline : summaryHook = fun hook => summaryHookLine hook ++ [newline] := by
      funext hook
      rw [summaryHook, summaryHookLine, hend]
      simp only [List.append_assoc]
    rw [terminated, List.flatMap_map, hline]
  have hlines : (if sortedHooks stats ≠ [] then cstr "    per hook :\n" ++
      (sortedHooks stats).flatMap summaryHook else [])
      = terminated newline (hookLines (sortedHooks stats)) := by
    cases hsorted : sortedHooks stats with
    | nil => rfl
    | cons hook hooks =>
        rw [if_pos (List.cons_ne_nil _ _), hhooks, hookLines, terminated_cons]
        · rfl
        · intro hnil
          cases hnil
  rw [formatSummary, summaryLines, terminated_append, ← hlines]
  simp only [List.flatten_cons, List.flatten_nil, List.append_nil, terminated,
    List.flatMap_cons, List.flatMap_nil, List.append_assoc, hend]
  rfl

theorem readHook_line {hook : List UInt8 × Nat} (h : HookName hook.1) :
    readHook (summaryHookLine hook) = some hook := by
  have hname : ((hook.1 ++ cstr " : ") ++ decimal hook.2).takeWhile (· ≠ byteOf ' ')
      = hook.1 := by
    rw [List.append_assoc, List.takeWhile_append_of_pos]
    · exact List.append_nil _
    · intro b hb
      refine decide_eq_true ?_
      rintro rfl
      exact h.1 hb
  rw [readHook, summaryHookLine, readLabel_append]
  simp only [Option.bind_eq_bind, Option.bind_some, hname, readLabel_append, ofRadix_decimal]

theorem readHooks_lines {hooks : List (List UInt8 × Nat)} (h : ∀ hook ∈ hooks, HookName hook.1) :
    readHooks (hookLines hooks) = some hooks := by
  cases hooks with
  | nil => rfl
  | cons hook rest =>
      show (if cstr "    per hook :" = cstr "    per hook :" then _ else none) = _
      rw [if_pos rfl]
      have hall : ∀ l : List (List UInt8 × Nat), (∀ x ∈ l, HookName x.1) →
          (l.map summaryHookLine).mapM readHook = some l := by
        intro l
        induction l with
        | nil => exact fun _ => rfl
        | cons x l ih =>
            intro hl
            rw [List.map_cons, List.mapM_cons, readHook_line (hl x List.mem_cons_self),
              ih fun y hy => hl y (List.mem_cons_of_mem _ hy)]
            rfl
      exact hall _ h

theorem newline_not_mem_hookLines {hooks : List (List UInt8 × Nat)}
    (h : ∀ hook ∈ hooks, HookName hook.1) : ∀ line ∈ hookLines hooks, newline ∉ line := by
  have hdigit : isDigit newline = false := by decide
  cases hooks with
  | nil =>
      intro line hline
      cases hline
  | cons x rest =>
      intro line hline
      rcases List.mem_cons.mp hline with rfl | hline
      · decide
      · obtain ⟨hook, hhook, rfl⟩ := List.mem_map.mp hline
        have hname := (h hook hhook).2
        have hcount := not_mem_decimal hdigit hook.2
        simp only [summaryHookLine, List.mem_append, not_or]
        exact ⟨by decide, ⟨hname, by decide⟩, hcount⟩

theorem newline_not_mem_formatDuration (total : Nat) : newline ∉ formatDuration total := by
  have hdigit : isDigit newline = false := by decide
  have hcolon : newline ∉ cstr ":" := by decide
  rw [formatDuration]
  split
  · simp only [List.mem_append, not_or]
    exact ⟨⟨⟨⟨not_mem_decimal hdigit _, hcolon⟩, not_mem_zeroFill hdigit _ _⟩, hcolon⟩,
      not_mem_zeroFill hdigit _ _⟩
  · simp only [List.mem_append, not_or]
    exact ⟨⟨not_mem_decimal hdigit _, hcolon⟩, not_mem_zeroFill hdigit _ _⟩

theorem newline_not_mem_summaryLines {stats : TraceStats} (total : Nat)
    (h : ∀ hook ∈ sortedHooks stats, HookName hook.1) :
    ∀ line ∈ summaryLines stats total, newline ∉ line := by
  have hdigit : isDigit newline = false := by decide
  intro line hline
  rcases List.mem_append.mp hline with hline | hline
  · have hlabel : ∀ {label value : List UInt8}, newline ∉ label → newline ∉ value →
        newline ∉ label ++ value := by
      intro label value h1 h2
      rw [List.mem_append, not_or]
      exact ⟨h1, h2⟩
    simp only [List.mem_cons, List.not_mem_nil, or_false] at hline
    rcases hline with rfl | rfl | rfl | rfl
    · decide
    · exact hlabel (by decide) (not_mem_decimal hdigit _)
    · exact hlabel (by decide) (not_mem_decimal hdigit _)
    · exact hlabel (by decide) (newline_not_mem_formatDuration _)
  · exact newline_not_mem_hookLines h line hline

/-- The summary of any counters is read back. -/
theorem readSummary_formatSummary {stats : TraceStats} (total : Nat)
    (h : ∀ hook ∈ sortedHooks stats, HookName hook.1) :
    readSummary (formatSummary stats total)
      = some ⟨stats.events, stats.dropped.toNat, total, sortedHooks stats⟩ := by
  have hlines : ((formatSummary stats total).splitOn newline).dropLast
      = summaryLines stats total := by
    rw [formatSummary_lines]
    exact splitOn_terminated (newline_not_mem_summaryLines total h)
  rw [readSummary, hlines, summaryLines]
  simp only [List.cons_append, List.nil_append, if_true, readLabel_append, Option.bind_eq_bind,
    Option.bind_some, ofRadix_decimal, readDuration_formatDuration, readHooks_lines h]

/-! ## The counters of a session -/

/-- The counters after the events of the given hooks. -/
def recordAll (hooks : List (List UInt8)) : TraceStats := hooks.foldl TraceStats.record .empty

theorem recordAll_eq (hooks : List (List UInt8)) :
    recordAll hooks = { events := hooks.length, dropped := 0, perHook := tally hooks } := by
  induction hooks using List.reverseRecOn with
  | nil => rfl
  | append_singleton hooks hook ih =>
      rw [recordAll, List.foldl_append]
      show (recordAll hooks).record hook = _
      rw [ih, TraceStats.record, tally_snoc, List.length_append]
      rfl

/-- What the summary of a session tells about the hooks of its events. -/
structure SummaryTells (hooks : List (List UInt8)) (dropped : UInt32) (total : Nat)
    (summary : Summary) : Prop where
  events : summary.events = hooks.length
  dropped : summary.dropped = dropped.toNat
  seconds : summary.seconds = total
  /-- Every hook that had an event is listed, with the number of its events. -/
  counts : ∀ name n, (name, n) ∈ summary.perHook ↔ n = hooks.count name ∧ 0 < n
  /-- A hook is listed once. -/
  once : (summary.perHook.map Prod.fst).Nodup
  /-- The listed numbers add up. -/
  sum : (summary.perHook.map Prod.snd).sum = hooks.length
  /-- More events first, then by name. -/
  sorted : summary.perHook.Pairwise fun a b =>
    b.2 < a.2 ∨ a.2 = b.2 ∧ a.1.map UInt8.toNat ≤ b.1.map UInt8.toNat

/-- **THE SUMMARY TELLS**: whatever the events were, the text of the summary is
    read back to the counters of their hooks. -/
theorem summary_tells {hooks : List (List UInt8)} (h : ∀ name ∈ hooks, HookName name)
    (dropped : UInt32) (total : Nat) :
    ∃ summary, readSummary (formatSummary { recordAll hooks with dropped := dropped } total)
        = some summary ∧ SummaryTells hooks dropped total summary := by
  have hstats : ({ recordAll hooks with dropped := dropped } : TraceStats)
      = { events := hooks.length, dropped := dropped, perHook := tally hooks } := by
    rw [recordAll_eq]
  rw [hstats]
  have hperm := List.mergeSort_perm (tally hooks) fun a b => !hookBefore b a
  have hmem : ∀ name n, (name, n) ∈ (tally hooks).mergeSort (fun a b => !hookBefore b a) ↔
      n = hooks.count name ∧ 0 < n := fun name n => hperm.mem_iff.trans mem_tally
  refine ⟨_, readSummary_formatSummary total ?_, rfl, rfl, rfl, hmem, ?_, ?_, ?_⟩
  · rintro ⟨name, n⟩ hhook
    obtain ⟨rfl, hpos⟩ := (hmem name n).mp hhook
    exact h name (List.count_pos_iff.mp hpos)
  · exact (hperm.map Prod.fst).nodup_iff.mpr (nodup_tally hooks)
  · exact ((hperm.map Prod.snd).sum_eq).trans (sum_tally hooks)
  · exact sortedHooks_sorted _

theorem summary_tells_two :
    ∃ summary, readSummary (formatSummary
        { recordAll [cstr "ntdll.dll!NtClose", cstr "ntdll.dll!NtReadFile",
          cstr "ntdll.dll!NtClose"] with dropped := 2 } 4) = some summary ∧
      SummaryTells [cstr "ntdll.dll!NtClose", cstr "ntdll.dll!NtReadFile",
        cstr "ntdll.dll!NtClose"] 2 4 summary := by
  refine summary_tells ?_ 2 4
  intro name hname
  simp only [List.mem_cons, List.not_mem_nil, or_false] at hname
  rcases hname with rfl | rfl | rfl <;> exact ⟨by decide, by decide⟩

/-! ## The status line -/

/-- Grouping puts commas between the digits. -/
theorem groupFrom_digits {digits : List UInt8} (h : byteOf ',' ∉ digits) (count : Nat) :
    (groupFrom count digits).filter (· ≠ byteOf ',') = digits := by
  induction digits generalizing count with
  | nil => rfl
  | cons d ds ih =>
      have hd : d ≠ byteOf ',' := fun heq => h (heq ▸ List.mem_cons_self)
      have hds := ih (fun hmem => h (List.mem_cons_of_mem _ hmem)) (count + 1)
      rw [groupFrom, List.filter_append, hds]
      split <;> simp [hd]

/-- **GROUPED DIGITS** are the digits of the number. -/
theorem groupThousands_digits (value : Nat) :
    (groupThousands value).filter (· ≠ byteOf ',') = decimal value := by
  have hcomma : byteOf ',' ∉ (decimal value).reverse := by
    rw [List.mem_reverse]
    exact not_mem_decimal (by decide) value
  rw [groupThousands, List.filter_reverse, groupFrom_digits hcomma, List.reverse_reverse]

/-- **THE WIDTH** is never exceeded. -/
theorem formatStatusLine_width (stats : TraceStats) (rate total : Nat) {maxWidth : Nat}
    (h : maxWidth ≠ 0) : (formatStatusLine stats rate total maxWidth).length ≤ maxWidth := by
  rw [formatStatusLine]
  split
  · rw [List.length_take]
    exact Nat.min_le_left _ _
  · rename_i hfits
    exact Nat.not_lt.mp fun hlt => hfits ⟨h, hlt⟩

/-- A hook that the status line leaves out has no more events than one it shows. -/
theorem statusLine_top (stats : TraceStats) :
    ∀ a ∈ (sortedHooks stats).take 4, ∀ b ∈ (sortedHooks stats).drop 4, b.2 ≤ a.2 := by
  have hsorted := sortedHooks_sorted stats
  rw [← List.take_append_drop 4 (sortedHooks stats), List.pairwise_append] at hsorted
  intro a ha b hb
  rcases hsorted.2.2 a ha b hb with hlt | ⟨heq, -⟩
  · exact Nat.le_of_lt hlt
  · exact Nat.le_of_eq heq.symm

end ScopeStats
