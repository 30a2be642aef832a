import ApiScope.TraceOutputProofs
import ApiScope.DrainProofs
import ApiScope.PathHistoryProofs

/-! # The trace file — from EmitTraceEvent to the lines of the output

    The whole way of an event: a thread of the target publishes it in the
    ring, the reader takes it out and queues it, the writer annotates it,
    counts it and puts a JSON line into the output file, which is open in
    text mode.

    What a reader of the file gets, once `Drain` has returned: one object for
    every well-formed event that was read, in the order of the positions in
    the ring, and each gives its event back, but for the path that the
    tracker may have added.  No event that was accepted before the stop is
    missing, unless the wait fails or a published slot is behind a hole when
    the stop comes (`trace_file`).  The summary counts the same lines by the
    same names (`summary_counts_lines`). -/

namespace ScopeTraceFile

open ScopeBytes ScopeRead ScopeRead.Read ScopeProtocol ScopeParser ScopeRenderer
  ScopeCorrelator ScopeGrammar ScopeBounds ScopeJson ScopeJsonl ScopeLines ScopeHistory
  ScopePathHistory ScopeStats ScopeTally ScopeOutput ScopeTransition ScopeRing ScopeSession
  ScopeDrain

/-! ## The file in text mode -/

def carriageReturn : UInt8 := byteOf '\r'

/-- What a stream in text mode writes to its file. -/
def textMode (stream : List UInt8) : List UInt8 :=
  stream.flatMap fun b => if b = newline then [carriageReturn, newline] else [b]

theorem textMode_line {line : List UInt8} (h : newline ∉ line) : textMode line = line := by
  induction line with
  | nil => rfl
  | cons b line ih =>
      have hb : b ≠ newline := fun heq => h (heq ▸ List.mem_cons_self)
      rw [textMode, List.flatMap_cons, if_neg hb]
      exact congrArg (b :: ·) (ih fun hmem => h (List.mem_cons_of_mem _ hmem))

/-- Lines end with a carriage return and a newline. -/
theorem textMode_terminated {lines : List (List UInt8)} (h : ∀ line ∈ lines, newline ∉ line) :
    textMode (terminated newline lines)
      = terminated newline (lines.map (· ++ [carriageReturn])) := by
  induction lines with
  | nil => rfl
  | cons line lines ih =>
      have hline := textMode_line (h line List.mem_cons_self)
      have hrest := ih fun l hl => h l (List.mem_cons_of_mem _ hl)
      rw [textMode] at hline hrest
      rw [List.map_cons, terminated_cons, terminated_cons, textMode, List.flatMap_append, hline,
        List.flatMap_cons, if_pos rfl, hrest]
      simp only [List.append_assoc, List.cons_append, List.nil_append]

/-- The values of a file of JSON lines. -/
def readJsonLines (file : List UInt8) : Option (List Json) :=
  ((file.splitOn newline).dropLast).mapM parse

/-- White space behind a value does not count. -/
theorem parse_print_return {v : Json} (h : v.Strings fun s => isUtf8 s = true) :
    parse (v.print ++ [carriageReturn]) = some v := by
  have hread := readsBack v ((v.print ++ [carriageReturn]).length + 1) [carriageReturn]
    (by rw [List.length_append]; omega) ?_
  · rw [parse, if_pos (isUtf8_append (isUtf8_print h) (by decide)), hread]
    rfl
  · intro c hc
    rw [← Option.mem_some.mp hc]
    decide

/-- Printed values are read back from a file, line by line. -/
theorem readJsonLines_print {values : List Json}
    (h : ∀ v ∈ values, v.Strings fun s => isUtf8 s = true) :
    readJsonLines (textMode (terminated newline (values.map Json.print))) = some values := by
  have hfree : ∀ line ∈ values.map Json.print, newline ∉ line := by
    intro line hline hmem
    obtain ⟨v, hv, rfl⟩ := List.mem_map.mp hline
    exact absurd (print_no_control (h v hv) newline hmem) (by decide)
  have hfree' : ∀ line ∈ (values.map Json.print).map (· ++ [carriageReturn]),
      newline ∉ line := by
    intro ended hended hmem
    obtain ⟨line, hline, rfl⟩ := List.mem_map.mp hended
    rcases List.mem_append.mp hmem with hmem | hmem
    · exact hfree line hline hmem
    · exact absurd hmem (by decide)
  rw [readJsonLines, textMode_terminated hfree, splitOn_terminated hfree']
  clear hfree hfree'
  induction values with
  | nil => rfl
  | cons v values ih =>
      simp only [List.map_cons, List.mapM_cons, parse_print_return (h v List.mem_cons_self)]
      rw [ih fun w hw => h w (List.mem_cons_of_mem _ hw)]
      rfl

/-! ## What a line tells -/

/-- An event whose path has been added by the tracker, or not. -/
def withPath (x : JsonlEvent) : Option (List UInt8) → JsonlEvent
  | none => x
  | some path => { x with fields := x.fields ++ [(cstr "path", .text path)] }

/-- The object gives back the event, but for a path that may have been added. -/
structure Tells (calls : SystemCalls) (e : TraceEvent) (j : Json) : Prop where
  distinct : j.DistinctKeys
  told : ∃ types path, readEvent types j = some (withPath (jsonlEventOf calls e) path)

def jsonlField (calls : SystemCalls) (f : TraceField) : List UInt8 × FieldValue :=
  (f.name, fieldValue calls f.type.toNat f.value)

theorem jsonlEventOf_fields (calls : SystemCalls) (e : TraceEvent) :
    (jsonlEventOf calls e).fields = (fieldsOf e).map (jsonlField calls) := by
  show (viewsOf e).map _ = _
  rw [fieldsOf, List.map_map]
  refine List.map_congr_left fun v hv => ?_
  have hlt := (mem_viewsAt hv).1
  show _ = (v.name, fieldValue calls (UInt8.ofNat v.type).toNat (v.valueBytes e.byte))
  rw [UInt8.toNat_ofNat', Nat.mod_eq_of_lt hlt]

/-- Two events with the same header and the same names. -/
theorem jsonlEventOf_eq {calls : SystemCalls} {e out : TraceEvent}
    (hsequence : out.sequence = e.sequence) (htimestamp : out.timestamp100ns = e.timestamp100ns)
    (hthread : out.threadId = e.threadId) (hflags : out.flags = e.flags)
    (hmodule : moduleNameOf out = moduleNameOf e) (hapi : apiNameOf out = apiNameOf e) :
    jsonlEventOf calls out
      = { jsonlEventOf calls e with fields := (jsonlEventOf calls out).fields } := by
  simp only [jsonlEventOf, hsequence, htimestamp, hthread, hflags, hmodule, hapi]

theorem jsonlEventOf_annotated (calls : SystemCalls) {e out : TraceEvent} {path : List UInt16}
    (h : Annotated e out path) :
    jsonlEventOf calls out
      = withPath (jsonlEventOf calls e) (some (wideText calls (pathField path).value)) := by
  have hfields : (jsonlEventOf calls out).fields = (jsonlEventOf calls e).fields
      ++ [(cstr "path", .text (wideText calls (pathField path).value))] := by
    rw [jsonlEventOf_fields, jsonlEventOf_fields, h.fields, List.map_append]
    rfl
  rw [jsonlEventOf_eq h.sequence h.timestamp100ns h.threadId h.flags h.moduleName h.apiName,
    hfields, withPath]

theorem represents_copied {d e : TraceEvent} {m a : List UInt8} {fs : List TraceField}
    (h : Represents e m a fs) (hcopied : Copied d e) : Represents d m a fs := by
  have hsize : sizeofEventHeader ≤ e.size := by
    rw [h.size]
    exact Nat.le_add_right _ _
  have h32 : sizeofEventHeader = 32 := rfl
  have hword : ∀ off n, off + n ≤ 32 → word d.byte off n = word e.byte off n := fun off n hn =>
    word_congr fun i _ h2 => hcopied i (by omega)
  refine ⟨(hword 0 4 (by decide)).trans h.magic, (hword 4 2 (by decide)).trans h.version,
    (hword 28 1 (by decide)).trans h.moduleNameLength,
    (hword 29 1 (by decide)).trans h.apiNameLength,
    (hword 10 2 (by decide)).trans h.fieldCount, (hword 6 2 (by decide)).trans h.size, ?_, ?_,
    h.moduleOk, h.apiOk, h.fieldsOk, h.distinct⟩
  · exact Nat.le_trans (Nat.le_of_eq (hword 6 2 (by decide))) h.fits
  · have hheld := h.held
    rw [Holds] at hheld ⊢
    refine (slice_congr fun i h1 h2 => ?_).trans hheld
    exact hcopied i (by rw [h.size]; omega)

/-- A copy says what its original says. -/
theorem jsonlEventOf_copied (calls : SystemCalls) {d e : TraceEvent}
    (hvalid : receivedValid e = true) (h : Copied d e) :
    jsonlEventOf calls d = jsonlEventOf calls e := by
  have hrep := represents_of_valid hvalid
  have hcopy := represents_copied hrep h
  obtain ⟨hm, ha, hfs, -⟩ := hcopy.parsed
  have hsize : 32 ≤ e.size := by
    rw [hrep.size]
    exact Nat.le_add_right 32 _
  have hword : ∀ off n, off + n ≤ 32 → word d.byte off n = word e.byte off n := fun off n hn =>
    word_congr fun i _ h2 => h i (by omega)
  have hfields : (jsonlEventOf calls d).fields = (jsonlEventOf calls e).fields := by
    rw [jsonlEventOf_fields, jsonlEventOf_fields]
    exact congrArg _ hfs
  rw [jsonlEventOf_eq (hword 12 4 (by decide)) (hword 16 8 (by decide))
    (hword 24 4 (by decide)) (hword 8 2 (by decide)) hm ha, hfields]

/-- What the writer renders of a well-formed event: the event, or the event with
    a path. -/
theorem writeEvent_rendered {e : TraceEvent} (hvalid : receivedValid e = true)
    (t : HandlePathTracker) :
    receivedValid (writeEvent t e).2 = true ∧
      ((writeEvent t e).2 = e ∨ ∃ path, Annotated e (writeEvent t e).2 path) := by
  have hrep := represents_of_valid hvalid
  rw [writeEvent_snd hrep]
  by_cases hroom : ∃ path, annotationOf (observeFields t (fieldsOf e)) (fieldsOf e) = some path ∧
      Room e path
  · obtain ⟨path, hpath, hfit⟩ := hroom
    have hann := annotated_of_lookup hvalid hpath hfit
    exact ⟨hann.valid, Or.inr ⟨path, hann⟩⟩
  · have hself : annotate (observeFields t (fieldsOf e)) e = e :=
      annotate_eq_self hrep fun path hpath => Nat.not_le.mp fun hfit => hroom ⟨path, hpath, hfit⟩
    rw [hself]
    exact ⟨hvalid, Or.inl rfl⟩

/-- The line of an event tells it, whatever the tracker holds. -/
theorem tells_written (calls : SystemCalls) {e : TraceEvent} (hvalid : receivedValid e = true)
    (t : HandlePathTracker) :
    Tells calls e (.object (jsonMembers calls (writeEvent t e).2)) := by
  obtain ⟨hout, hsame⟩ := writeEvent_rendered hvalid t
  refine ⟨distinctKeys_jsonMembers calls (accepted_of_valid hout),
    (viewsOf (writeEvent t e).2).map TraceFieldView.type, ?_⟩
  rcases hsame with heq | ⟨path, hann⟩
  · refine ⟨none, (readEvent_jsonMembers calls _).trans ?_⟩
    rw [heq]
    rfl
  · exact ⟨_, (readEvent_jsonMembers calls _).trans
      (congrArg some (jsonlEventOf_annotated calls hann))⟩

/-! ## The lines of the file -/

/-- A file of JSON lines. -/
def WritesJsonl (c : OutputConfig) : Prop := c.fileOpen = true ∧ c.format = .jsonl

theorem rendered_valid {es : List TraceEvent} (hvalid : ∀ e ∈ es, receivedValid e = true)
    (t : HandlePathTracker) : ∀ out ∈ (writeAll t es).2, receivedValid out = true := by
  induction es generalizing t with
  | nil => nofun
  | cons e es ih =>
      intro out hout
      rcases List.mem_cons.mp hout with rfl | hout
      · exact (writeEvent_rendered (hvalid e List.mem_cons_self) t).1
      · exact ih (fun x hx => hvalid x (List.mem_cons_of_mem _ hx)) _ out hout

/-- The values of the lines. -/
def lineValues (calls : SystemCalls) (steps : List OutputStep) : List Json :=
  (rendered steps).map fun e => .object (jsonMembers calls e)

/-- **THE LINES** are read back from the file. -/
theorem readJsonLines_file {c : OutputConfig} (hc : WritesJsonl c) {calls : SystemCalls}
    (hcalls : ∀ wide, isUtf8 (calls.wideCharToMultiByte wide) = true)
    {steps : List OutputStep} (hvalid : ∀ e ∈ eventsOf steps, receivedValid e = true) :
    readJsonLines (textMode (runOutput c calls steps).output.file)
      = some (lineValues calls steps) := by
  have hout := rendered_valid hvalid .empty
  have hfile : (runOutput c calls steps).output.file
      = terminated newline ((lineValues calls steps).map Json.print) := by
    rw [(written_run c calls steps).file, lineValues, List.map_map, terminated, List.flatMap_map]
    refine List.flatMap_congr fun e he => ?_
    rw [fileText, if_pos hc.1, hc.2]
    exact run_renderTraceEventJsonl calls (accepted_of_valid (hout e he))
  rw [hfile]
  refine readJsonLines_print fun v hv => ?_
  obtain ⟨e, he, rfl⟩ := List.mem_map.mp hv
  exact strings_jsonMembers hcalls (accepted_of_valid (hout e he))

/-! ## The file of a session -/

variable {T : Type} [DecidableEq T]

/-- The line of the event at a position of the ring: the well-formed events
    before it come first. -/
def lineOf (h : List (SessionEvent T)) (position : Nat) : Nat :=
  ((reads h).take position).countP receivedValid

/-- An element that a filter keeps stands behind the kept ones before it. -/
theorem filter_getElem? {α : Type} {p : α → Bool} {l : List α} {i : Nat} {x : α}
    (h : l[i]? = some x) (hx : p x = true) :
    (l.filter p)[(l.take i).countP p]? = some x := by
  obtain ⟨hi, rfl⟩ := List.getElem?_eq_some_iff.mp h
  have hsplit : l = l.take i ++ l[i] :: l.drop (i + 1) := by
    rw [← List.drop_eq_getElem_cons hi, List.take_append_drop]
  have hfilter : l.filter p = (l.take i).filter p ++ l[i] :: (l.drop (i + 1)).filter p := by
    conv_lhs => rw [hsplit]
    rw [List.filter_append, List.filter_cons_of_pos hx]
  rw [hfilter, List.countP_eq_length_filter, List.getElem?_append_right (Nat.le_refl _),
    Nat.sub_self]
  rfl

/-- Every kept element is that of some index. -/
theorem filter_getElem?_inv {α : Type} {p : α → Bool} {l : List α} {k : Nat} {x : α}
    (h : (l.filter p)[k]? = some x) :
    ∃ i, l[i]? = some x ∧ p x = true ∧ (l.take i).countP p = k := by
  induction l generalizing k with
  | nil => cases h
  | cons a l ih =>
      by_cases ha : p a = true
      · rw [List.filter_cons_of_pos ha] at h
        cases k with
        | zero =>
            obtain rfl := Option.some.inj h
            exact ⟨0, rfl, ha, rfl⟩
        | succ k =>
            obtain ⟨i, hi, hx, hcount⟩ := ih h
            refine ⟨i + 1, hi, hx, ?_⟩
            rw [List.take_succ_cons, List.countP_cons_of_pos ha, hcount]
      · rw [List.filter_cons_of_neg ha] at h
        obtain ⟨i, hi, hx, hcount⟩ := ih h
        refine ⟨i + 1, hi, hx, ?_⟩
        rw [List.take_succ_cons, List.countP_cons_of_neg ha, hcount]

theorem countP_take_lt {α : Type} {p : α → Bool} {l : List α} {i j : Nat} {x : α}
    (h : l[i]? = some x) (hx : p x = true) (hij : i < j) :
    (l.take i).countP p < (l.take j).countP p := by
  have hnext : (l.take (i + 1)).countP p = (l.take i).countP p + 1 := by
    rw [List.take_add_one, h, List.countP_append]
    simp [hx]
  have hle : (l.take (i + 1)).countP p ≤ (l.take j).countP p :=
    (List.take_sublist_take_left hij).countP_le
  omega

/-- What the objects of the file are, when `Drain` has returned. -/
structure TraceFile (calls : SystemCalls) (h : List (SessionEvent T)) (objects : List Json) :
    Prop where
  /-- A line for every well-formed event that was read. -/
  length : objects.length = (reads h).countP receivedValid
  /-- A line is that of an event some thread published, and tells it. -/
  told : ∀ k j, objects[k]? = some j → ∃ x ∈ publications (ringHistory h),
    receivedValid x.event = true ∧ lineOf h x.position = k ∧ Tells calls x.event j
  /-- The lines are in the order of the ring. -/
  ordered : ∀ q q' e, (reads h)[q]? = some e → receivedValid e = true → q < q' →
    lineOf h q < lineOf h q'

/-- No well-formed event that was accepted before the stop is missing, and each
    has a line of its own, in the order of the ring. -/
def KeepsAccepted (calls : SystemCalls) (h : List (SessionEvent T)) (objects : List Json) :
    Prop :=
  ∀ e q, AcceptedBeforeStop h e q → receivedValid e = true →
    (∃ j, objects[lineOf h q]? = some j ∧ Tells calls e j) ∧
      ∀ q', q < q' → lineOf h q < lineOf h q'

/-- An event that is rendered is well-formed. -/
theorem renders_valid {p : Exit T × List (SessionEvent T)}
    (h : Reachable (exitSystem T) p) : ∀ e ∈ renders p.2, receivedValid e = true := by
  intro e he
  have hmem : e ∈ (reads p.2).filter receivedValid := by
    rw [← (exit_facts h).1.exact]
    exact List.mem_append_left _ he
  exact (List.mem_filter.mp hmem).2

/-- An event that was accepted before the stop, when both loops have ended. -/
theorem accepted_read {p : Exit T × List (SessionEvent T)}
    (h : ReachableIf (exitSystem T) ExitsClear p) (hr : p.1.session.reader = .done)
    {e : TraceEvent} {q : Nat} (hacc : AcceptedBeforeStop p.2 e q) :
    ∃ d, (reads p.2)[q]? = some d ∧ Copied d e ∧ SizeOk e := by
  have hrun := session_of_exit h
  obtain ⟨-, hh, hd⟩ := drained_reachable hrun
  have hpassed := hd.passed (by rw [hr]; rfl) e q hacc
  have hidle : p.1.session.target.consumer = .idle := hd.idle (by rw [hr]; rfl)
  have hdeq : p.1.session.target.released = p.1.session.target.ring.dequeuePosition := by
    rw [RingState.released, hidle]
  obtain ⟨t, ht⟩ := hacc
  have hmem : .ring (.returned t e (some q)) ∈ p.2 := (List.takeWhile_prefix _).subset ht
  have hpub : ⟨t, q, e⟩ ∈ publications (ringHistory p.2) :=
    hh.outcomes.returned _ [] (List.append_nil _).symm t e q (mem_ringHistory.mpr hmem)
  have hlen : q < (deliveries (ringHistory p.2)).length := by
    rw [hh.delivery.count, ← hdeq]
    exact hpassed
  have hget := List.getElem?_eq_getElem hlen
  refine ⟨_, ?_, hh.delivery.copied hpub hget, hh.delivery.sized _ hpub⟩
  rw [reads_eq_deliveries hrun]
  exact hget

/-- The value of a line, by the event the writer handled. -/
theorem lineValues_getElem? (calls : SystemCalls) {steps : List OutputStep} {k : Nat}
    {d : TraceEvent} (h : (eventsOf steps)[k]? = some d) (hvalid : receivedValid d = true) :
    ∃ j, (lineValues calls steps)[k]? = some j ∧ Tells calls d j := by
  obtain ⟨hk, rfl⟩ := List.getElem?_eq_some_iff.mp h
  have hsplit : eventsOf steps = (eventsOf steps).take k ++
      (eventsOf steps)[k] :: (eventsOf steps).drop (k + 1) := by
    rw [← List.drop_eq_getElem_cons hk, List.take_append_drop]
  have hwritten := writeAll_getElem? .empty ((eventsOf steps).take k)
    ((eventsOf steps).drop (k + 1)) (eventsOf steps)[k]
  rw [← hsplit, List.length_take, Nat.min_eq_left (Nat.le_of_lt hk)] at hwritten
  refine ⟨_, ?_, tells_written calls hvalid (writeAll .empty ((eventsOf steps).take k)).1⟩
  rw [lineValues, List.getElem?_map, rendered, hwritten]
  rfl

theorem tells_copied {calls : SystemCalls} {d e : TraceEvent} {j : Json}
    (hvalid : receivedValid e = true) (hcopied : Copied d e) (h : Tells calls d j) :
    Tells calls e j := by
  obtain ⟨types, path, htold⟩ := h.told
  rw [jsonlEventOf_copied calls hvalid hcopied] at htold
  exact ⟨h.distinct, types, path, htold⟩

/-- **THE TRACE FILE**: when `Drain` has returned, whatever the interleaving of
    the target, the two loops and the footer was, the file is a list of JSON
    lines, and each tells an event that a thread published, in the order of the
    ring.  Every well-formed event accepted before the stop has its line if the
    wait works and the stop finds no published slot behind a hole. -/
theorem trace_file {p : Exit T × List (SessionEvent T)}
    (h : Reachable (exitSystem T) p) (hr : p.1.session.reader = .done)
    (hw : p.1.session.writer = .done) {c : OutputConfig} (hc : WritesJsonl c)
    {calls : SystemCalls} (hcalls : ∀ wide, isUtf8 (calls.wideCharToMultiByte wide) = true)
    {steps : List OutputStep} (hsteps : eventsOf steps = renders p.2) :
    ∃ objects, readJsonLines (textMode (runOutput c calls steps).output.file) = some objects ∧
      TraceFile calls p.2 objects ∧
      (ReachableIf (exitSystem T) ExitsClear p → KeepsAccepted calls p.2 objects) := by
  obtain ⟨hhand, hh, hreads⟩ := exit_facts h
  have hevents : eventsOf steps = (reads p.2).filter receivedValid :=
    hsteps.trans (hhand.complete hr hw)
  have hvalid : ∀ e ∈ eventsOf steps, receivedValid e = true := by
    rw [hsteps]
    exact renders_valid h
  refine ⟨_, readJsonLines_file hc hcalls hvalid, ⟨?_, ?_, ?_⟩, ?_⟩
  · rw [lineValues, List.length_map, rendered, writeAll_length, hevents,
      List.countP_eq_length_filter]
  · intro k j hj
    have hk : k < (eventsOf steps).length := by
      have hlt := (List.getElem?_eq_some_iff.mp hj).1
      rwa [lineValues, List.length_map, rendered, writeAll_length] at hlt
    obtain ⟨d, hd⟩ : ∃ d, (eventsOf steps)[k]? = some d := ⟨_, List.getElem?_eq_getElem hk⟩
    obtain ⟨j', hj', htells⟩ :=
      lineValues_getElem? calls hd (hvalid d (List.mem_of_getElem? hd))
    obtain rfl := Option.some.inj (hj.symm.trans hj')
    rw [hevents] at hd
    obtain ⟨q, hq, hdvalid, hline⟩ := filter_getElem?_inv hd
    have hdel := hq
    rw [hreads] at hdel
    obtain ⟨x, hx, hpos, hcopied⟩ := hh.delivery.inOrder q _ hdel
    have hxvalid : receivedValid x.event = true :=
      (receivedValid_congr (hh.delivery.sized x hx).1 hcopied).symm.trans hdvalid
    exact ⟨x, hx, hxvalid, hpos ▸ hline, tells_copied hxvalid hcopied htells⟩
  · intro q q' e hread he hlt
    exact countP_take_lt hread he hlt
  · intro hclear e q hacc he
    obtain ⟨d, hd, hcopied, hsize⟩ := accepted_read hclear hr hacc
    have hdvalid := (receivedValid_congr hsize.1 hcopied).trans he
    have hget := filter_getElem? hd hdvalid
    rw [← hevents] at hget
    obtain ⟨j, hj, htells⟩ := lineValues_getElem? calls hget hdvalid
    exact ⟨⟨j, hj, tells_copied he hcopied htells⟩,
      fun q' hlt => countP_take_lt hd hdvalid hlt⟩

/-- A file of JSON lines and a footer. -/
def jsonlConfig : OutputConfig :=
  { format := .jsonl, quiet := false, fileOpen := true, colorEnabled := false
    footerEnabled := true }

def someReadings : Readings := { rate := 1, total := 3, width := 80, dropped := 0 }

/-- The footer is drawn before every event. -/
def withFooters (es : List TraceEvent) : List OutputStep :=
  es.flatMap fun e => [.footer someReadings, .event e someReadings]

theorem eventsOf_withFooters (es : List TraceEvent) : eventsOf (withFooters es) = es := by
  induction es with
  | nil => rfl
  | cons e es ih => exact congrArg (e :: ·) ih

/-- One event goes all the way to the file. -/
theorem trace_file_run : ∃ p : Exit Unit × List (SessionEvent Unit), ∃ objects,
    readJsonLines (textMode (runOutput jsonlConfig asciiCalls
        (withFooters (renders p.2))).output.file) = some objects ∧
      TraceFile asciiCalls p.2 objects ∧ KeepsAccepted asciiCalls p.2 objects ∧
      (renders p.2).length = 1 ∧
      ∃ e q, AcceptedBeforeStop p.2 e q ∧ receivedValid e = true := by
  have hexec : ((exitSystem Unit).execWhile admitsClear (startExit Unit) deliveredRun).map
      (drainedAfter 1) = some true := by
    decide +kernel
  obtain ⟨p, hp, hdrained⟩ := Option.map_eq_some_iff.mp hexec
  have hstart : ReachableIf (exitSystem Unit) ExitsClear (startExit Unit) :=
    .init ⟨⟨startSession_init Unit, fun _ => rfl⟩, rfl⟩
  have hrun := hstart.execWhile (fun _ _ => exitsClear_of_admits) _ hp
  obtain ⟨hr, hw, hlen, haccepted⟩ := drainedAfter_iff hdrained
  obtain ⟨objects, hread, hfile, hkept⟩ := trace_file (hrun.mono fun _ _ _ => trivial) hr hw
    (c := jsonlConfig) ⟨rfl, rfl⟩ isUtf8_asciiCalls (eventsOf_withFooters (renders p.2))
  exact ⟨p, objects, hread, hfile, hkept hrun, hlen, haccepted⟩

/-! ## The summary and the file -/

/-- The `hook` member of a line. -/
def hookOf (j : Json) : Option (List UInt8) := (readMember j (cstr "hook")).bind readText

theorem run_currentHookName (e : TraceEvent) :
    currentHookName.run e.byte = moduleNameOf e ++ cstr "!" ++ apiNameOf e := by
  rw [currentHookName]
  simp only [run_bind, run_readModuleNameLength, run_readApiNameLength, run_readBytes, run_pure]
  rfl

/-- The hook that is counted is the one on the line. -/
theorem hookOf_jsonMembers (calls : SystemCalls) (e : TraceEvent) :
    hookOf (.object (jsonMembers calls e)) = some (currentHookName.run e.byte) := by
  rw [run_currentHookName]
  rfl

theorem hookName_valid {e : TraceEvent} (h : receivedValid e = true) :
    HookName (currentHookName.run e.byte) := by
  have hrep := represents_of_valid h
  have hno : ∀ {moduleName : Bool} {name : List UInt8} {b : UInt8}, IdentifierOk moduleName name →
      identifierChar moduleName b = false → b ∉ name := by
    intro moduleName name b hok hb hmem
    cases hb.symm.trans (hok.2.2 b hmem)
  have hname : ∀ b, identifierChar true b = false → identifierChar false b = false →
      b ∉ cstr "!" → b ∉ currentHookName.run e.byte := by
    intro b h1 h2 h3 hmem
    rw [run_currentHookName] at hmem
    rcases List.mem_append.mp hmem with hmem | hmem
    · rcases List.mem_append.mp hmem with hmem | hmem
      · exact hno hrep.moduleOk h1 hmem
      · exact h3 hmem
    · exact hno hrep.apiOk h2 hmem
  exact ⟨hname _ (by decide) (by decide) (by decide), hname _ (by decide) (by decide) (by decide)⟩

/-- **ONE ACCOUNT**: the summary counts the lines of the file, and each hook has
    as many events as there are lines with its name, whatever the footer drew
    in between. -/
theorem summary_counts_lines {c : OutputConfig} (hc : WritesJsonl c) {calls : SystemCalls}
    (hcalls : ∀ wide, isUtf8 (calls.wideCharToMultiByte wide) = true)
    {steps : List OutputStep} (hvalid : ∀ e ∈ eventsOf steps, receivedValid e = true)
    (now : Readings) :
    ∃ objects summary,
      readJsonLines (textMode (runOutput c calls steps).output.file) = some objects ∧
      readSummary (printSummary now (runOutput c calls steps).output).2 = some summary ∧
      summary.events = objects.length ∧ summary.dropped = now.dropped.toNat ∧
      ∀ name n, (name, n) ∈ summary.perHook ↔
        n = objects.countP (fun j => hookOf j = some name) ∧ 0 < n := by
  have hrendered := rendered_valid hvalid .empty
  obtain ⟨hevents, hhooks⟩ := (written_run c calls steps).counts
  rw [recordAll_eq] at hevents hhooks
  have hperm := List.mergeSort_perm (runOutput c calls steps).output.stats.perHook
    fun a b => !hookBefore b a
  have hmem : ∀ name n, (name, n) ∈ (runOutput c calls steps).output.stats.perHook ↔
      n = ((rendered steps).map fun e => currentHookName.run e.byte).count name ∧ 0 < n := by
    intro name n
    rw [hhooks]
    exact mem_tally
  have hlines : ∀ name, ((rendered steps).map fun e => currentHookName.run e.byte).count name
      = (lineValues calls steps).countP (fun j => hookOf j = some name) := by
    intro name
    rw [lineValues, List.count, List.countP_map, List.countP_map]
    refine List.countP_congr fun e _ => ?_
    simp only [Function.comp_apply, hookOf_jsonMembers, beq_iff_eq, decide_eq_true_eq,
      Option.some.injEq]
  have hprinted : (printSummary now (runOutput c calls steps).output).2
      = formatSummary { (runOutput c calls steps).output.stats with dropped := now.dropped }
          now.total := by
    rw [printSummary]
    dsimp only
    split <;> rfl
  refine ⟨_, ⟨(runOutput c calls steps).output.stats.events, now.dropped.toNat, now.total,
    sortedHooks (runOutput c calls steps).output.stats⟩,
    readJsonLines_file hc hcalls hvalid, ?_, ?_, rfl, ?_⟩
  · rw [hprinted]
    refine readSummary_formatSummary now.total ?_
    rintro ⟨name, n⟩ hhook
    obtain ⟨rfl, hpos⟩ := (hmem name n).mp (mem_sortedHooks.mp hhook)
    obtain ⟨e, he, rfl⟩ := List.mem_map.mp (List.count_pos_iff.mp hpos)
    exact hookName_valid (hrendered e he)
  · rw [lineValues, List.length_map]
    exact hevents.trans (List.length_map _)
  · intro name n
    rw [← hlines]
    exact hperm.mem_iff.trans (hmem name n)

/-- A file is opened and read; the footer is drawn in between. -/
def openAndRead : List OutputStep := withFooters [openRecord.event, readRecord.event]

theorem summary_counts_lines_read : ∃ objects summary,
    readJsonLines (textMode (runOutput jsonlConfig asciiCalls openAndRead).output.file)
        = some objects ∧
      readSummary (printSummary someReadings
        (runOutput jsonlConfig asciiCalls openAndRead).output).2 = some summary ∧
      summary.events = objects.length ∧ summary.dropped = someReadings.dropped.toNat ∧
      ∀ name n, (name, n) ∈ summary.perHook ↔
        n = objects.countP (fun j => hookOf j = some name) ∧ 0 < n := by
  refine summary_counts_lines (c := jsonlConfig) ⟨rfl, rfl⟩ isUtf8_asciiCalls ?_ someReadings
  intro e he
  rw [openAndRead, eventsOf_withFooters] at he
  rcases List.mem_cons.mp he with rfl | he
  · exact valid_of_represents wellFormed_openRecord.represents
  · rw [List.mem_singleton.mp he]
    exact valid_of_represents wellFormed_readRecord.represents

end ScopeTraceFile
