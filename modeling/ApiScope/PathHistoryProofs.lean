import ApiScope.HistoryProofs
import ApiScope.ReadBoundsProofs

/-! # Path history — the tracker and the stream it has seen

    The path that `Annotate` adds to an event is determined by the events the
    writer has handled before.  A handle is tracked when a successful event
    opened it and no successful event has released it at or after the last
    such opening; its path is that of the opening, joined onto the path the
    root directory had at that point.

    The table of the tracker is the table of that history as long as it is
    never full (`find_writeAll`), and so every event of the stream is rendered
    with the path its handle has in the history (`annotate_from_history`). -/

namespace ScopePathHistory

open ScopeBytes ScopeRead ScopeProtocol ScopeParser ScopeGrammar ScopeCorrelator
  ScopeBounds ScopeHistory

/-! ## The history -/

/-- The fields of an event. -/
def fieldsOf (e : TraceEvent) : List TraceField := (viewsOf e).map (toField e.byte)

/-- The object handle of a successful event with a non-empty path. -/
def opened (e : TraceEvent) : Option UInt64 := (sourceOf (fieldsOf e)).map Prod.fst

/-- The pointer field `handle` of a successful event. -/
def released (e : TraceEvent) : Option UInt64 := releasedBy (fieldsOf e)

/-- The root directory, when there is one. -/
def rootOf (e : TraceEvent) : Option UInt64 :=
  (handleNamed (fieldsOf e) (cstr "root_directory")).filter (· ≠ 0)

def pathOf (e : TraceEvent) : List UInt16 :=
  (wideNamed (fieldsOf e) (cstr "path")).getD []

/-- A relative path under a base, with one backslash between them. -/
def under (base path : List UInt16) : List UInt16 :=
  (if base.getLast? = some backslash then base.dropLast else base)
    ++ backslash :: (if path.head? = some backslash then path.drop 1 else path)

/-- The log that the tracker sees. -/
def paths : Reading TraceEvent UInt64 (List UInt16) where
  opens := opened
  closes := released
  base := rootOf
  own := pathOf
  join := under

/-- `Observe` joins with exactly one backslash. -/
theorem resolvePath_eq_under (base path : List UInt16) :
    resolvePath base path = under base path := by
  rw [resolvePath, under]
  by_cases hb : base.getLast? = some backslash
  · have hbase : base = base.dropLast ++ [backslash] :=
      (List.dropLast_append_getLast? _ hb).symm
    by_cases hp : path.head? = some backslash
    · rw [if_pos ⟨hb, hp⟩, if_pos hb, if_pos hp, List.append_cons, ← hbase]
    · rw [if_neg (fun h => hp h.2), if_neg (fun h => h.1 hb), if_pos hb, if_neg hp,
        List.append_cons, ← hbase]
  · rw [if_neg (fun h => hb h.1), if_neg hb]
    by_cases hp : path.head? = some backslash
    · obtain ⟨cs, rfl⟩ := List.head?_eq_some_iff.mp hp
      rw [if_neg (fun h => h.2 hp), if_pos hp, List.drop_one, List.tail_cons]
    · rw [if_pos ⟨hb, hp⟩, if_neg hp, List.append_assoc]
      rfl

/-! ## The table of the tracker -/

theorem fieldsOf_eq {e : TraceEvent} {m a : List UInt8} {fs : List TraceField}
    (h : Represents e m a fs) : fieldsOf e = fs := h.parsed.2.2.1

theorem represents_of_valid {e : TraceEvent} (h : isValidReceived.run e.byte = true) :
    Represents e (moduleNameOf e) (apiNameOf e) (fieldsOf e) := by
  obtain ⟨-, m, a, fs, hrep⟩ := accepted_iff.mp (accepted_of_valid h)
  obtain ⟨hm, ha, hfs, -⟩ := hrep.parsed
  rw [fieldsOf, hm, ha, hfs]
  exact hrep

theorem pathOf_of_source {e : TraceEvent} {handle : UInt64} {path : List UInt16}
    (h : sourceOf (fieldsOf e) = some (handle, path)) : pathOf e = path := by
  rw [sourceOf] at h
  split at h
  · rename_i path' handle' hwide _
    split at h
    · cases h
      rw [pathOf, hwide, Option.getD_some]
    · cases h
  · cases h

/-- The path recorded for an opening is its value in the log's table. -/
theorem openedPath_eq (t : HandlePathTracker) {e : TraceEvent} {handle : UInt64}
    {path : List UInt16} (h : sourceOf (fieldsOf e) = some (handle, path)) :
    openedPath t (fieldsOf e) path = paths.valueIn t.find e := by
  have hpath : pathOf e = path := pathOf_of_source h
  rw [openedPath]
  cases hroot : handleNamed (fieldsOf e) (cstr "root_directory") with
  | none =>
      have hbase : (paths.base e).bind t.find = none := by
        rw [show paths.base e = rootOf e from rfl, rootOf, hroot]
        rfl
      exact hpath.symm.trans (Reading.valueIn_none hbase).symm
  | some root =>
      by_cases hzero : root = 0
      · have hbase : (paths.base e).bind t.find = none := by
          rw [show paths.base e = rootOf e from rfl, rootOf, hroot, hzero]
          rfl
        simp only [if_pos hzero]
        exact hpath.symm.trans (Reading.valueIn_none hbase).symm
      · have hbase : (paths.base e).bind t.find = t.find root := by
          rw [show paths.base e = rootOf e from rfl, rootOf, hroot, Option.filter_some,
            if_pos (decide_eq_true hzero), Option.bind_some]
        simp only [if_neg hzero]
        cases hfind : t.find root with
        | none => exact hpath.symm.trans (Reading.valueIn_none (hbase.trans hfind)).symm
        | some base =>
            rw [Reading.valueIn_some (hbase.trans hfind), ← hpath]
            exact resolvePath_eq_under base (pathOf e)

theorem find_evictFields (t : HandlePathTracker) (e : TraceEvent) :
    (evictFields t (fieldsOf e)).find = paths.closeIn t.find e := by
  rw [evictFields]
  cases hreleased : releasedBy (fieldsOf e) with
  | none => exact (Reading.closeIn_none hreleased).symm
  | some handle =>
      rw [Reading.closeIn_some hreleased]
      exact HandlePathTracker.find_forget t handle

/-- One event moves the table as it moves the log's. -/
theorem find_writeEvent {e : TraceEvent} (h : isValidReceived.run e.byte = true)
    {t : HandlePathTracker} (hsize : t.size < maxTrackedHandles) :
    (writeEvent t e).1.find = paths.step t.find e := by
  have hobserve : (observeFields t (fieldsOf e)).find = paths.openIn t.find e := by
    rw [observeFields]
    cases hsource : sourceOf (fieldsOf e) with
    | none =>
        have hopens : paths.opens e = none := by
          rw [show paths.opens e = opened e from rfl, opened, hsource, Option.map_none]
        exact (Reading.openIn_none hopens).symm
    | some source =>
        obtain ⟨handle, path⟩ := source
        have hopens : paths.opens e = some handle := by
          rw [show paths.opens e = opened e from rfl, opened, hsource, Option.map_some]
        rw [Reading.openIn_some hopens, ← openedPath_eq t hsource]
        exact HandlePathTracker.find_record hsize handle _
  rw [writeEvent_fst (represents_of_valid h), Reading.step, ← hobserve, find_evictFields]

/-- **THE TABLE** of the tracker is that of the log, as long as it is never
    full. -/
theorem find_writeAll {es : List TraceEvent}
    (hvalid : ∀ e ∈ es, isValidReceived.run e.byte = true)
    (hfew : ∀ done, done <+: es → (writeAll .empty done).1.size < maxTrackedHandles) :
    (writeAll .empty es).1.find = paths.tableOf es := by
  induction es using List.reverseRecOn with
  | nil =>
      funext k
      exact HandlePathTracker.find_empty k
  | append_singleton es e ih =>
      have hbefore := ih (fun x hx => hvalid x (List.mem_append_left _ hx))
        (fun done hdone => hfew done (hdone.trans (List.prefix_append es [e])))
      have he : e ∈ es ++ [e] := List.mem_append_right _ List.mem_cons_self
      have hlast := find_writeEvent (hvalid e he) (hfew es (List.prefix_append es [e]))
      rw [writeAll_append, Reading.tableOf_snoc, ← hbefore, ← hlast]
      dsimp only [writeAll]

/-! ## What is rendered -/

/-- What `Annotate` finds for a handle when the events before it are handled. -/
def lookedUp (before : List TraceEvent) (e : TraceEvent) (handle : UInt64) :
    Option (List UInt16) :=
  ((observe (writeAll .empty before).1).run e.byte).find handle

/-- There is room for the path behind the declared bytes. -/
def Room (e : TraceEvent) (path : List UInt16) : Prop :=
  e.size + (pathField path).serialise.length ≤ traceMaxEventBytes

/-- The event with the path as one more field. -/
structure Annotated (e out : TraceEvent) (path : List UInt16) : Prop where
  valid : isValidReceived.run out.byte = true
  moduleName : moduleNameOf out = moduleNameOf e
  apiName : apiNameOf out = apiNameOf e
  flags : out.flags = e.flags
  sequence : out.sequence = e.sequence
  timestamp100ns : out.timestamp100ns = e.timestamp100ns
  threadId : out.threadId = e.threadId
  fields : fieldsOf out = fieldsOf e ++ [pathField path]

/-- An event without a path that is given one. -/
theorem annotated_of_lookup {e : TraceEvent} (hvalid : isValidReceived.run e.byte = true)
    {t : HandlePathTracker} {path : List UInt16}
    (hpath : annotationOf t (fieldsOf e) = some path) (hroom : Room e path) :
    Annotated e (annotate t e) path := by
  have hrep := represents_of_valid hvalid
  have hout := annotate_represents hrep hpath hroom
  have hword : ∀ off n, off + n ≤ 32 → 12 ≤ off ∨ 8 ≤ off ∧ off + n ≤ 10 →
      word (annotate t e).byte off n = word e.byte off n := by
    intro off n h32 hoff
    have hsize : 32 ≤ e.size := by
      rw [hrep.size]
      exact Nat.le_add_right 32 _
    exact word_congr fun i h1 h2 =>
      annotate_byte hrep hpath hroom (by omega) (by omega) (by omega)
  obtain ⟨hm, ha, hfields, -⟩ := hout.parsed
  exact ⟨valid_of_represents hout, hm, ha, hword 8 2 (by decide) (by decide),
    hword 12 4 (by decide) (by decide), hword 16 8 (by decide) (by decide),
    hword 24 4 (by decide) (by decide), hfields⟩

/-- **ANNOTATION FROM THE HISTORY**: an event without a path is a hit exactly
    when its handle has a live opening among the events before it, and is then
    rendered with the path of that opening if there is room; otherwise it is
    rendered as it is. -/
theorem annotate_from_history {es before after : List TraceEvent} {e : TraceEvent}
    {handle : UInt64} (hvalid : ∀ x ∈ es, isValidReceived.run x.byte = true)
    (hfew : ∀ done, done <+: es → (writeAll .empty done).1.size < maxTrackedHandles)
    (hes : es = before ++ e :: after)
    (hpath : fieldNamed (fieldsOf e) (cstr "path") = none)
    (hobject : objectHandle (fieldsOf e) = some handle) (hzero : handle ≠ 0) :
    ((lookedUp before e handle).isSome = true ↔ ∃ past o, paths.Live before handle past o) ∧
    ∃ out, (writeAll .empty es).2[before.length]? = some out ∧
      (∀ past o, paths.Live before handle past o → ∃ path, paths.Resolves past o path ∧
        (Room e path → Annotated e out path) ∧ (¬ Room e path → out = e)) ∧
      ((∀ past o, ¬ paths.Live before handle past o) → out = e) := by
  subst hes
  have hmem : e ∈ before ++ e :: after := List.mem_append_right _ List.mem_cons_self
  have he := hvalid e hmem
  have htable : (writeAll .empty before).1.find = paths.tableOf before :=
    find_writeAll (fun x hx => hvalid x (List.mem_append_left _ hx))
      (fun done hdone => hfew done (hdone.trans (List.prefix_append _ _)))
  -- an event without a path opens nothing before it is annotated
  have hlooked : lookedUp before e handle = paths.tableOf before handle := by
    rw [lookedUp, run_observe (represents_of_valid he), observeFields_no_path _ hpath, htable]
  have hplan : annotationOf (writeAll .empty before).1 (fieldsOf e)
      = paths.tableOf before handle := by
    rw [annotationOf, hpath, hobject, ← htable]
    exact if_neg hzero
  refine ⟨?_, annotate (writeAll .empty before).1 e, ?_, ?_, ?_⟩
  · rw [hlooked, Option.isSome_iff_exists]
    constructor
    · rintro ⟨path, hfound⟩
      obtain ⟨past, o, hlive, -⟩ := Reading.tableOf_eq_some.mp hfound
      exact ⟨past, o, hlive⟩
    · rintro ⟨past, o, hlive⟩
      exact ⟨_, Reading.tableOf_iff_live.mpr ⟨past, o, hlive, rfl⟩⟩
  · rw [writeAll_getElem?, writeEvent_snd (represents_of_valid he),
      observeFields_no_path _ hpath]
  · intro past o hlive
    have hfound : paths.tableOf before handle = some (paths.valueIn (paths.tableOf past) o) :=
      Reading.tableOf_iff_live.mpr ⟨past, o, hlive, rfl⟩
    refine ⟨_, Reading.resolves_iff.mpr rfl, fun hroom => ?_, fun hfull => ?_⟩
    · exact annotated_of_lookup he (hplan.trans hfound) hroom
    · refine annotate_eq_self (represents_of_valid he) fun path' hpath' => ?_
      rw [hplan, hfound] at hpath'
      rw [← Option.some.inj hpath']
      exact Nat.not_le.mp hfull
  · intro hnone
    refine annotate_eq_self (represents_of_valid he) fun path' hpath' => ?_
    obtain ⟨past, o, hlive, -⟩ := Reading.tableOf_eq_some.mp (hplan.symm.trans hpath')
    exact absurd hlive (hnone past o)

/-! ## A file that is opened and read -/

theorem size_writeAll_le {es : List TraceEvent}
    (hvalid : ∀ e ∈ es, isValidReceived.run e.byte = true) (t : HandlePathTracker) :
    (writeAll t es).1.size ≤ t.size + es.length := by
  induction es generalizing t with
  | nil => exact Nat.le_refl _
  | cons e es ih =>
      have hrest := ih (fun x hx => hvalid x (List.mem_cons_of_mem _ hx)) (writeEvent t e).1
      have hstep : (writeEvent t e).1.size ≤ t.size + 1 := by
        rw [writeEvent_fst (represents_of_valid (hvalid e List.mem_cons_self))]
        have hobserve : (observeFields t (fieldsOf e)).size ≤ t.size + 1 := by
          rw [observeFields]
          split
          · exact HandlePathTracker.size_record_le _ _ _
          · exact Nat.le_succ _
        refine Nat.le_trans ?_ hobserve
        rw [evictFields]
        split
        · exact HandlePathTracker.size_forget_le _ _
        · exact Nat.le_refl _
      have hlength : (e :: es).length = es.length + 1 := rfl
      rw [writeAll_cons_fst, hlength]
      omega

/-- The path `C:` and the handle 4 it was opened under. -/
def openRecord : TraceRecord :=
  { flags := 0, sequence := 1, timestamp100ns := 1, threadId := 1, reserved := 0
    moduleName := cstr "ntdll.dll", apiName := cstr "NtOpenFile"
    fields := [⟨9, cstr "path", [0x43, 0, 0x3A, 0]⟩,
      ⟨1, cstr "file_handle", [4, 0, 0, 0, 0, 0, 0, 0]⟩] }

def readRecord : TraceRecord :=
  { flags := 0, sequence := 2, timestamp100ns := 2, threadId := 1, reserved := 0
    moduleName := cstr "ntdll.dll", apiName := cstr "NtReadFile"
    fields := [⟨1, cstr "file_handle", [4, 0, 0, 0, 0, 0, 0, 0]⟩] }

/-- The field of the handle 4. -/
theorem handleField_ok :
    (⟨1, cstr "file_handle", [4, 0, 0, 0, 0, 0, 0, 0]⟩ : TraceField).Ok :=
  ⟨by decide +kernel, show _ = _ from rfl⟩

theorem ntdll_ok : IdentifierOk true (cstr "ntdll.dll") := by
  unfold IdentifierOk
  decide +kernel

theorem wellFormed_openRecord : openRecord.WellFormed := by
  refine ⟨ntdll_ok, ?_, ?_, by decide +kernel, by decide +kernel⟩
  · show IdentifierOk false (cstr "NtOpenFile")
    unfold IdentifierOk
    decide +kernel
  · intro f hf
    rcases List.mem_cons.mp hf with rfl | hf
    · exact ⟨by decide +kernel, show _ % 2 = 0 ∧ _ ≤ _ by decide⟩
    · rw [List.mem_singleton.mp hf]
      exact handleField_ok

theorem wellFormed_readRecord : readRecord.WellFormed := by
  refine ⟨ntdll_ok, ?_, ?_, by decide +kernel, by decide +kernel⟩
  · show IdentifierOk false (cstr "NtReadFile")
    unfold IdentifierOk
    decide +kernel
  · intro f hf
    rw [List.mem_singleton.mp hf]
    exact handleField_ok

/-- The read is rendered with the path of the open. -/
theorem annotate_from_history_read : ∃ out,
    (writeAll .empty [openRecord.event, readRecord.event]).2[1]? = some out ∧
      Annotated readRecord.event out [0x43, 0x3A] := by
  have hopen := wellFormed_openRecord.represents
  have hread := wellFormed_readRecord.represents
  have hvalid : ∀ x ∈ [openRecord.event, readRecord.event],
      isValidReceived.run x.byte = true := by
    intro x hx
    rcases List.mem_cons.mp hx with rfl | hx
    · exact valid_of_represents hopen
    · rw [List.mem_singleton.mp hx]
      exact valid_of_represents hread
  have hfew : ∀ done, done <+: [openRecord.event, readRecord.event] →
      (writeAll .empty done).1.size < maxTrackedHandles := by
    intro done hdone
    have hsize := size_writeAll_le (fun x hx => hvalid x (hdone.subset hx)) .empty
    have hlength : done.length ≤ 2 := hdone.length_le
    have hempty : HandlePathTracker.empty.size = 0 := rfl
    have hmax : maxTrackedHandles = 65536 := rfl
    omega
  have hsource : sourceOf openRecord.fields = some (4, [0x43, 0x3A]) := by decide +kernel
  have hlive : paths.Live [openRecord.event] 4 [] openRecord.event := by
    refine (@Reading.live_snoc _ _ _ paths [] _ _ _ _).mpr ⟨?_, Or.inl ⟨?_, rfl, rfl⟩⟩
    · show released openRecord.event ≠ some 4
      rw [released, fieldsOf_eq hopen]
      decide +kernel
    · show opened openRecord.event = some 4
      rw [opened, fieldsOf_eq hopen, hsource]
      rfl
  have hpath : fieldNamed (fieldsOf readRecord.event) (cstr "path") = none := by
    rw [fieldsOf_eq hread]
    decide +kernel
  have hobject : objectHandle (fieldsOf readRecord.event) = some 4 := by
    rw [fieldsOf_eq hread]
    decide +kernel
  obtain ⟨-, out, hout, hhit, -⟩ := @annotate_from_history _ [openRecord.event] [] _ _
    hvalid hfew rfl hpath hobject (by decide)
  obtain ⟨path, hresolves, happended, -⟩ := hhit [] openRecord.event hlive
  have hbase : paths.base openRecord.event = none := by
    show rootOf openRecord.event = none
    rw [rootOf, fieldsOf_eq hopen]
    decide +kernel
  have hown : path = [0x43, 0x3A] := by
    rw [Reading.resolves_iff.mp hresolves,
      Reading.valueIn_none (by rw [hbase, Option.bind_none])]
    show pathOf openRecord.event = _
    rw [pathOf, fieldsOf_eq hopen]
    decide +kernel
  refine ⟨out, hout, hown ▸ happended ?_⟩
  rw [Room, hread.size, hown]
  decide +kernel

end ScopePathHistory
