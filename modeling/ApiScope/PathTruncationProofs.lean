import ApiScope.PathHistoryProofs
import ApiScope.HandlerEventsProofs

/-! # Path truncation — long names and the paths made of them

    A path can be cut in three places: where the target captures the name,
    where the tracker keeps what it saw of it, and where `Annotate` appends
    it.  Only the first sets the truncation flag, and on another event.

    Next to the table of the tracker stands the table it would have if no
    name had been cut (`completeAll`).  The two move in step (`cuts_run`), so
    an added path is complete exactly when the complete path of the handle is
    no longer than a string may be (`annotations_complete_iff`). -/

namespace ScopeTruncation

open ScopeBytes ScopeRead ScopeProtocol ScopeParser ScopeGrammar ScopeTransport
  ScopeCorrelator ScopeBounds ScopeHistory ScopePathHistory ScopeHandlers

/-- The characters a string of an event may have. -/
def maxStringChars : Nat := traceMaxStringBytes / 2

/-! ## Object names -/

/-- The outcomes of the three guarded reads of `AddTraceObjectPath`. -/
structure ObjectReads where
  objectAttributes : UInt64
  readAttributes : Option ReadOutcome
  readHeader : Option ReadOutcome
  readBuffer : Option ReadOutcome

namespace ObjectReads

/-- The `OBJECT_ATTRIBUTES` as it was read. -/
def attributes (o : ObjectReads) : UInt32 × Memory :=
  safeReadSelf o.readAttributes o.objectAttributes 48

/-- `ObjectName` of the attributes. -/
def unicodeString (o : ObjectReads) : UInt64 := UInt64.ofNat (word o.attributes.2 16 8)

/-- The `UNICODE_STRING` as it was read. -/
def header (o : ObjectReads) : UInt32 × Memory :=
  safeReadSelf o.readHeader o.unicodeString 16

/-- `Buffer` of the string. -/
def buffer (o : ObjectReads) : UInt64 := UInt64.ofNat (word o.header.2 8 8)

/-- The first characters as they were read. -/
def characters (o : ObjectReads) (count : Nat) : UInt32 × Memory :=
  safeReadSelf o.readBuffer o.buffer (count * 2)

/-- `AddTraceObjectPath(&event, "path", ObjectAttributes)`. -/
def addPath (o : ObjectReads) : AddCall :=
  .objectPath (some (cstr "path")) o.readAttributes o.readHeader o.readBuffer
    o.objectAttributes

/-- The append of the root directory. -/
def rootAppend (o : ObjectReads) : Append :=
  ⟨false, .pointer, some (cstr "root_directory"),
    leBytes 8 (UInt64.ofNat (word o.attributes.2 8 8)).toNat, 8⟩

/-- The append of the name. -/
def pathAppend (o : ObjectReads) : Append :=
  unicodeAppend (some (cstr "path")) o.readHeader o.readBuffer o.unicodeString

theorem addPath_appends (o : ObjectReads) :
    o.addPath.appends
      = if o.objectAttributes = 0 ∨ ntSuccess o.attributes.1 = false then
          [wideAppend false (some (cstr "path")) none 0]
        else if UInt64.ofNat (word o.attributes.2 8 8) ≠ 0 then [o.rootAppend, o.pathAppend]
        else [o.pathAppend] := rfl

end ObjectReads

/-- An object name of any length in the target.  Every read may fail; one that
    succeeds returns the length of the name, and its characters. -/
structure ObjectName extends ObjectReads where
  name : List UInt16
  length_eq : ntSuccess toObjectReads.header.1 = true →
    word toObjectReads.header.2 0 2 / 2 = name.length
  chars_eq : ∀ n ≤ name.length, ntSuccess (toObjectReads.characters n).1 = true →
    wideChars (toObjectReads.characters n).2 n = name.take n

/-- The append of a name that was read: cut to what a string may hold, with the
    flag set if it was longer. -/
def nameAppend (name : List UInt16) : Append :=
  ⟨decide (maxStringChars < name.length), .wideString, some (cstr "path"),
    wideBytes (name.take maxStringChars), (name.take maxStringChars).length * 2⟩

/-- The reads of the name, when they succeed. -/
structure ObjectReads.Succeeds (o : ObjectReads) (count : Nat) : Prop where
  unicodeString_ne : o.unicodeString ≠ 0
  header_read : ntSuccess o.header.1 = true
  buffer_ne : o.buffer ≠ 0
  count_pos : 0 < count
  buffer_read : ntSuccess (o.characters count).1 = true

/-- **A NAME** is appended cut, or not at all. -/
theorem ObjectName.pathAppend_cases (o : ObjectName) :
    (o.pathAppend = nameAppend o.name ∧
        o.Succeeds (min maxStringChars o.name.length)) ∨
      (o.pathAppend.name = some (cstr "path") ∧ o.pathAppend.valueSize = 0 ∧
        ¬ o.Succeeds (min maxStringChars o.name.length)) := by
  have h512 : traceMaxStringBytes = 512 := rfl
  have h256 : maxStringChars = 256 := rfl
  have hpath : o.pathAppend = unicodeAppend (some (cstr "path")) o.readHeader o.readBuffer
    o.unicodeString := rfl
  rw [unicodeAppend] at hpath
  by_cases hheader : o.unicodeString = 0 ∨ ntSuccess o.header.1 = false
  · right
    have hnone : o.pathAppend = wideAppend false (some (cstr "path")) none 0 :=
      hpath.trans (if_pos hheader)
    rw [hnone]
    refine ⟨rfl, rfl, fun h => ?_⟩
    rcases hheader with hzero | hfail
    · exact h.unicodeString_ne hzero
    · cases hfail.symm.trans h.header_read
  have hread : ntSuccess o.header.1 = true :=
    Bool.not_eq_false _ ▸ fun hfail => hheader (Or.inr hfail)
  -- the declared length in bytes, without an odd last one
  have hlength : word o.header.2 0 2 - word o.header.2 0 2 % 2 = o.name.length * 2 := by
    have hhalf := o.length_eq hread
    omega
  have hbytes : (if traceMaxStringBytes < o.name.length * 2 then traceMaxStringBytes
      else o.name.length * 2) = min maxStringChars o.name.length * 2 := by
    split
    · omega
    · omega
  have hlong : decide (traceMaxStringBytes < o.name.length * 2)
      = decide (maxStringChars < o.name.length) :=
    decide_eq_decide.mpr (by omega)
  replace hpath := hpath.trans (if_neg hheader)
  have hsame : safeReadSelf o.readHeader o.unicodeString 16 = o.header := rfl
  have hbuffer : UInt64.ofNat (word o.header.2 8 8) = o.buffer := rfl
  have hchars : safeReadSelf o.readBuffer o.buffer (min maxStringChars o.name.length * 2)
    = o.characters (min maxStringChars o.name.length) := rfl
  rw [hsame, hlength] at hpath
  dsimp only at hpath
  rw [hbytes, hlong, hbuffer, hchars] at hpath
  by_cases hread' : o.buffer = 0 ∨ min maxStringChars o.name.length * 2 = 0
      ∨ ntSuccess (o.characters (min maxStringChars o.name.length)).1 = false
  · right
    rw [hpath, if_pos hread']
    refine ⟨rfl, rfl, fun h => ?_⟩
    rcases hread' with hzero | hempty | hfail
    · exact h.buffer_ne hzero
    · have hpos := h.count_pos
      omega
    · cases hfail.symm.trans h.buffer_read
  -- every read succeeded: what is appended is the beginning of the name
  · left
    have hok : ntSuccess (o.characters (min maxStringChars o.name.length)).1 = true :=
      Bool.not_eq_false _ ▸ fun hfail => hread' (Or.inr (Or.inr hfail))
    refine ⟨?_, fun hzero => hheader (Or.inl hzero), hread,
      fun hzero => hread' (Or.inl hzero), Nat.pos_of_ne_zero fun hzero =>
        hread' (Or.inr (Or.inl (by omega))), hok⟩
    rw [hpath, if_neg hread', Nat.mul_div_cancel _ (by decide : 0 < 2),
      o.chars_eq _ (Nat.min_le_right _ _) hok, ← List.take_eq_take_min, wideAppend]
    rw [if_neg (by omega), nameAppend, List.length_take, Nat.mod_eq_of_lt (by omega)]

/-! ## Built events -/

/-- A call of a handler whose object is the name: it adds the name, or no field
    `path`. -/
def AddsName (name : List UInt16) (c : AddCall) : Prop :=
  (∃ o : ObjectName, o.name = name ∧ c = o.addPath) ∨
    ∀ x ∈ c.appends, x.field.name ≠ cstr "path"

/-- The event left the ring as it was emitted, with a sequence number. -/
def Sequenced (emitted e : TraceEvent) : Prop :=
  ∀ i, i < emitted.size → i < 12 ∨ 16 ≤ i → e.byte i = emitted.byte i

/-- An event of a hook handler, and the name of its object. -/
structure HandlerEvent where
  name : List UInt16
  event : TraceEvent
  built : ∃ moduleName apiName threadId timestamp100ns e₀ calls,
    initializeTraceEvent moduleName apiName threadId timestamp100ns = (e₀, true) ∧
      (∀ c ∈ calls, AddsName name c) ∧ Sequenced (runCalls e₀ calls).1 event

theorem nameAppend_field (name : List UInt16) : (nameAppend name).field = pathField name := by
  have hvalue : bytesAt (wideBytes (name.take maxStringChars))
      ((name.take maxStringChars).length * 2) = wideValue name := by
    rw [← wideBytes_length, bytesAt_self, wideValue_take]
    rfl
  show fieldOf .wideString _ (bytesAt (wideBytes _) (_ * 2)) = _
  rw [hvalue]
  rfl

theorem empty_field {x : Append} (h : x.valueSize = 0) : x.field.value = [] :=
  List.length_eq_zero_iff.mp ((bytesAt_length x.value x.valueSize).trans h)

/-- The field `path` of a call is the one of the name, or it is empty. -/
theorem path_of_adds {name : List UInt16} {c : AddCall} (hc : AddsName name c) {x : Append}
    (hx : x ∈ c.appends) (hname : x.field.name = cstr "path") :
    x.field = pathField name ∨ x.field.value = [] := by
  rcases hc with ⟨o, rfl, rfl⟩ | hother
  · have hstring : o.pathAppend.field = pathField o.name ∨ o.pathAppend.field.value = [] := by
      rcases o.pathAppend_cases with ⟨hread, -⟩ | ⟨-, hsize, -⟩
      · rw [hread]
        exact Or.inl (nameAppend_field o.name)
      · exact Or.inr (empty_field hsize)
    have hroot : o.rootAppend.field.name ≠ cstr "path" :=
      show cValue (cstr "root_directory") ≠ cstr "path" by decide
    rw [ObjectReads.addPath_appends] at hx
    split at hx
    · rw [List.mem_singleton.mp hx]
      exact Or.inr rfl
    · split at hx
      · rcases List.mem_cons.mp hx with hx | hx
        · exact absurd hname (hx ▸ hroot)
        · rw [List.mem_singleton.mp hx]
          exact hstring
      · rw [List.mem_singleton.mp hx]
        exact hstring
  · exact absurd hname (hother x hx)

/-- **A BUILT EVENT** is well formed, and its field `path` is that of the name or
    empty. -/
theorem HandlerEvent.represents (s : HandlerEvent) : ∃ m a fs,
    Represents s.event m a fs ∧
      ∀ f ∈ fs, f.name = cstr "path" → f = pathField s.name ∨ f.value = [] := by
  obtain ⟨moduleName, apiName, threadId, timestamp100ns, e₀, calls, hinit, hcalls, hseq⟩ :=
    s.built
  obtain ⟨m, a, -, -, hrep, -⟩ := initialize_represents hinit
  have hlast := (leads_runCalls calls hrep).represents
  refine ⟨_, _, _, hlast.congr fun i hi _ h12 => hseq i hi (by omega), ?_⟩
  intro f hf hname
  obtain ⟨step, hstep, rfl⟩ := List.mem_map.mp hf
  -- every field of the event was appended by one of its calls
  have hmem : step.append ∈ calls.flatMap AddCall.appends := by
    rw [← runCalls_appends calls e₀]
    exact List.mem_map_of_mem (List.mem_of_mem_filter hstep)
  obtain ⟨c, hc, hx⟩ := List.mem_flatMap.mp hmem
  exact path_of_adds (hcalls c hc) hx hname

theorem HandlerEvent.valid (s : HandlerEvent) : isValidReceived.run s.event.byte = true := by
  obtain ⟨m, a, fs, hrep, -⟩ := s.represents
  exact valid_of_represents hrep

/-- The path that `Observe` sees is what a string holds of the name. -/
theorem HandlerEvent.source (s : HandlerEvent) {handle : UInt64} {path : List UInt16}
    (h : sourceOf (fieldsOf s.event) = some (handle, path)) :
    path = s.name.take maxStringChars := by
  obtain ⟨m, a, fs, hrep, hpaths⟩ := s.represents
  rw [fieldsOf_eq hrep, sourceOf] at h
  split at h
  · rename_i path' handle' hwide _
    split at h
    · rename_i hgood
      cases h
      cases hfield : fieldNamed fs (cstr "path") with
      | none =>
          rw [wideNamed, hfield] at hwide
          cases hwide
      | some f =>
          have hname : (f.name == cstr "path") = true :=
            @List.find?_some _ (fun f : TraceField => f.name == cstr "path") f fs hfield
          rcases hpaths f (List.mem_of_find?_eq_some hfield)
              (beq_iff_eq.mp hname) with hf | hempty
          · rw [hf] at hfield
            exact Option.some.inj (hwide.symm.trans (wideNamed_pathField hfield))
          · -- an empty field is not a source
            rw [wideNamed, hfield] at hwide
            dsimp only at hwide
            rw [hempty] at hwide
            split at hwide
            · cases hwide
            · exact absurd (Option.some.inj hwide).symm hgood.1
    · cases h
  · cases h

/-! ## The complete paths -/

/-- The log of the tracker, with the names as the target has them. -/
def completePaths : Reading HandlerEvent UInt64 (List UInt16) where
  opens s := opened s.event
  closes s := released s.event
  base s := rootOf s.event
  own s := s.name
  join := under

theorem completePaths_base (s : HandlerEvent) : completePaths.base s = rootOf s.event := rfl

theorem completePaths_own (s : HandlerEvent) : completePaths.own s = s.name := rfl

/-- What the tracker would record for an event if nothing were cut. -/
def completeObserve (c : HandlePathTracker) (s : HandlerEvent) : HandlePathTracker :=
  match opened s.event with
  | some handle => c.record handle (completePaths.valueIn c.find s)
  | none => c

def completeEvent (c : HandlePathTracker) (s : HandlerEvent) : HandlePathTracker :=
  evictFields (completeObserve c s) (fieldsOf s.event)

/-- **THE COMPLETE TABLE**: the handles of the tracker, each with its complete
    path. -/
def completeAll (run : List HandlerEvent) : HandlePathTracker := run.foldl completeEvent .empty

theorem completeAll_single (s : HandlerEvent) : completeAll [s] = completeEvent .empty s := rfl

/-- The complete table is that of the log, as long as it is never full: each
    handle has the path its live opening resolves to. -/
theorem find_completeAll {run : List HandlerEvent}
    (hfew : ∀ done, done <+: run → (completeAll done).size < maxTrackedHandles) :
    (completeAll run).find = completePaths.tableOf run := by
  induction run using List.reverseRecOn with
  | nil =>
      funext k
      exact HandlePathTracker.find_empty k
  | append_singleton run s ih =>
      have hbefore := ih fun done hdone =>
        hfew done (hdone.trans (List.prefix_append run [s]))
      -- Observe of the last event opens its handle, Evict then closes the released one
      have hobserve : (completeObserve (completeAll run) s).find
          = completePaths.openIn (completeAll run).find s := by
        rw [completeObserve]
        cases hopened : opened s.event with
        | none => exact (Reading.openIn_none hopened).symm
        | some handle =>
            rw [Reading.openIn_some (R := completePaths) hopened]
            exact HandlePathTracker.find_record (hfew run (List.prefix_append run [s])) _ _
      rw [Reading.tableOf_snoc, ← hbefore, Reading.step, ← hobserve, completeAll,
        List.foldl_append]
      exact find_evictFields _ s.event

/-- What the tracker has of a path: all of it when it fits in a string, and at
    least a full string of it when it does not. -/
structure Cut (kept complete : List UInt16) : Prop where
  whole : complete.length ≤ maxStringChars → kept = complete
  full : maxStringChars < complete.length → maxStringChars ≤ kept.length

theorem cut_take (name : List UInt16) : Cut (name.take maxStringChars) name :=
  ⟨List.take_of_length_le, fun h => by
    rw [List.length_take, Nat.min_eq_left (Nat.le_of_lt h)]⟩

/-- A joined path is as long as either of its parts. -/
theorem length_le_under (base path : List UInt16) :
    base.length ≤ (under base path).length ∧ path.length ≤ (under base path).length := by
  have hbase : base.length - 1 ≤
      (if base.getLast? = some backslash then base.dropLast else base).length := by
    split
    · rw [List.length_dropLast]
    · exact Nat.sub_le _ 1
  have hpath : path.length - 1 ≤
      (if path.head? = some backslash then path.drop 1 else path).length := by
    split
    · rw [List.length_drop]
    · exact Nat.sub_le _ 1
  rw [under, List.length_append, List.length_cons]
  omega

/-- A path is joined from what was kept of its parts. -/
theorem cut_under {base base' path path' : List UInt16} (hbase : Cut base base')
    (hpath : Cut path path') : Cut (under base path) (under base' path') := by
  obtain ⟨hb, hp⟩ := length_le_under base path
  obtain ⟨hb', hp'⟩ := length_le_under base' path'
  constructor
  · intro hshort
    rw [hbase.whole (hb'.trans hshort), hpath.whole (hp'.trans hshort)]
  · intro hlong
    -- one part alone may be too long, or only the two together
    rcases Nat.lt_or_ge maxStringChars base'.length with hlb | hsb
    · exact (hbase.full hlb).trans hb
    rcases Nat.lt_or_ge maxStringChars path'.length with hlp | hsp
    · exact (hpath.full hlp).trans hp
    · rw [hbase.whole hsb, hpath.whole hsp]
      exact Nat.le_of_lt hlong

/-! ## The two tables -/

/-- The tracker has the handles of the complete table, and of each path what it
    could keep. -/
structure Cuts (t c : HandlePathTracker) : Prop where
  keys : t.handlePaths.keys = c.handlePaths.keys
  kept : ∀ handle, Option.Rel Cut (t.find handle) (c.find handle)

theorem rel_some_left {α β : Type} {V : α → β → Prop} {a : α} {b : Option β}
    (h : Option.Rel V (some a) b) : ∃ y, b = some y ∧ V a y := by
  cases h with
  | some hy => exact ⟨_, rfl, hy⟩

theorem rel_some_right {α β : Type} {V : α → β → Prop} {a : Option α} {b : β}
    (h : Option.Rel V a (some b)) : ∃ x, a = some x ∧ V x b := by
  cases h with
  | some hx => exact ⟨_, rfl, hx⟩

namespace Cuts

theorem empty : Cuts .empty .empty :=
  ⟨rfl, fun handle => by
    rw [HandlePathTracker.find_empty]
    exact .none⟩

variable {t c : HandlePathTracker}

theorem update (h : ∀ k, Option.Rel Cut (t.find k) (c.find k)) (handle : UInt64)
    {path path' : Option (List UInt16)} (hpath : Option.Rel Cut path path') (k : UInt64) :
    Option.Rel Cut (Function.update t.find handle path k)
      (Function.update c.find handle path' k) := by
  by_cases hk : k = handle
  · rw [hk, Function.update_self, Function.update_self]
    exact hpath
  · rw [Function.update_of_ne hk, Function.update_of_ne hk]
    exact h k

theorem insert (h : Cuts t c) (handle : UInt64) {path path' : List UInt16}
    (hpath : Cut path path') :
    Cuts ⟨t.handlePaths.insert handle path⟩ ⟨c.handlePaths.insert handle path'⟩ := by
  refine ⟨?_, fun k => ?_⟩
  · rw [AList.keys_insert, AList.keys_insert, h.keys]
  · rw [HandlePathTracker.find_insert, HandlePathTracker.find_insert]
    exact update h.kept handle (.some hpath) k

/-- Both tables are full at the same time. -/
theorem record (h : Cuts t c) (handle : UInt64) {path path' : List UInt16}
    (hpath : Cut path path') : Cuts (t.record handle path) (c.record handle path') := by
  have hsize : t.size = c.size := congrArg List.length h.keys
  rw [HandlePathTracker.record, HandlePathTracker.record, hsize]
  split
  · exact empty.insert handle hpath
  · exact h.insert handle hpath

theorem forget (h : Cuts t c) (handle : UInt64) : Cuts (t.forget handle) (c.forget handle) := by
  refine ⟨?_, fun k => ?_⟩
  · show (t.handlePaths.erase handle).keys = (c.handlePaths.erase handle).keys
    rw [AList.keys_erase, AList.keys_erase, h.keys]
  · rw [HandlePathTracker.find_forget, HandlePathTracker.find_forget]
    exact update h.kept handle .none k

/-- The value of an opening is cut where its name or its base was. -/
theorem valueIn (h : Cuts t c) (s : HandlerEvent) {handle : UInt64} {path : List UInt16}
    (hsource : sourceOf (fieldsOf s.event) = some (handle, path)) :
    Cut (paths.valueIn t.find s.event) (completePaths.valueIn c.find s) := by
  have hown : Cut (pathOf s.event) s.name := by
    rw [pathOf_of_source hsource, s.source hsource]
    exact cut_take s.name
  exact Reading.valueIn_rel (R := paths) (V := Cut) rfl h.kept hown fun b b' hb =>
    cut_under hb hown

theorem observe (h : Cuts t c) (s : HandlerEvent) :
    Cuts (observeFields t (fieldsOf s.event)) (completeObserve c s) := by
  rw [observeFields, completeObserve, opened]
  cases hsource : sourceOf (fieldsOf s.event) with
  | none => exact h
  | some source =>
      obtain ⟨handle, path⟩ := source
      dsimp only [Option.map_some]
      rw [openedPath_eq t hsource]
      exact h.record handle (h.valueIn s hsource)

/-- **ONE EVENT** moves both tables alike. -/
theorem event (h : Cuts t c) (s : HandlerEvent) :
    Cuts (writeEvent t s.event).1 (completeEvent c s) := by
  rw [writeEvent_fst (represents_of_valid s.valid), completeEvent, evictFields, evictFields]
  split
  · exact (h.observe s).forget _
  · exact h.observe s

end Cuts

/-- **A RUN** keeps the handles and what can be kept of each path. -/
theorem cuts_run {t c : HandlePathTracker} (h : Cuts t c) (run : List HandlerEvent) :
    Cuts (writeAll t (run.map HandlerEvent.event)).1 (run.foldl completeEvent c) := by
  induction run generalizing t c with
  | nil => exact h
  | cons s rest ih =>
      rw [List.map_cons, writeAll_cons_fst, List.foldl_cons]
      exact ih (h.event s)

/-! ## What `Annotate` adds -/

/-- An event that is given a path: it has none, and the table has one for its
    handle that fits behind it. -/
structure GivenPath (t : HandlePathTracker) (e : TraceEvent) (handle : UInt64)
    (path : List UInt16) : Prop where
  noPath : fieldNamed (fieldsOf e) (cstr "path") = none
  object : objectHandle (fieldsOf e) = some handle
  handle_ne : handle ≠ 0
  found : t.find handle = some path
  room : Room e path

/-- **ADDED FIELD**: `Annotate` adds the field of a given path and no other, and
    leaves the flags. -/
theorem added_iff {e : TraceEvent} (hvalid : isValidReceived.run e.byte = true)
    (t : HandlePathTracker) {added : TraceField} :
    (fieldsOf (writeEvent t e).2 = fieldsOf e ++ [added] ↔
      ∃ handle path, GivenPath t e handle path ∧ added = pathField path) ∧
      (writeEvent t e).2.flags = e.flags := by
  have hrep := represents_of_valid hvalid
  -- an event without a path is not a source, so Observe has not moved the table
  have hplan : ∀ path, annotationOf (observeFields t (fieldsOf e)) (fieldsOf e) = some path →
      ∃ handle, fieldNamed (fieldsOf e) (cstr "path") = none ∧
        objectHandle (fieldsOf e) = some handle ∧ handle ≠ 0 ∧ t.find handle = some path := by
    intro path hpath
    rw [annotationOf] at hpath
    split at hpath
    · rename_i handle hnone hobject
      split at hpath
      · cases hpath
      · rename_i hne
        rw [observeFields_no_path t hnone] at hpath
        exact ⟨handle, hnone, hobject, hne, hpath⟩
    · cases hpath
  rw [writeEvent_snd hrep]
  by_cases hadds : ∃ path, annotationOf (observeFields t (fieldsOf e)) (fieldsOf e) = some path
      ∧ Room e path
  · obtain ⟨path, hpath, hroom⟩ := hadds
    have hout := annotated_of_lookup hvalid hpath hroom
    obtain ⟨handle, hnone, hobject, hne, hfound⟩ := hplan path hpath
    refine ⟨?_, hout.flags⟩
    rw [hout.fields]
    constructor
    · intro heq
      obtain ⟨-, hone⟩ := List.append_inj' heq rfl
      exact ⟨handle, path, ⟨hnone, hobject, hne, hfound, hroom⟩, (List.cons.inj hone).1.symm⟩
    · rintro ⟨handle', path', hgiven, rfl⟩
      obtain rfl := Option.some.inj (hobject.symm.trans hgiven.object)
      rw [Option.some.inj (hfound.symm.trans hgiven.found)]
  · have hself : annotate (observeFields t (fieldsOf e)) e = e :=
      annotate_eq_self hrep fun path hpath =>
        Nat.not_le.mp fun hroom => hadds ⟨path, hpath, hroom⟩
    rw [hself]
    refine ⟨⟨fun heq => ?_, ?_⟩, rfl⟩
    · exact absurd (List.self_eq_append_right.mp heq) (List.cons_ne_nil _ _)
    · rintro ⟨handle, path, hgiven, -⟩
      refine absurd ⟨path, ?_, hgiven.room⟩ hadds
      rw [annotationOf, hgiven.noPath, hgiven.object, observeFields_no_path t hgiven.noPath]
      exact (if_neg hgiven.handle_ne).trans hgiven.found

theorem room_iff (e : TraceEvent) {path path' : List UInt16} (h : Cut path path') :
    Room e path ↔ Room e path' := by
  have h256 : maxStringChars = 256 := rfl
  have h512 : traceMaxStringBytes = 512 := rfl
  have hlen : (pathField path).serialise.length = (pathField path').serialise.length := by
    rw [TraceField.serialise_length, TraceField.serialise_length]
    refine congrArg (sizeofFieldHeader + (cstr "path").length + ·) ?_
    show (wideValue path).length = (wideValue path').length
    rw [wideValue_length, wideValue_length]
    -- both fields have at most a full string, so a long path takes the same room
    rcases Nat.lt_or_ge maxStringChars path'.length with hlong | hshort
    · have hfull := h.full hlong
      omega
    · rw [h.whole hshort]
  rw [Room, Room, hlen]

/-- The tables give an event a path together. -/
theorem Cuts.given {t c : HandlePathTracker} (h : Cuts t c) {e : TraceEvent}
    {handle : UInt64} :
    (∀ path, GivenPath t e handle path →
      ∃ complete, GivenPath c e handle complete ∧ Cut path complete) ∧
    ∀ complete, GivenPath c e handle complete →
      ∃ path, GivenPath t e handle path ∧ Cut path complete := by
  have hkept := h.kept handle
  constructor
  · rintro path ⟨hnone, hobject, hne, hfound, hroom⟩
    rw [hfound] at hkept
    obtain ⟨complete, hcomplete, hcut⟩ := rel_some_left hkept
    exact ⟨complete, ⟨hnone, hobject, hne, hcomplete, (room_iff e hcut).mp hroom⟩, hcut⟩
  · rintro complete ⟨hnone, hobject, hne, hfound, hroom⟩
    rw [hfound] at hkept
    obtain ⟨path, hpath, hcut⟩ := rel_some_right hkept
    exact ⟨path, ⟨hnone, hobject, hne, hpath, (room_iff e hcut).mpr hroom⟩, hcut⟩

/-! ## Complete annotations -/

/-- Where a run adds a path to an event that is not flagged as truncated, it is
    the complete path of the handle. -/
def AnnotationsComplete (run : List HandlerEvent) : Prop :=
  ∀ before s after out added, run = before ++ s :: after →
    (writeAll .empty (run.map HandlerEvent.event)).2[before.length]? = some out →
    fieldsOf out = fieldsOf s.event ++ [added] →
    out.flags &&& traceEventFlagTruncated = 0 →
    ∃ handle path, objectHandle (fieldsOf s.event) = some handle ∧
      (completeAll before).find handle = some path ∧ added.value = wideBytes path

/-- Every event that is given a path and is not flagged as truncated has a
    handle with a complete path of at most a full string. -/
def PathsFit (run : List HandlerEvent) : Prop :=
  ∀ before s after handle path, run = before ++ s :: after →
    GivenPath (completeAll before) s.event handle path →
    s.event.flags &&& traceEventFlagTruncated = 0 → path.length ≤ maxStringChars

/-- The tracker and the complete table behind a stretch of a run. -/
theorem cuts_before (before : List HandlerEvent) :
    Cuts (writeAll .empty (before.map HandlerEvent.event)).1 (completeAll before) :=
  cuts_run .empty before

theorem written_getElem? (before after : List HandlerEvent) (s : HandlerEvent) :
    (writeAll .empty ((before ++ s :: after).map HandlerEvent.event)).2[before.length]?
      = some (writeEvent (writeAll .empty (before.map HandlerEvent.event)).1 s.event).2 := by
  rw [List.map_append, List.map_cons]
  have hget := writeAll_getElem? .empty (before.map HandlerEvent.event)
    (after.map HandlerEvent.event) s.event
  rw [List.length_map] at hget
  exact hget

/-- A path that fits was kept and is added whole. -/
theorem PathsFit.complete {run : List HandlerEvent} (h : PathsFit run) :
    AnnotationsComplete run := by
  rintro before s after out added rfl hwritten hadds hflags
  obtain rfl := Option.some.inj ((written_getElem? before after s).symm.trans hwritten)
  obtain ⟨hadded, hsame⟩ := @added_iff _ s.valid
    (writeAll .empty (before.map HandlerEvent.event)).1 added
  obtain ⟨handle, path, hgiven, rfl⟩ := hadded.mp hadds
  obtain ⟨complete, hcomplete, hcut⟩ := (cuts_before before).given.1 path hgiven
  have hshort := h before s after handle complete rfl hcomplete (hsame ▸ hflags)
  refine ⟨handle, complete, hcomplete.object, hcomplete.found, ?_⟩
  show wideValue path = _
  rw [hcut.whole hshort, wideValue_of_le hshort]

/-- A longer path is not in the field, which has at most a full string. -/
theorem AnnotationsComplete.fit {run : List HandlerEvent} (h : AnnotationsComplete run) :
    PathsFit run := by
  rintro before s after handle complete rfl hgiven hflags
  obtain ⟨path, hpath, hcut⟩ := (cuts_before before).given.2 complete hgiven
  obtain ⟨hadded, hsame⟩ := @added_iff _ s.valid
    (writeAll .empty (before.map HandlerEvent.event)).1 (pathField path)
  have hadds := hadded.mpr ⟨handle, path, hpath, rfl⟩
  rw [← hsame] at hflags
  obtain ⟨handle', complete', hobject, hfound, hvalue⟩ :=
    h before s after _ _ rfl (written_getElem? before after s) hadds hflags
  obtain rfl := Option.some.inj (hgiven.object.symm.trans hobject)
  obtain rfl := Option.some.inj (hgiven.found.symm.trans hfound)
  have hlen := pathField_length path
  rw [hvalue, wideBytes_length] at hlen
  have h256 : maxStringChars = 256 := rfl
  omega

/-- **SILENT TRUNCATION**: the paths that a run of the writer adds are complete
    exactly when the complete paths of their handles fit. -/
theorem annotations_complete_iff (run : List HandlerEvent) :
    AnnotationsComplete run ↔ PathsFit run :=
  ⟨AnnotationsComplete.fit, PathsFit.complete⟩

/-! ## A key with a long name -/

/-- A name of `n` characters `A`, read without fail. -/
def keyReads (n : Nat) : ObjectReads where
  objectAttributes := 1
  readAttributes := some ⟨0, 48, store (fun _ => 0) 16 (leBytes 8 1)⟩
  readHeader := some ⟨0, 16, store (store (fun _ => 0) 0 (leBytes 2 (n * 2))) 8 (leBytes 8 1)⟩
  readBuffer := some ⟨0, UInt32.ofNat (min maxStringChars n * 2),
    fun i => if i % 2 = 0 then 0x41 else 0⟩

theorem keyReads_attributes (n : Nat) :
    (keyReads n).attributes = (0, store (fun _ => 0) 16 (leBytes 8 1)) :=
  safeReadSelf_of_captured (show (1 : UInt64) ≠ 0 by decide) (by decide) rfl

theorem keyReads_unicodeString (n : Nat) : (keyReads n).unicodeString = 1 := by
  rw [ObjectReads.unicodeString, keyReads_attributes]
  dsimp only
  rw [word_store_self]
  rfl

theorem keyReads_header (n : Nat) : (keyReads n).header
    = (0, store (store (fun _ => 0) 0 (leBytes 2 (n * 2))) 8 (leBytes 8 1)) := by
  rw [ObjectReads.header, keyReads_unicodeString]
  exact safeReadSelf_of_captured (by decide) (by decide) rfl

theorem keyReads_buffer (n : Nat) : (keyReads n).buffer = 1 := by
  rw [ObjectReads.buffer, keyReads_header]
  dsimp only
  rw [word_store_self]
  rfl

/-- Whatever is asked for, the characters are all `A`. -/
theorem keyReads_characters (n count : Nat) :
    wideChars ((keyReads n).characters count).2 count = List.replicate count 0x41 := by
  refine List.eq_replicate_iff.mpr ⟨by rw [wideChars, List.length_map, List.length_range], ?_⟩
  intro c hc
  obtain ⟨i, hi, rfl⟩ := List.mem_map.mp hc
  have hcount : count * 2 ≠ 0 := by
    have := List.mem_range.mp hi
    omega
  have hbytes : ((keyReads n).characters count).2 = fun i => if i % 2 = 0 then 0x41 else 0 := by
    rw [ObjectReads.characters, keyReads_buffer, safeReadSelf]
    have hinvoke : invokeSelfRead (keyReads n).readBuffer 1 (count * 2)
        = ⟨0, UInt32.ofNat (min maxStringChars n * 2),
          fun i => if i % 2 = 0 then 0x41 else 0⟩ := by
      show invokeSelfRead (some _) 1 (count * 2) = _
      rw [invokeSelfRead]
      exact if_neg fun h => h.elim (by decide) hcount
    rw [hinvoke]
    dsimp only
    split <;> rfl
  rw [hbytes, word, slice_succ, slice_succ, slice_zero, if_pos (Nat.mul_mod_right 2 i),
    if_neg (by omega)]
  rfl

def keyObject (n : Nat) (h : n < 32768) : ObjectName where
  toObjectReads := keyReads n
  name := List.replicate n 0x41
  length_eq := by
    intro _
    rw [keyReads_header, List.length_replicate]
    dsimp only
    rw [word_store_disjoint (by rw [leBytes_length]; omega), word_store_self]
    omega
  chars_eq := by
    intro count hcount _
    rw [List.length_replicate] at hcount
    rw [keyReads_characters, List.take_replicate, Nat.min_eq_left hcount]

theorem keyObject_succeeds {n : Nat} (h : n < 32768) (hpos : 0 < n) :
    (keyReads n).Succeeds (min maxStringChars n) := by
  have h256 : maxStringChars = 256 := rfl
  refine ⟨?_, ?_, ?_, by omega, ?_⟩
  · rw [keyReads_unicodeString]
    decide
  · rw [keyReads_header]
    rfl
  · rw [keyReads_buffer]
    decide
  · have hcaptured : (UInt32.ofNat (min maxStringChars n * 2)).toNat
        = min maxStringChars n * 2 := by
      rw [UInt32.toNat_ofNat']
      omega
    have hread : safeReadSelf (keyReads n).readBuffer 1 (min maxStringChars n * 2)
        = (0, fun i => if i % 2 = 0 then 0x41 else 0) :=
      safeReadSelf_of_captured (by decide) (by omega) hcaptured
    rw [ObjectReads.characters, keyReads_buffer, hread]
    rfl

/-- The name is appended, and nothing else: there is no root directory. -/
theorem keyObject_appends {n : Nat} (h : n < 32768) (hpos : 0 < n) :
    (keyReads n).addPath.appends = [nameAppend (List.replicate n 0x41)] := by
  have hpath : (keyReads n).pathAppend = nameAppend (List.replicate n 0x41) := by
    rcases (keyObject n h).pathAppend_cases with ⟨hname, -⟩ | ⟨-, -, hfails⟩
    · exact hname
    · refine absurd ?_ hfails
      show (keyReads n).Succeeds (min maxStringChars (List.replicate n 0x41).length)
      rw [List.length_replicate]
      exact keyObject_succeeds h hpos
  have hread : ¬ ((keyReads n).objectAttributes = 0 ∨
      ntSuccess (keyReads n).attributes.1 = false) := by
    rw [keyReads_attributes]
    exact show ¬ ((1 : UInt64) = 0 ∨ ntSuccess 0 = false) by decide
  have hroot : ¬ UInt64.ofNat (word (keyReads n).attributes.2 8 8) ≠ 0 := by
    rw [keyReads_attributes]
    dsimp only
    rw [word_store_disjoint (Or.inl (Nat.le_refl 16))]
    decide
  rw [ObjectReads.addPath_appends, if_neg hread, if_neg hroot, hpath]

/-- An event of `NtOpenKey` or `NtClose` after its calls. -/
def builtEvent (api : HookedApi) (calls : List AddCall) : TraceEvent :=
  (runCalls (initializeTraceEvent (some (cstr "ntdll.dll")) (some api.name) 1 1).1 calls).1

/-- The calls of a handler whose fields are known. -/
theorem represents_builtEvent {api : HookedApi} {calls : List AddCall} {fs : List TraceField}
    (hfields : (calls.flatMap AddCall.appends).map Append.field = fs)
    (hnames : fs.map TraceField.name = api.names) (hfit : (serialiseFields fs).length ≤ 900) :
    Represents (builtEvent api calls) (cstr "ntdll.dll") api.name fs ∧
      ((∀ x ∈ calls.flatMap AddCall.appends, x.cut = false) →
        (builtEvent api calls).flags = 0) := by
  obtain ⟨hrep, hflags, hsize⟩ := represents_initialized api 1 1
  obtain ⟨hok, hnodup⟩ := names_ok api
  have happends : ∀ x ∈ calls.flatMap AddCall.appends, FieldNameOk x.field.name ∧ x.Ok := by
    intro x hx
    obtain ⟨call, -, hxc⟩ := List.mem_flatMap.mp hx
    refine ⟨hok _ ?_, appends_ok call x hxc⟩
    rw [← hnames, ← hfields]
    exact List.mem_map_of_mem (List.mem_map_of_mem hx)
  have hall := accepts_addAll _ hrep happends (by
    rw [hfields, List.nil_append, hnames]
    exact hnodup) (by
    have hmax : traceMaxEventBytes = 1024 := rfl
    rw [hfields]
    omega)
  rw [hfields, hflags] at hall
  rw [builtEvent, runCalls_fst]
  exact hall

/-- `NtOpenKey` of the name, which returns the handle 4. -/
def openCalls (n : Nat) : List AddCall :=
  [.uint32 (some (cstr "desired_access")) 1, (keyReads n).addPath,
    .pointer (some (cstr "key_handle")) 4, .status (some (cstr "result")) 0]

def openFields (n : Nat) : List TraceField :=
  [uint32Field (cstr "desired_access") 1, pathField (List.replicate n 0x41),
    pointerField (cstr "key_handle") 4, statusField 0]

/-- `NtClose` of the handle 4. -/
def closeCalls : List AddCall :=
  [.pointer (some (cstr "handle")) 4, .status (some (cstr "result")) 0]

def closeFields : List TraceField := [pointerField (cstr "handle") 4, statusField 0]

theorem represents_open {n : Nat} (h : n < 32768) (hpos : 0 < n) :
    Represents (builtEvent .ntOpenKey (openCalls n)) (cstr "ntdll.dll")
      HookedApi.ntOpenKey.name (openFields n) := by
  obtain ⟨x, hx, -, hxfield⟩ := @adds_uint32 (cstr "desired_access") rfl 1
  obtain ⟨y, hy, -, hyfield⟩ := @adds_pointer (cstr "key_handle") rfl 4
  obtain ⟨z, hz, -, hzfield⟩ := adds_status 0
  refine (@represents_builtEvent .ntOpenKey (openCalls n) (openFields n) ?_ rfl ?_).1
  · rw [openCalls, List.flatMap_cons, List.flatMap_cons, List.flatMap_cons, List.flatMap_cons,
      hx, hy, hz, keyObject_appends h hpos, openFields, ← hxfield, ← hyfield, ← hzfield,
      ← nameAppend_field]
    rfl
  · have hpath := pathField_length (List.replicate n 0x41)
    rw [serialiseFields_length]
    show 4 * 4 + 34 + (4 + ((pathField (List.replicate n 0x41)).value.length
      + (8 + (4 + 0)))) ≤ 900
    omega

theorem represents_close :
    Represents (builtEvent .ntClose closeCalls) (cstr "ntdll.dll") HookedApi.ntClose.name
      closeFields ∧ (builtEvent .ntClose closeCalls).flags = 0 := by
  have hadds : List.Forall₂ Adds closeCalls closeFields :=
    .cons (adds_pointer rfl 4) (.cons (adds_status 0) .nil)
  obtain ⟨hfields, hcut⟩ := appends_of_adds hadds
  have hfit : (serialiseFields closeFields).length ≤ 900 := by
    rw [serialiseFields_length]
    decide
  have hbuilt := @represents_builtEvent .ntClose closeCalls closeFields hfields rfl hfit
  exact ⟨hbuilt.1, hbuilt.2 hcut⟩

/-- An event that left the ring as it was built. -/
theorem built_self (name : List UInt16) (api : HookedApi) {calls : List AddCall}
    (hcalls : ∀ c ∈ calls, AddsName name c) :
    ∃ moduleName apiName threadId timestamp100ns e₀ calls',
      initializeTraceEvent moduleName apiName threadId timestamp100ns = (e₀, true) ∧
        (∀ c ∈ calls', AddsName name c) ∧
        Sequenced (runCalls e₀ calls').1 (builtEvent api calls) :=
  ⟨_, _, _, _, _, calls, Prod.ext rfl (initialize_ok api 1 1), hcalls, fun _ _ _ => rfl⟩

/-- A call that adds one field of another name. -/
theorem addsName_other {name : List UInt16} {c : AddCall} {f : TraceField} (h : Adds c f)
    (hname : f.name ≠ cstr "path") : AddsName name c := by
  obtain ⟨x, hx, -, hfield⟩ := h
  refine Or.inr fun y hy => ?_
  rw [hx] at hy
  rw [List.mem_singleton.mp hy, hfield]
  exact hname

def openKey (n : Nat) (h : n < 32768) : HandlerEvent where
  name := List.replicate n 0x41
  event := builtEvent .ntOpenKey (openCalls n)
  built := by
    refine built_self _ .ntOpenKey fun c hc => ?_
    rcases List.mem_cons.mp hc with rfl | hc
    · exact addsName_other (adds_uint32 rfl 1) (show cstr "desired_access" ≠ _ by decide)
    rcases List.mem_cons.mp hc with rfl | hc
    · exact Or.inl ⟨keyObject n h, rfl, rfl⟩
    rcases List.mem_cons.mp hc with rfl | hc
    · exact addsName_other (adds_pointer rfl 4) (show cstr "key_handle" ≠ _ by decide)
    · rw [List.mem_singleton.mp hc]
      exact addsName_other (adds_status 0) (show cstr "result" ≠ _ by decide)

def closeKey : HandlerEvent where
  name := []
  event := builtEvent .ntClose closeCalls
  built := by
    refine built_self _ .ntClose fun c hc => ?_
    rcases List.mem_cons.mp hc with rfl | hc
    · exact addsName_other (adds_pointer rfl 4) (show cstr "handle" ≠ _ by decide)
    · rw [List.mem_singleton.mp hc]
      exact addsName_other (adds_status 0) (show cstr "result" ≠ _ by decide)

theorem openKey_event (n : Nat) (h : n < 32768) :
    (openKey n h).event = builtEvent .ntOpenKey (openCalls n) := by
  rw [openKey]

theorem openKey_name (n : Nat) (h : n < 32768) : (openKey n h).name = List.replicate n 0x41 := by
  rw [openKey]

theorem closeKey_event : closeKey.event = builtEvent .ntClose closeCalls := by
  rw [closeKey]

/-- A key of a name of `n` characters is opened and closed. -/
def keyRun (n : Nat) (h : n < 32768) : List HandlerEvent := [openKey n h, closeKey]

/-- The close is given a path, and the complete one is the name. -/
theorem keyRun_given {n : Nat} (h : n < 32768) (hpos : 0 < n) :
    GivenPath (completeAll [openKey n h]) closeKey.event 4 (List.replicate n 0x41) := by
  have hopen : fieldsOf (openKey n h).event = openFields n := by
    rw [openKey_event]
    exact fieldsOf_eq (represents_open h hpos)
  have hclose : fieldsOf closeKey.event = closeFields := by
    rw [closeKey_event]
    exact fieldsOf_eq represents_close.1
  have hwide : wideNamed (openFields n) (cstr "path")
      = some ((List.replicate n (0x41 : UInt16)).take 256) := wideNamed_pathField rfl
  have hhandle : objectHandle (openFields n) = some 4 := by
    rw [objectHandle, @handleNamed_none _ (cstr "file_handle") rfl,
      @handleNamed_pointer _ (cstr "key_handle") 4 rfl]
  have hok : succeeded (openFields n) = true := @succeeded_status _ 0 rfl
  have hpath : (List.replicate n (0x41 : UInt16)).take 256 ≠ [] := by
    rw [List.take_replicate, ne_eq, List.replicate_eq_nil_iff]
    omega
  have hopened : opened (openKey n h).event = some 4 := by
    rw [opened, hopen, sourceOf, hwide, hhandle]
    dsimp only
    rw [if_pos ⟨hpath, by decide, hok⟩]
    rfl
  have hbase : completePaths.base (openKey n h) = none := by
    rw [completePaths_base, rootOf, hopen, handleNamed_none rfl, Option.filter_none]
  have htable : (completeAll [openKey n h]).find 4 = some (List.replicate n 0x41) := by
    rw [completeAll_single, completeEvent, hopen, evictFields_no_handle _ (handleNamed_none rfl),
      completeObserve, hopened]
    dsimp only
    rw [HandlePathTracker.find_record (by decide), Function.update_self,
      Reading.valueIn_none (by rw [hbase, Option.bind_none]), completePaths_own, openKey_name]
  refine ⟨?_, ?_, by decide, htable, ?_⟩
  · rw [hclose]
    rfl
  · rw [hclose, objectHandle, @handleNamed_none _ (cstr "file_handle") rfl,
      @handleNamed_none _ (cstr "key_handle") rfl,
      @handleNamed_pointer _ (cstr "handle") 4 rfl]
  · have hvalue := pathField_length (List.replicate n 0x41)
    have hsize : closeKey.event.size = 80 := by
      rw [closeKey_event]
      exact represents_close.1.size
    rw [Room, hsize, TraceField.serialise_length]
    show 80 + (4 + 4 + _) ≤ 1024
    omega

/-- **A NAME OF ANY LENGTH**: the close of the key is rendered with the complete
    path exactly when the name fits. -/
theorem keyRun_complete_iff {n : Nat} (h : n < 32768) (hpos : 0 < n) :
    AnnotationsComplete (keyRun n h) ↔ n ≤ maxStringChars := by
  have hgiven := keyRun_given h hpos
  constructor
  · intro hcomplete
    have hshort := hcomplete.fit [openKey n h] closeKey [] 4 _ rfl hgiven (by
      rw [closeKey_event, represents_close.2, Nat.zero_and])
    rwa [List.length_replicate] at hshort
  · intro hn
    -- only the second event of the run is given a path
    refine PathsFit.complete fun before s after handle path hrun hpath _ => ?_
    cases before with
    | nil => cases (HandlePathTracker.find_empty handle).symm.trans hpath.found
    | cons first before =>
        obtain ⟨rfl, hrest⟩ := List.cons.inj hrun
        cases before with
        | nil =>
            obtain ⟨rfl, -⟩ := List.cons.inj hrest
            obtain rfl := Option.some.inj (hgiven.object.symm.trans hpath.object)
            rw [← Option.some.inj (hgiven.found.symm.trans hpath.found), List.length_replicate]
            exact hn
        | cons second before =>
            have hlen : 0 = (before ++ s :: after).length :=
              congrArg List.length (List.cons.inj hrest).2
            rw [List.length_append, List.length_cons] at hlen
            omega

/-- One character too many: the run says nothing of the cut. -/
theorem annotations_complete_long :
    ¬ ∀ run : List HandlerEvent, AnnotationsComplete run := by
  intro h
  have hfit := (keyRun_complete_iff (n := 257) (by decide) (by decide)).mp (h _)
  exact absurd hfit (by decide)

end ScopeTruncation
