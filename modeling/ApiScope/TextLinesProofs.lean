import ApiScope.JsonLinesProofs
import ApiScope.LinesProofs

/-! # Text lines — what a field value can write

    `RenderTraceEventText` writes a fixed number of lines for an event, and
    every line under its own label.  This file says which lines these are
    (`textLines`) and which of their bytes come from where: all are printable,
    except those of wide strings, which are converted to UTF-8 and written as
    they are.  So the lines of an event are those that it should have, and no
    byte is a control byte, for exactly the events whose wide strings hold no
    control character (`renderTraceEventText_plain`). -/

namespace ScopeText

open ScopeBytes ScopeRead ScopeRead.Read ScopeProtocol ScopeParser ScopeRenderer
  ScopeGrammar ScopeBounds ScopeJson ScopeJsonl ScopeLines

/-! ## What the text should be -/

/-- No control byte. -/
def Shown (b : UInt8) : Prop := 0x20 ≤ b ∧ b ≠ 0x7F

def ShownText (s : List UInt8) : Prop := ∀ b ∈ s, Shown b

/-- A line that starts with the label of a name. -/
def Labelled (name line : List UInt8) : Prop := cstr "    " ++ name <+: line

/-- The lines of a field: one, or the four of a buffer. -/
inductive FieldLines (v : TraceFieldView) : List (List UInt8) → Prop where
  | one {line : List UInt8} : v.type ≠ TraceFieldType.bytes.code → Labelled v.name line →
      FieldLines v [line]
  | four {hex ascii size status : List UInt8} : v.type = TraceFieldType.bytes.code →
      Labelled (v.name ++ cstr "_hex") hex → Labelled (v.name ++ cstr "_ascii") ascii →
      Labelled (v.name ++ cstr "_size") size → Labelled (v.name ++ cstr "_status") status →
      FieldLines v [hex, ascii, size, status]

/-- The flags that are set and shown. -/
def setFlags (e : TraceEvent) : List (List UInt8) :=
  (if e.flags &&& traceEventFlagTruncated ≠ 0 then [cstr "truncated"] else [])
    ++ (if e.flags &&& traceEventFlagFieldError ≠ 0 then [cstr "field_error"] else [])

/-- The lines of an event: a blank one, the header, three of the envelope, those of each
    field, and one for each flag that is set. -/
def EventLines (e : TraceEvent) (lines : List (List UInt8)) : Prop :=
  ∃ header timestamp threadId sequence fields flags,
    lines = [] :: header :: timestamp :: threadId :: sequence :: (fields.flatten ++ flags) ∧
      cstr "[*] " <+: header ∧ Labelled (cstr "timestamp") timestamp ∧
      Labelled (cstr "thread_id") threadId ∧ Labelled (cstr "sequence") sequence ∧
      List.Forall₂ FieldLines (viewsOf e) fields ∧ List.Forall₂ Labelled (setFlags e) flags

/-- The text is the lines of the event, and nothing else but their newlines is a control
    byte. -/
def RendersPlain (calls : SystemCalls) (e : TraceEvent) : Prop :=
  ∃ lines, EventLines e lines ∧
    (renderTraceEventText calls false).run e.byte = terminated newline lines ∧
    ∀ line ∈ lines, ShownText line

/-- The conversion to UTF-8 writes ASCII characters as themselves and no others as
    ASCII. -/
def AsciiKept (calls : SystemCalls) : Prop :=
  ∀ wide, ∀ b : UInt8, b < 0x80 → (b ∈ calls.wideCharToMultiByte wide ↔ b.toUInt16 ∈ wide)

/-- No control character. -/
def ShownChar (c : UInt16) : Prop := 0x20 ≤ c ∧ c ≠ 0x7F

/-- No wide string of the event holds a control character. -/
def WideShown (e : TraceEvent) : Prop :=
  ∀ v ∈ viewsOf e, v.type = TraceFieldType.wideString.code →
    ∀ c ∈ wideOfBytes (v.valueBytes e.byte), ShownChar c

/-! ## The number of lines -/

/-- The lines of a field, by its type. -/
def lineCount (v : TraceFieldView) : Nat :=
  if v.type = TraceFieldType.bytes.code then 4 else 1

theorem FieldLines.length {v : TraceFieldView} {lines : List (List UInt8)}
    (h : FieldLines v lines) : lines.length = lineCount v := by
  rw [lineCount]
  cases h with
  | one hbytes _ => rw [if_neg hbytes]; rfl
  | four hbytes _ _ _ _ => rw [if_pos hbytes]; rfl

theorem fieldLines_length {views : List TraceFieldView} {fields : List (List (List UInt8))}
    (h : List.Forall₂ FieldLines views fields) :
    fields.flatten.length = (views.map lineCount).sum := by
  induction h with
  | nil => rfl
  | cons hv _ ih =>
      rw [List.flatten_cons, List.length_append, hv.length, ih, List.map_cons, List.sum_cons]

/-- The event decides how many lines it has. -/
theorem EventLines.length {e : TraceEvent} {lines : List (List UInt8)}
    (h : EventLines e lines) :
    lines.length = ((viewsOf e).map lineCount).sum + (setFlags e).length + 5 := by
  obtain ⟨header, timestamp, threadId, sequence, fields, flags, rfl, -, -, -, -, hfields,
    hflags⟩ := h
  simp only [List.length_cons, List.length_append, fieldLines_length hfields,
    hflags.length_eq]

/-! ## The lines that are written -/

/-- The text of a value that is not a buffer. -/
def textValue (calls : SystemCalls) (type : Nat) (value : List UInt8) : List UInt8 :=
  match TraceFieldType.ofCode type with
  | some .pointer => formatPointer (leNat value)
  | some .uint32 | some .uint64 => decimal (leNat value)
  | some .int32 => signedDecimal (UInt32.ofNat (leNat value)).toInt32.toInt
  | some .int64 => signedDecimal (UInt64.ofNat (leNat value)).toInt64.toInt
  | some .boolean => if value ≠ [0] then cstr "true" else cstr "false"
  | some .status => formatStatus (leNat value)
  | some .wideString => wideText calls value
  | _ => cstr "type_" ++ decimal type ++ cstr " " ++ hexBytes value true

/-- The lines of a buffer. -/
def bytesLines (name value : List UInt8) (labelWidth : Nat) : List (List UInt8) :=
  let data := value.drop sizeofBytesHeader
  let truncated := bytesCaptured value < bytesRequested value
  [renderTextLabel (name ++ cstr "_hex") labelWidth
      ++ (hexBytes data true ++ if truncated then cstr " ..." else []),
    renderTextLabel (name ++ cstr "_ascii") labelWidth
      ++ (previewText data ++ if truncated then cstr "..." else []),
    renderTextLabel (name ++ cstr "_size") labelWidth
      ++ (decimal (bytesCaptured value) ++ (cstr " of " ++
        (decimal (bytesRequested value) ++ cstr " bytes"))),
    renderTextLabel (name ++ cstr "_status") labelWidth ++ formatStatus (bytesStatus value)]

/-- The lines of a field. -/
def fieldTextLines (calls : SystemCalls) (mem : Memory) (labelWidth : Nat)
    (v : TraceFieldView) : List (List UInt8) :=
  if v.type = TraceFieldType.bytes.code then bytesLines v.name (v.valueBytes mem) labelWidth
  else [renderTextLabel v.name labelWidth ++ textValue calls v.type (v.valueBytes mem)]

/-- The lines of an event. -/
def textLines (calls : SystemCalls) (e : TraceEvent) : List (List UInt8) :=
  let labelWidth := textLabelWidth (viewsOf e) e.flags
  [] :: (cstr "[*] " ++ (moduleNameOf e ++ (cstr "!" ++ (apiNameOf e ++ cstr " ----------"))))
    :: (renderTextLabel (cstr "timestamp") labelWidth ++ formatTimestamp calls e.timestamp100ns)
    :: (renderTextLabel (cstr "thread_id") labelWidth ++ decimal e.threadId)
    :: (renderTextLabel (cstr "sequence") labelWidth ++ decimal e.sequence)
    :: (((viewsOf e).map (fieldTextLines calls e.byte labelWidth)).flatten
      ++ (setFlags e).map fun name => renderTextLabel name labelWidth ++ cstr "true")

theorem labelled_renderTextLabel (name : List UInt8) (width : Nat) (value : List UInt8) :
    Labelled name (renderTextLabel name width ++ value) := by
  rw [renderTextLabel]
  exact ⟨List.replicate (width - name.length) (byteOf ' ') ++ (cstr ": " ++ value),
    by simp only [List.append_assoc]⟩

theorem fieldLines_fieldTextLines (calls : SystemCalls) (mem : Memory) (labelWidth : Nat)
    (v : TraceFieldView) : FieldLines v (fieldTextLines calls mem labelWidth v) := by
  rw [fieldTextLines]
  split
  · rename_i hbytes
    exact .four hbytes (labelled_renderTextLabel _ _ _) (labelled_renderTextLabel _ _ _)
      (labelled_renderTextLabel _ _ _) (labelled_renderTextLabel _ _ _)
  · rename_i hbytes
    exact .one hbytes (labelled_renderTextLabel _ _ _)

/-- The lines that are written are those of the event, whatever its fields hold. -/
theorem eventLines_textLines (calls : SystemCalls) (e : TraceEvent) :
    EventLines e (textLines calls e) := by
  refine ⟨_, _, _, _, _, _, rfl, List.prefix_append _ _, labelled_renderTextLabel _ _ _,
    labelled_renderTextLabel _ _ _, labelled_renderTextLabel _ _ _, ?_, ?_⟩
  · rw [List.forall₂_map_right_iff]
    exact List.forall₂_same.mpr fun v _ => fieldLines_fieldTextLines calls _ _ v
  · rw [List.forall₂_map_right_iff]
    exact List.forall₂_same.mpr fun name _ => labelled_renderTextLabel _ _ _

/-! ## The renderer writes them -/

theorem putColor_false (code : List UInt8) : putColor false code = [] := rfl

/-- The parts of a buffer, as the renderer reads them. -/
theorem bytes_of_ok {mem : Memory} {v : TraceFieldView}
    (htype : TraceFieldType.ofCode v.type = some .bytes)
    (hok : ValueOk v.type (v.valueBytes mem)) :
    bytesRequested (v.valueBytes mem) = word mem v.value 4 ∧
      bytesCaptured (v.valueBytes mem) = word mem (v.value + 4) 4 ∧
      bytesStatus (v.valueBytes mem) = word mem (v.value + 8) 4 ∧
      (v.valueBytes mem).drop sizeofBytesHeader
        = slice mem (v.value + sizeofBytesHeader) (word mem (v.value + 4) 4) := by
  have h12 : sizeofBytesHeader = 12 := rfl
  rw [ValueOk, htype] at hok
  obtain ⟨-, -, hlen⟩ := hok
  rw [TraceFieldView.valueBytes, slice_length] at hlen
  have hcaptured := bytesCaptured_slice mem v.value v.valueSize (by omega)
  refine ⟨bytesRequested_slice mem v.value v.valueSize (by omega), hcaptured, ?_, ?_⟩
  · rw [bytesStatus, TraceFieldView.valueBytes, slice_drop _ _ _ 8 (by omega),
      slice_take _ _ _ 4 (by omega), word]
  · rw [TraceFieldView.valueBytes, slice_drop _ _ _ _ (by omega), ← hcaptured]
    exact congrArg _ (by omega)

theorem run_renderBytesText {mem : Memory} {v : TraceFieldView} (labelWidth : Nat)
    (htype : TraceFieldType.ofCode v.type = some .bytes)
    (hok : ValueOk v.type (v.valueBytes mem)) :
    (renderBytesText v labelWidth false).run mem
      = terminated newline (bytesLines v.name (v.valueBytes mem) labelWidth) := by
  obtain ⟨hrequested, hcaptured, hstatus, hdata⟩ := bytes_of_ok htype hok
  have hnewline : cstr "\n" = [newline] := rfl
  have hbytes : cstr " bytes\n" = cstr " bytes" ++ [newline] := rfl
  simp only [renderBytesText, run_bind, run_readWord, run_readBytes, run_pure, bytesLines,
    hrequested, hcaptured, hstatus, hdata, putColor_false, hnewline, hbytes, terminated,
    List.flatMap_cons, List.flatMap_nil, List.flatten_cons, List.flatten_nil, List.append_assoc,
    List.nil_append, List.append_nil]

theorem code_of_ofCode {n : Nat} {t : TraceFieldType} (h : TraceFieldType.ofCode n = some t) :
    n = t.code := by
  unfold TraceFieldType.ofCode at h
  split at h <;> first
    | exact Option.some.inj h ▸ rfl
    | cases h

/-- **ONE VALUE**: the text of a value that is not a buffer. -/
theorem run_renderTextValue (calls : SystemCalls) {mem : Memory} {v : TraceFieldView}
    (hbytes : v.type ≠ TraceFieldType.bytes.code) (hok : ValueOk v.type (v.valueBytes mem)) :
    (renderTextValue calls false v).run mem = textValue calls v.type (v.valueBytes mem) := by
  cases htype : TraceFieldType.ofCode v.type with
  | none =>
      simp only [renderTextValue, htype, run_bind, run_readBytes, run_pure, textValue,
        TraceFieldView.valueBytes]
  | some t =>
      cases t with
      | pointer | uint64 | uint32 | int32 | int64 =>
          -- one word of the declared size
          have hsize := valueSize_of_ok htype hok rfl
          simp only [renderTextValue, htype, run_bind, run_readWord, run_pure, textValue,
            word_of_slice hsize]
      | status =>
          have hsize := valueSize_of_ok htype hok rfl
          simp only [renderTextValue, htype, run_bind, run_readWord, run_pure, textValue,
            word_of_slice hsize, putColor_false, List.nil_append, List.append_nil]
      | boolean =>
          have hsize := valueSize_of_ok htype hok rfl
          have hbyte : v.valueBytes mem = [mem v.value] := by
            rw [TraceFieldView.valueBytes, hsize, slice_one]
          have hzero : ([mem v.value] ≠ [0]) ↔ mem v.value ≠ 0 := by
            rw [ne_eq, List.singleton_inj]
          simp only [renderTextValue, htype, run_bind, run_readByte, run_pure, textValue,
            hbyte, hzero]
      | wideString =>
          have heven : v.valueSize % 2 = 0 := by
            rw [ValueOk, htype, TraceFieldView.valueBytes, slice_length] at hok
            exact hok.1
          simp only [renderTextValue, htype, run_bind, run_pure, textValue,
            run_wideToUtf8 calls mem v.value v.valueSize heven, putColor_false,
            List.nil_append, List.append_nil, TraceFieldView.valueBytes]
      | bytes => exact absurd (code_of_ofCode htype) hbytes

/-- **ONE FIELD**: the renderer writes its lines. -/
theorem run_renderTextField (calls : SystemCalls) (labelWidth : Nat) {mem : Memory}
    {v : TraceFieldView} (hok : ValueOk v.type (v.valueBytes mem)) :
    (renderTextField calls labelWidth false v).run mem
      = terminated newline (fieldTextLines calls mem labelWidth v) := by
  have hnewline : cstr "\n" = [newline] := rfl
  rw [renderTextField, fieldTextLines, run_ite]
  by_cases hbytes : v.type = TraceFieldType.bytes.code
  · have htype : TraceFieldType.ofCode v.type = some .bytes := by
      rw [hbytes, TraceFieldType.ofCode_code]
    rw [if_pos hbytes, if_pos hbytes, run_renderBytesText labelWidth htype hok]
  · rw [if_neg hbytes, if_neg hbytes, run_bind, run_pure, run_renderTextValue calls hbytes hok,
      terminated_cons, hnewline]
    rfl

theorem run_renderTextFields (calls : SystemCalls) (labelWidth : Nat) {mem : Memory} {last : Nat}
    {views : List TraceFieldView} (hok : ∀ v ∈ views, v.Ok mem last) (index : Nat) :
    (renderEach [] (renderTextField calls labelWidth false) index views).run mem
      = terminated newline ((views.map (fieldTextLines calls mem labelWidth)).flatten) := by
  induction views generalizing index with
  | nil => rfl
  | cons v views ih =>
      rw [renderEach, run_bind, run_bind, run_pure,
        run_renderTextField calls labelWidth (hok v List.mem_cons_self).valueOk,
        ih (fun w hw => hok w (List.mem_cons_of_mem _ hw)), ite_self, List.nil_append,
        List.map_cons, List.flatten_cons, terminated_append]

theorem renderFlagLines (e : TraceEvent) (labelWidth : Nat) :
    renderFlagLine e.flags traceEventFlagTruncated (cstr "truncated") labelWidth
        ++ renderFlagLine e.flags traceEventFlagFieldError (cstr "field_error") labelWidth
      = terminated newline
        ((setFlags e).map fun name => renderTextLabel name labelWidth ++ cstr "true") := by
  have hline : ∀ (flag : Nat) (name : List UInt8),
      renderFlagLine e.flags flag name labelWidth
        = terminated newline ((if e.flags &&& flag ≠ 0 then [name] else []).map
            fun name => renderTextLabel name labelWidth ++ cstr "true") := by
    intro flag name
    have htrue : cstr "true\n" = cstr "true" ++ [newline] := rfl
    rw [renderFlagLine]
    split
    · rw [htrue, List.map_singleton, terminated_cons, List.append_assoc]
      rfl
    · rfl
  rw [setFlags, List.map_append, terminated_append, hline, hline]

/-- **THE LINES ARE WRITTEN**: an accepted event is written as its lines. -/
theorem run_renderTraceEventText (calls : SystemCalls) {e : TraceEvent}
    (h : Accepted e e.size) :
    (renderTraceEventText calls false).run e.byte = terminated newline (textLines calls e) := by
  have hparse := (run_parseTraceEvent e e.size _).mpr ⟨h, rfl⟩
  have hnewline : cstr "\n" = [newline] := rfl
  have hheader : cstr "\n[*] " = newline :: cstr "[*] " := rfl
  have hend : cstr " ----------\n" = cstr " ----------" ++ [newline] := rfl
  rw [renderTraceEventText, run_bind, run_readSize, run_bind, hparse]
  simp only [run_bind, run_readSequence, run_readTimestamp100ns, run_readThreadId,
    run_readFlags, run_pure, run_renderTextFields calls _ h.fields, List.flatten_cons,
    List.flatten_nil, List.append_nil, renderFlagLines, putColor_false, renderDimLine, hnewline,
    hheader, hend, textLines, terminated_cons, terminated_append, List.nil_append,
    List.append_assoc, List.cons_append]

/-! ## Which bytes are shown -/

theorem ShownText.append {s t : List UInt8} (hs : ShownText s) (ht : ShownText t) :
    ShownText (s ++ t) := fun b hb => (List.mem_append.mp hb).elim (hs b) (ht b)

theorem shown_of_simple {s : List UInt8} (h : SimpleText s) : ShownText s := fun b hb =>
  ⟨(h b hb).1.1, fun heq => absurd (h b hb).2 (heq ▸ UInt8.lt_irrefl _)⟩

theorem shown_previewText (bytes : List UInt8) : ShownText (previewText bytes) := by
  intro b hb
  obtain ⟨value, -, rfl⟩ := List.mem_map.mp hb
  split
  · rename_i hprintable
    refine ⟨hprintable.1, fun heq => ?_⟩
    exact absurd hprintable.2 (heq ▸ by decide)
  · exact ⟨by decide, by decide⟩

theorem shown_signedDecimal (i : Int) : ShownText (signedDecimal i) := by
  rw [signedDecimal]
  split
  · have hminus : SimpleText (cstr "-") := by decide
    exact (shown_of_simple hminus).append (shown_of_simple (simpleText_decimal _))
  · exact shown_of_simple (simpleText_decimal _)

theorem shown_renderTextLabel {name : List UInt8} (h : SimpleText name) (width : Nat) :
    ShownText (renderTextLabel name width) := by
  have hfill : SimpleText (List.replicate (width - name.length) (byteOf ' ')) := by
    intro b hb
    rw [(List.mem_replicate.mp hb).2]
    decide
  rw [renderTextLabel]
  exact shown_of_simple ((((SimpleText.append (by decide) h).append hfill)).append (by decide))

theorem shown_bytesLines {name : List UInt8} (h : SimpleText name) (value : List UInt8)
    (labelWidth : Nat) : ∀ line ∈ bytesLines name value labelWidth, ShownText line := by
  have hlabel : ∀ suffix : List UInt8, SimpleText suffix →
      ShownText (renderTextLabel (name ++ suffix) labelWidth) := fun suffix hsuffix =>
    shown_renderTextLabel (h.append hsuffix) labelWidth
  have hcut : ∀ (cut : Prop) [Decidable cut] {text : List UInt8}, SimpleText text →
      ShownText (if cut then text else []) := by
    intro cut _ text htext
    split
    · exact shown_of_simple htext
    · exact nofun
  rw [bytesLines]
  simp only [List.forall_mem_cons]
  refine ⟨?_, ?_, ?_, ?_, nofun⟩
  · exact (hlabel _ (by decide)).append
      ((shown_of_simple (simpleText_hexBytesFrom true _ 0)).append (hcut _ (by decide)))
  · exact (hlabel _ (by decide)).append
      ((shown_previewText _).append (hcut _ (by decide)))
  · exact (hlabel _ (by decide)).append
      ((shown_of_simple (simpleText_decimal _)).append
        ((shown_of_simple (by decide)).append
          ((shown_of_simple (simpleText_decimal _)).append (shown_of_simple (by decide)))))
  · exact (hlabel _ (by decide)).append (shown_of_simple (simpleText_formatStatus _))

/-- **EVERY ENCODING BUT ONE** writes no control byte, whatever the value. -/
theorem shown_textValue (calls : SystemCalls) {type : Nat} (value : List UInt8)
    (h : type ≠ TraceFieldType.wideString.code) : ShownText (textValue calls type value) := by
  cases htype : TraceFieldType.ofCode type with
  | none =>
      rw [textValue, htype]
      exact shown_of_simple (((SimpleText.append (by decide) (simpleText_decimal type)).append
        (by decide)).append (simpleText_hexBytesFrom true value 0))
  | some t =>
      rw [textValue, htype]
      cases t with
      | pointer => exact shown_of_simple (simpleText_formatPointer _)
      | uint32 => exact shown_of_simple (simpleText_decimal _)
      | uint64 => exact shown_of_simple (simpleText_decimal _)
      | int32 => exact shown_signedDecimal _
      | int64 => exact shown_signedDecimal _
      | boolean =>
          dsimp only
          split
          · exact shown_of_simple (by decide)
          · exact shown_of_simple (by decide)
      | status => exact shown_of_simple (simpleText_formatStatus _)
      | wideString => exact absurd (code_of_ofCode htype) h
      | bytes =>
          exact shown_of_simple (((SimpleText.append (by decide) (simpleText_decimal type)).append
            (by decide)).append (simpleText_hexBytesFrom true value 0))

/-- A control character below 0x80 is a byte. -/
theorem shownChar_toUInt16 (b : UInt8) : ShownChar b.toUInt16 ↔ Shown b := by
  rw [ShownChar, Shown, UInt16.le_iff_toNat_le, UInt8.le_iff_toNat_le, ne_eq, ne_eq,
    ← UInt16.toNat_inj, ← UInt8.toNat_inj, UInt8.toNat_toUInt16]
  rfl

theorem conversion_shown {calls : SystemCalls} (hcalls : AsciiKept calls) (wide : List UInt16) :
    ShownText (calls.wideCharToMultiByte wide) ↔ ∀ c ∈ wide, ShownChar c := by
  constructor
  · intro h c hc
    by_cases hascii : c.toNat < 0x80
    · have hb : (UInt8.ofNat c.toNat).toUInt16 = c := by
        rw [← UInt16.toNat_inj, UInt8.toNat_toUInt16, UInt8.toNat_ofNat']
        omega
      have hlt : UInt8.ofNat c.toNat < 0x80 := by
        rw [UInt8.lt_iff_toNat_lt, UInt8.toNat_ofNat']
        exact Nat.lt_of_le_of_lt (Nat.mod_le _ _) hascii
      rw [← hb, shownChar_toUInt16]
      exact h _ ((hcalls wide _ hlt).mpr (hb.symm ▸ hc))
    · refine ⟨?_, ?_⟩
      · rw [UInt16.le_iff_toNat_le]
        exact Nat.le_trans (by decide) (Nat.not_lt.mp hascii)
      · rintro rfl
        exact hascii (by decide)
  · intro h b hb
    by_cases hascii : b < 0x80
    · exact (shownChar_toUInt16 b).mp (h _ ((hcalls wide b hascii).mp hb))
    · refine ⟨UInt8.le_trans (by decide) (UInt8.not_lt.mp hascii), ?_⟩
      rintro rfl
      exact hascii (by decide)

/-- **WIDE STRINGS** write the control characters they hold, and no others. -/
theorem shown_wideText {calls : SystemCalls} (hcalls : AsciiKept calls) (value : List UInt8) :
    ShownText (wideText calls value) ↔ ∀ c ∈ wideOfBytes value, ShownChar c := by
  rw [wideText]
  split
  · rename_i hshort
    have hnil : wideOfBytes value = [] := by
      rcases value with - | ⟨b, - | ⟨c, rest⟩⟩
      · rfl
      · rfl
      · exact absurd hshort (by simp)
    rw [hnil]
    exact iff_of_true (fun b hb => absurd hb List.not_mem_nil)
      (fun c hc => absurd hc List.not_mem_nil)
  · exact conversion_shown hcalls _

/-- The lines of a field. -/
theorem shown_fieldTextLines {calls : SystemCalls} (hcalls : AsciiKept calls) {mem : Memory}
    {last : Nat} {v : TraceFieldView} (hok : v.Ok mem last) (labelWidth : Nat) :
    (∀ line ∈ fieldTextLines calls mem labelWidth v, ShownText line) ↔
      (v.type = TraceFieldType.wideString.code →
        ∀ c ∈ wideOfBytes (v.valueBytes mem), ShownChar c) := by
  have hname := simpleText_fieldName hok.nameOk
  rw [fieldTextLines]
  by_cases hbytes : v.type = TraceFieldType.bytes.code
  · rw [if_pos hbytes]
    refine iff_of_true (shown_bytesLines hname _ labelWidth) fun hwide => ?_
    exact absurd (hbytes.symm.trans hwide) (by decide)
  rw [if_neg hbytes, List.forall_mem_singleton]
  have hlabel := shown_renderTextLabel hname labelWidth
  by_cases hwide : v.type = TraceFieldType.wideString.code
  · have htext : textValue calls v.type (v.valueBytes mem)
        = wideText calls (v.valueBytes mem) := by
      rw [hwide]
      rfl
    rw [htext]
    constructor
    · intro h _
      exact (shown_wideText hcalls _).mp fun b hb => h b (List.mem_append_right _ hb)
    · intro h
      exact hlabel.append ((shown_wideText hcalls _).mpr (h hwide))
  · exact iff_of_true (hlabel.append (shown_textValue calls _ hwide)) fun h => absurd h hwide

/-- **THE LINES OF AN EVENT** hold no control byte where its wide strings do not. -/
theorem shown_textLines {calls : SystemCalls} (hcalls : AsciiKept calls) {e : TraceEvent}
    (h : Accepted e e.size) :
    (∀ line ∈ textLines calls e, ShownText line) ↔ WideShown e := by
  have hsimple : ∀ {name value : List UInt8} {width : Nat}, SimpleText name →
      SimpleText value → ShownText (renderTextLabel name width ++ value) := fun hname hvalue =>
    (shown_renderTextLabel hname _).append (shown_of_simple hvalue)
  have hheader : ShownText (cstr "[*] " ++ (moduleNameOf e ++ (cstr "!" ++ (apiNameOf e
      ++ cstr " ----------")))) :=
    shown_of_simple (SimpleText.append (by decide) ((simpleText_identifier h.moduleName).append
      (SimpleText.append (by decide) ((simpleText_identifier h.apiName).append (by decide)))))
  have hflags : ∀ name ∈ setFlags e, SimpleText name := by
    rw [setFlags]
    intro name hname
    rcases List.mem_append.mp hname with hname | hname
    · split at hname
      · exact List.mem_singleton.mp hname ▸ by decide
      · cases hname
    · split at hname
      · exact List.mem_singleton.mp hname ▸ by decide
      · cases hname
  rw [WideShown]
  constructor
  · intro hlines v hv
    refine (shown_fieldTextLines hcalls (h.fields v hv)
      (textLabelWidth (viewsOf e) e.flags)).mp fun line hline => hlines line ?_
    rw [textLines]
    simp only [List.mem_cons, List.mem_append, List.mem_flatten, List.mem_map]
    exact Or.inr (Or.inr (Or.inr (Or.inr (Or.inr (Or.inl ⟨_, ⟨v, hv, rfl⟩, hline⟩)))))
  · intro hwide
    rw [textLines]
    simp only [List.forall_mem_cons, List.forall_mem_append, List.mem_flatten, List.mem_map]
    refine ⟨nofun, hheader, hsimple (by decide) (simpleText_formatTimestamp calls _),
      hsimple (by decide) (simpleText_decimal _), hsimple (by decide) (simpleText_decimal _),
      ?_, ?_⟩
    · rintro line ⟨lines, ⟨v, hv, rfl⟩, hline⟩
      exact (shown_fieldTextLines hcalls (h.fields v hv) _).mpr (hwide v hv) line hline
    · rintro line ⟨name, hname, rfl⟩
      exact hsimple (hflags name hname) (by decide)

/-! ## Forged lines -/

/-- Only the lines that are written can be the lines of the event. -/
theorem rendersPlain_iff {calls : SystemCalls} (hcalls : AsciiKept calls) {e : TraceEvent}
    (h : Accepted e e.size) : RendersPlain calls e ↔ WideShown e := by
  have hwritten := run_renderTraceEventText calls h
  have hevent := eventLines_textLines calls e
  rw [← shown_textLines hcalls h]
  constructor
  · rintro ⟨lines, hlines, hrun, hshown⟩
    -- any lines that would do have as many lines and no newline inside: they are these
    have hfree : ∀ line ∈ lines, newline ∉ line := fun line hline hmem =>
      absurd (hshown line hline _ hmem).1 (by decide)
    have hsame := terminated_inj (hwritten.symm.trans hrun)
      (hevent.length.trans hlines.length.symm) hfree
    exact hsame ▸ hshown
  · intro hshown
    exact ⟨textLines calls e, hevent, hwritten, hshown⟩

/-- **NOT FORGED, IF**: an accepted event is written as its lines, without a control
    byte but their newlines, exactly where none of its wide strings holds a control
    character. -/
theorem renderTraceEventText_plain (calls : SystemCalls) (hcalls : AsciiKept calls)
    (e : TraceEvent) (hvalid : isValidReceived.run e.byte = true) :
    RendersPlain calls e ↔ WideShown e :=
  rendersPlain_iff hcalls (accepted_of_valid hvalid)

theorem asciiCalls_kept : AsciiKept asciiCalls := by
  intro wide b hb
  have hlt : b.toNat < 0x80 := UInt8.lt_iff_toNat_lt.mp hb
  have hother : b ∉ ([0xEF, 0xBF, 0xBD] : List UInt8) := by
    simp only [List.mem_cons, List.not_mem_nil, or_false, not_or]
    refine ⟨?_, ?_, ?_⟩ <;>
    · rintro rfl
      exact absurd hb (by decide)
  constructor
  · intro hmem
    obtain ⟨c, hc, hmem⟩ := List.mem_flatMap.mp hmem
    split at hmem
    · rename_i hascii
      have hc' : c.toNat < 0x80 := UInt16.lt_iff_toNat_lt.mp hascii
      have heq : b.toUInt16 = c := by
        rw [List.mem_singleton.mp hmem, ← UInt16.toNat_inj, UInt8.toNat_toUInt16,
          UInt16.toNat_toUInt8]
        omega
      exact heq ▸ hc
    · exact absurd hmem hother
  · intro hmem
    refine List.mem_flatMap.mpr ⟨_, hmem, ?_⟩
    have hascii : b.toUInt16 < 0x80 := by
      rw [UInt16.lt_iff_toNat_lt, UInt8.toNat_toUInt16]
      exact hlt
    rw [if_pos hascii]
    exact List.mem_singleton.mpr (UInt8.toUInt8_toUInt16 b).symm

/-- The path of the record holds a newline. -/
theorem not_wideShown_quotedRecord : ¬ WideShown quotedRecord.event := by
  intro hwide
  obtain ⟨-, -, hfields, -⟩ := wellFormed_quotedRecord.represents.parsed
  have hpath : (⟨9, cstr "path", [0x22, 0, 0x5C, 0, 0x0A, 0]⟩ : TraceField) ∈
      (viewsOf quotedRecord.event).map (toField quotedRecord.event.byte) :=
    hfields ▸ List.mem_cons_self
  obtain ⟨v, hv, hfield⟩ := List.mem_map.mp hpath
  have htype : v.type = TraceFieldType.wideString.code := by
    have hcode := congrArg (fun f => f.type.toNat) hfield
    have hlt := (mem_viewsAt hv).1
    dsimp only [toField] at hcode
    rw [UInt8.toNat_ofNat', Nat.mod_eq_of_lt hlt] at hcode
    exact hcode
  have hvalue : v.valueBytes quotedRecord.event.byte = [0x22, 0, 0x5C, 0, 0x0A, 0] :=
    congrArg TraceField.value hfield
  have hshown := hwide v hv htype
  rw [hvalue] at hshown
  exact absurd (hshown 10 (by decide)).1 (by decide)

/-- An event of a path with a newline. -/
theorem renderTraceEventText_plain_quoted :
    RendersPlain asciiCalls quotedRecord.event ↔ WideShown quotedRecord.event :=
  renderTraceEventText_plain asciiCalls asciiCalls_kept quotedRecord.event
    (valid_of_represents wellFormed_quotedRecord.represents)

/-- **FORGED**: the text of an accepted event whose path holds a newline is not its
    lines. -/
theorem renderTraceEventText_forged :
    ¬ ∀ calls, AsciiKept calls → ∀ e, isValidReceived.run e.byte = true →
      RendersPlain calls e := by
  intro h
  have hvalid := valid_of_represents wellFormed_quotedRecord.represents
  exact not_wideShown_quotedRecord ((rendersPlain_iff asciiCalls_kept (accepted_of_valid hvalid)).mp
    (h asciiCalls asciiCalls_kept quotedRecord.event hvalid))

end ScopeText
