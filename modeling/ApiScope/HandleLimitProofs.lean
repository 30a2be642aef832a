import ApiScope.AnnotationProofs

/-! # The limit of the table — what `Observe` does to other handles

    The table of the tracker is bounded: a store into a table of
    `MAX_TRACKED_HANDLES` entries clears it first.  The test looks at the size
    alone.  Where the handle is not tracked yet the table would grow beyond
    the limit; where it is, the store would only overwrite its path, and the
    other handles are forgotten for nothing.

    `observe_keeps_others_iff` says that this is the only case: in every state
    that any calls reach, `Observe` touches no entry but its own handle's,
    or clears a table that would have grown, unless it overwrites in a full
    one. -/

namespace ScopeLimit

open ScopeBytes ScopeRead ScopeProtocol ScopeParser ScopeGrammar ScopeCorrelator
  ScopeBounds ScopePathHistory ScopeAnnotation

/-! ## The handle of a store -/

/-- The handle under which `Observe` stores a path, if it stores one. -/
def observedHandle : Read (Option UInt64) := do
  let path ← readWideString (cstr "path")
  match path with
  | none => pure none
  | some path =>
      if path = [] then pure none
      else do
        let handle ← findObjectHandle
        match handle with
        | none => pure none
        | some handle =>
            if handle = 0 then pure none
            else do
              let succeeded ← eventSucceeded
              pure (if succeeded then some handle else none)

/-- What `Observe` changes: it records a path under that handle, the event's
    own object handle, or leaves the table alone. -/
theorem observe_record (t : HandlePathTracker) (mem : Memory) :
    match observedHandle.run mem with
    | none => (observe t).run mem = t
    | some handle => findObjectHandle.run mem = some handle ∧
        ∃ path, (observe t).run mem = t.record handle path := by
  rw [observe, observedHandle, Read.run_bind, Read.run_bind]
  cases (readWideString (cstr "path")).run mem with
  | none => exact Read.run_pure _ _
  | some path =>
      dsimp only
      rw [Read.run_ite, Read.run_ite]
      by_cases hpath : path = []
      · rw [if_pos hpath, if_pos hpath]
        exact Read.run_pure _ _
      rw [if_neg hpath, if_neg hpath, Read.run_bind, Read.run_bind]
      cases findObjectHandle.run mem with
      | none => exact Read.run_pure _ _
      | some handle =>
          dsimp only
          rw [Read.run_ite, Read.run_ite]
          by_cases hzero : handle = 0
          · rw [if_pos hzero, if_pos hzero]
            exact Read.run_pure _ _
          rw [if_neg hzero, if_neg hzero, Read.run_bind, Read.run_bind, Read.run_ite,
            Read.run_pure]
          by_cases hok : eventSucceeded.run mem = true
          · rw [if_pos hok, if_pos hok]
            refine ⟨rfl, ?_⟩
            -- with a root directory or without, the store is to the same handle
            rw [Read.run_bind]
            cases (readHandle (cstr "root_directory")).run mem with
            | none => exact ⟨path, Read.run_pure _ _⟩
            | some root =>
                dsimp only
                rw [Read.run_ite]
                split
                · cases t.find root with
                  | none => exact ⟨path, Read.run_pure _ _⟩
                  | some base => exact ⟨_, Read.run_pure _ _⟩
                · exact ⟨path, Read.run_pure _ _⟩
          · rw [if_neg hok, if_neg hok]
            exact Read.run_pure _ _

theorem observe_of_none {t : HandlePathTracker} {mem : Memory}
    (h : observedHandle.run mem = none) : (observe t).run mem = t := by
  have hrecord := observe_record t mem
  rwa [h] at hrecord

theorem observe_of_some {t : HandlePathTracker} {mem : Memory} {handle : UInt64}
    (h : observedHandle.run mem = some handle) :
    findObjectHandle.run mem = some handle ∧
      ∃ path, (observe t).run mem = t.record handle path := by
  have hrecord := observe_record t mem
  rwa [h] at hrecord

/-- On an event that represents a list of fields, the fields decide. -/
theorem run_observedHandle {e : TraceEvent} {m a : List UInt8} {fs : List TraceField}
    (h : Represents e m a fs) : observedHandle.run e.byte = (sourceOf fs).map Prod.fst := by
  rw [observedHandle, sourceOf, Read.run_bind, run_readWideString h]
  cases wideNamed fs (cstr "path") with
  | none => exact Read.run_pure _ _
  | some path =>
      dsimp only
      rw [Read.run_ite, Read.run_bind, run_findObjectHandle h, Read.run_pure]
      cases objectHandle fs with
      | none =>
          dsimp only
          rw [Read.run_pure, ite_self]
          rfl
      | some handle =>
          dsimp only
          rw [Read.run_ite, Read.run_bind, run_eventSucceeded h, Read.run_pure, Read.run_pure]
          by_cases hpath : path = []
          · rw [if_pos hpath, if_neg fun hand => hand.1 hpath]
            rfl
          rw [if_neg hpath]
          by_cases hzero : handle = 0
          · rw [if_pos hzero, if_neg fun hand => hand.2.1 hzero]
            rfl
          rw [if_neg hzero]
          by_cases hok : succeeded fs = true
          · rw [if_pos hok, if_pos ⟨hpath, hzero, hok⟩]
            rfl
          · rw [if_neg hok, if_neg fun hand => hok hand.2.2]
            rfl

/-! ## The size of the table -/

/-- A path for a handle that is tracked does not change the size. -/
theorem size_insert (t : HandlePathTracker) (handle : UInt64) (path : List UInt16) :
    HandlePathTracker.size ⟨t.handlePaths.insert handle path⟩
      = if (t.find handle).isSome then t.size else t.size + 1 := by
  have htracked : (t.find handle).isSome = true ↔ handle ∈ t.handlePaths :=
    AList.lookup_isSome
  rw [HandlePathTracker.size, AList.keys_insert, List.length_cons]
  by_cases hmem : handle ∈ t.handlePaths
  · have hkey : handle ∈ t.handlePaths.keys := AList.mem_keys.mp hmem
    have hpos : 0 < t.handlePaths.keys.length := List.length_pos_of_mem hkey
    rw [if_pos (htracked.mpr hmem), List.length_erase_of_mem hkey,
      HandlePathTracker.size]
    omega
  · have hkey : handle ∉ t.handlePaths.keys := fun h => hmem (AList.mem_keys.mpr h)
    rw [if_neg (fun h => hmem (htracked.mp h)), List.erase_of_not_mem hkey,
      HandlePathTracker.size]

theorem size_record_limit {t : HandlePathTracker} (h : t.size ≤ maxTrackedHandles)
    (handle : UInt64) (path : List UInt16) :
    (t.record handle path).size ≤ maxTrackedHandles := by
  rw [HandlePathTracker.record]
  split
  next => exact show 1 ≤ 65536 by decide
  next hroom =>
    rw [size_insert]
    split
    next => exact h
    next => omega

/-- **THE LIMIT** holds after any calls, on any events. -/
theorem size_afterCalls (calls : List TrackerCall) :
    (afterCalls calls).size ≤ maxTrackedHandles := by
  induction calls using List.reverseRecOn with
  | nil => exact Nat.zero_le _
  | append_singleton calls call ih =>
      rw [afterCalls_snoc]
      cases call with
      | annotate e => exact ih
      | observe e =>
          rcases observe_cases (afterCalls calls) e.byte with hsame | ⟨handle, path, -, hrecord⟩
          · exact (congrArg HandlePathTracker.size hsame).trans_le ih
          · exact (congrArg HandlePathTracker.size hrecord).trans_le
              (size_record_limit ih handle path)
      | evict e =>
          rcases evict_cases (afterCalls calls) e.byte with hsame | ⟨handle, hforget⟩
          · exact (congrArg HandlePathTracker.size hsame).trans_le ih
          · exact (congrArg HandlePathTracker.size hforget).trans_le
              (Nat.le_trans (HandlePathTracker.size_forget_le _ _) ih)

/-! ## The other handles -/

/-- `Observe` changes no entry but that of the event's own object handle. -/
def KeepsOthers (t : HandlePathTracker) (e : TraceEvent) : Prop :=
  ∀ handle, findObjectHandle.run e.byte ≠ some handle →
    ((observe t).run e.byte).find handle = t.find handle

/-- `Observe` stores a handle that is not tracked yet, one too many. -/
def Exceeds (t : HandlePathTracker) (e : TraceEvent) : Prop :=
  ∃ handle, observedHandle.run e.byte = some handle ∧ t.find handle = none ∧
    maxTrackedHandles < t.size + 1

/-- `Observe` stores a handle that is tracked, in a full table. -/
def OverwritesFull (t : HandlePathTracker) (e : TraceEvent) : Prop :=
  ∃ handle, observedHandle.run e.byte = some handle ∧ (t.find handle).isSome = true ∧
    t.size = maxTrackedHandles

/-- A table of two entries has one besides that of a handle. -/
theorem exists_other {t : HandlePathTracker} (h : 2 ≤ t.size) (handle : UInt64) :
    ∃ k, k ≠ handle ∧ (t.find k).isSome = true := by
  have hlen : (t.handlePaths.keys.erase handle).length ≠ 0 := by
    have hle : t.handlePaths.keys.length ≤ (t.handlePaths.keys.erase handle).length + 1 := by
      rw [List.length_erase]
      split <;> omega
    have hsize : 2 ≤ t.handlePaths.keys.length := h
    omega
  obtain ⟨k, hk⟩ := List.exists_mem_of_length_pos (Nat.pos_of_ne_zero hlen)
  have hnodup : t.handlePaths.keys.Nodup := t.handlePaths.nodupKeys
  obtain ⟨hne, hmem⟩ := hnodup.mem_erase_iff.mp hk
  exact ⟨k, hne, AList.lookup_isSome.mpr (AList.mem_keys.mpr hmem)⟩

/-- A clear forgets every other handle. -/
theorem find_record_full {t : HandlePathTracker} (h : maxTrackedHandles ≤ t.size)
    {handle k : UInt64} (hne : k ≠ handle) (path : List UInt16) :
    (t.record handle path).find k = none := by
  rw [HandlePathTracker.record, if_pos h]
  have hinsert := HandlePathTracker.find_insert .empty handle path
  exact (congrFun hinsert k).trans
    ((Function.update_of_ne hne _ _).trans (HandlePathTracker.find_empty k))

/-- **OTHER HANDLES**: in every state that calls on events reach, the table is
    within its limit, and `Observe` of any event keeps the entries of other
    handles, or clears the table for a handle that is not in it, exactly if it
    does not overwrite a path in a full table. -/
theorem observe_keeps_others_iff (calls : List TrackerCall) (e : TraceEvent) :
    (afterCalls calls).size ≤ maxTrackedHandles ∧
      (KeepsOthers (afterCalls calls) e ∨ Exceeds (afterCalls calls) e ↔
        ¬OverwritesFull (afterCalls calls) e) := by
  have hlimit := size_afterCalls calls
  refine ⟨hlimit, ?_⟩
  generalize afterCalls calls = t at hlimit ⊢
  constructor
  · rintro hclaim ⟨handle, hstore, hsome, hfull⟩
    rcases hclaim with hkeeps | ⟨handle', hstore', hnone, -⟩
    · -- some other handle is tracked, and it is forgotten
      obtain ⟨hobject, path, hafter⟩ := observe_of_some (t := t) hstore
      have htwo : 2 ≤ t.size := by
        rw [hfull]
        decide
      obtain ⟨k, hne, hk⟩ := exists_other htwo handle
      have hkept := hkeeps k (fun h => hne (Option.some.inj (hobject.symm.trans h)).symm)
      rw [hafter, find_record_full (Nat.le_of_eq hfull.symm) hne] at hkept
      rw [← hkept] at hk
      cases hk
    · rw [hstore] at hstore'
      rw [Option.some.inj hstore', hnone] at hsome
      cases hsome
  · intro hfree
    cases hstore : observedHandle.run e.byte with
    | none =>
        exact Or.inl fun k _ => congrArg (HandlePathTracker.find · k) (observe_of_none hstore)
    | some handle =>
        obtain ⟨hobject, path, hafter⟩ := observe_of_some (t := t) hstore
        by_cases hroom : t.size < maxTrackedHandles
        · refine Or.inl fun k hk => ?_
          have hne : k ≠ handle := fun h => hk (h ▸ hobject)
          rw [hafter, HandlePathTracker.find_record hroom, Function.update_of_ne hne]
        · cases hfind : t.find handle with
          | none => exact Or.inr ⟨handle, hstore, hfind, by omega⟩
          | some old =>
              exact absurd ⟨handle, hstore, by rw [hfind]; rfl, by omega⟩ hfree

/-! ## A full table -/

/-- A file `C:` opened under a handle. -/
def openOf (handle : Nat) : TraceRecord :=
  { openRecord with
    fields := [⟨9, cstr "path", [0x43, 0, 0x3A, 0]⟩, ⟨1, cstr "file_handle", leBytes 8 handle⟩] }

theorem wellFormed_openOf (handle : Nat) : (openOf handle).WellFormed := by
  have hbase := wellFormed_openRecord
  refine ⟨hbase.moduleName, hbase.apiName, ?_, hbase.distinct, ?_⟩
  · intro f hf
    rcases List.mem_cons.mp hf with rfl | hf
    · exact hbase.fields _ List.mem_cons_self
    · rw [List.mem_singleton.mp hf]
      exact ⟨handleField_ok.nameOk, leBytes_length 8 handle⟩
  · exact hbase.fits

theorem valid_openOf (handle : Nat) : isValidReceived.run (openOf handle).event.byte = true :=
  valid_of_represents (wellFormed_openOf handle).represents

/-- What such an event says. -/
theorem sourceOf_openOf {handle : Nat} (hpos : 0 < handle) (hlt : handle < 2 ^ 64) :
    sourceOf (openOf handle).fields = some (UInt64.ofNat handle, [0x43, 0x3A]) := by
  have hwide : wideNamed (openOf handle).fields (cstr "path") = some [0x43, 0x3A] := rfl
  have hfield : fieldNamed (openOf handle).fields (cstr "file_handle")
      = some ⟨1, cstr "file_handle", leBytes 8 handle⟩ := rfl
  have hresult : fieldNamed (openOf handle).fields (cstr "result") = none := rfl
  have hobject : objectHandle (openOf handle).fields = some (UInt64.ofNat handle) := by
    have hvalue : leNat (leBytes 8 handle) = handle := leNat_leBytes_of_lt hlt
    rw [objectHandle, handleNamed, hfield]
    dsimp only
    rw [if_neg (by rw [leBytes_length]; decide), hvalue]
  have hne : UInt64.ofNat handle ≠ 0 := by
    intro h
    have hnat := congrArg UInt64.toNat h
    rw [UInt64.toNat_ofNat', Nat.mod_eq_of_lt hlt] at hnat
    exact absurd hnat (Nat.ne_of_gt hpos)
  have hok : succeeded (openOf handle).fields = true := by
    rw [succeeded, hresult]
  rw [sourceOf, hwide, hobject]
  exact if_pos ⟨List.cons_ne_nil _ _, hne, hok⟩

/-- `Observe` of such an event. -/
theorem observe_openOf (t : HandlePathTracker) {handle : Nat} (hpos : 0 < handle)
    (hlt : handle < 2 ^ 64) :
    (observe t).run (openOf handle).event.byte
      = t.record (UInt64.ofNat handle) [0x43, 0x3A] := by
  have hroot : handleNamed (openOf handle).fields (cstr "root_directory") = none := rfl
  rw [run_observe (wellFormed_openOf handle).represents, observeFields,
    sourceOf_openOf hpos hlt]
  dsimp only
  rw [openedPath, hroot]

/-- The handles `1` to `n` are opened. -/
def opens (n : Nat) : List TrackerCall :=
  (List.range n).map fun i => .observe (openOf (i + 1)).event

theorem opens_succ (n : Nat) :
    opens (n + 1) = opens n ++ [TrackerCall.observe (openOf (n + 1)).event] := by
  rw [opens, List.range_succ, List.map_append, List.map_singleton, opens]

/-- As many openings as the table has room for are all tracked. -/
theorem afterCalls_opens {n : Nat} (h : n ≤ maxTrackedHandles) :
    (afterCalls (opens n)).size = n ∧
      ∀ handle, ((afterCalls (opens n)).find handle).isSome = true ↔
        0 < handle.toNat ∧ handle.toNat ≤ n := by
  have hmax : maxTrackedHandles = 65536 := rfl
  induction n with
  | zero =>
      refine ⟨rfl, fun handle => ⟨fun hsome => absurd hsome Bool.false_ne_true, fun hle => ?_⟩⟩
      omega
  | succ n ih =>
      obtain ⟨hsize, htracked⟩ := ih (by omega)
      have hlt : n + 1 < 2 ^ 64 := by omega
      have hnat : (UInt64.ofNat (n + 1)).toNat = n + 1 := by
        rw [UInt64.toNat_ofNat', Nat.mod_eq_of_lt hlt]
      have hstep : afterCalls (opens (n + 1))
          = (afterCalls (opens n)).record (UInt64.ofNat (n + 1)) [0x43, 0x3A] := by
        rw [← observe_openOf _ (Nat.succ_pos n) hlt, opens_succ, afterCalls_snoc, afterCall]
      have hroom : (afterCalls (opens n)).size < maxTrackedHandles := by omega
      have hnew : ¬((afterCalls (opens n)).find (UInt64.ofNat (n + 1))).isSome = true := by
        rw [htracked, hnat]
        omega
      rw [hstep]
      constructor
      · rw [HandlePathTracker.record, if_neg (Nat.not_le.mpr hroom), size_insert,
          if_neg hnew, hsize]
      · intro handle
        rw [HandlePathTracker.find_record hroom]
        by_cases hsame : handle = UInt64.ofNat (n + 1)
        · rw [hsame, Function.update_self, hnat]
          exact ⟨fun _ => ⟨Nat.succ_pos n, Nat.le_refl _⟩, fun _ => rfl⟩
        · rw [Function.update_of_ne hsame, htracked]
          have hne : handle.toNat ≠ n + 1 := fun h =>
            hsame (UInt64.toNat_inj.mp (h.trans hnat.symm))
          omega

/-- **FORGOTTEN**: 65536 handles are open and the first one is opened again; it
    was tracked, and the other 65535 are forgotten. -/
theorem observe_forgets_others :
    (∀ i, isValidReceived.run (openOf (i + 1)).event.byte = true) ∧
      (afterCalls (opens maxTrackedHandles)).size = maxTrackedHandles ∧
      ((afterCalls (opens maxTrackedHandles)).find 1).isSome = true ∧
      ((afterCalls (opens maxTrackedHandles)).find 2).isSome = true ∧
      ((observe (afterCalls (opens maxTrackedHandles))).run
        (openOf 1).event.byte).find 2 = none ∧
      ¬(KeepsOthers (afterCalls (opens maxTrackedHandles)) (openOf 1).event ∨
        Exceeds (afterCalls (opens maxTrackedHandles)) (openOf 1).event) := by
  obtain ⟨hsize, htracked⟩ := afterCalls_opens (Nat.le_refl maxTrackedHandles)
  have hone : ((afterCalls (opens maxTrackedHandles)).find 1).isSome = true :=
    (htracked 1).mpr (by decide)
  have htwo : ((afterCalls (opens maxTrackedHandles)).find 2).isSome = true :=
    (htracked 2).mpr (by decide)
  have hafter : ((observe (afterCalls (opens maxTrackedHandles))).run
      (openOf 1).event.byte).find 2 = none := by
    rw [observe_openOf _ (by decide) (by decide)]
    exact find_record_full (Nat.le_of_eq hsize.symm) (by decide) _
  have hstore : observedHandle.run (openOf 1).event.byte = some 1 := by
    rw [run_observedHandle (wellFormed_openOf 1).represents,
      sourceOf_openOf (by decide) (by decide)]
    rfl
  have hobject : findObjectHandle.run (openOf 1).event.byte = some 1 :=
    (observe_of_some (t := .empty) hstore).1
  refine ⟨fun i => valid_openOf (i + 1), hsize, hone, htwo, hafter, ?_⟩
  rintro (hkeeps | ⟨handle, hhandle, hnone, -⟩)
  · have hkept := hkeeps 2 (by rw [hobject]; decide)
    rw [hafter] at hkept
    rw [← hkept] at htwo
    cases htwo
  · rw [hstore] at hhandle
    rw [← Option.some.inj hhandle] at hnone
    rw [hnone] at hone
    cases hone

end ScopeLimit
