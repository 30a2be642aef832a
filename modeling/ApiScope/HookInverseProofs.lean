import ApiScope.HookOutcomeProofs
import ApiScope.TransitionProofs
import ApiScope.OverlayProofs
import ApiScope.MachineProofs

/-! # Install and remove — exact inverses on memory

    Any number of successful calls of `HookFunction` and `UnhookFunction`, in
    any order.  A hook lays its jump over the code and a record of what is
    below; removing it stores that again.  Since the covered spans are apart,
    the code is at any time the original code with the jumps of the installed
    hooks laid over it (`overlay`), in whatever order they came and went.

    What the jumps do is a matter of the processor: `absoluteJump` is a push,
    a mov and a ret (`absoluteJump_encode`), and `run_pushMovRet` says that
    these go to any 64-bit address and change no register. -/

namespace ScopeInverse

open ScopeBytes ScopeProtocol ScopeHook ScopeOutcome ScopeTransition ScopeOverlay ScopeMachine

/-! ## Runs of calls -/

/-- An installed hook, and the handler that its function jumps to. -/
structure Installed where
  hook : InstalledHook
  handler : Nat

structure HookState where
  target : Target
  installed : List Installed
  /-- Every hook that was removed, the last one first. -/
  removed : List InstalledHook

inductive HookAction where
  | hook (getRemoteExport : Nat → List UInt8 → Option RemoteExport) (calls : HookCalls)
      (originalFunction hookImageBase : Nat) (definition : HookDefinition)
  | unhook (calls : UnhookCalls) (index : Nat)

variable (decodeInstruction64 : List UInt8 → Option DecodedInstruction)

/-- A call that succeeds. -/
def hookStep (s : HookState) : HookAction → Option HookState
  | .hook getRemoteExport calls originalFunction hookImageBase definition =>
      match handlerOf getRemoteExport hookImageBase definition,
          hookFunction getRemoteExport decodeInstruction64 calls originalFunction
            hookImageBase definition s.target with
      | some handler, (some hook, target) =>
          some { s with target, installed := ⟨hook, handler⟩ :: s.installed }
      | _, _ => none
  | .unhook calls index =>
      match s.installed[index]? with
      | none => none
      | some h =>
          match unhookFunction calls h.hook s.target with
          | (true, target) =>
              some ⟨target, s.installed.eraseIdx index, h.hook :: s.removed⟩
          | (false, _) => none

def hookSystem (original : Target) : System HookState HookAction where
  init s := s = ⟨original, [], []⟩
  step := hookStep decodeInstruction64

/-! ## Which calls -/

/-- Where the target has code, and where the hook image has the variables for
    trampolines: two variables do not overlap, and they are not code. -/
structure Layout where
  code : Nat → Prop
  slot : Nat → Prop
  code_lt : ∀ a, code a → a < 2 ^ 64
  slot_apart : ∀ x y, slot x → slot y → x ≠ y → RunsApart x 8 y 8
  slot_data : ∀ x, slot x → ∀ a, x ≤ a → a < x + 8 → ¬code a

/-- The number of bytes that a hook covers. -/
def Installed.size (h : Installed) : Nat := h.hook.originalBytes.length

variable (layout : Layout)

/-- `VirtualAllocEx` returns pages that are not in use. -/
structure NewBlock (getRemoteExport : Nat → List UInt8 → Option RemoteExport)
    (calls : HookCalls) (f hookImageBase : Nat) (definition : HookDefinition) (t : Target) :
    Prop where
  fresh : FreshBlock getRemoteExport calls f hookImageBase definition t
  range : calls.bypass.allocated + trampolineSize ≤ 2 ^ 64
  blocks : ∀ b ∈ t.blocks, RunsApart b.base b.size calls.bypass.allocated trampolineSize
  code : ∀ a, calls.bypass.allocated ≤ a → a < calls.bypass.allocated + trampolineSize →
    ¬layout.code a
  slots : ∀ x, layout.slot x → RunsApart x 8 calls.bypass.allocated trampolineSize

/-- The calls of a run: functions in the code whose covered spans are apart,
    and variables of the image that no installed hook uses. -/
def Admits (s : HookState) : HookAction → Prop
  | .hook getRemoteExport calls f hookImageBase definition =>
      NewBlock layout getRemoteExport calls f hookImageBase definition s.target ∧
      (∀ a, f ≤ a → a < f + sizeOf decodeInstruction64 calls f s.target → layout.code a) ∧
      (∀ h ∈ s.installed, RunsApart f (sizeOf decodeInstruction64 calls f s.target)
        h.hook.originalFunction h.size) ∧
      ∀ slot, slotOf getRemoteExport hookImageBase definition = some slot →
        layout.slot slot ∧ ∀ h ∈ s.installed, h.hook.trampolineSlot ≠ slot
  | .unhook _ _ => True

/-! ## What holds at every point -/

/-- What an installed hook lays over the code. -/
def Installed.jump (h : Installed) : Run :=
  ⟨h.hook.originalFunction, patchBytes h.handler h.size⟩

/-- An installed hook: its record, its variable and its trampoline. -/
structure Live (original t : Target) (h : Installed) : Prop where
  complete : Complete h.hook
  size : patchSize ≤ h.size ∧ h.size ≤ 32
  code : ∀ a, h.hook.originalFunction ≤ a → a < h.hook.originalFunction + h.size →
    layout.code a
  saved : h.hook.originalBytes
    = slice original.memory h.hook.originalFunction h.size
  isSlot : layout.slot h.hook.trampolineSlot
  slot : t.pointer h.hook.trampolineSlot = h.hook.trampolineAddress
  range : h.hook.trampolineAddress + trampolineSize ≤ 2 ^ 64
  blockNew : ∀ b ∈ original.blocks, b.base ≠ h.hook.trampolineAddress
  blockCode : ∀ a, h.hook.trampolineAddress ≤ a →
    a < h.hook.trampolineAddress + trampolineSize → ¬layout.code a
  blockSlots : ∀ x, layout.slot x →
    RunsApart x 8 h.hook.trampolineAddress trampolineSize
  trampoline : slice t.memory h.hook.trampolineAddress (h.size + patchSize)
    = h.hook.originalBytes ++ absoluteJump (h.hook.originalFunction + h.size)

/-- Two installed hooks do not share anything. -/
structure Apart (g h : Installed) : Prop where
  spans : RunsApart g.hook.originalFunction g.size h.hook.originalFunction h.size
  slots : g.hook.trampolineSlot ≠ h.hook.trampolineSlot
  trampolines : RunsApart g.hook.trampolineAddress trampolineSize h.hook.trampolineAddress
    trampolineSize

/-- A removed hook: its variable is null, unless another hook uses it now. -/
structure Gone (original : Target) (s : HookState) (r : InstalledHook) : Prop where
  isSlot : layout.slot r.trampolineSlot
  blockNew : ∀ b ∈ original.blocks, b.base ≠ r.trampolineAddress
  slot : (∀ h ∈ s.installed, h.hook.trampolineSlot ≠ r.trampolineSlot) →
    s.target.pointer r.trampolineSlot = 0

/-- The block of an installed hook's trampoline. -/
def Installed.block (h : Installed) : Block := ⟨h.hook.trampolineAddress, trampolineSize⟩

/-- **THE INVARIANT** of install and remove. -/
structure Exact (original : Target) (s : HookState) : Prop where
  live : ∀ h ∈ s.installed, Live layout original s.target h
  apart : s.installed.Pairwise Apart
  code : ∀ a, layout.code a →
    s.target.memory a = overlay original.memory (s.installed.map Installed.jump) a
  blocks : ∀ b, b ∈ s.target.blocks ↔
    b ∈ original.blocks ∨ b ∈ s.installed.map Installed.block
  removed : ∀ r ∈ s.removed, Gone layout original s r

variable {decodeInstruction64 layout}

/-! ## Successful calls -/

/-- A trampoline that was returned was made. -/
theorem trampolineMade_of_some {calls : HookCalls} {f : Nat} {t : Target}
    {trampoline : RemoteTrampoline}
    (h : (createBypassTrampoline decodeInstruction64 calls.bypass f t).1 = some trampoline) :
    TrampolineMade decodeInstruction64 calls f t := by
  rw [createBypassTrampoline] at h
  split at h
  next => cases h
  next hsize =>
    split at h
    next => cases h
    next halloc =>
      dsimp only at h
      split at h
      next hok =>
        rw [createTrampoline] at hok
        split at hok
        next => cases hok
        next hread =>
          obtain ⟨hwp, hflush⟩ := Bool.and_eq_true_iff.mp hok
          obtain ⟨hwrite, hprotect⟩ := Bool.and_eq_true_iff.mp hwp
          exact ⟨hsize, halloc, Bool.not_eq_false _ ▸ hread, hwrite, hprotect, hflush⟩
      next => cases h

/-- A jump that was written and kept. -/
theorem patchFunction_calls {calls : PatchCalls} {f a size : Nat} {t : Target}
    (h : (patchFunction calls f a size t).1 = true) :
    calls.protect = true ∧ calls.write = true ∧ calls.reprotect = true ∧
      calls.flush = true := by
  rw [patchFunction] at h
  split at h
  next => cases h
  next hprotect =>
    obtain ⟨hwr, hflush⟩ := Bool.and_eq_true_iff.mp h
    obtain ⟨hwrite, hreprotect⟩ := Bool.and_eq_true_iff.mp hwr
    exact ⟨Bool.not_eq_false _ ▸ hprotect, hwrite, hreprotect, hflush⟩

/-- **A SUCCESSFUL `HookFunction`** made every one of its calls. -/
theorem hookFunction_success
    {getRemoteExport : Nat → List UInt8 → Option RemoteExport} {calls : HookCalls}
    {f hookImageBase : Nat} {definition : HookDefinition} {t t' : Target}
    {hook : InstalledHook}
    (h : hookFunction getRemoteExport decodeInstruction64 calls f hookImageBase definition t
      = (some hook, t')) :
    ∃ handler slot, handlerOf getRemoteExport hookImageBase definition = some handler ∧
      slotOf getRemoteExport hookImageBase definition = some slot ∧
      TrampolineMade decodeInstruction64 calls f t ∧
      hook = recordOf calls f (sizeOf decodeInstruction64 calls f t) slot definition t ∧
      t' = jumped calls f (sizeOf decodeInstruction64 calls f t) slot handler t := by
  have hwritten : ∃ handler slot,
      handlerOf getRemoteExport hookImageBase definition = some handler ∧
      slotOf getRemoteExport hookImageBase definition = some slot ∧
      PatchWritten decodeInstruction64 calls f t ∧
      calls.patch.reprotect = true ∧ calls.patch.flush = true := by
    rw [hookFunction] at h
    split at h
    next => cases h
    next hf =>
      split at h
      next => cases h
      next handler hhandler =>
        split at h
        next => cases h
        next slot hslot =>
          dsimp only at h
          split at h
          next => cases h
          next trampoline hcreated =>
            split at h
            next => cases h
            next hpreserve =>
              split at h
              next => cases h
              next hwriteSlot =>
                split at h
                next hpatched =>
                  obtain ⟨hp, hw, hr, hfl⟩ := patchFunction_calls hpatched
                  exact ⟨handler, slot, hhandler, hslot,
                    ⟨hf, trampolineMade_of_some hcreated, Bool.not_eq_false _ ▸ hpreserve,
                      Bool.not_eq_false _ ▸ hwriteSlot, hp, hw⟩, hr, hfl⟩
                next => cases h
  obtain ⟨handler, slot, hhandler, hslot, hw, hrest⟩ := hwritten
  rw [hookFunction_written hhandler hslot hw, if_pos hrest] at h
  obtain ⟨hhook, ht⟩ := Prod.mk.inj h
  exact ⟨handler, slot, hhandler, hslot, hw.trampoline, (Option.some.inj hhook).symm, ht.symm⟩

/-- **A SUCCESSFUL `UnhookFunction`** stores the saved bytes, clears the
    variable and frees the trampoline. -/
theorem unhookFunction_success {calls : UnhookCalls} {hook : InstalledHook} {t t' : Target}
    (h : unhookFunction calls hook t = (true, t')) :
    t'.memory = store (store t.memory hook.originalFunction hook.originalBytes)
        hook.trampolineSlot (pointerBytes 0) ∧
      t'.blocks = t.blocks.filter fun b => b.base ≠ hook.trampolineAddress := by
  rw [unhookFunction] at h
  split at h
  next => cases h
  next =>
    split at h
    next => cases h
    next =>
      dsimp only at h
      split at h
      next => cases h
      next hcalls =>
        split at h
        next => cases h
        next =>
          have hrestore : calls.restore = true :=
            Bool.not_eq_false _ ▸ fun hr => hcalls (Or.inl hr)
          obtain ⟨hfree, rfl⟩ := Prod.mk.inj h
          rw [hrestore, hfree]
          exact ⟨rfl, rfl⟩

/-! ## What is apart -/

/-- Two runs that a predicate tells apart. -/
theorem runsApart_of_split {p : Nat → Prop} {off n a m : Nat} (hn : 0 < n) (hm : 0 < m)
    (h : ∀ i, off ≤ i → i < off + n → p i) (h' : ∀ i, a ≤ i → i < a + m → ¬p i) :
    RunsApart off n a m := by
  by_contra hshare
  rw [RunsApart, not_or] at hshare
  -- the later of the two starts is in both
  have hmax := h' (max off a) (Nat.le_max_right _ _) (by omega)
  exact hmax (h (max off a) (Nat.le_max_left _ _) (by omega))

theorem RunsApart.shorter {off n n' a m : Nat} (h : RunsApart off n a m) (hle : n' ≤ n) :
    RunsApart off n' a m := by
  rcases h with h | h
  · exact Or.inl (by omega)
  · exact Or.inr h

theorem Apart.symm {g h : Installed} (hapart : Apart g h) : Apart h g :=
  ⟨hapart.spans.symm, hapart.slots.symm, hapart.trampolines.symm⟩

section LiveHook

variable {original t t' : Target} {g h : Installed}

theorem Live.size_pos (hlive : Live layout original t h) : 0 < h.size :=
  Nat.lt_of_lt_of_le (by decide) hlive.size.1

theorem Live.jump_length (hlive : Live layout original t h) :
    h.jump.bytes.length = h.size :=
  patchBytes_length hlive.size.1

theorem Live.covers_iff (hlive : Live layout original t h) {a : Nat} :
    h.jump.Covers a ↔
      h.hook.originalFunction ≤ a ∧ a < h.hook.originalFunction + h.size := by
  rw [Run.Covers, hlive.jump_length]
  exact Iff.rfl

/-- A trampoline variable is not in the covered bytes. -/
theorem Live.slot_span (hlive : Live layout original t h) {x : Nat} (hx : layout.slot x) :
    RunsApart x 8 h.hook.originalFunction h.size :=
  (runsApart_of_split hlive.size_pos (by decide) hlive.code (layout.slot_data x hx)).symm

/-- Nor is the code of a trampoline. -/
theorem Live.code_in_block (hlive : Live layout original t h) :
    h.size + patchSize ≤ trampolineSize := by
  have h32 := hlive.size.2
  rw [patchSize, trampolineSize]
  omega

/-- A live hook stays one as long as its variable and its trampoline stay. -/
theorem Live.kept (hlive : Live layout original t h)
    (hslot : t'.pointer h.hook.trampolineSlot = t.pointer h.hook.trampolineSlot)
    (htrampoline : slice t'.memory h.hook.trampolineAddress (h.size + patchSize)
      = slice t.memory h.hook.trampolineAddress (h.size + patchSize)) :
    Live layout original t' h :=
  { hlive with
    slot := hslot.trans hlive.slot
    trampoline := htrampoline.trans hlive.trampoline }

end LiveHook

/-- The jumps of the installed hooks are disjoint runs. -/
theorem Exact.disjoint {original : Target} {s : HookState} (hs : Exact layout original s) :
    (s.installed.map Installed.jump).Pairwise Run.Disjoint := by
  refine List.pairwise_map.mpr (hs.apart.imp_of_mem fun {g h} hg hh hapart a ha ha' => ?_)
  have hga := (hs.live g hg).covers_iff.mp ha
  have hha := (hs.live h hh).covers_iff.mp ha'
  rcases hapart.spans with hspans | hspans
  · omega
  · omega

/-- The order in which the hooks were installed does not matter. -/
theorem Exact.perm {original t : Target} {l l' : List Installed} {removed : List InstalledHook}
    (hs : Exact layout original ⟨t, l, removed⟩) (hperm : l.Perm l') :
    Exact layout original ⟨t, l', removed⟩ where
  live h hh := hs.live h (hperm.mem_iff.mpr hh)
  apart := hs.apart.perm hperm Apart.symm
  code a ha := by
    rw [← overlay_perm hs.disjoint (hperm.map Installed.jump)]
    exact hs.code a ha
  blocks b := by
    rw [← (hperm.map Installed.block).mem_iff]
    exact hs.blocks b
  removed r hr :=
    { hs.removed r hr with
      slot := fun hfree => (hs.removed r hr).slot fun h hh => hfree h (hperm.mem_iff.mp hh) }

/-! ## Removing a hook -/

section Remove

variable {original t t' : Target} {h : Installed} {rest : List Installed}
  {removed : List InstalledHook}

/-- What a removal stores: the saved bytes, and null. -/
def Restored (h : Installed) (t t' : Target) : Prop :=
  t'.memory = store (store t.memory h.hook.originalFunction h.hook.originalBytes)
    h.hook.trampolineSlot (pointerBytes 0)

theorem Restored.slice_eq (hrestored : Restored h t t') {off n : Nat}
    (hspan : RunsApart off n h.hook.originalFunction h.size)
    (hslot : RunsApart off n h.hook.trampolineSlot 8) :
    slice t'.memory off n = slice t.memory off n := by
  rw [hrestored, slice_store_disjoint (by rwa [pointerBytes_length])]
  exact slice_store_disjoint hspan

/-- The variables of the other hooks stay. -/
theorem Restored.pointer_eq (hrestored : Restored h t t') (hlive : Live layout original t h)
    {x : Nat} (hx : layout.slot x) (hne : x ≠ h.hook.trampolineSlot) :
    t'.pointer x = t.pointer x :=
  congrArg leNat (hrestored.slice_eq (hlive.slot_span hx)
    (layout.slot_apart x _ hx hlive.isSlot hne))

/-- The variable of the removed hook is null. -/
theorem Restored.pointer_zero (hrestored : Restored h t t') :
    t'.pointer h.hook.trampolineSlot = 0 := by
  have hself := slice_store_self
    (store t.memory h.hook.originalFunction h.hook.originalBytes) h.hook.trampolineSlot
    (pointerBytes 0)
  rw [pointerBytes_length] at hself
  rw [Target.pointer, hrestored, hself]
  rfl

/-- A code address after a removal. -/
theorem Restored.code_eq (hrestored : Restored h t t') (hlive : Live layout original t h)
    {a : Nat} (ha : layout.code a) :
    t'.memory a = store t.memory h.hook.originalFunction h.hook.originalBytes a := by
  rw [hrestored]
  refine store_outside ?_
  rw [pointerBytes_length]
  by_contra hin
  exact layout.slot_data _ hlive.isSlot a (by omega) (by omega) ha

/-- **REMOVING** a hook leaves the others exact. -/
theorem Exact.remove (hs : Exact layout original ⟨t, h :: rest, removed⟩)
    (hrestored : Restored h t t')
    (hblocks : t'.blocks = t.blocks.filter fun b => b.base ≠ h.hook.trampolineAddress) :
    Exact layout original ⟨t', rest, h.hook :: removed⟩ := by
  have hlive : Live layout original t h := hs.live h List.mem_cons_self
  obtain ⟨hapart, hrest⟩ := List.pairwise_cons.mp hs.apart
  refine ⟨fun g hg => ?_, hrest, fun a ha => ?_, fun b => ?_, fun r hr => ?_⟩
  · have hg' : Live layout original t g := hs.live g (List.mem_cons_of_mem h hg)
    refine hg'.kept (hrestored.pointer_eq hlive hg'.isSlot (hapart g hg).slots.symm)
      (hrestored.slice_eq ?_ ?_)
    · -- the trampoline of `g` is not code
      refine RunsApart.shorter (n := trampolineSize) ?_ hg'.code_in_block
      exact (runsApart_of_split hlive.size_pos (by decide) hlive.code hg'.blockCode).symm
    · exact RunsApart.shorter (hg'.blockSlots _ hlive.isSlot).symm hg'.code_in_block
  · rw [hrestored.code_eq hlive ha]
    have hbelow : store (overlay original.memory ((h :: rest).map Installed.jump))
        h.jump.off (slice original.memory h.jump.off h.jump.bytes.length) a
        = overlay original.memory (rest.map Installed.jump) a :=
      congrFun (overlay_restore hs.disjoint) a
    rw [hlive.jump_length] at hbelow
    rw [← hbelow, hlive.saved]
    have hlength : (slice original.memory h.hook.originalFunction h.size).length = h.size :=
      slice_length _ _ _
    by_cases hin : h.hook.originalFunction ≤ a ∧ a < h.hook.originalFunction + h.size
    · rw [store_inside hin.1 (by rw [hlength]; exact hin.2)]
      exact (store_inside hin.1 (by rw [slice_length]; exact hin.2)).symm
    · have hout : a < h.hook.originalFunction ∨ h.hook.originalFunction + h.size ≤ a := by
        omega
      rw [store_outside (by rwa [hlength]), hs.code a ha]
      exact (store_outside (by rw [slice_length]; exact hout)).symm
  · rw [hblocks, List.mem_filter, hs.blocks b, List.map_cons, List.mem_cons,
      decide_eq_true_iff]
    constructor
    · rintro ⟨hb | rfl | hb, hne⟩
      · exact Or.inl hb
      · exact absurd rfl hne
      · exact Or.inr hb
    · rintro (hb | hb)
      · exact ⟨Or.inl hb, hlive.blockNew b hb⟩
      · refine ⟨Or.inr (Or.inr hb), ?_⟩
        obtain ⟨g, hg, rfl⟩ := List.mem_map.mp hb
        intro heq
        -- two live trampolines do not start at one address
        have htrampolines := (hapart g hg).trampolines
        rw [RunsApart, trampolineSize] at htrampolines
        have heq' : g.hook.trampolineAddress = h.hook.trampolineAddress := heq
        omega
  · rcases List.mem_cons.mp hr with rfl | hr
    · exact ⟨hlive.isSlot, hlive.blockNew, fun _ => hrestored.pointer_zero⟩
    · have hgone := hs.removed r hr
      refine ⟨hgone.isSlot, hgone.blockNew, fun hfree => ?_⟩
      by_cases hslot : r.trampolineSlot = h.hook.trampolineSlot
      · show t'.pointer r.trampolineSlot = 0
        rw [hslot]
        exact hrestored.pointer_zero
      · refine (hrestored.pointer_eq hlive hgone.isSlot hslot).trans (hgone.slot ?_)
        intro g hg
        rcases List.mem_cons.mp hg with rfl | hg
        · exact fun heq => hslot heq.symm
        · exact hfree g hg

end Remove

/-! ## Installing a hook -/

section Install

variable {getRemoteExport : Nat → List UInt8 → Option RemoteExport} {calls : HookCalls}
  {f hookImageBase handler slot : Nat} {definition : HookDefinition} {original t t' : Target}
  {installed : List Installed} {removed : List InstalledHook}

/-- What an admitted call works on. -/
structure Installs (layout : Layout)
    (decodeInstruction64 : List UInt8 → Option DecodedInstruction)
    (getRemoteExport : Nat → List UInt8 → Option RemoteExport) (calls : HookCalls)
    (f hookImageBase : Nat) (definition : HookDefinition) (slot : Nat) (t : Target) :
    Prop where
  decode : DecodesWithin decodeInstruction64
  made : TrampolineMade decodeInstruction64 calls f t
  block : NewBlock layout getRemoteExport calls f hookImageBase definition t
  code : ∀ a, f ≤ a → a < f + sizeOf decodeInstruction64 calls f t → layout.code a
  slotOf : slotOf getRemoteExport hookImageBase definition = some slot
  isSlot : layout.slot slot

/-- The record of the call, and its handler. -/
def installedOf (decodeInstruction64 : List UInt8 → Option DecodedInstruction)
    (calls : HookCalls) (f slot handler : Nat) (definition : HookDefinition) (t : Target) :
    Installed :=
  ⟨recordOf calls f (sizeOf decodeInstruction64 calls f t) slot definition t, handler⟩

variable (hi : Installs layout decodeInstruction64 getRemoteExport calls f hookImageBase
  definition slot t)

include hi

theorem Installs.size_pos : 0 < sizeOf decodeInstruction64 calls f t :=
  Nat.lt_of_lt_of_le (by decide) (sizeOf_ge hi.made)

theorem Installs.slot_span {x : Nat} (hx : layout.slot x) :
    RunsApart x 8 f (sizeOf decodeInstruction64 calls f t) :=
  (runsApart_of_split hi.size_pos (by decide) hi.code (layout.slot_data x hx)).symm

/-- The bytes that the record has saved. -/
theorem Installs.saved :
    (installedOf decodeInstruction64 calls f slot handler definition t).hook.originalBytes
      = slice t.memory f (sizeOf decodeInstruction64 calls f t) :=
  (withTrampoline_kept (sizeOf_le hi.decode)).slice_eq
    (covered_apart hi.decode hi.block.fresh)

theorem Installs.size_eq :
    (installedOf decodeInstruction64 calls f slot handler definition t).size
      = sizeOf decodeInstruction64 calls f t := by
  rw [Installed.size, hi.saved, slice_length]

/-- The call writes to the new block, to the variable and to the covered
    bytes only. -/
theorem Installs.slice_eq {off n : Nat}
    (hblock : RunsApart off n calls.bypass.allocated trampolineSize)
    (hslot : RunsApart off n slot 8)
    (hspan : RunsApart off n f (sizeOf decodeInstruction64 calls f t)) :
    slice (jumped calls f (sizeOf decodeInstruction64 calls f t) slot handler t).memory off n
      = slice t.memory off n := by
  calc slice (jumped calls f (sizeOf decodeInstruction64 calls f t) slot handler t).memory off n
      = slice (slotSet calls f (sizeOf decodeInstruction64 calls f t) slot t).memory off n := by
        refine slice_store_disjoint ?_
        rwa [patchBytes_sizeOf hi.made]
    _ = slice (withTrampoline calls f (sizeOf decodeInstruction64 calls f t) t).memory
          off n := by
        refine slice_store_disjoint ?_
        rwa [pointerBytes_length]
    _ = slice t.memory off n := (withTrampoline_kept (sizeOf_le hi.decode)).slice_eq hblock

/-- The other variables stay. -/
theorem Installs.pointer_eq {x : Nat} (hx : layout.slot x) (hne : x ≠ slot) :
    (jumped calls f (sizeOf decodeInstruction64 calls f t) slot handler t).pointer x
      = t.pointer x :=
  congrArg leNat (hi.slice_eq (hi.block.slots x hx)
    (layout.slot_apart x slot hx hi.isSlot hne) (hi.slot_span hx))

/-- A code address after the call. -/
theorem Installs.code_eq {a : Nat} (ha : layout.code a) :
    (jumped calls f (sizeOf decodeInstruction64 calls f t) slot handler t).memory a
      = store t.memory f (patchBytes handler (sizeOf decodeInstruction64 calls f t)) a := by
  have hbelow : (slotSet calls f (sizeOf decodeInstruction64 calls f t) slot t).memory a
      = t.memory a := by
    have hslot : (slotSet calls f (sizeOf decodeInstruction64 calls f t) slot t).memory a
        = (withTrampoline calls f (sizeOf decodeInstruction64 calls f t) t).memory a := by
      refine store_outside ?_
      rw [pointerBytes_length]
      by_contra hin
      exact layout.slot_data slot hi.isSlot a (by omega) (by omega) ha
    rw [hslot]
    exact withTrampoline_kept (sizeOf_le hi.decode) a fun hin =>
      hi.block.code a hin.1 hin.2 ha
  show store _ f _ a = store _ f _ a
  rw [store, store, hbelow]

/-- The jump does not cover the variable. -/
theorem Installs.survives :
    SlotSurvives calls f slot
      (patchBytes handler (sizeOf decodeInstruction64 calls f t)) := by
  intro a h1 h2 h3 h4
  rw [patchBytes_sizeOf hi.made] at h2
  exact absurd (hi.code a h1 h2) (layout.slot_data slot hi.isSlot a h3 h4)

/-- The covered bytes show the original code: no other hook covers them. -/
theorem Installs.below (hs : Exact layout original ⟨t, installed, removed⟩)
    (hspans : ∀ h ∈ installed, RunsApart f (sizeOf decodeInstruction64 calls f t)
      h.hook.originalFunction h.size) :
    slice t.memory f (sizeOf decodeInstruction64 calls f t)
      = slice original.memory f (sizeOf decodeInstruction64 calls f t) := by
  refine slice_congr fun a h1 h2 => ?_
  refine (hs.code a (hi.code a h1 h2)).trans (overlay_uncovered fun r hr hcovers => ?_)
  obtain ⟨h, hh, rfl⟩ := List.mem_map.mp hr
  have hin := (hs.live h hh).covers_iff.mp hcovers
  rcases hspans h hh with hapart | hapart
  · omega
  · omega

/-- **THE NEW HOOK** is live. -/
theorem Installs.live (hs : Exact layout original ⟨t, installed, removed⟩)
    (hspans : ∀ h ∈ installed, RunsApart f (sizeOf decodeInstruction64 calls f t)
      h.hook.originalFunction h.size)
    (hcomplete : Complete
      (installedOf decodeInstruction64 calls f slot handler definition t).hook) :
    Live layout original
      (jumped calls f (sizeOf decodeInstruction64 calls f t) slot handler t)
      (installedOf decodeInstruction64 calls f slot handler definition t) where
  complete := hcomplete
  size := hi.size_eq ▸ ⟨sizeOf_ge hi.made, sizeOf_le hi.decode⟩
  code := hi.size_eq ▸ hi.code
  saved := by
    rw [hi.size_eq, hi.saved]
    exact hi.below hs hspans
  isSlot := hi.isSlot
  slot := (jumped_slot_iff hi.block.fresh.range).mpr hi.survives
  range := hi.block.range
  blockNew b hb := hi.block.fresh.block b ((hs.blocks b).mpr (Or.inl hb))
  blockCode := hi.block.code
  blockSlots := hi.block.slots
  trampoline := by
    rw [hi.size_eq, hi.saved]
    exact jumped_trampoline hi.decode hi.block.fresh hi.slotOf hi.made

/-- **INSTALLING** a hook keeps the others exact. -/
theorem Exact.install (hs : Exact layout original ⟨t, installed, removed⟩)
    (hspans : ∀ h ∈ installed, RunsApart f (sizeOf decodeInstruction64 calls f t)
      h.hook.originalFunction h.size)
    (hslots : ∀ h ∈ installed, h.hook.trampolineSlot ≠ slot)
    (hcomplete : Complete
      (installedOf decodeInstruction64 calls f slot handler definition t).hook) :
    Exact layout original
      ⟨jumped calls f (sizeOf decodeInstruction64 calls f t) slot handler t,
        installedOf decodeInstruction64 calls f slot handler definition t :: installed,
        removed⟩ := by
  have hblocks : ∀ g ∈ installed, RunsApart g.hook.trampolineAddress trampolineSize
      calls.bypass.allocated trampolineSize := fun g hg =>
    hi.block.blocks g.block ((hs.blocks g.block).mpr (Or.inr (List.mem_map_of_mem hg)))
  refine ⟨fun g hg => ?_, List.pairwise_cons.mpr ⟨fun g hg => ?_, hs.apart⟩, fun a ha => ?_,
    fun b => ?_, fun r hr => ?_⟩
  · rcases List.mem_cons.mp hg with rfl | hg
    · exact hi.live hs hspans hcomplete
    · have hlive : Live layout original t g := hs.live g hg
      refine hlive.kept (hi.pointer_eq hlive.isSlot (hslots g hg)) (hi.slice_eq ?_ ?_ ?_)
      · exact RunsApart.shorter (hblocks g hg) hlive.code_in_block
      · exact RunsApart.shorter (hlive.blockSlots slot hi.isSlot).symm hlive.code_in_block
      · refine RunsApart.shorter (n := trampolineSize) ?_ hlive.code_in_block
        exact (runsApart_of_split hi.size_pos (by decide) hi.code hlive.blockCode).symm
  · refine ⟨?_, (hslots g hg).symm, (hblocks g hg).symm⟩
    rw [hi.size_eq]
    exact hspans g hg
  · rw [List.map_cons, overlay, Installed.jump, hi.size_eq]
    refine (hi.code_eq ha).trans ?_
    show store _ f _ a = store _ f _ a
    rw [store, store]
    exact if_congr Iff.rfl rfl (hs.code a ha)
  · show b ∈ (slotSet calls f (sizeOf decodeInstruction64 calls f t) slot t).blocks ↔ _
    rw [slotSet_blocks, List.mem_cons, hs.blocks b, List.map_cons, List.mem_cons]
    exact or_left_comm
  · have hgone := hs.removed r hr
    refine ⟨hgone.isSlot, hgone.blockNew, fun hfree => ?_⟩
    refine (hi.pointer_eq hgone.isSlot ?_).trans
      (hgone.slot fun g hg => hfree g (List.mem_cons_of_mem _ hg))
    exact (hfree _ List.mem_cons_self).symm

end Install

/-! ## Runs -/

/-- **STEP**: every admitted call keeps the invariant. -/
theorem exact_step {original : Target} {s s' : HookState} {action : HookAction}
    (hdecode : DecodesWithin decodeInstruction64) (hs : Exact layout original s)
    (hadmits : Admits decodeInstruction64 layout s action)
    (h : hookStep decodeInstruction64 s action = some s') : Exact layout original s' := by
  cases action with
  | hook getRemoteExport calls f hookImageBase definition =>
      obtain ⟨hblock, hcode, hspans, hvariable⟩ := hadmits
      rw [hookStep] at h
      split at h
      next handler hook t' hhandler hcall =>
        cases Option.some.inj h
        obtain ⟨handler', slot, hhandler', hslot, hmade, rfl, rfl⟩ := hookFunction_success hcall
        rw [hhandler] at hhandler'
        cases Option.some.inj hhandler'
        obtain ⟨hisSlot, hslots⟩ := hvariable slot hslot
        have hi : Installs layout decodeInstruction64 getRemoteExport calls f hookImageBase
            definition slot s.target := ⟨hdecode, hmade, hblock, hcode, hslot, hisSlot⟩
        obtain ⟨hhooked, -⟩ := hookFunction_some hcall
        refine Exact.install hi hs hspans hslots
          ⟨hhooked.nonnull.1, hhooked.nonnull.2.1, hhooked.nonnull.2.2, fun hnil => ?_⟩
        have hcovers := hhooked.covers
        have hnil' : (recordOf calls f (sizeOf decodeInstruction64 calls f s.target) slot
          definition s.target).originalBytes = [] := hnil
        rw [hnil'] at hcovers
        exact absurd hcovers (by decide)
      next => cases h
  | unhook calls index =>
      rw [hookStep] at h
      split at h
      next => cases h
      next h' hget =>
        split at h
        next t' hcall =>
          cases Option.some.inj h
          obtain ⟨hmemory, hblocks⟩ := unhookFunction_success hcall
          obtain ⟨hlt, rfl⟩ := List.getElem?_eq_some_iff.mp hget
          have hperm := (List.getElem_cons_eraseIdx_perm hlt).symm
          exact (hs.perm hperm).remove hmemory hblocks
        next => cases h

/-- Nothing is installed at the start. -/
theorem exact_init (original : Target) : Exact layout original ⟨original, [], []⟩ where
  live h hh := nomatch hh
  apart := .nil
  code a _ := rfl
  blocks b := by
    rw [List.map_nil]
    exact ⟨Or.inl, fun h => h.resolve_right (fun hb => nomatch hb)⟩
  removed r hr := nomatch hr

theorem exact_reachable {original : Target} {s : HookState}
    (hdecode : DecodesWithin decodeInstruction64)
    (h : ReachableIf (hookSystem decodeInstruction64 original)
      (Admits decodeInstruction64 layout) s) : Exact layout original s :=
  h.invariant (fun _ hs => hs ▸ exact_init original)
    fun _ _ _ hs hadmits hstep => exact_step hdecode hs hadmits hstep

/-! ## Where the jumps go -/

/-- The code at 64-bit addresses. -/
def codeOf (t : Target) : BitVec 64 → UInt8 := fun a => t.memory a.toNat

/-- Control goes from one address to another in three instructions: every
    register is as before, and so is the memory but for the 8 bytes below the
    stack. -/
def Transfers (code : BitVec 64 → UInt8) (source target : BitVec 64) : Prop :=
  ∀ c : Cpu, c.rip = source → run code 3 c = some { c with
    rip := target
    memory := storeAt c.memory (c.regs rsp - 8) (leBytes 8 target.toNat) }

/-- The stub is a push, a mov and a ret. -/
theorem absoluteJump_encode (address : Nat) :
    absoluteJump address
      = encodeBlock [.pushImm ((BitVec.ofNat 64 address).setWidth 32),
          .movStackImm 4 ((BitVec.ofNat 64 address >>> 32).setWidth 32)]
        ++ Instr.encode .ret := by
  have hlow : leBytes 4 address = leBytes 4 ((BitVec.ofNat 64 address).setWidth 32).toNat := by
    refine leBytes_congr ?_
    rw [BitVec.toNat_setWidth, BitVec.toNat_ofNat]
    omega
  have hhigh : leBytes 4 (address / 2 ^ 32)
      = leBytes 4 ((BitVec.ofNat 64 address >>> 32).setWidth 32).toNat := by
    refine leBytes_congr ?_
    rw [BitVec.toNat_setWidth, BitVec.toNat_ushiftRight, BitVec.toNat_ofNat,
      Nat.shiftRight_eq_div_pow]
    omega
  rw [absoluteJump, hlow, hhigh]
  simp [encodeBlock, Instr.encode]

/-- **THE STUB** goes to its address, wherever it stands. -/
theorem absoluteJump_transfers {code : BitVec 64 → UInt8} {source : BitVec 64} {address : Nat}
    (h : HoldsAt code source (absoluteJump address)) :
    Transfers code source (BitVec.ofNat 64 address) := by
  rintro c rfl
  rw [absoluteJump_encode] at h
  exact run_pushMovRet h

/-- Bytes of the target that do not reach over the end of its addresses. -/
theorem holdsAt_codeOf {t : Target} {a : Nat} {bytes : List UInt8}
    (h : slice t.memory a bytes.length = bytes) (hend : a + bytes.length ≤ 2 ^ 64) :
    HoldsAt (codeOf t) (BitVec.ofNat 64 a) bytes := by
  refine Eq.trans (List.map_congr_left fun i hi => ?_) h
  have hlt : i < bytes.length := List.mem_range.mp hi
  rw [codeOf, ← BitVec.ofNat_add, BitVec.toNat_ofNat, Nat.mod_eq_of_lt (by omega)]

theorem slice_front {mem : Memory} {off n : Nat} {front rear : List UInt8}
    (h : slice mem off n = front ++ rear) :
    slice mem off front.length = front ∧
      slice mem (off + front.length) rear.length = rear := by
  have hn : n = front.length + rear.length := by
    rw [← List.length_append, ← h, slice_length]
  rw [hn, slice_add] at h
  exact List.append_inj h (slice_length _ _ _)

/-! ## Install and remove -/

/-- An installed hook in the target: the function jumps to the handler, the
    variable holds the trampoline, and this goes on behind what was covered. -/
structure InPlace (original t : Target) (h : Installed) : Prop where
  entry : slice t.memory h.hook.originalFunction h.size
    = absoluteJump h.handler ++ List.replicate (h.size - patchSize) 0x90
  slot : t.pointer h.hook.trampolineSlot = h.hook.trampolineAddress
  block : h.block ∈ t.blocks
  trampoline : slice t.memory h.hook.trampolineAddress (h.size + patchSize)
    = slice original.memory h.hook.originalFunction h.size
      ++ absoluteJump (h.hook.originalFunction + h.size)
  toHandler : Transfers (codeOf t) (BitVec.ofNat 64 h.hook.originalFunction)
    (BitVec.ofNat 64 h.handler)
  back : Transfers (codeOf t) (BitVec.ofNat 64 (h.hook.trampolineAddress + h.size))
    (BitVec.ofNat 64 (h.hook.originalFunction + h.size))

/-- A removed hook: its variable is null and its trampoline is freed, as far
    as no hook that was installed later uses them. -/
structure TakenOut (s : HookState) (r : InstalledHook) : Prop where
  slot : (∀ h ∈ s.installed, h.hook.trampolineSlot ≠ r.trampolineSlot) →
    s.target.pointer r.trampolineSlot = 0
  block : (∀ h ∈ s.installed, h.hook.trampolineAddress ≠ r.trampolineAddress) →
    ∀ b ∈ s.target.blocks, b.base ≠ r.trampolineAddress

/-- The covered bytes of an installed hook. -/
theorem Exact.entry {original : Target} {s : HookState} (hs : Exact layout original s)
    {h : Installed} (hh : h ∈ s.installed) :
    slice s.target.memory h.hook.originalFunction h.size = patchBytes h.handler h.size := by
  have hlive := hs.live h hh
  have hstored := slice_store_self original.memory h.hook.originalFunction
    (patchBytes h.handler h.size)
  rw [patchBytes_length hlive.size.1] at hstored
  rw [← hstored]
  refine slice_congr fun a h1 h2 => ?_
  have hcovers : h.jump.Covers a := hlive.covers_iff.mpr ⟨h1, h2⟩
  rw [hs.code a (hlive.code a h1 h2),
    overlay_covered hs.disjoint (List.mem_map_of_mem hh) hcovers]
  exact (store_covered hcovers).symm

theorem Exact.inPlace {original : Target} {s : HookState} (hs : Exact layout original s)
    {h : Installed} (hh : h ∈ s.installed) : InPlace original s.target h := by
  have hlive := hs.live h hh
  have hentry := hs.entry hh
  have hend : h.hook.originalFunction + h.size ≤ 2 ^ 64 := by
    have hsize := hlive.size_pos
    have hlast := layout.code_lt _ (hlive.code (h.hook.originalFunction + h.size - 1)
      (by omega) (by omega))
    omega
  have hroom := hlive.code_in_block
  have hrange := hlive.range
  refine ⟨hentry, hlive.slot, ?_, ?_, ?_, ?_⟩
  · exact (hs.blocks h.block).mpr (Or.inr (List.mem_map_of_mem hh))
  · rw [hlive.trampoline, hlive.saved]
  · refine absoluteJump_transfers (holdsAt_codeOf (slice_front hentry).1 ?_)
    rw [absoluteJump_length]
    have hsize := hlive.size.1
    omega
  · have hcode := (slice_front hlive.trampoline).2
    refine absoluteJump_transfers (holdsAt_codeOf hcode ?_)
    rw [absoluteJump_length, Installed.size]
    exact Nat.le_trans (by rw [Nat.add_assoc]; exact Nat.add_le_add_left hroom _) hrange

theorem Exact.takenOut {original : Target} {s : HookState} (hs : Exact layout original s)
    {r : InstalledHook} (hr : r ∈ s.removed) : TakenOut s r := by
  have hgone := hs.removed r hr
  refine ⟨hgone.slot, fun hfree b hb => ?_⟩
  rcases (hs.blocks b).mp hb with hb | hb
  · exact hgone.blockNew b hb
  · obtain ⟨h, hh, rfl⟩ := List.mem_map.mp hb
    exact hfree h hh

/-- **INSTALL AND REMOVE ARE EXACT INVERSES**: at every point of a run the
    code is the original code with the jumps of the installed hooks laid over
    it, each of them in place; the removed ones are taken out; with none
    installed every byte is the original one.  The stub goes to any 64-bit
    address. -/
theorem install_remove_inverse {original : Target} {s : HookState}
    (hdecode : DecodesWithin decodeInstruction64)
    (h : ReachableIf (hookSystem decodeInstruction64 original)
      (Admits decodeInstruction64 layout) s) :
    (∀ a, layout.code a →
        s.target.memory a = overlay original.memory (s.installed.map Installed.jump) a) ∧
      (s.installed.map Installed.jump).Pairwise Run.Disjoint ∧
      (∀ h ∈ s.installed, InPlace original s.target h) ∧
      (∀ r ∈ s.removed, TakenOut s r) ∧
      (s.installed = [] → ∀ a, layout.code a → s.target.memory a = original.memory a) ∧
      ∀ code source (target : BitVec 64),
        HoldsAt code source (absoluteJump target.toNat) → Transfers code source target := by
  have hs : Exact layout original s := exact_reachable hdecode h
  refine ⟨hs.code, hs.disjoint, fun h hh => hs.inPlace hh, fun r hr => hs.takenOut hr,
    fun hnil a ha => ?_, fun code source target hstub => ?_⟩
  · have hcode := hs.code a ha
    rwa [hnil] at hcode
  · have htransfers := absoluteJump_transfers hstub
    rwa [BitVec.ofNat_toNat, BitVec.setWidth_eq] at htransfers

/-! ## Two hooks that come and go -/

/-- A page of code, and two variables of the image. -/
def pageLayout : Layout where
  code a := 0x20000 ≤ a ∧ a < 0x21000
  slot x := x = 0x30010 ∨ x = 0x30018
  code_lt a h := Nat.lt_trans h.2 (by decide)
  slot_apart x y hx hy hne := by
    rw [RunsApart]
    omega
  slot_data x hx a h1 h2 hcode := by omega

/-- The handlers and the variables of `Open` and `Close`. -/
def pairExports (base : Nat) (name : List UInt8) : Option RemoteExport :=
  if base = 0x30000 then
    if name = cstr "OpenHandler" then some ⟨0x30500, []⟩
    else if name = cstr "OpenTrampoline" then some ⟨0x30010, []⟩
    else if name = cstr "CloseHandler" then some ⟨0x30600, []⟩
    else some ⟨0x30018, []⟩
  else none

def closeDefinition : HookDefinition where
  moduleName := cstr "api.dll"
  exportName := cstr "Close"
  handlerExport := cstr "CloseHandler"
  trampolineExport := cstr "CloseTrampoline"
  canonicalName := cstr "api.dll!Close"

/-- Every call succeeds, and the block is at the given address. -/
def pairCalls (allocated : Nat) : HookCalls :=
  { lastCall true with bypass := ⟨true, allocated, true, true, true, true, true⟩ }

def openCall : HookAction :=
  .hook pairExports (pairCalls 0x40000) 0x20100 0x30000 openDefinition

def closeCall : HookAction :=
  .hook pairExports (pairCalls 0x41000) 0x20140 0x30000 closeDefinition

/-- Every call succeeds. -/
def unhookCall : UnhookCalls := ⟨true, true, true, true, true, true⟩

/-- A record that is complete is removed, if every call succeeds. -/
theorem unhookFunction_made {hook : InstalledHook} (hc : Complete hook) (t : Target) :
    ∃ t', unhookFunction unhookCall hook t = (true, t') := by
  rw [unhookFunction, if_neg hc.accepted]
  exact ⟨_, rfl⟩

/-- The spans are apart, and the block and the variable are not in use. -/
def pairAdmits (s : HookState) : HookAction → Bool
  | .hook getRemoteExport calls f hookImageBase definition =>
      decide (sizeOf decodeNop calls f s.target ≤ 0x40) &&
      decide (∀ b ∈ s.target.blocks, b.base ≠ calls.bypass.allocated ∧
        RunsApart b.base b.size calls.bypass.allocated trampolineSize) &&
      decide (∀ h ∈ s.installed, RunsApart f (sizeOf decodeNop calls f s.target)
          h.hook.originalFunction h.size ∧
        slotOf getRemoteExport hookImageBase definition ≠ some h.hook.trampolineSlot)
  | .unhook _ _ => true

/-- A call of the sample that is admitted. -/
theorem pair_admitted {s : HookState} {a f : Nat} {definition : HookDefinition}
    (ha : 0x40000 ≤ a ∧ a < 0x50000) (hf : 0x20000 ≤ f ∧ f + 0x40 ≤ 0x21000)
    (hslot : ∃ x, slotOf pairExports 0x30000 definition = some x ∧ pageLayout.slot x)
    (h : pairAdmits s (.hook pairExports (pairCalls a) f 0x30000 definition) = true) :
    Admits decodeNop pageLayout s (.hook pairExports (pairCalls a) f 0x30000 definition) := by
  simp only [pairAdmits, Bool.and_eq_true, decide_eq_true_eq] at h
  obtain ⟨⟨hsize, hblocks⟩, hinstalled⟩ := h
  have hallocated : (pairCalls a).bypass.allocated = a := rfl
  have htrampoline : trampolineSize = 1024 := rfl
  have hbelow : ∀ x, pageLayout.slot x → RunsApart x 8 a trampolineSize := by
    rintro x (rfl | rfl)
    · exact Or.inl (by omega)
    · exact Or.inl (by omega)
  obtain ⟨x, hx, hxslot⟩ := hslot
  refine ⟨⟨⟨?_, fun b hb => (hblocks b hb).1, ?_, ?_⟩, ?_, fun b hb => (hblocks b hb).2, ?_,
    hbelow⟩, ?_, fun g hg => (hinstalled g hg).1, ?_⟩
  · show a < 2 ^ 64
    omega
  · exact Or.inl (show f + 32 ≤ a by omega)
  · intro slot hslot
    rw [hx] at hslot
    exact Option.some.inj hslot ▸ hbelow x hxslot
  · show a + trampolineSize ≤ 2 ^ 64
    omega
  · rintro y h1 - ⟨-, h2⟩
    have h1' : a ≤ y := h1
    omega
  · intro y h1 h2
    exact ⟨by omega, by omega⟩
  · intro slot hslot
    rw [hx] at hslot
    cases Option.some.inj hslot
    exact ⟨hxslot, fun g hg heq => (hinstalled g hg).2 (hx.trans (congrArg some heq.symm))⟩

theorem pair_admits {s : HookState} {a : HookAction}
    (ha : a ∈ [openCall, closeCall, .unhook unhookCall 0, .unhook unhookCall 1])
    (h : pairAdmits s a = true) : Admits decodeNop pageLayout s a := by
  simp only [List.mem_cons, List.not_mem_nil, or_false] at ha
  rcases ha with rfl | rfl | rfl | rfl
  · exact pair_admitted (by decide) (by decide) ⟨0x30010, by decide +kernel, Or.inl rfl⟩ h
  · exact pair_admitted (by decide) (by decide) ⟨0x30018, by decide +kernel, Or.inr rfl⟩ h
  · trivial
  · trivial

/-- The functions of the installed hooks and of the removed ones. -/
def hookView (s : HookState) : List Nat × List Nat :=
  (s.installed.map fun h => h.hook.originalFunction,
    s.removed.map InstalledHook.originalFunction)

/-- A run of the sample. -/
theorem pair_reachable {original : Target} {s : HookState} {run : List HookAction}
    (hrun : ∀ a ∈ run,
      a ∈ [openCall, closeCall, .unhook unhookCall 0, .unhook unhookCall 1])
    (h : (hookSystem decodeNop original).execWhile pairAdmits ⟨original, [], []⟩ run
      = some s) :
    ReachableIf (hookSystem decodeNop original) (Admits decodeNop pageLayout) s :=
  ReachableIf.execWhile_mem (.init rfl) run (fun _ a ha hok => pair_admits (hrun a ha) hok) h

/-- Two hooks are installed, and their functions go to the handlers; the first
    one is removed under the second, and then the second: every byte of the
    code is as before. -/
theorem install_remove_inverse_pair : ∃ both one none,
    hookView both = ([0x20140, 0x20100], []) ∧
    (both.installed.map Installed.jump).Pairwise Run.Disjoint ∧
    (∀ h ∈ both.installed, InPlace unhookedTarget both.target h) ∧
    hookStep decodeNop both (.unhook unhookCall 1) = some one ∧
    hookView one = ([0x20140], [0x20100]) ∧
    (∀ h ∈ one.installed, InPlace unhookedTarget one.target h) ∧
    (∀ r ∈ one.removed, TakenOut one r) ∧
    hookStep decodeNop one (.unhook unhookCall 0) = some none ∧
    (∀ r ∈ none.removed, TakenOut none r) ∧
    ∀ a, pageLayout.code a → none.target.memory a = unhookedTarget.memory a := by
  have hexec : ((hookSystem decodeNop unhookedTarget).execWhile pairAdmits
      ⟨unhookedTarget, [], []⟩ [openCall, closeCall]).bind (fun both =>
        (hookStep decodeNop both (.unhook unhookCall 1)).bind fun one =>
          (hookStep decodeNop one (.unhook unhookCall 0)).map fun none =>
            (hookView both, hookView one, hookView none))
      = some (([0x20140, 0x20100], []), ([0x20140], [0x20100]),
          ([], [0x20140, 0x20100])) := by
    decide +kernel
  obtain ⟨both, hboth, hexec⟩ := Option.bind_eq_some_iff.mp hexec
  obtain ⟨one, hone, hexec⟩ := Option.bind_eq_some_iff.mp hexec
  obtain ⟨none, hnone, hviews⟩ := Option.map_eq_some_iff.mp hexec
  obtain ⟨hview, hrest⟩ := Prod.mk.inj hviews
  obtain ⟨hview', hview''⟩ := Prod.mk.inj hrest
  have hreach : ReachableIf (hookSystem decodeNop unhookedTarget)
      (Admits decodeNop pageLayout) both := pair_reachable (by simp) hboth
  have hreach' : ReachableIf (hookSystem decodeNop unhookedTarget)
      (Admits decodeNop pageLayout) one :=
    .step (a := .unhook unhookCall 1) hreach trivial hone
  have hreach'' : ReachableIf (hookSystem decodeNop unhookedTarget)
      (Admits decodeNop pageLayout) none :=
    .step (a := .unhook unhookCall 0) hreach' trivial hnone
  obtain ⟨-, hdisjoint, hplace, -⟩ := install_remove_inverse decodeNop_within hreach
  obtain ⟨-, -, hplace', htaken', -⟩ := install_remove_inverse decodeNop_within hreach'
  obtain ⟨-, -, -, htaken'', horiginal, -⟩ :=
    install_remove_inverse decodeNop_within hreach''
  have hempty : none.installed = [] := List.map_eq_nil_iff.mp (Prod.mk.inj hview'').1
  exact ⟨both, one, none, hview, hdisjoint, hplace, hone, hview', hplace', htaken', hnone,
    htaken'', horiginal hempty⟩

end ScopeInverse
