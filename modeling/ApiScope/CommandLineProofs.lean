import Mathlib.Data.List.TakeWhile

/-! # Command lines — arguments quoted and split again

    `BuildWindowsCommandLine` writes the arguments of the target into one
    string, which the runtime of the target splits again.  The rules of that
    splitting are those of the Microsoft C runtime: a run of backslashes means
    itself, unless a quote comes behind it.

    Encoder and decoder count backslashes on different sides: the encoder
    holds them back until it sees what follows, the decoder decides when it
    sees the quote.  `argument_quoteLoop` relates the two counts, and from it
    every list of arguments is read back (`commandLine_round_trip`). -/

namespace ScopeCommandLine

/-! ## The encoder -/

/-- `wchar_t` values with a meaning here. -/
def backslash : UInt16 := 92
def quote : UInt16 := 34
def space : UInt16 := 32

/-- `find_first_of(L" \t\n\v\"")` finds something. -/
def needsQuotes (argument : List UInt16) : Bool :=
  argument.any fun c => c = 32 ∨ c = 9 ∨ c = 10 ∨ c = 11 ∨ c = 34

/-- The loop of `QuoteWindowsArgument` and what it appends behind it; the
    backslashes are those not written yet. -/
def quoteLoop : (backslashes : Nat) → List UInt16 → List UInt16
  | backslashes, [] => List.replicate (backslashes * 2) backslash
  | backslashes, character :: rest =>
      if character = backslash then quoteLoop (backslashes + 1) rest
      else if character = quote then
        List.replicate (backslashes * 2 + 1) backslash ++ quote :: quoteLoop 0 rest
      else List.replicate backslashes backslash ++ character :: quoteLoop 0 rest

/-- `QuoteWindowsArgument`. -/
def quoteWindowsArgument (argument : List UInt16) : List UInt16 :=
  if argument ≠ [] ∧ needsQuotes argument = false then argument
  else quote :: (quoteLoop 0 argument ++ [quote])

/-- One argument of the loop of `BuildWindowsCommandLine`. -/
def appendArgument (commandLine argument : List UInt16) : List UInt16 :=
  (if commandLine = [] then commandLine else commandLine ++ [space])
    ++ quoteWindowsArgument argument

/-- `BuildWindowsCommandLine`. -/
def buildWindowsCommandLine (arguments : List (List UInt16)) : List UInt16 :=
  arguments.foldl appendArgument []

/-! ## The rules of the C runtime -/

/-- Arguments are split at a space or a tab. -/
def isBlank (c : UInt16) : Bool := c = 32 ∨ c = 9

/-- The program name: quotes toggle, backslashes are literal.  With what is behind
    the blank that ends it. -/
def programName : (inQuotes : Bool) → List UInt16 → List UInt16 × List UInt16
  | _, [] => ([], [])
  | inQuotes, c :: rest =>
      if c = quote then programName (!inQuotes) rest
      else if inQuotes = false ∧ isBlank c then ([], rest)
      else
        let r := programName inQuotes rest
        (c :: r.1, r.2)

/-- One argument, with what is behind it; `backslashes` have been read directly
    before. -/
def argument : (backslashes : Nat) → (inQuotes : Bool) → List UInt16 →
    List UInt16 × List UInt16
  | backslashes, _, [] => (List.replicate backslashes backslash, [])
  | backslashes, inQuotes, c :: rest =>
      if c = backslash then argument (backslashes + 1) inQuotes rest
      else if c = quote then
        let slashes := List.replicate (backslashes / 2) backslash
        if backslashes % 2 = 1 then
          -- an odd number: the quote is literal
          let r := argument 0 inQuotes rest
          (slashes ++ quote :: r.1, r.2)
        else if inQuotes = true ∧ rest.head? = some quote then
          -- two quotes inside of a quoted part
          let r := argument 0 true rest.tail
          (slashes ++ quote :: r.1, r.2)
        else
          let r := argument 0 (!inQuotes) rest
          (slashes ++ r.1, r.2)
      else if inQuotes = false ∧ isBlank c then (List.replicate backslashes backslash, c :: rest)
      else
        let r := argument 0 inQuotes rest
        (List.replicate backslashes backslash ++ c :: r.1, r.2)
termination_by _ _ text => text.length
decreasing_by
  all_goals
    simp only [List.length_cons, List.length_tail]
    omega

/-- What is behind an argument is a part of the text. -/
theorem argument_length (backslashes : Nat) (inQuotes : Bool) (text : List UInt16) :
    (argument backslashes inQuotes text).2.length ≤ text.length := by
  fun_induction argument backslashes inQuotes text with
  | case1 => exact Nat.le_refl _
  | case2 =>
      rename_i ih
      exact Nat.le_succ_of_le ih
  | case3 =>
      rename_i ih
      exact Nat.le_succ_of_le ih
  | case4 =>
      rename_i ih
      exact Nat.le_succ_of_le (Nat.le_trans ih (by rw [List.length_tail]; exact Nat.sub_le _ _))
  | case5 =>
      rename_i ih
      exact Nat.le_succ_of_le ih
  | case6 => exact Nat.le_refl _
  | case7 =>
      rename_i ih
      exact Nat.le_succ_of_le ih

/-- An argument that starts with no blank takes at least its first character. -/
theorem argument_shorter {c : UInt16} (rest : List UInt16) (h : isBlank c = false) :
    (argument 0 false (c :: rest)).2.length < (c :: rest).length := by
  have htail : rest.tail.length ≤ rest.length := by
    rw [List.length_tail]
    exact Nat.sub_le _ _
  rw [argument]
  refine Nat.lt_succ_of_le ?_
  split
  · exact argument_length _ _ _
  split
  · split
    · exact argument_length _ _ _
    split
    · exact Nat.le_trans (argument_length _ _ _) htail
    · exact argument_length _ _ _
  split
  · rename_i hblank
    cases h.symm.trans hblank.2
  · exact argument_length _ _ _

theorem isBlank_of_dropWhile {text rest : List UInt16} {c : UInt16}
    (h : text.dropWhile isBlank = c :: rest) : isBlank c = false := by
  have hne : text.dropWhile isBlank ≠ [] := by
    rw [h]
    exact List.cons_ne_nil _ _
  have hhead := List.head_dropWhile_not isBlank hne
  simpa only [h, List.head_cons] using hhead

/-- The arguments behind the program name, blanks skipped in front of each. -/
def splitArguments (text : List UInt16) : List (List UInt16) :=
  match _h : text.dropWhile isBlank with
  | [] => []
  | c :: rest =>
      let r := argument 0 false (c :: rest)
      r.1 :: splitArguments r.2
termination_by text.length
decreasing_by
  have hlength := (List.dropWhile_suffix (l := text) isBlank).length_le
  rw [_h] at hlength
  exact Nat.lt_of_lt_of_le (argument_shorter rest (isBlank_of_dropWhile _h)) hlength

/-- The program name and the arguments of a text. -/
def splitText (text : List UInt16) : List (List UInt16) :=
  let r := programName false text
  r.1 :: splitArguments r.2

/-- The arguments that the C runtime finds on a command line, which a NUL ends. -/
def commandLineToArgv (commandLine : List UInt16) : List (List UInt16) :=
  splitText (commandLine.takeWhile (· ≠ 0))

/-! ## Quoted and read back -/

/-- What may stand behind an argument: nothing, or a blank. -/
def Ends (text : List UInt16) : Prop := text = [] ∨ ∃ rest, text = space :: rest

theorem argument_backslashes (n k : Nat) (inQuotes : Bool) (text : List UInt16) :
    argument n inQuotes (List.replicate k backslash ++ text)
      = argument (n + k) inQuotes text := by
  induction k generalizing n with
  | zero => rfl
  | succ k ih =>
      rw [List.replicate_succ, List.cons_append, argument, if_pos rfl, ih, Nat.add_assoc,
        Nat.add_comm 1 k]

/-- Behind an argument the decoder stops. -/
theorem argument_end {text : List UInt16} (h : Ends text) (n : Nat) :
    argument n false text = (List.replicate n backslash, text) := by
  rcases h with rfl | ⟨rest, rfl⟩
  · rw [argument]
  · rw [argument, if_neg (by decide), if_neg (by decide), if_pos (by decide)]

/-- **HELD BACK AND COUNTED**: inside of quotes the decoder reads the output of
    the loop, and the closing quote, as the backslashes that were held back and
    the rest of the argument. -/
theorem argument_quoteLoop {text : List UInt16} (h : Ends text) (k : Nat)
    (rest : List UInt16) :
    argument 0 true (quoteLoop k rest ++ quote :: text)
      = (List.replicate k backslash ++ rest, text) := by
  -- induction on what is left; k runs over the backslashes held back so far
  induction rest generalizing k with
  | nil =>
      have hnext : ¬ (true = true ∧ text.head? = some quote) := by
        rintro ⟨-, hquote⟩
        rcases h with rfl | ⟨rest, rfl⟩
        · cases hquote
        · exact absurd (Option.some.inj hquote) (by decide)
      rw [quoteLoop, argument_backslashes, Nat.zero_add, argument, if_neg (by decide), if_pos rfl]
      dsimp only
      rw [if_neg (by omega), if_neg hnext, Nat.mul_div_cancel _ (by decide), Bool.not_true,
        argument_end h]
      rfl
  | cons c rest ih =>
      rw [quoteLoop]
      by_cases hbackslash : c = backslash
      · rw [if_pos hbackslash, ih, List.replicate_succ', List.append_assoc, hbackslash]
        rfl
      rw [if_neg hbackslash]
      by_cases hquote : c = quote
      · -- an odd number of backslashes in front of a quote
        rw [if_pos hquote, List.append_assoc, List.cons_append, argument_backslashes,
          Nat.zero_add, argument, if_neg (by decide), if_pos rfl]
        dsimp only
        rw [if_pos (by omega), ih, show (k * 2 + 1) / 2 = k by omega, hquote]
        rfl
      -- in front of any other character the backslashes are literal
      · rw [if_neg hquote, List.append_assoc, List.cons_append, argument_backslashes,
          Nat.zero_add, argument, if_neg hbackslash, if_neg hquote,
          if_neg (fun hand => nomatch hand.1)]
        dsimp only
        rw [ih]
        rfl

/-- Characters without a meaning read as themselves. -/
theorem argument_plain {text : List UInt16} (h : Ends text) {rest : List UInt16}
    (hplain : needsQuotes rest = false) (n : Nat) :
    argument n false (rest ++ text) = (List.replicate n backslash ++ rest, text) := by
  induction rest generalizing n with
  | nil =>
      rw [List.append_nil]
      exact argument_end h n
  | cons c rest ih =>
      rw [needsQuotes, List.any_cons, Bool.or_eq_false_iff] at hplain
      obtain ⟨hc, hrest⟩ := hplain
      have hc' := of_decide_eq_false hc
      rw [List.cons_append, argument]
      by_cases hbackslash : c = backslash
      · rw [if_pos hbackslash, ih hrest, List.replicate_succ', List.append_assoc, hbackslash]
        rfl
      have hquote : c ≠ quote := fun heq => hc' (by simp [heq, quote])
      have hblank : ¬ (false = false ∧ isBlank c = true) := by
        rintro ⟨-, hblank⟩
        rcases of_decide_eq_true hblank with heq | heq <;> exact hc' (by simp [heq])
      rw [if_neg hbackslash, if_neg hquote, if_neg hblank]
      dsimp only
      rw [ih hrest]
      rfl

/-- **ONE ARGUMENT**, quoted or not. -/
theorem argument_quoted (a : List UInt16) {text : List UInt16} (h : Ends text) :
    argument 0 false (quoteWindowsArgument a ++ text) = (a, text) := by
  rw [quoteWindowsArgument]
  by_cases hplain : a ≠ [] ∧ needsQuotes a = false
  · rw [if_pos hplain]
    exact argument_plain h hplain.2 0
  -- the opening quote is read first, then the loop and the closing quote
  · rw [if_neg hplain, List.cons_append, List.append_assoc, List.singleton_append, argument,
      if_neg (by decide), if_pos rfl]
    dsimp only
    rw [if_neg (by decide), if_neg (fun hand => nomatch hand.1), Bool.not_false,
      argument_quoteLoop h]
    rfl

/-! ## The program name -/

/-- Without a quote, and without a backslash at its end, the program name is written
    as it is. -/
theorem quoteLoop_program {program : List UInt16} (hquote : quote ∉ program)
    (hlast : program.getLast? ≠ some backslash) (k : Nat) (hk : program = [] → k = 0) :
    quoteLoop k program = List.replicate k backslash ++ program := by
  induction program generalizing k with
  | nil =>
      rw [hk rfl]
      rfl
  | cons c rest ih =>
      rw [List.mem_cons, not_or] at hquote
      rw [quoteLoop, if_neg (Ne.symm hquote.1)]
      have hrest : rest.getLast? ≠ some backslash := by
        intro hsome
        rw [List.getLast?_cons, hsome] at hlast
        exact hlast rfl
      by_cases hbackslash : c = backslash
      -- a backslash is held back, but not to the end: something follows it
      · have hne : rest ≠ [] := by
          rintro rfl
          exact hlast (congrArg some hbackslash)
        rw [if_pos hbackslash, ih hquote.2 hrest (k + 1) (absurd · hne), hbackslash,
          List.replicate_succ', List.append_assoc]
        rfl
      · rw [if_neg hbackslash, ih hquote.2 hrest 0 (fun _ => rfl)]
        rfl

/-- The name is read up to the text behind it. -/
theorem programName_append {inQuotes : Bool} {program text : List UInt16}
    (hquote : quote ∉ program) (hblank : inQuotes = false → ∀ c ∈ program, isBlank c = false) :
    programName inQuotes (program ++ text)
      = (program ++ (programName inQuotes text).1, (programName inQuotes text).2) := by
  induction program with
  | nil => rfl
  | cons c rest ih =>
      rw [List.mem_cons, not_or] at hquote
      have hc : ¬ (inQuotes = false ∧ isBlank c = true) := by
        rintro ⟨hout, hc⟩
        cases hc.symm.trans (hblank hout c List.mem_cons_self)
      rw [List.cons_append, programName, if_neg (Ne.symm hquote.1), if_neg hc]
      dsimp only
      rw [ih hquote.2 (fun hout d hd => hblank hout d (List.mem_cons_of_mem c hd))]
      rfl

/-- What is left of a text behind the name: its first blank is taken. -/
theorem programName_end {text : List UInt16} (h : Ends text) :
    programName false text = ([], text.tail) := by
  rcases h with rfl | ⟨rest, rfl⟩
  · rfl
  · rw [programName, if_neg (by decide), if_pos (by decide)]
    rfl

/-- No character of a text that needs no quotes is a blank. -/
theorem isBlank_of_plain {text : List UInt16} (hplain : needsQuotes text = false)
    {c : UInt16} (hc : c ∈ text) : isBlank c = false := by
  rw [needsQuotes, List.any_eq_false] at hplain
  have hno := hplain c hc
  refine decide_eq_false fun hblank => hno (decide_eq_true ?_)
  rcases hblank with heq | heq
  · exact Or.inl heq
  · exact Or.inr (Or.inl heq)

/-- **THE PROGRAM**, quoted or not. -/
theorem programName_quoted {program text : List UInt16} (hquote : quote ∉ program)
    (hlast : program.getLast? ≠ some backslash) (h : Ends text) :
    programName false (quoteWindowsArgument program ++ text) = (program, text.tail) := by
  rw [quoteWindowsArgument]
  by_cases hplain : program ≠ [] ∧ needsQuotes program = false
  · rw [if_pos hplain,
      programName_append hquote (fun _ _ hc => isBlank_of_plain hplain.2 hc),
      programName_end h, List.append_nil]
  · rw [if_neg hplain, quoteLoop_program hquote hlast 0 (fun _ => rfl), List.replicate_zero,
      List.nil_append, List.cons_append, List.append_assoc, List.singleton_append,
      programName, if_pos rfl, Bool.not_false,
      programName_append hquote (fun hout => Bool.noConfusion hout),
      programName, if_pos rfl, Bool.not_true, programName_end h, List.append_nil]

/-! ## All arguments -/

/-- The arguments behind the program, as the encoder writes them. -/
def quotedArguments (arguments : List (List UInt16)) : List UInt16 :=
  arguments.flatMap fun a => space :: quoteWindowsArgument a

theorem quotedArguments_ends (arguments : List (List UInt16)) :
    Ends (quotedArguments arguments) := by
  cases arguments with
  | nil => exact Or.inl rfl
  | cons a rest => exact Or.inr ⟨_, rfl⟩

theorem quoteWindowsArgument_ne_nil (a : List UInt16) : quoteWindowsArgument a ≠ [] := by
  rw [quoteWindowsArgument]
  split
  · rename_i hplain
    exact hplain.1
  · exact List.cons_ne_nil _ _

theorem foldl_appendArgument (arguments : List (List UInt16)) {commandLine : List UInt16}
    (hne : commandLine ≠ []) :
    arguments.foldl appendArgument commandLine = commandLine ++ quotedArguments arguments := by
  induction arguments generalizing commandLine with
  | nil => exact (List.append_nil _).symm
  | cons a rest ih =>
      have hstep : appendArgument commandLine a
          = commandLine ++ (space :: quoteWindowsArgument a) := by
        rw [appendArgument, if_neg hne, List.append_assoc]
        rfl
      rw [List.foldl_cons, hstep, ih (fun hnil => hne (List.append_eq_nil_iff.mp hnil).1),
        List.append_assoc]
      rfl

/-- The command line: the program, and a space in front of every other argument. -/
theorem buildWindowsCommandLine_cons (program : List UInt16) (arguments : List (List UInt16)) :
    buildWindowsCommandLine (program :: arguments)
      = quoteWindowsArgument program ++ quotedArguments arguments := by
  have hstep : appendArgument [] program = quoteWindowsArgument program := rfl
  rw [buildWindowsCommandLine, List.foldl_cons, hstep,
    foldl_appendArgument arguments (quoteWindowsArgument_ne_nil program)]

/-- No written argument starts with a blank. -/
theorem quoteWindowsArgument_head (a : List UInt16) :
    ∃ c rest, quoteWindowsArgument a = c :: rest ∧ isBlank c = false := by
  rw [quoteWindowsArgument]
  by_cases hplain : a ≠ [] ∧ needsQuotes a = false
  · rw [if_pos hplain]
    cases a with
    | nil => exact absurd rfl hplain.1
    | cons c rest => exact ⟨c, rest, rfl, isBlank_of_plain hplain.2 List.mem_cons_self⟩
  · rw [if_neg hplain]
    exact ⟨quote, _, rfl, by decide⟩

/-- One argument more, blanks in front of it skipped. -/
theorem splitArguments_of_dropWhile {text : List UInt16} {c : UInt16} {rest : List UInt16}
    (h : text.dropWhile isBlank = c :: rest) :
    splitArguments text
      = (argument 0 false (c :: rest)).1 :: splitArguments (argument 0 false (c :: rest)).2 := by
  rw [splitArguments]
  split
  · rename_i hnil
    cases h.symm.trans hnil
  · rename_i hcons
    rw [h] at hcons
    obtain ⟨rfl, rfl⟩ := List.cons.inj hcons
    rfl

theorem splitArguments_of_dropWhile_nil {text : List UInt16}
    (h : text.dropWhile isBlank = []) : splitArguments text = [] := by
  rw [splitArguments]
  split
  · rfl
  · rename_i hcons
    cases h.symm.trans hcons

/-- A space in front of a text makes no difference. -/
theorem splitArguments_space (text : List UInt16) :
    splitArguments (space :: text) = splitArguments text := by
  have hspace : (space :: text).dropWhile isBlank = text.dropWhile isBlank := rfl
  cases h : text.dropWhile isBlank with
  | nil => rw [splitArguments_of_dropWhile_nil h, splitArguments_of_dropWhile_nil (hspace.trans h)]
  | cons c rest => rw [splitArguments_of_dropWhile h, splitArguments_of_dropWhile (hspace.trans h)]

/-- The arguments, blanks between them. -/
theorem splitArguments_tail (arguments : List (List UInt16)) :
    splitArguments (quotedArguments arguments).tail = arguments := by
  induction arguments with
  | nil => exact splitArguments_of_dropWhile_nil rfl
  | cons a rest ih =>
      obtain ⟨c, behind, hhead, hblank⟩ := quoteWindowsArgument_head a
      have htext : (quotedArguments (a :: rest)).tail
          = quoteWindowsArgument a ++ quotedArguments rest := rfl
      have hdrop : (quotedArguments (a :: rest)).tail.dropWhile isBlank
          = c :: (behind ++ quotedArguments rest) := by
        rw [htext, hhead, List.cons_append, List.dropWhile_cons, hblank]
        rfl
      have hone := argument_quoted a (quotedArguments_ends rest)
      rw [hhead, List.cons_append] at hone
      -- the separating space belongs to what is behind: skip it to use the induction
      have hrest : splitArguments (quotedArguments rest) = rest := by
        rcases quotedArguments_ends rest with hnil | ⟨behind, hspace⟩
        · rw [hnil, List.tail_nil] at ih
          rw [hnil, ih]
        · rw [hspace, List.tail_cons] at ih
          rw [hspace, splitArguments_space, ih]
      rw [splitArguments_of_dropWhile hdrop, hone, hrest]

/-! ## A NUL -/

/-- The encoder adds none. -/
theorem quoteLoop_nul {argument : List UInt16} (h : 0 ∉ argument) (k : Nat) :
    0 ∉ quoteLoop k argument := by
  have hslashes : ∀ n, (0 : UInt16) ∉ List.replicate n backslash := fun n hmem =>
    absurd (List.eq_of_mem_replicate hmem) (by decide)
  induction argument generalizing k with
  | nil => exact hslashes _
  | cons c rest ih =>
      rw [List.mem_cons, not_or] at h
      rw [quoteLoop]
      split
      · exact ih h.2 (k + 1)
      split
      · rw [List.mem_append, List.mem_cons]
        rintro (hmem | hmem | hmem)
        · exact hslashes _ hmem
        · exact absurd hmem (by decide)
        · exact ih h.2 0 hmem
      · rw [List.mem_append, List.mem_cons]
        rintro (hmem | hmem | hmem)
        · exact hslashes _ hmem
        · exact h.1 hmem
        · exact ih h.2 0 hmem

theorem quoteWindowsArgument_nul {argument : List UInt16} (h : 0 ∉ argument) :
    0 ∉ quoteWindowsArgument argument := by
  rw [quoteWindowsArgument]
  split
  · exact h
  · rw [List.mem_cons, List.mem_append, List.mem_singleton]
    rintro (hmem | hmem | hmem)
    · exact absurd hmem (by decide)
    · exact quoteLoop_nul h 0 hmem
    · exact absurd hmem (by decide)

theorem buildWindowsCommandLine_nul {program : List UInt16} {arguments : List (List UInt16)}
    (h : ∀ a ∈ program :: arguments, 0 ∉ a) :
    0 ∉ buildWindowsCommandLine (program :: arguments) := by
  rw [buildWindowsCommandLine_cons, List.mem_append]
  rintro (hmem | hmem)
  · exact quoteWindowsArgument_nul (h program List.mem_cons_self) hmem
  · obtain ⟨a, ha, hmem⟩ := List.mem_flatMap.mp hmem
    rcases List.mem_cons.mp hmem with hspace | hmem
    · exact absurd hspace (by decide)
    · exact quoteWindowsArgument_nul (h a (List.mem_cons_of_mem program ha)) hmem

/-- A text without a NUL is read to its end. -/
theorem takeWhile_nul {text : List UInt16} (h : 0 ∉ text) :
    text.takeWhile (· ≠ 0) = text := by
  refine List.takeWhile_eq_self_iff.mpr fun c hc => decide_eq_true ?_
  rintro rfl
  exact h hc

/-! ## The round trip -/

/-- **THE ROUND TRIP**: a list of arguments whose program has no quote and no backslash
    at its end is split into itself by the rules of the runtime; and where no argument
    holds a NUL, also when the command line ends at its first NUL. -/
theorem commandLine_round_trip {program : List UInt16} (arguments : List (List UInt16))
    (hquote : quote ∉ program) (hlast : program.getLast? ≠ some backslash) :
    splitText (buildWindowsCommandLine (program :: arguments)) = program :: arguments
      ∧ ((∀ a ∈ program :: arguments, 0 ∉ a) →
          commandLineToArgv (buildWindowsCommandLine (program :: arguments))
            = program :: arguments) := by
  have hsplit : splitText (buildWindowsCommandLine (program :: arguments))
      = program :: arguments := by
    rw [buildWindowsCommandLine_cons, splitText,
      programName_quoted hquote hlast (quotedArguments_ends arguments),
      splitArguments_tail arguments]
  refine ⟨hsplit, fun hnul => ?_⟩
  rw [commandLineToArgv, takeWhile_nul (buildWindowsCommandLine_nul hnul), hsplit]

/-- The program `a b` with three arguments: an empty one, two backslashes and a quote,
    and a backslash behind a space. -/
theorem commandLine_round_trip_three :
    commandLineToArgv (buildWindowsCommandLine [[97, 32, 98], [], [92, 92, 34], [32, 92]])
      = [[97, 32, 98], [], [92, 92, 34], [32, 92]] :=
  (commandLine_round_trip [[], [92, 92, 34], [32, 92]] (by decide) (by decide)).2 (by decide)

end ScopeCommandLine
