import TapeMachine.Proofs.CommandLine.Report

/-! # Program text on the command line

    A program may begin with any number of hyphens, and so do options.  They are told
    apart by their letters: every option is spelled with some, and no instruction is a
    letter.  So a word without letters is positional wherever a positional word is
    taken, unless it is the lone `--` (`Arguments.addAll_of_letterless`).  Behind a
    `--` every word is.  A command line with no more to it than a program text, with or
    without the selector in front, runs that text and reports the run (`RunsText`). -/

namespace TapeMachine.CommandLine

open TapeMachine.Bracket

/-! ## Words without letters -/

/-- No letter stands among the characters. -/
def Letterless (cs : List Char) : Prop := ∀ c ∈ cs, c.isAlpha = false

theorem not_letterless {cs : List Char} (h : cs.any Char.isAlpha = true) : ¬ Letterless cs := by
  intro hnone
  obtain ⟨c, hc, halpha⟩ := List.any_eq_true.mp h
  rw [hnone c hc] at halpha
  cases halpha

/-- A short flag is a letter. -/
theorem Flag.ofShort?_eq_none {c : Char} (h : c.isAlpha = false) : Flag.ofShort? c = none := by
  unfold Flag.ofShort?
  split
  · cases h
  · cases h
  · cases h
  · cases h
  · rfl

/-- The name of a long flag has letters. -/
theorem Flag.ofLong?_eq_none {name : String} (h : Letterless name.toList) :
    Flag.ofLong? name = none := by
  unfold Flag.ofLong?
  split
  · exact absurd h (not_letterless rfl)
  · exact absurd h (not_letterless rfl)
  · exact absurd h (not_letterless rfl)
  · exact absurd h (not_letterless rfl)
  · exact absurd h (not_letterless rfl)
  · exact absurd h (not_letterless rfl)
  · rfl

namespace Word

/-- No long option has a name without letters. -/
theorem ofLong_of_letterless {name : String} (h : Letterless name.toList) (value : Option String) :
    ofLong name value = .plain := by
  have hname : name ≠ "max-steps" := by
    rintro rfl
    exact not_letterless rfl h
  unfold ofLong
  rw [if_neg hname, Flag.ofLong?_eq_none h]

/-- A word without letters is no option.  Behind one hyphen it may look like a cluster of
    flags, but its first character is none. -/
theorem ofString_of_letterless {word : String} (h : Letterless word.toList) (hne : word ≠ "--") :
    ofString word = .plain ∨
      ∃ c names, ofString word = .cluster (c :: names) ∧ Flag.ofShort? c = none := by
  unfold ofString
  split
  · rename_i hword
    exact absurd (String.toList_inj.mp hword) hne
  · rename_i rest _ hword
    -- neither is the part in front of a `=`
    have hname : Letterless (String.ofList (rest.takeWhile (· ≠ '='))).toList := by
      intro c hc
      rw [String.toList_ofList] at hc
      have hrest := (List.takeWhile_sublist (· ≠ '=')).subset hc
      refine h c ?_
      rw [hword]
      exact List.mem_cons_of_mem '-' (List.mem_cons_of_mem '-' hrest)
    refine Or.inl ?_
    dsimp only
    split
    · exact ofLong_of_letterless hname _
    · exact ofLong_of_letterless hname _
  · rename_i c rest _ _ hword
    refine Or.inr ⟨c, rest, rfl, Flag.ofShort?_eq_none (h c ?_)⟩
    rw [hword]
    exact List.mem_cons_of_mem '-' List.mem_cons_self
  · exact Or.inl rfl

end Word

/-! ## Positional words -/

namespace Arguments

variable {a : Arguments} {word : String} {rest : List String}

theorem addPositional_of_lt (hplace : a.positional.length < maxPositional) :
    a.addPositional word = .ok { a with positional := a.positional ++ [word] } :=
  if_pos hplace

/-- A word that is no option is positional. -/
theorem addAll_plain (hword : Word.ofString word = .plain)
    (hplace : a.positional.length < maxPositional) :
    a.addAll (word :: rest) = addAll { a with positional := a.positional ++ [word] } rest := by
  rw [addAll_word (by rw [hword]; exact nofun) (by rw [hword]; exact nofun), addWord, hword]
  dsimp only
  rw [addPositional_of_lt hplace]
  rfl

theorem addAll_cluster {c : Char} {names : List Char}
    (hword : Word.ofString word = .cluster (c :: names)) (hc : Flag.ofShort? c = none)
    (hplace : a.positional.length < maxPositional) :
    a.addAll (word :: rest) = addAll { a with positional := a.positional ++ [word] } rest := by
  have hunknown : (c :: names).any (fun c => (Flag.ofShort? c).isNone) = true := by
    rw [List.any_cons, hc]
    rfl
  rw [addAll_word (by rw [hword]; exact nofun) (by rw [hword]; exact nofun), addWord, hword]
  dsimp only
  rw [addCluster, if_pos ⟨hplace, hunknown⟩, addPositional_of_lt hplace]
  rfl

/-- A word without letters is positional, as long as positional words are taken. -/
theorem addAll_of_letterless (h : Letterless word.toList) (hne : word ≠ "--")
    (hplace : a.positional.length < maxPositional) :
    a.addAll (word :: rest) = addAll { a with positional := a.positional ++ [word] } rest := by
  rcases Word.ofString_of_letterless h hne with hplain | ⟨c, names, hcluster, hc⟩
  · exact addAll_plain hplain hplace
  · exact addAll_cluster hcluster hc hplace

/-- Behind a `--` a word is positional whatever it looks like. -/
theorem addRest_of_lt (hplace : a.positional.length < maxPositional) :
    a.addRest (word :: rest) = addRest { a with positional := a.positional ++ [word] } rest := by
  rw [addRest_cons, addPositional_of_lt hplace]
  rfl

end Arguments

/-! ## Running a text -/

/-- The command line is accepted and runs `text` as it stands, with the default settings,
    whatever files there are. -/
structure RunsText (words : List String) (text : String) : Prop where
  /-- It holds nothing but positional words, and they name the text. -/
  accepted : ∃ positional, Arguments.ofWords? words = .ok { positional := positional } ∧
    source? positional = some ("T", text)
  needs_no_file : neededFile? words = none
  runs : ∀ read program, Program.ofText? text = .ok program →
    start read words = .run (Machine.load program {})
  refuses : ∀ read fault, Program.ofText? text = .error fault →
    start read words = .answered (.ofFault "" fault)
  reports : ∀ read outcome, answer? read words = some outcome ↔
    ∃ status written, Fate read {} "T" text status written ∧ Reported status written outcome

/-- A command line without options whose positional words name a text runs that text. -/
theorem runsText_of_positional {words positional : List String} {text : String}
    (accepted : Arguments.ofWords? words = .ok { positional := positional })
    (names : source? positional = some ("T", text)) : RunsText words text where
  accepted := ⟨positional, accepted, names⟩
  needs_no_file := by
    rw [neededFile?, accepted]
    dsimp only
    rw [if_neg Bool.false_ne_true, names]
    rfl
  runs := by
    intro read program hprogram
    exact (start_eq accepted rfl names).1 _ (ofSource?_of_accepted (.text text) hprogram)
  refuses := by
    intro read fault hfault
    exact (start_eq accepted rfl names).2 _ (ofSource?_of_refused (.unmatched (.text text) hfault))
  reports := by
    intro read outcome
    exact answer?_eq_some_iff accepted rfl names

/-- If the run of the text finishes, the answer is its output and a line end. -/
theorem RunsText.answer?_of_ends {words : List String} {text : String} (h : RunsText words text)
    {program : Program} (accepted : Program.ofText? text = .ok program) {m : Machine}
    (ends : (Machine.load program {}).Ends .finished m) (read : FileReader) :
    answer? read words = some { stdout := m.state.output ++ "\n" } :=
  (h.reports read _).mpr ⟨_, _, .ran (.text text) accepted ends, .finished _⟩

section Text

variable {words : List String} {text : String}

/-- One positional word is a text. -/
theorem runsText_of_one (h : Arguments.addAll {} words = .ok { positional := [text] }) :
    RunsText words text := by
  refine runsText_of_positional (Arguments.ofWords?_eq_ok_iff.mpr ⟨h, ?_⟩) rfl
  exact fun heq => List.cons_ne_nil _ _ (congrArg Arguments.positional heq)

/-- The second of two positional words is a text if the first one says so. -/
theorem runsText_of_two (h : Arguments.addAll {} words = .ok { positional := ["T", text] }) :
    RunsText words text := by
  refine runsText_of_positional (Arguments.ofWords?_eq_ok_iff.mpr ⟨h, ?_⟩) rfl
  exact fun heq => List.cons_ne_nil _ _ (congrArg Arguments.positional heq)

/-- **Hyphens are no flags.**  A text made of instructions, with any number of hyphens at
    its front, is run as it stands if it is given alone or behind the selector `T`, unless
    it is `--`.  Behind a `--` every text is, also one that is spelled like an option. -/
theorem hyphens_are_no_flags (text : String) :
    ((∀ c ∈ text.toList, ∃ i : Instruction, c = i.symbol) → text ≠ "--" →
      RunsText [text] text ∧ RunsText ["T", text] text) ∧
    RunsText ["--", text] text ∧ RunsText ["--", "T", text] text := by
  have hselector : Word.ofString "T" = .plain := by decide
  have hseparator : Word.ofString "--" = .separator := by decide
  have hfirst : ({} : Arguments).positional.length < Arguments.maxPositional := Nat.two_pos
  refine ⟨?_, ?_, ?_⟩
  · intro hsymbols hne
    have hletterless : Letterless text.toList := by
      intro c hc
      obtain ⟨i, rfl⟩ := hsymbols c hc
      cases i <;> rfl
    refine ⟨runsText_of_one ?_, runsText_of_two ?_⟩
    · exact Arguments.addAll_of_letterless hletterless hne hfirst
    · rw [Arguments.addAll_plain hselector hfirst]
      exact Arguments.addAll_of_letterless hletterless hne Nat.one_lt_two
  · refine runsText_of_one ?_
    rw [Arguments.addAll_separator hseparator]
    exact Arguments.addRest_of_lt hfirst
  · refine runsText_of_two ?_
    rw [Arguments.addAll_separator hseparator, Arguments.addRest_of_lt hfirst]
    exact Arguments.addRest_of_lt Nat.one_lt_two

end Text

/-- Two hyphens and a point are a program, also behind the selector, and behind a `--` the
    option `--wide` is one.  The lone `--` is none. -/
theorem hyphens_are_no_flags_at_the_front :
    let read : FileReader := fun _ => .error .notFound
    (∀ c ∈ "--.".toList, ∃ i : Instruction, c = i.symbol) ∧ "--." ≠ "--" ∧
      answer? read ["--."] = some { stdout := "þ\n" } ∧
      answer? read ["T", "--."] = some { stdout := "þ\n" } ∧
      answer? read ["--", "--wide"] = some { stdout := "\n" } ∧
      Arguments.ofWords? ["--"] = .error .rejected := by
  intro read
  have hsymbols : ∀ c ∈ "--.".toList, ∃ i : Instruction, c = i.symbol := by
    show ∀ c ∈ [Instruction.decrement.symbol, Instruction.decrement.symbol,
      Instruction.output.symbol], ∃ i : Instruction, c = i.symbol
    simp only [List.forall_mem_cons]
    exact ⟨⟨_, rfl⟩, ⟨_, rfl⟩, ⟨_, rfl⟩, nofun⟩
  have hne : "--." ≠ "--" := by decide
  obtain ⟨halone, hselected⟩ := (hyphens_are_no_flags "--.").1 hsymbols hne
  obtain ⟨-, hoption, -⟩ := hyphens_are_no_flags "--wide"
  let p : Program := ⟨#[0x2D, 0x2D, 0x2E], Table.empty, rfl⟩
  let q : Program := ⟨#[0x2D, 0x2D, 0x77, 0x69, 0x64, 0x65], Table.empty, rfl⟩
  have hp : Program.ofText? "--." = .ok p := Program.ofBytes?_eq_ok_iff.mpr rfl
  have hq : Program.ofText? "--wide" = .ok q := Program.ofBytes?_eq_ok_iff.mpr rfl
  have hphalt : (Machine.next^[3] (Machine.load p {})).step.1 = .ok .halt := by decide +kernel
  have hqhalt : (Machine.next^[6] (Machine.load q {})).step.1 = .ok .halt := by decide +kernel
  have hpout : (Machine.next^[4] (Machine.load p {})).state.output = "þ" := by decide +kernel
  have hqout : (Machine.next^[7] (Machine.load q {})).state.output = "" := by decide +kernel
  have hpends := Machine.ends_of_halt hphalt
  have hqends := Machine.ends_of_halt hqhalt
  refine ⟨hsymbols, hne, ?_, ?_, ?_, rfl⟩
  · rw [halone.answer?_of_ends hp hpends, hpout]
    rfl
  · rw [hselected.answer?_of_ends hp hpends, hpout]
    rfl
  · rw [hoption.answer?_of_ends hq hqends, hqout]
    rfl

end TapeMachine.CommandLine
