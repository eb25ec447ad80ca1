import TapeMachine.CommandLine.Outcome
import TapeMachine.Proofs.CommandLine.Arguments
import TapeMachine.Proofs.CommandLine.Wording
import TapeMachine.Proofs.Machine.Strategies

/-! # What a command line reports

    A command line names a source kind and an identifier.  `Fate` says what becomes
    of the program behind them, stage by stage: it is refused, or it runs and ends;
    and what has been written by then.  `Reported` says what is to be left behind of
    that, with the line that is to be said of a failure (`Fault.Diagnosis`).  Together
    they are the answer to the command line (`answer?_eq_some_iff`), which has an answer
    exactly if the run ends.

    The way of matching is no part of a program's fate (`Fate.withMatching`), so
    `--scan` cannot be told from the answer. -/

namespace TapeMachine.CommandLine

open TapeMachine.Bracket

/-! ## The fate of a program -/

/-- The text that is loaded for an identifier. -/
inductive Loads (read : FileReader) : (selector identifier text : String) → Prop where
  | text (text : String) : Loads read "T" text text
  | file {path : String} {contents : List UInt8} (found : read path.toUTF8.toList = .ok contents) :
      Loads read "F" path (textOfFile contents)

/-- There is no program to run: the selector is unknown, or the file cannot be read,
    or the brackets of the text do not match. -/
inductive Refused (read : FileReader) : (selector identifier : String) → Fault → Prop where
  | unknownKind {selector : String} (identifier : String) (notText : selector ≠ "T")
      (notFile : selector ≠ "F") : Refused read selector identifier (.invalidSourceKind selector)
  | unreadable {path : String} {cause : ReadFailure}
      (missing : read path.toUTF8.toList = .error cause) :
      Refused read "F" path (.fileLoad path.toUTF8.toList cause)
  | unmatched {selector identifier text : String} {fault : Fault}
      (loads : Loads read selector identifier text)
      (refused : Program.ofText? text = .error fault) :
      Refused read selector identifier fault

/-- What becomes of the program behind an identifier: how it ends, with the first
    failure if it fails, and what has been written by then. -/
inductive Fate (read : FileReader) (settings : Settings) (selector identifier : String) :
    RunStatus → String → Prop where
  | refused {fault : Fault} (refused : Refused read selector identifier fault) :
      Fate read settings selector identifier (.failed fault) ""
  | ran {text : String} {program : Program} {status : RunStatus} {m : Machine}
      (loads : Loads read selector identifier text) (accepted : Program.ofText? text = .ok program)
      (ends : (Machine.load program settings).Ends status m) :
      Fate read settings selector identifier status m.state.output

variable {read : FileReader} {settings : Settings} {selector identifier : String}

/-- The machine for a source is the machine for the text that is loaded from it. -/
theorem ofSource?_of_loads {text : String} (h : Loads read selector identifier text) :
    Machine.ofSource? read settings selector identifier = Machine.ofText? settings text := by
  cases h with
  | text text =>
      rw [Machine.ofSource?, show SourceKind.ofSelector? "T" = .ok .text from rfl]
      rfl
  | file found =>
      rw [Machine.ofSource?, show SourceKind.ofSelector? "F" = .ok .file from rfl]
      dsimp only
      rw [SourceKind.loadText, readProgramText, found]

/-- It is a fresh machine if the text is accepted. -/
theorem ofSource?_of_accepted {text : String} {program : Program}
    (loads : Loads read selector identifier text) (accepted : Program.ofText? text = .ok program) :
    Machine.ofSource? read settings selector identifier = .ok (Machine.load program settings) := by
  rw [ofSource?_of_loads loads, Machine.ofText?, accepted]
  rfl

/-- If the source is refused there is no machine, and the fault is the one it is refused with. -/
theorem ofSource?_of_refused {fault : Fault} (h : Refused read selector identifier fault) :
    Machine.ofSource? read settings selector identifier = .error fault := by
  cases h with
  | unknownKind _ notText notFile =>
      have hkind : SourceKind.ofSelector? selector = .error (.invalidSourceKind selector) := by
        rw [SourceKind.ofSelector?, if_neg (show selector ≠ SourceKind.text.selector from notText),
          if_neg (show selector ≠ SourceKind.file.selector from notFile)]
      rw [Machine.ofSource?, hkind]
  | unreadable missing =>
      rw [Machine.ofSource?, show SourceKind.ofSelector? "F" = .ok .file from rfl]
      dsimp only
      rw [SourceKind.loadText, readProgramText, missing]
  | unmatched loads refused =>
      rw [ofSource?_of_loads loads, Machine.ofText?, refused]
      rfl

/-- An identifier is refused, or there is a program behind it. -/
theorem refused_or_accepted (read : FileReader) (selector identifier : String) :
    (∃ fault, Refused read selector identifier fault) ∨
      ∃ text program, Loads read selector identifier text ∧ Program.ofText? text = .ok program := by
  have hloaded : ∀ text, Loads read selector identifier text →
      (∃ fault, Refused read selector identifier fault) ∨
        ∃ text program, Loads read selector identifier text ∧
          Program.ofText? text = .ok program := by
    intro text loads
    cases hp : Program.ofText? text with
    | error fault => exact Or.inl ⟨fault, .unmatched loads hp⟩
    | ok program => exact Or.inr ⟨text, program, loads, hp⟩
  by_cases hT : selector = "T"
  · subst hT
    exact hloaded identifier (.text identifier)
  · by_cases hF : selector = "F"
    · subst hF
      cases hread : read identifier.toUTF8.toList with
      | error cause => exact Or.inl ⟨_, .unreadable hread⟩
      | ok contents => exact hloaded _ (.file hread)
    · exact Or.inl ⟨_, .unknownKind identifier hT hF⟩

/-- How a machine finds its partners is no part of a program's fate. -/
theorem Fate.withMatching {status : RunStatus} {written : String}
    (h : Fate read settings selector identifier status written) (matching : Matching) :
    Fate read { settings with matching := matching } selector identifier status written := by
  cases h with
  | refused refused => exact .refused refused
  | @ran text program status m loads accepted ends =>
      exact .ran (m := m.withMatching matching) loads accepted (ends.withMatching matching)

/-- Nothing that can become of a program is a search outside of it. -/
theorem Fate.ne_searchOutside {status : RunStatus} {written : String}
    (h : Fate read settings selector identifier status written) (start len : Nat) :
    status ≠ .failed (.searchOutsideProgram start len) := by
  rintro rfl
  cases h with
  | refused refused =>
      cases refused with
      | unmatched loads refused =>
          have hbuild := Program.ofBytes?_eq_error_iff.mp refused
          rcases Table.build_cases _ with ⟨t, ht, -⟩ | ⟨he, -⟩ | ⟨he, -⟩
          · cases ht.symm.trans hbuild
          · cases he.symm.trans hbuild
          · cases he.symm.trans hbuild
  | ran loads accepted ends =>
      obtain ⟨k, hend, -⟩ := Machine.ends_iff.mp ends
      obtain ⟨-, -, ⟨limit, -, hf⟩ | ⟨-, hf⟩⟩ :=
        Machine.step_error_iff.mp (Machine.endOf_eq_failed_iff.mp hend)
      · cases hf
      · cases hf

/-- A program finishes exactly if it gets as far as to run, and the run halts. -/
theorem exists_finished_iff :
    (∃ written, Fate read settings selector identifier .finished written) ↔
    (selector = "T" ∨ selector = "F") ∧ ∃ text program m, Loads read selector identifier text ∧
      Balanced text.toUTF8.data.toList ∧ Program.ofText? text = .ok program ∧
      (Machine.load program settings).Ends .finished m := by
  constructor
  · rintro ⟨written, fate⟩
    cases fate with
    | ran loads accepted ends =>
        refine ⟨?_, _, _, _, loads, ?_, accepted, ends⟩
        · cases loads with
          | text => exact Or.inl rfl
          | file => exact Or.inr rfl
        · rw [← Program.ofBytes?_eq_ok_iff.mp accepted]
          exact Program.balanced _
  · rintro ⟨-, text, program, m, loads, -, accepted, ends⟩
    exact ⟨_, .ran loads accepted ends⟩

/-! ## The report -/

/-- What is left behind of a program's fate. -/
inductive Reported : RunStatus → (written : String) → Outcome → Prop where
  | finished (written : String) :
      Reported .finished written { exitCode := 0, stdout := written ++ "\n", stderr := "" }
  | failed {fault : Fault} {line : String} (diagnosis : fault.Diagnosis line) (written : String) :
      Reported (.failed fault) written
        { exitCode := 1
          stdout := if written = "" then "" else written ++ "\n"
          stderr := "error: " ++ line ++ "\n" }

/-- A failure is reported as it is diagnosed. -/
theorem reported_failed_iff {fault : Fault} {written : String} {outcome : Outcome} :
    Reported (.failed fault) written outcome ↔ outcome = Outcome.ofFault written fault := by
  simp only [Outcome.ofFault, String.isEmpty_iff]
  constructor
  · intro h
    cases h with
    | failed diagnosis =>
        obtain rfl := Fault.diagnosis_iff.mp diagnosis
        rfl
  · rintro rfl
    exact .failed (Fault.diagnosis_iff.mpr rfl) written

/-- Only a run that is over is reported. -/
theorem Reported.over {status : RunStatus} {written : String} {outcome : Outcome}
    (h : Reported status written outcome) : status ≠ .running := by
  rintro rfl
  cases h

/-- The outcome of a run that is over is what is to be left behind of it. -/
theorem ofRun?_eq_some_iff {status : RunStatus} {m : Machine} {outcome : Outcome} :
    Outcome.ofRun? (status, m) = some outcome ↔ Reported status m.state.output outcome := by
  cases status with
  | running => exact ⟨nofun, nofun⟩
  | finished =>
      constructor
      · rintro ⟨⟩
        exact .finished _
      · rintro ⟨⟩
        rfl
  | failed fault =>
      rw [reported_failed_iff]
      exact Option.some_inj.trans eq_comm

/-- There is an answer exactly if there is one in time, for long enough a time. -/
theorem answer?_eq_some_iff_within {words : List String} {outcome : Outcome} :
    answer? read words = some outcome ↔ ∃ n, answerWithin? n read words = some outcome := by
  simp only [answer?, answerWithin?]
  cases start read words with
  | answered found => exact (exists_const Nat).symm
  | run m =>
      constructor
      · intro h
        obtain ⟨⟨status, m'⟩, hend, hreport⟩ := Option.bind_eq_some_iff.mp h
        obtain ⟨-, n, hn⟩ := Machine.runToEnd?_eq_some_iff.mp hend
        refine ⟨n, ?_⟩
        show Outcome.ofRun? (m.runFor n) = some outcome
        rw [hn, hreport]
      · rintro ⟨n, hn⟩
        have hreported := ofRun?_eq_some_iff.mp hn
        exact Option.bind_eq_some_iff.mpr
          ⟨m.runFor n, Machine.runToEnd?_eq_some_iff.mpr ⟨hreported.over, n, rfl⟩, hn⟩

/-- The exit code is 0 or 1. -/
theorem Reported.exitCode_cases {status : RunStatus} {written : String} {outcome : Outcome}
    (h : Reported status written outcome) : outcome.exitCode = 0 ∨ outcome.exitCode = 1 := by
  cases h with
  | finished => exact Or.inl rfl
  | failed => exact Or.inr rfl

/-- Only the end of a run is reported with the exit code 0. -/
theorem Reported.eq_finished {status : RunStatus} {written : String} {outcome : Outcome}
    (h : Reported status written outcome) (hcode : outcome.exitCode = 0) : status = .finished := by
  cases h with
  | finished => rfl
  | failed => exact absurd hcode (show (1 : UInt32) ≠ 0 by decide)

/-- A command line that names a program begins by loading it. -/
theorem start_eq {words : List String} {a : Arguments} (accepted : Arguments.ofWords? words = .ok a)
    (runs : a.instructions = false) (names : source? a.positional = some (selector, identifier)) :
    (∀ m, Machine.ofSource? read a.settings selector identifier = .ok m →
      start read words = .run m) ∧
    ∀ fault, Machine.ofSource? read a.settings selector identifier = .error fault →
      start read words = .answered (.ofFault "" fault) := by
  rw [start, accepted]
  dsimp only
  rw [runs, if_neg Bool.false_ne_true, names]
  dsimp only
  constructor
  · intro m hm
    rw [hm]
  · intro fault hfault
    rw [hfault]

/-- **The answer is the report of the program's fate.** -/
theorem answer?_eq_some_iff {words : List String} {a : Arguments} {outcome : Outcome}
    (accepted : Arguments.ofWords? words = .ok a) (runs : a.instructions = false)
    (names : source? a.positional = some (selector, identifier)) :
    answer? read words = some outcome ↔
      ∃ status written, Fate read a.settings selector identifier status written ∧
        Reported status written outcome := by
  obtain ⟨hrun, hanswered⟩ := @start_eq read _ _ _ _ accepted runs names
  rw [answer?]
  constructor
  · intro h
    rcases refused_or_accepted read selector identifier with ⟨fault, hr⟩ | ⟨text, program, hl, hp⟩
    · rw [hanswered fault (ofSource?_of_refused hr)] at h
      exact ⟨_, _, .refused hr, reported_failed_iff.mpr (Option.some.inj h).symm⟩
    · rw [hrun _ (ofSource?_of_accepted hl hp)] at h
      obtain ⟨⟨status, m'⟩, hend, hreport⟩ := Option.bind_eq_some_iff.mp h
      have ends := Machine.runToEnd?_eq_some_iff.mp hend
      exact ⟨_, _, .ran hl hp ends, ofRun?_eq_some_iff.mp hreport⟩
  · rintro ⟨status, written, fate, reported⟩
    cases fate with
    | refused refused =>
        rw [hanswered _ (ofSource?_of_refused refused), reported_failed_iff.mp reported]
    | ran loads accepted ends =>
        rw [hrun _ (ofSource?_of_accepted loads accepted)]
        exact Option.bind_eq_some_iff.mpr
          ⟨_, Machine.runToEnd?_eq_some_iff.mpr ends, ofRun?_eq_some_iff.mpr reported⟩

/-! ## The whole command line -/

section Accepted

variable {words words' : List String} {a : Arguments}

/-- One positional word is the program text, two are the kind and the identifier. -/
theorem exists_source (accepted : Arguments.ofWords? words = .ok a) (names : a.positional ≠ []) :
    ∃ selector identifier,
      (a.positional = [identifier] ∧ selector = "T" ∨ a.positional = [selector, identifier]) ∧
      source? a.positional = some (selector, identifier) := by
  have hle : a.positional.length ≤ 2 := Arguments.length_positional_le accepted
  match hp : a.positional with
  | [] => exact absurd hp names
  | [text] => exact ⟨_, text, Or.inl ⟨rfl, rfl⟩, rfl⟩
  | [selector, identifier] => exact ⟨selector, identifier, Or.inr rfl, rfl⟩
  | _ :: _ :: _ :: _ =>
      rw [hp] at hle
      simp only [List.length_cons] at hle
      omega

/-- Command lines that differ in `--scan` alone have the same answer. -/
theorem answer?_of_scan (accepted : Arguments.ofWords? words = .ok a)
    (accepted' : Arguments.ofWords? words' = .ok { a with scan := true })
    (runs : a.instructions = false) (names : a.positional ≠ []) :
    answer? read words' = answer? read words := by
  obtain ⟨selector, identifier, -, hsource⟩ := exists_source accepted names
  refine Option.ext fun outcome => ?_
  rw [answer?_eq_some_iff accepted runs hsource, answer?_eq_some_iff accepted' runs hsource]
  constructor
  · rintro ⟨status, written, fate, reported⟩
    exact ⟨status, written, fate.withMatching a.settings.matching, reported⟩
  · rintro ⟨status, written, fate, reported⟩
    exact ⟨status, written, fate.withMatching .scan, reported⟩

/-- Two positional words are the selector and the identifier. -/
theorem selects_of_two {first second : String}
    (h : [first, second] = [identifier] ∧ selector = "T" ∨
      [first, second] = [selector, identifier]) :
    first = selector ∧ second = identifier := by
  rcases h with ⟨h, -⟩ | h
  · cases h
  · cases h
    exact ⟨rfl, rfl⟩

/-- **The command line reports what the machine did.**  Take a command line that is
    accepted, does not ask for the instruction table and has a positional word.  It
    names a selector and an identifier, and it has an answer exactly if the program
    behind them is refused or its run ends.

    * The answer reports the first failure, or the end of the run, and what had been
      written by then.  The run has wide cells if `--wide` is given and the limit of
      `--max-steps`; how brackets find each other does not matter.
    * The exit code is 0 exactly if the selector is `T` or `F`, the text loads, its
      brackets match and the run halts.  Else it is 1.
    * With `--scan` given in addition, or left out, the answer is the same. -/
theorem command_line_reports_run (read : FileReader) (accepted : Arguments.ofWords? words = .ok a)
    (runs : a.instructions = false) (names : a.positional ≠ []) :
    ∃ selector identifier,
      (a.positional = [identifier] ∧ selector = "T" ∨ a.positional = [selector, identifier]) ∧
      (∀ matching outcome, answer? read words = some outcome ↔
        ∃ status written,
          Fate read
            { cellMode := if a.wide then .wide else .byte
              matching := matching
              stepLimit := a.maxSteps }
            selector identifier status written ∧
          (∀ start len, status ≠ .failed (.searchOutsideProgram start len)) ∧
          Reported status written outcome) ∧
      (∀ outcome, answer? read words = some outcome →
        (outcome.exitCode = 0 ∨ outcome.exitCode = 1) ∧
        (outcome.exitCode = 0 ↔ (selector = "T" ∨ selector = "F") ∧
          ∃ text program m, Loads read selector identifier text ∧
            Balanced text.toUTF8.data.toList ∧ Program.ofText? text = .ok program ∧
            (Machine.load program a.settings).Ends .finished m)) ∧
      (∀ words', Arguments.Gives ["--scan"] words words' → a.scan = false →
        answer? read words' = answer? read words) ∧
      (∀ words', Arguments.Gives ["--scan"] words' words →
        answer? read words' = answer? read words) ∧
      (∀ words', Arguments.Gives ["--wide"] words words' → a.wide = false →
        Arguments.ofWords? words' = .ok { a with wide := true }) ∧
      ∀ words' value n, Arguments.Gives ["--max-steps", value] words words' →
        a.maxSteps = none → stepNumber? value = some n →
        Arguments.ofWords? words' = .ok { a with maxSteps := some n } := by
  obtain ⟨selector, identifier, hnames, hsource⟩ := exists_source accepted names
  have hanswer : ∀ outcome, answer? read words = some outcome ↔
      ∃ status written, Fate read a.settings selector identifier status written ∧
        Reported status written outcome := fun outcome =>
    answer?_eq_some_iff accepted runs hsource
  refine ⟨selector, identifier, hnames, ?_, ?_, ?_, ?_, ?_, ?_⟩
  · intro matching outcome
    rw [hanswer outcome]
    constructor
    · rintro ⟨status, written, fate, reported⟩
      exact ⟨status, written, fate.withMatching matching, fate.ne_searchOutside, reported⟩
    · rintro ⟨status, written, fate, -, reported⟩
      exact ⟨status, written, fate.withMatching a.settings.matching, reported⟩
  · intro outcome houtcome
    obtain ⟨status, written, fate, reported⟩ := (hanswer outcome).mp houtcome
    refine ⟨reported.exitCode_cases, ?_⟩
    rw [← exists_finished_iff]
    constructor
    · intro hcode
      exact ⟨written, reported.eq_finished hcode ▸ fate⟩
    · rintro ⟨output, finished⟩
      have hsome := (hanswer _).mpr ⟨_, _, finished, .finished output⟩
      rw [← Option.some.inj (hsome.symm.trans houtcome)]
  · intro words' gives scan
    refine answer?_of_scan accepted ?_ runs names
    exact (Arguments.ofWords?_gives_scan (b := { a with scan := true }) gives names).mpr
      ⟨a, accepted, scan, rfl⟩
  · intro words' gives
    obtain ⟨c, hc, -, rfl⟩ := (Arguments.ofWords?_gives_scan gives names).mp accepted
    exact (answer?_of_scan hc accepted runs names).symm
  · intro words' gives wide
    exact (Arguments.ofWords?_gives_wide (b := { a with wide := true }) gives names).mpr
      ⟨a, accepted, wide, rfl⟩
  · intro words' value n gives limit hn
    exact (Arguments.ofWords?_gives_maxSteps (b := { a with maxSteps := some n }) hn gives
      names).mpr ⟨a, accepted, limit, rfl⟩

end Accepted

/-- A program file in two lines, run with wide cells and cut off after three steps; a
    file that is not there; and a text that fails after it has written a character. -/
theorem command_line_reports_run_of_failures :
    let read : FileReader := fun _ => .ok [0x2B, 0x2E, 0x0A, 0x2E, 0x2E]
    let nowhere : FileReader := fun _ => .error .notFound
    let words := ["-w", "--max-steps", "3", "F", "p.b"]
    let a : Arguments := { wide := true, maxSteps := some 3, positional := ["F", "p.b"] }
    Arguments.ofWords? words = .ok a ∧ a.instructions = false ∧ a.positional ≠ [] ∧
      answer? read words = some
        { exitCode := 1
          stdout := "\x01\x01\n"
          stderr := "error: StepLimitExceeded: step limit of 3 exceeded\n" } ∧
      answer? read ["-w", "--max-steps", "3", "--scan", "F", "p.b"] = answer? read words ∧
      answer? nowhere ["F", "p.b"] = some
        { exitCode := 1
          stdout := ""
          stderr := "error: FileLoad: failed to load program from p.b: " ++
            "No such file or directory (os error 2)\n" } ∧
      answer? nowhere ["+.,"] = some
        { exitCode := 1
          stdout := "\x01\n"
          stderr := "error: UnimplementedInstruction: " ++
            "command `,` at 2 is not yet functional\n" } := by
  intro read nowhere words a
  have accepted : Arguments.ofWords? words = .ok a := by rfl
  have runs : a.instructions = false := rfl
  have names : a.positional ≠ [] := by decide
  obtain ⟨selector, identifier, hnames, hanswer, -, hscan, -⟩ :=
    command_line_reports_run read accepted runs names
  obtain ⟨rfl, rfl⟩ := selects_of_two hnames
  refine ⟨accepted, runs, names, ?_, ?_, ?_, ?_⟩
  · have htext : textOfFile [0x2B, 0x2E, 0x0A, 0x2E, 0x2E] = "+..." := by decide +kernel
    have loads : Loads read "F" "p.b" "+..." := by
      rw [← htext]
      exact .file rfl
    let p : Program := ⟨#[0x2B, 0x2E, 0x2E, 0x2E], Table.empty, rfl⟩
    let m : Machine := .load p { cellMode := .wide, stepLimit := some 3 }
    have accepts : Program.ofText? "+..." = .ok p := Program.ofBytes?_eq_ok_iff.mpr rfl
    have hfault : (Machine.next^[3] m).step.1 = .error (.stepLimitExceeded 3) := by decide +kernel
    have houtput : (Machine.next^[3] m).state.output = "\x01\x01" := by decide +kernel
    have fate : Fate read { cellMode := .wide, stepLimit := some 3 } "F" "p.b"
        (.failed (.stepLimitExceeded 3)) "\x01\x01" := by
      rw [← houtput]
      exact .ran loads accepts (Machine.ends_of_error hfault)
    have diagnosis := Fault.Diagnosis.loaded (.stepLimitExceeded 3) nofun
    have reported := (hanswer .table _).mpr
      ⟨_, _, fate, fate.ne_searchOutside, .failed diagnosis "\x01\x01"⟩
    rw [reported]
    decide +kernel
  · have gives :
        Arguments.Gives ["--scan"] words ["-w", "--max-steps", "3", "--scan", "F", "p.b"] :=
      .behind (by decide) (by decide) (.behindNumber (.here _))
    exact hscan _ gives rfl
  · have accepted : Arguments.ofWords? ["F", "p.b"] = .ok { positional := ["F", "p.b"] } := by rfl
    obtain ⟨selector, identifier, hnames, hanswer, -⟩ :=
      command_line_reports_run nowhere accepted rfl (List.cons_ne_nil _ _)
    obtain ⟨rfl, rfl⟩ := selects_of_two hnames
    have fate : Fate nowhere {} "F" "p.b" (.failed (.fileLoad "p.b".toUTF8.toList .notFound)) "" :=
      .refused (.unreadable rfl)
    have reads : Utf8.DecodesTo "p.b".toUTF8.toList "p.b".toList :=
      Utf8.decodesTo_iff.mpr (by decide +kernel)
    have diagnosis := Fault.Diagnosis.unloaded (.fileLoad reads _) .notFound
    exact (hanswer .table _).mpr ⟨_, _, fate, fate.ne_searchOutside, .failed diagnosis ""⟩
  · have accepted : Arguments.ofWords? ["+.,"] = .ok { positional := ["+.,"] } := by rfl
    obtain ⟨selector, identifier, hnames, hanswer, -⟩ :=
      command_line_reports_run nowhere accepted rfl (List.cons_ne_nil _ _)
    obtain ⟨rfl, rfl⟩ : selector = "T" ∧ "+.," = identifier := by
      rcases hnames with ⟨h, rfl⟩ | h
      · exact ⟨rfl, (List.cons.inj h).1⟩
      · cases h
    let p : Program := ⟨#[0x2B, 0x2E, 0x2C], Table.empty, rfl⟩
    let m : Machine := .load p {}
    have accepts : Program.ofText? "+.," = .ok p := Program.ofBytes?_eq_ok_iff.mpr rfl
    have hfault : (Machine.next^[2] m).step.1 = .error (.unimplementedInstruction ',' 2) := by
      decide +kernel
    have houtput : (Machine.next^[2] m).state.output = "\x01" := by decide +kernel
    have fate : Fate nowhere {} "T" "+.," (.failed (.unimplementedInstruction ',' 2)) "\x01" := by
      rw [← houtput]
      exact .ran (.text "+.,") accepts (Machine.ends_of_error hfault)
    have diagnosis := Fault.Diagnosis.loaded (.unimplementedInstruction ',' 2) nofun
    rw [(hanswer .table _).mpr ⟨_, _, fate, fate.ne_searchOutside, .failed diagnosis "\x01"⟩]
    decide +kernel

end TapeMachine.CommandLine
