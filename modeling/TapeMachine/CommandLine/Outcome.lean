import TapeMachine.CommandLine.Arguments
import TapeMachine.Source

/-! # What the command line answers

    A command line is answered at once, or after a run: `start` gives the answer
    or the machine to run, `Outcome.ofRun?` the answer once the run is over.
    `answer?` is the answer to the command line, if its run is ever over, and
    `answerWithin?` the answer if it is over in time.

    One positional word is a program text.  Of two the first selects the source
    kind and the second is the identifier.  A run that halts prints its output
    and a line end.  Anything that fails is reported on one line of the error
    stream; what had been written by then is printed all the same. -/

namespace TapeMachine.CommandLine

/-- What is left behind by a command line: an exit code and two texts. -/
structure Outcome where
  exitCode : UInt32 := 0
  stdout : String := ""
  stderr : String := ""
  deriving DecidableEq, Repr, Inhabited

/-- The name and version of the program. -/
def versionText : String := "bfmc 0.1.0\n"

/-- How the program is called. -/
def usageText : String :=
  String.join [
    "Usage: bfmc [OPTIONS] [FIRST] [SOURCE]\n",
    "\n",
    "Arguments:\n",
    "  [FIRST]   Program text, or source kind (`T` text, `F` file) when SOURCE follows\n",
    "  [SOURCE]  Program text or file path\n",
    "\n",
    "Options:\n",
    "  -w, --wide           Use 64-bit cells and raw code point output\n",
    "      --scan           Match brackets by scanning instead of the jump table\n",
    "      --max-steps <N>  Fail after executing this many instructions\n",
    "      --instructions   Print instruction table and exit\n",
    "  -v, --verbose...     Log more, repeat for trace output\n",
    "  -h, --help           Print help\n",
    "  -V, --version        Print version\n"]

/-- `name` in a column of `width` characters. -/
def inColumn (width : Nat) (name : String) : String :=
  name ++ String.ofList (List.replicate (width - name.length) ' ')

/-- The instruction table, one instruction a line. -/
def instructionTable : String :=
  String.join <| Instruction.all.map fun i =>
    i.symbol.toString ++ "  " ++ inColumn 10 i.name ++ " " ++ i.summary ++ "\n"

namespace Outcome

/-- The answer when the arguments are not gone through to the end. -/
def ofStop : Stop → Outcome
  | .version => { stdout := versionText }
  | .help => { stdout := usageText }
  | .rejected => { exitCode := 2, stderr := usageText }

/-- The answer to a failure, after `written` has been written. -/
def ofFault (written : String) (fault : Fault) : Outcome where
  exitCode := 1
  stdout := if written.isEmpty then "" else written ++ "\n"
  stderr := "error: " ++ fault.diagnostic ++ "\n"

/-- The answer to a run, once it is over. -/
def ofRun? : RunStatus × Machine → Option Outcome
  | (.running, _) => none
  | (.finished, m) => some { stdout := m.state.output ++ "\n" }
  | (.failed fault, m) => some (ofFault m.state.output fault)

end Outcome

/-- The selector and the identifier among the positional words. -/
def source? : List String → Option (String × String)
  | [] => none
  | [text] => some (SourceKind.text.selector, text)
  | selector :: identifier :: _ => some (selector, identifier)

/-- The path of the file a command line needs, if it needs one. -/
def neededFile? (words : List String) : Option String :=
  match Arguments.ofWords? words with
  | .error _ => none
  | .ok a =>
      if a.instructions then none
      else
        match source? a.positional with
        | some (selector, identifier) =>
            if selector = SourceKind.file.selector then some identifier else none
        | none => none

/-- How a command line is answered: at once, or by running a machine. -/
inductive Beginning where
  | answered (outcome : Outcome)
  | run (machine : Machine)

/-- Begins to answer a command line. -/
def start (read : FileReader) (words : List String) : Beginning :=
  match Arguments.ofWords? words with
  | .error stop => .answered (.ofStop stop)
  | .ok a =>
      if a.instructions then .answered { stdout := instructionTable }
      else
        match source? a.positional with
        | none => .answered { exitCode := 1, stderr := "Invalid args.\n" }
        | some (selector, identifier) =>
            match Machine.ofSource? read a.settings selector identifier with
            | .ok m => .run m
            | .error fault => .answered (.ofFault "" fault)

/-- The answer to a command line whose run takes at most `n` steps. -/
def answerWithin? (n : Nat) (read : FileReader) (words : List String) : Option Outcome :=
  match start read words with
  | .answered outcome => some outcome
  | .run m => Outcome.ofRun? (m.runFor n)

/-- The answer to a command line. -/
def answer? (read : FileReader) (words : List String) : Option Outcome :=
  match start read words with
  | .answered outcome => some outcome
  | .run m => m.runToEnd?.bind Outcome.ofRun?

/-! ## The file that is needed -/

/-- A text is loaded without any file. -/
theorem ofSource?_of_ne_file {read read' : FileReader} {settings : Settings}
    {selector identifier : String}
    (h : selector = SourceKind.file.selector →
      read identifier.toUTF8.toList = read' identifier.toUTF8.toList) :
    Machine.ofSource? read settings selector identifier
      = Machine.ofSource? read' settings selector identifier := by
  rw [Machine.ofSource?, Machine.ofSource?]
  cases hk : SourceKind.ofSelector? selector with
  | error fault => rfl
  | ok kind =>
      cases kind with
      | text => rfl
      | file =>
          have hread := h (SourceKind.ofSelector?_eq_ok_iff.mp hk)
          dsimp only
          rw [SourceKind.loadText, SourceKind.loadText, readProgramText, readProgramText, hread]

/-- No file counts but the one that is needed. -/
theorem start_of_neededFile {read read' : FileReader} {words : List String}
    (h : ∀ path, neededFile? words = some path →
      read path.toUTF8.toList = read' path.toUTF8.toList) :
    start read words = start read' words := by
  rw [start, start]
  cases ha : Arguments.ofWords? words with
  | error stop => rfl
  | ok a =>
      dsimp only
      by_cases hi : a.instructions = true
      · rw [if_pos hi, if_pos hi]
      · rw [if_neg hi, if_neg hi]
        cases hs : source? a.positional with
        | none => rfl
        | some named =>
            obtain ⟨selector, identifier⟩ := named
            dsimp only
            rw [@ofSource?_of_ne_file read read']
            intro hfile
            refine h identifier ?_
            rw [neededFile?, ha]
            dsimp only
            rw [if_neg hi, hs]
            exact if_pos hfile

/-- An answer depends on no file but the one that is needed. -/
theorem answer?_of_neededFile {read read' : FileReader} {words : List String}
    (h : ∀ path, neededFile? words = some path →
      read path.toUTF8.toList = read' path.toUTF8.toList) :
    answer? read words = answer? read' words := by
  rw [answer?, answer?, start_of_neededFile h]

end TapeMachine.CommandLine
