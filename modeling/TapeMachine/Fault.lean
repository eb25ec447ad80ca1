import TapeMachine.Text.LossyUtf8

/-! # Faults

    Everything that can go wrong, from the command line down to a single
    instruction.  A fault is a cause; `kind` is its label and `message` its
    wording.  Only a file that cannot be loaded has a deeper cause
    (`detail?`). -/

namespace TapeMachine

/-- Why the bytes of a file could not be had. -/
inductive ReadFailure where
  | notFound
  | notDirectory
  | isDirectory
  | nameTooLong
  | permissionDenied
  /-- The path holds a zero byte, so it names nothing. -/
  | zeroInPath
  /-- Any other cause, in the words of the operating system. -/
  | other (text : String)
  deriving DecidableEq, Repr

/-- The wording of a read failure. -/
def ReadFailure.message : ReadFailure → String
  | notFound => "No such file or directory (os error 2)"
  | notDirectory => "Not a directory (os error 20)"
  | isDirectory => "Is a directory (os error 21)"
  | nameTooLong => "File name too long (os error 36)"
  | permissionDenied => "Permission denied (os error 13)"
  | zeroInPath => "file name contained an unexpected NUL byte"
  | other text => text

/-- The cause of a failure. -/
inductive Fault where
  /-- The selector names no source kind. -/
  | invalidSourceKind (selector : String)
  /-- The program file at `path` (its raw bytes) could not be read. -/
  | fileLoad (path : List UInt8) (cause : ReadFailure)
  /-- The instruction exists but cannot be carried out. -/
  | unimplementedInstruction (symbol : Char) (position : Nat)
  /-- The search for a bracket's partner left the program at `position`. -/
  | programCounterOutOfRange (position : Int) (len : Nat)
  /-- The data pointer would have moved below cell 0. -/
  | dataPointerUnderflow (position : Nat)
  /-- The cell to be written is no character. -/
  | invalidCodePoint (value : Int64) (position : Nat)
  /-- The run has used up its steps. -/
  | stepLimitExceeded (limit : Nat)
  /-- A backward search was started past the end of the program. -/
  | searchOutsideProgram (start : Nat) (len : Nat)
  deriving DecidableEq, Repr

namespace Fault

/-- The label of a fault. -/
def kind : Fault → String
  | invalidSourceKind _ => "InvalidSourceKind"
  | fileLoad _ _ => "FileLoad"
  | unimplementedInstruction _ _ => "UnimplementedInstruction"
  | programCounterOutOfRange _ _ => "ProgramCounterOutOfRange"
  | dataPointerUnderflow _ => "DataPointerUnderflow"
  | invalidCodePoint _ _ => "InvalidCodePoint"
  | stepLimitExceeded _ => "StepLimitExceeded"
  | searchOutsideProgram _ _ => "SearchOutsideProgram"

/-- The wording of a fault. -/
def message : Fault → String
  | invalidSourceKind selector =>
      s!"invalid source kind `{selector}`, expected `T` or `F`"
  | fileLoad path _ => "failed to load program from " ++ Utf8.decodeLossy path
  | unimplementedInstruction symbol position =>
      s!"command `{symbol}` at {position} is not yet functional"
  | programCounterOutOfRange position len =>
      s!"invalid program pointer ({position}), program length is {len}"
  | dataPointerUnderflow position =>
      s!"data pointer moved below cell 0 at {position}"
  | invalidCodePoint value position =>
      s!"cell value {value.toInt} at {position} is not a character"
  | stepLimitExceeded limit => s!"step limit of {limit} exceeded"
  | searchOutsideProgram start len =>
      s!"search started at {start}, program length is {len}"

/-- The wording of the cause beneath a fault, if it has one. -/
def detail? : Fault → Option String
  | fileLoad _ cause => some cause.message
  | _ => none

/-- The fault as one line: label, wording and the cause beneath it. -/
def diagnostic (f : Fault) : String :=
  let line := f.kind ++ ": " ++ f.message
  match f.detail? with
  | some detail => line ++ ": " ++ detail
  | none => line

end Fault

end TapeMachine
