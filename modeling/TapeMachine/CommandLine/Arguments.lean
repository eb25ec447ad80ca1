import TapeMachine.Settings

/-! # Arguments of the command line

    A word is an option if it is spelled like one, wherever it stands: a long
    flag, `--max-steps` with its number, or a cluster of short flags.  Any other
    word is positional, also if it begins with a hyphen, since programs may.
    After a lone `--` every word is positional.

    At most two words may be positional.  No option may be given twice, except
    `--verbose`.  A command line without any option or positional word is
    refused. -/

namespace TapeMachine.CommandLine

/-- What an accepted command line asks for. -/
structure Arguments where
  wide : Bool := false
  scan : Bool := false
  maxSteps : Option Nat := none
  instructions : Bool := false
  verbosity : Nat := 0
  positional : List String := []
  deriving DecidableEq, Repr, Inhabited

/-- Why the arguments are not gone through to the end. -/
inductive Stop where
  /-- The version was asked for. -/
  | version
  /-- The usage text was asked for. -/
  | help
  /-- The command line is not valid. -/
  | rejected
  deriving DecidableEq, Repr

/-- An option without a value. -/
inductive Flag where
  | wide
  | scan
  | instructions
  | verbose
  | help
  | version
  deriving DecidableEq, Repr

/-- The flag with a long name, written after two hyphens. -/
def Flag.ofLong? (name : String) : Option Flag :=
  match name with
  | "wide" => some wide
  | "scan" => some scan
  | "instructions" => some instructions
  | "verbose" => some verbose
  | "help" => some help
  | "version" => some version
  | _ => none

/-- The flag with a short name, written after one hyphen. -/
def Flag.ofShort? (name : Char) : Option Flag :=
  match name with
  | 'w' => some wide
  | 'v' => some verbose
  | 'h' => some help
  | 'V' => some version
  | _ => none

/-- What a word is by its spelling. -/
inductive Word where
  /-- The lone `--`. -/
  | separator
  /-- A long flag. -/
  | flag (flag : Flag)
  /-- A long flag to which a value is attached although it takes none. -/
  | flagWithValue
  /-- `--max-steps`, with the value attached to it, if there is one. -/
  | maxSteps (value : Option String)
  /-- One hyphen and at least one more character. -/
  | cluster (names : List Char)
  /-- Anything else. -/
  | plain
  deriving DecidableEq, Repr

/-- The spelling of a word that starts with two hyphens, from its name and the
    value attached to it after `=`. -/
def Word.ofLong (name : String) (value : Option String) : Word :=
  if name = "max-steps" then .maxSteps value
  else
    match Flag.ofLong? name, value with
    | some f, none => .flag f
    | some _, some _ => .flagWithValue
    | none, _ => .plain

/-- The spelling of a word. -/
def Word.ofString (word : String) : Word :=
  match word.toList with
  | ['-', '-'] => .separator
  | '-' :: '-' :: rest =>
      let name := String.ofList (rest.takeWhile (· ≠ '='))
      match rest.dropWhile (· ≠ '=') with
      | [] => .ofLong name none
      | _ :: value => .ofLong name (some (String.ofList value))
  | '-' :: c :: rest => .cluster (c :: rest)
  | _ => .plain

/-- The number a value stands for: an optional `+`, then decimal digits, below 2 ^ 64. -/
def stepNumber? (value : String) : Option Nat :=
  let digits :=
    match value.toList with
    | '+' :: rest => rest
    | cs => cs
  if digits ≠ [] ∧ digits.all Char.isDigit then
    let n := digits.foldl (fun n c => n * 10 + (c.toNat - '0'.toNat)) 0
    if n < UInt64.size then some n else none
  else none

namespace Arguments

/-- The number of positional words that are taken. -/
def maxPositional : Nat := 2

/-- Takes a positional word. -/
def addPositional (a : Arguments) (word : String) : Except Stop Arguments :=
  if a.positional.length < maxPositional then
    .ok { a with positional := a.positional ++ [word] }
  else .error .rejected

/-- Takes a flag. -/
def addFlag (a : Arguments) : Flag → Except Stop Arguments
  | .wide => if a.wide then .error .rejected else .ok { a with wide := true }
  | .scan => if a.scan then .error .rejected else .ok { a with scan := true }
  | .instructions =>
      if a.instructions then .error .rejected else .ok { a with instructions := true }
  | .verbose => .ok { a with verbosity := a.verbosity + 1 }
  | .help => .error .help
  | .version => .error .version

/-- Takes the flags of a cluster, one after the other. -/
def addFlags (a : Arguments) : List Char → Except Stop Arguments
  | [] => .ok a
  | c :: rest =>
      match Flag.ofShort? c with
      | none => .error .rejected
      | some flag =>
          match a.addFlag flag with
          | .ok a => addFlags a rest
          | .error stop => .error stop

/-- Takes the value of `--max-steps`. -/
def addMaxSteps (a : Arguments) (value : String) : Except Stop Arguments :=
  match a.maxSteps, stepNumber? value with
  | none, some n => .ok { a with maxSteps := some n }
  | _, _ => .error .rejected

/-- Takes a cluster.  If one of its characters is no short flag, the word is
    positional as long as positional words are still taken. -/
def addCluster (a : Arguments) (word : String) (names : List Char) : Except Stop Arguments :=
  if a.positional.length < maxPositional ∧ names.any (fun c => (Flag.ofShort? c).isNone) then
    a.addPositional word
  else a.addFlags names

/-- Takes the words after a lone `--`. -/
def addRest (a : Arguments) : List String → Except Stop Arguments
  | [] => .ok a
  | word :: rest =>
      match a.addPositional word with
      | .ok a => addRest a rest
      | .error stop => .error stop

/-- Takes the words of a command line, one after the other. -/
def addAll (a : Arguments) : List String → Except Stop Arguments
  | [] => .ok a
  | word :: rest =>
      match Word.ofString word with
      | .separator => a.addRest rest
      | .flagWithValue => .error .rejected
      | .maxSteps none =>
          match rest with
          | [] => .error .rejected
          | value :: rest =>
              match a.addMaxSteps value with
              | .ok a => addAll a rest
              | .error stop => .error stop
      | .maxSteps (some value) =>
          match a.addMaxSteps value with
          | .ok a => addAll a rest
          | .error stop => .error stop
      | .flag flag =>
          match a.addFlag flag with
          | .ok a => addAll a rest
          | .error stop => .error stop
      | .cluster names =>
          match a.addCluster word names with
          | .ok a => addAll a rest
          | .error stop => .error stop
      | .plain =>
          match a.addPositional word with
          | .ok a => addAll a rest
          | .error stop => .error stop

/-- What a command line asks for. -/
def ofWords? (words : List String) : Except Stop Arguments :=
  match addAll {} words with
  | .ok a => if a = {} then .error .rejected else .ok a
  | .error stop => .error stop

/-- The settings of the machine that is asked for. -/
def settings (a : Arguments) : Settings where
  cellMode := if a.wide then .wide else .byte
  matching := if a.scan then .scan else .table
  stepLimit := a.maxSteps

end Arguments

end TapeMachine.CommandLine
