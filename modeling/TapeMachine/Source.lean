import TapeMachine.Machine
import TapeMachine.Text.Lines

/-! # Where programs come from

    A program is named by a source kind and an identifier: the identifier is
    either the program text itself or the path of a file that holds it.  A file
    is read whole, its lines are joined, and only then are its bytes decoded, so
    a character split by a line end is whole again. -/

namespace TapeMachine

/-- Gives the bytes of the file at a path. -/
abbrev FileReader := List UInt8 → Except ReadFailure (List UInt8)

/-- What an identifier stands for. -/
inductive SourceKind where
  /-- The program text itself. -/
  | text
  /-- The path of a file with the program. -/
  | file
  deriving DecidableEq, Repr, Inhabited

namespace SourceKind

/-- The word that selects a source kind. -/
def selector : SourceKind → String
  | text => "T"
  | file => "F"

/-- The source kind selected by a word. -/
def ofSelector? (word : String) : Except Fault SourceKind :=
  if word = text.selector then .ok text
  else if word = file.selector then .ok file
  else .error (.invalidSourceKind word)

end SourceKind

/-- The program text in the bytes of a file. -/
def textOfFile (contents : List UInt8) : String :=
  Utf8.decodeLossy (Text.joinLines contents)

/-- The program text in the file at `path`. -/
def readProgramText (read : FileReader) (path : List UInt8) : Except Fault String :=
  match read path with
  | .ok contents => .ok (textOfFile contents)
  | .error cause => .error (.fileLoad path cause)

/-- The program text an identifier stands for. -/
def SourceKind.loadText (read : FileReader) (kind : SourceKind) (identifier : String) :
    Except Fault String :=
  match kind with
  | text => .ok identifier
  | file => readProgramText read identifier.toUTF8.toList

namespace Machine

/-- A machine about to run the given program text. -/
def ofText? (settings : Settings) (text : String) : Except Fault Machine :=
  (Program.ofText? text).map fun program => load program settings

/-- A machine about to run the program an identifier stands for.  The selector
    is looked at first, then the text is loaded, then its brackets are
    matched. -/
def ofSource? (read : FileReader) (settings : Settings) (selector identifier : String) :
    Except Fault Machine :=
  match SourceKind.ofSelector? selector with
  | .error fault => .error fault
  | .ok kind =>
      match kind.loadText read identifier with
      | .error fault => .error fault
      | .ok text => ofText? settings text

end Machine

namespace SourceKind

/-! ## Selectors -/

/-- The selector of a source kind selects it. -/
@[simp] theorem ofSelector?_selector (kind : SourceKind) :
    ofSelector? kind.selector = .ok kind := by
  cases kind <;> rfl

/-- Only the two selectors name a source kind. -/
theorem ofSelector?_eq_ok_iff {word : String} {kind : SourceKind} :
    ofSelector? word = .ok kind ↔ word = kind.selector := by
  constructor
  · intro h
    unfold ofSelector? at h
    split at h
    · obtain rfl := Except.ok.inj h
      assumption
    · split at h
      · obtain rfl := Except.ok.inj h
        assumption
      · cases h
  · rintro rfl
    exact ofSelector?_selector kind

end SourceKind

end TapeMachine
