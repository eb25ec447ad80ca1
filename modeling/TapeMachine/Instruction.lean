/-! # The instruction set

    Eight bytes of a program are instructions, every other byte is a comment.
    Each instruction has one ASCII symbol, a short name and a one-line
    description.  `byte` and `ofByte?` are inverse to each other
    (`ofByte?_eq_some_iff`), so a program byte decodes in at most one way. -/

namespace TapeMachine

/-- The eight instructions. -/
inductive Instruction where
  | moveRight
  | moveLeft
  | increment
  | decrement
  | output
  | input
  | loopOpen
  | loopClose
  deriving DecidableEq, Repr

namespace Instruction

/-- Every instruction, in the order of the printed table. -/
def all : List Instruction :=
  [moveRight, moveLeft, increment, decrement, output, input, loopOpen, loopClose]

/-- The program byte of an instruction. -/
def byte : Instruction → UInt8
  | moveRight => 0x3E
  | moveLeft => 0x3C
  | increment => 0x2B
  | decrement => 0x2D
  | output => 0x2E
  | input => 0x2C
  | loopOpen => 0x5B
  | loopClose => 0x5D

/-- The character an instruction is written as. -/
def symbol : Instruction → Char
  | moveRight => '>'
  | moveLeft => '<'
  | increment => '+'
  | decrement => '-'
  | output => '.'
  | input => ','
  | loopOpen => '['
  | loopClose => ']'

/-- The instruction a program byte stands for; `none` for a comment byte. -/
def ofByte? (b : UInt8) : Option Instruction :=
  match b with
  | 0x3E => some moveRight
  | 0x3C => some moveLeft
  | 0x2B => some increment
  | 0x2D => some decrement
  | 0x2E => some output
  | 0x2C => some input
  | 0x5B => some loopOpen
  | 0x5D => some loopClose
  | _ => none

/-- The instruction at a position of a program text; `none` for a comment byte and past the end. -/
def at? (code : Array UInt8) (pos : Nat) : Option Instruction :=
  code[pos]?.bind ofByte?

/-- The short name of an instruction. -/
def name : Instruction → String
  | moveRight => "incptr"
  | moveLeft => "decptr"
  | increment => "inccell"
  | decrement => "deccell"
  | output => "output"
  | input => "input"
  | loopOpen => "loopopen"
  | loopClose => "loopclose"

/-- What an instruction does, in one line. -/
def summary : Instruction → String
  | moveRight => "Move data pointer one cell to the right"
  | moveLeft => "Move data pointer one cell to the left. Fails on cell 0"
  | increment => "Increment current cell"
  | decrement => "Decrement current cell"
  | output => "Write current cell to output as a character"
  | input => "Read a character into current cell. Not yet functional"
  | loopOpen => "Jump past matching `]` if current cell is zero"
  | loopClose => "Jump back to matching `[` if current cell is nonzero"

/-- Whether an instruction is one of the two brackets. -/
def isBracket : Instruction → Bool
  | loopOpen | loopClose => true
  | _ => false

/-! ## Decoding -/

/-- The byte of an instruction is decoded as that instruction. -/
@[simp] theorem ofByte?_byte (i : Instruction) : ofByte? i.byte = some i := by
  cases i <;> rfl

/-- A byte decodes to an instruction exactly when it is that instruction's byte. -/
theorem ofByte?_eq_some_iff {b : UInt8} {i : Instruction} :
    ofByte? b = some i ↔ b = i.byte := by
  constructor
  · intro h
    unfold ofByte? at h
    split at h <;> cases h <;> rfl
  · rintro rfl
    exact ofByte?_byte i

/-- Symbols are the ASCII characters of the program bytes. -/
theorem symbol_toNat (i : Instruction) : i.symbol.toNat = i.byte.toNat := by
  cases i <;> rfl

/-- The list of all instructions is complete. -/
theorem mem_all (i : Instruction) : i ∈ all := by
  cases i <;> decide

end Instruction

end TapeMachine
