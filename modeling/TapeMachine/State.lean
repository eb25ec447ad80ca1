import TapeMachine.Cell
import TapeMachine.Fault
import TapeMachine.Tape

/-! # The state of a run

    What the instructions of a program act on: the tape, the data pointer, the
    program counter, the output so far and the cell mode.

    Every access to the current cell, a read included, allocates the tape up to
    the data pointer; moving the pointer does not. -/

namespace TapeMachine

/-- The state of a run. -/
structure State where
  tape : Tape := {}
  dataPtr : Nat := 0
  pc : Nat := 0
  output : String := ""
  mode : CellMode := .byte
  deriving DecidableEq, Repr, Inhabited

namespace State

/-- The state a run starts in. -/
def start (mode : CellMode) : State := { mode := mode }

/-- The value of the current cell. -/
def cell (s : State) : Int64 := s.tape.get s.dataPtr

/-- Allocates the tape up to the current cell. -/
def touchCell (s : State) : State :=
  { s with tape := s.tape.touch s.dataPtr }

/-- Reads the current cell. -/
def readCell (s : State) : Int64 × State :=
  let s := s.touchCell
  (s.cell, s)

/-- Stores `v`, reduced, in the current cell. -/
def setCell (s : State) (v : Int64) : State :=
  { s with tape := s.tape.set s.dataPtr (s.mode.normalize v) }

/-- Adds `delta` to the current cell, wrapping at 64 bits before the sum is
    reduced.  The answer is the new value. -/
def addCell (s : State) (delta : Int64) : Int64 × State :=
  let v := s.mode.normalize (s.cell + delta)
  (v, { s with tape := s.tape.set s.dataPtr v })

/-- Moves the data pointer one cell to the right. -/
def moveRight (s : State) : State :=
  { s with dataPtr := s.dataPtr + 1 }

/-- Moves the data pointer one cell to the left; from cell 0 it cannot. -/
def moveLeft (s : State) : Except Fault State :=
  match s.dataPtr with
  | 0 => .error (.dataPointerUnderflow s.pc)
  | ptr + 1 => .ok { s with dataPtr := ptr }

/-- Writes the current cell to the output.  A cell that is no character is a
    fault; it has been read, and so allocated, all the same. -/
def writeCell (s : State) : Except Fault Char × State :=
  let (v, s) := s.readCell
  match s.mode.toChar? v with
  | some c => (.ok c, { s with output := s.output.push c })
  | none => (.error (.invalidCodePoint v s.pc), s)

/-! ## What the operations answer -/

@[simp] theorem cell_touchCell (s : State) : s.touchCell.cell = s.cell :=
  Tape.get_touch s.tape s.dataPtr s.dataPtr

/-- Reading a cell that is not zero changes nothing. -/
theorem touchCell_of_ne_zero {s : State} (h : s.cell ≠ 0) : s.touchCell = s := by
  rw [touchCell, Tape.touch_of_lt (Tape.lt_size_of_get_ne_zero h)]

/-- A read gives the current cell, and allocates it. -/
theorem readCell_eq (s : State) : s.readCell = (s.cell, s.touchCell) := by
  rw [readCell, cell_touchCell]

theorem writeCell_of_some {s : State} {c : Char} (h : s.mode.toChar? s.cell = some c) :
    s.writeCell = (.ok c, { s.touchCell with output := s.output.push c }) := by
  rw [writeCell, readCell_eq]
  dsimp only
  rw [show s.touchCell.mode = s.mode from rfl, h]
  rfl

/-- A cell that is no character is not zero, so the failing write has changed nothing. -/
theorem writeCell_of_none {s : State} (h : s.mode.toChar? s.cell = none) :
    s.writeCell = (.error (.invalidCodePoint s.cell s.pc), s) := by
  have hne : s.cell ≠ 0 := by
    intro h0
    rw [h0, CellMode.toChar?_zero] at h
    cases h
  rw [writeCell, readCell_eq, touchCell_of_ne_zero hne]
  dsimp only
  rw [h]

end State

end TapeMachine
