import TapeMachine.Cell

/-! # Settings of a machine

    What is fixed when a machine is made: how cells are reduced, how a taken
    bracket finds its partner, and after how many steps a run is cut off. -/

namespace TapeMachine

/-- How a taken bracket finds its partner. -/
inductive Matching where
  /-- By a table made when the program was loaded. -/
  | table
  /-- By searching the program text anew at every jump. -/
  | scan
  deriving DecidableEq, Repr, Inhabited

/-- The settings of a machine: byte cells, table matching and no step limit,
    unless said otherwise. -/
structure Settings where
  cellMode : CellMode := .byte
  matching : Matching := .table
  stepLimit : Option Nat := none
  deriving DecidableEq, Repr, Inhabited

/-- A change of one setting. -/
inductive Settings.Change where
  | cellMode (mode : CellMode)
  | matching (matching : Matching)
  | stepLimit (limit : Nat)
  deriving DecidableEq, Repr

/-- Applies one change. -/
def Settings.change (s : Settings) : Settings.Change → Settings
  | .cellMode mode => { s with cellMode := mode }
  | .matching matching => { s with matching := matching }
  | .stepLimit limit => { s with stepLimit := some limit }

end TapeMachine
