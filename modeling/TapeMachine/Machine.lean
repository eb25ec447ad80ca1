import TapeMachine.Bracket.Search
import TapeMachine.Program
import TapeMachine.Settings
import TapeMachine.State

/-! # The machine

    A machine holds a program and the state of its run.  `step` carries out one
    byte of the program; `runFor` repeats it some number of times, `runToEnd?`
    until the run is over.  The machine halts after the last
    byte, not at a byte past it: a step that has carried out the last byte
    answers `halt`, or `wrote` if that byte wrote a character, and every later
    step answers `halt`.

    A step answers together with the machine it leaves, also when it fails.  Of
    the three things that can keep a step from being carried out, having halted
    comes first, an exhausted step limit second, the instruction's own fault
    last. -/

namespace TapeMachine

/-- A program in the course of being run. -/
structure Machine where
  program : Program
  state : State
  matching : Matching
  stepLimit : Option Nat
  /-- The bytes carried out so far. -/
  steps : Nat := 0
  /-- The rightmost cell moved to so far. -/
  maxDataPtr : Nat := 0
  halted : Bool := false

/-- What a step answers if it does not fail. -/
inductive Signal where
  /-- There is more to carry out. -/
  | proceed
  /-- The step wrote a character. -/
  | wrote (c : Char)
  /-- The machine has halted. -/
  | halt
  deriving DecidableEq, Repr

/-- How a run of limited length ends. -/
inductive RunStatus where
  /-- The run is not over. -/
  | running
  /-- The machine has halted. -/
  | finished
  /-- A step has failed. -/
  | failed (fault : Fault)
  deriving DecidableEq, Repr

namespace Machine

/-- A machine about to run a program. -/
def load (program : Program) (settings : Settings) : Machine where
  program := program
  state := State.start settings.cellMode
  matching := settings.matching
  stepLimit := settings.stepLimit

/-! ## One step -/

/-- The step limit, once it is used up. -/
def exhausted? (m : Machine) : Option Nat :=
  m.stepLimit.filter (· ≤ m.steps)

/-- The position of the bracket that belongs to `bracket` at the program counter. -/
def partner (m : Machine) (bracket : Instruction) : Except Fault Nat :=
  match m.matching, bracket with
  | .table, _ =>
      match m.program.table.partner? m.state.pc with
      | some target => .ok target
      | none =>
          .error (.programCounterOutOfRange (Bracket.signedPosition m.state.pc) m.program.size)
  | .scan, .loopOpen => Bracket.findClose m.program.code m.state.pc
  | .scan, _ => Bracket.findOpen m.program.code m.state.pc

/-- Moves the program counter to the partner of `bracket`. -/
def jump (m : Machine) (bracket : Instruction) : Except Fault (Option Char) × Machine :=
  match m.partner bracket with
  | .ok target => (.ok none, { m with state := { m.state with pc := target } })
  | .error fault => (.error fault, m)

/-- Carries out one instruction, or nothing for a comment byte.  The answer is
    the character written, if any. -/
def execute (m : Machine) : Option Instruction → Except Fault (Option Char) × Machine
  | none => (.ok none, m)
  | some .moveRight =>
      let s := m.state.moveRight
      (.ok none, { m with state := s, maxDataPtr := max m.maxDataPtr s.dataPtr })
  | some .moveLeft =>
      match m.state.moveLeft with
      | .ok s => (.ok none, { m with state := s })
      | .error fault => (.error fault, m)
  | some .increment => (.ok none, { m with state := (m.state.addCell 1).2 })
  | some .decrement => (.ok none, { m with state := (m.state.addCell (-1)).2 })
  | some .output =>
      match m.state.writeCell with
      | (.ok c, s) => (.ok (some c), { m with state := s })
      | (.error fault, s) => (.error fault, { m with state := s })
  | some .input =>
      (.error (.unimplementedInstruction Instruction.input.symbol m.state.pc), m)
  | some .loopOpen =>
      let (v, s) := m.state.readCell
      let m := { m with state := s }
      if v = 0 then m.jump .loopOpen else (.ok none, m)
  | some .loopClose =>
      let (v, s) := m.state.readCell
      let m := { m with state := s }
      if v ≠ 0 then m.jump .loopClose else (.ok none, m)

/-- Counts the byte just carried out and goes on to the next one, or halts if there is none. -/
def advance (m : Machine) (written : Option Char) : Signal × Machine :=
  if m.program.size ≤ m.state.pc + 1 then
    (written.elim .halt .wrote, { m with steps := m.steps + 1, halted := true })
  else
    (written.elim .proceed .wrote,
      { m with steps := m.steps + 1, state := { m.state with pc := m.state.pc + 1 } })

/-- Carries out the byte at the program counter. -/
def step (m : Machine) : Except Fault Signal × Machine :=
  if m.halted || m.program.isEmpty then (.ok .halt, { m with halted := true })
  else
    match m.exhausted? with
    | some limit => (.error (.stepLimitExceeded limit), m)
    | none =>
        match m.execute (m.program.instructionAt? m.state.pc) with
        | (.ok written, m) =>
            let (signal, m) := m.advance written
            (.ok signal, m)
        | (.error fault, m) => (.error fault, m)

/-! ## Runs -/

/-- Takes up to `n` steps, until one answers `halt` or fails. -/
def runFor : (n : Nat) → Machine → RunStatus × Machine
  | 0, m => (.running, m)
  | n + 1, m =>
      match m.step with
      | (.ok .halt, m) => (.finished, m)
      | (.ok _, m) => runFor n m
      | (.error fault, m) => (.failed fault, m)

/-- Takes steps until one answers `halt` or fails, however long that takes.  There is
    no answer if that never happens. -/
def runToEnd? (m : Machine) : Option (RunStatus × Machine) :=
  match m.step with
  | (.ok .halt, m) => some (.finished, m)
  | (.ok _, m) => m |>.runToEnd?
  | (.error fault, m) => some (.failed fault, m)
partial_fixpoint

end Machine

end TapeMachine
