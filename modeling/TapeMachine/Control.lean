import TapeMachine.Machine

/-! # Operating a machine by hand

    A machine can be stepped, run, looked at and changed between its steps.
    Each such operation is a command, a piece of data, so that a session with a
    machine is a list of commands.  `State.perform` carries out the commands
    that concern the state of the run alone, `Machine.perform` all of them. -/

namespace TapeMachine

/-- An operation on the state of a run. -/
inductive State.Command where
  | readCell
  | setCell (value : Int64)
  | addCell (delta : Int64)
  | moveRight
  | moveLeft
  | writeCell
  /-- Reaches for the tape directly. -/
  | access (access : Tape.Access)
  | setPc (pc : Nat)
  | setDataPtr (ptr : Nat)
  | setMode (mode : CellMode)
  | setOutput (text : String)
  /-- Takes a tape with nothing allocated. -/
  | clearTape
  /-- Starts over, in the same cell mode. -/
  | restart
  deriving DecidableEq, Repr

/-- What an operation on the state answers. -/
inductive State.Reply where
  | done
  | value (v : Int64)
  | char (c : Char)
  | fault (fault : Fault)
  deriving DecidableEq, Repr

/-- Carries out an operation on the state of a run. -/
def State.perform (s : State) : State.Command → State.Reply × State
  | .readCell =>
      let (v, s) := s.readCell
      (.value v, s)
  | .setCell v => (.done, s.setCell v)
  | .addCell delta =>
      let (v, s) := s.addCell delta
      (.value v, s)
  | .moveRight => (.done, s.moveRight)
  | .moveLeft =>
      match s.moveLeft with
      | .ok s => (.done, s)
      | .error fault => (.fault fault, s)
  | .writeCell =>
      match s.writeCell with
      | (.ok c, s) => (.char c, s)
      | (.error fault, s) => (.fault fault, s)
  | .access a =>
      let (v?, tape) := s.tape.access a
      (v?.elim .done .value, { s with tape := tape })
  | .setPc pc => (.done, { s with pc := pc })
  | .setDataPtr ptr => (.done, { s with dataPtr := ptr })
  | .setMode mode => (.done, { s with mode := mode })
  | .setOutput text => (.done, { s with output := text })
  | .clearTape => (.done, { s with tape := Tape.empty })
  | .restart => (.done, State.start s.mode)

/-- An operation on a machine. -/
inductive Machine.Command where
  /-- Operates on the state of the run. -/
  | state (command : State.Command)
  | step
  /-- Runs for up to `n` steps. -/
  | runFor (n : Nat)
  /-- Replaces the program and nothing else, unless its brackets do not match. -/
  | replaceProgram (text : String)
  deriving DecidableEq, Repr

/-- What an operation on a machine answers. -/
inductive Machine.Reply where
  | state (reply : State.Reply)
  | signal (signal : Signal)
  | run (status : RunStatus)
  | replaced
  | fault (fault : Fault)
  deriving DecidableEq, Repr

/-- Carries out an operation on a machine. -/
def Machine.perform (m : Machine) : Machine.Command → Machine.Reply × Machine
  | .state command =>
      let (reply, s) := m.state.perform command
      (.state reply, { m with state := s })
  | .step =>
      match m.step with
      | (.ok signal, m) => (.signal signal, m)
      | (.error fault, m) => (.fault fault, m)
  | .runFor n =>
      let (status, m) := m.runFor n
      (.run status, m)
  | .replaceProgram text =>
      match Program.ofText? text with
      | .ok program => (.replaced, { m with program := program })
      | .error fault => (.fault fault, m)

end TapeMachine
