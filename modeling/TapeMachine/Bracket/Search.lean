import TapeMachine.Fault
import TapeMachine.Instruction

/-! # Bracket matching by search

    Finds a bracket's partner by walking the text away from it.  The walk counts
    the pairs it is inside of (`depth`) and stops at the first bracket that
    leaves none.  The byte at the start is not looked at: a search may begin
    anywhere.

    A search that leaves the text fails: with position -1 at the front; at the
    back with the position it stopped at, which is the length of the text, or
    just past the start if that lies further out. -/

namespace TapeMachine.Bracket

/-- The first `]` among the last `n` bytes of `code` that closes more than these
    bytes have opened, when `depth` pairs are open before them. -/
def closeAmong (code : Array UInt8) : (depth n : Nat) → Option Nat
  | _, 0 => none
  | depth, n + 1 =>
      match Instruction.at? code (code.size - (n + 1)) with
      | some .loopOpen => closeAmong code (depth + 1) n
      | some .loopClose =>
          match depth with
          | 0 => some (code.size - (n + 1))
          | depth + 1 => closeAmong code depth n
      | _ => closeAmong code depth n

/-- The last `[` among the first `n` bytes of `code` that opens more than these
    bytes close, when `depth` pairs are open after them. -/
def openAmong (code : Array UInt8) : (depth n : Nat) → Option Nat
  | _, 0 => none
  | depth, n + 1 =>
      match Instruction.at? code n with
      | some .loopClose => openAmong code (depth + 1) n
      | some .loopOpen =>
          match depth with
          | 0 => some n
          | depth + 1 => openAmong code depth n
      | _ => openAmong code depth n

/-- A position as the signed 64-bit word in which a fault reports it. -/
def signedPosition (pos : Nat) : Int := Int.bmod pos UInt64.size

/-- The position of the `]` that closes the pair around or opened at `start`. -/
def findClose (code : Array UInt8) (start : Nat) : Except Fault Nat :=
  match closeAmong code 0 (code.size - (start + 1)) with
  | some pos => .ok pos
  | none =>
      .error (.programCounterOutOfRange (signedPosition (max code.size (start + 1))) code.size)

/-- The position of the `[` that opens the pair around or closed at `start`.
    The start may lie at the end of the text, not past it. -/
def findOpen (code : Array UInt8) (start : Nat) : Except Fault Nat :=
  if start ≤ code.size then
    match openAmong code 0 start with
    | some pos => .ok pos
    | none => .error (.programCounterOutOfRange (-1) code.size)
  else .error (.searchOutsideProgram start code.size)

/-! ## Reported positions -/

/-- A position in the lower half of the words is reported as it is. -/
theorem signedPosition_of_lt {pos : Nat} (h : 2 * pos < UInt64.size) :
    signedPosition pos = pos := by
  have hsize : ((UInt64.size : Nat) : Int) = 18446744073709551616 := rfl
  refine Int.bmod_eq_of_le ?_ ?_
  · omega
  · omega

end TapeMachine.Bracket
