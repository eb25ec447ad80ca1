/-! # Cells

    A cell is a 64-bit signed word.  In `byte` mode a stored word is reduced to
    `0 … 255`; in `wide` mode it is kept as it is.  A cell is written as the
    character whose code point is its reduced value, if there is one. -/

namespace TapeMachine

/-- How cells are reduced when stored and when written. -/
inductive CellMode where
  | byte
  | wide
  deriving DecidableEq, Repr, Inhabited

/-- The character with code point `n`, if `n` is a Unicode scalar value. -/
def scalar? (n : Int) : Option Char :=
  if 0 ≤ n ∧ n.toNat.isValidChar then some (Char.ofNat n.toNat) else none

namespace CellMode

/-- The word kept in a cell when `v` is stored: the nonnegative remainder
    modulo 256 in `byte` mode, `v` itself in `wide` mode. -/
def normalize : CellMode → Int64 → Int64
  | byte, v => Int64.ofInt (v.toInt % 256)
  | wide, v => v

/-- The character a cell with value `v` is written as. -/
def toChar? (mode : CellMode) (v : Int64) : Option Char :=
  scalar? (mode.normalize v).toInt

/-! ## Reduction -/

@[simp] theorem normalize_wide (v : Int64) : wide.normalize v = v := rfl

/-- The reduced value, as an integer. -/
theorem toInt_normalize_byte (v : Int64) :
    (byte.normalize v).toInt = v.toInt % 256 := by
  have h0 := Int.emod_nonneg v.toInt (b := 256) (by decide)
  have h1 := Int.emod_lt_of_pos v.toInt (b := 256) (by decide)
  have hsize : ((Int64.size : Nat) : Int) = 18446744073709551616 := rfl
  rw [normalize, Int64.toInt_ofInt, Int.bmod_eq_of_le (by omega) (by omega)]

/-- A byte cell lies in `0 … 255`. -/
theorem normalize_byte_bounds (v : Int64) :
    0 ≤ (byte.normalize v).toInt ∧ (byte.normalize v).toInt < 256 := by
  rw [toInt_normalize_byte]
  exact ⟨Int.emod_nonneg _ (by decide), Int.emod_lt_of_pos _ (by decide)⟩

/-- Zero is a character in either mode. -/
@[simp] theorem toChar?_zero (mode : CellMode) : mode.toChar? 0 = some '\x00' := by
  cases mode <;> rfl

end CellMode

end TapeMachine
