import TapeMachine.Cell
import TapeMachine.Tape

/-! # Cells modulo 256

    A byte cell keeps of a word its remainder modulo 256.  Remainders add up:
    a sum that wraps at 64 bits has the remainder of the exact sum, since 256
    divides 2 ^ 64 (`toInt_add_emod`).  A byte cell is written as the character
    whose code is the remainder (`toChar?_byte`), a wide cell as the character
    whose code is the cell itself (`toNat_of_toChar?_wide`).

    `CellMode.reduce` is what is left of an exact number in either mode.  It does
    not matter how often a sum is reduced on the way (`toInt_normalize_add`). -/

namespace TapeMachine

/-- Wrapping at 64 bits changes no remainder modulo 256. -/
theorem bmod_size_emod (n : Int) : n.bmod Int64.size % 256 = n % 256 := by
  have hdvd : (256 : Int) ∣ (Int64.size : Nat) := by decide
  rw [← Int.emod_emod_of_dvd _ hdvd, Int.bmod_emod, Int.emod_emod_of_dvd _ hdvd]

/-- The sum of two words may wrap, but not modulo 256. -/
theorem toInt_add_emod (v w : Int64) : (v + w).toInt % 256 = (v.toInt + w.toInt) % 256 := by
  rw [Int64.toInt_add]
  exact bmod_size_emod _

/-- A word with the value zero is zero. -/
theorem eq_zero_iff_toInt {v : Int64} : v = 0 ↔ v.toInt = 0 := by
  rw [← Int64.toInt_inj]
  rfl

/-! ## Characters -/

/-- A character that is made of a number has it for its code. -/
theorem toNat_of_scalar? {n : Int} {c : Char} (h : scalar? n = some c) : (c.toNat : Int) = n := by
  rw [scalar?] at h
  split at h
  · rename_i hn
    obtain rfl := Option.some.inj h
    have hcode : (Char.ofNat n.toNat).toNat = n.toNat := by
      rw [Char.ofNat, dif_pos hn.2]
      rfl
    rw [hcode]
    exact Int.toNat_of_nonneg hn.1
  · cases h

/-- Every code below 256 is the code of a character. -/
theorem exists_scalar? {n : Int} (h0 : 0 ≤ n) (h : n < 256) : ∃ c, scalar? n = some c := by
  have hvalid : 0 ≤ n ∧ n.toNat.isValidChar := by
    refine ⟨h0, Or.inl ?_⟩
    omega
  exact ⟨_, if_pos hvalid⟩

namespace CellMode

/-- A byte cell always is a character: that of its remainder. -/
theorem toChar?_byte (v : Int64) :
    ∃ c, byte.toChar? v = some c ∧ (c.toNat : Int) = v.toInt % 256 := by
  obtain ⟨h0, h⟩ := normalize_byte_bounds v
  obtain ⟨c, hc⟩ := exists_scalar? h0 h
  refine ⟨c, hc, ?_⟩
  rw [toNat_of_scalar? hc, toInt_normalize_byte]

/-- The code of a wide cell that is a character is its value. -/
theorem toNat_of_toChar?_wide {v : Int64} {c : Char} (h : wide.toChar? v = some c) :
    (c.toNat : Int) = v.toInt :=
  toNat_of_scalar? h

/-- A value that is a byte already is not reduced. -/
theorem normalize_byte_of_range {v : Int64} (h : 0 ≤ v.toInt ∧ v.toInt ≤ 255) :
    byte.normalize v = v := by
  rw [← Int64.toInt_inj, toInt_normalize_byte]
  omega

/-- In the range of a byte the two cell modes write the same. -/
theorem toChar?_byte_of_range {v : Int64} (h : 0 ≤ v.toInt ∧ v.toInt ≤ 255) :
    byte.toChar? v = wide.toChar? v := by
  rw [toChar?, toChar?, normalize_byte_of_range h, normalize_wide]

/-! ## Exact numbers -/

/-- What a cell keeps of an exact number: its remainder modulo 256, or the signed
    64-bit word that it wraps to. -/
def reduce : CellMode → Int → Int
  | byte, n => n % 256
  | wide, n => n.bmod Int64.size

/-- A normalized word is what a cell keeps of its value. -/
theorem toInt_normalize (mode : CellMode) (v : Int64) :
    (mode.normalize v).toInt = mode.reduce v.toInt := by
  cases mode with
  | byte => exact toInt_normalize_byte v
  | wide => exact (Int64.toInt_bmod v).symm

/-- Reducing a number before something is added to it changes nothing. -/
theorem reduce_add (mode : CellMode) (n d : Int) :
    mode.reduce (mode.reduce n + d) = mode.reduce (n + d) := by
  cases mode with
  | byte => exact Int.emod_add_emod n 256 d
  | wide => exact Int.bmod_add_bmod

@[simp] theorem reduce_reduce (mode : CellMode) (n : Int) :
    mode.reduce (mode.reduce n) = mode.reduce n := by
  have h := mode.reduce_add n 0
  rw [Int.add_zero, Int.add_zero] at h
  exact h

@[simp] theorem reduce_zero (mode : CellMode) : mode.reduce 0 = 0 := by
  cases mode <;> rfl

/-- What a cell can hold is kept as it is. -/
theorem reduce_toInt {mode : CellMode} {v : Int64}
    (h : mode = .byte → 0 ≤ v.toInt ∧ v.toInt ≤ 255) : mode.reduce v.toInt = v.toInt := by
  cases mode with
  | byte =>
      obtain ⟨h0, h255⟩ := h rfl
      exact Int.emod_eq_of_lt h0 (by omega)
  | wide => exact Int64.toInt_bmod v

/-- A cell with what is left of `n`, and `w` added to it, has what is left of the sum. -/
theorem toInt_normalize_add {mode : CellMode} {v : Int64} {n : Int}
    (h : v.toInt = mode.reduce n) (w : Int64) :
    (mode.normalize (v + w)).toInt = mode.reduce (n + w.toInt) := by
  rw [← reduce_add, ← h]
  cases mode with
  | byte => exact (toInt_normalize_byte _).trans (toInt_add_emod v w)
  | wide => exact Int64.toInt_add v w

/-- The numbers from zero up to a number that a cell can hold are kept as they are. -/
theorem reduce_of_le {mode : CellMode} {n k m : Int} (h : mode.reduce n = m) (h0 : 0 ≤ k)
    (hk : k ≤ m) : mode.reduce k = k := by
  cases mode with
  | byte =>
      have hm : n % 256 = m := h
      exact Int.emod_eq_of_lt h0 (by omega)
  | wide =>
      have hm : n.bmod Int64.size = m := h
      have hlt : n.bmod Int64.size < ((Int64.size : Nat) + 1 : Int) / 2 :=
        Int.bmod_lt (by decide)
      have hsize : ((Int64.size : Nat) : Int) = 18446744073709551616 := rfl
      exact Int.bmod_eq_of_le (by omega) (by omega)

/-- One less than a number that a cell can hold is what a `-` leaves of it. -/
theorem toInt_normalize_sub_one {mode : CellMode} {v : Int64} {n : Nat}
    (hv : v.toInt = (n + 1 : Nat)) (kept : mode.reduce (n + 1 : Nat) = (n + 1 : Nat)) :
    (mode.normalize (v - 1)).toInt = n := by
  have hless : ((n + 1 : Nat) : Int) + (-1 : Int64).toInt = n := by
    show ((n + 1 : Nat) : Int) + -1 = n
    omega
  rw [Int64.sub_eq_add_neg, toInt_normalize_add (hv.trans kept.symm), hless]
  exact reduce_of_le kept (Int.natCast_nonneg n) (by omega)

end CellMode

/-! ## Tapes of bytes -/

/-- Every cell of the tape is a byte. -/
def Tape.InByteRange (t : Tape) : Prop :=
  ∀ i, 0 ≤ (t.get i).toInt ∧ (t.get i).toInt ≤ 255

/-- It is enough to look at the allocated cells. -/
theorem Tape.inByteRange_iff {t : Tape} : t.InByteRange ↔
    (t.cells.toList.all fun v => 0 ≤ v.toInt ∧ v.toInt ≤ 255) = true := by
  rw [List.all_eq_true]
  simp only [decide_eq_true_iff, Array.mem_toList_iff]
  constructor
  · intro h v hv
    obtain ⟨i, hi, rfl⟩ := Array.mem_iff_getElem.mp hv
    have hget := h i
    rw [get, Array.getElem?_eq_getElem hi] at hget
    exact hget
  · intro h i
    rw [get]
    cases hi : t.cells[i]? with
    | none => exact ⟨Int.le_refl 0, by decide⟩
    | some v => exact h v (Array.mem_of_getElem? hi)

instance (t : Tape) : Decidable t.InByteRange := decidable_of_iff' _ Tape.inByteRange_iff

end TapeMachine
