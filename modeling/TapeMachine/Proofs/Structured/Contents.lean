import Mathlib.Logic.Function.Basic
import TapeMachine.Proofs.Cell.Residue
import TapeMachine.Proofs.Machine.Faults
import TapeMachine.Proofs.Structured.Semantics

/-! # What a store shows

    To say what a program computes one would like to count, and not to think of
    words and of what is allocated.  `Contents` are a data pointer, a number in
    each cell and the codes of the characters written, all of them exact: nothing
    wraps, and instructions add and subtract (`Contents.act`).  A store `Shows`
    contents if each of its cells reads what the cell mode leaves of the number.

    A byte that is no bracket and no `,` does to the contents what it does to the
    store, or fails on both (`Store.Shows.act_cases`), and what it fails with can
    be told from the contents (`Contents.Stops`). -/

namespace TapeMachine

/-- A data pointer, a number in each cell, and the codes of what has been written. -/
structure Contents where
  ptr : Int
  cells : Int → Int
  codes : List Int

namespace Contents

/-- What a fresh store shows. -/
def empty : Contents where
  ptr := 0
  cells := fun _ => 0
  codes := []

/-- The number in the current cell. -/
def cell (c : Contents) : Int := c.cells c.ptr

/-- Moves the data pointer by `d`. -/
def move (c : Contents) (d : Int) : Contents := { c with ptr := c.ptr + d }

/-- Puts `n` into the current cell. -/
def put (c : Contents) (n : Int) : Contents :=
  { c with cells := Function.update c.cells c.ptr n }

/-- Adds `d` to the current cell. -/
def add (c : Contents) (d : Int) : Contents := c.put (c.cell + d)

/-- Writes the code `n`. -/
def write (c : Contents) (n : Int) : Contents := { c with codes := c.codes ++ [n] }

/-- What an instruction makes of the contents; a comment, or an instruction that is
    not done, makes nothing of them. -/
def act (mode : CellMode) (c : Contents) : Option Instruction → Contents
  | some .moveRight => c.move 1
  | some .moveLeft => c.move (-1)
  | some .increment => c.add 1
  | some .decrement => c.add (-1)
  | some .output => c.write (mode.reduce c.cell)
  | some .input | some .loopOpen | some .loopClose | none => c

/-- The faults of an instruction at `pos`: a `<` has one in cell 0, a `.` on a wide
    cell that is no character. -/
inductive Stops (mode : CellMode) (c : Contents) (pos : Nat) :
    Option Instruction → Fault → Prop where
  | underflow (zero : c.ptr = 0) :
      Stops mode c pos (some .moveLeft) (.dataPointerUnderflow pos)
  | invalid {v : Int64} (wide : mode = .wide) (value : v.toInt = mode.reduce c.cell)
      (no_character : ¬ IsScalarValue v.toInt) :
      Stops mode c pos (some .output) (.invalidCodePoint v pos)

/-- An instruction has one fault at most. -/
theorem Stops.unique {mode : CellMode} {c : Contents} {pos : Nat} {i? : Option Instruction}
    {f g : Fault} (hf : c.Stops mode pos i? f) (hg : c.Stops mode pos i? g) : f = g := by
  cases hf with
  | underflow zero =>
      cases hg with
      | underflow zero' => rfl
  | invalid wide value no_character =>
      cases hg with
      | invalid wide' value' no_character' =>
          rw [Int64.toInt_inj.mp (value.trans value'.symm)]

variable (c : Contents) (n m : Int)

@[simp] theorem cell_put : (c.put n).cell = n := Function.update_self ..

@[simp] theorem put_put : (c.put n).put m = c.put m := by
  simp only [put, Function.update_idem]

/-- To put back what is there changes nothing. -/
@[simp] theorem put_cell : c.put c.cell = c := by
  simp only [put, cell, Function.update_eq_self]

/-- To add to a number that has just been put is to put the sum. -/
@[simp] theorem add_put : (c.put n).add m = c.put (n + m) := by
  rw [add, cell_put, put_put]

/-- What is added one after the other is added up. -/
theorem add_add : (c.add n).add m = c.add (n + m) := by
  simp only [add, cell_put, put_put, Int.add_assoc]

@[simp] theorem add_zero : c.add 0 = c := by
  rw [add, Int.add_zero, put_cell]

end Contents

/-- The store shows the contents: the same data pointer, in each cell what the cell
    mode leaves of the number, and characters with the codes written. -/
structure Store.Shows (mode : CellMode) (s : Store) (c : Contents) : Prop where
  dataPtr_eq : (s.dataPtr : Int) = c.ptr
  cells_eq : ∀ i : Nat, (s.tape.get i).toInt = mode.reduce (c.cells i)
  codes_eq : s.output.toList.map (fun ch => (ch.toNat : Int)) = c.codes

namespace Store.Shows

variable {mode : CellMode} {s : Store} {c : Contents}

/-- A fresh store shows the empty contents. -/
theorem empty (mode : CellMode) : ({} : Store).Shows mode .empty where
  dataPtr_eq := rfl
  cells_eq := fun _ => mode.reduce_zero.symm
  codes_eq := rfl

/-- Numbers of which the same is left are shown alike. -/
theorem of_reduce_eq {n m : Int} (h : s.Shows mode (c.put n))
    (hn : mode.reduce n = mode.reduce m) : s.Shows mode (c.put m) where
  dataPtr_eq := h.dataPtr_eq
  cells_eq := by
    intro i
    rw [h.cells_eq]
    show mode.reduce (Function.update c.cells c.ptr n i)
      = mode.reduce (Function.update c.cells c.ptr m i)
    rw [Function.update_apply, Function.update_apply]
    split
    · exact hn
    · rfl
  codes_eq := h.codes_eq

variable (h : s.Shows mode c)
include h

/-- The current cell is what the cell mode leaves of the current number. -/
theorem cell_eq : s.cell.toInt = mode.reduce c.cell := by
  rw [Store.cell, h.cells_eq, h.dataPtr_eq, Contents.cell]

/-- A cell whose number is zero is zero. -/
theorem get_eq_zero {i : Nat} (hi : c.cells i = 0) : s.tape.get i = 0 := by
  rw [eq_zero_iff_toInt, h.cells_eq, hi, CellMode.reduce_zero]

/-- Nothing has been written if there are no codes. -/
theorem output_eq_empty (hcodes : c.codes = []) : s.output = "" := by
  have hmap := h.codes_eq
  rw [hcodes, List.map_eq_nil_iff] at hmap
  exact String.toList_eq_nil_iff.mp hmap

theorem touch : s.touch.Shows mode c where
  dataPtr_eq := h.dataPtr_eq
  cells_eq := by
    intro i
    show ((s.tape.touch s.dataPtr).get i).toInt = mode.reduce (c.cells i)
    rw [Tape.get_touch]
    exact h.cells_eq i
  codes_eq := h.codes_eq

/-- Adding a word to the cell adds its value to the number. -/
theorem add (w : Int64) : (s.put mode (s.cell + w)).Shows mode (c.add w.toInt) where
  dataPtr_eq := h.dataPtr_eq
  cells_eq := by
    intro i
    show ((s.tape.set s.dataPtr _).get i).toInt
      = mode.reduce (Function.update c.cells c.ptr (c.cell + w.toInt) i)
    rw [Tape.get_set, Function.update_apply, ← h.dataPtr_eq]
    simp only [Int.natCast_inj]
    split
    · exact CellMode.toInt_normalize_add h.cell_eq w
    · exact h.cells_eq i
  codes_eq := h.codes_eq

theorem write {ch : Char} (hch : mode.toChar? s.cell = some ch) :
    ({ s.touch with output := s.output.push ch } : Store).Shows mode
      (c.write (mode.reduce c.cell)) where
  dataPtr_eq := h.dataPtr_eq
  cells_eq := h.touch.cells_eq
  codes_eq := by
    have hcode : (ch.toNat : Int) = mode.reduce c.cell := by
      rw [toNat_of_scalar? hch, CellMode.toInt_normalize, h.cell_eq, CellMode.reduce_reduce]
    show (s.output.push ch).toList.map _ = c.codes ++ [mode.reduce c.cell]
    rw [String.toList_push, List.map_append, h.codes_eq, List.map_singleton, hcode]

/-- A byte stops, with the fault that the contents tell, or does to the contents
    what it does to the store. -/
theorem act_cases (pos : Nat) {b : UInt8} (no_input : Instruction.ofByte? b ≠ some .input) :
    (∃ f, c.Stops mode pos (Instruction.ofByte? b) f ∧ s.act mode pos b = .error f) ∨
    ((∀ f, ¬ c.Stops mode pos (Instruction.ofByte? b) f) ∧
      ∃ s', s.act mode pos b = .ok s' ∧ s'.Shows mode (c.act mode (Instruction.ofByte? b))) := by
  rw [Store.act]
  cases hi : Instruction.ofByte? b with
  | none => exact Or.inr ⟨nofun, s, rfl, h⟩
  | some i =>
      cases i with
      | moveRight =>
          refine Or.inr ⟨nofun, _, rfl, ?_, h.cells_eq, h.codes_eq⟩
          show ((s.dataPtr + 1 : Nat) : Int) = c.ptr + 1
          rw [Int.natCast_succ, h.dataPtr_eq]
      | moveLeft =>
          dsimp only
          by_cases h0 : s.dataPtr = 0
          · rw [if_pos h0]
            have hzero : c.ptr = 0 := by
              rw [← h.dataPtr_eq, h0]
              rfl
            exact Or.inl ⟨_, .underflow hzero, rfl⟩
          · rw [if_neg h0]
            have hptr := h.dataPtr_eq
            refine Or.inr ⟨?_, _, rfl, ?_, h.cells_eq, h.codes_eq⟩
            · rintro f ⟨zero⟩
              omega
            · show ((s.dataPtr - 1 : Nat) : Int) = c.ptr + -1
              omega
      | increment => exact Or.inr ⟨nofun, _, rfl, h.add 1⟩
      | decrement =>
          rw [Int64.sub_eq_add_neg]
          exact Or.inr ⟨nofun, _, rfl, h.add (-1)⟩
      | output =>
          dsimp only
          cases hch : mode.toChar? s.cell with
          | none =>
              obtain ⟨wide, no_character⟩ := CellMode.toChar?_eq_none_iff.mp hch
              exact Or.inl ⟨_, .invalid wide h.cell_eq no_character, rfl⟩
          | some ch =>
              refine Or.inr ⟨?_, _, rfl, h.write hch⟩
              rintro f (_ | ⟨wide, value, no_character⟩)
              -- a cell that is no character has none to be written
              rw [Int64.toInt_inj.mp (value.trans h.cell_eq.symm)] at no_character
              rw [CellMode.toChar?_eq_none_iff.mpr ⟨wide, no_character⟩] at hch
              cases hch
      | input => exact absurd hi no_input
      | loopOpen => exact Or.inr ⟨nofun, s, rfl, h⟩
      | loopClose => exact Or.inr ⟨nofun, s, rfl, h⟩

end Store.Shows

end TapeMachine
