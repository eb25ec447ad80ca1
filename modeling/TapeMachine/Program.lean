import TapeMachine.Bracket.Table

/-! # Programs

    A program is a text whose brackets match, kept as the bytes of its UTF-8
    form.  The jump table is made when the program is, so a program always has
    the table of its own text (`table_eq`). -/

namespace TapeMachine

/-- A program text together with its jump table. -/
structure Program where
  code : Array UInt8
  table : Bracket.Table
  table_eq : Bracket.Table.build code = .ok table

namespace Program

/-- The program with the given bytes, unless its brackets do not match. -/
def ofBytes? (code : Array UInt8) : Except Fault Program :=
  match h : Bracket.Table.build code with
  | .ok table => .ok ⟨code, table, h⟩
  | .error fault => .error fault

/-- The program with the given text, unless its brackets do not match. -/
def ofText? (text : String) : Except Fault Program :=
  ofBytes? text.toUTF8.data

/-- The length of a program in bytes. -/
def size (p : Program) : Nat := p.code.size

/-- Whether a program has no bytes at all. -/
def isEmpty (p : Program) : Bool := p.code.isEmpty

/-- The instruction at a position; `none` for a comment byte and past the end. -/
def instructionAt? (p : Program) (pos : Nat) : Option Instruction :=
  Instruction.at? p.code pos

/-- Every instruction with its position, in order. -/
def instructions (p : Program) : List (Nat × Instruction) :=
  p.code.toList.zipIdx.filterMap fun (b, pos) =>
    (Instruction.ofByte? b).map fun i => (pos, i)

/-! ## Making a program -/

/-- A program is determined by its text. -/
theorem ext_code {p q : Program} (h : p.code = q.code) : p = q := by
  obtain ⟨c, s, hs⟩ := p
  obtain ⟨d, t, ht⟩ := q
  obtain rfl : c = d := h
  obtain rfl : s = t := Except.ok.inj (hs.symm.trans ht)
  rfl

/-- A text is accepted exactly when its jump table can be built. -/
theorem ofBytes?_eq_ok_iff {code : Array UInt8} {p : Program} :
    ofBytes? code = .ok p ↔ p.code = code := by
  constructor
  · intro h
    unfold ofBytes? at h
    split at h
    · exact congrArg Program.code (Except.ok.inj h).symm
    · cases h
  · rintro rfl
    unfold ofBytes?
    split
    · exact congrArg Except.ok (ext_code rfl)
    · rename_i h
      rw [p.table_eq] at h
      cases h

/-- A text that is refused is refused by the fault of its jump table. -/
theorem ofBytes?_eq_error_iff {code : Array UInt8} {f : Fault} :
    ofBytes? code = .error f ↔ Bracket.Table.build code = .error f := by
  unfold ofBytes?
  split <;> rename_i h <;> simp [h]

end Program

end TapeMachine
