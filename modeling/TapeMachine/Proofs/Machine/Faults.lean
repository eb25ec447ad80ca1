import TapeMachine.Proofs.Machine.Effect

/-! # What can go wrong in a step

    Three instructions have a fault of their own: `<` at cell 0, `,` always, and
    `.` on a cell that is no character (`InstructionFault`).  Nothing else can
    keep a byte from being carried out but the step limit, which is looked at
    first (`step_faults_exactly`): a jump never fails, for every bracket of a
    program has a partner, wherever the program counter has been moved to.

    A step that fails leaves the machine as it was (`step_eq_of_error`).  A `.`
    reads its cell, and so allocates it, before it can fail; but a cell that has
    only just been allocated is zero, and zero is a character. -/

namespace TapeMachine

/-! ## Characters -/

/-- The Unicode scalar values: the code points without the surrogates. -/
def IsScalarValue (n : Int) : Prop :=
  (0 ≤ n ∧ n < 0xD800) ∨ (0xDFFF < n ∧ n < 0x110000)

instance (n : Int) : Decidable (IsScalarValue n) := inferInstanceAs (Decidable (_ ∨ _))

/-- A number is no character exactly if it is no scalar value. -/
theorem scalar?_eq_none_iff {n : Int} : scalar? n = none ↔ ¬ IsScalarValue n := by
  have hvalid : (0 ≤ n ∧ n.toNat.isValidChar) ↔ IsScalarValue n := by
    simp only [IsScalarValue, Nat.isValidChar]
    omega
  rw [scalar?, ← hvalid]
  split
  · rename_i h
    simp [h]
  · rename_i h
    simp [h]

/-- Every byte cell is a character; a wide cell is one if its value is. -/
theorem CellMode.toChar?_eq_none_iff {mode : CellMode} {v : Int64} :
    mode.toChar? v = none ↔ mode = .wide ∧ ¬ IsScalarValue v.toInt := by
  rw [toChar?, scalar?_eq_none_iff]
  cases mode with
  | byte =>
      have hb := normalize_byte_bounds v
      have hs : IsScalarValue (byte.normalize v).toInt := Or.inl ⟨hb.1, by omega⟩
      exact ⟨fun h => absurd hs h, fun h => nomatch h.1⟩
  | wide => exact ⟨fun h => ⟨rfl, h⟩, fun h => h.2⟩

namespace Machine

/-! ## The instruction at the program counter -/

/-- The faults of the instruction at the program counter. -/
inductive InstructionFault (m : Machine) : Fault → Prop where
  | underflow : m.program.code[m.state.pc]? = some Instruction.moveLeft.byte →
      m.state.dataPtr = 0 → InstructionFault m (.dataPointerUnderflow m.state.pc)
  | unimplemented : m.program.code[m.state.pc]? = some Instruction.input.byte →
      InstructionFault m (.unimplementedInstruction ',' m.state.pc)
  | invalid : m.program.code[m.state.pc]? = some Instruction.output.byte →
      m.state.mode = .wide → ¬ IsScalarValue m.state.cell.toInt →
      InstructionFault m (.invalidCodePoint m.state.cell m.state.pc)

/-- An instruction with a fault fails with it, and leaves the machine as it is. -/
theorem execute_of_fault {m : Machine} {f : Fault} (h : m.InstructionFault f) :
    m.execute (m.program.instructionAt? m.state.pc) = (.error f, m) := by
  cases h with
  | underflow hb h0 =>
      rw [Program.instructionAt?_eq_some_iff.mpr hb]
      exact execute_moveLeft_of_zero h0
  | unimplemented hb =>
      rw [Program.instructionAt?_eq_some_iff.mpr hb]
      rfl
  | invalid hb hw hs =>
      rw [Program.instructionAt?_eq_some_iff.mpr hb]
      exact execute_output_of_none (CellMode.toChar?_eq_none_iff.mpr ⟨hw, hs⟩)

/-- A byte has an effect, or it fails with one of its faults. -/
theorem exists_effect_or_fault (m : Machine) :
    (∃ written s far, Effect m.program m.state m.maxDataPtr written s far) ∨
      ∃ f, m.InstructionFault f := by
  cases hi : m.program.instructionAt? m.state.pc with
  | none => exact Or.inl ⟨_, _, _, .comment hi⟩
  | some i =>
      have hb := Program.instructionAt?_eq_some_iff.mp hi
      cases i with
      | moveRight => exact Or.inl ⟨_, _, _, .moveRight hi⟩
      | increment => exact Or.inl ⟨_, _, _, .increment hi⟩
      | decrement => exact Or.inl ⟨_, _, _, .decrement hi⟩
      | moveLeft =>
          cases hp : m.state.dataPtr with
          | zero => exact Or.inr ⟨_, .underflow hb hp⟩
          | succ ptr => exact Or.inl ⟨_, _, _, .moveLeft hi hp⟩
      | output =>
          cases hc : m.state.mode.toChar? m.state.cell with
          | none =>
              obtain ⟨hw, hs⟩ := CellMode.toChar?_eq_none_iff.mp hc
              exact Or.inr ⟨_, .invalid hb hw hs⟩
          | some c => exact Or.inl ⟨_, _, _, .output hi hc⟩
      | input => exact Or.inr ⟨_, .unimplemented hb⟩
      -- a jump does not fail, wherever the program counter has been moved to
      | loopOpen =>
          obtain ⟨j, hj⟩ := Program.exists_close_of_loopOpen hi
          exact Or.inl ⟨_, _, _, .loopOpen hi hj⟩
      | loopClose =>
          obtain ⟨j, hj⟩ := Program.exists_open_of_loopClose hi
          exact Or.inl ⟨_, _, _, .loopClose hi hj⟩

/-- The byte at the program counter fails exactly with the faults of its instruction. -/
theorem execute_error_iff {m : Machine} {f : Fault} :
    (m.execute (m.program.instructionAt? m.state.pc)).1 = .error f ↔ m.InstructionFault f := by
  constructor
  · intro h
    rcases m.exists_effect_or_fault with ⟨written, s, far, he⟩ | ⟨g, hg⟩
    · rw [execute_of_effect he] at h
      cases h
    · rw [execute_of_fault hg] at h
      cases h
      exact hg
  · intro h
    rw [execute_of_fault h]

/-- The faults of an instruction depend on the program and the state alone. -/
theorem InstructionFault.of_same {m k : Machine} {f : Fault} (hp : k.program = m.program)
    (hs : k.state = m.state) (h : m.InstructionFault f) : k.InstructionFault f := by
  cases h with
  | underflow hb h0 =>
      rw [← hp, ← hs] at hb
      rw [← hs] at h0 ⊢
      exact .underflow hb h0
  | unimplemented hb =>
      rw [← hp, ← hs] at hb
      rw [← hs]
      exact .unimplemented hb
  | invalid hb hw hn =>
      rw [← hp, ← hs] at hb
      rw [← hs] at hw hn ⊢
      exact .invalid hb hw hn

/-- Machines with the same program, state and rightmost cell carry out their
    byte alike, or fail alike. -/
theorem execute_of_same {m k : Machine} (hp : k.program = m.program) (hs : k.state = m.state)
    (hd : k.maxDataPtr = m.maxDataPtr) :
    (∃ written s far,
      m.execute (m.program.instructionAt? m.state.pc)
        = (.ok written, { m with state := s, maxDataPtr := far }) ∧
      k.execute (k.program.instructionAt? k.state.pc)
        = (.ok written, { k with state := s, maxDataPtr := far })) ∨
    ∃ f, m.execute (m.program.instructionAt? m.state.pc) = (.error f, m) ∧
      k.execute (k.program.instructionAt? k.state.pc) = (.error f, k) := by
  rcases m.exists_effect_or_fault with ⟨written, s, far, h⟩ | ⟨f, h⟩
  · have hk := h
    rw [← hp, ← hs, ← hd] at hk
    exact Or.inl ⟨written, s, far, execute_of_effect h, execute_of_effect hk⟩
  · exact Or.inr ⟨f, execute_of_fault h, execute_of_fault (h.of_same hp hs)⟩

/-! ## The step -/

/-- The limit lets a step through as long as it has not been reached. -/
theorem exhausted?_eq_none_iff {m : Machine} :
    m.exhausted? = none ↔ ∀ limit, m.stepLimit = some limit → m.steps < limit := by
  rw [exhausted?, Option.filter_eq_none_iff]
  simp

/-- A ready machine carries out its byte, or it fails with a fault of that byte. -/
theorem Ready.step_error_iff {m : Machine} {f : Fault} (h : m.Ready) :
    m.step.1 = .error f ↔ m.InstructionFault f := by
  rw [← execute_error_iff]
  cases hx : m.execute (m.program.instructionAt? m.state.pc) with
  | mk answer m' =>
      cases answer with
      | ok written => simp [h.step_of_ok hx]
      | error g => simp [h.step_of_error hx]

/-- A step fails exactly if there is something to run and the limit, or else the
    instruction, fails; the limit comes first. -/
theorem step_error_iff {m : Machine} {f : Fault} :
    m.step.1 = .error f ↔ m.halted = false ∧ 0 < m.program.size ∧
      ((∃ limit, m.exhausted? = some limit ∧ f = .stepLimitExceeded limit) ∨
        (m.exhausted? = none ∧ m.InstructionFault f)) := by
  rcases m.done_or_exhausted_or_ready with hd | ⟨hh, he, limit, hx⟩ | hr
  · rw [step_of_done hd]
    constructor
    · intro h
      cases h
    · rintro ⟨hh, he, -⟩
      rcases hd with hd | hd
      · rw [hd] at hh
        cases hh
      · omega
  · rw [step_of_exhausted hh he hx, hx]
    simp [hh, he, eq_comm]
  · rw [hr.step_error_iff, hr.not_exhausted]
    simp [hr.not_halted, hr.not_empty]

/-- A failing step leaves the machine as it was. -/
theorem step_eq_of_error {m : Machine} {f : Fault} (h : m.step.1 = .error f) :
    m.step = (.error f, m) := by
  obtain ⟨hh, he, ⟨limit, hx, rfl⟩ | ⟨hx, hf⟩⟩ := step_error_iff.mp h
  · exact step_of_exhausted hh he hx
  · exact Ready.step_of_error ⟨hh, he, hx⟩ (execute_of_fault hf)

/-- A step finds the machine done, or fails and leaves it as it was, or carries out a byte. -/
theorem step_cases (m : Machine) :
    ((m.halted = true ∨ m.program.size = 0) ∧ m.step = (.ok .halt, { m with halted := true })) ∨
    (∃ f, m.step = (.error f, m)) ∨
    ∃ written s far, m.Ready ∧ Effect m.program m.state m.maxDataPtr written s far ∧
      m.step = (.ok (({ m with state := s, maxDataPtr := far } : Machine).advance written).1,
        (({ m with state := s, maxDataPtr := far } : Machine).advance written).2) := by
  rcases m.done_or_exhausted_or_ready with hd | ⟨hh, he, limit, hx⟩ | hr
  · exact Or.inl ⟨hd, step_of_done hd⟩
  · exact Or.inr (Or.inl ⟨_, step_of_exhausted hh he hx⟩)
  · rcases m.exists_effect_or_fault with ⟨written, s, far, h⟩ | ⟨f, h⟩
    · exact Or.inr (Or.inr ⟨written, s, far, hr, h, hr.step_of_effect h⟩)
    · exact Or.inr (Or.inl ⟨f, hr.step_of_error (execute_of_fault h)⟩)

/-- **The faults of a step.**  A step fails exactly if the machine has not
    halted, the program is not empty, and the step limit is used up or, that
    not being so, the instruction at the program counter has a fault.  No
    bracket is ever searched for in vain or from outside the program. -/
theorem step_faults_exactly (m : Machine) :
    (∀ f, m.step.1 = .error f ↔ m.halted = false ∧ m.program.code ≠ #[] ∧
      ((∃ limit, m.stepLimit = some limit ∧ limit ≤ m.steps ∧ f = .stepLimitExceeded limit) ∨
        ((∀ limit, m.stepLimit = some limit → m.steps < limit) ∧ m.InstructionFault f))) ∧
    (∀ position len, m.step.1 ≠ .error (.programCounterOutOfRange position len)) ∧
    (∀ start len, m.step.1 ≠ .error (.searchOutsideProgram start len)) := by
  refine ⟨?_, ?_, ?_⟩
  · intro f
    have hne : m.program.code ≠ #[] ↔ 0 < m.program.size := by
      rw [Program.size, Array.size_pos_iff]
    rw [step_error_iff, hne, exhausted?_eq_none_iff]
    simp only [exhausted?_eq_some_iff, and_assoc]
  · intro position len h
    obtain ⟨-, -, ⟨limit, -, hf⟩ | ⟨-, hf⟩⟩ := step_error_iff.mp h
    · cases hf
    · cases hf
  · intro start len h
    obtain ⟨-, -, ⟨limit, -, hf⟩ | ⟨-, hf⟩⟩ := step_error_iff.mp h
    · cases hf
    · cases hf

end Machine

end TapeMachine
