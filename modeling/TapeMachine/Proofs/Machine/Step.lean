import TapeMachine.Machine
import TapeMachine.Proofs.Bracket.SearchPartner
import TapeMachine.Proofs.Bracket.TablePairs

/-! # One step, case by case

    The equations that stand for `partner`, `execute` and `step` from here on.
    A program is a balanced text, so each of its brackets is one end of a
    matched pair and the two ways of finding the other end agree: the equations
    at a bracket name that end and do not mention how it is found. -/

namespace TapeMachine

open TapeMachine.Bracket

/-! ## Programs -/

namespace Program

/-- The text of a program is balanced. -/
theorem balanced (p : Program) : Balanced p.code.toList :=
  (Table.build_eq_ok p.table_eq).1

/-- The table of a program holds the matched pairs of its text. -/
theorem pairsOf_table (p : Program) : p.table.PairsOf p.code.toList :=
  (Table.build_eq_ok p.table_eq).2

/-- The bytes of an accepted text are the bytes of its program. -/
theorem ofText?_eq_ok_iff {p : Program} {text : String} :
    ofText? text = .ok p ↔ p.code = text.toUTF8.data :=
  ofBytes?_eq_ok_iff

/-- A balanced text is accepted. -/
theorem exists_ofText? {text : String} (h : Balanced text.toUTF8.data.toList) :
    ∃ p, ofText? text = .ok p ∧ p.code.toList = text.toUTF8.data.toList := by
  obtain ⟨table, htable⟩ := Table.build_of_balanced h
  exact ⟨⟨_, table, htable⟩, ofText?_eq_ok_iff.mpr rfl, rfl⟩

/-- The instruction at a position is that of its byte. -/
theorem instructionAt?_of_getElem? {p : Program} {pos : Nat} {b : UInt8}
    (h : p.code.toList[pos]? = some b) : p.instructionAt? pos = Instruction.ofByte? b := by
  rw [Array.getElem?_toList] at h
  rw [instructionAt?, Instruction.at?, h]
  rfl

/-- An instruction is decoded exactly where its byte stands. -/
theorem instructionAt?_eq_some_iff {p : Program} {pos : Nat} {i : Instruction} :
    p.instructionAt? pos = some i ↔ p.code[pos]? = some i.byte := by
  rw [instructionAt?, Instruction.at?, Option.bind_eq_some_iff]
  constructor
  · rintro ⟨b, hb, hi⟩
    rw [hb, Instruction.ofByte?_eq_some_iff.mp hi]
  · intro h
    exact ⟨i.byte, h, Instruction.ofByte?_byte i⟩

/-- Every `[` of a program has its `]`. -/
theorem exists_close_of_loopOpen {p : Program} {pos : Nat}
    (h : p.instructionAt? pos = some .loopOpen) : ∃ j, Matched p.code.toList pos j := by
  refine p.balanced.exists_matched_open ?_
  rw [Array.getElem?_toList]
  exact instructionAt?_eq_some_iff.mp h

theorem exists_open_of_loopClose {p : Program} {pos : Nat}
    (h : p.instructionAt? pos = some .loopClose) : ∃ i, Matched p.code.toList i pos := by
  refine p.balanced.exists_matched_close ?_
  rw [Array.getElem?_toList]
  exact instructionAt?_eq_some_iff.mp h

end Program

namespace Machine

/-! ## The partner of a bracket -/

/-- Both ways of matching take a `[` to the `]` of its pair. -/
theorem partner_loopOpen {m : Machine} {j : Nat}
    (h : Matched m.program.code.toList m.state.pc j) : m.partner .loopOpen = .ok j := by
  cases hm : m.matching with
  | table =>
      have hj := (m.program.pairsOf_table.partner?_eq_iff _ _).mpr (Or.inl h)
      simp only [partner, hm, hj]
  | scan =>
      simp only [partner, hm, findClose_of_matched h]

/-- Both ways of matching take a `]` to the `[` of its pair. -/
theorem partner_loopClose {m : Machine} {i : Nat}
    (h : Matched m.program.code.toList i m.state.pc) : m.partner .loopClose = .ok i := by
  cases hm : m.matching with
  | table =>
      have hi := (m.program.pairsOf_table.partner?_eq_iff _ _).mpr (Or.inr h)
      simp only [partner, hm, hi]
  | scan =>
      simp only [partner, hm, findOpen_of_matched h]

/-- A jump that has a target goes there. -/
theorem jump_of_partner {m : Machine} {bracket : Instruction} {target : Nat}
    (h : m.partner bracket = .ok target) :
    m.jump bracket = (.ok none, { m with state := { m.state with pc := target } }) := by
  simp only [jump, h]

/-! ## The instructions -/

/-- A `[` reads the cell and goes to its `]` if that is zero. -/
theorem execute_loopOpen {m : Machine} {j : Nat}
    (h : Matched m.program.code.toList m.state.pc j) :
    m.execute (some .loopOpen) = (.ok none, { m with state := { m.state.touchCell with
      pc := if m.state.cell = 0 then j else m.state.pc } }) := by
  simp only [execute, State.readCell_eq]
  by_cases h0 : m.state.cell = 0
  · rw [if_pos h0, if_pos h0]
    exact jump_of_partner (partner_loopOpen (m := { m with state := m.state.touchCell }) h)
  · rw [if_neg h0, if_neg h0]
    rfl

/-- A `]` reads the cell and goes back to its `[` unless that is zero. -/
theorem execute_loopClose {m : Machine} {i : Nat}
    (h : Matched m.program.code.toList i m.state.pc) :
    m.execute (some .loopClose) = (.ok none, { m with state := { m.state.touchCell with
      pc := if m.state.cell = 0 then m.state.pc else i } }) := by
  simp only [execute, State.readCell_eq]
  by_cases h0 : m.state.cell = 0
  · rw [if_neg (not_not.mpr h0), if_pos h0]
    rfl
  · rw [if_pos h0, if_neg h0]
    exact jump_of_partner (partner_loopClose (m := { m with state := m.state.touchCell }) h)

/-- A `.` writes the character of the cell. -/
theorem execute_output_of_some {m : Machine} {c : Char}
    (h : m.state.mode.toChar? m.state.cell = some c) :
    m.execute (some .output) = (.ok (some c), { m with state :=
      { m.state.touchCell with output := m.state.output.push c } }) := by
  simp only [execute, State.writeCell_of_some h]

theorem execute_output_of_none {m : Machine}
    (h : m.state.mode.toChar? m.state.cell = none) :
    m.execute (some .output) = (.error (.invalidCodePoint m.state.cell m.state.pc), m) := by
  simp only [execute, State.writeCell_of_none h]

theorem execute_moveLeft_of_zero {m : Machine} (h : m.state.dataPtr = 0) :
    m.execute (some .moveLeft) = (.error (.dataPointerUnderflow m.state.pc), m) := by
  simp only [execute, State.moveLeft, h]

/-- A `<` at any other cell moves the data pointer back by one. -/
theorem execute_moveLeft_of_succ {m : Machine} {ptr : Nat} (h : m.state.dataPtr = ptr + 1) :
    m.execute (some .moveLeft)
      = (.ok none, { m with state := { m.state with dataPtr := ptr } }) := by
  simp only [execute, State.moveLeft, h]

/-! ## The step around the instruction -/

theorem isEmpty_eq_false_iff {p : Program} : p.isEmpty = false ↔ 0 < p.size := by
  rw [Program.isEmpty, Program.size, Array.isEmpty_eq_false_iff, Array.size_pos_iff]

/-- A machine that is about to carry out a byte. -/
structure Ready (m : Machine) : Prop where
  not_halted : m.halted = false
  not_empty : 0 < m.program.size
  not_exhausted : m.exhausted? = none

/-- A machine is done if it has halted or there is nothing to run. -/
theorem isDone_eq_true_iff {m : Machine} :
    (m.halted || m.program.isEmpty) = true ↔ m.halted = true ∨ m.program.size = 0 := by
  rw [Bool.or_eq_true, Program.isEmpty, Program.size, Array.isEmpty_iff_size_eq_zero]

/-- A machine that is done halts. -/
theorem step_of_done {m : Machine} (h : m.halted = true ∨ m.program.size = 0) :
    m.step = (.ok .halt, { m with halted := true }) := by
  rw [step, if_pos (isDone_eq_true_iff.mpr h)]

/-- A machine that has reached its limit fails, and is left as it is. -/
theorem step_of_exhausted {m : Machine} {limit : Nat} (hh : m.halted = false)
    (he : 0 < m.program.size) (hx : m.exhausted? = some limit) :
    m.step = (.error (.stepLimitExceeded limit), m) := by
  rw [step, hh, isEmpty_eq_false_iff.mpr he, hx]
  rfl

/-- If the byte is carried out, the step moves on from what that leaves. -/
theorem Ready.step_of_ok {m m' : Machine} {written : Option Char} (h : m.Ready)
    (hx : m.execute (m.program.instructionAt? m.state.pc) = (.ok written, m')) :
    m.step = (.ok (m'.advance written).1, (m'.advance written).2) := by
  rw [step, h.not_halted, isEmpty_eq_false_iff.mpr h.not_empty, h.not_exhausted]
  dsimp only
  rw [hx]
  rfl

/-- If the byte fails, so does the step. -/
theorem Ready.step_of_error {m m' : Machine} {f : Fault} (h : m.Ready)
    (hx : m.execute (m.program.instructionAt? m.state.pc) = (.error f, m')) :
    m.step = (.error f, m') := by
  rw [step, h.not_halted, isEmpty_eq_false_iff.mpr h.not_empty, h.not_exhausted]
  dsimp only
  rw [hx]
  rfl

/-- Before its step a machine is done, out of steps, or ready. -/
theorem done_or_exhausted_or_ready (m : Machine) :
    (m.halted = true ∨ m.program.size = 0) ∨
    (m.halted = false ∧ 0 < m.program.size ∧ ∃ limit, m.exhausted? = some limit) ∨
    m.Ready := by
  by_cases hd : m.halted = true ∨ m.program.size = 0
  · exact Or.inl hd
  · have hh : m.halted = false := by
      rw [← Bool.not_eq_true]
      exact fun h => hd (Or.inl h)
    have he : 0 < m.program.size := Nat.pos_of_ne_zero (fun h => hd (Or.inr h))
    cases hx : m.exhausted? with
    | none => exact Or.inr (Or.inr ⟨hh, he, hx⟩)
    | some limit => exact Or.inr (Or.inl ⟨hh, he, limit, rfl⟩)

theorem exhausted?_of_unlimited {m : Machine} (h : m.stepLimit = none) : m.exhausted? = none := by
  rw [exhausted?, h]
  rfl

/-- What a machine that is about to carry out a byte has in common with others. -/
theorem Ready.of_same {m k : Machine} (h : m.Ready) (halted_eq : k.halted = m.halted)
    (program_eq : k.program = m.program) (stepLimit_eq : k.stepLimit = m.stepLimit)
    (steps_eq : k.steps = m.steps) : k.Ready where
  not_halted := halted_eq.trans h.not_halted
  not_empty := by
    rw [program_eq]
    exact h.not_empty
  not_exhausted := by
    rw [exhausted?, stepLimit_eq, steps_eq]
    exact h.not_exhausted

/-- The limit has been reached exactly if as many steps have been counted. -/
theorem exhausted?_eq_some_iff {m : Machine} {limit : Nat} :
    m.exhausted? = some limit ↔ m.stepLimit = some limit ∧ limit ≤ m.steps := by
  rw [exhausted?, Option.filter_eq_some_iff, decide_eq_true_iff]

end Machine

end TapeMachine
