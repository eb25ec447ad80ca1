import TapeMachine.Proofs.Machine.Step

/-! # What a byte does

    A byte that is carried out acts on the state of the run and on the rightmost
    cell moved to, and its EFFECT depends on nothing else: not on the way of
    matching, not on the step limit, not on the steps counted so far.  `Effect`
    lists what there is, one constructor for each instruction and one for the
    comments.  Behind the instruction a step only counts and moves on
    (`advance`). -/

namespace TapeMachine

open TapeMachine.Bracket

/-- The effects of the byte at the program counter: the character written, the
    state left behind and the rightmost cell moved to, which was `far` before. -/
inductive Effect (p : Program) (s : State) (far : Nat) : Option Char → State → Nat → Prop where
  | comment (here : p.instructionAt? s.pc = none) : Effect p s far none s far
  | moveRight (here : p.instructionAt? s.pc = some .moveRight) :
      Effect p s far none { s with dataPtr := s.dataPtr + 1 } (max far (s.dataPtr + 1))
  | moveLeft {ptr : Nat} (here : p.instructionAt? s.pc = some .moveLeft)
      (above : s.dataPtr = ptr + 1) : Effect p s far none { s with dataPtr := ptr } far
  | increment (here : p.instructionAt? s.pc = some .increment) :
      Effect p s far none (s.addCell 1).2 far
  | decrement (here : p.instructionAt? s.pc = some .decrement) :
      Effect p s far none (s.addCell (-1)).2 far
  | output {c : Char} (here : p.instructionAt? s.pc = some .output)
      (char : s.mode.toChar? s.cell = some c) :
      Effect p s far (some c) { s.touchCell with output := s.output.push c } far
  | loopOpen {j : Nat} (here : p.instructionAt? s.pc = some .loopOpen)
      (pair : Matched p.code.toList s.pc j) :
      Effect p s far none { s.touchCell with pc := if s.cell = 0 then j else s.pc } far
  | loopClose {i : Nat} (here : p.instructionAt? s.pc = some .loopClose)
      (pair : Matched p.code.toList i s.pc) :
      Effect p s far none { s.touchCell with pc := if s.cell = 0 then s.pc else i } far

/-- The output grows by the character written, and by nothing else. -/
theorem Effect.output_eq {p : Program} {s s' : State} {far far' : Nat} {written : Option Char}
    (h : Effect p s far written s' far') :
    s'.output.toList = s.output.toList ++ written.toList := by
  cases h with
  | output here char => exact String.toList_push _
  | comment here => exact (List.append_nil _).symm
  | moveRight here => exact (List.append_nil _).symm
  | moveLeft here above => exact (List.append_nil _).symm
  | increment here => exact (List.append_nil _).symm
  | decrement here => exact (List.append_nil _).symm
  | loopOpen here pair => exact (List.append_nil _).symm
  | loopClose here pair => exact (List.append_nil _).symm

/-- No byte changes the cell mode. -/
theorem Effect.mode_eq {p : Program} {s s' : State} {far far' : Nat} {written : Option Char}
    (h : Effect p s far written s' far') : s'.mode = s.mode := by
  cases h with
  | comment here => rfl
  | moveRight here => rfl
  | moveLeft here above => rfl
  | increment here => rfl
  | decrement here => rfl
  | output here char => rfl
  | loopOpen here pair => rfl
  | loopClose here pair => rfl

namespace Machine

variable {m : Machine} {s : State} {far : Nat} {written : Option Char}

/-- A machine carries out a byte by its effect. -/
theorem execute_of_effect (h : Effect m.program m.state m.maxDataPtr written s far) :
    m.execute (m.program.instructionAt? m.state.pc)
      = (.ok written, { m with state := s, maxDataPtr := far }) := by
  cases h with
  | comment here => rw [here, execute]
  | moveRight here => rw [here, execute, State.moveRight]
  | moveLeft here above => rw [here, execute_moveLeft_of_succ above]
  | increment here => rw [here, execute]
  | decrement here => rw [here, execute]
  | output here char => rw [here, execute_output_of_some char]
  | loopOpen here pair => rw [here, execute_loopOpen pair]
  | loopClose here pair => rw [here, execute_loopClose pair]

/-! ## Behind the instruction -/

variable (m written)

@[simp] theorem advance_program : (m.advance written).2.program = m.program := by
  rw [advance]
  split
  · rfl
  · rfl

@[simp] theorem advance_stepLimit : (m.advance written).2.stepLimit = m.stepLimit := by
  rw [advance]
  split
  · rfl
  · rfl

@[simp] theorem advance_steps : (m.advance written).2.steps = m.steps + 1 := by
  rw [advance]
  split
  · rfl
  · rfl

@[simp] theorem advance_mode : (m.advance written).2.state.mode = m.state.mode := by
  rw [advance]
  split
  · rfl
  · rfl

@[simp] theorem advance_output : (m.advance written).2.state.output = m.state.output := by
  rw [advance]
  split
  · rfl
  · rfl

@[simp] theorem advance_tape : (m.advance written).2.state.tape = m.state.tape := by
  rw [advance]
  split
  · rfl
  · rfl

/-- A step answers with the character it has written, if there is one. -/
theorem advance_signal : (m.advance written).1 =
    written.elim (if m.program.size ≤ m.state.pc + 1 then .halt else .proceed) .wrote := by
  rw [advance]
  split
  · rfl
  · rfl

variable {m written}

/-- On the last byte of the program the machine halts. -/
theorem advance_of_last (h : m.program.size ≤ m.state.pc + 1) :
    (m.advance written).2 = { m with steps := m.steps + 1, halted := true } := by
  rw [advance, if_pos h]

/-- In front of another byte it goes on to that. -/
theorem advance_of_more (h : ¬ m.program.size ≤ m.state.pc + 1) :
    (m.advance written).2 = { m with
      steps := m.steps + 1
      state := { m.state with pc := m.state.pc + 1 } } := by
  rw [advance, if_neg h]

/-- Two machines, one of them the `f` of the other, go on alike if they come to
    their last byte together and `f` does not interfere. -/
theorem advance_congr {k : Machine} {f : Machine → Machine} (written : Option Char)
    (hlast : k.program.size ≤ k.state.pc + 1 ↔ m.program.size ≤ m.state.pc + 1)
    (hhalt : { k with steps := k.steps + 1, halted := true }
      = f { m with steps := m.steps + 1, halted := true })
    (hmore : { k with steps := k.steps + 1, state := { k.state with pc := k.state.pc + 1 } }
      = f { m with steps := m.steps + 1, state := { m.state with pc := m.state.pc + 1 } }) :
    k.advance written = ((m.advance written).1, f (m.advance written).2) := by
  refine Prod.ext ?_ ?_
  · rw [advance_signal, advance_signal, if_congr hlast rfl rfl]
  · by_cases h : m.program.size ≤ m.state.pc + 1
    · rw [advance_of_last h, advance_of_last (hlast.mpr h), hhalt]
    · rw [advance_of_more h, advance_of_more (mt hlast.mp h), hmore]

/-- The answer `halt` is the answer of a machine that has halted. -/
theorem halted_of_advance_halt (h : (m.advance written).1 = .halt) :
    (m.advance written).2.halted = true := by
  rw [advance] at h ⊢
  split
  · rfl
  · -- with a byte to come the answer is `proceed` or a character
    rename_i hmore
    rw [if_neg hmore] at h
    cases written with
    | none => cases h
    | some c => cases h

/-- A step is what the byte does and then moving on. -/
theorem Ready.step_of_advance {k k' : Machine} {signal : Signal} (hr : m.Ready)
    (hx : m.execute (m.program.instructionAt? m.state.pc) = (.ok written, k))
    (hk : k.advance written = (signal, k')) : m.step = (.ok signal, k') := by
  rw [hr.step_of_ok hx, hk]

/-- A byte with an effect is carried out with that effect. -/
theorem Ready.step_of_effect (hr : m.Ready)
    (h : Effect m.program m.state m.maxDataPtr written s far) :
    m.step = (.ok (({ m with state := s, maxDataPtr := far } : Machine).advance written).1,
      (({ m with state := s, maxDataPtr := far } : Machine).advance written).2) :=
  hr.step_of_ok (execute_of_effect h)

end Machine

end TapeMachine
