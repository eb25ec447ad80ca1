import TapeMachine.Proofs.Machine.ControlFlow

/-! # A program inside another one

    The text of a program may stand in a longer text, `offset` bytes from its
    beginning (`Program.StandsIn`).  Brackets that match in it match there too,
    at their new positions, so a byte has the same effect in both places
    (`Effect.shift`) and the same faults, but for the position that they report
    (`InstructionFault.placed`).

    A machine may therefore be `placed` in the longer program, with its program
    counter moved on, and steps there as it does by itself
    (`step_placed_cases`).  What differs is the end: the last byte of a program
    halts the machine, and if something stands behind it in the longer one, the
    machine there goes on instead: it is `resumed`.  If nothing does, the runs
    are the same in both places (`iterate_placed_of_end`). -/

namespace TapeMachine

open TapeMachine.Bracket

/-! ## Positions in faults -/

/-- A fault of a step, with the position it reports translated. -/
def Fault.relocate (g : Nat → Nat) : Fault → Fault
  | .unimplementedInstruction symbol position => .unimplementedInstruction symbol (g position)
  | .dataPointerUnderflow position => .dataPointerUnderflow (g position)
  | .invalidCodePoint value position => .invalidCodePoint value (g position)
  | f => f

/-- The end of a run, with the position it reports translated. -/
def RunStatus.relocate (g : Nat → Nat) : RunStatus → RunStatus
  | .failed f => .failed (f.relocate g)
  | status => status

/-- A translated run has finished exactly if the run has. -/
theorem RunStatus.relocate_eq_finished_iff {g : Nat → Nat} {status : RunStatus} :
    .finished = status.relocate g ↔ status = .finished := by
  cases status with
  | running => simp [relocate]
  | finished => simp [relocate]
  | failed f => simp [relocate]

/-- A translated run has failed exactly if the run has, with the fault translated. -/
theorem RunStatus.relocate_eq_failed_iff {g : Nat → Nat} {status : RunStatus} {f : Fault} :
    .failed f = status.relocate g ↔ ∃ f₀, status = .failed f₀ ∧ f = f₀.relocate g := by
  cases status with
  | running => simp [relocate]
  | finished => simp [relocate]
  | failed f₀ => simp [relocate]

theorem Fault.relocate_id (f : Fault) : f.relocate id = f := by
  cases f <;> rfl

/-! ## A text inside a text -/

namespace Program

/-- The text of `p` is a part of the text of `w`, `offset` bytes from its beginning. -/
def StandsIn (p w : Program) (offset : Nat) : Prop :=
  ∃ before behind, w.code.toList = before ++ (p.code.toList ++ behind) ∧ before.length = offset

namespace StandsIn

variable {p w : Program} {offset : Nat} (h : p.StandsIn w offset)
include h

theorem size_le : p.size + offset ≤ w.size := by
  obtain ⟨before, behind, hw, rfl⟩ := h
  rw [size, size, ← Array.length_toList, ← Array.length_toList, hw, List.length_append,
    List.length_append]
  omega

/-- The bytes of the shorter text, where they stand in the longer one. -/
theorem code_at {pos : Nat} (hpos : pos < p.size) : w.code[pos + offset]? = p.code[pos]? := by
  obtain ⟨before, behind, hw, rfl⟩ := h
  have hlt : pos < p.code.toList.length := hpos
  rw [← Array.getElem?_toList, hw, List.getElem?_append_right (Nat.le_add_left _ _),
    Nat.add_sub_cancel, List.getElem?_append_left hlt, Array.getElem?_toList]

theorem instructionAt? {pos : Nat} (hpos : pos < p.size) :
    w.instructionAt? (pos + offset) = p.instructionAt? pos := by
  rw [Program.instructionAt?, Instruction.at?, h.code_at hpos]
  rfl

theorem matched {i j : Nat} (hpair : Matched p.code.toList i j) :
    Matched w.code.toList (i + offset) (j + offset) := by
  obtain ⟨before, behind, hw, rfl⟩ := h
  rw [hw]
  exact hpair.within before behind

end StandsIn

end Program

/-! ## What a byte does there -/

/-- The state with its program counter moved on. -/
def State.shift (s : State) (offset : Nat) : State := { s with pc := s.pc + offset }

/-- A byte has the same effect in both places. -/
theorem Effect.shift {p w : Program} {offset : Nat} (hw : p.StandsIn w offset) {s s' : State}
    {far far' : Nat} {written : Option Char} (h : Effect p s far written s' far')
    (hpc : s.pc < p.size) :
    Effect w (s.shift offset) far written (s'.shift offset) far' := by
  have there := hw.instructionAt? hpc
  cases h with
  | comment here => exact .comment (there.trans here)
  | moveRight here => exact .moveRight (there.trans here)
  | moveLeft here above => exact .moveLeft (s := s.shift offset) (there.trans here) above
  | increment here => exact .increment (there.trans here)
  | decrement here => exact .decrement (there.trans here)
  | output here char => exact .output (s := s.shift offset) (there.trans here) char
  | @loopOpen j here pair =>
      show Effect w (s.shift offset) far none
        { s.touchCell with pc := (if s.cell = 0 then j else s.pc) + offset } far
      rw [ite_add]
      exact .loopOpen (s := s.shift offset) (there.trans here) (hw.matched pair)
  | @loopClose i here pair =>
      show Effect w (s.shift offset) far none
        { s.touchCell with pc := (if s.cell = 0 then s.pc else i) + offset } far
      rw [ite_add]
      exact .loopClose (s := s.shift offset) (there.trans here) (hw.matched pair)

/-- What a step answers if the run is to go on. -/
def Signal.resumed : Signal → Signal
  | .halt => .proceed
  | signal => signal

/-- An answer that does not end the run is the same if the run is to go on. -/
theorem Signal.map_resumed {answer : Except Fault Signal} (h : Machine.endOf answer = none) :
    answer.map resumed = answer := by
  cases answer with
  | error f => rfl
  | ok signal =>
      cases signal with
      | proceed => rfl
      | wrote c => rfl
      | halt => cases h

namespace Machine

/-- The machine in the midst of the program `w`: there it has come `offset` bytes
    further, and has taken `taken` steps more. -/
def placed (m : Machine) (w : Program) (offset taken : Nat) : Machine :=
  { m with
    program := w
    state := m.state.shift offset
    steps := m.steps + taken }

variable {m : Machine} {w : Program} {offset : Nat}

/-- A byte that fails in one place fails in both, each time at its own position. -/
theorem InstructionFault.placed {f : Fault} (hw : m.program.StandsIn w offset)
    (hpc : m.state.pc < m.program.size) (h : m.InstructionFault f) (taken : Nat) :
    (m.placed w offset taken).InstructionFault (f.relocate (· + offset)) := by
  have there := hw.code_at hpc
  cases h with
  | underflow hb h0 => exact .underflow (m := m.placed w offset taken) (there.trans hb) h0
  | unimplemented hb => exact .unimplemented (m := m.placed w offset taken) (there.trans hb)
  | invalid hb hmode hn =>
      exact .invalid (m := m.placed w offset taken) (there.trans hb) hmode hn

/-! ## A step there -/

/-- A machine steps in both places alike: its byte fails in both, or it does not,
    and both are about to count it and to go on. -/
theorem step_placed_cases (hw : m.program.StandsIn w offset) (hlimit : m.stepLimit = none)
    (hh : m.halted = false) (hpc : m.state.pc < m.program.size) (taken : Nat) :
    (∃ f, m.step = (.error f, m) ∧ (m.placed w offset taken).step
        = (.error (f.relocate (· + offset)), m.placed w offset taken)) ∨
    ∃ (written : Option Char) (k : Machine), k.program = m.program ∧
      k.halted = false ∧ k.state.pc < k.program.size ∧
      m.step = (.ok (k.advance written).1, (k.advance written).2) ∧
      (m.placed w offset taken).step = (.ok ((k.placed w offset taken).advance written).1,
        ((k.placed w offset taken).advance written).2) := by
  have hsize : 0 < m.program.size := Nat.zero_lt_of_lt hpc
  have hsize' : 0 < w.size := Nat.lt_of_lt_of_le (Nat.add_pos_left hsize offset) hw.size_le
  have hr : m.Ready := ⟨hh, hsize, exhausted?_of_unlimited hlimit⟩
  have hr' : (m.placed w offset taken).Ready := ⟨hh, hsize', exhausted?_of_unlimited hlimit⟩
  rcases m.exists_effect_or_fault with ⟨written, s, far, heffect⟩ | ⟨f, hf⟩
  · exact Or.inr ⟨written, { m with state := s, maxDataPtr := far }, rfl, hh,
      (heffect.lands hpc).1, hr.step_of_effect heffect, hr'.step_of_effect (heffect.shift hw hpc)⟩
  · exact Or.inl ⟨f, hr.step_of_error (execute_of_fault hf),
      hr'.step_of_error (execute_of_fault (hf.placed hw hpc taken))⟩

/-! ## At the end of the longer program -/

/-- If nothing stands behind the program in the longer one, the machines move on alike. -/
theorem advance_placed_of_end (hend : m.program.size + offset = w.size) (taken : Nat)
    (written : Option Char) :
    (m.placed w offset taken).advance written
      = ((m.advance written).1, (m.advance written).2.placed w offset taken) := by
  refine advance_congr (f := fun k => k.placed w offset taken) written ?_ ?_ ?_
  · show w.size ≤ m.state.pc + offset + 1 ↔ m.program.size ≤ m.state.pc + 1
    omega
  · simp only [placed, Nat.add_right_comm]
  · simp only [placed, State.shift, Nat.add_right_comm]

/-- If the longer program ends with the other one, a step is the same in both places. -/
theorem step_placed_of_end (hw : m.program.StandsIn w offset)
    (hend : m.program.size + offset = w.size) (hlimit : m.stepLimit = none)
    (hpc : m.state.pc < m.program.size) (taken : Nat) :
    (m.placed w offset taken).step = (m.step.1.mapError (Fault.relocate (· + offset)),
      m.next.placed w offset taken) := by
  rw [next]
  cases hh : m.halted with
  | true =>
      rw [step_of_halted hh]
      exact step_of_halted hh
  | false =>
      rcases step_placed_cases hw hlimit hh hpc taken with
        ⟨f, hs, hs'⟩ | ⟨written, k, hprogram, -, -, hs, hs'⟩
      · rw [hs, hs']
        rfl
      · rw [hs, hs', advance_placed_of_end (hprogram ▸ hend)]
        rfl

section Run

variable (hw : m.program.StandsIn w offset) (hend : m.program.size + offset = w.size)
  (hlimit : m.stepLimit = none) (hm : m.InControl)
include hw hend hlimit hm

/-- So is each step of a run, if control never leads out of the program. -/
theorem step_iterate_placed_of_end (taken n : Nat) :
    ((next^[n] m).placed w offset taken).step
      = ((next^[n] m).step.1.mapError (Fault.relocate (· + offset)),
        (next^[n] m).next.placed w offset taken) := by
  refine step_placed_of_end ?_ ?_ ?_ (hm.iterate n).inside taken
  · rwa [iterate_program]
  · rwa [iterate_program]
  · rwa [iterate_stepLimit]

/-- So is the whole run. -/
theorem iterate_placed_of_end (taken n : Nat) :
    next^[n] (m.placed w offset taken) = (next^[n] m).placed w offset taken := by
  induction n with
  | zero => rfl
  | succ n ih =>
      rw [Function.iterate_succ_apply', Function.iterate_succ_apply', ih, next,
        step_iterate_placed_of_end hw hend hlimit hm taken n]

end Run

/-! ## Before the end of the longer program -/

/-- The machine, on its way to the next byte if it had halted. -/
def resumed (m : Machine) : Machine :=
  if m.halted then { m with state := m.state.shift 1, halted := false } else m

theorem resumed_of_halted (h : m.halted = true) :
    m.resumed = { m with state := m.state.shift 1, halted := false } :=
  if_pos h

theorem resumed_of_running (h : m.halted = false) : m.resumed = m :=
  if_neg (Bool.eq_false_iff.mp h)

/-- If something stands behind the program in the longer one, the machine there goes on
    where the other halts. -/
theorem advance_placed_of_more (hh : m.halted = false) (hpc : m.state.pc < m.program.size)
    (hmore : m.program.size + offset < w.size) (taken : Nat) (written : Option Char) :
    (m.placed w offset taken).advance written = ((m.advance written).1.resumed,
      ((m.advance written).2.placed w offset taken).resumed) := by
  -- the last byte of the one program is not the last byte of the other
  have hmore' : ¬ (m.placed w offset taken).program.size
      ≤ (m.placed w offset taken).state.pc + 1 := by
    show ¬ w.size ≤ m.state.pc + offset + 1
    omega
  refine Prod.ext ?_ ?_
  · rw [advance_signal, advance_signal, if_neg hmore']
    cases written with
    | some c => rfl
    | none =>
        show Signal.proceed = Signal.resumed (if _ then _ else _)
        split
        · rfl
        · rfl
  · show ((m.placed w offset taken).advance written).2
      = ((m.advance written).2.placed w offset taken).resumed
    rw [advance_of_more hmore']
    by_cases hlast : m.program.size ≤ m.state.pc + 1
    · rw [advance_of_last hlast, resumed_of_halted]
      · simp only [placed, State.shift, hh, Nat.add_right_comm]
      · rfl
    · rw [advance_of_more hlast, resumed_of_running]
      · simp only [placed, State.shift, Nat.add_right_comm]
      · exact hh

/-- If something stands behind the program in the longer one, the machine there
    steps alike, but goes on where the other halts. -/
theorem step_placed_of_more (hw : m.program.StandsIn w offset)
    (hmore : m.program.size + offset < w.size) (hlimit : m.stepLimit = none)
    (hh : m.halted = false) (hpc : m.state.pc < m.program.size) (taken : Nat) :
    (m.placed w offset taken).step
      = ((m.step.1.map Signal.resumed).mapError (Fault.relocate (· + offset)),
        (m.next.placed w offset taken).resumed) := by
  rw [next]
  rcases step_placed_cases hw hlimit hh hpc taken with
    ⟨f, hs, hs'⟩ | ⟨written, k, hprogram, hk, hkpc, hs, hs'⟩
  · have hresumed := resumed_of_running (m := m.placed w offset taken) hh
    rw [hs, hs']
    exact congrArg (Prod.mk _) hresumed.symm
  · rw [hs, hs', advance_placed_of_more hk hkpc (hprogram ▸ hmore)]
    rfl

end Machine

end TapeMachine
