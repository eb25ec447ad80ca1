import TapeMachine.Proofs.Machine.Runs
import TapeMachine.Proofs.Structured.Semantics

/-! # A machine over a store

    `m.reached s pos steps` is the machine `m` when it has carried out `steps`
    bytes, has the store `s`, and has come to the byte at `pos`.  As long as
    there is such a byte it is `m.running s pos steps`.  The two differ past the
    last byte only, where the machine has halted and its program counter has
    stayed behind.

    One step of such a machine is one byte of a nesting or one test of a loop:
    `next_reached_of_act`, `step_reached_of_act` and `next_reached_of_test`.  Its
    run is over when it comes to the end of the program or to a step that fails
    (`ends_of_reached_size`, `ends_of_reached_error`). -/

namespace TapeMachine

open TapeMachine.Bracket

namespace Machine

/-- The store of a machine. -/
def store (m : Machine) : Store where
  tape := m.state.tape
  dataPtr := m.state.dataPtr
  output := m.state.output
  maxDataPtr := m.maxDataPtr

/-- The machine `m` with the store `s`, not halted, its program counter at `pos`. -/
def running (m : Machine) (s : Store) (pos steps : Nat) : Machine :=
  { m with
    state :=
      { tape := s.tape
        dataPtr := s.dataPtr
        pc := pos
        output := s.output
        mode := m.state.mode }
    steps := steps
    maxDataPtr := s.maxDataPtr
    halted := false }

/-- The machine `m` with the store `s` when it has come to position `pos`. -/
def reached (m : Machine) (s : Store) (pos steps : Nat) : Machine :=
  if 0 < pos ∧ m.program.size ≤ pos then
    { m.running s (pos - 1) steps with halted := true }
  else m.running s pos steps

variable {m : Machine} {s s' : Store} {pos k : Nat}

theorem reached_of_lt (hpos : pos < m.program.size) :
    m.reached s pos k = m.running s pos k := by
  refine if_neg ?_
  rintro ⟨-, h⟩
  exact Nat.not_lt.mpr h hpos

@[simp] theorem store_reached : (m.reached s pos k).store = s := by
  rw [reached]
  split
  · rfl
  · rfl

@[simp] theorem steps_reached : (m.reached s pos k).steps = k := by
  rw [reached]
  split
  · rfl
  · rfl

/-- A machine just loaded has come to the first byte with an empty store. -/
theorem reached_load (p : Program) (settings : Settings) :
    (load p settings).reached {} 0 0 = load p settings :=
  if_neg (fun h => Nat.lt_irrefl 0 h.1)

/-- A machine that has not halted has come to the byte at its program counter. -/
theorem reached_store (hh : m.halted = false) (hpc : m.state.pc < m.program.size) :
    m.reached m.store m.state.pc m.steps = m := by
  rw [reached_of_lt hpc, running, ← hh]
  rfl

/-- Behind the last byte a machine is done. -/
theorem done_reached_size : (m.reached s m.program.size k).halted = true ∨
    (m.reached s m.program.size k).program.size = 0 := by
  rw [reached]
  split
  · exact Or.inl rfl
  · rename_i h
    have h0 : m.program.size = 0 := by omega
    exact Or.inr h0

/-- Behind the last byte a step halts. -/
theorem step_reached_size : (m.reached s m.program.size k).step
    = (.ok .halt, { m.reached s m.program.size k with halted := true }) :=
  step_of_done done_reached_size

/-! ## One byte -/

/-- A machine that runs inside of the program is about to carry out a byte. -/
theorem ready_running (hm : m.stepLimit = none) (hpos : pos < m.program.size) :
    (m.running s pos k).Ready where
  not_halted := rfl
  not_empty := Nat.lt_of_le_of_lt (Nat.zero_le pos) hpos
  not_exhausted := exhausted?_of_unlimited hm

/-- From there it comes to the next position, with one step more. -/
theorem advance_running (written : Option Char) :
    ((m.running s pos k).advance written).2 = m.reached s (pos + 1) (k + 1) := by
  rw [advance]
  split
  · rename_i hlast
    have hlast : 0 < pos + 1 ∧ m.program.size ≤ pos + 1 := ⟨Nat.succ_pos pos, hlast⟩
    rw [reached, if_pos hlast]
    rfl
  · rename_i hmore
    have hmore : pos + 1 < m.program.size := Nat.lt_of_not_le hmore
    rw [reached_of_lt hmore]
    rfl

/-- A byte that is no bracket does to the store of the machine what it does to
    a store, and does not move the program counter. -/
theorem execute_running (m : Machine) (s : Store) (pos k : Nat) {b : UInt8} (plain : Plain b) :
    match s.act m.state.mode pos b with
    | .ok s' => ∃ written, (m.running s pos k).execute (Instruction.ofByte? b)
        = (.ok written, m.running s' pos k)
    | .error f => (m.running s pos k).execute (Instruction.ofByte? b)
        = (.error f, m.running s pos k) := by
  rw [Store.act]
  cases hd : Instruction.ofByte? b with
  | none => exact ⟨none, rfl⟩
  | some i =>
      cases i with
      | moveRight => exact ⟨none, rfl⟩
      | increment => exact ⟨none, rfl⟩
      | decrement =>
          rw [Int64.sub_eq_add_neg]
          exact ⟨none, rfl⟩
      | moveLeft =>
          dsimp only
          by_cases h0 : s.dataPtr = 0
          · rw [if_pos h0]
            exact execute_moveLeft_of_zero (m := m.running s pos k) h0
          · obtain ⟨ptr, hptr⟩ := Nat.exists_eq_succ_of_ne_zero h0
            rw [if_neg h0, hptr]
            exact ⟨none, execute_moveLeft_of_succ (m := m.running s pos k) hptr⟩
      | output =>
          dsimp only
          cases hc : m.state.mode.toChar? s.cell with
          | none => exact execute_output_of_none (m := m.running s pos k) hc
          | some c => exact ⟨some c, execute_output_of_some (m := m.running s pos k) hc⟩
      | input => rfl
      | loopOpen => exact absurd hd plain.ofByte?_ne.1
      | loopClose => exact absurd hd plain.ofByte?_ne.2

/-- A byte that is carried out takes the machine to the position behind the place it leads to. -/
theorem next_reached {r : Nat} {written : Option Char} (hm : m.stepLimit = none)
    (hpos : pos < m.program.size) (hx : (m.running s pos k).execute (m.program.instructionAt? pos)
      = (.ok written, m.running s' r k)) :
    (m.reached s pos k).next = m.reached s' (r + 1) (k + 1) := by
  rw [reached_of_lt hpos, next, (ready_running hm hpos).step_of_ok hx]
  exact advance_running written

/-- A byte that can be done is carried out. -/
theorem execute_running_of_act {b : UInt8} (k : Nat)
    (hb : m.program.code.toList[pos]? = some b) (plain : Plain b)
    (hact : s.act m.state.mode pos b = .ok s') :
    ∃ written, (m.running s pos k).execute (m.program.instructionAt? pos)
      = (.ok written, m.running s' pos k) := by
  have hx := execute_running m s pos k plain
  rw [hact, ← Program.instructionAt?_of_getElem? hb] at hx
  exact hx

/-- A byte that can be done is done, and the machine comes to the next one. -/
theorem next_reached_of_act {b : UInt8} (hm : m.stepLimit = none)
    (hb : m.program.code.toList[pos]? = some b) (plain : Plain b)
    (hact : s.act m.state.mode pos b = .ok s') :
    (m.reached s pos k).next = m.reached s' (pos + 1) (k + 1) := by
  have hpos : pos < m.program.size := (List.getElem?_eq_some_iff.mp hb).1
  obtain ⟨written, hx⟩ := execute_running_of_act k hb plain hact
  exact next_reached hm hpos hx

/-- A byte that cannot be done makes the step fail with its fault. -/
theorem step_reached_of_act {b : UInt8} {f : Fault} (hm : m.stepLimit = none)
    (hb : m.program.code.toList[pos]? = some b) (plain : Plain b)
    (hact : s.act m.state.mode pos b = .error f) :
    (m.reached s pos k).step.1 = .error f := by
  have hpos : pos < m.program.size := (List.getElem?_eq_some_iff.mp hb).1
  have hx := execute_running m s pos k plain
  rw [hact, ← Program.instructionAt?_of_getElem? hb] at hx
  rw [reached_of_lt hpos, (ready_running hm hpos).step_of_error hx]

/-! ## One test -/

/-- A test of a loop, at its `[` or at its `]`, takes the program counter to the
    end of the loop that lies in front of where the machine goes on. -/
theorem execute_running_of_test {i j q : Nat} (s : Store) (k : Nat)
    (h : Matched m.program.code.toList i j) (hq : q = i ∨ q = j) :
    (m.running s q k).execute (m.program.instructionAt? q)
      = (.ok none, m.running s.touch (if s.cell = 0 then j else i) k) := by
  rcases hq with rfl | rfl
  · rw [Program.instructionAt?_of_getElem? h.open_at]
    exact execute_loopOpen (m := m.running s q k) h
  · rw [Program.instructionAt?_of_getElem? h.close_at]
    exact execute_loopClose (m := m.running s q k) h

/-- Both ends of a loop are inside the program. -/
theorem lt_size_of_test {i j q : Nat} (h : Matched m.program.code.toList i j)
    (hq : q = i ∨ q = j) : q < m.program.size := by
  rcases hq with rfl | rfl
  · exact h.open_lt
  · exact h.close_lt

/-- If the cell is zero a test takes the machine behind the `]`, otherwise to the
    beginning of the body. -/
theorem next_reached_of_test {i j q : Nat} (hm : m.stepLimit = none)
    (h : Matched m.program.code.toList i j) (hq : q = i ∨ q = j) :
    (m.reached s q k).next
      = m.reached s.touch ((if s.cell = 0 then j else i) + 1) (k + 1) :=
  next_reached hm (lt_size_of_test h hq) (execute_running_of_test s k h hq)

/-- With zero in the cell, either end of a loop leads behind it. -/
theorem next_reached_of_zero {i j q : Nat} (hm : m.stepLimit = none) (zero : s.cell = 0)
    (h : Matched m.program.code.toList i j) (hq : q = i ∨ q = j) :
    (m.reached s q k).next = m.reached s.touch (j + 1) (k + 1) := by
  rw [next_reached_of_test hm h hq, if_pos zero]

/-- With another value in the cell, either end of a loop leads to its body. -/
theorem next_reached_of_nonzero {i j q : Nat} (hm : m.stepLimit = none) (nonzero : s.cell ≠ 0)
    (h : Matched m.program.code.toList i j) (hq : q = i ∨ q = j) :
    (m.reached s q k).next = m.reached s.touch (i + 1) (k + 1) := by
  rw [next_reached_of_test hm h hq, if_neg nonzero]

/-! ## The end of a run -/

/-- A run that comes to the end of the program finishes. -/
theorem ends_of_reached_size {m' : Machine} {n : Nat}
    (h : next^[n] m' = m.reached s m.program.size k) :
    ∃ m'', m'.Ends .finished m'' ∧ m''.store = s ∧ m''.steps = k := by
  have hhalt : (next^[n] m').step.1 = .ok .halt := by
    rw [h, step_reached_size]
  have hends := ends_of_halt hhalt
  rw [Function.iterate_succ_apply', h, next, step_reached_size] at hends
  exact ⟨_, hends, store_reached, steps_reached⟩

/-- A run that comes to a place where a step fails has failed. -/
theorem ends_of_reached_error {m' : Machine} {n : Nat} {f : Fault}
    (h : next^[n] m' = m.reached s pos k) (hf : (m.reached s pos k).step.1 = .error f) :
    ∃ m'', m'.Ends (.failed f) m'' ∧ m''.store = s ∧ m''.steps = k := by
  rw [← h] at hf
  have hends := ends_of_error hf
  rw [h] at hends
  exact ⟨_, hends, store_reached, steps_reached⟩

end Machine

end TapeMachine
