import TapeMachine.Proofs.Machine.Runs

/-! # Where control can be

    The program counter comes to a byte from the byte in front of it, or by a
    jump from the far end of a loop.  Whichever it was, what stands in front has
    been PASSED: a `[` is passed with a nonzero cell only, a `]` with a zero cell
    only (`Passed`).  So control is inside a loop only if the loop has been
    entered, and behind a loop only if the loop has been left.

    What a byte does takes control to a byte of the program, which is then
    passed (`Effect.lands`).  The step behind it goes on to the next byte, or
    halts at the last one.  Both are put into one invariant (`InControl`) that
    holds of a machine just loaded and is kept by every step, by a failing one
    and by one after the end as well. -/

namespace TapeMachine

open TapeMachine.Bracket

/-! ## Passing a byte -/

/-- The byte at `pos` lets control pass while the current cell is `v`. -/
structure Passed (p : Program) (pos : Nat) (v : Int64) : Prop where
  opened : p.code[pos]? = some Instruction.loopOpen.byte → v ≠ 0
  closed : p.code[pos]? = some Instruction.loopClose.byte → v = 0

/-- A `[` lets control pass while the cell is not zero. -/
theorem Passed.of_matched_open {p : Program} {i j : Nat} {v : Int64}
    (h : Matched p.code.toList i j) (hv : v ≠ 0) : Passed p i v where
  opened := fun _ => hv
  closed := by
    intro hc
    have ho := h.open_at
    rw [Array.getElem?_toList, hc] at ho
    cases ho

/-- A `]` lets control pass while the cell is zero. -/
theorem Passed.of_matched_close {p : Program} {i j : Nat} {v : Int64}
    (h : Matched p.code.toList i j) (hv : v = 0) : Passed p j v where
  opened := by
    intro ho
    have hc := h.close_at
    rw [Array.getElem?_toList, ho] at hc
    cases hc
  closed := fun _ => hv

/-- A byte that is no bracket lets control pass with any cell. -/
theorem Passed.of_instructionAt? {p : Program} {pos : Nat} {i? : Option Instruction} {v : Int64}
    (h : p.instructionAt? pos = i?) (ho : i? ≠ some .loopOpen) (hc : i? ≠ some .loopClose) :
    Passed p pos v where
  opened := fun hb => absurd (h.symm.trans (Program.instructionAt?_eq_some_iff.mpr hb)) ho
  closed := fun hb => absurd (h.symm.trans (Program.instructionAt?_eq_some_iff.mpr hb)) hc

/-- A test of a loop passes the `]` of the loop if the cell is zero, otherwise its `[`. -/
theorem Passed.of_test {p : Program} {i j : Nat} (h : Matched p.code.toList i j) (v : Int64) :
    Passed p (if v = 0 then j else i) v := by
  by_cases h0 : v = 0
  · rw [if_pos h0]
    exact .of_matched_close h h0
  · rw [if_neg h0]
    exact .of_matched_open h h0

/-- What a byte does takes control to a byte of the program, and passes it. -/
theorem Effect.lands {p : Program} {s s' : State} {far far' : Nat} {written : Option Char}
    (h : Effect p s far written s' far') (hpc : s.pc < p.size) :
    s'.pc < p.size ∧ Passed p s'.pc s'.cell := by
  cases h with
  | comment here => exact ⟨hpc, .of_instructionAt? here nofun nofun⟩
  | moveRight here => exact ⟨hpc, .of_instructionAt? here nofun nofun⟩
  | moveLeft here above => exact ⟨hpc, .of_instructionAt? here nofun nofun⟩
  | increment here => exact ⟨hpc, .of_instructionAt? here nofun nofun⟩
  | decrement here => exact ⟨hpc, .of_instructionAt? here nofun nofun⟩
  | output here char => exact ⟨hpc, .of_instructionAt? here nofun nofun⟩
  | @loopOpen j here pair =>
      have hcell : ({ s.touchCell with pc := if s.cell = 0 then j else s.pc } : State).cell
          = s.cell := s.cell_touchCell
      rw [hcell]
      refine ⟨?_, Passed.of_test pair s.cell⟩
      show (if s.cell = 0 then j else s.pc) < p.size
      split
      · exact pair.close_lt
      · exact hpc
  | @loopClose i here pair =>
      have hcell : ({ s.touchCell with pc := if s.cell = 0 then s.pc else i } : State).cell
          = s.cell := s.cell_touchCell
      rw [hcell]
      refine ⟨?_, Passed.of_test pair s.cell⟩
      show (if s.cell = 0 then s.pc else i) < p.size
      split
      · exact hpc
      · exact pair.open_lt

namespace Machine

/-! ## The invariant -/

/-- Control is inside the program, and what stands in front of it has been
    passed; when the machine has halted, it is the last byte that has. -/
structure InControl (m : Machine) : Prop where
  inside : m.state.pc < m.program.size
  behind : m.halted = false → ∀ pos, m.state.pc = pos + 1 → Passed m.program pos m.state.cell
  at_last : m.halted = true →
    m.state.pc + 1 = m.program.size ∧ Passed m.program m.state.pc m.state.cell

variable {m : Machine}

/-- Control begins inside the program, with nothing in front of it. -/
theorem inControl_load {p : Program} (settings : Settings) (h : 0 < p.size) :
    (load p settings).InControl where
  inside := h
  behind := by
    intro _ pos hpc
    cases hpc
  at_last := nofun

/-- From a byte that has been passed control goes on to the next one, or stays if there is none. -/
theorem inControl_advance (written : Option Char) (hh : m.halted = false)
    (hpc : m.state.pc < m.program.size) (hpassed : Passed m.program m.state.pc m.state.cell) :
    (m.advance written).2.InControl := by
  rw [advance]
  split
  · rename_i hlast
    refine ⟨hpc, ?_, ?_⟩
    · intro hrunning
      exact absurd hrunning.symm Bool.false_ne_true
    · intro _
      exact ⟨Nat.le_antisymm hpc hlast, hpassed⟩
  · rename_i hmore
    refine ⟨Nat.lt_of_not_le hmore, ?_, ?_⟩
    · intro _ pos hpos
      obtain rfl : m.state.pc = pos := Nat.succ.inj hpos
      exact hpassed
    · intro hhalted
      exact absurd (hh.symm.trans hhalted) Bool.false_ne_true

/-- No step takes control out of the program or past a bracket that is closed to it. -/
theorem InControl.next (h : m.InControl) : m.next.InControl := by
  rw [Machine.next]
  rcases m.step_cases with ⟨hh | he, hs⟩ | ⟨f, hs⟩ | ⟨written, s, far, hr, heffect, hs⟩
  · rw [step_of_halted hh]
    exact h
  · exact absurd he (Nat.ne_of_gt (Nat.lt_of_le_of_lt (Nat.zero_le _) h.inside))
  · rw [hs]
    exact h
  · rw [hs]
    obtain ⟨hpc, hpassed⟩ := heffect.lands h.inside
    exact inControl_advance written hr.not_halted hpc hpassed

/-- So it is after any number of steps. -/
theorem InControl.iterate (h : m.InControl) (n : Nat) : (Machine.next^[n] m).InControl := by
  induction n with
  | zero => exact h
  | succ n ih =>
      rw [Function.iterate_succ_apply']
      exact ih.next

/-- **Control flow.**  After any number of steps of a program that is not empty,
    whether they fail or not, the program counter is inside the program.  If the
    machine has halted it is at the last byte, and the cell is zero if that is a
    `]`.  If it has not, the byte just in front of the program counter is no `[`
    unless the cell is nonzero and no `]` unless the cell is zero; so, at any
    depth, control is at the beginning of a loop's body only with a nonzero cell
    and just behind a loop only with a zero cell. -/
theorem control_stays_in_its_loops (p : Program) (settings : Settings) (nonempty : p.code ≠ #[])
    (n : Nat) :
    let m := next^[n] (load p settings)
    m.state.pc < p.size ∧
    (m.halted = true → m.state.pc = p.size - 1 ∧
      (p.code[p.size - 1]? = some Instruction.loopClose.byte → m.state.cell = 0)) ∧
    (m.halted = false → 0 < m.state.pc →
      (p.code[m.state.pc - 1]? = some Instruction.loopOpen.byte → m.state.cell ≠ 0) ∧
      (p.code[m.state.pc - 1]? = some Instruction.loopClose.byte → m.state.cell = 0)) ∧
    (∀ i j, Matched p.code.toList i j → m.halted = false →
      (m.state.pc = i + 1 → m.state.cell ≠ 0) ∧ (m.state.pc = j + 1 → m.state.cell = 0)) := by
  intro m
  have hm : m.program = p := iterate_program _ n
  have h : m.InControl := (inControl_load settings (Array.size_pos_iff.mpr nonempty)).iterate n
  obtain ⟨inside, behind, at_last⟩ := h
  rw [hm] at inside behind at_last
  refine ⟨inside, ?_, ?_, ?_⟩
  · intro hh
    obtain ⟨hpc, hpassed⟩ := at_last hh
    have hlast : m.state.pc = p.size - 1 := by omega
    rw [hlast] at hpassed
    exact ⟨hlast, hpassed.closed⟩
  · intro hh hpos
    have hpassed := behind hh (m.state.pc - 1) (by omega)
    exact ⟨hpassed.opened, hpassed.closed⟩
  · intro i j hpair hh
    refine ⟨?_, ?_⟩
    · intro hpc
      refine (behind hh i hpc).opened ?_
      rw [← Array.getElem?_toList]
      exact hpair.open_at
    · intro hpc
      refine (behind hh j hpc).closed ?_
      rw [← Array.getElem?_toList]
      exact hpair.close_at

/-- Three steps into `+[[-]]`, at the beginning of the inner body. -/
theorem control_stays_in_its_loops_nested :
    let p : Program := ⟨#[0x2B, 0x5B, 0x5B, 0x2D, 0x5D, 0x5D],
      (Table.empty.addPair 2 4).addPair 1 5, rfl⟩
    p.code ≠ #[] ∧ (next^[3] (load p {})).state.pc = 3 ∧
      (next^[3] (load p {})).state.cell ≠ 0 := by
  intro p
  have nonempty : p.code ≠ #[] := by decide
  have running : (next^[3] (load p {})).halted = false := by decide +kernel
  have hpc : (next^[3] (load p {})).state.pc = 3 := by decide +kernel
  have positive : 0 < (next^[3] (load p {})).state.pc := by
    rw [hpc]
    decide
  have open_behind : p.code[(next^[3] (load p {})).state.pc - 1]?
      = some Instruction.loopOpen.byte := by
    rw [hpc]
    rfl
  have h := (control_stays_in_its_loops p {} nonempty 3).2.2.1 running positive
  exact ⟨nonempty, hpc, h.1 open_behind⟩

end Machine

end TapeMachine
