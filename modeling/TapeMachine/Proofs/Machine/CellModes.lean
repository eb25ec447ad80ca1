import TapeMachine.Proofs.Cell.Residue
import TapeMachine.Proofs.Machine.Trace

/-! # Byte cells are wide cells modulo 256

    One program is run on wide cells and on byte cells.  As long as no loop test
    of the wide run can tell a cell from its remainder (`TellsByteZero`), both
    runs go the same way, and the byte run holds the remainders of the wide one,
    in its cells and in the codes of its output (`Residual`): every instruction
    takes remainders to remainders (`Effect.residual`).

    If the wide cells are bytes at all times, there is nothing to reduce and the
    runs are the same but for the cell mode (`Effect.withMode`), in their faults
    as well. -/

namespace TapeMachine

open TapeMachine.Bracket

/-! ## States -/

/-- The state `b` on byte cells holds the remainders of the state `w` on wide
    cells, and is otherwise like it. -/
structure State.Residual (w b : State) : Prop where
  mode_left : w.mode = .wide
  mode_right : b.mode = .byte
  pc_eq : b.pc = w.pc
  dataPtr_eq : b.dataPtr = w.dataPtr
  tapeSize_eq : b.tape.size = w.tape.size
  cells_eq : ∀ i, (b.tape.get i).toInt = (w.tape.get i).toInt % 256
  output_eq : b.output.toList.map Char.toNat = w.output.toList.map fun c => c.toNat % 256

namespace State.Residual

variable {w b : State}

theorem start : (State.start .wide).Residual (State.start .byte) where
  mode_left := rfl
  mode_right := rfl
  pc_eq := rfl
  dataPtr_eq := rfl
  tapeSize_eq := rfl
  cells_eq := fun _ => rfl
  output_eq := rfl

variable (h : w.Residual b)
include h

/-- The byte cell is the remainder of the wide cell. -/
theorem cell_eq : b.cell.toInt = w.cell.toInt % 256 := by
  rw [cell, cell, h.dataPtr_eq]
  exact h.cells_eq _

/-- A cell that is zero or no multiple of 256 has the remainder zero only if it is zero. -/
theorem cell_eq_zero_iff (htest : w.cell = 0 ∨ ¬ (256 : Int) ∣ w.cell.toInt) :
    b.cell = 0 ↔ w.cell = 0 := by
  rw [eq_zero_iff_toInt, h.cell_eq, ← Int.dvd_iff_emod_eq_zero]
  constructor
  · intro hdvd
    exact htest.resolve_right (not_not.mpr hdvd)
  · intro h0
    rw [h0]
    exact Int.dvd_zero 256

theorem touchCell : w.touchCell.Residual b.touchCell :=
  { h with
    tapeSize_eq := by
      show (b.tape.touch b.dataPtr).size = (w.tape.touch w.dataPtr).size
      rw [Tape.size_touch, Tape.size_touch, h.tapeSize_eq, h.dataPtr_eq]
    cells_eq := by
      intro i
      show ((b.tape.touch b.dataPtr).get i).toInt = ((w.tape.touch w.dataPtr).get i).toInt % 256
      rw [Tape.get_touch, Tape.get_touch]
      exact h.cells_eq i }

theorem setPc (pc : Nat) : ({ w with pc := pc } : State).Residual { b with pc := pc } :=
  { h with pc_eq := rfl }

theorem setDataPtr (ptr : Nat) :
    ({ w with dataPtr := ptr } : State).Residual { b with dataPtr := ptr } :=
  { h with dataPtr_eq := rfl }

/-- The codes written are remainders of each other as well. -/
theorem pushOutput {c d : Char} (hcode : d.toNat = c.toNat % 256) :
    ({ w with output := w.output.push c } : State).Residual
      { b with output := b.output.push d } :=
  { h with
    output_eq := by
      rw [String.toList_push, String.toList_push, List.map_append, List.map_append, h.output_eq,
        List.map_singleton, List.map_singleton, hcode] }

/-- The sums have the same remainder, whether or not they wrap. -/
theorem addCell (delta : Int64) : (w.addCell delta).2.Residual (b.addCell delta).2 :=
  { h with
    tapeSize_eq := by
      show (b.tape.set b.dataPtr _).size = (w.tape.set w.dataPtr _).size
      rw [Tape.size_set, Tape.size_set, h.tapeSize_eq, h.dataPtr_eq]
    cells_eq := by
      intro i
      show ((b.tape.set b.dataPtr _).get i).toInt = ((w.tape.set w.dataPtr _).get i).toInt % 256
      rw [Tape.get_set, Tape.get_set, h.dataPtr_eq]
      split
      · rw [h.mode_left, h.mode_right, CellMode.normalize_wide, CellMode.toInt_normalize_byte,
          toInt_add_emod, h.cell_eq, Int.emod_add_emod, ← toInt_add_emod]
      · exact h.cells_eq i }

/-- What is written has the remainder of the code for its code. -/
theorem exists_toChar? {c : Char} (hc : w.mode.toChar? w.cell = some c) :
    ∃ d, b.mode.toChar? b.cell = some d ∧ d.toNat = c.toNat % 256 := by
  rw [h.mode_left] at hc
  obtain ⟨d, hd, hcode⟩ := CellMode.toChar?_byte b.cell
  refine ⟨d, h.mode_right ▸ hd, ?_⟩
  have hw := CellMode.toNat_of_toChar?_wide hc
  have hcell := h.cell_eq
  omega

end State.Residual

/-- A byte does to the remainders what it does to the cells. -/
theorem Effect.residual {p : Program} {w w' b : State} {far far' : Nat} {written : Option Char}
    (h : Effect p w far written w' far') (hs : w.Residual b)
    (htest : (p.instructionAt? w.pc).any Instruction.isBracket = true →
      w.cell = 0 ∨ ¬ (256 : Int) ∣ w.cell.toInt) :
    ∃ written' b', Effect p b far written' b' far' ∧ w'.Residual b' := by
  have hpc := hs.pc_eq
  have hptr := hs.dataPtr_eq
  cases h with
  | comment here => exact ⟨none, b, .comment (hpc ▸ here), hs⟩
  | moveRight here =>
      have heffect : Effect p b far none _ _ := .moveRight (hpc ▸ here)
      rw [hptr] at heffect
      exact ⟨none, _, heffect, hs.setDataPtr _⟩
  | moveLeft here above =>
      exact ⟨none, _, .moveLeft (hpc ▸ here) (hptr.trans above), hs.setDataPtr _⟩
  | increment here => exact ⟨none, _, .increment (hpc ▸ here), hs.addCell 1⟩
  | decrement here => exact ⟨none, _, .decrement (hpc ▸ here), hs.addCell (-1)⟩
  | output here char =>
      obtain ⟨d, hd, hcode⟩ := hs.exists_toChar? char
      exact ⟨some d, _, .output (hpc ▸ here) hd, hs.touchCell.pushOutput hcode⟩
  | @loopOpen j here pair =>
      have hzero := hs.cell_eq_zero_iff (htest (by rw [here]; rfl))
      have heffect : Effect p b far none _ far := .loopOpen (hpc ▸ here) (hpc ▸ pair)
      rw [hpc, if_congr hzero rfl rfl] at heffect
      exact ⟨none, _, heffect, hs.touchCell.setPc _⟩
  | @loopClose i here pair =>
      have hzero := hs.cell_eq_zero_iff (htest (by rw [here]; rfl))
      have heffect : Effect p b far none _ far := .loopClose (hpc ▸ here) (hpc ▸ pair)
      rw [hpc, if_congr hzero rfl rfl] at heffect
      exact ⟨none, _, heffect, hs.touchCell.setPc _⟩

namespace Machine

/-! ## Runs that hold the remainders -/

/-- The machine `b` on byte cells holds the remainders of the machine `w` on wide
    cells, and is otherwise like it. -/
structure Residual (w b : Machine) : Prop where
  state : w.state.Residual b.state
  program_eq : b.program = w.program
  stepLimit_eq : b.stepLimit = w.stepLimit
  steps_eq : b.steps = w.steps
  maxDataPtr_eq : b.maxDataPtr = w.maxDataPtr
  halted_eq : b.halted = w.halted

/-- If the next step tests a loop, the cell is zero or its remainder is not. -/
def TellsByteZero (m : Machine) : Prop :=
  m.carriesOut = true →
    (m.program.instructionAt? m.state.pc).any Instruction.isBracket = true →
    m.state.cell = 0 ∨ ¬ (256 : Int) ∣ m.state.cell.toInt

instance (m : Machine) : Decidable m.TellsByteZero := inferInstanceAs (Decidable (_ → _ → _))

variable {w b : Machine}

theorem residual_load (p : Program) (matching : Matching) (limit : Option Nat) :
    (load p { cellMode := .wide, matching := matching, stepLimit := limit }).Residual
      (load p { cellMode := .byte, matching := matching, stepLimit := limit }) where
  state := .start
  program_eq := rfl
  stepLimit_eq := rfl
  steps_eq := rfl
  maxDataPtr_eq := rfl
  halted_eq := rfl

namespace Residual

/-- When both have moved on, the byte machine still holds the remainders. -/
theorem advance (h : w.Residual b) (written written' : Option Char) :
    (w.advance written).2.Residual (b.advance written').2 := by
  have hlast : b.program.size ≤ b.state.pc + 1 ↔ w.program.size ≤ w.state.pc + 1 := by
    rw [h.program_eq, h.state.pc_eq]
  obtain ⟨state, program_eq, stepLimit_eq, steps_eq, maxDataPtr_eq, halted_eq⟩ := h
  have hsteps : b.steps + 1 = w.steps + 1 := congrArg (· + 1) steps_eq
  by_cases hw : w.program.size ≤ w.state.pc + 1
  · rw [advance_of_last hw, advance_of_last (hlast.mpr hw)]
    exact ⟨state, program_eq, stepLimit_eq, hsteps, maxDataPtr_eq, rfl⟩
  · rw [advance_of_more hw, advance_of_more (mt hlast.mp hw), state.pc_eq]
    exact ⟨state.setPc _, program_eq, stepLimit_eq, hsteps, maxDataPtr_eq, halted_eq⟩

theorem ready (h : w.Residual b) (hr : w.Ready) : b.Ready :=
  hr.of_same h.halted_eq h.program_eq h.stepLimit_eq h.steps_eq

/-- A step that does not fail on wide cells does not fail on byte cells either,
    and leaves the remainders of what it leaves. -/
theorem step (h : w.Residual b) (hok : w.step.1.isOk = true) (htest : w.TellsByteZero) :
    b.step.1.isOk = true ∧ w.next.Residual b.next := by
  rcases w.step_cases with ⟨hd, hs⟩ | ⟨f, hs⟩ | ⟨written, s, far, hr, heffect, hs⟩
  · have hd' : b.halted = true ∨ b.program.size = 0 := by
      rw [h.halted_eq, h.program_eq]
      exact hd
    rw [next, next, hs, step_of_done hd']
    exact ⟨rfl, h.state, h.program_eq, h.stepLimit_eq, h.steps_eq, h.maxDataPtr_eq, rfl⟩
  · rw [hs] at hok
    cases hok
  · have hcarries : w.carriesOut = true := by
      rw [carriesOut, hr.event?_of_ok (congrArg Prod.fst hs)]
      rfl
    obtain ⟨written', s', heffect', hstate⟩ := heffect.residual h.state (htest hcarries)
    rw [← h.program_eq, ← h.maxDataPtr_eq] at heffect'
    rw [next, next, hs, (h.ready hr).step_of_effect heffect']
    have hmiddle : ({ w with state := s, maxDataPtr := far } : Machine).Residual
        { b with state := s', maxDataPtr := far } :=
      ⟨hstate, h.program_eq, h.stepLimit_eq, h.steps_eq, rfl, h.halted_eq⟩
    exact ⟨rfl, hmiddle.advance written written'⟩

/-- As long as no step of the wide machine fails and each loop test tells zero from its
    remainder, the byte machine holds the remainders. -/
theorem iterate (h : w.Residual b) {n : Nat}
    (hrun : ∀ i, i < n → (next^[i] w).step.1.isOk = true ∧ (next^[i] w).TellsByteZero)
    {i : Nat} (hi : i ≤ n) : (next^[i] w).Residual (next^[i] b) := by
  induction i with
  | zero => exact h
  | succ i ih =>
      obtain ⟨hok, htest⟩ := hrun i hi
      rw [Function.iterate_succ_apply', Function.iterate_succ_apply']
      exact ((ih (Nat.le_of_lt hi)).step hok htest).2

end Residual

/-! ## Runs that are the same -/

/-- The same machine, with its cell mode set. -/
def withMode (m : Machine) (mode : CellMode) : Machine :=
  { m with state := { m.state with mode := mode } }

end Machine

/-- Adding has the same outcome in both modes if that is a byte. -/
theorem State.addCell_byte {s : State} {delta : Int64} (hw : s.mode = .wide)
    (hrange : 0 ≤ ((s.addCell delta).2.tape.get s.dataPtr).toInt ∧
      ((s.addCell delta).2.tape.get s.dataPtr).toInt ≤ 255) :
    (({ s with mode := .byte } : State).addCell delta).2
      = { (s.addCell delta).2 with mode := .byte } := by
  have hvalue : (s.addCell delta).2.tape.get s.dataPtr = s.cell + delta := by
    show (s.tape.set s.dataPtr (s.mode.normalize (s.cell + delta))).get s.dataPtr = _
    rw [Tape.get_set, if_pos rfl, hw, CellMode.normalize_wide]
  rw [hvalue] at hrange
  have hnormalize : CellMode.byte.normalize (s.cell + delta)
      = s.mode.normalize (s.cell + delta) := by
    rw [CellMode.normalize_byte_of_range hrange, hw, CellMode.normalize_wide]
  show { s with
    tape := s.tape.set s.dataPtr (CellMode.byte.normalize (s.cell + delta))
    mode := .byte } = _
  rw [hnormalize]
  rfl

/-- Between bytes an effect is the same in both modes. -/
theorem Effect.withMode {p : Program} {s s' : State} {far far' : Nat} {written : Option Char}
    (h : Effect p s far written s' far') (hw : s.mode = .wide)
    (hs : s.tape.InByteRange) (hs' : s'.tape.InByteRange) :
    Effect p { s with mode := .byte } far written { s' with mode := .byte } far' := by
  cases h with
  | comment here => exact .comment here
  | moveRight here => exact .moveRight here
  | moveLeft here above => exact .moveLeft here above
  | increment here =>
      rw [← State.addCell_byte hw (hs' s.dataPtr)]
      exact .increment here
  | decrement here =>
      rw [← State.addCell_byte hw (hs' s.dataPtr)]
      exact .decrement here
  | output here char =>
      rw [hw] at char
      exact .output here ((CellMode.toChar?_byte_of_range (hs s.dataPtr)).trans char)
  | loopOpen here pair => exact .loopOpen here pair
  | loopClose here pair => exact .loopClose here pair

namespace Machine

variable {m : Machine}

/-- On a byte no instruction fails in one mode only. -/
theorem InstructionFault.withMode {f : Fault} (h : m.InstructionFault f)
    (hm : m.state.tape.InByteRange) :
    (m.withMode .byte).InstructionFault f := by
  cases h with
  | underflow hb h0 => exact .underflow hb h0
  | unimplemented hb => exact .unimplemented hb
  | invalid hb hw hn =>
      -- a byte is below the surrogates
      obtain ⟨h0, h255⟩ := hm m.state.dataPtr
      have hscalar : IsScalarValue m.state.cell.toInt :=
        Or.inl ⟨h0, Int.lt_of_le_of_lt h255 (by decide)⟩
      exact absurd hscalar hn

/-- Moving on does not depend on the cell mode. -/
theorem advance_withMode (m : Machine) (mode : CellMode) (written : Option Char) :
    (m.withMode mode).advance written
      = ((m.advance written).1, (m.advance written).2.withMode mode) :=
  advance_congr (f := fun m => m.withMode mode) written Iff.rfl rfl rfl

/-- A step from bytes to bytes is the same in both modes, also if it fails. -/
theorem step_withMode (hw : m.state.mode = .wide) (hm : m.state.tape.InByteRange)
    (hnext : m.next.state.tape.InByteRange) :
    (m.withMode .byte).step = (m.step.1, m.next.withMode .byte) := by
  rw [next] at hnext ⊢
  rcases m.done_or_exhausted_or_ready with hd | ⟨hh, he, limit, hx⟩ | hr
  · rw [step_of_done hd]
    exact step_of_done hd
  · rw [step_of_exhausted hh he hx]
    exact step_of_exhausted hh he hx
  · have hr' : (m.withMode .byte).Ready := ⟨hr.not_halted, hr.not_empty, hr.not_exhausted⟩
    rcases m.exists_effect_or_fault with ⟨written, s, far, heffect⟩ | ⟨f, hf⟩
    · rw [hr.step_of_effect heffect] at hnext ⊢
      have heffect' : Effect m.program { m.state with mode := .byte } m.maxDataPtr written
          { s with mode := .byte } far := by
        rw [advance_tape] at hnext
        exact heffect.withMode hw hm hnext
      exact hr'.step_of_advance (execute_of_effect heffect')
        (advance_withMode { m with state := s, maxDataPtr := far } .byte written)
    · rw [hr.step_of_error (execute_of_fault hf)]
      exact hr'.step_of_error (execute_of_fault (hf.withMode hm))

/-- As long as all cells of the wide machine are bytes, setting byte mode changes nothing else. -/
theorem iterate_withMode (hw : m.state.mode = .wide) {n : Nat}
    (hrange : ∀ i, i ≤ n → (next^[i] m).state.tape.InByteRange) {i : Nat} (hi : i ≤ n) :
    next^[i] (m.withMode .byte) = (next^[i] m).withMode .byte := by
  induction i with
  | zero => rfl
  | succ i ih =>
      have hnext := hrange (i + 1) hi
      rw [Function.iterate_succ_apply'] at hnext ⊢
      rw [Function.iterate_succ_apply', ih (Nat.le_of_lt hi), next,
        step_withMode ((iterate_mode m i).trans hw) (hrange i (Nat.le_of_lt hi)) hnext]

/-- **Byte cells are wide cells modulo 256.**  Run a program on wide cells and on
    byte cells.  If none of the first `n` steps on wide cells fails, and each
    loop test among them finds the cell zero or no multiple of 256, then none of
    the first `n` steps on byte cells fails, and up to then the machines are
    alike in everything but that each byte cell, and the code of each character
    written, is the remainder of the wide one.  If all wide cells are bytes up to
    step `n`, both machines are the same up to then, but for the cell mode, and
    each step answers the same, with a fault or without. -/
theorem byte_run_is_wide_run_modulo_256 (p : Program) (matching : Matching)
    (limit : Option Nat) (n : Nat) :
    let wide := load p { cellMode := .wide, matching := matching, stepLimit := limit }
    let byte := load p { cellMode := .byte, matching := matching, stepLimit := limit }
    ((∀ i, i < n → (next^[i] wide).step.1.isOk = true ∧ (next^[i] wide).TellsByteZero) →
      (∀ i, i < n → (next^[i] byte).step.1.isOk = true) ∧
      ∀ i, i ≤ n → (next^[i] wide).Residual (next^[i] byte)) ∧
    ((∀ i, i ≤ n → (next^[i] wide).state.tape.InByteRange) →
      (∀ i, i < n → (next^[i] byte).step.1 = (next^[i] wide).step.1) ∧
      ∀ i, i ≤ n → next^[i] byte = (next^[i] wide).withMode .byte) := by
  intro wide byte
  have hload : wide.Residual byte := residual_load p matching limit
  refine ⟨?_, ?_⟩
  · intro hrun
    refine ⟨?_, fun i hi => hload.iterate hrun hi⟩
    intro i hi
    obtain ⟨hok, htest⟩ := hrun i hi
    exact ((hload.iterate hrun (Nat.le_of_lt hi)).step hok htest).1
  · intro hrange
    have hsame : ∀ i, i ≤ n → next^[i] byte = (next^[i] wide).withMode .byte :=
      fun i hi => iterate_withMode (m := wide) rfl hrange hi
    refine ⟨?_, hsame⟩
    intro i hi
    have hnext := hrange (i + 1) hi
    rw [Function.iterate_succ_apply'] at hnext
    rw [hsame i (Nat.le_of_lt hi),
      step_withMode ((iterate_mode wide i).trans rfl) (hrange i (Nat.le_of_lt hi)) hnext]

/-- `-[+]` goes below zero, where the byte cell wraps and the wide cell does not;
    in `+.` the wide cell is a byte all the time. -/
theorem byte_run_is_wide_run_modulo_256_below_zero :
    let p : Program := ⟨#[0x2D, 0x5B, 0x2B, 0x5D], Table.empty.addPair 1 3, rfl⟩
    let q : Program := ⟨#[0x2B, 0x2E], Table.empty, rfl⟩
    ((∀ i, i < 4 → (next^[i] (load p { cellMode := .wide })).step.1.isOk = true ∧
        (next^[i] (load p { cellMode := .wide })).TellsByteZero) ∧
      (next^[1] (load p { cellMode := .wide })).state.cell = -1 ∧
      (next^[1] (load p {})).state.cell.toInt = 255 ∧
      (next^[4] (load p { cellMode := .wide })).Residual (next^[4] (load p {}))) ∧
    (∀ i, i ≤ 2 → (next^[i] (load q { cellMode := .wide })).state.tape.InByteRange) ∧
      next^[2] (load q {}) = (next^[2] (load q { cellMode := .wide })).withMode .byte := by
  intro p q
  have hrun : ∀ i, i < 4 → (next^[i] (load p { cellMode := .wide })).step.1.isOk = true ∧
      (next^[i] (load p { cellMode := .wide })).TellsByteZero := by
    decide +kernel
  have hwide : (next^[1] (load p { cellMode := .wide })).state.cell = -1 := by decide +kernel
  have hp := (byte_run_is_wide_run_modulo_256 p .table none 4).1 hrun
  have hbyte : (next^[1] (load p {})).state.cell.toInt = 255 := by
    rw [(hp.2 1 (by decide)).state.cell_eq, hwide]
    rfl
  have hrange : ∀ i, i ≤ 2 →
      (next^[i] (load q { cellMode := .wide })).state.tape.InByteRange := by
    decide +kernel
  have hq := (byte_run_is_wide_run_modulo_256 q .table none 2).2 hrange
  exact ⟨⟨hrun, hwide, hbyte, hp.2 4 (Nat.le_refl 4)⟩, hrange, hq.2 2 (Nat.le_refl 2)⟩

end Machine

end TapeMachine
