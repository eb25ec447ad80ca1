import TapeMachine.Proofs.Machine.Runs

/-! # Where on the tape a program works

    A program cannot tell on which cells it works, nor how many of them are
    allocated.  Take a machine and DISPLACE it: move its data pointer `offset`
    cells to the right, and put the cells that it sees there as well
    (`Machine.Displaced`).  The relation is one of values read, not of allocated
    cells: an instruction that looks at its cell allocates it, but a cell that has
    only just been allocated reads as it did before.

    The machine displaced steps as the other one does, and stays displaced
    (`Displaced.step`), as long as that does not fail at cell 0, where the machine
    displaced has cells left to go to.  It never gets to these: a byte changes no
    cell but the one that it stands on (`get_next`). -/

namespace TapeMachine

open TapeMachine.Bracket

/-! ## One byte -/

/-- A byte changes no cell but the current one. -/
theorem Effect.get_eq {p : Program} {s s' : State} {far far' : Nat} {written : Option Char}
    (h : Effect p s far written s' far') {i : Nat} (hi : i ≠ s.dataPtr) :
    s'.tape.get i = s.tape.get i := by
  cases h with
  | comment here => rfl
  | moveRight here => rfl
  | moveLeft here above => rfl
  | increment here => exact (Tape.get_set ..).trans (if_neg hi)
  | decrement here => exact (Tape.get_set ..).trans (if_neg hi)
  | output here char => exact Tape.get_touch ..
  | loopOpen here pair => exact Tape.get_touch ..
  | loopClose here pair => exact Tape.get_touch ..

/-- The state `b` is the state `a` with its data pointer `offset` cells further to
    the right, and reads the same there. -/
structure State.Displaced (offset : Nat) (a b : State) : Prop where
  mode_eq : b.mode = a.mode
  pc_eq : b.pc = a.pc
  output_eq : b.output = a.output
  dataPtr_eq : b.dataPtr = a.dataPtr + offset
  cells_eq : ∀ i, b.tape.get (i + offset) = a.tape.get i

namespace State.Displaced

variable {offset : Nat} {a b : State} (h : a.Displaced offset b)
include h

theorem cell_eq : b.cell = a.cell := by
  show b.tape.get b.dataPtr = a.tape.get a.dataPtr
  rw [h.dataPtr_eq]
  exact h.cells_eq a.dataPtr

/-- Looking at it keeps them apart by the same offset. -/
theorem touchCell : a.touchCell.Displaced offset b.touchCell :=
  { h with
    cells_eq := by
      intro i
      show (b.tape.touch b.dataPtr).get (i + offset) = (a.tape.touch a.dataPtr).get i
      rw [Tape.get_touch, Tape.get_touch]
      exact h.cells_eq i }

theorem setPc (pc : Nat) :
    ({ a with pc := pc } : State).Displaced offset { b with pc := pc } :=
  { h with pc_eq := rfl }

theorem pushOutput (c : Char) : ({ a with output := a.output.push c } : State).Displaced offset
    { b with output := b.output.push c } :=
  { h with
    output_eq := by
      show b.output.push c = a.output.push c
      rw [h.output_eq] }

theorem addCell (delta : Int64) : (a.addCell delta).2.Displaced offset (b.addCell delta).2 :=
  { h with
    cells_eq := by
      intro i
      show (b.tape.set b.dataPtr (b.mode.normalize (b.cell + delta))).get (i + offset)
        = (a.tape.set a.dataPtr (a.mode.normalize (a.cell + delta))).get i
      have hsame : i + offset = a.dataPtr + offset ↔ i = a.dataPtr := by omega
      rw [Tape.get_set, Tape.get_set, h.dataPtr_eq, h.mode_eq, h.cell_eq, h.cells_eq,
        if_congr hsame rfl rfl] }

end State.Displaced

/-- A byte does the same at the other place. -/
theorem Effect.displaced {p : Program} {offset : Nat} {a a' b : State} {far far' : Nat}
    {written : Option Char} (h : Effect p a far written a' far') (hs : a.Displaced offset b)
    (farther : Nat) :
    ∃ b' farther', Effect p b farther written b' farther' ∧ a'.Displaced offset b' := by
  have hpc := hs.pc_eq
  have hptr := hs.dataPtr_eq
  have hcell := hs.cell_eq
  cases h with
  | comment here => exact ⟨b, farther, .comment (hpc ▸ here), hs⟩
  | moveRight here =>
      refine ⟨_, _, .moveRight (hpc ▸ here), { hs with dataPtr_eq := ?_ }⟩
      show b.dataPtr + 1 = a.dataPtr + 1 + offset
      omega
  | @moveLeft ptr here above =>
      have above' : b.dataPtr = ptr + offset + 1 := by omega
      exact ⟨_, _, .moveLeft (hpc ▸ here) above', { hs with dataPtr_eq := rfl }⟩
  | increment here => exact ⟨_, _, .increment (hpc ▸ here), hs.addCell 1⟩
  | decrement here => exact ⟨_, _, .decrement (hpc ▸ here), hs.addCell (-1)⟩
  | @output c here char =>
      have char' : b.mode.toChar? b.cell = some c := by
        rw [hs.mode_eq, hcell]
        exact char
      exact ⟨_, _, .output (hpc ▸ here) char', hs.touchCell.pushOutput c⟩
  | @loopOpen j here pair =>
      have heffect : Effect p b farther none _ farther := .loopOpen (hpc ▸ here) (hpc ▸ pair)
      rw [hcell, hpc] at heffect
      exact ⟨_, _, heffect, hs.touchCell.setPc _⟩
  | @loopClose i here pair =>
      have heffect : Effect p b farther none _ farther := .loopClose (hpc ▸ here) (hpc ▸ pair)
      rw [hcell, hpc] at heffect
      exact ⟨_, _, heffect, hs.touchCell.setPc _⟩

namespace Machine

/-! ## One step -/

/-- The machine `b` is the machine `a` with its data pointer `offset` cells further
    to the right, and reads the same there. -/
structure Displaced (offset : Nat) (a b : Machine) : Prop where
  state : a.state.Displaced offset b.state
  program_eq : b.program = a.program
  matching_eq : b.matching = a.matching
  stepLimit_eq : b.stepLimit = a.stepLimit
  steps_eq : b.steps = a.steps
  halted_eq : b.halted = a.halted

/-- The next step does not fail at cell 0. -/
def StaysOnTape (m : Machine) : Prop :=
  ∀ pos, m.step.1 ≠ .error (.dataPointerUnderflow pos)

variable {a b m : Machine} {offset : Nat}

/-- A step changes no cell but the current one. -/
theorem get_next {i : Nat} (hi : i ≠ m.state.dataPtr) :
    m.next.state.tape.get i = m.state.tape.get i := by
  rw [next]
  rcases m.step_cases with ⟨-, hs⟩ | ⟨f, hs⟩ | ⟨written, s, far, -, heffect, hs⟩
  · rw [hs]
  · rw [hs]
  · rw [hs]
    dsimp only
    rw [advance_tape]
    exact heffect.get_eq hi

namespace Displaced

theorem ready (h : a.Displaced offset b) (hr : a.Ready) : b.Ready :=
  hr.of_same h.halted_eq h.program_eq h.stepLimit_eq h.steps_eq

/-- Moving on is answered alike, and keeps them apart by the same offset. -/
theorem advance (h : a.Displaced offset b) (written : Option Char) :
    (b.advance written).1 = (a.advance written).1 ∧
      (a.advance written).2.Displaced offset (b.advance written).2 := by
  have hlast : b.program.size ≤ b.state.pc + 1 ↔ a.program.size ≤ a.state.pc + 1 := by
    rw [h.program_eq, h.state.pc_eq]
  have hsteps : b.steps + 1 = a.steps + 1 := congrArg (· + 1) h.steps_eq
  refine ⟨?_, ?_⟩
  · rw [advance_signal, advance_signal, if_congr hlast rfl rfl]
  · by_cases ha : a.program.size ≤ a.state.pc + 1
    · rw [advance_of_last ha, advance_of_last (hlast.mpr ha)]
      exact { h with steps_eq := hsteps, halted_eq := rfl }
    · rw [advance_of_more ha, advance_of_more (mt hlast.mp ha), h.state.pc_eq]
      exact { h with steps_eq := hsteps, state := h.state.setPc _ }

/-- A byte that fails, but not at cell 0, fails in both places alike. -/
theorem fault (h : a.Displaced offset b) {f : Fault} (hf : a.InstructionFault f)
    (hstays : offset = 0 ∨ ∀ pos, f ≠ .dataPointerUnderflow pos) : b.InstructionFault f := by
  have hpc := h.state.pc_eq
  cases hf with
  | underflow hb h0 =>
      have hoffset : offset = 0 := hstays.resolve_right (fun hne => hne _ rfl)
      have hptr : b.state.dataPtr = 0 := by
        rw [h.state.dataPtr_eq, h0, hoffset]
      rw [← h.program_eq, ← hpc] at hb
      rw [← hpc]
      exact .underflow hb hptr
  | unimplemented hb =>
      rw [← h.program_eq, ← hpc] at hb
      rw [← hpc]
      exact .unimplemented hb
  | invalid hb hmode hn =>
      rw [← h.program_eq, ← hpc] at hb
      rw [← h.state.cell_eq] at hn ⊢
      rw [← hpc]
      exact .invalid hb (h.state.mode_eq.trans hmode) hn

/-- A step is the same in both places. -/
theorem step (h : a.Displaced offset b) (hstays : offset = 0 ∨ a.StaysOnTape) :
    b.step.1 = a.step.1 ∧ a.next.Displaced offset b.next := by
  rw [next, next]
  rcases a.done_or_exhausted_or_ready with hd | ⟨hh, he, limit, hx⟩ | hr
  · have hd' : b.halted = true ∨ b.program.size = 0 := by
      rw [h.halted_eq, h.program_eq]
      exact hd
    rw [step_of_done hd, step_of_done hd']
    exact ⟨rfl, { h with halted_eq := rfl }⟩
  · have hx' : b.exhausted? = some limit := by
      rw [exhausted?, h.stepLimit_eq, h.steps_eq]
      exact hx
    rw [step_of_exhausted hh he hx,
      step_of_exhausted (h.halted_eq.trans hh) (h.program_eq ▸ he) hx']
    exact ⟨rfl, h⟩
  · rcases a.exists_effect_or_fault with ⟨written, s, far, heffect⟩ | ⟨f, hf⟩
    · obtain ⟨s', far', heffect', hs'⟩ := heffect.displaced h.state b.maxDataPtr
      rw [← h.program_eq] at heffect'
      rw [hr.step_of_effect heffect, (h.ready hr).step_of_effect heffect']
      have hmiddle : ({ a with state := s, maxDataPtr := far } : Machine).Displaced offset
          { b with state := s', maxDataPtr := far' } := { h with state := hs' }
      obtain ⟨hsignal, hleft⟩ := hmiddle.advance written
      exact ⟨congrArg Except.ok hsignal, hleft⟩
    · have hstep := hr.step_of_error (execute_of_fault hf)
      have hf' : b.InstructionFault f := by
        refine h.fault hf (hstays.imp_right ?_)
        rintro hne pos rfl
        exact hne pos (congrArg Prod.fst hstep)
      rw [hstep, (h.ready hr).step_of_error (execute_of_fault hf')]
      exact ⟨rfl, h⟩

/-- The cells in front of those that the program works on are left alone. -/
theorem get_next_of_lt (h : a.Displaced offset b) {i : Nat} (hi : i < offset) :
    b.next.state.tape.get i = b.state.tape.get i := by
  refine get_next ?_
  rw [h.state.dataPtr_eq]
  omega

/-! ## Whole runs -/

/-- Any number of steps keeps the machines apart by the same offset, as long as the left one
    does not fail at cell 0. -/
theorem iterate (h : a.Displaced offset b) {n : Nat}
    (hstays : ∀ i, i < n → offset = 0 ∨ (Machine.next^[i] a).StaysOnTape) {i : Nat} (hi : i ≤ n) :
    (Machine.next^[i] a).Displaced offset (Machine.next^[i] b) := by
  induction i with
  | zero => exact h
  | succ i ih =>
      rw [Function.iterate_succ_apply', Function.iterate_succ_apply']
      exact ((ih (Nat.le_of_lt hi)).step (hstays i hi)).2

/-- The cells in front of the offset keep what they hold. -/
theorem get_iterate (h : a.Displaced offset b) {n : Nat}
    (hstays : ∀ i, i < n → offset = 0 ∨ (Machine.next^[i] a).StaysOnTape) {i : Nat} (hi : i ≤ n)
    {j : Nat} (hj : j < offset) :
    (Machine.next^[i] b).state.tape.get j = b.state.tape.get j := by
  induction i with
  | zero => rfl
  | succ i ih =>
      have hbefore := h.iterate hstays (Nat.le_of_lt hi)
      rw [Function.iterate_succ_apply', hbefore.get_next_of_lt hj, ih (Nat.le_of_lt hi)]

/-- A run that does not fail at cell 0 ends in both places, with the same answer. -/
theorem ends (h : a.Displaced offset b) {status : RunStatus} {a' : Machine}
    (hends : a.Ends status a')
    (hstays : offset = 0 ∨ ∀ pos, status ≠ .failed (.dataPointerUnderflow pos)) :
    ∃ b', b.Ends status b' ∧ a'.Displaced offset b' := by
  obtain ⟨hne, n, hn⟩ := hends
  obtain ⟨k, hbefore, hend, rfl⟩ := exists_first_end hne hn
  have hsteps : ∀ i, i < k + 1 → offset = 0 ∨ (Machine.next^[i] a).StaysOnTape := by
    intro i hi
    refine hstays.imp_right ?_
    intro hstatus pos hf
    rcases Nat.lt_succ_iff_lt_or_eq.mp hi with hlt | rfl
    · have := hbefore i hlt
      rw [hf] at this
      cases this
    · rw [hf] at hend
      exact hstatus pos (Option.some.inj hend).symm
  have hanswer := ((h.iterate hsteps (Nat.le_succ k)).step (hsteps k (Nat.lt_succ_self k))).1
  refine ⟨Machine.next^[k + 1] b, ends_iff.mpr ⟨k, ?_, rfl⟩, h.iterate hsteps (Nat.le_refl _)⟩
  rw [hanswer]
  exact hend

/-- If the left one runs forever, so does the right one. -/
theorem runsForever (h : a.Displaced offset b) (hforever : a.RunsForever) : b.RunsForever := by
  rw [runsForever_iff] at hforever ⊢
  intro n
  have hsteps : ∀ i, i < n + 1 → offset = 0 ∨ (Machine.next^[i] a).StaysOnTape := by
    intro i _
    refine Or.inr ?_
    intro pos hf
    have := hforever i
    rw [hf] at this
    cases this
  have hanswer := ((h.iterate hsteps (Nat.le_succ n)).step (hsteps n (Nat.lt_succ_self n))).1
  rw [hanswer]
  exact hforever n

end Displaced

/-- **The place on the tape is invisible.**  Let the machine `b` be like `a`, but
    `offset` cells further to the right, whatever stands in front of these cells
    and however much of either tape is allocated.  As long as `a` does not fail
    at cell 0, each step of `b` answers as that of `a` does, `b` is `offset` cells
    further to the right than `a` after each step, and has not touched the cells
    in front.  So a run of `a` that ends otherwise is a run of `b` that ends in the
    same way, and one that never ends never ends for `b`.  With no offset a failure
    at cell 0 is the same for both as well: tapes that differ in what is allocated
    cannot be told apart. -/
theorem tape_position_is_invisible {offset : Nat} {a b : Machine} (h : a.Displaced offset b) :
    (∀ n, (∀ i, i < n → (next^[i] a).StaysOnTape) →
      (∀ i, i < n → (next^[i] b).step.1 = (next^[i] a).step.1) ∧
      ∀ i, i ≤ n → (next^[i] a).Displaced offset (next^[i] b) ∧
        ∀ j, j < offset → (next^[i] b).state.tape.get j = b.state.tape.get j) ∧
    (∀ status a', a.Ends status a' → (∀ pos, status ≠ .failed (.dataPointerUnderflow pos)) →
      ∃ b', b.Ends status b' ∧ a'.Displaced offset b') ∧
    (a.RunsForever → b.RunsForever) ∧
    (offset = 0 →
      (∀ n, (next^[n] b).step.1 = (next^[n] a).step.1 ∧
        (next^[n] a).Displaced 0 (next^[n] b)) ∧
      ∀ status a', a.Ends status a' → ∃ b', b.Ends status b' ∧ a'.Displaced 0 b') := by
  refine ⟨?_, ?_, h.runsForever, ?_⟩
  · intro n hstays
    have hsteps : ∀ i, i < n → offset = 0 ∨ (next^[i] a).StaysOnTape :=
      fun i hi => Or.inr (hstays i hi)
    refine ⟨?_, ?_⟩
    · intro i hi
      exact ((h.iterate hsteps (Nat.le_of_lt hi)).step (hsteps i hi)).1
    · intro i hi
      exact ⟨h.iterate hsteps hi, fun j hj => h.get_iterate hsteps hi hj⟩
  · intro status a' hends hstatus
    exact h.ends hends (Or.inr hstatus)
  · rintro rfl
    refine ⟨?_, ?_⟩
    · intro n
      have hn := h.iterate (n := n) (fun i _ => Or.inl rfl) (Nat.le_refl n)
      exact ⟨(hn.step (Or.inl rfl)).1, hn⟩
    · intro status a' hends
      exact h.ends hends (Or.inl rfl)

/-- `[->+<]` moves its cell to the next one, behind two cells that hold 9 and 7. -/
theorem tape_position_is_invisible_behind_two_cells :
    let p : Program := ⟨#[0x5B, 0x2D, 0x3E, 0x2B, 0x3C, 0x5D], Table.empty.addPair 0 5, rfl⟩
    let a : Machine :=
      { program := p, state := { tape := ⟨#[2]⟩ }, matching := .scan, stepLimit := some 20 }
    let b : Machine :=
      { a with state := { tape := ⟨#[9, 7, 2, 0]⟩, dataPtr := 2 }, maxDataPtr := 5 }
    a.Displaced 2 b ∧ (∀ i, i < 11 → (next^[i] a).StaysOnTape) ∧
      (next^[11] a).state.tape.cells = #[0, 2] ∧ (next^[11] a).Displaced 2 (next^[11] b) ∧
      (next^[11] b).state.tape.get 0 = 9 ∧ (next^[11] b).state.tape.get 1 = 7 := by
  intro p a b
  have hstate : a.state.Displaced 2 b.state := by
    refine ⟨rfl, rfl, rfl, rfl, ?_⟩
    intro i
    match i with
    | 0 => rfl
    | 1 => rfl
    | n + 2 => rfl
  have h : a.Displaced 2 b := ⟨hstate, rfl, rfl, rfl, rfl, rfl⟩
  have hok : ∀ i, i < 11 → (next^[i] a).step.1.isOk = true := by decide +kernel
  have hstays : ∀ i, i < 11 → (next^[i] a).StaysOnTape := by
    intro i hi pos hf
    have := hok i hi
    rw [hf] at this
    cases this
  have hcells : (next^[11] a).state.tape.cells = #[0, 2] := by decide +kernel
  obtain ⟨hleft, hfront⟩ := ((tape_position_is_invisible h).1 11 hstays).2 11 (Nat.le_refl 11)
  exact ⟨h, hstays, hcells, hleft, hfront 0 (by decide), hfront 1 (by decide)⟩

end Machine

end TapeMachine
