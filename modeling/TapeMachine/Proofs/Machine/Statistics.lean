import Mathlib.Data.Finset.Lattice.Fold
import Mathlib.Data.Nat.Count
import Mathlib.Order.Lattice.Nat
import TapeMachine.Proofs.Machine.Limit
import TapeMachine.Proofs.Machine.Trace

/-! # What a run has used

    A machine keeps three numbers: the bytes it has carried out, the rightmost
    cell it has moved to and, as the size of its tape, the cells it has allocated.
    Each is told here by what the steps of the run have done: by how many steps
    have carried out a byte (`steps_iterate_eq_count`), by where the data pointer
    has been (`maxDataPtr_iterate`), and by where it was when an instruction
    looked at its cell (`tapeSize_iterate`).  Failing steps, and steps after the
    end, count for nothing.

    None of the three can run away from the others: to get one cell further, or
    to allocate one more, takes a step (`WithinMeans`).  So a step limit is a
    limit on memory. -/

namespace TapeMachine

/-- The instructions that look at the current cell, and so allocate it. -/
def Instruction.looksAtCell : Instruction → Bool
  | increment | decrement | output | loopOpen | loopClose => true
  | moveRight | moveLeft | input => false

/-! ## One byte -/

/-- What a byte acts on, apart from the program counter and the cell mode. -/
def State.store (s : State) (far : Nat) : Store where
  tape := s.tape
  dataPtr := s.dataPtr
  output := s.output
  maxDataPtr := far

/-- No number of the store is larger than the steps taken so far allow. -/
structure Store.WithinMeans (s : Store) (steps : Nat) : Prop where
  dataPtr_le : s.dataPtr ≤ s.maxDataPtr
  maxDataPtr_le : s.maxDataPtr ≤ steps
  tapeSize_le_maxDataPtr : s.tape.size ≤ s.maxDataPtr + 1
  tapeSize_le_steps : s.tape.size ≤ steps
  outputLength_le : s.output.length ≤ steps

namespace Effect

variable {p : Program} {s s' : State} {far far' : Nat} {written : Option Char}
  (h : Effect p s far written s' far')
include h

/-- The tape grows up to the current cell if the instruction looks at it, and else not at all. -/
theorem tapeSize_eq : s'.tape.size =
    if (p.instructionAt? s.pc).any Instruction.looksAtCell then max s.tape.size (s.dataPtr + 1)
    else s.tape.size := by
  cases h with
  | comment here => rw [here]; rfl
  | moveRight here => rw [here]; rfl
  | moveLeft here above => rw [here]; rfl
  | increment here => rw [here]; exact Tape.size_set _ _ _
  | decrement here => rw [here]; exact Tape.size_set _ _ _
  | output here char => rw [here]; exact Tape.size_touch _ _
  | loopOpen here pair => rw [here]; exact Tape.size_touch _ _
  | loopClose here pair => rw [here]; exact Tape.size_touch _ _

/-- What a byte allocates reaches at most to the cell it stands on. -/
theorem tapeSize_le : s'.tape.size ≤ max s.tape.size (s.dataPtr + 1) := by
  rw [h.tapeSize_eq]
  split
  · exact Nat.le_refl _
  · exact Nat.le_max_left _ _

/-- A byte takes the data pointer at most one cell further. -/
theorem dataPtr_le : s'.dataPtr ≤ s.dataPtr + 1 := by
  cases h with
  | moveRight here => exact Nat.le_refl _
  | @moveLeft ptr here above =>
      show ptr ≤ s.dataPtr + 1
      omega
  | comment here => exact Nat.le_succ _
  | increment here => exact Nat.le_succ _
  | decrement here => exact Nat.le_succ _
  | output here char => exact Nat.le_succ _
  | loopOpen here pair => exact Nat.le_succ _
  | loopClose here pair => exact Nat.le_succ _

/-- The rightmost cell is kept by the one byte that moves to the right. -/
theorem far_eq (hs : s.dataPtr ≤ far) : far' = max far s'.dataPtr := by
  cases h with
  | moveRight here => rfl
  | @moveLeft ptr here above =>
      show far = max far ptr
      omega
  | comment here => exact (Nat.max_eq_left hs).symm
  | increment here => exact (Nat.max_eq_left hs).symm
  | decrement here => exact (Nat.max_eq_left hs).symm
  | output here char => exact (Nat.max_eq_left hs).symm
  | loopOpen here pair => exact (Nat.max_eq_left hs).symm
  | loopClose here pair => exact (Nat.max_eq_left hs).symm

theorem outputLength_le : s'.output.length ≤ s.output.length + 1 := by
  rw [← String.length_toList, ← String.length_toList, h.output_eq, List.length_append]
  cases written with
  | none => exact Nat.le_succ _
  | some c => exact Nat.le_refl _

/-- A byte costs a step, and that pays for all it does. -/
theorem withinMeans {k : Nat} (hs : (s.store far).WithinMeans k) :
    (s'.store far').WithinMeans (k + 1) := by
  obtain ⟨hptr, hfar, htape, hsteps, hout⟩ := hs
  have hptr' := h.dataPtr_le
  have hfar' := h.far_eq hptr
  have htape' := h.tapeSize_le
  have hout' := h.outputLength_le
  simp only [State.store] at hptr hfar htape hsteps hout
  refine ⟨?_, ?_, ?_, ?_, ?_⟩
  · show s'.dataPtr ≤ far'
    omega
  · show far' ≤ k + 1
    omega
  · show s'.tape.size ≤ far' + 1
    omega
  · show s'.tape.size ≤ k + 1
    omega
  · show s'.output.length ≤ k + 1
    omega

end Effect

namespace Machine

/-! ## One step -/

/-- Whether the next step carries out an instruction that looks at its cell. -/
def looksAtCell (m : Machine) : Bool :=
  m.carriesOut && (m.program.instructionAt? m.state.pc).any Instruction.looksAtCell

variable {m : Machine}

@[simp] theorem store_advance (m : Machine) (written : Option Char) :
    (m.advance written).2.store = m.store := by
  rw [advance]
  split
  · rfl
  · rfl

/-- A step carries out a byte by its effect and counts it, or it carries out
    nothing and leaves the store and the count. -/
theorem next_cases (m : Machine) :
    (m.carriesOut = true ∧ m.next.steps = m.steps + 1 ∧ ∃ written s far,
      Effect m.program m.state m.maxDataPtr written s far ∧ m.next.store = s.store far) ∨
    (m.carriesOut = false ∧ m.next.steps = m.steps ∧ m.next.store = m.store) := by
  rw [carriesOut]
  rcases m.event?_cases with ⟨he, -, hstore, hsteps⟩ | ⟨he, hsteps⟩
  · exact Or.inr ⟨by rw [he]; rfl, hsteps, hstore⟩
  · refine Or.inl ⟨by rw [he]; rfl, hsteps, ?_⟩
    rw [next]
    rcases m.step_cases with ⟨hd, hs⟩ | ⟨f, hs⟩ | ⟨written, s, far, -, heffect, hs⟩
    · rw [event?_of_done hd] at he
      cases he
    · rw [event?_of_error (congrArg Prod.fst hs)] at he
      cases he
    · refine ⟨written, s, far, heffect, ?_⟩
      rw [hs, store_advance]
      rfl

/-- A step counts exactly if it carries something out. -/
theorem steps_next (m : Machine) :
    m.next.steps = m.steps + if m.carriesOut = true then 1 else 0 := by
  rcases m.next_cases with ⟨hc, hs, -⟩ | ⟨hc, hs, -⟩
  · rw [hs, hc, if_pos rfl]
  · rw [hs, hc, if_neg Bool.false_ne_true]
    rfl

/-- A step lets the tape grow up to the cell that its instruction looks at. -/
theorem tapeSize_next (m : Machine) : m.next.state.tape.size =
    if m.looksAtCell then max m.state.tape.size (m.state.dataPtr + 1) else m.state.tape.size := by
  rcases m.next_cases with ⟨hc, -, written, s, far, heffect, hstore⟩ | ⟨hc, -, hstore⟩
  · obtain ⟨htape, -⟩ := Store.mk.inj hstore
    rw [htape, heffect.tapeSize_eq, looksAtCell, hc, Bool.true_and]
  · obtain ⟨htape, -⟩ := Store.mk.inj hstore
    rw [htape, looksAtCell, hc, Bool.false_and, if_neg Bool.false_ne_true]

/-- The rightmost cell moved to is the larger of what it was and where the step leads. -/
theorem maxDataPtr_next (h : m.state.dataPtr ≤ m.maxDataPtr) :
    m.next.maxDataPtr = max m.maxDataPtr m.next.state.dataPtr := by
  rcases m.next_cases with ⟨-, -, written, s, far, heffect, hstore⟩ | ⟨-, -, hstore⟩
  · obtain ⟨-, hptr, -, hfar⟩ := Store.mk.inj hstore
    rw [hptr, hfar, heffect.far_eq h]
  · obtain ⟨-, hptr, -, hfar⟩ := Store.mk.inj hstore
    rw [hptr, hfar, Nat.max_eq_left h]

/-- No step makes a number of the store larger than the steps taken by then allow. -/
theorem withinMeans_next (h : m.store.WithinMeans m.steps) :
    m.next.store.WithinMeans m.next.steps := by
  rcases m.next_cases with ⟨-, hcount, written, s, far, heffect, hstore⟩ | ⟨-, hcount, hstore⟩
  · rw [hcount, hstore]
    exact heffect.withinMeans h
  · rw [hcount, hstore]
    exact h

/-! ## Whole runs -/

/-- Nor do any number of them. -/
theorem withinMeans_iterate (h : m.store.WithinMeans m.steps) (n : Nat) :
    (next^[n] m).store.WithinMeans (next^[n] m).steps := by
  induction n with
  | zero => exact h
  | succ n ih =>
      rw [Function.iterate_succ_apply']
      exact withinMeans_next ih

/-- The steps counted are those that carried something out. -/
theorem steps_iterate_eq_count (m : Machine) (n : Nat) :
    (next^[n] m).steps = m.steps + Nat.count (fun i => (next^[i] m).carriesOut = true) n := by
  induction n with
  | zero => rfl
  | succ n ih => rw [Function.iterate_succ_apply', steps_next, ih, Nat.count_succ, Nat.add_assoc]

/-- Where the data pointer has been furthest to the right. -/
theorem maxDataPtr_iterate (h : m.store.WithinMeans m.steps) (n : Nat) : (next^[n] m).maxDataPtr
    = max m.maxDataPtr ((Finset.range (n + 1)).sup fun i => (next^[i] m).state.dataPtr) := by
  induction n with
  | zero =>
      rw [Finset.range_one, Finset.sup_singleton]
      exact (Nat.max_eq_left h.dataPtr_le).symm
  | succ n ih =>
      have hptr : (next^[n] m).state.dataPtr ≤ (next^[n] m).maxDataPtr :=
        (withinMeans_iterate h n).dataPtr_le
      rw [Finset.range_add_one, Finset.sup_insert, Function.iterate_succ_apply',
        maxDataPtr_next hptr, ih, Nat.max_assoc, Nat.max_comm (Finset.sup _ _)]

/-- Where it was furthest to the right when an instruction looked at its cell. -/
theorem tapeSize_iterate (m : Machine) (n : Nat) : (next^[n] m).state.tape.size
    = max m.state.tape.size (((Finset.range n).filter fun i => (next^[i] m).looksAtCell = true).sup
        fun i => (next^[i] m).state.dataPtr + 1) := by
  induction n with
  | zero => exact (Nat.max_eq_left (Nat.zero_le _)).symm
  | succ n ih =>
      rw [Function.iterate_succ_apply', tapeSize_next, ih, Finset.range_add_one,
        Finset.filter_insert]
      split
      · rw [Finset.sup_insert, Nat.max_assoc, Nat.max_comm (Finset.sup _ _)]
      · rfl

/-- **What a run has used.**  After any number of steps on a machine just loaded,
    failing ones and those after the end included, the step count is the number
    of steps that have carried out a byte; the rightmost cell is the rightmost
    one the data pointer has stood on at any time; and the tape is allocated up
    to the rightmost cell on which a `+`, `-`, `.`, `[` or `]` has been carried
    out, or not at all if there was none.  None of these numbers, nor the length
    of the output, is larger than the step count, and a step limit bounds the
    tape. -/
theorem run_statistics_exact (p : Program) (settings : Settings) (n : Nat) :
    let fresh := load p settings
    let m := next^[n] fresh
    m.steps = Nat.count (fun i => (next^[i] fresh).carriesOut = true) n ∧
    m.maxDataPtr = (Finset.range (n + 1)).sup (fun i => (next^[i] fresh).state.dataPtr) ∧
    m.state.tape.size = ((Finset.range n).filter fun i => (next^[i] fresh).looksAtCell = true).sup
      (fun i => (next^[i] fresh).state.dataPtr + 1) ∧
    m.state.dataPtr ≤ m.maxDataPtr ∧ m.maxDataPtr ≤ m.steps ∧
    m.state.tape.size ≤ m.maxDataPtr + 1 ∧ m.state.tape.size ≤ m.steps ∧
    m.state.output.length ≤ m.steps ∧
    (∀ limit, settings.stepLimit = some limit → m.state.tape.size ≤ limit) := by
  intro fresh m
  have hload : fresh.store.WithinMeans fresh.steps :=
    ⟨Nat.le_refl 0, Nat.le_refl 0, Nat.zero_le 1, Nat.le_refl 0, Nat.le_refl 0⟩
  have hm : m.store.WithinMeans m.steps := withinMeans_iterate hload n
  refine ⟨?_, ?_, ?_, hm.dataPtr_le, hm.maxDataPtr_le, hm.tapeSize_le_maxDataPtr,
    hm.tapeSize_le_steps, hm.outputLength_le, ?_⟩
  · exact (steps_iterate_eq_count _ n).trans (Nat.zero_add _)
  · exact (maxDataPtr_iterate hload n).trans (Nat.max_eq_right (Nat.zero_le _))
  · exact (tapeSize_iterate _ n).trans (Nat.max_eq_right (Nat.zero_le _))
  · intro limit hlimit
    exact Nat.le_trans hm.tapeSize_le_steps
      (steps_iterate_le_limit hlimit (Nat.zero_le limit) n)

/-- `+[>+]` allocates one cell after the other until it is cut off. -/
theorem run_statistics_exact_cut_off :
    let p : Program := ⟨#[0x2B, 0x5B, 0x3E, 0x2B, 0x5D], Bracket.Table.empty.addPair 1 4, rfl⟩
    let settings : Settings := { stepLimit := some 9 }
    settings.stepLimit = some 9 ∧ (next^[20] (load p settings)).steps = 9 ∧
      (next^[20] (load p settings)).state.tape.size ≤ 9 := by
  intro p settings
  have hlimit : settings.stepLimit = some 9 := rfl
  have hsteps : (next^[20] (load p settings)).steps = 9 := by decide +kernel
  have hbound := (run_statistics_exact p settings 20).2.2.2.2.2.2.2.2 9 hlimit
  exact ⟨hlimit, hsteps, hbound⟩

end Machine

end TapeMachine
