import TapeMachine.Proofs.Machine.Trace
import TapeMachine.Proofs.Structured.CountingLoop
import TapeMachine.Proofs.Text.Symbols

/-! # The clear loop

    Wherever `[-]` stands in a program, it counts the current cell down to zero,
    in two steps for each unit and one for the last test, and leaves everything
    else as it is.  The induction is on the value of the cell, from either of the
    two places where the loop is tested (`clears_from`); the store around the
    cell is carried along by `Store.SameElsewhere`.

    This is a statement on any machine that has come to the loop, with a cell that
    is not below zero.  Behind `k` times `+` the cell is what the cell mode leaves
    of `k`, so with byte cells the loop may go round less than `k` times. -/

namespace TapeMachine

open TapeMachine.Bracket

/-- The stores differ in nothing but the current cell, and in what is allocated. -/
structure Store.SameElsewhere (s t : Store) : Prop where
  dataPtr_eq : t.dataPtr = s.dataPtr
  output_eq : t.output = s.output
  maxDataPtr_eq : t.maxDataPtr = s.maxDataPtr
  get_eq : ∀ i, i ≠ s.dataPtr → t.tape.get i = s.tape.get i

namespace Store.SameElsewhere

variable {s t u : Store}

/-- Allocating a cell changes nothing that is read. -/
theorem touch (s : Store) : s.SameElsewhere s.touch where
  dataPtr_eq := rfl
  output_eq := rfl
  maxDataPtr_eq := rfl
  get_eq := fun i _ => Tape.get_touch s.tape s.dataPtr i

theorem put (mode : CellMode) (v : Int64) (s : Store) : s.SameElsewhere (s.put mode v) where
  dataPtr_eq := rfl
  output_eq := rfl
  maxDataPtr_eq := rfl
  get_eq := by
    intro i hi
    show (s.tape.set s.dataPtr _).get i = s.tape.get i
    rw [Tape.get_set, if_neg hi]

/-- Two such differences one after the other are one. -/
theorem trans (h : s.SameElsewhere t) (h' : t.SameElsewhere u) : s.SameElsewhere u where
  dataPtr_eq := h'.dataPtr_eq.trans h.dataPtr_eq
  output_eq := h'.output_eq.trans h.output_eq
  maxDataPtr_eq := h'.maxDataPtr_eq.trans h.maxDataPtr_eq
  get_eq := by
    intro i hi
    have hi' : i ≠ t.dataPtr := by
      rw [h.dataPtr_eq]
      exact hi
    exact (h'.get_eq i hi').trans (h.get_eq i hi)

end Store.SameElsewhere

/-- At `p` stands the loop `[-]`. -/
structure Program.ClearsAt (program : Program) (p : Nat) : Prop where
  open_at : program.code[p]? = some Instruction.loopOpen.byte
  minus_at : program.code[p + 1]? = some Instruction.decrement.byte
  close_at : program.code[p + 2]? = some Instruction.loopClose.byte

/-- The brackets of `[-]` are a matched pair. -/
theorem Program.ClearsAt.matched {program : Program} {p : Nat} (h : program.ClearsAt p) :
    Matched program.code.toList p (p + 2) where
  lt := by omega
  open_at := Array.getElem?_toList.trans h.open_at
  close_at := Array.getElem?_toList.trans h.close_at
  inside := by
    have hcut := between_cut (Nat.lt_succ_self p) (Nat.lt_succ_self (p + 1))
      (Array.getElem?_toList.trans h.minus_at)
    have hnone : ∀ i, between program.code.toList i (i + 1) = [] := by simp [between]
    rw [hnone, hnone, List.nil_append] at hcut
    rw [hcut]
    exact balanced_plain (by decide)

namespace Machine

variable {m : Machine} {s : Store} {p q k v : Nat}

/-- A round of the loop is its test and its `-`. -/
theorem clear_round (hm : m.stepLimit = none) (hclear : m.program.ClearsAt p)
    (hq : q = p ∨ q = p + 2) (nonzero : s.cell ≠ 0) :
    ∃ s', next^[2] (m.reached s q k) = m.reached s' (p + 2) (k + 2) ∧
      s'.cell = m.state.mode.normalize (s.cell - 1) ∧ s.SameElsewhere s' ∧
      ((m.reached s q k).trace 2).map Event.pos = [q, p + 1] := by
  have htest := execute_running_of_test s k hclear.matched hq
  rw [if_neg nonzero] at htest
  have hminus : m.program.code.toList[p + 1]? = some Instruction.decrement.byte :=
    Array.getElem?_toList.trans hclear.minus_at
  obtain ⟨written, hexecute⟩ := execute_running_of_act (k + 1) hminus (by decide)
    (s := s.touch) (m := m) rfl
  have hlt := lt_size_of_test hclear.matched hq
  have hlt' := (List.getElem?_eq_some_iff.mp hminus).1
  refine ⟨s.touch.put m.state.mode (s.touch.cell - 1), ?_, ?_, ?_, ?_⟩
  · rw [Function.iterate_succ_apply, next_reached hm hlt htest]
    exact next_reached hm hlt' hexecute
  · rw [Store.cell_put, Store.cell_touch]
  · exact (Store.SameElsewhere.touch s).trans (.put _ _ _)
  · rw [trace_reached_succ hm hlt htest, trace_reached_succ hm hlt' hexecute]
    rfl

/-- From a test of the loop, at its `[` or at its `]`, with `v` in the cell. -/
theorem clears_from (hm : m.stepLimit = none) (hclear : m.program.ClearsAt p)
    (hq : q = p ∨ q = p + 2) (hv : s.cell.toInt = v) (kept : m.state.mode.reduce v = v) :
    ∃ t, next^[1 + 2 * v] (m.reached s q k) = m.reached t (p + 3) (k + (1 + 2 * v)) ∧
      t.cell = 0 ∧ s.SameElsewhere t ∧
      ((m.reached s q k).trace (1 + 2 * v)).map Event.pos
        = q :: (List.replicate v [p + 1, p + 2]).flatten := by
  induction v generalizing s q k with
  | zero =>
      have zero : s.cell = 0 := eq_zero_iff_toInt.mpr hv
      have htest := execute_running_of_test s k hclear.matched hq
      rw [if_pos zero] at htest
      have hlt := lt_size_of_test hclear.matched hq
      refine ⟨s.touch, next_reached hm hlt htest, ?_, .touch s, ?_⟩
      · rw [Store.cell_touch, zero]
      · rw [trace_reached_succ hm hlt htest]
        rfl
  | succ v ih =>
      have nonzero : s.cell ≠ 0 := by
        rw [Ne, eq_zero_iff_toInt, hv]
        omega
      obtain ⟨s', hround, hcell, hsame, htrace⟩ := clear_round (k := k) hm hclear hq nonzero
      have hv' : s'.cell.toInt = v := by
        rw [hcell]
        exact CellMode.toInt_normalize_sub_one hv kept
      have kept' : m.state.mode.reduce v = v :=
        CellMode.reduce_of_le kept (Int.natCast_nonneg v) (by omega)
      obtain ⟨t, hrest, hzero, hsame', htrace'⟩ := ih (k := k + 2) (Or.inr rfl) hv' kept'
      have hcost : 1 + 2 * (v + 1) = 2 + (1 + 2 * v) := by omega
      rw [hcost]
      refine ⟨t, ?_, hzero, hsame.trans hsame', ?_⟩
      · rw [Nat.add_comm 2, Function.iterate_add_apply, hround, hrest]
        congr 1
        omega
      · rw [trace_add, List.map_append, htrace, hround, htrace', List.replicate_succ,
          List.flatten_cons]
        rfl

/-- As many `-` are carried out as there are rounds. -/
theorem countP_of_rounds {l : List Event}
    (h : l.map Event.pos = p :: (List.replicate v [p + 1, p + 2]).flatten) :
    l.countP (fun e => e.pos = p + 1) = v := by
  have hcount : l.countP (fun e => e.pos = p + 1) = (l.map Event.pos).count (p + 1) := by
    rw [List.count_eq_countP, List.countP_map]
    rfl
  rw [hcount, h, List.count_cons, List.count_flatten, List.map_replicate,
    List.sum_replicate_nat]
  simp

end Machine

/-! ## Behind a number of increments -/

/-- The text of `k` times `+` and `[-]`. -/
def clearing (k : Nat) : String :=
  String.ofList (List.replicate k '+' ++ "[-]".toList)

namespace Block

theorem toUTF8_clearing (k : Nat) :
    (clearing k).toUTF8.data.toList = (pluses k ++ minus.repeated).bytes := by
  let loop : List Instruction := [.loopOpen, .decrement, .loopClose]
  let code : List Instruction := List.replicate k .increment ++ loop
  have hsymbols : clearing k = String.ofList (code.map Instruction.symbol) := by
    simp [clearing, code, loop, Instruction.symbol]
  rw [hsymbols, Instruction.toUTF8_ofList_symbol]
  simp [code, loop, repeated, minus, single, bytes]

end Block

/-- With `r` left of `k` the loop behind `k` times `+` goes round `r` times. -/
theorem Machine.ends_clearing {program : Program} {mode : CellMode} {k r : Nat}
    (hbytes : (Block.pluses k ++ Block.minus.repeated).bytes = program.code.toList)
    (left_eq : mode.reduce k = r) (matching : Matching) :
    ∃ m, (loadUnlimited program mode matching).Ends .finished m ∧
      m.state.tape.get 0 = 0 ∧ m.steps = k + 1 + 2 * r := by
  have hcell : mode.reduce (Contents.empty.add k).cell = r := by
    rw [Contents.add, Contents.cell_put, ← left_eq]
    exact congrArg mode.reduce (Int.zero_add k)
  obtain ⟨m, hends, hsteps, hshows⟩ :=
    ends_of_takes hbytes ((Block.takes_pluses k).append (Block.takes_clear hcell)) matching
  refine ⟨m, hends, hshows.get_eq_zero (Contents.cell_put _ 0), ?_⟩
  rw [hsteps]
  omega

/-- **The clear loop clears.**  Take any machine without a step limit that has come to
    `[-]`, with a value in the cell that is not below zero, nor above 255 if cells
    are bytes.  None of the next `1 + 2 * v` steps fails.  They carry out the `-`
    exactly `v` times and leave zero in the cell; data pointer, output, rightmost
    cell and every other cell are as before.  Control is just behind the `]`, or,
    if that was the last byte, the machine has halted.

    So `k` times `+` and `[-]` end with zero in cell 0.  With byte cells the loop
    goes round as often as `k` modulo 256 says, with wide cells `k` times. -/
theorem clear_loop_clears :
    (∀ (m : Machine) (p v : Nat), m.stepLimit = none → m.halted = false →
      m.state.pc = p → m.program.ClearsAt p → m.state.cell.toInt = v →
      (m.state.mode = .byte → v ≤ 255) →
        let m' := Machine.next^[1 + 2 * v] m
        (∀ k, k < 1 + 2 * v → ∀ f, (Machine.next^[k] m).step.1 ≠ .error f) ∧
        m'.steps = m.steps + (1 + 2 * v) ∧
        (m.trace (1 + 2 * v)).countP (fun e => e.pos = p + 1) = v ∧
        m'.state.cell = 0 ∧ m.store.SameElsewhere m'.store ∧
        (p + 3 < m.program.size → m'.halted = false ∧ m'.state.pc = p + 3) ∧
        (p + 3 = m.program.size → m'.halted = true)) ∧
    ∀ k, ∃ program, Program.ofText? (clearing k) = .ok program ∧ ∀ matching,
      (∃ m, (Machine.loadUnlimited program .byte matching).Ends .finished m ∧
        m.state.tape.get 0 = 0 ∧ m.steps = k + 1 + 2 * (k % 256)) ∧
      (k < 2 ^ 63 → ∃ m, (Machine.loadUnlimited program .wide matching).Ends .finished m ∧
        m.state.tape.get 0 = 0 ∧ m.steps = k + 1 + 2 * k) := by
  refine ⟨?_, ?_⟩
  · intro m p v unlimited running here clears value byte_value m'
    have kept : m.state.mode.reduce v = v := by
      rw [← value]
      refine CellMode.reduce_toInt ?_
      intro hmode
      have := byte_value hmode
      omega
    have hlt : m.state.pc < m.program.size := by
      rw [here]
      exact clears.matched.open_lt
    obtain ⟨t, hreach, hzero, hsame, htrace⟩ := Machine.clears_from (s := m.store)
      (k := m.steps) unlimited clears (Or.inl here) value kept
    rw [Machine.reached_store running hlt] at hreach htrace
    have hm' : m' = m.reached t (p + 3) (m.steps + (1 + 2 * v)) := hreach
    have hsteps : m'.steps = m.steps + (1 + 2 * v) := by
      rw [hm', Machine.steps_reached]
    have hstore : m'.store = t := by
      rw [hm', Machine.store_reached]
    rw [here] at htrace
    refine ⟨?_, hsteps, Machine.countP_of_rounds htrace, ?_, ?_, ?_, ?_⟩
    · intro k hk f
      exact Machine.step_ne_error_of_steps hsteps hk f
    · rw [← hzero, ← hstore]
      rfl
    · rw [hstore]
      exact hsame
    · intro hmore
      rw [hm', Machine.reached_of_lt hmore]
      exact ⟨rfl, rfl⟩
    · intro hlast
      rw [hm', Machine.reached, if_pos ⟨Nat.succ_pos _, Nat.le_of_eq hlast.symm⟩]
  · intro k
    obtain ⟨program, hprogram, hbytes⟩ := Block.exists_ofText? (Block.toUTF8_clearing k)
    refine ⟨program, hprogram, ?_⟩
    intro matching
    have left_byte : CellMode.byte.reduce k = (k % 256 : Nat) := (Int.natCast_emod k 256).symm
    refine ⟨Machine.ends_clearing hbytes left_byte matching, ?_⟩
    intro hk
    have hsize : ((Int64.size : Nat) : Int) = 18446744073709551616 := rfl
    have left_wide : CellMode.wide.reduce k = k := by
      show (k : Int).bmod Int64.size = k
      exact Int.bmod_eq_of_le (by omega) (by omega)
    exact Machine.ends_clearing hbytes left_wide matching

/-- Two rounds in `++[-].`, and three with wide cells. -/
theorem clear_loop_clears_before_output :
    let p : Program := ⟨#[0x2B, 0x2B, 0x5B, 0x2D, 0x5D, 0x2E], Table.empty.addPair 2 4, rfl⟩
    let m := Machine.next^[2] (Machine.loadUnlimited p .byte .scan)
    m.stepLimit = none ∧ m.halted = false ∧ m.state.pc = 2 ∧ m.program.ClearsAt 2 ∧
      m.state.cell.toInt = (2 : Nat) ∧ (m.state.mode = .byte → 2 ≤ 255) ∧
      (Machine.next^[1 + 2 * 2] m).state.cell = 0 ∧
      (Machine.next^[1 + 2 * 2] m).state.pc = 2 + 3 ∧
      3 < 2 ^ 63 ∧ ∃ program, Program.ofText? (clearing 3) = .ok program ∧
        ∃ m, (Machine.loadUnlimited program .wide .table).Ends .finished m ∧
          m.state.tape.get 0 = 0 ∧ m.steps = 3 + 1 + 2 * 3 := by
  intro p m
  have program_eq : m.program = p := Machine.iterate_program _ 2
  have unlimited : m.stepLimit = none := Machine.iterate_stepLimit _ 2
  have running : m.halted = false := by decide +kernel
  have here : m.state.pc = 2 := by decide +kernel
  have clears : m.program.ClearsAt 2 := by
    rw [program_eq]
    exact ⟨rfl, rfl, rfl⟩
  have value : m.state.cell.toInt = (2 : Nat) := by decide +kernel
  have byte_value : m.state.mode = .byte → 2 ≤ 255 := fun _ => by decide
  have more : 2 + 3 < m.program.size := by
    rw [program_eq]
    decide
  have wide_value : 3 < 2 ^ 63 := by decide
  obtain ⟨hmachine, hprograms⟩ := clear_loop_clears
  obtain ⟨-, -, -, hcell, -, hbehind, -⟩ :=
    hmachine m 2 2 unlimited running here clears value byte_value
  obtain ⟨program, hprogram, hends⟩ := hprograms 3
  exact ⟨unlimited, running, here, clears, value, byte_value, hcell, (hbehind more).2,
    wide_value, program, hprogram, (hends .table).2 wide_value⟩

end TapeMachine
