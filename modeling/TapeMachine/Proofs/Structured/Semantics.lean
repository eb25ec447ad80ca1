import TapeMachine.Cell
import TapeMachine.Fault
import TapeMachine.Proofs.Structured.Block
import TapeMachine.Tape

/-! # What a nesting means

    The meaning of a block, without a program counter and without jumps.  A
    block does its items in order.  A loop tests the current cell; if that is
    zero it is over, and otherwise it does its body and is tested again.

    `Exec mode pos b s e t cost` says that the block `b`, whose first byte is at
    position `pos` of the program, takes the store `s` to `t`, ending with `e`,
    at the given cost: one for every byte done and one for every test of a loop,
    the test in front of the body and those after it alike.  `Diverges` is the
    coinductive counterpart for the blocks that do not end; one of the two
    always holds (`exec_or_diverges`). -/

namespace TapeMachine

/-- What a block acts on. -/
structure Store where
  tape : Tape := {}
  dataPtr : Nat := 0
  output : String := ""
  /-- The rightmost cell moved to so far. -/
  maxDataPtr : Nat := 0

namespace Store

/-- The value of the current cell. -/
def cell (s : Store) : Int64 := s.tape.get s.dataPtr

/-- The store after a test, which allocates the cell it looks at. -/
def touch (s : Store) : Store := { s with tape := s.tape.touch s.dataPtr }

/-- Stores `v`, reduced, in the current cell. -/
def put (mode : CellMode) (v : Int64) (s : Store) : Store :=
  { s with tape := s.tape.set s.dataPtr (mode.normalize v) }

/-- Does the byte `b` at position `pos`, or nothing if it is a comment. -/
def act (mode : CellMode) (pos : Nat) (b : UInt8) (s : Store) : Except Fault Store :=
  match Instruction.ofByte? b with
  | some .moveRight =>
      .ok { s with dataPtr := s.dataPtr + 1, maxDataPtr := max s.maxDataPtr (s.dataPtr + 1) }
  | some .moveLeft =>
      if s.dataPtr = 0 then .error (.dataPointerUnderflow pos)
      else .ok { s with dataPtr := s.dataPtr - 1 }
  | some .increment => .ok (s.put mode (s.cell + 1))
  | some .decrement => .ok (s.put mode (s.cell - 1))
  | some .output =>
      match mode.toChar? s.cell with
      | some c => .ok { s.touch with output := s.output.push c }
      | none => .error (.invalidCodePoint s.cell pos)
  | some .input => .error (.unimplementedInstruction ',' pos)
  | some .loopOpen | some .loopClose | none => .ok s

@[simp] theorem cell_touch (s : Store) : s.touch.cell = s.cell :=
  Tape.get_touch s.tape s.dataPtr s.dataPtr

@[simp] theorem cell_put (mode : CellMode) (v : Int64) (s : Store) :
    (s.put mode v).cell = mode.normalize v := by
  show (s.tape.set s.dataPtr _).get s.dataPtr = _
  rw [Tape.get_set, if_pos rfl]

end Store

/-- How a block comes to its end. -/
inductive Ending where
  | finished
  | aborted (fault : Fault)

namespace Block

/-- The executions of a block that end. -/
inductive Exec (mode : CellMode) : Nat → Block → Store → Ending → Store → Nat → Prop where
  | done {pos : Nat} {s : Store} : Exec mode pos done s .finished s 0
  | byte {pos : Nat} {b : UInt8} {plain : Bracket.Plain b} {next : Block} {s s' t : Store}
      {e : Ending} {cost : Nat} (act : s.act mode pos b = .ok s')
      (rest : Exec mode (pos + 1) next s' e t cost) :
      Exec mode pos (byte b plain next) s e t (cost + 1)
  | abort {pos : Nat} {b : UInt8} {plain : Bracket.Plain b} {next : Block} {s : Store}
      {f : Fault} (act : s.act mode pos b = .error f) :
      Exec mode pos (byte b plain next) s (.aborted f) s 0
  | skip {pos : Nat} {body next : Block} {s t : Store} {e : Ending} {cost : Nat}
      (zero : s.cell = 0)
      (rest : Exec mode (pos + 1 + body.size + 1) next s.touch e t cost) :
      Exec mode pos (loop body next) s e t (cost + 1)
  | again {pos : Nat} {body next : Block} {s s' t : Store} {e : Ending} {cost cost' : Nat}
      (nonzero : s.cell ≠ 0)
      (round : Exec mode (pos + 1) body s.touch .finished s' cost)
      (rest : Exec mode pos (loop body next) s' e t cost') :
      Exec mode pos (loop body next) s e t (1 + cost + cost')
  | abortInside {pos : Nat} {body next : Block} {s t : Store} {f : Fault} {cost : Nat}
      (nonzero : s.cell ≠ 0)
      (round : Exec mode (pos + 1) body s.touch (.aborted f) t cost) :
      Exec mode pos (loop body next) s (.aborted f) t (1 + cost)

/-- The blocks that never come to an end. -/
coinductive Diverges (mode : CellMode) : Nat → Block → Store → Prop
  | byte {pos : Nat} {b : UInt8} {plain : Bracket.Plain b} {next : Block} {s s' : Store} :
      s.act mode pos b = .ok s' → Diverges mode (pos + 1) next s' →
      Diverges mode pos (byte b plain next) s
  | skip {pos : Nat} {body next : Block} {s : Store} :
      s.cell = 0 → Diverges mode (pos + 1 + body.size + 1) next s.touch →
      Diverges mode pos (loop body next) s
  | again {pos : Nat} {body next : Block} {s s' : Store} {cost : Nat} :
      s.cell ≠ 0 → Exec mode (pos + 1) body s.touch .finished s' cost →
      Diverges mode pos (loop body next) s' → Diverges mode pos (loop body next) s
  | inside {pos : Nat} {body next : Block} {s : Store} :
      s.cell ≠ 0 → Diverges mode (pos + 1) body s.touch →
      Diverges mode pos (loop body next) s

/-- A block comes to an end or diverges. -/
theorem exec_or_diverges (mode : CellMode) (pos : Nat) (b : Block) (s : Store) :
    (∃ e t cost, Exec mode pos b s e t cost) ∨ Diverges mode pos b s := by
  refine Classical.or_iff_not_imp_left.mpr ?_
  -- to have no end is a property that some part of the block inherits
  refine Diverges.coinduct mode (fun pos b s => ¬ ∃ e t cost, Exec mode pos b s e t cost) ?_ pos b s
  intro pos b s h
  cases b with
  | done => exact absurd ⟨_, _, _, .done⟩ h
  | byte b plain next =>
      cases hact : s.act mode pos b with
      | error f => exact absurd ⟨_, _, _, .abort hact⟩ h
      | ok s' =>
          refine Or.inl ⟨b, plain, next, s', hact, ?_, rfl⟩
          rintro ⟨e, t, cost, hrest⟩
          exact h ⟨e, t, cost + 1, .byte hact hrest⟩
  | loop body next =>
      by_cases h0 : s.cell = 0
      · refine Or.inr (Or.inl ⟨body, next, h0, ?_, rfl⟩)
        rintro ⟨e, t, cost, hrest⟩
        exact h ⟨e, t, cost + 1, .skip h0 hrest⟩
      · by_cases hround : ∃ s' cost, Exec mode (pos + 1) body s.touch .finished s' cost
        · obtain ⟨s', cost, hround⟩ := hround
          refine Or.inr (Or.inr (Or.inl ⟨body, next, s', cost, h0, hround, ?_, rfl⟩))
          rintro ⟨e, t, cost', hrest⟩
          exact h ⟨e, t, 1 + cost + cost', .again h0 hround hrest⟩
        · refine Or.inr (Or.inr (Or.inr ⟨body, next, h0, ?_, rfl⟩))
          rintro ⟨e, t, cost, hbody⟩
          cases e with
          | finished => exact hround ⟨t, cost, hbody⟩
          | aborted f => exact h ⟨.aborted f, t, 1 + cost, .abortInside h0 hbody⟩

end Block

end TapeMachine
