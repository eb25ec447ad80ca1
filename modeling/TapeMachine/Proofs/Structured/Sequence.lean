import TapeMachine.Proofs.Structured.Semantics

/-! # Blocks in sequence

    The block `a ++ b` has the items of `a` and, behind them, those of `b`.  It is
    done by doing `a` and then `b`, at the cost of both (`Exec.append`), unless
    `a` is aborted (`Exec.append_of_aborted`). -/

namespace TapeMachine.Block

/-- The items of one block and, behind them, those of another. -/
def append : Block → Block → Block
  | done, b => b
  | byte c plain next, b => byte c plain (next.append b)
  | loop body next, b => loop body (next.append b)

instance : Append Block := ⟨append⟩

@[simp] theorem done_append (b : Block) : done ++ b = b := rfl

@[simp] theorem byte_append (c : UInt8) (plain : Bracket.Plain c) (next b : Block) :
    byte c plain next ++ b = byte c plain (next ++ b) := rfl

@[simp] theorem loop_append (body next b : Block) :
    loop body next ++ b = loop body (next ++ b) := rfl

/-- Their texts then stand one behind the other. -/
@[simp] theorem bytes_append (a b : Block) : (a ++ b).bytes = a.bytes ++ b.bytes := by
  induction a with
  | done => rfl
  | byte c plain next ih =>
      rw [byte_append, bytes, bytes, ih, List.cons_append]
  | loop body next _ ih =>
      rw [loop_append, bytes, bytes, ih]
      simp only [List.cons_append, List.append_assoc]

@[simp] theorem size_append (a b : Block) : (a ++ b).size = a.size + b.size := by
  rw [size, bytes_append, List.length_append]
  rfl

namespace Exec

variable {mode : CellMode} {pos : Nat} {a b : Block} {s t u : Store} {e : Ending}
  {cost cost' : Nat}

/-- A block that has come to its end is followed by the one behind it. -/
theorem append (h : a.Exec mode pos s .finished t cost)
    (hb : b.Exec mode (pos + a.size) t e u cost') :
    (a ++ b).Exec mode pos s e u (cost + cost') := by
  generalize he : Ending.finished = ending at h
  induction h with
  | done =>
      rw [Nat.zero_add]
      exact hb
  | @byte pos c plain next s s' t _ cost act rest ih =>
      have hpos : pos + (Block.byte c plain next).size = pos + 1 + next.size := by
        rw [size_byte]
        omega
      rw [hpos] at hb
      rw [byte_append, Nat.add_right_comm]
      exact .byte act (ih hb he)
  | abort act => cases he
  | @skip pos body next s t _ cost zero rest ih =>
      have hpos : pos + (loop body next).size = pos + 1 + body.size + 1 + next.size := by
        rw [size_loop]
        omega
      rw [hpos] at hb
      rw [loop_append, Nat.add_right_comm]
      exact .skip zero (ih hb he)
  | again nonzero round rest _ ih =>
      rw [loop_append, Nat.add_assoc]
      exact .again nonzero round (ih hb he)
  | abortInside nonzero round => cases he

/-- A block that is aborted is aborted whatever stands behind it. -/
theorem append_of_aborted {f : Fault} (h : a.Exec mode pos s (.aborted f) t cost) (b : Block) :
    (a ++ b).Exec mode pos s (.aborted f) t cost := by
  generalize he : Ending.aborted f = ending at h ⊢
  induction h with
  | done => cases he
  | byte act rest ih => exact .byte act (ih he)
  | abort act => exact .abort act
  | skip zero rest ih => exact .skip zero (ih he)
  | again nonzero round rest _ ih => exact .again nonzero round (ih he)
  | abortInside nonzero round => exact .abortInside nonzero round

end Exec

end TapeMachine.Block
