import Mathlib.Tactic.Ring
import TapeMachine.Proofs.Structured.CountingLoop
import TapeMachine.Proofs.Text.Symbols

/-! # Multiplication by nested loops

    The inner loop `[>+<-]` empties a cell into its right neighbour.  The outer
    one refills that cell and empties it once for each time that it goes round, so
    a product collects in cell 2.  Both are counted down: what a round leaves, as
    a function of the rounds still to be done, is the invariant, a `row` of three
    cells.

    The numbers of rounds are what a byte cell has of the numbers of `+`, and
    either may be zero; the cost of a round of the outer loop has the number of
    `+` in it all the same. -/

namespace TapeMachine

/-! ## Rows of cells -/

namespace Contents

/-- Contents with the given numbers from cell 0 on, and with zero everywhere else. -/
def row (ptr : Nat) (l : List Int) : Contents where
  ptr := ptr
  cells := fun i => if 0 ≤ i then l.getD i.toNat 0 else 0
  codes := []

variable {ptr : Nat} {l : List Int} {n : Int}

/-- A row of zeros shows nothing. -/
theorem row_replicate (k : Nat) : row 0 (List.replicate k 0) = empty := by
  simp only [empty, row, mk.injEq, and_true]
  refine ⟨rfl, ?_⟩
  funext i
  split
  · rw [List.getD_eq_getElem?_getD, List.getElem?_replicate]
    split
    · rfl
    · rfl
  · rfl

theorem cells_row (i : Nat) : (row ptr l).cells i = l.getD i 0 := by
  show (if 0 ≤ (i : Int) then l.getD (i : Int).toNat 0 else 0) = l.getD i 0
  rw [if_pos (Int.natCast_nonneg i), Int.toNat_natCast]

@[simp] theorem ptr_row : (row ptr l).ptr = ptr := rfl

@[simp] theorem cell_row : (row ptr l).cell = l.getD ptr 0 := cells_row ptr

@[simp] theorem move_row_right : (row ptr l).move 1 = row (ptr + 1) l := rfl

@[simp] theorem move_row_left : (row (ptr + 1) l).move (-1) = row ptr l := by
  simp only [row, move, Int.natCast_succ, Int.add_neg_cancel_right]

/-- To put a number into a cell of the row is to set it in the list. -/
@[simp] theorem put_row (h : ptr < l.length) :
    (row ptr l).put n = row ptr (l.set ptr n) := by
  simp only [row, put, mk.injEq, true_and, and_true]
  funext i
  rw [Function.update_apply]
  by_cases hi : i = ptr
  · subst hi
    simp [h]
  · rw [if_neg hi]
    by_cases h0 : 0 ≤ i
    · have hne : ptr ≠ i.toNat := by omega
      rw [if_pos h0, if_pos h0, List.getD_eq_getElem?_getD, List.getD_eq_getElem?_getD,
        List.getElem?_set_ne hne]
    · rw [if_neg h0, if_neg h0]

/-- To add to a cell of the row is to add in the list. -/
theorem add_row (h : ptr < l.length) :
    (row ptr l).add n = row ptr (l.set ptr (l.getD ptr 0 + n)) := by
  rw [add, cell_row, put_row h]

end Contents

namespace Block

open Contents

variable {mode : CellMode} {ptr : Nat} {l : List Int} {x y z : Int} {r r' : Nat}

theorem takes_right_row : right.Takes mode (row ptr l) (row (ptr + 1) l) 1 :=
  takes_right

theorem takes_left_row : left.Takes mode (row (ptr + 1) l) (row ptr l) 1 := by
  have positive : (row (ptr + 1) l).ptr ≠ 0 := by
    rw [ptr_row]
    omega
  have h : left.Takes mode (row (ptr + 1) l) _ 1 := takes_left positive
  rw [move_row_left] at h
  exact h

/-! ## The inner loop -/

/-- The loop `[>+<-]`. -/
def transfer : Block := (right ++ plus ++ left ++ minus).repeated

/-- One round of the inner loop moves one from its cell to the next. -/
theorem takes_transfer_round : (right ++ plus ++ left ++ minus).Takes mode
    (row 1 [x, y + 1, z]) (row 1 [x, y, z + 1]) 4 := by
  have go : right.Takes mode (row 1 [x, y + 1, z]) (row 2 [x, y + 1, z]) 1 := takes_right_row
  have put : plus.Takes mode (row 2 [x, y + 1, z]) (row 2 [x, y + 1, z + 1]) 1 := by
    simpa [add_row] using takes_plus (c := row 2 [x, y + 1, z])
  have back : left.Takes mode (row 2 [x, y + 1, z + 1]) (row 1 [x, y + 1, z + 1]) 1 :=
    takes_left_row
  have take : minus.Takes mode (row 1 [x, y + 1, z + 1]) (row 1 [x, y, z + 1]) 1 := by
    simpa [add_row] using takes_minus (c := row 1 [x, y + 1, z + 1])
  exact ((go.append put).append back).append take

/-- Cell 1 is emptied into cell 2. -/
theorem takes_transfer (left_eq : mode.reduce y = r) :
    transfer.Takes mode (row 1 [x, y, z]) (row 1 [x, 0, z + r]) (1 + r * 5) := by
  have h : transfer.Takes mode (row 1 [x, y, z]) (row 1 [x, (0 : Nat), z + (r - (0 : Nat))])
      (1 + r * (4 + 1)) := by
    refine takes_countdown (fun k => row 1 [x, k, z + (r - k)]) left_eq (by simp) (by simp) ?_
    intro k _
    have hz : z + (r - k) = z + (r - (k + 1 : Nat)) + 1 := by omega
    rw [hz, Int.natCast_succ]
    exact takes_transfer_round
  simpa using h

/-! ## The outer loop -/

/-- The loop around it, in which `b` `+` refill the cell. -/
def transfers (b : Nat) : Block := (right ++ pluses b ++ transfer ++ left ++ minus).repeated

/-- One round of the outer loop adds `r`, which a cell keeps of `b`, to the last cell, and
    leaves the middle one clear. -/
theorem takes_transfers_round {b : Nat} (left_eq : mode.reduce b = r) :
    (right ++ pluses b ++ transfer ++ left ++ minus).Takes mode
      (row 0 [x + 1, 0, z]) (row 0 [x, 0, z + r]) (b + r * 5 + 4) := by
  have go : right.Takes mode (row 0 [x + 1, 0, z]) (row 1 [x + 1, 0, z]) 1 := takes_right_row
  have fill : (pluses b).Takes mode (row 1 [x + 1, 0, z]) (row 1 [x + 1, b, z]) b := by
    simpa [add_row] using takes_pluses (c := row 1 [x + 1, 0, z]) b
  have move : transfer.Takes mode (row 1 [x + 1, b, z]) (row 1 [x + 1, 0, z + r]) (1 + r * 5) :=
    takes_transfer left_eq
  have back : left.Takes mode (row 1 [x + 1, 0, z + r]) (row 0 [x + 1, 0, z + r]) 1 :=
    takes_left_row
  have take : minus.Takes mode (row 0 [x + 1, 0, z + r]) (row 0 [x, 0, z + r]) 1 := by
    simpa [add_row] using takes_minus (c := row 0 [x + 1, 0, z + r])
  have h := (((go.append fill).append move).append back).append take
  have hcost : 1 + b + (1 + r * 5) + 1 + 1 = b + r * 5 + 4 := by omega
  rw [hcost] at h
  exact h

/-- Cell 0 is emptied, and cell 2 receives the product. -/
theorem takes_transfers {b : Nat} (left_eq : mode.reduce x = r) (left_eq' : mode.reduce b = r') :
    (transfers b).Takes mode (row 0 [x, 0, z]) (row 0 [0, 0, z + r * r'])
      (1 + r * (b + r' * 5 + 5)) := by
  have h : (transfers b).Takes mode (row 0 [x, 0, z])
      (row 0 [(0 : Nat), 0, z + (r - (0 : Nat)) * r']) (1 + r * (b + r' * 5 + 4 + 1)) := by
    refine takes_countdown (fun k => row 0 [k, 0, z + (r - k) * r']) left_eq (by simp) (by simp) ?_
    intro k _
    have hz : z + (r - k) * r' = z + (r - (k + 1 : Nat)) * r' + r' := by
      push_cast
      ring
    rw [hz, Int.natCast_succ]
    exact takes_transfers_round left_eq'
  simpa using h

end Block

/-! ## The program -/

/-- The text of `a` times `+`, `[>`, `b` times `+` and `[>+<-]<-]`. -/
def multiplication (a b : Nat) : String :=
  String.ofList (List.replicate a '+' ++ "[>".toList ++ List.replicate b '+' ++
    "[>+<-]<-]".toList)

theorem toUTF8_multiplication (a b : Nat) :
    (multiplication a b).toUTF8.data.toList = (Block.pluses a ++ Block.transfers b).bytes := by
  let opening : List Instruction := [.loopOpen, .moveRight]
  let closing : List Instruction := [.loopOpen, .moveRight, .increment, .moveLeft, .decrement,
    .loopClose, .moveLeft, .decrement, .loopClose]
  let code : List Instruction := List.replicate a .increment ++ opening ++
    List.replicate b .increment ++ closing
  have hsymbols : multiplication a b = String.ofList (code.map Instruction.symbol) := by
    simp [multiplication, code, opening, closing, Instruction.symbol]
  rw [hsymbols, Instruction.toUTF8_ofList_symbol]
  simp [code, opening, closing, Block.transfers, Block.transfer, Block.repeated, Block.right,
    Block.left, Block.plus, Block.minus, Block.single, Block.bytes]

/-- **Nested loops multiply.**  With byte cells, no step limit and either way of
    matching, the program finishes with the product modulo 256 in cell 2 and with
    zero in every other cell.  It has written nothing, is back at cell 0, and has
    taken as many steps as the two numbers of rounds and of `+` say. -/
theorem nested_loops_multiply (a b : Nat) :
    ∃ p, Program.ofText? (multiplication a b) = .ok p ∧ ∀ matching,
      ∃ m, (Machine.loadUnlimited p .byte matching).Ends .finished m ∧
        m.state.output = "" ∧ m.state.dataPtr = 0 ∧
        (m.state.tape.get 2).toInt = (a * b : Nat) % 256 ∧
        (∀ i, i ≠ 2 → m.state.tape.get i = 0) ∧
        m.steps = a + 1 + a % 256 * (b + 5 * (b % 256) + 5) := by
  have count : (Block.pluses a).Takes .byte (.row 0 [0, 0, 0]) (.row 0 [a, 0, 0]) a := by
    simpa [Contents.add_row] using Block.takes_pluses (c := Contents.row 0 [0, 0, 0]) a
  have multiply : (Block.transfers b).Takes .byte (.row 0 [a, 0, 0])
      (.row 0 [0, 0, 0 + (a % 256 : Nat) * (b % 256 : Nat)])
      (1 + a % 256 * (b + b % 256 * 5 + 5)) :=
    Block.takes_transfers (Int.natCast_emod a 256).symm (Int.natCast_emod b 256).symm
  have whole := count.append multiply
  rw [show [0, 0, 0] = List.replicate 3 (0 : Int) from rfl, Contents.row_replicate] at whole
  obtain ⟨p, hp, hbytes⟩ := Block.exists_ofText? (toUTF8_multiplication a b)
  refine ⟨p, hp, ?_⟩
  intro matching
  obtain ⟨m, hends, hsteps, hshows⟩ := Machine.ends_of_takes hbytes whole matching
  refine ⟨m, hends, ?_, ?_, ?_, ?_, ?_⟩
  · exact hshows.output_eq_empty rfl
  · exact Int.natCast_inj.mp hshows.dataPtr_eq
  · refine (hshows.cells_eq 2).trans ?_
    rw [Contents.cells_row]
    show (0 + ((a % 256 : Nat) : Int) * (b % 256 : Nat)) % 256 = (a * b : Nat) % 256
    rw [Int.zero_add, Int.natCast_emod, Int.natCast_emod, Int.natCast_mul]
    exact (Int.mul_emod (a : Int) b 256).symm
  · intro i hi
    refine hshows.get_eq_zero ?_
    rw [Contents.cells_row]
    match i, hi with
    | 0, _ => rfl
    | 1, _ => rfl
    | i + 3, _ => rfl
  · rw [hsteps]
    ring

end TapeMachine
