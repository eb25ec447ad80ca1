import Mathlib.Algebra.BigOperators.Group.List.Basic
import Mathlib.Algebra.Ring.Int.Defs
import TapeMachine.Proofs.Cell.Residue
import TapeMachine.State

/-! # Additions to one cell

    An addition wraps at 64 bits and then reduces.  Neither loses what the next
    additions need: the sum is right modulo 2 ^ 64, or modulo 256, which divides
    2 ^ 64.  So it does not matter after which of several additions a sum is
    reduced (`CellMode.AddsUp.normalize_eq`), and to add some words one after the
    other is to store their exact sum once (`State.addCells_cons_snd`). -/

namespace TapeMachine

/-- The exact sum of some words. -/
def exactSum (deltas : List Int64) : Int := (deltas.map Int64.toInt).sum

@[simp] theorem exactSum_nil : exactSum [] = 0 := rfl

@[simp] theorem exactSum_cons (d : Int64) (deltas : List Int64) :
    exactSum (d :: deltas) = d.toInt + exactSum deltas := List.sum_cons

/-- The exact sum does not depend on the order. -/
theorem exactSum_perm {deltas deltas' : List Int64} (h : deltas'.Perm deltas) :
    exactSum deltas' = exactSum deltas := (h.map Int64.toInt).sum_eq

/-! ## Sums of words -/

namespace CellMode

variable {mode : CellMode}

/-- What wraps at 64 bits on the way is no loss. -/
theorem reduce_bmod (n : Int) : mode.reduce (n.bmod Int64.size) = mode.reduce n := by
  cases mode with
  | byte => exact bmod_size_emod n
  | wide => exact Int.bmod_bmod

/-- The sum of two words may wrap: a cell keeps the same of it as of the exact sum. -/
theorem reduce_toInt_add (v d : Int64) :
    mode.reduce (v + d).toInt = mode.reduce (v.toInt + d.toInt) := by
  rw [Int64.toInt_add]
  exact reduce_bmod _

/-- A number may be wrapped to a word first: a cell keeps the same of it. -/
theorem reduce_toInt_ofInt (n : Int) : mode.reduce (Int64.ofInt n).toInt = mode.reduce n := by
  rw [Int64.toInt_ofInt, reduce_bmod]

/-- So may a word be reduced first. -/
theorem reduce_toInt_normalize (v : Int64) :
    mode.reduce (mode.normalize v).toInt = mode.reduce v.toInt := by
  rw [toInt_normalize, reduce_reduce]

/-- What is added to numbers of which the same is left leaves the same. -/
theorem reduce_add_congr {m n : Int} (h : mode.reduce m = mode.reduce n) (d : Int) :
    mode.reduce (m + d) = mode.reduce (n + d) := by
  rw [← reduce_add, h, reduce_add]

/-- Two words are normalized to the same exactly if a cell keeps the same of their values. -/
theorem normalize_eq_iff {v w : Int64} :
    mode.normalize v = mode.normalize w ↔ mode.reduce v.toInt = mode.reduce w.toInt := by
  rw [← Int64.toInt_inj, toInt_normalize, toInt_normalize]

/-- A sum that has been reduced counts for as much as its summands. -/
theorem reduce_normalize_add (v d : Int64) (n : Int) :
    mode.reduce ((mode.normalize (v + d)).toInt + n) = mode.reduce (v.toInt + (d.toInt + n)) := by
  rw [← Int.add_assoc]
  exact reduce_add_congr ((reduce_toInt_normalize (v + d)).trans (reduce_toInt_add v d)) n

/-- `w` comes out when the words are added to `v` one after the other and some of
    the sums on the way are reduced. -/
inductive AddsUp (mode : CellMode) : (v : Int64) → (deltas : List Int64) → (w : Int64) → Prop where
  | done (v : Int64) : AddsUp mode v [] v
  | kept {v d w : Int64} {deltas : List Int64} (later : AddsUp mode (v + d) deltas w) :
      AddsUp mode v (d :: deltas) w
  | reduced {v d w : Int64} {deltas : List Int64}
      (later : AddsUp mode (mode.normalize (v + d)) deltas w) : AddsUp mode v (d :: deltas) w

/-- Of the sum the same is left as of the exact sum. -/
theorem AddsUp.reduce_eq {v w : Int64} {deltas : List Int64} (h : AddsUp mode v deltas w) :
    mode.reduce w.toInt = mode.reduce (v.toInt + exactSum deltas) := by
  induction h with
  | done v => rw [exactSum_nil, Int.add_zero]
  | @kept v d w deltas later ih =>
      rw [ih, exactSum_cons, ← Int.add_assoc]
      exact reduce_add_congr (reduce_toInt_add v d) (exactSum deltas)
  | @reduced v d w deltas later ih =>
      rw [ih, exactSum_cons]
      exact reduce_normalize_add v d (exactSum deltas)

/-- The word that a cell keeps of `v` and the exact sum of some words. -/
def sum (mode : CellMode) (v : Int64) (deltas : List Int64) : Int64 :=
  mode.normalize (Int64.ofInt (v.toInt + exactSum deltas))

/-- However some of the sums on the way are reduced, what comes out is normalized to the same. -/
theorem AddsUp.normalize_eq {v w : Int64} {deltas : List Int64} (h : AddsUp mode v deltas w) :
    mode.normalize w = mode.sum v deltas := by
  rw [sum, normalize_eq_iff, reduce_toInt_ofInt]
  exact h.reduce_eq

/-- With one word the sum is that of two words, reduced. -/
theorem sum_singleton (v d : Int64) : mode.sum v [d] = mode.normalize (v + d) :=
  (AddsUp.kept (.done (v + d))).normalize_eq.symm

/-- The first of the words may be added and the sum reduced before the others. -/
theorem sum_cons (v d : Int64) (deltas : List Int64) :
    mode.sum v (d :: deltas) = mode.sum (mode.normalize (v + d)) deltas := by
  rw [sum, sum, normalize_eq_iff, reduce_toInt_ofInt, reduce_toInt_ofInt, reduce_normalize_add,
    exactSum_cons]

/-- The order of the words does not matter. -/
theorem sum_perm {deltas deltas' : List Int64} (h : deltas'.Perm deltas) (v : Int64) :
    mode.sum v deltas' = mode.sum v deltas := by
  rw [sum, sum, exactSum_perm h]

/-- Words that come to nothing leave what a cell keeps of `v`. -/
theorem sum_of_reduce_eq_zero {deltas : List Int64} (h : mode.reduce (exactSum deltas) = 0)
    (v : Int64) : mode.sum v deltas = mode.normalize v := by
  have hzero : mode.reduce (exactSum deltas + v.toInt) = mode.reduce (0 + v.toInt) :=
    reduce_add_congr (h.trans (reduce_zero mode).symm) v.toInt
  rw [sum, normalize_eq_iff, reduce_toInt_ofInt, Int.add_comm, hzero, Int.zero_add]

/-- A cell keeps nothing of a multiple of 2 ^ 64. -/
theorem reduce_of_dvd {n : Int} (h : 2 ^ 64 ∣ n) : mode.reduce n = 0 := by
  cases mode with
  | byte => exact Int.emod_eq_zero_of_dvd (Int.dvd_trans (by decide) h)
  | wide => exact Int.bmod_eq_zero_of_dvd h

end CellMode

/-! ## Sums in a cell -/

namespace State

/-- The state with `v` stored in the current cell as it is. -/
def withCell (s : State) (v : Int64) : State := { s with tape := s.tape.set s.dataPtr v }

/-- Adds words to the current cell one after the other: the answers, and the state that is left. -/
def addCells (s : State) : List Int64 → List Int64 × State
  | [] => ([], s)
  | d :: deltas =>
      let (v, s) := s.addCell d
      let (answers, s) := s.addCells deltas
      (v :: answers, s)

section Lemmas

variable (s : State)

theorem mode_withCell (v : Int64) : (s.withCell v).mode = s.mode := rfl

theorem cell_withCell (v : Int64) : (s.withCell v).cell = v := by
  show (s.tape.set s.dataPtr v).get s.dataPtr = v
  rw [Tape.get_set, if_pos rfl]

theorem withCell_withCell (v w : Int64) : (s.withCell v).withCell w = s.withCell w := by
  show { s with tape := (s.tape.set s.dataPtr v).set s.dataPtr w } = s.withCell w
  rw [Tape.set_set]
  rfl

theorem addCells_cons (d : Int64) (deltas : List Int64) :
    s.addCells (d :: deltas)
      = (s.mode.normalize (s.cell + d)
            :: ((s.withCell (s.mode.normalize (s.cell + d))).addCells deltas).1,
          ((s.withCell (s.mode.normalize (s.cell + d))).addCells deltas).2) := rfl

theorem length_addCells (deltas : List Int64) : (s.addCells deltas).1.length = deltas.length := by
  induction deltas generalizing s with
  | nil => rfl
  | cons d deltas ih =>
      rw [addCells_cons, List.length_cons, List.length_cons, ih]

/-- To add some words is to store their sum. -/
theorem addCells_cons_snd (d : Int64) (deltas : List Int64) :
    (s.addCells (d :: deltas)).2 = s.withCell (s.mode.sum s.cell (d :: deltas)) := by
  induction deltas generalizing s d with
  | nil =>
      rw [CellMode.sum_singleton]
      rfl
  | cons e deltas ih =>
      rw [addCells_cons, CellMode.sum_cons s.cell d, ih, mode_withCell, cell_withCell,
        withCell_withCell]

/-- Each addition answers with the sum so far. -/
theorem getElem?_addCells (before later : List Int64) (d : Int64) :
    (s.addCells (before ++ d :: later)).1[before.length]?
      = some (s.mode.sum s.cell (before ++ [d])) := by
  induction before generalizing s with
  | nil =>
      rw [List.nil_append, List.nil_append, CellMode.sum_singleton]
      rfl
  | cons e before ih =>
      rw [List.cons_append, List.cons_append, addCells_cons, CellMode.sum_cons s.cell e,
        List.length_cons, List.getElem?_cons_succ, ih, mode_withCell, cell_withCell]

/-- The last answer is the reduced exact sum. -/
theorem getLast?_addCells {deltas : List Int64} (h : deltas ≠ []) :
    (s.addCells deltas).1.getLast? = some (s.mode.sum s.cell deltas) := by
  obtain ⟨before, d, rfl⟩ : ∃ before d, deltas = before ++ [d] :=
    ⟨_, _, (List.dropLast_append_getLast h).symm⟩
  rw [List.getLast?_eq_getElem?, length_addCells, List.length_append, List.length_singleton,
    Nat.add_sub_cancel, getElem?_addCells]

end Lemmas

/-- **Additions compose.**  Let the current cell have any value, also one that is not
    reduced, and add a word to it, and more words after that.

    * Each addition answers with the exact sum so far, wrapped at 64 bits and reduced;
      the last answer is the word stored in the cell in the end.  Nothing else in the
      state changes, and no other cell.
    * The order of the words does not matter, nor does it matter which of the sums on
      the way are reduced.
    * Words whose exact sum is a multiple of 2 ^ 64, or of 256 in byte mode, leave the
      value that the cell had, reduced. -/
theorem cell_additions_compose (s : State) (first : Int64) (rest : List Int64) :
    let deltas := first :: rest
    let sum := s.mode.normalize (Int64.ofInt (s.cell.toInt + (deltas.map Int64.toInt).sum))
    let answers := (s.addCells deltas).1
    let s' := (s.addCells deltas).2
    (answers.length = deltas.length ∧ answers.getLast? = some sum ∧
      ∀ before d later, deltas = before ++ d :: later →
        answers[before.length]? = some (s.mode.normalize
          (Int64.ofInt (s.cell.toInt + ((before ++ [d]).map Int64.toInt).sum)))) ∧
    (s' = { s with tape := s.tape.set s.dataPtr sum } ∧ s'.cell = sum ∧
      ∀ i, i ≠ s.dataPtr → s'.tape.get i = s.tape.get i) ∧
    (∀ deltas', deltas'.Perm deltas →
      (s.addCells deltas').2 = s' ∧ (s.addCells deltas').1.getLast? = some sum) ∧
    (∀ w, s.mode.AddsUp s.cell deltas w → s.mode.normalize w = sum) ∧
    (2 ^ 64 ∣ (deltas.map Int64.toInt).sum → sum = s.mode.normalize s.cell) ∧
    (s.mode = .byte → 256 ∣ (deltas.map Int64.toInt).sum → sum = s.mode.normalize s.cell) := by
  intro deltas sum answers s'
  have hs' : s' = s.withCell sum := s.addCells_cons_snd first rest
  refine ⟨⟨s.length_addCells deltas, s.getLast?_addCells (List.cons_ne_nil first rest), ?_⟩,
    ⟨hs', ?_, ?_⟩, ?_, fun w => CellMode.AddsUp.normalize_eq, ?_, ?_⟩
  · intro before d later hdeltas
    show (s.addCells deltas).1[before.length]? = _
    rw [hdeltas, getElem?_addCells]
    rfl
  · rw [hs', cell_withCell]
  · intro i hi
    rw [hs']
    show (s.tape.set s.dataPtr sum).get i = s.tape.get i
    rw [Tape.get_set, if_neg hi]
  · intro deltas' hperm
    have hsum : s.mode.sum s.cell deltas' = sum := CellMode.sum_perm hperm s.cell
    cases deltas' with
    | nil => exact absurd hperm.nil_eq.symm (List.cons_ne_nil first rest)
    | cons d deltas' =>
        rw [addCells_cons_snd, getLast?_addCells s (List.cons_ne_nil d deltas'), hsum, hs']
        exact ⟨rfl, rfl⟩
  · intro hdvd
    exact CellMode.sum_of_reduce_eq_zero (CellMode.reduce_of_dvd hdvd) s.cell
  · intro hbyte hdvd
    refine CellMode.sum_of_reduce_eq_zero ?_ s.cell
    rw [hbyte]
    exact Int.emod_eq_zero_of_dvd hdvd

end State

end TapeMachine
