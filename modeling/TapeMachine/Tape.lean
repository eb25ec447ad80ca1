/-! # The tape

    An endless row of cells, of which a finite front part is allocated.  Every
    cell beyond that part reads as zero, so `get` is total; `touch` allocates up
    to an index and `set` allocates and stores.  The view of a tape is the
    function `get`: `get_touch` and `get_set` say what the operations do to it,
    `size_touch` and `size_set` what they allocate. -/

namespace TapeMachine

/-- A tape: the allocated cells, from index 0 on. -/
structure Tape where
  cells : Array Int64 := #[]
  deriving DecidableEq, Repr, Inhabited

namespace Tape

/-- The tape with nothing allocated. -/
def empty : Tape := {}

/-- The number of allocated cells. -/
def size (t : Tape) : Nat := t.cells.size

/-- Whether nothing is allocated. -/
def isEmpty (t : Tape) : Bool := t.cells.isEmpty

/-- The value of a cell, zero where nothing is allocated. -/
def get (t : Tape) (i : Nat) : Int64 := t.cells[i]?.getD 0

/-- Allocates the cells up to index `i`. -/
def touch (t : Tape) (i : Nat) : Tape :=
  if i < t.cells.size then t
  else ⟨t.cells ++ Array.replicate (i + 1 - t.cells.size) 0⟩

/-- Allocates the cells up to index `i` and stores `v` in cell `i`. -/
def set (t : Tape) (i : Nat) (v : Int64) : Tape :=
  ⟨(t.touch i).cells.setIfInBounds i v⟩

/-! ## The view -/

@[simp] theorem get_empty (i : Nat) : empty.get i = 0 := rfl

@[simp] theorem size_empty : empty.size = 0 := rfl

/-- A tape is empty if it has no cells. -/
theorem isEmpty_iff (t : Tape) : t.isEmpty = true ↔ t.size = 0 := by
  simp [isEmpty, size]

/-- To look at a cell allocates up to it. -/
@[simp] theorem size_touch (t : Tape) (i : Nat) :
    (t.touch i).size = max t.size (i + 1) := by
  unfold touch size
  split
  · omega
  · simp only [Array.size_append, Array.size_replicate]
    omega

@[simp] theorem size_set (t : Tape) (i : Nat) (v : Int64) :
    (t.set i v).size = max t.size (i + 1) := by
  rw [← size_touch t i]
  simp [set, size]

/-- Allocation changes no value. -/
@[simp] theorem get_touch (t : Tape) (i j : Nat) : (t.touch i).get j = t.get j := by
  unfold touch
  split
  · rfl
  · simp only [get, Array.getElem?_append, Array.getElem?_replicate]
    split
    · rfl
    · rename_i h
      rw [Array.getElem?_eq_none (by omega)]
      split <;> rfl

/-- A stored value is read back, and no other cell changes. -/
theorem get_set (t : Tape) (i j : Nat) (v : Int64) :
    (t.set i v).get j = if j = i then v else t.get j := by
  have hsize : i < (t.touch i).cells.size := by
    have := size_touch t i
    simp only [size] at this
    omega
  rw [← get_touch t i j]
  simp only [set, get, Array.getElem?_setIfInBounds]
  by_cases hij : i = j
  · subst hij
    simp [hsize]
  · rw [if_neg hij, if_neg (Ne.symm hij)]

/-- A tape that reaches past `i` is not changed by allocating up to `i`. -/
theorem touch_of_lt {t : Tape} {i : Nat} (h : i < t.size) : t.touch i = t :=
  if_pos h

/-- Of two words stored in a cell the second stays. -/
theorem set_set (t : Tape) (i : Nat) (v w : Int64) : (t.set i v).set i w = t.set i w := by
  have hreached : i < (t.set i v).size := by
    rw [size_set]
    omega
  rw [set, touch_of_lt hreached, set, set]
  exact congrArg Tape.mk (Array.setIfInBounds_setIfInBounds ..)

/-- A cell that is not zero is allocated. -/
theorem lt_size_of_get_ne_zero {t : Tape} {i : Nat} (h : t.get i ≠ 0) : i < t.size := by
  by_cases hi : i < t.size
  · exact hi
  · refine absurd ?_ h
    rw [get, Array.getElem?_eq_none (by simp only [size] at hi; omega)]
    rfl

end Tape

/-! ## Accesses -/

/-- One access to a tape from outside a program. -/
inductive Tape.Access where
  /-- Reads a cell without allocating. -/
  | peek (index : Nat)
  /-- Allocates up to a cell and reads it. -/
  | touch (index : Nat)
  /-- Stores a word as it is, without reducing it. -/
  | poke (index : Nat) (value : Int64)
  deriving DecidableEq, Repr

/-- Carries out an access.  The answer is the value read, if one was asked for. -/
def Tape.access (t : Tape) : Tape.Access → Option Int64 × Tape
  | .peek i => (some (t.get i), t)
  | .touch i => (some (t.get i), t.touch i)
  | .poke i v => (none, t.set i v)

end TapeMachine
