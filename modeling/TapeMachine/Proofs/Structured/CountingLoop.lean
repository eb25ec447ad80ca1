import TapeMachine.Proofs.Structured.Contents
import TapeMachine.Proofs.Structured.Refinement
import TapeMachine.Proofs.Structured.Sequence

/-! # What a block computes

    `b.Takes mode c d cost` says that the block `b`, wherever it stands, comes to
    its end from each store that shows the contents `c`, at the given cost, and
    leaves a store that shows `d`.  There is one rule for each way of putting a
    block together.  A loop is counted down (`takes_countdown`): if each round
    leaves one less in the cell that is tested, as many rounds are done as the
    cell had at the start.

    What the cell has at the start is what the cell mode leaves of its number.
    That is the only place where numbers are reduced: the rules for instructions
    work on exact contents, and `Takes.of_reduce_eq` changes over. -/

namespace TapeMachine

open TapeMachine.Bracket

namespace Block

/-- From a store that shows `c` the block comes to its end and leaves one that shows `d`. -/
def Takes (mode : CellMode) (b : Block) (c d : Contents) (cost : Nat) : Prop :=
  ∀ pos s, s.Shows mode c → ∃ t, b.Exec mode pos s .finished t cost ∧ t.Shows mode d

/-- A single instruction. -/
def single (i : Instruction) (plain : Plain i.byte) : Block := byte i.byte plain done

/-- The block `>`. -/
def right : Block := single .moveRight (by decide)

/-- The block `<`. -/
def left : Block := single .moveLeft (by decide)

/-- The block `+`. -/
def plus : Block := single .increment (by decide)

/-- The block `-`. -/
def minus : Block := single .decrement (by decide)

/-- A block that is done again and again, as long as the cell is not zero. -/
def repeated (body : Block) : Block := loop body done

/-- The block `+`, `n` times over. -/
def pluses : Nat → Block
  | 0 => done
  | n + 1 => pluses n ++ plus

@[simp] theorem bytes_pluses (n : Nat) :
    (pluses n).bytes = List.replicate n Instruction.increment.byte := by
  induction n with
  | zero => rfl
  | succ n ih =>
      rw [pluses, bytes_append, ih, List.replicate_succ']
      rfl

variable {mode : CellMode} {a b : Block} {c d e : Contents} {n m : Nat}

/-! ## One after the other -/

theorem takes_done (c : Contents) : done.Takes mode c c 0 :=
  fun _ s hs => ⟨s, .done, hs⟩

/-- Two blocks one behind the other take the contents through both, and the costs add up. -/
theorem Takes.append (ha : a.Takes mode c d n) (hb : b.Takes mode d e m) :
    (a ++ b).Takes mode c e (n + m) := by
  intro pos s hs
  obtain ⟨t, hexec, ht⟩ := ha pos s hs
  obtain ⟨u, hexec', hu⟩ := hb (pos + a.size) t ht
  exact ⟨u, hexec.append hexec', hu⟩

/-- Of numbers that are shown alike either may be taken. -/
theorem Takes.of_reduce_eq {k l : Int} (h : b.Takes mode (c.put l) d n)
    (hkl : mode.reduce k = mode.reduce l) : b.Takes mode (c.put k) d n :=
  fun pos s hs => h pos s (hs.of_reduce_eq hkl)

/-! ## Instructions -/

/-- An instruction that does not stop takes the contents to what it makes of them. -/
theorem takes_single {i : Instruction} {plain : Plain i.byte} (no_input : i ≠ .input)
    (goes : ∀ pos f, ¬ c.Stops mode pos (some i) f) :
    (single i plain).Takes mode c (c.act mode (some i)) 1 := by
  intro pos s hs
  have hi := Instruction.ofByte?_byte i
  have hne : Instruction.ofByte? i.byte ≠ some .input := by
    rw [hi]
    exact fun h => no_input (Option.some.inj h)
  rcases hs.act_cases pos hne with ⟨f, hf, -⟩ | ⟨-, s', hact, hs'⟩
  · rw [hi] at hf
    exact absurd hf (goes pos f)
  · rw [hi] at hs'
    exact ⟨s', .byte hact .done, hs'⟩

/-- A `>` moves the data pointer on. -/
theorem takes_right : right.Takes mode c (c.move 1) 1 :=
  takes_single nofun nofun

theorem takes_left (positive : c.ptr ≠ 0) : left.Takes mode c (c.move (-1)) 1 := by
  refine takes_single nofun ?_
  rintro pos f ⟨zero⟩
  exact positive zero

/-- A `+` adds one. -/
theorem takes_plus : plus.Takes mode c (c.add 1) 1 :=
  takes_single nofun nofun

theorem takes_minus : minus.Takes mode c (c.add (-1)) 1 :=
  takes_single nofun nofun

/-- To add one `n` times is to add `n`. -/
theorem takes_pluses (n : Nat) : (pluses n).Takes mode c (c.add n) n := by
  induction n with
  | zero =>
      rw [Int.natCast_zero, Contents.add_zero]
      exact takes_done c
  | succ n ih =>
      rw [Int.natCast_succ, ← Contents.add_add]
      exact ih.append takes_plus

/-! ## Loops -/

/-- A loop that counts a cell down from `n` does its body `n` times, with a look at the cell
    in front of each and one more at the end. -/
theorem takes_countdown_exact {body : Block} {cost : Nat} {inv : Nat → Contents}
    (cell_eq : ∀ k, k ≤ n → mode.reduce (inv k).cell = k)
    (round : ∀ k, k < n → body.Takes mode (inv (k + 1)) (inv k) cost) :
    body.repeated.Takes mode (inv n) (inv 0) (1 + n * (cost + 1)) := by
  induction n with
  | zero =>
      intro pos s hs
      have zero : s.cell = 0 := by
        rw [eq_zero_iff_toInt, hs.cell_eq, cell_eq 0 (Nat.le_refl 0)]
        rfl
      rw [Nat.zero_mul]
      exact ⟨s.touch, .skip zero .done, hs.touch⟩
  | succ n ih =>
      intro pos s hs
      have nonzero : s.cell ≠ 0 := by
        rw [Ne, eq_zero_iff_toInt, hs.cell_eq, cell_eq (n + 1) (Nat.le_refl _)]
        omega
      obtain ⟨s', hround, hs'⟩ := round n (Nat.lt_succ_self n) (pos + 1) s.touch hs.touch
      obtain ⟨t, hrest, ht⟩ := ih (fun k hk => cell_eq k (Nat.le_succ_of_le hk))
        (fun k hk => round k (Nat.lt_succ_of_lt hk)) pos s' hs'
      have hcost : 1 + (n + 1) * (cost + 1) = 1 + cost + (1 + n * (cost + 1)) := by
        rw [Nat.succ_mul]
        omega
      rw [hcost]
      exact ⟨t, .again nonzero hround hrest, ht⟩

/-- **Counting down.**  If the cell mode leaves `n` of the cell at the start, and a
    round takes `inv (k + 1)` to `inv k`, with `k` in the cell of `inv k`, the loop
    is over after `n` rounds. -/
theorem takes_countdown {body : Block} {cost : Nat} (inv : Nat → Contents)
    (left_eq : mode.reduce c.cell = n) (start : inv n = c.put n)
    (cell_eq : ∀ k, (inv k).cell = k)
    (round : ∀ k, k < n → body.Takes mode (inv (k + 1)) (inv k) cost) :
    body.repeated.Takes mode c (inv 0) (1 + n * (cost + 1)) := by
  -- up to `n` the cell holds what its number says
  have kept : ∀ k : Nat, k ≤ n → mode.reduce k = k := fun k hk =>
    CellMode.reduce_of_le left_eq (Int.natCast_nonneg k) (Int.ofNat_le.mpr hk)
  have hloop : body.repeated.Takes mode (inv n) (inv 0) (1 + n * (cost + 1)) := by
    refine takes_countdown_exact ?_ round
    intro k hk
    rw [cell_eq]
    exact kept k hk
  rw [start] at hloop
  have h := hloop.of_reduce_eq (left_eq.trans (kept n (Nat.le_refl n)).symm)
  rw [Contents.put_cell] at h
  exact h

/-- The loop `[-]` counts the cell down to zero and changes nothing else. -/
theorem takes_clear (left_eq : mode.reduce c.cell = n) :
    minus.repeated.Takes mode c (c.put 0) (1 + n * 2) := by
  refine takes_countdown (fun k => c.put k) left_eq rfl (fun k => c.cell_put k) ?_
  intro k _
  have hless : (c.put (k + 1 : Nat)).add (-1) = c.put k := by
    rw [Contents.add_put]
    congr 1
    omega
  rw [← hless]
  exact takes_minus

end Block

/-! ## Runs -/

/-- A text that has a nesting is accepted. -/
theorem Block.exists_ofText? {text : String} {b : Block}
    (h : text.toUTF8.data.toList = b.bytes) :
    ∃ p, Program.ofText? text = .ok p ∧ b.bytes = p.code.toList := by
  have hbalanced : Balanced text.toUTF8.data.toList := by
    rw [h]
    exact b.balanced_bytes
  obtain ⟨p, hp, hbytes⟩ := Program.exists_ofText? hbalanced
  exact ⟨p, hp, h.symm.trans hbytes.symm⟩

/-- A program whose block takes the empty contents to `d` finishes and shows `d`. -/
theorem Machine.ends_of_takes {p : Program} {mode : CellMode} {b : Block} {d : Contents}
    {cost : Nat} (hb : b.bytes = p.code.toList) (h : b.Takes mode .empty d cost)
    (matching : Matching) :
    ∃ m, (loadUnlimited p mode matching).Ends .finished m ∧ m.steps = cost ∧
      m.store.Shows mode d := by
  obtain ⟨t, hexec, ht⟩ := h 0 {} (Store.Shows.empty mode)
  obtain ⟨m, hends, rfl, hsteps⟩ := ends_of_exec_load hb hexec matching
  exact ⟨m, hends, hsteps, ht⟩

end TapeMachine
