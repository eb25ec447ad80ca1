import Mathlib.Data.Nat.Count
import TapeMachine.Proofs.Structured.Contents
import TapeMachine.Proofs.Structured.Refinement
import TapeMachine.Proofs.Text.Symbols

/-! # Programs without loops

    A program without brackets and without `,` is done from left to right, so
    what it has come to at position `n` can be told by counting in its text: the
    data pointer is the number of `>` less the number of `<` in front of `n`, and
    a cell is the number of `+` less the number of `-` that stand where the data
    pointer is at the cell.  `Program.contentsAt` is this CLOSED FORM.  It
    mentions neither a machine nor a step, and nothing in it wraps.

    The closed form at `n + 1` is what the byte at `n` makes of the one at `n`
    (`contentsAt_succ`), so a machine that has not stopped before `n` shows it
    there (`exists_iterate_of_straightLine`).  Whether it stops at `n` can be told
    from the closed form as well. -/

namespace TapeMachine

open TapeMachine.Bracket

namespace Program

/-! ## The closed form -/

/-- How many more of the first `n` positions hold `up` than hold `down`, of those
    at which `P` holds. -/
def surplus (p : Program) (up down : Instruction) (P : Nat → Prop) [DecidablePred P]
    (n : Nat) : Int :=
  Nat.count (fun pos => p.instructionAt? pos = some up ∧ P pos) n
    - Nat.count (fun pos => p.instructionAt? pos = some down ∧ P pos) n

/-- The data pointer in front of position `n`: the `>` less the `<`. -/
def pointerAt (p : Program) (n : Nat) : Int :=
  p.surplus .moveRight .moveLeft (fun _ => True) n

/-- The number in the cell `c` in front of position `n`: the `+` less the `-`, of
    those that stand where the data pointer is `c`. -/
def totalAt (p : Program) (n : Nat) (c : Int) : Int :=
  p.surplus .increment .decrement (fun pos => p.pointerAt pos = c) n

/-- The codes written in front of position `n`, one for each `.`: what is left of
    the number in the current cell. -/
def codesAt (p : Program) (mode : CellMode) (n : Nat) : List Int :=
  ((List.range n).filter fun pos => p.instructionAt? pos = some .output).map
    fun pos => mode.reduce (p.totalAt pos (p.pointerAt pos))

/-- What the first `n` bytes come to. -/
def contentsAt (p : Program) (mode : CellMode) (n : Nat) : Contents where
  ptr := p.pointerAt n
  cells := p.totalAt n
  codes := p.codesAt mode n

/-- The byte at `pos` cannot be done: it is a `<` where the data pointer is 0, or,
    with wide cells, a `.` where the cell is no character. -/
def StopsAt (p : Program) (mode : CellMode) (pos : Nat) (f : Fault) : Prop :=
  (p.contentsAt mode pos).Stops mode pos (p.instructionAt? pos) f

variable (p : Program) (mode : CellMode) (n : Nat)

/-- One position more adds one, takes one away, or does neither. -/
theorem surplus_succ (up down : Instruction) (P : Nat → Prop) [DecidablePred P] :
    p.surplus up down P (n + 1) = p.surplus up down P n
      + (if p.instructionAt? n = some up ∧ P n then 1 else 0)
      - (if p.instructionAt? n = some down ∧ P n then 1 else 0) := by
  simp only [surplus, Nat.count_succ, Int.natCast_add, apply_ite Nat.cast, Int.natCast_one,
    Int.natCast_zero]
  omega

/-- The pointer behind a byte, from the pointer in front of it. -/
theorem pointerAt_succ : p.pointerAt (n + 1) = p.pointerAt n
    + (if p.instructionAt? n = some .moveRight then 1 else 0)
    - (if p.instructionAt? n = some .moveLeft then 1 else 0) := by
  simp only [pointerAt, surplus_succ, and_true]

/-- A `+` or a `-` counts for the cell that the data pointer is at, and for no other. -/
theorem totalAt_succ : p.totalAt (n + 1) = Function.update (p.totalAt n) (p.pointerAt n)
    (p.totalAt n (p.pointerAt n)
      + (if p.instructionAt? n = some .increment then 1 else 0)
      - (if p.instructionAt? n = some .decrement then 1 else 0)) := by
  funext c
  rw [Function.update_apply]
  by_cases hc : c = p.pointerAt n
  · subst hc
    simp only [totalAt, surplus_succ, and_true, if_true]
  · simp only [totalAt, surplus_succ, Ne.symm hc, hc, and_false, if_false]
    omega

/-- The codes behind a byte, from the codes in front of it. -/
theorem codesAt_succ : p.codesAt mode (n + 1) = p.codesAt mode n ++
    if p.instructionAt? n = some .output then [mode.reduce (p.totalAt n (p.pointerAt n))]
    else [] := by
  rw [codesAt, codesAt, List.range_succ, List.filter_append, List.map_append]
  by_cases h : p.instructionAt? n = some .output
  · simp [h]
  · simp [h]

/-- The closed form goes on as the instructions say. -/
theorem contentsAt_succ :
    p.contentsAt mode (n + 1) = (p.contentsAt mode n).act mode (p.instructionAt? n) := by
  rw [contentsAt, pointerAt_succ, totalAt_succ, codesAt_succ]
  cases hi : p.instructionAt? n with
  | none => simp [contentsAt, Contents.act]
  | some i =>
      cases i <;>
        simp [contentsAt, Contents.act, Contents.move, Contents.add, Contents.put,
          Contents.cell, Contents.write, Int.sub_eq_add_neg]

variable {p mode} in
/-- Behind the last byte nothing stops. -/
theorem StopsAt.lt_size {pos : Nat} {f : Fault} (h : p.StopsAt mode pos f) : pos < p.size := by
  by_contra hpos
  have hnone : p.instructionAt? pos = none := by
    rw [instructionAt?, Instruction.at?, Array.getElem?_eq_none (Nat.not_lt.mp hpos)]
    rfl
  rw [StopsAt, hnone] at h
  cases h

/-! ## Texts without loops -/

/-- No byte of the program is a bracket or a `,`. -/
structure StraightLine : Prop where
  plain : ∀ b ∈ p.code.toList, Plain b
  no_input : ∀ b ∈ p.code.toList, b ≠ Instruction.input.byte

end Program

/-- A text without brackets and without `,` is accepted. -/
theorem Program.exists_straightLine {text : String} (hopen : '[' ∉ text.toList)
    (hclose : ']' ∉ text.toList) (hinput : ',' ∉ text.toList) :
    ∃ p, Program.ofText? text = .ok p ∧ p.StraightLine := by
  have plain : ∀ b ∈ text.toUTF8.data.toList, Plain b := by
    intro b hb
    refine ⟨?_, ?_⟩
    · rintro rfl
      exact hopen (Instruction.mem_toUTF8_iff.mp hb)
    · rintro rfl
      exact hclose (Instruction.mem_toUTF8_iff.mp hb)
  obtain ⟨p, hp, hbytes⟩ := Program.exists_ofText? (balanced_of_plain plain)
  refine ⟨p, hp, ?_, ?_⟩
  · rw [hbytes]
    exact plain
  · rw [hbytes]
    rintro b hb rfl
    exact hinput (Instruction.mem_toUTF8_iff.mp hb)

namespace Machine

variable {p : Program} {mode : CellMode} {n pos : Nat} (matching : Matching)

/-- At each position the byte stops, with a fault that is told by the closed form,
    or the machine comes to the next position and shows the closed form there. -/
theorem reached_straightLine_cases {s : Store} (hp : p.StraightLine) (hpos : pos < p.size)
    (hs : s.Shows mode (p.contentsAt mode pos)) :
    (∃ f, p.StopsAt mode pos f ∧
      ((loadUnlimited p mode matching).reached s pos pos).step.1 = .error f) ∨
    ((∀ f, ¬ p.StopsAt mode pos f) ∧
      ∃ s', ((loadUnlimited p mode matching).reached s pos pos).next
          = (loadUnlimited p mode matching).reached s' (pos + 1) (pos + 1) ∧
        s'.Shows mode (p.contentsAt mode (pos + 1))) := by
  obtain ⟨b, hb⟩ : ∃ b, p.code.toList[pos]? = some b :=
    ⟨_, List.getElem?_eq_getElem hpos⟩
  have hmem := List.mem_of_getElem? hb
  have hi := Program.instructionAt?_of_getElem? hb
  have no_input : Instruction.ofByte? b ≠ some .input :=
    fun h => hp.no_input b hmem (Instruction.ofByte?_eq_some_iff.mp h)
  simp only [Program.StopsAt, Program.contentsAt_succ, hi]
  rcases hs.act_cases pos no_input with ⟨f, hf, hact⟩ | ⟨hnone, s', hact, hs'⟩
  · exact Or.inl ⟨f, hf, step_reached_of_act rfl hb (hp.plain b hmem) hact⟩
  · exact Or.inr ⟨hnone, s', next_reached_of_act rfl hb (hp.plain b hmem) hact, hs'⟩

/-- As long as no byte stops, the machine shows the closed form. -/
theorem exists_iterate_of_straightLine (hp : p.StraightLine) (hn : n ≤ p.size)
    (hgoes : ∀ pos, pos < n → ∀ f, ¬ p.StopsAt mode pos f) :
    ∃ s, next^[n] (loadUnlimited p mode matching)
        = (loadUnlimited p mode matching).reached s n n ∧ s.Shows mode (p.contentsAt mode n) := by
  induction n with
  | zero => exact ⟨{}, (reached_load p _).symm, Store.Shows.empty mode⟩
  | succ n ih =>
      obtain ⟨s, hreach, hs⟩ := ih (Nat.le_of_succ_le hn)
        (fun pos hpos => hgoes pos (Nat.lt_succ_of_lt hpos))
      rw [Function.iterate_succ_apply', hreach]
      rcases reached_straightLine_cases matching hp hn hs with ⟨f, hf, -⟩ | ⟨-, s', hnext, hs'⟩
      · exact absurd hf (hgoes n (Nat.lt_succ_self n) f)
      · exact ⟨s', hnext, hs'⟩

end Machine

/-- **Programs without loops have a closed form.**  A text without `[`, `]` and `,`
    is accepted.  Its run without a step limit, in either cell mode and with either
    way of matching, is told by counting in the text.  If no byte stops, the run
    finishes after as many steps as there are bytes; otherwise it fails at the
    first byte that stops, with the fault of that byte, after as many steps as
    there are bytes in front of it.  Either way the data pointer, the tape and the
    output are those of the closed form at the place that the run has come to. -/
theorem straight_line_closed_form {text : String} (no_open : '[' ∉ text.toList)
    (no_close : ']' ∉ text.toList) (no_input : ',' ∉ text.toList) :
    ∃ p, Program.ofText? text = .ok p ∧ ∀ mode matching,
      ((∀ pos f, ¬ p.StopsAt mode pos f) →
        ∃ m, (Machine.loadUnlimited p mode matching).Ends .finished m ∧ m.steps = p.size ∧
          m.store.Shows mode (p.contentsAt mode p.size)) ∧
      ∀ pos f, p.StopsAt mode pos f → (∀ q, q < pos → ∀ g, ¬ p.StopsAt mode q g) →
        ∃ m, (Machine.loadUnlimited p mode matching).Ends (.failed f) m ∧ m.steps = pos ∧
          m.store.Shows mode (p.contentsAt mode pos) := by
  obtain ⟨p, htext, hp⟩ := Program.exists_straightLine no_open no_close no_input
  refine ⟨p, htext, ?_⟩
  intro mode matching
  refine ⟨?_, ?_⟩
  · intro hgoes
    obtain ⟨s, hreach, hs⟩ := Machine.exists_iterate_of_straightLine matching hp
      (Nat.le_refl p.size) (fun pos _ => hgoes pos)
    obtain ⟨m, hends, rfl, hsteps⟩ := Machine.ends_of_reached_size hreach
    exact ⟨m, hends, hsteps, hs⟩
  · intro pos f hf hfirst
    have hpos := hf.lt_size
    obtain ⟨s, hreach, hs⟩ := Machine.exists_iterate_of_straightLine matching hp
      (Nat.le_of_lt hpos) hfirst
    rcases Machine.reached_straightLine_cases matching hp hpos hs with
      ⟨g, hg, herror⟩ | ⟨hnone, -⟩
    · rw [hg.unique hf] at herror
      obtain ⟨m, hends, rfl, hsteps⟩ := Machine.ends_of_reached_error hreach herror
      exact ⟨m, hends, hsteps, hs⟩
    · exact absurd hf (hnone f)

/-- In `+>-.` the `.` is done in cell 1, which has been taken below zero. -/
theorem straight_line_closed_form_below_zero :
    let p : Program := ⟨#[0x2B, 0x3E, 0x2D, 0x2E], Table.empty, rfl⟩
    '[' ∉ "+>-.".toList ∧ ']' ∉ "+>-.".toList ∧ ',' ∉ "+>-.".toList ∧
      p.StopsAt .wide 3 (.invalidCodePoint (-1) 3) ∧
      (∀ q, q < 3 → ∀ g, ¬ p.StopsAt .wide q g) ∧
      ∃ m, (Machine.loadUnlimited p .wide .table).Ends
          (.failed (.invalidCodePoint (-1) 3)) m ∧
        m.steps = 3 ∧ m.state.dataPtr = 1 ∧ (m.state.tape.get 1).toInt = -1 := by
  intro p
  have no_open : '[' ∉ "+>-.".toList := by decide
  have no_close : ']' ∉ "+>-.".toList := by decide
  have no_input : ',' ∉ "+>-.".toList := by decide
  have stops : p.StopsAt .wide 3 (.invalidCodePoint (-1) 3) :=
    Contents.Stops.invalid rfl (by decide) (by decide)
  have first : ∀ q, q < 3 → ∀ g, ¬ p.StopsAt .wide q g := by
    intro q hq g hg
    match q, hq with
    | 0, _ => cases hg
    | 1, _ => cases hg
    | 2, _ => cases hg
  obtain ⟨p', hp', hrun⟩ := straight_line_closed_form no_open no_close no_input
  obtain rfl : p' = p := Program.ext_code (Program.ofText?_eq_ok_iff.mp hp')
  obtain ⟨m, hends, hsteps, hshows⟩ := (hrun .wide .table).2 3 _ stops first
  refine ⟨no_open, no_close, no_input, stops, first, m, hends, hsteps, ?_, ?_⟩
  · exact Int.natCast_inj.mp hshows.dataPtr_eq
  · exact (hshows.cells_eq 1).trans (by decide)

end TapeMachine
