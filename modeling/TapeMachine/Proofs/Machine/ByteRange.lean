import TapeMachine.Control
import TapeMachine.Proofs.Cell.Residue
import TapeMachine.Proofs.Machine.Runs

/-! # Byte cells stay bytes

    A state in byte mode is used in any way there is: its cells are set and added
    to, whatever the word, its pointer and its program counter are moved or set,
    and programs are stepped on it, one after the other and from any point of
    theirs.  As long as nobody pokes a word into the tape past the reduction,
    changes the mode, or replaces the output, its cells and the codes of its
    output are bytes (`State.HoldsBytes`): whatever is stored has been reduced,
    and what is allocated is zero.

    So a write never fails there (`State.HoldsBytes.writeCell_eq`), nor does a `.`
    in a step or a run. -/

namespace TapeMachine

/-! ## Tapes -/

namespace Tape.InByteRange

variable {t : Tape} (h : t.InByteRange)

theorem empty : Tape.empty.InByteRange := by
  intro i
  show (0 : Int) ≤ 0 ∧ (0 : Int) ≤ 255
  decide

include h

/-- Allocating cells puts zeros there. -/
theorem touch (i : Nat) : (t.touch i).InByteRange := by
  intro j
  rw [get_touch]
  exact h j

/-- A byte can be stored. -/
theorem set {v : Int64} (hv : 0 ≤ v.toInt ∧ v.toInt ≤ 255) (i : Nat) :
    (t.set i v).InByteRange := by
  intro j
  rw [get_set]
  split
  · exact hv
  · exact h j

end Tape.InByteRange

/-! ## States -/

/-- The state is in byte mode, its cells are bytes, and so are the codes of its output. -/
structure State.HoldsBytes (s : State) : Prop where
  mode_eq : s.mode = .byte
  cells : s.tape.InByteRange
  output : ∀ c ∈ s.output.toList, c.toNat ≤ 0xFF

namespace State.HoldsBytes

variable {s : State}

theorem start : (State.start .byte).HoldsBytes where
  mode_eq := rfl
  cells := .empty
  output := nofun

variable (h : s.HoldsBytes)
include h

/-- The current cell is written as the character whose code it is. -/
theorem exists_toChar? : ∃ c, s.mode.toChar? s.cell = some c ∧ (c.toNat : Int) = s.cell.toInt := by
  obtain ⟨c, hc, hcode⟩ := CellMode.toChar?_byte s.cell
  have hcell : 0 ≤ s.cell.toInt ∧ s.cell.toInt ≤ 255 := h.cells s.dataPtr
  rw [h.mode_eq]
  refine ⟨c, hc, ?_⟩
  rw [hcode]
  exact Int.emod_eq_of_lt hcell.1 (Int.lt_add_one_of_le hcell.2)

/-- A write succeeds, and the code that it adds is the current cell. -/
theorem writeCell_eq : ∃ c, (c.toNat : Int) = s.cell.toInt ∧
    s.writeCell = (.ok c, { s.touchCell with output := s.output.push c }) := by
  obtain ⟨c, hc, hcode⟩ := h.exists_toChar?
  exact ⟨c, hcode, writeCell_of_some hc⟩

/-! ### What keeps it so -/

theorem setPc (pc : Nat) : ({ s with pc := pc } : State).HoldsBytes :=
  ⟨h.mode_eq, h.cells, h.output⟩

theorem setDataPtr (ptr : Nat) : ({ s with dataPtr := ptr } : State).HoldsBytes :=
  ⟨h.mode_eq, h.cells, h.output⟩

theorem setTape {t : Tape} (ht : t.InByteRange) : ({ s with tape := t } : State).HoldsBytes :=
  ⟨h.mode_eq, ht, h.output⟩

theorem touchCell : s.touchCell.HoldsBytes := h.setTape (h.cells.touch _)

/-- Whatever is stored in the current cell, it has been reduced to a byte. -/
theorem store (v : Int64) :
    ({ s with tape := s.tape.set s.dataPtr (s.mode.normalize v) } : State).HoldsBytes := by
  refine h.setTape (h.cells.set ?_ _)
  rw [h.mode_eq]
  have hv := CellMode.normalize_byte_bounds v
  exact ⟨hv.1, Int.le_of_lt_add_one hv.2⟩

/-- Moving to the left keeps the bytes, if it can be done. -/
theorem moveLeft {s' : State} (hs : s.moveLeft = .ok s') : s'.HoldsBytes := by
  rw [State.moveLeft] at hs
  split at hs
  · cases hs
  · cases hs
    exact h.setDataPtr _

/-- The character written has the current cell for its code, so that is a byte. -/
theorem pushOutput {c : Char} (hc : s.mode.toChar? s.cell = some c) :
    ({ s.touchCell with output := s.output.push c } : State).HoldsBytes where
  mode_eq := h.mode_eq
  cells := h.touchCell.cells
  output := by
    intro d hd
    rw [String.toList_push, List.mem_append, List.mem_singleton] at hd
    rcases hd with hd | rfl
    · exact h.output d hd
    · obtain ⟨c, hc', hcode⟩ := h.exists_toChar?
      obtain rfl : d = c := Option.some.inj (hc.symm.trans hc')
      have hcell : 0 ≤ s.cell.toInt ∧ s.cell.toInt ≤ 255 := h.cells s.dataPtr
      omega

end State.HoldsBytes

/-- The operations that leave the reduction, the mode and what has been written alone. -/
def State.Command.KeepsBytes : State.Command → Prop
  | .access (.poke _ _) | .setMode _ | .setOutput _ => False
  | _ => True

instance : DecidablePred State.Command.KeepsBytes
  | .access (.poke _ _) | .setMode _ | .setOutput _ => .isFalse id
  | .readCell | .setCell _ | .addCell _ | .moveRight | .moveLeft | .writeCell
  | .access (.peek _) | .access (.touch _) | .setPc _ | .setDataPtr _ | .clearTape
  | .restart => .isTrue trivial

/-- The operations that keep the bytes do so. -/
theorem State.HoldsBytes.perform {s : State} (h : s.HoldsBytes) {command : State.Command}
    (hc : command.KeepsBytes) : (s.perform command).2.HoldsBytes := by
  cases command with
  | readCell => exact h.touchCell
  | setCell v => exact h.store v
  | addCell delta => exact h.store _
  | moveRight => exact h.setDataPtr _
  | moveLeft =>
      rw [State.perform]
      split
      · rename_i s' hs
        exact h.moveLeft hs
      · exact h
  | writeCell =>
      obtain ⟨c, hchar, -⟩ := h.exists_toChar?
      rw [State.perform, State.writeCell_of_some hchar]
      exact h.pushOutput hchar
  | access a =>
      cases a with
      | peek i => exact h
      | touch i => exact h.setTape (h.cells.touch i)
      | poke i v => exact hc.elim
  | setPc pc => exact h.setPc pc
  | setDataPtr ptr => exact h.setDataPtr ptr
  | setMode mode => exact hc.elim
  | setOutput text => exact hc.elim
  | clearTape => exact h.setTape .empty
  | restart =>
      show (State.start s.mode).HoldsBytes
      rw [h.mode_eq]
      exact .start

/-! ## Steps -/

/-- Every byte keeps the bytes, whatever the program. -/
theorem Effect.holdsBytes {p : Program} {s s' : State} {far far' : Nat} {written : Option Char}
    (h : Effect p s far written s' far') (hs : s.HoldsBytes) : s'.HoldsBytes := by
  cases h with
  | comment here => exact hs
  | moveRight here => exact hs.setDataPtr _
  | moveLeft here above => exact hs.setDataPtr _
  | increment here => exact hs.store _
  | decrement here => exact hs.store _
  | output here char => exact hs.pushOutput char
  | loopOpen here pair => exact hs.touchCell.setPc _
  | loopClose here pair => exact hs.touchCell.setPc _

namespace Machine

variable {m : Machine}

/-- Moving on to the next byte keeps the bytes. -/
theorem holdsBytes_advance (h : m.state.HoldsBytes) (written : Option Char) :
    (m.advance written).2.state.HoldsBytes := by
  rw [advance]
  split
  · exact h
  · exact h.setPc _

theorem holdsBytes_next (h : m.state.HoldsBytes) : m.next.state.HoldsBytes := by
  rw [next]
  rcases m.step_cases with ⟨-, hs⟩ | ⟨f, hs⟩ | ⟨written, s, far, -, heffect, hs⟩
  · rw [hs]
    exact h
  · rw [hs]
    exact h
  · rw [hs]
    exact holdsBytes_advance (heffect.holdsBytes h) written

/-- No `.` fails in byte mode. -/
theorem step_ne_invalid (hm : m.state.mode = .byte) (v : Int64) (pos : Nat) :
    m.step.1 ≠ .error (.invalidCodePoint v pos) := by
  intro herror
  obtain ⟨-, -, ⟨limit, -, hf⟩ | ⟨-, hfault⟩⟩ := step_error_iff.mp herror
  · cases hf
  · cases hfault with
    | invalid hb hwide hscalar =>
        rw [hm] at hwide
        cases hwide

/-- A machine in byte mode never meets a cell that is no character. -/
theorem not_ends_invalid {m' : Machine} (hm : m.state.mode = .byte) (v : Int64) (pos : Nat) :
    ¬ m.Ends (.failed (.invalidCodePoint v pos)) m' := by
  intro hends
  obtain ⟨k, hend, -⟩ := ends_iff.mp hends
  have hk : (next^[k] m).state.mode = .byte := (iterate_mode m k).trans hm
  exact step_ne_invalid hk v pos (endOf_eq_failed_iff.mp hend)

end Machine

/-! ## Any sequence of uses -/

/-- A use of a state: an operation on it, or a step of a machine, at any point of
    any program, in which it is put. -/
inductive State.Use where
  | command (command : State.Command)
  | step (machine : Machine)

namespace State

/-- The machine at the same point, with another state. -/
def within (s : State) (m : Machine) : Machine := { m with state := s }

/-- The state that a use leaves. -/
def use (s : State) : Use → State
  | .command c => (s.perform c).2
  | .step m => (s.within m).next.state

/-- The uses that leave the reduction, the mode and what has been written alone. -/
def Use.KeepsBytes : Use → Prop
  | .command c => c.KeepsBytes
  | .step _ => True

instance : DecidablePred Use.KeepsBytes
  | .command c => inferInstanceAs (Decidable c.KeepsBytes)
  | .step _ => .isTrue trivial

/-- The uses that keep the bytes do so. -/
theorem HoldsBytes.use {s : State} (h : s.HoldsBytes) {u : Use} (hu : u.KeepsBytes) :
    (s.use u).HoldsBytes := by
  cases u with
  | command c => exact h.perform hu
  | step m => exact Machine.holdsBytes_next (m := s.within m) h

/-- So does any sequence of them. -/
theorem HoldsBytes.foldl {s : State} (h : s.HoldsBytes) {uses : List Use}
    (hu : ∀ u ∈ uses, u.KeepsBytes) : (uses.foldl State.use s).HoldsBytes := by
  induction uses generalizing s with
  | nil => exact h
  | cons u uses ih =>
      have hfirst := h.use (hu u List.mem_cons_self)
      exact ih hfirst (fun u' hu' => hu u' (List.mem_cons_of_mem u hu'))

/-- **Byte cells stay bytes.**  Begin with a fresh state in byte mode and use it in
    any way, but that no word is poked into the tape, the mode is not changed and
    the output is not replaced.  Every cell is a byte, whatever words have been
    stored and added; so is the code of every character in the output; a write
    succeeds and appends the character whose code is the current cell; and no
    step and no run from here on, of any program, finds a cell that is no
    character. -/
theorem byte_cells_stay_bytes {uses : List Use} (keeps : ∀ u ∈ uses, u.KeepsBytes) :
    let s := uses.foldl use (start .byte)
    s.tape.InByteRange ∧ (∀ c ∈ s.output.toList, c.toNat ≤ 0xFF) ∧
    (∃ c, (c.toNat : Int) = s.cell.toInt ∧
      s.writeCell = (.ok c, { s.touchCell with output := s.output.push c })) ∧
    ∀ (m : Machine) (v : Int64) (pos : Nat),
      (s.within m).step.1 ≠ .error (.invalidCodePoint v pos) ∧
      (∀ n, ((s.within m).runFor n).1 ≠ .failed (.invalidCodePoint v pos)) ∧
      ∀ m', ¬ (s.within m).Ends (.failed (.invalidCodePoint v pos)) m' := by
  intro s
  have h : s.HoldsBytes := HoldsBytes.start.foldl keeps
  refine ⟨h.cells, h.output, h.writeCell_eq, ?_⟩
  intro m v pos
  have hmode : (s.within m).state.mode = .byte := h.mode_eq
  refine ⟨Machine.step_ne_invalid hmode v pos, ?_, ?_⟩
  · intro n hn
    have hends :
        (s.within m).Ends (.failed (.invalidCodePoint v pos)) ((s.within m).runFor n).2 := by
      refine ⟨nofun, n, ?_⟩
      rw [← hn]
    exact Machine.not_ends_invalid hmode v pos hends
  · intro m'
    exact Machine.not_ends_invalid hmode v pos

/-- Two and the largest word wrap to a negative sum.  It is reduced to 1, and
    with -3 added to that to 254, which `.` writes as the character `þ`. -/
theorem byte_cells_stay_bytes_when_a_sum_wraps :
    let p : Program := ⟨#[0x2B, 0x2E], Bracket.Table.empty, rfl⟩
    let m : Machine := Machine.load p {}
    let uses : List Use := [.step m, .command (.setPc 0), .step m,
      .command (.addCell Int64.maxValue), .command (.addCell (-3)), .step m]
    (∀ u ∈ uses, u.KeepsBytes) ∧ (uses.foldl use (start .byte)).output = "þ" ∧
      ∃ c, (c.toNat : Int) = 254 ∧ (uses.foldl use (start .byte)).writeCell.1 = .ok c := by
  intro p m uses
  have keeps : ∀ u ∈ uses, u.KeepsBytes := by decide
  have hcell : (uses.foldl use (start .byte)).cell.toInt = 254 := by decide +kernel
  have houtput : (uses.foldl use (start .byte)).output = "þ" := by decide +kernel
  obtain ⟨-, -, ⟨c, hcode, hwrite⟩, -⟩ := byte_cells_stay_bytes keeps
  refine ⟨keeps, houtput, c, hcode.trans hcell, ?_⟩
  rw [hwrite]

end State

end TapeMachine
