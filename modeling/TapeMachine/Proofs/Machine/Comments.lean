import TapeMachine.Proofs.Bracket.Stripped
import TapeMachine.Proofs.Machine.Relocation
import TapeMachine.Proofs.Machine.Trace
import TapeMachine.Proofs.Structured.Refinement
import TapeMachine.Proofs.Text.Symbols

/-! # Comments never matter

    A program runs as it does without its comments.  Two machines, one with a
    program and one with its instructions alone, stay ABREAST: when both come to
    the same instruction with the same store, both fail there or both carry it
    out and go on to the same place, and the comments that lie in front of the
    next instruction are steps of the first machine alone (`Abreast`,
    `Stripped.exists_abreast`).

    Places are told by `rank`, which also translates the positions that faults
    report.  A machine that has only comments left still has steps to take when
    the other has halted already, so what is compared is not the answer of a
    step but whether anything is left to carry out (`Over`). -/

namespace TapeMachine

open TapeMachine.Bracket

/-- A byte does the same wherever it stands, but for the position it reports. -/
theorem Store.act_relocate (g : Nat → Nat) (mode : CellMode) (pos : Nat) (b : UInt8)
    (s : Store) : s.act mode (g pos) b = (s.act mode pos b).mapError (Fault.relocate g) := by
  rw [act, act]
  cases Instruction.ofByte? b with
  | none => rfl
  | some i =>
      cases i with
      | moveLeft =>
          dsimp only
          split
          · rfl
          · rfl
      | output =>
          dsimp only
          split
          · rfl
          · rfl
      | moveRight => rfl
      | increment => rfl
      | decrement => rfl
      | input => rfl
      | loopOpen => rfl
      | loopClose => rfl

/-- A comment does nothing. -/
theorem Store.act_comment {b : UInt8} (hb : isCode b = false) (mode : CellMode) (pos : Nat)
    (s : Store) : s.act mode pos b = .ok s := by
  rw [act]
  cases h : Instruction.ofByte? b with
  | none => rfl
  | some i =>
      rw [isCode, h] at hb
      cases hb

namespace Machine

/-! ## Two machines abreast -/

/-- What is left of an event without the comments of the text: nothing if the
    byte is one, and else the event with its new position. -/
def keepCode (l : List UInt8) (e : Event) : Option Event :=
  if l[e.pos]?.any isCode then some { e with pos := rank l e.pos } else none

/-- The machine `b` has the program of `a` without its comments, and both have
    the same cell mode and no step limit. -/
structure Stripped (a b : Machine) : Prop where
  code : b.program.code.toList = stripped a.program.code.toList
  mode : b.state.mode = a.state.mode
  unlimited_left : a.stepLimit = none
  unlimited_right : b.stepLimit = none

/-- The machines `x`, with the program of `a`, and `y`, with that of `b`, are at
    the same point of the same run: it is over, or they are about to carry out
    the same instruction at `pos`, which leads both to the place `r`. -/
inductive Abreast (a b : Machine) : Machine → Machine → Prop where
  | over {x y : Machine} {status : RunStatus} (left : x.Over status)
      (right : y.Over (status.relocate (rank a.program.code.toList)))
      (store_eq : x.store = y.store) : Abreast a b x y
  | both {x y : Machine} {s : Store} {pos r k k' : Nat} (inside : r ≤ a.program.size)
      (event_left : x.event? = some ⟨pos, s⟩)
      (event_right : y.event? = keepCode a.program.code.toList ⟨pos, s⟩)
      (here : a.program.code.toList[pos]?.any isCode = true)
      (next_left : x.next = a.reached s r k)
      (next_right : y.next = b.reached s (rank a.program.code.toList r) k') : Abreast a b x y

namespace Stripped

variable {a b : Machine} {pos : Nat} {c : UInt8} (h : Stripped a b)
include h

/-- The size of the program without comments is the number of instructions of the other. -/
theorem size_right : b.program.size = rank a.program.code.toList a.program.size := by
  rw [Program.size, ← Array.length_toList, h.code, Program.size, ← Array.length_toList,
    rank_length]

/-- An instruction that both machines carry out. -/
theorem abreast_of_execute {s s' : Store} {r r' k k' : Nat} {written written' : Option Char}
    (hc : a.program.code.toList[pos]? = some c) (hcode : isCode c = true)
    (hleft : (a.running s pos k).execute (a.program.instructionAt? pos)
      = (.ok written, a.running s' r k))
    (hright : (b.running s (rank a.program.code.toList pos) k').execute
        (b.program.instructionAt? (rank a.program.code.toList pos))
      = (.ok written', b.running s' r' k'))
    (hr : r < a.program.size) (hr' : rank a.program.code.toList (r + 1) = r' + 1) :
    Abreast a b (a.reached s pos k) (b.reached s (rank a.program.code.toList pos) k') := by
  have hpos : pos < a.program.size := (List.getElem?_eq_some_iff.mp hc).1
  have hc' := getElem?_stripped hc hcode
  rw [← h.code] at hc'
  have hpos' : rank a.program.code.toList pos < b.program.size :=
    (List.getElem?_eq_some_iff.mp hc').1
  have hhere : a.program.code.toList[pos]?.any isCode = true := by
    rw [hc]
    exact hcode
  have hnext : (b.reached s (rank a.program.code.toList pos) k').next
      = b.reached s' (rank a.program.code.toList (r + 1)) (k' + 1) := by
    rw [hr']
    exact next_reached h.unlimited_right hpos' hright
  refine .both hr (event?_reached h.unlimited_left hpos hleft) ?_ hhere
    (next_reached h.unlimited_left hpos hleft) hnext
  rw [event?_reached h.unlimited_right hpos' hright, keepCode, if_pos hhere]

/-- At a bracket both machines make the same test. -/
theorem abreast_of_test {i j : Nat} (hpair : Matched a.program.code.toList i j)
    (hq : pos = i ∨ pos = j) (s : Store) (k k' : Nat) :
    Abreast a b (a.reached s pos k) (b.reached s (rank a.program.code.toList pos) k') := by
  have hpair' := hpair.stripped
  rw [← h.code] at hpair'
  have hq' := hq.imp (congrArg (rank a.program.code.toList))
    (congrArg (rank a.program.code.toList))
  have hi : i < a.program.size := lt_size_of_test hpair (Or.inl rfl)
  have hj : j < a.program.size := lt_size_of_test hpair (Or.inr rfl)
  obtain ⟨c, hc, hcode⟩ : ∃ c, a.program.code.toList[pos]? = some c ∧ isCode c = true := by
    rcases hq with rfl | rfl
    · exact ⟨_, hpair.open_at, rfl⟩
    · exact ⟨_, hpair.close_at, rfl⟩
  refine h.abreast_of_execute hc hcode (execute_running_of_test s k hpair hq)
    (execute_running_of_test s k' hpair' hq') ?_ ?_
  · split
    · exact hj
    · exact hi
  · split
    · exact rank_succ_of_code hpair.close_at rfl
    · exact rank_succ_of_code hpair.open_at rfl

/-- At the same instruction, with the same store, the machines are abreast. -/
theorem abreast_of_code (hc : a.program.code.toList[pos]? = some c) (hcode : isCode c = true)
    (s : Store) (k k' : Nat) :
    Abreast a b (a.reached s pos k) (b.reached s (rank a.program.code.toList pos) k') := by
  rcases plain_or_bracket c with rfl | rfl | plain
  · obtain ⟨j, hj⟩ := a.program.balanced.exists_matched_open hc
    exact h.abreast_of_test hj (Or.inl rfl) s k k'
  · obtain ⟨i, hi⟩ := a.program.balanced.exists_matched_close hc
    exact h.abreast_of_test hi (Or.inr rfl) s k k'
  · have hc' := getElem?_stripped hc hcode
    rw [← h.code] at hc'
    have hact : s.act b.state.mode (rank a.program.code.toList pos) c
        = (s.act a.state.mode pos c).mapError (Fault.relocate (rank a.program.code.toList)) := by
      rw [h.mode, s.act_relocate]
    cases hleft : s.act a.state.mode pos c with
    | error f =>
        rw [hleft] at hact
        refine .over (over_of_error (step_reached_of_act h.unlimited_left hc plain hleft))
          (over_of_error (step_reached_of_act h.unlimited_right hc' plain hact)) ?_
        rw [store_reached, store_reached]
    | ok s' =>
        rw [hleft] at hact
        obtain ⟨written, hx⟩ := execute_running_of_act k hc plain hleft
        obtain ⟨written', hx'⟩ := execute_running_of_act k' hc' plain hact
        exact h.abreast_of_execute hc hcode hx hx' (List.getElem?_eq_some_iff.mp hc).1
          (rank_succ_of_code hc hcode)

/-- From the same place the first machine comes, over the comments in front of
    it, to the instruction at which it is abreast of the second. -/
theorem exists_abreast (hpos : pos ≤ a.program.size) (s : Store) (k k' : Nat) :
    ∃ d, Abreast a b (next^[d] (a.reached s pos k))
        (b.reached s (rank a.program.code.toList pos) k') ∧
      ((a.reached s pos k).trace d).filterMap (keepCode a.program.code.toList) = [] := by
  obtain ⟨left, hleft⟩ := Nat.exists_eq_add_of_le hpos
  -- on the number of bytes that are left
  induction left generalizing pos k with
  | zero =>
      have hend : pos = a.program.size := hleft.symm
      subst hend
      refine ⟨0, .over (over_of_done done_reached_size) ?_ ?_, rfl⟩
      · rw [← h.size_right]
        exact over_of_done done_reached_size
      · rw [Function.iterate_zero_apply, store_reached, store_reached]
  | succ left ih =>
      have hlt : pos < a.program.size := by omega
      obtain ⟨c, hc⟩ : ∃ c, a.program.code.toList[pos]? = some c :=
        ⟨_, List.getElem?_eq_getElem hlt⟩
      cases hcode : isCode c with
      | true => exact ⟨0, h.abreast_of_code hc hcode s k k', rfl⟩
      | false =>
          have plain := plain_of_comment hcode
          have hact := s.act_comment hcode a.state.mode pos
          obtain ⟨written, hx⟩ := execute_running_of_act k hc plain hact
          have hevent := event?_reached h.unlimited_left hlt hx
          have hdrop : keepCode a.program.code.toList ⟨pos, s⟩ = none := by
            rw [keepCode, if_neg]
            rw [hc, Option.any_some, hcode]
            exact Bool.false_ne_true
          have hpos' : pos + 1 ≤ a.program.size := hlt
          obtain ⟨d, habreast, htrace⟩ := ih (k := k + 1) hpos' (by omega)
          rw [rank_succ_of_comment hc hcode] at habreast
          have hnext := next_reached_of_act (k := k) h.unlimited_left hc plain hact
          refine ⟨d + 1, ?_, ?_⟩
          · rw [Function.iterate_succ_apply, hnext]
            exact habreast
          · rw [trace, hevent, hnext, Option.toList_some, List.singleton_append,
              List.filterMap_cons_none hdrop, htrace]

/-- Machines abreast stay abreast. -/
theorem stutters : Stutters (Abreast a b) (keepCode a.program.code.toList)
    (RunStatus.relocate (rank a.program.code.toList)) where
  step := by
    rintro x y (⟨left, right, store_eq⟩ |
      ⟨inside, event_left, event_right, here, next_left, next_right⟩)
    · refine ⟨1, Nat.one_pos, .over left.over_next right.over_next ?_, ?_⟩
      · rw [Function.iterate_one, left.store_next, right.store_next, store_eq]
      · rw [trace, trace, left.idle, right.idle]
        rfl
    · rename_i s pos r k k'
      obtain ⟨d, habreast, htrace⟩ := h.exists_abreast inside s k k'
      refine ⟨d + 1, Nat.succ_pos d, ?_, ?_⟩
      · rw [Function.iterate_succ_apply, next_left, next_right]
        exact habreast
      · have hkeep : keepCode a.program.code.toList ⟨pos, s⟩
            = some ⟨rank a.program.code.toList pos, s⟩ := if_pos here
        rw [trace, event_left, next_left, event_right, hkeep, Option.toList_some,
          List.singleton_append, List.filterMap_cons_some hkeep, htrace]
        rfl
  meets := by
    rintro x y (⟨left, right, store_eq⟩ |
      ⟨inside, event_left, event_right, here, next_left, next_right⟩)
    · exact Or.inl ⟨_, left, right, store_eq⟩
    · refine Or.inr ⟨?_, ?_⟩
      · rw [event_left]
        exact Option.some_ne_none _
      · rw [event_right, keepCode, if_pos here]
        exact Option.some_ne_none _

end Stripped

/-! ## Whole runs -/

/-- The runs of two machines that carry out the same instructions, where `l` is
    the text of the first and the second has it without the comments. -/
structure AlikeButComments (l : List UInt8) (a b : Machine) : Prop where
  /-- Both finish, with the same store, or neither does. -/
  finished : ∀ s, (∃ b', b.Ends .finished b' ∧ b'.store = s) ↔
    ∃ a', a.Ends .finished a' ∧ a'.store = s
  /-- Both fail, with the same store and the same fault at the same instruction,
      or neither does. -/
  failed : ∀ f s, (∃ b', b.Ends (.failed f) b' ∧ b'.store = s) ↔
    ∃ f₀ a', a.Ends (.failed f₀) a' ∧ a'.store = s ∧ f = f₀.relocate (rank l)
  /-- Both run forever, or neither does. -/
  forever : b.RunsForever ↔ a.RunsForever
  /-- The steps of the second are the steps of the first that are no comments. -/
  traced : ∀ n, ∃ k, b.trace k = (a.trace n).filterMap (keepCode l)
  /-- No step of the second is missing in the first. -/
  traced_back : ∀ k, ∃ n, b.trace k = (a.trace n).filterMap (keepCode l)
  /-- Each counts what it has carried out. -/
  counted : ∀ n, (next^[n] a).steps = (a.trace n).length ∧
    (next^[n] b).steps = (b.trace n).length

theorem Stripped.alike {p q : Program} {settings : Settings}
    (h : Stripped (load p settings) (load q settings)) :
    AlikeButComments p.code.toList (load p settings) (load q settings) := by
  have hstart := h.exists_abreast (Nat.zero_le _) {} 0 0
  rw [rank_zero, reached_load, reached_load] at hstart
  obtain ⟨d, habreast, hd⟩ := hstart
  have sim := h.stutters
  refine ⟨?_, ?_, ?_, ?_, ?_, ?_⟩
  · intro s
    rw [sim.ends_iff habreast]
    constructor
    · rintro ⟨status, a', ha, hs, he⟩
      rw [RunStatus.relocate_eq_finished_iff.mp he] at ha
      exact ⟨a', ha, hs⟩
    · rintro ⟨a', ha, hs⟩
      exact ⟨.finished, a', ha, hs, rfl⟩
  · intro f s
    rw [sim.ends_iff habreast]
    constructor
    · rintro ⟨status, a', ha, hs, he⟩
      obtain ⟨f₀, rfl, rfl⟩ := RunStatus.relocate_eq_failed_iff.mp he
      exact ⟨f₀, a', ha, hs, rfl⟩
    · rintro ⟨f₀, a', ha, hs, rfl⟩
      exact ⟨.failed f₀, a', ha, hs, rfl⟩
  · exact (sim.simulates.runsForever_iff habreast).symm
  · exact sim.exists_trace_eq hd habreast
  · intro k
    obtain ⟨n, -, -, htrace⟩ := sim.exists_iterate hd habreast k
    exact ⟨n, htrace.symm⟩
  · intro n
    refine ⟨?_, ?_⟩
    · rw [steps_iterate_eq]
      exact Nat.zero_add _
    · rw [steps_iterate_eq]
      exact Nat.zero_add _

end Machine

/-! ## Texts -/

/-- The text without its comments. -/
def withoutComments (text : String) : String :=
  String.ofList ((text.toUTF8.data.toList.filterMap Instruction.ofByte?).map Instruction.symbol)

/-- Its bytes are the instruction bytes of the text, in order. -/
theorem toUTF8_withoutComments (text : String) :
    (withoutComments text).toUTF8.data.toList = stripped text.toUTF8.data.toList := by
  rw [withoutComments, Instruction.toUTF8_ofList_symbol]
  induction text.toUTF8.data.toList with
  | nil => rfl
  | cons b l ih =>
      cases hb : Instruction.ofByte? b with
      | none =>
          have hcode : isCode b = false := by
            rw [isCode, hb]
            rfl
          rw [List.filterMap_cons_none hb, stripped_cons_of_comment hcode, ih]
      | some i =>
          have hcode : isCode b = true := by
            rw [isCode, hb]
            rfl
          rw [List.filterMap_cons_some hb, stripped_cons_of_code hcode, List.map_cons, ih,
            Instruction.ofByte?_eq_some_iff.mp hb]

/-- **Comments never matter.**  A text and what it is without its comments are
    both accepted, or both refused at position -1, or each is refused at its own
    length.  If they are accepted then, in either cell mode, with either way of
    matching and without a step limit, their runs are alike: they end in the same
    way and with the same tape, data pointer and output, or both run forever, and
    the steps of the one are the steps of the other that carry out an
    instruction. -/
theorem comments_never_matter (text : String) :
    (withoutComments text).toUTF8.data.toList = stripped text.toUTF8.data.toList ∧
    ((∃ p q, Program.ofText? text = .ok p ∧ Program.ofText? (withoutComments text) = .ok q ∧
        ∀ mode matching, Machine.AlikeButComments text.toUTF8.data.toList
          (Machine.loadUnlimited p mode matching) (Machine.loadUnlimited q mode matching)) ∨
      (Program.ofText? text
          = .error (.programCounterOutOfRange (-1) text.utf8ByteSize) ∧
        Program.ofText? (withoutComments text)
          = .error (.programCounterOutOfRange (-1) (withoutComments text).utf8ByteSize)) ∨
      (Program.ofText? text
          = .error (.programCounterOutOfRange text.utf8ByteSize text.utf8ByteSize) ∧
        Program.ofText? (withoutComments text)
          = .error (.programCounterOutOfRange (withoutComments text).utf8ByteSize
              (withoutComments text).utf8ByteSize))) := by
  have hcode := toUTF8_withoutComments text
  refine ⟨hcode, ?_⟩
  rcases Table.build_stripped_cases hcode with ⟨⟨t, ht⟩, t', ht'⟩ | ⟨he, he'⟩ | ⟨he, he'⟩
  · refine Or.inl ⟨⟨_, t, ht⟩, ⟨_, t', ht'⟩, Program.ofBytes?_eq_ok_iff.mpr rfl,
      Program.ofBytes?_eq_ok_iff.mpr rfl, ?_⟩
    intro mode matching
    have hs : Machine.Stripped (Machine.loadUnlimited ⟨_, t, ht⟩ mode matching)
        (Machine.loadUnlimited ⟨_, t', ht'⟩ mode matching) := ⟨hcode, rfl, rfl, rfl⟩
    exact hs.alike
  · exact Or.inr (Or.inl ⟨Program.ofBytes?_eq_error_iff.mpr he,
      Program.ofBytes?_eq_error_iff.mpr he'⟩)
  · exact Or.inr (Or.inr ⟨Program.ofBytes?_eq_error_iff.mpr he,
      Program.ofBytes?_eq_error_iff.mpr he'⟩)

end TapeMachine
