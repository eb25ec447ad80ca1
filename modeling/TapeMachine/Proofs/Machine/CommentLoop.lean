import TapeMachine.Proofs.Bracket.Inserted
import TapeMachine.Proofs.Machine.Comments
import TapeMachine.Proofs.Machine.Composition

/-! # Loops that are never entered

    A loop at the beginning of a program, or right behind another loop, is a
    comment: the cell that it tests is zero, and its body is never carried out,
    whatever it holds.  At the beginning nothing has been stored yet, and control
    comes behind a `]` in one way only, with zero in the cell, be it from the
    `[` of that loop or from the `]` itself.

    Two machines, one with such a loop put in and one without it, go the same
    way.  Each position behind the loop is moved on by its length (`skip`).
    When the machine with the loop comes to it, it needs one step more than the
    other, which allocates the cell that it tests: so the stores of the two read
    the same (`Store.ReadsAs`), but are not always the same. -/

namespace TapeMachine

open TapeMachine.Bracket

/-! ## Stores that read the same -/

/-- The stores differ in nothing that a program reads. -/
structure Store.ReadsAs (s t : Store) : Prop where
  get_eq : ∀ i, s.tape.get i = t.tape.get i
  dataPtr_eq : s.dataPtr = t.dataPtr
  output_eq : s.output = t.output
  maxDataPtr_eq : s.maxDataPtr = t.maxDataPtr

namespace Store.ReadsAs

variable {s t : Store}

theorem refl (s : Store) : s.ReadsAs s := ⟨fun _ => rfl, rfl, rfl, rfl⟩

theorem cell_eq (h : s.ReadsAs t) : s.cell = t.cell := by
  rw [cell, cell, h.dataPtr_eq, h.get_eq]

/-- A test allocates a cell, but changes no value. -/
theorem touch_right (h : s.ReadsAs t) : s.ReadsAs t.touch where
  get_eq := by
    intro i
    show s.tape.get i = (t.tape.touch t.dataPtr).get i
    rw [Tape.get_touch, h.get_eq]
  dataPtr_eq := h.dataPtr_eq
  output_eq := h.output_eq
  maxDataPtr_eq := h.maxDataPtr_eq

/-- Allocating in the one only changes nothing that is read. -/
theorem touch_left (h : s.ReadsAs t) : s.touch.ReadsAs t where
  get_eq := by
    intro i
    show (s.tape.touch s.dataPtr).get i = t.tape.get i
    rw [Tape.get_touch, h.get_eq]
  dataPtr_eq := h.dataPtr_eq
  output_eq := h.output_eq
  maxDataPtr_eq := h.maxDataPtr_eq

/-- Storing the same in both keeps them alike. -/
theorem put (h : s.ReadsAs t) (mode : CellMode) (v : Int64) :
    (s.put mode v).ReadsAs (t.put mode v) where
  get_eq := by
    intro i
    show (s.tape.set s.dataPtr _).get i = (t.tape.set t.dataPtr _).get i
    rw [Tape.get_set, Tape.get_set, h.dataPtr_eq, h.get_eq]
  dataPtr_eq := h.dataPtr_eq
  output_eq := h.output_eq
  maxDataPtr_eq := h.maxDataPtr_eq

/-- A byte that is no bracket does the same to both, or has the same fault. -/
theorem act (h : s.ReadsAs t) (mode : CellMode) (pos : Nat) (b : UInt8) :
    (∃ f, s.act mode pos b = .error f ∧ t.act mode pos b = .error f) ∨
    ∃ s' t', s.act mode pos b = .ok s' ∧ t.act mode pos b = .ok t' ∧ s'.ReadsAs t' := by
  rw [Store.act, Store.act]
  cases Instruction.ofByte? b with
  | none => exact Or.inr ⟨s, t, rfl, rfl, h⟩
  | some i =>
      cases i with
      | moveRight =>
          refine Or.inr ⟨_, _, rfl, rfl, h.get_eq, ?_, h.output_eq, ?_⟩
          · exact congrArg (· + 1) h.dataPtr_eq
          · show max s.maxDataPtr (s.dataPtr + 1) = max t.maxDataPtr (t.dataPtr + 1)
            rw [h.maxDataPtr_eq, h.dataPtr_eq]
      | moveLeft =>
          dsimp only
          rw [h.dataPtr_eq]
          by_cases h0 : t.dataPtr = 0
          · rw [if_pos h0, if_pos h0]
            exact Or.inl ⟨_, rfl, rfl⟩
          · rw [if_neg h0, if_neg h0]
            exact Or.inr ⟨_, _, rfl, rfl, h.get_eq, rfl, h.output_eq, h.maxDataPtr_eq⟩
      | increment =>
          dsimp only
          rw [h.cell_eq]
          exact Or.inr ⟨_, _, rfl, rfl, h.put mode _⟩
      | decrement =>
          dsimp only
          rw [h.cell_eq]
          exact Or.inr ⟨_, _, rfl, rfl, h.put mode _⟩
      | output =>
          dsimp only
          rw [h.cell_eq]
          cases mode.toChar? t.cell with
          | none => exact Or.inl ⟨_, rfl, rfl⟩
          | some c =>
              have ht := h.touch_left.touch_right
              refine Or.inr ⟨_, _, rfl, rfl, ht.get_eq, h.dataPtr_eq, ?_, h.maxDataPtr_eq⟩
              exact congrArg (·.push c) h.output_eq
      | input => exact Or.inl ⟨_, rfl, rfl⟩
      | loopOpen => exact Or.inr ⟨s, t, rfl, rfl, h⟩
      | loopClose => exact Or.inr ⟨s, t, rfl, rfl, h⟩

end Store.ReadsAs

/-- A loop with the given body. -/
def Bracket.enclosed (body : List UInt8) : List UInt8 := openByte :: (body ++ [closeByte])

theorem Bracket.length_enclosed (body : List UInt8) :
    (enclosed body).length = body.length + 2 := by
  rw [enclosed, List.length_cons, List.length_append, List.length_singleton]

namespace Machine

/-! ## Two machines in step -/

/-- The machine `a` has the program of `b` with a loop put in between `front` and
    `rest`, where nothing but a zero cell can bring it. -/
structure HasCommentLoop (front body rest : List UInt8) (a b : Machine) : Prop where
  code_left : a.program.code.toList = front ++ (enclosed body ++ rest)
  code_right : b.program.code.toList = front ++ rest
  balanced : Balanced body
  behind : front = [] ∨ ∃ init, front = init ++ [closeByte]
  mode : a.state.mode = b.state.mode
  unlimited_left : a.stepLimit = none
  unlimited_right : b.stepLimit = none

/-- The program counter is not inside the body. -/
def Outside (front body : List UInt8) (m : Machine) : Prop :=
  m.state.pc ≤ front.length ∨ front.length + body.length < m.state.pc

/-- The machines `x`, with the program of `a`, and `y`, with that of `b`, are at
    the same point of the same run: it is over, or they are about to carry out
    the same byte, which leads both to the place behind `r`, with zero in the
    cell if that is where the loop has been put in. -/
inductive InStep (front body : List UInt8) (a b : Machine) : Machine → Machine → Prop where
  | over {x y : Machine} {status : RunStatus}
      (left : x.Over (status.relocate (skip front.length (enclosed body).length)))
      (right : y.Over status) (reads : y.store.ReadsAs x.store)
      (outside : Outside front body x) : InStep front body a b x y
  | both {x y : Machine} {s t : Store} {r k k' : Nat} (inside : r < b.program.size)
      (event_left : x.event? ≠ none) (event_right : y.event? ≠ none)
      (next_left : x.next
        = a.reached t (skip front.length (enclosed body).length r + 1) k)
      (next_right : y.next = b.reached s (r + 1) k') (reads : s.ReadsAs t)
      (zero : r + 1 = front.length → t.cell = 0)
      (outside : Outside front body x) : InStep front body a b x y

namespace HasCommentLoop

variable {front body rest : List UInt8} {a b : Machine} {s t : Store} {q k k' : Nat} {c : UInt8}
  (h : HasCommentLoop front body rest a b)
include h

theorem size_left : a.program.size = b.program.size + (enclosed body).length := by
  rw [Program.size, Program.size, ← Array.length_toList, ← Array.length_toList, h.code_left,
    h.code_right, List.length_append, List.length_append, List.length_append]
  omega

theorem front_le : front.length ≤ b.program.size := by
  rw [Program.size, ← Array.length_toList, h.code_right, List.length_append]
  exact Nat.le_add_right _ _

/-- Every byte of the program without the loop stands in the other, moved on if it is behind it. -/
theorem code_at (q : Nat) : a.program.code.toList[skip front.length (enclosed body).length q]?
    = b.program.code.toList[q]? := by
  rw [h.code_left, h.code_right, getElem?_insert]

/-- So do its matched pairs. -/
theorem matched {i j : Nat} (hpair : Matched b.program.code.toList i j) :
    Matched a.program.code.toList (skip front.length (enclosed body).length i)
      (skip front.length (enclosed body).length j) := by
  rw [h.code_right] at hpair
  rw [h.code_left]
  exact hpair.insert h.balanced.enclose

/-- The loop itself. -/
theorem matched_loop : Matched a.program.code.toList front.length
    (front.length + 1 + body.length) := by
  rw [h.code_left]
  refine matched_iff_split.mpr ⟨front, body, rest, ?_, rfl, rfl, h.balanced⟩
  rw [enclosed, List.cons_append, List.append_assoc, List.singleton_append]

/-- The byte in front of the loop is a `]`. -/
theorem eq_close_of_last (hc : b.program.code.toList[q]? = some c) (hq : q + 1 = front.length) :
    c = closeByte := by
  rcases h.behind with rfl | ⟨init, rfl⟩
  · cases hq
  · have hlen : init.length = q := by
      rw [List.length_append, List.length_singleton] at hq
      omega
    rw [h.code_right, List.append_assoc, ← hlen, List.getElem?_append_right (Nat.le_refl _),
      Nat.sub_self] at hc
    exact (Option.some.inj hc).symm

/-- Where a machine has come to by the bytes of `b` it is not inside the body. -/
theorem outside_reached (hq : q ≤ b.program.size) :
    Outside front body (a.reached t (skip front.length (enclosed body).length q) k) := by
  have hsize := h.size_left
  have hlen := length_enclosed body
  rw [Outside, reached]
  by_cases hfront : q < front.length
  · rw [skip_of_lt hfront]
    refine Or.inl ?_
    split
    · show q - 1 ≤ front.length
      omega
    · exact Nat.le_of_lt hfront
  · rw [skip_of_le (Nat.not_lt.mp hfront)]
    refine Or.inr ?_
    split
    · show front.length + body.length < q + (enclosed body).length - 1
      omega
    · show front.length + body.length < q + (enclosed body).length
      omega

/-- A byte that both machines carry out. -/
theorem inStep_of_execute {s' t' : Store} {r : Nat} {written written' : Option Char}
    (hq : q < b.program.size) (hr : r < b.program.size)
    (hleft : (a.running t (skip front.length (enclosed body).length q) k).execute
        (a.program.instructionAt? (skip front.length (enclosed body).length q))
      = (.ok written, a.running t' (skip front.length (enclosed body).length r) k))
    (hright : (b.running s q k').execute (b.program.instructionAt? q)
      = (.ok written', b.running s' r k'))
    (reads : s'.ReadsAs t') (zero : r + 1 = front.length → t'.cell = 0) :
    InStep front body a b (a.reached t (skip front.length (enclosed body).length q) k)
      (b.reached s q k') := by
  have hq' : skip front.length (enclosed body).length q < a.program.size := by
    obtain ⟨c, hc⟩ : ∃ c, b.program.code.toList[q]? = some c := ⟨_, List.getElem?_eq_getElem hq⟩
    rw [← h.code_at] at hc
    exact (List.getElem?_eq_some_iff.mp hc).1
  refine .both hr ?_ ?_ (next_reached h.unlimited_left hq' hleft)
    (next_reached h.unlimited_right hq hright) reads zero (h.outside_reached (Nat.le_of_lt hq))
  · rw [event?_reached h.unlimited_left hq' hleft]
    exact Option.some_ne_none _
  · rw [event?_reached h.unlimited_right hq hright]
    exact Option.some_ne_none _

/-- At a bracket both machines make the same test.  It takes them behind a `]` only
    with zero in the cell. -/
theorem inStep_of_test {i j : Nat} (hpair : Matched b.program.code.toList i j)
    (hq : q = i ∨ q = j) (reads : s.ReadsAs t) :
    InStep front body a b (a.reached t (skip front.length (enclosed body).length q) k)
      (b.reached s q k') := by
  have hq' := hq.imp (congrArg (skip front.length (enclosed body).length))
    (congrArg (skip front.length (enclosed body).length))
  have hleft := execute_running_of_test t k (h.matched hpair) hq'
  rw [← reads.cell_eq, ← apply_ite (skip front.length (enclosed body).length)] at hleft
  refine h.inStep_of_execute (lt_size_of_test hpair hq) ?_ hleft
    (execute_running_of_test s k' hpair hq) reads.touch_left.touch_right ?_
  · split
    · exact lt_size_of_test hpair (Or.inr rfl)
    · exact lt_size_of_test hpair (Or.inl rfl)
  · intro hr
    have hcell : t.touch.cell = s.cell := reads.touch_right.cell_eq.symm
    rw [hcell]
    by_contra nonzero
    rw [if_neg nonzero] at hr
    have hopen := h.eq_close_of_last hpair.open_at hr
    exact absurd hopen (by decide)

/-- At the same place, with stores that read the same, the machines are in step. -/
theorem inStep_of_reads (hq : q ≤ b.program.size) (reads : s.ReadsAs t) (k k' : Nat) :
    InStep front body a b (a.reached t (skip front.length (enclosed body).length q) k)
      (b.reached s q k') := by
  rcases Nat.eq_or_lt_of_le hq with rfl | hlt
  · have hend : skip front.length (enclosed body).length b.program.size = a.program.size := by
      rw [skip_of_le h.front_le, h.size_left]
    have hout := h.outside_reached (t := t) (k := k) hq
    rw [hend] at hout ⊢
    have hleft : (a.reached t a.program.size k).Over
        (RunStatus.finished.relocate (skip front.length (enclosed body).length)) :=
      over_of_done done_reached_size
    have hright : (b.reached s b.program.size k').Over .finished :=
      over_of_done done_reached_size
    refine .over hleft hright ?_ hout
    rw [store_reached, store_reached]
    exact reads
  · obtain ⟨c, hc⟩ : ∃ c, b.program.code.toList[q]? = some c := ⟨_, List.getElem?_eq_getElem hlt⟩
    rcases plain_or_bracket c with rfl | rfl | plain
    · obtain ⟨j, hj⟩ := b.program.balanced.exists_matched_open hc
      exact h.inStep_of_test hj (Or.inl rfl) reads
    · obtain ⟨i, hi⟩ := b.program.balanced.exists_matched_close hc
      exact h.inStep_of_test hi (Or.inr rfl) reads
    · have hc' := hc
      rw [← h.code_at] at hc'
      have hact := t.act_relocate (skip front.length (enclosed body).length) a.state.mode q c
      rw [h.mode] at hact
      rcases reads.act b.state.mode q c with ⟨f, hs, ht⟩ | ⟨s', t', hs, ht, reads'⟩
      · rw [ht, ← h.mode] at hact
        have hleft : Over _ ((RunStatus.failed f).relocate _) := over_of_error
          (step_reached_of_act (k := k) h.unlimited_left hc' plain hact)
        have hright := over_of_error
          (step_reached_of_act (k := k') h.unlimited_right hc plain hs)
        refine .over hleft hright ?_ (h.outside_reached hq)
        rw [store_reached, store_reached]
        exact reads
      · rw [ht, ← h.mode] at hact
        obtain ⟨written, hleft⟩ := execute_running_of_act k hc' plain hact
        obtain ⟨written', hright⟩ := execute_running_of_act k' hc plain hs
        refine h.inStep_of_execute hlt hlt hleft hright reads' ?_
        intro hr
        exact absurd (h.eq_close_of_last hc hr) plain.2

/-! ## Coming to the loop -/

/-- The machines come to the same place.  If that is where the loop has been put in,
    its test takes the one of them behind it. -/
theorem exists_inStep (hq : q ≤ b.program.size) (reads : s.ReadsAs t)
    (zero : q = front.length → t.cell = 0) (k k' : Nat) :
    ∃ d, InStep front body a b
        (next^[d] (a.reached t (skip (front.length + 1) (enclosed body).length q) k))
        (b.reached s q k') ∧
      ∀ i, i < d → Outside front body
        (next^[i] (a.reached t (skip (front.length + 1) (enclosed body).length q) k)) := by
  by_cases hfront : q = front.length
  · have hlt : front.length < a.program.size := lt_size_of_test h.matched_loop (Or.inl rfl)
    have hnext := next_reached_of_zero (k := k) h.unlimited_left (zero hfront) h.matched_loop
      (Or.inl rfl)
    have hbehind : front.length + 1 + body.length + 1
        = skip front.length (enclosed body).length q := by
      rw [hfront, skip_of_le (Nat.le_refl _), length_enclosed]
      omega
    have hhere : skip (front.length + 1) (enclosed body).length q = front.length := by
      rw [hfront, skip_of_lt (Nat.lt_succ_self _)]
    rw [hhere]
    refine ⟨1, ?_, ?_⟩
    · rw [Function.iterate_one, hnext, hbehind]
      exact h.inStep_of_reads hq reads.touch_right _ _
    · intro i hi
      obtain rfl : i = 0 := by omega
      rw [Function.iterate_zero_apply, reached_of_lt hlt]
      exact Or.inl (Nat.le_refl _)
  · refine ⟨0, ?_, nofun⟩
    rw [skip_succ_of_ne hfront, Function.iterate_zero_apply]
    exact h.inStep_of_reads hq reads k k'

/-- Machines in step stay in step. -/
theorem simulates : Simulates (InStep front body a b) (Outside front body)
    (fun status s status' s' =>
      status = status'.relocate (skip front.length (enclosed body).length) ∧ s'.ReadsAs s) where
  step := by
    rintro x y (⟨left, right, reads, outside⟩ |
      ⟨inside, event_left, event_right, next_left, next_right, reads, zero, outside⟩)
    · refine ⟨1, Nat.one_pos, .over left.over_next right.over_next ?_ ?_, ?_⟩
      · rw [Function.iterate_one, left.store_next, right.store_next]
        exact reads
      · rw [Function.iterate_one, Outside, left.pc_next]
        exact outside
      · intro i hi
        obtain rfl : i = 0 := by omega
        exact outside
    · rename_i s t r k k'
      rw [← skip_succ] at next_left
      obtain ⟨d, hstep, hway⟩ := h.exists_inStep inside reads zero k k'
      refine ⟨d + 1, Nat.succ_pos d, ?_, ?_⟩
      · rw [Function.iterate_succ_apply, next_left, next_right]
        exact hstep
      · intro i hi
        cases i with
        | zero => exact outside
        | succ i =>
            rw [Function.iterate_succ_apply, next_left]
            exact hway i (Nat.lt_of_succ_lt_succ hi)
  meets := by
    rintro x y (⟨left, right, reads, outside⟩ |
      ⟨inside, event_left, event_right, next_left, next_right, reads, zero, outside⟩)
    · exact Or.inl ⟨_, _, left, right, rfl, reads⟩
    · exact Or.inr ⟨event_left, event_right⟩

end HasCommentLoop

/-! ## Whole runs -/

/-- The runs of two machines of which the first has a loop from `start` on, with
    `length` bytes in its body, that the second has not. -/
structure AlikeButLoop (start length : Nat) (a b : Machine) : Prop where
  /-- If the second finishes, so does the first, with a store that reads the same. -/
  finished : ∀ b', b.Ends .finished b' →
    ∃ a', a.Ends .finished a' ∧ b'.store.ReadsAs a'.store
  finished_back : ∀ a', a.Ends .finished a' →
    ∃ b', b.Ends .finished b' ∧ b'.store.ReadsAs a'.store
  /-- If the second fails, so does the first, with the same fault at the same byte. -/
  failed : ∀ f b', b.Ends (.failed f) b' →
    ∃ a', a.Ends (.failed (f.relocate (skip start (length + 2)))) a' ∧
      b'.store.ReadsAs a'.store
  failed_back : ∀ f' a', a.Ends (.failed f') a' →
    ∃ f b', b.Ends (.failed f) b' ∧ f' = f.relocate (skip start (length + 2)) ∧
      b'.store.ReadsAs a'.store
  forever : a.RunsForever ↔ b.RunsForever
  /-- The first is never at a byte of the body. -/
  skipped : ∀ n, (next^[n] a).state.pc ≤ start ∨ start + length < (next^[n] a).state.pc

theorem HasCommentLoop.alike {front body rest : List UInt8} {p w : Program} {settings : Settings}
    (h : HasCommentLoop front body rest (load w settings) (load p settings)) :
    AlikeButLoop front.length body.length (load w settings) (load p settings) := by
  have hstart := h.exists_inStep (Nat.zero_le _) (.refl {}) (fun _ => rfl) 0 0
  rw [skip_of_lt (Nat.succ_pos _), reached_load, reached_load] at hstart
  obtain ⟨d, hstep, hway⟩ := hstart
  have sim := h.simulates
  rw [length_enclosed] at sim
  refine ⟨?_, ?_, ?_, ?_, ?_, ?_⟩
  · intro b' hb
    obtain ⟨status, a', ha, rfl, reads⟩ := sim.exists_ends_left hstep hb
    exact ⟨a', ha, reads⟩
  · intro a' ha
    obtain ⟨status, b', hb, hstatus, reads⟩ := sim.exists_ends_right hstep ha
    rw [RunStatus.relocate_eq_finished_iff.mp hstatus] at hb
    exact ⟨b', hb, reads⟩
  · intro f b' hb
    obtain ⟨status, a', ha, rfl, reads⟩ := sim.exists_ends_left hstep hb
    exact ⟨a', ha, reads⟩
  · intro f' a' ha
    obtain ⟨status, b', hb, hstatus, reads⟩ := sim.exists_ends_right hstep ha
    obtain ⟨f, rfl, rfl⟩ := RunStatus.relocate_eq_failed_iff.mp hstatus
    exact ⟨f, b', hb, rfl, reads⟩
  · exact sim.runsForever_iff hstep
  · exact sim.forall_iterate hstep hway

end Machine

/-! ## Texts -/

theorem length_toUTF8 (s : String) : s.toUTF8.data.toList.length = s.utf8ByteSize :=
  Array.length_toList

/-- A text in brackets. -/
theorem toUTF8_enclosed (s : String) :
    ("[" ++ s ++ "]").toUTF8.data.toList = enclosed s.toUTF8.data.toList := by
  rw [toUTF8_append, toUTF8_append, Array.toList_append, Array.toList_append, enclosed]
  rfl

/-- **Comment loops are dead code.**  A loop is put into an accepted text, at its
    beginning or right behind a `]`, around any body that is accepted by itself.
    Then the text with the loop is accepted.  In either cell mode, with either way
    of matching and without a step limit, its run is that of the text without the
    loop: it ends in the same way, with the same fault but for its position, and
    leaves the same data pointers, the same output and the same value in every
    cell, or runs forever if that does; and it never comes to the body. -/
theorem comment_loop_is_dead_code {a b x : String} {p q : Program}
    (accepts : Program.ofText? (a ++ b) = .ok p) (accepts_body : Program.ofText? x = .ok q)
    (behind : a = "" ∨ ∃ front, a = front ++ "]") :
    ∃ w, Program.ofText? (a ++ ("[" ++ x ++ "]") ++ b) = .ok w ∧ ∀ mode matching,
      Machine.AlikeButLoop a.utf8ByteSize x.utf8ByteSize
        (Machine.loadUnlimited w mode matching) (Machine.loadUnlimited p mode matching) := by
  have hp : p.code.toList = a.toUTF8.data.toList ++ b.toUTF8.data.toList := by
    rw [Program.ofText?_eq_ok_iff.mp accepts, toUTF8_append, Array.toList_append]
  have hx : Balanced x.toUTF8.data.toList := by
    rw [← Program.ofText?_eq_ok_iff.mp accepts_body]
    exact q.balanced
  have hw : (a ++ ("[" ++ x ++ "]") ++ b).toUTF8.data.toList
      = a.toUTF8.data.toList ++ (enclosed x.toUTF8.data.toList ++ b.toUTF8.data.toList) := by
    rw [toUTF8_append, toUTF8_append, Array.toList_append, Array.toList_append, toUTF8_enclosed,
      List.append_assoc]
  have hbalanced : Balanced (a ++ ("[" ++ x ++ "]") ++ b).toUTF8.data.toList := by
    rw [hw]
    refine (balanced_insert hx.enclose _ _).mpr ?_
    rw [← hp]
    exact p.balanced
  obtain ⟨table, htable⟩ := Table.build_of_balanced hbalanced
  refine ⟨⟨_, table, htable⟩, Program.ofText?_eq_ok_iff.mpr rfl, ?_⟩
  intro mode matching
  have hbehind : a.toUTF8.data.toList = [] ∨
      ∃ init, a.toUTF8.data.toList = init ++ [closeByte] := by
    rcases behind with rfl | ⟨front, rfl⟩
    · exact Or.inl rfl
    · refine Or.inr ⟨front.toUTF8.data.toList, ?_⟩
      rw [toUTF8_append, Array.toList_append]
      rfl
  have h : Machine.HasCommentLoop a.toUTF8.data.toList x.toUTF8.data.toList b.toUTF8.data.toList
      (Machine.loadUnlimited ⟨_, table, htable⟩ mode matching)
      (Machine.loadUnlimited p mode matching) :=
    ⟨hw, hp, hx, hbehind, rfl, rfl, rfl⟩
  rw [← length_toUTF8 a, ← length_toUTF8 x]
  exact h.alike

/-- In `+[[-][,<.]]<` the loop `[,<.]` is met once, inside another loop.  The last
    byte fails at position 11, and at position 6 if the loop is not there. -/
theorem comment_loop_is_dead_code_inside_a_loop :
    let p : Program := ⟨#[0x2B, 0x5B, 0x5B, 0x2D, 0x5D, 0x5D, 0x3C],
      (Table.empty.addPair 2 4).addPair 1 5, rfl⟩
    let q : Program := ⟨#[0x2C, 0x3C, 0x2E], Table.empty, rfl⟩
    Program.ofText? ("+[[-]" ++ "]<") = .ok p ∧ Program.ofText? ",<." = .ok q ∧
      ("+[[-]" = "" ∨ ∃ front, "+[[-]" = front ++ "]") ∧
      ∃ w, Program.ofText? ("+[[-]" ++ ("[" ++ ",<." ++ "]") ++ "]<") = .ok w ∧
        ∃ m, (Machine.loadUnlimited w .byte .scan).Ends
          (.failed (.dataPointerUnderflow 11)) m := by
  intro p q
  have accepts : Program.ofText? ("+[[-]" ++ "]<") = .ok p :=
    Program.ofText?_eq_ok_iff.mpr rfl
  have accepts_body : Program.ofText? ",<." = .ok q := Program.ofText?_eq_ok_iff.mpr rfl
  have behind : "+[[-]" = "" ∨ ∃ front, "+[[-]" = front ++ "]" := Or.inr ⟨"+[[-", rfl⟩
  have hfault : (Machine.next^[6] (Machine.loadUnlimited p .byte .scan)).step.1
      = .error (.dataPointerUnderflow 6) := by decide +kernel
  obtain ⟨w, hw, halike⟩ := comment_loop_is_dead_code accepts accepts_body behind
  obtain ⟨m, hends, -⟩ := (halike .byte .scan).failed _ _ (Machine.ends_of_error hfault)
  exact ⟨accepts, accepts_body, behind, w, hw, m, hends⟩

end TapeMachine
