import TapeMachine.Proofs.Bracket.Stripped
import TapeMachine.Proofs.Machine.Relocation
import TapeMachine.Proofs.Structured.Refinement

/-! # One program behind the other

    Two texts that are accepted make one text that is accepted, and the run of
    that is the run of the first followed by a run of the second.  Each text
    stands in the whole (`Program.standsIn_append_left`,
    `Program.standsIn_append_right`), so the whole steps as the first does as
    long as that has not halted (`FollowedBy.iterate_eq`).  The step that halts
    the first one takes the whole to the beginning of the second
    (`FollowedBy.iterate_succ_eq`), whether it comes to the last byte from the
    byte in front of it or by a jump.  From there on the whole steps as the second
    does, to its end (`FollowedBy.behind`).

    No jump leads out of a text: control stays inside (`InControl`). -/

namespace TapeMachine

open TapeMachine.Bracket

/-! ## Texts -/

/-- The bytes of a text are those of its parts. -/
theorem toUTF8_append (s t : String) : (s ++ t).toUTF8.data = s.toUTF8.data ++ t.toUTF8.data := by
  rw [String.toUTF8, String.toUTF8, String.toUTF8, String.toByteArray_append,
    ByteArray.data_append]

namespace Program

variable {p q w : Program}

/-- Two programs, one behind the other, are a program. -/
theorem exists_append (p q : Program) : ∃ w : Program, w.code = p.code ++ q.code := by
  have hbalanced : Balanced (p.code ++ q.code).toList := by
    rw [Array.toList_append]
    exact p.balanced.append q.balanced
  obtain ⟨table, htable⟩ := Table.build_of_balanced hbalanced
  exact ⟨⟨_, table, htable⟩, rfl⟩

theorem size_append (h : w.code = p.code ++ q.code) : w.size = p.size + q.size := by
  rw [size, h, Array.size_append]
  rfl

theorem standsIn_append_left (h : w.code = p.code ++ q.code) : p.StandsIn w 0 :=
  ⟨[], q.code.toList, by rw [h, Array.toList_append]; rfl, rfl⟩

theorem standsIn_append_right (h : w.code = p.code ++ q.code) : q.StandsIn w p.size :=
  ⟨p.code.toList, [], by rw [h, Array.toList_append, List.append_nil], Array.length_toList⟩

/-- A text that is accepted makes no empty program unless it is empty itself. -/
theorem size_pos_of_ofText? {text : String} (h : ofText? text = .ok p) (hne : text ≠ "") :
    0 < p.size := by
  rw [size, ofText?_eq_ok_iff.mp h]
  exact Nat.pos_of_ne_zero fun h0 => hne (String.utf8ByteSize_eq_zero_iff.mp h0)

/-- Two accepted texts make an accepted text. -/
theorem exists_ofText?_append {s t : String} (hp : ofText? s = .ok p) (hq : ofText? t = .ok q) :
    ∃ w, ofText? (s ++ t) = .ok w ∧ w.code = p.code ++ q.code := by
  obtain ⟨w, hw⟩ := exists_append p q
  refine ⟨w, ofText?_eq_ok_iff.mpr ?_, hw⟩
  rw [hw, ofText?_eq_ok_iff.mp hp, ofText?_eq_ok_iff.mp hq, toUTF8_append]

end Program

namespace Machine

/-! ## Two runs in sequence -/

/-- The program `w` is that of the machine `first` with `q` behind it, and there is
    at least one byte in `q`. -/
structure FollowedBy (first : Machine) (q w : Program) : Prop where
  code : w.code = first.program.code ++ q.code
  more : 0 < q.size
  unlimited : first.stepLimit = none
  in_control : first.InControl

/-- A machine about to run `q` where the machine `m` has left off. -/
def handOver (m : Machine) (q : Program) : Machine :=
  { m with
    program := q
    state := { m.state with pc := 0 }
    steps := 0
    halted := false }

/-- A machine that is handed a program with a byte in it has control inside of it. -/
theorem inControl_handOver (m : Machine) {q : Program} (h : 0 < q.size) :
    (m.handOver q).InControl where
  inside := h
  behind := by
    intro _ pos hpc
    cases hpc
  at_last := nofun

/-- The run of `whole` is the run of `first` and, behind it, a run of `q`. -/
structure InSequence (q : Program) (first whole : Machine) : Prop where
  /-- Until the first machine halts, the other is the same but for its program. -/
  same : ∀ n, (next^[n] first).halted = false →
    next^[n] whole = { next^[n] first with program := whole.program }
  /-- Until then each step answers the same, but that the whole is to go on
      where the first machine halts. -/
  answers : ∀ n, (next^[n] first).halted = false →
    (next^[n] whole).step.1 = (next^[n] first).step.1.map Signal.resumed
  /-- If the first machine fails, the whole fails with the same fault in the same place. -/
  fails : ∀ f m, first.Ends (.failed f) m →
    whole.Ends (.failed f) { m with program := whole.program }
  /-- If the first machine runs forever, the whole does, and is always the same. -/
  forever : first.RunsForever →
    whole.RunsForever ∧ ∀ n, next^[n] whole = { next^[n] first with program := whole.program }
  /-- If the first machine finishes, the whole has come, after as many steps, to
      the byte behind its program, and has not halted. -/
  goes_on : ∀ m, first.Ends .finished m →
    next^[m.steps] first = m ∧
    next^[m.steps] whole = { m with
      program := whole.program
      state := { m.state with pc := first.program.size }
      halted := false }
  /-- From there on each step answers as `q` does on what the first has left, and
      leaves the same machine, with positions moved on and steps added up. -/
  behind : ∀ m, first.Ends .finished m → ∀ k,
    (next^[m.steps + k] whole).step.1 = (next^[k] (m.handOver q)).step.1.mapError
      (Fault.relocate (· + first.program.size)) ∧
    next^[m.steps + k] whole
      = (next^[k] (m.handOver q)).placed whole.program first.program.size m.steps

namespace FollowedBy

variable {first m : Machine} {q w : Program} (h : first.FollowedBy q w)
include h

/-- Whatever the first machine comes to can be followed as well. -/
theorem iterated (n : Nat) : (next^[n] first).FollowedBy q w where
  code := by
    rw [iterate_program]
    exact h.code
  more := h.more
  unlimited := (iterate_stepLimit first n).trans h.unlimited
  in_control := h.in_control.iterate n

/-! ## Until the first machine halts -/

/-- The whole steps as the first machine does, but goes on where that halts. -/
theorem step_eq (hh : first.halted = false) :
    ({ first with program := w } : Machine).step = (first.step.1.map Signal.resumed,
      ({ first.next with program := w } : Machine).resumed) := by
  have hmore : first.program.size + 0 < w.size := by
    have := Program.size_append h.code
    have := h.more
    omega
  have hstep := step_placed_of_more (Program.standsIn_append_left h.code) hmore h.unlimited hh
    h.in_control.inside 0
  -- in front of the first text there is nothing that moves positions
  have hanswer : ∀ answer : Except Fault Signal,
      answer.mapError (Fault.relocate (· + 0)) = answer := by
    intro answer
    cases answer with
    | ok signal => rfl
    | error f => exact congrArg Except.error f.relocate_id
  rw [hanswer] at hstep
  exact hstep

theorem next_eq (hh : first.halted = false) :
    ({ first with program := w } : Machine).next
      = ({ first.next with program := w } : Machine).resumed := by
  rw [next, h.step_eq hh]

/-- Until the first machine halts, the whole is that machine with the longer program. -/
theorem iterate_eq {n : Nat} (hn : (next^[n] first).halted = false) :
    next^[n] { first with program := w } = { next^[n] first with program := w } := by
  induction n with
  | zero => rfl
  | succ n ih =>
      rw [Function.iterate_succ_apply'] at hn
      have hrunning := running_of_next hn
      rw [Function.iterate_succ_apply', Function.iterate_succ_apply', ih hrunning,
        (h.iterated n).next_eq hrunning]
      exact resumed_of_running hn

/-- Until then it answers alike, but goes on where the first halts. -/
theorem answers_eq {n : Nat} (hn : (next^[n] first).halted = false) :
    (next^[n] { first with program := w }).step.1
      = (next^[n] first).step.1.map Signal.resumed := by
  rw [h.iterate_eq hn, (h.iterated n).step_eq hn]

/-- Where the run of the first fails, the run of the whole fails alike. -/
theorem fails {f : Fault} (hends : first.Ends (.failed f) m) :
    Ends { first with program := w } (.failed f) { m with program := w } := by
  obtain ⟨k, hend, rfl⟩ := ends_iff.mp hends
  have herror := endOf_eq_failed_iff.mp hend
  have hrunning := (step_error_iff.mp herror).1
  have hstays : next^[k + 1] first = next^[k] first := by
    rw [Function.iterate_succ_apply', next, step_eq_of_error herror]
  rw [hstays, ← h.iterate_eq hrunning]
  refine ends_of_error ?_
  rw [h.answers_eq hrunning, herror]
  rfl

/-- If the run of the first never ends, neither does that of the whole, and it stays the same. -/
theorem runs_forever (hforever : first.RunsForever) :
    RunsForever { first with program := w } ∧
      ∀ n, next^[n] { first with program := w } = { next^[n] first with program := w } := by
  rw [runsForever_iff] at hforever ⊢
  refine ⟨?_, fun n => h.iterate_eq (running_of_endOf (hforever n))⟩
  intro n
  rw [h.answers_eq (running_of_endOf (hforever n)), Signal.map_resumed (hforever n)]
  exact hforever n

/-! ## From then on -/

/-- The step that halts the first machine takes the whole to the byte behind its program. -/
theorem iterate_succ_eq {n : Nat} (hn : (next^[n] first).halted = false)
    (hlast : (next^[n + 1] first).halted = true) :
    next^[n + 1] { first with program := w } = { next^[n + 1] first with
      program := w
      state := { (next^[n + 1] first).state with pc := first.program.size }
      halted := false } := by
  have hpc := ((h.iterated (n + 1)).in_control.at_last hlast).1
  rw [iterate_program] at hpc
  have hwhole : next^[n + 1] { first with program := w }
      = ({ next^[n + 1] first with program := w } : Machine).resumed := by
    rw [Function.iterate_succ_apply', Function.iterate_succ_apply', h.iterate_eq hn,
      (h.iterated n).next_eq hn]
  rw [hwhole, ← hpc]
  exact resumed_of_halted hlast

section Fresh

variable (hh : first.halted = false) (h0 : first.steps = 0) (hends : first.Ends .finished m)
include hh h0 hends

/-- Where the run of the first finishes, the whole stands behind its text, with all it has left. -/
theorem goes_on : next^[m.steps] first = m ∧
    next^[m.steps] { first with program := w } = { m with
      program := w
      state := { m.state with pc := first.program.size }
      halted := false } := by
  have hsize : 0 < first.program.size := Nat.zero_lt_of_lt h.in_control.inside
  obtain ⟨n, hn, hm, hlast, hsteps⟩ := hends.exists_last_step hh hsize
  have hcount : n + 1 = m.steps := by omega
  rw [← hm] at hlast
  have hwhole := h.iterate_succ_eq hn hlast
  rw [hm, hcount] at hwhole
  rw [hcount] at hm
  exact ⟨hm, hwhole⟩

/-- From there on the whole runs as the second program does, further on in the text. -/
theorem behind (k : Nat) :
    (next^[m.steps + k] { first with program := w }).step.1
        = (next^[k] (m.handOver q)).step.1.mapError (Fault.relocate (· + first.program.size)) ∧
      next^[m.steps + k] { first with program := w }
        = (next^[k] (m.handOver q)).placed w first.program.size m.steps := by
  obtain ⟨hm, hwhole⟩ := h.goes_on hh h0 hends
  have hstart : next^[m.steps] { first with program := w }
      = (m.handOver q).placed w first.program.size m.steps := by
    rw [hwhole]
    simp only [handOver, placed, State.shift, Nat.zero_add]
  have hq : (m.handOver q).program.StandsIn w first.program.size :=
    Program.standsIn_append_right h.code
  have hsize : (m.handOver q).program.size + first.program.size = w.size := by
    rw [Program.size_append h.code, Nat.add_comm]
    rfl
  have hlimit : (m.handOver q).stepLimit = none := by
    show m.stepLimit = none
    rw [← hm, iterate_stepLimit, h.unlimited]
  have hcontrol := inControl_handOver m h.more
  have hiterate := iterate_placed_of_end hq hsize hlimit hcontrol m.steps k
  rw [Nat.add_comm, Function.iterate_add_apply, hstart, hiterate,
    step_iterate_placed_of_end hq hsize hlimit hcontrol]
  exact ⟨rfl, rfl⟩

end Fresh

end FollowedBy

/-- **Sequential composition.**  Of two accepted texts that are not empty each,
    the one followed by the other is accepted.  In either cell mode, with either
    way of matching and without a step limit, a fresh run of the whole is a fresh
    run of the first followed by a run of the second. -/
theorem composition_runs_in_sequence {s t : String} {p q : Program}
    (accepts_first : Program.ofText? s = .ok p) (accepts_second : Program.ofText? t = .ok q)
    (nonempty_first : s ≠ "") (nonempty_second : t ≠ "") :
    ∃ w, Program.ofText? (s ++ t) = .ok w ∧ ∀ mode matching,
      InSequence q (loadUnlimited p mode matching) (loadUnlimited w mode matching) := by
  obtain ⟨w, hw, hcode⟩ := Program.exists_ofText?_append accepts_first accepts_second
  refine ⟨w, hw, ?_⟩
  intro mode matching
  have h : (loadUnlimited p mode matching).FollowedBy q w :=
    ⟨hcode, Program.size_pos_of_ofText? accepts_second nonempty_second, rfl,
      inControl_load _ (Program.size_pos_of_ofText? accepts_first nonempty_first)⟩
  exact {
    same := fun _ hn => h.iterate_eq hn
    answers := fun _ hn => h.answers_eq hn
    fails := fun _ _ hends => h.fails hends
    forever := h.runs_forever
    goes_on := fun _ hends => h.goes_on rfl rfl hends
    behind := fun _ hends => h.behind rfl rfl hends }

/-- `[-]` halts by a jump to its last byte; `+<` fails at its position 1, which is
    position 4 of `[-]+<`. -/
theorem composition_runs_in_sequence_behind_jump :
    let p : Program := ⟨#[0x5B, 0x2D, 0x5D], Table.empty.addPair 0 2, rfl⟩
    let q : Program := ⟨#[0x2B, 0x3C], Table.empty, rfl⟩
    Program.ofText? "[-]" = .ok p ∧ Program.ofText? "+<" = .ok q ∧
      "[-]" ≠ "" ∧ "+<" ≠ "" ∧
      (loadUnlimited p .byte .scan).Ends .finished (next^[1] (loadUnlimited p .byte .scan)) ∧
      ∃ w, Program.ofText? ("[-]" ++ "+<") = .ok w ∧
        (next^[2] (loadUnlimited w .byte .scan)).step.1 = .error (.dataPointerUnderflow 4) := by
  intro p q
  have accepts_first : Program.ofText? "[-]" = .ok p := Program.ofText?_eq_ok_iff.mpr rfl
  have accepts_second : Program.ofText? "+<" = .ok q := Program.ofText?_eq_ok_iff.mpr rfl
  have nonempty_first : "[-]" ≠ "" := by decide
  have nonempty_second : "+<" ≠ "" := by decide
  have hhalt : (loadUnlimited p .byte .scan).step.1 = .ok .halt := by decide +kernel
  have hends : (loadUnlimited p .byte .scan).Ends .finished
      (next^[1] (loadUnlimited p .byte .scan)) := ends_of_halt (n := 0) hhalt
  have hsteps : (next^[1] (loadUnlimited p .byte .scan)).steps = 1 := by decide +kernel
  have hfault : (next^[1] ((next^[1] (loadUnlimited p .byte .scan)).handOver q)).step.1
      = .error (.dataPointerUnderflow 1) := by decide +kernel
  obtain ⟨w, hw, hrun⟩ := composition_runs_in_sequence accepts_first accepts_second
    nonempty_first nonempty_second
  refine ⟨accepts_first, accepts_second, nonempty_first, nonempty_second, hends, w, hw, ?_⟩
  have hbehind := ((hrun .byte .scan).behind _ hends 1).1
  rw [hsteps, hfault] at hbehind
  exact hbehind

end Machine

end TapeMachine
