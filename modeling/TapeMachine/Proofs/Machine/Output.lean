import TapeMachine.Proofs.Machine.Rest

/-! # Output, and what is left of a machine that has finished

    A step reports each character it writes, so the output of a machine is what
    it was before and behind it the characters reported (`output_iterate`).
    Steps taken by hand are steps of the run: however many have been taken, the
    run goes on to the same end (`ends_iterate_iff`).

    A machine that has halted stays halted, whatever is done to its state and to
    its program (`Operates.of_halted`), and so nothing is carried out any more. -/

namespace TapeMachine

/-! ## The characters written -/

namespace Machine

/-- The character that a step reports. -/
def written? : Except Fault Signal → Option Char
  | .ok (.wrote c) => some c
  | _ => none

/-- What the next `n` steps answer, in order. -/
def answers : (n : Nat) → Machine → List (Except Fault Signal)
  | 0, _ => []
  | n + 1, m => m.step.1 :: answers n m.next

theorem written?_advance (m : Machine) (written : Option Char) :
    written? (.ok (m.advance written).1) = written := by
  rw [advance_signal]
  cases written with
  | some c => rfl
  | none =>
      dsimp only [Option.elim_none]
      split
      · rfl
      · rfl

/-- A step adds to the output what it reports, and nothing else. -/
theorem output_next (m : Machine) :
    m.next.state.output.toList = m.state.output.toList ++ (written? m.step.1).toList := by
  rw [next]
  rcases m.step_cases with ⟨-, hs⟩ | ⟨f, hs⟩ | ⟨written, s, far, -, heffect, hs⟩
  · rw [hs]
    exact (List.append_nil _).symm
  · rw [hs]
    exact (List.append_nil _).symm
  · rw [hs]
    dsimp only
    rw [advance_output, written?_advance]
    exact heffect.output_eq

/-- The output grows by the characters that the steps report. -/
theorem output_iterate (m : Machine) (n : Nat) :
    (next^[n] m).state.output.toList
      = m.state.output.toList ++ (m.answers n).filterMap written? := by
  induction n generalizing m with
  | zero => exact (List.append_nil _).symm
  | succ n ih =>
      rw [Function.iterate_succ_apply, ih, output_next, List.append_assoc, answers]
      congr 1
      cases hw : written? m.step.1 with
      | none => rw [List.filterMap_cons_none hw, Option.toList_none, List.nil_append]
      | some c => rw [List.filterMap_cons_some hw, Option.toList_some, List.singleton_append]

/-! ## Steps taken by hand -/

variable {m m' : Machine} {status : RunStatus}

/-- The run of a machine ends as that of the machine a step later. -/
theorem ends_next_iff : m.next.Ends status m' ↔ m.Ends status m' := by
  refine ⟨.of_next, ?_⟩
  intro h
  obtain ⟨k, hend, rfl⟩ := ends_iff.mp h
  cases k with
  | zero =>
      -- the run is over with the step taken, and the next one says the same
      have hrest := atRest_next hend
      exact ends_iff.mpr ⟨0, hrest.ends, hrest.stays.symm⟩
  | succ k => exact ends_iff.mpr ⟨k, hend, rfl⟩

/-- Steps taken by hand do not change where the run ends. -/
theorem ends_iterate_iff (n : Nat) : (next^[n] m).Ends status m' ↔ m.Ends status m' := by
  induction n with
  | zero => exact Iff.rfl
  | succ n ih => rw [Function.iterate_succ_apply', ends_next_iff, ih]

end Machine

/-! ## What is done to a machine from outside -/

/-- The operations on the state that do not concern the output. -/
def State.Command.SparesOutput : State.Command → Prop
  | .writeCell | .setOutput _ | .restart => False
  | _ => True

/-- The operations that do not concern the output leave it as it is. -/
theorem State.perform_output {command : State.Command} (s : State)
    (h : command.SparesOutput) : (s.perform command).2.output = s.output := by
  cases command with
  | writeCell => exact h.elim
  | setOutput text => exact h.elim
  | restart => exact h.elim
  | moveLeft =>
      rw [State.perform, State.moveLeft]
      cases s.dataPtr with
      | zero => rfl
      | succ ptr => rfl
  | readCell => rfl
  | setCell v => rfl
  | addCell delta => rfl
  | moveRight => rfl
  | access a => rfl
  | setPc pc => rfl
  | setDataPtr ptr => rfl
  | setMode mode => rfl
  | clearTape => rfl

namespace Machine

/-- The operations on a machine that write nothing to the output by hand: all
    but three of those on the state. -/
def Operation.SparesOutput : Operation → Prop
  | .command (.state c) => c.SparesOutput
  | _ => True

/-- `left` has halted, and nothing has been carried out since it was `m`. -/
structure IdleSince (m left : Machine) : Prop where
  halted : left.halted = true
  steps_eq : left.steps = m.steps
  maxDataPtr_eq : left.maxDataPtr = m.maxDataPtr

variable {m m' : Machine}

/-- No operation carries out anything on a machine that has halted. -/
theorem Operates.of_halted {o : Operation} {reply : Reply} (h : m.Operates o reply m')
    (hm : m.halted = true) :
    m.IdleSince m' ∧ (o.SparesOutput → m'.state.output = m.state.output) := by
  have hself : m.IdleSince m := ⟨hm, rfl, rfl⟩
  have hrest := atRest_of_halted hm
  cases h with
  | run ends =>
      obtain ⟨-, rfl⟩ := hrest.ends_iff_eq.mp ends
      exact ⟨hself, fun _ => rfl⟩
  | command c =>
      cases c with
      | state command => exact ⟨⟨hm, rfl, rfl⟩, State.perform_output m.state⟩
      | step =>
          rw [hrest.perform_step]
          exact ⟨hself, fun _ => rfl⟩
      | runFor n =>
          rw [perform]
          dsimp only
          rw [runFor_snd, hrest.iterate_eq]
          exact ⟨hself, fun _ => rfl⟩
      | replaceProgram text =>
          rw [perform]
          cases Program.ofText? text with
          | error f => exact ⟨hself, fun _ => rfl⟩
          | ok program => exact ⟨⟨hm, rfl, rfl⟩, fun _ => rfl⟩

/-- A machine that has been idle twice in a row has been idle all along. -/
theorem IdleSince.trans {m₁ m₂ m₃ : Machine} (h₁ : m₁.IdleSince m₂) (h₂ : m₂.IdleSince m₃) :
    m₁.IdleSince m₃ where
  halted := h₂.halted
  steps_eq := h₂.steps_eq.trans h₁.steps_eq
  maxDataPtr_eq := h₂.maxDataPtr_eq.trans h₁.maxDataPtr_eq

/-- A machine that has halted is idle through any session, and if no operation writes to the
    output by hand, the output stays. -/
theorem Session.of_halted {operations : List Operation} {log : List (Reply × Machine)}
    (h : m.Session operations log) (hm : m.halted = true) :
    ∀ entry ∈ log, m.IdleSince entry.2 ∧
      ((∀ o ∈ operations, o.SparesOutput) → entry.2.state.output = m.state.output) := by
  induction h with
  | nil =>
      intro entry hentry
      exact absurd hentry List.not_mem_nil
  | @cons m m₁ operation reply rest log first others ih =>
      obtain ⟨hidle, hout⟩ := first.of_halted hm
      intro entry hentry
      rcases List.mem_cons.mp hentry with rfl | hentry
      · refine ⟨hidle, ?_⟩
        intro ho
        exact hout (ho operation List.mem_cons_self)
      · obtain ⟨hidle', hout'⟩ := ih hidle.halted entry hentry
        refine ⟨hidle.trans hidle', ?_⟩
        intro ho
        have hrest := hout' (fun o h => ho o (List.mem_cons_of_mem operation h))
        exact hrest.trans (hout (ho operation List.mem_cons_self))

/-- A run that finishes leaves a halted machine. -/
theorem Ends.halted (h : m.Ends .finished m') : m'.halted = true := by
  obtain ⟨k, hend, rfl⟩ := ends_iff.mp h
  rw [Function.iterate_succ_apply']
  exact halted_of_step_halt (endOf_eq_finished_iff.mp hend)

/-- **Stepping and running are one.**  After any number of steps the output is
    what it was, followed by the characters that these steps have reported, in
    order.  However many steps are taken by hand, a run from there ends as the
    run would have ended without them.  When a run has finished, further steps
    and runs find the machine at its end and change nothing; and whatever is
    done to its state and its program then, nothing is ever carried out on it
    again.  Its output stays as it is unless it is written to from outside. -/
theorem stepping_and_running_agree (m : Machine) :
    (∀ n, (next^[n] m).state.output
      = m.state.output ++ String.ofList ((m.answers n).filterMap written?)) ∧
    (∀ n status m', (next^[n] m).Ends status m' ↔ m.Ends status m') ∧
    (∀ m', m.Ends .finished m' → m'.StandsStill .finished ∧
      ∀ operations log, m'.Session operations log → ∀ entry ∈ log,
        m'.IdleSince entry.2 ∧ entry.2.StandsStill .finished ∧
        ((∀ o ∈ operations, o.SparesOutput) → entry.2.state.output = m'.state.output)) := by
  refine ⟨?_, ?_, ?_⟩
  · intro n
    refine String.toList_inj.mp ?_
    rw [output_iterate, String.toList_append, String.toList_ofList]
  · intro n status m'
    exact ends_iterate_iff n
  · intro m' hends
    refine ⟨hends.atRest.standsStill, ?_⟩
    intro operations log hlog entry hentry
    obtain ⟨hidle, hout⟩ := hlog.of_halted hends.halted entry hentry
    exact ⟨hidle, (atRest_of_halted hidle.halted).standsStill, hout⟩

end Machine

end TapeMachine
