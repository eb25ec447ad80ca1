import TapeMachine.Proofs.Machine.Strategies

/-! # Machines that have come to rest

    A machine is AT REST if its next step ends the run and leaves it as it is.
    That is so of a machine whose step fails, of one that has halted, and of
    whatever a run leaves that has ended (`atRest_of_error`, `atRest_of_halted`,
    `Ends.atRest`).  A machine at rest cannot be moved by driving it on: steps
    and runs, in any order and number, are all answered by the same end and
    change nothing (`AtRest.standsStill`). -/

namespace TapeMachine.Machine

/-! ## Driving a machine on -/

/-- The operations that carry a program on: to step, and to run to the end. -/
inductive Operation.Drives : Operation → Prop where
  | step : Drives (.command .step)
  | run : Drives .run

/-- What a step answers at the end of a run. -/
def stepReply : RunStatus → Reply
  | .failed f => .fault f
  | _ => .signal .halt

/-- What a driving operation answers at the end of a run. -/
def Operation.ending (status : RunStatus) : Operation → Reply
  | .run => .run status
  | .command _ => stepReply status

/-- Driven on in any way, the machine answers with `status` and stays as it is. -/
def StandsStill (m : Machine) (status : RunStatus) : Prop :=
  ∀ operations : List Operation, (∀ o ∈ operations, o.Drives) → ∀ log,
    m.Session operations log ↔ log = operations.map fun o => (o.ending status, m)

/-- The next step of the machine ends its run and leaves it as it is. -/
structure AtRest (m : Machine) (status : RunStatus) : Prop where
  ends : endOf m.step.1 = some status
  stays : m.next = m

variable {m m' : Machine} {status : RunStatus}

/-- A machine whose step fails is at rest: a step that fails changes nothing. -/
theorem atRest_of_error {f : Fault} (h : m.step.1 = .error f) : m.AtRest (.failed f) where
  ends := by rw [h, endOf]
  stays := by rw [next, step_eq_of_error h]

theorem atRest_of_halted (h : m.halted = true) : m.AtRest .finished where
  ends := by rw [step_of_halted h, endOf]
  stays := by rw [next, step_of_halted h]

/-- The step that ends a run leaves a machine at rest. -/
theorem atRest_next (h : endOf m.step.1 = some status) : m.next.AtRest status where
  ends := by rw [step_next_of_end h, h]
  stays := by
    show m.next.step.2 = m.next
    rw [step_next_of_end h]

/-- What a run leaves that has ended is at rest. -/
theorem Ends.atRest (h : m.Ends status m') : m'.AtRest status := by
  obtain ⟨k, hend, rfl⟩ := ends_iff.mp h
  rw [Function.iterate_succ_apply']
  exact atRest_next hend

namespace AtRest

/-- At rest, a run is over at once. -/
theorem ends_self (h : m.AtRest status) : m.Ends status m :=
  ends_iff.mpr ⟨0, h.ends, h.stays.symm⟩

/-- There is no other end of its run. -/
theorem ends_iff_eq {status' : RunStatus} (h : m.AtRest status) :
    m.Ends status' m' ↔ status' = status ∧ m' = m := by
  constructor
  · intro h'
    exact h'.unique h.ends_self
  · rintro ⟨rfl, rfl⟩
    exact h.ends_self

/-- No number of steps changes it. -/
theorem iterate_eq (h : m.AtRest status) (n : Nat) : next^[n] m = m :=
  Function.IsFixedPt.iterate h.stays n

/-- A step is answered with the end of the run. -/
theorem perform_step (h : m.AtRest status) : m.perform .step = (stepReply status, m) := by
  have hm : m.step.2 = m := h.stays
  have he := h.ends
  rw [perform]
  cases hs : m.step with
  | mk answer m₁ =>
      rw [hs] at hm he
      obtain rfl : m₁ = m := hm
      cases answer with
      | error f =>
          obtain rfl : RunStatus.failed f = status := Option.some.inj he
          rfl
      | ok signal =>
          cases signal with
          | halt =>
              obtain rfl : RunStatus.finished = status := Option.some.inj he
              rfl
          | proceed => cases he
          | wrote c => cases he

/-- Driven on in any way, it answers with the end of the run and stays as it is. -/
theorem operates_iff {o : Operation} {reply : Reply} (h : m.AtRest status) (ho : o.Drives) :
    m.Operates o reply m' ↔ reply = o.ending status ∧ m' = m := by
  have hself : m.Operates o (o.ending status) m := by
    cases ho with
    | step =>
        have hstep := Operates.command (m := m) .step
        rw [h.perform_step] at hstep
        exact hstep
    | run => exact .run h.ends_self
  constructor
  · intro h'
    exact h'.unique hself
  · rintro ⟨rfl, rfl⟩
    exact hself

/-- A machine at rest cannot be driven on. -/
theorem standsStill (h : m.AtRest status) : m.StandsStill status := by
  intro operations hdrive
  induction operations with
  | nil =>
      intro log
      constructor
      · rintro ⟨⟩
        rfl
      · rintro rfl
        exact .nil
  | cons o rest ih =>
      have ho : o.Drives := hdrive o List.mem_cons_self
      have hrest := ih (fun o' ho' => hdrive o' (List.mem_cons_of_mem o ho'))
      intro log
      constructor
      · intro hlog
        cases hlog with
        | cons first others =>
            obtain ⟨rfl, rfl⟩ := (h.operates_iff ho).mp first
            rw [(hrest _).mp others]
            rfl
      · rintro rfl
        exact .cons ((h.operates_iff ho).mpr ⟨rfl, rfl⟩) ((hrest _).mpr rfl)

end AtRest

/-! ## Machines that have failed -/

/-- **A failing step is atomic, and it is final.**  It leaves the machine as it
    was, down to the last allocated cell.  So whoever steps the machine or runs
    it again, in whatever order and how often, gets the same fault each time and
    finds the machine unchanged. -/
theorem failing_step_is_atomic {m : Machine} {f : Fault} (h : m.step.1 = .error f) :
    m.step = (.error f, m) ∧ m.StandsStill (.failed f) :=
  ⟨step_eq_of_error h, (atRest_of_error h).standsStill⟩

/-- A `.` inside a loop, on a cell that holds a surrogate. -/
theorem failing_step_is_atomic_on_surrogate :
    let p : Program := ⟨#[0x5B, 0x2E, 0x5D], Bracket.Table.empty.addPair 0 2, rfl⟩
    let m : Machine :=
      { program := p
        state := { tape := ⟨#[7, 0xD800]⟩, dataPtr := 1, pc := 1, output := "x", mode := .wide }
        matching := .scan
        stepLimit := some 5
        steps := 2
        maxDataPtr := 1 }
    m.step.1 = .error (.invalidCodePoint 0xD800 1) ∧
      m.step = (.error (.invalidCodePoint 0xD800 1), m) ∧
      m.StandsStill (.failed (.invalidCodePoint 0xD800 1)) := by
  intro p m
  have h : m.step.1 = .error (.invalidCodePoint 0xD800 1) := by rfl
  exact ⟨h, failing_step_is_atomic h⟩

end TapeMachine.Machine
