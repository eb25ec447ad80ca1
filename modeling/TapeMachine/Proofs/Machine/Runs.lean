import Mathlib.Dynamics.FixedPoints.Basic
import TapeMachine.Proofs.Machine.Faults

/-! # Whole runs

    A run is the iteration of one step.  It ends when a step answers `halt` or
    fails; from then on every step answers the same and the machine stays as it
    is (`step_next_of_end`), so the machine after `n` steps of a run is the
    `n`-fold `next` in any case (`runFor_snd`), and how far one runs a machine
    past its end does not matter (`runFor_of_le`).

    `Ends m status m'` says that the run of `m` ends, in what way and in which
    machine; `RunsForever m` says that it does not. -/

namespace TapeMachine.Machine

/-- The machine that a step leaves. -/
def next (m : Machine) : Machine := m.step.2

/-- The end of a run that a step's answer stands for, if it ends the run. -/
def endOf : Except Fault Signal → Option RunStatus
  | .ok .halt => some .finished
  | .ok _ => none
  | .error f => some (.failed f)

/-- A bounded run takes a step, and goes on if that does not end it. -/
theorem runFor_succ (m : Machine) (n : Nat) :
    m.runFor (n + 1) = match endOf m.step.1 with
      | some status => (status, m.next)
      | none => m.next.runFor n := by
  rw [runFor, next]
  cases m.step with
  | mk answer m' =>
      cases answer with
      | error f => rfl
      | ok signal =>
          cases signal with
          | halt => rfl
          | proceed => rfl
          | wrote c => rfl

/-- A run finishes with the answer `halt`, and with no other. -/
theorem endOf_eq_finished_iff {answer : Except Fault Signal} :
    endOf answer = some .finished ↔ answer = .ok .halt := by
  constructor
  · intro h
    cases answer with
    | error f => cases h
    | ok signal =>
        cases signal with
        | halt => rfl
        | proceed => cases h
        | wrote c => cases h
  · rintro rfl
    rfl

theorem endOf_eq_failed_iff {answer : Except Fault Signal} {f : Fault} :
    endOf answer = some (.failed f) ↔ answer = .error f := by
  constructor
  · intro h
    cases answer with
    | error g =>
        cases h
        rfl
    | ok signal =>
        cases signal with
        | halt => cases h
        | proceed => cases h
        | wrote c => cases h
  · rintro rfl
    rfl

theorem endOf_ne_running {answer : Except Fault Signal} {status : RunStatus}
    (h : endOf answer = some status) : status ≠ .running := by
  rintro rfl
  cases answer with
  | error f => cases h
  | ok signal => cases signal <;> cases h

/-! ## Behind the end -/

/-- A machine that has halted answers so, and stays as it is. -/
theorem step_of_halted {m : Machine} (h : m.halted = true) : m.step = (.ok .halt, m) := by
  rw [step_of_done (Or.inl h), ← h]

/-- A step that answers `halt` leaves a halted machine. -/
theorem halted_of_step_halt {m : Machine} (h : m.step.1 = .ok .halt) : m.next.halted = true := by
  rw [next]
  rcases m.step_cases with ⟨-, hs⟩ | ⟨f, hs⟩ | ⟨written, s, far, -, -, hs⟩
  · rw [hs]
  · rw [hs] at h
    cases h
  · rw [hs] at h ⊢
    exact halted_of_advance_halt (Except.ok.inj h)

/-- A machine that has not halted has never halted before. -/
theorem running_of_next {m : Machine} (h : m.next.halted = false) : m.halted = false := by
  by_contra hh
  rw [Bool.not_eq_false] at hh
  rw [next, step_of_halted hh, hh] at h
  cases h

/-- A machine whose step does not end the run has not halted. -/
theorem running_of_endOf {m : Machine} (h : endOf m.step.1 = none) : m.halted = false := by
  by_contra hh
  rw [Bool.not_eq_false] at hh
  rw [step_of_halted hh] at h
  cases h

/-- The step after the end of a run answers the same and changes nothing. -/
theorem step_next_of_end {m : Machine} {status : RunStatus} (h : endOf m.step.1 = some status) :
    m.next.step = (m.step.1, m.next) := by
  cases hs : m.step.1 with
  | error f =>
      have hm : m.next = m := by rw [next, step_eq_of_error hs]
      rw [hm, step_eq_of_error hs]
  | ok signal =>
      rw [hs] at h
      cases signal with
      | halt => exact step_of_halted (halted_of_step_halt hs)
      | proceed => cases h
      | wrote c => cases h

/-- Behind its end a run stays where it is. -/
theorem iterate_of_end {m : Machine} {status : RunStatus} (h : endOf m.step.1 = some status)
    (n : Nat) : next^[n + 1] m = m.next := by
  have hfix : m.next.next = m.next := by
    rw [next, step_next_of_end h]
  rw [Function.iterate_succ_apply]
  exact Function.IsFixedPt.iterate hfix n

/-! ## Runs as iteration -/

/-- A run of `n` steps leaves the `n`-fold next machine, also if it ends before. -/
theorem runFor_snd (m : Machine) (n : Nat) : (m.runFor n).2 = next^[n] m := by
  induction n generalizing m with
  | zero => rfl
  | succ n ih =>
      rw [runFor_succ]
      cases h : endOf m.step.1 with
      | some status => exact (iterate_of_end h n).symm
      | none => exact ih m.next

/-- A run that has ended is the same however much longer it may take. -/
theorem runFor_of_le {m : Machine} {n k : Nat} (h : (m.runFor n).1 ≠ .running) (hk : n ≤ k) :
    m.runFor k = m.runFor n := by
  induction n generalizing m k with
  | zero => exact absurd rfl h
  | succ n ih =>
      obtain ⟨k, rfl⟩ := Nat.exists_eq_add_of_le' (Nat.le_trans (Nat.succ_pos n) hk)
      rw [runFor_succ] at h ⊢
      rw [runFor_succ]
      cases he : endOf m.step.1 with
      | some status => rfl
      | none =>
          rw [he] at h
          exact ih h (by omega)

/-- If the machine after `n` steps answers with an end, the run ends so, one step later. -/
theorem runFor_of_end {m : Machine} {n : Nat} {status : RunStatus}
    (h : endOf (next^[n] m).step.1 = some status) :
    m.runFor (n + 1) = (status, next^[n + 1] m) := by
  refine Prod.ext ?_ (runFor_snd m (n + 1))
  induction n generalizing m with
  | zero =>
      rw [Function.iterate_zero_apply] at h
      rw [runFor_succ, h]
  | succ n ih =>
      rw [runFor_succ]
      cases he : endOf m.step.1 with
      | none =>
          rw [Function.iterate_succ_apply] at h
          exact ih h
      | some status' =>
          -- the run has ended at once, and the later end is the same
          rw [iterate_of_end he, step_next_of_end he, he] at h
          exact Option.some.inj h

/-! ## What stays, and what is counted -/

/-- What no step changes, no run changes. -/
theorem iterate_keeps {α : Type} {f : Machine → α} (h : ∀ m : Machine, f m.next = f m)
    (m : Machine) (n : Nat) : f (next^[n] m) = f m := by
  induction n with
  | zero => rfl
  | succ n ih => rw [Function.iterate_succ_apply', h, ih]

@[simp] theorem next_program (m : Machine) : m.next.program = m.program := by
  rw [next]
  rcases m.step_cases with ⟨-, hs⟩ | ⟨f, hs⟩ | ⟨written, s, far, -, -, hs⟩
  · rw [hs]
  · rw [hs]
  · rw [hs]
    exact advance_program _ written

@[simp] theorem iterate_program (m : Machine) (n : Nat) : (next^[n] m).program = m.program :=
  iterate_keeps next_program m n

@[simp] theorem next_stepLimit (m : Machine) : m.next.stepLimit = m.stepLimit := by
  rw [next]
  rcases m.step_cases with ⟨-, hs⟩ | ⟨f, hs⟩ | ⟨written, s, far, -, -, hs⟩
  · rw [hs]
  · rw [hs]
  · rw [hs]
    exact advance_stepLimit _ written

@[simp] theorem iterate_stepLimit (m : Machine) (n : Nat) :
    (next^[n] m).stepLimit = m.stepLimit :=
  iterate_keeps next_stepLimit m n

@[simp] theorem next_mode (m : Machine) : m.next.state.mode = m.state.mode := by
  rw [next]
  rcases m.step_cases with ⟨-, hs⟩ | ⟨f, hs⟩ | ⟨written, s, far, -, heffect, hs⟩
  · rw [hs]
  · rw [hs]
  · rw [hs]
    exact (advance_mode _ written).trans heffect.mode_eq

@[simp] theorem iterate_mode (m : Machine) (n : Nat) :
    (next^[n] m).state.mode = m.state.mode :=
  iterate_keeps (f := fun k => k.state.mode) next_mode m n

/-- A step counts itself unless it finds the machine done or fails. -/
theorem steps_next_cases (m : Machine) :
    (m.next.steps = m.steps ∧
      ((m.halted = true ∨ m.program.size = 0) ∨ ∃ f, m.step.1 = .error f)) ∨
    (m.next.steps = m.steps + 1 ∧ m.Ready) := by
  rw [next]
  rcases m.step_cases with ⟨hd, hs⟩ | ⟨f, hs⟩ | ⟨written, s, far, hr, -, hs⟩
  · rw [hs]
    exact Or.inl ⟨rfl, Or.inl hd⟩
  · rw [hs]
    exact Or.inl ⟨rfl, Or.inr ⟨f, rfl⟩⟩
  · rw [hs]
    exact Or.inr ⟨advance_steps _ written, hr⟩

/-- A step counts for one at most. -/
theorem steps_iterate_le (m : Machine) (n : Nat) : (next^[n] m).steps ≤ m.steps + n := by
  induction n with
  | zero => exact Nat.le_refl _
  | succ n ih =>
      rw [Function.iterate_succ_apply']
      rcases (next^[n] m).steps_next_cases with ⟨h, -⟩ | ⟨h, -⟩
      · omega
      · omega

/-- A run that has counted each of its steps has not failed in any of them. -/
theorem step_ne_error_of_steps {m : Machine} {n k : Nat} (h : (next^[n] m).steps = m.steps + n)
    (hk : k < n) (f : Fault) : (next^[k] m).step.1 ≠ .error f := by
  intro hf
  obtain ⟨d, rfl⟩ := Nat.exists_eq_add_of_le' hk
  -- the step that fails is not counted, and the others count one each
  have hstay : (next^[k] m).next = next^[k] m := by rw [next, step_eq_of_error hf]
  rw [Function.iterate_add_apply, Function.iterate_succ_apply', hstay] at h
  have hbefore := m.steps_iterate_le k
  have hbehind := (next^[k] m).steps_iterate_le d
  omega

/-- A run that has not ended has counted each of its steps. -/
theorem steps_iterate_of_running {m : Machine} {n : Nat}
    (h : ∀ i, i < n → endOf (next^[i] m).step.1 = none) : (next^[n] m).steps = m.steps + n := by
  induction n with
  | zero => rfl
  | succ n ih =>
      have hn := h n (Nat.lt_succ_self n)
      rw [Function.iterate_succ_apply']
      rcases (next^[n] m).steps_next_cases with ⟨-, hd | ⟨f, hf⟩⟩ | ⟨hs, -⟩
      · rw [step_of_done hd] at hn
        cases hn
      · rw [hf] at hn
        cases hn
      · have := ih (fun i hi => h i (Nat.lt_succ_of_lt hi))
        omega

/-! ## How a run ends -/

/-- The run of `m` ends with `status` and leaves `m'`. -/
def Ends (m : Machine) (status : RunStatus) (m' : Machine) : Prop :=
  status ≠ .running ∧ ∃ n, m.runFor n = (status, m')

/-- The run of `m` never ends. -/
def RunsForever (m : Machine) : Prop :=
  ∀ n, (m.runFor n).1 = .running

/-- A run whose steps come to a `halt` finishes with what that step leaves. -/
theorem ends_of_halt {m : Machine} {n : Nat} (h : (next^[n] m).step.1 = .ok .halt) :
    m.Ends .finished (next^[n + 1] m) := by
  have he : endOf (next^[n] m).step.1 = some .finished := by rw [h, endOf]
  exact ⟨endOf_ne_running he, n + 1, runFor_of_end he⟩

/-- A run whose steps come to a fault fails, with the machine as it stood before. -/
theorem ends_of_error {m : Machine} {n : Nat} {f : Fault} (h : (next^[n] m).step.1 = .error f) :
    m.Ends (.failed f) (next^[n] m) := by
  have he : endOf (next^[n] m).step.1 = some (.failed f) := by rw [h, endOf]
  have hm : next^[n + 1] m = next^[n] m := by
    rw [Function.iterate_succ_apply', next, step_eq_of_error h]
  refine ⟨endOf_ne_running he, n + 1, ?_⟩
  rw [runFor_of_end he, hm]

/-- A run that has ended has a first step that answers with its end. -/
theorem exists_first_end {m m' : Machine} {n : Nat} {status : RunStatus}
    (hs : status ≠ .running) (h : m.runFor n = (status, m')) :
    ∃ k, (∀ i, i < k → endOf (next^[i] m).step.1 = none) ∧
      endOf (next^[k] m).step.1 = some status ∧ m' = next^[k + 1] m := by
  induction n generalizing m with
  | zero => exact absurd (congrArg Prod.fst h).symm hs
  | succ n ih =>
      rw [runFor_succ] at h
      cases he : endOf m.step.1 with
      | some status' =>
          rw [he] at h
          obtain ⟨rfl, rfl⟩ := Prod.mk.inj h
          exact ⟨0, fun i hi => absurd hi (Nat.not_lt_zero i), he, rfl⟩
      | none =>
          rw [he] at h
          obtain ⟨k, hbefore, hend, hm'⟩ := ih h
          refine ⟨k + 1, ?_, hend, hm'⟩
          intro i hi
          cases i with
          | zero => exact he
          | succ i => exact hbefore i (Nat.lt_of_succ_lt_succ hi)

/-- A run ends as one of its steps answers. -/
theorem ends_iff {m m' : Machine} {status : RunStatus} : m.Ends status m' ↔
    ∃ k, endOf (next^[k] m).step.1 = some status ∧ m' = next^[k + 1] m := by
  constructor
  · rintro ⟨hs, n, hn⟩
    obtain ⟨k, -, hend, hm'⟩ := exists_first_end hs hn
    exact ⟨k, hend, hm'⟩
  · rintro ⟨k, hend, rfl⟩
    exact ⟨endOf_ne_running hend, k + 1, runFor_of_end hend⟩

/-- A run that finishes has counted its steps, and the last one has halted the machine. -/
theorem Ends.exists_last_step {m m' : Machine} (h : m.Ends .finished m') (hh : m.halted = false)
    (hsize : 0 < m.program.size) :
    ∃ n, (next^[n] m).halted = false ∧ next^[n + 1] m = m' ∧ m'.halted = true ∧
      m'.steps = m.steps + (n + 1) := by
  obtain ⟨hne, N, hN⟩ := h
  obtain ⟨k, hbefore, hend, rfl⟩ := exists_first_end hne hN
  have hhalt := endOf_eq_finished_iff.mp hend
  have hlast := halted_of_step_halt hhalt
  have hsteps := steps_iterate_of_running hbefore
  rw [Function.iterate_succ_apply']
  cases hk : (next^[k] m).halted with
  | false =>
      refine ⟨k, hk, Function.iterate_succ_apply' .., hlast, ?_⟩
      rcases (next^[k] m).steps_next_cases with ⟨-, (hd | he) | ⟨f, hf⟩⟩ | ⟨hcount, -⟩
      · exact absurd (hk.symm.trans hd) Bool.false_ne_true
      · rw [iterate_program] at he
        omega
      · rw [hf] at hhalt
        cases hhalt
      · omega
  | true =>
      -- the last byte has written a character, and the step behind it answers `halt`
      have hsame : (next^[k] m).next = next^[k] m := by rw [next, step_of_halted hk]
      rw [hsame]
      cases k with
      | zero => exact absurd (hh.symm.trans hk) Bool.false_ne_true
      | succ n =>
          exact ⟨n, running_of_endOf (hbefore n (Nat.lt_succ_self n)), rfl, hk, hsteps⟩

/-- A run ends in one way only. -/
theorem Ends.unique {m m₁ m₂ : Machine} {status₁ status₂ : RunStatus}
    (h₁ : m.Ends status₁ m₁) (h₂ : m.Ends status₂ m₂) : status₁ = status₂ ∧ m₁ = m₂ := by
  obtain ⟨hs₁, n₁, hn₁⟩ := h₁
  obtain ⟨hs₂, n₂, hn₂⟩ := h₂
  have e₁ : m.runFor (max n₁ n₂) = (status₁, m₁) := by
    rw [runFor_of_le (by rw [hn₁]; exact hs₁) (Nat.le_max_left n₁ n₂), hn₁]
  have e₂ : m.runFor (max n₁ n₂) = (status₂, m₂) := by
    rw [runFor_of_le (by rw [hn₂]; exact hs₂) (Nat.le_max_right n₁ n₂), hn₂]
  exact Prod.ext_iff.mp (e₁.symm.trans e₂)

/-- A run that ends does not run forever. -/
theorem Ends.not_runsForever {m m' : Machine} {status : RunStatus} (h : m.Ends status m') :
    ¬ m.RunsForever := by
  intro hf
  obtain ⟨hs, n, hn⟩ := h
  have := hf n
  rw [hn] at this
  exact hs this

/-- A run that never ends is one without a step that answers with an end. -/
theorem runsForever_iff {m : Machine} :
    m.RunsForever ↔ ∀ n, endOf (next^[n] m).step.1 = none := by
  constructor
  · intro h n
    cases hend : endOf (next^[n] m).step.1 with
    | none => rfl
    | some status => exact absurd h (ends_iff.mpr ⟨n, hend, rfl⟩).not_runsForever
  · intro h n
    by_contra hn
    obtain ⟨k, -, hend, -⟩ := exists_first_end hn rfl
    rw [h k] at hend
    cases hend

/-- A machine that never stops counting never ends: the run that has ended
    leaves the same machine, with the same count, from then on. -/
theorem runsForever_of_steps {m : Machine}
    (h : ∀ N, ∃ n, N ≤ n ∧ (next^[n] m).steps = m.steps + n) : m.RunsForever := by
  intro N
  by_contra hN
  obtain ⟨n₁, hn₁, hs₁⟩ := h N
  obtain ⟨n₂, hn₂, hs₂⟩ := h (n₁ + 1)
  have e₁ := congrArg Prod.snd (runFor_of_le hN hn₁)
  have e₂ := congrArg Prod.snd (runFor_of_le hN (Nat.le_trans hn₁ (Nat.le_of_succ_le hn₂)))
  rw [runFor_snd] at e₁ e₂
  rw [e₁] at hs₁
  rw [e₂] at hs₂
  omega

/-! ## Running to the end -/

section ToEnd

variable {m m' : Machine} {status : RunStatus}

theorem ends_of_endOf (h : endOf m.step.1 = some status) : m.Ends status m.next :=
  ends_iff.mpr ⟨0, h, rfl⟩

/-- A run ends as it does from the next machine on. -/
theorem Ends.of_next (h : m.next.Ends status m') : m.Ends status m' := by
  obtain ⟨k, hend, rfl⟩ := ends_iff.mp h
  exact ends_iff.mpr ⟨k + 1, hend, rfl⟩

/-- The run to the end stops at a step that ends it. -/
theorem runToEnd?_of_endOf (h : endOf m.step.1 = some status) :
    m.runToEnd? = some (status, m.next) := by
  rw [runToEnd?, next]
  cases hstep : m.step with
  | mk answer m₁ =>
      rw [hstep] at h
      cases answer with
      | error f => cases h; rfl
      | ok signal =>
          cases signal with
          | halt => cases h; rfl
          | proceed => cases h
          | wrote c => cases h

theorem runToEnd?_of_running (h : endOf m.step.1 = none) : m.runToEnd? = m.next.runToEnd? := by
  rw [runToEnd?, next]
  cases hstep : m.step with
  | mk answer m₁ =>
      rw [hstep] at h
      cases answer with
      | error f => cases h
      | ok signal =>
          cases signal with
          | halt => cases h
          | proceed => rfl
          | wrote c => rfl

/-- Running to the end answers with the end of the run. -/
theorem ends_of_runToEnd? (h : m.runToEnd? = some (status, m')) : m.Ends status m' := by
  refine runToEnd?.partial_correctness (fun m result => m.Ends result.1 result.2) ?_ m _ h
  intro goOn ih m result hresult
  cases hstep : m.step with
  | mk answer m₁ =>
      rw [hstep] at hresult
      have hnext : m.next = m₁ := congrArg Prod.snd hstep
      cases answer with
      | error f =>
          obtain rfl := Option.some.inj hresult
          exact hnext ▸ ends_of_endOf (congrArg (endOf ·.1) hstep)
      | ok signal =>
          cases signal with
          | halt =>
              obtain rfl := Option.some.inj hresult
              exact hnext ▸ ends_of_endOf (congrArg (endOf ·.1) hstep)
          | proceed => exact .of_next (hnext ▸ ih _ _ hresult)
          | wrote c => exact .of_next (hnext ▸ ih _ _ hresult)

/-- The run to the end gives its end, if there is one. -/
theorem runToEnd?_eq_some_iff : m.runToEnd? = some (status, m') ↔ m.Ends status m' := by
  constructor
  · exact ends_of_runToEnd?
  · rintro ⟨hs, n, hn⟩
    induction n generalizing m with
    | zero => exact absurd (congrArg Prod.fst hn).symm hs
    | succ n ih =>
        rw [runFor_succ] at hn
        cases he : endOf m.step.1 with
        | some status' =>
            rw [he] at hn
            rw [runToEnd?_of_endOf he]
            exact congrArg some hn
        | none =>
            rw [he] at hn
            rw [runToEnd?_of_running he]
            exact ih hn

end ToEnd

end TapeMachine.Machine
