import TapeMachine.Proofs.Machine.Runs

/-! # The step limit

    A machine with a step limit goes in step with the same machine without one
    until as many bytes have been carried out as the limit allows
    (`iterate_withLimit`).  Then it is stopped, unless it has nothing more to
    do: that it has halted is noticed before the limit is looked at, and the
    limit before the fault of an instruction.  So the limited run is the
    unlimited one, cut off behind its last affordable byte
    (`step_limit_truncates_run`), and it always comes to an end. -/

namespace TapeMachine.Machine

/-- The same machine, with its step limit set. -/
def withLimit (m : Machine) (limit : Option Nat) : Machine :=
  { m with stepLimit := limit }

variable {m m' : Machine} {limit n : Nat}

theorem advance_withLimit (m : Machine) (limit : Option Nat) (written : Option Char) :
    (m.withLimit limit).advance written
      = ((m.advance written).1, (m.advance written).2.withLimit limit) :=
  advance_congr (f := fun m => m.withLimit limit) written Iff.rfl rfl rfl

/-! ## In step with the unlimited machine -/

/-- A limit that is not used up makes no difference, and neither does any limit
    to a machine that is done. -/
theorem step_withLimit (hm : m.stepLimit = none)
    (h : (m.halted = true ∨ m.program.size = 0) ∨ m.steps < limit) :
    (m.withLimit (some limit)).step = (m.step.1, m.step.2.withLimit (some limit)) := by
  rcases m.done_or_exhausted_or_ready with hd | ⟨-, -, limit', hx⟩ | hr
  · rw [step_of_done hd]
    exact step_of_done hd
  · have := (exhausted?_eq_some_iff.mp hx).1
    rw [hm] at this
    cases this
  · have hr' : (m.withLimit (some limit)).Ready := by
      refine ⟨hr.not_halted, hr.not_empty, exhausted?_eq_none_iff.mpr ?_⟩
      rintro limit' ⟨⟩
      rcases h with (hh | he) | hlt
      · exact absurd (hr.not_halted.symm.trans hh) Bool.false_ne_true
      · exact absurd he (Nat.ne_of_gt hr.not_empty)
      · exact hlt
    have hsame := execute_of_same (m := m) (k := m.withLimit (some limit)) rfl rfl rfl
    rcases hsame with ⟨written, s, far, hx, hk⟩ | ⟨f, hx, hk⟩
    · rw [hr.step_of_ok hx]
      exact hr'.step_of_advance hk
        (advance_withLimit { m with state := s, maxDataPtr := far } (some limit) written)
    · rw [hr.step_of_error hx, hr'.step_of_error hk]

/-- A step that the limit lets through is the same without it. -/
theorem next_withLimit (hm : m.stepLimit = none) (h : m.steps < limit) :
    (m.withLimit (some limit)).next = m.next.withLimit (some limit) := by
  rw [next, step_withLimit hm (Or.inr h)]
  rfl

/-- So are all steps up to the limit. -/
theorem iterate_withLimit (hm : m.stepLimit = none) (h : m.steps + n ≤ limit) :
    next^[n] (m.withLimit (some limit)) = (next^[n] m).withLimit (some limit) := by
  induction n with
  | zero => rfl
  | succ n ih =>
      have hle := m.steps_iterate_le n
      rw [Function.iterate_succ_apply', Function.iterate_succ_apply', ih (by omega)]
      exact next_withLimit ((iterate_stepLimit m n).trans hm) (by omega)

/-- An end that the unlimited run comes to within the limit is the end of the limited run. -/
theorem ends_withLimit {status : RunStatus} (hm : m.stepLimit = none) (hn : m.steps + n ≤ limit)
    (hend : endOf (next^[n] m).step.1 = some status)
    (h : ((next^[n] m).halted = true ∨ (next^[n] m).program.size = 0) ∨
      (next^[n] m).steps < limit) :
    (m.withLimit (some limit)).Ends status ((next^[n + 1] m).withLimit (some limit)) := by
  have hstep := step_withLimit ((iterate_stepLimit m n).trans hm) h
  refine ends_iff.mpr ⟨n, ?_, ?_⟩
  · rw [iterate_withLimit hm hn, hstep, hend]
  · rw [Function.iterate_succ_apply', Function.iterate_succ_apply', iterate_withLimit hm hn, next,
      next, hstep]

/-! ## The three ways for a limited run to end -/

section Fresh

variable (hm : m.stepLimit = none) (h0 : m.steps = 0)
include hm h0

/-- A run that finishes within the limit finishes alike with it. -/
theorem finishes_within (h : m.Ends .finished m') (hs : m'.steps ≤ limit) :
    (m.withLimit (some limit)).Ends .finished (m'.withLimit (some limit)) := by
  obtain ⟨hne, n, hn⟩ := h
  obtain ⟨k, hbefore, hend, rfl⟩ := exists_first_end hne hn
  have hk := steps_iterate_of_running hbefore
  rw [Function.iterate_succ_apply'] at hs
  -- the last step counts, unless there was none to take
  rcases (next^[k] m).steps_next_cases with ⟨hsame, hd | ⟨f, hf⟩⟩ | ⟨hcount, -⟩
  · exact ends_withLimit hm (by omega) hend (Or.inl hd)
  · rw [hf] at hend
    cases hend
  · exact ends_withLimit hm (by omega) hend (Or.inr (by omega))

/-- A run that fails before the limit fails alike with it. -/
theorem fails_within {f : Fault} (h : m.Ends (.failed f) m') (hs : m'.steps < limit) :
    (m.withLimit (some limit)).Ends (.failed f) (m'.withLimit (some limit)) := by
  obtain ⟨hne, n, hn⟩ := h
  obtain ⟨k, hbefore, hend, rfl⟩ := exists_first_end hne hn
  have hk := steps_iterate_of_running hbefore
  have herror := endOf_eq_failed_iff.mp hend
  have hstays : (next^[k] m).next = next^[k] m := by rw [next, step_eq_of_error herror]
  rw [Function.iterate_succ_apply', hstays] at hs
  exact ends_withLimit hm (by omega) hend (Or.inr hs)

/-- A run that neither finishes nor fails within the limit is cut off. -/
theorem cut_off (hfinish : ¬ ∃ m', m.Ends .finished m' ∧ m'.steps ≤ limit)
    (hfail : ¬ ∃ f m', m.Ends (.failed f) m' ∧ m'.steps < limit) :
    (m.withLimit (some limit)).Ends (.failed (.stepLimitExceeded limit))
        ((next^[limit] m).withLimit (some limit)) ∧
      (next^[limit] m).steps = limit := by
  have hrunning : ∀ i, i < limit → endOf (next^[i] m).step.1 = none := by
    intro i hi
    have hle := m.steps_iterate_le i
    cases hend : endOf (next^[i] m).step.1 with
    | none => rfl
    | some status =>
        have hends : m.Ends status (next^[i + 1] m) := ends_iff.mpr ⟨i, hend, rfl⟩
        cases status with
        | running => exact absurd rfl hends.1
        | finished =>
            have := m.steps_iterate_le (i + 1)
            exact absurd ⟨_, hends, by omega⟩ hfinish
        | failed f =>
            have hends := ends_of_error (endOf_eq_failed_iff.mp hend)
            exact absurd ⟨f, _, hends, by omega⟩ hfail
  have hsteps : (next^[limit] m).steps = limit := by
    have := steps_iterate_of_running hrunning
    omega
  refine ⟨?_, hsteps⟩
  rw [← iterate_withLimit hm (by omega)]
  refine ends_of_error ?_
  rw [iterate_withLimit hm (by omega)]
  -- there is a byte left to carry out, and no step
  rcases (next^[limit] m).done_or_exhausted_or_ready with hd | ⟨-, -, limit', hx⟩ | hr
  · have hhalt : (next^[limit] m).step.1 = .ok .halt := by rw [step_of_done hd]
    have hend := ends_of_halt hhalt
    rw [Function.iterate_succ_apply', next, step_of_done hd] at hend
    exact absurd ⟨_, hend, Nat.le_of_eq hsteps⟩ hfinish
  · have hlimit := (exhausted?_eq_some_iff.mp hx).1
    rw [iterate_stepLimit, hm] at hlimit
    cases hlimit
  · have hx : ((next^[limit] m).withLimit (some limit)).exhausted? = some limit :=
      exhausted?_eq_some_iff.mpr ⟨rfl, Nat.le_of_eq hsteps.symm⟩
    rw [step_of_exhausted (m := (next^[limit] m).withLimit (some limit)) hr.not_halted
      hr.not_empty hx]

/-- There is no fourth way. -/
theorem ends_within_or_cut_off (limit : Nat) :
    (∃ m', m.Ends .finished m' ∧ m'.steps ≤ limit) ∨
    (∃ f m', m.Ends (.failed f) m' ∧ m'.steps < limit) ∨
    (m.withLimit (some limit)).Ends (.failed (.stepLimitExceeded limit))
      ((next^[limit] m).withLimit (some limit)) := by
  by_cases hfinish : ∃ m', m.Ends .finished m' ∧ m'.steps ≤ limit
  · exact Or.inl hfinish
  · by_cases hfail : ∃ f m', m.Ends (.failed f) m' ∧ m'.steps < limit
    · exact Or.inr (Or.inl hfail)
    · exact Or.inr (Or.inr (cut_off hm h0 hfinish hfail).1)

/-- With a limit every run ends. -/
theorem exists_ends_withLimit (limit : Nat) :
    ∃ status m', (m.withLimit (some limit)).Ends status m' := by
  rcases ends_within_or_cut_off hm h0 limit with ⟨m', h, hs⟩ | ⟨f, m', h, hs⟩ | h
  · exact ⟨_, _, finishes_within hm h0 h hs⟩
  · exact ⟨_, _, fails_within hm h0 h hs⟩
  · exact ⟨_, _, h⟩

/-- What finishes under a limit has not needed more. -/
theorem finishes_withLimit_iff : (m.withLimit (some limit)).Ends .finished m' ↔
    ∃ m₁, m.Ends .finished m₁ ∧ m₁.steps ≤ limit ∧ m' = m₁.withLimit (some limit) := by
  constructor
  · intro hends
    -- if the limited run did anything else, it would not finish
    rcases ends_within_or_cut_off hm h0 limit with ⟨m₁, h, hs⟩ | ⟨f, m₁, h, hs⟩ | h
    · exact ⟨m₁, h, hs, (hends.unique (finishes_within hm h0 h hs)).2⟩
    · cases (hends.unique (fails_within hm h0 h hs)).1
    · cases (hends.unique h).1
  · rintro ⟨m₁, h, hs, rfl⟩
    exact finishes_within hm h0 h hs

/-- A run that finishes within a limit finishes alike within a larger one. -/
theorem finishes_within_larger {larger : Nat} (h : (m.withLimit (some limit)).Ends .finished m')
    (hle : limit ≤ larger) :
    (m.withLimit (some larger)).Ends .finished (m'.withLimit (some larger)) := by
  obtain ⟨m₁, hends, hs, rfl⟩ := (finishes_withLimit_iff hm h0).mp h
  show (m.withLimit (some larger)).Ends .finished (m₁.withLimit (some larger))
  exact finishes_within hm h0 hends (Nat.le_trans hs hle)

end Fresh

/-! ## Never past the limit -/

theorem steps_next_le_limit (hm : m.stepLimit = some limit) (hs : m.steps ≤ limit) :
    m.next.steps ≤ limit := by
  rcases m.steps_next_cases with ⟨h, -⟩ | ⟨h, hr⟩
  · omega
  · have := exhausted?_eq_none_iff.mp hr.not_exhausted limit hm
    omega

/-- No number of steps takes the machine beyond its limit. -/
theorem steps_iterate_le_limit (hm : m.stepLimit = some limit) (hs : m.steps ≤ limit) (n : Nat) :
    (next^[n] m).steps ≤ limit := by
  induction n with
  | zero => exact hs
  | succ n ih =>
      rw [Function.iterate_succ_apply']
      exact steps_next_le_limit ((iterate_stepLimit m n).trans hm) ih

/-- **A step limit cuts off the unlimited run.**  With a limit every run comes to
    an end, and never counts beyond the limit.  If the unlimited run finishes
    after at most as many steps as the limit allows, or fails after fewer, the
    limited run does the same and leaves the same machine.  In every other case
    it fails because of the limit, which is then used up, and leaves the machine
    that the unlimited run is after that many steps.  A run that finishes under
    one limit finishes in the same way under every larger one. -/
theorem step_limit_truncates_run (p : Program) (settings : Settings) (limit : Nat) :
    let unlimited := load p { settings with stepLimit := none }
    let limited := unlimited.withLimit (some limit)
    limited = load p { settings with stepLimit := some limit } ∧
    (∃ status m, limited.Ends status m) ∧
    (∀ n, (next^[n] limited).steps ≤ limit) ∧
    (∀ m, unlimited.Ends .finished m → m.steps ≤ limit →
      limited.Ends .finished (m.withLimit (some limit))) ∧
    (∀ f m, unlimited.Ends (.failed f) m → m.steps < limit →
      limited.Ends (.failed f) (m.withLimit (some limit))) ∧
    ((¬ ∃ m, unlimited.Ends .finished m ∧ m.steps ≤ limit) →
      (¬ ∃ f m, unlimited.Ends (.failed f) m ∧ m.steps < limit) →
      limited.Ends (.failed (.stepLimitExceeded limit))
          ((next^[limit] unlimited).withLimit (some limit)) ∧
        (next^[limit] unlimited).steps = limit) ∧
    (∀ m larger, limited.Ends .finished m → limit ≤ larger →
      (unlimited.withLimit (some larger)).Ends .finished (m.withLimit (some larger))) := by
  intro unlimited limited
  have hm : unlimited.stepLimit = none := rfl
  have h0 : unlimited.steps = 0 := rfl
  refine ⟨rfl, ?_, ?_, ?_, ?_, ?_, ?_⟩
  · exact exists_ends_withLimit hm h0 limit
  · exact steps_iterate_le_limit rfl (Nat.zero_le limit)
  · intro m
    exact finishes_within hm h0
  · intro f m
    exact fails_within hm h0
  · exact cut_off hm h0
  · intro m larger
    exact finishes_within_larger hm h0

end TapeMachine.Machine
