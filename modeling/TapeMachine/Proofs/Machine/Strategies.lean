import TapeMachine.Control
import TapeMachine.Proofs.Machine.Runs

/-! # The two ways of matching cannot be told apart

    A machine consults its way of matching only at a bracket that it is about to
    jump from, and there both ways name the other end of the pair.  So setting
    the way of matching commutes with every step, with every run and with every
    command, and a whole session with the machine goes the same way whichever
    is set (`session_scan_iff_session_table`).  Commands may move the program
    counter anywhere and put another program in between; nothing is asked of the
    state in which the session begins. -/

namespace TapeMachine.Machine

/-- The same machine, with its way of matching set. -/
def withMatching (m : Machine) (matching : Matching) : Machine :=
  { m with matching := matching }

/-- What can be done with a machine: a command, or a run to its end. -/
inductive Operation where
  | command (command : Command)
  | run

/-- An operation, what it answers, and the machine that it leaves.  A run that
    never ends answers nothing. -/
inductive Operates (m : Machine) : Operation → Reply → Machine → Prop where
  | command (c : Command) : Operates m (.command c) (m.perform c).1 (m.perform c).2
  | run {status : RunStatus} {m' : Machine} (ends : m.Ends status m') :
      Operates m .run (.run status) m'

/-- A sequence of operations, with what each answers and the machine it leaves. -/
inductive Session : Machine → List Operation → List (Reply × Machine) → Prop where
  | nil {m : Machine} : Session m [] []
  | cons {m m' : Machine} {operation : Operation} {reply : Reply} {rest : List Operation}
      {log : List (Reply × Machine)} (first : m.Operates operation reply m')
      (others : Session m' rest log) :
      Session m (operation :: rest) ((reply, m') :: log)

variable (m : Machine) (matching : Matching)

/-- A byte does the same with either way of matching. -/
theorem execute_withMatching :
    (m.withMatching matching).execute (m.program.instructionAt? m.state.pc)
      = ((m.execute (m.program.instructionAt? m.state.pc)).1,
        (m.execute (m.program.instructionAt? m.state.pc)).2.withMatching matching) := by
  have hsame := execute_of_same (m := m) (k := m.withMatching matching) rfl rfl rfl
  rcases hsame with ⟨written, s, far, hm, hk⟩ | ⟨f, hm, hk⟩
  · rw [hm]
    exact hk
  · rw [hm]
    exact hk

theorem advance_withMatching (written : Option Char) :
    (m.withMatching matching).advance written
      = ((m.advance written).1, (m.advance written).2.withMatching matching) :=
  advance_congr (f := fun m => m.withMatching matching) written Iff.rfl rfl rfl

/-- So does a step. -/
theorem step_withMatching :
    (m.withMatching matching).step = (m.step.1, m.step.2.withMatching matching) := by
  rcases m.done_or_exhausted_or_ready with hd | ⟨hh, he, limit, hx⟩ | hr
  · rw [step_of_done hd]
    exact step_of_done hd
  · rw [step_of_exhausted hh he hx]
    exact step_of_exhausted hh he hx
  · have hr' : (m.withMatching matching).Ready := ⟨hr.not_halted, hr.not_empty, hr.not_exhausted⟩
    have hm := m.execute_withMatching matching
    cases hx : m.execute (m.program.instructionAt? m.state.pc) with
    | mk answer m' =>
        rw [hx] at hm
        cases answer with
        | ok written =>
            rw [hr.step_of_ok hx, hr'.step_of_ok hm, advance_withMatching]
        | error f =>
            rw [hr.step_of_error hx, hr'.step_of_error hm]

/-- So does a bounded run. -/
theorem runFor_withMatching (n : Nat) :
    (m.withMatching matching).runFor n
      = ((m.runFor n).1, (m.runFor n).2.withMatching matching) := by
  induction n generalizing m with
  | zero => rfl
  | succ n ih =>
      rw [runFor, runFor, step_withMatching]
      cases hs : m.step with
      | mk answer m' =>
          cases answer with
          | error f => rfl
          | ok signal =>
              cases signal with
              | halt => rfl
              | proceed => exact ih m'
              | wrote c => exact ih m'

theorem perform_withMatching (command : Command) :
    (m.withMatching matching).perform command
      = ((m.perform command).1, (m.perform command).2.withMatching matching) := by
  cases command with
  | state command => rfl
  | step =>
      rw [perform, perform, step_withMatching]
      cases hs : m.step with
      | mk answer m' =>
          cases answer with
          | error f => rfl
          | ok signal => rfl
  | runFor n =>
      rw [perform, perform, runFor_withMatching]
  | replaceProgram text =>
      rw [perform, perform]
      cases Program.ofText? text with
      | error f => rfl
      | ok program => rfl

variable {m}

/-- A run ends alike with either way of matching. -/
theorem Ends.withMatching {m' : Machine} {status : RunStatus} (h : m.Ends status m') :
    (m.withMatching matching).Ends status (m'.withMatching matching) := by
  obtain ⟨hs, n, hn⟩ := h
  refine ⟨hs, n, ?_⟩
  rw [runFor_withMatching, hn]

/-- Every operation is answered alike. -/
theorem Operates.withMatching {m' : Machine} {operation : Operation} {reply : Reply}
    (h : m.Operates operation reply m') :
    (m.withMatching matching).Operates operation reply (m'.withMatching matching) := by
  cases h with
  | command c =>
      have hc := Operates.command (m := m.withMatching matching) c
      rw [perform_withMatching] at hc
      exact hc
  | run ends => exact .run (ends.withMatching matching)

/-- Every session goes alike. -/
theorem Session.withMatching {operations : List Operation} {log : List (Reply × Machine)}
    (h : m.Session operations log) :
    (m.withMatching matching).Session operations
      (log.map fun (reply, left) => (reply, left.withMatching matching)) := by
  induction h with
  | nil => exact .nil
  | cons first others ih => exact .cons (first.withMatching matching) ih

/-- An operation has one outcome. -/
theorem Operates.unique {m₁ m₂ : Machine} {operation : Operation} {reply₁ reply₂ : Reply}
    (h₁ : m.Operates operation reply₁ m₁) (h₂ : m.Operates operation reply₂ m₂) :
    reply₁ = reply₂ ∧ m₁ = m₂ := by
  cases h₁ with
  | command c =>
      cases h₂ with
      | command c => exact ⟨rfl, rfl⟩
  | run ends₁ =>
      cases h₂ with
      | run ends₂ =>
          obtain ⟨rfl, rfl⟩ := ends₁.unique ends₂
          exact ⟨rfl, rfl⟩

/-- A session has one log only. -/
theorem Session.unique {operations : List Operation} {log₁ log₂ : List (Reply × Machine)}
    (h₁ : m.Session operations log₁) (h₂ : m.Session operations log₂) : log₁ = log₂ := by
  induction h₁ generalizing log₂ with
  | nil =>
      cases h₂ with
      | nil => rfl
  | cons first₁ others₁ ih =>
      cases h₂ with
      | cons first₂ others₂ =>
          obtain ⟨rfl, rfl⟩ := first₁.unique first₂
          rw [ih others₂]

variable (m)

/-- **Table and search are one.**  Take two machines that differ in nothing but
    that one matches by its table and the other by search.  The sessions of the
    one are the sessions of the other: each operation is answered alike, a run
    ends on both or on neither, and after each operation the machines still
    differ in nothing else. -/
theorem session_scan_iff_session_table (operations : List Operation)
    (log : List (Reply × Machine)) :
    (m.withMatching .scan).Session operations log ↔
      ∃ tableLog, (m.withMatching .table).Session operations tableLog ∧
        log = tableLog.map fun (reply, left) => (reply, left.withMatching .scan) := by
  constructor
  · intro h
    refine ⟨_, h.withMatching .table, ?_⟩
    -- both are the log of the same session by search
    exact h.unique ((h.withMatching .table).withMatching .scan)
  · rintro ⟨tableLog, h, rfl⟩
    exact h.withMatching .scan

end TapeMachine.Machine
