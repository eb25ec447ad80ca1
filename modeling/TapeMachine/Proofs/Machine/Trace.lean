import TapeMachine.Proofs.Machine.Rest
import TapeMachine.Proofs.Structured.Reached

/-! # The bytes that a run carries out

    The TRACE of a run lists what it carries out, byte by byte: the position of
    the byte and the store it leaves.  A step that finds the machine done, or
    that fails, adds nothing, so the length of the trace is what the machine
    counts (`steps_iterate_eq`), and a run that goes on adding to its trace goes
    on forever (`runsForever_of_events`).

    Two runs may carry out the same bytes but for some that one of them has in
    addition.  Then one step of the other is matched by one or more steps of the
    one: it STUTTERS.  `Simulates` says so of a relation between two machines,
    and `Simulates.ends_or_forever` draws the conclusion for whole runs: both end,
    in the same way, or neither does.  `Stutters` is the case in which the bytes
    themselves are compared, one trace with the other. -/

namespace TapeMachine

/-- A byte that has been carried out. -/
structure Event where
  pos : Nat
  /-- The store that the byte has left. -/
  left : Store

namespace Machine

/-- What the next step carries out: nothing if the machine is done or the step fails. -/
def event? (m : Machine) : Option Event :=
  if m.halted || m.program.isEmpty then none
  else
    match m.step with
    | (.ok _, m') => some ⟨m.state.pc, m'.store⟩
    | (.error _, _) => none

/-- Whether the next step carries out a byte. -/
def carriesOut (m : Machine) : Bool := m.event?.isSome

/-- What the next `n` steps carry out, in order. -/
def trace : (n : Nat) → Machine → List Event
  | 0, _ => []
  | n + 1, m => m.event?.toList ++ trace n m.next

variable {m m' : Machine} {status : RunStatus}

/-! ## One step -/

/-- A machine that is done carries out nothing. -/
theorem event?_of_done (h : m.halted = true ∨ m.program.size = 0) : m.event? = none :=
  if_pos (isDone_eq_true_iff.mpr h)

theorem event?_of_error {f : Fault} (h : m.step.1 = .error f) : m.event? = none := by
  rw [event?, step_eq_of_error h]
  split
  · rfl
  · rfl

/-- A step that is answered carries out the byte at the program counter. -/
theorem Ready.event?_of_ok {answer : Signal} (hr : m.Ready) (h : m.step.1 = .ok answer) :
    m.event? = some ⟨m.state.pc, m.next.store⟩ := by
  have hstep : m.step = (.ok answer, m.next) := Prod.ext h rfl
  rw [event?, hstep, if_neg]
  intro hd
  rcases isDone_eq_true_iff.mp hd with hh | he
  · exact Bool.false_ne_true (hr.not_halted.symm.trans hh)
  · exact absurd he (Nat.ne_of_gt hr.not_empty)

/-- A step that carries out nothing ends the run and keeps the store. -/
theorem event?_cases (m : Machine) :
    (m.event? = none ∧ (∃ status, endOf m.step.1 = some status) ∧
      m.next.store = m.store ∧ m.next.steps = m.steps) ∨
    (m.event? = some ⟨m.state.pc, m.next.store⟩ ∧ m.next.steps = m.steps + 1) := by
  rcases m.step_cases with ⟨hd, hs⟩ | ⟨f, hs⟩ | ⟨written, s, far, hr, -, hs⟩
  · refine Or.inl ⟨event?_of_done hd, ⟨.finished, ?_⟩, ?_, ?_⟩
    · rw [hs, endOf]
    · rw [next, hs]
      rfl
    · rw [next, hs]
  · have hf : m.step.1 = .error f := by rw [hs]
    refine Or.inl ⟨event?_of_error hf, ⟨.failed f, ?_⟩, ?_, ?_⟩
    · rw [hs, endOf]
    · rw [next, hs]
    · rw [next, hs]
  · refine Or.inr ⟨hr.event?_of_ok (congrArg Prod.fst hs), ?_⟩
    rw [next, hs]
    exact advance_steps _ written

/-- A machine that comes to `pos` carries out the byte there, if it can. -/
theorem event?_reached {s s' : Store} {pos r k : Nat} {written : Option Char}
    (hm : m.stepLimit = none) (hpos : pos < m.program.size)
    (hx : (m.running s pos k).execute (m.program.instructionAt? pos)
      = (.ok written, m.running s' r k)) :
    (m.reached s pos k).event? = some ⟨pos, s'⟩ := by
  have hr := ready_running (m := m) (s := s) (k := k) hm hpos
  have hleft : (m.running s pos k).next.store = s' := by
    rw [← reached_of_lt hpos, next_reached hm hpos hx, store_reached]
  rw [reached_of_lt hpos, hr.event?_of_ok (congrArg Prod.fst (hr.step_of_ok hx)), hleft]
  rfl

/-! ## Traces -/

/-- The byte that a machine has come to is the first of its trace. -/
theorem trace_reached_succ {s s' : Store} {pos r k : Nat} {written : Option Char}
    (hm : m.stepLimit = none) (hpos : pos < m.program.size)
    (hx : (m.running s pos k).execute (m.program.instructionAt? pos)
      = (.ok written, m.running s' r k)) (n : Nat) :
    (m.reached s pos k).trace (n + 1)
      = ⟨pos, s'⟩ :: (m.reached s' (r + 1) (k + 1)).trace n := by
  rw [trace, event?_reached hm hpos hx, next_reached hm hpos hx]
  rfl

/-- What two stretches of a run carry out is carried out one after the other. -/
theorem trace_add (m : Machine) (n d : Nat) :
    m.trace (n + d) = m.trace n ++ (next^[n] m).trace d := by
  induction n generalizing m with
  | zero => rw [Nat.zero_add, trace, List.nil_append, Function.iterate_zero_apply]
  | succ n ih =>
      rw [Nat.succ_add, trace, trace, ih, Function.iterate_succ_apply, List.append_assoc]

/-- A beginning of a trace is the trace of a beginning. -/
theorem exists_trace_eq_of_prefix {l : List Event} {n : Nat} (h : l <+: m.trace n) :
    ∃ k, m.trace k = l := by
  induction n generalizing m l with
  | zero => exact ⟨0, (List.prefix_nil.mp h).symm⟩
  | succ n ih =>
      rw [trace] at h
      cases he : m.event? with
      | none =>
          rw [he] at h
          obtain ⟨k, hk⟩ := ih h
          refine ⟨k + 1, ?_⟩
          rw [trace, he, hk]
          rfl
      | some e =>
          rw [he] at h
          rcases List.prefix_cons_iff.mp h with rfl | ⟨l', rfl, hl'⟩
          · exact ⟨0, rfl⟩
          · obtain ⟨k, hk⟩ := ih hl'
            refine ⟨k + 1, ?_⟩
            rw [trace, he, hk]
            rfl

/-- A machine counts the bytes of its trace. -/
theorem steps_iterate_eq (m : Machine) (n : Nat) :
    (next^[n] m).steps = m.steps + (m.trace n).length := by
  induction n generalizing m with
  | zero => rfl
  | succ n ih =>
      rw [Function.iterate_succ_apply, ih, trace, List.length_append]
      rcases m.event?_cases with ⟨he, -, -, hs⟩ | ⟨he, hs⟩
      · rw [he, hs, Option.toList_none, List.length_nil]
        omega
      · rw [he, hs, Option.toList_some, List.length_singleton]
        omega

/-- A machine at rest carries out nothing. -/
theorem AtRest.event?_eq_none (h : m.AtRest status) : m.event? = none := by
  rcases m.event?_cases with ⟨he, -⟩ | ⟨-, hs⟩
  · exact he
  · rw [h.stays] at hs
    omega

/-- A run that never ceases to carry out bytes never ends. -/
theorem runsForever_of_events (h : ∀ N, ∃ n, N ≤ n ∧ (next^[n] m).event? ≠ none) :
    m.RunsForever := by
  intro N
  by_contra hN
  obtain ⟨k, -, hend, -⟩ := exists_first_end hN rfl
  obtain ⟨n, hn, he⟩ := h (k + 1)
  refine he ?_
  -- behind the end the machine is the same at any later time
  have hrest := atRest_next hend
  obtain ⟨d, rfl⟩ := Nat.exists_eq_add_of_le' hn
  rw [Function.iterate_add_apply, Function.iterate_succ_apply', hrest.iterate_eq]
  exact hrest.event?_eq_none

/-! ## Stuttering -/

/-- The next step ends the run, without carrying out anything. -/
structure Over (m : Machine) (status : RunStatus) : Prop where
  ends : endOf m.step.1 = some status
  idle : m.event? = none

/-- A machine that is done is over. -/
theorem over_of_done (h : m.halted = true ∨ m.program.size = 0) : m.Over .finished where
  ends := by rw [step_of_done h, endOf]
  idle := event?_of_done h

theorem over_of_error {f : Fault} (h : m.step.1 = .error f) : m.Over (.failed f) where
  ends := by rw [h, endOf]
  idle := event?_of_error h

theorem Over.over_next (h : m.Over status) : m.next.Over status where
  ends := (atRest_next h.ends).ends
  idle := (atRest_next h.ends).event?_eq_none

/-- A run that comes to such a machine ends there. -/
theorem ends_of_over {n : Nat} (h : (next^[n] m).Over status) :
    m.Ends status (next^[n + 1] m) :=
  ends_iff.mpr ⟨n, h.ends, rfl⟩

/-- The step that ends the run does not change the store. -/
theorem Over.store_next (h : m.Over status) : m.next.store = m.store := by
  rcases m.event?_cases with ⟨-, -, hs, -⟩ | ⟨he, -⟩
  · exact hs
  · rw [h.idle] at he
    cases he

/-- It does not move the program counter. -/
theorem Over.pc_next (h : m.Over status) : m.next.state.pc = m.state.pc := by
  rcases m.step_cases with ⟨-, hs⟩ | ⟨f, hs⟩ | ⟨written, s, far, hr, -, hs⟩
  · rw [next, hs]
  · rw [next, hs]
  · have hevent := hr.event?_of_ok (congrArg Prod.fst hs)
    rw [h.idle] at hevent
    cases hevent

/-- While `R` relates `a` to `b`, a step of `b` is matched by one or more steps
    of `a`, which starts each of them at a place where `way` holds.  When the run
    of the one is over, so is that of the other, and what they leave is `same`. -/
structure Simulates (R : Machine → Machine → Prop) (way : Machine → Prop)
    (same : RunStatus → Store → RunStatus → Store → Prop) : Prop where
  step {a b : Machine} : R a b → ∃ d, 0 < d ∧ R (next^[d] a) b.next ∧
    ∀ i, i < d → way (next^[i] a)
  meets {a b : Machine} : R a b →
    (∃ status status', a.Over status ∧ b.Over status' ∧ same status a.store status' b.store) ∨
    (a.event? ≠ none ∧ b.event? ≠ none)

namespace Simulates

variable {R : Machine → Machine → Prop} {way : Machine → Prop}
  {same : RunStatus → Store → RunStatus → Store → Prop} {a b : Machine} {d : Nat}
  (sim : Simulates R way same)
include sim

section Started

variable (h : R (next^[d] a) b)
include h

/-- However far the second machine has come, the first comes there as well. -/
theorem exists_iterate (k : Nat) : ∃ n, k ≤ n ∧ R (next^[n] a) (next^[k] b) := by
  induction k with
  | zero => exact ⟨d, Nat.zero_le d, h⟩
  | succ k ih =>
      obtain ⟨n, hn, hR⟩ := ih
      obtain ⟨d', hd', hR', -⟩ := sim.step hR
      refine ⟨d' + n, by omega, ?_⟩
      rw [Function.iterate_add_apply, Function.iterate_succ_apply']
      exact hR'

/-- Both runs end and leave the same, or neither does. -/
theorem ends_or_forever :
    (∃ status status' a' b', a.Ends status a' ∧ b.Ends status' b' ∧
      same status a'.store status' b'.store) ∨ (a.RunsForever ∧ b.RunsForever) := by
  by_cases hover : ∃ k, (next^[k] b).event? = none
  · obtain ⟨k, hk⟩ := hover
    obtain ⟨n, -, hR⟩ := sim.exists_iterate h k
    rcases sim.meets hR with ⟨status, status', ha, hb, hs⟩ | ⟨-, hb⟩
    · refine Or.inl ⟨status, status', next^[n + 1] a, next^[k + 1] b, ends_of_over ha,
        ends_of_over hb, ?_⟩
      rw [Function.iterate_succ_apply', Function.iterate_succ_apply', ha.store_next,
        hb.store_next]
      exact hs
    · exact absurd hk hb
  · have hb : ∀ k, (next^[k] b).event? ≠ none := fun k hk => hover ⟨k, hk⟩
    refine Or.inr ⟨runsForever_of_events ?_, runsForever_of_events ?_⟩
    · intro N
      obtain ⟨n, hn, hR⟩ := sim.exists_iterate h N
      rcases sim.meets hR with ⟨_, _, _, hidle, -⟩ | ⟨ha, -⟩
      · exact absurd hidle.idle (hb N)
      · exact ⟨n, hn, ha⟩
    · intro N
      exact ⟨N, Nat.le_refl N, hb N⟩

/-- If the run of the second machine ends, so does that of the first, and what they leave is
    `same`. -/
theorem exists_ends_left {status' : RunStatus} {b' : Machine} (hb : b.Ends status' b') :
    ∃ status a', a.Ends status a' ∧ same status a'.store status' b'.store := by
  rcases sim.ends_or_forever h with ⟨status, status₁, a', b₁, ha, hb₁, hs⟩ | ⟨-, hforever⟩
  · obtain ⟨rfl, rfl⟩ := hb.unique hb₁
    exact ⟨status, a', ha, hs⟩
  · exact absurd hforever hb.not_runsForever

theorem exists_ends_right {status : RunStatus} {a' : Machine} (ha : a.Ends status a') :
    ∃ status' b', b.Ends status' b' ∧ same status a'.store status' b'.store := by
  rcases sim.ends_or_forever h with ⟨status₁, status', a₁, b', ha₁, hb, hs⟩ | ⟨hforever, -⟩
  · obtain ⟨rfl, rfl⟩ := ha.unique ha₁
    exact ⟨status', b', hb, hs⟩
  · exact absurd hforever ha.not_runsForever

/-- One runs forever exactly if the other does. -/
theorem runsForever_iff : a.RunsForever ↔ b.RunsForever := by
  rcases sim.ends_or_forever h with ⟨status, status', a', b', ha, hb, -⟩ | ⟨ha, hb⟩
  · constructor
    · intro hforever
      exact absurd hforever ha.not_runsForever
    · intro hforever
      exact absurd hforever hb.not_runsForever
  · exact ⟨fun _ => hb, fun _ => ha⟩

end Started

/-- The one machine never leaves the way. -/
theorem forall_iterate (h : R (next^[d] a) b) (hd : ∀ i, i < d → way (next^[i] a)) (n : Nat) :
    way (next^[n] a) := by
  -- each step of `b` takes one or more of the `n` steps away
  induction n using Nat.strong_induction_on generalizing a b d with
  | h n ih =>
      by_cases hn : n < d
      · exact hd n hn
      · obtain ⟨left, rfl⟩ := Nat.exists_eq_add_of_le' (Nat.not_lt.mp hn)
        obtain ⟨d', hd', hR', hway⟩ := sim.step h
        rw [Function.iterate_add_apply]
        by_cases hleft : left < d'
        · exact hway left hleft
        · obtain ⟨rest, rfl⟩ := Nat.exists_eq_add_of_le' (Nat.not_lt.mp hleft)
          rw [Function.iterate_add_apply]
          exact ih rest (by omega) (d := 0) hR' nofun

end Simulates

/-- While `R` relates `a` to `b`, a step of `b` is matched by one or more steps
    of `a`, which carry out the same but for what `keep` drops.  When the run of
    the one is over, so is that of the other, the status being renamed. -/
structure Stutters (R : Machine → Machine → Prop) (keep : Event → Option Event)
    (rename : RunStatus → RunStatus) : Prop where
  step {a b : Machine} : R a b → ∃ d, 0 < d ∧ R (next^[d] a) b.next ∧
    (a.trace d).filterMap keep = b.event?.toList
  meets {a b : Machine} : R a b →
    (∃ status, a.Over status ∧ b.Over (rename status) ∧ a.store = b.store) ∨
    (a.event? ≠ none ∧ b.event? ≠ none)

namespace Stutters

variable {R : Machine → Machine → Prop} {keep : Event → Option Event}
  {rename : RunStatus → RunStatus} {a b : Machine} {d : Nat}
  (sim : Stutters R keep rename)
include sim

/-- A stuttering run is a simulation that leaves equal stores. -/
theorem simulates : Simulates R (fun _ => True)
    (fun status s status' s' => status' = rename status ∧ s = s') where
  step := by
    intro a b hR
    obtain ⟨d, hd, hR', -⟩ := sim.step hR
    exact ⟨d, hd, hR', fun _ _ => trivial⟩
  meets := by
    intro a b hR
    rcases sim.meets hR with ⟨status, ha, hb, hs⟩ | hevents
    · exact Or.inl ⟨status, rename status, ha, hb, rfl, hs⟩
    · exact Or.inr hevents

section Traces

variable (hd : (a.trace d).filterMap keep = []) (h : R (next^[d] a) b)
include hd h

/-- However far the second machine has come, the first comes there as well, and has then
    carried out the same but for what is dropped. -/
theorem exists_iterate (k : Nat) : ∃ n, k ≤ n ∧ R (next^[n] a) (next^[k] b) ∧
    (a.trace n).filterMap keep = b.trace k := by
  induction k with
  | zero => exact ⟨d, Nat.zero_le d, h, hd⟩
  | succ k ih =>
      obtain ⟨n, hn, hR, htrace⟩ := ih
      obtain ⟨d', hd', hR', htrace'⟩ := sim.step hR
      refine ⟨d' + n, by omega, ?_, ?_⟩
      · rw [Function.iterate_add_apply, Function.iterate_succ_apply']
        exact hR'
      · rw [Nat.add_comm d' n, trace_add, trace_add, List.filterMap_append, htrace, htrace',
          trace, trace, List.append_nil]

/-- Every beginning of the one trace is matched by one of the other. -/
theorem exists_trace_eq (n : Nat) : ∃ k, b.trace k = (a.trace n).filterMap keep := by
  obtain ⟨n', hn', -, htrace⟩ := sim.exists_iterate hd h n
  obtain ⟨c, rfl⟩ := Nat.exists_eq_add_of_le hn'
  rw [trace_add, List.filterMap_append] at htrace
  exact exists_trace_eq_of_prefix ⟨_, htrace⟩

end Traces

/-- The ends of the one run are the ends of the other, renamed. -/
theorem ends_iff (h : R (next^[d] a) b) {status' : RunStatus} {s : Store} :
    (∃ b', b.Ends status' b' ∧ b'.store = s) ↔
      ∃ status a', a.Ends status a' ∧ a'.store = s ∧ status' = rename status := by
  constructor
  · rintro ⟨b', hb', rfl⟩
    obtain ⟨status, a', ha', rename_eq, hs⟩ := sim.simulates.exists_ends_left h hb'
    exact ⟨status, a', ha', hs, rename_eq⟩
  · rintro ⟨status, a', ha', rfl, rename_eq⟩
    obtain ⟨status', b', hb', rfl, hs⟩ := sim.simulates.exists_ends_right h ha'
    rw [rename_eq]
    exact ⟨b', hb', hs.symm⟩

end Stutters

end Machine

end TapeMachine
