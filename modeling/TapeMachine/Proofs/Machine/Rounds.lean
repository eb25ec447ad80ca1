import TapeMachine.Proofs.Bracket.Agreement
import TapeMachine.Proofs.Machine.ControlFlow
import TapeMachine.Proofs.Structured.Refinement

/-! # Rounds of a loop

    A loop begins a ROUND when it is tested and its cell is not zero.  If the body
    of the loop ends with a `]`, control comes to the end of the body with a zero
    cell only, so each execution of the loop has one round at most.  A second one
    takes a second execution: in between, control has come to the end of the
    innermost loop around it (`exists_end_between_rounds`).

    The program counter moves on, or jumps from one end of a loop behind the other
    (`Moves`).  As long as it moves between the `[` of a loop and the end of the
    innermost loop around it, no jump takes it back in front of that `[`
    (`Moves.ahead_or_at_end`). -/

namespace TapeMachine

open TapeMachine.Bracket

/-! ## Where the program counter moves -/

/-- The moves of a program counter in a text. -/
inductive Moves (l : List UInt8) : Nat → Nat → Prop where
  /-- A step that fails does not move it. -/
  | stay {pos : Nat} : Moves l pos pos
  | on {pos : Nat} : Moves l pos (pos + 1)
  | skip {i j : Nat} (pair : Matched l i j) : Moves l i (j + 1)
  | back {i j : Nat} (pair : Matched l i j) : Moves l j (i + 1)

/-- What a byte does, and going on behind it, is a move. -/
theorem Effect.moves {p : Program} {s s' : State} {far far' : Nat} {written : Option Char}
    (h : Effect p s far written s' far') : Moves p.code.toList s.pc (s'.pc + 1) := by
  cases h with
  | comment here => exact .on
  | moveRight here => exact .on
  | moveLeft here above => exact .on
  | increment here => exact .on
  | decrement here => exact .on
  | output here char => exact .on
  | @loopOpen j here pair =>
      show Moves _ s.pc ((if s.cell = 0 then j else s.pc) + 1)
      split
      · exact .skip pair
      · exact .on
  | @loopClose i here pair =>
      show Moves _ s.pc ((if s.cell = 0 then s.pc else i) + 1)
      split
      · exact .on
      · exact .back pair

/-- A step that does not halt the machine is a move. -/
theorem Machine.moves_next {m : Machine} (h : m.next.halted = false) :
    Moves m.program.code.toList m.state.pc m.next.state.pc := by
  rw [next] at h ⊢
  rcases m.step_cases with ⟨-, hs⟩ | ⟨f, hs⟩ | ⟨written, s, far, -, heffect, hs⟩
  · rw [hs] at h
    cases h
  · rw [hs]
    exact .stay
  · rw [hs] at h ⊢
    rw [advance] at h ⊢
    split at h
    · cases h
    · rename_i hmore
      rw [if_neg hmore]
      exact heffect.moves

/-! ## The innermost loop around a loop -/

/-- The loop at `I` and `J` is the innermost one around the loop at `i` and `j`. -/
structure InnermostAround (l : List UInt8) (i j I J : Nat) : Prop where
  matched : Matched l I J
  open_lt : I < i
  close_gt : j < J
  least : ∀ I' J', Matched l I' J' → I' < i → j < J' → J ≤ J'

/-- The position is behind the `[` at `i`, and inside every loop around the loop at `i` and `j`. -/
structure Ahead (l : List UInt8) (i j pos : Nat) : Prop where
  behind : i < pos
  inside : ∀ I J, Matched l I J → I < i → j < J → pos < J

variable {l : List UInt8} {i j pos pos' : Nat}

/-- No move leads back, and none leads out but over the end of a loop around. -/
theorem Moves.bounds (hmove : Moves l pos pos') (hpair : Matched l i j)
    (h : Ahead l i j pos) :
    i < pos' ∧ ∀ I J, Matched l I J → I < i → j < J → pos' ≤ J := by
  have behind := h.behind
  cases hmove with
  | stay => exact ⟨behind, fun I J hm hI hJ => Nat.le_of_lt (h.inside I J hm hI hJ)⟩
  | on => exact ⟨Nat.lt_succ_of_lt behind, h.inside⟩
  | @skip _ q pair =>
      refine ⟨Nat.lt_succ_of_lt (Nat.lt_trans behind pair.lt), ?_⟩
      intro I J hm hI hJ
      have := h.inside I J hm hI hJ
      rcases hm.apart_or_inside pair (Nat.lt_trans hI behind) with hapart | hinside
      · omega
      · exact hinside
  | @back r _ pair =>
      refine ⟨?_, ?_⟩
      · by_contra hback
        -- the loop that jumps back is around, and the position was inside of it
        have hr : r < i := by omega
        rcases pair.apart_or_inside hpair hr with hapart | haround
        · omega
        · exact Nat.lt_irrefl pos (h.inside r pos pair hr haround)
      · intro I J hm hI hJ
        have := h.inside I J hm hI hJ
        have := pair.lt
        omega

/-- A move keeps ahead, or leads to the end of the innermost loop around. -/
theorem Moves.ahead_or_at_end (hmove : Moves l pos pos') (hpair : Matched l i j)
    (h : Ahead l i j pos) : Ahead l i j pos' ∨ ∃ I J, InnermostAround l i j I J ∧ pos' = J := by
  obtain ⟨behind, inside⟩ := hmove.bounds hpair h
  by_cases hend : ∃ I J, Matched l I J ∧ I < i ∧ j < J ∧ pos' = J
  · obtain ⟨I, J, hm, hI, hJ, rfl⟩ := hend
    exact Or.inr ⟨I, pos', ⟨hm, hI, hJ, inside⟩, rfl⟩
  · refine Or.inl ⟨behind, ?_⟩
    intro I J hm hI hJ
    refine Nat.lt_of_le_of_ne (inside I J hm hI hJ) ?_
    rintro rfl
    exact hend ⟨I, pos', hm, hI, hJ, rfl⟩

namespace Machine

/-! ## Rounds -/

/-- The machine is at a test of the loop at `i` and `j`, and the cell is not zero. -/
structure BeginsRound (m : Machine) (i j : Nat) : Prop where
  running : m.halted = false
  at_test : m.state.pc = i ∨ m.state.pc = j
  nonzero : m.state.cell ≠ 0

variable {m : Machine}

/-- A round that has begun takes control to the beginning of the body. -/
theorem BeginsRound.next_pc (h : m.BeginsRound i j) (hm : m.stepLimit = none)
    (hpair : Matched m.program.code.toList i j) : m.next.state.pc = i + 1 := by
  have nonzero : m.store.cell ≠ 0 := h.nonzero
  have hlt := lt_size_of_test hpair h.at_test
  rw [← reached_store h.running hlt, next_reached_of_nonzero hm nonzero hpair h.at_test,
    reached_of_lt (Nat.lt_of_le_of_lt hpair.lt hpair.close_lt)]
  rfl

/-- If its body ends with a `]`, a loop begins its rounds at its `[` only. -/
theorem BeginsRound.at_open (h : m.BeginsRound i (j + 1)) (hm : m.InControl)
    (hlast : m.program.code[j]? = some closeByte) : m.state.pc = i := by
  rcases h.at_test with hpc | hpc
  · exact hpc
  · exact absurd ((hm.behind h.running j hpc).closed hlast) h.nonzero

/-- A machine that is ahead keeps ahead until it is at the end of the innermost loop around. -/
theorem ahead_or_at_end (hpair : Matched m.program.code.toList i j)
    (h : Ahead m.program.code.toList i j m.state.pc) {n : Nat}
    (running : (next^[n] m).halted = false) :
    Ahead m.program.code.toList i j (next^[n] m).state.pc ∨
      ∃ I J k, InnermostAround m.program.code.toList i j I J ∧ k ≤ n ∧
        (next^[k] m).state.pc = J := by
  induction n with
  | zero => exact Or.inl h
  | succ n ih =>
      rw [Function.iterate_succ_apply'] at running ⊢
      rcases ih (running_of_next running) with hahead | ⟨I, J, k, hI, hk, hpc⟩
      · have hmove := moves_next running
        rw [iterate_program] at hmove
        rcases hmove.ahead_or_at_end hpair hahead with hnext | ⟨I, J, hI, hpc⟩
        · exact Or.inl hnext
        · refine Or.inr ⟨I, J, n + 1, hI, Nat.le_refl _, ?_⟩
          rw [Function.iterate_succ_apply']
          exact hpc
      · exact Or.inr ⟨I, J, k, hI, Nat.le_succ_of_le hk, hpc⟩

/-- Between two rounds of a loop whose body ends with a `]`, control has been at
    the end of the innermost loop around it; so there is such a loop. -/
theorem exists_end_between_rounds {a b : Nat} (hm : m.stepLimit = none) (hin : m.InControl)
    (hpair : Matched m.program.code.toList i (j + 1))
    (hlast : m.program.code[j]? = some closeByte) (hab : a < b)
    (ha : (next^[a] m).BeginsRound i (j + 1)) (hb : (next^[b] m).BeginsRound i (j + 1)) :
    ∃ I J k, InnermostAround m.program.code.toList i (j + 1) I J ∧ a < k ∧ k < b ∧
      (next^[k] m).state.pc = J := by
  obtain ⟨n, rfl⟩ := Nat.exists_eq_add_of_le' hab
  have hb_pc := hb.at_open (hin.iterate _) (by rw [iterate_program]; exact hlast)
  have hstart : (next^[a + 1] m).state.pc = i + 1 := by
    rw [Function.iterate_succ_apply']
    refine ha.next_pc ?_ ?_
    · rw [iterate_stepLimit, hm]
    · rw [iterate_program]
      exact hpair
  have hahead : Ahead m.program.code.toList i (j + 1) (next^[a + 1] m).state.pc := by
    rw [hstart]
    refine ⟨Nat.lt_succ_self i, ?_⟩
    intro I J _ _ hJ
    exact Nat.lt_of_le_of_lt hpair.lt hJ
  have hrun := hb.running
  rw [Function.iterate_add_apply] at hb_pc hrun
  have hcases := ahead_or_at_end (m := next^[a + 1] m) (i := i) (j := j + 1) (n := n)
  rw [iterate_program] at hcases
  rcases hcases hpair hahead hrun with hback | ⟨I, J, k, hI, hk, hpc⟩
  · -- the second round begins at the `[`, which is not ahead of itself
    rw [hb_pc] at hback
    exact absurd hback.behind (Nat.lt_irrefl i)
  · rw [← Function.iterate_add_apply] at hpc
    refine ⟨I, J, k + (a + 1), hI, by omega, ?_, hpc⟩
    -- at the time of the second round control is at the `[`, not at the end
    refine Nat.lt_of_le_of_ne (by omega) ?_
    intro hlast_time
    have hJ := hI.close_gt
    have hij := hpair.lt
    rw [hlast_time, Function.iterate_add_apply, hb_pc] at hpc
    omega

end Machine

end TapeMachine
