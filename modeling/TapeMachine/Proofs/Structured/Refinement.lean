import TapeMachine.Proofs.Structured.Reached

/-! # The machine carries out the nesting

    A machine knows nothing of loops: it has a program counter that moves on or
    jumps.  By induction on the execution, a block that comes to its end is done
    by as many steps as it costs (`exists_iterate_of_exec`); a block that
    diverges takes the machine to another one that does
    (`DivergesFrom.exists_iterate`), so the run never ends.  Since every block
    does the one or the other, and a run goes only one way, nothing is lost in
    the other direction (`run_refines_nesting`).

    A loop is tested in two places: at its `[` before the body, at its `]` after
    it.  From either the machine goes on behind the `[` or behind the `]`, so
    both count as its beginning (`Block.Entry`). -/

namespace TapeMachine

/-- The status of a run that does a block to its end. -/
def Ending.status : Ending → RunStatus
  | finished => .finished
  | aborted f => .failed f

/-- The status tells how a block came to its end. -/
theorem Ending.status_injective {e e' : Ending} (h : e.status = e'.status) : e = e' := by
  cases e with
  | finished =>
      cases e' with
      | finished => rfl
      | aborted f => cases h
  | aborted f =>
      cases e' with
      | finished => cases h
      | aborted f' =>
          cases h
          rfl

/-- Where a machine may stand that is about to do a block. -/
def Block.Entry (pos : Nat) : Block → Nat → Prop
  | loop body _, q => q = pos ∨ q = pos + 1 + body.size
  | _, q => q = pos

/-- A machine may stand at the first byte of a block. -/
theorem Block.entry_self (pos : Nat) (b : Block) : b.Entry pos pos := by
  cases b with
  | done => rfl
  | byte c plain next => rfl
  | loop body next => exact Or.inl rfl

namespace Machine

variable {m : Machine} {s t : Store} {pos q k : Nat}

/-! ## A block that comes to its end -/

/-- The place `r` is where a block ends with `e`: at `stop`, behind the block,
    or at a byte that cannot be done. -/
def EndsAt (m : Machine) (e : Ending) (stop : Nat) (t : Store) (r steps : Nat) : Prop :=
  match e with
  | .finished => r = stop
  | .aborted f => (m.reached t r steps).step.1 = .error f

/-- A block that comes to its end is done by as many steps as it costs. -/
theorem exists_iterate_of_exec {b : Block} {e : Ending} {stop cost k' : Nat}
    (hm : m.stepLimit = none) (h : b.Exec m.state.mode pos s e t cost)
    (hb : b.PlacedAt m.program.code.toList pos) (hq : b.Entry pos q)
    (hstop : pos + b.size = stop) (hk : k + cost = k') :
    ∃ r, next^[cost] (m.reached s q k) = m.reached t r k' ∧ m.EndsAt e stop t r k' := by
  -- on the execution; a loop that goes on is entered at its `]`, so `q` varies
  induction h generalizing q k k' stop with
  | done =>
      obtain rfl : k = k' := hk
      exact ⟨q, rfl, hq.trans hstop⟩
  | @byte pos b plain next s s' t e cost act rest ih =>
      obtain ⟨hbyte, hnext⟩ := hb
      obtain rfl : q = pos := hq
      have hstep := next_reached_of_act (k := k) hm hbyte plain act
      rw [Function.iterate_succ_apply, hstep]
      rw [Block.size_byte] at hstop
      exact ih hnext (next.entry_self (q + 1)) (by omega) (by omega)
  | @abort pos b plain next s f act =>
      obtain rfl : q = pos := hq
      obtain rfl : k = k' := hk
      exact ⟨q, rfl, step_reached_of_act hm hb.1 plain act⟩
  | @skip pos body next s t e cost zero rest ih =>
      obtain ⟨hpair, hbody, hnext⟩ := hb
      have hstep := next_reached_of_zero (k := k) hm zero hpair hq
      rw [Function.iterate_succ_apply, hstep]
      rw [Block.size_loop] at hstop
      exact ih hnext (next.entry_self _) (by omega) (by omega)
  | @again pos body next s s' t e cost cost' nonzero round rest ihround ihrest =>
      have hloop := hb
      obtain ⟨hpair, hbody, hnext⟩ := hb
      have hstep := next_reached_of_nonzero (k := k) hm nonzero hpair hq
      -- the body leaves the machine at the `]`, where the loop is tested again
      obtain ⟨r, hround, rfl⟩ := ihround (k := k + 1) hbody (body.entry_self _) rfl rfl
      have hsteps : 1 + cost + cost' = cost' + (cost + 1) := by omega
      rw [hsteps, Function.iterate_add_apply, Function.iterate_succ_apply, hstep, hround]
      exact ihrest hloop (Or.inr rfl) hstop (by omega)
  | @abortInside pos body next s t f cost nonzero round ih =>
      obtain ⟨hpair, hbody, hnext⟩ := hb
      have hstep := next_reached_of_nonzero (k := k) hm nonzero hpair hq
      rw [Nat.add_comm 1 cost, Function.iterate_succ_apply, hstep]
      have hcost : k + 1 + cost = k' := by omega
      obtain ⟨r, hround, hend⟩ := ih hbody (body.entry_self _) rfl hcost
      exact ⟨r, hround, hend⟩

/-! ## A block that does not -/

/-- At `q` begins a block that diverges with the store `s`. -/
def DivergesFrom (m : Machine) (s : Store) (q : Nat) : Prop :=
  ∃ (pos : Nat) (b : Block), b.Diverges m.state.mode pos s ∧
    b.PlacedAt m.program.code.toList pos ∧ b.Entry pos q

/-- By at least one step the machine comes to another block that diverges. -/
theorem DivergesFrom.exists_iterate (hm : m.stepLimit = none) (h : m.DivergesFrom s q) :
    ∃ n s' q', 0 < n ∧ m.DivergesFrom s' q' ∧
      next^[n] (m.reached s q k) = m.reached s' q' (k + n) := by
  obtain ⟨pos, b, h, hb, hq⟩ := h
  cases h with
  | @byte _ c plain next _ s' act rest =>
      obtain ⟨hbyte, hnext⟩ := hb
      obtain rfl : q = pos := hq
      refine ⟨1, s', q + 1, Nat.one_pos, ?_, next_reached_of_act hm hbyte plain act⟩
      exact ⟨q + 1, next, rest, hnext, next.entry_self (q + 1)⟩
  | @skip _ body next _ zero rest =>
      obtain ⟨hpair, hbody, hnext⟩ := hb
      have hstep := next_reached_of_zero (k := k) hm zero hpair hq
      refine ⟨1, s.touch, _, Nat.one_pos, ?_, hstep⟩
      exact ⟨_, next, rest, hnext, next.entry_self _⟩
  | @again _ body next _ s' cost nonzero round rest =>
      have hloop := hb
      obtain ⟨hpair, hbody, hnext⟩ := hb
      have hstep := next_reached_of_nonzero (k := k) hm nonzero hpair hq
      obtain ⟨r, hround, rfl⟩ :=
        exists_iterate_of_exec (k := k + 1) hm round hbody (body.entry_self _) rfl rfl
      refine ⟨cost + 1, s', _, Nat.succ_pos cost,
        ⟨pos, .loop body next, rest, hloop, Or.inr rfl⟩, ?_⟩
      have hsteps : k + (cost + 1) = k + 1 + cost := by omega
      rw [Function.iterate_succ_apply, hstep, hround, hsteps]
  | @inside _ body next _ nonzero rest =>
      obtain ⟨hpair, hbody, hnext⟩ := hb
      have hstep := next_reached_of_nonzero (k := k) hm nonzero hpair hq
      refine ⟨1, s.touch, _, Nat.one_pos, ?_, hstep⟩
      exact ⟨_, body, rest, hbody, body.entry_self _⟩

/-- So the machine never stops counting. -/
theorem DivergesFrom.exists_steps (hm : m.stepLimit = none) (h : m.DivergesFrom s q) (N : Nat) :
    ∃ n, N ≤ n ∧ (next^[n] (m.reached s q k)).steps = k + n := by
  induction N generalizing s q k with
  | zero => exact ⟨0, Nat.le_refl 0, steps_reached⟩
  | succ N ih =>
      obtain ⟨n, s', q', hn, h', hreach⟩ := h.exists_iterate hm
      obtain ⟨n', hn', hsteps⟩ := ih h'
      refine ⟨n' + n, by omega, ?_⟩
      rw [Function.iterate_add_apply, hreach, hsteps]
      omega

/-! ## Whole runs -/

variable {b : Block} {e : Ending} {cost : Nat}

/-- If the block comes to an end, the run of the machine ends so, with the same store and cost. -/
theorem ends_of_exec (hm : m.stepLimit = none) (hb : b.bytes = m.program.code.toList)
    (h : b.Exec m.state.mode 0 s e t cost) :
    ∃ m', (m.reached s 0 0).Ends e.status m' ∧ m'.store = t ∧ m'.steps = cost := by
  have hplaced : b.PlacedAt m.program.code.toList 0 := by
    rw [← hb]
    exact b.placedAt_bytes
  have hsize : 0 + b.size = m.program.size := by
    rw [Nat.zero_add, Block.size, hb, Array.length_toList, Program.size]
  obtain ⟨r, hreach, hend⟩ :=
    exists_iterate_of_exec hm h hplaced (b.entry_self 0) hsize (Nat.zero_add cost)
  cases e with
  | finished =>
      obtain rfl : r = m.program.size := hend
      exact ends_of_reached_size hreach
  | aborted f => exact ends_of_reached_error hreach hend

/-- If the block diverges, the machine runs forever. -/
theorem runsForever_of_diverges (hm : m.stepLimit = none)
    (hb : b.bytes = m.program.code.toList) (h : b.Diverges m.state.mode 0 s) :
    (m.reached s 0 0).RunsForever := by
  have hfrom : m.DivergesFrom s 0 := by
    refine ⟨0, b, h, ?_, b.entry_self 0⟩
    rw [← hb]
    exact b.placedAt_bytes
  refine runsForever_of_steps ?_
  intro N
  obtain ⟨n, hn, hsteps⟩ := hfrom.exists_steps (k := 0) hm N
  exact ⟨n, hn, hsteps⟩

/-- The ends of a run are the ends of its block: each way for the block to go has
    its way for the run, and a run goes only one way. -/
theorem exec_iff_ends (hm : m.stepLimit = none) (hb : b.bytes = m.program.code.toList) :
    b.Exec m.state.mode 0 s e t cost ↔
      ∃ m', (m.reached s 0 0).Ends e.status m' ∧ m'.store = t ∧ m'.steps = cost := by
  constructor
  · intro h
    exact ends_of_exec hm hb h
  · rintro ⟨m', hends, rfl, rfl⟩
    rcases b.exec_or_diverges m.state.mode 0 s with ⟨e', t', cost', h⟩ | h
    · obtain ⟨m'', hends', rfl, rfl⟩ := ends_of_exec hm hb h
      obtain ⟨hstatus, rfl⟩ := hends.unique hends'
      rw [Ending.status_injective hstatus]
      exact h
    · exact absurd (runsForever_of_diverges hm hb h) hends.not_runsForever

/-- The block diverges exactly if the machine runs forever. -/
theorem diverges_iff_runsForever (hm : m.stepLimit = none)
    (hb : b.bytes = m.program.code.toList) :
    b.Diverges m.state.mode 0 s ↔ (m.reached s 0 0).RunsForever := by
  constructor
  · intro h
    exact runsForever_of_diverges hm hb h
  · intro hforever
    rcases b.exec_or_diverges m.state.mode 0 s with ⟨e, t, cost, h⟩ | h
    · obtain ⟨m', hends, -, -⟩ := ends_of_exec hm hb h
      exact absurd hforever hends.not_runsForever
    · exact h

/-- A machine about to run a program, however many steps it takes. -/
def loadUnlimited (p : Program) (mode : CellMode) (matching : Matching) : Machine :=
  load p { cellMode := mode, matching := matching, stepLimit := none }

/-- A program whose nesting comes to its end does so, in as many steps as that costs. -/
theorem ends_of_exec_load {p : Program} {mode : CellMode} (hb : b.bytes = p.code.toList)
    (h : b.Exec mode 0 {} e t cost) (matching : Matching) :
    ∃ m, (loadUnlimited p mode matching).Ends e.status m ∧ m.store = t ∧ m.steps = cost := by
  have hstart : (loadUnlimited p mode matching).reached {} 0 0
      = loadUnlimited p mode matching := reached_load p _
  rw [← hstart]
  exact ends_of_exec rfl hb h

/-- **The machine carries out structured loops.**  Every program has exactly one
    nesting.  Run without a step limit, in either cell mode and with either way
    of matching, a machine loaded with it finishes, fails or runs forever as the
    nesting finishes, is aborted by the same fault, or diverges.  If the run
    ends, it leaves the allocated tape, the data pointer and the output that the
    nesting leaves, and has counted as many steps as the nesting costs. -/
theorem run_refines_nesting (p : Program) (mode : CellMode) (matching : Matching) :
    (∃! b : Block, b.bytes = p.code.toList) ∧
    ∀ b : Block, b.bytes = p.code.toList →
      (∀ t cost, b.Exec mode 0 {} .finished t cost ↔
        ∃ m, (loadUnlimited p mode matching).Ends .finished m ∧
          m.store = t ∧ m.steps = cost) ∧
      (∀ f t cost, b.Exec mode 0 {} (.aborted f) t cost ↔
        ∃ m, (loadUnlimited p mode matching).Ends (.failed f) m ∧
          m.store = t ∧ m.steps = cost) ∧
      (b.Diverges mode 0 {} ↔ (loadUnlimited p mode matching).RunsForever) := by
  refine ⟨Block.existsUnique_bytes_iff.mpr p.balanced, ?_⟩
  intro b hb
  have hb : b.bytes = (loadUnlimited p mode matching).program.code.toList := hb
  have hstart : (loadUnlimited p mode matching).reached {} 0 0
      = loadUnlimited p mode matching := reached_load p _
  rw [← hstart]
  refine ⟨?_, ?_, ?_⟩
  · intro t cost
    exact exec_iff_ends rfl hb
  · intro f t cost
    exact exec_iff_ends rfl hb
  · exact diverges_iff_runsForever rfl hb

end Machine

end TapeMachine
