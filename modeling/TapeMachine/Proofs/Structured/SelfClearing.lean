import TapeMachine.Proofs.Machine.Rounds
import TapeMachine.Proofs.Structured.CountingLoop

/-! # Self-clearing programs

    A loop is sure to come to its end if its body ends with `[-]`, for then it is
    tested with a zero cell the next time, wherever the body has left the data
    pointer.  Programs in which every loop is a `[-]` or such a loop are called
    SELF-CLEARING.  With byte cells a `[-]` costs 511 at most, so a self-clearing
    program is done, or stopped by a `<` at cell 0, at a cost that is linear in its
    length (`Block.settles_of_selfClearing`, by induction on how it is built).

    That a loop of the other kind has one round only, each time that it is done, is
    also a fact on the machine (`Machine.exists_end_between_rounds`). -/

namespace TapeMachine

open TapeMachine.Bracket

/-- The bytes `[-]`. -/
def clearBytes : List UInt8 := [openByte, Instruction.decrement.byte, closeByte]

/-- The texts that are put together from bytes other than brackets and `,`, from
    `[-]`, and from loops around such a text and a `[-]`. -/
inductive SelfClearing : List UInt8 → Prop where
  | nil : SelfClearing []
  | byte {b : UInt8} (plain : Plain b) (no_input : b ≠ Instruction.input.byte) :
      SelfClearing [b]
  | clear : SelfClearing clearBytes
  | loop {x : List UInt8} (inner : SelfClearing x) :
      SelfClearing (openByte :: (x ++ clearBytes ++ [closeByte]))
  | append {x y : List UInt8} (first : SelfClearing x) (rest : SelfClearing y) :
      SelfClearing (x ++ y)

namespace Block

/-- From a store of bytes the block comes to its end, and leaves one, or it comes to
    a `<` at cell 0.  It costs no more than 511 for each of its bytes. -/
def Settles (b : Block) : Prop :=
  ∀ pos s c, s.Shows .byte c → ∃ t cost, cost ≤ 511 * b.size ∧
    ((b.Exec .byte pos s .finished t cost ∧ ∃ d, t.Shows .byte d) ∨
      ∃ q, b.Exec .byte pos s (.aborted (.dataPointerUnderflow q)) t cost)

theorem settles_done : done.Settles := by
  intro pos s c hs
  exact ⟨s, 0, Nat.zero_le _, Or.inl ⟨.done, c, hs⟩⟩

/-- A byte that is no bracket and no `,` settles in one step. -/
theorem settles_byte {b : UInt8} (plain : Plain b) (no_input : b ≠ Instruction.input.byte) :
    (byte b plain done).Settles := by
  intro pos s c hs
  have hne : Instruction.ofByte? b ≠ some .input :=
    fun h => no_input (Instruction.ofByte?_eq_some_iff.mp h)
  rcases hs.act_cases pos hne with ⟨f, hf, hact⟩ | ⟨-, s', hact, hs'⟩
  · -- the only fault that byte cells leave is that of a `<`
    have hunderflow : f = .dataPointerUnderflow pos := by
      generalize Instruction.ofByte? b = i? at hf
      cases hf with
      | underflow zero => rfl
      | invalid wide value no_character => cases wide
    subst hunderflow
    exact ⟨s, 0, Nat.zero_le _, Or.inr ⟨pos, .abort hact⟩⟩
  · have hcost : 1 ≤ 511 * (byte b plain done).size := by
      rw [size_byte]
      omega
    exact ⟨s', 1, hcost, Or.inl ⟨.byte hact .done, _, hs'⟩⟩

/-- Two blocks one behind the other settle if each does. -/
theorem Settles.append {a b : Block} (ha : a.Settles) (hb : b.Settles) : (a ++ b).Settles := by
  intro pos s c hs
  obtain ⟨t, cost, hcost, ⟨hexec, d, ht⟩ | ⟨q, hexec⟩⟩ := ha pos s c hs
  · obtain ⟨u, cost', hcost', hrest⟩ := hb (pos + a.size) t d ht
    refine ⟨u, cost + cost', ?_, ?_⟩
    · rw [size_append]
      omega
    · rcases hrest with ⟨hexec', hu⟩ | ⟨q, hexec'⟩
      · exact Or.inl ⟨hexec.append hexec', hu⟩
      · exact Or.inr ⟨q, hexec.append hexec'⟩
  · refine ⟨t, cost, ?_, Or.inr ⟨q, hexec.append_of_aborted b⟩⟩
    rw [size_append]
    omega

/-! ## The two kinds of loops -/

/-- Any byte cell is cleared at a cost of at most 511. -/
theorem exists_exec_clear (pos : Nat) {s : Store} {c : Contents} (hs : s.Shows .byte c) :
    ∃ t cost, cost ≤ 511 ∧ minus.repeated.Exec .byte pos s .finished t cost ∧
      t.Shows .byte (c.put 0) := by
  have hlow : 0 ≤ c.cell % 256 := Int.emod_nonneg _ (by decide)
  have hhigh : c.cell % 256 < 256 := Int.emod_lt_of_pos _ (by decide)
  have left_eq : CellMode.byte.reduce c.cell = (c.cell % 256).toNat :=
    (Int.toNat_of_nonneg hlow).symm
  obtain ⟨t, hexec, ht⟩ := takes_clear left_eq pos s hs
  exact ⟨t, _, by omega, hexec, ht⟩

/-- A `[-]` settles: a byte is counted down in at most 255 rounds. -/
theorem settles_clear : minus.repeated.Settles := by
  intro pos s c hs
  obtain ⟨t, cost, hcost, hexec, ht⟩ := exists_exec_clear pos hs
  refine ⟨t, cost, ?_, Or.inl ⟨hexec, _, ht⟩⟩
  have hsize : minus.repeated.size = 3 := rfl
  omega

/-- A loop whose body ends with `[-]` is over behind its first round. -/
theorem Settles.loop {a : Block} (ha : a.Settles) :
    (a ++ minus.repeated).repeated.Settles := by
  intro pos s c hs
  have hsize : (a ++ minus.repeated).repeated.size = a.size + 5 := by
    rw [repeated, size_loop, size_append]
    rfl
  by_cases h0 : s.cell = 0
  · refine ⟨s.touch, 1, by omega, Or.inl ⟨.skip h0 .done, c, hs.touch⟩⟩
  · obtain ⟨t, cost, hcost, ⟨hexec, d, ht⟩ | ⟨q, hexec⟩⟩ := ha (pos + 1) s.touch c hs.touch
    · obtain ⟨u, cost', hcost', hclear, hu⟩ := exists_exec_clear (pos + 1 + a.size) ht
      have zero : u.cell = 0 := by
        rw [eq_zero_iff_toInt, hu.cell_eq, Contents.cell_put, CellMode.reduce_zero]
      refine ⟨u.touch, 1 + (cost + cost') + 1, by omega, Or.inl ⟨?_, _, hu.touch⟩⟩
      exact .again h0 (hexec.append hclear) (.skip zero .done)
    · exact ⟨t, 1 + cost, by omega, Or.inr ⟨q, .abortInside h0 (hexec.append_of_aborted _)⟩⟩

/-- A self-clearing text has a nesting that settles. -/
theorem settles_of_selfClearing {l : List UInt8} (h : SelfClearing l) :
    ∃ b : Block, b.bytes = l ∧ b.Settles := by
  induction h with
  | nil => exact ⟨done, rfl, settles_done⟩
  | byte plain no_input => exact ⟨_, rfl, settles_byte plain no_input⟩
  | clear => exact ⟨minus.repeated, rfl, settles_clear⟩
  | loop inner ih =>
      obtain ⟨a, rfl, ha⟩ := ih
      refine ⟨(a ++ minus.repeated).repeated, ?_, ha.loop⟩
      rw [repeated, bytes, bytes_append]
      rfl
  | append first rest ihf ihr =>
      obtain ⟨a, rfl, ha⟩ := ihf
      obtain ⟨b, rfl, hb⟩ := ihr
      exact ⟨a ++ b, bytes_append a b, ha.append hb⟩

end Block

/-! ## Runs -/

/-- In front of the `]` of a loop whose body ends with `[-]` there is another `]`. -/
theorem exists_close_of_between {l x : List UInt8} {i j : Nat} (h : Matched l i j)
    (hx : between l i j = x ++ clearBytes) : ∃ k, j = k + 1 ∧ l[k]? = some closeByte := by
  have hcut : between l i j = (x ++ [openByte, Instruction.decrement.byte]) ++ closeByte :: [] := by
    rw [hx, List.append_assoc]
    rfl
  obtain ⟨k, -, hkj, hk, -, hnone⟩ := exists_between_cut hcut
  have hlen := congrArg List.length hnone
  rw [between, List.length_drop, List.length_take_of_le (Nat.le_of_lt h.close_lt)] at hlen
  refine ⟨k, ?_, hk⟩
  rw [List.length_nil] at hlen
  omega

/-- A self-clearing text is accepted, and its run finishes or comes to a `<` at cell 0,
    within 511 steps for each of its bytes. -/
theorem ends_of_selfClearing {text : String} (h : SelfClearing text.toUTF8.data.toList) :
    ∃ p, Program.ofText? text = .ok p ∧ ∀ matching,
      ∃ m, ((Machine.loadUnlimited p .byte matching).Ends .finished m ∨
          ∃ q, (Machine.loadUnlimited p .byte matching).Ends
            (.failed (.dataPointerUnderflow q)) m) ∧
        m.steps ≤ 511 * p.size := by
  obtain ⟨b, hb, hsettles⟩ := Block.settles_of_selfClearing h
  obtain ⟨p, hp, hbytes⟩ := Block.exists_ofText? hb.symm
  have hsize : b.size = p.size := by
    rw [Block.size, hbytes, Array.length_toList, Program.size]
  refine ⟨p, hp, ?_⟩
  intro matching
  obtain ⟨t, cost, hcost, hexec⟩ := hsettles 0 {} .empty (Store.Shows.empty .byte)
  rw [hsize] at hcost
  rcases hexec with ⟨hexec, -⟩ | ⟨q, hexec⟩
  · obtain ⟨m, hends, -, rfl⟩ := Machine.ends_of_exec_load hbytes hexec matching
    exact ⟨m, Or.inl hends, hcost⟩
  · obtain ⟨m, hends, -, rfl⟩ := Machine.ends_of_exec_load hbytes hexec matching
    exact ⟨m, Or.inr ⟨q, hends⟩, hcost⟩

/-- **Self-clearing programs halt.**  A self-clearing text is accepted.  With byte
    cells, no step limit and either way of matching, its run finishes or fails at
    a `<` at cell 0, after at most 511 steps for each byte.

    In any program, with cells of either mode, a loop whose body ends with `[-]`
    has one round at most each time that the body of the loop around it is done:
    between two rounds control has come to the end of the innermost loop around
    it, and if it is in no other loop there are no two. -/
theorem self_clearing_programs_halt :
    (∀ text : String, SelfClearing text.toUTF8.data.toList →
      ∃ p, Program.ofText? text = .ok p ∧ ∀ matching,
        ∃ m, ((Machine.loadUnlimited p .byte matching).Ends .finished m ∨
            ∃ q, (Machine.loadUnlimited p .byte matching).Ends
              (.failed (.dataPointerUnderflow q)) m) ∧
          m.steps ≤ 511 * p.size) ∧
    ∀ (p : Program) (mode : CellMode) (matching : Matching) (i j : Nat) (x : List UInt8),
      Matched p.code.toList i j → between p.code.toList i j = x ++ clearBytes →
        let fresh := Machine.loadUnlimited p mode matching
        ∀ a b, a < b → (Machine.next^[a] fresh).BeginsRound i j →
          (Machine.next^[b] fresh).BeginsRound i j →
          ∃ I J k, InnermostAround p.code.toList i j I J ∧ a < k ∧ k < b ∧
            (Machine.next^[k] fresh).state.pc = J := by
  refine ⟨fun text h => ends_of_selfClearing h, ?_⟩
  intro p mode matching i j x hpair hx fresh a b hab ha hb
  obtain ⟨k, rfl, hk⟩ := exists_close_of_between hpair hx
  rw [Array.getElem?_toList] at hk
  have nonempty : 0 < p.size := Nat.lt_of_le_of_lt (Nat.zero_le i) hpair.open_lt
  exact Machine.exists_end_between_rounds rfl (Machine.inControl_load _ nonempty) hpair hk
    hab ha hb

/-- In `++[>+[+[-]]<-]` the loop `[+[-]]` has two rounds, one for each of the loop around it. -/
theorem self_clearing_programs_halt_inside_a_loop :
    let text := "+[>+[-]]"
    let p : Program := ⟨#[0x2B, 0x2B, 0x5B, 0x3E, 0x2B, 0x5B, 0x2B, 0x5B, 0x2D, 0x5D, 0x5D,
      0x3C, 0x2D, 0x5D], ((Table.empty.addPair 7 9).addPair 5 10).addPair 2 13, rfl⟩
    let fresh := Machine.loadUnlimited p .byte .table
    SelfClearing text.toUTF8.data.toList ∧ Matched p.code.toList 5 10 ∧
      between p.code.toList 5 10 = [0x2B] ++ clearBytes ∧
      (Machine.next^[5] fresh).BeginsRound 5 10 ∧ (Machine.next^[18] fresh).BeginsRound 5 10 ∧
      (∃ q, Program.ofText? text = .ok q) ∧
      ∃ I J k, InnermostAround p.code.toList 5 10 I J ∧ 5 < k ∧ k < 18 ∧
        (Machine.next^[k] fresh).state.pc = J := by
  intro text p fresh
  have hbytes : text.toUTF8.data.toList
      = [0x2B] ++ (openByte :: ([0x3E] ++ [0x2B] ++ clearBytes ++ [closeByte])) := rfl
  have selfClearing : SelfClearing text.toUTF8.data.toList := by
    rw [hbytes]
    refine .append (.byte (by decide) (by decide)) (.loop (.append ?_ ?_))
    · exact .byte (by decide) (by decide)
    · exact .byte (by decide) (by decide)
  have pair : Matched p.code.toList 5 10 :=
    ⟨by decide, rfl, rfl, (Block.plus ++ Block.minus.repeated).balanced_bytes⟩
  have body : between p.code.toList 5 10 = [0x2B] ++ clearBytes := rfl
  have first : (Machine.next^[5] fresh).BeginsRound 5 10 :=
    ⟨by decide +kernel, Or.inl (by decide +kernel), by decide +kernel⟩
  have second : (Machine.next^[18] fresh).BeginsRound 5 10 :=
    ⟨by decide +kernel, Or.inl (by decide +kernel), by decide +kernel⟩
  obtain ⟨hhalts, hrounds⟩ := self_clearing_programs_halt
  obtain ⟨q, hq, -⟩ := hhalts text selfClearing
  exact ⟨selfClearing, pair, body, first, second, ⟨q, hq⟩,
    hrounds p .byte .table 5 10 [0x2B] pair body 5 18 (by decide) first second⟩

end TapeMachine
