import Mathlib.Data.List.Induction
import TapeMachine.Instruction

/-! # Balanced texts

    A text is balanced if no prefix of it closes more brackets than it opens and
    the whole closes as many as it opens.  Everything about balance goes through
    one number, the DEPTH of a text: its `[` less its `]`.  Depth adds up along
    a concatenation, so each lemma below is a cut of the text and a sum.

    * `balanced_insert`: a balanced piece may be put in or taken out anywhere;
    * `split_close_unique`, `split_open_unique`: a text is cut in at most one way
      by a `]` with a balanced text in front, or by a `[` with one behind;
    * `exists_first_close`, `exists_last_open`: where a text goes out of balance;
    * `Balanced.cases`: a balanced text is empty, or starts with a comment or
      with a whole loop. -/

namespace TapeMachine.Bracket

/-- The byte `[`. -/
abbrev openByte : UInt8 := Instruction.loopOpen.byte

/-- The byte `]`. -/
abbrev closeByte : UInt8 := Instruction.loopClose.byte

/-- A byte that is no bracket. -/
def Plain (b : UInt8) : Prop := b ≠ openByte ∧ b ≠ closeByte

instance (b : UInt8) : Decidable (Plain b) := inferInstanceAs (Decidable (_ ∧ _))

/-- The number of `[` in a text. -/
def opens (l : List UInt8) : Nat := l.count openByte

/-- The number of `]` in a text. -/
def closes (l : List UInt8) : Nat := l.count closeByte

/-- Every prefix has at least as many `[` as `]`, and the whole has equally many. -/
structure Balanced (l : List UInt8) : Prop where
  closes_le : ∀ p, p <+: l → closes p ≤ opens p
  opens_eq : opens l = closes l

/-! ## Depth -/

/-- How many more brackets a text opens than it closes. -/
def depth (l : List UInt8) : Int := opens l - closes l

@[simp] theorem depth_nil : depth [] = 0 := rfl

@[simp] theorem depth_append (l r : List UInt8) : depth (l ++ r) = depth l + depth r := by
  simp only [depth, opens, closes, List.count_append, Int.natCast_add]
  omega

@[simp] theorem depth_open (l : List UInt8) : depth (openByte :: l) = depth l + 1 := by
  have h : (openByte == closeByte) = false := rfl
  simp only [depth, opens, closes, List.count_cons, h, beq_self_eq_true]
  simp
  omega

@[simp] theorem depth_close (l : List UInt8) : depth (closeByte :: l) = depth l - 1 := by
  have h : (closeByte == openByte) = false := rfl
  simp only [depth, opens, closes, List.count_cons, h, beq_self_eq_true]
  simp
  omega

theorem depth_plain {b : UInt8} (h : Plain b) (l : List UInt8) :
    depth (b :: l) = depth l := by
  simp [depth, opens, closes, h.1, h.2]

theorem depth_openByte : depth [openByte] = 1 := rfl

theorem depth_closeByte : depth [closeByte] = -1 := rfl

/-- Equally many `[` and `]` is depth zero. -/
theorem opens_eq_closes_iff {l : List UInt8} : opens l = closes l ↔ depth l = 0 := by
  rw [depth]
  omega

/-- More `]` than `[` is a negative depth. -/
theorem opens_lt_closes_iff {l : List UInt8} : opens l < closes l ↔ depth l < 0 := by
  rw [depth]
  omega

/-- A byte is one of the brackets, or plain. -/
theorem plain_or_bracket (b : UInt8) : b = openByte ∨ b = closeByte ∨ Plain b := by
  by_cases ho : b = openByte
  · exact Or.inl ho
  · by_cases hc : b = closeByte
    · exact Or.inr (Or.inl hc)
    · exact Or.inr (Or.inr ⟨ho, hc⟩)

/-- Balance in terms of depth: no cut leaves a negative depth in front. -/
theorem balanced_iff_depth {l : List UInt8} :
    Balanced l ↔ (∀ p s, l = p ++ s → 0 ≤ depth p) ∧ depth l = 0 := by
  constructor
  · intro h
    refine ⟨?_, ?_⟩
    · intro p s hl
      have := h.closes_le p ⟨s, hl.symm⟩
      simp only [depth]
      omega
    · have := h.opens_eq
      simp only [depth]
      omega
  · rintro ⟨hp, ht⟩
    refine ⟨?_, ?_⟩
    · rintro p ⟨s, hl⟩
      have := hp p s hl.symm
      simp only [depth] at this
      omega
    · simp only [depth] at ht
      omega

/-- A balanced text closes all that it opens. -/
theorem Balanced.depth_eq {l : List UInt8} (h : Balanced l) : depth l = 0 :=
  (balanced_iff_depth.mp h).2

/-- No prefix of a balanced text closes more than it opens. -/
theorem Balanced.depth_nonneg {p s : List UInt8} (h : Balanced (p ++ s)) : 0 ≤ depth p :=
  (balanced_iff_depth.mp h).1 p s rfl

/-- Balance seen from the back: no cut leaves a positive depth behind. -/
theorem balanced_iff_depth_behind {l : List UInt8} :
    Balanced l ↔ (∀ p s, l = p ++ s → depth s ≤ 0) ∧ depth l = 0 := by
  rw [balanced_iff_depth]
  constructor
  · rintro ⟨hp, ht⟩
    refine ⟨?_, ht⟩
    intro p s hl
    have := hp p s hl
    rw [hl, depth_append] at ht
    omega
  · rintro ⟨hs, ht⟩
    refine ⟨?_, ht⟩
    intro p s hl
    have := hs p s hl
    rw [hl, depth_append] at ht
    omega

/-! ## Putting pieces together -/

@[simp] theorem balanced_nil : Balanced [] := by
  rw [balanced_iff_depth]
  refine ⟨?_, rfl⟩
  intro p s h
  obtain ⟨rfl, -⟩ := List.append_eq_nil_iff.mp h.symm
  exact Int.le_refl 0

/-- A balanced piece may be put in or taken out anywhere. -/
theorem balanced_insert {m : List UInt8} (hm : Balanced m) (l r : List UInt8) :
    Balanced (l ++ (m ++ r)) ↔ Balanced (l ++ r) := by
  have hdepth : depth (l ++ (m ++ r)) = depth (l ++ r) := by
    simp only [depth_append, hm.depth_eq]
    omega
  rw [balanced_iff_depth, balanced_iff_depth, hdepth]
  refine and_congr_left' ?_
  constructor
  · intro h p s hp
    rcases List.append_eq_append_iff.mp hp with ⟨q, rfl, rfl⟩ | ⟨q, rfl, rfl⟩
    · -- the cut lies in `r`: cut behind `m` there
      have := h (l ++ (m ++ q)) s (by simp)
      simpa [hm.depth_eq] using this
    · exact h p (q ++ (m ++ r)) (by simp)
  · intro h p s hp
    rcases List.append_eq_append_iff.mp hp with ⟨q, rfl, hq⟩ | ⟨q, rfl, rfl⟩
    · rcases List.append_eq_append_iff.mp hq with ⟨t, rfl, rfl⟩ | ⟨t, rfl, rfl⟩
      · have := h (l ++ t) s (by simp)
        simpa [hm.depth_eq] using this
      · -- the cut lies in `m`, which only adds depth
        have hl := h l r rfl
        have hq := hm.depth_nonneg
        rw [depth_append]
        omega
    · exact h p (q ++ r) (by simp)

/-- Two balanced texts, one behind the other, are balanced. -/
theorem Balanced.append {l r : List UInt8} (hl : Balanced l) (hr : Balanced r) :
    Balanced (l ++ r) := by
  have := (balanced_insert hl [] r).mpr hr
  exact this

theorem balanced_plain {b : UInt8} (h : Plain b) : Balanced [b] := by
  rw [balanced_iff_depth]
  refine ⟨?_, depth_plain h []⟩
  intro p s hp
  rcases List.cons_eq_append_iff.mp hp with ⟨rfl, -⟩ | ⟨q, rfl, hq⟩
  · exact Int.le_refl 0
  · obtain ⟨rfl, -⟩ := List.append_eq_nil_iff.mp hq.symm
    rw [depth_plain h]
    exact Int.le_refl 0

/-- A pair of brackets around a balanced text is balanced. -/
theorem Balanced.enclose {m : List UInt8} (hm : Balanced m) :
    Balanced (openByte :: (m ++ [closeByte])) := by
  have hpair : Balanced ([openByte] ++ [closeByte]) := by
    rw [balanced_iff_depth]
    refine ⟨?_, rfl⟩
    intro p s hp
    rcases List.append_eq_append_iff.mp hp with ⟨q, rfl, hq⟩ | ⟨q, hq, -⟩
    · rcases List.singleton_eq_append_iff.mp hq with ⟨rfl, -⟩ | ⟨rfl, -⟩
      · decide
      · decide
    · rcases List.singleton_eq_append_iff.mp hq with ⟨rfl, -⟩ | ⟨rfl, -⟩
      · decide
      · decide
  exact (balanced_insert hm [openByte] [closeByte]).mpr hpair

/-- A comment byte in front does not matter. -/
theorem balanced_plain_cons {b : UInt8} (h : Plain b) (l : List UInt8) :
    Balanced (b :: l) ↔ Balanced l :=
  balanced_insert (balanced_plain h) [] l

/-- Comment bytes alone are balanced. -/
theorem balanced_of_plain {l : List UInt8} (h : ∀ b ∈ l, Plain b) : Balanced l := by
  induction l with
  | nil => exact balanced_nil
  | cons b l ih =>
      refine (balanced_plain_cons (h b List.mem_cons_self) l).mpr (ih ?_)
      intro c hc
      exact h c (List.mem_cons_of_mem b hc)

/-- A loop in front does not matter. -/
theorem balanced_loop_append {m : List UInt8} (hm : Balanced m) (l : List UInt8) :
    Balanced (openByte :: (m ++ closeByte :: l)) ↔ Balanced l := by
  have := balanced_insert hm.enclose [] l
  simpa using this

/-! ## Where balance is lost -/

/-- A balanced text has no `[` with a balanced rest behind it. -/
theorem Balanced.ne_split_open {l m r : List UInt8} (hl : Balanced l) (hr : Balanced r) :
    l ≠ m ++ openByte :: r := by
  rintro rfl
  have hm := hl.depth_nonneg
  have := hl.depth_eq
  rw [depth_append, depth_open, hr.depth_eq] at this
  omega

/-- A balanced text has no `]` with a balanced rest in front of it. -/
theorem Balanced.ne_split_close {l m r : List UInt8} (hl : Balanced l) (hm : Balanced m) :
    l ≠ m ++ closeByte :: r := by
  rintro rfl
  have h : Balanced ((m ++ [closeByte]) ++ r) := by simpa using hl
  have := h.depth_nonneg
  rw [depth_append, depth_close, depth_nil, hm.depth_eq] at this
  omega

/-- At most one `]` of a text has a balanced text in front of it. -/
theorem split_close_unique {m r m' r' : List UInt8} (hm : Balanced m) (hm' : Balanced m')
    (h : m ++ closeByte :: r = m' ++ closeByte :: r') : m = m' := by
  rcases List.append_eq_append_iff.mp h with ⟨q, hq, hr⟩ | ⟨q, hq, hr⟩
  · rcases List.cons_eq_append_iff.mp hr with ⟨rfl, -⟩ | ⟨q', rfl, -⟩
    · rw [hq, List.append_nil]
    · exact absurd hq (hm'.ne_split_close hm)
  · rcases List.cons_eq_append_iff.mp hr with ⟨rfl, -⟩ | ⟨q', rfl, -⟩
    · rw [hq, List.append_nil]
    · exact absurd hq (hm.ne_split_close hm')

/-- At most one `[` of a text has a balanced text behind it. -/
theorem split_open_unique {p m p' m' : List UInt8} (hm : Balanced m) (hm' : Balanced m')
    (h : p ++ openByte :: m = p' ++ openByte :: m') : p = p' := by
  rcases List.append_eq_append_iff.mp h with ⟨q, hq, hr⟩ | ⟨q, hq, hr⟩
  · rcases List.cons_eq_append_iff.mp hr with ⟨rfl, -⟩ | ⟨q', rfl, hs⟩
    · rw [hq, List.append_nil]
    · exact absurd hs (hm.ne_split_open hm')
  · rcases List.cons_eq_append_iff.mp hr with ⟨rfl, -⟩ | ⟨q', rfl, hs⟩
    · rw [hq, List.append_nil]
    · exact absurd hs (hm'.ne_split_open hm)

/-- A text with a prefix of negative depth has a first `]` that closes nothing:
    what stands in front of it is balanced. -/
theorem exists_first_close {l : List UInt8} (h : ∃ p s, l = p ++ s ∧ depth p < 0) :
    ∃ m r, l = m ++ closeByte :: r ∧ Balanced m := by
  induction l using List.reverseRecOn with
  | nil =>
      obtain ⟨p, s, hl, hp⟩ := h
      obtain ⟨rfl, -⟩ := List.append_eq_nil_iff.mp hl.symm
      exact absurd hp (by decide)
  | append_singleton l b ih =>
      by_cases hl : ∃ p s, l = p ++ s ∧ depth p < 0
      · obtain ⟨m, r, rfl, hm⟩ := ih hl
        exact ⟨m, r ++ [b], by simp, hm⟩
      · -- only the whole text has negative depth, so its last byte is the `]`
        have hnonneg : ∀ p s, l = p ++ s → 0 ≤ depth p := by
          intro p s hps
          exact Int.not_lt.mp (fun hp => hl ⟨p, s, hps, hp⟩)
        have hwhole : depth l + depth [b] < 0 := by
          obtain ⟨p, s, hps, hp⟩ := h
          rcases List.append_eq_append_iff.mp hps with ⟨q, rfl, hq⟩ | ⟨q, hq, -⟩
          · rcases List.singleton_eq_append_iff.mp hq with ⟨rfl, -⟩ | ⟨rfl, -⟩
            · have := hnonneg l [] (by simp)
              simp only [List.append_nil] at hp
              omega
            · simpa using hp
          · have := hnonneg p q hq
            omega
        have hl0 := hnonneg l [] (by simp)
        rcases plain_or_bracket b with rfl | rfl | hb
        · rw [depth_open, depth_nil] at hwhole
          omega
        · rw [depth_close, depth_nil] at hwhole
          refine ⟨l, [], rfl, balanced_iff_depth.mpr ⟨hnonneg, ?_⟩⟩
          omega
        · rw [depth_plain hb, depth_nil] at hwhole
          omega

/-- A text with a suffix of positive depth has a last `[` that is not closed:
    what stands behind it is balanced. -/
theorem exists_last_open {l : List UInt8} (h : ∃ p s, l = p ++ s ∧ 0 < depth s) :
    ∃ p m, l = p ++ openByte :: m ∧ Balanced m := by
  induction l with
  | nil =>
      obtain ⟨p, s, hl, hs⟩ := h
      obtain ⟨-, rfl⟩ := List.append_eq_nil_iff.mp hl.symm
      exact absurd hs (by decide)
  | cons b l ih =>
      by_cases hl : ∃ p s, l = p ++ s ∧ 0 < depth s
      · obtain ⟨p, m, rfl, hm⟩ := ih hl
        exact ⟨b :: p, m, rfl, hm⟩
      · -- only the whole text has positive depth, so its first byte is the `[`
        have hnonpos : ∀ p s, l = p ++ s → depth s ≤ 0 := by
          intro p s hps
          exact Int.not_lt.mp (fun hs => hl ⟨p, s, hps, hs⟩)
        have hwhole : 0 < depth (b :: l) := by
          obtain ⟨p, s, hps, hs⟩ := h
          rcases List.cons_eq_append_iff.mp hps with ⟨-, rfl⟩ | ⟨q, -, hq⟩
          · exact hs
          · have := hnonpos q s hq
            omega
        have hl0 := hnonpos [] l rfl
        rcases plain_or_bracket b with rfl | rfl | hb
        · rw [depth_open] at hwhole
          refine ⟨[], l, rfl, balanced_iff_depth_behind.mpr ⟨hnonpos, ?_⟩⟩
          omega
        · rw [depth_close] at hwhole
          omega
        · rw [depth_plain hb] at hwhole
          omega

/-- In a balanced text every `[` is followed by a balanced text and a `]`. -/
theorem Balanced.exists_close {p r : List UInt8} (h : Balanced (p ++ openByte :: r)) :
    ∃ m s, r = m ++ closeByte :: s ∧ Balanced m := by
  refine exists_first_close ⟨r, [], by simp, ?_⟩
  have hp := h.depth_nonneg
  have := h.depth_eq
  rw [depth_append, depth_open] at this
  omega

/-- In a balanced text every `]` is preceded by a `[` and a balanced text. -/
theorem Balanced.exists_open {p r : List UInt8} (h : Balanced (p ++ closeByte :: r)) :
    ∃ s m, p = s ++ openByte :: m ∧ Balanced m := by
  refine exists_last_open ⟨[], p, rfl, ?_⟩
  have h' : Balanced ((p ++ [closeByte]) ++ r) := by simpa using h
  have := h'.depth_nonneg
  rw [depth_append, depth_close, depth_nil] at this
  omega

/-- A balanced text is empty, or starts with a comment or with a whole loop. -/
theorem Balanced.cases {l : List UInt8} (h : Balanced l) :
    l = [] ∨ (∃ b r, Plain b ∧ l = b :: r ∧ Balanced r) ∨
      ∃ m r, l = openByte :: (m ++ closeByte :: r) ∧ Balanced m ∧ Balanced r := by
  cases l with
  | nil => exact Or.inl rfl
  | cons b r =>
      refine Or.inr ?_
      rcases plain_or_bracket b with rfl | rfl | hb
      · obtain ⟨m, s, rfl, hm⟩ := Balanced.exists_close (p := []) h
        exact Or.inr ⟨m, s, rfl, hm, (balanced_loop_append hm s).mp h⟩
      · exact absurd rfl (h.ne_split_close balanced_nil)
      · exact Or.inl ⟨b, r, hb, rfl, (balanced_plain_cons hb r).mp h⟩

end TapeMachine.Bracket
