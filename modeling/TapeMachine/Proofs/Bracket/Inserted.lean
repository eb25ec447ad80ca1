import TapeMachine.Proofs.Bracket.Matched

/-! # A piece put into a text

    A balanced piece that is put into a text takes the bytes behind it `len`
    positions further and leaves the others where they are (`skip`).  Brackets that
    matched match again at their new positions (`Matched.insert`), wherever the
    piece has been put in: in front of them, behind them, or in between. -/

namespace TapeMachine.Bracket

/-- Where a position is taken to by a piece of length `len` put in at `start`. -/
def skip (start len pos : Nat) : Nat := if pos < start then pos else pos + len

/-- What stands in front of the piece stays where it is. -/
theorem skip_of_lt {start pos : Nat} (h : pos < start) (len : Nat) :
    skip start len pos = pos :=
  if_pos h

/-- What stands behind it moves on by its length. -/
theorem skip_of_le {start pos : Nat} (h : start ≤ pos) (len : Nat) :
    skip start len pos = pos + len :=
  if_neg (Nat.not_lt.mpr h)

theorem skip_succ (start len pos : Nat) :
    skip (start + 1) len (pos + 1) = skip start len pos + 1 := by
  by_cases h : pos < start
  · rw [skip_of_lt h, skip_of_lt (Nat.succ_lt_succ h)]
  · have h' : start ≤ pos := Nat.not_lt.mp h
    rw [skip_of_le h', skip_of_le (Nat.succ_le_succ h'), Nat.add_right_comm]

/-- Only the position of the piece itself is taken to either side of it. -/
theorem skip_succ_of_ne {start pos : Nat} (h : pos ≠ start) (len : Nat) :
    skip (start + 1) len pos = skip start len pos := by
  rcases Nat.lt_or_gt_of_ne h with hlt | hgt
  · rw [skip_of_lt hlt, skip_of_lt (Nat.lt_succ_of_lt hlt)]
  · rw [skip_of_le (Nat.le_of_lt hgt), skip_of_le hgt]

/-- The bytes of the text are found at their new positions. -/
theorem getElem?_insert (l m r : List UInt8) (pos : Nat) :
    (l ++ (m ++ r))[skip l.length m.length pos]? = (l ++ r)[pos]? := by
  by_cases h : pos < l.length
  · rw [skip_of_lt h, List.getElem?_append_left h, List.getElem?_append_left h]
  · have h' : l.length ≤ pos := Nat.not_lt.mp h
    rw [skip_of_le h', List.getElem?_append_right h', List.getElem?_append_right (by omega),
      List.getElem?_append_right (by omega)]
    congr 1
    omega

/-- Matched brackets stay matched. -/
theorem Matched.insert {l m r : List UInt8} {i j : Nat} (hm : Balanced m)
    (h : Matched (l ++ r) i j) :
    Matched (l ++ (m ++ r)) (skip l.length m.length i) (skip l.length m.length j) := by
  obtain ⟨p, c, s, hcut, rfl, rfl, hc⟩ := matched_iff_split.mp h
  rcases List.append_eq_append_iff.mp hcut with ⟨t, rfl, rfl⟩ | ⟨t, rfl, ht⟩
  · -- the piece stands in front of the `[`
    rw [skip_of_le (by simp), skip_of_le (by simp only [List.length_append]; omega)]
    refine matched_iff_split.mpr ⟨l ++ (m ++ t), c, s, by simp, ?_, ?_, hc⟩
    · simp only [List.length_append]
      omega
    · simp only [List.length_append]
      omega
  · rcases List.append_eq_cons_iff.mp ht.symm with ⟨rfl, rfl⟩ | ⟨t, rfl, hbehind⟩
    · -- just in front of it
      rw [List.append_nil, skip_of_le (Nat.le_refl _), skip_of_le (by omega)]
      refine matched_iff_split.mpr ⟨p ++ m, c, s, by simp, ?_, ?_, hc⟩
      · rw [List.length_append]
      · omega
    · rw [skip_of_lt (by simp)]
      rcases List.append_eq_append_iff.mp hbehind with ⟨u, rfl, hu⟩ | ⟨u, rfl, rfl⟩
      · rcases List.cons_eq_append_iff.mp hu with ⟨rfl, rfl⟩ | ⟨u, rfl, rfl⟩
        · -- just in front of the `]`
          have hfront : (p ++ openByte :: (c ++ [])).length ≤ p.length + 1 + c.length := by
            simp only [List.length_append, List.length_cons, List.length_nil]
            omega
          rw [skip_of_le hfront]
          refine matched_iff_split.mpr ⟨p, c ++ m, s, by simp, rfl, ?_, hc.append hm⟩
          simp only [List.length_append]
          omega
        · -- behind the `]`
          rw [skip_of_lt (by simp only [List.length_append, List.length_cons]; omega)]
          exact matched_iff_split.mpr ⟨p, c, u ++ (m ++ r), by simp, rfl, rfl, hc⟩
      · -- between the two
        rw [skip_of_le (by simp only [List.length_append, List.length_cons]; omega)]
        refine matched_iff_split.mpr ⟨p, t ++ (m ++ u), s, by simp, rfl, ?_,
          (balanced_insert hm t u).mpr hc⟩
        simp only [List.length_append]
        omega

end TapeMachine.Bracket
