import TapeMachine.Proofs.Bracket.Balance

/-! # Matched pairs

    Two positions of a text are MATCHED if the first holds `[`, the second `]`
    and the bytes between them are balanced.  `matched_iff_split` turns the two
    positions into a cut of the text, where the lemmas on balance apply: a
    bracket has at most one partner in any text (`Matched.close_unique`,
    `Matched.open_unique`), and exactly one in a balanced text
    (`Balanced.exists_matched_open`, `Balanced.exists_matched_close`). -/

namespace TapeMachine.Bracket

/-- The bytes strictly between two positions. -/
def between (l : List UInt8) (i j : Nat) : List UInt8 := (l.take j).drop (i + 1)

/-- The brackets at `i` and `j` are the two ends of one pair. -/
structure Matched (l : List UInt8) (i j : Nat) : Prop where
  lt : i < j
  open_at : l[i]? = some openByte
  close_at : l[j]? = some closeByte
  inside : Balanced (between l i j)

/-- A text is cut in two at any of its bytes. -/
theorem getElem?_eq_some_iff_split {l : List UInt8} {i : Nat} {b : UInt8} :
    l[i]? = some b ↔ ∃ p s, l = p ++ b :: s ∧ p.length = i := by
  constructor
  · intro h
    obtain ⟨hi, rfl⟩ := List.getElem?_eq_some_iff.mp h
    refine ⟨l.take i, l.drop (i + 1), ?_, ?_⟩
    · rw [← List.drop_eq_getElem_cons hi, List.take_append_drop]
    · exact List.length_take_of_le (Nat.le_of_lt hi)
  · rintro ⟨p, s, rfl, rfl⟩
    simp

/-- What stands between two positions, byte by byte. -/
theorem getElem?_between_eq_some_iff {l : List UInt8} {i j k : Nat} {b : UInt8} :
    (between l i j)[k]? = some b ↔ i + 1 + k < j ∧ l[i + 1 + k]? = some b := by
  rw [between, List.getElem?_drop, List.getElem?_take, Option.ite_none_right_eq_some]

/-- The bytes between the ends of a cut. -/
theorem between_split {p : List UInt8} {i : Nat} (hp : p.length = i + 1)
    (m s : List UInt8) : between (p ++ (m ++ s)) i (i + 1 + m.length) = m := by
  have hboth : i + 1 + m.length = (p ++ m).length := by
    rw [List.length_append, hp]
  rw [between, ← List.append_assoc, hboth, List.take_left, ← hp, List.drop_left]

/-- A byte between two positions cuts what is between them. -/
theorem between_cut {l : List UInt8} {i k j : Nat} {b : UInt8} (hik : i < k) (hkj : k < j)
    (hb : l[k]? = some b) : between l i j = between l i k ++ b :: between l k j := by
  obtain ⟨p, s, rfl, rfl⟩ := getElem?_eq_some_iff_split.mp hb
  have htake : (p ++ b :: s).take j = p ++ b :: s.take (j - (p.length + 1)) := by
    rw [List.take_append, List.take_of_length_le (Nat.le_of_lt hkj),
      show j - p.length = (j - (p.length + 1)) + 1 by omega, List.take_succ_cons]
  have hfront : between (p ++ b :: s) i p.length = p.drop (i + 1) := by
    rw [between, List.take_left]
  have hbehind : between (p ++ b :: s) p.length j = s.take (j - (p.length + 1)) := by
    rw [between, htake, List.drop_append, List.drop_of_length_le (Nat.le_succ _)]
    simp
  rw [hfront, hbehind, between, htake, List.drop_append_of_le_length (by omega)]

/-- A cut of what is between two positions is made at a byte between them. -/
theorem exists_between_cut {l m s : List UInt8} {i j : Nat} {b : UInt8}
    (h : between l i j = m ++ b :: s) :
    ∃ k, i < k ∧ k < j ∧ l[k]? = some b ∧ between l i k = m ∧ between l k j = s := by
  have hk : (between l i j)[m.length]? = some b := by
    rw [h]
    simp
  obtain ⟨hkj, hk⟩ := getElem?_between_eq_some_iff.mp hk
  have hik : i < i + 1 + m.length := by omega
  have hcut := between_cut hik hkj hk
  rw [h] at hcut
  have hlen : m.length = (between l i (i + 1 + m.length)).length := by
    have hkl := (List.getElem?_eq_some_iff.mp hk).1
    rw [between, List.length_drop, List.length_take]
    omega
  obtain ⟨hm, hs⟩ := List.append_inj hcut hlen
  exact ⟨i + 1 + m.length, hik, hkj, hk, hm.symm, (List.cons.inj hs).2.symm⟩

/-- A byte behind `p` and what stands before it, as a cut of the rest. -/
theorem after_iff_split {p r : List UInt8} {i j : Nat} {c : UInt8} {P : List UInt8 → Prop}
    (hp : p.length = i + 1) :
    (i < j ∧ (p ++ r)[j]? = some c ∧ P (between (p ++ r) i j)) ↔
      ∃ m s, r = m ++ c :: s ∧ P m ∧ i + 1 + m.length = j := by
  constructor
  · rintro ⟨hij, hc, hm⟩
    rw [List.getElem?_append_right (by omega)] at hc
    obtain ⟨m, s, rfl, hlen⟩ := getElem?_eq_some_iff_split.mp hc
    have hj : i + 1 + m.length = j := by omega
    rw [← hj, between_split hp] at hm
    exact ⟨m, s, rfl, hm, hj⟩
  · rintro ⟨m, s, rfl, hm, rfl⟩
    refine ⟨by omega, ?_, ?_⟩
    · rw [List.getElem?_append_right (by omega),
        show i + 1 + m.length - p.length = m.length by omega]
      simp
    · rw [between_split hp]
      exact hm

/-- A byte of `l` and what stands behind it, as a cut of `l`. -/
theorem before_iff_split {l s : List UInt8} {i j : Nat} {c : UInt8} {P : List UInt8 → Prop}
    (hl : l.length = j) :
    (i < j ∧ (l ++ s)[i]? = some c ∧ P (between (l ++ s) i j)) ↔
      ∃ p m, l = p ++ c :: m ∧ P m ∧ p.length = i := by
  have hbetween : ∀ p m : List UInt8, l = p ++ c :: m →
      between (l ++ s) p.length j = m := by
    rintro p m rfl
    have hj : p.length + 1 + m.length = j := by
      rw [← hl, List.length_append, List.length_cons]
      omega
    have hcut : p ++ c :: m ++ s = (p ++ [c]) ++ (m ++ s) := by simp
    rw [← hj, hcut, between_split (by simp)]
  constructor
  · rintro ⟨hij, hc, hm⟩
    rw [List.getElem?_append_left (by omega)] at hc
    obtain ⟨p, m, hpm, rfl⟩ := getElem?_eq_some_iff_split.mp hc
    rw [hbetween p m hpm] at hm
    exact ⟨p, m, hpm, hm, rfl⟩
  · rintro ⟨p, m, hpm, hm, rfl⟩
    have hlen : p.length < l.length := by
      rw [hpm, List.length_append, List.length_cons]
      omega
    refine ⟨by omega, ?_, ?_⟩
    · rw [List.getElem?_append_left hlen, hpm]
      simp
    · rw [hbetween p m hpm]
      exact hm

/-- A matched pair is a cut of the text around a balanced piece in brackets. -/
theorem matched_iff_split {l : List UInt8} {i j : Nat} :
    Matched l i j ↔ ∃ p m s, l = p ++ openByte :: (m ++ closeByte :: s) ∧
      p.length = i ∧ i + 1 + m.length = j ∧ Balanced m := by
  have hcons : ∀ p r : List UInt8, p ++ openByte :: r = (p ++ [openByte]) ++ r := by
    intro p r
    simp
  constructor
  · rintro ⟨hlt, ho, hc, hm⟩
    obtain ⟨p, r, rfl, rfl⟩ := getElem?_eq_some_iff_split.mp ho
    rw [hcons] at hc hm
    obtain ⟨m, s, rfl, hm, hj⟩ := (after_iff_split (by simp)).mp ⟨hlt, hc, hm⟩
    exact ⟨p, m, s, rfl, rfl, hj, hm⟩
  · rintro ⟨p, m, s, rfl, rfl, rfl, hm⟩
    have hp : (p ++ [openByte]).length = p.length + 1 := by simp
    have h := (after_iff_split (c := closeByte) hp).mpr ⟨m, s, rfl, hm, rfl⟩
    rw [← hcons] at h
    exact ⟨h.1, by simp, h.2.1, h.2.2⟩

/-- The `]` of a pair is in the text. -/
theorem Matched.close_lt {l : List UInt8} {i j : Nat} (h : Matched l i j) : j < l.length :=
  (List.getElem?_eq_some_iff.mp h.close_at).1

theorem Matched.open_lt {l : List UInt8} {i j : Nat} (h : Matched l i j) : i < l.length :=
  Nat.lt_trans h.lt h.close_lt

/-- A matched pair is one in every longer text. -/
theorem Matched.within {l : List UInt8} {i j : Nat} (h : Matched l i j)
    (before behind : List UInt8) :
    Matched (before ++ (l ++ behind)) (i + before.length) (j + before.length) := by
  obtain ⟨p, m, s, rfl, rfl, rfl, hm⟩ := matched_iff_split.mp h
  refine matched_iff_split.mpr ⟨before ++ p, m, s ++ behind, by simp, ?_, by omega, hm⟩
  rw [List.length_append, Nat.add_comm]

/-! ## At most one partner -/

/-- A `[` has at most one partner. -/
theorem Matched.close_unique {l : List UInt8} {i j j' : Nat} (h : Matched l i j)
    (h' : Matched l i j') : j = j' := by
  obtain ⟨p, m, s, rfl, rfl, rfl, hm⟩ := matched_iff_split.mp h
  obtain ⟨p', m', s', hl, hp, rfl, hm'⟩ := matched_iff_split.mp h'
  obtain ⟨-, hr⟩ := List.append_inj hl hp.symm
  rw [split_close_unique hm hm' (List.cons.inj hr).2]

/-- A `]` has at most one partner. -/
theorem Matched.open_unique {l : List UInt8} {i i' j : Nat} (h : Matched l i j)
    (h' : Matched l i' j) : i = i' := by
  obtain ⟨p, m, s, rfl, rfl, rfl, hm⟩ := matched_iff_split.mp h
  obtain ⟨p', m', s', hl, rfl, hj, hm'⟩ := matched_iff_split.mp h'
  have hcut : (p ++ openByte :: m) ++ closeByte :: s
      = (p' ++ openByte :: m') ++ closeByte :: s' := by simpa using hl
  have hlen : (p ++ openByte :: m).length = (p' ++ openByte :: m').length := by
    simp only [List.length_append, List.length_cons]
    omega
  rw [split_open_unique hm hm' (List.append_inj hcut hlen).1]

/-! ## Exactly one partner in a balanced text -/

/-- In a balanced text every `[` has its `]`. -/
theorem Balanced.exists_matched_open {l : List UInt8} (h : Balanced l) {i : Nat}
    (hi : l[i]? = some openByte) : ∃ j, Matched l i j := by
  obtain ⟨p, r, rfl, rfl⟩ := getElem?_eq_some_iff_split.mp hi
  obtain ⟨m, s, rfl, hm⟩ := h.exists_close
  exact ⟨p.length + 1 + m.length, matched_iff_split.mpr ⟨p, m, s, rfl, rfl, rfl, hm⟩⟩

/-- In a balanced text every `]` has its `[`. -/
theorem Balanced.exists_matched_close {l : List UInt8} (h : Balanced l) {j : Nat}
    (hj : l[j]? = some closeByte) : ∃ i, Matched l i j := by
  obtain ⟨p, r, rfl, rfl⟩ := getElem?_eq_some_iff_split.mp hj
  obtain ⟨s, m, rfl, hm⟩ := h.exists_open
  refine ⟨s.length, matched_iff_split.mpr ⟨s, m, r, by simp, rfl, ?_, hm⟩⟩
  simp only [List.length_append, List.length_cons]
  omega

/-! ## Reading on -/

/-- One more byte adds at most the pair that it closes. -/
theorem matched_append_singleton {l : List UInt8} {b : UInt8} {i j : Nat} :
    Matched (l ++ [b]) i j ↔ Matched l i j ∨
      (b = closeByte ∧ j = l.length ∧ ∃ p m, l = p ++ openByte :: m ∧ p.length = i ∧
        Balanced m) := by
  constructor
  · intro h
    obtain ⟨p, m, s, hl, rfl, rfl, hm⟩ := matched_iff_split.mp h
    cases s using List.reverseRecOn with
    | nil =>
        have hl' : l ++ [b] = (p ++ openByte :: m) ++ [closeByte] := by simpa using hl
        obtain ⟨rfl, hb⟩ := List.append_inj' hl' rfl
        refine Or.inr ⟨(List.cons.inj hb).1, ?_, p, m, rfl, rfl, hm⟩
        simp only [List.length_append, List.length_cons]
        omega
    | append_singleton s c _ =>
        have hl' : l ++ [b] = (p ++ openByte :: (m ++ closeByte :: s)) ++ [c] := by
          simpa using hl
        obtain ⟨rfl, -⟩ := List.append_inj' hl' rfl
        exact Or.inl (matched_iff_split.mpr ⟨p, m, s, rfl, rfl, rfl, hm⟩)
  · rintro (h | ⟨rfl, rfl, p, m, rfl, rfl, hm⟩)
    · obtain ⟨p, m, s, rfl, rfl, rfl, hm⟩ := matched_iff_split.mp h
      exact matched_iff_split.mpr ⟨p, m, s ++ [b], by simp, rfl, rfl, hm⟩
    · refine matched_iff_split.mpr ⟨p, m, [], by simp, rfl, ?_, hm⟩
      simp only [List.length_append, List.length_cons]
      omega

end TapeMachine.Bracket
