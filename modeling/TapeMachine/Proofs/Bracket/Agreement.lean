import TapeMachine.Proofs.Bracket.Nearest
import TapeMachine.Proofs.Bracket.TablePairs

/-! # Table and searches agree

    The table is made in one pass over the whole text, each search sees the part
    of the text that it walks over.  What ties them together is the matched pair,
    and where there is none, the depth of the text:

    * the first `]` that closes more than was opened has a balanced text in front
      of it (`balanced_of_isLeast_strays`), so the search from there finds nothing;
    * a `[` is left open at the end exactly if it has no partner
      (`leftOpen_iff_not_matched`).

    So a table can be made exactly if every search succeeds, and where it cannot,
    the search from the bracket to blame fails alike (`table_and_searches_agree`).

    Two searches need no table to agree with each other.  On any text they are
    inverse to each other, and what they find is nested or apart
    (`searches_are_inverse`). -/

namespace TapeMachine.Bracket

variable {code : Array UInt8} {l : List UInt8} {i j : Nat}

/-! ## Brackets to blame -/

/-- The positions of a `]` with more `]` than `[` up to it. -/
def strays (l : List UInt8) : Set Nat :=
  {j | l[j]? = some closeByte ∧ opens (l.take (j + 1)) < closes (l.take (j + 1))}

/-- The `[` at `i` is left open at the end: from there on the text stays deeper
    than in front of it. -/
def LeftOpen (l : List UInt8) (i : Nat) : Prop :=
  l[i]? = some openByte ∧ ∀ k, i < k → k ≤ l.length → depth (l.take i) < depth (l.take k)

/-- Behind a balanced text, a `]` is the first to close more than was opened. -/
theorem isLeast_strays {m r : List UInt8} (hm : Balanced m) :
    IsLeast (strays (m ++ closeByte :: r)) m.length := by
  refine ⟨⟨by simp, ?_⟩, ?_⟩
  · rw [opens_lt_closes_iff, List.append_cons, List.take_left' (by simp), depth_append,
      depth_close, depth_nil, hm.depth_eq]
    decide
  · rintro k ⟨-, hk⟩
    by_contra hlt
    rw [opens_lt_closes_iff, List.take_append_of_le_length (by omega)] at hk
    have hnonneg := (balanced_iff_depth.mp hm).1 _ _ (List.take_append_drop (k + 1) m).symm
    omega

/-- In front of the first stray `]` the text is balanced. -/
theorem balanced_of_isLeast_strays (h : IsLeast (strays l) j) : Balanced (l.take j) := by
  obtain ⟨p, r, rfl, rfl⟩ := getElem?_eq_some_iff_split.mp h.1.1
  rw [List.take_left]
  have hstray := opens_lt_closes_iff.mp h.1.2
  obtain ⟨m, s, hcut, hm⟩ :=
    exists_first_close ⟨_, _, (List.take_append_drop _ _).symm, hstray⟩
  -- both `]` are the first
  have hlen : m.length = p.length := (isLeast_strays hm).unique (hcut ▸ h)
  obtain ⟨rfl, -⟩ := List.append_inj hcut hlen.symm
  exact hm

theorem Matched.depth_take (h : Matched l i j) : depth (l.take (j + 1)) = depth (l.take i) := by
  obtain ⟨p, m, s, rfl, rfl, rfl, hm⟩ := matched_iff_split.mp h
  have hcut : p ++ openByte :: (m ++ closeByte :: s)
      = (p ++ openByte :: (m ++ [closeByte])) ++ s := by simp
  rw [List.take_left, hcut, List.take_left' (by simp; omega), depth_append, depth_open,
    depth_append, hm.depth_eq, depth_closeByte]
  omega

/-- A `[` is left open exactly if it has no partner. -/
theorem leftOpen_iff_not_matched (hi : l[i]? = some openByte) :
    LeftOpen l i ↔ ∀ j, ¬ Matched l i j := by
  constructor
  · rintro ⟨-, hdeeper⟩ j hj
    have hlt := hdeeper (j + 1) (Nat.lt_succ_of_lt hj.lt) hj.close_lt
    rw [hj.depth_take] at hlt
    exact Int.lt_irrefl _ hlt
  · intro hnone
    refine ⟨hi, ?_⟩
    intro k hik hk
    by_contra hdepth
    obtain ⟨p, r, rfl, rfl⟩ := getElem?_eq_some_iff_split.mp hi
    -- back at the depth in front of the `[`, the text behind it has closed too much
    obtain ⟨n, rfl⟩ := Nat.exists_eq_add_of_lt hik
    have htake : (p ++ openByte :: r).take (p.length + n + 1) = p ++ openByte :: r.take n := by
      rw [List.take_append, List.take_of_length_le (by omega),
        show p.length + n + 1 - p.length = n + 1 by omega, List.take_succ_cons]
    rw [htake, List.take_left, depth_append, depth_open] at hdepth
    obtain ⟨m, s, rfl, hm⟩ :=
      exists_first_close ⟨r.take n, r.drop n, (List.take_append_drop n r).symm, by omega⟩
    exact hnone _ (matched_iff_split.mpr ⟨p, m, s, rfl, rfl, rfl, hm⟩)

/-! ## What the searches do there -/

/-- The search from the first stray `]` leaves the text at the front. -/
theorem findOpen_of_isLeast_strays (h : IsLeast (strays code.toList) j) :
    findOpen code j = .error (.programCounterOutOfRange (-1) code.size) := by
  have hj := h.1.1
  rw [Array.getElem?_toList] at hj
  refine findOpen_eq_error (Nat.le_of_lt (Array.getElem?_eq_some_iff.mp hj).1) ?_
  intro i hi
  obtain ⟨p, m, s, hcut, rfl, rfl, hm⟩ :=
    matched_iff_split.mp ((findOpen_eq_ok_iff_matched hj).mp hi)
  have hfront : code.toList.take (p.length + 1 + m.length) = p ++ openByte :: m := by
    have hcut' : code.toList = (p ++ openByte :: m) ++ closeByte :: s := by simpa using hcut
    rw [hcut', List.take_left' (by simp; omega)]
  exact (balanced_of_isLeast_strays h).ne_split_open hm hfront

/-- The search from a `[` left open leaves the text at the back. -/
theorem findClose_of_leftOpen (h : LeftOpen code.toList i) (hfits : 2 * code.size < UInt64.size) :
    findClose code i = .error (.programCounterOutOfRange code.size code.size) := by
  have hi := h.1
  rw [Array.getElem?_toList] at hi
  have hlt := (Array.getElem?_eq_some_iff.mp hi).1
  have hmax : max code.size (i + 1) = code.size := Nat.max_eq_left hlt
  have hfail : ∀ j, findClose code i ≠ .ok j := by
    intro j hj
    exact (leftOpen_iff_not_matched h.1).mp h j ((findClose_eq_ok_iff_matched hi).mp hj)
  rw [findClose_eq_error hfail, hmax, signedPosition_of_lt hfits]

/-! ## The table and the searches -/

/-- A text that closes nothing too much and yet is not balanced leaves a `[` open. -/
theorem exists_leftOpen (hdepth : depth l ≠ 0) (hnonneg : ∀ p s, l = p ++ s → 0 ≤ depth p) :
    ∃ i, LeftOpen l i := by
  have hwhole := hnonneg l [] (List.append_nil l).symm
  obtain ⟨p, m, rfl, hm⟩ := exists_last_open ⟨[], l, rfl, by omega⟩
  refine ⟨p.length, (leftOpen_iff_not_matched (by simp)).mpr ?_⟩
  intro j hj
  obtain ⟨p', m', s, hl, hp, -, hm'⟩ := matched_iff_split.mp hj
  obtain ⟨-, hr⟩ := List.append_inj hl hp.symm
  exact hm.ne_split_close hm' (List.cons.inj hr).2

/-- A text with a prefix that closes too much has a first `]` with nothing to close. -/
theorem exists_isLeast_strays (h : ∃ p s, l = p ++ s ∧ depth p < 0) :
    ∃ j, IsLeast (strays l) j := by
  obtain ⟨m, r, rfl, hm⟩ := exists_first_close h
  exact ⟨m.length, isLeast_strays hm⟩

/-- A table can be made exactly if the search from every bracket succeeds. -/
theorem exists_build_iff_searches : (∃ t, Table.build code = .ok t) ↔
    (∀ i, code[i]? = some openByte → ∃ j, findClose code i = .ok j) ∧
    ∀ j, code[j]? = some closeByte → ∃ i, findOpen code j = .ok i := by
  constructor
  · rintro ⟨t, ht⟩
    have hb := (Table.build_eq_ok ht).1
    refine ⟨?_, ?_⟩
    · intro i hi
      simp only [findClose_eq_ok_iff_matched hi]
      exact hb.exists_matched_open (by rw [Array.getElem?_toList, hi])
    · intro j hj
      simp only [findOpen_eq_ok_iff_matched hj]
      exact hb.exists_matched_close (by rw [Array.getElem?_toList, hj])
  · rintro ⟨hforward, hbackward⟩
    rcases Table.build_cases code with ⟨t, ht, -⟩ | ⟨-, hclosed⟩ | ⟨-, hdepth, hnonneg⟩
    · exact ⟨t, ht⟩
    · -- the search from the first stray `]` would fail
      obtain ⟨j, hj⟩ := exists_isLeast_strays hclosed
      obtain ⟨i, hi⟩ := hbackward j (by rw [← Array.getElem?_toList, hj.1.1])
      rw [findOpen_of_isLeast_strays hj] at hi
      cases hi
    · -- the search from a `[` left open would fail
      obtain ⟨i, hi⟩ := exists_leftOpen hdepth hnonneg
      have hopen : code[i]? = some openByte := by rw [← Array.getElem?_toList, hi.1]
      obtain ⟨j, hj⟩ := hforward i hopen
      exact absurd ((findClose_eq_ok_iff_matched hopen).mp hj)
        ((leftOpen_iff_not_matched hi.1).mp hi j)

/-- **Table and searches agree.**  A table can be made exactly if the search from
    every bracket succeeds, and it then holds what they find.  If it cannot be made,
    the error is that of the search from the first `]` that closes more than was
    opened; or, if there is none, that of the search from each `[` left open, as long
    as the length of the text can be reported as a position. -/
theorem table_and_searches_agree (code : Array UInt8) :
    ((∃ t, Table.build code = .ok t) ↔
      (∀ i, code[i]? = some openByte → ∃ j, findClose code i = .ok j) ∧
      ∀ j, code[j]? = some closeByte → ∃ i, findOpen code j = .ok i) ∧
    (∀ t, Table.build code = .ok t →
      (∀ i, code[i]? = some openByte →
        ∃ j, t.partner? i = some j ∧ findClose code i = .ok j) ∧
      ∀ j, code[j]? = some closeByte →
        ∃ i, t.partner? j = some i ∧ findOpen code j = .ok i) ∧
    (∀ f, Table.build code = .error f →
      (f = .programCounterOutOfRange (-1) code.size ∧
        ∃ j, IsLeast (strays code.toList) j ∧ findOpen code j = .error f) ∨
      (f = .programCounterOutOfRange code.size code.size ∧
        (∃ i, LeftOpen code.toList i) ∧
        ∀ i, LeftOpen code.toList i → 2 * code.size < UInt64.size →
          findClose code i = .error f)) := by
  refine ⟨exists_build_iff_searches, ?_, ?_⟩
  · intro t ht
    obtain ⟨hb, hp⟩ := Table.build_eq_ok ht
    refine ⟨?_, ?_⟩
    · intro i hi
      obtain ⟨j, hj⟩ := hb.exists_matched_open (by rw [Array.getElem?_toList, hi])
      exact ⟨j, (hp.partner?_eq_iff i j).mpr (Or.inl hj),
        (findClose_eq_ok_iff_matched hi).mpr hj⟩
    · intro j hj
      obtain ⟨i, hi⟩ := hb.exists_matched_close (by rw [Array.getElem?_toList, hj])
      exact ⟨i, (hp.partner?_eq_iff j i).mpr (Or.inr hi),
        (findOpen_eq_ok_iff_matched hj).mpr hi⟩
  · intro f hf
    rcases Table.build_cases code with ⟨t, ht, -⟩ | ⟨he, hclosed⟩ | ⟨he, hdepth, hnonneg⟩
    · rw [hf] at ht
      cases ht
    · obtain rfl := Except.error.inj (hf.symm.trans he)
      obtain ⟨j, hj⟩ := exists_isLeast_strays hclosed
      exact Or.inl ⟨rfl, j, hj, findOpen_of_isLeast_strays hj⟩
    · obtain rfl := Except.error.inj (hf.symm.trans he)
      exact Or.inr ⟨rfl, exists_leftOpen hdepth hnonneg,
        fun i hi hfits => findClose_of_leftOpen hi hfits⟩

/-- The table stops at a stray `]`, the search from a `[` behind it does not see it. -/
example : Table.build #[0x5D, 0x5B] = .error (.programCounterOutOfRange (-1) 2) ∧
    findClose #[0x5D, 0x5B] 1 = .error (.programCounterOutOfRange 2 2) := ⟨rfl, rfl⟩

/-! ## Searches among themselves -/

/-- Two matched pairs are apart or one is inside of the other. -/
theorem Matched.apart_or_inside {i' j' : Nat} (h : Matched l i j) (h' : Matched l i' j')
    (hi : i < i') : j < i' ∨ j' < j := by
  by_contra hcross
  rw [not_or, Nat.not_lt, Nat.not_lt] at hcross
  obtain ⟨hij, hjj⟩ := hcross
  -- neither end of the one pair is an end of the other
  have hij' : i' ≠ j := by
    rintro rfl
    exact absurd (h'.open_at.symm.trans h.close_at) (by decide)
  have hjj' : j ≠ j' := by
    rintro rfl
    exact absurd (h.open_unique h') (Nat.ne_of_lt hi)
  -- so the text of the first pair ends within that of the second
  have hfirst := between_cut hi (Nat.lt_of_le_of_ne hij hij') h'.open_at
  have hsecond := between_cut (Nat.lt_of_le_of_ne hij hij') (Nat.lt_of_le_of_ne hjj hjj')
    h.close_at
  have hfront := (hfirst ▸ h.inside).depth_nonneg
  have hwhole := h.inside.depth_eq
  have hnonneg := (hsecond ▸ h'.inside).depth_nonneg
  rw [hfirst, depth_append, depth_open] at hwhole
  omega

/-- **The searches are inverse to each other, and what they find never crosses.**
    On any text, balanced or not, a `]` is found from a `[` exactly if that `[` is
    found from it; and of two `[` with a `]` each, the first pair ends before the
    second begins, or behind its end. -/
theorem searches_are_inverse (code : Array UInt8) :
    (∀ i j, code[i]? = some openByte → code[j]? = some closeByte →
      (findClose code i = .ok j ↔ findOpen code j = .ok i)) ∧
    ∀ i i' j j', i < i' → code[i]? = some openByte → code[i']? = some openByte →
      findClose code i = .ok j → findClose code i' = .ok j' → j < i' ∨ j' < j := by
  refine ⟨?_, ?_⟩
  · intro i j hi hj
    rw [findClose_eq_ok_iff_matched hi, findOpen_eq_ok_iff_matched hj]
  · intro i i' j j' hlt hi hi' hj hj'
    rw [findClose_eq_ok_iff_matched hi] at hj
    rw [findClose_eq_ok_iff_matched hi'] at hj'
    exact hj.apart_or_inside hj' hlt

end TapeMachine.Bracket
