import TapeMachine.Proofs.Bracket.TablePairs

/-! # The table and the skeleton of a text

    The skeleton of a text is where its `[` and where its `]` stand.  Two texts with
    one skeleton (`SameBrackets`) may differ in length and in every other byte.

    * From the skeleton to the table: each prefix of the one text is as deep as that
      prefix of the other (`SameBrackets.depth_take`).  Balance is a matter of depth,
      so the same positions are matched (`SameBrackets.matched_iff`) and the table of
      the one text is made for the other (`Table.build_of_sameBrackets`).
    * From the table to the skeleton: the table does not say which end of a pair is
      the `[`.  The order of the two positions does (`Table.PairsOf.open_at_iff`,
      `Table.PairsOf.close_at_iff`). -/

namespace TapeMachine.Bracket

/-- Two texts have their `[` at the same positions, and their `]`. -/
structure SameBrackets (l m : List UInt8) : Prop where
  open_at : ∀ i : Nat, l[i]? = some openByte ↔ m[i]? = some openByte
  close_at : ∀ i : Nat, l[i]? = some closeByte ↔ m[i]? = some closeByte

variable {l m : List UInt8}

theorem SameBrackets.symm (h : SameBrackets l m) : SameBrackets m l :=
  ⟨fun i => (h.open_at i).symm, fun i => (h.close_at i).symm⟩

/-! ## Depth -/

/-- Where there is no bracket, no depth is added. -/
theorem depth_toList_of_ne {b : Option UInt8} (hopen : b ≠ some openByte)
    (hclose : b ≠ some closeByte) : depth b.toList = 0 := by
  cases b with
  | none => rfl
  | some b =>
      have hplain : Plain b :=
        ⟨fun h => hopen (congrArg some h), fun h => hclose (congrArg some h)⟩
      exact depth_plain hplain []

/-- One position adds the same to the depth of both texts. -/
theorem SameBrackets.depth_at (h : SameBrackets l m) (i : Nat) :
    depth l[i]?.toList = depth m[i]?.toList := by
  by_cases hopen : l[i]? = some openByte
  · rw [hopen, (h.open_at i).mp hopen]
  · by_cases hclose : l[i]? = some closeByte
    · rw [hclose, (h.close_at i).mp hclose]
    · have hopen' : m[i]? ≠ some openByte := fun hm => hopen ((h.open_at i).mpr hm)
      have hclose' : m[i]? ≠ some closeByte := fun hm => hclose ((h.close_at i).mpr hm)
      rw [depth_toList_of_ne hopen hclose, depth_toList_of_ne hopen' hclose']

/-- Up to any position, also behind the end of one of them, the texts are equally deep. -/
theorem SameBrackets.depth_take (h : SameBrackets l m) (n : Nat) :
    depth (l.take n) = depth (m.take n) := by
  -- on the position, since the texts may differ in length
  induction n with
  | zero => rw [List.take_zero, List.take_zero]
  | succ n ih =>
      rw [List.take_add_one, List.take_add_one, depth_append, depth_append, ih, h.depth_at]

/-- They open and close equally much. -/
theorem SameBrackets.depth_eq (h : SameBrackets l m) : depth l = depth m := by
  have hl : l.take (max l.length m.length) = l :=
    List.take_of_length_le (Nat.le_max_left _ _)
  have hm : m.take (max l.length m.length) = m :=
    List.take_of_length_le (Nat.le_max_right _ _)
  calc
    depth l = depth (l.take (max l.length m.length)) := by rw [hl]
    _ = depth (m.take (max l.length m.length)) := h.depth_take _
    _ = depth m := by rw [hm]

/-! ## Balance and matched pairs -/

/-- If the one is balanced, so is the other. -/
theorem SameBrackets.balanced (h : SameBrackets l m) (hl : Balanced l) : Balanced m := by
  rw [balanced_iff_depth] at hl ⊢
  refine ⟨?_, ?_⟩
  · rintro p s rfl
    have hfront := hl.1 _ _ (List.take_append_drop p.length l).symm
    rw [h.depth_take, List.take_left] at hfront
    exact hfront
  · rw [← h.depth_eq]
    exact hl.2

/-- What stands between two positions of the one has its brackets where the other has. -/
theorem SameBrackets.between (h : SameBrackets l m) (i j : Nat) :
    SameBrackets (between l i j) (between m i j) := by
  refine ⟨?_, ?_⟩
  · intro k
    rw [getElem?_between_eq_some_iff, getElem?_between_eq_some_iff, h.open_at]
  · intro k
    rw [getElem?_between_eq_some_iff, getElem?_between_eq_some_iff, h.close_at]

/-- The matched pairs of the one are matched pairs of the other. -/
theorem SameBrackets.matched (h : SameBrackets l m) {i j : Nat} (hij : Matched l i j) :
    Matched m i j where
  lt := hij.lt
  open_at := (h.open_at i).mp hij.open_at
  close_at := (h.close_at j).mp hij.close_at
  inside := (h.between i j).balanced hij.inside

/-- The same positions are matched in both texts. -/
theorem SameBrackets.matched_iff (h : SameBrackets l m) (i j : Nat) :
    Matched l i j ↔ Matched m i j :=
  ⟨h.matched, h.symm.matched⟩

/-! ## Tables -/

namespace Table

variable {a b : Array UInt8} {s t : Table}

/-- A bracket with its partner behind it is a `[`. -/
theorem PairsOf.open_at_iff (h : PairsOf t l) (hl : Balanced l) (i : Nat) :
    l[i]? = some openByte ↔ ∃ j, i < j ∧ t.partner? i = some j := by
  constructor
  · intro hi
    obtain ⟨j, hj⟩ := hl.exists_matched_open hi
    exact ⟨j, hj.lt, (h.partner?_eq_iff i j).mpr (Or.inl hj)⟩
  · rintro ⟨j, hlt, hj⟩
    -- the entry is that of a `[` or that of a `]`, whose partner stands in front
    rcases (h.partner?_eq_iff i j).mp hj with hij | hji
    · exact hij.open_at
    · exact absurd hji.lt (Nat.lt_asymm hlt)

/-- A bracket with its partner in front of it is a `]`. -/
theorem PairsOf.close_at_iff (h : PairsOf t l) (hl : Balanced l) (j : Nat) :
    l[j]? = some closeByte ↔ ∃ i, i < j ∧ t.partner? j = some i := by
  constructor
  · intro hj
    obtain ⟨i, hi⟩ := hl.exists_matched_close hj
    exact ⟨i, hi.lt, (h.partner?_eq_iff j i).mpr (Or.inr hi)⟩
  · rintro ⟨i, hlt, hi⟩
    rcases (h.partner?_eq_iff j i).mp hi with hji | hij
    · exact absurd hji.lt (Nat.lt_asymm hlt)
    · exact hij.close_at

/-- Tables that hold the pairs of texts with one skeleton are equal. -/
theorem PairsOf.eq_of_sameBrackets (hs : PairsOf s l) (ht : PairsOf t m)
    (h : SameBrackets l m) : s = t := by
  refine ext_partner? ?_
  intro i
  refine Option.ext ?_
  intro j
  rw [hs.partner?_eq_iff, ht.partner?_eq_iff, h.matched_iff, h.matched_iff]

/-- The table of a text is made for every text with the same brackets. -/
theorem build_of_sameBrackets (h : SameBrackets a.toList b.toList) (ha : build a = .ok t) :
    build b = .ok t := by
  obtain ⟨hbalanced, hpairs⟩ := build_eq_ok ha
  obtain ⟨t', ht'⟩ := build_of_balanced (h.balanced hbalanced)
  rw [ht', hpairs.eq_of_sameBrackets (build_eq_ok ht').2 h]

/-- Texts with one table have the same brackets. -/
theorem sameBrackets_of_build (ha : build a = .ok t) (hb : build b = .ok t) :
    SameBrackets a.toList b.toList := by
  obtain ⟨hbalanced, hpairs⟩ := build_eq_ok ha
  obtain ⟨hbalanced', hpairs'⟩ := build_eq_ok hb
  refine ⟨?_, ?_⟩
  · intro i
    rw [hpairs.open_at_iff hbalanced, hpairs'.open_at_iff hbalanced']
  · intro j
    rw [hpairs.close_at_iff hbalanced, hpairs'.close_at_iff hbalanced']

/-- **The table is the skeleton.**  Two texts that have a table have the same one
    exactly if they have `[` at the same positions and `]` at the same positions. -/
theorem same_table_iff_same_brackets (ha : build a = .ok s) (hb : build b = .ok t) :
    s = t ↔
      (∀ i : Nat, a[i]? = some openByte ↔ b[i]? = some openByte) ∧
      ∀ i : Nat, a[i]? = some closeByte ↔ b[i]? = some closeByte := by
  constructor
  · rintro rfl
    obtain ⟨hopen, hclose⟩ := sameBrackets_of_build ha hb
    simp only [Array.getElem?_toList] at hopen hclose
    exact ⟨hopen, hclose⟩
  · rintro ⟨hopen, hclose⟩
    have hsame : SameBrackets a.toList b.toList := by
      refine ⟨?_, ?_⟩
      · simpa only [Array.getElem?_toList] using hopen
      · simpa only [Array.getElem?_toList] using hclose
    exact Except.ok.inj ((build_of_sameBrackets hsame ha).symm.trans hb)

/-- Another byte between the brackets and one more behind them leave the table of
    `[[-]]` as it is.  The text `[]-[]` has brackets at the same positions, but not
    the same ones, and another table. -/
theorem same_table_iff_same_brackets_around_comments :
    let nested := (empty.addPair 1 3).addPair 0 4
    let apart := (empty.addPair 0 1).addPair 3 4
    build #[0x5B, 0x5B, 0x2D, 0x5D, 0x5D] = .ok nested ∧
      build #[0x5B, 0x5B, 0xC3, 0x5D, 0x5D, 0x2E] = .ok nested ∧
      build #[0x5B, 0x5D, 0x2D, 0x5B, 0x5D] = .ok apart ∧
      (∀ i : Nat, #[0x5B, 0x5B, 0x2D, 0x5D, 0x5D][i]? = some openByte ↔
        #[0x5B, 0x5B, 0xC3, 0x5D, 0x5D, 0x2E][i]? = some openByte) ∧
      nested ≠ apart := by
  intro nested apart
  have hminus : build #[0x5B, 0x5B, 0x2D, 0x5D, 0x5D] = .ok nested := rfl
  have hlonger : build #[0x5B, 0x5B, 0xC3, 0x5D, 0x5D, 0x2E] = .ok nested := rfl
  have hapart : build #[0x5B, 0x5D, 0x2D, 0x5B, 0x5D] = .ok apart := rfl
  refine ⟨hminus, hlonger, hapart, ?_, ?_⟩
  · exact ((same_table_iff_same_brackets hminus hlonger).mp rfl).1
  · intro heq
    have hopen := ((same_table_iff_same_brackets hminus hapart).mp heq).1 1
    exact absurd (hopen.mp rfl) (by decide)

end Table

end TapeMachine.Bracket
