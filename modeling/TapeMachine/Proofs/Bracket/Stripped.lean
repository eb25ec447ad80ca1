import TapeMachine.Proofs.Bracket.TablePairs

/-! # A text without its comments

    `stripped l` is the text `l` without its comments, and `rank l pos` counts
    the instructions in front of `pos`, so it is the position that the byte at
    `pos` has there.  Comments are no brackets: to strip a text changes no depth,
    and takes matched pairs to matched pairs (`Matched.stripped`).  A text and
    what is left of it have a table or fail in the same way
    (`Table.build_stripped_cases`). -/

namespace TapeMachine.Bracket

/-- Whether a byte is an instruction. -/
def isCode (b : UInt8) : Bool := (Instruction.ofByte? b).isSome

/-- The instructions of a text, in order. -/
def stripped (l : List UInt8) : List UInt8 := l.filter isCode

/-- The number of instructions in front of a position. -/
def rank (l : List UInt8) (pos : Nat) : Nat := (stripped (l.take pos)).length

theorem plain_of_comment {b : UInt8} (h : isCode b = false) : Plain b := by
  refine ⟨?_, ?_⟩
  · rintro rfl
    exact Bool.noConfusion h
  · rintro rfl
    exact Bool.noConfusion h

/-! ## Cuts -/

/-- Comments are left out of two pieces of a text one by one. -/
theorem stripped_append (l r : List UInt8) : stripped (l ++ r) = stripped l ++ stripped r :=
  List.filter_append l r

theorem stripped_cons_of_code {b : UInt8} (h : isCode b = true) (l : List UInt8) :
    stripped (b :: l) = b :: stripped l :=
  List.filter_cons_of_pos h

theorem stripped_cons_of_comment {b : UInt8} (h : isCode b = false) (l : List UInt8) :
    stripped (b :: l) = stripped l :=
  List.filter_cons_of_neg (Bool.not_eq_true _ ▸ h)

/-- All the instructions of a front piece stand in front of its end. -/
theorem rank_append (p r : List UInt8) : rank (p ++ r) p.length = (stripped p).length := by
  rw [rank, List.take_left]

@[simp] theorem rank_zero (l : List UInt8) : rank l 0 = 0 := rfl

theorem rank_length (l : List UInt8) : rank l l.length = (stripped l).length := by
  rw [rank, List.take_length]

section Byte

variable {l : List UInt8} {pos : Nat} {b : UInt8}

/-- A byte adds one to the rank behind it if it is an instruction, and nothing if it is a
    comment. -/
theorem rank_succ (h : l[pos]? = some b) :
    rank l (pos + 1) = rank l pos + (stripped [b]).length := by
  obtain ⟨p, s, rfl, rfl⟩ := getElem?_eq_some_iff_split.mp h
  have hcut : p ++ b :: s = (p ++ [b]) ++ s := by simp
  have hlen : p.length + 1 = (p ++ [b]).length := by simp
  rw [rank_append, hcut, hlen, rank_append, stripped_append, List.length_append]

/-- An instruction adds one to the rank behind it. -/
theorem rank_succ_of_code (h : l[pos]? = some b) (hb : isCode b = true) :
    rank l (pos + 1) = rank l pos + 1 := by
  rw [rank_succ h, stripped_cons_of_code hb]
  rfl

theorem rank_succ_of_comment (h : l[pos]? = some b) (hb : isCode b = false) :
    rank l (pos + 1) = rank l pos := by
  rw [rank_succ h, stripped_cons_of_comment hb]
  rfl

/-- An instruction keeps its place in the order. -/
theorem getElem?_stripped (h : l[pos]? = some b) (hb : isCode b = true) :
    (stripped l)[rank l pos]? = some b := by
  obtain ⟨p, s, rfl, rfl⟩ := getElem?_eq_some_iff_split.mp h
  refine getElem?_eq_some_iff_split.mpr ⟨stripped p, stripped s, ?_, (rank_append p _).symm⟩
  rw [stripped_append, stripped_cons_of_code hb]

end Byte

/-! ## Depth and balance -/

/-- Comments open and close nothing. -/
@[simp] theorem depth_stripped (l : List UInt8) : depth (stripped l) = depth l := by
  induction l with
  | nil => rfl
  | cons b l ih =>
      cases hb : isCode b with
      | false => rw [stripped_cons_of_comment hb, ih, depth_plain (plain_of_comment hb)]
      | true =>
          have hcons : ∀ r : List UInt8, depth (b :: r) = depth [b] + depth r := depth_append [b]
          rw [stripped_cons_of_code hb, hcons (stripped l), hcons l, ih]

/-- The cuts of what is left of a text are what is left of its cuts. -/
theorem forall_cut_stripped_iff {l : List UInt8} {P : Int → Prop} :
    (∀ p s, stripped l = p ++ s → P (depth p)) ↔ ∀ p s, l = p ++ s → P (depth p) := by
  constructor
  · rintro h p s rfl
    rw [← depth_stripped p]
    exact h (stripped p) (stripped s) (stripped_append p s)
  · intro h p s hl
    obtain ⟨p', s', rfl, rfl, -⟩ := List.filter_eq_append_iff.mp hl
    rw [show depth (p'.filter isCode) = depth p' from depth_stripped p']
    exact h p' s' rfl

/-- Leaving the comments out does not change whether a text is balanced. -/
theorem balanced_stripped_iff {l : List UInt8} : Balanced (stripped l) ↔ Balanced l := by
  rw [balanced_iff_depth, balanced_iff_depth, depth_stripped,
    forall_cut_stripped_iff (P := (0 ≤ ·))]

/-- Matched brackets stay matched. -/
theorem Matched.stripped {l : List UInt8} {i j : Nat} (h : Matched l i j) :
    Matched (stripped l) (rank l i) (rank l j) := by
  obtain ⟨p, m, s, rfl, rfl, rfl, hm⟩ := matched_iff_split.mp h
  refine matched_iff_split.mpr ⟨Bracket.stripped p, Bracket.stripped m, Bracket.stripped s,
    ?_, (rank_append p _).symm, ?_, balanced_stripped_iff.mpr hm⟩
  · rw [stripped_append, stripped_cons_of_code rfl, stripped_append, stripped_cons_of_code rfl]
  · have hcut : p ++ openByte :: (m ++ closeByte :: s)
        = (p ++ openByte :: m) ++ closeByte :: s := by simp
    have hlen : p.length + 1 + m.length = (p ++ openByte :: m).length := by
      simp only [List.length_append, List.length_cons]
      omega
    rw [rank_append, hcut, hlen, rank_append, stripped_append, stripped_cons_of_code rfl]
    simp only [List.length_append, List.length_cons]
    omega

/-! ## Tables -/

namespace Table

variable {code : Array UInt8}

/-- A text and what is left of it both have a table, or both are refused in the same way. -/
theorem build_stripped_cases {code' : Array UInt8} (h : code'.toList = stripped code.toList) :
    ((∃ t, build code = .ok t) ∧ ∃ t', build code' = .ok t') ∨
    (build code = .error (.programCounterOutOfRange (-1) code.size) ∧
      build code' = .error (.programCounterOutOfRange (-1) code'.size)) ∨
    (build code = .error (.programCounterOutOfRange code.size code.size) ∧
      build code' = .error (.programCounterOutOfRange code'.size code'.size)) := by
  have hcuts : (∀ p s, code'.toList = p ++ s → 0 ≤ depth p)
      ↔ ∀ p s, code.toList = p ++ s → 0 ≤ depth p := by
    rw [h]
    exact forall_cut_stripped_iff (P := (0 ≤ ·))
  have hdepth : depth code'.toList = depth code.toList := by rw [h, depth_stripped]
  by_cases hc : ∀ p s, code.toList = p ++ s → 0 ≤ depth p
  · by_cases hd : depth code.toList = 0
    · have hb : Balanced code.toList := balanced_iff_depth.mpr ⟨hc, hd⟩
      have hb' : Balanced code'.toList := balanced_iff_depth.mpr ⟨hcuts.mpr hc, hdepth.trans hd⟩
      exact Or.inl ⟨build_of_balanced hb, build_of_balanced hb'⟩
    · have hd' : depth code'.toList ≠ 0 := fun h0 => hd (hdepth.symm.trans h0)
      exact Or.inr (Or.inr ⟨build_of_opens hc hd, build_of_opens (hcuts.mpr hc) hd'⟩)
  · have hc' : ¬ ∀ p s, code'.toList = p ++ s → 0 ≤ depth p := fun h' => hc (hcuts.mp h')
    exact Or.inr (Or.inl ⟨build_of_closes hc, build_of_closes hc'⟩)

end Table

end TapeMachine.Bracket
