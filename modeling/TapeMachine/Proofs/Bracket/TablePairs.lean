import TapeMachine.Bracket.Table
import TapeMachine.Proofs.Bracket.Matched

/-! # The jump table is the bracket matching

    `buildFrom` reads a text once, with the open positions on a stack and the
    closed pairs in a table.  Two things hold of the part read so far, at every
    byte:

    * the stack lists the `[` that are not closed, and the text between one of
      them and the next is balanced (`Unclosed`);
    * the table holds the matched pairs and nothing else (`PairsOf`).

    At the end, or at the `]` that finds the stack empty, they say what the
    answer is (`buildFrom_cases`). -/

namespace TapeMachine.Bracket

/-! ## The stack -/

/-- The positions of the `[` of a text that are not closed, innermost first. -/
inductive Unclosed : List UInt8 → List Nat → Prop where
  | done {l : List UInt8} : Balanced l → Unclosed l []
  | inside {p m : List UInt8} {opened : List Nat} : Unclosed p opened → Balanced m →
      Unclosed (p ++ openByte :: m) (p.length :: opened)

/-- A balanced piece leaves nothing more unclosed. -/
theorem Unclosed.append {l m : List UInt8} {opened : List Nat} (h : Unclosed l opened)
    (hm : Balanced m) : Unclosed (l ++ m) opened := by
  cases h with
  | done hl => exact .done (hl.append hm)
  | @inside p q opened hp hq =>
      have : (p ++ openByte :: q) ++ m = p ++ openByte :: (q ++ m) := by simp
      rw [this]
      exact .inside hp (hq.append hm)

/-- A text is as deep as its stack is high. -/
theorem Unclosed.depth_eq {l : List UInt8} {opened : List Nat} (h : Unclosed l opened) :
    depth l = opened.length := by
  induction h with
  | done hl => exact hl.depth_eq
  | inside _ hm ih =>
      rw [depth_append, depth_open, hm.depth_eq, ih]
      simp

/-- While there is a stack, no `]` has closed too much. -/
theorem Unclosed.depth_nonneg {l : List UInt8} {opened : List Nat} (h : Unclosed l opened) :
    ∀ p s, l = p ++ s → 0 ≤ depth p := by
  induction h with
  | done hl => exact (balanced_iff_depth.mp hl).1
  | @inside q m opened hq hm ih =>
      intro p s hps
      rcases List.append_eq_append_iff.mp hps with ⟨t, rfl, ht⟩ | ⟨t, rfl, -⟩
      · have hq0 := ih q [] (by simp)
        rcases List.cons_eq_append_iff.mp ht with ⟨rfl, -⟩ | ⟨u, rfl, hu⟩
        · simpa using hq0
        · -- the cut lies behind the innermost `[`
          have hu0 := (balanced_iff_depth.mp hm).1 u s hu
          rw [depth_append, depth_open]
          omega
      · exact ih p t rfl

/-- The innermost open bracket is the last `[` with a balanced text behind it. -/
theorem Unclosed.head?_eq_iff {l : List UInt8} {opened : List Nat} (h : Unclosed l opened)
    {i : Nat} :
    opened.head? = some i ↔ ∃ p m, l = p ++ openByte :: m ∧ p.length = i ∧ Balanced m := by
  cases h with
  | done hl =>
      constructor
      · intro hi
        exact absurd hi (by simp)
      · rintro ⟨p, m, rfl, -, hm⟩
        exact absurd rfl (hl.ne_split_open hm)
  | @inside q n opened hq hn =>
      constructor
      · intro hi
        exact ⟨q, n, rfl, Option.some.inj hi, hn⟩
      · rintro ⟨p, m, hl, rfl, hm⟩
        rw [split_open_unique hn hm hl]
        rfl

/-- An open bracket has no partner yet. -/
theorem Unclosed.head_not_matched {l : List UInt8} {start : Nat} {opened : List Nat}
    (h : Unclosed l (start :: opened)) (j : Nat) : ¬ Matched l start j := by
  intro hj
  obtain ⟨p, m, hl, hp, hm⟩ := h.head?_eq_iff.mp rfl
  obtain ⟨p', m', s, hl', hp', -, hm'⟩ := matched_iff_split.mp hj
  obtain ⟨-, hr⟩ := List.append_inj (hl.symm.trans hl') (hp.trans hp'.symm)
  exact hm.ne_split_close hm' (List.cons.inj hr).2

/-- A `]` closes the innermost open bracket, and no other pair appears. -/
theorem Unclosed.matched_append_close {l : List UInt8} {start : Nat} {opened : List Nat}
    (h : Unclosed l (start :: opened)) (i j : Nat) :
    Matched (l ++ [closeByte]) i j ↔ Matched l i j ∨ (i = start ∧ j = l.length) := by
  rw [matched_append_singleton, ← h.head?_eq_iff]
  simp [eq_comm, and_comm]

/-! ## The table -/

namespace Table

/-- A table that holds the matched pairs of a text, in both directions. -/
structure PairsOf (t : Table) (l : List UInt8) : Prop where
  partner?_eq_iff : ∀ i j, t.partner? i = some j ↔ Matched l i j ∨ Matched l j i
  size_eq : t.partners.size = 2 * closes l

/-- A position that no pair has an end at has no partner. -/
theorem PairsOf.partner?_eq_none {t : Table} {l : List UInt8} (h : PairsOf t l) {i : Nat}
    (hi : ∀ j, ¬ Matched l i j ∧ ¬ Matched l j i) : t.partner? i = none := by
  cases hp : t.partner? i with
  | none => rfl
  | some j =>
      rcases (h.partner?_eq_iff i j).mp hp with hj | hj
      · exact absurd hj (hi j).1
      · exact absurd hj (hi j).2

/-- A new pair has two new keys. -/
theorem size_addPair {t : Table} {start stop : Nat} (hne : stop ≠ start)
    (hstart : t.partner? start = none) (hstop : t.partner? stop = none) :
    (t.addPair start stop).partners.size = t.partners.size + 2 := by
  have hmem : ∀ {k}, t.partner? k = none → k ∉ t.partners := by
    intro k hk hmem
    have := Std.ExtTreeMap.mem_iff_isSome_getElem?.mp hmem
    rw [show t.partners[k]? = none from hk] at this
    exact absurd this (by simp)
  rw [addPair, Std.ExtTreeMap.size_insert, Std.ExtTreeMap.size_insert, if_neg, if_neg]
  · exact hmem hstart
  · intro hk
    rcases Std.ExtTreeMap.mem_insert.mp hk with hk | hk
    · exact hne (Nat.compare_eq_eq.mp hk).symm
    · exact hmem hstop hk

theorem pairsOf_empty : PairsOf empty [] := by
  refine ⟨?_, rfl⟩
  intro i j
  rw [partner?_empty]
  constructor
  · intro h
    exact absurd h (by simp)
  · rintro (h | h)
    · exact absurd h.open_at (by simp)
    · exact absurd h.open_at (by simp)

/-- A byte that closes nothing leaves the pairs as they are. -/
theorem PairsOf.skip {t : Table} {l : List UInt8} {b : UInt8} (h : PairsOf t l)
    (hb : b ≠ closeByte) : PairsOf t (l ++ [b]) := by
  have hsame : ∀ i j, Matched (l ++ [b]) i j ↔ Matched l i j := by
    intro i j
    rw [matched_append_singleton]
    exact or_iff_left (fun h => hb h.1)
  refine ⟨?_, ?_⟩
  · intro i j
    rw [h.partner?_eq_iff, hsame, hsame]
  · rw [h.size_eq, closes, closes, List.count_append, List.count_singleton]
    simp [hb]

/-- A `]` adds the pair that it makes with the innermost open `[`. -/
theorem PairsOf.close {t : Table} {l : List UInt8} {start : Nat} {opened : List Nat}
    (h : PairsOf t l) (hu : Unclosed l (start :: opened)) :
    PairsOf (t.addPair start l.length) (l ++ [closeByte]) := by
  have hopen : l[start]? = some openByte := by
    obtain ⟨p, m, rfl, rfl, -⟩ := hu.head?_eq_iff.mp rfl
    simp
  have hlt : start < l.length := (List.getElem?_eq_some_iff.mp hopen).1
  have hbound : ∀ {i j}, Matched l i j → j < l.length := by
    intro i j hij
    exact (List.getElem?_eq_some_iff.mp hij.close_at).1
  -- neither end of the new pair has a partner before
  have hstart : ∀ j, ¬ Matched l start j ∧ ¬ Matched l j start := by
    intro j
    refine ⟨hu.head_not_matched j, ?_⟩
    intro hj
    exact absurd (Option.some.inj (hopen.symm.trans hj.close_at)) (by decide)
  have hstop : ∀ j, ¬ Matched l l.length j ∧ ¬ Matched l j l.length := by
    intro j
    refine ⟨?_, ?_⟩
    · intro hj
      have := hbound hj
      have := hj.lt
      omega
    · intro hj
      have := hbound hj
      omega
  refine ⟨?_, ?_⟩
  · intro i j
    rw [partner?_addPair, hu.matched_append_close, hu.matched_append_close]
    by_cases hi : i = l.length
    · subst hi
      simp [(hstop j).1, (hstop j).2, Nat.ne_of_gt hlt, eq_comm]
    · by_cases hs : i = start
      · subst hs
        simp [(hstart j).1, (hstart j).2, hi, eq_comm]
      · simp [hi, hs, h.partner?_eq_iff]
  · rw [size_addPair (Nat.ne_of_gt hlt) (h.partner?_eq_none hstart) (h.partner?_eq_none hstop),
      h.size_eq, closes, closes, List.count_append, List.count_singleton_self]
    omega

/-! ## The pass -/

section Pass

variable {len : Nat} {rest : List UInt8} {pos : Nat} {opened : List Nat} {t : Table}

theorem buildFrom_open :
    buildFrom len (openByte :: rest) pos opened t
      = buildFrom len rest (pos + 1) (pos :: opened) t := rfl

/-- A `]` with nothing to close ends the construction. -/
theorem buildFrom_close_nil :
    buildFrom len (closeByte :: rest) pos [] t
      = .error (.programCounterOutOfRange (-1) len) := rfl

/-- A `]` closes the innermost `[` that waits. -/
theorem buildFrom_close_cons {start : Nat} :
    buildFrom len (closeByte :: rest) pos (start :: opened) t
      = buildFrom len rest (pos + 1) opened (t.addPair start pos) := rfl

theorem buildFrom_plain {b : UInt8} (hb : Plain b) :
    buildFrom len (b :: rest) pos opened t = buildFrom len rest (pos + 1) opened t := by
  rw [buildFrom.eq_def]
  dsimp only
  split
  · rename_i h
    exact absurd (Instruction.ofByte?_eq_some_iff.mp h) hb.1
  · rename_i h
    exact absurd (Instruction.ofByte?_eq_some_iff.mp h) hb.2
  · rfl

/-- What the pass answers, from any point of a text on: the pairs of the whole
    text if that is balanced; else -1 if some prefix closes too much, and the
    length if not. -/
theorem buildFrom_cases {l : List UInt8} (hu : Unclosed l opened) (ht : PairsOf t l) :
    (∃ t', buildFrom len rest l.length opened t = .ok t' ∧
      Balanced (l ++ rest) ∧ PairsOf t' (l ++ rest)) ∨
    (buildFrom len rest l.length opened t = .error (.programCounterOutOfRange (-1) len) ∧
      ∃ p s, l ++ rest = p ++ s ∧ depth p < 0) ∨
    (buildFrom len rest l.length opened t = .error (.programCounterOutOfRange len len) ∧
      depth (l ++ rest) ≠ 0 ∧ ∀ p s, l ++ rest = p ++ s → 0 ≤ depth p) := by
  induction rest generalizing l opened t with
  | nil =>
      rw [List.append_nil]
      -- all is read: the depth of the text is the height of the stack
      cases opened with
      | nil =>
          refine Or.inl ⟨t, rfl, balanced_iff_depth.mpr ⟨hu.depth_nonneg, ?_⟩, ht⟩
          exact hu.depth_eq
      | cons start opened =>
          refine Or.inr (Or.inr ⟨rfl, ?_, hu.depth_nonneg⟩)
          have := hu.depth_eq
          simp only [List.length_cons] at this
          omega
  | cons b rest ih =>
      have hnext : ∀ c, l ++ c :: rest = (l ++ [c]) ++ rest := by
        intro c
        simp
      have hpos : ∀ c : UInt8, l.length + 1 = (l ++ [c]).length := by
        intro c
        simp
      rcases plain_or_bracket b with rfl | rfl | hb
      · rw [buildFrom_open, hnext, hpos openByte]
        exact ih (.inside hu balanced_nil) (ht.skip (by decide))
      · -- a `]` goes with the top of the stack, if there is one
        cases opened with
        | nil =>
            refine Or.inr (Or.inl ⟨buildFrom_close_nil, l ++ [closeByte], rest, hnext _, ?_⟩)
            have := hu.depth_eq
            rw [depth_append, depth_close, depth_nil, this]
            decide
        | cons start opened =>
            rw [buildFrom_close_cons, hnext, hpos closeByte]
            refine ih ?_ (ht.close hu)
            -- the pair and what it encloses join the balanced part in front
            cases hu with
            | @inside p m _ hp hm =>
                have : (p ++ openByte :: m) ++ [closeByte]
                    = p ++ openByte :: (m ++ [closeByte]) := by simp
                rw [this]
                exact hp.append hm.enclose
      · rw [buildFrom_plain hb, hnext, hpos b]
        exact ih (hu.append (balanced_plain hb)) (ht.skip hb.2)

end Pass

/-! ## The whole text -/

/-- The three ways in which the construction of a table ends. -/
theorem build_cases (code : Array UInt8) :
    (∃ t, build code = .ok t ∧ Balanced code.toList ∧ PairsOf t code.toList) ∨
    (build code = .error (.programCounterOutOfRange (-1) code.size) ∧
      ∃ p s, code.toList = p ++ s ∧ depth p < 0) ∨
    (build code = .error (.programCounterOutOfRange code.size code.size) ∧
      depth code.toList ≠ 0 ∧ ∀ p s, code.toList = p ++ s → 0 ≤ depth p) :=
  buildFrom_cases (.done balanced_nil) pairsOf_empty

/-- A text for which there is a table is balanced, and the table is its matching. -/
theorem build_eq_ok {code : Array UInt8} {t : Table} (h : build code = .ok t) :
    Balanced code.toList ∧ PairsOf t code.toList := by
  rcases build_cases code with ⟨t', h', hb, hp⟩ | ⟨h', -⟩ | ⟨h', -⟩
  · rw [h] at h'
    cases h'
    exact ⟨hb, hp⟩
  · rw [h] at h'
    cases h'
  · rw [h] at h'
    cases h'

/-- A balanced text has a table. -/
theorem build_of_balanced (h : Balanced code.toList) : ∃ t, build code = .ok t := by
  rcases build_cases code with ⟨t, ht, -⟩ | ⟨-, p, s, hps, hp⟩ | ⟨-, hd, -⟩
  · exact ⟨t, ht⟩
  · have := (balanced_iff_depth.mp h).1 p s hps
    omega
  · exact absurd h.depth_eq hd

/-- If some prefix closes too much, position -1 is reported. -/
theorem build_of_closes (h : ¬ ∀ p s, code.toList = p ++ s → 0 ≤ depth p) :
    build code = .error (.programCounterOutOfRange (-1) code.size) := by
  rcases build_cases code with ⟨t, -, hb, -⟩ | ⟨he, -⟩ | ⟨-, -, hnonneg⟩
  · exact absurd (balanced_iff_depth.mp hb).1 h
  · exact he
  · exact absurd hnonneg h

/-- If no prefix does, but something is left open, the end of the text is reported. -/
theorem build_of_opens (h : ∀ p s, code.toList = p ++ s → 0 ≤ depth p)
    (hd : depth code.toList ≠ 0) :
    build code = .error (.programCounterOutOfRange code.size code.size) := by
  rcases build_cases code with ⟨t, -, hb, -⟩ | ⟨-, p, s, hps, hp⟩ | ⟨he, -⟩
  · exact absurd hb.depth_eq hd
  · have := h p s hps
    omega
  · exact he

/-- In a balanced text every bracket has its entry, and nothing else has. -/
theorem PairsOf.partner?_eq_none_iff {t : Table} {l : List UInt8} (h : PairsOf t l)
    (hl : Balanced l) (i : Nat) :
    t.partner? i = none ↔ l[i]? ≠ some openByte ∧ l[i]? ≠ some closeByte := by
  constructor
  · intro hi
    refine ⟨?_, ?_⟩
    · intro ho
      obtain ⟨j, hj⟩ := hl.exists_matched_open ho
      rw [(h.partner?_eq_iff i j).mpr (Or.inl hj)] at hi
      cases hi
    · intro hc
      obtain ⟨j, hj⟩ := hl.exists_matched_close hc
      rw [(h.partner?_eq_iff i j).mpr (Or.inr hj)] at hi
      cases hi
  · rintro ⟨ho, hc⟩
    exact h.partner?_eq_none (fun j => ⟨fun hj => ho hj.open_at, fun hj => hc hj.close_at⟩)

/-- **The table is the matching.**  There is a table exactly for the balanced
    texts.  It takes each end of a matched pair to the other and has an entry
    for every bracket and for nothing else; its pairs are as many as the `[`.
    A text without a table is refused with position -1 if some prefix closes
    more than it opens, and else with its length. -/
theorem build_finds_matching (code : Array UInt8) :
    ((∃ t, build code = .ok t) ↔ Balanced code.toList) ∧
    (∀ t, build code = .ok t →
      (∀ i j, t.partner? i = some j ↔ Matched code.toList i j ∨ Matched code.toList j i) ∧
      (∀ i, t.partner? i = none ↔ code[i]? ≠ some openByte ∧ code[i]? ≠ some closeByte) ∧
      t.pairs = opens code.toList) ∧
    (∀ f, build code = .error f →
      ((∃ p, p <+: code.toList ∧ opens p < closes p) ∧
        f = .programCounterOutOfRange (-1) code.size) ∨
      ((∀ p, p <+: code.toList → closes p ≤ opens p) ∧
        f = .programCounterOutOfRange code.size code.size)) := by
  refine ⟨⟨?_, ?_⟩, ?_, ?_⟩
  · rintro ⟨t, ht⟩
    exact (build_eq_ok ht).1
  · intro hb
    rcases build_cases code with ⟨t, ht, -⟩ | ⟨-, p, s, hps, hp⟩ | ⟨-, hd, -⟩
    · exact ⟨t, ht⟩
    · rw [hps] at hb
      have := hb.depth_nonneg
      omega
    · exact absurd hb.depth_eq hd
  · intro t ht
    obtain ⟨hb, hp⟩ := build_eq_ok ht
    refine ⟨hp.partner?_eq_iff, ?_, ?_⟩
    · intro i
      rw [hp.partner?_eq_none_iff hb, Array.getElem?_toList]
    · rw [pairs, hp.size_eq, hb.opens_eq]
      omega
  · intro f hf
    rcases build_cases code with ⟨t, ht, -⟩ | ⟨he, p, s, hps, hp⟩ | ⟨he, -, hnonneg⟩
    · rw [hf] at ht
      cases ht
    · rw [hf] at he
      refine Or.inl ⟨⟨p, ⟨s, hps.symm⟩, ?_⟩, Except.error.inj he⟩
      simp only [depth] at hp
      omega
    · rw [hf] at he
      refine Or.inr ⟨?_, Except.error.inj he⟩
      rintro p ⟨s, hps⟩
      have := hnonneg p s hps.symm
      simp only [depth] at this
      omega

end Table

end TapeMachine.Bracket
