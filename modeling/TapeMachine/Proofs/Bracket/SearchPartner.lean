import TapeMachine.Bracket.Search
import TapeMachine.Proofs.Bracket.Matched

/-! # What the searches find

    A search walks away from its start and counts the pairs it is inside of.
    With `depth` pairs open, the bytes that it may still pass are those that
    become balanced when `depth` brackets are put at the near end.  So each
    search finds the nearest bracket with a balanced text between it and the
    start, on every text and from every start (`findClose_eq_ok_iff`,
    `findOpen_eq_ok_iff`); at the end of a matched pair that is the other end. -/

namespace TapeMachine.Bracket

/-- The instruction at a cut. -/
theorem at?_split {code : Array UInt8} {p s : List UInt8} {b : UInt8}
    (h : code.toList = p ++ b :: s) :
    Instruction.at? code p.length = Instruction.ofByte? b := by
  have hb : code[p.length]? = some b := by
    rw [← Array.getElem?_toList, h]
    simp
  rw [Instruction.at?, hb]
  rfl

theorem size_split {code : Array UInt8} {p s : List UInt8} (h : code.toList = p ++ s) :
    code.size = p.length + s.length := by
  rw [← Array.length_toList, h, List.length_append]

/-- A comment decodes to no bracket. -/
theorem Plain.ofByte?_ne {b : UInt8} (h : Plain b) :
    Instruction.ofByte? b ≠ some .loopOpen ∧ Instruction.ofByte? b ≠ some .loopClose :=
  ⟨fun hb => h.1 (Instruction.ofByte?_eq_some_iff.mp hb),
    fun hb => h.2 (Instruction.ofByte?_eq_some_iff.mp hb)⟩

/-- A cut of `b :: r` in front of a `c` is at `b`, or it is a cut of `r`. -/
theorem exists_split_cons {b c : UInt8} {r : List UInt8} {P : List UInt8 → Prop} :
    (∃ m s, b :: r = m ++ c :: s ∧ P m) ↔
      (b = c ∧ P []) ∨ ∃ m s, r = m ++ c :: s ∧ P (b :: m) := by
  constructor
  · rintro ⟨m, s, h, hP⟩
    rcases List.cons_eq_append_iff.mp h with ⟨rfl, h'⟩ | ⟨q, rfl, rfl⟩
    · exact Or.inl ⟨(List.cons.inj h').1.symm, hP⟩
    · exact Or.inr ⟨q, s, rfl, hP⟩
  · rintro (⟨rfl, hP⟩ | ⟨m, s, rfl, hP⟩)
    · exact ⟨[], r, rfl, hP⟩
    · exact ⟨b :: m, s, rfl, hP⟩

/-- A cut of `r ++ [b]` behind a `c` is at `b`, or it is a cut of `r`. -/
theorem exists_split_snoc {b c : UInt8} {r : List UInt8} {P : List UInt8 → List UInt8 → Prop} :
    (∃ p m, r ++ [b] = p ++ c :: m ∧ P p m) ↔
      (b = c ∧ P r []) ∨ ∃ p m, r = p ++ c :: m ∧ P p (m ++ [b]) := by
  constructor
  · rintro ⟨p, m, h, hP⟩
    cases m using List.reverseRecOn with
    | nil =>
        obtain ⟨rfl, h'⟩ := List.append_inj' h rfl
        exact Or.inl ⟨(List.cons.inj h').1, hP⟩
    | append_singleton m d _ =>
        have h' : r ++ [b] = (p ++ c :: m) ++ [d] := by simpa using h
        obtain ⟨rfl, hb⟩ := List.append_inj' h' rfl
        obtain rfl := (List.cons.inj hb).1
        exact Or.inr ⟨p, m, rfl, hP⟩
  · rintro (⟨rfl, hP⟩ | ⟨p, m, rfl, hP⟩)
    · exact ⟨r, [], rfl, hP⟩
    · exact ⟨p, m ++ [b], by simp, hP⟩

/-! ## Brackets put in front or behind -/

theorem balanced_pair : Balanced [openByte, closeByte] := balanced_nil.enclose

/-- What has only `[` in it is not balanced. -/
theorem not_balanced_replicate_open (d : Nat) :
    ¬ Balanced (List.replicate (d + 1) openByte) := by
  intro h
  rw [List.replicate_succ'] at h
  exact h.ne_split_open balanced_nil rfl

/-- What has only `]` in it is not balanced. -/
theorem not_balanced_replicate_close (d : Nat) :
    ¬ Balanced (List.replicate (d + 1) closeByte) := by
  intro h
  rw [List.replicate_succ] at h
  exact h.ne_split_close balanced_nil rfl

theorem balanced_open_front (d : Nat) (m : List UInt8) :
    Balanced (List.replicate d openByte ++ openByte :: m) ↔
      Balanced (List.replicate (d + 1) openByte ++ m) := by
  rw [List.replicate_succ', List.append_assoc]
  rfl

/-- A `]` behind some `[` closes the last of them. -/
theorem balanced_close_front (d : Nat) (m : List UInt8) :
    Balanced (List.replicate (d + 1) openByte ++ closeByte :: m) ↔
      Balanced (List.replicate d openByte ++ m) := by
  rw [List.replicate_succ', List.append_assoc]
  exact balanced_insert balanced_pair _ _

theorem balanced_close_behind (d : Nat) (m : List UInt8) :
    Balanced ((m ++ [closeByte]) ++ List.replicate d closeByte) ↔
      Balanced (m ++ List.replicate (d + 1) closeByte) := by
  rw [List.replicate_succ, List.append_assoc]
  rfl

/-- A `[` in front of some `]` is closed by the first of them. -/
theorem balanced_open_behind (d : Nat) (m : List UInt8) :
    Balanced ((m ++ [openByte]) ++ List.replicate (d + 1) closeByte) ↔
      Balanced (m ++ List.replicate d closeByte) := by
  rw [List.replicate_succ, List.append_assoc]
  exact balanced_insert balanced_pair _ _

/-! ## Forward -/

section Forward

variable {code : Array UInt8} {p r : List UInt8} {b : UInt8} {depth : Nat}

/-- What a forward search does with its next byte: it goes into a pair at a `[`, and at a
    `]` out of one, or there it ends if it is in none. -/
theorem closeAmong_cons (h : code.toList = p ++ b :: r) :
    closeAmong code depth (r.length + 1) =
      match Instruction.ofByte? b with
      | some .loopOpen => closeAmong code (depth + 1) r.length
      | some .loopClose =>
          match depth with
          | 0 => some p.length
          | depth + 1 => closeAmong code depth r.length
      | _ => closeAmong code depth r.length := by
  have hsize : code.size - (r.length + 1) = p.length := by
    rw [size_split h, List.length_cons]
    omega
  rw [closeAmong.eq_def]
  dsimp only
  rewrite [hsize, at?_split h]
  rfl

/-- A forward search goes on over a plain byte. -/
theorem closeAmong_plain (hb : Plain b) (h : code.toList = p ++ b :: r) :
    closeAmong code depth (r.length + 1) = closeAmong code depth r.length := by
  rw [closeAmong_cons h]
  split
  · rename_i ho
    exact absurd ho hb.ofByte?_ne.1
  · rename_i hc
    exact absurd hc hb.ofByte?_ne.2
  · rfl

/-- The search over the rest `r` of a text, `depth` pairs being open in front. -/
theorem closeAmong_eq_some_iff (h : code.toList = p ++ r) {j : Nat} :
    closeAmong code depth r.length = some j ↔
      ∃ m s, r = m ++ closeByte :: s ∧
        Balanced (List.replicate depth openByte ++ m) ∧ p.length + m.length = j := by
  induction r generalizing p depth with
  | nil =>
      constructor
      · intro hj
        cases hj
      · rintro ⟨m, s, hr, -⟩
        exact absurd hr (by simp)
  | cons b r ih =>
      have hnext : code.toList = (p ++ [b]) ++ r := by simpa using h
      have hlen : ∀ m : List UInt8, (p ++ [b]).length + m.length = p.length + (b :: m).length := by
        intro m
        simp only [List.length_append, List.length_cons, List.length_nil]
        omega
      rw [exists_split_cons, List.length_cons]
      rcases plain_or_bracket b with rfl | rfl | hb
      · -- one more pair is open in front of what is left
        rw [closeAmong_cons h]
        refine (ih hnext).trans ?_
        simp only [balanced_open_front, hlen]
        constructor
        · exact Or.inr
        · rintro (⟨ho, -⟩ | hm)
          · exact absurd ho (by decide)
          · exact hm
      · rw [closeAmong_cons h]
        cases depth with
        | zero =>
            -- nothing is open, so this is the `]`; a later one has it in between
            constructor
            · intro hj
              exact Or.inl ⟨rfl, balanced_nil, Option.some.inj hj⟩
            · rintro (⟨-, -, hj⟩ | ⟨m, s, -, hm, -⟩)
              · exact congrArg some hj
              · exact absurd rfl (hm.ne_split_close balanced_nil)
        | succ depth =>
            -- this `]` and the innermost of the open `[` cancel
            refine (ih hnext).trans ?_
            simp only [balanced_close_front, hlen]
            constructor
            · exact Or.inr
            · rintro (⟨-, hm, -⟩ | hm)
              · rw [List.append_nil] at hm
                exact absurd hm (not_balanced_replicate_open depth)
              · exact hm
      · rw [closeAmong_plain hb h]
        refine (ih hnext).trans ?_
        have hskip : ∀ m, Balanced (List.replicate depth openByte ++ b :: m) ↔
            Balanced (List.replicate depth openByte ++ m) :=
          fun m => balanced_insert (balanced_plain hb) _ m
        simp only [hskip, hlen]
        constructor
        · exact Or.inr
        · rintro (⟨hc, -⟩ | hm)
          · exact absurd hc hb.2
          · exact hm

/-- A forward search succeeds if the partner is among the bytes behind its start. -/
theorem findClose_eq_ok_iff_closeAmong {start j : Nat} :
    findClose code start = .ok j ↔ closeAmong code 0 (code.size - (start + 1)) = some j := by
  rw [findClose]
  split
  · rename_i k hk
    rw [hk, Except.ok.injEq, Option.some.injEq]
  · rename_i hk
    rw [hk]
    simp

/-- The forward search finds the nearest `]` with a balanced text in between. -/
theorem findClose_eq_ok_iff {start j : Nat} :
    findClose code start = .ok j ↔
      start < j ∧ code[j]? = some closeByte ∧ Balanced (between code.toList start j) := by
  rw [findClose_eq_ok_iff_closeAmong, ← Array.getElem?_toList]
  by_cases hstart : start + 1 ≤ code.size
  · have hcut : code.toList = code.toList.take (start + 1) ++ code.toList.drop (start + 1) :=
      (List.take_append_drop _ _).symm
    have hp : (code.toList.take (start + 1)).length = start + 1 :=
      List.length_take_of_le (by simpa using hstart)
    have hr : code.size - (start + 1) = (code.toList.drop (start + 1)).length := by simp
    rw [hr, closeAmong_eq_some_iff hcut, hp]
    have := after_iff_split (r := code.toList.drop (start + 1)) (c := closeByte) (j := j)
      (P := Balanced) hp
    rw [← hcut] at this
    exact this.symm
  · -- the start lies at the last byte or beyond: there is nothing to pass
    have hr : code.size - (start + 1) = 0 := by omega
    rw [hr]
    constructor
    · intro h
      cases h
    · rintro ⟨hlt, hc, -⟩
      have := (List.getElem?_eq_some_iff.mp hc).1
      rw [Array.length_toList] at this
      omega

end Forward

/-! ## Backward -/

section Backward

variable {code : Array UInt8} {l s : List UInt8} {b : UInt8} {depth : Nat}

/-- What a backward search does with the byte in front of it: it goes into a pair at a `]`,
    and at a `[` out of one, or there it ends if it is in none. -/
theorem openAmong_snoc (h : code.toList = l ++ b :: s) :
    openAmong code depth (l.length + 1) =
      match Instruction.ofByte? b with
      | some .loopClose => openAmong code (depth + 1) l.length
      | some .loopOpen =>
          match depth with
          | 0 => some l.length
          | depth + 1 => openAmong code depth l.length
      | _ => openAmong code depth l.length := by
  rw [openAmong.eq_def]
  dsimp only
  rewrite [at?_split h]
  rfl

/-- A backward search goes on over a plain byte. -/
theorem openAmong_plain (hb : Plain b) (h : code.toList = l ++ b :: s) :
    openAmong code depth (l.length + 1) = openAmong code depth l.length := by
  rw [openAmong_snoc h]
  split
  · rename_i hc
    exact absurd hc hb.ofByte?_ne.2
  · rename_i ho
    exact absurd ho hb.ofByte?_ne.1
  · rfl

/-- The search over the front `l` of a text, `depth` pairs being open behind. -/
theorem openAmong_eq_some_iff (h : code.toList = l ++ s) {i : Nat} :
    openAmong code depth l.length = some i ↔
      ∃ p m, l = p ++ openByte :: m ∧
        Balanced (m ++ List.replicate depth closeByte) ∧ p.length = i := by
  induction l using List.reverseRecOn generalizing s depth with
  | nil =>
      constructor
      · intro hi
        cases hi
      · rintro ⟨p, m, hl, -⟩
        exact absurd hl (by simp)
  | append_singleton l b ih =>
      have hnext : code.toList = l ++ b :: s := by simpa using h
      rw [exists_split_snoc (P := fun p m =>
        Balanced (m ++ List.replicate depth closeByte) ∧ p.length = i)]
      rw [List.length_append, List.length_singleton]
      rcases plain_or_bracket b with rfl | rfl | hb
      · rw [openAmong_snoc hnext]
        cases depth with
        | zero =>
            -- nothing is open, so this is the `[`; an earlier one has it in between
            constructor
            · intro hi
              exact Or.inl ⟨rfl, balanced_nil, Option.some.inj hi⟩
            · rintro (⟨-, -, hi⟩ | ⟨p, m, -, hm, -⟩)
              · exact congrArg some hi
              · have : m ++ [openByte] ++ List.replicate 0 closeByte = m ++ openByte :: [] := by
                  simp
                exact absurd this (hm.ne_split_open balanced_nil)
        | succ depth =>
            -- this `[` and the innermost of the open `]` cancel
            refine (ih hnext).trans ?_
            simp only [balanced_open_behind]
            constructor
            · exact Or.inr
            · rintro (⟨-, hm, -⟩ | hm)
              · exact absurd hm (not_balanced_replicate_close depth)
              · exact hm
      · rw [openAmong_snoc hnext]
        refine (ih hnext).trans ?_
        simp only [balanced_close_behind]
        constructor
        · exact Or.inr
        · rintro (⟨hc, -⟩ | hm)
          · exact absurd hc (by decide)
          · exact hm
      · rw [openAmong_plain hb hnext]
        refine (ih hnext).trans ?_
        have hskip : ∀ m, Balanced ((m ++ [b]) ++ List.replicate depth closeByte) ↔
            Balanced (m ++ List.replicate depth closeByte) := by
          intro m
          rw [List.append_assoc]
          exact balanced_insert (balanced_plain hb) m _
        simp only [hskip]
        constructor
        · exact Or.inr
        · rintro (⟨ho, -⟩ | hm)
          · exact absurd ho hb.1
          · exact hm

/-- A backward search succeeds if it starts inside of the program or at its end, and the
    partner is among the bytes in front of that. -/
theorem findOpen_eq_ok_iff_openAmong {start i : Nat} :
    findOpen code start = .ok i ↔ start ≤ code.size ∧ openAmong code 0 start = some i := by
  rw [findOpen]
  by_cases hstart : start ≤ code.size
  · rw [if_pos hstart, and_iff_right hstart]
    split
    · rename_i k hk
      rw [hk, Except.ok.injEq, Option.some.injEq]
    · rename_i hk
      rw [hk]
      simp
  · rw [if_neg hstart]
    simp [hstart]

/-- The backward search finds the nearest `[` with a balanced text in between;
    it does not start past the end. -/
theorem findOpen_eq_ok_iff {start i : Nat} :
    findOpen code start = .ok i ↔ start ≤ code.size ∧
      i < start ∧ code[i]? = some openByte ∧ Balanced (between code.toList i start) := by
  rw [findOpen_eq_ok_iff_openAmong, ← Array.getElem?_toList]
  refine and_congr_right ?_
  intro hstart
  have hcut : code.toList = code.toList.take start ++ code.toList.drop start :=
    (List.take_append_drop _ _).symm
  have hl : (code.toList.take start).length = start :=
    List.length_take_of_le (by simpa using hstart)
  have hfound : openAmong code 0 (code.toList.take start).length = some i ↔ _ :=
    openAmong_eq_some_iff hcut
  have hbefore := before_iff_split (s := code.toList.drop start) (c := openByte) (i := i)
    (P := Balanced) hl
  rw [hl] at hfound
  rw [← hcut] at hbefore
  rw [hfound, hbefore]
  simp

end Backward

/-! ## The ends of a pair -/

section Ends

variable {code : Array UInt8} {i j : Nat}

/-- From a `[`, a forward search finds the `]` of the same pair, and nothing else. -/
theorem findClose_eq_ok_iff_matched (hi : code[i]? = some openByte) :
    findClose code i = .ok j ↔ Matched code.toList i j := by
  rw [findClose_eq_ok_iff, ← Array.getElem?_toList]
  rw [← Array.getElem?_toList] at hi
  constructor
  · rintro ⟨hlt, hj, hb⟩
    exact ⟨hlt, hi, hj, hb⟩
  · intro h
    exact ⟨h.lt, h.close_at, h.inside⟩

/-- From a `]`, a backward search finds the `[` of the same pair, and nothing else. -/
theorem findOpen_eq_ok_iff_matched (hj : code[j]? = some closeByte) :
    findOpen code j = .ok i ↔ Matched code.toList i j := by
  have hle : j ≤ code.size := Nat.le_of_lt (Array.getElem?_eq_some_iff.mp hj).1
  rw [findOpen_eq_ok_iff, and_iff_right hle, ← Array.getElem?_toList]
  rw [← Array.getElem?_toList] at hj
  constructor
  · rintro ⟨hlt, hi, hb⟩
    exact ⟨hlt, hi, hj, hb⟩
  · intro h
    exact ⟨h.lt, h.open_at, h.inside⟩

/-- A forward search from the `[` of a pair succeeds. -/
theorem findClose_of_matched (h : Matched code.toList i j) : findClose code i = .ok j :=
  (findClose_eq_ok_iff_matched (by rw [← Array.getElem?_toList, h.open_at])).mpr h

/-- A backward search from the `]` of a pair succeeds. -/
theorem findOpen_of_matched (h : Matched code.toList i j) : findOpen code j = .ok i :=
  (findOpen_eq_ok_iff_matched (by rw [← Array.getElem?_toList, h.close_at])).mpr h

end Ends

end TapeMachine.Bracket
