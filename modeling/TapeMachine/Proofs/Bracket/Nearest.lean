import Mathlib.Order.Bounds.Basic
import TapeMachine.Proofs.Bracket.SearchPartner

/-! # The nearest bracket with equally many in between

    On any text, and from any start, a search finds the nearest bracket of its
    kind with as many `[` as `]` in between (`searches_find_nearest`).  That is
    less than a balanced text in between, but the nearest such bracket has one:
    where balance is lost there is a nearer one already (`isLeast_closersAfter_iff`,
    `isGreatest_openersBefore_iff`).

    A search keeps no text, it keeps a number, the pairs that it is inside of.
    `ForwardWalk` and `BackwardWalk` are the states that it goes through, with an
    integer for that number, counted down without asking whether there is
    something left to count.  It is the depth of the bytes passed
    (`ForwardWalk.skip_eq`) and never negative. -/

namespace TapeMachine.Bracket

variable {code : Array UInt8} {start : Nat}

/-! ## Equally many in between -/

/-- The positions of a `]` behind the start, with as many `[` as `]` in between. -/
def closersAfter (code : Array UInt8) (start : Nat) : Set Nat :=
  {j | start < j ∧ code[j]? = some closeByte ∧
    opens (between code.toList start j) = closes (between code.toList start j)}

/-- The positions of a `[` before the start, with as many `[` as `]` in between. -/
def openersBefore (code : Array UInt8) (start : Nat) : Set Nat :=
  {i | i < start ∧ code[i]? = some openByte ∧
    opens (between code.toList i start) = closes (between code.toList i start)}

/-- The first `]` with equally many in between has a balanced text in between. -/
theorem isLeast_closersAfter_iff {j : Nat} :
    IsLeast (closersAfter code start) j ↔
      start < j ∧ code[j]? = some closeByte ∧ Balanced (between code.toList start j) := by
  constructor
  · rintro ⟨⟨hlt, hj, heq⟩, hleast⟩
    refine ⟨hlt, hj, balanced_iff_depth.mpr ⟨?_, opens_eq_closes_iff.mp heq⟩⟩
    intro p s hps
    by_contra hp
    -- the first `]` that closes nothing is one with equally many in between
    obtain ⟨m, r, hmr, hm⟩ := exists_first_close ⟨p, s, hps, Int.not_le.mp hp⟩
    obtain ⟨k, hik, hkj, hk, hbetween, -⟩ := exists_between_cut hmr
    rw [Array.getElem?_toList] at hk
    have hmem : k ∈ closersAfter code start := by
      refine ⟨hik, hk, ?_⟩
      rw [hbetween]
      exact hm.opens_eq
    exact absurd (hleast hmem) (Nat.not_le.mpr hkj)
  · rintro ⟨hlt, hj, hb⟩
    refine ⟨⟨hlt, hj, hb.opens_eq⟩, ?_⟩
    rintro k ⟨hik, hk, heq⟩
    by_contra hkj
    rw [← Array.getElem?_toList] at hk
    have hcut := between_cut hik (Nat.not_le.mp hkj) hk
    rw [hcut, List.append_cons] at hb
    have hnonneg := hb.depth_nonneg
    rw [depth_append, depth_close, depth_nil, opens_eq_closes_iff.mp heq] at hnonneg
    omega

/-- The last `[` with equally many in between has a balanced text in between. -/
theorem isGreatest_openersBefore_iff {i : Nat} :
    IsGreatest (openersBefore code start) i ↔
      i < start ∧ code[i]? = some openByte ∧ Balanced (between code.toList i start) := by
  constructor
  · rintro ⟨⟨hlt, hi, heq⟩, hgreatest⟩
    refine ⟨hlt, hi, balanced_iff_depth_behind.mpr ⟨?_, opens_eq_closes_iff.mp heq⟩⟩
    intro p s hps
    by_contra hs
    -- the last `[` that is not closed is one with equally many in between
    obtain ⟨r, m, hrm, hm⟩ := exists_last_open ⟨p, s, hps, Int.not_le.mp hs⟩
    obtain ⟨k, hik, hkj, hk, -, hbetween⟩ := exists_between_cut hrm
    rw [Array.getElem?_toList] at hk
    have hmem : k ∈ openersBefore code start := by
      refine ⟨hkj, hk, ?_⟩
      rw [hbetween]
      exact hm.opens_eq
    exact absurd (hgreatest hmem) (Nat.not_le.mpr hik)
  · rintro ⟨hlt, hi, hb⟩
    refine ⟨⟨hlt, hi, hb.opens_eq⟩, ?_⟩
    rintro k ⟨hkj, hk, heq⟩
    by_contra hik
    rw [← Array.getElem?_toList] at hk
    have hcut := between_cut (Nat.not_le.mp hik) hkj hk
    have hnonpos := (balanced_iff_depth_behind.mp hb).1 _ _ hcut
    rw [depth_open, opens_eq_closes_iff.mp heq] at hnonpos
    omega

/-- A forward search finds the nearest `]` with a balanced text in between, if there is one. -/
theorem findClose_eq_ok_iff_isLeast {j : Nat} :
    findClose code start = .ok j ↔ IsLeast (closersAfter code start) j := by
  rw [findClose_eq_ok_iff, isLeast_closersAfter_iff]

/-- A backward search finds the nearest `[` with a balanced text in between, if there is one. -/
theorem findOpen_eq_ok_iff_isGreatest {i : Nat} (hstart : start ≤ code.size) :
    findOpen code start = .ok i ↔ IsGreatest (openersBefore code start) i := by
  rw [findOpen_eq_ok_iff, isGreatest_openersBefore_iff, and_iff_right hstart]

/-! ## Searches that find nothing -/

/-- A forward search that finds nothing reports where it has left the text. -/
theorem findClose_eq_error (h : ∀ j, findClose code start ≠ .ok j) :
    findClose code start =
      .error (.programCounterOutOfRange (signedPosition (max code.size (start + 1)))
        code.size) := by
  rw [findClose] at h ⊢
  split
  · rename_i j hj
    rw [hj] at h
    exact absurd rfl (h j)
  · rfl

/-- A backward search that finds nothing has left the text at the front. -/
theorem findOpen_eq_error (hstart : start ≤ code.size) (h : ∀ i, findOpen code start ≠ .ok i) :
    findOpen code start = .error (.programCounterOutOfRange (-1) code.size) := by
  rw [findOpen, if_pos hstart] at h ⊢
  split
  · rename_i i hi
    rw [hi] at h
    exact absurd rfl (h i)
  · rfl

/-- A backward search from behind the end of the text fails at once. -/
theorem findOpen_outside (hstart : code.size < start) :
    findOpen code start = .error (.searchOutsideProgram start code.size) :=
  if_neg (Nat.not_le.mpr hstart)

/-! ## What a search counts -/

/-- The states of a forward search: it stands at `pos`, inside of `skip` pairs.
    It goes on over every byte but a `]` met with nothing to skip. -/
inductive ForwardWalk (code : Array UInt8) (start : Nat) : (pos : Nat) → (skip : Int) → Prop where
  | start : ForwardWalk code start start 0
  | pass {pos : Nat} {skip : Int} {b : UInt8} (before : ForwardWalk code start pos skip)
      (here : code[pos + 1]? = some b) (on : ¬ (b = closeByte ∧ skip = 0)) :
      ForwardWalk code start (pos + 1) (skip + depth [b])

/-- The states of a backward search: it stands at `pos`, inside of `skip` pairs.
    It goes on over every byte but a `[` met with nothing to skip. -/
inductive BackwardWalk (code : Array UInt8) (start : Nat) : (pos : Nat) → (skip : Int) → Prop where
  | start : BackwardWalk code start start 0
  | pass {pos : Nat} {skip : Int} {b : UInt8} (before : BackwardWalk code start (pos + 1) skip)
      (here : code[pos]? = some b) (on : ¬ (b = openByte ∧ skip = 0)) :
      BackwardWalk code start pos (skip - depth [b])

namespace ForwardWalk

variable {pos : Nat} {skip : Int}

/-- The number is never negative: a `]` met at zero ends the search. -/
theorem skip_nonneg (h : ForwardWalk code start pos skip) : 0 ≤ skip := by
  induction h with
  | start => exact Int.le_refl 0
  | @pass pos skip b _ _ on ih =>
      rcases plain_or_bracket b with rfl | rfl | hb
      · rw [depth_openByte]
        omega
      · have hne : skip ≠ 0 := fun h0 => on ⟨rfl, h0⟩
        rw [depth_closeByte]
        omega
      · rw [depth_plain hb, depth_nil]
        omega

/-- A forward walk never comes back behind its start. -/
theorem start_le (h : ForwardWalk code start pos skip) : start ≤ pos := by
  induction h with
  | start => exact Nat.le_refl start
  | pass _ _ _ ih => exact Nat.le_succ_of_le ih

/-- The number is the depth of the bytes passed. -/
theorem skip_eq (h : ForwardWalk code start pos skip) :
    skip = depth (between code.toList start (pos + 1)) := by
  induction h with
  | start =>
      show (0 : Int) = depth ((code.toList.take (start + 1)).drop (start + 1))
      rw [List.drop_of_length_le (List.length_take_le _ _), depth_nil]
  | @pass pos skip b before here _ ih =>
      rw [← Array.getElem?_toList] at here
      have hcut := between_cut (Nat.lt_succ_of_le before.start_le) (Nat.lt_succ_self (pos + 1)) here
      have hnil : between code.toList (pos + 1) (pos + 1 + 1) = [] :=
        List.drop_of_length_le (List.length_take_le _ _)
      rw [hcut, hnil, depth_append, ih]

/-- The recursion of the search passes through the states of the walk. -/
theorem closeAmong_eq (h : ForwardWalk code start pos skip) :
    closeAmong code 0 (code.size - (start + 1))
      = closeAmong code skip.toNat (code.size - (pos + 1)) := by
  induction h with
  | start => rfl
  | @pass pos skip b before here on ih =>
      rw [← Array.getElem?_toList] at here
      obtain ⟨p, r, hcut, hp⟩ := getElem?_eq_some_iff_split.mp here
      have hsize := size_split hcut
      rw [List.length_cons] at hsize
      have hbefore : code.size - (pos + 1) = r.length + 1 := by omega
      have hafter : code.size - (pos + 1 + 1) = r.length := by omega
      have hskip := before.skip_nonneg
      rw [ih, hbefore, hafter]
      rcases plain_or_bracket b with rfl | rfl | hb
      · rw [closeAmong_cons hcut, depth_openByte, Int.toNat_add hskip (by omega)]
        rfl
      · obtain ⟨n, rfl⟩ := Int.eq_ofNat_of_zero_le hskip
        cases n with
        | zero => exact absurd ⟨rfl, rfl⟩ on
        | succ n =>
            have hless : ((n + 1 : Nat) : Int) + depth [closeByte] = n := by
              rw [depth_closeByte]
              omega
            rw [hless, closeAmong_cons hcut]
            rfl
      · rw [closeAmong_plain hb hcut, depth_plain hb, depth_nil, Int.add_zero]

/-- A walk on which nothing is left to skip finds the `]` that it meets. -/
theorem findClose_eq (h : ForwardWalk code start pos 0) (hc : code[pos + 1]? = some closeByte) :
    findClose code start = .ok (pos + 1) := by
  have hsearch := h.closeAmong_eq
  rw [← Array.getElem?_toList] at hc
  obtain ⟨p, r, hcut, hp⟩ := getElem?_eq_some_iff_split.mp hc
  have hsize := size_split hcut
  rw [List.length_cons] at hsize
  have hrest : code.size - (pos + 1) = r.length + 1 := by omega
  rw [findClose_eq_ok_iff_closeAmong, hsearch, hrest, closeAmong_cons hcut, ← hp]
  rfl

/-- A search that finds something has walked over every byte on the way. -/
theorem of_findClose {j : Nat} (h : findClose code start = .ok j) (hle : start ≤ pos)
    (hlt : pos < j) : ForwardWalk code start pos (depth (between code.toList start (pos + 1))) := by
  obtain ⟨⟨-, hj, -⟩, hleast⟩ := findClose_eq_ok_iff_isLeast.mp h
  have hsize := (Array.getElem?_eq_some_iff.mp hj).1
  induction pos, hle using Nat.le_induction with
  | base =>
      rw [between, List.drop_of_length_le (List.length_take_le _ _), depth_nil]
      exact .start
  | succ pos hle ih =>
      have before := ih (Nat.lt_of_succ_lt hlt)
      have here : code[pos + 1]? = some code[pos + 1] := Array.getElem?_eq_getElem (by omega)
      have on : ¬ (code[pos + 1] = closeByte ∧
          depth (between code.toList start (pos + 1)) = 0) := by
        rintro ⟨hc, h0⟩
        -- otherwise the search would have ended here
        rw [hc] at here
        have hmem : pos + 1 ∈ closersAfter code start :=
          ⟨Nat.lt_succ_of_le hle, here, opens_eq_closes_iff.mpr h0⟩
        exact absurd (hleast hmem) (Nat.not_le.mpr hlt)
      have hpass := before.pass here on
      rw [hpass.skip_eq] at hpass
      exact hpass

end ForwardWalk

/-- A forward search succeeds where the walk comes to a `]` with nothing to skip. -/
theorem findClose_eq_ok_iff_walk {j : Nat} :
    findClose code start = .ok j ↔
      ∃ pos, ForwardWalk code start pos 0 ∧ pos + 1 = j ∧ code[j]? = some closeByte := by
  constructor
  · intro h
    obtain ⟨hlt, hj, hb⟩ := findClose_eq_ok_iff.mp h
    obtain ⟨pos, rfl⟩ := Nat.exists_eq_add_of_lt hlt
    have hwalk := ForwardWalk.of_findClose h (Nat.le_add_right start pos) (Nat.lt_succ_self _)
    rw [hb.depth_eq] at hwalk
    exact ⟨start + pos, hwalk, rfl, hj⟩
  · rintro ⟨pos, hwalk, rfl, hj⟩
    exact hwalk.findClose_eq hj

namespace BackwardWalk

variable {pos : Nat} {skip : Int}

/-- The number is never negative: a `[` met at zero ends the search. -/
theorem skip_nonneg (h : BackwardWalk code start pos skip) : 0 ≤ skip := by
  induction h with
  | start => exact Int.le_refl 0
  | @pass pos skip b _ _ on ih =>
      rcases plain_or_bracket b with rfl | rfl | hb
      · have hne : skip ≠ 0 := fun h0 => on ⟨rfl, h0⟩
        rw [depth_openByte]
        omega
      · rw [depth_closeByte]
        omega
      · rw [depth_plain hb, depth_nil]
        omega

theorem le_start (h : BackwardWalk code start pos skip) : pos ≤ start := by
  induction h with
  | start => exact Nat.le_refl start
  | pass _ _ _ ih => exact Nat.le_of_succ_le ih

/-- A walk that starts in the text, or at its end, looks at bytes of the text only. -/
theorem lt_size (h : BackwardWalk code start (pos + 1) skip) (hstart : start ≤ code.size) :
    pos < code.size :=
  Nat.lt_of_lt_of_le h.le_start hstart

/-- The recursion of the search passes through the states of the walk. -/
theorem openAmong_eq (h : BackwardWalk code start pos skip) :
    openAmong code 0 start = openAmong code skip.toNat pos := by
  induction h with
  | start => rfl
  | @pass pos skip b before here on ih =>
      rw [← Array.getElem?_toList] at here
      obtain ⟨l, s, hcut, rfl⟩ := getElem?_eq_some_iff_split.mp here
      have hskip := before.skip_nonneg
      rw [ih]
      rcases plain_or_bracket b with rfl | rfl | hb
      · obtain ⟨n, rfl⟩ := Int.eq_ofNat_of_zero_le hskip
        cases n with
        | zero => exact absurd ⟨rfl, rfl⟩ on
        | succ n =>
            have hless : ((n + 1 : Nat) : Int) - depth [openByte] = n := by
              rw [depth_openByte]
              omega
            rw [hless, openAmong_snoc hcut]
            rfl
      · have hmore : (skip - depth [closeByte]).toNat = skip.toNat + 1 := by
          rw [depth_closeByte]
          omega
        rw [hmore, openAmong_snoc hcut]
        rfl
      · rw [openAmong_plain hb hcut, depth_plain hb, depth_nil, Int.sub_zero]

/-- The number is what the bytes passed have closed more than they have opened. -/
theorem skip_eq (h : BackwardWalk code start pos skip) :
    skip = -depth ((code.toList.take start).drop pos) := by
  induction h with
  | start => rw [List.drop_of_length_le (List.length_take_le _ _), depth_nil, Int.neg_zero]
  | @pass pos skip b before here _ ih =>
      have hb : (code.toList.take start)[pos]? = some b := by
        rw [List.getElem?_take_of_lt before.le_start, Array.getElem?_toList, here]
      rw [List.drop_eq_getElem?_toList_append, hb, Option.toList_some, depth_append, ih]
      omega

/-- A walk on which nothing is left to skip finds the `[` that it meets. -/
theorem findOpen_eq (h : BackwardWalk code start (pos + 1) 0) (hstart : start ≤ code.size)
    (ho : code[pos]? = some openByte) : findOpen code start = .ok pos := by
  have hsearch := h.openAmong_eq
  rw [← Array.getElem?_toList] at ho
  obtain ⟨l, s, hcut, rfl⟩ := getElem?_eq_some_iff_split.mp ho
  refine findOpen_eq_ok_iff_openAmong.mpr ⟨hstart, ?_⟩
  rw [hsearch, openAmong_snoc hcut]
  rfl

/-- A search that finds something has walked over every byte on the way. -/
theorem of_findOpen {i passed : Nat} (h : findOpen code start = .ok i)
    (hpassed : pos + 1 + passed = start) (hle : i ≤ pos) :
    BackwardWalk code start (pos + 1) (-depth (between code.toList pos start)) := by
  have hstart := (findOpen_eq_ok_iff.mp h).1
  have hgreatest := ((findOpen_eq_ok_iff_isGreatest hstart).mp h).2
  induction passed generalizing pos with
  | zero =>
      obtain rfl : pos + 1 = start := hpassed
      rw [between, List.drop_of_length_le (List.length_take_le _ _), depth_nil, Int.neg_zero]
      exact .start
  | succ passed ih =>
      have before := @ih (pos + 1) (by omega) (Nat.le_succ_of_le hle)
      have here : code[pos + 1]? = some code[pos + 1] := Array.getElem?_eq_getElem (by omega)
      have on : ¬ (code[pos + 1] = openByte ∧
          -depth (between code.toList (pos + 1) start) = 0) := by
        rintro ⟨ho, h0⟩
        -- otherwise the search would have ended here
        rw [ho] at here
        have hmem : pos + 1 ∈ openersBefore code start :=
          ⟨by omega, here, opens_eq_closes_iff.mpr (by omega)⟩
        exact absurd (hgreatest hmem) (by omega)
      have hpass := before.pass here on
      rw [hpass.skip_eq] at hpass
      exact hpass

end BackwardWalk

/-- A backward search succeeds where the walk comes to a `[` with nothing to skip. -/
theorem findOpen_eq_ok_iff_walk {i : Nat} (hstart : start ≤ code.size) :
    findOpen code start = .ok i ↔
      BackwardWalk code start (i + 1) 0 ∧ code[i]? = some openByte := by
  constructor
  · intro h
    obtain ⟨-, hlt, hi, hb⟩ := findOpen_eq_ok_iff.mp h
    obtain ⟨passed, hpassed⟩ := Nat.exists_eq_add_of_le (Nat.succ_le_of_lt hlt)
    have hwalk := BackwardWalk.of_findOpen h hpassed.symm (Nat.le_refl i)
    rw [hb.depth_eq] at hwalk
    exact ⟨hwalk, hi⟩
  · rintro ⟨hwalk, hi⟩
    exact hwalk.findOpen_eq hstart hi

/-! ## The searches and their specification -/

/-- **A search finds the nearest.**  On any text and from any start, the forward
    search finds the first `]` behind the start with as many `[` as `]` in
    between, and the backward search the last `[` before it; if there is none, the
    one reports where it has left the text and the other -1.  The backward search
    never looks at a byte outside the text, unless it starts past its end: then it
    does so at once.  Neither ever counts below zero. -/
theorem searches_find_nearest (code : Array UInt8) (start : Nat) :
    ((∀ j, findClose code start = .ok j ↔ IsLeast (closersAfter code start) j) ∧
      (closersAfter code start = ∅ → 2 * max code.size (start + 1) < UInt64.size →
        findClose code start = .error
          (.programCounterOutOfRange (max code.size (start + 1) : Nat) code.size)) ∧
      (∀ j, findClose code start = .ok j ↔
        ∃ pos, ForwardWalk code start pos 0 ∧ pos + 1 = j ∧ code[j]? = some closeByte) ∧
      ∀ pos skip, ForwardWalk code start pos skip → 0 ≤ skip) ∧
    (start ≤ code.size →
      (∀ i, findOpen code start = .ok i ↔ IsGreatest (openersBefore code start) i) ∧
      (openersBefore code start = ∅ →
        findOpen code start = .error (.programCounterOutOfRange (-1) code.size)) ∧
      (∀ i, findOpen code start = .ok i ↔
        BackwardWalk code start (i + 1) 0 ∧ code[i]? = some openByte) ∧
      ∀ pos skip, BackwardWalk code start (pos + 1) skip → pos < code.size) ∧
    (code.size < start →
      findOpen code start = .error (.searchOutsideProgram start code.size) ∧
      code[start - 1]? = none) ∧
    ∀ pos skip, BackwardWalk code start pos skip → 0 ≤ skip := by
  refine ⟨⟨?_, ?_, ?_, ?_⟩, ?_, ?_, ?_⟩
  · exact fun _ => findClose_eq_ok_iff_isLeast
  · intro hnone hfits
    have hfail : ∀ j, findClose code start ≠ .ok j := by
      intro j hj
      have hmem := (findClose_eq_ok_iff_isLeast.mp hj).1
      rw [hnone] at hmem
      exact hmem
    rw [findClose_eq_error hfail, signedPosition_of_lt hfits]
  · exact fun _ => findClose_eq_ok_iff_walk
  · exact fun _ _ => ForwardWalk.skip_nonneg
  · intro hstart
    refine ⟨fun _ => findOpen_eq_ok_iff_isGreatest hstart, ?_,
      fun _ => findOpen_eq_ok_iff_walk hstart, fun _ _ h => h.lt_size hstart⟩
    intro hnone
    refine findOpen_eq_error hstart ?_
    intro i hi
    have hmem := ((findOpen_eq_ok_iff_isGreatest hstart).mp hi).1
    rw [hnone] at hmem
    exact hmem
  · intro hstart
    exact ⟨findOpen_outside hstart, Array.getElem?_eq_none (by omega)⟩
  · exact fun _ _ => BackwardWalk.skip_nonneg

end TapeMachine.Bracket
