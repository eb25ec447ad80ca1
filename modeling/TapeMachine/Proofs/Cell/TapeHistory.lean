import Mathlib.Order.Bounds.Basic
import TapeMachine.Tape

/-! # What a tape remembers

    A tape allocates its cells as they are needed, and only those in front of the
    furthest one.  Seen from outside it is a row of cells without an end that are
    all zero to begin with: whatever is done to it, a cell reads as the word last
    stored there (`get_accessAll_eq_iff`).  What has been done shows in one thing
    besides, the number of allocated cells.  It is the least number beyond every
    cell that has been touched or stored in (`size_accessAll_le_iff`), so looking
    at cells leaves no trace (`accessAll_filter_reached`). -/

namespace TapeMachine.Tape

/-! ## Sequences of accesses -/

namespace Access

/-- The cell that an access reads, if it reads one. -/
def read? : Access → Option Nat
  | .peek i | .touch i => some i
  | .poke _ _ => none

/-- The cell that an access allocates up to, if it allocates. -/
def reached? : Access → Option Nat
  | .peek _ => none
  | .touch i | .poke i _ => some i

end Access

/-- Carries out accesses one after the other: their answers, and the tape that they leave. -/
def accessAll (t : Tape) : List Access → List (Option Int64) × Tape
  | [] => ([], t)
  | a :: rest =>
      let (answer, t) := t.access a
      let (answers, t) := t.accessAll rest
      (answer :: answers, t)

/-- `v` is the word last stored in cell `i`, or zero if none was. -/
inductive LastWritten (i : Nat) : List Access → Int64 → Prop where
  | never {history : List Access} (untouched : ∀ v, .poke i v ∉ history) :
      LastWritten i history 0
  | written {before after : List Access} {v : Int64} (untouched : ∀ w, .poke i w ∉ after) :
      LastWritten i (before ++ .poke i v :: after) v

variable (t : Tape)

theorem accessAll_cons (a : Access) (rest : List Access) :
    t.accessAll (a :: rest)
      = ((t.access a).1 :: ((t.access a).2.accessAll rest).1,
          ((t.access a).2.accessAll rest).2) := rfl

/-- A history can be cut in two: the second half finds the tape that the first leaves. -/
theorem accessAll_append (before after : List Access) :
    t.accessAll (before ++ after)
      = ((t.accessAll before).1 ++ ((t.accessAll before).2.accessAll after).1,
          ((t.accessAll before).2.accessAll after).2) := by
  induction before generalizing t with
  | nil => rfl
  | cons a before ih =>
      rw [List.cons_append, accessAll_cons, accessAll_cons, ih]
      rfl

/-- Every access is answered. -/
theorem length_accessAll (history : List Access) :
    (t.accessAll history).1.length = history.length := by
  induction history generalizing t with
  | nil => rfl
  | cons a history ih =>
      show ((t.access a).2.accessAll history).1.length + 1 = history.length + 1
      rw [ih]

/-! ## Cells -/

/-- An access that reads a cell is answered with what it holds, and no other is answered. -/
theorem access_fst (a : Access) : (t.access a).1 = a.read?.map t.get := by
  cases a with
  | peek i => rfl
  | touch i => rfl
  | poke i v => rfl

/-- An access that stores nothing in a cell leaves its value alone. -/
theorem get_access_of_ne {a : Access} {i : Nat} (ha : ∀ v, a ≠ .poke i v) :
    (t.access a).2.get i = t.get i := by
  cases a with
  | peek j => rfl
  | touch j => exact get_touch t j i
  | poke j v =>
      have hi : i ≠ j := by
        rintro rfl
        exact ha v rfl
      show (t.set j v).get i = t.get i
      rw [get_set, if_neg hi]

/-- A cell that nothing is stored in keeps what it holds. -/
theorem get_accessAll_of_untouched {history : List Access} {i : Nat}
    (untouched : ∀ v, .poke i v ∉ history) : (t.accessAll history).2.get i = t.get i := by
  induction history generalizing t with
  | nil => rfl
  | cons a history ih =>
      have hhere : ∀ v, a ≠ .poke i v := by
        rintro v rfl
        exact untouched v List.mem_cons_self
      have hlater : ∀ v, .poke i v ∉ history := fun v hv =>
        untouched v (List.mem_cons_of_mem a hv)
      show ((t.access a).2.accessAll history).2.get i = t.get i
      rw [ih _ hlater, get_access_of_ne t hhere]

/-- Among the words stored in a cell there is a last one, unless there are none. -/
theorem exists_lastWritten (history : List Access) (i : Nat) : ∃ v, LastWritten i history v := by
  induction history with
  | nil => exact ⟨0, .never fun _ => List.not_mem_nil⟩
  | cons a history ih =>
      obtain ⟨v, hv⟩ := ih
      cases hv with
      | @written before after _ untouched =>
          exact ⟨v, @LastWritten.written i (a :: before) after v untouched⟩
      | never untouched =>
          by_cases ha : ∃ w, a = .poke i w
          · obtain ⟨w, rfl⟩ := ha
            exact ⟨w, @LastWritten.written i [] history w untouched⟩
          · refine ⟨0, .never ?_⟩
            intro w hw
            rcases List.mem_cons.mp hw with rfl | hw
            · exact ha ⟨w, rfl⟩
            · exact untouched w hw

/-- On a fresh tape a cell holds the word last stored in it. -/
theorem LastWritten.get_eq {i : Nat} {history : List Access} {v : Int64}
    (h : LastWritten i history v) : (empty.accessAll history).2.get i = v := by
  cases h with
  | never untouched => exact get_accessAll_of_untouched empty untouched
  | @written before after _ untouched =>
      rw [accessAll_append, accessAll_cons]
      show (((empty.accessAll before).2.set i v).accessAll after).2.get i = v
      rw [get_accessAll_of_untouched _ untouched, get_set, if_pos rfl]

/-- A cell reads as the word last stored there, and as no other. -/
theorem get_accessAll_eq_iff {history : List Access} {i : Nat} {v : Int64} :
    (empty.accessAll history).2.get i = v ↔ LastWritten i history v := by
  constructor
  · rintro rfl
    obtain ⟨w, hw⟩ := exists_lastWritten history i
    rw [hw.get_eq]
    exact hw
  · exact LastWritten.get_eq

/-- Each access answers from what was stored before it. -/
theorem getElem?_accessAll (before after : List Access) (a : Access) :
    (t.accessAll (before ++ a :: after)).1[before.length]?
      = some (a.read?.map (t.accessAll before).2.get) := by
  rw [accessAll_append, List.getElem?_append_right (Nat.le_of_eq (length_accessAll t before)),
    length_accessAll, Nat.sub_self, accessAll_cons]
  exact congrArg some (access_fst _ a)

/-! ## Allocated cells -/

/-- A tape grows exactly as far as an access reaches. -/
theorem size_access_le_iff {a : Access} {n : Nat} :
    (t.access a).2.size ≤ n ↔ t.size ≤ n ∧ ∀ i, a.reached? = some i → i < n := by
  have hallocates : ∀ j, max t.size (j + 1) ≤ n ↔ t.size ≤ n ∧ ∀ i, some j = some i → i < n := by
    intro j
    rw [Nat.max_le]
    refine and_congr_right fun _ => ?_
    constructor
    · rintro hj i ⟨⟩
      exact hj
    · intro h
      exact h j rfl
  cases a with
  | peek i =>
      show t.size ≤ n ↔ _
      exact ⟨fun h => ⟨h, nofun⟩, And.left⟩
  | touch i =>
      show (t.touch i).size ≤ n ↔ _
      rw [size_touch]
      exact hallocates i
  | poke i v =>
      show (t.set i v).size ≤ n ↔ _
      rw [size_set]
      exact hallocates i

/-- As many cells are allocated as it takes to go beyond every cell that an access
    allocates up to, and no more. -/
theorem size_accessAll_le_iff {history : List Access} {n : Nat} :
    (t.accessAll history).2.size ≤ n ↔
      t.size ≤ n ∧ ∀ a ∈ history, ∀ i, a.reached? = some i → i < n := by
  induction history generalizing t with
  | nil => exact ⟨fun h => ⟨h, nofun⟩, And.left⟩
  | cons a history ih =>
      show ((t.access a).2.accessAll history).2.size ≤ n ↔ _
      rw [ih, size_access_le_iff, List.forall_mem_cons, and_assoc]

/-- No access shrinks the tape. -/
theorem size_le_size_accessAll (history : List Access) : t.size ≤ (t.accessAll history).2.size :=
  ((size_accessAll_le_iff t).mp (Nat.le_refl _)).1

/-- A tape is empty as long as no access has reached a cell. -/
theorem size_accessAll_eq_zero_iff {history : List Access} :
    (empty.accessAll history).2.size = 0 ↔ ∀ a ∈ history, a.reached? = none := by
  rw [← Nat.le_zero, size_accessAll_le_iff]
  constructor
  · rintro ⟨-, hnone⟩ a ha
    cases hi : a.reached? with
    | none => rfl
    | some i => exact absurd (hnone a ha i hi) (Nat.not_lt_zero i)
  · intro hnone
    refine ⟨Nat.le_refl 0, ?_⟩
    intro a ha i hi
    rw [hnone a ha] at hi
    cases hi

/-- Else its last cell is the rightmost one that has been reached. -/
theorem size_accessAll_eq_succ_iff {history : List Access} {n : Nat} :
    (empty.accessAll history).2.size = n + 1 ↔
      IsGreatest {i | ∃ a ∈ history, a.reached? = some i} n := by
  have hbound : ∀ m, (empty.accessAll history).2.size ≤ m ↔
      ∀ a ∈ history, ∀ i, a.reached? = some i → i < m := by
    intro m
    rw [size_accessAll_le_iff]
    exact and_iff_right (Nat.zero_le m)
  constructor
  · intro hsize
    have hupper := (hbound (n + 1)).mp (Nat.le_of_eq hsize)
    refine ⟨?_, ?_⟩
    · -- if nothing went as far as `n`, then `n` cells would do
      by_contra hn
      have hfewer : (empty.accessAll history).2.size ≤ n := by
        refine (hbound n).mpr ?_
        intro a ha i hi
        have hlt := hupper a ha i hi
        have hne : i ≠ n := by
          rintro rfl
          exact hn ⟨a, ha, hi⟩
        omega
      omega
    · rintro i ⟨a, ha, hi⟩
      exact Nat.le_of_lt_succ (hupper a ha i hi)
  · rintro ⟨⟨a, ha, hn⟩, hupper⟩
    refine Nat.le_antisymm ?_ ?_
    · refine (hbound (n + 1)).mpr ?_
      intro b hb i hi
      exact Nat.lt_succ_of_le (hupper ⟨b, hb, hi⟩)
    · exact (hbound _).mp (Nat.le_refl _) a ha n hn

/-- What only looks at the tape may be left out. -/
theorem accessAll_filter_reached (history : List Access) :
    (t.accessAll (history.filter (·.reached?.isSome))).2 = (t.accessAll history).2 := by
  induction history generalizing t with
  | nil => rfl
  | cons a history ih =>
      cases a with
      | peek i => exact ih t
      | touch i => exact ih (t.touch i)
      | poke i v => exact ih (t.set i v)

/-- **A tape is a total map that is zero to begin with.**  Access a fresh tape in any
    sequence, at any cells and with any words.

    * Each cell reads as the word last stored there, or as zero if none was; so does
      every access on the way that reads a cell, and one that stores answers nothing.
    * No cell is allocated if all accesses only look.  Else the tape reaches up to the
      furthest cell touched or stored in, and ends there.
    * Accesses allocate cells and give none back, and those that only look could be
      left out. -/
theorem tape_is_zeroed_map (history : List Access) :
    let answers := (empty.accessAll history).1
    let t := (empty.accessAll history).2
    (∀ i v, t.get i = v ↔ LastWritten i history v) ∧
    (∀ before a after, history = before ++ a :: after →
      (∀ i, a.read? = some i →
        ∃ v, answers[before.length]? = some (some v) ∧ LastWritten i before v) ∧
      (a.read? = none → answers[before.length]? = some none)) ∧
    ((t.size = 0 ∧ t.isEmpty = true ∧ ∀ a ∈ history, a.reached? = none) ∨
      ∃ n, t.size = n + 1 ∧ t.isEmpty = false ∧
        IsGreatest {i | ∃ a ∈ history, a.reached? = some i} n) ∧
    (∀ more, t.size ≤ (t.accessAll more).2.size) ∧
    (empty.accessAll (history.filter (·.reached?.isSome))).2 = t := by
  intro answers t
  refine ⟨fun i v => get_accessAll_eq_iff, ?_, ?_, size_le_size_accessAll t,
    accessAll_filter_reached empty history⟩
  · rintro before a after rfl
    have hanswer : answers[before.length]? = some (a.read?.map (empty.accessAll before).2.get) :=
      getElem?_accessAll empty before after a
    refine ⟨?_, ?_⟩
    · intro i hi
      rw [hi] at hanswer
      exact ⟨_, hanswer, get_accessAll_eq_iff.mp rfl⟩
    · intro hi
      rw [hi] at hanswer
      exact hanswer
  · cases hsize : t.size with
    | zero =>
        exact Or.inl ⟨rfl, (isEmpty_iff t).mpr hsize, size_accessAll_eq_zero_iff.mp hsize⟩
    | succ n =>
        have hempty : t.isEmpty = false := by
          rw [← Bool.not_eq_true, isEmpty_iff, hsize]
          exact Nat.succ_ne_zero n
        exact Or.inr ⟨n, rfl, hempty, size_accessAll_eq_succ_iff.mp hsize⟩

end TapeMachine.Tape
