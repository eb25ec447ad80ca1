import Std.Data.ExtTreeMap
import TapeMachine.Fault
import TapeMachine.Instruction

/-! # Bracket matching by table

    One pass over a program text pairs every `[` with its `]`.  The pass keeps
    the positions of the brackets still open, innermost first.  It fails at once
    on a `]` that closes nothing, and at the end if a bracket is left open. -/

namespace TapeMachine.Bracket

/-- The matched pairs of a text, as a finite map from each bracket to its
    partner.  Equal content is equality. -/
structure Table where
  partners : Std.ExtTreeMap Nat Nat
  deriving DecidableEq

namespace Table

/-- The table without pairs. -/
def empty : Table := ⟨∅⟩

/-- The partner of the bracket at `pos`, if there is a matched bracket. -/
def partner? (t : Table) (pos : Nat) : Option Nat := t.partners[pos]?

/-- Adds the pair of a `[` at `start` and a `]` at `stop`. -/
def addPair (t : Table) (start stop : Nat) : Table :=
  ⟨(t.partners.insert start stop).insert stop start⟩

/-- The number of matched pairs. -/
def pairs (t : Table) : Nat := t.partners.size / 2

/-- Every matched position with its partner, ascending. -/
def toList (t : Table) : List (Nat × Nat) := t.partners.toList

/-- Reads on from position `pos`, with the brackets in `opened` still open and
    the pairs closed so far in `t`; `len` is the length of the whole text. -/
def buildFrom (len : Nat) :
    List UInt8 → (pos : Nat) → (opened : List Nat) → Table → Except Fault Table
  | [], _, [], t => .ok t
  | [], _, _ :: _, _ => .error (.programCounterOutOfRange len len)
  | b :: rest, pos, opened, t =>
      match Instruction.ofByte? b with
      | some .loopOpen => buildFrom len rest (pos + 1) (pos :: opened) t
      | some .loopClose =>
          match opened with
          | [] => .error (.programCounterOutOfRange (-1) len)
          | start :: opened =>
              buildFrom len rest (pos + 1) opened (t.addPair start pos)
      | _ => buildFrom len rest (pos + 1) opened t

/-- The table of a text.  A text that is not balanced is refused: with position
    -1 at the first `]` that closes nothing, else with its length. -/
def build (code : Array UInt8) : Except Fault Table :=
  buildFrom code.size code.toList 0 [] empty

/-! ## The view -/

@[simp] theorem partner?_empty (p : Nat) : empty.partner? p = none := by
  simp [empty, partner?]

/-- A new pair is found at both of its ends, and hides what was there. -/
theorem partner?_addPair (t : Table) (start stop p : Nat) :
    (t.addPair start stop).partner? p =
      if p = stop then some start
      else if p = start then some stop
      else t.partner? p := by
  simp only [addPair, partner?, Std.ExtTreeMap.getElem?_insert, Nat.compare_eq_eq,
    eq_comm (a := p)]

/-- Tables with the same partners are equal. -/
theorem ext_partner? {s t : Table} (h : ∀ p, s.partner? p = t.partner? p) : s = t := by
  obtain ⟨s⟩ := s
  obtain ⟨t⟩ := t
  exact congrArg mk (Std.ExtTreeMap.ext_getElem? h)

end Table

end TapeMachine.Bracket
