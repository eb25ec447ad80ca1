import Std.Data.String.ToInt
import TapeMachine.Fault
import TapeMachine.Proofs.Text.LossyDecoding

/-! # What is said of a fault

    `Fault.Worded` lists the label and the wording of each fault that can be reported,
    and `Fault.Diagnosis` the line that is made of them.  Neither speaks of the
    functions that write a report; these are held to it (`Fault.worded_iff`,
    `Fault.diagnosis_iff`).

    A report can be read back.  The label tells the cause, and what the wording says
    between its fixed words is the rest of the fault, but for what a file load leaves
    to the operating system (`Fault.Worded.fault_unique`). -/

namespace TapeMachine

/-- The words of the operating system for a read failure. -/
inductive ReadFailure.Worded : ReadFailure → (words : String) → Prop where
  | notFound : Worded .notFound "No such file or directory (os error 2)"
  | notDirectory : Worded .notDirectory "Not a directory (os error 20)"
  | isDirectory : Worded .isDirectory "Is a directory (os error 21)"
  | nameTooLong : Worded .nameTooLong "File name too long (os error 36)"
  | permissionDenied : Worded .permissionDenied "Permission denied (os error 13)"
  | zeroInPath : Worded .zeroInPath "file name contained an unexpected NUL byte"
  | other (words : String) : Worded (.other words) words

/-- The wording of a read failure is that of the operating system. -/
theorem ReadFailure.worded_iff {cause : ReadFailure} {words : String} :
    cause.Worded words ↔ words = cause.message := by
  constructor
  · rintro ⟨⟩ <;> rfl
  · rintro rfl
    cases cause <;> constructor

namespace Fault

/-- The label and the wording of a fault. -/
inductive Worded : Fault → (label wording : String) → Prop where
  | invalidSourceKind (selector : String) :
      Worded (.invalidSourceKind selector) "InvalidSourceKind"
        ("invalid source kind `" ++ selector ++ "`, expected `T` or `F`")
  | fileLoad {path : List UInt8} {shown : String} (reads : Utf8.DecodesTo path shown.toList)
      (cause : ReadFailure) :
      Worded (.fileLoad path cause) "FileLoad" ("failed to load program from " ++ shown)
  | unimplementedInstruction (symbol : Char) (position : Nat) :
      Worded (.unimplementedInstruction symbol position) "UnimplementedInstruction"
        ("command `" ++ String.singleton symbol ++ "` at " ++ toString position ++
          " is not yet functional")
  | programCounterOutOfRange (position : Int) (len : Nat) :
      Worded (.programCounterOutOfRange position len) "ProgramCounterOutOfRange"
        ("invalid program pointer (" ++ toString position ++ "), program length is " ++
          toString len)
  | dataPointerUnderflow (position : Nat) :
      Worded (.dataPointerUnderflow position) "DataPointerUnderflow"
        ("data pointer moved below cell 0 at " ++ toString position)
  | invalidCodePoint (value : Int64) (position : Nat) :
      Worded (.invalidCodePoint value position) "InvalidCodePoint"
        ("cell value " ++ toString value.toInt ++ " at " ++ toString position ++
          " is not a character")
  | stepLimitExceeded (limit : Nat) :
      Worded (.stepLimitExceeded limit) "StepLimitExceeded"
        ("step limit of " ++ toString limit ++ " exceeded")
  | searchOutsideProgram (start len : Nat) :
      Worded (.searchOutsideProgram start len) "SearchOutsideProgram"
        ("search started at " ++ toString start ++ ", program length is " ++ toString len)

/-- The line that reports a fault: its label and its wording, and for a file that cannot
    be loaded the words of the operating system. -/
inductive Diagnosis : Fault → (line : String) → Prop where
  | loaded {fault : Fault} {label wording : String} (worded : fault.Worded label wording)
      (noFile : ∀ path cause, fault ≠ .fileLoad path cause) :
      Diagnosis fault (label ++ ": " ++ wording)
  | unloaded {path : List UInt8} {cause : ReadFailure} {label wording words : String}
      (worded : (fileLoad path cause).Worded label wording) (spoken : cause.Worded words) :
      Diagnosis (.fileLoad path cause) (label ++ ": " ++ wording ++ ": " ++ words)

/-! ## The functions that write a report -/

/-- Every fault has its own label and wording. -/
theorem worded_iff {fault : Fault} {label wording : String} :
    fault.Worded label wording ↔ label = fault.kind ∧ wording = fault.message := by
  constructor
  · intro h
    cases h with
    | fileLoad reads cause =>
        obtain rfl := String.toList_inj.mp (Utf8.decodesTo_iff.mp reads)
        exact ⟨rfl, rfl⟩
    | _ => exact ⟨rfl, rfl⟩
  · rintro ⟨rfl, rfl⟩
    cases fault with
    | fileLoad path cause => exact .fileLoad (Utf8.decodesTo_decodeLossy path) cause
    | invalidSourceKind selector => exact .invalidSourceKind selector
    | unimplementedInstruction symbol position => exact .unimplementedInstruction symbol position
    | programCounterOutOfRange position len => exact .programCounterOutOfRange position len
    | dataPointerUnderflow position => exact .dataPointerUnderflow position
    | invalidCodePoint value position => exact .invalidCodePoint value position
    | stepLimitExceeded limit => exact .stepLimitExceeded limit
    | searchOutsideProgram start len => exact .searchOutsideProgram start len

/-- The line is the label and the wording, with the words of the operating system behind
    them if there are any. -/
theorem diagnosis_iff {fault : Fault} {line : String} :
    fault.Diagnosis line ↔ line = fault.diagnostic := by
  constructor
  · intro h
    cases h with
    | loaded worded noFile =>
        obtain ⟨rfl, rfl⟩ := worded_iff.mp worded
        cases fault with
        | fileLoad path cause => exact absurd rfl (noFile path cause)
        | _ => rfl
    | unloaded worded spoken =>
        obtain ⟨rfl, rfl⟩ := worded_iff.mp worded
        obtain rfl := ReadFailure.worded_iff.mp spoken
        rfl
  · rintro rfl
    have worded : fault.Worded fault.kind fault.message := worded_iff.mpr ⟨rfl, rfl⟩
    cases fault with
    | fileLoad path cause => exact .unloaded worded (ReadFailure.worded_iff.mpr rfl)
    | _ => exact .loaded worded nofun

/-! ## Reading a report back -/

/-- A character that may stand in a number. -/
def inNumber (c : Char) : Bool := c.isDigit || c == '-'

theorem inNumber_of_mem_repr {n : Nat} {c : Char} (h : c ∈ n.repr.toList) :
    inNumber c = true := by
  rw [Nat.toList_repr] at h
  rw [inNumber, Nat.isDigit_of_mem_toDigits (by decide) (by decide) h]
  rfl

/-- The decimal digits of an integer are digits, with a sign in front of them if it is negative. -/
theorem inNumber_of_mem_toString {a : Int} {c : Char} (h : c ∈ (toString a).toList) :
    inNumber c = true := by
  cases a with
  | ofNat n => exact inNumber_of_mem_repr h
  | negSucc n =>
      rw [show toString (Int.negSucc n) = "-" ++ (n + 1).repr from rfl, String.toList_append,
        List.mem_append] at h
      rcases h with hsign | hdigits
      · obtain rfl : c = '-' := List.mem_singleton.mp hsign
        rfl
      · exact inNumber_of_mem_repr hdigits

/-- The first occurrence of a character cuts a list in one way. -/
theorem cut_unique {c : Char} {x y p q : List Char} (hx : c ∉ x) (hy : c ∉ y)
    (h : x ++ c :: p = y ++ c :: q) : x = y ∧ p = q := by
  induction x generalizing y with
  | nil =>
      cases y with
      | nil => exact ⟨rfl, (List.cons.inj h).2⟩
      | cons d y =>
          obtain ⟨rfl, -⟩ := List.cons.inj h
          exact absurd List.mem_cons_self hy
  | cons d x ih =>
      cases y with
      | nil =>
          obtain ⟨rfl, -⟩ := List.cons.inj h
          exact absurd List.mem_cons_self hx
      | cons e y =>
          obtain ⟨rfl, htail⟩ := List.cons.inj h
          obtain ⟨rfl, rfl⟩ :=
            ih (fun hc => hx (List.mem_cons_of_mem _ hc)) (fun hc => hy (List.mem_cons_of_mem _ hc))
              htail
          exact ⟨rfl, rfl⟩

/-- A character and what follows it can be told from their text. -/
theorem singleton_append_inj {c d : Char} {s t : String}
    (h : String.singleton c ++ s = String.singleton d ++ t) : c = d ∧ s = t := by
  have hlist := congrArg String.toList h
  simp only [String.toList_append, String.toList_singleton] at hlist
  obtain ⟨rfl, htail⟩ := List.cons.inj hlist
  exact ⟨rfl, String.toList_inj.mp htail⟩

/-- A number ends at the first character that may not stand in one. -/
theorem toString_append_inj (c : Char) {a b : Int} {sep s t : String}
    (hhead : sep.toList.head? = some c) (hc : inNumber c = false)
    (h : toString a ++ (sep ++ s) = toString b ++ (sep ++ t)) : a = b ∧ s = t := by
  obtain ⟨rest, hrest⟩ := List.head?_eq_some_iff.mp hhead
  have hlist := congrArg String.toList h
  simp only [String.toList_append, hrest, List.cons_append] at hlist
  have hfree : ∀ n : Int, c ∉ (toString n).toList := by
    intro n hn
    rw [inNumber_of_mem_toString hn] at hc
    cases hc
  obtain ⟨hnumber, htail⟩ := cut_unique (hfree a) (hfree b) hlist
  exact ⟨Int.repr_injective (String.toList_inj.mp hnumber),
    String.toList_inj.mp (List.append_cancel_left htail)⟩

/-- **A report loses nothing.**  Faults with one label and one wording are the same, or
    they are files that cannot be loaded and whose paths read alike. -/
theorem Worded.fault_unique {f g : Fault} {label wording label' wording' : String}
    (hf : f.Worded label wording) (hg : g.Worded label' wording') (hlabel : label = label')
    (hwording : wording = wording') :
    f = g ∨ ∃ path path' cause cause', f = .fileLoad path cause ∧ g = .fileLoad path' cause' ∧
      Utf8.decodeLossy path = Utf8.decodeLossy path' := by
  -- the label leaves one cause for the other fault; between the fixed words of that cause
  -- stand its data, of which a number ends where the words go on
  cases hf with
  | invalidSourceKind selector =>
      cases hg with
      | invalidSourceKind selector' =>
          simp only [String.append_left_inj, String.append_right_inj] at hwording
          exact Or.inl (congrArg _ hwording)
      | _ => exact absurd hlabel (by decide)
  | fileLoad reads cause =>
      cases hg with
      | fileLoad reads' cause' =>
          obtain rfl := String.toList_inj.mp (Utf8.decodesTo_iff.mp reads)
          obtain rfl := String.toList_inj.mp (Utf8.decodesTo_iff.mp reads')
          exact Or.inr ⟨_, _, cause, cause', rfl, rfl, (String.append_right_inj _).mp hwording⟩
      | _ => exact absurd hlabel (by decide)
  | unimplementedInstruction symbol position =>
      cases hg with
      | unimplementedInstruction symbol' position' =>
          simp only [String.append_assoc, String.append_right_inj] at hwording
          obtain ⟨rfl, hposition⟩ := singleton_append_inj hwording
          rw [String.append_right_inj, String.append_left_inj] at hposition
          rw [Nat.repr_injective hposition]
          exact Or.inl rfl
      | _ => exact absurd hlabel (by decide)
  | programCounterOutOfRange position len =>
      cases hg with
      | programCounterOutOfRange position' len' =>
          simp only [String.append_assoc, String.append_right_inj] at hwording
          obtain ⟨rfl, hlen⟩ := toString_append_inj ')' (by decide) (by decide) hwording
          rw [Nat.repr_injective hlen]
          exact Or.inl rfl
      | _ => exact absurd hlabel (by decide)
  | dataPointerUnderflow position =>
      cases hg with
      | dataPointerUnderflow position' =>
          rw [String.append_right_inj] at hwording
          rw [Nat.repr_injective hwording]
          exact Or.inl rfl
      | _ => exact absurd hlabel (by decide)
  | invalidCodePoint value position =>
      cases hg with
      | invalidCodePoint value' position' =>
          simp only [String.append_assoc, String.append_right_inj] at hwording
          obtain ⟨hvalue, hposition⟩ := toString_append_inj ' ' (by decide) (by decide) hwording
          rw [String.append_left_inj] at hposition
          rw [Int64.toInt_inj.mp hvalue, Nat.repr_injective hposition]
          exact Or.inl rfl
      | _ => exact absurd hlabel (by decide)
  | stepLimitExceeded limit =>
      cases hg with
      | stepLimitExceeded limit' =>
          rw [String.append_left_inj, String.append_right_inj] at hwording
          rw [Nat.repr_injective hwording]
          exact Or.inl rfl
      | _ => exact absurd hlabel (by decide)
  | searchOutsideProgram start len =>
      cases hg with
      | searchOutsideProgram start' len' =>
          simp only [String.append_assoc, String.append_right_inj] at hwording
          have h : toString (start : Int) ++ (", program length is " ++ toString len)
              = toString (start' : Int) ++ (", program length is " ++ toString len') := hwording
          obtain ⟨hstart, hlen⟩ := toString_append_inj ',' (by decide) (by decide) h
          rw [Nat.repr_injective hlen, Int.ofNat_inj.mp hstart]
          exact Or.inl rfl
      | _ => exact absurd hlabel (by decide)

end Fault

end TapeMachine
