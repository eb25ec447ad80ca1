import TapeMachine.Proofs.Bracket.Stripped
import TapeMachine.Proofs.Text.LossyDecoding
import TapeMachine.Source

/-! # The text of a program file

    Reading a program file takes out the line ends and nothing else: each `\n`, and
    each `\r` directly in front of one (`LineEnd`, `joinLines_eq`).  Then what is
    left is decoded.  Neither touches an instruction, since a line end is none and
    an instruction is a byte below 128 (`stripped_textOfFile`), and neither leaves
    a `\n`.  So there is nothing to take out or to replace any more when the text is
    written to a file and read again (`textOfFile_toUTF8`). -/

namespace TapeMachine

open TapeMachine.Bracket

namespace Text

/-! ## Line ends -/

/-- The byte at position `i` belongs to a line end: it is `\n`, or `\r` directly in front of one. -/
def LineEnd (bytes : List UInt8) (i : Nat) : Prop :=
  bytes[i]? = some 0x0A ∨ (bytes[i]? = some 0x0D ∧ bytes[i + 1]? = some 0x0A)

instance (bytes : List UInt8) : DecidablePred (LineEnd bytes) :=
  fun _ => inferInstanceAs (Decidable (_ ∨ _))

/-- The bytes that belong to no line end, in their order. -/
def withoutLineEnds (bytes : List UInt8) : List UInt8 :=
  (List.range bytes.length).filterMap fun i => if LineEnd bytes i then none else bytes[i]?

theorem withoutLineEnds_cons (b : UInt8) (rest : List UInt8) :
    withoutLineEnds (b :: rest)
      = (if LineEnd (b :: rest) 0 then [] else [b]) ++ withoutLineEnds rest := by
  rw [withoutLineEnds, List.length_cons, List.range_succ_eq_map, List.filterMap_cons,
    List.filterMap_map]
  by_cases h : LineEnd (b :: rest) 0
  · rw [if_pos h, if_pos h]
    rfl
  · rw [if_neg h, if_neg h]
    rfl

/-- Whether a byte stays depends on the next one alone. -/
theorem joinLines_cons_eq (b : UInt8) (rest : List UInt8) :
    joinLines (b :: rest) = (if LineEnd (b :: rest) 0 then [] else [b]) ++ joinLines rest := by
  by_cases hlf : b = 0x0A
  · subst hlf
    have hend : LineEnd (0x0A :: rest) 0 := Or.inl rfl
    rw [if_pos hend]
    exact joinLines_lf rest
  · by_cases hcr : b = 0x0D ∧ rest.head? = some 0x0A
    · obtain ⟨rfl, hhead⟩ := hcr
      obtain ⟨rest', rfl⟩ := List.head?_eq_some_iff.mp hhead
      have hend : LineEnd (0x0D :: 0x0A :: rest') 0 := Or.inr ⟨rfl, rfl⟩
      rw [if_pos hend, joinLines_crlf]
      exact (joinLines_lf rest').symm
    · have hstays : ¬ LineEnd (b :: rest) 0 := by
        rintro (h | ⟨h, h'⟩)
        · exact hlf (Option.some.inj h)
        · rw [Nat.zero_add, List.getElem?_cons_succ, ← List.head?_eq_getElem?] at h'
          exact hcr ⟨Option.some.inj h, h'⟩
      rw [if_neg hstays]
      exact joinLines_cons hlf (fun h h' => hcr ⟨h, h'⟩)

/-- Joining the lines is leaving out the line ends. -/
theorem joinLines_eq (bytes : List UInt8) : joinLines bytes = withoutLineEnds bytes := by
  induction bytes with
  | nil => rfl
  | cons b rest ih => rw [joinLines_cons_eq, withoutLineEnds_cons, ih]

/-- Of any bytes but `\n` and `\r` none is taken out. -/
theorem filter_joinLines (bytes : List UInt8) {p : UInt8 → Bool} (hlf : p 0x0A = false)
    (hcr : p 0x0D = false) : (joinLines bytes).filter p = bytes.filter p := by
  induction bytes with
  | nil => rfl
  | cons b rest ih =>
      rw [joinLines_cons_eq, List.filter_append, ih]
      split
      · rename_i hend
        have hb : p b = false := by
          rcases hend with h | ⟨h, -⟩
          · rw [Option.some.inj h]
            exact hlf
          · rw [Option.some.inj h]
            exact hcr
        rw [List.filter_cons_of_neg (Bool.not_eq_true _ ▸ hb)]
        rfl
      · rw [← List.filter_append]
        rfl

/-- No `\n` is left. -/
theorem lf_not_mem_joinLines (bytes : List UInt8) : 0x0A ∉ joinLines bytes := by
  induction bytes with
  | nil => exact List.not_mem_nil
  | cons b rest ih =>
      rw [joinLines_cons_eq, List.mem_append]
      rintro (h | h)
      · split at h
        · exact absurd h List.not_mem_nil
        · rename_i hstays
          exact hstays (Or.inl (congrArg some (List.mem_singleton.mp h).symm))
      · exact ih h

/-- Where there is no `\n` there is no line end. -/
theorem joinLines_of_not_mem {bytes : List UInt8} (h : 0x0A ∉ bytes) : joinLines bytes = bytes := by
  induction bytes with
  | nil => rfl
  | cons b rest ih =>
      have hstays : ¬ LineEnd (b :: rest) 0 := by
        rintro (hb | ⟨-, hnext⟩)
        · exact h (List.mem_of_getElem? hb)
        · exact h (List.mem_of_getElem? hnext)
      rw [joinLines_cons_eq, if_neg hstays, ih (fun hmem => h (List.mem_cons_of_mem b hmem))]
      rfl

/-! ## Line by line -/

/-- A line without the `\r` at its end, if it has one. -/
def dropCr (line : List UInt8) : List UInt8 :=
  if line.getLast? = some 0x0D then line.dropLast else line

/-- A `\r` is dropped at the end of a line only. -/
theorem dropCr_cons_cons (b c : UInt8) (line : List UInt8) :
    dropCr (b :: c :: line) = b :: dropCr (c :: line) := by
  rw [dropCr, dropCr, List.getLast?_cons_cons, List.dropLast_cons_cons]
  split
  · rfl
  · rfl

/-- The first line is read by itself. -/
theorem joinLines_line {line : List UInt8} (h : 0x0A ∉ line) (rest : List UInt8) :
    joinLines (line ++ 0x0A :: rest) = dropCr line ++ joinLines rest := by
  induction line with
  | nil => exact joinLines_lf rest
  | cons b line ih =>
      have hb : b ≠ 0x0A := fun hb => h (hb ▸ List.mem_cons_self)
      have hline : 0x0A ∉ line := fun hmem => h (List.mem_cons_of_mem b hmem)
      cases line with
      | nil =>
          by_cases hcr : b = 0x0D
          · subst hcr
            exact joinLines_crlf rest
          · have hdrop : dropCr [b] = [b] := if_neg (fun h => hcr (Option.some.inj h))
            rw [hdrop, List.singleton_append, joinLines_cons hb (fun h => absurd h hcr)]
            exact congrArg (b :: ·) (joinLines_lf rest)
      | cons c line =>
          have hc : (c :: (line ++ 0x0A :: rest)).head? ≠ some 0x0A := by
            intro hhead
            exact hline (Option.some.inj hhead ▸ List.mem_cons_self)
          rw [dropCr_cons_cons, List.cons_append, List.cons_append, joinLines_cons hb (fun _ => hc)]
          exact congrArg (b :: ·) (ih hline)

/-- Lines are read one after the other.  Each loses its `\n` and one `\r` in front of
    it; what stands behind the last `\n` stays as it is. -/
theorem joinLines_lines {lines : List (List UInt8)} (h : ∀ line ∈ lines, 0x0A ∉ line)
    {last : List UInt8} (hlast : 0x0A ∉ last) :
    joinLines (lines.flatMap (· ++ [0x0A]) ++ last) = lines.flatMap dropCr ++ last := by
  induction lines with
  | nil => exact joinLines_of_not_mem hlast
  | cons line lines ih =>
      rw [List.flatMap_cons, List.flatMap_cons, List.append_assoc, List.append_assoc,
        List.append_assoc, List.singleton_append, joinLines_line (h line List.mem_cons_self),
        ih (fun l hl => h l (List.mem_cons_of_mem line hl))]

end Text

/-! ## Program files -/

/-- Decoding what is left of a file touches no instruction. -/
theorem stripped_textOfFile (contents : List UInt8) :
    stripped (textOfFile contents).toUTF8.data.toList = stripped contents := by
  have hascii : ∀ b, isCode b = true → b.toNat < 0x80 := by
    intro b hb
    obtain ⟨i, hi⟩ := Option.isSome_iff_exists.mp hb
    rw [Instruction.ofByte?_eq_some_iff.mp hi]
    cases i <;> decide
  rw [textOfFile, stripped, Utf8.filter_decodeLossy _ hascii, Text.filter_joinLines _ rfl rfl,
    stripped]

/-- Nor does it put a `\n` back. -/
theorem lf_not_mem_textOfFile (contents : List UInt8) :
    0x0A ∉ (textOfFile contents).toUTF8.data.toList := by
  intro hmem
  have hlf : ∀ b : UInt8, (b == 0x0A) = true → b.toNat < 0x80 := by
    intro b hb
    rw [eq_of_beq hb]
    decide
  have hfilter := Utf8.filter_decodeLossy (Text.joinLines contents) hlf
  have hkept : 0x0A ∈ (Text.joinLines contents).filter (· == 0x0A) := by
    rw [← hfilter]
    exact List.mem_filter.mpr ⟨hmem, rfl⟩
  exact Text.lf_not_mem_joinLines contents (List.mem_filter.mp hkept).1

/-- The text of a file that holds such a text is that text. -/
theorem textOfFile_toUTF8 (contents : List UInt8) :
    textOfFile (textOfFile contents).toUTF8.data.toList = textOfFile contents := by
  conv => lhs; rw [textOfFile]
  rw [Text.joinLines_of_not_mem (lf_not_mem_textOfFile contents), Utf8.decodeLossy_utf8]

/-- The text of a file has no newline in it. -/
theorem newline_not_mem_textOfFile (contents : List UInt8) :
    '\n' ∉ (textOfFile contents).toList := by
  intro hmem
  refine lf_not_mem_textOfFile contents ?_
  rw [Utf8.toUTF8_eq_flatMap]
  exact List.mem_flatMap.mpr ⟨'\n', hmem, List.mem_singleton.mpr rfl⟩

/-- **Loading a file removes line ends and nothing else.**  A file that can be read
    is loaded, whatever bytes it holds.  The text is that of its bytes without the
    line ends, each `\n` with one `\r` directly in front of it, and with U+FFFD for
    each maximal ill-formed part of what is left.  It holds no newline, its
    instructions are those of the file, in their order, and a file that holds it
    is loaded as the same text. -/
theorem file_loading_removes_line_ends_only {read : FileReader} {path contents : List UInt8}
    (readable : read path = .ok contents) :
    ∃ text, readProgramText read path = .ok text ∧
      (∀ chars, Utf8.DecodesTo (Text.withoutLineEnds contents) chars ↔ chars = text.toList) ∧
      '\n' ∉ text.toList ∧
      stripped text.toUTF8.data.toList = stripped contents ∧
      ∀ (read' : FileReader) (path' : List UInt8),
        read' path' = .ok text.toUTF8.data.toList → readProgramText read' path' = .ok text := by
  refine ⟨textOfFile contents, ?_, ?_, newline_not_mem_textOfFile contents,
    stripped_textOfFile contents, ?_⟩
  · rw [readProgramText, readable]
  · intro chars
    rw [← Text.joinLines_eq]
    exact Utf8.decodesTo_iff
  · intro read' path' h
    rw [readProgramText, h]
    exact congrArg Except.ok (textOfFile_toUTF8 contents)

/-- A character cut short by a line end and an instruction is replaced, one that a line
    end only splits is whole again, and a `\r` in front of none stays. -/
theorem file_loading_removes_line_ends_only_from_sequences :
    let contents : List UInt8 := [0x2B, 0x0D, 0x0D, 0x0A, 0xE2, 0x82, 0x0D, 0x0A, 0x2D,
      0xE2, 0x0A, 0x82, 0xAC, 0x0D]
    let read : FileReader := fun _ => .ok contents
    read [] = .ok contents ∧ readProgramText read [] = .ok "+\r\uFFFD-\u20AC\r" ∧
      Utf8.DecodesTo (Text.withoutLineEnds contents) "+\r\uFFFD-\u20AC\r".toList ∧
      stripped "+\r\uFFFD-\u20AC\r".toUTF8.data.toList = [0x2B, 0x2D] := by
  intro contents read
  have readable : read [] = .ok contents := rfl
  have hread : readProgramText read [] = .ok "+\r\uFFFD-\u20AC\r" := by decide +kernel
  obtain ⟨text, htext, hdecodes, -, hcode, -⟩ := file_loading_removes_line_ends_only readable
  obtain rfl := Except.ok.inj (hread.symm.trans htext)
  exact ⟨readable, hread, (hdecodes _).mpr rfl, hcode.trans rfl⟩

end TapeMachine
