import TapeMachine.Proofs.Machine.Step
import TapeMachine.Proofs.Text.Symbols

/-! # Instructions by their byte offsets

    A program is written in characters and run byte by byte, and its positions are
    byte offsets.  The two readings agree: a symbol is one byte, which decodes to its
    instruction, and no byte of any other character decodes to one, whether it is the
    first of the character or stands inside (`decodedFrom_utf8EncodeChar`).  So the
    instructions of a program are the symbols in its text, each at the offset that
    the characters in front of it add up to (`decodedFrom_eq_symbolsFrom`). -/

namespace TapeMachine

open String (utf8EncodeChar)
open TapeMachine.Bracket

/-- A text takes as many bytes as its characters together. -/
theorem Utf8.length_flatMap (cs : List Char) :
    (cs.flatMap utf8EncodeChar).length = (String.ofList cs).utf8ByteSize := by
  have hbytes := Utf8.toUTF8_eq_flatMap (String.ofList cs)
  rw [String.toList_ofList] at hbytes
  rw [← hbytes]
  exact Array.length_toList

namespace Instruction

/-! ## Symbols and bytes -/

/-- The instruction that a character is the symbol of. -/
def ofSymbol? (c : Char) : Option Instruction := all.find? (·.symbol = c)

/-- The symbol of an instruction is found, and nothing but a symbol. -/
theorem ofSymbol?_eq_some_iff {c : Char} {i : Instruction} :
    ofSymbol? c = some i ↔ c = i.symbol := by
  constructor
  · intro h
    have hfound := List.find?_some h
    exact (of_decide_eq_true hfound).symm
  · rintro rfl
    cases i <;> rfl

/-- The symbols are ASCII. -/
theorem byte_toNat_lt (i : Instruction) : i.byte.toNat < 0x80 := by
  cases i <;> decide

/-- A byte of a longer sequence is no instruction. -/
theorem ofByte?_of_high {b : UInt8} (h : 0x80 ≤ b.toNat) : ofByte? b = none := by
  cases hb : ofByte? b with
  | none => rfl
  | some i =>
      rw [ofByte?_eq_some_iff.mp hb] at h
      exact absurd i.byte_toNat_lt (Nat.not_lt.mpr h)

theorem ofSymbol?_of_high {c : Char} (h : 0x80 ≤ c.toNat) : ofSymbol? c = none := by
  cases hc : ofSymbol? c with
  | none => rfl
  | some i =>
      rw [ofSymbol?_eq_some_iff.mp hc, symbol_toNat] at h
      exact absurd i.byte_toNat_lt (Nat.not_lt.mpr h)

/-- A character of one byte is read as that byte is. -/
theorem ofByte?_ofNat {c : Char} (h : c.toNat < 0x80) :
    ofByte? (UInt8.ofNat c.toNat) = ofSymbol? c := by
  refine Option.ext fun i => ?_
  rw [ofByte?_eq_some_iff, ofSymbol?_eq_some_iff, ← UInt8.toNat_inj, ← Char.toNat_inj,
    symbol_toNat, UInt8.toNat_ofNat_of_lt' (Nat.lt_trans h (by decide))]

/-! ## Texts -/

/-- The instructions among some bytes, with their positions; the first byte is at `offset`. -/
def decodedFrom (offset : Nat) (bytes : List UInt8) : List (Nat × Instruction) :=
  (bytes.zipIdx offset).filterMap fun (b, pos) => (ofByte? b).map fun i => (pos, i)

/-- The symbols among some characters, with their byte offsets; the first character is
    at `offset`. -/
def symbolsFrom (offset : Nat) : List Char → List (Nat × Instruction)
  | [] => []
  | c :: rest =>
      ((ofSymbol? c).map fun i => (offset, i)).toList ++ symbolsFrom (offset + c.utf8Size) rest

/-- The first byte is listed if it is an instruction, and the others are one further. -/
theorem decodedFrom_cons (offset : Nat) (b : UInt8) (l : List UInt8) :
    decodedFrom offset (b :: l)
      = ((ofByte? b).map fun i => (offset, i)).toList ++ decodedFrom (offset + 1) l := by
  rw [decodedFrom, List.zipIdx_cons, List.filterMap_cons]
  dsimp only
  cases ofByte? b with
  | none => rfl
  | some i => rfl

/-- The instructions of two pieces are listed one behind the other. -/
theorem decodedFrom_append (offset : Nat) (l r : List UInt8) :
    decodedFrom offset (l ++ r) = decodedFrom offset l ++ decodedFrom (offset + l.length) r := by
  rw [decodedFrom, List.zipIdx_append, List.filterMap_append]
  rfl

theorem decodedFrom_of_high {l : List UInt8} (h : ∀ b ∈ l, 0x80 ≤ b.toNat) (offset : Nat) :
    decodedFrom offset l = [] := by
  induction l generalizing offset with
  | nil => rfl
  | cons b l ih =>
      rw [decodedFrom_cons, ofByte?_of_high (h b List.mem_cons_self),
        ih fun b' hb' => h b' (List.mem_cons_of_mem b hb')]
      rfl

/-- The bytes of a character hold its instruction, if it is a symbol, and nothing else. -/
theorem decodedFrom_utf8EncodeChar (offset : Nat) (c : Char) :
    decodedFrom offset (utf8EncodeChar c) = ((ofSymbol? c).map fun i => (offset, i)).toList := by
  by_cases hc : c.toNat < 0x80
  · rw [Utf8.utf8EncodeChar_of_lt hc, decodedFrom_cons, ofByte?_ofNat hc]
    exact List.append_nil _
  · have hhigh := Nat.not_lt.mp hc
    rw [decodedFrom_of_high fun b hb => Utf8.high_of_mem_utf8EncodeChar hhigh hb,
      ofSymbol?_of_high hhigh]
    rfl

/-- Reading bytes finds what reading characters finds. -/
theorem decodedFrom_eq_symbolsFrom (offset : Nat) (cs : List Char) :
    decodedFrom offset (cs.flatMap utf8EncodeChar) = symbolsFrom offset cs := by
  induction cs generalizing offset with
  | nil => rfl
  | cons c cs ih =>
      rw [List.flatMap_cons, decodedFrom_append, decodedFrom_utf8EncodeChar,
        String.length_utf8EncodeChar, ih]
      rfl

/-- A symbol stands at the offset that the characters in front of it add up to. -/
theorem mem_symbolsFrom_iff {offset pos : Nat} {i : Instruction} {cs : List Char} :
    (pos, i) ∈ symbolsFrom offset cs ↔
      ∃ before after, cs = before ++ i.symbol :: after ∧
        pos = offset + (String.ofList before).utf8ByteSize := by
  induction cs generalizing offset with
  | nil =>
      constructor
      · exact fun h => absurd h List.not_mem_nil
      · rintro ⟨before, after, hcut, -⟩
        exact absurd hcut.symm (List.append_ne_nil_of_right_ne_nil before (List.cons_ne_nil _ _))
  | cons c cs ih =>
      have hsize : ∀ before, offset + (String.ofList (c :: before)).utf8ByteSize
          = offset + c.utf8Size + (String.ofList before).utf8ByteSize := by
        intro before
        rw [String.ofList_cons, String.utf8ByteSize_append, String.utf8ByteSize_singleton,
          Nat.add_assoc]
      rw [symbolsFrom, List.mem_append, Option.mem_toList, Option.map_eq_some_iff, ih]
      constructor
      · rintro (⟨j, hj, ⟨⟩⟩ | ⟨before, after, rfl, rfl⟩)
        · exact ⟨[], cs, congrArg (· :: cs) (ofSymbol?_eq_some_iff.mp hj), rfl⟩
        · exact ⟨c :: before, after, rfl, (hsize before).symm⟩
      · rintro ⟨before, after, hcut, rfl⟩
        rcases List.cons_eq_append_iff.mp hcut with ⟨rfl, hhere⟩ | ⟨before', rfl, hlater⟩
        · obtain ⟨hc, -⟩ := List.cons.inj hhere
          exact Or.inl ⟨i, ofSymbol?_eq_some_iff.mpr hc.symm, rfl⟩
        · exact Or.inr ⟨before', after, hlater, hsize before'⟩

/-- The symbols are listed from left to right. -/
theorem pairwise_symbolsFrom (offset : Nat) (cs : List Char) :
    (symbolsFrom offset cs).Pairwise (·.1 < ·.1) := by
  induction cs generalizing offset with
  | nil => exact .nil
  | cons c cs ih =>
      have hsize : 0 < c.utf8Size := c.utf8Size_pos
      rw [symbolsFrom, List.pairwise_append]
      refine ⟨?_, ih _, ?_⟩
      · cases (ofSymbol? c).map fun i => (offset, i) with
        | none => exact .nil
        | some found => exact List.pairwise_singleton _ _
      · rintro ⟨p, i⟩ hfirst ⟨q, j⟩ hlater
        obtain ⟨i', -, ⟨⟩⟩ := Option.map_eq_some_iff.mp (Option.mem_toList.mp hfirst)
        obtain ⟨before, after, -, rfl⟩ := mem_symbolsFrom_iff.mp hlater
        show offset < offset + c.utf8Size + (String.ofList before).utf8ByteSize
        omega

end Instruction

namespace Program

open Instruction

variable {p : Program}

/-- The instructions of a program are the symbols in its text. -/
theorem instructions_eq {text : String} (accepted : ofText? text = .ok p) :
    p.instructions = symbolsFrom 0 text.toList := by
  show decodedFrom 0 p.code.toList = symbolsFrom 0 text.toList
  rw [ofText?_eq_ok_iff.mp accepted, Utf8.toUTF8_eq_flatMap, decodedFrom_eq_symbolsFrom]

/-- An instruction is listed exactly at the positions where it is decoded. -/
theorem mem_instructions_iff {pos : Nat} {i : Instruction} :
    (pos, i) ∈ p.instructions ↔ p.instructionAt? pos = some i := by
  rw [instructions, List.mem_filterMap, instructionAt?_eq_some_iff, ← Array.getElem?_toList]
  constructor
  · rintro ⟨⟨b, q⟩, hb, hfound⟩
    obtain ⟨j, hj, ⟨⟩⟩ := Option.map_eq_some_iff.mp hfound
    rw [← ofByte?_eq_some_iff.mp hj]
    exact List.mk_mem_zipIdx_iff_getElem?.mp hb
  · intro hbyte
    refine ⟨(i.byte, pos), List.mk_mem_zipIdx_iff_getElem?.mpr hbyte, ?_⟩
    show (ofByte? i.byte).map (fun j => (pos, j)) = some (pos, i)
    rw [ofByte?_byte]
    rfl

/-- None of the bytes of a character is an instruction if there are several. -/
theorem instructionAt?_inside {text : String} (accepted : ofText? text = .ok p)
    {before after : List Char} {c : Char} (hcut : text.toList = before ++ c :: after)
    (hwide : 1 < c.utf8Size) {k : Nat} (hk : k < c.utf8Size) :
    p.instructionAt? ((String.ofList before).utf8ByteSize + k) = none := by
  have hlong : 0x80 ≤ c.toNat := by
    by_contra hshort
    rw [← String.length_utf8EncodeChar, Utf8.utf8EncodeChar_of_lt (Nat.not_le.mp hshort)] at hwide
    exact absurd hwide (Nat.lt_irrefl 1)
  have hin : k < (utf8EncodeChar c).length := by
    rw [String.length_utf8EncodeChar]
    exact hk
  have hbyte : p.code.toList[(String.ofList before).utf8ByteSize + k]?
      = some (utf8EncodeChar c)[k] := by
    rw [ofText?_eq_ok_iff.mp accepted, Utf8.toUTF8_eq_flatMap, hcut, List.flatMap_append,
      List.flatMap_cons, ← Utf8.length_flatMap, List.getElem?_append_right (Nat.le_add_right _ k),
      Nat.add_sub_cancel_left, List.getElem?_append_left hin, List.getElem?_eq_getElem hin]
  rw [instructionAt?_of_getElem? hbyte]
  exact ofByte?_of_high (Utf8.high_of_mem_utf8EncodeChar hlong (List.getElem_mem hin))

theorem instructionAt?_of_size_le {pos : Nat} (h : p.size ≤ pos) : p.instructionAt? pos = none := by
  rw [instructionAt?, Instruction.at?, Array.getElem?_eq_none h]
  rfl

/-- Every bracket has an entry in the table, and nothing else has. -/
theorem exists_partner?_iff {pos : Nat} : (∃ target, p.table.partner? pos = some target) ↔
    p.instructionAt? pos = some .loopOpen ∨ p.instructionAt? pos = some .loopClose := by
  have hnone := p.pairsOf_table.partner?_eq_none_iff p.balanced pos
  rw [instructionAt?_eq_some_iff, instructionAt?_eq_some_iff, ← Array.getElem?_toList,
    ← Option.isSome_iff_exists, ← Option.ne_none_iff_isSome, ne_eq, hnone]
  tauto

/-- **Decoding sees the symbols of the text.**  Let a text be accepted.

    * The instructions of the program are the characters of the text that are symbols,
      from left to right and once each, every one with the number of bytes in front of
      it.
    * At a position there is an instruction exactly if it is listed there: none at any
      byte of a character that has several, and none from the end of the text on.
    * The jump table has an entry exactly for the positions at which a `[` or a `]` is
      listed. -/
theorem instructions_are_the_symbols {text : String} (accepted : ofText? text = .ok p) :
    (p.instructions = symbolsFrom 0 text.toList ∧
      p.instructions.Pairwise (·.1 < ·.1) ∧
      ∀ pos i, (pos, i) ∈ p.instructions ↔ ∃ before after,
        text.toList = before ++ i.symbol :: after ∧ pos = (String.ofList before).utf8ByteSize) ∧
    (∀ pos i, p.instructionAt? pos = some i ↔ (pos, i) ∈ p.instructions) ∧
    (∀ before c after k, text.toList = before ++ c :: after → 1 < c.utf8Size → k < c.utf8Size →
      p.instructionAt? ((String.ofList before).utf8ByteSize + k) = none) ∧
    (∀ pos, text.utf8ByteSize ≤ pos → p.instructionAt? pos = none) ∧
    ∀ pos, (∃ target, p.table.partner? pos = some target) ↔
      (pos, .loopOpen) ∈ p.instructions ∨ (pos, .loopClose) ∈ p.instructions := by
  refine ⟨⟨instructions_eq accepted, ?_, ?_⟩, fun pos i => mem_instructions_iff.symm, ?_, ?_, ?_⟩
  · rw [instructions_eq accepted]
    exact pairwise_symbolsFrom 0 text.toList
  · intro pos i
    rw [instructions_eq accepted, mem_symbolsFrom_iff]
    simp only [Nat.zero_add]
  · intro before c after k hcut hwide hk
    exact instructionAt?_inside accepted hcut hwide hk
  · intro pos hpos
    refine instructionAt?_of_size_le ?_
    rw [size, ofText?_eq_ok_iff.mp accepted]
    exact hpos
  · intro pos
    rw [mem_instructions_iff, mem_instructions_iff]
    exact exists_partner?_iff

/-- Characters of one to four bytes.  The symbols stand at 2, 3, 7 and 12, and neither
    the second byte of `é` nor the third of `😀` is an instruction. -/
theorem instructions_are_the_symbols_among_wide_characters :
    let p : Program := ⟨#[0xC3, 0xA9, 0x5B, 0x2D, 0xE2, 0x82, 0xAC, 0x5D, 0xF0, 0x9F, 0x98,
      0x80, 0x2E], Table.empty.addPair 2 7, rfl⟩
    ofText? "é[-€]😀." = .ok p ∧
      p.instructions = [(2, .loopOpen), (3, .decrement), (7, .loopClose), (12, .output)] ∧
      p.instructionAt? 1 = none ∧ p.instructionAt? 10 = none ∧ p.instructionAt? 13 = none ∧
      ∃ target, p.table.partner? 7 = some target := by
  intro p
  have accepted : ofText? "é[-€]😀." = .ok p := ofText?_eq_ok_iff.mpr rfl
  obtain ⟨⟨hlist, -, -⟩, -, hinside, hend, htable⟩ := instructions_are_the_symbols accepted
  have hsymbols : p.instructions
      = [(2, .loopOpen), (3, .decrement), (7, .loopClose), (12, .output)] := by
    rw [hlist]
    rfl
  refine ⟨accepted, hsymbols, ?_, ?_, ?_, ?_⟩
  · exact hinside [] 'é' ['[', '-', '€', ']', '😀', '.'] 1 rfl (by decide) (by decide)
  · exact hinside ['é', '[', '-', '€', ']'] '😀' ['.'] 2 rfl (by decide) (by decide)
  · exact hend 13 (by decide)
  · refine (htable 7).mpr (Or.inr ?_)
    rw [hsymbols]
    decide

end Program

end TapeMachine
