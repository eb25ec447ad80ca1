import TapeMachine.Instruction
import TapeMachine.Proofs.Text.LossyDecoding

/-! # Symbols in a text

    The symbols of the instructions are ASCII characters, so each is one byte of
    a text, and no other character has that byte anywhere in it: a text holds a
    symbol exactly if it holds its byte (`mem_toUTF8_iff`). -/

namespace TapeMachine

open String (utf8EncodeChar)

namespace Instruction

/-- The symbol of an instruction is one byte, that of the instruction. -/
theorem utf8EncodeChar_symbol (i : Instruction) : utf8EncodeChar i.symbol = [i.byte] := by
  cases i <;> rfl

/-- The bytes of a text of symbols. -/
theorem toUTF8_ofList_symbol (l : List Instruction) :
    (String.ofList (l.map symbol)).toUTF8.data.toList = l.map byte := by
  rw [Utf8.toUTF8_eq_flatMap, String.toList_ofList, List.flatMap_map]
  simp only [utf8EncodeChar_symbol]
  exact (List.map_eq_flatMap (f := byte)).symm

/-- A text holds a symbol exactly if it holds its byte. -/
theorem mem_toUTF8_iff {i : Instruction} {s : String} :
    i.byte ∈ s.toUTF8.data.toList ↔ i.symbol ∈ s.toList := by
  have hlow : i.byte.toNat < 0x80 := by cases i <;> decide
  rw [Utf8.toUTF8_eq_flatMap, List.mem_flatMap]
  constructor
  · rintro ⟨c, hc, hi⟩
    have hlt : c.toNat < 0x80 := by
      by_contra hge
      exact absurd (Utf8.high_of_mem_utf8EncodeChar (Nat.not_lt.mp hge) hi) (Nat.not_le.mpr hlow)
    rw [Utf8.utf8EncodeChar_of_lt hlt, List.mem_singleton] at hi
    have hcode : c.toNat = i.symbol.toNat := by
      rw [symbol_toNat, hi, UInt8.toNat_ofNat_of_lt' (Nat.lt_trans hlt (by decide))]
    rw [← Char.toNat_inj.mp hcode]
    exact hc
  · intro hi
    refine ⟨i.symbol, hi, ?_⟩
    rw [utf8EncodeChar_symbol]
    exact List.mem_singleton_self _

end Instruction

end TapeMachine
