import Mathlib.Algebra.Ring.Nat
import Mathlib.Data.List.Infix
import TapeMachine.Text.LossyUtf8

/-! # Sequences of UTF-8

    A character takes one to four bytes: a first byte, which tells their number,
    and behind it CONTINUATION bytes, each with six bits of the code point.

    The decoder keeps of a sequence that has begun how many bytes are due, the
    range of the next one and the bits read so far.  What that means is said
    about the characters whose bytes begin so: their code points are those that
    it admits (`Pending.Admits`), no others (`Begun`).  The first byte is checked
    against the table (`Lead.meaning_ofByte`), and every byte that follows either keeps
    this so or is one with which no character goes on
    (`Begun.of_continued`, `Begun.ends_here`). -/

namespace TapeMachine.Utf8

open String (utf8EncodeChar)

/-! ## The bytes of a character -/

/-- A code point that is a character is the code of it. -/
theorem toNat_ofNat {code : Nat} (h : code.isValidChar) : (Char.ofNat code).toNat = code := by
  rw [Char.ofNat, dif_pos h]
  rfl

/-- The last `n` bytes of a sequence, from the lower bits of the code point. -/
def continuation : (n : Nat) → (code : Nat) → List UInt8
  | 0, _ => []
  | n + 1, code => UInt8.ofNat (code / 64 ^ n % 64 + 0x80) :: continuation n code

/-- The number of continuation bytes that a code point takes. -/
def tailLength (code : Nat) : Nat :=
  if code < 0x80 then 0 else if code < 0x800 then 1 else if code < 0x10000 then 2 else 3

/-- What a first byte adds to the bits that it carries, to tell the number of bytes behind it. -/
def marker : (n : Nat) → Nat
  | 0 => 0
  | 1 => 0xC0
  | 2 => 0xE0
  | _ => 0xF0

/-- The first byte of a code point. -/
def leadOf (code : Nat) : Nat := code / 64 ^ tailLength code + marker (tailLength code)

/-- Four lengths, and the code points that take them. -/
theorem tailLength_cases (code : Nat) :
    (tailLength code = 0 ∧ code < 0x80 ∧ leadOf code = code) ∨
    (tailLength code = 1 ∧ 0x80 ≤ code ∧ code < 0x800 ∧ leadOf code = code / 64 + 0xC0) ∨
    (tailLength code = 2 ∧ 0x800 ≤ code ∧ code < 0x10000 ∧ leadOf code = code / 4096 + 0xE0) ∨
    (tailLength code = 3 ∧ 0x10000 ≤ code ∧ leadOf code = code / 262144 + 0xF0) := by
  rw [leadOf, tailLength]
  by_cases h1 : code < 0x80
  · rw [if_pos h1]
    exact Or.inl ⟨rfl, h1, Nat.div_one code⟩
  · rw [if_neg h1]
    by_cases h2 : code < 0x800
    · rw [if_pos h2]
      exact Or.inr (Or.inl ⟨rfl, Nat.not_lt.mp h1, h2, rfl⟩)
    · rw [if_neg h2]
      by_cases h3 : code < 0x10000
      · rw [if_pos h3]
        exact Or.inr (Or.inr (Or.inl ⟨rfl, Nat.not_lt.mp h2, h3, rfl⟩))
      · rw [if_neg h3]
        exact Or.inr (Or.inr (Or.inr ⟨rfl, Nat.not_lt.mp h3, rfl⟩))

theorem leadOf_lt (c : Char) : leadOf c.toNat < 256 := by
  have hvalid : c.toNat < 0xD800 ∨ 0xDFFF < c.toNat ∧ c.toNat < 0x110000 := c.valid
  rcases tailLength_cases c.toNat with ⟨-, h, hl⟩ | ⟨-, -, h, hl⟩ | ⟨-, -, h, hl⟩ | ⟨-, -, hl⟩
  · omega
  · omega
  · omega
  · omega

/-- A first byte and the continuation bytes. -/
theorem utf8EncodeChar_eq (c : Char) : utf8EncodeChar c
    = UInt8.ofNat (leadOf c.toNat) :: continuation (tailLength c.toNat) c.toNat := by
  have hvalid : c.toNat < 0xD800 ∨ 0xDFFF < c.toNat ∧ c.toNat < 0x110000 := c.valid
  rw [utf8EncodeChar]
  simp only [show c.val.toNat = c.toNat from rfl]
  rcases tailLength_cases c.toNat with ⟨hn, h, hl⟩ | ⟨hn, h, h', hl⟩ | ⟨hn, h, h', hl⟩ | ⟨hn, h, hl⟩
  · rw [hn, hl, if_pos (Nat.le_of_lt_succ h)]
    rfl
  · rw [hn, hl, if_neg (by omega), if_pos (Nat.le_of_lt_succ h'),
      show c.toNat / 64 % 32 = c.toNat / 64 by omega]
    simp only [continuation, Nat.pow_zero, Nat.div_one]
  · rw [hn, hl, if_neg (by omega), if_neg (by omega), if_pos (Nat.le_of_lt_succ h'),
      show c.toNat / 4096 % 16 = c.toNat / 4096 by omega]
    simp only [continuation, Nat.pow_zero, Nat.div_one, Nat.pow_one]
  · rw [hn, hl, if_neg (by omega), if_neg (by omega), if_neg (by omega),
      show c.toNat / 262144 % 8 = c.toNat / 262144 by omega]
    simp only [continuation, Nat.pow_zero, Nat.div_one, Nat.pow_one]
    rfl

/-- A code point below 128 is its own byte. -/
theorem utf8EncodeChar_of_lt {c : Char} (h : c.toNat < 0x80) :
    utf8EncodeChar c = [UInt8.ofNat c.toNat] := by
  have hcases := tailLength_cases c.toNat
  have htail : tailLength c.toNat = 0 := by omega
  have hlead : leadOf c.toNat = c.toNat := by omega
  rw [utf8EncodeChar_eq, htail, hlead]
  rfl

/-- An ASCII character is one byte. -/
theorem utf8EncodeChar_ofNat {b : UInt8} (h : b.toNat < 0x80) :
    utf8EncodeChar (Char.ofNat b.toNat) = [b] := by
  have hc : (Char.ofNat b.toNat).toNat = b.toNat := toNat_ofNat (Or.inl (by omega))
  rw [utf8EncodeChar_of_lt (hc.symm ▸ h), hc, UInt8.ofNat_toNat]

/-- A continuation byte is not ASCII. -/
theorem high_of_mem_continuation {n code : Nat} {b : UInt8} (h : b ∈ continuation n code) :
    0x80 ≤ b.toNat := by
  induction n with
  | zero => exact absurd h List.not_mem_nil
  | succ n ih =>
      rcases List.mem_cons.mp h with rfl | h
      · rw [UInt8.toNat_ofNat_of_lt' (by show _ < 256; omega)]
        exact Nat.le_add_left _ _
      · exact ih h

/-- From code point 128 on there is no byte below 128. -/
theorem high_of_mem_utf8EncodeChar {c : Char} {b : UInt8} (hc : 0x80 ≤ c.toNat)
    (h : b ∈ utf8EncodeChar c) : 0x80 ≤ b.toNat := by
  rw [utf8EncodeChar_eq] at h
  rcases List.mem_cons.mp h with rfl | h
  · rw [UInt8.toNat_ofNat_of_lt' (leadOf_lt c)]
    have hcases := tailLength_cases c.toNat
    omega
  · exact high_of_mem_continuation h

theorem utf8EncodeChar_ne_nil (c : Char) : utf8EncodeChar c ≠ [] := by
  rw [utf8EncodeChar_eq]
  exact List.cons_ne_nil _ _

/-- A byte begins a character exactly if it is the first byte of the code point. -/
theorem lead_prefix_iff {c : Char} {b : UInt8} :
    [b] <+: utf8EncodeChar c ↔ leadOf c.toNat = b.toNat := by
  rw [utf8EncodeChar_eq, List.cons_prefix_cons, ← UInt8.toNat_inj,
    UInt8.toNat_ofNat_of_lt' (leadOf_lt c)]
  constructor
  · rintro ⟨h, -⟩
    exact h.symm
  · intro h
    exact ⟨h.symm, List.nil_prefix⟩

/-- No text begins with two characters. -/
theorem char_unique {c c' : Char} {l : List UInt8} (h : utf8EncodeChar c <+: l)
    (h' : utf8EncodeChar c' <+: l) : c = c' := by
  obtain ⟨r, hr⟩ := h
  obtain ⟨r', hr'⟩ := h'
  have hd : ((utf8EncodeChar c).toByteArray ++ r.toByteArray).utf8DecodeChar? 0 = some c :=
    ByteArray.utf8DecodeChar?_utf8EncodeChar_append
  have hd' : ((utf8EncodeChar c').toByteArray ++ r'.toByteArray).utf8DecodeChar? 0 = some c' :=
    ByteArray.utf8DecodeChar?_utf8EncodeChar_append
  rw [← List.toByteArray_append, hr, ← hr', List.toByteArray_append, hd'] at hd
  exact (Option.some.inj hd).symm

/-! ## Sequences that have begun -/

/-- The code point can still be read: its bits begin as those read so far, and the
    byte with its next six bits lies in the range. -/
def Pending.Admits (p : Pending) (code : Nat) : Prop :=
  code / 64 ^ (p.due - 1) / 64 = p.bits ∧
  p.low.toNat ≤ code / 64 ^ (p.due - 1) % 64 + 0x80 ∧
  code / 64 ^ (p.due - 1) % 64 + 0x80 ≤ p.high.toNat

/-- The bytes `seq` begin the characters that `p` admits, and no others; `p.due`
    bytes are left of each of them. -/
structure Begun (p : Pending) (seq : List UInt8) : Prop where
  ne_nil : seq ≠ []
  due_pos : 0 < p.due
  low_ge : 0x80 ≤ p.low.toNat
  low_le_high : p.low.toNat ≤ p.high.toNat
  high_le : p.high.toNat ≤ 0xBF
  encode : ∀ code, p.Admits code →
    ∃ c : Char, c.toNat = code ∧ utf8EncodeChar c = seq ++ continuation p.due code
  admits : ∀ c, seq <+: utf8EncodeChar c → p.Admits c.toNat

namespace Begun

variable {p : Pending} {seq : List UInt8} {b : UInt8} (h : Begun p seq)
include h

/-- A byte in the range is the one with its own lower bits. -/
theorem ofNat_eq (hlow : p.low ≤ b) (hhigh : b ≤ p.high) (n : Nat) :
    UInt8.ofNat ((n * 64 + b.toNat % 64) % 64 + 0x80) = b := by
  have hge := h.low_ge
  have hle := h.high_le
  rw [UInt8.le_iff_toNat_le] at hlow hhigh
  rw [show (n * 64 + b.toNat % 64) % 64 + 0x80 = b.toNat by omega, UInt8.ofNat_toNat]

/-- With a byte in the range, the code points that go on with its bits are admitted. -/
theorem admits_of_next {code : Nat} (hlow : p.low ≤ b) (hhigh : b ≤ p.high)
    (hcode : code / 64 ^ (p.due - 1) = p.bits * 64 + b.toNat % 64) : p.Admits code := by
  have hge := h.low_ge
  have hle := h.high_le
  rw [UInt8.le_iff_toNat_le] at hlow hhigh
  refine ⟨?_, ?_, ?_⟩
  · omega
  · omega
  · omega

/-- The next byte of a character that begins so is in the range, and adds its bits. -/
theorem next_eq {c : Char} (hc : seq ++ [b] <+: utf8EncodeChar c) :
    p.low ≤ b ∧ b ≤ p.high ∧ c.toNat / 64 ^ (p.due - 1) = p.bits * 64 + b.toNat % 64 := by
  have hadmits := h.admits c ((List.prefix_append seq [b]).trans hc)
  obtain ⟨c', hcode, hencode⟩ := h.encode _ hadmits
  obtain rfl := Char.toNat_inj.mp hcode
  obtain ⟨bits_eq, low_le, le_high⟩ := hadmits
  rw [hencode, List.prefix_append_right_inj, ← Nat.sub_add_cancel h.due_pos, continuation] at hc
  obtain ⟨rfl, -⟩ := List.cons_prefix_cons.mp hc
  rw [UInt8.le_iff_toNat_le, UInt8.le_iff_toNat_le,
    UInt8.toNat_ofNat_of_lt' (Nat.lt_of_le_of_lt (Nat.le_trans le_high h.high_le) (by decide))]
  refine ⟨low_le, le_high, ?_⟩
  omega

/-- Beyond a byte outside the range there is no character. -/
theorem ends_here (hb : ¬ (p.low ≤ b ∧ b ≤ p.high)) (c : Char) :
    ¬ seq ++ [b] <+: utf8EncodeChar c := by
  intro hc
  obtain ⟨hlow, hhigh, -⟩ := h.next_eq hc
  exact hb ⟨hlow, hhigh⟩

/-- The last byte completes the character. -/
theorem complete (hdue : p.due ≤ 1) (hlow : p.low ≤ b) (hhigh : b ≤ p.high) :
    utf8EncodeChar (Char.ofNat (p.bits * 64 + b.toNat % 64)) = seq ++ [b] := by
  have hone : p.due = 1 := Nat.le_antisymm hdue h.due_pos
  have hadmits : p.Admits (p.bits * 64 + b.toNat % 64) := by
    refine h.admits_of_next hlow hhigh ?_
    rw [hone]
    exact Nat.div_one _
  obtain ⟨c, hcode, hencode⟩ := h.encode _ hadmits
  rw [← hcode, Char.ofNat_toNat, hencode, hone, continuation, continuation, Nat.pow_zero,
    Nat.div_one, h.ofNat_eq hlow hhigh]

/-- With a byte in the range the sequence goes on, and any continuation byte may follow. -/
theorem of_continued (hdue : ¬ p.due ≤ 1) (hlow : p.low ≤ b) (hhigh : b ≤ p.high) :
    Begun ⟨p.due - 1, 0x80, 0xBF, p.bits * 64 + b.toNat % 64⟩ (seq ++ [b]) := by
  obtain ⟨n, hn⟩ := Nat.exists_eq_add_of_le' (Nat.lt_of_not_le hdue)
  have hn : p.due - 1 = n + 1 := by omega
  have hdiv : ∀ code, code / 64 ^ (n + 1) = code / 64 ^ n / 64 := by
    intro code
    rw [Nat.div_div_eq_div_mul, Nat.pow_succ]
  have hrange : (0x80 : UInt8).toNat ≤ (0xBF : UInt8).toNat := by decide
  rw [hn]
  refine ⟨List.append_ne_nil_of_left_ne_nil h.ne_nil _, Nat.succ_pos n, Nat.le_refl _, hrange,
    Nat.le_refl _, ?_, ?_⟩
  · rintro code ⟨bits_eq, -, -⟩
    have hcode : code / 64 ^ (p.due - 1) = p.bits * 64 + b.toNat % 64 := by
      rw [hn, hdiv]
      exact bits_eq
    obtain ⟨c, hc, hencode⟩ := h.encode code (h.admits_of_next hlow hhigh hcode)
    refine ⟨c, hc, ?_⟩
    rw [hencode, ← Nat.sub_add_cancel h.due_pos, continuation, hcode, h.ofNat_eq hlow hhigh, hn,
      List.append_assoc]
    rfl
  · intro c hc
    obtain ⟨-, -, hcode⟩ := h.next_eq hc
    rw [hn, hdiv] at hcode
    refine ⟨hcode, ?_, ?_⟩
    · exact Nat.le_add_left _ _
    · show c.toNat / 64 ^ n % 64 + 0x80 ≤ 0xBF
      omega

/-- There is a character that begins so, and more of it to come. -/
theorem exists_longer : ∃ c : Char, ∃ rest, utf8EncodeChar c = seq ++ rest ∧ rest ≠ [] := by
  have hpow : 0 < 64 ^ (p.due - 1) := Nat.pow_pos (by decide)
  have hadmits : p.Admits ((p.bits * 64 + p.low.toNat % 64) * 64 ^ (p.due - 1)) :=
    h.admits_of_next (UInt8.le_iff_toNat_le.mpr (Nat.le_refl _))
      (UInt8.le_iff_toNat_le.mpr h.low_le_high) (Nat.mul_div_cancel _ hpow)
  obtain ⟨c, -, hencode⟩ := h.encode _ hadmits
  refine ⟨c, _, hencode, ?_⟩
  rw [← Nat.sub_add_cancel h.due_pos]
  exact List.cons_ne_nil _ _

end Begun

/-! ## First bytes -/

section FirstByte

variable {b : UInt8}

/-- The characters that begin with `b` are those that `p` admits. -/
theorem begun_of_lead {p : Pending} (due_pos : 0 < p.due)
    (range : 0x80 ≤ p.low.toNat ∧ p.low.toNat ≤ p.high.toNat ∧ p.high.toNat ≤ 0xBF)
    (due_eq : ∀ code, leadOf code = b.toNat → tailLength code = p.due)
    (admits_iff : ∀ code, p.Admits code ↔ code.isValidChar ∧ leadOf code = b.toNat) :
    Begun p [b] where
  ne_nil := List.cons_ne_nil _ _
  due_pos := due_pos
  low_ge := range.1
  low_le_high := range.2.1
  high_le := range.2.2
  encode := by
    intro code hcode
    obtain ⟨hvalid, hlead⟩ := (admits_iff code).mp hcode
    have hc : (Char.ofNat code).toNat = code := toNat_ofNat hvalid
    refine ⟨Char.ofNat code, hc, ?_⟩
    rw [utf8EncodeChar_eq, hc, hlead, due_eq code hlead, UInt8.ofNat_toNat]
    rfl
  admits := by
    intro c hc
    exact (admits_iff _).mpr ⟨c.valid, lead_prefix_iff.mp hc⟩

/-- The first byte of two. -/
theorem begun_two (h : 0xC2 ≤ b.toNat) (h' : b.toNat < 0xE0) :
    Begun ⟨1, 0x80, 0xBF, b.toNat % 32⟩ [b] := by
  refine begun_of_lead Nat.one_pos ?_ ?_ ?_
  · show 0x80 ≤ 0x80 ∧ 0x80 ≤ 0xBF ∧ 0xBF ≤ 0xBF
    decide
  · intro code hlead
    have hcases := tailLength_cases code
    show tailLength code = 1
    omega
  · intro code
    have hcases := tailLength_cases code
    show (code / 64 ^ 0 / 64 = b.toNat % 32 ∧ 0x80 ≤ code / 64 ^ 0 % 64 + 0x80 ∧
      code / 64 ^ 0 % 64 + 0x80 ≤ 0xBF) ↔ _
    rw [Nat.isValidChar]
    omega

/-- A bound that holds for one first byte, and another for the others. -/
theorem toNat_bound (special low low' : UInt8) :
    (b.toNat = special.toNat ∧ (if b = special then low else low').toNat = low.toNat) ∨
    (b.toNat ≠ special.toNat ∧ (if b = special then low else low').toNat = low'.toNat) := by
  by_cases hb : b = special
  · rw [if_pos hb, hb]
    exact Or.inl ⟨rfl, rfl⟩
  · rw [if_neg hb]
    exact Or.inr ⟨fun h => hb (UInt8.toNat_inj.mp h), rfl⟩

/-- The first byte of three.  Behind `E0` the smaller code points are left out, which
    take two bytes, and behind `ED` the surrogates. -/
theorem begun_three (h : 0xE0 ≤ b.toNat) (h' : b.toNat < 0xF0) :
    Begun ⟨2, if b = 0xE0 then 0xA0 else 0x80, if b = 0xED then 0x9F else 0xBF,
      b.toNat % 16⟩ [b] := by
  have hlow : (b.toNat = 0xE0 ∧ (if b = 0xE0 then 0xA0 else 0x80 : UInt8).toNat = 0xA0) ∨
      (b.toNat ≠ 0xE0 ∧ (if b = 0xE0 then 0xA0 else 0x80 : UInt8).toNat = 0x80) :=
    toNat_bound 0xE0 0xA0 0x80
  have hhigh : (b.toNat = 0xED ∧ (if b = 0xED then 0x9F else 0xBF : UInt8).toNat = 0x9F) ∨
      (b.toNat ≠ 0xED ∧ (if b = 0xED then 0x9F else 0xBF : UInt8).toNat = 0xBF) :=
    toNat_bound 0xED 0x9F 0xBF
  refine begun_of_lead Nat.two_pos ?_ ?_ ?_
  · dsimp only
    omega
  · intro code hlead
    have hcases := tailLength_cases code
    show tailLength code = 2
    omega
  · intro code
    have hcases := tailLength_cases code
    rw [Pending.Admits, Nat.isValidChar]
    dsimp only [show 2 - 1 = 1 from rfl]
    rw [Nat.pow_one]
    omega

/-- The first byte of four.  Behind `F0` the smaller code points are left out, which
    take three bytes, and behind `F4` those above U+10FFFF. -/
theorem begun_four (h : 0xF0 ≤ b.toNat) (h' : b.toNat < 0xF5) :
    Begun ⟨3, if b = 0xF0 then 0x90 else 0x80, if b = 0xF4 then 0x8F else 0xBF,
      b.toNat % 8⟩ [b] := by
  have hlow : (b.toNat = 0xF0 ∧ (if b = 0xF0 then 0x90 else 0x80 : UInt8).toNat = 0x90) ∨
      (b.toNat ≠ 0xF0 ∧ (if b = 0xF0 then 0x90 else 0x80 : UInt8).toNat = 0x80) :=
    toNat_bound 0xF0 0x90 0x80
  have hhigh : (b.toNat = 0xF4 ∧ (if b = 0xF4 then 0x8F else 0xBF : UInt8).toNat = 0x8F) ∨
      (b.toNat ≠ 0xF4 ∧ (if b = 0xF4 then 0x8F else 0xBF : UInt8).toNat = 0xBF) :=
    toNat_bound 0xF4 0x8F 0xBF
  refine begun_of_lead (Nat.succ_pos 2) ?_ ?_ ?_
  · dsimp only
    omega
  · intro code hlead
    have hcases := tailLength_cases code
    show tailLength code = 3
    omega
  · intro code
    have hcases := tailLength_cases code
    rw [Pending.Admits, Nat.isValidChar]
    dsimp only [show 3 - 1 = 2 from rfl]
    omega

/-- The bytes that begin no character. -/
theorem not_lead (h : (0x80 ≤ b.toNat ∧ b.toNat < 0xC2) ∨ 0xF5 ≤ b.toNat) (c : Char) :
    ¬ [b] <+: utf8EncodeChar c := by
  intro hc
  have hlead := lead_prefix_iff.mp hc
  have hcases := tailLength_cases c.toNat
  have hvalid : c.toNat < 0xD800 ∨ 0xDFFF < c.toNat ∧ c.toNat < 0x110000 := c.valid
  omega

end FirstByte

/-- What a first byte says about the characters that it begins. -/
def Lead.Meaning (b : UInt8) : Lead → Prop
  | .char c => utf8EncodeChar c = [b]
  | .pending p => Begun p [b]
  | .illFormed => ∀ c, ¬ [b] <+: utf8EncodeChar c

/-- The decoder takes a first byte for what it is. -/
theorem Lead.meaning_ofByte (b : UInt8) : (Lead.ofByte b).Meaning b := by
  rw [Lead.ofByte]
  by_cases h1 : b < 0x80
  · rw [if_pos h1]
    exact utf8EncodeChar_ofNat (UInt8.lt_iff_toNat_lt.mp h1)
  · rw [if_neg h1]
    have h1 : 0x80 ≤ b.toNat := UInt8.le_iff_toNat_le.mp (UInt8.not_lt.mp h1)
    by_cases h2 : b < 0xC2
    · rw [if_pos h2]
      exact not_lead (Or.inl ⟨h1, UInt8.lt_iff_toNat_lt.mp h2⟩)
    · rw [if_neg h2]
      have h2 : 0xC2 ≤ b.toNat := UInt8.le_iff_toNat_le.mp (UInt8.not_lt.mp h2)
      by_cases h3 : b < 0xE0
      · rw [if_pos h3]
        exact begun_two h2 (UInt8.lt_iff_toNat_lt.mp h3)
      · rw [if_neg h3]
        have h3 : 0xE0 ≤ b.toNat := UInt8.le_iff_toNat_le.mp (UInt8.not_lt.mp h3)
        by_cases h4 : b < 0xF0
        · rw [if_pos h4]
          exact begun_three h3 (UInt8.lt_iff_toNat_lt.mp h4)
        · rw [if_neg h4]
          have h4 : 0xF0 ≤ b.toNat := UInt8.le_iff_toNat_le.mp (UInt8.not_lt.mp h4)
          by_cases h5 : b < 0xF5
          · rw [if_pos h5]
            exact begun_four h4 (UInt8.lt_iff_toNat_lt.mp h5)
          · rw [if_neg h5]
            exact not_lead (Or.inr (UInt8.le_iff_toNat_le.mp (UInt8.not_lt.mp h5)))

end TapeMachine.Utf8
