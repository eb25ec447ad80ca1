/-! # Joining lines

    A program file is read as one line: every `\n` is taken out, together with
    one `\r` directly before it.  Any other `\r` stays. -/

namespace TapeMachine.Text

/-- Joins the lines of `bytes` and adds them to the bytes kept so far. -/
def joinLinesOnto (kept : Array UInt8) : List UInt8 → Array UInt8
  | [] => kept
  | 0x0D :: 0x0A :: rest => joinLinesOnto kept rest
  | b :: rest =>
      if b = 0x0A then joinLinesOnto kept rest
      else joinLinesOnto (kept.push b) rest

/-- The bytes without their line ends. -/
def joinLines (bytes : List UInt8) : List UInt8 :=
  (joinLinesOnto #[] bytes).toList

/-! ## Equations -/

/-- What is kept already stays in front. -/
theorem joinLinesOnto_append (front kept : Array UInt8) (bytes : List UInt8) :
    joinLinesOnto (front ++ kept) bytes = front ++ joinLinesOnto kept bytes := by
  fun_induction joinLinesOnto kept bytes with
  | case1 kept => rfl
  | case2 kept rest ih => exact ih
  | case3 kept rest h ih => rw [joinLinesOnto.eq_3 _ _ _ h, if_pos rfl, ih]
  | case4 kept b rest h hb ih =>
      rw [joinLinesOnto.eq_3 _ _ _ h, if_neg hb, ← ih, Array.push_append]

@[simp] theorem joinLines_nil : joinLines [] = [] := rfl

@[simp] theorem joinLines_lf (rest : List UInt8) :
    joinLines (0x0A :: rest) = joinLines rest := rfl

@[simp] theorem joinLines_crlf (rest : List UInt8) :
    joinLines (0x0D :: 0x0A :: rest) = joinLines rest := rfl

/-- A byte that is no line end, and no `\r` before one, stays. -/
theorem joinLines_cons {b : UInt8} {rest : List UInt8} (hb : b ≠ 0x0A)
    (hcr : b = 0x0D → rest.head? ≠ some 0x0A) :
    joinLines (b :: rest) = b :: joinLines rest := by
  have h : ∀ r, b = 0x0D → rest = 0x0A :: r → False := by
    rintro r rfl rfl
    exact hcr rfl rfl
  have key := joinLinesOnto_append #[b] #[] rest
  rw [joinLines, joinLinesOnto.eq_3 _ _ _ h, if_neg hb, joinLines]
  exact congrArg Array.toList key |>.trans (by simp)

end TapeMachine.Text
