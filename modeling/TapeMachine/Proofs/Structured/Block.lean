import Mathlib.Logic.ExistsUnique
import TapeMachine.Proofs.Bracket.Matched

/-! # The nesting of a text

    A `Block` is a text read as a sequence of comment bytes and loops, each loop
    with a block for its body.  A text has a nesting exactly if its brackets
    match, and then only one (`existsUnique_bytes_iff`).

    `PlacedAt l pos` says that a block stands in the text `l` from position
    `pos` on, in the terms in which a program is carried out: which byte stands
    where, and which brackets are a matched pair. -/

namespace TapeMachine

open TapeMachine.Bracket

/-- A text as a nesting of loops. -/
inductive Block where
  | done
  /-- A byte that is no bracket. -/
  | byte (b : UInt8) (plain : Plain b) (next : Block)
  /-- A body in brackets. -/
  | loop (body next : Block)

namespace Block

/-- The text of a block. -/
def bytes : Block → List UInt8
  | done => []
  | byte b _ next => b :: next.bytes
  | loop body next => openByte :: (body.bytes ++ closeByte :: next.bytes)

/-- The number of bytes of a block. -/
def size (b : Block) : Nat := b.bytes.length

@[simp] theorem size_done : done.size = 0 := rfl

@[simp] theorem size_byte (b : UInt8) (plain : Plain b) (next : Block) :
    (byte b plain next).size = next.size + 1 := rfl

@[simp] theorem size_loop (body next : Block) :
    (loop body next).size = body.size + next.size + 2 := by
  simp only [size, bytes, List.length_cons, List.length_append]
  omega

/-! ## One nesting for each balanced text -/

/-- The text of a block is balanced. -/
theorem balanced_bytes (b : Block) : Balanced b.bytes := by
  induction b with
  | done => exact balanced_nil
  | byte c plain next ih => exact (balanced_plain_cons plain next.bytes).mpr ih
  | loop body next ihb ihn => exact (balanced_loop_append ihb next.bytes).mpr ihn

/-- A text is that of one block only. -/
theorem bytes_injective {a b : Block} (h : a.bytes = b.bytes) : a = b := by
  induction a generalizing b with
  | done =>
      cases b with
      | done => rfl
      | byte d plain next => cases h
      | loop body next => cases h
  | byte c plain next ih =>
      cases b with
      | done => cases h
      | byte d plain' next' =>
          obtain ⟨rfl, hn⟩ := List.cons.inj h
          rw [ih hn]
      | loop body next' => exact absurd (List.cons.inj h).1 plain.1
  | loop body next ihb ihn =>
      cases b with
      | done => cases h
      | byte d plain next' => exact absurd (List.cons.inj h).1.symm plain.1
      | loop body' next' =>
          -- both texts are cut at the one `]` that has a balanced text in front
          have hr := (List.cons.inj h).2
          have hb := split_close_unique body.balanced_bytes body'.balanced_bytes hr
          rw [hb] at hr
          rw [ihb hb, ihn (List.cons.inj (List.append_cancel_left hr)).2]

/-- Every balanced text is that of a block. -/
theorem exists_bytes_eq {l : List UInt8} (h : Balanced l) : ∃ b : Block, b.bytes = l := by
  rcases h.cases with rfl | ⟨b, r, plain, rfl, hr⟩ | ⟨m, r, rfl, hm, hr⟩
  · exact ⟨done, rfl⟩
  · obtain ⟨next, rfl⟩ := exists_bytes_eq hr
    exact ⟨byte b plain next, rfl⟩
  · obtain ⟨body, rfl⟩ := exists_bytes_eq hm
    obtain ⟨next, rfl⟩ := exists_bytes_eq hr
    exact ⟨loop body next, rfl⟩
termination_by l.length
decreasing_by
  all_goals
    subst_vars
    simp only [List.length_cons, List.length_append]
    omega

/-- The texts with a nesting are the balanced ones, and each has one nesting. -/
theorem existsUnique_bytes_iff {l : List UInt8} : (∃! b : Block, b.bytes = l) ↔ Balanced l := by
  constructor
  · rintro ⟨b, rfl, -⟩
    exact b.balanced_bytes
  · intro h
    obtain ⟨b, rfl⟩ := exists_bytes_eq h
    exact ⟨b, rfl, fun b' hb' => bytes_injective hb'⟩

/-! ## A block inside a text -/

/-- The block stands in the text `l` from position `pos` on. -/
def PlacedAt (l : List UInt8) : Nat → Block → Prop
  | _, done => True
  | pos, byte b _ next => l[pos]? = some b ∧ PlacedAt l (pos + 1) next
  | pos, loop body next =>
      Matched l pos (pos + 1 + body.size) ∧ PlacedAt l (pos + 1) body ∧
        PlacedAt l (pos + 1 + body.size + 1) next

/-- A block stands where its text does. -/
theorem placedAt_split (b : Block) (p s : List UInt8) :
    b.PlacedAt (p ++ (b.bytes ++ s)) p.length := by
  induction b generalizing p s with
  | done => trivial
  | byte c plain next ih =>
      refine ⟨by simp [bytes], ?_⟩
      have := ih (p ++ [c]) s
      simpa [bytes] using this
  | loop body next ihb ihn =>
      refine ⟨?_, ?_, ?_⟩
      · exact matched_iff_split.mpr
          ⟨p, body.bytes, next.bytes ++ s, by simp [bytes], rfl, rfl, body.balanced_bytes⟩
      · have := ihb (p ++ [openByte]) (closeByte :: (next.bytes ++ s))
        simpa [bytes] using this
      · have := ihn (p ++ openByte :: (body.bytes ++ [closeByte])) s
        have hlen : (p ++ openByte :: (body.bytes ++ [closeByte])).length
            = p.length + 1 + body.size + 1 := by
          simp only [List.length_append, List.length_cons, List.length_nil, size]
          omega
        rw [hlen] at this
        simpa [bytes] using this

/-- A block stands in its own text. -/
theorem placedAt_bytes (b : Block) : b.PlacedAt b.bytes 0 := by
  have := b.placedAt_split [] []
  simpa using this

end Block

end TapeMachine
