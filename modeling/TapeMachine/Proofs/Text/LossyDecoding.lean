import TapeMachine.Proofs.Text.Utf8Sequence

/-! # What lossy decoding reads

    `DecodesTo` says what the text of a byte string is without saying how it is
    found: cut the bytes into characters and ill-formed parts, and read each part
    as one U+FFFD.  A part begins where no character does.  It goes on for as long
    as some character begins so, but has one byte at the least
    (`IllFormedPart`).  There is one way to cut, and the decoder finds it
    (`decodesTo_iff`).

    A part has no byte below 128 (`IllFormedPart.high`), and neither has U+FFFD, so
    decoding keeps the bytes below 128 in their order and adds none
    (`DecodesTo.filter_eq`).  Bytes that are the encoding of a text are read as that
    text (`decodeLossy_utf8`). -/

namespace TapeMachine.Utf8

open String (utf8EncodeChar)

/-! ## The text of a byte string -/

/-- The bytes `part`, with `rest` behind them, are read as one U+FFFD. -/
structure IllFormedPart (part rest : List UInt8) : Prop where
  /-- No character begins here. -/
  no_char : ∀ c, ¬ utf8EncodeChar c <+: part ++ rest
  ne_nil : part ≠ []
  /-- The bytes begin a character, or are one byte. -/
  begins : part.length = 1 ∨ ∃ c, part <+: utf8EncodeChar c
  /-- No more bytes begin a character. -/
  maximal : ∀ l, l <+: part ++ rest → (∃ c, l <+: utf8EncodeChar c) → l.length ≤ part.length

/-- The bytes are read as the text. -/
inductive DecodesTo : List UInt8 → List Char → Prop where
  | nil : DecodesTo [] []
  | char {c : Char} {rest : List UInt8} {text : List Char} (behind : DecodesTo rest text) :
      DecodesTo (utf8EncodeChar c ++ rest) (c :: text)
  | replaced {part rest : List UInt8} {text : List Char} (ill : IllFormedPart part rest)
      (behind : DecodesTo rest text) : DecodesTo (part ++ rest) (replacement :: text)

/-! ## One way to cut -/

/-- Of two ill-formed parts at the same place neither is longer than the other. -/
theorem IllFormedPart.length_le {part rest part' rest' : List UInt8} (h : IllFormedPart part rest)
    (h' : IllFormedPart part' rest') (heq : part ++ rest = part' ++ rest') :
    part'.length ≤ part.length := by
  rcases h'.begins with hone | hchar
  · rw [hone]
    exact List.length_pos_iff.mpr h.ne_nil
  · refine h.maximal part' ?_ hchar
    rw [heq]
    exact List.prefix_append part' rest'

/-- The text of some bytes is empty, begins with a character, or begins with a replacement. -/
theorem decodesTo_cases {bytes : List UInt8} {text : List Char} (h : DecodesTo bytes text) :
    (bytes = [] ∧ text = []) ∨
    (∃ c rest behind, bytes = utf8EncodeChar c ++ rest ∧ text = c :: behind ∧
      DecodesTo rest behind) ∨
    ∃ part rest behind, bytes = part ++ rest ∧ text = replacement :: behind ∧
      IllFormedPart part rest ∧ DecodesTo rest behind := by
  cases h with
  | nil => exact Or.inl ⟨rfl, rfl⟩
  | char behind => exact Or.inr (Or.inl ⟨_, _, _, rfl, rfl, behind⟩)
  | replaced ill behind => exact Or.inr (Or.inr ⟨_, _, _, rfl, rfl, ill, behind⟩)

/-- Bytes are read in one way. -/
theorem DecodesTo.unique {bytes : List UInt8} {text text' : List Char}
    (h : DecodesTo bytes text) (h' : DecodesTo bytes text') : text = text' := by
  induction h generalizing text' with
  | nil =>
      rcases decodesTo_cases h' with ⟨-, rfl⟩ | ⟨c, r, t, hl, -⟩ | ⟨part, r, t, hl, -, ill, -⟩
      · rfl
      · exact absurd (List.append_eq_nil_iff.mp hl.symm).1 (utf8EncodeChar_ne_nil c)
      · exact absurd (List.append_eq_nil_iff.mp hl.symm).1 ill.ne_nil
  | @char c rest text behind ih =>
      rcases decodesTo_cases h' with ⟨hl, -⟩ | ⟨c', r, t, hl, rfl, ht⟩ | ⟨part, r, t, hl, -, ill, -⟩
      · exact absurd (List.append_eq_nil_iff.mp hl).1 (utf8EncodeChar_ne_nil c)
      · obtain rfl : c = c' :=
          char_unique (List.prefix_append _ rest) (hl ▸ List.prefix_append _ r)
        obtain rfl := List.append_cancel_left hl
        rw [ih ht]
      · exact absurd (hl ▸ List.prefix_append _ rest) (ill.no_char c)
  | @replaced part rest text ill behind ih =>
      rcases decodesTo_cases h' with ⟨hl, -⟩ | ⟨c, r, t, hl, -⟩ | ⟨part', r, t, hl, rfl, ill', ht⟩
      · exact absurd (List.append_eq_nil_iff.mp hl).1 ill.ne_nil
      · exact absurd (hl ▸ List.prefix_append _ r) (ill.no_char c)
      · have hlen := Nat.le_antisymm (ill'.length_le ill hl.symm) (ill.length_le ill' hl)
        obtain ⟨rfl, rfl⟩ := List.append_inj hl hlen
        rw [ih ht]

/-! ## What the decoder finds -/

/-- A byte that begins no character is read by itself. -/
theorem illFormedPart_of_lead {b : UInt8} (h : ∀ c, ¬ [b] <+: utf8EncodeChar c)
    (rest : List UInt8) : IllFormedPart [b] rest := by
  have hnil : ∀ l, l <+: b :: rest → (∃ c, l <+: utf8EncodeChar c) → l = [] := by
    rintro l hl ⟨c, hc⟩
    rcases List.prefix_cons_iff.mp hl with rfl | ⟨l', rfl, -⟩
    · rfl
    · exact absurd ((List.cons_prefix_cons.mpr ⟨rfl, List.nil_prefix⟩).trans hc) (h c)
  refine ⟨?_, List.cons_ne_nil _ _, Or.inl rfl, ?_⟩
  · intro c hc
    exact utf8EncodeChar_ne_nil c (hnil _ hc ⟨c, List.prefix_refl _⟩)
  · intro l hl hchar
    rw [hnil l hl hchar]
    exact Nat.zero_le _

/-- A sequence that has begun and does not go on is an ill-formed part. -/
theorem Begun.illFormedPart {p : Pending} {seq rest : List UInt8} (h : Begun p seq)
    (hends : ∀ b, rest.head? = some b → ∀ c, ¬ seq ++ [b] <+: utf8EncodeChar c) :
    IllFormedPart seq rest := by
  obtain ⟨c₀, more, hc₀, hmore⟩ := h.exists_longer
  -- nothing that begins a character goes beyond the sequence
  have hinside : ∀ l, l <+: seq ++ rest → (∃ c, l <+: utf8EncodeChar c) → l <+: seq := by
    rintro l hl ⟨c, hc⟩
    rcases List.prefix_or_prefix_of_prefix hl (List.prefix_append seq rest) with hseq | ⟨t, rfl⟩
    · exact hseq
    · cases t with
      | nil => rw [List.append_nil]
      | cons b t =>
          have hrest := (List.prefix_append_right_inj seq).mp hl
          have hhead : rest.head? = some b := by
            obtain ⟨u, rfl⟩ := hrest
            rfl
          have hnext : seq ++ [b] <+: seq ++ b :: t :=
            (List.prefix_append_right_inj seq).mpr (List.prefix_append [b] t)
          exact absurd (hnext.trans hc) (hends b hhead c)
  refine ⟨?_, h.ne_nil, Or.inr ⟨c₀, hc₀ ▸ List.prefix_append seq more⟩, ?_⟩
  · intro c hc
    obtain ⟨t, ht⟩ := hinside _ hc ⟨c, List.prefix_refl _⟩
    -- then the character is the longer one, which is not so short
    obtain rfl : c = c₀ := by
      refine char_unique ?_ (List.prefix_refl _)
      rw [hc₀, ← ht, List.append_assoc]
      exact List.prefix_append _ _
    rw [← ht, List.append_assoc] at hc₀
    exact hmore (List.append_eq_nil_iff.mp (List.self_eq_append_right.mp hc₀)).2
  · intro l hl hchar
    exact (hinside l hl hchar).length_le

namespace Decoder

/-- From a state with `read` for its text the decoder goes on to add the text of the
    bytes, those of the sequence that has begun included. -/
structure Finds (bytes : List UInt8) : Prop where
  from_start : ∀ read, ∃ text, DecodesTo bytes text ∧
    (bytes.foldl feed ⟨read, none⟩).finish.toList = read.toList ++ text
  from_pending : ∀ read p seq, Begun p seq → ∃ text, DecodesTo (seq ++ bytes) text ∧
    (bytes.foldl feed ⟨read, some p⟩).finish.toList = read.toList ++ text

theorem finds_nil : Finds [] where
  from_start := by
    intro read
    exact ⟨[], .nil, (List.append_nil _).symm⟩
  from_pending := by
    intro read p seq h
    have ill : IllFormedPart seq [] := h.illFormedPart nofun
    exact ⟨[replacement], .replaced ill .nil, String.toList_push _⟩

variable {rest : List UInt8} (h : Finds rest)
include h

/-- A character that is complete. -/
theorem Finds.of_char {seq : List UInt8} {c : Char} (hc : utf8EncodeChar c = seq) (read : String) :
    ∃ text, DecodesTo (seq ++ rest) text ∧
      (rest.foldl feed ⟨read.push c, none⟩).finish.toList = read.toList ++ text := by
  obtain ⟨text, hread, hfinish⟩ := h.from_start (read.push c)
  refine ⟨c :: text, ?_, ?_⟩
  · rw [← hc]
    exact .char hread
  · rw [hfinish, String.toList_push, List.append_assoc]
    rfl

/-- The first byte of a sequence. -/
theorem Finds.of_start (read : String) (b : UInt8) : ∃ text, DecodesTo (b :: rest) text ∧
    (rest.foldl feed (start read b)).finish.toList = read.toList ++ text := by
  have hmeaning := Lead.meaning_ofByte b
  rw [start]
  cases hlead : Lead.ofByte b with
  | char c =>
      rw [hlead] at hmeaning
      exact h.of_char hmeaning read
  | pending p =>
      rw [hlead] at hmeaning
      exact h.from_pending read p [b] hmeaning
  | illFormed =>
      rw [hlead] at hmeaning
      obtain ⟨text, hread, hfinish⟩ := h.from_start (read.push replacement)
      refine ⟨replacement :: text, .replaced (illFormedPart_of_lead hmeaning rest) hread, ?_⟩
      rw [hfinish, String.toList_push, List.append_assoc]
      rfl

/-- One more byte in front: it completes a character, goes on with a sequence, or cuts it short. -/
theorem Finds.cons (b : UInt8) : Finds (b :: rest) where
  from_start := by
    intro read
    exact h.of_start read b
  from_pending := by
    intro read p seq hbegun
    rw [List.foldl_cons, feed]
    dsimp only
    by_cases hb : p.low ≤ b ∧ b ≤ p.high
    · rw [if_pos hb]
      have hcut : seq ++ b :: rest = (seq ++ [b]) ++ rest := by
        rw [List.append_assoc, List.singleton_append]
      rw [hcut]
      by_cases hdue : p.due ≤ 1
      · rw [if_pos hdue]
        exact h.of_char (hbegun.complete hdue hb.1 hb.2) read
      · rw [if_neg hdue]
        exact h.from_pending read _ _ (hbegun.of_continued hdue hb.1 hb.2)
    · -- the sequence is cut short, and the byte begins again
      rw [if_neg hb]
      have ill : IllFormedPart seq (b :: rest) := by
        refine hbegun.illFormedPart ?_
        rintro d hd c
        obtain rfl := Option.some.inj hd
        exact hbegun.ends_here hb c
      obtain ⟨text, hread, hfinish⟩ := h.of_start (read.push replacement) b
      refine ⟨replacement :: text, .replaced ill hread, ?_⟩
      rw [hfinish, String.toList_push, List.append_assoc]
      rfl

omit h in
theorem finds (bytes : List UInt8) : Finds bytes := by
  induction bytes with
  | nil => exact finds_nil
  | cons b rest ih => exact ih.cons b

end Decoder

/-- The decoder finds the text of the bytes. -/
theorem decodesTo_decodeLossy (bytes : List UInt8) :
    DecodesTo bytes (decodeLossy bytes).toList := by
  obtain ⟨text, hread, hfinish⟩ := (Decoder.finds bytes).from_start ""
  rw [decodeLossy, hfinish]
  exact hread

/-- The bytes are read as what the decoder makes of them, and as nothing else. -/
theorem decodesTo_iff {bytes : List UInt8} {text : List Char} :
    DecodesTo bytes text ↔ text = (decodeLossy bytes).toList := by
  constructor
  · intro h
    exact h.unique (decodesTo_decodeLossy bytes)
  · rintro rfl
    exact decodesTo_decodeLossy bytes

/-- A sequence that a byte cuts short is one part; the three bytes of a surrogate are
    three, for no character begins with the first two. -/
example : decodeLossy [0xE2, 0x82, 0x2B, 0xED, 0xA0, 0x80] = "\uFFFD+\uFFFD\uFFFD\uFFFD" := by
  decide +kernel

/-! ## What decoding keeps -/

/-- Bytes that are the encoding of a text are read as that text. -/
theorem decodesTo_flatMap (text : List Char) : DecodesTo (text.flatMap utf8EncodeChar) text := by
  induction text with
  | nil => exact .nil
  | cons c text ih =>
      rw [List.flatMap_cons]
      exact .char ih

/-- The bytes of a text are those of its characters, one behind the other. -/
theorem toUTF8_eq_flatMap (s : String) :
    s.toUTF8.data.toList = s.toList.flatMap utf8EncodeChar := by
  conv => lhs; rw [← String.ofList_toList (s := s)]
  rw [String.toUTF8, String.toByteArray_ofList, List.utf8Encode, List.data_toByteArray]

/-- The bytes of a text are read as the text. -/
theorem decodeLossy_utf8 (s : String) : decodeLossy s.toUTF8.data.toList = s := by
  refine String.toList_inj.mp ?_
  rw [toUTF8_eq_flatMap]
  exact (decodesTo_iff.mp (decodesTo_flatMap s.toList)).symm

/-- An ill-formed part has no byte below 128. -/
theorem IllFormedPart.high {part rest : List UInt8} (h : IllFormedPart part rest) {b : UInt8}
    (hb : b ∈ part) : 0x80 ≤ b.toNat := by
  by_contra hlow
  have hlow : b.toNat < 0x80 := Nat.not_le.mp hlow
  -- a byte below 128 is a character by itself, and would be the whole part
  have hwhole : part ≠ [b] := by
    rintro rfl
    refine h.no_char (Char.ofNat b.toNat) ?_
    rw [utf8EncodeChar_ofNat hlow]
    exact List.prefix_append [b] rest
  rcases h.begins with hone | ⟨c, hc⟩
  · obtain ⟨d, rfl⟩ := List.length_eq_one_iff.mp hone
    exact hwhole (congrArg (fun d => [d]) (List.mem_singleton.mp hb).symm)
  · have hchar : c.toNat < 0x80 := by
      by_contra hc'
      exact absurd hlow (Nat.not_lt.mpr
        (high_of_mem_utf8EncodeChar (Nat.not_lt.mp hc') (hc.subset hb)))
    rw [utf8EncodeChar_of_lt hchar] at hc
    rcases List.prefix_cons_iff.mp hc with rfl | ⟨l, rfl, hl⟩
    · exact absurd hb List.not_mem_nil
    · obtain rfl := List.prefix_nil.mp hl
      exact hwhole (congrArg (fun d => [d]) (List.mem_singleton.mp hb).symm)

/-- Decoding keeps the bytes below 128 in their order, and adds none. -/
theorem DecodesTo.filter_eq {bytes : List UInt8} {text : List Char} (h : DecodesTo bytes text)
    {p : UInt8 → Bool} (hp : ∀ b, p b = true → b.toNat < 0x80) :
    (text.flatMap utf8EncodeChar).filter p = bytes.filter p := by
  have hdrop : ∀ l : List UInt8, (∀ b ∈ l, 0x80 ≤ b.toNat) → l.filter p = [] := by
    intro l hl
    refine List.filter_eq_nil_iff.mpr ?_
    intro b hb hpb
    exact absurd (hp b hpb) (Nat.not_lt.mpr (hl b hb))
  induction h with
  | nil => rfl
  | char behind ih => rw [List.flatMap_cons, List.filter_append, List.filter_append, ih]
  | replaced ill behind ih =>
      have hreplacement : 0x80 ≤ replacement.toNat := by decide
      rw [List.flatMap_cons, List.filter_append, List.filter_append, ih,
        hdrop _ (fun b => high_of_mem_utf8EncodeChar hreplacement),
        hdrop _ (fun b => ill.high)]

/-- Replacing ill-formed parts adds no ASCII byte and takes none away. -/
theorem filter_decodeLossy (bytes : List UInt8) {p : UInt8 → Bool}
    (hp : ∀ b, p b = true → b.toNat < 0x80) :
    (decodeLossy bytes).toUTF8.data.toList.filter p = bytes.filter p := by
  rw [toUTF8_eq_flatMap]
  exact (decodesTo_decodeLossy bytes).filter_eq hp

end TapeMachine.Utf8
