import TapeMachine.CommandLine.Arguments

/-! # Options may stand anywhere

    The words of a command line are taken from left to right, and what a word means
    can depend on the words before it: a cluster with an unknown letter is
    positional only while positional words are taken, and no word is an option
    behind a lone `--`.  An option itself does not depend on the others.  It is
    taken in any order with whatever else stands on the command line
    (`IsOption.inAnyOrder_addAll`), so giving it at one place or at another, before
    any `--`, comes to the same as giving it at the end (`addAll_of_gives`). -/

namespace TapeMachine.CommandLine

/-! ## Words that do not stand alone -/

theorem Word.ofLong_ne_separator (name : String) (value : Option String) :
    Word.ofLong name value ≠ .separator := by
  unfold Word.ofLong
  split
  · exact nofun
  · split <;> exact nofun

/-- Only `--max-steps` without a `=` waits for its value in the next word. -/
theorem Word.ofLong_eq_maxSteps_none {name : String} {value : Option String}
    (h : Word.ofLong name value = .maxSteps none) : name = "max-steps" ∧ value = none := by
  unfold Word.ofLong at h
  split at h
  · rename_i hname
    exact ⟨hname, by cases h; rfl⟩
  · split at h <;> cases h

/-- Only `--` is the separator. -/
theorem Word.eq_of_separator {word : String} (h : Word.ofString word = .separator) :
    word = "--" := by
  unfold Word.ofString at h
  split at h
  · rename_i hword
    exact String.toList_inj.mp hword
  · dsimp only at h
    split at h
    · exact absurd h (Word.ofLong_ne_separator _ _)
    · exact absurd h (Word.ofLong_ne_separator _ _)
  · cases h
  · cases h

/-- Only `--max-steps` takes the next word as its value. -/
theorem Word.eq_of_maxSteps_none {word : String} (h : Word.ofString word = .maxSteps none) :
    word = "--max-steps" := by
  unfold Word.ofString at h
  split at h
  · cases h
  · rename_i rest _ hword
    dsimp only at h
    split at h
    · rename_i hdrop
      obtain ⟨hname, -⟩ := Word.ofLong_eq_maxSteps_none h
      -- no `=` is in the word, so all of it is the name
      have htake := List.takeWhile_append_dropWhile (p := (· ≠ '=')) (l := rest)
      rw [hdrop, List.append_nil] at htake
      rw [htake] at hname
      refine String.toList_inj.mp ?_
      rw [hword, ← String.toList_ofList (l := rest), hname]
      rfl
    · obtain ⟨-, hvalue⟩ := Word.ofLong_eq_maxSteps_none h
      cases hvalue
  · cases h
  · cases h

namespace Arguments

/-! ## Word by word -/

/-- A stage is followed by another exactly if it accepts and the other accepts what it leaves. -/
theorem bind_eq_ok_iff {x : Except Stop Arguments} {f : Arguments → Except Stop Arguments}
    {b : Arguments} : x.bind f = .ok b ↔ ∃ a, x = .ok a ∧ f a = .ok b := by
  cases x with
  | error stop => exact ⟨nofun, fun ⟨_, h, _⟩ => nomatch h⟩
  | ok a =>
      constructor
      · intro h
        exact ⟨a, rfl, h⟩
      · rintro ⟨_, ⟨⟩, h⟩
        exact h

theorem bind_assoc (x : Except Stop Arguments) (f g : Arguments → Except Stop Arguments) :
    (x.bind f).bind g = x.bind fun a => (f a).bind g := by
  cases x <;> rfl

/-- Stages that accept the same can stand for each other in front of a third. -/
theorem bind_congr_left {x y : Except Stop Arguments} {f : Arguments → Except Stop Arguments}
    {b : Arguments} (h : ∀ a, x = .ok a ↔ y = .ok a) : x.bind f = .ok b ↔ y.bind f = .ok b := by
  simp only [bind_eq_ok_iff, h]

/-- Stages that give `b` for the same arguments can stand for each other behind a third. -/
theorem bind_congr_right {x : Except Stop Arguments} {f g : Arguments → Except Stop Arguments}
    {b : Arguments} (h : ∀ a, f a = .ok b ↔ g a = .ok b) : x.bind f = .ok b ↔ x.bind g = .ok b := by
  simp only [bind_eq_ok_iff, h]

/-- Takes a word that is an argument by itself. -/
def addWord (a : Arguments) (word : String) : Except Stop Arguments :=
  match Word.ofString word with
  | .separator | .flagWithValue | .maxSteps none => .error .rejected
  | .maxSteps (some value) => a.addMaxSteps value
  | .flag flag => a.addFlag flag
  | .cluster names => a.addCluster word names
  | .plain => a.addPositional word

variable {a b : Arguments} {word value : String} {rest : List String}

/-- Behind a `--` every word is positional. -/
theorem addAll_separator (h : Word.ofString word = .separator) :
    a.addAll (word :: rest) = a.addRest rest := by
  rw [addAll.eq_def]
  dsimp only
  rw [h]

/-- A `--max-steps` without a value is rejected. -/
theorem addAll_maxSteps_nil (h : Word.ofString word = .maxSteps none) :
    a.addAll [word] = .error .rejected := by
  rw [addAll.eq_def]
  dsimp only
  rw [h]

/-- A `--max-steps` takes the next word for its value. -/
theorem addAll_maxSteps_cons (h : Word.ofString word = .maxSteps none) :
    a.addAll (word :: value :: rest) = (a.addMaxSteps value).bind (·.addAll rest) := by
  rw [addAll.eq_def]
  dsimp only
  rw [h]
  dsimp only
  cases a.addMaxSteps value <;> rfl

/-- Every other word is taken by itself, and then the rest of the line. -/
theorem addAll_word (hs : Word.ofString word ≠ .separator)
    (hm : Word.ofString word ≠ .maxSteps none) :
    a.addAll (word :: rest) = (a.addWord word).bind (·.addAll rest) := by
  rw [addAll.eq_def, addWord]
  dsimp only
  cases hword : Word.ofString word with
  | separator => exact absurd hword hs
  | flagWithValue => rfl
  | flag flag =>
      dsimp only
      cases a.addFlag flag <;> rfl
  | maxSteps given =>
      cases given with
      | none => exact absurd hword hm
      | some value =>
          dsimp only
          cases a.addMaxSteps value <;> rfl
  | cluster names =>
      dsimp only
      cases a.addCluster word names <;> rfl
  | plain =>
      dsimp only
      cases a.addPositional word <;> rfl

theorem addRest_cons :
    a.addRest (word :: rest) = (a.addPositional word).bind (·.addRest rest) := by
  rw [addRest]
  cases a.addPositional word <;> rfl

/-! ## In any order -/

/-- Taken in either order, two arguments give the same, if they are accepted. -/
def InAnyOrder (f g : Arguments → Except Stop Arguments) : Prop :=
  ∀ a b, (f a).bind g = .ok b ↔ (g a).bind f = .ok b

namespace InAnyOrder

variable {f g k : Arguments → Except Stop Arguments}

/-- An argument that changes nothing can change places with any other. -/
theorem nothing : InAnyOrder f (fun a => .ok a) := by
  intro a b
  show (f a).bind (fun c => .ok c) = .ok b ↔ f a = .ok b
  cases f a <;> exact Iff.rfl

theorem rejected (stop : Stop) : InAnyOrder f (fun _ => .error stop) := by
  intro a b
  rw [bind_eq_ok_iff, bind_eq_ok_iff]
  constructor
  · rintro ⟨_, _, ⟨⟩⟩
  · rintro ⟨_, ⟨⟩, _⟩

/-- What can change places with each of two arguments can change places with both. -/
theorem bind (hg : InAnyOrder f g) (hk : InAnyOrder f k) :
    InAnyOrder f (fun a => (g a).bind k) := by
  intro a b
  calc (f a).bind (fun c => (g c).bind k) = .ok b
      ↔ ((f a).bind g).bind k = .ok b := by rw [bind_assoc]
    _ ↔ ((g a).bind f).bind k = .ok b := bind_congr_left (hg a)
    _ ↔ (g a).bind (fun c => (f c).bind k) = .ok b := by rw [bind_assoc]
    _ ↔ (g a).bind (fun c => (k c).bind f) = .ok b := bind_congr_right (fun c => hk c b)
    _ ↔ ((g a).bind k).bind f = .ok b := by rw [bind_assoc]

end InAnyOrder

/-- An argument that adds no positional word and can change places with every other. -/
structure IsOption (f : Arguments → Except Stop Arguments) : Prop where
  positional : ∀ {a b}, f a = .ok b → b.positional = a.positional
  with_positional : ∀ word, InAnyOrder f (·.addPositional word)
  with_flag : ∀ flag, InAnyOrder f (·.addFlag flag)
  with_maxSteps : ∀ value, InAnyOrder f (·.addMaxSteps value)

namespace IsOption

variable {f : Arguments → Except Stop Arguments}

/-- An option can change places with the flags of a cluster. -/
theorem inAnyOrder_addFlags (hf : IsOption f) (names : List Char) :
    InAnyOrder f (·.addFlags names) := by
  induction names with
  | nil => exact .nothing
  | cons c names ih =>
      cases hc : Flag.ofShort? c with
      | none =>
          have hstop : (fun a : Arguments => a.addFlags (c :: names))
              = fun _ => .error .rejected := by
            funext a
            rw [addFlags, hc]
          rw [hstop]
          exact .rejected _
      | some flag =>
          have hbind : (fun a : Arguments => a.addFlags (c :: names))
              = fun a => (a.addFlag flag).bind (·.addFlags names) := by
            funext a
            rw [addFlags, hc]
            dsimp only
            cases a.addFlag flag <;> rfl
          rw [hbind]
          exact (hf.with_flag flag).bind ih

/-- Whether a cluster is positional depends on the positional words alone. -/
theorem inAnyOrder_addCluster (hf : IsOption f) (word : String) (names : List Char) :
    InAnyOrder f (·.addCluster word names) := by
  intro a b
  show _ ↔ (a.addCluster word names).bind f = .ok b
  by_cases hword : a.positional.length < maxPositional ∧
      names.any (fun c => (Flag.ofShort? c).isNone)
  · have hhere : a.addCluster word names = a.addPositional word := if_pos hword
    rw [hhere, ← hf.with_positional word a b, bind_eq_ok_iff, bind_eq_ok_iff]
    refine exists_congr fun c => and_congr_right fun hc => ?_
    show c.addCluster word names = .ok b ↔ _
    rw [addCluster, hf.positional hc, if_pos hword]
  · have hhere : a.addCluster word names = a.addFlags names := if_neg hword
    rw [hhere, ← hf.inAnyOrder_addFlags names a b, bind_eq_ok_iff, bind_eq_ok_iff]
    refine exists_congr fun c => and_congr_right fun hc => ?_
    show c.addCluster word names = .ok b ↔ _
    rw [addCluster, hf.positional hc, if_neg hword]

theorem inAnyOrder_addWord (hf : IsOption f) (word : String) :
    InAnyOrder f (·.addWord word) := by
  unfold addWord
  split
  · exact .rejected _
  · exact .rejected _
  · exact .rejected _
  · exact hf.with_maxSteps _
  · exact hf.with_flag _
  · exact hf.inAnyOrder_addCluster _ _
  · exact hf.with_positional _

/-- An option can change places with all that stands behind a `--`. -/
theorem inAnyOrder_addRest (hf : IsOption f) (words : List String) :
    InAnyOrder f (·.addRest words) := by
  induction words with
  | nil => exact .nothing
  | cons word rest ih =>
      simp only [addRest_cons]
      exact (hf.with_positional word).bind ih

/-- An option can change places with all words that follow. -/
theorem inAnyOrder_addAll (hf : IsOption f) :
    ∀ words : List String, InAnyOrder f (·.addAll words)
  | [] => .nothing
  | word :: rest => by
      by_cases hs : Word.ofString word = .separator
      · simp only [addAll_separator hs]
        exact hf.inAnyOrder_addRest rest
      · by_cases hm : Word.ofString word = .maxSteps none
        · cases rest with
          | nil =>
              simp only [addAll_maxSteps_nil hm]
              exact .rejected _
          | cons value rest =>
              simp only [addAll_maxSteps_cons hm]
              exact (hf.with_maxSteps value).bind (hf.inAnyOrder_addAll rest)
        · simp only [addAll_word hs hm]
          exact (hf.inAnyOrder_addWord word).bind (hf.inAnyOrder_addAll rest)

end IsOption

/-! ## The options -/

/-- A flag adds no positional word, and can change places with every other argument. -/
theorem isOption_addFlag (flag : Flag) : IsOption (·.addFlag flag) where
  positional := by
    intro a b h
    cases flag <;> grind [addFlag]
  with_positional := by
    intro word a b
    cases flag <;> grind [addFlag, addPositional, Except.bind]
  with_flag := by
    intro other a b
    cases flag <;> cases other <;> grind [addFlag, Except.bind]
  with_maxSteps := by
    intro value a b
    cases flag <;> grind [addFlag, addMaxSteps, Except.bind]

/-- So can a step limit. -/
theorem isOption_addMaxSteps (value : String) : IsOption (·.addMaxSteps value) where
  positional := by
    intro a b h
    grind [addMaxSteps]
  with_positional := by
    intro word a b
    grind [addMaxSteps, addPositional, Except.bind]
  with_flag := by
    intro flag a b
    exact ((isOption_addFlag flag).with_maxSteps value a b).symm
  with_maxSteps := by
    intro other a b
    grind [addMaxSteps, Except.bind]

/-! ## An option more -/

/-- The second command line is the first with an option given in addition: before
    any `--`, and not as the value of `--max-steps`. -/
inductive Gives (option : List String) : List String → List String → Prop where
  | here (words : List String) : Gives option words (option ++ words)
  | behind {word : String} {words words' : List String} (hs : word ≠ "--")
      (hm : word ≠ "--max-steps") (later : Gives option words words') :
      Gives option (word :: words) (word :: words')
  | behindNumber {value : String} {words words' : List String} (later : Gives option words words') :
      Gives option ("--max-steps" :: value :: words) ("--max-steps" :: value :: words')

/-- An option given anywhere is taken as if it were given at the end. -/
theorem addAll_of_gives {option words words' : List String}
    {f : Arguments → Except Stop Arguments} (hf : IsOption f)
    (hoption : ∀ (a : Arguments) rest, a.addAll (option ++ rest) = (f a).bind (·.addAll rest))
    (h : Gives option words words') (a b : Arguments) :
    a.addAll words' = .ok b ↔ (a.addAll words).bind f = .ok b := by
  induction h generalizing a with
  | here words =>
      rw [hoption]
      exact hf.inAnyOrder_addAll words a b
  | behind hs hm _ ih =>
      have hs' := mt Word.eq_of_separator hs
      have hm' := mt Word.eq_of_maxSteps_none hm
      rw [addAll_word hs' hm', addAll_word hs' hm', bind_assoc]
      exact bind_congr_right ih
  | behindNumber _ ih =>
      have hm' : Word.ofString "--max-steps" = .maxSteps none := by decide
      rw [addAll_maxSteps_cons hm', addAll_maxSteps_cons hm', bind_assoc]
      exact bind_congr_right ih

/-- A command line is accepted if its words are and something comes of them. -/
theorem ofWords?_eq_ok_iff {words : List String} :
    ofWords? words = .ok a ↔ addAll {} words = .ok a ∧ a ≠ {} := by
  rw [ofWords?]
  cases addAll {} words with
  | error stop => exact ⟨nofun, fun h => nomatch h.1⟩
  | ok c =>
      dsimp only
      by_cases hc : c = {}
      · rw [if_pos hc]
        constructor
        · exact nofun
        · rintro ⟨⟨⟩, ha⟩
          exact absurd hc ha
      · rw [if_neg hc]
        constructor
        · rintro ⟨⟩
          exact ⟨rfl, hc⟩
        · exact fun h => h.1

/-- With a positional word, a command line to which an option is given is accepted
    exactly if it is accepted without, and the option after it. -/
theorem ofWords?_of_gives {option words words' : List String}
    {f : Arguments → Except Stop Arguments} (hf : IsOption f)
    (hoption : ∀ (a : Arguments) rest, a.addAll (option ++ rest) = (f a).bind (·.addAll rest))
    (h : Gives option words words') (hb : b.positional ≠ []) :
    ofWords? words' = .ok b ↔ ∃ a, ofWords? words = .ok a ∧ f a = .ok b := by
  have hne : ∀ {c : Arguments}, c.positional ≠ [] → c ≠ {} := by
    rintro c hc rfl
    exact hc rfl
  simp only [ofWords?_eq_ok_iff, addAll_of_gives hf hoption h, bind_eq_ok_iff]
  constructor
  · rintro ⟨⟨a, ha, hfa⟩, -⟩
    have hpositional : a.positional ≠ [] := by
      rw [← hf.positional hfa]
      exact hb
    exact ⟨a, ⟨ha, hne hpositional⟩, hfa⟩
  · rintro ⟨a, ⟨ha, -⟩, hfa⟩
    exact ⟨⟨a, ha, hfa⟩, hne hb⟩

/-- A flag in front of a command line is taken first. -/
theorem addAll_flag {flag : Flag} (h : Word.ofString word = .flag flag) (a : Arguments)
    (rest : List String) : a.addAll ([word] ++ rest) = (a.addFlag flag).bind (·.addAll rest) := by
  rw [List.singleton_append, addAll_word (by rw [h]; exact nofun) (by rw [h]; exact nofun),
    addWord, h]

section Given

variable {words words' : List String}

/-- With `--scan` in addition, a command line gives what it gave before and scanning, and is
    rejected if it had asked for that already. -/
theorem ofWords?_gives_scan (h : Gives ["--scan"] words words') (hb : b.positional ≠ []) :
    ofWords? words' = .ok b ↔
      ∃ a, ofWords? words = .ok a ∧ a.scan = false ∧ b = { a with scan := true } := by
  have hword : Word.ofString "--scan" = .flag .scan := by decide
  rw [ofWords?_of_gives (isOption_addFlag .scan) (addAll_flag hword) h hb]
  refine exists_congr fun a => and_congr_right fun _ => ?_
  cases hscan : a.scan <;> simp [addFlag, hscan, eq_comm]

/-- With `--wide` in addition, it gives what it gave before and wide cells. -/
theorem ofWords?_gives_wide (h : Gives ["--wide"] words words') (hb : b.positional ≠ []) :
    ofWords? words' = .ok b ↔
      ∃ a, ofWords? words = .ok a ∧ a.wide = false ∧ b = { a with wide := true } := by
  have hword : Word.ofString "--wide" = .flag .wide := by decide
  rw [ofWords?_of_gives (isOption_addFlag .wide) (addAll_flag hword) h hb]
  refine exists_congr fun a => and_congr_right fun _ => ?_
  cases hwide : a.wide <;> simp [addFlag, hwide, eq_comm]

/-- With `--max-steps` in addition, it gives what it gave before and the limit. -/
theorem ofWords?_gives_maxSteps {n : Nat} (hn : stepNumber? value = some n)
    (h : Gives ["--max-steps", value] words words') (hb : b.positional ≠ []) :
    ofWords? words' = .ok b ↔
      ∃ a, ofWords? words = .ok a ∧ a.maxSteps = none ∧ b = { a with maxSteps := some n } := by
  have hword : Word.ofString "--max-steps" = .maxSteps none := by decide
  rw [ofWords?_of_gives (isOption_addMaxSteps value) (fun a rest => addAll_maxSteps_cons hword)
    h hb]
  refine exists_congr fun a => and_congr_right fun _ => ?_
  cases hmax : a.maxSteps <;> simp [addMaxSteps, hmax, hn, eq_comm]

end Given

/-! ## Positional words -/

/-- Refuses arguments with more positional words than there are places for. -/
def checkPlaces (a : Arguments) : Except Stop Arguments :=
  if a.positional.length ≤ maxPositional then .ok a else .error .rejected

/-- The check can be made at any time, since no word too many is taken. -/
theorem isOption_checkPlaces : IsOption checkPlaces where
  positional := by
    intro a b h
    grind [checkPlaces]
  with_positional := by
    intro word a b
    grind [checkPlaces, addPositional, Except.bind]
  with_flag := by
    intro flag a b
    cases flag <;> grind [checkPlaces, addFlag, Except.bind]
  with_maxSteps := by
    intro value a b
    grind [checkPlaces, addMaxSteps, Except.bind]

/-- An accepted command line has no more positional words than there are places for. -/
theorem length_positional_le {words : List String} (h : ofWords? words = .ok a) :
    a.positional.length ≤ maxPositional := by
  have hfirst : (checkPlaces {}).bind (·.addAll words) = .ok a := (ofWords?_eq_ok_iff.mp h).1
  have hlast := (isOption_checkPlaces.inAnyOrder_addAll words {} a).mp hfirst
  obtain ⟨c, -, hc⟩ := bind_eq_ok_iff.mp hlast
  grind [checkPlaces]

end Arguments

end TapeMachine.CommandLine
