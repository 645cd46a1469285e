import Photesthesis.Text.Value

/-!
# Reading a value, branch by branch

`readValue` skips whitespace and dispatches on the next character. This module gives one lemma per branch of the
`switch` (`readValue_open`, `readValue_bracket`, `readValue_quote`, `readValue_special`, `readValue_default`), one
per outcome of the list loop (`readElems_close`, `readElems_spaces`), and what the `default` branch does before a
delimiter (`readDefault_delim`), at an integer (`readDefault_int`) and at a symbol (`readDefault_sym`).

The `default` branch reads nothing at a character that starts no token. Inside a list that character is never
consumed: the loop appends a `Nil` and looks at the same character again, whatever the fuel (`readElems_stray`),
so `(!` and `(a ]` never finish (`readValue_stray_in_list`). Blanks alone between parentheses, and `#t`, `#f` or
`#nil` followed by `-` or `_`, are read without error as values they do not denote (`readValue_blank_list`,
`readValue_special_then`).
-/

namespace Photesthesis

namespace IStream

/-! ## Delimiters and special characters -/

/-- The characters that may follow a token in a list: whitespace, and the `)` that closes it. -/
def delimiters : List Char := [' ', '\t', '\n', '\r', Char.ofNat 11, Char.ofNat 12, ')']

/-- The characters the `switch` or its `default` branch treat apart from symbols. -/
def specials : List Char := ['(', '[', '"', '#', '-'] ++ delimiters

/-- What may follow a token: nothing, or a delimiter. -/
def Delim (rest : List Char) : Prop := ∀ c ∈ rest.head?, c ∈ delimiters

variable {c : Char} {r pre rest : List Char} {e f h : Bool} {fuel : Nat} {val : Value}

theorem mem_delimiters_of_isSpace (hc : isSpace c = true) : c ∈ delimiters := by
  simp only [isSpace, Bool.or_eq_true, beq_iff_eq] at hc
  rcases hc with ((((hc | hc) | hc) | hc) | hc) | hc <;> simp [hc, delimiters]

theorem Delim.nil : Delim [] := by simp [Delim]

theorem Delim.close : Delim (')' :: r) := by simp [Delim, delimiters]

theorem Delim.space (hc : isSpace c = true) : Delim (c :: r) := by
  simpa [Delim] using mem_delimiters_of_isSpace hc

/-- No special character starts a symbol, and no delimiter is a digit of either base. -/
theorem specials_inert : ∀ c ∈ specials, symbolChar c = false ∧ (digitValue true c).isSome = false := by decide

theorem not_mem_specials (hc : symbolChar c = true) : c ∉ specials :=
  fun hm => by simp [(specials_inert c hm).1] at hc

theorem mem_specials_of_delimiter (hc : c ∈ delimiters) : c ∈ specials :=
  List.mem_append_right _ hc

/-- A symbol character is neither whitespace nor one of the characters the `switch` dispatches on. -/
theorem symbolChar_not_special (hc : symbolChar c = true) :
    isSpace c = false ∧ c ≠ '(' ∧ c ≠ '[' ∧ c ≠ '"' ∧ c ≠ '#' ∧ c ≠ ')' ∧ c ≠ '-' := by
  have hn := not_mem_specials hc
  refine ⟨Bool.eq_false_iff.mpr fun hs => hn (mem_specials_of_delimiter (mem_delimiters_of_isSpace hs)), ?_⟩
  refine ⟨?_, ?_, ?_, ?_, ?_, ?_⟩ <;> rintro rfl <;> exact hn (by decide)

/-- A run of characters that no delimiter satisfies stops at a delimiter. -/
theorem Delim.takeWhile {p : Char → Bool} (hp : ∀ c ∈ delimiters, p c = false) (hd : Delim rest) :
    rest.takeWhile p = [] ∧ rest.dropWhile p = rest := by
  cases rest with
  | nil => simp
  | cons c r => simp [hp c (hd c rfl)]

/-- A `do`-`while` run over a word and a delimiter after it reads the word. -/
theorem readRun_delim {p : Char → Bool} {twice : Bool} {w : List Char} (hp : ∀ c ∈ delimiters, p c = false)
    (hd : Delim rest) (hw : ∀ x ∈ w, p x = true) :
    readRun p twice ⟨c :: (w ++ rest), e, f, h⟩ = (c :: w, ⟨rest, rest.isEmpty, twice && rest.isEmpty, h⟩) := by
  obtain ⟨h₁, h₂⟩ := Delim.takeWhile hp hd
  simp [readRun, List.takeWhile_append_of_pos hw, List.dropWhile_append_of_pos hw, h₁, h₂]

/-! ## The branches of the switch -/

theorem readValue_open (hpre : ∀ x ∈ pre, isSpace x = true) :
    readValue (fuel + 1) val ⟨pre ++ '(' :: r, false, false, h⟩ = (do
      let (vals, is) ← readElems fuel [] ⟨r, false, false, h⟩
      match is.close ')' with
      | some is => .ok (.ofList vals, is)
      | none => .error (.thrown "incomplete pair-list")) := by
  rw [readValue, scanWhitespace_spaces hpre (show isSpace '(' = false by decide)]; rfl

theorem readValue_bracket (hpre : ∀ x ∈ pre, isSpace x = true) :
    readValue (fuel + 1) val ⟨pre ++ '[' :: r, false, false, h⟩ = (do
      let (bytes, is) ← readBytes fuel [] ⟨r, false, false, h⟩
      match is.close ']' with
      | some is => .ok (.blob bytes, is)
      | none => .error (.thrown "incomplete blob")) := by
  rw [readValue, scanWhitespace_spaces hpre (show isSpace '[' = false by decide)]; rfl

theorem readValue_quote (hpre : ∀ x ∈ pre, isSpace x = true) :
    readValue (fuel + 1) val ⟨pre ++ '"' :: r, false, false, h⟩ = (do
      let (tmp, is) ← readStringChars fuel '"' [] ⟨r, false, false, h⟩
      match is.close '"' with
      | some is => .ok (.string tmp, is)
      | none => .error (.thrown "incomplete string")) := by
  rw [readValue, scanWhitespace_spaces hpre (show isSpace '"' = false by decide)]; rfl

theorem readValue_special (hpre : ∀ x ∈ pre, isSpace x = true) :
    readValue (fuel + 1) val ⟨pre ++ '#' :: r, false, false, h⟩ = readSpecial ⟨'#' :: r, false, false, h⟩ := by
  rw [readValue, scanWhitespace_spaces hpre (show isSpace '#' = false by decide)]; rfl

theorem readValue_default (hpre : ∀ x ∈ pre, isSpace x = true) (hc : isSpace c = false)
    (h₁ : c ≠ '(') (h₂ : c ≠ '[') (h₃ : c ≠ '"') (h₄ : c ≠ '#') :
    readValue (fuel + 1) val ⟨pre ++ c :: r, false, false, h⟩ = readDefault val ⟨c :: r, false, false, h⟩ := by
  rw [readValue, scanWhitespace_spaces hpre hc]
  simp only [good_mk, peek_cons, Bool.not_false, Bool.and_self, Bool.not_true]
  split <;> simp_all

/-! ## The default branch -/

/-- Before a delimiter the `default` branch reads nothing; at the end of the text its peeks set `eofbit` and
`failbit`. -/
theorem readDefault_delim (hd : Delim rest) :
    readDefault val ⟨rest, rest.isEmpty, false, h⟩ =
      .ok (val, if rest = [] then ⟨[], true, true, h⟩ else ⟨rest, false, false, h⟩) := by
  cases rest with
  | nil => rfl
  | cons c r =>
    have hs : c ≠ '-' ∧ c.isDigit = false ∧ c ≠ '_' ∧ c.isAlphanum = false := by
      have : ∀ c ∈ delimiters, c ≠ '-' ∧ c.isDigit = false ∧ c ≠ '_' ∧ c.isAlphanum = false := by decide
      exact this c (hd c rfl)
    simp [readDefault, hs]

/-- At a `-` or a digit the `default` branch reads an `int64_t`. -/
theorem readDefault_int (hc : c = '-' ∨ c.isDigit = true) :
    readDefault val ⟨c :: r, false, false, h⟩ =
      .ok (.int64 (readInt64 ⟨c :: r, false, false, h⟩).1, (readInt64 ⟨c :: r, false, false, h⟩).2) := by
  rcases hc with rfl | hc
  · rfl
  · by_cases hm : c = '-' <;> simp [readDefault, hm, hc]

/-- At a symbol character that is not a digit the `default` branch reads a symbol. -/
theorem readDefault_sym (hc : symbolChar c = true) (hd : c.isDigit = false) :
    readDefault val ⟨c :: r, false, false, h⟩ = (do
      let s ← Symbol.intern (readRun symbolChar true ⟨c :: r, false, false, h⟩).1
      .ok (.sym s, (readRun symbolChar true ⟨c :: r, false, false, h⟩).2)) := by
  have hm : c ≠ '-' := (symbolChar_not_special hc).2.2.2.2.2.2
  by_cases hu : c = '_'
  · subst hu; rfl
  · have ha : c.isAlphanum = true := by simpa [symbolChar, hu] using hc
    simp [readDefault, hm, hd, hu, ha]

/-! ## The list loop -/

theorem readElems_close {vals : List Value} :
    readElems (fuel + 1) vals ⟨')' :: r, false, false, h⟩ = .ok (vals, ⟨')' :: r, false, false, h⟩) := rfl

/-- While the next character after the whitespace is not `)`, the loop reads one more element. -/
theorem readElems_spaces {vals : List Value} (hpre : ∀ x ∈ pre, isSpace x = true) (hc : c ≠ ')') :
    readElems (fuel + 1) vals ⟨pre ++ c :: r, false, false, h⟩ = (do
      let (tmp, is) ← readValue fuel .nil ⟨pre ++ c :: r, false, false, h⟩
      readElems fuel (vals ++ [tmp]) is) := by
  cases pre with
  | nil => simp [readElems, hc]
  | cons x pre =>
    have hx : x ≠ ')' := fun hx => by simp [hx] at hpre; exact absurd (hpre.1) (by decide)
    simp [readElems, hx]

/-! ## A character that starts no token -/

/-- A character that is not whitespace, that the `switch` does not dispatch on, that does not close a list, and
that the `default` branch does not read. -/
def beginsNoToken (c : Char) : Bool := !isSpace c && c ∉ specials && !symbolChar c

/-- At a character that starts no token `operator>>` reads nothing and leaves the value as it was. -/
theorem readValue_stray (hpre : ∀ x ∈ pre, isSpace x = true) (hc : beginsNoToken c = true) :
    readValue (fuel + 1) val ⟨pre ++ c :: r, false, false, h⟩ = .ok (val, ⟨c :: r, false, false, h⟩) := by
  simp only [beginsNoToken, Bool.and_eq_true, Bool.not_eq_true', decide_eq_true_eq] at hc
  obtain ⟨⟨hs, hn⟩, hy⟩ := hc
  have hne : ∀ d ∈ specials, c ≠ d := fun d hd e => hn (e ▸ hd)
  rw [readValue_default hpre hs (hne _ (by decide)) (hne _ (by decide)) (hne _ (by decide)) (hne _ (by decide))]
  have hu : c ≠ '_' := by rintro rfl; exact absurd hy (by decide)
  have ha : c.isAlphanum = false := by simpa [symbolChar, hu] using hy
  have hd : c.isDigit = false := by
    simpa [Char.isAlphanum] using (Bool.or_eq_false_iff.mp ha).2
  simp [readDefault, hne _ (by decide : '-' ∈ specials), hu, ha, hd]

/-- Inside a list, a character that starts no token is never consumed: each round of the loop appends a `Nil`, and
the loop runs out of whatever fuel it is given. -/
theorem readElems_stray (hc : beginsNoToken c = true) :
    ∀ (fuel : Nat) (vals : List Value) (pre : List Char), (∀ x ∈ pre, isSpace x = true) →
      readElems fuel vals ⟨pre ++ c :: r, false, false, h⟩ = .error .outOfFuel
  | 0, _, _, _ => rfl
  | fuel + 1, vals, pre, hpre => by
    have hcl : c ≠ ')' := by rintro rfl; exact absurd hc (by decide)
    rw [readElems_spaces hpre hcl]
    cases fuel with
    | zero => rfl
    | succ fuel =>
      rw [readValue_stray hpre hc]
      exact readElems_stray hc (fuel + 1) _ [] (by simp)

/-- `(!` and `(a ]`: the list loop never gets past the stray character, whatever the fuel. -/
theorem readValue_stray_in_list (fuel : Nat) :
    readValue fuel .nil (.ofList "(!".toList) = .error .outOfFuel ∧
      readValue fuel .nil (.ofList "(a ]".toList) = .error .outOfFuel := by
  have hb : beginsNoToken '!' = true ∧ beginsNoToken ']' = true := by decide
  match fuel with
  | 0 => exact ⟨rfl, rfl⟩
  | 1 => exact ⟨rfl, rfl⟩
  | fuel + 2 =>
    constructor
    · rw [ofList, show "(!".toList = [] ++ '(' :: ([] ++ ['!']) from rfl, readValue_open (by simp),
        readElems_stray hb.1 (fuel + 1) [] [] (by simp)]
      rfl
    · rw [ofList, show "(a ]".toList = [] ++ '(' :: ([] ++ 'a' :: " ]".toList) from rfl, readValue_open (by simp),
        readElems_spaces (by simp) (by decide)]
      cases fuel with
      | zero => rfl
      | succ fuel =>
        have ha : readValue (fuel + 1) .nil ⟨[] ++ 'a' :: " ]".toList, false, false, false⟩ =
            .ok (.sym ⟨['a'], rfl⟩, ⟨[' '] ++ [']'], false, false, false⟩) := by
          rw [readValue_default (by simp) (by decide) (by decide) (by decide) (by decide) (by decide),
            readDefault_sym (by decide) (by decide)]
          rfl
        rw [ha]
        simp only [ok_bind]
        rw [readElems_stray hb.2 (fuel + 1) _ [' '] (by decide)]
        rfl

/-! ## Texts that are not one token

The `switch` reads some texts that are no token of the syntax the printer writes, and returns a value with a good
stream. Blanks alone between parentheses make a list of one `Nil` (`readValue_blank_list`). The `#` case falls
through into the `default` branch, which reads on after `#t`, `#f` or `#nil` when the next character is not
alphanumeric: after `-` it replaces the boolean or `Nil` by an integer, after `_` by a symbol
(`readValue_special_then`). -/

/-- Whitespace alone between parentheses is read as a list of one `Nil`: the loop reads an element at the first
blank, and the `default` branch reads nothing at the `)` after the blanks. -/
theorem readValue_blank_list {sp : List Char} (hpre : ∀ x ∈ pre, isSpace x = true)
    (hsp : ∀ x ∈ sp, isSpace x = true) (hne : sp ≠ []) :
    readValue (fuel + 3) val ⟨pre ++ '(' :: (sp ++ ')' :: r), false, false, h⟩ =
      .ok (.ofList [.nil], ⟨r, false, false, h⟩) := by
  obtain ⟨x, sp, rfl⟩ := List.exists_cons_of_ne_nil hne
  have hx : x ≠ ')' := fun e => absurd (hsp x (List.mem_cons_self _ _)) (by rw [e]; decide)
  rw [readValue_open hpre, show x :: sp ++ ')' :: r = [] ++ x :: (sp ++ ')' :: r) by simp,
    readElems_spaces (by simp) hx, show [] ++ x :: (sp ++ ')' :: r) = (x :: sp) ++ ')' :: r by simp,
    readValue_default hsp (by decide) (by decide) (by decide) (by decide) (by decide)]
  rfl

/-- After `#t`, `#f` or `#nil` and a character that is not alphanumeric the `default` branch runs on the value the
`#` case stored. -/
theorem readValue_special_then (hpre : ∀ x ∈ pre, isSpace x = true)
    (hw : (w, v) ∈ [(['t'], Value.bool true), (['f'], .bool false), (['n', 'i', 'l'], .nil)])
    (hc : c.isAlphanum = false) :
    readValue (fuel + 1) val ⟨pre ++ '#' :: (w ++ c :: r), false, false, h⟩ = readDefault v ⟨c :: r, false, false, h⟩ := by
  rw [readValue_special hpre]
  simp only [List.mem_cons, Prod.mk.injEq, List.mem_singleton, List.not_mem_nil, or_false] at hw
  rcases hw with ⟨rfl, rfl⟩ | ⟨rfl, rfl⟩ | ⟨rfl, rfl⟩ <;> simp [readSpecial, readRun, hc]

/-- `( )` is read as the list of one `Nil`, and `#t-5` as the integer `-5`, each with a good stream. -/
theorem readValue_accepts_nonTokens (fuel : Nat) (val : Value) :
    readValue (fuel + 3) val (.ofList "( )".toList) = .ok (.ofList [.nil], ⟨[], false, false, false⟩) ∧
      readValue (fuel + 1) val (.ofList "#t-5 ".toList) =
        .ok (.int64 ⟨-5, by decide, by decide⟩, ⟨[' '], false, false, false⟩) := by
  constructor
  · rw [ofList, show "( )".toList = [] ++ '(' :: ([' '] ++ ')' :: []) from rfl]
    exact readValue_blank_list (by simp) (by decide) (by simp)
  · rw [ofList, show "#t-5 ".toList = [] ++ '#' :: (['t'] ++ '-' :: ['5', ' ']) from rfl,
      readValue_special_then (v := .bool true) (by simp) (by simp) (by decide), readDefault_int (Or.inl rfl)]
    rfl

end IStream

end Photesthesis
