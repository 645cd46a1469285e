import Photesthesis.Text.Reading

/-!
# Writing a value and reading it back

`operator>>` reads back what `operator<<` wrote for every printable value (`Value.printable`): one without a byte in
any blob and without a symbol that is empty or starts with a digit. Read from a fresh stream, the text of a
printable value gives the value and nothing after it is read, and two printable values with the same text are
equal (`readValue_print_fresh`). The proof is one lemma per variant (`readValue_print_string`, ...) and, for lists,
a mutual induction with the list loop (`readValue_print`, `readElems_print`); it reads each token at any position,
after whitespace and before a delimiter.

Outside the printable values the round trip fails: the symbol `1` is written as the integer `1` is and reads back
as it, and a blob of one byte reads back as three bytes (`print_read_mismatch`).
-/

namespace Photesthesis

open IStream

/-! ## Printable values -/

mutual
/-- A value whose text reads back as itself: no blob has a byte, and no symbol is empty or starts with a digit. A
byte is written as the character it is after `0x`, and `operator>>` reads the `0`, the `x` and the character as
three bytes; an empty symbol is written as nothing, and a symbol that starts with a digit reads as an integer. -/
def Value.printable : Value → Bool
  | .pair p => p.printable
  | .sym s => s.text.head?.any fun c => !c.isDigit
  | .blob bytes => bytes.isEmpty
  | .nil | .bool _ | .int64 _ | .string _ => true
  termination_by structural v => v

/-- Every element of the list is printable. -/
def PairValue.printable : PairValue → Bool
  | .last v => v.printable
  | .cons v t => v.printable && t.printable
  termination_by structural p => p
end

mutual
/-- Writing a printable value leaves `std::hex` clear. -/
theorem Value.print_hex : ∀ v : Value, v.printable = true → (v.print false).2 = false
  | .pair p, hv => PairValue.print_hex p hv
  | .blob bytes, hv => by simpa [Value.print, Value.printable] using hv
  | .nil, _ | .sym _, _ | .bool _, _ | .int64 _, _ | .string _, _ => rfl

theorem PairValue.print_hex : ∀ p : PairValue, p.printable = true → (p.print false).2 = false
  | .last v, hv => Value.print_hex v hv
  | .cons v t, hp => by
    simp only [PairValue.printable, Bool.and_eq_true] at hp
    simp only [PairValue.print, Value.print_hex v hp.1]
    exact PairValue.print_hex t hp.2
end

theorem PairValue.print_cons {v : Value} {t : PairValue} (hv : v.printable = true) :
    ((PairValue.cons v t).print false).1 = (v.print false).1 ++ ' ' :: (t.print false).1 := by
  simp [PairValue.print, Value.print_hex v hv]

theorem Symbol.intern_text (s : Symbol) : Symbol.intern s.text = .ok s := by
  simp [Symbol.intern, s.valid]

theorem isDigit_of_digitValue {c : Char} (h : (digitValue false c).isSome = true) : c.isDigit = true := by
  unfold digitValue at h
  split at h
  · assumption
  · simp at h

/-- The text of a printable value starts with a character that is neither whitespace nor `)`. -/
theorem Value.print_head : ∀ v : Value, v.printable = true →
    ∃ c cs, (v.print false).1 = c :: cs ∧ isSpace c = false ∧ c ≠ ')'
  | .sym ⟨c :: cs, hs⟩, _ => by
    have hc : symbolChar c = true := by simp only [List.all_cons, Bool.and_eq_true] at hs; exact hs.1
    exact ⟨c, cs, rfl, (symbolChar_not_special hc).1, (symbolChar_not_special hc).2.2.2.2.2.1⟩
  | .int64 i, _ => by
    obtain ⟨hne, hdig, -⟩ := toDigits_spec false i.val.natAbs
    obtain ⟨d, ds, hds⟩ := List.exists_cons_of_ne_nil hne
    have hd : symbolChar d = true := by
      simp [symbolChar, Char.isAlphanum, isDigit_of_digitValue (hdig d (by simp [hds]))]
    have hds' : Nat.toDigits 10 i.val.natAbs = d :: ds := hds
    simp only [Value.print, showInt64, Bool.false_eq_true, if_false]
    split
    · exact ⟨'-', _, rfl, by decide, by decide⟩
    · exact ⟨d, ds, hds', (symbolChar_not_special hd).1, (symbolChar_not_special hd).2.2.2.2.2.1⟩
  | .nil, _ | .pair _, _ | .bool true, _ | .bool false, _ | .blob _, _ | .string _, _ =>
    ⟨_, _, rfl, by decide, by decide⟩

/-! ## Where reading stops -/

/-- The stream after a token's text: before `rest`, with `std::hex` clear, and good unless the text ran to the end
of the input. -/
def Landed (rest : List Char) (is : IStream) : Prop :=
  is.rest = rest ∧ is.hex = false ∧ (rest ≠ [] → is.eof = false ∧ is.fail = false)

variable {pre rest : List Char} {fuel : Nat} {val : Value}

theorem Landed.mk : Landed rest ⟨rest, false, false, false⟩ := ⟨rfl, rfl, fun _ => ⟨rfl, rfl⟩⟩

theorem Landed.isEmpty {b : Bool} : Landed rest ⟨rest, rest.isEmpty, b && rest.isEmpty, false⟩ :=
  ⟨rfl, rfl, fun h => by simp [List.isEmpty_iff.not.mpr h]⟩

theorem Landed.eq (hl : Landed rest is) (hne : rest ≠ []) : is = ⟨rest, false, false, false⟩ := by
  obtain ⟨hr, hh, hg⟩ := hl
  obtain ⟨he, hf⟩ := hg hne
  cases is
  simp_all

/-- After `#t`, `#f` or `#nil` the `default` branch reads nothing more. -/
theorem readDefault_landed (hd : Delim rest) :
    ∃ is, readDefault val ⟨rest, rest.isEmpty, false, false⟩ = .ok (val, is) ∧ Landed rest is :=
  ⟨_, readDefault_delim hd, by split <;> simp_all [Landed]⟩

/-! ## One lemma per variant -/

/-- The loop of the string case reads an escaped string up to its closing quote. -/
theorem readStringChars_escape {h : Bool} : ∀ (s : List Char) (fuel : Nat) (c : Char) (tmp : List Char),
    (escapeString s).length < fuel →
    readStringChars fuel c tmp ⟨escapeString s ++ '"' :: rest, false, false, h⟩ =
      .ok (tmp ++ s, ⟨'"' :: rest, false, false, h⟩)
  | [], fuel + 1, _, _, _ => by simp [escapeString, readStringChars]
  | x :: s, fuel + 1, c, tmp, hs => by
    have ih := readStringChars_escape (h := h) s fuel x (tmp ++ [x])
    by_cases hx : x = '"' ∨ x = '\\'
    · rcases hx with rfl | rfl <;> simp [escapeString] at hs ⊢ <;> simp [readStringChars, ih (by omega)]
    · have hq : x ≠ '"' := fun e => hx (.inl e)
      have hb : x ≠ '\\' := fun e => hx (.inr e)
      simp [escapeString, hq, hb] at hs ⊢
      simp [readStringChars, hq, hb, ih (by omega)]

theorem readValue_print_string {s : List Char} (hpre : ∀ x ∈ pre, isSpace x = true)
    (hf : ((Value.string s).print false).1.length < fuel) :
    readValue fuel val ⟨pre ++ (((Value.string s).print false).1 ++ rest), false, false, false⟩ =
      .ok (.string s, ⟨rest, false, false, false⟩) := by
  obtain ⟨fuel, rfl⟩ : ∃ f, fuel = f + 1 := ⟨fuel - 1, by omega⟩
  simp only [Value.print, List.length_cons, List.length_append, List.length_singleton] at hf
  simp only [Value.print, List.cons_append, List.append_assoc, List.singleton_append]
  rw [readValue_quote hpre, readStringChars_escape s fuel '"' [] (by omega)]
  simp

theorem readValue_print_blob (hpre : ∀ x ∈ pre, isSpace x = true)
    (hf : ((Value.blob []).print false).1.length < fuel) :
    readValue fuel val ⟨pre ++ (((Value.blob []).print false).1 ++ rest), false, false, false⟩ =
      .ok (.blob [], ⟨rest, false, false, false⟩) := by
  obtain ⟨fuel, rfl⟩ : ∃ f, fuel = f + 2 := ⟨fuel - 2, by simp [Value.print, blobText] at hf; omega⟩
  show readValue (fuel + 2) val ⟨pre ++ '[' :: ']' :: rest, false, false, false⟩ = _
  rw [readValue_bracket hpre]
  rfl

theorem readValue_print_bool {b : Bool} (hpre : ∀ x ∈ pre, isSpace x = true) (hd : Delim rest)
    (hf : ((Value.bool b).print false).1.length < fuel) :
    ∃ is, readValue fuel val ⟨pre ++ (((Value.bool b).print false).1 ++ rest), false, false, false⟩ =
      .ok (.bool b, is) ∧ Landed rest is := by
  obtain ⟨fuel, rfl⟩ : ∃ f, fuel = f + 1 := ⟨fuel - 1, by omega⟩
  have hp : ∀ c ∈ delimiters, c.isAlphanum = false := by decide
  obtain ⟨ht, hdr⟩ := Delim.takeWhile hp hd
  cases b <;>
  · simp only [Value.print, Bool.false_eq_true, if_false, if_true, List.cons_append, List.nil_append]
    rw [readValue_special hpre]
    simp [readSpecial, readRun, ht, hdr]
    exact readDefault_landed hd

theorem readValue_print_nil (hpre : ∀ x ∈ pre, isSpace x = true) (hd : Delim rest)
    (hf : (Value.nil.print false).1.length < fuel) :
    ∃ is, readValue fuel val ⟨pre ++ ((Value.nil.print false).1 ++ rest), false, false, false⟩ =
      .ok (.nil, is) ∧ Landed rest is := by
  obtain ⟨fuel, rfl⟩ : ∃ f, fuel = f + 1 := ⟨fuel - 1, by omega⟩
  have hp : ∀ c ∈ delimiters, c.isAlphanum = false := by decide
  obtain ⟨ht, hdr⟩ := Delim.takeWhile hp hd
  simp only [Value.print, List.cons_append, List.nil_append]
  rw [readValue_special hpre]
  simp [readSpecial, readRun, ht, hdr]
  exact readDefault_landed hd

/-- Digits, with a `-` in front for a negative number, read back as the number they spell. -/
theorem readInt64_digits {ds : List Char} (neg : Bool) (hne : ds ≠ [])
    (hdig : ∀ x ∈ ds, (digitValue false x).isSome = true) (hd : Delim rest) :
    readInt64 ⟨(if neg then '-' :: ds else ds) ++ rest, false, false, false⟩ =
      ((int64OfDigits neg (digitsValue false 0 ds)).1,
        ⟨rest, rest.isEmpty, (int64OfDigits neg (digitsValue false 0 ds)).2, false⟩) := by
  obtain ⟨d, ds, rfl⟩ := List.exists_cons_of_ne_nil hne
  have hdd : d.isDigit = true := isDigit_of_digitValue (hdig d (List.mem_cons_self _ _))
  have hs := symbolChar_not_special (show symbolChar d = true by simp [symbolChar, Char.isAlphanum, hdd])
  have hp : ∀ c ∈ delimiters, (digitValue false c).isSome = false := by decide
  obtain ⟨ht, hdr⟩ := Delim.takeWhile hp hd
  have hds : ∀ x ∈ ds, (digitValue false x).isSome = true := fun x hx => hdig x (List.mem_cons_of_mem _ hx)
  have hsign : takeSign ((if neg then '-' :: d :: ds else d :: ds) ++ rest) = (neg, d :: (ds ++ rest)) := by
    cases neg
    · exact takeSign_digit hdd
    · rfl
  have hsentry : sentry ⟨(if neg then '-' :: d :: ds else d :: ds) ++ rest, false, false, false⟩ =
      ⟨(if neg then '-' :: d :: ds else d :: ds) ++ rest, false, false, false⟩ := by
    cases neg
    · exact sentry_cons hs.1
    · exact sentry_cons (by decide)
  simp [readInt64, hsentry, hsign, hdig d (List.mem_cons_self _ _), List.takeWhile_append_of_pos hds,
    List.dropWhile_append_of_pos hds, ht, hdr]

theorem readValue_print_int64 {i : Int64} (hpre : ∀ x ∈ pre, isSpace x = true) (hd : Delim rest)
    (hf : ((Value.int64 i).print false).1.length < fuel) :
    ∃ is, readValue fuel val ⟨pre ++ (((Value.int64 i).print false).1 ++ rest), false, false, false⟩ =
      .ok (.int64 i, is) ∧ Landed rest is := by
  obtain ⟨fuel, rfl⟩ : ∃ f, fuel = f + 1 := ⟨fuel - 1, by omega⟩
  obtain ⟨hne, hdig, hval⟩ := toDigits_spec false i.val.natAbs
  obtain ⟨d, ds, hds⟩ := List.exists_cons_of_ne_nil hne
  have hdd : d.isDigit = true := isDigit_of_digitValue (hdig d (by simp [hds]))
  have hs := symbolChar_not_special (show symbolChar d = true by simp [symbolChar, Char.isAlphanum, hdd])
  have hds' : Nat.toDigits 10 i.val.natAbs = d :: ds := hds
  refine ⟨_, ?_, Landed.isEmpty (b := false)⟩
  have hr := readInt64_digits (decide (i.val < 0)) hne hdig hd
  rw [hval, int64OfDigits_natAbs, hds] at hr
  by_cases hv : i.val < 0
  · simp only [hv, decide_True, if_true, List.cons_append] at hr
    simp only [Value.print, showInt64, Bool.false_eq_true, if_false, hv, if_true, hds', List.cons_append]
    rw [readValue_default hpre (by decide) (by decide) (by decide) (by decide) (by decide), readDefault_int (.inl rfl),
      hr]
    rfl
  · simp only [hv, decide_False, Bool.false_eq_true, if_false, List.cons_append] at hr
    simp only [Value.print, showInt64, Bool.false_eq_true, if_false, hv, hds', List.cons_append]
    rw [readValue_default hpre hs.1 hs.2.1 hs.2.2.1 hs.2.2.2.1 hs.2.2.2.2.1, readDefault_int (.inr hdd), hr]
    rfl

theorem readValue_print_sym {s : Symbol} (hpre : ∀ x ∈ pre, isSpace x = true) (hd : Delim rest)
    (hv : (Value.sym s).printable = true) (hf : ((Value.sym s).print false).1.length < fuel) :
    ∃ is, readValue fuel val ⟨pre ++ (((Value.sym s).print false).1 ++ rest), false, false, false⟩ =
      .ok (.sym s, is) ∧ Landed rest is := by
  obtain ⟨fuel, rfl⟩ : ∃ f, fuel = f + 1 := ⟨fuel - 1, by omega⟩
  obtain ⟨_ | ⟨c, cs⟩, valid⟩ := s
  · simp [Value.printable] at hv
  have hdig : c.isDigit = false := by simpa [Value.printable] using hv
  simp only [List.all_cons, Bool.and_eq_true] at valid
  have hs := symbolChar_not_special valid.1
  have hp : ∀ c ∈ delimiters, symbolChar c = false :=
    fun c hc => (specials_inert c (mem_specials_of_delimiter hc)).1
  refine ⟨_, ?_, Landed.isEmpty (b := true)⟩
  simp only [Value.print, List.cons_append]
  rw [readValue_default hpre hs.1 hs.2.1 hs.2.2.1 hs.2.2.2.1 hs.2.2.2.2.1, readDefault_sym valid.1 hdig,
    readRun_delim hp hd (List.all_eq_true.mp valid.2)]
  simp [Symbol.intern, valid]

/-! ## Lists -/

theorem PairValue.ofList_toList : ∀ p : PairValue, Value.ofList p.toList = .pair p
  | .last _ => rfl
  | .cons v t => by
    have ih := PairValue.ofList_toList t
    obtain ⟨h, tl, hl⟩ : ∃ h tl, t.toList = h :: tl := by cases t <;> exact ⟨_, _, rfl⟩
    simp only [hl, Value.ofList, Value.pair.injEq] at ih
    simp [PairValue.toList, hl, Value.ofList, PairValue.ofList, ih]

mutual
/-- The text of a printable value, after whitespace and before a delimiter, reads back as the value. -/
theorem readValue_print : ∀ (v : Value) (fuel : Nat) (val : Value) (pre rest : List Char), v.printable = true →
    (∀ x ∈ pre, isSpace x = true) → Delim rest → (v.print false).1.length < fuel →
    ∃ is, readValue fuel val ⟨pre ++ ((v.print false).1 ++ rest), false, false, false⟩ = .ok (v, is) ∧
      Landed rest is
  | .pair p, fuel + 1, val, pre, rest, hv, hpre, _, hf => by
    have hl : (p.print false).1.length + 1 < fuel := by simp [Value.print] at hf; omega
    refine ⟨_, ?_, Landed.mk⟩
    simp only [Value.print, List.cons_append, List.append_assoc, List.singleton_append, List.nil_append]
    have he := readElems_print p fuel [] [] rest hv (by simp) hl
    rw [List.nil_append] at he
    rw [readValue_open hpre, he]
    simp [PairValue.ofList_toList]
  | .pair _, 0, _, _, _, _, _, _, hf => absurd hf (Nat.not_lt_zero _)
  | .nil, _, _, _, _, _, hpre, hd, hf => readValue_print_nil hpre hd hf
  | .sym _, _, _, _, _, hv, hpre, hd, hf => readValue_print_sym hpre hd hv hf
  | .bool _, _, _, _, _, _, hpre, hd, hf => readValue_print_bool hpre hd hf
  | .int64 _, _, _, _, _, _, hpre, hd, hf => readValue_print_int64 hpre hd hf
  | .blob bytes, _, _, _, _, hv, hpre, _, hf => by
    obtain rfl : bytes = [] := List.isEmpty_iff.mp hv
    exact ⟨_, readValue_print_blob hpre hf, Landed.mk⟩
  | .string _, _, _, _, _, _, hpre, _, hf => ⟨_, readValue_print_string hpre hf, Landed.mk⟩

/-- The elements of a printable list, and the `)` after them, are read one by one. -/
theorem readElems_print : ∀ (p : PairValue) (fuel : Nat) (vals : List Value) (pre rest : List Char),
    p.printable = true → (∀ x ∈ pre, isSpace x = true) → (p.print false).1.length + 1 < fuel →
    readElems fuel vals ⟨pre ++ ((p.print false).1 ++ ')' :: rest), false, false, false⟩ =
      .ok (vals ++ p.toList, ⟨')' :: rest, false, false, false⟩)
  | .last v, fuel + 2, vals, pre, rest, hv, hpre, hf => by
    obtain ⟨c, cs, hc, -, hcl⟩ := Value.print_head v hv
    obtain ⟨is, hr, hl⟩ := readValue_print v (fuel + 1) .nil pre (')' :: rest) hv hpre Delim.close
      (by simp [PairValue.print] at hf; omega)
    rw [Landed.eq hl (List.cons_ne_nil _ _), hc, List.cons_append] at hr
    show readElems (fuel + 2) vals ⟨pre ++ ((v.print false).1 ++ ')' :: rest), false, false, false⟩ = _
    rw [hc, List.cons_append, readElems_spaces hpre hcl, hr, ok_bind]
    rfl
  | .cons v t, fuel + 1, vals, pre, rest, hp, hpre, hf => by
    simp only [PairValue.printable, Bool.and_eq_true] at hp
    obtain ⟨c, cs, hc, -, hcl⟩ := Value.print_head v hp.1
    rw [PairValue.print_cons hp.1] at hf ⊢
    simp only [List.length_append, List.length_cons] at hf
    obtain ⟨is, hr, hl⟩ := readValue_print v fuel .nil pre (' ' :: ((t.print false).1 ++ ')' :: rest)) hp.1 hpre
      (Delim.space rfl) (by omega)
    have ht := readElems_print t fuel (vals ++ [v]) [' '] rest hp.2 (by decide) (by omega)
    rw [Landed.eq hl (List.cons_ne_nil _ _), hc, List.cons_append] at hr
    rw [List.singleton_append] at ht
    simp only [List.append_assoc, List.cons_append, hc] at hr ⊢
    rw [readElems_spaces hpre hcl, hr, ok_bind]
    simpa [PairValue.toList] using ht
  | .last _, 0, _, _, _, _, _, hf | .last _, 1, _, _, _, _, _, hf | .cons _ _, 0, _, _, _, _, _, hf => by
    simp [PairValue.print] at hf
end

/-! ## From a fresh stream -/

/-- From a fresh stream, the text of a printable value reads back as the value and the whole text is read; two
printable values with the same text are equal. -/
theorem readValue_print_fresh {v : Value} (hv : v.printable = true) (hf : (v.print false).1.length < fuel) :
    (∃ is, readValue fuel .nil (.ofList (v.print false).1) = .ok (v, is) ∧ is.rest = []) ∧
      ∀ w : Value, w.printable = true → (w.print false).1 = (v.print false).1 → w = v := by
  have key : ∀ w : Value, w.printable = true → (w.print false).1.length < fuel →
      ∃ is, readValue fuel .nil (.ofList (w.print false).1) = .ok (w, is) ∧ is.rest = [] := fun w hw hfw => by
    obtain ⟨is, hr, hl⟩ := readValue_print w fuel .nil [] [] hw (by simp) Delim.nil hfw
    exact ⟨is, by simpa [IStream.ofList] using hr, hl.1⟩
  refine ⟨key v hv hf, fun w hw he => ?_⟩
  obtain ⟨is, hr, -⟩ := key v hv hf
  obtain ⟨is', hr', -⟩ := key w hw (he ▸ hf)
  rw [he, hr] at hr'
  exact (Prod.mk.inj (Except.ok.inj hr')).1.symm

/-- A list of the shape the test's grammar builds, with a string, a boolean, `Nil` and an empty blob in it. -/
def sampleValue : Value :=
  .ofList [.sym ⟨"add".toList, by decide⟩, .int64 ⟨1, by decide, by decide⟩,
    .ofList [.sym ⟨"mul".toList, by decide⟩, .sym ⟨"x".toList, by decide⟩, .int64 ⟨-20, by decide, by decide⟩],
    .string "say \"hi\"".toList, .bool false, .nil, .blob []]

theorem readValue_print_fresh_sample : sampleValue.printable = true ∧ (sampleValue.print false).1.length < 64 ∧
    ((∃ is, readValue 64 .nil (.ofList (sampleValue.print false).1) = .ok (sampleValue, is) ∧ is.rest = []) ∧
      ∀ w : Value, w.printable = true → (w.print false).1 = (sampleValue.print false).1 → w = sampleValue) :=
  ⟨by decide, by decide, readValue_print_fresh (by decide) (by decide)⟩

/-- The symbol `1` is written as the integer `1` is and reads back as it; the blob of the byte `A` is written
`[0xA]`, which reads back as the bytes `0`, `x` and `A` and leaves `std::hex` set. -/
theorem print_read_mismatch :
    (Value.sym ⟨['1'], by decide⟩).print false = (Value.int64 ⟨1, by decide, by decide⟩).print false ∧
      readValue 8 .nil (.ofList ((Value.sym ⟨['1'], by decide⟩).print false).1) =
        .ok (.int64 ⟨1, by decide, by decide⟩, ⟨[], true, false, false⟩) ∧
      readValue 8 .nil (.ofList ((Value.blob [65]).print false).1) =
        .ok (.blob [48, 120, 65], ⟨[], false, false, true⟩) :=
  ⟨rfl, rfl, rfl⟩

end Photesthesis
