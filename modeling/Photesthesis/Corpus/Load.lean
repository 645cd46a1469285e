import Mathlib.Data.List.DropRight
import Photesthesis.Corpus.Order
import Photesthesis.Corpus.Text
import Photesthesis.Text.RoundTrip

/-!
# Reading the saved corpus back

`Corpus::save` writes the transcripts one after the other (`Corpus.text`), and `Corpus::Corpus(path)` reads them
back and adds each with `addTranscript` (`Corpus.load`). For every corpus that `addTranscript` and
`updateTranscript` reach under a transitive order of plans, reading the text back gives the corpus again, not dirty
(`Corpus.load_saved_text`), when its transcripts are readable (`Transcript.Readable`: names that are words, printable
values, comments that read back, and a hash the reader accepts) and only the last one may have neither parameters
nor variables; such a transcript followed by another loses the other to its comment loop
(`Example.manual_pair_loses_transcript`).

The proof follows the reader. While it reads a saved text its stream is `IStream.before r`: good before the text `r`
still to read, or at the end with `eofbit` set. There is one lemma for each kind of line (a word, a symbol, a line
`kw name = value` in `IStream.binding_print`, a comment) and one for each loop (`readComments_print`,
`readParams_print`, `readVars_print`), each stated for the text of its lines followed by any text `after` that does
not start a line of its kind. Then come a transcript (`readTranscript_print`) and the load loop, which adds the
transcripts in the order the map lists them (`Corpus.loadLoop_print`); added in that order to the empty corpus, they
build its map again (`Corpus.Ordered.replay`).
-/

namespace Photesthesis

/-! ## Numbers -/

/-- A digit is worth less than sixteen in either base. -/
theorem digitValue_lt_sixteen {hex : Bool} {c : Char} {v : Nat} (h : digitValue hex c = some v) : v < 16 := by
  unfold digitValue at h
  split at h
  · next hc =>
    cases h
    have : c.val.toNat ≤ 57 := (Bool.and_eq_true _ _ ▸ hc).2 |> of_decide_eq_true
    show c.val.toNat - 48 < 16
    omega
  split at h
  · next hc =>
    cases h
    have : c.val.toNat ≤ 102 := (Bool.and_eq_true _ _ ▸ hc).2 |> of_decide_eq_true
    show c.val.toNat - 97 + 10 < 16
    omega
  split at h
  · next hc =>
    cases h
    have : c.val.toNat ≤ 70 := (Bool.and_eq_true _ _ ▸ hc).2 |> of_decide_eq_true
    show c.val.toNat - 65 + 10 < 16
    omega
  · cases h

/-- `std::strtoull(s, nullptr, 0)` reads back the base-16 text `0x...` that `std::hex` writes, for every number of
64 bits. -/
theorem strtoull_hex {n : Nat} (hn : n < 18446744073709551616) : strtoull ('0' :: 'x' :: Nat.toDigits 16 n) = n := by
  obtain ⟨hne, hdig, hval⟩ := toDigits_spec true n
  rw [show numBase true = 16 from rfl] at hne hdig hval
  obtain ⟨d, ds, hds⟩ := List.exists_cons_of_ne_nil hne
  have hdig' : ∀ x ∈ Nat.toDigits 16 n, ((digitValue true x).filter (· < 16)).isSome = true := fun x hx => by
    obtain ⟨v, hv⟩ := Option.isSome_iff_exists.mp (hdig x hx)
    simp [hv, Option.filter, digitValue_lt_sixteen hv]
  have hfold : ∀ (acc : Nat) (l : List Char), (∀ x ∈ l, (digitValue true x).isSome = true) →
      l.foldl (fun n c => n * 16 + (((digitValue true c).filter (· < 16)).getD 0)) acc = digitsValue true acc l := by
    intro acc l hl
    induction l generalizing acc with
    | nil => rfl
    | cons x l ih =>
      obtain ⟨v, hv⟩ := Option.isSome_iff_exists.mp (hl x (List.mem_cons_self _ _))
      simp only [List.foldl_cons, hv, Option.filter_some, digitValue_lt_sixteen hv, decide_True, if_true,
        Option.getD_some]
      rw [ih _ fun y hy => hl y (List.mem_cons_of_mem _ hy)]
      simp [digitsValue, numBase, hv]
  have hd : (digitValue true d).isSome = true := hdig d (by simp [hds])
  have hsign : takeSign (List.dropWhile isSpace ('0' :: 'x' :: d :: ds)) = (false, '0' :: 'x' :: d :: ds) := rfl
  unfold strtoull
  rw [hds, hsign]
  simp only [hd, beq_self_eq_true, Bool.true_or, Bool.true_and, ite_true]
  rw [← hds, List.takeWhile_eq_self_iff.mpr hdig', hfold 0 _ hdig, hval]
  rw [if_neg (by omega), if_neg Bool.false_ne_true]

/-! ## Reading what is there -/

namespace IStream

/-- The stream before `rest`: good, or at the end of the text with `eofbit` set. -/
def before (rest : List Char) : IStream := ⟨rest, rest.isEmpty, false, false⟩

@[simp] theorem before_cons {c : Char} {r : List Char} : before (c :: r) = ⟨c :: r, false, false, false⟩ := rfl

theorem scanWhitespace_mk {r : List Char} : (⟨r, false, false, false⟩ : IStream).scanWhitespace = before (r.dropWhile isSpace) := by
  cases h : r.dropWhile isSpace <;> simp [scanWhitespace, h, before]

theorem scanWhitespace_before {r : List Char} : (before r).scanWhitespace = before (r.dropWhile isSpace) := by
  cases r with
  | nil => rfl
  | cons c r => exact scanWhitespace_mk

theorem ws_mk {r : List Char} : (⟨r, false, false, false⟩ : IStream).ws = before (r.dropWhile isSpace) := by
  cases h : r.dropWhile isSpace <;> simp [ws, h, before]

theorem atChar_before {c : Char} {r : List Char} : (before r).atChar c = (r.head? == some c, before r) := by
  cases r <;> rfl

theorem atEither_before {c d : Char} {r : List Char} :
    (before r).atEither c d = (r.head? == some c || r.head? == some d, before r) := by
  cases r with
  | nil => rfl
  | cons x r => by_cases h : x = c <;> simp [atEither, peek, h]

@[simp] theorem orThrow_before {r : List Char} : (before r).orThrow = .ok (before r) := rfl

@[simp] theorem orThrow_mk {r : List Char} {e h : Bool} : (⟨r, e, false, h⟩ : IStream).orThrow = .ok ⟨r, e, false, h⟩ := rfl

variable (pre : List Char) {w rest : List Char} {c : Char}

/-- `is >> s` reads a word of characters that are not whitespace, up to the whitespace after it. -/
theorem word_spaces (hpre : ∀ x ∈ pre, isSpace x = true) (hw : w ≠ []) (hws : ∀ x ∈ w, isSpace x = false)
    (hc : isSpace c = true) :
    IStream.word ⟨pre ++ (w ++ ([c] ++ rest)), false, false, false⟩ = .ok (w, ⟨[c] ++ rest, false, false, false⟩) := by
  obtain ⟨a, w', rfl⟩ := List.exists_cons_of_ne_nil hw
  have ha : isSpace a = false := hws a (List.mem_cons_self _ _)
  have hnot : ∀ x ∈ w', (!isSpace x) = true := fun x hx => by simp [hws x (List.mem_cons_of_mem _ hx)]
  simp [word, readWord, sentry, List.dropWhile_append_of_pos hpre, ha, List.takeWhile_append_of_pos hnot,
    List.dropWhile_append_of_pos hnot, hc]

/-- `is >> sym` reads a symbol's text and interns it. -/
theorem symbol_spaces {s : Symbol} (hpre : ∀ x ∈ pre, isSpace x = true) (hs : s.text ≠ []) (hc : isSpace c = true) :
    IStream.symbol ⟨pre ++ (s.text ++ ([c] ++ rest)), false, false, false⟩ = .ok (s, ⟨[c] ++ rest, false, false, false⟩) := by
  have hws : ∀ x ∈ s.text, isSpace x = false := fun x hx =>
    (symbolChar_not_special (List.all_eq_true.mp s.valid x hx)).1
  rw [symbol, word_spaces pre hpre hs hws hc, ok_bind]
  simp [Symbol.intern_text]

/-- A line `kw name = value`, as `printBinding` writes it, is read by `binding` up to its line break. -/
theorem binding_print {kw kw' : List Char} {name : Symbol} {v : Value} {fuel : Nat} (hkw' : kw' = kw ++ [' '])
    (hkw : kw ≠ []) (hkws : ∀ x ∈ kw, isSpace x = false) (hn : name.text ≠ []) (hv : v.printable = true)
    (hf : (v.print false).1.length < fuel) :
    IStream.binding fuel ⟨(printBinding kw' name v false).1 ++ rest, false, false, false⟩ =
      .ok ((kw, name, ['='], v), ⟨'\n' :: rest, false, false, false⟩) := by
  subst hkw'
  have htext : (printBinding (kw ++ [' ']) name v false).1 ++ rest =
      [] ++ (kw ++ ([' '] ++ (name.text ++ ([' '] ++ (['='] ++ ([' '] ++ ((v.print false).1 ++ '\n' :: rest))))))) := by
    simp [printBinding, show " = ".toList = [' ', '=', ' '] from rfl]
  obtain ⟨is, hr, hl⟩ := readValue_print v fuel .nil [' '] ('\n' :: rest) hv (by decide) (Delim.space rfl) hf
  rw [Landed.eq hl (List.cons_ne_nil _ _)] at hr
  have hsp : isSpace ' ' = true := rfl
  rw [htext, binding, word_spaces [] (by simp) hkw hkws hsp, ok_bind]
  dsimp only
  rw [symbol_spaces [' '] (by decide) hn hsp, ok_bind]
  dsimp only
  rw [word_spaces [' '] (by decide) (by decide) (by decide) hsp, ok_bind]
  dsimp only
  rw [hr, ok_bind]
  rfl

end IStream

/-! ## The lines of a transcript -/


theorem printBinding_hex {kw : List Char} {name : Symbol} {v : Value} (hv : v.printable = true) :
    (printBinding kw name v false).2 = false :=
  Value.print_hex v hv

theorem printBinding_length {kw : List Char} {name : Symbol} {v : Value} :
    (printBinding kw name v false).1.length = kw.length + name.text.length + 3 + (v.print false).1.length + 1 := by
  simp [printBinding, show " = ".toList = [' ', '=', ' '] from rfl]
  omega

/-- A line that `printBinding` writes starts with its keyword's first character. -/
theorem printBinding_cons {k : Char} {kw : List Char} {name : Symbol} {v : Value} {rest : List Char} :
    (printBinding (k :: kw) name v false).1 ++ rest = k :: ((printBinding kw name v false).1 ++ rest) := by
  simp [printBinding]

open IStream

/-! ## One turn of each loop

The equations Lean would generate for the loops unfold their recursion through `Nat.brecOn` and take seconds to
check; these are true by definition. -/

theorem readComments_succ {fuel : Nat} {comments : List (List Char)} {is : IStream} :
    readComments (fuel + 1) comments is =
      (if !(is.atChar '#').1 then .ok (comments, (is.atChar '#').2) else do
      let (str, is) := (is.atChar '#').2.get.2.scanWhitespace.getLine
      let is ← is.orThrow
      readComments fuel (if str.isEmpty then comments else comments ++ [str]) is.scanWhitespace) := rfl

theorem readParams_succ {fuel : Nat} {params : Params} {is : IStream} :
    readParams (fuel + 1) params is =
      (if !(is.atChar 'p').1 then .ok (params, (is.atChar 'p').2) else do
      let ((kw, pname, eq, val), is) ← binding fuel (is.atChar 'p').2
      expectStr "param:".toList kw
      expectStr "=".toList eq
      expectNonemptyStr pname.text
      readParams fuel (params ++ [(pname, val)]) is.scanWhitespace) := rfl

theorem readVars_succ {fuel : Nat} {vars : List Var} {is : IStream} :
    readVars (fuel + 1) vars is = (do
      let is' ← (is.atEither 'c' 't').2.orThrow
      if !(is.atEither 'c' 't').1 then .ok (vars, is') else do
      let ((kw, vname, eq, val), is) ← binding fuel is'
      expectStr "=".toList eq
      expectNonemptyStr vname.text
      if kw != "check:".toList && kw != "track:".toList then
        .error (.thrown ("expecting either 'check:' or 'track:', got '" ++ String.mk kw ++ "'"))
      else readVars fuel (vars ++ [(vname, val, kw == "track:".toList)]) is.scanWhitespace) := rfl

theorem Corpus.loadLoop_succ {planCmp : Comparator Plan} {hash : Plan → UInt64} {fuel : Nat} {c : Corpus}
    {is : IStream} :
    Corpus.loadLoop planCmp hash (fuel + 1) c is = (if !is.good then .ok c else do
      let (t, is) ← readTranscript hash fuel is
      let c ← c.addTranscript planCmp t
      Corpus.loadLoop planCmp hash fuel c is.scanWhitespace) := rfl

/-- The parameter loop reads each `param:` line back, and stops at what follows them. -/
theorem readParams_print : ∀ (ps : Params) (fuel : Nat) (acc : Params) (after : List Char),
    (∀ p ∈ ps, p.1.text ≠ [] ∧ p.2.printable = true) → (after.dropWhile isSpace).head? ≠ some 'p' →
    (printEach (fun (b : Symbol × Value) => printBinding "param: ".toList b.1 b.2) ps false).1.length < fuel →
    readParams fuel acc
        (before (((printEach (fun (b : Symbol × Value) => printBinding "param: ".toList b.1 b.2) ps false).1 ++
          after).dropWhile isSpace)) =
      .ok (acc ++ ps, before (after.dropWhile isSpace))
  | [], fuel + 1, acc, after, _, hafter, _ => by
    rw [printEach, List.nil_append, readParams_succ, atChar_before, if_pos (by simpa using hafter), List.append_nil]
  | (n, v) :: ps, fuel + 1, acc, after, hps, hafter, hf => by
    obtain ⟨hn, hv⟩ : n.text ≠ [] ∧ v.printable = true := hps (n, v) (List.mem_cons_self _ _)
    simp only [printEach, printBinding_hex hv, List.append_assoc] at hf ⊢
    rw [List.length_append, printBinding_length] at hf
    have hline : ∀ r, (printBinding "param: ".toList n v false).1 ++ r =
        'p' :: ((printBinding "aram: ".toList n v false).1 ++ r) := fun r => printBinding_cons
    rw [hline, List.dropWhile_cons, if_neg (by decide), before_cons, readParams_succ]
    simp only [atChar, good_mk, peek_cons, Bool.not_false, Bool.and_self, Bool.not_true, beq_self_eq_true,
      Bool.false_eq_true, if_false, ite_false]
    rw [← hline, binding_print (show "param: ".toList = "param:".toList ++ [' '] from rfl) (by decide) (by decide) hn hv
      (by omega), ok_bind]
    have hps' : ∀ p ∈ ps, p.1.text ≠ [] ∧ p.2.printable = true := fun p hp => hps p (List.mem_cons_of_mem _ hp)
    have ih := readParams_print ps fuel (acc ++ [(n, v)]) after hps' hafter (by omega)
    simpa [expectStr, expectNonemptyStr, hn, List.isEmpty_iff, show "=".toList = ['='] from rfl, scanWhitespace_mk,
      List.dropWhile_cons, show isSpace '\n' = true from rfl] using ih
  | _, 0, _, _, _, _, hf => absurd hf (Nat.not_lt_zero _)

/-- The variable loop reads each `check:` and `track:` line back, and stops at what follows them. -/
theorem readVars_print : ∀ (vs : List Var) (fuel : Nat) (acc : List Var) (after : List Char),
    (∀ x ∈ vs, x.1.text ≠ [] ∧ x.2.1.printable = true) → (after.dropWhile isSpace).head? ≠ some 'c' →
    (after.dropWhile isSpace).head? ≠ some 't' → (printEach printVar vs false).1.length < fuel →
    readVars fuel acc (before (((printEach printVar vs false).1 ++ after).dropWhile isSpace)) =
      .ok (acc ++ vs, before (after.dropWhile isSpace))
  | [], fuel + 1, acc, after, _, hc, ht, _ => by
    rw [printEach, List.nil_append, readVars_succ, atEither_before, orThrow_before, ok_bind, if_pos (by simpa using ⟨hc, ht⟩),
      List.append_nil]
  | (n, v, tr) :: vs, fuel + 1, acc, after, hvs, hc, ht, hf => by
    obtain ⟨hn, hv⟩ : n.text ≠ [] ∧ v.printable = true := hvs _ (List.mem_cons_self _ _)
    simp only [printEach, printVar, printBinding_hex hv, List.append_assoc] at hf ⊢
    rw [List.length_append, printBinding_length] at hf
    -- what the two keywords have in common
    obtain ⟨kw, hkw', hkw, hkws, hcheck, htrack, k, r, he, hk⟩ : ∃ kw,
        (if tr then "track: ".toList else "check: ".toList) = kw ++ [' '] ∧ kw ≠ [] ∧ (∀ x ∈ kw, isSpace x = false) ∧
        (kw != "check:".toList && kw != "track:".toList) = false ∧ (kw == "track:".toList) = tr ∧
        ∃ k r, (printBinding (if tr then "track: ".toList else "check: ".toList) n v false).1 ++
          ((printEach printVar vs false).1 ++ after) = k :: r ∧ (k = 'c' ∨ k = 't') := by
      cases tr
      · exact ⟨"check:".toList, rfl, by decide, by decide, rfl, rfl, _, _, printBinding_cons, .inl rfl⟩
      · exact ⟨"track:".toList, rfl, by decide, by decide, rfl, rfl, _, _, printBinding_cons, .inr rfl⟩
    have hks : isSpace k = false := by rcases hk with rfl | rfl <;> rfl
    have hk' : ((some k == some 'c') || (some k == some 't')) = true := by rcases hk with rfl | rfl <;> rfl
    have ih := readVars_print vs fuel (acc ++ [(n, v, tr)]) after (fun x hx => hvs x (List.mem_cons_of_mem _ hx)) hc ht
      (by omega)
    rw [he, List.dropWhile_cons, if_neg (by simp [hks]), readVars_succ, atEither_before]
    simp only [List.head?_cons, hk', orThrow_before, ok_bind, Bool.not_true, Bool.false_eq_true, if_false]
    rw [before_cons, ← he, binding_print hkw' hkw hkws hn hv (by omega), ok_bind]
    dsimp only
    rw [hcheck, htrack]
    simpa [expectStr, expectNonemptyStr, hn, List.isEmpty_iff, show "=".toList = ['='] from rfl, scanWhitespace_mk,
      List.dropWhile_cons, show isSpace '\n' = true from rfl] using ih
  | _, 0, _, _, _, _, _, hf => absurd hf (Nat.not_lt_zero _)

/-- `std::getline` reads a line up to its line break, which it drops. -/
theorem getLine_line {line rest : List Char} (hne : line ≠ []) (hl : '\n' ∉ line) :
    (⟨line ++ '\n' :: rest, false, false, false⟩ : IStream).getLine = (line, ⟨rest, false, false, false⟩) := by
  have hp : ∀ y ∈ line, (y != '\n') = true := fun y hy => bne_iff_ne.mpr fun h => hl (h ▸ hy)
  have hd : (line ++ '\n' :: rest).dropWhile (· != '\n') = '\n' :: rest := by
    rw [List.dropWhile_append_of_pos hp]
    rfl
  have ht : (line ++ '\n' :: rest).takeWhile (· != '\n') = line := by
    rw [List.takeWhile_append_of_pos hp]
    simp
  obtain ⟨x, r, rfl⟩ := List.exists_cons_of_ne_nil hne
  simp only [List.cons_append] at hd ht
  simp [getLine, hd, ht]

/-- A comment that reads back as itself: not empty, not starting with whitespace, and without a line break. -/
def CommentReads (c : List Char) : Prop := (c.head?.any fun x => !isSpace x) = true ∧ '\n' ∉ c

/-- The comment loop reads each `#` line back, and stops at what follows them. -/
theorem readComments_print : ∀ (cs : List (List Char)) (fuel : Nat) (acc : List (List Char)) (after : List Char),
    (∀ c ∈ cs, CommentReads c) → (after.dropWhile isSpace).head? ≠ some '#' →
    ((cs.map fun c => "# ".toList ++ c ++ ['\n']).flatten).length < fuel →
    readComments fuel acc (before (((cs.map fun c => "# ".toList ++ c ++ ['\n']).flatten ++ after).dropWhile isSpace)) =
      .ok (acc ++ cs, before (after.dropWhile isSpace))
  | [], fuel + 1, acc, after, _, hafter, _ => by
    rw [List.map_nil, List.flatten_nil, List.nil_append, readComments_succ, atChar_before, if_pos (by simpa using hafter),
      List.append_nil]
  | c :: cs, fuel + 1, acc, after, hcs, hafter, hf => by
    obtain ⟨hhead, hnl⟩ := hcs c (List.mem_cons_self _ _)
    obtain ⟨x, r, rfl⟩ : ∃ x r, c = x :: r := List.exists_cons_of_ne_nil (by rintro rfl; simp at hhead)
    have hx : isSpace x = false := by simpa using hhead
    have ih := readComments_print cs fuel (acc ++ [x :: r]) after (fun c hc => hcs c (List.mem_cons_of_mem _ hc))
      hafter (by simp [show "# ".toList = ['#', ' '] from rfl] at hf ⊢; omega)
    have hline : ("# ".toList ++ x :: r ++ ['\n']) ++ ((cs.map fun c => "# ".toList ++ c ++ ['\n']).flatten ++ after) =
        '#' :: ' ' :: ((x :: r) ++ '\n' :: ((cs.map fun c => "# ".toList ++ c ++ ['\n']).flatten ++ after)) := by
      simp [show "# ".toList = ['#', ' '] from rfl]
    rw [List.map_cons, List.flatten_cons, List.append_assoc, hline, List.dropWhile_cons, if_neg (by decide),
      readComments_succ, atChar_before, List.head?_cons, if_neg (by simp), before_cons, get_cons]
    dsimp only
    rw [scanWhitespace_mk, List.dropWhile_cons, if_pos (show isSpace ' ' = true from rfl), List.cons_append,
      List.dropWhile_cons, if_neg (by simp [hx]), before_cons, ← List.cons_append, getLine_line (List.cons_ne_nil _ _) hnl]
    dsimp only
    rw [orThrow_mk, ok_bind, List.isEmpty_cons, if_neg Bool.false_ne_true, scanWhitespace_mk, ih]
    simp
  | _, 0, _, _, _, _, hf => absurd hf (Nat.not_lt_zero _)

/-- `operator>>(std::istream&, Plan&)` reads the comments and parameters back, after the line break that ends the
header, and stops at what follows them. -/
theorem readPlan_print {p : Plan} {fuel : Nat} {after : List Char} (hcs : ∀ c ∈ p.comments, CommentReads c)
    (hps : ∀ b ∈ p.params, b.1.text ≠ [] ∧ b.2.printable = true)
    (hp : (after.dropWhile isSpace).head? ≠ some 'p')
    (hh : (((printEach (fun (b : Symbol × Value) => printBinding "param: ".toList b.1 b.2) p.params false).1 ++
      after).dropWhile isSpace).head? ≠ some '#')
    (hf : (p.print false).1.length < fuel) :
    readPlan fuel ⟨p.testName, p.isManual, [], []⟩ ⟨'\n' :: ((p.print false).1 ++ after), false, false, false⟩ =
      .ok (p, before (after.dropWhile isSpace)) := by
  simp only [Plan.print, List.length_append] at hf ⊢
  rw [readPlan, ws_mk, List.dropWhile_cons, if_pos (show isSpace '\n' = true from rfl), orThrow_before, ok_bind,
    List.append_assoc, readComments_print _ _ _ _ hcs hh (by omega), ok_bind]
  dsimp only
  rw [readParams_print _ _ _ _ hps hp (by omega)]
  simp

/-! ## A transcript -/

instance : DecidablePred CommentReads := fun _ => inferInstanceAs (Decidable (_ ∧ _))

/-- The conditions under which a transcript's text reads back as the transcript: a test name and variable and
parameter names that are words, a hash the reader accepts (`0` and `ULLONG_MAX` are refused), comments that read
back, and printable values. -/
structure Transcript.Readable (hash : Plan → UInt64) (t : Transcript) : Prop where
  name : t.testName.text ≠ []
  planHash : t.plan.isManual = false → (hash t.plan).toNat ≠ 0 ∧ (hash t.plan).toNat ≠ 18446744073709551615
  comments : ∀ c ∈ t.plan.comments, CommentReads c
  params : ∀ b ∈ t.plan.params, b.1.text ≠ [] ∧ b.2.printable = true
  vars : ∀ x ∈ t.vars, x.1.text ≠ [] ∧ x.2.1.printable = true

instance (hash : Plan → UInt64) (t : Transcript) : Decidable (t.Readable hash) :=
  decidable_of_iff (t.testName.text ≠ [] ∧
      (t.plan.isManual = false → (hash t.plan).toNat ≠ 0 ∧ (hash t.plan).toNat ≠ 18446744073709551615) ∧
      (∀ c ∈ t.plan.comments, CommentReads c) ∧ (∀ b ∈ t.plan.params, b.1.text ≠ [] ∧ b.2.printable = true) ∧
      ∀ x ∈ t.vars, x.1.text ≠ [] ∧ x.2.1.printable = true)
    ⟨fun ⟨h₁, h₂, h₃, h₄, h₅⟩ => ⟨h₁, h₂, h₃, h₄, h₅⟩, fun ⟨h₁, h₂, h₃, h₄, h₅⟩ => ⟨h₁, h₂, h₃, h₄, h₅⟩⟩

/-- The word after the test's name in the header: `(manual)`, or the plan's hash in base 16 after `0x`. -/
def Transcript.hashWord (hash : Plan → UInt64) (t : Transcript) : List Char :=
  if t.plan.isManual then "(manual)".toList else '0' :: 'x' :: Nat.toDigits 16 (hash t.plan).toNat

theorem isSpace_of_digitValue {hex : Bool} {c : Char} (h : (digitValue hex c).isSome = true) : isSpace c = false := by
  have hsp : ∀ hex, ∀ d ∈ [' ', '\t', '\n', '\r', Char.ofNat 11, Char.ofNat 12], digitValue hex d = none := by decide
  cases hs : isSpace c
  · rfl
  · have hc : c ∈ [' ', '\t', '\n', '\r', Char.ofNat 11, Char.ofNat 12] := by
      simpa [isSpace, or_assoc] using hs
    simp [hsp hex c hc] at h

theorem hashWord_word (hash : Plan → UInt64) (t : Transcript) :
    t.hashWord hash ≠ [] ∧ ∀ x ∈ t.hashWord hash, isSpace x = false := by
  unfold Transcript.hashWord
  split
  · decide
  · obtain ⟨-, hdig, -⟩ := toDigits_spec true (hash t.plan).toNat
    refine ⟨List.cons_ne_nil _ _, fun x hx => ?_⟩
    rcases List.mem_cons.mp hx with rfl | hx
    · rfl
    rcases List.mem_cons.mp hx with rfl | hx
    · rfl
    exact isSpace_of_digitValue (hdig x hx)

theorem printEach_false {α : Type} {line : α → Bool → List Char × Bool} :
    ∀ {xs : List α}, (∀ x ∈ xs, (line x false).2 = false) → (printEach line xs false).2 = false
  | [], _ => rfl
  | x :: xs, h => by
    simp only [printEach, h x (List.mem_cons_self _ _)]
    exact printEach_false fun y hy => h y (List.mem_cons_of_mem _ hy)

/-- The text of a readable transcript, written on a stream in base 10, which it leaves in base 10. -/
theorem Transcript.print_readable {hash : Plan → UInt64} {t : Transcript} (hr : t.Readable hash) :
    t.print hash false = ("#### transcript: ".toList ++ t.testName.text ++ ' ' :: (t.hashWord hash ++
      '\n' :: ((t.plan.print false).1 ++ ((printEach printVar t.vars false).1 ++ ['\n']))), false) := by
  have hp : (t.plan.print false).2 = false :=
    printEach_false fun b hb => printBinding_hex (hr.params b hb).2
  have hv : (printEach printVar t.vars false).2 = false :=
    printEach_false fun x hx => printBinding_hex (hr.vars x hx).2
  unfold Transcript.print Transcript.header Transcript.hashWord
  cases t.plan.isManual <;> simp only [Bool.false_eq_true, if_true, if_false, List.append_assoc, List.cons_append,
    List.nil_append, List.singleton_append, hp, hv, show " (manual)".toList = ' ' :: "(manual)".toList from rfl,
    show " 0x".toList = [' ', '0', 'x'] from rfl]

/-- The text of a readable transcript starts with its header. -/
theorem Transcript.print_head {hash : Plan → UInt64} {t : Transcript} (hr : t.Readable hash) :
    ∃ r, (t.print hash false).1 = '#' :: r :=
  ⟨_, by rw [Transcript.print_readable hr]; rfl⟩

theorem printEach_params_head {ps : Params} (h : ps ≠ []) (r : List Char) :
    ∃ r', (printEach (fun (b : Symbol × Value) => printBinding "param: ".toList b.1 b.2) ps false).1 ++ r = 'p' :: r' := by
  obtain ⟨b, ps, rfl⟩ := List.exists_cons_of_ne_nil h
  exact ⟨_, by simp only [printEach, List.append_assoc]; exact printBinding_cons⟩

theorem printEach_vars_head {vs : List Var} (h : vs ≠ []) (r : List Char) :
    ∃ k r', (printEach printVar vs false).1 ++ r = k :: r' ∧ (k = 'c' ∨ k = 't') := by
  obtain ⟨⟨n, v, tr⟩, vs, rfl⟩ := List.exists_cons_of_ne_nil h
  simp only [printEach, printVar, List.append_assoc]
  cases tr
  · exact ⟨_, _, printBinding_cons, .inl rfl⟩
  · exact ⟨_, _, printBinding_cons, .inr rfl⟩

/-- What follows a transcript in the saved text, the end or the next header, starts no line of the transcript's
loops, and the whitespace before it has been read. -/
theorem next_header {next : List Char} (h : next = [] ∨ next.head? = some '#') :
    next.dropWhile isSpace = next ∧ next.head? ≠ some 'p' ∧ next.head? ≠ some 'c' ∧ next.head? ≠ some 't' := by
  cases next with
  | nil => simp
  | cons x r =>
    obtain rfl : x = '#' := by simpa using h
    exact ⟨rfl, by simp, by simp, by simp⟩

/-- `operator>>(std::istream&, Transcript&)` reads a readable transcript's text back, when what follows it is the end
of the text or the next header, and stops before it. A transcript with neither parameters nor variables must be the
last: the comment loop would read the next header as a comment. -/
theorem readTranscript_print {hash : Plan → UInt64} {t : Transcript} {fuel : Nat} {next : List Char}
    (hr : t.Readable hash) (hnext : next = [] ∨ next.head? = some '#' ∧ (t.plan.params ≠ [] ∨ t.vars ≠ []))
    (hf : (t.print hash false).1.length ≤ fuel) :
    readTranscript hash fuel ⟨(t.print hash false).1 ++ next, false, false, false⟩ = .ok (t, before next) := by
  obtain ⟨hhw, hhws⟩ := hashWord_word hash t
  have hsp : isSpace ' ' = true := rfl
  rw [Transcript.print_readable hr] at hf ⊢
  have htext : ("#### transcript: ".toList ++ t.testName.text ++ ' ' :: (t.hashWord hash ++ '\n' :: ((t.plan.print
      false).1 ++ ((printEach printVar t.vars false).1 ++ ['\n'])))) ++ next = [] ++ ("####".toList ++ ([' '] ++
      ("transcript:".toList ++ ([' '] ++ (t.testName.text ++ ([' '] ++ (t.hashWord hash ++ (['\n'] ++
      ((t.plan.print false).1 ++ ((printEach printVar t.vars false).1 ++ ('\n' :: next))))))))))) := by
    simp [show "#### transcript: ".toList = "####".toList ++ ' ' :: "transcript:".toList ++ [' '] from rfl]
  rw [htext, readTranscript, word_spaces [] (by simp) (by decide) (by decide) hsp, ok_bind]
  dsimp only
  rw [word_spaces [' '] (by decide) (by decide) (by decide) hsp, ok_bind]
  dsimp only
  rw [symbol_spaces [' '] (by decide) hr.name hsp, ok_bind]
  dsimp only
  rw [word_spaces [' '] (by decide) hhw hhws (show isSpace '\n' = true from rfl), ok_bind]
  dsimp only
  have hman : (t.hashWord hash == "(manual)".toList) = t.plan.isManual := by
    unfold Transcript.hashWord
    cases t.plan.isManual <;> simp
  have hph : (if t.plan.isManual = true then 0 else strtoull (t.hashWord hash)) =
      if t.plan.isManual = true then 0 else (hash t.plan).toNat := by
    unfold Transcript.hashWord
    cases t.plan.isManual <;> simp [strtoull_hex (UInt64.toNat_lt_size _)]
  have hcheck : (!t.plan.isManual && ((if t.plan.isManual = true then 0 else (hash t.plan).toNat) == 0 ||
      (if t.plan.isManual = true then 0 else (hash t.plan).toNat) == 18446744073709551615)) = false := by
    cases hm : t.plan.isManual
    · simp [hr.planHash hm]
    · rfl
  -- what follows the plan and the variables
  obtain ⟨hnd, hnh⟩ := next_header (hnext.imp_right And.left)
  have hD : t.vars = [] ∧ ((printEach printVar t.vars false).1 ++ '\n' :: next).dropWhile isSpace = next ∨
      t.vars ≠ [] ∧ ∃ k r, ((printEach printVar t.vars false).1 ++ '\n' :: next).dropWhile isSpace = k :: r ∧
        (k = 'c' ∨ k = 't') := by
    by_cases hv : t.vars = []
    · exact .inl ⟨hv, by simp [hv, printEach, List.dropWhile_cons, show isSpace '\n' = true from rfl, hnd]⟩
    · obtain ⟨k, r, he, hk⟩ := printEach_vars_head hv ('\n' :: next)
      have hks : isSpace k = false := by rcases hk with rfl | rfl <;> rfl
      exact .inr ⟨hv, k, r, by rw [he, List.dropWhile_cons, if_neg (by simp [hks])], hk⟩
  have hA : (((printEach printVar t.vars false).1 ++ '\n' :: next).dropWhile isSpace).head? ≠ some 'p' := by
    rcases hD with ⟨-, hd⟩ | ⟨-, k, r, hd, hk⟩
    · rw [hd]
      exact hnh.1
    · rcases hk with rfl | rfl <;> simp [hd]
  have hB : (((printEach (fun (b : Symbol × Value) => printBinding "param: ".toList b.1 b.2) t.plan.params false).1 ++
      ((printEach printVar t.vars false).1 ++ '\n' :: next)).dropWhile isSpace).head? ≠ some '#' := by
    by_cases hp : t.plan.params = []
    · rcases hD with ⟨hv, hd⟩ | ⟨-, k, r, hd, hk⟩
      · rcases hnext with rfl | ⟨-, hpv⟩
        · simp [hp, printEach, hd]
        · exact absurd hpv (by simp [hp, hv])
      · rcases hk with rfl | rfl <;> simp [hp, printEach, hd]
    · obtain ⟨r, he⟩ := printEach_params_head hp ((printEach printVar t.vars false).1 ++ '\n' :: next)
      rw [he, List.dropWhile_cons, if_neg (by decide)]
      simp
  simp only [List.length_append, List.length_cons] at hf
  rw [hman, hph, hcheck, if_neg Bool.false_ne_true, show expectNonemptyStr t.testName.text = .ok () by
    simp [expectNonemptyStr, hr.name], ok_bind, List.singleton_append, show t.testName = t.plan.testName from rfl,
    readPlan_print hr.comments hr.params hA hB (by omega), ok_bind]
  dsimp only
  have hvars := readVars_print t.vars fuel [] ('\n' :: next) hr.vars
    (by simp [List.dropWhile_cons, show isSpace '\n' = true from rfl, hnd, hnh.2.1])
    (by simp [List.dropWhile_cons, show isSpace '\n' = true from rfl, hnd, hnh.2.2]) (by omega)
  simp only [List.dropWhile_cons, show isSpace '\n' = true from rfl, if_true, hnd, List.nil_append] at hvars
  cases hm : t.plan.isManual <;>
    simp [expectHash, scanWhitespace_before, List.dropWhile_idempotent, hvars]

/-! ## The corpus -/

namespace Corpus

variable {planCmp : Comparator Plan} {hash : Plan → UInt64}

/-- The loop of `Corpus::Corpus(path)` reads the transcripts of a saved text back one after the other, and adds each
to the corpus: it does what `addTranscript` does over the transcripts in order. -/
theorem loadLoop_print : ∀ (ts : List Transcript) (fuel : Nat) (c : Corpus), (∀ t ∈ ts, t.Readable hash) →
    (∀ t ∈ ts.dropLast, t.plan.params ≠ [] ∨ t.vars ≠ []) → (printEach (Transcript.print hash) ts false).1.length < fuel →
    loadLoop planCmp hash fuel c (before (printEach (Transcript.print hash) ts false).1) =
      ts.foldlM (fun c t => c.addTranscript planCmp t) c
  | [], fuel + 1, c, _, _, _ => rfl
  | t :: ts, fuel + 1, c, hr, hsep, hf => by
    have hrt : t.Readable hash := hr t (List.mem_cons_self _ _)
    have hts : ∀ t ∈ ts, t.Readable hash := fun t ht => hr t (List.mem_cons_of_mem _ ht)
    have hprint : (printEach (Transcript.print hash) (t :: ts) false).1 =
        (t.print hash false).1 ++ (printEach (Transcript.print hash) ts false).1 := by
      simp [printEach, Transcript.print_readable hrt]
    obtain ⟨r, hr'⟩ := Transcript.print_head hrt
    have hnext : (printEach (Transcript.print hash) ts false).1 = [] ∨
        (printEach (Transcript.print hash) ts false).1.head? = some '#' ∧ (t.plan.params ≠ [] ∨ t.vars ≠ []) := by
      cases ts with
      | nil => exact .inl rfl
      | cons t' ts' =>
        obtain ⟨r', hr''⟩ := Transcript.print_head (hts t' (List.mem_cons_self _ _))
        refine .inr ⟨?_, hsep t (by simp)⟩
        simp [printEach, hr'']
    have hskip : (before (printEach (Transcript.print hash) ts false).1).scanWhitespace =
        before (printEach (Transcript.print hash) ts false).1 := by
      rw [scanWhitespace_before, (next_header (hnext.imp_right And.left)).1]
    rw [hprint] at hf ⊢
    rw [List.length_append] at hf
    rw [hr', List.cons_append, before_cons, loadLoop_succ, ← List.cons_append, ← hr']
    simp only [good_mk, Bool.not_false, Bool.and_self, Bool.not_true, Bool.false_eq_true, if_false]
    rw [readTranscript_print hrt hnext (by omega), ok_bind, List.foldlM_cons]
    dsimp only
    congr 1
    funext c'
    rw [hskip, loadLoop_print ts fuel c' hts (fun t' ht' => hsep t' (by
      cases ts with
      | nil => simp at ht'
      | cons _ _ => exact List.mem_cons_of_mem _ ht')) (by
      have := (t.print hash false).1.length; simp [hr'] at hf ⊢; omega)]

/-! ## Adding the transcripts in order -/

section Replay

variable {α β : Type} {cmp : Comparator α}

/-- `emplace` of a key greater than every key of the map puts it last. -/
theorem mapEmplace_of_lt (hT : cmp.Transitive) {key : α} {v : β} :
    ∀ {m : List (α × β)}, (∀ e ∈ m, cmp.lt e.1 key = true) → mapEmplace cmp key v m = m ++ [(key, v)]
  | [], _ => rfl
  | (k', v') :: m, h => by
    have hlt := h (k', v') (List.mem_cons_self _ _)
    simp only [mapEmplace, hT.asymm hlt, hlt, Bool.false_eq_true, if_false, if_true, List.cons_append]
    rw [mapEmplace_of_lt hT fun e he => h e (List.mem_cons_of_mem _ he)]

/-- Inserting an element greater than every element of a set puts it last. -/
theorem setInsert_of_lt (hT : cmp.Transitive) {x : α} :
    ∀ {l : List α}, (∀ y ∈ l, cmp.lt y x = true) → setInsert cmp x l = l ++ [x]
  | [], _ => rfl
  | y :: l, h => by
    have hlt := h y (List.mem_cons_self _ _)
    simp only [setInsert, hT.asymm hlt, hlt, Bool.false_eq_true, if_false, if_true, List.cons_append]
    rw [setInsert_of_lt hT fun z hz => h z (List.mem_cons_of_mem _ hz)]

end Replay

/-- Adding the first transcript of a test whose name is greater than every test's of the corpus. -/
theorem addTranscript_new {m : List (Symbol × List Transcript)} {d : Bool} {t : Transcript}
    (hk : ∀ e ∈ m, Symbol.comparator.lt e.1 t.testName = true) :
    (⟨m, d⟩ : Corpus).addTranscript planCmp t = .ok ⟨m ++ [(t.testName, [t])], true⟩ := by
  have hnot : t.testName ∉ m.map Prod.fst := fun h => by
    obtain ⟨e, he, hke⟩ := List.mem_map.mp h
    have := hk e he
    rw [hke, Symbol.comparator.irrefl] at this
    exact Bool.false_ne_true this
  simp [addTranscript, getTranscripts, lookup_eq_none_of_not_mem hnot, setContains, putTranscript, setInsert, mapPut,
    hnot, mapEmplace_of_lt Symbol.comparator_transitive hk, assertThat]

/-- Adding a transcript greater than every one of its test's set, when that test is the corpus's last. -/
theorem addTranscript_last (hT : planCmp.Transitive) {m : List (Symbol × List Transcript)} {d : Bool}
    {s : List Transcript} {t : Transcript} (hnot : t.testName ∉ m.map Prod.fst)
    (hs : ∀ y ∈ s, (Transcript.comparator planCmp).lt y t = true) :
    (⟨m ++ [(t.testName, s)], d⟩ : Corpus).addTranscript planCmp t = .ok ⟨m ++ [(t.testName, s ++ [t])], true⟩ := by
  have hget : (⟨m ++ [(t.testName, s)], d⟩ : Corpus).getTranscripts t.testName = s := by
    simp [getTranscripts, List.lookup_append, lookup_eq_none_of_not_mem hnot]
  have hfresh : setContains (Transcript.comparator planCmp) t s = false := by
    simp only [setContains, List.any_eq_false, Bool.and_eq_true, Bool.not_eq_true', not_and, Bool.not_eq_false]
    exact fun y hy _ => hs y hy
  have hput : mapPut Symbol.comparator t.testName (s ++ [t]) (m ++ [(t.testName, s)]) =
      m ++ [(t.testName, s ++ [t])] := by
    have hm : ∀ e ∈ m, e.1 ≠ t.testName := fun e he h => hnot (h ▸ List.mem_map_of_mem _ he)
    simp only [mapPut, List.map_append, List.map_cons, List.map_nil, List.mem_append, List.mem_singleton, or_true,
      if_true, if_pos rfl, List.append_cancel_right_eq]
    exact (List.map_congr_left fun e he => if_neg (hm e he)).trans (List.map_id' m)
  simp [addTranscript, hget, hfresh, putTranscript, setInsert_of_lt (Transcript.comparator_transitive hT) hs, hput,
    assertThat]

/-- Adding the rest of a test's transcripts, in increasing order, when that test is the corpus's last, extends its
set. -/
theorem foldlM_addTranscript_set (hT : planCmp.Transitive) {m : List (Symbol × List Transcript)} {k : Symbol}
    (hnot : k ∉ m.map Prod.fst) : ∀ (s s₀ : List Transcript) (d : Bool),
    (s₀ ++ s).Pairwise (fun a b => (Transcript.comparator planCmp).lt a b = true) → (∀ t ∈ s, t.testName = k) →
    ∃ d', s.foldlM (fun (c : Corpus) t => c.addTranscript planCmp t) ⟨m ++ [(k, s₀)], d⟩ = .ok ⟨m ++ [(k, s₀ ++ s)], d'⟩
  | [], _, d, _, _ => ⟨d, by simp; rfl⟩
  | t :: s, s₀, _, hp, hn => by
    obtain rfl : t.testName = k := hn t (List.mem_cons_self _ _)
    have hlt : ∀ y ∈ s₀, (Transcript.comparator planCmp).lt y t = true := fun y hy =>
      (List.pairwise_append.mp hp).2.2 y hy t (List.mem_cons_self _ _)
    obtain ⟨d', h⟩ := foldlM_addTranscript_set hT hnot s (s₀ ++ [t]) true (by simpa using hp)
      fun t' ht' => hn t' (List.mem_cons_of_mem _ ht')
    exact ⟨d', by rw [List.foldlM_cons, addTranscript_last hT hnot hlt, ok_bind, h]; simp⟩

/-- Adding the transcripts of tests whose names are greater than the corpus's, test after test and each set in
increasing order, puts the tests after the corpus's. -/
theorem foldlM_addTranscript_map (hT : planCmp.Transitive) : ∀ (m m₀ : List (Symbol × List Transcript)) (d : Bool),
    (m₀ ++ m).Pairwise (fun a b => Symbol.comparator.lt a.1 b.1 = true) →
    (∀ e ∈ m, e.2 ≠ [] ∧ (∀ t ∈ e.2, t.testName = e.1) ∧
      e.2.Pairwise (fun a b => (Transcript.comparator planCmp).lt a b = true)) →
    ∃ d', (m.flatMap Prod.snd).foldlM (fun (c : Corpus) t => c.addTranscript planCmp t) ⟨m₀, d⟩ = .ok ⟨m₀ ++ m, d'⟩
  | [], m₀, d, _, _ => ⟨d, by simp; rfl⟩
  | (k, s) :: m, m₀, _, hk, hs => by
    obtain ⟨hne, hn, hp⟩ := hs (k, s) (List.mem_cons_self _ _)
    obtain ⟨t, s, rfl⟩ := List.exists_cons_of_ne_nil hne
    obtain rfl : t.testName = k := hn t (List.mem_cons_self _ _)
    have hlt : ∀ e ∈ m₀, Symbol.comparator.lt e.1 t.testName = true := fun e he =>
      (List.pairwise_append.mp hk).2.2 e he _ (List.mem_cons_self _ _)
    have hnot : t.testName ∉ m₀.map Prod.fst := fun h => by
      obtain ⟨e, he, hke⟩ := List.mem_map.mp h
      simpa [hke, Symbol.comparator.irrefl] using hlt e he
    obtain ⟨d₁, h₁⟩ := foldlM_addTranscript_set hT hnot s [t] true (by simpa using hp)
      fun t' ht' => hn t' (List.mem_cons_of_mem _ ht')
    obtain ⟨d₂, h₂⟩ := foldlM_addTranscript_map hT m (m₀ ++ [(t.testName, t :: s)]) d₁ (by simpa using hk)
      fun e he => hs e (List.mem_cons_of_mem _ he)
    refine ⟨d₂, ?_⟩
    rw [List.flatMap_cons, List.foldlM_append, List.foldlM_cons, addTranscript_new hlt, ok_bind, h₁, ok_bind]
    simpa using h₂

/-- The shape in which the code keeps its map: tests in increasing order of their names, each with a non-empty set of
its own transcripts in increasing order. -/
structure Ordered (planCmp : Comparator Plan) (c : Corpus) : Prop where
  keys : c.transcripts.Pairwise fun a b => Symbol.comparator.lt a.1 b.1 = true
  sets : ∀ e ∈ c.transcripts, e.2 ≠ [] ∧ (∀ t ∈ e.2, t.testName = e.1) ∧
    e.2.Pairwise fun a b => (Transcript.comparator planCmp).lt a b = true

variable {c : Corpus}

theorem Reachable.ordered (hT : planCmp.Transitive) (h : c.Reachable planCmp) : c.Ordered planCmp where
  keys := h.keys_sorted
  sets e he := by
    obtain ⟨hne, -, hname⟩ := h.wf.sets e he
    have hs := h.sorted hT e.1
    rw [getTranscripts_eq_of_mem h.wf he] at hs
    exact ⟨hne, hname, hs⟩

/-- The transcripts of an ordered corpus, added in the order its map lists them, make the corpus again. -/
theorem Ordered.replay (hT : planCmp.Transitive) (h : c.Ordered planCmp) :
    ∃ d, c.all.foldlM (fun c t => c.addTranscript planCmp t) empty = .ok ⟨c.transcripts, d⟩ :=
  foldlM_addTranscript_map hT c.transcripts [] false (by simpa using h.keys) h.sets

/-- The text of readable transcripts is empty or starts with a header, so the whitespace the reader skips first is
none. -/
theorem dropWhile_printEach : ∀ {ts : List Transcript}, (∀ t ∈ ts, t.Readable hash) →
    (printEach (Transcript.print hash) ts false).1.dropWhile isSpace = (printEach (Transcript.print hash) ts false).1
  | [], _ => rfl
  | t :: ts, hr => by
    obtain ⟨r, hr'⟩ := Transcript.print_head (hr t (List.mem_cons_self _ _))
    simp [printEach, hr', List.dropWhile_cons, show isSpace '#' = false from rfl]

/-- What `Corpus::save` writes is empty or starts with a header. -/
theorem dropWhile_text (hr : ∀ t ∈ c.all, t.Readable hash) : (c.text hash).dropWhile isSpace = c.text hash :=
  dropWhile_printEach hr

/-- Reading back what `Corpus::save` writes gives an ordered corpus back, not dirty, when its transcripts are readable
and only the last one can lack both parameters and variables. -/
theorem Ordered.load_text {fuel : Nat} (hT : planCmp.Transitive) (ho : c.Ordered planCmp)
    (hr : ∀ t ∈ c.all, t.Readable hash) (hsep : ∀ t ∈ c.all.dropLast, t.plan.params ≠ [] ∨ t.vars ≠ [])
    (hf : (c.text hash).length < fuel) :
    load planCmp hash fuel (some (c.text hash)) = .ok { c with dirty := false } := by
  obtain ⟨d, hd⟩ := ho.replay hT
  rw [load, IStream.ofList, scanWhitespace_mk, dropWhile_text hr, text, loadLoop_print c.all fuel empty hr hsep hf, hd]
  rfl

/-- Reading back what `Corpus::save` writes gives the corpus back, not dirty, for every corpus that `addTranscript`
and `updateTranscript` reach under a transitive order of plans, when its transcripts are readable and only the last
one can lack both parameters and variables; the loops need fuel for the length of the text. -/
theorem load_saved_text {fuel : Nat} (hT : planCmp.Transitive) (hc : c.Reachable planCmp)
    (hr : ∀ t ∈ c.all, t.Readable hash) (hsep : ∀ t ∈ c.all.dropLast, t.plan.params ≠ [] ∨ t.vars ≠ [])
    (hf : (c.text hash).length < fuel) :
    load planCmp hash fuel (some (c.text hash)) = .ok { c with dirty := false } :=
  (hc.ordered hT).load_text hT hr hsep hf

/-- A transcript of the test `t` with a parameter and a checked variable. -/
def paramTranscript : Transcript :=
  ⟨⟨⟨['t'], by decide⟩, false, [], [(⟨['x'], by decide⟩, .int64 ⟨7, by decide, by decide⟩)]⟩,
    [(⟨['y'], by decide⟩, .bool true, false)]⟩

/-- A manual transcript of the test `u` with a comment and nothing else, which can only be the last. -/
def noteTranscript : Transcript := ⟨⟨⟨['u'], by decide⟩, true, ["seed".toList], []⟩, []⟩

/-- The corpus with the two added. -/
def noteCorpus : Corpus := ⟨[(⟨['t'], by decide⟩, [paramTranscript]), (⟨['u'], by decide⟩, [noteTranscript])], true⟩

theorem load_saved_text_noteCorpus :
    (Plan.comparator fun _ => 0).Transitive ∧ noteCorpus.Reachable (Plan.comparator fun _ => 0) ∧
      (∀ t ∈ noteCorpus.all, t.Readable fun _ => 1) ∧
      (∀ t ∈ noteCorpus.all.dropLast, t.plan.params ≠ [] ∨ t.vars ≠ []) ∧ (noteCorpus.text fun _ => 1).length < 200 ∧
      load (Plan.comparator fun _ => 0) (fun _ => 1) 200 (some (noteCorpus.text fun _ => 1)) =
        .ok { noteCorpus with dirty := false } :=
  have hT := Plan.comparator_transitive fun _ => 0
  have hc : noteCorpus.Reachable (Plan.comparator fun _ => 0) :=
    @Reachable.add _ _ _ noteTranscript (@Reachable.add _ _ _ paramTranscript .empty rfl) rfl
  have hr : ∀ t ∈ noteCorpus.all, t.Readable fun _ => 1 := by decide
  have hsep : ∀ t ∈ noteCorpus.all.dropLast, t.plan.params ≠ [] ∨ t.vars ≠ [] := by decide
  have hf : (noteCorpus.text fun _ => 1).length < 200 := by decide
  ⟨hT, hc, hr, hsep, hf, load_saved_text hT hc hr hsep hf⟩

/-- The loop of `Corpus::Corpus(path)` only adds transcripts with `addTranscript`. -/
theorem loadLoop_reachable : ∀ (fuel : Nat) (c c' : Corpus) (is : IStream), c.Reachable planCmp →
    loadLoop planCmp hash fuel c is = .ok c' → c'.Reachable planCmp
  | 0, _, _, _, _, h => nomatch h
  | fuel + 1, c, c', is, hc, h => by
    rw [loadLoop_succ] at h
    split at h
    · cases h
      exact hc
    · obtain ⟨_, -, h⟩ := bind_eq_ok.mp h
      obtain ⟨c₁, h₁, h⟩ := bind_eq_ok.mp h
      exact loadLoop_reachable fuel c₁ c' _ (hc.add h₁) h

end Corpus

end Photesthesis
