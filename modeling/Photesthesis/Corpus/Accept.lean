import Photesthesis.Corpus.Load

/-!
# What the corpus reader accepts

`operator>>(std::istream&, Transcript&)` checks what it reads: `expectNonemptyStr` on the names of the test, of each
parameter and of each variable; the header's hash against `0` and `ULLONG_MAX`, and, through `expectVal<int64_t>`,
against the hash of the plan read; and the comment loop keeps the rest of a `#` line after its whitespace only when it
is not empty. So every transcript of a corpus that `Corpus::Corpus(path)` reads, whatever the file holds, is well
formed (`Transcript.WellFormed`, `Corpus.load_wellFormed`): it is readable in the sense of `Corpus/Load.lean` as soon
as its values are printable. With the round trip proved there, saving a corpus that was read and reading the text
back gives the corpus again (`Corpus.load_save_load`). A file that holds a transcript twice is not read: the second
copy stops the reader at the `assert` of `Corpus::addTranscript` (`Corpus.load_duplicate`).

Each loop is proved by induction on its fuel, one case per branch of its body, for any list it starts from
(`readComments_reads`, `readParams_names`, `readVars_names`); a transcript combines them (`readTranscript_wellFormed`),
and the load loop adds only transcripts it read (`Corpus.loadLoop_wellFormed`).
-/

namespace Photesthesis

/-! ## Numbers -/

theorem toDigits_ten_inj {m n : Nat} (h : Nat.toDigits 10 m = Nat.toDigits 10 n) : m = n := by
  have hm := (toDigits_spec false m).2.2
  have hn := (toDigits_spec false n).2.2
  rw [show numBase false = 10 from rfl] at hm hn
  rw [← hm, ← hn, h]

theorem toDigits_ne_minus (n : Nat) (r : List Char) : Nat.toDigits 10 n ≠ '-' :: r := fun h => by
  have := (toDigits_spec false n).2.1 '-'
  rw [show numBase false = 10 from rfl, h] at this
  exact absurd (this (List.mem_cons_self _ _)) (by decide)

/-- Different integers have different decimal texts. -/
theorem int_toString_inj {a b : Int} (h : toString a = toString b) : a = b := by
  have hd : ∀ m, (toString (Int.ofNat m)).data = Nat.toDigits 10 m := fun _ => rfl
  have hn : ∀ m, (toString (Int.negSucc m)).data = '-' :: Nat.toDigits 10 (m + 1) := fun _ => rfl
  have h' := congrArg String.data h
  cases a with
  | ofNat m => cases b with
    | ofNat n => rw [hd, hd] at h'; rw [toDigits_ten_inj h']
    | negSucc n => rw [hd, hn] at h'; exact absurd h' (toDigits_ne_minus _ _)
  | negSucc m => cases b with
    | ofNat n => rw [hn, hd] at h'; exact absurd h'.symm (toDigits_ne_minus _ _)
    | negSucc n =>
      rw [hn, hn] at h'
      have := toDigits_ten_inj (List.cons.inj h').2
      rw [show m = n by omega]

/-- `expectVal<int64_t>` compares two `uint64_t` values as `int64_t`: equal texts are equal values. -/
theorem int64Text_inj {m n : Nat} (hm : m < 18446744073709551616) (hn : n < 18446744073709551616)
    (h : int64Text m = int64Text n) : m = n := by
  have := int_toString_inj h
  split_ifs at this <;> omega

/-- `std::strtoull` returns a value of 64 bits: past `ULLONG_MAX` it returns `ULLONG_MAX`. -/
theorem strtoull_lt (s : List Char) : strtoull s < 18446744073709551616 := by
  have hcap : ∀ (m : Nat) (neg : Bool), (if 18446744073709551615 < m then 18446744073709551615
      else if neg = true then (18446744073709551616 - m) % 18446744073709551616 else m) < 18446744073709551616 :=
    fun m neg => by
      split_ifs
      · decide
      · exact Nat.mod_lt _ (by decide)
      · omega
  unfold strtoull
  split
  split
  exact hcap _ _

theorem expectHash_ok {m n : Nat} {u : Unit} (h : expectHash m n = .ok u) : int64Text m = int64Text n := by
  unfold expectHash at h
  split at h
  · assumption
  · cases h

theorem expectNonemptyStr_ok {s : List Char} {u : Unit} (h : expectNonemptyStr s = .ok u) : s ≠ [] := by
  rintro rfl
  cases h

/-! ## Lines -/

open IStream

/-- `std::getline` on a good stream at a character reads up to the line's end. -/
theorem getLine_cons {c : Char} {r : List Char} {e f x : Bool} (hg : (⟨c :: r, e, f, x⟩ : IStream).good = true) :
    (IStream.getLine ⟨c :: r, e, f, x⟩).1 = (c :: r).takeWhile (· != '\n') := by
  unfold getLine
  rw [if_neg (by simp [hg])]
  dsimp only
  split
  · next hd => rw [← List.takeWhile_append_dropWhile (· != '\n') (c :: r), hd, List.append_nil, List.takeWhile_idem]
  · rfl

/-- A line that starts with a character other than whitespace reads back as a comment up to its end. -/
theorem commentReads_takeWhile {c : Char} {r : List Char} (hc : isSpace c = false) :
    CommentReads ((c :: r).takeWhile (· != '\n')) := by
  have hnl : (c != '\n') = true := bne_iff_ne.mpr fun h => by rw [h] at hc; exact absurd hc (by decide)
  refine ⟨?_, fun h => by simpa using List.mem_takeWhile_imp h⟩
  rw [List.takeWhile_cons_of_pos (p := fun x => x != '\n') hnl]
  simp [hc]

/-- What the comment loop reads after a `#` and the whitespace after it: nothing, or a comment that reads back. -/
theorem scanWhitespace_getLine (is : IStream) :
    is.scanWhitespace.getLine.1 = [] ∨ CommentReads is.scanWhitespace.getLine.1 := by
  unfold scanWhitespace
  cases hg : is.good
  · left
    simp [getLine, hg]
  · cases hd : is.rest.dropWhile isSpace with
    | nil => left; simp [getLine, good]
    | cons c r =>
      right
      have hc : isSpace c = false := by simpa [hd] using List.head?_dropWhile_not isSpace is.rest
      simp only [Bool.not_true, Bool.false_eq_true, if_false, hd]
      rw [getLine_cons (by simpa [good] using hg)]
      exact commentReads_takeWhile hc

/-! ## The loops -/

/-- Every comment the comment loop keeps reads back. -/
theorem readComments_reads : ∀ (fuel : Nat) (acc : List (List Char)) (is : IStream) {cs : List (List Char)}
    {is' : IStream}, (∀ c ∈ acc, CommentReads c) → readComments fuel acc is = .ok (cs, is') → ∀ c ∈ cs, CommentReads c
  | 0, _, _, _, _, _, h => nomatch h
  | fuel + 1, acc, is, cs, is', hacc, h => by
    rw [readComments_succ] at h
    split at h
    · cases h
      exact hacc
    · generalize hl : ((is.atChar '#').2.get.2.scanWhitespace.getLine) = line at h
      obtain ⟨str, is₁⟩ := line
      obtain ⟨is₂, -, h⟩ := bind_eq_ok.mp h
      refine readComments_reads fuel _ _ ?_ h
      split
      · exact hacc
      · next hne =>
        have hs := scanWhitespace_getLine (is.atChar '#').2.get.2
        rw [hl] at hs
        intro c hc
        rcases List.mem_append.mp hc with hc | hc
        · exact hacc c hc
        · rw [List.mem_singleton.mp hc]
          exact hs.resolve_left (by simpa using hne)

/-- Every parameter the parameter loop reads has a name. -/
theorem readParams_names : ∀ (fuel : Nat) (acc : Params) (is : IStream) {ps : Params} {is' : IStream},
    (∀ b ∈ acc, b.1.text ≠ []) → readParams fuel acc is = .ok (ps, is') → ∀ b ∈ ps, b.1.text ≠ []
  | 0, _, _, _, _, _, h => nomatch h
  | fuel + 1, acc, is, ps, is', hacc, h => by
    rw [readParams_succ] at h
    split at h
    · cases h
      exact hacc
    · obtain ⟨⟨⟨kw, pname, eq, val⟩, is₁⟩, -, h⟩ := bind_eq_ok.mp h
      obtain ⟨-, -, h⟩ := bind_eq_ok.mp h
      obtain ⟨-, -, h⟩ := bind_eq_ok.mp h
      obtain ⟨_, hn, h⟩ := bind_eq_ok.mp h
      refine readParams_names fuel _ _ (fun b hb => ?_) h
      rcases List.mem_append.mp hb with hb | hb
      · exact hacc b hb
      · rw [List.mem_singleton.mp hb]
        exact expectNonemptyStr_ok hn

/-- Every variable the variable loop reads has a name. -/
theorem readVars_names : ∀ (fuel : Nat) (acc : List Var) (is : IStream) {vs : List Var} {is' : IStream},
    (∀ x ∈ acc, x.1.text ≠ []) → readVars fuel acc is = .ok (vs, is') → ∀ x ∈ vs, x.1.text ≠ []
  | 0, _, _, _, _, _, h => nomatch h
  | fuel + 1, acc, is, vs, is', hacc, h => by
    rw [readVars_succ] at h
    obtain ⟨is₀, -, h⟩ := bind_eq_ok.mp h
    split at h
    · cases h
      exact hacc
    · obtain ⟨⟨⟨kw, vname, eq, val⟩, is₁⟩, -, h⟩ := bind_eq_ok.mp h
      obtain ⟨-, -, h⟩ := bind_eq_ok.mp h
      obtain ⟨_, hn, h⟩ := bind_eq_ok.mp h
      split at h
      · cases h
      refine readVars_names fuel _ _ (fun x hx => ?_) h
      rcases List.mem_append.mp hx with hx | hx
      · exact hacc x hx
      · rw [List.mem_singleton.mp hx]
        exact expectNonemptyStr_ok hn

/-! ## A transcript -/

/-- The plan `operator>>(std::istream&, Plan&)` reads is the one it is given, with comments that read back and named
parameters. -/
theorem readPlan_reads {fuel : Nat} {plan p : Plan} {is is' : IStream} (h : readPlan fuel plan is = .ok (p, is')) :
    p.testName = plan.testName ∧ p.isManual = plan.isManual ∧ (∀ c ∈ p.comments, CommentReads c) ∧
      ∀ b ∈ p.params, b.1.text ≠ [] := by
  unfold readPlan at h
  obtain ⟨is₁, -, h⟩ := bind_eq_ok.mp h
  obtain ⟨⟨cs, is₂⟩, hc, h⟩ := bind_eq_ok.mp h
  obtain ⟨⟨ps, is₃⟩, hp, h⟩ := bind_eq_ok.mp h
  cases h
  exact ⟨rfl, rfl, readComments_reads fuel [] _ (by simp) hc, readParams_names fuel [] _ (by simp) hp⟩

/-- What the reader checks of a transcript: a test name, a hash it accepts, comments that read back, and names for
the parameters and the variables. With printable values it is readable. -/
structure Transcript.WellFormed (hash : Plan → UInt64) (t : Transcript) : Prop where
  name : t.testName.text ≠ []
  planHash : t.plan.isManual = false → (hash t.plan).toNat ≠ 0 ∧ (hash t.plan).toNat ≠ 18446744073709551615
  comments : ∀ c ∈ t.plan.comments, CommentReads c
  params : ∀ b ∈ t.plan.params, b.1.text ≠ []
  vars : ∀ x ∈ t.vars, x.1.text ≠ []

theorem Transcript.WellFormed.readable {hash : Plan → UInt64} {t : Transcript} (hw : t.WellFormed hash)
    (hp : ∀ b ∈ t.plan.params, b.2.printable = true) (hv : ∀ x ∈ t.vars, x.2.1.printable = true) : t.Readable hash :=
  ⟨hw.name, hw.planHash, hw.comments, fun b hb => ⟨hw.params b hb, hp b hb⟩, fun x hx => ⟨hw.vars x hx, hv x hx⟩⟩

/-- Every transcript `operator>>(std::istream&, Transcript&)` reads is well formed. -/
theorem readTranscript_wellFormed {hash : Plan → UInt64} {fuel : Nat} {is is' : IStream} {t : Transcript}
    (h : readTranscript hash fuel is = .ok (t, is')) : t.WellFormed hash := by
  unfold readTranscript at h
  obtain ⟨⟨_, is₁⟩, -, h⟩ := bind_eq_ok.mp h
  obtain ⟨⟨_, is₂⟩, -, h⟩ := bind_eq_ok.mp h
  obtain ⟨⟨tname, is₃⟩, -, h⟩ := bind_eq_ok.mp h
  obtain ⟨⟨w, is₄⟩, -, h⟩ := bind_eq_ok.mp h
  dsimp only at h
  cases hw : w == "(manual)".toList
  all_goals simp only [hw, Bool.not_false, Bool.not_true, Bool.true_and, Bool.false_and, if_true, if_false,
    Bool.false_eq_true] at h
  · -- a hash: neither 0 nor ULLONG_MAX, and the plan's
    split at h
    · cases h
    next hcheck =>
    obtain ⟨_, hn, h⟩ := bind_eq_ok.mp h
    obtain ⟨⟨plan, is₅⟩, hp, h⟩ := bind_eq_ok.mp h
    obtain ⟨hname, hman, hcs, hps⟩ := readPlan_reads hp
    simp only [hman, hw, Bool.not_false, if_true] at h
    obtain ⟨_, hh, h⟩ := bind_eq_ok.mp h
    obtain ⟨⟨vars, is₆⟩, hv, h⟩ := bind_eq_ok.mp h
    cases h
    have heq := int64Text_inj (strtoull_lt w) (UInt64.toNat_lt_size _) (expectHash_ok hh)
    refine ⟨show plan.testName.text ≠ [] from hname ▸ expectNonemptyStr_ok hn, fun _ => ?_, hcs, hps,
      readVars_names fuel [] _ (by simp) hv⟩
    rw [← heq]
    simpa using hcheck
  · -- (manual)
    obtain ⟨_, hn, h⟩ := bind_eq_ok.mp h
    obtain ⟨⟨plan, is₅⟩, hp, h⟩ := bind_eq_ok.mp h
    obtain ⟨hname, hman, hcs, hps⟩ := readPlan_reads hp
    simp only [hman, hw, Bool.not_true, Bool.false_eq_true, if_false] at h
    obtain ⟨_, -, h⟩ := bind_eq_ok.mp h
    obtain ⟨⟨vars, is₆⟩, hv, h⟩ := bind_eq_ok.mp h
    cases h
    refine ⟨show plan.testName.text ≠ [] from hname ▸ expectNonemptyStr_ok hn, fun hm => ?_, hcs, hps,
      readVars_names fuel [] _ (by simp) hv⟩
    simp [hman, hw] at hm

/-! ## The corpus -/

namespace Corpus

variable {planCmp : Comparator Plan} {hash : Plan → UInt64}

/-- A transcript of the corpus after `addTranscript` is the one added or one that was there. -/
theorem mem_all_addTranscript {c c' : Corpus} {ts t : Transcript} (h : c.addTranscript planCmp ts = .ok c')
    (ht : t ∈ c'.all) : t = ts ∨ t ∈ c.all := by
  obtain ⟨_, -, h⟩ := bind_eq_ok.mp h
  cases h
  obtain ⟨e, he, hte⟩ := List.mem_flatMap.mp ht
  rcases mem_mapPut he with rfl | he
  · rcases mem_setInsert.mp hte with rfl | hte
    · exact .inl rfl
    · obtain ⟨s, hs, hts⟩ := mem_getTranscripts hte
      exact .inr (List.mem_flatMap.mpr ⟨_, hs, hts⟩)
  · exact .inr (List.mem_flatMap.mpr ⟨e, he, hte⟩)

/-- The loop of `Corpus::Corpus(path)` adds only transcripts it read, so only well-formed ones. -/
theorem loadLoop_wellFormed : ∀ (fuel : Nat) (c c' : Corpus) (is : IStream), (∀ t ∈ c.all, t.WellFormed hash) →
    loadLoop planCmp hash fuel c is = .ok c' → ∀ t ∈ c'.all, t.WellFormed hash
  | 0, _, _, _, _, h => nomatch h
  | fuel + 1, c, c', is, hc, h => by
    rw [loadLoop_succ] at h
    split at h
    · cases h
      exact hc
    · obtain ⟨⟨t₀, is₁⟩, hr, h⟩ := bind_eq_ok.mp h
      obtain ⟨c₁, h₁, h⟩ := bind_eq_ok.mp h
      refine loadLoop_wellFormed fuel c₁ c' _ (fun t ht => ?_) h
      rcases mem_all_addTranscript h₁ ht with rfl | ht
      · exact readTranscript_wellFormed hr
      · exact hc t ht

/-- A corpus `Corpus::Corpus(path)` reads is one that `addTranscript` reaches, not dirty, of well-formed
transcripts. -/
theorem load_spec {fuel : Nat} {file : Option (List Char)} {c : Corpus} (h : load planCmp hash fuel file = .ok c) :
    ∃ c' : Corpus, c'.Reachable planCmp ∧ (∀ t ∈ c'.all, t.WellFormed hash) ∧ c = { c' with dirty := false } := by
  cases file with
  | none =>
    cases h
    exact ⟨empty, .empty, fun _ h => absurd h (List.not_mem_nil _), rfl⟩
  | some s =>
    obtain ⟨c', hl, h⟩ := bind_eq_ok.mp h
    cases h
    exact ⟨c', loadLoop_reachable fuel empty c' _ .empty hl,
      loadLoop_wellFormed fuel empty c' _ (fun _ h => absurd h (List.not_mem_nil _)) hl, rfl⟩

/-- `addTranscript` refuses a transcript its test's set already holds, at its `assert(inserted)`. -/
theorem addTranscript_of_mem {c : Corpus} {t : Transcript} (ht : t ∈ c.getTranscripts t.testName) :
    c.addTranscript planCmp t = .error (.assertFailed "inserted") := by
  have hc : setContains (Transcript.comparator planCmp) t (c.getTranscripts t.testName) = true :=
    List.any_eq_true.mpr ⟨t, ht, by simp [Comparator.irrefl]⟩
  simp [addTranscript, hc, assertThat]

/-- `addTranscript` fails only at that `assert`. -/
theorem addTranscript_error {c : Corpus} {t : Transcript} {e : Fault} (h : c.addTranscript planCmp t = .error e) :
    e = .assertFailed "inserted" := by
  cases hc : setContains (Transcript.comparator planCmp) t (c.getTranscripts t.testName) <;>
    simp [addTranscript, hc, assertThat] at h
  exact h.symm

/-- Adding transcripts in turn stops at the first one already there: from a corpus that holds one of them, or for a
list that holds one twice, it fails at the `assert` of `addTranscript`. -/
theorem foldlM_addTranscript_dup : ∀ (ts : List Transcript) (c : Corpus),
    (∃ x ∈ ts, x ∈ c.getTranscripts x.testName) ∨ ¬ ts.Nodup →
    ts.foldlM (fun c t => c.addTranscript planCmp t) c = .error (.assertFailed "inserted")
  | [], _, h => by simp at h
  | t :: ts, c, h => by
    rw [List.foldlM_cons]
    cases ha : c.addTranscript planCmp t with
    | error e => rw [addTranscript_error ha]; rfl
    | ok c' =>
      rw [ok_bind]
      refine foldlM_addTranscript_dup ts c' ?_
      have hmem := fun x => (mem_addTranscript ha x.testName x).mpr
      rcases h with ⟨x, hx, hxc⟩ | hdup
      · rcases List.mem_cons.mp hx with rfl | hx
        · rw [addTranscript_of_mem hxc] at ha
          cases ha
        · exact .inl ⟨x, hx, hmem x (.inr hxc)⟩
      · rcases not_and_or.mp (List.nodup_cons.not.mp hdup) with ht | hdup
        · exact .inl ⟨t, not_not.mp ht, hmem t (.inl ⟨rfl, rfl⟩)⟩
        · exact .inr hdup

/-- A corpus file that holds a transcript twice is not read: `Corpus::Corpus(path)` stops at `assert(inserted)` in
`Corpus::addTranscript` when it reads the second copy, for readable transcripts of which only the last may lack both
parameters and variables, with fuel for the text's length. -/
theorem load_duplicate {fuel : Nat} {ts : List Transcript} (hr : ∀ t ∈ ts, t.Readable hash)
    (hsep : ∀ t ∈ ts.dropLast, t.plan.params ≠ [] ∨ t.vars ≠ [])
    (hf : (printEach (Transcript.print hash) ts false).1.length < fuel) (hdup : ¬ ts.Nodup) :
    load planCmp hash fuel (some (printEach (Transcript.print hash) ts false).1) = .error (.assertFailed "inserted") := by
  rw [load, IStream.ofList, scanWhitespace_mk, dropWhile_printEach hr, loadLoop_print ts fuel empty hr hsep hf,
    foldlM_addTranscript_dup ts empty (.inr hdup)]
  rfl

theorem load_duplicate_paramTranscript :
    (∀ t ∈ [paramTranscript, paramTranscript], t.Readable fun _ => 1) ∧
      (∀ t ∈ [paramTranscript, paramTranscript].dropLast, t.plan.params ≠ [] ∨ t.vars ≠ []) ∧
      (printEach (Transcript.print fun _ => 1) [paramTranscript, paramTranscript] false).1.length < 200 ∧
      ¬ [paramTranscript, paramTranscript].Nodup ∧
      load (Plan.comparator fun _ => 0) (fun _ => 1) 200
        (some (printEach (Transcript.print fun _ => 1) [paramTranscript, paramTranscript] false).1) =
        .error (.assertFailed "inserted") :=
  have hr : ∀ t ∈ [paramTranscript, paramTranscript], t.Readable fun _ => 1 := by decide
  have hsep : ∀ t ∈ [paramTranscript, paramTranscript].dropLast, t.plan.params ≠ [] ∨ t.vars ≠ [] := by decide
  have hf : (printEach (Transcript.print fun _ => 1) [paramTranscript, paramTranscript] false).1.length < 200 := by
    decide
  have hdup : ¬ [paramTranscript, paramTranscript].Nodup := by simp
  ⟨hr, hsep, hf, hdup, load_duplicate hr hsep hf hdup⟩

/-- A corpus file written by hand, with blank lines and indentation that `Corpus::save` does not write and a comment
after more whitespace: it reads as `noteCorpus`. -/
def handText : List Char :=
  "\n  #### transcript: t 0x1\nparam: x = 7\n  check: y = #t\n\n#### transcript: u (manual)\n#    seed\n".toList

theorem load_handText :
    load (Plan.comparator fun _ => 0) (fun _ => 1) 200 (some handText) = .ok { noteCorpus with dirty := false } := rfl

/-- Whatever the file holds, every transcript of a corpus that `Corpus::Corpus(path)` reads is well formed: it has a
test name, named parameters and variables, comments that read back, and, unless it is manual, a plan whose hash is
neither `0` nor `ULLONG_MAX`. -/
theorem load_wellFormed {fuel : Nat} {file : Option (List Char)} {c : Corpus}
    (h : load planCmp hash fuel file = .ok c) : ∀ t ∈ c.all, t.WellFormed hash := by
  obtain ⟨c', -, hw, rfl⟩ := load_spec h
  exact hw

theorem load_wellFormed_handText :
    load (Plan.comparator fun _ => 0) (fun _ => 1) 200 (some handText) = .ok { noteCorpus with dirty := false } ∧
      paramTranscript ∈ ({ noteCorpus with dirty := false } : Corpus).all ∧ paramTranscript.WellFormed fun _ => 1 :=
  have hl := load_handText
  have hm : paramTranscript ∈ ({ noteCorpus with dirty := false } : Corpus).all := by decide
  ⟨hl, hm, load_wellFormed hl _ hm⟩

/-- Saving a corpus that `Corpus::Corpus(path)` read, and reading the text back, gives the same corpus, for every
transitive order of plans, when its values are printable and only its last transcript may lack both parameters and
variables; the loops need fuel for the length of the text. -/
theorem load_save_load {fuel fuel' : Nat} (hT : planCmp.Transitive) {file : Option (List Char)} {c : Corpus}
    (h : load planCmp hash fuel file = .ok c)
    (hp : ∀ t ∈ c.all, (∀ b ∈ t.plan.params, b.2.printable = true) ∧ ∀ x ∈ t.vars, x.2.1.printable = true)
    (hsep : ∀ t ∈ c.all.dropLast, t.plan.params ≠ [] ∨ t.vars ≠ []) (hf : (c.text hash).length < fuel') :
    load planCmp hash fuel' (some (c.text hash)) = .ok c := by
  obtain ⟨c', hc, hw, rfl⟩ := load_spec h
  have ho := hc.ordered hT
  exact Ordered.load_text (c := { c' with dirty := false }) hT ⟨ho.keys, ho.sets⟩
    (fun t ht => (hw t ht).readable (hp t ht).1 (hp t ht).2) hsep hf

theorem load_save_load_handText :
    (Plan.comparator fun _ => 0).Transitive ∧
      load (Plan.comparator fun _ => 0) (fun _ => 1) 200 (some handText) = .ok { noteCorpus with dirty := false } ∧
      (∀ t ∈ ({ noteCorpus with dirty := false } : Corpus).all,
        (∀ b ∈ t.plan.params, b.2.printable = true) ∧ ∀ x ∈ t.vars, x.2.1.printable = true) ∧
      (∀ t ∈ ({ noteCorpus with dirty := false } : Corpus).all.dropLast, t.plan.params ≠ [] ∨ t.vars ≠ []) ∧
      (({ noteCorpus with dirty := false } : Corpus).text fun _ => 1).length < 200 ∧
      load (Plan.comparator fun _ => 0) (fun _ => 1) 200
        (some (({ noteCorpus with dirty := false } : Corpus).text fun _ => 1)) = .ok { noteCorpus with dirty := false } :=
  have hT := Plan.comparator_transitive fun _ => 0
  have hl := load_handText
  have hp : ∀ t ∈ ({ noteCorpus with dirty := false } : Corpus).all,
      (∀ b ∈ t.plan.params, b.2.printable = true) ∧ ∀ x ∈ t.vars, x.2.1.printable = true := by decide
  have hsep : ∀ t ∈ ({ noteCorpus with dirty := false } : Corpus).all.dropLast, t.plan.params ≠ [] ∨ t.vars ≠ [] := by
    decide
  have hf : (({ noteCorpus with dirty := false } : Corpus).text fun _ => 1).length < 200 := by decide
  ⟨hT, hl, hp, hsep, hf, load_save_load hT hl hp hsep hf⟩

end Corpus

end Photesthesis
