import Photesthesis.Test.Administer
import Photesthesis.Corpus.Load

/-!
# Checking the plans of one hash

`PHOTESTHESIS_TEST_HASH` limits the check phase of `Test::administer` to the transcripts whose plan has that hash
(`Test::checkCorpus`). The check then re-runs only plans of that hash: every other transcript of every test is kept
as it was, in its place, and every trajectory and every failure the check records is of a plan of that hash
(`Test.checkCorpus_selected`). The variable is read by `getEnvNum` with `std::strtoull(p, nullptr, 0)`, which takes
the `0x` word a corpus file's header shows for a plan as the plan's hash (`Env.ofEnviron_testHash`,
`Test.checkCorpus_testHash_header`); the failing hashes `Test::reportFailures` prints, in base 16 without `0x`, read
back as themselves only below `10` (`Env.ofEnviron_failureText`).

The check is proved by a step lemma for the body of its range-`for` (`Test.Selected.checkBody`), which rests on
`updateTranscript` replacing a transcript by one of the same plan, and an induction over the loop
(`Test.Selected.checkLoop`).
-/

namespace Photesthesis

/-! ## Numbers -/

theorem uint64_ofNat_toNat (x : UInt64) : UInt64.ofNat x.toNat = x :=
  UInt64.toNat.inj (UInt64.toNat_ofNat_of_lt (UInt64.toNat_lt_size x))

section Hex

variable {b : Nat}

/-- Digits below `b ≤ 10` read in base `b` from `x` and in base 16 from `y ≥ x`: the base-`b` number stays at most
the base-16 one, and below it once that one is `10` or more. -/
theorem foldl_digits_lt (hb : b ≤ 10) : ∀ (P : List Char) (x y : Nat),
    (∀ c ∈ P, ((digitValue true c).filter (· < b)).isSome = true) → x ≤ y → (10 ≤ y → x < y) →
    P.foldl (fun n c => n * b + (((digitValue true c).filter (· < b)).getD 0)) x ≤ digitsValue true y P ∧
      (10 ≤ digitsValue true y P →
        P.foldl (fun n c => n * b + (((digitValue true c).filter (· < b)).getD 0)) x < digitsValue true y P)
  | [], _, _, _, hxy, hlt => ⟨hxy, hlt⟩
  | c :: P, x, y, hP, hxy, hlt => by
    obtain ⟨v, hv, hvb⟩ : ∃ v, digitValue true c = some v ∧ v < b := by
      have := hP c (List.mem_cons_self _ _)
      cases h : digitValue true c with
      | none => simp [h] at this
      | some v => exact ⟨v, rfl, by simpa [h, Option.filter] using this⟩
    have hstep := foldl_digits_lt hb P (x * b + v) (y * 16 + v) (fun c' hc' => hP c' (List.mem_cons_of_mem _ hc'))
    simp only [List.foldl_cons, digitsValue_cons, hv, Option.filter_some, hvb, decide_True, if_true,
      Option.getD_some, show numBase true = 16 from rfl]
    have hxb : x * b ≤ y * 10 := Nat.mul_le_mul hxy hb
    refine hstep (by omega) (fun h10 => ?_)
    omega

/-- A base-16 number is at least what its first digits make. -/
theorem le_digitsValue : ∀ (R : List Char) (y : Nat), y ≤ digitsValue true y R
  | [], _ => le_refl _
  | c :: R, y => by
    rw [digitsValue_cons]
    exact le_trans (by simp [numBase]; omega) (le_digitsValue R _)

/-- The digits of a number in base 16, read in base `b ≤ 10` up to the first that is no digit of that base, make a
smaller number once it is `10` or more. -/
theorem takeWhile_digits_lt (hb : b ≤ 10) {n : Nat} (hn : 10 ≤ n) :
    ((Nat.toDigits 16 n).takeWhile fun c => ((digitValue true c).filter (· < b)).isSome).foldl
      (fun m c => m * b + (((digitValue true c).filter (· < b)).getD 0)) 0 < n := by
  have hval : digitsValue true 0 (Nat.toDigits 16 n) = n := (toDigits_spec true n).2.2
  obtain ⟨hle, hlt⟩ := foldl_digits_lt hb ((Nat.toDigits 16 n).takeWhile fun c =>
    ((digitValue true c).filter (· < b)).isSome) 0 0
    (fun c hc => List.mem_takeWhile_imp (p := fun c => ((digitValue true c).filter (· < b)).isSome) hc) le_rfl (by omega)
  rw [← List.takeWhile_append_dropWhile (fun c => ((digitValue true c).filter (· < b)).isSome) (Nat.toDigits 16 n),
    digitsValue, List.foldl_append] at hval
  cases hR : (Nat.toDigits 16 n).dropWhile fun c => ((digitValue true c).filter (· < b)).isSome with
  | nil =>
    rw [hR, List.foldl_nil] at hval
    simp only [digitsValue] at hlt
    exact lt_of_lt_of_eq (hlt (by rw [hval]; exact hn)) hval
  | cons c R =>
    rw [hR, List.foldl_cons] at hval
    have hmono := le_digitsValue R (digitsValue true 0 ((Nat.toDigits 16 n).takeWhile fun c =>
      ((digitValue true c).filter (· < b)).isSome) * numBase true + (digitValue true c).getD 0)
    simp only [digitsValue, show numBase true = 16 from rfl] at hval hmono hle
    omega

/-- `std::strtoull(p, nullptr, 0)` reads the base-16 digits of a number of `10` or more, written without `0x`, as a
smaller number: the decimal number of its first decimal digits, or the octal one after a leading `0`. -/
theorem strtoull_hexDigits_lt {n : Nat} (hn : 10 ≤ n) : strtoull (Nat.toDigits 16 n) < n := by
  obtain ⟨hne, hdig, -⟩ := toDigits_spec true n
  rw [show numBase true = 16 from rfl] at hne hdig
  obtain ⟨d, ds, hds⟩ := List.exists_cons_of_ne_nil hne
  have hd : (digitValue true d).isSome = true := hdig d (by simp [hds])
  have hsign : takeSign (List.dropWhile isSpace (d :: ds)) = (false, d :: ds) := by
    rw [List.dropWhile_cons, if_neg (by simp [isSpace_of_digitValue hd])]
    unfold takeSign
    split
    · next heq => cases heq; exact absurd hd (by decide)
    · next heq => cases heq; exact absurd hd (by decide)
    · rfl
  have h8 := takeWhile_digits_lt (b := 8) (by omega) hn
  have h10 := takeWhile_digits_lt (b := 10) (by omega) hn
  have hcap : ∀ m k : Nat, (if 18446744073709551615 < m then 18446744073709551615
      else if false = true then k else m) ≤ m := fun m k => by
    simp only [Bool.false_eq_true, if_false]
    split_ifs <;> omega
  unfold strtoull
  rw [hds, hsign]
  dsimp only
  refine lt_of_le_of_lt (hcap _ _) ?_
  split
  · next x d' r heq =>
    have hx : (x == 'x' || x == 'X') = false := by
      have hxs : (digitValue true x).isSome = true := hdig x (by simp [hds, List.cons.inj heq])
      have h₁ : x ≠ 'x' := by rintro rfl; exact absurd hxs (by decide)
      have h₂ : x ≠ 'X' := by rintro rfl; exact absurd hxs (by decide)
      simp [h₁, h₂]
    simp only [hx, Bool.false_and, Bool.false_eq_true, if_false]
    rw [← hds]
    exact h8
  · rw [← hds]
    exact h8
  · rw [← hds]
    exact h10

theorem strtoull_toDigits_small : ∀ n < 10, strtoull (Nat.toDigits 16 n) = n := by decide

end Hex

/-! ## The environment -/

/-- `getEnvNum(evar, num)`: the variable's text, when `std::getenv` finds it in `environ`, read by
`std::strtoull(p, nullptr, 0)`. -/
def getEnvNum (environ : List Char → Option (List Char)) (evar : List Char) : Option Nat := (environ evar).map strtoull

/-- What `getEnvExpansionSteps`, `getEnvKPathLength`, `getEnvRandomDepth`, `getEnvRandomSeed` and `getEnvTestHash`
read for `Test::administer` and `Test::checkCorpus`. -/
def Env.ofEnviron (environ : List Char → Option (List Char)) : Env :=
  ⟨getEnvNum environ "PHOTESTHESIS_EXPANSION_STEPS".toList, getEnvNum environ "PHOTESTHESIS_KPATH_LENGTH".toList,
    getEnvNum environ "PHOTESTHESIS_RANDOM_DEPTH".toList, getEnvNum environ "PHOTESTHESIS_RANDOM_SEED".toList,
    (getEnvNum environ "PHOTESTHESIS_TEST_HASH".toList).map UInt64.ofNat⟩

/-- `PHOTESTHESIS_TEST_HASH` set to the word the corpus file's header shows for a plan that is not manual, `0x` and
its hash in base 16, reads as that hash. -/
theorem Env.ofEnviron_testHash {environ : List Char → Option (List Char)} {hash : Plan → UInt64} {t : Transcript}
    (hm : t.plan.isManual = false) (he : environ "PHOTESTHESIS_TEST_HASH".toList = some (t.hashWord hash)) :
    (Env.ofEnviron environ).testHash = some (hash t.plan) := by
  show ((environ "PHOTESTHESIS_TEST_HASH".toList).map strtoull).map UInt64.ofNat = _
  rw [he]
  simp [Transcript.hashWord, hm, strtoull_hex (UInt64.toNat_lt_size _), uint64_ofNat_toNat]

/-- What `Test::reportFailures` writes for each failing plan's hash: `std::hex << f`, its digits in base 16 without
`0x`. -/
def failureText (f : UInt64) : List Char := Nat.toDigits 16 f.toNat

/-- A failing hash that `Test::reportFailures` prints, set as `PHOTESTHESIS_TEST_HASH`, reads back as that hash only
when it is below `10`: `std::strtoull(p, nullptr, 0)` takes the text as decimal, or as octal after a leading `0`, and
stops at its first letter. -/
theorem Env.ofEnviron_failureText {environ : List Char → Option (List Char)} {f : UInt64}
    (he : environ "PHOTESTHESIS_TEST_HASH".toList = some (failureText f)) :
    (Env.ofEnviron environ).testHash = some f ↔ f.toNat < 10 := by
  show ((environ "PHOTESTHESIS_TEST_HASH".toList).map strtoull).map UInt64.ofNat = _ ↔ _
  rw [he, Option.map_some', Option.map_some', Option.some.injEq, failureText]
  constructor
  · intro h
    by_contra hf
    have hlt := strtoull_hexDigits_lt (Nat.le_of_not_lt hf)
    have hval := congrArg UInt64.toNat h
    rw [UInt64.toNat_ofNat_of_lt (lt_trans hlt (UInt64.toNat_lt_size f))] at hval
    omega
  · intro hf
    rw [strtoull_toDigits_small _ hf, uint64_ofNat_toNat]

/-- The environment of a user who copied the failing hash `1a` that `Test::reportFailures` printed. -/
def failureEnviron (v : List Char) : Option (List Char) :=
  if v = "PHOTESTHESIS_TEST_HASH".toList then some (failureText 26) else none

theorem ofEnviron_failureText_26 :
    failureEnviron "PHOTESTHESIS_TEST_HASH".toList = some (failureText 26) ∧
      ((Env.ofEnviron failureEnviron).testHash = some 26 ↔ (26 : UInt64).toNat < 10) :=
  have he : failureEnviron "PHOTESTHESIS_TEST_HASH".toList = some (failureText 26) := by decide
  ⟨he, Env.ofEnviron_failureText he⟩

/-! ## Keeping the transcripts of other plans -/

section Filter

variable {α : Type} (q : α → Bool)

theorem filter_setInsert {c : Comparator α} {x : α} (hx : q x = false) :
    ∀ {l : List α}, (setInsert c x l).filter q = l.filter q
  | [] => by simp [setInsert, hx]
  | y :: l => by
    unfold setInsert
    split_ifs <;> simp [List.filter_cons, hx, filter_setInsert hx]

theorem filter_eraseP {p : α → Bool} : ∀ {l : List α}, (∀ x ∈ l, p x = true → q x = false) →
    (l.eraseP p).filter q = l.filter q
  | [], _ => rfl
  | y :: l, h => by
    by_cases hy : p y = true
    · simp [List.eraseP_cons, hy, h y (List.mem_cons_self _ _) hy, List.filter_cons]
    · simp only [List.eraseP_cons, hy, Bool.false_eq_true, cond_false, List.filter_cons]
      rw [filter_eraseP fun x hx => h x (List.mem_cons_of_mem _ hx)]

end Filter

namespace Corpus

variable {planCmp : Comparator Plan}

/-- Two corpora agree on the transcripts whose plans `q` keeps: every test's set has the same such transcripts, in
the same order. -/
def AgreeOn (q : Plan → Bool) (c c' : Corpus) : Prop :=
  ∀ k, (c'.getTranscripts k).filter (fun t => q t.plan) = (c.getTranscripts k).filter (fun t => q t.plan)

theorem AgreeOn.refl (q : Plan → Bool) (c : Corpus) : AgreeOn q c c := fun _ => rfl

theorem AgreeOn.trans {q : Plan → Bool} {c₁ c₂ c₃ : Corpus} (h₁ : AgreeOn q c₁ c₂) (h₂ : AgreeOn q c₂ c₃) :
    AgreeOn q c₁ c₃ := fun k => (h₂ k).trans (h₁ k)

/-- `updateTranscript` replaces a transcript by one of the same plan, so it keeps the transcripts of every plan
`q` keeps when `q` drops that plan. -/
theorem agreeOn_updateTranscript {q : Plan → Bool} {c c' : Corpus} {ts : Transcript} (hq : q ts.plan = false)
    (h : c.updateTranscript planCmp ts = .ok c') : AgreeOn q c c' := by
  obtain ⟨_, -, h⟩ := bind_eq_ok.mp h
  obtain ⟨_, -, h⟩ := bind_eq_ok.mp h
  cases h
  intro k
  rw [getTranscripts_putTranscript]
  split
  · next hk =>
    subst hk
    rw [filter_setInsert (fun t : Transcript => q t.plan) hq, filter_eraseP (fun t : Transcript => q t.plan) fun t _ ht => show q t.plan = false by rw [eq_of_beq ht]; exact hq]
  · rfl

end Corpus

/-! ## The check limited to one hash -/

namespace Test

variable {T : Test} {planCmp : Comparator Plan} {xxHash64 : List Char → UInt64} {H : UInt64}

/-- What the check limited to the hash `H` has done from the corpus `c₀`: the transcripts of plans of other hashes
are as they were, and every trajectory and every failure it recorded is of a plan of hash `H`. -/
structure Selected (xxHash64 : List Char → UInt64) (H : UInt64) (c₀ : Corpus)
    (acc : List UInt64 × Trajectories × Corpus) : Prop where
  others : Corpus.AgreeOn (fun p => p.getHashCode xxHash64 != H) c₀ acc.2.2
  runs : ∀ e ∈ acc.2.1, e.2.plan.getHashCode xxHash64 = H
  failures : ∀ f ∈ acc.1, f = H

theorem Selected.start (c : Corpus) : Selected xxHash64 H c ([], [], c) :=
  ⟨Corpus.AgreeOn.refl _ c, fun _ h => absurd h (List.not_mem_nil _), fun _ h => absurd h (List.not_mem_nil _)⟩

/-- The check of a transcript of hash `H` keeps the corpus, or replaces the transcript by its plan's run. -/
theorem agreeOn_checkTranscript {ts : Transcript} {c c' : Corpus} (hH : ts.plan.getHashCode xxHash64 = H)
    (h : T.checkTranscript planCmp ts c = .ok c') : Corpus.AgreeOn (fun p => p.getHashCode xxHash64 != H) c c' := by
  unfold checkTranscript at h
  split at h
  · cases h
    exact Corpus.AgreeOn.refl _ c
  · exact Corpus.agreeOn_updateTranscript (by simp [hH]) h

/-- One turn of the check's range-`for` keeps what the check limited to `H` has done. -/
theorem Selected.checkBody {c₀ : Corpus} {ts : Transcript} {acc acc' : List UInt64 × Trajectories × Corpus}
    (hs : Selected xxHash64 H c₀ acc) (h : T.checkBody planCmp xxHash64 (some H) ts acc = .ok acc') :
    Selected xxHash64 H c₀ acc' := by
  unfold Test.checkBody at h
  split at h
  · cases h
    exact hs
  · next hskip =>
    have hH : ts.plan.getHashCode xxHash64 = H := by simpa [skips] using hskip
    obtain ⟨c, hc, h⟩ := bind_eq_ok.mp h
    split at h
    · cases h
    · cases h
      refine ⟨hs.others.trans (agreeOn_checkTranscript hH hc), fun e he => ?_, fun f hf => ?_⟩
      · rcases mem_mapEmplace he with rfl | he
        · exact hH
        · exact hs.runs e he
      · unfold noteFailure at hf
        split at hf
        · rcases List.mem_append.mp hf with hf | hf
          · exact hs.failures f hf
          · rw [List.mem_singleton.mp hf, hH]
        · exact hs.failures f hf

/-- The check's range-`for` keeps what the check limited to `H` has done, turn after turn. -/
theorem Selected.checkLoop {c₀ : Corpus} : ∀ (fuel : Nat) (ts : Transcript) {acc r : List UInt64 × Trajectories × Corpus},
    Selected xxHash64 H c₀ acc → T.checkLoop planCmp xxHash64 (some H) fuel ts acc = .ok r → Selected xxHash64 H c₀ r
  | 0, _, _, _, _, h => by cases h
  | fuel + 1, ts, acc, r, hs, h => by
    unfold Test.checkLoop at h
    obtain ⟨acc₁, h₁, h⟩ := bind_eq_ok.mp h
    have hs₁ := hs.checkBody h₁
    split at h
    · cases h
      exact hs₁
    · exact Selected.checkLoop fuel _ hs₁ h

/-- `Test::checkCorpus` with `PHOTESTHESIS_TEST_HASH` set to `H` re-runs only plans of hash `H`. -/
theorem checkCorpus_selected {fuel : Nat} {c : Corpus} {r : List UInt64 × Trajectories × Corpus}
    (h : T.checkCorpus planCmp xxHash64 fuel (some H) c = .ok r) : Selected xxHash64 H c r := by
  unfold checkCorpus at h
  split at h
  · cases h
    exact Selected.start c
  · exact (Selected.start c).checkLoop fuel _ h

/-- Setting `PHOTESTHESIS_TEST_HASH` to the word a corpus file's header shows for a transcript that is not manual
limits `Test::checkCorpus` to the plans of that transcript's hash: every other transcript of every test is kept as it
was, and every trajectory and every failure the check records is of a plan of that hash. -/
theorem checkCorpus_testHash_header {environ : List Char → Option (List Char)} {t : Transcript} {fuel : Nat}
    {c : Corpus} {r : List UInt64 × Trajectories × Corpus} (hm : t.plan.isManual = false)
    (he : environ "PHOTESTHESIS_TEST_HASH".toList = some (t.hashWord (Plan.getHashCode xxHash64)))
    (h : T.checkCorpus planCmp xxHash64 fuel (Env.ofEnviron environ).testHash c = .ok r) :
    Selected xxHash64 (t.plan.getHashCode xxHash64) c r := by
  rw [Env.ofEnviron_testHash hm he] at h
  exact checkCorpus_selected h


/-- The environment of a user who copied the hash `0x12` from a corpus file. -/
def hashEnviron (v : List Char) : Option (List Char) :=
  if v = "PHOTESTHESIS_TEST_HASH".toList then some "0x12".toList else none

/-- The corpus of both runs of the choice grammar's test, with the hash of a plan the length of its text: the header
of the run of `choicePlanF` shows `0x12`, and the check limited to it runs that plan and skips `choicePlanB`. -/
theorem checkCorpus_testHash_header_echo :
    (echoTest.transcriptOf choicePlanF).plan.isManual = false ∧
      hashEnviron "PHOTESTHESIS_TEST_HASH".toList =
        some ((echoTest.transcriptOf choicePlanF).hashWord (Plan.getHashCode fun s => s.length.toUInt64)) ∧
      echoTest.checkCorpus Plan.fieldOrder (fun s => s.length.toUInt64) 3 (Env.ofEnviron hashEnviron).testHash
        echoCorpus = .ok ([], [(18, echoTest.transcriptOf choicePlanF)], echoCorpus) ∧
      Selected (fun s => s.length.toUInt64) ((echoTest.transcriptOf choicePlanF).plan.getHashCode
        fun s => s.length.toUInt64) echoCorpus ([], [(18, echoTest.transcriptOf choicePlanF)], echoCorpus) := by
  have hm : (echoTest.transcriptOf choicePlanF).plan.isManual = false := rfl
  have he : hashEnviron "PHOTESTHESIS_TEST_HASH".toList =
      some ((echoTest.transcriptOf choicePlanF).hashWord (Plan.getHashCode fun s => s.length.toUInt64)) := by decide
  have h : echoTest.checkCorpus Plan.fieldOrder (fun s => s.length.toUInt64) 3 (Env.ofEnviron hashEnviron).testHash
      echoCorpus = .ok ([], [(18, echoTest.transcriptOf choicePlanF)], echoCorpus) := rfl
  exact ⟨hm, he, h, checkCorpus_testHash_header hm he h⟩

end Test

end Photesthesis
