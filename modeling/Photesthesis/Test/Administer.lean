import Photesthesis.Corpus.Order
import Photesthesis.Corpus.Hash
import Photesthesis.Grammar.Populate
import Photesthesis.Test.Stabilize

/-!
# Administering a test

`Test::administer` reads its settings from the environment, then either initialises the corpus of its test from the
k-path coverings of its seed specs, or checks the corpus it finds and expands it with random plans. A plan is run by
`runPlanAndStabilize`; for a deterministic SUT that is one run, which leaves its transcript, its trajectory and
whether an invariant failed (`RunResult`; `runPlanAndStabilize_const`). A plan's run is kept
(`runPlanAndMaybeExpandCorpus`) when its trajectory is new to the call's map of trajectories and its transcript new
to the corpus.

The check loop is a range-`for` over the test's `std::set` of transcripts, during which `checkTranscript` may call
`updateTranscript` on that very set. When it erases the element the loop is on, the loop reads it and increments an
iterator to it, which C++ leaves undefined (`checkCorpus_stale_undefined`). A check limited by
`PHOTESTHESIS_TEST_HASH` leaves the other plans' transcripts unchecked, and random expansion can then add a second
transcript of such a plan (`administer_duplicates_plan`). The initialisation runs the coverings of `k = 2`, ..., `K - 1`
for a k-path length `K`, so none for `K ≤ 2` (`administer_kPathLength_two`).

What the check does guarantee, on a set of transcripts of the test with one per plan and a transitive order of plans
(`SetOfTest`): a check that returns has left the corpus as it was, and every transcript it did not skip is its plan's
run; conversely, a corpus of such transcripts goes through the check unchanged (`administer_check_idempotent`). The
order and the names hold of every reachable corpus, the distinct plans do not (`SetOfTest.of_reachable`).
What a run keeps is new: its trajectory is no key of the map before, and its transcript is not in the corpus
(`runPlanAndMaybeExpandCorpus_novel`). The verbose output and the counts kept only for it are not modelled.
-/

namespace Photesthesis

/-- The order of `uint64_t`. -/
def UInt64.comparator : Comparator UInt64 where
  lt a b := decide (a < b)
  irrefl _ := by simp
  eq_of_not_lt {a b} h₁ h₂ := by
    simp only [decide_eq_false_iff_not, UInt64.not_lt, UInt64.le_def] at h₁ h₂
    exact UInt64.eq_of_toBitVec_eq (BitVec.le_antisymm h₂ h₁)

theorem UInt64.ne_add_one (x : UInt64) : x ≠ x + 1 := fun h => by
  have h₁ : x.toNat = (x.toNat + 1) % 2 ^ 64 := congrArg UInt64.toNat h
  have h₂ : x.toNat < 2 ^ 64 := x.toNat_lt_size
  omega

/-- With the same outcome on every run, `runPlanAndStabilize` makes two runs and leaves the mask as it was. -/
theorem runPlanAndStabilize_const (xxHash64 : List UInt8 → UInt64) (o : RunOutcome) (gCov8BitLen retries : Nat)
    (mask : List UInt8) : runPlanAndStabilize xxHash64 (fun _ => o) gCov8BitLen retries mask = (mask, .ok 2) := by
  simp [runPlanAndStabilize]

/-! ## The test and its runs -/

/-- What a run of a plan by a deterministic SUT leaves: the variables `check` and `track` recorded in order, the
trajectory `mTrajectory`, and `mFailed`. -/
structure RunResult where
  vars : List Var
  trajectory : UInt64
  failed : Bool

/-- A `Test`: the grammar `mGram`, the test's name, the seed specs `mSeedSpecs`, and the SUT's `run()`. -/
structure Test where
  gram : Grammar
  testName : Symbol
  seedSpecs : List ParamSpecs
  run : Plan → RunResult

/-- What a `Test` changes: the corpus `mCorp` and the random engine `mGen`. -/
structure TestState (σ : Type) where
  corp : Corpus
  gen : σ

/-- `Test::Trajectories`, a `std::map<Trajectory, Transcript>` listed in key order. -/
abbrev Trajectories := List (UInt64 × Transcript)

/-- The settings `Test::administer` and `Test::checkCorpus` read from the environment, when they are set:
`PHOTESTHESIS_EXPANSION_STEPS`, `_KPATH_LENGTH`, `_RANDOM_DEPTH` and `_RANDOM_SEED` replace the arguments or seed the
engine, and `PHOTESTHESIS_TEST_HASH` limits the check to the plan of that hash. -/
structure Env where
  expansionSteps : Option Nat
  kPathLength : Option Nat
  randomDepth : Option Nat
  randomSeed : Option Nat
  testHash : Option UInt64

/-- No setting in the environment. -/
def Env.unset : Env := ⟨none, none, none, none, none⟩

namespace Test

variable (T : Test) (planCmp : Comparator Plan) (xxHash64 : List Char → UInt64)

/-- The transcript the run of a plan records, `mTranscript`. -/
def transcriptOf (plan : Plan) : Transcript := ⟨plan, (T.run plan).vars⟩

@[simp] theorem transcriptOf_plan (plan : Plan) : (T.transcriptOf plan).plan = plan := rfl

@[simp] theorem transcriptOf_testName (plan : Plan) : (T.transcriptOf plan).testName = plan.testName := rfl

/-- `Test::runPlanAndMaybeExpandCorpus`: the run is kept, in the map and in the corpus, when the map has no entry of
its trajectory and the corpus does not hold its transcript; whether it was kept. -/
def runPlanAndMaybeExpandCorpus (plan : Plan) (trajs : Trajectories) (c : Corpus) :
    Except Fault (Bool × Trajectories × Corpus) :=
  if !(trajs.map Prod.fst).contains (T.run plan).trajectory &&
      !setContains (Transcript.comparator planCmp) (T.transcriptOf plan) (c.getTranscripts plan.testName) then do
    let c ← c.addTranscript planCmp (T.transcriptOf plan)
    pure (true, mapEmplace UInt64.comparator (T.run plan).trajectory (T.transcriptOf plan) trajs, c)
  else pure (false, trajs, c)

/-- A run is kept only when its trajectory is no key of the map and its transcript is not in the corpus; it is then
emplaced in the map and added to the corpus. A run that is not kept changes neither. -/
theorem runPlanAndMaybeExpandCorpus_novel {plan : Plan} {trajs : Trajectories} {c : Corpus}
    {r : Bool × Trajectories × Corpus} (h : T.runPlanAndMaybeExpandCorpus planCmp plan trajs c = .ok r) :
    r = (false, trajs, c) ∨ r.1 = true ∧ (T.run plan).trajectory ∉ trajs.map Prod.fst ∧
      T.transcriptOf plan ∉ c.getTranscripts plan.testName ∧
      r.2.1 = mapEmplace UInt64.comparator (T.run plan).trajectory (T.transcriptOf plan) trajs ∧
      c.addTranscript planCmp (T.transcriptOf plan) = .ok r.2.2 := by
  unfold runPlanAndMaybeExpandCorpus at h
  split at h
  · next hnew =>
    obtain ⟨c', hc', h⟩ := bind_eq_ok.mp h
    cases h
    simp only [Bool.and_eq_true, Bool.not_eq_true', setContains_eq_false] at hnew
    exact .inr ⟨rfl, by simpa using hnew.1, hnew.2, rfl, hc'⟩
  · cases h
    exact .inl rfl

/-- The failures after the run of a plan: its hash is added when an invariant failed. -/
def noteFailure (plan : Plan) (failures : List UInt64) : List UInt64 :=
  if (T.run plan).failed then failures ++ [plan.getHashCode xxHash64] else failures

/-! ## Initialising the corpus -/

/-- The body of the loop over the plans in `Test::initializeCorpusFromKPaths`. -/
def initStep (acc : Trajectories × List UInt64 × Corpus) (plan : Plan) :
    Except Fault (Trajectories × List UInt64 × Corpus) := do
  let (_, trajs, c) ← T.runPlanAndMaybeExpandCorpus planCmp plan acc.1 acc.2.2
  pure (trajs, T.noteFailure xxHash64 plan acc.2.1, c)

/-- `Test::initializeCorpusFromKPaths`: for each seed spec, and each `k` from `2` while `k < kPathLength`, every plan
of the k-path coverings is run; the failures, and the corpus. -/
def initializeCorpusFromKPaths (fuel kPathLength : Nat) (c : Corpus) : Except Fault (List UInt64 × Corpus) := do
  let (_, failures, c) ← T.seedSpecs.foldlM (fun acc spec =>
    (List.range' 2 (kPathLength - 2)).foldlM (fun acc k => do
      let plans ← T.gram.populatePlansFromKPathCoverings k fuel T.testName spec
      plans.foldlM (T.initStep planCmp xxHash64) acc) acc) ([], [], c)
  pure (failures, c)

/-! ## Checking the corpus -/

/-- `Test::checkTranscript`: the plan is run, and when its transcript differs (`Transcript::operator==`) it replaces
the stored one. -/
def checkTranscript (ts : Transcript) (c : Corpus) : Except Fault Corpus :=
  if ts.beq (T.transcriptOf ts.plan) then pure c else c.updateTranscript planCmp (T.transcriptOf ts.plan)

/-- With `PHOTESTHESIS_TEST_HASH` set, a transcript of a plan of another hash is skipped. -/
def skips (testHash : Option UInt64) (ts : Transcript) : Bool :=
  match testHash with
  | some h => ts.plan.getHashCode xxHash64 != h
  | none => false

/-- The element after `x` in a set listed in order, which `++` on an iterator to `x` reaches. -/
def setNext {α : Type} (c : Comparator α) (x : α) (l : List α) : Option α := l.find? (c.lt x)

/-- The body of the range-`for` of `Test::checkCorpus` on the transcript `ts`: it is checked, its hash noted when an
invariant failed, and the run emplaced in the map. Reading `ts` after `updateTranscript` erased it is undefined, and
so is `++` on the loop's iterator. -/
def checkBody (testHash : Option UInt64) (ts : Transcript) (acc : List UInt64 × Trajectories × Corpus) :
    Except Fault (List UInt64 × Trajectories × Corpus) :=
  if skips xxHash64 testHash ts then pure acc else do
    let c ← T.checkTranscript planCmp ts acc.2.2
    if ts ∉ c.getTranscripts T.testName then throw (.undefined "use of an erased element of std::set")
    pure (T.noteFailure xxHash64 ts.plan acc.1,
      mapEmplace UInt64.comparator (T.run ts.plan).trajectory (T.transcriptOf ts.plan) acc.2.1, c)

/-- The range-`for` of `Test::checkCorpus` from the transcript its iterator is on, for at most `fuel` elements. The
set is the one `getTranscripts` gives for the test, as the body leaves it. -/
def checkLoop (testHash : Option UInt64) : Nat → Transcript → List UInt64 × Trajectories × Corpus →
    Except Fault (List UInt64 × Trajectories × Corpus)
  | 0, _, _ => throw .outOfFuel
  | fuel + 1, ts, acc => do
    let acc ← T.checkBody planCmp xxHash64 testHash ts acc
    match setNext (Transcript.comparator planCmp) ts (acc.2.2.getTranscripts T.testName) with
    | none => pure acc
    | some ts' => checkLoop testHash fuel ts' acc

/-- `Test::checkCorpus`: the failures, the map of trajectories the loop filled, and the corpus. -/
def checkCorpus (fuel : Nat) (testHash : Option UInt64) (c : Corpus) :
    Except Fault (List UInt64 × Trajectories × Corpus) :=
  match c.getTranscripts T.testName with
  | [] => pure ([], [], c)
  | ts :: _ => T.checkLoop planCmp xxHash64 testHash fuel ts ([], [], c)

/-! ## Expanding the corpus -/

section Expand

variable {σ : Type} (uniform : σ → Nat → Nat × σ)

/-- `pickUniform(gen, elts)` on a `std::map`: `std::advance` from `cbegin()` by the draw. -/
def pickUniformMap {κ ν : Type} (g : σ) (elts : List (κ × ν)) : Except Fault ((κ × ν) × σ) :=
  if elts.isEmpty then .error (.thrown "pick_uniform on empty map") else
  match elts[(uniform g elts.length).1]? with
  | some x => .ok (x, (uniform g elts.length).2)
  | none => .error (.undefined "std::advance past the end of a std::map")

/-- A step of the loop of `Test::randomlyExpandCorpus`: the spec of a seed, or of a plan of the map, a random plan
of it, and its run. -/
def expandStep (depth : Nat) (acc : Trajectories × List UInt64 × TestState σ) :
    Except Fault (Trajectories × List UInt64 × TestState σ) := do
  let (spec, g) ← if acc.1.isEmpty then Grammar.pickUniform uniform acc.2.2.gen T.seedSpecs else do
    let (e, g) ← pickUniformMap uniform acc.2.2.gen acc.1
    let spec ← e.2.plan.getParamSpecs
    pure (spec, g)
  let (plan, g) ← T.gram.randomlyPopulatePlan uniform T.testName spec g depth
  let (_, trajs, c) ← T.runPlanAndMaybeExpandCorpus planCmp plan acc.1 acc.2.2.corp
  pure (trajs, T.noteFailure xxHash64 plan acc.2.1, ⟨c, g⟩)

/-- `Test::randomlyExpandCorpus`, from the map of trajectories of the check: the failures, and the state. -/
def randomlyExpandCorpus (trajs : Trajectories) (steps depth : Nat) (st : TestState σ) :
    Except Fault (List UInt64 × TestState σ) :=
  if steps = 0 then pure ([], st) else do
    let (_, failures, st) ← (List.range steps).foldlM (fun acc _ => T.expandStep planCmp xxHash64 uniform depth acc)
      (trajs, [], st)
    pure (failures, st)

/-- `Test::administer`, with `seed n` the engine `seedWithValue(n)` makes and `fuel` the model's fuel for its loops:
the failures, and the state. -/
def administer (seed : Nat → σ) (fuel : Nat) (env : Env) (expansionSteps kPathLength randomDepth : Nat)
    (st : TestState σ) : Except Fault (List UInt64 × TestState σ) :=
  let st : TestState σ := match env.randomSeed with
    | some n => ⟨st.corp, seed n⟩
    | none => st
  if (st.corp.getTranscripts T.testName).isEmpty then do
    let (failures, c) ← T.initializeCorpusFromKPaths planCmp xxHash64 fuel (env.kPathLength.getD kPathLength) st.corp
    pure (failures, ⟨c, st.gen⟩)
  else do
    let (failures, trajs, c) ← T.checkCorpus planCmp xxHash64 fuel env.testHash st.corp
    if !failures.isEmpty then pure (failures, ⟨c, st.gen⟩) else
    T.randomlyExpandCorpus planCmp xxHash64 uniform trajs (env.expansionSteps.getD expansionSteps)
      (env.randomDepth.getD randomDepth) ⟨c, st.gen⟩

end Expand

/-! ## A check that erases the transcript it is on -/

section Stale

variable {T : Test} (planCmp : Comparator Plan) (xxHash64 : List Char → UInt64) {c : Corpus} {ts : Transcript}
  {pre rest : List Transcript}

/-- The check of a transcript that differs from its plan's run, and that no other transcript of the test shares a
plan with, replaces it in the set by the run's. -/
theorem checkTranscript_replaces (hc : c.getTranscripts T.testName = pre ++ ts :: rest)
    (hname : ts.testName = T.testName) (hpre : ∀ t ∈ pre, t.plan ≠ ts.plan)
    (hrest : ∀ t ∈ rest, t.plan ≠ ts.plan) (hstale : ts ≠ T.transcriptOf ts.plan) :
    ∃ c', T.checkTranscript planCmp ts c = .ok c' ∧ c'.getTranscripts T.testName =
      setInsert (Transcript.comparator planCmp) (T.transcriptOf ts.plan) (pre ++ rest) := by
  have hb : ts.beq (T.transcriptOf ts.plan) = false := by
    rw [← Bool.not_eq_true, Transcript.beq_iff_eq]
    exact hstale
  have hc' : c.getTranscripts ts.plan.testName = pre ++ ts :: rest := by
    show c.getTranscripts ts.testName = _
    rw [hname, hc]
  have herase : (pre ++ ts :: rest).eraseP (fun t => t.plan == ts.plan) = pre ++ rest := by
    rw [List.eraseP_append_right _ (fun t ht => by simpa using hpre t ht), List.eraseP_cons_of_pos (by simp)]
  have hfresh : T.transcriptOf ts.plan ∉ pre ++ rest := fun h => by
    rcases List.mem_append.mp h with h | h
    exacts [hpre _ h rfl, hrest _ h rfl]
  refine ⟨c.putTranscript planCmp (T.transcriptOf ts.plan) (pre ++ rest), ?_,
    by rw [Corpus.getTranscripts_putTranscript]; exact if_pos hname.symm⟩
  simp [checkTranscript, hb, Corpus.updateTranscript, hc', herase, setContains_eq_false.mpr hfresh, assertThat]

/-- The check of such a transcript erases it, and the loop then uses the erased element. -/
theorem checkBody_stale (hc : c.getTranscripts T.testName = pre ++ ts :: rest) (hname : ts.testName = T.testName)
    (hpre : ∀ t ∈ pre, t.plan ≠ ts.plan) (hrest : ∀ t ∈ rest, t.plan ≠ ts.plan)
    (hstale : ts ≠ T.transcriptOf ts.plan) {testHash : Option UInt64} (hpass : skips xxHash64 testHash ts = false)
    (fs : List UInt64) (trajs : Trajectories) :
    T.checkBody planCmp xxHash64 testHash ts (fs, trajs, c) =
      .error (.undefined "use of an erased element of std::set") := by
  obtain ⟨c', hcheck, hset⟩ := checkTranscript_replaces planCmp hc hname hpre hrest hstale
  have hts : ts ∉ c'.getTranscripts T.testName := by
    rw [hset, mem_setInsert, not_or, List.mem_append, not_or]
    exact ⟨hstale, fun h => hpre ts h rfl, fun h => hrest ts h rfl⟩
  simp [checkBody, hpass, hcheck, hts, throw, throwThe, MonadExceptOf.throw]

/-- The check of a corpus whose first transcript of the test is such a transcript uses the erased element. -/
theorem checkCorpus_stale_undefined (hc : c.getTranscripts T.testName = ts :: rest) (hname : ts.testName = T.testName)
    (hrest : ∀ t ∈ rest, t.plan ≠ ts.plan) (hstale : ts ≠ T.transcriptOf ts.plan) {testHash : Option UInt64}
    (hpass : skips xxHash64 testHash ts = false) (fuel : Nat) :
    T.checkCorpus planCmp xxHash64 (fuel + 1) testHash c =
      .error (.undefined "use of an erased element of std::set") := by
  have hb := checkBody_stale planCmp xxHash64 (show c.getTranscripts T.testName = [] ++ ts :: rest from hc) hname
    (by simp) hrest hstale hpass [] []
  simp only [checkCorpus, hc, checkLoop, hb]
  rfl

end Stale

/-! ## A test of the literal grammar -/

/-- The plan of the test of `litGrammar`: `n` bound to `(lit #t)`, the one value of `lit`. -/
def litPlan : Plan := ⟨Grammar.litTest, false, [], [(Grammar.litParam, .ofList [.sym Grammar.litRule, .bool true])]⟩

/-- The test of `litGrammar` with the one seed spec `n` from `lit`, against a SUT that records nothing, has the
trajectory `0`, and fails no invariant. -/
def quietTest : Test :=
  ⟨Grammar.litGrammar, Grammar.litTest, [[(Grammar.litParam, Grammar.litRule)]], fun _ => ⟨[], 0, false⟩⟩

/-- The transcript of `litPlan` by an earlier SUT, which checked a variable `n`. -/
def staleTranscript : Transcript := ⟨litPlan, [(Grammar.litParam, .nil, false)]⟩

/-- The corpus of the stale transcript alone. -/
def staleCorpus : Corpus := ⟨[(Grammar.litTest, [staleTranscript])], false⟩

@[simp] theorem litPlan_testName : litPlan.testName = Grammar.litTest := rfl

@[simp] theorem quietTest_gram : quietTest.gram = Grammar.litGrammar := rfl

@[simp] theorem quietTest_testName : quietTest.testName = Grammar.litTest := rfl

@[simp] theorem quietTest_run (plan : Plan) : quietTest.run plan = ⟨[], 0, false⟩ := rfl

@[simp] theorem staleTranscript_plan : staleTranscript.plan = litPlan := rfl

@[simp] theorem staleCorpus_getTranscripts : staleCorpus.getTranscripts Grammar.litTest = [staleTranscript] := rfl

/-- The random plan of `litGrammar`'s seed spec is `litPlan`, when the draw of one choice is `0`. -/
theorem litGrammar_randomlyPopulatePlan {σ : Type} {uniform : σ → Nat → Nat × σ}
    (hu : ∀ g, (uniform g 1).1 = 0) (g : σ) :
    Grammar.litGrammar.randomlyPopulatePlan uniform Grammar.litTest [(Grammar.litParam, Grammar.litRule)] g 1 =
      .ok (litPlan, (uniform g 1).2) := by
  have hp : Grammar.litGrammar.getActiveProductions Grammar.litRule 1 ⟨[(Grammar.litParam, Grammar.litRule)], []⟩ =
      .ok [⟨[.lit 0 (.bool true)], []⟩] := rfl
  simp [Grammar.randomlyPopulatePlan, Grammar.randomValueFromRule, hp, Grammar.pickUniform, hu, Grammar.randomAtom]
  rfl

/-- The quiet run of `litPlan`, which recorded nothing, comes before the stale transcript, whatever the order of
plans. -/
theorem transcriptOf_litPlan_lt (planCmp : Comparator Plan) :
    (Transcript.comparator planCmp).lt (quietTest.transcriptOf litPlan) staleTranscript = true := by
  simp [Transcript.comparator, Comparator.prod, planCmp.irrefl, transcriptOf, staleTranscript, Comparator.lex, lexLt]

/-! ## A test of the choice grammar -/

/-- The two plans of the test of `choiceGrammar`: `n` bound to `(a (b #t))` and to `(a #f)`. -/
def choicePlanB : Plan :=
  ⟨Grammar.litTest, false, [], [(Grammar.litParam, .ofList [.sym Grammar.choiceA, .ofList [.sym Grammar.choiceB, .bool true]])]⟩

def choicePlanF : Plan := ⟨Grammar.litTest, false, [], [(Grammar.litParam, .ofList [.sym Grammar.choiceA, .bool false])]⟩

/-- The test of `choiceGrammar` with the one seed spec `n` from `a`, against a SUT that checks each parameter's value,
fails no invariant, and whose trajectory is the length of the text its plan feeds to the hasher. -/
def echoTest : Test :=
  ⟨Grammar.choiceGrammar, Grammar.litTest, [[(Grammar.litParam, Grammar.choiceA)]],
    fun p => ⟨p.params.map fun x => (x.1, x.2, false), p.getHashCode fun s => s.length.toUInt64, false⟩⟩

/-- The runs of both plans, in the order of plans. -/
def echoRuns : List Transcript := [echoTest.transcriptOf choicePlanB, echoTest.transcriptOf choicePlanF]

/-- The corpus of the runs of both plans. -/
def echoCorpus : Corpus := ⟨[(Grammar.litTest, echoRuns)], false⟩

/-- The corpus of the run of `choicePlanF` alone. -/
def echoCorpusF : Corpus := ⟨[(Grammar.litTest, [echoTest.transcriptOf choicePlanF])], false⟩

/-! ## The check phase is undefined on a stale transcript -/

/-- `administer(0, k, d)` on a corpus whose first transcript of the test differs from its plan's run, and shares
its plan with no other transcript of the test, is undefined: the check replaces the transcript while its range-`for`
is on it. -/
theorem administer_check_stale_undefined {σ : Type} (T : Test) (planCmp : Comparator Plan)
    (xxHash64 : List Char → UInt64) (uniform : σ → Nat → Nat × σ) (seed : Nat → σ) (fuel k d : Nat) (env : Env)
    (st : TestState σ) {ts : Transcript} {rest : List Transcript} (hc : st.corp.getTranscripts T.testName = ts :: rest)
    (hname : ts.testName = T.testName) (hrest : ∀ t ∈ rest, t.plan ≠ ts.plan) (hstale : ts ≠ T.transcriptOf ts.plan)
    (hpass : skips xxHash64 env.testHash ts = false) :
    T.administer planCmp xxHash64 uniform seed (fuel + 1) env 0 k d st =
      .error (.undefined "use of an erased element of std::set") := by
  have hcheck := checkCorpus_stale_undefined planCmp xxHash64 hc hname hrest hstale hpass fuel
  unfold administer
  cases env.randomSeed <;> simp [hc, hcheck] <;> rfl

/-- The stale transcript alone in a corpus, checked with no `PHOTESTHESIS_TEST_HASH`. -/
theorem staleCorpus_check_undefined :
    staleCorpus.getTranscripts quietTest.testName = staleTranscript :: [] ∧
      staleTranscript.testName = quietTest.testName ∧ (∀ t ∈ ([] : List Transcript), t.plan ≠ staleTranscript.plan) ∧
      staleTranscript ≠ quietTest.transcriptOf staleTranscript.plan ∧
      skips (fun _ => 0) Env.unset.testHash staleTranscript = false ∧
      quietTest.administer Plan.fieldOrder (fun _ => 0) (fun (g : Unit) _ => (0, g)) (fun _ => ()) 1 Env.unset 0 3 2
        ⟨staleCorpus, ()⟩ = .error (.undefined "use of an erased element of std::set") :=
  ⟨rfl, rfl, by simp, by decide, rfl, administer_check_stale_undefined quietTest Plan.fieldOrder (fun _ => 0)
    (fun (g : Unit) _ => (0, g)) (fun _ => ()) 0 3 2 Env.unset ⟨staleCorpus, ()⟩ rfl rfl (by simp) (by decide)
    rfl⟩

/-! ## What a check that returns does guarantee -/

/-- In a set listed in order, `++` on an iterator to `x` reaches the element after `x` in the list. -/
theorem setNext_sorted {α : Type} {c : Comparator α} (hT : c.Transitive) {pre post : List α} {x : α}
    (hs : (pre ++ x :: post).Pairwise fun a b => c.lt a b = true) :
    setNext c x (pre ++ x :: post) = post.head? := by
  rw [List.pairwise_append, List.pairwise_cons] at hs
  have hpre : pre.find? (c.lt x) = none := List.find?_eq_none.mpr fun y hy => by
    simp [hT.asymm (hs.2.2 y hy x (List.mem_cons_self _ _))]
  cases post with
  | nil => simp [setNext, hpre, c.irrefl]
  | cons y post => simp [setNext, hpre, c.irrefl, hs.2.1.1 y (List.mem_cons_self _ _)]

/-- The test's set as a `std::set` keeps it: listed in order, of transcripts of the test, one per plan. -/
structure SetOfTest (T : Test) (planCmp : Comparator Plan) (l : List Transcript) : Prop where
  sorted : l.Pairwise fun a b => (Transcript.comparator planCmp).lt a b = true
  names : ∀ t ∈ l, t.testName = T.testName
  plans : l.Pairwise fun a b => a.plan ≠ b.plan

/-- A reachable corpus's set of the test is such a set as soon as its plans are distinct: the order and the names
are invariants of the corpus, the plans are not (`addTranscript` only refuses a transcript that is there). -/
theorem SetOfTest.of_reachable {T : Test} {planCmp : Comparator Plan} (hT : planCmp.Transitive) {c : Corpus}
    (hc : c.Reachable planCmp) (hplans : (c.getTranscripts T.testName).Pairwise fun a b => a.plan ≠ b.plan) :
    SetOfTest T planCmp (c.getTranscripts T.testName) :=
  ⟨hc.sorted hT _, fun _ ht => hc.wf.testName_of_mem ht, hplans⟩

/-- Every transcript of the list that the check does not skip is its plan's run. -/
def Approved (T : Test) (xxHash64 : List Char → UInt64) (testHash : Option UInt64) (l : List Transcript) : Prop :=
  ∀ t ∈ l, skips xxHash64 testHash t = false → t = T.transcriptOf t.plan

section Approve

variable {T : Test} (planCmp : Comparator Plan) (xxHash64 : List Char → UInt64) (testHash : Option UInt64)
  {c : Corpus}

/-- No other transcript of such a set has the plan of `ts`. -/
theorem SetOfTest.plan_ne {pre post : List Transcript} {ts : Transcript}
    (hset : SetOfTest T planCmp (pre ++ ts :: post)) :
    (∀ t ∈ pre, t.plan ≠ ts.plan) ∧ ∀ t ∈ post, t.plan ≠ ts.plan := by
  have h := hset.plans
  rw [List.pairwise_append, List.pairwise_cons] at h
  exact ⟨fun t ht => h.2.2 t ht ts (List.mem_cons_self _ _), fun t ht => (h.2.1.1 t ht).symm⟩

/-- The body on a transcript of such a set returns only when the transcript is skipped or is its plan's run, and
then leaves the corpus as it was. -/
theorem checkBody_ok {pre post : List Transcript} {ts : Transcript} (hc : c.getTranscripts T.testName = pre ++ ts :: post)
    (hset : SetOfTest T planCmp (pre ++ ts :: post)) {fs : List UInt64} {trajs : Trajectories}
    {acc : List UInt64 × Trajectories × Corpus} (h : T.checkBody planCmp xxHash64 testHash ts (fs, trajs, c) = .ok acc) :
    acc.2.2 = c ∧ (skips xxHash64 testHash ts = false → ts = T.transcriptOf ts.plan) := by
  by_cases hskip : skips xxHash64 testHash ts = true
  · simp only [checkBody, hskip, if_true] at h
    cases h
    exact ⟨rfl, by simp [hskip]⟩
  by_cases heq : ts = T.transcriptOf ts.plan
  · have hmem : ts ∈ c.getTranscripts T.testName := by simp [hc]
    simp [checkBody, hskip, checkTranscript, Transcript.beq_iff_eq.mpr heq, hmem, pure, Except.pure] at h
    exact ⟨by rw [← h], fun _ => heq⟩
  · rw [checkBody_stale planCmp xxHash64 hc (hset.names ts (by simp)) (hset.plan_ne planCmp).1
      (hset.plan_ne planCmp).2 heq (by simpa using hskip)] at h
    cases h

/-- The body on a transcript of the corpus that is skipped or is its plan's run returns, and leaves the corpus. -/
theorem checkBody_of_approved {ts : Transcript} (hmem : ts ∈ c.getTranscripts T.testName)
    (hts : skips xxHash64 testHash ts = false → ts = T.transcriptOf ts.plan) (fs : List UInt64) (trajs : Trajectories) :
    ∃ acc, T.checkBody planCmp xxHash64 testHash ts (fs, trajs, c) = .ok acc ∧ acc.2.2 = c := by
  cases hskip : skips xxHash64 testHash ts
  · simp [checkBody, hskip, checkTranscript, Transcript.beq_iff_eq.mpr (hts hskip), hmem, pure, Except.pure]
  · simp [checkBody, hskip, pure, Except.pure]

variable {planCmp} (hT : planCmp.Transitive)
include hT

/-- The loop from a transcript of such a set returns only when every transcript from it on is skipped or is its
plan's run, and then leaves the corpus as it was. -/
theorem checkLoop_ok : ∀ fuel (pre : List Transcript) ts post (fs : List UInt64) (trajs : Trajectories)
    (r : List UInt64 × Trajectories × Corpus), c.getTranscripts T.testName = pre ++ ts :: post →
    SetOfTest T planCmp (pre ++ ts :: post) → T.checkLoop planCmp xxHash64 testHash fuel ts (fs, trajs, c) = .ok r →
    r.2.2 = c ∧ Approved T xxHash64 testHash (ts :: post)
  | 0, _, _, _, _, _, _, _, _, h => by cases h
  | fuel + 1, pre, ts, post, fs, trajs, r, hc, hset, h => by
    obtain ⟨⟨fs', trajs', c'⟩, hbody, h⟩ := bind_eq_ok.mp h
    obtain ⟨hc', hts⟩ := checkBody_ok planCmp xxHash64 testHash hc hset hbody
    simp only at hc'
    rw [hc', hc, setNext_sorted (Transcript.comparator_transitive hT) hset.sorted] at h
    cases post with
    | nil =>
      cases h
      exact ⟨rfl, by simpa [Approved] using hts⟩
    | cons y post =>
      obtain ⟨hr, hap⟩ := checkLoop_ok fuel (pre ++ [ts]) y post fs' trajs' r (by simp [hc])
        (by simpa using hset) h
      exact ⟨hr, List.forall_mem_cons.mpr ⟨hts, hap⟩⟩

/-- The loop from a transcript of such a set, every one of which from it on is skipped or is its plan's run,
returns with more fuel than there are transcripts after it, and leaves the corpus. -/
theorem checkLoop_of_approved : ∀ fuel (pre : List Transcript) ts post (fs : List UInt64) (trajs : Trajectories),
    c.getTranscripts T.testName = pre ++ ts :: post → SetOfTest T planCmp (pre ++ ts :: post) →
    Approved T xxHash64 testHash (ts :: post) → post.length < fuel →
    ∃ r, T.checkLoop planCmp xxHash64 testHash fuel ts (fs, trajs, c) = .ok r ∧ r.2.2 = c
  | 0, _, _, _, _, _, _, _, _, h => absurd h (Nat.not_lt_zero _)
  | fuel + 1, pre, ts, post, fs, trajs, hc, hset, hap, hfuel => by
    obtain ⟨⟨fs', trajs', c'⟩, hbody, hc'⟩ := checkBody_of_approved planCmp xxHash64 testHash
      (by rw [hc]; simp : ts ∈ c.getTranscripts T.testName) (hap ts (List.mem_cons_self _ _)) fs trajs
    simp only at hc'
    rw [hc'] at hbody
    rw [checkLoop, hbody, ok_bind]
    simp only [hc, setNext_sorted (Transcript.comparator_transitive hT) hset.sorted]
    cases post with
    | nil => exact ⟨_, rfl, rfl⟩
    | cons y post =>
      exact checkLoop_of_approved fuel (pre ++ [ts]) y post fs' trajs' (by simp [hc]) (by simpa using hset)
        (List.forall_mem_cons.mp hap).2 (by simp at hfuel; omega)

/-- A check of such a set returns only when every transcript it does not skip is its plan's run, and then leaves
the corpus as it was. -/
theorem checkCorpus_ok {fuel : Nat} (hset : SetOfTest T planCmp (c.getTranscripts T.testName))
    {r : List UInt64 × Trajectories × Corpus} (h : T.checkCorpus planCmp xxHash64 fuel testHash c = .ok r) :
    r.2.2 = c ∧ Approved T xxHash64 testHash (c.getTranscripts T.testName) := by
  unfold checkCorpus at h
  split at h
  · next hc =>
    cases h
    exact ⟨rfl, by simp [hc, Approved]⟩
  · next ts post hc =>
    rw [hc] at hset ⊢
    exact checkLoop_ok xxHash64 testHash hT fuel [] ts post [] [] r hc hset h

/-- A check of such a set whose transcripts are skipped or are their plans' runs returns when the fuel covers the
set, and leaves the corpus. -/
theorem checkCorpus_of_approved {fuel : Nat} (hset : SetOfTest T planCmp (c.getTranscripts T.testName))
    (hap : Approved T xxHash64 testHash (c.getTranscripts T.testName))
    (hfuel : (c.getTranscripts T.testName).length ≤ fuel) :
    ∃ r, T.checkCorpus planCmp xxHash64 fuel testHash c = .ok r ∧ r.2.2 = c := by
  unfold checkCorpus
  split
  · exact ⟨_, rfl, rfl⟩
  · next ts post hc =>
    rw [hc] at hset hap hfuel
    exact checkLoop_of_approved xxHash64 testHash hT fuel [] ts post [] [] hc hset hap (by simp at hfuel; omega)

end Approve

/-- With no expansion steps, `administer` on a corpus in which the test has transcripts is its check. -/
theorem administer_eq_checkCorpus {σ : Type} (T : Test) (planCmp : Comparator Plan) (xxHash64 : List Char → UInt64)
    (uniform : σ → Nat → Nat × σ) (seed : Nat → σ) (fuel k d : Nat) (env : Env) (st : TestState σ)
    (hne : st.corp.getTranscripts T.testName ≠ []) (hsteps : env.expansionSteps.getD 0 = 0) :
    ∃ g : σ, T.administer planCmp xxHash64 uniform seed fuel env 0 k d st =
      (fun r => (r.1, (⟨r.2.2, g⟩ : TestState σ))) <$> T.checkCorpus planCmp xxHash64 fuel env.testHash st.corp := by
  have hcheck : ∀ g : σ, (do
      let (failures, trajs, c) ← T.checkCorpus planCmp xxHash64 fuel env.testHash st.corp
      if !failures.isEmpty then pure (failures, (⟨c, g⟩ : TestState σ)) else
      T.randomlyExpandCorpus planCmp xxHash64 uniform trajs 0 (env.randomDepth.getD d) ⟨c, g⟩) =
        (fun r => (r.1, (⟨r.2.2, g⟩ : TestState σ))) <$> T.checkCorpus planCmp xxHash64 fuel env.testHash st.corp := by
    intro g
    rcases T.checkCorpus planCmp xxHash64 fuel env.testHash st.corp with e | ⟨fs, trajs, c⟩
    · rfl
    · cases fs <;> rfl
  unfold administer
  rw [hsteps]
  cases env.randomSeed with
  | none => exact ⟨st.gen, by simpa [hne] using hcheck st.gen⟩
  | some n => exact ⟨seed n, by simpa [hne] using hcheck (seed n)⟩

/-- `administer(0, k, d)` on a corpus whose test's set is a `std::set` of transcripts of the test with one per plan,
for a transitive order of plans: when it returns, it returns the corpus it was given, and every transcript of the
test that the check does not skip is its plan's run. Conversely, on such a corpus it returns, with the corpus
unchanged, when the model's fuel covers the set; so a second call after one that returned changes nothing either. -/
theorem administer_check_idempotent {σ : Type} (T : Test) {planCmp : Comparator Plan} (xxHash64 : List Char → UInt64)
    (uniform : σ → Nat → Nat × σ) (seed : Nat → σ) (fuel k d : Nat) (env : Env) (st : TestState σ)
    (hT : planCmp.Transitive) (hset : SetOfTest T planCmp (st.corp.getTranscripts T.testName))
    (hne : st.corp.getTranscripts T.testName ≠ []) (hsteps : env.expansionSteps.getD 0 = 0) :
    (∀ fs st', T.administer planCmp xxHash64 uniform seed fuel env 0 k d st = .ok (fs, st') →
      st'.corp = st.corp ∧ Approved T xxHash64 env.testHash (st.corp.getTranscripts T.testName)) ∧
    (Approved T xxHash64 env.testHash (st.corp.getTranscripts T.testName) →
      (st.corp.getTranscripts T.testName).length ≤ fuel →
      ∃ fs st', T.administer planCmp xxHash64 uniform seed fuel env 0 k d st = .ok (fs, st') ∧ st'.corp = st.corp) := by
  obtain ⟨g, hadm⟩ := administer_eq_checkCorpus T planCmp xxHash64 uniform seed fuel k d env st hne hsteps
  refine ⟨fun fs st' h => ?_, fun hap hfuel => ?_⟩
  · rw [hadm] at h
    obtain ⟨r, hr, hst⟩ := map_eq_ok.mp h
    cases hst
    exact checkCorpus_ok xxHash64 env.testHash hT hset hr
  · obtain ⟨r, hr, hc⟩ := checkCorpus_of_approved xxHash64 env.testHash hT hset hap hfuel
    exact ⟨r.1, ⟨r.2.2, g⟩, by rw [hadm, hr]; rfl, hc⟩

/-- The runs of both plans of the choice grammar's test, with the order of plans for sizes `0`: each is its plan's
run, so the check returns and leaves the corpus as it was. -/
theorem echoCorpus_check_idempotent :
    (Plan.comparator fun _ => 0).Transitive ∧ SetOfTest echoTest (Plan.comparator fun _ => 0) echoRuns ∧
    echoRuns ≠ [] ∧ Env.unset.expansionSteps.getD 0 = 0 ∧ Approved echoTest (fun _ => 0) Env.unset.testHash echoRuns ∧
    ((∀ fs st', echoTest.administer (Plan.comparator fun _ => 0) (fun _ => 0) (fun (g : Unit) _ => (0, g))
        (fun _ => ()) 2 Env.unset 0 3 2 ⟨echoCorpus, ()⟩ = .ok (fs, st') →
      st'.corp = echoCorpus ∧ Approved echoTest (fun _ => 0) Env.unset.testHash echoRuns) ∧
    (Approved echoTest (fun _ => 0) Env.unset.testHash echoRuns → echoRuns.length ≤ 2 →
      ∃ fs st', echoTest.administer (Plan.comparator fun _ => 0) (fun _ => 0) (fun (g : Unit) _ => (0, g))
        (fun _ => ()) 2 Env.unset 0 3 2 ⟨echoCorpus, ()⟩ = .ok (fs, st') ∧ st'.corp = echoCorpus)) := by
  have hset : SetOfTest echoTest (Plan.comparator fun _ => 0) echoRuns := ⟨by decide, by decide, by decide⟩
  have hap : Approved echoTest (fun _ => 0) Env.unset.testHash echoRuns := by
    intro t ht _
    simp only [echoRuns, List.mem_cons, List.mem_singleton, List.not_mem_nil, or_false] at ht
    rcases ht with rfl | rfl <;> rfl
  exact ⟨Plan.comparator_transitive _, hset, List.cons_ne_nil _ _, rfl, hap,
    administer_check_idempotent echoTest (fun _ => 0) (fun (g : Unit) _ => (0, g)) (fun _ => ()) 2 3 2 Env.unset
      ⟨echoCorpus, ()⟩ (Plan.comparator_transitive _) hset (List.cons_ne_nil _ _) rfl⟩

/-! ## A check limited to one hash lets a plan have two transcripts -/

/-- The check limited to a hash other than `litPlan`'s skips the stale transcript. -/
theorem staleCorpus_check_skips (planCmp : Comparator Plan) (xxHash64 : List Char → UInt64) (fuel : Nat) :
    quietTest.checkCorpus planCmp xxHash64 (fuel + 1) (some (litPlan.getHashCode xxHash64 + 1)) staleCorpus =
      .ok ([], [], staleCorpus) := by
  simp [checkCorpus, checkLoop, checkBody, skips, UInt64.ne_add_one, setNext, Comparator.irrefl]
  rfl

/-- The quiet run of `litPlan` is new to an empty map and to the stale corpus, and is kept. -/
theorem staleCorpus_keeps_litPlan (planCmp : Comparator Plan) :
    quietTest.runPlanAndMaybeExpandCorpus planCmp litPlan [] staleCorpus = .ok (true,
      [(0, quietTest.transcriptOf litPlan)], staleCorpus.putTranscript planCmp (quietTest.transcriptOf litPlan)
        [staleTranscript]) := by
  simp [runPlanAndMaybeExpandCorpus, Corpus.addTranscript, setContains, transcriptOf_litPlan_lt planCmp,
    staleCorpus, Corpus.getTranscripts, assertThat, mapEmplace]

/-- `administer(1, k, 1)` with `PHOTESTHESIS_TEST_HASH` set to another hash than `litPlan`'s, on the corpus of its
one stale transcript: the check skips it, the expansion generates `litPlan` again, and its run is kept, so the test
has two transcripts of `litPlan`. The draw of one choice is `0`, as the distribution's range makes it. -/
theorem administer_duplicates_plan {σ : Type} (planCmp : Comparator Plan) (xxHash64 : List Char → UInt64)
    (uniform : σ → Nat → Nat × σ) (hu : ∀ g, (uniform g 1).1 = 0) (seed : Nat → σ) (fuel k : Nat) (g : σ) :
    staleCorpus.getTranscripts Grammar.litTest = [staleTranscript] ∧
    ∃ st', quietTest.administer planCmp xxHash64 uniform seed (fuel + 1)
        ⟨none, none, none, none, some (litPlan.getHashCode xxHash64 + 1)⟩ 1 k 1 ⟨staleCorpus, g⟩ = .ok ([], st') ∧
      staleTranscript ∈ st'.corp.getTranscripts Grammar.litTest ∧
      quietTest.transcriptOf litPlan ∈ st'.corp.getTranscripts Grammar.litTest ∧
      staleTranscript ≠ quietTest.transcriptOf litPlan ∧ staleTranscript.plan = (quietTest.transcriptOf litPlan).plan := by
  refine ⟨rfl, ⟨staleCorpus.putTranscript planCmp (quietTest.transcriptOf litPlan) [staleTranscript],
    (uniform (uniform g 1).2 1).2⟩, ?_, by simp [Corpus.getTranscripts_putTranscript],
    by simp [Corpus.getTranscripts_putTranscript], by decide, rfl⟩
  have hpick : Grammar.pickUniform uniform g quietTest.seedSpecs =
      .ok ([(Grammar.litParam, Grammar.litRule)], (uniform g 1).2) := by
    simp [Grammar.pickUniform, hu, quietTest]
  simp [administer, staleCorpus_check_skips, randomlyExpandCorpus, expandStep, hpick,
    litGrammar_randomlyPopulatePlan hu, staleCorpus_keeps_litPlan, noteFailure, List.range_succ]

/-- The scenario with the engine of one state and the draw `0`. -/
theorem administer_duplicates_plan_unit :
    (∀ g : Unit, ((fun (g : Unit) (_ : Nat) => (0, g)) g 1).1 = 0) ∧
    (staleCorpus.getTranscripts Grammar.litTest = [staleTranscript] ∧
    ∃ st', quietTest.administer Plan.fieldOrder (fun _ => 0) (fun (g : Unit) _ => (0, g)) (fun _ => ()) 1
        ⟨none, none, none, none, some (litPlan.getHashCode (fun _ => 0) + 1)⟩ 1 3 1 ⟨staleCorpus, ()⟩ = .ok ([], st') ∧
      staleTranscript ∈ st'.corp.getTranscripts Grammar.litTest ∧
      quietTest.transcriptOf litPlan ∈ st'.corp.getTranscripts Grammar.litTest ∧
      staleTranscript ≠ quietTest.transcriptOf litPlan ∧ staleTranscript.plan = (quietTest.transcriptOf litPlan).plan) :=
  ⟨fun _ => rfl, administer_duplicates_plan Plan.fieldOrder (fun _ => 0) (fun (g : Unit) _ => (0, g)) (fun _ => rfl)
    (fun _ => ()) 0 3 ()⟩

/-! ## No initial plan for a k-path length of two -/

/-- A run on a corpus with no transcript of its test, from an empty map, is kept. -/
theorem runPlanAndMaybeExpandCorpus_fresh (T : Test) (planCmp : Comparator Plan) {plan : Plan} {c : Corpus}
    (hc : c.getTranscripts plan.testName = []) : T.runPlanAndMaybeExpandCorpus planCmp plan [] c =
      .ok (true, [((T.run plan).trajectory, T.transcriptOf plan)],
        c.putTranscript planCmp (T.transcriptOf plan) []) := by
  simp [runPlanAndMaybeExpandCorpus, Corpus.addTranscript, hc, setContains, assertThat, mapEmplace]

/-- `administer(steps, K, d)` with `K ≤ 2` on a corpus with no transcript of the test runs no plan: it returns no
failure and changes nothing. Yet `litGrammar`'s seed spec has a plan for `k = 2`, whose run on such a corpus would
be kept. -/
theorem administer_kPathLength_two {σ : Type} (T : Test) (planCmp : Comparator Plan) (xxHash64 : List Char → UInt64)
    (uniform : σ → Nat → Nat × σ) (seed : Nat → σ) (fuel steps kPathLength d : Nat) (st : TestState σ)
    (hK : kPathLength ≤ 2) (hempty : st.corp.getTranscripts T.testName = []) :
    T.administer planCmp xxHash64 uniform seed fuel Env.unset steps kPathLength d st = .ok ([], st) ∧
    (∀ fuel, Grammar.litGrammar.populatePlansFromKPathCoverings 2 (fuel + 2) Grammar.litTest
      [(Grammar.litParam, Grammar.litRule)] = .ok [litPlan]) ∧
    (∀ c : Corpus, c.getTranscripts Grammar.litTest = [] →
      quietTest.runPlanAndMaybeExpandCorpus planCmp litPlan [] c = .ok (true,
        [(0, quietTest.transcriptOf litPlan)], c.putTranscript planCmp (quietTest.transcriptOf litPlan) [])) := by
  refine ⟨?_, fun _ => rfl, fun c hc => runPlanAndMaybeExpandCorpus_fresh quietTest planCmp hc⟩
  have hr : List.range' 2 (kPathLength - 2) = [] := by simp; omega
  have hf : ∀ specs : List ParamSpecs, specs.foldlM (fun acc _ => pure acc) ([], [], st.corp) =
      (pure ([], [], st.corp) : Except Fault (Trajectories × List UInt64 × Corpus)) := fun specs => by
    induction specs <;> simp [*]
  simp [administer, Env.unset, hempty, initializeCorpusFromKPaths, hr, hf]
  rfl

/-- `administer(steps, 2, d)` of the quiet test on the empty corpus. -/
theorem administer_kPathLength_two_empty :
    2 ≤ 2 ∧ Corpus.empty.getTranscripts quietTest.testName = [] ∧
    (quietTest.administer Plan.fieldOrder (fun _ => 0) (fun (g : Unit) _ => (0, g)) (fun _ => ()) 3 Env.unset 1 2 2
        ⟨Corpus.empty, ()⟩ = .ok ([], ⟨Corpus.empty, ()⟩) ∧
      (∀ fuel, Grammar.litGrammar.populatePlansFromKPathCoverings 2 (fuel + 2) Grammar.litTest
        [(Grammar.litParam, Grammar.litRule)] = .ok [litPlan]) ∧
      (∀ c : Corpus, c.getTranscripts Grammar.litTest = [] →
        quietTest.runPlanAndMaybeExpandCorpus Plan.fieldOrder litPlan [] c = .ok (true,
          [(0, quietTest.transcriptOf litPlan)], c.putTranscript Plan.fieldOrder (quietTest.transcriptOf litPlan) []))) :=
  ⟨le_refl 2, rfl, administer_kPathLength_two quietTest Plan.fieldOrder (fun _ => 0) (fun (g : Unit) _ => (0, g))
    (fun _ => ()) 3 1 2 2 ⟨Corpus.empty, ()⟩ (le_refl 2) rfl⟩

end Test

end Photesthesis
