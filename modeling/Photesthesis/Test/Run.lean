import Photesthesis.Test.Administer

/-!
# A run of a plan

`Test::runPlan` clears `mFailed`, starts the transcript of the plan, resets both trajectories, calls the SUT's
`run()`, and computes the trajectory (`Test::finiTrajectory`). The SUT reports what it sees through four calls
(`test.h`): `trace` feeds a value to the user trajectory, `check` records it in the transcript, `track` does both, and
`invariant` sets `mFailed` when the value it got is not the one expected. A run is given here by the calls the SUT
makes and the coverage counters it leaves (`Call`, `runPlan`).

The transcript of a run is the plan with the values `check` and `track` passed, in the order of the calls
(`RunState.foldl_call_transcript`).

A SUT that makes the same calls and covers the same counters on every run of a plan is a `Test` of the administer
model (`Test.ofSut`): `Test::runPlanAndStabilize` then runs each plan twice and keeps the stability mask
(`ofSut_runPlanAndStabilize`), so the run it leaves is the one `Test.run` gives.
-/

namespace Photesthesis

/-- A call the SUT's `run()` makes on the engine while a plan runs, with the variable's name and what it passes. -/
inductive Call where
  | trace (vn : Symbol) (seen : Value)
  | check (vn : Symbol) (seen : Value)
  | track (vn : Symbol) (seen : Value)
  | invariant (vn : Symbol) (expected got : Value)

/-- `Transcript::addTrackedVar` and `Transcript::addCheckedVar`: the variable goes last, with whether it was tracked. -/
def Transcript.addVar (t : Transcript) (var : Symbol) (val : Value) (tracked : Bool) : Transcript :=
  ⟨t.plan, t.vars ++ [(var, val, tracked)]⟩

/-- `Transcript::addTrackedVar`. -/
def Transcript.addTrackedVar (t : Transcript) (var : Symbol) (val : Value) : Transcript := t.addVar var val true

/-- `Transcript::addCheckedVar`. -/
def Transcript.addCheckedVar (t : Transcript) (var : Symbol) (val : Value) : Transcript := t.addVar var val false

/-- What the calls change on a `Test`: `mFailed`, `mTranscript`, and what was fed to `mUserTrajHasher`. -/
structure RunState where
  failed : Bool
  transcript : Transcript
  userHash : List Char

namespace RunState

/-- `Test::trace`: the name and value go to the user trajectory. -/
def trace (s : RunState) (vn : Symbol) (seen : Value) : RunState :=
  { s with userHash := addKeyValueToHash s.userHash vn seen }

/-- `Test::check`. -/
def check (s : RunState) (vn : Symbol) (seen : Value) : RunState :=
  { s with transcript := s.transcript.addCheckedVar vn seen }

/-- `Test::track`: `trace`, and the variable recorded as tracked. -/
def track (s : RunState) (vn : Symbol) (seen : Value) : RunState :=
  let s := s.trace vn seen
  { s with transcript := s.transcript.addTrackedVar vn seen }

/-- `Test::invariant`: `mFailed` is set when `expected == got` does not hold. The handler it then calls only prints. -/
def invariant (s : RunState) (_vn : Symbol) (expected got : Value) : RunState :=
  if !(expected.beq got) then { s with failed := true } else s

@[simp] theorem invariant_transcript (s : RunState) (vn : Symbol) (expected got : Value) :
    (s.invariant vn expected got).transcript = s.transcript := by
  unfold invariant
  split <;> rfl

@[simp] theorem invariant_userHash (s : RunState) (vn : Symbol) (expected got : Value) :
    (s.invariant vn expected got).userHash = s.userHash := by
  unfold invariant
  split <;> rfl

/-- One call of the SUT. -/
def call (s : RunState) : Call → RunState
  | .trace vn seen => s.trace vn seen
  | .check vn seen => s.check vn seen
  | .track vn seen => s.track vn seen
  | .invariant vn expected got => s.invariant vn expected got

end RunState

/-- The eight bytes of a `uint64_t` as `XXHash64::add(&x, sizeof(x))` reads them, least significant first, as on the
little-endian targets the sources are built for. -/
def UInt64.toBytes (x : UInt64) : List UInt8 := (List.range 8).map fun i => (x >>> (8 * i).toUInt64).toUInt8

section Run

variable (hashBytes : List UInt8 → UInt64) (hashText : List Char → UInt64)

/-- `Test::finiTrajectory`: the path trajectory of the classified and masked counters, and the hash of what was
traced, hashed together as the bytes of the two `uint64_t`. -/
def finiTrajectory (mask counters : List UInt8) (userHash : List Char) : UInt64 :=
  hashBytes (UInt64.toBytes (pathTrajectory hashBytes (finiPathTrajectory mask counters)) ++
    UInt64.toBytes (hashText userHash))

/-- The state `Test::runPlan` gives `run()`: `mFailed` cleared, `Transcript(plan)`, and a fresh user hasher. -/
def RunState.start (plan : Plan) : RunState := ⟨false, ⟨plan, []⟩, []⟩

/-- `Test::runPlan` under the stability mask `mask`, with the SUT making the calls `calls` and leaving the coverage
counters `counters`: the variables of `mTranscript`, `mTrajectory` and `mFailed`. -/
def runPlan (mask : List UInt8) (plan : Plan) (calls : List Call) (counters : List UInt8) : RunResult :=
  let s := calls.foldl RunState.call (RunState.start plan)
  ⟨s.transcript.vars, finiTrajectory hashBytes hashText mask counters s.userHash, s.failed⟩

/-- What `Test::runPlanAndStabilize` compares of a run: its counters and `mUserTrajectory`. -/
def runOutcome (plan : Plan) (calls : List Call) (counters : List UInt8) : RunOutcome :=
  ⟨counters, hashText (calls.foldl RunState.call (RunState.start plan)).userHash⟩

end Run

/-! ## What the calls record -/

/-- The variable a call records in the transcript: what `check` and `track` pass, with whether it was tracked. -/
def Call.var : Call → Option Var
  | .check vn seen => some (vn, seen, false)
  | .track vn seen => some (vn, seen, true)
  | _ => none

namespace RunState

theorem call_transcript (s : RunState) (c : Call) :
    (s.call c).transcript = ⟨s.transcript.plan, s.transcript.vars ++ c.var.toList⟩ := by
  cases c <;> simp [call, trace, check, track, Call.var, Transcript.addCheckedVar, Transcript.addTrackedVar,
    Transcript.addVar]

/-- The calls append the checked and tracked variables, in order. -/
theorem foldl_call_transcript : ∀ (calls : List Call) (s : RunState),
    (calls.foldl call s).transcript = ⟨s.transcript.plan, s.transcript.vars ++ calls.filterMap Call.var⟩
  | [], s => by simp
  | c :: calls, s => by
    rw [List.foldl_cons, foldl_call_transcript calls, call_transcript]
    cases h : c.var <;> simp [List.filterMap_cons, h]

end RunState

/-! ## A deterministic SUT -/

/-- A SUT that makes the same calls and covers the same counters on every run of a plan: for each plan, its calls and
its counters. -/
abbrev Sut := Plan → List Call × List UInt8

/-- The test of such a SUT, under the stability mask `mask`. -/
def Test.ofSut (gram : Grammar) (testName : Symbol) (seedSpecs : List ParamSpecs) (sut : Sut)
    (hashBytes : List UInt8 → UInt64) (hashText : List Char → UInt64) (mask : List UInt8) : Test :=
  ⟨gram, testName, seedSpecs, fun plan => runPlan hashBytes hashText mask plan (sut plan).1 (sut plan).2⟩

/-- For such a SUT, `Test::runPlanAndStabilize` runs a plan twice and keeps the mask, so the run it leaves is the one
of the test: its transcript is the test's transcript of the plan. -/
theorem ofSut_runPlanAndStabilize (gram : Grammar) (testName : Symbol) (seedSpecs : List ParamSpecs) (sut : Sut)
    (hashBytes : List UInt8 → UInt64) (hashText : List Char → UInt64) (mask : List UInt8) (gCov8BitLen retries : Nat)
    (plan : Plan) :
    runPlanAndStabilize hashBytes (fun _ => runOutcome hashText plan (sut plan).1 (sut plan).2) gCov8BitLen retries
      mask = (mask, .ok 2) ∧
    (Test.ofSut gram testName seedSpecs sut hashBytes hashText mask).transcriptOf plan =
      ((sut plan).1.foldl RunState.call (RunState.start plan)).transcript := by
  refine ⟨runPlanAndStabilize_const hashBytes _ gCov8BitLen retries mask, ?_⟩
  simp [Test.transcriptOf, Test.ofSut, runPlan, RunState.foldl_call_transcript, RunState.start]

end Photesthesis
