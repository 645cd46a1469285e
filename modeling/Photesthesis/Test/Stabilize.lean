import Mathlib.Data.List.Forall2
import Photesthesis.Basic

/-!
# Stabilising the path trajectory

A run of a plan leaves the 8-bit coverage counters of the SUT, and `Test::finiPathTrajectory` classifies them by
`CounterClasses`, masks them with `mPathTrajStabilityMask` once the mask exists, and hashes the buffer into the path
trajectory. When two runs of one plan give different path trajectories, `Test::runPlanAndStabilize` creates the
mask, every entry `0xff`, and for up to `PHOTESTHESIS_STABILITY_RETRIES` attempts runs the plan again and again in a
`do`-`while` loop, masking each position still unmasked whose classified counter differs from the run before,
until a run masks nothing.

The number of unmasked positions (`unmasked`) falls by what each round masks (`maskUnstable_unmasked`), so the loop
is well founded, whatever the runs give, and makes at most one run more than there are unmasked positions
(`maskLoop_next_le`). The mask only loses entries (`Shrinks`, `maskLoop_shrinks`), and on exit the classified
buffers of the last two runs agree wherever it is still unmasked (`LastRunsAgree`, `maskLoop_agree`). Over any
sequence of calls, a mask is created full and then only cleared (`MaskEvolves`, `stabilizeAll_evolves`), so it
always has `gCov8BitLen` entries once it exists (`MaskEvolves.length_of_nil`), and a call runs the plan at most
`2 + retries * (gCov8BitLen + 2)` times (`runPlanAndStabilize_runs_le`).

`CounterClasses` maps each counter to its bucket of hit counts (`aflBucket`, `counterClasses_toNat`), so under any
such mask two runs give the same classified buffer exactly when their counters share a bucket at every unmasked
position (`finiPathTrajectory_eq_iff`).

The count `nMasked`, which the loop only prints, is not modelled.
-/

namespace Photesthesis

/-! ## Classifying the counters -/

/-- `CounterClasses`, the counter-simplification map of AFL: a counter to its class, a power of two. -/
def counterClasses : List UInt8 :=
  [0, 1, 2, 4, 8, 8, 8, 8] ++ List.replicate 8 16 ++ List.replicate 16 32 ++ List.replicate 96 64 ++
    List.replicate 128 128

/-- `CounterClasses[c]`. -/
def counterClass (c : UInt8) : UInt8 := counterClasses.getD c.toNat 0

/-- The buffer `Test::finiPathTrajectory` leaves from the counters of a run: each counter classified, and masked
when the mask is not empty. -/
def finiPathTrajectory (mask counters : List UInt8) : List UInt8 :=
  if mask.isEmpty then counters.map counterClass
  else List.zipWith (fun c m => counterClass c &&& m) counters mask

/-- `mPathTrajectory` after `Test::finiPathTrajectory`: `XXHash64::hash` of the buffer, or the `0` that
`initPathTrajectory` left when there are no counters. -/
def pathTrajectory (xxHash64 : List UInt8 → UInt64) (buf : List UInt8) : UInt64 :=
  if buf.isEmpty then 0 else xxHash64 buf

theorem finiPathTrajectory_length {mask counters : List UInt8} (h : counters.length = mask.length) :
    (finiPathTrajectory mask counters).length = mask.length := by
  unfold finiPathTrajectory
  split <;> simp [h]

/-- AFL's bucket of a hit count, by the ranges the buckets are documented with: `0`, `1`, `2`, `3`, `4` to `7`, `8`
to `15`, `16` to `31`, `32` to `127` and `128` to `255`, each named by a power of two. -/
def aflBucket (n : Nat) : Nat :=
  if n ≤ 2 then n else if n = 3 then 4 else if n ≤ 7 then 8 else if n ≤ 15 then 16 else if n ≤ 31 then 32
  else if n ≤ 127 then 64 else 128

/-- The bucket of a counter. -/
def counterBucket (c : UInt8) : Nat := aflBucket c.toNat

set_option maxRecDepth 2000 in
/-- `CounterClasses` lists the buckets. -/
theorem counterClasses_toNat : counterClasses.map UInt8.toNat = (List.range 256).map aflBucket := rfl

/-- `CounterClasses[c]` is the bucket of `c`. -/
theorem counterClass_toNat (c : UInt8) : (counterClass c).toNat = counterBucket c := by
  have hc : c.toNat < 256 := c.toNat_lt_size
  have h := congrArg (·[c.toNat]?) counterClasses_toNat
  simp only [List.getElem?_map, List.getElem?_range hc, Option.map_some'] at h
  rw [counterClass, counterBucket, List.getD_eq_getElem?_getD]
  cases hx : counterClasses[c.toNat]? with
  | none => simp [hx] at h
  | some x => simpa [hx] using h

theorem UInt8.and_mask_ff (x : UInt8) : x &&& 0xff = x :=
  UInt8.toNat.inj <| (UInt8.and_toNat x 0xff).trans (Nat.and_pow_two_sub_one_of_lt_two_pow (n := 8) x.toNat_lt_size)

theorem UInt8.and_mask_zero (x : UInt8) : x &&& 0 = 0 := UInt8.toNat.inj <| (UInt8.and_toNat x 0).trans (Nat.and_zero _)

/-- At a position with the mask entry `0xff` or `0`, the classified counters agree exactly when the entry is `0` or
the counters are in one bucket. -/
theorem classMasked_eq_iff {m a b : UInt8} (hm : m = 0xff ∨ m = 0) :
    counterClass a &&& m = counterClass b &&& m ↔ (m ≠ 0 → counterBucket a = counterBucket b) := by
  rcases hm with rfl | rfl
  · rw [UInt8.and_mask_ff, UInt8.and_mask_ff, ← counterClass_toNat, ← counterClass_toNat]
    exact ⟨fun h _ => congrArg _ h, fun h => UInt8.toNat.inj (h (by decide))⟩
  · simp [UInt8.and_mask_zero]

/-- Without a mask, the classified buffers agree exactly when the counters agree position by position in bucket. -/
theorem map_counterClass_eq_iff {c₁ c₂ : List UInt8} :
    c₁.map counterClass = c₂.map counterClass ↔ ∀ i : Nat, c₁[i]?.map counterBucket = c₂[i]?.map counterBucket := by
  have hb : counterBucket = UInt8.toNat ∘ counterClass := funext fun c => (counterClass_toNat c).symm
  rw [List.ext_getElem?_iff, hb]
  refine forall_congr' fun i => ?_
  rw [List.getElem?_map, List.getElem?_map, ← Option.map_map, ← Option.map_map]
  exact (Option.map_injective fun _ _ => UInt8.toNat.inj).eq_iff.symm

/-- Under a mask of entries `0xff` and `0` as long as the counters, the classified and masked buffers agree exactly
when the counters agree in bucket at every position the mask keeps. -/
theorem zipWith_classMasked_eq_iff {mask c₁ c₂ : List UInt8} (hm : ∀ m ∈ mask, m = 0xff ∨ m = 0)
    (h₁ : c₁.length = mask.length) (h₂ : c₂.length = mask.length) :
    List.zipWith (fun c m => counterClass c &&& m) c₁ mask = List.zipWith (fun c m => counterClass c &&& m) c₂ mask ↔
      ∀ i : Nat, mask[i]? ≠ some 0 → c₁[i]?.map counterBucket = c₂[i]?.map counterBucket := by
  rw [List.ext_getElem?_iff]
  refine forall_congr' fun i => ?_
  rw [List.getElem?_zipWith, List.getElem?_zipWith]
  rcases Nat.lt_or_ge i mask.length with hi | hi
  · rw [List.getElem?_eq_getElem hi, List.getElem?_eq_getElem (h₁ ▸ hi), List.getElem?_eq_getElem (h₂ ▸ hi)]
    simp only [Option.some.injEq, Option.map_some', ne_eq]
    exact classMasked_eq_iff (hm _ (List.getElem_mem _))
  · rw [List.getElem?_eq_none hi, List.getElem?_eq_none (h₁ ▸ hi), List.getElem?_eq_none (h₂ ▸ hi)]
    simp

/-! ## One round of the inner loop -/

/-- The loop of a round over the positions: a position still unmasked whose saved and new buffers differ is
masked, and `nNewMasked` counts it. -/
def maskUnstable : List UInt8 → List UInt8 → List UInt8 → List UInt8 × Nat
  | m :: ms, s :: ss, b :: bs =>
    if m != 0 && s != b then (0 :: (maskUnstable ms ss bs).1, (maskUnstable ms ss bs).2 + 1)
    else (m :: (maskUnstable ms ss bs).1, (maskUnstable ms ss bs).2)
  | ms, _, _ => (ms, 0)

/-- The positions a mask leaves unmasked. -/
def unmasked (mask : List UInt8) : Nat := mask.countP (· != 0)

/-- A mask `m'` that `m` becomes by masking positions: every entry is kept or cleared to `0`. -/
def Shrinks (m m' : List UInt8) : Prop := List.Forall₂ (fun a a' => a' = a ∨ a' = 0) m m'

theorem Shrinks.refl (m : List UInt8) : Shrinks m m := List.forall₂_same.mpr fun _ _ => .inl rfl

theorem Shrinks.trans : ∀ {m m' m'' : List UInt8}, Shrinks m m' → Shrinks m' m'' → Shrinks m m''
  | [], _, _, .nil, .nil => .nil
  | _ :: _, _ :: _, _ :: _, .cons h₁ t₁, .cons h₂ t₂ =>
    .cons (by rcases h₁ with rfl | rfl <;> simp_all) (Shrinks.trans t₁ t₂)

theorem Shrinks.length_eq {m m' : List UInt8} (h : Shrinks m m') : m.length = m'.length :=
  List.Forall₂.length_eq h

/-- A mask that a mask of entries `a` shrinks to has entries `a` and `0`. -/
theorem Shrinks.mem_of_replicate {a : UInt8} : ∀ {n : Nat} {m : List UInt8}, Shrinks (List.replicate n a) m →
    ∀ x ∈ m, x = a ∨ x = 0
  | 0, _, .nil => fun _ h => absurd h (List.not_mem_nil _)
  | _ + 1, _, .cons hx hs => fun y hy => by
    rcases List.mem_cons.mp hy with rfl | hy
    · exact hx
    · exact Shrinks.mem_of_replicate hs y hy

/-- A round masks as many positions as it counts. -/
theorem maskUnstable_unmasked : ∀ ms ss bs : List UInt8,
    unmasked (maskUnstable ms ss bs).1 + (maskUnstable ms ss bs).2 = unmasked ms
  | m :: ms, s :: ss, b :: bs => by
    have ih := maskUnstable_unmasked ms ss bs
    unfold maskUnstable
    split <;> simp_all [unmasked, List.countP_cons] <;> omega
  | [], _, _ | _ :: _, [], _ | _ :: _, _ :: _, [] => rfl

theorem maskUnstable_shrinks : ∀ ms ss bs : List UInt8, Shrinks ms (maskUnstable ms ss bs).1
  | m :: ms, s :: ss, b :: bs => by
    unfold maskUnstable
    split
    · exact .cons (.inr rfl) (maskUnstable_shrinks ms ss bs)
    · exact .cons (.inl rfl) (maskUnstable_shrinks ms ss bs)
  | [], _, _ | _ :: _, [], _ | _ :: _, _ :: _, [] => Shrinks.refl _

/-- The buffers `s` and `b` agree at every position the mask leaves unmasked. -/
def AgreeUnmasked (mask s b : List UInt8) : Prop :=
  ∀ (i : Nat) (m : UInt8), mask[i]? = some m → m ≠ 0 → s[i]? = b[i]?

/-- A round of buffers as long as the mask that masks nothing leaves the mask as it was, and found the buffers
agreeing at every unmasked position. -/
theorem maskUnstable_eq_zero : ∀ {ms ss bs : List UInt8}, ss.length = ms.length → bs.length = ms.length →
    (maskUnstable ms ss bs).2 = 0 → (maskUnstable ms ss bs).1 = ms ∧ AgreeUnmasked ms ss bs
  | [], [], [], _, _, _ => ⟨rfl, fun _ _ h => by simp at h⟩
  | m :: ms, s :: ss, b :: bs, hs, hb, h => by
    by_cases hmb : (m != 0 && s != b) = true
    · simp [maskUnstable, hmb] at h
    simp only [maskUnstable, hmb, Bool.false_eq_true, ↓reduceIte] at h ⊢
    obtain ⟨ih, hag⟩ := maskUnstable_eq_zero (by simpa using hs) (by simpa using hb) h
    refine ⟨by rw [ih], fun i x hx hx0 => ?_⟩
    cases i with
    | zero => simp_all
    | succ i => simpa using hag i x (by simpa using hx) hx0

/-! ## The inner loop -/

/-- What the inner loop leaves: the mask, the buffers of its last two runs, and the index of the next run. -/
structure MaskLoopEnd where
  mask : List UInt8
  saved : List UInt8
  buf : List UInt8
  next : Nat

/-- The `do`-`while (nNewMasked != 0)` loop of `Test::runPlanAndStabilize`, from the `n`-th run, with the mask and
the buffer the last run left; `counters k` is what the `k`-th run leaves in the counters. -/
def maskLoop (counters : Nat → List UInt8) (n : Nat) (mask saved : List UInt8) : MaskLoopEnd :=
  if h : (maskUnstable mask saved (finiPathTrajectory mask (counters n))).2 ≠ 0 then
    maskLoop counters (n + 1) (maskUnstable mask saved (finiPathTrajectory mask (counters n))).1
      (finiPathTrajectory mask (counters n))
  else ⟨(maskUnstable mask saved (finiPathTrajectory mask (counters n))).1, saved,
    finiPathTrajectory mask (counters n), n + 1⟩
termination_by unmasked mask
decreasing_by
  have := maskUnstable_unmasked mask saved (finiPathTrajectory mask (counters n))
  omega

/-- The loop runs the plan at least once, and at most once more than there are unmasked positions. -/
theorem maskLoop_next_le (counters : Nat → List UInt8) (n : Nat) (mask saved : List UInt8) :
    n < (maskLoop counters n mask saved).next ∧ (maskLoop counters n mask saved).next ≤ n + unmasked mask + 1 := by
  induction n, mask, saved using maskLoop.induct counters with
  | case1 n mask saved h ih =>
    have := maskUnstable_unmasked mask saved (finiPathTrajectory mask (counters n))
    rw [maskLoop, dif_pos h]
    omega
  | case2 n mask saved h =>
    rw [maskLoop, dif_neg h]
    simp

theorem maskLoop_shrinks (counters : Nat → List UInt8) (n : Nat) (mask saved : List UInt8) :
    Shrinks mask (maskLoop counters n mask saved).mask := by
  induction n, mask, saved using maskLoop.induct counters with
  | case1 n mask saved h ih =>
    rw [maskLoop, dif_pos h]
    exact (maskUnstable_shrinks _ _ _).trans ih
  | case2 n mask saved h =>
    rw [maskLoop, dif_neg h]
    exact maskUnstable_shrinks _ _ _

theorem AgreeUnmasked.symm {mask s b : List UInt8} (h : AgreeUnmasked mask s b) : AgreeUnmasked mask b s :=
  fun i m hm h0 => (h i m hm h0).symm

theorem AgreeUnmasked.trans {mask s b b' : List UInt8} (h₁ : AgreeUnmasked mask s b) (h₂ : AgreeUnmasked mask b b') :
    AgreeUnmasked mask s b' :=
  fun i m hm h0 => (h₁ i m hm h0).trans (h₂ i m hm h0)

/-- A position a shrunk mask leaves unmasked holds the entry it had. -/
theorem Shrinks.getElem?_of_ne_zero : ∀ {m m' : List UInt8}, Shrinks m m' → ∀ {i : Nat} {x : UInt8},
    m'[i]? = some x → x ≠ 0 → m[i]? = some x
  | _, _, .nil, _, _, h, _ => by simp at h
  | _ :: _, _ :: _, .cons hx _, 0, _, h, h0 => by
    simp only [List.getElem?_cons_zero, Option.some.injEq] at h ⊢
    subst h
    exact (hx.resolve_right h0).symm
  | _ :: _, _ :: _, .cons _ hs, _ + 1, _, h, h0 => by simpa using Shrinks.getElem?_of_ne_zero hs (by simpa using h) h0

/-- Classifying counters under a mask or under a mask it shrinks to gives the same buffer wherever the second leaves
a position unmasked. -/
theorem Shrinks.finiPathTrajectory_agree {m m' : List UInt8} (hs : Shrinks m m') (c : List UInt8) :
    AgreeUnmasked m' (finiPathTrajectory m c) (finiPathTrajectory m' c) := by
  intro i x hx h0
  have hm := hs.getElem?_of_ne_zero hx h0
  have hne : m.isEmpty = false := by cases m <;> simp_all
  have hne' : m'.isEmpty = false := by cases m' <;> simp_all
  simp only [finiPathTrajectory, hne, hne', Bool.false_eq_true, if_false, List.getElem?_zipWith, hm, hx]

/-- On the loop's exit `e`, the classified buffer of the last run, run `e.next - 1`, agrees at every position the
mask leaves unmasked with the buffer of the run before it: the buffer the loop was given when it ran the plan once,
and otherwise the counters of run `e.next - 2` classified under the same mask. -/
def LastRunsAgree (counters : Nat → List UInt8) (n : Nat) (saved : List UInt8) (e : MaskLoopEnd) : Prop :=
  AgreeUnmasked e.mask (if e.next = n + 1 then saved else finiPathTrajectory e.mask (counters (e.next - 2)))
    (finiPathTrajectory e.mask (counters (e.next - 1)))

/-- When every run leaves as many counters as the mask has entries, the loop ends on two runs whose classified
buffers agree at every position the mask leaves unmasked. -/
theorem maskLoop_agree (counters : Nat → List UInt8) {mask : List UInt8}
    (hc : ∀ k, (counters k).length = mask.length) : ∀ n saved, saved.length = mask.length →
      LastRunsAgree counters n saved (maskLoop counters n mask saved) := by
  intro n saved
  induction n, mask, saved using maskLoop.induct counters with
  | case1 n mask saved h ih =>
    intro _
    have hsh := maskUnstable_shrinks mask saved (finiPathTrajectory mask (counters n))
    have ih := ih (fun k => (hc k).trans hsh.length_eq) ((finiPathTrajectory_length (hc n)).trans hsh.length_eq)
    have hnext := (maskLoop_next_le counters (n + 1) (maskUnstable mask saved (finiPathTrajectory mask (counters n))).1
      (finiPathTrajectory mask (counters n))).1
    rw [maskLoop, dif_pos h]
    unfold LastRunsAgree at ih ⊢
    rw [if_neg (by omega)]
    split at ih
    · next he =>
      rw [he] at ih ⊢
      exact ((hsh.trans (maskLoop_shrinks _ _ _ _)).finiPathTrajectory_agree _).symm.trans ih
    · exact ih
  | case2 n mask saved h =>
    intro hs
    obtain ⟨heq, hag⟩ := maskUnstable_eq_zero hs (finiPathTrajectory_length (hc n)) (not_not.mp h)
    rw [maskLoop, dif_neg h]
    simpa [LastRunsAgree, heq] using hag

/-! ## The call -/

/-- What a run of the plan leaves: the 8-bit coverage counters, and the user trajectory `mUserTrajectory`. -/
structure RunOutcome where
  counters : List UInt8
  userTrajectory : UInt64

section Call

variable (xxHash64 : List UInt8 → UInt64) (runs : Nat → RunOutcome)

/-- The `while (stabilityAttempts < retries)` loop with `attempts` attempts left, from the `n`-th run, with the mask
and the buffer of the last run: the mask after, and the number of runs made once two runs agree. -/
def stabilizeAttempts : Nat → Nat → List UInt8 → List UInt8 → List UInt8 × Except Fault Nat
  | 0, _, mask, _ =>
    (mask, .error (.thrown "unable to stabilize path trajectory, try raising PHOTESTHESIS_STABILITY_RETRIES"))
  | attempts + 1, n, mask, buf =>
    let e := maskLoop (fun k => (runs k).counters) n mask buf
    if pathTrajectory xxHash64 e.buf ==
        pathTrajectory xxHash64 (finiPathTrajectory e.mask (runs e.next).counters) then (e.mask, .ok (e.next + 1))
    else stabilizeAttempts attempts (e.next + 1) e.mask (finiPathTrajectory e.mask (runs e.next).counters)

/-- `Test::runPlanAndStabilize` with `gCov8BitLen` counters, `retries` the `PHOTESTHESIS_STABILITY_RETRIES` or `0`,
and the mask `mPathTrajStabilityMask`; `runs k` is what the `k`-th run of the plan leaves. The mask after, which
the object keeps also when the call throws, and the number of runs made. -/
def runPlanAndStabilize (gCov8BitLen retries : Nat) (mask : List UInt8) : List UInt8 × Except Fault Nat :=
  if (runs 1).userTrajectory != (runs 0).userTrajectory then
    (mask, .error (.thrown "user-provided (trace/track) trajectory is unstable"))
  else if pathTrajectory xxHash64 (finiPathTrajectory mask (runs 0).counters) ==
      pathTrajectory xxHash64 (finiPathTrajectory mask (runs 1).counters) then (mask, .ok 2)
  else if gCov8BitLen = 0 then (mask, .error (.assertFailed "gCov8BitLen != 0"))
  else stabilizeAttempts xxHash64 runs retries 2 (if mask.isEmpty then List.replicate gCov8BitLen 0xff else mask)
    (finiPathTrajectory mask (runs 1).counters)

theorem stabilizeAttempts_shrinks : ∀ attempts n mask buf,
    Shrinks mask (stabilizeAttempts xxHash64 runs attempts n mask buf).1
  | 0, _, mask, _ => Shrinks.refl mask
  | attempts + 1, n, mask, buf => by
    have h := maskLoop_shrinks (fun k => (runs k).counters) n mask buf
    dsimp only [stabilizeAttempts]
    split
    · exact h
    · exact h.trans (stabilizeAttempts_shrinks attempts _ _ _)

/-- Each attempt runs the inner loop, at most `gCov8BitLen + 1` runs, and the plan once more. -/
theorem stabilizeAttempts_runs_le {len : Nat} : ∀ attempts n mask buf k, mask.length = len →
    (stabilizeAttempts xxHash64 runs attempts n mask buf).2 = .ok k → k ≤ n + attempts * (len + 2)
  | 0, _, _, _, _, _, h => by simp [stabilizeAttempts] at h
  | attempts + 1, n, mask, buf, k, hl, h => by
    have hb := (maskLoop_next_le (fun k => (runs k).counters) n mask buf).2
    have hu : unmasked mask ≤ mask.length := List.countP_le_length _
    have hl' := (maskLoop_shrinks (fun k => (runs k).counters) n mask buf).length_eq
    rw [Nat.succ_mul]
    dsimp only [stabilizeAttempts] at h
    split at h
    · cases h
      omega
    · have := stabilizeAttempts_runs_le attempts _ _ _ k (hl'.symm.trans hl) h
      omega

end Call

/-- A call on a mask that is none or has `gCov8BitLen` entries runs the plan at most `2 + retries * (gCov8BitLen + 2)`
times before it returns. -/
theorem runPlanAndStabilize_runs_le (xxHash64 : List UInt8 → UInt64) (runs : Nat → RunOutcome)
    {gCov8BitLen retries k : Nat} {mask : List UInt8} (hl : mask = [] ∨ mask.length = gCov8BitLen)
    (h : (runPlanAndStabilize xxHash64 runs gCov8BitLen retries mask).2 = .ok k) :
    k ≤ 2 + retries * (gCov8BitLen + 2) := by
  unfold runPlanAndStabilize at h
  split_ifs at h with _ _ _ he
  · cases h
    omega
  · have := stabilizeAttempts_runs_le xxHash64 runs retries 2 _ _ k (List.length_replicate _ _) h
    omega
  · have hl : mask.length = gCov8BitLen := hl.resolve_left (by simpa using he)
    have := stabilizeAttempts_runs_le xxHash64 runs retries 2 _ _ k hl h
    omega

/-- Runs of two counters whose second counter grows by one from run to run. -/
def growingRuns (k : Nat) : RunOutcome := ⟨[1, (k + 1).toUInt8], 0⟩

/-- A hash of a buffer: the sum of its bytes. -/
def sumHash (buf : List UInt8) : UInt64 := (buf.foldl (fun s b => s + UInt8.toNat b) 0).toUInt64

/-- The first two runs differ at the second position; the inner loop masks it on its first run and stops on its
second, and the fifth run confirms the path trajectory. -/
theorem runPlanAndStabilize_growing : runPlanAndStabilize sumHash growingRuns 2 1 [] = ([255, 0], .ok 5) := by
  have hloop : maskLoop (fun k => (growingRuns k).counters) 2 [255, 255] [1, 2] = ⟨[255, 0], [1, 4], [1, 0], 4⟩ := by
    rw [maskLoop, dif_pos (by decide), maskLoop, dif_neg (by decide)]
    rfl
  show stabilizeAttempts _ _ 1 2 [255, 255] [1, 2] = _
  simp only [stabilizeAttempts, hloop]
  rfl

/-- With the growing runs and one attempt, a call with no mask runs the plan five times. -/
theorem runPlanAndStabilize_runs_le_masking :
    (([] : List UInt8) = [] ∨ ([] : List UInt8).length = 2) ∧
      (runPlanAndStabilize sumHash growingRuns 2 1 []).2 = .ok 5 ∧ 5 ≤ 2 + 1 * (2 + 2) := by
  have hrun : (runPlanAndStabilize sumHash growingRuns 2 1 []).2 = .ok 5 := by rw [runPlanAndStabilize_growing]
  exact ⟨.inl rfl, hrun, runPlanAndStabilize_runs_le _ _ (.inl rfl) hrun⟩

/-! ## The mask over the life of a test -/

/-- The mask `m'` comes from `m` by what `runPlanAndStabilize` does to it: entries only cleared, after creating a
mask of `gCov8BitLen` entries `0xff` where there was none. -/
def MaskEvolves (gCov8BitLen : Nat) (m m' : List UInt8) : Prop :=
  Shrinks m m' ∨ m = [] ∧ Shrinks (List.replicate gCov8BitLen 0xff) m'

theorem MaskEvolves.trans {len : Nat} {m m' m'' : List UInt8} (h₁ : MaskEvolves len m m')
    (h₂ : MaskEvolves len m' m'') : MaskEvolves len m m'' := by
  rcases h₁ with h₁ | ⟨rfl, h₁⟩ <;> rcases h₂ with h₂ | ⟨rfl, h₂⟩
  · exact .inl (h₁.trans h₂)
  · exact .inr ⟨List.eq_nil_of_length_eq_zero h₁.length_eq, h₂⟩
  · exact .inr ⟨rfl, h₁.trans h₂⟩
  · exact .inr ⟨rfl, h₂⟩

/-- A mask that evolved from none is none, or has `gCov8BitLen` entries, as the assertion of
`Test::finiPathTrajectory` asks. -/
theorem MaskEvolves.length_of_nil {len : Nat} {m : List UInt8} (h : MaskEvolves len [] m) :
    m = [] ∨ m.length = len := by
  rcases h with h | ⟨-, h⟩
  · exact .inl (List.eq_nil_of_length_eq_zero h.length_eq.symm)
  · exact .inr (by simpa using h.length_eq.symm)

theorem runPlanAndStabilize_evolves (xxHash64 : List UInt8 → UInt64) (runs : Nat → RunOutcome)
    (gCov8BitLen retries : Nat) (mask : List UInt8) :
    MaskEvolves gCov8BitLen mask (runPlanAndStabilize xxHash64 runs gCov8BitLen retries mask).1 := by
  unfold runPlanAndStabilize
  split_ifs with _ _ _ he
  iterate 3 exact .inl (Shrinks.refl mask)
  · exact .inr ⟨List.isEmpty_iff.mp he, stabilizeAttempts_shrinks _ _ _ _ _ _⟩
  · exact .inl (stabilizeAttempts_shrinks _ _ _ _ _ _)

/-- The mask after a sequence of calls of `runPlanAndStabilize`, each with its retries and its runs, whether they
return or throw: the member `mPathTrajStabilityMask`, which no other function writes. -/
def stabilizeAll (xxHash64 : List UInt8 → UInt64) (gCov8BitLen : Nat) :
    List (Nat × (Nat → RunOutcome)) → List UInt8 → List UInt8
  | [], mask => mask
  | (retries, runs) :: calls, mask =>
    stabilizeAll xxHash64 gCov8BitLen calls (runPlanAndStabilize xxHash64 runs gCov8BitLen retries mask).1

theorem stabilizeAll_append (xxHash64 : List UInt8 → UInt64) (len : Nat) :
    ∀ (calls₁ calls₂ : List (Nat × (Nat → RunOutcome))) mask,
      stabilizeAll xxHash64 len (calls₁ ++ calls₂) mask =
        stabilizeAll xxHash64 len calls₂ (stabilizeAll xxHash64 len calls₁ mask)
  | [], _, _ => rfl
  | (_, _) :: calls₁, calls₂, _ => stabilizeAll_append xxHash64 len calls₁ calls₂ _

theorem stabilizeAll_evolves (xxHash64 : List UInt8 → UInt64) (len : Nat) :
    ∀ (calls : List (Nat × (Nat → RunOutcome))) mask, MaskEvolves len mask (stabilizeAll xxHash64 len calls mask)
  | [], mask => .inl (Shrinks.refl mask)
  | (retries, runs) :: calls, mask =>
    (runPlanAndStabilize_evolves xxHash64 runs len retries mask).trans (stabilizeAll_evolves xxHash64 len calls _)

/-- Under the mask that any calls of `runPlanAndStabilize` leave, from none, two runs that leave `gCov8BitLen`
counters get the same path buffer exactly when their counters are in the same bucket at every position the mask
keeps. So the path trajectory of a run depends only on the buckets of its counters at unmasked positions, and it
tells apart any two runs that differ there as far as the hash does. -/
theorem finiPathTrajectory_eq_iff (xxHash64 : List UInt8 → UInt64) {len : Nat}
    (calls : List (Nat × (Nat → RunOutcome))) {c₁ c₂ : List UInt8} (h₁ : c₁.length = len) (h₂ : c₂.length = len) :
    finiPathTrajectory (stabilizeAll xxHash64 len calls []) c₁ =
        finiPathTrajectory (stabilizeAll xxHash64 len calls []) c₂ ↔
      ∀ i : Nat, (stabilizeAll xxHash64 len calls [])[i]? ≠ some 0 → c₁[i]?.map counterBucket = c₂[i]?.map counterBucket := by
  have hev := stabilizeAll_evolves xxHash64 len calls []
  generalize stabilizeAll xxHash64 len calls [] = mask at hev ⊢
  unfold finiPathTrajectory
  split
  · next he =>
    rw [List.isEmpty_iff.mp he]
    simpa using map_counterClass_eq_iff
  · next he =>
    rcases hev with hs | ⟨-, hs⟩
    · exact absurd (List.eq_nil_of_length_eq_zero hs.length_eq.symm) (by simpa using he)
    · have hl : len = mask.length := by simpa using hs.length_eq
      exact zipWith_classMasked_eq_iff hs.mem_of_replicate (h₁.trans hl) (h₂.trans hl)

/-- After the growing runs the second position is masked: counters `[1, 7]` and `[1, 200]`, in one bucket at the
first position and in the buckets `8` and `128` at the second, give one path buffer. -/
theorem finiPathTrajectory_eq_iff_growing :
    ([1, 7] : List UInt8).length = 2 ∧ ([1, 200] : List UInt8).length = 2 ∧
      stabilizeAll sumHash 2 [(1, growingRuns)] [] = [255, 0] ∧
      finiPathTrajectory [255, 0] [1, 7] = finiPathTrajectory [255, 0] [1, 200] ∧
      (finiPathTrajectory (stabilizeAll sumHash 2 [(1, growingRuns)] []) [1, 7] =
          finiPathTrajectory (stabilizeAll sumHash 2 [(1, growingRuns)] []) [1, 200] ↔
        ∀ i : Nat, (stabilizeAll sumHash 2 [(1, growingRuns)] [])[i]? ≠ some 0 →
          ([1, 7] : List UInt8)[i]?.map counterBucket = ([1, 200] : List UInt8)[i]?.map counterBucket) :=
  ⟨rfl, rfl, by simp [stabilizeAll, runPlanAndStabilize_growing], rfl, finiPathTrajectory_eq_iff sumHash _ rfl rfl⟩

/-- The inner loop of `Test::runPlanAndStabilize`, whatever the runs leave in the counters, ends after at most
`gCov8BitLen + 1` runs of a mask of `gCov8BitLen` entries. Each of its rounds only clears entries of the mask, and
over any calls the mask, created with every entry non-zero, only has entries cleared from then on. On exit, when the
runs leave as many counters as there are entries, the classified buffers of the last two runs agree at every
position still unmasked. -/
theorem maskLoop_stabilizes (gCov8BitLen : Nat) (xxHash64 : List UInt8 → UInt64) :
    (∀ (counters : Nat → List UInt8) n mask saved, mask.length = gCov8BitLen →
      n < (maskLoop counters n mask saved).next ∧ (maskLoop counters n mask saved).next ≤ n + gCov8BitLen + 1) ∧
    (∀ mask saved buf, Shrinks mask (maskUnstable mask saved buf).1) ∧
    (∀ (calls₁ calls₂ : List (Nat × (Nat → RunOutcome))) mask,
      MaskEvolves gCov8BitLen (stabilizeAll xxHash64 gCov8BitLen calls₁ mask)
        (stabilizeAll xxHash64 gCov8BitLen (calls₁ ++ calls₂) mask)) ∧
    (∀ (counters : Nat → List UInt8) n mask saved, (∀ k, (counters k).length = mask.length) →
      saved.length = mask.length → LastRunsAgree counters n saved (maskLoop counters n mask saved)) := by
  refine ⟨fun counters n mask saved hl => ?_, maskUnstable_shrinks, fun calls₁ calls₂ mask => ?_,
    fun counters n _ saved hc hs => maskLoop_agree counters hc n saved hs⟩
  · have hb := maskLoop_next_le counters n mask saved
    have hu : unmasked mask ≤ mask.length := List.countP_le_length _
    omega
  · rw [stabilizeAll_append]
    exact stabilizeAll_evolves xxHash64 gCov8BitLen calls₂ _

end Photesthesis
