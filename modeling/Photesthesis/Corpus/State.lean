import Photesthesis.Plan

/-!
# Transcripts and the corpus

A `Transcript` (`corpus.h`) is a plan and the variables its run recorded, in order. The `Corpus` maps each test's
name to the set of its transcripts (`std::map<TestName, std::set<Transcript>>`, listed in key order) and remembers
whether it changed since it was read (`mDirty`). It changes through `addTranscript` and `updateTranscript`, each of
which `assert`s that the set it edits behaves as the caller expects.

The sets are ordered by `Transcript::operator<`, which compares the plans first with `Plan::operator<`; that order
reads `Value::getSize`, whose source is not in the repository, so the order of plans is a parameter `planCmp` here,
and every result holds for every such order.

The runs of the corpus keep its invariant `Corpus.WF` (`Corpus.Reachable.wf`): the keys are distinct, and each set
is non-empty, holds no transcript twice, and holds only transcripts of its key's test.
-/

namespace Photesthesis

/-- A variable a run recorded: its name, its value, and whether it was tracked (`track:`) rather than checked
(`check:`). -/
abbrev Var := Symbol × Value × Bool

/-- A `Transcript`: a plan, and the variables its run recorded in the order it recorded them. -/
structure Transcript where
  plan : Plan
  vars : List Var
  deriving DecidableEq

/-- `Transcript::getTestName`. -/
def Transcript.testName (t : Transcript) : Symbol := t.plan.testName

/-- `bool`'s `operator<`. -/
def Bool.comparator : Comparator Bool where
  lt a b := !a && b
  irrefl a := by cases a <;> rfl
  eq_of_not_lt {a b} := by cases a <;> cases b <;> simp

/-- The order of characters, by their codes. -/
def Char.comparator : Comparator Char := ⟨fun a b => decide (a < b), fun _ => by simp, char_eq_of_not_lt⟩

/-- An order of plans by their fields in turn: test name, manual flag, parameters and comments. `Plan::operator<`
puts a comparison of the sizes of the parameters' values (`Value::getSize`) before the parameters themselves. -/
def Plan.fieldOrder : Comparator Plan where
  lt p q := (Symbol.comparator.prod (Bool.comparator.prod (Params.comparator.prod Char.comparator.lex.lex))).lt
    (p.testName, p.isManual, p.params, p.comments) (q.testName, q.isManual, q.params, q.comments)
  irrefl p := Comparator.irrefl _ (p.testName, p.isManual, p.params, p.comments)
  eq_of_not_lt {p q} h₁ h₂ := by
    have h := Comparator.eq_of_not_lt _ h₁ h₂
    cases p
    cases q
    simp_all

/-- `Transcript::operator<`: `std::tie(mPlan, mVars)`, with plans ordered by `planCmp`. -/
def Transcript.comparator (planCmp : Comparator Plan) : Comparator Transcript where
  lt a b := (planCmp.prod (Symbol.comparator.prod (Value.comparator.prod Bool.comparator)).lex).lt
    (a.plan, a.vars) (b.plan, b.vars)
  irrefl a := Comparator.irrefl _ (a.plan, a.vars)
  eq_of_not_lt {a b} h₁ h₂ := by
    have h := Comparator.eq_of_not_lt _ h₁ h₂
    cases a
    cases b
    simp_all

/-- `m[key] = v` on a `std::map` listed in key order: the value of `key` is replaced, or the pair is emplaced. -/
def mapPut {α β : Type} [DecidableEq α] (c : Comparator α) (key : α) (v : β) (m : List (α × β)) : List (α × β) :=
  if key ∈ m.map Prod.fst then m.map fun e => if e.1 = key then (key, v) else e
  else mapEmplace c key v m

/-- A `Corpus`: each test's transcripts, and whether they changed since they were read (`mDirty`). -/
structure Corpus where
  transcripts : List (Symbol × List Transcript)
  dirty : Bool

namespace Corpus

/-- The corpus of a path with no file: nothing read, nothing changed. -/
def empty : Corpus := ⟨[], false⟩

/-- `Corpus::getTranscripts`: the set of a test, empty when it has none. (`operator[]` also adds the empty set to
the map; an empty set is written as nothing, so the model leaves it out.) -/
def getTranscripts (c : Corpus) (tname : Symbol) : List Transcript := (c.transcripts.lookup tname).getD []

variable (planCmp : Comparator Plan)

/-- The test's set with `ts` in it, the corpus marked dirty. -/
def putTranscript (c : Corpus) (ts : Transcript) (tss : List Transcript) : Corpus :=
  ⟨mapPut Symbol.comparator ts.testName (setInsert (Transcript.comparator planCmp) ts tss) c.transcripts, true⟩

/-- `Corpus::addTranscript`: the transcript goes into its test's set, which must not hold it yet. -/
def addTranscript (c : Corpus) (ts : Transcript) : Except Fault Corpus := do
  let tss := c.getTranscripts ts.testName
  assertThat (!setContains (Transcript.comparator planCmp) ts tss) "inserted"
  pure (c.putTranscript planCmp ts tss)

/-- `Corpus::updateTranscript`: the first transcript of the test's set with `ts`'s plan is erased, which must exist,
and `ts` goes in, which must not be there yet. -/
def updateTranscript (c : Corpus) (ts : Transcript) : Except Fault Corpus := do
  let tss := c.getTranscripts ts.testName
  assertThat (tss.any fun t => t.plan == ts.plan) "erased"
  let tss := tss.eraseP fun t => t.plan == ts.plan
  assertThat (!setContains (Transcript.comparator planCmp) ts tss) "inserted"
  pure (c.putTranscript planCmp ts tss)

/-- The corpora `addTranscript` and `updateTranscript` reach from the empty one. -/
inductive Reachable : Corpus → Prop
  | empty : Reachable empty
  | add {c c' : Corpus} {ts : Transcript} : Reachable c → c.addTranscript planCmp ts = .ok c' → Reachable c'
  | update {c c' : Corpus} {ts : Transcript} : Reachable c → c.updateTranscript planCmp ts = .ok c' → Reachable c'

/-- The invariant of the corpus: distinct keys, and sets that are non-empty, hold no transcript twice and hold only
transcripts of their key's test. -/
structure WF (c : Corpus) : Prop where
  keys : (c.transcripts.map Prod.fst).Nodup
  sets : ∀ e ∈ c.transcripts, e.2 ≠ [] ∧ e.2.Nodup ∧ ∀ t ∈ e.2, t.testName = e.1

end Corpus

/-! ## Maps and sets -/

section Maps

variable {α β : Type} [DecidableEq α] {c : Comparator α} {key x : α} {v : β}

theorem lookup_cons_ite {k : α} {b : β} {es : List (α × β)} :
    ((k, b) :: es).lookup x = if x = k then some b else es.lookup x := by
  by_cases h : x = k <;> simp [List.lookup_cons, h, beq_false_of_ne]

theorem lookup_eq_none_of_not_mem {l : List (α × β)} (h : x ∉ l.map Prod.fst) : l.lookup x = none :=
  List.lookup_eq_none_iff.mpr fun p hp => by
    simp only [bne_iff_ne, ne_eq]
    rintro rfl
    exact h (List.mem_map_of_mem _ hp)

theorem lookup_map_put : ∀ {m : List (α × β)},
    (m.map fun e => if e.1 = key then (key, v) else e).lookup x =
      if x = key then (m.lookup x).map fun _ => v else m.lookup x
  | [] => by split <;> rfl
  | (k', v') :: m => by
    by_cases hk : k' = key
    · rw [hk]
      by_cases hx : x = key <;> simp [lookup_cons_ite, hx, lookup_map_put]
    · by_cases hx : x = k'
      · subst hx
        simp [lookup_cons_ite, hk]
      · simp [lookup_cons_ite, hk, hx, lookup_map_put]

theorem lookup_mapPut {m : List (α × β)} : (mapPut c key v m).lookup x = if x = key then some v else m.lookup x := by
  unfold mapPut
  split
  · next h =>
    rw [lookup_map_put]
    split
    · next hx =>
      cases hl : m.lookup x with
      | none =>
        obtain ⟨p, hp, hpx⟩ := List.mem_map.mp h
        have := List.lookup_eq_none_iff.mp hl p hp
        simp [hpx, hx] at this
      | some b' => rfl
    · rfl
  · next h =>
    obtain ⟨l₁, l₂, rfl, he⟩ := mapEmplace_of_not_mem (c := c) (v := v) h
    simp only [List.map_append, List.mem_append, not_or] at h
    rw [he]
    by_cases hx : x = key
    · subst hx
      simp [List.lookup_append, lookup_eq_none_of_not_mem h.1]
    · simp [List.lookup_append, lookup_cons_ite, hx]

theorem nodup_keys_mapPut {m : List (α × β)} (hn : (m.map Prod.fst).Nodup) :
    ((mapPut c key v m).map Prod.fst).Nodup := by
  unfold mapPut
  split
  · have : (m.map fun e => if e.1 = key then (key, v) else e).map Prod.fst = m.map Prod.fst := by
      simp only [List.map_map]
      exact List.map_congr_left fun e _ => by by_cases he : e.1 = key <;> simp [he]
    rwa [this]
  · next h =>
    obtain ⟨l₁, l₂, rfl, he⟩ := mapEmplace_of_not_mem (c := c) (v := v) h
    rw [he]
    simp only [List.map_append, List.map_cons, List.mem_append, not_or] at hn h ⊢
    exact List.perm_middle.nodup_iff.mpr (List.nodup_cons.mpr ⟨by simpa using h, hn⟩)

theorem mem_mapPut {e : α × β} {m : List (α × β)} (h : e ∈ mapPut c key v m) : e = (key, v) ∨ e ∈ m := by
  unfold mapPut at h
  split at h
  · obtain ⟨e', he', rfl⟩ := List.mem_map.mp h
    by_cases hk : e'.1 = key <;> simp [hk, he']
  · next hn =>
    obtain ⟨l₁, l₂, rfl, he⟩ := mapEmplace_of_not_mem (c := c) (v := v) hn
    rw [he] at h
    simp only [List.mem_append, List.mem_cons] at h ⊢
    tauto

end Maps

theorem setInsert_ne_nil {α : Type} {c : Comparator α} {x : α} : ∀ {l : List α}, setInsert c x l ≠ []
  | [] => by simp [setInsert]
  | y :: ys => by unfold setInsert; split <;> [simp; split <;> simp]

theorem nodup_setInsert {α : Type} {c : Comparator α} {x : α} : ∀ {l : List α}, l.Nodup → x ∉ l → (setInsert c x l).Nodup
  | [], _, _ => by simp [setInsert]
  | y :: ys, hn, hx => by
    simp only [List.nodup_cons, List.mem_cons, not_or] at hn hx
    unfold setInsert
    split
    · exact List.nodup_cons.mpr ⟨by simp [hx.1, hx.2], List.nodup_cons.mpr hn⟩
    · split
      · refine List.nodup_cons.mpr ⟨?_, nodup_setInsert hn.2 hx.2⟩
        simp only [mem_setInsert, not_or]
        exact ⟨Ne.symm hx.1, hn.1⟩
      · exact List.nodup_cons.mpr hn

/-! ## The invariant of runs -/

namespace Corpus

variable {planCmp : Comparator Plan} {c c' : Corpus} {ts : Transcript} {k : Symbol}

theorem getTranscripts_eq_of_mem (hwf : c.WF) {s : List Transcript} (h : (k, s) ∈ c.transcripts) :
    c.getTranscripts k = s := by
  simp [getTranscripts, lookup_eq_some_of_mem hwf.keys h]

theorem mem_getTranscripts {t : Transcript} (h : t ∈ c.getTranscripts k) : ∃ s, (k, s) ∈ c.transcripts ∧ t ∈ s := by
  unfold getTranscripts at h
  cases hl : c.transcripts.lookup k with
  | none => simp [hl] at h
  | some s => exact ⟨s, mem_of_lookup_eq_some hl, by simpa [hl] using h⟩

theorem WF.testName_of_mem (hwf : c.WF) {t : Transcript} (h : t ∈ c.getTranscripts k) : t.testName = k := by
  obtain ⟨s, hs, ht⟩ := mem_getTranscripts h
  exact (hwf.sets _ hs).2.2 t ht

theorem WF.nodup_getTranscripts (hwf : c.WF) (k : Symbol) : (c.getTranscripts k).Nodup := by
  unfold getTranscripts
  cases hl : c.transcripts.lookup k with
  | none => simp
  | some s => exact (hwf.sets _ (mem_of_lookup_eq_some hl)).2.1

theorem getTranscripts_putTranscript {tss : List Transcript} :
    (c.putTranscript planCmp ts tss).getTranscripts k =
      if k = ts.testName then setInsert (Transcript.comparator planCmp) ts tss else c.getTranscripts k := by
  unfold getTranscripts putTranscript
  rw [lookup_mapPut]
  split <;> rfl

/-- The sets after an `addTranscript`: the transcript joins its test's set, and nothing leaves. -/
theorem mem_addTranscript (h : c.addTranscript planCmp ts = .ok c') (k : Symbol) (t : Transcript) :
    t ∈ c'.getTranscripts k ↔ k = ts.testName ∧ t = ts ∨ t ∈ c.getTranscripts k := by
  obtain ⟨_, -, h⟩ := bind_eq_ok.mp h
  cases h
  rw [getTranscripts_putTranscript]
  split
  · next hk => simp [hk]
  · next hk => simp [hk]

/-- Putting a transcript into a part of its test's set that does not hold it keeps the invariant. -/
theorem WF.putTranscript (hwf : c.WF) {tss : List Transcript} (hsub : ∀ t ∈ tss, t ∈ c.getTranscripts ts.testName)
    (hnd : tss.Nodup) (hts : ts ∉ tss) : (c.putTranscript planCmp ts tss).WF where
  keys := nodup_keys_mapPut hwf.keys
  sets e he := by
    rcases mem_mapPut he with rfl | he
    · refine ⟨setInsert_ne_nil, nodup_setInsert hnd hts, fun t ht => ?_⟩
      rcases mem_setInsert.mp ht with rfl | ht
      · rfl
      · exact hwf.testName_of_mem (hsub t ht)
    · exact hwf.sets e he

theorem WF.addTranscript (hwf : c.WF) (h : c.addTranscript planCmp ts = .ok c') : c'.WF := by
  obtain ⟨_, hin, h⟩ := bind_eq_ok.mp h
  cases h
  exact hwf.putTranscript (fun _ => id) (hwf.nodup_getTranscripts _) (setContains_eq_false.mp (by simpa using hin))

theorem WF.updateTranscript (hwf : c.WF) (h : c.updateTranscript planCmp ts = .ok c') : c'.WF := by
  obtain ⟨_, -, h⟩ := bind_eq_ok.mp h
  obtain ⟨_, hin, h⟩ := bind_eq_ok.mp h
  cases h
  exact hwf.putTranscript (fun _ ht => List.mem_of_mem_eraseP ht)
    ((hwf.nodup_getTranscripts _).sublist (List.eraseP_sublist _)) (setContains_eq_false.mp (by simpa using hin))

/-- Every corpus the two operations reach keeps the invariant. -/
theorem Reachable.wf (h : c.Reachable planCmp) : c.WF := by
  induction h with
  | empty => exact ⟨List.nodup_nil, fun _ h => absurd h (List.not_mem_nil _)⟩
  | add _ h ih => exact ih.addTranscript h
  | update _ h ih => exact ih.updateTranscript h

end Corpus

end Photesthesis
