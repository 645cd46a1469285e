import Photesthesis.Test.Administer

/-!
# What initialisation and expansion add to the corpus

`Test::initializeCorpusFromKPaths` and `Test::randomlyExpandCorpus` run plan after plan, and keep a run
(`Test::runPlanAndMaybeExpandCorpus`) only when its trajectory is no key of their map of trajectories and its
transcript is not in the corpus; a kept run goes into both. Over any number of plans and any draws this keeps one
invariant (`Test.Grows`): the map is a `std::map` whose entries are runs of their plans under those runs'
trajectories (`Test.RunsMap`), it only grows, the corpus keeps every transcript it had, and each transcript the
corpus gains is an entry of the map under a key the map did not have when the loop started.

So a call adds runs of their plans whose trajectories are new to the map it started from, one transcript per
trajectory (`Test.Grows.addsNovel`), for the initialisation (`Test.initializeCorpusFromKPaths_addsNovel`) and for the
expansion from any such map (`Test.randomlyExpandCorpus_addsNovel`). The check fills such a map
(`Test.checkCorpus_runsMap`), and so every call of `Test::administer` adds to the corpus it checked one transcript per
trajectory that the check did not meet (`Test.administer_adds_novel`).
-/

namespace Photesthesis

/-! ## `std::map::emplace` on a map in key order -/

section Emplace

variable {α β : Type} {c : Comparator α} {key : α} {v : β}

/-- `emplace` keeps every entry. -/
theorem mem_mapEmplace_of_mem {x : α × β} : ∀ {m : List (α × β)}, x ∈ m → x ∈ mapEmplace c key v m
  | [], h => absurd h (List.not_mem_nil _)
  | (k', v') :: m, h => by
    unfold mapEmplace
    split
    · exact List.mem_cons_of_mem _ h
    · split
      · rcases List.mem_cons.mp h with rfl | h
        · exact List.mem_cons_self _ _
        · exact List.mem_cons_of_mem _ (mem_mapEmplace_of_mem h)
      · exact h

/-- A key that is not in the map is emplaced with its value. -/
theorem mem_mapEmplace_of_not_mem {m : List (α × β)} (h : key ∉ m.map Prod.fst) : (key, v) ∈ mapEmplace c key v m := by
  obtain ⟨l₁, l₂, -, he⟩ := mapEmplace_of_not_mem (c := c) (v := v) h
  rw [he]
  exact List.mem_append_right _ (List.mem_cons_self _ _)

end Emplace

theorem UInt64.comparator_transitive : UInt64.comparator.Transitive :=
  ⟨fun h₁ h₂ => by simp only [UInt64.comparator, decide_eq_true_eq] at *; exact UInt64.lt_trans h₁ h₂⟩

namespace Test

variable (T : Test) {planCmp : Comparator Plan} {xxHash64 : List Char → UInt64}

/-! ## The invariant -/

/-- A map of trajectories as the loops fill it: a `std::map`, its keys in increasing order, each of whose entries is
the run of its plan under that run's trajectory. -/
structure RunsMap (trajs : Trajectories) : Prop where
  sorted : trajs.Pairwise fun a b => UInt64.comparator.lt a.1 b.1 = true
  runs : ∀ e ∈ trajs, e.1 = (T.run e.2.plan).trajectory ∧ e.2 = T.transcriptOf e.2.plan

theorem RunsMap.nil : T.RunsMap [] := ⟨.nil, fun _ h => absurd h (List.not_mem_nil _)⟩

variable {T} in
/-- Emplacing a run under its trajectory keeps such a map. -/
theorem RunsMap.emplace {trajs : Trajectories} (h : T.RunsMap trajs) (plan : Plan) :
    T.RunsMap (mapEmplace UInt64.comparator (T.run plan).trajectory (T.transcriptOf plan) trajs) where
  sorted := mapEmplace_pairwise UInt64.comparator_transitive h.sorted
  runs e he := by
    rcases mem_mapEmplace he with rfl | he
    · exact ⟨rfl, rfl⟩
    · exact h.runs e he

variable {T} in
/-- A key is the key of one entry. -/
theorem RunsMap.eq_of_key {trajs : Trajectories} (h : T.RunsMap trajs) {e₁ e₂ : UInt64 × Transcript}
    (h₁ : e₁ ∈ trajs) (h₂ : e₂ ∈ trajs) (he : e₁.1 = e₂.1) : e₁ = e₂ :=
  List.inj_on_of_nodup_map (List.pairwise_map.mpr (h.sorted.imp fun hlt hk => by
    rw [hk, UInt64.comparator.irrefl] at hlt
    cases hlt)) h₁ h₂ he

/-- What the loops keep, from the map `trajs₀` and the corpus `c₀` they started from to the map `trajs` and the
corpus `c`: the map is a map of runs and keeps its entries, the corpus keeps its transcripts, each transcript the
corpus gained is in the map under a key that `trajs₀` does not have, and each entry the map gained is a transcript
the corpus gained. -/
structure Grows (trajs₀ : Trajectories) (c₀ : Corpus) (trajs : Trajectories) (c : Corpus) : Prop where
  map : T.RunsMap trajs
  entries : ∀ e ∈ trajs₀, e ∈ trajs
  keeps : ∀ k, ∀ t ∈ c₀.getTranscripts k, t ∈ c.getTranscripts k
  gained : ∀ k, ∀ t ∈ c.getTranscripts k, t ∉ c₀.getTranscripts k → ∃ e ∈ trajs, e.2 = t ∧ e.1 ∉ trajs₀.map Prod.fst
  added : ∀ e ∈ trajs, e ∉ trajs₀ → e.2 ∈ c.getTranscripts e.2.testName ∧ e.2 ∉ c₀.getTranscripts e.2.testName

variable {T} {trajs₀ trajs : Trajectories} {c₀ c : Corpus}

theorem Grows.refl (h : T.RunsMap trajs₀) : T.Grows trajs₀ c₀ trajs₀ c₀ :=
  ⟨h, fun _ => id, fun _ _ => id, fun _ _ ht hn => absurd ht hn, fun _ he hn => absurd he hn⟩

/-- One run keeps the invariant: a run that is kept goes into the map under a key it did not have. -/
theorem Grows.runPlanAndMaybeExpandCorpus (h : T.Grows trajs₀ c₀ trajs c) {plan : Plan}
    {r : Bool × Trajectories × Corpus} (hr : T.runPlanAndMaybeExpandCorpus planCmp plan trajs c = .ok r) :
    T.Grows trajs₀ c₀ r.2.1 r.2.2 := by
  rcases T.runPlanAndMaybeExpandCorpus_novel planCmp hr with rfl | ⟨-, hnew, hts, htr, hc⟩
  · exact h
  have hmem := Corpus.mem_addTranscript hc
  rw [htr]
  refine ⟨h.map.emplace plan, fun e he => mem_mapEmplace_of_mem (h.entries e he),
    fun k t ht => (hmem k t).mpr (.inr (h.keeps k t ht)), fun k t ht hn => ?_, fun e he hn => ?_⟩
  · -- the transcript gained by this run is its entry
    rcases (hmem k t).mp ht with ⟨-, rfl⟩ | ht
    · refine ⟨_, mem_mapEmplace_of_not_mem hnew, rfl, fun hk => hnew ?_⟩
      obtain ⟨e, he, hek⟩ := List.mem_map.mp hk
      exact List.mem_map.mpr ⟨e, h.entries e he, hek⟩
    · obtain ⟨e, he, het, hek⟩ := h.gained k t ht hn
      exact ⟨e, mem_mapEmplace_of_mem he, het, hek⟩
  · -- the entry of this run is its transcript
    rcases mem_mapEmplace he with rfl | he
    · exact ⟨(hmem _ _).mpr (.inl ⟨rfl, rfl⟩), fun h₀ => hts (h.keeps _ _ h₀)⟩
    · obtain ⟨h₁, h₂⟩ := h.added e he hn
      exact ⟨(hmem _ _).mpr (.inr h₁), h₂⟩

/-! ## What a call adds -/

variable (T) in
/-- What a call adds to the corpus `c₀`, from the map `trajs₀`, to reach the corpus `c`: it keeps every transcript
of `c₀`, and the transcripts it adds are runs of their plans, with trajectories that are no key of `trajs₀` and
that no two of them share. -/
structure AddsNovel (trajs₀ : Trajectories) (c₀ c : Corpus) : Prop where
  keeps : ∀ k, ∀ t ∈ c₀.getTranscripts k, t ∈ c.getTranscripts k
  runs : ∀ k, ∀ t ∈ c.getTranscripts k, t ∉ c₀.getTranscripts k →
    t = T.transcriptOf t.plan ∧ (T.run t.plan).trajectory ∉ trajs₀.map Prod.fst
  distinct : ∀ k₁ k₂ t₁ t₂, t₁ ∈ c.getTranscripts k₁ → t₁ ∉ c₀.getTranscripts k₁ → t₂ ∈ c.getTranscripts k₂ →
    t₂ ∉ c₀.getTranscripts k₂ → (T.run t₁.plan).trajectory = (T.run t₂.plan).trajectory → t₁ = t₂

theorem AddsNovel.refl : T.AddsNovel trajs₀ c c := ⟨fun _ _ => id, fun _ _ ht hn => absurd ht hn, fun _ _ _ _ ht hn => absurd ht hn⟩

/-- The invariant gives what the call added: a gained transcript is an entry of the map under its run's trajectory,
and one key has one entry. -/
theorem Grows.addsNovel (h : T.Grows trajs₀ c₀ trajs c) : T.AddsNovel trajs₀ c₀ c := by
  have entry : ∀ k t, t ∈ c.getTranscripts k → t ∉ c₀.getTranscripts k →
      ((T.run t.plan).trajectory, t) ∈ trajs ∧ t = T.transcriptOf t.plan ∧
        (T.run t.plan).trajectory ∉ trajs₀.map Prod.fst := fun k t ht hn => by
    obtain ⟨e, he, rfl, hk⟩ := h.gained k t ht hn
    obtain ⟨hkey, hrun⟩ := h.map.runs e he
    rw [← hkey]
    exact ⟨he, hrun, hk⟩
  refine ⟨h.keeps, fun k t ht hn => (entry k t ht hn).2, fun k₁ k₂ t₁ t₂ h₁ hn₁ h₂ hn₂ he => ?_⟩
  have := h.map.eq_of_key (entry k₁ t₁ h₁ hn₁).1 (entry k₂ t₂ h₂ hn₂).1 he
  exact (Prod.mk.inj this).2

/-! ## The loops keep the invariant -/

/-! ## The initialisation runs every plan of the coverings -/

/-- A run only adds to the map. -/
theorem runPlanAndMaybeExpandCorpus_entries {plan : Plan} {r : Bool × Trajectories × Corpus}
    (h : T.runPlanAndMaybeExpandCorpus planCmp plan trajs c = .ok r) {e : UInt64 × Transcript} (he : e ∈ trajs) :
    e ∈ r.2.1 := by
  rcases T.runPlanAndMaybeExpandCorpus_novel planCmp h with rfl | ⟨-, -, -, htr, -⟩
  · exact he
  · rw [htr]
    exact mem_mapEmplace_of_mem he

/-- After a run, its trajectory is a key of the map, unless its transcript was in the corpus already. -/
theorem runPlanAndMaybeExpandCorpus_seen {plan : Plan} {r : Bool × Trajectories × Corpus}
    (h : T.runPlanAndMaybeExpandCorpus planCmp plan trajs c = .ok r) :
    (T.run plan).trajectory ∈ r.2.1.map Prod.fst ∨ T.transcriptOf plan ∈ c.getTranscripts plan.testName := by
  rcases T.runPlanAndMaybeExpandCorpus_novel planCmp h with rfl | ⟨-, hnew, -, htr, -⟩
  · by_contra hn
    simp only [not_or] at hn
    unfold Test.runPlanAndMaybeExpandCorpus at h
    rw [if_pos (by simp [hn.1, setContains_eq_false.mpr hn.2])] at h
    obtain ⟨_, -, h⟩ := bind_eq_ok.mp h
    cases h
  · rw [htr]
    exact .inl (List.mem_map_of_mem _ (mem_mapEmplace_of_not_mem hnew))

/-- A loop whose steps only add to the map only adds to it. -/
theorem foldlM_entries {α β ε : Type} {f : Trajectories × β → α → Except ε (Trajectories × β)} {xs : List α}
    {acc acc' : Trajectories × β} (hf : ∀ acc x acc', f acc x = .ok acc' → ∀ e ∈ acc.1, e ∈ acc'.1)
    (h : xs.foldlM f acc = .ok acc') : ∀ e ∈ acc.1, e ∈ acc'.1 :=
  foldlM_ok_inv (fun a => ∀ e ∈ acc.1, e ∈ a.1) (fun a x a' _ ha hs e he => hf a x a' hs e (ha e he)) (fun _ => id) h

variable (T) in
theorem initStep_eq_ok {acc acc' : Trajectories × List UInt64 × Corpus} {plan : Plan}
    (h : T.initStep planCmp xxHash64 acc plan = .ok acc') :
    ∃ r, T.runPlanAndMaybeExpandCorpus planCmp plan acc.1 acc.2.2 = .ok r ∧ acc'.1 = r.2.1 ∧
      acc'.2.1 = T.noteFailure xxHash64 plan acc.2.1 ∧ acc'.2.2 = r.2.2 := by
  obtain ⟨r, hr, h⟩ := bind_eq_ok.mp h
  cases h
  exact ⟨r, hr, rfl, rfl, rfl⟩

theorem initStep_entries {acc acc' : Trajectories × List UInt64 × Corpus} {plan : Plan}
    (h : T.initStep planCmp xxHash64 acc plan = .ok acc') : ∀ e ∈ acc.1, e ∈ acc'.1 := fun _ he => by
  obtain ⟨r, hr, h₁, -, -⟩ := T.initStep_eq_ok h
  exact h₁ ▸ runPlanAndMaybeExpandCorpus_entries hr he

/-- The invariant of the initialisation from the corpus `c₀`: the loops' invariant from the empty map, with every
entry of the map a transcript of the test. -/
def InitInv (T : Test) (c₀ : Corpus) (acc : Trajectories × List UInt64 × Corpus) : Prop :=
  T.Grows [] c₀ acc.1 acc.2.2 ∧ ∀ e ∈ acc.1, e.2.testName = T.testName

/-- The loop over the plans of a covering keeps the invariant, and when the corpus had no transcript of the test,
each plan of the test leaves its trajectory a key of the map. -/
theorem initPlans_runs {plans : List Plan} (hname : ∀ p ∈ plans, p.testName = T.testName)
    {acc acc' : Trajectories × List UInt64 × Corpus} (hI : InitInv T c₀ acc)
    (h : plans.foldlM (T.initStep planCmp xxHash64) acc = .ok acc') :
    InitInv T c₀ acc' ∧ ∀ plan ∈ plans, c₀.getTranscripts T.testName = [] →
      (T.run plan).trajectory ∈ acc'.1.map Prod.fst := by
  refine foldlM_ok_forall _ (fun plan acc => c₀.getTranscripts T.testName = [] →
    (T.run plan).trajectory ∈ acc.1.map Prod.fst) (fun acc plan acc' hp hI hs => ?_) hI h
  obtain ⟨r, hr, h₁, -, h₂⟩ := T.initStep_eq_ok hs
  have hgrow := hI.1.runPlanAndMaybeExpandCorpus hr
  have hmono : ∀ x ∈ acc.1.map Prod.fst, x ∈ acc'.1.map Prod.fst := fun x hx => by
    obtain ⟨e, he, rfl⟩ := List.mem_map.mp hx
    exact List.mem_map_of_mem _ (initStep_entries hs e he)
  dsimp only [InitInv]
  rw [h₁, h₂]
  refine ⟨⟨hgrow, fun e he => ?_⟩, fun hempty => ?_, fun y hy hempty => h₁ ▸ hmono _ (hy hempty)⟩
  · -- the entry of a kept run is of the test, as its plan is
    rcases T.runPlanAndMaybeExpandCorpus_novel planCmp hr with rfl | ⟨-, -, -, htr, -⟩
    · exact hI.2 e he
    · rw [htr] at he
      rcases mem_mapEmplace he with rfl | he
      · exact hname plan hp
      · exact hI.2 e he
  · -- a run not kept for its transcript was kept before, under the same trajectory
    rcases runPlanAndMaybeExpandCorpus_seen hr with hk | ht
    · exact hk
    · rw [hname plan hp] at ht
      obtain ⟨e, he, het, -⟩ := hI.1.gained _ _ ht (by simp [hempty])
      have hkey := (hI.1.map.runs e he).1
      rw [het, transcriptOf_plan] at hkey
      exact hkey ▸ List.mem_map_of_mem _ (runPlanAndMaybeExpandCorpus_entries hr he)

/-- The initialisation keeps the invariant from the empty map, with the transcripts of the test in its map. On a
corpus with no transcript of the test, it runs every plan of the coverings for `k = 2`, ..., `kPathLength - 1` of
every seed spec, and leaves the trajectory of each a key of its map. -/
theorem initializeCorpusFromKPaths_runs {fuel kPathLength : Nat} {fs : List UInt64}
    (h : T.initializeCorpusFromKPaths planCmp xxHash64 fuel kPathLength c₀ = .ok (fs, c)) :
    ∃ trajs, T.Grows [] c₀ trajs c ∧ (∀ e ∈ trajs, e.2.testName = T.testName) ∧
      (c₀.getTranscripts T.testName = [] → ∀ spec ∈ T.seedSpecs, ∀ k, 2 ≤ k → k < kPathLength → ∀ plans,
        T.gram.populatePlansFromKPathCoverings k fuel T.testName spec = .ok plans →
        ∀ plan ∈ plans, (T.run plan).trajectory ∈ trajs.map Prod.fst) := by
  obtain ⟨⟨trajs, fs', c'⟩, hloop, h⟩ := bind_eq_ok.mp h
  cases h
  -- the loop over the values of `k` for one spec, and its plans
  have hks : ∀ spec acc acc', InitInv T c₀ acc → (List.range' 2 (kPathLength - 2)).foldlM (fun acc k => do
      let plans ← T.gram.populatePlansFromKPathCoverings k fuel T.testName spec
      plans.foldlM (T.initStep planCmp xxHash64) acc) acc = .ok acc' →
      InitInv T c₀ acc' ∧ ∀ k ∈ List.range' 2 (kPathLength - 2), ∀ plans,
        T.gram.populatePlansFromKPathCoverings k fuel T.testName spec = .ok plans → ∀ plan ∈ plans,
          c₀.getTranscripts T.testName = [] → (T.run plan).trajectory ∈ acc'.1.map Prod.fst :=
      fun spec acc acc' hI h => by
    refine foldlM_ok_forall _ (fun k acc => ∀ plans, T.gram.populatePlansFromKPathCoverings k fuel T.testName spec =
      .ok plans → ∀ plan ∈ plans, c₀.getTranscripts T.testName = [] → (T.run plan).trajectory ∈ acc.1.map Prod.fst)
      (fun acc k acc' _ hI hs => ?_) hI h
    obtain ⟨plans, hp, hs⟩ := bind_eq_ok.mp hs
    obtain ⟨hI', hrun⟩ := initPlans_runs (Grammar.populatePlansFromKPathCoverings_testName hp) hI hs
    refine ⟨hI', fun plans' hp' => ?_, fun k' hk' plans' hp' plan hplan hempty => ?_⟩
    · rw [hp] at hp'
      cases hp'
      exact hrun
    · obtain ⟨e, he, hek⟩ := List.mem_map.mp (hk' plans' hp' plan hplan hempty)
      exact hek ▸ List.mem_map_of_mem _ (foldlM_entries (fun _ _ _ => initStep_entries) hs e he)
  have hmono : ∀ spec acc acc', (List.range' 2 (kPathLength - 2)).foldlM (fun acc k => do
      let plans ← T.gram.populatePlansFromKPathCoverings k fuel T.testName spec
      plans.foldlM (T.initStep planCmp xxHash64) acc) acc = .ok acc' → ∀ e ∈ acc.1, e ∈ acc'.1 :=
    fun _ _ _ => foldlM_entries fun _ _ _ hs => by
      obtain ⟨_, -, hs⟩ := bind_eq_ok.mp hs
      exact foldlM_entries (fun _ _ _ => initStep_entries) hs
  obtain ⟨hI, hall⟩ := foldlM_ok_forall (InitInv T c₀) (fun spec acc => ∀ k ∈ List.range' 2 (kPathLength - 2),
    ∀ plans, T.gram.populatePlansFromKPathCoverings k fuel T.testName spec = .ok plans →
      ∀ plan ∈ plans, c₀.getTranscripts T.testName = [] → (T.run plan).trajectory ∈ acc.1.map Prod.fst)
    (fun acc spec acc' _ hI hs => ⟨(hks spec acc acc' hI hs).1, (hks spec acc acc' hI hs).2,
      fun spec' hq k hk plans hp plan hplan hempty => by
        obtain ⟨e, he, hek⟩ := List.mem_map.mp (hq k hk plans hp plan hplan hempty)
        exact hek ▸ List.mem_map_of_mem _ (hmono spec acc acc' hs e he)⟩)
    ⟨Grows.refl (RunsMap.nil T), fun _ h => absurd h (List.not_mem_nil _)⟩ hloop
  exact ⟨trajs, hI.1, hI.2, fun hempty spec hs k hk₁ hk₂ plans hp plan hplan =>
    hall spec hs k (List.mem_range'_1.mpr ⟨hk₁, by omega⟩) plans hp plan hplan hempty⟩

/-- The initialisation keeps the invariant. -/
theorem initializeCorpusFromKPaths_addsNovel {fuel kPathLength : Nat} {fs : List UInt64}
    (h : T.initializeCorpusFromKPaths planCmp xxHash64 fuel kPathLength c₀ = .ok (fs, c)) : T.AddsNovel [] c₀ c :=
  let ⟨_, hg, _⟩ := initializeCorpusFromKPaths_runs h
  hg.addsNovel

section Expand

variable {σ : Type} {uniform : σ → Nat → Nat × σ}

variable (T) in
/-- A step of the expansion is the run of some plan from the map and corpus it was given: whatever the spec was
drawn from, what follows it is `runPlanAndMaybeExpandCorpus`. -/
theorem expandStep_eq_ok {depth : Nat} {acc acc' : Trajectories × List UInt64 × TestState σ}
    (hs : T.expandStep planCmp xxHash64 uniform depth acc = .ok acc') :
    ∃ plan r, T.runPlanAndMaybeExpandCorpus planCmp plan acc.1 acc.2.2.corp = .ok r ∧ acc'.1 = r.2.1 ∧
      acc'.2.1 = T.noteFailure xxHash64 plan acc.2.1 ∧ acc'.2.2.corp = r.2.2 := by
  unfold Test.expandStep at hs
  dsimp only at hs
  split at hs
  · -- the spec of a seed
    obtain ⟨_, -, hs⟩ := bind_eq_ok.mp hs
    obtain ⟨_, -, hs⟩ := bind_eq_ok.mp hs
    obtain ⟨r, hr, hs⟩ := bind_eq_ok.mp hs
    cases hs
    exact ⟨_, r, hr, rfl, rfl, rfl⟩
  · -- the spec of a plan of the map
    obtain ⟨_, -, hs⟩ := bind_eq_ok.mp hs
    obtain ⟨_, -, hs⟩ := bind_eq_ok.mp hs
    obtain ⟨_, -, hs⟩ := bind_eq_ok.mp hs
    obtain ⟨_, -, hs⟩ := bind_eq_ok.mp hs
    obtain ⟨r, hr, hs⟩ := bind_eq_ok.mp hs
    cases hs
    exact ⟨_, r, hr, rfl, rfl, rfl⟩

/-- A step of the expansion keeps the invariant. -/
theorem Grows.expandStep {depth : Nat} {acc acc' : Trajectories × List UInt64 × TestState σ}
    (h : T.Grows trajs₀ c₀ acc.1 acc.2.2.corp) (hs : T.expandStep planCmp xxHash64 uniform depth acc = .ok acc') :
    T.Grows trajs₀ c₀ acc'.1 acc'.2.2.corp := by
  obtain ⟨_, r, hr, h₁, -, h₂⟩ := T.expandStep_eq_ok hs
  rw [h₁, h₂]
  exact h.runPlanAndMaybeExpandCorpus hr

/-- The expansion from a map of runs keeps it. -/
theorem randomlyExpandCorpus_addsNovel {steps depth : Nat} {st st' : TestState σ} {fs : List UInt64}
    (hm : T.RunsMap trajs₀) (h : T.randomlyExpandCorpus planCmp xxHash64 uniform trajs₀ steps depth st = .ok (fs, st')) :
    T.AddsNovel trajs₀ st.corp st'.corp := by
  unfold randomlyExpandCorpus at h
  split at h
  · cases h
    exact AddsNovel.refl
  obtain ⟨⟨trajs, fs', st''⟩, hloop, h⟩ := bind_eq_ok.mp h
  cases h
  have hg : T.Grows trajs₀ st.corp trajs st'.corp := foldlM_ok_inv
    (fun acc => T.Grows trajs₀ st.corp acc.1 acc.2.2.corp) (fun _ _ _ _ hI hs => hI.expandStep hs) (Grows.refl hm) hloop
  exact hg.addsNovel

end Expand

/-! ## The check fills a map of runs -/

section Check

variable {testHash : Option UInt64}

theorem RunsMap.checkBody {ts : Transcript} {acc acc' : List UInt64 × Trajectories × Corpus} (h : T.RunsMap acc.2.1)
    (hb : T.checkBody planCmp xxHash64 testHash ts acc = .ok acc') : T.RunsMap acc'.2.1 := by
  unfold Test.checkBody at hb
  split at hb
  · cases hb
    exact h
  obtain ⟨c', -, hb⟩ := bind_eq_ok.mp hb
  split at hb
  · cases hb
  · cases hb
    exact h.emplace ts.plan

theorem RunsMap.checkLoop : ∀ {fuel : Nat} {ts : Transcript} {acc acc' : List UInt64 × Trajectories × Corpus},
    T.RunsMap acc.2.1 → T.checkLoop planCmp xxHash64 testHash fuel ts acc = .ok acc' → T.RunsMap acc'.2.1
  | 0, _, _, _, _, hl => by cases hl
  | fuel + 1, ts, acc, acc', h, hl => by
    obtain ⟨acc'', hb, hl⟩ := bind_eq_ok.mp hl
    have h'' := h.checkBody hb
    split at hl
    · cases hl
      exact h''
    · exact RunsMap.checkLoop h'' hl

/-- The map the check fills is a map of runs. -/
theorem checkCorpus_runsMap {fuel : Nat} {fs : List UInt64}
    (h : T.checkCorpus planCmp xxHash64 fuel testHash c₀ = .ok (fs, trajs, c)) : T.RunsMap trajs := by
  unfold checkCorpus at h
  split at h
  · cases h
    exact RunsMap.nil T
  · exact (RunsMap.nil T).checkLoop h

end Check

/-! ## What `administer` adds -/

/-- Every call of `Test::administer` that returns adds to the corpus runs of their plans, one transcript per
trajectory. On a corpus with no transcript of the test, the initialisation keeps every transcript and adds runs with
pairwise distinct trajectories. Otherwise, from the corpus and the map of trajectories its check leaves, the call
keeps every transcript and adds runs with pairwise distinct trajectories, none of which the check met. -/
theorem administer_adds_novel {σ : Type} (T : Test) (planCmp : Comparator Plan) (xxHash64 : List Char → UInt64)
    (uniform : σ → Nat → Nat × σ) (seed : Nat → σ) (fuel steps kPathLength depth : Nat) (env : Env)
    (st st' : TestState σ) (fs : List UInt64)
    (h : T.administer planCmp xxHash64 uniform seed fuel env steps kPathLength depth st = .ok (fs, st')) :
    (st.corp.getTranscripts T.testName = [] → T.AddsNovel [] st.corp st'.corp) ∧
    ∀ fs₀ trajs c, T.checkCorpus planCmp xxHash64 fuel env.testHash st.corp = .ok (fs₀, trajs, c) →
      T.AddsNovel trajs c st'.corp := by
  have hinit : st.corp.getTranscripts T.testName = [] → T.AddsNovel [] st.corp st'.corp := fun he => by
    unfold administer at h
    split at h <;>
    · simp only [he, List.isEmpty_nil, if_true] at h
      obtain ⟨⟨fs', c'⟩, hi, h⟩ := bind_eq_ok.mp h
      cases h
      exact initializeCorpusFromKPaths_addsNovel hi
  refine ⟨hinit, fun fs₀ trajs c hc => ?_⟩
  cases he : st.corp.getTranscripts T.testName with
  | nil =>
    rw [checkCorpus, he] at hc
    cases hc
    exact hinit he
  | cons ts rest =>
    unfold administer at h
    split at h <;>
    · simp only [he, List.isEmpty_cons, Bool.false_eq_true, if_false, hc] at h
      obtain ⟨r, hr, h⟩ := bind_eq_ok.mp h
      cases hr
      split at h
      · cases h
        exact AddsNovel.refl
      · exact randomlyExpandCorpus_addsNovel (checkCorpus_runsMap hc) h

/-- The choice grammar's test on the corpus of the run of `choicePlanF`, with two expansion steps: the check records
that run's trajectory, the first step generates `choicePlanB`, whose run is new and is kept, and the second generates
it again, whose run the corpus already holds. -/
theorem administer_adds_novel_echo :
    echoTest.administer Plan.fieldOrder (fun _ => 0) (fun (g : Unit) _ => (0, g)) (fun _ => ()) 4 Env.unset 2 3 2
      ⟨echoCorpusF, ()⟩ =
        .ok ([], ⟨echoCorpusF.putTranscript Plan.fieldOrder (echoTest.transcriptOf choicePlanB)
          [echoTest.transcriptOf choicePlanF], ()⟩) ∧
    ((echoCorpusF.getTranscripts echoTest.testName = [] → echoTest.AddsNovel [] echoCorpusF
        (echoCorpusF.putTranscript Plan.fieldOrder (echoTest.transcriptOf choicePlanB) [echoTest.transcriptOf choicePlanF])) ∧
      ∀ fs₀ trajs c, echoTest.checkCorpus Plan.fieldOrder (fun _ => 0) 4 Env.unset.testHash echoCorpusF =
          .ok (fs₀, trajs, c) →
        echoTest.AddsNovel trajs c
          (echoCorpusF.putTranscript Plan.fieldOrder (echoTest.transcriptOf choicePlanB) [echoTest.transcriptOf choicePlanF])) :=
  ⟨rfl, administer_adds_novel echoTest Plan.fieldOrder (fun _ => 0) (fun (g : Unit) _ => (0, g)) (fun _ => ()) 4 2 3 2
    Env.unset ⟨echoCorpusF, ()⟩ ⟨echoCorpusF.putTranscript Plan.fieldOrder (echoTest.transcriptOf choicePlanB)
      [echoTest.transcriptOf choicePlanF], ()⟩ [] rfl⟩

/-- On a corpus with no transcript of the test, `Test::administer` runs every plan of the k-path coverings for
`k = 2`, ..., `K - 1` of every seed spec, where `K` is the k-path length it uses, and afterwards the trajectory of
each is the trajectory of exactly one transcript of the test; every transcript of the test is its plan's run. -/
theorem administer_init_covers {σ : Type} (T : Test) (planCmp : Comparator Plan) (xxHash64 : List Char → UInt64)
    (uniform : σ → Nat → Nat × σ) (seed : Nat → σ) (fuel steps kPathLength depth : Nat) (env : Env)
    (st st' : TestState σ) (fs : List UInt64) (hempty : st.corp.getTranscripts T.testName = [])
    (h : T.administer planCmp xxHash64 uniform seed fuel env steps kPathLength depth st = .ok (fs, st')) :
    (∀ t ∈ st'.corp.getTranscripts T.testName, t = T.transcriptOf t.plan) ∧
    ∀ spec ∈ T.seedSpecs, ∀ k, 2 ≤ k → k < env.kPathLength.getD kPathLength → ∀ plans,
      T.gram.populatePlansFromKPathCoverings k fuel T.testName spec = .ok plans →
      ∀ plan ∈ plans, ∃! t, t ∈ st'.corp.getTranscripts T.testName ∧
        (T.run t.plan).trajectory = (T.run plan).trajectory := by
  have hinit : ∃ c fs', T.initializeCorpusFromKPaths planCmp xxHash64 fuel (env.kPathLength.getD kPathLength) st.corp =
      .ok (fs', c) ∧ st'.corp = c := by
    unfold administer at h
    split at h <;>
    · simp only [hempty, List.isEmpty_nil, if_true] at h
      obtain ⟨⟨fs', c⟩, hi, h⟩ := bind_eq_ok.mp h
      cases h
      exact ⟨c, fs', hi, rfl⟩
  obtain ⟨c, fs', hi, hc⟩ := hinit
  rw [hc]
  obtain ⟨trajs, hg, hnames, hcov⟩ := initializeCorpusFromKPaths_runs hi
  have hnew : ∀ t ∈ c.getTranscripts T.testName, t ∉ st.corp.getTranscripts T.testName := by simp [hempty]
  have hadd := hg.addsNovel
  refine ⟨fun t ht => (hadd.runs _ t ht (hnew t ht)).1, fun spec hs k hk₁ hk₂ plans hp plan hplan => ?_⟩
  obtain ⟨e, he, hek⟩ := List.mem_map.mp (hcov hempty spec hs k hk₁ hk₂ plans hp plan hplan)
  have hin : e.2 ∈ c.getTranscripts T.testName := hnames e he ▸ (hg.added e he (List.not_mem_nil _)).1
  refine ⟨e.2, ⟨hin, (hg.map.runs e he).1.symm.trans hek⟩, fun t ⟨ht, htr⟩ => ?_⟩
  exact hadd.distinct _ _ _ _ ht (hnew t ht) hin (hnew _ hin) (htr.trans ((hg.map.runs e he).1.symm.trans hek).symm)

/-- The choice grammar's test on the empty corpus, with a k-path length of three: the 2-path coverings of its seed
spec give the two plans `choicePlanB` and `choicePlanF`, whose runs have different trajectories, and both are kept. -/
theorem administer_init_covers_echo :
    Corpus.empty.getTranscripts echoTest.testName = [] ∧
    echoTest.gram.populatePlansFromKPathCoverings 2 4 echoTest.testName [(Grammar.litParam, Grammar.choiceA)] =
      .ok [choicePlanB, choicePlanF] ∧
    echoTest.administer Plan.fieldOrder (fun _ => 0) (fun (g : Unit) _ => (0, g)) (fun _ => ()) 4 Env.unset 0 3 2
      ⟨Corpus.empty, ()⟩ =
        .ok ([], ⟨(Corpus.empty.putTranscript Plan.fieldOrder (echoTest.transcriptOf choicePlanB) []).putTranscript
          Plan.fieldOrder (echoTest.transcriptOf choicePlanF) [echoTest.transcriptOf choicePlanB], ()⟩) ∧
    ((∀ t ∈ ((Corpus.empty.putTranscript Plan.fieldOrder (echoTest.transcriptOf choicePlanB) []).putTranscript
        Plan.fieldOrder (echoTest.transcriptOf choicePlanF) [echoTest.transcriptOf choicePlanB]).getTranscripts
          echoTest.testName, t = echoTest.transcriptOf t.plan) ∧
      ∀ spec ∈ echoTest.seedSpecs, ∀ k, 2 ≤ k → k < Env.unset.kPathLength.getD 3 → ∀ plans,
        echoTest.gram.populatePlansFromKPathCoverings k 4 echoTest.testName spec = .ok plans →
        ∀ plan ∈ plans, ∃! t, t ∈ ((Corpus.empty.putTranscript Plan.fieldOrder (echoTest.transcriptOf choicePlanB)
          []).putTranscript Plan.fieldOrder (echoTest.transcriptOf choicePlanF)
            [echoTest.transcriptOf choicePlanB]).getTranscripts echoTest.testName ∧
          (echoTest.run t.plan).trajectory = (echoTest.run plan).trajectory) :=
  ⟨rfl, rfl, rfl, administer_init_covers echoTest Plan.fieldOrder (fun _ => 0) (fun (g : Unit) _ => (0, g))
    (fun _ => ()) 4 0 3 2 Env.unset ⟨Corpus.empty, ()⟩
    ⟨(Corpus.empty.putTranscript Plan.fieldOrder (echoTest.transcriptOf choicePlanB) []).putTranscript
      Plan.fieldOrder (echoTest.transcriptOf choicePlanF) [echoTest.transcriptOf choicePlanB], ()⟩ [] rfl rfl⟩

end Test

end Photesthesis
