import Photesthesis.Grammar.KPathComplete

/-!
# Populating plans

`Grammar::populatePlansFromKPathCoverings` makes one plan of each parameter map `kPathCoverings` returns, and
`Grammar::randomlyPopulatePlan` one plan with a value for each parameter from `randomValueFromRule`, which expands
a uniformly picked active production of the rule down to a depth limit.

Every value either generates is a list headed by its rule's symbol (`kPathCovering_derives`,
`randomValueFromRule_head`). A random plan therefore binds every parameter to a value of its rule
(`randomlyPopulatePlan_getParamSpecs`), and so do the plans of the coverings when every rule has a k-path
(`populatePlansFromKPathCoverings_getParamSpecs`). A rule with no k-path has no covering value, though: the
parameter it comes first for is bound by no plan (`populatePlansFromKPathCoverings_unbound`), and a plan of one
parameter whose rule has only literals is no plan at all for `k ≥ 3` (`litGrammar_populatePlans_nil`).
-/

namespace Photesthesis

namespace Grammar

variable (G : Grammar) (k : Nat)

/-- `Grammar::populatePlansFromKPathCoverings`: a plan of each parameter map, in the maps' order. The order of the
`std::set<Plan>` it builds compares `Value::getSize`, which the sources do not define; plans of distinct maps are
distinct, so the set has one plan per map. -/
def populatePlansFromKPathCoverings (fuel : Nat) (tname : Symbol) (specs : ParamSpecs) : Except Fault (List Plan) := do
  let pset ← G.kPathCoverings k fuel specs
  pure (pset.map (Plan.ofParams tname))

/-! ## The values of a covering -/

variable {G} {k}

/-- Every plan is of the test it was asked for. -/
theorem populatePlansFromKPathCoverings_testName {fuel : Nat} {tname : Symbol} {specs : ParamSpecs}
    {plans : List Plan} (h : G.populatePlansFromKPathCoverings k fuel tname specs = .ok plans) :
    ∀ p ∈ plans, p.testName = tname := by
  obtain ⟨pset, -, h⟩ := bind_eq_ok.mp h
  cases h
  intro p hp
  obtain ⟨_, -, rfl⟩ := List.mem_map.mp hp
  rfl

theorem getRootRef_rule {rule : Symbol} {r : Ref} (h : G.getRootRef rule = .ok r) : r.rule = rule := by
  unfold getRootRef at h
  split at h <;> cases h
  rfl

/-- A derivation is a list headed by its rule's symbol. -/
theorem headSymbol_of_derives {ns : List Symbol} {r : Ref} {v : Value} (h : Derives G ns r v) :
    headSymbol v = .ok r.rule := by
  cases h
  exact headSymbol_ofList _ _

section Covering

variable {rule : Symbol} {rootRef : Ref} {ctx₀ : Context}

/-- Every value the covering loop adds is a derivation from the root ref. -/
theorem kPathCoveringLoop_derives (hroot : G.getRootRef rule = .ok rootRef) :
    ∀ fuel d st res res', G.kPathCoveringLoop k rule fuel d st res = .ok res' → st.context = ctx₀ →
      (∀ v ∈ res, Derives G ctx₀.names rootRef v) → ∀ v ∈ res', Derives G ctx₀.names rootRef v
  | 0, _, _, _, _, h, _, _ => by cases h
  | fuel + 1, d, st, res, res', h, hctx, hinv => by
    unfold kPathCoveringLoop at h
    split at h
    · cases h
      exact hinv
    · rw [hroot, ok_bind] at h
      obtain ⟨⟨⟨kc, nkc⟩, st'⟩, hcall, h⟩ := bind_eq_ok.mp h
      have hs := kPathCoveringOrMinimalExpansion_spec d [] rootRef st kc nkc st' hcall
      have hctx' : st'.context = ctx₀ := hs.context_eq.trans hctx
      dsimp only at h
      split at h
      · exact kPathCoveringLoop_derives hroot fuel _ _ _ _ h hctx' hinv
      · refine kPathCoveringLoop_derives hroot fuel _ _ _ _ h hctx' fun v hv => ?_
        rcases mem_setOfList_aux.mp hv with hv | hv
        · exact hctx ▸ hs.derives v (.inl hv)
        · exact hinv v hv

/-- Every value of a covering is a derivation from the root ref, with the parameters' names in scope. -/
theorem kPathCovering_derives {fuel : Nat} {specs : ParamSpecs} {vals : List Value}
    (h : G.kPathCovering k fuel rule specs = .ok vals) (hroot : G.getRootRef rule = .ok rootRef) :
    ∀ v ∈ vals, Derives G (specs.map Prod.fst) rootRef v := by
  unfold kPathCovering at h
  obtain ⟨paths, -, h⟩ := bind_eq_ok.mp h
  simpa using kPathCoveringLoop_derives hroot _ _ _ _ _ h rfl (fun _ h => absurd h (List.not_mem_nil _))

/-- Every value of a covering is a list headed by the rule's symbol. -/
theorem kPathCovering_head {fuel : Nat} {specs : ParamSpecs} {vals : List Value}
    (h : G.kPathCovering k fuel rule specs = .ok vals) : ∀ v ∈ vals, headSymbol v = .ok rule := by
  unfold kPathCovering at h
  obtain ⟨paths, hpaths, -⟩ := bind_eq_ok.mp h
  obtain ⟨r, hr⟩ := generateKPathSet_getRootRef hpaths
  exact fun v hv => getRootRef_rule hr ▸ headSymbol_of_derives (kPathCovering_derives h hr v hv)

/-- A rule with a k-path has a value in its covering. -/
theorem kPathCovering_ne_nil {fuel : Nat} {specs : ParamSpecs} {vals : List Value} {paths : List KPath}
    (h : G.kPathCovering k fuel rule specs = .ok vals) (hpaths : G.generateKPathSet k rule specs = .ok paths)
    (hne : paths ≠ []) : vals ≠ [] := by
  obtain ⟨r, hr⟩ := generateKPathSet_getRootRef hpaths
  obtain ⟨P, hP⟩ := List.exists_mem_of_ne_nil _ hne
  unfold kPathCovering at h
  rw [hpaths, ok_bind] at h
  obtain ⟨v, hv, -⟩ := kPathCoveringLoop_covers hr _ _ _ _ _ h rfl (fun P hP => .inl hP) P hP
  exact List.ne_nil_of_mem hv

/-- A rule without a k-path has no value in its covering. -/
theorem kPathCovering_eq_nil {fuel : Nat} {specs : ParamSpecs} {vals : List Value}
    (h : G.kPathCovering k fuel rule specs = .ok vals) (hpaths : G.generateKPathSet k rule specs = .ok []) :
    vals = [] := by
  unfold kPathCovering at h
  rw [hpaths, ok_bind] at h
  cases fuel with
  | zero => cases h
  | succ fuel => cases h; rfl

end Covering

/-! ## The plans of the coverings -/

/-- The parameter maps of the coverings so far, for the parameters `done`: none before the first, and then each
binding them all. -/
def CoveringsBind (done : ParamSpecs) (res : List Params) : Prop :=
  (done = [] ↔ res = []) ∧ ∀ m ∈ res, BindsSpecs m done

section Coverings

variable {fuel : Nat} {specs : ParamSpecs}

/-- When every rule has a k-path, the parameter maps of the coverings bind every parameter, for parameters in
key order. -/
theorem kPathCoverings_bindsSpecs {pset : List Params}
    (hsorted : specs.Pairwise (fun a b => a.1.lt b.1 = true))
    (hpaths : ∀ spec ∈ specs, ∃ paths, G.generateKPathSet k spec.2 specs = .ok paths ∧ paths ≠ [])
    (h : G.kPathCoverings k fuel specs = .ok pset) : CoveringsBind specs pset := by
  refine foldlM_ok_invariant CoveringsBind [] (fun ys x zs res res' he hinv hstep => ?_) ⟨by simp, by simp⟩ h
  rw [List.nil_append] at he
  have hx : x ∈ specs := he ▸ List.mem_append_right _ (List.mem_cons_self _ _)
  have hlt : ∀ y ∈ ys, y.1.lt x.1 = true := fun y hy =>
    (List.pairwise_append.mp (he ▸ hsorted)).2.2 y hy x (List.mem_cons_self _ _)
  obtain ⟨vals, hvals, hstep⟩ := bind_eq_ok.mp hstep
  obtain ⟨paths, hp, hne⟩ := hpaths x hx
  have hvne := kPathCovering_ne_nil hvals hp hne
  have hhead := kPathCovering_head hvals
  split at hstep
  · next hres =>
    have hys : ys = [] := hinv.1.mpr (List.isEmpty_iff.mp hres)
    cases hstep
    subst hys
    obtain ⟨v, hv⟩ := List.exists_mem_of_ne_nil _ hvne
    refine ⟨⟨fun h => by simp at h, fun h => absurd h
      (List.ne_nil_of_mem (mem_foldl_setInsert.mpr (.inl ⟨v, hv, rfl⟩)))⟩, fun m hm => ?_⟩
    rcases mem_foldl_setInsert.mp hm with ⟨v, hv, rfl⟩ | hm
    · exact .cons ⟨rfl, hhead v hv⟩ .nil
    · simp [List.isEmpty_iff.mp hres] at hm
  · next hres =>
    have hdone := cycle_eq_ok (setInsert_mem_law _) hstep
    have hres' : res ≠ [] := fun h => by simp [h] at hres
    refine ⟨⟨fun h => absurd h (by simp), fun h => ?_⟩, fun m hm => ?_⟩
    · obtain ⟨m, hm⟩ := List.exists_mem_of_ne_nil _ hres'
      obtain ⟨v, -, hv⟩ := hdone.1 m hm
      exact absurd (h ▸ hv) (List.not_mem_nil _)
    · obtain ⟨m₀, hm₀, v, hv, rfl⟩ := hdone.2.2 m hm
      exact (hinv.2 m₀ hm₀).mapEmplace hlt (hhead v hv)

/-- When every rule has a k-path, `populatePlansFromKPathCoverings` returns a plan for a non-empty `ParamSpecs`
in key order, and each plan it returns is of the test and binds every parameter to a value of its rule. -/
theorem populatePlansFromKPathCoverings_getParamSpecs {tname : Symbol} {plans : List Plan}
    (hsorted : specs.Pairwise (fun a b => a.1.lt b.1 = true))
    (hpaths : ∀ spec ∈ specs, ∃ paths, G.generateKPathSet k spec.2 specs = .ok paths ∧ paths ≠ [])
    (h : G.populatePlansFromKPathCoverings k fuel tname specs = .ok plans) :
    (specs ≠ [] → plans ≠ []) ∧ ∀ p ∈ plans, p.testName = tname ∧ p.getParamSpecs = .ok specs := by
  unfold populatePlansFromKPathCoverings at h
  obtain ⟨pset, hpset, h⟩ := bind_eq_ok.mp h
  cases h
  have hb := kPathCoverings_bindsSpecs hsorted hpaths hpset
  refine ⟨fun hne => by simpa using mt hb.1.mpr hne, fun p hp => ?_⟩
  obtain ⟨m, hm, rfl⟩ := List.mem_map.mp hp
  exact ⟨rfl, getParamSpecs_of_bindsSpecs (hb.2 m hm)⟩

/-- When the first parameter's rule has no k-path, no plan binds the first parameter, for parameters in key
order. -/
theorem populatePlansFromKPathCoverings_unbound {tname : Symbol} {spec : Symbol × Symbol} {rest : ParamSpecs}
    {plans : List Plan} (hsorted : (spec :: rest).Pairwise (fun a b => a.1.lt b.1 = true))
    (hnil : G.generateKPathSet k spec.2 (spec :: rest) = .ok [])
    (h : G.populatePlansFromKPathCoverings k fuel tname (spec :: rest) = .ok plans) :
    ∀ p ∈ plans, spec.1 ∉ p.params.map Prod.fst := by
  unfold populatePlansFromKPathCoverings kPathCoverings at h
  obtain ⟨pset, hpset, h⟩ := bind_eq_ok.mp h
  cases h
  rw [List.foldlM_cons] at hpset
  obtain ⟨res₁, h₁, hrest⟩ := bind_eq_ok.mp hpset
  obtain ⟨vals, hvals, h₁⟩ := bind_eq_ok.mp h₁
  rw [kPathCovering_eq_nil hvals hnil] at h₁
  cases h₁
  have hfresh : ∀ x ∈ rest, x.1 ≠ spec.1 := fun x hx he => by
    have := List.rel_of_pairwise_cons hsorted hx
    rw [he, Symbol.lt_irrefl] at this
    cases this
  have hunbound := foldlM_ok_inv (fun res : List Params => ∀ m ∈ res, spec.1 ∉ m.map Prod.fst)
    (fun res x res' hx hinv hstep => ?_) (by simp) hrest
  · intro p hp
    obtain ⟨m, hm, rfl⟩ := List.mem_map.mp hp
    exact hunbound m hm
  · obtain ⟨vals, -, hstep⟩ := bind_eq_ok.mp hstep
    split at hstep
    · cases hstep
      intro m hm
      rcases mem_foldl_setInsert.mp hm with ⟨v, -, rfl⟩ | hm
      · simpa using (hfresh x hx).symm
      · exact hinv m hm
    · intro m hm hkey
      obtain ⟨m₀, hm₀, v, -, rfl⟩ := (cycle_eq_ok (setInsert_mem_law _) hstep).2.2 m hm
      rcases mem_keys_mapEmplace hkey with he | hkey
      · exact hfresh x hx he.symm
      · exact hinv m₀ hm₀ hkey

end Coverings

/-- The rule name of `litGrammar`. -/
def litRule : Symbol := ⟨"lit".toList, by decide⟩

/-- A test name and a parameter name for `litGrammar`. -/
def litTest : Symbol := ⟨"LitTest".toList, by decide⟩

def litParam : Symbol := ⟨"n".toList, by decide⟩

/-- A grammar of one rule, whose one production is a literal. -/
def litGrammar : Grammar := ⟨[(litRule, ⟨[⟨[.lit 0 (.bool true)], []⟩]⟩)], [(litRule, 1)]⟩

/-- For `k = 3` a rule of literals has no k-path, and a test of one parameter of it gets no plan. -/
theorem litGrammar_populatePlans_nil : litGrammar.generateKPathSet 3 litRule [(litParam, litRule)] = .ok [] ∧
    ∀ fuel, litGrammar.populatePlansFromKPathCoverings 3 (fuel + 1) litTest [(litParam, litRule)] = .ok [] :=
  ⟨rfl, fun _ => rfl⟩

/-! ## Random plans -/

section Random

variable {σ : Type} (uniform : σ → Nat → Nat × σ)

/-- `pickUniform(gen, elts)`, with `uniform g n` the draw of `std::uniform_int_distribution<size_t>(0, n - 1)` from
the engine in state `g`. -/
def pickUniform {α : Type} (g : σ) (elts : List α) : Except Fault (α × σ) :=
  if elts.isEmpty then .error (.thrown "pick_uniform on empty vector") else
  match elts[(uniform g elts.length).1]? with
  | some x => .ok (x, (uniform g elts.length).2)
  | none => .error (.thrown "vector::at")

/-- An engine that draws from a queue of numbers, each taken modulo the range asked for. -/
def queueUniform (g : List Nat) (n : Nat) : Nat × List Nat := (g.headD 0 % n, g.tail)

/-- `Value::match(RuleName const&, Value&)`: a list whose head is the symbol `s`. -/
def matchesHead (v : Value) (s : Symbol) : Bool :=
  match headSymbol v with
  | .ok s' => s' == s
  | .error _ => false

/-- The signature of `randomValueFromRule` once the depth limit is fixed: the value, the engine and the context. -/
abbrev Generator (σ : Type) := Symbol → σ → Context → Except Fault (Value × σ × Context)

/-- The body of the loop over the atoms of the picked production, with `rec` the call one level deeper: a literal's
value, or the value of a ref's rule with its context extension pushed around the call. -/
def randomAtom (rec : Generator σ) (acc : List Value × σ × Context) : Atom → Except Fault (List Value × σ × Context)
  | .lit _ v => pure (acc.1 ++ [v], acc.2)
  | .ref r => do
    let (val, g, ctx) ← rec r.rule acc.2.1 (acc.2.2.push r.ctxExt)
    assertThat (matchesHead val r.rule) "val.match(ref->getRuleName(), rest)"
    pure (acc.1 ++ [val], g, ctx.pop r.ctxExt.length)

variable (G)

/-- `Grammar::randomValueFromRule`. The code asserts `val.isPair()` before matching the head, which the match
implies. -/
def randomValueFromRule : Nat → Generator σ
  | 0, _, _, _ => .error (.thrown "depth limit reached zero")
  | d + 1, rule, g, ctx => do
    let prods ← G.getActiveProductions rule (d + 1) ctx
    if prods.isEmpty then pure (.ofList [.sym rule], g, ctx) else do
    let (prod, g) ← pickUniform uniform g prods
    let (vals, g, ctx) ← prod.atoms.foldlM (randomAtom (randomValueFromRule d)) ([.sym rule], g, ctx)
    pure (.ofList vals, g, ctx)

/-- `Grammar::randomlyPopulatePlan`: a value for each parameter, each from a fresh context of the parameters. -/
def randomlyPopulatePlan (tname : Symbol) (params : ParamSpecs) (g : σ) (depthLim : Nat) :
    Except Fault (Plan × σ) :=
  params.foldlM (fun acc pair => do
    let (v, g, _) ← G.randomValueFromRule uniform depthLim pair.2 acc.2 ⟨params, []⟩
    pure (acc.1.addParam pair.1 v, g)) (Plan.ofName tname, g)

variable {G} {uniform}

/-- The step of an atom adds one value. -/
theorem randomAtom_append {rec : Generator σ} {acc acc' : List Value × σ × Context} {a : Atom}
    (h : randomAtom rec acc a = .ok acc') : ∃ x, acc'.1 = acc.1 ++ [x] := by
  cases a with
  | lit _ v =>
    cases h
    exact ⟨v, rfl⟩
  | ref r =>
    obtain ⟨⟨val, g, ctx⟩, -, h⟩ := bind_eq_ok.mp h
    obtain ⟨_, -, h⟩ := bind_eq_ok.mp h
    cases h
    exact ⟨val, rfl⟩

/-- A random value of a rule is a list headed by the rule's symbol. -/
theorem randomValueFromRule_head {d : Nat} {rule : Symbol} {g g' : σ} {ctx ctx' : Context} {v : Value}
    (h : G.randomValueFromRule uniform d rule g ctx = .ok (v, g', ctx')) : headSymbol v = .ok rule := by
  cases d with
  | zero => cases h
  | succ d =>
    unfold randomValueFromRule at h
    obtain ⟨prods, -, h⟩ := bind_eq_ok.mp h
    split at h
    · cases h
      rfl
    · obtain ⟨⟨prod, g₁⟩, -, h⟩ := bind_eq_ok.mp h
      obtain ⟨⟨vals, g₂, ctx₂⟩, hf, h⟩ := bind_eq_ok.mp h
      cases h
      obtain ⟨xs, hxs⟩ := foldlM_ok_inv (fun acc : List Value × σ × Context => ∃ xs, acc.1 = .sym rule :: xs)
        (fun _ _ _ _ ⟨xs, hxs⟩ hstep => by
          obtain ⟨x, hx⟩ := randomAtom_append hstep
          exact ⟨xs ++ [x], by rw [hx, hxs, List.cons_append]⟩) ⟨[], rfl⟩ hf
      dsimp only at hxs
      rw [hxs]
      exact headSymbol_ofList _ _

/-- A random plan is of the test, and binds every parameter to a value of its rule, for parameters in key order. -/
theorem randomlyPopulatePlan_getParamSpecs {tname : Symbol} {params : ParamSpecs} {g g' : σ} {depthLim : Nat}
    {p : Plan} (hsorted : params.Pairwise (fun a b => a.1.lt b.1 = true))
    (h : G.randomlyPopulatePlan uniform tname params g depthLim = .ok (p, g')) :
    p.testName = tname ∧ p.getParamSpecs = .ok params := by
  have hb := foldlM_ok_invariant (fun done (acc : Plan × σ) => acc.1.testName = tname ∧ BindsSpecs acc.1.params done)
    [] (fun ys x zs acc acc' he hinv hstep => ?_) (by exact ⟨rfl, .nil⟩) h
  · exact ⟨hb.1, getParamSpecs_of_bindsSpecs hb.2⟩
  · rw [List.nil_append] at he
    obtain ⟨⟨v, g₁, c₁⟩, hv, hstep⟩ := bind_eq_ok.mp hstep
    cases hstep
    exact ⟨hinv.1, hinv.2.mapEmplace (fun y hy => (List.pairwise_append.mp (he ▸ hsorted)).2.2 y hy x
      (List.mem_cons_self _ _)) (randomValueFromRule_head hv)⟩

open Example in
/-- Two parameters of the example test's grammar, `m` from `add` and `n` from `expr`, at depth limit two: the draws
pick the production of `add` with two refs, then the literals `2` and `3` below it, and the literal `1` for `n`. -/
theorem gram_randomlyPopulatePlan_getParamSpecs :
    ([(⟨['m'], by decide⟩, ADD), (N, EXPR)] : ParamSpecs).Pairwise (fun a b => a.1.lt b.1 = true) ∧
      gram.randomlyPopulatePlan queueUniform ⟨"MyTest".toList, by decide⟩ [(⟨['m'], by decide⟩, ADD), (N, EXPR)]
        [1, 1, 2, 0] 2 = .ok (⟨⟨"MyTest".toList, by decide⟩, false, [], [(⟨['m'], by decide⟩, .ofList [.sym ADD,
          .ofList [.sym EXPR, .int64 ⟨2, by decide, by decide⟩], .ofList [.sym EXPR, .int64 ⟨3, by decide, by decide⟩]]),
          (N, .ofList [.sym EXPR, .int64 ⟨1, by decide, by decide⟩])]⟩, []) ∧
      (⟨"MyTest".toList, by decide⟩ : Symbol) = ⟨"MyTest".toList, by decide⟩ ∧
      Plan.getParamSpecs ⟨⟨"MyTest".toList, by decide⟩, false, [], [(⟨['m'], by decide⟩, .ofList [.sym ADD,
          .ofList [.sym EXPR, .int64 ⟨2, by decide, by decide⟩], .ofList [.sym EXPR, .int64 ⟨3, by decide, by decide⟩]]),
          (N, .ofList [.sym EXPR, .int64 ⟨1, by decide, by decide⟩])]⟩ =
        .ok [(⟨['m'], by decide⟩, ADD), (N, EXPR)] := by
  have hs : ([(⟨['m'], by decide⟩, ADD), (N, EXPR)] : ParamSpecs).Pairwise (fun a b => a.1.lt b.1 = true) := by
    decide
  have hr : gram.randomlyPopulatePlan queueUniform ⟨"MyTest".toList, by decide⟩ [(⟨['m'], by decide⟩, ADD), (N, EXPR)]
      [1, 1, 2, 0] 2 = .ok (⟨⟨"MyTest".toList, by decide⟩, false, [], [(⟨['m'], by decide⟩, .ofList [.sym ADD,
        .ofList [.sym EXPR, .int64 ⟨2, by decide, by decide⟩], .ofList [.sym EXPR, .int64 ⟨3, by decide, by decide⟩]]),
        (N, .ofList [.sym EXPR, .int64 ⟨1, by decide, by decide⟩])]⟩, []) := rfl
  exact ⟨hs, hr, randomlyPopulatePlan_getParamSpecs hs hr⟩

end Random

end Grammar

end Photesthesis
