import Photesthesis.Grammar.KPathCover
import Mathlib.Data.List.Chain

/-!
# What the enumeration finds

`expandKPathPrefix` starts afresh from a ref only the first time it meets it, under the context it has then. A
k-path that a derivation has only below a context extension can therefore be missing. In the grammar of the example
test, the 2-path from the first ref of `add` to the ref of `var`, whose production needs `x`, occurs below the second
ref of `let`, which adds `x`; but the enumeration first meets that ref of `add` with no `x` in scope
(`gram_kPath_not_enumerated`).

When the requirements of every production are names of parameters, every production is active in every context,
and the enumeration misses nothing (`generateKPathSet_complete`). At its end each path root is done with (`Rooted`):
the k-paths that grow from it (`Grows`) are in the result, and its children are path roots. So every ref of a path
down from the root is a path root, and every k-path at the end of such a path grows from one of them.
-/

namespace Photesthesis

namespace Grammar

/-- `r'` is a ref of a production of the rule of `r`. -/
def Child (G : Grammar) (r r' : Ref) : Prop := ∃ p ∈ G.productionsOf r.rule, .ref r' ∈ p.atoms

/-- The k-paths that grow from `pre`, atom by atom, through the productions of the rule of its last ref. -/
inductive Grows (G : Grammar) (k : Nat) : KPath → KPath → Prop
  | done {pre : KPath} : pre.length = k → Grows G k pre pre
  | step {pre : KPath} {anchor : Ref} {p : Production} {a : Atom} {P : KPath} :
      pre.length ≠ k → pre.getLast? = some (.ref anchor) → p ∈ G.productionsOf anchor.rule → a ∈ p.atoms →
      Grows G k (pre ++ [a]) P → Grows G k pre P

/-- The requirements of every production are among the names `ns`. -/
def ReqsMet (G : Grammar) (ns : List Symbol) : Prop := ∀ rule, ∀ p ∈ G.productionsOf rule, p.ctxReq ⊆ ns

/-- A path root is done with: the k-paths that grow from it are in `out`, and its children are in `roots`. -/
structure Rooted (G : Grammar) (k : Nat) (out : List KPath) (roots : List Ref) (r : Ref) : Prop where
  grows : ∀ P, Grows G k [.ref r] P → P ∈ out
  children : ∀ r', Child G r r' → r' ∈ roots

/-- Every path root of `roots` that is not one of `old` is done with. -/
def RootsDone (G : Grammar) (k : Nat) (old : List Ref) (out : List KPath) (roots : List Ref) : Prop :=
  ∀ r ∈ roots, r ∉ old → Rooted G k out roots r

/-- What a call of the enumeration from `pre` finds: the k-paths that grow from `pre`, the children of its last ref
as path roots, and each new path root done with. -/
structure Finds (G : Grammar) (k : Nat) (pre : KPath) (st : EnumState) (out : List KPath) (st' : EnumState) :
    Prop where
  grows : ∀ P, Grows G k pre P → P ∈ out
  children : pre.length ≠ k → ∀ anchor, pre.getLast? = some (.ref anchor) → ∀ r', Child G anchor r' →
    r' ∈ st'.pathRoots
  rooted : RootsDone G k st.pathRoots out st'.pathRoots

/-- What every call finds, when every production is active in its context. -/
def FindsSpec (G : Grammar) (k : Nat) (pre : KPath) (st : EnumState) (out : List KPath) (st' : EnumState) : Prop :=
  ReqsMet G st.context.names → Finds G k pre st out st'

variable {G : Grammar} {k : Nat} {rec : Expander}

theorem ReqsMet.mono {ns ns' : List Symbol} (h : ReqsMet G ns) (hs : ns ⊆ ns') : ReqsMet G ns' :=
  fun rule p hp _ hx => hs (h rule p hp hx)

theorem Rooted.mono {out out' : List KPath} {roots roots' : List Ref} {r : Ref} (h : Rooted G k out roots r)
    (ho : out ⊆ out') (hr : roots ⊆ roots') : Rooted G k out' roots' r :=
  ⟨fun P hP => ho (h.grows P hP), fun r' hc => hr (h.children r' hc)⟩

/-- Path roots done with across two stretches of a run are done with across both. -/
theorem RootsDone.trans {old roots₁ roots₂ : List Ref} {out₁ out₂ out : List KPath}
    (h₁ : RootsDone G k old out₁ roots₁) (h₂ : RootsDone G k roots₁ out₂ roots₂) (ho₁ : out₁ ⊆ out)
    (ho₂ : out₂ ⊆ out) (hr : roots₁ ⊆ roots₂) : RootsDone G k old out roots₂ := fun r hr₂ hold => by
  by_cases hr₁ : r ∈ roots₁
  · exact (h₁ r hr₁ hold).mono ho₁ hr
  · exact (h₂ r hr₂ hr₁).mono ho₂ (List.Subset.refl _)

theorem Grows.eq_of_length {pre P : KPath} (h : Grows G k pre P) (hl : pre.length = k) : P = pre := by
  cases h with
  | done => rfl
  | step hne => exact absurd hl hne

/-- A literal ends a k-path. -/
theorem Grows.lit_length {pre P : KPath} {id : Nat} {v : Value} (h : Grows G k (pre ++ [.lit id v]) P) :
    pre.length + 1 = k := by
  cases h with
  | done hl => simpa using hl
  | step _ hlast => simp at hlast

/-! ## Every call finds what grows from its prefix -/

/-- What the step of an atom leaves in the accumulator: the k-paths that grow through it, and a ref as a path root. -/
def AtomFound (G : Grammar) (k : Nat) (pre : KPath) (a : Atom) (acc : List KPath × EnumState) : Prop :=
  (∀ P, Grows G k (pre ++ [a]) P → P ∈ acc.1) ∧ ∀ r, a = .ref r → r ∈ acc.2.pathRoots

section Step

variable (hk : 2 ≤ k) (hrec : CallSpec (FindsSpec G k) rec) (hframe : CallSpec (fun _ st _ st' => Frame st st') rec)
include hk hrec hframe

/-- The step of an atom only adds results and path roots, finds what grows through the atom, and is done with the
path roots it adds. -/
theorem expandAtom_finds {pre : KPath} {acc acc' : List KPath × EnumState} {a : Atom}
    (hreqs : ReqsMet G acc.2.context.names) (h : expandAtom k rec pre acc a = .ok acc') :
    (acc.1 ⊆ acc'.1 ∧ acc.2.pathRoots ⊆ acc'.2.pathRoots) ∧ AtomFound G k pre a acc' ∧
      RootsDone G k acc.2.pathRoots acc'.1 acc'.2.pathRoots := by
  cases a with
  | lit id v =>
    rcases expandAtom_lit_eq_ok h with ⟨-, e, h₁, he⟩ | ⟨hl, rfl⟩
    · have F := hrec _ _ _ _ h₁ hreqs
      have hsub : e ⊆ acc'.1 := fun _ hx => he ▸ List.mem_union_iff.mpr (.inr hx)
      refine ⟨⟨fun _ hx => he ▸ List.mem_union_iff.mpr (.inl hx), (hframe _ _ _ _ h₁).roots_subset⟩,
        ⟨fun P hP => hsub (F.grows P hP), fun _ hr => by cases hr⟩, fun r hr hold => ?_⟩
      exact (F.rooted r hr hold).mono hsub (List.Subset.refl _)
    · refine ⟨⟨List.Subset.refl _, List.Subset.refl _⟩, ⟨fun P hP => ?_, fun _ hr => by cases hr⟩,
        fun r hr hold => absurd hr hold⟩
      have := hP.lit_length
      omega
  | ref r =>
    obtain ⟨e₁, st₁, h₁, hcase⟩ := expandAtom_ref_eq_ok h
    have hreqs₁ : ReqsMet G (acc.2.context.push r.ctxExt).names :=
      hreqs.mono (by simp only [Context.names_push]; exact List.subset_append_left _ _)
    have F₁ := hrec _ _ _ _ h₁ hreqs₁
    have f₁ := hframe _ _ _ _ h₁
    rcases hcase with ⟨hin, rfl⟩ | ⟨-, e₂, st₂, h₂, rfl⟩
    · refine ⟨⟨fun _ hx => List.mem_union_iff.mpr (.inl hx), f₁.roots_subset⟩,
        ⟨fun P hP => List.mem_union_iff.mpr (.inr (F₁.grows P hP)), fun _ hr => by cases hr; exact hin⟩, ?_⟩
      exact RootsDone.trans (fun _ _ hold => absurd ‹_› hold) F₁.rooted (List.Subset.refl _)
        (fun _ hx => List.mem_union_iff.mpr (.inr hx)) f₁.roots_subset
    · have F₂ := hrec _ _ _ _ h₂ (f₁.context_eq ▸ hreqs₁)
      have f₂ := hframe _ _ _ _ h₂
      have hr₁ : r :: st₁.pathRoots ⊆ st₂.pathRoots := f₂.roots_subset
      have he₁ : e₁ ⊆ acc.1 ∪ e₁ ∪ e₂ := fun _ hx => List.mem_union_iff.mpr (.inl (List.mem_union_iff.mpr (.inr hx)))
      have he₂ : e₂ ⊆ acc.1 ∪ e₁ ∪ e₂ := fun _ hx => List.mem_union_iff.mpr (.inr hx)
      have hdone₂ : RootsDone G k st₁.pathRoots e₂ st₂.pathRoots := fun r' hr' hold => by
        by_cases hr'r : r' = r
        · subst hr'r
          exact ⟨F₂.grows, F₂.children (by simp; omega) r' rfl⟩
        · exact F₂.rooted r' hr' (by simp [hr'r, hold])
      refine ⟨⟨fun _ hx => List.mem_union_iff.mpr (.inl (List.mem_union_iff.mpr (.inl hx))),
          fun x hx => hr₁ (List.mem_cons_of_mem r (f₁.roots_subset hx))⟩,
        ⟨fun P hP => he₁ (F₁.grows P hP), fun _ hr => by cases hr; exact hr₁ (List.mem_cons_self r _)⟩, ?_⟩
      exact RootsDone.trans F₁.rooted hdone₂ he₁ he₂ fun x hx => hr₁ (List.mem_cons_of_mem r hx)

/-- One call finds what grows from its prefix, given that every call one level down does. -/
theorem expandKPathPrefixStep_finds : CallSpec (FindsSpec G k) (G.expandKPathPrefixStep k rec) := by
  intro pre st out st' h hreqs
  obtain ⟨-, -, ⟨hl, rfl, rfl⟩ | ⟨hl, anchor, prods, hlast, hprods, hf⟩⟩ := expandKPathPrefixStep_eq_ok h
  · exact ⟨fun P hP => by simp [hP.eq_of_length hl], fun hne => absurd hl hne, fun r hr hold => absurd hr hold⟩
  · have hall : ∀ p ∈ G.productionsOf anchor.rule, p ∈ prods := fun p hp =>
      getActiveProductions_complete hprods hp (Production.isActive_iff.mpr ⟨by omega, hreqs _ p hp⟩)
    obtain ⟨⟨-, hdone⟩, hfound⟩ := expandProductions_forall
      (fun acc => acc.2.context = st.context ∧ RootsDone G k st.pathRoots acc.1 acc.2.pathRoots) (AtomFound G k pre)
      (fun _ _ a _ acc acc' hacc hstep => by
        obtain ⟨⟨hout, hroots⟩, hQ, hdone⟩ := expandAtom_finds hk hrec hframe (hacc.1 ▸ hreqs) hstep
        refine ⟨⟨(expandAtom_frame hframe hstep).context_eq.trans hacc.1,
          RootsDone.trans hacc.2 hdone hout (List.Subset.refl _) hroots⟩, hQ, fun b hb => ?_⟩
        exact ⟨fun P hP => hout (hb.1 P hP), fun r hr => hroots (hb.2 r hr)⟩)
      ⟨rfl, fun r hr hold => absurd hr hold⟩ hf
    refine ⟨fun P hP => ?_, fun _ a ha r' ⟨p, hp, hr'⟩ => ?_, hdone⟩
    · rcases hP with _ | ⟨_, hlast', hp, ha, hg⟩
      · exact absurd ‹_› hl
      · rw [hlast] at hlast'
        cases hlast'
        exact (hfound _ (hall _ hp) _ ha).1 P hg
    · rw [hlast] at ha
      cases ha
      exact (hfound _ (hall _ hp) _ hr').2 r' rfl

end Step

theorem expandKPathPrefix_finds (hk : 2 ≤ k) (fuel : Nat) : CallSpec (FindsSpec G k) (G.expandKPathPrefix k fuel) := by
  induction fuel with
  | zero => exact fun _ _ _ _ h => by cases h
  | succ fuel ih => exact expandKPathPrefixStep_finds hk ih (expandKPathPrefix_frame fuel)

/-! ## Every path down from the root ends in what grows from a path root -/

section Closed

variable {ns₀ : List Symbol} {root : Ref} {roots : List Ref} {out : List KPath}

/-- A path down the grammar is a chain of children. -/
theorem chain_of_reaches {cn : List Ref × List Symbol} (h : Reaches G ns₀ root cn) : List.Chain' (Child G) cn.1 := by
  induction h with
  | refl => exact List.chain'_singleton _
  | tail _ hd ih =>
    cases hd with
    | mk hlast hp _ hr' =>
      refine ih.append (List.chain'_singleton _) fun x hx y hy => ?_
      cases hlast.symm.trans hx
      cases hy
      exact ⟨_, hp, hr'⟩

/-- Every ref of a path down from the root is a path root, when the root is one and the path roots hold the
children of each of them. -/
theorem mem_roots_of_reaches (hroot : root ∈ roots) (hclosed : ∀ r ∈ roots, ∀ r', Child G r r' → r' ∈ roots)
    {cn : List Ref × List Symbol} (h : Reaches G ns₀ root cn) : ∀ r ∈ cn.1, r ∈ roots := by
  induction h with
  | refl => simpa using hroot
  | tail _ hd ih =>
    cases hd with
    | mk hlast hp _ hr' =>
      intro r hr
      rcases List.mem_append.mp hr with hr | hr
      · exact ih r hr
      · rw [List.mem_singleton.mp hr]
        exact hclosed _ (ih _ (List.mem_of_mem_getLast? hlast)) _ ⟨_, hp, hr'⟩

/-- A chain of children ending in `k - 1` refs, and then an atom at its end, grows from every non-empty start of it. -/
theorem grows_of_chain {ns : List Symbol} {a : Atom} :
    ∀ (t u : List Ref), t ≠ [] → List.Chain' (Child G) (t ++ u) → (t ++ u).length + 1 = k →
      AtomAt G (t ++ u, ns) a → Grows G k (t.map .ref) ((t ++ u).map .ref ++ [a])
  | t, [], ht, _, hl, ⟨r, p, hlast, hp, _, ha⟩ => by
    rw [List.append_nil] at hlast hl ⊢
    exact .step (by simp; omega) (by simp [List.getLast?_map, hlast]) hp ha (.done (by simp; omega))
  | t, x :: u, ht, hc, hl, hat => by
    obtain ⟨r, hlast⟩ := Option.ne_none_iff_exists'.mp (mt List.getLast?_eq_none_iff.mp ht)
    obtain ⟨p, hp, hx⟩ := (List.chain'_append.mp hc).2.2 r hlast x rfl
    have ih := grows_of_chain (t ++ [x]) u (by simp) (by simpa using hc) (by simpa using hl) (by simpa using hat)
    rw [List.append_assoc t [x] u, List.singleton_append, List.map_append Atom.ref t [x]] at ih
    exact .step (by simp at hl ⊢; omega) (by simp [List.getLast?_map, hlast]) hp hx ih

/-- Every k-path at the end of a path down from the root is found, when the root is a path root and each path root
is done with. -/
theorem mem_of_realizable (hk : 2 ≤ k) (hroot : root ∈ roots) (hdone : ∀ r ∈ roots, Rooted G k out roots r)
    {P : KPath} (h : Realizable G k ns₀ root P) : P ∈ out := by
  obtain ⟨⟨c, ns⟩, hreach, a, hat, hlen, rfl⟩ := h
  dsimp only at hlen
  have hsuffix : lastN (k - 1) c <:+ c := List.drop_suffix _ _
  obtain ⟨r₁, s, hs⟩ := List.exists_cons_of_ne_nil (List.ne_nil_of_length_pos (by simp; omega) :
    lastN (k - 1) c ≠ [])
  have hmem := mem_roots_of_reaches hroot (fun r hr => (hdone r hr).children) hreach
  refine (hdone r₁ (hmem r₁ (hsuffix.subset (by simp [hs])))).grows _ ?_
  have hat' : AtomAt G ([r₁] ++ s, ns) a := by
    obtain ⟨r, p, hlast, hrest⟩ := hat
    exact ⟨r, p, by rw [List.singleton_append, ← hs, getLast?_lastN (by omega)]; exact hlast, hrest⟩
  have := grows_of_chain (k := k) [r₁] s (List.cons_ne_nil _ _) (by simpa [hs] using (chain_of_reaches hreach).suffix hsuffix)
    (by have := congrArg List.length hs; simp at this ⊢; omega) hat'
  simpa [hs] using this

end Closed

/-- The requirements of the productions of the rules are the requirements of every production the grammar has. -/
theorem reqsMet_of_rules {ns : List Symbol} (h : ∀ r ∈ G.rules, ∀ p ∈ r.2.productions, p.ctxReq ⊆ ns) :
    ReqsMet G ns := by
  intro rule p hp
  unfold productionsOf at hp
  cases hl : G.rules.lookup rule with
  | none => simp [hl] at hp
  | some rl =>
    simp only [hl, Option.map_some', Option.getD_some] at hp
    exact h _ (mem_of_lookup_eq_some hl) p hp

/-- For `k ≥ 2`, when the requirements of every production are names of parameters, `generateKPathSet` returns
every k-path of every derivation from the root ref. -/
theorem generateKPathSet_complete {root : Symbol} {specs : ParamSpecs} {paths : List KPath} {rootRef : Ref}
    (hk : 2 ≤ k) (hreq : ∀ r ∈ G.rules, ∀ p ∈ r.2.productions, p.ctxReq ⊆ specs.map Prod.fst)
    (h : G.generateKPathSet k root specs = .ok paths) (hroot : G.getRootRef root = .ok rootRef) :
    ∀ v P, KPathIn G k (specs.map Prod.fst) rootRef v P → P ∈ paths := by
  unfold generateKPathSet at h
  rw [hroot, ok_bind] at h
  obtain ⟨⟨out, st'⟩, h₁, h⟩ := bind_eq_ok.mp h
  cases h
  have F := expandKPathPrefix_finds hk _ _ _ _ _ h₁ (by simpa using reqsMet_of_rules hreq)
  have hdone : ∀ r ∈ st'.pathRoots, Rooted G k paths st'.pathRoots r := fun r hr => by
    by_cases hr' : r = rootRef
    · subst hr'
      exact ⟨F.grows, F.children (by simp; omega) r rfl⟩
    · exact F.rooted r hr (by simpa using hr')
  exact fun v P hin => mem_of_realizable hk
    ((expandKPathPrefix_frame _ _ _ _ _ h₁).roots_subset (List.mem_singleton_self _)) hdone hin.realizable

theorem choiceGrammar_generateKPathSet_complete : ∃ paths rootRef,
    (2 ≤ 2 ∧ (∀ r ∈ choiceGrammar.rules, ∀ p ∈ r.2.productions, p.ctxReq ⊆ ([] : ParamSpecs).map Prod.fst) ∧
      choiceGrammar.generateKPathSet 2 choiceA [] = .ok paths ∧ choiceGrammar.getRootRef choiceA = .ok rootRef) ∧
    ∀ v P, KPathIn choiceGrammar 2 (([] : ParamSpecs).map Prod.fst) rootRef v P → P ∈ paths :=
  ⟨_, _, ⟨by decide, by decide, rfl, rfl⟩,
    @generateKPathSet_complete choiceGrammar 2 choiceA [] _ _ (by decide) (by decide) rfl rfl⟩

end Grammar

/-! ## The grammar of the example test -/

namespace Example

/-- `EXPR`, a rule name of the example test. -/
def EXPR : Symbol := ⟨"expr".toList, by decide⟩
/-- `ADD`, a rule name of the example test. -/
def ADD : Symbol := ⟨"add".toList, by decide⟩
/-- `SUB`, a rule name of the example test. -/
def SUB : Symbol := ⟨"sub".toList, by decide⟩
/-- `MUL`, a rule name of the example test. -/
def MUL : Symbol := ⟨"mul".toList, by decide⟩
/-- `LET`, a rule name of the example test. -/
def LET : Symbol := ⟨"let".toList, by decide⟩
/-- `VAR`, a rule name of the example test. -/
def VAR : Symbol := ⟨"var".toList, by decide⟩
/-- `X`, the context name `let` adds and `var` needs. -/
def X : Symbol := ⟨"x".toList, by decide⟩
/-- `N`, the parameter of the example test. -/
def N : Symbol := ⟨"n".toList, by decide⟩

/-- The grammar `main` of the example test builds, each atom's pointer numbered in the order `main` creates it. -/
def gram : Grammar where
  rules := [(ADD, ⟨[⟨[.lit 0 (.int64 ⟨0, by decide, by decide⟩)], []⟩, ⟨[.ref ⟨1, EXPR, []⟩, .ref ⟨2, EXPR, []⟩], []⟩]⟩),
    (SUB, ⟨[⟨[.lit 4 (.int64 ⟨0, by decide, by decide⟩)], []⟩, ⟨[.ref ⟨5, EXPR, []⟩, .ref ⟨6, EXPR, []⟩], []⟩]⟩),
    (MUL, ⟨[⟨[.lit 8 (.int64 ⟨0, by decide, by decide⟩)], []⟩, ⟨[.ref ⟨9, EXPR, []⟩, .ref ⟨10, EXPR, []⟩], []⟩]⟩),
    (LET, ⟨[⟨[.lit 12 (.int64 ⟨0, by decide, by decide⟩)], []⟩,
      ⟨[.lit 13 (.sym X), .ref ⟨14, EXPR, []⟩, .ref ⟨15, EXPR, [X]⟩], []⟩]⟩),
    (VAR, ⟨[⟨[.lit 17 (.sym X)], []⟩]⟩),
    (EXPR, ⟨[⟨[.lit 19 (.int64 ⟨1, by decide, by decide⟩)], []⟩, ⟨[.lit 20 (.int64 ⟨2, by decide, by decide⟩)], []⟩,
      ⟨[.lit 21 (.int64 ⟨3, by decide, by decide⟩)], []⟩, ⟨[.ref ⟨22, ADD, []⟩], []⟩, ⟨[.ref ⟨23, SUB, []⟩], []⟩,
      ⟨[.ref ⟨24, MUL, []⟩], []⟩, ⟨[.ref ⟨25, LET, []⟩], []⟩, ⟨[.ref ⟨26, VAR, []⟩], [X]⟩]⟩)]
  rootRefs := [(ADD, 3), (SUB, 7), (MUL, 11), (LET, 16), (VAR, 18), (EXPR, 27)]

/-- The parameters of `MyTest`: `n`, generated from `expr`. -/
def specs : ParamSpecs := [(N, EXPR)]

/-- The 2-path from the first ref of `add` to the ref of `var` occurs in a derivation of `expr`, below the second
ref of `let`, but `generateKPathSet` does not return it. -/
theorem gram_kPath_not_enumerated : ∃ v paths, gram.getRootRef EXPR = .ok ⟨27, EXPR, []⟩ ∧
    KPathIn gram 2 (specs.map Prod.fst) ⟨27, EXPR, []⟩ v [.ref ⟨1, EXPR, []⟩, .ref ⟨26, VAR, []⟩] ∧
    gram.generateKPathSet 2 EXPR specs = .ok paths ∧ [.ref ⟨1, EXPR, []⟩, .ref ⟨26, VAR, []⟩] ∉ paths := by
  have one : ∀ ns tag, Derives gram ns ⟨tag, EXPR, []⟩ (.ofList [.sym EXPR, .int64 ⟨1, by decide, by decide⟩]) :=
    fun _ _ => .mk (p := ⟨[.lit 19 (.int64 ⟨1, by decide, by decide⟩)], []⟩) (show _ ∈ gram.productionsOf EXPR by decide)
      (List.nil_subset _) (.lit .nil)
  have hvar : Derives gram (specs.map Prod.fst ++ [X]) ⟨26, VAR, []⟩ (.ofList [.sym VAR, .sym X]) :=
    .mk (p := ⟨[.lit 17 (.sym X)], []⟩) (by decide) (List.nil_subset _) (.lit .nil)
  have hmissing : (fun paths => decide ([.ref ⟨1, EXPR, []⟩, .ref ⟨26, VAR, []⟩] ∈ paths)) <$>
      gram.generateKPathSet 2 EXPR specs = .ok false := by
    set_option maxRecDepth 10000 in rfl
  have ht : Through gram (specs.map Prod.fst) ⟨27, EXPR, []⟩ _
      [⟨27, EXPR, []⟩, ⟨25, LET, []⟩, ⟨15, EXPR, [X]⟩, ⟨22, ADD, []⟩, ⟨1, EXPR, []⟩] (.ref ⟨26, VAR, []⟩) :=
    .down (p := ⟨[.ref ⟨25, LET, []⟩], []⟩) (by decide) (by decide) <| .here (.down
      (p := ⟨[.lit 13 (.sym X), .ref ⟨14, EXPR, []⟩, .ref ⟨15, EXPR, [X]⟩], []⟩) (by decide) (by decide) <|
      .lit <| .ref (one _ _) <| .here (.down (p := ⟨[.ref ⟨22, ADD, []⟩], []⟩) (by decide) (by decide) <| .here
        (.down (p := ⟨[.ref ⟨1, EXPR, []⟩, .ref ⟨2, EXPR, []⟩], []⟩) (by decide) (by decide) <| .here
          (.here (p := ⟨[.ref ⟨26, VAR, []⟩], [X]⟩) (by decide) (by decide) (.ref hvar .nil) (by decide))
          (.ref (one _ _) .nil)) .nil) .nil) .nil
  obtain ⟨paths, hpaths, hnot⟩ := map_eq_ok.mp hmissing
  exact ⟨_, paths, rfl, ⟨_, _, ht, by decide, rfl⟩, hpaths, of_decide_eq_false hnot⟩

end Example

end Photesthesis
