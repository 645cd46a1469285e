import Photesthesis.Grammar.CoveringSpec
import Photesthesis.Grammar.KPathSound

/-!
# k-path coverings cover, and the covering loop ends

Every k-path `generateKPathSet` enumerates is, once `kPathCovering` returns, a k-path of a derivation of one of the
values it returns (`kPathCovering_complete`): the loop only stops with no k-path left uncovered, and each call of
`kPathCoveringOrMinimalExpansion` covers what it erases (`CoverSpec`).

The loop ends (`kPathCovering_terminates`): an expansion from the root fails only by a thrown exception or a failed
assertion, never by looping (`kPathCoveringOrMinimalExpansion_ne_outOfFuel`); each enumerated k-path ends a path
down the grammar from the root (`generateKPathSet_realizable`), and an expansion whose depth limit reaches past that
path's length covers some k-path (`kPathCoveringOrMinimalExpansion_ne_nil`). So each turn either erases a k-path or
raises the depth limit towards a bound it never passes.
-/

namespace Photesthesis

namespace Grammar

variable {G : Grammar} {k : Nat} {rec : Coverer}

/-! ## An expansion never loops -/

section NoFuel

variable (hrec : ∀ path st, rec path st ≠ .error .outOfFuel)
include hrec

theorem coverAtom_ne_outOfFuel {path : List Ref} {acc : List (List Value) × Bool × CoverState} {b : Atom} :
    coverAtom rec path acc b ≠ .error .outOfFuel := by
  cases b with
  | lit _ v => exact bind_ne_error extendByCycling_ne_outOfFuel fun _ _ => by simp [pure, Except.pure]
  | ref r =>
    refine bind_ne_error (hrec _ _) fun _ _ => ?_
    dsimp only
    split
    · exact bind_ne_error extendByCycling_ne_outOfFuel fun _ _ => by simp [pure, Except.pure]
    · exact bind_ne_error assertThat_ne_outOfFuel fun _ _ =>
        bind_ne_error extendByCycling_ne_outOfFuel fun _ _ => by simp [pure, Except.pure]

theorem coverProductions_ne_outOfFuel {path : List Ref} {rule : Symbol} {prods : List Production}
    {st : CoverState} : coverProductions k rec path rule prods st ≠ .error .outOfFuel := by
  refine foldlM_ne_error (fun _ => True) (fun acc p _ _ => ⟨?_, fun _ _ => trivial⟩) trivial
  refine bind_ne_error ?_ fun _ _ => ?_
  · unfold coverProduction
    generalize coverFirst (kPathPrefix k path) p.atoms acc.2.2.paths = cf
    exact foldlM_ne_error (fun _ => True) (fun _ _ _ _ => ⟨coverAtom_ne_outOfFuel hrec, fun _ _ => trivial⟩) trivial
  · dsimp only
    split <;> simp [pure, Except.pure]

theorem kPathCoveringStep_ne_outOfFuel {path : List Ref} {depthLimit : Nat} {st : CoverState} :
    G.kPathCoveringStep k rec path depthLimit st ≠ .error .outOfFuel := by
  unfold kPathCoveringStep
  split
  · simp [throw, throwThe, MonadExceptOf.throw]
  · refine bind_ne_error assertThat_ne_outOfFuel fun _ _ => ?_
    refine bind_ne_error getActiveProductions_ne_outOfFuel fun _ _ => ?_
    refine bind_ne_error (coverProductions_ne_outOfFuel hrec) fun _ _ => ?_
    exact bind_ne_error assertThat_ne_outOfFuel fun _ _ => by simp [pure, Except.pure]

end NoFuel

/-- `kPathCoveringOrMinimalExpansion` returns, throws or fails an assertion: its recursion is bounded by the depth
limit. -/
theorem kPathCoveringOrMinimalExpansion_ne_outOfFuel :
    ∀ (depthLimit : Nat) {path : List Ref} {st : CoverState},
      G.kPathCoveringOrMinimalExpansion k path depthLimit st ≠ .error .outOfFuel
  | 0, _, _ => by simp [kPathCoveringOrMinimalExpansion, throw, throwThe, MonadExceptOf.throw]
  | d + 1, _, _ => kPathCoveringStep_ne_outOfFuel fun _ _ => kPathCoveringOrMinimalExpansion_ne_outOfFuel d

/-! ## When an expansion must cover -/

theorem coverAtom_covers_true {path : List Ref} {acc acc' : List (List Value) × Bool × CoverState} {b : Atom}
    (h : coverAtom rec path acc b = .ok acc') (hc : acc.2.1 = true) : acc'.2.1 = true := by
  cases b with
  | lit _ _ => rw [(coverAtom_lit_eq_ok h).2, hc]
  | ref r =>
    obtain ⟨-, -, -, -, -, ⟨-, h₁, -⟩ | ⟨-, -, h₁, -⟩⟩ := coverAtom_ref_eq_ok h
    · exact h₁
    · rw [h₁, hc]

/-- A production covers a k-path when one of its atoms completes an uncovered one at this path, or when one of its
refs is such that the call below it must return a covering value. -/
theorem coverProduction_covers (hrec : CoverCallSpec G k rec) {above : List Ref} {r : Ref} {p : Production}
    {st st' : CoverState} {prefixes : List (List Value)} {covers : Bool}
    (hforce : (∃ a ∈ p.atoms, kPathPrefix k (above ++ [r]) ++ [a] ∈ st.paths) ∨
      ∃ r', .ref r' ∈ p.atoms ∧ ∀ s subC subN s', s.context = st.context.push r'.ctxExt → s.paths = st.paths →
        rec (above ++ [r] ++ [r']) s = .ok ((subC, subN), s') → subC ≠ [])
    (h : coverProduction k rec (above ++ [r]) r.rule p st = .ok (prefixes, covers, st')) : covers = true := by
  obtain ⟨-, hcov₁, -, hfound⟩ := coverFirst_spec (kPathPrefix k (above ++ [r])) p.atoms st.paths
  unfold coverProduction at h
  generalize coverFirst (kPathPrefix k (above ++ [r])) p.atoms st.paths = cf at h hcov₁ hfound
  obtain ⟨c₁, paths₁⟩ := cf
  let Forced (r' : Ref) : Prop := ∀ s subC subN s', s.context = st.context.push r'.ctxExt → s.paths = st.paths →
    rec (above ++ [r] ++ [r']) s = .ok ((subC, subN), s') → subC ≠ []
  have h₀ : AtomInv G k above r st paths₁ [] ([[.sym r.rule]], c₁, { st with paths := paths₁ }) ∧
      ((c₁ = true ∨ ∃ r', .ref r' ∈ ([] : List Atom) ∧ Forced r') → c₁ = true) :=
    ⟨⟨rfl, List.Sublist.refl _, hcov₁, by simp, by simpa using Yields.nil, fun P hP hn => absurd hP hn⟩,
      fun h => by simpa using h⟩
  have hI := foldlM_ok_invariant (fun done acc => AtomInv G k above r st paths₁ done acc ∧
      ((c₁ = true ∨ ∃ r', .ref r' ∈ done ∧ Forced r') → acc.2.1 = true)) []
    (fun ys b _ acc acc' _ ⟨hI, hc⟩ hstep => ⟨coverAtom_inv hrec hI hstep, fun hf => ?_⟩) h₀ h
  · simp only [List.nil_append] at hI
    refine hI.2 ?_
    rcases hforce with ⟨a, ha, hin⟩ | ⟨r', hr', hf⟩
    · exact .inl (hfound a ha hin)
    · exact .inr ⟨r', hr', hf⟩
  · by_cases hold : c₁ = true ∨ ∃ r', .ref r' ∈ ys ∧ Forced r'
    · exact coverAtom_covers_true hstep (hc hold)
    · obtain ⟨r', hr', hforced⟩ : ∃ r', b = .ref r' ∧ Forced r' := by
        rcases hf with hf | ⟨r', hr', hf⟩
        · exact absurd (.inl hf) hold
        · rcases List.mem_append.mp hr' with hr' | hr'
          · exact absurd (.inr ⟨r', hr', hf⟩) hold
          · exact ⟨r', by simpa [eq_comm] using hr', hf⟩
      subst hr'
      cases hacc : acc.2.1
      · rcases hI.covers with ⟨-, hpaths⟩ | ⟨hne, -⟩
        · obtain ⟨subC, subN, s', h₁, -, ⟨-, hc', -⟩ | ⟨hC, -⟩⟩ := coverAtom_ref_eq_ok hstep
          · exact hc'
          · exact absurd hC (hforced { acc.2.2 with context := acc.2.2.context.push r'.ctxExt } subC subN s'
              (by simp [hI.context_eq]) hpaths h₁)
        · rw [hacc] at hne
          cases hne
      · exact coverAtom_covers_true hstep hacc

theorem coverProductionStep_kc_subset {path : List Ref} {rule : Symbol}
    {acc acc' : List Value × List Value × CoverState} {p : Production}
    (h : coverProductionStep k rec path rule acc p = .ok acc') : acc.1 ⊆ acc'.1 := by
  obtain ⟨_, _, _, ⟨_, h₁, _⟩ | ⟨_, h₁, _⟩⟩ := coverProductionStep_eq_ok h
  · exact fun v hv => h₁ ▸ mem_insertValues.mpr (.inl hv)
  · exact h₁ ▸ List.Subset.refl _

/-- The loop over the productions returns a covering value when one of the productions must cover from the state
the loop started in. -/
theorem coverProductions_ne_nil (hrec : CoverCallSpec G k rec) {above : List Ref} {r : Ref}
    {prods : List Production} {st st' : CoverState} {kc nkc : List Value}
    (hprods : ∀ p ∈ prods, p ∈ G.productionsOf r.rule ∧ p.ctxReq ⊆ st.context.names)
    {p₀ : Production} (hp₀ : p₀ ∈ prods)
    (hforce : ∀ s prefixes covers s', s.context = st.context → s.paths = st.paths →
      coverProduction k rec (above ++ [r]) r.rule p₀ s = .ok (prefixes, covers, s') → covers = true)
    (h : coverProductions k rec (above ++ [r]) r.rule prods st = .ok (kc, nkc, st')) : kc ≠ [] := by
  have hstep : ∀ ys p zs (acc acc' : List Value × List Value × CoverState), [] ++ prods = ys ++ p :: zs →
      CoverSpec G k above r st acc.1 acc.2.1 acc.2.2 ∧ (p₀ ∈ ys → acc.1 ≠ []) →
      coverProductionStep k rec (above ++ [r]) r.rule acc p = .ok acc' →
      CoverSpec G k above r st acc'.1 acc'.2.1 acc'.2.2 ∧ (p₀ ∈ ys ++ [p] → acc'.1 ≠ []) := by
    intro ys p zs acc acc' he ⟨hI, hne⟩ hstep
    have hp : p ∈ prods := by
      rw [List.nil_append] at he
      rw [he]
      simp
    refine ⟨coverProductionStep_spec hrec (hprods p hp).1 (hprods p hp).2 hI hstep, fun hmem => ?_⟩
    by_cases hkc : acc.1 = []
    · rcases List.mem_append.mp hmem with hmem | hmem
      · exact absurd (hne hmem) (by simpa using hkc)
      · obtain rfl : p = p₀ := (List.mem_singleton.mp hmem).symm
        obtain ⟨prefixes, covers, hprod, hcase⟩ := coverProductionStep_eq_ok hstep
        have hc := hforce _ _ _ _ hI.context_eq (hI.nil_iff.mp hkc) hprod
        obtain ⟨-, -, -, hnp, -, -⟩ := coverProduction_spec hrec (hprods p hp).1
          (hI.context_eq ▸ (hprods p hp).2) hprod
        rcases hcase with ⟨-, h₁, -⟩ | ⟨hf, -⟩
        · rw [h₁]
          exact insertValues_ne_nil hnp
        · rw [hc] at hf
          cases hf
    · obtain ⟨v, hv⟩ := List.exists_mem_of_ne_nil _ hkc
      exact List.ne_nil_of_mem (coverProductionStep_kc_subset hstep hv)
  have hI := foldlM_ok_invariant (fun done acc => CoverSpec G k above r st acc.1 acc.2.1 acc.2.2 ∧
      (p₀ ∈ done → acc.1 ≠ [])) [] hstep ⟨coverSpec_start st, by simp⟩ h
  simp only [List.nil_append] at hI
  exact hI.2 hp₀

/-- An expansion at the path `above ++ [r]` whose depth limit reaches past a path down from it, at whose end an
uncovered k-path sits, returns a covering value. -/
theorem kPathCoveringOrMinimalExpansion_ne_nil {c : List Ref} {ns' : List Symbol} {a : Atom}
    (hat : AtomAt G (c, ns') a) {x : List Ref × List Symbol} (hx : Relation.ReflTransGen (Descend G) x (c, ns')) :
    ∀ {above : List Ref} {r : Ref} {st st' : CoverState} {d : Nat} {kc nkc : List Value},
      x = (above ++ [r], st.context.names) → kPathPrefix k c ++ [a] ∈ st.paths → c.length + 2 ≤ above.length + 1 + d →
      G.kPathCoveringOrMinimalExpansion k (above ++ [r]) d st = .ok ((kc, nkc), st') → kc ≠ [] := by
  induction hx using Relation.ReflTransGen.head_induction_on with
  | refl =>
    intro above r st st' d kc nkc hx hP hd h
    obtain ⟨r₀, p, hlast, hp, hreq, ha⟩ := hat
    simp only [Prod.mk.injEq] at hx
    obtain ⟨rfl, rfl⟩ := hx
    simp only [List.getLast?_append, List.getLast?_singleton, Option.or_some, Option.some.injEq] at hlast
    subst hlast
    simp only [List.length_append, List.length_singleton] at hd
    obtain ⟨d, rfl⟩ : ∃ d', d = d' + 1 := ⟨d - 1, by omega⟩
    obtain ⟨-, prods, nkc₀, hprods, hloop, -⟩ := kPathCoveringStep_eq_ok h
    have hact : p.isActive (d + 1) st.context = true :=
      Production.isActive_iff.mpr ⟨fun h₁ => by have := h₁.1; omega, hreq⟩
    refine coverProductions_ne_nil (kPathCoveringOrMinimalExpansion_spec d) (fun q hq => ?_)
      (getActiveProductions_complete hprods hp hact) (fun s _ _ _ _ hs hprod => ?_) hloop
    · obtain ⟨hq, hact⟩ := (mem_getActiveProductions hprods).2 q hq
      exact ⟨hq, (Production.isActive_iff.mp hact).2⟩
    · exact coverProduction_covers (kPathCoveringOrMinimalExpansion_spec d) (.inl ⟨a, ha, hs ▸ hP⟩) hprod
  | head hstep hrest ih =>
    intro above r st st' d kc nkc hx hP hd h
    cases hstep with
    | @mk c₀ ns r₀ r' p hlast₀ hp hreq hr' =>
      simp only [Prod.mk.injEq] at hx
      obtain ⟨rfl, rfl⟩ := hx
      simp only [List.getLast?_append, List.getLast?_singleton, Option.or_some, Option.some.injEq] at hlast₀
      subst hlast₀
      have hlen := length_le_of_descends hrest
      simp only [List.length_append, List.length_singleton] at hlen
      obtain ⟨d, rfl⟩ : ∃ d', d = d' + 1 := ⟨d - 1, by omega⟩
      obtain ⟨-, prods, nkc₀, hprods, hloop, -⟩ := kPathCoveringStep_eq_ok h
      have hact : p.isActive (d + 1) st.context = true :=
        Production.isActive_iff.mpr ⟨fun h₁ => by have := h₁.1; omega, hreq⟩
      refine coverProductions_ne_nil (kPathCoveringOrMinimalExpansion_spec d) (fun q hq => ?_)
        (getActiveProductions_complete hprods hp hact) (fun s _ _ _ hsc hs hprod => ?_) hloop
      · obtain ⟨hq, hact⟩ := (mem_getActiveProductions hprods).2 q hq
        exact ⟨hq, (Production.isActive_iff.mp hact).2⟩
      · refine coverProduction_covers (kPathCoveringOrMinimalExpansion_spec d) (.inr ⟨r', hr', ?_⟩) hprod
        intro s' subC subN s'' hsc' hs' h₁
        exact ih (by simp [hsc', hsc]) (hs' ▸ hs ▸ hP) (by simp only [List.length_append, List.length_singleton]; omega) h₁

/-! ## The covering loop -/

section Loop

variable {rule : Symbol} {rootRef : Ref} {ctx₀ : Context} {paths₀ : List KPath}

/-- Every k-path the loop starts with is covered by a value it returns, when it returns. -/
theorem kPathCoveringLoop_covers (hroot : G.getRootRef rule = .ok rootRef) :
    ∀ fuel d st res res', G.kPathCoveringLoop k rule fuel d st res = .ok res' → st.context = ctx₀ →
      (∀ P ∈ paths₀, P ∈ st.paths ∨ ∃ v ∈ res, Covers G k ctx₀.names [] rootRef v P) →
      ∀ P ∈ paths₀, ∃ v ∈ res', Covers G k ctx₀.names [] rootRef v P
  | 0, _, _, _, _, h, _, _ => by cases h
  | fuel + 1, d, st, res, res', h, hctx, hinv => by
    unfold kPathCoveringLoop at h
    split at h
    · next hnil =>
      cases h
      intro P hP
      exact (hinv P hP).resolve_left (by simp only [List.isEmpty_iff] at hnil; simp [hnil])
    · rw [hroot, ok_bind] at h
      obtain ⟨⟨⟨kc, nkc⟩, st'⟩, hcall, h⟩ := bind_eq_ok.mp h
      have hs := kPathCoveringOrMinimalExpansion_spec d [] rootRef st kc nkc st' hcall
      have hctx' : st'.context = ctx₀ := hs.context_eq.trans hctx
      dsimp only at h
      split at h
      · next hkc =>
        have hsame := hs.nil_iff.mp (by simpa using hkc)
        exact kPathCoveringLoop_covers hroot fuel _ _ _ _ h hctx' fun P hP => hsame ▸ hinv P hP
      · refine kPathCoveringLoop_covers hroot fuel _ _ _ _ h hctx' fun P hP => ?_
        by_cases h' : P ∈ st'.paths
        · exact .inl h'
        · right
          rcases hinv P hP with hin | ⟨v, hv, hc⟩
          · obtain ⟨v, hv, hc⟩ := hs.covers P hin h'
            exact ⟨v, mem_setOfList_aux.mpr (.inl hv), hctx ▸ hc⟩
          · exact ⟨v, mem_setOfList_aux.mpr (.inr hv), hc⟩

/-- With every k-path left at the end of a path down from the root no longer than `D - 1`, the loop ends within
the uncovered k-paths plus the depth limits still below `D` turns. -/
theorem kPathCoveringLoop_ne_outOfFuel (hroot : G.getRootRef rule = .ok rootRef) {D : Nat}
    (hreal : ∀ P ∈ paths₀, ∃ c ns a, Reaches G ctx₀.names rootRef (c, ns) ∧ AtomAt G (c, ns) a ∧
      P = kPathPrefix k c ++ [a] ∧ c.length + 1 ≤ D) :
    ∀ fuel d st res, st.context = ctx₀ → (∀ P ∈ st.paths, P ∈ paths₀) → st.paths.length + (D - d) < fuel →
      G.kPathCoveringLoop k rule fuel d st res ≠ .error .outOfFuel
  | 0, _, _, _, _, _, hf => absurd hf (Nat.not_lt_zero _)
  | fuel + 1, d, st, res, hctx, hsub, hf => by
    unfold kPathCoveringLoop
    split
    · simp [pure, Except.pure]
    · next hne =>
      rw [hroot, ok_bind]
      refine bind_ne_error (kPathCoveringOrMinimalExpansion_ne_outOfFuel d) fun ⟨⟨kc, nkc⟩, st'⟩ hcall => ?_
      have hs := kPathCoveringOrMinimalExpansion_spec d [] rootRef st kc nkc st' hcall
      have hctx' : st'.context = ctx₀ := hs.context_eq.trans hctx
      dsimp only
      split
      · next hkc =>
        have hsame := hs.nil_iff.mp (by simpa using hkc)
        have hd : d < D := by
          refine Nat.lt_of_not_le fun hD => ?_
          obtain ⟨P, hP⟩ := List.exists_mem_of_ne_nil _ (by simpa using hne)
          obtain ⟨c, ns, a, hreach, hat, rfl, hc⟩ := hreal P (hsub P hP)
          exact kPathCoveringOrMinimalExpansion_ne_nil hat hreach
            (by simp [hctx] : ([rootRef], ctx₀.names) = ([] ++ [rootRef], st.context.names)) hP
            (by simp; omega) hcall (by simpa using hkc)
        exact kPathCoveringLoop_ne_outOfFuel hroot hreal fuel _ _ _ hctx' (hsame ▸ hsub) (by rw [hsame]; omega)
      · next hkc =>
        have hlt : st'.paths.length < st.paths.length :=
          length_lt_of_sublist_ne hs.sublist fun he => hkc (by simpa using hs.nil_iff.mpr he)
        exact kPathCoveringLoop_ne_outOfFuel hroot hreal fuel _ _ _ hctx' (fun P hP => hsub P (hs.sublist.subset hP))
          (by omega)

end Loop

/-- For `k ≥ 2`, once `kPathCovering` returns, every k-path `generateKPathSet` enumerates is a k-path of a
derivation of one of the values it returns: its refs are consecutive refs of the derivation, from the root ref with
the parameters' names in scope, and the production at the last of them has its atom. -/
theorem kPathCovering_complete {G : Grammar} {k fuel : Nat} {rule : Symbol} {specs : ParamSpecs}
    {vals : List Value} {paths : List KPath} {rootRef : Ref} (hk : 2 ≤ k)
    (h : G.kPathCovering k fuel rule specs = .ok vals) (hpaths : G.generateKPathSet k rule specs = .ok paths)
    (hroot : G.getRootRef rule = .ok rootRef) :
    ∀ P ∈ paths, ∃ v ∈ vals, KPathIn G k (specs.map Prod.fst) rootRef v P := by
  unfold kPathCovering at h
  rw [hpaths, ok_bind] at h
  intro P hP
  obtain ⟨v, hv, chain, a, ht, hPeq⟩ :=
    kPathCoveringLoop_covers hroot _ _ _ _ _ h rfl (fun P hP => .inl hP) P hP
  obtain ⟨cn, -, hat⟩ := generateKPathSet_realizable hk hpaths hroot P hP
  have hlen := kPathAt_length (by omega) hat
  simp only [Context.names_mk_nil, List.nil_append] at ht hPeq
  refine ⟨v, hv, chain, a, ht, ?_⟩
  unfold kPathPrefix at hPeq
  split at hPeq
  · exact ⟨‹_›, hPeq⟩
  · subst hPeq
    simp at hlen
    omega

/-- The rule names of `choiceGrammar`. -/
def choiceA : Symbol := ⟨['a'], by decide⟩

def choiceB : Symbol := ⟨['b'], by decide⟩

/-- A grammar of two rules: `a` is a `b` or a literal, and `b` is a literal. -/
def choiceGrammar : Grammar where
  rules := [(choiceA, ⟨[⟨[.ref ⟨0, choiceB, []⟩], []⟩, ⟨[.lit 1 (.bool false)], []⟩]⟩),
    (choiceB, ⟨[⟨[.lit 2 (.bool true)], []⟩]⟩)]
  rootRefs := [(choiceA, 3), (choiceB, 4)]

set_option maxRecDepth 10000 in
theorem choiceGrammar_kPathCovering_complete : ∃ vals paths rootRef,
    (2 ≤ 2 ∧ choiceGrammar.kPathCovering 2 4 choiceA [] = .ok vals ∧
      choiceGrammar.generateKPathSet 2 choiceA [] = .ok paths ∧ choiceGrammar.getRootRef choiceA = .ok rootRef) ∧
    ∀ P ∈ paths, ∃ v ∈ vals, KPathIn choiceGrammar 2 [] rootRef v P :=
  ⟨_, _, _, ⟨by decide, rfl, rfl, rfl⟩, @kPathCovering_complete choiceGrammar 2 4 choiceA [] _ _ _ (by decide) rfl rfl rfl⟩

/-- `kPathCovering` ends, returning or throwing, for every grammar, rule, parameter specs and `k ≥ 2`: some number
of turns of its loop is enough, and any more give the same. -/
theorem kPathCovering_terminates (G : Grammar) (k : Nat) (rule : Symbol) (specs : ParamSpecs) (hk : 2 ≤ k) :
    ∃ n, ∀ fuel, n ≤ fuel → G.kPathCovering k fuel rule specs ≠ .error .outOfFuel := by
  cases hg : G.generateKPathSet k rule specs with
  | error e =>
    refine ⟨0, fun fuel _ => ?_⟩
    have := @generateKPathSet_ne_outOfFuel G k rule specs (by omega)
    rw [hg] at this
    simpa [kPathCovering, hg, bind, Except.bind] using this
  | ok paths₀ =>
    obtain ⟨rootRef, hroot⟩ := generateKPathSet_getRootRef hg
    have hreal := generateKPathSet_realizable hk hg hroot
    obtain ⟨D, hD⟩ := exists_bound_of_forall_mem (fun P D => ∃ c ns a,
        Reaches G (specs.map Prod.fst) rootRef (c, ns) ∧ AtomAt G (c, ns) a ∧ P = kPathPrefix k c ++ [a] ∧
        c.length + 1 ≤ D) (fun _ _ _ ⟨c, ns, a, h₁, h₂, h₃, h₄⟩ hmn => ⟨c, ns, a, h₁, h₂, h₃, h₄.trans hmn⟩)
      paths₀ fun P hP => by
        obtain ⟨⟨c, ns⟩, hr, a, hat, hl, rfl⟩ := hreal P hP
        exact ⟨c.length + 1, c, ns, a, hr, hat, by simp [kPathPrefix, hl], le_refl _⟩
    refine ⟨paths₀.length + D + 1, fun fuel hf => ?_⟩
    unfold kPathCovering
    rw [hg, ok_bind]
    have hD' : ∀ P ∈ paths₀, ∃ c ns a, Reaches G (Context.mk specs []).names rootRef (c, ns) ∧ AtomAt G (c, ns) a ∧
        P = kPathPrefix k c ++ [a] ∧ c.length + 1 ≤ D := by simpa using hD
    exact kPathCoveringLoop_ne_outOfFuel hroot hD' fuel k _ [] rfl
      (fun P hP => hP) (by simp only; omega)

theorem choiceGrammar_kPathCovering_terminates :
    2 ≤ 2 ∧ ∃ n, ∀ fuel, n ≤ fuel → choiceGrammar.kPathCovering 2 fuel choiceA [] ≠ .error .outOfFuel :=
  ⟨by decide, kPathCovering_terminates _ _ _ _ (by decide)⟩

end Grammar

end Photesthesis
