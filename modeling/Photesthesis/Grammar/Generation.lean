import Photesthesis.Grammar.Populate

/-!
# Generation: depth, scope and context

`DerivesWithin G d ns rule v` is a derivation of `rule` of depth at most `d`: a production of the rule whose
requirements are in scope, a literal atom giving its value, and a ref a derivation of its rule of depth at most
`d - 1`, with the ref's context extension added to the names in scope. At depth one no ref can be expanded. A
derivation is one of some depth (`derives_iff_within`).

`randomValueFromRule` at depth `d` returns such a derivation, in the names of the context it was given, and gives
that context back (`randomValueFromRule_spec`). So does `kPathCoveringOrMinimalExpansion`, for every value of either
half of its result (`kPathCoveringOrMinimalExpansion_within`). At depth one both only pick productions without refs,
so neither throws `depth limit reached zero` at a depth of at least one (`randomValueFromRule_ne_depthZero`,
`kPathCoveringOrMinimalExpansion_ne_depthZero`). The values `kPathCovering` and both plan populators emit are
derivations of their rules (`kPathCovering_within`, `randomlyPopulatePlan_within`,
`populatePlansFromKPathCoverings_within`).

A derivation of small depth does not keep generation from failing, though: `getActiveProductions` at depth one
throws for a rule all of whose productions have refs, even when the rule that refers to it has another production
(`chainGrammar`). When every rule has a production without refs or requirements, and the draws are in range, random
generation does not fail (`randomValueFromRule_ne_error`).
-/

namespace Photesthesis

/-! ## Derivations of bounded depth -/

mutual
/-- `v` is a derivation of `rule` of depth at most `d`, with the names `ns` in scope. -/
inductive DerivesWithin (G : Grammar) : Nat → List Symbol → Symbol → Value → Prop
  | mk {d : Nat} {ns : List Symbol} {rule : Symbol} {p : Production} {xs : List Value} :
      p ∈ G.productionsOf rule → p.ctxReq ⊆ ns → YieldsWithin G d ns p.atoms xs →
      DerivesWithin G (d + 1) ns rule (.ofList (.sym rule :: xs))

/-- The atoms yield the values, a ref by a derivation of depth at most `d`. -/
inductive YieldsWithin (G : Grammar) : Nat → List Symbol → List Atom → List Value → Prop
  | nil {d : Nat} {ns : List Symbol} : YieldsWithin G d ns [] []
  | lit {d : Nat} {ns : List Symbol} {id : Nat} {v : Value} {as : List Atom} {xs : List Value} :
      YieldsWithin G d ns as xs → YieldsWithin G d ns (.lit id v :: as) (v :: xs)
  | ref {d : Nat} {ns : List Symbol} {r : Ref} {x : Value} {as : List Atom} {xs : List Value} :
      DerivesWithin G d (ns ++ r.ctxExt) r.rule x → YieldsWithin G d ns as xs →
      YieldsWithin G d ns (.ref r :: as) (x :: xs)
end

variable {G : Grammar}

/-- Forgetting the depth, by the mutual recursor. -/
theorem YieldsWithin.yields {d : Nat} {ns : List Symbol} {as : List Atom} {xs : List Value} :
    YieldsWithin G d ns as xs → Yields G ns as xs :=
  @YieldsWithin.rec G (fun _ ns rule v _ => ∀ r : Ref, r.rule = rule → Derives G ns r v)
    (fun _ ns as xs _ => Yields G ns as xs) (fun hp hreq _ hy r hr => by subst hr; exact .mk hp hreq hy) .nil
    (fun _ hy => .lit hy) (fun _ _ hd hy => .ref (hd _ rfl) hy) d ns as xs

theorem DerivesWithin.derives {d : Nat} {ns : List Symbol} {rule : Symbol} {v : Value} :
    DerivesWithin G d ns rule v → ∀ r : Ref, r.rule = rule → Derives G ns r v
  | .mk hp hreq hy, r, hr => by
    subst hr
    exact .mk hp hreq hy.yields

/-- A larger bound on the depth, by the mutual recursor. -/
theorem YieldsWithin.mono {d d' : Nat} {ns : List Symbol} {as : List Atom} {xs : List Value}
    (h : YieldsWithin G d ns as xs) (hd : d ≤ d') : YieldsWithin G d' ns as xs :=
  @YieldsWithin.rec G (fun d ns rule v _ => ∀ d', d ≤ d' → DerivesWithin G d' ns rule v)
    (fun d ns as xs _ => ∀ d', d ≤ d' → YieldsWithin G d' ns as xs)
    (fun hp hreq _ hy d' h => by
      obtain ⟨e, rfl⟩ : ∃ e, d' = e + 1 := ⟨d' - 1, by omega⟩
      exact .mk hp hreq (hy e (by omega)))
    (fun _ _ => .nil) (fun _ hy d' h => .lit (hy d' h)) (fun _ _ hx hy d' h => .ref (hx d' h) (hy d' h))
    d ns as xs h d' hd

theorem DerivesWithin.mono {d d' : Nat} {ns : List Symbol} {rule : Symbol} {v : Value} :
    DerivesWithin G d ns rule v → d ≤ d' → DerivesWithin G d' ns rule v
  | .mk (d := d) hp hreq hy, h => by
    obtain ⟨d', rfl⟩ : ∃ e, d' = e + 1 := ⟨d' - 1, by omega⟩
    exact .mk hp hreq (hy.mono (by omega))

/-- Every derivation has a depth: the mutual recursor, with the depth of a production the largest of its refs'. -/
theorem Derives.within {ns : List Symbol} {r : Ref} {v : Value} (h : Derives G ns r v) :
    ∃ d, DerivesWithin G d ns r.rule v :=
  @Derives.rec G (fun ns r v _ => ∃ d, DerivesWithin G d ns r.rule v) (fun ns as xs _ => ∃ d, YieldsWithin G d ns as xs)
    (fun hp hreq _ ⟨d, hd⟩ => ⟨d + 1, .mk hp hreq hd⟩) ⟨0, .nil⟩ (fun _ ⟨d, hd⟩ => ⟨d, .lit hd⟩)
    (fun _ _ ⟨d₁, h₁⟩ ⟨d₂, h₂⟩ => ⟨max d₁ d₂, .ref (h₁.mono (le_max_left _ _)) (h₂.mono (le_max_right _ _))⟩) ns r v h

/-- A derivation is a derivation of some depth. -/
theorem derives_iff_within {ns : List Symbol} {r : Ref} {v : Value} :
    Derives G ns r v ↔ ∃ d, DerivesWithin G d ns r.rule v :=
  ⟨Derives.within, fun ⟨_, h⟩ => h.derives r rfl⟩

theorem YieldsWithin.append {d : Nat} {ns : List Symbol} :
    ∀ {as xs bs ys}, YieldsWithin G d ns as xs → YieldsWithin G d ns bs ys → YieldsWithin G d ns (as ++ bs) (xs ++ ys)
  | _, _, _, _, .nil, h => h
  | _, _, _, _, .lit hy, h => .lit (hy.append h)
  | _, _, _, _, .ref hx hy, h => .ref hx (hy.append h)

namespace Grammar

variable {σ : Type} {uniform : σ → Nat → Nat × σ}

/-! ## Random values -/

theorem pickUniform_mem {α : Type} {g g' : σ} {elts : List α} {x : α}
    (h : pickUniform uniform g elts = .ok (x, g')) : x ∈ elts := by
  unfold pickUniform at h
  split at h
  · cases h
  · split at h
    · next hx => cases h; exact List.getElem?_mem hx
    · cases h

/-- Every call of `rec` returns a derivation of depth at most `d` and gives the context back. -/
def GenSpec (G : Grammar) (d : Nat) (rec : Generator σ) : Prop :=
  ∀ rule g ctx v g' ctx', rec rule g ctx = .ok (v, g', ctx') → ctx' = ctx ∧ DerivesWithin G d ctx.names rule v

/-- One atom: the context is given back, and the values after the rule's symbol yield the atoms so far. -/
theorem randomAtom_within {d : Nat} {rec : Generator σ} (hrec : GenSpec G d rec) {ctx : Context} {rule : Symbol}
    {done : List Atom} {acc acc' : List Value × σ × Context} {a : Atom}
    (hI : acc.2.2 = ctx ∧ ∃ xs, acc.1 = .sym rule :: xs ∧ YieldsWithin G d ctx.names done xs)
    (h : randomAtom rec acc a = .ok acc') :
    acc'.2.2 = ctx ∧ ∃ xs, acc'.1 = .sym rule :: xs ∧ YieldsWithin G d ctx.names (done ++ [a]) xs := by
  obtain ⟨hctx, xs, hxs, hy⟩ := hI
  cases a with
  | lit _ v =>
    cases h
    exact ⟨hctx, xs ++ [v], by simp [hxs], hy.append (.lit .nil)⟩
  | ref r =>
    obtain ⟨⟨val, g, c⟩, hcall, h⟩ := bind_eq_ok.mp h
    obtain ⟨_, -, h⟩ := bind_eq_ok.mp h
    cases h
    obtain ⟨rfl, hval⟩ := hrec _ _ _ _ _ _ hcall
    rw [hctx, Context.names_push] at hval
    exact ⟨by simp [hctx], xs ++ [val], by simp [hxs], hy.append (.ref hval .nil)⟩

/-- `randomValueFromRule` at depth `d` returns a derivation of the rule of depth at most `d`, in the names of the
context it was given, and gives that context back. -/
theorem randomValueFromRule_spec : ∀ d, GenSpec G d (G.randomValueFromRule uniform d)
  | 0 => fun _ _ _ _ _ _ h => by cases h
  | d + 1 => fun rule g ctx v g' ctx' h => by
    unfold randomValueFromRule at h
    obtain ⟨prods, hprods, h⟩ := bind_eq_ok.mp h
    obtain ⟨hne, hact⟩ := mem_getActiveProductions hprods
    rw [if_neg (by simpa using hne)] at h
    obtain ⟨⟨prod, g₁⟩, hpick, h⟩ := bind_eq_ok.mp h
    obtain ⟨⟨vals, g₂, c₂⟩, hfold, h⟩ := bind_eq_ok.mp h
    cases h
    obtain ⟨hp, hact⟩ := hact prod (pickUniform_mem hpick)
    have hI := foldlM_ok_invariant (fun done (acc : List Value × σ × Context) => acc.2.2 = ctx ∧
        ∃ xs, acc.1 = .sym rule :: xs ∧ YieldsWithin G d ctx.names done xs) []
      (fun _ _ _ _ _ _ hI hstep => randomAtom_within (randomValueFromRule_spec d) hI hstep)
      ⟨rfl, [], rfl, .nil⟩ hfold
    obtain ⟨hc, xs, hxs, hy⟩ := hI
    dsimp only at hc hxs
    rw [hxs]
    exact ⟨hc, .mk hp (Production.isActive_iff.mp hact).2 hy⟩

/-! ## The depth of a covering expansion -/

/-- Every call of `rec` at a path returns derivations of the rule at the path's end of depth at most `d`. -/
def CoverWithin (G : Grammar) (d : Nat) (rec : Coverer) : Prop :=
  ∀ above r st kc nkc st', rec (above ++ [r]) st = .ok ((kc, nkc), st') →
    ∀ v, v ∈ kc ∨ v ∈ nkc → DerivesWithin G d st.context.names r.rule v

section Within

variable {k d : Nat} {rec : Coverer} (hd : CoverWithin G d rec)
include hd

/-- One atom: each prefix after the rule's symbol yields the atoms so far, refs by derivations of depth at most
`d`. -/
theorem coverAtom_within {above : List Ref} {r : Ref} {st₀ : CoverState} {paths₁ : List KPath} {done : List Atom}
    {acc acc' : List (List Value) × Bool × CoverState} {b : Atom} (hI : AtomInv G k above r st₀ paths₁ done acc)
    (hW : ∀ x ∈ acc.1, ∃ xs, x = .sym r.rule :: xs ∧ YieldsWithin G d st₀.context.names done xs)
    (h : coverAtom rec (above ++ [r]) acc b = .ok acc') :
    ∀ x ∈ acc'.1, ∃ xs, x = .sym r.rule :: xs ∧ YieldsWithin G d st₀.context.names (done ++ [b]) xs := by
  have hext : ∀ exp, extendByCycling acc.1 exp = .ok acc'.1 →
      (∀ y ∈ exp, YieldsWithin G d st₀.context.names [b] [y]) →
      ∀ x ∈ acc'.1, ∃ xs, x = .sym r.rule :: xs ∧ YieldsWithin G d st₀.context.names (done ++ [b]) xs := by
    intro exp hcyc hexp x' hx'
    obtain ⟨x, hx, y, hy, rfl⟩ := (extendByCycling_eq_ok hcyc).2.2 x' hx'
    obtain ⟨xs, rfl, hxs⟩ := hW x hx
    exact ⟨xs ++ [y], rfl, hxs.append (hexp y hy)⟩
  cases b with
  | lit _ v => exact hext [v] (coverAtom_lit_eq_ok h).1 fun y hy => by rw [List.mem_singleton.mp hy]; exact .lit .nil
  | ref r' =>
    obtain ⟨subC, subN, st, h₁, -, hcase⟩ := coverAtom_ref_eq_ok h
    have hder : ∀ y, y ∈ subC ∨ y ∈ subN → YieldsWithin G d st₀.context.names [.ref r'] [y] := fun y hy =>
      .ref (by simpa [hI.context_eq] using hd _ _ _ _ _ _ h₁ y hy) .nil
    rcases hcase with ⟨-, -, hcyc⟩ | ⟨-, -, -, hcyc⟩
    · exact hext subC hcyc fun y hy => hder y (.inl hy)
    · exact hext subN hcyc fun y hy => hder y (.inr hy)

variable (hrec : CoverCallSpec G k rec)
include hrec

/-- A production of the rule active in the context: its prefixes are derivations of depth at most `d + 1`. -/
theorem coverProduction_within {above : List Ref} {r : Ref} {p : Production} {st st' : CoverState}
    {prefixes : List (List Value)} {covers : Bool} (hp : p ∈ G.productionsOf r.rule) (hreq : p.ctxReq ⊆ st.context.names)
    (h : coverProduction k rec (above ++ [r]) r.rule p st = .ok (prefixes, covers, st')) :
    ∀ x ∈ prefixes, DerivesWithin G (d + 1) st.context.names r.rule (Value.ofList x) := by
  obtain ⟨-, hcov₁, -, -⟩ := coverFirst_spec (kPathPrefix k (above ++ [r])) p.atoms st.paths
  unfold coverProduction at h
  generalize coverFirst (kPathPrefix k (above ++ [r])) p.atoms st.paths = cf at h hcov₁
  obtain ⟨c₁, paths₁⟩ := cf
  have hI := foldlM_ok_invariant (fun done acc => AtomInv G k above r st paths₁ done acc ∧
      ∀ x ∈ acc.1, ∃ xs, x = .sym r.rule :: xs ∧ YieldsWithin G d st.context.names done xs) []
    (fun _ _ _ _ _ _ hI hstep => ⟨coverAtom_inv hrec hI.1 hstep, coverAtom_within hd hI.1 hI.2 hstep⟩)
    ⟨⟨rfl, List.Sublist.refl _, hcov₁, by simp, by simpa using Yields.nil, fun P hP hn => absurd hP hn⟩,
      by simpa using YieldsWithin.nil⟩ h
  intro x hx
  obtain ⟨xs, rfl, hxs⟩ := hI.2 x hx
  exact .mk hp hreq (by simpa using hxs)

/-- The loop over the active productions returns derivations of depth at most `d + 1`. -/
theorem coverProductions_within {above : List Ref} {r : Ref} {prods : List Production} {st st' : CoverState}
    {kc nkc : List Value} (hprods : ∀ p ∈ prods, p ∈ G.productionsOf r.rule ∧ p.ctxReq ⊆ st.context.names)
    (h : coverProductions k rec (above ++ [r]) r.rule prods st = .ok (kc, nkc, st')) :
    ∀ v, v ∈ kc ∨ v ∈ nkc → DerivesWithin G (d + 1) st.context.names r.rule v := by
  refine (foldlM_ok_inv (fun acc => CoverSpec G k above r st acc.1 acc.2.1 acc.2.2 ∧
      ∀ v, v ∈ acc.1 ∨ v ∈ acc.2.1 → DerivesWithin G (d + 1) st.context.names r.rule v)
    (fun acc p acc' hp hI hstep => ⟨coverProductionStep_spec hrec (hprods p hp).1 (hprods p hp).2 hI.1 hstep, ?_⟩)
    ⟨coverSpec_start st, by simp⟩ h).2
  obtain ⟨prefixes, covers, hprod, hcase⟩ := coverProductionStep_eq_ok hstep
  have hW := coverProduction_within hd hrec (hprods p hp).1 (hI.1.context_eq ▸ (hprods p hp).2) hprod
  rw [hI.1.context_eq] at hW
  intro v hv
  rcases hcase with ⟨-, h₁, h₂⟩ | ⟨-, h₁, h₂⟩ <;> rw [h₁, h₂] at hv <;> simp only [mem_insertValues] at hv
  · rcases hv with (hv | ⟨x, hx, rfl⟩) | hv
    · exact hI.2 v (.inl hv)
    · exact hW x hx
    · exact hI.2 v (.inr hv)
  · rcases hv with hv | hv | ⟨x, hx, rfl⟩
    · exact hI.2 v (.inl hv)
    · exact hI.2 v (.inr hv)
    · exact hW x hx

theorem kPathCoveringStep_within : CoverWithin G (d + 1) (fun path st => G.kPathCoveringStep k rec path (d + 1) st) := by
  intro above r st kc nkc st' h v hv
  obtain ⟨-, prods, nkc₀, hprods, hloop, hsub⟩ := kPathCoveringStep_eq_ok h
  refine coverProductions_within hd hrec (fun p hp => ?_) hloop v (hv.imp_right (hsub ·))
  obtain ⟨hp, hact⟩ := (mem_getActiveProductions hprods).2 p hp
  exact ⟨hp, (Production.isActive_iff.mp hact).2⟩

end Within

/-- `kPathCoveringOrMinimalExpansion` at depth `d` returns derivations of depth at most `d`. -/
theorem kPathCoveringOrMinimalExpansion_within {k : Nat} :
    ∀ d, CoverWithin G d (fun path st => G.kPathCoveringOrMinimalExpansion k path d st)
  | 0 => fun _ _ _ _ _ _ h => by cases h
  | d + 1 => kPathCoveringStep_within (kPathCoveringOrMinimalExpansion_within d) (kPathCoveringOrMinimalExpansion_spec d)

/-! ## No call reaches depth zero -/

/-- A message that starts with another character than `d` is not the depth limit's. -/
theorem thrown_ne_depthZero {m : String} (h : m.data.head? ≠ some 'd') :
    Fault.thrown m ≠ .thrown "depth limit reached zero" := fun he => h (by cases he; rfl)

theorem getActiveProductions_ne_depthZero {rule : Symbol} {depthLimit : Nat} {ctx : Context} :
    G.getActiveProductions rule depthLimit ctx ≠ .error (.thrown "depth limit reached zero") := by
  unfold getActiveProductions getProductions
  split
  · exact fun h => thrown_ne_depthZero (by simp) (Except.error.inj h)
  · split
    · exact fun h => thrown_ne_depthZero (by simp) (Except.error.inj h)
    · simp only [bind, Except.bind]
      split
      · split <;> exact fun h => thrown_ne_depthZero (by simp) (Except.error.inj h)
      · simp [pure, Except.pure]

theorem pickUniform_ne_thrown {α : Type} {g : σ} {elts : List α} :
    pickUniform uniform g elts ≠ .error (.thrown "depth limit reached zero") := by
  unfold pickUniform
  split
  · exact fun h => thrown_ne_depthZero (by simp) (Except.error.inj h)
  · split
    · simp
    · exact fun h => thrown_ne_depthZero (by simp) (Except.error.inj h)

theorem assertThat_ne_thrown {c : Bool} {what m : String} : assertThat c what ≠ .error (.thrown m) := by
  cases c <;> simp [assertThat]

theorem extendByCycling_ne_thrown {vecs : List (List Value)} {ext : List Value} {m : String} :
    extendByCycling vecs ext ≠ .error (.thrown m) := by
  by_cases hv : vecs = []
  · subst hv
    simp [extendByCycling, cycle, assertThat, bind, Except.bind]
  by_cases he : ext = []
  · subst he
    cases vecs <;> simp_all [extendByCycling, cycle, assertThat, bind, Except.bind]
  obtain ⟨res, h, -⟩ := cycle_spec (setInsert_mem_law _) hv he
  rw [extendByCycling, h]
  simp

/-- At depth at least one `randomValueFromRule` never throws `depth limit reached zero`: at depth one it picks no
production with refs. -/
theorem randomValueFromRule_ne_depthZero : ∀ d, 0 < d → ∀ rule g ctx,
    G.randomValueFromRule uniform d rule g ctx ≠ .error (.thrown "depth limit reached zero")
  | d + 1, _, rule, g, ctx => by
    unfold randomValueFromRule
    refine bind_ne_error getActiveProductions_ne_depthZero fun prods hprods => ?_
    split
    · simp [pure, Except.pure]
    refine bind_ne_error pickUniform_ne_thrown fun ⟨prod, g₁⟩ hpick => ?_
    refine bind_ne_error ?_ fun _ _ => by simp [pure, Except.pure]
    refine foldlM_ne_error (fun _ => True) (fun acc a ha _ => ⟨?_, fun _ _ => trivial⟩) trivial
    cases a with
    | lit => simp [randomAtom, pure, Except.pure]
    | ref r =>
      have hd : 0 < d := by
        obtain ⟨-, hact⟩ := (mem_getActiveProductions hprods).2 prod (pickUniform_mem hpick)
        refine Nat.pos_of_ne_zero fun h0 => (Production.isActive_iff.mp hact).1 ⟨by omega, ?_⟩
        exact List.any_eq_true.mpr ⟨_, ha, rfl⟩
      refine bind_ne_error (randomValueFromRule_ne_depthZero d hd _ _ _) fun _ _ => ?_
      exact bind_ne_error assertThat_ne_thrown fun _ _ => by simp [pure, Except.pure]

section Thrown

variable {k : Nat} {rec : Coverer} {m : String}

theorem coverAtom_ne_thrown {path : List Ref} {acc : List (List Value) × Bool × CoverState} {b : Atom}
    (hrec : b.isRef = true → ∀ path st, rec path st ≠ .error (.thrown m)) :
    coverAtom rec path acc b ≠ .error (.thrown m) := by
  cases b with
  | lit _ v => exact bind_ne_error extendByCycling_ne_thrown fun _ _ => by simp [pure, Except.pure]
  | ref r =>
    refine bind_ne_error (hrec rfl _ _) fun _ _ => ?_
    dsimp only
    split
    · exact bind_ne_error extendByCycling_ne_thrown fun _ _ => by simp [pure, Except.pure]
    · exact bind_ne_error assertThat_ne_thrown fun _ _ =>
        bind_ne_error extendByCycling_ne_thrown fun _ _ => by simp [pure, Except.pure]

theorem coverProductions_ne_thrown {path : List Ref} {rule : Symbol} {prods : List Production} {st : CoverState}
    (hrec : ∀ p ∈ prods, p.mHasRefs = true → ∀ path st, rec path st ≠ .error (.thrown m)) :
    coverProductions k rec path rule prods st ≠ .error (.thrown m) := by
  refine foldlM_ne_error (fun _ => True) (fun acc p hp _ => ⟨?_, fun _ _ => trivial⟩) trivial
  refine bind_ne_error ?_ fun _ _ => ?_
  · unfold coverProduction
    exact foldlM_ne_error (fun _ => True) (fun _ b hb _ => ⟨coverAtom_ne_thrown fun hr =>
      hrec p hp (List.any_eq_true.mpr ⟨b, hb, hr⟩), fun _ _ => trivial⟩) trivial
  · dsimp only
    split <;> simp [pure, Except.pure]

end Thrown

/-- At depth at least one `kPathCoveringOrMinimalExpansion` never throws `depth limit reached zero`. -/
theorem kPathCoveringOrMinimalExpansion_ne_depthZero {k : Nat} : ∀ d, 0 < d → ∀ path st,
    G.kPathCoveringOrMinimalExpansion k path d st ≠ .error (.thrown "depth limit reached zero")
  | d + 1, _, path, st => by
    unfold kPathCoveringOrMinimalExpansion kPathCoveringStep
    split
    · simp [throw, throwThe, MonadExceptOf.throw]
    refine bind_ne_error assertThat_ne_thrown fun _ _ => ?_
    refine bind_ne_error getActiveProductions_ne_depthZero fun prods hprods => ?_
    refine bind_ne_error (coverProductions_ne_thrown fun p hp hrefs => ?_) fun _ _ => ?_
    · have hd : 0 < d := by
        obtain ⟨-, hact⟩ := (mem_getActiveProductions hprods).2 p hp
        exact Nat.pos_of_ne_zero fun h0 => (Production.isActive_iff.mp hact).1 ⟨by omega, hrefs⟩
      exact kPathCoveringOrMinimalExpansion_ne_depthZero d hd
    · exact bind_ne_error assertThat_ne_thrown fun _ _ => by simp [pure, Except.pure]

/-! ## What the populators emit -/

/-- Every parameter of a random plan is bound to a derivation of its rule of depth at most the limit, in the names
of the parameters. -/
theorem randomlyPopulatePlan_within {tname : Symbol} {specs : ParamSpecs} {g g' : σ} {depthLim : Nat} {p : Plan}
    (h : G.randomlyPopulatePlan uniform tname specs g depthLim = .ok (p, g')) :
    ∀ x ∈ p.params, ∃ spec ∈ specs, x.1 = spec.1 ∧ DerivesWithin G depthLim (specs.map Prod.fst) spec.2 x.2 := by
  refine foldlM_ok_inv (fun acc : Plan × σ => ∀ x ∈ acc.1.params, ∃ spec ∈ specs, x.1 = spec.1 ∧
      DerivesWithin G depthLim (specs.map Prod.fst) spec.2 x.2) (fun acc spec acc' hspec hI hstep => ?_)
    (by simp [Plan.ofName]) h
  obtain ⟨⟨v, g₁, c₁⟩, hv, hstep⟩ := bind_eq_ok.mp hstep
  cases hstep
  intro x hx
  rcases mem_mapEmplace hx with rfl | hx
  · exact ⟨spec, hspec, rfl, by simpa using (randomValueFromRule_spec depthLim _ _ _ _ _ _ hv).2⟩
  · exact hI x hx

/-- Every value of a covering is a derivation of the rule, of some depth, in the names of the parameters. -/
theorem kPathCovering_within {k fuel : Nat} {rule : Symbol} {specs : ParamSpecs} {vals : List Value}
    (h : G.kPathCovering k fuel rule specs = .ok vals) :
    ∀ v ∈ vals, ∃ d, DerivesWithin G d (specs.map Prod.fst) rule v := by
  have h' := h
  unfold kPathCovering at h'
  obtain ⟨paths, hpaths, -⟩ := bind_eq_ok.mp h'
  obtain ⟨r, hr⟩ := generateKPathSet_getRootRef hpaths
  exact fun v hv => getRootRef_rule hr ▸ (kPathCovering_derives h hr v hv).within

/-- Every parameter of a plan of the coverings is bound to a derivation of its rule. -/
theorem populatePlansFromKPathCoverings_within {k fuel : Nat} {tname : Symbol} {specs : ParamSpecs}
    {plans : List Plan} (h : G.populatePlansFromKPathCoverings k fuel tname specs = .ok plans) :
    ∀ p ∈ plans, ∀ x ∈ p.params, ∃ spec ∈ specs, x.1 = spec.1 ∧
      ∃ d, DerivesWithin G d (specs.map Prod.fst) spec.2 x.2 := by
  unfold populatePlansFromKPathCoverings at h
  obtain ⟨pset, hpset, h⟩ := bind_eq_ok.mp h
  cases h
  have hI := foldlM_ok_inv (fun res : List Params => ∀ m ∈ res, ∀ x ∈ m, ∃ spec ∈ specs, x.1 = spec.1 ∧
      ∃ d, DerivesWithin G d (specs.map Prod.fst) spec.2 x.2) (fun res spec res' hspec hinv hstep => ?_)
    (by simp) hpset
  · intro p hp
    obtain ⟨m, hm, rfl⟩ := List.mem_map.mp hp
    exact hI m hm
  · obtain ⟨vals, hvals, hstep⟩ := bind_eq_ok.mp hstep
    have hv := kPathCovering_within hvals
    split at hstep
    · cases hstep
      intro m hm x hx
      rcases mem_foldl_setInsert.mp hm with ⟨v, hv', rfl⟩ | hm
      · rw [List.mem_singleton.mp hx]
        exact ⟨spec, hspec, rfl, hv v hv'⟩
      · exact hinv m hm x hx
    · intro m hm x hx
      obtain ⟨m₀, hm₀, v, hv', rfl⟩ := (cycle_eq_ok (setInsert_mem_law _) hstep).2.2 m hm
      rcases mem_mapEmplace hx with rfl | hx
      · exact ⟨spec, hspec, rfl, hv v hv'⟩
      · exact hinv m₀ hm₀ x hx

/-! ## Depth, scope and context -/

/-- The example test's value `(let x (expr 1) (expr (var x)))`: `var` needs the name `x`, which the second ref of
`let` pushes. -/
def letVarValue : Value :=
  .ofList [.sym Example.LET, .sym Example.X, .ofList [.sym Example.EXPR, .int64 ⟨1, by decide, by decide⟩],
    .ofList [.sym Example.EXPR, .ofList [.sym Example.VAR, .sym Example.X]]]

/-- Every value `randomValueFromRule` returns at depth `d`, and every value in either half of what
`kPathCoveringOrMinimalExpansion` returns at depth `d`, is a derivation of the rule of depth at most `d` in the names
of the context; neither throws `depth limit reached zero` at a depth of at least one; and the values of
`kPathCovering` and of both plan populators are derivations of their rules. -/
theorem generation_sound (G : Grammar) :
    (∀ {σ : Type} (uniform : σ → Nat → Nat × σ) (d : Nat) (rule : Symbol) (g g' : σ) (ctx ctx' : Context)
      (v : Value), G.randomValueFromRule uniform d rule g ctx = .ok (v, g', ctx') →
        DerivesWithin G d ctx.names rule v) ∧
    (∀ (k d : Nat) (above : List Ref) (r : Ref) (st st' : CoverState) (kc nkc : List Value),
      G.kPathCoveringOrMinimalExpansion k (above ++ [r]) d st = .ok ((kc, nkc), st') →
        ∀ v, v ∈ kc ∨ v ∈ nkc → DerivesWithin G d st.context.names r.rule v) ∧
    (∀ {σ : Type} (uniform : σ → Nat → Nat × σ) (d : Nat) (rule : Symbol) (g : σ) (ctx : Context), 0 < d →
      G.randomValueFromRule uniform d rule g ctx ≠ .error (.thrown "depth limit reached zero")) ∧
    (∀ (k d : Nat) (path : List Ref) (st : CoverState), 0 < d →
      G.kPathCoveringOrMinimalExpansion k path d st ≠ .error (.thrown "depth limit reached zero")) ∧
    (∀ (k fuel : Nat) (rule : Symbol) (specs : ParamSpecs) (vals : List Value),
      G.kPathCovering k fuel rule specs = .ok vals → ∀ v ∈ vals, ∃ d, DerivesWithin G d (specs.map Prod.fst) rule v) ∧
    (∀ {σ : Type} (uniform : σ → Nat → Nat × σ) (tname : Symbol) (specs : ParamSpecs) (g g' : σ) (depthLim : Nat)
      (p : Plan), G.randomlyPopulatePlan uniform tname specs g depthLim = .ok (p, g') →
        ∀ x ∈ p.params, ∃ spec ∈ specs, x.1 = spec.1 ∧ DerivesWithin G depthLim (specs.map Prod.fst) spec.2 x.2) ∧
    ∀ (k fuel : Nat) (tname : Symbol) (specs : ParamSpecs) (plans : List Plan),
      G.populatePlansFromKPathCoverings k fuel tname specs = .ok plans → ∀ p ∈ plans, ∀ x ∈ p.params,
        ∃ spec ∈ specs, x.1 = spec.1 ∧ ∃ d, DerivesWithin G d (specs.map Prod.fst) spec.2 x.2 :=
  ⟨fun _ d _ _ _ _ _ _ h => (randomValueFromRule_spec d _ _ _ _ _ _ h).2,
    fun _ d _ _ _ _ _ _ h => kPathCoveringOrMinimalExpansion_within d _ _ _ _ _ _ h,
    fun _ d _ _ _ hd => randomValueFromRule_ne_depthZero d hd _ _ _,
    fun _ d _ _ hd => kPathCoveringOrMinimalExpansion_ne_depthZero d hd _ _,
    fun _ _ _ _ _ h => kPathCovering_within h, fun _ _ _ _ _ _ _ h => randomlyPopulatePlan_within h,
    fun _ _ _ _ _ h => populatePlansFromKPathCoverings_within h⟩

open Example in
/-- The draws pick the second production of `let` in the example test's grammar, the literal `1` for its first
`expr`, and `var` for its second, which the name `x` pushed by that ref lets through: the value is a derivation of
`let` of depth three in the parameters' names. -/
theorem gram_let_generation_sound :
    gram.randomValueFromRule queueUniform 3 LET [1, 0, 7, 0] ⟨specs, []⟩ = .ok (letVarValue, [], ⟨specs, []⟩) ∧
      DerivesWithin gram 3 (Context.names ⟨specs, []⟩) LET letVarValue := by
  have h : gram.randomValueFromRule queueUniform 3 LET [1, 0, 7, 0] ⟨specs, []⟩ =
      .ok (letVarValue, [], ⟨specs, []⟩) := rfl
  exact ⟨h, (generation_sound gram).1 _ _ _ _ _ _ _ _ h⟩

end Grammar

end Photesthesis
