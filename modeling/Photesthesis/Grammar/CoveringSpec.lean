import Photesthesis.Grammar.Covering
import Photesthesis.Grammar.Derivation

/-!
# What one covering expansion does

`CoverSpec` says what a call of `kPathCoveringOrMinimalExpansion` at a path ending in the ref `r` does: it gives the
context back, it only erases k-paths from the uncovered set, it erases some exactly when it returns a covering value,
every value it returns is a derivation of `r`'s rule, and every k-path it erases is covered by one of its covering
values (`Covers`): a chain of refs of that value's derivation, below the path, ends at a production with the atom
that completes the k-path. It holds at every depth limit (`kPathCoveringOrMinimalExpansion_spec`), one loop at a
time: an atom (`coverAtom_inv`), a production (`coverProduction_spec`), the productions (`coverProductions_spec`).
-/

namespace Photesthesis

namespace Grammar

/-- The value `v` of the rule of `r` covers the k-path `P`: in a derivation of `v`, with the names `ns` in scope,
a chain of refs down from `r`, below the refs `above`, ends at a production with the atom that completes `P`. -/
def Covers (G : Grammar) (k : Nat) (ns : List Symbol) (above : List Ref) (r : Ref) (v : Value) (P : KPath) : Prop :=
  ∃ chain a, Through G ns r v chain a ∧ P = kPathPrefix k (above ++ chain) ++ [a]

/-- What a call of `kPathCoveringOrMinimalExpansion` at the path `above ++ [r]` does, from the state `st` to `st'`,
returning the covering values `kc` and the others `nkc`. -/
structure CoverSpec (G : Grammar) (k : Nat) (above : List Ref) (r : Ref) (st : CoverState) (kc nkc : List Value)
    (st' : CoverState) : Prop where
  context_eq : st'.context = st.context
  sublist : st'.paths.Sublist st.paths
  nil_iff : kc = [] ↔ st'.paths = st.paths
  derives : ∀ v, v ∈ kc ∨ v ∈ nkc → Derives G st.context.names r v
  covers : ∀ P ∈ st.paths, P ∉ st'.paths → ∃ v ∈ kc, Covers G k st.context.names above r v P

/-- Every call of `rec` at a path that returns does what `CoverSpec` says. -/
def CoverCallSpec (G : Grammar) (k : Nat) (rec : Coverer) : Prop :=
  ∀ above r st kc nkc st', rec (above ++ [r]) st = .ok ((kc, nkc), st') → CoverSpec G k above r st kc nkc st'

variable {G : Grammar} {k : Nat} {rec : Coverer}

/-! ## Small facts -/

@[simp] theorem mem_insertValues {v : Value} : ∀ {s : List Value} {prefixes : List (List Value)},
    v ∈ insertValues s prefixes ↔ v ∈ s ∨ ∃ x ∈ prefixes, v = Value.ofList x
  | s, [] => by simp [insertValues]
  | s, x :: xs => by
    have ih := @mem_insertValues v (setInsert Value.comparator (Value.ofList x) s) xs
    simp only [insertValues, List.foldl_cons] at ih ⊢
    rw [ih, mem_setInsert]
    simp only [List.mem_cons, exists_eq_or_imp]
    rw [or_assoc, or_left_comm]

theorem insertValues_ne_nil {s : List Value} {prefixes : List (List Value)} (h : prefixes ≠ []) :
    insertValues s prefixes ≠ [] := by
  obtain ⟨x, hx⟩ := List.exists_mem_of_ne_nil _ h
  exact List.ne_nil_of_mem (mem_insertValues.mpr (.inr ⟨x, hx, rfl⟩))

theorem length_lt_of_sublist_ne {α : Type} {l l' : List α} (hs : l.Sublist l') (hne : l ≠ l') :
    l.length < l'.length :=
  lt_of_le_of_ne hs.length_le fun he => hne (hs.eq_of_length he)

/-- What `coverFirst` erases, and when. -/
theorem coverFirst_spec (kpath : KPath) (atoms : List Atom) (paths : List KPath) :
    (coverFirst kpath atoms paths).2.Sublist paths ∧
      ((coverFirst kpath atoms paths).1 = false ∧ (coverFirst kpath atoms paths).2 = paths ∨
        (coverFirst kpath atoms paths).1 = true ∧ (coverFirst kpath atoms paths).2.length < paths.length) ∧
      (∀ P ∈ paths, P ∉ (coverFirst kpath atoms paths).2 → ∃ a ∈ atoms, P = kpath ++ [a]) ∧
      (∀ a ∈ atoms, kpath ++ [a] ∈ paths → (coverFirst kpath atoms paths).1 = true) := by
  unfold coverFirst
  split
  · next a ha =>
    have hin : kpath ++ [a] ∈ paths := by simpa using List.find?_some ha
    refine ⟨setErase_sublist _ _, .inr ⟨rfl, ?_⟩, fun P hP hn => ⟨a, List.mem_of_find?_eq_some ha, ?_⟩,
      fun _ _ _ => rfl⟩
    · exact List.length_filter_lt_length_iff_exists.mpr ⟨_, hin, by simp⟩
    · simpa [hP] using hn
  · next hnone =>
    refine ⟨List.Sublist.refl _, .inl ⟨rfl, rfl⟩, fun P hP hn => absurd hP hn, fun a ha hin => ?_⟩
    simpa [hin] using List.find?_eq_none.mp hnone a ha

/-! ## One call, inverted -/

theorem coverAtom_lit_eq_ok {path : List Ref} {acc acc' : List (List Value) × Bool × CoverState} {id : Nat}
    {v : Value} (h : coverAtom rec path acc (.lit id v) = .ok acc') :
    extendByCycling acc.1 [v] = .ok acc'.1 ∧ acc'.2 = acc.2 := by
  obtain ⟨prefixes, h₁, h⟩ := bind_eq_ok.mp h
  cases h
  exact ⟨h₁, rfl⟩

theorem coverAtom_ref_eq_ok {path : List Ref} {acc acc' : List (List Value) × Bool × CoverState} {r : Ref}
    (h : coverAtom rec path acc (.ref r) = .ok acc') :
    ∃ subC subN st, rec (path ++ [r]) { acc.2.2 with context := acc.2.2.context.push r.ctxExt } =
        .ok ((subC, subN), st) ∧ acc'.2.2 = { st with context := st.context.pop r.ctxExt.length } ∧
      ((subC ≠ [] ∧ acc'.2.1 = true ∧ extendByCycling acc.1 subC = .ok acc'.1) ∨
       (subC = [] ∧ subN.length = 1 ∧ acc'.2.1 = acc.2.1 ∧ extendByCycling acc.1 subN = .ok acc'.1)) := by
  obtain ⟨⟨⟨subC, subN⟩, st⟩, h₁, h⟩ := bind_eq_ok.mp h
  refine ⟨subC, subN, st, h₁, ?_⟩
  dsimp only at h
  split at h
  · next hc =>
    obtain ⟨prefixes, h₂, h⟩ := bind_eq_ok.mp h
    cases h
    exact ⟨rfl, .inl ⟨by simpa using hc, rfl, h₂⟩⟩
  · next hc =>
    obtain ⟨_, hl, h⟩ := bind_eq_ok.mp h
    obtain ⟨prefixes, h₂, h⟩ := bind_eq_ok.mp h
    cases h
    exact ⟨rfl, .inr ⟨by simpa using hc, by simpa using hl, rfl, h₂⟩⟩

/-! ## The loop over the atoms of a production -/

section Atoms

variable {ns : List Symbol} {rule : Symbol}

/-- One cyclic zip of the prefixes with the expansions of the atom `b`: the prefixes stay derivations of the atoms
so far, and every prefix with a chain of refs keeps it in one of its extensions. -/
theorem extendByCycling_yields {done : List Atom} {b : Atom} {prefixes prefixes' : List (List Value)}
    {exp : List Value} (hcyc : extendByCycling prefixes exp = .ok prefixes') (hexp : ∀ y ∈ exp, Yields G ns [b] [y])
    (hne : prefixes ≠ []) (hY : ∀ x ∈ prefixes, ∃ xs, x = .sym rule :: xs ∧ Yields G ns done xs) :
    prefixes' ≠ [] ∧ (∀ x ∈ prefixes', ∃ xs, x = .sym rule :: xs ∧ Yields G ns (done ++ [b]) xs) ∧
      ∀ x ∈ prefixes, ∀ xs chain a, x = .sym rule :: xs → YieldsThrough G ns done xs chain a →
        ∃ x' ∈ prefixes', ∃ xs', x' = .sym rule :: xs' ∧ YieldsThrough G ns (done ++ [b]) xs' chain a := by
  obtain ⟨hvecs, -, hsound⟩ := extendByCycling_eq_ok hcyc
  refine ⟨fun he => ?_, fun x' hx' => ?_, fun x hx xs chain a hxs ht => ?_⟩
  · obtain ⟨x, hx⟩ := List.exists_mem_of_ne_nil _ hne
    obtain ⟨y, -, hy⟩ := hvecs x hx
    simp [he] at hy
  · obtain ⟨x, hx, y, hy, rfl⟩ := hsound x' hx'
    obtain ⟨xs, rfl, hxs⟩ := hY x hx
    exact ⟨xs ++ [y], rfl, hxs.append (hexp y hy)⟩
  · obtain ⟨y, hy, hmem⟩ := hvecs x hx
    subst hxs
    exact ⟨_, hmem, xs ++ [y], rfl, ht.append_yields (hexp y hy)⟩

/-- An expansion of a ref, with a chain of refs down from it, makes one of the extended prefixes have that chain. -/
theorem extendByCycling_through {done : List Atom} {r' : Ref} {prefixes prefixes' : List (List Value)}
    {exp : List Value} (hcyc : extendByCycling prefixes exp = .ok prefixes')
    (hY : ∀ x ∈ prefixes, ∃ xs, x = .sym rule :: xs ∧ Yields G ns done xs) {y : Value} (hy : y ∈ exp)
    {chain : List Ref} {a : Atom} (ht : Through G (ns ++ r'.ctxExt) r' y chain a) :
    ∃ x' ∈ prefixes', ∃ xs', x' = .sym rule :: xs' ∧ YieldsThrough G ns (done ++ [.ref r']) xs' chain a := by
  obtain ⟨-, hext, -⟩ := extendByCycling_eq_ok hcyc
  obtain ⟨x, hx, hmem⟩ := hext y hy
  obtain ⟨xs, rfl, hxs⟩ := hY x hx
  exact ⟨_, hmem, xs ++ [y], rfl, hxs.append_through (.here ht .nil)⟩

end Atoms

/-- What the loop over the atoms of a production of the rule of `r`, at the path `above ++ [r]`, keeps: `st₀` is the
state the production started in, `paths₁` the uncovered set after `coverFirst`, and `done` the atoms processed. -/
structure AtomInv (G : Grammar) (k : Nat) (above : List Ref) (r : Ref) (st₀ : CoverState) (paths₁ : List KPath)
    (done : List Atom) (acc : List (List Value) × Bool × CoverState) : Prop where
  context_eq : acc.2.2.context = st₀.context
  sublist : acc.2.2.paths.Sublist paths₁
  covers : acc.2.1 = false ∧ acc.2.2.paths = st₀.paths ∨
    acc.2.1 = true ∧ acc.2.2.paths.length < st₀.paths.length
  ne_nil : acc.1 ≠ []
  yields : ∀ x ∈ acc.1, ∃ xs, x = .sym r.rule :: xs ∧ Yields G st₀.context.names done xs
  through : ∀ P ∈ paths₁, P ∉ acc.2.2.paths → ∃ x ∈ acc.1, ∃ xs chain a, x = .sym r.rule :: xs ∧
    YieldsThrough G st₀.context.names done xs chain a ∧ P = kPathPrefix k (above ++ [r] ++ chain) ++ [a]

theorem coverAtom_inv (hrec : CoverCallSpec G k rec) {above : List Ref} {r : Ref} {st₀ : CoverState}
    {paths₁ : List KPath} {done : List Atom} {b : Atom} {acc acc' : List (List Value) × Bool × CoverState}
    (hI : AtomInv G k above r st₀ paths₁ done acc) (h : coverAtom rec (above ++ [r]) acc b = .ok acc') :
    AtomInv G k above r st₀ paths₁ (done ++ [b]) acc' := by
  cases b with
  | lit id v =>
    obtain ⟨hcyc, hrest⟩ := coverAtom_lit_eq_ok h
    obtain ⟨hne, hY, hT⟩ := extendByCycling_yields (b := .lit id v) hcyc
      (fun y hy => by rw [List.mem_singleton.mp hy]; exact .lit .nil) hI.ne_nil hI.yields
    have h₁ : acc'.2.1 = acc.2.1 := by rw [hrest]
    have h₂ : acc'.2.2 = acc.2.2 := by rw [hrest]
    refine ⟨h₂ ▸ hI.context_eq, h₂ ▸ hI.sublist, h₁ ▸ h₂ ▸ hI.covers, hne, hY, fun P hP hn => ?_⟩
    obtain ⟨x, hx, xs, chain, a, hxs, ht, rfl⟩ := hI.through P hP (h₂ ▸ hn)
    obtain ⟨x', hx', xs', hxs', ht'⟩ := hT x hx xs chain a hxs ht
    exact ⟨x', hx', xs', chain, a, hxs', ht', rfl⟩
  | ref r' =>
    obtain ⟨subC, subN, st, h₁, hst, hcase⟩ := coverAtom_ref_eq_ok h
    have hs := hrec _ _ _ _ _ _ h₁
    have hns : ({ acc.2.2 with context := acc.2.2.context.push r'.ctxExt } : CoverState).context.names =
        st₀.context.names ++ r'.ctxExt := by simp [hI.context_eq]
    have hder : ∀ y, y ∈ subC ∨ y ∈ subN → Yields G st₀.context.names [.ref r'] [y] :=
      fun y hy => .ref (hns ▸ hs.derives y hy) .nil
    have hctx : acc'.2.2.context = st₀.context := by simp [hst, hs.context_eq, hI.context_eq]
    have hsub : acc'.2.2.paths.Sublist paths₁ := by rw [hst]; exact hs.sublist.trans hI.sublist
    -- a k-path erased before this atom keeps its chain, and one erased by the call below gets the call's chain
    have hthrough : ∀ exp, extendByCycling acc.1 exp = .ok acc'.1 → (∀ y ∈ exp, y ∈ subC ∨ y ∈ subN) →
        (∀ P, P ∈ acc.2.2.paths → P ∉ st.paths → ∃ v ∈ exp, Covers G k (st₀.context.names ++ r'.ctxExt)
          (above ++ [r]) r' v P) →
        ∀ P ∈ paths₁, P ∉ acc'.2.2.paths → ∃ x ∈ acc'.1, ∃ xs chain a, x = .sym r.rule :: xs ∧
          YieldsThrough G st₀.context.names (done ++ [.ref r']) xs chain a ∧
          P = kPathPrefix k (above ++ [r] ++ chain) ++ [a] := by
      intro exp hcyc hexp hnew P hP hn
      rw [hst] at hn
      by_cases hold : P ∈ acc.2.2.paths
      · obtain ⟨v, hv, chain, a, ht, rfl⟩ := hnew P hold hn
        obtain ⟨x', hx', xs', hxs', ht'⟩ := extendByCycling_through hcyc hI.yields hv ht
        exact ⟨x', hx', xs', chain, a, hxs', ht', by simp⟩
      · obtain ⟨x, hx, xs, chain, a, hxs, ht, rfl⟩ := hI.through P hP hold
        obtain ⟨-, -, hT⟩ := extendByCycling_yields hcyc (fun y hy => hder y (hexp y hy)) hI.ne_nil hI.yields
        obtain ⟨x', hx', xs', hxs', ht'⟩ := hT x hx xs chain a hxs ht
        exact ⟨x', hx', xs', chain, a, hxs', ht', rfl⟩
    rcases hcase with ⟨hC, hcov, hcyc⟩ | ⟨hC, hN, hcov, hcyc⟩
    · obtain ⟨hne, hY, -⟩ := extendByCycling_yields hcyc (fun y hy => hder y (.inl hy)) hI.ne_nil hI.yields
      have hlt : acc'.2.2.paths.length < st₀.paths.length := by
        have h₁ : st.paths ≠ acc.2.2.paths := fun he => hC (hs.nil_iff.mpr he)
        have h₂ : acc.2.2.paths.length ≤ st₀.paths.length := by
          rcases hI.covers with ⟨-, he⟩ | ⟨-, hl⟩
          · rw [he]
          · exact hl.le
        rw [hst]
        exact lt_of_lt_of_le (length_lt_of_sublist_ne hs.sublist h₁) h₂
      exact ⟨hctx, hsub, .inr ⟨hcov, hlt⟩, hne, hY, hthrough subC hcyc (fun y hy => .inl hy)
        fun P hP hn => hs.covers P hP hn |>.imp fun v ⟨hv, hc⟩ => ⟨hv, by rwa [← hns]⟩⟩
    · obtain ⟨hne, hY, -⟩ := extendByCycling_yields hcyc (fun y hy => hder y (.inr hy)) hI.ne_nil hI.yields
      have hsame : st.paths = acc.2.2.paths := hs.nil_iff.mp hC
      refine ⟨hctx, hsub, ?_, hne, hY, hthrough subN hcyc (fun y hy => .inr hy) fun P hP hn => absurd hP ?_⟩
      · rw [hcov, hst]
        simpa only [hsame] using hI.covers
      · simpa [hsame] using hn

/-! ## A production -/

/-- One production of the rule of `r`, active in the context: its prefixes are derivations of the rule, it covers a
k-path exactly when it erases some, and every k-path it erases is covered by one of its prefixes. -/
theorem coverProduction_spec (hrec : CoverCallSpec G k rec) {above : List Ref} {r : Ref} {p : Production}
    {st st' : CoverState} {prefixes : List (List Value)} {covers : Bool}
    (hp : p ∈ G.productionsOf r.rule) (hreq : p.ctxReq ⊆ st.context.names)
    (h : coverProduction k rec (above ++ [r]) r.rule p st = .ok (prefixes, covers, st')) :
    st'.context = st.context ∧ st'.paths.Sublist st.paths ∧
      (covers = false ∧ st'.paths = st.paths ∨ covers = true ∧ st'.paths.length < st.paths.length) ∧
      prefixes ≠ [] ∧ (∀ x ∈ prefixes, Derives G st.context.names r (Value.ofList x)) ∧
      ∀ P ∈ st.paths, P ∉ st'.paths → ∃ x ∈ prefixes, Covers G k st.context.names above r (Value.ofList x) P := by
  obtain ⟨hsub₁, hcov₁, herased₁, -⟩ := coverFirst_spec (kPathPrefix k (above ++ [r])) p.atoms st.paths
  unfold coverProduction at h
  generalize coverFirst (kPathPrefix k (above ++ [r])) p.atoms st.paths = cf at h hsub₁ hcov₁ herased₁
  obtain ⟨c₁, paths₁⟩ := cf
  have h₀ : AtomInv G k above r st paths₁ [] ([[.sym r.rule]], c₁, { st with paths := paths₁ }) :=
    ⟨rfl, List.Sublist.refl _, hcov₁, by simp, by simpa using Yields.nil, fun P hP hn => absurd hP hn⟩
  have hI := foldlM_ok_invariant (AtomInv G k above r st paths₁) []
    (fun _ _ _ _ _ _ hI hstep => coverAtom_inv hrec hI hstep) h₀ h
  simp only [List.nil_append] at hI
  have hY : ∀ x ∈ prefixes, ∃ xs, x = .sym r.rule :: xs ∧ Yields G st.context.names p.atoms xs := hI.yields
  refine ⟨hI.context_eq, hI.sublist.trans hsub₁, hI.covers, hI.ne_nil, fun x hx => ?_, fun P hP hn => ?_⟩
  · obtain ⟨xs, rfl, hxs⟩ := hY x hx
    exact .mk hp hreq hxs
  · by_cases h₁ : P ∈ paths₁
    · obtain ⟨x, hx, xs, chain, a, rfl, ht, rfl⟩ := hI.through P h₁ hn
      exact ⟨_, hx, r :: chain, a, .down hp hreq ht, by simp⟩
    · obtain ⟨a, ha, rfl⟩ := herased₁ P hP h₁
      obtain ⟨x, hx⟩ := List.exists_mem_of_ne_nil _ hI.ne_nil
      obtain ⟨xs, rfl, hxs⟩ := hY _ hx
      exact ⟨_, hx, [r], a, .here hp hreq hxs ha, rfl⟩

/-! ## The productions, and the call -/

theorem coverSpec_start {above : List Ref} {r : Ref} (st : CoverState) : CoverSpec G k above r st [] [] st :=
  ⟨rfl, List.Sublist.refl _, by simp, by simp, fun _ hP hn => absurd hP hn⟩

theorem coverProductionStep_eq_ok {path : List Ref} {rule : Symbol} {acc acc' : List Value × List Value × CoverState}
    {prod : Production} (h : coverProductionStep k rec path rule acc prod = .ok acc') :
    ∃ prefixes covers, coverProduction k rec path rule prod acc.2.2 = .ok (prefixes, covers, acc'.2.2) ∧
      (covers = true ∧ acc'.1 = insertValues acc.1 prefixes ∧ acc'.2.1 = acc.2.1 ∨
        covers = false ∧ acc'.1 = acc.1 ∧ acc'.2.1 = insertValues acc.2.1 prefixes) := by
  obtain ⟨⟨prefixes, covers, st⟩, hprod, h⟩ := bind_eq_ok.mp h
  dsimp only at h
  split at h <;> cases h
  · exact ⟨prefixes, covers, hprod, .inl ⟨by assumption, rfl, rfl⟩⟩
  · exact ⟨prefixes, covers, hprod, .inr ⟨by simpa using ‹¬covers = true›, rfl, rfl⟩⟩

/-- One turn of the loop over the productions keeps `CoverSpec` from the loop's start, for a production of the rule
active in the context. -/
theorem coverProductionStep_spec (hrec : CoverCallSpec G k rec) {above : List Ref} {r : Ref} {p : Production}
    {st : CoverState} {acc acc' : List Value × List Value × CoverState}
    (hp : p ∈ G.productionsOf r.rule) (hreq : p.ctxReq ⊆ st.context.names)
    (hI : CoverSpec G k above r st acc.1 acc.2.1 acc.2.2)
    (h : coverProductionStep k rec (above ++ [r]) r.rule acc p = .ok acc') :
    CoverSpec G k above r st acc'.1 acc'.2.1 acc'.2.2 := by
  obtain ⟨prefixes, covers, hprod, hcase⟩ := coverProductionStep_eq_ok h
  obtain ⟨hctx, hsub, hcov, hne, hder, herased⟩ := coverProduction_spec hrec hp (hI.context_eq ▸ hreq) hprod
  rw [hI.context_eq] at hder herased
  have hderives : ∀ v, (v ∈ acc.1 ∨ v ∈ acc.2.1) ∨ (∃ x ∈ prefixes, v = Value.ofList x) →
      Derives G st.context.names r v := by
    rintro v (hv | ⟨x, hx, rfl⟩)
    · exact hI.derives v hv
    · exact hder x hx
  rcases hcase with ⟨rfl, h₁, h₂⟩ | ⟨rfl, h₁, h₂⟩
  · obtain ⟨hf, -⟩ | ⟨-, hl⟩ := hcov
    · cases hf
    have hlt : acc'.2.2.paths.length < st.paths.length := lt_of_lt_of_le hl hI.sublist.length_le
    refine ⟨hctx.trans hI.context_eq, hsub.trans hI.sublist, iff_of_false (by rw [h₁]; exact insertValues_ne_nil hne)
      fun he => by rw [he] at hlt; omega, fun v hv => hderives v ?_, fun P hP hn => ?_⟩
    · rw [h₁, h₂, mem_insertValues] at hv
      tauto
    · rw [h₁]
      by_cases hold : P ∈ acc.2.2.paths
      · obtain ⟨x, hx, hc⟩ := herased P hold hn
        exact ⟨_, mem_insertValues.mpr (.inr ⟨x, hx, rfl⟩), hc⟩
      · obtain ⟨v, hv, hc⟩ := hI.covers P hP hold
        exact ⟨v, mem_insertValues.mpr (.inl hv), hc⟩
  · obtain ⟨-, he⟩ | ⟨hf, -⟩ := hcov
    · refine ⟨hctx.trans hI.context_eq, he ▸ hI.sublist, h₁ ▸ he ▸ hI.nil_iff, fun v hv => hderives v ?_,
        fun P hP hn => h₁ ▸ hI.covers P hP (he ▸ hn)⟩
      rw [h₁, h₂, mem_insertValues] at hv
      tauto
    · cases hf

/-- The loop over the active productions keeps `CoverSpec` from its start. -/
theorem coverProductions_spec (hrec : CoverCallSpec G k rec) {above : List Ref} {r : Ref} {prods : List Production}
    {st st' : CoverState} {kc nkc : List Value}
    (hprods : ∀ p ∈ prods, p ∈ G.productionsOf r.rule ∧ p.ctxReq ⊆ st.context.names)
    (h : coverProductions k rec (above ++ [r]) r.rule prods st = .ok (kc, nkc, st')) :
    CoverSpec G k above r st kc nkc st' :=
  foldlM_ok_inv (fun acc => CoverSpec G k above r st acc.1 acc.2.1 acc.2.2)
    (fun _ p _ hp hI hstep => coverProductionStep_spec hrec (hprods p hp).1 (hprods p hp).2 hI hstep)
    (coverSpec_start st) h

theorem kPathCoveringStep_eq_ok {above : List Ref} {r : Ref} {depthLimit : Nat} {st st' : CoverState}
    {kc nkc : List Value} (h : G.kPathCoveringStep k rec (above ++ [r]) depthLimit st = .ok ((kc, nkc), st')) :
    0 < k ∧ ∃ prods nkc₀, G.getActiveProductions r.rule depthLimit st.context = .ok prods ∧
      coverProductions k rec (above ++ [r]) r.rule prods st = .ok (kc, nkc₀, st') ∧ nkc ⊆ nkc₀ := by
  simp only [kPathCoveringStep, List.getLast?_append, List.getLast?_singleton, Option.or_some] at h
  obtain ⟨_, hk, h⟩ := bind_eq_ok.mp h
  obtain ⟨prods, hprods, h⟩ := bind_eq_ok.mp h
  obtain ⟨⟨kc₀, nkc₀, st₁⟩, hloop, h⟩ := bind_eq_ok.mp h
  obtain ⟨_, -, h⟩ := bind_eq_ok.mp h
  cases h
  refine ⟨by simpa using hk, prods, nkc₀, hprods, hloop, fun v hv => ?_⟩
  split at hv
  · cases hv
  · split at hv
    · exact List.mem_of_mem_take hv
    · exact hv

/-- The body keeps `CoverSpec`, given it of the call one level deeper. -/
theorem kPathCoveringStep_spec (hrec : CoverCallSpec G k rec) (depthLimit : Nat) :
    CoverCallSpec G k (fun path st => G.kPathCoveringStep k rec path depthLimit st) := by
  intro above r st kc nkc st' h
  obtain ⟨-, prods, nkc₀, hprods, hloop, hsub⟩ := kPathCoveringStep_eq_ok h
  have hs := coverProductions_spec hrec (fun p hp => ?_) hloop
  · exact ⟨hs.context_eq, hs.sublist, hs.nil_iff, fun v hv => hs.derives v (hv.imp_right (hsub ·)), hs.covers⟩
  · obtain ⟨hp, hact⟩ := (mem_getActiveProductions hprods).2 p hp
    exact ⟨hp, (Production.isActive_iff.mp hact).2⟩

/-- Every call of `kPathCoveringOrMinimalExpansion` that returns does what `CoverSpec` says. -/
theorem kPathCoveringOrMinimalExpansion_spec :
    ∀ depthLimit, CoverCallSpec G k (fun path st => G.kPathCoveringOrMinimalExpansion k path depthLimit st)
  | 0 => fun _ _ _ _ _ _ h => by cases h
  | d + 1 => kPathCoveringStep_spec (kPathCoveringOrMinimalExpansion_spec d) (d + 1)

end Grammar

end Photesthesis
