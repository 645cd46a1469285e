import Photesthesis.Grammar.KPathCover

/-!
# The shape of an expansion, and its assertions

A call of `kPathCoveringOrMinimalExpansion` that returns gives covering values and no other, or no covering value and
exactly one other (`CoverShape`, `kPathCoveringStep_shape`). The code asserts this of the call below each ref
(`subNonKPathCovering.size() == 1`). It also asserts that an atom's expansions are not empty, which the model checks
as the assertion `!ext.empty()` of `extendByCycling` on the same set just after, and that the result is not empty.
None of these assertions fails at a non-empty path with `k > 0` (`kPathCoveringOrMinimalExpansion_noAssert`). The
call below a ref has the shape, the prefixes of a production are never empty (`coverProduction_ne_nil`), and
`getActiveProductions` returns at least one production.
-/

namespace Photesthesis

namespace Grammar

/-! ## The shape of a result -/

/-- What a call returns: covering values and no other, or no covering value and exactly one other. -/
structure CoverShape (kc nkc : List Value) : Prop where
  not_both : kc ≠ [] ∨ nkc ≠ []
  nkc_nil : kc ≠ [] → nkc = []
  single : kc = [] → nkc.length = 1

/-- No assertion of the computation fails. -/
def NoAssert {α : Type} (x : Except Fault α) : Prop := ∀ msg, x ≠ .error (.assertFailed msg)

variable {G : Grammar} {k : Nat} {rec : Coverer}

/-- The end of a call: the non-covering values are dropped when there is a covering one, and cut to one otherwise;
the assertion on the result passes exactly when the loop returned some value, and then the result has the shape. -/
theorem trim_shape (kc nkc : List Value) :
    ((!(kc.isEmpty && (if !kc.isEmpty then [] else if nkc.length > 1 then nkc.take 1 else nkc).isEmpty)) = true ↔
      kc ≠ [] ∨ nkc ≠ []) ∧
    ((kc ≠ [] ∨ nkc ≠ []) → CoverShape kc (if !kc.isEmpty then [] else if nkc.length > 1 then nkc.take 1 else nkc)) := by
  cases kc with
  | cons v vs => exact ⟨by simp, fun _ => ⟨.inl (by simp), fun _ => by simp, fun h => by simp at h⟩⟩
  | nil =>
    by_cases hl : nkc.length > 1
    · have : nkc ≠ [] := List.ne_nil_of_length_pos (by omega)
      refine ⟨by simp [hl, this], fun _ => ⟨.inr (by simp [hl, this]), fun h => absurd rfl h, fun _ => by simp [hl]; omega⟩⟩
    · refine ⟨by simp [hl], fun h => ?_⟩
      have hne : nkc ≠ [] := h.resolve_left (by simp)
      have := List.length_pos.mpr hne
      exact ⟨.inr (by simpa [hl] using hne), fun h => absurd rfl h, fun _ => by simp [hl]; omega⟩

theorem kPathCoveringStep_shape {path : List Ref} {depthLimit : Nat} {st st' : CoverState} {kc nkc : List Value}
    (h : G.kPathCoveringStep k rec path depthLimit st = .ok ((kc, nkc), st')) : CoverShape kc nkc := by
  unfold kPathCoveringStep at h
  split at h
  · cases h
  · obtain ⟨_, -, h⟩ := bind_eq_ok.mp h
    obtain ⟨_, -, h⟩ := bind_eq_ok.mp h
    obtain ⟨⟨kc₀, nkc₀, _⟩, -, h⟩ := bind_eq_ok.mp h
    obtain ⟨_, ha, h⟩ := bind_eq_ok.mp h
    cases h
    exact (trim_shape _ _).2 ((trim_shape _ _).1.mp (assertThat_eq_ok.mp ha))


/-! ## No assertion fails -/

theorem getActiveProductions_noAssert {rule : Symbol} {depthLimit : Nat} {context : Context} :
    NoAssert (G.getActiveProductions rule depthLimit context) := by
  intro msg
  unfold getActiveProductions getProductions
  split
  · simp [bind, Except.bind]
  · split
    · simp [bind, Except.bind]
    · simp only [bind, Except.bind]
      split
      · split <;> simp [throw, throwThe, MonadExceptOf.throw]
      · simp [pure, Except.pure]

/-- `extendByCycling` of two non-empty sets returns a non-empty set. -/
theorem extendByCycling_ok_ne_nil {vecs : List (List Value)} {ext : List Value} (hv : vecs ≠ []) (he : ext ≠ []) :
    ∃ res, extendByCycling vecs ext = .ok res ∧ res ≠ [] := by
  obtain ⟨res, h, hvecs, -, -⟩ := cycle_spec (setInsert_mem_law _) hv he
  obtain ⟨x, hx⟩ := List.exists_mem_of_ne_nil _ hv
  obtain ⟨y, -, hy⟩ := hvecs x hx
  exact ⟨res, h, List.ne_nil_of_mem hy⟩

theorem extendByCycling_ne_nil {vecs : List (List Value)} {ext : List Value} {res : List (List Value)}
    (h : extendByCycling vecs ext = .ok res) (hv : vecs ≠ []) : res ≠ [] := by
  obtain ⟨x, hx⟩ := List.exists_mem_of_ne_nil _ hv
  obtain ⟨y, -, hy⟩ := (extendByCycling_eq_ok h).1 x hx
  exact List.ne_nil_of_mem hy

/-- The prefixes stay non-empty through an atom. -/
theorem coverAtom_ne_nil {path : List Ref} {acc acc' : List (List Value) × Bool × CoverState} {b : Atom}
    (h : coverAtom rec path acc b = .ok acc') (hne : acc.1 ≠ []) : acc'.1 ≠ [] := by
  cases b with
  | lit _ _ => exact extendByCycling_ne_nil (coverAtom_lit_eq_ok h).1 hne
  | ref r =>
    obtain ⟨_, _, _, -, -, ⟨-, -, hcyc⟩ | ⟨-, -, -, hcyc⟩⟩ := coverAtom_ref_eq_ok h <;>
      exact extendByCycling_ne_nil hcyc hne

/-- A production's prefixes are never empty. -/
theorem coverProduction_ne_nil {path : List Ref} {rule : Symbol} {prod : Production} {st st' : CoverState}
    {prefixes : List (List Value)} {covers : Bool}
    (h : coverProduction k rec path rule prod st = .ok (prefixes, covers, st')) : prefixes ≠ [] := by
  unfold coverProduction at h
  exact foldlM_ok_inv (fun acc => acc.1 ≠ []) (fun _ _ _ _ hne hstep => coverAtom_ne_nil hstep hne) (by simp) h

/-- Over at least one production, the loop returns some value, covering or not. -/
theorem coverProductions_not_both_nil {path : List Ref} {rule : Symbol} {prods : List Production}
    {st st' : CoverState} {kc nkc : List Value} (hprods : prods ≠ [])
    (h : coverProductions k rec path rule prods st = .ok (kc, nkc, st')) : kc ≠ [] ∨ nkc ≠ [] := by
  have hI := foldlM_ok_invariant (fun done acc => done ≠ [] → acc.1 ≠ [] ∨ acc.2.1 ≠ []) []
    (fun _ _ _ _ _ _ _ hstep _ => ?_) (by simp) h
  · exact hI (by simpa using hprods)
  · obtain ⟨prefixes, _, hprod, ⟨-, h₁, -⟩ | ⟨-, -, h₁⟩⟩ := coverProductionStep_eq_ok hstep
    · exact .inl (h₁ ▸ insertValues_ne_nil (coverProduction_ne_nil hprod))
    · exact .inr (h₁ ▸ insertValues_ne_nil (coverProduction_ne_nil hprod))

section Calls

variable (hrec : ∀ path r st, NoAssert (rec (path ++ [r]) st))
  (hshape : ∀ path st kc nkc st', rec path st = .ok ((kc, nkc), st') → CoverShape kc nkc)
include hrec hshape

theorem coverAtom_noAssert {path : List Ref} {acc : List (List Value) × Bool × CoverState} {b : Atom}
    (hne : acc.1 ≠ []) : NoAssert (coverAtom rec path acc b) := by
  intro msg
  cases b with
  | lit _ v =>
    obtain ⟨res, h, -⟩ := extendByCycling_ok_ne_nil hne (List.cons_ne_nil v [])
    simp [coverAtom, h, pure, Except.pure]
  | ref r =>
    refine bind_ne_error (hrec _ _ _ msg) fun ⟨⟨subC, subN⟩, _⟩ hok => ?_
    have hs := hshape _ _ _ _ _ hok
    dsimp only
    split
    · next hc =>
      obtain ⟨res, h, -⟩ := extendByCycling_ok_ne_nil hne (by simpa using hc)
      simp [h, pure, Except.pure]
    · next hc =>
      have hl := hs.single (by simpa using hc)
      obtain ⟨res, h, -⟩ := extendByCycling_ok_ne_nil hne (show subN ≠ [] from List.ne_nil_of_length_pos (by omega))
      simp [assertThat, hl, h, pure, Except.pure]

theorem coverProductions_noAssert {path : List Ref} {rule : Symbol} {prods : List Production} {st : CoverState} :
    NoAssert (coverProductions k rec path rule prods st) := by
  intro msg
  refine foldlM_ne_error (fun _ => True) (fun acc p _ _ => ⟨?_, fun _ _ => trivial⟩) trivial
  refine bind_ne_error ?_ fun _ _ => ?_
  · unfold coverProduction
    exact foldlM_ne_error (fun acc => acc.1 ≠ [])
      (fun _ _ _ hne => ⟨coverAtom_noAssert hrec hshape hne msg, fun _ h => coverAtom_ne_nil h hne⟩) (by simp)
  · dsimp only
    split <;> simp [pure, Except.pure]

theorem kPathCoveringStep_noAssert (hk : 0 < k) {path : List Ref} (hpath : path ≠ []) {depthLimit : Nat}
    {st : CoverState} : NoAssert (G.kPathCoveringStep k rec path depthLimit st) := by
  intro msg
  unfold kPathCoveringStep
  rw [List.getLast?_eq_getLast path hpath]
  dsimp only
  refine bind_ne_error (by simp [assertThat, hk]) fun _ _ => ?_
  refine bind_ne_error (getActiveProductions_noAssert msg) fun prods hprods => ?_
  refine bind_ne_error (coverProductions_noAssert hrec hshape msg) fun ⟨kc, nkc, _⟩ hloop => ?_
  have hpass := (trim_shape kc nkc).1.mpr (coverProductions_not_both_nil (mem_getActiveProductions hprods).1 hloop)
  simp only [assertThat, hpass]
  simp [pure, Except.pure]

end Calls

/-- `kPathCoveringOrMinimalExpansion` fails no assertion at a non-empty path with `k > 0`. -/
theorem kPathCoveringOrMinimalExpansion_noAssert (hk : 0 < k) :
    ∀ (depthLimit : Nat) {path : List Ref} {st : CoverState}, path ≠ [] →
      NoAssert (G.kPathCoveringOrMinimalExpansion k path depthLimit st)
  | 0, _, _, _ => fun _ => by simp [kPathCoveringOrMinimalExpansion, throw, throwThe, MonadExceptOf.throw]
  | d + 1, _, _, hpath =>
    kPathCoveringStep_noAssert
      (fun _ _ _ => kPathCoveringOrMinimalExpansion_noAssert hk d (by simp))
      (fun _ _ _ _ _ h => match d, h with | d + 1, h => kPathCoveringStep_shape h) hk hpath

/-! ## What a call returns -/

/-- At a non-empty path with `k > 0`, a call that returns gives covering values and no other, or exactly one
non-covering value; it only erases k-paths, and it returns a covering value exactly when it erased one. No
assertion fails in the call or in the calls below it. -/
theorem kPathCoveringOrMinimalExpansion_shape (G : Grammar) {k depthLimit : Nat} {path : List Ref}
    {st : CoverState} (hk : 0 < k) (hpath : path ≠ []) :
    (∀ kc nkc st', G.kPathCoveringOrMinimalExpansion k path depthLimit st = .ok ((kc, nkc), st') →
      CoverShape kc nkc ∧ st'.paths.Sublist st.paths ∧ (kc ≠ [] ↔ st'.paths ≠ st.paths)) ∧
    NoAssert (G.kPathCoveringOrMinimalExpansion k path depthLimit st) := by
  refine ⟨fun kc nkc st' h => ?_, kPathCoveringOrMinimalExpansion_noAssert hk _ hpath⟩
  obtain ⟨above, r, rfl⟩ := (List.eq_nil_or_concat path).resolve_left hpath
  rw [List.concat_eq_append] at h
  have hs := kPathCoveringOrMinimalExpansion_spec depthLimit above r st kc nkc st' h
  cases depthLimit with
  | zero => cases h
  | succ d => exact ⟨kPathCoveringStep_shape h, hs.sublist, not_congr hs.nil_iff⟩

/-- The expansion from the root ref of `a`, with the 2-paths that `generateKPathSet` enumerates still uncovered: it
returns covering values and erases paths. -/
theorem choiceGrammar_expansion_shape : ∃ paths, choiceGrammar.generateKPathSet 2 choiceA [] = .ok paths ∧
    (∃ r, choiceGrammar.kPathCoveringOrMinimalExpansion 2 [⟨3, choiceA, []⟩] 2 ⟨⟨[], []⟩, paths⟩ = .ok r ∧
      r.1.1 ≠ [] ∧ r.2.paths ≠ paths) ∧
    0 < 2 ∧ [(⟨3, choiceA, []⟩ : Ref)] ≠ [] ∧
      (∀ kc nkc st', choiceGrammar.kPathCoveringOrMinimalExpansion 2 [⟨3, choiceA, []⟩] 2 ⟨⟨[], []⟩, paths⟩ =
          .ok ((kc, nkc), st') →
        CoverShape kc nkc ∧ st'.paths.Sublist paths ∧ (kc ≠ [] ↔ st'.paths ≠ paths)) ∧
      NoAssert (choiceGrammar.kPathCoveringOrMinimalExpansion 2 [⟨3, choiceA, []⟩] 2 ⟨⟨[], []⟩, paths⟩) :=
  ⟨_, rfl, ⟨_, rfl, by decide, by decide⟩, by decide, by simp,
    kPathCoveringOrMinimalExpansion_shape choiceGrammar (by decide) (by simp)⟩

end Grammar

end Photesthesis
