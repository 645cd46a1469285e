import Photesthesis.Grammar.KPath

/-!
# The enumeration returns

A call of `expandKPathPrefix` is inverted once (`expandAtom_lit_eq_ok`, `expandAtom_ref_eq_ok`,
`expandKPathPrefixStep_eq_ok`), and a property of every call is proved once for the step, given it of the recursive
call (`expandKPathPrefix_spec`). The first such property is the frame: a call gives back the context it was given,
and only adds path roots (`expandKPathPrefix_frame`).

The recursion ends because along any chain of nested calls either the prefix grows, to at most `k` atoms, or a ref
of the grammar becomes a path root, which it stays: `kPathFuel` levels are enough (`generateKPathSet_ne_outOfFuel`).
-/

namespace Photesthesis

namespace Grammar

variable {G : Grammar} {k : Nat} {rec : Expander}

/-! ## One call, inverted -/

theorem expandAtom_lit_eq_ok {pre : KPath} {acc acc' : List KPath × EnumState} {id : Nat} {v : Value}
    (h : expandAtom k rec pre acc (.lit id v) = .ok acc') :
    (pre.length = k - 1 ∧ ∃ e, rec (pre ++ [.lit id v]) acc.2 = .ok (e, acc'.2) ∧ acc'.1 = acc.1 ∪ e) ∨
      (pre.length ≠ k - 1 ∧ acc' = acc) := by
  simp only [expandAtom, beq_iff_eq] at h
  split at h
  · next hl =>
    obtain ⟨⟨e, st⟩, h₁, h₂⟩ := bind_eq_ok.mp h
    cases h₂
    exact .inl ⟨hl, e, h₁, rfl⟩
  · next hl =>
    cases h
    exact .inr ⟨hl, rfl⟩

theorem expandAtom_ref_eq_ok {pre : KPath} {acc acc' : List KPath × EnumState} {r : Ref}
    (h : expandAtom k rec pre acc (.ref r) = .ok acc') :
    ∃ e₁ st₁, rec (pre ++ [.ref r]) { acc.2 with context := acc.2.context.push r.ctxExt } = .ok (e₁, st₁) ∧
      ((r ∈ st₁.pathRoots ∧ acc' = (acc.1 ∪ e₁, { st₁ with context := st₁.context.pop r.ctxExt.length })) ∨
       (r ∉ st₁.pathRoots ∧ ∃ e₂ st₂, rec [.ref r] { st₁ with pathRoots := r :: st₁.pathRoots } = .ok (e₂, st₂) ∧
          acc' = (acc.1 ∪ e₁ ∪ e₂, { st₂ with context := st₂.context.pop r.ctxExt.length }))) := by
  obtain ⟨⟨e₁, st₁⟩, h₁, h⟩ := bind_eq_ok.mp h
  refine ⟨e₁, st₁, h₁, ?_⟩
  dsimp only at h
  split at h
  · next hr =>
    simp only [pure, Except.pure, bind, Except.bind, Except.ok.injEq] at h
    exact .inl ⟨hr, h.symm⟩
  · next hr =>
    obtain ⟨⟨e₂, st₂⟩, h₂, h⟩ := bind_eq_ok.mp h
    simp only [pure, Except.pure, bind, Except.bind, Except.ok.injEq] at h
    exact .inr ⟨hr, e₂, st₂, h₂, h.symm⟩

theorem expandKPathPrefixStep_eq_ok {pre : KPath} {st st' : EnumState} {out : List KPath}
    (h : G.expandKPathPrefixStep k rec pre st = .ok (out, st')) :
    k ≠ 0 ∧ pre ≠ [] ∧ ((pre.length = k ∧ out = [pre] ∧ st' = st) ∨
      (pre.length ≠ k ∧ ∃ anchor prods, pre.getLast? = some (.ref anchor) ∧
        G.getActiveProductions anchor.rule k st.context = .ok prods ∧
        expandProductions k rec pre prods st = .ok (out, st'))) := by
  obtain ⟨_, hk, h⟩ := bind_eq_ok.mp h
  obtain ⟨_, hpre, h⟩ := bind_eq_ok.mp h
  simp only [assertThat_eq_ok, bne_iff_ne, ne_eq, Bool.not_eq_true', List.isEmpty_eq_false] at hk hpre
  refine ⟨hk, by simpa using hpre, ?_⟩
  split at h
  · next hl =>
    cases h
    exact .inl ⟨by simpa using hl, rfl, rfl⟩
  · next hl =>
    split at h
    · next anchor hlast =>
      obtain ⟨prods, hprods, h⟩ := bind_eq_ok.mp h
      exact .inr ⟨by simpa using hl, anchor, prods, hlast, hprods, h⟩
    · cases h

/-! ## Properties of every call -/

/-- `Φ` relates the arguments and the result of every call of `rec` that returns. -/
def CallSpec (Φ : KPath → EnumState → List KPath → EnumState → Prop) (rec : Expander) : Prop :=
  ∀ pre st out st', rec pre st = .ok (out, st') → Φ pre st out st'

/-- A property the step keeps, from the recursive call to the call, holds of the enumeration at every fuel. -/
theorem expandKPathPrefix_spec (Φ : KPath → EnumState → List KPath → EnumState → Prop)
    (hstep : ∀ rec, CallSpec Φ rec → CallSpec Φ (G.expandKPathPrefixStep k rec)) :
    ∀ fuel, CallSpec Φ (G.expandKPathPrefix k fuel)
  | 0 => fun _ _ _ _ h => by cases h
  | fuel + 1 => hstep _ (expandKPathPrefix_spec Φ hstep fuel)

/-- A property of the accumulator that every atom's step keeps holds at the end of the loop. -/
theorem expandProductions_inv (P : List KPath × EnumState → Prop) {pre : KPath} {prods : List Production}
    {st : EnumState} {res : List KPath × EnumState}
    (hs : ∀ prod ∈ prods, ∀ a ∈ prod.atoms, ∀ acc acc', P acc → expandAtom k rec pre acc a = .ok acc' → P acc')
    (h0 : P ([], st)) (h : expandProductions k rec pre prods st = .ok res) : P res :=
  foldlM_ok_inv P (fun _ prod _ hprod hacc hp =>
    foldlM_ok_inv P (fun _ a _ ha hacc' hstep => hs prod hprod a ha _ _ hacc' hstep) hacc hp) h0 h

/-- What the step of each atom establishes about it, and every step keeps, holds at the end of the loop of every atom
of every production, with an invariant every step keeps. -/
theorem expandProductions_forall (I : List KPath × EnumState → Prop) (Q : Atom → List KPath × EnumState → Prop)
    {pre : KPath} {prods : List Production} {st : EnumState} {res : List KPath × EnumState}
    (hs : ∀ prod ∈ prods, ∀ a ∈ prod.atoms, ∀ acc acc', I acc → expandAtom k rec pre acc a = .ok acc' →
      I acc' ∧ Q a acc' ∧ ∀ b, Q b acc → Q b acc')
    (h0 : I ([], st)) (h : expandProductions k rec pre prods st = .ok res) :
    I res ∧ ∀ prod ∈ prods, ∀ a ∈ prod.atoms, Q a res := by
  refine foldlM_ok_forall I (fun prod acc => ∀ a ∈ prod.atoms, Q a acc) (fun acc prod acc' hprod hacc hf => ?_) h0 h
  obtain ⟨⟨hI, hkeep⟩, hQ⟩ := foldlM_ok_forall (fun acc' => I acc' ∧ ∀ b, Q b acc → Q b acc') Q
    (fun _ a _ ha hacc' hstep => by
      obtain ⟨hI, hQ, hkeep⟩ := hs prod hprod a ha _ _ hacc'.1 hstep
      exact ⟨⟨hI, fun b hb => hkeep b (hacc'.2 b hb)⟩, hQ, hkeep⟩) ⟨hacc, fun _ hb => hb⟩ hf
  exact ⟨hI, hQ, fun prod' hprod' a ha => hkeep a (hprod' a ha)⟩

/-- What a call leaves of the state: the context as it was, and every path root. -/
structure Frame (st st' : EnumState) : Prop where
  context_eq : st'.context = st.context
  roots_subset : st.pathRoots ⊆ st'.pathRoots

theorem Frame.refl (st : EnumState) : Frame st st := ⟨rfl, List.Subset.refl _⟩

theorem Frame.trans {s₁ s₂ s₃ : EnumState} (h₁ : Frame s₁ s₂) (h₂ : Frame s₂ s₃) : Frame s₁ s₃ :=
  ⟨h₂.context_eq.trans h₁.context_eq, fun _ hx => h₂.roots_subset (h₁.roots_subset hx)⟩

section Frame

variable (hrec : CallSpec (fun _ st _ st' => Frame st st') rec)
include hrec

theorem expandAtom_frame {pre : KPath} {acc acc' : List KPath × EnumState} {ext : Atom}
    (h : expandAtom k rec pre acc ext = .ok acc') : Frame acc.2 acc'.2 := by
  cases ext with
  | lit id v =>
    rcases expandAtom_lit_eq_ok h with ⟨-, e, h₁, -⟩ | ⟨-, rfl⟩
    · exact hrec _ _ _ _ h₁
    · exact Frame.refl _
  | ref r =>
    obtain ⟨e₁, st₁, h₁, ⟨-, rfl⟩ | ⟨-, e₂, st₂, h₂, rfl⟩⟩ := expandAtom_ref_eq_ok h
    · have f₁ := hrec _ _ _ _ h₁
      exact ⟨by simp [f₁.context_eq], f₁.roots_subset⟩
    · have f₁ := hrec _ _ _ _ h₁
      have f₂ := hrec _ _ _ _ h₂
      refine ⟨by simp [f₂.context_eq, f₁.context_eq], fun x hx => f₂.roots_subset ?_⟩
      exact List.mem_cons_of_mem r (f₁.roots_subset hx)

theorem expandProductions_frame {pre : KPath} {prods : List Production} {st st' : EnumState} {out : List KPath}
    (h : expandProductions k rec pre prods st = .ok (out, st')) : Frame st st' :=
  expandProductions_inv (fun acc => Frame st acc.2)
    (fun _ _ _ _ _ _ hacc ha => hacc.trans (expandAtom_frame hrec ha)) (Frame.refl st) h

theorem expandKPathPrefixStep_frame {pre : KPath} {st st' : EnumState} {out : List KPath}
    (h : G.expandKPathPrefixStep k rec pre st = .ok (out, st')) : Frame st st' := by
  obtain ⟨-, -, ⟨-, -, rfl⟩ | ⟨-, anchor, prods, -, -, hf⟩⟩ := expandKPathPrefixStep_eq_ok h
  · exact Frame.refl _
  · exact expandProductions_frame hrec hf

end Frame

theorem expandKPathPrefix_frame (fuel : Nat) :
    CallSpec (fun _ st _ st' => Frame st st') (G.expandKPathPrefix k fuel) :=
  expandKPathPrefix_spec _ (fun _ hrec _ _ _ _ h => expandKPathPrefixStep_frame hrec h) fuel

/-! ## Enough fuel -/

variable (G) (k)

/-- How many refs of the grammar are not yet path roots. -/
def unrooted (roots : List Ref) : Nat := (G.refs.filter (· ∉ roots)).length

/-- What bounds the depth of the calls still to come: a prefix grows to `k` atoms, and then a new path root
starts a prefix of one. -/
def enumMeasure (pre : KPath) (st : EnumState) : Nat := G.unrooted st.pathRoots * k + (k - pre.length)

variable {G} {k}

theorem unrooted_mono {roots roots' : List Ref} (h : roots ⊆ roots') : G.unrooted roots' ≤ G.unrooted roots := by
  refine (List.monotone_filter_right G.refs fun r hr => ?_).length_le
  simp only [decide_eq_true_eq] at hr ⊢
  exact fun h' => hr (h h')

theorem unrooted_cons_lt {roots : List Ref} {r : Ref} (hr : r ∈ G.refs) (hn : r ∉ roots) :
    G.unrooted (r :: roots) < G.unrooted roots := by
  have he : G.refs.filter (· ∉ r :: roots) = (G.refs.filter (· ∉ roots)).filter (· ≠ r) := by
    rw [List.filter_filter]
    congr 1
    ext x
    simp [and_comm]
  rw [unrooted, unrooted, he, List.length_filter_lt_length_iff_exists]
  exact ⟨r, by simpa using ⟨hr, hn⟩, by simp⟩

theorem getActiveProductions_ne_outOfFuel {rule : Symbol} {depthLimit : Nat} {context : Context} :
    G.getActiveProductions rule depthLimit context ≠ .error .outOfFuel := by
  unfold getActiveProductions getProductions
  split
  · simp [bind, Except.bind]
  · split
    · simp [bind, Except.bind]
    · simp only [bind, Except.bind]
      split
      · split <;> simp [throw, throwThe, MonadExceptOf.throw]
      · simp [pure, Except.pure]

section Fuel

variable {pre : KPath} {st : EnumState}
  (hrec : ∀ pre' st', pre'.length ≤ k → G.enumMeasure k pre' st' < G.enumMeasure k pre st →
    rec pre' st' ≠ .error .outOfFuel)
  (hframe : CallSpec (fun _ st _ st' => Frame st st') rec)
include hrec hframe

theorem expandAtom_ne_outOfFuel {acc : List KPath × EnumState} {ext : Atom} (hlt : pre.length < k)
    (hacc : Frame st acc.2) (hext : ∀ r, ext = .ref r → r ∈ G.refs) :
    expandAtom k rec pre acc ext ≠ .error .outOfFuel := by
  have hu : G.unrooted acc.2.pathRoots ≤ G.unrooted st.pathRoots := unrooted_mono hacc.roots_subset
  have hshorter : ∀ s : EnumState, s.pathRoots = acc.2.pathRoots →
      G.enumMeasure k (pre ++ [ext]) s < G.enumMeasure k pre st := by
    intro s hs
    have := Nat.mul_le_mul_right k hu
    simp only [enumMeasure, hs, List.length_append, List.length_singleton]
    omega
  cases ext with
  | lit id v =>
    simp only [expandAtom]
    split
    · exact bind_ne_error (hrec _ _ (by simp; omega) (hshorter _ rfl)) fun _ _ => by simp [pure, Except.pure]
    · simp [pure, Except.pure]
  | ref r =>
    refine bind_ne_error (hrec _ _ (by simp; omega) (hshorter _ rfl)) fun ⟨e₁, st₁⟩ h₁ => ?_
    have f₁ := hframe _ _ _ _ h₁
    dsimp only
    split
    · simp [pure, Except.pure, bind, Except.bind]
    · next hn =>
      refine bind_ne_error (hrec _ _ (by simp; omega) ?_) fun _ _ => by simp [pure, Except.pure, bind, Except.bind]
      have hlt' := unrooted_cons_lt (G := G) (hext r rfl) hn
      have hu₁ : G.unrooted st₁.pathRoots ≤ G.unrooted acc.2.pathRoots := unrooted_mono f₁.roots_subset
      have := Nat.mul_le_mul_right k (show G.unrooted (r :: st₁.pathRoots) + 1 ≤ G.unrooted st.pathRoots by omega)
      simp only [enumMeasure, List.length_singleton, Nat.add_mul, Nat.one_mul] at this ⊢
      omega

theorem expandProductions_ne_outOfFuel {prods : List Production} {rule : Symbol} (hlt : pre.length < k)
    (hprods : ∀ p ∈ prods, p ∈ G.productionsOf rule) :
    expandProductions k rec pre prods st ≠ .error .outOfFuel := by
  refine foldlM_ne_error (fun acc => Frame st acc.2) (fun acc p hp hacc => ⟨?_, ?_⟩) (Frame.refl st)
  · refine foldlM_ne_error (fun a => Frame st a.2) (fun a x hx ha => ⟨?_, ?_⟩) hacc
    · exact expandAtom_ne_outOfFuel hrec hframe hlt ha fun r hr => ref_mem_refs G (hprods p hp) (hr ▸ hx)
    · exact fun a' h => ha.trans (expandAtom_frame hframe h)
  · exact fun _ h => foldlM_ok_inv (fun a => Frame st a.2)
      (fun _ _ _ _ ha hstep => ha.trans (expandAtom_frame hframe hstep)) hacc h

theorem expandKPathPrefixStep_ne_outOfFuel (hlen : pre.length ≤ k) :
    G.expandKPathPrefixStep k rec pre st ≠ .error .outOfFuel := by
  refine bind_ne_error assertThat_ne_outOfFuel fun _ _ => ?_
  refine bind_ne_error assertThat_ne_outOfFuel fun _ _ => ?_
  split
  · simp [pure, Except.pure]
  · next hl =>
    split
    · refine bind_ne_error getActiveProductions_ne_outOfFuel fun prods hprods => ?_
      exact expandProductions_ne_outOfFuel hrec hframe (by simp at hl; omega)
        fun p hp => ((mem_getActiveProductions hprods).2 p hp).1
    · simp [throw, throwThe, MonadExceptOf.throw]

end Fuel

theorem expandKPathPrefix_ne_outOfFuel : ∀ (fuel : Nat) {pre : KPath} {st : EnumState}, pre.length ≤ k →
    G.enumMeasure k pre st < fuel → G.expandKPathPrefix k fuel pre st ≠ .error .outOfFuel
  | 0, _, _, _, hf => absurd hf (Nat.not_lt_zero _)
  | fuel + 1, _, _, hlen, hf => expandKPathPrefixStep_ne_outOfFuel
      (fun _ _ hlen' hlt => expandKPathPrefix_ne_outOfFuel fuel hlen' (by omega)) (expandKPathPrefix_frame fuel) hlen

/-- `generateKPathSet` returns, or throws, for every grammar, rule, `k > 0` and parameter specs. -/
theorem generateKPathSet_ne_outOfFuel {root : Symbol} {specs : ParamSpecs} (hk : 0 < k) :
    G.generateKPathSet k root specs ≠ .error .outOfFuel := by
  unfold generateKPathSet
  cases hr : G.getRootRef root with
  | error e =>
    unfold getRootRef at hr
    split at hr <;> cases hr
    simp [bind, Except.bind]
  | ok rootRef =>
    rw [ok_bind]
    refine bind_ne_error (expandKPathPrefix_ne_outOfFuel _ (by simp; omega) ?_) fun _ _ => by
      simp [pure, Except.pure]
    have : G.unrooted [rootRef] ≤ G.refs.length := List.length_filter_le _ _
    have := Nat.mul_le_mul_right k this
    simp only [enumMeasure, kPathFuel, List.length_singleton, Nat.add_mul, Nat.one_mul]
    omega

end Grammar

end Photesthesis
