import Photesthesis.Grammar.KPathFuel
import Photesthesis.Grammar.Derivation

/-!
# What the enumeration finds is there

`Explores G k pre ns P`: the enumeration from the prefix `pre`, with the names `ns` in scope, can reach the k-path
`P` if it starts afresh from every ref it meets, whether or not it met it before. The code starts afresh from a ref
only the first time, so it finds no more than that (`expandKPathPrefix_explores`).

From the root, each such k-path ends a path down the grammar (`Explores.realizable`), so for `k ≥ 2` every k-path of
`generateKPathSet` is `Realizable`, with `k` atoms (`generateKPathSet_realizable`).
-/

namespace Photesthesis

namespace Grammar

/-- The k-paths the enumeration from `pre` can reach, with the names `ns` in scope, when it starts afresh from every
ref it meets. -/
inductive Explores (G : Grammar) (k : Nat) : KPath → List Symbol → KPath → Prop
  | done {pre : KPath} {ns : List Symbol} : pre.length = k → Explores G k pre ns pre
  | lit {pre : KPath} {ns : List Symbol} {anchor : Ref} {p : Production} {id : Nat} {v : Value} {P : KPath} :
      pre.length = k - 1 → pre.getLast? = some (.ref anchor) → p ∈ G.productionsOf anchor.rule →
      p.ctxReq ⊆ ns → .lit id v ∈ p.atoms → Explores G k (pre ++ [.lit id v]) ns P → Explores G k pre ns P
  | ref {pre : KPath} {ns : List Symbol} {anchor : Ref} {p : Production} {r : Ref} {P : KPath} :
      pre.length ≠ k → pre.getLast? = some (.ref anchor) → p ∈ G.productionsOf anchor.rule →
      p.ctxReq ⊆ ns → .ref r ∈ p.atoms → Explores G k (pre ++ [.ref r]) (ns ++ r.ctxExt) P → Explores G k pre ns P
  | restart {pre : KPath} {ns : List Symbol} {anchor : Ref} {p : Production} {r : Ref} {P : KPath} :
      pre.length ≠ k → pre.getLast? = some (.ref anchor) → p ∈ G.productionsOf anchor.rule →
      p.ctxReq ⊆ ns → .ref r ∈ p.atoms → Explores G k [.ref r] (ns ++ r.ctxExt) P → Explores G k pre ns P

variable {G : Grammar} {k : Nat} {rec : Expander}

/-! ## The code explores no more -/

/-- The enumeration's result, as `Explores` bounds it. -/
def ExploresSpec (G : Grammar) (k : Nat) (pre : KPath) (st : EnumState) (out : List KPath) (_ : EnumState) : Prop :=
  ∀ P ∈ out, Explores G k pre st.context.names P

theorem expandAtom_explores (hrec : CallSpec (ExploresSpec G k) rec)
    (hframe : CallSpec (fun _ st _ st' => Frame st st') rec) {pre : KPath} {anchor : Ref} {p : Production}
    {ns : List Symbol} (hl : pre.length ≠ k) (hlast : pre.getLast? = some (.ref anchor))
    (hp : p ∈ G.productionsOf anchor.rule) (hreq : p.ctxReq ⊆ ns) {a : Atom} (ha : a ∈ p.atoms)
    {acc acc' : List KPath × EnumState} (hacc : acc.2.context.names = ns ∧ ∀ P ∈ acc.1, Explores G k pre ns P)
    (h : expandAtom k rec pre acc a = .ok acc') :
    acc'.2.context.names = ns ∧ ∀ P ∈ acc'.1, Explores G k pre ns P := by
  obtain ⟨hns, hres⟩ := hacc
  cases a with
  | lit id v =>
    rcases expandAtom_lit_eq_ok h with ⟨hk, e, h₁, he⟩ | ⟨-, rfl⟩
    · refine ⟨(hframe _ _ _ _ h₁).context_eq ▸ hns, fun P hP => ?_⟩
      rw [he, List.mem_union_iff] at hP
      rcases hP with hP | hP
      · exact hres P hP
      · exact .lit hk hlast hp hreq ha (hns ▸ hrec _ _ _ _ h₁ P hP)
    · exact ⟨hns, hres⟩
  | ref r =>
    obtain ⟨e₁, st₁, h₁, hcase⟩ := expandAtom_ref_eq_ok h
    have f₁ := hframe _ _ _ _ h₁
    have hext : ∀ P ∈ e₁, Explores G k pre ns P := fun P hP => .ref hl hlast hp hreq ha
      (by simpa [hns] using hrec _ _ _ _ h₁ P hP)
    rcases hcase with ⟨-, rfl⟩ | ⟨-, e₂, st₂, h₂, rfl⟩
    · refine ⟨by simp [f₁.context_eq, hns], fun P hP => ?_⟩
      rcases List.mem_union_iff.mp hP with hP | hP
      · exact hres P hP
      · exact hext P hP
    · have f₂ := hframe _ _ _ _ h₂
      refine ⟨by simp [f₂.context_eq, f₁.context_eq, hns], fun P hP => ?_⟩
      rcases List.mem_union_iff.mp hP with hP | hP
      · rcases List.mem_union_iff.mp hP with hP | hP
        · exact hres P hP
        · exact hext P hP
      · exact .restart hl hlast hp hreq ha (by simpa [f₁.context_eq, hns] using hrec _ _ _ _ h₂ P hP)

theorem expandKPathPrefixStep_explores (hrec : CallSpec (ExploresSpec G k) rec)
    (hframe : CallSpec (fun _ st _ st' => Frame st st') rec) :
    CallSpec (ExploresSpec G k) (G.expandKPathPrefixStep k rec) := by
  intro pre st out st' h
  obtain ⟨-, -, ⟨hl, rfl, rfl⟩ | ⟨hl, anchor, prods, hlast, hprods, hf⟩⟩ := expandKPathPrefixStep_eq_ok h
  · intro P hP
    rw [List.mem_singleton.mp hP]
    exact .done hl
  · refine (expandProductions_inv (fun acc => acc.2.context.names = st.context.names ∧
      ∀ P ∈ acc.1, Explores G k pre st.context.names P) (fun prod hprod a ha acc acc' hacc hstep => ?_)
      ⟨rfl, by simp⟩ hf).2
    obtain ⟨hp, hact⟩ := (mem_getActiveProductions hprods).2 prod hprod
    exact expandAtom_explores hrec hframe hl hlast hp (Production.isActive_iff.mp hact).2 ha hacc hstep

theorem expandKPathPrefix_explores (fuel : Nat) : CallSpec (ExploresSpec G k) (G.expandKPathPrefix k fuel) := by
  induction fuel with
  | zero => exact fun _ _ _ _ h => by cases h
  | succ fuel ih => exact expandKPathPrefixStep_explores ih (expandKPathPrefix_frame fuel)

/-! ## What is explored from the root ends a path down from it -/

/-- What an enumeration starts from: a prefix of refs short of `k` atoms that ends a path down from the root, with
that path's names in scope; or a whole k-path that ends such a path. -/
def GoodPrefix (G : Grammar) (k : Nat) (ns₀ : List Symbol) (root : Ref) (pre : KPath) (ns : List Symbol) : Prop :=
  (pre.length < k ∧ ∃ c, Reaches G ns₀ root (c, ns) ∧ pre.length ≤ c.length ∧ pre = (lastN pre.length c).map .ref) ∨
    (pre.length = k ∧ Realizable G k ns₀ root pre)

section Good

variable {ns₀ : List Symbol} {root : Ref}

/-- A prefix of refs ending the path `c` ends in the last ref of `c`. -/
theorem getLast?_of_suffix {pre : KPath} {c : List Ref} {m : Nat} {anchor : Ref} (hm : 0 < m)
    (hpre : pre = (lastN m c).map .ref) (hlast : pre.getLast? = some (.ref anchor)) : c.getLast? = some anchor := by
  subst hpre
  rw [List.getLast?_map, getLast?_lastN hm] at hlast
  cases hc : c.getLast? with
  | none => simp [hc] at hlast
  | some r =>
    simp only [hc, Option.map_some', Option.some.injEq, Atom.ref.injEq] at hlast
    rw [hlast]

theorem length_pos_of_getLast? {pre : KPath} {a : Atom} (h : pre.getLast? = some a) : 0 < pre.length :=
  List.length_pos.mpr fun hn => by simp [hn] at h

/-- Extending a good prefix by an atom of an active production of its last ref gives a good prefix. -/
theorem GoodPrefix.extend {pre : KPath} {ns : List Symbol} {anchor : Ref} {p : Production} {a : Atom}
    (hg : GoodPrefix G k ns₀ root pre ns) (hl : pre.length ≠ k) (hlast : pre.getLast? = some (.ref anchor))
    (hp : p ∈ G.productionsOf anchor.rule) (hreq : p.ctxReq ⊆ ns) (ha : a ∈ p.atoms) :
    (pre.length + 1 = k → Realizable G k ns₀ root (pre ++ [a])) ∧
      ∀ r, a = .ref r → GoodPrefix G k ns₀ root (pre ++ [.ref r]) (ns ++ r.ctxExt) := by
  rcases hg with ⟨hlt, c, hc, hlen, hpre⟩ | ⟨hk, -⟩
  · have hlastc := getLast?_of_suffix (length_pos_of_getLast? hlast) hpre hlast
    refine ⟨fun hk => ⟨(c, ns), hc, a, ⟨anchor, p, hlastc, hp, hreq, ha⟩, by simp; omega, ?_⟩, fun r hr => ?_⟩
    · rw [← hk, Nat.add_sub_cancel, ← hpre]
    · have hc' : Reaches G ns₀ root (c ++ [r], ns ++ r.ctxExt) := .tail hc (.mk hlastc hp hreq (hr ▸ ha))
      by_cases hk : pre.length + 1 = k
      · exact .inr ⟨by simpa using hk, (c, ns), hc, .ref r, ⟨anchor, p, hlastc, hp, hreq, hr ▸ ha⟩,
          by simp; omega, by rw [← hk, Nat.add_sub_cancel, ← hpre]⟩
      · refine .inl ⟨by simp; omega, c ++ [r], hc', by simpa using hlen, ?_⟩
        rw [List.length_append, List.length_singleton, lastN_append_singleton r hlen, List.map_append, ← hpre]
        rfl
  · exact absurd hk hl

theorem Explores.realizable {pre : KPath} {ns : List Symbol} {P : KPath} (h : Explores G k pre ns P)
    (hg : GoodPrefix G k ns₀ root pre ns) : Realizable G k ns₀ root P := by
  induction h with
  | done hl =>
    rcases hg with ⟨hlt, -⟩ | ⟨-, hr⟩
    · omega
    · exact hr
  | @lit pre _ _ _ _ _ _ hl hlast hp hreq ha _ ih =>
    have := length_pos_of_getLast? hlast
    have hk : pre.length ≠ k := by omega
    exact ih (.inr ⟨by simp; omega, (hg.extend hk hlast hp hreq ha).1 (by omega)⟩)
  | ref hl hlast hp hreq ha _ ih => exact ih ((hg.extend hl hlast hp hreq ha).2 _ rfl)
  | @restart pre _ _ _ _ _ hl hlast hp hreq ha _ ih =>
    rcases hg with ⟨hlt, c, hc, -, hpre⟩ | ⟨hk, -⟩
    · have := length_pos_of_getLast? hlast
      have hlastc := getLast?_of_suffix this hpre hlast
      exact ih (.inl ⟨by simp; omega, _, .tail hc (.mk hlastc hp hreq ha), by simp, by simp [lastN]⟩)
    · exact absurd hk hl

end Good

theorem generateKPathSet_getRootRef {root : Symbol} {specs : ParamSpecs} {paths : List KPath}
    (h : G.generateKPathSet k root specs = .ok paths) : ∃ rootRef, G.getRootRef root = .ok rootRef := by
  unfold generateKPathSet at h
  obtain ⟨rootRef, hr, -⟩ := bind_eq_ok.mp h
  exact ⟨rootRef, hr⟩

/-- For `k ≥ 2`, every k-path `generateKPathSet` returns ends a path down from the root ref, with the parameters'
names in scope at the root. -/
theorem generateKPathSet_realizable {root : Symbol} {specs : ParamSpecs} {paths : List KPath} {rootRef : Ref}
    (hk : 2 ≤ k) (h : G.generateKPathSet k root specs = .ok paths) (hroot : G.getRootRef root = .ok rootRef) :
    ∀ P ∈ paths, Realizable G k (specs.map Prod.fst) rootRef P := by
  unfold generateKPathSet at h
  rw [hroot, ok_bind] at h
  obtain ⟨⟨out, st'⟩, h₁, h⟩ := bind_eq_ok.mp h
  cases h
  intro P hP
  have hx := expandKPathPrefix_explores _ _ _ _ _ h₁ P hP
  simp only [Context.names_mk_nil] at hx
  exact hx.realizable (.inl ⟨by simp; omega, [rootRef], .refl, by simp, by simp [lastN]⟩)

/-- A k-path that ends a path has `k` atoms, for `k > 0`. -/
theorem kPathAt_length {cn : List Ref × List Symbol} {P : KPath} (hk : 0 < k) (h : KPathAt G k cn P) :
    P.length = k := by
  obtain ⟨a, -, hl, rfl⟩ := h
  simp
  omega

end Grammar

end Photesthesis
