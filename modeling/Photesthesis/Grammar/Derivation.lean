import Photesthesis.Grammar.Basic
import Mathlib.Logic.Relation

/-!
# Derivations and the k-paths they contain

`Derives G ns r v`: `v` is a value the rule of the ref `r` derives with the names `ns` in scope at `r`, the global
parameter names and the context extensions of the refs from the root down to `r`. Its production is one of the
rule's, with its requirements in scope, and its atoms yield the rest of `v` (`Yields`): a literal its value, a ref a
derivation of its own with the ref's extension added to the scope.

`Through G ns r v chain a` says more: in such a derivation of `v` the refs `chain` follow each other down from `r`,
and the production used at the last of them has the atom `a`. A k-path occurs in a derivation (`KPathIn`) when its
refs are the last `k - 1` refs of such a chain from the root and its last atom is that `a`.

Forgetting the values, such a chain is a path down the grammar (`Descend`, `Reaches`) at whose end the k-path sits
(`KPathAt`): every k-path of a derivation is `Realizable` (`KPathIn.realizable`).
-/

namespace Photesthesis

mutual
/-- `v` is a derivation of the rule of `r`, with the names `ns` in scope. -/
inductive Derives (G : Grammar) : List Symbol → Ref → Value → Prop
  | mk {ns : List Symbol} {r : Ref} {p : Production} {xs : List Value} :
      p ∈ G.productionsOf r.rule → p.ctxReq ⊆ ns → Yields G ns p.atoms xs →
      Derives G ns r (.ofList (.sym r.rule :: xs))

/-- The atoms yield the values, one each. -/
inductive Yields (G : Grammar) : List Symbol → List Atom → List Value → Prop
  | nil {ns : List Symbol} : Yields G ns [] []
  | lit {ns : List Symbol} {id : Nat} {v : Value} {as : List Atom} {xs : List Value} :
      Yields G ns as xs → Yields G ns (.lit id v :: as) (v :: xs)
  | ref {ns : List Symbol} {r : Ref} {x : Value} {as : List Atom} {xs : List Value} :
      Derives G (ns ++ r.ctxExt) r x → Yields G ns as xs → Yields G ns (.ref r :: as) (x :: xs)
end

mutual
/-- A derivation of `v` from `r` in which the refs `chain` descend from `r` and the production at the last of them
has the atom `a`. -/
inductive Through (G : Grammar) : List Symbol → Ref → Value → List Ref → Atom → Prop
  | here {ns : List Symbol} {r : Ref} {p : Production} {xs : List Value} {a : Atom} :
      p ∈ G.productionsOf r.rule → p.ctxReq ⊆ ns → Yields G ns p.atoms xs → a ∈ p.atoms →
      Through G ns r (.ofList (.sym r.rule :: xs)) [r] a
  | down {ns : List Symbol} {r : Ref} {p : Production} {xs : List Value} {chain : List Ref} {a : Atom} :
      p ∈ G.productionsOf r.rule → p.ctxReq ⊆ ns → YieldsThrough G ns p.atoms xs chain a →
      Through G ns r (.ofList (.sym r.rule :: xs)) (r :: chain) a

/-- The atoms yield the values, and the chain goes down through one of the refs. -/
inductive YieldsThrough (G : Grammar) : List Symbol → List Atom → List Value → List Ref → Atom → Prop
  | here {ns : List Symbol} {r : Ref} {x : Value} {as : List Atom} {xs : List Value} {chain : List Ref} {a : Atom} :
      Through G (ns ++ r.ctxExt) r x chain a → Yields G ns as xs → YieldsThrough G ns (.ref r :: as) (x :: xs) chain a
  | lit {ns : List Symbol} {id : Nat} {v : Value} {as : List Atom} {xs : List Value} {chain : List Ref} {a : Atom} :
      YieldsThrough G ns as xs chain a → YieldsThrough G ns (.lit id v :: as) (v :: xs) chain a
  | ref {ns : List Symbol} {r : Ref} {x : Value} {as : List Atom} {xs : List Value} {chain : List Ref} {a : Atom} :
      Derives G (ns ++ r.ctxExt) r x → YieldsThrough G ns as xs chain a →
      YieldsThrough G ns (.ref r :: as) (x :: xs) chain a
end

/-- The k-path `P` occurs in a derivation of `v` from `root`, with the names `ns` in scope. -/
def KPathIn (G : Grammar) (k : Nat) (ns : List Symbol) (root : Ref) (v : Value) (P : KPath) : Prop :=
  ∃ chain a, Through G ns root v chain a ∧ k - 1 ≤ chain.length ∧ P = (lastN (k - 1) chain).map .ref ++ [a]

/-- Forgetting the chain, by the mutual recursor. -/
theorem Through.derives {G : Grammar} {ns : List Symbol} {r : Ref} {v : Value} {chain : List Ref} {a : Atom} :
    Through G ns r v chain a → Derives G ns r v :=
  @Through.rec G (fun ns r v _ _ _ => Derives G ns r v) (fun ns as xs _ _ _ => Yields G ns as xs)
    (fun hp hc hy _ => .mk hp hc hy) (fun hp hc _ hy => .mk hp hc hy) (fun _ hy hd => .ref hd hy)
    (fun _ hy => .lit hy) (fun hd _ hy => .ref hd hy) ns r v chain a

/-! ## Joining the yields of atoms -/

section Append

variable {G : Grammar} {ns : List Symbol} {chain : List Ref} {a : Atom}

theorem Yields.append : ∀ {as xs bs ys}, Yields G ns as xs → Yields G ns bs ys → Yields G ns (as ++ bs) (xs ++ ys)
  | _, _, _, _, .nil, h => h
  | _, _, _, _, .lit h₁, h => .lit (h₁.append h)
  | _, _, _, _, .ref hd h₁, h => .ref hd (h₁.append h)

theorem YieldsThrough.append_yields : ∀ {as xs bs ys}, YieldsThrough G ns as xs chain a → Yields G ns bs ys →
    YieldsThrough G ns (as ++ bs) (xs ++ ys) chain a
  | _, _, _, _, .here ht hy, h => .here ht (hy.append h)
  | _, _, _, _, .lit h₁, h => .lit (h₁.append_yields h)
  | _, _, _, _, .ref hd h₁, h => .ref hd (h₁.append_yields h)

theorem Yields.append_through : ∀ {as xs bs ys}, Yields G ns as xs → YieldsThrough G ns bs ys chain a →
    YieldsThrough G ns (as ++ bs) (xs ++ ys) chain a
  | _, _, _, _, .nil, h => h
  | _, _, _, _, .lit h₁, h => .lit (h₁.append_through h)
  | _, _, _, _, .ref hd h₁, h => .ref hd (h₁.append_through h)

end Append

/-! ## Paths down the grammar -/

/-- One step down from the last ref of the path `c`: through a production of its rule whose requirements the names
`ns` meet, to a ref of that production, whose extension joins the names. -/
inductive Descend (G : Grammar) : List Ref × List Symbol → List Ref × List Symbol → Prop
  | mk {c : List Ref} {ns : List Symbol} {r r' : Ref} {p : Production} : c.getLast? = some r →
      p ∈ G.productionsOf r.rule → p.ctxReq ⊆ ns → .ref r' ∈ p.atoms →
      Descend G (c, ns) (c ++ [r'], ns ++ r'.ctxExt)

/-- The paths down from the root, each with the names in scope at its last ref. -/
def Reaches (G : Grammar) (ns₀ : List Symbol) (root : Ref) (cn : List Ref × List Symbol) : Prop :=
  Relation.ReflTransGen (Descend G) ([root], ns₀) cn

/-- The atom `a` is one of a production of the rule of the last ref of the path, active with its names. -/
def AtomAt (G : Grammar) (cn : List Ref × List Symbol) (a : Atom) : Prop :=
  ∃ r p, cn.1.getLast? = some r ∧ p ∈ G.productionsOf r.rule ∧ p.ctxReq ⊆ cn.2 ∧ a ∈ p.atoms

/-- The k-path `P` ends the path: its refs are the path's last `k - 1`, and its atom is at the path's end. -/
def KPathAt (G : Grammar) (k : Nat) (cn : List Ref × List Symbol) (P : KPath) : Prop :=
  ∃ a, AtomAt G cn a ∧ k - 1 ≤ cn.1.length ∧ P = (lastN (k - 1) cn.1).map .ref ++ [a]

/-- The k-path ends some path down from the root. -/
def Realizable (G : Grammar) (k : Nat) (ns₀ : List Symbol) (root : Ref) (P : KPath) : Prop :=
  ∃ cn, Reaches G ns₀ root cn ∧ KPathAt G k cn P

theorem Descend.length_eq {G : Grammar} {x y : List Ref × List Symbol} (h : Descend G x y) :
    y.1.length = x.1.length + 1 := by
  cases h
  simp

/-- A path down the grammar only grows. -/
theorem length_le_of_descends {G : Grammar} {x y : List Ref × List Symbol}
    (h : Relation.ReflTransGen (Descend G) x y) : x.1.length ≤ y.1.length := by
  induction h with
  | refl => exact le_refl _
  | tail _ hd ih => rw [hd.length_eq]; omega

/-- The chain of a derivation is a path down the grammar from any path that ends at its root, by the mutual
recursor; below a production, the path goes on from one of its refs. -/
theorem Through.descends {G : Grammar} {ns : List Symbol} {r : Ref} {v : Value} {chain : List Ref} {a : Atom} :
    Through G ns r v chain a → ∀ above : List Ref, ∃ ns',
      Relation.ReflTransGen (Descend G) (above ++ [r], ns) (above ++ chain, ns') ∧ AtomAt G (above ++ chain, ns') a :=
  @Through.rec G
    (fun ns r _ chain a _ => ∀ above : List Ref, ∃ ns',
      Relation.ReflTransGen (Descend G) (above ++ [r], ns) (above ++ chain, ns') ∧ AtomAt G (above ++ chain, ns') a)
    (fun ns as _ chain a _ => ∀ c : List Ref, ∃ r' ns', .ref r' ∈ as ∧
      Relation.ReflTransGen (Descend G) (c ++ [r'], ns ++ r'.ctxExt) (c ++ chain, ns') ∧ AtomAt G (c ++ chain, ns') a)
    (fun hp hc _ ha _ => ⟨_, .refl, _, _, by simp, hp, hc, ha⟩)
    (fun {_ r _ _ _ _} hp hc _ ih above =>
      let ⟨r', ns', hr', hd, hat⟩ := ih (above ++ [r])
      ⟨ns', .head (.mk (by simp) hp hc hr') (by simpa using hd), by simpa using hat⟩)
    (fun {_ r _ _ _ _ _} _ _ ih c => let ⟨ns', hd, hat⟩ := ih c; ⟨r, ns', List.mem_cons_self _ _, hd, hat⟩)
    (fun _ ih c => let ⟨r', ns', hr', hd, hat⟩ := ih c; ⟨r', ns', List.mem_cons_of_mem _ hr', hd, hat⟩)
    (fun _ _ ih c => let ⟨r', ns', hr', hd, hat⟩ := ih c; ⟨r', ns', List.mem_cons_of_mem _ hr', hd, hat⟩)
    ns r v chain a

/-- A k-path of a derivation ends a path down from the root. -/
theorem KPathIn.realizable {G : Grammar} {k : Nat} {ns : List Symbol} {root : Ref} {v : Value} {P : KPath}
    (h : KPathIn G k ns root v P) : Realizable G k ns root P := by
  obtain ⟨chain, a, ht, hl, rfl⟩ := h
  obtain ⟨ns', hd, hat⟩ := ht.descends []
  exact ⟨(chain, ns'), by simpa using hd, a, by simpa using hat, hl, rfl⟩

end Photesthesis
