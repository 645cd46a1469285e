import Photesthesis.Grammar.Basic

/-!
# Enumerating k-paths

`Grammar::expandKPathPrefix` extends a prefix of refs, atom by atom, through the active productions of its last
ref, until it has `k` atoms; and the first time it meets a ref it also starts afresh from it, recording it in
`pathRoots`. `generateKPathSet` starts from the root ref of a rule.

The recursion has no bound in the code. Here it has fuel, and `kPathFuel` is enough of it: `pathRoots` only grows
within the refs of the grammar, and a prefix only grows to `k` (`expandKPathPrefix_ne_outOfFuel`, in
`KPathFuel.lean`).
-/

namespace Photesthesis

/-- What `expandKPathPrefix` threads through its calls: the context and the set `pathRoots`. -/
structure EnumState where
  context : Context
  pathRoots : List Ref

namespace Grammar

variable (G : Grammar) (k : Nat)

/-- The signature of `expandKPathPrefix` once `k` is fixed, for the recursive call. -/
abbrev Expander := KPath → EnumState → Except Fault (List KPath × EnumState)

/-- The body of the inner loop of `expandKPathPrefix` for the atom `ext` of an active production, with `rec` the
recursive call. A literal extends the prefix only as its last atom. A ref's context extension is pushed around its
two calls: the extension of the prefix by it, and a fresh start from it when it is not yet a path root. -/
def expandAtom (rec : Expander) (pre : KPath) (acc : List KPath × EnumState) :
    Atom → Except Fault (List KPath × EnumState)
  | .lit id v =>
    if pre.length == k - 1 then do
      let (expanded, st) ← rec (pre ++ [.lit id v]) acc.2
      pure (acc.1 ∪ expanded, st)
    else pure acc
  | .ref r => do
    let (expanded, st) ← rec (pre ++ [.ref r]) { acc.2 with context := acc.2.context.push r.ctxExt }
    let (res, st) ← if r ∈ st.pathRoots then pure (acc.1 ∪ expanded, st) else do
      let (restarted, st) ← rec [.ref r] { st with pathRoots := r :: st.pathRoots }
      pure (acc.1 ∪ expanded ∪ restarted, st)
    pure (res, { st with context := st.context.pop r.ctxExt.length })

/-- The loop over the atoms of the active productions of the anchor. -/
def expandProductions (rec : Expander) (pre : KPath) (prods : List Production) (st : EnumState) :
    Except Fault (List KPath × EnumState) :=
  prods.foldlM (fun acc prod => prod.atoms.foldlM (expandAtom k rec pre) acc) ([], st)

/-- The body of `Grammar::expandKPathPrefix`, with `rec` the recursive call. -/
def expandKPathPrefixStep (rec : Expander) (pre : KPath) (st : EnumState) :
    Except Fault (List KPath × EnumState) := do
  assertThat (k != 0) "k > 0"
  assertThat (!pre.isEmpty) "!prefix.empty()"
  if pre.length == k then pure ([pre], st) else
  match pre.getLast? with
  | some (.ref anchor) => do
    let prods ← G.getActiveProductions anchor.rule k st.context
    expandProductions k rec pre prods st
  | _ => throw (.assertFailed "anchor_ref")

/-- `Grammar::expandKPathPrefix`, on `fuel` levels of recursion. -/
def expandKPathPrefix : Nat → Expander
  | 0, _, _ => throw .outOfFuel
  | fuel + 1, pre, st => G.expandKPathPrefixStep k (expandKPathPrefix fuel) pre st

/-- Fuel enough for every enumeration: `k` levels for each ref that can enter `pathRoots`, and one more. -/
def kPathFuel : Nat := (G.refs.length + 1) * k + 1

/-- `Grammar::generateKPathSet`. -/
def generateKPathSet (root : Symbol) (specs : ParamSpecs) : Except Fault (List KPath) := do
  let rootRef ← G.getRootRef root
  let (paths, _) ← G.expandKPathPrefix k (G.kPathFuel k) [.ref rootRef] ⟨⟨specs, []⟩, [rootRef]⟩
  pure paths

end Grammar

end Photesthesis
