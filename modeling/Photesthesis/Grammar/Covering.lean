import Photesthesis.Grammar.Cycling
import Photesthesis.Grammar.KPath

/-!
# k-path coverings

`Grammar::kPathCoveringOrMinimalExpansion` expands the rule of the last ref of `path` down to a depth limit. For each
active production it marks the production as covering when one of its atoms completes an uncovered k-path (which it
erases from the uncovered set, `coverFirst`), or when the expansion of one of its refs covers one; it expands the
atoms, each ref by a recursive call, and zips the atoms' expansions cyclically (`coverAtom`). The covering
productions' values form the first set; the others' the second, which is emptied when the first is not and is
otherwise cut to its least element.

`Grammar::kPathCovering` calls it from the root ref until no k-path is uncovered, raising the depth limit each time
no value covers one, and `kPathCoverings` combines the coverings of the parameters cyclically. The while loop has
no bound in the code; here it runs on `fuel`, and `KPathCover.lean` shows some fuel is always enough.
-/

namespace Photesthesis

/-- `extendByCycling(std::set<Params>, ParamName, std::set<Value>)`: each map given `param`'s value. -/
def extendByCyclingParams (params : List Params) (param : Symbol) (ext : List Value) : Except Fault (List Params) :=
  cycle (setInsert Params.comparator) (fun m v => mapEmplace Symbol.comparator param v m) params ext

/-- Both overloads of `extendByCycling` of two non-empty sets make exactly `max |vecs| |ext|` turns, the extension of
`vecs[t mod |vecs|]` by `ext[t mod |ext|]` at turn `t`, so that every element of either set takes part in a result.
With sets without repeats there are exactly `max |vecs| |ext|` results: always for vectors, whose last element is
the value added, and for parameter maps when the name added is bound in none of them. -/
theorem extendByCycling_exact {vecs : List (List Value)} {ext : List Value} {params : List Params} {param : Symbol}
    {vals : List Value} (hv : vecs ≠ []) (he : ext ≠ []) (hp : params ≠ []) (hvals : vals ≠ []) :
    (∃ res, extendByCycling vecs ext = .ok res ∧
      CycleExact (setInsert Value.comparator.lex) (fun v x => v ++ [x]) hv he res ∧
      (vecs.Nodup → ext.Nodup → res.length = max vecs.length ext.length)) ∧
    (∃ res, extendByCyclingParams params param vals = .ok res ∧
      CycleExact (setInsert Params.comparator) (fun m v => mapEmplace Symbol.comparator param v m) hp hvals res ∧
      (params.Nodup → vals.Nodup → (∀ m ∈ params, param ∉ m.map Prod.fst) →
        res.length = max params.length vals.length)) := by
  obtain ⟨hvec, hvecx⟩ := cycle_exact (fun v x => v ++ [x]) hv he (setInsert_mem_law Value.comparator.lex)
  obtain ⟨hpar, hparx⟩ := cycle_exact (fun m v => mapEmplace Symbol.comparator param v m) hp hvals
    (setInsert_mem_law Params.comparator)
  refine ⟨⟨_, hvec, hvecx, fun hnv hne => ?_⟩, ⟨_, hpar, hparx, fun hnp hnv hfree => ?_⟩⟩
  · refine length_cycleUpTo _ hv he (setInsert_mem_law _) (fun _ _ h => length_setInsert_of_not_mem h) hnv hne
      (fun x _ x' _ y _ y' _ h => ?_) _ le_rfl
    obtain ⟨h₁, h₂⟩ := List.append_inj' h rfl
    exact ⟨h₁, List.singleton_inj.mp h₂⟩
  · exact length_cycleUpTo _ hp hvals (setInsert_mem_law _) (fun _ _ h => length_setInsert_of_not_mem h) hnp hnv
      (fun m hm m' hm' _ _ _ _ h => mapEmplace_inj (hfree m hm) (hfree m' hm') h) _ le_rfl

/-- The cyclic zips of sets of two and three elements, each way round: the smaller set wraps around once. -/
theorem extendByCycling_exact_two_three :
    ∃ (hv : ([[.nil], [.bool true]] : List (List Value)) ≠ []) (he : ([.nil, .bool false, .bool true] : List Value) ≠ [])
      (hp : ([[], [(⟨['a'], rfl⟩, .nil)], [(⟨['b'], rfl⟩, .nil)]] : List Params) ≠ [])
      (hvals : ([.nil, .bool true] : List Value) ≠ []),
    (∃ res, extendByCycling [[.nil], [.bool true]] [.nil, .bool false, .bool true] = .ok res ∧
      CycleExact (setInsert Value.comparator.lex) (fun v x => v ++ [x]) hv he res ∧
      (List.Nodup [[Value.nil], [.bool true]] → List.Nodup [Value.nil, .bool false, .bool true] →
        res.length = max 2 3)) ∧
    (∃ res, extendByCyclingParams [[], [(⟨['a'], rfl⟩, .nil)], [(⟨['b'], rfl⟩, .nil)]] ⟨['n'], rfl⟩
        [.nil, .bool true] = .ok res ∧
      CycleExact (setInsert Params.comparator) (fun m v => mapEmplace Symbol.comparator ⟨['n'], rfl⟩ v m) hp hvals
        res ∧
      (List.Nodup ([[], [(⟨['a'], rfl⟩, .nil)], [(⟨['b'], rfl⟩, .nil)]] : List Params) →
        List.Nodup [Value.nil, .bool true] →
        (∀ m ∈ ([[], [(⟨['a'], rfl⟩, .nil)], [(⟨['b'], rfl⟩, .nil)]] : List Params),
          (⟨['n'], rfl⟩ : Symbol) ∉ m.map Prod.fst) →
        res.length = max 3 2)) :=
  ⟨by simp, by simp, by simp, by simp, extendByCycling_exact (by simp) (by simp) (by simp) (by simp)⟩

/-- What `kPathCoveringOrMinimalExpansion` threads through its calls by reference: the context and the set of
k-paths not yet covered. -/
structure CoverState where
  context : Context
  paths : List KPath

namespace Grammar

variable (G : Grammar) (k : Nat)

/-- The `kpath` of `kPathCoveringOrMinimalExpansion`: the last `k - 1` refs of the path, when it has that many. -/
def kPathPrefix (path : List Ref) : KPath := if k - 1 ≤ path.length then (lastN (k - 1) path).map .ref else []

/-- The signature of `kPathCoveringOrMinimalExpansion` once `k` is fixed, for the call one level deeper. -/
abbrev Coverer := List Ref → CoverState → Except Fault ((List Value × List Value) × CoverState)

/-- The first loop over the atoms of a production: the first atom that completes the uncovered k-path
`kpath ++ [atom]` covers it, and it is erased. -/
def coverFirst (kpath : KPath) (atoms : List Atom) (paths : List KPath) : Bool × List KPath :=
  match atoms.find? (fun a => kpath ++ [a] ∈ paths) with
  | some a => (true, setErase (kpath ++ [a]) paths)
  | none => (false, paths)

/-- The second loop over the atoms of a production, for one atom, with `rec` the call one level deeper: the atom's
expansions (a literal's value; a ref's covering expansions if there are any, else its minimal one) extend the
prefixes cyclically. The accumulator is the prefixes, whether the production covers a k-path, and the state. The
code's assertion that an atom's expansions are not empty holds by construction here, and is left out. -/
def coverAtom (rec : Coverer) (path : List Ref) (acc : List (List Value) × Bool × CoverState) :
    Atom → Except Fault (List (List Value) × Bool × CoverState)
  | .lit _ v => do
    let prefixes ← extendByCycling acc.1 [v]
    pure (prefixes, acc.2)
  | .ref r => do
    let ((subC, subN), st) ← rec (path ++ [r]) { acc.2.2 with context := acc.2.2.context.push r.ctxExt }
    let st := { st with context := st.context.pop r.ctxExt.length }
    if !subC.isEmpty then do
      let prefixes ← extendByCycling acc.1 subC
      pure (prefixes, true, st)
    else do
      assertThat (subN.length == 1) "subNonKPathCovering.size() == 1"
      let prefixes ← extendByCycling acc.1 subN
      pure (prefixes, acc.2.1, st)

/-- Both loops over the atoms of one production of `rule`: its prefixes, and whether it covers a k-path. -/
def coverProduction (rec : Coverer) (path : List Ref) (rule : Symbol) (prod : Production) (st : CoverState) :
    Except Fault (List (List Value) × Bool × CoverState) :=
  let (covers, paths) := coverFirst (kPathPrefix k path) prod.atoms st.paths
  prod.atoms.foldlM (coverAtom rec path) ([[.sym rule]], covers, { st with paths := paths })

/-- `set.emplace(Value(prefix))` for each prefix in turn. -/
def insertValues (s : List Value) (prefixes : List (List Value)) : List Value :=
  prefixes.foldl (fun s p => setInsert Value.comparator (Value.ofList p) s) s

/-- One turn of the loop over the active productions: a covering production's values go to the first set, another's
to the second. -/
def coverProductionStep (rec : Coverer) (path : List Ref) (rule : Symbol) (acc : List Value × List Value × CoverState)
    (prod : Production) : Except Fault (List Value × List Value × CoverState) := do
  let (prefixes, covers, st) ← coverProduction k rec path rule prod acc.2.2
  if covers then pure (insertValues acc.1 prefixes, acc.2.1, st)
  else pure (acc.1, insertValues acc.2.1 prefixes, st)

/-- The loop over the active productions. -/
def coverProductions (rec : Coverer) (path : List Ref) (rule : Symbol) (prods : List Production) (st : CoverState) :
    Except Fault (List Value × List Value × CoverState) :=
  prods.foldlM (coverProductionStep k rec path rule) ([], [], st)

/-- The body of `Grammar::kPathCoveringOrMinimalExpansion` at a depth limit above zero, with `rec` the call at the
limit one lower. -/
def kPathCoveringStep (rec : Coverer) (path : List Ref) (depthLimit : Nat) (st : CoverState) :
    Except Fault ((List Value × List Value) × CoverState) :=
  match path.getLast? with
  | none => throw (.assertFailed "!path.empty()")
  | some r => do
    assertThat (decide (0 < k)) "k > 0"
    let prods ← G.getActiveProductions r.rule depthLimit st.context
    let (kc, nkc, st) ← coverProductions k rec path r.rule prods st
    let nkc := if !kc.isEmpty then [] else if nkc.length > 1 then nkc.take 1 else nkc
    assertThat (!(kc.isEmpty && nkc.isEmpty)) "!(kPathCovering.empty() && nonKPathCovering.empty())"
    pure ((kc, nkc), st)

/-- `Grammar::kPathCoveringOrMinimalExpansion`. -/
def kPathCoveringOrMinimalExpansion : List Ref → Nat → CoverState →
    Except Fault ((List Value × List Value) × CoverState)
  | _, 0, _ => throw (.thrown "depth limit reached zero")
  | path, d + 1, st => G.kPathCoveringStep k (fun p s => kPathCoveringOrMinimalExpansion p d s) path (d + 1) st

/-- The while loop of `Grammar::kPathCovering`, for at most `fuel` turns. -/
def kPathCoveringLoop (rule : Symbol) : Nat → Nat → CoverState → List Value → Except Fault (List Value)
  | 0, _, _, _ => throw .outOfFuel
  | fuel + 1, depthLimit, st, res =>
    if st.paths.isEmpty then pure res else do
      let rootRef ← G.getRootRef rule
      let ((kc, _), st) ← G.kPathCoveringOrMinimalExpansion k [rootRef] depthLimit st
      if kc.isEmpty then kPathCoveringLoop rule fuel (depthLimit + 1) st res
      else kPathCoveringLoop rule fuel depthLimit st (kc.foldl (fun s v => setInsert Value.comparator v s) res)

/-- `Grammar::kPathCovering`, with at most `fuel` turns of its loop. -/
def kPathCovering (fuel : Nat) (rule : Symbol) (specs : ParamSpecs) : Except Fault (List Value) := do
  let paths ← G.generateKPathSet k rule specs
  G.kPathCoveringLoop k rule fuel k ⟨⟨specs, []⟩, paths⟩ []

/-- `Grammar::kPathCoverings`: the first parameter's values each make a map, and each later parameter's values are
zipped cyclically into the maps. -/
def kPathCoverings (fuel : Nat) (specs : ParamSpecs) : Except Fault (List Params) :=
  specs.foldlM (fun res spec => do
    let vals ← G.kPathCovering k fuel spec.2 specs
    if res.isEmpty then pure (vals.foldl (fun s v => setInsert Params.comparator [(spec.1, v)] s) res)
    else extendByCyclingParams res spec.1 vals) []

end Grammar

end Photesthesis
