import Photesthesis.Plan

/-!
# Grammars

A grammar (`grammar.h`) maps rule names to rules; a rule is a list of productions; a production is a list of atoms
with a set of context names it requires. An atom is a `Lit` of a value or a `Ref` to a rule, carrying names it adds
to the context below it. The engine compares atoms by pointer, so every atom carries an `id` standing for its
address: two atoms are the same node of the grammar exactly when they are equal here.

A `Context` is the global parameter names plus a stack of local names, pushed and popped around each `Ref` during
an expansion. `getActiveProductions` keeps the productions whose requirements the context meets, and at depth
limit `1` only those without refs (`mem_getActiveProductions`).
-/

namespace Photesthesis

/-- A `Ref`: its tag (the pointer it stands for), the rule it names and its context extension, the elements of the
`std::set<ParamName>` in order. -/
structure Ref where
  tag : Nat
  rule : Symbol
  ctxExt : List Symbol
  deriving DecidableEq

/-- An `Atom`: a `Lit` of a value (with the pointer it stands for) or a `Ref`. -/
inductive Atom where
  | lit (id : Nat) (value : Value)
  | ref (r : Ref)
  deriving DecidableEq

/-- A `Production`: its atoms and the context names it requires (`mCtxReq`). -/
structure Production where
  atoms : List Atom
  ctxReq : List Symbol
  deriving DecidableEq

/-- Whether an atom is a `Ref`. -/
def Atom.isRef : Atom → Bool
  | .lit _ _ => false
  | .ref _ => true

/-- `Production::mHasRefs`, which the constructor sets to whether some atom is a `Ref`. -/
def Production.mHasRefs (p : Production) : Bool := p.atoms.any Atom.isRef

/-- A `Rule`: its productions, in declaration order. -/
structure Rule where
  productions : List Production

/-- A `Grammar`: `mRules`, and `mRootRefs` as the tag of the root `Ref` that `addRule` made for each rule. -/
structure Grammar where
  rules : List (Symbol × Rule)
  rootRefs : List (Symbol × Nat)

/-- A k-path: atoms, compared by identity. -/
abbrev KPath := List Atom

namespace Grammar

variable (G : Grammar)

/-- `Grammar::addRule`, with `tag` the tag the root `Ref` receives. -/
def addRule (name : Symbol) (prods : List Production) (tag : Nat) : Except Fault Grammar :=
  if (G.rules.lookup name).isSome then .error (.thrown ("duplicate rule addition: " ++ name.getString))
  else .ok { rules := G.rules ++ [(name, ⟨prods⟩)], rootRefs := G.rootRefs ++ [(name, tag)] }

/-- The productions of a rule, none for an unknown rule. -/
def productionsOf (rule : Symbol) : List Production := ((G.rules.lookup rule).map Rule.productions).getD []

/-- `Grammar::getProductions`. -/
def getProductions (rule : Symbol) : Except Fault (List Production) :=
  match G.rules.lookup rule with
  | none => .error (.thrown ("rule not found: " ++ rule.getString))
  | some r => if r.productions.isEmpty then .error (.thrown ("rule has no productions: " ++ rule.getString))
    else .ok r.productions

/-- `Grammar::getRootRef`. -/
def getRootRef (rulename : Symbol) : Except Fault Ref :=
  match G.rootRefs.lookup rulename with
  | none => .error (.thrown ("unknown rule name: " ++ rulename.getString))
  | some tag => .ok ⟨tag, rulename, []⟩

/-- Every `Ref` of every production of the grammar. -/
def refs : List Ref :=
  G.rules.flatMap fun r => r.2.productions.flatMap fun p => p.atoms.filterMap fun
    | .ref r => some r
    | .lit _ _ => none

theorem getProductions_eq_ok {rule : Symbol} {prods : List Production} (h : G.getProductions rule = .ok prods) :
    prods = G.productionsOf rule := by
  unfold getProductions at h
  unfold productionsOf
  split at h
  · cases h
  · next r hr =>
    split at h
    · cases h
    · cases h; simp [hr]

theorem ref_mem_refs {rule : Symbol} {p : Production} {r : Ref} (hp : p ∈ G.productionsOf rule)
    (hr : Atom.ref r ∈ p.atoms) : r ∈ G.refs := by
  unfold productionsOf at hp
  cases hl : G.rules.lookup rule with
  | none => simp [hl] at hp
  | some rl =>
    simp only [hl, Option.map_some', Option.getD_some] at hp
    simp only [refs, List.mem_flatMap, List.mem_filterMap]
    exact ⟨(rule, rl), mem_of_lookup_eq_some hl, p, hp, .ref r, hr, rfl⟩

end Grammar

/-! ## Contexts -/

/-- A `Context`: the `ParamSpecs` whose names are global (`mGlobalParamSpecs`), and the local stack
`mLocalParamNames`, its top last. -/
structure Context where
  specs : ParamSpecs
  locals : List Symbol

namespace Context

/-- `Context::push(std::set<ParamName>)`: each name in turn. -/
def push (c : Context) (ps : List Symbol) : Context := { c with locals := c.locals ++ ps }

/-- `Context::pop(n)`: `n` times `pop_back` (a `pop_back` of an empty stack is undefined in the code; here it
stops at the empty stack). -/
def pop (c : Context) (n : Nat) : Context := { c with locals := c.locals.take (c.locals.length - n) }

/-- `Context::has(ParamName)`: a global name or one on the local stack. -/
def has (c : Context) (s : Symbol) : Bool := (c.specs.lookup s).isSome || c.locals.contains s

/-- `Context::has(std::set<ParamName>)`: every name of the set. -/
def hasAll (c : Context) (ss : List Symbol) : Bool := ss.all c.has

/-- The names in scope. -/
def names (c : Context) : List Symbol := c.specs.map Prod.fst ++ c.locals

@[simp] theorem push_specs (c : Context) (ps : List Symbol) : (c.push ps).specs = c.specs := rfl
@[simp] theorem push_locals (c : Context) (ps : List Symbol) : (c.push ps).locals = c.locals ++ ps := rfl
@[simp] theorem names_push (c : Context) (ps : List Symbol) : (c.push ps).names = c.names ++ ps := by
  simp [names]

/-- A pop of what was just pushed restores the context. -/
@[simp] theorem pop_push (c : Context) (ps : List Symbol) : (c.push ps).pop ps.length = c := by
  simp [push, pop]

theorem has_iff (c : Context) (s : Symbol) : c.has s = true ↔ s ∈ c.names := by
  simp only [has, Bool.or_eq_true, List.lookup_isSome_iff, beq_iff_eq, List.contains, List.elem_iff, names,
    List.mem_append, List.mem_map]
  constructor
  · rintro (⟨p, hp, rfl⟩ | h)
    · exact .inl ⟨p, hp, rfl⟩
    · exact .inr h
  · rintro (⟨p, hp, rfl⟩ | h)
    · exact .inl ⟨p, hp, rfl⟩
    · exact .inr h

theorem hasAll_iff (c : Context) (ss : List Symbol) : c.hasAll ss = true ↔ ss ⊆ c.names := by
  simp [hasAll, has_iff, List.subset_def]

/-- The context of the global parameters alone, which every generation starts from. -/
@[simp] theorem names_mk_nil (specs : ParamSpecs) : (Context.mk specs []).names = specs.map Prod.fst := by
  simp [names]

end Context

/-! ## Active productions -/

/-- Whether `getActiveProductions` keeps a production: not one with refs at depth limit `1`, and one whose
requirements the context has. -/
def Production.isActive (depthLimit : Nat) (context : Context) (p : Production) : Bool :=
  !(depthLimit == 1 && p.mHasRefs) && context.hasAll p.ctxReq

theorem Production.isActive_iff {depthLimit : Nat} {context : Context} {p : Production} :
    p.isActive depthLimit context = true ↔ ¬(depthLimit = 1 ∧ p.mHasRefs = true) ∧ p.ctxReq ⊆ context.names := by
  simp only [Production.isActive, Bool.and_eq_true, Bool.not_eq_true', Bool.and_eq_false_iff, beq_eq_false_iff_ne,
    Bool.not_eq_true, Context.hasAll_iff, not_and, ne_eq]
  constructor <;> rintro ⟨h₁, h₂⟩ <;> refine ⟨?_, h₂⟩
  · rcases h₁ with h | h <;> simp_all
  · by_cases h : depthLimit = 1 <;> simp_all

namespace Grammar

variable (G : Grammar)

/-- `Grammar::getActiveProductions`: the loop keeps the productions `isActive` accepts, and notes whether one was
skipped for its refs, which decides the message when none is kept. -/
def getActiveProductions (rule : Symbol) (depthLimit : Nat) (context : Context) :
    Except Fault (List Production) := do
  let prods ← G.getProductions rule
  let activeProds := prods.filter (Production.isActive depthLimit context)
  if activeProds.isEmpty then
    if depthLimit == 1 && prods.any Production.mHasRefs then
      throw (.thrown ("rule for " ++ rule.getString ++ " needs at least one nonterminal production"))
    else throw (.thrown ("no active productions found for " ++ rule.getString))
  else pure activeProds

variable {G}

/-- What `getActiveProductions` returns: productions of the rule, each active, and at least one. -/
theorem mem_getActiveProductions {rule : Symbol} {depthLimit : Nat} {context : Context}
    {prods : List Production} (h : G.getActiveProductions rule depthLimit context = .ok prods) :
    prods ≠ [] ∧ ∀ p ∈ prods, p ∈ G.productionsOf rule ∧ Production.isActive depthLimit context p = true := by
  unfold getActiveProductions at h
  cases hp : G.getProductions rule with
  | error e => simp [hp] at h; cases h
  | ok all =>
    simp only [hp, bind, Except.bind] at h
    split at h
    · split at h <;> cases h
    · next hne =>
      cases h
      refine ⟨by simpa using hne, fun p hm => ?_⟩
      rw [List.mem_filter] at hm
      exact ⟨getProductions_eq_ok G hp ▸ hm.1, hm.2⟩

/-- Every active production of the rule is returned, when the call returns. -/
theorem getActiveProductions_complete {rule : Symbol} {depthLimit : Nat} {context : Context}
    {prods : List Production} (h : G.getActiveProductions rule depthLimit context = .ok prods) {p : Production}
    (hp : p ∈ G.productionsOf rule) (ha : Production.isActive depthLimit context p = true) : p ∈ prods := by
  unfold getActiveProductions at h
  cases hg : G.getProductions rule with
  | error e => simp [hg] at h; cases h
  | ok all =>
    simp only [hg, bind, Except.bind] at h
    split at h
    · split at h <;> cases h
    · cases h
      exact List.mem_filter.mpr ⟨getProductions_eq_ok G hg ▸ hp, ha⟩

end Grammar

end Photesthesis
