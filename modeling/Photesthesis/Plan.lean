import Photesthesis.Value
import Mathlib.Data.List.Forall2

/-!
# Plans

A `Plan` (`corpus.h`, `corpus.cpp`) names a test and binds each of its parameters to a value; it is manual when
written by hand, and keeps the comments read with it. A value generated from a rule is a list headed by the rule's
symbol, so `getParamSpecs` recovers from a plan the `ParamSpecs` it was generated from (`headSymbol`).

`ParamSpecs` and `Params` are `std::map`s, listed here in key order; `mapEmplace` is their `emplace`.
-/

namespace Photesthesis

/-- `ParamSpecs`: the rule each parameter is generated from, in key order. -/
abbrev ParamSpecs := List (Symbol × Symbol)

/-- `Params`: the value of each parameter, in key order. -/
abbrev Params := List (Symbol × Value)

/-- `std::map<K, V>::emplace(key, v)` on a map listed in key order: nothing happens when the key is there. -/
def mapEmplace {α β : Type} (c : Comparator α) (key : α) (v : β) : List (α × β) → List (α × β)
  | [] => [(key, v)]
  | (k', v') :: m =>
    if c.lt key k' then (key, v) :: (k', v') :: m
    else if c.lt k' key then (k', v') :: mapEmplace c key v m
    else (k', v') :: m

/-- `std::set<Params>`'s order: the lexicographic order of the maps' entries. -/
def Params.comparator : Comparator Params := (Symbol.comparator.prod Value.comparator).lex

/-- `headSymbol(Value)`: the symbol at the head of a list. -/
def headSymbol : Value → Except Fault Symbol
  | .pair (.last (.sym s)) => .ok s
  | .pair (.cons (.sym s) _) => .ok s
  | _ => .error (.thrown "expected head symbol in list")

/-- A value headed by the symbol `rule` gives `rule` back. -/
@[simp] theorem headSymbol_ofList (rule : Symbol) (xs : List Value) :
    headSymbol (.ofList (.sym rule :: xs)) = .ok rule := by
  cases xs <;> rfl

/-- A `Plan`: the test's name, whether it was written by hand (`mIsManual`), the comments read with it, and the
parameters' values. -/
structure Plan where
  testName : Symbol
  isManual : Bool
  comments : List (List Char)
  params : Params
  deriving DecidableEq

namespace Plan

/-- `Plan(TestName)`: no parameters yet. -/
def ofName (tname : Symbol) : Plan := ⟨tname, false, [], []⟩

/-- `Plan(TestName, Params const&)`. -/
def ofParams (tname : Symbol) (params : Params) : Plan := ⟨tname, false, [], params⟩

/-- `Plan::addParam`: a parameter already bound keeps its value. -/
def addParam (p : Plan) (name : Symbol) (v : Value) : Plan :=
  { p with params := mapEmplace Symbol.comparator name v p.params }

/-- `Plan::getParamSpecs`: each parameter, with the head symbol of its value. -/
def getParamSpecs (p : Plan) : Except Fault ParamSpecs :=
  p.params.mapM fun pair => do
    let rule ← headSymbol pair.2
    pure (pair.1, rule)

end Plan

/-! ## Binding parameters -/

/-- The map binds the parameters of `specs`, in order, each to a value headed by its rule. -/
def BindsSpecs (m : Params) (specs : ParamSpecs) : Prop :=
  List.Forall₂ (fun pair spec => pair.1 = spec.1 ∧ headSymbol pair.2 = .ok spec.2) m specs

theorem getParamSpecs_of_bindsSpecs {p : Plan} {specs : ParamSpecs} (h : BindsSpecs p.params specs) :
    p.getParamSpecs = .ok specs := by
  unfold Plan.getParamSpecs
  generalize p.params = m at h ⊢
  induction h with
  | nil => rfl
  | @cons pair spec _ _ hps _ ih =>
    rw [List.mapM_cons, hps.2, ih, hps.1]
    rfl

theorem BindsSpecs.key_mem {m : Params} {specs : ParamSpecs} (h : BindsSpecs m specs) :
    ∀ pair ∈ m, ∃ spec ∈ specs, pair.1 = spec.1 := by
  induction h with
  | nil => simp
  | cons hps _ ih =>
    intro pair hp
    rcases List.mem_cons.mp hp with rfl | hp
    · exact ⟨_, List.mem_cons_self _ _, hps.1⟩
    · obtain ⟨spec, hs, he⟩ := ih pair hp
      exact ⟨spec, List.mem_cons_of_mem _ hs, he⟩

/-- `emplace` of a key above every key of the map adds it at the end. -/
theorem mapEmplace_of_lt {α β : Type} {c : Comparator α} {key : α} {v : β} :
    ∀ {m : List (α × β)}, (∀ p ∈ m, c.lt p.1 key = true ∧ c.lt key p.1 = false) → mapEmplace c key v m = m ++ [(key, v)]
  | [], _ => rfl
  | (k', v') :: m, h => by
    have ⟨h₁, h₂⟩ := h (k', v') (List.mem_cons_self _ _)
    simp only [mapEmplace, h₂, h₁, if_true, Bool.false_eq_true, if_false, List.cons_append]
    rw [mapEmplace_of_lt fun p hp => h p (List.mem_cons_of_mem _ hp)]

/-- The keys after an `emplace`: the new key and the old ones. -/
theorem mem_keys_mapEmplace {α β : Type} {c : Comparator α} {key x : α} {v : β} :
    ∀ {m : List (α × β)}, x ∈ (mapEmplace c key v m).map Prod.fst → x = key ∨ x ∈ m.map Prod.fst
  | [], h => by simpa [mapEmplace] using h
  | (k', v') :: m, h => by
    unfold mapEmplace at h
    split at h
    · simpa using h
    · split at h
      · simp only [List.map_cons, List.mem_cons] at h ⊢
        rcases h with h | h
        · exact .inr (.inl h)
        · rcases mem_keys_mapEmplace h with h | h
          · exact .inl h
          · exact .inr (.inr h)
      · exact .inr h


/-- The pairs after an `emplace`: the new pair and the old ones. -/
theorem mem_mapEmplace {α β : Type} {c : Comparator α} {key : α} {v : β} {x : α × β} :
    ∀ {m : List (α × β)}, x ∈ mapEmplace c key v m → x = (key, v) ∨ x ∈ m
  | [], h => by simpa [mapEmplace] using h
  | (k', v') :: m, h => by
    unfold mapEmplace at h
    split at h
    · simpa using h
    · split at h
      · rcases List.mem_cons.mp h with h | h
        · exact .inr (h ▸ List.mem_cons_self _ _)
        · exact (mem_mapEmplace h).imp_right (List.mem_cons_of_mem _)
      · exact .inr h


/-- A key that is not there is emplaced between the pairs before it and those after it. -/
theorem mapEmplace_of_not_mem {α β : Type} {c : Comparator α} {key : α} {v : β} : ∀ {m : List (α × β)},
    key ∉ m.map Prod.fst → ∃ l₁ l₂, m = l₁ ++ l₂ ∧ mapEmplace c key v m = l₁ ++ (key, v) :: l₂
  | [], _ => ⟨[], [], rfl, rfl⟩
  | (k', v') :: m, h => by
    simp only [List.map_cons, List.mem_cons, not_or] at h
    unfold mapEmplace
    split
    · exact ⟨[], _, rfl, rfl⟩
    · split
      · obtain ⟨l₁, l₂, rfl, he⟩ := mapEmplace_of_not_mem h.2
        exact ⟨(k', v') :: l₁, l₂, rfl, by rw [he]; rfl⟩
      · next h₁ h₂ => exact absurd (c.eq_of_not_lt (by simpa using h₂) (by simpa using h₁)) (Ne.symm h.1)

/-- Emplacing a key that is in neither map gives different maps from different maps or values. -/
theorem mapEmplace_inj {α β : Type} {c : Comparator α} {key : α} {v v' : β} {m m' : List (α × β)}
    (hm : key ∉ m.map Prod.fst) (hm' : key ∉ m'.map Prod.fst) (h : mapEmplace c key v m = mapEmplace c key v' m') :
    m = m' ∧ v = v' := by
  obtain ⟨l₁, l₂, rfl, he⟩ := mapEmplace_of_not_mem (c := c) (v := v) hm
  obtain ⟨l₁', l₂', rfl, he'⟩ := mapEmplace_of_not_mem (c := c) (v := v') hm'
  have hout : ∀ l : List (α × β), key ∉ l.map Prod.fst → (key, v') ∉ l := fun l hl hin =>
    hl (List.mem_map.mpr ⟨_, hin, rfl⟩)
  rw [List.map_append] at hm
  rw [he, he', List.append_cons_inj_of_not_mem (hout l₁ fun h => hm (List.mem_append_left _ h))
    (hout l₂ fun h => hm (List.mem_append_right _ h))] at h
  obtain ⟨rfl, hv, rfl⟩ := h
  exact ⟨rfl, (Prod.mk.inj hv).2⟩

/-- Binding one more parameter, above the others, to a value of its rule. -/
theorem BindsSpecs.mapEmplace {m : Params} {done : ParamSpecs} {x : Symbol × Symbol} {v : Value}
    (hb : BindsSpecs m done) (hlt : ∀ y ∈ done, y.1.lt x.1 = true) (hv : headSymbol v = .ok x.2) :
    BindsSpecs (mapEmplace Symbol.comparator x.1 v m) (done ++ [x]) := by
  rw [mapEmplace_of_lt fun p hp => ?_]
  · exact List.rel_append hb (.cons ⟨rfl, hv⟩ .nil)
  · obtain ⟨y, hy, he⟩ := hb.key_mem p hp
    exact ⟨he ▸ hlt y hy, he ▸ Symbol.lt_asymm (hlt y hy)⟩

end Photesthesis
