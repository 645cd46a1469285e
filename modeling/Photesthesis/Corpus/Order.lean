import Photesthesis.Corpus.State
import Photesthesis.Order

/-!
# The orders of plans and transcripts

`Plan::operator<` compares the test names, the manual flags and the numbers of parameters, then loops over the
parameters comparing their names and the sizes of their values (`Value::getSize`), and last compares
`std::tie(mParams, mComments)`. `Value::getSize` is not in the repository, so the order is defined for every
`getSize`. It is the lexicographic order of what it reads (`Plan.lt_eq_key`), and so has the laws of a strict total
order for every `getSize` (`Plan.orderLaws`); so has `Transcript::operator<`, `std::tie(mPlan, mVars)`, which the
corpus's sets use (`Transcript.orderLaws`).

With a transitive order of plans, `addTranscript` and `updateTranscript` keep every set of the corpus listed in
strictly increasing order (`Corpus.Reachable.sorted`): the lists of the model are the `std::set`s of the code.
-/

namespace Photesthesis

/-- The order of `size_t`. -/
def Nat.comparator : Comparator Nat := ⟨fun a b => decide (a < b), fun _ => by simp, fun h₁ h₂ => by
  simp only [decide_eq_false_iff_not, Nat.not_lt] at h₁ h₂
  omega⟩

@[simp] theorem Comparator.prod_lt {α β : Type} (c : Comparator α) (d : Comparator β) (x y : α × β) :
    (c.prod d).lt x y = (c.lt x.1 y.1 || (!c.lt y.1 x.1 && d.lt x.2 y.2)) := rfl

/-- `std::vector<T>::operator==` with the elements compared by `eq`. -/
def listBeq {α : Type} (eq : α → α → Bool) : List α → List α → Bool
  | [], [] => true
  | a :: as, b :: bs => eq a b && listBeq eq as bs
  | _, _ => false

theorem listBeq_iff {α : Type} {eq : α → α → Bool} (h : ∀ a b, eq a b = true ↔ a = b) :
    ∀ {l m : List α}, listBeq eq l m = true ↔ l = m
  | [], [] | [], _ :: _ | _ :: _, [] => by simp [listBeq]
  | a :: l, b :: m => by simp [listBeq, h, listBeq_iff h]

theorem Bool.comparator_transitive : Bool.comparator.Transitive :=
  ⟨fun {a b d} => by cases a <;> cases b <;> cases d <;> simp [Bool.comparator]⟩

theorem Nat.comparator_transitive : Nat.comparator.Transitive :=
  ⟨fun h₁ h₂ => by simp only [Nat.comparator, decide_eq_true_eq] at *; omega⟩

theorem Char.comparator_transitive : Char.comparator.Transitive :=
  ⟨fun h₁ h₂ => by simp only [Char.comparator, decide_eq_true_eq] at *; exact Char.lt_trans h₁ h₂⟩

theorem Params.comparator_transitive : Params.comparator.Transitive :=
  (Symbol.comparator_transitive.prod Value.comparator_transitive).lex

section Plans

variable (getSize : Value → Nat)

/-- The loop of `Plan::operator<` over the parameters of two plans with as many: at the first position whose names
differ, or else whose values' sizes differ, the smaller decides (`some`); `none` when the loop ends. -/
def Plan.sizeLoop : Params → Params → Option Bool
  | (k, v) :: ps, (k', v') :: qs =>
    if k.lt k' then some true else if k'.lt k then some false
    else if getSize v < getSize v' then some true else if getSize v' < getSize v then some false
    else Plan.sizeLoop ps qs
  | _, _ => none

/-- `Plan::operator<`. -/
def Plan.lt (p q : Plan) : Bool :=
  if p.testName.lt q.testName then true else if q.testName.lt p.testName then false
  else if Bool.comparator.lt p.isManual q.isManual then true
  else if Bool.comparator.lt q.isManual p.isManual then false
  else if p.params.length < q.params.length then true else if q.params.length < p.params.length then false
  else match Plan.sizeLoop getSize p.params q.params with
    | some b => b
    | none => (Params.comparator.prod Char.comparator.lex.lex).lt (p.params, p.comments) (q.params, q.comments)

/-- What `Plan::operator<` reads, in the order it reads it. -/
def Plan.key (p : Plan) : Symbol × Bool × Nat × List (Symbol × Nat) × Params × List (List Char) :=
  (p.testName, p.isManual, p.params.length, p.params.map (fun e => (e.1, getSize e.2)), p.params, p.comments)

/-- The lexicographic order of the keys. -/
def Plan.keyOrder : Comparator (Symbol × Bool × Nat × List (Symbol × Nat) × Params × List (List Char)) :=
  Symbol.comparator.prod (Bool.comparator.prod (Nat.comparator.prod
    ((Symbol.comparator.prod Nat.comparator).lex.prod (Params.comparator.prod Char.comparator.lex.lex))))

theorem Plan.keyOrder_transitive : Plan.keyOrder.Transitive :=
  Symbol.comparator_transitive.prod (Bool.comparator_transitive.prod (Nat.comparator_transitive.prod
    ((Symbol.comparator_transitive.prod Nat.comparator_transitive).lex.prod
      (Params.comparator_transitive.prod Char.comparator_transitive.lex.lex))))

/-- A test that decides, then one that refutes, then the rest: the pattern of each comparison of the code. -/
theorem ite_true_false (a b r : Bool) : (if a = true then true else if b = true then false else r) = (a || (!b && r)) := by
  cases a <;> cases b <;> rfl

/-- The loop over the parameters is the lexicographic order of their names and sizes, before the tie. -/
theorem Plan.sizeLoop_eq : ∀ {ps qs : Params} (r : Bool), ps.length = qs.length →
    (match Plan.sizeLoop getSize ps qs with
      | some b => b
      | none => r) =
    ((Symbol.comparator.prod Nat.comparator).lex.lt (ps.map (fun e => (e.1, getSize e.2)))
        (qs.map (fun e => (e.1, getSize e.2))) ||
      (!(Symbol.comparator.prod Nat.comparator).lex.lt (qs.map (fun e => (e.1, getSize e.2)))
        (ps.map (fun e => (e.1, getSize e.2))) && r))
  | [], [], r, _ => by simp [Plan.sizeLoop, Comparator.lex, lexLt]
  | [], _ :: _, _, h | _ :: _, [], _, h => by simp at h
  | (k, v) :: ps, (k', v') :: qs, r, h => by
    have ih := @Plan.sizeLoop_eq ps qs r (by simpa using h)
    simp only [Plan.sizeLoop, List.map_cons, Comparator.lex, lexLt, Comparator.prod_lt, Nat.comparator,
      Symbol.comparator] at ih ⊢
    cases h₁ : k.lt k' <;> cases h₂ : k'.lt k <;> by_cases h₃ : getSize v < getSize v' <;>
      by_cases h₄ : getSize v' < getSize v <;> simp [h₃, h₄, ih]

/-- `Plan::operator<` is the lexicographic order of the keys. -/
theorem Plan.lt_eq_key (p q : Plan) : Plan.lt getSize p q = Plan.keyOrder.lt (p.key getSize) (q.key getSize) := by
  simp only [Plan.lt, Plan.key, Plan.keyOrder, Comparator.prod_lt, ite_true_false]
  congr 2
  congr 1
  by_cases hl : p.params.length = q.params.length
  · rw [Plan.sizeLoop_eq getSize _ hl]
    simp [Nat.comparator, hl]
  · rcases Nat.lt_or_gt_of_ne hl with h | h <;> simp [Nat.comparator, h, Nat.lt_asymm h]

/-- The key of a plan holds the plan. -/
theorem Plan.key_injective {p q : Plan} (h : p.key getSize = q.key getSize) : p = q := by
  obtain ⟨_, _, _, _⟩ := p
  obtain ⟨_, _, _, _⟩ := q
  simp only [Plan.key, Prod.mk.injEq] at h
  simp [h]

/-- `Plan::operator<` as a comparator. -/
def Plan.comparator : Comparator Plan where
  lt := Plan.lt getSize
  irrefl p := by rw [Plan.lt_eq_key]; exact Plan.keyOrder.irrefl _
  eq_of_not_lt {p q} h₁ h₂ := by
    rw [Plan.lt_eq_key] at h₁ h₂
    exact Plan.key_injective getSize (Plan.keyOrder.eq_of_not_lt h₁ h₂)

theorem Plan.comparator_transitive : (Plan.comparator getSize).Transitive := by
  refine ⟨fun {p q r} h₁ h₂ => ?_⟩
  simp only [Plan.comparator, Plan.lt_eq_key] at h₁ h₂ ⊢
  exact Plan.keyOrder_transitive.trans h₁ h₂

end Plans

/-- `Plan::operator==`: `std::tie(mTestName, mIsManual, mParams, mComments)`, the parameters compared with
`Symbol::operator==` and `Value::operator==`. -/
def Plan.beq (p q : Plan) : Bool :=
  p.testName == q.testName && p.isManual == q.isManual &&
    listBeq (fun a b => a.1 == b.1 && a.2.beq b.2) p.params q.params && listBeq (· == ·) p.comments q.comments

/-- `Transcript::operator==`: `std::tie(mPlan, mVars)`. -/
def Transcript.beq (a b : Transcript) : Bool :=
  a.plan.beq b.plan && listBeq (fun x y => x.1 == y.1 && x.2.1.beq y.2.1 && x.2.2 == y.2.2) a.vars b.vars

theorem Plan.beq_iff_eq {p q : Plan} : p.beq q = true ↔ p = q := by
  obtain ⟨_, _, _, _⟩ := p
  obtain ⟨_, _, _, _⟩ := q
  simp [Plan.beq, listBeq_iff, Value.beq_iff_eq, Prod.ext_iff]
  tauto

theorem Transcript.beq_iff_eq {a b : Transcript} : a.beq b = true ↔ a = b := by
  obtain ⟨_, _⟩ := a
  obtain ⟨_, _⟩ := b
  simp [Transcript.beq, Plan.beq_iff_eq, listBeq_iff, Value.beq_iff_eq, Prod.ext_iff]

/-- `Plan::operator<` with `Plan::operator==`, for every `Value::getSize`. -/
theorem Plan.orderLaws (getSize : Value → Nat) : OrderLaws (Plan.lt getSize) Plan.beq :=
  (Plan.comparator getSize).orderLaws (Plan.comparator_transitive getSize) fun _ _ => Plan.beq_iff_eq

/-- `Transcript::operator<` is transitive when the order of plans is. -/
theorem Transcript.comparator_transitive {planCmp : Comparator Plan} (hT : planCmp.Transitive) :
    (Transcript.comparator planCmp).Transitive :=
  ⟨fun h₁ h₂ => (hT.prod (Symbol.comparator_transitive.prod
    (Value.comparator_transitive.prod Bool.comparator_transitive)).lex).trans h₁ h₂⟩

/-- `Transcript::operator<` with `Transcript::operator==`, for every `Value::getSize`. -/
theorem Transcript.orderLaws (getSize : Value → Nat) :
    OrderLaws (Transcript.comparator (Plan.comparator getSize)).lt Transcript.beq :=
  (Transcript.comparator (Plan.comparator getSize)).orderLaws
    (Transcript.comparator_transitive (Plan.comparator_transitive getSize)) fun _ _ => Transcript.beq_iff_eq

/-- `Value::operator<`, `Plan::operator<` and `Transcript::operator<` are strict total orders that agree with their
`operator==`, whatever `Value::getSize` is; the cached length of a list is its length; and interning makes two
symbols the same pointer exactly when their texts are equal. -/
theorem orders_strictTotal :
    OrderLaws Value.lt Value.beq ∧ (∀ p : PairValue, p.mLength = p.toList.length) ∧
    (∀ (ss : List (List Char)) (ps : List Nat) (t : InternTable), InternTable.internAll ⟨[], 0⟩ ss = .ok (ps, t) →
      ∃ addr : List Char → Nat, ps = ss.map addr ∧ ∀ s ∈ ss, ∀ s' ∈ ss, addr s = addr s' → s = s') ∧
    ∀ getSize : Value → Nat, OrderLaws (Plan.lt getSize) Plan.beq ∧
      OrderLaws (Transcript.comparator (Plan.comparator getSize)).lt Transcript.beq :=
  ⟨Value.orderLaws, PairValue.mLength_eq, fun _ _ _ => InternTable.internAll_addr,
    fun getSize => ⟨Plan.orderLaws getSize, Transcript.orderLaws getSize⟩⟩

/-! ## The keys of the corpus are ordered -/

section Keys

variable {α β : Type} {c : Comparator α} {key : α} {v : β}

/-- `emplace` keeps the keys of a map in increasing order. -/
theorem mapEmplace_pairwise (hT : c.Transitive) : ∀ {m : List (α × β)},
    m.Pairwise (fun a b => c.lt a.1 b.1 = true) → (mapEmplace c key v m).Pairwise (fun a b => c.lt a.1 b.1 = true)
  | [], _ => List.pairwise_singleton _ _
  | (k', v') :: m, hm => by
    obtain ⟨hk, hm'⟩ := List.pairwise_cons.mp hm
    unfold mapEmplace
    split
    · next hlt =>
      refine List.pairwise_cons.mpr ⟨fun z hz => ?_, hm⟩
      rcases List.mem_cons.mp hz with rfl | hz
      · exact hlt
      · exact hT.trans hlt (hk z hz)
    · split
      · next hgt =>
        refine List.pairwise_cons.mpr ⟨fun z hz => ?_, mapEmplace_pairwise hT hm'⟩
        rcases mem_mapEmplace hz with rfl | hz
        · exact hgt
        · exact hk z hz
      · exact hm

/-- `m[key] = v` keeps the keys of a map in increasing order. -/
theorem mapPut_pairwise [DecidableEq α] (hT : c.Transitive) {m : List (α × β)} (hm : m.Pairwise (fun a b => c.lt a.1 b.1 = true)) :
    (mapPut c key v m).Pairwise (fun a b => c.lt a.1 b.1 = true) := by
  have hkey : ∀ e : α × β, (if e.1 = key then (key, v) else e).1 = e.1 := fun e => by split <;> simp_all
  unfold mapPut
  split
  · exact List.pairwise_map.mpr (hm.imp fun {a b} h => by rwa [hkey a, hkey b])
  · exact mapEmplace_pairwise hT hm

end Keys

/-- Every corpus that `addTranscript` and `updateTranscript` reach lists its tests in increasing order of their
names, as the `std::map` does. -/
theorem Corpus.Reachable.keys_sorted {planCmp : Comparator Plan} {c : Corpus} (h : c.Reachable planCmp) :
    c.transcripts.Pairwise (fun a b => Symbol.comparator.lt a.1 b.1 = true) := by
  induction h with
  | empty => exact .nil
  | add _ h ih =>
    obtain ⟨_, -, h⟩ := bind_eq_ok.mp h
    cases h
    exact mapPut_pairwise Symbol.comparator_transitive ih
  | update _ h ih =>
    obtain ⟨_, -, h⟩ := bind_eq_ok.mp h
    obtain ⟨_, -, h⟩ := bind_eq_ok.mp h
    cases h
    exact mapPut_pairwise Symbol.comparator_transitive ih

/-! ## The sets of the corpus are ordered -/

namespace Corpus

variable {planCmp : Comparator Plan} {c c' : Corpus} {ts : Transcript}

/-- Every set of the corpus is listed in increasing order of `Transcript::operator<`. -/
def Sorted (planCmp : Comparator Plan) (c : Corpus) : Prop :=
  ∀ k, (c.getTranscripts k).Pairwise fun a b => (Transcript.comparator planCmp).lt a b = true

/-- Inserting into a part of the test's set keeps every set in order. -/
theorem Sorted.putTranscript (hT : planCmp.Transitive) (hc : c.Sorted planCmp) {tss : List Transcript}
    (hsub : tss.Sublist (c.getTranscripts ts.testName)) : (c.putTranscript planCmp ts tss).Sorted planCmp := by
  intro k
  rw [getTranscripts_putTranscript]
  split
  · exact setInsert_pairwise (Transcript.comparator_transitive hT) ((hc _).sublist hsub)
  · exact hc k

theorem Sorted.addTranscript (hT : planCmp.Transitive) (hc : c.Sorted planCmp)
    (h : c.addTranscript planCmp ts = .ok c') : c'.Sorted planCmp := by
  obtain ⟨_, -, h⟩ := bind_eq_ok.mp h
  cases h
  exact hc.putTranscript hT (List.Sublist.refl _)

theorem Sorted.updateTranscript (hT : planCmp.Transitive) (hc : c.Sorted planCmp)
    (h : c.updateTranscript planCmp ts = .ok c') : c'.Sorted planCmp := by
  obtain ⟨_, -, h⟩ := bind_eq_ok.mp h
  obtain ⟨_, -, h⟩ := bind_eq_ok.mp h
  cases h
  exact hc.putTranscript hT (List.eraseP_sublist _)

/-- Every corpus the two operations reach has its sets in order. -/
theorem Reachable.sorted (hT : planCmp.Transitive) (h : c.Reachable planCmp) : c.Sorted planCmp := by
  induction h with
  | empty => exact fun _ => .nil
  | add _ h ih => exact ih.addTranscript hT h
  | update _ h ih => exact ih.updateTranscript hT h

end Corpus

end Photesthesis
