import Photesthesis.Order
import Photesthesis.Plan

/-!
# Matching a value against targets

`Value::match` decomposes a value into C++ variables, its targets. A target is one of three kinds. A `Value&`
captures anything. A capture slot `T&`, for a `T` that a `TypedValue` holds, takes a value of that type. An
equality witness `T const&` matches a value equal to it. One target is matched against the value itself. Two or more
are matched against the elements of a list by `PairValue::match(head, tail...)`, which returns
`pair.first.match(head) && (!pair.second || pair.second->match(tail...))`.

The matching is the pairwise one of the elements and the targets (`PairValue.matchTargets_eq`, `matchZip_true_iff`),
but only as far as the shorter of the two goes. A list with fewer elements than targets matches when its elements
do, and the targets after them keep what they held (`matchTargets_short_list`). `headSymbol` is the match of a
symbol slot and a `Value` capture (`headSymbol_eq_matchTargets`).

The `Matcher<T>` targets, which run client code, are not modelled. Nor is an equality witness of the type
`std::pair<Value, std::shared_ptr<const PairValue>>`, which compares pointers.
-/

namespace Photesthesis

/-! ## Targets -/

/-- A capture slot `T& out`, for a `T` that a `TypedValue` holds (the pair of a list cell, `Symbol`, `bool`,
`int64_t`, a byte vector or `std::string`): the value it holds, which is never `Nil`. -/
structure Slot where
  out : Value
  typed : out.getType ≠ 0
  deriving DecidableEq

/-- A target of `Value::match`, with what it holds. -/
inductive Target where
  /-- `Value& out`. -/
  | value (out : Value)
  /-- `T& out` for a type of a `TypedValue`. -/
  | capture (slot : Slot)
  /-- `T const& v`, a `Value` or a value of a type of a `TypedValue`. -/
  | equal (v : Value)
  deriving DecidableEq

/-- One target matched against a value: whether it matches, and the target after. `Value::match(Value&)` stores
any value. `Value::matchOne(T&)` is `mImpl && mImpl->match(out)`, which only the `TypedValue` of the slot's type
overrides to store its value. `Value::matchOne(T const&)` matches into a copy and compares the copy with
`operator==`. -/
def Target.matchOne : Target → Value → Bool × Target
  | .value _, v => (true, .value v)
  | .capture s, v =>
    if h : v.getType = s.out.getType then (true, .capture ⟨v, h ▸ s.typed⟩) else (false, .capture s)
  | .equal w, v => (v.beq w, .equal w)

/-! ## The variadic match -/

/-- `PairValue::match(head, tail...)`, and `PairValue::match(v)` for the last target: the head against the first
target, and the other targets against the tail when there is one. -/
def PairValue.matchTargets : PairValue → Target → List Target → Bool × List Target
  | .last h, t, [] | .cons h _, t, [] => ((t.matchOne h).1, [(t.matchOne h).2])
  | .last h, t, u :: us => ((t.matchOne h).1, (t.matchOne h).2 :: u :: us)
  | .cons h tl, t, u :: us =>
    if (t.matchOne h).1 then ((tl.matchTargets u us).1, (t.matchOne h).2 :: (tl.matchTargets u us).2)
    else (false, (t.matchOne h).2 :: u :: us)

/-- `Value::match`. With no target (`Value::match()`) it matches. One target (`Value::match(T&)`,
`Value::match(T const&)`) is matched against the value. Two or more (`Value::match(head, tail...)`) are matched
against a list by `PairValue::match`, and any other value fails. -/
def Value.matchTargets : Value → List Target → Bool × List Target
  | _, [] => (true, [])
  | v, [t] => ((t.matchOne v).1, [(t.matchOne v).2])
  | .pair p, t :: u :: us => p.matchTargets t (u :: us)
  | _, t :: u :: us => (false, t :: u :: us)

/-! ## The pairwise match -/

/-- Elements matched against targets in turn, until one fails or the elements or the targets run out; the targets
not reached keep what they held. -/
def matchZip : List Value → List Target → Bool × List Target
  | v :: vs, t :: ts =>
    if (t.matchOne v).1 then ((matchZip vs ts).1, (t.matchOne v).2 :: (matchZip vs ts).2)
    else (false, (t.matchOne v).2 :: ts)
  | _, ts => (true, ts)

@[simp] theorem matchZip_nil_right (vs : List Value) : matchZip vs [] = (true, []) := by
  cases vs <;> rfl

theorem bool_pair_ite {α : Type} (b : Bool) (x : α) : (b, x) = if b then (true, x) else (false, x) := by
  cases b <;> rfl

/-- `PairValue::match` is the pairwise match of the list's elements with the targets. -/
theorem PairValue.matchTargets_eq : ∀ (p : PairValue) (t : Target) (ts : List Target),
    p.matchTargets t ts = matchZip p.toList (t :: ts)
  | .last h, t, [] | .cons h _, t, [] | .last h, t, _ :: _ => by
    simp only [PairValue.matchTargets, PairValue.toList, matchZip, matchZip_nil_right]
    exact bool_pair_ite _ _
  | .cons h tl, t, u :: us => by
    simp only [PairValue.matchTargets, PairValue.toList, matchZip, PairValue.matchTargets_eq tl u us]

/-- With two targets or more, `Value::match` fails on a value that is not a list and is the pairwise match of a
list's elements. -/
theorem Value.matchTargets_cons_cons (v : Value) (t u : Target) (us : List Target) :
    v.matchTargets (t :: u :: us) = if v.elems = [] then (false, t :: u :: us) else matchZip v.elems (t :: u :: us) := by
  cases v with
  | pair p =>
    have hne : p.toList ≠ [] := by cases p <;> simp [PairValue.toList]
    simp [Value.matchTargets, Value.elems, hne, PairValue.matchTargets_eq]
  | _ => rfl

/-- The pairwise match succeeds exactly when each element up to the shorter end matches its target, storing what
the target holds after; the targets past the elements are left as they were. -/
theorem matchZip_true_iff : ∀ {vs : List Value} {ts out : List Target},
    matchZip vs ts = (true, out) ↔
      List.Forall₂ (fun e o => e.2.matchOne e.1 = (true, o)) (vs.zip ts) (out.take vs.length) ∧
        out.drop vs.length = ts.drop vs.length
  | [], ts, out => by simp [matchZip, eq_comm]
  | _ :: _, [], out => by
    simp only [matchZip_nil_right, Prod.mk.injEq, true_and, List.zip_nil_right, List.forall₂_nil_left_iff,
      List.take_eq_nil_iff, List.drop_nil, List.drop_eq_nil_iff]
    constructor
    · rintro rfl; simp
    · rintro ⟨h | h, -⟩
      · simp at h
      · exact h.symm
  | v :: vs, t :: ts, out => by
    have ih := @matchZip_true_iff vs ts
    rcases hm : t.matchOne v with ⟨_ | _, t'⟩ <;> rcases hz : matchZip vs ts with ⟨b, r⟩ <;>
      cases out <;> simp_all [matchZip]
    rw [and_assoc, ← ih]
    tauto

/-- With two targets or more, `Value::match` succeeds exactly on a list whose elements up to the shorter end match
their targets; the targets past the elements are left as they were. -/
theorem Value.matchTargets_true_iff (v : Value) (t u : Target) (us out : List Target) :
    v.matchTargets (t :: u :: us) = (true, out) ↔ v.elems ≠ [] ∧
      List.Forall₂ (fun e o => e.2.matchOne e.1 = (true, o)) (v.elems.zip (t :: u :: us)) (out.take v.elems.length) ∧
        out.drop v.elems.length = (t :: u :: us).drop v.elems.length := by
  rw [Value.matchTargets_cons_cons]
  split <;> simp [*, matchZip_true_iff]

/-- `headSymbol(Value)` matches a symbol slot holding the empty symbol and a `Value` capture, and returns the
symbol. -/
theorem headSymbol_eq_matchTargets (v : Value) :
    headSymbol v = match v.matchTargets [.capture ⟨.sym ⟨[], rfl⟩, by decide⟩, .value .nil] with
      | (true, .capture ⟨.sym s, _⟩ :: _) => .ok s
      | _ => .error (.thrown "expected head symbol in list") := by
  cases v with
  | pair p => rcases p with ⟨h⟩ | ⟨h, tl⟩ <;> cases h <;> (try cases tl) <;> rfl
  | _ => rfl

/-! ## A list shorter than its targets -/

/-- `(add 0).match(ADD, b, c)` with `Value` captures `b` and `c` succeeds on a list of two elements: `b` gets `0`
and `c` keeps the `Nil` it held. -/
theorem matchTargets_short_list :
    let add : Value := .sym ⟨"add".toList, by decide⟩
    let zero : Value := .int64 ⟨0, by decide, by decide⟩
    (Value.ofList [add, zero]).elems.length < 3 ∧
      (Value.ofList [add, zero]).matchTargets [.equal add, .value .nil, .value .nil] =
        (true, [.equal add, .value zero, .value .nil]) := by
  decide

end Photesthesis
