import Photesthesis.Basic

/-!
# Values and their order

`Value` (`value.h`) is the S-expression-like payload of plans and transcripts: `Nil`, a proper list of
`PairValue` cells, a `Symbol`, a `Bool`, an `Int64`, a `Blob` of bytes or a `String`. A `PairValue` holds a head
and either no tail or another cell, so an improper list cannot be built.

`Value::operator<` (`Value.lt`) orders by variant first, lists by their cached length `mLength` and then element by
element. The ordered sets of the engine need two of its laws: it is irreflexive (`Value.lt_irrefl`), and two values
neither of which is below the other are equal (`Value.eq_of_not_lt`).
-/

namespace Photesthesis

/-! ## Symbols -/

/-- `isalnum(c) || c == '_'`: the characters `Symbol::intern` accepts. -/
def symbolChar (c : Char) : Bool := c.isAlphanum || c == '_'

/-- An interned identifier. `Symbol::intern` throws on any other character, and interning makes two symbols of
equal text the same pointer, so a symbol is its text. -/
structure Symbol where
  text : List Char
  valid : text.all symbolChar = true
  deriving DecidableEq

/-- `Symbol::operator<`: the texts, compared as `std::string`. -/
def Symbol.lt (a b : Symbol) : Bool := lexLt (fun x y => decide (x < y)) a.text b.text

/-- The text of a symbol, for messages. -/
def Symbol.getString (s : Symbol) : String := String.mk s.text

/-! ## Values -/

/-- An `int64_t`: an integer from `-2 ^ 63` to `2 ^ 63 - 1`. -/
structure Int64 where
  val : Int
  lo : -9223372036854775808 ≤ val
  hi : val < 9223372036854775808
  deriving DecidableEq

mutual
/-- `Value`: a null implementation pointer is `Nil`. -/
inductive Value where
  | nil
  | pair (p : PairValue)
  | sym (s : Symbol)
  | bool (b : Bool)
  | int64 (i : Int64)
  | blob (bytes : List UInt8)
  | string (s : List Char)
  deriving DecidableEq

/-- `PairValue`: a head and the tail cell, if any. -/
inductive PairValue where
  | last (head : Value)
  | cons (head : Value) (tail : PairValue)
  deriving DecidableEq
end

/-- `Value::getType`, as the number `static_cast<size_t>` gives it. -/
def Value.getType : Value → Nat
  | .nil => 0
  | .pair _ => 1
  | .sym _ => 2
  | .bool _ => 3
  | .int64 _ => 4
  | .blob _ => 5
  | .string _ => 6

/-- `PairValue::mLength`, which the constructor sets to one more than the tail's. -/
def PairValue.mLength : PairValue → Nat
  | .last _ => 1
  | .cons _ t => t.mLength + 1

/-- The elements of a list, head first. -/
def PairValue.toList : PairValue → List Value
  | .last h => [h]
  | .cons h t => h :: t.toList

/-- The cells `Value(std::vector<Value>)` builds for a non-empty vector `x :: xs`. -/
def PairValue.ofList (x : Value) : List Value → PairValue
  | [] => .last x
  | y :: ys => .cons x (PairValue.ofList y ys)

/-- `Value(std::vector<Value>)`: the empty vector is `Nil`. -/
def Value.ofList : List Value → Value
  | [] => .nil
  | x :: xs => .pair (PairValue.ofList x xs)

/-- The elements of a list value; `Nil` and the atoms have none. -/
def Value.elems : Value → List Value
  | .pair p => p.toList
  | _ => []

@[simp] theorem PairValue.toList_ofList (x : Value) (xs : List Value) : (PairValue.ofList x xs).toList = x :: xs := by
  induction xs generalizing x with
  | nil => rfl
  | cons y ys ih => simp [PairValue.ofList, PairValue.toList, ih]

@[simp] theorem Value.elems_ofList (xs : List Value) : (Value.ofList xs).elems = xs := by
  cases xs <;> simp [Value.ofList, Value.elems]

theorem PairValue.mLength_eq : ∀ p : PairValue, p.mLength = p.toList.length
  | .last _ => rfl
  | .cons _ t => by simp [PairValue.mLength, PairValue.toList, PairValue.mLength_eq t]

/-! ## The order -/

mutual
/-- `Value::operator<`. -/
def Value.lt : Value → Value → Bool
  | .nil, .nil => false
  | .pair p, .pair q =>
    if p.mLength < q.mLength then true else if q.mLength < p.mLength then false else p.ltElems q
  | .sym a, .sym b => a.lt b
  | .bool a, .bool b => !a && b
  | .int64 a, .int64 b => decide (a.val < b.val)
  | .blob a, .blob b => lexLt (fun x y => decide (x < y)) a b
  | .string a, .string b => lexLt (fun x y => decide (x < y)) a b
  | a, b => decide (a.getType < b.getType)
termination_by structural a => a

/-- The loop of `Value::operator<` over two lists of one length: the first heads that differ decide, and the list
that runs out of cells first (`!a && b`) is the smaller. -/
def PairValue.ltElems : PairValue → PairValue → Bool
  | .last a, .last b => a.lt b
  | .last a, .cons b _ => a.lt b || !a.gt b
  | .cons a _, .last b => a.lt b
  | .cons a t, .cons b u => a.lt b || (!a.gt b && t.ltElems u)
termination_by structural p => p

/-- `Value::operator<` with the arguments swapped (`b < a`), by recursion on `a`. The loop asks both `a < b` and
`b < a` of each pair of heads, and structural recursion follows one argument, so the second question has this copy
of the code; `Value.gt_eq_lt` shows it is `Value.lt b a`. -/
def Value.gt : Value → Value → Bool
  | .nil, .nil => false
  | .pair p, .pair q =>
    if q.mLength < p.mLength then true else if p.mLength < q.mLength then false else p.gtElems q
  | .sym a, .sym b => b.lt a
  | .bool a, .bool b => !b && a
  | .int64 a, .int64 b => decide (b.val < a.val)
  | .blob a, .blob b => lexLt (fun x y => decide (x < y)) b a
  | .string a, .string b => lexLt (fun x y => decide (x < y)) b a
  | a, b => decide (b.getType < a.getType)
termination_by structural a => a

/-- `q.ltElems p`, by recursion on `p`. -/
def PairValue.gtElems : PairValue → PairValue → Bool
  | .last a, .last b => a.gt b
  | .last a, .cons b _ => a.gt b
  | .cons a _, .last b => a.gt b || !a.lt b
  | .cons a t, .cons b u => a.gt b || (!a.lt b && t.gtElems u)
termination_by structural p => p
end

/-! The cases of `Value.lt` one at a time, each by `rfl`. Proofs rewrite with these rather than with the definition,
whose catch-all case splits into many overlapping equations. -/

@[simp] theorem Value.lt_nil : Value.nil.lt .nil = false := rfl

@[simp] theorem Value.lt_pair (p q : PairValue) : (Value.pair p).lt (.pair q) =
    if p.mLength < q.mLength then true else if q.mLength < p.mLength then false else p.ltElems q := rfl

@[simp] theorem Value.lt_sym (a b : Symbol) : (Value.sym a).lt (.sym b) = a.lt b := rfl

@[simp] theorem Value.lt_bool (a b : Bool) : (Value.bool a).lt (.bool b) = (!a && b) := rfl

@[simp] theorem Value.lt_int64 (a b : Int64) : (Value.int64 a).lt (.int64 b) = decide (a.val < b.val) := rfl

@[simp] theorem Value.lt_blob (a b : List UInt8) :
    (Value.blob a).lt (.blob b) = lexLt (fun x y => decide (x < y)) a b := rfl

@[simp] theorem Value.lt_string (a b : List Char) :
    (Value.string a).lt (.string b) = lexLt (fun x y => decide (x < y)) a b := rfl

/-- Values of different variants compare by variant. -/
theorem Value.lt_of_getType_ne {a b : Value} (h : a.getType ≠ b.getType) :
    a.lt b = decide (a.getType < b.getType) := by
  cases a <;> cases b <;> first | rfl | exact absurd rfl h

theorem Value.gt_pair (p q : PairValue) : (Value.pair p).gt (.pair q) =
    if q.mLength < p.mLength then true else if p.mLength < q.mLength then false else p.gtElems q := rfl

/-! ## Laws of the order -/


/-- Characters compare as `unsigned char`, by their codes. -/
theorem char_eq_of_not_lt {a b : Char} (h₁ : decide (a < b) = false) (h₂ : decide (b < a) = false) : a = b := by
  simp only [decide_eq_false_iff_not, Char.lt_def, UInt32.not_lt, UInt32.le_def, BitVec.le_def] at h₁ h₂
  exact Char.ext (UInt32.eq_of_toBitVec_eq (BitVec.eq_of_toNat_eq (by omega)))

theorem byte_eq_of_not_lt {a b : UInt8} (h₁ : decide (a < b) = false) (h₂ : decide (b < a) = false) : a = b := by
  simp only [decide_eq_false_iff_not, UInt8.not_lt, UInt8.le_def, BitVec.le_def] at h₁ h₂
  exact UInt8.eq_of_toBitVec_eq (BitVec.eq_of_toNat_eq (by omega))

theorem Symbol.lt_irrefl (a : Symbol) : a.lt a = false :=
  lexLt_irrefl (fun _ _ => by simp)

theorem Symbol.lt_asymm {a b : Symbol} (h : a.lt b = true) : b.lt a = false :=
  lexLt_asymm (fun _ _ hxy => decide_eq_false (Char.lt_asymm (of_decide_eq_true hxy))) h

theorem Symbol.eq_of_not_lt {a b : Symbol} (h₁ : a.lt b = false) (h₂ : b.lt a = false) : a = b := by
  obtain ⟨t, _⟩ := a
  obtain ⟨u, _⟩ := b
  have : t = u := eq_of_not_lexLt (fun _ _ _ => char_eq_of_not_lt) h₁ h₂
  subst this
  rfl

mutual
/-- `Value.gt` is `Value.lt` with the arguments swapped, in both orders at once so that the recursion on `a` has
what the list loop asks of the heads. -/
theorem Value.gt_lt_swap : ∀ a b : Value, a.gt b = b.lt a ∧ b.gt a = a.lt b
  | .pair p, b => by
    cases b with
    | pair q =>
      obtain ⟨h₁, h₂⟩ := PairValue.gtElems_swap p q
      rw [Value.gt_pair, Value.gt_pair, Value.lt_pair, Value.lt_pair, h₁, h₂]
      exact ⟨rfl, rfl⟩
    | _ => exact ⟨rfl, rfl⟩
  | .nil, b | .sym _, b | .bool _, b | .int64 _, b | .blob _, b | .string _, b => by
    cases b <;> exact ⟨rfl, rfl⟩

theorem PairValue.gtElems_swap : ∀ p q : PairValue, p.gtElems q = q.ltElems p ∧ q.gtElems p = p.ltElems q
  | .last a, .last b => by
    obtain ⟨h₁, h₂⟩ := Value.gt_lt_swap a b
    simp [PairValue.gtElems, PairValue.ltElems, h₁, h₂]
  | .last a, .cons b _ => by
    obtain ⟨h₁, h₂⟩ := Value.gt_lt_swap a b
    simp [PairValue.gtElems, PairValue.ltElems, h₁, h₂]
  | .cons a _, .last b => by
    obtain ⟨h₁, h₂⟩ := Value.gt_lt_swap a b
    simp [PairValue.gtElems, PairValue.ltElems, h₁, h₂]
  | .cons a t, .cons b u => by
    obtain ⟨h₁, h₂⟩ := Value.gt_lt_swap a b
    obtain ⟨h₃, h₄⟩ := PairValue.gtElems_swap t u
    simp [PairValue.gtElems, PairValue.ltElems, h₁, h₂, h₃, h₄]
end

theorem Value.gt_eq_lt (a b : Value) : a.gt b = b.lt a := (Value.gt_lt_swap a b).1

mutual
theorem Value.lt_irrefl : ∀ v : Value, v.lt v = false
  | .nil => rfl
  | .pair p => by simp [PairValue.ltElems_irrefl p]
  | .sym s => Symbol.lt_irrefl s
  | .bool b => by simp
  | .int64 i => by simp
  | .blob b => lexLt_irrefl (fun _ _ => by simp)
  | .string s => lexLt_irrefl (fun _ _ => by simp)

theorem PairValue.ltElems_irrefl : ∀ p : PairValue, p.ltElems p = false
  | .last a => by simp [PairValue.ltElems, Value.lt_irrefl a]
  | .cons a t => by simp [PairValue.ltElems, Value.lt_irrefl a, Value.gt_eq_lt, PairValue.ltElems_irrefl t]
end

/-- Values of different variants are ordered by variant. -/
theorem Value.getType_eq_of_not_lt {a b : Value} (h₁ : a.lt b = false) (h₂ : b.lt a = false) :
    a.getType = b.getType := by
  by_contra h
  rw [Value.lt_of_getType_ne h] at h₁
  rw [Value.lt_of_getType_ne (Ne.symm h)] at h₂
  simp only [decide_eq_false_iff_not] at h₁ h₂
  omega

mutual
theorem Value.eq_of_not_lt : ∀ {a b : Value}, a.lt b = false → b.lt a = false → a = b
  | .pair p, b, h₁, h₂ => by
    cases b with
    | pair q =>
      simp only [Value.lt_pair] at h₁ h₂
      have hl : p.mLength = q.mLength := by
        by_contra hne
        rcases Nat.lt_or_gt_of_ne hne with h | h <;> simp_all
      simp only [hl, lt_self_iff_false, if_false] at h₁ h₂
      rw [PairValue.eq_of_not_ltElems hl h₁ h₂]
    | _ => have := Value.getType_eq_of_not_lt h₁ h₂; simp [Value.getType] at this
  | .sym s, b, h₁, h₂ => by
    cases b with
    | sym t => rw [Symbol.eq_of_not_lt h₁ h₂]
    | _ => have := Value.getType_eq_of_not_lt h₁ h₂; simp [Value.getType] at this
  | .bool x, b, h₁, h₂ => by
    cases b with
    | bool y => cases x <;> cases y <;> simp_all
    | _ => have := Value.getType_eq_of_not_lt h₁ h₂; simp [Value.getType] at this
  | .int64 x, b, h₁, h₂ => by
    cases b with
    | int64 y =>
      simp only [Value.lt_int64, decide_eq_false_iff_not, Int.not_lt] at h₁ h₂
      obtain ⟨x, _, _⟩ := x
      obtain ⟨y, _, _⟩ := y
      have : x = y := by simp only at h₁ h₂; omega
      subst this
      rfl
    | _ => have := Value.getType_eq_of_not_lt h₁ h₂; simp [Value.getType] at this
  | .blob x, b, h₁, h₂ => by
    cases b with
    | blob y => rw [eq_of_not_lexLt (fun _ _ _ => byte_eq_of_not_lt) h₁ h₂]
    | _ => have := Value.getType_eq_of_not_lt h₁ h₂; simp [Value.getType] at this
  | .string x, b, h₁, h₂ => by
    cases b with
    | string y => rw [eq_of_not_lexLt (fun _ _ _ => char_eq_of_not_lt) h₁ h₂]
    | _ => have := Value.getType_eq_of_not_lt h₁ h₂; simp [Value.getType] at this
  | .nil, b, h₁, h₂ => by
    cases b with
    | nil => rfl
    | _ => have := Value.getType_eq_of_not_lt h₁ h₂; simp [Value.getType] at this

theorem PairValue.eq_of_not_ltElems : ∀ {p q : PairValue}, p.mLength = q.mLength → p.ltElems q = false →
    q.ltElems p = false → p = q
  | .last a, .last b, _, h₁, h₂ => by
    simp only [PairValue.ltElems] at h₁ h₂
    rw [Value.eq_of_not_lt h₁ h₂]
  | .cons a t, .cons b u, hl, h₁, h₂ => by
    simp only [PairValue.ltElems, Value.gt_eq_lt, Bool.or_eq_false_iff, Bool.and_eq_false_iff,
      Bool.not_eq_false'] at h₁ h₂
    have hab := Value.eq_of_not_lt h₁.1 h₂.1
    subst hab
    have ht := h₁.2.resolve_left (by simp [h₁.1])
    have hu := h₂.2.resolve_left (by simp [h₁.1])
    rw [PairValue.eq_of_not_ltElems (by simpa [PairValue.mLength] using hl) ht hu]
  | .last _, .cons _ t, hl, _, _ => by cases t <;> simp [PairValue.mLength] at hl
  | .cons _ t, .last _, hl, _, _ => by cases t <;> simp [PairValue.mLength] at hl
end

end Photesthesis

namespace Photesthesis

/-- `Symbol::operator<` as a comparator. -/
def Symbol.comparator : Comparator Symbol := ⟨Symbol.lt, Symbol.lt_irrefl, Symbol.eq_of_not_lt⟩

/-- `Value::operator<` as a comparator. -/
def Value.comparator : Comparator Value := ⟨Value.lt, Value.lt_irrefl, Value.eq_of_not_lt⟩

end Photesthesis
