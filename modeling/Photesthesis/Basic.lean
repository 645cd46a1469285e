import Mathlib.Data.List.Basic

/-!
# Faults, comparators and ordered sets

The engine's containers are `std::set`s ordered by a comparator `operator<`. A set is modelled as the list of its
elements in order (`setInsert`), and is only ever asked what it contains; the laws a comparator needs for that
(irreflexivity, and that two elements neither of which is below the other are equal) are fields of `Comparator`, so
the set lemmas (`mem_setInsert`, `setContains_iff`) hold of every comparator the model builds.

A computation of the model ends in a value or in a `Fault`: an exception the code throws, an `assert` of the code
that fails, the model's fuel running out where the code is still looping, or a step whose behaviour C++ leaves
undefined.
-/

namespace Photesthesis

/-- How a computation of the engine can fail to return. -/
inductive Fault where
  /-- A `std::runtime_error` or `std::logic_error`, with its `what()`. -/
  | thrown (what : String)
  /-- An `assert` of the code that does not hold. -/
  | assertFailed (what : String)
  /-- The model's fuel ran out: the code would still be running. -/
  | outOfFuel
  /-- Behaviour the C++ standard leaves undefined, such as using an iterator to an erased element. -/
  | undefined (what : String)
  deriving DecidableEq, Repr

/-- `assert(c)` of the code. -/
def assertThat (c : Bool) (what : String) : Except Fault Unit :=
  if c then .ok () else .error (.assertFailed what)

@[simp] theorem assertThat_eq_ok {c : Bool} {what : String} {u : Unit} :
    assertThat c what = .ok u ↔ c = true := by
  cases c <;> simp [assertThat]

theorem assertThat_ne_outOfFuel {c : Bool} {what : String} : assertThat c what ≠ .error .outOfFuel := by
  cases c <;> simp [assertThat]

/-! ## Reasoning about `Except` -/

section Except

variable {ε α β : Type}

@[simp] theorem ok_bind (a : α) (f : α → Except ε β) : (Except.ok a >>= f) = f a := rfl

theorem bind_eq_ok {x : Except ε α} {f : α → Except ε β} {b : β} :
    x >>= f = .ok b ↔ ∃ a, x = .ok a ∧ f a = .ok b := by
  cases x <;> simp [bind, Except.bind]

theorem map_eq_ok {x : Except ε α} {f : α → β} {b : β} : f <$> x = .ok b ↔ ∃ a, x = .ok a ∧ f a = b := by
  cases x <;> simp [Functor.map, Except.map]

/-- A bind fails with `e` only where one of its parts does. -/
theorem bind_ne_error {x : Except ε α} {f : α → Except ε β} {e : ε} (hx : x ≠ .error e)
    (hf : ∀ a, x = .ok a → f a ≠ .error e) : x >>= f ≠ .error e := by
  cases x with
  | error e' => simpa [bind, Except.bind] using hx
  | ok a => exact hf a rfl

/-- An invariant of a monadic fold, over the elements already folded, that every step keeps. -/
theorem foldlM_ok_invariant (P : List α → β → Prop) {f : β → α → Except ε β} :
    ∀ {xs : List α} (done : List α) {b b' : β},
      (∀ ys x zs acc acc', done ++ xs = ys ++ x :: zs → P ys acc → f acc x = .ok acc' → P (ys ++ [x]) acc') →
      P done b → xs.foldlM f b = .ok b' → P (done ++ xs) b'
  | [], done, b, b', _, h0, h => by
    cases h
    simpa using h0
  | x :: xs, done, b, b', hs, h0, h => by
    obtain ⟨c, hc, h'⟩ := bind_eq_ok.mp h
    have hP := hs done x xs b c rfl h0 hc
    simpa using foldlM_ok_invariant P (done ++ [x])
      (fun ys y zs acc acc' he => hs ys y zs acc acc' (by simpa using he)) hP h'

/-- An invariant of the accumulator that every step of a monadic fold keeps. -/
theorem foldlM_ok_inv (P : β → Prop) {f : β → α → Except ε β} {xs : List α} {b b' : β}
    (hs : ∀ acc x acc', x ∈ xs → P acc → f acc x = .ok acc' → P acc') (h0 : P b) (h : xs.foldlM f b = .ok b') :
    P b' :=
  foldlM_ok_invariant (fun _ acc => P acc) []
    (fun _ x _ acc acc' he h₁ h₂ => hs acc x acc' (by rw [List.nil_append] at he; simp [he]) h₁ h₂) h0 h

/-- A property of one element that its step establishes and later steps keep holds of every element at the end of a
monadic fold, with an invariant of the accumulator that every step keeps. -/
theorem foldlM_ok_forall (I : β → Prop) (Q : α → β → Prop) {f : β → α → Except ε β} {xs : List α} {b b' : β}
    (hs : ∀ acc x acc', x ∈ xs → I acc → f acc x = .ok acc' → I acc' ∧ Q x acc' ∧ ∀ y, Q y acc → Q y acc')
    (h0 : I b) (h : xs.foldlM f b = .ok b') : I b' ∧ ∀ x ∈ xs, Q x b' := by
  have := foldlM_ok_invariant (fun ys acc => I acc ∧ ∀ y ∈ ys, Q y acc) [] (fun ys x zs acc acc' he hacc hf => ?_)
    ⟨h0, by simp⟩ h
  · simpa using this
  · have hx : x ∈ xs := by rw [List.nil_append] at he; simp [he]
    obtain ⟨hI, hQ, hkeep⟩ := hs acc x acc' hx hacc.1 hf
    refine ⟨hI, fun y hy => ?_⟩
    rcases List.mem_append.mp hy with hy | hy
    · exact hkeep y (hacc.2 y hy)
    · exact List.mem_singleton.mp hy ▸ hQ

/-- A fold fails with `e` only where a step does, for steps from accumulators with an invariant. -/
theorem foldlM_ne_error (P : β → Prop) {f : β → α → Except ε β} {e : ε} :
    ∀ {xs : List α} {b : β}, (∀ acc x, x ∈ xs → P acc → f acc x ≠ .error e ∧ ∀ acc', f acc x = .ok acc' → P acc') →
      P b → xs.foldlM f b ≠ .error e
  | [], _, _, _ => by simp [pure, Except.pure]
  | x :: xs, b, hs, h0 => by
    rw [List.foldlM_cons]
    refine bind_ne_error (hs b x (List.mem_cons_self x xs) h0).1 fun c hc => ?_
    exact foldlM_ne_error P (fun acc y hy hp => hs acc y (List.mem_cons_of_mem x hy) hp)
      ((hs b x (List.mem_cons_self x xs) h0).2 c hc)

end Except

/-! ## Lists -/

/-- The last `n` elements of a list. -/
def lastN {α : Type} (n : Nat) (l : List α) : List α := l.drop (l.length - n)

@[simp] theorem length_lastN {α : Type} (n : Nat) (l : List α) : (lastN n l).length = min n l.length := by
  simp only [lastN, List.length_drop]
  omega

theorem getLast?_lastN {α : Type} {n : Nat} {l : List α} (hn : 0 < n) : (lastN n l).getLast? = l.getLast? := by
  rw [lastN, List.getLast?_drop]
  split
  · next h => rw [List.eq_nil_of_length_eq_zero (by omega : l.length = 0)]; rfl
  · rfl

theorem lastN_append_singleton {α : Type} {n : Nat} {l : List α} (x : α) (h : n ≤ l.length) :
    lastN (n + 1) (l ++ [x]) = lastN n l ++ [x] := by
  simp only [lastN, List.length_append, List.length_singleton]
  rw [show l.length + 1 - (n + 1) = l.length - n by omega, List.drop_append_of_le_length (by omega)]

/-- A property that grows with its bound holds of every element of a list at one bound, if at some bound of each. -/
theorem exists_bound_of_forall_mem {α : Type} (P : α → Nat → Prop) (hmono : ∀ x m n, P x m → m ≤ n → P x n) :
    ∀ l : List α, (∀ x ∈ l, ∃ n, P x n) → ∃ D, ∀ x ∈ l, P x D
  | [], _ => ⟨0, by simp⟩
  | x :: l, h => by
    obtain ⟨n, hn⟩ := h x (List.mem_cons_self x l)
    obtain ⟨D, hD⟩ := exists_bound_of_forall_mem P hmono l fun y hy => h y (List.mem_cons_of_mem x hy)
    refine ⟨max n D, fun y hy => ?_⟩
    rcases List.mem_cons.mp hy with rfl | hy
    · exact hmono y n _ hn (le_max_left _ _)
    · exact hmono y D _ (hD y hy) (le_max_right _ _)

/-- `std::set<T>::erase(x)` on a set listed without order: every copy of `x` goes. -/
def setErase {α : Type} [DecidableEq α] (x : α) (l : List α) : List α := l.filter (fun y => y != x)

@[simp] theorem mem_setErase {α : Type} [DecidableEq α] {x y : α} {l : List α} :
    y ∈ setErase x l ↔ y ∈ l ∧ y ≠ x := by
  simp [setErase]

theorem setErase_sublist {α : Type} [DecidableEq α] (x : α) (l : List α) : List.Sublist (setErase x l) l :=
  List.filter_sublist l

/-- A key found by `List.lookup` is paired with its value in the list. -/
theorem mem_of_lookup_eq_some {α β : Type} [BEq α] [LawfulBEq α] {l : List (α × β)} {k : α} {b : β}
    (h : l.lookup k = some b) : (k, b) ∈ l := by
  obtain ⟨l₁, l₂, rfl, -⟩ := List.lookup_eq_some_iff.mp h
  simp

/-- A key of distinct keys finds the value it is paired with. -/
theorem lookup_eq_some_of_mem {α β : Type} [BEq α] [LawfulBEq α] {k : α} {b : β} :
    ∀ {l : List (α × β)}, (l.map Prod.fst).Nodup → (k, b) ∈ l → l.lookup k = some b
  | [], _, h => absurd h (List.not_mem_nil _)
  | (k', b') :: l, hn, h => by
    simp only [List.map_cons, List.nodup_cons, List.mem_map] at hn
    rcases List.mem_cons.mp h with h | h
    · cases h
      simp
    · have hk : k ≠ k' := fun e => hn.1 ⟨(k, b), h, e⟩
      simp [List.lookup_cons, beq_false_of_ne hk, lookup_eq_some_of_mem hn.2 h]

/-! ## Comparators -/

/-- An `operator<` with the two laws the ordered containers rely on. -/
structure Comparator (α : Type) where
  lt : α → α → Bool
  irrefl : ∀ a, lt a a = false
  eq_of_not_lt : ∀ {a b}, lt a b = false → lt b a = false → a = b

/-- `std::lexicographical_compare` with the element order `lt`. -/
def lexLt {α : Type} (lt : α → α → Bool) : List α → List α → Bool
  | [], [] => false
  | [], _ :: _ => true
  | _ :: _, [] => false
  | a :: as, b :: bs => lt a b || (!lt b a && lexLt lt as bs)

section Lex

variable {α : Type} {lt : α → α → Bool}

theorem lexLt_irrefl : ∀ {l : List α}, (∀ a ∈ l, lt a a = false) → lexLt lt l l = false
  | [], _ => rfl
  | a :: l, h => by
    simp [lexLt, h a (List.mem_cons_self a l), lexLt_irrefl (fun b hb => h b (List.mem_cons_of_mem a hb))]

theorem eq_of_not_lexLt : ∀ {l m : List α}, (∀ a ∈ l, ∀ b, lt a b = false → lt b a = false → a = b) →
    lexLt lt l m = false → lexLt lt m l = false → l = m
  | [], [], _, _, _ => rfl
  | [], _ :: _, _, h, _ => by simp [lexLt] at h
  | _ :: _, [], _, _, h => by simp [lexLt] at h
  | a :: l, b :: m, h, h₁, h₂ => by
    simp only [lexLt, Bool.or_eq_false_iff, Bool.and_eq_false_iff, Bool.not_eq_false'] at h₁ h₂
    have hab : a = b := h a (List.mem_cons_self a l) b h₁.1 h₂.1
    subst hab
    have hl := h₁.2.resolve_left (by simp [h₂.1])
    have hm := h₂.2.resolve_left (by simp [h₁.1])
    rw [eq_of_not_lexLt (fun c hc => h c (List.mem_cons_of_mem a hc)) hl hm]

theorem lexLt_asymm (h : ∀ a b, lt a b = true → lt b a = false) :
    ∀ {l m : List α}, lexLt lt l m = true → lexLt lt m l = false
  | [], [], h' => by simp [lexLt] at h'
  | [], _ :: _, _ => rfl
  | _ :: _, [], h' => by simp [lexLt] at h'
  | a :: l, b :: m, h' => by
    simp only [lexLt, Bool.or_eq_true, Bool.and_eq_true, Bool.not_eq_true'] at h'
    rcases h' with hab | ⟨hba, hlm⟩
    · simp [lexLt, h a b hab, hab]
    · simp [lexLt, hba, lexLt_asymm h hlm]

end Lex

/-- `std::vector<T>::operator<`. -/
def Comparator.lex {α : Type} (c : Comparator α) : Comparator (List α) where
  lt := lexLt c.lt
  irrefl _ := lexLt_irrefl (fun a _ => c.irrefl a)
  eq_of_not_lt := eq_of_not_lexLt (fun _ _ _ => c.eq_of_not_lt)

/-- `std::pair<A, B>::operator<`. -/
def Comparator.prod {α β : Type} (c : Comparator α) (d : Comparator β) : Comparator (α × β) where
  lt x y := c.lt x.1 y.1 || (!c.lt y.1 x.1 && d.lt x.2 y.2)
  irrefl x := by simp [c.irrefl, d.irrefl]
  eq_of_not_lt {x y} h₁ h₂ := by
    simp only [Bool.or_eq_false_iff, Bool.and_eq_false_iff, Bool.not_eq_false'] at h₁ h₂
    have h := c.eq_of_not_lt h₁.1 h₂.1
    have h' := d.eq_of_not_lt (h₁.2.resolve_left (by simp [h₂.1])) (h₂.2.resolve_left (by simp [h₁.1]))
    exact Prod.ext h h'

/-! ## Ordered sets -/

section Sets

variable {α : Type} (c : Comparator α)

/-- `std::set<T>::insert` on a set listed in order: `x` goes before the first larger element, and is not inserted
when an equivalent one is there. -/
def setInsert (x : α) : List α → List α
  | [] => [x]
  | y :: ys => if c.lt x y then x :: y :: ys else if c.lt y x then y :: setInsert x ys else y :: ys

/-- `std::set<T>::find(x) != end()`. -/
def setContains (x : α) (l : List α) : Bool := l.any (fun y => !c.lt x y && !c.lt y x)

/-- The set of a list of elements, inserted in turn. -/
def setOfList (l : List α) : List α := l.foldl (fun s x => setInsert c x s) []

variable {c}

@[simp] theorem mem_setInsert {x y : α} : ∀ {l : List α}, y ∈ setInsert c x l ↔ y = x ∨ y ∈ l
  | [] => by simp [setInsert]
  | z :: zs => by
    unfold setInsert
    cases h₁ : c.lt x z
    · cases h₂ : c.lt z x
      · have hz : z = x := c.eq_of_not_lt h₂ h₁
        subst hz
        simp
      · simp only [Bool.false_eq_true, if_false, if_true, List.mem_cons, mem_setInsert]
        tauto
    · simp

/-- An element not in the set is inserted: the set grows by one. -/
theorem length_setInsert_of_not_mem {x : α} : ∀ {l : List α}, x ∉ l → (setInsert c x l).length = l.length + 1
  | [], _ => rfl
  | y :: ys, h => by
    unfold setInsert
    split
    · rfl
    · split
      · simp [length_setInsert_of_not_mem fun h' => h (List.mem_cons_of_mem y h')]
      · next h₁ h₂ => exact absurd (List.mem_cons_self y ys) (c.eq_of_not_lt (by simpa using h₂) (by simpa using h₁) ▸ h)

theorem setContains_iff {x : α} {l : List α} : setContains c x l = true ↔ x ∈ l := by
  simp only [setContains, List.any_eq_true, Bool.and_eq_true, Bool.not_eq_true']
  constructor
  · rintro ⟨y, hy, h₁, h₂⟩
    rwa [c.eq_of_not_lt h₁ h₂]
  · exact fun h => ⟨x, h, c.irrefl x, c.irrefl x⟩

theorem setContains_eq_false {x : α} {l : List α} : setContains c x l = false ↔ x ∉ l := by
  rw [← Bool.not_eq_true, setContains_iff]

theorem mem_setOfList_aux {y : α} : ∀ {l s : List α},
    y ∈ l.foldl (fun s x => setInsert c x s) s ↔ y ∈ l ∨ y ∈ s
  | [], s => by simp
  | x :: l, s => by
    simp only [List.foldl_cons, mem_setOfList_aux, mem_setInsert, List.mem_cons]
    tauto

theorem mem_foldl_setInsert {β : Type} {f : β → α} {y : α} : ∀ {l : List β} {s : List α},
    y ∈ l.foldl (fun s x => setInsert c (f x) s) s ↔ (∃ x ∈ l, y = f x) ∨ y ∈ s
  | [], s => by simp
  | x :: l, s => by
    simp only [List.foldl_cons, mem_foldl_setInsert, mem_setInsert, List.mem_cons, exists_eq_or_imp]
    rw [or_left_comm, or_assoc]

@[simp] theorem mem_setOfList {y : α} {l : List α} : y ∈ setOfList c l ↔ y ∈ l := by
  simp [setOfList, mem_setOfList_aux]

end Sets

end Photesthesis
