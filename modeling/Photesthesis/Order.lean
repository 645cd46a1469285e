import Photesthesis.Value
import Mathlib.Data.List.Nodup

/-!
# The laws of the orders

`std::set` and `std::map` need their `operator<` to be a strict total order. For each order of the engine this
module proves `OrderLaws` against the code's `operator==`: `<` is irreflexive and transitive, and of `a < b`,
`a == b` and `b < a` exactly one holds.

`Value::operator<` (`Value.lt`) compares variants first, lists by their cached length `mLength` and then element by
element, and the atoms by their contents. Transitivity is the one law that needs the recursion: `Value.lt_trans_cases`
settles every case but that of three lists of one length, which `Value.lt_trans` and `PairValue.ltElems_trans` do
element by element. `Value::operator==` (`Value.beq`) is equality (`Value.beq_iff_eq`).

Symbols are compared by pointer for `==` and by text for `<`. `Symbol::intern` keeps one shared copy of each text
(`InternTable`), so two symbols are the same pointer exactly when they have the same text
(`InternTable.internAll_addr`): the model's symbols are their texts.
-/

namespace Photesthesis

/-! ## Strict total orders -/

/-- The laws of an `operator<` `lt` with an `operator==` `eq`: irreflexive, transitive, and exactly one of `a < b`,
`a == b` and `b < a` for any two elements. -/
structure OrderLaws {α : Type} (lt eq : α → α → Bool) : Prop where
  irrefl : ∀ a, lt a a = false
  trans : ∀ {a b c}, lt a b = true → lt b c = true → lt a c = true
  trichotomy : ∀ a b, [lt a b, eq a b, lt b a].count true = 1

/-- A comparator whose order is transitive. -/
structure Comparator.Transitive {α : Type} (c : Comparator α) : Prop where
  trans : ∀ {a b d}, c.lt a b = true → c.lt b d = true → c.lt a d = true

theorem Comparator.Transitive.asymm {α : Type} {c : Comparator α} (hT : c.Transitive) {a b : α}
    (h : c.lt a b = true) : c.lt b a = false := by
  cases hba : c.lt b a
  · rfl
  · simpa [c.irrefl] using hT.trans h hba

/-- A transitive comparator, with an `operator==` that decides equality, has the laws. -/
theorem Comparator.orderLaws {α : Type} {c : Comparator α} (htrans : c.Transitive) {eq : α → α → Bool}
    (heq : ∀ a b, eq a b = true ↔ a = b) : OrderLaws c.lt eq where
  irrefl := c.irrefl
  trans := htrans.trans
  trichotomy a b := by
    by_cases hab : a = b
    · subst hab
      simp [c.irrefl, (heq a a).mpr rfl]
    · have he : eq a b = false := Bool.eq_false_iff.mpr fun h => hab ((heq a b).mp h)
      cases h₁ : c.lt a b
      · cases h₂ : c.lt b a
        · exact absurd (c.eq_of_not_lt h₁ h₂) hab
        · simp [he]
      · simp [he, htrans.asymm h₁]

/-- `std::set::insert` keeps a set listed in increasing order. -/
theorem setInsert_pairwise {α : Type} {c : Comparator α} (hT : c.Transitive) {x : α} : ∀ {l : List α},
    l.Pairwise (fun a b => c.lt a b = true) → (setInsert c x l).Pairwise (fun a b => c.lt a b = true)
  | [], _ => List.pairwise_singleton _ _
  | y :: ys, hl => by
    obtain ⟨hy, hys⟩ := List.pairwise_cons.mp hl
    unfold setInsert
    split
    · next hxy =>
      refine List.pairwise_cons.mpr ⟨fun z hz => ?_, hl⟩
      rcases List.mem_cons.mp hz with rfl | hz
      · exact hxy
      · exact hT.trans hxy (hy z hz)
    · split
      · next hyx =>
        refine List.pairwise_cons.mpr ⟨fun z hz => ?_, setInsert_pairwise hT hys⟩
        rcases mem_setInsert.mp hz with rfl | hz
        · exact hyx
        · exact hy z hz
      · exact hl

section Lex

variable {α : Type} {lt : α → α → Bool}

theorem lexLt_cons_iff (heq : ∀ a b, lt a b = false → lt b a = false → a = b) (hirr : ∀ a, lt a a = false)
    {a b : α} {as bs : List α} :
    lexLt lt (a :: as) (b :: bs) = true ↔ lt a b = true ∨ (a = b ∧ lexLt lt as bs = true) := by
  simp only [lexLt, Bool.or_eq_true, Bool.and_eq_true, Bool.not_eq_true']
  constructor
  · rintro (h | ⟨h₁, h₂⟩)
    · exact .inl h
    · cases hab : lt a b
      · exact .inr ⟨heq a b hab h₁, h₂⟩
      · exact .inl rfl
  · rintro (h | ⟨rfl, h⟩)
    · exact .inl h
    · exact .inr ⟨hirr a, h⟩

theorem lexLt_trans (heq : ∀ a b, lt a b = false → lt b a = false → a = b) (hirr : ∀ a, lt a a = false)
    (htrans : ∀ {a b c}, lt a b = true → lt b c = true → lt a c = true) :
    ∀ {l m n : List α}, lexLt lt l m = true → lexLt lt m n = true → lexLt lt l n = true
  | [], [], _, h, _ => by cases h
  | [], _ :: _, [], _, h => by cases h
  | [], _ :: _, _ :: _, _, _ => rfl
  | _ :: _, [], _, h, _ => by cases h
  | _ :: _, _ :: _, [], _, h => by cases h
  | a :: l, b :: m, c :: n, h₁, h₂ => by
    rw [lexLt_cons_iff heq hirr] at h₁ h₂ ⊢
    rcases h₁ with h₁ | ⟨rfl, h₁⟩ <;> rcases h₂ with h₂ | ⟨rfl, h₂⟩
    · exact .inl (htrans h₁ h₂)
    · exact .inl h₁
    · exact .inl h₂
    · exact .inr ⟨rfl, lexLt_trans heq hirr htrans h₁ h₂⟩

end Lex

theorem Comparator.Transitive.lex {α : Type} {c : Comparator α} (h : c.Transitive) : c.lex.Transitive :=
  ⟨lexLt_trans (fun _ _ => c.eq_of_not_lt) c.irrefl h.trans⟩

theorem Comparator.Transitive.prod {α β : Type} {c : Comparator α} {d : Comparator β} (hc : c.Transitive)
    (hd : d.Transitive) : (c.prod d).Transitive := by
  refine ⟨fun {x y z} h₁ h₂ => ?_⟩
  have hprod : ∀ {x y : α × β}, (c.prod d).lt x y = true ↔ c.lt x.1 y.1 = true ∨ (x.1 = y.1 ∧ d.lt x.2 y.2 = true) :=
    fun {x y} => by
      show (c.lt x.1 y.1 || (!c.lt y.1 x.1 && d.lt x.2 y.2)) = true ↔ _
      simp only [Bool.or_eq_true, Bool.and_eq_true, Bool.not_eq_true']
      constructor
      · rintro (h | ⟨h₁, h₂⟩)
        · exact .inl h
        · cases h : c.lt x.1 y.1
          · exact .inr ⟨c.eq_of_not_lt h h₁, h₂⟩
          · exact .inl rfl
      · rintro (h | ⟨he, h⟩)
        · exact .inl h
        · exact .inr ⟨he ▸ c.irrefl _, h⟩
  rw [hprod] at h₁ h₂ ⊢
  rcases h₁ with h₁ | ⟨e₁, h₁⟩ <;> rcases h₂ with h₂ | ⟨e₂, h₂⟩
  · exact .inl (hc.trans h₁ h₂)
  · exact .inl (e₂ ▸ h₁)
  · exact .inl (e₁ ▸ h₂)
  · exact .inr ⟨e₁.trans e₂, hd.trans h₁ h₂⟩

/-! ## Symbols -/

theorem Symbol.lt_trans {a b c : Symbol} (h₁ : a.lt b = true) (h₂ : b.lt c = true) : a.lt c = true :=
  lexLt_trans (fun _ _ => char_eq_of_not_lt) (fun _ => by simp)
    (fun h₁ h₂ => by simp only [decide_eq_true_eq] at *; exact Char.lt_trans h₁ h₂) h₁ h₂

/-- The intern table of `Symbol::intern` (`sInternTable`): each text interned so far with the address of its one
shared copy, and an address above every address in use, which the allocator hands out next. -/
structure InternTable where
  entries : List (List Char × Nat)
  next : Nat

namespace InternTable

/-- `Symbol::intern`: a text with a character other than `isalnum` and `_` throws; otherwise a fresh copy is
allocated and emplaced, and the table's copy of the text comes back, the fresh one when there was none. -/
def intern (t : InternTable) (s : List Char) : Except Fault (Nat × InternTable) :=
  if !s.all symbolChar then .error (.thrown "Symbol must be alphanumeric-or-underscores") else
  match t.entries.lookup s with
  | some p => .ok (p, { t with next := t.next + 1 })
  | none => .ok (t.next, ⟨t.entries ++ [(s, t.next)], t.next + 1⟩)

/-- `Symbol(s)` for each text in turn: the symbols' pointers. -/
def internAll (t : InternTable) : List (List Char) → Except Fault (List Nat × InternTable)
  | [] => .ok ([], t)
  | s :: ss => do
    let (p, t) ← t.intern s
    let (ps, t) ← t.internAll ss
    pure (p :: ps, t)

/-- The table holds each text once and each address once, all of them below the next address. -/
structure WF (t : InternTable) : Prop where
  texts : (t.entries.map Prod.fst).Nodup
  addrs : (t.entries.map Prod.snd).Nodup
  below : ∀ e ∈ t.entries, e.2 < t.next

/-- Interning keeps the table well formed and its entries, and the address returned is the text's. -/
theorem intern_spec {t t' : InternTable} {s : List Char} {p : Nat} (hw : t.WF) (h : t.intern s = .ok (p, t')) :
    t'.WF ∧ t.entries ⊆ t'.entries ∧ (s, p) ∈ t'.entries := by
  unfold intern at h
  split at h
  · cases h
  · split at h
    · next hl =>
      cases h
      exact ⟨⟨hw.texts, hw.addrs, fun e he => Nat.lt_succ_of_lt (hw.below e he)⟩, List.Subset.refl _,
        mem_of_lookup_eq_some hl⟩
    · next hl =>
      cases h
      have hs : s ∉ t.entries.map Prod.fst := fun hm => by
        obtain ⟨e, he, rfl⟩ := List.mem_map.mp hm
        simpa using List.lookup_eq_none_iff.mp hl e he
      have hn : t.next ∉ t.entries.map Prod.snd := fun hm => by
        obtain ⟨e, he, he'⟩ := List.mem_map.mp hm
        exact absurd (hw.below e he) (by omega)
      refine ⟨⟨?_, ?_, fun e he => ?_⟩, List.subset_append_left _ _, by simp⟩
      · simpa [List.nodup_append] using ⟨hw.texts, fun x hx => hs (List.mem_map.mpr ⟨_, hx, rfl⟩)⟩
      · simpa [List.nodup_append] using ⟨hw.addrs, fun x hx => hn (List.mem_map.mpr ⟨_, hx, rfl⟩)⟩
      · rcases List.mem_append.mp he with he | he
        · exact Nat.lt_succ_of_lt (hw.below e he)
        · simp [List.mem_singleton.mp he]

/-- A run of interning keeps the table well formed, and each text's pointer is its address in the final table. -/
theorem internAll_spec : ∀ {t t' : InternTable} {ss : List (List Char)} {ps : List Nat}, t.WF →
    t.internAll ss = .ok (ps, t') → t'.WF ∧ t.entries ⊆ t'.entries ∧ List.Forall₂ (fun s p => (s, p) ∈ t'.entries) ss ps
  | t, t', [], ps, hw, h => by
    cases h
    exact ⟨hw, List.Subset.refl _, .nil⟩
  | t, t', s :: ss, ps, hw, h => by
    obtain ⟨⟨p, t₁⟩, h₁, h⟩ := bind_eq_ok.mp h
    obtain ⟨⟨ps', t₂⟩, h₂, h⟩ := bind_eq_ok.mp h
    cases h
    obtain ⟨hw₁, hsub₁, hmem₁⟩ := intern_spec hw h₁
    obtain ⟨hw₂, hsub₂, hall⟩ := internAll_spec hw₁ h₂
    exact ⟨hw₂, hsub₁.trans hsub₂, .cons (hsub₂ hmem₁) hall⟩

/-- The symbols a run of `Symbol(s)` makes from the empty table: each text has one address, and different texts
have different addresses, so two symbols are the same pointer exactly when they have the same text. -/
theorem internAll_addr {ss : List (List Char)} {ps : List Nat} {t : InternTable}
    (h : internAll ⟨[], 0⟩ ss = .ok (ps, t)) :
    ∃ addr : List Char → Nat, ps = ss.map addr ∧ ∀ s ∈ ss, ∀ s' ∈ ss, addr s = addr s' → s = s' := by
  obtain ⟨hw, -, hall⟩ := internAll_spec
    (show (⟨[], 0⟩ : InternTable).WF from ⟨List.nodup_nil, List.nodup_nil, fun _ h => absurd h (List.not_mem_nil _)⟩) h
  clear h
  have hfind : ∀ {s p}, (s, p) ∈ t.entries → (t.entries.lookup s).getD 0 = p := fun hm => by
    rw [lookup_eq_some_of_mem hw.texts hm]
    rfl
  have hps : ps = ss.map fun s => (t.entries.lookup s).getD 0 := by
    induction hall with
    | nil => rfl
    | cons hm _ ih => rw [List.map_cons, ← ih, hfind hm]
  refine ⟨_, hps, fun s hs s' hs' he => ?_⟩
  rw [hps, List.forall₂_map_right_iff, List.forall₂_same] at hall
  exact (Prod.mk.inj (List.inj_on_of_nodup_map hw.addrs (hall s hs) (hall s' hs') he)).1

end InternTable

/-! ## Values -/

theorem Value.lt_of_getType_lt {a b : Value} (h : a.getType < b.getType) : a.lt b = true := by
  rw [Value.lt_of_getType_ne (Nat.ne_of_lt h), decide_eq_true h]

theorem Value.getType_le_of_lt {a b : Value} (h : a.lt b = true) : a.getType ≤ b.getType := by
  by_cases he : a.getType = b.getType
  · exact he.le
  · rw [Value.lt_of_getType_ne he, decide_eq_true_eq] at h
    exact h.le

/-- Two lists compare by length, then element by element. -/
theorem Value.lt_pair_iff {p q : PairValue} :
    (Value.pair p).lt (.pair q) = true ↔ p.mLength < q.mLength ∨ (p.mLength = q.mLength ∧ p.ltElems q = true) := by
  rw [Value.lt_pair]
  split_ifs with h₁ h₂
  · simp [h₁]
  · simp only [Bool.false_eq_true, false_iff, not_or, not_and]
    omega
  · simp only [h₁, false_or]
    exact ⟨fun h => ⟨by omega, h⟩, And.right⟩

/-- The first heads that differ decide. -/
theorem PairValue.ltElems_cons_iff {a b : Value} {t u : PairValue} :
    (PairValue.cons a t).ltElems (.cons b u) = true ↔ a.lt b = true ∨ (a = b ∧ t.ltElems u = true) := by
  simp only [PairValue.ltElems, Value.gt_eq_lt, Bool.or_eq_true, Bool.and_eq_true, Bool.not_eq_true']
  constructor
  · rintro (h | ⟨h₁, h₂⟩)
    · exact .inl h
    · cases hab : a.lt b
      · exact .inr ⟨Value.eq_of_not_lt hab h₁, h₂⟩
      · exact .inl rfl
  · rintro (h | ⟨rfl, h⟩)
    · exact .inl h
    · exact .inr ⟨Value.lt_irrefl a, h⟩

theorem PairValue.mLength_pos (p : PairValue) : 0 < p.mLength := by
  cases p <;> simp [PairValue.mLength]

/-- Transitivity in every case but that of three lists of one length, which is left to the recursion. -/
theorem Value.lt_trans_cases {a b c : Value} (h₁ : a.lt b = true) (h₂ : b.lt c = true) :
    a.lt c = true ∨ ∃ p q r, a = .pair p ∧ b = .pair q ∧ c = .pair r ∧ p.mLength = q.mLength ∧
      q.mLength = r.mLength ∧ p.ltElems q = true ∧ q.ltElems r = true := by
  by_cases hlt : a.getType < c.getType
  · exact .inl (Value.lt_of_getType_lt hlt)
  have t₁ := Value.getType_le_of_lt h₁
  have t₂ := Value.getType_le_of_lt h₂
  have hab : a.getType = b.getType := by omega
  have hbc : b.getType = c.getType := by omega
  cases a <;> cases b <;> cases hab <;> cases c <;> cases hbc
  · simp at h₁
  · next p q r =>
    rw [Value.lt_pair_iff] at h₁ h₂
    rcases h₁ with h₁ | ⟨e₁, h₁⟩
    · exact .inl (Value.lt_pair_iff.mpr (.inl (by rcases h₂ with h₂ | ⟨h₂, -⟩ <;> omega)))
    · rcases h₂ with h₂ | ⟨e₂, h₂⟩
      · exact .inl (Value.lt_pair_iff.mpr (.inl (by omega)))
      · exact .inr ⟨p, q, r, rfl, rfl, rfl, e₁, e₂, h₁, h₂⟩
  · exact .inl (Symbol.lt_trans h₁ h₂)
  · next x y z => cases x <;> cases y <;> cases z <;> simp_all
  · exact .inl (by simp only [Value.lt_int64, decide_eq_true_eq] at *; omega)
  · exact .inl (lexLt_trans (fun _ _ => byte_eq_of_not_lt) (fun _ => by simp)
      (fun h₁ h₂ => by simp only [decide_eq_true_eq] at *; exact UInt8.lt_trans h₁ h₂) h₁ h₂)
  · exact .inl (lexLt_trans (fun _ _ => char_eq_of_not_lt) (fun _ => by simp)
      (fun h₁ h₂ => by simp only [decide_eq_true_eq] at *; exact Char.lt_trans h₁ h₂) h₁ h₂)

mutual
theorem Value.lt_trans : ∀ {a b c : Value}, a.lt b = true → b.lt c = true → a.lt c = true
  | .pair _, _, _, h₁, h₂ => by
    rcases Value.lt_trans_cases h₁ h₂ with h | ⟨p, q, r, hp, rfl, rfl, e₁, e₂, h₁', h₂'⟩
    · exact h
    · cases hp
      exact Value.lt_pair_iff.mpr (.inr ⟨e₁.trans e₂, PairValue.ltElems_trans e₁ e₂ h₁' h₂'⟩)
  | .nil, _, _, h₁, h₂ | .sym _, _, _, h₁, h₂ | .bool _, _, _, h₁, h₂ | .int64 _, _, _, h₁, h₂
  | .blob _, _, _, h₁, h₂ | .string _, _, _, h₁, h₂ =>
    (Value.lt_trans_cases h₁ h₂).resolve_right fun ⟨_, _, _, h, _⟩ => by cases h

theorem PairValue.ltElems_trans : ∀ {p q r : PairValue}, p.mLength = q.mLength → q.mLength = r.mLength →
    p.ltElems q = true → q.ltElems r = true → p.ltElems r = true
  | .last _, .last _, .last _, _, _, h₁, h₂ => Value.lt_trans h₁ h₂
  | .cons a t, .cons b u, .cons c w, e₁, e₂, h₁, h₂ => by
    rw [PairValue.ltElems_cons_iff] at h₁ h₂ ⊢
    simp only [PairValue.mLength, Nat.add_right_cancel_iff] at e₁ e₂
    rcases h₁ with h₁ | ⟨rfl, h₁⟩ <;> rcases h₂ with h₂ | ⟨rfl, h₂⟩
    · exact .inl (Value.lt_trans h₁ h₂)
    · exact .inl h₁
    · exact .inl h₂
    · exact .inr ⟨rfl, PairValue.ltElems_trans e₁ e₂ h₁ h₂⟩
  | .last _, .cons _ u, _, e₁, _, _, _ | .cons _ u, .last _, _, e₁, _, _, _ => by
    have := u.mLength_pos
    simp [PairValue.mLength] at e₁
    omega
  | .last _, .last _, .cons _ u, _, e₂, _, _ | .cons _ _, .cons _ u, .last _, _, e₂, _, _ => by
    have := u.mLength_pos
    simp [PairValue.mLength] at e₂
    omega
end

theorem Value.comparator_transitive : Value.comparator.Transitive := ⟨Value.lt_trans⟩

theorem Symbol.comparator_transitive : Symbol.comparator.Transitive := ⟨Symbol.lt_trans⟩

mutual
/-- `Value::operator==`: values of one variant with equal contents. Lists are compared head by head while both have
cells, and are equal when both run out together (`!a && !b`); symbols compare by pointer, which is their text. -/
def Value.beq : Value → Value → Bool
  | .nil, .nil => true
  | .pair p, .pair q => p.beqElems q
  | .sym a, .sym b => a == b
  | .bool a, .bool b => a == b
  | .int64 a, .int64 b => a.val == b.val
  | .blob a, .blob b => a == b
  | .string a, .string b => a == b
  | _, _ => false
termination_by structural a => a

/-- The loop of `Value::operator==` over two lists. -/
def PairValue.beqElems : PairValue → PairValue → Bool
  | .last a, .last b => a.beq b
  | .cons a t, .cons b u => a.beq b && t.beqElems u
  | .last _, .cons _ _ => false
  | .cons _ _, .last _ => false
termination_by structural p => p
end

/-- Values of different variants are unequal under both. The cases are closed by `rfl` rather than by unfolding
`Value.beq`, whose catch-all case splits into many overlapping equations. -/
theorem Value.beq_iff_eq_of_getType_ne {a b : Value} (h : a.getType ≠ b.getType) : a.beq b = true ↔ a = b := by
  have hne : a ≠ b := fun e => h (congrArg Value.getType e)
  have hf : a.beq b = false := by cases a <;> cases b <;> first | rfl | exact absurd rfl h
  simp [hf, hne]

mutual
theorem Value.beq_iff_eq : ∀ {a b : Value}, a.beq b = true ↔ a = b
  | .pair p, b => by
    cases b with
    | pair q => exact PairValue.beqElems_iff_eq.trans ⟨congrArg _, Value.pair.inj⟩
    | _ => exact Value.beq_iff_eq_of_getType_ne (by simp [Value.getType])
  | .int64 ⟨x, _, _⟩, b => by
    cases b with
    | int64 y => obtain ⟨y, _, _⟩ := y; show (x == y) = true ↔ _; simp
    | _ => exact Value.beq_iff_eq_of_getType_ne (by simp [Value.getType])
  | .nil, b | .sym _, b | .bool _, b | .blob _, b | .string _, b => by
    cases b <;> first
      | exact ⟨fun _ => rfl, fun _ => rfl⟩
      | (show (_ == _) = true ↔ _; simp)
      | exact Value.beq_iff_eq_of_getType_ne (by simp [Value.getType])

theorem PairValue.beqElems_iff_eq : ∀ {p q : PairValue}, p.beqElems q = true ↔ p = q
  | .last a, .last b => by
    have h := @Value.beq_iff_eq a b
    simp [PairValue.beqElems, h]
  | .cons a t, .cons b u => by
    have h₁ := @Value.beq_iff_eq a b
    have h₂ := @PairValue.beqElems_iff_eq t u
    simp [PairValue.beqElems, h₁, h₂]
  | .last _, .cons _ _ | .cons _ _, .last _ => by simp [PairValue.beqElems]
end

/-- `Value::operator<` with `Value::operator==`. -/
theorem Value.orderLaws : OrderLaws Value.lt Value.beq :=
  Value.comparator.orderLaws Value.comparator_transitive fun _ _ => Value.beq_iff_eq

end Photesthesis
