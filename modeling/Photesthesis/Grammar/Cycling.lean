import Photesthesis.Grammar.Basic
import Mathlib.Data.List.Nodup

/-!
# Cyclic zips

Both overloads of `extendByCycling` (`grammar.cpp`) walk two sets with wrap-around iterators, extending the current
element of the first by the current element of the second, until both iterators have wrapped at least once. They
differ only in how an element is extended, so the loop is one definition, `cycleLoop`.

Given two non-empty sets, the loop ends (`cycle_spec`); every element of either set takes part in some result, and
every result is an element of the first extended by an element of the second.
-/

namespace Photesthesis

section Cycle

variable {α β γ : Type} (ins : γ → List γ → List γ) (extend : α → β → γ) (vecs : List α) (ext : List β)

/-- The loop of `extendByCycling`: the iterators `i` and `j` are the elements from the current one to the end, and
`cycledI`, `cycledJ` record a wrap-around. -/
def cycleLoop : Nat → List α → List β → Bool → Bool → List γ → Except Fault (List γ)
  | 0, _, _, _, _, _ => throw .outOfFuel
  | fuel + 1, i, j, cycledI, cycledJ, res =>
    if cycledI && cycledJ then pure res else
    match i, j with
    | x :: i', y :: j' =>
      let res := ins (extend x y) res
      let (i, cycledI) := if i'.isEmpty then (vecs, true) else (i', cycledI)
      let (j, cycledJ) := if j'.isEmpty then (ext, true) else (j', cycledJ)
      cycleLoop fuel i j cycledI cycledJ res
    | _, _ => throw (.assertFailed "iterator at end() dereferenced")

/-- `extendByCycling`, with `ins` the insertion into the result set and `extend` the extension of one element. -/
def cycle : Except Fault (List γ) := do
  assertThat (!vecs.isEmpty) "!vecs.empty()"
  assertThat (!ext.isEmpty) "!ext.empty()"
  cycleLoop ins extend vecs ext (vecs.length + ext.length + 1) vecs ext false false []

end Cycle

/-- `extendByCycling(std::set<std::vector<Value>>, std::set<Value>)`: each vector extended by a value. -/
def extendByCycling (vecs : List (List Value)) (ext : List Value) : Except Fault (List (List Value)) :=
  cycle (setInsert Value.comparator.lex) (fun v x => v ++ [x]) vecs ext

/-! ## The loop ends and misses nothing -/

section Spec

variable {α β γ : Type} {ins : γ → List γ → List γ} {extend : α → β → γ} {vecs : List α} {ext : List β}

/-- What the loop keeps true: both iterators inside their sets and not at the end, every element before an
iterator (every element, once it has wrapped) extended or used, and every result an extension. -/
structure CycleInv (extend : α → β → γ) (vecs : List α) (ext : List β) (i : List α) (j : List β)
    (cycledI cycledJ : Bool) (res : List γ) : Prop where
  i_ne : i ≠ []
  j_ne : j ≠ []
  i_suffix : i <:+ vecs
  j_suffix : j <:+ ext
  vecs_done : ∀ x ∈ vecs, (cycledI = false ∧ x ∈ i) ∨ ∃ y ∈ ext, extend x y ∈ res
  ext_done : ∀ y ∈ ext, (cycledJ = false ∧ y ∈ j) ∨ ∃ x ∈ vecs, extend x y ∈ res
  sound : ∀ w ∈ res, ∃ x ∈ vecs, ∃ y ∈ ext, w = extend x y

/-- The steps the loop still has to take, at most. -/
def cycleMeasure (i : List α) (j : List β) (cycledI cycledJ : Bool) : Nat :=
  (if cycledI then 0 else i.length) + (if cycledJ then 0 else j.length)

/-- The outcome of a finished loop. -/
def CycleDone (extend : α → β → γ) (vecs : List α) (ext : List β) (res : List γ) : Prop :=
  (∀ x ∈ vecs, ∃ y ∈ ext, extend x y ∈ res) ∧ (∀ y ∈ ext, ∃ x ∈ vecs, extend x y ∈ res) ∧
    ∀ w ∈ res, ∃ x ∈ vecs, ∃ y ∈ ext, w = extend x y

variable (hins : ∀ z w res, w ∈ ins z res ↔ w = z ∨ w ∈ res)
include hins

/-- One turn of the loop keeps the invariant and lowers the measure. -/
theorem cycleInv_step {x : α} {i' : List α} {y : β} {j' : List β} {cycledI cycledJ : Bool} {res : List γ}
    (hI : CycleInv extend vecs ext (x :: i') (y :: j') cycledI cycledJ res) (hc : (cycledI && cycledJ) = false) :
    CycleInv extend vecs ext (if i'.isEmpty then vecs else i') (if j'.isEmpty then ext else j')
        (if i'.isEmpty then true else cycledI) (if j'.isEmpty then true else cycledJ) (ins (extend x y) res) ∧
      cycleMeasure (if i'.isEmpty then vecs else i') (if j'.isEmpty then ext else j')
        (if i'.isEmpty then true else cycledI) (if j'.isEmpty then true else cycledJ) <
      cycleMeasure (x :: i') (y :: j') cycledI cycledJ := by
  have hx : x ∈ vecs := hI.i_suffix.subset (List.mem_cons_self x i')
  have hy : y ∈ ext := hI.j_suffix.subset (List.mem_cons_self y j')
  have hnew : extend x y ∈ ins (extend x y) res := (hins _ _ _).mpr (.inl rfl)
  have hold : ∀ {w}, w ∈ res → w ∈ ins (extend x y) res := fun h => (hins _ _ _).mpr (.inr h)
  refine ⟨⟨?_, ?_, ?_, ?_, ?_, ?_, ?_⟩, ?_⟩
  · cases i' <;> simp [List.ne_nil_of_mem hx]
  · cases j' <;> simp [List.ne_nil_of_mem hy]
  · cases i' with
    | nil => exact List.suffix_refl vecs
    | cons a l => exact (List.suffix_cons x (a :: l)).trans hI.i_suffix
  · cases j' with
    | nil => exact List.suffix_refl ext
    | cons a l => exact (List.suffix_cons y (a :: l)).trans hI.j_suffix
  · intro z hz
    rcases hI.vecs_done z hz with ⟨hcI, hzi⟩ | ⟨y', hy', hw⟩
    · rcases List.mem_cons.mp hzi with rfl | hzi'
      · exact .inr ⟨y, hy, hnew⟩
      · cases i' with
        | nil => cases hzi'
        | cons a l => exact .inl ⟨by simpa using hcI, hzi'⟩
    · exact .inr ⟨y', hy', hold hw⟩
  · intro z hz
    rcases hI.ext_done z hz with ⟨hcJ, hzj⟩ | ⟨x', hx', hw⟩
    · rcases List.mem_cons.mp hzj with rfl | hzj'
      · exact .inr ⟨x, hx, hnew⟩
      · cases j' with
        | nil => cases hzj'
        | cons a l => exact .inl ⟨by simpa using hcJ, hzj'⟩
    · exact .inr ⟨x', hx', hold hw⟩
  · intro w hw
    rcases (hins _ _ _).mp hw with rfl | hw
    · exact ⟨x, hx, y, hy, rfl⟩
    · exact hI.sound w hw
  · unfold cycleMeasure
    cases cycledI <;> cases cycledJ <;> cases i' <;> cases j' <;> simp at hc ⊢ <;> omega

/-- From the invariant, with more fuel than the measure, the loop returns a finished result. -/
theorem cycleLoop_spec : ∀ (fuel : Nat) {i : List α} {j : List β} {cycledI cycledJ : Bool} {res : List γ},
    CycleInv extend vecs ext i j cycledI cycledJ res → cycleMeasure i j cycledI cycledJ < fuel →
    ∃ res', cycleLoop ins extend vecs ext fuel i j cycledI cycledJ res = .ok res' ∧ CycleDone extend vecs ext res'
  | 0, _, _, _, _, _, _, hf => absurd hf (Nat.not_lt_zero _)
  | fuel + 1, i, j, cycledI, cycledJ, res, hI, hf => by
    unfold cycleLoop
    cases hc : cycledI && cycledJ
    · obtain ⟨x, i', rfl⟩ := List.exists_cons_of_ne_nil hI.i_ne
      obtain ⟨y, j', rfl⟩ := List.exists_cons_of_ne_nil hI.j_ne
      obtain ⟨hI', hm⟩ := cycleInv_step hins hI hc
      simp only [Bool.false_eq_true, if_false, apply_ite Prod.fst, apply_ite Prod.snd]
      exact cycleLoop_spec fuel hI' (by omega)
    · simp only [Bool.and_eq_true] at hc
      refine ⟨res, rfl, fun x hx => ?_, fun y hy => ?_, hI.sound⟩
      · simpa [hc.1] using hI.vecs_done x hx
      · simpa [hc.2] using hI.ext_done y hy

/-- `extendByCycling` of two non-empty sets returns, and its result extends every element of the first set, uses
every element of the second, and holds nothing else. -/
theorem cycle_spec (hv : vecs ≠ []) (he : ext ≠ []) :
    ∃ res, cycle ins extend vecs ext = .ok res ∧ CycleDone extend vecs ext res := by
  have hI : CycleInv extend vecs ext vecs ext false false [] :=
    ⟨hv, he, List.suffix_refl _, List.suffix_refl _, fun x hx => .inl ⟨rfl, hx⟩, fun y hy => .inl ⟨rfl, hy⟩,
      fun _ h => absurd h (List.not_mem_nil _)⟩
  obtain ⟨res, hres, hdone⟩ := cycleLoop_spec hins (vecs.length + ext.length + 1) hI
    (by simp [cycleMeasure])
  refine ⟨res, ?_, hdone⟩
  simp [cycle, assertThat, hv, he, hres, bind, Except.bind]

/-- Whatever `extendByCycling` returns is that finished result. -/
theorem cycle_eq_ok {res : List γ} (h : cycle ins extend vecs ext = .ok res) : CycleDone extend vecs ext res := by
  have hv : vecs ≠ [] := by
    rintro rfl
    simp [cycle, assertThat] at h
    cases h
  have he : ext ≠ [] := by
    rintro rfl
    cases vecs <;> simp [cycle, assertThat] at h <;> cases h
  obtain ⟨res', h', hd⟩ := cycle_spec hins hv he
  rw [h] at h'
  cases h'
  exact hd

/-- `extendByCycling` returns, or fails an assertion on an empty set: it never runs out of fuel. -/
theorem cycle_ne_outOfFuel : cycle ins extend vecs ext ≠ .error .outOfFuel := by
  by_cases hv : vecs = []
  · subst hv
    simp [cycle, assertThat, bind, Except.bind]
  by_cases he : ext = []
  · subst he
    cases vecs <;> simp_all [cycle, assertThat, bind, Except.bind]
  obtain ⟨res, h, -⟩ := cycle_spec hins hv he
  rw [h]
  simp

end Spec

/-! ## Exactly `max |vecs| |ext|` turns -/

/-- `(t + 1) mod n`, from `t mod n`. -/
theorem succ_mod_eq_ite {t n : Nat} (h : 0 < n) : (t + 1) % n = if t % n + 1 = n then 0 else t % n + 1 := by
  have hlt := Nat.mod_lt t h
  have hdiv := Nat.div_add_mod t n
  split
  · rw [show t + 1 = n * (t / n + 1) by rw [Nat.mul_add, Nat.mul_one]; omega, Nat.mul_mod_right]
  · rw [show t + 1 = (t % n + 1) + n * (t / n) by omega, Nat.add_mul_mod_self_left, Nat.mod_eq_of_lt (by omega)]

/-- `l[t mod |l|]`: where the wrap-around iterator over the non-empty set `l` points after `t` turns. -/
def cycleAt {δ : Type} (l : List δ) (hl : l ≠ []) (t : Nat) : δ :=
  l.get ⟨t % l.length, Nat.mod_lt _ (List.length_pos.mpr hl)⟩

/-- The iterator after `t` turns is `l[t mod |l|]` and the rest of the set, and one more turn moves it on (back to
the start, and recording the wrap-around, at the end of the set). -/
theorem cycle_advance {δ : Type} (l : List δ) (hl : l ≠ []) (t : Nat) :
    l.drop (t % l.length) = cycleAt l hl t :: l.drop (t % l.length + 1) ∧
      (if (l.drop (t % l.length + 1)).isEmpty then (l, true) else (l.drop (t % l.length + 1), decide (l.length ≤ t))) =
        (l.drop ((t + 1) % l.length), decide (l.length ≤ t + 1)) := by
  have hpos := List.length_pos.mpr hl
  have hlt := Nat.mod_lt t hpos
  refine ⟨List.drop_eq_getElem_cons hlt, ?_⟩
  have hle := Nat.mod_le t l.length
  have hsmall : t < l.length → t % l.length = t := Nat.mod_eq_of_lt
  rw [succ_mod_eq_ite hpos]
  by_cases h : t % l.length + 1 = l.length
  · simp only [h, if_true, List.drop_length, List.isEmpty_nil, Prod.mk.injEq, List.drop_zero, true_and]
    exact (decide_eq_true (by omega)).symm
  · have : ¬ l.length ≤ t % l.length + 1 := by omega
    simp only [h, if_false, List.isEmpty_iff, List.drop_eq_nil_iff, this, Prod.mk.injEq, true_and]
    simp only [decide_eq_decide]
    omega

/-- Every element `l[a]` of a set is where its iterator points at turn `a`. -/
theorem cycleAt_get {δ : Type} {l : List δ} (hl : l ≠ []) {x : δ} (hx : x ∈ l) :
    ∃ a < l.length, cycleAt l hl a = x := by
  obtain ⟨⟨a, ha⟩, rfl⟩ := List.get_of_mem hx
  exact ⟨a, ha, by simp [cycleAt, Nat.mod_eq_of_lt ha]⟩

/-- Two turns before the loop stops pick different pairs of elements of sets without repeats. -/
theorem cycleAt_pair_inj {α β : Type} {vecs : List α} {ext : List β} (hv : vecs ≠ []) (he : ext ≠ []) (hnv : vecs.Nodup) (hne : ext.Nodup) {t t' : Nat} (ht : t < max vecs.length ext.length)
    (ht' : t' < max vecs.length ext.length) (h₁ : cycleAt vecs hv t = cycleAt vecs hv t')
    (h₂ : cycleAt ext he t = cycleAt ext he t') : t = t' := by
  simp only [cycleAt, hnv.get_inj_iff, hne.get_inj_iff, Fin.mk.injEq] at h₁ h₂
  rcases Nat.le_total vecs.length ext.length with hle | hle
  · simpa only [Nat.mod_eq_of_lt (show t < ext.length by omega), Nat.mod_eq_of_lt (show t' < ext.length by omega)]
      using h₂
  · simpa only [Nat.mod_eq_of_lt (show t < vecs.length by omega), Nat.mod_eq_of_lt (show t' < vecs.length by omega)]
      using h₁

section Exact

variable {α β γ : Type} (ins : γ → List γ → List γ) (extend : α → β → γ) {vecs : List α} {ext : List β}
  (hv : vecs ≠ []) (he : ext ≠ [])

/-- What the first `n` turns of the loop insert, in turn: turn `t` extends `vecs[t mod |vecs|]` by
`ext[t mod |ext|]`. -/
def cycleUpTo (n : Nat) : List γ :=
  (List.range n).foldl (fun res t => ins (extend (cycleAt vecs hv t) (cycleAt ext he t)) res) []

theorem cycleUpTo_succ (n : Nat) : cycleUpTo ins extend hv he (n + 1) =
    ins (extend (cycleAt vecs hv n) (cycleAt ext he n)) (cycleUpTo ins extend hv he n) := by
  simp only [cycleUpTo, List.range_succ, List.foldl_append, List.foldl_cons, List.foldl_nil]

/-- After `t` turns the loop is at `vecs[t mod |vecs|]` and `ext[t mod |ext|]`, each iterator has wrapped once it
has made as many turns as its set has elements, and the result holds the first `t` turns; from there it makes
`max |vecs| |ext| - t` more turns and stops, with one more unit of fuel for the final test. -/
theorem cycleLoop_turn : ∀ (fuel t : Nat), t ≤ max vecs.length ext.length →
    cycleLoop ins extend vecs ext fuel (vecs.drop (t % vecs.length)) (ext.drop (t % ext.length))
        (decide (vecs.length ≤ t)) (decide (ext.length ≤ t)) (cycleUpTo ins extend hv he t) =
      if max vecs.length ext.length - t < fuel then .ok (cycleUpTo ins extend hv he (max vecs.length ext.length))
      else .error .outOfFuel
  | 0, _, _ => rfl
  | fuel + 1, t, ht => by
    by_cases hn : t = max vecs.length ext.length
    · subst hn
      simp [cycleLoop, Nat.le_max_left, Nat.le_max_right]
      rfl
    · have hlt : t < max vecs.length ext.length := by omega
      have hc : (decide (vecs.length ≤ t) && decide (ext.length ≤ t)) = false := by simp; omega
      obtain ⟨hi, hvi⟩ := cycle_advance vecs hv t
      obtain ⟨hj, hej⟩ := cycle_advance ext he t
      rw [hi, hj]
      simp only [cycleLoop, hc, Bool.false_eq_true, if_false, hvi, hej]
      rw [← cycleUpTo_succ ins extend hv he t, cycleLoop_turn fuel (t + 1) hlt]
      congr 1
      apply propext
      omega

/-- What the exact count of turns gives: the loop makes `max |vecs| |ext|` turns and then one last test, and turn
`t` extends `vecs[t mod |vecs|]` by `ext[t mod |ext|]`, so every element of either set takes part in a result. -/
structure CycleExact (res : List γ) : Prop where
  turns : ∀ fuel, cycleLoop ins extend vecs ext fuel vecs ext false false [] =
    if max vecs.length ext.length < fuel then .ok res else .error .outOfFuel
  mem_iff : ∀ w, w ∈ res ↔ ∃ t < max vecs.length ext.length, w = extend (cycleAt vecs hv t) (cycleAt ext he t)
  vecs_used : ∀ x ∈ vecs, ∃ y ∈ ext, extend x y ∈ res
  ext_used : ∀ y ∈ ext, ∃ x ∈ vecs, extend x y ∈ res

variable {ins} (hins : ∀ z w res, w ∈ ins z res ↔ w = z ∨ w ∈ res)
include hins

theorem mem_cycleUpTo {w : γ} : ∀ {n : Nat},
    w ∈ cycleUpTo ins extend hv he n ↔ ∃ t < n, w = extend (cycleAt vecs hv t) (cycleAt ext he t)
  | 0 => by simp [cycleUpTo]
  | n + 1 => by
    rw [cycleUpTo_succ, hins, mem_cycleUpTo]
    constructor
    · rintro (h | ⟨t, ht, h⟩)
      · exact ⟨n, n.lt_succ_self, h⟩
      · exact ⟨t, by omega, h⟩
    · rintro ⟨t, ht, h⟩
      by_cases htn : t = n
      · exact .inl (htn ▸ h)
      · exact .inr ⟨t, by omega, h⟩

/-- `extendByCycling` of two non-empty sets makes exactly `max |vecs| |ext|` turns, and returns the extension of
`vecs[t mod |vecs|]` by `ext[t mod |ext|]` for each turn `t`. -/
theorem cycle_exact : cycle ins extend vecs ext = .ok (cycleUpTo ins extend hv he (max vecs.length ext.length)) ∧
    CycleExact ins extend hv he (cycleUpTo ins extend hv he (max vecs.length ext.length)) := by
  have hstart : ∀ fuel, cycleLoop ins extend vecs ext fuel vecs ext false false [] =
      if max vecs.length ext.length < fuel then .ok (cycleUpTo ins extend hv he (max vecs.length ext.length))
      else .error .outOfFuel := fun fuel => by
    have h := cycleLoop_turn ins extend hv he fuel 0 (Nat.zero_le _)
    simp only [Nat.zero_mod, List.drop_zero, Nat.sub_zero, decide_eq_false (Nat.not_le.mpr (List.length_pos.mpr hv)),
      decide_eq_false (Nat.not_le.mpr (List.length_pos.mpr he))] at h
    exact h
  have hmax : max vecs.length ext.length < vecs.length + ext.length + 1 := by omega
  refine ⟨?_, hstart, fun w => mem_cycleUpTo extend hv he hins, fun x hx => ?_, fun y hy => ?_⟩
  · have hv' : vecs.isEmpty = false := List.isEmpty_eq_false.mpr hv
    have he' : ext.isEmpty = false := List.isEmpty_eq_false.mpr he
    simp only [cycle, assertThat, hv', he', Bool.not_false, if_true, ok_bind, hstart, if_pos hmax]
  · obtain ⟨a, ha, rfl⟩ := cycleAt_get hv hx
    exact ⟨_, List.get_mem _ _ _, (mem_cycleUpTo extend hv he hins).mpr ⟨a, by omega, rfl⟩⟩
  · obtain ⟨a, ha, rfl⟩ := cycleAt_get he hy
    exact ⟨_, List.get_mem _ _ _, (mem_cycleUpTo extend hv he hins).mpr ⟨a, by omega, rfl⟩⟩

/-- With sets without repeats and an extension that is one to one on them, every turn adds a new element: the
result has exactly `max |vecs| |ext|` elements. -/
theorem length_cycleUpTo (hlen : ∀ z res, z ∉ res → (ins z res).length = res.length + 1) (hnv : vecs.Nodup)
    (hne : ext.Nodup) (hinj : ∀ x ∈ vecs, ∀ x' ∈ vecs, ∀ y ∈ ext, ∀ y' ∈ ext, extend x y = extend x' y' →
      x = x' ∧ y = y') :
    ∀ n ≤ max vecs.length ext.length, (cycleUpTo ins extend hv he n).length = n
  | 0, _ => rfl
  | n + 1, hn => by
    rw [cycleUpTo_succ, hlen _ _ fun hmem => ?_, length_cycleUpTo hlen hnv hne hinj n (by omega)]
    obtain ⟨t, ht, he'⟩ := (mem_cycleUpTo extend hv he hins).mp hmem
    obtain ⟨h₁, h₂⟩ := hinj _ (List.get_mem _ _ _) _ (List.get_mem _ _ _) _ (List.get_mem _ _ _) _
      (List.get_mem _ _ _) he'
    exact absurd (cycleAt_pair_inj hv he hnv hne (by omega) (by omega) h₁ h₂) (by omega)

end Exact

/-- The membership law of `setInsert`, in the form the cyclic zip lemmas take. -/
theorem setInsert_mem_law {α : Type} (c : Comparator α) :
    ∀ z w (res : List α), w ∈ setInsert c z res ↔ w = z ∨ w ∈ res :=
  fun _ _ _ => mem_setInsert

theorem extendByCycling_ne_outOfFuel {vecs : List (List Value)} {ext : List Value} :
    extendByCycling vecs ext ≠ .error .outOfFuel :=
  cycle_ne_outOfFuel (setInsert_mem_law _)

/-- What `extendByCycling` of prefixes and values returns. -/
theorem extendByCycling_eq_ok {vecs : List (List Value)} {ext : List Value} {res : List (List Value)}
    (h : extendByCycling vecs ext = .ok res) : CycleDone (fun v x => v ++ [x]) vecs ext res :=
  cycle_eq_ok (setInsert_mem_law _) h

end Photesthesis
