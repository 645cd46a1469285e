import Photesthesis.Text.Value
import Photesthesis.Plan

/-!
# The hash of a plan

`Plan::getHashCode` feeds `XXHash64` the plan's test name, its manual flag written as a value, a `:`, and for each
parameter in key order its name, a `=` and its value as `operator<<` writes it (`Plan::addToHash`, through
`addSymbolToHash`, `addValueToHash`, `addStringToHash` and `addKeyValueToHash`). `XXHash64` is not in the
repository. Its streaming `add` hashes the concatenation of what was added, so a hash state is here the characters
added so far, and the hash of a text is a parameter `xxHash64`.

A symbol has no `#`, so the text fed determines the test name and the manual flag (`Plan.addToHash_inj`). The
parameters follow one another with no separator, and values of different types can be written alike. Two plans
that differ in their parameters can therefore feed the same text (`getHashCode_collides`), and then have the same
hash whatever `XXHash64` is.
-/

namespace Photesthesis

/-! ## Feeding the hash -/

/-- `addStringToHash`: the characters of the string are added. -/
def addStringToHash (h s : List Char) : List Char := h ++ s

/-- `addValueToHash`: the value as `operator<<` writes it to a fresh `std::ostringstream`. -/
def addValueToHash (h : List Char) (v : Value) : List Char := addStringToHash h (v.print false).1

/-- `addSymbolToHash`. -/
def addSymbolToHash (h : List Char) (s : Symbol) : List Char := addStringToHash h s.text

/-- `addKeyValueToHash`: the name, `=`, and the value. -/
def addKeyValueToHash (h : List Char) (k : Symbol) (v : Value) : List Char :=
  addValueToHash (addStringToHash (addSymbolToHash h k) ['=']) v

/-- `Plan::addToHash`. -/
def Plan.addToHash (p : Plan) (h : List Char) : List Char :=
  p.params.foldl (fun h e => addKeyValueToHash h e.1 e.2)
    (addStringToHash (addValueToHash (addSymbolToHash h p.testName) (.bool p.isManual)) [':'])

/-- `Plan::getHashCode`: `XXHash64 h{0}` fed by `Plan::addToHash`. -/
def Plan.getHashCode (xxHash64 : List Char → UInt64) (p : Plan) : UInt64 := xxHash64 (p.addToHash [])

/-! ## What the text determines -/

/-- The loop over the parameters appends to what was fed before it. -/
theorem foldl_addKeyValueToHash : ∀ (ps : Params) (h : List Char),
    ps.foldl (fun h e => addKeyValueToHash h e.1 e.2) h = h ++ ps.foldl (fun h e => addKeyValueToHash h e.1 e.2) []
  | [], h => by simp
  | e :: ps, h => by
    simp only [List.foldl_cons]
    rw [foldl_addKeyValueToHash ps, foldl_addKeyValueToHash ps (addKeyValueToHash [] _ _)]
    simp [addKeyValueToHash, addValueToHash, addSymbolToHash, addStringToHash]

/-- The text of a plan: the test name, `#t` or `#f`, `:`, and the parameters. -/
theorem Plan.addToHash_nil (p : Plan) :
    p.addToHash [] = p.testName.text ++ '#' :: (if p.isManual then 't' else 'f') ::
      ':' :: p.params.foldl (fun h e => addKeyValueToHash h e.1 e.2) [] := by
  rw [Plan.addToHash, foldl_addKeyValueToHash]
  cases p.isManual <;> simp [addValueToHash, addSymbolToHash, addStringToHash, Value.print]

/-- A separator that neither prefix holds splits two equal lists at the same place. -/
theorem append_cons_eq_of_not_mem {α : Type} {a : α} : ∀ {x₁ x₂ z₁ z₂ : List α}, a ∉ x₁ → a ∉ x₂ →
    x₁ ++ a :: z₁ = x₂ ++ a :: z₂ → x₁ = x₂ ∧ z₁ = z₂
  | [], [], _, _, _, _, h => ⟨rfl, List.cons.inj h |>.2⟩
  | [], b :: _, _, _, _, h₂, h => absurd ((List.cons.inj h).1 ▸ List.mem_cons_self a _) h₂
  | b :: _, [], _, _, h₁, _, h => absurd ((List.cons.inj h).1 ▸ List.mem_cons_self a _) h₁
  | b :: _, c :: _, _, _, h₁, h₂, h => by
    obtain ⟨rfl, ht⟩ := List.cons.inj h
    obtain ⟨rfl, rfl⟩ := append_cons_eq_of_not_mem (fun m => h₁ (List.mem_cons_of_mem b m))
      (fun m => h₂ (List.mem_cons_of_mem b m)) ht
    exact ⟨rfl, rfl⟩

/-- A symbol's text has no `#`. -/
theorem Symbol.hash_not_mem (s : Symbol) : '#' ∉ s.text := fun m => by
  have := List.all_eq_true.mp s.valid '#' m
  exact absurd this (by decide)

/-- Plans that feed the same text have the same test name and the same manual flag. -/
theorem Plan.addToHash_inj {p q : Plan} (h : p.addToHash [] = q.addToHash []) :
    p.testName = q.testName ∧ p.isManual = q.isManual := by
  rw [Plan.addToHash_nil, Plan.addToHash_nil] at h
  obtain ⟨hn, hf⟩ := append_cons_eq_of_not_mem p.testName.hash_not_mem q.testName.hash_not_mem h
  obtain ⟨⟨_, _⟩, a, _, _⟩ := p
  obtain ⟨⟨_, _⟩, b, _, _⟩ := q
  cases hn
  cases a <;> cases b <;> simp_all

/-! ## Plans that feed the same text -/

/-- The parameters `{a = x, ab = 1}` and `{a = xa, b = 1}` of one test both feed `t#f:a=xab=1`, and `{n = 12}` with
the integer `12` and with the symbol `12` both feed `t#f:n=12`: the plans differ, and their hashes agree whatever
`XXHash64` is. -/
theorem getHashCode_collides :
    let t : Symbol := ⟨['t'], rfl⟩
    let one : Value := .int64 ⟨1, by decide, by decide⟩
    let p : Plan := ⟨t, false, [], [(⟨['a'], rfl⟩, .sym ⟨['x'], rfl⟩), (⟨['a', 'b'], rfl⟩, one)]⟩
    let q : Plan := ⟨t, false, [], [(⟨['a'], rfl⟩, .sym ⟨['x', 'a'], rfl⟩), (⟨['b'], rfl⟩, one)]⟩
    let p' : Plan := ⟨t, false, [], [(⟨['n'], rfl⟩, .int64 ⟨12, by decide, by decide⟩)]⟩
    let q' : Plan := ⟨t, false, [], [(⟨['n'], rfl⟩, .sym ⟨['1', '2'], rfl⟩)]⟩
    p ≠ q ∧ p' ≠ q' ∧ p.addToHash [] = q.addToHash [] ∧ p'.addToHash [] = q'.addToHash [] ∧
      ∀ xxHash64 : List Char → UInt64, p.getHashCode xxHash64 = q.getHashCode xxHash64 ∧
        p'.getHashCode xxHash64 = q'.getHashCode xxHash64 := by
  intro t one p q p' q'
  have hpq : p.addToHash [] = q.addToHash [] := by decide
  have hpq' : p'.addToHash [] = q'.addToHash [] := by decide
  exact ⟨by decide, by decide, hpq, hpq', fun xxHash64 => ⟨congrArg xxHash64 hpq, congrArg xxHash64 hpq'⟩⟩

end Photesthesis
