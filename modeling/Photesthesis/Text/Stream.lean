import Photesthesis.Value

/-!
# Character streams

The text forms of values, plans and corpora are read with `std::istream` and written with `std::ostream`. An
`IStream` is the characters not yet read, the state flags `eofbit` and `failbit` (`badbit` is never set reading from
memory or a file that opened), and whether `std::hex` is set, which makes integer extraction read base 16. The
streams of the code hold bytes; here a character of a string is one character of the stream.

The operations are those of the code: `peek` and `get`, which set `eofbit` at the end and `failbit` on a stream
that is not good; `scanWhitespace`; and the formatted extractions, which first skip whitespace (the `sentry`) and
then read an `int64_t` (`readInt64`), a character (`readChar`) or a whitespace-delimited word (`readWord`). Writing
an `int64_t` is `showInt64`.
-/

namespace Photesthesis

/-- `std::isspace` in the C locale. -/
def isSpace (c : Char) : Bool :=
  c == ' ' || c == '\t' || c == '\n' || c == '\r' || c == Char.ofNat 11 || c == Char.ofNat 12

/-- An input stream: the characters not yet read, `eofbit`, `failbit`, and whether `std::hex` is set. -/
structure IStream where
  rest : List Char
  eof : Bool
  fail : Bool
  hex : Bool
  deriving DecidableEq

namespace IStream

/-- A fresh stream over a text. -/
def ofList (s : List Char) : IStream := ⟨s, false, false, false⟩

/-- `good()`. -/
def good (is : IStream) : Bool := !is.eof && !is.fail

/-- `peek()`: the next character, or `EOF` (`none`), which sets `eofbit`; on a stream that is not good the sentry
sets `failbit`. -/
def peek (is : IStream) : Option Char × IStream :=
  if !is.good then (none, { is with fail := true }) else
  match is.rest with
  | [] => (none, { is with eof := true })
  | c :: _ => (some c, is)

/-- `get(c)`: the next character, consumed; at the end `eofbit` and `failbit` are set and nothing is read. -/
def get (is : IStream) : Option Char × IStream :=
  if !is.good then (none, { is with fail := true }) else
  match is.rest with
  | [] => (none, { is with eof := true, fail := true })
  | c :: cs => (some c, { is with rest := cs })

/-- `scanWhitespace(is)`: `while (is.good() && std::isspace(is.peek())) is.get(c);`. -/
def scanWhitespace (is : IStream) : IStream :=
  if !is.good then is else
  match is.rest.dropWhile isSpace with
  | [] => { is with rest := [], eof := true }
  | r => { is with rest := r }

/-- The sentry of a formatted extraction: whitespace is skipped, and running out of characters sets `eofbit` and
`failbit`; a stream that is not good gets `failbit`. -/
def sentry (is : IStream) : IStream :=
  if !is.good then { is with fail := true } else
  match is.rest.dropWhile isSpace with
  | [] => { is with rest := [], eof := true, fail := true }
  | r => { is with rest := r }

/-- A loop `do { is.get(c); tmp += c; } while (is.good() && p(is.peek()));` on a good stream whose next character
is there: that character and the run after it of characters that satisfy `p`. At the end of the text the peek of
the condition sets `eofbit`, and when the condition peeks twice (`twice`) the second peek sets `failbit`. -/
def readRun (p : Char → Bool) (twice : Bool) (is : IStream) : List Char × IStream :=
  match is.rest with
  | [] => ([], { is with eof := true, fail := true })
  | c :: cs =>
    let r := cs.dropWhile p
    (c :: cs.takeWhile p, { is with rest := r, eof := r.isEmpty, fail := twice && r.isEmpty })

/-- The loop condition `is.good() && is.peek() != c`, and the stream after it. -/
def notAt (c : Char) (is : IStream) : Bool × IStream :=
  if !is.good then (false, is) else
  let (c', is) := is.peek
  (c' != some c, is)

/-- `if (is.good() && is.peek() == c) is.get(c);`: the stream after the character `c`, when it is next. -/
def close (c : Char) (is : IStream) : Option IStream :=
  if !is.good then none else
  match is.peek with
  | (some c', is) => if c' == c then some is.get.2 else none
  | (none, _) => none

/-- `is.good() && is.peek() == c`, and the stream after it. -/
def atChar (c : Char) (is : IStream) : Bool × IStream :=
  if !is.good then (false, is) else
  let (c', is) := is.peek
  (c' == some c, is)

/-- `is.good() && (is.peek() == c || is.peek() == d)`, and the stream after it: at the end of the text the first
peek sets `eofbit` and the second `failbit`. -/
def atEither (c d : Char) (is : IStream) : Bool × IStream :=
  if !is.good then (false, is) else
  let (c₁, is) := is.peek
  if c₁ == some c then (true, is) else
  let (c₂, is) := is.peek
  (c₂ == some d, is)

/-- `is >> std::ws`: whitespace is skipped, and the end of the text sets `eofbit`; a stream that is not good gets
`failbit`. -/
def ws (is : IStream) : IStream :=
  if !is.good then { is with fail := true } else
  match is.rest.dropWhile isSpace with
  | [] => { is with rest := [], eof := true }
  | r => { is with rest := r }

/-- `std::getline(is, str)`: the characters before the next `\n`, which is read and dropped. The end of the text
sets `eofbit`, and reading no character at all also `failbit`. -/
def getLine (is : IStream) : List Char × IStream :=
  if !is.good then ([], { is with fail := true }) else
  match is.rest with
  | [] => ([], { is with eof := true, fail := true })
  | cs =>
    match cs.dropWhile (· != '\n') with
    | [] => (cs, { is with rest := [], eof := true })
    | _ :: r => (cs.takeWhile (· != '\n'), { is with rest := r })

end IStream

/-! ## Integers -/

/-- The base of integer extraction and insertion. -/
def numBase (hex : Bool) : Nat := if hex then 16 else 10

/-- The value of a digit in base 10, or in base 16 with `std::hex` set. -/
def digitValue (hex : Bool) (c : Char) : Option Nat :=
  if c.isDigit then some (c.toNat - '0'.toNat)
  else if hex && 'a' ≤ c && c ≤ 'f' then some (c.toNat - 'a'.toNat + 10)
  else if hex && 'A' ≤ c && c ≤ 'F' then some (c.toNat - 'A'.toNat + 10)
  else none

/-- The number the digits spell, most significant first. -/
def digitsValue (hex : Bool) (acc : Nat) (ds : List Char) : Nat :=
  ds.foldl (fun n c => n * numBase hex + (digitValue hex c).getD 0) acc

/-- What `num_get` stores in an `int64_t` for a sign and a magnitude: the value, or the bound it passed with
`failbit` set. -/
def int64OfDigits (neg : Bool) (n : Nat) : Int64 × Bool :=
  if neg then
    if h : n ≤ 9223372036854775808 then (⟨-n, by omega, by omega⟩, false)
    else (⟨-9223372036854775808, by decide, by decide⟩, true)
  else
    if h : n < 9223372036854775808 then (⟨n, by omega, by omega⟩, false)
    else (⟨9223372036854775807, by decide, by decide⟩, true)

/-- The optional sign `num_get` takes before the digits: whether it is `-`, and the characters after it. -/
def takeSign : List Char → Bool × List Char
  | '-' :: r => (true, r)
  | '+' :: r => (false, r)
  | r => (false, r)

namespace IStream

/-- `is >> tmp` for an `int64_t tmp{0}`: a sign, then the digits of the base; no digit stores `0` and sets
`failbit`, and stopping at the end sets `eofbit`. In base 16 `num_get` also takes a `0x` prefix, which no value
written by the code starts with and which this model does not read. -/
def readInt64 (is : IStream) : Int64 × IStream :=
  let is := is.sentry
  if !is.good then (⟨0, by decide, by decide⟩, is) else
  let (neg, r) := takeSign is.rest
  let ds := r.takeWhile fun c => (digitValue is.hex c).isSome
  let r' := r.dropWhile fun c => (digitValue is.hex c).isSome
  let is := { is with rest := r', eof := r'.isEmpty }
  if ds.isEmpty then (⟨0, by decide, by decide⟩, { is with fail := true }) else
  let (v, overflow) := int64OfDigits neg (digitsValue is.hex 0 ds)
  (v, { is with fail := overflow })

/-- `is >> c` for a `char` or an `unsigned char`: one character after the whitespace. -/
def readChar (is : IStream) : Option Char × IStream :=
  let is := is.sentry
  if !is.good then (none, is) else is.get

/-- `is >> s` for a `std::string`: the characters up to the next whitespace; none read sets `failbit`. -/
def readWord (is : IStream) : List Char × IStream :=
  let is := is.sentry
  if !is.good then ([], is) else
  let w := is.rest.takeWhile fun c => !isSpace c
  let r := is.rest.dropWhile fun c => !isSpace c
  (w, { is with rest := r, eof := r.isEmpty })

end IStream

/-- `os << i` for an `int64_t`: decimal with a sign, or with `std::hex` set the digits of the 64-bit two's
complement. -/
def showInt64 (hex : Bool) (i : Int64) : List Char :=
  if hex then Nat.toDigits 16 (i.val % 18446744073709551616).toNat
  else if i.val < 0 then '-' :: Nat.toDigits 10 i.val.natAbs
  else Nat.toDigits 10 i.val.natAbs

/-- `Symbol::Symbol(std::string)`: interning checks every character. -/
def Symbol.intern (s : List Char) : Except Fault Symbol :=
  if h : s.all symbolChar = true then .ok ⟨s, h⟩
  else .error (.thrown "Symbol must be alphanumeric-or-underscores")

/-! ## Reading what is there -/

namespace IStream

variable {c : Char} {r : List Char} {h : Bool}

@[simp] theorem peek_cons : (⟨c :: r, false, false, h⟩ : IStream).peek = (some c, ⟨c :: r, false, false, h⟩) := rfl

@[simp] theorem get_cons : (⟨c :: r, false, false, h⟩ : IStream).get = (some c, ⟨r, false, false, h⟩) := rfl

@[simp] theorem good_mk {r : List Char} {e f h : Bool} : (⟨r, e, f, h⟩ : IStream).good = (!e && !f) := rfl

@[simp] theorem notAt_cons {c' : Char} :
    (⟨c :: r, false, false, h⟩ : IStream).notAt c' = (some c != some c', ⟨c :: r, false, false, h⟩) := rfl

@[simp] theorem close_cons : (⟨c :: r, false, false, h⟩ : IStream).close c = some ⟨r, false, false, h⟩ := by
  simp [close]

/-- Whitespace before a character that is not whitespace is skipped. -/
theorem scanWhitespace_spaces {pre : List Char} (hpre : ∀ x ∈ pre, isSpace x = true) (hc : isSpace c = false) :
    (⟨pre ++ c :: r, false, false, h⟩ : IStream).scanWhitespace = ⟨c :: r, false, false, h⟩ := by
  simp [scanWhitespace, List.dropWhile_append_of_pos hpre, List.dropWhile_cons, hc]

/-- The sentry of a stream at a character that is not whitespace lets it through. -/
theorem sentry_cons (hc : isSpace c = false) : (⟨c :: r, false, false, h⟩ : IStream).sentry = ⟨c :: r, false, false, h⟩ := by
  simp [sentry, List.dropWhile_cons, hc]

end IStream

/-! ## Digits -/

theorem digitValue_digitChar (hex : Bool) {d : Nat} (hd : d < numBase hex) :
    digitValue hex (Nat.digitChar d) = some d := by
  cases hex
  · have : ∀ d < 10, digitValue false (Nat.digitChar d) = some d := by decide
    exact this d hd
  · have : ∀ d < 16, digitValue true (Nat.digitChar d) = some d := by decide
    exact this d hd

@[simp] theorem digitsValue_cons {hex : Bool} {acc : Nat} {c : Char} {ds : List Char} :
    digitsValue hex acc (c :: ds) = digitsValue hex (acc * numBase hex + (digitValue hex c).getD 0) ds := rfl

theorem takeSign_digit {d : Char} {r : List Char} (hd : d.isDigit = true) : takeSign (d :: r) = (false, d :: r) := by
  unfold takeSign
  split
  · next heq => cases heq; exact absurd hd (by decide)
  · next heq => cases heq; exact absurd hd (by decide)
  · rfl

/-- The sign and the magnitude of an `int64_t` are stored back as it, without overflow. -/
theorem int64OfDigits_natAbs (i : Int64) : int64OfDigits (decide (i.val < 0)) i.val.natAbs = (i, false) := by
  obtain ⟨v, lo, hi⟩ := i
  by_cases hv : v < 0
  · have hle : v.natAbs ≤ 9223372036854775808 := by omega
    simp only [int64OfDigits, hv, decide_True, if_true, dif_pos hle, Prod.mk.injEq, Int64.mk.injEq, and_true]
    omega
  · have hlt : v.natAbs < 9223372036854775808 := by omega
    simp only [int64OfDigits, hv, decide_False, Bool.false_eq_true, if_false, dif_pos hlt, Prod.mk.injEq,
      Int64.mk.injEq, and_true]
    omega

/-- `Nat.toDigitsCore` writes digits that read back as the number, in front of the digits it is given. -/
theorem toDigitsCore_spec (hex : Bool) : ∀ (fuel n : Nat) (ds : List Char), n < fuel →
    ∃ front, front ≠ [] ∧ (∀ x ∈ front, (digitValue hex x).isSome = true) ∧
      Nat.toDigitsCore (numBase hex) fuel n ds = front ++ ds ∧ digitsValue hex 0 front = n
  | 0, _, _, hn => absurd hn (Nat.not_lt_zero _)
  | fuel + 1, n, ds, hn => by
    have hb : 2 ≤ numBase hex := by cases hex <;> decide
    have hmod := digitValue_digitChar hex (Nat.mod_lt n (by omega : 0 < numBase hex))
    have hstep : Nat.toDigitsCore (numBase hex) (fuel + 1) n ds =
        if n / numBase hex = 0 then Nat.digitChar (n % numBase hex) :: ds
        else Nat.toDigitsCore (numBase hex) fuel (n / numBase hex) (Nat.digitChar (n % numBase hex) :: ds) := rfl
    rw [hstep]
    split
    · next h0 =>
      refine ⟨[Nat.digitChar (n % numBase hex)], by simp, by simp [hmod], rfl, ?_⟩
      have : n < numBase hex := (Nat.div_eq_zero_iff (by omega)).mp h0
      rw [Nat.mod_eq_of_lt this] at hmod
      simp [Nat.mod_eq_of_lt this, hmod, digitsValue]
    · next h0 =>
      have hpos : 0 < n := Nat.pos_of_ne_zero fun hz => h0 (by simp [hz])
      have hlt : n / numBase hex < fuel := by
        have := Nat.div_lt_self hpos (by omega : 1 < numBase hex)
        omega
      obtain ⟨front, hne, hdig, heq, hval⟩ :=
        toDigitsCore_spec hex fuel _ (Nat.digitChar (n % numBase hex) :: ds) hlt
      refine ⟨front ++ [Nat.digitChar (n % numBase hex)], by simp, fun x hx => ?_, by simp [heq], ?_⟩
      · rcases List.mem_append.mp hx with hx | hx
        · exact hdig x hx
        · simp [List.mem_singleton.mp hx, hmod]
      · simp only [digitsValue, List.foldl_append, List.foldl_cons, List.foldl_nil] at hval ⊢
        rw [hval, hmod, Option.getD_some, Nat.div_add_mod']

/-- The digits `Nat.toDigits` writes: at least one, each a digit of the base, reading back as the number. -/
theorem toDigits_spec (hex : Bool) (n : Nat) :
    Nat.toDigits (numBase hex) n ≠ [] ∧ (∀ x ∈ Nat.toDigits (numBase hex) n, (digitValue hex x).isSome = true) ∧
      digitsValue hex 0 (Nat.toDigits (numBase hex) n) = n := by
  obtain ⟨front, hne, hdig, heq, hval⟩ := toDigitsCore_spec hex (n + 1) n [] (Nat.lt_succ_self n)
  rw [show Nat.toDigits (numBase hex) n = Nat.toDigitsCore (numBase hex) (n + 1) n [] from rfl, heq, List.append_nil]
  exact ⟨hne, hdig, hval⟩

end Photesthesis
