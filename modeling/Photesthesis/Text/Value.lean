import Photesthesis.Text.Stream

/-!
# The text of a value

`operator<<(std::ostream&, const Value&)` (`test.h`) writes a string in double quotes with `"` and `\` escaped, a
blob in brackets as `0x` and each byte, a boolean `#t` or `#f`, `Nil` as `#nil`, an `int64_t` and a symbol as they
are, and a list in parentheses with its elements separated by spaces (`Value.print`). A byte is written with
`operator<<(ostream&, unsigned char)`, which writes the byte as a character whatever the base; the `std::hex` it
sets stays set, and later integers of the same stream come out in base 16.

`operator>>(std::istream&, Value&)` (`readValue`) skips whitespace and dispatches on the next character. Its loops
over the elements of a list, the bytes of a blob and the characters of a string run on `fuel` here. The `#` case
falls through into the `default` case (`readDefault`), which reads an integer after `-` or a digit, a symbol after
`_` or an alphanumeric character, and otherwise reads nothing and leaves the value as it was.
-/

namespace Photesthesis

/-! ## Writing -/

/-- The characters of a string with each `"` and `\` after a backslash. -/
def escapeString : List Char → List Char
  | [] => []
  | c :: cs => (if c == '"' || c == '\\' then ['\\', c] else [c]) ++ escapeString cs

/-- The bytes of a blob: each `0x` and the byte as a character, separated by spaces. -/
def blobText (bytes : List UInt8) : List Char :=
  List.intercalate [' '] (bytes.map fun b => ['0', 'x', Char.ofNat b.toNat])

mutual
/-- `os << v` on a stream whose `std::hex` is `hex`: the text written, and `std::hex` after. -/
def Value.print : Value → Bool → List Char × Bool
  | .string s, hex => ('"' :: escapeString s ++ ['"'], hex)
  | .blob bytes, hex => ('[' :: blobText bytes ++ [']'], hex || !bytes.isEmpty)
  | .bool b, hex => (if b then ['#', 't'] else ['#', 'f'], hex)
  | .int64 i, hex => (showInt64 hex i, hex)
  | .sym s, hex => (s.text, hex)
  | .pair p, hex => ('(' :: (p.print hex).1 ++ [')'], (p.print hex).2)
  | .nil, hex => (['#', 'n', 'i', 'l'], hex)
  termination_by structural v => v

/-- The elements of a list, separated by spaces. -/
def PairValue.print : PairValue → Bool → List Char × Bool
  | .last v, hex => v.print hex
  | .cons v t, hex => ((v.print hex).1 ++ ' ' :: (t.print (v.print hex).2).1, (t.print (v.print hex).2).2)
  termination_by structural p => p
end

/-! ## Reading -/

namespace IStream

/-- The `default` branch: `is.peek() == '-' || std::isdigit(is.peek())` reads an `int64_t`, and
`is.peek() == '_' || std::isalnum(is.peek())` a symbol; otherwise nothing is read and `val` stays. Each peek counts:
at the end of the text the first sets `eofbit` and the next `failbit`. -/
def readDefault (val : Value) (is : IStream) : Except Fault (Value × IStream) :=
  let (c₁, is) := is.peek
  let (c₂, is₂) := is.peek
  if c₁ == some '-' then .ok (.int64 is.readInt64.1, is.readInt64.2)
  else if c₂.any Char.isDigit then .ok (.int64 is₂.readInt64.1, is₂.readInt64.2)
  else
    let (c₃, is₃) := is₂.peek
    let (c₄, is₄) := is₃.peek
    if c₃ == some '_' then do
      let s ← Symbol.intern (is₃.readRun symbolChar true).1
      .ok (.sym s, (is₃.readRun symbolChar true).2)
    else if c₄.any Char.isAlphanum then do
      let s ← Symbol.intern (is₄.readRun symbolChar true).1
      .ok (.sym s, (is₄.readRun symbolChar true).2)
    else .ok (val, is₄)

/-- The `#` case: `#` and the alphanumeric characters after it name a boolean or `Nil`, and the case falls through
into the `default` branch. -/
def readSpecial (is : IStream) : Except Fault (Value × IStream) :=
  let (tmp, is) := is.readRun Char.isAlphanum false
  if tmp == ['#', 't'] then readDefault (.bool true) is
  else if tmp == ['#', 'f'] then readDefault (.bool false) is
  else if tmp == ['#', 'n', 'i', 'l'] then readDefault .nil is
  else .error (.thrown ("unknown special symbol: " ++ String.mk tmp))

/-- The loop of the blob case: `bytes.emplace_back(); is >> std::hex >> bytes.back();`, which reads one character
(a failed read leaves the `0`). -/
def readBytes : Nat → List UInt8 → IStream → Except Fault (List UInt8 × IStream)
  | 0, _, _ => .error .outOfFuel
  | fuel + 1, bytes, is =>
    let (more, is) := is.notAt ']'
    if more then
      readBytes fuel (bytes ++ [((({ is with hex := true } : IStream).readChar.1).map fun c => c.toNat.toUInt8).getD 0])
        ({ is with hex := true } : IStream).readChar.2
    else .ok (bytes, is)

/-- The loop of the string case: characters up to an unescaped `"`, a backslash taking the next character as it is.
`c` is the last character `get` read, which a failed `get` leaves in place. -/
def readStringChars : Nat → Char → List Char → IStream → Except Fault (List Char × IStream)
  | 0, _, _, _ => .error .outOfFuel
  | fuel + 1, c, tmp, is =>
    let (more, is) := is.notAt '"'
    if !more then .ok (tmp, is) else
    let c := is.get.1.getD c
    let is := is.get.2
    if c == '\\' then
      if !is.good then .error (.thrown "incomplete string escape") else
      readStringChars fuel (is.get.1.getD c) (tmp ++ [is.get.1.getD c]) is.get.2
    else readStringChars fuel c (tmp ++ [c]) is

mutual
/-- `operator>>(std::istream&, Value&)`, with `val` the value before: the value after, and the stream. -/
def readValue : Nat → Value → IStream → Except Fault (Value × IStream)
  | 0, _, _ => .error .outOfFuel
  | fuel + 1, val, is =>
    let is := is.scanWhitespace
    if !is.good then .ok (val, is) else
    match is.peek with
    | (none, is) => .ok (val, is)
    | (some '(', is) => do
      let (vals, is) ← readElems fuel [] is.get.2
      match is.close ')' with
      | some is => .ok (.ofList vals, is)
      | none => .error (.thrown "incomplete pair-list")
    | (some '[', is) => do
      let (bytes, is) ← readBytes fuel [] is.get.2
      match is.close ']' with
      | some is => .ok (.blob bytes, is)
      | none => .error (.thrown "incomplete blob")
    | (some '"', is) => do
      let (tmp, is) ← readStringChars fuel '"' [] is.get.2
      match is.close '"' with
      | some is => .ok (.string tmp, is)
      | none => .error (.thrown "incomplete string")
    | (some '#', is) => is.readSpecial
    | (some _, is) => readDefault val is

/-- The loop of the list case: `while (is.good() && is.peek() != ')')`, a fresh `Value tmp` read and appended. -/
def readElems : Nat → List Value → IStream → Except Fault (List Value × IStream)
  | 0, _, _ => .error .outOfFuel
  | fuel + 1, vals, is =>
    if (is.notAt ')').1 then do
      let (tmp, is) ← readValue fuel .nil (is.notAt ')').2
      readElems fuel (vals ++ [tmp]) is
    else .ok (vals, (is.notAt ')').2)
end

end IStream

end Photesthesis
