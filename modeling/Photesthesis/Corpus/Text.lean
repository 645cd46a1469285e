import Photesthesis.Corpus.State
import Photesthesis.Text.Value

/-!
# The corpus file

`Corpus::save` writes each transcript (`operator<<(std::ostream&, const Transcript&)`) as a header line
`#### transcript: NAME 0xHASH` (or `(manual)`), the plan's comments (`# ...`) and parameters (`param: NAME = VALUE`),
the variables (`check: ...` or `track: ...`), and an empty line. The plan's hash is `Plan::getHashCode`, XXHash64 of
the plan's test name, manual flag and parameters; the hash function is not in the repository, so it is a parameter
`hash` here.

`Corpus::Corpus(path)` reads the transcripts back with the stream's exceptions on: an operation that sets `failbit`
throws (`IStream.orThrow`). The reader is a loop over transcripts (`loadLoop`) of loops over comments, parameters
and variables (`readComments`, `readParams`, `readVars`), each driven by what the next character is; the loops run
on `fuel`. A comment is a `#` line: a transcript without parameters and variables is followed by an empty line and
the next transcript's header, which the comment loop then reads as a comment of the plan
(`manual_pair_loses_transcript`).
-/

namespace Photesthesis

/-! ## Writing -/

/-- `os << kw << name << " = " << value << std::endl`, with `hex` the stream's `std::hex`. -/
def printBinding (kw : List Char) (name : Symbol) (v : Value) (hex : Bool) : List Char × Bool :=
  (kw ++ name.text ++ " = ".toList ++ (v.print hex).1 ++ ['\n'], (v.print hex).2)

/-- The loops of the writers: the lines of the elements in turn, the stream's `std::hex` carried along. -/
def printEach {α : Type} (line : α → Bool → List Char × Bool) : List α → Bool → List Char × Bool
  | [], hex => ([], hex)
  | x :: xs, hex => ((line x hex).1 ++ (printEach line xs (line x hex).2).1, (printEach line xs (line x hex).2).2)

/-- `operator<<(std::ostream&, const Plan&)`: each comment after `# `, then each parameter. -/
def Plan.print (p : Plan) (hex : Bool) : List Char × Bool :=
  ((p.comments.map fun c => "# ".toList ++ c ++ ['\n']).flatten ++
      (printEach (fun (b : Symbol × Value) => printBinding "param: ".toList b.1 b.2) p.params hex).1,
    (printEach (fun (b : Symbol × Value) => printBinding "param: ".toList b.1 b.2) p.params hex).2)

/-- The line of a variable: `track:` for a tracked one, `check:` for a checked one. -/
def printVar (v : Var) : Bool → List Char × Bool :=
  printBinding (if v.2.2 then "track: ".toList else "check: ".toList) v.1 v.2.1

/-- The header line: the plan's hash in base 16 (which leaves the stream in base 10), or `(manual)`. -/
def Transcript.header (hash : Plan → UInt64) (t : Transcript) (hex : Bool) : List Char × Bool :=
  if t.plan.isManual then ("#### transcript: ".toList ++ t.testName.text ++ " (manual)".toList ++ ['\n'], hex)
  else ("#### transcript: ".toList ++ t.testName.text ++ " 0x".toList ++ Nat.toDigits 16 (hash t.plan).toNat ++ ['\n'],
    false)

/-- `operator<<(std::ostream&, const Transcript&)`: the header, the plan, the variables and an empty line. -/
def Transcript.print (hash : Plan → UInt64) (t : Transcript) (hex : Bool) : List Char × Bool :=
  let (head, hex) := t.header hash hex
  let (plan, hex) := t.plan.print hex
  let (vars, hex) := printEach printVar t.vars hex
  (head ++ plan ++ vars ++ ['\n'], hex)

namespace Corpus

/-- The transcripts of the corpus in the order the maps list them. -/
def all (c : Corpus) : List Transcript := c.transcripts.flatMap Prod.snd

/-- What `Corpus::save` writes: every transcript in turn, on a stream that starts in base 10. -/
def text (hash : Plan → UInt64) (c : Corpus) : List Char := (printEach (Transcript.print hash) c.all false).1

/-- `Corpus::save`: the file is rewritten when the corpus is dirty, and left as it was otherwise. -/
def save (hash : Plan → UInt64) (c : Corpus) (file : List Char) : List Char :=
  if c.dirty then c.text hash else file

end Corpus

/-! ## Reading -/

/-- `std::strtoull(s, nullptr, 0)`: whitespace, an optional sign, then a `0x` or `0X` prefix for base 16, a `0` for
base 8, or base 10, and the longest run of digits of the base; a value past `ULLONG_MAX` gives `ULLONG_MAX`, and a
minus sign negates modulo `2 ^ 64`. -/
def strtoull (s : List Char) : Nat :=
  let (neg, s) := takeSign (s.dropWhile isSpace)
  let (base, s) := match s with
    | '0' :: x :: d :: r => if (x == 'x' || x == 'X') && (digitValue true d).isSome then (16, d :: r) else (8, s)
    | '0' :: _ => (8, s)
    | _ => (10, s)
  let digit (c : Char) : Option Nat := (digitValue true c).filter (· < base)
  let n := (s.takeWhile fun c => (digit c).isSome).foldl (fun n c => n * base + (digit c).getD 0) 0
  if 18446744073709551615 < n then 18446744073709551615
  else if neg then (18446744073709551616 - n) % 18446744073709551616 else n

/-- `std::to_string` of a `uint64_t` converted to `int64_t`. -/
def int64Text (n : Nat) : String :=
  toString (if n < 9223372036854775808 then (n : Int) else (n : Int) - 18446744073709551616)

/-- `expectStr`: the word read is the one expected. (The code's message also gives the stream's offset.) -/
def expectStr (expected got : List Char) : Except Fault Unit :=
  if expected = got then .ok () else
  .error (.thrown ("input failure: expected '" ++ String.mk expected ++ "' but got '" ++ String.mk got ++ "'"))

/-- `expectNonemptyStr`. -/
def expectNonemptyStr (s : List Char) : Except Fault Unit :=
  if s.isEmpty then .error (.thrown "input read unexpected empty string") else .ok ()

/-- `expectVal<int64_t>`: the plan's hash read is the one of the plan read. -/
def expectHash (expected got : Nat) : Except Fault Unit :=
  if int64Text expected = int64Text got then .ok () else
  .error (.thrown ("input failure: expected '" ++ int64Text expected ++ "' but got '" ++ int64Text got ++ "'"))

namespace IStream

/-- With `exceptions(failbit | badbit)` on, an operation that sets `failbit` throws `std::ios_base::failure`. -/
def orThrow (is : IStream) : Except Fault IStream :=
  if is.fail then .error (.thrown "basic_ios::clear: iostream error") else .ok is

/-- `is >> s` for a `std::string`, throwing on `failbit`. -/
def word (is : IStream) : Except Fault (List Char × IStream) := do
  let is' ← is.readWord.2.orThrow
  pure (is.readWord.1, is')

/-- `is >> sym` for a `Symbol`: a word, interned. -/
def symbol (is : IStream) : Except Fault (Symbol × IStream) := do
  let (w, is) ← is.word
  let s ← Symbol.intern w
  pure (s, is)

/-- `is >> a >> name >> b >> val`: the four extractions of a parameter or a variable line. -/
def binding (fuel : Nat) (is : IStream) : Except Fault ((List Char × Symbol × List Char × Value) × IStream) := do
  let (a, is) ← is.word
  let (name, is) ← is.symbol
  let (b, is) ← is.word
  let (val, is) ← readValue fuel .nil is
  let is ← is.orThrow
  pure ((a, name, b, val), is)

/-- The comment loop of `operator>>(std::istream&, Plan&)`: a `#`, the whitespace after it, and the rest of the
line, kept when it is not empty. -/
def readComments : Nat → List (List Char) → IStream → Except Fault (List (List Char) × IStream)
  | 0, _, _ => .error .outOfFuel
  | fuel + 1, comments, is =>
    if !(is.atChar '#').1 then .ok (comments, (is.atChar '#').2) else do
    let (str, is) := (is.atChar '#').2.get.2.scanWhitespace.getLine
    let is ← is.orThrow
    readComments fuel (if str.isEmpty then comments else comments ++ [str]) is.scanWhitespace

/-- The parameter loop of `operator>>(std::istream&, Plan&)`: `param:`, a name, `=` and a value on each line. -/
def readParams : Nat → Params → IStream → Except Fault (Params × IStream)
  | 0, _, _ => .error .outOfFuel
  | fuel + 1, params, is =>
    if !(is.atChar 'p').1 then .ok (params, (is.atChar 'p').2) else do
    let ((kw, pname, eq, val), is) ← binding fuel (is.atChar 'p').2
    expectStr "param:".toList kw
    expectStr "=".toList eq
    expectNonemptyStr pname.text
    readParams fuel (params ++ [(pname, val)]) is.scanWhitespace

/-- `operator>>(std::istream&, Plan&)` into `plan`: its comments and its parameters. -/
def readPlan (fuel : Nat) (plan : Plan) (is : IStream) : Except Fault (Plan × IStream) := do
  let is ← is.ws.orThrow
  let (comments, is) ← readComments fuel [] is
  let (params, is) ← readParams fuel [] is
  pure ({ plan with comments := comments, params := params }, is)

/-- The variable loop of `operator>>(std::istream&, Transcript&)`: `check:` or `track:`, a name, `=` and a value on
each line. -/
def readVars : Nat → List Var → IStream → Except Fault (List Var × IStream)
  | 0, _, _ => .error .outOfFuel
  | fuel + 1, vars, is => do
    let is' ← (is.atEither 'c' 't').2.orThrow
    if !(is.atEither 'c' 't').1 then .ok (vars, is') else do
    let ((kw, vname, eq, val), is) ← binding fuel is'
    expectStr "=".toList eq
    expectNonemptyStr vname.text
    if kw != "check:".toList && kw != "track:".toList then
      .error (.thrown ("expecting either 'check:' or 'track:', got '" ++ String.mk kw ++ "'"))
    else readVars fuel (vars ++ [(vname, val, kw == "track:".toList)]) is.scanWhitespace

/-- `operator>>(std::istream&, Transcript&)`: the header, the plan, whose hash must be the one in the header unless
it is manual, and the variables. -/
def readTranscript (hash : Plan → UInt64) (fuel : Nat) (is : IStream) : Except Fault (Transcript × IStream) := do
  let (_, is) ← is.word
  let (_, is) ← is.word
  let (tname, is) ← is.symbol
  let (hashOrManual, is) ← is.word
  let isManual := hashOrManual == "(manual)".toList
  let planHash := if isManual then 0 else strtoull hashOrManual
  if !isManual && (planHash == 0 || planHash == 18446744073709551615) then
    .error (.thrown ("unexpected hash value: " ++ String.mk hashOrManual))
  else do
  expectNonemptyStr tname.text
  let (plan, is) ← readPlan fuel ⟨tname, isManual, [], []⟩ is
  if !plan.isManual then expectHash planHash (hash plan).toNat
  let (vars, is) ← readVars fuel [] is.scanWhitespace
  pure (⟨plan, vars⟩, is)

end IStream

namespace Corpus

variable (planCmp : Comparator Plan) (hash : Plan → UInt64)

/-- The loop of `Corpus::Corpus(path)`: while the stream is good, a transcript is read and added. -/
def loadLoop : Nat → Corpus → IStream → Except Fault Corpus
  | 0, _, _ => .error .outOfFuel
  | fuel + 1, c, is =>
    if !is.good then .ok c else do
    let (t, is) ← IStream.readTranscript hash fuel is
    let c ← c.addTranscript planCmp t
    loadLoop fuel c is.scanWhitespace

/-- `Corpus::Corpus(path)` on the file's text, `none` when the file cannot be opened: the transcripts read, the
corpus not dirty. (The code rethrows an error with the path and offset in front of its message.) -/
def load (fuel : Nat) : Option (List Char) → Except Fault Corpus
  | none => .ok empty
  | some text => do
    let c ← loadLoop planCmp hash fuel empty (IStream.ofList text).scanWhitespace
    pure { c with dirty := false }

end Corpus

/-! ## Two transcripts read as one

The reader tells a comment from the next transcript's header only by the line it is on: both start with `#`. A
transcript with neither parameters nor variables ends with its header line and an empty line, and the comment loop
of its plan, which skips whitespace across line ends, reads the next header as a comment. -/

namespace Example

/-- The tests `a` and `b`. -/
def testA : Symbol := ⟨"a".toList, by decide⟩

def testB : Symbol := ⟨"b".toList, by decide⟩

/-- A manual transcript of a test, with no comment, parameter or variable. -/
def bare (t : Symbol) : Transcript := ⟨⟨t, true, [], []⟩, []⟩

/-- The corpus with `bare testA` and `bare testB` added, saved and read back, holds one transcript: `bare testA` with
the header of `bare testB` as a comment. Both are manual, so no hash is written or checked. -/
theorem manual_pair_loses_transcript :
    ∃ c : Corpus, c.Reachable Plan.fieldOrder ∧ c.all = [bare testA, bare testB] ∧
      c.save (fun _ => 1) [] = "#### transcript: a (manual)\n\n#### transcript: b (manual)\n\n".toList ∧
      Corpus.load Plan.fieldOrder (fun _ => 1) 100 (some (c.save (fun _ => 1) [])) =
        .ok ⟨[(testA, [⟨⟨testA, true, ["### transcript: b (manual)".toList], []⟩, []⟩])], false⟩ :=
  ⟨⟨[(testA, [bare testA]), (testB, [bare testB])], true⟩,
    @Corpus.Reachable.add _ _ _ (bare testB) (@Corpus.Reachable.add _ _ _ (bare testA) .empty rfl) rfl, rfl, rfl, rfl⟩

end Example

end Photesthesis
