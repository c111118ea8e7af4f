import Curarium.Json.Value
import Mathlib.Data.List.DropRight

/-!
# `JSON.parse`

The parser of the json gem 1.8, which the application calls without options:

* a text is an object or an array, with white space and comments around it (`ignore`);
* containers nest at most a hundred deep (`maxNesting`);
* a repeated member name keeps its place and takes the last value (`setMember`);
* in a string, a backslash before a character with no meaning of its own is dropped
  (`unescape`), and four characters after `\u` that are not hexadecimal stand for U+FFFD.

`Json.parse` answers `none` where the gem raises. An escape that names one half of a surrogate
pair alone, which leaves the string with invalid bytes, is answered with `none` as well.

The parser is fuelled by the length of its text. Every recursive call consumes a character, so
the fuel never runs out before the text does.
-/

namespace Curarium

/-! ### White space and comments -/

/-- Where `ignore` stands: between tokens, in a block comment, in a line comment. -/
inductive IgnoreMode where
  | plain
  | block
  | line

/-- Skip white space and comments; `none` on a comment that does not end. -/
def ignore : IgnoreMode → List Char → Option (List Char)
  | .plain, ' ' :: cs => ignore .plain cs
  | .plain, '\t' :: cs => ignore .plain cs
  | .plain, '\r' :: cs => ignore .plain cs
  | .plain, '\n' :: cs => ignore .plain cs
  | .plain, '/' :: '*' :: cs => ignore .block cs
  | .plain, '/' :: '/' :: cs => ignore .line cs
  | .plain, '/' :: _ => none
  | .plain, cs => some cs
  | .block, '*' :: '/' :: cs => ignore .plain cs
  | .block, _ :: cs => ignore .block cs
  | .block, [] => none
  | .line, '\n' :: cs => ignore .plain cs
  | .line, _ :: cs => ignore .line cs
  | .line, [] => none

/-! ### Strings -/

/-- The raw text of a string up to its closing quote, and what follows. A backslash takes the
next character with it, and control characters are rejected. -/
def scanString : List Char → Option (List Char × List Char)
  | [] => none
  | '"' :: cs => some ([], cs)
  | '\\' :: c :: cs =>
    if c.toNat < 0x20 then none else (scanString cs).map fun r => ('\\' :: c :: r.1, r.2)
  | c :: cs =>
    if c.toNat < 0x20 ∨ c = '\\' then none else (scanString cs).map fun r => (c :: r.1, r.2)

/-- The value of a hexadecimal digit. -/
def hexVal (c : Char) : Option Nat :=
  if c.isDigit then some (c.toNat - '0'.toNat)
  else if 'a' ≤ c ∧ c ≤ 'f' then some (c.toNat - 'a'.toNat + 10)
  else if 'A' ≤ c ∧ c ≤ 'F' then some (c.toNat - 'A'.toNat + 10)
  else none

/-- `unescape_unicode`: four hexadecimal digits, or the replacement character. -/
def unescapeUnicode (a b c d : Char) : Nat :=
  match hexVal a, hexVal b, hexVal c, hexVal d with
  | some a, some b, some c, some d => ((a * 16 + b) * 16 + c) * 16 + d
  | _, _, _, _ => 0xFFFD

/-- The code point of a surrogate pair, as the gem combines the two halves. -/
def surrogatePair (hi lo : Nat) : Nat :=
  (hi % 0x40) * 0x400 + (hi / 0x40 % 0x10 + 1) * 0x10000 + lo % 0x400

/-- `json_string_unescape` on the raw text of a string. -/
def unescape : List Char → Option (List Char)
  | [] => some []
  | '\\' :: 'u' :: a :: b :: c :: d :: cs =>
    let n := unescapeUnicode a b c d
    if n / 0x400 = 0x36 then
      match cs with
      | '\\' :: 'u' :: e :: f :: g :: h :: rest =>
        (unescape rest).map (Char.ofNat (surrogatePair n (unescapeUnicode e f g h)) :: ·)
      | _ => none
    else if n / 0x400 = 0x37 then none
    else (unescape cs).map (Char.ofNat n :: ·)
  | '\\' :: 'u' :: _ => none
  | '\\' :: 'n' :: cs => (unescape cs).map ('\n' :: ·)
  | '\\' :: 'r' :: cs => (unescape cs).map ('\r' :: ·)
  | '\\' :: 't' :: cs => (unescape cs).map ('\t' :: ·)
  | '\\' :: '"' :: cs => (unescape cs).map ('"' :: ·)
  | '\\' :: '\\' :: cs => (unescape cs).map ('\\' :: ·)
  | '\\' :: 'b' :: cs => (unescape cs).map ('\x08' :: ·)
  | '\\' :: 'f' :: cs => (unescape cs).map ('\x0C' :: ·)
  | '\\' :: c :: cs => (unescape cs).map (c :: ·)
  | c :: cs => (unescape cs).map (c :: ·)

/-- The string after an opening quote. -/
def parseString (cs : List Char) : Option (List Char × List Char) :=
  match scanString cs with
  | some (raw, rest) => (unescape raw).map fun s => (s, rest)
  | none => none

/-! ### Numbers -/

/-- The float a literal denotes: the digits of its integer and fraction parts read as one
numeral, trailing zeros moved into the exponent. -/
def Flt.ofLiteral (neg : Bool) (intDigits fracDigits : List Char) (e : Int) : Flt :=
  let ds := intDigits ++ fracDigits
  let kept := ds.rdropWhile (· == '0')
  let mant := Nat.ofDigitChars 10 kept 0
  let exp : Int := if mant = 0 then 0 else e - fracDigits.length + (ds.length - kept.length)
  if h : (mant % 10 ≠ 0 ∨ (mant = 0 ∧ exp = 0)) ∧
      mant * 10 ^ exp.toNat < floatOverflow * 10 ^ (-exp).toNat then
    .finite ⟨neg, mant, exp, h.1, h.2⟩
  else .infinite neg

/-- The integer part of a number: a zero, or digits that do not start with one. -/
def parseIntPart : List Char → Option (List Char × List Char)
  | '0' :: cs => some (['0'], cs)
  | cs =>
    let ds := cs.takeWhile Char.isDigit
    if ds.isEmpty then none else some (ds, cs.dropWhile Char.isDigit)

/-- The exponent of a float: a letter, an optional sign, digits. -/
def parseExponent : List Char → Option (Int × List Char)
  | c :: cs =>
    if c = 'e' ∨ c = 'E' then
      let sign : Int := if cs.head? = some '-' then -1 else 1
      let ds := if cs.head? = some '-' ∨ cs.head? = some '+' then cs.tail else cs
      let digits := ds.takeWhile Char.isDigit
      if digits.isEmpty then none
      else some (sign * Nat.ofDigitChars 10 digits 0, ds.dropWhile Char.isDigit)
    else none
  | [] => none

/-- The fraction digits and the exponent of a float, which has at least one of the two. -/
def parseFloatTail : List Char → Option (List Char × Int × List Char)
  | '.' :: cs =>
    let digits := cs.takeWhile Char.isDigit
    if digits.isEmpty then none
    else match parseExponent (cs.dropWhile Char.isDigit) with
      | some (e, rest) => some (digits, e, rest)
      | none => some (digits, 0, cs.dropWhile Char.isDigit)
  | cs => (parseExponent cs).map fun r => ([], r.1, r.2)

/-- May this text follow a float? The float machine stops at none of these characters. -/
def endsFloat : List Char → Bool
  | [] => true
  | c :: _ => !(c.isDigit || c == 'E' || c == 'e' || c == '.' || c == '-')

/-- A number after its integer part: a float if the text goes on as one, else an integer. -/
def numberAfter (neg : Bool) (ds rest : List Char) : Option (Json × List Char) :=
  match (parseFloatTail rest).filter (fun r => endsFloat r.2.2) with
  | some (fs, e, rest) => some (.float (Flt.ofLiteral neg ds fs e), rest)
  | none =>
    if (rest.head?.map Char.isDigit).getD false then none
    else
      let n : Int := Nat.ofDigitChars 10 ds 0
      some (.int (if neg then -n else n), rest)

/-- A number. -/
def parseNumber (cs : List Char) : Option (Json × List Char) :=
  let neg := cs.head? == some '-'
  match parseIntPart (if neg then cs.tail else cs) with
  | none => none
  | some (ds, rest) => numberAfter neg ds rest

/-! ### Values -/

/-- `Hash#[]=`: a name already there keeps its place. -/
def setMember : List (String × Json) → String → Json → List (String × Json)
  | [], k, v => [(k, v)]
  | (l, w) :: ms, k, v => if l = k then (l, v) :: ms else (l, w) :: setMember ms k v

/-- The members of an object, in the order they are read. -/
def membersOf (ms : List (String × Json)) : List (String × Json) :=
  ms.foldl (fun acc m => setMember acc m.1 m.2) []

/-- `max_nesting`. -/
def maxNesting : Nat := 100

mutual
/-- A value inside `depth` containers. -/
def parseValue : Nat → Nat → List Char → Option (Json × List Char)
  | 0, _, _ => none
  | _ + 1, _, '"' :: cs => (parseString cs).map fun r => (.str (String.ofList r.1), r.2)
  | fuel + 1, depth, '[' :: cs =>
    if maxNesting ≤ depth then none
    else match ignore .plain cs with
      | some (']' :: rest) => some (.arr [], rest)
      | some rest =>
        (parseValue fuel (depth + 1) rest).bind fun p =>
          (parseElems fuel (depth + 1) p.2).map fun r => (.arr (p.1 :: r.1), r.2)
      | none => none
  | fuel + 1, depth, '\x7b' :: cs =>
    if maxNesting ≤ depth then none
    else match ignore .plain cs with
      | some ('\x7d' :: rest) => some (.obj [], rest)
      | some rest =>
        (parsePair fuel (depth + 1) rest).bind fun p =>
          (parseMembers fuel (depth + 1) p.2).map fun r => (.obj (membersOf (p.1 :: r.1)), r.2)
      | none => none
  | _ + 1, _, 'n' :: 'u' :: 'l' :: 'l' :: cs => some (.null, cs)
  | _ + 1, _, 't' :: 'r' :: 'u' :: 'e' :: cs => some (.bool true, cs)
  | _ + 1, _, 'f' :: 'a' :: 'l' :: 's' :: 'e' :: cs => some (.bool false, cs)
  | _ + 1, _, cs => parseNumber cs

/-- The elements after the first, up to the closing bracket. -/
def parseElems : Nat → Nat → List Char → Option (List Json × List Char)
  | 0, _, _ => none
  | fuel + 1, depth, cs =>
    match ignore .plain cs with
    | some (']' :: rest) => some ([], rest)
    | some (',' :: rest) =>
      ((ignore .plain rest).bind (parseValue fuel depth)).bind fun p =>
        (parseElems fuel depth p.2).map fun r => (p.1 :: r.1, r.2)
    | _ => none

/-- A name, a colon and a value. -/
def parsePair : Nat → Nat → List Char → Option ((String × Json) × List Char)
  | 0, _, _ => none
  | fuel + 1, depth, '"' :: cs =>
    match parseString cs with
    | some (k, rest) =>
      match ignore .plain rest with
      | some (':' :: rest) =>
        ((ignore .plain rest).bind (parseValue fuel depth)).map fun r =>
          ((String.ofList k, r.1), r.2)
      | _ => none
    | none => none
  | _ + 1, _, _ => none

/-- The members after the first, up to the closing brace. -/
def parseMembers : Nat → Nat → List Char → Option (List (String × Json) × List Char)
  | 0, _, _ => none
  | fuel + 1, depth, cs =>
    match ignore .plain cs with
    | some ('\x7d' :: rest) => some ([], rest)
    | some (',' :: rest) =>
      ((ignore .plain rest).bind (parsePair fuel depth)).bind fun p =>
        (parseMembers fuel depth p.2).map fun r => (p.1 :: r.1, r.2)
    | _ => none
end

/-- Is this text an object or an array? The gem takes no other value at the top. -/
def startsContainer : List Char → Bool
  | c :: _ => c == '[' || c == '\x7b'
  | [] => false

/-- `JSON.parse` on characters. -/
def Json.parseText (cs : List Char) : Option Json :=
  match ignore .plain cs with
  | some start =>
    if startsContainer start then
      match parseValue (start.length + 1) 0 start with
      | some (j, rest) => if ignore .plain rest = some [] then some j else none
      | none => none
    else none
  | none => none

/-- `JSON.parse`, with `none` where it raises. -/
def Json.parse (s : String) : Option Json := Json.parseText s.toList

end Curarium
