import Curarium.Json.Value

/-!
# `inspect`: how a value is written into the `hstore`

ActiveRecord stores an `hstore` value that is not a string as `value.to_s`, and the `to_s` of an
array is its `inspect` text. This module prints values the way Ruby does:

* `Decimal.toS` and `Flt.toS` are `Float#to_s`;
* `inspectStr` is `String#inspect`;
* `Json.inspect` is `inspect` on any value, and `Json.toS` is `to_s`.

Whether a character beyond ASCII is printable is a Unicode table of the interpreter. It is the
parameter `printable` throughout, and no result depends on it.
-/

namespace Curarium

/-! ### Floats -/

/-- The exponent of `Float#to_s`: a sign and at least two digits (`"e%+03d"`). -/
def exponentText (e : Int) : List Char :=
  let ds := Nat.toDigits 10 e.natAbs
  'e' :: (if e < 0 then '-' else '+') :: (if ds.length < 2 then '0' :: ds else ds)

/-- The unsigned part of `Float#to_s`. `decpt` is where the point stands among the digits: a
value from `10 ^ -4` up to `10 ^ 16` is written without an exponent. -/
def Decimal.magnitudeText (d : Decimal) : List Char :=
  let ds := Nat.toDigits 10 d.mant
  let decpt : Int := d.exp + ds.length
  if d.mant = 0 then ['0', '.', '0']
  else if 0 < decpt ∧ decpt ≤ 16 then
    if decpt < ds.length then ds.take decpt.toNat ++ '.' :: ds.drop decpt.toNat
    else ds ++ List.replicate d.exp.toNat '0' ++ ['.', '0']
  else if -4 < decpt ∧ decpt ≤ 0 then
    '0' :: '.' :: (List.replicate (-decpt).toNat '0' ++ ds)
  else
    ds.take 1 ++ '.' :: (if ds.length = 1 then ['0'] else ds.drop 1) ++ exponentText (decpt - 1)

/-- `Float#to_s` of a finite float. -/
def Decimal.toS (d : Decimal) : List Char :=
  if d.neg then '-' :: d.magnitudeText else d.magnitudeText

/-- `Float#to_s`. -/
def Flt.toS : Flt → List Char
  | .finite d => d.toS
  | .infinite neg => if neg then "-Infinity".toList else "Infinity".toList

/-! ### Strings -/

/-- An upper-case hexadecimal digit. -/
def hexDigit (n : Nat) : Char := (Nat.digitChar n).toUpper

/-- `"%04X"` of a number below `16 ^ 4`. -/
def hex4 (n : Nat) : List Char :=
  [hexDigit (n / 4096 % 16), hexDigit (n / 256 % 16), hexDigit (n / 16 % 16), hexDigit (n % 16)]

/-- The escape of a character that is not printable. -/
def unicodeEscape (c : Char) : List Char :=
  if c.toNat < 0x10000 then '\\' :: 'u' :: hex4 c.toNat
  else '\\' :: 'u' :: '\x7b' :: (Ruby.upcase (Nat.toDigits 16 c.toNat) ++ ['\x7d'])

/-- The letter that follows the backslash in the escape of a control character. -/
def controlEscape (c : Char) : Option Char :=
  match c.toNat with
  | 0x07 => some 'a'
  | 0x08 => some 'b'
  | 0x09 => some 't'
  | 0x0A => some 'n'
  | 0x0B => some 'v'
  | 0x0C => some 'f'
  | 0x0D => some 'r'
  | 0x1B => some 'e'
  | _ => none

/-- Does `#` before this character start an interpolation? -/
def startsInterpolation : List Char → Bool
  | c :: _ => c == '\x7b' || c == '$' || c == '@'
  | [] => false

section Inspect

variable (printable : Char → Bool)

/-- `rb_enc_isprint`: ASCII from the space to the tilde, beyond ASCII as the table says. -/
def isPrint (c : Char) : Bool :=
  if c.toNat < 0x80 then 0x20 ≤ c.toNat && c.toNat ≤ 0x7E else printable c

/-- One character of `String#inspect`, given the text after it. -/
def inspectChar (c : Char) (rest : List Char) : List Char :=
  if c = '"' ∨ c = '\\' ∨ (c = '#' ∧ startsInterpolation rest = true) then ['\\', c]
  else match controlEscape c with
    | some l => ['\\', l]
    | none => if isPrint printable c then [c] else unicodeEscape c

/-- `String#inspect` without the quotes. -/
def inspectBody : List Char → List Char
  | [] => []
  | c :: cs => inspectChar printable c cs ++ inspectBody cs

/-- `String#inspect`. -/
def inspectStr (cs : List Char) : List Char := '"' :: (inspectBody printable cs ++ ['"'])

/-! ### Values -/

mutual
/-- `Object#inspect` on what `JSON.parse` builds. -/
def Json.inspect : Json → List Char
  | .null => "nil".toList
  | .bool b => if b then "true".toList else "false".toList
  | .int z => Ruby.toS z
  | .float f => f.toS
  | .str s => inspectStr printable s.toList
  | .arr [] => ['[', ']']
  | .arr (x :: xs) => '[' :: (Json.inspect x ++ inspectElems xs)
  | .obj [] => ['\x7b', '\x7d']
  | .obj ((k, x) :: ms) =>
    '\x7b' :: (inspectStr printable k.toList ++ '=' :: '>' :: (Json.inspect x ++ inspectMembers ms))

/-- The elements of an array after the first, and the closing bracket. -/
def inspectElems : List Json → List Char
  | [] => [']']
  | x :: xs => ',' :: ' ' :: (Json.inspect x ++ inspectElems xs)

/-- The members of a hash after the first, and the closing brace. -/
def inspectMembers : List (String × Json) → List Char
  | [] => ['\x7d']
  | (k, x) :: ms =>
    ',' :: ' ' :: (inspectStr printable k.toList ++ '=' :: '>' :: (Json.inspect x ++ inspectMembers ms))
end

/-- `Object#to_s`: a string is itself, `nil` is empty, anything else its `inspect` text. -/
def Json.toS : Json → List Char
  | .str s => s.toList
  | .null => []
  | j => j.inspect printable

end Inspect

end Curarium
