import Curarium.Library.Transducer

/-!
# The lexical structure of SQL

How PostgreSQL cuts a statement into tokens, with `standard_conforming_strings` on, as a
transducer over the characters of the statement (`step`, `flush`).

* A string literal ends at a quote that is not doubled, and goes on with the next literal if only
  white space with a line break is between the two (`Mode.gap`).
* A letter before the quote makes it a string of another kind, with escapes of its own; a text
  between dollar signs with the same tag is a string as well.
* Comments run to the end of the line, or nest between `/*` and `*/`.
* An operator takes all the operator characters it can, but one of several characters does not
  end in a sign unless it has a character that standard operators lack (`opTokens`).
-/

namespace Curarium
namespace Sql

/-- The kinds of string constants. -/
inductive StrKind where
  | standard
  | escape
  | bit
  | hex
  | unicode
  | dollar
deriving DecidableEq

/-- The kinds of numeric constants. -/
inductive NumKind where
  | integer
  | decimal
  | real
deriving DecidableEq

inductive Token where
  /-- A keyword or an identifier, folded to lower case. -/
  | word (s : String)
  /-- An identifier in double quotes. -/
  | quoted (s : String)
  | op (s : String)
  | punct (c : Char)
  | number (kind : NumKind) (s : String)
  | str (kind : StrKind) (s : String)
  | param (s : String)
  /-- A character that starts no token. -/
  | junk (c : Char)
  /-- A literal, an identifier or a comment that does not end. -/
  | unterminated
deriving DecidableEq

/-- Where the gap after a closed literal stands: in white space, after a dash, in a comment. -/
inductive Gap where
  | space
  | dash
  | comment
deriving DecidableEq

/-- What the lexer is reading. -/
inductive Mode where
  | idle
  | word (acc : List Char)
  /-- After `u&`. -/
  | unicodeMark (acc : List Char)
  | number (kind : NumKind) (acc : List Char)
  /-- After the `e` of an exponent. -/
  | exponent (kind : NumKind) (acc : List Char) (e : Char)
  | exponentSign (kind : NumKind) (acc : List Char) (e sign : Char)
  | op (acc : List Char)
  | colon
  | dot
  | str (kind : StrKind) (acc : List Char)
  /-- After a backslash of an escape string. -/
  | escaped (acc : List Char)
  /-- After a quote in a string: the end of it, or the first of two. -/
  | quote (kind : StrKind) (acc : List Char)
  /-- After the end of a string, in white space before what may be its continuation. -/
  | gap (kind : StrKind) (acc : List Char) (newline : Bool) (at' : Gap)
  | ident (acc : List Char)
  | identQuote (acc : List Char)
  /-- The tag of a dollar quote. -/
  | tag (acc : List Char)
  | dollar (tag acc : List Char)
  | param (acc : List Char)
  | lineComment
  /-- A comment that nests, with the last character read if it may start a delimiter. -/
  | blockComment (depth : Nat) (last : Option Char)
deriving DecidableEq

/-! ### Characters -/

def isNewline (c : Char) : Bool := c == '\n' || c == '\r'

def isSpace (c : Char) : Bool := c == ' ' || c == '\t' || isNewline c || c == '\x0c'

def isIdentStart (c : Char) : Bool := c.isAlpha || c == '_' || 0x80 ≤ c.toNat

def isIdentCont (c : Char) : Bool := isIdentStart c || c.isDigit || c == '$'

def isOpChar (c : Char) : Bool := "~!@#^&|`?+-*/%<>=".toList.contains c

/-- The characters that let an operator end in a sign. -/
def isUnusualOpChar (c : Char) : Bool := "~!@#^&|`?%".toList.contains c

def isSelf (c : Char) : Bool := ",()[];".toList.contains c

/-! ### Tokens -/

def wordToken (acc : List Char) : Token := .word (String.ofList (acc.map Char.toLower))

def numberToken (kind : NumKind) (acc : List Char) : Token := .number kind (String.ofList acc)

def strToken (kind : StrKind) (acc : List Char) : Token := .str kind (String.ofList acc)

/-- The tokens of a run of operator characters. -/
def opTokens (acc : List Char) : List Token :=
  if acc.isEmpty then []
  else if acc.dropLast.any isUnusualOpChar then [.op (String.ofList acc)]
  else
    let signs := (acc.drop 1).reverse.takeWhile fun c => c == '+' || c == '-'
    .op (String.ofList (acc.take (acc.length - signs.length)))
      :: signs.reverse.map fun c => .op (String.singleton c)

/-! ### The transducer -/

/-- A character between tokens. -/
def start (c : Char) : Mode × List Token :=
  if isSpace c then (.idle, [])
  else if c = '\'' then (.str .standard [], [])
  else if c = '"' then (.ident [], [])
  else if c = '$' then (.tag [], [])
  else if isIdentStart c then (.word [c], [])
  else if c.isDigit then (.number .integer [c], [])
  else if isOpChar c then (.op [c], [])
  else if c = ':' then (.colon, [])
  else if c = '.' then (.dot, [])
  else if isSelf c then (.idle, [.punct c])
  else (.idle, [.junk c])

/-- A character after the end of a token. -/
def leave (toks : List Token) (c : Char) : Mode × List Token := ((start c).1, toks ++ (start c).2)

def wordStep (acc : List Char) (c : Char) : Mode × List Token :=
  if isIdentCont c then (.word (acc ++ [c]), [])
  else if c = '\'' ∧ (acc = ['e'] ∨ acc = ['E']) then (.str .escape [], [])
  else if c = '\'' ∧ (acc = ['b'] ∨ acc = ['B']) then (.str .bit [], [])
  else if c = '\'' ∧ (acc = ['x'] ∨ acc = ['X']) then (.str .hex [], [])
  else if c = '\'' ∧ (acc = ['n'] ∨ acc = ['N']) then (.str .standard [], [.word "nchar"])
  else if c = '&' ∧ (acc = ['u'] ∨ acc = ['U']) then (.unicodeMark acc, [])
  else leave [wordToken acc] c

def opStep (acc : List Char) (c : Char) : Mode × List Token :=
  if c = '-' ∧ acc.getLast? = some '-' then (.lineComment, opTokens acc.dropLast)
  else if c = '*' ∧ acc.getLast? = some '/' then (.blockComment 1 none, opTokens acc.dropLast)
  else if isOpChar c then (.op (acc ++ [c]), [])
  else leave (opTokens acc) c

def numberStep (kind : NumKind) (acc : List Char) (c : Char) : Mode × List Token :=
  if c.isDigit then (.number kind (acc ++ [c]), [])
  else if c = '.' ∧ kind = .integer then (.number .decimal (acc ++ [c]), [])
  else if (c = 'e' ∨ c = 'E') ∧ kind ≠ .real then (.exponent kind acc c, [])
  else leave [numberToken kind acc] c

/-- White space after a closed literal, and the quote that reopens it after a line break. -/
def gapStep (kind : StrKind) (acc : List Char) (newline : Bool) (c : Char) : Mode × List Token :=
  if isNewline c then (.gap kind acc true .space, [])
  else if isSpace c then (.gap kind acc newline .space, [])
  else if c = '-' then (.gap kind acc newline .dash, [])
  else if c = '\'' ∧ newline = true then (.str kind acc, [])
  else leave [strToken kind acc] c

def blockStep (depth : Nat) (last : Option Char) (c : Char) : Mode × List Token :=
  if last = some '/' ∧ c = '*' then (.blockComment (depth + 1) none, [])
  else if last = some '*' ∧ c = '/' then
    if depth ≤ 1 then (.idle, []) else (.blockComment (depth - 1) none, [])
  else (.blockComment depth (some c), [])

/-- One character. -/
def step : Mode → Char → Mode × List Token
  | .idle, c => start c
  | .word acc, c => wordStep acc c
  | .unicodeMark acc, c =>
    if c = '\'' then (.str .unicode [], [])
    else if c = '"' then (.ident [], [])
    else ((opStep ['&'] c).1, wordToken acc :: (opStep ['&'] c).2)
  | .number kind acc, c => numberStep kind acc c
  | .exponent kind acc e, c =>
    if c.isDigit then (.number .real (acc ++ [e, c]), [])
    else if c = '+' ∨ c = '-' then (.exponentSign kind acc e c, [])
    else ((wordStep [e] c).1, numberToken kind acc :: (wordStep [e] c).2)
  | .exponentSign kind acc e sign, c =>
    if c.isDigit then (.number .real (acc ++ [e, sign, c]), [])
    else ((opStep [sign] c).1, numberToken kind acc :: wordToken [e] :: (opStep [sign] c).2)
  | .op acc, c => opStep acc c
  | .colon, c =>
    if c = ':' then (.idle, [.op "::"])
    else if c = '=' then (.idle, [.op ":="])
    else leave [.punct ':'] c
  | .dot, c =>
    if c.isDigit then (.number .decimal ['.', c], [])
    else if c = '.' then (.idle, [.op ".."])
    else leave [.punct '.'] c
  | .str kind acc, c =>
    if c = '\'' then (.quote kind acc, [])
    else if c = '\\' ∧ kind = .escape then (.escaped acc, [])
    else (.str kind (acc ++ [c]), [])
  | .escaped acc, c => (.str .escape (acc ++ ['\\', c]), [])
  | .quote kind acc, c =>
    if c = '\'' then (.str kind (acc ++ ['\'']), []) else gapStep kind acc false c
  | .gap kind acc newline .space, c => gapStep kind acc newline c
  | .gap kind acc newline .dash, c =>
    if c = '-' then (.gap kind acc newline .comment, [])
    else ((opStep ['-'] c).1, strToken kind acc :: (opStep ['-'] c).2)
  | .gap kind acc newline .comment, c =>
    if isNewline c then (.gap kind acc true .space, []) else (.gap kind acc newline .comment, [])
  | .ident acc, c => if c = '"' then (.identQuote acc, []) else (.ident (acc ++ [c]), [])
  | .identQuote acc, c =>
    if c = '"' then (.ident (acc ++ ['"']), []) else leave [.quoted (String.ofList acc)] c
  | .tag acc, c =>
    if c = '$' then (.dollar acc [], [])
    else if isIdentStart c ∨ (acc ≠ [] ∧ c.isDigit) then (.tag (acc ++ [c]), [])
    else if acc = [] ∧ c.isDigit then (.param [c], [])
    else if acc = [] then leave [.junk '$'] c
    else ((wordStep acc c).1, .junk '$' :: (wordStep acc c).2)
  | .dollar tag acc, c =>
    if c = '$' ∧ ('$' :: tag) <:+ acc then
      (.idle, [strToken .dollar (acc.take (acc.length - (tag.length + 1)))])
    else (.dollar tag (acc ++ [c]), [])
  | .param acc, c =>
    if c.isDigit then (.param (acc ++ [c]), []) else leave [.param (String.ofList acc)] c
  | .lineComment, c => if isNewline c then (.idle, []) else (.lineComment, [])
  | .blockComment depth last, c => blockStep depth last c

/-- What is held at the end of the statement. -/
def flush : Mode → List Token
  | .idle => []
  | .word acc => [wordToken acc]
  | .unicodeMark acc => [wordToken acc, .op "&"]
  | .number kind acc => [numberToken kind acc]
  | .exponent kind acc e => [numberToken kind acc, wordToken [e]]
  | .exponentSign kind acc e sign =>
    [numberToken kind acc, wordToken [e], .op (String.singleton sign)]
  | .op acc => opTokens acc
  | .colon => [.punct ':']
  | .dot => [.punct '.']
  | .str _ _ => [.unterminated]
  | .escaped _ => [.unterminated]
  | .quote kind acc => [strToken kind acc]
  | .gap kind acc _ .dash => [strToken kind acc, .op "-"]
  | .gap kind acc _ _ => [strToken kind acc]
  | .ident _ => [.unterminated]
  | .identQuote acc => [.quoted (String.ofList acc)]
  | .tag acc => if acc = [] then [.junk '$'] else [.junk '$', wordToken acc]
  | .dollar _ _ => [.unterminated]
  | .param acc => [.param (String.ofList acc)]
  | .lineComment => []
  | .blockComment _ _ => [.unterminated]

/-- The tokens of a statement. -/
def lex (text : List Char) : List Token := Transducer.output step flush .idle text

end Sql
end Curarium
