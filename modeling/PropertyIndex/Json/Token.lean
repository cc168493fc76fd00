import PropertyIndex.Json.Text

/-!
# Tokens of JSON documents

* `Json.Token`        a bracket, a separator, a word, a numeral or a text;
* `Json.isNumeral`    the numerals: no leading zero, digits on both sides of the point;
* `Json.tokens?`      the tokens of a document, or nothing if some part of it is none.

A word or numeral is the longest run of the characters that can occur in one.  That is no
restriction, since two of them never stand side by side in a document.
-/

namespace PropertyIndex.Json

inductive Token where
  | openArray
  | closeArray
  | openObject
  | closeObject
  | comma
  | colon
  | null
  | flag (b : Bool)
  | number (digits : List Char)
  | text (pieces : List Piece)
deriving DecidableEq, Repr

/-! ## Numerals -/

def isDigits (cs : List Char) : Bool := !cs.isEmpty && cs.all Char.isDigit

/-- the rest of a numeral from its exponent on -/
def isExponent : List Char → Bool
  | [] => true
  | c :: r =>
    (c = 'e' || c = 'E') &&
      match r with
      | '+' :: r => isDigits r
      | '-' :: r => isDigits r
      | r => isDigits r

/-- the rest of a numeral from its fraction on -/
def isFraction : List Char → Bool
  | '.' :: d :: r => d.isDigit && isExponent (r.dropWhile Char.isDigit)
  | r => isExponent r

def isUnsigned : List Char → Bool
  | [] => false
  | '0' :: r => isFraction r
  | c :: r => c.isDigit && isFraction (r.dropWhile Char.isDigit)

def isNumeral : List Char → Bool
  | '-' :: r => isUnsigned r
  | r => isUnsigned r

/-! ## Words -/

/-- the characters of words and numerals -/
def isWordChar (c : Char) : Bool := c.isAlphanum || c = '+' || c = '-' || c = '.'

/-- the token of a word or numeral -/
def ofWord? (w : List Char) : Option Token :=
  if w = ['n', 'u', 'l', 'l'] then some .null
  else if w = ['t', 'r', 'u', 'e'] then some (.flag true)
  else if w = ['f', 'a', 'l', 's', 'e'] then some (.flag false)
  else if isNumeral w then some (.number w)
  else none

def ofChar? (c : Char) : Option Token :=
  if c = '[' then some .openArray
  else if c = ']' then some .closeArray
  else if c = '\x7b' then some .openObject
  else if c = '\x7d' then some .closeObject
  else if c = ',' then some .comma
  else if c = ':' then some .colon
  else none

/-- the characters that may stand between tokens -/
def isSpace (c : Char) : Bool := c = ' ' || c = '\t' || c = '\n' || c = '\r'

/-- puts the token of a finished word before the tokens behind it; an empty word is none -/
def close (w : List Char) (behind : Option (List Token)) : Option (List Token) :=
  if w = [] then behind
  else
    match ofWord? w with
    | none => none
    | some t => behind.map (t :: ·)

/-! ## Documents -/

mutual

/-- the tokens from here on, behind an unfinished word (its last character first) -/
def scan (word : List Char) : List Char → Option (List Token)
  | [] => close word.reverse (some [])
  | c :: r =>
    if isWordChar c then scan (c :: word) r
    else if c = '"' then close word.reverse (scanText [] r)
    else if isSpace c then close word.reverse (scan [] r)
    else
      match ofChar? c with
      | none => none
      | some t => close word.reverse ((scan [] r).map (t :: ·))

/-- the tokens from here on, inside a text (its last piece first) -/
def scanText (pieces : List Piece) : List Char → Option (List Token)
  | [] => none
  | '"' :: r => (scan [] r).map (.text pieces.reverse :: ·)
  | '\\' :: 'u' :: a :: b :: c :: d :: r =>
    match unit? a b c d with
    | none => none
    | some u => scanText (.unit u :: pieces) r
  | '\\' :: c :: r =>
    match escaped? c with
    | none => none
    | some x => scanText (.char x :: pieces) r
  | c :: r => if isControl c then none else scanText (.char c :: pieces) r

end

def tokens? (cs : List Char) : Option (List Token) := scan [] cs

end PropertyIndex.Json
