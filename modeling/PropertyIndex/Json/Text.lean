import PropertyIndex.Text.Hex

/-!
# The texts of JSON documents

Between its quotes a JSON text is a sequence of pieces: characters, written as they are or by a
short escape, and 16-bit units, written `\u` with four digits.  Units that are halves of a pair
stand for one character together; a half alone stands for nothing, so not every text has a value.

* `Json.decode?`   the characters of a text, unless a half stands alone;
* `Json.quote`     writes characters as a text: quotes, backslashes and control characters are
                   escaped and all else is written as it is.
-/

namespace PropertyIndex.Json

inductive Piece where
  | char (c : Char)
  | unit (u : UInt16)
deriving DecidableEq, Repr

/-! ## Units -/

def isHigh (u : UInt16) : Bool := 0xD800 ≤ u && u < 0xDC00

def isLow (u : UInt16) : Bool := 0xDC00 ≤ u && u < 0xE000

def pair (hi lo : UInt16) : Char :=
  Char.ofNat (0x10000 + (hi.toNat - 0xD800) * 0x400 + (lo.toNat - 0xDC00))

/-- the unit of four hexadecimal digits -/
def unit? (a b c d : Char) : Option UInt16 :=
  match Text.Hex.value? a, Text.Hex.value? b, Text.Hex.value? c, Text.Hex.value? d with
  | some a, some b, some c, some d => some (UInt16.ofNat (((a * 16 + b) * 16 + c) * 16 + d))
  | _, _, _, _ => none

/-! ## Reading -/

/-- the characters of a text; halves have to come in pairs -/
def decode? : List Piece → Option (List Char)
  | [] => some []
  | .char c :: r => (decode? r).map (c :: ·)
  | .unit u :: r =>
    if isHigh u then
      match r with
      | .unit v :: r' => if isLow v then (decode? r').map (pair u v :: ·) else none
      | _ => none
    else if isLow u then none
    else (decode? r).map (Char.ofNat u.toNat :: ·)

/-- the character of a short escape -/
def escaped? (c : Char) : Option Char :=
  if c = '"' then some '"'
  else if c = '\\' then some '\\'
  else if c = '/' then some '/'
  else if c = 'b' then some '\x08'
  else if c = 'f' then some '\x0c'
  else if c = 'n' then some '\n'
  else if c = 'r' then some '\r'
  else if c = 't' then some '\t'
  else none

/-- a control character has to be escaped -/
def isControl (c : Char) : Bool := c.toNat < 0x20

/-! ## Writing -/

/-- one character inside a text -/
def escape (c : Char) : List Char :=
  if c = '"' then ['\\', '"']
  else if c = '\\' then ['\\', '\\']
  else if c = '\x08' then ['\\', 'b']
  else if c = '\x0c' then ['\\', 'f']
  else if c = '\n' then ['\\', 'n']
  else if c = '\r' then ['\\', 'r']
  else if c = '\t' then ['\\', 't']
  else if isControl c then
    ['\\', 'u', '0', '0', Text.Hex.lower (c.toNat / 16), Text.Hex.lower (c.toNat % 16)]
  else [c]

def quote (cs : List Char) : List Char := '"' :: cs.flatMap escape ++ ['"']

/-! ## Laws -/

@[simp] theorem decode?_nil : decode? [] = some [] := by simp [decode?]

@[simp] theorem decode?_char (c : Char) (r : List Piece) :
    decode? (.char c :: r) = (decode? r).map (c :: ·) := by rw [decode?]

end PropertyIndex.Json
