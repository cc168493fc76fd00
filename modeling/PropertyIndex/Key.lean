import PropertyIndex.Error
import PropertyIndex.KeySet
import PropertyIndex.Text.Hex
import PropertyIndex.Value

/-!
# Keys

A key is the name under which an index keeps a value.  ASCII letters and digits and the marks
`.`, `-`, `*` and `_` stand for themselves, a space is written `+`, every other character is written
byte by byte as a per-cent sign and two upper-case digits, and the empty text is written `:`.

* `Key.encode`   the key of a text, cut to a length counted in characters;
* `Key.decode`   the text of a key; digits of either case are read, a per-cent sign without two
                 digits stands for itself;
* `Key.check`    whether a text can be the name of one node.
-/

namespace PropertyIndex.Key

def emptyToken : String := ":"

/-- the characters that stand for themselves -/
def isKept (c : Char) : Bool := c.isAlphanum || c = '.' || c = '-' || c = '*' || c = '_'

/-- a byte as a per-cent sign and two digits -/
def escapeByte (b : UInt8) : List Char :=
  ['%', Text.Hex.upper (b.toNat / 16), Text.Hex.upper (b.toNat % 16)]

/-- one character of a text as it is written in a key -/
def encodeChar (c : Char) : List Char :=
  if isKept c then [c]
  else if c = ' ' then ['+']
  else (String.utf8EncodeChar c).flatMap escapeByte

/-- the key of the first `maxLength` characters of a text -/
def encode (value : String) (maxLength : Nat) : String :=
  match value.toList.take maxLength with
  | [] => emptyToken
  | c :: cs => String.ofList ((c :: cs).flatMap encodeChar)

/-- the bytes that the characters of a key stand for -/
def bytes : List Char → List UInt8
  | [] => []
  | '%' :: h :: l :: r =>
    match Text.Hex.value? h, Text.Hex.value? l with
    | some a, some b => UInt8.ofNat (16 * a + b) :: bytes r
    | _, _ => 0x25 :: bytes (h :: l :: r)
  | '+' :: r => 0x20 :: bytes r
  | c :: r => String.utf8EncodeChar c ++ bytes r

def decode (key : String) : Except Error String :=
  if key = emptyToken then .ok ""
  else
    match String.fromUTF8? (bytes key.toList).toByteArray with
    | some s => .ok s
    | none => .error (.illFormedKey key)

/-- the keys of some values, ascending and without repetitions -/
def encodeAll (values : List Value) (maxLength : Nat) : List String :=
  KeySet.ofList (values.map fun v => encode v.keyText maxLength)

/-- a key has to be the name of one node: not empty and without a slash -/
def check (key : String) : Except Error Unit :=
  if key = "" then .error .emptyKey
  else if '/' ∈ key.toList then .error (.compoundKey key)
  else .ok ()

theorem check_eq_ok_iff {key : String} : check key = .ok () ↔ key ≠ "" ∧ '/' ∉ key.toList := by
  unfold check
  split
  · next h => simp [h]
  · next h =>
    split
    · next h' => simp [h']
    · next h' => simp [h, h']

end PropertyIndex.Key
