import PropertyIndex.Json.Token

/-!
# JSON values

* `Json.Value`      a value as it is written: numerals and texts keep their spelling, members their
                    order and repetitions;
* `Json.Value.tokens`   the tokens of a value;
* `Json.read?`      the value of a document, if it is well formed.
-/

namespace PropertyIndex.Json

inductive Value where
  | null
  | flag (b : Bool)
  | number (digits : List Char)
  | text (pieces : List Piece)
  | array (items : List Value)
  | object (members : List (List Piece × Value))

namespace Value

mutual

def tokens : Value → List Token
  | .null => [.null]
  | .flag b => [.flag b]
  | .number w => [.number w]
  | .text t => [.text t]
  | .array [] => [.openArray, .closeArray]
  | .array (v :: r) => .openArray :: tokens v ++ itemTokens r
  | .object [] => [.openObject, .closeObject]
  | .object ((k, v) :: r) => .openObject :: .text k :: .colon :: tokens v ++ memberTokens r

/-- the tokens behind the first item of an array -/
def itemTokens : List Value → List Token
  | [] => [.closeArray]
  | v :: r => .comma :: tokens v ++ itemTokens r

/-- the tokens behind the first member of an object -/
def memberTokens : List (List Piece × Value) → List Token
  | [] => [.closeObject]
  | (k, v) :: r => .comma :: .text k :: .colon :: tokens v ++ memberTokens r

end

end Value

/-! ## Reading -/

/-- what encloses the value being read; what was read before it stands in reverse -/
inductive Frame where
  | array (items : List Value)
  | object (members : List (List Piece × Value)) (name : List Piece)

mutual

/-- reads a value and then what follows it -/
def value? : List Frame → List Token → Option Value
  | fs, .null :: ts => after? fs .null ts
  | fs, .flag b :: ts => after? fs (.flag b) ts
  | fs, .number w :: ts => after? fs (.number w) ts
  | fs, .text t :: ts => after? fs (.text t) ts
  | fs, .openArray :: .closeArray :: ts => after? fs (.array []) ts
  | fs, .openArray :: ts => value? (.array [] :: fs) ts
  | fs, .openObject :: .closeObject :: ts => after? fs (.object []) ts
  | fs, .openObject :: .text k :: .colon :: ts => value? (.object [] k :: fs) ts
  | _, _ => none

/-- reads on behind a value: another one in the same frame, or the end of the frame -/
def after? : List Frame → Value → List Token → Option Value
  | [], v, [] => some v
  | .array vs :: fs, v, .comma :: ts => value? (.array (v :: vs) :: fs) ts
  | .array vs :: fs, v, .closeArray :: ts => after? fs (.array (v :: vs).reverse) ts
  | .object ms k :: fs, v, .comma :: .text k' :: .colon :: ts =>
    value? (.object ((k, v) :: ms) k' :: fs) ts
  | .object ms k :: fs, v, .closeObject :: ts => after? fs (.object ((k, v) :: ms).reverse) ts
  | _, _, _ => none

end

def read? (document : String) : Option Value := (tokens? document.toList).bind (value? [])

/-! ## Parts of a value -/

namespace Value

def text? : Value → Option String
  | .text t => (decode? t).map String.ofList
  | _ => none

/-- the texts that an array stands for -/
def texts? : Value → Option (List String)
  | .array items => items.mapM text?
  | _ => none

/-- the number that decimal digits stand for -/
def ofDigits (w : List Char) : Nat := w.foldl (fun n c => 10 * n + (c.toNat - 48)) 0

/-- the 64-bit number that a value stands for: digits only -/
def word64? : Value → Option UInt64
  | .number w =>
    if w.all Char.isDigit ∧ ofDigits w < UInt64.size then some (UInt64.ofNat (ofDigits w)) else none
  | _ => none

end Value

end PropertyIndex.Json
