import PropertyIndex.Config
import PropertyIndex.Direction.Spelling
import PropertyIndex.Json.Value

/-!
# Config documents

A definition is written as a JSON object with four members, or as an array of its fields.  Every
field may be left out; an array leaves out the last ones.  Members of other names are skipped, and a
field given twice is an error.

* `Config.Field`     the four fields, in the order of an array;
* `Config.ofValue?`  the definition that a JSON value stands for;
* `Config.read?`     the definition in a document;
* `Config.render`    writes a definition as an object without any spaces.
-/

namespace PropertyIndex.Config

/-- the fields of a definition -/
inductive Field where
  | name
  | propertyNames
  | direction
  | maxKeyLength
deriving DecidableEq, Repr

namespace Field

def all : List Field := [.name, .propertyNames, .direction, .maxKeyLength]

def label : Field → String
  | .name => "name"
  | .propertyNames => "propertyNames"
  | .direction => "direction"
  | .maxKeyLength => "maxKeyLength"

/-- the field that the member of a name holds -/
def ofLabel? (s : String) : Option Field := all.find? fun f => f.label = s

@[simp] theorem ofLabel?_label (f : Field) : ofLabel? f.label = some f := by
  cases f <;> decide

end Field

/-- the direction that a value stands for: a word, or an object that gives null to a word -/
def direction? : Json.Value → Option Direction
  | .text t => (Json.decode? t).bind fun cs => Direction.ofWord? (String.ofList cs)
  | .object [(t, .null)] => (Json.decode? t).bind fun cs => Direction.ofWord? (String.ofList cs)
  | _ => none

/-- the fields found so far -/
structure Draft where
  name : Option String := none
  propertyNames : Option (List String) := none
  direction : Option Direction := none
  maxKeyLength : Option UInt64 := none
deriving DecidableEq, Repr

namespace Draft

def has (d : Draft) : Field → Bool
  | .name => d.name.isSome
  | .propertyNames => d.propertyNames.isSome
  | .direction => d.direction.isSome
  | .maxKeyLength => d.maxKeyLength.isSome

/-- adds the value of a field, which has to be of its type -/
def put (d : Draft) (f : Field) (v : Json.Value) : Option Draft :=
  match f with
  | .name => v.text?.map fun x => { d with name := some x }
  | .propertyNames => v.texts?.map fun x => { d with propertyNames := some x }
  | .direction => (direction? v).map fun x => { d with direction := some x }
  | .maxKeyLength => v.word64?.map fun x => { d with maxKeyLength := some x }

/-- adds the members of an object; names have to be texts with a value, known ones not repeated -/
def putMembers : Draft → List (List Json.Piece × Json.Value) → Option Draft
  | d, [] => some d
  | d, (k, v) :: r =>
    match Json.decode? k with
    | none => none
    | some cs =>
      match Field.ofLabel? (String.ofList cs) with
      | none => putMembers d r
      | some f =>
        if d.has f then none
        else
          match d.put f v with
          | none => none
          | some d => putMembers d r

/-- adds the items of an array to the fields at the same places; no item may be left over -/
def putItems : Draft → List Field → List Json.Value → Option Draft
  | d, _, [] => some d
  | _, [], _ :: _ => none
  | d, f :: fs, v :: vs =>
    match d.put f v with
    | none => none
    | some d => putItems d fs vs

def config (d : Draft) : Config where
  name := d.name.getD ""
  propertyNames := d.propertyNames.getD []
  direction := d.direction.getD .ascending
  maxKeyLength := d.maxKeyLength.getD defaultKeyLength

end Draft

/-- the definition that a JSON value stands for -/
def ofValue? : Json.Value → Option Config
  | .object members => (Draft.putMembers {} members).map Draft.config
  | .array items => (Draft.putItems {} Field.all items).map Draft.config
  | _ => none

def read? (document : String) : Option Config := (Json.read? document).bind ofValue?

/-! ## Writing -/

def renderTexts (l : List String) : List Char :=
  '[' :: [','].intercalate (l.map fun s => Json.quote s.toList) ++ [']']

def renderMember (f : Field) (value : List Char) : List Char :=
  Json.quote f.label.toList ++ ':' :: value

/-- a definition as an object without any spaces -/
def render (c : Config) : String :=
  String.ofList ('\x7b' ::
    [','].intercalate
      [renderMember .name (Json.quote c.name.toList),
        renderMember .propertyNames (renderTexts c.propertyNames),
        renderMember .direction (Json.quote c.direction.label.toList),
        renderMember .maxKeyLength (Nat.toDigits 10 c.maxKeyLength.toNat)] ++ ['\x7d'])

end PropertyIndex.Config
