import PropertyIndex.Error

/-!
# The definition of an index

* `Config`            name, indexed properties, direction, and how long a key may be;
* `Config.validate`   a definition can be used if keys are not cut to nothing and no property has
                      the empty name.
-/

namespace PropertyIndex

/-- the longest key, in characters before encoding, unless a definition says otherwise -/
def defaultKeyLength : UInt64 := 100

/-- the definition of an index -/
structure Config where
  name : String := ""
  propertyNames : List String := []
  direction : Direction := .ascending
  maxKeyLength : UInt64 := defaultKeyLength
deriving DecidableEq, Repr

namespace Config

def addProperty (c : Config) (property : String) : Config :=
  { c with propertyNames := c.propertyNames ++ [property] }

/-- whether a definition can be used -/
def validate (c : Config) : Except Error Unit :=
  if c.maxKeyLength = 0 then .error .zeroKeyLength
  else if "" ∈ c.propertyNames then .error (.emptyPropertyName c.name)
  else .ok ()

def indexes (c : Config) (property : String) : Bool := c.propertyNames.contains property

theorem validate_eq_ok_iff {c : Config} :
    c.validate = .ok () ↔ c.maxKeyLength ≠ 0 ∧ "" ∉ c.propertyNames := by
  unfold validate
  split
  · next h => simp [h]
  · next h =>
    split
    · next h' => simp [h']
    · next h' => simp [h, h']

end Config

end PropertyIndex
