/-!
# Property values

* `Value`           what a property holds: a text, a flag or a 64-bit whole number;
* `Value.keyText`   the text under which a value is indexed.
-/

namespace PropertyIndex

inductive Value where
  | text (s : String)
  | flag (b : Bool)
  | number (n : Int64)
deriving DecidableEq, Repr

namespace Value

def text? : Value → Option String
  | .text s => some s
  | _ => none

def flag? : Value → Option Bool
  | .flag b => some b
  | _ => none

/-- the text under which a value is indexed: texts as they are, flags as words, numbers in decimal -/
def keyText : Value → String
  | .text s => s
  | .flag true => "true"
  | .flag false => "false"
  | .number n => toString n.toInt

@[simp] theorem text?_text (s : String) : (Value.text s).text? = some s := rfl

@[simp] theorem flag?_flag (b : Bool) : (Value.flag b).flag? = some b := rfl

end Value

end PropertyIndex
