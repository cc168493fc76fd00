import PropertyIndex.Chain.Walk

/-!
# Places in a chain

* `insertionPoint`   the neighbours between which a new key belongs;
* `Lookup`           ways to find the entry that points to a key: `Lookup.scan` walks the chain,
                     `Lookup.anyPointer` takes the first child that points there.
-/

namespace PropertyIndex

variable {σ : Type}

def Node.firstKey (index : Node σ) : Option String :=
  ((index.child? startName).bind (·.text? nextName)).filter (· ≠ "")

/-- the first entry with nothing or a later key behind it, and the key behind it -/
def insertionPointIn (d : Direction) (key : String) : List (Item σ) →
    Except Error (String × String)
  | [] => .error (.corruption (.noInsertionPoint key))
  | .error e :: _ => .error e
  | .ok x :: r =>
    if x.next = "" ∨ d.precedes key x.next then .ok (x.name, x.next) else insertionPointIn d key r

/-- the entry after which a new key belongs, and the key behind it; a chain without entries is
entered at its head without a walk -/
def insertionPoint (d : Direction) (index : Node σ) (key : String) :
    Except Error (String × String) :=
  match index.firstKey with
  | none => .ok (startName, "")
  | some _ => insertionPointIn d key (index.chain true)

/-- a way to find the name of the entry that points to a key -/
abbrev Lookup (σ : Type) := Node σ → String → Except Error (Option String)

namespace Lookup

/-- the name before the first item that has the name sought -/
def before (target : String) : Option String → List (Item σ) → Except Error (Option String)
  | _, [] => .ok none
  | _, .error e :: _ => .error e
  | previous, .ok x :: r =>
    if x.name = target then .ok previous else before target (some x.name) r

/-- walks the chain from its head; the head itself has nothing before it -/
def scan : Lookup σ := fun index target =>
  if target = startName then .ok none else before target none (index.chain true)

/-- the first child, in the order of names, that points to the key -/
def anyPointer : Lookup σ := fun index target =>
  .ok ((index.children.find? fun p => p.2.text? nextName = some target).map Prod.fst)

def never : Lookup σ := fun _ _ => .ok none

end Lookup

def lastName : Option String → List (Item σ) → Except Error (Option String)
  | last, [] => .ok last
  | _, .error e :: _ => .error e
  | _, .ok x :: r => lastName (some x.name) r

def Node.lastKey (index : Node σ) : Except Error (Option String) :=
  lastName none (index.chain false)

end PropertyIndex
