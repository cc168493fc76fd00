import PropertyIndex.Chain.Lookup
import PropertyIndex.Config

/-!
# Indexes

An index keeps one child per key in a tree, its entry, and below the entry a match for every content
path that has the key.

* `OrderedIndex`   an index whose entries form a chain in the order of their keys;
* `Index`          an ordered index or an unordered one.
-/

namespace PropertyIndex

/-- an index whose entries form a chain -/
structure OrderedIndex (σ : Type) where
  direction : Direction := .ascending
  maxKeyLength : Nat := defaultKeyLength.toNat
  lookup : Lookup σ := Lookup.scan

/-- the ordered index of a definition, if the definition can be used -/
def OrderedIndex.ofConfig {σ : Type} (c : Config) : Except Error (OrderedIndex σ) :=
  match c.validate with
  | .error e => .error e
  | .ok () => .ok { direction := c.direction, maxKeyLength := c.maxKeyLength.toNat }

/-- an index: its entries are children in any order, or they form a chain -/
inductive Index (σ : Type) where
  | unordered
  | ordered (o : OrderedIndex σ)

namespace Index

variable {σ : Type}

/-- the names that are no keys because the index uses them itself -/
def isReserved (i : Index σ) (key : String) : Bool :=
  match i with
  | .unordered => false
  | .ordered _ => key = startName

/-- whether a key has an entry; an entry of an ordered index has a pointer -/
def containsKey (i : Index σ) (t : Node σ) (key : String) : Bool :=
  match i with
  | .unordered => t.hasChild key
  | .ordered _ => key ≠ startName && ((t.child? key).map (·.hasProp nextName)).getD false

/-- the entries: all children in the order of names, or the chain -/
def entries (i : Index σ) (t : Node σ) : List (Item σ) :=
  match i with
  | .unordered => t.children.map fun p => .ok ⟨p.1, some p.2⟩
  | .ordered _ => t.chain false

end Index

end PropertyIndex
