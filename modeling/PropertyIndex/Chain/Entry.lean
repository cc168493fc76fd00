import PropertyIndex.Error
import PropertyIndex.Node

/-!
# Entries of an index

An ordered index links its entries: the property `:next` of an entry names the entry after it, and
the child `:start` of the index, the head, names the first one.  The empty name ends the chain.

* `Node.successor`   the name that a node points to;
* `Entry`            one element of the entry sequence of an index.
-/

namespace PropertyIndex

/-- the child that is the head of a chain -/
def startName : String := ":start"

/-- the property that points to the next entry -/
def nextName : String := ":next"

/-- the name that a node points to; without a text there, the empty name -/
def Node.successor {σ : Type} (n : Node σ) : String := (n.text? nextName).getD ""

/-- an element of the entry sequence; only a head that was never written to has no node -/
structure Entry (σ : Type) where
  name : String
  node : Option (Node σ)

/-- what an entry sequence yields: an entry, or the error that ends it -/
abbrev Item (σ : Type) := Except Error (Entry σ)

namespace Entry

variable {σ : Type}

def next (e : Entry σ) : String := (e.node.map Node.successor).getD ""

/-- the head of a chain, as an entry -/
def start (index : Node σ) : Entry σ := ⟨startName, index.child? startName⟩

@[simp] theorem next_some (name : String) (n : Node σ) : next ⟨name, some n⟩ = n.successor := rfl

@[simp] theorem next_none (name : String) : next (⟨name, none⟩ : Entry σ) = "" := rfl

end Entry

end PropertyIndex
