import PropertyIndex.Node

/-!
# The outline of a tree

* `Node.outline`   every node with its depth and name, parents before children, siblings in order.
-/

namespace PropertyIndex

/-- one node of an outline -/
structure OutlineRow where
  depth : Nat
  name : String
  props : SortedMap Value
deriving DecidableEq, Repr

namespace Node

variable {σ : Type}

mutual

/-- the rows of a node that stands at a depth under a name -/
def outlineAt (depth : Nat) (name : String) : Node σ → List OutlineRow
  | ⟨_, ps, cs⟩ => ⟨depth, name, ps⟩ :: outlineAll (depth + 1) cs

def outlineAll (depth : Nat) : List (String × Node σ) → List OutlineRow
  | [] => []
  | (name, n) :: r => outlineAt depth name n ++ outlineAll depth r

end

/-- the rows of a whole tree; its root has no name -/
def outline (n : Node σ) : List OutlineRow := n.outlineAt 0 ""

end Node

end PropertyIndex
