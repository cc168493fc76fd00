import PropertyIndex.Command

/-!
# Workspaces

A workspace holds named trees.  Every request has an epoch of its own, and the nodes that a write
goes through are marked with it.  A snapshot copies a tree with its marks.  Nodes never move, so the
child map of a node is known by the address of the node and its mark: its stamp.  Two nodes share
one child map exactly when their stamps are equal.

* `Workspace.step`     answers a request and goes on to the next epoch;
* `Workspace.stamp?`   the stamp of a node;
* `Workspace.shares?`  whether the nodes at one address of two trees share their child map.
-/

namespace PropertyIndex

/-- named trees, and the epoch of the next request -/
structure Workspace where
  trees : SortedMap (Node Nat)
  epoch : Nat

/-- what identifies a child map: where its node stands and when the map was last written to -/
structure Stamp where
  address : List String
  epoch : Nat
deriving DecidableEq, Repr

/-- a request that may change a workspace -/
inductive Request where
  | write (tree : String) (c : Command Nat)
  | clear (tree : String)
  /-- keeps a copy of a tree under another name -/
  | snapshot (source target : String)

namespace Workspace

/-- one empty tree with a name -/
def start (name : String) : Workspace := ⟨[(name, .empty 0)], 1⟩

/-- the tree of a name; it is empty until something is written to it -/
def tree (w : Workspace) (name : String) : Node Nat := (w.trees.get? name).getD (.empty w.epoch)

/-- puts a tree under a name and goes on to the next epoch -/
def set (w : Workspace) (name : String) (t : Node Nat) : Workspace :=
  ⟨w.trees.put name t, w.epoch + 1⟩

/-- answers a request and goes on to the next epoch -/
def step (w : Workspace) : Request → Workspace × Except Error (Answer Nat)
  | .write name c =>
    let o := c.run w.epoch (w.tree name)
    (w.set name o.tree, o.answer)
  | .clear name => (w.set name (.empty w.epoch), .ok .done)
  | .snapshot source target => (w.set target (w.tree source), .ok .done)

def run (w : Workspace) : List Request → Workspace
  | [] => w
  | r :: rs => run (w.step r).1 rs

def stamp? (w : Workspace) (name : String) (address : List String) : Option Stamp :=
  ((w.tree name).at? address).map fun n => ⟨address, n.mark⟩

/-- whether two trees have equal nodes at an address, if both have one -/
def equals? (w : Workspace) (a b : String) (address : List String) : Option Bool :=
  match (w.tree a).at? address, (w.tree b).at? address with
  | some n, some n' => some (n.forget = n'.forget)
  | _, _ => none

/-- whether two trees share the child map of their nodes at an address, if both have one -/
def shares? (w : Workspace) (a b : String) (address : List String) : Option Bool :=
  match w.stamp? a address, w.stamp? b address with
  | some s, some s' => some (s = s')
  | _, _ => none

end Workspace

end PropertyIndex
