import PropertyIndex.Node
import PropertyIndex.Path

/-!
# Matches

A node below an entry stands for a content path.  The property `match`, when it is true, says that
the path has the key of the entry.

* `Node.matched`, `Node.occupied`   a match at a node; whether a node may be pruned;
* `Node.matchCount`                 the matches in a subtree;
* `Collector`                       gathers the paths of matches, each once, up to a limit.
-/

namespace PropertyIndex

/-- the property that marks a match -/
def matchName : String := "match"

namespace Node

variable {σ : Type}

def matched (n : Node σ) : Bool := n.flag matchName

/-- a node with the property or with children is kept when its index is pruned -/
def occupied (n : Node σ) : Bool := n.hasProp matchName || 0 < n.childCount

mutual

def matchCount : Node σ → Nat
  | ⟨m, ps, cs⟩ => matchCountAll cs + (matched ⟨m, ps, cs⟩).toNat

def matchCountAll : List (String × Node σ) → Nat
  | [] => 0
  | (_, n) :: r => matchCount n + matchCountAll r

end

end Node

/-- the paths gathered so far, and how many there may be -/
structure Collector where
  limit : Option Nat
  paths : List String
deriving DecidableEq, Repr

namespace Collector

variable {σ : Type}

def new (limit : Option Nat) : Collector := ⟨limit, []⟩

def isFull (c : Collector) : Bool :=
  match c.limit with
  | none => false
  | some n => decide (n ≤ c.paths.length)

/-- takes a path, unless it is there already -/
def add (c : Collector) (path : String) : Collector :=
  if path ∈ c.paths then c else { c with paths := c.paths ++ [path] }

mutual

/-- gathers the matches of a subtree whose root has the given address, parents before children,
and says whether the limit is reached -/
def visit (c : Collector) (address : List String) : Node σ → Bool × Collector
  | ⟨m, ps, cs⟩ =>
    if c.isFull then (true, c)
    else
      let c := if Node.matched ⟨m, ps, cs⟩ then c.add (Path.render address) else c
      if c.isFull then (true, c) else visitAll c address cs

def visitAll (c : Collector) (address : List String) : List (String × Node σ) → Bool × Collector
  | [] => (false, c)
  | (name, n) :: r =>
    match visit c (address ++ [name]) n with
    | (true, c) => (true, c)
    | (false, c) => visitAll c address r

end

end Collector

end PropertyIndex
