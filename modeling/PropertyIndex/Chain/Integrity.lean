import PropertyIndex.Chain.Walk
import PropertyIndex.Match

/-!
# The integrity of a chain

* `Metrics`           what a sound chain amounts to;
* `Node.checkChain`   the metrics of a sound chain, or the first thing that is wrong with it: the
                      head, then entry by entry, then the nodes that no walk meets.
-/

namespace PropertyIndex

/-- the size of a chain, the matches below it, and its ends -/
structure Metrics where
  entryCount : Nat
  matchCount : Nat
  firstKey : Option String
  lastKey : Option String
deriving DecidableEq, Repr

/-- what a survey has met: the keys, the latest first, and the matches below them -/
structure Survey where
  keys : List String
  matchTotal : Nat
deriving DecidableEq, Repr

namespace Survey

variable {σ : Type}

def empty : Survey := ⟨[], 0⟩

/-- takes one entry into account: it has to come after the last one, to be new, and to have a
match -/
def step (d : Direction) (s : Survey) (x : Entry σ) : Except Corruption Survey :=
  match s.keys.head?.filter fun previous => ¬ d.precedes previous x.name with
  | some previous => .error (.outOfOrder previous x.name d)
  | none =>
    if x.name ∈ s.keys then .error (.chainedTwice x.name)
    else
      match (x.node.map Node.matchCount).getD 0 with
      | 0 => .error (.unmatched x.name)
      | n + 1 => .ok ⟨x.name :: s.keys, s.matchTotal + (n + 1)⟩

def run (d : Direction) : Survey → List (Item σ) → Except Error Survey
  | s, [] => .ok s
  | _, .error e :: _ => .error e
  | s, .ok x :: r =>
    match s.step d x with
    | .error c => .error (.corruption c)
    | .ok s => run d s r

def metrics (s : Survey) : Metrics where
  entryCount := s.keys.length
  matchCount := s.matchTotal
  firstKey := s.keys.getLast?
  lastKey := s.keys.head?

end Survey

namespace Node

variable {σ : Type}

/-- whether the head of the chain holds matches -/
def headMarked (index : Node σ) : Bool :=
  ((index.child? startName).map Node.occupied).getD false

/-- the first child with a pointer that is neither the head nor among the keys met -/
def stray? (index : Node σ) (met : List String) : Option String :=
  (index.children.find? fun p => p.1 ≠ startName ∧ p.1 ∉ met ∧ p.2.hasProp nextName).map Prod.fst

/-- the metrics of a sound chain, or what is wrong with it -/
def checkChain (d : Direction) (index : Node σ) : Except Error Metrics :=
  if index.headMarked then .error (.corruption .markedHead)
  else
    match Survey.empty.run d (index.chain false) with
    | .error e => .error e
    | .ok s =>
      match index.stray? s.keys with
      | some name => .error (.corruption (.unreachable name))
      | none => .ok s.metrics

end Node

end PropertyIndex
