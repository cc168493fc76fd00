import PropertyIndex.Chain.Range
import PropertyIndex.Index
import PropertyIndex.Match

/-!
# Asking an index

* `Index.query`        the paths of some keys or of all, each once;
* `Index.count`        how many they are, counted up to a limit;
* `OrderedIndex.range`, `OrderedIndex.queryRange`   the entries of a range of keys and their paths.
-/

namespace PropertyIndex

variable {σ : Type}

/-- gathers the matches below the entries of a sequence, up to the limit of the collector -/
def Collector.gather (c : Collector) : List (Item σ) → Except Error Collector
  | [] => .ok c
  | .error e :: _ => .error e
  | .ok x :: r =>
    match x.node with
    | none => gather c r
    | some n =>
      match c.visit [] n with
      | (true, c) => .ok c
      | (false, c) => gather c r

namespace Index

/-- the entries to search: those of the keys in their order, or all of them -/
def selection (i : Index σ) (t : Node σ) : Option (List String) → List (Item σ)
  | none => i.entries t
  | some keys => keys.filterMap fun key => (t.child? key).map fun n => .ok ⟨key, some n⟩

/-- the content paths that have any of the keys -/
def query (i : Index σ) (t : Node σ) (keys : Option (List String)) : Except Error (List String) :=
  ((Collector.new none).gather (i.selection t keys)).map Collector.paths

/-- the number of these paths, at most `max` -/
def count (i : Index σ) (t : Node σ) (keys : Option (List String)) (max : Nat) :
    Except Error Nat :=
  ((Collector.new (some max)).gather (i.selection t keys)).map fun c => c.paths.length

end Index

namespace OrderedIndex

def scanRange (o : OrderedIndex σ) (t : Node σ) (r : Range) : RangeScan σ where
  walk := Walk.along t false
  range := r
  direction := o.direction

def range (o : OrderedIndex σ) (t : Node σ) (r : Range) : List (Item σ) := (o.scanRange t r).items

def queryRange (o : OrderedIndex σ) (t : Node σ) (r : Range) : Except Error (List String) :=
  ((Collector.new none).gather (o.range t r)).map Collector.paths

end OrderedIndex

end PropertyIndex
