import PropertyIndex.Index
import PropertyIndex.Key
import PropertyIndex.Match
import PropertyIndex.Node.Edit
import PropertyIndex.Outcome

/-!
# Writing to an index

Every write takes the mark that the nodes it goes through get.

* `Index.fetch`    sees to it that a key has an entry, and links a new one into the chain;
* `Index.insert`   adds a match, `Index.remove` takes one out and prunes what it leaves empty;
* `Index.prune`    takes out emptied nodes below an entry, innermost first, and then the entry;
* `Index.update`   turns the matches of one path from one set of keys to another.
-/

namespace PropertyIndex

variable {σ : Type}

/-! ## Pruning a branch -/

/-- takes out the emptied nodes along a path, innermost first, up to the first one that is
occupied, and says whether none was; a missing node counts as emptied -/
def Node.prunePath (m : σ) : List String → Node σ → Node σ × Bool
  | [], n => (n, true)
  | name :: path, n =>
    match n.child? name with
    | none => (n, true)
    | some c =>
      let (c', cleared) := c.prunePath m path
      if cleared && !c'.occupied then (n.removeChild m name, true)
      else if path = [] then (n, false)
      else (n.edit m [name] fun _ => c', false)

/-- prunes below the entry of a key and says whether the entry itself is left empty -/
def Node.pruneEntry (m : σ) (t : Node σ) (key : String) (segments : List String) :
    Node σ × Bool :=
  match t.child? key with
  | none => (t, false)
  | some entry =>
    let (entry', cleared) := entry.prunePath m segments
    (if segments = [] then t else t.edit m [key] fun _ => entry', cleared && !entry'.occupied)

/-! ## Linking -/

/-- puts a new entry into the chain between two neighbours -/
def Node.link (m : σ) (t : Node σ) (previous key next : String) : Node σ :=
  (t.grow m [previous] (·.setProp nextName (.text key))).grow m [key]
    (·.setProp nextName (.text next))

namespace OrderedIndex

/-- sees to it that a key has an entry in the chain -/
def fetch (o : OrderedIndex σ) (m : σ) (t : Node σ) (key : String) : Outcome σ Unit :=
  match Key.check key with
  | .error e => .failed t e
  | .ok () =>
    if key = startName then .failed t (.reservedKey key)
    else
      match t.child? key with
      | some entry =>
        if entry.hasProp nextName then .done (t.grow m [key] fun c => c)
        else .failed t (.corruption (.outsideChain key))
      | none =>
        match insertionPoint o.direction t key with
        | .error e => .failed t e
        | .ok (previous, next) => .done (t.link m previous key next)

/-- takes the entry of a key out of the chain and out of the tree -/
def unlink (o : OrderedIndex σ) (m : σ) (t : Node σ) (key : String) : Outcome σ Unit :=
  let next := ((t.child? key).map Node.successor).getD ""
  match o.lookup t key with
  | .error e => .failed t e
  | .ok none => .failed t (.corruption (.unreachable key))
  | .ok (some previous) =>
    .done ((t.grow m [previous] (·.setProp nextName (.text next))).removeChild m key)

/-- prunes below the entry of a key, and unlinks the entry when that leaves it empty -/
def prune (o : OrderedIndex σ) (m : σ) (t : Node σ) (key : String) (segments : List String) :
    Outcome σ Unit :=
  let (t, emptied) := t.pruneEntry m key segments
  if emptied then
    if ((t.child? key).map (·.hasProp nextName)).getD false then o.unlink m t key
    else .done (t.removeChild m key)
  else .done t

def encodeKey (o : OrderedIndex σ) (v : Value) : String := Key.encode v.keyText o.maxKeyLength

end OrderedIndex

/-! ## Matches -/

inductive Change where
  | insert (key : String)
  | remove (key : String)
deriving DecidableEq, Repr

/-- the steps from one set of keys to another, in ascending order of the keys -/
def Change.between (before after : List String) : List Change :=
  (KeySet.ofList (before ++ after)).filterMap fun key =>
    if key ∈ before then if key ∈ after then none else some (.remove key)
    else some (.insert key)

namespace Index

/-- sees to it that a key has an entry -/
def fetch (i : Index σ) (m : σ) (t : Node σ) (key : String) : Outcome σ Unit :=
  match i with
  | .unordered =>
    match Key.check key with
    | .error e => .failed t e
    | .ok () => .done (t.grow m [key] fun c => c)
  | .ordered o => o.fetch m t key

/-- takes out emptied nodes below the entry of a key, and then the entry -/
def prune (i : Index σ) (m : σ) (t : Node σ) (key : String) (segments : List String) :
    Outcome σ Unit :=
  match i with
  | .unordered =>
    let (t, emptied) := t.pruneEntry m key segments
    .done (if emptied then t.removeChild m key else t)
  | .ordered o => o.prune m t key segments

/-- adds the match of a path under a key -/
def insert (i : Index σ) (m : σ) (t : Node σ) (path key : String) : Outcome σ Unit :=
  (i.fetch m t key).andThen fun t _ =>
    .done (t.grow m (key :: Path.segments path) (·.setProp matchName (.flag true)))

/-- takes out the match of a path under a key; without the node there is nothing to do -/
def remove (i : Index σ) (m : σ) (t : Node σ) (path key : String) : Outcome σ Unit :=
  if i.isReserved key then .failed t (.reservedKey key)
  else
    let segments := Path.segments path
    let cleared := t.edit m (key :: segments) (·.removeProp matchName)
    if (t.at? (key :: segments)).isSome then i.prune m cleared key segments else .done cleared

def apply (i : Index σ) (m : σ) (t : Node σ) (path : String) : Change → Outcome σ Unit
  | .insert key => i.insert m t path key
  | .remove key => i.remove m t path key

/-- the steps of an update one after the other, up to the first that fails -/
def applyAll (i : Index σ) (m : σ) (t : Node σ) (path : String) : List Change → Outcome σ Unit
  | [] => .done t
  | c :: r => (i.apply m t path c).andThen fun t _ => applyAll i m t path r

/-- turns the matches of a path from one set of keys to another -/
def update (i : Index σ) (m : σ) (t : Node σ) (path : String) (before after : List String) :
    Outcome σ Unit :=
  i.applyAll m t path (Change.between before after)

end Index

/-- turns the matches of a path from the keys of some values to those of others -/
def OrderedIndex.updateValues (o : OrderedIndex σ) (m : σ) (t : Node σ) (path : String)
    (before after : List Value) : Outcome σ Unit :=
  (Index.ordered o).update m t path (Key.encodeAll before o.maxKeyLength)
    (Key.encodeAll after o.maxKeyLength)

end PropertyIndex
