import PropertyIndex.Index.Write

/-!
# Commands

* `Command`       everything that writes to one tree, with or without an index;
* `Command.run`   the outcome of a command.
-/

namespace PropertyIndex

/-- a write to one tree -/
inductive Command (σ : Type) where
  | insert (i : Index σ) (path key : String)
  | remove (i : Index σ) (path key : String)
  /-- takes out what is left empty below an entry -/
  | prune (i : Index σ) (key : String) (segments : List String)
  /-- turns the matches of a path from one set of keys to another -/
  | update (i : Index σ) (path : String) (before after : List String)
  /-- the same for the keys of values -/
  | updateValues (o : OrderedIndex σ) (path : String) (before after : List Value)
  /-- sees to it that a key has an entry, and sets properties there -/
  | fetch (i : Index σ) (key : String) (props : List (String × Value))
  /-- sets a property at an address, which may have to be there already -/
  | setProp (address : List String) (create : Bool) (name : String) (v : Value)
  | grow (address : List String)
  | removeProp (address : List String) (name : String)
  | removeChild (address : List String) (name : String)

/-- what a command answers -/
inductive Answer (σ : Type) where
  | done
  | missing
  /-- whether there was something to take out -/
  | removed (b : Bool)
  | node (n : Node σ)

namespace Command

variable {σ : Type}

def silent (o : Outcome σ Unit) : Outcome σ (Answer σ) := o.andThen fun t _ => ⟨t, .ok .done⟩

/-- writes at an address that has to be there, and answers from the node found -/
def writeAt (m : σ) (t : Node σ) (address : List String) (f : Node σ → Node σ)
    (answer : Node σ → Answer σ) : Outcome σ (Answer σ) :=
  ⟨t.edit m address f, .ok (((t.at? address).map answer).getD .missing)⟩

def run (m : σ) (t : Node σ) : Command σ → Outcome σ (Answer σ)
  | .insert i path key => silent (i.insert m t path key)
  | .remove i path key => silent (i.remove m t path key)
  | .prune i key segments => silent (i.prune m t key segments)
  | .update i path before after => silent (i.update m t path before after)
  | .updateValues o path before after => silent (o.updateValues m t path before after)
  | .fetch i key props =>
    (i.fetch m t key).andThen fun t _ =>
      let t := t.grow m [key] (·.setProps props)
      ⟨t, .ok (((t.child? key).map Answer.node).getD .missing)⟩
  | .setProp address true name v => silent (.done (t.grow m address (·.setProp name v)))
  | .setProp address false name v => writeAt m t address (·.setProp name v) fun _ => .done
  | .grow address => silent (.done (t.grow m address fun n => n))
  | .removeProp address name =>
    writeAt m t address (·.removeProp name) fun n => .removed (n.hasProp name)
  | .removeChild address name =>
    writeAt m t address (·.removeChild m name) fun n => .removed (n.hasChild name)

end Command

end PropertyIndex
