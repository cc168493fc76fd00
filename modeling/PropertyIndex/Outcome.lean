import PropertyIndex.Error
import PropertyIndex.Node

/-!
# Outcomes of writes

A write that fails half-way leaves behind what it has changed so far, so its outcome always has a
tree, beside an answer or an error.

* `Outcome.andThen`   goes on with the tree, unless an error occurred.
-/

namespace PropertyIndex

/-- the tree after a write, and the answer of the write -/
structure Outcome (σ α : Type) where
  tree : Node σ
  answer : Except Error α

namespace Outcome

variable {σ α β : Type}

def done (t : Node σ) : Outcome σ Unit := ⟨t, .ok ()⟩

def failed (t : Node σ) (e : Error) : Outcome σ α := ⟨t, .error e⟩

/-- goes on with the tree and the answer; an error is final -/
def andThen (o : Outcome σ α) (f : Node σ → α → Outcome σ β) : Outcome σ β :=
  match o.answer with
  | .ok a => f o.tree a
  | .error e => failed o.tree e

@[simp] theorem tree_done (t : Node σ) : (done t).tree = t := rfl

@[simp] theorem answer_done (t : Node σ) : (done t).answer = .ok () := rfl

@[simp] theorem tree_failed (t : Node σ) (e : Error) : (failed t e : Outcome σ α).tree = t := rfl

@[simp] theorem answer_failed (t : Node σ) (e : Error) :
    (failed t e : Outcome σ α).answer = .error e := rfl

@[simp] theorem andThen_done (t : Node σ) (f : Node σ → Unit → Outcome σ β) :
    (done t).andThen f = f t () := rfl

@[simp] theorem andThen_failed (t : Node σ) (e : Error) (f : Node σ → α → Outcome σ β) :
    (failed t e).andThen f = failed t e := rfl

end Outcome

end PropertyIndex
