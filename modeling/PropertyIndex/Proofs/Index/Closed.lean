import PropertyIndex.Command
import PropertyIndex.Proofs.Index.Chained
import PropertyIndex.Proofs.Index.Removal

/-!
# Commands are made of elementary writes

Every command writes to a tree in a few ways only, one after the other, whether it succeeds or fails.
What relates a tree to the one that such a write leaves relates it to the one that a command leaves.

* `WriteClosed`       a relation that every elementary write keeps to;
* `WriteClosed.fetch`, `WriteClosed.prune`, `WriteClosed.insert`, `WriteClosed.remove`   the writes of
                      an index keep to it;
* `WriteClosed.run`   so does every command.
-/

namespace PropertyIndex

variable {σ : Type} {m : σ} {R : Node σ → Node σ → Prop} {α β : Type}

/-- a relation between a tree before and after that every elementary write with a mark keeps to -/
structure WriteClosed (m : σ) (R : Node σ → Node σ → Prop) : Prop where
  refl : ∀ t, R t t
  trans : ∀ {a b c}, R a b → R b c → R a c
  setProp : ∀ name v t, R t (t.setProp name v)
  removeProp : ∀ name t, R t (t.removeProp name)
  removeChild : ∀ name t, R t (t.removeChild m name)
  grow : ∀ path {f}, (∀ n, R n (f n)) → ∀ t, R t (t.grow m path f)
  edit : ∀ path {f}, (∀ n, R n (f n)) → ∀ t, R t (t.edit m path f)
  pruneEntry : ∀ key segments t, R t (t.pruneEntry m key segments).1

namespace WriteClosed

theorem setProps (h : WriteClosed m R) (l : List (String × Value)) (t : Node σ) :
    R t (t.setProps l) := by
  induction l generalizing t with
  | nil => exact h.refl t
  | cons p l ih => exact h.trans (h.setProp p.1 p.2 t) (ih _)

theorem link (h : WriteClosed m R) (t : Node σ) (previous key next : String) :
    R t (t.link m previous key next) :=
  h.trans (h.grow [previous] (h.setProp _ _) t) (h.grow [key] (h.setProp _ _) _)

theorem andThen {out : Outcome σ α} {f : Node σ → α → Outcome σ β} {t : Node σ}
    (h : WriteClosed m R) (hout : R t out.tree) (hf : ∀ t' a, R t' (f t' a).tree) :
    R t (out.andThen f).tree := by
  unfold Outcome.andThen
  cases out.answer with
  | ok a => exact h.trans hout (hf _ a)
  | error e => exact hout

/-! ## The writes of an index -/

theorem fetch_ordered (h : WriteClosed m R) (o : OrderedIndex σ) (t : Node σ) (key : String) :
    R t (o.fetch m t key).tree := by
  rcases o.fetch_cases m t key with ⟨e, he⟩ | ⟨_, _, he⟩ | ⟨_, _, previous, next, _, he⟩
  · rw [he]
    exact h.refl t
  · rw [he]
    exact h.grow [key] h.refl t
  · rw [he]
    exact h.link t previous key next

theorem unlink (h : WriteClosed m R) (o : OrderedIndex σ) (t : Node σ) (key : String) :
    R t (o.unlink m t key).tree := by
  unfold OrderedIndex.unlink
  dsimp only
  split
  · exact h.refl t
  · exact h.refl t
  · exact h.trans (h.grow [_] (h.setProp _ _) t) (h.removeChild key _)

variable (i : Index σ)

theorem fetch (h : WriteClosed m R) (t : Node σ) (key : String) : R t (i.fetch m t key).tree := by
  cases i with
  | unordered =>
    unfold Index.fetch
    dsimp only
    split
    · exact h.refl t
    · exact h.grow [key] h.refl t
  | ordered o => exact h.fetch_ordered o t key

theorem drop (h : WriteClosed m R) (t : Node σ) (key : String) : R t (i.drop m t key).tree := by
  cases i with
  | unordered => exact h.removeChild key t
  | ordered o =>
    unfold Index.drop
    dsimp only
    split
    · exact h.unlink o t key
    · exact h.removeChild key t

theorem prune (h : WriteClosed m R) (t : Node σ) (key : String) (segments : List String) :
    R t (i.prune m t key segments).tree := by
  rw [Index.prune_eq]
  split
  · exact h.trans (h.pruneEntry key segments t) (h.drop i _ key)
  · exact h.pruneEntry key segments t

theorem insert (h : WriteClosed m R) (t : Node σ) (path key : String) :
    R t (i.insert m t path key).tree :=
  h.andThen (h.fetch i t key) fun t' _ => h.grow _ (h.setProp _ _) t'

theorem remove (h : WriteClosed m R) (t : Node σ) (path key : String) :
    R t (i.remove m t path key).tree := by
  have hedit := h.edit (key :: Path.segments path) (h.removeProp matchName) t
  unfold Index.remove
  dsimp only
  split
  · exact h.refl t
  · split
    · exact h.trans hedit (h.prune i _ key _)
    · exact hedit

theorem apply (h : WriteClosed m R) (t : Node σ) (path : String) (c : Change) :
    R t (i.apply m t path c).tree := by
  cases c with
  | insert key => exact h.insert i t path key
  | remove key => exact h.remove i t path key

theorem applyAll (h : WriteClosed m R) (t : Node σ) (path : String) (cs : List Change) :
    R t (i.applyAll m t path cs).tree := by
  induction cs generalizing t with
  | nil => exact h.refl t
  | cons c cs ih => exact h.andThen (h.apply i t path c) fun t' _ => ih t'

/-! ## Commands -/

theorem silent {out : Outcome σ Unit} {t : Node σ} (h : WriteClosed m R) (hout : R t out.tree) :
    R t (Command.silent out).tree :=
  h.andThen hout fun t' _ => h.refl t'

/-- every command keeps to what the elementary writes keep to, whether it succeeds or fails -/
theorem run (h : WriteClosed m R) (t : Node σ) (c : Command σ) : R t (c.run m t).tree := by
  cases c with
  | insert i path key => exact h.silent (h.insert i t path key)
  | remove i path key => exact h.silent (h.remove i t path key)
  | prune i key segments => exact h.silent (h.prune i t key segments)
  | update i path before after => exact h.silent (h.applyAll i t path _)
  | updateValues o path before after => exact h.silent (h.applyAll (.ordered o) t path _)
  | fetch i key props =>
    exact h.andThen (h.fetch i t key) fun t' _ => h.grow [key] (h.setProps props) t'
  | setProp address create name v =>
    cases create with
    | true => exact h.grow address (h.setProp name v) t
    | false => exact h.edit address (h.setProp name v) t
  | grow address => exact h.grow address h.refl t
  | removeProp address name => exact h.edit address (h.removeProp name) t
  | removeChild address name => exact h.edit address (h.removeChild name) t

end WriteClosed

end PropertyIndex
