import PropertyIndex.Proofs.Chain.Pointers
import PropertyIndex.Proofs.Node.Pruned

/-!
# Taking out a match, in any index

Both kinds of indexes clear and prune the branch below a key in the same way.  They differ in how
the entry itself goes when nothing is left of it.

* `hasMatch_put_unmark`, `hasMatch_removeChild`   one match is taken out, and none goes with an empty
                            entry;
* `Index.drop`              takes out the entry of a key;
* `Index.prune_of_child?`   pruning puts back what is left of an entry, and drops an empty one;
* `Index.remove_eq_drop`, `Index.remove_of_none`   what becomes of the entry of a key when a match is
                            taken out below it;
* `OrderedIndex.Unlinks`    when that takes the entry out of the chain.
-/

namespace PropertyIndex

variable {σ : Type} {m : σ} {t t' c : Node σ} {key : String}

namespace Node

/-! ## The matches that are left -/

theorem hasMatch_put_unmark {segments : List String} (hput : Put t key (c.unmark m segments).1 t')
    (hc : t.child? key = some c) (k : String) (a : List String) :
    t'.HasMatch (k :: a) ↔ ¬ (k = key ∧ a = segments) ∧ t.HasMatch (k :: a) := by
  rw [hput.hasMatch, hasMatch_cons, hasMatch_unmark]
  by_cases e : k = key
  · rw [if_pos e, e, hc]
    simp
  · rw [if_neg e]
    simp [e]

theorem hasMatch_iff_of_none {segments : List String} (hc : t.child? key = none) (k : String)
    (a : List String) :
    t.HasMatch (k :: a) ↔ ¬ (k = key ∧ a = segments) ∧ t.HasMatch (k :: a) := by
  refine ⟨fun ha => ⟨?_, ha⟩, And.right⟩
  intro e
  rw [e.1] at ha
  exact not_hasMatch_of_none hc a ha

theorem hasMatch_removeChild (hc : t.child? key = some c) (ho : c.occupied = false) (m : σ)
    (k : String) (a : List String) :
    (t.removeChild m key).HasMatch (k :: a) ↔ t.HasMatch (k :: a) := by
  rw [hasMatch_cons, hasMatch_cons, child?_removeChild]
  split
  · next e =>
    rw [e, hc]
    simp [not_hasMatch_of_not_occupied ho a]
  · exact Iff.rfl

/-- what is left below a child after a write and a pruning is put back -/
theorem pruneEntry_edit (m : σ) (segments : List String) (f : Node σ → Node σ)
    (h : t.child? key = some c) : ((t.edit m (key :: segments) f).pruneEntry m key segments).1
      = t.edit m [key] fun _ => ((c.edit m segments f).prunePath m segments).1 := by
  have hput := Put.edit m segments f h
  rw [pruneEntry_of_child? m segments hput.child_self]
  dsimp only
  split
  · next e =>
    rw [e, edit_eq_put m [] f h]
    rfl
  · rw [edit_eq_put m segments f h, put_put _ _ h]

end Node

namespace Index

open Node

/-! ## Pruning and removing -/

/-- takes out the entry of a key; an entry with a pointer is taken out of the chain as well -/
def drop (i : Index σ) (m : σ) (t : Node σ) (key : String) : Outcome σ Unit :=
  match i with
  | .unordered => .done (t.removeChild m key)
  | .ordered o =>
    if ((t.child? key).map (·.hasProp nextName)).getD false then o.unlink m t key
    else .done (t.removeChild m key)

theorem drop_of_child? (i : Index σ) (hc : t.child? key = some c) (m : σ) :
    i.drop m t key = match i with
      | .unordered => .done (t.removeChild m key)
      | .ordered o => if c.hasProp nextName then o.unlink m t key
        else .done (t.removeChild m key) := by
  unfold drop
  rw [hc]
  rfl

theorem drop_of_pointer {o : OrderedIndex σ} (hc : t.child? key = some c)
    (hp : c.hasProp nextName = true) (m : σ) :
    (Index.ordered o).drop m t key = o.unlink m t key :=
  (drop_of_child? (.ordered o) hc m).trans (if_pos hp)

theorem drop_of_no_pointer {o : OrderedIndex σ} (hc : t.child? key = some c)
    (hp : c.hasProp nextName = false) (m : σ) :
    (Index.ordered o).drop m t key = .done (t.removeChild m key) :=
  (drop_of_child? (.ordered o) hc m).trans (if_neg (by rw [hp]; decide))

theorem prune_ordered (o : OrderedIndex σ) (m : σ) (t : Node σ) (key : String)
    (segments : List String) :
    (Index.ordered o).prune m t key segments = o.prune m t key segments := rfl

theorem prune_eq (i : Index σ) (m : σ) (t : Node σ) (key : String) (segments : List String) :
    i.prune m t key segments = if (t.pruneEntry m key segments).2
      then i.drop m (t.pruneEntry m key segments).1 key
      else .done (t.pruneEntry m key segments).1 := by
  cases i with
  | unordered =>
    unfold prune drop
    dsimp only
    split <;> rfl
  | ordered o => rfl

theorem prune_of_none (i : Index σ) (hc : t.child? key = none) (m : σ) (segments : List String) :
    i.prune m t key segments = .done t := by
  rw [prune_eq]
  unfold pruneEntry
  rw [hc]
  rfl

/-- what is left of a child is put back; when nothing is, the child is dropped -/
theorem prune_of_child? (i : Index σ) (hc : t.child? key = some c) (m : σ)
    (segments : List String) : i.prune m t key segments =
      if ((c.prunePath m segments).2 && !(c.prunePath m segments).1.occupied) = true
      then i.drop m (t.pruneEntry m key segments).1 key
      else .done (t.pruneEntry m key segments).1 := by
  rw [prune_eq, congrArg Prod.snd (pruneEntry_of_child? m segments hc)]

theorem remove_eq (i : Index σ) (hr : i.isReserved key = false) (m : σ) (t : Node σ)
    (path : String) : i.remove m t path key =
      if (t.at? (key :: Path.segments path)).isSome then
        i.prune m (t.edit m (key :: Path.segments path) (·.removeProp matchName)) key
          (Path.segments path)
      else .done (t.edit m (key :: Path.segments path) (·.removeProp matchName)) := by
  unfold remove
  rw [hr]
  rfl

theorem remove_of_none (i : Index σ) (hr : i.isReserved key = false) (hc : t.child? key = none)
    (m : σ) (path : String) : i.remove m t path key = .done t := by
  have he : t.edit m (key :: Path.segments path) (·.removeProp matchName) = t := by
    unfold edit
    rw [hasChild_eq_false_iff.2 hc]
    rfl
  rw [remove_eq i hr, at?_cons, hc, he]
  rfl

/-- the match is taken out below the child, and a child that is left empty is dropped -/
theorem remove_eq_drop (i : Index σ) (hr : i.isReserved key = false) (hc : t.child? key = some c)
    (m : σ) (path : String) : i.remove m t path key =
      if ((c.unmark m (Path.segments path)).2
          && !(c.unmark m (Path.segments path)).1.occupied) = true
      then i.drop m (t.edit m [key] fun _ => (c.unmark m (Path.segments path)).1) key
      else .done (t.edit m [key] fun _ => (c.unmark m (Path.segments path)).1) := by
  have hput := Put.edit m (Path.segments path) (·.removeProp matchName) hc
  rw [remove_eq i hr, at?_cons, hc, Option.bind_some]
  unfold unmark
  split
  · rw [prune_of_child? i hput.child_self, pruneEntry_edit m (Path.segments path) _ hc]
  · rw [edit_eq_put m (Path.segments path) _ hc]
    rfl

theorem remove_of_child? (i : Index σ) (hr : i.isReserved key = false)
    (hc : t.child? key = some c) (m : σ) (path : String) :
    ∃ t1, Put t key (c.unmark m (Path.segments path)).1 t1 ∧
      i.remove m t path key =
        if ((c.unmark m (Path.segments path)).2
            && !(c.unmark m (Path.segments path)).1.occupied) = true
        then i.drop m t1 key else .done t1 :=
  ⟨_, .edit m [] (fun _ => (c.unmark m (Path.segments path)).1) hc, remove_eq_drop i hr hc m path⟩

end Index

/-! ## Entries that go -/

/-- taking out the match of a path leaves an entry of the chain empty, so that it is unlinked -/
def OrderedIndex.Unlinks (t : Node σ) (key : String) (segments : List String) : Prop :=
  ∃ c, t.child? key = some c ∧ c.hasProp nextName = true ∧ c.Lone segments

theorem OrderedIndex.unlinks_iff {segments : List String} (hc : t.child? key = some c) :
    Unlinks t key segments ↔ c.hasProp nextName = true ∧ c.Lone segments := by
  unfold Unlinks
  rw [hc]
  simp

end PropertyIndex
