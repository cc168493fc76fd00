import PropertyIndex.Index.Write
import PropertyIndex.Proofs.Node.Tidy

/-!
# Writing to one child, and to its pointer

* `Node.Put`      one child is another one now, and the rest of the tree is as it was;
* `Node.point`    points a child to a name; linking and unlinking an entry are made of this;
* `Node.cut`      takes a child out and closes the chain behind it;
* `hasMatch_link`, `hasMatch_cut`   pointers have no part in the matches;
* `Node.Neat`     the children are tidy but for their pointers, and stay so when they are linked and
                  unlinked (`Neat.link`, `Neat.cut`).
-/

namespace PropertyIndex

namespace Node

variable {σ : Type} {m : σ} {t t' : Node σ} {key previous next : String} {c : Node σ}

/-! ## One child -/

/-- `t'` is `t` with the child `c` under the key -/
structure Put (t : Node σ) (key : String) (c : Node σ) (t' : Node σ) : Prop where
  child : ∀ k, t'.child? k = if k = key then some c else t.child? k
  props : t'.props = t.props
  order : t.children.Sorted → t'.children.Sorted

namespace Put

theorem self (h : t.child? key = some c) : Put t key c t where
  child k := by
    split
    · next e => rw [e, h]
    · rfl
  props := rfl
  order := id

theorem grow (m : σ) (t : Node σ) (key : String) (path : List String) (f : Node σ → Node σ) :
    Put t key (((t.child? key).getD (empty m)).grow m path f) (t.grow m (key :: path) f) where
  child := child?_grow m key path f t
  props := rfl
  order h := h.put key _

theorem edit (m : σ) (path : List String) (f : Node σ → Node σ) (h : t.child? key = some c) :
    Put t key (c.edit m path f) (t.edit m (key :: path) f) where
  child k := by rw [child?_edit, h]; rfl
  props := props_edit_cons m key path f t
  order hs := by
    unfold Node.edit
    split
    · exact hs.adjust key _
    · exact hs

theorem child_self (h : Put t key c t') : t'.child? key = some c := by
  rw [h.child, if_pos rfl]

theorem child_ne (h : Put t key c t') {k : String} (hk : k ≠ key) : t'.child? k = t.child? k := by
  rw [h.child, if_neg hk]

theorem trans {t'' c' : Node σ} (h : Put t key c t') (h' : Put t' key c' t'') :
    Put t key c' t'' where
  child k := by
    rw [h'.child]
    split
    · rfl
    · next hk => exact h.child_ne hk
  props := h'.props.trans h.props
  order hs := h'.order (h.order hs)

theorem hasChild (h : Put t key c t') {k : String} (hk : t.hasChild k = true) :
    t'.hasChild k = true := by
  unfold Node.hasChild
  rw [h.child]
  split
  · rfl
  · exact hk

theorem sorted (h : Put t key c t') (ht : t.Sorted) (hc : c.Sorted) : t'.Sorted := by
  refine .of_child? (by rw [h.props]; exact ht.props_sorted) (h.order ht.children_sorted) ?_
  intro k d hd
  rw [h.child] at hd
  split at hd
  · cases hd
    exact hc
  · exact ht.child? hd

theorem hasMatch (h : Put t key c t') {k : String} {a : List String} :
    t'.HasMatch (k :: a) ↔ if k = key then c.HasMatch a else t.HasMatch (k :: a) := by
  rw [hasMatch_cons, h.child]
  split
  · simp
  · rw [hasMatch_cons]

end Put

/-- a sorted tree whose root has no properties, and whose children are tidy but for pointers -/
structure Neat (t : Node σ) : Prop where
  sorted : t.Sorted
  props : t.props = []
  tidy : ∀ k c, t.child? k = some c → c.Tidy [nextName]

namespace Neat

theorem empty (m : σ) : (Node.empty m).Neat := ⟨Sorted.empty m, rfl, fun _ _ h => by cases h⟩

theorem getD (h : t.Neat) (m : σ) (k : String) :
    ((t.child? k).getD (Node.empty m)).Sorted ∧
      ((t.child? k).getD (Node.empty m)).Tidy [nextName] := by
  cases hc : t.child? k with
  | none => exact ⟨Sorted.empty m, Tidy.empty [nextName] m⟩
  | some c => exact ⟨h.sorted.child? hc, h.tidy k c hc⟩

theorem put (h : t.Neat) (hput : Put t key c t') (hs : c.Sorted) (hc : c.Tidy [nextName]) :
    t'.Neat := by
  refine ⟨hput.sorted h.sorted hs, hput.props.trans h.props, ?_⟩
  intro k d hd
  rw [hput.child] at hd
  split at hd
  · cases hd
    exact hc
  · exact h.tidy k d hd

theorem removeChild (h : t.Neat) (m : σ) (key : String) : (t.removeChild m key).Neat := by
  refine ⟨h.sorted.removeChild m key, (props_removeChild m key t).trans h.props, ?_⟩
  intro k d hd
  rw [child?_removeChild] at hd
  split at hd
  · cases hd
  · exact h.tidy k d hd

end Neat

/-! ## One pointer -/

theorem successor_of_prop? {s : String} (h : c.prop? nextName = some (.text s)) :
    c.successor = s := by
  unfold successor text?
  rw [h]
  rfl

theorem successor_setProp (c : Node σ) (s : String) :
    (c.setProp nextName (.text s)).successor = s :=
  successor_of_prop? (by rw [prop?_setProp, if_pos rfl])

theorem successor_eq_of_prop? {a b : Node σ} (h : a.prop? nextName = b.prop? nextName) :
    a.successor = b.successor := by
  unfold successor text?
  rw [h]

theorem occupied_setProp_next (c : Node σ) (v : Value) :
    (c.setProp nextName v).occupied = c.occupied := by
  unfold occupied hasProp childCount
  rw [prop?_setProp, if_neg (by decide), children_setProp]

theorem hasMatch_setProp_next (c : Node σ) (v : Value) (a : List String) :
    (c.setProp nextName v).HasMatch a ↔ c.HasMatch a := by
  cases a with
  | nil => rw [hasMatch_nil, hasMatch_nil, matched_iff, matched_iff, prop?_setProp,
      if_neg (by decide)]
  | cons k a => rw [hasMatch_cons, hasMatch_cons, child?_setProp]

theorem Tidy.setProp_next (h : c.Tidy [nextName]) (v : Value) :
    (c.setProp nextName v).Tidy [nextName] := by
  refine h.congr (fun _ => rfl) ?_
  intro name hn
  rw [prop?_setProp, if_neg (by simpa using hn)]

/-- points a child to a name; a missing child is created -/
def point (m : σ) (t : Node σ) (key next : String) : Node σ :=
  t.grow m [key] (·.setProp nextName (.text next))

theorem put_point (m : σ) (t : Node σ) (key next : String) :
    Put t key (((t.child? key).getD (empty m)).setProp nextName (.text next))
      (t.point m key next) :=
  .grow m t key [] (·.setProp nextName (.text next))

theorem hasMatch_point (m : σ) (t : Node σ) (key next k : String) (a : List String) :
    (t.point m key next).HasMatch (k :: a) ↔ t.HasMatch (k :: a) := by
  rw [(put_point m t key next).hasMatch]
  split
  · next e => rw [hasMatch_setProp_next, hasMatch_getD_empty, e]
  · exact Iff.rfl

theorem Neat.point (h : t.Neat) (m : σ) (key next : String) : (t.point m key next).Neat :=
  h.put (put_point m t key next) ((h.getD m key).1.setProp nextName _)
    ((h.getD m key).2.setProp_next _)

/-! ## Linking and unlinking an entry -/

theorem link_eq (m : σ) (t : Node σ) (previous key next : String) :
    t.link m previous key next = (t.point m previous key).point m key next := rfl

/-- takes a child out, and lets the one before it point to the one behind it -/
def cut (m : σ) (t : Node σ) (previous key next : String) : Node σ :=
  (t.point m previous next).removeChild m key

theorem child?_link (h : previous ≠ key) (k : String) :
    (t.link m previous key next).child? k =
      if k = key then some (((t.child? key).getD (empty m)).setProp nextName (.text next))
      else if k = previous then
        some (((t.child? previous).getD (empty m)).setProp nextName (.text key))
      else t.child? k := by
  rw [link_eq, (put_point m _ key next).child, (put_point m t previous key).child_ne h.symm,
    (put_point m t previous key).child]

theorem child?_cut (m : σ) (t : Node σ) (previous key next k : String) :
    (t.cut m previous key next).child? k =
      if k = key then none
      else if k = previous then
        some (((t.child? previous).getD (empty m)).setProp nextName (.text next))
      else t.child? k := by
  rw [cut, child?_removeChild, (put_point m t previous next).child]

theorem hasMatch_link (m : σ) (t : Node σ) (previous key next k : String) (a : List String) :
    (t.link m previous key next).HasMatch (k :: a) ↔ t.HasMatch (k :: a) := by
  rw [link_eq, hasMatch_point, hasMatch_point]

theorem hasMatch_cut (m : σ) (t : Node σ) (previous key next k : String) (a : List String) :
    (t.cut m previous key next).HasMatch (k :: a) ↔ k ≠ key ∧ t.HasMatch (k :: a) := by
  rw [cut, hasMatch_cons, child?_removeChild]
  split
  · next e => simp [e]
  · next e => rw [← hasMatch_cons, hasMatch_point]; simp [e]

theorem Neat.link (h : t.Neat) (m : σ) (previous key next : String) :
    (t.link m previous key next).Neat := (h.point m previous key).point m key next

theorem Neat.cut (h : t.Neat) (m : σ) (previous key next : String) :
    (t.cut m previous key next).Neat := (h.point m previous next).removeChild m key

/-! ## Pruning an entry -/

theorem pruneEntry_of_child? (m : σ) (segments : List String) (h : t.child? key = some c) :
    t.pruneEntry m key segments
      = (if segments = [] then t else t.edit m [key] fun _ => (c.prunePath m segments).1,
          (c.prunePath m segments).2 && !(c.prunePath m segments).1.occupied) := by
  unfold pruneEntry
  rw [h]

theorem put_pruneEntry (m : σ) (segments : List String) (h : t.child? key = some c) :
    Put t key (c.prunePath m segments).1 (t.pruneEntry m key segments).1 := by
  rw [pruneEntry_of_child? m segments h]
  dsimp only
  split
  · next e =>
    rw [e]
    exact .self h
  · exact .edit m [] (fun _ => (c.prunePath m segments).1) h

end Node

end PropertyIndex
