import PropertyIndex.Node

/-!
# Writing to a tree

A write to a child map marks the node that the map belongs to; a write to a property does not.
Reaching a descendant for a write counts as a write to every child map on the way.

* `setProp`, `removeProp`, `removeChild`   writes to one node;
* `grow`     writes at the end of a path and creates the way there;
* `edit`     writes at the end of a path that is there already;
* `child?_grow`, `child?_edit`, `at?_edit`   what is there afterwards.
-/

namespace PropertyIndex.Node

variable {σ : Type}

/-! ## One node -/

def setProp (name : String) (v : Value) (n : Node σ) : Node σ :=
  ⟨n.mark, n.props.put name v, n.children⟩

def removeProp (name : String) (n : Node σ) : Node σ :=
  ⟨n.mark, n.props.erase name, n.children⟩

/-- takes a child out; without that child the node is not written to -/
def removeChild (m : σ) (name : String) (n : Node σ) : Node σ :=
  if n.hasChild name then ⟨m, n.props, n.children.erase name⟩ else n

/-- gives several properties their values, one after the other -/
def setProps (l : List (String × Value)) (n : Node σ) : Node σ :=
  l.foldl (fun n p => n.setProp p.1 p.2) n

@[simp] theorem mark_setProp (name : String) (v : Value) (n : Node σ) :
    (n.setProp name v).mark = n.mark := rfl

@[simp] theorem children_setProp (name : String) (v : Value) (n : Node σ) :
    (n.setProp name v).children = n.children := rfl

@[simp] theorem child?_setProp (name : String) (v : Value) (n : Node σ) (k : String) :
    (n.setProp name v).child? k = n.child? k := rfl

theorem prop?_setProp (name : String) (v : Value) (n : Node σ) (k : String) :
    (n.setProp name v).prop? k = if k = name then some v else n.prop? k :=
  SortedMap.get?_put name v n.props k

@[simp] theorem mark_removeProp (name : String) (n : Node σ) :
    (n.removeProp name).mark = n.mark := rfl

@[simp] theorem children_removeProp (name : String) (n : Node σ) :
    (n.removeProp name).children = n.children := rfl

@[simp] theorem child?_removeProp (name : String) (n : Node σ) (k : String) :
    (n.removeProp name).child? k = n.child? k := rfl

theorem prop?_removeProp (name : String) (n : Node σ) (k : String) :
    (n.removeProp name).prop? k = if k = name then none else n.prop? k :=
  SortedMap.get?_erase name k n.props

theorem hasChild_iff {n : Node σ} {name : String} :
    n.hasChild name = true ↔ ∃ c, n.child? name = some c := Option.isSome_iff_exists

theorem hasChild_eq_false_iff {n : Node σ} {name : String} :
    n.hasChild name = false ↔ n.child? name = none := by
  simp [hasChild]

@[simp] theorem props_removeChild (m : σ) (name : String) (n : Node σ) :
    (n.removeChild m name).props = n.props := by
  unfold removeChild
  split <;> rfl

theorem child?_removeChild (m : σ) (name : String) (n : Node σ) (k : String) :
    (n.removeChild m name).child? k = if k = name then none else n.child? k := by
  unfold removeChild
  split
  · exact SortedMap.get?_erase name k n.children
  · next h =>
    by_cases e : k = name
    · rw [if_pos e, e]
      exact hasChild_eq_false_iff.1 (by simpa using h)
    · rw [if_neg e]

/-! ## The end of a path -/

/-- writes at the end of a path and creates the nodes that are missing on the way -/
def grow (m : σ) : List String → (Node σ → Node σ) → Node σ → Node σ
  | [], f, n => f n
  | name :: path, f, n =>
    ⟨m, n.props, n.children.put name (grow m path f ((n.child? name).getD (empty m)))⟩

/-- writes at the end of a path; where the path ends early, so does the write -/
def edit (m : σ) : List String → (Node σ → Node σ) → Node σ → Node σ
  | [], f, n => f n
  | name :: path, f, n =>
    if n.hasChild name then ⟨m, n.props, n.children.adjust name (edit m path f)⟩ else n

@[simp] theorem grow_nil (m : σ) (f : Node σ → Node σ) (n : Node σ) : n.grow m [] f = f n := rfl

theorem child?_grow (m : σ) (name : String) (path : List String) (f : Node σ → Node σ)
    (n : Node σ) (k : String) :
    (n.grow m (name :: path) f).child? k =
      if k = name then some (((n.child? name).getD (empty m)).grow m path f) else n.child? k :=
  SortedMap.get?_put name _ n.children k

@[simp] theorem props_grow_cons (m : σ) (name : String) (path : List String)
    (f : Node σ → Node σ) (n : Node σ) : (n.grow m (name :: path) f).props = n.props := rfl

@[simp] theorem mark_grow_cons (m : σ) (name : String) (path : List String)
    (f : Node σ → Node σ) (n : Node σ) : (n.grow m (name :: path) f).mark = m := rfl

@[simp] theorem edit_nil (m : σ) (f : Node σ → Node σ) (n : Node σ) : n.edit m [] f = f n := rfl

theorem child?_edit (m : σ) (name : String) (path : List String) (f : Node σ → Node σ)
    (n : Node σ) (k : String) :
    (n.edit m (name :: path) f).child? k =
      if k = name then (n.child? name).map (edit m path f) else n.child? k := by
  unfold edit
  split
  · exact SortedMap.get?_adjust name k _ n.children
  · next h =>
    have h : n.child? name = none := hasChild_eq_false_iff.1 (by simpa using h)
    by_cases e : k = name
    · rw [if_pos e, e, h]; rfl
    · rw [if_neg e]

@[simp] theorem props_edit_cons (m : σ) (name : String) (path : List String)
    (f : Node σ → Node σ) (n : Node σ) : (n.edit m (name :: path) f).props = n.props := by
  unfold edit
  split <;> rfl

@[simp] theorem childCount_edit_cons (m : σ) (name : String) (path : List String)
    (f : Node σ → Node σ) (n : Node σ) :
    (n.edit m (name :: path) f).childCount = n.childCount := by
  unfold edit
  split
  · exact SortedMap.length_adjust name _ n.children
  · rfl

/-- the written node stands at the end of the path, if there was one -/
theorem at?_edit (m : σ) (path : List String) (f : Node σ → Node σ) (n : Node σ) :
    (n.edit m path f).at? path = (n.at? path).map f := by
  induction path generalizing n with
  | nil => rfl
  | cons name path ih =>
    rw [at?_cons, child?_edit, if_pos rfl, at?_cons]
    cases n.child? name with
    | none => rfl
    | some c => exact ih c

end PropertyIndex.Node
