import PropertyIndex.Proofs.Node.Writes

/-!
# Which nodes a write creates, and which values it changes

A tree is known by the addresses of its nodes and by the values of the properties there.

* `Node.exists?`, `Node.value?`   whether there is a node at an address; the value of a property there;
* `exists?_grow`    a write that creates its path adds the nodes along the path;
* `value?_grow`     it changes values at the end of the path only.
-/

namespace PropertyIndex.Node

variable {σ : Type} {m : σ} {t : Node σ}

/-- whether there is a node at an address -/
def exists? (t : Node σ) (a : List String) : Bool := (t.at? a).isSome

/-- the value of a property of the node at an address -/
def value? (t : Node σ) (a : List String) (name : String) : Option Value :=
  (t.at? a).bind (·.prop? name)

@[simp] theorem exists?_nil (t : Node σ) : t.exists? [] = true := rfl

@[simp] theorem value?_nil (t : Node σ) (name : String) : t.value? [] name = t.prop? name := rfl

theorem exists?_cons (t : Node σ) (k : String) (a : List String) :
    t.exists? (k :: a) = ((t.child? k).map (·.exists? a)).getD false := by
  unfold exists?
  rw [at?_cons]
  cases t.child? k <;> rfl

theorem value?_cons (t : Node σ) (k : String) (a : List String) (name : String) :
    t.value? (k :: a) name = (t.child? k).bind (·.value? a name) := by
  unfold value?
  rw [at?_cons]
  cases t.child? k <;> rfl

/-! ## A child that is created if it is missing -/

theorem exists?_getD_empty (m : σ) (t : Node σ) (k : String) (a : List String) :
    ((t.child? k).getD (empty m)).exists? a = true ↔ t.exists? (k :: a) = true ∨ a = [] := by
  rw [exists?_cons]
  cases t.child? k with
  | none =>
    cases a with
    | nil => simp
    | cons j a => simp [exists?_cons]
  | some c =>
    cases a with
    | nil => simp
    | cons j a => simp

theorem value?_getD_empty (m : σ) (t : Node σ) (k : String) (a : List String) (name : String) :
    ((t.child? k).getD (empty m)).value? a name = t.value? (k :: a) name := by
  rw [value?_cons]
  cases t.child? k with
  | none =>
    cases a with
    | nil => rfl
    | cons j a => rw [Option.getD_none, value?_cons]; rfl
  | some c => rfl

/-! ## A write that creates its path -/

section
variable {f : Node σ → Node σ}

/-- a write that creates its path adds the nodes along the path -/
theorem exists?_grow (hf : ∀ n k, (f n).child? k = n.child? k) (t : Node σ) (path a : List String) :
    (t.grow m path f).exists? a = true ↔ t.exists? a = true ∨ a <+: path := by
  induction path generalizing t a with
  | nil =>
    cases a with
    | nil => simp
    | cons k a => simp [exists?_cons, hf]
  | cons name path ih =>
    cases a with
    | nil => simp
    | cons k a =>
      rw [exists?_cons, child?_grow]
      by_cases e : k = name
      · rw [if_pos e, e, Option.map_some, Option.getD_some, ih, exists?_getD_empty,
          List.prefix_cons_inj]
        constructor
        · rintro ((h | rfl) | h)
          · exact .inl h
          · exact .inr List.nil_prefix
          · exact .inr h
        · rintro (h | h)
          · exact .inl (.inl h)
          · exact .inr h
      · rw [if_neg e, ← exists?_cons, List.cons_prefix_cons]
        simp [e]

/-- a write changes values at the end of its path only -/
theorem value?_grow (hf : ∀ n k, (f n).child? k = n.child? k) (t : Node σ) (path a : List String)
    (name : String) : (t.grow m path f).value? a name
      = if a = path then (f ((t.at? path).getD (empty m))).prop? name else t.value? a name := by
  induction path generalizing t a with
  | nil =>
    cases a with
    | nil => rfl
    | cons k a => simp [value?_cons, hf]
  | cons key path ih =>
    cases a with
    | nil =>
      rw [value?_nil, value?_nil, if_neg (List.cons_ne_nil key path).symm]
      unfold prop?
      rw [props_grow_cons]
    | cons k a =>
      rw [value?_cons, child?_grow]
      by_cases e : k = key
      · subst e
        rw [if_pos rfl, Option.bind_some, ih, value?_getD_empty, at?_cons]
        have hend : ((t.child? k).bind (at? path)).getD (empty m)
            = (((t.child? k).getD (empty m)).at? path).getD (empty m) := by
          cases t.child? k with
          | some c => rfl
          | none => cases path <;> rfl
        simp only [List.cons.injEq, true_and, hend]
      · rw [if_neg e, ← value?_cons]
        simp [e]

end

theorem prop?_getD_empty (m : σ) (t : Node σ) (a : List String) (name : String) :
    ((t.at? a).getD (empty m)).prop? name = t.value? a name := by
  unfold value?
  cases t.at? a <;> rfl

/-- a write of one value, at the end of a path that it creates -/
theorem value?_grow_setProp (t : Node σ) (path a : List String) (name k : String) (v : Value) :
    (t.grow m path (·.setProp name v)).value? a k
      = if a = path ∧ k = name then some v else t.value? a k := by
  rw [value?_grow (f := (·.setProp name v)) fun _ _ => rfl, prop?_setProp, prop?_getD_empty]
  by_cases h : a = path
  · simp [h]
  · simp [h]

/-- reaching the end of a path changes no value -/
theorem value?_grow_id (t : Node σ) (path a : List String) (name : String) :
    (t.grow m path fun n => n).value? a name = t.value? a name := by
  rw [value?_grow (f := fun n => n) fun _ _ => rfl, prop?_getD_empty]
  split
  · next h => rw [h]
  · rfl

end PropertyIndex.Node
