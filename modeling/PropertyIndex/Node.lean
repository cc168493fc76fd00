import PropertyIndex.SortedMap
import PropertyIndex.Value

/-!
# Nodes of a content tree

A node has properties and named children.  It also carries a mark: whoever writes to a tree chooses
a mark, and every node whose child map a write goes through gets it (`Node.Edit`).  With `Unit` for
the marks a node is a plain tree; with a fresh mark per write, equal marks at one address mean that
the child map there was not copied in between.

* `Node.child?`, `Node.at?`            a child, a descendant;
* `Node.prop?`, `Node.text?`, `Node.flag`   a property, read as any value, as a text, as a flag;
* `Node.forget`                        the plain tree;
* `Node.Sorted`                        names ascend everywhere in the tree.
-/

namespace PropertyIndex

/-- a node of a content tree: its mark, its properties and its children -/
inductive Node (σ : Type) where
  | mk (mark : σ) (props : List (String × Value)) (children : List (String × Node σ))

namespace Node

variable {σ : Type}

/-! ## Parts -/

/-- the mark of the last write that went through the child map -/
def mark : Node σ → σ
  | ⟨m, _, _⟩ => m

def props : Node σ → SortedMap Value
  | ⟨_, ps, _⟩ => ps

def children : Node σ → SortedMap (Node σ)
  | ⟨_, _, cs⟩ => cs

/-- the node without properties and children -/
def empty (m : σ) : Node σ := ⟨m, [], []⟩

@[simp] theorem mark_mk (m : σ) (ps : SortedMap Value) (cs : SortedMap (Node σ)) :
    mark ⟨m, ps, cs⟩ = m := rfl

@[simp] theorem props_mk (m : σ) (ps : SortedMap Value) (cs : SortedMap (Node σ)) :
    props ⟨m, ps, cs⟩ = ps := rfl

@[simp] theorem children_mk (m : σ) (ps : SortedMap Value) (cs : SortedMap (Node σ)) :
    children ⟨m, ps, cs⟩ = cs := rfl

theorem eta (n : Node σ) : (⟨n.mark, n.props, n.children⟩ : Node σ) = n := by cases n; rfl

theorem ext {a b : Node σ} (hm : a.mark = b.mark) (hp : a.props = b.props)
    (hc : a.children = b.children) : a = b := by
  rw [← eta a, ← eta b, hm, hp, hc]

mutual

/-- what holds of a node when it holds of its children holds of every node -/
theorem induct {P : Node σ → Prop}
    (step : ∀ m ps (cs : SortedMap (Node σ)), (∀ p ∈ cs, P p.2) → P ⟨m, ps, cs⟩) :
    ∀ n : Node σ, P n
  | ⟨m, ps, cs⟩ => step m ps cs (inductAll step cs)

theorem inductAll {P : Node σ → Prop}
    (step : ∀ m ps (cs : SortedMap (Node σ)), (∀ p ∈ cs, P p.2) → P ⟨m, ps, cs⟩) :
    ∀ cs : List (String × Node σ), ∀ p ∈ cs, P p.2
  | [], _, hp => by cases hp
  | (k, n) :: r, p, hp => by
    rcases List.mem_cons.1 hp with e | e
    · have h := induct step n
      rw [e]; exact h
    · exact inductAll step r p e

end

/-! ## Reading -/

def child? (n : Node σ) (name : String) : Option (Node σ) := n.children.get? name

def hasChild (n : Node σ) (name : String) : Bool := (n.child? name).isSome

def childCount (n : Node σ) : Nat := n.children.length

def childNames (n : Node σ) : List String := n.children.names

def prop? (n : Node σ) (name : String) : Option Value := n.props.get? name

def hasProp (n : Node σ) (name : String) : Bool := (n.prop? name).isSome

def propNames (n : Node σ) : List String := n.props.names

/-- the text of a property, if it holds a text -/
def text? (n : Node σ) (name : String) : Option String := (n.prop? name).bind Value.text?

/-- the flag of a property; anything but a flag counts as false -/
def flag (n : Node σ) (name : String) : Bool := ((n.prop? name).bind Value.flag?).getD false

/-- the descendant at the end of a list of names -/
def at? : List String → Node σ → Option (Node σ)
  | [], n => some n
  | name :: path, n => (n.child? name).bind (at? path)

@[simp] theorem at?_nil (n : Node σ) : at? [] n = some n := rfl

theorem at?_cons (name : String) (path : List String) (n : Node σ) :
    at? (name :: path) n = (n.child? name).bind (at? path) := rfl

theorem at?_singleton (name : String) (n : Node σ) : at? [name] n = n.child? name := by
  rw [at?_cons]; cases n.child? name <;> rfl

@[simp] theorem child?_empty (m : σ) (name : String) : (empty m).child? name = none := rfl

@[simp] theorem prop?_empty (m : σ) (name : String) : (empty m).prop? name = none := rfl

/-! ## Forgetting the marks -/

mutual

/-- the plain tree: every mark forgotten -/
def forget : Node σ → Node Unit
  | ⟨_, ps, cs⟩ => ⟨(), ps, forgetAll cs⟩

def forgetAll : List (String × Node σ) → List (String × Node Unit)
  | [] => []
  | (name, n) :: r => (name, forget n) :: forgetAll r

end

theorem forgetAll_eq_map (cs : SortedMap (Node σ)) :
    forgetAll cs = cs.map fun p => (p.1, p.2.forget) := by
  induction cs with
  | nil => rfl
  | cons p r ih => rw [forgetAll, ih]; rfl

@[simp] theorem props_forget (n : Node σ) : n.forget.props = n.props := by
  cases n; rw [forget]; rfl

theorem children_forget (n : Node σ) :
    n.forget.children = n.children.map fun p => (p.1, p.2.forget) := by
  cases n; rw [forget, children_mk, forgetAll_eq_map]; rfl

/-! ## Equality -/

mutual

def compareTrees [DecidableEq σ] : (a b : Node σ) → Decidable (a = b)
  | ⟨m, ps, cs⟩, ⟨m', ps', cs'⟩ =>
    match (inferInstance : Decidable (m = m')), (inferInstance : Decidable (ps = ps')),
      compareLists cs cs' with
    | isTrue hm, isTrue hp, isTrue hc => isTrue (by rw [hm, hp, hc])
    | isFalse h, _, _ => isFalse fun e => h (by injection e)
    | _, isFalse h, _ => isFalse fun e => h (by injection e)
    | _, _, isFalse h => isFalse fun e => h (by injection e)

def compareLists [DecidableEq σ] : (a b : List (String × Node σ)) → Decidable (a = b)
  | [], [] => isTrue rfl
  | [], _ :: _ => isFalse fun e => by cases e
  | _ :: _, [] => isFalse fun e => by cases e
  | (k, n) :: r, (k', n') :: r' =>
    match (inferInstance : Decidable (k = k')), compareTrees n n', compareLists r r' with
    | isTrue hk, isTrue hn, isTrue hr => isTrue (by rw [hk, hn, hr])
    | isFalse h, _, _ => isFalse fun e => h (by injection e with e _; injection e)
    | _, isFalse h, _ => isFalse fun e => h (by injection e with e _; injection e)
    | _, _, isFalse h => isFalse fun e => h (by injection e)

end

instance [DecidableEq σ] : DecidableEq (Node σ) := compareTrees

/-! ## Order -/

/-- names ascend in every node of the tree -/
inductive Sorted : Node σ → Prop where
  | mk {m : σ} {ps : SortedMap Value} {cs : SortedMap (Node σ)} (props : ps.Sorted)
      (children : cs.Sorted) (below : ∀ p ∈ cs, Sorted p.2) : Sorted ⟨m, ps, cs⟩

mutual

def checkOrder : (n : Node σ) → Decidable n.Sorted
  | ⟨m, ps, cs⟩ =>
    match (inferInstance : Decidable (SortedMap.Sorted ps)),
      (inferInstance : Decidable (SortedMap.Sorted cs)), checkOrderAll cs with
    | isTrue hp, isTrue hc, isTrue hb => isTrue (.mk hp hc hb)
    | isFalse h, _, _ => isFalse fun s => by cases s with | mk hp _ _ => exact h hp
    | _, isFalse h, _ => isFalse fun s => by cases s with | mk _ hc _ => exact h hc
    | _, _, isFalse h => isFalse fun s => by cases s with | mk _ _ hb => exact h hb

def checkOrderAll : (cs : List (String × Node σ)) → Decidable (∀ p ∈ cs, Sorted p.2)
  | [] => isTrue fun _ hp => by cases hp
  | (_, n) :: r =>
    match checkOrder n, checkOrderAll r with
    | isTrue hn, isTrue hr => isTrue (List.forall_mem_cons.2 ⟨hn, hr⟩)
    | isFalse h, _ => isFalse fun s => h (List.forall_mem_cons.1 s).1
    | _, isFalse h => isFalse fun s => h (List.forall_mem_cons.1 s).2

end

instance (n : Node σ) : Decidable n.Sorted := checkOrder n

theorem Sorted.empty (m : σ) : Sorted (empty m) :=
  .mk SortedMap.Sorted.nil SortedMap.Sorted.nil fun p hp => by cases hp

theorem Sorted.props_sorted {n : Node σ} : n.Sorted → n.props.Sorted
  | .mk h _ _ => h

theorem Sorted.children_sorted {n : Node σ} : n.Sorted → n.children.Sorted
  | .mk _ h _ => h

theorem Sorted.child? {n c : Node σ} {name : String} (h : n.Sorted)
    (hc : n.child? name = some c) : c.Sorted := by
  cases h with
  | mk _ _ below => exact below (name, c) (SortedMap.mem_of_get? hc)

end Node

end PropertyIndex
