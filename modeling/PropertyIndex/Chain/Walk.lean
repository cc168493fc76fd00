import PropertyIndex.Chain.Entry

/-!
# Walks along the chain

A walk reads the index it was started on and follows the pointers from the head.  A pointer to a
missing node, and more hops than the index has children, yield one error and end the walk.

* `unroll`            everything that comes out of a state, step by step, while a bound goes down;
* `Walk.next?`        the next item and the walk after it, or nothing at the end;
* `Walk.checkedNext`  the same with an error at the end;
* `Walk.items`        everything the walk still yields;
* `isDone_iff`        a walk says that it is done exactly when nothing follows.
-/

namespace PropertyIndex

/-! ## One step after the other -/

section

variable {S A : Type} {step : S → Option (A × S)} {bound : S → Nat}
  {lt : ∀ {s s' x}, step s = some (x, s') → bound s' < bound s} {s s' : S} {x : A}

/-- everything that comes out of a state; a bound on what is left goes down at every step -/
def unroll (step : S → Option (A × S)) (bound : S → Nat)
    (lt : ∀ {s s' x}, step s = some (x, s') → bound s' < bound s) (s : S) : List A :=
  match _h : step s with
  | none => []
  | some (x, s') => x :: unroll step bound lt s'
termination_by bound s
decreasing_by exact lt _h

theorem unroll_of_none (h : step s = none) : unroll step bound lt s = [] := by
  rw [unroll]
  split
  · rfl
  · next h' => rw [h] at h'; cases h'

theorem unroll_of_some (h : step s = some (x, s')) :
    unroll step bound lt s = x :: unroll step bound lt s' := by
  rw [unroll]
  split
  · next h' => rw [h] at h'; cases h'
  · next h' => rw [h] at h'; cases h'; rfl

/-- a function that goes by the same steps gives what comes out -/
theorem unroll_eq {f : S → List A}
    (h : ∀ s, f s = ((step s).map fun y => y.1 :: f y.2).getD []) (s : S) :
    unroll step bound lt s = f s := by
  fun_induction unroll step bound lt s with
  | case1 s hs =>
    rw [h, hs]
    rfl
  | case2 s x s' hs ih =>
    rw [h, hs, ih]
    rfl

end

/-! ## Walks -/

/-- what a walk yields next -/
inductive Cursor where
  | start
  | entry (key : String)
  | done
deriving DecidableEq, Repr

/-- where a pointer leads: the empty name leads nowhere -/
def Cursor.after (next : String) : Cursor := if next = "" then .done else .entry next

/-- a walk: the index it reads, what it yields next, and how many hops it may still take -/
structure Walk (σ : Type) where
  index : Node σ
  cursor : Cursor
  hopsLeft : Nat

namespace Walk

variable {σ : Type}

/-- a walk along the chain of an index, with or without its head -/
def along (index : Node σ) (withStart : Bool) : Walk σ where
  index := index
  cursor := if withStart then .start else .after (Entry.start index).next
  hopsLeft := index.childCount

/-- the next item and the walk after it; an error is the last item -/
def next? (w : Walk σ) : Option (Item σ × Walk σ) :=
  match w.cursor with
  | .done => none
  | .start =>
    let e := Entry.start w.index
    some (.ok e, { w with cursor := .after e.next })
  | .entry key =>
    match w.hopsLeft with
    | 0 => some (.error (.corruption (.tooLong w.index.childCount key)), { w with cursor := .done })
    | hops + 1 =>
      match w.index.child? key with
      | none => some (.error (.corruption (.missingEntry key)), ⟨w.index, .done, hops⟩)
      | some n => some (.ok ⟨key, some n⟩, ⟨w.index, .after n.successor, hops⟩)

/-- the next item; past the end that is an error -/
def checkedNext (w : Walk σ) : Item σ × Walk σ := (w.next?).getD (.error .exhausted, w)

def isDone (w : Walk σ) : Bool := w.cursor = .done

/-- a walk only reads: taking out the entry it stands at fails always -/
def remove (_ : Walk σ) : Except Error Unit := .error .readOnlyWalk

/-- a bound on the items that follow -/
def bound (w : Walk σ) : Nat :=
  match w.cursor with
  | .done => 0
  | .entry _ => w.hopsLeft + 1
  | .start => w.hopsLeft + 2

theorem bound_after_le (index : Node σ) (next : String) (hops : Nat) :
    (⟨index, .after next, hops⟩ : Walk σ).bound ≤ hops + 1 := by
  unfold Cursor.after
  split <;> simp [bound]

theorem bound_lt_of_next? {w w' : Walk σ} {x : Item σ} (h : w.next? = some (x, w')) :
    w'.bound < w.bound := by
  obtain ⟨index, cursor, hops⟩ := w
  cases cursor with
  | done => cases h
  | start =>
    cases h
    exact Nat.lt_succ_of_le (bound_after_le index _ hops)
  | entry key =>
    unfold next? at h
    cases hops with
    | zero => cases h; exact Nat.one_pos
    | succ hops =>
      dsimp only at h
      split at h
      · cases h; exact Nat.succ_pos _
      · cases h
        exact Nat.lt_succ_of_le (bound_after_le index _ hops)

def items (w : Walk σ) : List (Item σ) := unroll next? bound bound_lt_of_next? w

theorem items_of_next?_eq_none {w : Walk σ} (h : w.next? = none) : w.items = [] :=
  unroll_of_none h

theorem items_of_next?_eq_some {w w' : Walk σ} {x : Item σ} (h : w.next? = some (x, w')) :
    w.items = x :: w'.items := unroll_of_some h

theorem isDone_iff {w : Walk σ} : w.isDone = true ↔ w.next? = none := by
  obtain ⟨index, cursor, hops⟩ := w
  cases cursor with
  | done => exact iff_of_true rfl rfl
  | start => exact iff_of_false (by simp [isDone]) (by simp [next?])
  | entry key =>
    refine iff_of_false (by simp [isDone]) ?_
    unfold next?
    cases hops with
    | zero => simp
    | succ hops =>
      dsimp only
      split <;> simp

end Walk

/-- the entries along the chain of an index -/
def Node.chain {σ : Type} (index : Node σ) (withStart : Bool) : List (Item σ) :=
  (Walk.along index withStart).items

end PropertyIndex
