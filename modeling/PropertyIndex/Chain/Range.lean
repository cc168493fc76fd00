import PropertyIndex.Chain.Walk

/-!
# Ranges of keys

* `Range.contains`   whether a key lies between two bounds;
* `Range.passed`     whether no later key of a chain can;
* `RangeScan`        a walk that is to yield the entries of a range and to stop behind it;
* `RangeScan.State.next`   the next answer of such a scan and the scan after it, and `next_of_done`:
                     once a scan is done, nothing follows.
-/

namespace PropertyIndex

inductive Bound where
  | unbounded
  | included (key : String)
  | excluded (key : String)
deriving DecidableEq, Repr

/-- a range of keys; it may be empty -/
structure Range where
  lower : Bound
  upper : Bound
deriving DecidableEq, Repr

namespace Range

def below (r : Range) (key : String) : Bool :=
  match r.lower with
  | .unbounded => false
  | .included k => decide (key < k)
  | .excluded k => decide (key < k ∨ key = k)

def above (r : Range) (key : String) : Bool :=
  match r.upper with
  | .unbounded => false
  | .included k => decide (k < key)
  | .excluded k => decide (k < key ∨ k = key)

def contains (r : Range) (key : String) : Bool := !r.below key && !r.above key

/-- a chain that reached the key has left the range behind -/
def passed (r : Range) (d : Direction) (key : String) : Bool :=
  match d with
  | .ascending => r.above key
  | .descending => r.below key

end Range

/-- a walk that is to be restricted to a range -/
structure RangeScan (σ : Type) where
  walk : Walk σ
  range : Range
  direction : Direction

/-- a scan under way; it is done when it has met an error or left the range behind -/
structure RangeScan.State (σ : Type) extends RangeScan σ where
  done : Bool

namespace RangeScan

variable {σ : Type}

def start (s : RangeScan σ) : State σ := ⟨s, false⟩

namespace State

/-- the next item in the range, if there is one, and the scan after it -/
def next (s : State σ) : Option (Item σ) × State σ :=
  if s.done then (none, s)
  else
    match _h : s.walk.next? with
    | none => (none, s)
    | some (.error e, w) => (some (.error e), { s with walk := w, done := true })
    | some (.ok x, w) =>
      if s.range.contains x.name then (some (.ok x), { s with walk := w })
      else if s.range.passed s.direction x.name then (none, { s with walk := w, done := true })
      else next { s with walk := w }
termination_by s.walk.bound
decreasing_by exact Walk.bound_lt_of_next? _h

theorem next_of_done {s : State σ} (h : s.done = true) : s.next = (none, s) := by
  rw [next, if_pos h]

/-- the next item and the scan after it, or nothing -/
def step? (s : State σ) : Option (Item σ × State σ) := s.next.1.map fun x => (x, s.next.2)

theorem bound_lt_of_next {s : State σ} {x : Item σ} (h : s.next.1 = some x) :
    s.next.2.walk.bound < s.walk.bound := by
  fun_induction next s with
  | case1 s hd => cases h
  | case2 s hd hw => cases h
  | case3 s hd e w hw => exact Walk.bound_lt_of_next? hw
  | case4 s hd y w hw hc => exact Walk.bound_lt_of_next? hw
  | case5 s hd y w hw hc hp => cases h
  | case6 s hd y w hw hc hp ih => exact Nat.lt_trans (ih h) (Walk.bound_lt_of_next? hw)

theorem bound_lt_of_step? {s s' : State σ} {x : Item σ} (h : s.step? = some (x, s')) :
    s'.walk.bound < s.walk.bound := by
  unfold step? at h
  obtain ⟨y, hy, e⟩ := Option.map_eq_some_iff.1 h
  cases e
  exact bound_lt_of_next hy

/-- everything that a scan still yields -/
def items (s : State σ) : List (Item σ) := unroll step? (·.walk.bound) bound_lt_of_step? s

/-- the answers to the next `n` requests -/
def pulls : Nat → State σ → List (Option (Item σ))
  | 0, _ => []
  | n + 1, s => s.next.1 :: pulls n s.next.2

/-- once a scan is done, every answer is that nothing is left -/
theorem pulls_of_done {s : State σ} (h : s.done = true) (n : Nat) :
    s.pulls n = List.replicate n none := by
  induction n with
  | zero => rfl
  | succ n ih =>
    rw [pulls, next_of_done h, ih]
    rfl

end State

/-- everything that a scan yields -/
def items (s : RangeScan σ) : List (Item σ) := s.start.items

/-- the answers to the first `n` requests -/
def pulls (n : Nat) (s : RangeScan σ) : List (Option (Item σ)) := s.start.pulls n

end RangeScan

end PropertyIndex
