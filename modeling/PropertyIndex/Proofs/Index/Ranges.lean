import Mathlib.Data.String.Basic
import Mathlib.Order.Interval.Set.Basic
import PropertyIndex.Proofs.Match.Gathered

/-!
# Scans of a range of keys

A scan of a range leaves the chain at the first key that has passed the end of the range.  In an
ordered chain no later key comes back into the range, so nothing is lost; what a scan never sees is
an error behind that key.

* `Range.keys`, `Range.reach`   the keys between the bounds; those up to the end of the range, as a
                         chain comes to it;
* `Range.scan`           what a scan makes of the items of a walk;
* `RangeScan.State.next_cases`   an answer is the first of the items that remain, and after an empty
                         answer none remain;
* `RangeScan.State.items_eq`, `RangeScan.State.pulls_eq`   a scan yields these items, and answers
                         with them and then that nothing is left;
* `Range.scan_of_ordered`   along an ordered chain a scan is a filter;
* `OrderedIndex.range_eq_filter`   the same for an index, and a query for a range.
-/

namespace PropertyIndex

variable {σ : Type} {d : Direction} {r : Range} {key : String}

/-! ## Bounds -/

namespace Bound

/-- the keys that a lower bound lets through -/
def upward : Bound → Set String
  | .unbounded => Set.univ
  | .included k => Set.Ici k
  | .excluded k => Set.Ioi k

/-- the keys that an upper bound lets through -/
def downward : Bound → Set String
  | .unbounded => Set.univ
  | .included k => Set.Iic k
  | .excluded k => Set.Iio k

theorem mem_upward_of_lt {b : Bound} {j k : String} (h : j ∈ b.upward) (hlt : j < k) :
    k ∈ b.upward := by
  cases b with
  | unbounded => trivial
  | included x => exact le_of_lt (lt_of_le_of_lt h hlt)
  | excluded x => exact lt_trans h hlt

theorem mem_downward_of_lt {b : Bound} {j k : String} (h : k ∈ b.downward) (hlt : j < k) :
    j ∈ b.downward := by
  cases b with
  | unbounded => trivial
  | included x => exact le_of_lt (lt_of_lt_of_le hlt h)
  | excluded x => exact lt_trans hlt h

end Bound

namespace Range

/-- the keys between the bounds -/
def keys (r : Range) : Set String := r.lower.upward ∩ r.upper.downward

/-- the keys that have not passed the end of the range, in a chain that runs in the direction -/
def reach (r : Range) : Direction → Set String
  | .ascending => r.upper.downward
  | .descending => r.lower.upward

theorem below_eq_false_iff : r.below key = false ↔ key ∈ r.lower.upward := by
  unfold below Bound.upward
  cases r.lower with
  | unbounded => exact iff_of_true rfl trivial
  | included k => exact decide_eq_false_iff_not.trans not_lt
  | excluded k =>
    refine decide_eq_false_iff_not.trans ?_
    rw [← le_iff_lt_or_eq]
    exact not_le

theorem above_eq_false_iff : r.above key = false ↔ key ∈ r.upper.downward := by
  unfold above Bound.downward
  cases r.upper with
  | unbounded => exact iff_of_true rfl trivial
  | included k => exact decide_eq_false_iff_not.trans not_lt
  | excluded k =>
    refine decide_eq_false_iff_not.trans ?_
    rw [← le_iff_lt_or_eq]
    exact not_le

theorem contains_iff : r.contains key = true ↔ key ∈ r.keys := by
  unfold contains keys
  rw [Bool.and_eq_true, Bool.not_eq_true', Bool.not_eq_true', below_eq_false_iff,
    above_eq_false_iff, Set.mem_inter_iff]

theorem passed_eq_false_iff : r.passed d key = false ↔ key ∈ r.reach d := by
  cases d with
  | ascending => exact above_eq_false_iff
  | descending => exact below_eq_false_iff

instance (r : Range) : DecidablePred (· ∈ r.keys) := fun _ => decidable_of_iff _ contains_iff

instance (r : Range) (d : Direction) : DecidablePred (· ∈ r.reach d) :=
  fun _ => decidable_of_iff _ passed_eq_false_iff

theorem mem_reach_of_mem_keys (h : key ∈ r.keys) : key ∈ r.reach d := by
  cases d with
  | ascending => exact h.2
  | descending => exact h.1

/-- a chain that has not passed the end of the range had not passed it before -/
theorem mem_reach_of_precedes {j k : String} (h : k ∈ r.reach d) (hp : d.precedes j k) :
    j ∈ r.reach d := by
  cases d with
  | ascending => exact Bound.mem_downward_of_lt h hp
  | descending => exact Bound.mem_upward_of_lt h hp

/-! ## Scans -/

/-- what a scan makes of the items of a walk -/
def scan (r : Range) (d : Direction) : List (Item σ) → List (Item σ)
  | [] => []
  | .error e :: _ => [.error e]
  | .ok x :: l =>
    if x.name ∈ r.keys then .ok x :: scan r d l
    else if x.name ∈ r.reach d then scan r d l else []

/-- along an ordered chain a scan finds every key of the range, and sees what is behind the chain if
no key has passed the end of the range -/
theorem scan_of_ordered {t : Node σ} {ks : List String} (ho : ks.Pairwise d.precedes)
    {rest : List (Item σ)} (hrest : r.scan d rest = rest) :
    r.scan d (ks.map t.item ++ rest) = (ks.filter (· ∈ r.keys)).map t.item
      ++ if ∀ k ∈ ks, k ∈ r.reach d then rest else [] := by
  induction ks with
  | nil =>
    rw [List.map_nil, List.nil_append, hrest, if_pos (List.forall_mem_nil _)]
    rfl
  | cons k ks ih =>
    obtain ⟨hk, ho⟩ := List.pairwise_cons.1 ho
    rw [List.map_cons, List.cons_append, Node.item, scan]
    by_cases hin : k ∈ r.keys
    · have hreach : k ∈ r.reach d := mem_reach_of_mem_keys hin
      rw [if_pos hin, ih ho, List.filter_cons_of_pos (by simpa using hin)]
      simp only [List.forall_mem_cons, hreach, true_and]
      rfl
    rw [if_neg hin, List.filter_cons_of_neg (by simpa using hin)]
    by_cases hreach : k ∈ r.reach d
    · rw [if_pos hreach, ih ho]
      simp only [List.forall_mem_cons, hreach, true_and]
    · -- the keys that follow have passed the end of the range as well
      have hnone : ks.filter (· ∈ r.keys) = [] := by
        rw [List.filter_eq_nil_iff]
        intro j hj hmem
        have hj' : j ∈ r.reach d := mem_reach_of_mem_keys (by simpa using hmem)
        exact hreach (mem_reach_of_precedes hj' (hk j hj))
      have hall : ¬ ∀ j ∈ k :: ks, j ∈ r.reach d := fun h => hreach (h k List.mem_cons_self)
      rw [if_neg hreach, hnone, if_neg hall]
      rfl

end Range

namespace RangeScan.State

/-- the items that a scan still yields, read off its walk -/
def remaining (s : State σ) : List (Item σ) :=
  if s.done then [] else s.range.scan s.direction s.walk.items

theorem remaining_of_done {s : State σ} (h : s.done = true) : s.remaining = [] := if_pos h

theorem remaining_of_not_done {s : State σ} (h : ¬ s.done = true) :
    s.remaining = s.range.scan s.direction s.walk.items := if_neg h

/-- an answer is the first of the items that remain, and after an empty answer none remain -/
theorem next_cases (s : State σ) :
    (s.next.1 = none ∧ s.remaining = [] ∧ s.next.2.remaining = []) ∨
      ∃ x, s.next.1 = some x ∧ s.remaining = x :: s.next.2.remaining := by
  fun_induction next s with
  | case1 s hd => exact .inl ⟨rfl, remaining_of_done hd, remaining_of_done hd⟩
  | case2 s hd hw =>
    have hnone : s.remaining = [] := by
      rw [remaining_of_not_done hd, Walk.items_of_next?_eq_none hw]
      rfl
    exact .inl ⟨rfl, hnone, hnone⟩
  | case3 s hd e w hw =>
    refine .inr ⟨.error e, rfl, ?_⟩
    rw [remaining_of_not_done hd, Walk.items_of_next?_eq_some hw]
    exact congrArg _ (remaining_of_done rfl).symm
  | case4 s hd x w hw hin =>
    refine .inr ⟨.ok x, rfl, ?_⟩
    rw [remaining_of_not_done hd, Walk.items_of_next?_eq_some hw, Range.scan,
      if_pos (Range.contains_iff.1 hin)]
    exact congrArg _ (remaining_of_not_done (s := { s with walk := w }) hd).symm
  | case5 s hd x w hw hin hpassed =>
    have hreach : x.name ∉ s.range.reach s.direction := by
      rw [← Range.passed_eq_false_iff, hpassed]
      decide
    refine .inl ⟨rfl, ?_, remaining_of_done rfl⟩
    rw [remaining_of_not_done hd, Walk.items_of_next?_eq_some hw, Range.scan,
      if_neg (mt Range.contains_iff.2 hin), if_neg hreach]
  | case6 s hd x w hw hin hpassed ih =>
    have hreach : x.name ∈ s.range.reach s.direction := by
      rw [← Range.passed_eq_false_iff]
      simpa using hpassed
    have hskip : s.remaining = ({ s with walk := w } : State σ).remaining := by
      rw [remaining_of_not_done hd, Walk.items_of_next?_eq_some hw, Range.scan,
        if_neg (mt Range.contains_iff.2 hin), if_pos hreach]
      exact (remaining_of_not_done (s := { s with walk := w }) hd).symm
    rw [hskip]
    exact ih

/-- a scan yields what it makes of the items of its walk -/
theorem items_eq (s : State σ) : s.items = s.remaining := by
  refine unroll_eq (fun s => ?_) s
  unfold step?
  rcases s.next_cases with ⟨he, hs, _⟩ | ⟨x, he, hs⟩
  · rw [he, hs]
    rfl
  · rw [he, hs]
    rfl

/-- a scan answers with the items that remain, one after the other, and then that nothing is left -/
theorem pulls_eq (n : Nat) (s : State σ) :
    s.pulls n = (List.range n).map fun j => s.remaining[j]? := by
  induction n generalizing s with
  | zero => rfl
  | succ n ih =>
    rw [List.range_succ_eq_map, List.map_cons, List.map_map, pulls, ih]
    rcases s.next_cases with ⟨he, hs, hs'⟩ | ⟨x, he, hs⟩
    · rw [he, hs, hs']
      rfl
    · rw [he, hs]
      rfl

end RangeScan.State

/-! ## Ranges of an index -/

/-- **A scan that stops early finds what a filter finds.**  Let the walk yield keys in order, and
then end or break off.  A scan of a range yields the entries between the bounds in the order of the
walk.  The error comes behind them if no key has passed the end of the range, and is not seen
otherwise.  After that nothing is left.  If the walk has no error, a query for the range is a query
for the keys in it. -/
theorem OrderedIndex.range_eq_filter (o : OrderedIndex σ) {t : Node σ} {keys : List String}
    {broken : Option Corruption}
    (hwalk : t.chain false
      = keys.map t.item ++ broken.toList.map fun c => .error (.corruption c))
    (ho : keys.Pairwise o.direction.precedes) (r : Range) :
    let found : List (Item σ) := (keys.filter (· ∈ r.keys)).map t.item
      ++ if ∀ k ∈ keys, k ∈ r.reach o.direction
        then broken.toList.map fun c => .error (.corruption c) else []
    o.range t r = found ∧
      (∀ n, (o.scanRange t r).pulls n = (List.range n).map fun j => found[j]?) ∧
      (broken = none → o.queryRange t r
        = (Index.ordered o).query t (some (keys.filter (· ∈ r.keys)))) := by
  intro found
  have hrest : r.scan o.direction (broken.toList.map fun c => (.error (.corruption c) : Item σ))
      = broken.toList.map fun c => .error (.corruption c) := by
    cases broken <;> rfl
  have hremaining : (o.scanRange t r).start.remaining = found := by
    show r.scan o.direction (t.chain false) = found
    rw [hwalk]
    exact Range.scan_of_ordered ho hrest
  have hrange : o.range t r = found := (RangeScan.State.items_eq _).trans hremaining
  refine ⟨hrange, ?_, ?_⟩
  · intro n
    rw [← hremaining]
    exact RangeScan.State.pulls_eq n _
  · rintro rfl
    have hfound : found = (keys.filter (· ∈ r.keys)).map t.item := by
      show _ ++ (if _ then [] else []) = _
      rw [ite_self, List.append_nil]
    unfold queryRange
    rw [hrange, hfound, Collector.gather_items, Index.query_keys]
    rfl

/-- the chain `a`, `b`, `c`, whose last entry points to a name without a child -/
def Node.dangling : Node Unit :=
  ⟨(), [],
    [(":start", ⟨(), [(":next", .text "a")], []⟩),
      ("a", ⟨(), [(":next", .text "b")], [("p", ⟨(), [("match", .flag true)], []⟩)]⟩),
      ("b", ⟨(), [(":next", .text "c")], [("q", ⟨(), [("match", .flag true)], []⟩)]⟩),
      ("c", ⟨(), [(":next", .text "ghost")], []⟩)]⟩

theorem OrderedIndex.range_eq_filter_dangling :
    let o : OrderedIndex Unit := {}
    let broken : Item Unit := .error (.corruption (.missingEntry "ghost"))
    Node.dangling.chain false = ["a", "b", "c"].map Node.dangling.item ++ [broken] ∧
      ["a", "b", "c"].Pairwise (Direction.precedes .ascending) ∧
      o.range Node.dangling ⟨.excluded "a", .unbounded⟩
        = ["b", "c"].map Node.dangling.item ++ [broken] ∧
      o.range Node.dangling ⟨.excluded "a", .excluded "c"⟩ = ["b"].map Node.dangling.item := by
  intro o broken
  have htrail : Trail Node.dangling "a" ["a", "b", "c"] "ghost" :=
    .hop (by decide) rfl (.hop (by decide) rfl (.hop (by decide) rfl (.stop "ghost")))
  have hend : (⟨Node.dangling, .after "ghost", 1⟩ : Walk Unit).items = [broken] :=
    Walk.items_after_missing (by decide) rfl 0
  have hwalk : Node.dangling.chain false = ["a", "b", "c"].map Node.dangling.item ++ [broken] := by
    rw [← hend]
    exact Walk.items_trail htrail (by decide)
  have ho : ["a", "b", "c"].Pairwise (Direction.precedes .ascending) := by decide
  have hwalk' : Node.dangling.chain false = ["a", "b", "c"].map Node.dangling.item
      ++ (some (.missingEntry "ghost")).toList.map fun c => .error (.corruption c) := hwalk
  have hall := range_eq_filter o hwalk' ho
  exact ⟨hwalk, ho, (hall ⟨.excluded "a", .unbounded⟩).1,
    (hall ⟨.excluded "a", .excluded "c"⟩).1⟩

end PropertyIndex
