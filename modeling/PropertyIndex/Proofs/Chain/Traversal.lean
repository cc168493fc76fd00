import PropertyIndex.Proofs.Chain.Trail

/-!
# What a walk answers

The pointers of an index are read one after the other from its head.  They come to an empty pointer,
or to a name without a child, or they never end.  What a walk answers to requests depends on this
alone, whichever way it is asked.

* `Node.pointer`         the names read from the head on; `Node.StopsAt` says where they lead nowhere;
* `Walk.answers`         the answers to some requests, `Pull.answersTo` those that a list of items
                         calls for;
* `Walk.answers_eq`      every walk answers with its items, and then that nothing is left;
* `Trail.length_lt`      a trail from the head to a dangling pointer leaves out a child, so a walk
                         reaches its end before it runs out of hops;
* `Walk.answers_along`   the answers of a fresh walk in each of the three cases.
-/

namespace PropertyIndex

variable {σ : Type} {t : Node σ} {k : Nat}

/-! ## Reading the pointers one after the other -/

namespace Node

/-- the name that the child of a name points to; without that child, the empty name -/
def successorOf (t : Node σ) (name : String) : String :=
  ((t.child? name).map successor).getD ""

theorem successorOf_of_child? {k : String} {c : Node σ} (hc : t.child? k = some c) :
    t.successorOf k = c.successor := by
  rw [successorOf, hc]
  rfl

/-- the names that are read when the pointers are followed from the head -/
def pointer (t : Node σ) : Nat → String
  | 0 => t.successorOf startName
  | i + 1 => t.successorOf (t.pointer i)

/-- all pointers before the `k`-th lead to a child, and the `k`-th leads nowhere -/
def StopsAt (t : Node σ) (k : Nat) : Prop :=
  t.Stuck (t.pointer k) ∧ ∀ i < k, ¬ t.Stuck (t.pointer i)

/-- the entries that the first `k` pointers lead to, as a walk yields them -/
def pointed (t : Node σ) (k : Nat) : List (Item σ) := (List.range k).map fun i => t.item (t.pointer i)

/-- the head as a walk yields it, if it is asked for -/
def headItems (t : Node σ) (withStart : Bool) : List (Item σ) :=
  if withStart then [.ok ⟨startName, t.child? startName⟩] else []

theorem not_stuck_iff {p : String} : ¬ t.Stuck p ↔ p ≠ "" ∧ ∃ c, t.child? p = some c := by
  unfold Stuck
  rw [not_or, ← ne_eq, ← ne_eq, Option.ne_none_iff_exists']

theorem trail_pointers (h : ∀ i < k, ¬ t.Stuck (t.pointer i)) :
    Trail t (Entry.start t).next ((List.range k).map t.pointer) (t.pointer k) := by
  induction k with
  | zero => exact .stop _
  | succ k ih =>
    obtain ⟨hp, c, hc⟩ := not_stuck_iff.1 (h k (Nat.lt_succ_self k))
    have hnext : t.pointer (k + 1) = c.successor := successorOf_of_child? hc
    rw [List.range_succ, List.map_append, hnext]
    exact (ih fun i hi => h i (Nat.lt_succ_of_lt hi)).append (.hop hp hc (.stop _))

end Node

/-! ## No false alarm -/

/-- a trail to a dangling pointer meets neither a name twice nor the head -/
theorem Trail.length_lt {ks : List String} {q : String} (h : Trail t (Entry.start t).next ks q)
    (hq : q ≠ "") (hc : t.child? q = none) : ks.length < t.childCount := by
  have hstuck : t.Stuck q := .inr hc
  obtain ⟨s, hs⟩ : ∃ s, t.child? startName = some s := by
    by_contra hn
    have hnone : t.child? startName = none := by
      rw [← Option.not_isSome_iff_eq_none, Option.isSome_iff_exists]
      exact hn
    rw [Entry.next_start_none hnone] at h
    exact hq (Trail.unique h hstuck (.stop "") t.stuck_empty).2
  have hnodup : (startName :: ks).Nodup :=
    List.nodup_cons.2 ⟨h.startName_notMem hstuck, h.nodup hstuck⟩
  have hsub : startName :: ks ⊆ t.children.names := by
    intro k hk
    rcases List.mem_cons.1 hk with rfl | hk
    · exact List.mem_map_of_mem (SortedMap.mem_of_get? hs)
    · obtain ⟨_, c, hc⟩ := h.mem hk
      exact List.mem_map_of_mem (SortedMap.mem_of_get? hc)
  have hle := (List.subperm_of_subset hnodup hsub).length_le
  rw [SortedMap.names, List.length_map] at hle
  exact hle

/-! ## Asking a walk -/

/-- the two ways to ask a walk for its next item -/
inductive Pull where
  | plain
  /-- past the end the answer is an error -/
  | checked
deriving DecidableEq, Repr

namespace Pull

/-- the answer when nothing is left -/
def pastEnd : Pull → Option (Item σ)
  | .plain => none
  | .checked => some (.error .exhausted)

/-- the answers that some requests get while the items last, and after them -/
def answersTo : List Pull → List (Item σ) → List (Option (Item σ))
  | [], _ => []
  | p :: ps, [] => p.pastEnd :: answersTo ps []
  | _ :: ps, x :: xs => some x :: answersTo ps xs

end Pull

namespace Walk

/-- the answer to a request, and the walk after it -/
def pull (w : Walk σ) : Pull → Option (Item σ) × Walk σ
  | .plain => ((w.next?).map Prod.fst, ((w.next?).map Prod.snd).getD w)
  | .checked => (some w.checkedNext.1, w.checkedNext.2)

def answers : Walk σ → List Pull → List (Option (Item σ))
  | _, [] => []
  | w, p :: ps => (w.pull p).1 :: answers (w.pull p).2 ps

/-- the walk after some requests -/
def after (w : Walk σ) (ps : List Pull) : Walk σ := ps.foldl (fun w p => (w.pull p).2) w

theorem pull_of_next?_eq_none {w : Walk σ} (h : w.next? = none) (p : Pull) :
    w.pull p = (p.pastEnd, w) := by
  cases p with
  | plain => simp [pull, h, Pull.pastEnd]
  | checked => simp [pull, checkedNext, h, Pull.pastEnd]

theorem pull_of_next?_eq_some {w w' : Walk σ} {x : Item σ} (h : w.next? = some (x, w'))
    (p : Pull) : w.pull p = (some x, w') := by
  cases p with
  | plain => simp [pull, h]
  | checked => simp [pull, checkedNext, h]

/-- a walk answers with its items, one after the other, and then that nothing is left -/
theorem answers_eq (w : Walk σ) (ps : List Pull) : w.answers ps = Pull.answersTo ps w.items := by
  induction ps generalizing w with
  | nil => rfl
  | cons p ps ih =>
    rw [answers]
    cases h : w.next? with
    | none =>
      rw [pull_of_next?_eq_none h, ih, items_of_next?_eq_none h]
      rfl
    | some y =>
      obtain ⟨x, w'⟩ := y
      rw [pull_of_next?_eq_some h, ih, items_of_next?_eq_some h]
      rfl

theorem items_along (t : Node σ) (withStart : Bool) :
    (along t withStart).items = t.headItems withStart ++ t.chain false := by
  cases withStart with
  | false => rfl
  | true => exact Node.chain_true t

end Walk

/-! ## The three cases -/

namespace Node

theorem chain_of_stopsAt_empty (h : t.StopsAt k) (hk : t.pointer k = "") :
    t.chain false = t.pointed k := by
  have htrail := trail_pointers h.2
  rw [hk] at htrail
  rw [chain_of_linked htrail, List.map_map]
  rfl

theorem chain_of_stopsAt_missing (h : t.StopsAt k) (hk : t.pointer k ≠ "") :
    t.chain false = t.pointed k ++ [.error (.corruption (.missingEntry (t.pointer k)))] := by
  have hc : t.child? (t.pointer k) = none := h.1.resolve_left hk
  have htrail := trail_pointers h.2
  have hlt := htrail.length_lt hk hc
  rw [List.length_map, List.length_range] at hlt
  obtain ⟨m, hm⟩ : ∃ m, t.childCount - k = m + 1 := ⟨t.childCount - k - 1, by omega⟩
  rw [chain_false, Walk.items_trail htrail (by simp; omega), List.length_map, List.length_range, hm,
    Walk.items_after_missing hk hc, List.map_map]
  rfl

theorem chain_of_never_stuck (h : ∀ i, ¬ t.Stuck (t.pointer i)) : t.chain false
      = t.pointed t.childCount
        ++ [.error (.corruption (.tooLong t.childCount (t.pointer t.childCount)))] := by
  have htrail := trail_pointers fun i (_ : i < t.childCount) => h i
  have hend : t.pointer t.childCount ≠ "" := (not_stuck_iff.1 (h _)).1
  rw [chain_false, Walk.items_trail htrail (by simp), List.length_map, List.length_range,
    Nat.sub_self, Walk.items_after_zero t hend, List.map_map]
  rfl

end Node

/-- **A walk yields what the pointers lead to.**  If they come to an empty pointer, the answers are
the entries before it.  If they come to a name without a child, the answers are the entries before
it and one error that names it.  If they never end, the answers are as many entries as there are
children, and one error that says so.  The head comes first if it was asked for.  After that nothing
is left, and at every moment the walk says that it is done exactly when nothing follows. -/
theorem Walk.answers_along (t : Node σ) (withStart : Bool) (ps : List Pull) :
    let w := Walk.along t withStart
    (∀ k, t.StopsAt k → t.pointer k = "" →
      w.answers ps = Pull.answersTo ps (t.headItems withStart ++ t.pointed k)) ∧
    (∀ k, t.StopsAt k → t.pointer k ≠ "" →
      w.answers ps = Pull.answersTo ps (t.headItems withStart ++ t.pointed k
        ++ [.error (.corruption (.missingEntry (t.pointer k)))])) ∧
    ((∀ k, ¬ t.StopsAt k) →
      w.answers ps = Pull.answersTo ps (t.headItems withStart ++ t.pointed t.childCount
        ++ [.error (.corruption (.tooLong t.childCount (t.pointer t.childCount)))])) ∧
    ((w.after ps).isDone = true ↔ (w.after ps).next? = none) := by
  intro w
  refine ⟨?_, ?_, ?_, isDone_iff⟩
  · intro k h hk
    rw [answers_eq, items_along, Node.chain_of_stopsAt_empty h hk]
  · intro k h hk
    rw [answers_eq, items_along, Node.chain_of_stopsAt_missing h hk, List.append_assoc]
  · intro h
    have hnever : ∀ i, ¬ t.Stuck (t.pointer i) := by
      intro i
      induction i using Nat.strong_induction_on with
      | _ i ih => exact fun hi => h i ⟨hi, ih⟩
    rw [answers_eq, items_along, Node.chain_of_never_stuck hnever, List.append_assoc]

end PropertyIndex
