import PropertyIndex.Proofs.Chain.Places
import PropertyIndex.Proofs.Match.Gathered

/-!
# Counting up to a limit, in any tree

A count stops as soon as it has as many paths as it may have.  So it may pass over a broken chain
that a query runs into.

* `Index.Selected`          the entries to search are whole, or there is an error behind them;
* `Index.selection_cases`   this is so in every tree, and given keys are whole always;
* `Collector.gather_broken` a search up to a limit passes over an error behind its entries only if
                            the limit is reached before;
* `Index.count_query`       a count is the number of paths of the query, cut at the limit; without
                            such paths it is the limit or fails as the query does.
-/

namespace PropertyIndex

variable {σ : Type} {e : Error} {xs : List (Entry σ)}

open Node

/-! ## The entries to search -/

/-- some entries, all of them with their nodes, and perhaps an error behind them -/
inductive Index.Selected : List (Item σ) → List (Entry σ) → Option Error → Prop where
  | whole {xs : List (Entry σ)} (nodes : ∀ x ∈ xs, x.node.isSome) : Selected (xs.map .ok) xs none
  | broken {xs : List (Entry σ)} (nodes : ∀ x ∈ xs, x.node.isSome) (e : Error) :
    Selected (xs.map .ok ++ [.error e]) xs (some e)

/-- a walk yields children, and an error behind them if it breaks off -/
theorem Node.chain_selected (t : Node σ) : ∃ xs end?, Index.Selected (t.chain false) xs end? := by
  obtain ⟨ks, rest, hks, hchain, hrest⟩ := t.chain_eq_append
  have hmap : ks.map t.item = (ks.map fun k => (⟨k, t.child? k⟩ : Entry σ)).map .ok := by
    rw [List.map_map]
    rfl
  have hnodes : ∀ x ∈ ks.map fun k => (⟨k, t.child? k⟩ : Entry σ), x.node.isSome := by
    intro x hx
    obtain ⟨k, hk, rfl⟩ := List.mem_map.1 hx
    exact hks k hk
  rw [hchain, hmap]
  rcases hrest with rfl | ⟨e, rfl⟩
  · rw [List.append_nil]
    exact ⟨_, _, .whole hnodes⟩
  · exact ⟨_, _, .broken hnodes e⟩

namespace Index

theorem selection_cases (i : Index σ) (t : Node σ) (keys : Option (List String)) :
    ∃ xs end?, Selected (i.selection t keys) xs end? ∧ (end? ≠ none → keys = none) := by
  cases keys with
  | some ks =>
    rw [selection_keys]
    refine ⟨_, none, .whole ?_, fun h => absurd rfl h⟩
    intro x hx
    obtain ⟨k, _, hk⟩ := List.mem_filterMap.1 hx
    obtain ⟨c, _, rfl⟩ := Option.map_eq_some_iff.1 hk
    rfl
  | none =>
    cases i with
    | unordered =>
      have hsel : Index.unordered.selection t none
          = (t.children.map fun p => (⟨p.1, some p.2⟩ : Entry σ)).map .ok := by
        rw [List.map_map]
        rfl
      rw [hsel]
      refine ⟨_, none, .whole ?_, fun _ => rfl⟩
      intro x hx
      obtain ⟨p, _, rfl⟩ := List.mem_map.1 hx
      rfl
    | ordered o =>
      obtain ⟨xs, end?, h⟩ := t.chain_selected
      exact ⟨xs, end?, h, fun _ => rfl⟩

end Index

/-! ## Searching them -/

namespace Collector

/-- an error behind the entries is passed over if there is an entry and the limit is reached -/
theorem gather_broken (c : Collector) (hx : ∀ x ∈ xs, x.node.isSome) (e : Error) :
    c.gather (xs.map .ok ++ [.error e])
      = if xs ≠ [] ∧ (c.addAll (xs.flatMap Entry.paths)).isFull = true
        then .ok (c.addAll (xs.flatMap Entry.paths)) else .error e := by
  induction xs generalizing c with
  | nil => rfl
  | cons x xs ih =>
    have hnode : x.node.isSome := hx x List.mem_cons_self
    have hrest := ih (c.addAll x.paths) fun y hy => hx y (List.mem_cons_of_mem x hy)
    rw [List.map_cons, List.cons_append, gather_ok, hrest, List.flatMap_cons, addAll_append]
    cases hfull : (c.addAll x.paths).isFull with
    | true =>
      -- nothing is taken after the first entry
      rw [addAll_of_full hfull, hfull, if_pos ⟨hnode, rfl⟩, if_pos ⟨List.cons_ne_nil x xs, rfl⟩]
    | false =>
      rw [if_neg fun h => Bool.false_ne_true h.2]
      cases xs with
      | nil => rw [List.flatMap_nil, addAll_nil, hfull, if_neg (by simp), if_neg (by simp)]
      | cons y ys => simp only [ne_eq, reduceCtorEq, not_false_eq_true, true_and]

/-- the limit is reached if there are as many different paths -/
theorem isFull_addAll_some {max : Nat} {ps : List String} :
    ((new (some max)).addAll ps).isFull = true ↔ max ≤ ps.toFinset.card := by
  unfold isFull
  rw [limit_addAll]
  show decide (max ≤ _) = true ↔ _
  rw [decide_eq_true_eq, length_paths_addAll_some, length_paths_addAll_none]
  omega

/-- a search without a limit runs into the error -/
theorem gather_broken_none (hx : ∀ x ∈ xs, x.node.isSome) (e : Error) :
    (new none).gather (xs.map .ok ++ [.error e]) = .error e := by
  have hfull : ((new none).addAll (xs.flatMap Entry.paths)).isFull = false :=
    isFull_of_limit_none (limit_addAll _ _)
  rw [gather_broken _ hx, if_neg]
  rw [hfull]
  exact fun h => Bool.false_ne_true h.2

/-- a count passes over the error if there are an entry and paths up to the limit -/
theorem length_gather_broken_some (hx : ∀ x ∈ xs, x.node.isSome) (e : Error) (max : Nat) :
    ((new (some max)).gather (xs.map .ok ++ [.error e])).map (fun c => c.paths.length)
      = if xs ≠ [] ∧ max ≤ (xs.flatMap Entry.paths).toFinset.card then .ok max else .error e := by
  rw [gather_broken _ hx]
  simp only [isFull_addAll_some]
  split
  · next hmax =>
    show Except.ok ((new (some max)).addAll (xs.flatMap Entry.paths)).paths.length = _
    rw [length_paths_addAll_some, length_paths_addAll_none, Nat.min_eq_left hmax.2]
  · rfl

end Collector

/-! ## Counts and queries -/

/-- **A count is the number of paths that the query finds, cut at the limit**, in every tree.  A
query fails only if it is for everything and the chain breaks off; then the count is the limit if
there are entries before the error and as many different paths below them, and otherwise it fails
with the same error. -/
theorem Index.count_query (i : Index σ) (t : Node σ) (keys : Option (List String)) (max : Nat) :
    (∀ paths, i.query t keys = .ok paths → i.count t keys max = .ok (min max paths.length)) ∧
      ∀ e, i.query t keys = .error e → keys = none ∧ ∃ xs : List (Entry σ),
        i.entries t = xs.map .ok ++ [.error e] ∧ i.count t keys max =
          if xs ≠ [] ∧ max ≤ (xs.flatMap Entry.paths).toFinset.card then .ok max
          else .error e := by
  obtain ⟨xs, end?, h, hkeys⟩ := i.selection_cases t keys
  unfold query count
  generalize hsel : i.selection t keys = s at h
  cases h with
  | whole nodes =>
    rw [Collector.gather_entries, Collector.gather_entries]
    constructor
    · intro paths hp
      have hpaths : ((Collector.new none).addAll (xs.flatMap Entry.paths)).paths = paths :=
        Except.ok.inj hp
      show Except.ok ((Collector.new (some max)).addAll (xs.flatMap Entry.paths)).paths.length = _
      rw [← hpaths, Collector.length_paths_addAll_some]
    · intro e he
      cases he
  | broken nodes e =>
    have hnone : keys = none := hkeys (Option.some_ne_none e)
    rw [Collector.gather_broken_none nodes]
    constructor
    · intro paths hp
      cases hp
    · intro e' he
      obtain rfl : e = e' := Except.error.inj he
      rw [hnone] at hsel
      exact ⟨hnone, xs, hsel, Collector.length_gather_broken_some nodes e max⟩

example :
    let t : Node Unit := ⟨(), [], [(startName, ⟨(), [(nextName, .text "a")], []⟩),
      ("a", ⟨(), [(nextName, .text "b"), (matchName, .flag true)], []⟩)]⟩
    let i : Index Unit := .ordered ⟨.ascending, 100, Lookup.scan⟩
    i.count t none 1 = .ok 1 ∧ i.count t none 2 = .error (.corruption (.missingEntry "b")) := by
  decide +kernel

end PropertyIndex
