import Mathlib.Data.List.Infix
import PropertyIndex.Index.Query
import PropertyIndex.Proofs.Chain.Trail
import PropertyIndex.Proofs.Node.Addresses

/-!
# What a search gathers

A search visits the entries of an index one after the other.  It takes the paths of their matches in
the order of the walk, each once, until it has as many as it may have.

* `Collector.addAll`      takes some paths, one after the other;
* `Collector.visit_eq`, `Collector.gather_entries`   a visit and a search are that, for the matches
                          of a subtree and of a sequence of entries;
* `Collector.paths_addAll_none`, `Collector.paths_addAll_some`   without a limit every path is taken
                          where it comes first, and a limit cuts that off;
* `Collector.length_paths_addAll_none`   so there are as many as there are different ones;
* `Node.found`            the paths under some keys;
* `Collector.gather_items`   a search of some children takes the paths below them;
* `Index.query_keys`, `Index.query_entries`   a query finds these, under given keys or under the
                          entries of the index;
* `Index.count_keys`, `Index.count_entries`   and a count is their number, cut at the limit.
-/

namespace PropertyIndex

variable {σ : Type}

namespace Collector

variable {c : Collector} {ps qs : List String}

/-! ## Taking paths one after the other -/

/-- takes some paths, until the limit is reached -/
def addAll (c : Collector) : List String → Collector
  | [] => c
  | p :: ps => if c.isFull then c else (c.add p).addAll ps

theorem addAll_nil (c : Collector) : c.addAll [] = c := rfl

theorem addAll_of_full (h : c.isFull = true) (ps : List String) : c.addAll ps = c := by
  cases ps with
  | nil => rfl
  | cons p ps => rw [addAll, if_pos h]

theorem addAll_cons (h : c.isFull = false) (p : String) (ps : List String) :
    c.addAll (p :: ps) = (c.add p).addAll ps := by
  rw [addAll, h]
  rfl

theorem addAll_append (c : Collector) (ps qs : List String) :
    c.addAll (ps ++ qs) = (c.addAll ps).addAll qs := by
  induction ps generalizing c with
  | nil => rfl
  | cons p ps ih =>
    cases h : c.isFull with
    | true => rw [addAll_of_full h, addAll_of_full h, addAll_of_full h]
    | false => rw [List.cons_append, addAll_cons h, addAll_cons h, ih]

theorem mem_paths_add {p x : String} : x ∈ (c.add p).paths ↔ x = p ∨ x ∈ c.paths := by
  unfold add
  split
  · next hp =>
    refine ⟨.inr, ?_⟩
    rintro (rfl | hx)
    · exact hp
    · exact hx
  · simp [or_comm]

theorem nodup_paths_add (h : c.paths.Nodup) (p : String) : (c.add p).paths.Nodup := by
  unfold add
  split
  · exact h
  · next hp =>
    refine List.nodup_append.2 ⟨h, List.nodup_singleton p, ?_⟩
    rintro x hx y hy rfl
    exact hp (List.mem_singleton.1 hy ▸ hx)

theorem limit_add (c : Collector) (p : String) : (c.add p).limit = c.limit := by
  unfold add
  split <;> rfl

theorem limit_addAll (c : Collector) (ps : List String) : (c.addAll ps).limit = c.limit := by
  induction ps generalizing c with
  | nil => rfl
  | cons p ps ih =>
    rw [addAll]
    split
    · rfl
    · rw [ih, limit_add]

theorem isFull_of_limit_none (h : c.limit = none) : c.isFull = false := by
  unfold isFull
  rw [h]

/-- without a limit every path is taken -/
theorem mem_paths_addAll (h : c.limit = none) {x : String} :
    x ∈ (c.addAll ps).paths ↔ x ∈ c.paths ∨ x ∈ ps := by
  induction ps generalizing c with
  | nil => simp [addAll_nil]
  | cons p ps ih =>
    rw [addAll_cons (isFull_of_limit_none h), ih ((limit_add c p).trans h), mem_paths_add,
      List.mem_cons]
    tauto

/-- no path is taken twice -/
theorem nodup_paths_addAll (h : c.paths.Nodup) (ps : List String) :
    (c.addAll ps).paths.Nodup := by
  induction ps generalizing c with
  | nil => exact h
  | cons p ps ih =>
    rw [addAll]
    split
    · exact h
    · exact ih (nodup_paths_add h p)

theorem prefix_paths_add (c : Collector) (p : String) : c.paths <+: (c.add p).paths := by
  unfold add
  split
  · exact List.prefix_rfl
  · exact List.prefix_append _ _

theorem prefix_paths_addAll (c : Collector) (ps : List String) :
    c.paths <+: (c.addAll ps).paths := by
  induction ps generalizing c with
  | nil => exact List.prefix_rfl
  | cons p ps ih =>
    rw [addAll]
    split
    · exact List.prefix_rfl
    · exact (prefix_paths_add c p).trans (ih _)

/-- without a limit the paths that are not there yet are taken, each where it comes first -/
theorem paths_addAll_none (acc ps : List String) : ((⟨none, acc⟩ : Collector).addAll ps).paths
    = acc ++ (ps.filter (· ∉ acc)).eraseDups := by
  induction ps generalizing acc with
  | nil => exact (List.append_nil acc).symm
  | cons p ps ih =>
    rw [addAll_cons (isFull_of_limit_none rfl)]
    by_cases hp : p ∈ acc
    · have hadd : (⟨none, acc⟩ : Collector).add p = ⟨none, acc⟩ := if_pos hp
      rw [hadd, ih, List.filter_cons_of_neg (by simpa using hp)]
    · have hadd : (⟨none, acc⟩ : Collector).add p = ⟨none, acc ++ [p]⟩ := if_neg hp
      have hfilter : (ps.filter (· ∉ acc)).filter (fun q => !q == p)
          = ps.filter (· ∉ acc ++ [p]) := by
        rw [List.filter_filter]
        apply List.filter_congr
        intro q _
        by_cases hq : q = p <;> simp [hq]
      rw [hadd, ih, List.filter_cons_of_pos (by simpa using hp), List.eraseDups_cons, hfilter,
        List.append_assoc, List.singleton_append]

/-- a limit cuts off what is gathered without one -/
theorem paths_addAll_some (max : Nat) (acc ps : List String) :
    ((⟨some max, acc.take max⟩ : Collector).addAll ps).paths
      = ((⟨none, acc⟩ : Collector).addAll ps).paths.take max := by
  induction ps generalizing acc with
  | nil => rfl
  | cons p ps ih =>
    by_cases hfull : max ≤ acc.length
    · have hf : (⟨some max, acc.take max⟩ : Collector).isFull = true := by
        simp [isFull, hfull]
      obtain ⟨rest, hrest⟩ := prefix_paths_addAll ⟨none, acc⟩ (p :: ps)
      rw [addAll_of_full hf, ← hrest, List.take_append_of_le_length hfull]
    · have htake : acc.take max = acc := List.take_of_length_le (by omega)
      have hf : (⟨some max, acc⟩ : Collector).isFull = false := by
        simp [isFull, hfull]
      rw [htake, addAll_cons hf, addAll_cons (isFull_of_limit_none rfl)]
      by_cases hp : p ∈ acc
      · have hadd : ∀ l, (⟨l, acc⟩ : Collector).add p = ⟨l, acc⟩ := fun l => if_pos hp
        rw [hadd, hadd, ← ih acc, htake]
      · have hadd : ∀ l, (⟨l, acc⟩ : Collector).add p = ⟨l, acc ++ [p]⟩ := fun l => if_neg hp
        have htake' : (acc ++ [p]).take max = acc ++ [p] := by
          apply List.take_of_length_le
          rw [List.length_append, List.length_singleton]
          omega
        rw [hadd, hadd, ← ih (acc ++ [p]), htake']

theorem length_paths_addAll_some (max : Nat) (ps : List String) :
    ((new (some max)).addAll ps).paths.length = min max ((new none).addAll ps).paths.length := by
  have h := paths_addAll_some max [] ps
  rw [List.take_nil] at h
  unfold new
  rw [h, List.length_take]

/-- without a limit as many paths are taken as there are different ones -/
theorem length_paths_addAll_none (ps : List String) :
    ((new none).addAll ps).paths.length = ps.toFinset.card := by
  have hnodup : ((new none).addAll ps).paths.Nodup := nodup_paths_addAll List.nodup_nil ps
  have hmem : ((new none).addAll ps).paths.toFinset = ps.toFinset := by
    ext x
    rw [List.mem_toFinset, mem_paths_addAll rfl, List.mem_toFinset]
    simp [new]
  rw [← List.toFinset_card_of_nodup hnodup, hmem]

/-! ## Visits and searches -/

open Node

mutual

/-- a visit takes the paths of the matches in a subtree, parents before children -/
theorem visit_eq (c : Collector) (address : List String) : ∀ n : Node σ, c.visit address n
    = ((c.addAll (n.matchAddresses.map fun a => Path.render (address ++ a))).isFull,
        c.addAll (n.matchAddresses.map fun a => Path.render (address ++ a)))
  | ⟨m, ps, cs⟩ => by
    rw [visit]
    cases hc : c.isFull with
    | true => simp only [if_true, addAll_of_full hc, hc]
    | false =>
      rw [matchAddresses, List.map_append, addAll_append]
      have hown : c.addAll ((if matched ⟨m, ps, cs⟩ then [[]] else []).map fun a =>
          Path.render (address ++ a))
            = if matched ⟨m, ps, cs⟩ then c.add (Path.render address) else c := by
        split
        · rw [List.map_singleton, List.append_nil, addAll_cons hc, addAll_nil]
        · rfl
      rw [hown]
      cases hc' : (if matched ⟨m, ps, cs⟩ then c.add (Path.render address) else c).isFull with
      | true => simp only [hc', if_true, Bool.false_eq_true, if_false, addAll_of_full hc']
      | false =>
        simp only [hc', Bool.false_eq_true, if_false]
        exact visitAll_eq _ hc' address cs

theorem visitAll_eq (c : Collector) (hc : c.isFull = false) (address : List String) :
    ∀ cs : List (String × Node σ), c.visitAll address cs
      = ((c.addAll ((matchAddressesAll cs).map fun a => Path.render (address ++ a))).isFull,
          c.addAll ((matchAddressesAll cs).map fun a => Path.render (address ++ a)))
  | [] => by
    rw [visitAll, matchAddressesAll, List.map_nil, addAll_nil, hc]
  | (k, n) :: r => by
    have hmap : (n.matchAddresses.map (k :: ·)).map (fun a => Path.render (address ++ a))
        = n.matchAddresses.map fun a => Path.render ((address ++ [k]) ++ a) := by
      rw [List.map_map]
      apply List.map_congr_left
      intro a _
      rw [Function.comp_apply, List.append_assoc]
      rfl
    rw [visitAll, visit_eq c (address ++ [k]) n, matchAddressesAll, List.map_append, hmap,
      addAll_append]
    generalize c.addAll (n.matchAddresses.map fun a => Path.render ((address ++ [k]) ++ a)) = c'
    cases hc' : c'.isFull with
    | true => simp only [addAll_of_full hc', hc']
    | false =>
      dsimp only
      exact visitAll_eq c' hc' address r

end

end Collector

/-- the paths of the matches below an entry -/
def Entry.paths (x : Entry σ) : List String :=
  ((x.node.map Node.matchAddresses).getD []).map Path.render

namespace Collector

theorem gather_ok (c : Collector) (x : Entry σ) (r : List (Item σ)) :
    c.gather (.ok x :: r) = if x.node.isSome ∧ (c.addAll x.paths).isFull then .ok (c.addAll x.paths)
      else (c.addAll x.paths).gather r := by
  obtain ⟨name, node⟩ := x
  cases node with
  | none => rfl
  | some n =>
    rw [gather]
    dsimp only
    rw [visit_eq]
    simp only [List.nil_append, Option.isSome_some, true_and]
    show _ = if ((c.addAll (n.matchAddresses.map Path.render)).isFull : Prop)
      then .ok (c.addAll (n.matchAddresses.map Path.render))
      else (c.addAll (n.matchAddresses.map Path.render)).gather r
    cases (c.addAll (n.matchAddresses.map Path.render)).isFull <;> rfl

/-- a search without errors takes the paths of all entries, one entry after the other -/
theorem gather_entries (c : Collector) (xs : List (Entry σ)) :
    c.gather (xs.map .ok) = .ok (c.addAll (xs.flatMap Entry.paths)) := by
  induction xs generalizing c with
  | nil => rfl
  | cons x xs ih =>
    rw [List.map_cons, gather_ok, List.flatMap_cons, addAll_append]
    split
    · next h => rw [addAll_of_full h.2 (xs.flatMap Entry.paths)]
    · exact ih _

end Collector

/-! ## The paths under some keys -/

namespace Node

variable {t : Node σ} {keys : List String}

/-- the paths under a key, parents before children -/
def pathsBelow (t : Node σ) (key : String) : List String := Entry.paths ⟨key, t.child? key⟩

/-- the paths under some keys, each once and not more than a limit -/
def found (t : Node σ) (limit : Option Nat) (keys : List String) : List String :=
  ((Collector.new limit).addAll (keys.flatMap t.pathsBelow)).paths

theorem mem_pathsBelow (h : t.Sorted) {key x : String} :
    x ∈ t.pathsBelow key ↔ ∃ a, t.HasMatch (key :: a) ∧ x = Path.render a := by
  unfold pathsBelow Entry.paths
  simp only [hasMatch_cons]
  cases hc : t.child? key with
  | none => simp
  | some c => simp [mem_matchAddresses (h.child? hc), eq_comm]

theorem mem_found {x : String} : x ∈ t.found none keys ↔ ∃ k ∈ keys, x ∈ t.pathsBelow k := by
  unfold found
  rw [Collector.mem_paths_addAll rfl, List.mem_flatMap]
  simp [Collector.new]

/-- the paths under some keys, each where it comes first -/
theorem found_none (t : Node σ) (keys : List String) :
    t.found none keys = (keys.flatMap t.pathsBelow).eraseDups := by
  have h := Collector.paths_addAll_none [] (keys.flatMap t.pathsBelow)
  rw [List.nil_append, List.filter_eq_self.2 (by simp)] at h
  exact h

theorem nodup_found (t : Node σ) (limit : Option Nat) (keys : List String) :
    (t.found limit keys).Nodup := Collector.nodup_paths_addAll List.nodup_nil _

theorem length_found_some (t : Node σ) (max : Nat) (keys : List String) :
    (t.found (some max) keys).length = min max (t.found none keys).length :=
  Collector.length_paths_addAll_some max (keys.flatMap t.pathsBelow)

end Node

/-- a search along some keys takes the paths under them -/
theorem Collector.gather_items (c : Collector) (t : Node σ) (keys : List String) :
    c.gather (keys.map t.item) = .ok (c.addAll (keys.flatMap t.pathsBelow)) := by
  have hmap : keys.map t.item = (keys.map fun k => (⟨k, t.child? k⟩ : Entry σ)).map .ok := by
    rw [List.map_map]
    rfl
  rw [hmap, gather_entries, List.flatMap_map]
  rfl

namespace Index

variable (i : Index σ) (t : Node σ)

theorem selection_keys (keys : List String) : i.selection t (some keys)
    = (keys.filterMap fun key => (t.child? key).map fun n => (⟨key, some n⟩ : Entry σ)).map .ok := by
  unfold selection
  rw [List.map_filterMap]
  apply List.filterMap_congr
  intro key _
  cases t.child? key <;> rfl

theorem paths_of_selection (keys : List String) :
    (keys.filterMap fun key => (t.child? key).map fun n => (⟨key, some n⟩ : Entry σ)).flatMap
      Entry.paths = keys.flatMap t.pathsBelow := by
  induction keys with
  | nil => rfl
  | cons k ks ih =>
    have hk : t.pathsBelow k = Entry.paths ⟨k, t.child? k⟩ := rfl
    rw [List.flatMap_cons, ← ih, hk]
    cases hc : t.child? k with
    | none =>
      rw [List.filterMap_cons_none (by rw [hc]; rfl)]
      rfl
    | some c =>
      rw [List.filterMap_cons_some (by rw [hc]; rfl)]
      rfl

theorem gather_selection_keys (c : Collector) (keys : List String) :
    c.gather (i.selection t (some keys)) = .ok (c.addAll (keys.flatMap t.pathsBelow)) := by
  rw [selection_keys, Collector.gather_entries, paths_of_selection]

/-- a query for keys finds the paths under them -/
theorem query_keys (keys : List String) : i.query t (some keys) = .ok (t.found none keys) := by
  unfold query
  rw [gather_selection_keys]
  rfl

theorem count_keys (keys : List String) (max : Nat) :
    i.count t (some keys) max = .ok (min max (t.found none keys).length) := by
  unfold count
  rw [gather_selection_keys, ← Node.length_found_some]
  rfl

variable {i t}

theorem gather_selection_none {keys : List String} (h : i.entries t = keys.map t.item)
    (c : Collector) :
    c.gather (i.selection t none) = .ok (c.addAll (keys.flatMap t.pathsBelow)) := by
  unfold selection
  rw [h, Collector.gather_items]

/-- a query for everything finds the paths under the entries -/
theorem query_entries {keys : List String} (h : i.entries t = keys.map t.item) :
    i.query t none = .ok (t.found none keys) := by
  unfold query
  rw [gather_selection_none h]
  rfl

theorem count_entries {keys : List String} (h : i.entries t = keys.map t.item) (max : Nat) :
    i.count t none max = .ok (min max (t.found none keys).length) := by
  unfold count
  rw [gather_selection_none h, ← Node.length_found_some]
  rfl

end Index

end PropertyIndex
