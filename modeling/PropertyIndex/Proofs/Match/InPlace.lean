import Mathlib.Data.Finset.Insert
import PropertyIndex.Proofs.Match.Gathered

/-!
# Visits in place

A visit can work with one list of names, which is extended on the way down and cut back on the way
up, and with a set of the paths taken, which is faster to ask than their list.  Nothing else comes of
it: the set always has the members of the list, and the names are again what they were, wherever the
visit ends.

* `Gatherer.visit`          a visit in place;
* `Gatherer.visit_ofCollector`   it takes what `Collector.visit` takes, and gives the names back;
* `Collector.paths_addAll`  what is taken, exactly: what is new, each path where it comes first, and
                            no more than there is room for;
* `Gatherer.visit_exact`    so this holds of a visit in place, after any others.
-/

namespace PropertyIndex

variable {σ : Type}

/-- a collector that also keeps the paths that it has taken in a set -/
structure Gatherer where
  limit : Option Nat
  paths : List String
  seen : Finset String

namespace Gatherer

def new (limit : Option Nat) : Gatherer := ⟨limit, [], ∅⟩

def isFull (g : Gatherer) : Bool :=
  match g.limit with
  | none => false
  | some max => decide (max ≤ g.paths.length)

/-- takes a path that is new, and says whether it is -/
def offer (g : Gatherer) (path : String) : Bool × Gatherer :=
  if path ∈ g.seen then (false, g) else (true, ⟨g.limit, g.paths ++ [path], insert path g.seen⟩)

mutual

/-- visits a subtree, with the names on the way to its root; says whether the limit is reached, and
gives the names back -/
def visit (g : Gatherer) (names : List String) : Node σ → Bool × Gatherer × List String
  | ⟨m, ps, cs⟩ =>
    if g.isFull then (true, g, names)
    else if Node.matched ⟨m, ps, cs⟩ then
      let (fresh, g) := g.offer (Path.render names)
      if fresh && g.isFull then (true, g, names) else visitAll g names cs
    else visitAll g names cs

def visitAll (g : Gatherer) (names : List String) :
    List (String × Node σ) → Bool × Gatherer × List String
  | [] => (false, g, names)
  | (name, n) :: r =>
    let (full, g, names) := visit g (names ++ [name]) n
    if full then (true, g, names.dropLast) else visitAll g names.dropLast r

end

/-- some visits one after the other, each with names of its own -/
def visits (g : Gatherer) (vs : List (List String × Node σ)) : Gatherer :=
  vs.foldl (fun g v => (g.visit v.1 v.2).2.1) g

/-! ## The list and the set -/

/-- the set that belongs to the paths of a collector -/
def ofCollector (c : Collector) : Gatherer := ⟨c.limit, c.paths, c.paths.toFinset⟩

theorem isFull_ofCollector (c : Collector) : (ofCollector c).isFull = c.isFull := rfl

theorem offer_ofCollector (c : Collector) (path : String) :
    (ofCollector c).offer path = (decide (path ∉ c.paths), ofCollector (c.add path)) := by
  have hseen : path ∈ (ofCollector c).seen ↔ path ∈ c.paths := List.mem_toFinset
  unfold offer Collector.add
  by_cases h : path ∈ c.paths
  · rw [if_pos (hseen.2 h), if_pos h, decide_eq_false (not_not_intro h)]
  · have hset : insert path c.paths.toFinset = (c.paths ++ [path]).toFinset := by
      ext x
      simp
    rw [if_neg (mt hseen.1 h), if_neg h, decide_eq_true h]
    show (true, (⟨_, _, insert path c.paths.toFinset⟩ : Gatherer)) = _
    rw [hset]
    rfl

mutual

/-- a visit in place takes what the collector takes, and gives the names back -/
theorem visit_ofCollector (c : Collector) (names : List String) : ∀ n : Node σ,
    (ofCollector c).visit names n
      = ((c.visit names n).1, ofCollector (c.visit names n).2, names)
  | ⟨m, ps, cs⟩ => by
    rw [visit, Collector.visit, isFull_ofCollector, offer_ofCollector]
    cases hc : c.isFull with
    | true => rfl
    | false =>
      cases hm : Node.matched ⟨m, ps, cs⟩ with
      | false =>
        simp only [Bool.false_eq_true, if_false, hc]
        exact visitAll_ofCollector c names cs
      | true =>
        -- a path that is there already does not fill the collector
        have hfresh : (decide (Path.render names ∉ c.paths)
            && (ofCollector (c.add (Path.render names))).isFull)
            = (c.add (Path.render names)).isFull := by
          by_cases h : Path.render names ∈ c.paths
          · have hadd : c.add (Path.render names) = c := if_pos h
            rw [isFull_ofCollector, hadd, hc, Bool.and_false]
          · rw [decide_eq_true h, Bool.true_and, isFull_ofCollector]
        simp only [Bool.false_eq_true, if_false, if_true, hfresh]
        cases hc' : (c.add (Path.render names)).isFull with
        | true => rfl
        | false => exact visitAll_ofCollector (c.add (Path.render names)) names cs

theorem visitAll_ofCollector (c : Collector) (names : List String) :
    ∀ cs : List (String × Node σ), (ofCollector c).visitAll names cs
      = ((c.visitAll names cs).1, ofCollector (c.visitAll names cs).2, names)
  | [] => rfl
  | (name, n) :: r => by
    rw [visitAll, Collector.visitAll, visit_ofCollector c (names ++ [name]) n]
    -- the name is taken off again, whether the visit of the child is the last or not
    simp only [List.dropLast_concat]
    cases c.visit (names ++ [name]) n with
    | mk full c' =>
      cases full with
      | true => rfl
      | false => exact visitAll_ofCollector c' names r

end

end Gatherer

namespace Collector

/-! ## What a visit takes -/

/-- as many of some paths as there is room for, when some have been taken -/
def upTo (limit : Option Nat) (taken : Nat) (ps : List String) : List String :=
  match limit with
  | none => ps
  | some max => ps.take (max - taken)

/-- what is new is taken, each path where it comes first, and no more than there is room for -/
theorem paths_addAll (c : Collector) (ps : List String) : (c.addAll ps).paths
    = c.paths ++ upTo c.limit c.paths.length (ps.filter (· ∉ c.paths)).eraseDups := by
  obtain ⟨limit, acc⟩ := c
  cases limit with
  | none => exact paths_addAll_none acc ps
  | some max =>
    dsimp only [upTo]
    by_cases hfull : max ≤ acc.length
    · have hf : (⟨some max, acc⟩ : Collector).isFull = true := by simp [isFull, hfull]
      rw [addAll_of_full hf, Nat.sub_eq_zero_of_le hfull, List.take_zero, List.append_nil]
    · have htake : acc.take max = acc := List.take_of_length_le (by omega)
      have h := paths_addAll_some max acc ps
      rw [htake, paths_addAll_none, List.take_append, htake] at h
      exact h

/-- some visits one after the other, each to a subtree whose root has an address of its own -/
def visits (c : Collector) (vs : List (List String × Node σ)) : Collector :=
  vs.foldl (fun c v => (c.visit v.1 v.2).2) c

theorem limit_visits (c : Collector) (vs : List (List String × Node σ)) :
    (c.visits vs).limit = c.limit := by
  induction vs generalizing c with
  | nil => rfl
  | cons v vs ih =>
    have hv : (c.visit v.1 v.2).2.limit = c.limit := by rw [visit_eq, limit_addAll]
    exact (ih _).trans hv

end Collector

namespace Gatherer

open Node

theorem visits_ofCollector (c : Collector) (vs : List (List String × Node σ)) :
    (ofCollector c).visits vs = ofCollector (c.visits vs) := by
  induction vs generalizing c with
  | nil => rfl
  | cons v vs ih =>
    have hv : ((ofCollector c).visit v.1 v.2).2.1 = ofCollector (c.visit v.1 v.2).2 := by
      rw [visit_ofCollector]
    show (((ofCollector c).visit v.1 v.2).2.1).visits vs = _
    rw [hv]
    exact ih _

/-- **What a visit takes, exactly**, after any other visits.  The matches of the subtree, in the
order of their addresses, a prefix before its extensions, have paths that begin with the names of the
root.  Of these the visit takes those that were not taken before, each where it comes first, and no
more than there is room for.  It says that the limit is reached just if this is so, it gives the
names back as they were, and `Collector.visit` takes the same. -/
theorem visit_exact (limit : Option Nat) (earlier : List (List String × Node σ))
    (names : List String) {n : Node σ} (h : n.Sorted) :
    let g := (new limit).visits earlier
    let D := n.matchAddresses.map fun a => Path.render (names ++ a)
    let out := g.visit names n
    (n.matchAddresses.Pairwise (· < ·) ∧ ∀ a, a ∈ n.matchAddresses ↔ n.HasMatch a) ∧
      out.2.1.paths = g.paths
        ++ Collector.upTo limit g.paths.length (D.filter (· ∉ g.paths)).eraseDups ∧
      out.2.1.limit = limit ∧ (out.1 = true ↔ out.2.1.isFull = true) ∧
      out.2.2 = names ∧
      ((Collector.new limit).visits earlier).visit names n = (out.1, ⟨limit, out.2.1.paths⟩) := by
  intro g D out
  have hg : g = ofCollector ((Collector.new limit).visits earlier) :=
    visits_ofCollector (Collector.new limit) earlier
  have hlimit : ((Collector.new limit).visits earlier).limit = limit :=
    Collector.limit_visits (Collector.new limit) earlier
  generalize (Collector.new limit).visits earlier = c at hg hlimit
  have hvisit : c.visit names n = ((c.addAll D).isFull, c.addAll D) := Collector.visit_eq c names n
  have hout : out = ((c.addAll D).isFull, ofCollector (c.addAll D), names) := by
    show g.visit names n = _
    rw [hg, visit_ofCollector, hvisit]
  have hlim : (c.addAll D).limit = limit := (Collector.limit_addAll c D).trans hlimit
  rw [hout, hg, hvisit]
  refine ⟨⟨pairwise_matchAddresses h, fun a => mem_matchAddresses h⟩, ?_, hlim, Iff.rfl, rfl, ?_⟩
  · have hpaths := Collector.paths_addAll c D
    rw [hlimit] at hpaths
    exact hpaths
  · rw [← hlim]
    rfl

/-- a subtree of which a part is visited first -/
def nested : Node Unit :=
  ⟨(), [("match", .flag true)],
    [("a", ⟨(), [("match", .flag true)], [("b", ⟨(), [("match", .flag true)], []⟩)]⟩),
      ("c", ⟨(), [], [("d", ⟨(), [("match", .flag true)], []⟩)]⟩),
      ("e", ⟨(), [("match", .flag true)], []⟩)]⟩

theorem visit_exact_nested :
    let earlier := (nested.child? "a").toList.map fun c => (["x", "a"], c)
    let out := ((new (some 4)).visits earlier).visit ["x"] nested
    nested.Sorted ∧ ((new (some 4)).visits earlier).paths = ["/x/a", "/x/a/b"] ∧
      out.2.1.paths = ["/x/a", "/x/a/b", "/x", "/x/c/d"] ∧ out.1 = true ∧ out.2.2 = ["x"] ∧
      ((Collector.new (some 4)).visits earlier).visit ["x"] nested
        = (true, ⟨some 4, ["/x/a", "/x/a/b", "/x", "/x/c/d"]⟩) := by
  intro earlier out
  have h : nested.Sorted := by decide
  obtain ⟨-, hpaths, hlimit, hfull, hnames, hsame⟩ := visit_exact (some 4) earlier ["x"] h
  have hpaths : out.2.1.paths = ["/x/a", "/x/a/b", "/x", "/x/c/d"] := hpaths.trans (by decide)
  have hout : out.1 = true := hfull.2 (by unfold isFull; rw [hlimit, hpaths]; rfl)
  refine ⟨h, by decide, hpaths, hout, hnames, ?_⟩
  rw [hsame, ← hpaths, ← hout]

end Gatherer

end PropertyIndex
