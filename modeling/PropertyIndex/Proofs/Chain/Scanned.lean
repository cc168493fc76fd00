import PropertyIndex.Chain.Lookup
import PropertyIndex.Proofs.Chain.Trail
import PropertyIndex.Proofs.Node.Tidy

/-!
# What a scan of the chain reads

A scan reads pointers, and how many children there are, but nothing else below the index.  So a
change further down, or to the marks, does not change what a scan answers.

* `Node.SamePointers`       the same children, with the same pointers;
* `SamePointers.names_chain`   the walks along both trees meet the same names;
* `SamePointers.scan`       the scans of both give the same answer;
* `Node.samePointers_of_forget`   trees that differ in their marks only are such trees.
-/

namespace PropertyIndex

variable {σ : Type}

/-- the name that an item of a walk says it is, or the error that it is -/
def Item.name (x : Item σ) : Except Error String := x.map Entry.name

namespace Node

variable {t t' : Node σ}

/-- the same children, with the same pointers -/
structure SamePointers (t t' : Node σ) : Prop where
  successor : ∀ k, (t.child? k).map Node.successor = (t'.child? k).map Node.successor
  count : t.childCount = t'.childCount

namespace SamePointers

theorem names_after (h : SamePointers t t') (p : String) (n : Nat) :
    (⟨t, .after p, n⟩ : Walk σ).items.map Item.name
      = (⟨t', .after p, n⟩ : Walk σ).items.map Item.name := by
  induction n generalizing p with
  | zero =>
    by_cases hp : p = ""
    · rw [hp, Walk.items_after_empty, Walk.items_after_empty]
    · rw [Walk.items_after_zero t hp, Walk.items_after_zero t' hp, h.count]
  | succ n ih =>
    by_cases hp : p = ""
    · rw [hp, Walk.items_after_empty, Walk.items_after_empty]
    have hs := h.successor p
    cases hc : t.child? p with
    | none =>
      rw [hc] at hs
      have hc' : t'.child? p = none := Option.map_eq_none_iff.1 hs.symm
      rw [Walk.items_after_missing hp hc, Walk.items_after_missing hp hc']
    | some c =>
      rw [hc, Option.map_some] at hs
      obtain ⟨c', hc', hcc⟩ := Option.map_eq_some_iff.1 hs.symm
      rw [Walk.items_after_child hp hc, Walk.items_after_child hp hc', List.map_cons,
        List.map_cons, ih, hcc]
      rfl

theorem next_start (h : SamePointers t t') : (Entry.start t).next = (Entry.start t').next := by
  rw [Entry.next_start, Entry.next_start, h.successor]

theorem names_chain (h : SamePointers t t') :
    (t.chain true).map Item.name = (t'.chain true).map Item.name := by
  rw [chain_true, chain_true, chain_false, chain_false, List.map_cons, List.map_cons, h.count,
    h.next_start, h.names_after]
  rfl

end SamePointers

end Node

namespace Lookup

variable {t t' : Node σ}

/-- what comes before a name is found out from the names alone -/
theorem before_congr {l l' : List (Item σ)} (h : l.map Item.name = l'.map Item.name)
    (target : String) (previous : Option String) :
    before target previous l = before target previous l' := by
  induction l generalizing previous l' with
  | nil =>
    obtain rfl : l' = [] := by simpa using h.symm
    rfl
  | cons x l ih =>
    cases l' with
    | nil => cases h
    | cons x' l' =>
      rw [List.map_cons, List.map_cons, List.cons.injEq] at h
      obtain ⟨hx, hl⟩ := h
      cases x with
      | error e =>
        cases x' with
        | error e' => cases hx; rfl
        | ok y' => cases hx
      | ok y =>
        cases x' with
        | error e' => cases hx
        | ok y' =>
          have hy : y.name = y'.name := Except.ok.inj hx
          rw [before, before, hy]
          split
          · rfl
          · exact ih hl _

end Lookup

namespace Node

variable {t t' : Node σ}

theorem SamePointers.scan (h : SamePointers t t') (key : String) :
    Lookup.scan t key = Lookup.scan t' key := by
  unfold Lookup.scan
  rw [Lookup.before_congr h.names_chain]

theorem successor_forget (n : Node σ) : n.forget.successor = n.successor := by
  unfold successor text? prop?
  rw [props_forget]

theorem childCount_forget (n : Node σ) : n.forget.childCount = n.childCount := by
  unfold childCount
  rw [children_forget, List.length_map]

/-- the marks have no part in the pointers -/
theorem samePointers_of_forget (h : t.forget = t'.forget) : SamePointers t t' where
  successor k := by
    have hs : ∀ n : Node σ, (n.forget.child? k).map successor = (n.child? k).map successor := by
      intro n
      rw [child?_forget, Option.map_map]
      congr 1
      exact funext successor_forget
    rw [← hs t, h, hs t']
  count := by rw [← childCount_forget, h, childCount_forget]

end Node

end PropertyIndex
