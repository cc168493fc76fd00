import Mathlib.Data.List.Chain
import PropertyIndex.Node.Edit
import PropertyIndex.Proofs.Chain.Splice
import PropertyIndex.Proofs.Chain.Traversal

/-!
# Places in any chain, sound or not

Wherever the pointers of an index lead, a walk meets its head and children of it, each of them what
the one before it points to.  So the place that is found for a new key is behind the head or behind a
child, and what follows there is what that node points to.

* `Node.Walked`               what a walk from the head meets, and how it ends;
* `insertionPoint_eq`         the place of a new key is always the first that the walk comes to;
* `insertionPointIn_cases`    there is such a place, or the walk breaks off;
* `insertionPoint_eq_ok`      the node before the place, and the name behind it;
* `insertionPoint_lands`      the search for a place never fails of itself.
-/

namespace PropertyIndex

variable {σ : Type} {d : Direction} {t : Node σ} {key previous next q : String}
  {passed : List String}

/-! ## What a walk meets -/

/-- every name on a trail is what the one before it points to -/
theorem Trail.isChain {k : String} {ks : List String} (h : Trail t (t.successorOf k) ks q) :
    (k :: ks).IsChain fun a b => t.successorOf a = b := by
  induction ks generalizing k with
  | nil => exact .singleton k
  | cons j js ih =>
    obtain ⟨rfl, _, c, hc, rest⟩ := h.of_cons
    exact .cons_cons rfl (ih (Node.successorOf_of_child? hc ▸ rest))

/-- the last name on a trail points to where the trail ends -/
theorem Trail.exists_successorOf_eq {k : String} {ks : List String}
    (h : Trail t (t.successorOf k) ks q) : ∃ j ∈ k :: ks, t.successorOf j = q := by
  induction ks generalizing k with
  | nil =>
    cases h
    exact ⟨k, List.mem_cons_self, rfl⟩
  | cons j js ih =>
    obtain ⟨rfl, _, c, hc, rest⟩ := h.of_cons
    obtain ⟨j, hj, e⟩ := ih (Node.successorOf_of_child? hc ▸ rest)
    exact ⟨j, List.mem_cons_of_mem k hj, e⟩

namespace Node

/-- a walk yields children, and one error behind them if it breaks off -/
theorem chain_eq_append (t : Node σ) : ∃ (ks : List String) (rest : List (Item σ)),
    (∀ k ∈ ks, t.hasChild k = true) ∧ t.chain false = ks.map t.item ++ rest ∧
      (rest = [] ∨ ∃ e, rest = [.error e]) := by
  obtain ⟨ks, q, htr, hend⟩ := t.chain_trail
  have hks : ∀ k ∈ ks, t.hasChild k = true := fun k hk => hasChild_iff.2 (htr.mem hk).2
  rcases hend with ⟨_, e⟩ | ⟨_, c, e, _⟩
  · exact ⟨ks, [], hks, by rw [e, List.append_nil], .inl rfl⟩
  · exact ⟨ks, _, hks, e, .inr ⟨_, rfl⟩⟩

/-- the names that a walk from the head meets, and what comes behind them: nothing, if the last one
points nowhere, or the error that the walk breaks off with -/
structure Walked (t : Node σ) (names : List String) (rest : List (Item σ)) : Prop where
  chain : t.chain true = names.map t.item ++ rest
  head : names.head? = some startName
  linked : names.IsChain fun a b => t.successorOf a = b
  present : ∀ k ∈ names, k ≠ "" ∧ (k = startName ∨ t.hasChild k = true)
  ending : (rest = [] ∧ ∃ k ∈ names, t.successorOf k = "") ∨
    ∃ c, rest = [.error (.corruption c)] ∧ ∀ k, c ≠ .noInsertionPoint k

theorem exists_walked (t : Node σ) : ∃ names rest, t.Walked names rest := by
  obtain ⟨ks, q, htr, hend⟩ := t.chain_trail
  have htr : Trail t (t.successorOf startName) ks q := htr
  have hpresent : ∀ k ∈ startName :: ks, k ≠ "" ∧ (k = startName ∨ t.hasChild k = true) := by
    intro k hk
    rcases List.mem_cons.1 hk with rfl | hk
    · exact ⟨by decide, .inl rfl⟩
    · exact ⟨(htr.mem hk).1, .inr (hasChild_iff.2 (htr.mem hk).2)⟩
  rcases hend with ⟨hq, e⟩ | ⟨_, c, e, hc⟩
  · refine ⟨startName :: ks, [], ?_, rfl, htr.isChain, hpresent, .inl ⟨rfl, ?_⟩⟩
    · rw [chain_true, e, List.append_nil, List.map_cons]
    · rw [← hq]
      exact htr.exists_successorOf_eq
  · refine ⟨startName :: ks, _, ?_, rfl, htr.isChain, hpresent, .inr ⟨c, rfl, ?_⟩⟩
    · rw [chain_true, e, List.map_cons, List.cons_append]
    · rcases hc with rfl | rfl <;> simp

/-- what points to a name is there, and its pointer is a text -/
theorem exists_of_successorOf (h : t.successorOf previous = key) (hk : key ≠ "") :
    ∃ c, t.child? previous = some c ∧ c.text? nextName = some key := by
  obtain ⟨c, hc⟩ : ∃ c, t.child? previous = some c := by
    by_contra hn
    rw [successorOf, Option.eq_none_iff_forall_ne_some.2 (not_exists.1 hn)] at h
    exact hk h.symm
  rw [successorOf_of_child? hc, successor] at h
  refine ⟨c, hc, ?_⟩
  cases hn : c.text? nextName with
  | none =>
    rw [hn] at h
    exact absurd h.symm hk
  | some s =>
    rw [hn] at h
    exact congrArg some h

end Node

/-! ## The place of a new key -/

/-- a new key may be put behind a name if nothing or a later key follows there -/
def Node.Admits (d : Direction) (t : Node σ) (key k : String) : Prop :=
  t.successorOf k = "" ∨ d.precedes key (t.successorOf k)

instance (d : Direction) (t : Node σ) (key : String) : DecidablePred (t.Admits d key) :=
  fun k => inferInstanceAs (Decidable (t.successorOf k = "" ∨ d.precedes key (t.successorOf k)))

theorem insertionPointIn_item (h : t.Admits d key previous) (rest : List (Item σ)) :
    insertionPointIn d key (t.item previous :: rest) = .ok (previous, t.successorOf previous) :=
  if_pos h

theorem insertionPointIn_passed (h : ∀ k ∈ passed, ¬ t.Admits d key k) (rest : List (Item σ)) :
    insertionPointIn d key (passed.map t.item ++ rest) = insertionPointIn d key rest := by
  induction passed with
  | nil => rfl
  | cons k ks ih =>
    have hk : insertionPointIn d key (t.item k :: (ks.map t.item ++ rest))
        = insertionPointIn d key (ks.map t.item ++ rest) := if_neg (h k List.mem_cons_self)
    rw [List.map_cons, List.cons_append, hk, ih fun j hj => h j (List.mem_cons_of_mem k hj)]

/-- without a first key the walk comes to the head, and nothing follows there -/
theorem insertionPoint_eq (d : Direction) (t : Node σ) (key : String) :
    insertionPoint d t key = insertionPointIn d key (t.chain true) := by
  unfold insertionPoint
  cases hf : t.firstKey with
  | some k => rfl
  | none =>
    have hnext : t.successorOf startName = "" := Entry.next_start_of_firstKey hf
    rw [Node.chain_true, insertionPointIn_item (.inl hnext), hnext]

/-- the search comes to the first name behind which a new key may be put, or to the error that the
walk breaks off with -/
theorem insertionPointIn_cases (d : Direction) (t : Node σ) (key : String) :
    (∃ (passed : List String) (previous : String) (rest : List (Item σ)),
      t.chain true = (passed ++ [previous]).map t.item ++ rest ∧
        (previous = startName ∨ t.hasChild previous = true) ∧
        (∀ k ∈ passed, ¬ t.Admits d key k) ∧ t.Admits d key previous ∧
        insertionPointIn d key (t.chain true) = .ok (previous, t.successorOf previous)) ∨
    ∃ (passed : List String) (c : Corruption),
      t.chain true = passed.map t.item ++ [.error (.corruption c)] ∧
        (∀ k ∈ passed, ¬ t.Admits d key k) ∧ (∀ k, c ≠ .noInsertionPoint k) ∧
        insertionPointIn d key (t.chain true) = .error (.corruption c) := by
  obtain ⟨names, rest, h⟩ := t.exists_walked
  cases hfind : names.find? fun k => t.Admits d key k with
  | some previous =>
    obtain ⟨hadmits, passed, post, hnames, hpassed⟩ := List.find?_eq_some_iff_append.1 hfind
    have hadmits : t.Admits d key previous := by simpa using hadmits
    have hpassed : ∀ k ∈ passed, ¬ t.Admits d key k := fun k hk => by simpa using hpassed k hk
    have hmem : previous ∈ names := hnames ▸ List.mem_append_right _ List.mem_cons_self
    have hchain : t.chain true
        = passed.map t.item ++ t.item previous :: (post.map t.item ++ rest) := by
      rw [h.chain, hnames, List.map_append, List.map_cons, List.append_assoc, List.cons_append]
    refine .inl ⟨passed, previous, post.map t.item ++ rest, ?_, (h.present previous hmem).2,
      hpassed, hadmits, ?_⟩
    · rw [hchain, List.map_append, List.map_singleton, List.append_assoc, List.singleton_append]
    · rw [hchain, insertionPointIn_passed hpassed, insertionPointIn_item hadmits]
  | none =>
    have hpassed : ∀ k ∈ names, ¬ t.Admits d key k := by simpa using List.find?_eq_none.1 hfind
    rcases h.ending with ⟨_, k, hk, hempty⟩ | ⟨c, rfl, hc⟩
    · -- a walk that ends has a last name, and nothing follows there
      exact absurd (.inl hempty) (hpassed k hk)
    · refine .inr ⟨names, c, h.chain, hpassed, hc, ?_⟩
      rw [h.chain, insertionPointIn_passed hpassed]
      rfl

/-- the place of a new key is behind the head or a child, in front of the name that it points to -/
theorem insertionPoint_eq_ok (h : insertionPoint d t key = .ok (previous, next)) :
    (previous = startName ∨ t.hasChild previous = true) ∧ next = t.successorOf previous ∧
      (next = "" ∨ d.precedes key next) := by
  rw [insertionPoint_eq] at h
  rcases insertionPointIn_cases d t key with ⟨_, _, _, _, hpresent, _, hadmits, he⟩ |
    ⟨_, _, _, _, _, he⟩
  · cases he.symm.trans h
    exact ⟨hpresent, rfl, hadmits⟩
  · cases he.symm.trans h

/-- **The search for the place of a new key lands, and lands right**, in every tree.  It comes to
the first name of the walk from the head behind which nothing or a later key follows, and it answers
with this name and the name that it points to; or there is no such name, and it fails with the error
that the walk breaks off with.  It never runs out of names without finding a place. -/
theorem insertionPoint_lands (d : Direction) (t : Node σ) (key : String) :
    let place := insertionPointIn d key (t.chain true)
    insertionPoint d t key = place ∧
    ((∃ (passed : List String) (previous : String) (rest : List (Item σ)),
        t.chain true = (passed ++ [previous]).map t.item ++ rest ∧
        (previous = startName ∨ t.hasChild previous = true) ∧
        (∀ k ∈ passed, t.successorOf k ≠ "" ∧ ¬ d.precedes key (t.successorOf k)) ∧
        (t.successorOf previous = "" ∨ d.precedes key (t.successorOf previous)) ∧
        place = .ok (previous, t.successorOf previous)) ∨
      ∃ (passed : List String) (c : Corruption),
        t.chain true = passed.map t.item ++ [.error (.corruption c)] ∧
        (∀ k ∈ passed, t.successorOf k ≠ "" ∧ ¬ d.precedes key (t.successorOf k)) ∧
        place = .error (.corruption c)) ∧
    ∀ k, place ≠ .error (.corruption (.noInsertionPoint k)) := by
  intro place
  refine ⟨insertionPoint_eq d t key, ?_⟩
  rcases insertionPointIn_cases d t key with
    ⟨passed, previous, rest, hchain, hpresent, hpassed, hadmits, he⟩ |
    ⟨passed, c, hchain, hpassed, hc, he⟩
  · refine ⟨.inl ⟨passed, previous, rest, hchain, hpresent, fun k hk => not_or.1 (hpassed k hk),
      hadmits, he⟩, fun k hk => ?_⟩
    cases he.symm.trans hk
  · refine ⟨.inr ⟨passed, c, hchain, fun k hk => not_or.1 (hpassed k hk), he⟩, fun k hk => ?_⟩
    exact hc k (Error.corruption.inj (Except.error.inj (he.symm.trans hk)))

end PropertyIndex
