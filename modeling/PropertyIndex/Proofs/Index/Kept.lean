import PropertyIndex.Proofs.Index.Effects

/-!
# Indexes that hold their matches and nothing else

* `Node.Kept`      the chain is whole, the tree is neat, and every key has a match;
* `Kept.mem_iff`   the keys are the names with a match below them;
* `Kept.settle`    such an index stays one when an entry is settled;
* `Kept.insert`, `Kept.remove`   one match more, one match less, and nothing else;
* `Kept.forget_eq` such an index is determined by its matches, and by whether it has a head.
-/

namespace PropertyIndex

variable {σ : Type} {m : σ} {d : Direction} {t t' : Node σ} {keys keys' : List String}
  {key : String} {o : OrderedIndex σ} {c : Node σ}

open Node

/-! ## What a settled entry leaves in the tree -/

namespace Settled

variable {r : Node σ × Bool} {out : Outcome σ Unit}

theorem hasMatch (h : Settled m t keys key r out) (k : String) (a : List String) :
    out.tree.HasMatch (k :: a) ↔ if k = key then r.1.HasMatch a else t.HasMatch (k :: a) := by
  cases h with
  | kept h1 _ => exact h1.hasMatch
  | unlinked h1 hocc _ =>
    rw [Outcome.tree_done, hasMatch_cut, h1.hasMatch]
    split
    · next e => simp [e, not_hasMatch_of_not_occupied hocc a]
    · next e => simp [e]

theorem neat (h : Settled m t keys key r out) (hn : t.Neat) (hs : r.1.Sorted)
    (hr : r.1.Tidy [nextName]) : out.tree.Neat := by
  cases h with
  | kept h1 _ => exact hn.put h1 hs hr
  | unlinked h1 _ _ => exact (hn.put h1 hs hr).cut m _ _ _

end Settled

namespace Node

/-- the chain is whole, the tree is neat, and every key has a match -/
structure Kept (d : Direction) (t : Node σ) (keys : List String) : Prop
    extends Chained d t keys where
  neat : t.Neat
  matched : ∀ k ∈ keys, ∃ a, t.HasMatch (k :: a)

namespace Kept

theorem empty (d : Direction) (m : σ) : (Node.empty m).Kept d [] where
  toChained := .empty d m
  neat := .empty m
  matched _ h := by cases h

theorem mem_iff (h : t.Kept d keys) : key ∈ keys ↔ ∃ a, t.HasMatch (key :: a) :=
  ⟨h.matched key, fun ⟨_, ha⟩ => h.mem_of_hasMatch ha⟩

theorem hasChild_iff_hasMatch (h : t.Kept d keys) (hs : key ≠ startName) :
    t.hasChild key = true ↔ ∃ a, t.HasMatch (key :: a) := by
  rw [← h.mem_iff, hasChild_iff]
  constructor
  · intro hx
    obtain ⟨c, hc⟩ := hx
    exact h.complete key c hc hs
  · exact h.exists_child

/-! ## One match more, one match less -/

theorem insert (h : t.Kept o.direction keys) (hu : Key.Usable key) (m : σ) (path : String) :
    ∃ t' keys', (Index.ordered o).insert m t path key = .done t' ∧ t'.Kept o.direction keys' ∧
      ∀ k a, t'.HasMatch (k :: a) ↔
        (k = key ∧ a = Path.segments path) ∨ t.HasMatch (k :: a) := by
  obtain ⟨t', keys', hi, h', hmem, hmatch, hneat⟩ := h.toChained.insert hu m path
  refine ⟨t', keys', hi, ⟨h', hneat h.neat, ?_⟩, hmatch⟩
  intro k hk
  rcases (hmem k).1 hk with rfl | hk
  · exact ⟨_, (hmatch k _).2 (.inl ⟨rfl, rfl⟩)⟩
  · obtain ⟨a, ha⟩ := h.matched k hk
    exact ⟨a, (hmatch k a).2 (.inr ha)⟩

theorem occupied (h : t.Kept d keys) (hc : t.child? key = some c) (hs : key ≠ startName) :
    c.occupied = true := by
  obtain ⟨a, ha⟩ := h.matched key (h.complete key c hc hs)
  obtain ⟨c', hc', hm⟩ := hasMatch_cons.1 ha
  rw [hc] at hc'
  cases hc'
  by_contra hn
  exact not_hasMatch_of_not_occupied (by simpa using hn) a hm

/-- settling an entry keeps such an index, if what is left of the entry is tidy, and is occupied
unless it may be empty -/
theorem settle {r : Node σ × Bool} {out : Outcome σ Unit} (h : t.Kept d keys)
    (hset : Settled m t keys key r out) (hc : t.child? key = some c) (hs : key ≠ startName)
    (hp : r.1.prop? nextName = c.prop? nextName) (hsort : r.1.Sorted)
    (htidy : r.1.Tidy [nextName]) (hkept : r.2 = false → r.1.occupied = true) :
    ∃ t' keys', out = .done t' ∧ t'.Kept d keys' := by
  have hneat := hset.neat h.neat hsort htidy
  have hother : ∀ k ∈ keys, k ≠ key → ∃ a, out.tree.HasMatch (k :: a) := by
    intro k hk hne
    obtain ⟨a, ha⟩ := h.matched k hk
    refine ⟨a, ?_⟩
    rw [hset.hasMatch, if_neg hne]
    exact ha
  cases hset with
  | @kept t1 hput hocc =>
    refine ⟨t1, keys, rfl, h.toChained.put hput hc hs hp, hneat, ?_⟩
    intro k hk
    by_cases e : k = key
    · have hr : r.1.occupied = true := by
        cases h2 : r.2 with
        | true => exact hocc h2
        | false => exact hkept h2
      obtain ⟨a, ha⟩ := htidy.exists_hasMatch (by decide) hr
      rw [e]
      exact ⟨a, hasMatch_cons.2 ⟨_, hput.child_self, ha⟩⟩
    · exact hother k hk e
  | @unlinked t1 pre post hput _ hkeys =>
    have h1 := h.toChained.put hput hc hs hp
    rw [hkeys] at h1
    refine ⟨_, pre ++ post, rfl, h1.cut m, hneat, ?_⟩
    intro k hk
    have hn := h1.linked.nodup
    rw [List.nodup_cons, List.nodup_middle, List.nodup_cons] at hn
    have hmem : k ∈ keys := by
      rw [hkeys]
      exact ((List.sublist_cons_self key post).append_left pre).mem hk
    have hne : k ≠ key := by
      intro e
      exact hn.2.1 (e ▸ hk)
    exact hother k hmem hne

theorem remove (h : t.Kept o.direction keys) (ho : o.lookup.Sound o.direction)
    (hs : key ≠ startName) (m : σ) (path : String) :
    ∃ t' keys', (Index.ordered o).remove m t path key = .done t' ∧ t'.Kept o.direction keys' ∧
      ∀ k a, t'.HasMatch (k :: a) ↔
        ¬ (k = key ∧ a = Path.segments path) ∧ t.HasMatch (k :: a) := by
  cases hc : t.child? key with
  | none =>
    exact ⟨t, keys, Index.remove_of_none _ (isReserved_ordered o hs) hc m path, h,
      hasMatch_iff_of_none hc⟩
  | some c =>
    obtain ⟨htidy, hkept⟩ :=
      (h.neat.tidy key c hc).unmark m (Path.segments path) (h.occupied hc hs)
    have hset := h.toChained.remove_entry ho hc hs m path
    obtain ⟨t', keys', hr, ht'⟩ := h.settle hset hc hs (prop?_unmark m _ c (by decide))
      ((h.neat.sorted.child? hc).unmark m _) htidy hkept
    refine ⟨t', keys', hr, ht', ?_⟩
    intro k a
    have hm := hset.hasMatch k a
    rw [hr, Outcome.tree_done] at hm
    rw [hm]
    split
    · next e =>
      rw [hasMatch_unmark, e, hasMatch_cons, hc]
      simp
    · next e => simp [e]

/-! ## The matches determine the tree -/

/-- in both trees the keys come in the one order of the direction -/
theorem keys_eq (h : t.Kept d keys) (h' : t'.Kept d keys')
    (hm : ∀ k a, t.HasMatch (k :: a) ↔ t'.HasMatch (k :: a)) : keys = keys' := by
  apply h.ordered.eq_of_mem_iff h'.ordered
  intro k
  rw [h.mem_iff, h'.mem_iff]
  exact exists_congr (hm k)

/-- children under one name with the same pointer and the same matches are the same -/
theorem forget_child_eq {c c' : Node σ} (h : t.Kept d keys) (h' : t'.Kept d keys')
    (hc : t.child? key = some c) (hc' : t'.child? key = some c')
    (hs : c.successor = c'.successor) (hm : ∀ a, c.HasMatch a ↔ c'.HasMatch a) :
    c.forget = c'.forget := by
  refine (h.neat.tidy key c hc).forget_eq (h'.neat.tidy key c' hc') (h.neat.sorted.child? hc)
    (h'.neat.sorted.child? hc') (by decide) ?_ hm
  intro name hname
  obtain ⟨x, hx⟩ := h.text key c hc
  obtain ⟨x', hx'⟩ := h'.text key c' hc'
  rw [successor_of_prop? hx, successor_of_prop? hx'] at hs
  rw [List.mem_singleton.1 hname, hx, hx', hs]

/-- an index that holds its matches and nothing else is determined by them, and by whether it has a
head -/
theorem forget_eq (h : t.Kept d keys) (h' : t'.Kept d keys')
    (hm : ∀ k a, t.HasMatch (k :: a) ↔ t'.HasMatch (k :: a))
    (hstart : t.hasChild startName = t'.hasChild startName) : t.forget = t'.forget := by
  obtain rfl := h.keys_eq h' hm
  refine forget_eq_of_children h.neat.sorted h'.neat.sorted
    (h.neat.props.trans h'.neat.props.symm) ?_
  intro k
  have hbelow : ∀ c c', t.child? k = some c → t'.child? k = some c' →
      ∀ a, c.HasMatch a ↔ c'.HasMatch a := by
    intro c c' hc hc' a
    have hk := hm k a
    rw [hasMatch_cons, hasMatch_cons, hc, hc'] at hk
    simpa using hk
  by_cases hk : k ∈ keys
  · obtain ⟨c, hc⟩ := h.exists_child hk
    obtain ⟨c', hc'⟩ := h'.exists_child hk
    obtain ⟨pre, post, hkeys⟩ := List.append_of_mem hk
    have hs : c.successor = c'.successor := by
      have hl := h.linked
      have hl' := h'.linked
      rw [hkeys] at hl hl'
      rw [hl.successor_eq hc, hl'.successor_eq hc']
    rw [hc, hc', Option.map_some, Option.map_some,
      h.forget_child_eq h' hc hc' hs (hbelow c c' hc hc')]
  by_cases hs : k = startName
  · subst hs
    cases hc : t.child? startName with
    | none =>
      have hc' : t'.child? startName = none :=
        hasChild_eq_false_iff.1 (hstart ▸ hasChild_eq_false_iff.2 hc)
      rw [hc']
    | some c =>
      obtain ⟨c', hc'⟩ : ∃ c', t'.child? startName = some c' := by
        rw [← hasChild_iff, ← hstart]
        exact hasChild_iff.2 ⟨c, hc⟩
      have hfirst : c.successor = c'.successor := by
        rw [h.linked.head_successor_eq hc, h'.linked.head_successor_eq hc']
      rw [hc', Option.map_some, Option.map_some,
        h.forget_child_eq h' hc hc' hfirst (hbelow c c' hc hc')]
  · rw [h.child?_eq_none hk hs, h'.child?_eq_none hk hs]

end Kept

end Node

end PropertyIndex
