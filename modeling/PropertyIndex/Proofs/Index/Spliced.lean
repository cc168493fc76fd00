import PropertyIndex.Proofs.Index.Effects
import PropertyIndex.Proofs.Index.Run

/-!
# Splicing a walk that meets no error

An index may hold anything beside its chain: children that are no entries, entries without matches,
nodes that point into the chain.  As long as the walk along the chain comes to its end in order, new
keys are put into it and entries are taken out of it.

* `Linked.insert`   a new key is put in at its place;
* `Linked.remove`   taking out a match keeps the entry, or takes it out of the chain;
* `OrderedIndex.insert_remove_walk`   the same in terms of walks.
-/

namespace PropertyIndex

variable {σ : Type} {m : σ} {d : Direction} {t t' c : Node σ} {keys pre post : List String}
  {key : String}

namespace Node

/-- a new key is put into the chain at its place, whatever else is there -/
theorem Linked.insert {o : OrderedIndex σ} (h : t.Linked keys)
    (ho : keys.Pairwise o.direction.precedes) (hu : Key.Usable key) (hc : t.child? key = none)
    (m : σ) (path : String) : ∃ pre post t', keys = pre ++ post ∧
      (pre ++ key :: post).Pairwise o.direction.precedes ∧
      (Index.ordered o).insert m t path key = .done t' ∧ t'.Linked (pre ++ key :: post) := by
  have hk : key ∉ keys := Trail.notMem_of_none h hc
  obtain ⟨pre, post, rfl, ho', hi⟩ := exists_insertionPoint h ho hk
  have h1 := h.link hu.1 hu.2.2 hk m
  obtain ⟨_, c1, hc1⟩ := Trail.mem h1 (List.mem_append_right pre List.mem_cons_self)
  have hput := Put.grow m (t.link m (pre.getLastD startName) key (post.headD "")) key
    (Path.segments path) (·.setProp matchName (.flag true))
  rw [hc1, Option.getD_some] at hput
  refine ⟨pre, post, _, rfl, ho', ?_, h1.put hput hc1 (prop?_grow_mark m _ c1 (by decide))⟩
  rw [insert_ordered, OrderedIndex.fetch_of_none hu hc hi, Outcome.andThen_done]

/-- an entry below which a match is taken out is kept, or it is taken out of the chain, and the one
before it is redirected -/
theorem Linked.remove (h : t.Linked keys) (hk : key ∈ keys) (hc : t.child? key = some c)
    (hp : c.hasProp nextName = true) (d : Direction) (n : Nat) (m : σ) (path : String) :
    ∃ pre post t', keys = pre ++ key :: post ∧
      (Index.ordered (.scanning d n)).remove m t path key = .done t' ∧
      t'.Linked (if t'.hasChild key then keys else pre ++ post) ∧
      ∀ k, k ≠ key → k ≠ pre.getLastD startName → t'.child? k = t.child? k := by
  have hs : key ≠ startName := by
    rintro rfl
    exact startName_notMem_of_linked h hk
  have hnext : (c.unmark m (Path.segments path)).1.prop? nextName = c.prop? nextName :=
    prop?_unmark m _ c (by decide)
  obtain ⟨t1, hput, he⟩ := Index.remove_of_child? (.ordered (.scanning d n))
    (isReserved_ordered _ hs) hc m path
  have hsettled := h.settled (o := .scanning d n) hk hc hp hnext hput
    (fun pre post e => Lookup.scan_of_linked (e ▸ h.put hput hc hnext)) m
  rw [← he] at hsettled
  generalize (Index.ordered (.scanning d n)).remove m t path key = out at hsettled
  cases hsettled with
  | @kept t1 hput _ =>
    obtain ⟨pre, post, hkeys⟩ := List.append_of_mem hk
    refine ⟨pre, post, t1, hkeys, rfl, ?_, fun k hk _ => hput.child_ne hk⟩
    rw [hasChild_iff.2 ⟨_, hput.child_self⟩]
    exact h.put hput hc hnext
  | @unlinked t1 pre post hput _ hkeys =>
    refine ⟨pre, post, _, hkeys, rfl, ?_, ?_⟩
    · rw [hasChild_eq_false_iff.2 (by rw [child?_cut, if_pos rfl])]
      exact Linked.cut (hkeys ▸ h.put hput hc hnext) m
    · intro k hk hprev
      rw [child?_cut, if_neg hk, if_neg hprev, hput.child_ne hk]

end Node

open Node

/-- **Whatever else an index holds, its chain is spliced.**  Let the walk meet no error and yield
keys in order, whose entries have pointers.  Then a key that is no child yet is added to the walk at
its place.  Taking out a match of an entry keeps the walk if the entry is kept, and takes its key out
of the walk otherwise; no child but the entry and the one before it changes. -/
theorem OrderedIndex.insert_remove_walk (d : Direction) (n : Nat) (l : Lookup σ) (m : σ)
    (hwalk : t.chain false = keys.map t.item) (ho : keys.Pairwise d.precedes)
    (hp : ∀ k ∈ keys, ∀ c, t.child? k = some c → c.hasProp nextName = true) (path : String) :
    (∀ key, Key.Usable key → t.child? key = none → ∃ pre post t', keys = pre ++ post ∧
      (pre ++ key :: post).Pairwise d.precedes ∧
      (Index.ordered ⟨d, n, l⟩).insert m t path key = .done t' ∧
      t'.chain false = (pre ++ key :: post).map t'.item) ∧
    (∀ key ∈ keys, ∃ pre post t', keys = pre ++ key :: post ∧
      (Index.ordered (.scanning d n)).remove m t path key = .done t' ∧
      t'.chain false = (if t'.hasChild key then keys else pre ++ post).map t'.item ∧
      ∀ k, k ≠ key → k ≠ pre.getLastD startName → t'.child? k = t.child? k) := by
  have hl := linked_of_chain hwalk
  constructor
  · intro key hu hc
    obtain ⟨pre, post, t', hkeys, ho', he, h'⟩ :=
      Linked.insert (o := ⟨d, n, l⟩) hl ho hu hc m path
    exact ⟨pre, post, t', hkeys, ho', he, chain_of_linked h'⟩
  · intro key hk
    obtain ⟨_, c, hc⟩ := Trail.mem hl hk
    obtain ⟨pre, post, t', hkeys, he, h', hsame⟩ := hl.remove hk hc (hp key hk c hc) d n m path
    exact ⟨pre, post, t', hkeys, he, chain_of_linked h', hsame⟩

/-- the chain `a`, `c`, whose entries have no matches, beside a child that points into it and one
that points nowhere -/
def Node.tangled : Node Unit :=
  ⟨(), [],
    [(":start", ⟨(), [(":next", .text "a")], []⟩),
      ("a", ⟨(), [(":next", .text "c")], []⟩),
      ("c", ⟨(), [(":next", .text "")], [("p", ⟨(), [], []⟩)]⟩),
      ("s", ⟨(), [(":next", .text "c")], []⟩),
      ("x", ⟨(), [(":next", .text "y")], []⟩)]⟩

theorem OrderedIndex.insert_remove_walk_tangled :
    tangled.chain false = ["a", "c"].map tangled.item ∧
      ["a", "c"].Pairwise (Direction.precedes .ascending) ∧
      Key.Usable "b" ∧ tangled.child? "b" = none ∧
      (∃ pre post t', ["a", "c"] = pre ++ post ∧
        (pre ++ "b" :: post).Pairwise (Direction.precedes .ascending) ∧
        (Index.ordered ⟨.ascending, 100, .never⟩).insert () tangled "p" "b" = .done t' ∧
        t'.chain false = (pre ++ "b" :: post).map t'.item) ∧
      ∃ pre post t', ["a", "c"] = pre ++ "a" :: post ∧
        (Index.ordered (.scanning .ascending 100)).remove () tangled "p" "a" = .done t' ∧
        t'.chain false = (if t'.hasChild "a" then ["a", "c"] else pre ++ post).map t'.item ∧
        ∀ k, k ≠ "a" → k ≠ pre.getLastD startName → t'.child? k = tangled.child? k := by
  have hwalk : tangled.chain false = ["a", "c"].map tangled.item :=
    chain_of_linked (.hop (by decide) rfl (.hop (by decide) rfl (.stop "")))
  have ho : ["a", "c"].Pairwise (Direction.precedes .ascending) := by decide
  have hp : ∀ k ∈ ["a", "c"], ∀ c, tangled.child? k = some c → c.hasProp nextName = true := by
    intro k hk c hc
    rcases List.mem_pair.1 hk with rfl | rfl
    · cases hc
      rfl
    · cases hc
      rfl
  have hu : Key.Usable "b" := by decide
  obtain ⟨hins, hrem⟩ := insert_remove_walk .ascending 100 .never () hwalk ho hp "p"
  exact ⟨hwalk, ho, hu, rfl, hins "b" hu rfl, hrem "a" (by decide)⟩

end PropertyIndex
