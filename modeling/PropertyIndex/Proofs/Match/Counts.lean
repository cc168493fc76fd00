import PropertyIndex.Proofs.Chain.Integrity
import PropertyIndex.Proofs.Match.Gathered
import PropertyIndex.Proofs.Path.Rendered

/-!
# Counting matches and counting paths

The integrity check counts the nodes that are matches, and a search counts the different paths that
they have.  The two numbers are the same as long as every name can be a segment: then no two
addresses have the same path.

* `Node.named`              whether the names below a node can be segments;
* `Node.nodup_rendered`     then the matches have different paths;
* `Node.length_found_one`   a query for one key finds as many paths as there are matches below it;
* `Node.counts_agree`       both ways of counting agree, below a node and along a sound chain.
-/

namespace PropertyIndex

variable {σ : Type} {n t : Node σ} {key : String}

namespace Node

/-! ## Names that can be segments -/

mutual

/-- whether the names of all nodes below this one can be segments of a path -/
def named : Node σ → Bool
  | ⟨_, _, cs⟩ => namedAll cs

def namedAll : List (String × Node σ) → Bool
  | [] => true
  | (k, n) :: r => decide (Path.IsName k) && named n && namedAll r

end

theorem namedAll_iff {cs : List (String × Node σ)} :
    namedAll cs = true ↔ ∀ p ∈ cs, Path.IsName p.1 ∧ p.2.named = true := by
  induction cs with
  | nil => simp [namedAll]
  | cons p r ih =>
    obtain ⟨k, n⟩ := p
    rw [namedAll, Bool.and_eq_true, Bool.and_eq_true, decide_eq_true_eq, ih, List.forall_mem_cons]

theorem named_iff : n.named = true ↔ ∀ p ∈ n.children, Path.IsName p.1 ∧ p.2.named = true := by
  obtain ⟨m, ps, cs⟩ := n
  rw [named, namedAll_iff, children_mk]

theorem isName_of_mem_matchAddresses {a : List String} (hn : n.named = true)
    (ha : a ∈ n.matchAddresses) : ∀ s ∈ a, Path.IsName s := by
  induction a generalizing n with
  | nil => exact List.forall_mem_nil _
  | cons k a ih =>
    obtain ⟨c, hc, ha⟩ := cons_mem_matchAddresses.1 ha
    obtain ⟨hk, hcn⟩ := named_iff.1 hn (k, c) hc
    exact List.forall_mem_cons.2 ⟨hk, ih hcn ha⟩

/-! ## One path for each match -/

theorem nodup_rendered (h : n.Sorted) (hn : n.named = true) :
    (n.matchAddresses.map Path.render).Nodup := by
  refine List.Nodup.map_on ?_ (nodup_matchAddresses h)
  intro a ha b hb e
  exact (Path.render_inj (isName_of_mem_matchAddresses hn ha)
    (isName_of_mem_matchAddresses hn hb)).1 e

/-- taken without a limit, the paths of the matches are as many as the matches -/
theorem length_paths_rendered (h : n.Sorted) (hn : n.named = true) :
    ((Collector.new none).addAll (n.matchAddresses.map Path.render)).paths.length = n.matchCount := by
  rw [Collector.length_paths_addAll_none, List.toFinset_card_of_nodup (nodup_rendered h hn),
    List.length_map, length_matchAddresses]

theorem length_found_one (h : t.Sorted) (hn : ∀ c, t.child? key = some c → c.named = true) :
    (t.found none [key]).length = ((t.child? key).map matchCount).getD 0 := by
  unfold found
  rw [List.flatMap_singleton]
  unfold pathsBelow Entry.paths
  cases hc : t.child? key with
  | none => rfl
  | some c => exact length_paths_rendered (h.child? hc) (hn c hc)

/-- **The two ways of counting agree.**  If the names below a node can be segments, the matches
counted in its subtree are as many as the paths that a search without a limit finds there.  So if an
index passes the check and the names below its entries can be segments, the matches counted by the
check are as many as the answers to queries for the entries, one after the other. -/
theorem counts_agree (o : OrderedIndex σ) {t : Node σ} (h : t.Sorted) :
    (t.named = true → ((Collector.new none).visit [] t).2.paths.length = t.matchCount) ∧
    ∀ metrics, t.checkChain o.direction = .ok metrics →
      (∀ k c, (.ok ⟨k, some c⟩ : Item σ) ∈ (Index.ordered o).entries t → c.named = true) →
      ∃ (keys : List String) (answers : String → List String),
        (Index.ordered o).entries t = keys.map t.item ∧
        (∀ k ∈ keys, (Index.ordered o).query t (some [k]) = .ok (answers k)) ∧
        metrics.matchCount = (keys.map fun k => (answers k).length).sum := by
  refine ⟨?_, ?_⟩
  · intro hn
    rw [Collector.visit_eq]
    exact length_paths_rendered h hn
  · intro metrics hok hn
    obtain ⟨keys, hsound, rfl⟩ := (checkChain_eq_ok_iff h).1 hok
    have hentries : (Index.ordered o).entries t = keys.map t.item := chain_of_linked hsound.linked
    refine ⟨keys, fun k => t.found none [k], hentries, fun k _ => Index.query_keys _ t [k], ?_⟩
    show (keys.map fun k => ((t.child? k).map matchCount).getD 0).sum = _
    congr 1
    apply List.map_congr_left
    intro k hk
    symm
    apply length_found_one h
    intro c hc
    refine hn k c ?_
    rw [hentries, List.mem_map]
    exact ⟨k, hk, by rw [item, hc]⟩

/-- two entries that have a path in common -/
def sharedPath : Node Unit :=
  ⟨(), [],
    [(":start", ⟨(), [(":next", .text "a")], []⟩),
      ("a", ⟨(), [(":next", .text "b"), ("match", .flag true)],
        [("x", ⟨(), [("match", .flag true)], []⟩)]⟩),
      ("b", ⟨(), [(":next", .text "")],
        [("x", ⟨(), [("match", .flag true)], [("y", ⟨(), [("match", .flag true)], []⟩)]⟩)]⟩)]⟩

theorem counts_agree_sharedPath :
    let o : OrderedIndex Unit := ⟨.ascending, 100, Lookup.scan⟩
    sharedPath.Sorted ∧ sharedPath.named = true ∧
      ((Collector.new none).visit [] sharedPath).2.paths.length = sharedPath.matchCount ∧
      sharedPath.checkChain .ascending = .ok ⟨2, 4, some "a", some "b"⟩ ∧
      ∃ (keys : List String) (answers : String → List String),
        (Index.ordered o).entries sharedPath = keys.map sharedPath.item ∧
        (∀ k ∈ keys, (Index.ordered o).query sharedPath (some [k]) = .ok (answers k)) ∧
        4 = (keys.map fun k => (answers k).length).sum := by
  intro o
  have h : sharedPath.Sorted := by decide
  have hn : sharedPath.named = true := by decide
  have hok : sharedPath.checkChain .ascending = .ok ⟨2, 4, some "a", some "b"⟩ := by
    decide +kernel
  have hlinked : sharedPath.Linked ["a", "b"] :=
    .hop (by decide) rfl (.hop (by decide) rfl (.stop ""))
  obtain ⟨hvisit, hsum⟩ := counts_agree o h
  refine ⟨h, hn, hvisit hn, hok, hsum _ hok ?_⟩
  intro k c hk
  have hentries : (Index.ordered o).entries sharedPath = ["a", "b"].map sharedPath.item :=
    chain_of_linked hlinked
  rw [hentries, List.mem_map] at hk
  obtain ⟨j, _, e⟩ := hk
  have hc : sharedPath.child? j = some c := (Entry.mk.inj (Except.ok.inj e)).2
  exact (named_iff.1 hn (j, c) (SortedMap.mem_of_get? hc)).2

/-- with a slash in a name, two matches may have one path -/
example :
    let t : Node Unit := ⟨(), [], [("a", ⟨(), [], [("b", ⟨(), [("match", .flag true)], []⟩)]⟩),
      ("a/b", ⟨(), [("match", .flag true)], []⟩)]⟩
    t.matchCount = 2 ∧ ((Collector.new none).visit [] t).2.paths = ["/a/b"] := by decide

end Node

end PropertyIndex
