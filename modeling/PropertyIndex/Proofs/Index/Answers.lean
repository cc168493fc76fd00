import PropertyIndex.Proofs.Index.Refused

/-!
# What an index answers

The matches of an index are known from the writes to it, without any tree.  They are all that a
query depends on: under every key the addresses ascend, and a path that comes again is left out.

* `Write.ledger`        the matches that some writes leave, read off the writes alone;
* `Write.matches_runAll`   these are the matches of the tree after the writes;
* `Ledger.answer`       the paths under some keys, key by key, each where it comes first;
* `Fits.pathsBelow_eq`  the paths under one key, in the order of their segments;
* `Fits.entries_eq`     the entries of the index, in its order;
* `Index.query_exact`   every query after every run is answered from the ledger.
-/

namespace PropertyIndex

variable {σ : Type} {t : Node σ} {i : Index σ} {L : Ledger} {key : String}

open Node

/-! ## The matches that some writes leave -/

/-- the steps of a write -/
def Write.changes : Write → List Change
  | .insert _ key => [.insert key]
  | .remove _ key => [.remove key]
  | .update _ before after => Change.between before after

/-- the path that a write is about -/
def Write.path : Write → String
  | .insert path _ => path
  | .remove path _ => path
  | .update path _ _ => path

/-- what a step means for a path: a pair more, or a pair less -/
def Ledger.change (path : String) (L : Ledger) : Change → Ledger
  | .insert key => Insert.insert (key, Path.segments path) L
  | .remove key => L.erase (key, Path.segments path)

/-- what a write means: its steps, up to the first that the index refuses -/
def Ledger.write (i : Index σ) (L : Ledger) (w : Write) : Ledger :=
  (i.accepted w.changes).foldl (Ledger.change w.path) L

/-- the matches that some writes leave in an empty index -/
def Write.ledger (i : Index σ) (ws : List Write) : Ledger := ws.foldl (Ledger.write i) ∅

/-- the matches of the tree are the pairs of the ledger -/
def Ledger.Matches (L : Ledger) (t : Node σ) : Prop := ∀ k a, t.HasMatch (k :: a) ↔ (k, a) ∈ L

namespace Ledger

theorem matches_empty (m : σ) : Matches ∅ (Node.empty m) := by
  intro k a
  simp [not_hasMatch_empty]

theorem Matches.change {path : String} {c : Change} {t' : Node σ} (h : L.Matches t)
    (hm : c.Marks path t t') : (L.change path c).Matches t' := by
  intro k a
  cases c with
  | insert key =>
    show _ ↔ _ ∈ Insert.insert (key, Path.segments path) L
    rw [hm k a, h k a, Finset.mem_insert, Prod.mk.injEq]
  | remove key =>
    show _ ↔ _ ∈ L.erase (key, Path.segments path)
    rw [hm k a, h k a, Finset.mem_erase, ne_eq, Prod.mk.injEq]

end Ledger

namespace Index.Fits

/-- the steps of a write to an index are those of its ledger -/
theorem matches_applyAll (h : i.Fits t) (hs : i.Sound) (hL : L.Matches t) (m : σ) (path : String)
    (cs : List Change) :
    ((i.accepted cs).foldl (Ledger.change path) L).Matches (i.applyAll m t path cs).tree := by
  induction cs generalizing t L with
  | nil => exact hL
  | cons c cs ih =>
    cases hc : i.refusal c with
    | none =>
      obtain ⟨t', ht', h', hm⟩ := h.apply_done hs hc m path
      rw [accepted_cons_of_none hc, Index.applyAll, ht', Outcome.andThen_done]
      exact ih h' (hL.change hm)
    | some e =>
      rw [accepted_cons_of_some hc, Index.applyAll, apply_of_refusal hc, Outcome.andThen_failed]
      exact hL

end Index.Fits

namespace Write

/-- the tree after a write is the one after its steps -/
theorem tree_run (i : Index σ) (m : σ) (t : Node σ) (w : Write) :
    ((w.command i).run m t).tree = (i.applyAll m t w.path w.changes).tree := by
  have hone : ∀ c path, (i.applyAll m t path [c]).tree = (i.apply m t path c).tree := by
    intro c path
    rw [Index.applyAll]
    unfold Outcome.andThen
    cases (i.apply m t path c).answer with
    | ok _ => rfl
    | error e => rfl
  cases w with
  | insert path key => exact (Command.tree_silent _).trans (hone (.insert key) path).symm
  | remove path key => exact (Command.tree_silent _).trans (hone (.remove key) path).symm
  | update path before after => exact Command.tree_silent _

/-- a write to an index is one to its ledger -/
theorem matches_run (h : i.Fits t) (hs : i.Sound) (hL : L.Matches t) (m : σ) (w : Write) :
    (L.write i w).Matches ((w.command i).run m t).tree := by
  rw [tree_run]
  exact h.matches_applyAll hs hL m w.path w.changes

theorem matches_runAll (h : i.Fits t) (hs : i.Sound) (hL : L.Matches t) (ws : List (σ × Write)) :
    ((ws.map Prod.snd).foldl (Ledger.write i) L).Matches
      (Command.runAll t (ws.map fun x => (x.1, x.2.command i))) := by
  induction ws generalizing t L with
  | nil => exact hL
  | cons x ws ih => exact ih (fits_run h hs x.1 x.2) (matches_run h hs hL x.1 x.2)

/-- the ledger of some writes has the matches of the tree after them -/
theorem matches_tree (hs : i.Sound) (m₀ : σ) (ws : List (σ × Write)) :
    (ledger i (ws.map Prod.snd)).Matches (tree i m₀ ws) :=
  matches_runAll (.empty i m₀) hs (Ledger.matches_empty m₀) ws

end Write

/-! ## Answers -/

namespace Ledger

/-- the addresses under a key, name by name, a prefix before its extensions -/
def under (L : Ledger) (key : String) : List (List String) :=
  ((L.filter (·.1 = key)).image Prod.snd).sort (· ≤ ·)

/-- the paths under some keys, key by key, each where it comes first -/
def answer (L : Ledger) (ks : List String) : List String :=
  (ks.flatMap fun k => (L.under k).map Path.render).eraseDups

theorem mem_under {a : List String} : a ∈ L.under key ↔ (key, a) ∈ L := by
  unfold under
  rw [Finset.mem_sort, Finset.mem_image]
  constructor
  · intro ⟨p, hp, e⟩
    obtain ⟨hp, hk⟩ := Finset.mem_filter.1 hp
    rwa [← hk, ← e]
  · intro hp
    exact ⟨(key, a), Finset.mem_filter.2 ⟨hp, rfl⟩, rfl⟩

theorem under_pairwise (L : Ledger) (key : String) : (L.under key).Pairwise (· < ·) :=
  (Finset.sortedLT_sort _).pairwise

end Ledger

/-- the order in which an index lists its entries -/
def Index.direction (i : Index σ) : Direction :=
  match i with
  | .unordered => .ascending
  | .ordered o => o.direction

namespace Index.Fits

theorem sorted (h : i.Fits t) : t.Sorted := by
  cases i with
  | unordered => exact Bare.sorted h
  | ordered o =>
    obtain ⟨keys, hk⟩ := h
    exact hk.neat.sorted

/-- the paths under a key, in the order of their segments -/
theorem pathsBelow_eq (h : i.Fits t) (hL : L.Matches t) (key : String) :
    t.pathsBelow key = (L.under key).map Path.render := by
  rw [Node.pathsBelow_eq]
  congr 1
  cases hc : t.child? key with
  | none =>
    symm
    refine List.eq_nil_iff_forall_not_mem.2 ?_
    intro a ha
    exact not_hasMatch_of_none hc a ((hL key a).2 (Ledger.mem_under.1 ha))
  | some c =>
    have hs : c.Sorted := h.sorted.child? hc
    refine (pairwise_matchAddresses hs).eq_of_mem_iff (L.under_pairwise key) ?_
    intro a
    rw [mem_matchAddresses hs, Ledger.mem_under, ← hL, hasMatch_cons, hc]
    simp

/-- the entries are the keys of the ledger, in the order of the index -/
theorem entries_eq (h : i.Fits t) (hL : L.Matches t) :
    i.entries t = (L.sortedKeys i.direction).map t.item := by
  cases i with
  | unordered =>
    have hb : t.Bare := h
    have hnames : t.childNames = L.sortedKeys .ascending := by
      refine hb.childNames_pairwise.eq_of_mem_iff (L.sortedKeys_pairwise .ascending) ?_
      intro k
      rw [hb.mem_childNames, Ledger.mem_sortedKeys, Ledger.mem_keys]
      exact exists_congr (hL k)
    rw [hb.entries, hnames]
    rfl
  | ordered o =>
    have htracks : Tracks o.direction L t := ⟨h, hL⟩
    exact htracks.shows.entries

theorem query_keys (h : i.Fits t) (hL : L.Matches t) (ks : List String) :
    i.query t (some ks) = .ok (L.answer ks) := by
  rw [Index.query_keys, found_none]
  unfold Ledger.answer
  rw [funext (h.pathsBelow_eq hL)]

end Index.Fits

/-- **Queries are answered from the writes alone**: after every run the matches of the tree are the
pairs of the ledger of the writes; a query for keys, whatever they are, finds the paths under each
of them in turn, in the order of their segments, and every path where it comes first; and a query
for everything is one for all keys of the ledger, in the order of the index. -/
theorem Index.query_exact (order : Option Direction) (n : Nat) (m₀ : σ) (ws : List (σ × Write)) :
    let i : Index σ := .ofOrder order n
    let t := Write.tree i m₀ ws
    let L := Write.ledger i (ws.map Prod.snd)
    (∀ k a, t.HasMatch (k :: a) ↔ (k, a) ∈ L) ∧
      (∀ ks, i.query t (some ks) = .ok (L.answer ks)) ∧
      i.entries t = (L.sortedKeys i.direction).map t.item ∧
      i.query t none = i.query t (some (L.sortedKeys i.direction)) := by
  intro i t L
  have hs : i.Sound := sound_ofOrder order n
  have h : i.Fits t := Write.fits_runAll (.empty i m₀) hs ws
  have hL : L.Matches t := Write.matches_tree hs m₀ ws
  refine ⟨hL, h.query_keys hL, h.entries_eq hL, ?_⟩
  rw [Index.query_keys, query_entries (h.entries_eq hL)]

example : (Index.ofOrder (some .descending) 100 : Index Unit).query
      (Write.tree (.ofOrder (some .descending) 100) () [((), .insert "p/x" "a"),
        ((), .insert "q" "b"), ((), .insert "p" "b"), ((), .insert "p" "a")])
      (some ["a", "b", ":start", "a"])
    = .ok ["/p", "/p/x", "/q"] := by decide +kernel

end PropertyIndex
