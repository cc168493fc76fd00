import PropertyIndex.Proofs.Index.Ledger
import PropertyIndex.Proofs.Index.Unordered
import PropertyIndex.Proofs.Match.Gathered

/-!
# An ordered index and an unordered one

The chain is only for the order of the entries.  An ordered index and an unordered one that are
written to in the same way hold the same matches, answer every write in the same way, and answer
every question in the same way, up to the order in which all paths are listed.

* `Node.unchained`    the tree of an ordered index without its chain;
* `Mirrors`           an ordered index and an unordered one that hold the same matches and nothing
                      else;
* `Write.alike`       one write to both;
* `SameView`          what both show;
* `Write.ordered_like_unordered`   they show the same after every run, and answer the next write in
                      the same way.
-/

namespace PropertyIndex

variable {σ : Type} {d : Direction} {t u : Node σ} {o : OrderedIndex σ} {α β : Type}

open Node

/-! ## A tree without its chain -/

namespace Node

/-- the tree without the head, and without the pointers of the other children -/
def unchained (t : Node σ) : Node σ :=
  ⟨t.mark, t.props, (t.children.erase startName).map fun p => (p.1, p.2.removeProp nextName)⟩

theorem child?_unchained (t : Node σ) (k : String) : t.unchained.child? k
    = if k = startName then none else (t.child? k).map (·.removeProp nextName) := by
  have h : t.unchained.child? k
      = (SortedMap.get? k (t.children.erase startName)).map (·.removeProp nextName) :=
    SortedMap.get?_map _ k _
  rw [h, SortedMap.get?_erase]
  split <;> rfl

theorem Sorted.unchained (h : t.Sorted) : t.unchained.Sorted := by
  refine .of_child? h.props_sorted ?_ ?_
  · exact List.pairwise_map.2 (h.children_sorted.erase startName)
  · intro k c hc
    rw [child?_unchained] at hc
    split at hc
    · cases hc
    · obtain ⟨d, hd, rfl⟩ := Option.map_eq_some_iff.1 hc
      exact (h.child? hd).removeProp nextName

theorem matched_removeProp_next (n : Node σ) : (n.removeProp nextName).matched = n.matched := by
  rw [Bool.eq_iff_iff, matched_iff, matched_iff, prop?_removeProp, if_neg (by decide)]

theorem hasMatch_removeProp_next (n : Node σ) (a : List String) :
    (n.removeProp nextName).HasMatch a ↔ n.HasMatch a := by
  cases a with
  | nil => rw [hasMatch_nil, hasMatch_nil, matched_removeProp_next]
  | cons k a => rw [hasMatch_cons, hasMatch_cons, child?_removeProp]

theorem Tidy.removeProp_next {n : Node σ} (h : n.Tidy [nextName]) :
    (n.removeProp nextName).Tidy [] := by
  refine .of_child ?_ fun k c hc => h.child hc
  intro name v hv
  rw [prop?_removeProp] at hv
  split at hv
  · cases hv
  · next hne => exact .inr ((h.prop hv).resolve_left (by simpa using hne))

/-! ## What a search finds in it -/

mutual

theorem matchAddresses_forget : ∀ n : Node σ, n.forget.matchAddresses = n.matchAddresses
  | ⟨m, ps, cs⟩ => by
    have h : matched ⟨(), ps, forgetAll cs⟩ = matched ⟨m, ps, cs⟩ := rfl
    rw [forget, matchAddresses, matchAddresses, matchAddressesAll_forget cs, h]

theorem matchAddressesAll_forget : ∀ cs : List (String × Node σ),
    matchAddressesAll (forgetAll cs) = matchAddressesAll cs
  | [] => rfl
  | (k, n) :: r => by
    rw [forgetAll, matchAddressesAll, matchAddressesAll, matchAddresses_forget n,
      matchAddressesAll_forget r]

end

theorem matchAddresses_removeProp_next (n : Node σ) :
    (n.removeProp nextName).matchAddresses = n.matchAddresses := by
  have h := matched_removeProp_next n
  obtain ⟨m, ps, cs⟩ := n
  show matchAddresses ⟨m, SortedMap.erase nextName ps, cs⟩ = _
  have h' : matched ⟨m, SortedMap.erase nextName ps, cs⟩ = matched ⟨m, ps, cs⟩ := h
  rw [matchAddresses, matchAddresses, h']

theorem pathsBelow_eq (t : Node σ) (k : String) : t.pathsBelow k
    = (((t.child? k).map matchAddresses).getD []).map Path.render := rfl

theorem pathsBelow_forget (t : Node σ) (k : String) : t.forget.pathsBelow k = t.pathsBelow k := by
  rw [pathsBelow_eq, pathsBelow_eq, child?_forget, Option.map_map]
  congr 2
  congr 1
  funext n
  exact matchAddresses_forget n

theorem pathsBelow_unchained {k : String} (hk : k ≠ startName) (t : Node σ) :
    t.unchained.pathsBelow k = t.pathsBelow k := by
  rw [pathsBelow_eq, pathsBelow_eq, child?_unchained, if_neg hk, Option.map_map]
  congr 2
  congr 1
  funext n
  exact matchAddresses_removeProp_next n

end Node

/-! ## One step of both -/

/-- an ordered index and an unordered one that hold the same matches and nothing else -/
structure Mirrors (d : Direction) (t u : Node σ) : Prop where
  kept : ∃ keys, t.Kept d keys
  bare : u.Bare
  same : ∀ k a, t.HasMatch (k :: a) ↔ u.HasMatch (k :: a)

/-- outcomes with the same answer that leave such indexes -/
structure Alike (d : Direction) (out out' : Outcome σ α) : Prop where
  mirrors : Mirrors d out.tree out'.tree
  answer : out.answer = out'.answer

namespace Alike

theorem failed (h : Mirrors d t u) (e : Error) :
    Alike d (.failed t e : Outcome σ α) (.failed u e) := ⟨h, rfl⟩

theorem andThen {out out' : Outcome σ α} {f g : Node σ → α → Outcome σ β} (h : Alike d out out')
    (hfg : ∀ t u a, Mirrors d t u → Alike d (f t a) (g u a)) :
    Alike d (out.andThen f) (out'.andThen g) := by
  obtain ⟨hm, ha⟩ := h
  unfold Outcome.andThen
  rw [← ha]
  cases out.answer with
  | ok a => exact hfg _ _ a hm
  | error e => exact .failed hm e

theorem silent {out out' : Outcome σ Unit} (h : Alike d out out') :
    Alike d (Command.silent out) (Command.silent out') :=
  h.andThen fun _ _ _ hm => ⟨hm, rfl⟩

end Alike

namespace Mirrors

theorem empty (d : Direction) (m m' : σ) : Mirrors d (.empty m) (.empty m') where
  kept := ⟨[], .empty d m⟩
  bare := .empty m'
  same k a := by simp [not_hasMatch_empty]

theorem insert_alike (h : Mirrors o.direction t u) {key : String} (hs : key ≠ startName)
    (m m' : σ) (path : String) : Alike o.direction ((Index.ordered o).insert m t path key)
      (Index.unordered.insert m' u path key) := by
  obtain ⟨⟨keys, hk⟩, hb, hsame⟩ := h
  cases hc : Key.check key with
  | error e =>
    have ht : (Index.ordered o).insert m t path key = .failed t e := by
      rw [insert_ordered, OrderedIndex.fetch, hc]
      rfl
    have hu : Index.unordered.insert m' u path key = .failed u e := by
      unfold Index.insert Index.fetch
      rw [hc]
      rfl
    rw [ht, hu]
    exact .failed ⟨⟨keys, hk⟩, hb, hsame⟩ e
  | ok _ =>
    obtain ⟨h1, h2⟩ := Key.check_eq_ok_iff.1 hc
    obtain ⟨t', keys', ht, hk', hm⟩ := hk.insert ⟨h1, h2, hs⟩ m path
    obtain ⟨u', hu, hb', hm'⟩ := hb.insert hc m' path
    rw [ht, hu]
    refine ⟨⟨⟨keys', hk'⟩, hb', ?_⟩, rfl⟩
    intro k a
    rw [Outcome.tree_done, Outcome.tree_done, hm, hm', hsame]

theorem remove_alike (h : Mirrors o.direction t u) (ho : o.lookup.Sound o.direction)
    {key : String} (hs : key ≠ startName) (m m' : σ) (path : String) :
    Alike o.direction ((Index.ordered o).remove m t path key)
      (Index.unordered.remove m' u path key) := by
  obtain ⟨⟨keys, hk⟩, hb, hsame⟩ := h
  obtain ⟨t', keys', ht, hk', hm⟩ := hk.remove ho hs m path
  obtain ⟨u', hu, hb', hm'⟩ := hb.remove m' path key
  rw [ht, hu]
  refine ⟨⟨⟨keys', hk'⟩, hb', ?_⟩, rfl⟩
  intro k a
  rw [Outcome.tree_done, Outcome.tree_done, hm, hm', hsame]

end Mirrors

def Change.key : Change → String
  | .insert key => key
  | .remove key => key

theorem Change.key_of (before : List String) (key : String) : (of before key).key = key := by
  unfold of
  split <;> rfl

theorem Change.key_mem_of_mem_between {before after : List String} {c : Change}
    (h : c ∈ between before after) : c.key ∈ before ++ after := by
  rw [between_eq] at h
  obtain ⟨k, hk, rfl⟩ := List.mem_map.1 h
  rw [key_of]
  rw [Finset.mem_sort, Finset.mem_symmDiff, List.mem_toFinset, List.mem_toFinset] at hk
  rw [List.mem_append]
  exact hk.imp And.left And.left

/-- the steps of an update come to the same one by one, up to the first that fails -/
theorem Mirrors.applyAll_alike (h : Mirrors o.direction t u) (ho : o.lookup.Sound o.direction)
    (m m' : σ) (path : String) {cs : List Change} (hcs : ∀ c ∈ cs, c.key ≠ startName) :
    Alike o.direction ((Index.ordered o).applyAll m t path cs)
      (Index.unordered.applyAll m' u path cs) := by
  induction cs generalizing t u with
  | nil => exact ⟨h, rfl⟩
  | cons c cs ih =>
    have hstep : Alike o.direction ((Index.ordered o).apply m t path c)
        (Index.unordered.apply m' u path c) := by
      have hc := hcs c List.mem_cons_self
      cases c with
      | insert key => exact h.insert_alike hc m m' path
      | remove key => exact h.remove_alike ho hc m m' path
    exact hstep.andThen fun _ _ _ hm => ih hm fun c hc => hcs c (List.mem_cons_of_mem _ hc)

/-! ## Runs of both -/

namespace Write

/-- the keys that a write names -/
def keys : Write → List String
  | .insert _ key => [key]
  | .remove _ key => [key]
  | .update _ before after => before ++ after

/-- the tree after some writes to an empty index -/
def tree (i : Index σ) (m₀ : σ) (ws : List (σ × Write)) : Node σ :=
  Command.runAll (.empty m₀) (ws.map fun x => (x.1, x.2.command i))

theorem alike (h : Mirrors o.direction t u) (ho : o.lookup.Sound o.direction) (m m' : σ)
    {w : Write} (hw : startName ∉ w.keys) : Alike o.direction
      ((w.command (.ordered o)).run m t) ((w.command .unordered).run m' u) := by
  cases w with
  | insert path key =>
    have hs : key ≠ startName := fun e => hw (List.mem_singleton.2 e.symm)
    exact (h.insert_alike hs m m' path).silent
  | remove path key =>
    have hs : key ≠ startName := fun e => hw (List.mem_singleton.2 e.symm)
    exact (h.remove_alike ho hs m m' path).silent
  | update path before after =>
    refine (h.applyAll_alike ho m m' path ?_).silent
    intro c hc e
    exact hw (e ▸ Change.key_mem_of_mem_between hc)

theorem mirrors_runAll (h : Mirrors o.direction t u) (ho : o.lookup.Sound o.direction)
    {ws ws' : List (σ × Write)} (hws : ws.map Prod.snd = ws'.map Prod.snd)
    (hk : ∀ x ∈ ws, startName ∉ x.2.keys) : Mirrors o.direction
      (Command.runAll t (ws.map fun x => (x.1, x.2.command (.ordered o))))
      (Command.runAll u (ws'.map fun x => (x.1, x.2.command .unordered))) := by
  induction ws generalizing t u ws' with
  | nil =>
    obtain rfl : ws' = [] := by simpa using hws.symm
    exact h
  | cons x ws ih =>
    cases ws' with
    | nil => cases hws
    | cons x' ws' =>
      rw [List.map_cons, List.map_cons, List.cons.injEq] at hws
      rw [List.map_cons, List.map_cons, Command.runAll_cons, Command.runAll_cons, ← hws.1]
      exact ih (alike h ho x.1 x'.1 (hk x List.mem_cons_self)).mirrors hws.2
        fun y hy => hk y (List.mem_cons_of_mem x hy)

end Write

/-! ## What both show -/

/-- the trees are the same but for the chain, and so is what is contained, found and counted; all
paths come in the same order when the chain ascends -/
structure SameView (o : OrderedIndex σ) (t u : Node σ) : Prop where
  tree : t.unchained.forget = u.forget
  contains : ∀ k, (Index.ordered o).containsKey t k = Index.unordered.containsKey u k
  query_keys : ∀ ks, (Index.ordered o).query t (some ks) = Index.unordered.query u (some ks)
  count_keys : ∀ ks max,
    (Index.ordered o).count t (some ks) max = Index.unordered.count u (some ks) max
  count_all : ∀ max, (Index.ordered o).count t none max = Index.unordered.count u none max
  query_all : ∃ ps qs, (Index.ordered o).query t none = .ok ps ∧
    Index.unordered.query u none = .ok qs ∧ ps.Perm qs ∧ (o.direction = .ascending → ps = qs)

namespace Mirrors

/-- the head holds no matches, so the other index has no such child -/
theorem child?_startName (h : Mirrors d t u) : u.child? startName = none := by
  obtain ⟨keys, hk⟩ := h.kept
  rw [← hasChild_eq_false_iff, ← Bool.not_eq_true, h.bare.hasChild_iff]
  intro hx
  obtain ⟨a, ha⟩ := hx
  exact hk.ne_startName (hk.mem_of_hasMatch ((h.same startName a).2 ha)) rfl

theorem hasChild_eq (h : Mirrors d t u) {k : String} (hs : k ≠ startName) :
    t.hasChild k = u.hasChild k := by
  obtain ⟨keys, hk⟩ := h.kept
  rw [Bool.eq_iff_iff, hk.hasChild_iff_hasMatch hs, h.bare.hasChild_iff]
  exact exists_congr (h.same k)

theorem forget_child_eq (h : Mirrors d t u) {k : String} {c c' : Node σ}
    (hc : t.child? k = some c) (hc' : u.child? k = some c') :
    (c.removeProp nextName).forget = c'.forget := by
  obtain ⟨keys, hk⟩ := h.kept
  have hbelow : ∀ a, (c.removeProp nextName).HasMatch a ↔ c'.HasMatch a := by
    intro a
    have hka := h.same k a
    rw [hasMatch_cons, hasMatch_cons, hc, hc'] at hka
    rw [hasMatch_removeProp_next]
    simpa using hka
  exact (hk.neat.tidy k c hc).removeProp_next.forget_eq (h.bare.tidy.child hc').2
    ((hk.neat.sorted.child? hc).removeProp nextName) (h.bare.sorted.child? hc') List.not_mem_nil
    (fun _ hn => absurd hn List.not_mem_nil) hbelow

theorem unchained_eq (h : Mirrors d t u) : t.unchained.forget = u.forget := by
  obtain ⟨keys, hk⟩ := h.kept
  refine forget_eq_of_children hk.neat.sorted.unchained h.bare.sorted
    (hk.neat.props.trans h.bare.props.symm) ?_
  intro k
  rw [child?_unchained]
  by_cases hs : k = startName
  · rw [if_pos hs, hs, h.child?_startName]
  · have hchild := h.hasChild_eq hs
    unfold hasChild at hchild
    rw [if_neg hs]
    cases hc : t.child? k with
    | none =>
      rw [hc] at hchild
      rw [Option.isSome_eq_false_iff.1 hchild.symm |> Option.isNone_iff_eq_none.1]
      rfl
    | some c =>
      rw [hc] at hchild
      obtain ⟨c', hc'⟩ := Option.isSome_iff_exists.1 hchild.symm
      rw [hc', Option.map_some, Option.map_some, Option.map_some, h.forget_child_eq hc hc']

theorem pathsBelow_eq (h : Mirrors d t u) (k : String) : t.pathsBelow k = u.pathsBelow k := by
  obtain ⟨keys, hk⟩ := h.kept
  by_cases hs : k = startName
  · have hnil : ∀ n : Node σ, n.Sorted → (∀ a, ¬ n.HasMatch (k :: a)) → n.pathsBelow k = [] := by
      intro n hn hno
      rw [List.eq_nil_iff_forall_not_mem]
      intro x hx
      obtain ⟨a, ha, _⟩ := (mem_pathsBelow hn).1 hx
      exact hno a ha
    have hno : ∀ a, ¬ t.HasMatch (k :: a) :=
      fun a ha => hk.ne_startName (hk.mem_of_hasMatch ha) hs
    rw [hnil t hk.neat.sorted hno, hnil u h.bare.sorted fun a ha => hno a ((h.same k a).2 ha)]
  · rw [← pathsBelow_unchained hs, ← pathsBelow_forget, h.unchained_eq, pathsBelow_forget]

theorem found_eq (h : Mirrors d t u) (limit : Option Nat) (ks : List String) :
    t.found limit ks = u.found limit ks := by
  unfold found
  rw [funext h.pathsBelow_eq]

theorem contains_eq (h : Mirrors o.direction t u) (k : String) :
    (Index.ordered o).containsKey t k = Index.unordered.containsKey u k := by
  obtain ⟨keys, hk⟩ := h.kept
  have hu : Index.unordered.containsKey u k = u.hasChild k := rfl
  rw [Bool.eq_iff_iff, hk.containsKey_iff, hu, h.bare.hasChild_iff, hk.mem_iff]
  exact exists_congr (h.same k)

/-- the keys of the chain are the children of the unordered index, in the order of the direction -/
theorem keys_perm {keys : List String} (h : Mirrors d t u) (hk : t.Kept d keys) :
    keys.Perm u.childNames ∧ (d = .ascending → keys = u.childNames) := by
  have hmem : ∀ k, k ∈ keys ↔ k ∈ u.childNames := by
    intro k
    rw [hk.mem_iff, h.bare.mem_childNames]
    exact exists_congr (h.same k)
  have hsorted : u.childNames.Pairwise (· < ·) := h.bare.childNames_pairwise
  constructor
  · exact (List.perm_ext_iff_of_nodup hk.soundChain.nodup (hsorted.imp fun hlt => ne_of_lt hlt)).2
      hmem
  · rintro rfl
    exact List.Pairwise.eq_of_mem_iff hk.ordered hsorted hmem

theorem sameView (h : Mirrors o.direction t u) : SameView o t u := by
  obtain ⟨keys, hk⟩ := h.kept
  obtain ⟨hperm, hasc⟩ := h.keys_perm hk
  have ht : (Index.ordered o).entries t = keys.map t.item := chain_of_linked hk.linked
  have hu : Index.unordered.entries u = u.childNames.map u.item := h.bare.entries
  have hfound : (t.found none keys).Perm (u.found none u.childNames) := by
    rw [h.found_eq, List.perm_ext_iff_of_nodup (nodup_found u none keys) (nodup_found u none _)]
    intro x
    rw [mem_found, mem_found]
    exact exists_congr fun k => and_congr_left' hperm.mem_iff
  refine ⟨h.unchained_eq, h.contains_eq, ?_, ?_, ?_, ?_⟩
  · intro ks
    rw [Index.query_keys, Index.query_keys, h.found_eq]
  · intro ks max
    rw [Index.count_keys, Index.count_keys, h.found_eq]
  · intro max
    rw [Index.count_entries ht, Index.count_entries hu, hfound.length_eq]
  · refine ⟨_, _, Index.query_entries ht, Index.query_entries hu, hfound, ?_⟩
    intro hd
    rw [h.found_eq, hasc hd]

end Mirrors

/-- **An ordered index is an unordered one with a chain**: after the same writes to both, of keys
other than the name of the head, the next write is answered in the same way, and both show the
same. -/
theorem Write.ordered_like_unordered (d : Direction) (n : Nat) (m₀ m₀' : σ)
    {ws ws' : List (σ × Write)} (hws : ws.map Prod.snd = ws'.map Prod.snd)
    (hk : ∀ x ∈ ws, startName ∉ x.2.keys) :
    let o : OrderedIndex σ := .scanning d n
    let t := tree (.ordered o) m₀ ws
    let u := tree .unordered m₀' ws'
    SameView o t u ∧ ∀ m m' (w : Write), startName ∉ w.keys →
      ((w.command (.ordered o)).run m t).answer = ((w.command .unordered).run m' u).answer := by
  intro o t u
  have ho : o.lookup.Sound o.direction := Lookup.sound_scan d
  have h0 : Mirrors o.direction (.empty m₀) (.empty m₀') := .empty d m₀ m₀'
  have h : Mirrors o.direction t u := mirrors_runAll h0 ho hws hk
  exact ⟨h.sameView, fun m m' w hw => (alike h ho m m' hw).answer⟩

theorem Write.ordered_like_unordered_refused_key :
    let o : OrderedIndex Unit := .scanning .descending 100
    let ws : List (Unit × Write) := [((), .insert "p" "b"),
      ((), .update "p/q" [] ["a", "no/key", "z"]), ((), .remove "p" "b")]
    (∀ x ∈ ws, startName ∉ x.2.keys) ∧
      SameView o (tree (.ordered o) () ws) (tree .unordered () ws) := by
  intro o ws
  have hk : ∀ x ∈ ws, startName ∉ x.2.keys := by decide
  exact ⟨hk, (ordered_like_unordered .descending 100 () () rfl hk).1⟩

end PropertyIndex
