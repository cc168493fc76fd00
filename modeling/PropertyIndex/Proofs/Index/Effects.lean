import PropertyIndex.Proofs.Index.Chained
import PropertyIndex.Proofs.Index.Removal

/-!
# What the writes of an ordered index come to

* `Chained.insert`        a match is added, under an entry that is there already or is linked;
* `Settled`               what is left of an entry below which something was taken out: it is kept,
                          or it was left empty and is unlinked;
* `Linked.settled`        what a write below an entry with a pointer comes to;
* `Chained.prune_entry`, `Chained.remove_entry`   pruning and removing settle the entry of a key;
* `Chained.prune_startName`   the head cannot be pruned, and nothing changes;
* `Settled.chained`       the chain stays whole.
-/

namespace PropertyIndex

variable {σ : Type} {m : σ} {d : Direction} {t t' : Node σ} {keys : List String} {key : String}
  {o : OrderedIndex σ} {c : Node σ}

namespace Node

/-! ## Adding a match -/

theorem prop?_grow_mark (m : σ) (path : List String) (n : Node σ) {name : String}
    (h : name ≠ matchName) :
    (n.grow m path (·.setProp matchName (.flag true))).prop? name = n.prop? name := by
  cases path with
  | nil => rw [grow_nil, prop?_setProp, if_neg h]
  | cons k path => rfl

theorem insert_ordered (o : OrderedIndex σ) (m : σ) (t : Node σ) (path key : String) :
    (Index.ordered o).insert m t path key = (o.fetch m t key).andThen fun t _ =>
      .done (t.grow m (key :: Path.segments path) (·.setProp matchName (.flag true))) := rfl

theorem insert_unusable (hu : ¬ Key.Usable key) (o : OrderedIndex σ) (m : σ) (t : Node σ)
    (path : String) : ∃ e : Error, e.kind = .invalidKey ∧
      (Index.ordered o).insert m t path key = .failed t e := by
  obtain ⟨e, hk, he⟩ := OrderedIndex.fetch_unusable hu o m t
  refine ⟨e, hk, ?_⟩
  rw [insert_ordered, he, Outcome.andThen_failed]

theorem Chained.insert (h : t.Chained o.direction keys) (hu : Key.Usable key) (m : σ)
    (path : String) : ∃ t' keys', (Index.ordered o).insert m t path key = .done t' ∧
      t'.Chained o.direction keys' ∧ (∀ k, k ∈ keys' ↔ k = key ∨ k ∈ keys) ∧
      (∀ k a, t'.HasMatch (k :: a) ↔
        (k = key ∧ a = Path.segments path) ∨ t.HasMatch (k :: a)) ∧ (t.Neat → t'.Neat) := by
  obtain ⟨t1, keys', hf, h1, hmem, hmatch, hneat⟩ := h.fetch hu m
  obtain ⟨c, hc⟩ := h1.exists_child ((hmem key).2 (.inl rfl))
  have hput := Put.grow m t1 key (Path.segments path) (·.setProp matchName (.flag true))
  rw [hc, Option.getD_some] at hput
  refine ⟨_, keys', ?_, h1.put hput hc hu.2.2 (prop?_grow_mark m _ c (by decide)), hmem,
    fun k a => ?_, fun hn => ?_⟩
  · rw [insert_ordered, hf, Outcome.andThen_done]
  · rw [hput.hasMatch, hasMatch_grow_mark]
    split
    · next e => rw [e, ← hmatch, hasMatch_cons (t := t1), hc]; simp
    · next e => rw [hmatch]; simp [e]
  · have hn1 := hneat hn
    exact hn1.put hput (Sorted.grow (hn1.sorted.child? hc) m _ fun _ hs => hs.setProp _ _)
      ((hn1.tidy key c hc).grow_mark m _).1

end Node

/-! ## What is left of an entry -/

open Node

/-- the outcomes of a write that leaves `r.1` of the entry of a key and says with `r.2` whether the
entry itself may be empty now -/
inductive Settled (m : σ) (t : Node σ) (keys : List String) (key : String) (r : Node σ × Bool) :
    Outcome σ Unit → Prop where
  | kept {t1 : Node σ} (hput : Put t key r.1 t1) (hocc : r.2 = true → r.1.occupied = true) :
      Settled m t keys key r (.done t1)
  | unlinked {t1 : Node σ} {pre post : List String} (hput : Put t key r.1 t1)
      (hocc : r.1.occupied = false) (hkeys : keys = pre ++ key :: post) :
      Settled m t keys key r
        (.done (t1.cut m (pre.getLastD startName) key (post.headD "")))

namespace Settled

variable {r : Node σ × Bool} {out : Outcome σ Unit}

theorem chained (h : Settled m t keys key r out) (ht : t.Chained d keys)
    (hc : t.child? key = some c) (hs : key ≠ startName)
    (hp : r.1.prop? nextName = c.prop? nextName) : ∃ t' keys', out = .done t' ∧
      t'.Chained d keys' ∧ (t.hasChild startName = true → t'.hasChild startName = true) := by
  cases h with
  | @kept t1 h1 _ => exact ⟨t1, keys, rfl, ht.put h1 hc hs hp, fun hstart => h1.hasChild hstart⟩
  | @unlinked t1 pre post h1 _ hkeys =>
    have ht1 := ht.put h1 hc hs hp
    rw [hkeys] at ht1
    refine ⟨_, pre ++ post, rfl, ht1.cut m, ?_⟩
    intro hstart
    have hstart1 := h1.hasChild hstart
    unfold hasChild at hstart1 ⊢
    rw [child?_cut, if_neg hs.symm]
    split
    · rfl
    · exact hstart1

end Settled

/-! ## Pruning -/

namespace Node

theorem prunePath_of_not_occupied {n : Node σ} (h : n.occupied = false) (m : σ)
    (path : List String) : n.prunePath m path = (n, true) := by
  cases path with
  | nil => rfl
  | cons name path =>
    have hc : n.child? name = none := by
      unfold child?
      rw [(occupied_eq_false_iff.1 h).2]
      rfl
    rw [prunePath, hc]

theorem Linked.unlink {pre post : List String} (h : t.Linked (pre ++ key :: post))
    (hl : o.lookup t key = .ok (some (pre.getLastD startName))) (m : σ) : o.unlink m t key
      = .done (t.cut m (pre.getLastD startName) key (post.headD "")) := by
  obtain ⟨_, c, hc⟩ := Trail.mem h (List.mem_append_right pre List.mem_cons_self)
  unfold OrderedIndex.unlink
  rw [hl, hc, Option.map_some, Option.getD_some, h.successor_eq hc]
  rfl

/-- an entry with a pointer is written to, and unlinked when that leaves it empty and the one before
it is found -/
theorem Linked.settled {r : Node σ × Bool} {t1 : Node σ} (h : t.Linked keys) (hk : key ∈ keys)
    (hc : t.child? key = some c) (hpointer : c.hasProp nextName = true)
    (hp : r.1.prop? nextName = c.prop? nextName) (hput : Put t key r.1 t1)
    (hl : ∀ pre post, keys = pre ++ key :: post →
      o.lookup t1 key = .ok (some (pre.getLastD startName))) (m : σ) :
    Settled m t keys key r
      (if (r.2 && !r.1.occupied) = true then (Index.ordered o).drop m t1 key else .done t1) := by
  have h1 := h.put hput hc hp
  by_cases hr : (r.2 && !r.1.occupied) = true
  · have hocc : r.1.occupied = false := by
      rw [Bool.and_eq_true, Bool.not_eq_true'] at hr
      exact hr.2
    have hpointer1 : r.1.hasProp nextName = true := by
      unfold hasProp
      rw [hp]
      exact hpointer
    obtain ⟨pre, post, hkeys⟩ := List.append_of_mem hk
    rw [if_pos hr, Index.drop_of_pointer hput.child_self hpointer1,
      Linked.unlink (hkeys ▸ h1) (hl pre post hkeys) m]
    exact .unlinked hput hocc hkeys
  · rw [if_neg hr]
    apply Settled.kept hput
    intro h2
    simpa [h2] using hr

namespace Chained

/-- an entry is written to, and unlinked when that leaves it empty -/
theorem settled {r : Node σ × Bool} {t1 : Node σ} (h : t.Chained o.direction keys)
    (ho : o.lookup.Sound o.direction) (hc : t.child? key = some c) (hs : key ≠ startName)
    (hp : r.1.prop? nextName = c.prop? nextName) (hput : Put t key r.1 t1) (m : σ) :
    Settled m t keys key r
      (if (r.2 && !r.1.occupied) = true then (Index.ordered o).drop m t1 key else .done t1) :=
  h.linked.settled (h.complete key c hc hs) hc (h.hasProp hc) hp hput
    (fun pre post e => (ho (h.put hput hc hs hp)).2 pre key post e) m

theorem prune_entry (h : t.Chained o.direction keys) (ho : o.lookup.Sound o.direction)
    (hc : t.child? key = some c) (hs : key ≠ startName) (m : σ) (segments : List String) :
    Settled m t keys key (c.prunePath m segments) (o.prune m t key segments) := by
  rw [← Index.prune_ordered, Index.prune_of_child? (.ordered o) hc]
  exact h.settled ho hc hs (prop?_prunePath m segments c nextName) (put_pruneEntry m segments hc) m

/-- pruning below an entry, or below the head, keeps the chain whole -/
theorem pruneEntry (h : t.Chained d keys) (m : σ) (key : String) (segments : List String) :
    (t.pruneEntry m key segments).1.Chained d keys := by
  cases hc : t.child? key with
  | none =>
    unfold Node.pruneEntry
    rw [hc]
    exact h
  | some c =>
    have hput := put_pruneEntry m segments hc
    by_cases hs : key = startName
    · -- there is nothing below the head
      subst hs
      rw [prunePath_of_not_occupied (h.head c hc)] at hput
      apply h.congr
      intro k
      rw [hput.child]
      split
      · next e => rw [e, hc]
      · rfl
    · exact h.put hput hc hs (prop?_prunePath m segments c nextName)

/-- nothing comes before the head, so it cannot be pruned -/
theorem prune_startName (h : t.Chained o.direction keys) (ho : o.lookup.Sound o.direction)
    (hc : t.child? startName = some c) (m : σ) (segments : List String) :
    ∃ t', o.prune m t startName segments
        = .failed t' (.corruption (.unreachable startName)) ∧
      t'.forget = t.forget ∧ t'.Chained o.direction keys := by
  have hocc := h.head c hc
  have hpath := prunePath_of_not_occupied hocc m segments
  have hput := put_pruneEntry m segments hc
  rw [hpath] at hput
  have h1 := h.pruneEntry m startName segments
  refine ⟨(t.pruneEntry m startName segments).1, ?_, ?_, h1⟩
  · rw [← Index.prune_ordered, Index.prune_of_child? (.ordered o) hc, hpath, hocc,
      Bool.not_false, Bool.and_true, if_pos rfl,
      Index.drop_of_pointer hput.child_self (h.hasProp hc), OrderedIndex.unlink, (ho h1).1]
  · rw [pruneEntry_of_child? m segments hc, hpath]
    dsimp only
    split
    · rfl
    · exact forget_put m hc rfl

end Chained

end Node

/-! ## Taking out a match -/

theorem remove_startName (o : OrderedIndex σ) (m : σ) (t : Node σ) (path : String) :
    (Index.ordered o).remove m t path startName = .failed t (.reservedKey startName) := rfl

theorem isReserved_ordered (o : OrderedIndex σ) (hs : key ≠ startName) :
    (Index.ordered o).isReserved key = false := by
  simpa [Index.isReserved] using hs

namespace Node.Chained

theorem remove_entry (h : t.Chained o.direction keys) (ho : o.lookup.Sound o.direction)
    (hc : t.child? key = some c) (hs : key ≠ startName) (m : σ) (path : String) :
    Settled m t keys key (c.unmark m (Path.segments path))
      ((Index.ordered o).remove m t path key) := by
  obtain ⟨t1, hput, he⟩ := Index.remove_of_child? _ (isReserved_ordered o hs) hc m path
  rw [he]
  exact h.settled ho hc hs (prop?_unmark m _ c (by decide)) hput m

end Node.Chained

end PropertyIndex
