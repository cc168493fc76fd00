import PropertyIndex.Proofs.Index.Closed
import PropertyIndex.Workspace

/-!
# Shared child maps are equal

A write copies a child map before it changes it, so it never changes one that a snapshot shares.  In
terms of stamps: a node keeps its mark only as long as it keeps its child map, and no mark is used
again for another one.

* `Node.CopyOnWrite`        every node is marked by the write, or still has the child map it had;
* `writeClosed_copyOnWrite` every elementary write is of that kind, so every command is;
* `Workspace.Consistent`    one address and one mark belong to one child map;
* `Consistent.step`, `Consistent.run`   one request keeps this, and so does every run;
* `Workspace.shared_children_equal`     nodes that share a child map have equal ones.
-/

namespace PropertyIndex

variable {σ : Type} {m : σ} {t t' t'' c c' : Node σ} {key : String}

namespace Node

/-! ## Copying on writes -/

/-- every node of the second tree is marked, or it has the child map and the mark that the node at
its address has in the first tree -/
def CopyOnWrite (m : σ) (t t' : Node σ) : Prop :=
  ∀ a n', t'.at? a = some n' → n'.mark = m ∨
    ∃ n, t.at? a = some n ∧ n.mark = n'.mark ∧ n.children = n'.children

namespace CopyOnWrite

theorem refl (m : σ) (t : Node σ) : CopyOnWrite m t t :=
  fun _ n hn => .inr ⟨n, hn, rfl, rfl⟩

theorem trans (h : CopyOnWrite m t t') (h' : CopyOnWrite m t' t'') : CopyOnWrite m t t'' := by
  intro a n'' hn''
  rcases h' a n'' hn'' with hm | ⟨n', hn', hm', hc'⟩
  · exact .inl hm
  · rcases h a n' hn' with hm | ⟨n, hn, hm, hc⟩
    · exact .inl (hm'.symm.trans hm)
    · exact .inr ⟨n, hn, hm.trans hm', hc.trans hc'⟩

/-- a node without children has no node below it -/
theorem of_empty (m : σ) (t : Node σ) : CopyOnWrite m t (empty m) := by
  intro a n hn
  cases a with
  | nil => cases hn; exact .inl rfl
  | cons k a => cases hn

theorem of_same (hm : t'.mark = t.mark) (hc : t'.children = t.children) :
    CopyOnWrite m t t' := by
  intro a n hn
  cases a with
  | nil =>
    cases hn
    exact .inr ⟨t, rfl, hm.symm, hc.symm⟩
  | cons k a =>
    refine .inr ⟨n, ?_, rfl, rfl⟩
    rw [at?_cons] at hn ⊢
    unfold child? at hn ⊢
    rwa [← hc]

/-- a marked node has children that are what a write left of the old ones, or of new ones -/
theorem of_marked (hm : t'.mark = m) (hc : ∀ k c', t'.child? k = some c' →
    CopyOnWrite m ((t.child? k).getD (empty m)) c') : CopyOnWrite m t t' := by
  intro a n' hn'
  cases a with
  | nil => cases hn'; exact .inl hm
  | cons k a =>
    obtain ⟨c', hc', hn'⟩ := Option.bind_eq_some_iff.1 hn'
    rcases hc k c' hc' a n' hn' with hm | ⟨n, hn, hmark, hchildren⟩
    · exact .inl hm
    · cases hk : t.child? k with
      | some c =>
        rw [hk] at hn
        exact .inr ⟨n, by rw [at?_cons, hk]; exact hn, hmark, hchildren⟩
      | none =>
        -- the child was created by the write
        rw [hk] at hn
        cases a with
        | nil => cases hn; exact .inl hmark.symm
        | cons j a => cases hn

theorem of_child? {k : String} (hc : t.child? k = some c) :
    CopyOnWrite m ((t.child? k).getD (empty m)) c := by
  rw [hc]
  exact refl m c

theorem removeChild (m : σ) (name : String) (t : Node σ) :
    CopyOnWrite m t (t.removeChild m name) := by
  cases h : t.hasChild name with
  | false =>
    unfold Node.removeChild
    rw [h]
    exact refl m t
  | true =>
    refine of_marked ?_ ?_
    · unfold Node.removeChild
      rw [h]
      rfl
    · intro k c' hc'
      rw [child?_removeChild] at hc'
      split at hc'
      · cases hc'
      · exact of_child? hc'

theorem grow {f : Node σ → Node σ} (hf : ∀ n, CopyOnWrite m n (f n)) (path : List String)
    (t : Node σ) : CopyOnWrite m t (t.grow m path f) := by
  induction path generalizing t with
  | nil => exact hf t
  | cons name path ih =>
    refine of_marked rfl ?_
    intro k c' hc'
    rw [child?_grow] at hc'
    split at hc'
    · next e =>
      cases hc'
      rw [e]
      exact ih _
    · exact of_child? hc'

/-- a child is replaced by what a write left of it -/
theorem edit_child {f : Node σ → Node σ} {path : List String} (m : σ) (t : Node σ)
    (hf : ∀ c, t.child? key = some c → CopyOnWrite m c (c.edit m path f)) :
    CopyOnWrite m t (t.edit m (key :: path) f) := by
  cases h : t.hasChild key with
  | false =>
    unfold Node.edit
    rw [h]
    exact refl m t
  | true =>
    refine of_marked ?_ ?_
    · unfold Node.edit
      rw [h]
      rfl
    · intro k c' hc'
      rw [child?_edit] at hc'
      split at hc'
      · next e =>
        obtain ⟨c, hc, rfl⟩ := Option.map_eq_some_iff.1 hc'
        rw [e, hc]
        exact hf c hc
      · exact of_child? hc'

theorem edit {f : Node σ → Node σ} (hf : ∀ n, CopyOnWrite m n (f n)) (path : List String)
    (t : Node σ) : CopyOnWrite m t (t.edit m path f) := by
  induction path generalizing t with
  | nil => exact hf t
  | cons name path ih => exact edit_child m t fun c _ => ih c

theorem prunePath (m : σ) (path : List String) (t : Node σ) :
    CopyOnWrite m t (t.prunePath m path).1 := by
  induction path generalizing t with
  | nil => exact refl m t
  | cons name path ih =>
    rw [Node.prunePath]
    split
    · exact refl m t
    · next c hc =>
      dsimp only
      split
      · exact removeChild m name t
      · split
        · exact refl m t
        · refine edit_child m t fun c' hc' => ?_
          rw [hc] at hc'
          cases hc'
          exact ih c

theorem pruneEntry (m : σ) (key : String) (segments : List String) (t : Node σ) :
    CopyOnWrite m t (t.pruneEntry m key segments).1 := by
  cases hc : t.child? key with
  | none =>
    unfold Node.pruneEntry
    rw [hc]
    exact refl m t
  | some c =>
    rw [pruneEntry_of_child? m segments hc]
    dsimp only
    split
    · exact refl m t
    · refine edit_child m t fun c' hc' => ?_
      rw [hc] at hc'
      cases hc'
      exact prunePath m segments c

end CopyOnWrite

end Node

open Node

theorem writeClosed_copyOnWrite (m : σ) : WriteClosed m (CopyOnWrite m) where
  refl := .refl m
  trans := .trans
  setProp _ _ _ := .of_same rfl rfl
  removeProp _ _ := .of_same rfl rfl
  removeChild := .removeChild m
  grow path _ hf := .grow hf path
  edit path _ hf := .edit hf path
  pruneEntry := .pruneEntry m

/-! ## One address and one mark, one child map -/

namespace Workspace

variable {w : Workspace} {name : String}

/-- marks are older than the next request, and nodes at one address with one mark have one child
map, in whatever trees they are -/
structure Consistent (w : Workspace) : Prop where
  old : ∀ {x t a n}, w.trees.get? x = some t → t.at? a = some n → n.mark < w.epoch
  equal : ∀ {x y t t' a n n'}, w.trees.get? x = some t → w.trees.get? y = some t' →
    t.at? a = some n → t'.at? a = some n' → n.mark = n'.mark → n.children = n'.children

theorem tree_eq_some {t : Node Nat} (h : w.trees.get? name = some t) : w.tree name = t := by
  unfold tree
  rw [h]
  rfl

theorem tree_eq_none (h : w.trees.get? name = none) : w.tree name = .empty w.epoch := by
  unfold tree
  rw [h]
  rfl

theorem get?_set (w : Workspace) (name x : String) (t : Node Nat) :
    (w.set name t).trees.get? x = if x = name then some t else w.trees.get? x :=
  SortedMap.get?_put name t w.trees x

namespace Consistent

theorem start (name : String) : (start name).Consistent := by
  have hempty : ∀ {x t a n}, (Workspace.start name).trees.get? x = some t → t.at? a = some n →
      a = [] ∧ n = .empty 0 := by
    intro x t a n ht hn
    obtain ⟨-, rfl⟩ := Prod.mk.inj (List.mem_singleton.1 (SortedMap.mem_of_get? ht))
    cases a with
    | nil => cases hn; exact ⟨rfl, rfl⟩
    | cons k a => cases hn
  refine ⟨?_, ?_⟩
  · intro x t a n ht hn
    rw [(hempty ht hn).2]
    exact Nat.one_pos
  · intro x y t t' a n n' ht ht' hn hn' _
    rw [(hempty ht hn).2, (hempty ht' hn').2]

/-- what stands in a workspace is marked by the next request nowhere but in a tree that is not there
yet -/
theorem old_or_missing (h : w.Consistent) {x : String} {a : List String} {n : Node Nat}
    (hn : (w.tree x).at? a = some n) :
    (∃ t, w.trees.get? x = some t ∧ t.at? a = some n ∧ n.mark < w.epoch) ∨
      a = [] ∧ n = .empty w.epoch := by
  cases ht : w.trees.get? x with
  | some t =>
    rw [tree_eq_some ht] at hn
    exact .inl ⟨t, rfl, hn, h.old ht hn⟩
  | none =>
    rw [tree_eq_none ht] at hn
    cases a with
    | nil => cases hn; exact .inr ⟨rfl, rfl⟩
    | cons k a => cases hn

/-- a tree that was copied on writes from one that is there may be put under any name -/
theorem set (h : w.Consistent) {s : String} {t' : Node Nat}
    (hcow : CopyOnWrite w.epoch (w.tree s) t') (name : String) : (w.set name t').Consistent := by
  -- a node of the new tree is new, or it is one of the tree that it was copied from
  have hnew : ∀ {a n}, t'.at? a = some n → n.mark = w.epoch ∨
      ∃ t n₀, w.trees.get? s = some t ∧ t.at? a = some n₀ ∧ n₀.mark = n.mark ∧
        n₀.children = n.children := by
    intro a n hn
    rcases hcow a n hn with hm | ⟨n₀, hn₀, hm, hc⟩
    · exact .inl hm
    · rcases h.old_or_missing hn₀ with ⟨t, ht, hn₀, _⟩ | ⟨_, rfl⟩
      · exact .inr ⟨t, n₀, ht, hn₀, hm, hc⟩
      · exact .inl hm.symm
  -- so it has the child map of an old node with its mark
  have hequal : ∀ {y t a n n'}, w.trees.get? y = some t → t'.at? a = some n →
      t.at? a = some n' → n.mark = n'.mark → n.children = n'.children := by
    intro y t a n n' ht hn hn' hmark
    rcases hnew hn with hm | ⟨t₀, n₀, ht₀, hn₀, hm₀, hc₀⟩
    · have hold := h.old ht hn'
      rw [← hmark, hm] at hold
      exact absurd hold (Nat.lt_irrefl _)
    · exact hc₀.symm.trans (h.equal ht₀ ht hn₀ hn' (hm₀.trans hmark))
  refine ⟨?_, ?_⟩
  · intro x t a n ht hn
    rw [get?_set] at ht
    split at ht
    · cases ht
      rcases hnew hn with hm | ⟨t₀, n₀, ht₀, hn₀, hm₀, _⟩
      · exact hm ▸ Nat.lt_succ_self w.epoch
      · exact hm₀ ▸ Nat.lt_succ_of_lt (h.old ht₀ hn₀)
    · exact Nat.lt_succ_of_lt (h.old ht hn)
  · intro x y t₁ t₂ a n n' ht₁ ht₂ hn hn' hmark
    rw [get?_set] at ht₁ ht₂
    split at ht₁
    · cases ht₁
      split at ht₂
      · cases ht₂
        rw [hn] at hn'
        cases hn'
        rfl
      · exact hequal ht₂ hn hn' hmark
    · split at ht₂
      · cases ht₂
        exact (hequal ht₁ hn' hn hmark.symm).symm
      · exact h.equal ht₁ ht₂ hn hn' hmark

theorem step (h : w.Consistent) (r : Request) : (w.step r).1.Consistent := by
  cases r with
  | write name c => exact h.set ((writeClosed_copyOnWrite w.epoch).run (w.tree name) c) name
  | clear name => exact h.set (.of_empty w.epoch (w.tree name)) name
  | snapshot source target => exact h.set (.refl w.epoch (w.tree source)) target

theorem run (h : w.Consistent) (rs : List Request) : (w.run rs).Consistent := by
  induction rs generalizing w with
  | nil => exact h
  | cons r rs ih => exact ih (h.step r)

theorem children_eq (h : w.Consistent) {x y : String} {a : List String} {n n' : Node Nat}
    (hn : (w.tree x).at? a = some n) (hn' : (w.tree y).at? a = some n')
    (hmark : n.mark = n'.mark) : n.children = n'.children := by
  rcases h.old_or_missing hn with ⟨t, ht, hn, hold⟩ | ⟨_, rfl⟩
  · rcases h.old_or_missing hn' with ⟨t', ht', hn', _⟩ | ⟨_, rfl⟩
    · exact h.equal ht ht' hn hn' hmark
    · rw [hmark] at hold
      exact absurd hold (Nat.lt_irrefl _)
  · rcases h.old_or_missing hn' with ⟨_, _, _, hold⟩ | ⟨_, rfl⟩
    · rw [← hmark] at hold
      exact absurd hold (Nat.lt_irrefl _)
    · rfl

end Consistent

theorem stamp?_eq_some {a : List String} {s : Stamp} (h : w.stamp? name a = some s) :
    ∃ n, (w.tree name).at? a = some n ∧ s = ⟨a, n.mark⟩ := by
  obtain ⟨n, hn, e⟩ := Option.map_eq_some_iff.1 h
  exact ⟨n, hn, e.symm⟩

/-- two nodes that are said to share have one stamp -/
theorem stamp?_of_shares? {a b : String} {p : List String} (h : w.shares? a b p = some true) :
    ∃ s, w.stamp? a p = some s ∧ w.stamp? b p = some s := by
  unfold shares? at h
  split at h
  · next s s' hs hs' =>
    have e : s = s' := by simpa using h
    exact ⟨s, hs, e ▸ hs'⟩
  · cases h

/-- **Shared child maps are equal.**  After any requests, two nodes with one stamp, anywhere in any
trees, have the same children, with everything below them; two nodes that are said to share are such
nodes. -/
theorem shared_children_equal (name : String) (rs : List Request) :
    let w := (Workspace.start name).run rs
    (∀ a b p q s, w.stamp? a p = some s → w.stamp? b q = some s →
      ∃ n n', (w.tree a).at? p = some n ∧ (w.tree b).at? q = some n' ∧
        n.children = n'.children) ∧
    ∀ a b p, w.shares? a b p = some true →
      ∃ n n', (w.tree a).at? p = some n ∧ (w.tree b).at? p = some n' ∧
        n.children = n'.children := by
  intro w
  have hw : w.Consistent := (Consistent.start name).run rs
  have hstamps : ∀ a b p q s, w.stamp? a p = some s → w.stamp? b q = some s →
      ∃ n n', (w.tree a).at? p = some n ∧ (w.tree b).at? q = some n' ∧
        n.children = n'.children := by
    intro a b p q s ha hb
    obtain ⟨n, hn, rfl⟩ := stamp?_eq_some ha
    obtain ⟨n', hn', e⟩ := stamp?_eq_some hb
    obtain ⟨rfl, hmark⟩ := Stamp.mk.inj e
    exact ⟨n, n', hn, hn', hw.children_eq hn hn' hmark⟩
  refine ⟨hstamps, ?_⟩
  intro a b p h
  obtain ⟨s, ha, hb⟩ := stamp?_of_shares? h
  exact hstamps a b p p s ha hb

/-- a snapshot, and then a write to the tree that it was taken of, beside a child -/
def writeAfterSnapshot : List Request :=
  [.write "main" (.grow ["a", "b"]), .snapshot "main" "copy",
    .write "main" (.setProp ["c"] true "x" (.flag true))]

theorem shared_children_equal_writeAfterSnapshot :
    let w := (Workspace.start "main").run writeAfterSnapshot
    w.shares? "main" "copy" [] = some false ∧ w.shares? "main" "copy" ["a"] = some true ∧
      ∃ n n', (w.tree "main").at? ["a"] = some n ∧ (w.tree "copy").at? ["a"] = some n' ∧
        n.children = n'.children := by
  have h : ((Workspace.start "main").run writeAfterSnapshot).shares? "main" "copy" ["a"]
      = some true := by decide +kernel
  exact ⟨by decide +kernel, h, (shared_children_equal "main" writeAfterSnapshot).2 _ _ _ h⟩

end Workspace

end PropertyIndex
