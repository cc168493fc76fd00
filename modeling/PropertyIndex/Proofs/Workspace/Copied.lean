import PropertyIndex.Proofs.Index.Insertion
import PropertyIndex.Proofs.Workspace.Sharing

/-!
# What an insertion copies

An insertion copies the child maps on the way to the new match and no others: not the one of the
matched node, not the one of the entry before a new entry, and none at all if it fails.

* `Node.mark?`          the mark of the node at an address;
* `Node.Restamped`      a write marks the nodes above its end, and no other node that was there;
* `Restamped.grow`      every write that creates its path is of this kind;
* `Restamped.insert`    and so is an insertion, for the address of its match;
* `Workspace.Old`       all marks of a tree are older than the next request;
* `Workspace.insert_copies_path`   after an insertion, a tree shares with its snapshot the child
                        maps of just those nodes that are not above the match.
-/

namespace PropertyIndex

variable {σ : Type} {m : σ} {t t' t'' : Node σ} {a p q : List String}

namespace Node

/-- the mark of the node at an address -/
def mark? (t : Node σ) (a : List String) : Option σ := (t.at? a).map mark

theorem mark?_nil (t : Node σ) : t.mark? [] = some t.mark := rfl

theorem mark?_cons (t : Node σ) (k : String) (a : List String) :
    t.mark? (k :: a) = (t.child? k).bind (·.mark? a) := by
  unfold mark?
  rw [at?_cons]
  cases t.child? k <;> rfl

theorem exists?_iff_mark? : t.exists? a = true ↔ ∃ x, t.mark? a = some x := by
  unfold exists? mark?
  rw [Option.isSome_iff_exists]
  simp [Option.map_eq_some_iff]

/-- an address is above another one if it is a proper part of the way there -/
def Above (a q : List String) : Prop := a <+: q ∧ a ≠ q

instance (a q : List String) : Decidable (Above a q) := inferInstanceAs (Decidable (_ ∧ _))

theorem above_cons_iff {k j : String} : Above (k :: a) (j :: q) ↔ k = j ∧ Above a q := by
  unfold Above
  rw [List.cons_prefix_cons, ne_eq, List.cons.injEq]
  constructor
  · intro ⟨⟨hk, ha⟩, hne⟩
    exact ⟨hk, ha, fun e => hne ⟨hk, e⟩⟩
  · intro ⟨hk, ha, hne⟩
    exact ⟨⟨hk, ha⟩, fun e => hne e.2⟩

theorem nil_above_cons (k : String) (q : List String) : Above [] (k :: q) :=
  ⟨List.nil_prefix, (List.cons_ne_nil k q).symm⟩

theorem not_above_nil (a : List String) : ¬ Above a [] := by
  intro ⟨ha, hne⟩
  exact hne (List.prefix_nil.1 ha)

/-- only the root is above a child -/
theorem Above.of_singleton {k j : String} (h : Above a [k]) : Above a (j :: q) := by
  cases a with
  | nil => exact nil_above_cons j q
  | cons i a => exact absurd (above_cons_iff.1 h).2 (not_above_nil a)

/-! ## The marks that a write leaves -/

/-- the nodes that were there are marked if they are above an address, and otherwise keep their
marks -/
def Restamped (m : σ) (q : List String) (t t' : Node σ) : Prop :=
  ∀ a x, t.mark? a = some x → t'.mark? a = some (if Above a q then m else x)

namespace Restamped

/-- a write that creates its path marks the nodes above the end of the path -/
theorem grow {f : Node σ → Node σ} (hf : ∀ n, (f n).mark = n.mark ∧ (f n).children = n.children)
    (t : Node σ) (q : List String) : Restamped m q t (t.grow m q f) := by
  intro a x hx
  induction q generalizing t a with
  | nil =>
    rw [if_neg (not_above_nil a), grow_nil, ← hx]
    cases a with
    | nil => rw [mark?_nil, mark?_nil, (hf t).1]
    | cons k a =>
      rw [mark?_cons, mark?_cons]
      unfold child?
      rw [(hf t).2]
  | cons j q ih =>
    cases a with
    | nil => rw [if_pos (nil_above_cons j q), mark?_nil, mark_grow_cons]
    | cons k a =>
      rw [mark?_cons] at hx ⊢
      obtain ⟨c, hc, hx⟩ := Option.bind_eq_some_iff.1 hx
      rw [child?_grow]
      by_cases e : k = j
      · subst e
        rw [if_pos rfl, hc, Option.getD_some, Option.bind_some, ih c a hx]
        simp only [above_cons_iff, true_and]
      · rw [if_neg e, hc, Option.bind_some, hx, if_neg fun h => e (above_cons_iff.1 h).1]

/-- a write comes before one that marks all of its nodes again -/
theorem trans (h : Restamped m p t t') (h' : Restamped m q t' t'')
    (hpq : ∀ a, Above a p → Above a q) : Restamped m q t t'' := by
  intro a x hx
  rw [h' a _ (h a x hx)]
  by_cases hq : Above a q
  · rw [if_pos hq, if_pos hq]
  · rw [if_neg hq, if_neg hq, if_neg fun hp => hq (hpq a hp)]

theorem reach (t : Node σ) (q : List String) : Restamped m q t (t.grow m q fun c => c) :=
  grow (fun _ => ⟨rfl, rfl⟩) t q

theorem setProp (t : Node σ) (q : List String) (name : String) (v : Value) :
    Restamped m q t (t.grow m q (·.setProp name v)) :=
  grow (f := (·.setProp name v)) (fun _ => ⟨rfl, rfl⟩) t q

/-- linking an entry writes to two children, so it marks the root only -/
theorem link (t : Node σ) (previous key next : String) :
    Restamped m [key] t (t.link m previous key next) :=
  (setProp t [previous] nextName (.text key)).trans (setProp _ [key] nextName (.text next))
    fun _ h => h.of_singleton

/-- an insertion fails and writes nothing, or marks the nodes above the match -/
theorem insert (o : OrderedIndex σ) (m : σ) (t : Node σ) (path key : String) :
    (∃ e, (Index.ordered o).insert m t path key = .failed t e) ∨
      ∃ t', (Index.ordered o).insert m t path key = .done t' ∧
        Restamped m (key :: Path.segments path) t t' := by
  rw [insert_ordered]
  rcases o.fetch_cases m t key with ⟨e, he⟩ | ⟨_, _, he⟩ | ⟨_, _, previous, next, _, he⟩
  · rw [he, Outcome.andThen_failed]
    exact .inl ⟨e, rfl⟩
  · rw [he, Outcome.andThen_done]
    exact .inr ⟨_, rfl, (reach t [key]).trans (setProp _ _ _ _) fun _ h => h.of_singleton⟩
  · rw [he, Outcome.andThen_done]
    exact .inr ⟨_, rfl, (link t previous key next).trans (setProp _ _ _ _)
      fun _ h => h.of_singleton⟩

end Restamped

end Node

open Node

namespace Workspace

variable {w : Workspace} {name copy x y : String}

/-! ## Trees with old marks -/

/-- all marks of a tree are older than the next request -/
def Old (w : Workspace) (name : String) : Prop :=
  ∀ a n, (w.tree name).mark? a = some n → n < w.epoch

/-- a tree that is not there would be marked by the next request -/
theorem Old.get? (h : w.Old name) : w.trees.get? name = some (w.tree name) := by
  cases ht : w.trees.get? name with
  | some t => rw [tree_eq_some ht]
  | none =>
    have hroot : (w.tree name).mark? [] = some w.epoch := by
      rw [tree_eq_none ht]
      rfl
    exact absurd (h [] _ hroot) (Nat.lt_irrefl _)

theorem tree_set (w : Workspace) (name : String) (t : Node Nat) : (w.set name t).tree name = t :=
  tree_eq_some (by rw [get?_set, if_pos rfl])

/-- no request takes a tree away -/
theorem get?_step (h : ∃ t, w.trees.get? name = some t) (r : Request) :
    ∃ t, (w.step r).1.trees.get? name = some t := by
  have hset : ∀ x t, ∃ t', (w.set x t).trees.get? name = some t' := by
    intro x t
    rw [get?_set]
    split
    · exact ⟨t, rfl⟩
    · exact h
  cases r with
  | write x c => exact hset x _
  | clear x => exact hset x _
  | snapshot source target => exact hset target _

theorem get?_run (h : ∃ t, w.trees.get? name = some t) (rs : List Request) :
    ∃ t, (w.run rs).trees.get? name = some t := by
  induction rs generalizing w with
  | nil => exact h
  | cons r rs ih => exact ih (get?_step h r)

/-- after any requests the marks of the first tree are old -/
theorem old_run (name : String) (rs : List Request) : ((start name).run rs).Old name := by
  have hw : ((start name).run rs).Consistent := (Consistent.start name).run rs
  obtain ⟨t, ht⟩ := get?_run (w := start name) ⟨_, SortedMap.get?_cons_self name (Node.empty 0) []⟩ rs
  intro a n hn
  rw [tree_eq_some ht] at hn
  obtain ⟨c, hc, rfl⟩ := Option.map_eq_some_iff.1 hn
  exact hw.old ht hc

/-! ## A snapshot and then a write -/

/-- two nodes share their child map if they have one mark -/
theorem shares?_eq {i j : Nat} (hx : (w.tree x).mark? a = some i)
    (hy : (w.tree y).mark? a = some j) : w.shares? x y a = some (decide (i = j)) := by
  obtain ⟨n, hn, rfl⟩ := Option.map_eq_some_iff.1 hx
  obtain ⟨n', hn', rfl⟩ := Option.map_eq_some_iff.1 hy
  unfold shares? stamp?
  rw [hn, hn']
  show some (decide (Stamp.mk a n.mark = Stamp.mk a n'.mark)) = _
  simp only [Stamp.mk.injEq, true_and]

/-- equal trees share all their child maps -/
theorem shares?_of_eq (h : w.tree x = w.tree y) (ha : (w.tree x).exists? a = true) :
    w.shares? x y a = some true := by
  obtain ⟨n, hn⟩ := exists?_iff_mark?.1 ha
  rw [shares?_eq hn (h ▸ hn), decide_eq_true rfl]

/-- a tree that is marked above an address with a new mark shares the other child maps -/
theorem shares?_of_restamped {m : Nat} (h : Restamped m q (w.tree y) (w.tree x))
    (hm : ∀ n, (w.tree y).mark? a = some n → n ≠ m) (ha : (w.tree y).exists? a = true) :
    (w.tree x).exists? a = true ∧ (w.shares? x y a = some true ↔ ¬ Above a q) := by
  obtain ⟨n, hn⟩ := exists?_iff_mark?.1 ha
  have hx : (w.tree x).mark? a = some (if Above a q then m else n) := h a n hn
  refine ⟨exists?_iff_mark?.2 ⟨_, hx⟩, ?_⟩
  rw [shares?_eq hx hn, Option.some.injEq, decide_eq_true_eq]
  by_cases hq : Above a q
  · rw [if_pos hq]
    exact iff_of_false (hm n hn).symm (not_not_intro hq)
  · rw [if_neg hq]
    exact iff_of_true rfl hq

/-- a write after a snapshot goes to the tree, and the snapshot keeps what the tree was -/
theorem step_snapshot_write (h : w.Old name) (hne : copy ≠ name) (c : Command Nat) :
    let r := (w.step (.snapshot name copy)).1.step (.write name c)
    let out := c.run (w.epoch + 1) (w.tree name)
    r.1.tree copy = w.tree name ∧ r.1.tree name = out.tree ∧ r.2 = out.answer := by
  intro r out
  let kept := w.set copy (w.tree name)
  have hkept : kept.tree name = w.tree name :=
    tree_eq_some (by rw [get?_set, if_neg hne.symm, h.get?])
  have hout : c.run kept.epoch (kept.tree name) = out := by
    rw [hkept]
    rfl
  have hr : r = (kept.set name out.tree, out.answer) := by
    rw [← hout]
    rfl
  rw [hr]
  refine ⟨?_, tree_set _ name out.tree, rfl⟩
  exact tree_eq_some (by rw [get?_set, if_neg hne, get?_set, if_pos rfl])

/-- **An insertion copies the way to its match and nothing else.**  Let a tree have old marks, as it
has after any requests, and let it be kept under another name before an insertion.  If the insertion
fails, all its nodes still share their child maps with those of the copy.  Otherwise all nodes of
the copy are there, and they share their child maps just if they are not above the match. -/
theorem insert_copies_path (hne : copy ≠ name) :
    (∀ rs, ((start name).run rs).Old name) ∧
      ∀ (w : Workspace) (o : OrderedIndex Nat) (path key : String), w.Old name →
        let r := (w.step (.snapshot name copy)).1.step (.write name (.insert (.ordered o) path key))
        r.1.tree copy = w.tree name ∧
          (∀ e, r.2 = .error e → ∀ a, (r.1.tree name).exists? a = true →
            r.1.shares? name copy a = some true) ∧
          ∀ x, r.2 = .ok x → ∀ a, (r.1.tree copy).exists? a = true →
            (r.1.tree name).exists? a = true ∧ (r.1.shares? name copy a = some true ↔
              ¬ (a <+: key :: Path.segments path ∧ a ≠ key :: Path.segments path)) := by
  refine ⟨old_run name, ?_⟩
  intro w o path key hold r
  obtain ⟨hcopy, htree, hanswer⟩ :=
    step_snapshot_write hold hne (.insert (.ordered o) path key)
  have hrun : (Command.insert (.ordered o) path key).run (w.epoch + 1) (w.tree name)
      = Command.silent ((Index.ordered o).insert (w.epoch + 1) (w.tree name) path key) := rfl
  rw [hrun] at htree hanswer
  refine ⟨hcopy, ?_⟩
  rcases Restamped.insert o (w.epoch + 1) (w.tree name) path key with ⟨e, he⟩ | ⟨t', he, hmarks⟩
  · -- the tree and the copy are the same
    rw [he] at htree hanswer
    rw [hanswer]
    refine ⟨?_, nofun⟩
    intro _ _ a ha
    exact shares?_of_eq (htree.trans hcopy.symm) ha
  · rw [he] at htree hanswer
    rw [hanswer]
    refine ⟨nofun, ?_⟩
    intro _ _ a ha
    have hmarks' : Restamped (w.epoch + 1) (key :: Path.segments path) (r.1.tree copy)
        (r.1.tree name) := by
      rw [hcopy, htree]
      exact hmarks
    refine shares?_of_restamped hmarks' ?_ ha
    -- the mark of the insertion is newer than those that were there
    intro n hn
    rw [hcopy] at hn
    have hlt : n < w.epoch := hold a n hn
    omega

theorem insert_copies_path_new_key :
    let o : OrderedIndex Nat := ⟨.ascending, 100, Lookup.scan⟩
    let w := (start "main").run [.write "main" (.insert (.ordered o) "p" "a")]
    let r := (w.step (.snapshot "main" "copy")).1.step
      (.write "main" (.insert (.ordered o) "p/q" "b"))
    "copy" ≠ "main" ∧ w.Old "main" ∧ (∃ x, r.2 = .ok x) ∧
      r.1.shares? "main" "copy" [] = some false ∧ r.1.shares? "main" "copy" ["a"] = some true := by
  intro o w r
  have hne : "copy" ≠ "main" := by decide
  have hold : w.Old "main" := (insert_copies_path hne).1 _
  have hok : ∃ x, r.2 = .ok x := by
    have h : r.2.isOk = true := by decide +kernel
    cases hr : r.2 with
    | ok x => exact ⟨x, rfl⟩
    | error e =>
      rw [hr] at h
      cases h
  obtain ⟨x, hx⟩ := hok
  have ha : (r.1.tree "copy").exists? ["a"] = true := by decide +kernel
  have hshared := (((insert_copies_path hne).2 w o "p/q" "b" hold).2.2 x hx ["a"] ha).2
  exact ⟨hne, hold, ⟨x, hx⟩, by decide +kernel, hshared.2 (by decide)⟩

end Workspace

end PropertyIndex
