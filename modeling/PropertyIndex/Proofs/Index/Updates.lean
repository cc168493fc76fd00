import PropertyIndex.Proofs.Index.Refused

/-!
# Updates that are not refused

An update exchanges the keys of one path.  With keys that can all be used it never fails, and all it
does is to add and to take out matches of that path; since the tree is determined by its matches,
doing it twice is doing it once, and updates of different paths may be swapped.

* `Change.insert_mem_between`, `Change.remove_mem_between`   the steps of an update;
* `Exchanged`             the matches before and after an update;
* `Exchanged.again`, `Exchanged.swap`   the matches after it is done twice, and after two updates in
                          either order;
* `Fits.update`           what an update does to an index;
* `Fits.withoutPointer_eq`   a child with the same matches is the same, but for its pointer;
* `Index.update_exchanges`   all of this after every run.
-/

namespace PropertyIndex

variable {σ : Type} {m : σ} {t t' : Node σ} {i : Index σ} {path : String}
  {before after : List String} {segments : List String}

open Node

/-! ## The steps of an update -/

namespace Change

theorem insert_mem_between {key : String} :
    .insert key ∈ between before after ↔ key ∈ after ∧ key ∉ before := by
  unfold between
  rw [List.mem_filterMap]
  constructor
  · rintro ⟨k, hk, he⟩
    rw [KeySet.mem_ofList, List.mem_append] at hk
    split at he
    · split at he <;> cases he
    · next hb =>
      cases he
      exact ⟨hk.resolve_left hb, hb⟩
  · rintro ⟨ha, hb⟩
    exact ⟨key, KeySet.mem_ofList.2 (List.mem_append_right before ha), if_neg hb⟩

theorem remove_mem_between {key : String} :
    .remove key ∈ between before after ↔ key ∈ before ∧ key ∉ after := by
  unfold between
  rw [List.mem_filterMap]
  constructor
  · rintro ⟨k, _, he⟩
    split at he
    · next hb =>
      split at he
      · cases he
      · next ha =>
        cases he
        exact ⟨hb, ha⟩
    · cases he
  · rintro ⟨hb, ha⟩
    refine ⟨key, KeySet.mem_ofList.2 (List.mem_append_left after hb), ?_⟩
    rw [if_pos hb, if_neg ha]

end Change

/-- no step for a key that can be used is refused -/
theorem Index.refusal_of_usable {c : Change} (hu : Key.Usable c.key) (i : Index σ) :
    i.refusal c = none := by
  have hr : i.isReserved c.key = false := by
    rw [← Bool.not_eq_true, isReserved_eq_true_iff]
    exact fun h => hu.2.2 h.2
  cases c with
  | insert key => exact refusal_insert_eq_none_iff.2 ⟨Key.check_eq_ok_iff.2 ⟨hu.1, hu.2.1⟩, hr⟩
  | remove key => exact refusal_remove_eq_none_iff.2 hr

/-! ## The matches before and after -/

/-- the matches at one address below the keys are exchanged, and all others stay: a key that is new
gets one, and a key that is gone loses it -/
structure Exchanged (segments : List String) (before after : List String) (t t' : Node σ) :
    Prop where
  same : ∀ k, t'.HasMatch (k :: segments) ↔ (k ∈ after ∧ k ∉ before) ∨
    t.HasMatch (k :: segments) ∧ ¬ (k ∈ before ∧ k ∉ after)
  others : ∀ k a, a ≠ segments → (t'.HasMatch (k :: a) ↔ t.HasMatch (k :: a))

namespace Exchanged

variable {u t₁ t₂ u₁ u₂ : Node σ}

/-- keys before and after keep their matches -/
theorem hasMatch_of_mem (h : Exchanged segments before after t t') {k : String} (hb : k ∈ before)
    (ha : k ∈ after) (a : List String) : t'.HasMatch (k :: a) ↔ t.HasMatch (k :: a) := by
  by_cases hs : a = segments
  · rw [hs, h.same]
    simp [hb, ha]
  · exact h.others k a hs

/-- exchanged once more, the matches stay as they are -/
theorem again (h : Exchanged segments before after t t') (h' : Exchanged segments before after t' u)
    (k : String) (a : List String) : u.HasMatch (k :: a) ↔ t'.HasMatch (k :: a) := by
  by_cases hs : a = segments
  · rw [hs, h'.same, h.same]
    tauto
  · exact h'.others k a hs

/-- matches at different addresses are exchanged in either order -/
theorem swap {segments' before' after' : List String} (hne : segments' ≠ segments)
    (h₁ : Exchanged segments before after t t₁) (h₂ : Exchanged segments' before' after' t₁ t₂)
    (h₁' : Exchanged segments' before' after' t u₁) (h₂' : Exchanged segments before after u₁ u₂)
    (k : String) (a : List String) : t₂.HasMatch (k :: a) ↔ u₂.HasMatch (k :: a) := by
  by_cases hs : a = segments
  · rw [hs, h₂.others k segments hne.symm, h₁.same, h₂'.same, h₁'.others k segments hne.symm]
  · rw [h₂'.others k a hs]
    by_cases hs' : a = segments'
    · rw [hs', h₂.same, h₁'.same, h₁.others k segments' hne]
    · rw [h₂.others k a hs', h₁.others k a hs, h₁'.others k a hs']

end Exchanged

/-! ## An index before and after -/

namespace Index.Fits

/-- an update by keys that can be used exchanges the matches of its path, and keeps the head, or
makes it for a new key -/
theorem update (h : i.Fits t) (hs : i.Sound) (hu : ∀ k ∈ before ++ after, Key.Usable k) (m : σ)
    (path : String) : ∃ t', i.update m t path before after = .done t' ∧ i.Fits t' ∧
      (i.Headed t' ↔ i.Headed t ∨ ∃ k, k ∈ after ∧ k ∉ before) ∧
      Exchanged (Path.segments path) before after t t' := by
  have hr : ∀ c ∈ Change.between before after, i.refusal c = none := fun c hc =>
    refusal_of_usable (hu c.key (Change.key_mem_of_mem_between hc)) i
  obtain ⟨t', ht', h', hm⟩ :=
    h.applyAll_done hs hr (Change.keys_between_nodup before after) m path
  have hhead := h.headed_applyAll hs hr m path
  rw [ht', Outcome.tree_done] at hhead
  simp only [Change.insert_mem_between] at hhead
  refine ⟨t', ht', h', hhead, ⟨fun k => ?_, fun k a ha => ?_⟩⟩
  · rw [hm, if_pos rfl, Change.insert_mem_between, Change.remove_mem_between]
    tauto
  · rw [hm, if_neg ha]

end Index.Fits

/-- a child without its pointer, as a plain tree -/
def Node.withoutPointer (c : Node σ) : Node Unit := (c.removeProp nextName).forget

/-- a branch below a root that has no properties of its own may have some -/
theorem Node.Tidy.own {c : Node σ} (h : c.Tidy []) (own : List String) : c.Tidy own := by
  refine .of_child (fun name v hv => ?_) fun k d hd => h.child hd
  exact .inr ((h.prop hv).resolve_left List.not_mem_nil)

namespace Index.Fits

/-- below a key there is a sorted branch of matches, and at least one -/
theorem child (h : i.Fits t) {key : String} (hs : key ≠ startName) {c : Node σ}
    (hc : t.child? key = some c) :
    c.Sorted ∧ c.Tidy [nextName] ∧ ∃ a, t.HasMatch (key :: a) := by
  cases i with
  | unordered =>
    have hb : t.Bare := h
    exact ⟨hb.sorted.child? hc, (hb.tidy.child hc).2.own [nextName],
      hb.hasChild_iff.1 (hasChild_iff.2 ⟨c, hc⟩)⟩
  | ordered o =>
    obtain ⟨keys, hk⟩ := h
    exact ⟨hk.neat.sorted.child? hc, hk.neat.tidy key c hc,
      (hk.hasChild_iff_hasMatch hs).1 (hasChild_iff.2 ⟨c, hc⟩)⟩

/-- the child of a key is determined by its matches, but for its pointer -/
theorem withoutPointer_eq (h : i.Fits t) (h' : i.Fits t') {key : String} (hs : key ≠ startName)
    (hm : ∀ a, t.HasMatch (key :: a) ↔ t'.HasMatch (key :: a)) :
    (t.child? key).map withoutPointer = (t'.child? key).map withoutPointer := by
  cases hc : t.child? key with
  | none =>
    cases hc' : t'.child? key with
    | none => rfl
    | some c' =>
      obtain ⟨_, _, a, ha⟩ := h'.child hs hc'
      exact absurd ((hm a).2 ha) (not_hasMatch_of_none hc a)
  | some c =>
    obtain ⟨hsort, htidy, a, ha⟩ := h.child hs hc
    cases hc' : t'.child? key with
    | none => exact absurd ((hm a).1 ha) (not_hasMatch_of_none hc' a)
    | some c' =>
      obtain ⟨hsort', htidy', _⟩ := h'.child hs hc'
      refine congrArg some (htidy.removeProp_next.forget_eq htidy'.removeProp_next
        (hsort.removeProp nextName) (hsort'.removeProp nextName) List.not_mem_nil
        (fun _ hn => absurd hn List.not_mem_nil) fun b => ?_)
      have hb := hm b
      rw [hasMatch_cons, hasMatch_cons, hc, hc'] at hb
      rw [hasMatch_removeProp_next, hasMatch_removeProp_next]
      simpa using hb

end Index.Fits

/-- **An update exchanges the keys of a path**, after every run and with all keys that can be used:
it succeeds, marks the path under the keys that are new and under no key that is gone, and changes
no other match; the entries of keys before and after stay as they were, but for their pointers.
Doing it again changes nothing, and updates of paths with different segments may be swapped. -/
theorem Index.update_exchanges (order : Option Direction) (n : Nat) (m₀ : σ)
    (ws : List (σ × Write)) (m : σ) (path : String) {before after : List String}
    (hu : ∀ k ∈ before ++ after, Key.Usable k) :
    let i : Index σ := .ofOrder order n
    let t := Write.tree i m₀ ws
    let out := i.update m t path before after
    out.answer = .ok () ∧ Exchanged (Path.segments path) before after t out.tree ∧
      (∀ k, k ∈ before → k ∈ after →
        (out.tree.child? k).map withoutPointer = (t.child? k).map withoutPointer) ∧
      (∀ m', (i.update m' out.tree path before after).answer = .ok () ∧
        (i.update m' out.tree path before after).tree.forget = out.tree.forget) ∧
      ∀ path' before' after', Path.segments path' ≠ Path.segments path →
        (∀ k ∈ before' ++ after', Key.Usable k) → ∀ m₁ m₂ m₃,
        (i.update m₁ out.tree path' before' after').tree.forget =
        (i.update m₃ (i.update m₂ t path' before' after').tree path before after).tree.forget := by
  intro i t out
  have hs : i.Sound := sound_ofOrder order n
  have h : i.Fits t := Write.fits_runAll (.empty i m₀) hs ws
  obtain ⟨t₁, ht₁, h₁, hhead₁, hx₁⟩ := h.update hs hu m path
  have hout : out = .done t₁ := ht₁
  rw [hout, Outcome.tree_done]
  refine ⟨rfl, hx₁, ?_, ?_, ?_⟩
  · intro k hb ha
    exact h₁.withoutPointer_eq h (hu k (List.mem_append_left after hb)).2.2
      (hx₁.hasMatch_of_mem hb ha)
  · intro m'
    obtain ⟨t₂, ht₂, h₂, hhead₂, hx₂⟩ := h₁.update hs hu m' path
    rw [ht₂, Outcome.tree_done]
    refine ⟨rfl, h₂.forget_eq h₁ (hx₁.again hx₂) ?_⟩
    rw [hhead₂, hhead₁, or_assoc, or_self]
  · intro path' before' after' hne hu' m₁ m₂ m₃
    obtain ⟨t₂, ht₂, h₂, hhead₂, hx₂⟩ := h₁.update hs hu' m₁ path'
    obtain ⟨u₁, hu₁, h₁', hhead₁', hx₁'⟩ := h.update hs hu' m₂ path'
    obtain ⟨u₂, hu₂, h₂', hhead₂', hx₂'⟩ := h₁'.update hs hu m₃ path
    rw [ht₂, hu₁, Outcome.tree_done, Outcome.tree_done, hu₂, Outcome.tree_done]
    refine h₂.forget_eq h₂' (hx₁.swap hne hx₂ hx₁' hx₂') ?_
    rw [hhead₂, hhead₁, hhead₂', hhead₁', or_right_comm]

/-- two updates of paths one below the other, which drop and add keys for each other -/
theorem Index.update_exchanges_nested :
    let i : Index Unit := .ofOrder (some .descending) 100
    let t := Write.tree i () [((), .insert "p" "a"), ((), .update "p/q" [] ["a", "b"])]
    let out := i.update () t "p" ["a", "b"] ["b", "c"]
    let out' := i.update () t "p/q" ["a"] ["c"]
    (∀ k ∈ ["a", "b"] ++ ["b", "c"], Key.Usable k) ∧ (∀ k ∈ ["a"] ++ ["c"], Key.Usable k) ∧
      Path.segments "p/q" ≠ Path.segments "p" ∧ out.answer = .ok () ∧
      Exchanged (Path.segments "p") ["a", "b"] ["b", "c"] t out.tree ∧
      (i.update () out.tree "p" ["a", "b"] ["b", "c"]).tree.forget = out.tree.forget ∧
      (i.update () out.tree "p/q" ["a"] ["c"]).tree.forget
        = (i.update () out'.tree "p" ["a", "b"] ["b", "c"]).tree.forget := by
  intro i t out out'
  have hu : ∀ k ∈ ["a", "b"] ++ ["b", "c"], Key.Usable k := by decide
  have hu' : ∀ k ∈ ["a"] ++ ["c"], Key.Usable k := by decide
  have hne : Path.segments "p/q" ≠ Path.segments "p" := by decide
  obtain ⟨hok, hx, _, hagain, hswap⟩ := update_exchanges (some .descending) 100 ()
    [((), .insert "p" "a"), ((), .update "p/q" [] ["a", "b"])] () "p" hu
  exact ⟨hu, hu', hne, hok, hx, (hagain ()).2, hswap "p/q" ["a"] ["c"] hne hu' () () ()⟩

end PropertyIndex
