import PropertyIndex.Proofs.Chain.Scanned
import PropertyIndex.Proofs.Index.Refused
import PropertyIndex.Proofs.Node.Values

/-!
# Taking out a match, in any tree

Nothing is asked of the tree here: its chain may break off or run in a circle, and its nodes may hold
anything.

* `Index.drop_cases`         an entry that is dropped goes, or else nothing changes;
* `Index.remove_cases`, `Index.remove_again_cases`   the entry below which a match is taken out is
                             kept, or it is dropped; the same removal once more;
* `Index.hasMatch_remove`    exactly one match is taken out, also by a removal that fails;
* `Index.occupied_remove`    what is left on the way to it is occupied;
* `Index.forget_remove_remove`   the same removal once more changes nothing;
* `Index.remove_leaves_no_debris`   all of this together;
* `OrderedIndex.remove_fails_iff`   when a removal fails, and what it has written by then.
-/

namespace PropertyIndex

variable {σ : Type} {m : σ} {t t' c : Node σ} {key path : String} {i : Index σ}

open Node

/-! ## Dropping an entry -/

/-- an entry is taken out of the chain and out of the tree, or nothing happens at all -/
theorem OrderedIndex.unlink_cases (o : OrderedIndex σ) (m : σ) (t : Node σ) (key : String) :
    (∃ previous next, o.unlink m t key = .done (t.cut m previous key next)) ∨
      ∃ e, o.unlink m t key = .failed t e := by
  unfold unlink
  split
  · exact .inr ⟨_, rfl⟩
  · exact .inr ⟨_, rfl⟩
  · exact .inl ⟨_, _, rfl⟩

namespace Index

/-- an empty entry that is dropped goes, and takes no match with it, or nothing happens at all -/
theorem drop_cases (i : Index σ) (hc : t.child? key = some c) (ho : c.occupied = false) (m : σ) :
    (∃ t', i.drop m t key = .done t' ∧ t'.child? key = none ∧
      ∀ a, t'.HasMatch a ↔ t.HasMatch a) ∨ ∃ e, i.drop m t key = .failed t e := by
  have hgone : ∃ t', Outcome.done (t.removeChild m key) = .done t' ∧ t'.child? key = none ∧
      ∀ a, t'.HasMatch a ↔ t.HasMatch a := by
    refine ⟨_, rfl, ?_, hasMatch_congr (props_removeChild m key t)
      fun k a => hasMatch_removeChild hc ho m k a⟩
    rw [child?_removeChild, if_pos rfl]
  cases i with
  | unordered => exact .inl hgone
  | ordered o =>
    cases hp : c.hasProp nextName with
    | false =>
      rw [drop_of_no_pointer hc hp]
      exact .inl hgone
    | true =>
      rw [drop_of_pointer hc hp]
      rcases o.unlink_cases m t key with ⟨previous, next, he⟩ | ⟨e, he⟩
      · refine .inl ⟨_, he, by rw [child?_cut, if_pos rfl], hasMatch_congr ?_ ?_⟩
        · rw [cut, props_removeChild]
          rfl
        · intro k a
          rw [hasMatch_cut, and_iff_right_iff_imp]
          rintro ha rfl
          rw [hasMatch_cons, hc] at ha
          exact not_hasMatch_of_not_occupied ho a (by simpa using ha)
      · exact .inr ⟨e, he⟩

/-! ## Removing a match -/

/-- what is put back in place of the entry is kept, or it is dropped because it is empty -/
theorem remove_cases (i : Index σ) (hr : i.isReserved key = false) (hc : t.child? key = some c)
    (m : σ) (path : String) :
    let r := c.unmark m (Path.segments path)
    let t1 := t.edit m [key] fun _ => r.1
    ((r.2 = true → r.1.occupied = true) ∧ i.remove m t path key = .done t1) ∨
      ((r.2 = true ∧ r.1.occupied = false) ∧ i.remove m t path key = i.drop m t1 key) := by
  intro r t1
  rw [remove_eq_drop i hr hc]
  by_cases h : r.2 = true ∧ r.1.occupied = false
  · exact .inr ⟨h, if_pos (by simpa using h)⟩
  · refine .inl ⟨fun h2 => ?_, if_neg (by simpa using h)⟩
    simpa [h2] using h

/-- exactly one match is taken out, whether the removal succeeds or fails -/
theorem hasMatch_remove (i : Index σ) (hr : i.isReserved key = false) (m : σ) (t : Node σ)
    (path : String) (a : List String) :
    (i.remove m t path key).tree.HasMatch a ↔ a ≠ key :: Path.segments path ∧ t.HasMatch a := by
  cases hc : t.child? key with
  | none =>
    rw [remove_of_none i hr hc, Outcome.tree_done]
    refine ⟨fun ha => ⟨?_, ha⟩, And.right⟩
    rintro rfl
    exact not_hasMatch_of_none hc _ ha
  | some c =>
    -- the match is taken out of what is put back, whatever becomes of that
    have hput : ∀ a, (t.edit m [key] fun _ => (c.unmark m (Path.segments path)).1).HasMatch a ↔
        a ≠ key :: Path.segments path ∧ t.HasMatch a := by
      intro a
      cases a with
      | nil =>
        rw [hasMatch_nil, hasMatch_nil, matched_eq_of_props (props_edit_cons m key [] _ t)]
        simp
      | cons k a =>
        rw [hasMatch_put_unmark (.edit m [] (fun _ => (c.unmark m (Path.segments path)).1) hc) hc,
          Ne, List.cons.injEq]
    rcases remove_cases i hr hc m path with ⟨_, he⟩ | ⟨⟨_, ho⟩, he⟩
    · rw [he]
      exact hput a
    · rw [he]
      rcases i.drop_cases (child?_put m hc _) ho m with ⟨t', hd, _, hm⟩ | ⟨e, hd⟩
      · rw [hd, Outcome.tree_done, hm]
        exact hput a
      · rw [hd]
        exact hput a

/-- after a removal that succeeds, what is left on the way to the node is occupied -/
theorem occupied_remove (i : Index σ) (hr : i.isReserved key = false)
    (ha : t.exists? (key :: Path.segments path) = true)
    (hok : (i.remove m t path key).answer = .ok ()) {p : List String}
    (hp : p <+: Path.segments path) {x : Node σ}
    (hx : (i.remove m t path key).tree.at? (key :: p) = some x) : x.occupied = true := by
  cases hc : t.child? key with
  | none =>
    rw [exists?_cons, hc] at ha
    cases ha
  | some c =>
    have hs : (c.at? (Path.segments path)).isSome := by
      unfold exists? at ha
      rwa [at?_cons, hc] at ha
    obtain ⟨hroot, hbelow⟩ := occupied_unmark m hs
    rcases remove_cases i hr hc m path with ⟨hkept, he⟩ | ⟨⟨_, ho⟩, he⟩
    · rw [he, Outcome.tree_done, at?_cons, child?_put m hc, Option.bind_some] at hx
      by_cases hnil : p = []
      · subst hnil
        cases hx
        cases h2 : (c.unmark m (Path.segments path)).2 with
        | true => exact hkept h2
        | false => exact hroot h2
      · exact hbelow p hnil hp x hx
    · rw [he] at hok hx
      rcases i.drop_cases (child?_put m hc _) ho m with ⟨t', hd, hnone, _⟩ | ⟨e, hd⟩
      · rw [hd, Outcome.tree_done, at?_cons, hnone] at hx
        cases hx
      · rw [hd] at hok
        cases hok

end Index

/-! ## Removing it once more -/

namespace OrderedIndex

/-- an entry is not unlinked just if the one before it is not found -/
theorem unlink_answer_iff {o : OrderedIndex σ} {e : Error} :
    (o.unlink m t key).answer = .error e ↔ o.lookup t key = .error e ∨
      o.lookup t key = .ok none ∧ e = .corruption (.unreachable key) := by
  unfold unlink
  cases o.lookup t key with
  | error e' => simp
  | ok previous =>
    cases previous with
    | none => simp [eq_comm]
    | some previous => simp

/-- what is not unlinked is not written to -/
theorem unlink_eq_failed {o : OrderedIndex σ} {e : Error}
    (h : (o.unlink m t key).answer = .error e) : o.unlink m t key = .failed t e := by
  rcases o.unlink_cases m t key with ⟨previous, next, he⟩ | ⟨e', he⟩
  · rw [he] at h
    cases h
  · rw [he] at h ⊢
    cases h
    rfl

end OrderedIndex

namespace Index

/-- an entry that cannot be dropped cannot be dropped either when only marks have changed -/
theorem drop_fails_again (order : Option Direction) (n : Nat) {m : σ} (m' : σ) {c' : Node σ}
    {e : Error} (h : t'.forget = t.forget) (hc : t.child? key = some c)
    (hc' : t'.child? key = some c') (hcc : c'.forget = c.forget)
    (hd : ((ofOrder order n : Index σ).drop m t key).answer = .error e) :
    (ofOrder order n : Index σ).drop m' t' key = .failed t' e := by
  rw [drop_of_child? _ hc] at hd
  rw [drop_of_child? _ hc']
  cases order with
  | none => cases hd
  | some d =>
    dsimp only [ofOrder] at hd ⊢
    rw [hasProp_eq_of_forget hcc]
    split
    · next hp =>
      rw [if_pos hp, OrderedIndex.unlink_answer_iff] at hd
      apply OrderedIndex.unlink_eq_failed
      rw [OrderedIndex.unlink_answer_iff]
      show Lookup.scan t' key = _ ∨ Lookup.scan t' key = _ ∧ _
      rw [(samePointers_of_forget h).scan]
      exact hd
    · next hp =>
      rw [if_neg hp] at hd
      cases hd

/-- below an entry that a removal has put back, the same removal changes nothing, and it asks for
the entry to be dropped only if the first one did -/
theorem remove_again_cases (i : Index σ) (hr : i.isReserved key = false) {m : σ}
    (hc : t.child? key = some (c.unmark m (Path.segments path)).1) (m' : σ) :
    ∃ t' c', t'.forget = t.forget ∧ t'.child? key = some c' ∧
      c'.forget = (c.unmark m (Path.segments path)).1.forget ∧
      (i.remove m' t path key = .done t' ∨
        ((c.unmark m (Path.segments path)).2 = true ∧
          (c.unmark m (Path.segments path)).1.occupied = false) ∧
          i.remove m' t path key = i.drop m' t' key) := by
  obtain ⟨hforget, hkept⟩ := forget_unmark_unmark m m' (Path.segments path) c
  refine ⟨_, _, forget_put m' hc hforget, child?_put m' hc _, hforget, ?_⟩
  rcases remove_cases i hr hc m' path with ⟨_, he⟩ | ⟨⟨h2, ho⟩, he⟩
  · exact .inl he
  · rw [occupied_eq_of_forget hforget] at ho
    refine .inr ⟨⟨?_, ho⟩, he⟩
    by_contra hn
    rw [hkept h2 (by simpa using hn)] at ho
    cases ho

/-- the same removal once more changes nothing, also if the first one failed -/
theorem forget_remove_remove (order : Option Direction) (n : Nat) (m m' : σ) (t : Node σ)
    (path : String) (hr : (ofOrder order n : Index σ).isReserved key = false) :
    let i : Index σ := ofOrder order n
    let out := i.remove m t path key
    (i.remove m' out.tree path key).tree.forget = out.tree.forget := by
  intro i out
  have hidle : ∀ x : Node σ, x.child? key = none → (i.remove m' x path key).tree = x := by
    intro x hx
    rw [remove_of_none i hr hx]
    rfl
  cases hc : t.child? key with
  | none =>
    have hout : out = .done t := remove_of_none i hr hc m path
    rw [hout, Outcome.tree_done, hidle t hc]
  | some c =>
    have hc1 := child?_put m hc (c.unmark m (Path.segments path)).1
    obtain ⟨t2, c2, hforget, hc2, hcc, hagain⟩ := remove_again_cases i hr hc1 m'
    rcases remove_cases i hr hc m path with ⟨hkept, he⟩ | ⟨⟨_, ho⟩, he⟩
    · have hout : out = .done _ := he
      rw [hout, Outcome.tree_done]
      rcases hagain with he' | ⟨⟨h2, ho⟩, _⟩
      · rw [he']
        exact hforget
      · rw [hkept h2] at ho
        cases ho
    · rcases i.drop_cases hc1 ho m with ⟨t', hd, hnone, _⟩ | ⟨e, hd⟩
      · have hout : out = .done t' := he.trans hd
        rw [hout, Outcome.tree_done, hidle t' hnone]
      · -- the entry in front is not found the second time either
        have hout : out = .failed _ e := he.trans hd
        have hfail := drop_fails_again order n m' hforget hc1 hc2 hcc (congrArg Outcome.answer hd)
        rw [hout, Outcome.tree_failed]
        rcases hagain with he' | ⟨_, he'⟩
        · rw [he']
          exact hforget
        · rw [he', hfail]
          exact hforget

/-- **A removal takes out one match and leaves no debris**, in any tree.  Whether it succeeds or
fails, it takes out the match of the path under the key and no other.  If it succeeds and the node of
the path was there, every node that is still on the way to it has the property `match` or children.
The same removal once more changes nothing. -/
theorem remove_leaves_no_debris (order : Option Direction) (n : Nat) (m m' : σ) (t : Node σ)
    (path : String) (hr : (ofOrder order n : Index σ).isReserved key = false) :
    let i : Index σ := ofOrder order n
    let segments := Path.segments path
    let out := i.remove m t path key
    (∀ a, out.tree.HasMatch a ↔ a ≠ key :: segments ∧ t.HasMatch a) ∧
      (out.answer = .ok () → t.exists? (key :: segments) = true → ∀ p, p <+: segments →
        ∀ x, out.tree.at? (key :: p) = some x → x.hasProp matchName = true ∨ x.children ≠ []) ∧
      (i.remove m' out.tree path key).tree.forget = out.tree.forget := by
  intro i segments out
  refine ⟨hasMatch_remove i hr m t path, ?_, forget_remove_remove order n m m' t path hr⟩
  intro hok ha p hp x hx
  have hocc := occupied_remove i hr ha hok hp hx
  by_contra hn
  rw [not_or, Bool.not_eq_true, Decidable.not_not] at hn
  rw [occupied_eq_false_iff.2 hn] at hocc
  cases hocc

end Index

/-- the chain `b`, beside an entry `a` that nothing points to -/
def Node.offChain : Node Unit :=
  ⟨(), [],
    [(":start", ⟨(), [(":next", .text "b")], []⟩),
      ("a", ⟨(), [(":next", .text "b")], [("p", ⟨(), [("match", .flag true)], []⟩)]⟩),
      ("b", ⟨(), [(":next", .text "")],
        [("p", ⟨(), [], [("q", ⟨(), [("match", .flag true)], []⟩),
          ("r", ⟨(), [("match", .flag true)], []⟩)]⟩)]⟩)]⟩

theorem Index.remove_leaves_no_debris_offChain :
    let i : Index Unit := .ofOrder (some .ascending) 100
    let out := i.remove () offChain "p/q" "b"
    i.isReserved "b" = false ∧ out.answer = .ok () ∧ offChain.exists? ["b", "p", "q"] = true ∧
      (∀ a, out.tree.HasMatch a ↔ a ≠ ["b", "p", "q"] ∧ offChain.HasMatch a) ∧
      (∀ x, out.tree.at? ["b", "p"] = some x → x.hasProp matchName = true ∨ x.children ≠ []) ∧
      (i.remove () out.tree "p/q" "b").tree.forget = out.tree.forget := by
  intro i out
  have hr : i.isReserved "b" = false := by decide
  have hseg : Path.segments "p/q" = ["p", "q"] := by decide
  have hok : out.answer = .ok () := by decide +kernel
  have ha : offChain.exists? ["b", "p", "q"] = true := by decide
  have h := remove_leaves_no_debris (some .ascending) 100 () () offChain "p/q" hr
  rw [hseg] at h
  obtain ⟨hmatch, hocc, hagain⟩ := h
  exact ⟨hr, hok, ha, hmatch, hocc hok ha ["p"] (by decide), hagain⟩

/-! ## Removals that fail -/

namespace OrderedIndex

variable {d : Direction} {n : Nat}

theorem remove_of_not_unlinks (hs : key ≠ startName) (hn : ¬ Unlinks t key (Path.segments path))
    (m : σ) : ((Index.ordered (.scanning d n)).remove m t path key).answer = .ok () := by
  have hr := isReserved_ordered (.scanning d n : OrderedIndex σ) hs
  cases hc : t.child? key with
  | none => rw [Index.remove_of_none _ hr hc, Outcome.answer_done]
  | some c =>
    rcases Index.remove_cases _ hr hc m path with ⟨_, he⟩ | ⟨hempty, he⟩
    · rw [he, Outcome.answer_done]
    · have hp : c.hasProp nextName = false := by
        by_contra hp
        exact hn ⟨c, hc, by simpa using hp, (emptied_unmark_iff m _ c).1 hempty⟩
      have hp1 : (c.unmark m (Path.segments path)).1.hasProp nextName = false := by
        unfold hasProp
        rw [prop?_unmark m _ c (by decide)]
        exact hp
      rw [he, Index.drop_of_no_pointer (child?_put m hc _) hp1, Outcome.answer_done]

/-- an entry that is to be unlinked has been hollowed out before the one in front of it is looked
for, and that search goes as it would have gone before -/
theorem remove_of_unlinks (hs : key ≠ startName) (hu : Unlinks t key (Path.segments path)) (m : σ) :
    ∃ t1, (Index.ordered (.scanning d n)).remove m t path key
        = (scanning d n : OrderedIndex σ).unlink m t1 key ∧
      t1.forget = (t.edit m [key] hollow).forget ∧ Lookup.scan t1 key = Lookup.scan t key := by
  obtain ⟨c, hc, hp, hl⟩ := hu
  have hc1 := child?_put m hc (c.unmark m (Path.segments path)).1
  have hnext : (c.unmark m (Path.segments path)).1.prop? nextName = c.prop? nextName :=
    prop?_unmark m _ c (by decide)
  refine ⟨t.edit m [key] fun _ => (c.unmark m (Path.segments path)).1, ?_, ?_, ?_⟩
  · rcases Index.remove_cases _ (isReserved_ordered (.scanning d n : OrderedIndex σ) hs) hc m path
      with ⟨hkept, _⟩ | ⟨_, he⟩
    · obtain ⟨h2, ho⟩ := (emptied_unmark_iff m _ c).2 hl
      rw [hkept h2] at ho
      cases ho
    · rw [he, Index.drop_of_pointer hc1 (by unfold hasProp; rw [hnext]; exact hp)]
  · rw [edit_eq_put m [] hollow hc, ← put_put (c.edit m [] hollow) _ hc]
    exact forget_put m (child?_put m hc _) (hl.forget_unmark m)
  · refine SamePointers.scan ⟨fun k => ?_, childCount_edit_cons m key [] _ t⟩ key
    rw [child?_edit]
    split
    · next e =>
      rw [e, hc]
      exact congrArg some (successor_eq_of_prop? hnext)
    · rfl

/-- hollowing out an entry changes nothing only if it was empty -/
theorem forget_edit_hollow_eq_iff (m : σ) (t : Node σ) (key : String) :
    (t.edit m [key] hollow).forget = t.forget ↔
      ∀ c, t.child? key = some c → c.occupied = false := by
  constructor
  · intro h c hc
    have hk := child?_forget (t.edit m [key] hollow) key
    rw [h, child?_forget, child?_edit, if_pos rfl, hc] at hk
    exact (forget_hollow_eq_iff c).1 (Option.some.inj hk).symm
  · intro h
    apply forget_edit
    intro c hc
    rw [at?_singleton] at hc
    exact (forget_hollow_eq_iff c).2 (h c hc)

/-- **A removal that fails has written already**, unless the key is reserved.  It fails when an entry
of the chain is left empty and the one in front of it is not found, because the walk breaks off or
does not meet the entry.  By then the entry has lost its match and its branch, which is no change
only if it was empty before. -/
theorem remove_fails_iff (d : Direction) (n : Nat) (m : σ) (t : Node σ) (path key : String) :
    let out := (Index.ordered (.scanning d n)).remove m t path key
    (∀ e, out.answer = .error e ↔ key = startName ∧ e = .reservedKey key ∨
        key ≠ startName ∧ Unlinks t key (Path.segments path) ∧
          (Lookup.scan t key = .error e ∨
            Lookup.scan t key = .ok none ∧ e = .corruption (.unreachable key))) ∧
      ∀ e, out.answer = .error e →
        (key = startName → out.tree = t) ∧
        (key ≠ startName → out.tree.forget = (t.edit m [key] hollow).forget) ∧
        (out.tree.forget = t.forget ↔
          key = startName ∨ ∀ c, t.child? key = some c → c.occupied = false) := by
  intro out
  by_cases hs : key = startName
  · subst hs
    have hout : out = .failed t (.reservedKey startName) := rfl
    rw [hout]
    refine ⟨fun e => ⟨?_, ?_⟩, fun e _ => ⟨fun _ => rfl, fun h => absurd rfl h,
      iff_of_true rfl (.inl rfl)⟩⟩
    · intro h
      cases h
      exact .inl ⟨rfl, rfl⟩
    · rintro (⟨_, rfl⟩ | ⟨h, _⟩)
      · rfl
      · exact absurd rfl h
  by_cases hu : Unlinks t key (Path.segments path)
  · obtain ⟨t1, he, hforget, hscan⟩ := remove_of_unlinks (d := d) (n := n) hs hu m
    have hfails : ∀ e, out.answer = .error e ↔ Lookup.scan t key = .error e ∨
        Lookup.scan t key = .ok none ∧ e = .corruption (.unreachable key) := by
      intro e
      rw [← hscan]
      exact (congrArg (fun o => o.answer = .error e) he).to_iff.trans unlink_answer_iff
    refine ⟨fun e => (hfails e).trans (by simp [hs, hu]), ?_⟩
    intro e herr
    have htree : out.tree = t1 := by
      have hout : out = (scanning d n : OrderedIndex σ).unlink m t1 key := he
      rw [hout, unlink_eq_failed (hout ▸ herr), Outcome.tree_failed]
    refine ⟨fun h => absurd h hs, fun _ => by rw [htree, hforget], ?_⟩
    rw [htree, hforget, forget_edit_hollow_eq_iff]
    simp [hs]
  · have hok : out.answer = .ok () := remove_of_not_unlinks hs hu m
    refine ⟨fun e => ?_, fun e herr => ?_⟩
    · rw [hok]
      simp [hs, hu]
    · rw [hok] at herr
      cases herr

/-- the entry `a` has lost its match when the walk turns out not to meet it -/
theorem remove_fails_offChain :
    let out := (Index.ordered (.scanning .ascending 100)).remove () offChain "p" "a"
    out.answer = .error (.corruption (.unreachable "a")) ∧ out.tree ≠ offChain ∧
      offChain.exists? ["a", "p"] = true ∧ out.tree.exists? ["a", "p"] = false := by
  decide +kernel

end OrderedIndex

end PropertyIndex
