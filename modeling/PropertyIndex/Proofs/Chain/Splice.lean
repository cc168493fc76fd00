import Mathlib.Data.List.TakeWhile
import PropertyIndex.Chain.Lookup
import PropertyIndex.Proofs.Chain.Trail

/-!
# Splicing a chain

A place in a chain is between the keys before it and the keys after it.  The node before the place
is the last of the former, or the head, and the name after it is the first of the latter, or empty.

* `Trail.congr`           a trail depends on the pointers of the nodes it visits only;
* `Node.Linked.replace`   the keys at a place are replaced by redirecting the node before it;
* `Node.Linked.splice`, `Node.Linked.unsplice`   one key is put in, and taken out;
* `insertionPoint_of_linked`   where the place of a new key is found;
* `Lookup.scan_of_linked`      what a scan finds before a key.
-/

namespace PropertyIndex

variable {σ : Type} {d : Direction} {t t' : Node σ}

/-! ## Trails in two trees -/

namespace Trail

variable {p q : String} {ks : List String}

theorem congr (h : Trail t p ks q)
    (hs : ∀ k ∈ ks, (t'.child? k).map Node.successor = (t.child? k).map Node.successor) :
    Trail t' p ks q := by
  induction h with
  | stop p => exact .stop p
  | @hop p q ks c hp hc rest ih =>
    have hp' := hs p List.mem_cons_self
    rw [hc, Option.map_some, Option.map_eq_some_iff] at hp'
    obtain ⟨c', hc', e⟩ := hp'
    refine .hop hp hc' ?_
    rw [e]
    exact ih fun k hk => hs k (List.mem_cons_of_mem p hk)

theorem start_eq (h : Trail t p ks "") : p = ks.headD "" := by
  cases h <;> rfl

end Trail

namespace Node

variable {keys pre mid mid' post : List String} {key p : String}

theorem Linked.nodup (h : t.Linked keys) : (startName :: keys).Nodup :=
  List.nodup_cons.2 ⟨startName_notMem_of_linked h, Trail.nodup h t.stuck_empty⟩

theorem Linked.unique {ks ls : List String} (h : t.Linked ks) (h' : t.Linked ls) : ks = ls :=
  (Trail.unique h t.stuck_empty h' t.stuck_empty).1

theorem Linked.congr (h : t.Linked keys) (hs : ∀ k ∈ startName :: keys,
    (t'.child? k).map Node.successor = (t.child? k).map Node.successor) : t'.Linked keys := by
  have hstart : (Entry.start t').next = (Entry.start t).next :=
    congrArg (Option.getD · "") (hs startName List.mem_cons_self)
  unfold Linked
  rw [hstart]
  exact Trail.congr h fun k hk => hs k (List.mem_cons_of_mem startName hk)

theorem Linked.successor_eq {c : Node σ} (h : t.Linked (pre ++ key :: post))
    (hc : t.child? key = some c) : c.successor = post.headD "" := by
  obtain ⟨q, -, h2⟩ := Trail.split h
  obtain ⟨rfl, -, c', hc', rest⟩ := h2.of_cons
  rw [hc] at hc'
  cases hc'
  exact rest.start_eq

theorem Linked.head_successor_eq {c : Node σ} (h : t.Linked keys)
    (hc : t.child? startName = some c) : c.successor = keys.headD "" := by
  rw [← Entry.next_start_some hc]
  exact Trail.start_eq h

/-! ## Replacing what is at a place -/

/-- redirecting the node before a place changes where the way to that place leads -/
theorem trail_to_place {q : String} (h : Trail t (Entry.start t).next pre q)
    (hn : (startName :: pre).Nodup)
    (hprev : (t'.child? (pre.getLastD startName)).map Node.successor = some p)
    (hs : ∀ k ∈ startName :: pre, k ≠ pre.getLastD startName →
      (t'.child? k).map Node.successor = (t.child? k).map Node.successor) :
    Trail t' (Entry.start t').next pre p := by
  rcases List.eq_nil_or_concat pre with rfl | ⟨front, last, rfl⟩
  · have e : (Entry.start t').next = p := congrArg (Option.getD · "") hprev
    rw [e]
    exact .stop p
  · rw [List.concat_eq_append] at *
    rw [List.getLastD_concat] at hprev hs
    obtain ⟨r, h1, h2⟩ := h.split
    obtain ⟨rfl, hr, c, hc, -⟩ := h2.of_cons
    rw [← List.cons_append, List.nodup_append] at hn
    have hne : ∀ k ∈ startName :: front, k ≠ last :=
      fun k hk e => hn.2.2 k hk last List.mem_cons_self e
    have hs' : ∀ k ∈ startName :: front,
        (t'.child? k).map Node.successor = (t.child? k).map Node.successor := by
      intro k hk
      refine hs k ?_ (hne k hk)
      rw [← List.cons_append]
      exact List.mem_append_left _ hk
    have hstart : (Entry.start t').next = (Entry.start t).next :=
      congrArg (Option.getD · "") (hs' startName List.mem_cons_self)
    obtain ⟨c', hc', rfl⟩ := Option.map_eq_some_iff.1 hprev
    rw [hstart]
    exact (h1.congr fun k hk => hs' k (List.mem_cons_of_mem _ hk)).append
      (.hop hr hc' (.stop c'.successor))

/-- the keys at a place are replaced by redirecting the node before it to a trail that comes back
behind the place -/
theorem Linked.replace (h : t.Linked (pre ++ (mid ++ post)))
    (hprev : (t'.child? (pre.getLastD startName)).map Node.successor = some p)
    (hmid : Trail t' p mid' (post.headD ""))
    (hs : ∀ k ∈ startName :: pre ++ post, k ≠ pre.getLastD startName →
      (t'.child? k).map Node.successor = (t.child? k).map Node.successor) :
    t'.Linked (pre ++ (mid' ++ post)) := by
  have hn := h.nodup
  rw [← List.cons_append, List.nodup_append] at hn
  obtain ⟨q, h1, h2⟩ := Trail.split h
  obtain ⟨r, -, h3⟩ := h2.split
  have hpost : Trail t' (post.headD "") post "" := by
    rw [h3.start_eq] at h3
    apply h3.congr
    intro k hk
    apply hs k (List.mem_append_right _ hk)
    intro e
    have hlast : pre.getLastD startName ∈ startName :: pre := by
      rw [← List.getLast_eq_getLastD (List.cons_ne_nil startName pre)]
      exact List.getLast_mem _
    exact hn.2.2 _ hlast k (List.mem_append_right mid hk) e.symm
  have hpre := trail_to_place h1 hn.1 hprev fun k hk => hs k (List.mem_append_left post hk)
  exact hpre.append (hmid.append hpost)

theorem Linked.splice (h : t.Linked (pre ++ post)) (hkey : key ≠ "")
    (hprev : (t'.child? (pre.getLastD startName)).map Node.successor = some key)
    (hnew : (t'.child? key).map Node.successor = some (post.headD ""))
    (hs : ∀ k, k ≠ pre.getLastD startName → k ≠ key →
      (t'.child? k).map Node.successor = (t.child? k).map Node.successor)
    (hmem : key ∉ startName :: (pre ++ post)) : t'.Linked (pre ++ key :: post) := by
  obtain ⟨c, hc, e⟩ := Option.map_eq_some_iff.1 hnew
  have hmid : Trail t' key [key] (post.headD "") := .hop hkey hc (e ▸ .stop c.successor)
  have h' : t.Linked (pre ++ ([] ++ post)) := h
  refine h'.replace hprev hmid fun k hk hp => hs k hp ?_
  rintro rfl
  rw [List.cons_append] at hk
  exact hmem hk

theorem Linked.unsplice (h : t.Linked (pre ++ key :: post))
    (hprev : (t'.child? (pre.getLastD startName)).map Node.successor = some (post.headD ""))
    (hs : ∀ k, k ≠ pre.getLastD startName → k ≠ key →
      (t'.child? k).map Node.successor = (t.child? k).map Node.successor) :
    t'.Linked (pre ++ post) := by
  have hn := h.nodup
  have h' : t.Linked (pre ++ ([key] ++ post)) := h
  refine h'.replace hprev (.stop _) fun k hk hp => hs k hp ?_
  rintro rfl
  rw [← List.cons_append, List.nodup_append, List.nodup_cons (l := post)] at hn
  rcases List.mem_append.1 hk with hk | hk
  · exact hn.2.2 k hk k List.mem_cons_self rfl
  · exact hn.2.1.1 hk

end Node

/-! ## Finding a place -/

variable {keys pre post : List String} {key : String}

theorem insertionPointIn_of_trail {x : Entry σ} {p : String} {ks : List String} (hx : x.next = p)
    (h : Trail t p ks "") : insertionPointIn d key (.ok x :: ks.map t.item)
      = .ok ((ks.takeWhile fun k => ¬ d.precedes key k).getLastD x.name,
          (ks.dropWhile fun k => ¬ d.precedes key k).headD "") := by
  induction ks generalizing x p with
  | nil =>
    have hp : p = "" := h.start_eq
    rw [List.map_nil, insertionPointIn, hx, hp, if_pos (.inl rfl)]
    rfl
  | cons k ks ih =>
    obtain ⟨rfl, hp, c, hc, rest⟩ := h.of_cons
    rw [insertionPointIn, hx]
    by_cases hk : d.precedes key k
    · rw [if_pos (.inr hk)]
      simp [hk]
    · rw [if_neg (by simp [hp, hk]), List.map_cons, Node.item, hc,
        ih (x := ⟨k, some c⟩) rfl rest, List.takeWhile_cons_of_pos (by simpa using hk),
        List.dropWhile_cons_of_pos (by simpa using hk), List.getLastD_cons]

/-- without a first key the head points nowhere -/
theorem Entry.next_start_of_firstKey (h : t.firstKey = none) : (Entry.start t).next = "" := by
  unfold Node.firstKey at h
  cases hc : t.child? startName with
  | none => exact Entry.next_start_none hc
  | some c =>
    rw [Entry.next_start_some hc, Node.successor]
    rw [hc] at h
    cases ht : c.text? nextName with
    | none => rfl
    | some s => simpa [ht] using h

/-- a new key belongs before the first key that it precedes -/
theorem insertionPoint_of_linked (h : t.Linked keys) (key : String) : insertionPoint d t key
      = .ok ((keys.takeWhile fun k => ¬ d.precedes key k).getLastD startName,
          (keys.dropWhile fun k => ¬ d.precedes key k).headD "") := by
  unfold insertionPoint
  split
  · next hf =>
    rw [h.unique (Node.linked_nil (Entry.next_start_of_firstKey hf))]
    rfl
  · rw [Node.chain_true, Node.chain_of_linked h]
    exact insertionPointIn_of_trail rfl h

/-- a new key has a place in an ordered chain, and that place is found -/
theorem exists_insertionPoint (h : t.Linked keys) (ho : keys.Pairwise d.precedes)
    (hkey : key ∉ keys) : ∃ pre post, keys = pre ++ post ∧
      (pre ++ key :: post).Pairwise d.precedes ∧
      insertionPoint d t key = .ok (pre.getLastD startName, post.headD "") := by
  refine ⟨_, _, List.takeWhile_append_dropWhile.symm, ?_, insertionPoint_of_linked h key⟩
  have hbefore : ∀ k ∈ keys.takeWhile fun k => ¬ d.precedes key k, d.precedes k key := by
    intro k hk
    have hn : ¬ d.precedes key k := by simpa using List.mem_takeWhile_imp hk
    rcases d.precedes_or_eq_or_precedes k key with hp | e | hp
    · exact hp
    · exact absurd (e ▸ (List.takeWhile_sublist _).mem hk) hkey
    · exact absurd hp hn
  have hafter : ∀ k ∈ keys.dropWhile fun k => ¬ d.precedes key k, d.precedes key k := by
    intro k hk
    have hsorted := ho.sublist (List.dropWhile_sublist fun k => ¬ d.precedes key k)
    cases hd : keys.dropWhile fun k => ¬ d.precedes key k with
    | nil => rw [hd] at hk; cases hk
    | cons first rest =>
      have hfirst : d.precedes key first := by
        have hnot := List.head?_dropWhile_not (fun k => decide (¬ d.precedes key k)) keys
        rw [hd] at hnot
        simpa using hnot
      rw [hd] at hk hsorted
      rcases List.mem_cons.1 hk with rfl | hk
      · exact hfirst
      · exact Direction.precedes_trans hfirst ((List.pairwise_cons.1 hsorted).1 k hk)
  rw [← List.takeWhile_append_dropWhile (p := fun k => ¬ d.precedes key k) (l := keys)] at ho
  obtain ⟨h1, h2, h12⟩ := List.pairwise_append.1 ho
  refine List.pairwise_append.2 ⟨h1, List.pairwise_cons.2 ⟨hafter, h2⟩, ?_⟩
  intro a ha b hb
  rcases List.mem_cons.1 hb with rfl | hb
  · exact hbefore a ha
  · exact h12 a ha b hb

namespace Lookup

theorem before_append {previous : Option String} (hkey : key ∉ pre) (rest : List (Item σ)) :
    before key previous (pre.map t.item ++ rest) = before key (pre.getLast?.or previous) rest := by
  induction pre generalizing previous with
  | nil => rfl
  | cons k pre ih =>
    have hk : k ≠ key ∧ key ∉ pre := by
      rw [List.mem_cons, not_or] at hkey
      exact ⟨Ne.symm hkey.1, hkey.2⟩
    rw [List.map_cons, List.cons_append, Node.item, before, if_neg hk.1, ih hk.2]
    cases pre with
    | nil => rfl
    | cons j js => rw [List.getLast?_cons_cons]; rfl

/-- a scan finds the node before a key of the chain -/
theorem scan_of_linked (h : t.Linked (pre ++ key :: post)) :
    scan t key = .ok (some (pre.getLastD startName)) := by
  have hn := h.nodup
  rw [← List.cons_append, List.nodup_append] at hn
  have hkey : key ∉ startName :: pre := fun hk => hn.2.2 key hk key List.mem_cons_self rfl
  have hstart : key ≠ startName := fun e => hkey (e ▸ List.mem_cons_self)
  unfold scan
  rw [if_neg hstart, Node.chain_true, Node.chain_of_linked h, ← List.map_cons, ← List.cons_append,
    List.map_append, before_append hkey, List.map_cons, Node.item, before, if_pos rfl,
    List.getLast?_cons, Option.some_or, List.getLastD_eq_getLast?]

theorem scan_startName (t : Node σ) : scan t startName = .ok none := if_pos rfl

end Lookup

end PropertyIndex
