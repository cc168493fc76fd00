import PropertyIndex.Proofs.Chain.Pointers
import PropertyIndex.Proofs.Chain.Splice

/-!
# Indexes whose chain is whole

Every write of an ordered index keeps its chain whole: the pointers lead from the head through all
other children, in the order of the direction, and end there.

* `Node.Chained`          the chain of an index is whole;
* `Chained.put`, `Chained.link`, `Chained.cut`   it stays whole when an entry is written to, linked
                          and unlinked;
* `Lookup.Sound`          a lookup that finds the entry before a key in every such index;
* `OrderedIndex.fetch_cases`   what seeing to an entry comes to, in any index;
* `Chained.fetch`, `Chained.insert`, `Chained.prune`, `Chained.remove`   what the writes come to.
-/

namespace PropertyIndex

variable {σ : Type} {m : σ} {d : Direction} {t t' : Node σ} {keys pre post : List String}
  {key : String}

/-- a name that may become a key of an ordered index -/
def Key.Usable (key : String) : Prop := key ≠ "" ∧ '/' ∉ key.toList ∧ key ≠ startName

instance (key : String) : Decidable (Key.Usable key) :=
  inferInstanceAs (Decidable (key ≠ "" ∧ '/' ∉ key.toList ∧ key ≠ startName))

namespace Node

/-- every child points somewhere, and the head has neither matches nor children -/
structure Pointed (t : Node σ) : Prop where
  text : ∀ k c, t.child? k = some c → ∃ s, c.prop? nextName = some (.text s)
  head : ∀ c, t.child? startName = some c → c.occupied = false

/-- the pointers lead from the head along the keys and end there; the keys are in order and can be
keys, and they are all children but the head -/
structure Chained (d : Direction) (t : Node σ) (keys : List String) : Prop extends Pointed t where
  linked : t.Linked keys
  ordered : keys.Pairwise d.precedes
  usable : ∀ k ∈ keys, Key.Usable k
  complete : ∀ k c, t.child? k = some c → k ≠ startName → k ∈ keys

/-! ## Pointers and the head -/

/-- a head without matches and children stays so, wherever it points -/
theorem head_point (h : ∀ c, t.child? startName = some c → c.occupied = false) (m : σ)
    (key next : String) (c : Node σ) (hc : (t.point m key next).child? startName = some c) :
    c.occupied = false := by
  have hput := put_point m t key next
  by_cases hk : startName = key
  · rw [← hk] at hput
    rw [← hk, hput.child_self] at hc
    cases hc
    rw [occupied_setProp_next]
    cases hs : t.child? startName with
    | none => rfl
    | some s => exact h s hs
  · exact h c (hput.child_ne hk ▸ hc)

namespace Pointed

theorem empty (m : σ) : (Node.empty m).Pointed where
  text _ _ h := by cases h
  head _ h := by cases h

theorem hasProp {c : Node σ} (h : t.Pointed) (hc : t.child? key = some c) :
    c.hasProp nextName = true := by
  obtain ⟨s, hs⟩ := h.text key c hc
  rw [Node.hasProp, hs]
  rfl

theorem put {c c' : Node σ} (h : t.Pointed) (hput : Put t key c' t') (hc : t.child? key = some c)
    (hs : key ≠ startName) (hp : c'.prop? nextName = c.prop? nextName) : t'.Pointed := by
  refine ⟨?_, fun e he => h.head e (hput.child_ne hs.symm ▸ he)⟩
  intro k e he
  by_cases hk : k = key
  · rw [hk, hput.child_self] at he
    cases he
    rw [hp]
    exact h.text key c hc
  · exact h.text k e (hput.child_ne hk ▸ he)

theorem point (h : t.Pointed) (m : σ) (key next : String) : (t.point m key next).Pointed := by
  have hput := put_point m t key next
  refine ⟨?_, head_point h.head m key next⟩
  intro k e he
  by_cases hk : k = key
  · rw [hk, hput.child_self] at he
    cases he
    exact ⟨next, by rw [prop?_setProp, if_pos rfl]⟩
  · exact h.text k e (hput.child_ne hk ▸ he)

theorem removeChild (h : t.Pointed) (m : σ) (key : String) : (t.removeChild m key).Pointed := by
  have hc : ∀ k c, (t.removeChild m key).child? k = some c → t.child? k = some c := by
    intro k c hk
    rw [child?_removeChild] at hk
    split at hk
    · cases hk
    · exact hk
  exact ⟨fun k c hk => h.text k c (hc k c hk), fun c hk => h.head c (hc _ c hk)⟩

end Pointed

/-! ## Linking and unlinking a key -/

theorem Linked.put {c c' : Node σ} (h : t.Linked keys) (hput : Put t key c' t')
    (hc : t.child? key = some c) (hp : c'.prop? nextName = c.prop? nextName) :
    t'.Linked keys := by
  apply h.congr
  intro k _
  rw [hput.child]
  split
  · next e => rw [e, hc, Option.map_some, Option.map_some, successor_eq_of_prop? hp]
  · rfl

theorem previous_ne (hk : key ∉ pre) (hs : key ≠ startName) : pre.getLastD startName ≠ key := by
  rcases List.eq_nil_or_concat pre with rfl | ⟨front, last, rfl⟩
  · exact hs.symm
  · rw [List.concat_eq_append, List.getLastD_concat]
    rintro rfl
    exact hk (by simp)

theorem previous_mem (hs : pre.getLastD startName ≠ startName) : pre.getLastD startName ∈ pre := by
  rcases List.eq_nil_or_concat pre with rfl | ⟨front, last, rfl⟩
  · exact absurd rfl hs
  · rw [List.concat_eq_append, List.getLastD_concat]
    simp

theorem Linked.link (h : t.Linked (pre ++ post)) (hkey : key ≠ "") (hs : key ≠ startName)
    (hk : key ∉ pre ++ post) (m : σ) :
    (t.link m (pre.getLastD startName) key (post.headD "")).Linked (pre ++ key :: post) := by
  have hprev : pre.getLastD startName ≠ key :=
    previous_ne (fun hmem => hk (List.mem_append_left post hmem)) hs
  refine h.splice hkey ?_ ?_ ?_ ?_
  · rw [child?_link hprev, if_neg hprev, if_pos rfl, Option.map_some, successor_setProp]
  · rw [child?_link hprev, if_pos rfl, Option.map_some, successor_setProp]
  · intro k h1 h2
    rw [child?_link hprev, if_neg h2, if_neg h1]
  · rw [List.mem_cons, not_or]
    exact ⟨hs, hk⟩

theorem Linked.previous_ne (h : t.Linked (pre ++ key :: post)) :
    pre.getLastD startName ≠ key := by
  have hn := h.nodup
  rw [← List.cons_append, List.nodup_append] at hn
  have hkey : key ∉ startName :: pre := fun hk => hn.2.2 key hk key List.mem_cons_self rfl
  rw [List.mem_cons, not_or] at hkey
  exact Node.previous_ne hkey.2 hkey.1

theorem Linked.cut (h : t.Linked (pre ++ key :: post)) (m : σ) :
    (t.cut m (pre.getLastD startName) key (post.headD "")).Linked (pre ++ post) := by
  refine h.unsplice ?_ ?_
  · rw [child?_cut, if_neg h.previous_ne, if_pos rfl, Option.map_some, successor_setProp]
  · intro k h1 h2
    rw [child?_cut, if_neg h2, if_neg h1]

namespace Chained

theorem empty (d : Direction) (m : σ) : (Node.empty m).Chained d [] where
  toPointed := .empty m
  linked := .stop ""
  ordered := .nil
  usable _ h := by cases h
  complete _ _ h := by cases h

theorem congr (h : t.Chained d keys) (hs : ∀ k, t'.child? k = t.child? k) :
    t'.Chained d keys where
  text k c hc := h.text k c (hs k ▸ hc)
  head c hc := h.head c (hs startName ▸ hc)
  linked := h.linked.congr fun k _ => by rw [hs]
  ordered := h.ordered
  usable := h.usable
  complete k c hc := h.complete k c (hs k ▸ hc)

/-! ## Keys and children -/

theorem exists_child (h : t.Chained d keys) (hk : key ∈ keys) : ∃ c, t.child? key = some c :=
  (Trail.mem h.linked hk).2

theorem mem_of_hasMatch (h : t.Chained d keys) {a : List String} (hm : t.HasMatch (key :: a)) :
    key ∈ keys := by
  obtain ⟨c, hc, ha⟩ := hasMatch_cons.1 hm
  refine h.complete key c hc ?_
  rintro rfl
  exact not_hasMatch_of_not_occupied (h.head c hc) a ha

theorem child?_eq_none (h : t.Chained d keys) (hk : key ∉ keys) (hs : key ≠ startName) :
    t.child? key = none := by
  cases hc : t.child? key with
  | none => rfl
  | some c => exact absurd (h.complete key c hc hs) hk

theorem ne_startName (h : t.Chained d keys) (hk : key ∈ keys) : key ≠ startName :=
  (h.usable key hk).2.2

theorem hasChild_startName (h : t.Chained d keys) (hk : keys ≠ []) :
    t.hasChild startName = true := by
  cases hc : t.child? startName with
  | some c => exact hasChild_iff.2 ⟨c, hc⟩
  | none =>
    exact absurd (h.linked.unique (linked_nil (Entry.next_start_none hc))) hk

theorem children_eq_nil (h : t.Chained d keys) (hs : t.hasChild startName = false) :
    t.children = [] := by
  cases he : t.children with
  | nil => rfl
  | cons p r =>
    obtain ⟨k, c⟩ := p
    have hc : t.child? k = some c := by
      unfold child?
      rw [he]
      exact SortedMap.get?_cons_self k c r
    have hk : k ≠ startName := by
      rintro rfl
      rw [hasChild_eq_false_iff, hc] at hs
      cases hs
    have hne : keys ≠ [] := List.ne_nil_of_mem (h.complete k c hc hk)
    rw [h.hasChild_startName hne] at hs
    cases hs

/-! ## Writing to an entry, linking, unlinking -/

/-- the chain stays whole when an entry is written to and keeps its pointer -/
theorem put {c c' : Node σ} (h : t.Chained d keys) (hput : Put t key c' t')
    (hc : t.child? key = some c) (hs : key ≠ startName)
    (hp : c'.prop? nextName = c.prop? nextName) : t'.Chained d keys where
  toPointed := h.toPointed.put hput hc hs hp
  linked := h.linked.put hput hc hp
  ordered := h.ordered
  usable := h.usable
  complete k e he hk := by
    by_cases hkey : k = key
    · rw [hkey] at hk ⊢
      exact h.complete key c hc hk
    · exact h.complete k e (hput.child_ne hkey ▸ he) hk

theorem link (h : t.Chained d (pre ++ post)) (hu : Key.Usable key) (hk : key ∉ pre ++ post)
    (ho : (pre ++ key :: post).Pairwise d.precedes) (m : σ) :
    (t.link m (pre.getLastD startName) key (post.headD "")).Chained d (pre ++ key :: post) := by
  have hprev : pre.getLastD startName ≠ key :=
    previous_ne (fun hmem => hk (List.mem_append_left post hmem)) hu.2.2
  refine ⟨(h.toPointed.point m _ _).point m _ _, h.linked.link hu.1 hu.2.2 hk m, ho, ?_, ?_⟩
  · intro k hmem
    rcases List.mem_append.1 hmem with hmem | hmem
    · exact h.usable k (List.mem_append_left post hmem)
    · rcases List.mem_cons.1 hmem with rfl | hmem
      · exact hu
      · exact h.usable k (List.mem_append_right pre hmem)
  · intro k c hc hs
    have hsub : ∀ x ∈ pre ++ post, x ∈ pre ++ key :: post :=
      fun x hx => (List.sublist_cons_self key post).append_left pre |>.mem hx
    rw [child?_link hprev] at hc
    split at hc
    · next e => rw [e]; simp
    · split at hc
      · next e =>
        rw [e] at hs ⊢
        exact List.mem_append_left _ (previous_mem hs)
      · exact hsub k (h.complete k c hc hs)

theorem cut (h : t.Chained d (pre ++ key :: post)) (m : σ) :
    (t.cut m (pre.getLastD startName) key (post.headD "")).Chained d (pre ++ post) := by
  have hsub : (pre ++ post).Sublist (pre ++ key :: post) :=
    (List.sublist_cons_self key post).append_left pre
  refine ⟨(h.toPointed.point m _ _).removeChild m key, h.linked.cut m, h.ordered.sublist hsub,
    fun k hmem => h.usable k (hsub.mem hmem), ?_⟩
  · intro k c hc hs
    rw [child?_cut] at hc
    split at hc
    · cases hc
    · next hne =>
      split at hc
      · next e =>
        rw [e] at hs ⊢
        exact List.mem_append_left _ (previous_mem hs)
      · have hmem := h.complete k c hc hs
        simpa [hne] using hmem

end Chained

end Node

/-! ## Finding the entry before a key -/

/-- in an index whose chain is whole, a lookup finds the entry before a key, and none before the
head -/
def Lookup.Sound (d : Direction) (l : Lookup σ) : Prop :=
  ∀ {t : Node σ} {keys : List String}, t.Chained d keys → l t startName = .ok none ∧
    ∀ pre key post, keys = pre ++ key :: post → l t key = .ok (some (pre.getLastD startName))

theorem Lookup.sound_scan (d : Direction) : (scan : Lookup σ).Sound d :=
  fun {t _} h => ⟨scan_startName t, fun _ _ _ e => scan_of_linked (e ▸ h.linked)⟩

/-! ## Seeing to it that a key has an entry -/

variable {o : OrderedIndex σ}

theorem OrderedIndex.fetch_unusable (hu : ¬ Key.Usable key) (o : OrderedIndex σ) (m : σ)
    (t : Node σ) : ∃ e : Error, e.kind = .invalidKey ∧ o.fetch m t key = .failed t e := by
  unfold OrderedIndex.fetch Key.check
  by_cases h1 : key = ""
  · exact ⟨.emptyKey, rfl, by rw [if_pos h1]⟩
  by_cases h2 : '/' ∈ key.toList
  · exact ⟨.compoundKey key, rfl, by rw [if_neg h1, if_pos h2]⟩
  by_cases h3 : key = startName
  · exact ⟨.reservedKey key, rfl, by rw [if_neg h1, if_neg h2]; exact if_pos h3⟩
  · exact absurd ⟨h1, h2, h3⟩ hu

theorem OrderedIndex.fetch_of_pointer {c : Node σ} (hu : Key.Usable key)
    (hc : t.child? key = some c) (hp : c.hasProp nextName = true) (o : OrderedIndex σ) (m : σ) :
    o.fetch m t key = .done (t.grow m [key] fun c => c) := by
  unfold OrderedIndex.fetch
  rw [Key.check_eq_ok_iff.2 ⟨hu.1, hu.2.1⟩]
  simp only [if_neg hu.2.2, hc, hp, if_true]

theorem OrderedIndex.fetch_of_no_pointer {c : Node σ} (hu : Key.Usable key)
    (hc : t.child? key = some c) (hp : c.hasProp nextName = false) (o : OrderedIndex σ) (m : σ) :
    o.fetch m t key = .failed t (.corruption (.outsideChain key)) := by
  unfold OrderedIndex.fetch
  rw [Key.check_eq_ok_iff.2 ⟨hu.1, hu.2.1⟩]
  simp only [if_neg hu.2.2, hc, hp, Bool.false_eq_true, if_false]

theorem OrderedIndex.fetch_of_none {previous next : String} (hu : Key.Usable key)
    (hc : t.child? key = none) (hi : insertionPoint o.direction t key = .ok (previous, next))
    (m : σ) : o.fetch m t key = .done (t.link m previous key next) := by
  unfold OrderedIndex.fetch
  rw [Key.check_eq_ok_iff.2 ⟨hu.1, hu.2.1⟩]
  simp only [if_neg hu.2.2, hc, hi]

theorem OrderedIndex.fetch_of_no_place {e : Error} (hu : Key.Usable key)
    (hc : t.child? key = none) (hi : insertionPoint o.direction t key = .error e) (m : σ) :
    o.fetch m t key = .failed t e := by
  unfold OrderedIndex.fetch
  rw [Key.check_eq_ok_iff.2 ⟨hu.1, hu.2.1⟩]
  simp only [if_neg hu.2.2, hc, hi]

/-- the key is refused and nothing changes, or its entry is there already, or it is linked -/
theorem OrderedIndex.fetch_cases (o : OrderedIndex σ) (m : σ) (t : Node σ) (key : String) :
    (∃ e, o.fetch m t key = .failed t e) ∨
    (Key.Usable key ∧ t.hasChild key = true ∧
      o.fetch m t key = .done (t.grow m [key] fun c => c)) ∨
    (Key.Usable key ∧ t.hasChild key = false ∧ ∃ previous next,
      insertionPoint o.direction t key = .ok (previous, next) ∧
      o.fetch m t key = .done (t.link m previous key next)) := by
  by_cases hu : Key.Usable key
  · cases hc : t.child? key with
    | some c =>
      cases hp : c.hasProp nextName with
      | true => exact .inr (.inl ⟨hu, Node.hasChild_iff.2 ⟨c, hc⟩, fetch_of_pointer hu hc hp o m⟩)
      | false => exact .inl ⟨_, fetch_of_no_pointer hu hc hp o m⟩
    | none =>
      cases hi : insertionPoint o.direction t key with
      | error e => exact .inl ⟨e, fetch_of_no_place hu hc hi m⟩
      | ok place =>
        exact .inr (.inr ⟨hu, Node.hasChild_eq_false_iff.2 hc, place.1, place.2, rfl,
          fetch_of_none hu hc hi m⟩)
  · obtain ⟨e, _, he⟩ := fetch_unusable hu o m t
    exact .inl ⟨e, he⟩

namespace Node.Chained

theorem fetch_of_mem (h : t.Chained o.direction keys) (hk : key ∈ keys) :
    o.fetch m t key = .done (t.grow m [key] fun c => c) := by
  obtain ⟨c, hc⟩ := h.exists_child hk
  exact OrderedIndex.fetch_of_pointer (h.usable key hk) hc (h.hasProp hc) o m

theorem fetch_of_notMem (h : t.Chained o.direction keys) (hu : Key.Usable key)
    (hk : key ∉ keys) : ∃ pre post, keys = pre ++ post ∧
      (pre ++ key :: post).Pairwise o.direction.precedes ∧
      o.fetch m t key = .done (t.link m (pre.getLastD startName) key (post.headD "")) := by
  obtain ⟨pre, post, hkeys, ho, hi⟩ := exists_insertionPoint h.linked h.ordered hk
  exact ⟨pre, post, hkeys, ho,
    OrderedIndex.fetch_of_none hu (h.child?_eq_none hk hu.2.2) hi m⟩

/-- a key that can be one gets an entry, and no match changes -/
theorem fetch (h : t.Chained o.direction keys) (hu : Key.Usable key) (m : σ) :
    ∃ t' keys', o.fetch m t key = .done t' ∧ t'.Chained o.direction keys' ∧
      (∀ k, k ∈ keys' ↔ k = key ∨ k ∈ keys) ∧
      (∀ k a, t'.HasMatch (k :: a) ↔ t.HasMatch (k :: a)) ∧ (t.Neat → t'.Neat) := by
  by_cases hk : key ∈ keys
  · obtain ⟨c, hc⟩ := h.exists_child hk
    have hput : Put t key c (t.grow m [key] fun c => c) := by
      have hg := Put.grow m t key [] fun c => c
      rwa [hc] at hg
    refine ⟨_, keys, h.fetch_of_mem hk, h.put hput hc hu.2.2 rfl, ?_, ?_,
      fun hn => hn.put hput (hn.sorted.child? hc) (hn.tidy key c hc)⟩
    · intro k
      constructor
      · exact .inr
      · intro hx
        rcases hx with rfl | hmem
        · exact hk
        · exact hmem
    · intro k a
      rw [hput.hasMatch]
      split
      · next e => rw [e, hasMatch_cons, hc]; simp
      · exact Iff.rfl
  · obtain ⟨pre, post, rfl, ho, hf⟩ := h.fetch_of_notMem (m := m) hu hk
    refine ⟨_, pre ++ key :: post, hf, h.link hu hk ho m, ?_,
      fun k a => hasMatch_link m t _ key _ k a, fun hn => hn.link m _ key _⟩
    intro k
    simp only [List.mem_append, List.mem_cons]
    exact or_left_comm

end Node.Chained

end PropertyIndex
