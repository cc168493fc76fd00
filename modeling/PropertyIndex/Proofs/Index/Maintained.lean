import PropertyIndex.Proofs.Chain.Integrity
import PropertyIndex.Proofs.Index.Effects
import PropertyIndex.Proofs.Index.Run

/-!
# Writing to an index that passes the check

The check asks less of an index than its own writes see to.  The last entry of a chain may lack a
pointer, there may be children that are no entries at all, and below an entry there may be more than
its matches.  So what a write comes to is stated for every index that passes, in terms of these.

* `Node.Threaded`       what the check asks of an index, but for the matches;
* `Threaded.put`, `Threaded.link`, `Threaded.cut`, `Threaded.removeChild`   the writes that keep it;
* `Node.not_linked_of_removed`   the one that does not: the last entry goes, and the one before it
                        still points to it;
* `SoundChain.insert`, `SoundChain.remove`   what the writes of matches come to;
* `OrderedIndex.writes_to_checked`   the same in terms of the check.
-/

namespace PropertyIndex

variable {σ : Type} {m : σ} {d : Direction} {t t' c c' : Node σ} {keys pre post : List String}
  {key : String}

namespace Node

/-! ## Chains without regard to matches -/

/-- what the check asks of an index, but for the matches -/
structure Threaded (d : Direction) (t : Node σ) (keys : List String) : Prop where
  head : ∀ c, t.child? startName = some c → c.occupied = false
  linked : t.Linked keys
  ordered : keys.Pairwise d.precedes
  complete : ∀ k c, t.child? k = some c → k ≠ startName → c.hasProp nextName = true → k ∈ keys

theorem soundChain_iff :
    t.SoundChain d keys ↔ t.Threaded d keys ∧ ∀ k ∈ keys, ∃ a, t.HasMatch (k :: a) := by
  constructor
  · intro h
    exact ⟨⟨fun c hc => occupied_eq_false_iff.2 (h.head c hc), h.linked,
      List.isChain_iff_pairwise.1 h.ordered, h.complete⟩, h.matched⟩
  · intro hx
    obtain ⟨h, hm⟩ := hx
    exact ⟨fun c hc => occupied_eq_false_iff.1 (h.head c hc), h.linked,
      List.isChain_iff_pairwise.2 h.ordered, hm, h.complete⟩

namespace Threaded

theorem put (h : t.Threaded d keys) (hput : Put t key c' t') (hc : t.child? key = some c)
    (hs : key ≠ startName) (hp : c'.prop? nextName = c.prop? nextName) :
    t'.Threaded d keys where
  head e he := h.head e (hput.child_ne hs.symm ▸ he)
  linked := h.linked.put hput hc hp
  ordered := h.ordered
  complete k e he hk hn := by
    by_cases hkey : k = key
    · rw [hkey] at he hk ⊢
      rw [hput.child_self] at he
      cases he
      unfold hasProp at hn
      rw [hp] at hn
      exact h.complete key c hc hk hn
    · exact h.complete k e (hput.child_ne hkey ▸ he) hk hn

theorem link (h : t.Threaded d (pre ++ post)) (hu : Key.Usable key) (hk : key ∉ pre ++ post)
    (ho : (pre ++ key :: post).Pairwise d.precedes) (m : σ) :
    (t.link m (pre.getLastD startName) key (post.headD "")).Threaded d (pre ++ key :: post) := by
  have hprev : pre.getLastD startName ≠ key :=
    previous_ne (fun hmem => hk (List.mem_append_left post hmem)) hu.2.2
  refine ⟨head_point (head_point h.head m _ _) m _ _, h.linked.link hu.1 hu.2.2 hk m, ho, ?_⟩
  intro k c hc hs hn
  rw [child?_link hprev] at hc
  split at hc
  · next e => rw [e]; simp
  · split at hc
    · next e =>
      rw [e] at hs ⊢
      exact List.mem_append_left _ (previous_mem hs)
    · exact ((List.sublist_cons_self key post).append_left pre).mem (h.complete k c hc hs hn)

theorem cut (h : t.Threaded d (pre ++ key :: post)) (m : σ) :
    (t.cut m (pre.getLastD startName) key (post.headD "")).Threaded d (pre ++ post) := by
  refine ⟨?_, h.linked.cut m,
    h.ordered.sublist ((List.sublist_cons_self key post).append_left pre), ?_⟩
  · intro c hc
    unfold Node.cut at hc
    rw [child?_removeChild] at hc
    split at hc
    · cases hc
    · exact head_point h.head m _ _ c hc
  · intro k c hc hs hn
    rw [child?_cut] at hc
    split at hc
    · cases hc
    · next hne =>
      split at hc
      · next e =>
        rw [e] at hs ⊢
        exact List.mem_append_left _ (previous_mem hs)
      · have hmem := h.complete k c hc hs hn
        simpa [hne] using hmem

/-- a child that is no entry may go -/
theorem removeChild (h : t.Threaded d keys) (hk : key ∉ startName :: keys) (m : σ) :
    (t.removeChild m key).Threaded d keys := by
  have hc : ∀ k c, (t.removeChild m key).child? k = some c → t.child? k = some c := by
    intro k c hk
    rw [child?_removeChild] at hk
    split at hk
    · cases hk
    · exact hk
  refine ⟨fun c hs => h.head c (hc _ c hs), ?_, h.ordered,
    fun k c hk' hs hn => h.complete k c (hc k c hk') hs hn⟩
  apply h.linked.congr
  intro k hmem
  have hne : k ≠ key := fun e => hk (e ▸ hmem)
  rw [child?_removeChild, if_neg hne]

end Threaded

/-- without the child of the last key, the pointers still lead to its name -/
theorem not_linked_of_removed (h : t.Linked (pre ++ [key])) (m : σ) (ks : List String) :
    ¬ (t.removeChild m key).Linked ks := by
  have hn := h.nodup
  rw [← List.cons_append, List.nodup_append] at hn
  have hne : ∀ k ∈ startName :: pre, k ≠ key :=
    fun k hk => hn.2.2 k hk key List.mem_cons_self
  have hkeep : ∀ k ∈ startName :: pre, (t.removeChild m key).child? k = t.child? k := by
    intro k hk
    rw [child?_removeChild, if_neg (hne k hk)]
  obtain ⟨q, h1, h2⟩ := Trail.split h
  obtain ⟨rfl, hkey, -⟩ := h2.of_cons
  have hstart : (Entry.start (t.removeChild m key)).next = (Entry.start t).next := by
    rw [Entry.next_start, Entry.next_start, hkeep startName List.mem_cons_self]
  have hpre : Trail (t.removeChild m key) (Entry.start (t.removeChild m key)).next pre key := by
    rw [hstart]
    apply h1.congr
    intro k hk
    rw [hkeep k (List.mem_cons_of_mem _ hk)]
  have hstuck : (t.removeChild m key).Stuck key := .inr (by rw [child?_removeChild, if_pos rfl])
  intro hl
  exact hkey (hpre.unique hstuck hl (stuck_empty _)).2

theorem Linked.eq_nil_of_no_pointer (h : t.Linked (pre ++ key :: post))
    (hc : t.child? key = some c) (hp : c.hasProp nextName = false) : post = [] := by
  have hsucc : c.successor = "" := by
    unfold successor text?
    unfold hasProp at hp
    rw [Option.isSome_eq_false_iff, Option.isNone_iff_eq_none] at hp
    rw [hp]
    rfl
  rw [h.successor_eq hc] at hsucc
  cases post with
  | nil => rfl
  | cons k post => exact absurd hsucc (Trail.mem h (by simp) : k ≠ "" ∧ _).1

/-! ## Adding a match -/

theorem containsKey_of_child? (o : OrderedIndex σ) (hs : key ≠ startName)
    (hc : t.child? key = some c) :
    (Index.ordered o).containsKey t key = c.hasProp nextName := by
  unfold Index.containsKey
  rw [hc]
  simp [hs]

namespace SoundChain

variable {o : OrderedIndex σ}

theorem matched_put {a : List String} (h : ∀ k ∈ keys, k = key ∨ ∃ b, t.HasMatch (k :: b))
    (hput : Put t key c' t') (ha : c'.HasMatch a) : ∀ k ∈ keys, ∃ b, t'.HasMatch (k :: b) := by
  intro k hk
  by_cases e : k = key
  · exact ⟨a, hput.hasMatch.2 (by rw [if_pos e]; exact ha)⟩
  · obtain ⟨b, hb⟩ := (h k hk).resolve_left e
    exact ⟨b, hput.hasMatch.2 (by rw [if_neg e]; exact hb)⟩

theorem hasMatch_mark (n : Node σ) (m : σ) (path : List String) :
    (n.grow m path (·.setProp matchName (.flag true))).HasMatch path :=
  (hasMatch_grow_mark n path path).2 (.inl rfl)

theorem insert_outside (hu : Key.Usable key) (hc : t.child? key = some c)
    (hp : c.hasProp nextName = false) (o : OrderedIndex σ) (m : σ) (path : String) :
    (Index.ordered o).insert m t path key = .failed t (.corruption (.outsideChain key)) := by
  rw [insert_ordered, OrderedIndex.fetch_of_no_pointer hu hc hp, Outcome.andThen_failed]

/-- an entry that is there gets a match -/
theorem insert_entry (h : t.SoundChain o.direction keys) (hu : Key.Usable key)
    (hc : t.child? key = some c) (hp : c.hasProp nextName = true) (m : σ) (path : String) :
    ∃ t', (Index.ordered o).insert m t path key = .done t' ∧ t'.SoundChain o.direction keys ∧
      (t.Sorted → t'.Sorted) := by
  obtain ⟨hthread, hmatched⟩ := soundChain_iff.1 h
  have hput1 : Put t key c (t.grow m [key] fun c => c) := by
    have hg := Put.grow m t key [] fun c => c
    rwa [hc] at hg
  have hput := Put.grow m (t.grow m [key] fun c => c) key (Path.segments path)
    (·.setProp matchName (.flag true))
  rw [hput1.child_self, Option.getD_some] at hput
  have hput := hput1.trans hput
  have h' := hthread.put hput hc hu.2.2 (prop?_grow_mark m _ c (by decide))
  refine ⟨_, ?_, soundChain_iff.2 ⟨h', ?_⟩, ?_⟩
  · rw [insert_ordered, OrderedIndex.fetch_of_pointer hu hc hp, Outcome.andThen_done]
  · exact matched_put (fun k hk => .inr (hmatched k hk)) hput (hasMatch_mark c m _)
  · intro hs
    exact hput.sorted hs ((hs.child? hc).grow m _ fun _ hc => hc.setProp _ _)

/-- a new key is linked, and gets a match -/
theorem insert_new (h : t.SoundChain o.direction keys) (hu : Key.Usable key)
    (hc : t.child? key = none) (m : σ) (path : String) :
    ∃ t' keys', (Index.ordered o).insert m t path key = .done t' ∧
      t'.SoundChain o.direction keys' ∧ (t.Sorted → t'.Sorted) := by
  obtain ⟨hthread, hmatched⟩ := soundChain_iff.1 h
  have hk : key ∉ keys := Trail.notMem_of_none h.linked hc
  obtain ⟨pre, post, rfl, ho, hi⟩ := exists_insertionPoint h.linked hthread.ordered hk
  have h1 := hthread.link hu hk ho m
  obtain ⟨c1, hc1⟩ : ∃ c1, (t.link m (pre.getLastD startName) key (post.headD "")).child? key
      = some c1 := (Trail.mem h1.linked (by simp)).2
  have hput := Put.grow m (t.link m (pre.getLastD startName) key (post.headD "")) key
    (Path.segments path) (·.setProp matchName (.flag true))
  rw [hc1, Option.getD_some] at hput
  have h' := h1.put hput hc1 hu.2.2 (prop?_grow_mark m _ c1 (by decide))
  refine ⟨_, pre ++ key :: post, ?_, soundChain_iff.2 ⟨h', ?_⟩, ?_⟩
  · rw [insert_ordered, OrderedIndex.fetch_of_none hu hc hi, Outcome.andThen_done]
  · refine matched_put ?_ hput (hasMatch_mark c1 m _)
    intro k hmem
    simp only [hasMatch_link]
    have hmem' : k = key ∨ k ∈ pre ++ post := by
      rw [List.mem_append, List.mem_cons] at hmem
      rw [List.mem_append]
      tauto
    exact hmem'.imp_right (hmatched k)
  · intro hs
    have hpoint : ∀ (t : Node σ) (k next : String), t.Sorted → (t.point m k next).Sorted :=
      fun _ _ _ ht => ht.grow m _ fun _ hc => hc.setProp _ _
    have hl := hpoint _ key (post.headD "") (hpoint t (pre.getLastD startName) key hs)
    exact hput.sorted hl ((hl.child? hc1).grow m _ fun _ hc => hc.setProp _ _)

/-- a child that is no entry stays as it is; under any other key a match is added -/
theorem insert (h : t.SoundChain o.direction keys) (hu : Key.Usable key) (m : σ)
    (path : String) :
    (t.hasChild key = true ∧ (Index.ordered o).containsKey t key = false →
      (Index.ordered o).insert m t path key = .failed t (.corruption (.outsideChain key))) ∧
    (¬ (t.hasChild key = true ∧ (Index.ordered o).containsKey t key = false) →
      ∃ t' keys', (Index.ordered o).insert m t path key = .done t' ∧
        t'.SoundChain o.direction keys' ∧ (t.Sorted → t'.Sorted)) := by
  cases hc : t.child? key with
  | none =>
    rw [hasChild_eq_false_iff.2 hc]
    exact ⟨fun hx => absurd hx.1 Bool.false_ne_true, fun _ => h.insert_new hu hc m path⟩
  | some c =>
    rw [hasChild_iff.2 ⟨c, hc⟩, containsKey_of_child? o hu.2.2 hc]
    refine ⟨fun hx => insert_outside hu hc hx.2 o m path, fun hx => ?_⟩
    have hp : c.hasProp nextName = true := by simpa using hx
    obtain ⟨t', he, h', hs⟩ := h.insert_entry hu hc hp m path
    exact ⟨t', keys, he, h', hs⟩

end SoundChain

/-! ## Taking out a match -/

namespace SoundChain

variable {segments : List String}

/-- an entry that is kept needs another match -/
theorem kept_iff (h : t.SoundChain d keys) (hput : Put t key (c.unmark m segments).1 t')
    (hc : t.child? key = some c) (hs : key ≠ startName) : (∃ ks, t'.SoundChain d ks) ↔
      key ∉ keys ∨ ∃ a, a ≠ segments ∧ t.HasMatch (key :: a) := by
  obtain ⟨hthread, hmatched⟩ := soundChain_iff.1 h
  have h1 := hthread.put hput hc hs (prop?_unmark m segments c (by decide))
  constructor
  · intro hx
    obtain ⟨ks, hks⟩ := hx
    obtain rfl := h1.linked.unique hks.linked
    by_cases hk : key ∈ keys
    · obtain ⟨a, ha⟩ := hks.matched key hk
      obtain ⟨hne, ha⟩ := (hasMatch_put_unmark hput hc key a).1 ha
      exact .inr ⟨a, fun e => hne ⟨rfl, e⟩, ha⟩
    · exact .inl hk
  · intro hx
    refine ⟨keys, soundChain_iff.2 ⟨h1, ?_⟩⟩
    intro k hk
    by_cases e : k = key
    · obtain ⟨a, hne, ha⟩ := hx.resolve_left fun hn => hn (e ▸ hk)
      exact ⟨a, (hasMatch_put_unmark hput hc k a).2 ⟨fun e' => hne e'.2, e ▸ ha⟩⟩
    · obtain ⟨a, ha⟩ := hmatched k hk
      exact ⟨a, (hasMatch_put_unmark hput hc k a).2 ⟨fun e' => e e'.1, ha⟩⟩

/-- an entry with a pointer is unlinked -/
theorem unlinked (h : t.SoundChain d (pre ++ key :: post))
    (hput : Put t key (c.unmark m segments).1 t') (hc : t.child? key = some c)
    (hs : key ≠ startName) :
    (t'.cut m (pre.getLastD startName) key (post.headD "")).SoundChain d (pre ++ post) := by
  obtain ⟨hthread, hmatched⟩ := soundChain_iff.1 h
  have h1 := hthread.put hput hc hs (prop?_unmark m segments c (by decide))
  refine soundChain_iff.2 ⟨h1.cut m, ?_⟩
  intro k hk
  have hne : k ≠ key := by
    rintro rfl
    have hn := h.nodup
    rw [List.nodup_middle, List.nodup_cons] at hn
    exact hn.1 hk
  obtain ⟨a, ha⟩ := hmatched k (((List.sublist_cons_self key post).append_left pre).mem hk)
  refine ⟨a, (hasMatch_cut m t' _ key _ k a).2 ⟨hne, ?_⟩⟩
  exact (hasMatch_put_unmark hput hc k a).2 ⟨fun e => hne e.1, ha⟩

/-- without a pointer the child just goes, so it has to be no entry -/
theorem dropped_iff (h : t.SoundChain d keys) (hput : Put t key (c.unmark m segments).1 t')
    (hc : t.child? key = some c) (hs : key ≠ startName) (hp : c.hasProp nextName = false) :
    (∃ ks, (t'.removeChild m key).SoundChain d ks) ↔ key ∉ keys := by
  obtain ⟨hthread, hmatched⟩ := soundChain_iff.1 h
  have h1 := hthread.put hput hc hs (prop?_unmark m segments c (by decide))
  constructor
  · intro hx hk
    obtain ⟨ks, hks⟩ := hx
    obtain ⟨pre, post, rfl⟩ := List.append_of_mem hk
    obtain rfl := h.linked.eq_nil_of_no_pointer hc hp
    exact not_linked_of_removed h1.linked m ks hks.linked
  · intro hk
    have hk' : key ∉ startName :: keys := by
      rw [List.mem_cons, not_or]
      exact ⟨hs, hk⟩
    refine ⟨keys, soundChain_iff.2 ⟨h1.removeChild hk' m, ?_⟩⟩
    intro k hmem
    have hne : k ≠ key := fun e => hk (e ▸ hmem)
    obtain ⟨a, ha⟩ := hmatched k hmem
    refine ⟨a, ?_⟩
    rw [hasMatch_cons, child?_removeChild, if_neg hne, hput.child_ne hne, ← hasMatch_cons]
    exact ha

/-- dropping an entry keeps the chain sound, unless it is in the chain and has no pointer -/
theorem drop_iff (h : t.SoundChain d keys) (hput : Put t key (c.unmark m segments).1 t')
    (hc : t.child? key = some c) (hs : key ≠ startName) (n : Nat) :
    ∃ t2, (Index.ordered (.scanning d n)).drop m t' key = .done t2 ∧
      (t'.Sorted → t2.Sorted) ∧ ((∃ ks, t2.SoundChain d ks) ↔
        key ∉ keys ∨ c.hasProp nextName = true) := by
  have hp : (c.unmark m segments).1.prop? nextName = c.prop? nextName :=
    prop?_unmark m _ c (by decide)
  have hpointer : (c.unmark m segments).1.hasProp nextName = c.hasProp nextName := by
    unfold hasProp
    rw [hp]
  cases hn : c.hasProp nextName with
  | true =>
    obtain ⟨pre, post, rfl⟩ := List.append_of_mem (h.complete key c hc hs hn)
    have h1 := ((soundChain_iff.1 h).1.put hput hc hs hp).linked
    refine ⟨_, ?_, ?_, iff_of_true ⟨_, h.unlinked hput hc hs⟩ (.inr rfl)⟩
    · rw [Index.drop_of_pointer hput.child_self (hpointer.trans hn)]
      exact h1.unlink (Lookup.scan_of_linked h1) m
    · intro hsorted
      exact (hsorted.grow m _ fun _ hc => hc.setProp _ _).removeChild m key
  | false =>
    refine ⟨_, Index.drop_of_no_pointer hput.child_self (hpointer.trans hn) m,
      fun hsorted => hsorted.removeChild m key, ?_⟩
    rw [h.dropped_iff hput hc hs hn]
    simp

/-- taking out a match keeps the chain sound, unless it was the last one below an entry that is not
unlinked then -/
theorem remove (h : t.SoundChain d keys) (hu : Key.Usable key) (n : Nat) (m : σ) (path : String) :
    ∃ t', (Index.ordered (.scanning d n)).remove m t path key = .done t' ∧
      (t.Sorted → t'.Sorted) ∧ ((∃ ks, t'.SoundChain d ks) ↔
        key ∉ keys ∨ (∃ a, a ≠ Path.segments path ∧ t.HasMatch (key :: a)) ∨
          OrderedIndex.Unlinks t key (Path.segments path)) := by
  have hs := hu.2.2
  have hr := isReserved_ordered (.scanning d n : OrderedIndex σ) hs
  cases hc : t.child? key with
  | none =>
    exact ⟨t, Index.remove_of_none _ hr hc m path, id,
      iff_of_true ⟨keys, h⟩ (.inl (Trail.notMem_of_none h.linked hc))⟩
  | some c =>
    obtain ⟨t1, hput, he⟩ := Index.remove_of_child? _ hr hc m path
    have hsort : t.Sorted → t1.Sorted := fun hsorted =>
      hput.sorted hsorted ((hsorted.child? hc).unmark m _)
    -- whether the entry is dropped can be told from what was below it
    have hlone := emptied_unmark_iff m (Path.segments path) c
    rw [← Bool.not_eq_true', ← Bool.and_eq_true] at hlone
    rw [he, OrderedIndex.unlinks_iff hc]
    split
    · next hempty =>
      have hl : c.Lone (Path.segments path) := hlone.1 hempty
      have hnone : ¬ ∃ a, a ≠ Path.segments path ∧ t.HasMatch (key :: a) := by
        rintro ⟨a, hne, ha⟩
        rw [hasMatch_cons, hc] at ha
        exact hne (hl.eq_of_hasMatch (by simpa using ha))
      obtain ⟨t2, hd, hsort2, hiff⟩ := h.drop_iff hput hc hs n
      refine ⟨t2, hd, fun hsorted => hsort2 (hsort hsorted), hiff.trans ?_⟩
      simp [hnone, hl]
    · next hkept =>
      have hl : ¬ c.Lone (Path.segments path) := fun hl => hkept (hlone.2 hl)
      refine ⟨t1, rfl, hsort, ?_⟩
      rw [h.kept_iff hput hc hs]
      simp [hl]

end SoundChain

end Node

/-! ## In terms of the check -/

open Node

theorem Node.checked_iff (h : t.Sorted) :
    (∃ s, t.checkChain d = .ok s) ↔ ∃ keys, t.SoundChain d keys := by
  simp only [checkChain_eq_ok_iff h]
  constructor
  · intro hx
    obtain ⟨_, keys, hs, _⟩ := hx
    exact ⟨keys, hs⟩
  · intro hx
    obtain ⟨keys, hs⟩ := hx
    exact ⟨_, keys, hs, rfl⟩

/-- **An index that passes the check can be written to.**  Adding a match succeeds and passes the
check again, unless the key names a child that is no entry; then nothing changes.  Taking out a
match succeeds.  It passes the check again just if the key is not in the chain, another match is left
below it, or the entry has a pointer and nothing is below it but the path to the match. -/
theorem OrderedIndex.writes_to_checked (d : Direction) (n : Nat) (m : σ) {s : Metrics}
    (h : t.Sorted) (hok : t.checkChain d = .ok s) (path : String) (hu : Key.Usable key) :
    let i : Index σ := .ordered (.scanning d n)
    ∃ keys : List String, t.chain false = keys.map t.item ∧
      (t.hasChild key = true ∧ i.containsKey t key = false →
        i.insert m t path key = .failed t (.corruption (.outsideChain key))) ∧
      (¬ (t.hasChild key = true ∧ i.containsKey t key = false) →
        (i.insert m t path key).answer = .ok () ∧
          ∃ s', (i.insert m t path key).tree.checkChain d = .ok s') ∧
      (i.remove m t path key).answer = .ok () ∧
      ((∃ s', (i.remove m t path key).tree.checkChain d = .ok s') ↔
        key ∉ keys ∨ (∃ a, a ≠ Path.segments path ∧ t.HasMatch (key :: a)) ∨
          Unlinks t key (Path.segments path)) := by
  intro i
  obtain ⟨keys, hsound⟩ := (checked_iff h).1 ⟨s, hok⟩
  obtain ⟨hfail, hins⟩ := SoundChain.insert (o := .scanning d n) hsound hu m path
  obtain ⟨t', hrem, hsort, hiff⟩ := hsound.remove hu n m path
  have hrem' : i.remove m t path key = .done t' := hrem
  refine ⟨keys, chain_of_linked hsound.linked, hfail, ?_, ?_, ?_⟩
  · intro hn
    obtain ⟨t2, keys2, he, h2, hs2⟩ := hins hn
    have he' : i.insert m t path key = .done t2 := he
    rw [he']
    exact ⟨rfl, (checked_iff (hs2 h)).2 ⟨keys2, h2⟩⟩
  · rw [hrem']
    rfl
  · rw [hrem']
    exact (checked_iff (hsort h)).trans hiff

/-- the chain `a`, `b`, `c`: below `a` there is an empty node beside the match, below `b` only the
path to the match; `c` lacks a pointer, and the child `s` is no entry -/
def Node.looseEnd : Node Unit :=
  ⟨(), [],
    [(":start", ⟨(), [(":next", .text "a")], []⟩),
      ("a", ⟨(), [(":next", .text "b")],
        [("p", ⟨(), [("match", .flag true)], []⟩), ("q", ⟨(), [], []⟩)]⟩),
      ("b", ⟨(), [(":next", .text "c")],
        [("x", ⟨(), [], [("y", ⟨(), [("match", .flag true)], []⟩)]⟩)]⟩),
      ("c", ⟨(), [], [("p", ⟨(), [("match", .flag true)], []⟩)]⟩),
      ("s", ⟨(), [], []⟩)]⟩

/-- in `looseEnd`, a match can be added below `a`, the last match below `b` can be taken out, with
the entry, and below `a` the empty node, which keeps the entry -/
theorem OrderedIndex.writes_to_checked_looseEnd :
    let i : Index Unit := .ordered (.scanning .ascending 100)
    looseEnd.Sorted ∧ looseEnd.checkChain .ascending = .ok ⟨3, 3, some "a", some "c"⟩ ∧
      Key.Usable "a" ∧ Key.Usable "b" ∧
      (∃ s, (i.insert () looseEnd "r" "a").tree.checkChain .ascending = .ok s) ∧
      (Unlinks looseEnd "b" (Path.segments "x/y") ∧
        (i.remove () looseEnd "x/y" "b").tree.hasChild "b" = false ∧
        ∃ s, (i.remove () looseEnd "x/y" "b").tree.checkChain .ascending = .ok s) ∧
      (looseEnd.HasMatch ["a", "p"] ∧ (i.remove () looseEnd "q" "a").tree.hasChild "a" = true ∧
        ∃ s, (i.remove () looseEnd "q" "a").tree.checkChain .ascending = .ok s) := by
  intro i
  have h : looseEnd.Sorted := by decide
  have hok : looseEnd.checkChain .ascending = .ok ⟨3, 3, some "a", some "c"⟩ := by
    decide +kernel
  have ha : Key.Usable "a" := by decide
  have hb : Key.Usable "b" := by decide
  have hseg : Path.segments "x/y" = ["x", "y"] := by decide
  have hunlinks : Unlinks looseEnd "b" (Path.segments "x/y") := by
    rw [hseg]
    refine ⟨_, rfl, rfl, rfl, ?_, _, rfl, rfl, ?_, _, rfl, rfl⟩
    · exact fun k hk => SortedMap.get?_cons_ne (Ne.symm hk) _ _
    · exact fun k hk => SortedMap.get?_cons_ne (Ne.symm hk) _ _
  have hmatch : looseEnd.HasMatch ["a", "p"] := ⟨_, rfl, rfl⟩
  obtain ⟨_, _, _, hinsert, _, _⟩ := writes_to_checked .ascending 100 () h hok "r" ha
  obtain ⟨_, _, _, _, _, hremove⟩ := writes_to_checked .ascending 100 () h hok "x/y" hb
  obtain ⟨_, _, _, _, _, hkeep⟩ := writes_to_checked .ascending 100 () h hok "q" ha
  exact ⟨h, hok, ha, hb, (hinsert (by decide)).2,
    ⟨hunlinks, by decide +kernel, hremove.2 (.inr (.inr hunlinks))⟩,
    ⟨hmatch, by decide +kernel, hkeep.2 (.inr (.inl ⟨["p"], by decide, hmatch⟩))⟩⟩

/-- in `looseEnd`, no match can be added under `s`, and the last matches of `c` and of `a` cannot be
taken out without breaking the chain -/
theorem Node.looseEnd_breaks :
    let i : Index Unit := .ordered (.scanning .ascending 100)
    looseEnd.Sorted ∧ looseEnd.checkChain .ascending = .ok ⟨3, 3, some "a", some "c"⟩ ∧
      Key.Usable "s" ∧ Key.Usable "c" ∧ Key.Usable "a" ∧
      (i.insert () looseEnd "p" "s").answer = .error (.corruption (.outsideChain "s")) ∧
      (i.remove () looseEnd "p" "c").tree.checkChain .ascending
        = .error (.corruption (.missingEntry "c")) ∧
      (i.remove () looseEnd "p" "a").tree.checkChain .ascending
        = .error (.corruption (.unmatched "a")) := by
  decide +kernel

end PropertyIndex
