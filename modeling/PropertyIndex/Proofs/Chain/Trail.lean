import Mathlib.Data.List.Infix
import Mathlib.Data.List.Perm.Subperm
import PropertyIndex.Chain.Walk

/-!
# Trails of pointers

A trail is what a reader meets who follows the pointers of an index by hand.  It ends well at the
empty name, and it gets stuck at a name without a child.

* `Trail.append`, `Trail.split`   trails are put together and taken apart;
* `Trail.unique`       two trails from one name that cannot go on are the same;
* `Trail.nodup`        a trail that cannot go on meets no name twice, so it is no longer than the
                       index has children (`Trail.length_le`);
* `Walk.items_trail`   a walk yields the entries of a trail first;
* `Walk.items_after`   every walk is one of three: it ends, it meets a dangling pointer, or it runs
                       out of hops;
* `Node.chain_of_linked`, `Node.chain_trail`, `Node.chain_cases`   a chain is a trail that ends, or it
                       breaks off;
* `Node.linked_of_chain`   a walk that meets no error follows a trail that ends.
-/

namespace PropertyIndex

variable {σ : Type}

/-- the names met when the pointers are followed from a name, and the pointer that comes last -/
inductive Trail (t : Node σ) : String → List String → String → Prop where
  | stop (p : String) : Trail t p [] p
  | hop {p q : String} {ks : List String} {c : Node σ} (hp : p ≠ "") (hc : t.child? p = some c)
      (rest : Trail t c.successor ks q) : Trail t p (p :: ks) q

namespace Node

/-- a pointer that leads nowhere: it is empty, or there is no child of its name -/
def Stuck (t : Node σ) (p : String) : Prop := p = "" ∨ t.child? p = none

/-- the pointers lead from the head along the keys to an empty pointer -/
def Linked (t : Node σ) (keys : List String) : Prop := Trail t (Entry.start t).next keys ""

/-- the child of a name, as a walk yields it -/
def item (t : Node σ) (k : String) : Item σ := .ok ⟨k, t.child? k⟩

theorem stuck_empty (t : Node σ) : t.Stuck "" := .inl rfl

end Node

namespace Trail

variable {t : Node σ} {p q r : String} {ks ls : List String}

theorem of_cons {k : String} (h : Trail t p (k :: ks) q) :
    k = p ∧ p ≠ "" ∧ ∃ c, t.child? p = some c ∧ Trail t c.successor ks q := by
  cases h with
  | hop hp hc rest => exact ⟨rfl, hp, _, hc, rest⟩

theorem append (h : Trail t p ks q) (h' : Trail t q ls r) : Trail t p (ks ++ ls) r := by
  induction h with
  | stop p => exact h'
  | hop hp hc _ ih => exact .hop hp hc (ih h')

theorem split (h : Trail t p (ks ++ ls) r) : ∃ q, Trail t p ks q ∧ Trail t q ls r := by
  induction ks generalizing p with
  | nil => exact ⟨p, .stop p, h⟩
  | cons k ks ih =>
    obtain ⟨e, hp, c, hc, rest⟩ := of_cons h
    obtain ⟨q, h1, h2⟩ := ih rest
    rw [e]
    exact ⟨q, .hop hp hc h1, h2⟩

theorem mem (h : Trail t p ks q) {k : String} (hk : k ∈ ks) :
    k ≠ "" ∧ ∃ c, t.child? k = some c := by
  induction h with
  | stop p => simp at hk
  | hop hp hc _ ih =>
    rcases List.mem_cons.1 hk with e | hk
    · rw [e]; exact ⟨hp, _, hc⟩
    · exact ih hk

theorem notMem_of_none (h : Trail t p ks q) {k : String} (hc : t.child? k = none) : k ∉ ks := by
  intro hk
  obtain ⟨_, c, hc'⟩ := h.mem hk
  rw [hc] at hc'
  cases hc'

/-! ## Trails that cannot go on -/

theorem isPrefix (h : Trail t p ks q) (hq : t.Stuck q) (h' : Trail t p ls r) : ls <+: ks := by
  induction h' generalizing ks with
  | stop p => exact List.nil_prefix
  | hop hp hc _ ih =>
    cases h with
    | stop _ =>
      rcases hq with e | e
      · exact absurd e hp
      · rw [hc] at e; cases e
    | hop _ hc' rest =>
      rw [hc] at hc'
      cases hc'
      exact (List.prefix_cons_inj _).2 (ih rest)

theorem last_unique (h : Trail t p ks q) (h' : Trail t p ks r) : q = r := by
  induction h with
  | stop p => cases h'; rfl
  | hop _ hc _ ih =>
    obtain ⟨_, _, c, hc', rest⟩ := of_cons h'
    rw [hc] at hc'
    cases hc'
    exact ih rest

/-- a trail goes on in one way only, so it can be followed to its end in one way only -/
theorem unique (h : Trail t p ks q) (hq : t.Stuck q) (h' : Trail t p ls r) (hr : t.Stuck r) :
    ks = ls ∧ q = r := by
  have e : ks = ls :=
    (isPrefix h' hr h).eq_of_length_le (isPrefix h hq h').length_le
  subst e
  exact ⟨rfl, last_unique h h'⟩

/-- a name met twice would lead in a circle, and the trail could go on for ever -/
theorem nodup (h : Trail t p ks q) (hq : t.Stuck q) : ks.Nodup := by
  induction h with
  | stop p => exact List.nodup_nil
  | @hop p q ks c hp hc rest ih =>
    refine List.nodup_cons.2 ⟨?_, ih hq⟩
    intro hmem
    obtain ⟨a, b, e⟩ := List.append_of_mem hmem
    have whole : Trail t p (p :: ks) q := .hop hp hc rest
    rw [e] at rest
    obtain ⟨p', _, h2⟩ := split rest
    have e' : p = p' := (of_cons h2).1
    rw [← e'] at h2
    have hl := congrArg List.length (unique whole hq h2 hq).1
    rw [e] at hl
    simp only [List.length_cons, List.length_append] at hl
    omega

theorem length_le (h : Trail t p ks q) (hq : t.Stuck q) : ks.length ≤ t.childCount := by
  have hsub : ks ⊆ t.children.names := by
    intro k hk
    obtain ⟨_, c, hc⟩ := h.mem hk
    by_contra hn
    have e : t.child? k = none := SortedMap.get?_eq_none_iff.2 hn
    rw [hc] at e
    cases e
  have hle := (List.subperm_of_subset (h.nodup hq) hsub).length_le
  rwa [SortedMap.names, List.length_map] at hle

end Trail

/-! ## The head -/

theorem Entry.next_start (t : Node σ) :
    (Entry.start t).next = ((t.child? startName).map Node.successor).getD "" := rfl

theorem Entry.next_start_none {t : Node σ} (h : t.child? startName = none) :
    (Entry.start t).next = "" := by
  rw [next_start, h]
  rfl

theorem Node.linked_nil {t : Node σ} (h : (Entry.start t).next = "") : t.Linked [] := by
  unfold Linked
  rw [h]
  exact .stop ""

theorem Entry.next_start_some {t c : Node σ} (h : t.child? startName = some c) :
    (Entry.start t).next = c.successor := by
  rw [next_start, h]
  rfl

/-- the head points to the first name of a trail, so a trail that cannot go on never came back to
the head -/
theorem Trail.startName_notMem {t : Node σ} {ks : List String} {q : String}
    (h : Trail t (Entry.start t).next ks q) (hq : t.Stuck q) : startName ∉ ks := by
  intro hmem
  obtain ⟨a, b, e⟩ := List.append_of_mem hmem
  have h' : Trail t (Entry.start t).next (a ++ startName :: b) q := e ▸ h
  obtain ⟨p, _, h2⟩ := h'.split
  obtain ⟨e', _, c, hc, rest⟩ := h2.of_cons
  rw [← e'] at hc
  rw [← Entry.next_start_some hc] at rest
  have hl := congrArg List.length (h.unique hq rest hq).1
  rw [e] at hl
  simp only [List.length_cons, List.length_append] at hl
  omega

/-! ## Walks follow trails -/

namespace Walk

variable {t : Node σ} {p q : String} {ks : List String}

theorem items_done (t : Node σ) (n : Nat) : (⟨t, .done, n⟩ : Walk σ).items = [] :=
  items_of_next?_eq_none rfl

theorem items_after_empty (t : Node σ) (n : Nat) : (⟨t, .after "", n⟩ : Walk σ).items = [] :=
  items_done t n

theorem items_after_child {c : Node σ} (hp : p ≠ "") (hc : t.child? p = some c) (n : Nat) :
    (⟨t, .after p, n + 1⟩ : Walk σ).items
      = t.item p :: (⟨t, .after c.successor, n⟩ : Walk σ).items := by
  have h : (⟨t, .after p, n + 1⟩ : Walk σ).next? = some (t.item p, ⟨t, .after c.successor, n⟩) := by
    rw [Cursor.after, if_neg hp]
    simp only [next?, hc, Node.item]
  exact items_of_next?_eq_some h

theorem items_after_missing (hp : p ≠ "") (hc : t.child? p = none) (n : Nat) :
    (⟨t, .after p, n + 1⟩ : Walk σ).items = [.error (.corruption (.missingEntry p))] := by
  have h : (⟨t, .after p, n + 1⟩ : Walk σ).next?
      = some (.error (.corruption (.missingEntry p)), ⟨t, .done, n⟩) := by
    rw [Cursor.after, if_neg hp]
    simp only [next?, hc]
  rw [items_of_next?_eq_some h, items_done]

theorem items_after_zero (t : Node σ) (hp : p ≠ "") :
    (⟨t, .after p, 0⟩ : Walk σ).items = [.error (.corruption (.tooLong t.childCount p))] := by
  have h : (⟨t, .after p, 0⟩ : Walk σ).next?
      = some (.error (.corruption (.tooLong t.childCount p)), ⟨t, .done, 0⟩) := by
    rw [Cursor.after, if_neg hp]
    rfl
  rw [items_of_next?_eq_some h, items_done]

theorem items_trail (h : Trail t p ks q) {n : Nat} (hn : ks.length ≤ n) :
    (⟨t, .after p, n⟩ : Walk σ).items
      = ks.map t.item ++ (⟨t, .after q, n - ks.length⟩ : Walk σ).items := by
  induction h generalizing n with
  | stop p => rfl
  | @hop p q ks c hp hc rest ih =>
    obtain ⟨n, rfl⟩ : ∃ m, n = m + 1 := ⟨n - 1, by rw [List.length_cons] at hn; omega⟩
    have hn' : ks.length ≤ n := by rw [List.length_cons] at hn; omega
    rw [items_after_child hp hc, ih hn', List.map_cons, List.cons_append, List.length_cons,
      Nat.add_sub_add_right]

theorem items_after (t : Node σ) (p : String) (n : Nat) : ∃ ks q, Trail t p ks q ∧
    ((q = "" ∧ ks.length ≤ n ∧ (⟨t, .after p, n⟩ : Walk σ).items = ks.map t.item) ∨
      (q ≠ "" ∧ t.child? q = none ∧ ks.length < n ∧ (⟨t, .after p, n⟩ : Walk σ).items
        = ks.map t.item ++ [.error (.corruption (.missingEntry q))]) ∨
      (q ≠ "" ∧ ks.length = n ∧ (⟨t, .after p, n⟩ : Walk σ).items
        = ks.map t.item ++ [.error (.corruption (.tooLong t.childCount q))])) := by
  induction n generalizing p with
  | zero =>
    refine ⟨[], p, .stop p, ?_⟩
    by_cases hp : p = ""
    · rw [hp]
      exact .inl ⟨rfl, Nat.le_refl 0, items_after_empty t 0⟩
    · exact .inr (.inr ⟨hp, rfl, items_after_zero t hp⟩)
  | succ n ih =>
    by_cases hp : p = ""
    · rw [hp]
      exact ⟨[], "", .stop "", .inl ⟨rfl, Nat.zero_le _, items_after_empty t (n + 1)⟩⟩
    · cases hc : t.child? p with
      | none =>
        exact ⟨[], p, .stop p,
          .inr (.inl ⟨hp, hc, Nat.succ_pos n, items_after_missing hp hc n⟩)⟩
      | some c =>
        obtain ⟨ks, q, htr, h⟩ := ih c.successor
        refine ⟨p :: ks, q, .hop hp hc htr, ?_⟩
        rw [items_after_child hp hc, List.map_cons, List.cons_append, List.cons_append,
          List.length_cons]
        rcases h with ⟨hq, hn, e⟩ | ⟨hq, hq', hn, e⟩ | ⟨hq, hn, e⟩
        · exact .inl ⟨hq, Nat.succ_le_succ hn, by rw [e]⟩
        · exact .inr (.inl ⟨hq, hq', Nat.succ_lt_succ hn, by rw [e]⟩)
        · exact .inr (.inr ⟨hq, congrArg Nat.succ hn, by rw [e]⟩)

end Walk

/-! ## Chains -/

namespace Node

variable {t : Node σ} {keys : List String}

theorem chain_false (t : Node σ) :
    t.chain false = (⟨t, .after (Entry.start t).next, t.childCount⟩ : Walk σ).items := rfl

theorem chain_true (t : Node σ) : t.chain true = t.item startName :: t.chain false :=
  Walk.items_of_next?_eq_some rfl

theorem chain_of_linked (h : t.Linked keys) : t.chain false = keys.map t.item := by
  rw [chain_false, Walk.items_trail h (h.length_le t.stuck_empty), Walk.items_after_empty,
    List.append_nil]

/-- a walk follows a trail to its end, or it breaks off behind it -/
theorem chain_trail (t : Node σ) : ∃ ks q, Trail t (Entry.start t).next ks q ∧
    (q = "" ∧ t.chain false = ks.map t.item ∨
      q ≠ "" ∧ ∃ e, t.chain false = ks.map t.item ++ [.error (.corruption e)] ∧
        (e = .missingEntry q ∨ e = .tooLong t.childCount q)) := by
  obtain ⟨ks, q, htr, ⟨hq, _, e⟩ | ⟨hq, _, _, e⟩ | ⟨hq, _, e⟩⟩ :=
    Walk.items_after t (Entry.start t).next t.childCount
  · exact ⟨ks, q, htr, .inl ⟨hq, e⟩⟩
  · exact ⟨ks, q, htr, .inr ⟨hq, _, e, .inl rfl⟩⟩
  · exact ⟨ks, q, htr, .inr ⟨hq, _, e, .inr rfl⟩⟩

/-- a chain either ends or breaks off with a dangling pointer or too many hops -/
theorem chain_cases (t : Node σ) : (∃ keys, t.Linked keys) ∨
    ∃ (ks : List String) (q : String) (e : Corruption),
      t.chain false = ks.map t.item ++ [.error (.corruption e)] ∧
        (e = .missingEntry q ∨ e = .tooLong t.childCount q) := by
  obtain ⟨ks, q, htr, ⟨rfl, _⟩ | ⟨_, e, hchain, he⟩⟩ := t.chain_trail
  · exact .inl ⟨ks, htr⟩
  · exact .inr ⟨ks, q, e, hchain, he⟩

theorem item_injective (t : Node σ) : Function.Injective t.item := by
  intro k k' h
  cases h
  rfl

/-- a walk that meets no error follows the pointers to their end -/
theorem linked_of_chain (h : t.chain false = keys.map t.item) : t.Linked keys := by
  rcases t.chain_cases with ⟨ks, hl⟩ | ⟨ks, q, e, hc, _⟩
  · rw [chain_of_linked hl] at h
    rwa [← List.map_injective_iff.2 t.item_injective h]
  · have hmem : .error (.corruption e) ∈ keys.map t.item := by
      rw [← h, hc]
      simp
    obtain ⟨k, _, hk⟩ := List.mem_map.1 hmem
    cases hk

theorem startName_notMem_of_linked (h : t.Linked keys) : startName ∉ keys :=
  h.startName_notMem t.stuck_empty

end Node

end PropertyIndex
