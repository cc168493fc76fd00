import PropertyIndex.Proofs.Chain.Places
import PropertyIndex.Proofs.Index.Effects
import PropertyIndex.Proofs.Node.Values

/-!
# What an insertion changes, in any index

An insertion reads its place off the chain before it writes, and it writes to two entries at most.
So whatever the pointers of an index look like, it succeeds as a whole or leaves the index as it was.

* `Node.Marked`      what a new match under a key that is there changes;
* `Node.Entered`     what a new key changes, and the entry that it is put behind;
* `OrderedIndex.insert_all_or_nothing`   a failed insertion changes nothing, and one that succeeds
                     changes what these say.
-/

namespace PropertyIndex

variable {σ : Type} {m : σ} {t t' : Node σ} {previous key next : String}

namespace Node

/-- a path is marked below a key that is there; nothing else changes -/
structure Marked (t : Node σ) (key : String) (segments : List String) (t' : Node σ) : Prop where
  others : ∀ k, k ≠ key → t'.child? k = t.child? k
  nodes : ∀ a, t'.exists? a = true ↔ t.exists? a = true ∨ a <+: key :: segments
  values : ∀ a name, t'.value? a name =
    if a = key :: segments ∧ name = matchName then some (.flag true) else t.value? a name

/-- a new key is put behind an entry and a path is marked below it: the key takes over where the
entry pointed to, and the entry, or a head that was missing, points to the key; nothing else
changes -/
structure Entered (m : σ) (t : Node σ) (previous key : String) (segments : List String)
    (t' : Node σ) : Prop where
  distinct : previous ≠ key
  present : previous = startName ∨ t.hasChild previous = true
  redirected : t.value? [previous] nextName ≠ some (.text key)
  behind : t'.child? previous =
    some (((t.child? previous).getD (empty m)).setProp nextName (.text key))
  others : ∀ k, k ≠ key → k ≠ previous → t'.child? k = t.child? k
  nodes : ∀ a, t'.exists? a = true ↔ t.exists? a = true ∨ a = [previous] ∨ a <+: key :: segments
  values : ∀ a name, t'.value? a name =
    if a = key :: segments ∧ name = matchName then some (.flag true)
    else if a = [key] ∧ name = nextName then some (.text (t.successorOf previous))
    else if a = [previous] ∧ name = nextName then some (.text key)
    else t.value? a name

/-! ## The two writes -/

theorem exists?_grow_setProp (t : Node σ) (path a : List String) (name : String) (v : Value) :
    (t.grow m path (·.setProp name v)).exists? a = true ↔ t.exists? a = true ∨ a <+: path :=
  exists?_grow (f := (·.setProp name v)) (fun _ _ => rfl) t path a

/-- reaching an entry and then marking a path below it only marks the path -/
theorem marked_grow (m : σ) (t : Node σ) (key : String) (segments : List String) :
    Marked t key segments ((t.grow m [key] fun c => c).grow m (key :: segments)
      (·.setProp matchName (.flag true))) where
  others k hk := by rw [child?_grow, if_neg hk, child?_grow, if_neg hk]
  nodes a := by
    rw [exists?_grow_setProp, exists?_grow (f := fun c => c) fun _ _ => rfl, or_assoc]
    refine or_congr_right ⟨?_, .inr⟩
    rintro (ha | ha)
    · exact ha.trans ((List.prefix_cons_inj key).2 List.nil_prefix)
    · exact ha
  values a name := by rw [value?_grow_setProp, value?_grow_id]

/-- a name that a key is put in front of is not the key -/
theorem ne_of_place {d : Direction} (hu : Key.Usable key) (h : next = "" ∨ d.precedes key next) :
    next ≠ key := by
  rintro rfl
  rcases h with h | h
  · exact hu.1 h
  · exact d.precedes_irrefl next h

theorem successorOf_of_value? (h : t.value? [previous] nextName = some (.text next)) :
    t.successorOf previous = next := by
  unfold value? at h
  rw [at?_singleton] at h
  obtain ⟨c, hc, h⟩ := Option.bind_eq_some_iff.1 h
  rw [successorOf_of_child? hc, successor_of_prop? h]

theorem entered_link {d : Direction} (hu : Key.Usable key) (hc : t.hasChild key = false)
    (hplace : insertionPoint d t key = .ok (previous, next)) (m : σ) (segments : List String) :
    Entered m t previous key segments ((t.link m previous key next).grow m (key :: segments)
      (·.setProp matchName (.flag true))) := by
  obtain ⟨hpresent, rfl, hnext⟩ := insertionPoint_eq_ok hplace
  have hne : previous ≠ key := by
    rintro rfl
    rcases hpresent with h | h
    · exact hu.2.2 h
    · rw [hc] at h
      cases h
  refine ⟨hne, hpresent, ?_, ?_, ?_, ?_, ?_⟩
  · intro h
    exact ne_of_place hu hnext (successorOf_of_value? h)
  · rw [child?_grow, if_neg hne, child?_link hne, if_neg hne, if_pos rfl]
  · intro k hk hp
    rw [child?_grow, if_neg hk, child?_link hne, if_neg hk, if_neg hp]
  · intro a
    rw [exists?_grow_setProp, link, exists?_grow_setProp, exists?_grow_setProp]
    constructor
    · rintro (((h | h) | h) | h)
      · exact .inl h
      · rcases List.prefix_cons_iff.1 h with rfl | ⟨b, rfl, hb⟩
        · exact .inl (exists?_nil t)
        · exact .inr (.inl (by rw [List.prefix_nil.1 hb]))
      · exact .inr (.inr (h.trans ((List.prefix_cons_inj key).2 List.nil_prefix)))
      · exact .inr (.inr h)
    · rintro (h | rfl | h)
      · exact .inl (.inl (.inl h))
      · exact .inl (.inl (.inr (List.prefix_refl _)))
      · exact .inr h
  · intro a name
    rw [value?_grow_setProp, link, value?_grow_setProp, value?_grow_setProp]

end Node

/-! ## All or nothing -/

open Node

/-- **An insertion succeeds as a whole or changes nothing.**  If seeing to an entry fails, or an
insertion does, the index is what it was.  An insertion under a key that is there marks the path
below it.  An insertion under a new key also links it, behind one other entry. -/
theorem OrderedIndex.insert_all_or_nothing (o : OrderedIndex σ) (m : σ) (t : Node σ)
    (path key : String) :
    let i : Index σ := .ordered o
    (∀ e, (i.fetch m t key).answer = .error e → (i.fetch m t key).tree = t) ∧
    (∀ e, (i.insert m t path key).answer = .error e → (i.insert m t path key).tree = t) ∧
    ((i.insert m t path key).answer = .ok () → t.hasChild key = true →
      Marked t key (Path.segments path) (i.insert m t path key).tree) ∧
    ((i.insert m t path key).answer = .ok () → t.hasChild key = false →
      ∃ previous, Entered m t previous key (Path.segments path) (i.insert m t path key).tree) := by
  intro i
  have hfetch : i.fetch m t key = o.fetch m t key := rfl
  have hinsert : i.insert m t path key = (o.fetch m t key).andThen fun t _ =>
      .done (t.grow m (key :: Path.segments path) (·.setProp matchName (.flag true))) := rfl
  rw [hfetch, hinsert]
  rcases o.fetch_cases m t key with ⟨e, he⟩ | ⟨_, hc, he⟩ | ⟨hu, hc, previous, next, hplace, he⟩
  · -- refused
    rw [he, Outcome.andThen_failed]
    exact ⟨fun _ _ => rfl, fun _ _ => rfl, nofun, nofun⟩
  · -- the entry is there
    rw [he, Outcome.andThen_done, hc]
    exact ⟨nofun, nofun, fun _ _ => marked_grow m t key _, nofun⟩
  · -- the key is new
    rw [he, Outcome.andThen_done, hc]
    exact ⟨nofun, nofun, nofun, fun _ _ => ⟨previous, entered_link hu hc hplace m _⟩⟩

end PropertyIndex
