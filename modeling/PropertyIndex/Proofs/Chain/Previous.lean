import PropertyIndex.Proofs.Chain.Places

/-!
# The entry before a name, in any chain

A scan goes along the walk from the head until it meets the name that it looks for, and answers with
the name before it.  Nothing is asked of the tree: its pointers may dangle or run in a circle, inside
or outside of which the name may be.

* `Lookup.scan_of_met`, `Lookup.scan_of_unmet`   a scan for a name that the walk meets, or not;
* `Lookup.scan_cases`      the walk meets the name, or ends, or breaks off;
* `Lookup.scan_answers`    when a scan gives which answer.
-/

namespace PropertyIndex

variable {σ : Type} {t : Node σ} {target previous : String} {names passed : List String}
  {rest : List (Item σ)}

namespace Lookup

open Node

/-- a scan for a name that the walk meets, and not for the head, answers with the name before it -/
theorem scan_of_met (h : t.chain true = (passed ++ [previous, target]).map t.item ++ rest)
    (hs : target ≠ startName) (hn : target ∉ passed ++ [previous]) :
    scan t target = .ok (some previous) := by
  have hsplit : passed ++ [previous, target] = (passed ++ [previous]) ++ [target] := by
    rw [List.append_assoc]
    rfl
  unfold scan
  rw [if_neg hs, h, hsplit, List.map_append, List.append_assoc, before_append hn,
    List.getLast?_concat]
  exact if_pos rfl

/-- a scan for a name that the walk does not meet ends as the walk does -/
theorem scan_of_unmet (h : t.chain true = names.map t.item ++ rest) (hs : target ≠ startName)
    (hn : target ∉ names) : scan t target = before target names.getLast? rest := by
  unfold scan
  rw [if_neg hs, h, before_append hn, Option.or_none]

/-- a name that the walk meets behind the head has another before it -/
theorem exists_previous (h : t.Walked names rest) (hs : target ≠ startName)
    (hm : target ∈ names) : ∃ passed previous post, names = passed ++ previous :: target :: post ∧
      target ∉ passed ++ [previous] := by
  obtain ⟨pre, post, hnames, hn⟩ := List.eq_append_cons_of_mem hm
  rcases List.eq_nil_or_concat pre with rfl | ⟨passed, previous, rfl⟩
  · have hhead := h.head
    rw [hnames] at hhead
    exact absurd (Option.some.inj hhead) hs
  · rw [List.concat_eq_append] at hnames hn
    refine ⟨passed, previous, post, ?_, hn⟩
    rw [hnames, List.append_assoc]
    rfl

/-- a scan for another name than that of the head meets it behind some entry, or goes to the end of
the walk without meeting it -/
theorem scan_cases (t : Node σ) (hs : target ≠ startName) :
    (∃ (passed : List String) (previous : String) (rest : List (Item σ)),
      t.chain true = (passed ++ [previous, target]).map t.item ++ rest ∧
        target ∉ passed ++ [previous] ∧ t.hasChild target = true ∧
        (∃ c, t.child? previous = some c ∧ c.text? nextName = some target) ∧
        scan t target = .ok (some previous)) ∨
    (∃ names : List String, t.chain true = names.map t.item ∧ target ∉ names ∧
      scan t target = .ok none) ∨
    ∃ (names : List String) (c : Corruption),
      t.chain true = names.map t.item ++ [.error (.corruption c)] ∧ target ∉ names ∧
        scan t target = .error (.corruption c) := by
  obtain ⟨names, rest, h⟩ := t.exists_walked
  by_cases hm : target ∈ names
  · obtain ⟨passed, previous, post, hnames, hn⟩ := exists_previous h hs hm
    have hchain : t.chain true
        = (passed ++ [previous, target]).map t.item ++ (post.map t.item ++ rest) := by
      rw [h.chain, hnames]
      simp
    have hlinked := h.linked
    rw [hnames, List.isChain_append_cons_cons] at hlinked
    obtain ⟨hne, hpresent⟩ := h.present target hm
    exact .inl ⟨passed, previous, _, hchain, hn, hpresent.resolve_left hs,
      exists_of_successorOf hlinked.2.1 hne, scan_of_met hchain hs hn⟩
  · have hscan := scan_of_unmet h.chain hs hm
    have hchain := h.chain
    rcases h.ending with ⟨hrest, _⟩ | ⟨c, hrest, _⟩
    · rw [hrest] at hscan hchain
      exact .inr (.inl ⟨names, by rw [hchain, List.append_nil], hm, hscan⟩)
    · rw [hrest] at hscan hchain
      exact .inr (.inr ⟨names, c, hchain, hm, hscan⟩)

/-- **What a scan for the entry before a name answers**, in every tree.  If it finds one, that is
another child, met by the walk from the head, perhaps the head itself; it points to the name, which
is a child too, and the walk has not met the name before.  It finds none just if the name is that of
the head, or the walk ends without meeting it.  It fails just if the walk breaks off without meeting
it, and with the same error. -/
theorem scan_answers (t : Node σ) (target : String) :
    (∀ previous, scan t target = .ok (some previous) →
      previous ≠ target ∧ t.hasChild target = true ∧
      (∃ c, t.child? previous = some c ∧ c.text? nextName = some target) ∧
      ∃ (passed : List String) (rest : List (Item σ)),
        t.chain true = (passed ++ [previous, target]).map t.item ++ rest ∧ target ∉ passed) ∧
    (scan t target = .ok none ↔ target = startName ∨
      ∃ names : List String, t.chain true = names.map t.item ∧ target ∉ names) ∧
    ∀ e, scan t target = .error e ↔ target ≠ startName ∧
      ∃ (names : List String) (c : Corruption), e = .corruption c ∧
        t.chain true = names.map t.item ++ [.error e] ∧ target ∉ names := by
  by_cases hs : target = startName
  · rw [hs, scan_startName]
    simp
  simp only [hs, false_or, ne_eq, not_false_eq_true, true_and]
  refine ⟨?_, ⟨?_, ?_⟩, fun e => ⟨?_, ?_⟩⟩
  · intro p hp
    rcases scan_cases t hs with ⟨passed, previous, rest, hchain, hn, hc, hnext, he⟩ |
      ⟨_, _, _, he⟩ | ⟨_, _, _, _, he⟩
    · cases he.symm.trans hp
      rw [List.mem_append, not_or, List.mem_singleton] at hn
      exact ⟨Ne.symm hn.2, hc, hnext, passed, rest, hchain, hn.1⟩
    · cases he.symm.trans hp
    · cases he.symm.trans hp
  · intro hnone
    rcases scan_cases t hs with ⟨_, _, _, _, _, _, _, he⟩ | ⟨names, hchain, hn, _⟩ |
      ⟨_, _, _, _, he⟩
    · cases he.symm.trans hnone
    · exact ⟨names, hchain, hn⟩
    · cases he.symm.trans hnone
  · rintro ⟨names, hchain, hn⟩
    have hchain : t.chain true = names.map t.item ++ [] := by rw [hchain, List.append_nil]
    exact scan_of_unmet hchain hs hn
  · intro herr
    rcases scan_cases t hs with ⟨_, _, _, _, _, _, _, he⟩ | ⟨_, _, _, he⟩ |
      ⟨names, c, hchain, hn, he⟩
    · cases he.symm.trans herr
    · cases he.symm.trans herr
    · cases he.symm.trans herr
      exact ⟨names, c, rfl, hchain, hn⟩
  · rintro ⟨names, c, _, hchain, hn⟩
    exact scan_of_unmet hchain hs hn

/-- the pointers run in a circle, and `c` is not on it -/
example :
    let t : Node Unit := ⟨(), [], [(startName, ⟨(), [(nextName, .text "a")], []⟩),
      ("a", ⟨(), [(nextName, .text "b")], []⟩), ("b", ⟨(), [(nextName, .text "a")], []⟩)]⟩
    scan t "a" = .ok (some startName) ∧ scan t "b" = .ok (some "a") ∧
      scan t "c" = .error (.corruption (.tooLong 3 "b")) := by decide +kernel

end Lookup

end PropertyIndex
