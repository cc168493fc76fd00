import PropertyIndex.Index.Write
import PropertyIndex.Proofs.Node.Addresses

/-!
# What writes do to the order and to the matches of a tree

* `Sorted.grow`, `Sorted.edit`, `Sorted.prunePath`   every write keeps the order of names;
* `hasMatch_grow_mark`     a mark at the end of a path is one more match;
* `hasMatch_edit_clear`    a mark taken out there is one match less;
* `prunePath_cases`        the three things that pruning can do at one node;
* `hasMatch_prunePath`     pruning takes out no match.
-/

namespace PropertyIndex.Node

variable {σ : Type} {m : σ}

/-! ## The order of names -/

theorem Sorted.of_child? {n : Node σ} (hp : n.props.Sorted) (hc : n.children.Sorted)
    (hb : ∀ k c, n.child? k = some c → c.Sorted) : n.Sorted := by
  obtain ⟨_, _, _⟩ := n
  exact .mk hp hc fun p hmem => hb p.1 p.2 (hc.get?_of_mem hmem)

theorem Sorted.setProp {n : Node σ} (h : n.Sorted) (name : String) (v : Value) :
    (n.setProp name v).Sorted :=
  .of_child? (h.props_sorted.put name v) h.children_sorted fun _ _ hc => h.child? hc

theorem Sorted.removeProp {n : Node σ} (h : n.Sorted) (name : String) :
    (n.removeProp name).Sorted :=
  .of_child? (h.props_sorted.erase name) h.children_sorted fun _ _ hc => h.child? hc

theorem Sorted.removeChild {n : Node σ} (h : n.Sorted) (m : σ) (name : String) :
    (n.removeChild m name).Sorted := by
  refine .of_child? (by rw [props_removeChild]; exact h.props_sorted) ?_ ?_
  · unfold Node.removeChild
    split
    · exact h.children_sorted.erase name
    · exact h.children_sorted
  · intro k c hc
    rw [child?_removeChild] at hc
    split at hc
    · cases hc
    · exact h.child? hc

theorem Sorted.grow {n : Node σ} (h : n.Sorted) (m : σ) (path : List String)
    {f : Node σ → Node σ} (hf : ∀ c, c.Sorted → (f c).Sorted) : (n.grow m path f).Sorted := by
  induction path generalizing n with
  | nil => exact hf n h
  | cons name path ih =>
    refine .of_child? h.props_sorted (h.children_sorted.put name _) ?_
    intro k c hc
    have hc' : (n.grow m (name :: path) f).child? k = some c := hc
    rw [child?_grow] at hc'
    split at hc'
    · cases hc'
      refine ih ?_
      cases hd : n.child? name with
      | none => exact Sorted.empty m
      | some d => exact h.child? hd
    · exact h.child? hc'

theorem Sorted.edit {n : Node σ} (h : n.Sorted) (m : σ) (path : List String)
    {f : Node σ → Node σ} (hf : ∀ c, c.Sorted → (f c).Sorted) : (n.edit m path f).Sorted := by
  induction path generalizing n with
  | nil => exact hf n h
  | cons name path ih =>
    refine .of_child? (by rw [props_edit_cons]; exact h.props_sorted) ?_ ?_
    · unfold Node.edit
      split
      · exact h.children_sorted.adjust name _
      · exact h.children_sorted
    · intro k c hc
      rw [child?_edit] at hc
      split at hc
      · obtain ⟨d, hd, rfl⟩ := Option.map_eq_some_iff.1 hc
        exact ih (h.child? hd)
      · exact h.child? hc

/-! ## Matches at one node -/

theorem matched_eq_of_props {a b : Node σ} (h : a.props = b.props) : a.matched = b.matched := by
  unfold matched flag prop?
  rw [h]

theorem matched_iff {n : Node σ} :
    n.matched = true ↔ n.prop? matchName = some (.flag true) := by
  unfold matched flag
  cases n.prop? matchName with
  | none => simp
  | some v => cases v <;> simp [Value.flag?]

theorem not_hasMatch_empty (m : σ) (a : List String) : ¬ (empty m).HasMatch a := by
  intro hx
  obtain ⟨c, hc, hm⟩ := hx
  cases a with
  | nil => cases hc; simp [matched_iff] at hm
  | cons k a => cases hc

theorem hasMatch_getD_empty {t : Node σ} {k : String} {a : List String} :
    ((t.child? k).getD (empty m)).HasMatch a ↔ t.HasMatch (k :: a) := by
  rw [hasMatch_cons]
  cases t.child? k with
  | none => simp [not_hasMatch_empty]
  | some c => simp

theorem not_hasMatch_of_not_occupied {n : Node σ} (h : n.occupied = false) (a : List String) :
    ¬ n.HasMatch a := by
  obtain ⟨hp, hc⟩ := occupied_eq_false_iff.1 h
  cases a with
  | nil =>
    rw [hasMatch_nil, matched_iff]
    intro e
    simp [hasProp, e] at hp
  | cons k a =>
    rw [hasMatch_cons]
    intro hx
    obtain ⟨c, hk, _⟩ := hx
    unfold child? at hk
    rw [hc] at hk
    cases hk

theorem hasMatch_congr {s t : Node σ} (hp : s.props = t.props)
    (hc : ∀ k a, s.HasMatch (k :: a) ↔ t.HasMatch (k :: a)) (a : List String) :
    s.HasMatch a ↔ t.HasMatch a := by
  cases a with
  | nil => rw [hasMatch_nil, hasMatch_nil, matched_eq_of_props hp]
  | cons k a => exact hc k a

/-! ## Marks -/

theorem hasMatch_grow_mark (t : Node σ) (path a : List String) :
    (t.grow m path (·.setProp matchName (.flag true))).HasMatch a ↔ a = path ∨ t.HasMatch a := by
  induction path generalizing t a with
  | nil =>
    cases a with
    | nil => simp [hasMatch_nil, matched_iff, prop?_setProp]
    | cons k a => simp [hasMatch_cons]
  | cons name path ih =>
    cases a with
    | nil =>
      rw [hasMatch_nil, hasMatch_nil, matched_eq_of_props (props_grow_cons m name path _ t)]
      simp
    | cons k a =>
      rw [hasMatch_cons, child?_grow]
      by_cases e : k = name
      · rw [if_pos e, e]
        simp [ih, hasMatch_getD_empty]
      · rw [if_neg e, hasMatch_cons]
        simp [e]

theorem hasMatch_edit_clear (t : Node σ) (path a : List String) :
    (t.edit m path (·.removeProp matchName)).HasMatch a ↔ a ≠ path ∧ t.HasMatch a := by
  induction path generalizing t a with
  | nil =>
    cases a with
    | nil => simp [hasMatch_nil, matched_iff, prop?_removeProp]
    | cons k a => simp [hasMatch_cons]
  | cons name path ih =>
    cases a with
    | nil =>
      rw [hasMatch_nil, hasMatch_nil, matched_eq_of_props (props_edit_cons m name path _ t)]
      simp
    | cons k a =>
      rw [hasMatch_cons, child?_edit, hasMatch_cons]
      by_cases e : k = name
      · rw [if_pos e, e]
        cases t.child? name <;> simp [ih]
      · rw [if_neg e]
        simp [e]

/-! ## Pruning -/

/-- what pruning does at one node: there is nothing on the path, or the next node on it is left
empty and goes, or it is kept in the form that pruning below gave it -/
theorem prunePath_cases (m : σ) (name : String) (path : List String) (n : Node σ) :
    (n.child? name = none ∧ n.prunePath m (name :: path) = (n, true)) ∨
    (∃ c, n.child? name = some c ∧ (c.prunePath m path).1.occupied = false ∧
      n.prunePath m (name :: path) = (n.removeChild m name, true)) ∨
    (∃ c n', n.child? name = some c ∧
      ((c.prunePath m path).2 = true → (c.prunePath m path).1.occupied = true) ∧
      n.prunePath m (name :: path) = (n', false) ∧ n'.props = n.props ∧
      (n.children.Sorted → n'.children.Sorted) ∧
      ∀ k, n'.child? k = if k = name then some (c.prunePath m path).1 else n.child? k) := by
  cases hc : n.child? name with
  | none => exact .inl ⟨rfl, by rw [prunePath, hc]⟩
  | some c =>
    refine .inr ?_
    by_cases hr : ((c.prunePath m path).2 && !(c.prunePath m path).1.occupied) = true
    · refine .inl ⟨c, rfl, ?_, ?_⟩
      · simp only [Bool.and_eq_true, Bool.not_eq_true'] at hr
        exact hr.2
      · rw [prunePath, hc]
        simp only [hr, if_true]
    · have hocc : (c.prunePath m path).2 = true → (c.prunePath m path).1.occupied = true := by
        intro h2
        simpa [h2] using hr
      by_cases hp : path = []
      · subst hp
        refine .inr ⟨c, n, rfl, hocc, ?_, rfl, id, ?_⟩
        · rw [prunePath, hc]
          simp only [hr, if_true, Bool.false_eq_true, if_false]
        · intro k
          by_cases e : k = name
          · rw [if_pos e, e, hc]; rfl
          · rw [if_neg e]
      · refine .inr ⟨c, n.edit m [name] fun _ => (c.prunePath m path).1, rfl, hocc, ?_,
          props_edit_cons m name [] _ n, ?_, ?_⟩
        · rw [prunePath, hc]
          simp only [hr, hp, Bool.false_eq_true, if_false]
        · intro h
          unfold edit
          split
          · exact h.adjust name _
          · exact h
        · intro k
          rw [child?_edit, hc]
          rfl

theorem props_prunePath (m : σ) (path : List String) (n : Node σ) :
    (n.prunePath m path).1.props = n.props := by
  cases path with
  | nil => rfl
  | cons name path =>
    rcases prunePath_cases m name path n with ⟨_, e⟩ | ⟨c, _, _, e⟩ | ⟨c, n', _, _, e, hp, _⟩
    · rw [e]
    · rw [e]; exact props_removeChild m name n
    · rw [e]; exact hp

theorem prop?_prunePath (m : σ) (path : List String) (n : Node σ) (name : String) :
    (n.prunePath m path).1.prop? name = n.prop? name := by
  unfold prop?
  rw [props_prunePath]

theorem Sorted.prunePath {n : Node σ} (h : n.Sorted) (m : σ) (path : List String) :
    (n.prunePath m path).1.Sorted := by
  induction path generalizing n with
  | nil => exact h
  | cons name path ih =>
    rcases prunePath_cases m name path n with
      ⟨_, e⟩ | ⟨c, _, _, e⟩ | ⟨c, n', hc, _, e, hp, hs, hk⟩
    · rw [e]; exact h
    · rw [e]; exact h.removeChild m name
    · rw [e]
      refine .of_child? (by rw [hp]; exact h.props_sorted) (hs h.children_sorted) ?_
      intro k d hd
      rw [hk] at hd
      split at hd
      · cases hd
        exact ih (h.child? hc)
      · exact h.child? hd

theorem hasMatch_prunePath (path : List String) (n : Node σ) (a : List String) :
    (n.prunePath m path).1.HasMatch a ↔ n.HasMatch a := by
  induction path generalizing n a with
  | nil => exact Iff.rfl
  | cons name path ih =>
    refine hasMatch_congr (props_prunePath m (name :: path) n) ?_ a
    intro k b
    rcases prunePath_cases m name path n with
      ⟨_, e⟩ | ⟨c, hc, hocc, e⟩ | ⟨c, n', hc, _, e, _, _, hk⟩
    · rw [e]
    · rw [e, hasMatch_cons, hasMatch_cons, child?_removeChild]
      by_cases hkn : k = name
      · have hno : ¬ c.HasMatch b := fun hb =>
          not_hasMatch_of_not_occupied hocc b ((ih c b).2 hb)
        rw [if_pos hkn, hkn, hc]
        simp [hno]
      · rw [if_neg hkn]
    · rw [e, hasMatch_cons, hasMatch_cons, hk]
      by_cases hkn : k = name
      · rw [if_pos hkn, hkn, hc]
        simp [ih]
      · rw [if_neg hkn]

end PropertyIndex.Node
