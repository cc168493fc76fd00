import PropertyIndex.Proofs.Node.Writes

/-!
# Tidy branches

A branch is tidy when it holds matches and nothing else: no property but a true `match`, and no
node that is there for nothing.  Adding a match and taking one out keep a branch tidy, and a tidy
branch is determined by where its matches are.

* `Node.Tidy`             tidy but for some properties that the root has for itself;
* `Tidy.replace`          a child of a tidy node may be replaced by another tidy one;
* `Tidy.grow_mark`, `Tidy.unmark`   both writes keep a branch tidy;
* `Tidy.exists_hasMatch`  a tidy branch that is not empty has a match;
* `Tidy.forget_eq`        two tidy branches with the same matches are the same.
-/

namespace PropertyIndex

theorem SortedMap.get?_map {α β : Type} (f : α → β) (k : String) (l : SortedMap α) :
    get? k (l.map fun p => (p.1, f p.2)) = (get? k l).map f := by
  induction l with
  | nil => rfl
  | cons p r ih =>
    obtain ⟨k', v⟩ := p
    rw [List.map_cons, get?_cons, get?_cons, ih]
    split <;> rfl

namespace Node

variable {σ : Type} {m : σ}

/-- no property but a true `match` and those that the root has for itself, and below the root only
occupied nodes that are tidy themselves -/
inductive Tidy : Node σ → List String → Prop where
  | mk {n : Node σ} {own : List String}
      (props : ∀ name v, n.prop? name = some v → name ∈ own ∨ name = matchName ∧ v = .flag true)
      (occupied : ∀ k c, n.child? k = some c → c.occupied = true)
      (below : ∀ k c, n.child? k = some c → Tidy c []) : Tidy n own

namespace Tidy

variable {own : List String} {n : Node σ}

theorem of_child
    (props : ∀ name v, n.prop? name = some v → name ∈ own ∨ name = matchName ∧ v = .flag true)
    (below : ∀ k c, n.child? k = some c → c.occupied = true ∧ c.Tidy []) : n.Tidy own :=
  .mk props (fun k c hc => (below k c hc).1) fun k c hc => (below k c hc).2

theorem prop (h : n.Tidy own) {name : String} {v : Value} (hv : n.prop? name = some v) :
    name ∈ own ∨ name = matchName ∧ v = .flag true := by
  cases h with
  | mk props _ _ => exact props name v hv

theorem child (h : n.Tidy own) {k : String} {c : Node σ} (hc : n.child? k = some c) :
    c.occupied = true ∧ c.Tidy [] := by
  cases h with
  | mk _ occupied below => exact ⟨occupied k c hc, below k c hc⟩

theorem empty (own : List String) (m : σ) : (Node.empty m).Tidy own :=
  .of_child (fun _ _ h => by cases h) fun _ _ h => by cases h

/-- the properties that the root has for itself may change -/
theorem congr {n' : Node σ} (h : n.Tidy own) (hc : ∀ k, n'.child? k = n.child? k)
    (hp : ∀ name, name ∉ own → n'.prop? name = n.prop? name) : n'.Tidy own := by
  refine .of_child ?_ fun k c hk => h.child (hc k ▸ hk)
  intro name v hv
  by_cases ho : name ∈ own
  · exact .inl ho
  · exact h.prop (hp name ho ▸ hv)

/-- a child may be replaced by another tidy one, or be left out -/
theorem replace {n' : Node σ} (h : n.Tidy own) (name : String) (hp : n'.props = n.props)
    (hother : ∀ k, k ≠ name → n'.child? k = n.child? k)
    (hname : ∀ c, n'.child? name = some c → c.occupied = true ∧ c.Tidy []) : n'.Tidy own := by
  refine .of_child ?_ ?_
  · intro k v hv
    unfold prop? at hv
    rw [hp] at hv
    exact h.prop hv
  · intro k c hc
    by_cases e : k = name
    · rw [e] at hc
      exact hname c hc
    · rw [hother k e] at hc
      exact h.child hc

end Tidy

/-! ## Occupied nodes -/

theorem occupied_of_child? {n c : Node σ} {k : String} (h : n.child? k = some c) :
    n.occupied = true := by
  rw [← Bool.not_eq_false, occupied_eq_false_iff]
  intro hx
  obtain ⟨_, hc⟩ := hx
  unfold child? at h
  rw [hc] at h
  cases h

theorem occupied_of_prop? {n : Node σ} {v : Value} (h : n.prop? matchName = some v) :
    n.occupied = true := by
  unfold occupied hasProp
  rw [h]
  rfl

theorem occupied_edit_cons (m : σ) (name : String) (path : List String) (f : Node σ → Node σ)
    (n : Node σ) : (n.edit m (name :: path) f).occupied = n.occupied := by
  unfold occupied hasProp prop?
  rw [props_edit_cons, childCount_edit_cons]

theorem Tidy.exists_hasMatch {own : List String} {n : Node σ} (h : n.Tidy own)
    (hown : matchName ∉ own) (hn : n.occupied = true) : ∃ a, n.HasMatch a := by
  induction n using induct generalizing own with
  | step mk ps cs ih =>
    cases hp : (⟨mk, ps, cs⟩ : Node σ).prop? matchName with
    | some v =>
      refine ⟨[], hasMatch_nil.2 (matched_iff.2 ?_)⟩
      rcases h.prop hp with ho | ⟨_, rfl⟩
      · exact absurd ho hown
      · exact hp
    | none =>
      cases cs with
      | nil =>
        have e : (⟨mk, ps, []⟩ : Node σ).occupied = false :=
          occupied_eq_false_iff.2 ⟨by unfold hasProp; rw [hp]; rfl, rfl⟩
        rw [e] at hn
        cases hn
      | cons p r =>
        obtain ⟨k, c⟩ := p
        have hc : (⟨mk, ps, (k, c) :: r⟩ : Node σ).child? k = some c :=
          SortedMap.get?_cons_self k c r
        obtain ⟨hoc, htc⟩ := h.child hc
        obtain ⟨a, ha⟩ := ih (k, c) List.mem_cons_self htc List.not_mem_nil hoc
        exact ⟨k :: a, hasMatch_cons.2 ⟨c, hc, ha⟩⟩

/-! ## Adding a match -/

theorem Tidy.grow_mark {own : List String} {n : Node σ} (h : n.Tidy own) (m : σ)
    (path : List String) :
    (n.grow m path (·.setProp matchName (.flag true))).Tidy own ∧
      (n.grow m path (·.setProp matchName (.flag true))).occupied = true := by
  induction path generalizing n own with
  | nil =>
    have hp : (n.setProp matchName (.flag true)).prop? matchName = some (.flag true) := by
      rw [prop?_setProp, if_pos rfl]
    refine ⟨.of_child ?_ fun k c hc => h.child hc, occupied_of_prop? hp⟩
    intro name v hv
    rw [grow_nil, prop?_setProp] at hv
    split at hv
    · next e =>
      cases hv
      exact .inr ⟨e, rfl⟩
    · exact h.prop hv
  | cons name path ih =>
    have hname := child?_grow m name path (·.setProp matchName (.flag true)) n name
    rw [if_pos rfl] at hname
    have htidy : ((n.child? name).getD (Node.empty m)).Tidy [] := by
      cases hd : n.child? name with
      | none => exact Tidy.empty [] m
      | some d => exact (h.child hd).2
    refine ⟨h.replace name rfl ?_ ?_, occupied_of_child? hname⟩
    · intro k hk
      rw [child?_grow, if_neg hk]
    · intro c hc
      rw [hname] at hc
      cases hc
      exact (ih htidy).symm

/-! ## Taking out a match -/

/-- takes out the match at the end of a path and prunes what that leaves empty; says whether the
root itself may be empty now -/
def unmark (m : σ) (path : List String) (n : Node σ) : Node σ × Bool :=
  if (n.at? path).isSome then (n.edit m path (·.removeProp matchName)).prunePath m path
  else (n.edit m path (·.removeProp matchName), false)

theorem prop?_edit_clear (m : σ) (path : List String) (n : Node σ) {name : String}
    (h : name ≠ matchName) :
    (n.edit m path (·.removeProp matchName)).prop? name = n.prop? name := by
  cases path with
  | nil => rw [edit_nil, prop?_removeProp, if_neg h]
  | cons k path => unfold prop?; rw [props_edit_cons]

theorem prop?_unmark (m : σ) (path : List String) (n : Node σ) {name : String}
    (h : name ≠ matchName) : (n.unmark m path).1.prop? name = n.prop? name := by
  have he := prop?_edit_clear m path n h
  unfold unmark
  split
  · rw [prop?_prunePath, he]
  · exact he

theorem Sorted.unmark {n : Node σ} (h : n.Sorted) (m : σ) (path : List String) :
    (n.unmark m path).1.Sorted := by
  have he := h.edit m path fun c hc => Sorted.removeProp hc matchName
  unfold Node.unmark
  split
  · exact he.prunePath m path
  · exact he

theorem hasMatch_unmark (m : σ) (path : List String) (n : Node σ) (a : List String) :
    (n.unmark m path).1.HasMatch a ↔ a ≠ path ∧ n.HasMatch a := by
  unfold unmark
  split
  · rw [hasMatch_prunePath, hasMatch_edit_clear]
  · exact hasMatch_edit_clear n path a

theorem Tidy.edit_of_at?_none {own : List String} {n : Node σ} (h : n.Tidy own) {m : σ}
    {path : List String} (hn : n.at? path = none) (f : Node σ → Node σ) :
    (n.edit m path f).Tidy own ∧ (n.edit m path f).occupied = n.occupied := by
  induction path generalizing n own with
  | nil => cases hn
  | cons name path ih =>
    refine ⟨h.replace name (props_edit_cons m name path f n) ?_ ?_,
      occupied_edit_cons m name path f n⟩
    · intro k hk
      rw [child?_edit, if_neg hk]
    · intro c hc
      rw [child?_edit, if_pos rfl] at hc
      obtain ⟨d, hd, rfl⟩ := Option.map_eq_some_iff.1 hc
      rw [at?_cons, hd] at hn
      obtain ⟨htidy, hocc⟩ := ih (h.child hd).2 hn
      exact ⟨hocc.trans (h.child hd).1, htidy⟩

/-- clearing and pruning keep a branch tidy, and a root that they report as kept is occupied -/
theorem Tidy.prunePath_edit_clear {own : List String} {n : Node σ} (h : n.Tidy own) {m : σ}
    {path : List String} (hn : (n.at? path).isSome) :
    ((n.edit m path (·.removeProp matchName)).prunePath m path).1.Tidy own ∧
      (((n.edit m path (·.removeProp matchName)).prunePath m path).2 = false →
        ((n.edit m path (·.removeProp matchName)).prunePath m path).1.occupied = true) := by
  induction path generalizing n own with
  | nil =>
    refine ⟨.of_child ?_ fun k c hc => h.child hc, fun e => by cases e⟩
    intro name v hv
    have hv' : (n.removeProp matchName).prop? name = some v := hv
    rw [prop?_removeProp] at hv'
    split at hv'
    · cases hv'
    · exact h.prop hv'
  | cons name path ih =>
    obtain ⟨d, hd⟩ : ∃ d, n.child? name = some d := by
      cases hd : n.child? name with
      | none => rw [at?_cons, hd] at hn; cases hn
      | some d => exact ⟨d, rfl⟩
    have hnd : (d.at? path).isSome := by rwa [at?_cons, hd] at hn
    obtain ⟨htidy, hocc⟩ := ih (h.child hd).2 hnd
    have hprops := props_edit_cons m name path (·.removeProp matchName) n
    have hname := child?_edit m name path (·.removeProp matchName) n name
    rw [if_pos rfl, hd, Option.map_some] at hname
    have hother : ∀ k, k ≠ name →
        (n.edit m (name :: path) (·.removeProp matchName)).child? k = n.child? k := by
      intro k hk
      rw [child?_edit, if_neg hk]
    -- the next node on the path is there, so it is taken out or stays as it was left
    rcases prunePath_cases m name path (n.edit m (name :: path) (·.removeProp matchName)) with
      ⟨hc, _⟩ | ⟨c, hc, _, e⟩ | ⟨c, n', hc, hkept, e, hp, _, hk⟩
    · rw [hname] at hc
      cases hc
    · rw [e]
      refine ⟨h.replace name ((props_removeChild m name _).trans hprops) ?_ ?_, fun e => by cases e⟩
      · intro k hk
        rw [child?_removeChild, if_neg hk]
        exact hother k hk
      · intro c' hc'
        rw [child?_removeChild, if_pos rfl] at hc'
        cases hc'
    · rw [hname] at hc
      cases hc
      have hc1 := hk name
      rw [if_pos rfl] at hc1
      rw [e]
      refine ⟨h.replace name (hp.trans hprops) ?_ ?_, fun _ => occupied_of_child? hc1⟩
      · intro k hne
        rw [hk, if_neg hne]
        exact hother k hne
      · intro c' hc'
        rw [hc1] at hc'
        cases hc'
        refine ⟨?_, htidy⟩
        by_cases h2 : ((d.edit m path (·.removeProp matchName)).prunePath m path).2 = true
        · exact hkept h2
        · exact hocc (by simpa using h2)

theorem Tidy.unmark {own : List String} {n : Node σ} (h : n.Tidy own) (m : σ)
    (path : List String) (hn : n.occupied = true) :
    (n.unmark m path).1.Tidy own ∧
      ((n.unmark m path).2 = false → (n.unmark m path).1.occupied = true) := by
  unfold Node.unmark
  split
  · next hs => exact h.prunePath_edit_clear hs
  · next hs =>
    have hnone : n.at? path = none := by simpa using hs
    obtain ⟨htidy, hocc⟩ := h.edit_of_at?_none hnone (·.removeProp matchName)
    exact ⟨htidy, fun _ => hocc.trans hn⟩

/-! ## A tidy branch is what its matches are -/

theorem child?_forget (n : Node σ) (k : String) : n.forget.child? k = (n.child? k).map forget := by
  unfold child?
  rw [children_forget, SortedMap.get?_map]

/-- sorted trees with the same properties and the same children are the same -/
theorem forget_eq_of_children {a b : Node σ} (ha : a.Sorted) (hb : b.Sorted)
    (hp : a.props = b.props) (hc : ∀ k, (a.child? k).map forget = (b.child? k).map forget) :
    a.forget = b.forget := by
  have hs : ∀ n : Node σ, n.Sorted → n.forget.children.Sorted := by
    intro n hn
    rw [children_forget]
    exact List.pairwise_map.2 hn.children_sorted
  refine Node.ext rfl ?_ ((hs a ha).ext (hs b hb) ?_)
  · rw [props_forget, props_forget, hp]
  · intro k
    have hk := hc k
    rw [← child?_forget, ← child?_forget] at hk
    exact hk

theorem props_eq_of_tidy {own : List String} {a b : Node σ} (ha : a.Tidy own) (hb : b.Tidy own)
    (hsa : a.Sorted) (hsb : b.Sorted) (hown : ∀ name ∈ own, a.prop? name = b.prop? name)
    (h : a.matched = b.matched) : a.props = b.props := by
  apply hsa.props_sorted.ext hsb.props_sorted
  intro name
  show a.prop? name = b.prop? name
  by_cases ho : name ∈ own
  · exact hown name ho
  -- outside its own properties a tidy node has a true `match` or nothing
  have hval : ∀ n : Node σ, n.Tidy own → ∀ v, n.prop? name = some v ↔
      v = .flag true ∧ name = matchName ∧ n.matched = true := by
    intro n hn v
    constructor
    · intro hv
      rcases hn.prop hv with ho' | ⟨rfl, rfl⟩
      · exact absurd ho' ho
      · exact ⟨rfl, rfl, matched_iff.2 hv⟩
    · intro hx
      obtain ⟨rfl, rfl, hm⟩ := hx
      exact matched_iff.1 hm
  apply Option.ext
  intro v
  rw [hval a ha, hval b hb, h]

/-- two tidy branches with the same matches are the same, apart from the marks -/
theorem Tidy.forget_eq {own : List String} {a b : Node σ} (ha : a.Tidy own) (hb : b.Tidy own)
    (hsa : a.Sorted) (hsb : b.Sorted) (hname : matchName ∉ own)
    (hown : ∀ name ∈ own, a.prop? name = b.prop? name) (h : ∀ p, a.HasMatch p ↔ b.HasMatch p) :
    a.forget = b.forget := by
  induction a using induct generalizing own b with
  | step m ps cs ih =>
    have hm : matched ⟨m, ps, cs⟩ = b.matched := by
      have h0 := h []
      rw [hasMatch_nil, hasMatch_nil] at h0
      exact Bool.eq_iff_iff.2 h0
    apply forget_eq_of_children hsa hsb (props_eq_of_tidy ha hb hsa hsb hown hm)
    intro k
    -- a child without a match would not be there at all
    have hsome : ∀ {n n' c : Node σ} {o : List String}, n.Tidy o →
        (∀ p, n.HasMatch p ↔ n'.HasMatch p) → n.child? k = some c → ∃ d, n'.child? k = some d := by
      intro n n' c o hn hp hc
      obtain ⟨hocc, htidy⟩ := hn.child hc
      obtain ⟨p, hmp⟩ := htidy.exists_hasMatch List.not_mem_nil hocc
      obtain ⟨d, hd, _⟩ := hasMatch_cons.1 ((hp (k :: p)).1 (hasMatch_cons.2 ⟨c, hc, hmp⟩))
      exact ⟨d, hd⟩
    cases hca : (⟨m, ps, cs⟩ : Node σ).child? k with
    | none =>
      cases hcb : b.child? k with
      | none => rfl
      | some d =>
        obtain ⟨c, hc⟩ := hsome hb (fun p => (h p).symm) hcb
        rw [hca] at hc
        cases hc
    | some c =>
      obtain ⟨d, hcb⟩ := hsome ha h hca
      have hbelow : ∀ p, c.HasMatch p ↔ d.HasMatch p := by
        intro p
        have hk := h (k :: p)
        rw [hasMatch_cons, hasMatch_cons, hca, hcb] at hk
        simpa using hk
      rw [hcb, Option.map_some, Option.map_some]
      exact congrArg some (ih (k, c) (SortedMap.mem_of_get? hca) (ha.child hca).2 (hb.child hcb).2
        (hsa.child? hca) (hsb.child? hcb) List.not_mem_nil (fun _ hn => absurd hn List.not_mem_nil)
        hbelow)

end Node

end PropertyIndex
