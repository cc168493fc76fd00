import PropertyIndex.Proofs.Node.Tidy

/-!
# What taking out a match leaves of a branch

* `Node.forget_edit`        a write that leaves the node at the end of its path as it was;
* `Node.occupied_prunePath`    every node that pruning leaves on its path is occupied;
* `Node.forget_prunePath`   nothing is pruned on a path to an occupied node;
* `Node.forget_unmark_unmark`  taking out a match once more changes nothing;
* `Node.Lone`               a branch that is a path to one node, and nothing beside it;
* `Node.emptied_unmark_iff` only such a branch is left empty when a match is taken out.
-/

namespace PropertyIndex

/-! ## Maps -/

namespace SortedMap

variable {α β : Type} {k : String} {v : α} {l : SortedMap α}

theorem map_adjust {f : α → α} {g : α → β} (h : get? k l = some v) (hv : g (f v) = g v) :
    (adjust k f l).map (fun p => (p.1, g p.2)) = l.map fun p => (p.1, g p.2) := by
  induction l with
  | nil => rfl
  | cons p r ih =>
    obtain ⟨k', v'⟩ := p
    rw [get?_cons] at h
    unfold adjust
    split at h
    · next e =>
      cases h
      rw [if_pos e, List.map_cons, List.map_cons, hv]
    · next e => rw [if_neg e, List.map_cons, List.map_cons, ih h]

theorem adjust_eq_const (f : α → α) (h : get? k l = some v) :
    adjust k f l = adjust k (fun _ => f v) l := by
  induction l with
  | nil => rfl
  | cons p r ih =>
    obtain ⟨k', v'⟩ := p
    rw [get?_cons] at h
    unfold adjust
    split at h
    · next e =>
      cases h
      rw [if_pos e, if_pos e]
    · next e => rw [if_neg e, if_neg e, ih h]

theorem adjust_adjust (k : String) (a b : α) (l : SortedMap α) :
    adjust k (fun _ => b) (adjust k (fun _ => a) l) = adjust k (fun _ => b) l := by
  induction l with
  | nil => rfl
  | cons p r ih =>
    obtain ⟨k', v'⟩ := p
    by_cases e : k' = k
    · simp [adjust, e]
    · simp [adjust, e, ih]

theorem erase_of_get?_eq_none (h : get? k l = none) : erase k l = l := by
  apply List.filter_eq_self.2
  intro p hp
  have hk := get?_eq_none_iff.1 h
  have hne : p.1 ≠ k := fun e => hk (e ▸ List.mem_map_of_mem hp)
  simpa using hne

theorem erase_eq_nil_iff : erase k l = [] ↔ ∀ j, j ≠ k → get? j l = none := by
  unfold erase
  rw [List.filter_eq_nil_iff]
  constructor
  · intro h j hj
    rw [get?_eq_none_iff]
    intro hm
    obtain ⟨p, hp, rfl⟩ := List.mem_map.1 hm
    exact h p hp (by simpa using hj)
  · intro h p hp hne
    have hn := get?_eq_none_iff.1 (h p.1 (by simpa using hne))
    exact hn (List.mem_map_of_mem hp)

end SortedMap

namespace Node

variable {σ : Type} {m : σ} {n c : Node σ} {name : String} {path : List String}

/-! ## Writes below one child -/

theorem edit_of_child?_eq_none (m : σ) (path : List String) (f : Node σ → Node σ)
    (h : n.child? name = none) : n.edit m (name :: path) f = n := by
  unfold edit
  rw [hasChild_eq_false_iff.2 h]
  rfl

theorem edit_of_child? (m : σ) (path : List String) (f : Node σ → Node σ)
    (h : n.child? name = some c) : n.edit m (name :: path) f
      = ⟨m, n.props, n.children.adjust name (edit m path f)⟩ := by
  unfold edit
  rw [if_pos (hasChild_iff.2 ⟨c, h⟩)]

/-- a write below a child puts back the child that it makes -/
theorem edit_eq_put (m : σ) (path : List String) (f : Node σ → Node σ)
    (h : n.child? name = some c) :
    n.edit m (name :: path) f = n.edit m [name] fun _ => c.edit m path f := by
  rw [edit_of_child? m path f h, edit_of_child? m [] _ h, SortedMap.adjust_eq_const _ h]
  rfl

theorem child?_put (m : σ) (h : n.child? name = some c) (a : Node σ) :
    (n.edit m [name] fun _ => a).child? name = some a := by
  rw [child?_edit, if_pos rfl, h]
  rfl

theorem put_put (a b : Node σ) (h : n.child? name = some c) :
    (n.edit m [name] fun _ => a).edit m [name] (fun _ => b) = n.edit m [name] fun _ => b := by
  rw [edit_of_child? m [] _ (child?_put m h a), edit_of_child? m [] _ h, edit_of_child? m [] _ h]
  exact congrArg (mk m n.props) (SortedMap.adjust_adjust name a b n.children)

/-! ## The plain tree after a write -/

theorem forget_congr {a b : Node σ} (hp : a.props = b.props)
    (hc : a.forget.children = b.forget.children) : a.forget = b.forget :=
  Node.ext rfl (by rw [props_forget, props_forget, hp]) hc

theorem forget_eq_of_parts {a b : Node σ} (hp : a.props = b.props)
    (hc : a.children = b.children) : a.forget = b.forget :=
  forget_congr hp (by rw [children_forget, children_forget, hc])

/-- a write that leaves the node at the end of its path as it was leaves the tree as it was -/
theorem forget_edit (m : σ) {f : Node σ → Node σ}
    (h : ∀ c, n.at? path = some c → (f c).forget = c.forget) :
    (n.edit m path f).forget = n.forget := by
  induction path generalizing n with
  | nil => exact h n rfl
  | cons name path ih =>
    cases hc : n.child? name with
    | none => rw [edit_of_child?_eq_none m path f hc]
    | some c =>
      have hf : (c.edit m path f).forget = c.forget := by
        apply ih
        intro d hd
        exact h d (by rw [at?_cons, hc]; exact hd)
      rw [edit_of_child? m path f hc]
      refine forget_congr (a := ⟨m, n.props, _⟩) rfl ?_
      rw [children_forget, children_forget]
      exact SortedMap.map_adjust hc hf

theorem forget_put (m : σ) (h : n.child? name = some c) {x : Node σ} (hx : x.forget = c.forget) :
    (n.edit m [name] fun _ => x).forget = n.forget := by
  apply forget_edit
  intro d hd
  rw [at?_singleton, h] at hd
  cases hd
  exact hx

theorem hasProp_eq_of_forget {a b : Node σ} (h : a.forget = b.forget) (name : String) :
    a.hasProp name = b.hasProp name := by
  unfold hasProp prop?
  rw [← props_forget, h, props_forget]

theorem occupied_forget (n : Node σ) : n.forget.occupied = n.occupied := by
  unfold occupied hasProp prop? childCount
  rw [props_forget, children_forget, List.length_map]

theorem occupied_eq_of_forget {a b : Node σ} (h : a.forget = b.forget) :
    a.occupied = b.occupied := by
  rw [← occupied_forget, h, occupied_forget]

/-! ## What pruning leaves -/

/-- every node that pruning leaves on its path is occupied, and so is a root that it reports as
kept -/
theorem occupied_prunePath (m : σ) (h : (n.at? path).isSome) :
    ((n.prunePath m path).2 = false → (n.prunePath m path).1.occupied = true) ∧
      ∀ p, p ≠ [] → p <+: path → ∀ x, (n.prunePath m path).1.at? p = some x →
        x.occupied = true := by
  induction path generalizing n with
  | nil =>
    refine ⟨(fun e => by cases e), ?_⟩
    intro p hp hpre
    exact absurd (List.prefix_nil.1 hpre) hp
  | cons name path ih =>
    rcases prunePath_cases m name path n with
      ⟨hc, _⟩ | ⟨c, _, _, e⟩ | ⟨c, n', hc, hocc, e, _, _, hk⟩
    · rw [at?_cons, hc] at h
      cases h
    · rw [e]
      refine ⟨(fun e => by cases e), ?_⟩
      intro p hp hpre x hx
      cases p with
      | nil => exact absurd rfl hp
      | cons k p =>
        rw [at?_cons, child?_removeChild, if_pos (List.cons_prefix_cons.1 hpre).1] at hx
        cases hx
    · have hname : n'.child? name = some (c.prunePath m path).1 := by rw [hk, if_pos rfl]
      rw [at?_cons, hc] at h
      obtain ⟨hroot, hbelow⟩ := ih h
      rw [e]
      refine ⟨fun _ => occupied_of_child? hname, ?_⟩
      intro p hp hpre x hx
      cases p with
      | nil => exact absurd rfl hp
      | cons k p =>
        obtain ⟨rfl, hpre'⟩ := List.cons_prefix_cons.1 hpre
        rw [at?_cons, hname, Option.bind_some] at hx
        by_cases hp' : p = []
        · -- the child itself was kept
          rw [hp'] at hx
          cases hx
          cases h2 : (c.prunePath m path).2 with
          | true => exact hocc h2
          | false => exact hroot h2
        · exact hbelow p hp' hpre' x hx

/-- a node that pruning leaves at the end of its path was there before, with the same properties -/
theorem at?_prunePath {x : Node σ} (h : (n.prunePath m path).1.at? path = some x) :
    ∃ y, n.at? path = some y ∧ x.props = y.props := by
  induction path generalizing n with
  | nil => exact ⟨n, rfl, by cases h; rfl⟩
  | cons name path ih =>
    rcases prunePath_cases m name path n with ⟨hc, e⟩ | ⟨c, _, _, e⟩ | ⟨c, n', hc, _, e, _, _, hk⟩
    · rw [e, at?_cons, hc] at h
      cases h
    · rw [e, at?_cons, child?_removeChild, if_pos rfl] at h
      cases h
    · rw [e, at?_cons, hk, if_pos rfl] at h
      rw [at?_cons, hc]
      exact ih h

/-- nothing is pruned on a path to an occupied node -/
theorem forget_prunePath (m : σ) (hp : path ≠ []) (h : n.at? path = some c)
    (hc : c.occupied = true) :
    (n.prunePath m path).2 = false ∧ (n.prunePath m path).1.forget = n.forget := by
  induction path generalizing n with
  | nil => exact absurd rfl hp
  | cons name path ih =>
    rw [at?_cons] at h
    obtain ⟨d, hd, h⟩ := Option.bind_eq_some_iff.1 h
    by_cases hp' : path = []
    · subst hp'
      cases h
      simp [prunePath, hd, hc]
    · obtain ⟨h2, hforget⟩ := ih hp' h
      have he : n.prunePath m (name :: path)
          = (n.edit m [name] fun _ => (d.prunePath m path).1, false) := by
        rw [prunePath, hd]
        simp [h2, hp']
      rw [he]
      exact ⟨rfl, forget_put m hd hforget⟩

/-! ## Taking out a match -/

/-- without a node at the end of the path, nothing is taken out -/
theorem unmark_of_at?_eq_none (m : σ) (h : n.at? path = none) :
    (n.unmark m path).2 = false ∧ (n.unmark m path).1.forget = n.forget ∧
      (n.unmark m path).1.at? path = none := by
  have hs : (n.at? path).isSome = false := by rw [h]; rfl
  unfold unmark
  rw [hs, if_neg Bool.false_ne_true]
  refine ⟨rfl, forget_edit m ?_, ?_⟩
  · intro c hc
    rw [h] at hc
    cases hc
  · rw [at?_edit, h]
    rfl

theorem unmark_of_at?_isSome (m : σ) (h : (n.at? path).isSome) :
    n.unmark m path = (n.edit m path (·.removeProp matchName)).prunePath m path := by
  unfold unmark
  rw [if_pos h]

/-- every node that is left on the path is occupied, and so is a root that is reported as kept -/
theorem occupied_unmark (m : σ) (h : (n.at? path).isSome) :
    ((n.unmark m path).2 = false → (n.unmark m path).1.occupied = true) ∧
      ∀ p, p ≠ [] → p <+: path → ∀ x, (n.unmark m path).1.at? p = some x →
        x.occupied = true := by
  rw [unmark_of_at?_isSome m h]
  apply occupied_prunePath
  rw [at?_edit, Option.isSome_map]
  exact h

theorem prop?_at?_unmark {x : Node σ} (h : (n.unmark m path).1.at? path = some x) :
    x.prop? matchName = none := by
  cases hs : n.at? path with
  | none =>
    rw [(unmark_of_at?_eq_none m hs).2.2] at h
    cases h
  | some c =>
    rw [unmark_of_at?_isSome m (by rw [hs]; rfl)] at h
    obtain ⟨y, hy, hprops⟩ := at?_prunePath h
    rw [at?_edit, hs] at hy
    cases hy
    unfold prop?
    rw [hprops]
    exact SortedMap.get?_erase_self matchName c.props

theorem forget_removeProp (h : n.prop? name = none) : (n.removeProp name).forget = n.forget :=
  forget_eq_of_parts (SortedMap.erase_of_get?_eq_none h) rfl

/-- taking out a match once more changes nothing, and does not ask for the root to go unless the
first time did -/
theorem forget_unmark_unmark (m m' : σ) (path : List String) (n : Node σ) :
    ((n.unmark m path).1.unmark m' path).1.forget = (n.unmark m path).1.forget ∧
      (((n.unmark m path).1.unmark m' path).2 = true → (n.unmark m path).2 = false →
        (n.unmark m path).1.occupied = true) := by
  cases hs : n.at? path with
  | none =>
    obtain ⟨_, _, hnone⟩ := unmark_of_at?_eq_none m hs
    obtain ⟨h2, hforget, _⟩ := unmark_of_at?_eq_none m' hnone
    refine ⟨hforget, fun e => ?_⟩
    rw [h2] at e
    cases e
  | some c =>
    have hsome : (n.at? path).isSome := by rw [hs]; rfl
    obtain ⟨hroot, hbelow⟩ := occupied_unmark m hsome
    refine ⟨?_, fun _ => hroot⟩
    cases hx : (n.unmark m path).1.at? path with
    | none => exact (unmark_of_at?_eq_none m' hx).2.1
    | some x =>
      -- what is left at the end of the path has no match, and the path to it is not pruned
      have hforget : ((n.unmark m path).1.edit m' path (·.removeProp matchName)).forget
          = (n.unmark m path).1.forget := by
        apply forget_edit
        intro y hy
        rw [hx] at hy
        cases hy
        exact forget_removeProp (prop?_at?_unmark hx)
      rw [unmark_of_at?_isSome m' (by rw [hx]; rfl)]
      by_cases hp : path = []
      · rw [hp] at hforget ⊢
        exact hforget
      · have hy : ((n.unmark m path).1.edit m' path (·.removeProp matchName)).at? path
            = some (x.removeProp matchName) := by
          rw [at?_edit, hx]
          rfl
        have hocc : (x.removeProp matchName).occupied = true := by
          rw [occupied_eq_of_forget (forget_removeProp (prop?_at?_unmark hx))]
          exact hbelow path hp (List.prefix_refl path) x hx
        exact (forget_prunePath m' hp hy hocc).2.trans hforget

/-! ## Branches that go -/

/-- nothing beside a path to one node, and no match on the way there -/
def Lone : List String → Node σ → Prop
  | [], n => n.children = []
  | name :: path, n => n.hasProp matchName = false ∧ (∀ k, k ≠ name → n.child? k = none) ∧
      ∃ c, n.child? name = some c ∧ Lone path c

/-- a node without its match and without its children -/
def hollow (n : Node σ) : Node σ := ⟨n.mark, n.props.erase matchName, []⟩

theorem Lone.at?_isSome (h : n.Lone path) : (n.at? path).isSome := by
  induction path generalizing n with
  | nil => rfl
  | cons name path ih =>
    obtain ⟨_, _, c, hc, hl⟩ := h
    rw [at?_cons, hc]
    exact ih hl

theorem lone_cons_iff (h : n.child? name = some c) : n.Lone (name :: path) ↔
    (n.hasProp matchName = false ∧ ∀ k, k ≠ name → n.child? k = none) ∧ c.Lone path := by
  rw [Lone, h, and_assoc]
  simp

/-- a node without a match is left empty when its only child is taken out -/
theorem occupied_removeChild_eq_false_iff (m : σ) (h : n.child? name = some c) :
    (n.removeChild m name).occupied = false ↔
      n.hasProp matchName = false ∧ ∀ k, k ≠ name → n.child? k = none := by
  have hc : (n.removeChild m name).children = n.children.erase name := by
    unfold removeChild
    rw [if_pos (hasChild_iff.2 ⟨c, h⟩)]
    rfl
  rw [occupied_eq_false_iff, hc, SortedMap.erase_eq_nil_iff]
  unfold hasProp prop?
  rw [props_removeChild]
  exact Iff.rfl

/-- pruning leaves the root empty only if there was nothing beside the path -/
theorem emptied_prunePath_edit_iff (m : σ) (h : (n.at? path).isSome) :
    ((n.edit m path (·.removeProp matchName)).prunePath m path).2 = true ∧
        ((n.edit m path (·.removeProp matchName)).prunePath m path).1.occupied = false ↔
      n.Lone path := by
  induction path generalizing n with
  | nil =>
    have hp : (n.removeProp matchName).hasProp matchName = false := by
      unfold hasProp
      rw [prop?_removeProp, if_pos rfl]
      rfl
    show true = true ∧ (n.removeProp matchName).occupied = false ↔ n.children = []
    rw [occupied_eq_false_iff, hp, children_removeProp]
    simp
  | cons name path ih =>
    rw [at?_cons] at h
    obtain ⟨d, hd⟩ : ∃ d, n.child? name = some d := by
      cases hd : n.child? name with
      | none => rw [hd] at h; cases h
      | some d => exact ⟨d, rfl⟩
    rw [hd, Option.bind_some] at h
    have hsome : ((d.edit m path (·.removeProp matchName)).at? path).isSome := by
      rw [at?_edit, Option.isSome_map]
      exact h
    obtain ⟨hroot, _⟩ := occupied_prunePath m hsome
    rw [lone_cons_iff hd, ← ih h]
    have hprops := props_edit_cons m name path (·.removeProp matchName) n
    have hchild := child?_edit m name path (·.removeProp matchName) n
    rw [hd, Option.map_some] at hchild
    have hname := hchild name
    rw [if_pos rfl] at hname
    rcases prunePath_cases m name path (n.edit m (name :: path) (·.removeProp matchName)) with
      ⟨hc, _⟩ | ⟨c, hc, hocc, e⟩ | ⟨c, n', hc, hocc, e, _, _, _⟩
    · rw [hname] at hc
      cases hc
    · -- the child goes, so only what is beside it is left
      rw [hname] at hc
      cases hc
      have h2 : ((d.edit m path (·.removeProp matchName)).prunePath m path).2 = true := by
        by_contra hn
        rw [hroot (by simpa using hn)] at hocc
        cases hocc
      have hother : (∀ k, k ≠ name →
          (n.edit m (name :: path) (·.removeProp matchName)).child? k = none) ↔
            ∀ k, k ≠ name → n.child? k = none := by
        refine forall_congr' fun k => imp_congr_right fun hk => ?_
        rw [hchild, if_neg hk]
      have hm : (n.edit m (name :: path) (·.removeProp matchName)).hasProp matchName
          = n.hasProp matchName := by
        unfold hasProp prop?
        rw [hprops]
      rw [e, occupied_removeChild_eq_false_iff m hname, hother, hm]
      simp [h2, hocc]
    · -- the child is kept
      rw [hname] at hc
      cases hc
      rw [e]
      refine iff_of_false (fun hx => by cases hx.1) ?_
      rintro ⟨_, h2, hfalse⟩
      rw [hocc h2] at hfalse
      cases hfalse

theorem emptied_unmark_iff (m : σ) (path : List String) (n : Node σ) :
    (n.unmark m path).2 = true ∧ (n.unmark m path).1.occupied = false ↔ n.Lone path := by
  cases hs : (n.at? path).isSome with
  | true =>
    rw [unmark_of_at?_isSome m hs]
    exact emptied_prunePath_edit_iff m hs
  | false =>
    have hnone : n.at? path = none := by simpa using hs
    refine iff_of_false (fun hx => ?_) (fun hl => ?_)
    · rw [(unmark_of_at?_eq_none m hnone).1] at hx
      cases hx.1
    · rw [hl.at?_isSome] at hs
      cases hs

/-- the match of a branch that goes is the one at the end of the path -/
theorem Lone.eq_of_hasMatch {a : List String} (h : n.Lone path) (ha : n.HasMatch a) : a = path := by
  by_contra hne
  obtain ⟨_, hocc⟩ := (emptied_unmark_iff n.mark path n).2 h
  exact not_hasMatch_of_not_occupied hocc a ((hasMatch_unmark n.mark path n a).2 ⟨hne, ha⟩)

/-- what is left of a branch that goes is its root, without match and children -/
theorem Lone.forget_unmark (h : n.Lone path) (m : σ) :
    (n.unmark m path).1.forget = n.hollow.forget := by
  obtain ⟨_, hocc⟩ := (emptied_unmark_iff m path n).2 h
  refine forget_eq_of_parts ?_ (occupied_eq_false_iff.1 hocc).2
  rw [unmark_of_at?_isSome m h.at?_isSome, props_prunePath]
  cases path with
  | nil => rfl
  | cons name path =>
    have hnone : n.prop? matchName = none := by
      simpa [hasProp] using h.1
    rw [props_edit_cons]
    exact (SortedMap.erase_of_get?_eq_none hnone).symm

/-- only an empty node stays as it is without its match and its children -/
theorem forget_hollow_eq_iff (n : Node σ) :
    n.hollow.forget = n.forget ↔ n.occupied = false := by
  constructor
  · intro h
    rw [← occupied_eq_of_forget h]
    refine occupied_eq_false_iff.2 ⟨?_, rfl⟩
    unfold hasProp prop? hollow
    rw [props_mk, SortedMap.get?_erase_self]
    rfl
  · intro h
    obtain ⟨hp, hc⟩ := occupied_eq_false_iff.1 h
    have hnone : n.prop? matchName = none := by simpa [hasProp] using hp
    exact forget_eq_of_parts (SortedMap.erase_of_get?_eq_none hnone) hc.symm

end Node

end PropertyIndex
