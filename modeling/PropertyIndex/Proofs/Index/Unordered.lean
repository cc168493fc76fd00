import PropertyIndex.Proofs.Chain.Trail
import PropertyIndex.Proofs.Index.Removal

/-!
# Unordered indexes that hold their matches and nothing else

* `Node.Bare`      the tree is tidy, down from a root without properties;
* `Bare.hasChild_iff`   the children are the names with a match below them;
* `Bare.insert`, `Bare.remove`   one match more, one match less, and nothing else;
* `Bare.entries`   the entries of the index are the children in the order of names;
* `Bare.mem_childNames`, `Bare.childNames_pairwise`   which names these are, and that they ascend.
-/

namespace PropertyIndex.Node

variable {σ : Type} {m : σ} {t t' c : Node σ} {key : String}

/-- a sorted tree of matches and nothing else, below a root without properties -/
structure Bare (t : Node σ) : Prop where
  sorted : t.Sorted
  props : t.props = []
  tidy : t.Tidy []

namespace Bare

theorem empty (m : σ) : (Node.empty m).Bare := ⟨.empty m, rfl, .empty [] m⟩

theorem hasChild_iff (h : t.Bare) : t.hasChild key = true ↔ ∃ a, t.HasMatch (key :: a) := by
  rw [Node.hasChild_iff]
  constructor
  · intro hx
    obtain ⟨c, hc⟩ := hx
    obtain ⟨hocc, htidy⟩ := h.tidy.child hc
    obtain ⟨a, ha⟩ := htidy.exists_hasMatch List.not_mem_nil hocc
    exact ⟨a, hasMatch_cons.2 ⟨c, hc, ha⟩⟩
  · intro hx
    obtain ⟨a, ha⟩ := hx
    obtain ⟨c, hc, _⟩ := hasMatch_cons.1 ha
    exact ⟨c, hc⟩

theorem put (h : t.Bare) (hput : Put t key c t') (hs : c.Sorted) (ho : c.occupied = true)
    (hc : c.Tidy []) : t'.Bare where
  sorted := hput.sorted h.sorted hs
  props := hput.props.trans h.props
  tidy := by
    refine h.tidy.replace key hput.props (fun k hk => hput.child_ne hk) ?_
    intro d hd
    rw [hput.child_self] at hd
    cases hd
    exact ⟨ho, hc⟩

theorem removeChild (h : t.Bare) (hput : Put t key c t') (hc : c.Sorted) (m : σ) :
    (t'.removeChild m key).Bare where
  sorted := (hput.sorted h.sorted hc).removeChild m key
  props := by rw [props_removeChild, hput.props, h.props]
  tidy := by
    refine h.tidy.replace key (by rw [props_removeChild, hput.props]) ?_ ?_
    · intro k hk
      rw [child?_removeChild, if_neg hk, hput.child_ne hk]
    · intro d hd
      rw [child?_removeChild, if_pos rfl] at hd
      cases hd

/-! ## One match more, one match less -/

theorem insert (h : t.Bare) (hk : Key.check key = .ok ()) (m : σ) (path : String) :
    ∃ t', Index.unordered.insert m t path key = .done t' ∧ t'.Bare ∧
      ∀ k a, t'.HasMatch (k :: a) ↔
        (k = key ∧ a = Path.segments path) ∨ t.HasMatch (k :: a) := by
  have hput1 := Put.grow m t key [] fun c => c
  have hput := Put.grow m (t.grow m [key] fun c => c) key (Path.segments path)
    (·.setProp matchName (.flag true))
  rw [hput1.child_self, Option.getD_some] at hput
  have hput := hput1.trans hput
  have hc : ((t.child? key).getD (Node.empty m)).Sorted ∧
      ((t.child? key).getD (Node.empty m)).Tidy [] := by
    cases hc : t.child? key with
    | none => exact ⟨.empty m, .empty [] m⟩
    | some c => exact ⟨h.sorted.child? hc, (h.tidy.child hc).2⟩
  obtain ⟨htidy, hocc⟩ := hc.2.grow_mark m (Path.segments path)
  refine ⟨_, ?_, h.put hput (hc.1.grow m _ fun _ hs => hs.setProp _ _) hocc htidy, ?_⟩
  · unfold Index.insert Index.fetch
    rw [hk]
    rfl
  · intro k a
    rw [hput.hasMatch, grow_nil, hasMatch_grow_mark, hasMatch_getD_empty]
    split
    · next e => simp [e]
    · next e => simp [e]

theorem remove (h : t.Bare) (m : σ) (path key : String) :
    ∃ t', Index.unordered.remove m t path key = .done t' ∧ t'.Bare ∧
      ∀ k a, t'.HasMatch (k :: a) ↔
        ¬ (k = key ∧ a = Path.segments path) ∧ t.HasMatch (k :: a) := by
  cases hc : t.child? key with
  | none =>
    exact ⟨t, Index.remove_of_none _ rfl hc m path, h, hasMatch_iff_of_none hc⟩
  | some c =>
    obtain ⟨hocc, htidy⟩ := h.tidy.child hc
    obtain ⟨htidy', hkept⟩ := htidy.unmark m (Path.segments path) hocc
    have hsort := (h.sorted.child? hc).unmark m (Path.segments path)
    obtain ⟨t1, hput, he⟩ := Index.remove_of_child? .unordered rfl hc m path
    rw [he]
    split
    · next hempty =>
      rw [Bool.and_eq_true, Bool.not_eq_true'] at hempty
      refine ⟨_, rfl, h.removeChild hput hsort m, ?_⟩
      intro k a
      rw [hasMatch_removeChild hput.child_self hempty.2, hasMatch_put_unmark hput hc]
    · next hocc' =>
      have hocc1 : (c.unmark m (Path.segments path)).1.occupied = true := by
        cases h2 : (c.unmark m (Path.segments path)).2 with
        | true => simpa [h2] using hocc'
        | false => exact hkept h2
      exact ⟨_, rfl, h.put hput hsort hocc1 htidy', hasMatch_put_unmark hput hc⟩

/-! ## Entries -/

theorem mem_childNames (h : t.Bare) : key ∈ t.childNames ↔ ∃ a, t.HasMatch (key :: a) := by
  have hchild : key ∈ t.childNames ↔ t.hasChild key = true := SortedMap.contains_iff.symm
  rw [hchild, h.hasChild_iff]

theorem childNames_pairwise (h : t.Bare) : t.childNames.Pairwise (· < ·) :=
  List.pairwise_map.2 h.sorted.children_sorted

theorem entries (h : t.Bare) : Index.unordered.entries t = t.childNames.map t.item := by
  unfold Index.entries childNames SortedMap.names
  rw [List.map_map]
  apply List.map_congr_left
  intro p hp
  have hc : t.child? p.1 = some p.2 := h.sorted.children_sorted.get?_of_mem hp
  rw [Function.comp_apply, item, hc]

end Bare

end PropertyIndex.Node
