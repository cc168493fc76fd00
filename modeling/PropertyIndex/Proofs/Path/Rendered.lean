import PropertyIndex.Path

/-!
# Reading a rendered path

A name that is not empty and has no slash in it can be a segment.  Rendering such names and reading
the path again gives the names back.

* `Path.IsName`            what can be a segment;
* `Path.pieces_append`     a text without slashes goes to the first piece of what follows it;
* `Path.segments_render`   the segments of a rendered path are the names that it was rendered from;
* `Path.render_inj`        so different lists of names are rendered differently.
-/

namespace PropertyIndex.Path

/-- a name that can be a segment of a path -/
def IsName (s : String) : Prop := s ≠ "" ∧ '/' ∉ s.toList

instance : DecidablePred IsName := fun s => inferInstanceAs (Decidable (s ≠ "" ∧ '/' ∉ s.toList))

theorem isName_of_mem_segments {s path : String} (h : s ∈ segments path) : IsName s :=
  ⟨ne_empty_of_mem_segments h, slash_notMem_of_mem_segments h⟩

/-! ## Pieces -/

theorem pieces_slash (r : List Char) : pieces ('/' :: r) = [] :: pieces r := by
  rw [pieces, if_pos rfl]

theorem pieces_append {p r q : List Char} {qs : List (List Char)} (hp : '/' ∉ p)
    (h : pieces r = q :: qs) : pieces (p ++ r) = (p ++ q) :: qs := by
  induction p with
  | nil => exact h
  | cons c p ih =>
    rw [List.mem_cons, not_or] at hp
    rw [List.cons_append, pieces, if_neg (Ne.symm hp.1), ih hp.2]
    rfl

/-- names with a slash before each of them are pieces behind an empty one -/
theorem pieces_flatMap {l : List String} (h : ∀ s ∈ l, IsName s) :
    pieces (l.flatMap fun s => '/' :: s.toList) = [] :: l.map String.toList := by
  induction l with
  | nil => rfl
  | cons s l ih =>
    have hs : '/' ∉ s.toList := (h s List.mem_cons_self).2
    have hl := ih fun s hs => h s (List.mem_cons_of_mem _ hs)
    rw [List.flatMap_cons, List.cons_append, pieces_slash, pieces_append hs hl, List.append_nil,
      List.map_cons]

/-! ## Paths -/

theorem segments_render {l : List String} (h : ∀ s ∈ l, IsName s) : segments (render l) = l := by
  cases l with
  | nil => decide
  | cons s r =>
    have hfilter : ((s :: r).map String.toList).filter (· ≠ []) = (s :: r).map String.toList := by
      rw [List.filter_eq_self]
      intro p hp
      obtain ⟨x, hx, rfl⟩ := List.mem_map.1 hp
      simpa using (h x hx).1
    rw [segments, render, String.toList_ofList, pieces_flatMap h,
      List.filter_cons_of_neg (by simp), hfilter, List.map_map]
    simp

theorem render_inj {a b : List String} (ha : ∀ s ∈ a, IsName s) (hb : ∀ s ∈ b, IsName s) :
    render a = render b ↔ a = b := by
  refine ⟨fun h => ?_, congrArg render⟩
  rw [← segments_render ha, h, segments_render hb]

end PropertyIndex.Path
