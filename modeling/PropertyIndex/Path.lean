/-!
# Content paths

A content path names a node by its segments.  Slashes at the ends and repeated slashes do not
count; the root has no segments.

* `Path.segments`   the segments of a path;
* `Path.render`     the absolute path of some segments;
* `ne_empty_of_mem_segments`, `slash_notMem_of_mem_segments`   a segment is a non-empty text
  without a slash.
-/

namespace PropertyIndex.Path

/-- the pieces of a text between its slashes -/
def pieces : List Char → List (List Char)
  | [] => [[]]
  | c :: r =>
    if c = '/' then [] :: pieces r
    else
      match pieces r with
      | [] => [[c]]
      | p :: ps => (c :: p) :: ps

/-- the segments of a path: its pieces that are not empty -/
def segments (path : String) : List String :=
  ((pieces path.toList).filter (· ≠ [])).map String.ofList

/-- the absolute path of some segments -/
def render : List String → String
  | [] => "/"
  | s :: r => String.ofList ((s :: r).flatMap fun t => '/' :: t.toList)

theorem slash_notMem_of_mem_pieces {p : List Char} {cs : List Char} (h : p ∈ pieces cs) :
    '/' ∉ p := by
  induction cs generalizing p with
  | nil =>
    have e : p = [] := by simpa [pieces] using h
    simp [e]
  | cons c r ih =>
    unfold pieces at h
    split at h
    · rcases List.mem_cons.1 h with e | e
      · simp [e]
      · exact ih e
    · next hc =>
      split at h
      · have e : p = [c] := by simpa using h
        simp [e, Ne.symm hc]
      · next q qs hq =>
        rcases List.mem_cons.1 h with e | e
        · have hq' : '/' ∉ q := ih (by rw [hq]; exact List.mem_cons_self)
          simp [e, Ne.symm hc, hq']
        · exact ih (by rw [hq]; exact List.mem_cons_of_mem _ e)

theorem ne_empty_of_mem_segments {s path : String} (h : s ∈ segments path) : s ≠ "" := by
  obtain ⟨p, hp, rfl⟩ := List.mem_map.1 h
  have hp : p ≠ [] := by simpa using (List.mem_filter.1 hp).2
  intro e
  exact hp (by simpa using congrArg String.toList e)

theorem slash_notMem_of_mem_segments {s path : String} (h : s ∈ segments path) :
    '/' ∉ s.toList := by
  obtain ⟨p, hp, rfl⟩ := List.mem_map.1 h
  rw [String.toList_ofList]
  exact slash_notMem_of_mem_pieces (List.mem_filter.1 hp).1

@[simp] theorem segments_empty : segments "" = [] := rfl

end PropertyIndex.Path
