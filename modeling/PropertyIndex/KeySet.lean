/-!
# Sets of keys as ascending lists

* `KeySet.insert`, `KeySet.ofList`   build the ascending list without repetitions;
* `KeySet.mem_ofList`                nothing is lost and nothing added;
* `KeySet.sorted_ofList`             the list ascends, so no key is repeated.
-/

namespace PropertyIndex.KeySet

/-- puts a key at its place, unless it is there already -/
def insert (k : String) : List String → List String
  | [] => [k]
  | x :: r => if k < x then k :: x :: r else if k = x then x :: r else x :: insert k r

/-- the members of a list, ascending and without repetitions -/
def ofList (l : List String) : List String := l.foldr insert []

@[simp] theorem ofList_nil : ofList [] = [] := rfl

theorem ofList_cons (k : String) (l : List String) : ofList (k :: l) = insert k (ofList l) := rfl

theorem mem_insert {k x : String} {l : List String} : x ∈ insert k l ↔ x = k ∨ x ∈ l := by
  induction l with
  | nil => simp [insert]
  | cons y r ih =>
    unfold insert
    split
    · simp
    · split
      · next e => simp [e]
      · simp only [List.mem_cons, ih]
        exact or_left_comm

@[simp] theorem mem_ofList {x : String} {l : List String} : x ∈ ofList l ↔ x ∈ l := by
  induction l with
  | nil => simp
  | cons k r ih => rw [ofList_cons, mem_insert, ih, List.mem_cons]

theorem sorted_insert {k : String} {l : List String} (h : l.Pairwise (· < ·)) :
    (insert k l).Pairwise (· < ·) := by
  induction l with
  | nil => simp [insert]
  | cons y r ih =>
    obtain ⟨hy, hr⟩ := List.pairwise_cons.1 h
    unfold insert
    split
    · next hlt =>
      refine List.pairwise_cons.2 ⟨fun z hz => ?_, h⟩
      rcases List.mem_cons.1 hz with e | e
      · exact e ▸ hlt
      · exact String.lt_trans hlt (hy z e)
    · next hlt =>
      split
      · exact h
      · next hne =>
        refine List.pairwise_cons.2 ⟨fun z hz => ?_, ih hr⟩
        rcases mem_insert.1 hz with e | e
        · exact e ▸ Std.lt_of_le_of_ne (Std.not_lt.1 hlt) (Ne.symm hne)
        · exact hy z e

theorem sorted_ofList (l : List String) : (ofList l).Pairwise (· < ·) := by
  induction l with
  | nil => exact List.Pairwise.nil
  | cons k r ih => exact sorted_insert ih

end PropertyIndex.KeySet
