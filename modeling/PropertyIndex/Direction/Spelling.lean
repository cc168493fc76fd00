import PropertyIndex.Error
import PropertyIndex.Text.Blank

/-!
# How a direction is spelled

* `Direction.parse`      the lenient reading: blanks at the ends and the case of ASCII letters do
                         not count, and each direction has a short form;
* `Direction.ofWord?`    the strict reading used in config documents: eight words.
-/

namespace PropertyIndex.Direction

/-- the direction in a text, up to blanks at its ends and the case of ASCII letters -/
def parse (text : String) : Except Error Direction :=
  let word := String.ofList ((Text.trim text.toList).map Char.toLower)
  if word = "ascending" ∨ word = "asc" then .ok .ascending
  else if word = "descending" ∨ word = "desc" then .ok .descending
  else .error (.unknownDirection word)

def words : Direction → List String
  | .ascending => ["ascending", "asc", "ASCENDING", "Ascending"]
  | .descending => ["descending", "desc", "DESCENDING", "Descending"]

/-- the direction that a word of a config document stands for -/
def ofWord? (word : String) : Option Direction :=
  if word ∈ words .ascending then some .ascending
  else if word ∈ words .descending then some .descending
  else none

theorem ofWord?_eq_some_iff {word : String} {d : Direction} :
    ofWord? word = some d ↔ word ∈ words d := by
  unfold ofWord?
  constructor
  · intro h
    split at h
    · next m => cases h; exact m
    · split at h
      · next m => cases h; exact m
      · cases h
  · intro h
    cases d with
    | ascending => rw [if_pos h]
    | descending =>
      have hn : word ∉ words .ascending := by
        simp only [words, List.mem_cons, List.not_mem_nil, or_false] at h
        rcases h with h | h | h | h <;> subst h <;> decide
      rw [if_neg hn, if_pos h]

@[simp] theorem ofWord?_label (d : Direction) : ofWord? d.label = some d := by
  cases d <;> decide

end PropertyIndex.Direction
