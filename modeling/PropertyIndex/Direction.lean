/-!
# The direction of an ordered index

Keys compare by their code points.

* `Direction.precedes`   the strict order of a chain that runs in the direction;
* `Direction.precedes_irrefl`, `precedes_trans`, `precedes_or_eq_or_precedes`   it is a strict
  linear order.
-/

namespace PropertyIndex

/-- which way the keys of an ordered index run -/
inductive Direction where
  | ascending
  | descending
deriving DecidableEq, Repr

namespace Direction

def label : Direction → String
  | .ascending => "ascending"
  | .descending => "descending"

def compare (d : Direction) (a b : String) : Ordering :=
  match d with
  | .ascending => compareOfLessAndEq a b
  | .descending => compareOfLessAndEq b a

/-- `a` comes strictly before `b` in the direction -/
def precedes (d : Direction) (a b : String) : Prop :=
  match d with
  | .ascending => a < b
  | .descending => b < a

instance (d : Direction) (a b : String) : Decidable (d.precedes a b) := by
  cases d <;> unfold precedes <;> infer_instance

@[simp] theorem precedes_ascending (a b : String) : precedes .ascending a b ↔ a < b := Iff.rfl

@[simp] theorem precedes_descending (a b : String) : precedes .descending a b ↔ b < a := Iff.rfl

theorem precedes_irrefl (d : Direction) (a : String) : ¬ d.precedes a a := by
  cases d <;> exact String.lt_irrefl a

theorem precedes_trans {d : Direction} {a b c : String} (h : d.precedes a b)
    (h' : d.precedes b c) : d.precedes a c := by
  cases d
  · exact String.lt_trans h h'
  · exact String.lt_trans h' h

instance (d : Direction) : Trans d.precedes d.precedes d.precedes := ⟨precedes_trans⟩

instance (d : Direction) : Std.Irrefl d.precedes := ⟨precedes_irrefl d⟩

instance (d : Direction) : Std.Antisymm d.precedes :=
  ⟨fun a _ h h' => absurd (precedes_trans h h') (precedes_irrefl d a)⟩

theorem precedes_or_eq_or_precedes (d : Direction) (a b : String) :
    d.precedes a b ∨ a = b ∨ d.precedes b a := by
  have h : a < b ∨ a = b ∨ b < a := by
    by_cases h1 : a < b
    · exact .inl h1
    · by_cases h2 : a = b
      · exact .inr (.inl h2)
      · exact .inr (.inr (Std.lt_of_le_of_ne (Std.not_lt.1 h1) (Ne.symm h2)))
  cases d
  · exact h
  · rcases h with h | h | h
    · exact .inr (.inr h)
    · exact .inr (.inl h)
    · exact .inl h

theorem compare_eq_lt_iff (d : Direction) (a b : String) :
    d.compare a b = .lt ↔ d.precedes a b := by
  have h : ∀ x y : String, compareOfLessAndEq x y = .lt ↔ x < y := by
    intro x y
    unfold compareOfLessAndEq
    by_cases h1 : x < y
    · rw [if_pos h1]; exact iff_of_true rfl h1
    · rw [if_neg h1]
      refine iff_of_false ?_ h1
      by_cases h2 : x = y
      · rw [if_pos h2]; decide
      · rw [if_neg h2]; decide
  cases d
  · exact h a b
  · exact h b a

end Direction

end PropertyIndex
