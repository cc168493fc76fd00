/-!
# Finite maps from names, in name order

A map is the list of its name/value pairs, names ascending and each name once.  Look-up reads the
first pair of a name, so the look-up laws below hold of every list; `Sorted` is the invariant that
`put`, `adjust` and `erase` keep.

* `get?_put`, `get?_adjust`, `get?_erase`   what a look-up sees after each operation;
* `Sorted.put`, `Sorted.adjust`, `Sorted.erase`   the order is kept;
* `Sorted.ext`   two sorted maps with the same look-ups are equal.
-/

namespace PropertyIndex

/-- a finite map from names: its pairs in ascending order of the names -/
abbrev SortedMap (α : Type) := List (String × α)

namespace SortedMap

variable {α : Type}

/-! ## Operations -/

def get? (k : String) : SortedMap α → Option α
  | [] => none
  | (k', v) :: r => if k' = k then some v else get? k r

def contains (k : String) (l : SortedMap α) : Bool := (get? k l).isSome

def names (l : SortedMap α) : List String := l.map Prod.fst

/-- applies `f` to the value of a name; without that name nothing changes -/
def adjust (k : String) (f : α → α) : SortedMap α → SortedMap α
  | [] => []
  | (k', v) :: r => if k' = k then (k', f v) :: r else (k', v) :: adjust k f r

/-- puts a pair before the first larger name -/
def place (k : String) (v : α) : SortedMap α → SortedMap α
  | [] => [(k, v)]
  | (k', v') :: r => if k < k' then (k, v) :: (k', v') :: r else (k', v') :: place k v r

/-- gives a name a value, in place of the one it had -/
def put (k : String) (v : α) (l : SortedMap α) : SortedMap α :=
  if contains k l then adjust k (fun _ => v) l else place k v l

def erase (k : String) (l : SortedMap α) : SortedMap α := l.filter fun p => p.1 ≠ k

/-! ## Look-ups -/

@[simp] theorem get?_nil (k : String) : get? k ([] : SortedMap α) = none := rfl

theorem get?_cons (k k' : String) (v : α) (r : SortedMap α) :
    get? k ((k', v) :: r) = if k' = k then some v else get? k r := rfl

@[simp] theorem get?_cons_self (k : String) (v : α) (r : SortedMap α) :
    get? k ((k, v) :: r) = some v := by simp [get?]

theorem get?_cons_ne {k k' : String} (h : k' ≠ k) (v : α) (r : SortedMap α) :
    get? k ((k', v) :: r) = get? k r := by simp [get?, h]

theorem get?_eq_none_iff {k : String} {l : SortedMap α} : get? k l = none ↔ k ∉ names l := by
  induction l with
  | nil => simp [names]
  | cons p r ih =>
    obtain ⟨k', v⟩ := p
    by_cases h : k' = k
    · simp [h, names]
    · rw [get?_cons_ne h, ih]
      simp [names, Ne.symm h]

theorem contains_iff {k : String} {l : SortedMap α} : contains k l = true ↔ k ∈ names l := by
  unfold contains
  cases h : get? k l with
  | none => simp [get?_eq_none_iff.1 h]
  | some v =>
    have : ¬ get? k l = none := by simp [h]
    rw [get?_eq_none_iff, Decidable.not_not] at this
    simp [this]

theorem mem_of_get? {k : String} {v : α} {l : SortedMap α} (h : get? k l = some v) :
    (k, v) ∈ l := by
  induction l with
  | nil => simp at h
  | cons p r ih =>
    obtain ⟨k', v'⟩ := p
    by_cases e : k' = k
    · subst e
      rw [get?_cons_self] at h
      cases h
      exact List.mem_cons_self
    · rw [get?_cons_ne e] at h
      exact List.mem_cons_of_mem _ (ih h)

/-! ## After an adjustment -/

@[simp] theorem names_adjust (k : String) (f : α → α) (l : SortedMap α) :
    names (adjust k f l) = names l := by
  induction l with
  | nil => rfl
  | cons p r ih =>
    obtain ⟨k', v⟩ := p
    unfold adjust
    split
    · rfl
    · simpa [names] using ih

@[simp] theorem length_adjust (k : String) (f : α → α) (l : SortedMap α) :
    (adjust k f l).length = l.length := by
  have h := congrArg List.length (names_adjust k f l)
  simpa [names] using h

theorem get?_adjust (k j : String) (f : α → α) (l : SortedMap α) :
    get? j (adjust k f l) = if j = k then (get? k l).map f else get? j l := by
  induction l with
  | nil => simp [adjust]
  | cons p r ih =>
    obtain ⟨k', v⟩ := p
    unfold adjust
    by_cases hk : k' = k
    · by_cases hj : j = k
      · simp [hk, hj]
      · simp [hk, hj, get?_cons_ne (Ne.symm hj)]
    · rw [if_neg hk]
      by_cases hj : k' = j
      · subst hj
        simp [hk]
      · rw [get?_cons_ne hj, ih, get?_cons_ne hj, get?_cons_ne hk]

/-! ## After a write -/

theorem get?_place {k : String} {l : SortedMap α} (h : k ∉ names l) (v : α) (j : String) :
    get? j (place k v l) = if j = k then some v else get? j l := by
  induction l with
  | nil => simp [place, get?, eq_comm]
  | cons p r ih =>
    obtain ⟨k', v'⟩ := p
    have hk : k ≠ k' ∧ k ∉ names r := by simpa [names] using h
    unfold place
    split
    · by_cases hj : j = k
      · simp [hj]
      · simp [hj, get?_cons_ne (Ne.symm hj)]
    · by_cases hj : k' = j
      · subst hj
        simp [Ne.symm hk.1]
      · rw [get?_cons_ne hj, ih hk.2, get?_cons_ne hj]

theorem get?_put (k : String) (v : α) (l : SortedMap α) (j : String) :
    get? j (put k v l) = if j = k then some v else get? j l := by
  unfold put
  by_cases h : contains k l = true
  · rw [if_pos h, get?_adjust]
    unfold contains at h
    obtain ⟨w, hw⟩ := Option.isSome_iff_exists.1 h
    simp [hw]
  · rw [if_neg h, get?_place (fun hm => h (contains_iff.2 hm))]

@[simp] theorem get?_put_self (k : String) (v : α) (l : SortedMap α) :
    get? k (put k v l) = some v := by simp [get?_put]

theorem get?_erase (k j : String) (l : SortedMap α) :
    get? j (erase k l) = if j = k then none else get? j l := by
  unfold erase
  induction l with
  | nil => simp
  | cons p r ih =>
    obtain ⟨k', v⟩ := p
    by_cases hk : k' = k
    · rw [List.filter_cons_of_neg (by simp [hk]), ih]
      by_cases hj : j = k
      · simp [hj]
      · rw [if_neg hj, if_neg hj, get?_cons_ne (by rw [hk]; exact Ne.symm hj)]
    · rw [List.filter_cons_of_pos (by simp [hk])]
      by_cases hj : k' = j
      · subst hj
        simp [hk]
      · rw [get?_cons_ne hj, ih, get?_cons_ne hj]

@[simp] theorem get?_erase_self (k : String) (l : SortedMap α) : get? k (erase k l) = none := by
  simp [get?_erase]

/-! ## Order -/

/-- names ascend, so each occurs once -/
def Sorted (l : SortedMap α) : Prop := l.Pairwise fun p q => p.1 < q.1

instance (l : SortedMap α) : Decidable (Sorted l) :=
  inferInstanceAs (Decidable (List.Pairwise _ l))

theorem Sorted.nil : Sorted ([] : SortedMap α) := List.Pairwise.nil

theorem sorted_cons {p : String × α} {r : SortedMap α} :
    Sorted (p :: r) ↔ (∀ q ∈ r, p.1 < q.1) ∧ Sorted r := List.pairwise_cons

theorem Sorted.adjust {l : SortedMap α} (h : Sorted l) (k : String) (f : α → α) :
    Sorted (adjust k f l) := by
  have e : ∀ m : SortedMap α, Sorted m ↔ (names m).Pairwise (· < ·) := fun m => by
    simp [Sorted, names, List.pairwise_map]
  rw [e, names_adjust, ← e]
  exact h

theorem mem_place {k : String} {v : α} {l : SortedMap α} {q : String × α}
    (h : q ∈ place k v l) : q = (k, v) ∨ q ∈ l := by
  induction l with
  | nil => simpa [place] using h
  | cons p r ih =>
    unfold place at h
    split at h
    · simpa using h
    · rcases List.mem_cons.1 h with h | h
      · exact .inr (h ▸ List.mem_cons_self)
      · exact (ih h).imp_right (List.mem_cons_of_mem _)

theorem Sorted.place {l : SortedMap α} (h : Sorted l) {k : String} (hk : k ∉ names l) (v : α) :
    Sorted (place k v l) := by
  induction l with
  | nil => simp [SortedMap.place, Sorted]
  | cons p r ih =>
    obtain ⟨k', v'⟩ := p
    obtain ⟨hp, hr⟩ := sorted_cons.1 h
    have hk' : k ≠ k' ∧ k ∉ names r := by simpa [names] using hk
    unfold SortedMap.place
    split
    · next hlt =>
      refine sorted_cons.2 ⟨fun q hq => ?_, h⟩
      rcases List.mem_cons.1 hq with hq | hq
      · rw [hq]; exact hlt
      · exact String.lt_trans hlt (hp q hq)
    · next hlt =>
      refine sorted_cons.2 ⟨fun q hq => ?_, ih hr hk'.2⟩
      rcases mem_place hq with hq | hq
      · rw [hq]
        exact Std.lt_of_le_of_ne (Std.not_lt.1 hlt) (Ne.symm hk'.1)
      · exact hp q hq

theorem Sorted.put {l : SortedMap α} (h : Sorted l) (k : String) (v : α) : Sorted (put k v l) := by
  unfold SortedMap.put
  split
  · exact h.adjust k _
  · next hk => exact h.place (fun hm => hk (contains_iff.2 hm)) v

theorem Sorted.erase {l : SortedMap α} (h : Sorted l) (k : String) : Sorted (erase k l) :=
  List.Pairwise.filter _ h

theorem Sorted.get?_of_mem {l : SortedMap α} (h : Sorted l) {k : String} {v : α}
    (hm : (k, v) ∈ l) : get? k l = some v := by
  induction l with
  | nil => simp at hm
  | cons p r ih =>
    obtain ⟨hp, hr⟩ := sorted_cons.1 h
    rcases List.mem_cons.1 hm with e | e
    · rw [← e]; simp
    · have hlt : p.1 < k := hp _ e
      have hne : p.1 ≠ k := fun e' => String.lt_irrefl k (e' ▸ hlt)
      exact (get?_cons_ne hne p.2 r).trans (ih hr e)

/-- a name below all of a map is not in it -/
theorem get?_eq_none_of_lt {k : String} {l : SortedMap α} (h : ∀ q ∈ l, k < q.1) :
    get? k l = none := by
  rw [get?_eq_none_iff]
  intro hm
  obtain ⟨q, hq, e⟩ := List.mem_map.1 hm
  exact String.lt_irrefl k (e ▸ h q hq)

/-- sorted maps are told apart by look-ups -/
theorem Sorted.ext {l m : SortedMap α} (hl : Sorted l) (hm : Sorted m)
    (h : ∀ k, get? k l = get? k m) : l = m := by
  induction l generalizing m with
  | nil =>
    cases m with
    | nil => rfl
    | cons q s => exact nomatch (h q.1).trans (get?_cons_self q.1 q.2 s)
  | cons p r ih =>
    obtain ⟨k, v⟩ := p
    obtain ⟨hp, hr⟩ := sorted_cons.1 hl
    cases m with
    | nil => exact nomatch (h k).symm.trans (get?_cons_self k v r)
    | cons q s =>
      obtain ⟨k', v'⟩ := q
      obtain ⟨hq, hs⟩ := sorted_cons.1 hm
      have hk : (k, v) ∈ (k', v') :: s := mem_of_get? ((h k).symm.trans (get?_cons_self k v r))
      have hk' : (k', v') ∈ (k, v) :: r := mem_of_get? ((h k').trans (get?_cons_self k' v' s))
      have e : (k, v) = (k', v') := by
        rcases List.mem_cons.1 hk with e | e
        · exact e
        · rcases List.mem_cons.1 hk' with e' | e'
          · exact e'.symm
          · exact absurd (String.lt_trans (hp _ e') (hq _ e)) (String.lt_irrefl k)
      cases e
      have rest : ∀ j, get? j r = get? j s := by
        intro j
        by_cases hj : k = j
        · subst hj
          rw [get?_eq_none_of_lt hp, get?_eq_none_of_lt hq]
        · have hj' := h j
          rwa [get?_cons_ne hj, get?_cons_ne hj] at hj'
      rw [ih hr hs rest]

end SortedMap

end PropertyIndex
