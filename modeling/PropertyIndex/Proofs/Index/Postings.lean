import Mathlib.Logic.Function.Basic
import PropertyIndex.Proofs.Index.Ledger
import PropertyIndex.Proofs.Key.Codec
import PropertyIndex.Proofs.Match.Gathered

/-!
# Looking up the paths of a value

The writer of an index assigns values to paths.  Each time it says which values the path had before,
so that the keys of the others can be taken out.

* `Ledger.mem_update`   an update with keys that can be ones is never refused, and gives the path
                        the new keys in place of the old;
* `Assignment.latest`   the values that the paths have after some assignments;
* `Assignment.posted_run`   the ledger has a path under the keys of its latest values;
* `Assignment.lookup_exact`   a query for the key of a value finds the paths that have a value with
                        the same text, up to the length of keys.
-/

namespace PropertyIndex

variable {σ : Type} {d : Direction} {n : Nat}

open Node

theorem Key.usable_encode (value : String) (n : Nat) : Key.Usable (Key.encode value n) :=
  ⟨Key.encode_ne_empty value n, Key.slash_notMem_encode value n, Key.encode_ne_startName value n⟩

/-! ## Updates that are not refused -/

namespace Ledger

theorem mem_move {L : Ledger} (path : String) (before : Finset String) {ks : List String}
    (hks : ∀ k ∈ ks, Key.Usable k) : (L.move path before ks).2 = none ∧
      ∀ k a, (k, a) ∈ (L.move path before ks).1 ↔
        if k ∈ ks ∧ a = Path.segments path then k ∉ before else (k, a) ∈ L := by
  induction ks generalizing L with
  | nil => exact ⟨rfl, fun k a => by simp [move]⟩
  | cons key ks ih =>
    have hu := hks key List.mem_cons_self
    obtain ⟨L', hone, hmem⟩ : ∃ L' : Ledger,
        (if key ∈ before then L.remove path key else L.insert path key) = (L', none) ∧
        ∀ k a, (k, a) ∈ L' ↔
          if k = key ∧ a = Path.segments path then key ∉ before else (k, a) ∈ L := by
      by_cases hb : key ∈ before
      · refine ⟨_, by rw [if_pos hb, remove, if_neg hu.2.2], ?_⟩
        intro k a
        rw [Finset.mem_erase, ne_eq, Prod.mk.injEq]
        split
        · next e => simp [e, hb]
        · next e => simp [e]
      · refine ⟨_, by rw [if_neg hb, insert, if_pos hu], ?_⟩
        intro k a
        rw [Finset.mem_insert, Prod.mk.injEq]
        split
        · next e => simp [e, hb]
        · next e => simp [e]
    obtain ⟨hnone, hrest⟩ := ih (L := L') fun k hk => hks k (List.mem_cons_of_mem key hk)
    have hmove : L.move path before (key :: ks) = L'.move path before ks := by
      rw [move, hone]
    rw [hmove]
    refine ⟨hnone, ?_⟩
    intro k a
    rw [hrest, hmem]
    simp only [List.mem_cons]
    by_cases ha : a = Path.segments path
    · by_cases hk : k ∈ ks
      · simp [ha, hk]
      · by_cases e : k = key
        · simp [ha, e]
        · simp [ha, hk, e]
    · simp [ha]

/-- an update with keys that can be ones gives the path the new keys in place of the old -/
theorem mem_update {L : Ledger} {path : String} {before after : Finset String}
    (hu : ∀ k ∈ before ∪ after, Key.Usable k)
    (hb : ∀ k, (k, Path.segments path) ∈ L ↔ k ∈ before) :
    (L.update path before after).2 = none ∧ ∀ k a, (k, a) ∈ (L.update path before after).1 ↔
      if a = Path.segments path then k ∈ after else (k, a) ∈ L := by
  have hsort : ∀ k, k ∈ (symmDiff before after).sort (· ≤ ·) ↔
      k ∈ before ∧ k ∉ after ∨ k ∈ after ∧ k ∉ before := by
    intro k
    rw [Finset.mem_sort, Finset.mem_symmDiff]
  have husable : ∀ k ∈ (symmDiff before after).sort (· ≤ ·), Key.Usable k := by
    intro k hk
    rcases (hsort k).1 hk with h | h
    · exact hu k (Finset.mem_union_left after h.1)
    · exact hu k (Finset.mem_union_right before h.1)
  obtain ⟨hnone, hmem⟩ := mem_move (L := L) path before husable
  refine ⟨hnone, ?_⟩
  intro k a
  unfold update
  rw [hmem]
  simp only [hsort]
  by_cases ha : a = Path.segments path
  · rw [if_pos ha, ha, hb]
    by_cases h1 : k ∈ before <;> by_cases h2 : k ∈ after <;> simp [h1, h2]
  · simp [ha]

end Ledger

/-! ## Assignments -/

/-- a path is given values, with a mark for the nodes that are written to -/
structure Assignment (σ : Type) where
  mark : σ
  path : String
  values : List Value

namespace Assignment

/-- the values of all paths, when one path is given values -/
def assign (f : List String → List Value) (c : Assignment σ) : List String → List Value :=
  Function.update f (Path.segments c.path) c.values

/-- the values that a path has after some assignments, by its segments; at first it has none -/
def latest (cs : List (Assignment σ)) : List String → List Value :=
  cs.foldl assign fun _ => []

/-- the write of an assignment, from the values that the path had before -/
def write (f : List String → List Value) (c : Assignment σ) : OrderedWrite :=
  .values c.path (f (Path.segments c.path)) c.values

/-- the writes of some assignments, one after the other -/
def writes (f : List String → List Value) : List (Assignment σ) → List (σ × OrderedWrite)
  | [] => []
  | c :: cs => (c.mark, c.write f) :: writes (c.assign f) cs

/-- an empty index after some assignments -/
def tree (o : OrderedIndex σ) (m₀ : σ) (cs : List (Assignment σ)) : Node σ :=
  OrderedWrite.tree o m₀ (writes (fun _ => []) cs)

/-! ## The ledger of some assignments -/

/-- the ledger has every path under the keys of its values -/
def Posted (n : Nat) (f : List String → List Value) (L : Ledger) : Prop :=
  ∀ k a, (k, a) ∈ L ↔ ∃ w ∈ f a, Key.encode w.keyText n = k

theorem posted_empty (n : Nat) : Posted n (fun _ => []) ∅ := by
  intro k a
  simp

/-- an assignment is never refused, and its values take the place of the old ones -/
theorem Posted.step {f : List String → List Value} {L : Ledger} (h : Posted n f L)
    (c : Assignment σ) :
    (L.step n (c.write f)).2 = none ∧ Posted n (c.assign f) (L.step n (c.write f)).1 := by
  have hkeys : ∀ (vs : List Value) k, k ∈ (vs.map fun v => Key.encode v.keyText n).toFinset ↔
      ∃ w ∈ vs, Key.encode w.keyText n = k := by
    intro vs k
    rw [List.mem_toFinset, List.mem_map]
  have hu : ∀ k ∈ ((f (Path.segments c.path)).map fun v => Key.encode v.keyText n).toFinset ∪
      (c.values.map fun v => Key.encode v.keyText n).toFinset, Key.Usable k := by
    intro k hk
    rw [Finset.mem_union, hkeys, hkeys] at hk
    rcases hk with ⟨w, _, rfl⟩ | ⟨w, _, rfl⟩
    · exact Key.usable_encode _ n
    · exact Key.usable_encode _ n
  obtain ⟨hnone, hmem⟩ := Ledger.mem_update hu fun k => by rw [h, hkeys]
  refine ⟨hnone, ?_⟩
  intro k a
  have hm := hmem k a
  rw [hkeys] at hm
  show (k, a) ∈ (L.update c.path _ _).1 ↔ _
  rw [hm]
  unfold assign
  rw [Function.update_apply]
  split
  · exact Iff.rfl
  · exact h k a

theorem posted_run {f : List String → List Value} {L : Ledger} (h : Posted n f L)
    (cs : List (Assignment σ)) :
    Posted n (cs.foldl assign f) (L.run n ((writes f cs).map Prod.snd)) := by
  induction cs generalizing f L with
  | nil => exact h
  | cons c cs ih => exact ih (h.step c).2

/-- only the paths of assignments have values -/
theorem exists_path {cs : List (Assignment σ)} {a : List String} (h : latest cs a ≠ []) :
    ∃ c ∈ cs, a = Path.segments c.path := by
  have hgen : ∀ (cs : List (Assignment σ)) (f : List String → List Value),
      cs.foldl assign f a ≠ [] → f a ≠ [] ∨ ∃ c ∈ cs, a = Path.segments c.path := by
    intro cs
    induction cs with
    | nil => exact fun f hf => .inl hf
    | cons c cs ih =>
      intro f hf
      rcases ih (c.assign f) hf with hc | ⟨c', hc', e⟩
      · unfold assign at hc
        rw [Function.update_apply] at hc
        split at hc
        · next e => exact .inr ⟨c, List.mem_cons_self, e⟩
        · exact .inl hc
      · exact .inr ⟨c', List.mem_cons_of_mem c hc', e⟩
  exact (hgen cs _ h).resolve_left fun hn => hn rfl

/-! ## Looking up a value -/

/-- **Looking up a value is exact up to the length of keys**: after some assignments of values to
paths, each from the values that the path had before, the next one is never refused, and a query for
the key of a value finds, each once, the paths whose latest values have one with the same text up to
that length. -/
theorem lookup_exact (d : Direction) (n : Nat) (m₀ : σ) (cs : List (Assignment σ)) :
    let o : OrderedIndex σ := .scanning d n
    let t := tree o m₀ cs
    (∀ c : Assignment σ, (o.updateValues c.mark t c.path (latest cs (Path.segments c.path))
      c.values).answer = .ok ()) ∧
    ∀ v : Value, ∃ paths, (Index.ordered o).query t (some [o.encodeKey v]) = .ok paths ∧
      paths.Nodup ∧ ∀ x, x ∈ paths ↔ ∃ c ∈ cs, x = Path.render (Path.segments c.path) ∧
        ∃ w ∈ latest cs (Path.segments c.path),
          w.keyText.toList.take n = v.keyText.toList.take n := by
  intro o t
  have hpost := posted_run (posted_empty n) cs
  have htracks := OrderedWrite.tracks_tree d n m₀ (writes (fun _ => []) cs)
  generalize Ledger.run n ∅ ((writes (fun _ => []) cs).map Prod.snd) = L at hpost htracks
  have ht : Tracks o.direction L t := htracks
  refine ⟨?_, ?_⟩
  · intro c
    have hout := ht.updateValues_agrees (Lookup.sound_scan d) c.mark c.path
      (latest cs (Path.segments c.path)) c.values
    exact Outcome.answer_of_errorKind (hout.kind.trans (hpost.step c).1)
  · intro v
    obtain ⟨keys, hk⟩ := ht.kept
    refine ⟨_, Index.query_keys _ t _, nodup_found t none _, ?_⟩
    intro x
    have hx : x ∈ t.found none [o.encodeKey v] ↔ ∃ a, (o.encodeKey v, a) ∈ L ∧
        x = Path.render a := by
      rw [mem_found]
      simp only [List.mem_singleton, exists_eq_left, mem_pathsBelow hk.neat.sorted, ht.pairs]
    have hkey : ∀ w : Value, Key.encode w.keyText n = o.encodeKey v ↔
        w.keyText.toList.take n = v.keyText.toList.take n := fun w => Key.encode_eq_iff
    rw [hx]
    simp only [hpost (o.encodeKey v), hkey]
    constructor
    · rintro ⟨a, ⟨w, hw, e⟩, rfl⟩
      obtain ⟨c, hc, rfl⟩ := exists_path (List.ne_nil_of_mem hw)
      exact ⟨c, hc, rfl, w, hw, e⟩
    · rintro ⟨c, _, rfl, hw⟩
      exact ⟨Path.segments c.path, hw, rfl⟩

example :
    let o : OrderedIndex Unit := .scanning .ascending 2
    let t := tree o () [⟨(), "p", [.text "abc"]⟩, ⟨(), "/q/", [.text "abd", .flag true]⟩,
      ⟨(), "r", [.text "ab"]⟩, ⟨(), "q", [.text "x"]⟩]
    (Index.ordered o).query t (some [o.encodeKey (.text "abe")]) = .ok ["/p", "/r"] := by
  decide +kernel

end Assignment

end PropertyIndex
