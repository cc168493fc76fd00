import Mathlib.Data.Set.Card
import PropertyIndex.Match

/-!
# Where the matches of a tree are

A match is known by its address, the names on the way to its node.

* `Node.HasMatch`         there is a match at an address;
* `Node.matchAddresses`   all these addresses, parents before children;
* `Node.mem_matchAddresses`, `Node.pairwise_matchAddresses`   the list is complete, and its addresses
                          ascend, so it names none twice;
* `Node.matchCount_pos_iff`   a subtree counts as matched when it has a match somewhere;
* `Node.matchTotal_eq_ncard`  the matches counted below some entries are the pairs of an entry and
                          an address below it.
-/

namespace PropertyIndex.Node

variable {σ : Type}

def HasMatch (t : Node σ) (a : List String) : Prop := ∃ n, t.at? a = some n ∧ n.matched = true

theorem hasMatch_nil {t : Node σ} : t.HasMatch [] ↔ t.matched = true := by
  simp [HasMatch]

theorem hasMatch_cons {t : Node σ} {k : String} {a : List String} :
    t.HasMatch (k :: a) ↔ ∃ c, t.child? k = some c ∧ c.HasMatch a := by
  unfold HasMatch
  rw [at?_cons]
  cases t.child? k <;> simp

theorem not_hasMatch_of_none {t : Node σ} {k : String} (hc : t.child? k = none)
    (a : List String) : ¬ t.HasMatch (k :: a) := by
  rw [hasMatch_cons, hc]
  simp

theorem occupied_eq_false_iff {n : Node σ} :
    n.occupied = false ↔ n.hasProp matchName = false ∧ n.children = [] := by
  unfold occupied childCount
  rw [Bool.or_eq_false_iff, decide_eq_false_iff_not, Nat.not_lt, Nat.le_zero,
    List.length_eq_zero_iff]

/-! ## All addresses -/

mutual

/-- the addresses of the matches in a subtree, parents before children -/
def matchAddresses : Node σ → List (List String)
  | ⟨m, ps, cs⟩ => (if matched ⟨m, ps, cs⟩ then [[]] else []) ++ matchAddressesAll cs

def matchAddressesAll : List (String × Node σ) → List (List String)
  | [] => []
  | (k, n) :: r => (matchAddresses n).map (k :: ·) ++ matchAddressesAll r

end

mutual

theorem length_matchAddresses : ∀ n : Node σ, n.matchAddresses.length = n.matchCount
  | ⟨m, ps, cs⟩ => by
    rw [matchAddresses, matchCount, List.length_append, length_matchAddressesAll cs, Nat.add_comm]
    cases matched ⟨m, ps, cs⟩ <;> rfl

theorem length_matchAddressesAll :
    ∀ cs : List (String × Node σ), (matchAddressesAll cs).length = matchCountAll cs
  | [] => rfl
  | (k, n) :: r => by
    rw [matchAddressesAll, matchCountAll, List.length_append, List.length_map,
      length_matchAddresses n, length_matchAddressesAll r]

end

theorem mem_matchAddressesAll {cs : List (String × Node σ)} {a : List String} :
    a ∈ matchAddressesAll cs ↔ ∃ k c b, (k, c) ∈ cs ∧ b ∈ matchAddresses c ∧ a = k :: b := by
  induction cs with
  | nil => simp [matchAddressesAll]
  | cons p r ih =>
    obtain ⟨k, n⟩ := p
    rw [matchAddressesAll, List.mem_append, List.mem_map, ih]
    constructor
    · intro hx
      rcases hx with ⟨b, hb, rfl⟩ | ⟨k', c, b, hc, hb, rfl⟩
      · exact ⟨k, n, b, List.mem_cons_self, hb, rfl⟩
      · exact ⟨k', c, b, List.mem_cons_of_mem _ hc, hb, rfl⟩
    · intro hx
      obtain ⟨k', c, b, hc, hb, rfl⟩ := hx
      rcases List.mem_cons.1 hc with e | hc
      · cases e
        exact .inl ⟨b, hb, rfl⟩
      · exact .inr ⟨k', c, b, hc, hb, rfl⟩

theorem nil_mem_matchAddresses {n : Node σ} : [] ∈ n.matchAddresses ↔ n.matched = true := by
  obtain ⟨m, ps, cs⟩ := n
  have hcs : [] ∉ matchAddressesAll cs := by
    intro h
    obtain ⟨_, _, _, _, _, e⟩ := mem_matchAddressesAll.1 h
    cases e
  rw [matchAddresses, List.mem_append]
  cases matched ⟨m, ps, cs⟩ <;> simp [hcs]

theorem cons_mem_matchAddresses {n : Node σ} {k : String} {a : List String} :
    k :: a ∈ n.matchAddresses ↔ ∃ c, (k, c) ∈ n.children ∧ a ∈ c.matchAddresses := by
  obtain ⟨m, ps, cs⟩ := n
  have hroot : k :: a ∉ (if matched ⟨m, ps, cs⟩ then [[]] else ([] : List (List String))) := by
    split <;> simp
  rw [matchAddresses, List.mem_append, mem_matchAddressesAll]
  constructor
  · intro hx
    rcases hx with h | ⟨k', c, b, hc, hb, e⟩
    · exact absurd h hroot
    · cases e
      exact ⟨c, hc, hb⟩
  · intro hx
    obtain ⟨c, hc, ha⟩ := hx
    exact .inr ⟨k, c, a, hc, ha, rfl⟩

theorem mem_matchAddresses {n : Node σ} (h : n.Sorted) {a : List String} :
    a ∈ n.matchAddresses ↔ n.HasMatch a := by
  induction a generalizing n with
  | nil => rw [nil_mem_matchAddresses, hasMatch_nil]
  | cons k a ih =>
    rw [cons_mem_matchAddresses, hasMatch_cons]
    constructor
    · intro hx
      obtain ⟨c, hc, ha⟩ := hx
      have hc' : n.child? k = some c := h.children_sorted.get?_of_mem hc
      exact ⟨c, hc', (ih (h.child? hc')).1 ha⟩
    · intro hx
      obtain ⟨c, hc, ha⟩ := hx
      exact ⟨c, SortedMap.mem_of_get? hc, (ih (h.child? hc)).2 ha⟩

/-! ## The order of addresses -/

theorem pairwise_matchAddressesAll {cs : SortedMap (Node σ)} (h : cs.Sorted)
    (hc : ∀ p ∈ cs, p.2.matchAddresses.Pairwise (· < ·)) :
    (matchAddressesAll cs).Pairwise (· < ·) := by
  induction cs with
  | nil => exact List.Pairwise.nil
  | cons p r ih =>
    obtain ⟨k, n⟩ := p
    obtain ⟨hk, hr⟩ := SortedMap.sorted_cons.1 h
    rw [matchAddressesAll, List.pairwise_append]
    refine ⟨?_, ih hr fun q hq => hc q (List.mem_cons_of_mem _ hq), ?_⟩
    · rw [List.pairwise_map]
      exact (hc (k, n) List.mem_cons_self).imp fun hlt => List.cons_lt_cons_iff.2 (.inr ⟨rfl, hlt⟩)
    · intro a ha b hb
      obtain ⟨a', _, rfl⟩ := List.mem_map.1 ha
      obtain ⟨k', c, b', hkc, _, rfl⟩ := mem_matchAddressesAll.1 hb
      exact List.cons_lt_cons_iff.2 (.inl (hk (k', c) hkc))

/-- addresses ascend name by name, a prefix before its extensions -/
theorem pairwise_matchAddresses {n : Node σ} (h : n.Sorted) :
    n.matchAddresses.Pairwise (· < ·) := by
  induction h with
  | @mk m ps cs _ children _ ih =>
    have hroot : ∀ a ∈ (if matched ⟨m, ps, cs⟩ then [[]] else ([] : List (List String))), a = [] := by
      intro a ha
      split at ha
      · exact List.mem_singleton.1 ha
      · cases ha
    rw [matchAddresses, List.pairwise_append]
    refine ⟨?_, pairwise_matchAddressesAll children ih, ?_⟩
    · split
      · exact List.pairwise_singleton _ _
      · exact List.Pairwise.nil
    · intro a ha b hb
      obtain ⟨k, c, b', _, _, rfl⟩ := mem_matchAddressesAll.1 hb
      rw [hroot a ha]
      exact List.nil_lt_cons k b'

theorem nodup_matchAddresses {n : Node σ} (h : n.Sorted) : n.matchAddresses.Nodup := by
  refine (pairwise_matchAddresses h).imp ?_
  rintro a _ hlt rfl
  exact List.lt_irrefl a hlt

/-! ## Counting -/

theorem matchCount_pos_iff {n : Node σ} (h : n.Sorted) :
    0 < n.matchCount ↔ ∃ a, n.HasMatch a := by
  rw [← length_matchAddresses, List.length_pos_iff_exists_mem]
  exact exists_congr fun a => mem_matchAddresses h

/-- the matches below some children, counted child by child -/
def matchTotal (t : Node σ) (keys : List String) : Nat :=
  (keys.map fun k => ((t.child? k).map matchCount).getD 0).sum

/-- the matches below some children: the name of the child and the address below it -/
def matchPairs (t : Node σ) (keys : List String) : Set (String × List String) :=
  {p | p.1 ∈ keys ∧ t.HasMatch (p.1 :: p.2)}

def matchPairList (t : Node σ) (keys : List String) : List (String × List String) :=
  keys.flatMap fun k => (((t.child? k).map matchAddresses).getD []).map (Prod.mk k)

theorem length_matchPairList (t : Node σ) (keys : List String) :
    (t.matchPairList keys).length = t.matchTotal keys := by
  unfold matchPairList matchTotal
  rw [List.length_flatMap]
  congr 1
  apply List.map_congr_left
  intro k _
  rw [List.length_map]
  cases t.child? k with
  | none => rfl
  | some c => exact length_matchAddresses c

theorem mem_matchPairList {t : Node σ} (h : t.Sorted) {keys : List String}
    {p : String × List String} : p ∈ t.matchPairList keys ↔ p ∈ t.matchPairs keys := by
  obtain ⟨k, a⟩ := p
  have hk : ∀ k', (k, a) ∈ (((t.child? k').map matchAddresses).getD []).map (Prod.mk k') ↔
      k' = k ∧ t.HasMatch (k :: a) := by
    intro k'
    rw [hasMatch_cons]
    cases hc : t.child? k' with
    | none =>
      simp only [Option.map_none, Option.getD_none, List.map_nil, List.not_mem_nil, false_iff]
      intro hx
      obtain ⟨rfl, c, hc', _⟩ := hx
      rw [hc] at hc'
      cases hc'
    | some c =>
      rw [Option.map_some, Option.getD_some, List.mem_map]
      constructor
      · intro hx
        obtain ⟨b, hb, e⟩ := hx
        cases e
        exact ⟨rfl, c, hc, (mem_matchAddresses (h.child? hc)).1 hb⟩
      · intro hx
        obtain ⟨rfl, c', hc', ha⟩ := hx
        rw [hc] at hc'
        cases hc'
        exact ⟨a, (mem_matchAddresses (h.child? hc)).2 ha, rfl⟩
  unfold matchPairList
  rw [List.mem_flatMap]
  constructor
  · intro hx
    obtain ⟨k', hk', hm⟩ := hx
    obtain ⟨rfl, hm⟩ := (hk k').1 hm
    exact ⟨hk', hm⟩
  · intro hx
    obtain ⟨hk', hm⟩ := hx
    exact ⟨k, hk', (hk k).2 ⟨rfl, hm⟩⟩

theorem nodup_matchPairList {t : Node σ} (h : t.Sorted) {keys : List String} (hk : keys.Nodup) :
    (t.matchPairList keys).Nodup := by
  unfold matchPairList
  rw [List.nodup_flatMap]
  constructor
  · intro k _
    refine List.Nodup.map (Prod.mk_right_injective k) ?_
    cases hc : t.child? k with
    | none => exact List.nodup_nil
    | some c => exact nodup_matchAddresses (h.child? hc)
  · refine hk.imp fun {a b} hab => ?_
    intro p ha hb
    obtain ⟨_, _, rfl⟩ := List.mem_map.1 ha
    obtain ⟨_, _, e⟩ := List.mem_map.1 hb
    exact hab (congrArg Prod.fst e).symm

theorem matchTotal_eq_ncard {t : Node σ} (h : t.Sorted) {keys : List String} (hk : keys.Nodup) :
    t.matchTotal keys = (t.matchPairs keys).ncard := by
  have e : t.matchPairs keys = ((t.matchPairList keys).toFinset : Set (String × List String)) := by
    ext p
    rw [List.coe_toFinset]
    exact (mem_matchPairList h).symm
  rw [e, Set.ncard_coe_finset, List.toFinset_card_of_nodup (nodup_matchPairList h hk),
    length_matchPairList]

end PropertyIndex.Node
