import PropertyIndex.Chain.Integrity
import PropertyIndex.Proofs.Chain.Trail
import PropertyIndex.Proofs.Node.Addresses

/-!
# What the integrity check decides

* `Node.SoundChain`      an index whose head carries no match, whose pointers lead through all its
                         entries in strict order, and whose entries all have matches;
* `Survey.run_eq_ok_iff` what a survey of a chain that ends comes to;
* `Node.checkChain_eq_ok_iff`    the check passes exactly the sound chains;
* `Node.checkChain_decides`      the same with the number of the matches, and with the errors that
                                 the check can give.
-/

namespace PropertyIndex

variable {σ : Type}

def Entry.matchCount (x : Entry σ) : Nat := (x.node.map Node.matchCount).getD 0

/-! ## Surveys -/

namespace Survey

variable {d : Direction} {s s' : Survey} {t : Node σ}

/-- the keys met so far ascend in the direction; the latest comes first in the list -/
def Ordered (d : Direction) (s : Survey) : Prop := s.keys.Pairwise fun a b => d.precedes b a

theorem ordered_empty (d : Direction) : empty.Ordered d := List.Pairwise.nil

/-- a survey that has also met the entries of some keys -/
def extend (s : Survey) (t : Node σ) (keys : List String) : Survey :=
  ⟨keys.reverse ++ s.keys, s.matchTotal + t.matchTotal keys⟩

theorem extend_nil (s : Survey) (t : Node σ) : s.extend t [] = s := rfl

theorem extend_cons (s : Survey) (t : Node σ) (k : String) (ks : List String) :
    s.extend t (k :: ks) = (s.extend t [k]).extend t ks := by
  simp [extend, Node.matchTotal, Nat.add_assoc]

theorem ordered_cons (hs : s.Ordered d) {k : String} :
    (k :: s.keys).Pairwise (fun a b => d.precedes b a)
      ↔ s.keys.head?.filter (fun previous => ¬ d.precedes previous k) = none := by
  obtain ⟨keys, total⟩ := s
  cases keys with
  | nil => simp
  | cons j js =>
    have hj : (j :: js).Pairwise fun a b => d.precedes b a := hs
    simp only [List.head?_cons, Option.filter_eq_none_iff, Option.some.injEq, forall_eq',
      decide_not, Bool.not_eq_true', decide_eq_false_iff_not, Decidable.not_not]
    constructor
    · intro h
      exact (List.pairwise_cons.1 h).1 j List.mem_cons_self
    · intro h
      refine List.pairwise_cons.2 ⟨?_, hj⟩
      intro b hb
      rcases List.mem_cons.1 hb with e | hb
      · rw [e]; exact h
      · exact Direction.precedes_trans ((List.pairwise_cons.1 hj).1 b hb) h

theorem step_eq_ok_iff (hs : s.Ordered d) (x : Entry σ) :
    s.step d x = .ok s' ↔ (x.name :: s.keys).Pairwise (fun a b => d.precedes b a) ∧
      0 < x.matchCount ∧ s' = ⟨x.name :: s.keys, s.matchTotal + x.matchCount⟩ := by
  rw [ordered_cons hs]
  unfold step
  split
  · next previous hp =>
    rw [hp]
    exact iff_of_false (by simp) fun h => by cases h.1
  · next hp =>
    have hnew : x.name ∉ s.keys := fun hmem =>
      Direction.precedes_irrefl d x.name ((List.pairwise_cons.1 ((ordered_cons hs).2 hp)).1 _ hmem)
    rw [if_neg hnew, hp]
    have hm : (x.node.map Node.matchCount).getD 0 = x.matchCount := rfl
    rw [hm]
    cases x.matchCount with
    | zero => simp
    | succ n => simp [eq_comm]

theorem step_ne_chainedTwice (hs : s.Ordered d) (x : Entry σ) (k : String) :
    s.step d x ≠ .error (.chainedTwice k) := by
  unfold step
  split
  · simp
  · next hp =>
    have hnew : x.name ∉ s.keys := fun hmem =>
      Direction.precedes_irrefl d x.name ((List.pairwise_cons.1 ((ordered_cons hs).2 hp)).1 _ hmem)
    rw [if_neg hnew]
    split <;> simp

theorem run_cons_ok {x : Entry σ} (h : s.step d x = .ok s') (r : List (Item σ)) :
    run d s (.ok x :: r) = run d s' r := by
  rw [run, h]

theorem run_cons_error {x : Entry σ} {c : Corruption} (h : s.step d x = .error c)
    (r : List (Item σ)) : run d s (.ok x :: r) = .error (.corruption c) := by
  rw [run, h]

theorem run_eq_ok_iff (hs : s.Ordered d) (t : Node σ) (keys : List String) :
    run d s (keys.map t.item) = .ok s' ↔ (s.extend t keys).Ordered d ∧
      (∀ k ∈ keys, 0 < Entry.matchCount ⟨k, t.child? k⟩) ∧ s' = s.extend t keys := by
  induction keys generalizing s with
  | nil =>
    rw [List.map_nil, run, extend_nil]
    simp [hs, eq_comm]
  | cons k ks ih =>
    have hext : s.extend t [k]
        = ⟨k :: s.keys, s.matchTotal + Entry.matchCount ⟨k, t.child? k⟩⟩ := by
      simp [extend, Node.matchTotal, Entry.matchCount]
    rw [extend_cons, List.map_cons, Node.item]
    cases he : s.step d ⟨k, t.child? k⟩ with
    | ok s1 =>
      obtain ⟨hp, hpos, rfl⟩ := (step_eq_ok_iff hs _).1 he
      rw [run_cons_ok he, ← hext, ih (hext ▸ hp)]
      simp [hpos]
    | error c =>
      rw [run_cons_error he]
      refine iff_of_false (by simp) ?_
      intro hx
      obtain ⟨hord, hpos, _⟩ := hx
      have hsub : (k :: s.keys).Pairwise fun a b => d.precedes b a := by
        have h : (ks.reverse ++ (k :: s.keys)).Pairwise fun a b => d.precedes b a := by
          rw [hext] at hord
          exact hord
        exact (List.pairwise_append.1 h).2.1
      have hok := (step_eq_ok_iff hs ⟨k, t.child? k⟩).2
        ⟨hsub, hpos k List.mem_cons_self, rfl⟩
      rw [he] at hok
      cases hok

theorem run_error {s : Survey} (hs : s.Ordered d) {xs : List (Item σ)} {e : Error}
    (h : run d s xs = .error e) :
    .error e ∈ xs ∨ ∃ c, e = .corruption c ∧ ∀ k, c ≠ .chainedTwice k := by
  induction xs generalizing s with
  | nil => cases h
  | cons y ys ih =>
    cases y with
    | error e' =>
      cases h
      exact .inl List.mem_cons_self
    | ok x =>
      cases he : s.step d x with
      | error c =>
        rw [run_cons_error he] at h
        cases h
        refine .inr ⟨c, rfl, fun k hk => step_ne_chainedTwice hs x k ?_⟩
        rw [he, hk]
      | ok s1 =>
        rw [run_cons_ok he] at h
        obtain ⟨hp, _, rfl⟩ := (step_eq_ok_iff hs x).1 he
        have hs1 : Ordered d ⟨x.name :: s.keys, s.matchTotal + x.matchCount⟩ := hp
        exact (ih hs1 h).imp_left (List.mem_cons_of_mem _)

theorem run_ne_ok_of_error_mem {s s' : Survey} {xs : List (Item σ)} {e : Error}
    (h : .error e ∈ xs) : run d s xs ≠ .ok s' := by
  induction xs generalizing s with
  | nil => simp at h
  | cons y ys ih =>
    cases y with
    | error e' => simp [run]
    | ok x =>
      have hmem : .error e ∈ ys := by simpa using h
      rw [run]
      split
      · simp
      · exact ih hmem

end Survey

/-! ## The whole check -/

namespace Node

variable {d : Direction} {t : Node σ} {keys : List String}

/-- an index without any fault: its head carries no match, its pointers lead through the keys to an
empty pointer, consecutive keys are in strict order, every key has a match in its subtree, and no
other child than the head and the keys has a pointer -/
structure SoundChain (d : Direction) (t : Node σ) (keys : List String) : Prop where
  head : ∀ s, t.child? startName = some s → s.hasProp matchName = false ∧ s.children = []
  linked : t.Linked keys
  ordered : keys.IsChain d.precedes
  matched : ∀ k ∈ keys, ∃ a, t.HasMatch (k :: a)
  complete : ∀ k c, t.child? k = some c → k ≠ startName → c.hasProp nextName = true → k ∈ keys

theorem headMarked_eq_false_iff : t.headMarked = false ↔
    ∀ s, t.child? startName = some s → s.hasProp matchName = false ∧ s.children = [] := by
  unfold headMarked
  cases t.child? startName with
  | none => simp
  | some s => simp [occupied_eq_false_iff]

theorem stray?_eq_none_iff (h : t.Sorted) : t.stray? keys = none ↔
    ∀ k c, t.child? k = some c → k ≠ startName → c.hasProp nextName = true → k ∈ keys := by
  unfold stray?
  rw [Option.map_eq_none_iff, List.find?_eq_none]
  constructor
  · intro hn k c hc hk hp
    by_contra hmem
    exact hn (k, c) (SortedMap.mem_of_get? hc) (by simp [hk, hp, hmem])
  · rintro hn ⟨k, c⟩ hmem hp
    have hc : t.child? k = some c := h.children_sorted.get?_of_mem hmem
    simp only [ne_eq, decide_eq_true_eq] at hp
    exact hp.2.1 (hn k c hc hp.1 hp.2.2)

theorem entry_matchCount_pos_iff (h : t.Sorted) {k : String} :
    0 < Entry.matchCount ⟨k, t.child? k⟩ ↔ ∃ a, t.HasMatch (k :: a) := by
  unfold Entry.matchCount
  simp only [hasMatch_cons]
  cases hc : t.child? k with
  | none => simp
  | some c => simpa using matchCount_pos_iff (h.child? hc)

/-- the metrics of an index with some keys -/
def metrics (t : Node σ) (keys : List String) : Metrics :=
  ⟨keys.length, t.matchTotal keys, keys.head?, keys.getLast?⟩

theorem survey_metrics (t : Node σ) (keys : List String) :
    (Survey.empty.extend t keys).metrics = t.metrics keys := by
  simp [Survey.extend, Survey.empty, Survey.metrics, metrics]

theorem ordered_extend_iff :
    (Survey.empty.extend t keys).Ordered d ↔ keys.IsChain d.precedes := by
  rw [List.isChain_iff_pairwise]
  unfold Survey.extend Survey.Ordered Survey.empty
  rw [List.append_nil, List.pairwise_reverse]

theorem checkChain_eq_ok_iff (h : t.Sorted) {m : Metrics} :
    t.checkChain d = .ok m ↔ ∃ keys, t.SoundChain d keys ∧ m = t.metrics keys := by
  have hrun : ∀ {keys}, t.Linked keys → ∀ {s}, Survey.empty.run d (t.chain false) = .ok s ↔
      keys.IsChain d.precedes ∧ (∀ k ∈ keys, ∃ a, t.HasMatch (k :: a)) ∧
        s = Survey.empty.extend t keys := by
    intro keys hl s
    rw [chain_of_linked hl, Survey.run_eq_ok_iff (Survey.ordered_empty d), ordered_extend_iff]
    simp only [entry_matchCount_pos_iff h]
  constructor
  · intro hok
    unfold checkChain at hok
    split at hok
    · cases hok
    · next hhead =>
      split at hok
      · cases hok
      · next s hs =>
        split at hok
        · cases hok
        · next hstray =>
          cases hok
          rcases chain_cases t with ⟨keys, hl⟩ | ⟨ks, q, e, hc, _⟩
          · obtain ⟨hord, hmat, rfl⟩ := (hrun hl).1 hs
            refine ⟨keys, ⟨headMarked_eq_false_iff.1 (by simpa using hhead), hl, hord, hmat, ?_⟩,
              survey_metrics t keys⟩
            intro k c hc hk hp
            have hmem := (stray?_eq_none_iff h).1 hstray k c hc hk hp
            simpa [Survey.extend, Survey.empty] using hmem
          · have hmem : .error (.corruption e) ∈ t.chain false := by rw [hc]; simp
            exact absurd hs (Survey.run_ne_ok_of_error_mem hmem)
  · intro hx
    obtain ⟨keys, hsound, rfl⟩ := hx
    have hs := (hrun hsound.linked).2 ⟨hsound.ordered, hsound.matched, rfl⟩
    have hstray : t.stray? (Survey.empty.extend t keys).keys = none :=
      (stray?_eq_none_iff h).2 fun k c hc hk hp => by
        simpa [Survey.extend, Survey.empty] using hsound.complete k c hc hk hp
    unfold checkChain
    rw [headMarked_eq_false_iff.2 hsound.head, hs]
    simp only [Bool.false_eq_true, if_false, hstray, survey_metrics]

theorem checkChain_error {e : Error} (h : t.checkChain d = .error e) :
    ∃ c, e = .corruption c ∧ ∀ k, c ≠ .chainedTwice k := by
  unfold checkChain at h
  split at h
  · cases h
    exact ⟨_, rfl, by simp⟩
  · split at h
    · next e' he =>
      cases h
      rcases Survey.run_error (Survey.ordered_empty d) he with hmem | hc
      · rcases chain_cases t with ⟨keys, hl⟩ | ⟨ks, q, c, hc, hq⟩
        · rw [chain_of_linked hl] at hmem
          obtain ⟨k, _, hk⟩ := List.mem_map.1 hmem
          cases hk
        · rw [hc, List.mem_append] at hmem
          rcases hmem with hmem | hmem
          · obtain ⟨k, _, hk⟩ := List.mem_map.1 hmem
            cases hk
          · have hce : e = .corruption c := by simpa using hmem
            exact ⟨c, hce, by rcases hq with rfl | rfl <;> simp⟩
      · exact hc
    · split at h
      · cases h
        exact ⟨_, rfl, by simp⟩
      · cases h

theorem SoundChain.nodup (h : t.SoundChain d keys) : keys.Nodup :=
  Trail.nodup h.linked t.stuck_empty

/-- **The check decides whether an index is sound**: it passes exactly the indexes without a fault
and gives the number of their keys, the number of their matches and their ends; it answers every
other index with a corruption, and never with that of an entry met twice. -/
theorem checkChain_decides (d : Direction) {t : Node σ} (h : t.Sorted) :
    (∀ m, t.checkChain d = .ok m ↔ ∃ keys, t.SoundChain d keys ∧
      m = ⟨keys.length, (t.matchPairs keys).ncard, keys.head?, keys.getLast?⟩) ∧
    ((¬ ∃ keys, t.SoundChain d keys) → ∃ c, t.checkChain d = .error (.corruption c)) ∧
    ∀ k, t.checkChain d ≠ .error (.corruption (.chainedTwice k)) := by
  refine ⟨?_, ?_, ?_⟩
  · intro m
    rw [checkChain_eq_ok_iff h]
    apply exists_congr
    intro keys
    apply and_congr_right
    intro hs
    rw [metrics, matchTotal_eq_ncard h hs.nodup]
  · intro hn
    cases he : t.checkChain d with
    | ok m =>
      obtain ⟨keys, hs, _⟩ := (checkChain_eq_ok_iff h).1 he
      exact absurd ⟨keys, hs⟩ hn
    | error e =>
      obtain ⟨c, rfl, _⟩ := checkChain_error he
      exact ⟨c, rfl⟩
  · intro k hk
    obtain ⟨c, hc, hne⟩ := checkChain_error hk
    cases hc
    exact hne k rfl

/-- two entries in descending order: `b` with a match below it, then `a` with one at itself -/
def twoEntries : Node Unit :=
  ⟨(), [],
    [(":start", ⟨(), [(":next", .text "b")], []⟩),
      ("a", ⟨(), [(":next", .text ""), ("match", .flag true)], []⟩),
      ("b", ⟨(), [(":next", .text "a")], [("x", ⟨(), [("match", .flag true)], []⟩)]⟩)]⟩

theorem checkChain_decides_twoEntries :
    twoEntries.Sorted ∧ ∃ keys, twoEntries.SoundChain .descending keys ∧
      (⟨2, 2, some "b", some "a"⟩ : Metrics)
        = ⟨keys.length, (twoEntries.matchPairs keys).ncard, keys.head?, keys.getLast?⟩ := by
  have h : twoEntries.Sorted := by decide
  have hok : twoEntries.checkChain .descending = .ok ⟨2, 2, some "b", some "a"⟩ := by
    decide +kernel
  exact ⟨h, ((checkChain_decides .descending h).1 _).1 hok⟩

end Node

end PropertyIndex
