import PropertyIndex.Proofs.Index.Run
import PropertyIndex.Proofs.Index.Sorted

/-!
# Other ways to find the entry before a key

An index that scans its chain and one that takes any child that points to a key behave in the same
way: no key is pointed to twice, and everything that points is on the chain.

* `Lookup.Pointing`        a lookup that finds a child that points to a key, wherever it is;
* `Chained.pointsAt_cases`   what the children of an index point to;
* `Pointing.eq_scan`       such a lookup comes to the same as walking the chain;
* `Index.prune_eq_scanning`, `Index.remove_eq_scanning`   the writes that look up;
* `ChainWrite.run_eq_scanning_run`   every run with such a lookup is one that scans.
-/

namespace PropertyIndex

variable {σ : Type} {d : Direction} {n : Nat} {t : Node σ} {keys pre post : List String}
  {key k : String} {l : Lookup σ}

open Node

/-! ## Children that point to a key -/

/-- the child of a name points to a key -/
def Node.PointsAt (t : Node σ) (k key : String) : Prop :=
  ∃ c, t.child? k = some c ∧ c.text? nextName = some key

/-- a lookup that finds some child that points to a key, if there is one, whatever the tree is -/
def Lookup.Pointing (l : Lookup σ) : Prop :=
  ∀ (t : Node σ) (key : String), t.Sorted →
    (∃ k, t.PointsAt k key ∧ l t key = .ok (some k)) ∨
      ((∀ k, ¬ t.PointsAt k key) ∧ l t key = .ok none)

theorem Lookup.pointing_anyPointer : (anyPointer : Lookup σ).Pointing := by
  intro t key h
  unfold anyPointer
  cases hf : t.children.find? fun p => p.2.text? nextName = some key with
  | some p =>
    obtain ⟨k, c⟩ := p
    have hc : t.child? k = some c :=
      h.children_sorted.get?_of_mem (List.mem_of_find?_eq_some hf)
    exact .inl ⟨k, ⟨c, hc, by simpa using List.find?_some hf⟩, rfl⟩
  | none =>
    refine .inr ⟨?_, rfl⟩
    rintro k ⟨c, hc, hp⟩
    have hno := List.find?_eq_none.1 hf (k, c) (SortedMap.mem_of_get? hc)
    exact hno (by simpa using hp)

namespace Node

theorem successor_of_text? {c : Node σ} (h : c.text? nextName = some key) : c.successor = key := by
  unfold successor
  rw [h]
  rfl

namespace Chained

/-- a child points to nothing, or to the key after it in the chain -/
theorem pointsAt_cases (h : t.Chained d keys) (hp : t.PointsAt k key) :
    key = "" ∨ ∃ pre post, keys = pre ++ key :: post ∧ k = pre.getLastD startName := by
  obtain ⟨c, hc, htext⟩ := hp
  have hkey := successor_of_text? htext
  by_cases hs : k = startName
  · subst hs
    rw [h.linked.head_successor_eq hc] at hkey
    cases keys with
    | nil => exact .inl hkey.symm
    | cons x r =>
      obtain rfl : x = key := hkey
      exact .inr ⟨[], r, rfl, rfl⟩
  · obtain ⟨pre, post, rfl⟩ := List.append_of_mem (h.complete k c hc hs)
    rw [h.linked.successor_eq hc] at hkey
    cases post with
    | nil => exact .inl hkey.symm
    | cons x r =>
      obtain rfl : x = key := hkey
      refine .inr ⟨pre ++ [k], r, by rw [List.append_assoc]; rfl, ?_⟩
      rw [List.getLastD_concat]

/-- the entry before a key points to it -/
theorem pointsAt_previous (h : t.Chained d (pre ++ key :: post)) :
    t.PointsAt (pre.getLastD startName) key := by
  have hpoint : ∀ k c, t.child? k = some c → c.successor = key → t.PointsAt k key := by
    intro k c hc hk
    obtain ⟨s, hs⟩ := h.text k c hc
    rw [successor_of_prop? hs] at hk
    refine ⟨c, hc, ?_⟩
    unfold text?
    rw [hs, hk]
    rfl
  rcases List.eq_nil_or_concat pre with rfl | ⟨front, last, rfl⟩
  · obtain ⟨c, hc⟩ := hasChild_iff.1 (h.hasChild_startName (by simp))
    exact hpoint startName c hc (h.linked.head_successor_eq hc)
  · rw [List.concat_eq_append, List.append_assoc] at h
    rw [List.concat_eq_append, List.getLastD_concat]
    obtain ⟨c, hc⟩ : ∃ c, t.child? last = some c := h.exists_child (by simp)
    exact hpoint last c hc (h.linked.successor_eq hc)

theorem pointsAt_iff (h : t.Chained d (pre ++ key :: post)) :
    t.PointsAt k key ↔ k = pre.getLastD startName := by
  refine ⟨?_, fun e => e ▸ h.pointsAt_previous⟩
  intro hp
  have hkey : key ∈ pre ++ key :: post := by simp
  rcases h.pointsAt_cases hp with he | ⟨pre', post', he, hk⟩
  · exact absurd he (h.usable key hkey).1
  · -- the key stands at one place only
    have hn := (List.nodup_cons.1 h.linked.nodup).2
    rw [List.nodup_middle, List.nodup_cons, List.mem_append, not_or] at hn
    rw [hk, ((List.append_cons_inj_of_notMem hn.1.1 hn.1.2).1 he).1]

/-- nothing points to the head -/
theorem not_pointsAt_startName (h : t.Chained d keys) (k : String) : ¬ t.PointsAt k startName := by
  intro hp
  rcases h.pointsAt_cases hp with he | ⟨pre, post, he, _⟩
  · exact absurd he (by decide)
  · exact startName_notMem_of_linked h.linked (he ▸ by simp)

end Chained

end Node

/-- in an index whose chain is whole, such a lookup comes to the same as walking the chain -/
theorem Lookup.Pointing.eq_scan (hl : l.Pointing) (h : t.Chained d keys) (hs : t.Sorted)
    (hk : key = startName ∨ key ∈ keys) : l t key = scan t key := by
  rcases hk with rfl | hk
  · rw [scan_startName]
    rcases hl t startName hs with ⟨k, hp, _⟩ | ⟨_, he⟩
    · exact absurd hp (h.not_pointsAt_startName k)
    · exact he
  · obtain ⟨pre, post, rfl⟩ := List.append_of_mem hk
    rw [scan_of_linked h.linked]
    rcases hl t key hs with ⟨k, hp, he⟩ | ⟨hno, _⟩
    · rw [he, h.pointsAt_iff.1 hp]
    · exact absurd h.pointsAt_previous (hno _)

/-! ## Writes -/

namespace Index

theorem drop_eq_scanning (hl : l.Pointing) (h : t.Chained d keys) (hs : t.Sorted)
    (hk : key = startName ∨ key ∈ keys) (n : Nat) (m : σ) :
    (Index.ordered ⟨d, n, l⟩).drop m t key = (Index.ordered (.scanning d n)).drop m t key := by
  have hu : (⟨d, n, l⟩ : OrderedIndex σ).unlink m t key
      = (OrderedIndex.scanning d n).unlink m t key := by
    unfold OrderedIndex.unlink
    dsimp only [OrderedIndex.scanning]
    rw [hl.eq_scan h hs hk]
  unfold drop
  dsimp only
  rw [hu]

theorem prune_eq_scanning (hl : l.Pointing) (h : t.Chained d keys) (hs : t.Sorted) (n : Nat)
    (m : σ) (key : String) (segments : List String) : (Index.ordered ⟨d, n, l⟩).prune m t key segments
      = (Index.ordered (.scanning d n)).prune m t key segments := by
  cases hc : t.child? key with
  | none => rw [prune_of_none _ hc, prune_of_none _ hc]
  | some c =>
    have hk : key = startName ∨ key ∈ keys := by
      by_cases he : key = startName
      · exact .inl he
      · exact .inr (h.complete key c hc he)
    rw [prune_eq, prune_eq, drop_eq_scanning hl (h.pruneEntry m key segments)
      (hs.pruneEntry m key segments) hk]

theorem insert_eq_scanning (l : Lookup σ) (m : σ) (path key : String) :
    (Index.ordered ⟨d, n, l⟩).insert m t path key
      = (Index.ordered (.scanning d n)).insert m t path key := rfl

theorem remove_eq_scanning (hl : l.Pointing) (h : t.Chained d keys) (hs : t.Sorted) (n : Nat)
    (m : σ) (path key : String) : (Index.ordered ⟨d, n, l⟩).remove m t path key
      = (Index.ordered (.scanning d n)).remove m t path key := by
  by_cases he : key = startName
  · rw [he, remove_startName, remove_startName]
  cases hc : t.child? key with
  | none =>
    rw [remove_of_none _ (isReserved_ordered _ he) hc, remove_of_none _ (isReserved_ordered _ he) hc]
  | some c =>
    have hput := Put.edit m (Path.segments path) (·.removeProp matchName) hc
    have h1 := h.put hput hc he (prop?_edit_clear m _ c (by decide))
    have hs1 := hs.edit m (key :: Path.segments path) fun c hc => Sorted.removeProp hc matchName
    rw [remove_eq _ (isReserved_ordered _ he), remove_eq _ (isReserved_ordered _ he),
      prune_eq_scanning hl h1 hs1]

theorem applyAll_eq_scanning (hl : l.Pointing) (h : t.Chained d keys) (hs : t.Sorted) (n : Nat)
    (m : σ) (path : String) (cs : List Change) : (Index.ordered ⟨d, n, l⟩).applyAll m t path cs
      = (Index.ordered (.scanning d n)).applyAll m t path cs := by
  induction cs generalizing t keys with
  | nil => rfl
  | cons c cs ih =>
    have hstep : (Index.ordered ⟨d, n, l⟩).apply m t path c
        = (Index.ordered (.scanning d n)).apply m t path c := by
      cases c with
      | insert key => exact insert_eq_scanning l m path key
      | remove key => exact remove_eq_scanning hl h hs n m path key
    have hsustains :=
      Chained.apply_sustains (o := .scanning d n) h (Lookup.sound_scan d) m path c
    obtain ⟨keys', h'⟩ := hsustains.chained
    have hs' := (Index.ordered (.scanning d n)).apply_sorted hs m path c
    unfold applyAll Outcome.andThen
    rw [hstep]
    split
    · exact ih h' hs'
    · rfl

end Index

/-! ## Runs -/

theorem Command.runAll_sorted {cs : List (σ × Command σ)} (hs : t.Sorted) :
    (runAll t cs).Sorted := by
  induction cs generalizing t with
  | nil => exact hs
  | cons x cs ih => exact ih (x.2.run_sorted hs x.1)

namespace ChainWrite

theorem run_eq_scanning (hl : l.Pointing) (h : t.Chained d keys) (hs : t.Sorted) (n : Nat) (m : σ)
    (w : ChainWrite) : (w.command ⟨d, n, l⟩).run m t = (w.command (.scanning d n)).run m t := by
  cases w with
  | ordered w =>
    cases w with
    | keys w =>
      cases w with
      | insert path key =>
        exact congrArg Command.silent (Index.insert_eq_scanning l m path key)
      | remove path key =>
        exact congrArg Command.silent (Index.remove_eq_scanning hl h hs n m path key)
      | update path before after =>
        exact congrArg Command.silent (Index.applyAll_eq_scanning hl h hs n m path _)
    | values path before after =>
      exact congrArg Command.silent (Index.applyAll_eq_scanning hl h hs n m path _)
  | prune key segments =>
    exact congrArg Command.silent (Index.prune_eq_scanning hl h hs n m key segments)
  | fetch key props own => rfl

theorem chained_run (h : t.Chained d keys) (n : Nat) (m : σ) (w : ChainWrite) :
    ∃ keys', ((w.command (.scanning d n)).run m t).tree.Chained d keys' :=
  chained_runAll (o := .scanning d n) h (Lookup.sound_scan d) [(m, w)]

theorem runAll_eq_scanning (hl : l.Pointing) (h : t.Chained d keys) (hs : t.Sorted) (n : Nat)
    (ws : List (σ × ChainWrite)) :
    Command.runAll t (ws.map fun x => (x.1, x.2.command ⟨d, n, l⟩))
      = Command.runAll t (ws.map fun x => (x.1, x.2.command (.scanning d n))) := by
  induction ws generalizing t keys with
  | nil => rfl
  | cons x ws ih =>
    obtain ⟨keys', h'⟩ := chained_run h n x.1 x.2
    rw [List.map_cons, List.map_cons, Command.runAll_cons, Command.runAll_cons,
      run_eq_scanning hl h hs]
    exact ih h' (Command.run_sorted hs _ _)

/-- **All lookups come to the same**: an index that finds the entry before a key by any child that
points there goes through the same trees as one that scans its chain, and answers every write in
the same way. -/
theorem run_eq_scanning_run (hl : l.Pointing) (d : Direction) (n : Nat) (m₀ : σ)
    (ws : List (σ × ChainWrite)) :
    let o : OrderedIndex σ := ⟨d, n, l⟩
    let scanning : OrderedIndex σ := .scanning d n
    tree o m₀ ws = tree scanning m₀ ws ∧ ∀ m (w : ChainWrite),
      (w.command o).run m (tree o m₀ ws) = (w.command scanning).run m (tree scanning m₀ ws) := by
  intro o scanning
  have htree : tree o m₀ ws = tree scanning m₀ ws :=
    runAll_eq_scanning hl (.empty d m₀) (.empty m₀) n ws
  obtain ⟨keys, h⟩ : ∃ keys, (tree scanning m₀ ws).Chained d keys :=
    chained_runAll (o := .scanning d n) (.empty d m₀) (Lookup.sound_scan d) ws
  refine ⟨htree, fun m w => ?_⟩
  rw [htree]
  exact run_eq_scanning hl h (Command.runAll_sorted (.empty m₀)) n m w

theorem run_eq_scanning_run_anyPointer :
    let o : OrderedIndex Unit := ⟨.descending, 100, Lookup.anyPointer⟩
    let ws : List (Unit × ChainWrite) := [((), .ordered (.keys (.insert "p" "a"))),
      ((), .ordered (.keys (.update "q" ["a"] ["b", "c"]))), ((), .prune "a" ["p"]),
      ((), .ordered (.keys (.remove "q" "b")))]
    (Lookup.anyPointer : Lookup Unit).Pointing ∧
      tree o () ws = tree (.scanning .descending 100) () ws ∧ tree o () ws ≠ .empty () := by
  intro o ws
  have hl : (Lookup.anyPointer : Lookup Unit).Pointing := Lookup.pointing_anyPointer
  exact ⟨hl, (run_eq_scanning_run hl .descending 100 () ws).1, by decide +kernel⟩

end ChainWrite

end PropertyIndex
