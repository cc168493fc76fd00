import Mathlib.Data.Finset.Sort
import Mathlib.Data.String.Basic
import Mathlib.Order.SymmDiff
import PropertyIndex.Proofs.Chain.Integrity
import PropertyIndex.Proofs.Index.Kept
import PropertyIndex.Proofs.Index.Run

/-!
# An index is a ledger of its matches

A ledger is a finite set of keys and addresses.  Writing to an index is writing to a ledger, and
whatever an index shows of itself can be read off the ledger.

* `Ledger`             what the writes of an index mean, without any tree;
* `Change.between_eq`  the steps of an update run through the symmetric difference of two sets;
* `Tracks`             an index that holds the pairs of a ledger and nothing else;
* `Tracks.shows`       what such an index shows: the check, its entries, and the keys it contains;
* `OrderedWrite.agrees`        one write to an index and to its ledger;
* `OrderedWrite.shows_ledger`  the same after every run.
-/

namespace PropertyIndex

variable {σ : Type} {m : σ} {d : Direction} {t : Node σ} {key path : String}
  {o : OrderedIndex σ} {α : Type}

open Node

/-! ## Ledgers -/

/-- the pairs of a key and the address of a match under it -/
abbrev Ledger := Finset (String × List String)

namespace Ledger

def keys (L : Ledger) : Finset String := L.image Prod.fst

/-- the keys in the order of a direction -/
def sortedKeys (L : Ledger) : Direction → List String
  | .ascending => L.keys.sort (· ≤ ·)
  | .descending => L.keys.sort (· ≥ ·)

/-- adds a pair; a key that cannot be one is refused -/
def insert (L : Ledger) (path key : String) : Ledger × Option ErrorKind :=
  if Key.Usable key then (Insert.insert (key, Path.segments path) L, none)
  else (L, some .invalidKey)

/-- takes a pair out; the name of the head is refused -/
def remove (L : Ledger) (path key : String) : Ledger × Option ErrorKind :=
  if key = startName then (L, some .invalidKey) else (L.erase (key, Path.segments path), none)

/-- takes the path out under those of some keys that it had before, and adds it under the others, up
to the first key that is refused -/
def move (L : Ledger) (path : String) (before : Finset String) :
    List String → Ledger × Option ErrorKind
  | [] => (L, none)
  | key :: r =>
    match if key ∈ before then L.remove path key else L.insert path key with
    | (L', some e) => (L', some e)
    | (L', none) => move L' path before r

/-- moves a path from one set of keys to another -/
def update (L : Ledger) (path : String) (before after : Finset String) :
    Ledger × Option ErrorKind :=
  L.move path before ((symmDiff before after).sort (· ≤ ·))

/-- what a write to an index with a key length means -/
def step (n : Nat) (L : Ledger) : OrderedWrite → Ledger × Option ErrorKind
  | .keys (.insert path key) => L.insert path key
  | .keys (.remove path key) => L.remove path key
  | .keys (.update path before after) => L.update path before.toFinset after.toFinset
  | .values path before after =>
    L.update path (before.map fun v => Key.encode v.keyText n).toFinset
      (after.map fun v => Key.encode v.keyText n).toFinset

def run (n : Nat) (L : Ledger) (ws : List OrderedWrite) : Ledger :=
  ws.foldl (fun L w => (L.step n w).1) L

theorem move_ne_chainCorruption (L : Ledger) (path : String) (before : Finset String)
    (ks : List String) : (L.move path before ks).2 ≠ some .chainCorruption := by
  induction ks generalizing L with
  | nil => simp [move]
  | cons key ks ih =>
    have hone : (if key ∈ before then L.remove path key else L.insert path key).2
        ≠ some .chainCorruption := by
      unfold remove insert
      split <;> split <;> simp
    unfold move
    split
    · next L' e hr => rw [hr] at hone; exact hone
    · exact ih _

theorem step_ne_chainCorruption (n : Nat) (L : Ledger) (w : OrderedWrite) :
    (L.step n w).2 ≠ some .chainCorruption := by
  cases w with
  | keys w =>
    cases w with
    | insert path key => simp only [step, insert]; split <;> simp
    | remove path key => simp only [step, remove]; split <;> simp
    | update path before after => exact L.move_ne_chainCorruption path _ _
  | values path before after => exact L.move_ne_chainCorruption path _ _

theorem mem_keys {L : Ledger} : key ∈ L.keys ↔ ∃ a, (key, a) ∈ L := by
  simp [keys]

theorem mem_sortedKeys {L : Ledger} : key ∈ L.sortedKeys d ↔ key ∈ L.keys := by
  cases d <;> simp [sortedKeys]

theorem length_sortedKeys (L : Ledger) (d : Direction) :
    (L.sortedKeys d).length = L.keys.card := by
  cases d <;> simp [sortedKeys]

theorem sortedKeys_pairwise (L : Ledger) (d : Direction) :
    (L.sortedKeys d).Pairwise d.precedes := by
  cases d with
  | ascending => exact L.keys.sortedLT_sort.pairwise
  | descending => exact L.keys.sortedGT_sort.pairwise

end Ledger

/-! ## The steps of an update -/

def Change.of (before : List String) (key : String) : Change :=
  if key ∈ before then .remove key else .insert key

theorem Change.between_eq (before after : List String) : between before after
      = ((symmDiff before.toFinset after.toFinset).sort (· ≤ ·)).map (of before) := by
  have hf : between before after = (KeySet.ofList (before ++ after)).filterMap fun key =>
      if key ∈ symmDiff before.toFinset after.toFinset then some (of before key) else none := by
    apply List.filterMap_congr
    intro key hkey
    rw [KeySet.mem_ofList, List.mem_append] at hkey
    simp only [Finset.mem_symmDiff, List.mem_toFinset, of]
    by_cases hb : key ∈ before
    · by_cases ha : key ∈ after <;> simp [hb, ha]
    · have ha : key ∈ after := hkey.resolve_left hb
      simp [hb, ha]
  have hs : (KeySet.ofList (before ++ after)).filter
      (fun key => key ∈ symmDiff before.toFinset after.toFinset)
        = (symmDiff before.toFinset after.toFinset).sort (· ≤ ·) := by
    refine ((KeySet.sorted_ofList _).filter _).eq_of_mem_iff
      (Finset.sortedLT_sort _).pairwise ?_
    intro key
    rw [List.mem_filter, Finset.mem_sort, KeySet.mem_ofList]
    simp only [Finset.mem_symmDiff, List.mem_toFinset, List.mem_append, decide_eq_true_eq]
    tauto
  rw [hf, ← hs, ← List.filterMap_eq_map, List.filterMap_filter]
  simp

/-! ## An index and its ledger -/

/-- the kind of error that a write ends with -/
def Outcome.errorKind (out : Outcome σ α) : Option ErrorKind :=
  match out.answer with
  | .ok _ => none
  | .error e => some e.kind

theorem Outcome.answer_of_errorKind {out : Outcome σ Unit} (h : out.errorKind = none) :
    out.answer = .ok () := by
  unfold errorKind at h
  cases ha : out.answer with
  | ok _ => rfl
  | error e =>
    rw [ha] at h
    cases h

/-- the index holds the pairs of the ledger and nothing else -/
structure Tracks (d : Direction) (L : Ledger) (t : Node σ) : Prop where
  kept : ∃ keys, t.Kept d keys
  pairs : ∀ k a, t.HasMatch (k :: a) ↔ (k, a) ∈ L

/-- a write to an index and a write to its ledger come to the same -/
structure Agrees (d : Direction) (r : Ledger × Option ErrorKind) (out : Outcome σ α) : Prop where
  tracks : Tracks d r.1 out.tree
  kind : out.errorKind = r.2

theorem Tracks.empty (d : Direction) (m : σ) : Tracks d ∅ (Node.empty m) where
  kept := ⟨[], .empty d m⟩
  pairs k a := by simp [not_hasMatch_empty]

namespace Agrees

variable {r : Ledger × Option ErrorKind}

theorem failed {L : Ledger} {e : Error} (h : Tracks d L t) (he : e.kind = .invalidKey) :
    Agrees d (L, some .invalidKey) (.failed t e : Outcome σ α) :=
  ⟨h, congrArg some he⟩

theorem silent {out : Outcome σ Unit} (h : Agrees d r out) :
    Agrees d r (Command.silent out) := by
  obtain ⟨htracks, hkind⟩ := h
  unfold Command.silent Outcome.andThen
  unfold Outcome.errorKind at hkind
  cases ha : out.answer with
  | ok _ =>
    rw [ha] at hkind
    exact ⟨htracks, hkind⟩
  | error e =>
    rw [ha] at hkind
    exact ⟨htracks, hkind⟩

end Agrees

namespace Tracks

variable {L : Ledger}

theorem insert_agrees (h : Tracks o.direction L t) (m : σ) (path key : String) :
    Agrees o.direction (L.insert path key) ((Index.ordered o).insert m t path key) := by
  obtain ⟨⟨keys, hk⟩, hp⟩ := h
  unfold Ledger.insert
  by_cases hu : Key.Usable key
  · obtain ⟨t', keys', hi, hk', hm⟩ := hk.insert hu m path
    rw [if_pos hu, hi]
    refine ⟨⟨⟨keys', hk'⟩, ?_⟩, rfl⟩
    intro k a
    rw [Outcome.tree_done, hm, hp, Finset.mem_insert, Prod.mk.injEq]
  · obtain ⟨e, he, hi⟩ := insert_unusable hu o m t path
    rw [if_neg hu, hi]
    exact .failed ⟨⟨keys, hk⟩, hp⟩ he

theorem remove_agrees (h : Tracks o.direction L t) (ho : o.lookup.Sound o.direction) (m : σ)
    (path key : String) :
    Agrees o.direction (L.remove path key) ((Index.ordered o).remove m t path key) := by
  obtain ⟨⟨keys, hk⟩, hp⟩ := h
  unfold Ledger.remove
  by_cases hs : key = startName
  · rw [if_pos hs, hs, remove_startName]
    exact .failed ⟨⟨keys, hk⟩, hp⟩ rfl
  · obtain ⟨t', keys', hr, hk', hm⟩ := hk.remove ho hs m path
    rw [if_neg hs, hr]
    refine ⟨⟨⟨keys', hk'⟩, ?_⟩, rfl⟩
    intro k a
    rw [Outcome.tree_done, hm, hp, Finset.mem_erase, ne_eq, Prod.mk.injEq]

/-- the steps of an update are those of the ledger, one after the other -/
theorem move_agrees (h : Tracks o.direction L t) (ho : o.lookup.Sound o.direction) (m : σ)
    (path : String) (before ks : List String) :
    Agrees o.direction (L.move path before.toFinset ks)
      ((Index.ordered o).applyAll m t path (ks.map (Change.of before))) := by
  induction ks generalizing t L with
  | nil => exact ⟨h, rfl⟩
  | cons key ks ih =>
    have hstep : Agrees o.direction
        (if key ∈ before.toFinset then L.remove path key else L.insert path key)
        ((Index.ordered o).apply m t path (Change.of before key)) := by
      unfold Change.of
      by_cases hb : key ∈ before
      · rw [if_pos hb, if_pos (List.mem_toFinset.2 hb)]
        exact h.remove_agrees ho m path key
      · rw [if_neg hb, if_neg (mt List.mem_toFinset.1 hb)]
        exact h.insert_agrees m path key
    rw [List.map_cons]
    unfold Ledger.move Index.applyAll Outcome.andThen
    generalize (if key ∈ before.toFinset then L.remove path key else L.insert path key) = r at hstep
    generalize (Index.ordered o).apply m t path (Change.of before key) = out at hstep
    obtain ⟨L', e⟩ := r
    obtain ⟨htracks, hkind⟩ := hstep
    unfold Outcome.errorKind at hkind
    cases ha : out.answer with
    | ok _ =>
      rw [ha] at hkind
      subst hkind
      exact ih htracks
    | error e' =>
      rw [ha] at hkind
      subst hkind
      exact ⟨htracks, rfl⟩

theorem update_agrees (h : Tracks o.direction L t) (ho : o.lookup.Sound o.direction) (m : σ)
    (path : String) (before after : List String) :
    Agrees o.direction (L.update path before.toFinset after.toFinset)
      ((Index.ordered o).update m t path before after) := by
  unfold Ledger.update Index.update
  rw [Change.between_eq]
  exact h.move_agrees ho m path before _

theorem updateValues_agrees (h : Tracks o.direction L t) (ho : o.lookup.Sound o.direction) (m : σ)
    (path : String) (before after : List Value) :
    Agrees o.direction (L.step o.maxKeyLength (.values path before after))
      (o.updateValues m t path before after) := by
  have hkeys : ∀ vs : List Value, (Key.encodeAll vs o.maxKeyLength).toFinset
      = (vs.map fun v => Key.encode v.keyText o.maxKeyLength).toFinset := by
    intro vs
    ext key
    rw [List.mem_toFinset, List.mem_toFinset, Key.encodeAll, KeySet.mem_ofList]
  have hu := h.update_agrees ho m path (Key.encodeAll before o.maxKeyLength)
    (Key.encodeAll after o.maxKeyLength)
  rw [hkeys, hkeys] at hu
  exact hu

end Tracks

namespace OrderedWrite

variable {L : Ledger}

theorem agrees (h : Tracks o.direction L t) (ho : o.lookup.Sound o.direction) (m : σ)
    (w : OrderedWrite) :
    Agrees o.direction (L.step o.maxKeyLength w) ((w.command o).run m t) := by
  cases w with
  | keys w =>
    cases w with
    | insert path key => exact (h.insert_agrees m path key).silent
    | remove path key => exact (h.remove_agrees ho m path key).silent
    | update path before after => exact (h.update_agrees ho m path before after).silent
  | values path before after => exact (h.updateValues_agrees ho m path before after).silent

theorem tracks_runAll (h : Tracks o.direction L t) (ho : o.lookup.Sound o.direction)
    (ws : List (σ × OrderedWrite)) :
    Tracks o.direction (L.run o.maxKeyLength (ws.map Prod.snd))
      (Command.runAll t (ws.map fun x => (x.1, x.2.command o))) := by
  induction ws generalizing t L with
  | nil => exact h
  | cons x ws ih =>
    rw [List.map_cons, List.map_cons, Command.runAll_cons]
    exact ih (agrees h ho x.1 x.2).tracks

theorem tracks_tree (d : Direction) (n : Nat) (m₀ : σ) (ws : List (σ × OrderedWrite)) :
    Tracks d (Ledger.run n ∅ (ws.map Prod.snd)) (tree (.scanning d n) m₀ ws) := by
  have h : Tracks (OrderedIndex.scanning d n : OrderedIndex σ).direction ∅ (.empty m₀) :=
    .empty d m₀
  exact tracks_runAll h (Lookup.sound_scan d) ws

end OrderedWrite

/-! ## What an index shows of its ledger -/

/-- the matches are the pairs of the ledger, the check passes and counts them, the entries are the
keys in order, and an index contains just these keys -/
structure Shows (o : OrderedIndex σ) (L : Ledger) (t : Node σ) : Prop where
  matched : ∀ k a, t.HasMatch (k :: a) ↔ (k, a) ∈ L
  check : t.checkChain o.direction = .ok ⟨L.keys.card, L.card,
    (L.sortedKeys o.direction).head?, (L.sortedKeys o.direction).getLast?⟩
  entries : (Index.ordered o).entries t = (L.sortedKeys o.direction).map t.item
  contains : ∀ k, (Index.ordered o).containsKey t k = true ↔ k ∈ L.keys

theorem Node.Kept.soundChain {keys : List String} (h : t.Kept d keys) : t.SoundChain d keys where
  head s hs := by
    have hocc := occupied_eq_false_iff.1 (h.head s hs)
    exact hocc
  linked := h.linked
  ordered := List.isChain_iff_pairwise.2 h.ordered
  matched := h.matched
  complete k c hc hk _ := h.complete k c hc hk

theorem Node.Kept.containsKey_iff {keys : List String} (h : t.Kept d keys) (o : OrderedIndex σ)
    (k : String) : (Index.ordered o).containsKey t k = true ↔ k ∈ keys := by
  unfold Index.containsKey
  rw [Bool.and_eq_true, decide_eq_true_eq]
  constructor
  · intro hx
    obtain ⟨hs, hp⟩ := hx
    cases hc : t.child? k with
    | none => rw [hc] at hp; cases hp
    | some c => exact h.complete k c hc hs
  · intro hk
    obtain ⟨c, hc⟩ := h.exists_child hk
    obtain ⟨x, hx⟩ := h.text k c hc
    refine ⟨h.ne_startName hk, ?_⟩
    rw [hc, Option.map_some, Option.getD_some, hasProp, hx]
    rfl

theorem Tracks.shows {L : Ledger} (h : Tracks o.direction L t) : Shows o L t := by
  obtain ⟨⟨keys, hk⟩, hp⟩ := h
  have hmem : ∀ k, k ∈ keys ↔ k ∈ L.keys := by
    intro k
    rw [hk.mem_iff, Ledger.mem_keys]
    exact exists_congr (hp k)
  have hkeys : keys = L.sortedKeys o.direction := by
    apply hk.ordered.eq_of_mem_iff (L.sortedKeys_pairwise _)
    intro k
    rw [hmem, Ledger.mem_sortedKeys]
  have hcount : t.matchTotal keys = L.card := by
    have he : t.matchPairs keys = (L : Set (String × List String)) := by
      ext ⟨k, a⟩
      refine ⟨fun hx => (hp k a).1 hx.2, ?_⟩
      intro hx
      have ha := (hp k a).2 hx
      exact ⟨hk.mem_of_hasMatch ha, ha⟩
    rw [matchTotal_eq_ncard hk.neat.sorted hk.soundChain.nodup, he, Set.ncard_coe_finset]
  refine ⟨hp, ?_, ?_, ?_⟩
  · refine (checkChain_eq_ok_iff hk.neat.sorted).2 ⟨keys, hk.soundChain, ?_⟩
    rw [metrics, hcount, hkeys, L.length_sortedKeys]
  · rw [← hkeys]
    exact chain_of_linked hk.linked
  · intro k
    rw [hk.containsKey_iff, hmem]

/-- **An index is a ledger of its matches**: after every run of writes, the next write fails with
the kind of error with which it fails on the ledger, which is never a corruption, and afterwards the
index shows the ledger: its matches, its metrics, its entries and the keys that it contains. -/
theorem OrderedWrite.shows_ledger (d : Direction) (n : Nat) (m₀ : σ)
    (ws : List (σ × OrderedWrite)) (m : σ) (w : OrderedWrite) :
    let o : OrderedIndex σ := .scanning d n
    let out := (w.command o).run m (tree o m₀ ws)
    let next := (Ledger.run n ∅ (ws.map Prod.snd)).step n w
    out.errorKind = next.2 ∧ next.2 ≠ some .chainCorruption ∧ Shows o next.1 out.tree := by
  intro o out next
  have ho : o.lookup.Sound o.direction := Lookup.sound_scan d
  have ht : Tracks o.direction (Ledger.run n ∅ (ws.map Prod.snd)) (tree o m₀ ws) :=
    tracks_tree d n m₀ ws
  have hout : Agrees o.direction next out := agrees ht ho m w
  exact ⟨hout.kind, Ledger.step_ne_chainCorruption n _ w, hout.tracks.shows⟩

example : (OrderedWrite.tree (.scanning .descending 100) ()
      [((), .keys (.insert "p" "a")), ((), .keys (.update "p/q" [] ["b", ":start"])),
        ((), .keys (.insert "p" "c")), ((), .keys (.remove "/p" "c"))]).checkChain .descending
    = .ok ⟨1, 1, some "a", some "a"⟩ := by decide +kernel

/-! ## The history of an index -/

/-- **The history of an index leaves no trace**: two runs after which the same matches are there,
and a head in both trees or in neither, leave the same tree, whatever was written, taken back or
refused on the way. -/
theorem OrderedWrite.tree_eq_of_same_matches (d : Direction) (n n' : Nat) (m₀ m₀' : σ)
    (ws ws' : List (σ × OrderedWrite))
    (hm : ∀ k a, (tree (.scanning d n) m₀ ws).HasMatch (k :: a) ↔
      (tree (.scanning d n') m₀' ws').HasMatch (k :: a))
    (hs : (tree (.scanning d n) m₀ ws).hasChild startName
      = (tree (.scanning d n') m₀' ws').hasChild startName) :
    (tree (.scanning d n) m₀ ws).forget = (tree (.scanning d n') m₀' ws').forget := by
  obtain ⟨keys, hk⟩ := (tracks_tree d n m₀ ws).kept
  obtain ⟨keys', hk'⟩ := (tracks_tree d n' m₀' ws').kept
  exact hk.forget_eq hk' hm hs

theorem OrderedWrite.tree_eq_of_same_matches_two_keys :
    let o : OrderedIndex Unit := .scanning .ascending 100
    let ws : List OrderedWrite := [.keys (.insert "p" "a"), .keys (.insert "p/q" "b")]
    let ws' : List OrderedWrite := [.keys (.insert "x" "c"), .keys (.insert "/p/q" "b"),
      .keys (.insert "p" "no/key"), .keys (.update "p" ["c"] ["a"]), .keys (.remove "x" "c")]
    (tree o () (ws.map (Prod.mk ()))).forget = (tree o () (ws'.map (Prod.mk ()))).forget := by
  intro o ws ws'
  have h : (tree o () (ws.map (Prod.mk ()))).Sorted := by decide +kernel
  have h' : (tree o () (ws'.map (Prod.mk ()))).Sorted := by decide +kernel
  have hm : (tree o () (ws.map (Prod.mk ()))).matchAddresses
      = (tree o () (ws'.map (Prod.mk ()))).matchAddresses := by decide +kernel
  refine tree_eq_of_same_matches .ascending 100 100 () () _ _ ?_ (by decide +kernel)
  intro k a
  rw [← mem_matchAddresses h, ← mem_matchAddresses h', hm]

end PropertyIndex
