import PropertyIndex.Command
import PropertyIndex.Proofs.Index.Effects

/-!
# Runs of writes to an ordered index

* `Write`, `OrderedWrite`, `ChainWrite`   what may be asked of an index, from its matches alone to
                         the entries themselves;
* `Command.runAll`       the tree after some commands;
* `Sustains`             an outcome in which the chain is whole, the head is kept, and no corruption
                         was met;
* `ChainWrite.sustains`  every write has such an outcome, except pruning the head;
* `ChainWrite.wholeChain_run`   after every run, the chain of the index is whole.
-/

namespace PropertyIndex

variable {σ : Type} {m : σ} {d : Direction} {t t' : Node σ} {keys : List String} {key : String}
  {o : OrderedIndex σ} {α β : Type}

open Node

/-! ## Writes and runs -/

/-- a write of matches -/
inductive Write where
  | insert (path key : String)
  | remove (path key : String)
  | update (path : String) (before after : List String)

/-- a write of matches that may take its keys from values -/
inductive OrderedWrite where
  | keys (w : Write)
  | values (path : String) (before after : List Value)

/-- a write to a chain: beside matches, entries are pruned, and fetched to set properties other than
their pointers -/
inductive ChainWrite where
  | ordered (w : OrderedWrite)
  | prune (key : String) (segments : List String)
  | fetch (key : String) (props : List (String × Value)) (own : ∀ p ∈ props, p.1 ≠ nextName)

def Write.command (i : Index σ) : Write → Command σ
  | .insert path key => .insert i path key
  | .remove path key => .remove i path key
  | .update path before after => .update i path before after

def OrderedWrite.command (o : OrderedIndex σ) : OrderedWrite → Command σ
  | .keys w => w.command (.ordered o)
  | .values path before after => .updateValues o path before after

def ChainWrite.command (o : OrderedIndex σ) : ChainWrite → Command σ
  | .ordered w => w.command o
  | .prune key segments => .prune (.ordered o) key segments
  | .fetch key props _ => .fetch (.ordered o) key props

/-- the index of a direction and a key length that scans its chain -/
def OrderedIndex.scanning (d : Direction) (maxKeyLength : Nat) : OrderedIndex σ :=
  ⟨d, maxKeyLength, Lookup.scan⟩

/-- the tree after some commands, each with its mark -/
def Command.runAll (t : Node σ) (cs : List (σ × Command σ)) : Node σ :=
  cs.foldl (fun t x => (x.2.run x.1 t).tree) t

/-- the tree after some writes of matches to an empty index -/
def OrderedWrite.tree (o : OrderedIndex σ) (m₀ : σ) (ws : List (σ × OrderedWrite)) : Node σ :=
  Command.runAll (.empty m₀) (ws.map fun x => (x.1, x.2.command o))

/-- the tree after some writes to an empty chain -/
def ChainWrite.tree (o : OrderedIndex σ) (m₀ : σ) (ws : List (σ × ChainWrite)) : Node σ :=
  Command.runAll (.empty m₀) (ws.map fun x => (x.1, x.2.command o))

theorem Command.runAll_cons (t : Node σ) (x : σ × Command σ) (cs : List (σ × Command σ)) :
    runAll t (x :: cs) = runAll (x.2.run x.1 t).tree cs := rfl

/-! ## Outcomes that sustain the chain -/

/-- an outcome in which the chain is whole, the head is kept, and no corruption was met -/
structure Sustains (d : Direction) (t : Node σ) (out : Outcome σ α) : Prop where
  chained : ∃ keys, out.tree.Chained d keys
  start : t.hasChild startName = true → out.tree.hasChild startName = true
  clean : ∀ c, out.answer ≠ .error (.corruption c)

namespace Sustains

theorem done (ht' : t'.Chained d keys)
    (hs : t.hasChild startName = true → t'.hasChild startName = true) :
    Sustains d t (.done t') := ⟨⟨keys, ht'⟩, hs, fun _ e => by cases e⟩

theorem failed {e : Error} (ht : t.Chained d keys) (he : e.kind = .invalidKey) :
    Sustains d t (.failed t e : Outcome σ α) := by
  refine ⟨⟨keys, ht⟩, id, ?_⟩
  intro c hc
  cases hc
  cases he

theorem andThen {out : Outcome σ α} {f : Node σ → α → Outcome σ β} (h : Sustains d t out)
    (hf : ∀ keys a, out.tree.Chained d keys → Sustains d out.tree (f out.tree a)) :
    Sustains d t (out.andThen f) := by
  obtain ⟨⟨keys, ht⟩, hs, hclean⟩ := h
  unfold Outcome.andThen
  cases ha : out.answer with
  | ok a =>
    obtain ⟨hk, hs', hclean'⟩ := hf keys a ht
    exact ⟨hk, fun h => hs' (hs h), hclean'⟩
  | error e => exact ⟨⟨keys, ht⟩, hs, fun c hc => hclean c (by rw [ha]; cases hc; rfl)⟩

theorem silent {out : Outcome σ Unit} (h : Sustains d t out) :
    Sustains d t (Command.silent out) :=
  h.andThen fun keys _ ht => ⟨⟨keys, ht⟩, id, fun _ e => by cases e⟩

end Sustains

/-! ## Every write sustains the chain -/

namespace Node.Chained

theorem insert_sustains (h : t.Chained o.direction keys) (m : σ) (path key : String) :
    Sustains o.direction t ((Index.ordered o).insert m t path key) := by
  by_cases hu : Key.Usable key
  · obtain ⟨t', keys', hi, h', hmem, _⟩ := h.insert hu m path
    rw [hi]
    exact .done h' fun _ => h'.hasChild_startName (List.ne_nil_of_mem ((hmem key).2 (.inl rfl)))
  · obtain ⟨e, he, hi⟩ := insert_unusable hu o m t path
    rw [hi]
    exact .failed h he

theorem remove_sustains (h : t.Chained o.direction keys) (ho : o.lookup.Sound o.direction) (m : σ)
    (path key : String) : Sustains o.direction t ((Index.ordered o).remove m t path key) := by
  by_cases hs : key = startName
  · rw [hs, remove_startName]
    exact .failed h rfl
  cases hc : t.child? key with
  | none =>
    rw [Index.remove_of_none _ (isReserved_ordered o hs) hc]
    exact .done h id
  | some c =>
    obtain ⟨t', keys', hr, h', hstart⟩ := (h.remove_entry ho hc hs m path).chained h hc hs
      (prop?_unmark m _ c (by decide))
    rw [hr]
    exact .done h' hstart

theorem prune_sustains (h : t.Chained o.direction keys) (ho : o.lookup.Sound o.direction)
    (hs : key ≠ startName ∨ t.hasChild startName = false) (m : σ) (segments : List String) :
    Sustains o.direction t (o.prune m t key segments) := by
  cases hc : t.child? key with
  | none =>
    rw [← Index.prune_ordered, Index.prune_of_none _ hc]
    exact .done h id
  | some c =>
    have hne : key ≠ startName := by
      rintro rfl
      rcases hs with hs | hs
      · exact hs rfl
      · rw [hasChild_eq_false_iff, hc] at hs
        cases hs
    obtain ⟨t', keys', hr, h', hstart⟩ := (h.prune_entry ho hc hne m segments).chained h hc hne
      (prop?_prunePath m segments c nextName)
    rw [hr]
    exact .done h' hstart

theorem apply_sustains (h : t.Chained o.direction keys) (ho : o.lookup.Sound o.direction) (m : σ)
    (path : String) (c : Change) : Sustains o.direction t ((Index.ordered o).apply m t path c) := by
  cases c with
  | insert key => exact h.insert_sustains m path key
  | remove key => exact h.remove_sustains ho m path key

theorem applyAll_sustains (h : t.Chained o.direction keys) (ho : o.lookup.Sound o.direction)
    (m : σ) (path : String) (cs : List Change) :
    Sustains o.direction t ((Index.ordered o).applyAll m t path cs) := by
  induction cs generalizing t keys with
  | nil => exact .done h id
  | cons c cs ih => exact (h.apply_sustains ho m path c).andThen fun keys' _ h' => ih h'

end Node.Chained

theorem Node.prop?_setProps {name : String} (l : List (String × Value)) (n : Node σ)
    (h : ∀ p ∈ l, p.1 ≠ name) : (n.setProps l).prop? name = n.prop? name := by
  induction l generalizing n with
  | nil => rfl
  | cons p l ih =>
    have hp : name ≠ p.1 := (h p List.mem_cons_self).symm
    show ((n.setProp p.1 p.2).setProps l).prop? name = n.prop? name
    rw [ih _ fun q hq => h q (List.mem_cons_of_mem p hq), prop?_setProp, if_neg hp]

theorem Node.Chained.fetch_sustains (h : t.Chained o.direction keys) (m : σ) (key : String)
    {props : List (String × Value)} (own : ∀ p ∈ props, p.1 ≠ nextName) :
    Sustains o.direction t ((Command.fetch (.ordered o) key props).run m t) := by
  have hrun : (Command.fetch (.ordered o) key props).run m t
      = (o.fetch m t key).andThen fun t _ =>
        ⟨t.grow m [key] (·.setProps props),
          .ok ((((t.grow m [key] (·.setProps props)).child? key).map Answer.node).getD
            .missing)⟩ := rfl
  rw [hrun]
  by_cases hu : Key.Usable key
  · obtain ⟨t1, keys', hf, h1, hmem, _⟩ := h.fetch hu m
    have hkey := (hmem key).2 (.inl rfl)
    obtain ⟨c, hc⟩ := h1.exists_child hkey
    have hput := Put.grow m t1 key [] (·.setProps props)
    rw [hc, Option.getD_some] at hput
    have h2 := h1.put hput hc hu.2.2 (prop?_setProps props c own)
    rw [hf, Outcome.andThen_done]
    exact ⟨⟨keys', h2⟩, fun _ => h2.hasChild_startName (List.ne_nil_of_mem hkey),
      fun _ e => by cases e⟩
  · obtain ⟨e, he, hf⟩ := OrderedIndex.fetch_unusable hu o m t
    rw [hf, Outcome.andThen_failed]
    exact .failed h he

/-- whether a write asks for the head to be pruned -/
def ChainWrite.PrunesHead : ChainWrite → Prop
  | .prune key _ => key = startName
  | _ => False

namespace ChainWrite

/-- every write sustains the chain, unless it asks to prune a head that is there -/
theorem sustains (h : t.Chained o.direction keys) (ho : o.lookup.Sound o.direction) (m : σ)
    {w : ChainWrite} (hw : ¬ (w.PrunesHead ∧ t.hasChild startName = true)) :
    Sustains o.direction t ((w.command o).run m t) := by
  cases w with
  | ordered w =>
    cases w with
    | keys w =>
      cases w with
      | insert path key => exact (h.insert_sustains m path key).silent
      | remove path key => exact (h.remove_sustains ho m path key).silent
      | update path before after => exact (h.applyAll_sustains ho m path _).silent
    | values path before after => exact (h.applyAll_sustains ho m path _).silent
  | prune key segments =>
    refine (h.prune_sustains ho ?_ m segments).silent
    by_cases hs : key = startName
    · exact .inr (by simpa using fun hstart => hw ⟨hs, hstart⟩)
    · exact .inl hs
  | fetch key props own => exact h.fetch_sustains m key own

/-- pruning a head that is there changes nothing -/
theorem run_prunesHead (h : t.Chained o.direction keys) (ho : o.lookup.Sound o.direction) (m : σ)
    {w : ChainWrite} (hw : w.PrunesHead) (hs : t.hasChild startName = true) :
    ∃ t', (w.command o).run m t = .failed t' (.corruption (.unreachable startName)) ∧
      t'.forget = t.forget ∧ t'.Chained o.direction keys := by
  cases w with
  | prune key segments =>
    obtain rfl : key = startName := hw
    obtain ⟨c, hc⟩ := hasChild_iff.1 hs
    obtain ⟨t', hp, hforget, ht'⟩ := h.prune_startName ho hc m segments
    refine ⟨t', ?_, hforget, ht'⟩
    show Command.silent (o.prune m t startName segments) = _
    rw [hp]
    rfl
  | ordered w => exact hw.elim
  | fetch key props own => exact hw.elim

theorem chained_runAll (h : t.Chained o.direction keys) (ho : o.lookup.Sound o.direction)
    (ws : List (σ × ChainWrite)) : ∃ keys',
      (Command.runAll t (ws.map fun x => (x.1, x.2.command o))).Chained o.direction keys' := by
  induction ws generalizing t keys with
  | nil => exact ⟨keys, h⟩
  | cons x ws ih =>
    rw [List.map_cons, Command.runAll_cons]
    by_cases hw : x.2.PrunesHead ∧ t.hasChild startName = true
    · obtain ⟨t', hr, _, ht'⟩ := run_prunesHead h ho x.1 hw.1 hw.2
      rw [hr]
      exact ih ht'
    · obtain ⟨keys', h'⟩ := (sustains h ho x.1 hw).chained
      exact ih h'

end ChainWrite

/-! ## The chain after every run -/

namespace Node

/-- the children are a head without matches and children, and entries with a pointer each; the
pointers lead from the head to every entry once, in the order of the direction, and end there -/
structure Visited (d : Direction) (t : Node σ) (keys : List String) : Prop where
  head : ∃ s, t.child? startName = some s ∧ s.hasProp matchName = false ∧ s.children = []
  text : ∀ k c, t.child? k = some c → ∃ x, c.prop? nextName = some (.text x)
  linked : t.Linked keys
  nodup : keys.Nodup
  ordered : keys.Pairwise d.precedes
  others : ∀ k, k ∈ keys ↔ k ≠ startName ∧ t.hasChild k = true

/-- there are no children, or a head from which the pointers visit all others -/
def WholeChain (d : Direction) (t : Node σ) : Prop := t.children = [] ∨ ∃ keys, t.Visited d keys

theorem Chained.wholeChain (h : t.Chained d keys) : t.WholeChain d := by
  cases hs : t.child? startName with
  | none => exact .inl (h.children_eq_nil (hasChild_eq_false_iff.2 hs))
  | some s =>
    refine .inr ⟨keys, ⟨s, hs, occupied_eq_false_iff.1 (h.head s hs)⟩, h.text, h.linked,
      (List.nodup_cons.1 h.linked.nodup).2, h.ordered, fun k => ⟨?_, ?_⟩⟩
    · intro hk
      exact ⟨h.ne_startName hk, hasChild_iff.2 (h.exists_child hk)⟩
    · intro hk
      obtain ⟨c, hc⟩ := hasChild_iff.1 hk.2
      exact h.complete k c hc hk.1

theorem hasChild_forget (n : Node σ) (k : String) : n.forget.hasChild k = n.hasChild k := by
  unfold hasChild
  rw [child?_forget, Option.isSome_map]

end Node

/-- **The chain is whole after every run**: whatever was written before, a write leaves a tree
without children, or one whose pointers visit every entry from the head in order; it keeps the head;
and it answers with a corruption only when it asks to prune a head that is there, and then changes
nothing. -/
theorem ChainWrite.wholeChain_run (d : Direction) (n : Nat) (m₀ : σ)
    (ws : List (σ × ChainWrite)) (m : σ) (w : ChainWrite) :
    let o : OrderedIndex σ := .scanning d n
    let t := tree o m₀ ws
    let out := (w.command o).run m t
    out.tree.WholeChain d ∧
      (t.hasChild startName = true → out.tree.hasChild startName = true) ∧
      ((∃ c, out.answer = .error (.corruption c)) ↔
        w.PrunesHead ∧ t.hasChild startName = true) ∧
      (w.PrunesHead ∧ t.hasChild startName = true → out.tree.forget = t.forget) := by
  intro o t out
  have ho : o.lookup.Sound o.direction := Lookup.sound_scan d
  obtain ⟨keys, h⟩ : ∃ keys, t.Chained o.direction keys :=
    chained_runAll (.empty d m₀) ho ws
  by_cases hw : w.PrunesHead ∧ t.hasChild startName = true
  · obtain ⟨t', hr, hforget, ht'⟩ := run_prunesHead h ho m hw.1 hw.2
    have hout : out = .failed t' (.corruption (.unreachable startName)) := hr
    rw [hout]
    refine ⟨ht'.wholeChain, ?_, iff_of_true ⟨_, rfl⟩ hw, fun _ => hforget⟩
    intro hs
    rw [Outcome.tree_failed, ← hasChild_forget, hforget, hasChild_forget]
    exact hs
  · obtain ⟨⟨keys', h'⟩, hs, hclean⟩ := sustains h ho m hw
    exact ⟨h'.wholeChain, hs, iff_of_false (fun ⟨c, hc⟩ => hclean c hc) hw,
      fun hw' => absurd hw' hw⟩

end PropertyIndex
