import PropertyIndex.Proofs.Index.Mirrored

/-!
# Updates that are refused half-way

An update takes its keys in ascending order and stops at the first one that is refused.  A step that
is refused writes nothing, but the steps before it are done by then.

* `Index.refusal`         the error with which a step is refused, whatever the tree;
* `Index.Fits`            the tree of an index, of either kind, that holds its matches and nothing
                          else;
* `Fits.apply_done`       a step that is not refused: one match more, or one match less;
* `Fits.forget_eq`        such a tree is determined by its matches, and by whether it has its head;
* `Fits.applyAll_done`    several steps, none of them refused;
* `Fits.applyAll_eq`      an update comes to the steps before the first that is refused;
* `Index.update_unchanged_iff`   it leaves the tree as it was exactly if these steps find already
                          what they are to bring about.
-/

namespace PropertyIndex

variable {σ : Type} {m : σ} {t t' : Node σ} {i : Index σ} {path : String} {c : Change} {e : Error}

open Node

/-! ## Refused steps -/

/-- the error with which an index refuses a step of an update, whatever its tree is -/
def Index.refusal (i : Index σ) : Change → Option Error
  | .insert key =>
    match Key.check key with
    | .error e => some e
    | .ok () => if i.isReserved key then some (.reservedKey key) else none
  | .remove key => if i.isReserved key then some (.reservedKey key) else none

theorem Key.isFatal_of_check {key : String} (h : Key.check key = .error e) : e.isFatal = false := by
  unfold Key.check at h
  split at h
  · cases h
    rfl
  · split at h
    · cases h
      rfl
    · cases h

namespace Index

theorem isReserved_eq_true_iff {key : String} :
    i.isReserved key = true ↔ (∃ o, i = .ordered o) ∧ key = startName := by
  cases i with
  | unordered => simp [isReserved]
  | ordered o => simp [isReserved]

theorem refusal_insert_of_error {key : String} (h : Key.check key = .error e) :
    i.refusal (.insert key) = some e := by
  simp only [refusal, h]

theorem refusal_insert_of_ok {key : String} (h : Key.check key = .ok ()) :
    i.refusal (.insert key) = i.refusal (.remove key) := by
  simp only [refusal, h]

theorem refusal_remove (i : Index σ) (key : String) : i.refusal (.remove key)
    = if i.isReserved key then some (.reservedKey key) else none := rfl

theorem refusal_remove_eq_some_iff {key : String} : i.refusal (.remove key) = some e ↔
    i.isReserved key = true ∧ e = .reservedKey key := by
  rw [refusal_remove]
  split
  · next hr => simp [hr, eq_comm]
  · next hr => simp [hr]

theorem refusal_remove_eq_none_iff {key : String} :
    i.refusal (.remove key) = none ↔ i.isReserved key = false := by
  rw [refusal_remove]
  cases i.isReserved key <;> simp

theorem refusal_insert_eq_none_iff {key : String} : i.refusal (.insert key) = none ↔
    Key.check key = .ok () ∧ i.isReserved key = false := by
  cases h : Key.check key with
  | error e => simp [refusal_insert_of_error h]
  | ok _ => simp [refusal_insert_of_ok h, refusal_remove_eq_none_iff]

/-- a refusal is about the key, so it does not mean that the tree has to be given up -/
theorem isFatal_of_refusal (h : i.refusal c = some e) : e.isFatal = false := by
  cases c with
  | insert key =>
    cases hk : Key.check key with
    | error e' =>
      rw [refusal_insert_of_error hk] at h
      cases h
      exact Key.isFatal_of_check hk
    | ok _ =>
      rw [refusal_insert_of_ok hk, refusal_remove_eq_some_iff] at h
      rw [h.2]
      rfl
  | remove key =>
    rw [(refusal_remove_eq_some_iff.1 h).2]
    rfl

theorem fetch_of_check_error {key : String} (h : Key.check key = .error e) (i : Index σ) (m : σ)
    (t : Node σ) : i.fetch m t key = .failed t e := by
  cases i with
  | unordered =>
    unfold fetch
    rw [h]
  | ordered o =>
    unfold fetch OrderedIndex.fetch
    rw [h]

theorem fetch_startName (o : OrderedIndex σ) (m : σ) (t : Node σ) :
    (Index.ordered o).fetch m t startName = .failed t (.reservedKey startName) := by
  have hk : Key.check startName = .ok () := by decide
  unfold fetch OrderedIndex.fetch
  rw [hk]
  exact if_pos rfl

/-- a step that is refused writes nothing -/
theorem apply_of_refusal (h : i.refusal c = some e) (m : σ) (t : Node σ) (path : String) :
    i.apply m t path c = .failed t e := by
  cases c with
  | insert key =>
    have hf : i.fetch m t key = .failed t e := by
      cases hk : Key.check key with
      | error e' =>
        rw [refusal_insert_of_error hk] at h
        cases h
        exact fetch_of_check_error hk i m t
      | ok _ =>
        rw [refusal_insert_of_ok hk, refusal_remove_eq_some_iff] at h
        obtain ⟨hr, rfl⟩ := h
        obtain ⟨⟨o, rfl⟩, rfl⟩ := isReserved_eq_true_iff.1 hr
        exact fetch_startName o m t
    show i.insert m t path key = _
    unfold insert
    rw [hf, Outcome.andThen_failed]
  | remove key =>
    obtain ⟨hr, rfl⟩ := refusal_remove_eq_some_iff.1 h
    exact if_pos hr

end Index

/-! ## The trees of an index -/

/-- the tree holds the matches of the index and nothing else -/
def Index.Fits (i : Index σ) (t : Node σ) : Prop :=
  match i with
  | .unordered => t.Bare
  | .ordered o => ∃ keys, t.Kept o.direction keys

/-- an ordered index finds the entry before a key -/
def Index.Sound (i : Index σ) : Prop :=
  match i with
  | .unordered => True
  | .ordered o => o.lookup.Sound o.direction

namespace Node.Bare

/-- a tree of matches and nothing else is determined by them -/
theorem forget_eq (h : t.Bare) (h' : t'.Bare)
    (hm : ∀ k a, t.HasMatch (k :: a) ↔ t'.HasMatch (k :: a)) : t.forget = t'.forget :=
  h.tidy.forget_eq h'.tidy h.sorted h'.sorted List.not_mem_nil
    (fun _ hn => absurd hn List.not_mem_nil) (hasMatch_congr (h.props.trans h'.props.symm) hm)

end Node.Bare

/-- a step that finds already what it is to bring about -/
def Change.Idle (t : Node σ) (path : String) : Change → Prop
  | .insert key => t.HasMatch (key :: Path.segments path)
  | .remove key => ¬ t.HasMatch (key :: Path.segments path)

/-- the matches after a step: one more, or one less -/
def Change.Marks (path : String) (t t' : Node σ) : Change → Prop
  | .insert key => ∀ k a, t'.HasMatch (k :: a) ↔
      (k = key ∧ a = Path.segments path) ∨ t.HasMatch (k :: a)
  | .remove key => ∀ k a, t'.HasMatch (k :: a) ↔
      ¬ (k = key ∧ a = Path.segments path) ∧ t.HasMatch (k :: a)

/-- an idle step leaves the matches as they were -/
theorem Change.Marks.of_idle (h : c.Marks path t t') (hc : c.Idle t path) (k : String)
    (a : List String) : t.HasMatch (k :: a) ↔ t'.HasMatch (k :: a) := by
  cases c with
  | insert key =>
    rw [h k a]
    refine ⟨.inr, ?_⟩
    rintro (⟨rfl, rfl⟩ | hm)
    · exact hc
    · exact hm
  | remove key =>
    rw [h k a]
    refine ⟨fun hm => ⟨?_, hm⟩, And.right⟩
    rintro ⟨rfl, rfl⟩
    exact hc hm

namespace Index.Fits

theorem empty (i : Index σ) (m : σ) : i.Fits (.empty m) := by
  cases i with
  | unordered => exact Bare.empty m
  | ordered o => exact ⟨[], .empty o.direction m⟩

/-- a step that is not refused adds one match or takes one out, and nothing else -/
theorem apply_done (h : i.Fits t) (hs : i.Sound) (hc : i.refusal c = none) (m : σ)
    (path : String) : ∃ t', i.apply m t path c = .done t' ∧ i.Fits t' ∧ c.Marks path t t' := by
  cases i with
  | unordered =>
    cases c with
    | insert key => exact Bare.insert h (refusal_insert_eq_none_iff.1 hc).1 m path
    | remove key => exact Bare.remove h m path key
  | ordered o =>
    obtain ⟨keys, hk⟩ := h
    cases c with
    | insert key =>
      obtain ⟨hcheck, hr⟩ := refusal_insert_eq_none_iff.1 hc
      obtain ⟨h1, h2⟩ := Key.check_eq_ok_iff.1 hcheck
      have hstart : key ≠ startName := by simpa [isReserved] using hr
      obtain ⟨t', keys', hi, hk', hm⟩ := hk.insert ⟨h1, h2, hstart⟩ m path
      exact ⟨t', hi, ⟨keys', hk'⟩, hm⟩
    | remove key =>
      have hstart : key ≠ startName := by
        simpa [isReserved] using refusal_remove_eq_none_iff.1 hc
      obtain ⟨t', keys', hi, hk', hm⟩ := hk.remove hs hstart m path
      exact ⟨t', hi, ⟨keys', hk'⟩, hm⟩

theorem apply (h : i.Fits t) (hs : i.Sound) (m : σ) (path : String) (c : Change) :
    i.Fits (i.apply m t path c).tree := by
  cases hc : i.refusal c with
  | none =>
    obtain ⟨t', ht', h', _⟩ := h.apply_done hs hc m path
    rw [ht']
    exact h'
  | some e =>
    rw [apply_of_refusal hc]
    exact h

end Index.Fits

/-! ## The head -/

/-- an ordered index has its head; an unordered one needs none -/
def Index.Headed (i : Index σ) (t : Node σ) : Prop :=
  match i with
  | .unordered => True
  | .ordered _ => t.hasChild startName = true

namespace Index.Fits

theorem headed_of_hasMatch (h : i.Fits t) {key : String} {a : List String}
    (hm : t.HasMatch (key :: a)) : i.Headed t := by
  cases i with
  | unordered => exact trivial
  | ordered o =>
    obtain ⟨keys, hk⟩ := h
    exact hk.hasChild_startName (List.ne_nil_of_mem (hk.mem_of_hasMatch hm))

/-- the head is kept by every step, and made by an insertion -/
theorem headed_apply (h : i.Fits t) (hs : i.Sound) (hr : i.refusal c = none) (m : σ)
    (path : String) :
    i.Headed (i.apply m t path c).tree ↔ i.Headed t ∨ ∃ key, c = .insert key := by
  obtain ⟨t', ht', h', hm⟩ := h.apply_done hs hr m path
  cases i with
  | unordered => exact iff_of_true trivial (.inl trivial)
  | ordered o =>
    obtain ⟨keys, hk⟩ := h
    have hkept := (hk.toChained.apply_sustains hs m path c).start
    cases c with
    | insert key =>
      refine iff_of_true ?_ (.inr ⟨key, rfl⟩)
      rw [ht']
      exact h'.headed_of_hasMatch ((hm key _).2 (.inl ⟨rfl, rfl⟩))
    | remove key =>
      cases hstart : t.hasChild startName with
      | true => exact iff_of_true (hkept hstart) (.inl hstart)
      | false =>
        -- without a head there are no children, so there is nothing to take out
        have hnone : t.child? key = none := by
          unfold child?
          rw [hk.toChained.children_eq_nil hstart]
          rfl
        have ht : (Index.ordered o).remove m t path key = .done t :=
          remove_of_none _ (refusal_remove_eq_none_iff.1 hr) hnone m path
        show (Index.ordered o).Headed ((Index.ordered o).remove m t path key).tree ↔ _
        rw [ht]
        simp

/-- an index is determined by its matches, and by whether it has its head -/
theorem forget_eq (h : i.Fits t) (h' : i.Fits t')
    (hm : ∀ k a, t.HasMatch (k :: a) ↔ t'.HasMatch (k :: a)) (hhead : i.Headed t ↔ i.Headed t') :
    t.forget = t'.forget := by
  cases i with
  | unordered => exact Bare.forget_eq h h' hm
  | ordered o =>
    obtain ⟨keys, hk⟩ := h
    obtain ⟨keys', hk'⟩ := h'
    exact hk.forget_eq hk' hm (Bool.eq_iff_iff.2 hhead)

/-! ## Idle steps -/

/-- an idle step leaves the tree as it was -/
theorem apply_idle (h : i.Fits t) (hs : i.Sound) (hr : i.refusal c = none) (hc : c.Idle t path)
    (m : σ) : ∃ t', i.apply m t path c = .done t' ∧ i.Fits t' ∧ t'.forget = t.forget := by
  obtain ⟨t', ht', h', hm⟩ := h.apply_done hs hr m path
  have hhead := h.headed_apply hs hr m path
  rw [ht', Outcome.tree_done] at hhead
  refine ⟨t', ht', h', (h.forget_eq h' (hm.of_idle hc) ?_).symm⟩
  rw [hhead]
  refine ⟨.inl, ?_⟩
  rintro (hx | ⟨key, rfl⟩)
  · exact hx
  · exact h.headed_of_hasMatch hc

end Index.Fits

/-! ## Several steps -/

theorem Index.Fits.applyAll (h : i.Fits t) (hs : i.Sound) (m : σ) (path : String)
    (cs : List Change) : i.Fits (i.applyAll m t path cs).tree := by
  induction cs generalizing t with
  | nil => exact h
  | cons c cs ih =>
    rw [Index.applyAll, Outcome.andThen]
    split
    · exact ih (h.apply hs m path c)
    · exact h.apply hs m path c

theorem Change.keys_between_nodup (before after : List String) :
    ((between before after).map key).Nodup := by
  have hkey : key ∘ of before = id := funext (key_of before)
  rw [between_eq, List.map_map, hkey, List.map_id]
  exact Finset.sort_nodup _ _

theorem Node.hasMatch_forget (n : Node σ) (a : List String) : n.forget.HasMatch a ↔ n.HasMatch a := by
  induction a generalizing n with
  | nil =>
    have h : n.forget.props = n.props := by
      obtain ⟨m, ps, cs⟩ := n
      rfl
    rw [hasMatch_nil, hasMatch_nil, matched_iff, matched_iff, prop?, prop?, h]
  | cons k a ih =>
    rw [hasMatch_cons, hasMatch_cons, child?_forget]
    simp only [Option.map_eq_some_iff]
    constructor
    · rintro ⟨_, ⟨c, hc, rfl⟩, ha⟩
      exact ⟨c, hc, (ih c).1 ha⟩
    · rintro ⟨c, hc, ha⟩
      exact ⟨_, ⟨c, hc, rfl⟩, (ih c).2 ha⟩

theorem Change.Idle.congr (h : t.forget = t'.forget) : c.Idle t path ↔ c.Idle t' path := by
  have hm : ∀ a, t.HasMatch a ↔ t'.HasMatch a := by
    intro a
    rw [← hasMatch_forget, h, hasMatch_forget]
  cases c with
  | insert key => exact hm _
  | remove key => exact not_congr (hm _)

namespace Index.Fits

variable {cs : List Change}

theorem applyAll_idle (h : i.Fits t) (hs : i.Sound) (hr : ∀ c ∈ cs, i.refusal c = none)
    (hc : ∀ c ∈ cs, c.Idle t path) (m : σ) : (i.applyAll m t path cs).tree.forget = t.forget := by
  induction cs generalizing t with
  | nil => rfl
  | cons c cs ih =>
    obtain ⟨t', ht', h', hforget⟩ :=
      h.apply_idle hs (hr c List.mem_cons_self) (hc c List.mem_cons_self) m
    rw [Index.applyAll, ht', Outcome.andThen_done, ← hforget]
    refine ih h' (fun x hx => hr x (List.mem_cons_of_mem c hx)) fun x hx => ?_
    exact (Change.Idle.congr hforget).2 (hc x (List.mem_cons_of_mem c hx))

/-- steps for different keys, none of them refused, bring about what each of them is for -/
theorem applyAll_done (h : i.Fits t) (hs : i.Sound) (hr : ∀ c ∈ cs, i.refusal c = none)
    (hn : (cs.map Change.key).Nodup) (m : σ) (path : String) :
    ∃ t', i.applyAll m t path cs = .done t' ∧ i.Fits t' ∧ ∀ k a, t'.HasMatch (k :: a) ↔
      if a = Path.segments path then
        .insert k ∈ cs ∨ .remove k ∉ cs ∧ t.HasMatch (k :: a)
      else t.HasMatch (k :: a) := by
  induction cs generalizing t with
  | nil => exact ⟨t, rfl, h, fun k a => by simp⟩
  | cons c cs ih =>
    obtain ⟨hnot, hn⟩ := List.nodup_cons.1 hn
    obtain ⟨t1, ht1, h1, hm1⟩ := h.apply_done hs (hr c List.mem_cons_self) m path
    obtain ⟨t', ht', h', hm'⟩ := ih h1 (fun x hx => hr x (List.mem_cons_of_mem c hx)) hn
    refine ⟨t', by rw [Index.applyAll, ht1, Outcome.andThen_done, ht'], h', ?_⟩
    intro k a
    have hother : ∀ x ∈ cs, x.key ≠ c.key := fun x hx e => hnot (e ▸ List.mem_map_of_mem hx)
    rw [hm']
    cases c with
    | insert key =>
      have hrem : .remove key ∉ cs := fun hx => hother _ hx rfl
      rw [hm1 k a]
      by_cases hk : k = key
      · subst hk
        by_cases ha : a = Path.segments path <;> simp [ha, hrem]
      · simp [hk]
    | remove key =>
      have hins : .insert key ∉ cs := fun hx => hother _ hx rfl
      rw [hm1 k a]
      by_cases hk : k = key
      · subst hk
        by_cases ha : a = Path.segments path <;> simp [ha, hins]
      · simp [hk]

/-- steps that are not refused keep the head, and make it if there is an insertion among them -/
theorem headed_applyAll (h : i.Fits t) (hs : i.Sound) (hr : ∀ c ∈ cs, i.refusal c = none) (m : σ)
    (path : String) :
    i.Headed (i.applyAll m t path cs).tree ↔ i.Headed t ∨ ∃ key, .insert key ∈ cs := by
  induction cs generalizing t with
  | nil =>
    show i.Headed t ↔ _
    simp
  | cons c cs ih =>
    have hc := hr c List.mem_cons_self
    obtain ⟨t1, ht1, h1, _⟩ := h.apply_done hs hc m path
    have hhead := h.headed_apply hs hc m path
    rw [ht1, Outcome.tree_done] at hhead
    rw [Index.applyAll, ht1, Outcome.andThen_done,
      ih h1 fun x hx => hr x (List.mem_cons_of_mem c hx), hhead, or_assoc, ← exists_or]
    simp only [List.mem_cons, eq_comm (a := c)]

/-- steps for different keys, none of them refused, leave the tree as it was exactly if there is
nothing to bring about -/
theorem applyAll_forget_eq_iff (h : i.Fits t) (hs : i.Sound)
    (hr : ∀ c ∈ cs, i.refusal c = none) (hn : (cs.map Change.key).Nodup) (m : σ)
    (path : String) :
    (i.applyAll m t path cs).tree.forget = t.forget ↔ ∀ c ∈ cs, c.Idle t path := by
  refine ⟨?_, fun hc => h.applyAll_idle hs hr hc m⟩
  intro he c hc
  obtain ⟨t', ht', _, hm⟩ := h.applyAll_done hs hr hn m path
  rw [ht', Outcome.tree_done] at he
  rw [Change.Idle.congr he.symm]
  cases c with
  | insert key =>
    refine (hm key _).2 ?_
    rw [if_pos rfl]
    exact .inl hc
  | remove key =>
    -- no key has two steps
    have hins : .insert key ∉ cs := by
      intro hx
      have he := List.inj_on_of_nodup_map hn hx hc rfl
      cases he
    show ¬ _
    rw [hm key _, if_pos rfl]
    simp [hins, hc]

end Index.Fits

/-! ## Up to the first refused step -/

namespace Index

/-- the steps before the first that is refused -/
def accepted (i : Index σ) (cs : List Change) : List Change :=
  cs.takeWhile fun c => (i.refusal c).isNone

theorem accepted_cons_of_none (h : i.refusal c = none) (cs : List Change) :
    i.accepted (c :: cs) = c :: i.accepted cs :=
  List.takeWhile_cons_of_pos (by
    rw [h]
    rfl)

theorem accepted_cons_of_some (h : i.refusal c = some e) (cs : List Change) :
    i.accepted (c :: cs) = [] := List.takeWhile_cons_of_neg (by simp [h])

theorem refusal_of_mem_accepted {cs : List Change} (h : c ∈ i.accepted cs) :
    i.refusal c = none := by
  have hc := List.mem_takeWhile_imp h
  exact Option.isNone_iff_eq_none.1 hc

theorem keys_accepted_nodup {cs : List Change} (h : (cs.map Change.key).Nodup) :
    ((i.accepted cs).map Change.key).Nodup :=
  h.sublist ((List.takeWhile_sublist _).map _)

/-- an update answers with the first refusal, after the steps before it -/
theorem Fits.applyAll_eq (h : i.Fits t) (hs : i.Sound) (m : σ) (path : String)
    (cs : List Change) :
    i.applyAll m t path cs = ⟨(i.applyAll m t path (i.accepted cs)).tree,
      match cs.findSome? i.refusal with
      | none => .ok ()
      | some e => .error e⟩ := by
  induction cs generalizing t with
  | nil => rfl
  | cons c cs ih =>
    cases hc : i.refusal c with
    | none =>
      obtain ⟨t', ht', h', _⟩ := h.apply_done hs hc m path
      rw [accepted_cons_of_none hc, Index.applyAll, Index.applyAll, ht', Outcome.andThen_done,
        Outcome.andThen_done, ih h', List.findSome?_cons_of_isNone (by rw [hc]; rfl)]
    | some e =>
      have hall : i.applyAll m t path (c :: cs) = .failed t e := by
        rw [Index.applyAll, apply_of_refusal hc, Outcome.andThen_failed]
      rw [accepted_cons_of_some hc, hall, List.findSome?_cons_of_isSome (by rw [hc]; rfl), hc]
      rfl

/-! ## Updates after a run -/

/-- an unordered index, or one that scans its chain in a direction -/
def ofOrder (order : Option Direction) (maxKeyLength : Nat) : Index σ :=
  match order with
  | none => .unordered
  | some d => .ordered (.scanning d maxKeyLength)

theorem sound_ofOrder (order : Option Direction) (n : Nat) :
    (ofOrder order n : Index σ).Sound := by
  cases order with
  | none => exact trivial
  | some d => exact Lookup.sound_scan d

end Index

theorem Command.tree_silent (out : Outcome σ Unit) : (silent out).tree = out.tree := by
  unfold silent Outcome.andThen
  cases out.answer with
  | ok _ => rfl
  | error e => rfl

theorem Index.Fits.silent {out : Outcome σ Unit} (h : i.Fits out.tree) :
    i.Fits (Command.silent out).tree := by
  rwa [Command.tree_silent]

namespace Write

theorem fits_run (h : i.Fits t) (hs : i.Sound) (m : σ) (w : Write) :
    i.Fits ((w.command i).run m t).tree := by
  cases w with
  | insert path key => exact (h.apply hs m path (.insert key)).silent
  | remove path key => exact (h.apply hs m path (.remove key)).silent
  | update path before after => exact (h.applyAll hs m path _).silent

theorem fits_runAll (h : i.Fits t) (hs : i.Sound) (ws : List (σ × Write)) :
    i.Fits (Command.runAll t (ws.map fun x => (x.1, x.2.command i))) := by
  induction ws generalizing t with
  | nil => exact h
  | cons x ws ih => exact ih (fits_run h hs x.1 x.2)

end Write

/-- **An update that is refused half-way keeps what it has done**: it answers with its first
refusal, which does not mean that the tree has to be given up, the steps before it are done all the
same, and the tree is as it was exactly if these steps found everything already as they were to
leave it. -/
theorem Index.update_unchanged_iff (order : Option Direction) (n : Nat) (m₀ : σ)
    (ws : List (σ × Write)) (m : σ) (path : String) (before after : List String) :
    let i : Index σ := .ofOrder order n
    let t := Write.tree i m₀ ws
    let out := i.update m t path before after
    let steps := Change.between before after
    let done := i.accepted steps
    (∀ e, out.answer = .error e ↔ steps.findSome? i.refusal = some e) ∧
      (∀ e, out.answer = .error e → e.isFatal = false) ∧
      out.tree = (i.applyAll m t path done).tree ∧
      (out.tree.forget = t.forget ↔ ∀ c ∈ done, c.Idle t path) := by
  intro i t out steps done
  have hs : i.Sound := sound_ofOrder order n
  have h : i.Fits t := Write.fits_runAll (.empty i m₀) hs ws
  have hout : out = ⟨(i.applyAll m t path done).tree,
      match steps.findSome? i.refusal with
      | none => .ok ()
      | some e => .error e⟩ := h.applyAll_eq hs m path steps
  have hanswer : ∀ e, out.answer = .error e ↔ steps.findSome? i.refusal = some e := by
    intro e
    rw [hout]
    cases steps.findSome? i.refusal <;> simp
  refine ⟨hanswer, ?_, by rw [hout], ?_⟩
  · intro e he
    obtain ⟨c, _, hc⟩ := List.exists_of_findSome?_eq_some ((hanswer e).1 he)
    exact isFatal_of_refusal hc
  · rw [hout]
    exact h.applyAll_forget_eq_iff hs (fun c hc => refusal_of_mem_accepted hc)
      (keys_accepted_nodup (Change.keys_between_nodup before after)) m path

/-- a first key that can be one is there afterwards, though the update is refused for the second,
whichever kind of index it is -/
theorem Index.update_refused_midway :
    let out (order : Option Direction) :=
      (ofOrder order 100 : Index Unit).update () (.empty ()) "p" [] ["a", "b/c"]
    (Error.compoundKey "b/c").isFatal = false ∧
      (out none).answer = .error (.compoundKey "b/c") ∧ (out none).tree ≠ .empty () ∧
      (out (some .ascending)).answer = .error (.compoundKey "b/c") ∧
      (out (some .ascending)).tree ≠ .empty () := by
  decide +kernel

end PropertyIndex
