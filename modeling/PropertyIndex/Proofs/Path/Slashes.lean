import Mathlib.Logic.Relation
import PropertyIndex.Proofs.Path.Rendered

/-!
# Paths that differ only in slashes

A path with a slash more in front, behind or beside another slash is another text for the same
path.  Two texts that come from each other in this way have the same segments, and texts with the
same segments come from each other in this way: each one from the rendered path of its segments.

* `Path.DropsSlash`              one slash taken out at an end or beside another one;
* `Path.SameButSlashes`          what such steps, there and back, lead to;
* `Path.segments_append_slash`   the segments around a slash are those before and those after it;
* `Path.slash_induction`         a text is a word, or a word, a slash and another text;
* `Path.sameButSlashes_render`   a path and the rendered path of its segments;
* `Path.sameButSlashes_iff`      a path is known up to slashes by its segments;
* `Path.segments_exact`          what reading and rendering make of each other.
-/

namespace PropertyIndex.Path

variable {a p q : String} {l : List String}

/-! ## Segments around a slash -/

theorem pieces_ne_nil (cs : List Char) : pieces cs ≠ [] := by
  fun_cases pieces cs <;> exact List.cons_ne_nil _ _

theorem pieces_append_slash (cs r : List Char) :
    pieces (cs ++ '/' :: r) = pieces cs ++ pieces r := by
  induction cs with
  | nil => exact pieces_slash r
  | cons c cs ih =>
    rw [List.cons_append]
    by_cases hc : c = '/'
    · rw [hc, pieces_slash, pieces_slash, ih, List.cons_append]
    · -- the character goes to the first piece, with the slash behind it and without
      have hone : '/' ∉ [c] := by rwa [List.mem_singleton, eq_comm]
      obtain ⟨s, ss, hs⟩ := List.exists_cons_of_ne_nil (pieces_ne_nil cs)
      have hbehind : pieces (cs ++ '/' :: r) = s :: (ss ++ pieces r) := by
        rw [ih, hs, List.cons_append]
      calc pieces (c :: (cs ++ '/' :: r)) = (c :: s) :: (ss ++ pieces r) :=
            pieces_append hone hbehind
        _ = (c :: s) :: ss ++ pieces r := (List.cons_append ..).symm
        _ = pieces (c :: cs) ++ pieces r := congrArg (· ++ pieces r) (pieces_append hone hs).symm

theorem segments_append_slash (p q : String) :
    segments (p ++ "/" ++ q) = segments p ++ segments q := by
  have h : (p ++ "/" ++ q).toList = p.toList ++ '/' :: q.toList := by simp
  rw [segments, h, pieces_append_slash, List.filter_append, List.map_append]
  rfl

theorem segments_slash_append (p : String) : segments ("/" ++ p) = segments p := by
  have h := segments_append_slash "" p
  rwa [String.empty_append, segments_empty, List.nil_append] at h

/-! ## Rendered names -/

theorem render_singleton (a : String) : render [a] = "/" ++ a := by
  rw [← String.toList_inj]
  simp [render]

theorem render_cons (a : String) (hl : l ≠ []) : render (a :: l) = "/" ++ a ++ render l := by
  obtain ⟨b, l, rfl⟩ := List.exists_cons_of_ne_nil hl
  rw [← String.toList_inj]
  simp [render]

theorem exists_render_eq (hl : l ≠ []) : ∃ p, render l = "/" ++ p := by
  obtain ⟨b, l, rfl⟩ := List.exists_cons_of_ne_nil hl
  refine ⟨String.ofList (b.toList ++ l.flatMap fun t => '/' :: t.toList), ?_⟩
  rw [← String.toList_inj]
  simp [render]

theorem segments_of_isName (h : IsName a) : segments a = [a] := by
  rw [← segments_slash_append, ← render_singleton]
  exact segments_render (List.forall_mem_singleton.2 h)

/-! ## Slashes that do not count -/

/-- one slash taken out where it does not count: in front, behind, or beside another slash -/
inductive DropsSlash : String → String → Prop
  | leading (p : String) : DropsSlash ("/" ++ p) p
  | trailing (p : String) : DropsSlash (p ++ "/") p
  | repeated (p q : String) : DropsSlash (p ++ "//" ++ q) (p ++ "/" ++ q)

/-- texts that differ only in leading, trailing and repeated slashes -/
def SameButSlashes : String → String → Prop := Relation.EqvGen DropsSlash

theorem append_doubleSlash (p q : String) : p ++ "//" ++ q = p ++ "/" ++ ("/" ++ q) := by
  rw [← String.toList_inj]
  simp

theorem DropsSlash.segments_eq (h : DropsSlash p q) : segments p = segments q := by
  cases h with
  | leading => exact segments_slash_append q
  | trailing =>
    have h := segments_append_slash q ""
    rwa [String.append_empty, segments_empty, List.append_nil] at h
  | repeated p q =>
    rw [append_doubleSlash, segments_append_slash, segments_append_slash, segments_slash_append]

/-- what can be taken out can be taken out behind a slash: a leading one is a repeated one there -/
theorem DropsSlash.behind (a : String) (h : DropsSlash p q) :
    DropsSlash (a ++ "/" ++ p) (a ++ "/" ++ q) := by
  cases h with
  | leading =>
    rw [← append_doubleSlash]
    exact .repeated a q
  | trailing =>
    rw [← String.append_assoc]
    exact .trailing (a ++ "/" ++ q)
  | repeated p q =>
    have h := DropsSlash.repeated (a ++ "/" ++ p) q
    simpa only [String.append_assoc] using h

namespace SameButSlashes

theorem of_drops (h : DropsSlash p q) : SameButSlashes p q := Relation.EqvGen.rel p q h

protected theorem refl (p : String) : SameButSlashes p p := Relation.EqvGen.refl p

protected theorem symm (h : SameButSlashes p q) : SameButSlashes q p := Relation.EqvGen.symm p q h

instance : Trans SameButSlashes SameButSlashes SameButSlashes := ⟨Relation.EqvGen.trans _ _ _⟩

theorem segments_eq (h : SameButSlashes p q) : segments p = segments q := by
  induction h with
  | rel p q h => exact h.segments_eq
  | refl p => rfl
  | symm p q _ ih => exact ih.symm
  | trans p q r _ _ ihpq ihqr => exact ihpq.trans ihqr

theorem behind (a : String) (h : SameButSlashes p q) :
    SameButSlashes (a ++ "/" ++ p) (a ++ "/" ++ q) := by
  induction h with
  | rel p q h => exact of_drops (h.behind a)
  | refl p => exact .refl _
  | symm p q _ ih => exact ih.symm
  | trans p q r _ _ ihpq ihqr => exact Relation.EqvGen.trans _ _ _ ihpq ihqr

end SameButSlashes

/-! ## From a path to its rendered segments -/

/-- induction on the slashes of a text: it is a word, or a word, a slash and another text -/
theorem slash_induction {M : String → Prop} (word : ∀ a, '/' ∉ a.toList → M a)
    (slash : ∀ a p, '/' ∉ a.toList → M p → M (a ++ "/" ++ p)) (p : String) : M p := by
  -- `a` collects what was read since the last slash, `cs` is still to be read
  suffices h : ∀ cs a : List Char, '/' ∉ a → M (String.ofList (a ++ cs)) by
    simpa using h p.toList [] List.not_mem_nil
  intro cs
  induction cs with
  | nil =>
    intro a ha
    rw [List.append_nil]
    exact word _ (by rwa [String.toList_ofList])
  | cons c cs ih =>
    intro a ha
    by_cases hc : c = '/'
    · have e : String.ofList (a ++ c :: cs) = String.ofList a ++ "/" ++ String.ofList cs := by
        rw [← String.toList_inj, hc]
        simp
      rw [e]
      exact slash _ _ (by rwa [String.toList_ofList]) (ih [] List.not_mem_nil)
    · rw [← List.singleton_append, ← List.append_assoc]
      exact ih _ (by simp [ha, Ne.symm hc])

/-- a name before a rendered path, and the path rendered with it -/
theorem sameButSlashes_render_cons (a : String) (l : List String) :
    SameButSlashes (a ++ "/" ++ render l) (render (a :: l)) := by
  by_cases hl : l = []
  · rw [hl, render_singleton]
    calc SameButSlashes (a ++ "/" ++ "/") (a ++ "/") := .of_drops (.trailing _)
      SameButSlashes _ a := .of_drops (.trailing a)
      SameButSlashes _ ("/" ++ a) := .symm (.of_drops (.leading a))
  · obtain ⟨p, hp⟩ := exists_render_eq hl
    have e : "/" ++ a ++ ("/" ++ p) = "/" ++ (a ++ "/" ++ p) := by simp only [String.append_assoc]
    rw [render_cons a hl, hp, e]
    calc SameButSlashes (a ++ "/" ++ ("/" ++ p)) (a ++ "/" ++ p) :=
          .of_drops ((DropsSlash.leading p).behind a)
      SameButSlashes _ ("/" ++ (a ++ "/" ++ p)) := .symm (.of_drops (.leading _))

theorem sameButSlashes_render (p : String) : SameButSlashes p (render (segments p)) := by
  induction p using slash_induction with
  | word a ha =>
    by_cases h : a = ""
    · rw [h]
      exact .symm (.of_drops (.leading ""))
    · rw [segments_of_isName ⟨h, ha⟩, render_singleton]
      exact .symm (.of_drops (.leading a))
  | slash a p ha ih =>
    by_cases h : a = ""
    · rw [h, String.empty_append, segments_slash_append]
      calc SameButSlashes ("/" ++ p) p := .of_drops (.leading p)
        SameButSlashes _ (render (segments p)) := ih
    · rw [segments_append_slash, segments_of_isName ⟨h, ha⟩, List.singleton_append]
      calc SameButSlashes (a ++ "/" ++ p) (a ++ "/" ++ render (segments p)) := ih.behind a
        SameButSlashes _ (render (a :: segments p)) := sameButSlashes_render_cons a (segments p)

/-! ## A path up to slashes -/

theorem sameButSlashes_iff : SameButSlashes p q ↔ segments p = segments q := by
  refine ⟨SameButSlashes.segments_eq, fun h => ?_⟩
  calc SameButSlashes p (render (segments p)) := sameButSlashes_render p
    _ = render (segments q) := congrArg render h
    SameButSlashes _ q := (sameButSlashes_render q).symm

instance : DecidableRel SameButSlashes := fun _ _ => decidable_of_iff _ sameButSlashes_iff.symm

example : SameButSlashes "content//foo/" "/content/foo" ∧ ¬SameButSlashes "/a/b" "/ab" := by
  decide

theorem render_segments_inj : render (segments p) = render (segments q) ↔ segments p = segments q :=
  render_inj (fun _ => isName_of_mem_segments) fun _ => isName_of_mem_segments

/-- **Reading undoes rendering, and rendering what was read settles the slashes.**  The root is
rendered as one slash.  Lists of names are read back from their rendered path, so no two are
rendered alike.  Every text is read as a list of names, and two texts as the same list just if they
differ only in leading, trailing and repeated slashes, which is just if what was read is rendered
alike. -/
theorem segments_exact :
    render [] = "/" ∧
      (∀ l, (∀ s ∈ l, IsName s) → segments (render l) = l) ∧
      (∀ l m, (∀ s ∈ l, IsName s) → (∀ s ∈ m, IsName s) → render l = render m → l = m) ∧
      (∀ p, ∀ s ∈ segments p, IsName s) ∧
      ∀ p q, (segments p = segments q ↔ SameButSlashes p q) ∧
        (SameButSlashes p q ↔ render (segments p) = render (segments q)) := by
  refine ⟨rfl, fun l hl => segments_render hl, fun l m hl hm => (render_inj hl hm).1,
    fun p s hs => isName_of_mem_segments hs, fun p q => ⟨sameButSlashes_iff.symm, ?_⟩⟩
  rw [sameButSlashes_iff, render_segments_inj]

/-- names that come back from a rendered path, and from a text with more slashes -/
theorem segments_exact_moreSlashes :
    (∀ s ∈ ["content", "foo"], IsName s) ∧
      segments (render ["content", "foo"]) = ["content", "foo"] ∧
      render ["content", "foo"] = render (segments "content//foo/") ∧
      ["content", "foo"] = segments "content//foo/" := by
  have hl : ∀ s ∈ ["content", "foo"], IsName s := by decide
  have hm : ∀ s ∈ segments "content//foo/", IsName s := segments_exact.2.2.2.1 _
  have h : render ["content", "foo"] = render (segments "content//foo/") := by decide
  exact ⟨hl, segments_exact.2.1 _ hl, h, segments_exact.2.2.1 _ _ hl hm h⟩

end PropertyIndex.Path
