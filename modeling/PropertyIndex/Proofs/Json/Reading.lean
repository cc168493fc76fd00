import Mathlib.Data.List.Forall2
import PropertyIndex.Proofs.Json.Spelling

/-!
# Values are read from their tokens

* `value?_tokens`      the tokens of a value are read as the value, in any frame and whatever follows;
* `read?_of_spelled`   a document that spells the tokens of a value is read as that value;
* `Value.SpelledBy`    the characters spell a value, before anything that ends a word;
* `SpelledBy.spaces`   there may be spaces around a value;
* `SpelledBy.array`, `SpelledBy.object`   arrays and objects are spelled by what spells their parts,
                       with commas between.
-/

namespace PropertyIndex.Json

variable {fs : List Frame} {ts : List Token}

open Value

/-- no value begins with a closing bracket -/
theorem tokens_eq_cons (v : Value) : ∃ t r, v.tokens = t :: r ∧ t ≠ .closeArray := by
  cases v with
  | null => exact ⟨_, _, rfl, by decide⟩
  | flag b => exact ⟨_, _, rfl, by simp⟩
  | number w => exact ⟨_, _, rfl, by simp⟩
  | text t => exact ⟨_, _, rfl, by simp⟩
  | array items =>
    cases items with
    | nil => exact ⟨_, _, by rw [tokens], by decide⟩
    | cons v r => exact ⟨_, _, by rw [tokens, List.cons_append], by decide⟩
  | object members =>
    cases members with
    | nil => exact ⟨_, _, by rw [tokens], by decide⟩
    | cons p r => exact ⟨_, _, by rw [tokens, List.cons_append], by decide⟩

/-- behind an opening bracket, a value is the first item -/
theorem value?_openArray (v : Value) : value? fs (.openArray :: (v.tokens ++ ts))
    = value? (.array [] :: fs) (v.tokens ++ ts) := by
  obtain ⟨t, r, hv, ht⟩ := tokens_eq_cons v
  rw [hv, List.cons_append, value?]
  rintro r' e
  cases e
  exact ht rfl

mutual

/-- the tokens of a value are read as the value, in any frame and whatever follows -/
theorem value?_tokens (fs : List Frame) (ts : List Token) :
    ∀ v : Value, value? fs (v.tokens ++ ts) = after? fs v ts
  | .null => by rw [tokens, List.singleton_append, value?]
  | .flag b => by rw [tokens, List.singleton_append, value?]
  | .number w => by rw [tokens, List.singleton_append, value?]
  | .text t => by rw [tokens, List.singleton_append, value?]
  | .array [] => by
    rw [tokens]
    show value? fs (.openArray :: .closeArray :: ts) = _
    rw [value?]
  | .array (v :: r) => by
    rw [tokens, List.cons_append, List.cons_append, List.append_assoc, value?_openArray,
      value?_tokens _ _ v, after?_itemTokens fs ts [] v r]
    rfl
  | .object [] => by
    rw [tokens]
    show value? fs (.openObject :: .closeObject :: ts) = _
    rw [value?]
  | .object ((k, v) :: r) => by
    rw [tokens]
    show value? fs (.openObject :: .text k :: .colon :: (v.tokens ++ memberTokens r ++ ts)) = _
    rw [value?, List.append_assoc, value?_tokens _ _ v, after?_memberTokens fs ts [] k v r]
    rfl

/-- the items behind the first are read up to the end of the array -/
theorem after?_itemTokens (fs : List Frame) (ts : List Token) (vs : List Value) (v : Value) :
    ∀ r : List Value, after? (.array vs :: fs) v (itemTokens r ++ ts)
      = after? fs (.array (vs.reverse ++ v :: r)) ts
  | [] => by
    rw [itemTokens]
    show after? (.array vs :: fs) v (.closeArray :: ts) = _
    rw [after?, List.reverse_cons]
  | w :: r => by
    rw [itemTokens]
    show after? (.array vs :: fs) v (.comma :: (w.tokens ++ itemTokens r ++ ts)) = _
    rw [after?, List.append_assoc, value?_tokens _ _ w, after?_itemTokens fs ts (v :: vs) w r,
      List.reverse_cons, List.append_assoc]
    rfl

/-- the members behind the first are read up to the end of the object -/
theorem after?_memberTokens (fs : List Frame) (ts : List Token)
    (ms : List (List Piece × Value)) (k : List Piece) (v : Value) :
    ∀ r : List (List Piece × Value), after? (.object ms k :: fs) v (memberTokens r ++ ts)
      = after? fs (.object (ms.reverse ++ (k, v) :: r)) ts
  | [] => by
    rw [memberTokens]
    show after? (.object ms k :: fs) v (.closeObject :: ts) = _
    rw [after?, List.reverse_cons]
  | (k', w) :: r => by
    rw [memberTokens]
    show after? (.object ms k :: fs) v
      (.comma :: .text k' :: .colon :: (w.tokens ++ memberTokens r ++ ts)) = _
    rw [after?, List.append_assoc, value?_tokens _ _ w,
      after?_memberTokens fs ts ((k, v) :: ms) k' w r, List.reverse_cons, List.append_assoc]
    rfl

end

/-- a document that spells the tokens of a value is read as that value -/
theorem read?_of_spelled {v : Value} {cs : List Char} (h : Spelled v.tokens cs) :
    read? (String.ofList cs) = some v := by
  have hv : value? [] v.tokens = some v := by
    rw [← List.append_nil v.tokens, value?_tokens, after?]
  rw [read?, String.toList_ofList, tokens?_of_spelled h, Option.bind_some, hv]

/-! ## Spelling a value -/

/-- the characters spell the value, before anything that ends a word -/
def Value.SpelledBy (v : Value) (w : List Char) : Prop :=
  ∀ ts cs, EndsWord cs → Spelled ts cs → Spelled (v.tokens ++ ts) (w ++ cs)

/-- the characters spell a member, before anything that ends a word -/
def MemberSpelledBy (p : List Piece × Value) (w : List Char) : Prop :=
  ∀ ts cs, EndsWord cs → Spelled ts cs →
    Spelled (.text p.1 :: .colon :: (p.2.tokens ++ ts)) (w ++ cs)

theorem intercalate_comma (w : List Char) (ws : List (List Char)) :
    [','].intercalate (w :: ws) = w ++ ws.flatMap (',' :: ·) := by
  induction ws generalizing w with
  | nil => rw [List.intercalate_singleton, List.flatMap_nil, List.append_nil]
  | cons x ws ih =>
    rw [List.intercalate_cons_cons, ih, List.flatMap_cons, List.append_assoc]
    rfl

theorem endsWord_cons {c : Char} (h : isWordChar c = false) (cs : List Char) :
    EndsWord (c :: cs) := by
  intro x hx
  cases hx
  exact h

/-- a bracket or a comma ends a word -/
theorem endsWord_items {c : Char} (h : isWordChar c = false) (ws : List (List Char))
    (cs : List Char) : EndsWord (ws.flatMap (',' :: ·) ++ c :: cs) := by
  cases ws with
  | nil => exact endsWord_cons h cs
  | cons w ws => exact endsWord_cons (by decide) _

namespace Value.SpelledBy

/-- there may be spaces around a value -/
theorem spaces {v : Value} {w l r : List Char} (h : v.SpelledBy w)
    (hl : ∀ c ∈ l, isSpace c = true) (hr : ∀ c ∈ r, isSpace c = true) :
    v.SpelledBy (l ++ w ++ r) := by
  intro ts cs hend hs
  rw [List.append_assoc, List.append_assoc]
  exact (h ts (r ++ cs) (hend.spaces hr) (hs.spaces hr)).spaces hl

theorem quote (cs : List Char) : (Value.text (cs.map Piece.ofChar)).SpelledBy (quote cs) :=
  fun _ _ _ h => h.quote cs

theorem number {w : List Char} (h : ofWord? w = some (.number w))
    (hw : ∀ c ∈ w, isWordChar c = true) : (Value.number w).SpelledBy w :=
  fun _ _ hend hs => .cons (.word h hw) (fun _ => hend) hs

theorem items {vs : List Value} {ws : List (List Char)} (h : List.Forall₂ SpelledBy vs ws)
    {cs : List Char} (hs : Spelled ts cs) :
    Spelled (itemTokens vs ++ ts) (ws.flatMap (',' :: ·) ++ ']' :: cs) := by
  induction h with
  | nil =>
    rw [itemTokens]
    exact hs.mark (by decide)
  | cons hv _ ih =>
    rw [itemTokens, List.flatMap_cons, List.cons_append, List.cons_append, List.append_assoc,
      List.append_assoc]
    exact (hv _ _ (endsWord_items (by decide) _ cs) ih).mark (by decide)

theorem array {vs : List Value} {ws : List (List Char)} (h : List.Forall₂ SpelledBy vs ws) :
    (Value.array vs).SpelledBy ('[' :: [','].intercalate ws ++ [']']) := by
  intro ts cs _ hs
  cases h with
  | nil =>
    rw [tokens]
    exact (hs.mark (c := ']') (by decide)).mark (by decide)
  | @cons v w vs ws hv hr =>
    have htokens : (Value.array (v :: vs)).tokens ++ ts
        = .openArray :: (v.tokens ++ (itemTokens vs ++ ts)) := by
      rw [tokens]
      simp
    rw [htokens, intercalate_comma, List.cons_append, List.cons_append, List.append_assoc,
      List.append_assoc]
    exact (hv _ _ (endsWord_items (by decide) ws cs) (items hr hs)).mark (by decide)

theorem members {ms : List (List Piece × Value)} {ws : List (List Char)}
    (h : List.Forall₂ MemberSpelledBy ms ws) {cs : List Char} (hs : Spelled ts cs) :
    Spelled (memberTokens ms ++ ts) (ws.flatMap (',' :: ·) ++ '\x7d' :: cs) := by
  induction h with
  | nil =>
    rw [memberTokens]
    exact hs.mark (by decide)
  | @cons p w ms ws hp _ ih =>
    obtain ⟨k, v⟩ := p
    have htokens : memberTokens ((k, v) :: ms) ++ ts
        = .comma :: .text k :: .colon :: (v.tokens ++ (memberTokens ms ++ ts)) := by
      rw [memberTokens]
      simp
    rw [htokens, List.flatMap_cons, List.cons_append, List.cons_append, List.append_assoc]
    exact (hp _ _ (endsWord_items (by decide) ws cs) ih).mark (by decide)

theorem object {ms : List (List Piece × Value)} {ws : List (List Char)}
    (h : List.Forall₂ MemberSpelledBy ms ws) :
    (Value.object ms).SpelledBy ('\x7b' :: [','].intercalate ws ++ ['\x7d']) := by
  intro ts cs _ hs
  cases h with
  | nil =>
    rw [tokens]
    exact (hs.mark (c := '\x7d') (by decide)).mark (by decide)
  | @cons p w ms ws hp hr =>
    obtain ⟨k, v⟩ := p
    have htokens : (Value.object ((k, v) :: ms)).tokens ++ ts
        = .openObject :: .text k :: .colon :: (v.tokens ++ (memberTokens ms ++ ts)) := by
      rw [tokens]
      simp
    rw [htokens, intercalate_comma, List.cons_append, List.cons_append, List.append_assoc,
      List.append_assoc]
    exact (hp _ _ (endsWord_items (by decide) ws cs) (members hr hs)).mark (by decide)

end Value.SpelledBy

/-- a name in quotes and a value spell a member, with spaces before the colon -/
theorem MemberSpelledBy.of_text {k : List Piece} {name b w : List Char} {v : Value}
    (hk : TextSpelled k name) (hb : ∀ c ∈ b, isSpace c = true) (hv : v.SpelledBy w) :
    MemberSpelledBy (k, v) ('"' :: name ++ ['"'] ++ (b ++ ':' :: w)) := by
  intro ts cs hend hs
  have hcolon : Spelled (.colon :: (v.tokens ++ ts)) (b ++ ':' :: w ++ cs) := by
    rw [List.append_assoc]
    exact ((hv ts cs hend hs).mark (by decide)).spaces hb
  rw [List.append_assoc]
  exact .cons (.text hk) (fun hw => by cases hw) hcolon

/-- there may be spaces before a member -/
theorem MemberSpelledBy.spaces {p : List Piece × Value} {l w : List Char} (h : MemberSpelledBy p w)
    (hl : ∀ c ∈ l, isSpace c = true) : MemberSpelledBy p (l ++ w) := by
  intro ts cs hend hs
  rw [List.append_assoc]
  exact (h ts cs hend hs).spaces hl

theorem read?_of_spelledBy {v : Value} {w : List Char} (h : v.SpelledBy w) :
    read? (String.ofList w) = some v := by
  apply read?_of_spelled
  have hw := h [] [] (fun _ hx => by cases hx) .nil
  rwa [List.append_nil, List.append_nil] at hw

end PropertyIndex.Json
