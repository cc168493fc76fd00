import Mathlib.Data.List.TakeWhile
import PropertyIndex.Config.Document
import PropertyIndex.Proofs.Json.Grammar

/-!
# Definitions are read back

* `numeral_toDigits`        the digits of a number are a numeral, without a leading zero;
* `Config.value`            the value that a definition is written as;
* `Config.value_spelledBy`  `Config.render` spells it;
* `Config.ofValue?_value`   it stands for the definition;
* `Config.read?_render`     so a definition is read back from what is written of it.
-/

namespace PropertyIndex

open Json

/-! ## Numbers -/

namespace Json

theorem head?_toDigits_ne_zero {n : Nat} (h : n ≠ 0) : (Nat.toDigits 10 n).head? ≠ some '0' := by
  induction n using Nat.strongRecOn with
  | ind n ih =>
    rw [Nat.toDigits_eq_if (by decide)]
    split
    · next hn =>
      have e : ∀ m : Fin 10, m.1 ≠ 0 → [m.1.digitChar].head? ≠ some '0' := by decide
      exact e ⟨n, hn⟩ h
    · next hn =>
      rw [List.head?_append_of_ne_nil _ Nat.toDigits_ne_nil]
      exact ih (n / 10) (by omega) (by omega)

theorem whole_toDigits (n : Nat) : Whole (Nat.toDigits 10 n) := by
  by_cases h : n = 0
  · subst h
    exact .zero
  · have hd : ∀ c ∈ Nat.toDigits 10 n, c.isDigit = true :=
      fun c hc => Nat.isDigit_of_mem_toDigits (by decide) (by decide) hc
    have h0 := head?_toDigits_ne_zero h
    cases hw : Nat.toDigits 10 n with
    | nil => exact absurd hw Nat.toDigits_ne_nil
    | cons c r =>
      rw [hw] at hd h0
      refine .digits (hd c List.mem_cons_self) ?_ fun x hx => hd x (List.mem_cons_of_mem c hx)
      rintro rfl
      exact h0 rfl

/-- the digits of a number are a numeral, without a leading zero -/
theorem numeral_toDigits (n : Nat) : Numeral (Nat.toDigits 10 n) := by
  have h := Numeral.mk (.inl rfl) (whole_toDigits n) .none .none
  rwa [List.nil_append, List.append_nil, List.append_nil] at h

namespace Value

theorem number_spelledBy (n : Nat) :
    (Value.number (Nat.toDigits 10 n)).SpelledBy (Nat.toDigits 10 n) := .numeral (numeral_toDigits n)

theorem word64?_toDigits (n : UInt64) :
    (Value.number (Nat.toDigits 10 n.toNat)).word64? = some n := by
  have hd : (Nat.toDigits 10 n.toNat).all Char.isDigit = true :=
    List.all_eq_true.2 fun c hc => Nat.isDigit_of_mem_toDigits (by decide) (by decide) hc
  have hn : ofDigits (Nat.toDigits 10 n.toNat) = n.toNat := Nat.ofDigitChars_ten_toDigits
  unfold word64?
  dsimp only
  rw [hn, if_pos ⟨hd, n.toNat_lt⟩, UInt64.ofNat_toNat]

/-- the value is a text that stands for the characters of a string -/
def IsText (v : Value) (s : String) : Prop := ∃ ps, v = .text ps ∧ Denotes ps s.toList

theorem text?_of_isText {v : Value} {s : String} (h : v.IsText s) : v.text? = some s := by
  obtain ⟨ps, rfl, h⟩ := h
  rw [text?, decode?_of_denotes h, Option.map_some, String.ofList_toList]

theorem texts?_of_isText {l : List String} {vs : List Value}
    (h : List.Forall₂ (fun s v => v.IsText s) l vs) : (array vs).texts? = some l := by
  show vs.mapM text? = some l
  induction h with
  | nil => rfl
  | cons hs _ ih =>
    rw [List.mapM_cons, text?_of_isText hs, ih]
    rfl

/-- the value that a text is written as -/
def ofText (s : String) : Value := .text (s.toList.map Piece.ofChar)

theorem isText_ofText (s : String) : (ofText s).IsText s := ⟨_, rfl, denotes_ofChars s.toList⟩

theorem text?_ofText (s : String) : (ofText s).text? = some s := text?_of_isText (isText_ofText s)

theorem texts?_ofTexts (l : List String) : (Value.array (l.map ofText)).texts? = some l := by
  apply texts?_of_isText
  rw [List.forall₂_map_right_iff, List.forall₂_same]
  exact fun s _ => isText_ofText s

end Value

end Json

/-! ## Definitions -/

namespace Config

/-- the member that a field is written as -/
def Field.member (f : Field) (v : Json.Value) : List Piece × Json.Value :=
  (f.label.toList.map Piece.ofChar, v)

/-- the value that a definition is written as -/
def value (c : Config) : Json.Value := .object
  [Field.name.member (.ofText c.name),
    Field.propertyNames.member (.array (c.propertyNames.map Json.Value.ofText)),
    Field.direction.member (.ofText c.direction.label),
    Field.maxKeyLength.member (.number (Nat.toDigits 10 c.maxKeyLength.toNat))]

theorem Field.member_spelledBy (f : Field) {v : Json.Value} {w : List Char} (h : v.SpelledBy w) :
    MemberSpelledBy (f.member v) (renderMember f w) :=
  .of_text (b := []) (textSpelled_escape f.label.toList) (fun _ hc => by cases hc) h

theorem texts_spelledBy (l : List String) :
    (Json.Value.array (l.map Json.Value.ofText)).SpelledBy (renderTexts l) := by
  apply Json.Value.SpelledBy.array
  rw [List.forall₂_map_left_iff, List.forall₂_map_right_iff, List.forall₂_same]
  exact fun s _ => .quote s.toList

/-- what is written of a definition spells its value -/
theorem value_spelledBy (c : Config) : ∃ w, c.render = String.ofList w ∧ c.value.SpelledBy w := by
  refine ⟨_, rfl, Json.Value.SpelledBy.object ?_⟩
  have hname := Field.name.member_spelledBy (.quote c.name.toList)
  have hprops := Field.propertyNames.member_spelledBy (texts_spelledBy c.propertyNames)
  have hdir := Field.direction.member_spelledBy (.quote c.direction.label.toList)
  have hlength := Field.maxKeyLength.member_spelledBy
    (Json.Value.number_spelledBy c.maxKeyLength.toNat)
  exact .cons hname (.cons hprops (.cons hdir (.cons hlength .nil)))

/-- a member with the name of a field gives the field its value, unless the field has one -/
theorem Draft.putMembers_known {f : Field} {k : List Piece} (hk : decode? k = some f.label.toList)
    (d : Draft) (v : Json.Value) (r : List (List Piece × Json.Value)) :
    d.putMembers ((k, v) :: r) =
      if d.has f then none else (d.put f v).bind fun d => d.putMembers r := by
  rw [putMembers, hk]
  dsimp only
  rw [String.ofList_toList, Field.ofLabel?_label]
  dsimp only
  split
  · rfl
  · cases d.put f v <;> rfl

theorem Draft.putMembers_member {d d' : Draft} {f : Field} {v : Json.Value} (hd : d.has f = false)
    (hp : d.put f v = some d') (r : List (List Piece × Json.Value)) :
    d.putMembers (f.member v :: r) = d'.putMembers r := by
  unfold Field.member
  rw [putMembers_known (decode?_ofChars _), hd, hp]
  rfl

/-- the value of a definition stands for it -/
theorem ofValue?_value (c : Config) : ofValue? c.value = some c := by
  have hname := Json.Value.text?_ofText c.name
  have hprops := Json.Value.texts?_ofTexts c.propertyNames
  have hdir : direction? (.ofText c.direction.label) = some c.direction := by
    unfold direction? Json.Value.ofText
    dsimp only
    rw [decode?_ofChars, Option.bind_some, String.ofList_toList, Direction.ofWord?_label]
  have hlength := Json.Value.word64?_toDigits c.maxKeyLength
  unfold value ofValue?
  dsimp only
  rw [Draft.putMembers_member rfl (by rw [Draft.put, hname]; rfl),
    Draft.putMembers_member rfl (by rw [Draft.put, hprops]; rfl),
    Draft.putMembers_member rfl (by rw [Draft.put, hdir]; rfl),
    Draft.putMembers_member rfl (by rw [Draft.put, hlength]; rfl), Draft.putMembers]
  rfl

/-- **A definition is read back from what is written of it**, whatever characters its texts have and
however long its keys may be. -/
theorem read?_render (c : Config) : read? (render c) = some c := by
  obtain ⟨w, hw, hspelled⟩ := value_spelledBy c
  rw [read?, hw, read?_of_spelledBy hspelled, Option.bind_some, ofValue?_value]

end Config

end PropertyIndex
