import Mathlib.Data.List.Nodup
import PropertyIndex.Proofs.Config.RoundTrip

/-!
# All spellings of a definition agree

A definition can be written in many ways: as an object, with its fields in any order and other
members between them, or as an array of its first fields, with escapes in texts and blanks anywhere.

* `Setting`, `Config.ofSettings`   some fields with values for them, and the definition that has
                            these and the defaults elsewhere;
* `Setting.WrittenAs`, `Holds`   the values that a setting is written as, and the members of an
                            object that hold some settings;
* `Draft.putMembers_of_holds`   such members are collected whatever stands between them;
* `Draft.putMembers_eq_none_of_twice`   a field given twice is refused, whatever else is there;
* `Config.read?_spellings`  all documents of the same settings are read as one definition.
-/

namespace PropertyIndex.Config

open Json

/-- a field of a definition and a value for it -/
inductive Setting where
  | name (s : String)
  | propertyNames (l : List String)
  | direction (d : Direction)
  | maxKeyLength (n : UInt64)

namespace Setting

def field : Setting → Field
  | .name _ => .name
  | .propertyNames _ => .propertyNames
  | .direction _ => .direction
  | .maxKeyLength _ => .maxKeyLength

/-- gives the field of a definition its value -/
def set (c : Config) : Setting → Config
  | .name s => { c with name := s }
  | .propertyNames l => { c with propertyNames := l }
  | .direction d => { c with direction := d }
  | .maxKeyLength n => { c with maxKeyLength := n }

/-- notes the value of the field -/
def note (d : Draft) : Setting → Draft
  | .name s => { d with name := some s }
  | .propertyNames l => { d with propertyNames := some l }
  | .direction x => { d with direction := some x }
  | .maxKeyLength n => { d with maxKeyLength := some n }

/-- the values that a setting is written as; a direction is a word, or an object that gives null to a
word -/
inductive WrittenAs : Setting → Json.Value → Prop where
  | name {s : String} {v : Json.Value} (h : v.IsText s) : WrittenAs (.name s) v
  | propertyNames {l : List String} {vs : List Json.Value}
      (h : List.Forall₂ (fun s v => v.IsText s) l vs) : WrittenAs (.propertyNames l) (.array vs)
  | word {d : Direction} {s : String} {v : Json.Value} (hs : s ∈ d.words) (h : v.IsText s) :
      WrittenAs (.direction d) v
  | variant {d : Direction} {s : String} {ps : List Piece} (hs : s ∈ d.words)
      (h : Denotes ps s.toList) : WrittenAs (.direction d) (.object [(ps, .null)])
  | maxKeyLength {n : UInt64} :
      WrittenAs (.maxKeyLength n) (.number (Nat.toDigits 10 n.toNat))

end Setting

open Setting

/-- the definition with some settings, and the defaults elsewhere -/
def ofSettings (ss : List Setting) : Config := ss.foldl set {}

/-- the members of an object hold some settings, in this order, and otherwise members of other
names -/
inductive Holds : List Setting → List (List Piece × Json.Value) → Prop where
  | nil : Holds [] []
  | other {ss : List Setting} {ms : List (List Piece × Json.Value)} {k : List Piece} {v : Json.Value}
      {cs : List Char} (hk : Denotes k cs) (hn : ∀ f : Field, f.label.toList ≠ cs)
      (h : Holds ss ms) : Holds ss ((k, v) :: ms)
  | setting {s : Setting} {ss : List Setting} {ms : List (List Piece × Json.Value)}
      {k : List Piece} {v : Json.Value} (hk : Denotes k s.field.label.toList)
      (hv : s.WrittenAs v) (h : Holds ss ms) : Holds (s :: ss) ((k, v) :: ms)

variable {s : Setting} {ss ss' : List Setting} {ms : List (List Piece × Json.Value)} {f : Field}
  {k k' : List Piece} {v v' : Json.Value} {d d' : Draft}

/-! ## One setting -/

theorem ofWord?_of_denotes {x : Direction} {s : String} {ps : List Piece} (hs : s ∈ x.words)
    (h : Denotes ps s.toList) :
    ((decode? ps).bind fun cs => Direction.ofWord? (String.ofList cs)) = some x := by
  rw [decode?_of_denotes h, Option.bind_some, String.ofList_toList]
  exact Direction.ofWord?_eq_some_iff.2 hs

/-- however a setting is written, its value is noted -/
theorem put_of_writtenAs (h : s.WrittenAs v) (d : Draft) : d.put s.field v = some (s.note d) := by
  cases h with
  | name h => rw [field, Draft.put, Json.Value.text?_of_isText h]; rfl
  | propertyNames h => rw [field, Draft.put, Json.Value.texts?_of_isText h]; rfl
  | word hs h =>
    obtain ⟨ps, rfl, h⟩ := h
    rw [field, Draft.put, direction?, ofWord?_of_denotes hs h]
    rfl
  | variant hs h =>
    rw [field, Draft.put, direction?, ofWord?_of_denotes hs h]
    rfl
  | maxKeyLength => rw [field, Draft.put, Json.Value.word64?_toDigits]; rfl

theorem Draft.has_of_put (h : d.put f v = some d') (g : Field) :
    d'.has g = (decide (g = f) || d.has g) := by
  cases f with
  | name => obtain ⟨x, _, rfl⟩ := Option.map_eq_some_iff.1 h; cases g <;> rfl
  | propertyNames => obtain ⟨x, _, rfl⟩ := Option.map_eq_some_iff.1 h; cases g <;> rfl
  | direction => obtain ⟨x, _, rfl⟩ := Option.map_eq_some_iff.1 h; cases g <;> rfl
  | maxKeyLength => obtain ⟨x, _, rfl⟩ := Option.map_eq_some_iff.1 h; cases g <;> rfl

theorem config_note (s : Setting) (d : Draft) : (s.note d).config = s.set d.config := by
  cases s <;> rfl

theorem config_foldl_note (ss : List Setting) (d : Draft) :
    (ss.foldl note d).config = ss.foldl set d.config := by
  induction ss generalizing d with
  | nil => rfl
  | cons s ss ih => rw [List.foldl_cons, List.foldl_cons, ih, config_note]

/-! ## The order of settings -/

theorem set_comm {s s' : Setting} (h : s.field = s'.field → s = s') (c : Config) :
    s'.set (s.set c) = s.set (s'.set c) := by
  by_cases hf : s.field = s'.field
  · rw [h hf]
  · cases s <;> cases s' <;> first | rfl | exact absurd rfl hf

/-- settings of distinct fields make one definition in any order -/
theorem ofSettings_perm (hp : ss'.Perm ss) (hd : (ss.map field).Nodup) :
    ofSettings ss' = ofSettings ss := by
  refine (hp.symm.foldl_eq' ?_ ({} : Config)).symm
  intro s hs s' hs' c
  exact set_comm (List.inj_on_of_nodup_map hd hs hs') c

/-! ## Members and items -/

namespace Draft

theorem putMembers_other {cs : List Char} (hk : Denotes k cs)
    (hn : ∀ f : Field, f.label.toList ≠ cs) (d : Draft) (v : Json.Value) :
    d.putMembers ((k, v) :: ms) = d.putMembers ms := by
  have hnone : Field.ofLabel? (String.ofList cs) = none := by
    refine List.find?_eq_none.2 fun f _ => ?_
    rw [decide_eq_true_eq]
    intro e
    exact hn f (by rw [e, String.toList_ofList])
  rw [putMembers, decode?_of_denotes hk]
  dsimp only
  rw [hnone]

/-- the members that hold settings are collected, whatever stands between them -/
theorem putMembers_of_holds (h : Holds ss ms) (hd : (ss.map field).Nodup) (d : Draft)
    (hnew : ∀ s ∈ ss, d.has s.field = false) : d.putMembers ms = some (ss.foldl note d) := by
  induction h generalizing d with
  | nil => rw [putMembers]; rfl
  | other hk hn _ ih => rw [putMembers_other hk hn, ih hd d hnew]
  | @setting s ss ms k v hk hv _ ih =>
    rw [List.map_cons, List.nodup_cons] at hd
    have hput := put_of_writtenAs hv d
    rw [putMembers_known (decode?_of_denotes hk), hnew s List.mem_cons_self, hput]
    refine ih hd.2 (s.note d) fun s' hs' => ?_
    have hne : s'.field ≠ s.field := fun e => hd.1 (e ▸ List.mem_map_of_mem hs')
    rw [has_of_put hput, hnew s' (List.mem_cons_of_mem s hs'), decide_eq_false hne]
    rfl

theorem putItems_of_writtenAs {vs : List Json.Value} {fs : List Field}
    (h : List.Forall₂ WrittenAs ss vs) (hf : ss.map field <+: fs) (d : Draft) :
    d.putItems fs vs = some (ss.foldl note d) := by
  induction h generalizing d fs with
  | nil => rw [putItems]; rfl
  | @cons s v ss vs hv _ ih =>
    obtain ⟨rest, rfl⟩ := hf
    rw [List.map_cons, List.cons_append, putItems, put_of_writtenAs hv]
    exact ih (List.prefix_append _ rest) (s.note d)

/-- a member is refused, or it is passed and no field is lost -/
theorem putMembers_cons (d : Draft) (p : List Piece × Json.Value)
    (ms : List (List Piece × Json.Value)) : d.putMembers (p :: ms) = none ∨
      ∃ d' : Draft, (∀ g, d.has g = true → d'.has g = true) ∧
        d.putMembers (p :: ms) = d'.putMembers ms := by
  obtain ⟨k, v⟩ := p
  rw [putMembers]
  split
  · exact .inl rfl
  · split
    · exact .inr ⟨d, fun _ h => h, rfl⟩
    · next f _ =>
      split
      · exact .inl rfl
      · split
        · exact .inl rfl
        · next d' hput =>
          refine .inr ⟨d', fun g hg => ?_, rfl⟩
          rw [has_of_put hput, hg, Bool.or_true]

/-- a field that has a value is given no other one -/
theorem putMembers_eq_none_of_has (hd : d.has f = true) (hk : Denotes k f.label.toList)
    (hmem : (k, v) ∈ ms) : d.putMembers ms = none := by
  induction ms generalizing d with
  | nil => cases hmem
  | cons p ms ih =>
    rcases List.mem_cons.1 hmem with rfl | hmem
    · rw [putMembers_known (decode?_of_denotes hk), if_pos hd]
    · rcases putMembers_cons d p ms with e | ⟨d', hkeep, e⟩
      · exact e
      · rw [e, ih (hkeep f hd) hmem]

/-- a field given twice is refused, whatever else is there -/
theorem putMembers_eq_none_of_twice (hk : Denotes k f.label.toList)
    (hk' : Denotes k' f.label.toList) (hmem : (k', v') ∈ ms) (d : Draft)
    (before : List (List Piece × Json.Value)) : d.putMembers (before ++ (k, v) :: ms) = none := by
  induction before generalizing d with
  | nil =>
    rw [List.nil_append, putMembers_known (decode?_of_denotes hk)]
    split
    · rfl
    · cases hput : d.put f v with
      | none => rfl
      | some d' =>
        have hhas : d'.has f = true := by
          rw [has_of_put hput, decide_eq_true rfl, Bool.true_or]
        exact putMembers_eq_none_of_has hhas hk' hmem
  | cons p before ih =>
    rcases putMembers_cons d p (before ++ (k, v) :: ms) with e | ⟨d', _, e⟩
    · exact e
    · rw [List.cons_append, e, ih d']

end Draft

theorem exists_member_of_holds (h : Holds ss ms) (hf : f ∈ ss.map field) :
    ∃ k v, (k, v) ∈ ms ∧ Denotes k f.label.toList := by
  induction h with
  | nil => cases hf
  | other _ _ _ ih =>
    obtain ⟨k, v, hmem, hk⟩ := ih hf
    exact ⟨k, v, List.mem_cons_of_mem _ hmem, hk⟩
  | @setting s ss ms k v hk _ _ ih =>
    rcases List.mem_cons.1 hf with rfl | hf
    · exact ⟨k, v, List.mem_cons_self, hk⟩
    · obtain ⟨k', v', hmem, hk'⟩ := ih hf
      exact ⟨k', v', List.mem_cons_of_mem _ hmem, hk'⟩

/-! ## Documents -/

theorem read?_of_document {document : String} (h : Document v document.toList) :
    read? document = ofValue? v := by
  rw [read?, Json.read?_of_document h, Option.bind_some]

theorem ofValue?_of_holds (h : Holds ss ms) (hd : (ss.map field).Nodup) :
    ofValue? (.object ms) = some (ofSettings ss) := by
  rw [ofValue?, Draft.putMembers_of_holds h hd {} fun s _ => by cases s <;> rfl, Option.map_some,
    config_foldl_note]
  rfl

theorem ofValue?_of_writtenAs {vs : List Json.Value} (h : List.Forall₂ WrittenAs ss vs)
    (hf : ss.map field <+: Field.all) : ofValue? (.array vs) = some (ofSettings ss) := by
  rw [ofValue?, Draft.putItems_of_writtenAs h hf, Option.map_some, config_foldl_note]
  rfl

theorem ofValue?_of_twice {after before : List (List Piece × Json.Value)}
    (h : Holds ss (before ++ after)) (hf : f ∈ ss.map field) (hk : Denotes k f.label.toList) :
    ofValue? (.object (before ++ (k, v) :: after)) = none := by
  obtain ⟨k', v', hmem, hk'⟩ := exists_member_of_holds h hf
  have hnone : Draft.putMembers {} (before ++ (k, v) :: after) = none := by
    rcases List.mem_append.1 hmem with hmem | hmem
    · obtain ⟨a, b, rfl⟩ := List.append_of_mem hmem
      rw [List.append_assoc, List.cons_append]
      exact Draft.putMembers_eq_none_of_twice hk' hk
        (List.mem_append_right b List.mem_cons_self) {} a
    · exact Draft.putMembers_eq_none_of_twice hk hk' hmem {} before
  rw [ofValue?, hnone]
  rfl

/-- **All spellings of a definition agree.**  Take settings of distinct fields.  An object that holds
them, in any order and with any members of other names between them, is read as the definition with
these settings and the defaults elsewhere.  So is the array of their values, if they are the first
fields.  With one more member that has the name of a field that is there, an object is refused. -/
theorem read?_spellings (ss : List Setting) (hd : (ss.map field).Nodup) :
    (∀ ss' ms (document : String), ss'.Perm ss → Holds ss' ms →
      Document (.object ms) document.toList → read? document = some (ofSettings ss)) ∧
    (∀ ss' vs (document : String), ss'.Perm ss → ss'.map field <+: Field.all →
      List.Forall₂ WrittenAs ss' vs → Document (.array vs) document.toList →
      read? document = some (ofSettings ss)) ∧
    ∀ ss' before after (f : Field) k v (document : String), ss'.Perm ss →
      Holds ss' (before ++ after) → f ∈ ss.map field → Denotes k f.label.toList →
      Document (.object (before ++ (k, v) :: after)) document.toList → read? document = none := by
  refine ⟨?_, ?_, ?_⟩
  · intro ss' ms document hp hms hdoc
    rw [read?_of_document hdoc, ← ofSettings_perm hp hd]
    exact ofValue?_of_holds hms ((hp.map field).nodup_iff.2 hd)
  · intro ss' vs document hp hf hvs hdoc
    rw [read?_of_document hdoc, ← ofSettings_perm hp hd]
    exact ofValue?_of_writtenAs hvs hf
  · intro ss' before after f k v document hp hms hf hk hdoc
    rw [read?_of_document hdoc]
    exact ofValue?_of_twice hms ((hp.map field).mem_iff.2 hf) hk

/-- a direction with an escape in its name, as an object with null, behind a member that is skipped -/
theorem read?_spellings_skipped :
    ([Setting.direction .descending].map field).Nodup ∧
      read? "\x7b\"x\":[1E9,\"\\ud800\"],\"\\u0064irection\" : \x7b\"desc\":null\x7d\x7d"
        = some (ofSettings [.direction .descending]) := by
  have hd : ([Setting.direction .descending].map field).Nodup := by decide
  have hnil : Blanks [] := List.forall_mem_nil _
  have hspace : Blanks [' '] := List.forall_mem_singleton.2 List.mem_cons_self
  have hwhole : Whole ['1'] := .digits rfl (by decide) (List.forall_mem_nil _)
  have hdigits : Digits ['9'] := ⟨by decide, List.forall_mem_singleton.2 rfl⟩
  have hnumber : Numeral ['1', 'E', '9'] :=
    .mk (.inl rfl) hwhole .none (.digits (.inr rfl) (.inl rfl) hdigits)
  have hhalf : Piece.Spelled (.unit 0xD800) ['\\', 'u', 'd', '8', '0', '0'] := .unit rfl
  have hletter : Piece.Spelled (.unit 0x64) ['\\', 'u', '0', '0', '6', '4'] := .unit rfl
  have hskipped : Written (.array [.number ['1', 'E', '9'], .text [.unit 0xD800]]) _ :=
    .array (.cons hnil (.number hnumber) hnil
      (.cons hnil (.text (.cons hhalf .nil)) hnil .nil))
  have hvalue : Written (.object [("desc".toList.map Piece.ofChar, .null)]) _ :=
    .object (.cons hnil (textSpelled_escape _) hnil hnil .null hnil .nil)
  have hname : TextSpelled (.unit 0x64 :: "irection".toList.map Piece.ofChar) _ :=
    .cons hletter (textSpelled_escape _)
  have hdenotes : Denotes (.unit 0x64 :: "irection".toList.map Piece.ofChar)
      Field.direction.label.toList := .unit (c := 'd') rfl (denotes_ofChars _)
  refine ⟨hd, (read?_spellings _ hd).1 _ _ _ (.refl _)
    (.other (denotes_ofChars ['x']) ?_
      (.setting hdenotes (.variant (s := "desc") (by decide) (denotes_ofChars _)) .nil))
    ⟨[], _, [], hnil, .object (.cons hnil (textSpelled_escape _) hnil hnil hskipped hnil
      (.cons hnil hname hspace hspace hvalue hnil .nil)), hnil, ?_⟩⟩
  · intro f
    cases f <;> decide
  · decide +kernel

end PropertyIndex.Config
