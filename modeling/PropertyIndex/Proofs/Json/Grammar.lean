import PropertyIndex.Proofs.Json.Reading

/-!
# The grammar of documents

The grammar says how values are written, without regard to how they are read: numerals, texts, and
lists in brackets, with blanks around every part.  Every document of the grammar is read as the value
that it is a document of.

* `Numeral`              the numerals;
* `Written`, `Items`, `Members`   the ways in which a value is written, and what stands between
                         brackets;
* `Document`             a value with blanks around it;
* `isNumeral_of_numeral` numerals are recognised;
* `read?_of_document`    a document is read as its value.
-/

namespace PropertyIndex.Json

/-! ## Numerals -/

def Digits (cs : List Char) : Prop := cs ≠ [] ∧ ∀ c ∈ cs, c.isDigit = true

/-- the digits before the point: a zero alone, or digits of which the first is none -/
inductive Whole : List Char → Prop where
  | zero : Whole ['0']
  | digits {c : Char} {cs : List Char} (hc : c.isDigit = true) (h0 : c ≠ '0')
      (hcs : ∀ x ∈ cs, x.isDigit = true) : Whole (c :: cs)

inductive Fraction : List Char → Prop where
  | none : Fraction []
  | digits {cs : List Char} (h : Digits cs) : Fraction ('.' :: cs)

inductive Exponent : List Char → Prop where
  | none : Exponent []
  | digits {e : Char} {sign cs : List Char} (he : e = 'e' ∨ e = 'E')
      (hs : sign = [] ∨ sign = ['+'] ∨ sign = ['-']) (h : Digits cs) : Exponent (e :: (sign ++ cs))

inductive Numeral : List Char → Prop where
  | mk {sign whole fraction exponent : List Char} (hs : sign = [] ∨ sign = ['-'])
      (hw : Whole whole) (hf : Fraction fraction) (he : Exponent exponent) :
      Numeral (sign ++ (whole ++ (fraction ++ exponent)))

theorem Digits.exists_cons {cs : List Char} (h : Digits cs) : ∃ c r, cs = c :: r ∧
    c.isDigit = true ∧ ∀ x ∈ r, x.isDigit = true := by
  obtain ⟨hne, hd⟩ := h
  cases cs with
  | nil => exact absurd rfl hne
  | cons c r =>
    exact ⟨c, r, rfl, hd c List.mem_cons_self, fun x hx => hd x (List.mem_cons_of_mem c hx)⟩

theorem isDigits_of_digits {cs : List Char} (h : Digits cs) : isDigits cs = true := by
  unfold isDigits
  rw [List.all_eq_true.2 h.2, List.isEmpty_eq_false_iff.2 h.1]
  rfl

theorem ne_of_isDigit {c x : Char} (hc : c.isDigit = true) (hx : x.isDigit = false) : c ≠ x := by
  rintro rfl
  rw [hc] at hx
  cases hx

theorem isExponent_of_exponent {cs : List Char} (h : Exponent cs) : isExponent cs = true := by
  cases h with
  | none => rfl
  | @digits e sign cs he hs hd =>
    have hmark : (e = 'e' || e = 'E') = true := by simpa using he
    rcases hs with rfl | rfl | rfl
    · obtain ⟨c, r, rfl, hc, _⟩ := hd.exists_cons
      rw [List.nil_append, isExponent, hmark, isDigits_of_digits hd]
      · rfl
      · exact fun _ e => ne_of_isDigit hc (by decide) (List.cons.inj e).1
      · exact fun _ e => ne_of_isDigit hc (by decide) (List.cons.inj e).1
    · rw [List.singleton_append, isExponent, hmark, isDigits_of_digits hd]
      rfl
    · rw [List.singleton_append, isExponent, hmark, isDigits_of_digits hd]
      rfl

/-- neither a fraction nor an exponent begins with a digit -/
theorem dropWhile_isDigit {f e : List Char} (hf : Fraction f) (he : Exponent e) :
    (f ++ e).dropWhile Char.isDigit = f ++ e := by
  cases hf with
  | digits _ => exact List.dropWhile_cons_of_neg (by decide)
  | none =>
    cases he with
    | none => rfl
    | digits he _ _ =>
      rcases he with rfl | rfl
      · exact List.dropWhile_cons_of_neg (by decide)
      · exact List.dropWhile_cons_of_neg (by decide)

theorem isFraction_of_fraction {f e : List Char} (hf : Fraction f) (he : Exponent e) :
    isFraction (f ++ e) = true := by
  cases hf with
  | none =>
    have hexp := isExponent_of_exponent he
    rw [List.nil_append]
    cases he with
    | none => rfl
    | @digits c sign cs hc _ _ =>
      rw [isFraction]
      · exact hexp
      · rintro d r e'
        obtain ⟨rfl, -⟩ := List.cons.inj e'
        rcases hc with hc | hc
        · exact absurd hc (by decide)
        · exact absurd hc (by decide)
  | @digits cs hd =>
    obtain ⟨c, r, rfl, hc, hr⟩ := hd.exists_cons
    have hdrop : (r ++ e).dropWhile Char.isDigit = e := by
      rw [List.dropWhile_append_of_pos hr]
      exact dropWhile_isDigit .none he
    rw [List.cons_append, List.cons_append, isFraction, hc, hdrop, isExponent_of_exponent he]
    rfl

theorem isUnsigned_of_whole {w f e : List Char} (hw : Whole w) (hf : Fraction f) (he : Exponent e) :
    isUnsigned (w ++ (f ++ e)) = true := by
  cases hw with
  | zero =>
    show isFraction (f ++ e) = true
    exact isFraction_of_fraction hf he
  | @digits c cs hc h0 hcs =>
    have hdrop : (cs ++ (f ++ e)).dropWhile Char.isDigit = f ++ e := by
      rw [List.dropWhile_append_of_pos hcs, dropWhile_isDigit hf he]
    rw [List.cons_append, isUnsigned, hc, hdrop, isFraction_of_fraction hf he]
    · rfl
    · exact h0

/-- the numerals of the grammar are recognised -/
theorem isNumeral_of_numeral {cs : List Char} (h : Numeral cs) : isNumeral cs = true := by
  cases h with
  | @mk sign whole fraction exponent hs hw hf he =>
    have hu := isUnsigned_of_whole hw hf he
    rcases hs with rfl | rfl
    · rw [List.nil_append, isNumeral]
      · exact hu
      · intro r e
        cases hw with
        | zero => cases e
        | digits hc _ _ => exact absurd (List.cons.inj e).1 (ne_of_isDigit hc (by decide))
    · exact hu

theorem isWordChar_of_isDigit {c : Char} (h : c.isDigit = true) : isWordChar c = true := by
  simp [isWordChar, Char.isAlphanum, h]

theorem isWordChar_of_numeral {cs : List Char} (h : Numeral cs) :
    ∀ c ∈ cs, isWordChar c = true := by
  have hdigits : ∀ {ds : List Char}, (∀ c ∈ ds, c.isDigit = true) → ∀ c ∈ ds, isWordChar c = true :=
    fun hds c hc => isWordChar_of_isDigit (hds c hc)
  cases h with
  | @mk sign whole fraction exponent hs hw hf he =>
    simp only [List.forall_mem_append]
    refine ⟨?_, ?_, ?_, ?_⟩
    · rcases hs with rfl | rfl <;> exact List.all_eq_true.1 rfl
    · cases hw with
      | zero => exact List.all_eq_true.1 rfl
      | digits hc _ hcs => exact List.forall_mem_cons.2 ⟨isWordChar_of_isDigit hc, hdigits hcs⟩
    · cases hf with
      | none => exact List.forall_mem_nil _
      | digits h => exact List.forall_mem_cons.2 ⟨by decide, hdigits h.2⟩
    · cases he with
      | none => exact List.forall_mem_nil _
      | digits he hs h =>
        refine List.forall_mem_cons.2 ⟨?_, List.forall_mem_append.2 ⟨?_, hdigits h.2⟩⟩
        · rcases he with rfl | rfl <;> decide
        · rcases hs with rfl | rfl | rfl <;> exact List.all_eq_true.1 rfl

theorem ofWord?_of_isNumeral {w : List Char} (h : isNumeral w = true) :
    ofWord? w = some (.number w) := by
  have hne : ∀ v, isNumeral v = false → w ≠ v := by
    rintro v hv rfl
    rw [h] at hv
    cases hv
  unfold ofWord?
  rw [if_neg (hne _ (by decide)), if_neg (hne _ (by decide)), if_neg (hne _ (by decide)), if_pos h]

/-! ## Values -/

def Blanks (cs : List Char) : Prop := ∀ c ∈ cs, c ∈ [' ', '\t', '\n', '\r']

mutual

/-- the ways in which a value is written -/
inductive Written : Value → List Char → Prop where
  | null : Written .null ['n', 'u', 'l', 'l']
  | yes : Written (.flag true) ['t', 'r', 'u', 'e']
  | no : Written (.flag false) ['f', 'a', 'l', 's', 'e']
  | number {cs : List Char} (h : Numeral cs) : Written (.number cs) cs
  | text {ps : List Piece} {cs : List Char} (h : TextSpelled ps cs) :
      Written (.text ps) ('"' :: cs ++ ['"'])
  | emptyArray {b : List Char} (hb : Blanks b) : Written (.array []) ('[' :: b ++ [']'])
  | array {vs : List Value} {ws : List (List Char)} (h : Items vs ws) :
      Written (.array vs) ('[' :: [','].intercalate ws ++ [']'])
  | emptyObject {b : List Char} (hb : Blanks b) : Written (.object []) ('\x7b' :: b ++ ['\x7d'])
  | object {ms : List (List Piece × Value)} {ws : List (List Char)} (h : Members ms ws) :
      Written (.object ms) ('\x7b' :: [','].intercalate ws ++ ['\x7d'])

/-- the items of an array, each with blanks around it -/
inductive Items : List Value → List (List Char) → Prop where
  | nil : Items [] []
  | cons {v : Value} {vs : List Value} {l w r : List Char} {ws : List (List Char)} (hl : Blanks l)
      (hv : Written v w) (hr : Blanks r) (h : Items vs ws) : Items (v :: vs) ((l ++ w ++ r) :: ws)

/-- the members of an object, each a name and a value, with blanks around both -/
inductive Members : List (List Piece × Value) → List (List Char) → Prop where
  | nil : Members [] []
  | cons {k : List Piece} {v : Value} {ms : List (List Piece × Value)}
      {l name b l' w r : List Char} {ws : List (List Char)} (hl : Blanks l)
      (hk : TextSpelled k name) (hb : Blanks b) (hl' : Blanks l') (hv : Written v w) (hr : Blanks r)
      (h : Members ms ws) :
      Members ((k, v) :: ms)
        ((l ++ ('"' :: name ++ ['"'] ++ (b ++ ':' :: (l' ++ w ++ r)))) :: ws)

end

/-- a value with blanks around it -/
def Document (v : Value) (cs : List Char) : Prop :=
  ∃ l w r, Blanks l ∧ Written v w ∧ Blanks r ∧ cs = l ++ w ++ r

theorem Blanks.isSpace {cs : List Char} (h : Blanks cs) : ∀ c ∈ cs, isSpace c = true := by
  intro c hc
  have hmem := h c hc
  simp only [List.mem_cons, List.not_mem_nil, or_false] at hmem
  rcases hmem with rfl | rfl | rfl | rfl <;> decide

namespace Value.SpelledBy

theorem word {v : Value} {t : Token} {w : List Char} (hv : v.tokens = [t])
    (ht : ofWord? w = some t) (hw : ∀ c ∈ w, isWordChar c = true) : v.SpelledBy w := by
  intro ts cs hend hs
  rw [hv]
  exact .cons (.word ht hw) (fun _ => hend) hs

theorem numeral {w : List Char} (h : Numeral w) : (Value.number w).SpelledBy w :=
  .number (ofWord?_of_isNumeral (isNumeral_of_numeral h)) (isWordChar_of_numeral h)

theorem emptyArray {b : List Char} (hb : Blanks b) :
    (Value.array []).SpelledBy ('[' :: b ++ [']']) := by
  intro ts cs _ hs
  rw [tokens, List.append_assoc]
  exact ((hs.mark (c := ']') (by decide)).spaces hb.isSpace).mark (by decide)

theorem emptyObject {b : List Char} (hb : Blanks b) :
    (Value.object []).SpelledBy ('\x7b' :: b ++ ['\x7d']) := by
  intro ts cs _ hs
  rw [tokens, List.append_assoc]
  exact ((hs.mark (c := '\x7d') (by decide)).spaces hb.isSpace).mark (by decide)

end Value.SpelledBy

mutual

theorem Written.spelledBy {v : Value} {w : List Char} : Written v w → v.SpelledBy w
  | .null => .word (by rw [Value.tokens]) (by decide) (List.all_eq_true.1 rfl)
  | .yes => .word (by rw [Value.tokens]) (by decide) (List.all_eq_true.1 rfl)
  | .no => .word (by rw [Value.tokens]) (by decide) (List.all_eq_true.1 rfl)
  | .number h => .numeral h
  | .text h => fun ts cs _ hs => by
    rw [Value.tokens]
    exact .cons (.text h) (fun hw => by cases hw) hs
  | .emptyArray hb => .emptyArray hb
  | .array h => .array h.spelledBy
  | .emptyObject hb => .emptyObject hb
  | .object h => .object h.spelledBy

theorem Items.spelledBy {vs : List Value} {ws : List (List Char)} :
    Items vs ws → List.Forall₂ Value.SpelledBy vs ws
  | .nil => .nil
  | .cons hl hv hr h => .cons (hv.spelledBy.spaces hl.isSpace hr.isSpace) h.spelledBy

theorem Members.spelledBy {ms : List (List Piece × Value)} {ws : List (List Char)} :
    Members ms ws → List.Forall₂ MemberSpelledBy ms ws
  | .nil => .nil
  | .cons hl hk hb hl' hv hr h =>
    .cons ((MemberSpelledBy.of_text hk hb.isSpace
      (hv.spelledBy.spaces hl'.isSpace hr.isSpace)).spaces hl.isSpace) h.spelledBy

end

/-- a document is read as its value -/
theorem read?_of_document {v : Value} {document : String} (h : Document v document.toList) :
    read? document = some v := by
  obtain ⟨l, w, r, hl, hw, hr, e⟩ := h
  rw [← String.ofList_toList (s := document), e]
  exact read?_of_spelledBy (hw.spelledBy.spaces hl.isSpace hr.isSpace)

end PropertyIndex.Json
