import PropertyIndex.Json.Value

/-!
# How tokens are spelled

The spellings of a document are given by rules.  Whatever is spelled by these rules is read as the
tokens that were spelled.

* `Piece.Spelled`, `TextSpelled`, `Token.Spelled`   the spellings of the pieces of a text, of a text
                             between its quotes, and of a token;
* `Spelled`                  the spellings of a sequence of tokens, with spaces anywhere between them;
* `scanText_of_spelled`      a text is read piece by piece, whatever follows it;
* `tokens?_of_spelled`       a document is read as the tokens that it spells;
* `Denotes`, `decode?_of_denotes`   the characters that a text stands for are its decoded ones;
* `Spelled.spaces`           there may be spaces before the tokens;
* `Spelled.quote`            `Json.quote` spells the pieces of its characters (`Piece.ofChar`), which
                             stand for these characters (`decode?_ofChars`).
-/

namespace PropertyIndex.Json

open Text

/-! ## Spellings -/

/-- the spellings of one piece of a text: a character as it is, a short escape, and four digits -/
inductive Piece.Spelled : Piece → List Char → Prop where
  | raw {c : Char} (hq : c ≠ '"') (hb : c ≠ '\\') (hc : isControl c = false) :
      Spelled (.char c) [c]
  | short {c x : Char} (h : escaped? x = some c) : Spelled (.char c) ['\\', x]
  | unit {u : UInt16} {a b c d : Char} (h : unit? a b c d = some u) :
      Spelled (.unit u) ['\\', 'u', a, b, c, d]

/-- the spellings of a text between its quotes -/
inductive TextSpelled : List Piece → List Char → Prop where
  | nil : TextSpelled [] []
  | cons {p : Piece} {ps : List Piece} {w cs : List Char} (hp : p.Spelled w)
      (hr : TextSpelled ps cs) : TextSpelled (p :: ps) (w ++ cs)

/-- the spellings of a token: a word or numeral, a mark, and a text in quotes -/
inductive Token.Spelled : Token → List Char → Prop where
  | word {t : Token} {w : List Char} (h : ofWord? w = some t) (hw : ∀ c ∈ w, isWordChar c = true) :
      Spelled t w
  | mark {t : Token} {c : Char} (h : ofChar? c = some t) : Spelled t [c]
  | text {ps : List Piece} {cs : List Char} (h : TextSpelled ps cs) :
      Spelled (.text ps) ('"' :: cs ++ ['"'])

/-- the tokens that are words or numerals -/
def Token.isWord : Token → Bool
  | .null | .flag _ | .number _ => true
  | _ => false

/-- what may follow a word: anything but a character that could belong to it -/
def EndsWord (cs : List Char) : Prop := ∀ c ∈ cs.head?, isWordChar c = false

/-- the spellings of a sequence of tokens -/
inductive Spelled : List Token → List Char → Prop where
  | nil : Spelled [] []
  | space {c : Char} {ts : List Token} {cs : List Char} (hc : isSpace c = true)
      (hr : Spelled ts cs) : Spelled ts (c :: cs)
  | cons {t : Token} {ts : List Token} {w cs : List Char} (ht : t.Spelled w)
      (hsep : t.isWord = true → EndsWord cs) (hr : Spelled ts cs) : Spelled (t :: ts) (w ++ cs)

/-! ## Reading a text -/

theorem escaped?_u : escaped? 'u' = none := by decide

theorem scanText_of_piece {p : Piece} {w : List Char} (h : p.Spelled w) (done : List Piece)
    (r : List Char) : scanText done (w ++ r) = scanText (p :: done) r := by
  cases h with
  | @raw c hq hb hc =>
    show scanText done (c :: r) = _
    rw [scanText, hc]
    · rfl
    · exact hq
    · exact fun _ _ _ _ _ e _ => hb e
    · exact fun _ _ e _ => hb e
  | @short c x h =>
    show scanText done ('\\' :: x :: r) = _
    rw [scanText, h]
    rintro _ _ _ _ _ rfl
    rw [escaped?_u] at h
    cases h
  | @unit u a b c d h =>
    show scanText done ('\\' :: 'u' :: a :: b :: c :: d :: r) = _
    rw [scanText, h]

/-- a text is read piece by piece, whatever follows it -/
theorem scanText_of_spelled {ps : List Piece} {cs : List Char} (h : TextSpelled ps cs)
    (done : List Piece) (r : List Char) : scanText done (cs ++ '"' :: r)
      = (scan [] r).map (.text (done.reverse ++ ps) :: ·) := by
  induction h generalizing done with
  | nil =>
    rw [List.nil_append, scanText, List.append_nil]
  | cons hp _ ih =>
    rw [List.append_assoc, scanText_of_piece hp, ih, List.reverse_cons, List.append_assoc]
    rfl

/-! ## Reading a document -/

theorem scan_word {w : List Char} (hw : ∀ c ∈ w, isWordChar c = true) (word r : List Char) :
    scan word (w ++ r) = scan (w.reverse ++ word) r := by
  induction w generalizing word with
  | nil => rfl
  | cons c w ih =>
    rw [List.cons_append, scan, if_pos (hw c List.mem_cons_self),
      ih fun x hx => hw x (List.mem_cons_of_mem c hx), List.reverse_cons, List.append_assoc]
    rfl

theorem close_nil (behind : Option (List Token)) : close [] behind = behind := if_pos rfl

theorem close_none (w : List Char) : close w none = none := by
  unfold close
  split
  · rfl
  · split <;> rfl

theorem close_word {w : List Char} {t : Token} (h : ofWord? w = some t)
    (behind : Option (List Token)) : close w behind = behind.map (t :: ·) := by
  have hnil : ofWord? [] = none := by decide
  have hw : w ≠ [] := by
    rintro rfl
    rw [hnil] at h
    cases h
  unfold close
  rw [if_neg hw, h]

theorem isWord_of_ofWord? {w : List Char} {t : Token} (h : ofWord? w = some t) :
    t.isWord = true := by
  unfold ofWord? at h
  split at h
  · cases h; rfl
  · split at h
    · cases h; rfl
    · split at h
      · cases h; rfl
      · split at h
        · cases h; rfl
        · cases h

/-- a word ends where no character can belong to it any more -/
theorem scan_of_endsWord {cs : List Char} (h : EndsWord cs) (word : List Char) :
    scan word cs = close word.reverse (scan [] cs) := by
  cases cs with
  | nil => rw [scan, scan, List.reverse_nil, close_nil]
  | cons c r =>
    have hc : ¬ isWordChar c = true := by
      rw [h c rfl]
      decide
    rw [scan, scan, if_neg hc, if_neg hc, List.reverse_nil]
    simp only [close_nil]
    split
    · rfl
    · split
      · rfl
      · split
        · rw [close_none]
        · rfl

theorem scan_quote (r : List Char) : scan [] ('"' :: r) = scanText [] r := by
  rw [scan, if_neg (by decide), if_pos rfl, List.reverse_nil, close_nil]

/-- a space is no part of a word and opens no text -/
theorem isSpace_cases {c : Char} (hc : isSpace c = true) : isWordChar c = false ∧ c ≠ '"' := by
  unfold isSpace at hc
  simp only [Bool.or_eq_true, decide_eq_true_eq] at hc
  rcases hc with ((rfl | rfl) | rfl) | rfl <;> decide

theorem scan_space {c : Char} (hc : isSpace c = true) (r : List Char) :
    scan [] (c :: r) = scan [] r := by
  obtain ⟨hword, hquote⟩ := isSpace_cases hc
  rw [scan, hword, if_neg Bool.false_ne_true, if_neg hquote, if_pos hc, List.reverse_nil, close_nil]

theorem ofChar?_cases {c : Char} {t : Token} (h : ofChar? c = some t) :
    c = '[' ∨ c = ']' ∨ c = '\x7b' ∨ c = '\x7d' ∨ c = ',' ∨ c = ':' := by
  refine Decidable.byContradiction fun hn => ?_
  simp only [not_or] at hn
  simp [ofChar?, hn] at h

/-- a mark is no part of a word, opens no text, is no space, and its token is no word -/
theorem ofChar?_mark {c : Char} {t : Token} (h : ofChar? c = some t) :
    isWordChar c = false ∧ c ≠ '"' ∧ isSpace c = false ∧ t.isWord = false := by
  have hmark : isWordChar c = false ∧ c ≠ '"' ∧ isSpace c = false ∧
      (ofChar? c).map Token.isWord = some false := by
    rcases ofChar?_cases h with rfl | rfl | rfl | rfl | rfl | rfl <;> decide
  obtain ⟨hword, hquote, hspace, htoken⟩ := hmark
  rw [h, Option.map_some, Option.some.injEq] at htoken
  exact ⟨hword, hquote, hspace, htoken⟩

theorem scan_mark {c : Char} {t : Token} (h : ofChar? c = some t) (r : List Char) :
    scan [] (c :: r) = (scan [] r).map (t :: ·) := by
  obtain ⟨hword, hquote, hspace, _⟩ := ofChar?_mark h
  rw [scan, hword, if_neg Bool.false_ne_true, if_neg hquote, hspace, if_neg Bool.false_ne_true, h]
  exact close_nil _

/-- the tokens of a document are those that it spells -/
theorem tokens?_of_spelled {ts : List Token} {cs : List Char} (h : Spelled ts cs) :
    tokens? cs = some ts := by
  unfold tokens?
  induction h with
  | nil => rw [scan, List.reverse_nil, close_nil]
  | space hc _ ih => rw [scan_space hc, ih]
  | @cons t ts w cs ht hsep _ ih =>
    cases ht with
    | word h hw =>
      have hend : EndsWord cs := hsep (isWord_of_ofWord? h)
      rw [scan_word hw, scan_of_endsWord hend, List.append_nil, List.reverse_reverse, close_word h,
        ih]
      rfl
    | mark h =>
      rw [List.singleton_append, scan_mark h, ih]
      rfl
    | @text ps ds h =>
      have he : '"' :: ds ++ ['"'] ++ cs = '"' :: (ds ++ '"' :: cs) := by simp
      rw [he, scan_quote, scanText_of_spelled h, ih]
      rfl

/-! ## What a text stands for -/

/-- the pieces of a text stand for its characters: every unit for the character of its number, or
two for one above the units -/
inductive Denotes : List Piece → List Char → Prop where
  | nil : Denotes [] []
  | char {c : Char} {ps : List Piece} {cs : List Char} (h : Denotes ps cs) :
      Denotes (.char c :: ps) (c :: cs)
  | unit {u : UInt16} {c : Char} {ps : List Piece} {cs : List Char} (hu : u.toNat = c.toNat)
      (h : Denotes ps cs) : Denotes (.unit u :: ps) (c :: cs)
  | pair {u v : UInt16} {c : Char} {ps : List Piece} {cs : List Char}
      (hu : 0xD800 ≤ u.toNat ∧ u.toNat < 0xDC00) (hv : 0xDC00 ≤ v.toNat ∧ v.toNat < 0xE000)
      (hc : c.toNat = 0x10000 + (u.toNat - 0xD800) * 0x400 + (v.toNat - 0xDC00))
      (h : Denotes ps cs) : Denotes (.unit u :: .unit v :: ps) (c :: cs)

theorem isHigh_iff {u : UInt16} : isHigh u = true ↔ 0xD800 ≤ u.toNat ∧ u.toNat < 0xDC00 := by
  simp [isHigh, UInt16.le_iff_toNat_le, UInt16.lt_iff_toNat_lt]

theorem isLow_iff {u : UInt16} : isLow u = true ↔ 0xDC00 ≤ u.toNat ∧ u.toNat < 0xE000 := by
  simp [isLow, UInt16.le_iff_toNat_le, UInt16.lt_iff_toNat_lt]

/-- no character has the number of a half -/
theorem not_half_of_toNat {u : UInt16} {c : Char} (h : u.toNat = c.toNat) :
    isHigh u = false ∧ isLow u = false := by
  have hvalid : c.toNat < 0xD800 ∨ 0xDFFF < c.toNat ∧ c.toNat < 0x110000 := c.valid
  rw [← Bool.not_eq_true, ← Bool.not_eq_true, isHigh_iff, isLow_iff]
  omega

/-- a unit with the number of a character stands for it -/
theorem decode?_unit {u : UInt16} {c : Char} (h : u.toNat = c.toNat) (r : List Piece) :
    decode? (.unit u :: r) = (decode? r).map (c :: ·) := by
  obtain ⟨hhigh, hlow⟩ := not_half_of_toNat h
  generalize hd : decode? r = x
  unfold decode?
  rw [hhigh, hlow, hd, h, Char.ofNat_toNat]
  rfl

theorem decode?_pair {u v : UInt16} (hu : isHigh u = true) (hv : isLow v = true) (r : List Piece) :
    decode? (.unit u :: .unit v :: r) = (decode? r).map (pair u v :: ·) := by
  rw [decode?, hu, hv]
  rfl

/-- the characters of a text are those that it stands for -/
theorem decode?_of_denotes {ps : List Piece} {cs : List Char} (h : Denotes ps cs) :
    decode? ps = some cs := by
  induction h with
  | nil => exact decode?_nil
  | char _ ih => rw [decode?_char, ih]; rfl
  | unit hu _ ih => rw [decode?_unit hu, ih]; rfl
  | @pair u v c ps cs hu hv hc _ ih =>
    have hpair : pair u v = c := by rw [pair, ← hc, Char.ofNat_toNat]
    rw [decode?_pair (isHigh_iff.2 hu) (isLow_iff.2 hv), ih, hpair]
    rfl

/-! ## Quoted characters -/

/-- the control characters that have a short escape -/
def shortControls : List Char := ['\x08', '\x0c', '\n', '\r', '\t']

/-- the piece that a quoted character is read as -/
def Piece.ofChar (c : Char) : Piece :=
  if isControl c = true ∧ c ∉ shortControls then .unit (UInt16.ofNat c.toNat) else .char c

theorem unit?_control {n : Nat} (h : n < 32) :
    unit? '0' '0' (Hex.lower (n / 16)) (Hex.lower (n % 16)) = some (UInt16.ofNat n) := by
  have h0 : Hex.value? '0' = some 0 := by decide
  have hn : ((0 * 16 + 0) * 16 + n / 16) * 16 + n % 16 = n := by omega
  unfold unit?
  rw [h0, Hex.value?_lower (show n / 16 < 16 by omega), Hex.value?_lower (show n % 16 < 16 by omega)]
  dsimp only
  rw [hn]

theorem Piece.ofChar_spelled (c : Char) : (ofChar c).Spelled (escape c) := by
  have hshort : ∀ {x y : Char}, escaped? y = some x → ofChar x = .char x → c = x →
      (ofChar c).Spelled ['\\', y] := by
    rintro x y hy hx rfl
    rw [hx]
    exact .short hy
  unfold escape
  split
  · next e => exact hshort (by decide) (by decide) e
  split
  · next e => exact hshort (by decide) (by decide) e
  split
  · next e => exact hshort (by decide) (by decide) e
  split
  · next e => exact hshort (by decide) (by decide) e
  split
  · next e => exact hshort (by decide) (by decide) e
  split
  · next e => exact hshort (by decide) (by decide) e
  split
  · next e => exact hshort (by decide) (by decide) e
  next hq hb h1 h2 h3 h4 h5 =>
  have hn : c ∉ shortControls := by simp [shortControls, *]
  split
  · next hc =>
    have hp : ofChar c = .unit (UInt16.ofNat c.toNat) := if_pos ⟨hc, hn⟩
    rw [hp]
    exact .unit (unit?_control (of_decide_eq_true hc))
  · next hc =>
    have hp : ofChar c = .char c := if_neg fun h => hc h.1
    rw [hp]
    exact .raw hq hb (by simpa using hc)

theorem denotes_ofChars (cs : List Char) : Denotes (cs.map Piece.ofChar) cs := by
  induction cs with
  | nil => exact .nil
  | cons c cs ih =>
    rw [List.map_cons]
    unfold Piece.ofChar
    split
    · next h =>
      have hc : c.toNat < 32 := of_decide_eq_true h.1
      exact .unit (UInt16.toNat_ofNat_of_lt' (Nat.lt_trans hc (by decide))) ih
    · exact .char ih

theorem decode?_ofChars (cs : List Char) : decode? (cs.map Piece.ofChar) = some cs :=
  decode?_of_denotes (denotes_ofChars cs)

theorem textSpelled_escape (cs : List Char) :
    TextSpelled (cs.map Piece.ofChar) (cs.flatMap escape) := by
  induction cs with
  | nil => exact .nil
  | cons c cs ih => exact .cons (Piece.ofChar_spelled c) ih

/-- a space ends a word as well as what follows it does -/
theorem EndsWord.spaces {cs b : List Char} (h : EndsWord cs) (hb : ∀ c ∈ b, isSpace c = true) :
    EndsWord (b ++ cs) := by
  cases b with
  | nil => exact h
  | cons c b =>
    intro x hx
    cases hx
    exact (isSpace_cases (hb c List.mem_cons_self)).1

namespace Spelled

variable {ts : List Token} {cs : List Char}

theorem spaces {b : List Char} (h : Spelled ts cs) (hb : ∀ c ∈ b, isSpace c = true) :
    Spelled ts (b ++ cs) := by
  induction b with
  | nil => exact h
  | cons c b ih =>
    exact .space (hb c List.mem_cons_self) (ih fun x hx => hb x (List.mem_cons_of_mem c hx))

theorem quote (w : List Char) (h : Spelled ts cs) :
    Spelled (.text (w.map Piece.ofChar) :: ts) (Json.quote w ++ cs) :=
  .cons (.text (textSpelled_escape w)) (fun hw => by cases hw) h

theorem mark {c : Char} {t : Token} (ht : ofChar? c = some t) (h : Spelled ts cs) :
    Spelled (t :: ts) (c :: cs) := by
  refine .cons (.mark ht) ?_ h
  intro hw
  rw [(ofChar?_mark ht).2.2.2] at hw
  cases hw

end Spelled

end PropertyIndex.Json
