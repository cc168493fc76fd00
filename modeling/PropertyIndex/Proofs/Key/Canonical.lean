import Mathlib.Data.String.Basic
import PropertyIndex.Proofs.Key.Codec

/-!
# Canonical keys

Many keys can be read as one text, but only one of them is the key that the text is written as.
These keys are known by their form alone: every byte of the text has one way to be spelled.

* `Key.Spelled`         how some bytes are spelled, stated apart from the codec;
* `Key.spell`           the one way to spell a byte;
* `spelled_iff`         bytes are spelled in this way only;
* `encodeChar_eq_spell` a character is written by spelling its bytes;
* `canonical_iff`       a key is the one of its text exactly if it stands for the empty text or
                        spells the bytes of some other.
-/

namespace PropertyIndex.Key

open Text

variable {b : UInt8} {bs : List UInt8} {s cs : List Char} {c : Char} {n : Nat}

/-! ## The spelling of bytes -/

/-- ASCII letters and digits and four marks -/
def Plain (c : Char) : Prop :=
  ('a' ≤ c ∧ c ≤ 'z') ∨ ('A' ≤ c ∧ c ≤ 'Z') ∨ ('0' ≤ c ∧ c ≤ '9') ∨ c ∈ ['.', '-', '*', '_']

/-- an upper-case hexadecimal digit and its value -/
inductive UpperDigit : Char → Nat → Prop where
  | decimal {c : Char} (low : '0' ≤ c) (high : c ≤ '9') : UpperDigit c (c.toNat - '0'.toNat)
  | letter {c : Char} (low : 'A' ≤ c) (high : c ≤ 'F') : UpperDigit c (c.toNat - 'A'.toNat + 10)

/-- one byte: a plain character, a plus sign for a space, or two digits for any other byte -/
inductive SpelledByte : UInt8 → List Char → Prop where
  | plain {b : UInt8} {c : Char} (kept : Plain c) (byte : b.toNat = c.toNat) : SpelledByte b [c]
  | space : SpelledByte 0x20 ['+']
  | digits {b : UInt8} {h l : Char} {x y : Nat} (high : UpperDigit h x) (low : UpperDigit l y)
      (byte : b.toNat = 16 * x + y) (special : ∀ c, Plain c → b.toNat ≠ c.toNat)
      (solid : b ≠ 0x20) : SpelledByte b ['%', h, l]

/-- some bytes, one after the other -/
inductive Spelled : List UInt8 → List Char → Prop where
  | nil : Spelled [] []
  | cons {b : UInt8} {s : List Char} {bs : List UInt8} {cs : List Char} (unit : SpelledByte b s)
      (rest : Spelled bs cs) : Spelled (b :: bs) (s ++ cs)

/-- the one way to spell a byte -/
def spell (b : UInt8) : List Char :=
  if isKept (Char.ofUInt8 b) then [Char.ofUInt8 b]
  else if b = 0x20 then ['+']
  else escapeByte b

/-! ## Plain characters and digits -/

theorem isKept_iff : isKept c = true ↔ Plain c := by
  show ((((((decide ('A' ≤ c ∧ c ≤ 'Z') || (decide ('a' ≤ c) && decide (c ≤ 'z'))) ||
    (decide ('0' ≤ c) && decide (c ≤ '9'))) || decide (c = '.')) || decide (c = '-')) ||
    decide (c = '*')) || decide (c = '_')) = true ↔ _
  unfold Plain
  simp only [Bool.or_eq_true, Bool.and_eq_true, decide_eq_true_eq, List.mem_cons,
    List.not_mem_nil, or_false, or_assoc]
  exact or_left_comm

theorem Plain.toNat_lt (h : Plain c) : c.toNat < 128 := by
  rcases h with ⟨_, h⟩ | ⟨_, h⟩ | ⟨_, h⟩ | h
  · have hz : c.toNat ≤ 122 := h
    omega
  · have hz : c.toNat ≤ 90 := h
    omega
  · have hz : c.toNat ≤ 57 := h
    omega
  · simp only [List.mem_cons, List.not_mem_nil, or_false] at h
    rcases h with rfl | rfl | rfl | rfl
    all_goals decide

theorem UpperDigit.eq_upper (h : UpperDigit c n) : n < 16 ∧ c = Hex.upper n := by
  cases h with
  | decimal low high =>
    have h0 : 48 ≤ c.toNat := low
    have h9 : c.toNat ≤ 57 := high
    have hn : c.toNat - '0'.toNat < 10 := by
      show c.toNat - 48 < 10
      omega
    have hc : 48 + (c.toNat - '0'.toNat) = c.toNat := by
      show 48 + (c.toNat - 48) = c.toNat
      omega
    refine ⟨by omega, ?_⟩
    unfold Hex.upper
    rw [if_pos hn, hc, Char.ofNat_toNat]
  | letter low high =>
    have h0 : 65 ≤ c.toNat := low
    have h9 : c.toNat ≤ 70 := high
    have hn : ¬ c.toNat - 'A'.toNat + 10 < 10 := by omega
    have hc : 55 + (c.toNat - 'A'.toNat + 10) = c.toNat := by
      show 55 + (c.toNat - 65 + 10) = c.toNat
      omega
    refine ⟨?_, ?_⟩
    · show c.toNat - 65 + 10 < 16
      omega
    · unfold Hex.upper
      rw [if_neg hn, hc, Char.ofNat_toNat]

theorem upperDigit_upper (h : n < 16) : UpperDigit (Hex.upper n) n := by
  have e : ∀ i : Fin 16,
      ('0' ≤ Hex.upper i ∧ Hex.upper i ≤ '9' ∧ (Hex.upper i).toNat - '0'.toNat = i.1) ∨
        ('A' ≤ Hex.upper i ∧ Hex.upper i ≤ 'F' ∧ (Hex.upper i).toNat - 'A'.toNat + 10 = i.1) := by
    decide
  rcases e ⟨n, h⟩ with ⟨low, high, hn⟩ | ⟨low, high, hn⟩
  · have hd := UpperDigit.decimal low high
    rwa [hn] at hd
  · have hd := UpperDigit.letter low high
    rwa [hn] at hd

/-! ## One byte -/

theorem toNat_ofUInt8 (b : UInt8) : (Char.ofUInt8 b).toNat = b.toNat :=
  UInt8.toNat_toUInt32 b

theorem ofUInt8_of_toNat_eq (h : b.toNat = c.toNat) : Char.ofUInt8 b = c :=
  Char.toNat_inj.1 ((toNat_ofUInt8 b).trans h)

/-- **A byte is spelled in one way.** -/
theorem spelledByte_iff : SpelledByte b s ↔ s = spell b := by
  constructor
  · intro h
    unfold spell
    cases h with
    | plain kept byte =>
      rw [ofUInt8_of_toNat_eq byte, if_pos (isKept_iff.2 kept)]
    | space => rfl
    | @digits _ _ _ x y high low byte special solid =>
      have hk : ¬ isKept (Char.ofUInt8 b) = true := by
        intro hk
        exact special _ (isKept_iff.1 hk) (toNat_ofUInt8 b).symm
      obtain ⟨_, hh⟩ := high.eq_upper
      obtain ⟨hy, hl⟩ := low.eq_upper
      have hdiv : b.toNat / 16 = x := by omega
      have hmod : b.toNat % 16 = y := by omega
      rw [if_neg hk, if_neg solid, hh, hl, ← hdiv, ← hmod]
      rfl
  · intro h
    rw [h]
    unfold spell
    have hb : b.toNat < 256 := b.toNat_lt
    by_cases hk : isKept (Char.ofUInt8 b) = true
    · rw [if_pos hk]
      exact .plain (isKept_iff.1 hk) (toNat_ofUInt8 b).symm
    · rw [if_neg hk]
      by_cases hs : b = 0x20
      · rw [if_pos hs, hs]
        exact .space
      · rw [if_neg hs]
        refine .digits (upperDigit_upper (n := b.toNat / 16) (by omega))
          (upperDigit_upper (n := b.toNat % 16) (by omega)) (by omega) ?_ hs
        intro c hc e
        apply hk
        rw [ofUInt8_of_toNat_eq e]
        exact isKept_iff.2 hc

theorem spell_ne_nil (b : UInt8) : spell b ≠ [] := by
  unfold spell
  split
  · exact List.cons_ne_nil _ _
  · split
    · exact List.cons_ne_nil _ _
    · exact List.cons_ne_nil _ _

/-! ## Some bytes -/

theorem spelled_spell (bs : List UInt8) : Spelled bs (bs.flatMap spell) := by
  induction bs with
  | nil => exact .nil
  | cons b bs ih =>
    rw [List.flatMap_cons]
    exact .cons (spelledByte_iff.2 rfl) ih

/-- bytes are spelled in one way -/
theorem spelled_iff : Spelled bs cs ↔ cs = bs.flatMap spell := by
  constructor
  · intro h
    induction h with
    | nil => rfl
    | cons unit rest ih => rw [List.flatMap_cons, ← ih, spelledByte_iff.1 unit]
  · intro h
    rw [h]
    exact spelled_spell bs

/-- a character is written by spelling its bytes -/
theorem encodeChar_eq_spell (c : Char) :
    encodeChar c = (String.utf8EncodeChar c).flatMap spell := by
  unfold encodeChar
  by_cases hk : isKept c = true
  · have hlt := (isKept_iff.1 hk).toNat_lt
    have hc : Char.ofUInt8 (UInt8.ofNat c.toNat) = c :=
      ofUInt8_of_toNat_eq (UInt8.toNat_ofNat_of_lt' (by show c.toNat < 256; omega))
    rw [if_pos hk, utf8EncodeChar_of_lt hlt, List.flatMap_singleton]
    unfold spell
    rw [hc, if_pos hk]
  · rw [if_neg hk]
    by_cases hs : c = ' '
    · rw [if_pos hs, hs]
      rfl
    · rw [if_neg hs]
      refine List.flatMap_congr ?_
      intro b hb
      -- a byte of a character that is neither plain nor a space is neither of them itself
      have hne : ∀ d : Char, d.toNat < 128 → b.toNat = d.toNat → d = c := by
        intro d hd e
        rcases mem_utf8EncodeChar hb with he | he
        · exact Char.toNat_inj.1 (e.symm.trans he)
        · omega
      unfold spell
      rw [if_neg, if_neg]
      · intro h20
        exact hs (hne ' ' (by decide) (congrArg UInt8.toNat h20)).symm
      · intro hkept
        have hlt := (isKept_iff.1 hkept).toNat_lt
        rw [hne _ hlt (toNat_ofUInt8 b).symm] at hkept
        exact hk hkept

example : [0x61, 0x20, 0xC3, 0xBC].flatMap spell = "a+%C3%BC".toList := by decide

theorem encodeChars_eq_spell (cs : List Char) :
    cs.flatMap encodeChar = (cs.flatMap String.utf8EncodeChar).flatMap spell := by
  induction cs with
  | nil => rfl
  | cons c cs ih =>
    rw [List.flatMap_cons, List.flatMap_cons, List.flatMap_append, ih, encodeChar_eq_spell]

/-! ## Whole keys -/

theorem length_le_length_flatMap {α β : Type} {f : α → List β} (h : ∀ a, f a ≠ []) (as : List α) :
    as.length ≤ (as.flatMap f).length := by
  induction as with
  | nil => exact Nat.le_refl _
  | cons a as ih =>
    have ha : 0 < (f a).length := List.length_pos_iff.2 (h a)
    rw [List.flatMap_cons, List.length_append, List.length_cons]
    omega

/-- the bytes of a text are those of its characters -/
theorem toByteArray_eq_iff {v : String} :
    bs.toByteArray = v.toUTF8 ↔ bs = v.toList.flatMap String.utf8EncodeChar := by
  have hv : (v.toList.flatMap String.utf8EncodeChar).toByteArray = v.toUTF8 :=
    String.utf8Encode_toList
  rw [← hv, List.toByteArray_inj]

/-- the key of a text that is not cut spells the bytes of the text -/
theorem encode_eq_iff_spelled {value key : String} (hne : value ≠ "") (hlen : value.length ≤ n) :
    encode value n = key ↔ Spelled (value.toList.flatMap String.utf8EncodeChar) key.toList := by
  have htake : value.toList.take n = value.toList := List.take_of_length_le hlen
  have hnil : value.toList ≠ [] := mt String.toList_eq_nil_iff.1 hne
  rw [encode_of_ne_nil (by rwa [htake]), htake, spelled_iff, ← encodeChars_eq_spell, eq_comm,
    ← String.toList_inj, String.toList_ofList]

/-- a key is the one of its text, if it was not cut -/
theorem canonical_iff_exists (key : String) (n : Nat) :
    (∃ v, decode key = .ok v ∧ encode v n = key) ↔
      ∃ v : String, v.length ≤ n ∧ encode v n = key := by
  constructor
  · intro ⟨v, hd, he⟩
    rw [← he, decode_encode, Except.ok.injEq] at hd
    refine ⟨v, ?_, he⟩
    have hlen := congrArg String.length hd
    rw [String.length_ofList, List.length_take] at hlen
    omega
  · intro ⟨v, hlen, he⟩
    have htake : v.toList.take n = v.toList := List.take_of_length_le hlen
    refine ⟨v, ?_, he⟩
    rw [← he, decode_encode, htake, String.ofList_toList]

/-- the key of a text that is not cut is the empty token, or spells the bytes of the text -/
theorem exists_encode_eq_iff (key : String) (n : Nat) :
    (∃ v : String, v.length ≤ n ∧ encode v n = key) ↔
      key = emptyToken ∨
        ∃ (bs : List UInt8) (v : String), bs ≠ [] ∧ Spelled bs key.toList ∧
          bs.toByteArray = v.toUTF8 ∧ v.length ≤ n := by
  constructor
  · intro ⟨v, hlen, he⟩
    by_cases hv : v = ""
    · left
      rw [← he, hv]
      exact encode_of_nil List.take_nil
    · right
      have hs := (encode_eq_iff_spelled hv hlen).1 he
      refine ⟨_, v, ?_, hs, toByteArray_eq_iff.2 rfl, hlen⟩
      intro hnil
      rw [hnil, spelled_iff, List.flatMap_nil, String.toList_eq_nil_iff, ← he] at hs
      exact encode_ne_empty v n hs
  · rintro (hk | ⟨bs, v, hne, hs, hb, hlen⟩)
    · refine ⟨"", Nat.zero_le n, ?_⟩
      rw [hk]
      exact encode_of_nil List.take_nil
    · rw [toByteArray_eq_iff.1 hb] at hne hs
      refine ⟨v, hlen, (encode_eq_iff_spelled ?_ hlen).2 hs⟩
      intro hv
      rw [hv] at hne
      exact hne rfl

/-- a text has at most as many characters as its bytes are spelled with -/
theorem length_le_of_spelled {v : String} (hs : Spelled bs cs) (hb : bs.toByteArray = v.toUTF8) :
    v.length ≤ cs.length := by
  calc v.length ≤ bs.length := by
        rw [toByteArray_eq_iff.1 hb]
        exact length_le_length_flatMap (fun _ => String.utf8EncodeChar_ne_nil) _
    _ ≤ cs.length := by
        rw [spelled_iff.1 hs]
        exact length_le_length_flatMap spell_ne_nil bs

/-- **The canonical keys are the empty token and the spellings of well-formed bytes.**  A key is the
one that its own text is written as if and only if it is `:` or spells, byte after byte, a text that
is not empty and not longer than the limit; a limit that is not below the length of the key excludes
nothing. -/
theorem canonical_iff (key : String) (n : Nat) :
    ((∃ v, decode key = .ok v ∧ encode v n = key) ↔
        key = ":" ∨
          ∃ (bs : List UInt8) (v : String), bs ≠ [] ∧ Spelled bs key.toList ∧
            bs.toByteArray = v.toUTF8 ∧ v.length ≤ n) ∧
      (key.length ≤ n →
        ((∃ v, decode key = .ok v ∧ encode v n = key) ↔
          key = ":" ∨ ∃ bs, bs ≠ [] ∧ Spelled bs key.toList ∧ bs.toByteArray.IsValidUTF8)) := by
  have hfirst := (canonical_iff_exists key n).trans (exists_encode_eq_iff key n)
  refine ⟨hfirst, ?_⟩
  intro hlen
  rw [hfirst]
  refine or_congr Iff.rfl ?_
  constructor
  · intro ⟨bs, v, hne, hs, hb, _⟩
    refine ⟨bs, hne, hs, ?_⟩
    rw [hb]
    exact v.isValidUTF8
  · intro ⟨bs, hne, hs, ⟨m, hm⟩⟩
    have hb : bs.toByteArray = (String.ofList m).toUTF8 := by
      rw [hm]
      exact String.toByteArray_ofList.symm
    exact ⟨bs, String.ofList m, hne, hs, hb, Nat.le_trans (length_le_of_spelled hs hb) hlen⟩

end PropertyIndex.Key
