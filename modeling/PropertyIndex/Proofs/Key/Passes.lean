import PropertyIndex.Proofs.Key.Codec

/-!
# Keys in two passes

A key can be made in two passes: every character that does not stand for itself is escaped, and then
the escapes of spaces become plus signs.  It is read in the opposite order.  Each way comes to the
single pass of `Key.encode` and `Key.decode`.

* `encodeInPasses`   escapes, and then replaces `%20` by `+`;
* `decodeInPasses`   replaces `+` by a space, and then reads the escapes;
* `encode_eq_encodeInPasses`, `decode_eq_decodeInPasses`   the single passes come to the same;
* `codec_exact`      what a key keeps of its text, and what it can be used for.
-/

namespace PropertyIndex.Key

open Text

/-! ## The passes -/

/-- a character that does not stand for itself is escaped byte by byte, a space as well -/
def escapeChar (c : Char) : List Char :=
  if isKept c then [c] else (String.utf8EncodeChar c).flatMap escapeByte

/-- every escape of a space, from the left, becomes a plus sign -/
def plusForSpace : List Char → List Char
  | '%' :: '2' :: '0' :: r => '+' :: plusForSpace r
  | c :: r => c :: plusForSpace r
  | [] => []

/-- a plus sign becomes a space -/
def spaceForPlus (c : Char) : Char := if c = '+' then ' ' else c

/-- reads the escapes; a per-cent sign without two digits stands for itself -/
def unescape : List Char → List UInt8
  | [] => []
  | '%' :: h :: l :: r =>
    match Hex.value? h, Hex.value? l with
    | some a, some b => UInt8.ofNat (16 * a + b) :: unescape r
    | _, _ => 0x25 :: unescape (h :: l :: r)
  | c :: r => String.utf8EncodeChar c ++ unescape r

/-- escapes the first characters of a text, and then writes the spaces -/
def encodeInPasses (value : String) (maxLength : Nat) : String :=
  let cut := value.toList.take maxLength
  if cut = [] then emptyToken else String.ofList (plusForSpace (cut.flatMap escapeChar))

/-- reads the spaces of a key, and then the escapes -/
def decodeInPasses (key : String) : Except Error String :=
  if key = emptyToken then .ok ""
  else
    match String.fromUTF8? (unescape (key.toList.map spaceForPlus)).toByteArray with
    | some s => .ok s
    | none => .error (.illFormedKey key)

theorem plusForSpace_cons {c : Char} (h : c ≠ '%') (r : List Char) :
    plusForSpace (c :: r) = c :: plusForSpace r := by
  rw [plusForSpace]
  exact fun _ e _ => h e

theorem plusForSpace_escape {h l : Char} (hne : ¬ (h = '2' ∧ l = '0')) (r : List Char) :
    plusForSpace ('%' :: h :: l :: r) = '%' :: plusForSpace (h :: l :: r) := by
  rw [plusForSpace]
  intro r' _ e
  rw [List.cons.injEq, List.cons.injEq] at e
  exact hne ⟨e.1, e.2.1⟩

theorem unescape_cons {c : Char} (h : c ≠ '%') (r : List Char) :
    unescape (c :: r) = String.utf8EncodeChar c ++ unescape r := by
  rw [unescape]
  exact fun _ _ _ e _ => h e

/-- a per-cent sign without two digits stands for itself -/
theorem unescape_loose {h l : Char}
    (hne : ∀ a b, Hex.value? h = some a → Hex.value? l = some b → False) (r : List Char) :
    unescape ('%' :: h :: l :: r) = 0x25 :: unescape (h :: l :: r) := by
  rw [unescape]
  split
  · next a b ha hb => exact absurd hb (hne a b ha)
  · rfl

/-! ## Making a key -/

theorem upper_injective {a b : Nat} (ha : a < 16) (hb : b < 16) (h : Hex.upper a = Hex.upper b) :
    a = b := by
  have hv := Hex.value?_upper ha
  rw [h, Hex.value?_upper hb] at hv
  exact (Option.some.inj hv).symm

theorem plusForSpace_escapeByte {b : UInt8} (h : b ≠ 0x20) (r : List Char) :
    plusForSpace (escapeByte b ++ r) = escapeByte b ++ plusForSpace r := by
  have hb : b.toNat < 256 := b.toNat_lt
  have hh : b.toNat / 16 < 16 := by omega
  have hl : b.toNat % 16 < 16 := by omega
  have hne : ∀ k, k < 16 → Hex.upper k ≠ '%' := by
    intro k hk e
    have hkept := isKept_upper hk
    rw [e] at hkept
    exact absurd hkept (by decide)
  -- the two digits are not those of a space
  have hdigits : ¬ (Hex.upper (b.toNat / 16) = '2' ∧ Hex.upper (b.toNat % 16) = '0') := by
    rintro ⟨h2, h0⟩
    have e2 : b.toNat / 16 = 2 := upper_injective hh (by omega) h2
    have e0 : b.toNat % 16 = 0 := upper_injective hl (by omega) h0
    apply h
    apply UInt8.toNat_inj.1
    show b.toNat = 32
    omega
  show plusForSpace ('%' :: Hex.upper (b.toNat / 16) :: Hex.upper (b.toNat % 16) :: r) = _
  rw [plusForSpace_escape hdigits, plusForSpace_cons (hne _ hh), plusForSpace_cons (hne _ hl)]
  rfl

theorem plusForSpace_escapeBytes {bs : List UInt8} (h : 0x20 ∉ bs) (r : List Char) :
    plusForSpace (bs.flatMap escapeByte ++ r) = bs.flatMap escapeByte ++ plusForSpace r := by
  induction bs with
  | nil => rfl
  | cons b bs ih =>
    rw [List.mem_cons, not_or] at h
    rw [List.flatMap_cons, List.append_assoc, plusForSpace_escapeByte (Ne.symm h.1), ih h.2,
      List.append_assoc]

/-- in the bytes of a text, the byte of a space comes from a space -/
theorem space_notMem_utf8EncodeChar {c : Char} (h : c ≠ ' ') :
    0x20 ∉ String.utf8EncodeChar c := by
  intro hm
  rcases mem_utf8EncodeChar hm with e | e
  · exact h (Char.toNat_inj.1 e.symm)
  · exact absurd e (by decide)

/-- the two passes over one character, whatever follows -/
theorem plusForSpace_escapeChar (c : Char) (r : List Char) :
    plusForSpace (escapeChar c ++ r) = encodeChar c ++ plusForSpace r := by
  unfold escapeChar encodeChar
  by_cases hk : isKept c = true
  · rw [if_pos hk, if_pos hk]
    apply plusForSpace_cons
    rintro rfl
    exact absurd hk (by decide)
  · rw [if_neg hk, if_neg hk]
    by_cases hs : c = ' '
    · rw [if_pos hs, hs]
      rfl
    · rw [if_neg hs]
      exact plusForSpace_escapeBytes (space_notMem_utf8EncodeChar hs) r

theorem plusForSpace_escapeChars (cs : List Char) :
    plusForSpace (cs.flatMap escapeChar) = cs.flatMap encodeChar := by
  induction cs with
  | nil => rfl
  | cons c cs ih => rw [List.flatMap_cons, plusForSpace_escapeChar, ih, List.flatMap_cons]

theorem encode_eq_encodeInPasses (value : String) (n : Nat) :
    encode value n = encodeInPasses value n := by
  unfold encodeInPasses
  dsimp only
  rw [plusForSpace_escapeChars]
  split
  · next h => exact encode_of_nil h
  · next h => exact encode_of_ne_nil h

/-! ## Reading a key -/

theorem value?_spaceForPlus (c : Char) : Hex.value? (spaceForPlus c) = Hex.value? c := by
  unfold spaceForPlus
  split
  · next h =>
    rw [h]
    decide
  · rfl

theorem bytes_eq_unescape (cs : List Char) : bytes cs = unescape (cs.map spaceForPlus) := by
  induction cs using bytes.induct with
  | case1 => rfl
  | case2 h l r a b ha hb ih =>
    have hmap : ('%' :: h :: l :: r).map spaceForPlus
        = '%' :: spaceForPlus h :: spaceForPlus l :: r.map spaceForPlus := rfl
    rw [hmap, bytes, unescape, value?_spaceForPlus, value?_spaceForPlus, ha, hb, ih]
  | case3 h l r hne ih =>
    have hbytes : bytes ('%' :: h :: l :: r) = 0x25 :: bytes (h :: l :: r) := by
      rw [bytes]
      split
      · next a b ha hb => exact absurd hb (hne a b ha)
      · rfl
    rw [hbytes, ih]
    refine (unescape_loose ?_ _).symm
    rw [value?_spaceForPlus, value?_spaceForPlus]
    exact hne
  | case4 r ih =>
    rw [bytes, List.map_cons, ih]
    exact (unescape_cons (c := ' ') (by decide) _).symm
  | case5 c r h1 h2 ih =>
    have hc : spaceForPlus c = c := if_neg h2
    rw [bytes, List.map_cons, hc, ih]
    · by_cases hp : c = '%'
      · -- fewer than two characters follow
        subst hp
        cases r with
        | nil => rfl
        | cons h r =>
          cases r with
          | nil => rfl
          | cons l r => exact absurd rfl (h1 h l r rfl)
      · exact (unescape_cons hp _).symm
    · exact h1
    · exact h2

theorem decode_eq_decodeInPasses (key : String) : decode key = decodeInPasses key := by
  unfold decodeInPasses
  rw [← bytes_eq_unescape]
  rfl

/-! ## Exactness -/

/-- **Keys are exact**: made and read in two passes, a key is read back as its text up to the length,
so two texts have one key just if they agree up to there; and every key can be the name of a node
other than the head. -/
theorem codec_exact (a b : String) (n : Nat) :
    (encode a n = encodeInPasses a n ∧ decode (encode a n) = decodeInPasses (encode a n)) ∧
      decode (encode a n) = .ok (String.ofList (a.toList.take n)) ∧
      (encode a n = encode b n ↔ a.toList.take n = b.toList.take n) ∧
      check (encode a n) = .ok () ∧ encode a n ≠ startName :=
  ⟨⟨encode_eq_encodeInPasses a n, decode_eq_decodeInPasses _⟩, decode_encode a n, encode_eq_iff,
    check_eq_ok_iff.2 ⟨encode_ne_empty a n, slash_notMem_encode a n⟩, encode_ne_startName a n⟩

example : encodeInPasses "%20 +" 5 = "%2520+%2B" := by decide +kernel

end PropertyIndex.Key
