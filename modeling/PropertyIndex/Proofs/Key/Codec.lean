import PropertyIndex.Chain.Entry
import PropertyIndex.Key

/-!
# Keys and the texts that they stand for

* `bytes_encodeChar`   the bytes of a written character are those of the character, whatever follows;
* `decode_encode`      so a key is read back as the text that it was made of, cut to the length;
* `encode_eq_iff`      two texts have the same key when they agree up to the length;
* `encode_ne_empty`, `slash_notMem_encode`, `encode_ne_startName`   a key can be the name of a node,
                       and is never that of the head.
-/

namespace PropertyIndex.Key

open Text

variable {value : String} {n : Nat}

/-! ## The characters of a key -/

theorem isKept_upper {k : Nat} (h : k < 16) : isKept (Hex.upper k) = true := by
  have e : ∀ i : Fin 16, isKept (Hex.upper i.1) = true := by decide
  exact e ⟨k, h⟩

theorem mem_escapeByte {x : Char} {b : UInt8} (h : x ∈ escapeByte b) :
    isKept x = true ∨ x = '%' := by
  have hb : b.toNat < 256 := b.toNat_lt
  simp only [escapeByte, List.mem_cons, List.not_mem_nil, or_false] at h
  rcases h with rfl | rfl | rfl
  · exact .inr rfl
  · exact .inl (isKept_upper (by omega))
  · exact .inl (isKept_upper (by omega))

theorem mem_encodeChar {x c : Char} (h : x ∈ encodeChar c) :
    isKept x = true ∨ x = '+' ∨ x = '%' := by
  unfold encodeChar at h
  split at h
  · next hc =>
    rw [List.mem_singleton.1 h]
    exact .inl hc
  · split at h
    · exact .inr (.inl (List.mem_singleton.1 h))
    · obtain ⟨b, _, hx⟩ := List.mem_flatMap.1 h
      exact (mem_escapeByte hx).imp_right .inr

theorem encodeChar_ne_nil (c : Char) : encodeChar c ≠ [] := by
  unfold encodeChar
  split
  · simp
  · split
    · simp
    · cases h : String.utf8EncodeChar c with
      | nil => exact absurd h String.utf8EncodeChar_ne_nil
      | cons b bs => simp [escapeByte]

/-! ## The bytes of a character -/

theorem utf8EncodeChar_of_lt {c : Char} (h : c.toNat < 128) :
    String.utf8EncodeChar c = [UInt8.ofNat c.toNat] := by
  unfold String.utf8EncodeChar
  exact if_pos (Nat.le_of_lt_succ h)

/-- a byte below 128 is the whole character -/
theorem mem_utf8EncodeChar {b : UInt8} {c : Char} (h : b ∈ String.utf8EncodeChar c) :
    b.toNat = c.toNat ∨ 128 ≤ b.toNat := by
  by_cases hlt : c.toNat < 128
  · rw [utf8EncodeChar_of_lt hlt, List.mem_singleton] at h
    rw [h, UInt8.toNat_ofNat_of_lt' (by show c.toNat < 256; omega)]
    exact .inl rfl
  · right
    have hbyte : ∀ k, 128 ≤ k → k < 256 → b = UInt8.ofNat k → 128 ≤ b.toNat := by
      intro k h1 h2 e
      rw [e, UInt8.toNat_ofNat_of_lt' h2]
      exact h1
    have hv : ¬ c.val.toNat ≤ 127 := fun hle => hlt (Nat.lt_succ_of_le hle)
    unfold String.utf8EncodeChar at h
    dsimp only at h
    rw [if_neg hv] at h
    split at h
    · simp only [List.mem_cons, List.not_mem_nil, or_false] at h
      rcases h with e | e
      all_goals exact hbyte _ (by omega) (by omega) e
    · split at h
      · simp only [List.mem_cons, List.not_mem_nil, or_false] at h
        rcases h with e | e | e
        all_goals exact hbyte _ (by omega) (by omega) e
      · simp only [List.mem_cons, List.not_mem_nil, or_false] at h
        rcases h with e | e | e | e
        all_goals exact hbyte _ (by omega) (by omega) e

/-! ## Reading a key -/

theorem bytes_escapeByte (b : UInt8) (r : List Char) : bytes (escapeByte b ++ r) = b :: bytes r := by
  have hb : b.toNat < 256 := b.toNat_lt
  have hh : Hex.value? (Hex.upper (b.toNat / 16)) = some (b.toNat / 16) :=
    Hex.value?_upper (by omega)
  have hl : Hex.value? (Hex.upper (b.toNat % 16)) = some (b.toNat % 16) :=
    Hex.value?_upper (by omega)
  show bytes ('%' :: Hex.upper (b.toNat / 16) :: Hex.upper (b.toNat % 16) :: r) = _
  rw [bytes, hh, hl]
  dsimp only
  rw [Nat.div_add_mod, UInt8.ofNat_toNat]

theorem bytes_escape (bs : List UInt8) (r : List Char) :
    bytes (bs.flatMap escapeByte ++ r) = bs ++ bytes r := by
  induction bs with
  | nil => rfl
  | cons b bs ih => rw [List.flatMap_cons, List.append_assoc, bytes_escapeByte, ih, List.cons_append]

theorem bytes_cons {c : Char} (h1 : c ≠ '%') (h2 : c ≠ '+') (r : List Char) :
    bytes (c :: r) = String.utf8EncodeChar c ++ bytes r := by
  rw [bytes]
  · exact fun _ _ _ e _ => h1 e
  · exact h2

/-- the bytes of a written character are those of the character, whatever follows -/
theorem bytes_encodeChar (c : Char) (r : List Char) :
    bytes (encodeChar c ++ r) = String.utf8EncodeChar c ++ bytes r := by
  unfold encodeChar
  split
  · next hc =>
    refine bytes_cons ?_ ?_ r
    · rintro rfl
      exact absurd hc (by decide)
    · rintro rfl
      exact absurd hc (by decide)
  · split
    · next hc =>
      rw [hc]
      rfl
    · exact bytes_escape _ r

theorem bytes_encode (cs : List Char) :
    bytes (cs.flatMap encodeChar) = cs.flatMap String.utf8EncodeChar := by
  induction cs with
  | nil => rfl
  | cons c cs ih => rw [List.flatMap_cons, bytes_encodeChar, ih, List.flatMap_cons]

/-! ## Whole keys -/

theorem encode_of_nil (h : value.toList.take n = []) : encode value n = emptyToken := by
  unfold encode
  rw [h]

theorem encode_of_ne_nil (h : value.toList.take n ≠ []) :
    encode value n = String.ofList ((value.toList.take n).flatMap encodeChar) := by
  unfold encode
  split
  · next he => exact absurd he h
  · next c cs he => rw [he]

theorem mem_encode (h : value.toList.take n ≠ []) {x : Char} (hx : x ∈ (encode value n).toList) :
    isKept x = true ∨ x = '+' ∨ x = '%' := by
  rw [encode_of_ne_nil h, String.toList_ofList] at hx
  obtain ⟨c, _, hc⟩ := List.mem_flatMap.1 hx
  exact mem_encodeChar hc

theorem colon_notMem_encode (h : value.toList.take n ≠ []) : ':' ∉ (encode value n).toList := by
  intro hx
  have hk := mem_encode h hx
  revert hk
  decide

theorem encode_eq_emptyToken_iff : encode value n = emptyToken ↔ value.toList.take n = [] := by
  refine ⟨?_, encode_of_nil⟩
  intro he
  by_cases h : value.toList.take n = []
  · exact h
  · refine absurd ?_ (colon_notMem_encode h)
    rw [he]
    decide

/-- **A key is read back as its text**, cut to the length with which the key was made. -/
theorem decode_encode (value : String) (n : Nat) :
    decode (encode value n) = .ok (String.ofList (value.toList.take n)) := by
  unfold decode
  by_cases h : value.toList.take n = []
  · rw [encode_of_nil h, if_pos rfl, h]
  · have hb : (bytes (encode value n).toList).toByteArray = (value.toList.take n).utf8Encode := by
      rw [encode_of_ne_nil h, String.toList_ofList, bytes_encode]
      rfl
    have hs : String.fromUTF8? (value.toList.take n).utf8Encode
        = some (String.ofList (value.toList.take n)) :=
      dif_pos ByteArray.isValidUTF8_utf8Encode
    rw [if_neg (mt encode_eq_emptyToken_iff.1 h), hb, hs]

example : encode "a b/üx" 5 = "a+b%2F%C3%BC" := by decide +kernel

/-- two texts have the same key when they agree up to the length -/
theorem encode_eq_iff {v w : String} :
    encode v n = encode w n ↔ v.toList.take n = w.toList.take n := by
  constructor
  · intro h
    have hd := decode_encode v n
    rw [h, decode_encode, Except.ok.injEq] at hd
    exact (String.ofList_injective hd).symm
  · intro h
    unfold encode
    rw [h]

/-! ## Keys as names of nodes -/

theorem encode_ne_empty (value : String) (n : Nat) : encode value n ≠ "" := by
  by_cases h : value.toList.take n = []
  · rw [encode_of_nil h]
    decide
  · rw [encode_of_ne_nil h]
    intro he
    obtain ⟨c, cs, hc⟩ := List.exists_cons_of_ne_nil h
    have hnil : (value.toList.take n).flatMap encodeChar = [] := by
      simpa using congrArg String.toList he
    rw [hc, List.flatMap_cons, List.append_eq_nil_iff] at hnil
    exact encodeChar_ne_nil c hnil.1

theorem slash_notMem_encode (value : String) (n : Nat) : '/' ∉ (encode value n).toList := by
  by_cases h : value.toList.take n = []
  · rw [encode_of_nil h]
    decide
  · intro hx
    have hk := mem_encode h hx
    revert hk
    decide

theorem encode_ne_startName (value : String) (n : Nat) : encode value n ≠ startName := by
  by_cases h : value.toList.take n = []
  · rw [encode_of_nil h]
    decide
  · intro he
    apply colon_notMem_encode h
    rw [he]
    decide

end PropertyIndex.Key
