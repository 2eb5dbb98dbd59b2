import DShuffle.Base.ByteMemory

/-!
# UTF-8 and UTF-16

A text is a list of Unicode scalar values. `utf8` and `utf16` are its two
encodings, the second one in little-endian code units. Each comes with a decoder
that fails on what is not an encoding: `decodeUtf8` is the core library's, and
`decodeUtf16` refuses unpaired surrogates. So a string of bytes is well formed
exactly when its decoder accepts it.
-/

namespace DShuffle.Base

/-! ### UTF-8 -/

/-- A text in UTF-8. -/
def utf8 (cs : List Char) : Bytes := cs.flatMap String.utf8EncodeChar

/-- The text that bytes encode in UTF-8. -/
def decodeUtf8 (bs : Bytes) : Option (List Char) := bs.toByteArray.utf8Decode?.map Array.toList

theorem utf8Encode_eq (cs : List Char) : cs.utf8Encode = (utf8 cs).toByteArray := rfl

theorem toByteArray_inj {bs cs : Bytes} (h : bs.toByteArray = cs.toByteArray) : bs = cs := by
  have hd := congrArg ByteArray.data h
  rwa [List.data_toByteArray, List.data_toByteArray, Array.mk.injEq] at hd

/-- The decoder accepts encodings, and nothing else. -/
theorem decodeUtf8_eq_some_iff {bs : Bytes} {cs : List Char} : decodeUtf8 bs = some cs ↔ utf8 cs = bs := by
  unfold decodeUtf8
  constructor
  · intro h
    obtain ⟨a, ha, rfl⟩ := Option.map_eq_some_iff.mp h
    have hs : bs.toByteArray.utf8Decode?.isSome := by rw [ha]; rfl
    have henc := ByteArray.utf8Encode_get_utf8Decode? (b := bs.toByteArray) (h := hs)
    simp only [ha, Option.get_some] at henc
    exact toByteArray_inj henc
  · rintro rfl
    rw [← utf8Encode_eq, List.utf8Decode?_utf8Encode]
    rfl

/-- Of two texts, one in UTF-8 a prefix of the other, the one is a prefix of the other. -/
theorem prefix_of_utf8_append {cs ds : List Char} {bs : Bytes} (h : utf8 cs ++ bs = utf8 ds) : cs <+: ds := by
  refine List.isPrefix_of_utf8Encode_append_eq_utf8Encode bs.toByteArray ?_
  rw [utf8Encode_eq, utf8Encode_eq, ← h, List.toByteArray_append]

/-! ### UTF-16 -/

/-- A scalar value in UTF-16: one code unit, or a pair of surrogates. -/
def utf16Char (c : Char) : Bytes :=
  if c.toNat < 0x10000 then le 2 c.toNat
  else le 2 (0xD800 + (c.toNat - 0x10000) / 0x400) ++ le 2 (0xDC00 + (c.toNat - 0x10000) % 0x400)

/-- A text in UTF-16. -/
def utf16 (cs : List Char) : Bytes := cs.flatMap utf16Char

/-- The text that bytes encode in UTF-16: a code unit below or above the surrogates stands for itself, a high
surrogate must be followed by a low one. -/
def decodeUtf16 : Bytes → Option (List Char)
  | [] => some []
  | [_] => none
  | x :: y :: rest =>
    if ofLe [x, y] < 0xD800 ∨ 0xE000 ≤ ofLe [x, y] then (decodeUtf16 rest).map (Char.ofNat (ofLe [x, y]) :: ·)
    else
      match rest with
      | x' :: y' :: rest' =>
        if ofLe [x, y] < 0xDC00 ∧ 0xDC00 ≤ ofLe [x', y'] ∧ ofLe [x', y'] < 0xE000 then
          (decodeUtf16 rest').map
            (Char.ofNat (0x10000 + (ofLe [x, y] - 0xD800) * 0x400 + (ofLe [x', y'] - 0xDC00)) :: ·)
        else none
      | _ => none

theorem utf16_cons (c : Char) (cs : List Char) : utf16 (c :: cs) = utf16Char c ++ utf16 cs := List.flatMap_cons

theorem utf16_append (cs ds : List Char) : utf16 (cs ++ ds) = utf16 cs ++ utf16 ds := List.flatMap_append

theorem length_utf16Char (c : Char) : (utf16Char c).length = if c.toNat < 0x10000 then 2 else 4 := by
  unfold utf16Char
  split_ifs
  · rw [length_le]
  · rw [List.length_append, length_le, length_le]

theorem ofLe_pair_lt (x y : UInt8) : ofLe [x, y] < 0x10000 := by
  have h : ofLe [x, y] < 256 ^ 2 := ofLe_lt [x, y]
  omega

/-- A scalar value is no surrogate. -/
theorem toNat_valid (c : Char) : c.toNat < 0xD800 ∨ 0xDFFF < c.toNat ∧ c.toNat < 0x110000 := c.valid

theorem exists_pair (v : ℕ) (hv : v < 0x10000) : ∃ x y, le 2 v = [x, y] ∧ ofLe [x, y] = v := by
  refine ⟨UInt8.ofNat v, UInt8.ofNat (v / 256), rfl, ?_⟩
  have h : ofLe [UInt8.ofNat v, UInt8.ofNat (v / 256)] = v % 256 ^ 2 := ofLe_le 2 v
  omega

theorem toNat_ofNat_of_valid {n : ℕ} (h : n.isValidChar) : (Char.ofNat n).toNat = n := by
  rw [Char.ofNat, dif_pos h]
  rfl

/-- Decoding one scalar value from the front. -/
theorem decodeUtf16_utf16Char (c : Char) (bs : Bytes) :
    decodeUtf16 (utf16Char c ++ bs) = (decodeUtf16 bs).map (c :: ·) := by
  have hv := toNat_valid c
  unfold utf16Char
  split_ifs with h
  · obtain ⟨x, y, hxy, hval⟩ := exists_pair c.toNat h
    rw [hxy, List.cons_append, List.cons_append, List.nil_append, decodeUtf16.eq_def]
    simp only [hval]
    rw [if_pos (by omega), Char.ofNat_toNat]
  · obtain ⟨x, y, hxy, hval⟩ := exists_pair (0xD800 + (c.toNat - 0x10000) / 0x400) (by omega)
    obtain ⟨x', y', hxy', hval'⟩ := exists_pair (0xDC00 + (c.toNat - 0x10000) % 0x400) (by omega)
    have hc : 0x10000 + (0xD800 + (c.toNat - 0x10000) / 0x400 - 0xD800) * 0x400 +
        (0xDC00 + (c.toNat - 0x10000) % 0x400 - 0xDC00) = c.toNat := by omega
    rw [hxy, hxy']
    simp only [List.cons_append, List.nil_append]
    rw [decodeUtf16.eq_def]
    simp only [hval, hval']
    rw [if_neg (by omega), if_pos (by omega), hc, Char.ofNat_toNat]

/-- Encoding what was decoded. -/
theorem utf16_of_decodeUtf16 (bs : Bytes) : ∀ cs, decodeUtf16 bs = some cs → utf16 cs = bs := by
  fun_induction decodeUtf16 bs with
  | case1 =>
    rintro cs ⟨⟩
    rfl
  | case2 x => rintro cs ⟨⟩
  | case3 x y rest h ih =>
    intro cs hcs
    obtain ⟨ds, hds, rfl⟩ := Option.map_eq_some_iff.mp hcs
    have hlt := ofLe_pair_lt x y
    have hval : (Char.ofNat (ofLe [x, y])).toNat = ofLe [x, y] := by
      refine toNat_ofNat_of_valid ?_
      unfold Nat.isValidChar
      omega
    rw [utf16_cons, utf16Char, hval, if_pos hlt, ih ds hds]
    have hle := le_ofLe [x, y]
    rw [show [x, y].length = 2 from rfl] at hle
    rw [hle]
    rfl
  | case4 x y h x' y' rest' h' ih =>
    intro cs hcs
    obtain ⟨ds, hds, rfl⟩ := Option.map_eq_some_iff.mp hcs
    have hval : (Char.ofNat (0x10000 + (ofLe [x, y] - 0xD800) * 0x400 + (ofLe [x', y'] - 0xDC00))).toNat =
        0x10000 + (ofLe [x, y] - 0xD800) * 0x400 + (ofLe [x', y'] - 0xDC00) := by
      refine toNat_ofNat_of_valid ?_
      unfold Nat.isValidChar
      omega
    have h₁ : 0xD800 + (0x10000 + (ofLe [x, y] - 0xD800) * 0x400 + (ofLe [x', y'] - 0xDC00) - 0x10000) / 0x400 =
        ofLe [x, y] := by omega
    have h₂ : 0xDC00 + (0x10000 + (ofLe [x, y] - 0xD800) * 0x400 + (ofLe [x', y'] - 0xDC00) - 0x10000) % 0x400 =
        ofLe [x', y'] := by omega
    have hle := le_ofLe [x, y]
    have hle' := le_ofLe [x', y']
    rw [show [x, y].length = 2 from rfl] at hle
    rw [show [x', y'].length = 2 from rfl] at hle'
    rw [utf16_cons, utf16Char, hval, if_neg (by omega), h₁, h₂, hle, hle', ih ds hds]
    rfl
  | case5 x y h x' y' rest' h' => rintro cs ⟨⟩
  | case6 x y rest h hrest => rintro cs ⟨⟩

/-- The decoder accepts encodings, and nothing else. -/
theorem decodeUtf16_eq_some_iff {bs : Bytes} {cs : List Char} : decodeUtf16 bs = some cs ↔ utf16 cs = bs := by
  refine ⟨utf16_of_decodeUtf16 bs cs, ?_⟩
  rintro rfl
  induction cs with
  | nil => rfl
  | cons c cs ih =>
    rw [utf16_cons, decodeUtf16_utf16Char, ih]
    rfl

/-! ### Lengths -/

/-- The number of code units of a text. -/
def units (cs : List Char) : ℕ := (utf16 cs).length / 2

theorem length_utf16 (cs : List Char) : (utf16 cs).length = 2 * units cs := by
  have heven : (utf16 cs).length % 2 = 0 := by
    induction cs with
    | nil => rfl
    | cons c cs ih =>
      rw [utf16_cons, List.length_append, length_utf16Char]
      split_ifs <;> omega
  unfold units
  omega

theorem units_append (cs ds : List Char) : units (cs ++ ds) = units cs + units ds := by
  have h := length_utf16 (cs ++ ds)
  rw [utf16_append, List.length_append, length_utf16, length_utf16] at h
  omega

theorem units_pos {cs : List Char} (h : cs ≠ []) : 0 < units cs := by
  cases cs with
  | nil => exact absurd rfl h
  | cons c cs =>
    have hlen := length_utf16 (c :: cs)
    rw [utf16_cons, List.length_append, length_utf16Char] at hlen
    split_ifs at hlen <;> omega

/-- A code unit takes at least a byte in UTF-8. -/
theorem units_le_length_utf8 (cs : List Char) : units cs ≤ (utf8 cs).length := by
  induction cs with
  | nil => exact Nat.le_refl 0
  | cons c cs ih =>
    have hlen := length_utf16 (c :: cs)
    have h8 : (utf8 (c :: cs)).length = c.utf8Size + (utf8 cs).length := by
      rw [utf8, List.flatMap_cons, List.length_append, String.length_utf8EncodeChar]
      rfl
    have hpos := c.utf8Size_pos
    have hbig : ¬ c.toNat < 0x10000 → c.utf8Size = 4 := by
      intro hc
      have hle : ∀ k : UInt32, k.toNat < 0x10000 → ¬ c.val ≤ k := fun k hk h =>
        hc ((UInt32.le_iff_toNat_le.mp h).trans_lt hk)
      unfold Char.utf8Size
      rw [if_neg (hle _ (by decide)), if_neg (hle _ (by decide)), if_neg (hle _ (by decide))]
    rw [utf16_cons, List.length_append, length_utf16Char, length_utf16] at hlen
    rw [h8]
    split_ifs at hlen with hc
    · omega
    · have := hbig hc
      omega

end DShuffle.Base
