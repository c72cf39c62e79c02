import Rdp.Model.Stream

namespace Rdp.Model

/-! `Unicode::to_utf16_le` of `model/unicode.rs`: `encode_utf16` then two little-endian
bytes a code unit. -/

/-- The UTF-16 code units of a character: one inside the basic plane, a surrogate pair
above. -/
def utf16Units (c : Char) : List UInt16 :=
  if c.val < 0x10000 then [c.val.toUInt16]
  else
    let v := c.val - 0x10000
    [((0xD800 : UInt32) + (v >>> 10)).toUInt16,
    ((0xDC00 : UInt32) + (v &&& 0x3FF)).toUInt16]

def toUtf16Le (s : String) : List UInt8 :=
  s.toList.flatMap fun c => (utf16Units c).flatMap u16Le

example : toUtf16Le "foo" = [102, 0, 111, 0, 111, 0] := by decide

/-! ### Length: the UTF-16 of a text against its UTF-8 byte count (`str::len`) -/

theorem utf8Size_eq (c : Char) :
    c.utf8Size = if c.toNat < 0x80 then 1 else if c.toNat < 0x800 then 2
      else if c.toNat < 0x10000 then 3 else 4 := by
  have h1 : c.val ≤ UInt32.ofNatCore 127 (by decide) ↔ c.toNat < 0x80 :=
    show c.toNat ≤ 127 ↔ _ by omega
  have h2 : c.val ≤ UInt32.ofNatCore 2047 (by decide) ↔ c.toNat < 0x800 :=
    show c.toNat ≤ 2047 ↔ _ by omega
  have h3 : c.val ≤ UInt32.ofNatCore 65535 (by decide) ↔ c.toNat < 0x10000 :=
    show c.toNat ≤ 65535 ↔ _ by omega
  simp only [Char.utf8Size, h1, h2, h3]

theorem length_utf16Units (c : Char) :
    (utf16Units c).length = if c.toNat < 0x10000 then 1 else 2 := by
  have h : c.val < 0x10000 ↔ c.toNat < 0x10000 := Iff.rfl
  unfold utf16Units
  split_ifs <;> simp_all

theorem length_utf16Units_le (c : Char) : (utf16Units c).length ≤ c.utf8Size := by
  rw [length_utf16Units, utf8Size_eq]
  split_ifs <;> omega

theorem length_utf16Units_eq_iff (c : Char) :
    (utf16Units c).length = c.utf8Size ↔ c.toNat < 0x80 := by
  rw [length_utf16Units, utf8Size_eq]
  split_ifs <;> omega

theorem length_toUtf16Le_cons (c : Char) (cs : List Char) :
    (toUtf16Le ⟨c :: cs⟩).length = 2 * (utf16Units c).length +
    (toUtf16Le ⟨cs⟩).length := by
  simp only [toUtf16Le, String.toList, List.flatMap_cons,
    List.length_append, length_flatMap_u16Le]
  omega

/-- UTF-16 takes at most two bytes for each byte of UTF-8. -/
theorem length_toUtf16Le_le (s : String) : (toUtf16Le s).length ≤ 2 * s.utf8ByteSize := by
  obtain ⟨cs⟩ := s
  induction cs with
  | nil => simp [toUtf16Le]
  | cons c cs ih =>
    rw [length_toUtf16Le_cons, String.utf8ByteSize_mk, String.utf8Len_cons]
    rw [String.utf8ByteSize_mk] at ih
    have := length_utf16Units_le c
    omega

/-- ... and exactly two for a text of ASCII characters only. -/
theorem length_toUtf16Le_eq_iff (s : String) :
    (toUtf16Le s).length = 2 * s.utf8ByteSize ↔ ∀ c ∈ s.toList, c.toNat < 0x80 := by
  obtain ⟨cs⟩ := s
  induction cs with
  | nil => simp [toUtf16Le, String.utf8ByteSize]
  | cons c cs ih =>
    rw [length_toUtf16Le_cons, String.utf8ByteSize_mk, String.utf8Len_cons]
    rw [String.utf8ByteSize_mk] at ih
    have hle := length_toUtf16Le_le ⟨cs⟩
    rw [String.utf8ByteSize_mk] at hle
    have hc := length_utf16Units_le c
    simp only [String.toList, List.mem_cons, forall_eq_or_imp] at ih ⊢
    rw [← ih, ← length_utf16Units_eq_iff]
    omega

/-! ### Decoding: RFC 2781 §2.2, with bytes paired little-endian -/

/-- The code units of a UTF-16 text back to its characters (RFC 2781 §2.2): a unit
outside `0xD800..0xDFFF` is a character, a high surrogate and a low one after it are a
character above the basic plane, and anything else is malformed. -/
def decodeUtf16 : List UInt16 → Option (List Char)
  | [] => some []
  | u :: rest =>
    if u.toNat < 0xD800 ∨ 0xDFFF < u.toNat then
      (Char.ofNat u.toNat :: ·) <$> decodeUtf16 rest
    else if u.toNat ≤ 0xDBFF then
      match rest with
      | l :: rest =>
        if 0xDC00 ≤ l.toNat ∧ l.toNat ≤ 0xDFFF then
          (Char.ofNat (0x10000 + (u.toNat - 0xD800) * 0x400 +
            (l.toNat - 0xDC00)) :: ·) <$>
            decodeUtf16 rest
        else none
      | [] => none
    else none

/-- Two little-endian bytes a code unit; none for an odd number of bytes. -/
def unitsOfLe : List UInt8 → Option (List UInt16)
  | low :: high :: rest => (wordOfBytes low high :: ·) <$> unitsOfLe rest
  | [] => some []
  | [_] => none

/-- A UTF-16LE text back to its string. -/
def fromUtf16Le (bytes : List UInt8) : Option String :=
  (unitsOfLe bytes >>= decodeUtf16).map String.mk

theorem toNat_shiftRight_ten (v : UInt32) : (v >>> 10).toNat = v.toNat / 1024 := by
  show (v.toBitVec >>> (UInt32.mod 10 32).toBitVec).toNat = _
  simp [BitVec.toNat_ushiftRight, Nat.shiftRight_eq_div_pow]
  rfl

theorem toNat_and_ten (v : UInt32) : (v &&& 0x3FF).toNat = v.toNat % 1024 := by
  rw [UInt32.and_toNat, show (0x3FF : UInt32).toNat = 2 ^ 10 - 1 from rfl,
    Nat.and_pow_two_sub_one_eq_mod]

/-- A character of the basic plane is its own code unit. -/
theorem decodeUtf16_basic {c : Char} (h : c.toNat < 0x10000) (rest : List UInt16) :
    decodeUtf16 (c.val.toUInt16 :: rest) = (c :: ·) <$> decodeUtf16 rest := by
  have hu : c.val.toUInt16.toNat = c.toNat := by
    rw [UInt32.toUInt16_toNat]; exact Nat.mod_eq_of_lt h
  rw [decodeUtf16.eq_def]
  dsimp only
  rw [hu, if_pos (show c.toNat < 0xD800 ∨ 0xDFFF <
    c.toNat from c.valid.imp_right And.left), Char.ofNat_toNat]

/-- A character above the basic plane is a high surrogate, then a low one. -/
theorem decodeUtf16_supplementary {c : Char}
    (h : 0x10000 ≤ c.toNat) (rest : List UInt16) :
    decodeUtf16 (((0xD800 : UInt32) + ((c.val - 0x10000) >>> 10)).toUInt16 ::
      ((0xDC00 : UInt32) + ((c.val - 0x10000) &&& 0x3FF)).toUInt16 :: rest) =
      (c :: ·) <$> decodeUtf16 rest := by
  have hmax : c.toNat < 0x110000 :=
    c.valid.elim (fun h' => absurd (show c.toNat < 0xD800 from h') (by omega)) And.right
  have hv : (c.val - 0x10000).toNat = c.toNat - 0x10000 := by
    rw [UInt32.toNat_sub]
    show (4294967296 - 65536 + c.toNat) % 4294967296 = _
    omega
  have hhigh : ((0xD800 : UInt32) + ((c.val - 0x10000) >>> 10)).toUInt16.toNat =
      0xD800 + (c.toNat - 0x10000) / 1024 := by
    rw [UInt32.toUInt16_toNat, UInt32.toNat_add, toNat_shiftRight_ten, hv]
    show (55296 + (c.toNat - 65536) / 1024) % 4294967296 % 65536 = _
    omega
  have hlow : ((0xDC00 : UInt32) + ((c.val - 0x10000) &&& 0x3FF)).toUInt16.toNat =
      0xDC00 + (c.toNat - 0x10000) % 1024 := by
    rw [UInt32.toUInt16_toNat, UInt32.toNat_add, toNat_and_ten, hv]
    show (56320 + (c.toNat - 65536) % 1024) % 4294967296 % 65536 = _
    omega
  have hc : 0x10000 + (0xD800 + (c.toNat - 0x10000) / 1024 - 0xD800) * 0x400 +
      (0xDC00 + (c.toNat - 0x10000) % 1024 - 0xDC00) = c.toNat := by
    omega
  simp only [decodeUtf16, hhigh, hlow]
  rw [if_neg (by omega), if_pos (by omega), if_pos (by omega), hc, Char.ofNat_toNat]

theorem decodeUtf16_utf16Units (c : Char) (rest : List UInt16) :
    decodeUtf16 (utf16Units c ++ rest) = (c :: ·) <$> decodeUtf16 rest := by
  unfold utf16Units
  split_ifs with h
  · exact decodeUtf16_basic h rest
  · exact decodeUtf16_supplementary (Nat.le_of_not_lt h) rest

theorem decodeUtf16_flatMap (cs : List Char) :
    decodeUtf16 (cs.flatMap utf16Units) = some cs := by
  induction cs with
  | nil => rfl
  | cons c cs ih => rw [List.flatMap_cons, decodeUtf16_utf16Units, ih]; rfl

theorem unitsOfLe_u16Le (units : List UInt16) :
    unitsOfLe (units.flatMap u16Le) = some units := by
  induction units with
  | nil => rfl
  | cons u us ih => rw [List.flatMap_cons, u16Le, List.cons_append, List.cons_append,
      List.nil_append, unitsOfLe, ih, wordOfBytes_u16Le]; rfl

/-- `to_utf16_le` loses nothing: its bytes decode back to the string. -/
theorem fromUtf16Le_toUtf16Le (s : String) : fromUtf16Le (toUtf16Le s) = some s := by
  rw [fromUtf16Le, toUtf16Le, ← List.flatMap_assoc, unitsOfLe_u16Le]
  show Option.map String.mk (decodeUtf16 (s.toList.flatMap utf16Units)) = some s
  rw [decodeUtf16_flatMap]
  rfl

end Rdp.Model
