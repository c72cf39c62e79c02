import Rdp.Model.Stream

namespace Rdp.Codec

/-! `rgb565torgb32` of `codec/rle.rs`: each field widened to a byte in `u16` arithmetic,
which keeps the field in the byte's top bits, so the bytes give the pixels back. -/

def blue (v : UInt16) : UInt8 := (((v &&& 0x1f) * 527 + 23) >>> 6).toUInt8

def green (v : UInt16) : UInt8 := ((((v >>> 5) &&& 0x3f) * 259 + 33) >>> 6).toUInt8

def red (v : UInt16) : UInt8 := ((((v >>> 11) &&& 0x1f) * 527 + 23) >>> 6).toUInt8

def rgb565torgb32 (input : List UInt16) : List UInt8 :=
  input.flatMap fun v => [blue v, green v, red v, 0xff]

/-- A pixel from its blue, green and red bytes: their top five, six and five bits. -/
def rgb565OfBytes (blue green red : UInt8) : UInt16 :=
  UInt16.ofNat (blue.toNat / 8 + green.toNat / 4 * 32 + red.toNat / 8 * 2048)

/-- Four bytes a pixel back to the pixels; none unless every fourth byte is `0xff` and
the length is a multiple of four. -/
def rgb565OfRgb32 : List UInt8 → Option (List UInt16)
  | blue :: green :: red :: alpha :: rest =>
    if alpha = 0xff then (rgb565OfBytes blue green red :: ·) <$> rgb565OfRgb32 rest
    else none
  | [] => some []
  | _ => none

theorem toNat_shiftRight_of_lt (v k : UInt16) (hk : k.toNat < 16) :
    (v >>> k).toNat = v.toNat / 2 ^ k.toNat := by
  show (v.toBitVec >>> (UInt16.mod k 16).toBitVec).toNat = _
  simp [BitVec.toNat_ushiftRight, Nat.shiftRight_eq_div_pow]
  congr
  exact UInt16.toNat.inj (Nat.mod_eq_of_lt hk)

theorem toNat_and_of_eq {x m : UInt16} {w : Nat} (hm : m.toNat = 2 ^ w - 1) :
    (x &&& m).toNat = x.toNat % 2 ^ w := by
  rw [UInt16.and_toNat, hm, Nat.and_pow_two_sub_one_eq_mod]

/-- `((f * m + a) >> 6) as u8` neither overflows nor truncates while
`f * m + a < 2 ^ 14`. -/
theorem toNat_widen {f m a : UInt16} (h : f.toNat * m.toNat + a.toNat < 2 ^ 14) :
    ((f * m + a) >>> 6).toUInt8.toNat = (f.toNat * m.toNat + a.toNat) / 64 := by
  rw [UInt16.toUInt8_toNat, toNat_shiftRight_of_lt _ 6 (by decide), UInt16.toNat_add,
    UInt16.toNat_mul]
  show (f.toNat * m.toNat % 65536 + a.toNat) % 65536 / 2 ^ 6 % 2 ^ 8 = _
  omega

theorem toNat_blue (v : UInt16) : (blue v).toNat = (v.toNat % 32 * 527 + 23) / 64 := by
  have hf : (v &&& 0x1f).toNat = v.toNat % 32 := toNat_and_of_eq (w := 5) rfl
  rw [blue, toNat_widen (by rw [hf]; show v.toNat % 32 * 527 + 23 < 2 ^ 14; omega), hf]
  rfl

theorem toNat_green (v : UInt16) :
    (green v).toNat = (v.toNat / 32 % 64 * 259 + 33) / 64 := by
  have hf : ((v >>> 5) &&& 0x3f).toNat = v.toNat / 32 % 64 := by
    rw [toNat_and_of_eq (m := 0x3f) (w := 6) rfl, toNat_shiftRight_of_lt _ 5 (by decide)]
    rfl
  rw [green,
    toNat_widen (by rw [hf]; show v.toNat / 32 % 64 * 259 + 33 < 2 ^ 14; omega), hf]
  rfl

theorem toNat_red (v : UInt16) :
    (red v).toNat = (v.toNat / 2048 % 32 * 527 + 23) / 64 := by
  have hf : ((v >>> 11) &&& 0x1f).toNat = v.toNat / 2048 % 32 := by
    rw [toNat_and_of_eq (m := 0x1f) (w := 5) rfl, toNat_shiftRight_of_lt _ 11 (by decide)]
    rfl
  rw [red, toNat_widen
    (by rw [hf]; show v.toNat / 2048 % 32 * 527 + 23 < 2 ^ 14; omega), hf]
  rfl

/-- A five-bit field is the top five bits of its widened byte. -/
theorem widen_five {f : Nat} (h : f < 32) : (f * 527 + 23) / 64 / 8 = f := by
  omega

/-- The six-bit field is the top six bits of its widened byte. -/
theorem widen_six {f : Nat} (h : f < 64) : (f * 259 + 33) / 64 / 4 = f := by
  omega

/-- The top bits of a pixel's blue, green and red bytes are its fields. -/
theorem rgb565OfBytes_channels (v : UInt16) :
    rgb565OfBytes (blue v) (green v) (red v) = v := by
  have hsum : (blue v).toNat / 8 + (green v).toNat / 4 * 32 + (red v).toNat / 8 * 2048 =
      v.toNat := by
    have hv : v.toNat < 65536 := v.toNat_lt
    rw [toNat_blue, toNat_green, toNat_red, widen_five (Nat.mod_lt _ (by decide)),
      widen_six (Nat.mod_lt _ (by decide)), widen_five (Nat.mod_lt _ (by decide))]
    omega
  apply UInt16.toNat.inj
  rw [rgb565OfBytes, UInt16.toNat_ofNat_of_lt (hsum ▸ v.toNat_lt), hsum]

/-- `rgb565torgb32` loses nothing: every pixel comes back from its bytes, and every
fourth byte is `0xff`. -/
theorem rgb565OfRgb32_rgb565torgb32 (input : List UInt16) :
    rgb565OfRgb32 (rgb565torgb32 input) = some input := by
  induction input with
  | nil => rfl
  | cons v vs ih =>
    rw [rgb565torgb32, List.flatMap_cons, List.cons_append,
      List.cons_append, List.cons_append,
      List.cons_append, List.nil_append, rgb565OfRgb32, if_pos rfl, ← rgb565torgb32, ih,
      rgb565OfBytes_channels]
    rfl

end Rdp.Codec
