import Rdp.Codec.Rle32

namespace Rdp.Codec.Rle32

/-! The streams a 32-bpp encoder writes for `rle_32_decompress`, from the last row up, a
code byte and its literals per segment; the source holds no encoder. -/

/-- A segment of a row's tokens: literal tokens followed by repeats of the last token,
or a long run of repeats of the last token. -/
inductive Segment
  | run (literals : List UInt8) (repeats : Nat)
  | long (repeats : Nat)
deriving DecidableEq, Repr

namespace Segment

/-- The code byte: `(k << 4) | m` for `k` literals and `m` repeats, and
`((n & 15) << 4) | (n >> 4)` for a long run of `n`. -/
def code : Segment → UInt8
  | run literals repeats => UInt8.ofNat (literals.length * 16 + repeats)
  | long repeats => UInt8.ofNat (repeats % 16 * 16 + repeats / 16)

def bytes : Segment → List UInt8
  | run literals repeats => code (run literals repeats) :: literals
  | long repeats => [code (long repeats)]

/-- At most 15 literals and no one or two repeats after them (their codes read as long
runs); a long run has 16 to 47 repeats. -/
def WellFormed : Segment → Prop
  | run literals repeats =>
    literals.length ≤ 15 ∧ (repeats = 0 ∨ 3 ≤ repeats ∧ repeats ≤ 15)
  | long repeats => 16 ≤ repeats ∧ repeats ≤ 47

instance : DecidablePred WellFormed
  | run literals repeats =>
    inferInstanceAs
      (Decidable (literals.length ≤ 15 ∧ (repeats = 0 ∨ 3 ≤ repeats ∧ repeats ≤ 15)))
  | long repeats => inferInstanceAs (Decidable (16 ≤ repeats ∧ repeats ≤ 47))

/-- The last token once the segment is written, `last` being the one before it. -/
def last (last : UInt8) : Segment → UInt8
  | run literals _ => literals.getLast?.getD last
  | long _ => last

/-- The tokens the segment covers. -/
def tokens (last : UInt8) : Segment → List UInt8
  | run literals repeats =>
    literals ++ List.replicate repeats (literals.getLast?.getD last)
  | long repeats => List.replicate repeats last

end Segment

/-- The tokens a list of segments covers, `last` being the last token before it (`0` at
the start of a row). -/
def tokens : List Segment → UInt8 → List UInt8
  | [], _ => []
  | seg :: segs, last => seg.tokens last ++ tokens segs (seg.last last)

/-- A byte read as an `i8`. -/
def toI8 (x : UInt8) : Int :=
  if x.toNat < 128 then x.toNat else x.toNat - 256

/-- The token an `i8` delta `d` is written as: `2d`, or `-2d - 1` when `d` is negative. -/
def deltaByte (d : Int) : UInt8 :=
  if 0 ≤ d then UInt8.ofNat (2 * d).toNat else UInt8.ofNat (-2 * d - 1).toNat

/-- The tokens of row `r` of a plane: its bytes on the first row written (`height - 1`),
and on the others the deltas to the row written before it, `r + 1`. -/
def rowTokens (plane : Nat → Nat → UInt8) (width height r : Nat) : List UInt8 :=
  (List.range width).map fun c =>
    if r + 1 = height then plane r c else deltaByte (toI8 (plane r c - plane (r + 1) c))

/-- The bytes of rows `n - 1` down to `0`. -/
def rowsBytes (segments : Nat → List Segment) : Nat → List UInt8
  | 0 => []
  | n + 1 => (segments n).flatMap Segment.bytes ++ rowsBytes segments n

/-- The stream of four planes, plane `0` first. -/
def encodedImage (segments : Fin 4 → Nat → List Segment) (height : Nat) : List UInt8 :=
  0x10 :: rowsBytes (segments 0) height ++ rowsBytes (segments 1) height ++
    rowsBytes (segments 2) height ++ rowsBytes (segments 3) height

/-- The decoded image: byte `k` of pixel `(r, c)` is pixel `(r, c)` of plane `3 - k`. -/
def image (planes : Fin 4 → Nat → Nat → UInt8) (width height : Nat) : List UInt8 :=
  (List.range (4 * width * height)).map fun i =>
    planes ⟨3 - i % 4, by omega⟩ (i / 4 / width) (i / 4 % width)

end Rdp.Codec.Rle32
