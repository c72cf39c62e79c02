import Rdp.Model.Stream

namespace Rdp.Codec.Rle32

/-! `process_plane` and `rle_32_decompress` of `codec/rle.rs`, each `u32` operation
checked as in a debug build; a plane is decoded into the slice `output[start..]`. -/

/-- The state `process_plane` works on: the input cursor, the output slice, and the two
column counters `out` (a byte offset) and `indexw` (a pixel index). -/
structure Plane where
  input : List UInt8
  output : List UInt8
  out : Nat
  indexw : Nat
deriving DecidableEq, Repr

abbrev PlaneM := EStateM Fault Plane

def readU8 : PlaneM UInt8 := fun s =>
  match Rdp.readU8 s.input with
  | .ok (b, rest) => .ok b { s with input := rest }
  | .error e => .error e s

theorem readU8_of_input {s : Plane} {b : UInt8} {rest : List UInt8}
    (h : s.input = b :: rest) :
    readU8 s = .ok b { s with input := rest } := by
  simp [readU8, h]

/-- `replen` and `collen` of a code byte: the low and high nibble, unless
`revcode = (replen << 4) | collen` lies in `16..=47`, which codes a run of `revcode`
repeats. -/
def runLengths (code : UInt8) : Nat × Nat :=
  let replen := code &&& 0xf
  let collen := (code >>> 4) &&& 0xf
  let revcode := (replen <<< 4) ||| collen
  if 16 ≤ revcode ∧ revcode ≤ 47 then (revcode.toNat, 0) else (replen.toNat, collen.toNat)

/-- The `i8` delta a byte codes on a line after the first: `x >> 1`, or
`-((x >> 1) + 1)` when `x` is odd. -/
def deltaColor (x : UInt8) : Int :=
  if x &&& 1 ≠ 0 then -(((x >>> 1) + 1).toNat : Int) else ((x >>> 1).toNat : Int)

/-- `(... as i32) as u8`: the low byte of an integer. -/
def wrapU8 (value : Int) : UInt8 :=
  UInt8.ofNat (value % 256).toNat

/-- The colour a literal byte carries: the byte itself on the first line (where `color`
is a `u8`), its delta on the others (where `color` is an `i8`). -/
def literalColor (lastLine : Nat) (x : UInt8) : Int :=
  if lastLine = 0 then x.toNat else deltaColor x

/-- `output[(last_line + (indexw * 4)) as usize]`: the byte of the line decoded before. -/
def below (lastLine : Nat) : PlaneM UInt8 := do
  let s ← get
  let offset ← lift (checkedU32 (s.indexw * 4))
  let index ← lift (checkedU32 (lastLine + offset))
  lift (index? s.output index)

/-- The byte written for `color` at the current column: the colour on the first line, the
byte below plus the delta on the others. -/
def value (lastLine : Nat) (color : Int) : PlaneM UInt8 :=
  if lastLine = 0 then pure (wrapU8 color) else do
    let byte ← below lastLine
    pure (wrapU8 (byte.toNat + color))

/-- The byte `value` computes at column `indexw` of `output`. -/
def cellValue (lastLine : Nat) (output : List UInt8)
    (indexw : Nat) (color : Int) : UInt8 :=
  if lastLine = 0 then wrapU8 color
  else wrapU8 ((output.getD (lastLine + indexw * 4) 0).toNat + color)

theorem value_eq {lastLine : Nat} {color : Int} {s : Plane}
    (hread : lastLine ≠ 0 → lastLine + s.indexw * 4 < min s.output.length (2 ^ 32)) :
    value lastLine color s = .ok (cellValue lastLine s.output s.indexw color) s := by
  by_cases h : lastLine = 0
  · simp [value, cellValue, h]
  · have hlt := hread h
    simp only [Nat.lt_min] at hlt
    simp [value, cellValue, below, h, bind, EStateM.bind, lift, checkedU32_of_lt hlt.2,
      checkedU32_of_lt (show s.indexw * 4 < 2 ^ 32 by omega), index?_of_lt hlt.1,
      List.getElem?_eq_getElem hlt.1]

/-- `output[out as usize] = v; out += 4; indexw += 1;`, each statement done before the
next is checked. -/
def emit (v : UInt8) : PlaneM Unit := do
  let s ← get
  let output ← lift (update? s.output s.out v)
  set { s with output }
  let out ← lift (checkedU32 (s.out + 4))
  set { s with output, out }
  let indexw ← lift (checkedU32 (s.indexw + 1))
  set { s with output, out, indexw }

theorem emit_eq {v : UInt8} {s : Plane} (hout : s.out < s.output.length)
    (hbound : s.out + 4 < 2 ^ 32) (hindexw : s.indexw + 1 < 2 ^ 32) :
    emit v s =
      .ok () { s with output := s.output.set s.out v, out := s.out + 4,
                      indexw := s.indexw + 1 } := by
  simp [emit, lift, update?_of_lt hout, checkedU32_of_lt hbound,
    checkedU32_of_lt hindexw, bind, EStateM.bind]

/-- A write whose `out += 4` leaves `u32`: the byte is stored, then the add panics. -/
theorem emit_overflow {v : UInt8} {s : Plane} (hout : s.out < s.output.length)
    (hbound : 2 ^ 32 ≤ s.out + 4) :
    emit v s = .error .panic { s with output := s.output.set s.out v } := by
  simp [emit, lift, update?_of_lt hout, checkedU32_of_le hbound, bind, EStateM.bind]

/-- `while collen > 0 { .. }`: literal bytes, each read and written; returns the last
colour. -/
def literals (lastLine : Nat) : Nat → Int → PlaneM Int
  | 0, color => pure color
  | collen + 1, _ => do
    let color := literalColor lastLine (← readU8)
    emit (← value lastLine color)
    literals lastLine collen color

/-- `while replen > 0 { .. }`: repeats of the last colour. -/
def repeats (lastLine : Nat) (color : Int) : Nat → PlaneM Unit
  | 0 => pure ()
  | replen + 1 => do
    emit (← value lastLine color)
    repeats lastLine color replen

/-- One pass of `while indexw < width { .. }`: a code byte, its literals, then its
repeats of the last colour, which it returns. -/
def segment (lastLine : Nat) (color : Int) : PlaneM Int := do
  let (replen, collen) := runLengths (← readU8)
  let color ← literals lastLine collen color
  repeats lastLine color replen
  pure color

/-- `while indexw < width { .. }` over one line, `color` starting at `0`.  The fuel is
the number of input bytes left: every pass reads its code byte first, so once the fuel
is spent the next read of a code byte fails. -/
def line (lastLine width : Nat) : Nat → Int → PlaneM Unit
  | 0, _ => do
    if (← get).indexw < width then throw (.error .io)
  | fuel + 1, color => do
    if (← get).indexw < width then
      line lastLine width fuel (← segment lastLine color)

theorem line_of_le {lastLine width fuel : Nat} {color : Int}
    {s : Plane} (h : width ≤ s.indexw) :
    line lastLine width fuel color s = .ok () s := by
  cases fuel <;> simp [line, bind, EStateM.bind, get, getThe,
    MonadStateOf.get, EStateM.get, Nat.not_lt.mpr h, pure, EStateM.pure]

theorem line_succ_of_lt {lastLine width fuel : Nat} {color : Int} {s : Plane}
    (h : s.indexw < width) :
    line lastLine width (fuel + 1) color s =
      (segment lastLine color >>= line lastLine width fuel) s := by
  simp [line, bind, EStateM.bind, get, getThe, MonadStateOf.get, EStateM.get, h]

/-- `for indexh in 0..height`, with `remaining = height - indexh` iterations left; each
line starts at `out = (height - indexh - 1) * width * 4`. -/
def rows (width height : Nat) : Nat → Nat → Nat → PlaneM Unit
  | 0, _, _ => pure ()
  | remaining + 1, indexh, lastLine => do
    let out ← lift (checkedU32 ((height - indexh - 1) * width))
    let out ← lift (checkedU32 (out * 4))
    modify fun s => { s with out, indexw := 0 }
    line lastLine width (← get).input.length 0
    rows width height remaining (indexh + 1) out

theorem rows_succ {width height remaining indexh lastLine : Nat} {s : Plane}
    (hbound : (height - indexh - 1) * width * 4 < 2 ^ 32) :
    rows width height (remaining + 1) indexh lastLine s =
      (line lastLine width s.input.length 0 >>= fun _ =>
        rows width height remaining (indexh + 1) ((height - indexh - 1) * width * 4))
        { s with out := (height - indexh - 1) * width * 4, indexw := 0 } := by
  simp only [rows, bind, EStateM.bind, lift, checkedU32_of_lt hbound,
    checkedU32_of_lt (show (height - indexh - 1) * width < 2 ^ 32 by omega)]
  rfl

def processPlane (width height : Nat) : PlaneM Unit :=
  rows width height height 0 0

/-- `process_plane(.., &mut output[start..])`: a panic when `start` is past the end. -/
def planeAt (width height start : Nat) : PlaneM Unit := fun s =>
  if s.output.length < start then .error .panic s else
  match processPlane width height { s with output := s.output.drop start } with
  | .ok _ t => .ok () { t with output := s.output.take start ++ t.output }
  | .error e t => .error e { t with output := s.output.take start ++ t.output }

def decompress (width height : Nat) : PlaneM Unit := do
  if (← readU8) ≠ 0x10 then throw (Fault.rdp .rleDecode "Bad header")
  planeAt width height 3
  planeAt width height 2
  planeAt width height 1
  planeAt width height 0

/-- `rle_32_decompress`: how the call ends, and the output buffer it leaves. -/
def rle32Decompress (input : List UInt8) (width height : UInt32) (output : List UInt8) :
    Except Fault Unit × List UInt8 :=
  match decompress width.toNat height.toNat ⟨input, output, 0, 0⟩ with
  | .ok _ s => (.ok (), s.output)
  | .error e s => (.error e, s.output)

/-- Two panics of `rle_32_decompress`: `output[3..]` for an empty image whose output
holds fewer than three bytes, and a code byte whose literals run past the end of a
one-pixel image. -/
theorem rle32Decompress_panics :
    rle32Decompress [0x10] 0 0 [] = (.error .panic, []) ∧
      (rle32Decompress [0x10, 0x20, 1, 2] 1 1 [0, 0, 0, 0]).1 = .error .panic := by
  constructor <;> decide

end Rdp.Codec.Rle32
