import Rdp.Model.Stream

namespace Rdp.Codec.Rle16

/-! `rle_16_decompress` of `codec/rle.rs` and its `repeat!` macro; `usize` sums are `Nat`s
(below `width * height + 8`), and `count -= 1` and `height -= 1` are checked. -/

/-- The registers of the decoder that orders read and update. -/
structure Registers where
  input : List UInt8
  lastopcode : UInt8
  insertmix : Bool
  colour1 : UInt16
  colour2 : UInt16
  mix : UInt16
  mask : UInt8
  bicolour : Bool
  count : Nat
  mixmask : UInt8
deriving DecidableEq, Repr

/-- All locals of `rle_16_decompress`: the registers, the cursor, and the output slice. -/
structure Decoder where
  regs : Registers
  x : Nat
  prevline : Option Nat
  line : Option Nat
  height : Nat
  output : List UInt16
deriving DecidableEq, Repr

abbrev RegsM := StateT Registers (Except Fault)

abbrev DecoderM := EStateM Fault Decoder

def regs {α : Type} (m : RegsM α) : DecoderM α := fun s =>
  match m s.regs with
  | .ok (a, r) => .ok a { s with regs := r }
  | .error e => .error e s

theorem regs_of_ok {α : Type} {m : RegsM α} {s : Decoder} {a : α} {r : Registers}
    (h : m s.regs = .ok (a, r)) : regs m s = .ok a { s with regs := r } := by
  simp only [regs, h]

theorem regs_of_error {α : Type} {m : RegsM α} {s : Decoder} {e : Fault}
    (h : m s.regs = .error e) : regs m s = .error e s := by
  simp only [regs, h]

def readU8 : RegsM UInt8 := fun r => do
  let (b, input) ← Rdp.readU8 r.input
  pure (b, { r with input })

def readU16 : RegsM UInt16 := fun r => do
  let (w, input) ← Rdp.readU16Le r.input
  pure (w, { r with input })

theorem readU16_eq (r : Registers) :
    readU16 r = match Rdp.readU16Le r.input with
      | .ok (w, rest) => .ok (w, { r with input := rest })
      | .error e => .error e := by
  rcases h : Rdp.readU16Le r.input with e | ⟨w, rest⟩ <;>
    simp only [readU16, h, bind, Except.bind, pure, Except.pure]

/-! The order header, lines 142 to 207: the code byte, its opcode and run length, and the
operands read before any pixel. -/

/-- The opcode, `count` and `offset` a code byte gives, reading a mega run's 16-bit
count. -/
def runLength (code : UInt8) : RegsM (UInt8 × Nat × Nat) :=
  let opcode := code >>> 4
  if 0xC ≤ opcode ∧ opcode ≤ 0xE then pure (opcode - 6, (code &&& 0xf).toNat, 16)
  else if opcode = 0xF then do
    let opcode := code &&& 0xf
    let count ←
      if opcode < 9 then do pure (← readU16).toNat
      else if opcode < 0xb then pure 8 else pure 1
    pure (opcode, count, 0)
  else pure (opcode >>> 1, (code &&& 0x1f).toNat, 32)

/-- A short count of zero is extended by a byte; a short fill-or-mix count counts bytes of
mask, eight pixels each. -/
def extendCount (opcode : UInt8) (count offset : Nat) : RegsM Nat :=
  if offset = 0 then pure count else
  let isfillormix := opcode = 2 ∨ opcode = 7
  if count = 0 then do pure ((← readU8).toNat + if isfillormix then 1 else offset)
  else if isfillormix then pure (count <<< 3) else pure count

/-- `match opcode { .. }` before the pixel loop: the operands of an order, and the
opcode and `fom_mask` the loop uses.  `atStart` is `x == width && prevline.is_none()`. -/
def operands (atStart : Bool) (opcode : UInt8) : RegsM (UInt8 × UInt8) := do
  match opcode with
  | 0 =>
    if (← get).lastopcode = opcode ∧ ¬atStart then
      modify fun r => { r with insertmix := true }
    pure (opcode, 0)
  | 8 =>
    let colour1 ← readU16
    let colour2 ← readU16
    modify fun r => { r with colour1, colour2 }
    pure (opcode, 0)
  | 3 =>
    let colour2 ← readU16
    modify fun r => { r with colour2 }
    pure (opcode, 0)
  | 6 | 7 =>
    let mix ← readU16
    modify fun r => { r with mix }
    pure (opcode - 5, 0)
  | 9 =>
    modify fun r => { r with mask := 0x03 }
    pure (0x02, 3)
  | 0xa =>
    modify fun r => { r with mask := 0x05 }
    pure (0x02, 5)
  | _ => pure (opcode, 0)

/-- One order's header: returns the opcode of its pixel loop and its `fom_mask`, and
leaves the run length in `count`, `lastopcode` set and `mixmask` cleared. -/
def header (atStart : Bool) : RegsM (UInt8 × UInt8) := do
  let (opcode, count, offset) ← runLength (← readU8)
  let count ← extendCount opcode count offset
  let (opcode, fomMask) ← operands atStart opcode
  modify fun r => { r with lastopcode := opcode, mixmask := 0, count }
  pure (opcode, fomMask)

/-! The pixel statements, lines 226 to 307. -/

/-- `output[e + x]`: the pixel of the previous line below the cursor. -/
def below (e : Nat) : DecoderM UInt16 := do
  let s ← get
  lift (index? s.output (e + s.x))

theorem below_eq {e : Nat} {b : UInt16} {s : Decoder} (h : s.output[e + s.x]? = some b) :
    below e s = .ok b s := by
  simp only [below, bind, EStateM.bind, get, getThe, MonadStateOf.get,
    EStateM.get, lift, index?, h]

/-- `output[line + x] = v`. -/
def store (line : Nat) (v : UInt16) : DecoderM Unit := do
  let s ← get
  let output ← lift (update? s.output (line + s.x) v)
  set { s with output }

theorem store_eq {line : Nat} {v : UInt16} {s : Decoder}
    (h : line + s.x < s.output.length) :
    store line v s = .ok () { s with output := s.output.set (line + s.x) v } := by
  simp only [store, bind, EStateM.bind, get, getThe, MonadStateOf.get, EStateM.get, lift,
    update?_of_lt h, set, EStateM.set]

/-- A pixel whose value a register computation gives, written at the cursor. -/
theorem regs_store_eq {m : RegsM UInt16} {line : Nat} {s : Decoder}
    (h : line + s.x < s.output.length) :
    (regs m >>= store line) s = match m s.regs with
      | .ok (v, r) => .ok () { s with regs := r, output := s.output.set (line + s.x) v }
      | .error e => .error e s := by
  rcases hm : m s.regs with e | ⟨v, r⟩
  · rw [EStateM.bind_of_error (regs_of_error hm)]
  · rw [EStateM.bind_of_ok (regs_of_ok hm), store_eq (s := { s with regs := r }) h]

/-- `mixmask <<= 1`, and a new mask (`fom_mask`, or the next input byte) every eight
pixels. -/
def nextMaskBit (fomMask : UInt8) : RegsM Unit := do
  modify fun r => { r with mixmask := r.mixmask <<< 1 }
  if (← get).mixmask = 0 then
    let mask ← if fomMask ≠ 0 then pure fomMask else readU8
    modify fun r => { r with mask, mixmask := 1 }

theorem nextMaskBit_eq (fomMask : UInt8) (r : Registers) :
    nextMaskBit fomMask r =
      if r.mixmask <<< 1 ≠ 0 then .ok ((), { r with mixmask := r.mixmask <<< 1 })
      else if fomMask ≠ 0 then .ok ((), { r with mask := fomMask, mixmask := 1 })
      else match r.input with
        | b :: rest => .ok ((), { r with input := rest, mask := b, mixmask := 1 })
        | [] => .error (.error .io) := by
  by_cases hm : r.mixmask <<< 1 = 0 <;> by_cases hf : fomMask = 0 <;>
    rcases hi : r.input with _ | ⟨b, rest⟩ <;>
    simp [nextMaskBit, hm, hf, hi, bind, StateT.bind, Except.bind, get,
      getThe, MonadStateOf.get, StateT.get, pure, StateT.pure, Except.pure, modify,
      modifyGet, MonadStateOf.modifyGet,
      StateT.modifyGet, readU8]

/-- `nextMaskBit` changes only the input, `mask` and `mixmask`. -/
theorem nextMaskBit_frame {fomMask : UInt8} {r r' : Registers} {u : Unit}
    (h : nextMaskBit fomMask r = .ok (u, r')) :
    r' = { r with input := r'.input, mask := r'.mask, mixmask := r'.mixmask } := by
  rw [nextMaskBit_eq] at h
  split_ifs at h <;> (try split at h) <;>
    simp only [Except.ok.injEq, Prod.mk.injEq, reduceCtorEq] at h <;> rw [← h.2]

def maskBitSet (r : Registers) : Bool :=
  r.mask &&& r.mixmask ≠ 0

/-- (output[line + x], bicolour) = if bicolour { (colour2, false) } else { count += 1;
(colour1, true) } : the colour, after the register update. -/
def bicolourStep : RegsM UInt16 := do
  let r ← get
  if r.bicolour then
    set { r with bicolour := false }
    pure r.colour2
  else
    set { r with bicolour := true, count := r.count + 1 }
    pure r.colour1

theorem bicolourStep_eq (r : Registers) :
    bicolourStep r = .ok (if r.bicolour then (r.colour2, { r with bicolour := false })
      else (r.colour1, { r with bicolour := true, count := r.count + 1 })) := by
  cases h : r.bicolour <;>
    simp [bicolourStep, h, bind, StateT.bind, Except.bind, get, getThe, MonadStateOf.get,
      StateT.get, pure, StateT.pure, Except.pure, set, StateT.set]

/-- The statement `repeat!` repeats for a pixel of an order with opcode `opcode`. -/
def body (opcode fomMask : UInt8) (line : Nat) (prevline : Option Nat) : DecoderM Unit :=
  match opcode, prevline with
  | 0, some e => do store line (← below e)
  | 0, none => store line 0
  | 1, some e => do store line ((← below e) ^^^ (← get).regs.mix)
  | 1, none => do store line (← get).regs.mix
  | 2, some e => do
    regs (nextMaskBit fomMask)
    let r := (← get).regs
    let p ← below e
    store line (if maskBitSet r then p ^^^ r.mix else p)
  | 2, none => do
    regs (nextMaskBit fomMask)
    let r := (← get).regs
    store line (if maskBitSet r then r.mix else 0)
  | 3, _ => do store line (← get).regs.colour2
  | 4, _ => do store line (← regs readU16)
  | 8, _ => do store line (← regs bicolourStep)
  | 0xd, _ => store line 0xffff
  | 0xe, _ => store line 0
  | _, _ => pure ()

/-! The `repeat!` macro, lines 91 to 125.  Every body leaves `x` alone, so the loops run
at most `(width - x) / 8` and `width - x` times. -/

/-- `$expr; $count -= 1; $x += 1;` -/
def step (body : DecoderM Unit) : DecoderM Unit := do
  body
  let s ← get
  let count ← lift (checkedSub s.regs.count 1)
  set { s with regs.count := count, x := s.x + 1 }

/-- `while (($count & !0x7) != 0) && ($x + 8) < $width { .. }`, eight statements a pass.
-/
def unrolled (width : Nat) (body : DecoderM Unit) : Nat → DecoderM Unit
  | 0 => pure ()
  | fuel + 1 => do
    let s ← get
    if 8 ≤ s.regs.count ∧ s.x + 8 < width then
      step body; step body; step body; step body
      step body; step body; step body; step body
      unrolled width body fuel

/-- `while $count > 0 && $x < $width { .. }` -/
def plain (width : Nat) (body : DecoderM Unit) : Nat → DecoderM Unit
  | 0 => pure ()
  | fuel + 1 => do
    let s ← get
    if 0 < s.regs.count ∧ s.x < width then
      step body
      plain width body fuel

def repeatMacro (width : Nat) (body : DecoderM Unit) : DecoderM Unit := do
  unrolled width body ((width - (← get).x) / 8)
  plain width body (width - (← get).x)

/-! The pixel loop of one order, lines 209 to 309. -/

def allValuesWritten : Fault :=
  Fault.rdp .rleDecode "count > 0 but all values already written during rle_16 decompress"

def lineUnset : Fault :=
  Fault.rdp .rleDecode "line unset during rle_16 decompress"

def invalidOpcode : Fault :=
  Fault.rdp .rleDecode "invalid opcode"

/-- At the right edge, move to the line above: the buffer is filled from the bottom row
up. -/
def wrap (width : Nat) : DecoderM Unit := do
  let s ← get
  if width ≤ s.x then
    if s.height = 0 then throw allValuesWritten
    set { s with
      x := 0
      height := s.height - 1
      prevline := s.line
      line := some ((s.height - 1) * width) }

section Wrap

variable {width : Nat} {s : Decoder}

theorem wrap_of_lt (h : s.x < width) : wrap width s = .ok () s := by
  simp [wrap, Nat.not_le.mpr h, bind, EStateM.bind, get, getThe,
    MonadStateOf.get, EStateM.get, pure, EStateM.pure]

theorem wrap_of_le (h : width ≤ s.x) (hh : s.height ≠ 0) :
    wrap width s = .ok () { s with
      x := 0, height := s.height - 1
      prevline := s.line, line := some ((s.height - 1) * width) } := by
  simp [wrap, h, hh, bind, EStateM.bind, get, getThe, MonadStateOf.get, EStateM.get, set,
    EStateM.set]

theorem wrap_of_height_zero (h : width ≤ s.x) (hh : s.height = 0) :
    wrap width s = .error allValuesWritten s := by
  simp [wrap, h, hh, bind, EStateM.bind, get, getThe,
    MonadStateOf.get, EStateM.get, throw, throwThe, MonadExceptOf.throw, EStateM.throw]

end Wrap

/-- The first pixel of a background run after a background run: `mix` over the pixel
below. -/
def insertMix (line : Nat) (prevline : Option Nat) : DecoderM Unit := do
  let s ← get
  if s.regs.insertmix then
    let v ← match prevline with
      | some e => do pure ((← below e) ^^^ s.regs.mix)
      | none => pure s.regs.mix
    store line v
    let s ← get
    let count ← lift (checkedSub s.regs.count 1)
    set { s with regs.insertmix := false, regs.count := count, x := s.x + 1 }

def isPixelOpcode (opcode : UInt8) : Bool :=
  opcode = 0 ∨ opcode = 1 ∨ opcode = 2 ∨ opcode = 3 ∨ opcode = 4 ∨ opcode = 8 ∨
    opcode = 0xd ∨ opcode = 0xe

/-- `while count > 0 { .. }`.  Each pass after the first starts a new line, so
`height + 2` passes suffice. -/
def draw (width : Nat) (opcode fomMask : UInt8) : Nat → DecoderM Unit
  | 0 => pure ()
  | fuel + 1 => do
    if (← get).regs.count = 0 then return
    wrap width
    let s ← get
    let some line := s.line | throw lineUnset
    if ¬isPixelOpcode opcode then throw invalidOpcode
    if opcode = 0 then insertMix line s.prevline
    repeatMacro width (body opcode fomMask line s.prevline)
    draw width opcode fomMask fuel

section Draw

variable {width : Nat} {opcode fomMask : UInt8} {s t : Decoder}

theorem draw_of_count {fuel : Nat} (h : s.regs.count = 0) :
    draw width opcode fomMask fuel s = .ok () s := by
  cases fuel <;> simp [draw, h, bind, EStateM.bind, get, getThe,
    MonadStateOf.get, EStateM.get, pure, EStateM.pure]

theorem draw_of_wrap_error {fuel : Nat} {e : Fault} (h : s.regs.count ≠ 0)
    (hwrap : wrap width s = .error e t) :
    draw width opcode fomMask (fuel + 1) s = .error e t := by
  simp [draw, h, hwrap, bind, EStateM.bind, get, getThe,
    MonadStateOf.get, EStateM.get, pure, EStateM.pure]

theorem draw_of_invalid {fuel line : Nat} (h : s.regs.count ≠ 0)
    (hwrap : wrap width s = .ok () t)
    (hline : t.line = some line) (hop : isPixelOpcode opcode = false) :
    draw width opcode fomMask (fuel + 1) s = .error invalidOpcode t := by
  simp [draw, h, hwrap, hline, hop, bind, EStateM.bind, get, getThe,
    MonadStateOf.get, EStateM.get, pure, EStateM.pure, throw, throwThe,
    MonadExceptOf.throw, EStateM.throw]

/-- A pass that finds its line: the `insertmix` pixel of a background order, then
`repeat!`. -/
theorem draw_succ {fuel line : Nat} (h : s.regs.count ≠ 0)
    (hwrap : wrap width s = .ok () t)
    (hline : t.line = some line) (hop : isPixelOpcode opcode = true) :
    draw width opcode fomMask (fuel + 1) s =
      ((if opcode = 0 then insertMix line t.prevline else pure ()) >>= fun _ =>
        repeatMacro width (body opcode fomMask line t.prevline) >>= fun _ =>
          draw width opcode fomMask fuel) t := by
  rcases eq_or_ne opcode 0 with rfl | h0 <;>
    simp [*, draw, bind, EStateM.bind, get, getThe, MonadStateOf.get, EStateM.get, pure,
      EStateM.pure]

end Draw

/-- One pass of the outer loop: an order's header, then its pixels. -/
def order (width : Nat) : DecoderM Unit := do
  let s ← get
  let (opcode, fomMask) ← regs (header (s.x == width && s.prevline.isNone))
  draw width opcode fomMask ((← get).height + 2)

theorem order_eq {width : Nat} (s : Decoder) :
    order width s = match header (s.x == width && s.prevline.isNone) s.regs with
      | .ok ((opcode, fomMask), r) =>
          draw width opcode fomMask (s.height + 2) { s with regs := r }
      | .error e => .error e s := by
  rcases h : header (s.x == width && s.prevline.isNone) s.regs with
      e | ⟨⟨opcode, fomMask⟩, r⟩ <;>
    simp [order, regs, h, bind, EStateM.bind, get, getThe, MonadStateOf.get, EStateM.get]

/-- `while (input_cursor.position() as usize) < input.len() { .. }`: one order a pass,
each reading at least its code byte. -/
def decode (width : Nat) : Nat → DecoderM Unit
  | 0 => pure ()
  | fuel + 1 => do
    if (← get).regs.input = [] then return
    order width
    decode width fuel

theorem decode_of_input_nil {width fuel : Nat} {s : Decoder} (h : s.regs.input = []) :
    decode width fuel s = .ok () s := by
  cases fuel <;> simp [decode, h, bind, EStateM.bind]

theorem decode_succ {width fuel : Nat} {s : Decoder} (h : s.regs.input ≠ []) :
    decode width (fuel + 1) s = (order width >>= fun _ => decode width fuel) s := by
  simp only [decode, bind, EStateM.bind, get, getThe, MonadStateOf.get,
    EStateM.get, h, if_false, pure, EStateM.pure]

theorem decode_succ_of_order {width fuel : Nat} {s t : Decoder} (h : s.regs.input ≠ [])
    (horder : order width s = .ok () t) :
    decode width (fuel + 1) s = decode width fuel t := by
  simp only [decode, bind, EStateM.bind, get, getThe, MonadStateOf.get, EStateM.get, h,
    if_false, pure, EStateM.pure, horder]

/-- The state the decoder starts in: the cursor at `(width, None)`, so the first pixel
wraps to the bottom row, `(height - 1) * width`; the image is written bottom row first. -/
def start (input : List UInt8) (width height : Nat) (output : List UInt16) : Decoder :=
  { regs :=
      { input, lastopcode := 0xFF, insertmix := false, colour1 := 0, colour2 := 0
        mix := 0xffff, mask := 0, bicolour := false, count := 0, mixmask := 0 }
    x := width
    prevline := none
    line := none
    height
    output }

/-- `rle_16_decompress`: how the call ends, and the output slice it leaves. -/
def rle16Decompress (input : List UInt8) (width height : Nat) (output : List UInt16) :
    Except Fault Unit × List UInt16 :=
  match decode width input.length (start input width height output) with
  | .ok _ s => (.ok (), s.output)
  | .error e s => (.error e, s.output)

/-- A background order after a zero-length background order sets `insertmix`; a colour
order does not clear it, so the next background order, which follows the colour order,
starts with `mix` on the bottom row. -/
theorem rle16Decompress_insertmix_carried :
    rle16Decompress [0x01, 0xF0, 0x00, 0x00, 0x61, 0x34, 0x12, 0x01] 3 1 [7, 7, 7] =
      (.ok (), [0, 0x1234, 0xFFFF]) := by
  have h1 :
      order 3 (start [0x01, 0xF0, 0x00, 0x00, 0x61, 0x34, 0x12, 0x01] 3 1 [7, 7, 7]) =
      .ok () { start [0xF0, 0x00, 0x00, 0x61, 0x34, 0x12, 0x01] 3 0 [0, 7, 7] with
        x := 1, line := some 0, regs.lastopcode := 0 } := by decide
  have h2 : order 3 { start [0xF0, 0x00, 0x00, 0x61, 0x34, 0x12, 0x01] 3 0 [0, 7, 7] with
        x := 1, line := some 0, regs.lastopcode := 0 } =
      .ok () { start [0x61, 0x34, 0x12, 0x01] 3 0 [0, 7, 7] with
        x := 1, line := some 0, regs.lastopcode := 0,
        regs.insertmix := true } := by decide
  have h3 : order 3 { start [0x61, 0x34, 0x12, 0x01] 3 0 [0, 7, 7] with
        x := 1, line := some 0, regs.lastopcode := 0, regs.insertmix := true } =
      .ok () { start [0x01] 3 0 [0, 0x1234, 7] with
        x := 2, line := some 0, regs.lastopcode := 3, regs.insertmix := true,
        regs.colour2 := 0x1234 } := by decide
  have h4 : order 3 { start [0x01] 3 0 [0, 0x1234, 7] with
        x := 2, line := some 0, regs.lastopcode := 3, regs.insertmix := true,
        regs.colour2 := 0x1234 } =
      .ok () { start [] 3 0 [0, 0x1234, 0xFFFF] with
        x := 3, line := some 0, regs.lastopcode := 0,
        regs.colour2 := 0x1234 } := by decide
  simp only [rle16Decompress, List.length_cons, List.length_nil]
  rw [decode_succ_of_order (by decide) h1, decode_succ_of_order (by decide) h2,
    decode_succ_of_order (by decide) h3, decode_succ_of_order (by decide) h4,
    decode_of_input_nil rfl]
  rfl

end Rdp.Codec.Rle16
