import Rdp.Codec.Rle16.Header

namespace Rdp.Codec.Rle16

/-! `rle_16_decompress` as a stream of pixels: the `n`-th lands at
`raster width height n`, and the only cell read is the pixel written `width` places
earlier. -/

/-- Where the `n`-th pixel goes: column `n % width` of row `height - 1 - n / width`. -/
def raster (width height n : Nat) : Nat :=
  (height - 1 - n / width) * width + n % width

/-- `output` with `pixels` written at `raster width height n` for
`n = start, start + 1, ...`. -/
def paintFrom (width height : Nat) : Nat → List UInt16 → List UInt16 → List UInt16
  | _, [], output => output
  | n, v :: vs, output => paintFrom width height (n + 1) vs
      (output.set (raster width height n) v)

/-- `output` with the pixel stream `pixels` written in raster order. -/
def paint (width height : Nat) (pixels output : List UInt16) : List UInt16 :=
  paintFrom width height 0 pixels output

section Raster

variable {width height : Nat}

theorem raster_of_row {row col : Nat} (hcol : col < width) (hrow : row < height) :
    raster width height ((height - 1 - row) * width + col) = row * width + col := by
  have hdiv := (Nat.div_mod_unique (by omega : 0 < width)).mpr
    (show col + width * (height - 1 - row) = (height - 1 - row) * width + col ∧
        col < width from ⟨by rw [Nat.mul_comm]; omega, hcol⟩)
  rw [raster, hdiv.1, hdiv.2, show height - 1 - (height - 1 - row) = row by omega]

theorem raster_lt {n : Nat} (hn : n < width * height) :
    raster width height n < width * height := by
  have hw : 0 < width := Nat.pos_of_ne_zero fun h => by simp [h] at hn
  have hq : n / width < height := (Nat.div_lt_iff_lt_mul hw).mpr (by rwa [Nat.mul_comm])
  have hr : n % width < width := Nat.mod_lt n hw
  rw [raster, Nat.mul_comm width height]
  generalize n / width = q at hq
  generalize n % width = r at hr
  have hrow : (height - 1 - q + 1) * width ≤ height * width :=
    Nat.mul_le_mul_right _ (by omega)
  have hsucc : (height - 1 - q + 1) * width = (height - 1 - q) * width + width :=
    Nat.succ_mul _ _
  omega

theorem raster_injective {n m : Nat} (hn : n < width * height) (hm : m < width * height)
    (h : raster width height n = raster width height m) : n = m := by
  have hw : 0 < width := Nat.pos_of_ne_zero fun h => by simp [h] at hn
  have hqn : n / width < height := (Nat.div_lt_iff_lt_mul hw).mpr (by rwa [Nat.mul_comm])
  have hqm : m / width < height := (Nat.div_lt_iff_lt_mul hw).mpr (by rwa [Nat.mul_comm])
  have hrn : n % width < width := Nat.mod_lt n hw
  have hrows := (Nat.div_mod_unique hw).mpr
    (show m % width + width * (height - 1 - m / width) = raster width height n ∧
      m % width < width from ⟨by rw [h, raster, Nat.mul_comm]; omega, Nat.mod_lt m hw⟩)
  rw [raster, show (height - 1 - n / width) * width + n % width =
    n % width + width * (height - 1 - n / width) by rw [Nat.mul_comm]; omega] at hrows
  have hunique := (Nat.div_mod_unique hw).mpr
    (show n % width + width * (height - 1 - n / width) =
      n % width + width * (height - 1 - n / width) ∧ n % width < width from ⟨rfl, hrn⟩)
  rw [hunique.1, hunique.2] at hrows
  have hn' := Nat.div_add_mod n width
  have hm' := Nat.div_add_mod m width
  generalize n / width = qn at *
  generalize m / width = qm at *
  generalize n % width = rn at *
  generalize m % width = rm at *
  obtain ⟨hq, hr⟩ := hrows
  rw [← hn', ← hm', show qn = qm by omega, hr]

end Raster

section Paint

variable {width height : Nat}

@[simp] theorem length_paintFrom (n : Nat) (pixels output : List UInt16) :
    (paintFrom width height n pixels output).length = output.length := by
  induction pixels generalizing n output with
  | nil => rfl
  | cons v vs ih => simp [paintFrom, ih]

@[simp] theorem length_paint (pixels output : List UInt16) :
    (paint width height pixels output).length = output.length :=
  length_paintFrom 0 pixels output

@[simp] theorem paint_nil (output : List UInt16) :
    paint width height [] output = output := rfl

theorem paintFrom_append_singleton (n : Nat) (pixels output : List UInt16) (v : UInt16) :
    paintFrom width height n (pixels ++ [v]) output =
      (paintFrom width height n pixels output).set
        (raster width height (n + pixels.length)) v := by
  induction pixels generalizing n output with
  | nil => rfl
  | cons w ws ih =>
    rw [List.cons_append, paintFrom, paintFrom, ih, List.length_cons,
      show n + 1 + ws.length = n + (ws.length + 1) by omega]

/-- Painting one more pixel writes the cell of its raster position. -/
theorem paint_append_singleton (pixels output : List UInt16) (v : UInt16) :
    paint width height (pixels ++ [v]) output =
      (paint width height pixels output).set (raster width height pixels.length) v := by
  rw [paint, paintFrom_append_singleton, Nat.zero_add]
  rfl

/-- A cell no pixel is painted on keeps its value. -/
theorem getElem?_paint_of_ne {pixels : List UInt16} {i : Nat}
    (h : ∀ k < pixels.length, raster width height k ≠ i) (output : List UInt16) :
    (paint width height pixels output)[i]? = output[i]? := by
  induction pixels using List.reverseRecOn with
  | nil => rfl
  | append_singleton pixels v ih =>
    rw [paint_append_singleton, List.getElem?_set_ne (h _ (by simp)),
      ih fun k hk => h k (by simp; omega)]

/-- The cell of the `k`-th pixel holds it: the raster positions of the stream are
distinct. -/
theorem getElem?_paint_raster {pixels output : List UInt16} {k : Nat}
    (hk : k < pixels.length) (hpixels : pixels.length ≤ width * height)
    (houtput : width * height ≤ output.length) :
    (paint width height pixels output)[raster width height k]? = pixels[k]? := by
  induction pixels using List.reverseRecOn with
  | nil => simp at hk
  | append_singleton pixels v ih =>
    simp only [List.length_append, List.length_singleton] at hk hpixels
    rw [paint_append_singleton]
    by_cases hlast : k = pixels.length
    · subst hlast
      have hlt := raster_lt (show pixels.length < width * height by omega)
      rw [List.getElem?_set_self (by simp; omega), List.getElem?_concat_length]
    · rw [List.getElem?_set_ne fun h =>
        hlast (raster_injective (by omega) (by omega) h).symm,
        ih (by omega) (by omega), List.getElem?_append_left (by omega)]

/-- Cells from `width * height` on are never painted. -/
theorem getElem?_paint_of_le {pixels : List UInt16}
    (hpixels : pixels.length ≤ width * height)
    (output : List UInt16) {i : Nat} (hi : width * height ≤ i) :
    (paint width height pixels output)[i]? = output[i]? :=
  getElem?_paint_of_ne
    (fun k hk => by have := raster_lt (show k < width * height by omega); omega)
    output

end Paint

/-! ### The pixel-stream decoder -/

/-- The pixel below the next one: the pixel `width` places back, none on the bottom row.
-/
def belowPixel (width : Nat) (pixels : List UInt16) : Option UInt16 :=
  if width ≤ pixels.length then pixels[pixels.length - width]? else none

/-- The value `body` writes for the next pixel of an order, and its register updates,
from the pixel below it (none on the bottom row). -/
def pixelValue (opcode fomMask : UInt8) (below : Option UInt16) : RegsM UInt16 :=
  match opcode, below with
  | 0, some b => pure b
  | 0, none => pure 0
  | 1, some b => return b ^^^ (← get).mix
  | 1, none => return (← get).mix
  | 2, some b => do
    nextMaskBit fomMask
    let r ← get
    pure (if maskBitSet r then b ^^^ r.mix else b)
  | 2, none => do
    nextMaskBit fomMask
    let r ← get
    pure (if maskBitSet r then r.mix else 0)
  | 3, _ => return (← get).colour2
  | 4, _ => readU16
  | 8, _ => bicolourStep
  | 0xd, _ => pure 0xffff
  | 0xe, _ => pure 0
  | _, _ => pure 0

/-- A pixel keeps `insertmix` and never lowers `count` (the bicolour pixel raises it). -/
theorem pixelValue_regs {opcode fomMask : UInt8}
    {below : Option UInt16} {r r' : Registers}
    {v : UInt16} (h : pixelValue opcode fomMask below r = .ok (v, r')) :
    r.count ≤ r'.count ∧ r'.insertmix = r.insertmix := by
  unfold pixelValue at h
  split at h <;>
    simp only [bind, StateT.bind, Except.bind, get, getThe,
      MonadStateOf.get, StateT.get, pure, StateT.pure, Except.pure,
      readU16_eq, bicolourStep_eq] at h
  case h_5 | h_6 =>
    rcases hn : nextMaskBit fomMask r with e | ⟨u, r₁⟩ <;>
      simp only [hn, reduceCtorEq, Except.ok.injEq, Prod.mk.injEq] at h
    rw [← h.2, nextMaskBit_frame hn]
    exact ⟨le_rfl, rfl⟩
  case h_8 =>
    split at h <;> simp only [reduceCtorEq, Except.ok.injEq, Prod.mk.injEq] at h
    rw [← h.2]
    exact ⟨le_rfl, rfl⟩
  case h_9 =>
    split_ifs at h <;> simp only [Except.ok.injEq, Prod.mk.injEq] at h <;> rw [← h.2] <;>
      exact ⟨by simp, rfl⟩
  all_goals
    simp only [Except.ok.injEq, Prod.mk.injEq] at h
    rw [← h.2]
    exact ⟨le_rfl, rfl⟩

theorem nextMaskBit_failsAtEnd (fomMask : UInt8) :
    Guarded (fun _ => True) (nextMaskBit fomMask) := by
  intro r _
  rw [nextMaskBit_eq]
  split_ifs
  · trivial
  · trivial
  · cases h : r.input <;> simp only [h]

/-- A pixel's register update fails only at the end of the input. -/
theorem pixelValue_failsAtEnd (opcode fomMask : UInt8) (below : Option UInt16) :
    Guarded (fun _ => True) (pixelValue opcode fomMask below) := by
  unfold pixelValue
  split <;>
    repeat (first
      | exact Guarded.pure _
      | exact Guarded.get
      | exact readU16_guarded (P := fun _ => True)
      | exact nextMaskBit_failsAtEnd _
      | exact fun r _ => by rw [bicolourStep_eq]; split_ifs <;> trivial
      | refine Guarded.bind ?_ fun _ => ?_)

/-- The value of the `insertmix` pixel: `mix` over the pixel below. -/
def insertValue (mix : UInt16) : Option UInt16 → UInt16
  | some b => b ^^^ mix
  | none => mix

namespace Pixels

/-- The registers and the pixels written so far. -/
structure Pen where
  regs : Registers
  pixels : List UInt16
deriving DecidableEq, Repr

abbrev PenM := EStateM Fault Pen

def regs {α : Type} (m : RegsM α) : PenM α := fun pen =>
  match m pen.regs with
  | .ok (a, r) => .ok a { pen with regs := r }
  | .error e => .error e pen

/-- One pixel of an order's run, then `count -= 1`: the `insertmix` pixel of a
background order, or the pixel `body` writes. -/
def pixel (width : Nat) (opcode fomMask : UInt8) : PenM Unit := fun pen =>
  let below := belowPixel width pen.pixels
  let r := pen.regs
  if opcode = 0 ∧ r.insertmix = true then
    .ok () ⟨{ r with insertmix := false, count := r.count - 1 },
      pen.pixels ++ [insertValue r.mix below]⟩
  else
    match pixelValue opcode fomMask below r with
    | .ok (v, r) => .ok () ⟨{ r with count := r.count - 1 }, pen.pixels ++ [v]⟩
    | .error e => .error e pen

theorem pixel_of_insertmix {width : Nat} {fomMask : UInt8}
    {r : Registers} {pixels : List UInt16}
    (h : r.insertmix = true) :
    pixel width 0 fomMask ⟨r, pixels⟩ =
      .ok () ⟨{ r with insertmix := false, count := r.count - 1 },
        pixels ++ [insertValue r.mix (belowPixel width pixels)]⟩ := by
  simp [pixel, h]

/-- A pixel appends one value to the stream, or fails at the end of the input. -/
theorem pixel_result (width : Nat) (opcode fomMask : UInt8) (pen : Pen) :
    match pixel width opcode fomMask pen with
    | .ok _ pen' => pen'.pixels.length = pen.pixels.length + 1
    | .error e pen' => e = .error .io ∧ pen' = pen := by
  by_cases hmix : opcode = 0 ∧ pen.regs.insertmix = true
  · simp [pixel, hmix]
  · have h := pixelValue_failsAtEnd opcode fomMask
      (belowPixel width pen.pixels) pen.regs trivial
    revert h
    simp only [pixel, if_neg hmix]
    rcases pixelValue opcode fomMask
      (belowPixel width pen.pixels) pen.regs with e | ⟨v, r⟩ <;> simp

/-- `while count > 0 { .. }`, a pixel a pass: the run fails once all `width * height`
pixels are written.  Each pass writes a pixel, so `width * height - n + 1` passes
suffice. -/
def draw (width height : Nat) (opcode fomMask : UInt8) : Nat → PenM Unit
  | 0 => pure ()
  | fuel + 1 => do
    let pen ← get
    if pen.regs.count = 0 then return
    if width * height ≤ pen.pixels.length then throw allValuesWritten
    if ¬isPixelOpcode opcode then throw invalidOpcode
    pixel width opcode fomMask
    draw width height opcode fomMask fuel

section Draw

variable {width height : Nat} {opcode fomMask : UInt8} {pen : Pen}

theorem draw_of_count {fuel : Nat} (h : pen.regs.count = 0) :
    draw width height opcode fomMask fuel pen = .ok () pen := by
  cases fuel <;> simp [draw, h, bind, EStateM.bind, get, getThe,
    MonadStateOf.get, EStateM.get, pure, EStateM.pure]

theorem draw_of_full {fuel : Nat} (h : pen.regs.count ≠ 0)
    (hfull : width * height ≤ pen.pixels.length) :
    draw width height opcode fomMask (fuel + 1) pen = .error allValuesWritten pen := by
  simp [draw, h, hfull, bind, EStateM.bind, get, getThe,
    MonadStateOf.get, EStateM.get, throw, throwThe, MonadExceptOf.throw, EStateM.throw]

theorem draw_of_invalid {fuel : Nat} (h : pen.regs.count ≠ 0)
    (hlt : pen.pixels.length < width * height) (hop : isPixelOpcode opcode = false) :
    draw width height opcode fomMask (fuel + 1) pen = .error invalidOpcode pen := by
  simp [draw, h, Nat.not_le.mpr hlt, hop, bind, EStateM.bind, get,
    getThe, MonadStateOf.get, EStateM.get, throw, throwThe,
    MonadExceptOf.throw, EStateM.throw]

theorem draw_succ {fuel : Nat} (h : pen.regs.count ≠ 0)
    (hlt : pen.pixels.length < width * height)
    (hop : isPixelOpcode opcode = true) :
    draw width height opcode fomMask (fuel + 1) pen =
      (pixel width opcode fomMask >>= fun _ =>
        draw width height opcode fomMask fuel) pen := by
  simp [draw, h, Nat.not_le.mpr hlt, hop, bind, EStateM.bind, get,
    getThe, MonadStateOf.get, EStateM.get]

/-- The pixel loop with `a + b` passes is the loop with `a` passes, then with `b`. -/
theorem draw_add (a b : Nat) (pen : Pen) :
    draw width height opcode fomMask (a + b) pen =
      (draw width height opcode fomMask a >>= fun _ =>
        draw width height opcode fomMask b) pen := by
  induction a generalizing pen with
  | zero => rw [Nat.zero_add]; rfl
  | succ a ih =>
    by_cases hcount : pen.regs.count = 0
    · rw [draw_of_count hcount, EStateM.bind_of_ok (draw_of_count hcount),
        draw_of_count hcount]
    by_cases hfull : width * height ≤ pen.pixels.length
    · rw [show a + 1 + b = a + b + 1 by omega, draw_of_full hcount hfull,
        EStateM.bind_of_error (draw_of_full hcount hfull)]
    cases hop : isPixelOpcode opcode
    · rw [show a + 1 + b = a + b + 1 by omega, draw_of_invalid hcount (by omega) hop,
        EStateM.bind_of_error (draw_of_invalid hcount (by omega) hop)]
    · rw [show a + 1 + b = a + b + 1 by omega, draw_succ hcount (by omega) hop,
        EStateM.bind_congr_apply (draw_succ hcount (by omega) hop)]
      rcases hp : pixel width opcode fomMask pen with ⟨u, pen₁⟩ | ⟨e, pen₁⟩
      · rw [EStateM.bind_of_ok hp, EStateM.bind_congr_apply (EStateM.bind_of_ok hp), ih]
      · rw [EStateM.bind_of_error hp, EStateM.bind_of_error (EStateM.bind_of_error hp)]

end Draw

/-- An order: its header, then its pixels.  The decoder's cursor stands at `x == width`
with no previous line exactly before the first pixel and after the bottom row. -/
def order (width height : Nat) : PenM Unit := do
  let n := (← get).pixels.length
  let (opcode, fomMask) ← regs (header (n == 0 || n == width))
  draw width height opcode fomMask (width * height - n + 1)

def decode (width height : Nat) : Nat → PenM Unit
  | 0 => pure ()
  | fuel + 1 => do
    if (← get).regs.input = [] then return
    order width height
    decode width height fuel

theorem order_eq {width height : Nat} (pen : Pen) :
    order width height pen =
      match header (pen.pixels.length == 0 || pen.pixels.length == width) pen.regs with
      | .ok ((opcode, fomMask), r) =>
        draw width height opcode fomMask
          (width * height - pen.pixels.length + 1) { pen with regs := r }
      | .error e => .error e pen := by
  rcases h : header (pen.pixels.length == 0 || pen.pixels.length == width) pen.regs with
    e | ⟨⟨opcode, fomMask⟩, r⟩ <;>
    simp [order, regs, h, bind, EStateM.bind, get, getThe, MonadStateOf.get, EStateM.get]

theorem decode_of_input_nil {width height fuel : Nat} {pen : Pen}
    (h : pen.regs.input = []) :
    decode width height fuel pen = .ok () pen := by
  cases fuel <;> simp [decode, h, bind, EStateM.bind]

theorem decode_succ {width height fuel : Nat} {pen : Pen} (h : pen.regs.input ≠ []) :
    decode width height (fuel + 1) pen =
      (order width height >>= fun _ => decode width height fuel) pen := by
  simp only [decode, bind, EStateM.bind, get, getThe, MonadStateOf.get,
    EStateM.get, h, if_false, pure, EStateM.pure]

/-! ### How a run ends -/

/-- How a run of the pixel-stream decoder ends: at the end of the input, with every
pixel written, or at an undefined opcode, and never past `width * height` pixels. -/
def Stops (width height : Nat) : EStateM.Result Fault Pen Unit → Prop
  | .ok _ pen => pen.pixels.length ≤ width * height
  | .error e pen => pen.pixels.length ≤ width * height ∧
      (e = .error .io ∨ e = allValuesWritten ∨ e = invalidOpcode)

section Stops

variable {width height : Nat}

theorem Stops.bind {m f : Unit → PenM Unit} {pen : Pen}
    (hm : Stops width height (m () pen))
    (hf : ∀ pen', pen'.pixels.length ≤ width * height → Stops width height (f () pen')) :
    Stops width height ((m () >>= f) pen) := by
  rcases h : m () pen with ⟨u, pen'⟩ | ⟨e, pen'⟩ <;> rw [h] at hm
  · rw [EStateM.bind_of_ok h]
    exact hf pen' hm
  · rw [EStateM.bind_of_error h]
    exact hm

theorem draw_stops (opcode fomMask : UInt8) :
    ∀ (fuel : Nat) (pen : Pen), pen.pixels.length ≤ width * height →
      Stops width height (draw width height opcode fomMask fuel pen)
  | 0, _, h => h
  | fuel + 1, pen, h => by
    by_cases hcount : pen.regs.count = 0
    · rw [draw_of_count hcount]; exact h
    by_cases hfull : width * height ≤ pen.pixels.length
    · rw [draw_of_full hcount hfull]; exact ⟨h, .inr (.inl rfl)⟩
    cases hop : isPixelOpcode opcode
    · rw [draw_of_invalid hcount (by omega) hop]; exact ⟨h, .inr (.inr rfl)⟩
    rw [draw_succ hcount (by omega) hop]
    have hp := pixel_result width opcode fomMask pen
    rcases hr : pixel width opcode fomMask pen with ⟨u, pen'⟩ | ⟨e, pen'⟩ <;>
      rw [hr] at hp
    · rw [EStateM.bind_of_ok hr]
      exact draw_stops opcode fomMask fuel pen' (by omega)
    · rw [EStateM.bind_of_error hr, hp.1, hp.2]
      exact ⟨h, .inl rfl⟩

theorem order_stops {pen : Pen} (h : pen.pixels.length ≤ width * height) :
    Stops width height (order width height pen) := by
  rw [order_eq]
  have hh := header_failsAtEnd
    (pen.pixels.length == 0 || pen.pixels.length == width) pen.regs trivial
  revert hh
  rcases header (pen.pixels.length == 0 || pen.pixels.length == width) pen.regs with
    e | ⟨⟨opcode, fomMask⟩, r⟩
  · exact fun he => ⟨h, .inl he⟩
  · exact fun _ => draw_stops _ _ _ ⟨r, pen.pixels⟩ h

theorem decode_stops : ∀ (fuel : Nat) (pen : Pen), pen.pixels.length ≤ width * height →
    Stops width height (decode width height fuel pen)
  | 0, _, h => h
  | fuel + 1, pen, h => by
    by_cases hin : pen.regs.input = []
    · rw [decode_of_input_nil hin]; exact h
    · rw [decode_succ hin]
      exact Stops.bind (m := fun _ => order width height) (order_stops h)
        fun pen' h' => decode_stops fuel pen' h'

end Stops

end Pixels

/-- The pixel stream of `rle_16_decompress`: how the call ends, and the pixels it
writes. -/
def decodePixels (input : List UInt8) (width height : Nat) :
    Except Fault Unit × List UInt16 :=
  match Pixels.decode width height input.length
      ⟨(start input width height []).regs, []⟩ with
  | .ok _ pen => (.ok (), pen.pixels)
  | .error e pen => (.error e, pen.pixels)

/-- The pixel-stream decoder writes at most `width * height` pixels, and fails only at
the end of the input, with every pixel written, or at an undefined opcode. -/
theorem decodePixels_stops (input : List UInt8) (width height : Nat) :
    (decodePixels input width height).2.length ≤ width * height ∧
      ((decodePixels input width height).1 = .ok () ∨
        (decodePixels input width height).1 = .error (.error .io) ∨
        (decodePixels input width height).1 = .error allValuesWritten ∨
        (decodePixels input width height).1 = .error invalidOpcode) := by
  have h : Pixels.Stops width height
      (Pixels.decode width height input.length
        ⟨(start input width height []).regs, []⟩) :=
    Pixels.decode_stops input.length _ (Nat.zero_le _)
  unfold decodePixels
  revert h
  rcases Pixels.decode width height input.length
      ⟨(start input width height []).regs, []⟩ with ⟨_, pen⟩ | ⟨e, pen⟩ <;>
    intro h
  · exact ⟨h, .inl rfl⟩
  · rcases h with ⟨h, rfl | rfl | rfl⟩ <;> simp [h]

end Rdp.Codec.Rle16
