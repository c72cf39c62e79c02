import Rdp.Codec.Rle16.Pixels
import Rdp.Codec.Rle16.Repeat

namespace Rdp.Codec.Rle16

/-! `rle_16_decompress` refines the pixel-stream decoder: on a buffer of at least
`width * height` cells it stops as that decoder does, the buffer painted with its
pixels. -/

/-- The statement of `repeat!` writes the value the pixel-stream decoder computes, from
the registers and the cell below the cursor. -/
theorem body_eq {opcode fomMask : UInt8} {line : Nat} {prevline : Option Nat}
    {below : Option UInt16} {s : Decoder} (hop : isPixelOpcode opcode = true)
    (hline : line + s.x < s.output.length)
    (hbelow : Option.Rel (fun e b => s.output[e + s.x]? = some b) prevline below) :
    body opcode fomMask line prevline s =
      match pixelValue opcode fomMask below s.regs with
      | .ok (v, r) => .ok () { s with regs := r, output := s.output.set (line + s.x) v }
      | .error e => .error e s := by
  simp only [isPixelOpcode, Bool.decide_or, Bool.or_eq_true, decide_eq_true_eq] at hop
  rcases hop with rfl | rfl | rfl | rfl | rfl | rfl | rfl | rfl
  · rcases hbelow with ⟨hb⟩ | _
    · rw [body, EStateM.bind_of_ok (below_eq hb), store_eq hline]; rfl
    · rw [body, store_eq hline]; rfl
  · rcases hbelow with ⟨hb⟩ | _
    · rw [body, EStateM.bind_of_ok (below_eq hb), EStateM.bind_of_ok EStateM.get_apply,
        store_eq hline]; rfl
    · rw [body, EStateM.bind_of_ok EStateM.get_apply, store_eq hline]; rfl
  · rcases hbelow with ⟨hb⟩ | _ <;> rcases hn : nextMaskBit fomMask s.regs with e | ⟨u, r⟩
    · rw [body, EStateM.bind_of_error (regs_of_error hn)]
      simp only [pixelValue, bind, StateT.bind, hn]; rfl
    · rw [body, EStateM.bind_of_ok (regs_of_ok hn), EStateM.bind_of_ok EStateM.get_apply,
        EStateM.bind_of_ok (below_eq (s := { s with regs := r }) hb),
        store_eq (s := { s with regs := r }) hline]
      simp only [pixelValue, bind, StateT.bind, hn]; rfl
    · rw [body, EStateM.bind_of_error (regs_of_error hn)]
      simp only [pixelValue, bind, StateT.bind, hn]; rfl
    · rw [body, EStateM.bind_of_ok (regs_of_ok hn), EStateM.bind_of_ok EStateM.get_apply,
        store_eq (s := { s with regs := r }) hline]
      simp only [pixelValue, bind, StateT.bind, hn]; rfl
  · rw [body, EStateM.bind_of_ok EStateM.get_apply, store_eq hline]; rfl
  · exact regs_store_eq hline
  · exact regs_store_eq hline
  · rw [body, store_eq hline]; rfl
  · rw [body, store_eq hline]; rfl

/-- The `insertmix` pixel: `mix` over the pixel below, written at the cursor without a
bound check of `x`. -/
theorem insertMix_eq {line : Nat} {prevline : Option Nat}
    {below : Option UInt16} {s : Decoder}
    (hmix : s.regs.insertmix = true) (hcount : 0 < s.regs.count)
    (hline : line + s.x < s.output.length)
    (hbelow : Option.Rel (fun e b => s.output[e + s.x]? = some b) prevline below) :
    insertMix line prevline s = .ok () { s with
      regs := { s.regs with insertmix := false, count := s.regs.count - 1 }, x := s.x + 1
      output := s.output.set (line + s.x) (insertValue s.regs.mix below) } := by
  rcases hbelow with ⟨hb⟩ | _
  · simp [insertMix, hmix, below_eq hb, store_eq hline, insertValue,
      checkedSub_of_le hcount, bind, EStateM.bind, get, getThe, MonadStateOf.get,
      EStateM.get, lift, set, EStateM.set, pure, EStateM.pure]
  · simp [insertMix, hmix, store_eq hline, insertValue, checkedSub_of_le hcount, bind,
      EStateM.bind, get, getThe, MonadStateOf.get, EStateM.get, lift, set,
      EStateM.set, pure, EStateM.pure]

theorem insertMix_of_false {line : Nat} {prevline : Option Nat} {s : Decoder}
    (hmix : s.regs.insertmix = false) : insertMix line prevline s = .ok () s := by
  simp [insertMix, hmix, bind, EStateM.bind, get, getThe,
    MonadStateOf.get, EStateM.get, pure, EStateM.pure]

/-! ### The cursor and the buffer -/

/-- Column `col` of row `row` lies inside the image. -/
theorem row_add_lt {width height row col : Nat}
    (hcol : col < width) (hrow : row < height) :
    row * width + col < width * height := by
  have hmono : (row + 1) * width ≤ height * width := Nat.mul_le_mul_right _ hrow
  have hsucc : (row + 1) * width = row * width + width := Nat.succ_mul row width
  rw [Nat.mul_comm width height]
  omega

/-- The cursor after `n` pixels.  Before the first pixel it stands at `x = width` with
no line; afterwards it is `x` pixels into the row `height` (the rows below it full), the
row below being the previous line. -/
inductive At (width height : Nat) : Nat → Decoder → Prop
  | start {s : Decoder} :
      s.x = width → s.line = none → s.prevline = none → s.height = height →
      At width height 0 s
  | row {s : Decoder} :
      s.height < height → s.x ≤ width → s.line = some (s.height * width) →
      s.prevline =
        (if s.height + 1 = height then none else some ((s.height + 1) * width)) →
      At width height ((height - 1 - s.height) * width + s.x) s

/-- The decoder after the pixels `pixels`: its buffer is `output` painted with them, and
its cursor stands after them. -/
structure Drawn (width height : Nat) (output pixels : List UInt16)
    (s : Decoder) : Prop where
  fits : width * height ≤ output.length
  painted : s.output = paint width height pixels output
  cursor : At width height pixels.length s

section Cursor

variable {width height : Nat} {output pixels : List UInt16} {s : Decoder}

theorem At.le {n : Nat} (hat : At width height n s) : n ≤ width * height := by
  cases hat with
  | start => exact Nat.zero_le _
  | row hh hx =>
    rcases Nat.lt_or_ge s.x width with hlt | hge
    · exact Nat.le_of_lt (row_add_lt hlt (by omega))
    · have hmono : (height - 1 - s.height + 1) * width ≤ height * width :=
        Nat.mul_le_mul_right _ (by omega)
      have hsucc : (height - 1 - s.height + 1) * width =
          (height - 1 - s.height) * width + width :=
        Nat.succ_mul _ _
      rw [Nat.mul_comm width height]
      omega

theorem At.of_row {n : Nat} (hh : s.height < height) (hx : s.x ≤ width)
    (hline : s.line = some (s.height * width))
    (hprev : s.prevline =
      (if s.height + 1 = height then none else some ((s.height + 1) * width)))
    (hn : n = (height - 1 - s.height) * width + s.x) : At width height n s :=
  hn ▸ At.row hh hx hline hprev

theorem At.x_le {n : Nat} (hat : At width height n s) : s.x ≤ width := by
  cases hat <;> omega

/-- Below the top of the image the cursor is in a row. -/
theorem At.eq_of_lt {n : Nat} (hat : At width height n s) (hh : s.height < height) :
    n = (height - 1 - s.height) * width + s.x := by
  cases hat with
  | start _ _ _ hs => omega
  | row => rfl

/-- A cursor inside a row is ready to write its pixel at `raster width height n`. -/
theorem At.ready {n : Nat} (hat : At width height n s) (hx : s.x < width) :
    s.height < height ∧ s.line = some (s.height * width) ∧
      s.prevline =
        (if s.height + 1 = height then none else some ((s.height + 1) * width)) ∧
      n = (height - 1 - s.height) * width + s.x := by
  cases hat with
  | start hx' => omega
  | row hh _ hline hprev => exact ⟨hh, hline, hprev, rfl⟩

theorem Drawn.lt (hdrawn : Drawn width height output pixels s) (hx : s.x < width) :
    pixels.length < width * height := by
  obtain ⟨hh, -, -, hn⟩ := hdrawn.cursor.ready hx
  rw [hn]
  exact row_add_lt hx (by omega)

/-- The cell under the cursor is the raster position of the next pixel. -/
theorem Drawn.raster (hdrawn : Drawn width height output pixels s) (hx : s.x < width) :
    s.height * width + s.x = raster width height pixels.length ∧
      s.height * width + s.x < s.output.length := by
  obtain ⟨hh, -, -, hn⟩ := hdrawn.cursor.ready hx
  refine ⟨by rw [hn, raster_of_row hx hh], ?_⟩
  rw [hdrawn.painted, length_paint]
  exact Nat.lt_of_lt_of_le (row_add_lt hx hh) hdrawn.fits

/-- Writing the cell under the cursor paints the next pixel. -/
theorem Drawn.set_eq (hdrawn : Drawn width height output pixels s)
    (hx : s.x < width) (v : UInt16) :
    s.output.set (s.height * width + s.x) v =
      paint width height (pixels ++ [v]) output := by
  rw [(hdrawn.raster hx).1, hdrawn.painted, paint_append_singleton]

/-- The previous line holds the pixel `width` places back in the stream. -/
theorem Drawn.below (hdrawn : Drawn width height output pixels s) (hx : s.x < width) :
    Option.Rel (fun e b => s.output[e + s.x]? = some b) s.prevline
      (belowPixel width pixels) := by
  obtain ⟨hh, -, hprev, hn⟩ := hdrawn.cursor.ready hx
  rw [hprev, belowPixel]
  by_cases hfirst : s.height + 1 = height
  · rw [if_pos hfirst,
      if_neg (by rw [hn, show height - 1 - s.height = 0 by omega]; omega)]
    exact .none
  · have hrows : height - 1 - s.height = height - 1 - (s.height + 1) + 1 := by omega
    have hsucc : (height - 1 - (s.height + 1) + 1) * width =
        (height - 1 - (s.height + 1)) * width + width := Nat.succ_mul _ _
    have hbelow : pixels.length - width =
        (height - 1 - (s.height + 1)) * width + s.x := by
      rw [hn, hrows]; omega
    have hlt : pixels.length - width < pixels.length := by
      rw [hbelow, hn, hrows]; omega
    rw [if_neg hfirst, if_pos (by rw [hn, hrows]; omega), List.getElem?_eq_getElem hlt]
    refine .some ?_
    rw [hdrawn.painted, ← raster_of_row hx (show s.height + 1 < height by omega),
      ← hbelow, getElem?_paint_raster hlt (hdrawn.cursor.le) hdrawn.fits,
      List.getElem?_eq_getElem hlt]

/-- With the cursor at the right edge of the row `0`, every pixel is written. -/
theorem At.full {n : Nat} (hat : At width height n s)
    (hx : width ≤ s.x) (hh : s.height = 0) :
    width * height ≤ n := by
  cases hat with
  | start _ _ _ hs => rw [← hs, hh, Nat.mul_zero]
  | row hlt hle =>
    have hsucc : (height - 1 - s.height + 1) * width =
        (height - 1 - s.height) * width + width :=
      Nat.succ_mul _ _
    have hrows : width * height = (height - 1 - s.height + 1) * width := by
      rw [Nat.mul_comm, show height - 1 - s.height + 1 = height by omega]
    omega

/-- The rest of the cursor's row fits in the image. -/
theorem Drawn.room (hdrawn : Drawn width height output pixels s) (hx : s.x < width) :
    pixels.length + (width - s.x) ≤ width * height := by
  obtain ⟨hh, -, -, hn⟩ := hdrawn.cursor.ready hx
  have hmono : (height - 1 - s.height + 1) * width ≤ height * width :=
    Nat.mul_le_mul_right _ (by omega)
  have hsucc : (height - 1 - s.height + 1) * width =
      (height - 1 - s.height) * width + width :=
    Nat.succ_mul _ _
  rw [hn, Nat.mul_comm width height]
  omega

/-- At an order boundary the cursor stands at `x == width` with no previous line exactly
before the first pixel and after the bottom row. -/
theorem Drawn.atStart (hdrawn : Drawn width height output pixels s) (hx : 0 < s.x) :
    (s.x == width && s.prevline.isNone) =
      (pixels.length == 0 || pixels.length == width) := by
  have hat := hdrawn.cursor
  generalize pixels.length = n at hat ⊢
  cases hat with
  | start hxw _ hprev => simp [hxw, hprev]
  | row hh hle _ hprev =>
    rw [hprev]
    by_cases hlast : s.height + 1 = height
    · rw [if_pos hlast, show height - 1 - s.height = 0 by omega, Nat.zero_mul,
        Nat.zero_add]
      simp [Nat.pos_iff_ne_zero.mp hx]
    · have hge : width ≤ (height - 1 - s.height) * width :=
        Nat.le_mul_of_pos_left _ (by omega)
      rw [if_neg hlast]
      simp
      omega

theorem At.setRegs {n : Nat} (hat : At width height n s) (r : Registers) :
    At width height n { s with regs := r } := by
  cases hat with
  | start h₁ h₂ h₃ h₄ => exact .start h₁ h₂ h₃ h₄
  | row h₁ h₂ h₃ h₄ => exact At.of_row h₁ h₂ h₃ h₄ rfl

/-- A pixel written at the cursor, the cursor moved on. -/
theorem Drawn.advance (hdrawn : Drawn width height output pixels s)
    (hx : s.x < width) (v : UInt16)
    (r : Registers) :
    Drawn width height output (pixels ++ [v])
      { s with regs := r, x := s.x + 1,
               output := paint width height (pixels ++ [v]) output } := by
  obtain ⟨hh, hline, hprev, hn⟩ := hdrawn.cursor.ready hx
  exact ⟨hdrawn.fits, rfl,
    At.of_row hh hx hline hprev
      (by rw [List.length_append, List.length_singleton, hn]; rfl)⟩

/-- At the right edge, `wrap` moves the cursor to the start of the row above. -/
theorem Drawn.wrap (hdrawn : Drawn width height output pixels s) (hx : width ≤ s.x)
    (hh : s.height ≠ 0) :
    Drawn width height output pixels { s with
      x := 0, height := s.height - 1
      prevline := s.line, line := some ((s.height - 1) * width) } := by
  refine ⟨hdrawn.fits, hdrawn.painted, ?_⟩
  have hat := hdrawn.cursor
  generalize pixels.length = n at hat ⊢
  cases hat with
  | start _ hline _ hs =>
    refine At.of_row (show s.height - 1 < height by omega) (Nat.zero_le _) rfl ?_ ?_
    · show s.line =
        if s.height - 1 + 1 = height then none else some ((s.height - 1 + 1) * width)
      rw [if_pos (by omega), hline]
    · show 0 = (height - 1 - (s.height - 1)) * width + 0
      rw [show height - 1 - (s.height - 1) = 0 by omega, Nat.zero_mul]
  | row hlt hle hline =>
    refine At.of_row (show s.height - 1 < height by omega) (Nat.zero_le _) rfl ?_ ?_
    · show s.line =
        if s.height - 1 + 1 = height then none else some ((s.height - 1 + 1) * width)
      rw [if_neg (by omega), hline, show s.height - 1 + 1 = s.height by omega]
    · show _ = (height - 1 - (s.height - 1)) * width + 0
      have hsucc : (height - 1 - s.height + 1) * width =
          (height - 1 - s.height) * width + width :=
        Nat.succ_mul _ _
      rw [show height - 1 - (s.height - 1) = height - 1 - s.height + 1 by omega, hsucc]
      omega

end Cursor

/-! ### Runs in lock step -/

/-- A run of the decoder and a run of the pixel-stream decoder end alike: both fail with
one error, the buffer painted with the stream's pixels, or both go on, the decoder
standing after the stream's pixels with its registers, in a state `post` holds of. -/
def Agrees (width height : Nat) (output : List UInt16) (post : Decoder → Prop) :
    EStateM.Result Fault Decoder Unit → EStateM.Result Fault Pixels.Pen Unit → Prop
  | .ok _ t, .ok _ pen =>
    t.regs = pen.regs ∧ Drawn width height output pen.pixels t ∧ post t
  | .error e t, .error e' pen => e = e' ∧ t.output = paint width height pen.pixels output
  | _, _ => False

section Agrees

variable {width height : Nat} {output : List UInt16} {P Q : Decoder → Prop}

theorem Agrees.ok {t : Decoder} {pixels : List UInt16}
    (hdrawn : Drawn width height output pixels t)
    (hpost : P t) : Agrees width height output P (.ok () t) (.ok () ⟨t.regs, pixels⟩) :=
  ⟨rfl, hdrawn, hpost⟩

theorem Agrees.mono {r : EStateM.Result Fault Decoder Unit}
    {r' : EStateM.Result Fault Pixels.Pen Unit} (h : Agrees width height output P r r')
    (hPQ : ∀ t, P t → Q t) : Agrees width height output Q r r' := by
  rcases r with ⟨_, t⟩ | ⟨_, t⟩ <;> rcases r' with ⟨_, pen⟩ | ⟨_, pen⟩
  · exact ⟨h.1, h.2.1, hPQ t h.2.2⟩
  all_goals exact h

/-- Runs that agree go on agreeing through continuations that agree from every state `P`
allows. -/
theorem Agrees.bind {m : DecoderM Unit} {m' : Pixels.PenM Unit} {f : Unit → DecoderM Unit}
    {f' : Unit → Pixels.PenM Unit} {s : Decoder} {pen : Pixels.Pen}
    (h : Agrees width height output P (m s) (m' pen))
    (hf : ∀ t pixels, Drawn width height output pixels t → P t →
      Agrees width height output Q (f () t) (f' () ⟨t.regs, pixels⟩)) :
    Agrees width height output Q ((m >>= f) s) ((m' >>= f') pen) := by
  rcases hm : m s with ⟨u, t⟩ | ⟨e, t⟩ <;>
    rcases hm' : m' pen with ⟨u', ⟨r, pixels⟩⟩ | ⟨e', pen'⟩ <;>
    rw [hm, hm'] at h
  · rw [EStateM.bind_of_ok hm, EStateM.bind_of_ok hm']
    obtain ⟨rfl, hdrawn, hpost⟩ := h
    exact hf t pixels hdrawn hpost
  · exact h.elim
  · exact h.elim
  · rw [EStateM.bind_of_error hm, EStateM.bind_of_error hm']
    exact h

end Agrees

section Pixel

variable {width height : Nat} {output pixels : List UInt16}
    {s : Decoder} {opcode fomMask : UInt8}

/-- Under the invariant, one pass of `repeat!`'s statement writes the pixel the
pixel-stream decoder computes, at its raster position. -/
theorem step_body_eq (hdrawn : Drawn width height output pixels s) (hx : s.x < width)
    (hcount : 0 < s.regs.count) (hop : isPixelOpcode opcode = true) :
    step (body opcode fomMask (s.height * width) s.prevline) s =
      match pixelValue opcode fomMask (belowPixel width pixels) s.regs with
      | .ok (v, r) => .ok () { s with
          regs := { r with count := r.count - 1 }, x := s.x + 1
          output := paint width height (pixels ++ [v]) output }
      | .error e => .error e s := by
  have hbody := @body_eq opcode fomMask _ _ _ _ hop (hdrawn.raster hx).2 (hdrawn.below hx)
  rcases hv : pixelValue opcode fomMask (belowPixel width pixels) s.regs with
      e | ⟨v, r⟩ <;>
    rw [hv] at hbody
  · exact step_of_error hbody
  · rw [step_of_ok hbody (Nat.le_trans hcount (pixelValue_regs hv).1), hdrawn.set_eq hx]

/-- One pass of `repeat!`'s statement is one pixel of the pixel-stream decoder. -/
theorem step_agrees (hdrawn : Drawn width height output pixels s) (hx : s.x < width)
    (hcount : 0 < s.regs.count) (hop : isPixelOpcode opcode = true)
    (hmix : ¬(opcode = 0 ∧ s.regs.insertmix = true)) :
    Agrees width height output
      (fun t => t.x = s.x + 1 ∧ t.height = s.height ∧ t.prevline = s.prevline ∧
        t.regs.insertmix = s.regs.insertmix)
      (step (body opcode fomMask (s.height * width) s.prevline) s)
      (Pixels.pixel width opcode fomMask ⟨s.regs, pixels⟩) := by
  rw [step_body_eq hdrawn hx hcount hop, Pixels.pixel]
  simp only [if_neg hmix]
  rcases hv : pixelValue opcode fomMask (belowPixel width pixels) s.regs with
      e | ⟨v, r⟩ <;>
    dsimp only
  · exact ⟨rfl, hdrawn.painted⟩
  · exact ⟨rfl, hdrawn.advance hx v _, rfl, rfl, rfl, (pixelValue_regs hv).2⟩

/-- `while count > 0 && x < width { .. }` writes the pixels of the pixel-stream
decoder's passes up to the end of the row. -/
theorem plain_agrees (hop : isPixelOpcode opcode = true) {row : Nat}
    {prevline : Option Nat} :
    ∀ (k : Nat) (s : Decoder) (pixels : List UInt16), k = width - s.x →
      Drawn width height output pixels s → s.height = row → s.prevline = prevline →
      ¬(opcode = 0 ∧ s.regs.insertmix = true) →
      Agrees width height output
        (fun t => t.height = row ∧ t.prevline = prevline ∧ s.x ≤ t.x ∧
          (t.x = width ∨ t.regs.count = 0) ∧
            (0 < s.regs.count → s.x < width → s.x < t.x) ∧
          t.regs.insertmix = s.regs.insertmix)
        (plain width (body opcode fomMask (row * width) prevline) k s)
        (Pixels.draw width height opcode fomMask k ⟨s.regs, pixels⟩) := by
  intro k
  induction k with
  | zero =>
    intro s pixels hk hdrawn hrow hprev _
    have hx : s.x = width := by have := hdrawn.cursor.x_le; omega
    exact Agrees.ok hdrawn ⟨hrow, hprev, le_rfl, .inl hx,
      fun _ h => absurd h (by omega), rfl⟩
  | succ k ih =>
    intro s pixels hk hdrawn hrow hprev hmix
    have hx : s.x < width := by omega
    by_cases hcount : s.regs.count = 0
    · rw [plain_of_not (by omega), Pixels.draw_of_count hcount]
      exact Agrees.ok hdrawn ⟨hrow, hprev, le_rfl, .inr hcount,
        fun h => absurd h (by omega), rfl⟩
    · rw [plain_succ ⟨Nat.pos_of_ne_zero hcount, hx⟩,
        Pixels.draw_succ hcount (hdrawn.lt hx) hop]
      subst hrow hprev
      refine Agrees.bind (step_agrees hdrawn hx (Nat.pos_of_ne_zero hcount) hop hmix)
        fun t pixels' hdrawn' ⟨htx, hth, htp, htm⟩ => ?_
      refine (ih t pixels' (by omega) hdrawn' hth htp (htm ▸ hmix)).mono ?_
      rintro u ⟨hh, hp, hle, hend, -, hm⟩
      exact ⟨hh, hp, by omega, hend, fun _ _ => by omega, hm.trans htm⟩

/-- A pass of `while count > 0` after its wrap: the `insertmix` pixel of a background
order, then `repeat!`, write the pixel-stream decoder's pixels up to the end of the row.
-/
theorem pass_agrees (hop : isPixelOpcode opcode = true)
    (hdrawn : Drawn width height output pixels s)
    (hx : s.x < width) (hcount : 0 < s.regs.count) :
    Agrees width height output
      (fun t => t.height = s.height ∧ 0 < t.x ∧ (t.x = width ∨ t.regs.count = 0))
      (((if opcode = 0 then insertMix (s.height * width) s.prevline else pure ()) >>=
        fun _ => repeatMacro width (body opcode fomMask (s.height * width) s.prevline)) s)
      (Pixels.draw width height opcode fomMask (width - s.x) ⟨s.regs, pixels⟩) := by
  by_cases hmix : opcode = 0 ∧ s.regs.insertmix = true
  · obtain ⟨rfl, hm⟩ := hmix
    rw [if_pos rfl, EStateM.bind_of_ok
      (insertMix_eq hm hcount (hdrawn.raster hx).2 (hdrawn.below hx)),
      repeatMacro_eq_plain (body_keeps _ _ _ _), hdrawn.set_eq hx,
      show width - s.x = width - (s.x + 1) + 1 by omega,
      Pixels.draw_succ (Nat.pos_iff_ne_zero.mp hcount) (hdrawn.lt hx) hop,
      EStateM.bind_of_ok (Pixels.pixel_of_insertmix hm)]
    refine (plain_agrees hop _ _ _ rfl (hdrawn.advance hx _ _) rfl rfl (by simp)).mono ?_
    rintro t ⟨hh, -, hle, hend, -⟩
    exact ⟨hh, by simp at hle; omega, hend⟩
  · have hpre :
        (if opcode = 0 then insertMix (s.height * width) s.prevline else pure ()) s =
          .ok () s := by
      split_ifs with h0
      · exact insertMix_of_false (by simpa [h0] using hmix)
      · rfl
    rw [EStateM.bind_of_ok hpre, repeatMacro_eq_plain (body_keeps _ _ _ _)]
    refine (plain_agrees hop _ _ _ rfl hdrawn rfl rfl hmix).mono ?_
    rintro t ⟨hh, -, -, hend, hmore, -⟩
    exact ⟨hh, by have := hmore hcount hx; omega, hend⟩

end Pixel

section Runs

variable {width height : Nat} {output : List UInt16} {opcode fomMask : UInt8}

/-- `while count > 0 { .. }` writes the pixel-stream decoder's pixels and stops as it
does, given `height + 1` passes once `x` is at the right edge and one more before. -/
theorem draw_agrees (hw : 0 < width) :
    ∀ (fuel fuel' : Nat) (s : Decoder) (pixels : List UInt16),
      Drawn width height output pixels s → 0 < s.x →
      (s.regs.count = 0 ∨ (s.height + 1 ≤ fuel ∧ (s.x < width → s.height + 2 ≤ fuel) ∧
        width * height - pixels.length + 1 ≤ fuel')) →
      Agrees width height output (fun t => t.regs.count = 0 ∧ 0 < t.x)
        (draw width opcode fomMask fuel s)
        (Pixels.draw width height opcode fomMask fuel' ⟨s.regs, pixels⟩) := by
  intro fuel
  induction fuel with
  | zero =>
    intro fuel' s pixels hdrawn hx hfuel
    have hcount : s.regs.count = 0 := hfuel.resolve_right (by omega)
    rw [draw_of_count hcount, Pixels.draw_of_count hcount]
    exact Agrees.ok hdrawn ⟨hcount, hx⟩
  | succ fuel ih =>
    intro fuel' s pixels hdrawn hx hfuel
    by_cases hcount : s.regs.count = 0
    · rw [draw_of_count hcount, Pixels.draw_of_count hcount]
      exact Agrees.ok hdrawn ⟨hcount, hx⟩
    obtain ⟨hf₁, hf₂, hg⟩ := hfuel.resolve_left hcount
    obtain ⟨g, rfl⟩ : ∃ g, fuel' = g + 1 := ⟨fuel' - 1, by omega⟩
    by_cases hfull : width ≤ s.x ∧ s.height = 0
    · rw [draw_of_wrap_error hcount (wrap_of_height_zero hfull.1 hfull.2),
        Pixels.draw_of_full hcount (hdrawn.cursor.full hfull.1 hfull.2)]
      exact ⟨rfl, hdrawn.painted⟩
    -- the wrap, if `x` is at the right edge
    obtain ⟨t, hwrap, hdt, htx, hth, hregs⟩ : ∃ t, wrap width s = .ok () t ∧
        Drawn width height output pixels t ∧ t.x < width ∧ t.height + 1 ≤ fuel ∧
        t.regs = s.regs := by
      by_cases hxw : s.x < width
      · exact ⟨s, wrap_of_lt hxw, hdrawn, hxw, by omega, rfl⟩
      · exact ⟨_, wrap_of_le (by omega) (by omega), hdrawn.wrap (by omega) (by omega), hw,
          show s.height - 1 + 1 ≤ fuel by omega, rfl⟩
    obtain ⟨hh, hline, -, hn⟩ := hdt.cursor.ready htx
    rw [← hregs] at hcount ⊢
    cases hop : isPixelOpcode opcode
    · rw [draw_of_invalid (hregs ▸ hcount) hwrap hline hop,
        Pixels.draw_of_invalid hcount (hdt.lt htx) hop]
      exact ⟨rfl, hdt.painted⟩
    have hroom := hdt.room htx
    rw [draw_succ (hregs ▸ hcount) hwrap hline hop, ← bind_assoc,
      show g + 1 = (width - t.x) + (g + 1 - (width - t.x)) by omega, Pixels.draw_add]
    refine Agrees.bind (pass_agrees hop hdt htx (Nat.pos_of_ne_zero hcount))
      fun u pixels' hdu ⟨huh, hux, hend⟩ => ih _ u pixels' hdu hux ?_
    by_cases hu : u.regs.count = 0
    · exact .inl hu
    have hun := hdu.cursor.eq_of_lt (by omega)
    have hle := hdu.cursor.le
    rw [huh] at hun
    exact .inr ⟨by omega, by omega, by omega⟩

/-- An order at a boundary of the run: the header reads the same registers on both
sides, and the cursor test `x == width && prevline.is_none()` is the pixel-stream
decoder's. -/
theorem order_agrees (hw : 0 < width) {s : Decoder} {pixels : List UInt16}
    (hdrawn : Drawn width height output pixels s) (hx : 0 < s.x) :
    Agrees width height output (fun t => 0 < t.x) (order width s)
      (Pixels.order width height ⟨s.regs, pixels⟩) := by
  rw [order_eq, Pixels.order_eq, hdrawn.atStart hx]
  dsimp only
  rcases header (pixels.length == 0 || pixels.length == width) s.regs with
    e | ⟨⟨opcode, fomMask⟩, r⟩
  · exact ⟨rfl, hdrawn.painted⟩
  · have hat := hdrawn.cursor.setRegs r
    refine (draw_agrees hw _ _ { s with regs := r } _
      ⟨hdrawn.fits, hdrawn.painted, hat⟩ hx
      (.inr ⟨by omega, fun _ => le_rfl, le_rfl⟩)).mono fun _ h => h.2

/-- The outer loop: the decoder and the pixel-stream decoder read the same orders, and
the buffer holds the stream's pixels. -/
theorem decode_agrees (hw : 0 < width) :
    ∀ (fuel : Nat) (s : Decoder) (pixels : List UInt16),
      Drawn width height output pixels s → 0 < s.x →
      Agrees width height output (fun _ => True) (decode width fuel s)
        (Pixels.decode width height fuel ⟨s.regs, pixels⟩)
  | 0, _, _, hdrawn, _ => Agrees.ok hdrawn trivial
  | fuel + 1, s, pixels, hdrawn, hx => by
    by_cases hin : s.regs.input = []
    · rw [decode_of_input_nil hin, Pixels.decode_of_input_nil hin]
      exact Agrees.ok hdrawn trivial
    · rw [decode_succ hin, Pixels.decode_succ hin]
      exact Agrees.bind (order_agrees hw hdrawn hx)
        fun t pixels' hdt htx => decode_agrees hw fuel t pixels' hdt htx

/-- For a positive width, `rle_16_decompress` ends as the pixel-stream decoder does and
leaves the buffer painted with its pixels. -/
theorem rle16Decompress_eq_paint {input : List UInt8}
    {width height : Nat} {output : List UInt16}
    (hw : 0 < width) (hlen : width * height ≤ output.length) :
    rle16Decompress input width height output =
      ((decodePixels input width height).1,
        paint width height (decodePixels input width height).2 output) := by
  have h : Agrees width height output (fun _ => True)
      (decode width input.length (start input width height output))
      (Pixels.decode width height input.length
        ⟨(start input width height []).regs, []⟩) :=
    decode_agrees hw _ _ _ ⟨hlen, rfl, .start rfl rfl rfl rfl⟩ hw
  unfold rle16Decompress decodePixels
  revert h
  rcases decode width input.length (start input width height output) with
      ⟨_, t⟩ | ⟨e, t⟩ <;>
    rcases Pixels.decode width height input.length
      ⟨(start input width height []).regs, []⟩ with
      ⟨_, pen⟩ | ⟨e', pen⟩ <;> intro h <;> dsimp only
  · rw [h.2.1.painted]
  · exact h.elim
  · exact h.elim
  · rw [h.1, h.2]

end Runs

end Rdp.Codec.Rle16
