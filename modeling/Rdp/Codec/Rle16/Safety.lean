import Rdp.Codec.Rle16.Simulation

namespace Rdp.Codec.Rle16

/-! `rle_16_decompress` on a buffer of at least `width * height` cells, for every input:
no panic, no `line unset`, and a pixel stream fixed by the input, painted in raster
order. -/

/-- A run from `s` that never looks at the buffer: from `s` with any buffer it ends
alike, leaving the buffer as it was, in a state `post` holds of or with an error of the
input or of the image. -/
def Blind (m : DecoderM Unit) (s : Decoder) (post : Decoder → Prop) : Prop :=
  (∃ t : Decoder, post t ∧
      ∀ output : List UInt16, m { s with output } = .ok () { t with output }) ∨
    ∃ (e : Fault) (t : Decoder),
      (e = .error .io ∨ e = allValuesWritten ∨ e = invalidOpcode) ∧
      ∀ output : List UInt16, m { s with output } = .error e { t with output }

namespace Blind

variable {m m' : DecoderM Unit} {s : Decoder} {P Q : Decoder → Prop}

theorem mono (h : Blind m s P) (hPQ : ∀ t, P t → Q t) : Blind m s Q := by
  rcases h with ⟨t, ht, hrun⟩ | h
  · exact .inl ⟨t, hPQ t ht, hrun⟩
  · exact .inr h

/-- A run that starts as a blind run from `s'` does is blind. -/
theorem congr {s' : Decoder} (h : Blind m s' P)
    (hm : ∀ output, m' { s with output } = m { s' with output }) : Blind m' s P := by
  rcases h with ⟨t, ht, hrun⟩ | ⟨e, t, he, hrun⟩
  · exact .inl ⟨t, ht, fun o => (hm o).trans (hrun o)⟩
  · exact .inr ⟨e, t, he, fun o => (hm o).trans (hrun o)⟩

theorem bind {f : Unit → DecoderM Unit} (hm : Blind m s P)
    (hf : ∀ t, P t → Blind (f ()) t Q) :
    Blind (m >>= f) s Q := by
  rcases hm with ⟨t, ht, hrun⟩ | ⟨e, t, he, hrun⟩
  · rcases hf t ht with ⟨u, hu, hrun'⟩ | ⟨e, u, he, hrun'⟩
    · exact .inl ⟨u, hu, fun o => by rw [EStateM.bind_of_ok (hrun o), hrun' o]⟩
    · exact .inr ⟨e, u, he, fun o => by rw [EStateM.bind_of_ok (hrun o), hrun' o]⟩
  · exact .inr ⟨e, t, he, fun o => by rw [EStateM.bind_of_error (hrun o)]⟩

end Blind

section ZeroWidth

variable {opcode fomMask : UInt8}

theorem repeatMacro_zero (body : DecoderM Unit) (s : Decoder) :
    repeatMacro 0 body s = .ok () s := by
  simp [repeatMacro, unrolled, plain, bind, EStateM.bind, get, getThe, MonadStateOf.get,
    EStateM.get, pure, EStateM.pure]

/-- With no columns a pass of `while count > 0` writes nothing and only wraps, so the
loop runs until `height` is used up or the opcode is found undefined; it returns only
for an empty run. -/
theorem draw_zero_width :
    ∀ (fuel : Nat) (s : Decoder), s.x = 0 → s.regs.insertmix = false →
    (s.regs.count = 0 ∨ s.height + 1 ≤ fuel) →
    Blind (draw 0 opcode fomMask fuel) s (fun t => t = s ∧ t.regs.count = 0) := by
  intro fuel
  induction fuel with
  | zero =>
    intro s _ _ hfuel
    have hcount : s.regs.count = 0 := hfuel.resolve_right (by omega)
    exact .inl ⟨s, ⟨rfl, hcount⟩, fun _ => draw_of_count hcount⟩
  | succ fuel ih =>
    intro s hx hmix hfuel
    by_cases hcount : s.regs.count = 0
    · exact .inl ⟨s, ⟨rfl, hcount⟩, fun _ => draw_of_count hcount⟩
    by_cases hh : s.height = 0
    · exact .inr ⟨allValuesWritten, s, .inr (.inl rfl), fun _ =>
        draw_of_wrap_error hcount (wrap_of_height_zero (Nat.zero_le _) hh)⟩
    -- the wrap to the next line up
    let t : Decoder := { s with
      x := 0, height := s.height - 1
      prevline := s.line, line := some ((s.height - 1) * 0) }
    have hwrap : ∀ o, wrap 0 { s with output := o } = .ok () { t with output := o } :=
      fun _ => wrap_of_le (Nat.zero_le _) hh
    cases hop : isPixelOpcode opcode
    · exact .inr ⟨invalidOpcode, t, .inr (.inr rfl),
        fun o => draw_of_invalid hcount (hwrap o) rfl hop⟩
    have hpass : ∀ o, draw 0 opcode fomMask (fuel + 1) { s with output := o } =
        draw 0 opcode fomMask fuel { t with output := o } := fun o => by
      have hpre : (if opcode = 0 then insertMix ((s.height - 1) * 0) s.line else pure ())
          { t with output := o } = .ok () { t with output := o } := by
        split_ifs
        · exact insertMix_of_false hmix
        · rfl
      rw [draw_succ (s := { s with output := o }) hcount (hwrap o) rfl hop,
        EStateM.bind_of_ok hpre, EStateM.bind_of_ok (repeatMacro_zero _ _)]
    rcases ih t rfl hmix (.inr (show s.height - 1 + 1 ≤ fuel by omega))
      with ⟨_, ⟨rfl, hc⟩, _⟩ | ⟨e, u, he, hrun⟩
    · exact absurd hc hcount
    · exact .inr ⟨e, u, he, fun o => (hpass o).trans (hrun o)⟩

/-- An order with no columns, from a cursor at the start of the image: its header leaves
`insertmix` clear, and it returns only for an empty run, with the cursor where it was. -/
theorem order_zero_width {s : Decoder} (hx : s.x = 0) (hprev : s.prevline = none)
    (hmix : s.regs.insertmix = false) :
    Blind (order 0) s
      (fun t => t.x = 0 ∧ t.prevline = none ∧ t.regs.insertmix = false) := by
  have hstart : (s.x == 0 && s.prevline.isNone) = true := by simp [hx, hprev]
  have hh := header_keeps_insertmix s.regs hmix
  have hh' := header_failsAtEnd true s.regs trivial
  have horder : ∀ o, order 0 { s with output := o } =
      match header true s.regs with
      | .ok ((opcode, fomMask), r) =>
        draw 0 opcode fomMask (s.height + 2) { { s with regs := r } with output := o }
      | .error e => .error e { s with output := o } := fun o => by
    rw [order_eq]
    exact hstart ▸ rfl
  revert hh hh' horder
  rcases header true s.regs with e | ⟨⟨opcode, fomMask⟩, r⟩ <;> intro hh hh' horder
  · exact .inr ⟨e, s, .inl hh', horder⟩
  · refine (draw_zero_width (s.height + 2) { s with regs := r } hx hh
      (.inr (Nat.le_succ _))).congr horder |>.mono ?_
    rintro t ⟨rfl, -⟩
    exact ⟨hx, hprev, hh⟩

theorem decode_zero_width : ∀ (fuel : Nat) (s : Decoder), s.x = 0 → s.prevline = none →
    s.regs.insertmix = false → Blind (decode 0 fuel) s (fun _ => True)
  | 0, s, _, _, _ => .inl ⟨s, trivial, fun _ => rfl⟩
  | fuel + 1, s, hx, hprev, hmix => by
    by_cases hin : s.regs.input = []
    · exact .inl ⟨s, trivial, fun _ => decode_of_input_nil hin⟩
    · exact (Blind.bind (order_zero_width hx hprev hmix) fun t ⟨htx, htp, htm⟩ =>
        decode_zero_width fuel t htx htp htm).congr (s := s) fun _ => decode_succ hin

end ZeroWidth

/-- For every input, width and height, `rle_16_decompress` into any buffer of at least
`width * height` cells ends in one way and writes one pixel stream, fixed by the input
alone, in raster order: it never panics and never reaches `line unset`. -/
theorem rle16Decompress_safe (input : List UInt8) (width height : Nat) :
    ∃ (result : Except Fault Unit) (pixels : List UInt16),
      pixels.length ≤ width * height ∧
      (result = .ok () ∨ result = .error (.error .io) ∨ result = .error allValuesWritten ∨
        result = .error invalidOpcode) ∧
      ∀ output, width * height ≤ output.length →
        rle16Decompress input width height output =
          (result, paint width height pixels output) := by
  rcases Nat.eq_zero_or_pos width with rfl | hw
  · rcases decode_zero_width input.length (start input 0 height []) rfl rfl rfl with
      ⟨t, -, hrun⟩ | ⟨e, t, he, hrun⟩
    · refine ⟨.ok (), [], Nat.zero_le _, .inl rfl, fun output _ => ?_⟩
      rw [rle16Decompress, show start input 0 height output =
          { start input 0 height [] with output } from rfl, hrun]
      rfl
    · refine ⟨.error e, [], Nat.zero_le _,
        .inr (by rcases he with rfl | rfl | rfl <;> simp), fun output _ => ?_⟩
      rw [rle16Decompress, show start input 0 height output =
          { start input 0 height [] with output } from rfl, hrun]
      rfl
  · obtain ⟨hlen, hend⟩ := decodePixels_stops input width height
    exact ⟨_, _, hlen, hend, fun _ h => rle16Decompress_eq_paint hw h⟩

end Rdp.Codec.Rle16
