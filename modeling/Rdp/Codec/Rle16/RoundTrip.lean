import Rdp.Codec.Rle16.Parse
import Rdp.Codec.Rle16.Simulation

namespace Rdp.Codec.Rle16

/-! The pixel-stream decoder on the encoding of well-formed orders gives their pixels
back. -/

namespace Pixels

variable {width height : Nat} {opcode fomMask : UInt8}

/-- The pixel `body` computes, then `count -= 1`. -/
theorem pixel_of_value {r r' : Registers} {q : List UInt16} {v : UInt16}
    (hmix : ¬(opcode = 0 ∧ r.insertmix = true))
    (h : pixelValue opcode fomMask (belowPixel width q) r = .ok (v, r')) :
    pixel width opcode fomMask ⟨r, q⟩ =
      .ok () ⟨{ r' with count := r'.count - 1 }, q ++ [v]⟩ := by
  simp [pixel, hmix, h]

/-- A run of `c` pixels: from state `R i` the `i`-th pixel appends `f i` of the pixels
before it and leaves `R (i + 1)`, and `count` is `0` only at the end.  The loop writes
the run, or as much of it as the image holds and then fails. -/
theorem draw_run (hop : isPixelOpcode opcode = true) {R : Nat → Registers}
    {f : Nat → List UInt16 → UInt16} {c : Nat} (hcount : ∀ i ≤ c, (R i).count = 0 ↔ i = c)
    (hstep : ∀ i < c, ∀ q,
      pixel width opcode fomMask ⟨R i, q⟩ = .ok () ⟨R (i + 1), q ++ [f i q]⟩)
    {p : List UInt16} (hp : p.length ≤ width * height) :
    draw width height opcode fomMask (width * height - p.length + 1) ⟨R 0, p⟩ =
      if p.length + c ≤ width * height then .ok () ⟨R c, runPixels f c p⟩
      else .error allValuesWritten
        ⟨R (width * height - p.length), runPixels f (width * height - p.length) p⟩ := by
  have key : ∀ k i, i + k = min c (width * height - p.length) → ∀ fuel, k < fuel →
      draw width height opcode fomMask fuel ⟨R i, runPixels f i p⟩ =
        if p.length + c ≤ width * height then .ok () ⟨R c, runPixels f c p⟩
        else .error allValuesWritten
          ⟨R (width * height - p.length), runPixels f (width * height - p.length) p⟩ := by
    intro k
    induction k with
    | zero =>
      intro i hi fuel hfuel
      obtain ⟨fuel, rfl⟩ : ∃ fuel', fuel = fuel' + 1 := ⟨fuel - 1, by omega⟩
      by_cases hfit : p.length + c ≤ width * height
      · obtain rfl : i = c := by omega
        rw [if_pos hfit, draw_of_count ((hcount i le_rfl).mpr rfl)]
      · obtain rfl : i = width * height - p.length := by omega
        rw [if_neg hfit,
          draw_of_full (fun h => by have := (hcount _ (by omega)).mp h; omega)
            (by simp only [length_runPixels]; omega)]
    | succ k ih =>
      intro i hi fuel hfuel
      obtain ⟨fuel, rfl⟩ : ∃ fuel', fuel = fuel' + 1 := ⟨fuel - 1, by omega⟩
      rw [draw_succ (fun h => by have := (hcount i (by omega)).mp h; omega)
          (by simp only [length_runPixels]; omega) hop,
        EStateM.bind_of_ok (hstep i (by omega) _)]
      exact ih (i + 1) (by omega) fuel (by omega)
  exact key _ 0 (Nat.zero_add _) _ (by omega)

/-! ### The values of the pixels -/

section Values

variable {fomMask : UInt8} {below : Option UInt16} {r : Registers}

theorem pixelValue_background : pixelValue 0 fomMask below r = .ok (below.getD 0, r) := by
  cases below <;> rfl

theorem pixelValue_foreground :
    pixelValue 1 fomMask below r = .ok (insertValue r.mix below, r) := by
  cases below <;> rfl

theorem pixelValue_colour : pixelValue 3 fomMask below r = .ok (r.colour2, r) := rfl

theorem pixelValue_white : pixelValue 0xd fomMask below r = .ok (0xFFFF, r) := rfl

theorem pixelValue_black : pixelValue 0xe fomMask below r = .ok (0, r) := rfl

theorem pixelValue_fillOrMix {r' : Registers} (h : nextMaskBit fomMask r = .ok ((), r')) :
    pixelValue 2 fomMask below r =
      .ok (fillOrMixPixel r'.mix (maskBitSet r') below, r') := by
  cases below <;> simp [pixelValue, bind, StateT.bind, Except.bind, h, get, getThe,
    MonadStateOf.get, StateT.get, pure, StateT.pure, Except.pure, fillOrMixPixel,
    insertValue]

end Values

/-- How the pixel loop of a run of `c` pixels `f` after `p` ends: with the whole run
written and registers `post` holds of, or, when the image is too small, with as much of
the run as it holds written and `allValuesWritten`. -/
def RunEnds (width height c : Nat) (f : Nat → List UInt16 → UInt16) (p : List UInt16)
    (post : Registers → Prop) : EStateM.Result Fault Pen Unit → Prop
  | .ok _ pen =>
    p.length + c ≤ width * height ∧ pen.pixels = runPixels f c p ∧ post pen.regs
  | .error e pen => width * height < p.length + c ∧ e = allValuesWritten ∧
      pen.pixels = runPixels f (width * height - p.length) p

theorem runEnds_of_run (hop : isPixelOpcode opcode = true) {R : Nat → Registers}
    {f : Nat → List UInt16 → UInt16} {c : Nat} (hcount : ∀ i ≤ c, (R i).count = 0 ↔ i = c)
    (hstep : ∀ i < c, ∀ q,
      pixel width opcode fomMask ⟨R i, q⟩ = .ok () ⟨R (i + 1), q ++ [f i q]⟩)
    {p : List UInt16} (hp : p.length ≤ width * height) {post : Registers → Prop}
    (hpost : post (R c)) :
    RunEnds width height c f p post
      (draw width height opcode fomMask (width * height - p.length + 1) ⟨R 0, p⟩) := by
  rw [draw_run hop hcount hstep hp]
  split
  · exact ⟨‹_›, rfl, hpost⟩
  · exact ⟨by omega, rfl, rfl⟩

/-- A run whose pixels read only registers its loop leaves alone, `count` apart. -/
theorem draw_simple (hop : isPixelOpcode opcode = true) {r : Registers}
    {f : Nat → List UInt16 → UInt16} (hmix : ¬(opcode = 0 ∧ r.insertmix = true))
    (hv : ∀ i < r.count, ∀ q, pixelValue opcode fomMask (belowPixel width q)
      { r with count := r.count - i } = .ok (f i q, { r with count := r.count - i }))
    {p : List UInt16} (hp : p.length ≤ width * height) {post : Registers → Prop}
    (hpost : post { r with count := 0 }) :
    RunEnds width height r.count f p post
      (draw width height opcode fomMask (width * height - p.length + 1) ⟨r, p⟩) :=
  runEnds_of_run (R := fun i => { r with count := r.count - i }) hop
    (fun i hi => by simp only; omega)
    (fun i hi q => by
      rw [pixel_of_value (r := { r with count := r.count - i }) hmix (hv i hi q),
        show r.count - i - 1 = r.count - (i + 1) by omega])
    hp (by simpa only [Nat.sub_self] using hpost)

/-- A background run: the first pixel is `mix` over the pixel below when `insertmix` is
set, the others copy the pixel below. -/
theorem draw_background {r : Registers} (hpos : 0 < r.count) {p : List UInt16}
    (hp : p.length ≤ width * height) {post : Registers → Prop}
    (hpost : post { r with count := 0, insertmix := false }) :
    RunEnds width height r.count
      (RunOrder.background.specPixel width r.mix r.insertmix) p post
      (draw width height 0 fomMask (width * height - p.length + 1) ⟨r, p⟩) :=
  runEnds_of_run
    (R := fun i => { r with count := r.count - i, insertmix := (i == 0) && r.insertmix })
    (by decide)
    (fun i hi => by simp only; omega)
    (fun i hi q => by
      beta_reduce
      by_cases hins : i = 0 ∧ r.insertmix = true
      · obtain ⟨rfl, hmix⟩ := hins
        rw [pixel_of_insertmix
          (r := { r with count := r.count - 0, insertmix := (0 == 0) && r.insertmix })
          (by simpa using hmix)]
        simp [RunOrder.specPixel, hmix]
      · have hmix : ((i == 0) && r.insertmix) = false := by
          cases h : r.insertmix <;> simp_all
        rw [pixel_of_value
          (r := { r with count := r.count - i, insertmix := (i == 0) && r.insertmix })
          (by simp [hmix]) pixelValue_background, hmix,
          show r.count - i - 1 = r.count - (i + 1) by omega,
          show ((i + 1 == 0) && r.insertmix) = false by simp]
        simp only [RunOrder.specPixel,
          if_neg (show ¬(r.insertmix = true ∧ i = 0) from fun h => hins ⟨h.2, h.1⟩)])
    hp (by
      have hzero : (r.count == 0) = false := by simp; omega
      show post
        { r with count := r.count - r.count, insertmix := (r.count == 0) && r.insertmix }
      rwa [Nat.sub_self, hzero, Bool.false_and])

/-- A copy run: each pixel is the next little-endian word of the input. -/
theorem draw_copy {r : Registers} {words : List UInt16} {rest : List UInt8}
    (hlen : words.length = r.count) {p : List UInt16} (hp : p.length ≤ width * height)
    {post : Registers → Prop} (hpost : post { r with count := 0, input := rest }) :
    RunEnds width height r.count
      ((RunOrder.copy words).specPixel width r.mix false) p post
      (draw width height 4 fomMask (width * height - p.length + 1)
        ⟨{ r with input := words.flatMap u16Le ++ rest }, p⟩) :=
  runEnds_of_run
    (R := fun i =>
      { r with count := r.count - i, input := (words.drop i).flatMap u16Le ++ rest })
    (by decide)
    (fun i hi => by simp only; omega)
    (fun i hi q => by
      have hword : (words.drop i).flatMap u16Le ++ rest =
          u16Le words[i] ++ ((words.drop (i + 1)).flatMap u16Le ++ rest) := by
        rw [List.drop_eq_getElem_cons (by omega), List.flatMap_cons, List.append_assoc]
      have hv (r' : Registers) :
          pixelValue 4 fomMask (belowPixel width q) r' = readU16 r' := rfl
      rw [pixel_of_value (fun h => absurd h.1 (by decide))
        ((hv _).trans (readU16_eq_of_input hword))]
      simp only [RunOrder.specPixel, List.getD_eq_getElem?_getD,
        List.getElem?_eq_getElem (by omega : i < words.length), Option.getD_some]
      rfl)
    hp (by
      show post
        { r with count := r.count - r.count,
                 input := (words.drop r.count).flatMap u16Le ++ rest }
      rwa [Nat.sub_self, List.drop_eq_nil_of_le (by omega),
        List.flatMap_nil, List.nil_append])

theorem bicolourStep_of_false {r : Registers} (h : r.bicolour = false) :
    bicolourStep r =
      .ok (r.colour1, { r with bicolour := true, count := r.count + 1 }) := by
  rw [bicolourStep_eq, h]
  rfl

theorem bicolourStep_of_true {r : Registers} (h : r.bicolour = true) :
    bicolourStep r = .ok (r.colour2, { r with bicolour := false }) := by
  rw [bicolourStep_eq, h]
  rfl

/-- A bicolour run of `count` writes `colour1`, `colour2`, `colour1`, ..., `2 * count`
pixels: the `colour1` pixel raises `count` back. -/
theorem draw_bicolour {r : Registers} {p : List UInt16} (hp : p.length ≤ width * height)
    {post : Registers → Prop} (hpost : post { r with count := 0, bicolour := false }) :
    RunEnds width height (2 * r.count)
      ((RunOrder.bicolour r.colour1 r.colour2).specPixel width r.mix false) p post
      (draw width height 8 fomMask (width * height - p.length + 1)
        ⟨{ r with bicolour := false }, p⟩) :=
  runEnds_of_run
    (R := fun i => { r with count := r.count - i / 2, bicolour := i % 2 == 1 })
    (by decide)
    (fun i hi => by simp only; omega)
    (fun i hi q => by
      beta_reduce
      have hv : pixelValue 8 fomMask (belowPixel width q)
          { r with count := r.count - i / 2, bicolour := i % 2 == 1 } =
          bicolourStep { r with count := r.count - i / 2, bicolour := i % 2 == 1 } := rfl
      rcases Nat.mod_two_eq_zero_or_one i with h | h
      · rw [pixel_of_value (fun h => absurd h.1 (by decide))
          (hv.trans (bicolourStep_of_false (by simp [h])))]
        simp only [RunOrder.specPixel, h, if_true]
        rw [show r.count - i / 2 + 1 - 1 = r.count - (i + 1) / 2 by omega,
          show ((i + 1) % 2 == 1) = true by simp; omega]
      · rw [pixel_of_value (fun h => absurd h.1 (by decide))
          (hv.trans (bicolourStep_of_true (by simp [h])))]
        simp only [RunOrder.specPixel, h, show (1 : Nat) ≠ 0 by decide, if_false]
        rw [show r.count - i / 2 - 1 = r.count - (i + 1) / 2 by omega,
          show ((i + 1) % 2 == 1) = false by simp; omega])
    hp (by
      show post
        { r with count := r.count - 2 * r.count / 2, bicolour := 2 * r.count % 2 == 1 }
      rwa [Nat.mul_div_cancel_left _ (by decide), Nat.sub_self, Nat.mul_mod_right])

/-! ### Fill-or-mix runs -/

/-- The bit `mixmask` selects before the `i`-th pixel of a fill-or-mix run: none before
the first, then bit `(i - 1) % 8`. -/
def mixmaskAt (i : Nat) : UInt8 :=
  if i = 0 then 0 else UInt8.ofNat (2 ^ ((i - 1) % 8))

theorem shift_table : ∀ k : Fin 8,
    UInt8.ofNat (2 ^ k.val) <<< 1 =
      if k.val = 7 then 0 else UInt8.ofNat (2 ^ (k.val + 1)) := by
  decide

theorem pow_ne_zero_table : ∀ k : Fin 8, UInt8.ofNat (2 ^ k.val) ≠ 0 := by
  decide

/-- `mixmask <<= 1` is `0` every eighth pixel, when the next mask byte is due. -/
theorem mixmaskAt_shift (i : Nat) :
    mixmaskAt i <<< 1 = if i % 8 = 0 then 0 else mixmaskAt (i + 1) := by
  by_cases hi : i = 0
  · subst hi; decide
  have h := shift_table ⟨(i - 1) % 8, Nat.mod_lt _ (by decide)⟩
  simp only at h
  rw [mixmaskAt, if_neg hi, h, mixmaskAt, if_neg (Nat.succ_ne_zero i)]
  by_cases h7 : (i - 1) % 8 = 7
  · rw [if_pos h7, if_pos (by omega)]
  · rw [if_neg h7, if_neg (by omega), show (i + 1 - 1) % 8 = (i - 1) % 8 + 1 by omega]

theorem mixmaskAt_succ (i : Nat) : mixmaskAt (i + 1) = UInt8.ofNat (2 ^ (i % 8)) := by
  rw [mixmaskAt, if_neg (Nat.succ_ne_zero i), Nat.add_sub_cancel]

/-- `mask & mixmask != 0` reads bit `k` of the mask when `mixmask` is `1 << k`. -/
theorem maskBitSet_eq {r : Registers} {k : Nat} (hk : k < 8)
    (hm : r.mixmask = UInt8.ofNat (2 ^ k)) : maskBitSet r = r.mask.toNat.testBit k := by
  have hpow : (UInt8.ofNat (2 ^ k)).toNat = 2 ^ k :=
    UInt8.toNat_ofNat_of_lt
      (lt_of_lt_of_le (Nat.pow_lt_pow_right (by decide) hk) (by decide))
  have hand : (r.mask &&& r.mixmask).toNat = (r.mask.toNat.testBit k).toNat * 2 ^ k := by
    rw [UInt8.and_toNat, hm, hpow, Nat.and_two_pow]
  have hzero : r.mask &&& r.mixmask = 0 ↔ (r.mask &&& r.mixmask).toNat = 0 :=
    ⟨fun h => by rw [h]; rfl, fun h => UInt8.toNat.inj h⟩
  unfold maskBitSet
  cases hb : r.mask.toNat.testBit k <;> simp [hzero, hand, hb]

/-- The registers before the `i`-th pixel of a fill-or-mix run over `masks`: the mask
byte of the pixel before and its bit, and the mask bytes after it unread. -/
def fillOrMixRegs (r : Registers) (masks rest : List UInt8) (i : Nat) : Registers :=
  { r with
    count := r.count - i
    mixmask := mixmaskAt i
    mask := if i = 0 then r.mask else masks.getD ((i - 1) / 8) 0
    input := masks.drop ((i + 7) / 8) ++ rest }

/-- Every eighth pixel reads the next mask byte; the others move to the next bit. -/
theorem nextMaskBit_fillOrMix {r : Registers} {masks rest : List UInt8}
    (hlen : masks.length = (r.count + 7) / 8) {i : Nat} (hi : i < r.count) :
    nextMaskBit 0 (fillOrMixRegs r masks rest i) =
      .ok ((), { fillOrMixRegs r masks rest (i + 1) with count := r.count - i }) := by
  rw [nextMaskBit_eq]
  have hshift : (fillOrMixRegs r masks rest i).mixmask <<< 1 = mixmaskAt i <<< 1 := rfl
  rw [hshift, mixmaskAt_shift]
  by_cases h8 : i % 8 = 0
  · have hlt : i / 8 < masks.length := by omega
    have hin : (fillOrMixRegs r masks rest i).input =
        masks[i / 8] :: (masks.drop (i / 8 + 1) ++ rest) := by
      simp only [fillOrMixRegs]
      rw [show (i + 7) / 8 = i / 8 by omega, List.drop_eq_getElem_cons hlt,
        List.cons_append]
    rw [if_pos h8, if_neg (by decide), if_neg (by decide), hin]
    simp only [fillOrMixRegs, mixmaskAt_succ, h8, Nat.add_sub_cancel,
      if_neg (Nat.succ_ne_zero i), List.getD_eq_getElem?_getD,
      List.getElem?_eq_getElem hlt, Option.getD_some,
      show (i + 1 + 7) / 8 = i / 8 + 1 by omega]
    rfl
  · rw [if_neg h8,
      if_pos (by rw [mixmaskAt_succ]; exact pow_ne_zero_table ⟨i % 8, by omega⟩)]
    simp only [fillOrMixRegs, if_neg (show i ≠ 0 by omega), if_neg (Nat.succ_ne_zero i),
      Nat.add_sub_cancel, show (i - 1) / 8 = i / 8 by omega,
      show (i + 1 + 7) / 8 = (i + 7) / 8 by omega]

/-- A fill-or-mix run over mask bytes from the input: pixel `i` is `mix` over the pixel
below when bit `i % 8` of mask byte `i / 8` is set, and the pixel below when it is
clear. -/
theorem draw_fillOrMix {r : Registers} {masks rest : List UInt8}
    (hlen : masks.length = (r.count + 7) / 8) {p : List UInt16}
    (hp : p.length ≤ width * height)
    {post : Registers → Prop}
    (hpost : ∀ mixmask mask, post { r with count := 0, mixmask, mask, input := rest }) :
    RunEnds width height r.count
      ((RunOrder.fillOrMix masks).specPixel width r.mix false) p post
      (draw width height 2 0 (width * height - p.length + 1)
        ⟨{ r with input := masks ++ rest, mixmask := 0 }, p⟩) :=
  runEnds_of_run (R := fillOrMixRegs r masks rest) (by decide)
    (fun i hi => by simp only [fillOrMixRegs]; omega)
    (fun i hi q => by
      rw [pixel_of_value (fun h => absurd h.1 (by decide))
        (pixelValue_fillOrMix (nextMaskBit_fillOrMix hlen hi)),
        maskBitSet_eq (Nat.mod_lt i (by decide)) (mixmaskAt_succ i)]
      simp only [RunOrder.specPixel, maskBit, fillOrMixRegs, if_neg (Nat.succ_ne_zero i),
        Nat.add_sub_cancel]
      rfl)
    hp (by
      simp only [fillOrMixRegs, Nat.sub_self]
      rw [List.drop_eq_nil_of_le (by omega), List.nil_append]
      exact hpost _ _)

/-- A fill-or-mix run of at most eight pixels under a fixed mask (`0xF9`, `0xFA`): the
mask is loaded once, before the first pixel. -/
theorem nextMaskBit_fixed {r : Registers} (hmask : r.mask ≠ 0) {i : Nat} (hi : i < 8) :
    nextMaskBit r.mask { r with count := r.count - i, mixmask := mixmaskAt i } =
      .ok ((), { r with count := r.count - i, mixmask := mixmaskAt (i + 1) }) := by
  rw [nextMaskBit_eq]
  rcases Nat.eq_zero_or_pos i with rfl | hpos
  · rw [if_neg (show ¬mixmaskAt 0 <<< 1 ≠ 0 by decide), if_pos hmask]
    rfl
  · rw [if_pos (by
      rw [mixmaskAt_shift, if_neg (by omega), mixmaskAt_succ]
      exact pow_ne_zero_table ⟨i % 8, by omega⟩), mixmaskAt_shift, if_neg (by omega)]

theorem draw_fixedFillOrMix {r : Registers} (hmask : r.mask ≠ 0) (hc : r.count ≤ 8)
    {p : List UInt16} (hp : p.length ≤ width * height) {post : Registers → Prop}
    (hpost : ∀ mixmask, post { r with count := 0, mixmask }) :
    RunEnds width height r.count
      (fun i q => fillOrMixPixel r.mix (maskBit [r.mask] i) (belowPixel width q)) p post
      (draw width height 2 r.mask (width * height - p.length + 1)
        ⟨{ r with mixmask := 0 }, p⟩) :=
  runEnds_of_run (R := fun i => { r with count := r.count - i, mixmask := mixmaskAt i })
    (by decide) (fun i hi => by simp only; omega)
    (fun i hi q => by
      rw [pixel_of_value (fun h => absurd h.1 (by decide))
        (pixelValue_fillOrMix (nextMaskBit_fixed hmask (by omega))),
        maskBitSet_eq (Nat.mod_lt i (by decide)) (mixmaskAt_succ i)]
      simp only [maskBit, Nat.div_eq_of_lt (show i < 8 by omega), List.getD_cons_zero]
      rfl)
    hp (by simp only [Nat.sub_self]; exact hpost _)

/-! ### Orders -/

/-- What the registers hold between orders: the unread input, `mix`, no `insertmix` or
bicolour pixel pending, and whether the last order was a background order. -/
def Settled (mix : UInt16) (background : Bool) (rest : List UInt8)
    (r : Registers) : Prop :=
  r.input = rest ∧ r.mix = mix ∧ r.insertmix = false ∧ r.bicolour = false ∧
    (r.lastopcode = 0 ↔ background = true)

theorem headerRegs_background {run : Run} {atStart : Bool}
    {r : Registers} {tail : List UInt8}
    (h : r.insertmix = false) :
    RunOrder.background.headerRegs run atStart r tail =
      { r with
        input := tail
        insertmix := r.lastopcode == 0 && !atStart
        lastopcode := 0
        mixmask := 0
        count := RunOrder.background.count run } := by
  simp only [RunOrder.headerRegs, RunOrder.withOperands, RunOrder.loopOpcode]
  split_ifs with hc
  · simp [hc]
  · have hins : (r.lastopcode == 0 && !atStart) = false := by
      simpa only [Bool.and_eq_false_iff, beq_eq_false_iff_ne, Bool.not_eq_false'] using
        (not_and_or.mp hc).imp id fun h => by simpa using h
    rw [hins, ← h]

theorem loopOpcode_eq_zero_iff (o : RunOrder) :
    o.loopOpcode = 0 ↔ (o == .background) = true := by
  cases o <;> simp [RunOrder.loopOpcode]

/-- The pixel loop of a well-formed run order, from the registers its header leaves. -/
theorem draw_runOrder {o : RunOrder} {run : Run} (hwf : (Order.run o run).WellFormed)
    {r : Registers} (hins : r.insertmix = false)
    (hbic : r.bicolour = false) (atStart : Bool)
    (rest : List UInt8) {p : List UInt16} (hp : p.length ≤ width * height) :
    RunEnds width height (o.pixelCount run)
      (o.specPixel width (o.newMix r.mix) (r.lastopcode == 0 && !atStart)) p
      (Settled (o.newMix r.mix) (o == .background) rest)
      (draw width height o.loopOpcode 0 (width * height - p.length + 1)
        ⟨o.headerRegs run atStart r (o.pixelBytes ++ rest), p⟩) := by
  obtain ⟨hrun, hfits⟩ := hwf
  have hpos := RunOrder.count_pos hrun
  have hlast := loopOpcode_eq_zero_iff o
  cases o with
  | background =>
    rw [headerRegs_background hins]
    exact draw_background (r := { r with
        input := rest
        insertmix := r.lastopcode == 0 && !atStart
        lastopcode := 0
        mixmask := 0
        count := RunOrder.background.count run }) hpos hp ⟨rfl, rfl, rfl, hbic, hlast⟩
  | foreground =>
    exact draw_simple (r := RunOrder.foreground.headerRegs run atStart r rest) (by decide)
      (fun h => absurd h.1 (by decide)) (fun _ _ _ => pixelValue_foreground) hp
      ⟨rfl, rfl, hins, hbic, hlast⟩
  | fillOrMix masks =>
    exact draw_fillOrMix
      (r := (RunOrder.fillOrMix masks).headerRegs run atStart r (masks ++ rest))
      hfits hp fun _ _ => ⟨rfl, rfl, hins, hbic, hlast⟩
  | colour c =>
    exact draw_simple (r := (RunOrder.colour c).headerRegs run atStart r rest) (by decide)
      (fun h => absurd h.1 (by decide)) (fun _ _ _ => pixelValue_colour) hp
      ⟨rfl, rfl, hins, hbic, hlast⟩
  | copy words =>
    exact draw_copy
      (r := (RunOrder.copy words).headerRegs run atStart r (words.flatMap u16Le ++ rest))
      hfits hp ⟨rfl, rfl, hins, hbic, hlast⟩
  | setMix m =>
    exact draw_simple (r := (RunOrder.setMix m).headerRegs run atStart r rest) (by decide)
      (fun h => absurd h.1 (by decide)) (fun _ _ _ => pixelValue_foreground) hp
      ⟨rfl, rfl, hins, hbic, hlast⟩
  | setMixFillOrMix m masks =>
    exact draw_fillOrMix
      (r := (RunOrder.setMixFillOrMix m masks).headerRegs run atStart r (masks ++ rest))
      hfits hp fun _ _ => ⟨rfl, rfl, hins, hbic, hlast⟩
  | bicolour c₁ c₂ =>
    have hr (tail : List UInt8) :
        RunOrder.headerRegs (.bicolour c₁ c₂) run atStart r tail =
          { RunOrder.headerRegs (.bicolour c₁ c₂) run atStart r tail with
            bicolour := false } := by
      simp only [RunOrder.headerRegs, RunOrder.withOperands, ← hbic]
    rw [hr]
    exact draw_bicolour (r := RunOrder.headerRegs (.bicolour c₁ c₂) run atStart r rest) hp
      ⟨rfl, rfl, hins, rfl, hlast⟩

/-- How the decoder stands against a state of the reference decoder: with the state's
pixels written and its registers settled, or, when the image is too small for them, with
the pixels that fit written and `allValuesWritten`. -/
def Ends (width height : Nat) (s : SpecState) (rest : List UInt8) :
    EStateM.Result Fault Pen Unit → Prop
  | .ok _ pen => s.pixels.length ≤ width * height ∧ pen.pixels = s.pixels ∧
      Settled s.mix s.background rest pen.regs
  | .error e pen => width * height < s.pixels.length ∧ e = allValuesWritten ∧
      pen.pixels = s.pixels.take (width * height)

theorem ends_of_runEnds {s : SpecState} {rest : List UInt8} {c : Nat}
    {f : Nat → List UInt16 → UInt16} {p : List UInt16}
    {res : EStateM.Result Fault Pen Unit}
    (hp : p.length ≤ width * height) (hpix : s.pixels = runPixels f c p)
    (h : RunEnds width height c f p (Settled s.mix s.background rest) res) :
    Ends width height s rest res := by
  rcases res with ⟨_, pen⟩ | ⟨e, pen⟩
  · obtain ⟨hfit, hpen, hr⟩ := h
    exact ⟨by rwa [hpix, length_runPixels], hpen.trans hpix.symm, hr⟩
  · obtain ⟨hfit, he, hpen⟩ := h
    refine ⟨by rwa [hpix, length_runPixels], he, ?_⟩
    rw [hpen, hpix, ← take_runPixels f (show width * height - p.length ≤ c by omega),
      Nat.add_sub_cancel' hp]

/-- One well-formed order, from a state of the reference decoder. -/
theorem order_ends {s : SpecState} {o : Order} (hwf : o.WellFormed) {rest : List UInt8}
    {pen : Pen} (hpix : pen.pixels = s.pixels)
    (hset : Settled s.mix s.background (o.bytes ++ rest) pen.regs)
    (hp : pen.pixels.length ≤ width * height) :
    Ends width height (specOrder width s o) rest (order width height pen) := by
  obtain ⟨hin, hmix, hins, hbic, hlast⟩ := hset
  have hd :
      ¬(0xd : UInt8) = 0 ∧ ¬(0xe : UInt8) = 0 ∧ ¬(2 : UInt8) = 0 ∧ ¬false = true := by
    decide
  rw [order_eq]
  cases o with
  | run o run =>
    have hinsert : (pen.regs.lastopcode == 0 && !(pen.pixels.length == 0 ||
        pen.pixels.length == width)) = s.inserts width := by
      rw [SpecState.inserts, hpix, show (pen.regs.lastopcode == 0) = s.background from
        Bool.eq_iff_iff.mpr (beq_iff_eq.trans hlast)]
    rw [header_run _ hwf.1
      (show pen.regs.input = o.runBytes run ++ o.operandBytes ++ (o.pixelBytes ++ rest) by
        rw [hin, Order.bytes, List.append_assoc])]
    have h := draw_runOrder hwf hins hbic
      (pen.pixels.length == 0 || pen.pixels.length == width) rest hp
    rw [hmix, hinsert] at h
    exact ends_of_runEnds hp (by rw [hpix]; rfl) h
  | fixedFillOrMix five =>
    rw [header_fixedFillOrMix _ five (show pen.regs.input = _ :: rest by rw [hin]; rfl)]
    exact ends_of_runEnds hp (by simp only [specOrder, hpix, hmix])
      (draw_fixedFillOrMix (r := { pen.regs with
          input := rest, mask := if five then 5 else 3, lastopcode := 2, mixmask := 0,
          count := 8 })
        (show (if five then (5 : UInt8) else 3) ≠ 0 by cases five <;> decide)
        (Nat.le_refl 8) hp
        fun _ => ⟨rfl, hmix, hins, hbic, iff_of_false hd.2.2.1 hd.2.2.2⟩)
  | white =>
    rw [header_white _ (show pen.regs.input = 0xFD :: rest by rw [hin]; rfl)]
    exact ends_of_runEnds hp (by rw [hpix]; rfl)
      (draw_simple (r := { pen.regs with
          input := rest, lastopcode := 0xd, mixmask := 0, count := 1 })
        (by decide) (fun h => absurd h.1 (by decide)) (fun _ _ _ => pixelValue_white) hp
        ⟨rfl, hmix, hins, hbic, iff_of_false hd.1 hd.2.2.2⟩)
  | black =>
    rw [header_black _ (show pen.regs.input = 0xFE :: rest by rw [hin]; rfl)]
    exact ends_of_runEnds hp (by rw [hpix]; rfl)
      (draw_simple (r := { pen.regs with
          input := rest, lastopcode := 0xe, mixmask := 0, count := 1 })
        (by decide) (fun h => absurd h.1 (by decide)) (fun _ _ _ => pixelValue_black) hp
        ⟨rfl, hmix, hins, hbic, iff_of_false hd.2.1 hd.2.2.2⟩)

/-- A stream of well-formed orders, from a state of the reference decoder: the decoder
runs every order, or stops at the first the image cannot hold. -/
theorem decode_ends {orders : List Order} (hwf : ∀ o ∈ orders, o.WellFormed) :
    ∀ (s : SpecState) (pen : Pen) (fuel : Nat), orders.length ≤ fuel →
      pen.pixels = s.pixels → Settled s.mix s.background (encode orders) pen.regs →
      pen.pixels.length ≤ width * height →
      Ends width height (orders.foldl (specOrder width) s) []
        (decode width height fuel pen) := by
  induction orders with
  | nil =>
    intro s pen fuel _ hpix hset hp
    rw [decode_of_input_nil hset.1]
    exact ⟨hpix ▸ hp, hpix, hset⟩
  | cons o os ih =>
    intro s pen fuel hfuel hpix hset hp
    obtain ⟨fuel, rfl⟩ : ∃ k, fuel = k + 1 :=
      ⟨fuel - 1, by simp only [List.length_cons] at hfuel; omega⟩
    rw [encode_cons] at hset
    rw [decode_succ
      (by rw [hset.1]; exact List.append_ne_nil_of_left_ne_nil o.bytes_ne_nil _)]
    have ho := order_ends (hwf o (List.mem_cons_self _ _)) hpix hset hp
    rcases hr : order width height pen with ⟨_, pen'⟩ | ⟨e, pen'⟩ <;> rw [hr] at ho
    · obtain ⟨hfit, hpix', hset'⟩ := ho
      rw [EStateM.bind_of_ok hr]
      exact ih (fun o' h => hwf o' (List.mem_cons_of_mem _ h)) _ pen' fuel
        (by simp only [List.length_cons] at hfuel; omega) hpix' hset' (hpix' ▸ hfit)
    · obtain ⟨hfit, he, hpen⟩ := ho
      obtain ⟨t, ht⟩ := prefix_foldl_specOrder width os (specOrder width s o)
      rw [EStateM.bind_of_error hr, List.foldl_cons]
      refine ⟨?_, he, ?_⟩
      · rw [← ht, List.length_append]; omega
      · rw [hpen, ← ht, List.take_append_of_le_length (by omega)]

end Pixels

/-- On the input of well-formed orders, the pixel-stream decoder writes the pixels of
the reference decoder, as many as the image holds, and fails exactly when the orders
hold more. -/
theorem decodePixels_encode (width height : Nat) {orders : List Order}
    (hwf : ∀ o ∈ orders, o.WellFormed) :
    decodePixels (encode orders) width height =
      (if (orders.map Order.pixelCount).sum ≤ width * height then .ok ()
        else .error allValuesWritten,
        (specPixels width orders).take (width * height)) := by
  have h := Pixels.decode_ends hwf ⟨0xFFFF, false, []⟩
    ⟨(start (encode orders) width height []).regs, []⟩ (encode orders).length
    (length_le_length_encode orders) rfl
    ⟨rfl, rfl, rfl, rfl, iff_of_false (show ¬(0xFF : UInt8) = 0 by decide) (by decide)⟩
    (Nat.zero_le (width * height))
  have hlen := length_foldl_specOrder width orders ⟨0xFFFF, false, []⟩
  unfold decodePixels specPixels
  revert h
  rcases Pixels.decode width height (encode orders).length
      ⟨(start (encode orders) width height []).regs, []⟩ with ⟨_, pen⟩ | ⟨e, pen⟩ <;>
    intro h
  · obtain ⟨hfit, hpix, -⟩ := h
    dsimp only
    rw [if_pos (by simp only [List.length_nil, Nat.zero_add] at hlen; omega), hpix,
      List.take_of_length_le hfit]
  · obtain ⟨hfit, rfl, hpix⟩ := h
    dsimp only
    rw [if_neg (by simp only [List.length_nil, Nat.zero_add] at hlen; omega), hpix]

/-- `rle_16_decompress` on the input of well-formed orders paints the reference
decoder's pixels, as many as the image holds, bottom row first, and returns `Ok` exactly
when the orders hold at most `width * height` pixels. -/
theorem rle16Decompress_encode {width height : Nat} {output : List UInt16}
    (hw : 0 < width) (hout : width * height ≤ output.length) {orders : List Order}
    (hwf : ∀ o ∈ orders, o.WellFormed) :
    rle16Decompress (encode orders) width height output =
      (if (orders.map Order.pixelCount).sum ≤ width * height then .ok ()
        else .error allValuesWritten,
        paint width height ((specPixels width orders).take (width * height)) output) := by
  rw [rle16Decompress_eq_paint hw hout, decodePixels_encode width height hwf]

theorem rle16Decompress_encode_colourBicolour :
    0 < 2 ∧ 2 * 3 ≤ [0, 0, 0, 0, 0, 0].length ∧
      (∀ o ∈ [Order.run (.colour 0x1234) (.short 2), .run (.bicolour 1 2) (.short 2)],
        o.WellFormed) ∧
      rle16Decompress
          (encode [.run (.colour 0x1234) (.short 2), .run (.bicolour 1 2) (.short 2)])
          2 3 [0, 0, 0, 0, 0, 0] =
        (if ([Order.run (.colour 0x1234) (.short 2), .run (.bicolour 1 2) (.short 2)].map
            Order.pixelCount).sum ≤ 2 * 3 then .ok () else .error allValuesWritten,
          paint 2 3 ((specPixels 2 [.run (.colour 0x1234) (.short 2),
              .run (.bicolour 1 2) (.short 2)]).take (2 * 3))
            [0, 0, 0, 0, 0, 0]) :=
  ⟨by decide, by decide, by decide,
    rle16Decompress_encode (by decide) (by decide) (by decide)⟩

end Rdp.Codec.Rle16
