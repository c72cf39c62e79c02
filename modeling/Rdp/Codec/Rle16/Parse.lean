import Rdp.Codec.Rle16.Orders

namespace Rdp.Codec.Rle16

/-! The order header on a well-formed order's bytes: the run length lands in `count`, the
operands in their registers, and the pixel data stays unread. -/

theorem regsBind_of_ok {α β : Type} {m : RegsM α} {f : α → RegsM β}
    {r r' : Registers} {a : α}
    (h : m r = .ok (a, r')) : (m >>= f) r = f a r' := by
  simp only [bind, StateT.bind, h, Except.bind]

theorem readU8_eq_of_input {r : Registers} {b : UInt8} {rest : List UInt8}
    (h : r.input = b :: rest) : readU8 r = .ok (b, { r with input := rest }) := by
  simp only [readU8, h, Rdp.readU8, bind, Except.bind, pure, Except.pure]

theorem readU16_eq_of_input {r : Registers} {w : UInt16} {rest : List UInt8}
    (h : r.input = u16Le w ++ rest) : readU16 r = .ok (w, { r with input := rest }) := by
  rw [readU16_eq, h, readU16Le_u16Le]

/-! ### Code bytes -/

/-- A regular code byte: opcode `k` in the top three bits, the short count in the low
five. -/
theorem regular_code : ∀ k : Fin 5, ∀ n : Fin 32,
    ¬((0xC : UInt8) ≤ UInt8.ofNat (k.val * 32 + n.val) >>> 4 ∧
        UInt8.ofNat (k.val * 32 + n.val) >>> 4 ≤ 0xE) ∧
      UInt8.ofNat (k.val * 32 + n.val) >>> 4 ≠ 0xF ∧
      (UInt8.ofNat (k.val * 32 + n.val) >>> 4) >>> 1 = UInt8.ofNat k.val ∧
      (UInt8.ofNat (k.val * 32 + n.val) &&& 0x1f).toNat = n.val := by
  decide

/-- A lite code byte: `0xC` to `0xE` in the top four bits, the short count in the low
four. -/
theorem lite_code : ∀ k : Fin 3, ∀ n : Fin 16,
    ((0xC : UInt8) ≤ UInt8.ofNat ((k.val + 12) * 16 + n.val) >>> 4 ∧
        UInt8.ofNat ((k.val + 12) * 16 + n.val) >>> 4 ≤ 0xE) ∧
      UInt8.ofNat ((k.val + 12) * 16 + n.val) >>> 4 - 6 = UInt8.ofNat (k.val + 6) ∧
      (UInt8.ofNat ((k.val + 12) * 16 + n.val) &&& 0xf).toNat = n.val := by
  decide

/-- A mega code byte `0xF0 + k`. -/
theorem mega_code : ∀ k : Fin 9,
    ¬((0xC : UInt8) ≤ UInt8.ofNat (0xF0 + k.val) >>> 4 ∧
      UInt8.ofNat (0xF0 + k.val) >>> 4 ≤ 0xE) ∧
      UInt8.ofNat (0xF0 + k.val) >>> 4 = 0xF ∧
      UInt8.ofNat (0xF0 + k.val) &&& 0xf = UInt8.ofNat k.val ∧ UInt8.ofNat k.val < 9 := by
  decide

section RunLength

variable {r : Registers}

theorem runLength_regular {k n : Nat} (hk : k < 5) (hn : n < 32) :
    runLength (UInt8.ofNat (k * 32 + n)) r = .ok ((UInt8.ofNat k, n, 32), r) := by
  obtain ⟨h₁, h₂, h₃, h₄⟩ := regular_code ⟨k, hk⟩ ⟨n, hn⟩
  simp only [runLength, if_neg h₁, if_neg h₂, h₃, h₄]
  rfl

theorem runLength_lite {k n : Nat} (hk : k < 3) (hn : n < 16) :
    runLength (UInt8.ofNat ((k + 12) * 16 + n)) r =
      .ok ((UInt8.ofNat (k + 6), n, 16), r) := by
  obtain ⟨h₁, h₂, h₃⟩ := lite_code ⟨k, hk⟩ ⟨n, hn⟩
  simp only [runLength, if_pos h₁, h₂, h₃]
  rfl

theorem runLength_mega {k : Nat} {w : UInt16} {rest : List UInt8} (hk : k < 9)
    (hin : r.input = u16Le w ++ rest) :
    runLength (UInt8.ofNat (0xF0 + k)) r =
      .ok ((UInt8.ofNat k, w.toNat, 0), { r with input := rest }) := by
  obtain ⟨h₁, h₂, h₃, h₄⟩ := mega_code ⟨k, hk⟩
  simp only [runLength, h₂,
    if_neg (show ¬((0xC : UInt8) ≤ 0xF ∧ (0xF : UInt8) ≤ 0xE) by decide),
    if_true, h₃, if_pos h₄, bind, StateT.bind, readU16_eq_of_input hin, Except.bind, pure,
    StateT.pure, Except.pure]

end RunLength

/-! ### Run orders -/

namespace RunOrder

/-- The opcode the pixel loop runs: a set-mix order runs as a foreground or a
fill-or-mix order. -/
def loopOpcode : RunOrder → UInt8
  | background => 0
  | foreground => 1
  | fillOrMix _ => 2
  | colour _ => 3
  | copy _ => 4
  | setMix _ => 1
  | setMixFillOrMix _ _ => 2
  | bicolour _ _ => 8

/-- The registers the operands of an order set; a background order after a background
order sets `insertmix`, except at the start of a row with no row below. -/
def withOperands (atStart : Bool) (r : Registers) : RunOrder → Registers
  | background => if r.lastopcode = 0 ∧ ¬atStart then { r with insertmix := true } else r
  | colour c => { r with colour2 := c }
  | setMix m => { r with mix := m }
  | setMixFillOrMix m _ => { r with mix := m }
  | bicolour c₁ c₂ => { r with colour1 := c₁, colour2 := c₂ }
  | _ => r

/-- The registers a run order's header leaves, its pixel data `tail` still unread. -/
def headerRegs (o : RunOrder) (run : Run) (atStart : Bool)
    (r : Registers) (tail : List UInt8) :
    Registers :=
  { o.withOperands atStart { r with input := tail } with
    lastopcode := o.loopOpcode, mixmask := 0, count := o.count run }

theorem opcode_lt (o : RunOrder) : o.opcode < 9 := by
  cases o <;> simp [opcode]

theorem fillsOrMixes_iff (o : RunOrder) :
    (UInt8.ofNat o.opcode = 2 ∨ UInt8.ofNat o.opcode = 7) ↔ o.fillsOrMixes = true := by
  cases o <;> simp [fillsOrMixes, opcode]

end RunOrder

variable {r : Registers} {tail : List UInt8}

/-- The code byte of a short count gives the order's opcode and the count. -/
theorem runLength_short {o : RunOrder} {n : Nat} (hn : n < if o.lite then 16 else 32) :
    runLength (o.code n) r =
      .ok ((UInt8.ofNat o.opcode, n, if o.lite then 16 else 32), r) := by
  cases o <;> simp only [RunOrder.lite, RunOrder.opcode, RunOrder.code] at hn ⊢ <;>
    simp only [show ¬(6 ≤ 0) by decide, show ¬(6 ≤ 1) by decide, show ¬(6 ≤ 2) by decide,
      show ¬(6 ≤ 3) by decide, show ¬(6 ≤ 4) by decide, show 6 ≤ 6 by decide,
      show 6 ≤ 7 by decide, show 6 ≤ 8 by decide, decide_True, decide_False, if_true,
      if_false] at hn ⊢
  · exact runLength_regular (k := 0) (by decide) hn
  · exact runLength_regular (k := 1) (by decide) hn
  · exact runLength_regular (k := 2) (by decide) hn
  · exact runLength_regular (k := 3) (by decide) hn
  · exact runLength_regular (k := 4) (by decide) hn
  · exact runLength_lite (k := 0) (by decide) hn
  · exact runLength_lite (k := 1) (by decide) hn
  · exact runLength_lite (k := 2) (by decide) hn

theorem extendCount_short {o : RunOrder} {n offset : Nat}
    (hn : n ≠ 0) (hoffset : offset ≠ 0) :
    extendCount (UInt8.ofNat o.opcode) n offset r =
      .ok (if o.fillsOrMixes then n * 8 else n, r) := by
  simp only [extendCount, if_neg hoffset, if_neg hn, o.fillsOrMixes_iff, Nat.shiftLeft_eq]
  split <;> rfl

theorem extendCount_extended {o : RunOrder} {b : UInt8}
    {offset : Nat} (hoffset : offset ≠ 0)
    (hin : r.input = b :: tail) :
    extendCount (UInt8.ofNat o.opcode) 0 offset r =
      .ok (b.toNat + if o.fillsOrMixes then 1 else offset, { r with input := tail }) := by
  simp only [extendCount, if_neg hoffset, if_true, o.fillsOrMixes_iff]
  rw [regsBind_of_ok (readU8_eq_of_input hin)]
  rfl

/-- The code byte and the run length of a run order give its opcode and its count, and
leave the operands unread. -/
theorem runCount {o : RunOrder} {run : Run} (hwf : run.WellFormed o.lite)
    (hin : r.input = o.runBytes run ++ tail) :
    ∃ code r₁ count offset r₂, readU8 r = .ok (code, r₁) ∧
      runLength code r₁ = .ok ((UInt8.ofNat o.opcode, count, offset), r₂) ∧
      extendCount (UInt8.ofNat o.opcode) count offset r₂ =
        .ok (o.count run, { r with input := tail }) := by
  cases run with
  | short n =>
    refine ⟨_, _, _, _, _, readU8_eq_of_input hin, runLength_short hwf.2, ?_⟩
    rw [extendCount_short (Nat.pos_iff_ne_zero.mp hwf.1) (by split <;> decide)]
    rfl
  | extended b =>
    have hlt : 0 < if o.lite then 16 else 32 := by split <;> decide
    refine ⟨_, _, _, _, _, readU8_eq_of_input hin, runLength_short hlt, ?_⟩
    rw [extendCount_extended (by split <;> decide) rfl]
    rfl
  | mega w =>
    refine ⟨_, _, _, _, _, readU8_eq_of_input hin, runLength_mega o.opcode_lt rfl, ?_⟩
    rfl

/-- The operands of a run order, read into their registers. -/
theorem operands_run (atStart : Bool) (o : RunOrder) (r : Registers) (tail : List UInt8) :
    operands atStart (UInt8.ofNat o.opcode) { r with input := o.operandBytes ++ tail } =
      .ok ((o.loopOpcode, 0), o.withOperands atStart { r with input := tail }) := by
  cases o with
  | background =>
    show operands atStart 0 { r with input := tail } = _
    simp only [operands, RunOrder.withOperands]
    rw [regsBind_of_ok
      (show (get : RegsM Registers) { r with input := tail } = .ok (_, _) from rfl)]
    split_ifs <;> rfl
  | colour c =>
    show operands atStart 3 _ = _
    simp only [operands]
    rw [regsBind_of_ok (readU16_eq_of_input rfl)]
    rfl
  | setMix m =>
    show operands atStart 6 _ = _
    simp only [operands]
    rw [regsBind_of_ok (readU16_eq_of_input rfl)]
    rfl
  | setMixFillOrMix m masks =>
    show operands atStart 7 _ = _
    simp only [operands]
    rw [regsBind_of_ok (readU16_eq_of_input rfl)]
    rfl
  | bicolour c₁ c₂ =>
    show operands atStart 8 _ = _
    simp only [operands]
    rw [regsBind_of_ok (readU16_eq_of_input (show _ = u16Le c₁ ++ (u16Le c₂ ++ tail) by
      simp [RunOrder.operandBytes])),
      regsBind_of_ok (readU16_eq_of_input rfl)]
    rfl
  | foreground | fillOrMix _ | copy _ => rfl

/-- `header` on a run order: its opcode and the registers of its pixel loop. -/
theorem header_run (atStart : Bool) {o : RunOrder} {run : Run}
    (hwf : run.WellFormed o.lite)
    (hin : r.input = o.runBytes run ++ o.operandBytes ++ tail) :
    header atStart r = .ok ((o.loopOpcode, 0), o.headerRegs run atStart r tail) := by
  obtain ⟨code, r₁, count, offset, r₂, h₁, h₂, h₃⟩ :=
    runCount hwf (show r.input = o.runBytes run ++ (o.operandBytes ++ tail) by
      rw [hin, List.append_assoc])
  simp only [header]
  rw [regsBind_of_ok h₁, regsBind_of_ok h₂, regsBind_of_ok h₃,
    regsBind_of_ok (operands_run atStart o r tail)]
  rfl

/-- `header` on `0xF9` or `0xFA`: a fill-or-mix run of eight pixels with a fixed mask. -/
theorem header_fixedFillOrMix (atStart five : Bool)
    (hin : r.input = (if five then 0xFA else 0xF9) :: tail) :
    header atStart r = .ok ((2, if five then 5 else 3),
      { r with input := tail, mask := if five then 5 else 3, lastopcode := 2,
               mixmask := 0, count := 8 }) := by
  simp only [header]
  rw [regsBind_of_ok (readU8_eq_of_input hin)]
  cases five <;> rfl

theorem header_white (atStart : Bool) (hin : r.input = 0xFD :: tail) :
    header atStart r = .ok ((0xd, 0),
      { r with input := tail, lastopcode := 0xd, mixmask := 0, count := 1 }) := by
  simp only [header]
  rw [regsBind_of_ok (readU8_eq_of_input hin)]
  rfl

theorem header_black (atStart : Bool) (hin : r.input = 0xFE :: tail) :
    header atStart r = .ok ((0xe, 0),
      { r with input := tail, lastopcode := 0xe, mixmask := 0, count := 1 }) := by
  simp only [header]
  rw [regsBind_of_ok (readU8_eq_of_input hin)]
  rfl

end Rdp.Codec.Rle16
