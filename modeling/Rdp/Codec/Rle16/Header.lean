import Rdp.Codec.Rle16

namespace Rdp.Codec.Rle16

/-! The register steps of `rle_16_decompress` fail only at the end of the input, and an
order's header at the start of the image leaves `insertmix` alone. -/

/-- A register computation that keeps `inv` of the registers and fails only at the end
of the input. -/
def Guarded {α : Type} (inv : Registers → Prop) (m : RegsM α) : Prop :=
  ∀ r, inv r → match m r with
    | .ok (_, r') => inv r'
    | .error e => e = .error .io

namespace Guarded

variable {inv : Registers → Prop}

theorem bind {α β : Type} {m : RegsM α} {f : α → RegsM β} (hm : Guarded inv m)
    (hf : ∀ a, Guarded inv (f a)) : Guarded inv (m >>= f) := by
  intro r hr
  have h := hm r hr
  rcases hmr : m r with e | ⟨a, r'⟩ <;> rw [hmr] at h <;>
    simp only [Bind.bind, StateT.bind, hmr, Except.bind]
  · exact h
  · exact hf a r' h

theorem pure {α : Type} (a : α) : Guarded inv (Pure.pure a) := fun _ hr => hr

theorem get : Guarded inv (MonadState.get : RegsM Registers) := fun _ hr => hr

theorem modify {f : Registers → Registers} (hf : ∀ r, inv r → inv (f r)) :
    Guarded inv (modify f : RegsM PUnit) := fun r hr => hf r hr

theorem set {r' : Registers} (hr' : inv r') :
    Guarded inv (MonadStateOf.set r' : RegsM PUnit) :=
  fun _ _ => hr'

theorem ite {α : Type} {c : Prop} [Decidable c] {a b : RegsM α} (ha : c → Guarded inv a)
    (hb : ¬c → Guarded inv b) : Guarded inv (if c then a else b) := by
  split_ifs with h
  · exact ha h
  · exact hb h

end Guarded

/-! The header, for every invariant that only looks at `insertmix`. -/

section Reads

variable {P : Bool → Prop}

theorem readU8_guarded : Guarded (fun r => P r.insertmix) readU8 := by
  intro r hr
  rcases h : r.input with _ | ⟨b, rest⟩ <;>
    simp only [readU8, h, Rdp.readU8, bind, Except.bind, pure, Except.pure]
  exact hr

theorem readU16_guarded : Guarded (fun r => P r.insertmix) readU16 := by
  intro r hr
  rw [readU16_eq]
  rcases h : r.input with _ | ⟨b0, _ | ⟨b1, rest⟩⟩ <;> simp only [Rdp.readU16Le, h]
  exact hr

theorem runLength_guarded (code : UInt8) :
    Guarded (fun r => P r.insertmix) (runLength code) := by
  unfold runLength
  repeat (first
    | exact Guarded.pure _
    | exact readU16_guarded
    | refine Guarded.ite (fun _ => ?_) (fun _ => ?_)
    | refine Guarded.bind ?_ fun _ => ?_)

theorem extendCount_guarded (opcode : UInt8) (count offset : Nat) :
    Guarded (fun r => P r.insertmix) (extendCount opcode count offset) := by
  unfold extendCount
  repeat (first
    | exact Guarded.pure _
    | exact readU8_guarded
    | refine Guarded.ite (fun _ => ?_) (fun _ => ?_)
    | refine Guarded.bind ?_ fun _ => ?_)

/-- `match opcode { .. }` of the header: only a background order after a background
order away from the start of the image sets `insertmix`. -/
theorem operands_guarded {atStart : Bool}
    (hset : atStart = false → P true) (opcode : UInt8) :
    Guarded (fun r => P r.insertmix) (operands atStart opcode) := by
  unfold operands
  split <;>
    repeat (first
      | exact Guarded.pure _
      | exact Guarded.get
      | exact readU16_guarded
      | exact Guarded.modify fun _ hr => hr
      | refine Guarded.ite (fun h => Guarded.bind
          (Guarded.modify fun _ _ => hset (by simpa using h.2)) fun _ => ?_) (fun _ => ?_)
      | refine Guarded.bind ?_ fun _ => ?_)

theorem header_guarded {atStart : Bool} (hset : atStart = false → P true) :
    Guarded (fun r => P r.insertmix) (header atStart) := by
  unfold header
  repeat (first
    | exact Guarded.pure _
    | exact readU8_guarded
    | exact runLength_guarded _
    | exact extendCount_guarded _ _ _
    | exact operands_guarded hset _
    | exact Guarded.modify fun _ hr => hr
    | refine Guarded.bind ?_ fun _ => ?_)

end Reads

/-- An order's header fails only at the end of the input. -/
theorem header_failsAtEnd (atStart : Bool) : Guarded (fun _ => True) (header atStart) :=
  header_guarded (P := fun _ => True) fun _ => trivial

/-- At the start of the image the header leaves `insertmix` clear. -/
theorem header_keeps_insertmix : Guarded (fun r => r.insertmix = false) (header true) :=
  header_guarded (P := (· = false)) nofun

end Rdp.Codec.Rle16
