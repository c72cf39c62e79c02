import Rdp.Codec.Rle16

namespace Rdp.Codec.Rle16

/-! `repeat!` against the plain loop `while count > 0 && x < width { .. }`, for every
body that keeps `x` and never lowers `count`. -/

/-- A computation that leaves `x` alone and never lowers `count`. -/
def Keeps {α : Type} (m : DecoderM α) : Prop :=
  ∀ s a t, m s = .ok a t → t.x = s.x ∧ s.regs.count ≤ t.regs.count

namespace Keeps

theorem bind {α β : Type} {m : DecoderM α} {f : α → DecoderM β} (hm : Keeps m)
    (hf : ∀ a, Keeps (f a)) : Keeps (m >>= f) := by
  intro s b t h
  rcases hms : m s with ⟨a, u⟩ | ⟨e, u⟩
  · rw [EStateM.bind_of_ok hms] at h
    obtain ⟨hx, hc⟩ := hm s a u hms
    obtain ⟨hx', hc'⟩ := hf a u b t h
    exact ⟨hx'.trans hx, hc.trans hc'⟩
  · rw [EStateM.bind_of_error hms] at h
    cases h

theorem pure {α : Type} (a : α) : Keeps (Pure.pure a : DecoderM α) := by
  intro s b t h
  cases h
  exact ⟨rfl, le_rfl⟩

theorem get : Keeps (MonadState.get : DecoderM Decoder) := by
  intro s b t h
  cases h
  exact ⟨rfl, le_rfl⟩

theorem below (e : Nat) : Keeps (Rle16.below e) := by
  intro s b t h
  simp only [Rle16.below, Bind.bind, EStateM.bind, MonadState.get,
    getThe, MonadStateOf.get, EStateM.get, lift] at h
  split at h <;> cases h
  exact ⟨rfl, le_rfl⟩

theorem store (line : Nat) (v : UInt16) : Keeps (Rle16.store line v) := by
  intro s b t h
  simp only [Rle16.store, Bind.bind, EStateM.bind, MonadState.get,
    getThe, MonadStateOf.get, EStateM.get, lift] at h
  split at h <;> cases h
  exact ⟨rfl, le_rfl⟩

theorem regs {α : Type} {m : RegsM α}
    (hm : ∀ r a r', m r = .ok (a, r') → r.count ≤ r'.count) :
    Keeps (Rle16.regs m) := by
  intro s a t h
  simp only [Rle16.regs] at h
  split at h <;> cases h
  exact ⟨rfl, hm _ _ _ ‹_›⟩

end Keeps

theorem nextMaskBit_count {fomMask : UInt8} {r r' : Registers} {u : Unit}
    (h : nextMaskBit fomMask r = .ok (u, r')) : r.count ≤ r'.count := by
  rw [nextMaskBit_frame h]

theorem readU16_count {r r' : Registers} {w : UInt16} (h : readU16 r = .ok (w, r')) :
    r.count ≤ r'.count := by
  rw [readU16_eq] at h
  split at h <;> simp only [reduceCtorEq, Except.ok.injEq, Prod.mk.injEq] at h
  rw [← h.2]

theorem bicolourStep_count {r r' : Registers} {c : UInt16}
    (h : bicolourStep r = .ok (c, r')) :
    r.count ≤ r'.count := by
  rw [bicolourStep_eq] at h
  split_ifs at h <;> simp only [Except.ok.injEq, Prod.mk.injEq] at h <;> simp [← h.2]

/-- Every body statement of `rle_16_decompress` leaves `x` alone and never lowers
`count`. -/
theorem body_keeps (opcode fomMask : UInt8) (line : Nat) (prevline : Option Nat) :
    Keeps (body opcode fomMask line prevline) := by
  unfold body
  split <;>
    with_reducible repeat (first
      | exact Keeps.store _ _
      | exact Keeps.below _
      | exact Keeps.get
      | exact Keeps.pure _
      | exact Keeps.regs fun _ _ _ => nextMaskBit_count
      | exact Keeps.regs fun _ _ _ => readU16_count
      | exact Keeps.regs fun _ _ _ => bicolourStep_count
      | refine Keeps.bind ?_ fun _ => ?_)

section Loops

variable {width : Nat} {body : DecoderM Unit}

theorem step_of_ok {s t : Decoder} {u : Unit} (hb : body s = .ok u t)
    (hc : 1 ≤ t.regs.count) :
    step body s = .ok () { t with regs.count := t.regs.count - 1, x := t.x + 1 } := by
  rw [step, EStateM.bind_of_ok hb]
  simp only [Bind.bind, EStateM.bind, MonadState.get, getThe,
    MonadStateOf.get, EStateM.get, lift, checkedSub_of_le hc, set, EStateM.set]

theorem step_of_error {s t : Decoder} {e : Fault} (hb : body s = .error e t) :
    step body s = .error e t := by
  rw [step, EStateM.bind_of_error hb]

/-- `$expr; $count -= 1; $x += 1;` moves `x` on by one and lowers `count` by at most
one. -/
theorem step_keeps (hbody : Keeps body) {s t : Decoder} (h : step body s = .ok () t) :
    t.x = s.x + 1 ∧ s.regs.count ≤ t.regs.count + 1 := by
  rcases hb : body s with ⟨u, s₁⟩ | ⟨e, s₁⟩
  · obtain ⟨hx, hc⟩ := hbody s u s₁ hb
    by_cases hone : 1 ≤ s₁.regs.count
    · rw [step_of_ok hb hone] at h
      cases h
      exact ⟨by simp [hx], by simp; omega⟩
    · rw [step, EStateM.bind_of_ok hb] at h
      simp only [Bind.bind, EStateM.bind, MonadState.get, getThe,
        MonadStateOf.get, EStateM.get, lift, checkedSub, if_neg hone] at h
      cases h
  · rw [step_of_error hb] at h
    cases h

theorem plain_succ {fuel : Nat} {s : Decoder} (h : 0 < s.regs.count ∧ s.x < width) :
    plain width body (fuel + 1) s = (step body >>= fun _ => plain width body fuel) s := by
  simp only [plain, Bind.bind, EStateM.bind, MonadState.get, getThe,
    MonadStateOf.get, EStateM.get, if_pos h]

theorem plain_of_not {fuel : Nat} {s : Decoder} (h : ¬(0 < s.regs.count ∧ s.x < width)) :
    plain width body fuel s = .ok () s := by
  cases fuel <;> simp only [plain, Bind.bind, EStateM.bind, MonadState.get, getThe,
    MonadStateOf.get, EStateM.get, if_neg h, Pure.pure, EStateM.pure]

/-- `j` passes of `$expr; $count -= 1; $x += 1;`, then `k`. -/
def stepsThen (body : DecoderM Unit) : Nat → DecoderM Unit → DecoderM Unit
  | 0, k => k
  | j + 1, k => step body >>= fun _ => stepsThen body j k

theorem stepsThen_bind (j : Nat) (k : DecoderM Unit)
    (g : Unit → DecoderM Unit) (s : Decoder) :
    (stepsThen body j k >>= g) s = stepsThen body j (k >>= g) s := by
  induction j generalizing s with
  | zero => rfl
  | succ j ih =>
    simp only [stepsThen]
    rcases h : step body s with ⟨u, t⟩ | ⟨e, t⟩
    · rw [EStateM.bind_congr_apply (EStateM.bind_of_ok h), ih, EStateM.bind_of_ok h]
    · rw [EStateM.bind_of_error (EStateM.bind_of_error h), EStateM.bind_of_error h]

/-- `j` passes entered with `j ≤ count` and `x + j ≤ width` run their body only at
states with `1 ≤ count` and `x < width`, and their continuation only at the states they
reach. -/
theorem stepsThen_congr (hbody : Keeps body) {body' k k' : DecoderM Unit}
    (hb : ∀ v, 1 ≤ v.regs.count → v.x < width → body' v = body v) :
    ∀ (j : Nat) (s : Decoder), j ≤ s.regs.count → s.x + j ≤ width →
      (∀ t, t.x = s.x + j → k' t = k t) → stepsThen body' j k' s = stepsThen body j k s
  | 0, s, _, _, h => h s rfl
  | j + 1, s, hc, hx, h => by
    have hs' : step body' s = step body s :=
      EStateM.bind_congr_apply (hb s (by omega) (by omega))
    simp only [stepsThen]
    rw [EStateM.bind_congr_apply hs']
    rcases hs : step body s with ⟨u, t⟩ | ⟨e, t⟩
    · have ht := step_keeps hbody hs
      rw [EStateM.bind_of_ok hs, EStateM.bind_of_ok hs]
      exact stepsThen_congr hbody hb j t (by omega) (by omega) fun t' ht' =>
        h t' (by omega)
    · rw [EStateM.bind_of_error hs, EStateM.bind_of_error hs]

/-- While its guard holds, the plain loop is `j` passes followed by the rest of the
loop. -/
theorem plain_stepsThen (hbody : Keeps body) :
    ∀ (j fuel : Nat) (s : Decoder), j ≤ s.regs.count → s.x + j ≤ width →
      plain width body (fuel + j) s = stepsThen body j (plain width body fuel) s
  | 0, _, _, _, _ => rfl
  | j + 1, fuel, s, hc, hx => by
    rw [show fuel + (j + 1) = fuel + j + 1 by omega, plain_succ (by omega), stepsThen]
    rcases hs : step body s with ⟨u, t⟩ | ⟨e, t⟩
    · have ht := step_keeps hbody hs
      rw [EStateM.bind_of_ok hs, EStateM.bind_of_ok hs,
        plain_stepsThen hbody j fuel t (by omega) (by omega)]
    · rw [EStateM.bind_of_error hs, EStateM.bind_of_error hs]

theorem unrolled_succ {fuel : Nat} {s : Decoder}
    (h : 8 ≤ s.regs.count ∧ s.x + 8 < width) :
    unrolled width body (fuel + 1) s = stepsThen body 8 (unrolled width body fuel) s := by
  simp only [unrolled, Bind.bind, EStateM.bind, MonadState.get, getThe, MonadStateOf.get,
    EStateM.get, if_pos h]
  rfl

theorem unrolled_of_not {fuel : Nat} {s : Decoder}
    (h : ¬(8 ≤ s.regs.count ∧ s.x + 8 < width)) :
    unrolled width body fuel s = .ok () s := by
  cases fuel <;> simp only [unrolled, Bind.bind, EStateM.bind, MonadState.get, getThe,
    MonadStateOf.get, EStateM.get, if_neg h, Pure.pure, EStateM.pure]

/-- Whatever its fuel, the unrolled stage followed by the plain loop runs as the plain
loop. -/
theorem unrolled_then_plain (hbody : Keeps body) :
    ∀ (fuel : Nat) (s : Decoder),
      (unrolled width body fuel >>= fun _ => do plain width body (width - (← get).x)) s =
        plain width body (width - s.x) s
  | 0, s => rfl
  | fuel + 1, s => by
    by_cases h : 8 ≤ s.regs.count ∧ s.x + 8 < width
    · rw [EStateM.bind_congr_apply (unrolled_succ h), stepsThen_bind,
        show width - s.x = width - s.x - 8 + 8 by omega,
        plain_stepsThen hbody 8 _ s h.1 (by omega)]
      exact stepsThen_congr hbody (fun _ _ _ => rfl) 8 s h.1 h.2.le fun t ht => by
        rw [unrolled_then_plain hbody fuel t, ht,
          show width - (s.x + 8) = width - s.x - 8 by omega]
    · rw [EStateM.bind_of_ok (unrolled_of_not h)]
      rfl

/-- `repeat!` runs as the plain loop `while count > 0 && x < width { .. }`. -/
theorem repeatMacro_eq_plain (hbody : Keeps body) (s : Decoder) :
    repeatMacro width body s = plain width body (width - s.x) s :=
  unrolled_then_plain hbody _ s

/-- The plain loop moves `x` on by one a pass, so any fuel from `width - x` on runs it
to its end. -/
theorem plain_of_fuel_le (hbody : Keeps body) :
    ∀ (fuel : Nat) (s : Decoder), width - s.x ≤ fuel →
      plain width body fuel s = plain width body (width - s.x) s
  | 0, s, h => by rw [show width - s.x = 0 by omega]
  | fuel + 1, s, h => by
    by_cases hg : 0 < s.regs.count ∧ s.x < width
    · rw [show width - s.x = width - s.x - 1 + 1 by omega, plain_succ hg, plain_succ hg]
      rcases hs : step body s with ⟨u, t⟩ | ⟨e, t⟩
      · have hx := (step_keeps hbody hs).1
        rw [EStateM.bind_of_ok hs, EStateM.bind_of_ok hs,
          plain_of_fuel_le hbody fuel t (by omega),
          show width - s.x - 1 = width - t.x by omega]
      · rw [EStateM.bind_of_error hs, EStateM.bind_of_error hs]
    · rw [plain_of_not hg, plain_of_not hg]

/-- With `count` at least one, a pass fails only as its body does: `count -= 1` cannot
wrap. -/
theorem step_error (hbody : Keeps body) {s t : Decoder}
    {e : Fault} (hc : 1 ≤ s.regs.count)
    (h : step body s = .error e t) : body s = .error e t := by
  rcases hb : body s with ⟨u, s₁⟩ | ⟨e', s₁⟩
  · rw [step_of_ok hb (hc.trans (hbody s u s₁ hb).2)] at h
    cases h
  · rwa [step_of_error hb] at h

/-- A failure within `j` passes entered with `j ≤ count` and `x + j ≤ width` is a body
statement's, run with `1 ≤ count` and `x < width`, or the continuation's. -/
theorem stepsThen_error (hbody : Keeps body) {k : DecoderM Unit}
    {e : Fault} {u : Decoder} :
    ∀ (j : Nat) (s : Decoder), j ≤ s.regs.count → s.x + j ≤ width →
      stepsThen body j k s = .error e u →
      (∃ v, 1 ≤ v.regs.count ∧ v.x < width ∧ body v = .error e u) ∨
        ∃ t, t.x = s.x + j ∧ k t = .error e u
  | 0, s, _, _, h => .inr ⟨s, rfl, h⟩
  | j + 1, s, hc, hx, h => by
    rw [stepsThen] at h
    rcases hs : step body s with ⟨_, t⟩ | ⟨e', t⟩
    · have ht := step_keeps hbody hs
      rw [EStateM.bind_of_ok hs] at h
      rcases stepsThen_error hbody j t (by omega) (by omega) h with hv | ⟨t', ht', hk⟩
      · exact .inl hv
      · exact .inr ⟨t', by omega, hk⟩
    · rw [EStateM.bind_of_error hs] at h
      cases h
      exact .inl ⟨s, by omega, by omega, step_error hbody (by omega) hs⟩

/-- The unrolled stage runs its body only where the plain loop's guard
`count > 0 && x < width` holds: a pass is entered with `count ≥ 8` and `x + 8 < width`,
and each statement lowers `count` by at most one and moves `x` on by one. -/
theorem unrolled_congr (hbody : Keeps body) {body' : DecoderM Unit}
    (hb : ∀ v, 1 ≤ v.regs.count → v.x < width → body' v = body v) :
    ∀ (fuel : Nat) (s : Decoder), unrolled width body' fuel s = unrolled width body fuel s
  | 0, _ => rfl
  | fuel + 1, s => by
    by_cases hg : 8 ≤ s.regs.count ∧ s.x + 8 < width
    · rw [unrolled_succ hg, unrolled_succ hg]
      exact stepsThen_congr hbody hb 8 s hg.1 hg.2.le fun t _ =>
        unrolled_congr hbody hb fuel t
    · rw [unrolled_of_not hg, unrolled_of_not hg]

/-- The unrolled stage fails only as a body statement fails: its `count -= 1` never goes
below zero. -/
theorem unrolled_error (hbody : Keeps body) {e : Fault} {u : Decoder} :
    ∀ (fuel : Nat) (s : Decoder), unrolled width body fuel s = .error e u →
      ∃ v, 1 ≤ v.regs.count ∧ v.x < width ∧ body v = .error e u
  | 0, _, h => by cases h
  | fuel + 1, s, h => by
    by_cases hg : 8 ≤ s.regs.count ∧ s.x + 8 < width
    · rw [unrolled_succ hg] at h
      rcases stepsThen_error hbody 8 s hg.1 hg.2.le h with hv | ⟨t, -, ht⟩
      · exact hv
      · exact unrolled_error hbody fuel t ht
    · rw [unrolled_of_not hg] at h
      cases h

/-- `repeat!` ends as the plain loop `while count > 0 && x < width { .. }` run to its
end, in the whole decoder state and in every early error; its unrolled stage runs a body
statement only inside the plain loop's guard, and fails only where a body statement
fails. -/
theorem repeatMacro_refines_plain (hbody : Keeps body) (s : Decoder) :
    (∀ fuel, width - s.x ≤ fuel → repeatMacro width body s = plain width body fuel s) ∧
      (∀ (body' : DecoderM Unit) fuel,
        (∀ v, 1 ≤ v.regs.count → v.x < width → body' v = body v) →
        unrolled width body' fuel s = unrolled width body fuel s) ∧
      ∀ fuel e u, unrolled width body fuel s = .error e u →
        ∃ v, 1 ≤ v.regs.count ∧ v.x < width ∧ body v = .error e u :=
  ⟨fun fuel h =>
      (repeatMacro_eq_plain hbody s).trans (plain_of_fuel_le hbody fuel s h).symm,
    fun _ fuel hb => unrolled_congr hbody hb fuel s,
    fun fuel _ _ => unrolled_error hbody fuel s⟩

end Loops

/-- The bicolour statement raises `count` inside the unrolled stage, on a ten-pixel row
with nine pixels to write. -/
theorem repeatMacro_refines_plain_bicolour :
    Keeps (body 8 0 0 none) ∧
      let s : Decoder :=
        ⟨⟨[], 8, false, 1, 2, 0xFFFF, 0, false, 9, 0⟩, 0, none,
          some 0, 1, List.replicate 10 0⟩
      (∀ fuel, 10 - s.x ≤ fuel →
          repeatMacro 10 (body 8 0 0 none) s = plain 10 (body 8 0 0 none) fuel s) ∧
        (∀ (body' : DecoderM Unit) fuel,
          (∀ v, 1 ≤ v.regs.count → v.x < 10 → body' v = body 8 0 0 none v) →
            unrolled 10 body' fuel s = unrolled 10 (body 8 0 0 none) fuel s) ∧
        ∀ fuel e u, unrolled 10 (body 8 0 0 none) fuel s = .error e u →
          ∃ v, 1 ≤ v.regs.count ∧ v.x < 10 ∧ body 8 0 0 none v = .error e u :=
  ⟨body_keeps 8 0 0 none, repeatMacro_refines_plain (body_keeps 8 0 0 none) _⟩

end Rdp.Codec.Rle16
