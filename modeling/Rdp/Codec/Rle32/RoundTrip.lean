import Rdp.Codec.Rle32.Encoding

namespace Rdp.Codec.Rle32

/-! Decoding an encoded image gives it back, loop by loop; within a row the decoder
reads the line below, which the row's own writes never reach. -/

/-! ### Code bytes and deltas -/

private theorem runLengths_run_table : ∀ k < 16, ∀ m < 16, (m = 0 ∨ 3 ≤ m) →
    runLengths (UInt8.ofNat (k * 16 + m)) = (m, k) := by
  decide

private theorem runLengths_long_table : ∀ n < 48, 16 ≤ n →
    runLengths (UInt8.ofNat (n % 16 * 16 + n / 16)) = (n, 0) := by
  decide

theorem runLengths_code_run {literals : List UInt8} {repeats : Nat}
    (hwf : (Segment.run literals repeats).WellFormed) :
    runLengths (Segment.run literals repeats).code = (repeats, literals.length) :=
  runLengths_run_table _ (by have := hwf.1; omega) _ (by have := hwf.2; omega)
    (hwf.2.imp_right And.left)

theorem runLengths_code_long {repeats : Nat} (hwf : (Segment.long repeats).WellFormed) :
    runLengths (Segment.long repeats).code = (repeats, 0) :=
  runLengths_long_table _ (by have := hwf.2; omega) hwf.1

set_option maxRecDepth 2000 in
private theorem deltaColor_deltaByte_table :
    ∀ n < 256, deltaColor (deltaByte (toI8 (UInt8.ofNat n))) = toI8 (UInt8.ofNat n) := by
  decide

theorem deltaColor_deltaByte (x : UInt8) : deltaColor (deltaByte (toI8 x)) = toI8 x := by
  have hx := deltaColor_deltaByte_table x.toNat x.toNat_lt_size
  rwa [show UInt8.ofNat x.toNat = x from
    UInt8.toNat.inj (UInt8.toNat_ofNat_of_lt x.toNat_lt_size)]
    at hx

/-- Adding the `i8` delta `a - b` to `b` gives `a` back. -/
theorem wrapU8_add_toI8_sub (a b : UInt8) : wrapU8 (b.toNat + toI8 (a - b)) = a := by
  have hsub : (a - b).toNat = (256 - b.toNat + a.toNat) % 256 :=
    BitVec.toNat_sub a.toBitVec b.toBitVec
  have ha : a.toNat < 256 := a.toNat_lt_size
  have hb : b.toNat < 256 := b.toNat_lt_size
  have hmod : ((b.toNat + toI8 (a - b)) % 256).toNat = a.toNat := by
    unfold toI8
    split_ifs <;> omega
  unfold wrapU8
  rw [hmod]
  exact UInt8.toNat.inj (UInt8.toNat_ofNat_of_lt ha)

/-! ### Segments as literals then repeats -/

namespace Segment

/-- The literal tokens of a segment; a long run has none. -/
def literals : Segment → List UInt8
  | run literals _ => literals
  | long _ => []

def repeats : Segment → Nat
  | run _ repeats => repeats
  | long repeats => repeats

/-- The number of tokens a segment covers. -/
def size (seg : Segment) : Nat :=
  seg.literals.length + seg.repeats

theorem runLengths_code {seg : Segment} (hwf : seg.WellFormed) :
    runLengths seg.code = (seg.repeats, seg.literals.length) := by
  cases seg with
  | run literals repeats => exact runLengths_code_run hwf
  | long repeats => exact runLengths_code_long hwf

theorem bytes_eq (seg : Segment) : seg.bytes = seg.code :: seg.literals := by
  cases seg <;> rfl

theorem last_eq (seg : Segment) (last : UInt8) :
    seg.last last = seg.literals.getLast?.getD last := by
  cases seg <;> rfl

theorem tokens_eq (seg : Segment) (last : UInt8) :
    seg.tokens last = seg.literals ++ List.replicate seg.repeats (seg.last last) := by
  cases seg <;> rfl

@[simp] theorem length_tokens (seg : Segment) (last : UInt8) :
    (seg.tokens last).length = seg.size := by
  simp [tokens_eq, size]

end Segment

@[simp] theorem length_tokens (segs : List Segment) (last : UInt8) :
    (tokens segs last).length = (segs.map Segment.size).sum := by
  induction segs generalizing last with
  | nil => rfl
  | cons seg segs ih => simp [tokens, ih]

/-- The segments `line` leaves unread: it stops once `width` tokens are written, `c` of
them being written when it comes to `segs`. -/
def unread (width : Nat) : Nat → List Segment → List Segment
  | _, [] => []
  | c, seg :: segs => if c < width then unread width (c + seg.size) segs else seg :: segs

theorem unread_of_le {width c : Nat} (h : width ≤ c) (segs : List Segment) :
    unread width c segs = segs := by
  cases segs <;> simp [unread, Nat.not_lt.mpr h]

/-! ### Rows of the output -/

/-- `output` with `values` written from `base` on, four bytes apart. -/
def fillRow (output : List UInt8) (base : Nat) : List UInt8 → List UInt8
  | [] => output
  | v :: vs => fillRow (output.set base v) (base + 4) vs

/-- The bytes the decoder writes for `tokens` from column `c` on, the line below being
read in `output`. -/
def decodeRow (lastLine : Nat) (output : List UInt8) (c : Nat) : List UInt8 → List UInt8
  | [] => []
  | t :: ts =>
    cellValue lastLine output c (literalColor lastLine t) ::
      decodeRow lastLine output (c + 1) ts

@[simp] theorem length_fillRow (output : List UInt8) (base : Nat) (values : List UInt8) :
    (fillRow output base values).length = output.length := by
  induction values generalizing output base with
  | nil => rfl
  | cons v vs ih => simp [fillRow, ih]

theorem fillRow_append_singleton (output : List UInt8) (base : Nat) (values : List UInt8)
    (v : UInt8) :
    fillRow output base (values ++ [v]) =
      (fillRow output base values).set (base + 4 * values.length) v := by
  induction values generalizing output base with
  | nil => rfl
  | cons w ws ih =>
    rw [List.cons_append, fillRow, fillRow, ih, List.length_cons,
      show base + 4 + 4 * ws.length = base + 4 * (ws.length + 1) by omega]

theorem getD_fillRow_of_le {output : List UInt8} {base i : Nat} {values : List UInt8}
    (h : base + 4 * values.length ≤ i) (d : UInt8) :
    (fillRow output base values).getD i d = output.getD i d := by
  induction values generalizing output base with
  | nil => rfl
  | cons v vs ih =>
    simp only [List.length_cons] at h
    rw [fillRow, ih (by omega)]
    simp only [List.getD_eq_getElem?_getD, List.getElem?_set_ne (show base ≠ i by omega)]

@[simp] theorem length_decodeRow (lastLine : Nat) (output : List UInt8) (c : Nat)
    (tokens : List UInt8) :
    (decodeRow lastLine output c tokens).length = tokens.length := by
  induction tokens generalizing c with
  | nil => rfl
  | cons t ts ih => simp [decodeRow, ih]

theorem decodeRow_append (lastLine : Nat) (output : List UInt8) (c : Nat)
    (ts us : List UInt8) :
    decodeRow lastLine output c (ts ++ us) =
      decodeRow lastLine output c ts ++ decodeRow lastLine output (c + ts.length) us := by
  induction ts generalizing c with
  | nil => rfl
  | cons t ts ih =>
    rw [List.cons_append, decodeRow, decodeRow, ih, List.length_cons,
      show c + 1 + ts.length = c + (ts.length + 1) by omega]
    rfl

theorem getElem?_fillRow {output : List UInt8} {base : Nat} {values : List UInt8}
    (hfit : base + 4 * values.length ≤ output.length + 3) (i : Nat) :
    (fillRow output base values)[i]? =
      if base ≤ i ∧ (i - base) % 4 = 0 ∧ (i - base) / 4 < values.length then
        values[(i - base) / 4]?
      else output[i]? := by
  induction values generalizing output base with
  | nil => simp [fillRow]
  | cons v vs ih =>
    simp only [List.length_cons] at hfit
    rw [fillRow, ih (by simp; omega), List.getElem?_set]
    by_cases hbase : i = base
    · subst hbase
      simp [show i < output.length by omega]
    · by_cases hnext : base + 4 ≤ i ∧ (i - (base + 4)) % 4 = 0 ∧
        (i - (base + 4)) / 4 < vs.length
      · rw [if_pos hnext, if_pos (by simp; omega),
          show (i - base) / 4 = (i - (base + 4)) / 4 + 1 by omega,
          List.getElem?_cons_succ]
      · rw [if_neg hnext, if_neg (Ne.symm hbase), if_neg (by simp; omega)]

theorem getElem?_decodeRow (lastLine : Nat) (output : List UInt8)
    (c : Nat) (tokens : List UInt8)
    (j : Nat) :
    (decodeRow lastLine output c tokens)[j]? =
      tokens[j]?.map fun t => cellValue lastLine output (c + j)
        (literalColor lastLine t) := by
  induction tokens generalizing c j with
  | nil => simp [decodeRow]
  | cons t ts ih =>
    cases j with
    | zero => simp [decodeRow]
    | succ j => simp [decodeRow, ih, Nat.add_right_comm, Nat.add_assoc]

/-! ### Steps within a row -/

/-- The row at `base`, `width` pixels wide with the line below at `lastLine` (`0` on the
first row), lies inside `output` and inside `u32` offsets, below the line it reads. -/
structure RowFits (width lastLine base : Nat) (output : List UInt8) : Prop where
  write : base + 4 * width ≤ output.length + 3
  limit : base + 4 * width < 2 ^ 32
  below : lastLine ≠ 0 →
    base ≤ lastLine ∧ lastLine + 4 * width ≤ output.length + 3 ∧
      lastLine + 4 * width < 2 ^ 32

/-- The decoder at column `done.length` of the row at `base`, having written the row's
first tokens `done`, the line below being read in `output`. -/
structure AtColumn (lastLine base : Nat)
    (output done : List UInt8) (s : Plane) : Prop where
  out : s.out = base + 4 * done.length
  indexw : s.indexw = done.length
  filled : s.output = fillRow output base (decodeRow lastLine output 0 done)

section Row

variable {width lastLine base : Nat} {output : List UInt8}

/-- One pixel: the colour of token `t` computed, then written at the next column. -/
theorem pixel_step (hfits : RowFits width lastLine base output)
    {done : List UInt8} {s : Plane}
    (hat : AtColumn lastLine base output done s) (hc : done.length < width) (t : UInt8) :
    ∃ s', value lastLine (literalColor lastLine t) s =
        .ok (cellValue lastLine output done.length (literalColor lastLine t)) s ∧
      emit (cellValue lastLine output done.length (literalColor lastLine t)) s =
        .ok () s' ∧
      AtColumn lastLine base output (done ++ [t]) s' ∧ s'.input = s.input := by
  have hlength : s.output.length = output.length := by simp [hat.filled]
  have hread : cellValue lastLine s.output s.indexw (literalColor lastLine t) =
      cellValue lastLine output done.length (literalColor lastLine t) := by
    by_cases h : lastLine = 0
    · simp [cellValue, h]
    · have := (hfits.below h).1
      simp only [cellValue, h, if_false, hat.filled, hat.indexw,
        getD_fillRow_of_le (show base + 4 * (decodeRow lastLine output 0 done).length ≤
          lastLine + done.length * 4 by simp; omega)]
  refine ⟨_, hread ▸ value_eq fun h => ?_, emit_eq ?_ ?_ ?_, ⟨?_, ?_, ?_⟩, rfl⟩
  · have := hfits.below h; rw [hlength, hat.indexw, Nat.lt_min]; omega
  · rw [hlength, hat.out]; have := hfits.write; omega
  · rw [hat.out]; have := hfits.limit; omega
  · rw [hat.indexw]; have := hfits.limit; omega
  · simp only [hat.out, List.length_append, List.length_singleton]; omega
  · simp only [hat.indexw, List.length_append, List.length_singleton]
  · simp only [hat.filled, hat.out, decodeRow_append, decodeRow, fillRow_append_singleton,
      length_decodeRow, Nat.zero_add]

theorem AtColumn.withInput {done : List UInt8} {s : Plane}
    (hat : AtColumn lastLine base output done s) (input : List UInt8) :
    AtColumn lastLine base output done { s with input } :=
  ⟨hat.out, hat.indexw, hat.filled⟩

/-- `while collen > 0`: the literal tokens read and written; the colour returned is the
last literal's, or the one before when there is none. -/
theorem literals_eq (hfits : RowFits width lastLine base output) {rest : List UInt8} :
    ∀ (literals : List UInt8) (last : UInt8) {done : List UInt8} {s : Plane},
      AtColumn lastLine base output done s → s.input = literals ++ rest →
      done.length + literals.length ≤ width →
      ∃ s', Rle32.literals lastLine literals.length (literalColor lastLine last) s =
          .ok (literalColor lastLine (literals.getLast?.getD last)) s' ∧
        AtColumn lastLine base output (done ++ literals) s' ∧ s'.input = rest
  | [], _, done, s, hat, hin, _ => ⟨s, rfl, by simpa using hat, by simpa using hin⟩
  | t :: ts, last, done, s, hat, hin, hc => by
    obtain ⟨s₁, hvalue, hemit, hat₁, hin₁⟩ :=
      pixel_step hfits (hat.withInput (ts ++ rest)) (by simp at hc; omega) t
    obtain ⟨s₂, hrun, hat₂, hin₂⟩ :=
      literals_eq hfits ts t hat₁ hin₁ (by simp at hc ⊢; omega)
    refine ⟨s₂, ?_, by simpa using hat₂, hin₂⟩
    rw [List.length_cons, Rle32.literals,
      EStateM.bind_of_ok (readU8_of_input (show s.input = t :: (ts ++ rest) from hin)),
      EStateM.bind_of_ok hvalue, EStateM.bind_of_ok hemit, hrun, List.getLast?_cons]
    rfl

/-- `while replen > 0`: `repeats` copies of the token whose colour is carried. -/
theorem repeats_eq (hfits : RowFits width lastLine base output) (token : UInt8) :
    ∀ (repeats : Nat) {done : List UInt8} {s : Plane},
      AtColumn lastLine base output done s → done.length + repeats ≤ width →
      ∃ s', Rle32.repeats lastLine (literalColor lastLine token) repeats s = .ok () s' ∧
        AtColumn lastLine base output (done ++ List.replicate repeats token) s' ∧
        s'.input = s.input
  | 0, done, s, hat, _ => ⟨s, rfl, by simpa using hat, rfl⟩
  | repeats + 1, done, s, hat, hc => by
    obtain ⟨s₁, hvalue, hemit, hat₁, hin₁⟩ := pixel_step hfits hat (by omega) token
    obtain ⟨s₂, hrun, hat₂, hin₂⟩ := repeats_eq hfits token repeats hat₁ (by simp; omega)
    refine ⟨s₂, ?_, by simpa [List.replicate_succ] using hat₂, hin₂.trans hin₁⟩
    rw [Rle32.repeats, EStateM.bind_of_ok hvalue, EStateM.bind_of_ok hemit, hrun]

/-- One segment of the row: its code byte, literals and repeats; the colour returned is
the colour of the segment's last token. -/
theorem segment_eq (hfits : RowFits width lastLine base output) {seg : Segment}
    (hwf : seg.WellFormed) (last : UInt8) {done rest : List UInt8} {s : Plane}
    (hat : AtColumn lastLine base output done s) (hin : s.input = seg.bytes ++ rest)
    (hc : done.length + seg.size ≤ width) :
    ∃ s', segment lastLine (literalColor lastLine last) s =
        .ok (literalColor lastLine (seg.last last)) s' ∧
      AtColumn lastLine base output (done ++ seg.tokens last) s' ∧ s'.input = rest := by
  rw [Segment.bytes_eq, List.cons_append] at hin
  obtain ⟨s₁, hlits, hat₁, hin₁⟩ := literals_eq hfits seg.literals last
    (hat.withInput (seg.literals ++ rest)) rfl (by simp only [Segment.size] at hc; omega)
  obtain ⟨s₂, hreps, hat₂, hin₂⟩ := repeats_eq hfits (seg.literals.getLast?.getD last)
    seg.repeats hat₁ (by simp only [Segment.size, List.length_append] at hc ⊢; omega)
  refine ⟨s₂, ?_,
    by simpa [Segment.tokens_eq, Segment.last_eq] using hat₂, hin₂.trans hin₁⟩
  rw [segment, EStateM.bind_of_ok (readU8_of_input hin)]
  simp only [Segment.runLengths_code hwf]
  rw [EStateM.bind_of_ok hlits, EStateM.bind_of_ok hreps, Segment.last_eq]
  rfl

/-- The loop over a row's segments: it writes their tokens and stops at `width`, leaving
the segments after that unread. -/
theorem line_eq (hfits : RowFits width lastLine base output) {rest : List UInt8} :
    ∀ (segs : List Segment) (last : UInt8) (fuel : Nat) {done : List UInt8} {s : Plane},
      (∀ seg ∈ segs, seg.WellFormed) → AtColumn lastLine base output done s →
      s.input = segs.flatMap Segment.bytes ++ rest → s.input.length ≤ fuel →
      done.length + (tokens segs last).length = width →
      ∃ s', line lastLine width fuel (literalColor lastLine last) s = .ok () s' ∧
        AtColumn lastLine base output (done ++ tokens segs last) s' ∧
        s'.input = (unread width done.length segs).flatMap Segment.bytes ++ rest
  | [], last, fuel, done, s, _, hat, hin, _, hsum => by
    simp only [tokens, List.length_nil, Nat.add_zero] at hsum
    exact ⟨s, line_of_le (by rw [hat.indexw, hsum]), by simpa [tokens] using hat,
      by simpa [unread] using hin⟩
  | seg :: segs, last, fuel, done, s, hwf, hat, hin, hfuel, hsum => by
    by_cases hfull : width ≤ done.length
    · have htokens : tokens (seg :: segs) last = [] :=
        List.eq_nil_of_length_eq_zero (by omega)
      exact ⟨s, line_of_le (by rw [hat.indexw]; exact hfull),
        by simpa [htokens] using hat, by rw [hin, unread_of_le hfull]⟩
    · have hsize : done.length + seg.size ≤ width := by
        simp only [tokens, List.length_append, Segment.length_tokens] at hsum; omega
      rw [List.flatMap_cons, List.append_assoc] at hin
      obtain ⟨s₁, hseg, hat₁, hin₁⟩ :=
        segment_eq hfits (hwf seg (.head _)) last hat hin hsize
      cases fuel with
      | zero => simp [hin, Segment.bytes_eq] at hfuel
      | succ fuel =>
        obtain ⟨s₂, hline, hat₂, hin₂⟩ := line_eq hfits segs (seg.last last) fuel
          (fun seg h => hwf seg (.tail _ h)) hat₁ hin₁
          (by rw [hin, Segment.bytes_eq] at hfuel; rw [hin₁]; simp at hfuel ⊢; omega)
          (by simp only [tokens, List.length_append] at hsum ⊢; omega)
        refine ⟨s₂, ?_, by simpa [tokens] using hat₂, ?_⟩
        · rw [line_succ_of_lt (by rw [hat.indexw]; omega), EStateM.bind_of_ok hseg, hline]
        · rw [hin₂, unread, if_pos (by omega)]
          simp [Segment.length_tokens]

end Row

/-! ### Segments that cover no token -/

/-- Segments that cover no token, as `line` can leave unread at the end of a row. -/
def Empty (pending : List Segment) : Prop :=
  ∀ seg ∈ pending, seg.WellFormed ∧ seg.size = 0

theorem tokens_append_of_empty {pending : List Segment} (hempty : Empty pending)
    (segs : List Segment) (last : UInt8) :
    tokens (pending ++ segs) last = tokens segs last := by
  induction pending with
  | nil => rfl
  | cons seg pending ih =>
    have hsize := (hempty seg (.head _)).2
    unfold Segment.size at hsize
    have hnil : seg.literals = [] := List.eq_nil_of_length_eq_zero (by omega)
    have hrepeats : seg.repeats = 0 := by omega
    simp only [List.cons_append, tokens, Segment.tokens_eq, Segment.last_eq, hnil,
      hrepeats, List.replicate_zero, List.append_nil, List.nil_append, List.getLast?_nil,
      Option.getD_none]
    exact ih fun seg h => hempty seg (.tail _ h)

theorem size_le_sum {segs : List Segment} {seg : Segment} (h : seg ∈ segs) :
    seg.size ≤ (segs.map Segment.size).sum := by
  induction segs with
  | nil => nomatch h
  | cons seg' segs ih =>
    simp only [List.map_cons, List.sum_cons]
    rcases List.mem_cons.mp h with rfl | h
    · omega
    · have := ih h; omega

theorem unread_empty {width : Nat} :
    ∀ (c : Nat) (segs : List Segment), (∀ seg ∈ segs, seg.WellFormed) →
      c + (segs.map Segment.size).sum = width → Empty (unread width c segs)
  | _, [], _, _ => fun _ h => nomatch h
  | c, seg :: segs, hwf, hsum => by
    simp only [List.map_cons, List.sum_cons] at hsum
    rw [unread]
    split_ifs with hc
    · exact unread_empty _ segs (fun seg h => hwf seg (.tail _ h)) (by omega)
    · intro seg' h
      have := size_le_sum h
      simp only [List.map_cons, List.sum_cons] at this
      exact ⟨hwf seg' h, by omega⟩

theorem literalColor_zero (lastLine : Nat) : literalColor lastLine 0 = 0 := by
  unfold literalColor; split_ifs <;> decide

/-! ### Planes -/

/-- Where the row decoded before row `r` starts, or `0` when `r` is the first row
decoded. -/
def rowLastLine (width height r : Nat) : Nat :=
  if r + 1 = height then 0 else (r + 1) * width * 4

/-- A plane slice once rows `r` to `height - 1` are decoded over `slice`: byte
`4 * (r' * width + c)` holds pixel `(r', c)` for `r ≤ r'`, and the other bytes are those
of `slice`. -/
def PlaneDecoded (plane : Nat → Nat → UInt8) (width height r : Nat)
    (slice decoded : List UInt8) :
    Prop :=
  decoded.length = slice.length ∧ ∀ i, decoded[i]? =
    if i % 4 = 0 ∧ r * width ≤ i / 4 ∧ i / 4 < height * width then
      some (plane (i / 4 / width) (i / 4 % width))
    else slice[i]?

theorem div_mod_of_lt {r c width : Nat} (hc : c < width) :
    (r * width + c) / width = r ∧ (r * width + c) % width = c := by
  have hw : 0 < width := by omega
  constructor
  · rw [Nat.add_comm, Nat.add_mul_div_right _ _ hw, Nat.div_eq_of_lt hc, Nat.zero_add]
  · rw [Nat.add_comm, Nat.add_mul_mod_self_right, Nat.mod_eq_of_lt hc]

theorem wrapU8_toNat (x : UInt8) : wrapU8 x.toNat = x := by
  have hx : x.toNat < 256 := x.toNat_lt_size
  unfold wrapU8
  rw [show ((x.toNat : Int) % 256).toNat = x.toNat by omega]
  exact UInt8.toNat.inj (UInt8.toNat_ofNat_of_lt hx)

theorem planeDecoded_height {plane : Nat → Nat → UInt8}
    {width height : Nat} (slice : List UInt8) :
    PlaneDecoded plane width height height slice slice :=
  ⟨rfl, fun i => by rw [if_neg (by omega)]⟩

/-- The byte decoded from the token of pixel `(r, c)` is the pixel: on the first row the
token is the pixel, on the others the delta to the pixel below, which the slice holds. -/
theorem cellValue_token {plane : Nat → Nat → UInt8}
    {width height r c : Nat} {decoded : List UInt8}
    (hw : 0 < width) (hr : r < height) (hbelow : r + 1 < height →
      decoded.getD ((r + 1) * width * 4 + c * 4) 0 = plane (r + 1) c) :
    cellValue (rowLastLine width height r) decoded c
      (literalColor (rowLastLine width height r) (if r + 1 = height then plane r c
        else deltaByte (toI8 (plane r c - plane (r + 1) c)))) = plane r c := by
  by_cases hfirst : r + 1 = height
  · simp [rowLastLine, hfirst, cellValue, literalColor, wrapU8_toNat]
  · have hpos : (r + 1) * width * 4 ≠ 0 := by
      have := Nat.mul_le_mul_right width (show 1 ≤ r + 1 by omega); omega
    simp only [rowLastLine, hfirst, if_false, cellValue, literalColor, hpos,
      deltaColor_deltaByte, hbelow (by omega), wrapU8_add_toI8_sub]


theorem PlaneDecoded.getD {plane : Nat → Nat → UInt8} {width height r : Nat}
    {slice decoded : List UInt8} (hdec : PlaneDecoded plane width height r slice decoded)
    {r' c : Nat} (hr : r ≤ r') (hr' : r' < height) (hc : c < width) :
    decoded.getD (r' * width * 4 + c * 4) 0 = plane r' c := by
  have hrow : (r' + 1) * width ≤ height * width := Nat.mul_le_mul_right _ hr'
  have hmono : r * width ≤ r' * width := Nat.mul_le_mul_right _ hr
  have hsucc : (r' + 1) * width = r' * width + width := Nat.succ_mul r' width
  have hdiv := div_mod_of_lt (r := r') hc
  rw [List.getD_eq_getElem?_getD, hdec.2, if_pos (by omega),
    show (r' * width * 4 + c * 4) / 4 = r' * width + c by omega, hdiv.1, hdiv.2]
  rfl

/-- Decoding row `r` over a slice whose rows below it are decoded. -/
theorem PlaneDecoded.row {plane : Nat → Nat → UInt8} {width height r : Nat}
    {slice decoded : List UInt8} (hw : 0 < width) (hr : r < height)
    (hslice : height * width * 4 ≤ slice.length + 3)
    (hdec : PlaneDecoded plane width height (r + 1) slice decoded) :
    PlaneDecoded plane width height r slice (fillRow decoded (r * width * 4)
      (decodeRow (rowLastLine width height r) decoded 0
        (rowTokens plane width height r))) := by
  have hrow : (r + 1) * width ≤ height * width := Nat.mul_le_mul_right _ hr
  have hsucc : (r + 1) * width = r * width + width := Nat.succ_mul r width
  refine ⟨by simp [hdec.1], fun i => ?_⟩
  rw [getElem?_fillRow (by simp [rowTokens, hdec.1]; omega), hdec.2]
  simp only [length_decodeRow, rowTokens, List.length_map, List.length_range]
  by_cases hin : r * width * 4 ≤ i ∧ (i - r * width * 4) % 4 = 0 ∧
    (i - r * width * 4) / 4 < width
  · have hc := hin.2.2
    have hdiv := div_mod_of_lt (r := r) hc
    rw [if_pos hin, if_pos (by omega), getElem?_decodeRow, List.getElem?_map,
      List.getElem?_range hc, Option.map_some', Option.map_some', Nat.zero_add,
      cellValue_token hw hr fun h => hdec.getD (Nat.le_refl _) h hc,
      show i / 4 = r * width + (i - r * width * 4) / 4 by omega, hdiv.1, hdiv.2]
  · rw [if_neg hin]
    split_ifs <;> first | rfl | omega

section Plane

variable {plane : Nat → Nat → UInt8} {segments : Nat → List Segment} {width height : Nat}
  {slice rest : List UInt8}

/-- The loop over the plane's rows, from row `n - 1` down: each row's segments, after
what the row before left unread, decode to the row. -/
theorem rows_eq (hw : 0 < width) (hsize : height * width * 4 < 2 ^ 32)
    (hslice : height * width * 4 ≤ slice.length + 3)
    (hwf : ∀ r < height, ∀ seg ∈ segments r, seg.WellFormed)
    (htokens : ∀ r < height, tokens (segments r) 0 = rowTokens plane width height r) :
    ∀ (n : Nat) {lastLine : Nat} {pending : List Segment} {s : Plane}, n ≤ height →
      (n < height → lastLine = n * width * 4) → (n = height → lastLine = 0) →
      Empty pending →
      PlaneDecoded plane width height n slice s.output →
      s.input = pending.flatMap Segment.bytes ++ rowsBytes segments n ++ rest →
      ∃ s' pending', rows width height n (height - n) lastLine s = .ok () s' ∧
        PlaneDecoded plane width height 0 slice s'.output ∧ Empty pending' ∧
        s'.input = pending'.flatMap Segment.bytes ++ rest
  | 0, _, pending, s, _, _, _, hempty, hdec, hin =>
      ⟨s, pending, rfl, hdec, hempty, by simpa [rowsBytes] using hin⟩
  | m + 1, lastLine, pending, s, hn, hlast, hfirst, hempty, hdec, hin => by
    have hrow : (m + 1) * width ≤ height * width := Nat.mul_le_mul_right _ hn
    have hsucc : (m + 1) * width = m * width + width := Nat.succ_mul m width
    have hindexh : height - (height - (m + 1)) - 1 = m := by omega
    have hlastLine : lastLine = rowLastLine width height m := by
      unfold rowLastLine; split_ifs <;> omega
    have hlength : s.output.length = slice.length := hdec.1
    have hfits : RowFits width lastLine (m * width * 4) s.output := by
      refine ⟨by omega, by omega, fun hne => ?_⟩
      have hm : m + 1 < height := by by_contra; exact hne (hfirst (by omega))
      have hbelow : (m + 2) * width ≤ height * width := Nat.mul_le_mul_right _ hm
      have htwo : (m + 2) * width = (m + 1) * width + width := Nat.succ_mul (m + 1) width
      rw [hlast hm]; omega
    have htok : tokens (pending ++ segments m) 0 = rowTokens plane width height m := by
      rw [tokens_append_of_empty hempty, htokens m (by omega)]
    have hat₀ : AtColumn lastLine (m * width * 4) s.output []
        { s with out := m * width * 4, indexw := 0 } :=
      ⟨by simp, rfl, by simp [decodeRow, fillRow]⟩
    have hin' : s.input = (pending ++ segments m).flatMap Segment.bytes ++
        (rowsBytes segments m ++ rest) := by
      rw [hin, rowsBytes, List.flatMap_append]; simp only [List.append_assoc]
    obtain ⟨s₁, hline, hat₁, hin₁⟩ :=
      line_eq hfits (pending ++ segments m) 0 s.input.length
        (fun seg h => (List.mem_append.mp h).elim (fun h => (hempty seg h).1)
          (hwf m (by omega) seg))
        hat₀ hin' le_rfl (by rw [htok]; simp [rowTokens])
    rw [literalColor_zero] at hline
    have hdec₁ : PlaneDecoded plane width height m slice s₁.output := by
      rw [hat₁.filled, List.nil_append, htok, hlastLine]
      exact hdec.row hw (by omega) hslice
    have hsum : 0 + ((pending ++ segments m).map Segment.size).sum = width := by
      rw [← length_tokens _ 0, htok]; simp [rowTokens]
    obtain ⟨s₂, pending', hrows, hdec₂, hempty₂, hin₂⟩ :=
      rows_eq hw hsize hslice hwf htokens m (by omega) (fun _ => rfl)
        (fun h => absurd h (by omega))
        (unread_empty 0 _
          (fun seg h => (List.mem_append.mp h).elim (fun h => (hempty seg h).1)
            (hwf m (by omega) seg)) hsum)
        hdec₁ (by rw [hin₁]; simp only [List.append_assoc]; rfl)
    refine ⟨s₂, pending', ?_, hdec₂, hempty₂, hin₂⟩
    rw [rows_succ (by rw [hindexh]; omega), hindexh, EStateM.bind_of_ok hline,
      show height - (m + 1) + 1 = height - m by omega, hrows]

/-- A whole plane, decoded into the slice `output[start..]`. -/
theorem planeAt_eq (hw : 0 < width) (hh : 0 < height)
    (hsize : height * width * 4 < 2 ^ 32)
    {start : Nat}
    (hstart : start ≤ 3) (hwf : ∀ r < height, ∀ seg ∈ segments r, seg.WellFormed)
    (htokens : ∀ r < height, tokens (segments r) 0 = rowTokens plane width height r)
    {pending : List Segment} {s : Plane} (hlength : s.output.length = height * width * 4)
    (hempty : Empty pending)
    (hin : s.input = pending.flatMap Segment.bytes ++ rowsBytes segments height ++ rest) :
    ∃ decoded pending' t, planeAt width height start s = .ok () t ∧
      t.output = s.output.take start ++ decoded ∧
      PlaneDecoded plane width height 0 (s.output.drop start) decoded ∧ Empty pending' ∧
      t.input = pending'.flatMap Segment.bytes ++ rest := by
  obtain ⟨t, pending', hrows, hdec, hempty', hin'⟩ :=
    rows_eq hw hsize (by simp; omega) hwf htokens height le_rfl
      (fun h => absurd h (Nat.lt_irrefl _)) (fun _ => rfl) hempty
      (planeDecoded_height (s.output.drop start))
        (s := { s with output := s.output.drop start }) hin
  refine ⟨t.output, pending',
    { t with output := s.output.take start ++ t.output }, ?_, rfl, hdec, hempty', hin'⟩
  have hpos : 0 < height * width := Nat.mul_pos hh hw
  rw [Nat.sub_self] at hrows
  simp only [planeAt, processPlane, hrows,
    if_neg (show ¬s.output.length < start by omega)]

end Plane

/-! ### The four planes -/

/-- The output once the planes at byte offsets `start` to `3` are decoded over `output`:
byte `i` of a decoded plane holds pixel `(i / 4 / width, i / 4 % width)` of plane
`3 - i % 4`. -/
def ImageDecoded (planes : Fin 4 → Nat → Nat → UInt8) (width height start : Nat)
    (output decoded : List UInt8) : Prop :=
  decoded.length = output.length ∧ ∀ i, decoded[i]? =
    if start ≤ i % 4 ∧ i < height * width * 4 then
      some (planes ⟨3 - i % 4, by omega⟩ (i / 4 / width) (i / 4 % width))
    else output[i]?

theorem imageDecoded_four (planes : Fin 4 → Nat → Nat → UInt8) (width height : Nat)
    (output : List UInt8) : ImageDecoded planes width height 4 output output :=
  ⟨rfl, fun i => by rw [if_neg (by omega)]⟩

theorem encodedImage_eq (segments : Fin 4 → Nat → List Segment) (height : Nat) :
    encodedImage segments height = 0x10 :: (rowsBytes (segments 0) height ++
      (rowsBytes (segments 1) height ++ (rowsBytes (segments 2) height ++
        rowsBytes (segments 3) height))) := by
  simp [encodedImage]

section Image

variable {planes : Fin 4 → Nat → Nat → UInt8} {width height : Nat} {output : List UInt8}

/-- One plane of the four: the plane decoded at offset `start` is plane `3 - start`. -/
theorem planeAt_decodes (hw : 0 < width) (hh : 0 < height)
    (hsize : height * width * 4 < 2 ^ 32)
    {start : Nat} (hstart : start ≤ 3) {p : Fin 4} (hp : p.val + start = 3)
    {segments : Nat → List Segment}
    (hwf : ∀ r < height, ∀ seg ∈ segments r, seg.WellFormed)
    (htokens : ∀ r < height, tokens (segments r) 0 = rowTokens (planes p) width height r)
    (hlength : output.length = height * width * 4) {pending : List Segment} {s : Plane}
    (himg : ImageDecoded planes width height (start + 1) output s.output)
    (hempty : Empty pending)
    (rest : List UInt8)
    (hin : s.input = pending.flatMap Segment.bytes ++ rowsBytes segments height ++ rest) :
    ∃ pending' t, planeAt width height start s = .ok () t ∧
      ImageDecoded planes width height start output t.output ∧ Empty pending' ∧
      t.input = pending'.flatMap Segment.bytes ++ rest := by
  have hpos : 0 < height * width := Nat.mul_pos hh hw
  have hs : s.output.length = height * width * 4 := himg.1.trans hlength
  obtain ⟨decoded, pending', t, hplane, hout, hdec, hempty', hin'⟩ :=
    planeAt_eq hw hh hsize hstart hwf htokens hs hempty hin
  refine ⟨pending', t, hplane, ⟨?_, fun i => ?_⟩, hempty', hin'⟩
  · simp only [hout, List.length_append, List.length_take, hdec.1,
      List.length_drop, hs, hlength]
    omega
  rw [hout]
  by_cases hi : i < start
  · rw [List.getElem?_append_left (by simp; omega), List.getElem?_take_of_lt hi, himg.2,
      if_neg (by omega), if_neg (by omega)]
  · rw [List.getElem?_append_right (by simp; omega), hdec.2, List.getElem?_drop]
    simp only [List.length_take, hs, Nat.zero_mul, Nat.zero_le, true_and,
      show min start (height * width * 4) = start by omega,
      show start + (i - start) = i by omega, himg.2]
    by_cases hplane : i % 4 = start
    · have hq : (i - start) / 4 = i / 4 := by omega
      have hfin : (⟨3 - i % 4, by omega⟩ : Fin 4) = p := Fin.ext (by simp only; omega)
      rw [hq, hfin]
      split_ifs <;> first | rfl | omega
    · rw [if_neg (by omega)]
      split_ifs <;> first | rfl | omega

/-- The header, then the four planes in turn, each after what the one before left
unread. -/
theorem decompress_eq (hw : 0 < width) (hh : 0 < height)
    (hsize : height * width * 4 < 2 ^ 32)
    {segments : Fin 4 → Nat → List Segment}
    (hwf : ∀ p, ∀ r < height, ∀ seg ∈ segments p r, seg.WellFormed)
    (htokens :
      ∀ p, ∀ r < height, tokens (segments p r) 0 = rowTokens (planes p) width height r)
    (hlength : output.length = height * width * 4) :
    ∃ t, decompress width height ⟨encodedImage segments height, output, 0, 0⟩ = .ok () t ∧
      ImageDecoded planes width height 0 output t.output := by
  obtain ⟨p₃, t₃, h₃, himg₃, hempty₃, hin₃⟩ := planeAt_decodes hw hh hsize (by omega)
    (show (0 : Fin 4).val + 3 = 3 from rfl) (hwf 0) (htokens 0) hlength
    (imageDecoded_four planes width height output)
    (show Empty ([] : List Segment) from fun _ h => nomatch h)
    (s := ⟨rowsBytes (segments 0) height ++ _, output, 0, 0⟩)
    (rowsBytes (segments 1) height ++ (rowsBytes (segments 2) height ++
      rowsBytes (segments 3) height)) rfl
  obtain ⟨p₂, t₂, h₂, himg₂, hempty₂, hin₂⟩ := planeAt_decodes hw hh hsize (by omega)
    (show (1 : Fin 4).val + 2 = 3 from rfl) (hwf 1) (htokens 1) hlength himg₃ hempty₃
    (rowsBytes (segments 2) height ++ rowsBytes (segments 3) height)
    (by rw [hin₃, List.append_assoc])
  obtain ⟨p₁, t₁, h₁, himg₁, hempty₁, hin₁⟩ := planeAt_decodes hw hh hsize (by omega)
    (show (2 : Fin 4).val + 1 = 3 from rfl) (hwf 2) (htokens 2) hlength himg₂ hempty₂
    (rowsBytes (segments 3) height) (by rw [hin₂, List.append_assoc])
  obtain ⟨p₀, t₀, h₀, himg₀, -, -⟩ := planeAt_decodes hw hh hsize (by omega)
    (show (3 : Fin 4).val + 0 = 3 from rfl) (hwf 3) (htokens 3) hlength himg₁ hempty₁ []
    (by rw [hin₁, List.append_nil])
  refine ⟨t₀, ?_, himg₀⟩
  rw [decompress, EStateM.bind_of_ok (readU8_of_input (encodedImage_eq segments height))]
  simp only [ne_eq, not_true_eq_false, if_false]
  rw [EStateM.bind_of_ok (EStateM.pure_apply _), EStateM.bind_of_ok h₃,
    EStateM.bind_of_ok h₂, EStateM.bind_of_ok h₁, h₀]

/-- Once all four planes are decoded over an output of the image's size, the output is the
image. -/
theorem ImageDecoded.eq_image (hlength : output.length = height * width * 4)
    {decoded : List UInt8}
    (himg : ImageDecoded planes width height 0 output decoded) :
    decoded = image planes width height := by
  apply List.ext_getElem?
  intro i
  rw [himg.2, image, List.getElem?_map]
  by_cases hi : i < height * width * 4
  · rw [if_pos ⟨Nat.zero_le _, hi⟩, List.getElem?_range (by rwa [show 4 * width * height =
      height * width * 4 by ac_rfl])]
    rfl
  · rw [if_neg (by omega), List.getElem?_eq_none (by omega), List.getElem?_eq_none (by
      simp only [List.length_range,
        show 4 * width * height = height * width * 4 by ac_rfl]
      omega)]
    rfl

end Image

/-- Byte `k` of pixel `(r, c)` of the image is pixel `(r, c)` of plane `3 - k`. -/
theorem getElem?_image (planes : Fin 4 → Nat → Nat → UInt8) {width height r c k : Nat}
    (hr : r < height) (hc : c < width) (hk : k < 4) :
    (image planes width height)[4 * (r * width + c) + k]? =
      some (planes ⟨3 - k, by omega⟩ r c) := by
  have hrow : (r + 1) * width ≤ height * width := Nat.mul_le_mul_right _ hr
  have hsucc : (r + 1) * width = r * width + width := Nat.succ_mul r width
  have hdiv := div_mod_of_lt (r := r) hc
  rw [image, List.getElem?_map, List.getElem?_range (by
    rw [show 4 * width * height = height * width * 4 by ac_rfl]; omega)]
  simp only [Option.map_some',
    show (4 * (r * width + c) + k) / 4 = r * width + c by omega,
    show (4 * (r * width + c) + k) % 4 = k by omega, hdiv.1, hdiv.2]

/-- `rle_32_decompress` of an encoded image whose `u32` byte offsets stay below `2^32`
decodes the image. -/
theorem rle32Decompress_decodes (planes : Fin 4 → Nat → Nat → UInt8)
    (segments : Fin 4 → Nat → List Segment) (width height : UInt32) (output : List UInt8)
    (hw : 1 ≤ width.toNat) (hh : 1 ≤ height.toNat)
    (hsize : 4 * width.toNat * height.toNat < 2 ^ 32)
    (hwf : ∀ p, ∀ r < height.toNat, ∀ seg ∈ segments p r, seg.WellFormed)
    (htokens : ∀ p, ∀ r < height.toNat,
      tokens (segments p r) 0 = rowTokens (planes p) width.toNat height.toNat r)
    (hlength : output.length = 4 * width.toNat * height.toNat) :
    rle32Decompress (encodedImage segments height.toNat) width height output =
      (.ok (), image planes width.toNat height.toNat) := by
  have hcomm : 4 * width.toNat * height.toNat = height.toNat * width.toNat * 4 := by
    ac_rfl
  obtain ⟨t, hdec, himg⟩ :=
    decompress_eq hw hh (hcomm ▸ hsize) hwf htokens (hcomm ▸ hlength)
  simp only [rle32Decompress, hdec, himg.eq_image (hcomm ▸ hlength)]

theorem rle32Decompress_decodes_two_by_two :
    rle32Decompress (encodedImage (fun p r => [.run (rowTokens (fun r c =>
        UInt8.ofNat (p.val * 16 + r * 4 + c)) 2 2 r) 0]) 2) 2 2 (List.replicate 16 0) =
      (.ok (), image (fun p r c => UInt8.ofNat (p.val * 16 + r * 4 + c)) 2 2) :=
  rle32Decompress_decodes _ _ 2 2 _ (by decide) (by decide)
    (by decide) (by decide) (by decide)
    (by decide)

/-! ### Images of `2^32` bytes or more -/

theorem rows_overflow {width height remaining indexh lastLine : Nat} {s : Plane}
    (hrow : (height - indexh - 1) * width < 2 ^ 32)
    (hout : 2 ^ 32 ≤ (height - indexh - 1) * width * 4) :
    rows width height (remaining + 1) indexh lastLine s = .error .panic s := by
  have hpanic : checkedU32 ((height - indexh - 1) * width * 4) = .error .panic :=
    if_neg (Nat.not_lt.mpr hout)
  simp only [rows, bind, EStateM.bind, lift, checkedU32_of_lt hrow, hpanic]

/-- Whatever follows the header, a first row whose offset `(height - 1) * width * 4`
leaves `u32` makes the decoder panic, the output as it was. -/
theorem decompress_overflow {width height : Nat} {s : Plane} {rest : List UInt8}
    (hin : s.input = 0x10 :: rest) (hlength : 3 ≤ s.output.length)
    (hrow : (height - 1) * width < 2 ^ 32) (hout : 2 ^ 32 ≤ (height - 1) * width * 4) :
    decompress width height s = .error .panic { s with input := rest } := by
  obtain ⟨h, rfl⟩ : ∃ h, height = h + 1 :=
    ⟨height - 1, by cases height <;> simp at hout ⊢⟩
  have hplane : planeAt width (h + 1) 3 { s with input := rest } =
      .error .panic { s with input := rest } := by
    simp only [planeAt, processPlane, if_neg (show ¬s.output.length < 3 by omega),
      rows_overflow (show (h + 1 - 0 - 1) * width < 2 ^ 32 by simpa using hrow)
        (show 2 ^ 32 ≤ (h + 1 - 0 - 1) * width * 4 by simpa using hout),
      List.take_append_drop]
  rw [decompress, EStateM.bind_of_ok (readU8_of_input hin)]
  simp only [ne_eq, not_true_eq_false, if_false]
  rw [EStateM.bind_of_ok (EStateM.pure_apply _), EStateM.bind_of_error hplane]

theorem rle32Decompress_overflow {input rest output : List UInt8} {width height : UInt32}
    (hin : input = 0x10 :: rest) (hlength : 3 ≤ output.length)
    (hrow : (height.toNat - 1) * width.toNat < 2 ^ 32)
    (hout : 2 ^ 32 ≤ (height.toNat - 1) * width.toNat * 4) :
    rle32Decompress input width height output = (.error .panic, output) := by
  simp only [rle32Decompress,
    decompress_overflow (s := ⟨input, output, 0, 0⟩) hin hlength hrow hout]

theorem tokens_replicate_long (k n : Nat) (last : UInt8) :
    tokens (List.replicate k (.long n)) last = List.replicate (k * n) last := by
  induction k with
  | zero => simp [tokens]
  | succ k ih =>
    rw [List.replicate_succ, tokens, Segment.last, ih,
      Segment.tokens, ← List.replicate_add, Nat.succ_mul, Nat.add_comm]

theorem rowTokens_zero (width height r : Nat) :
    rowTokens (fun _ _ => 0) width height r = List.replicate width 0 := by
  simp only [rowTokens, show deltaByte (toI8 (0 - 0)) = 0 by decide, ite_self]
  simp

/-- A `2^30 × 2` image of zeros, each row written as `2^26` long runs of sixteen zeros:
the first row's offset `1 * 2^30 * 4 = 2^32` leaves `u32` and the decoder panics. -/
theorem rle32Decompress_offset_overflow :
    (∀ seg ∈ List.replicate (2 ^ 26) (Segment.long 16), seg.WellFormed) ∧
      (∀ r < 2, tokens (List.replicate (2 ^ 26) (Segment.long 16)) 0 =
        rowTokens (fun _ _ => 0) (2 ^ 30) 2 r) ∧
      rle32Decompress (encodedImage (fun _ _ => List.replicate (2 ^ 26) (.long 16)) 2)
          1073741824 2 (List.replicate (2 ^ 33) 0) =
        (.error .panic, List.replicate (2 ^ 33) 0) :=
  ⟨fun seg h => by rw [List.eq_of_mem_replicate h]; decide,
    fun r _ => by
      rw [tokens_replicate_long, rowTokens_zero, show 2 ^ 26 * 16 = 2 ^ 30 by decide],
    rle32Decompress_overflow (encodedImage_eq _ 2) (by rw [List.length_replicate]; decide)
      (by decide) (by decide)⟩

/-- Writing into `output[k..]` is writing into `output` past `k`. -/
theorem take_append_fillRow (output : List UInt8) (k base : Nat) (values : List UInt8) :
    output.take k ++ fillRow (output.drop k) base values =
      fillRow output (k + base) values := by
  induction values generalizing output base with
  | nil => exact List.take_append_drop k output
  | cons v vs ih =>
    rw [fillRow, fillRow, List.set_drop, show k + base + 4 = k + (base + 4) by omega,
      ← ih, List.set_take,
      List.set_eq_of_length_le (show (output.take k).length ≤ k + base by simp)]

theorem decodeRow_first (output : List UInt8) (c : Nat) (tokens : List UInt8) :
    decodeRow 0 output c tokens = tokens := by
  induction tokens generalizing c with
  | nil => rfl
  | cons t ts ih => simp [decodeRow, ih, cellValue, literalColor, wrapU8_toNat]

section FirstRow

/-! The first row decoded, at `base`, when its pixel `n - 1` ends at `out = 2^32`. -/

variable {n base : Nat} {output : List UInt8}

theorem rowFits_first (hlimit : base + 4 * n = 2 ^ 32)
    (hwrite : base + 4 * n ≤ output.length + 3)
    (hn : 0 < n) : RowFits (n - 1) 0 base output :=
  ⟨by omega, by omega, fun h => absurd rfl h⟩

/-- Pixel `n - 1`: its token is written, and the `out += 4` after it panics. -/
theorem pixel_overflow (hlimit : base + 4 * n = 2 ^ 32)
    (hwrite : base + 4 * n ≤ output.length + 3)
    {done : List UInt8} {s : Plane} (hat : AtColumn 0 base output done s)
    (hlast : done.length + 1 = n) (t : UInt8) :
    value 0 (literalColor 0 t) s = .ok t s ∧
      emit t s =
        .error .panic { s with output := fillRow output base (done ++ [t]) } := by
  have hlength : s.output.length = output.length := by simp [hat.filled]
  refine ⟨by simp [value, literalColor, wrapU8_toNat], ?_⟩
  rw [emit_overflow (by rw [hat.out, hlength]; omega) (by rw [hat.out]; omega),
    hat.filled, decodeRow_first, fillRow_append_singleton, hat.out]

theorem literals_overflow (hlimit : base + 4 * n = 2 ^ 32)
    (hwrite : base + 4 * n ≤ output.length + 3) {rest : List UInt8} :
    ∀ (literals : List UInt8) (last : UInt8) {done : List UInt8} {s : Plane},
      AtColumn 0 base output done s → s.input = literals ++ rest →
      done.length < n → n ≤ done.length + literals.length →
      ∃ t, Rle32.literals 0 literals.length (literalColor 0 last) s = .error .panic t ∧
        t.output = fillRow output base ((done ++ literals).take n)
  | [], _, done, s, _, _, hlt, hle => absurd hle (by simp; omega)
  | t :: ts, last, done, s, hat, hin, hlt, hle => by
    rw [List.length_cons, Rle32.literals,
      EStateM.bind_of_ok (readU8_of_input (show s.input = t :: (ts ++ rest) from hin))]
    by_cases hnext : done.length + 1 = n
    · obtain ⟨hvalue, hemit⟩ :=
        pixel_overflow hlimit hwrite (hat.withInput (ts ++ rest)) hnext t
      refine ⟨_, by rw [EStateM.bind_of_ok hvalue, EStateM.bind_of_error hemit], ?_⟩
      simp [← hnext, List.take_append_eq_append_take, List.take_of_length_le]
    · obtain ⟨s₁, hvalue, hemit, hat₁, hin₁⟩ :=
        pixel_step (rowFits_first hlimit hwrite (by omega))
          (hat.withInput (ts ++ rest)) (by omega) t
      obtain ⟨u, hrun, hu⟩ :=
        literals_overflow hlimit hwrite ts t hat₁ hin₁ (by simp; omega)
          (by simp at hle ⊢; omega)
      refine ⟨u, by rw [EStateM.bind_of_ok hvalue, EStateM.bind_of_ok hemit, hrun], ?_⟩
      simpa [decodeRow_first] using hu

theorem repeats_overflow (hlimit : base + 4 * n = 2 ^ 32)
    (hwrite : base + 4 * n ≤ output.length + 3) (token : UInt8) :
    ∀ (repeats : Nat) {done : List UInt8} {s : Plane},
      AtColumn 0 base output done s → done.length < n → n ≤ done.length + repeats →
      ∃ t, Rle32.repeats 0 (literalColor 0 token) repeats s = .error .panic t ∧
        t.output = fillRow output base ((done ++ List.replicate repeats token).take n)
  | 0, done, s, _, hlt, hle => absurd hle (by omega)
  | repeats + 1, done, s, hat, hlt, hle => by
    rw [Rle32.repeats]
    by_cases hnext : done.length + 1 = n
    · obtain ⟨hvalue, hemit⟩ := pixel_overflow hlimit hwrite hat hnext token
      refine ⟨_, by rw [EStateM.bind_of_ok hvalue, EStateM.bind_of_error hemit], ?_⟩
      simp [← hnext, List.take_append_eq_append_take,
        List.take_of_length_le, List.replicate_succ]
    · obtain ⟨s₁, hvalue, hemit, hat₁, -⟩ :=
        pixel_step (rowFits_first hlimit hwrite (by omega)) hat (by omega) token
      obtain ⟨u, hrun, hu⟩ :=
        repeats_overflow hlimit hwrite token repeats hat₁
          (by simp; omega) (by simp; omega)
      refine ⟨u, by rw [EStateM.bind_of_ok hvalue, EStateM.bind_of_ok hemit, hrun], ?_⟩
      simpa [decodeRow_first, List.replicate_succ] using hu

theorem segment_overflow (hlimit : base + 4 * n = 2 ^ 32)
    (hwrite : base + 4 * n ≤ output.length + 3) {seg : Segment} (hwf : seg.WellFormed)
    (last : UInt8) {done rest : List UInt8} {s : Plane}
    (hat : AtColumn 0 base output done s)
    (hin : s.input = seg.bytes ++ rest) (hlt : done.length < n)
    (hle : n ≤ done.length + seg.size) :
    ∃ t, segment 0 (literalColor 0 last) s = .error .panic t ∧
      t.output = fillRow output base ((done ++ seg.tokens last).take n) := by
  rw [Segment.bytes_eq, List.cons_append] at hin
  rw [segment, EStateM.bind_of_ok (readU8_of_input hin)]
  simp only [Segment.runLengths_code hwf]
  rw [Segment.tokens_eq, Segment.last_eq, ← List.append_assoc]
  by_cases hlits : n ≤ done.length + seg.literals.length
  · obtain ⟨t, hrun, ht⟩ := literals_overflow hlimit hwrite seg.literals last
      (hat.withInput (seg.literals ++ rest)) rfl hlt hlits
    refine ⟨t, by rw [EStateM.bind_of_error hrun], ?_⟩
    rw [ht]
    exact congrArg _ (List.take_append_of_le_length (by simp; omega)).symm
  · obtain ⟨s₁, hrun, hat₁, -⟩ := literals_eq (rowFits_first hlimit hwrite (by omega))
      seg.literals last (hat.withInput (seg.literals ++ rest)) rfl (by omega)
    obtain ⟨t, hreps, ht⟩ := repeats_overflow hlimit hwrite
      (seg.literals.getLast?.getD last) seg.repeats hat₁ (by simp; omega)
      (by simp only [Segment.size] at hle; simp; omega)
    exact ⟨t, by rw [EStateM.bind_of_ok hrun, EStateM.bind_of_error hreps], ht⟩

/-- The loop over the row's segments, from column `done.length`: it writes tokens up to
pixel `n - 1` and panics there. -/
theorem line_overflow (hlimit : base + 4 * n = 2 ^ 32)
    (hwrite : base + 4 * n ≤ output.length + 3) {width : Nat} (hn : n ≤ width)
    {rest : List UInt8} :
    ∀ (segs : List Segment) (last : UInt8) (fuel : Nat) {done : List UInt8} {s : Plane},
      (∀ seg ∈ segs, seg.WellFormed) → AtColumn 0 base output done s →
      s.input = segs.flatMap Segment.bytes ++ rest → s.input.length ≤ fuel →
      done.length < n → n ≤ done.length + (tokens segs last).length →
      ∃ t, line 0 width fuel (literalColor 0 last) s = .error .panic t ∧
        t.output = fillRow output base ((done ++ tokens segs last).take n)
  | [], _, _, done, s, _, _, _, _, hlt, hle => absurd hle (by simp [tokens]; omega)
  | seg :: segs, last, fuel, done, s, hwf, hat, hin, hfuel, hlt, hle => by
    rw [List.flatMap_cons, List.append_assoc] at hin
    cases fuel with
    | zero => simp [hin, Segment.bytes_eq] at hfuel
    | succ fuel =>
      rw [line_succ_of_lt (by rw [hat.indexw]; omega), tokens]
      by_cases hseg : n ≤ done.length + seg.size
      · obtain ⟨t, hrun, ht⟩ :=
          segment_overflow hlimit hwrite (hwf seg (.head _)) last hat hin hlt hseg
        refine ⟨t, by rw [EStateM.bind_of_error hrun], ?_⟩
        rw [ht, ← List.append_assoc]
        exact congrArg _ (List.take_append_of_le_length (by simp; omega)).symm
      · obtain ⟨s₁, hrun, hat₁, hin₁⟩ :=
          segment_eq (rowFits_first hlimit hwrite (by omega)) (hwf seg (.head _)) last hat
            hin (by omega)
        obtain ⟨t, hline, ht⟩ := line_overflow hlimit hwrite hn segs (seg.last last) fuel
          (fun seg h => hwf seg (.tail _ h)) hat₁ hin₁
          (by rw [hin, Segment.bytes_eq] at hfuel; rw [hin₁]; simp at hfuel ⊢; omega)
          (by simp; omega) (by simp [tokens] at hle ⊢; omega)
        refine ⟨t, by rw [EStateM.bind_of_ok hrun, hline], ?_⟩
        rw [ht, List.append_assoc]

end FirstRow

/-- A first row at `(height - 1) * width * 4 < 2^32` whose end `height * width * 4` is
not: whatever follows the row, the decoder writes the row's tokens into plane `3` up to
the pixel whose `out += 4` reaches `2^32`, and panics there. -/
theorem decompress_row_overflow {width height : Nat} {segs : List Segment}
    {rest : List UInt8} {s : Plane} (hwf : ∀ seg ∈ segs, seg.WellFormed)
    (htokens : width ≤ (tokens segs 0).length)
    (hin : s.input = 0x10 :: (segs.flatMap Segment.bytes ++ rest))
    (hlength : height * width * 4 ≤ s.output.length)
    (hrow : (height - 1) * width * 4 < 2 ^ 32) (hout : 2 ^ 32 ≤ height * width * 4) :
    ∃ t, decompress width height s = .error .panic t ∧
      t.output = fillRow s.output (3 + (height - 1) * width * 4)
        ((tokens segs 0).take (2 ^ 30 - (height - 1) * width)) := by
  obtain ⟨h, rfl⟩ : ∃ h, height = h + 1 :=
    ⟨height - 1, by cases height <;> simp at hout ⊢⟩
  have hsucc : (h + 1) * width = h * width + width := Nat.succ_mul h width
  simp only [Nat.add_sub_cancel] at hrow ⊢
  have hat₀ : AtColumn 0 (h * width * 4) (s.output.drop 3) []
      { s with input := segs.flatMap Segment.bytes ++ rest, output := s.output.drop 3,
               out := h * width * 4, indexw := 0 } :=
    ⟨by simp, rfl, by simp [decodeRow, fillRow]⟩
  obtain ⟨t, hline, ht⟩ := line_overflow (n := 2 ^ 30 - h * width) (by omega)
    (by simp; omega) (show 2 ^ 30 - h * width ≤ width by omega) segs 0 _ hwf hat₀ rfl
    le_rfl (by simp; omega)
    (by simp only [List.length_nil, Nat.zero_add]; omega)
  rw [literalColor_zero] at hline
  have hplane : planeAt width (h + 1) 3
      { s with input := segs.flatMap Segment.bytes ++ rest } =
        .error .panic { t with output := s.output.take 3 ++ t.output } := by
    simp only [planeAt, processPlane, if_neg (show ¬s.output.length < 3 by omega),
      rows_succ (show (h + 1 - 0 - 1) * width * 4 < 2 ^ 32 by simpa using hrow)]
    simp only [Nat.add_sub_cancel, Nat.sub_zero] at hline ⊢
    rw [EStateM.bind_of_error hline]
  refine ⟨{ t with output := s.output.take 3 ++ t.output }, ?_, ?_⟩
  · rw [decompress, EStateM.bind_of_ok (readU8_of_input hin)]
    simp only [ne_eq, not_true_eq_false, if_false]
    rw [EStateM.bind_of_ok (EStateM.pure_apply _), EStateM.bind_of_error hplane]
  · rw [ht, List.nil_append, take_append_fillRow]

/-- An image of `2^32` bytes or more whose first row starts inside `u32`: its first row
in plane `3` is written up to the pixel whose `out += 4` reaches `2^32`, that pixel
included, and the decoder panics there. -/
theorem rle32Decompress_row_overflow {segs : List Segment} {rest output : List UInt8}
    {width height : UInt32} (hwf : ∀ seg ∈ segs, seg.WellFormed)
    (htokens : width.toNat ≤ (tokens segs 0).length)
    (hlength : height.toNat * width.toNat * 4 ≤ output.length)
    (hrow : (height.toNat - 1) * width.toNat * 4 < 2 ^ 32)
    (hout : 2 ^ 32 ≤ height.toNat * width.toNat * 4) :
    rle32Decompress (0x10 :: (segs.flatMap Segment.bytes ++ rest)) width height output =
      (.error .panic, fillRow output (3 + (height.toNat - 1) * width.toNat * 4)
        ((tokens segs 0).take (2 ^ 30 - (height.toNat - 1) * width.toNat))) := by
  obtain ⟨t, hrun, ht⟩ := decompress_row_overflow
    (s := ⟨0x10 :: (segs.flatMap Segment.bytes ++ rest), output, 0, 0⟩) hwf htokens rfl
    hlength hrow hout
  simp only [rle32Decompress, hrun, ht]

/-- A `2^29 × 2` image of zeros: its first row starts at byte `2^31`, inside `u32`, and
the `out += 4` after the row's last pixel reaches `2^32`. -/
theorem rle32Decompress_row_overflow_half :
    (∀ seg ∈ List.replicate (2 ^ 25) (Segment.long 16), seg.WellFormed) ∧
      rle32Decompress (0x10 ::
          ((List.replicate (2 ^ 25) (Segment.long 16)).flatMap Segment.bytes ++ []))
          536870912 2 (List.replicate (2 ^ 32) 0) =
        (.error .panic, fillRow (List.replicate (2 ^ 32) 0)
          (3 + (UInt32.toNat 2 - 1) * UInt32.toNat 536870912 * 4)
          ((tokens (List.replicate (2 ^ 25) (Segment.long 16)) 0).take
            (2 ^ 30 - (UInt32.toNat 2 - 1) * UInt32.toNat 536870912))) := by
  have hwf : ∀ seg ∈ List.replicate (2 ^ 25) (Segment.long 16), seg.WellFormed :=
    fun seg h => by rw [List.eq_of_mem_replicate h]; decide
  exact ⟨hwf, rle32Decompress_row_overflow hwf
    (by rw [tokens_replicate_long, List.length_replicate]; decide)
    (by rw [List.length_replicate]; decide) (by decide) (by decide)⟩

end Rdp.Codec.Rle32
