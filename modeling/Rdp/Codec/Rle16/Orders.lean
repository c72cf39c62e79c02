import Rdp.Codec.Rle16.Pixels

namespace Rdp.Codec.Rle16

/-! Well-formed 16-bpp orders, their bytes, and `specPixels`, a reference decoder that
reads the pixel below as the pixel `width` places back in the stream. -/

/-- How an order gives its run length: in the low bits of its code byte, in a byte after
a code byte whose low bits are `0`, or in a 16-bit word after a `0xF_` code byte. -/
inductive Run
  | short (n : Nat)
  | extended (b : UInt8)
  | mega (w : UInt16)
deriving DecidableEq, Repr

/-- The orders with a run length, with their operands. -/
inductive RunOrder
  | background
  | foreground
  | fillOrMix (masks : List UInt8)
  | colour (colour : UInt16)
  | copy (words : List UInt16)
  | setMix (mix : UInt16)
  | setMixFillOrMix (mix : UInt16) (masks : List UInt8)
  | bicolour (colour1 colour2 : UInt16)
deriving DecidableEq, Repr

/-- A 16-bpp order: a run, a fixed-mask fill-or-mix (`0xFA` with mask `5`, `0xF9` with
mask `3`), a white or a black pixel. -/
inductive Order
  | run (order : RunOrder) (run : Run)
  | fixedFillOrMix (five : Bool)
  | white
  | black
deriving DecidableEq, Repr

namespace RunOrder

/-- The opcode the code byte carries. -/
def opcode : RunOrder → Nat
  | background => 0
  | foreground => 1
  | fillOrMix _ => 2
  | colour _ => 3
  | copy _ => 4
  | setMix _ => 6
  | setMixFillOrMix _ _ => 7
  | bicolour _ _ => 8

/-- The orders of the `0xC_` to `0xE_` codes, whose short count has four bits. -/
def lite (o : RunOrder) : Bool := 6 ≤ o.opcode

/-- The orders whose short count counts mask bytes, eight pixels each. -/
def fillsOrMixes (o : RunOrder) : Bool := o.opcode = 2 || o.opcode = 7

/-- The run length the code computes. -/
def count (o : RunOrder) : Run → Nat
  | .short n => if o.fillsOrMixes then n * 8 else n
  | .extended b => b.toNat + if o.fillsOrMixes then 1 else if o.lite then 16 else 32
  | .mega w => w.toNat

/-- The pixels of a run: two a count for a bicolour run. -/
def pixelCount (o : RunOrder) (r : Run) : Nat :=
  match o with
  | bicolour _ _ => 2 * o.count r
  | _ => o.count r

/-- The code byte with short count `n`. -/
def code (o : RunOrder) (n : Nat) : UInt8 :=
  UInt8.ofNat (if o.lite then (o.opcode + 6) * 16 + n else o.opcode * 32 + n)

def runBytes (o : RunOrder) : Run → List UInt8
  | .short n => [o.code n]
  | .extended b => [o.code 0, b]
  | .mega w => UInt8.ofNat (0xF0 + o.opcode) :: u16Le w

/-- The operands the header reads after the run length. -/
def operandBytes : RunOrder → List UInt8
  | colour c => u16Le c
  | setMix m => u16Le m
  | setMixFillOrMix m _ => u16Le m
  | bicolour c₁ c₂ => u16Le c₁ ++ u16Le c₂
  | _ => []

/-- The bytes the pixels read: a mask byte every eight pixels, or a word a pixel. -/
def pixelBytes : RunOrder → List UInt8
  | fillOrMix masks => masks
  | setMixFillOrMix _ masks => masks
  | copy words => words.flatMap u16Le
  | _ => []

/-- The pixels find their bytes: one mask byte for each eight pixels, one word for each
pixel. -/
def DataFits (o : RunOrder) (count : Nat) : Prop :=
  match o with
  | fillOrMix masks => masks.length = (count + 7) / 8
  | setMixFillOrMix _ masks => masks.length = (count + 7) / 8
  | copy words => words.length = count
  | _ => True

instance (o : RunOrder) (count : Nat) : Decidable (o.DataFits count) :=
  match o with
  | fillOrMix masks => inferInstanceAs (Decidable (masks.length = (count + 7) / 8))
  | setMixFillOrMix _ masks =>
    inferInstanceAs (Decidable (masks.length = (count + 7) / 8))
  | copy words => inferInstanceAs (Decidable (words.length = count))
  | background | foreground | colour _ | setMix _ | bicolour _ _ => isTrue trivial

/-- The `mix` an order leaves: a set-mix order's operand. -/
def newMix (mix : UInt16) : RunOrder → UInt16
  | setMix m => m
  | setMixFillOrMix m _ => m
  | _ => mix

end RunOrder

/-- A short count fits its code byte and is not `0`; a mega count is not `0`. -/
def Run.WellFormed (lite : Bool) : Run → Prop
  | .short n => 0 < n ∧ n < if lite then 16 else 32
  | .extended _ => True
  | .mega w => w ≠ 0

instance (lite : Bool) (r : Run) : Decidable (r.WellFormed lite) :=
  match r with
  | .short n => inferInstanceAs (Decidable (0 < n ∧ n < if lite then 16 else 32))
  | .extended _ => isTrue trivial
  | .mega w => inferInstanceAs (Decidable (w ≠ 0))

/-- A well-formed run is not empty. -/
theorem RunOrder.count_pos {o : RunOrder} {run : Run} (h : run.WellFormed o.lite) :
    0 < o.count run := by
  cases run with
  | short n => simp only [RunOrder.count]; split_ifs <;>
      simp only [Run.WellFormed] at h <;> omega
  | extended b => simp only [RunOrder.count]; split_ifs <;> omega
  | mega w => exact Nat.pos_of_ne_zero fun h' => h (UInt16.toNat.inj h')

namespace Order

/-- A defined opcode, its operands present, and a positive run length. -/
def WellFormed : Order → Prop
  | run o r => r.WellFormed o.lite ∧ o.DataFits (o.count r)
  | _ => True

instance (o : Order) : Decidable o.WellFormed :=
  match o with
  | run o r => inferInstanceAs (Decidable (r.WellFormed o.lite ∧ o.DataFits (o.count r)))
  | fixedFillOrMix _ | white | black => isTrue trivial

def bytes : Order → List UInt8
  | run o r => o.runBytes r ++ o.operandBytes ++ o.pixelBytes
  | fixedFillOrMix five => [if five then 0xFA else 0xF9]
  | white => [0xFD]
  | black => [0xFE]

theorem bytes_ne_nil (o : Order) : o.bytes ≠ [] := by
  cases o with
  | run o r => cases r <;> simp [bytes, RunOrder.runBytes]
  | _ => simp [bytes]

/-- The pixels of an order, as the code counts them. -/
def pixelCount : Order → Nat
  | run o r => o.pixelCount r
  | fixedFillOrMix _ => 8
  | white | black => 1

end Order

/-- The input of a stream of orders. -/
def encode (orders : List Order) : List UInt8 :=
  orders.flatMap Order.bytes

@[simp] theorem encode_nil : encode [] = [] := rfl

@[simp] theorem encode_cons (o : Order) (orders : List Order) :
    encode (o :: orders) = o.bytes ++ encode orders := List.flatMap_cons _ _ _

/-- Each order takes a byte at least. -/
theorem length_le_length_encode (orders : List Order) :
    orders.length ≤ (encode orders).length := by
  induction orders with
  | nil => exact Nat.le_refl 0
  | cons o os ih =>
    have := List.length_pos.mpr o.bytes_ne_nil
    simp only [encode_cons, List.length_append, List.length_cons]
    omega

/-! ### The pixels of the orders -/

/-- Bit `i % 8` of the `i / 8`-th mask byte, the least significant bit first. -/
def maskBit (masks : List UInt8) (i : Nat) : Bool :=
  (masks.getD (i / 8) 0).toNat.testBit (i % 8)

/-- A set bit gives `mix` over the pixel below, a clear bit the pixel below (`0` on the
bottom row). -/
def fillOrMixPixel (mix : UInt16) (bit : Bool) (below : Option UInt16) : UInt16 :=
  if bit then insertValue mix below else below.getD 0

/-- `count` pixels after `pixels`, the `i`-th from `i` and the pixels before it. -/
def runPixels (f : Nat → List UInt16 → UInt16) : Nat → List UInt16 → List UInt16
  | 0, pixels => pixels
  | i + 1, pixels => runPixels f i pixels ++ [f i (runPixels f i pixels)]

/-- The `i`-th pixel of a run after `pixels`; `insert` says whether a background run
begins with `mix` over the pixel below. -/
def RunOrder.specPixel (width : Nat) (mix : UInt16) (insert : Bool) :
    RunOrder → Nat → List UInt16 → UInt16
  | .background, i, p =>
    if insert ∧ i = 0 then insertValue mix (belowPixel width p)
    else (belowPixel width p).getD 0
  | .foreground, _, p => insertValue mix (belowPixel width p)
  | .fillOrMix masks, i, p => fillOrMixPixel mix (maskBit masks i) (belowPixel width p)
  | .colour c, _, _ => c
  | .copy words, i, _ => words.getD i 0
  | .setMix _, _, p => insertValue mix (belowPixel width p)
  | .setMixFillOrMix _ masks, i, p =>
      fillOrMixPixel mix (maskBit masks i) (belowPixel width p)
  | .bicolour c₁ c₂, i, _ => if i % 2 = 0 then c₁ else c₂

/-- What the reference decoder carries from order to order. -/
structure SpecState where
  mix : UInt16
  background : Bool
  pixels : List UInt16
deriving DecidableEq, Repr

/-- A background order after a background order begins with `mix` over the pixel below,
unless it begins the first or the second row. -/
def SpecState.inserts (width : Nat) (s : SpecState) : Bool :=
  s.background && !(s.pixels.length == 0 || s.pixels.length == width)

/-- One order of the reference decoder. -/
def specOrder (width : Nat) (s : SpecState) : Order → SpecState
  | .run o r =>
    let mix := o.newMix s.mix
    { mix
      background := o == .background
      pixels := runPixels (o.specPixel width mix (s.inserts width))
        (o.pixelCount r) s.pixels }
  | .fixedFillOrMix five =>
    { s with
      background := false
      pixels := runPixels
        (fun i p => fillOrMixPixel s.mix
          (maskBit [if five then 5 else 3] i) (belowPixel width p))
        8 s.pixels }
  | .white => { s with background := false, pixels := s.pixels ++ [0xFFFF] }
  | .black => { s with background := false, pixels := s.pixels ++ [0] }

/-- The reference decoder: the pixels of a stream of orders, `mix` starting at `0xFFFF`.
-/
def specPixels (width : Nat) (orders : List Order) : List UInt16 :=
  (orders.foldl (specOrder width) ⟨0xFFFF, false, []⟩).pixels

@[simp] theorem length_runPixels (f : Nat → List UInt16 → UInt16)
    (n : Nat) (pixels : List UInt16) :
    (runPixels f n pixels).length = pixels.length + n := by
  induction n with
  | zero => rfl
  | succ n ih => simp [runPixels, ih, Nat.add_assoc]

/-- The first `i` pixels of a run are the run of `i` pixels. -/
theorem prefix_runPixels (f : Nat → List UInt16 → UInt16) {i n : Nat} (h : i ≤ n)
    (pixels : List UInt16) : runPixels f i pixels <+: runPixels f n pixels := by
  induction n with
  | zero => rw [Nat.le_zero.mp h]
  | succ n ih =>
    rcases Nat.lt_or_eq_of_le h with h | rfl
    · exact (ih (by omega)).trans (List.prefix_append _ _)
    · exact List.prefix_refl _

theorem length_specOrder (width : Nat) (s : SpecState) (o : Order) :
    (specOrder width s o).pixels.length = s.pixels.length + o.pixelCount := by
  cases o <;> simp [specOrder, Order.pixelCount]

/-- An order only appends to the pixels. -/
theorem prefix_specOrder (width : Nat) (s : SpecState) (o : Order) :
    s.pixels <+: (specOrder width s o).pixels := by
  have h := fun (f : Nat → List UInt16 → UInt16) n =>
    prefix_runPixels f (Nat.zero_le n) s.pixels
  cases o <;> simp only [specOrder] <;> first | exact h _ _ | exact List.prefix_append _ _

/-- A run cut after `k` of its pixels. -/
theorem take_runPixels (f : Nat → List UInt16 → UInt16) {k n : Nat} (h : k ≤ n)
    (pixels : List UInt16) :
    (runPixels f n pixels).take (pixels.length + k) = runPixels f k pixels := by
  have hk := List.prefix_iff_eq_take.mp (prefix_runPixels f h pixels)
  rw [length_runPixels] at hk
  exact hk.symm

theorem length_foldl_specOrder (width : Nat) (orders : List Order) (s : SpecState) :
    (orders.foldl (specOrder width) s).pixels.length =
      s.pixels.length + (orders.map Order.pixelCount).sum := by
  induction orders generalizing s with
  | nil => rfl
  | cons o os ih => simp only [List.foldl_cons, ih, length_specOrder, List.map_cons,
      List.sum_cons, Nat.add_assoc]

theorem prefix_foldl_specOrder (width : Nat) (orders : List Order) (s : SpecState) :
    s.pixels <+: (orders.foldl (specOrder width) s).pixels := by
  induction orders generalizing s with
  | nil => exact List.prefix_refl _
  | cons o os ih => exact (prefix_specOrder width s o).trans (ih _)

end Rdp.Codec.Rle16
