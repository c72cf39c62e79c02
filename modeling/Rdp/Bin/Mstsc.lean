import Rdp.Model.Stream

namespace Rdp.Bin.Mstsc

/-! `fast_bitmap_transfer` of `bin/mstsc-rs.rs`: a decoded bitmap copied into the window's
buffer row by row, guarded only by the ends of the buffer and of the decoded words. -/

/-- The fields of `BitmapEvent` the transfer reads itself.  `decompress` reads the
others; it is not part of the source, and its result is a parameter of the transfer. -/
structure BitmapEvent where
  destLeft : UInt16
  destTop : UInt16
  destRight : UInt16
  destBottom : UInt16
  width : UInt16
deriving DecidableEq, Repr

/-- `transmute_vec::<u8, u32>` on a little-endian target: four bytes make a word, and a
tail of fewer than four bytes is dropped (`len * 1 / 4`). -/
def transmuteVec : List UInt8 → List UInt32
  | b0 :: b1 :: b2 :: b3 :: rest => dwordOfBytes b0 b1 b2 b3 :: transmuteVec rest
  | _ => []

/-- `copy_nonoverlapping(data + src, buffer + dest, count)`, inside both. -/
def copyNonoverlapping (data : List UInt32) (src : Nat)
    (buffer : List UInt32) (dest count : Nat) :
    List UInt32 :=
  buffer.take dest ++ (data.drop src).take count ++ buffer.drop (dest + count)

abbrev BufferM := EStateM Fault (List UInt32)

def invalidSize : Fault :=
  Fault.rdp .invalidSize "Image have invalide size"

/-- The guard  dest_i > buffer.len() || dest_i + count > buffer.len() || src_i >
data.len() || src_i + count >
data.len()`, evaluated left to right; of its sums only `dest_i + count  can overflow a
`usize`. -/
def outOfBounds (bufferLength dataLength destI srcI count : Nat) : Except Fault Bool :=
  if bufferLength < destI then .ok true else do
    let destEnd ← checkedUsize (destI + count)
    pure (bufferLength < destEnd || dataLength < srcI || dataLength < srcI + count)

/-- One pass of the row loop.  `i + dest_top` and `i * bitmap_width` are `u16`-sized and
cannot overflow. -/
def copyRow (width : Nat) (bitmap : BitmapEvent) (dataAligned : List UInt32) (i : Nat) :
    BufferM Unit := do
  let destI ← lift (checkedUsize ((i + bitmap.destTop.toNat) * width))
  let destI ← lift (checkedUsize (destI + bitmap.destLeft.toNat))
  let srcI := i * bitmap.width.toNat
  let count := (← lift (checkedSub bitmap.destRight.toNat bitmap.destLeft.toNat)) + 1
  let buffer ← get
  if ← lift (outOfBounds buffer.length dataAligned.length destI srcI count) then
    throw invalidSize
  set (copyNonoverlapping dataAligned srcI buffer destI count)

/-- `for i in first..first + rows`. -/
def copyRows (width : Nat) (bitmap : BitmapEvent) (dataAligned : List UInt32) :
    Nat → Nat → BufferM Unit
  | 0, _ => pure ()
  | rows + 1, i => do
    copyRow width bitmap dataAligned i
    copyRows width bitmap dataAligned rows (i + 1)

/-- `fast_bitmap_transfer(buffer, width, bitmap)`, where `bitmap.decompress()` gave
`decompressed`. -/
def fastBitmapTransfer (width : Nat) (bitmap : BitmapEvent)
    (decompressed : Except Fault (List UInt8)) : BufferM Unit := do
  let data ← lift decompressed
  let rows ← lift (checkedSub bitmap.destBottom.toNat bitmap.destTop.toNat)
  copyRows width bitmap (transmuteVec data) (rows + 1) 0

theorem length_copyNonoverlapping {data buffer : List UInt32} {src dest count : Nat}
    (hdest : dest + count ≤ buffer.length) (hsrc : src + count ≤ data.length) :
    (copyNonoverlapping data src buffer dest count).length = buffer.length := by
  simp only [copyNonoverlapping, List.length_append, List.length_take, List.length_drop]
  omega

theorem getElem?_copyNonoverlapping {data buffer : List UInt32} {src dest count : Nat}
    (hdest : dest + count ≤ buffer.length) (hsrc : src + count ≤ data.length) (p : Nat) :
    (copyNonoverlapping data src buffer dest count)[p]? =
      if dest ≤ p ∧ p < dest + count then data[src + (p - dest)]? else buffer[p]? := by
  have hd : min dest buffer.length = dest := by omega
  have hc : min count (data.length - src) = count := by omega
  simp only [copyNonoverlapping, List.getElem?_append,
    List.length_append, List.length_take, List.length_drop, List.getElem?_take,
    List.getElem?_drop, hd, hc]
  split_ifs <;> first | rfl | omega | (congr 1; omega)

section Rows

variable {width : Nat} {bitmap : BitmapEvent} {data buffer : List UInt32}

/-- The cell `copyRow` starts row `i` at, and the number of cells it copies. -/
def destStart (width : Nat) (bitmap : BitmapEvent) (i : Nat) : Nat :=
  (i + bitmap.destTop.toNat) * width + bitmap.destLeft.toNat

def rowCount (bitmap : BitmapEvent) : Nat :=
  bitmap.destRight.toNat - bitmap.destLeft.toNat + 1

/-- Every cell of `buffer'` keeps its value in `buffer` or holds the decoded word
`i * bitmap.width + j`, copied to cell `(i + dest_top) * width + dest_left + j`, for a row
`i < rows` and a column `j < dest_right - dest_left + 1`. -/
def Copied (width : Nat) (bitmap : BitmapEvent) (data : List UInt32) (rows : Nat)
    (buffer buffer' : List UInt32) : Prop :=
  buffer'.length = buffer.length ∧ ∀ p, buffer'[p]? = buffer[p]? ∨
    ∃ i j, i < rows ∧ j < rowCount bitmap ∧ p = destStart width bitmap i + j ∧
      buffer'[p]? = data[i * bitmap.width.toNat + j]?

/-- The guard of `copyRow` passes on row `i`: its cells end inside a buffer of
`bufferLength` cells, and its decoded words inside `dataLength` words. -/
def RowFits (width : Nat) (bitmap : BitmapEvent)
    (bufferLength dataLength i : Nat) : Prop :=
  destStart width bitmap i + rowCount bitmap ≤ bufferLength ∧
    i * bitmap.width.toNat + rowCount bitmap ≤ dataLength

instance (width : Nat) (bitmap : BitmapEvent) (bufferLength dataLength i : Nat) :
    Decidable (RowFits width bitmap bufferLength dataLength i) :=
  inferInstanceAs (Decidable (_ ∧ _))

theorem Copied.refl : Copied width bitmap data 0 buffer buffer :=
  ⟨rfl, fun _ => .inl rfl⟩

theorem Copied.mono {rows rows' : Nat} {b : List UInt32}
    (hcopied : Copied width bitmap data rows buffer b) (hle : rows ≤ rows') :
    Copied width bitmap data rows' buffer b :=
  ⟨hcopied.1, fun p => (hcopied.2 p).imp_right
    fun ⟨i, j, hi, hrest⟩ => ⟨i, j, Nat.lt_of_lt_of_le hi hle, hrest⟩⟩

theorem Copied.copyNonoverlapping {k : Nat} {b : List UInt32}
    (hcopied : Copied width bitmap data k buffer b)
    (hdest : destStart width bitmap k + rowCount bitmap ≤ b.length)
    (hsrc : k * bitmap.width.toNat + rowCount bitmap ≤ data.length) :
    Copied width bitmap data (k + 1) buffer
      (copyNonoverlapping data (k * bitmap.width.toNat) b (destStart width bitmap k)
        (rowCount bitmap)) := by
  refine ⟨(length_copyNonoverlapping hdest hsrc).trans hcopied.1, fun p => ?_⟩
  rw [getElem?_copyNonoverlapping hdest hsrc]
  split_ifs with hp
  · exact .inr ⟨k, p - destStart width bitmap k, by omega, by omega, by omega, rfl⟩
  · exact ((hcopied.mono (Nat.le_succ k)).2 p)

end Rows

/-! ### The window buffer over the bitmaps `main_gui_loop` receives -/

/-- The bitmaps a run of `main_gui_loop` takes from its channel, in order over all
refreshes, each with what its `decompress` returned: each goes through
`fast_bitmap_transfer`, whose first error ends the loop (`?`).  How many a refresh takes
(until the channel is `Empty` or `Disconnected`, or time is up) only cuts the list into
refreshes, and the mouse and keyboard blocks between them leave the buffer alone. -/
def receiveBitmaps (width : Nat) :
    List (BitmapEvent × Except Fault (List UInt8)) → BufferM Unit
  | [] => pure ()
  | (bitmap, decompressed) :: rest => do
    fastBitmapTransfer width bitmap decompressed
    receiveBitmaps width rest

/-- `buffer'` is `buffer` with some cells overwritten by words that `drawn` holds of:
the same number of cells, each as it was or drawn. -/
structure Drawn (drawn : UInt32 → Prop) (buffer buffer' : List UInt32) : Prop where
  length_eq : buffer'.length = buffer.length
  mem : ∀ w ∈ buffer', w ∈ buffer ∨ drawn w

namespace Drawn

variable {drawn drawn' : UInt32 → Prop} {b b' b'' : List UInt32}

theorem refl : Drawn drawn b b :=
  ⟨rfl, fun _ hw => .inl hw⟩

theorem trans (h : Drawn drawn b b') (h' : Drawn drawn b' b'') : Drawn drawn b b'' :=
  ⟨h'.length_eq.trans h.length_eq, fun w hw => (h'.mem w hw).elim (h.mem w) .inr⟩

theorem mono (h : Drawn drawn b b') (himp : ∀ w, drawn w → drawn' w) :
    Drawn drawn' b b' :=
  ⟨h.length_eq, fun w hw => (h.mem w hw).imp_right (himp w)⟩

end Drawn

theorem mem_copyNonoverlapping {data buffer : List UInt32}
    {src dest count : Nat} {w : UInt32}
    (h : w ∈ copyNonoverlapping data src buffer dest count) : w ∈ buffer ∨ w ∈ data := by
  simp only [copyNonoverlapping, List.mem_append] at h
  rcases h with (h | h) | h
  · exact .inl (List.mem_of_mem_take h)
  · exact .inr (List.mem_of_mem_drop (List.mem_of_mem_take h))
  · exact .inl (List.mem_of_mem_drop h)

theorem bounds_of_outOfBounds {bufferLength dataLength destI srcI count : Nat}
    (h : outOfBounds bufferLength dataLength destI srcI count = .ok false) :
    destI + count ≤ bufferLength ∧ srcI + count ≤ dataLength := by
  unfold outOfBounds at h
  split_ifs at h with hdest
  · cases h
  by_cases hend : destI + count < 2 ^ 64
  · simp only [checkedUsize_of_lt hend, bind, Except.bind, pure,
      Except.pure, Except.ok.injEq, Bool.or_eq_false_iff,
      decide_eq_false_iff_not, not_lt] at h
    omega
  · simp only [checkedUsize, hend, if_false, bind, Except.bind] at h
    cases h

section Run

variable {width : Nat} {bitmap : BitmapEvent} {data b b' : List UInt32}

/-- Whatever the bitmap and the window, a row that `copyRow` copies draws decoded words
only. -/
theorem copyRow_drawn {i : Nat} (h : copyRow width bitmap data i b = .ok () b') :
    Drawn (· ∈ data) b b' := by
  obtain ⟨_, _, h1, h2⟩ := EStateM.bind_eq_ok h
  obtain ⟨-, rfl⟩ := lift_eq_ok h1
  obtain ⟨_, _, h1, h3⟩ := EStateM.bind_eq_ok h2
  obtain ⟨-, rfl⟩ := lift_eq_ok h1
  obtain ⟨_, _, h1, h4⟩ := EStateM.bind_eq_ok h3
  obtain ⟨-, rfl⟩ := lift_eq_ok h1
  obtain ⟨_, _, ⟨⟩, h5⟩ := EStateM.bind_eq_ok h4
  obtain ⟨fits, _, h1, h6⟩ := EStateM.bind_eq_ok h5
  obtain ⟨hfits, rfl⟩ := lift_eq_ok h1
  cases fits
  · cases h6
    obtain ⟨hdest, hsrc⟩ := bounds_of_outOfBounds hfits
    exact ⟨length_copyNonoverlapping hdest hsrc, fun _ => mem_copyNonoverlapping⟩
  · cases h6

theorem copyRows_drawn {rows i : Nat}
    (h : copyRows width bitmap data rows i b = .ok () b') :
    Drawn (· ∈ data) b b' := by
  induction rows generalizing i b with
  | zero => cases h; exact .refl
  | succ rows ih =>
    obtain ⟨_, _, hrow, hrest⟩ := EStateM.bind_eq_ok h
    exact (copyRow_drawn hrow).trans (ih hrest)

/-- A transfer that ends well had a bitmap that decoded, and drew its words only. -/
theorem fastBitmapTransfer_drawn {decompressed : Except Fault (List UInt8)}
    (h : fastBitmapTransfer width bitmap decompressed b = .ok () b') :
    ∃ bytes, decompressed = .ok bytes ∧ Drawn (· ∈ transmuteVec bytes) b b' := by
  obtain ⟨bytes, _, h1, h2⟩ := EStateM.bind_eq_ok h
  obtain ⟨hbytes, rfl⟩ := lift_eq_ok h1
  obtain ⟨_, _, h1, h3⟩ := EStateM.bind_eq_ok h2
  obtain ⟨-, rfl⟩ := lift_eq_ok h1
  exact ⟨bytes, hbytes, copyRows_drawn h3⟩

/-- The run lemma: a run that ends well drew only words of the bitmaps it received. -/
theorem receiveBitmaps_drawn {events : List (BitmapEvent × Except Fault (List UInt8))}
    (h : receiveBitmaps width events b = .ok () b') :
    Drawn (fun w => ∃ bitmap bytes,
      (bitmap, .ok bytes) ∈ events ∧ w ∈ transmuteVec bytes) b b' := by
  induction events generalizing b with
  | nil => cases h; exact .refl
  | cons event events ih =>
    obtain ⟨_, _, htransfer, hrest⟩ := EStateM.bind_eq_ok h
    obtain ⟨bytes, hbytes, hdrawn⟩ := fastBitmapTransfer_drawn htransfer
    refine (hdrawn.mono fun w hw => ?_).trans ((ih hrest).mono fun w hw => ?_)
    · exact ⟨event.1, bytes, hbytes ▸ List.mem_cons_self _ _, hw⟩
    · obtain ⟨bitmap, bytes, hmem, hw⟩ := hw
      exact ⟨bitmap, bytes, List.mem_cons_of_mem _ hmem, hw⟩

end Run

/-- Whatever bitmaps the server sends and whatever the window's size, while no transfer
fails the buffer keeps the `width * height` cells
`update_with_buffer(&buffer, width, height)` is given after each refresh, and each cell
is black, as `vec![0; width * height]` made it, or holds a word decoded from a bitmap
received. -/
theorem receiveBitmaps_screen (width height : Nat)
    (events : List (BitmapEvent × Except Fault (List UInt8))) (buffer : List UInt32)
    (h : receiveBitmaps width events
    (List.replicate (width * height) 0) = .ok () buffer) :
    buffer.length = width * height ∧ ∀ w ∈ buffer,
      w = 0 ∨ ∃ bitmap bytes, (bitmap, .ok bytes) ∈ events ∧ w ∈ transmuteVec bytes := by
  obtain ⟨hlength, hmem⟩ := receiveBitmaps_drawn h
  exact ⟨hlength.trans (List.length_replicate _ _),
    fun w hw => (hmem w hw).imp_left List.eq_of_mem_replicate⟩

theorem receiveBitmaps_screen_wraps :
    receiveBitmaps 2 [(⟨1, 0, 2, 0, 1⟩,
      .ok [1, 0, 0, 0, 2, 0, 0, 0])] (List.replicate (2 * 2) 0) =
        .ok () [0, 1, 2, 0] ∧
      ([0, 1, 2, 0] : List UInt32).length = 2 * 2 ∧ ∀ w ∈ ([0, 1, 2, 0] : List UInt32),
        w = 0 ∨ ∃ bitmap bytes,
          (bitmap, .ok bytes) ∈ ([(⟨1, 0, 2, 0, 1⟩, .ok [1, 0, 0, 0, 2, 0, 0, 0])] :
            List (BitmapEvent × Except Fault (List UInt8))) ∧
            w ∈ transmuteVec bytes :=
  ⟨by decide, receiveBitmaps_screen 2 2 _ _ (by decide)⟩

end Rdp.Bin.Mstsc
