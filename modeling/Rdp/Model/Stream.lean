import Rdp.Model.Error

namespace Rdp

/-! A byte source (`Cursor<&[u8]>` or `&mut dyn Read`) is modelled by the bytes not yet
read.  The `byteorder` reads fail with `Error::Io` (`UnexpectedEof`) when too few bytes
are left. -/

def wordOfBytes (low high : UInt8) : UInt16 :=
  UInt16.ofNat (low.toNat + 256 * high.toNat)

def dwordOfBytes (b0 b1 b2 b3 : UInt8) : UInt32 :=
  UInt32.ofNat (b0.toNat + 256 * b1.toNat + 65536 * b2.toNat + 16777216 * b3.toNat)

def readU8 : List UInt8 → Except Fault (UInt8 × List UInt8)
  | b :: rest => .ok (b, rest)
  | [] => .error (.error .io)

def readU16Le : List UInt8 → Except Fault (UInt16 × List UInt8)
  | b0 :: b1 :: rest => .ok (wordOfBytes b0 b1, rest)
  | _ => .error (.error .io)

def readU16Be : List UInt8 → Except Fault (UInt16 × List UInt8)
  | b0 :: b1 :: rest => .ok (wordOfBytes b1 b0, rest)
  | _ => .error (.error .io)

def readU32Le : List UInt8 → Except Fault (UInt32 × List UInt8)
  | b0 :: b1 :: b2 :: b3 :: rest => .ok (dwordOfBytes b0 b1 b2 b3, rest)
  | _ => .error (.error .io)

def readU32Be : List UInt8 → Except Fault (UInt32 × List UInt8)
  | b0 :: b1 :: b2 :: b3 :: rest => .ok (dwordOfBytes b3 b2 b1 b0, rest)
  | _ => .error (.error .io)

/-- `read_exact` into a buffer of `n` bytes. -/
def readExact (n : Nat) (stream : List UInt8) : Except Fault (List UInt8 × List UInt8) :=
  if n ≤ stream.length then .ok (stream.take n, stream.drop n) else .error (.error .io)

/-! Little-endian encodings, the inverses of the reads. -/

def u16Le (word : UInt16) : List UInt8 :=
  [UInt8.ofNat (word.toNat % 256), UInt8.ofNat (word.toNat / 256)]

def u32Le (dword : UInt32) : List UInt8 :=
  [UInt8.ofNat (dword.toNat % 256), UInt8.ofNat (dword.toNat / 256 % 256),
    UInt8.ofNat (dword.toNat / 65536 % 256), UInt8.ofNat (dword.toNat / 16777216)]

@[simp] theorem readU8_cons (b : UInt8) (rest : List UInt8) :
    readU8 (b :: rest) = .ok (b, rest) := rfl

@[simp] theorem readU8_nil : readU8 [] = .error (.error .io) := rfl

theorem toNat_wordOfBytes (low high : UInt8) :
    (wordOfBytes low high).toNat = low.toNat + 256 * high.toNat := by
  have hlow := low.toNat_lt_size
  have hhigh := high.toNat_lt_size
  exact UInt16.toNat_ofNat_of_lt (by simp [UInt16.size, UInt8.size] at *; omega)

theorem wordOfBytes_u16Le (word : UInt16) :
    wordOfBytes (UInt8.ofNat (word.toNat % 256))
      (UInt8.ofNat (word.toNat / 256)) = word := by
  have hword := word.toNat_lt_size
  simp only [UInt16.size] at hword
  apply UInt16.toNat.inj
  rw [toNat_wordOfBytes, UInt8.toNat_ofNat_of_lt (by simp [UInt8.size]; omega),
    UInt8.toNat_ofNat_of_lt (by simp [UInt8.size]; omega)]
  omega

@[simp] theorem readU16Le_u16Le (word : UInt16) (rest : List UInt8) :
    readU16Le (u16Le word ++ rest) = .ok (word, rest) := by
  simp [u16Le, readU16Le, wordOfBytes_u16Le]

theorem dwordOfBytes_u32Le (dword : UInt32) :
    dwordOfBytes (UInt8.ofNat (dword.toNat % 256)) (UInt8.ofNat (dword.toNat / 256 % 256))
      (UInt8.ofNat (dword.toNat / 65536 % 256)) (UInt8.ofNat (dword.toNat / 16777216)) =
      dword := by
  have hdword := dword.toNat_lt_size
  simp only [UInt32.size] at hdword
  apply UInt32.toNat.inj
  simp only [dwordOfBytes]
  rw [UInt32.toNat_ofNat_of_lt]
  · repeat rw [UInt8.toNat_ofNat_of_lt (by simp [UInt8.size]; omega)]
    omega
  · repeat rw [UInt8.toNat_ofNat_of_lt (by simp [UInt8.size]; omega)]
    simp [UInt32.size]; omega

@[simp] theorem readU32Le_u32Le (dword : UInt32) (rest : List UInt8) :
    readU32Le (u32Le dword ++ rest) = .ok (dword, rest) := by
  simp [u32Le, readU32Le, dwordOfBytes_u32Le]

@[simp] theorem readExact_append (bytes rest : List UInt8) :
    readExact bytes.length (bytes ++ rest) = .ok (bytes, rest) := by
  simp [readExact]

theorem u16Le_wordOfBytes (low high : UInt8) :
    u16Le (wordOfBytes low high) = [low, high] := by
  have hl := low.toNat_lt_size
  have hh := high.toNat_lt_size
  simp only [UInt8.size] at hl hh
  rw [u16Le, toNat_wordOfBytes]
  simp only [List.cons.injEq, and_true]
  constructor <;>
    exact UInt8.toNat.inj (by
      rw [UInt8.toNat_ofNat_of_lt (by simp only [UInt8.size]; omega)]
      omega)

theorem toNat_dwordOfBytes (b0 b1 b2 b3 : UInt8) :
    (dwordOfBytes b0 b1 b2 b3).toNat =
      b0.toNat + 256 * b1.toNat + 65536 * b2.toNat + 16777216 * b3.toNat := by
  have h0 := b0.toNat_lt_size
  have h1 := b1.toNat_lt_size
  have h2 := b2.toNat_lt_size
  have h3 := b3.toNat_lt_size
  exact UInt32.toNat_ofNat_of_lt (by simp [UInt32.size, UInt8.size] at *; omega)

theorem u32Le_dwordOfBytes (b0 b1 b2 b3 : UInt8) :
    u32Le (dwordOfBytes b0 b1 b2 b3) = [b0, b1, b2, b3] := by
  have h0 := b0.toNat_lt_size
  have h1 := b1.toNat_lt_size
  have h2 := b2.toNat_lt_size
  have h3 := b3.toNat_lt_size
  simp only [UInt8.size] at h0 h1 h2 h3
  rw [u32Le, toNat_dwordOfBytes]
  simp only [List.cons.injEq, and_true]
  refine ⟨?_, ?_, ?_, ?_⟩ <;>
    exact UInt8.toNat.inj (by
      rw [UInt8.toNat_ofNat_of_lt (by simp only [UInt8.size]; omega)]
      omega)

theorem u16Le_exists (word : UInt16) :
    ∃ low high, u16Le word = [low, high] ∧ wordOfBytes low high = word :=
  ⟨_, _, rfl, wordOfBytes_u16Le word⟩

@[simp] theorem length_u16Le (word : UInt16) : (u16Le word).length = 2 := rfl

@[simp] theorem length_u32Le (dword : UInt32) : (u32Le dword).length = 4 := rfl

theorem length_flatMap_u16Le (words : List UInt16) :
    (words.flatMap u16Le).length = words.length * 2 := by
  induction words with
  | nil => rfl
  | cons word words ih => simp [u16Le, ih]; omega

end Rdp
