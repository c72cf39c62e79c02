import Rdp.Model.Data

namespace Rdp.Core.Per

/-! The PER reads of `core/per.rs` that the conference-create response uses.  The file
is not part of the source; each read is the inverse of the write spec §4.1 describes. -/

open Rdp.Model

/-- Modelled from the spec: `per::read_choice`, one byte. -/
def readChoice : Reader UInt8 :=
  readU8

/-- Modelled from the spec: `per::read_enumerates`, one byte. -/
def readEnumerates : Reader UInt8 :=
  readU8

/-- Modelled from the spec: `per::read_number_of_set`, one byte. -/
def readNumberOfSet : Reader UInt8 :=
  readU8

/-- Modelled from the spec: `per::read_length`, the inverse of `write_length`: one byte
below 128, else two bytes with the high bit of the first set. -/
def readLength : Reader Nat := do
  let b ← readU8
  if b &&& 0x80 ≠ 0 then pure ((b &&& 0x7f).toNat * 256 + (← readU8).toNat)
  else pure b.toNat

/-- Modelled from the spec: `per::read_integer`, a length then a big-endian integer of
that many bytes. -/
def readInteger : Reader Nat := do
  match ← readLength with
  | 1 => pure (← readU8).toNat
  | 2 => pure (← readU16Be).toNat
  | 4 => pure (← readU32Be).toNat
  | _ => throw (Fault.rdp .invalidSize "PER integer encoded with an invalid size")

/-- Modelled from the spec: `per::read_integer_16(expected)`, two big-endian bytes that
must hold `expected`. -/
def readInteger16 (expected : UInt16) : Reader UInt16 := do
  let value ← readU16Be
  if value = expected then pure value
  else throw (Fault.rdp .invalidData "PER integer 16 mismatch")

/-- The five bytes `write_object_identifier` gives a six-component identifier. -/
def objectIdentifierBytes (oid : List UInt8) : List UInt8 :=
  match oid with
  | [a, b, c, d, e, f] => [(a <<< 4) ||| (b &&& 0xf), c, d, e, f]
  | _ => []

/-- Modelled from the spec: `per::read_object_identifier(oid)`, the inverse of
`write_object_identifier`: a length of 5 and the five bytes of `oid`. -/
def readObjectIdentifier (oid : List UInt8) : Reader Unit := do
  if (← readLength) ≠ 5 then
    throw (Fault.rdp .invalidSize "Oid source have an invalid size")
  let stream ← get
  let (read, rest) ← liftM (m := Except Fault) (readExact 5 stream)
  set rest
  if read ≠ objectIdentifierBytes oid then
    throw (Fault.rdp .invalidData "Oid mismatch")

/-- Modelled from the spec: `per::read_octet_stream(expected, min_len)`, the inverse of
`write_octet_stream`: a length prefix when `expected` is longer than `min_len`, then its
bytes, which must be `expected`. -/
def readOctetStream (expected : List UInt8) (minLength : Nat) : Reader Unit := do
  if minLength < expected.length then
    if (← readLength) ≠ expected.length then
      throw (Fault.rdp .invalidSize "PER length mismatch")
  let stream ← get
  let (read, rest) ← liftM (m := Except Fault) (readExact expected.length stream)
  set rest
  if read ≠ expected then throw (Fault.rdp .invalidData "PER stream mismatch")

/-! Each read on the bytes of its write. -/

@[simp] theorem readChoice_cons (b : UInt8) (s : List UInt8) :
    readChoice (b :: s) = .ok (b, s) := rfl

@[simp] theorem readEnumerates_cons (b : UInt8) (s : List UInt8) :
    readEnumerates (b :: s) = .ok (b, s) := rfl

@[simp] theorem readNumberOfSet_cons (b : UInt8) (s : List UInt8) :
    readNumberOfSet (b :: s) = .ok (b, s) := rfl

theorem readInteger_one (b : UInt8) (s : List UInt8) :
    readInteger (1 :: b :: s) = .ok (b.toNat, s) :=
  rfl

theorem readInteger16_of_eq {expected : UInt16} {high low : UInt8}
    (h : wordOfBytes low high = expected)
    (s : List UInt8) : readInteger16 expected (high :: low :: s) = .ok (expected, s) := by
  simp [readInteger16, readU16Be, h, bind, StateT.bind, Except.bind, pure,
    StateT.pure, Except.pure]

theorem readLength_of_lt {b : UInt8} (h : b.toNat < 128) (s : List UInt8) :
    readLength (b :: s) = .ok (b.toNat, s) := by
  have hb : b &&& 0x80 = 0 := UInt8.toNat.inj (by
    rw [UInt8.and_toNat, show (0x80 : UInt8).toNat = 2 ^ 7 from rfl, Nat.and_two_pow,
      Nat.testBit_lt_two_pow (show b.toNat < 2 ^ 7 by omega)]
    rfl)
  simp [readLength, hb, bind, StateT.bind, Except.bind, pure, StateT.pure, Except.pure]

theorem readLength_of_and {b : UInt8} (h : b &&& 0x80 ≠ 0) (c : UInt8) (s : List UInt8) :
    readLength (b :: c :: s) = .ok ((b &&& 0x7f).toNat * 256 + c.toNat, s) := by
  simp [readLength, h, bind, StateT.bind, Except.bind, pure, StateT.pure, Except.pure]

theorem readObjectIdentifier_bytes {oid : List UInt8}
    (h : (objectIdentifierBytes oid).length = 5)
    (s : List UInt8) :
    readObjectIdentifier oid (5 :: (objectIdentifierBytes oid ++ s)) = .ok ((), s) := by
  have hread : readExact 5 (objectIdentifierBytes oid ++ s) =
      .ok (objectIdentifierBytes oid, s) :=
    h ▸ readExact_append _ _
  rw [readObjectIdentifier]
  rw [readerBind_of_ok (readLength_of_lt (show (5 : UInt8).toNat < 128 by decide) _)]
  simp [hread, bind, StateT.bind, Except.bind, pure, StateT.pure, Except.pure, get,
    getThe, MonadStateOf.get, StateT.get, set, StateT.set, liftM, monadLift,
    MonadLift.monadLift, StateT.lift]

theorem readOctetStream_bytes {expected : List UInt8} {minLength : Nat}
    (h : expected.length ≤ minLength) (s : List UInt8) :
    readOctetStream expected minLength (expected ++ s) = .ok ((), s) := by
  simp [readOctetStream, Nat.not_lt.mpr h, bind, StateT.bind, Except.bind, pure,
    StateT.pure, Except.pure, get, getThe, MonadStateOf.get, StateT.get, set, StateT.set,
    liftM, monadLift, MonadLift.monadLift, StateT.lift]

end Rdp.Core.Per
