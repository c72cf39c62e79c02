import Rdp.Core.Per
import Rdp.Model.Unicode

namespace Rdp.Core.Gcc

/-! `core/gcc.rs`: the client core data the client sends and the conference-create
response it parses. -/

open Rdp.Model

def t124Oid : List UInt8 := [0, 0, 20, 124, 0, 1]

/-- `H221_SC_KEY = *b"McDn"`. -/
def h221ScKey : List UInt8 := [0x4D, 0x63, 0x44, 0x6E]

/-- `Version`, with its `#[repr(u32)]` discriminants; `unknown` follows `0x0008_0004`. -/
inductive Version
  | rdpVersion
  | rdpVersion5plus
  | unknown
deriving DecidableEq, Repr

/-- `version as u32`. -/
def Version.toU32 : Version → UInt32
  | .rdpVersion => 0x00080001
  | .rdpVersion5plus => 0x00080004
  | .unknown => 0x00080005

/-- `impl From<u32> for Version`. -/
def Version.fromU32 (e : UInt32) : Version :=
  if e = 0x00080001 then .rdpVersion5plus
  else if e = 0x00080004 then .rdpVersion
  else .unknown

inductive MessageType
  | scCore
  | scSecurity
  | scNet
  | csCore
  | csSecurity
  | csNet
  | csCluster
  | csMonitor
  | unknown
deriving DecidableEq, Repr

def MessageType.toU16 : MessageType → UInt16
  | .scCore => 0x0C01
  | .scSecurity => 0x0C02
  | .scNet => 0x0C03
  | .csCore => 0xC001
  | .csSecurity => 0xC002
  | .csNet => 0xC003
  | .csCluster => 0xC004
  | .csMonitor => 0xC005
  | .unknown => 0

/-- `impl From<u16> for MessageType`. -/
def MessageType.fromU16 (e : UInt16) : MessageType :=
  if e = 0x0C01 then .scCore
  else if e = 0x0C02 then .scSecurity
  else if e = 0x0C03 then .scNet
  else if e = 0xC001 then .csCore
  else if e = 0xC002 then .csSecurity
  else if e = 0xC003 then .csNet
  else if e = 0xC004 then .csCluster
  else if e = 0xC005 then .csMonitor
  else .unknown

/-! The client core data. -/

/-- `KeyboardLayout`, with its `#[repr(u32)]` discriminants. -/
inductive KeyboardLayout
  | arabic | bulgarian | chineseUsKeyboard | czech | danish | german | greek | us
  | spanish | finnish | french | hebrew | hungarian | icelandic | italian | japanese
  | korean | dutch | norwegian
deriving DecidableEq, Repr

def KeyboardLayout.toU32 : KeyboardLayout → UInt32
  | .arabic => 0x0401 | .bulgarian => 0x0402 | .chineseUsKeyboard => 0x0404
  | .czech => 0x0405 | .danish => 0x0406 | .german => 0x0407 | .greek => 0x0408
  | .us => 0x0409 | .spanish => 0x040a | .finnish => 0x040b | .french => 0x040c
  | .hebrew => 0x040d | .hungarian => 0x040e | .icelandic => 0x040f | .italian => 0x0410
  | .japanese => 0x0411 | .korean => 0x0412 | .dutch => 0x0413 | .norwegian => 0x0414

structure ClientData where
  width : UInt16
  height : UInt16
  layout : KeyboardLayout
  serverSelectedProtocol : UInt32
  rdpVersion : Version
  name : String

/-- `&s[0..n]`: the characters whose UTF-8 encodings fill the first `n` bytes, or a
panic when byte `n` is not on a character boundary (or past the end). -/
def bytePrefix : List Char → Nat → Except Fault (List Char)
  | _, 0 => .ok []
  | [], _ + 1 => .error .panic
  | c :: cs, n + 1 =>
    if c.utf8Size ≤ n + 1 then (c :: ·) <$> bytePrefix cs (n + 1 - c.utf8Size)
    else .error .panic

/-- The name `client_core_data` encodes: cut to its first 16 bytes, or padded with NULs to
16 bytes (`len()` counts UTF-8 bytes). -/
def clientName (name : String) : Except Fault String :=
  if 16 ≤ name.utf8ByteSize then String.mk <$> bytePrefix name.toList 16
  else .ok (name ++ String.mk (List.replicate (16 - name.utf8ByteSize) '\x00'))

def clientCoreData (parameter : Option ClientData) : Except Fault Component := do
  let client := parameter.getD
    { width := 0, height := 0, layout := .french, serverSelectedProtocol := 0
      rdpVersion := .rdpVersion5plus, name := "" }
  let name ← clientName client.name
  pure [("version", .leaf (.u32Le client.rdpVersion.toU32)),
    ("desktopWidth", .leaf (.u16Le client.width)),
    ("desktopHeight", .leaf (.u16Le client.height)),
    ("colorDepth", .leaf (.u16Le 0xCA01)),
    ("sasSequence", .leaf (.u16Le 0xAA03)),
    ("kbdLayout", .leaf (.u32Le client.layout.toU32)),
    ("clientBuild", .leaf (.u32Le 3790)),
    ("clientName", .bytes (toUtf16Le name)),
    ("keyboardType", .leaf (.u32Le 4)),
    ("keyboardSubType", .leaf (.u32Le 0)),
    ("keyboardFnKeys", .leaf (.u32Le 12)),
    ("imeFileName", .bytes (List.replicate 64 0)),
    ("postBeta2ColorDepth", .leaf (.u16Le 0xCA01)),
    ("clientProductId", .leaf (.u16Le 1)),
    ("serialNumber", .leaf (.u32Le 0)),
    ("highColorDepth", .leaf (.u16Le 0x0018)),
    ("supportedColorDepths", .leaf (.u16Le 0x000A)),
    ("earlyCapabilityFlags", .leaf (.u16Le 0x0001)),
    ("clientDigProductId", .bytes (List.replicate 64 0)),
    ("connectionType", .leaf (.u8 0)),
    ("pad1octet", .leaf (.u8 0)),
    ("serverSelectedProtocol", .leaf (.u32Le client.serverSelectedProtocol))]

/-! The server blocks and the conference-create response. -/

def serverCoreData : Component :=
  [("rdpVersion", .leaf (.u32Le 0)),
    ("clientRequestedProtocol", .optional (some (.u32Le 0))),
    ("earlyCapabilityFlags", .optional (some (.u32Le 0)))]

def serverSecurityData : Component :=
  [("encryptionMethod", .leaf (.u32Le 0)), ("encryptionLevel", .leaf (.u32Le 0))]

def serverNetworkData : Component :=
  [("MCSChannelId", .check (.u16Le 1003)),
    ("channelCount", .dynOption (.u16Le 0) fun count =>
      .ok (.size "channelIdArray" (Value.inner count * 2))),
    ("channelIdArray", .array (.u16Le 0) [])]

/-- `block_header(data_type, length)`: `length.unwrap_or(0) + 4` is a checked `u16` sum.
-/
def blockHeader (dataType : Option MessageType) (length : Option UInt16) :
    Except Fault Component := do
  let length ← if (length.getD 0).toNat + 4 < 2 ^ 16 then pure ((length.getD 0) + 4)
    else throw .panic
  pure [("type", .leaf (.u16Le (dataType.getD .csCore).toU16)),
    ("length", .leaf (.u16Le length))]

structure ServerData where
  channelIds : List UInt16
  rdpVersion : Version
deriving DecidableEq, Repr

/-- `HashMap::insert`: a block replaces an earlier block of its type. -/
def insert (key : MessageType) (block : Component)
    (result : List (MessageType × Component)) :
    List (MessageType × Component) :=
  (key, block) :: result.filter (·.1 ≠ key)

/-- `result[&key]`: a `HashMap` index, which panics on a missing key. -/
def lookupBlock (result : List (MessageType × Component)) (key : MessageType) :
    Except Fault Component :=
  match result.lookup key with
  | some block => .ok block
  | none => .error .panic

/-- The `loop` over the user-data blocks: it stops when a block header no longer reads.
Every pass reads a four-byte header, so the fuel `sub.length` is never the limit. -/
def readBlocks : Nat → List UInt8 → List (MessageType × Component) →
    Except Fault (List (MessageType × Component))
  | 0, _, result => .ok result
  | fuel + 1, sub, result => do
    match readComponent (← blockHeader none none) sub with
    | .error _ => .ok result
    | .ok (header, sub) =>
      let length ← castU16 (← field header "length")
      let size ← checkedSub length.toNat (componentLength header)
      let (buffer, sub) ← readExact size sub
      let result ← match MessageType.fromU16 (← castU16 (← field header "type")) with
        | .scCore => do
          pure (insert .scCore (← within buffer (readComponent serverCoreData)) result)
        | .scSecurity => do
          pure (insert .scSecurity
            (← within buffer (readComponent serverSecurityData)) result)
        | .scNet => do
          pure (insert .scNet (← within buffer (readComponent serverNetworkData)) result)
        | _ => pure result
      readBlocks fuel sub result

/-- `cast!(DataType::U16, x).unwrap()`. -/
def unwrapU16 (message : Message) : Except Fault UInt16 :=
  match castU16 message with
  | .ok v => .ok v
  | .error _ => .error .panic

/-- The T.124 prelude of the response, up to the user-data length. -/
def readResponseHeader : Reader Nat := do
  let _ ← Per.readChoice
  Per.readObjectIdentifier t124Oid
  let _ ← Per.readLength
  let _ ← Per.readChoice
  let _ ← Per.readInteger16 1001
  let _ ← Per.readInteger
  let _ ← Per.readEnumerates
  let _ ← Per.readNumberOfSet
  let _ ← Per.readChoice
  Per.readOctetStream h221ScKey 4
  Per.readLength

/-- `read_conference_create_response`: the user data is read through `take(length)`. -/
def readConferenceCreateResponse (ccResponse : List UInt8) : Except Fault ServerData := do
  let (length, stream) ← readResponseHeader.run ccResponse
  let sub := stream.take length
  let result ← readBlocks sub.length sub []
  let net ← lookupBlock result .scNet
  let channelIds ← (← castTrame (← field net "channelIdArray")).mapM unwrapU16
  let core ← lookupBlock result .scCore
  let version := Version.fromU32 (← castU32 (← field core "rdpVersion"))
  pure { channelIds, rdpVersion := version }

/-! The server's side: a response around a given user data, and a user-data block. -/

/-- The PER length `write_length` gives `n`. -/
def perLength (n : Nat) : List UInt8 :=
  if n < 128 then [UInt8.ofNat n] else [UInt8.ofNat (n / 256) ||| 0x80, UInt8.ofNat n]

/-- A conference-create response carrying `userData`. -/
def conferenceCreateResponse (userData : List UInt8) : List UInt8 :=
  [0x00, 0x05] ++ Per.objectIdentifierBytes t124Oid ++
    [0x2a, 0x14, 0x03, 0xE9, 0x01, 0x00, 0x00, 0x01, 0xC0] ++ h221ScKey ++
    perLength userData.length ++ userData

/-- A user-data block: its type, its length with the header, and its body. -/
def block (type : UInt16) (body : List UInt8) : List UInt8 :=
  u16Le type ++ u16Le (UInt16.ofNat (body.length + 4)) ++ body

/-- The three ways a response makes the parser panic: no `ScNet` block, no `ScCore`
block, and a block length below the header's four bytes. -/
theorem readConferenceCreateResponse_panics :
    readConferenceCreateResponse (conferenceCreateResponse []) = .error .panic ∧
      readConferenceCreateResponse
        (conferenceCreateResponse (block 0x0C03 [0xEB, 0x03, 0x00, 0x00])) =
          .error .panic ∧
      readConferenceCreateResponse
        (conferenceCreateResponse [0x03, 0x0C, 0x00, 0x00]) = .error .panic := by
  refine ⟨?_, ?_, ?_⟩ <;> decide

/-- A response whose core block carries `RdpVersion as u32` reads back as
`RdpVersion5plus`. -/
theorem readConferenceCreateResponse_swaps_version :
    readConferenceCreateResponse (conferenceCreateResponse
        (block 0x0C01 (u32Le Version.rdpVersion.toU32 ++ u32Le 0) ++
          block 0x0C02 (u32Le 0 ++ u32Le 0) ++
          block 0x0C03 (u16Le 1003 ++ u16Le 1 ++ u16Le 1004 ++ [0, 0]))) =
      .ok { channelIds := [1004], rdpVersion := .rdpVersion5plus } := by
  decide

/-- A one-character name padded by bytes is 30 bytes of UTF-16, and a name whose byte 16
falls inside a character panics. -/
theorem clientCoreData_clientName :
    (clientCoreData (some ⟨1024, 768, .us, 0, .rdpVersion5plus, "é"⟩) >>=
        fun data => Message.length <$> field data "clientName") = .ok 30 ∧
      List.length <$>
          clientCoreData (some ⟨1024, 768, .us, 0, .rdpVersion5plus, "aéééééééé"⟩) =
        .error .panic := by
  constructor <;> decide

/-! ### The client name -/

theorem bytePrefix_spec (cs : List Char) (n : Nat) :
    match bytePrefix cs n with
    | .ok p => String.utf8Len p = n
    | .error e => e = .panic := by
  induction cs generalizing n with
  | nil => cases n <;> rfl
  | cons c cs ih =>
    cases n with
    | zero => rfl
    | succ n =>
      simp only [bytePrefix]
      split_ifs with hc
      · have := ih (n + 1 - c.utf8Size)
        rcases hq : bytePrefix cs (n + 1 - c.utf8Size) with e | q <;>
          simp only [hq, Functor.map, Except.map] at this ⊢
        · exact this
        · rw [String.utf8Len_cons, this]; omega
      · rfl

theorem utf8Len_replicate_nul (k : Nat) :
    String.utf8Len (List.replicate k '\x00') = k := by
  induction k with
  | zero => rfl
  | succ k ih => rw [List.replicate_succ, String.utf8Len_cons, ih]; rfl

theorem clientName_spec (name : String) :
    match clientName name with
    | .ok n => n.utf8ByteSize = 16
    | .error e => e = .panic := by
  unfold clientName
  split_ifs with h16
  · have := bytePrefix_spec name.toList 16
    rcases hq : bytePrefix name.toList 16 with e | q <;>
      simp only [hq, Functor.map, Except.map] at this ⊢
    · exact this
    · rw [String.utf8ByteSize_mk, this]
  · obtain ⟨cs⟩ := name
    rw [String.utf8ByteSize_mk] at h16
    show (String.mk (cs ++ List.replicate _ _)).utf8ByteSize = 16
    rw [String.utf8ByteSize_mk, String.utf8Len_append, utf8Len_replicate_nul,
        String.utf8ByteSize_mk]
    omega

/-- Whenever `client_core_data` returns, its `clientName` field is the UTF-16LE of the
name cut or padded to 16 bytes of UTF-8; it is 32 bytes long, as the field's width,
exactly when that name is ASCII, and shorter otherwise.  The only failure is the panic
of a cut inside a character. -/
theorem clientCoreData_clientName_length (client : ClientData) :
    (clientCoreData (some client) >>= fun data => field data "clientName") =
        (fun name => Message.bytes (toUtf16Le name)) <$> clientName client.name ∧
      match clientName client.name with
      | .ok name => name.utf8ByteSize = 16 ∧ (toUtf16Le name).length ≤ 32 ∧
          ((toUtf16Le name).length = 32 ↔ ∀ c ∈ name.toList, c.toNat < 0x80)
      | .error e => e = .panic := by
  have hspec := clientName_spec client.name
  rcases hname : clientName client.name with e | name <;> simp only [hname] at hspec ⊢
  · exact ⟨by simp [clientCoreData, hname, bind, Except.bind], hspec⟩
  · refine ⟨?_, hspec, ?_, ?_⟩
    · simp [clientCoreData, hname, bind, Except.bind, field, List.lookup, pure,
        Except.pure]
    · have := length_toUtf16Le_le name; omega
    · rw [← length_toUtf16Le_eq_iff, hspec]

end Rdp.Core.Gcc
