import Rdp.Core.Gcc

namespace Rdp.Core.Gcc

/-! `read_conference_create_response` on what a server writes: blocks in any order, the
last network and core blocks giving the channel ids and the version. -/

open Rdp.Model

theorem perLength_table : ∀ k < 128, (UInt8.ofNat k ||| 0x80) &&& 0x80 ≠ 0 ∧
    ((UInt8.ofNat k ||| 0x80) &&& 0x7f).toNat = k := by
  decide

theorem readLength_perLength {n : Nat} (h : n < 2 ^ 15) (s : List UInt8) :
    Per.readLength (perLength n ++ s) = .ok (n, s) := by
  unfold perLength
  split_ifs with hn
  · have hb : (UInt8.ofNat n).toNat = n :=
      UInt8.toNat_ofNat_of_lt (by simp [UInt8.size]; omega)
    rw [List.singleton_append, Per.readLength_of_lt (by rw [hb]; exact hn) s, hb]
  · obtain ⟨hand, hhigh⟩ := perLength_table (n / 256) (by omega)
    rw [List.cons_append, List.cons_append, List.nil_append,
      Per.readLength_of_and hand, hhigh, show (UInt8.ofNat n).toNat = n % 256 from rfl]
    simp only [Except.ok.injEq, Prod.mk.injEq, and_true]
    omega

theorem readComponent_blockHeader (type length : UInt16) (s : List UInt8) :
    readComponent [("type", .leaf (.u16Le 0xC001)), ("length", .leaf (.u16Le 4))]
        (u16Le type ++ (u16Le length ++ s)) =
      .ok ([("type", .leaf (.u16Le type)), ("length", .leaf (.u16Le length))], s) := by
  rw [readComponent, readFields_leaf (by simp) (by rfl) (Value.read_u16Le_append _ _ _),
    readFields_leaf (by simp) (by rfl) (Value.read_u16Le_append _ _ _)]
  rfl

theorem readBlocks_block {type : UInt16} {body : List UInt8}
    (h : body.length + 4 < 2 ^ 16)
    (fuel : Nat) (rest : List UInt8) (result : List (MessageType × Component)) :
    readBlocks (fuel + 1) (block type body ++ rest) result = (do
      let result ← match MessageType.fromU16 type with
        | .scCore => do
          pure (insert .scCore (← within body (readComponent serverCoreData)) result)
        | .scSecurity => do
          pure (insert .scSecurity
            (← within body (readComponent serverSecurityData)) result)
        | .scNet => do
          pure (insert .scNet (← within body (readComponent serverNetworkData)) result)
        | _ => pure result
      readBlocks fuel rest result) := by
  have hlength : (UInt16.ofNat (body.length + 4)).toNat = body.length + 4 :=
    UInt16.toNat_ofNat_of_lt (by simpa [UInt16.size] using h)
  cases hkey : MessageType.fromU16 type <;>
  simp only [readBlocks, show blockHeader none none =
    .ok [("type", .leaf (.u16Le 0xC001)), ("length", .leaf (.u16Le 4))] from rfl, block,
    List.append_assoc, bind, Except.bind, readComponent_blockHeader, field, List.lookup,
    String.reduceBEq, beq_self_eq_true, castU16, Message.visit, Value.visit, hlength,
    componentLength, Message.length, Value.size, add_zero, Nat.reduceAdd,
    le_add_iff_nonneg_left, zero_le, checkedSub_of_le, add_tsub_cancel_right,
    readExact_append, hkey]

theorem readBlocks_nil (fuel : Nat) (result : List (MessageType × Component)) :
    readBlocks fuel [] result = .ok result := by
  cases fuel <;> rfl

theorem within_serverCoreData (version : UInt32) (rest : List UInt8) :
    ∃ options, within (u32Le version ++ rest) (readComponent serverCoreData) =
      .ok (("rdpVersion", .leaf (.u32Le version)) :: options) := by
  obtain ⟨m1, s1, h1, o1⟩ := read_optional (.u32Le 0) rest
  obtain ⟨m2, s2, h2, o2⟩ := read_optional (.u32Le 0) s1
  simp only [within, readComponent, serverCoreData, StateT.run]
  rw [readFields_leaf (by simp) (by rfl) (Value.read_u32Le_append _ _ _),
      readFields_cons (by simp) (by rfl), h1]
  simp only [o1]
  rw [readFields_cons (by simp) (by rfl), h2]
  simp only [o2]
  exact ⟨[("clientRequestedProtocol", m1), ("earlyCapabilityFlags", m2)], rfl⟩

theorem within_serverSecurityData (method level : UInt32) (rest : List UInt8) :
    within (u32Le method ++ (u32Le level ++ rest)) (readComponent serverSecurityData) =
      .ok [("encryptionMethod", .leaf (.u32Le method)),
        ("encryptionLevel", .leaf (.u32Le level))] := by
  simp only [within, readComponent, serverSecurityData, StateT.run]
  rw [readFields_leaf (by simp) (by rfl) (Value.read_u32Le_append _ _ _),
    readFields_leaf (by simp) (by rfl) (Value.read_u32Le_append _ _ _)]
  rfl

theorem within_serverNetworkData {ids : List UInt16}
    (h : ids.length < 2 ^ 16) (pad : List UInt8) :
    within (u16Le 1003 ++ (u16Le (UInt16.ofNat ids.length) ++ (ids.flatMap u16Le ++ pad)))
        (readComponent serverNetworkData) =
      .ok [("MCSChannelId", .check (.u16Le 1003)),
        ("channelCount", .dynOption (.u16Le (UInt16.ofNat ids.length)) fun count =>
          .ok (.size "channelIdArray" (Value.inner count * 2))),
        ("channelIdArray", .array (.u16Le 0) (ids.map .u16Le))] := by
  have hcount : (UInt16.ofNat ids.length).toNat = ids.length :=
    UInt16.toNat_ofNat_of_lt (by simpa [UInt16.size] using h)
  have hbytes := length_flatMap_u16Le ids
  simp only [within, readComponent, serverNetworkData, StateT.run]
  rw [readFields_cons (by simp) (by rfl), read_check, Value.read_u16Le_append]
  simp only [if_true, Message.options]
  rw [readFields_cons (by simp) (by rfl), read_dynOption, Value.read_u16Le_append]
  simp only [Functor.map, Except.map, Message.options, Value.inner, hcount]
  have harray : within (ids.flatMap u16Le) (Message.array (.u16Le 0) []).read =
      .ok (.array (.u16Le 0) (ids.map .u16Le)) := by
    simp only [within, Message.read, StateT.run, bind, StateT.bind,
      Except.bind, get, getThe, MonadStateOf.get, StateT.get,
      @readItems_u16Le ids (ids.length * 2) (by omega), pure,
          StateT.pure, Except.pure,
      Functor.map, Except.map, hbytes]
  rw [readFields_cons_sized (by simp) (by rfl), ← hbytes, readExact_append]
  simp only [harray, Message.options]
  rfl

theorem readResponseHeader_response {userData : List UInt8}
    (h : userData.length < 2 ^ 15) :
    readResponseHeader (conferenceCreateResponse userData) =
      .ok (userData.length, userData) := by
  have hbytes : conferenceCreateResponse userData =
      0x00 :: 0x05 :: (Per.objectIdentifierBytes t124Oid ++
      0x2a :: 0x14 :: 0x03 :: 0xE9 :: 0x01 :: 0x00 :: 0x00 :: 0x01 :: 0xC0 ::
        (h221ScKey ++ (perLength userData.length ++ userData))) := by
    simp [conferenceCreateResponse]
  rw [hbytes, readResponseHeader, readerBind_of_ok (Per.readChoice_cons _ _),
    readerBind_of_ok (@Per.readObjectIdentifier_bytes t124Oid rfl _),
    readerBind_of_ok (Per.readLength_of_lt (show (0x2a : UInt8).toNat < 128 by decide) _),
    readerBind_of_ok (Per.readChoice_cons _ _),
    readerBind_of_ok (@Per.readInteger16_of_eq 1001 3 0xE9 rfl _),
    readerBind_of_ok (Per.readInteger_one _ _),
    readerBind_of_ok (Per.readEnumerates_cons _ _),
    readerBind_of_ok (Per.readNumberOfSet_cons _ _),
    readerBind_of_ok (Per.readChoice_cons _ _),
    readerBind_of_ok (@Per.readOctetStream_bytes h221ScKey 4 le_rfl _),
    readLength_perLength h]

theorem lookupBlock_insert (key : MessageType) (block : Component)
    (result : List (MessageType × Component)) :
    lookupBlock (insert key block result) key = .ok block := by
  simp [lookupBlock, insert, List.lookup]

theorem lookupBlock_insert_of_ne {key key' : MessageType}
    (h : key ≠ key') (block : Component)
    (result : List (MessageType × Component)) :
    lookupBlock (insert key block result) key' = lookupBlock result key' := by
  have hfilter : ∀ result : List (MessageType × Component),
      (result.filter fun x => !decide (x.1 = key)).lookup key' = result.lookup key' := by
    intro result
    induction result with
    | nil => rfl
    | cons entry result ih =>
      obtain ⟨k, b⟩ := entry
      by_cases hk : k = key
      · subst hk
        simp [List.filter, List.lookup, ih, beq_false_of_ne (Ne.symm h)]
      · by_cases hk' : key' = k
        · subst hk'
          simp [List.filter, List.lookup, hk]
        · simp [List.filter, List.lookup, hk, beq_false_of_ne hk', ih]
  simp [lookupBlock, insert, List.lookup, beq_false_of_ne (Ne.symm h), hfilter]

theorem mapM_unwrapU16 (ids : List UInt16) :
    ((ids.map Value.u16Le).map Message.leaf).mapM unwrapU16 = .ok ids := by
  induction ids with
  | nil => rfl
  | cons id ids ih =>
    rw [List.map_cons, List.map_cons, List.mapM_cons, ih]
    rfl

/-- A user-data block of a server: its core data (the version, then any further fields),
its security data (method and level, then anything), its network data (`MCSChannelId`
1003, the channel count, the channel ids, then any padding), or a block of another type.
-/
inductive ServerBlock
  | core (version : UInt32) (rest : List UInt8)
  | security (method level : UInt32) (rest : List UInt8)
  | net (ids : List UInt16) (pad : List UInt8)
  | other (type : UInt16) (body : List UInt8)
      (hother : MessageType.fromU16 type ≠ .scCore ∧
        MessageType.fromU16 type ≠ .scSecurity ∧ MessageType.fromU16 type ≠ .scNet)

/-- The bytes of a block: its header and its body. -/
def ServerBlock.bytes : ServerBlock → List UInt8
  | .core version rest => block 0x0C01 (u32Le version ++ rest)
  | .security method level rest => block 0x0C02 (u32Le method ++ u32Le level ++ rest)
  | .net ids pad =>
    block 0x0C03 (u16Le 1003 ++ u16Le (UInt16.ofNat ids.length) ++
      ids.flatMap u16Le ++ pad)
  | .other type body _ => block type body

def ServerBlock.version? : ServerBlock → Option UInt32
  | .core version _ => some version
  | _ => none

def ServerBlock.ids? : ServerBlock → Option (List UInt16)
  | .net ids _ => some ids
  | _ => none

/-- The version of the last core block after `version`. -/
def lastVersion (blocks : List ServerBlock) (version : Option UInt32) : Option UInt32 :=
  blocks.foldl (fun version b => b.version?.or version) version

/-- The channel ids of the last network block after `ids`. -/
def lastIds (blocks : List ServerBlock) (ids : Option (List UInt16)) :
    Option (List UInt16) :=
  blocks.foldl (fun ids b => b.ids?.or ids) ids

/-- What the block map holds after some blocks: the last network block's channel ids and
the last core block's version, each of them a panic to look up while there is none. -/
structure Tracks (ids : Option (List UInt16)) (version : Option UInt32)
    (result : List (MessageType × Component)) : Prop where
  net : match ids with
    | some ids => ∃ c, lookupBlock result .scNet = .ok c ∧
        field c "channelIdArray" = .ok (.array (.u16Le 0) (ids.map .u16Le))
    | none => lookupBlock result .scNet = .error .panic
  core : match version with
    | some version => ∃ c, lookupBlock result .scCore = .ok c ∧
        field c "rdpVersion" = .ok (.leaf (.u32Le version))
    | none => lookupBlock result .scCore = .error .panic

@[simp] theorem length_block (type : UInt16) (body : List UInt8) :
    (block type body).length = body.length + 4 := by
  simp [block]
  omega

theorem length_bytes (b : ServerBlock) : 4 ≤ b.bytes.length := by
  cases b <;> simp [ServerBlock.bytes]

theorem tracks_nil : Tracks none none [] := ⟨rfl, rfl⟩

theorem Tracks.insert_of_ne {ids : Option (List UInt16)} {version : Option UInt32}
    {result : List (MessageType × Component)}
    (h : Tracks ids version result) {key : MessageType}
    (hnet : key ≠ .scNet) (hcore : key ≠ .scCore) (c : Component) :
    Tracks ids version (insert key c result) := by
  constructor
  · rw [lookupBlock_insert_of_ne hnet]
    exact h.net
  · rw [lookupBlock_insert_of_ne hcore]
    exact h.core

theorem Tracks.insert_core {ids : Option (List UInt16)} {version : Option UInt32}
    {result : List (MessageType × Component)}
    (h : Tracks ids version result) {c : Component}
    {v : UInt32} (hc : field c "rdpVersion" = .ok (.leaf (.u32Le v))) :
    Tracks ids (some v) (insert .scCore c result) := by
  constructor
  · rw [lookupBlock_insert_of_ne (by decide)]
    exact h.net
  · exact ⟨c, lookupBlock_insert _ _ _, hc⟩

theorem Tracks.insert_net {ids : Option (List UInt16)} {version : Option UInt32}
    {result : List (MessageType × Component)}
    (h : Tracks ids version result) {c : Component}
    {channels : List UInt16}
    (hc : field c "channelIdArray" = .ok (.array (.u16Le 0) (channels.map .u16Le))) :
    Tracks (some channels) version (insert .scNet c result) := by
  constructor
  · exact ⟨c, lookupBlock_insert _ _ _, hc⟩
  · rw [lookupBlock_insert_of_ne (by decide)]
    exact h.core

/-- One block read into the map. -/
theorem readBlocks_serverBlock {ids : Option (List UInt16)} {version : Option UInt32}
    {result : List (MessageType × Component)} (hresult : Tracks ids version result)
    {b : ServerBlock} (hb : b.bytes.length < 2 ^ 16) (fuel : Nat) (rest : List UInt8) :
    ∃ result', readBlocks (fuel + 1) (b.bytes ++ rest) result =
      readBlocks fuel rest result' ∧
      Tracks (b.ids?.or ids) (b.version?.or version) result' := by
  cases b with
  | core v coreRest =>
    obtain ⟨options, hcore⟩ := within_serverCoreData v coreRest
    refine ⟨_, ?_,
      hresult.insert_core (c := ("rdpVersion", .leaf (.u32Le v)) :: options) rfl⟩
    rw [ServerBlock.bytes, readBlocks_block (by simpa [ServerBlock.bytes] using hb)]
    simp only [show MessageType.fromU16 0x0C01 = .scCore from rfl,
      hcore, bind, Except.bind, pure, Except.pure]
  | security m l securityRest =>
    refine ⟨_, ?_, hresult.insert_of_ne
      (by decide : MessageType.scSecurity ≠ .scNet) (by decide)
      [("encryptionMethod", .leaf (.u32Le m)), ("encryptionLevel", .leaf (.u32Le l))]⟩
    rw [ServerBlock.bytes, readBlocks_block (by simpa [ServerBlock.bytes] using hb)]
    simp only [show MessageType.fromU16 0x0C02 = .scSecurity from rfl, List.append_assoc,
      within_serverSecurityData, bind, Except.bind, pure, Except.pure]
  | net channels pad =>
    have hchannels : channels.length < 2 ^ 16 := by
      simp only [ServerBlock.bytes, length_block, List.length_append, length_u16Le,
        length_flatMap_u16Le] at hb
      omega
    refine ⟨_, ?_, hresult.insert_net (c := [("MCSChannelId", .check (.u16Le 1003)),
      ("channelCount", .dynOption (.u16Le (UInt16.ofNat channels.length)) fun count =>
        .ok (.size "channelIdArray" (Value.inner count * 2))),
      ("channelIdArray", .array (.u16Le 0) (channels.map .u16Le))]) rfl⟩
    rw [ServerBlock.bytes, readBlocks_block (by simpa [ServerBlock.bytes] using hb)]
    simp only [show MessageType.fromU16 0x0C03 = .scNet from rfl, List.append_assoc,
      within_serverNetworkData hchannels, bind, Except.bind, pure, Except.pure]
  | other type body hother =>
    refine ⟨result, ?_, hresult⟩
    rw [ServerBlock.bytes, readBlocks_block (by simpa [ServerBlock.bytes] using hb)]
    obtain ⟨h1, h2, h3⟩ := hother
    clear hb
    generalize MessageType.fromU16 type = key at h1 h2 h3 ⊢
    cases key <;> first | rfl | contradiction

/-- The block loop over a run of blocks, with enough fuel: every block is read into the
map. -/
theorem readBlocks_serverBlocks : ∀ {blocks : List ServerBlock} {fuel : Nat}
    {ids : Option (List UInt16)} {version : Option UInt32}
    {result : List (MessageType × Component)},
    blocks.length ≤ fuel → (blocks.flatMap ServerBlock.bytes).length < 2 ^ 16 →
    Tracks ids version result →
    ∃ result', readBlocks fuel (blocks.flatMap ServerBlock.bytes) result = .ok result' ∧
      Tracks (lastIds blocks ids) (lastVersion blocks version) result'
  | [], fuel, _, _, result, _, _, h => ⟨result, readBlocks_nil fuel result, h⟩
  | b :: blocks, fuel + 1, _, _, _, hfuel, hlength, h => by
    rw [List.flatMap_cons, List.length_append] at hlength
    obtain ⟨result', hstep, h'⟩ :=
      readBlocks_serverBlock h (b := b) (by omega) fuel (blocks.flatMap ServerBlock.bytes)
    rw [List.flatMap_cons, hstep]
    exact readBlocks_serverBlocks (by simpa using hfuel) (by omega) h'

theorem length_le_length_flatMap_bytes (blocks : List ServerBlock) :
    blocks.length ≤ (blocks.flatMap ServerBlock.bytes).length := by
  induction blocks with
  | nil => exact Nat.le_refl 0
  | cons b blocks ih =>
    rw [List.flatMap_cons, List.length_append, List.length_cons]
    have := length_bytes b
    omega

/-- `read_conference_create_response` on a response whose user data is any sequence of
blocks, in any order and with blocks of other types among them: it returns the channel
ids of the last network block and `Version::from` the version of the last core block,
and panics (a `HashMap` index) when either block is missing. -/
theorem readConferenceCreateResponse_serverBlocks {blocks : List ServerBlock}
    (h : (blocks.flatMap ServerBlock.bytes).length < 2 ^ 15) :
    readConferenceCreateResponse
        (conferenceCreateResponse (blocks.flatMap ServerBlock.bytes)) =
      match lastIds blocks none, lastVersion blocks none with
      | some ids, some version =>
        .ok { channelIds := ids, rdpVersion := Version.fromU32 version }
      | _, _ => .error .panic := by
  obtain ⟨result, hread, hnet, hcore⟩ :=
    readBlocks_serverBlocks (length_le_length_flatMap_bytes blocks) (by omega) tracks_nil
  rw [readConferenceCreateResponse]
  simp only [StateT.run, readResponseHeader_response h, bind,
    Except.bind, List.take_length, hread]
  generalize lastIds blocks none = ids at hnet ⊢
  generalize lastVersion blocks none = version at hcore ⊢
  rcases ids with _ | ids
  · simp only [hnet]
  obtain ⟨net, hnet, hfield⟩ := hnet
  simp only [hnet, hfield, castTrame, Message.visit, mapM_unwrapU16]
  rcases version with _ | version
  · simp only [hcore]
  obtain ⟨core, hcore, hversion⟩ := hcore
  simp only [hcore, hversion, castU32, Message.visit, Value.visit, pure, Except.pure]

theorem readConferenceCreateResponse_serverBlocks_anyOrder :
    ([ServerBlock.net [1004, 1005] [], .other 0x0C04 [1, 2, 3] (by decide),
        .core 0x00080004 (u32Le 3 ++ u32Le 0), .security 0 0 []].flatMap
          ServerBlock.bytes).length < 2 ^ 15 ∧
      readConferenceCreateResponse (conferenceCreateResponse
        ([ServerBlock.net [1004, 1005] [], .other 0x0C04 [1, 2, 3] (by decide),
          .core 0x00080004 (u32Le 3 ++ u32Le 0), .security 0 0 []].flatMap
            ServerBlock.bytes)) =
        .ok { channelIds := [1004, 1005], rdpVersion := .rdpVersion } :=
  ⟨by decide, (readConferenceCreateResponse_serverBlocks (by decide)).trans rfl⟩

end Rdp.Core.Gcc
