import Rdp.Model.Data

namespace Rdp.Core.License

/-! `core/license.rs`: the licensing exchange, of which the client accepts only a new
license or a "valid client" error alert. -/

open Rdp.Model

inductive MessageType
  | licenseRequest
  | platformChallenge
  | newLicense
  | upgradeLicense
  | licenseInfo
  | newLicenseRequest
  | platformChallengeResponse
  | errorAlert
deriving DecidableEq, Repr

/-- `MessageType::try_from`, derived by `TryFromPrimitive`. -/
def MessageType.tryFrom (b : UInt8) : Except Fault MessageType :=
  if b = 0x01 then .ok .licenseRequest
  else if b = 0x02 then .ok .platformChallenge
  else if b = 0x03 then .ok .newLicense
  else if b = 0x04 then .ok .upgradeLicense
  else if b = 0x12 then .ok .licenseInfo
  else if b = 0x13 then .ok .newLicenseRequest
  else if b = 0x15 then .ok .platformChallengeResponse
  else if b = 0xFF then .ok .errorAlert
  else .error (.error .tryError)

inductive ErrorCode
  | errInvalidServerCertificate
  | errNoLicense
  | errInvalidScope
  | errNoLicenseServer
  | statusValidClient
  | errInvalidClient
  | errInvalidProductid
  | errInvalidMessageLen
  | errInvalidMac
deriving DecidableEq, Repr

def ErrorCode.tryFrom (e : UInt32) : Except Fault ErrorCode :=
  if e = 0x01 then .ok .errInvalidServerCertificate
  else if e = 0x02 then .ok .errNoLicense
  else if e = 0x04 then .ok .errInvalidScope
  else if e = 0x06 then .ok .errNoLicenseServer
  else if e = 0x07 then .ok .statusValidClient
  else if e = 0x08 then .ok .errInvalidClient
  else if e = 0x0B then .ok .errInvalidProductid
  else if e = 0x0C then .ok .errInvalidMessageLen
  else if e = 0x03 then .ok .errInvalidMac
  else .error (.error .tryError)

inductive StateTransition
  | totalAbort
  | noTransition
  | resetPhaseToStart
  | resendLastMessage
deriving DecidableEq, Repr

def StateTransition.tryFrom (e : UInt32) : Except Fault StateTransition :=
  if e = 0x01 then .ok .totalAbort
  else if e = 0x02 then .ok .noTransition
  else if e = 0x03 then .ok .resetPhaseToStart
  else if e = 0x04 then .ok .resendLastMessage
  else .error (.error .tryError)

/-- The license preamble.  `size.inner() as usize - 4` is a `usize` subtraction. -/
def preamble : Component :=
  [("bMsgtype", .leaf (.u8 0)),
    ("flag", .check (.u8 0x03)),
    ("wMsgSize", .dynOption (.u16Le 0) fun size =>
      (MessageOption.size "message" ·) <$> checkedSub size.inner 4),
    ("message", .bytes [])]

def licenseBinaryBlob : Component :=
  [("wBlobType", .leaf (.u16Le 0)),
    ("wBlobLen", .dynOption (.u16Le 0) fun size => .ok (.size "blobData" size.inner)),
    ("blobData", .bytes [])]

def licensingErrorMessage : Component :=
  [("dwErrorCode", .leaf (.u32Le 0)),
    ("dwStateTransition", .leaf (.u32Le 0)),
    ("blob", .component licenseBinaryBlob)]

inductive LicenseMessage
  | newLicense
  | errorAlert (message : Component)

/-- `parse_payload`: only a new license or an error alert is accepted. -/
def parsePayload (payload : Component) : Except Fault LicenseMessage := do
  match ← MessageType.tryFrom (← castU8 (← field payload "bMsgtype")) with
  | .newLicense => pure .newLicense
  | .errorAlert =>
    let stream ← castSlice (← field payload "message")
    pure (.errorAlert (← within stream (readComponent licensingErrorMessage)))
  | _ => throw (Fault.rdp .notImplemented "Licensing nego not implemented")

def invalidRespond : Fault :=
  Fault.rdp .invalidRespond
    "Server reject license, Actually license nego is not implemented"

/-- `client_connect`.  The `&&` reads the state transition only after a valid error
code. -/
def clientConnect (s : List UInt8) : Except Fault Unit := do
  let licenseMessage ← within s (readComponent preamble)
  match ← parsePayload licenseMessage with
  | .newLicense => pure ()
  | .errorAlert blob =>
    if (← ErrorCode.tryFrom (← castU32 (← field blob "dwErrorCode"))) =
        .statusValidClient then
      if (← StateTransition.tryFrom (← castU32 (← field blob "dwStateTransition"))) =
          .noTransition then pure ()
      else throw invalidRespond
    else throw invalidRespond

/-- A preamble whose size field is below its own four bytes makes `client_connect`
panic. -/
theorem clientConnect_short_size_panics :
    clientConnect [0x03, 0x03, 0x00, 0x00] = .error .panic := by
  decide

/-! ### What `client_connect` accepts -/

theorem within_preamble (t f lo hi : UInt8) (tail : List UInt8) :
    within (t :: f :: lo :: hi :: tail) (readComponent preamble) =
      if f = 3 then
        if 4 ≤ (wordOfBytes lo hi).toNat then
          if (wordOfBytes lo hi).toNat - 4 ≤ tail.length then
            .ok [("bMsgtype", .leaf (.u8 t)), ("flag", .check (.u8 3)),
              ("wMsgSize", .dynOption (.u16Le (wordOfBytes lo hi)) fun size =>
                (MessageOption.size "message" ·) <$> checkedSub size.inner 4),
              ("message", .bytes (tail.take ((wordOfBytes lo hi).toNat - 4)))]
          else .error (.error .io)
        else .error .panic
      else .error (Fault.rdp .invalidConst "Invalid constness of data") := by
  simp only [within, readComponent, preamble, StateT.run]
  rw [readFields_leaf (by simp) (by rfl) (Value.read_u8 _ _ _),
    readFields_cons (by simp) (by rfl), read_check, Value.read_u8]
  by_cases hf : f = 3
  swap
  · simp [hf]
  subst hf
  simp only [if_true, Message.options]
  rw [readFields_cons (by simp) (by rfl), read_dynOption, Value.read_u16Le]
  simp only [Functor.map, Except.map, Message.options, Value.inner]
  by_cases h4 : 4 ≤ (wordOfBytes lo hi).toNat
  swap
  · simp [h4, checkedSub]
  rw [checkedSub_of_le h4]
  simp only [if_true, h4]
  rw [readFields_cons_bytes (by simp) (by rfl)]
  by_cases hl : (wordOfBytes lo hi).toNat - 4 ≤ tail.length
  · simp [readExact, hl, readFields]
    rfl
  · simp [readExact, hl]

theorem within_licensingErrorMessage
    (c0 c1 c2 c3 d0 d1 d2 d3 t0 t1 l0 l1 : UInt8) (tail : List UInt8) :
    within (c0 :: c1 :: c2 :: c3 :: d0 :: d1 :: d2 :: d3 :: t0 :: t1 :: l0 :: l1 :: tail)
        (readComponent licensingErrorMessage) =
      if (wordOfBytes l0 l1).toNat ≤ tail.length then
        .ok [("dwErrorCode", .leaf (.u32Le (dwordOfBytes c0 c1 c2 c3))),
          ("dwStateTransition", .leaf (.u32Le (dwordOfBytes d0 d1 d2 d3))),
          ("blob", .component [("wBlobType", .leaf (.u16Le (wordOfBytes t0 t1))),
            ("wBlobLen", .dynOption (.u16Le (wordOfBytes l0 l1)) fun size =>
              .ok (.size "blobData" size.inner)),
            ("blobData", .bytes (tail.take (wordOfBytes l0 l1).toNat))])]
      else .error (.error .io) := by
  simp only [within, readComponent, licensingErrorMessage, licenseBinaryBlob, StateT.run]
  rw [readFields_leaf (by simp) (by rfl) (Value.read_u32Le _ _ _ _ _ _),
    readFields_leaf (by simp) (by rfl) (Value.read_u32Le _ _ _ _ _ _),
    readFields_cons (by simp) (by rfl), read_component,
    readFields_leaf (by simp) (by rfl) (Value.read_u16Le _ _ _ _),
    readFields_cons (by simp) (by rfl), read_dynOption, Value.read_u16Le]
  simp only [Functor.map, Except.map, Message.options, Value.inner]
  rw [readFields_cons_bytes (by simp) (by rfl)]
  by_cases hl : (wordOfBytes l0 l1).toNat ≤ tail.length
  · simp [readExact, hl, readFields]
    rfl
  · simp [readExact, hl]

theorem within_preamble_short {s : List UInt8} (h : s.length < 4) (c : Component) :
    within s (readComponent preamble) ≠ .ok c := by
  simp only [within, readComponent, preamble, StateT.run]
  rcases s with _ | ⟨t, _ | ⟨f, _ | ⟨lo, _ | ⟨hi, tail⟩⟩⟩⟩
  · simp [readFields_cons, read_leaf, Value.read, readU8,
      Functor.map, StateT.map, Except.map]
  · simp [readFields_cons, read_leaf, read_check, Value.read,
      readU8, Functor.map, StateT.map, Except.map, Message.options]
  all_goals first
    | simp only [List.length_cons] at h; omega
    | rw [readFields_cons (by simp) (by rfl), read_leaf, Value.read_u8]
      simp only [Functor.map, Except.map, Message.options]
      rw [readFields_cons (by simp) (by rfl), read_check, Value.read_u8]
      by_cases hf : f = 3
      · simp [hf, Message.options, readFields_cons, read_dynOption, Value.read, readU16Le,
          Functor.map, StateT.map, Except.map]
      · simp [hf]

theorem within_licensingErrorMessage_short {s : List UInt8}
    (h : s.length < 12) (c : Component) :
    within s (readComponent licensingErrorMessage) ≠ .ok c := by
  simp only [within, readComponent, licensingErrorMessage, licenseBinaryBlob, StateT.run]
  iterate 12
    rcases s with _ | ⟨_, s⟩
    · simp [readFields_cons, read_leaf, read_component,
        read_dynOption, Value.read, readU32Le, readU16Le, Functor.map, StateT.map,
        Except.map, Message.options]
  simp only [List.length_cons] at h
  omega

theorem within_preamble_ok {s : List UInt8} {c : Component}
    (h : within s (readComponent preamble) = .ok c) :
    ∃ t lo hi tail, s = t :: 0x03 :: lo :: hi :: tail ∧ 4 ≤ (wordOfBytes lo hi).toNat ∧
      (wordOfBytes lo hi).toNat - 4 ≤ tail.length ∧
      c = [("bMsgtype", .leaf (.u8 t)), ("flag", .check (.u8 3)),
        ("wMsgSize", .dynOption (.u16Le (wordOfBytes lo hi)) fun size =>
          (MessageOption.size "message" ·) <$> checkedSub size.inner 4),
        ("message", .bytes (tail.take ((wordOfBytes lo hi).toNat - 4)))] := by
  rcases s with _ | ⟨t, _ | ⟨f, _ | ⟨lo, _ | ⟨hi, tail⟩⟩⟩⟩
  iterate 4 exact absurd h (within_preamble_short (by simp) c)
  rw [within_preamble] at h
  split_ifs at h with hf h4 hl
  · subst hf
    exact ⟨t, lo, hi, tail, rfl, h4, hl, (Except.ok.inj h).symm⟩

theorem within_licensingErrorMessage_ok {m : List UInt8} {c : Component}
    (h : within m (readComponent licensingErrorMessage) = .ok c) :
    ∃ c0 c1 c2 c3 d0 d1 d2 d3 t0 t1 l0 l1 tail,
      m = c0 :: c1 :: c2 :: c3 :: d0 :: d1 :: d2 :: d3 :: t0 :: t1 :: l0 :: l1 :: tail ∧
      (wordOfBytes l0 l1).toNat ≤ tail.length ∧
      c = [("dwErrorCode", .leaf (.u32Le (dwordOfBytes c0 c1 c2 c3))),
        ("dwStateTransition", .leaf (.u32Le (dwordOfBytes d0 d1 d2 d3))),
        ("blob", .component [("wBlobType", .leaf (.u16Le (wordOfBytes t0 t1))),
          ("wBlobLen", .dynOption (.u16Le (wordOfBytes l0 l1)) fun size =>
            .ok (.size "blobData" size.inner)),
          ("blobData", .bytes (tail.take (wordOfBytes l0 l1).toNat))])] := by
  by_cases hlen : m.length < 12
  · exact absurd h (within_licensingErrorMessage_short hlen c)
  iterate 12
    rcases m with _ | ⟨_, m⟩
    · simp at hlen
  rw [within_licensingErrorMessage] at h
  split_ifs at h with hl
  exact ⟨_, _, _, _, _, _, _, _, _, _, _, _, _, rfl, hl, (Except.ok.inj h).symm⟩

/-- The server messages `client_connect` lets through: a preamble with the version-3
flag and a size that covers its own four bytes and the message after them, where the
message is a new license, or an error alert with error code `STATUS_VALID_CLIENT`, state
transition `ST_NO_TRANSITION` and a whole blob.  What follows the message is not read. -/
inductive Accepted : List UInt8 → Prop
  | newLicense {size : UInt16} {message : List UInt8} (rest : List UInt8)
      (hsize : 4 ≤ size.toNat) (hlen : message.length = size.toNat - 4) :
      Accepted (0x03 :: 0x03 :: u16Le size ++ message ++ rest)
  | validClient {size blobType blobLen : UInt16}
      {blob more : List UInt8} (rest : List UInt8)
      (hblob : blob.length = blobLen.toNat)
      (hlen : 12 + blob.length + more.length = size.toNat - 4) :
      Accepted (0xFF :: 0x03 :: u16Le size ++
        (u32Le 7 ++ u32Le 2 ++ u16Le blobType ++ u16Le blobLen ++ blob ++ more) ++ rest)

theorem MessageType.tryFrom_eq_newLicense {b : UInt8}
    (h : MessageType.tryFrom b = .ok .newLicense) : b = 3 := by
  by_contra hne
  simp [MessageType.tryFrom, hne, apply_ite (· = Except.ok MessageType.newLicense)] at h

theorem MessageType.tryFrom_eq_errorAlert {b : UInt8}
    (h : MessageType.tryFrom b = .ok .errorAlert) : b = 0xFF := by
  by_contra hne
  simp [MessageType.tryFrom, hne, apply_ite (· = Except.ok MessageType.errorAlert)] at h

theorem ErrorCode.tryFrom_eq_statusValidClient {e : UInt32}
    (h : ErrorCode.tryFrom e = .ok .statusValidClient) : e = 7 := by
  by_contra hne
  simp [ErrorCode.tryFrom, hne,
    apply_ite (· = Except.ok ErrorCode.statusValidClient)] at h

theorem StateTransition.tryFrom_eq_noTransition {e : UInt32}
    (h : StateTransition.tryFrom e = .ok .noTransition) : e = 2 := by
  by_contra hne
  simp [StateTransition.tryFrom, hne,
    apply_ite (· = Except.ok StateTransition.noTransition)] at h

/-- `parse_payload` on a read preamble: a new license, or an error alert whose message
parses. -/
theorem parsePayload_preamble {t : UInt8} {wMsgSize : Message} {m : List UInt8}
    {msg : LicenseMessage}
    (h : parsePayload [("bMsgtype", .leaf (.u8 t)), ("flag", .check (.u8 3)),
      ("wMsgSize", wMsgSize), ("message", .bytes m)] = .ok msg) :
    (t = 3 ∧ msg = .newLicense) ∨
      (t = 0xFF ∧ ∃ blob, within m (readComponent licensingErrorMessage) = .ok blob ∧
        msg = .errorAlert blob) := by
  simp [parsePayload, field, castU8, castSlice, List.lookup, Message.visit, Value.visit,
    bind, Except.bind] at h
  rcases ht : MessageType.tryFrom t with e | ty
  · simp [ht] at h
  cases ty <;> simp [ht, pure, Except.pure] at h
  · exact .inl ⟨MessageType.tryFrom_eq_newLicense ht, h.symm⟩
  · rcases hb : within m (readComponent licensingErrorMessage) with e | blob <;>
      simp [hb, pure, Except.pure] at h
    exact .inr ⟨MessageType.tryFrom_eq_errorAlert ht, blob, rfl, h.symm⟩

theorem accepted_of_clientConnect {s : List UInt8} (h : clientConnect s = .ok ()) :
    Accepted s := by
  rcases hp : within s (readComponent preamble) with e | c
  · simp [clientConnect, hp, bind, Except.bind] at h
  obtain ⟨t, lo, hi, tail, rfl, h4, hl, rfl⟩ := within_preamble_ok hp
  simp only [clientConnect, hp, bind, Except.bind] at h
  split at h
  · cases h
  rename_i msg hmsg
  have hsplit := List.take_append_drop ((wordOfBytes lo hi).toNat - 4) tail
  rcases parsePayload_preamble hmsg with ⟨rfl, rfl⟩ | ⟨rfl, blob, hb, rfl⟩
  · have hacc := @Accepted.newLicense (wordOfBytes lo hi)
      (tail.take ((wordOfBytes lo hi).toNat - 4))
      (tail.drop ((wordOfBytes lo hi).toNat - 4)) h4 (by simp; omega)
    rw [u16Le_wordOfBytes] at hacc
    rw [← hsplit]
    exact hacc
  obtain ⟨c0, c1, c2, c3, d0, d1, d2, d3, t0, t1, l0, l1, tail', hm, hl', rfl⟩ :=
    within_licensingErrorMessage_ok hb
  simp only [field, List.lookup, castU32, Message.visit,
    Value.visit, bind, Except.bind] at h
  rcases hc : ErrorCode.tryFrom (dwordOfBytes c0 c1 c2 c3) with e | ec
  · simp [hc] at h
  by_cases hv : ec = .statusValidClient
  swap
  · simp [hc, hv, throw, throwThe, MonadExceptOf.throw] at h
  subst hv
  rcases hd : StateTransition.tryFrom (dwordOfBytes d0 d1 d2 d3) with e | sd
  · simp [hc, hd] at h
  by_cases hv : sd = .noTransition
  swap
  · simp [hc, hd, hv, throw, throwThe, MonadExceptOf.throw] at h
  subst hv
  have h7 := u32Le_dwordOfBytes c0 c1 c2 c3
  have h2 := u32Le_dwordOfBytes d0 d1 d2 d3
  rw [ErrorCode.tryFrom_eq_statusValidClient hc] at h7
  rw [StateTransition.tryFrom_eq_noTransition hd] at h2
  have hmlen := congrArg List.length hm
  simp only [List.length_cons, List.length_take] at hmlen
  have hacc := @Accepted.validClient (wordOfBytes lo hi)
    (wordOfBytes t0 t1) (wordOfBytes l0 l1)
    (tail'.take (wordOfBytes l0 l1).toNat) (tail'.drop (wordOfBytes l0 l1).toNat)
    (tail.drop ((wordOfBytes lo hi).toNat - 4)) (by simp; omega) (by simp; omega)
  rw [u16Le_wordOfBytes, u16Le_wordOfBytes, u16Le_wordOfBytes, h7, h2] at hacc
  rw [← hsplit, hm, ← List.take_append_drop (wordOfBytes l0 l1).toNat tail']
  exact hacc

theorem clientConnect_of_accepted {s : List UInt8} (h : Accepted s) :
    clientConnect s = .ok () := by
  cases h with
  | @newLicense size message rest hsize hlen =>
    obtain ⟨lo, hi, hbytes, rfl⟩ := u16Le_exists size
    rw [hbytes, show 0x03 :: 0x03 :: [lo, hi] ++ message ++ rest =
      0x03 :: 0x03 :: lo :: hi :: (message ++ rest) by simp]
    rw [clientConnect, within_preamble, if_pos rfl, if_pos hsize, if_pos (by simp; omega),
      List.take_left' hlen]
    simp [parsePayload, field, castU8, castSlice, Message.visit,
      Value.visit, List.lookup, bind, Except.bind, MessageType.tryFrom, pure, Except.pure]
  | @validClient size blobType blobLen blob more rest hblob hlen =>
    obtain ⟨lo, hi, hbytes, rfl⟩ := u16Le_exists size
    obtain ⟨t0, t1, htype, rfl⟩ := u16Le_exists blobType
    obtain ⟨l0, l1, hblen, rfl⟩ := u16Le_exists blobLen
    rw [hbytes, htype, hblen, show u32Le 7 = [7, 0, 0, 0] from rfl,
      show u32Le 2 = [2, 0, 0, 0] from rfl,
      show 0xFF :: 0x03 :: [lo, hi] ++
        ([7, 0, 0, 0] ++ [2, 0, 0, 0] ++ [t0, t1] ++ [l0, l1] ++ blob ++ more) ++ rest =
          0xFF :: 0x03 :: lo :: hi :: ((7 :: 0 :: 0 :: 0 :: 2 :: 0 :: 0 :: 0 :: t0 ::
            t1 :: l0 :: l1 :: (blob ++ more)) ++ rest) by
        simp]
    rw [clientConnect, within_preamble, if_pos rfl,
      if_pos (by omega), if_pos (by simp; omega), List.take_left' (by simp; omega)]
    simp [parsePayload, field, castU8, castSlice, castU32, Message.visit,
      Value.visit, List.lookup, bind, Except.bind, MessageType.tryFrom, pure,
      Except.pure, within_licensingErrorMessage,
      show (wordOfBytes l0 l1).toNat ≤ blob.length + more.length by omega,
      show dwordOfBytes 7 0 0 0 = 7 from rfl, show dwordOfBytes 2 0 0 0 = 2 from rfl,
      ErrorCode.tryFrom, StateTransition.tryFrom]

/-- `client_connect` returns `Ok(())` exactly on the messages of `Accepted`. -/
theorem clientConnect_eq_ok_iff (s : List UInt8) :
    clientConnect s = .ok () ↔ Accepted s :=
  ⟨accepted_of_clientConnect, clientConnect_of_accepted⟩

end Rdp.Core.License
