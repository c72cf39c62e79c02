import Rdp.Model.Stream

namespace Rdp.Model

/-! The message kernel of `model/data.rs`, as the source uses it (`component!`, `Check`,
`DynOption`, `Array`, `cast!`); not in the source, it follows spec §3 and §4.2. -/

/-- Modelled from the spec: what a `DynOption` rule asks of a later sibling field. -/
inductive MessageOption
  | skipField (name : String)
  | size (name : String) (size : Nat)
  | none

/-- Modelled from the spec: the fixed-width wire values. -/
inductive Value
  | u8 (value : UInt8)
  | u16Le (value : UInt16)
  | u16Be (value : UInt16)
  | u32Le (value : UInt32)
  | u32Be (value : UInt32)
deriving DecidableEq, Repr

/-- Modelled from the spec: the fields of a component.  `check` asserts a constant,
`dynOption` carries a rule on a sibling (it may panic, as the source's closures do on
underflow), `array` repeats its factory until its bytes run out, `optional` is an
`Option` field that is absent when its read fails. -/
inductive Message
  | leaf (value : Value)
  | check (value : Value)
  | dynOption (value : Value) (rule : Value → Except Fault MessageOption)
  | bytes (value : List UInt8)
  | array (factory : Value) (items : List Value)
  | optional (value : Option Value)
  | component (fields : List (String × Message))

abbrev Component := List (String × Message)

abbrev Reader := StateT (List UInt8) (Except Fault)

def Value.size : Value → Nat
  | .u8 _ => 1
  | .u16Le _ | .u16Be _ => 2
  | .u32Le _ | .u32Be _ => 4

def Value.read : Value → Reader Value
  | .u8 _ => .u8 <$> readU8
  | .u16Le _ => .u16Le <$> readU16Le
  | .u16Be _ => .u16Be <$> readU16Be
  | .u32Le _ => .u32Le <$> readU32Le
  | .u32Be _ => .u32Be <$> readU32Be

/-- `inner()` of a `U16` or `U32`, as a `usize`. -/
def Value.inner : Value → Nat
  | .u8 v => v.toNat
  | .u16Le v | .u16Be v => v.toNat
  | .u32Le v | .u32Be v => v.toNat

/-- Run a reader on a buffer of its own (`Cursor::new(local)`), ignoring what it leaves.
-/
def within {α : Type} (buffer : List UInt8) (reader : Reader α) : Except Fault α :=
  Prod.fst <$> reader.run buffer

/-- The elements of an array: one more while bytes are left. -/
def readItems (factory : Value) : Nat → Reader (List Value)
  | 0 => pure []
  | fuel + 1 => do
    if (← get) = [] then return []
    let item ← factory.read
    let items ← readItems factory fuel
    pure (item :: items)

def Message.options : Message → Except Fault MessageOption
  | .dynOption value rule => rule value
  | _ => .ok .none

mutual

/-- `Message::read`: fills a message from the stream. -/
def Message.read : Message → Reader Message
  | .leaf value => .leaf <$> value.read
  | .check value => do
    if (← value.read) = value then pure (.check value)
    else throw (Fault.rdp .invalidConst "Invalid constness of data")
  | .dynOption value rule => (fun value => .dynOption value rule) <$> value.read
  | .bytes value => do
    let stream ← get
    if value = [] then
      set ([] : List UInt8)
      pure (.bytes stream)
    else
      let (read, rest) ← liftM (m := Except Fault) (readExact value.length stream)
      set rest
      pure (.bytes read)
  | .array factory _ => do pure (.array factory (← readItems factory (← get).length))
  | .optional none => pure (.optional none)
  | .optional (some value) => fun stream =>
    match value.read stream with
    | .ok (value, rest) => .ok (.optional (some value), rest)
    | .error _ => .ok (.optional none, stream)
  | .component fields => .component <$> readFields fields [] []

/-- Reading a component's fields in order: a field named by an earlier `skipField` is
left as it is, and one named by an earlier `size` is read from exactly that many bytes. -/
def readFields : Component → List String → List (String × Nat) → Reader Component
  | [], _, _ => pure []
  | (name, message) :: rest, skip, sizes =>
    if name ∈ skip then do
      pure ((name, message) :: (← readFields rest skip sizes))
    else do
      let message ← match sizes.lookup name with
        | some size => do
          let stream ← get
          let (buffer, rest) ← liftM (m := Except Fault) (readExact size stream)
          set rest
          liftM (m := Except Fault) (within buffer message.read)
        | none => message.read
      let (skip, sizes) ← match ← liftM (m := Except Fault) message.options with
        | .skipField field => pure (field :: skip, sizes)
        | .size field size => pure (skip, (field, size) :: sizes)
        | .none => pure (skip, sizes)
      pure ((name, message) :: (← readFields rest skip sizes))

end

/-- `Component::read` into a component built by `component!`. -/
def readComponent (fields : Component) : Reader Component :=
  readFields fields [] []

section Reads

/-! Reading a component one field at a time. -/

theorem Value.read_u8 (v b : UInt8) (s : List UInt8) :
    (Value.u8 v).read (b :: s) = .ok (.u8 b, s) := rfl

theorem Value.read_u16Le (v : UInt16) (low high : UInt8) (s : List UInt8) :
    (Value.u16Le v).read (low :: high :: s) =
      .ok (.u16Le (wordOfBytes low high), s) := rfl

theorem Value.read_u32Le (v : UInt32) (b0 b1 b2 b3 : UInt8) (s : List UInt8) :
    (Value.u32Le v).read (b0 :: b1 :: b2 :: b3 :: s) =
      .ok (.u32Le (dwordOfBytes b0 b1 b2 b3), s) := rfl

theorem read_leaf (value : Value) (s : List UInt8) :
    (Message.leaf value).read s = (fun p => (.leaf p.1, p.2)) <$> value.read s := by
  simp only [Message.read, Functor.map, StateT.map, bind, Except.bind, pure, Except.pure,
      Except.map]

theorem read_dynOption (value : Value)
    (rule : Value → Except Fault MessageOption) (s : List UInt8) :
    (Message.dynOption value rule).read s =
      (fun p => (.dynOption p.1 rule, p.2)) <$> value.read s := by
  simp only [Message.read, Functor.map, StateT.map, bind, Except.bind, pure, Except.pure,
      Except.map]

theorem read_component (fields : Component) (s : List UInt8) :
    (Message.component fields).read s =
      (fun p => (.component p.1, p.2)) <$> readFields fields [] [] s := by
  simp only [Message.read, Functor.map, StateT.map, bind, Except.bind, pure, Except.pure,
      Except.map]

theorem read_check (value : Value) (s : List UInt8) :
    (Message.check value).read s =
      match value.read s with
      | .ok (v, s') => if v = value then .ok (.check value, s')
        else .error (Fault.rdp .invalidConst "Invalid constness of data")
      | .error e => .error e := by
  simp only [Message.read, bind, StateT.bind, Except.bind]
  rcases value.read s with e | ⟨v, s'⟩
  · rfl
  · by_cases h : v = value <;> simp [h, pure, StateT.pure, Except.pure, throw, throwThe,
      MonadExceptOf.throw, StateT.lift, liftM, monadLift, MonadLift.monadLift]
    rfl

theorem readFields_cons {name : String} {message : Message} {rest : Component}
    {skip : List String} {sizes : List (String × Nat)} (hskip : name ∉ skip)
    (hsize : sizes.lookup name = none) (s : List UInt8) :
    readFields ((name, message) :: rest) skip sizes s =
      match message.read s with
      | .error e => .error e
      | .ok (m, s') =>
        match m.options with
        | .error e => .error e
        | .ok (.skipField field) =>
          (fun p => ((name, m) :: p.1, p.2)) <$> readFields rest (field :: skip) sizes s'
        | .ok (.size field n) =>
          (fun p => ((name, m) :: p.1, p.2)) <$>
            readFields rest skip ((field, n) :: sizes) s'
        | .ok .none =>
          (fun p => ((name, m) :: p.1, p.2)) <$> readFields rest skip sizes s' := by
  rw [readFields]
  simp only [hskip, hsize, if_false]
  rcases hm : message.read s with e | ⟨m, s'⟩
  · simp [bind, StateT.bind, hm, Except.bind]
  · rcases ho : m.options with e | ⟨field⟩ | ⟨field, n⟩ | _ <;>
    simp [bind, StateT.bind, hm, ho, Except.bind, liftM, monadLift, MonadLift.monadLift,
        StateT.lift, pure, StateT.pure, Except.pure, Functor.map, Except.map]

theorem readFields_cons_sized {name : String} {message : Message} {rest : Component}
    {skip : List String} {sizes : List (String × Nat)} {n : Nat} (hskip : name ∉ skip)
    (hsize : sizes.lookup name = some n) (s : List UInt8) :
    readFields ((name, message) :: rest) skip sizes s =
      match readExact n s with
      | .error e => .error e
      | .ok (buffer, s') =>
        match within buffer message.read with
        | .error e => .error e
        | .ok m =>
          match m.options with
          | .error e => .error e
          | .ok (.skipField field) =>
            (fun p => ((name, m) :: p.1, p.2)) <$>
              readFields rest (field :: skip) sizes s'
          | .ok (.size field n) =>
            (fun p => ((name, m) :: p.1, p.2)) <$>
              readFields rest skip ((field, n) :: sizes) s'
          | .ok .none =>
            (fun p => ((name, m) :: p.1, p.2)) <$> readFields rest skip sizes s' := by
  rw [readFields]
  simp only [hskip, hsize, if_false]
  rcases hm : readExact n s with e | ⟨buffer, s'⟩
  · simp [bind, StateT.bind, hm, Except.bind, liftM, monadLift,
      MonadLift.monadLift, StateT.lift, get, getThe, MonadStateOf.get, StateT.get, pure,
      StateT.pure, Except.pure]
  rcases hw : within buffer message.read with e | m
  · simp [bind, StateT.bind, hm, hw, Except.bind, liftM, monadLift, MonadLift.monadLift,
      StateT.lift, get, getThe, MonadStateOf.get, StateT.get, pure,
        StateT.pure, Except.pure, set,
      StateT.set]
  rcases ho : m.options with e | ⟨field⟩ | ⟨field, n⟩ | _ <;>
    simp [bind, StateT.bind, hm, hw, ho, Except.bind, liftM,
      monadLift, MonadLift.monadLift,
        StateT.lift, get, getThe, MonadStateOf.get, StateT.get, pure,
          StateT.pure, Except.pure,
        set, StateT.set, Functor.map, Except.map]

theorem readFields_cons_bytes {name : String} {rest : Component}
    {skip : List String} {sizes : List (String × Nat)} {n : Nat} (hskip : name ∉ skip)
    (hsize : sizes.lookup name = some n) (s : List UInt8) :
    readFields ((name, .bytes []) :: rest) skip sizes s =
      match readExact n s with
      | .error e => .error e
      | .ok (buffer, s') =>
        (fun p => ((name, .bytes buffer) :: p.1, p.2)) <$>
          readFields rest skip sizes s' := by
  rw [readFields_cons_sized hskip hsize]
  rcases readExact n s with e | ⟨buffer, s'⟩ <;> rfl

theorem readerBind_of_ok {α β : Type} {x : Reader α}
    {f : α → Reader β} {s s' : List UInt8}
    {a : α}
    (h : x s = .ok (a, s')) : (x >>= f) s = f a s' := by
  simp only [bind, StateT.bind, h, Except.bind]

theorem Value.read_u16Le_append (v word : UInt16) (s : List UInt8) :
    (Value.u16Le v).read (Rdp.u16Le word ++ s) = .ok (.u16Le word, s) := by
  simp [Value.read, Functor.map, StateT.map, bind, Except.bind, pure, Except.pure]

theorem Value.read_u32Le_append (v dword : UInt32) (s : List UInt8) :
    (Value.u32Le v).read (Rdp.u32Le dword ++ s) = .ok (.u32Le dword, s) := by
  simp [Value.read, Functor.map, StateT.map, bind, Except.bind, pure, Except.pure]

theorem readFields_leaf {name : String} {value v : Value} {rest : Component}
    {skip : List String} {sizes : List (String × Nat)}
    {s s' : List UInt8} (hskip : name ∉ skip)
    (hsize : sizes.lookup name = none) (hread : value.read s = .ok (v, s')) :
    readFields ((name, .leaf value) :: rest) skip sizes s =
      (fun p => ((name, .leaf v) :: p.1, p.2)) <$> readFields rest skip sizes s' := by
  rw [readFields_cons hskip hsize, read_leaf, hread]
  rfl

theorem read_optional (value : Value) (s : List UInt8) :
    ∃ m s', (Message.optional (some value)).read s = .ok (m, s') ∧
      m.options = .ok .none := by
  rcases h : value.read s with e | ⟨v, s'⟩
  · exact ⟨.optional none, s, by simp only [Message.read, h], rfl⟩
  · exact ⟨.optional (some v), s', by simp only [Message.read, h], rfl⟩

theorem readItems_u16Le (ids : List UInt16) {fuel : Nat} (h : ids.length ≤ fuel) :
    readItems (.u16Le 0) fuel (ids.flatMap u16Le) = .ok (ids.map .u16Le, []) := by
  induction ids generalizing fuel with
  | nil => cases fuel <;> rfl
  | cons id ids ih =>
    obtain ⟨fuel, rfl⟩ : ∃ k, fuel = k + 1 := ⟨fuel - 1, by simp at h; omega⟩
    obtain ⟨low, high, hbytes, rfl⟩ := u16Le_exists id
    simp only [List.length_cons, add_le_add_iff_right] at h
    simp [hbytes, readItems, bind, StateT.bind, Except.bind, get,
      getThe, MonadStateOf.get, StateT.get, pure, StateT.pure,
      Except.pure, Value.read_u16Le, ih h]

end Reads

mutual

def Message.length : Message → Nat
  | .leaf value | .check value | .dynOption value _ => value.size
  | .bytes value => value.length
  | .array _ items => (items.map Value.size).sum
  | .optional value => (value.map Value.size).getD 0
  | .component fields => componentLength fields

def componentLength : Component → Nat
  | [] => 0
  | (_, message) :: rest => message.length + componentLength rest

end

/-- Modelled from the spec: `DataType`, the typed view `cast!` matches on. -/
inductive DataType
  | u8 (value : UInt8)
  | u16 (value : UInt16)
  | u32 (value : UInt32)
  | slice (value : List UInt8)
  | component (fields : Component)
  | trame (items : List Message)
  | none

def Value.visit : Value → DataType
  | .u8 v => .u8 v
  | .u16Le v | .u16Be v => .u16 v
  | .u32Le v | .u32Be v => .u32 v

def Message.visit : Message → DataType
  | .leaf value | .check value | .dynOption value _ => value.visit
  | .bytes value => .slice value
  | .array _ items => .trame (items.map .leaf)
  | .optional (some value) => value.visit
  | .optional none => .none
  | .component fields => .component fields

def invalidCast : Fault :=
  Fault.rdp .invalidCast "Invalid Cast"

def castU8 (message : Message) : Except Fault UInt8 :=
  match message.visit with
  | .u8 v => .ok v
  | _ => .error invalidCast

def castU16 (message : Message) : Except Fault UInt16 :=
  match message.visit with
  | .u16 v => .ok v
  | _ => .error invalidCast

def castU32 (message : Message) : Except Fault UInt32 :=
  match message.visit with
  | .u32 v => .ok v
  | _ => .error invalidCast

def castSlice (message : Message) : Except Fault (List UInt8) :=
  match message.visit with
  | .slice v => .ok v
  | _ => .error invalidCast

def castTrame (message : Message) : Except Fault (List Message) :=
  match message.visit with
  | .trame v => .ok v
  | _ => .error invalidCast

/-- `component[name]`: an `IndexMap` index, which panics on a missing key. -/
def field (fields : Component) (name : String) : Except Fault Message :=
  match fields.lookup name with
  | some message => .ok message
  | none => .error .panic

end Rdp.Model
