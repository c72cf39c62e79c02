import Mathlib

namespace Rdp

/-! Errors of the protocol layers and the ways a call can stop early.  The error type of
`model/error.rs` is not part of the source; the spec lists its kinds. -/

instance instDecidableEqExcept {ε α : Type} [DecidableEq ε] [DecidableEq α] :
    DecidableEq (Except ε α)
  | .error a, .error b => decidable_of_iff (a = b) ⟨congrArg _, Except.error.inj⟩
  | .ok a, .ok b => decidable_of_iff (a = b) ⟨congrArg _, Except.ok.inj⟩
  | .error _, .ok _ => isFalse fun h => Except.noConfusion h
  | .ok _, .error _ => isFalse fun h => Except.noConfusion h

instance instDecidableEqResult {ε σ α : Type} [DecidableEq ε]
    [DecidableEq σ] [DecidableEq α] :
    DecidableEq (EStateM.Result ε σ α)
  | .ok a s, .ok b t =>
    decidable_of_iff (a = b ∧ s = t)
      ⟨fun ⟨ha, hs⟩ => ha ▸ hs ▸ rfl, EStateM.Result.ok.inj⟩
  | .error e s, .error f t =>
    decidable_of_iff (e = f ∧ s = t) ⟨fun ⟨he, hs⟩ => he ▸ hs ▸ rfl,
      EStateM.Result.error.inj⟩
  | .ok _ _, .error _ _ => isFalse fun h => EStateM.Result.noConfusion h
  | .error _ _, .ok _ _ => isFalse fun h => EStateM.Result.noConfusion h

/-- Modelled from the spec: `RdpErrorKind` of `model/error.rs` (spec §7). -/
inductive RdpErrorKind
  | invalidData
  | invalidRespond
  | invalidSize
  | notImplemented
  | invalidConst
  | invalidCast
  | rleDecode
  | disconnect
  | unknown
deriving DecidableEq, Repr

/-- Modelled from the spec: `RdpError`, a kind and a message. -/
structure RdpError where
  kind : RdpErrorKind
  message : String
deriving DecidableEq, Repr

/-- Modelled from the spec: `Error` of `model/error.rs`.  `io` is `Error::Io` for a read
past the end of a stream; `tryError` is the error of a failed `TryFrom` of a number into
an enum. -/
inductive Error
  | rdpError (error : RdpError)
  | io
  | tryError
deriving DecidableEq, Repr

/-- What stops a call before it returns normally: an `Err` it returns, or a Rust panic
(an index out of range, an arithmetic overflow in a debug build, a missing map key). -/
inductive Fault
  | error (error : Error)
  | panic
deriving DecidableEq, Repr

def Fault.rdp (kind : RdpErrorKind) (message : String) : Fault :=
  .error (.rdpError ⟨kind, message⟩)

/-! Checked machine arithmetic: a debug build panics when a result leaves the type. -/

def checkedU32 (n : Nat) : Except Fault Nat :=
  if n < 2 ^ 32 then .ok n else .error .panic

/-- A `usize` result on a 64-bit target. -/
def checkedUsize (n : Nat) : Except Fault Nat :=
  if n < 2 ^ 64 then .ok n else .error .panic

def checkedSub (a b : Nat) : Except Fault Nat :=
  if b ≤ a then .ok (a - b) else .error .panic

@[simp] theorem checkedU32_of_lt {n : Nat} (h : n < 2 ^ 32) : checkedU32 n = .ok n :=
  if_pos h

theorem checkedU32_of_le {n : Nat} (h : 2 ^ 32 ≤ n) : checkedU32 n = .error .panic :=
  if_neg (Nat.not_lt.mpr h)

@[simp] theorem checkedUsize_of_lt {n : Nat} (h : n < 2 ^ 64) : checkedUsize n = .ok n :=
  if_pos h

@[simp] theorem checkedSub_of_le {a b : Nat} (h : b ≤ a) : checkedSub a b = .ok (a - b) :=
  if_pos h

/-- `slice[index]` read: a panic past the end. -/
def index? {α : Type} (slice : List α) (index : Nat) : Except Fault α :=
  match slice[index]? with
  | some a => .ok a
  | none => .error .panic

/-- `slice[index] = value`: a panic past the end. -/
def update? {α : Type} (slice : List α) (index : Nat) (value : α) :
    Except Fault (List α) :=
  if index < slice.length then .ok (slice.set index value) else .error .panic

@[simp] theorem index?_of_lt {α : Type} {slice : List α} {index : Nat}
    (h : index < slice.length) : index? slice index = .ok slice[index] := by
  simp [index?, List.getElem?_eq_getElem h]

@[simp] theorem update?_of_lt {α : Type} {slice : List α} {index : Nat} {value : α}
    (h : index < slice.length) : update? slice index value =
    .ok (slice.set index value) := by
  simp [update?, h]

theorem index?_eq_panic {α : Type} {slice : List α} {index : Nat}
    (h : slice.length ≤ index) : index? slice index = .error .panic := by
  simp [index?, List.getElem?_eq_none h]

theorem update?_eq_panic {α : Type} {slice : List α} {index : Nat} {value : α}
    (h : slice.length ≤ index) : update? slice index value = .error .panic := by
  simp [update?]; omega

/-- A fallible step inside a stateful computation; its error leaves the state as it is. -/
def lift {σ α : Type} (result : Except Fault α) : EStateM Fault σ α := fun s =>
  match result with
  | .ok a => .ok a s
  | .error e => .error e s

theorem lift_eq_ok {σ α : Type} {result : Except Fault α} {a : α} {s t : σ}
    (h : (lift result : EStateM Fault σ α) s = .ok a t) : result = .ok a ∧ t = s := by
  cases result <;> cases h
  exact ⟨rfl, rfl⟩

end Rdp

namespace EStateM

/-! Peeling a state-passing computation whose first step is known. -/

variable {ε σ α β : Type} {x : EStateM ε σ α} {f : α → EStateM ε σ β} {s t : σ}

theorem bind_of_ok {a : α} (h : x s = .ok a t) : (x >>= f) s = f a t := by
  show EStateM.bind x f s = _
  simp [EStateM.bind, h]

theorem bind_of_error {e : ε} (h : x s = .error e t) : (x >>= f) s = .error e t := by
  show EStateM.bind x f s = _
  simp [EStateM.bind, h]

/-- A computation that ends well ended its first step well. -/
theorem bind_eq_ok {b : β} {u : σ} (h : (x >>= f) s = .ok b u) :
    ∃ a t, x s = .ok a t ∧ f a t = .ok b u := by
  change EStateM.bind x f s = _ at h
  unfold EStateM.bind at h
  split at h
  · exact ⟨_, _, ‹_›, h⟩
  · cases h

/-- A computation that runs as another one from another state runs so under any
continuation. -/
theorem bind_congr_apply {y : EStateM ε σ α} (h : x s = y t) :
    (x >>= f) s = (y >>= f) t := by
  show EStateM.bind x f s = EStateM.bind y f t
  simp only [EStateM.bind, h]

@[simp] theorem pure_apply (a : α) : (pure a : EStateM ε σ α) s = .ok a s := rfl

@[simp] theorem get_apply : (get : EStateM ε σ σ) s = .ok s s := rfl

@[simp] theorem set_apply : (set t : EStateM ε σ PUnit) s = .ok ⟨⟩ t := rfl

@[simp] theorem modify_apply (g : σ → σ) :
    (modify g : EStateM ε σ PUnit) s = .ok ⟨⟩ (g s) := rfl

@[simp] theorem throw_apply (e : ε) : (throw e : EStateM ε σ α) s = .error e s := rfl

end EStateM
