import Rdp.Model.Error

namespace Rdp.Bin.Mstsc

/-! The keyboard block of `main_gui_loop` (`bin/mstsc-rs.rs`, lines 370 to 392); the
`minifb` samples and the outcome of each `try_write` are parameters. -/

/-- The keys of `minifb` that `to_scancode` names, and `other` for every key its `_` arm
takes. -/
inductive Key
  | escape | key1 | key2 | key3 | key4 | key5 | key6 | key7 | key8 | key9 | key0 | minus
  | equal | backspace | tab | q | w | e | r | t | y | u | i | o | p | leftBracket
  | rightBracket | enter | leftCtrl | a | s | d | f | g | h | j | k | l | semicolon
  | apostrophe | backquote | leftShift | backslash | z | x | c | v | b | n | m | comma
  | period | slash | rightShift | numPadAsterisk | leftAlt | space | capsLock | f1 | f2
  | f3 | f4 | f5 | f6 | f7 | f8 | f9 | f10 | pause | scrollLock | numPad7 | numPad8
  | numPad9 | numPadMinus | numPad4 | numPad5 | numPad6 | numPadPlus | numPad1 | numPad2
  | numPad3 | numPad0 | numPadDot | f11 | f12 | f13 | f14 | f15 | numPadEnter
  | rightCtrl | numPadSlash | rightAlt | numLock | home | up | pageUp | left | right
  | «end» | down | pageDown | insert | delete | leftSuper | rightSuper | menu
  | other
deriving DecidableEq, Repr

/-- `to_scancode`: the scancode of a key, and `panic!("foo")` for a key outside the
table. -/
def toScancode : Key → Except Fault UInt16
  | .escape => .ok 0x0001
  | .key1 => .ok 0x0002
  | .key2 => .ok 0x0003
  | .key3 => .ok 0x0004
  | .key4 => .ok 0x0005
  | .key5 => .ok 0x0006
  | .key6 => .ok 0x0007
  | .key7 => .ok 0x0008
  | .key8 => .ok 0x0009
  | .key9 => .ok 0x000A
  | .key0 => .ok 0x000B
  | .minus => .ok 0x000C
  | .equal => .ok 0x000D
  | .backspace => .ok 0x000E
  | .tab => .ok 0x000F
  | .q => .ok 0x0010
  | .w => .ok 0x0011
  | .e => .ok 0x0012
  | .r => .ok 0x0013
  | .t => .ok 0x0014
  | .y => .ok 0x0015
  | .u => .ok 0x0016
  | .i => .ok 0x0017
  | .o => .ok 0x0018
  | .p => .ok 0x0019
  | .leftBracket => .ok 0x001A
  | .rightBracket => .ok 0x001B
  | .enter => .ok 0x001C
  | .leftCtrl => .ok 0x001D
  | .a => .ok 0x001E
  | .s => .ok 0x001F
  | .d => .ok 0x0020
  | .f => .ok 0x0021
  | .g => .ok 0x0022
  | .h => .ok 0x0023
  | .j => .ok 0x0024
  | .k => .ok 0x0025
  | .l => .ok 0x0026
  | .semicolon => .ok 0x0027
  | .apostrophe => .ok 0x0028
  | .backquote => .ok 0x0029
  | .leftShift => .ok 0x002A
  | .backslash => .ok 0x002B
  | .z => .ok 0x002C
  | .x => .ok 0x002D
  | .c => .ok 0x002E
  | .v => .ok 0x002F
  | .b => .ok 0x0030
  | .n => .ok 0x0031
  | .m => .ok 0x0032
  | .comma => .ok 0x0033
  | .period => .ok 0x0034
  | .slash => .ok 0x0035
  | .rightShift => .ok 0x0036
  | .numPadAsterisk => .ok 0x0037
  | .leftAlt => .ok 0x0038
  | .space => .ok 0x0039
  | .capsLock => .ok 0x003A
  | .f1 => .ok 0x003B
  | .f2 => .ok 0x003C
  | .f3 => .ok 0x003D
  | .f4 => .ok 0x003E
  | .f5 => .ok 0x003F
  | .f6 => .ok 0x0040
  | .f7 => .ok 0x0041
  | .f8 => .ok 0x0042
  | .f9 => .ok 0x0043
  | .f10 => .ok 0x0044
  | .pause => .ok 0x0045
  | .scrollLock => .ok 0x0046
  | .numPad7 => .ok 0x0047
  | .numPad8 => .ok 0x0048
  | .numPad9 => .ok 0x0049
  | .numPadMinus => .ok 0x004A
  | .numPad4 => .ok 0x004B
  | .numPad5 => .ok 0x004C
  | .numPad6 => .ok 0x004D
  | .numPadPlus => .ok 0x004E
  | .numPad1 => .ok 0x004F
  | .numPad2 => .ok 0x0050
  | .numPad3 => .ok 0x0051
  | .numPad0 => .ok 0x0052
  | .numPadDot => .ok 0x0053
  | .f11 => .ok 0x0057
  | .f12 => .ok 0x0058
  | .f13 => .ok 0x0064
  | .f14 => .ok 0x0065
  | .f15 => .ok 0x0066
  | .numPadEnter => .ok 0xE01C
  | .rightCtrl => .ok 0xE01D
  | .numPadSlash => .ok 0xE035
  | .rightAlt => .ok 0xE038
  | .numLock => .ok 0xE045
  | .home => .ok 0xE047
  | .up => .ok 0xE048
  | .pageUp => .ok 0xE049
  | .left => .ok 0xE04B
  | .right => .ok 0xE04D
  | .«end» => .ok 0xE04F
  | .down => .ok 0xE050
  | .pageDown => .ok 0xE051
  | .insert => .ok 0xE052
  | .delete => .ok 0xE053
  | .leftSuper => .ok 0xE05B
  | .rightSuper => .ok 0xE05C
  | .menu => .ok 0xE05D
  | .other => .error .panic

/-- `KeyboardEvent` of `core::event` (not in the source): a scancode, and whether the
key went down. -/
structure KeyboardEvent where
  code : UInt16
  down : Bool
deriving DecidableEq, Repr

/-- The keyboard's part of the loop's state: `last_keys`, and the key events the client
has taken so far, in order. -/
structure Keyboard where
  lastKeys : List Key
  sent : List KeyboardEvent
deriving DecidableEq, Repr

abbrev KeyboardM := EStateM Fault Keyboard

/-- One frame's samples: `window.get_keys()`, and the keys
`is_key_pressed(key, KeyRepeat::Yes)` holds for. -/
structure Frame where
  keys : List Key
  pressed : List Key
deriving DecidableEq, Repr

section Loop

variable (accept : KeyboardEvent → Except Fault Unit)

/-- `rdp_client_guard.try_write(RdpEvent::Key(event))?`: the client takes the event or
fails. -/
def tryWrite (event : KeyboardEvent) : KeyboardM Unit := do
  lift (accept event)
  modify fun s => { s with sent := s.sent ++ [event] }

/-- `try_write(RdpEvent::Key(KeyboardEvent { code: to_scancode(*key), down }))?` -/
def writeKey (down : Bool) (key : Key) : KeyboardM Unit := do
  let code ← lift (toScancode key)
  tryWrite accept ⟨code, down⟩

/-- `for key in keys.iter() { if select(key) { write key } }`: the two loops of the
block, the key-ups over `last_keys` and the key-downs over the sample. -/
def writeKeys (select : Key → Bool) (down : Bool) : List Key → KeyboardM Unit
  | [] => pure ()
  | key :: rest => do
    if select key then writeKey accept down key
    writeKeys select down rest

/-- The keyboard block of one frame: when the sample of `get_keys()` is not empty, a
key-up for each key of `last_keys` missing from it, a key-down for each key
`is_key_pressed` reports, and the sample kept in `last_keys`. -/
def keyboardInputs (frame : Frame) : KeyboardM Unit := do
  if !frame.keys.isEmpty then
    writeKeys accept (fun key => !frame.keys.contains key) false (← get).lastKeys
    writeKeys accept frame.pressed.contains true frame.keys
    modify fun s => { s with lastKeys := frame.keys }

/-- The keyboard blocks of a run of the loop, one frame after another. -/
def keyboardRun : List Frame → KeyboardM Unit
  | [] => pure ()
  | frame :: frames => do
    keyboardInputs accept frame
    keyboardRun frames

end Loop

/-! ### What a frame writes -/

/-- `events` are the events written for the keys `select` picks out of `keys`, in their
order: one for each, with the key's scancode and `down`. -/
def Writes (select : Key → Bool) (down : Bool) (keys : List Key)
    (events : List KeyboardEvent) :
    Prop :=
  List.Forall₂ (fun key e => toScancode key = .ok e.code ∧ e.down = down)
    (keys.filter select) events

theorem forall₂_exists_left {α β : Type} {R : α → β → Prop} :
    ∀ {l₁ : List α} {l₂ : List β}, List.Forall₂ R l₁ l₂ → ∀ b ∈ l₂, ∃ a ∈ l₁, R a b
  | _, _, .nil => by simp
  | _, _, .cons hab h => List.forall_mem_cons.mpr
      ⟨⟨_, List.mem_cons_self _ _, hab⟩, fun b hb =>
        (forall₂_exists_left h b hb).imp fun _ ⟨ha, hr⟩ =>
          ⟨List.mem_cons_of_mem _ ha, hr⟩⟩

theorem forall₂_exists_right {α β : Type} {R : α → β → Prop} :
    ∀ {l₁ : List α} {l₂ : List β}, List.Forall₂ R l₁ l₂ → ∀ a ∈ l₁, ∃ b ∈ l₂, R a b
  | _, _, .nil => by simp
  | _, _, .cons hab h => List.forall_mem_cons.mpr
      ⟨⟨_, List.mem_cons_self _ _, hab⟩, fun a ha =>
        (forall₂_exists_right h a ha).imp fun _ ⟨hb, hr⟩ =>
          ⟨List.mem_cons_of_mem _ hb, hr⟩⟩

section Writes

variable {select : Key → Bool} {down : Bool} {keys : List Key}
    {events : List KeyboardEvent}

/-- Each event written is a picked key's, with its scancode and `down`. -/
theorem Writes.mem (h : Writes select down keys events)
    {e : KeyboardEvent} (he : e ∈ events) :
    ∃ key ∈ keys, select key ∧ toScancode key = .ok e.code ∧ e.down = down := by
  obtain ⟨key, hkey, hcode, hdown⟩ := forall₂_exists_left h e he
  obtain ⟨hmem, hsel⟩ := List.mem_filter.mp hkey
  exact ⟨key, hmem, hsel, hcode, hdown⟩

theorem Writes.down_of_mem (h : Writes select down keys events) {e : KeyboardEvent}
    (he : e ∈ events) : e.down = down :=
  let ⟨_, _, _, _, hdown⟩ := h.mem he
  hdown

/-- Each picked key has an event written with its scancode. -/
theorem Writes.written (h : Writes select down keys events)
    {key : Key} (hkey : key ∈ keys)
    (hsel : select key) : ∃ e ∈ events, toScancode key = .ok e.code :=
  (forall₂_exists_right h key (List.mem_filter.mpr ⟨hkey, hsel⟩)).imp fun _
    ⟨he, hr⟩ => ⟨he, hr.1⟩

end Writes

section Steps

variable {accept : KeyboardEvent → Except Fault Unit} {s t : Keyboard}

/-- A write that returns has found the key's scancode, and the client has taken the
event. -/
theorem writeKey_of_ok {down : Bool} {key : Key}
    (h : writeKey accept down key s = .ok () t) :
    ∃ code, toScancode key = .ok code ∧ accept ⟨code, down⟩ = .ok () ∧
      t = { s with sent := s.sent ++ [⟨code, down⟩] } := by
  rcases hk : toScancode key with e | code
  · simp [writeKey, hk, lift, bind, EStateM.bind] at h
  rcases ha : accept ⟨code, down⟩ with e | u <;>
    simp [writeKey, tryWrite, hk, ha, lift, bind, EStateM.bind] at h
  exact ⟨code, rfl, ha, h.symm⟩

/-- A loop of writes that returns has written one event for each picked key, in order. -/
theorem writeKeys_of_ok {select : Key → Bool} {down : Bool} :
    ∀ {keys : List Key} {s t : Keyboard}, writeKeys accept select down keys s = .ok () t →
      t.lastKeys = s.lastKeys ∧ ∃ events,
        t.sent = s.sent ++ events ∧ Writes select down keys events
  | [], s, t, h => by
    cases h
    exact ⟨rfl, [], by simp, .nil⟩
  | key :: rest, s, t, h => by
    simp only [writeKeys] at h
    by_cases hsel : select key
    · rw [if_pos hsel] at h
      rcases hw : writeKey accept down key s with ⟨_, s₁⟩ | ⟨e, s₁⟩
      · rw [EStateM.bind_of_ok hw] at h
        obtain ⟨code, hcode, -, rfl⟩ := writeKey_of_ok hw
        obtain ⟨hlast, events, hsent, hw'⟩ := writeKeys_of_ok h
        refine ⟨hlast, ⟨code, down⟩ :: events, by simp [hsent], ?_⟩
        simp only [Writes, List.filter_cons_of_pos hsel]
        exact .cons ⟨hcode, rfl⟩ hw'
      · rw [EStateM.bind_of_error hw] at h
        cases h
    · rw [if_neg hsel, EStateM.bind_of_ok (EStateM.pure_apply _)] at h
      obtain ⟨hlast, events, hsent, hw'⟩ := writeKeys_of_ok h
      exact ⟨hlast, events, hsent,
        by simpa only [Writes, List.filter_cons_of_neg hsel] using hw'⟩

/-- A frame either has an empty sample and changes nothing, or it writes the key-ups of
the keys of `last_keys` missing from the sample, then the key-downs of the sample's
pressed keys, and keeps the sample in `last_keys`. -/
theorem keyboardInputs_of_ok {frame : Frame}
    (h : keyboardInputs accept frame s = .ok () t) :
    (frame.keys = [] ∧ t = s) ∨
      (frame.keys ≠ [] ∧ t.lastKeys = frame.keys ∧ ∃ ups downs,
        t.sent = s.sent ++ ups ++ downs ∧
        Writes (fun key => !frame.keys.contains key) false s.lastKeys ups ∧
        Writes frame.pressed.contains true frame.keys downs) := by
  by_cases hk : frame.keys = []
  · simp only [keyboardInputs, hk, List.isEmpty_nil, Bool.not_true] at h
    cases h
    exact .inl ⟨hk, rfl⟩
  · have hne : (!frame.keys.isEmpty) = true := by simpa using hk
    simp only [keyboardInputs, hne, if_true] at h
    rw [EStateM.bind_of_ok (EStateM.get_apply)] at h
    rcases h₁ : writeKeys accept (fun key => !frame.keys.contains key) false
      s.lastKeys s with
      ⟨_, s₁⟩ | ⟨e, s₁⟩
    · rw [EStateM.bind_of_ok h₁] at h
      rcases h₂ : writeKeys accept frame.pressed.contains true frame.keys
        s₁ with ⟨_, s₂⟩ | ⟨e, s₂⟩
      · rw [EStateM.bind_of_ok h₂] at h
        cases h
        obtain ⟨-, ups, hs₁, hups⟩ := writeKeys_of_ok h₁
        obtain ⟨-, downs, hs₂, hdowns⟩ := writeKeys_of_ok h₂
        exact .inr ⟨hk, rfl, ups, downs, by rw [hs₂, hs₁], hups, hdowns⟩
      · rw [EStateM.bind_of_error h₂] at h
        cases h
    · rw [EStateM.bind_of_error h₁] at h
      cases h

end Steps

/-! ### What the server holds down -/

/-- Whether the server holds `code` down after `sent`: the last event with that scancode
is a key-down. -/
def held (code : UInt16) (sent : List KeyboardEvent) : Bool :=
  (((sent.reverse.find? (·.code == code)).map KeyboardEvent.down).getD false)

section Held

variable {code : UInt16} {sent events : List KeyboardEvent}

theorem held_append_of_not_mem (h : ∀ e ∈ events, e.code ≠ code) :
    held code (sent ++ events) = held code sent := by
  have hnone : events.reverse.find? (·.code == code) = none :=
    List.find?_eq_none.mpr fun e he => by simpa using h e (List.mem_reverse.mp he)
  simp only [held, List.reverse_append, List.find?_append, hnone, Option.none_or]

theorem held_append_of_mem {down : Bool} (hmem : ∃ e ∈ events, e.code = code)
    (h : ∀ e ∈ events, e.code = code → e.down = down) :
    held code (sent ++ events) = down := by
  rcases hf : events.reverse.find? (·.code == code) with _ | e
  · obtain ⟨e, he, hcode⟩ := hmem
    exact absurd (by simpa using hcode)
      (List.find?_eq_none.mp hf e (List.mem_reverse.mpr he))
  · simp only [held, List.reverse_append, List.find?_append, hf,
      Option.or_some, Option.map_some', Option.getD_some]
    exact h e (List.mem_reverse.mp (List.mem_of_find?_eq_some hf))
      (by simpa using List.find?_some hf)

end Held

/-- Every scancode the server holds down is a key of `last_keys`. -/
def Reported (s : Keyboard) : Prop :=
  ∀ code, held code s.sent = true → ∃ key ∈ s.lastKeys, toScancode key = .ok code

/-- `last_keys` after a run: the last sample that was not empty. -/
def lastSample (lastKeys : List Key) : List Frame → List Key
  | [] => lastKeys
  | frame :: frames =>
    lastSample (if frame.keys = [] then lastKeys else frame.keys) frames

section Runs

variable {accept : KeyboardEvent → Except Fault Unit} {s t : Keyboard}

/-- A frame keeps `Reported`: a key-down is for a key of the sample, and a key the
server held that left the sample has just had its key-up. -/
theorem keyboardInputs_reported {frame : Frame}
    (h : keyboardInputs accept frame s = .ok () t)
    (hs : Reported s) : Reported t := by
  rcases keyboardInputs_of_ok h with ⟨-, rfl⟩
    | ⟨-, hlast, ups, downs, hsent, hups, hdowns⟩
  · exact hs
  intro code hheld
  rw [hlast]
  rw [hsent] at hheld
  by_cases hd : ∃ e ∈ downs, e.code = code
  · obtain ⟨e, he, rfl⟩ := hd
    obtain ⟨key, hkey, -, hcode, -⟩ := hdowns.mem he
    exact ⟨key, hkey, hcode⟩
  rw [held_append_of_not_mem fun e he hc => hd ⟨e, he, hc⟩] at hheld
  by_cases hu : ∃ e ∈ ups, e.code = code
  · rw [held_append_of_mem hu fun e he _ => hups.down_of_mem he] at hheld
    cases hheld
  rw [held_append_of_not_mem fun e he hc => hu ⟨e, he, hc⟩] at hheld
  obtain ⟨key, hkey, hcode⟩ := hs code hheld
  by_cases hin : key ∈ frame.keys
  · exact ⟨key, hin, hcode⟩
  obtain ⟨e, he, hecode⟩ := hups.written hkey (by simpa using hin)
  exact absurd ⟨e, he, Except.ok.inj (hecode.symm.trans hcode)⟩ hu

theorem keyboardRun_reported :
    ∀ {frames : List Frame} {s t : Keyboard}, keyboardRun accept frames s = .ok () t →
      Reported s → Reported t
  | [], _, _, h, hs => by
    cases h
    exact hs
  | frame :: frames, s, t, h, hs => by
    rcases h₁ : keyboardInputs accept frame s with ⟨_, s₁⟩ | ⟨e, s₁⟩
    · rw [keyboardRun, EStateM.bind_of_ok h₁] at h
      exact keyboardRun_reported h (keyboardInputs_reported h₁ hs)
    · rw [keyboardRun, EStateM.bind_of_error h₁] at h
      cases h

theorem keyboardRun_lastKeys :
    ∀ {frames : List Frame} {s t : Keyboard}, keyboardRun accept frames s = .ok () t →
      t.lastKeys = lastSample s.lastKeys frames
  | [], _, _, h => by
    cases h
    rfl
  | frame :: frames, s, t, h => by
    rcases h₁ : keyboardInputs accept frame s with ⟨_, s₁⟩ | ⟨e, s₁⟩
    · rw [keyboardRun, EStateM.bind_of_ok h₁] at h
      rw [keyboardRun_lastKeys h, lastSample]
      rcases keyboardInputs_of_ok h₁ with ⟨hk, rfl⟩ | ⟨hk, hlast, -⟩
      · rw [if_pos hk]
      · rw [if_neg hk, hlast]
    · rw [keyboardRun, EStateM.bind_of_error h₁] at h
      cases h

/-- After a run from the start, the server holds down only scancodes of keys of the last
sample that was not empty: a key released in a frame whose sample is empty keeps its
key-down until the next frame whose sample is not. -/
theorem keyboardRun_held {frames : List Frame}
    (h : keyboardRun accept frames ⟨[], []⟩ = .ok () t)
    {code : UInt16} (hc : held code t.sent = true) :
    ∃ key ∈ lastSample [] frames, toScancode key = .ok code := by
  have hreported := keyboardRun_reported h (fun _ h => by cases h)
  rw [← keyboardRun_lastKeys h]
  exact hreported code hc

end Runs

theorem keyboardRun_held_switch :
    keyboardRun (fun _ => .ok ()) [⟨[.a], [.a]⟩, ⟨[.b], [.b]⟩] ⟨[], []⟩ =
        .ok () ⟨[.b], [⟨0x001E, true⟩, ⟨0x001E, false⟩, ⟨0x0030, true⟩]⟩ ∧
      held 0x0030 [⟨0x001E, true⟩, ⟨0x001E, false⟩, ⟨0x0030, true⟩] = true ∧
      ∃ key ∈ lastSample [] [⟨[.a], [.a]⟩, ⟨[.b], [.b]⟩], toScancode key = .ok 0x0030 :=
  ⟨rfl, rfl, keyboardRun_held
    (show keyboardRun (fun _ => .ok ()) [⟨[.a], [.a]⟩, ⟨[.b], [.b]⟩] ⟨[], []⟩ =
      .ok () ⟨[.b], [⟨0x001E, true⟩, ⟨0x001E, false⟩, ⟨0x0030, true⟩]⟩ from rfl) rfl⟩

/-- `A` pressed in one frame and released with every other key in the next: the second
sample is empty, so that frame writes no key-up and `last_keys` stays `[A]`, and the
server still holds `A` down. -/
theorem keyboardRun_release_unsent :
    keyboardRun (fun _ => .ok ()) [⟨[.a], [.a]⟩, ⟨[], []⟩] ⟨[], []⟩ =
        .ok () ⟨[.a], [⟨0x001E, true⟩]⟩ ∧
      held 0x001E [⟨0x001E, true⟩] = true :=
  ⟨rfl, rfl⟩

end Rdp.Bin.Mstsc
