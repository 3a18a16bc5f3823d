import Mx.Http2.Conn

/-!
# Settings and control frames

The settings of a peer, and the payloads of `SETTINGS`, `PING`, `GOAWAY`, `WINDOW_UPDATE` and
`RST_STREAM` frames, as both the client and the server decode and encode them.
-/

namespace Mx.Http2

/-! ## Constants -/

/-- `FrameRstStream`. -/
def frameRstStream : Nat := 3

/-- `FramePing`. -/
def framePing : Nat := 6

/-- `FrameWindowUpdate`. -/
def frameWindowUpdate : Nat := 8

/-- `FrameContinuation`. -/
def frameContinuation : Nat := 9

/-- `FlagAck`. -/
def flagAck : Nat := 1

/-- `ConnectionStreamId`. -/
def connectionStreamId : Nat := 0

/-- `DefaultWindowSize`. -/
def defaultWindowSize : Nat := 65535

/-- `ErrFlowControl`. -/
def errFlowControl : Nat := 3

/-- The code of `REFUSED_STREAM`. -/
def refusedStream : Nat := 7

/-! ## Settings -/

/-- The parameters that have an identifier. -/
inductive Parameter where
  | headerTableSize
  | enablePush
  | maxConcurrentStreams
  | initialWindowSize
  | maxFrameSize
  | maxHeaderListSize
  deriving DecidableEq, Repr

/-- The identifier of a parameter: `SetHeaderTableSize` to `SetMaxHeaderListSize`. -/
def Parameter.id : Parameter → Nat
  | .headerTableSize => 1
  | .enablePush => 2
  | .maxConcurrentStreams => 3
  | .initialWindowSize => 4
  | .maxFrameSize => 5
  | .maxHeaderListSize => 6

/-- The default of a parameter: `DefaultHeaderTableSize` to `DefaultMaxHeaderListSize`. -/
def Parameter.default : Parameter → Nat
  | .headerTableSize => 4096
  | .enablePush => 1
  | .maxConcurrentStreams => 4294967295
  | .initialWindowSize => 65535
  | .maxFrameSize => 16384
  | .maxHeaderListSize => 4294967295

/-- The value of a parameter. -/
def Settings.get (s : Settings) : Parameter → Nat
  | .headerTableSize => s.headerTableSize
  | .enablePush => s.enablePush
  | .maxConcurrentStreams => s.maxConcurrentStreams
  | .initialWindowSize => s.initialWindowSize
  | .maxFrameSize => s.maxFrameSize
  | .maxHeaderListSize => s.maxHeaderListSize

/-- `InitDefaultSettings`. -/
def initDefaultSettings : Settings where
  headerTableSize := Parameter.headerTableSize.default
  enablePush := Parameter.enablePush.default
  maxConcurrentStreams := Parameter.maxConcurrentStreams.default
  initialWindowSize := Parameter.initialWindowSize.default
  maxFrameSize := Parameter.maxFrameSize.default
  maxHeaderListSize := Parameter.maxHeaderListSize.default

/-- One parameter of `DecodeSettings`; an unknown one is ignored. -/
def Settings.set (s : Settings) (id val : Nat) : Settings :=
  if id = Parameter.headerTableSize.id then { s with headerTableSize := val }
  else if id = Parameter.enablePush.id then { s with enablePush := val }
  else if id = Parameter.maxConcurrentStreams.id then { s with maxConcurrentStreams := val }
  else if id = Parameter.initialWindowSize.id then { s with initialWindowSize := val }
  else if id = Parameter.maxFrameSize.id then { s with maxFrameSize := val }
  else if id = Parameter.maxHeaderListSize.id then { s with maxHeaderListSize := val }
  else s

/-- `ReadU32BE` at the start of a view that has four bytes. -/
def readU32BE (v : List UInt8) : Nat :=
  viewGetByte v 0 * 16777216 + viewGetByte v 1 * 65536 + viewGetByte v 2 * 256 + viewGetByte v 3

/-- The loop of `DecodeSettings`, over so many parameters. -/
def settingsLoop : Nat → List UInt8 → Settings → Settings
  | 0, _, s => s
  | n + 1, v, s =>
    settingsLoop n (v.drop 6)
      (s.set (viewGetByte v 0 * 256 + viewGetByte v 1) (readU32BE (v.drop 2)))

/-- `DecodeSettings`: none when it is not `ok`, and then the record is as it was. -/
def decodeSettings (payload : List UInt8) (s : Settings) : Option Settings :=
  if payload.length % 6 ≠ 0 then none else some (settingsLoop (payload.length / 6) payload s)

/-- `EncodeSettingsAck`. -/
def encodeSettingsAck (b : Buf) : Buf :=
  encodeHeader b ⟨0, frameSettings, flagAck, connectionStreamId⟩

/-! ## Other control frames -/

/-- `EncodePing`. -/
def encodePing (b : Buf) (data : List UInt8) (isAck : Bool) : Buf :=
  (encodeHeader b ⟨8, framePing, if isAck then flagAck else 0, connectionStreamId⟩).appendBytes
    ((List.range 8).map fun i => if i < data.length then viewGetByte data i else 0)

/-- `DecodeGoaway`: the last stream id and the error code. -/
def decodeGoaway (payload : List UInt8) : Option (Nat × Nat) :=
  if payload.length < 8 then none
  else some (readU32BE payload % 2147483648, readU32BE (payload.drop 4))

/-- `EncodeWindowUpdate`. -/
def encodeWindowUpdate (b : Buf) (streamId increment : Nat) : Buf :=
  (encodeHeader b ⟨4, frameWindowUpdate, 0, streamId⟩).appendBytes (wordBytes 128 increment)

/-- `DecodeWindowUpdate`. -/
def decodeWindowUpdate (payload : List UInt8) : Option Nat :=
  if payload.length < 4 then none else some (readU32BE payload % 2147483648)

/-- `EncodeRstStream`. -/
def encodeRstStream (b : Buf) (streamId errorCode : Nat) : Buf :=
  (encodeHeader b ⟨4, frameRstStream, 0, streamId⟩).appendBytes (wordBytes 256 errorCode)

/-- `DecodeRstStream`. -/
def decodeRstStream (payload : List UInt8) : Option Nat :=
  if payload.length < 4 then none else some (readU32BE payload)

/-- A parameter is set by its identifier alone. -/
theorem Settings.get_set (s : Settings) (id val : Nat) (p : Parameter) :
    (s.set id val).get p = if id = p.id then val else s.get p := by
  rw [Settings.set]
  by_cases h₁ : id = Parameter.headerTableSize.id
  · rw [if_pos h₁, h₁]
    cases p <;> rfl
  rw [if_neg h₁]
  by_cases h₂ : id = Parameter.enablePush.id
  · rw [if_pos h₂, h₂]
    cases p <;> rfl
  rw [if_neg h₂]
  by_cases h₃ : id = Parameter.maxConcurrentStreams.id
  · rw [if_pos h₃, h₃]
    cases p <;> rfl
  rw [if_neg h₃]
  by_cases h₄ : id = Parameter.initialWindowSize.id
  · rw [if_pos h₄, h₄]
    cases p <;> rfl
  rw [if_neg h₄]
  by_cases h₅ : id = Parameter.maxFrameSize.id
  · rw [if_pos h₅, h₅]
    cases p <;> rfl
  rw [if_neg h₅]
  by_cases h₆ : id = Parameter.maxHeaderListSize.id
  · rw [if_pos h₆, h₆]
    cases p <;> rfl
  rw [if_neg h₆]
  cases p
  · rw [if_neg h₁]
  · rw [if_neg h₂]
  · rw [if_neg h₃]
  · rw [if_neg h₄]
  · rw [if_neg h₅]
  · rw [if_neg h₆]

theorem initDefaultSettings_get (p : Parameter) : initDefaultSettings.get p = p.default := by
  cases p <;> rfl

theorem Settings.ext_get {s s' : Settings} (h : ∀ p, s.get p = s'.get p) : s = s' := by
  have h₁ := h .headerTableSize
  have h₂ := h .enablePush
  have h₃ := h .maxConcurrentStreams
  have h₄ := h .initialWindowSize
  have h₅ := h .maxFrameSize
  have h₆ := h .maxHeaderListSize
  cases s
  cases s'
  simp only [Settings.get] at h₁ h₂ h₃ h₄ h₅ h₆
  rw [h₁, h₂, h₃, h₄, h₅, h₆]

end Mx.Http2
