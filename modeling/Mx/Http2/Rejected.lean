import Mx.Http2.Client

/-!
# Rejected frames

The handlers of a client check a frame before they update anything, so that a rejected frame leaves
the connection as it was. The window of a stream is compared with the length of a DATA frame before
it is reduced; that of the connection is reduced without a comparison.
-/

namespace Mx.Http2

/-- A result that is the connection as it was, unless it is `ok`. -/
def Atomic (c : H2Conn) (r : H2Conn × Bool) : Prop := r.2 = false → r.1 = c

section Handlers

variable {c c' : H2Conn} {hdr : FrameHeader} {payload : List UInt8}

theorem Atomic.same (b : Bool) : Atomic c (c, b) := fun _ => rfl

theorem Atomic.accepted : Atomic c (c', true) := nofun

theorem Atomic.ite {p : Prop} [Decidable p] {r r' : H2Conn × Bool} (h : Atomic c r)
    (h' : Atomic c r') : Atomic c (if p then r else r') := by
  split
  · exact h
  · exact h'

theorem processSettingsFrame_atomic : Atomic c (processSettingsFrame c hdr payload) := by
  refine .ite (.same _) (.ite (.same _) ?_)
  cases decodeSettings payload c.remoteSettings with
  | none => exact .same _
  | some s => exact .accepted

theorem processPingFrame_atomic : Atomic c (processPingFrame c hdr payload) :=
  .ite (.same _) (.ite (.same _) (.ite (.same _) .accepted))

theorem processGoawayFrame_atomic : Atomic c (processGoawayFrame c payload) := by
  rw [processGoawayFrame]
  cases decodeGoaway payload with
  | none => exact .same _
  | some r => exact .accepted

theorem processWindowUpdateFrame_atomic : Atomic c (processWindowUpdateFrame c hdr payload) := by
  rw [processWindowUpdateFrame]
  cases decodeWindowUpdate payload with
  | none => exact .same _
  | some increment =>
    refine .ite (.same _) (.ite .accepted ?_)
    cases findStream c hdr.streamId with
    | none => exact .same _
    | some slot => exact .accepted

theorem processRstStreamFrame_atomic : Atomic c (processRstStreamFrame c hdr payload) := by
  refine .ite (.same _) (.ite (.same _) ?_)
  cases decodeRstStream payload with
  | none => exact .same _
  | some errCode =>
    cases findStream c hdr.streamId with
    | none => exact .same _
    | some slot => exact .accepted

theorem processDataFrameWith_atomic {consume : H2Stream → Nat → Option H2Stream} :
    Atomic c (processDataFrameWith consume c hdr) := by
  refine .ite (.same _) ?_
  cases findStream c hdr.streamId with
  | none => exact .same _
  | some slot =>
    simp only
    cases consume (c.streams slot) hdr.length with
    | none => exact .same _
    | some s => exact .accepted

theorem processHeadersFrame_atomic : Atomic c (processHeadersFrame c hdr) := by
  refine .ite (.same _) ?_
  cases findStream c hdr.streamId with
  | none => exact .same _
  | some slot => exact .accepted

/-- A rejected frame of any kind changes nothing. -/
theorem clientProcessFrame_atomic : Atomic c (clientProcessFrame c hdr payload) :=
  .ite processSettingsFrame_atomic (.ite processPingFrame_atomic (.ite processGoawayFrame_atomic
    (.ite processWindowUpdateFrame_atomic (.ite processRstStreamFrame_atomic
    (.ite processDataFrameWith_atomic (.ite processHeadersFrame_atomic (.same _)))))))

end Handlers

/-! ## The windows behind a DATA frame -/

section Windows

variable {c : H2Conn} {hdr : FrameHeader} {payload : List UInt8} {slot : Fin maxStreams}

theorem setStream_streams (c : H2Conn) (slot : Fin maxStreams) (s : H2Stream) :
    (c.setStream slot s).streams slot = s := by
  change Function.update c.streams slot s slot = s
  rw [Function.update_self]

/-- Stepping a stream touches no window. -/
theorem stepStream_windows (c : H2Conn) (slot : Fin maxStreams) (s : H2Stream) (ev : StreamEvent) :
    ((stepStream c slot s ev).streams slot).recvWindow = s.recvWindow ∧
      (stepStream c slot s ev).connRecvWindow = c.connRecvWindow := by
  have hstep : (streamStep s ev).1.recvWindow = s.recvWindow := by
    rw [streamStep]
    split <;> rfl
  have hrelease : ∀ c' : H2Conn, (releaseStream c' slot).streams = c'.streams ∧
      (releaseStream c' slot).connRecvWindow = c'.connRecvWindow := by
    intro c'
    rw [releaseStream]
    split <;> exact ⟨rfl, rfl⟩
  have hset : ((c.setStream slot (streamStep s ev).1).streams slot).recvWindow = s.recvWindow := by
    rw [setStream_streams, hstep]
  rw [stepStream]
  split
  · obtain ⟨hstreams, hconn⟩ := hrelease (c.setStream slot (streamStep s ev).1)
    rw [hstreams, hconn]
    exact ⟨hset, rfl⟩
  · exact ⟨hset, rfl⟩

theorem acceptData_windows (c : H2Conn) (hdr : FrameHeader) (slot : Fin maxStreams) (s : H2Stream) :
    ((acceptData c hdr slot s).streams slot).recvWindow = s.recvWindow ∧
      (acceptData c hdr slot s).connRecvWindow =
        toInteger (c.connRecvWindow - toInteger hdr.length) := by
  rw [acceptData]
  split
  · exact stepStream_windows _ slot s .recvES
  · refine ⟨?_, rfl⟩
    rw [setStream_streams]

theorem clientProcessFrame_data (hftype : hdr.ftype = frameData) :
    clientProcessFrame c hdr payload = processDataFrame c hdr := by
  simp [clientProcessFrame, hftype, frameData, frameSettings, framePing, frameGoaway,
    frameWindowUpdate, frameRstStream]

/-- The stream with a window that has been used. -/
def usedStream (c : H2Conn) (hdr : FrameHeader) (slot : Fin maxStreams) : H2Stream :=
  { c.streams slot with
    recvWindow := toInteger ((c.streams slot).recvWindow - toInteger hdr.length) }

theorem consumeRecvWindow_room (hroom : toInteger hdr.length ≤ (c.streams slot).recvWindow) :
    consumeRecvWindow (c.streams slot) hdr.length = some (usedStream c hdr slot) := by
  rw [consumeRecvWindow, if_neg (not_lt.mpr hroom), usedStream]

theorem processDataFrameWith_room {consume : H2Stream → Nat → Option H2Stream} {s : H2Stream}
    (hid : hdr.streamId ≠ connectionStreamId) (hfind : findStream c hdr.streamId = some slot)
    (hconsume : consume (c.streams slot) hdr.length = some s) :
    processDataFrameWith consume c hdr = (acceptData c hdr slot s, true) := by
  rw [processDataFrameWith, if_neg hid, hfind]
  simp only [hconsume]

theorem clientProcessFrame_room (hftype : hdr.ftype = frameData)
    (hid : hdr.streamId ≠ connectionStreamId) (hfind : findStream c hdr.streamId = some slot)
    (hroom : toInteger hdr.length ≤ (c.streams slot).recvWindow) :
    clientProcessFrame c hdr payload = (acceptData c hdr slot (usedStream c hdr slot), true) :=
  (clientProcessFrame_data hftype).trans
    (processDataFrameWith_room hid hfind (consumeRecvWindow_room hroom))

theorem of_processDataFrameWith {consume : H2Stream → Nat → Option H2Stream}
    (hok : (processDataFrameWith consume c hdr).2 = true)
    (hfind : findStream c hdr.streamId = some slot) :
    hdr.streamId ≠ connectionStreamId ∧ consume (c.streams slot) hdr.length ≠ none := by
  rw [processDataFrameWith] at hok
  by_cases hid : hdr.streamId = connectionStreamId
  · rw [if_pos hid] at hok
    exact absurd hok Bool.false_ne_true
  · refine ⟨hid, fun hnone => ?_⟩
    simp only [if_neg hid, hfind, hnone] at hok
    exact absurd hok Bool.false_ne_true

/-- The stream of an accepted DATA frame had room for it. -/
theorem room_of_accepted (hftype : hdr.ftype = frameData)
    (hok : (clientProcessFrame c hdr payload).2 = true)
    (hfind : findStream c hdr.streamId = some slot) :
    hdr.streamId ≠ connectionStreamId ∧
      toInteger hdr.length ≤ (c.streams slot).recvWindow := by
  rw [clientProcessFrame_data hftype] at hok
  obtain ⟨hid, hconsume⟩ := of_processDataFrameWith hok hfind
  refine ⟨hid, not_lt.mp fun hless => hconsume ?_⟩
  rw [consumeRecvWindow, if_pos hless]

/-- A difference of integers is non-negative in their arithmetic. -/
theorem toInteger_sub_nonneg {x y : Int} (hx : IsInteger x) (hy : IsInteger y) :
    0 ≤ toInteger (x - y) ↔ 0 ≤ x - y ∧ x - y < 2147483648 ∨ x - y < -2147483648 := by
  obtain ⟨hxl, hxu⟩ := hx
  obtain ⟨hyl, hyu⟩ := hy
  unfold toInteger
  rw [Int.bmod_def]
  split <;> omega

end Windows

/-! ## Frames that are handled as they should be -/

/-- A rejected frame changes nothing, and behind an accepted DATA frame the windows of its stream
and of the connection are non-negative. -/
structure Upheld (c : H2Conn) (hdr : FrameHeader) (payload : List UInt8) : Prop where
  rejected : (clientProcessFrame c hdr payload).2 = false → (clientProcessFrame c hdr payload).1 = c
  windows : hdr.ftype = frameData → (clientProcessFrame c hdr payload).2 = true →
    ∀ slot, findStream c hdr.streamId = some slot →
      0 ≤ ((clientProcessFrame c hdr payload).1.streams slot).recvWindow ∧
        0 ≤ (clientProcessFrame c hdr payload).1.connRecvWindow

/-- A DATA frame that its stream has room for has room in the connection too, and neither
difference leaves the range of `INTEGER` by way of a negative length. -/
def Covered (c : H2Conn) (hdr : FrameHeader) : Prop :=
  hdr.ftype = frameData → hdr.streamId ≠ connectionStreamId →
    ∀ slot, findStream c hdr.streamId = some slot →
      toInteger hdr.length ≤ (c.streams slot).recvWindow →
        (c.streams slot).recvWindow - toInteger hdr.length < 2147483648 ∧
          (0 ≤ c.connRecvWindow - toInteger hdr.length ∧
              c.connRecvWindow - toInteger hdr.length < 2147483648 ∨
            c.connRecvWindow - toInteger hdr.length < -2147483648)

/-- The windows of a connection are of type `INTEGER`. -/
structure H2Conn.Typed (c : H2Conn) : Prop where
  streams : ∀ slot, IsInteger (c.streams slot).recvWindow
  conn : IsInteger c.connRecvWindow

/-- A frame is handled as it should be if and only if the window of the connection, which is not
compared with its length, has room for it. -/
theorem upheld_iff_covered (c : H2Conn) (hdr : FrameHeader) (payload : List UInt8)
    (hc : c.Typed) : Upheld c hdr payload ↔ Covered c hdr := by
  have hn : IsInteger (toInteger hdr.length) := isInteger_toInteger _
  constructor
  · intro h hftype hid slot hfind hroom
    have haccepts : clientProcessFrame c hdr payload = _ :=
      clientProcessFrame_room hftype hid hfind hroom
    obtain ⟨hstream, hconn⟩ := acceptData_windows c hdr slot (usedStream c hdr slot)
    have hwindows := h.windows hftype (by rw [haccepts]) slot hfind
    rw [haccepts] at hwindows
    simp only [hstream, hconn] at hwindows
    rw [usedStream, toInteger_sub_nonneg (hc.streams slot) hn, toInteger_sub_nonneg hc.conn hn]
      at hwindows
    refine ⟨?_, hwindows.2⟩
    obtain h | h := hwindows.1
    · exact h.2
    · omega
  · intro h
    refine ⟨clientProcessFrame_atomic, fun hftype hok slot hfind => ?_⟩
    obtain ⟨hid, hroom⟩ := room_of_accepted hftype hok hfind
    obtain ⟨hlt, hconnroom⟩ := h hftype hid slot hfind hroom
    obtain ⟨hstream, hconn⟩ := acceptData_windows c hdr slot (usedStream c hdr slot)
    rw [clientProcessFrame_room hftype hid hfind hroom]
    simp only [hstream, hconn]
    rw [usedStream, toInteger_sub_nonneg (hc.streams slot) hn, toInteger_sub_nonneg hc.conn hn]
    exact ⟨.inl ⟨by omega, hlt⟩, hconnroom⟩

/-- A connection whose window has been used up through a stream that was released, with another
stream open. -/
def spentConn : H2Conn :=
  { initConn (fun _ => ⟨3, .open, 65535, 65535, 0⟩) with
    connRecvWindow := 0
    nextStreamId := 5
    streamUsed := fun slot => slot.val = 0
    numActive := 1 }

theorem spentConn_typed : spentConn.Typed := by
  constructor
  · intro slot
    change IsInteger 65535
    constructor <;> decide
  · change IsInteger 0
    constructor <;> decide

theorem upheld_iff_covered_spentConn :
    Upheld spentConn ⟨0, frameData, 0, 3⟩ [] ↔ Covered spentConn ⟨0, frameData, 0, 3⟩ :=
  upheld_iff_covered spentConn _ _ spentConn_typed

/-- One byte of data for the open stream is accepted, and the window of the connection is `-1`. -/
theorem spentConn_not_upheld : ¬Upheld spentConn ⟨1, frameData, 0, 3⟩ [0] := by
  intro h
  have hfind : findStream spentConn 3 = some ⟨0, by decide⟩ := by decide
  have hone : toInteger ((1 : Nat) : Int) = 1 := toInteger_of_isInteger ⟨by decide, by decide⟩
  have hroom : toInteger ((1 : Nat) : Int) ≤ 65535 := by
    rw [hone]
    decide
  have haccepts : clientProcessFrame spentConn ⟨1, frameData, 0, 3⟩ [0] =
      (acceptData spentConn ⟨1, frameData, 0, 3⟩ _ (usedStream spentConn _ _), true) :=
    clientProcessFrame_room rfl (by decide) hfind hroom
  have hconn := (h.windows rfl (by rw [haccepts]) _ hfind).2
  have hwindow : toInteger (0 - 1) = -1 := toInteger_of_isInteger ⟨by decide, by decide⟩
  rw [haccepts, (acceptData_windows _ _ _ _).2, hone] at hconn
  change 0 ≤ toInteger (0 - 1) at hconn
  rw [hwindow] at hconn
  exact absurd hconn (by decide)

end Mx.Http2
