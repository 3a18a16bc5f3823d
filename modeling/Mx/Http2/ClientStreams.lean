import Mx.Core.Machine
import Mx.Http2.Client

/-!
# Streams of a client are released

A client opens streams, steps them for what it sends, and processes frames. A stream is finished
when both sides have ended it or it was reset. Its slot is then free, in every run in which each
end of a stream meets a transition of the table that leads to a release.
-/

namespace Mx.Http2

open Mx.Core Function

/-! ## Runs -/

/-- What has happened to a stream since it was opened. -/
structure StreamLog where
  sentEnd : Bool
  recvEnd : Bool
  recvRst : Bool
  deriving DecidableEq

/-- Nothing has happened yet. -/
def StreamLog.empty : StreamLog := ⟨false, false, false⟩

/-- The stream has been ended by both sides, or was reset by the peer. -/
def StreamLog.finished (l : StreamLog) : Bool := l.sentEnd && l.recvEnd || l.recvRst

/-- An event of the stream. -/
def StreamLog.record (l : StreamLog) : StreamEvent → StreamLog
  | .sendHES | .sendES => { l with sentEnd := true }
  | .recvHES | .recvES => { l with recvEnd := true }
  | .recvRst => { l with recvRst := true }
  | _ => l

/-- The events that a client steps its streams with. -/
inductive SendEvent where
  | headers
  | headersEnd
  | dataEnd
  | reset
  deriving DecidableEq

/-- The event of a stream. -/
def SendEvent.event : SendEvent → StreamEvent
  | .headers => .sendH
  | .headersEnd => .sendHES
  | .dataEnd => .sendES
  | .reset => .sendRst

/-- A client with what has happened to the stream that was last opened in each slot. -/
structure ClientRun where
  conn : H2Conn
  log : Fin maxStreams → StreamLog

/-- What happens to a client. -/
inductive ClientAction where
  | openStream
  | send (slot : Fin maxStreams) (ev : SendEvent)
  | frame (hdr : FrameHeader) (payload : List UInt8)

/-- The event that an accepted frame is for its stream. -/
def frameEvent (hdr : FrameHeader) : Option StreamEvent :=
  if hdr.ftype = frameRstStream then some .recvRst
  else if hdr.ftype = frameData then if hdr.flags % 2 = 1 then some .recvES else none
  else if hdr.ftype = frameHeaders then some (if hdr.flags % 2 = 1 then .recvHES else .recvH)
  else none

/-- The logs after an accepted frame. -/
def logFrame (c : H2Conn) (log : Fin maxStreams → StreamLog) (hdr : FrameHeader) :
    Fin maxStreams → StreamLog := fun i =>
  match frameEvent hdr with
  | none => log i
  | some ev =>
    if c.streamUsed i ∧ (c.streams i).id = hdr.streamId then (log i).record ev else log i

/-- One step of a client. -/
def ClientRun.step (x : ClientRun) : ClientAction → ClientRun
  | .openStream =>
    { conn := (Http2.openStream x.conn).2
      log := if x.conn.goawayRecv then x.log else match findFreeSlot x.conn with
        | none => x.log
        | some slot => update x.log slot .empty }
  | .send slot ev =>
    { conn := x.conn.setStream slot (streamStep (x.conn.streams slot) ev.event).1
      log := if x.conn.streamUsed slot then
        update x.log slot ((x.log slot).record ev.event) else x.log }
  | .frame hdr payload =>
    let r := clientProcessFrame x.conn hdr payload
    { conn := r.1, log := if r.2 then logFrame x.conn x.log hdr else x.log }

/-- A client that has just been initialised. -/
def ClientRun.Starts (x : ClientRun) : Prop :=
  ∃ streams, x = ⟨initConn streams, fun _ => .empty⟩

/-- The runs of a client whose steps meet a condition. -/
abbrev ClientRun.Reached (ok : ClientRun → ClientAction → Prop) : ClientRun → Prop :=
  GuardedRun (fun x a x' => x' = x.step a) ok ClientRun.Starts

/-- Finished streams are closed and released, the used slots are counted, and a free slot is
enough for `OpenStream`, which takes one that is not after it. -/
structure ClientRun.Released (x : ClientRun) : Prop where
  closed : ∀ i, (x.log i).finished = true →
    (x.conn.streams i).state = .closed ∧ x.conn.streamUsed i = false
  counted : x.conn.numActive = countSlots x.conn.streamUsed
  reusable : ∀ i, x.conn.streamUsed i = false → x.conn.goawayRecv = false → ∃ j ≤ i,
    (openStream x.conn).1 ≠ 0 ∧ ((openStream x.conn).2.streams j).id = (openStream x.conn).1 ∧
      (openStream x.conn).2.streamUsed = update x.conn.streamUsed j true

/-! ## When streams are released -/

/-- A state in which the end of the peer's side leads on, or nothing is left to do. -/
def Handled (s : StreamState) (ev : StreamEvent) : Prop :=
  (streamTable s ev).isSome ∨ s = .halfClosedRemote ∨ s = .closed

/-- New ids are not in use. The client ends its side only where that leaves the stream half-closed
(local), and the peer's end of a stream meets a transition. -/
def Orderly (x : ClientRun) : ClientAction → Prop
  | .openStream => ∀ i, x.conn.streamUsed i = true → (x.conn.streams i).id ≠ x.conn.nextStreamId
  | .send slot ev => x.conn.streamUsed slot = true → ev = .headersEnd ∨ ev = .dataEnd →
    (x.conn.streams slot).state = .halfClosedLocal ∨
      streamTable (x.conn.streams slot).state ev.event = some .halfClosedLocal
  | .frame hdr _ => ∀ i, findStream x.conn hdr.streamId = some i →
    frameEvent hdr = some .recvHES ∨ frameEvent hdr = some .recvES ∧
      (consumeRecvWindow (x.conn.streams i) hdr.length).isSome →
    ∀ ev, frameEvent hdr = some ev → Handled (x.conn.streams i).state ev

/-! ## What a frame does -/

/-- Neither the states of the streams nor their slots change. -/
structure Untouched (c c' : H2Conn) : Prop where
  used : c'.streamUsed = c.streamUsed
  numActive : c'.numActive = c.numActive
  nextStreamId : c'.nextStreamId = c.nextStreamId
  id : ∀ i, (c'.streams i).id = (c.streams i).id
  state : ∀ i, (c'.streams i).state = (c.streams i).state

/-- The next state of a stream. -/
def StreamState.next (s : StreamState) (ev : StreamEvent) : StreamState :=
  (streamTable s ev).getD s

/-- The stream in a slot is stepped, and released when that closes it. -/
structure Stepped (c : H2Conn) (slot : Fin maxStreams) (ev : StreamEvent) (c' : H2Conn) :
    Prop where
  nextStreamId : c'.nextStreamId = c.nextStreamId
  id : ∀ i, (c'.streams i).id = (c.streams i).id
  other : ∀ i, i ≠ slot → (c'.streams i).state = (c.streams i).state
  state : (c'.streams slot).state = (c.streams slot).state.next ev
  used : c'.streamUsed = update c.streamUsed slot
    (decide ((c.streams slot).state.next ev ≠ .closed))
  numActive : c'.numActive =
    if (c.streams slot).state.next ev = .closed ∧ c.numActive > 0 then c.numActive - 1
    else c.numActive

theorem Untouched.rfl' (c : H2Conn) : Untouched c c :=
  ⟨rfl, rfl, rfl, fun _ => rfl, fun _ => rfl⟩

theorem streamStep_fst (s : H2Stream) (ev : StreamEvent) :
    (streamStep s ev).1 = { s with state := s.state.next ev } := by
  rw [streamStep, StreamState.next]
  cases streamTable s.state ev <;> rfl

theorem untouched_setStream (c : H2Conn) (slot : Fin maxStreams) (s : H2Stream)
    (hid : s.id = (c.streams slot).id) (hstate : s.state = (c.streams slot).state) :
    Untouched c (c.setStream slot s) := by
  refine ⟨rfl, rfl, rfl, fun i => ?_, fun i => ?_⟩
  all_goals
    simp only [H2Conn.setStream]
    by_cases h : i = slot
    · subst h
      rw [update_self]
      assumption
    · rw [update_of_ne h]

theorem stepped_stepStream {c : H2Conn} {slot : Fin maxStreams} {s : H2Stream}
    (hused : c.streamUsed slot = true) (hid : s.id = (c.streams slot).id)
    (hstate : s.state = (c.streams slot).state) (ev : StreamEvent) :
    Stepped c slot ev (stepStream c slot s ev) := by
  have hset : ∀ i, (update c.streams slot { s with state := s.state.next ev } i).id =
      (c.streams i).id := by
    intro i
    by_cases h : i = slot
    · subst h
      rw [update_self]
      exact hid
    · rw [update_of_ne h]
  simp only [stepStream, streamStep_fst, isClosed]
  by_cases hclosed : s.state.next ev = .closed
  · rw [hstate] at hclosed
    simp only [hstate, hclosed, decide_true, if_true, releaseStream, H2Conn.setStream, hused]
    refine ⟨rfl, ?_, fun i hi => ?_, ?_, ?_, ?_⟩
    · simpa only [hstate, hclosed] using hset
    · simp only [update_of_ne hi]
    · simp only [update_self, hclosed]
    · simp [hclosed]
    · simp [hclosed]
  · rw [hstate] at hclosed
    simp only [hstate, hclosed, decide_false, Bool.false_eq_true, if_false, H2Conn.setStream]
    refine ⟨rfl, ?_, fun i hi => ?_, ?_, ?_, ?_⟩
    · simpa only [hstate] using hset
    · simp only [update_of_ne hi]
    · simp only [update_self]
    · simp only [hclosed, ne_eq, not_false_eq_true, decide_true]
      rw [← hused, update_eq_self]
    · simp [hclosed]

theorem of_findStream {c : H2Conn} {streamId : Nat} {slot : Fin maxStreams}
    (h : findStream c streamId = some slot) :
    c.streamUsed slot = true ∧ (c.streams slot).id = streamId := by
  have hslot := of_firstSlot_eq_some h
  simp only [Bool.and_eq_true, decide_eq_true_eq] at hslot
  exact hslot

/-- What a frame does to the streams. -/
inductive FrameEffect (c : H2Conn) (hdr : FrameHeader) (r : H2Conn × Bool) : Prop
  /-- The frame is rejected, is for no stream, or changes windows only. -/
  | none (h : Untouched c r.1)
      (hmissed : r.2 = true → frameEvent hdr = none ∨ findStream c hdr.streamId = none)
  /-- The frame is for a stream. -/
  | step (slot : Fin maxStreams) (ev : StreamEvent) (hslot : findStream c hdr.streamId = some slot)
      (hev : frameEvent hdr = some ev) (hok : r.2 = true) (hstep : Stepped c slot ev r.1)
      (hwindow : ev = .recvES → (consumeRecvWindow (c.streams slot) hdr.length).isSome)

section Frames

variable {c : H2Conn} {hdr : FrameHeader} {payload : List UInt8}

theorem FrameEffect.reject : FrameEffect c hdr (c, false) :=
  .none (.rfl' c) fun h => absurd h Bool.false_ne_true

theorem processSettingsFrame_effect (hev : frameEvent hdr = none) :
    FrameEffect c hdr (processSettingsFrame c hdr payload) := by
  rw [processSettingsFrame]
  by_cases hack : hdr.flags % 2 = 1
  · rw [if_pos hack]
    exact .none (.rfl' c) fun _ => .inl hev
  rw [if_neg hack]
  by_cases hlen : hdr.length % 6 ≠ 0
  · rw [if_pos hlen]
    exact .reject
  rw [if_neg hlen]
  cases decodeSettings payload c.remoteSettings with
  | none => exact .reject
  | some s => exact .none ⟨rfl, rfl, rfl, fun _ => rfl, fun _ => rfl⟩ fun _ => .inl hev

theorem processPingFrame_effect (hev : frameEvent hdr = none) :
    FrameEffect c hdr (processPingFrame c hdr payload) := by
  rw [processPingFrame]
  by_cases hlen : hdr.length ≠ 8
  · rw [if_pos hlen]
    exact .reject
  rw [if_neg hlen]
  by_cases hid : hdr.streamId ≠ connectionStreamId
  · rw [if_pos hid]
    exact .reject
  rw [if_neg hid]
  by_cases hack : hdr.flags % 2 = 1
  · rw [if_pos hack]
    exact .none (.rfl' c) fun _ => .inl hev
  · rw [if_neg hack]
    exact .none ⟨rfl, rfl, rfl, fun _ => rfl, fun _ => rfl⟩ fun _ => .inl hev

theorem processGoawayFrame_effect (hev : frameEvent hdr = none) :
    FrameEffect c hdr (processGoawayFrame c payload) := by
  rw [processGoawayFrame]
  cases decodeGoaway payload with
  | none => exact .reject
  | some r => exact .none ⟨rfl, rfl, rfl, fun _ => rfl, fun _ => rfl⟩ fun _ => .inl hev

theorem processWindowUpdateFrame_effect (hev : frameEvent hdr = none) :
    FrameEffect c hdr (processWindowUpdateFrame c hdr payload) := by
  rw [processWindowUpdateFrame]
  cases decodeWindowUpdate payload with
  | none => exact .reject
  | some increment =>
    simp only
    by_cases hzero : increment = 0
    · rw [if_pos hzero]
      exact .reject
    rw [if_neg hzero]
    by_cases hid : hdr.streamId = connectionStreamId
    · rw [if_pos hid]
      exact .none ⟨rfl, rfl, rfl, fun _ => rfl, fun _ => rfl⟩ fun _ => .inl hev
    rw [if_neg hid]
    cases findStream c hdr.streamId with
    | none => exact .none (.rfl' c) fun _ => .inl hev
    | some slot => exact .none (untouched_setStream c slot _ rfl rfl) fun _ => .inl hev

theorem processRstStreamFrame_effect (hev : frameEvent hdr = some .recvRst) :
    FrameEffect c hdr (processRstStreamFrame c hdr payload) := by
  rw [processRstStreamFrame]
  by_cases hlen : hdr.length ≠ 4
  · rw [if_pos hlen]
    exact .reject
  rw [if_neg hlen]
  by_cases hid : hdr.streamId = connectionStreamId
  · rw [if_pos hid]
    exact .reject
  rw [if_neg hid]
  cases decodeRstStream payload with
  | none => exact .reject
  | some errCode =>
    cases hfind : findStream c hdr.streamId with
    | none => exact .none (.rfl' c) fun _ => .inr hfind
    | some slot =>
      refine .step slot .recvRst hfind hev rfl ?_ fun h => by cases h
      exact stepped_stepStream (s := { c.streams slot with rstCode := errCode })
        (of_findStream hfind).1 rfl rfl _

variable {s : H2Stream}

theorem of_consumeRecvWindow {s' : H2Stream} {n : Nat} (h : consumeRecvWindow s n = some s') :
    s'.id = s.id ∧ s'.state = s.state := by
  rw [consumeRecvWindow] at h
  generalize toInteger (s.recvWindow - toInteger n) = window at h
  by_cases hlt : s.recvWindow < toInteger n
  · rw [if_pos hlt] at h
    cases h
  · rw [if_neg hlt] at h
    obtain rfl := Option.some.inj h
    exact ⟨rfl, rfl⟩

theorem stepped_acceptData {slot : Fin maxStreams}
    (hused : c.streamUsed slot = true) (hid : s.id = (c.streams slot).id)
    (hstate : s.state = (c.streams slot).state) (hend : hdr.flags % 2 = 1) :
    Stepped c slot .recvES (acceptData c hdr slot s) := by
  rw [acceptData, if_pos hend]
  generalize toInteger (c.connRecvWindow - toInteger hdr.length) = window
  obtain ⟨h₁, h₂, h₃, h₄, h₅, h₆⟩ := stepped_stepStream (c := { c with connRecvWindow := window })
    hused hid hstate .recvES
  exact ⟨h₁, h₂, h₃, h₄, h₅, h₆⟩

theorem untouched_acceptData {slot : Fin maxStreams}
    (hid : s.id = (c.streams slot).id) (hstate : s.state = (c.streams slot).state)
    (hend : ¬ hdr.flags % 2 = 1) : Untouched c (acceptData c hdr slot s) := by
  rw [acceptData, if_neg hend]
  generalize toInteger (c.connRecvWindow - toInteger hdr.length) = window
  obtain ⟨h₁, h₂, h₃, h₄, h₅⟩ :=
    untouched_setStream { c with connRecvWindow := window } slot s hid hstate
  exact ⟨h₁, h₂, h₃, h₄, h₅⟩

theorem processDataFrameWith_effect {consume : H2Stream → Nat → Option H2Stream}
    (hconsume : ∀ s n s', consume s n = some s' → s'.id = s.id ∧ s'.state = s.state)
    (hsame : ∀ s n, (consume s n).isSome → (consumeRecvWindow s n).isSome)
    (htype : hdr.ftype = frameData) : FrameEffect c hdr (processDataFrameWith consume c hdr) := by
  have hev : frameEvent hdr = if hdr.flags % 2 = 1 then some .recvES else none := by
    rw [frameEvent, if_neg (by rw [htype]; decide), if_pos htype]
  rw [processDataFrameWith]
  by_cases hid : hdr.streamId = connectionStreamId
  · rw [if_pos hid]
    exact .reject
  rw [if_neg hid]
  cases hfind : findStream c hdr.streamId with
  | none => exact .reject
  | some slot =>
    simp only
    cases hsome : consume (c.streams slot) hdr.length with
    | none => exact .reject
    | some s =>
      have hs := hconsume _ _ _ hsome
      by_cases hend : hdr.flags % 2 = 1
      · rw [if_pos hend] at hev
        refine .step slot .recvES hfind hev rfl ?_ fun _ =>
          hsame _ _ (Option.isSome_of_eq_some hsome)
        exact stepped_acceptData (of_findStream hfind).1 hs.1 hs.2 hend
      · rw [if_neg hend] at hev
        exact .none (untouched_acceptData hs.1 hs.2 hend) fun _ => .inl hev

theorem processDataFrame_effect (htype : hdr.ftype = frameData) :
    FrameEffect c hdr (processDataFrame c hdr) :=
  processDataFrameWith_effect (fun _ _ _ => of_consumeRecvWindow) (fun _ _ h => h) htype

theorem processHeadersFrame_effect (htype : hdr.ftype = frameHeaders) :
    FrameEffect c hdr (processHeadersFrame c hdr) := by
  have hev : frameEvent hdr = some (if hdr.flags % 2 = 1 then .recvHES else .recvH) := by
    rw [frameEvent, if_neg (by rw [htype]; decide), if_neg (by rw [htype]; decide),
      if_pos htype]
  rw [processHeadersFrame]
  by_cases hid : hdr.streamId = connectionStreamId
  · rw [if_pos hid]
    exact .reject
  rw [if_neg hid]
  cases hfind : findStream c hdr.streamId with
  | none => exact .reject
  | some slot =>
    refine .step slot _ hfind hev rfl (stepped_stepStream (of_findStream hfind).1 rfl rfl _) ?_
    intro h
    by_cases hend : hdr.flags % 2 = 1
    · rw [if_pos hend] at h
      cases h
    · rw [if_neg hend] at h
      cases h

/-- What a frame does. -/
theorem clientProcessFrame_effect (c : H2Conn) (hdr : FrameHeader) (payload : List UInt8) :
    FrameEffect c hdr (clientProcessFrame c hdr payload) := by
  have hnone : hdr.ftype ≠ frameRstStream → hdr.ftype ≠ frameData → hdr.ftype ≠ frameHeaders →
      frameEvent hdr = none := by
    intro hrst hdata hheaders
    rw [frameEvent, if_neg hrst, if_neg hdata, if_neg hheaders]
  rw [clientProcessFrame]
  by_cases hsettings : hdr.ftype = frameSettings
  · rw [if_pos hsettings]
    exact processSettingsFrame_effect (hnone (by rw [hsettings]; decide)
      (by rw [hsettings]; decide) (by rw [hsettings]; decide))
  rw [if_neg hsettings]
  by_cases hping : hdr.ftype = framePing
  · rw [if_pos hping]
    exact processPingFrame_effect (hnone (by rw [hping]; decide)
      (by rw [hping]; decide) (by rw [hping]; decide))
  rw [if_neg hping]
  by_cases hgoaway : hdr.ftype = frameGoaway
  · rw [if_pos hgoaway]
    exact processGoawayFrame_effect (hnone (by rw [hgoaway]; decide)
      (by rw [hgoaway]; decide) (by rw [hgoaway]; decide))
  rw [if_neg hgoaway]
  by_cases hupdate : hdr.ftype = frameWindowUpdate
  · rw [if_pos hupdate]
    exact processWindowUpdateFrame_effect (hnone (by rw [hupdate]; decide)
      (by rw [hupdate]; decide) (by rw [hupdate]; decide))
  rw [if_neg hupdate]
  by_cases hrst : hdr.ftype = frameRstStream
  · rw [if_pos hrst]
    exact processRstStreamFrame_effect (if_pos hrst)
  rw [if_neg hrst]
  by_cases hdata : hdr.ftype = frameData
  · rw [if_pos hdata]
    exact processDataFrame_effect hdata
  rw [if_neg hdata]
  by_cases hheaders : hdr.ftype = frameHeaders
  · rw [if_pos hheaders]
    exact processHeadersFrame_effect hheaders
  · rw [if_neg hheaders]
    exact .none (.rfl' c) fun _ => .inl (hnone hrst hdata hheaders)

end Frames

/-! ## The invariant -/

/-- What the state of a stream in use says about its ends. -/
def Live (l : StreamLog) : StreamState → Prop
  | .idle | .open => l.sentEnd = false ∧ l.recvEnd = false ∧ l.recvRst = false
  | .halfClosedLocal => l.recvEnd = false ∧ l.recvRst = false
  | .halfClosedRemote => l.sentEnd = false ∧ l.recvRst = false
  | .closed => l.finished = false
  | .reservedLocal | .reservedRemote => False

/-- What holds of a slot. -/
def SlotOk (used : Bool) (state : StreamState) (l : StreamLog) : Prop :=
  if used then Live l state else l.finished = true → state = .closed

variable {s : StreamState} {l : StreamLog}

theorem Live.not_finished (h : Live l s) : l.finished = false := by
  obtain ⟨sentEnd, recvEnd, recvRst⟩ := l
  cases s <;> simp_all [Live, StreamLog.finished]

/-- A received event either closes the stream or leaves it in use as it should be. -/
theorem Live.receive (h : Live l s) {ev : StreamEvent}
    (hev : ev = .recvH ∨ ev = .recvRst ∨ (ev = .recvHES ∨ ev = .recvES) ∧ Handled s ev) :
    s.next ev = .closed ∨ Live (l.record ev) (s.next ev) := by
  obtain ⟨sentEnd, recvEnd, recvRst⟩ := l
  rcases hev with rfl | rfl | ⟨rfl | rfl, hhandled⟩
  · cases s <;> simp_all [Live, StreamState.next, streamTable, StreamLog.record]
  · cases s <;> simp_all [Live, StreamState.next, streamTable]
  all_goals
    cases s <;> simp_all [Live, StreamState.next, streamTable, StreamLog.record, Handled,
      StreamLog.finished]

/-- The client's own events leave the stream in use as it should be. -/
theorem Live.send (h : Live l s) {ev : SendEvent} (hev : ev = .headersEnd ∨ ev = .dataEnd →
      s = .halfClosedLocal ∨ streamTable s ev.event = some .halfClosedLocal) :
    Live (l.record ev.event) (s.next ev.event) := by
  obtain ⟨sentEnd, recvEnd, recvRst⟩ := l
  cases ev <;> cases s <;>
    simp_all [Live, StreamState.next, streamTable, StreamLog.record, SendEvent.event,
      StreamLog.finished]

theorem next_closed (ev : StreamEvent) : StreamState.next .closed ev = .closed := by
  cases ev <;> rfl

/-- What holds of a client in a run. -/
structure ClientRun.Invariant (x : ClientRun) : Prop where
  counted : x.conn.numActive = countSlots x.conn.streamUsed
  odd : x.conn.nextStreamId % 2 = 1
  distinct : ∀ i j, x.conn.streamUsed i = true → x.conn.streamUsed j = true →
    (x.conn.streams i).id = (x.conn.streams j).id → i = j
  slots : ∀ i, SlotOk (x.conn.streamUsed i) (x.conn.streams i).state (x.log i)

section Invariant

variable {x : ClientRun}

theorem ClientRun.Starts.invariant (h : x.Starts) : x.Invariant := by
  obtain ⟨streams, rfl⟩ := h
  refine ⟨?_, rfl, fun i _ hi => absurd hi Bool.false_ne_true, fun i hfinished => ?_⟩
  · exact (countSlots_eq_zero_iff.mpr fun _ => rfl).symm
  · exact absurd hfinished Bool.false_ne_true

variable {slot : Fin maxStreams}

/-- The slot that is found is the only one in use with the id. -/
theorem ClientRun.Invariant.unique (h : x.Invariant) {streamId : Nat} {i : Fin maxStreams}
    (hslot : findStream x.conn streamId = some slot) (hi : x.conn.streamUsed i = true)
    (hid : (x.conn.streams i).id = streamId) : i = slot := by
  obtain ⟨hused, hslotId⟩ := of_findStream hslot
  exact h.distinct i slot hi hused (hid.trans hslotId.symm)

theorem ClientRun.Invariant.openStream (h : x.Invariant) (hok : Orderly x .openStream) :
    (x.step .openStream).Invariant := by
  simp only [ClientRun.step, Http2.openStream]
  by_cases hgoaway : x.conn.goawayRecv = true
  · simp only [hgoaway, if_true]
    exact h
  simp only [hgoaway, if_false, Bool.false_eq_true]
  cases hfree : findFreeSlot x.conn with
  | none => exact h
  | some slot =>
    have hunused : x.conn.streamUsed slot = false := by
      have hfirst := of_firstSlot_eq_some hfree
      simpa using hfirst
    have hlt : countSlots x.conn.streamUsed < maxStreams := countSlots_lt hunused
    have hmax : maxStreams = 64 := rfl
    refine ⟨?_, ?_, fun i j hi hj hid => ?_, fun i => ?_⟩
    · simp only [countSlots_take hunused, h.counted]
      omega
    · have hodd := h.odd
      simp only
      omega
    · simp only [H2Conn.setStream] at hi hj hid
      by_cases his : i = slot
      · by_cases hjs : j = slot
        · rw [his, hjs]
        · rw [update_of_ne hjs] at hj
          rw [his, update_self, update_of_ne hjs] at hid
          exact absurd hid.symm (hok j hj)
      · rw [update_of_ne his] at hi
        by_cases hjs : j = slot
        · rw [hjs, update_self, update_of_ne his] at hid
          exact absurd hid (hok i hi)
        · rw [update_of_ne hjs] at hj
          rw [update_of_ne his, update_of_ne hjs] at hid
          exact h.distinct i j hi hj hid
    · simp only [H2Conn.setStream]
      by_cases his : i = slot
      · subst his
        rw [update_self, update_self, update_self]
        exact ⟨rfl, rfl, rfl⟩
      · rw [update_of_ne his, update_of_ne his, update_of_ne his]
        exact h.slots i

theorem ClientRun.Invariant.send (h : x.Invariant) {ev : SendEvent}
    (hok : Orderly x (.send slot ev)) : (x.step (.send slot ev)).Invariant := by
  simp only [ClientRun.step, streamStep_fst]
  obtain ⟨-, -, -, hid, -⟩ := untouched_setStream x.conn slot (x.conn.streams slot) rfl rfl
  refine ⟨h.counted, h.odd, fun i j hi hj hij => ?_, fun i => ?_⟩
  · have hids : ∀ k, (update x.conn.streams slot { x.conn.streams slot with
        state := (x.conn.streams slot).state.next ev.event } k).id = (x.conn.streams k).id := by
      intro k
      by_cases hk : k = slot
      · rw [hk, update_self]
      · rw [update_of_ne hk]
    simp only [H2Conn.setStream, hids] at hi hj hij
    exact h.distinct i j hi hj hij
  · have hslot := h.slots i
    simp only [H2Conn.setStream]
    by_cases his : i = slot
    · subst his
      rw [update_self]
      rw [SlotOk] at hslot ⊢
      by_cases hused : x.conn.streamUsed i = true
      · rw [if_pos hused] at hslot ⊢
        rw [if_pos hused, update_self]
        exact hslot.send (hok hused)
      · rw [if_neg hused] at hslot ⊢
        rw [if_neg hused]
        intro hfinished
        simp only [hslot hfinished, next_closed]
    · rw [update_of_ne his]
      by_cases hused : x.conn.streamUsed slot = true
      · rw [if_pos hused, update_of_ne his]
        exact hslot
      · rw [if_neg hused]
        exact hslot

variable {c : H2Conn} {log : Fin maxStreams → StreamLog} {hdr : FrameHeader}

theorem logFrame_of_not
    {i : Fin maxStreams} (h : ¬ (c.streamUsed i = true ∧ (c.streams i).id = hdr.streamId)) :
    logFrame c log hdr i = log i := by
  rw [logFrame]
  cases frameEvent hdr with
  | none => rfl
  | some ev => exact if_neg h

theorem logFrame_of_event {ev : StreamEvent} (hev : frameEvent hdr = some ev)
    (h : findStream c hdr.streamId = some slot) :
    logFrame c log hdr slot = (log slot).record ev := by
  rw [logFrame, hev]
  exact if_pos (of_findStream h)

/-- A frame that is for no stream changes no log. -/
theorem logFrame_of_missed
    (h : frameEvent hdr = none ∨ findStream c hdr.streamId = none) : logFrame c log hdr = log := by
  funext i
  rcases h with hev | hfind
  · rw [logFrame, hev]
  · refine logFrame_of_not fun ⟨hused, hid⟩ => ?_
    have hno := firstSlot_eq_none_iff.mp hfind i
    simp [hused, hid] at hno

theorem ClientRun.Invariant.frame (h : x.Invariant) {payload : List UInt8}
    (hok : Orderly x (.frame hdr payload)) : (x.step (.frame hdr payload)).Invariant := by
  have heffect := clientProcessFrame_effect x.conn hdr payload
  simp only [ClientRun.step]
  generalize clientProcessFrame x.conn hdr payload = r at heffect
  cases heffect with
  | none huntouched hmissed =>
    have hlog : (if r.2 = true then logFrame x.conn x.log hdr else x.log) = x.log := by
      by_cases hiok : r.2 = true
      · rw [if_pos hiok, logFrame_of_missed (hmissed hiok)]
      · rw [if_neg hiok]
    rw [hlog]
    refine ⟨?_, ?_, fun i j hi hj hij => ?_, fun i => ?_⟩
    · rw [huntouched.numActive, huntouched.used, h.counted]
    · rw [huntouched.nextStreamId, h.odd]
    · rw [huntouched.used] at hi hj
      rw [huntouched.id, huntouched.id] at hij
      exact h.distinct i j hi hj hij
    · simp only [huntouched.used, huntouched.state]
      exact h.slots i
  | step slot ev hslot hev hiok hstep hwindow =>
    obtain ⟨hused, hid⟩ := of_findStream hslot
    rw [if_pos hiok]
    have hlive : Live (x.log slot) (x.conn.streams slot).state := by
      have hslots := h.slots slot
      rwa [SlotOk, if_pos hused] at hslots
    have hreceive : (x.conn.streams slot).state.next ev = .closed ∨
        Live ((x.log slot).record ev) ((x.conn.streams slot).state.next ev) := by
      refine hlive.receive ?_
      have hkinds : ev = .recvH ∨ ev = .recvRst ∨ ev = .recvHES ∨ ev = .recvES := by
        rw [frameEvent] at hev
        split at hev
        · exact .inr (.inl (Option.some.inj hev).symm)
        · split at hev
          · split at hev
            · exact .inr (.inr (.inr (Option.some.inj hev).symm))
            · cases hev
          · split at hev
            · have heq := (Option.some.inj hev).symm
              by_cases hend : hdr.flags % 2 = 1
              · rw [if_pos hend] at heq
                exact .inr (.inr (.inl heq))
              · rw [if_neg hend] at heq
                exact .inl heq
            · cases hev
      rcases hkinds with rfl | rfl | rfl | rfl
      · exact .inl rfl
      · exact .inr (.inl rfl)
      · exact .inr (.inr ⟨.inl rfl, hok slot hslot (.inl hev) _ hev⟩)
      · exact .inr (.inr ⟨.inr rfl, hok slot hslot (.inr ⟨hev, hwindow rfl⟩) _ hev⟩)
    refine ⟨?_, ?_, fun i j hi hj hij => ?_, fun i => ?_⟩
    · rw [hstep.numActive, hstep.used]
      by_cases hclosed : (x.conn.streams slot).state.next ev = .closed
      · have hrelease := countSlots_release hused
        simp only [hclosed, ne_eq, not_true_eq_false, decide_false, true_and]
        rw [h.counted, if_pos (by omega)]
        omega
      · have hsame : update x.conn.streamUsed slot true = x.conn.streamUsed := by
          rw [← hused, update_eq_self]
        simp only [hclosed, ne_eq, not_false_eq_true, decide_true, hsame, false_and, if_false]
        exact h.counted
    · rw [hstep.nextStreamId, h.odd]
    · have hmono : ∀ k, r.1.streamUsed k = true → x.conn.streamUsed k = true := by
        intro k hk
        by_cases hks : k = slot
        · rw [hks]
          exact hused
        · rwa [hstep.used, update_of_ne hks] at hk
      rw [hstep.id, hstep.id] at hij
      exact h.distinct i j (hmono i hi) (hmono j hj) hij
    · simp only [hstep.used]
      by_cases his : i = slot
      · subst his
        rw [update_self, hstep.state, logFrame_of_event hev hslot, SlotOk]
        by_cases hclosed : (x.conn.streams i).state.next ev = .closed
        · simp only [hclosed, ne_eq, not_true_eq_false, decide_false, Bool.false_eq_true, if_false,
            implies_true]
        · rw [if_pos (by simpa using hclosed)]
          exact hreceive.resolve_left hclosed
      · rw [update_of_ne his, hstep.other i his]
        have hslots := h.slots i
        have hnot : ¬ (x.conn.streamUsed i = true ∧ (x.conn.streams i).id = hdr.streamId) :=
          fun ⟨hi, hid'⟩ => his (h.unique hslot hi hid')
        rw [logFrame_of_not hnot]
        exact hslots

/-- A client in which the invariant holds has released its finished streams. -/
theorem ClientRun.Invariant.released (h : x.Invariant) : x.Released := by
  refine ⟨fun i hfinished => ?_, h.counted, fun i hfree hgoaway => ?_⟩
  · have hslot := h.slots i
    rw [SlotOk] at hslot
    by_cases hused : x.conn.streamUsed i = true
    · rw [if_pos hused] at hslot
      rw [hslot.not_finished] at hfinished
      exact absurd hfinished Bool.false_ne_true
    · rw [if_neg hused] at hslot
      exact ⟨hslot hfinished, Bool.eq_false_iff.mpr hused⟩
  · cases hslot : findFreeSlot x.conn with
    | none =>
      have hno := firstSlot_eq_none_iff.mp hslot i
      simp [hfree] at hno
    | some j =>
      refine ⟨j, not_lt.mp fun hlt => ?_, ?_⟩
      · have hno := not_of_lt_firstSlot hslot hlt
        simp [hfree] at hno
      · have hodd := h.odd
        simp only [Http2.openStream, hgoaway, hslot, Bool.false_eq_true, if_false,
          H2Conn.setStream, update_self]
        exact ⟨by omega, rfl, trivial⟩

end Invariant

/-- In every run whose steps are orderly, finished streams are closed and released. -/
theorem released_of_orderly {x : ClientRun} (h : ClientRun.Reached Orderly x) : x.Released := by
  refine (h.invariant (fun _ hstart => hstart.invariant) ?_).released
  rintro x a _ hx hok rfl
  cases a with
  | openStream => exact hx.openStream hok
  | send slot ev => exact hx.send hok
  | frame hdr payload => exact hx.frame hok

/-- The first slot. -/
def slotZero : Fin maxStreams := ⟨0, by decide⟩

/-- A client without streams. -/
def newClient : ClientRun := ⟨initConn fun _ => initStream 0 0, fun _ => .empty⟩

/-- A client that has sent a request without a body on its first stream. -/
def requestSent : ClientRun := (newClient.step .openStream).step (.send slotZero .headersEnd)

/-- A response whose body ends with the stream. -/
theorem released_responseBody :
    (requestSent.step (.frame ⟨0, frameData, flagEndStream, 1⟩ [])).Released := by
  have hopenOk : Orderly newClient .openStream := fun i hi => absurd hi Bool.false_ne_true
  have hsendOk : Orderly (newClient.step .openStream) (.send slotZero .headersEnd) :=
    fun _ _ => .inr rfl
  have hframeOk : Orderly requestSent (.frame ⟨0, frameData, flagEndStream, 1⟩ []) := by
    intro i hi _ ev hev
    have hfirst : findStream requestSent.conn 1 = some slotZero := rfl
    obtain rfl : slotZero = i := Option.some.inj (hfirst.symm.trans hi)
    obtain rfl : .recvES = ev := Option.some.inj hev
    exact .inl rfl
  exact released_of_orderly
    (.step (.step (.step (.start ⟨_, rfl⟩) hopenOk rfl) hsendOk rfl) hframeOk rfl)

/-- A response without a body: `HEADERS` with `END_STREAM` has no transition from half-closed
(local), and the slot stays in use. -/
theorem not_released_headersOnly :
    ¬ ∀ x, ClientRun.Reached (fun _ _ => True) x → x.Released := by
  intro h
  have hsent : ClientRun.Reached (fun _ _ => True) requestSent :=
    .step (.step (.start ⟨_, rfl⟩) trivial rfl) trivial rfl
  have hreleased := h _ (.step (a := .frame ⟨0, frameHeaders, 5, 1⟩ []) hsent trivial rfl)
  have hclosed := (hreleased.closed slotZero rfl).1
  exact absurd hclosed (by decide)

end Mx.Http2
