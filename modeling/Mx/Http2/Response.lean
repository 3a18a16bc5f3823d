import Mx.Core.Transport
import Mx.Http2.Frame

/-!
# Response bodies and flow control

`SendResponse` and `FlushData` write the body of a response in `DATA` frames, as far as the send
windows of the connection and the stream allow. `FlushData` finds its place in the body by
`resp.bodyLen`, which only it reduces.
-/

namespace Mx.Http2

open Mx.Core

/-! ## Integers -/

/-- A value of type `INTEGER`, by two's complement. -/
def toInteger (x : Int) : Int := x.bmod 4294967296

/-- A value of type `CARDINAL`. -/
def toCardinal (x : Int) : Nat := (x % 4294967296).toNat

/-- The range of `INTEGER`. -/
def IsInteger (x : Int) : Prop := -2147483648 ≤ x ∧ x < 2147483648

theorem isInteger_toInteger (x : Int) : IsInteger (toInteger x) := by
  rw [IsInteger, toInteger, Int.bmod_def]
  split <;> omega

theorem toInteger_of_isInteger {x : Int} (h : IsInteger x) : toInteger x = x := by
  rw [IsInteger] at h
  rw [toInteger, Int.bmod_def]
  split <;> omega

theorem toInteger_add_le {x : Int} (h : IsInteger x) (n : Nat) :
    toInteger (x + toInteger n) ≤ x + n := by
  rw [IsInteger] at h
  simp only [toInteger, Int.bmod_def]
  split <;> split <;> omega

/-- `MinCard`. -/
def minCard (a b : Nat) : Nat := if a < b then a else b

/-- `MinIntCard`. -/
def minIntCard (a : Int) (b : Nat) : Nat :=
  if a ≤ 0 then 0 else if toCardinal a < b then toCardinal a else b

theorem minCard_eq (a b : Nat) : minCard a b = min a b := by
  rw [minCard]
  split <;> omega

theorem minIntCard_eq {a : Int} (h : IsInteger a) (b : Nat) : minIntCard a b = min a.toNat b := by
  rw [IsInteger] at h
  rw [minIntCard, toCardinal]
  split
  · omega
  · split <;> omega

/-! ## Sending -/

/-- `ConsumeSendWindow` on a window: its result and the window afterwards. -/
def consumeSendWindow (window : Int) (n : Nat) : Bool × Int :=
  if window < toInteger n then (false, window) else (true, toInteger (window - toInteger n))

/-- `UpdateSendWindow` on a window. -/
def updateSendWindow (window : Int) (increment : Nat) : Int :=
  toInteger (window + toInteger increment)

/-- The fields of the slot, the response and the connection that sending changes. -/
structure SendState where
  out : Buf
  connWindow : Int
  sendWindow : Int
  bodyLen : Nat
  endSent : Bool

/-- The parameters of a response. -/
structure SendContext where
  streamId : Nat
  maxFrameSize : Nat
  body : List UInt8
  /-- The encoded header block. -/
  headerBlock : List UInt8

/-- The variables of the loop that sends `DATA` frames, with the payloads written so far. -/
structure SendLoop where
  state : SendState
  bodyOfs : Nat
  remaining : Nat
  written : List (Chunk UInt8)

/-- What the windows allow to send of so many bytes, and the stream window afterwards; none when
flow control is exhausted. The result of the second `ConsumeSendWindow` is not looked at. -/
def takeWindow (connWindow sendWindow : Int) (wanted : Nat) : Option (Nat × Int) :=
  let sendable := minIntCard connWindow wanted
  if sendable = 0 then none
  else
    let r := consumeSendWindow sendWindow sendable
    if r.1 then some (sendable, r.2)
    else
      let sendable := minCard sendable (toCardinal sendWindow)
      if sendable = 0 then none else some (sendable, (consumeSendWindow sendWindow sendable).2)

/-- One round of the loop. `FlushData` stores what remains in `resp.bodyLen`, `SendResponse` does
not. -/
def sendRound (c : SendContext) (keepsBodyLen : Bool) (l : SendLoop) : Option SendLoop :=
  let s := l.state
  (takeWindow s.connWindow s.sendWindow (minCard l.remaining c.maxFrameSize)).map fun r =>
    let remaining := l.remaining - r.1
    let header := encodeDataHeader s.out c.streamId r.1 (remaining = 0)
    let payload := (c.body.drop l.bodyOfs).take r.1
    let out := header.appendView payload
    { state := {
        out := out.1
        connWindow := toInteger (s.connWindow - toInteger r.1)
        sendWindow := r.2
        bodyLen := if keepsBodyLen then remaining else s.bodyLen
        endSent := s.endSent }
      bodyOfs := l.bodyOfs + r.1
      remaining := remaining
      written := l.written ++ [⟨remaining = 0, if out.2 then payload else []⟩] }

/-- The loop, with at most so many rounds: it ends when nothing remains, or early. -/
def sendLoop (c : SendContext) (keepsBodyLen : Bool) : Nat → SendLoop → SendLoop
  | 0, l => l
  | n + 1, l =>
    if l.remaining = 0 then l
    else match sendRound c keepsBodyLen l with
      | none => l
      | some l' => sendLoop c keepsBodyLen n l'

/-- The loop to its end. Every round sends at least one byte. -/
def sendData (c : SendContext) (keepsBodyLen : Bool) (s : SendState) (bodyOfs remaining : Nat) :
    SendState × List (Chunk UInt8) :=
  let l := sendLoop c keepsBodyLen remaining ⟨s, bodyOfs, remaining, []⟩
  ({ l.state with endSent := l.state.endSent || l.remaining = 0 }, l.written)

/-- `SendResponse`, with the `DATA` payloads written. -/
def sendResponse (c : SendContext) (s : SendState) : SendState × List (Chunk UInt8) :=
  let out := encodeHeadersHeader s.out c.streamId c.headerBlock.length (s.bodyLen = 0) true
  let s := { s with out := (out.appendView c.headerBlock).1 }
  if 0 < s.bodyLen then sendData c false s 0 s.bodyLen else ({ s with endSent := true }, [])

/-- `FlushData`, with the `DATA` payloads written. -/
def flushData (c : SendContext) (s : SendState) : SendState × List (Chunk UInt8) :=
  if s.endSent then (s, []) else sendData c true s (c.body.length - s.bodyLen) s.bodyLen

/-! ## One round -/

/-- With a stream window that is not negative, the smaller window bounds what is sent, and both
windows pay for it. -/
theorem takeWindow_eq {connWindow sendWindow : Int} (hc : IsInteger connWindow)
    (hs : IsInteger sendWindow) (h : 0 ≤ sendWindow) (wanted : Nat) :
    takeWindow connWindow sendWindow wanted =
      if min (min connWindow sendWindow).toNat wanted = 0 then none
      else some (min (min connWindow sendWindow).toNat wanted,
        sendWindow - (min (min connWindow sendWindow).toNat wanted : Nat)) := by
  have hconsume : ∀ n : Nat, (n : Int) < 2147483648 → consumeSendWindow sendWindow n =
      if sendWindow < n then (false, sendWindow) else (true, sendWindow - n) := by
    intro n hn
    have hint : toInteger n = n := toInteger_of_isInteger ⟨by omega, hn⟩
    rw [consumeSendWindow, hint]
    split
    · rfl
    · rw [toInteger_of_isInteger ⟨by omega, by obtain ⟨_, _⟩ := hs; omega⟩]
  obtain ⟨_, hconn⟩ := id hc
  obtain ⟨_, hsend⟩ := id hs
  have hcard : toCardinal sendWindow = sendWindow.toNat := by
    rw [toCardinal, Int.emod_eq_of_lt h (by omega)]
  rw [takeWindow, minIntCard_eq hc, hconsume _ (by omega)]
  generalize hn : min connWindow.toNat wanted = n
  by_cases hzero : n = 0
  · rw [if_pos hzero, if_pos (by omega)]
  · rw [if_neg hzero]
    by_cases hlt : sendWindow < n
    · have hmin : min n sendWindow.toNat = min (min connWindow sendWindow).toNat wanted := by omega
      have hpaid : consumeSendWindow sendWindow (min (min connWindow sendWindow).toNat wanted) =
          (true, sendWindow - (min (min connWindow sendWindow).toNat wanted : Nat)) := by
        rw [hconsume _ (by omega), if_neg (by omega)]
      simp only [if_pos hlt, Bool.false_eq_true, if_false, minCard_eq, hcard, hmin, hpaid]
    · simp only [if_neg hlt, if_true]
      have hmin : n = min (min connWindow sendWindow).toNat wanted := by omega
      rw [if_neg (by omega), ← hmin]

/-- Nothing is sent when the stream window is empty or that of the connection is used up. -/
theorem takeWindow_of_quiet {connWindow sendWindow : Int} (hc : IsInteger connWindow)
    (h : connWindow ≤ 0 ∨ sendWindow = 0) (wanted : Nat) :
    takeWindow connWindow sendWindow wanted = none := by
  by_cases hconn : connWindow ≤ 0
  · rw [takeWindow, minIntCard, if_pos hconn]
    rfl
  · have hsend := h.resolve_left hconn
    subst hsend
    rw [takeWindow_eq hc ⟨by decide, by decide⟩ (Int.le_refl _)]
    have hzero : min (min connWindow 0).toNat wanted = 0 := by omega
    rw [if_pos hzero]

/-- The number of frames that so many bytes take. -/
def frameCount (maxFrameSize n : Nat) : Nat := (n + maxFrameSize - 1) / maxFrameSize

/-- The buffer has room for so many bytes in frames, after a number of other bytes. -/
def Room (c : SendContext) (out : Buf) (before n : Nat) : Prop :=
  out.bytes.length + before + n + frameHeaderSize * frameCount c.maxFrameSize n ≤ maxBufCap

theorem frameCount_pos {m n : Nat} (hm : 1 ≤ m) (hn : 0 < n) : 1 ≤ frameCount m n := by
  rw [frameCount, Nat.le_div_iff_mul_le (by omega)]
  omega

theorem frameCount_sub {m n : Nat} (hm : 1 ≤ m) (hn : m ≤ n) :
    frameCount m n = frameCount m (n - m) + 1 := by
  rw [frameCount, frameCount]
  have hsum : n + m - 1 = (n - m + m - 1) + m := by omega
  rw [hsum, Nat.add_div_right _ (by omega)]

/-- What holds in every round: the place in the body, the chunks before and in this call, and the
windows against those at its start. -/
structure LoopInvariant (c : SendContext) (keeps : Bool) (s : SendState) (ofs : Nat)
    (before : List (Chunk UInt8)) (l : SendLoop) : Prop where
  place : l.bodyOfs + l.remaining = c.body.length
  ofs_le : ofs ≤ l.bodyOfs
  delivers : Delivers c.body (before ++ l.written)
  carried : (carried (before ++ l.written)).length = l.bodyOfs
  conn : l.state.connWindow = s.connWindow - (l.bodyOfs - ofs : Nat)
  send : l.state.sendWindow = s.sendWindow - (l.bodyOfs - ofs : Nat)
  nonneg : 0 ≤ l.state.sendWindow
  within : l.bodyOfs - ofs ≤ (min s.connWindow s.sendWindow).toNat
  room : min l.state.connWindow l.state.sendWindow ≤ 0 ∨ Room c l.state.out 0 l.remaining
  endSent : l.state.endSent = s.endSent
  bodyLen : l.state.bodyLen = if keeps then l.remaining else s.bodyLen

section Round

variable {c : SendContext} {keeps : Bool} {s : SendState} {ofs : Nat}
  {before : List (Chunk UInt8)} {l : SendLoop}

theorem LoopInvariant.isInteger_conn (hs : IsInteger s.connWindow)
    (h : LoopInvariant c keeps s ofs before l) : IsInteger l.state.connWindow := by
  have hwithin := h.within
  rw [h.conn]
  rw [IsInteger] at hs ⊢
  omega

theorem LoopInvariant.isInteger_send (hs : IsInteger s.sendWindow)
    (h : LoopInvariant c keeps s ofs before l) : IsInteger l.state.sendWindow := by
  have hnonneg := h.nonneg
  rw [h.send] at hnonneg ⊢
  rw [IsInteger] at hs ⊢
  omega

/-- What one round does. -/
theorem LoopInvariant.round (hm : 1 ≤ c.maxFrameSize) (hc : IsInteger s.connWindow)
    (hs : IsInteger s.sendWindow) (h : LoopInvariant c keeps s ofs before l)
    {l' : SendLoop} (hr : sendRound c keeps l = some l') :
    LoopInvariant c keeps s ofs before l' ∧ l'.remaining < l.remaining := by
  have hnonneg := h.nonneg
  obtain ⟨_, hconnMax⟩ := h.isInteger_conn hc
  rw [sendRound, takeWindow_eq (h.isInteger_conn hc) (h.isInteger_send hs) hnonneg] at hr
  generalize hn : min (min l.state.connWindow l.state.sendWindow).toNat
    (minCard l.remaining c.maxFrameSize) = n at hr
  rw [minCard_eq] at hn
  by_cases hzero : n = 0
  · simp [hzero] at hr
  · rw [if_neg hzero] at hr
    obtain rfl := Option.some.inj hr
    have hplace := h.place
    have hofs := h.ofs_le
    have hconn := h.conn
    have hsend := h.send
    have hwithin := h.within
    have hroom : Room c l.state.out 0 l.remaining := h.room.resolve_left (by omega)
    have hframes := frameCount_pos hm (n := l.remaining) (by omega)
    rw [Room] at hroom
    have hheader : (encodeDataHeader l.state.out c.streamId n
        (decide (l.remaining - n = 0))).bytes.length = l.state.out.bytes.length + frameHeaderSize :=
      encodeHeader_length (by
        rw [frameHeaderSize] at hroom ⊢
        omega)
    have hlength : ((c.body.drop l.bodyOfs).take n).length = n := by
      rw [List.length_take, List.length_drop]
      omega
    obtain ⟨hbytes, hok⟩ := Buf.appendView_of_le (b := encodeDataHeader l.state.out c.streamId n
      (decide (l.remaining - n = 0))) (v := (c.body.drop l.bodyOfs).take n) (by
        rw [hheader, hlength]
        rw [frameHeaderSize] at hroom ⊢
        omega)
    obtain ⟨hdelivers, hcarried⟩ := h.delivers.snoc h.carried
      (c := ⟨decide (l.remaining - n = 0), (c.body.drop l.bodyOfs).take n⟩) rfl
      (by omega) (by simp only [decide_eq_true_eq]; omega)
    have hpaid : toInteger (l.state.connWindow - toInteger n) = l.state.connWindow - n := by
      rw [toInteger_of_isInteger (x := n) ⟨by omega, by omega⟩,
        toInteger_of_isInteger ⟨by omega, by omega⟩]
    refine ⟨⟨?_, ?_, ?_, ?_, ?_, ?_, ?_, ?_, ?_, h.endSent, ?_⟩, ?_⟩
    · simp only
      clear hpaid
      omega
    · simp only
      clear hpaid
      omega
    · simpa only [hok, if_true, ← List.append_assoc] using hdelivers
    · simpa only [hok, if_true, ← List.append_assoc] using hcarried
    · simp only [hpaid]
      clear hpaid
      omega
    · simp only
      clear hpaid
      omega
    · simp only
      clear hpaid
      omega
    · simp only
      clear hpaid
      omega
    · simp only [hpaid, Room, hbytes, List.length_append, hheader, hlength]
      clear hpaid
      by_cases hall : n = l.remaining
      · right
        have hnone : l.remaining - n = 0 := by omega
        have hcount : frameCount c.maxFrameSize 0 = 0 := by
          rw [frameCount, Nat.div_eq_of_lt (by omega)]
        rw [hnone, hcount]
        rw [frameHeaderSize] at hroom ⊢
        omega
      · by_cases hfull : n = c.maxFrameSize
        · right
          subst hfull
          have hcount := frameCount_sub hm (n := l.remaining) (by omega)
          rw [frameHeaderSize] at hroom ⊢
          omega
        · left
          omega
    · cases keeps with
      | true => rfl
      | false => exact h.bodyLen
    · simp only
      clear hpaid
      omega

/-- Why the loop ends. -/
theorem LoopInvariant.loop (hm : 1 ≤ c.maxFrameSize) (hc : IsInteger s.connWindow)
    (hs : IsInteger s.sendWindow) {n : Nat} (hn : l.remaining ≤ n)
    (h : LoopInvariant c keeps s ofs before l) :
    LoopInvariant c keeps s ofs before (sendLoop c keeps n l) ∧
      ((sendLoop c keeps n l).remaining = 0 ∨
        min (sendLoop c keeps n l).state.connWindow
          (sendLoop c keeps n l).state.sendWindow ≤ 0) := by
  induction n generalizing l with
  | zero => exact ⟨h, .inl (Nat.le_zero.mp hn)⟩
  | succ n ih =>
    rw [sendLoop]
    split
    · next hzero => exact ⟨h, .inl hzero⟩
    · next hpos =>
      split
      · next hr =>
        refine ⟨h, .inr ?_⟩
        rw [sendRound, Option.map_eq_none_iff,
          takeWindow_eq (h.isInteger_conn hc) (h.isInteger_send hs) h.nonneg] at hr
        split at hr
        · next hzero =>
          rw [minCard_eq] at hzero
          omega
        · simp at hr
      · next l' hr =>
        obtain ⟨hl', hlt⟩ := h.round hm hc hs hr
        exact ih (by omega) hl'

end Round

end Mx.Http2
