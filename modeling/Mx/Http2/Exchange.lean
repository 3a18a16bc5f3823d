import Mx.Http2.Response

/-!
# One response with its window updates

A response is sent once and then flushed any number of times, while the windows grow. What is
written is the body once, within the credit of both windows, as long as `SendResponse` writes all
of the body or nothing of it before `FlushData` is called, and the stream window is not negative
when bytes are sent.
-/

namespace Mx.Http2

open Mx.Core

/-! ## Runs -/

/-- A response with what was written of it. -/
structure Exchange where
  state : SendState
  /-- `SendResponse` was called. -/
  sent : Bool
  written : List (Chunk UInt8)
  /-- `END_STREAM` on the `HEADERS` frame. -/
  headersEnd : Bool
  /-- The initial windows and all increases. -/
  connCredit : Int
  streamCredit : Int
  /-- The smaller window when `SendResponse` was called. -/
  windowAtSend : Int

/-- What happens to a response. -/
inductive Action where
  | connIncrease (n : Nat)
  | streamIncrease (n : Nat)
  | send
  | flush

/-- The effect of an action. A response is sent once, and flushed after that. -/
def Exchange.step (c : SendContext) (x : Exchange) : Action → Option Exchange
  | .connIncrease n => some { x with
      state := { x.state with connWindow := updateSendWindow x.state.connWindow n }
      connCredit := x.connCredit + n }
  | .streamIncrease n => some { x with
      state := { x.state with sendWindow := updateSendWindow x.state.sendWindow n }
      streamCredit := x.streamCredit + n }
  | .send =>
    if x.sent then none
    else
      let r := sendResponse c x.state
      some { x with
        state := r.1
        sent := true
        written := x.written ++ r.2
        headersEnd := x.state.bodyLen = 0
        windowAtSend := min x.state.connWindow x.state.sendWindow }
  | .flush =>
    if x.sent then
      let r := flushData c x.state
      some { x with state := r.1, written := x.written ++ r.2 }
    else none

/-- A response that is about to be sent. -/
structure Exchange.Starts (c : SendContext) (x : Exchange) : Prop where
  conn : IsInteger x.state.connWindow
  send : IsInteger x.state.sendWindow
  bodyLen : x.state.bodyLen = c.body.length
  endSent : x.state.endSent = false
  sent : x.sent = false
  written : x.written = []
  connCredit : x.connCredit = x.state.connWindow
  streamCredit : x.streamCredit = x.state.sendWindow

/-- The states of a run whose actions meet a condition. -/
inductive ExchangeRun (c : SendContext) (ok : Exchange → Action → Prop) : Exchange → Prop
  | start {x : Exchange} : x.Starts c → ExchangeRun c ok x
  | step {x x' : Exchange} {a : Action} : ExchangeRun c ok x → ok x a → x.step c a = some x' →
    ExchangeRun c ok x'

/-- The body is delivered once, within flow control. -/
structure Exchange.OnceWithinFlow (c : SendContext) (x : Exchange) : Prop where
  delivers : Delivers c.body x.written
  headersEnd : x.sent = true → (x.headersEnd = true ↔ c.body = [])
  connCredit : carried x.written = [] ∨ ((carried x.written).length : Int) ≤ x.connCredit
  streamCredit : carried x.written = [] ∨ ((carried x.written).length : Int) ≤ x.streamCredit
  endSent : x.state.endSent = true ↔ x.sent = true ∧ carried x.written = c.body

/-- Every state of every run, whose actions meet a condition, has delivered the body once. -/
def DeliversOnce (c : SendContext) (ok : Exchange → Action → Prop) : Prop :=
  ∀ x, ExchangeRun c ok x → x.OnceWithinFlow c

/-- A window allows nothing, and is not negative where that would be overlooked. -/
def SendState.Quiet (s : SendState) : Prop := s.connWindow ≤ 0 ∨ s.sendWindow = 0

/-- When bytes are sent, the stream window is not negative and the buffer has room for them; and
when `FlushData` sends them, `SendResponse` could write all of the body or nothing of it. -/
def SendsSafely (c : SendContext) (x : Exchange) (a : Action) : Prop :=
  match a with
  | .send => c.body = [] ∨ x.state.Quiet ∨ 0 < x.state.sendWindow ∧
    Room c x.state.out (frameHeaderSize + c.headerBlock.length) c.body.length
  | .flush => x.state.endSent = true ∨ x.state.Quiet ∨ 0 < x.state.sendWindow ∧
    Room c x.state.out 0 x.state.bodyLen ∧
      (x.windowAtSend ≤ 0 ∨ c.body.length ≤ x.windowAtSend)
  | _ => True

/-! ## One call -/

section Calls

variable {c : SendContext}

/-- A call with nothing to take from the windows changes nothing. -/
theorem sendData_of_quiet {keeps : Bool} {s : SendState} (hc : IsInteger s.connWindow)
    (hquiet : s.Quiet) {ofs remaining : Nat} (hr : 0 < remaining) :
    sendData c keeps s ofs remaining = (s, []) := by
  have hround : sendRound c keeps ⟨s, ofs, remaining, []⟩ = none := by
    rw [sendRound, takeWindow_of_quiet hc hquiet]
    rfl
  have hloop : sendLoop c keeps remaining ⟨s, ofs, remaining, []⟩ = ⟨s, ofs, remaining, []⟩ := by
    cases remaining with
    | zero => rfl
    | succ n =>
      rw [sendLoop, hround]
      rfl
  have hne : remaining ≠ 0 := by omega
  rw [sendData, hloop]
  simp [hne]

/-- What one call of the loop adds to what was written. -/
structure Sent (c : SendContext) (keeps : Bool) (s : SendState) (before : List (Chunk UInt8))
    (r : SendState × List (Chunk UInt8)) : Prop where
  delivers : Delivers c.body (before ++ r.2)
  grows : (carried before).length ≤ (carried (before ++ r.2)).length
  conn : r.1.connWindow =
    s.connWindow - ((carried (before ++ r.2)).length - (carried before).length : Nat)
  send : r.1.sendWindow =
    s.sendWindow - ((carried (before ++ r.2)).length - (carried before).length : Nat)
  within : (carried (before ++ r.2)).length - (carried before).length ≤
    (min s.connWindow s.sendWindow).toNat
  endSent : r.1.endSent = true ↔ carried (before ++ r.2) = c.body
  bodyLen : r.1.bodyLen =
    if keeps then c.body.length - (carried (before ++ r.2)).length else s.bodyLen
  stops : (carried (before ++ r.2)).length < c.body.length →
    min r.1.connWindow r.1.sendWindow ≤ 0

theorem sent_sendData (keeps : Bool) (hm : 1 ≤ c.maxFrameSize) {s : SendState}
    (hc : IsInteger s.connWindow) (hs : IsInteger s.sendWindow) (hnonneg : 0 ≤ s.sendWindow)
    {before : List (Chunk UInt8)} (hd : Delivers c.body before) {remaining : Nat}
    (hplace : (carried before).length + remaining = c.body.length)
    (hroom : Room c s.out 0 remaining) (hend : s.endSent = false)
    (hkeeps : keeps = true → s.bodyLen = remaining) :
    Sent c keeps s before (sendData c keeps s (carried before).length remaining) := by
  have hstart : LoopInvariant c keeps s (carried before).length before
      ⟨s, (carried before).length, remaining, []⟩ := by
    refine ⟨hplace, le_rfl, ?_, ?_, ?_, ?_, hnonneg, ?_, .inr hroom, rfl, ?_⟩
    · simpa using hd
    · simp
    · simp
    · simp
    · simp
    · cases keeps with
      | true => exact hkeeps rfl
      | false => rfl
  obtain ⟨hl, hstop⟩ := hstart.loop hm hc hs (Nat.le_refl remaining)
  rw [sendData]
  generalize sendLoop c keeps remaining ⟨s, (carried before).length, remaining, []⟩ = l at hl hstop
  have hcarried := hl.carried
  have hplace' := hl.place
  refine ⟨hl.delivers, ?_, ?_, ?_, ?_, ?_, ?_, ?_⟩
  · rw [hcarried]
    exact hl.ofs_le
  · rw [hcarried]
    exact hl.conn
  · rw [hcarried]
    exact hl.send
  · rw [hcarried]
    exact hl.within
  · simp only [hl.endSent, hend, Bool.false_or, decide_eq_true_eq]
    rw [hl.delivers.eq_iff_length, hcarried]
    omega
  · simp only [hl.bodyLen, hcarried]
    have hremaining : l.remaining = c.body.length - l.bodyOfs := by omega
    rw [hremaining]
  · intro hlt
    rw [hcarried] at hlt
    exact hstop.resolve_left (by omega)

end Calls

/-! ## Every run -/

/-- What every action keeps: the windows against their credit, and the place in the body that
`FlushData` goes on from. -/
structure Exchange.Invariant (c : SendContext) (x : Exchange) : Prop
    extends x.OnceWithinFlow c where
  conn : IsInteger x.state.connWindow
  send : IsInteger x.state.sendWindow
  connLeft : x.state.connWindow ≤ x.connCredit - (carried x.written).length
  streamLeft : x.state.sendWindow ≤ x.streamCredit - (carried x.written).length
  unsent : x.sent = false → x.written = [] ∧ x.state.bodyLen = c.body.length
  pending : x.sent = true → x.state.endSent = false → 0 < x.state.bodyLen
  place : x.sent = true → x.state.endSent = false →
    (x.windowAtSend ≤ 0 ∨ c.body.length ≤ x.windowAtSend) →
      (carried x.written).length + x.state.bodyLen = c.body.length

section Runs

variable {c : SendContext} {x x' : Exchange}

theorem Exchange.Starts.invariant (h : x.Starts c) : x.Invariant c where
  delivers := h.written ▸ Delivers.nil _
  headersEnd hs := absurd hs (by simp [h.sent])
  connCredit := .inl (by simp [h.written])
  streamCredit := .inl (by simp [h.written])
  endSent := by simp [h.endSent, h.sent]
  conn := h.conn
  send := h.send
  connLeft := by simp [h.connCredit, h.written]
  streamLeft := by simp [h.streamCredit, h.written]
  unsent _ := ⟨h.written, h.bodyLen⟩
  pending hs := absurd hs (by simp [h.sent])
  place hs := absurd hs (by simp [h.sent])

/-- A window grows. -/
theorem Exchange.Invariant.increase (h : x.Invariant c) {conn send connCredit streamCredit : Int}
    (hc : IsInteger conn) (hs : IsInteger send)
    (hconn : conn ≤ connCredit - (carried x.written).length)
    (hsend : send ≤ streamCredit - (carried x.written).length)
    (hconnCredit : x.connCredit ≤ connCredit) (hstreamCredit : x.streamCredit ≤ streamCredit) :
    Exchange.Invariant c { x with
      state := { x.state with connWindow := conn, sendWindow := send }
      connCredit := connCredit
      streamCredit := streamCredit } where
  delivers := h.delivers
  headersEnd := h.headersEnd
  connCredit := h.connCredit.imp_right fun hle => Int.le_trans hle hconnCredit
  streamCredit := h.streamCredit.imp_right fun hle => Int.le_trans hle hstreamCredit
  endSent := h.endSent
  conn := hc
  send := hs
  connLeft := hconn
  streamLeft := hsend
  unsent := h.unsent
  pending := h.pending
  place := h.place

/-- A call of the loop that sends as much as the windows allow. -/
theorem Exchange.Invariant.sent (h : x.Invariant c) {keeps : Bool} {s : SendState}
    {r : SendState × List (Chunk UInt8)} (hr : Sent c keeps s x.written r)
    (hconn : s.connWindow = x.state.connWindow) (hsend : s.sendWindow = x.state.sendWindow)
    {headersEnd : Bool} (window : Int) (hheaders : headersEnd = true ↔ c.body = [])
    (hunsent : keeps = false → x.written = [] ∧ s.bodyLen = c.body.length ∧
      window = min x.state.connWindow x.state.sendWindow) :
    Exchange.Invariant c { x with
      state := r.1
      sent := true
      written := x.written ++ r.2
      headersEnd := headersEnd
      windowAtSend := window } := by
  have hgrows := hr.grows
  have hwithin := hr.within
  have hlength := hr.delivers.length_le
  have hconn' := hr.conn
  have hsend' := hr.send
  have hbodyLen := hr.bodyLen
  have hc := h.conn
  have hs := h.send
  have hconnLeft := h.connLeft
  have hstreamLeft := h.streamLeft
  have hpending : r.1.endSent = false → (carried (x.written ++ r.2)).length < c.body.length := by
    intro hend
    by_contra hge
    have hfull := hr.endSent.mpr (hr.delivers.eq_iff_length.mpr (by omega))
    rw [hend] at hfull
    exact absurd hfull (by simp)
  have hcredit : ∀ {credit : Int}, carried x.written = [] ∨
      ((carried x.written).length : Int) ≤ credit →
      min x.state.connWindow x.state.sendWindow ≤ credit - (carried x.written).length →
      carried (x.written ++ r.2) = [] ∨ ((carried (x.written ++ r.2)).length : Int) ≤ credit := by
    intro credit hold hleft
    by_cases hsame : (carried (x.written ++ r.2)).length = (carried x.written).length
    · refine hold.imp (fun hnil => ?_) (fun hle => hsame ▸ hle)
      rw [hnil] at hsame
      exact List.length_eq_zero_iff.mp hsame
    · right
      rw [hconn, hsend] at hwithin
      omega
  rw [IsInteger] at hc hs
  rw [hconn, hsend] at hwithin
  rw [hconn] at hconn'
  rw [hsend] at hsend'
  have hconnCredit := hcredit h.connCredit (by omega)
  have hstreamCredit := hcredit h.streamCredit (by omega)
  refine { delivers := hr.delivers, headersEnd := fun _ => hheaders, connCredit := hconnCredit,
           streamCredit := hstreamCredit, endSent := ?_, conn := ?_, send := ?_, connLeft := ?_,
           streamLeft := ?_, unsent := fun hfalse => absurd hfalse (by simp), pending := ?_,
           place := ?_ }
  · simpa using hr.endSent
  · simp only [IsInteger]
    omega
  · simp only [IsInteger]
    omega
  · simp only
    omega
  · simp only
    omega
  · intro _ hend
    have hlt := hpending hend
    cases keeps with
    | true =>
      simp only [if_true] at hbodyLen ⊢
      omega
    | false =>
      have hlen := (hunsent rfl).2.1
      simp only [Bool.false_eq_true, if_false] at hbodyLen ⊢
      omega
  · intro _ hend hwindow
    have hlt := hpending hend
    cases keeps with
    | true =>
      simp only [if_true] at hbodyLen ⊢
      omega
    | false =>
      obtain ⟨hnil, hlen, hmin⟩ := hunsent rfl
      have hstops := hr.stops hlt
      have hnone : (carried x.written).length = 0 := by simp [hnil]
      simp only [Bool.false_eq_true, if_false] at hbodyLen hwindow ⊢
      omega

/-- A call that sends nothing. -/
theorem Exchange.Invariant.quiet (h : x.Invariant c) (hend : x.state.endSent = false)
    {headersEnd : Bool} {window : Int} {out : Buf} (hheaders : headersEnd = true ↔ c.body = [])
    (hbody : 0 < x.state.bodyLen) (hne : c.body ≠ [])
    (hplace : window ≤ 0 ∨ c.body.length ≤ window →
      (carried x.written).length + x.state.bodyLen = c.body.length) :
    Exchange.Invariant c { x with
      state := { x.state with out := out }
      sent := true
      headersEnd := headersEnd
      windowAtSend := window } where
  delivers := h.delivers
  headersEnd _ := hheaders
  connCredit := h.connCredit
  streamCredit := h.streamCredit
  endSent := by
    have hsent := h.endSent
    have hpart : carried x.written ≠ c.body := by
      intro hfull
      by_cases hx : x.sent = true
      · have htrue := hsent.mpr ⟨hx, hfull⟩
        rw [hend] at htrue
        exact absurd htrue (by simp)
      · obtain ⟨hnil, _⟩ := h.unsent (by simpa using hx)
        rw [hnil] at hfull
        exact hne hfull.symm
    simp [hend, hpart]
  conn := h.conn
  send := h.send
  connLeft := h.connLeft
  streamLeft := h.streamLeft
  unsent hfalse := absurd hfalse (by simp)
  pending _ _ := hbody
  place _ _ := hplace

theorem Exchange.Invariant.sendResponse (hm : 1 ≤ c.maxFrameSize) (h : x.Invariant c)
    (hsent : x.sent = false) (hok : SendsSafely c x .send) :
    Exchange.Invariant c { x with
      state := (sendResponse c x.state).1
      sent := true
      written := x.written ++ (Http2.sendResponse c x.state).2
      headersEnd := x.state.bodyLen = 0
      windowAtSend := min x.state.connWindow x.state.sendWindow } := by
  obtain ⟨hnil, hlen⟩ := h.unsent hsent
  have hend : x.state.endSent = false := by
    have hiff := h.endSent
    rw [hsent] at hiff
    simpa using hiff
  have hheaders : decide (x.state.bodyLen = 0) = true ↔ c.body = [] := by
    rw [decide_eq_true_eq, hlen, List.length_eq_zero_iff]
  rw [Http2.sendResponse]
  simp only
  generalize hout : ((encodeHeadersHeader x.state.out c.streamId c.headerBlock.length
    (decide (x.state.bodyLen = 0)) true).appendView c.headerBlock).1 = out
  by_cases hbody : c.body = []
  · have hzero : ¬ 0 < x.state.bodyLen := by simp [hlen, hbody]
    rw [if_neg hzero]
    refine { delivers := by simpa using h.delivers, headersEnd := fun _ => hheaders,
             connCredit := by simp [hnil], streamCredit := by simp [hnil],
             endSent := by simp [hnil, hbody], conn := h.conn, send := h.send,
             connLeft := by simpa using h.connLeft, streamLeft := by simpa using h.streamLeft,
             unsent := fun hfalse => absurd hfalse (by simp),
             pending := fun _ hfalse => absurd hfalse (by simp),
             place := fun _ hfalse => absurd hfalse (by simp) }
  · have hpos : 0 < x.state.bodyLen := by
      rw [hlen]
      exact List.length_pos_iff.mpr hbody
    rw [if_pos hpos]
    obtain hquiet | ⟨hwindow, hroom⟩ := hok.resolve_left hbody
    · rw [sendData_of_quiet (s := { x.state with out := out }) h.conn hquiet hpos]
      simp only [List.append_nil]
      refine h.quiet hend hheaders hpos hbody fun _ => ?_
      simp [hnil, hlen]
    · have hroom' : Room c out 0 x.state.bodyLen := by
        rw [Room] at hroom ⊢
        have hheader : (encodeHeadersHeader x.state.out c.streamId c.headerBlock.length
            (decide (x.state.bodyLen = 0)) true).bytes.length =
              x.state.out.bytes.length + frameHeaderSize := encodeHeader_length (by omega)
        have hblock := (Buf.appendView_of_le (b := encodeHeadersHeader x.state.out c.streamId
          c.headerBlock.length (decide (x.state.bodyLen = 0)) true) (v := c.headerBlock) (by
            rw [hheader]
            omega)).1
        rw [← hout, hblock, List.length_append, hheader, hlen]
        omega
      have hr := sent_sendData false hm (s := { x.state with out := out }) h.conn h.send
        (Int.le_of_lt hwindow) h.delivers (by simp [hnil, hlen]) hroom' hend (by simp)
      rw [show (carried x.written).length = 0 by simp [hnil]] at hr
      exact h.sent hr rfl rfl _ hheaders fun _ => ⟨hnil, hlen, rfl⟩

theorem Exchange.Invariant.flushData (hm : 1 ≤ c.maxFrameSize) (h : x.Invariant c)
    (hsent : x.sent = true) (hok : SendsSafely c x .flush) :
    Exchange.Invariant c { x with
      state := (flushData c x.state).1
      written := x.written ++ (Http2.flushData c x.state).2 } := by
  rw [Http2.flushData]
  split
  · simpa using h
  · next hend =>
    have hend : x.state.endSent = false := by simpa using hend
    have hpos := h.pending hsent hend
    obtain hquiet | ⟨hwindow, hroom, hall⟩ := hok.resolve_left (by simp [hend])
    · rw [sendData_of_quiet h.conn hquiet hpos]
      simpa using h
    · have hplace := h.place hsent hend hall
      have hr := sent_sendData true hm h.conn h.send (Int.le_of_lt hwindow)
        h.delivers hplace hroom hend (fun _ => rfl)
      rw [show c.body.length - x.state.bodyLen = (carried x.written).length by omega]
      rw [hsent]
      exact h.sent hr rfl rfl x.windowAtSend (h.headersEnd hsent) (by simp)

/-- Every action that sends safely keeps the invariant. -/
theorem Exchange.Invariant.step (hm : 1 ≤ c.maxFrameSize) (h : x.Invariant c) {a : Action}
    (hok : SendsSafely c x a) (hstep : x.step c a = some x') : x'.Invariant c := by
  cases a with
  | connIncrease n =>
    obtain rfl := Option.some.inj hstep
    have hle := toInteger_add_le h.conn n
    have hleft := h.connLeft
    exact h.increase (isInteger_toInteger _) h.send (by rw [updateSendWindow]; omega)
      h.streamLeft (by omega) (Int.le_refl _)
  | streamIncrease n =>
    obtain rfl := Option.some.inj hstep
    have hle := toInteger_add_le h.send n
    have hleft := h.streamLeft
    exact h.increase h.conn (isInteger_toInteger _) h.connLeft
      (by rw [updateSendWindow]; omega) (Int.le_refl _) (by omega)
  | send =>
    rw [Exchange.step] at hstep
    split at hstep
    · exact absurd hstep (by simp)
    · next hsent =>
      obtain rfl := Option.some.inj hstep
      exact h.sendResponse hm (by simpa using hsent) hok
  | flush =>
    rw [Exchange.step] at hstep
    split at hstep
    · next hsent =>
      obtain rfl := Option.some.inj hstep
      exact h.flushData hm hsent hok
    · exact absurd hstep (by simp)

theorem ExchangeRun.invariant (hm : 1 ≤ c.maxFrameSize) (h : ExchangeRun c (SendsSafely c) x) :
    x.Invariant c := by
  induction h with
  | start hs => exact hs.invariant
  | step _ hok hstep ih => exact ih.step hm hok hstep

end Runs

/-- In every run whose calls send safely, the body is delivered once and within flow control. -/
theorem deliversOnce {c : SendContext} (hm : 1 ≤ c.maxFrameSize) :
    DeliversOnce c (SendsSafely c) :=
  fun _ h => (h.invariant hm).toOnceWithinFlow

/-- A body of four bytes. -/
def fourBytes : SendContext := ⟨1, 16, [1, 2, 3, 4], []⟩

/-- The response before it is sent, with the given windows. -/
def beforeSend (conn send : Int) : Exchange where
  state := ⟨.empty, conn, send, 4, false⟩
  sent := false
  written := []
  headersEnd := false
  connCredit := conn
  streamCredit := send
  windowAtSend := 0

theorem deliversOnce_fourBytes : DeliversOnce fourBytes (SendsSafely fourBytes) :=
  deliversOnce (by decide)

/-- Two bytes are sent, then the window grows and the response is flushed. -/
def cutInTwo : Option Exchange :=
  (((beforeSend 2 100).step fourBytes .send).bind fun x =>
    x.step fourBytes (.connIncrease 10)).bind fun x => x.step fourBytes .flush

/-- `FlushData` starts with the first byte again. -/
theorem not_deliversOnce_fourBytes : ¬ DeliversOnce fourBytes fun _ _ => True := by
  intro h
  have hcarried : cutInTwo.map (fun x => carried x.written) = some [1, 2, 1, 2, 3, 4] := by decide
  obtain ⟨x, hx, hwritten⟩ := Option.map_eq_some_iff.mp hcarried
  obtain ⟨x₂, h₂, h₃⟩ := Option.bind_eq_some_iff.mp hx
  obtain ⟨x₁, h₁, h₂⟩ := Option.bind_eq_some_iff.mp h₂
  have hstart : (beforeSend 2 100).Starts fourBytes :=
    ⟨⟨by decide, by decide⟩, ⟨by decide, by decide⟩, rfl, rfl, rfl, rfl, rfl, rfl⟩
  have hrun : ExchangeRun fourBytes (fun _ _ => True) x :=
    (((ExchangeRun.start hstart).step trivial h₁).step trivial h₂).step trivial h₃
  have hdelivers := (h x hrun).delivers.length_le
  rw [hwritten] at hdelivers
  exact absurd hdelivers (by decide)

end Mx.Http2
