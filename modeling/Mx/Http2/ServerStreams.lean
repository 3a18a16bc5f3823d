import Mx.Core.Machine
import Mx.Http2.Server

/-!
# Streams of a server are counted

The slots of a server connection are taken and freed on many paths, each of which adjusts the
counter by hand. The count is right, and what was reset or answered is inactive, in every run in
which no stream is reset while a worker has its request, and no active stream gets a window
update of nothing.
-/

namespace Mx.Http2

open Mx.Core Function List

variable {α δ : Type}

/-! ## Runs -/

/-- A server with the streams that were reset by either side. -/
structure ServerRun (α δ : Type) where
  server : Server α δ
  gone : List Nat

/-- A frame. -/
structure ServerFrame where
  hdr : FrameHeader
  payload : List UInt8

/-- The stream that a frame resets. -/
def resetByPeer (f : ServerFrame) : List Nat :=
  if f.hdr.ftype = frameRstStream ∧ (decodeRstStream f.payload).isSome then [f.hdr.streamId] else []

/-- The streams that are reset by what a step sends. -/
def resetByServer (events : List ServerEvent) : List Nat :=
  events.filterMap fun
    | .rstStream streamId _ => some streamId
    | _ => none

/-- One frame. A stream that has not been opened yet cannot be reset. -/
def ServerRun.step (app : App α δ) (x : ServerRun α δ) (f : ServerFrame) : ServerRun α δ :=
  let r := serverProcessFrame app f.hdr f.payload x.server
  { server := r.1
    gone := x.gone ++ (resetByPeer f ++ resetByServer r.2).filter (· ≤ r.1.lastPeerStream) }

/-- A server that has just been created, before or after it has seen the preface. -/
def ServerRun.Starts (x : ServerRun α δ) : Prop :=
  ∃ slots dynEnc dynDec app, x.gone = [] ∧
    (x.server = connCreate slots dynEnc dynDec app ∨
      x.server = acceptPreface (connCreate slots dynEnc dynDec app))

/-- The runs of a server whose frames meet a condition. -/
abbrev ServerRun.Reached (app : App α δ) (ok : ServerRun α δ → ServerFrame → Prop) :
    ServerRun α δ → Prop :=
  GuardedRun (fun x f x' => x' = x.step app f) ok ServerRun.Starts

/-- The active slots are counted and have different ids, and no slot is active whose stream was
reset, refused or fully answered. -/
structure ServerRun.Accounted (x : ServerRun α δ) : Prop where
  counted : x.server.rest.numActive = countSlots fun i => (x.server.rest.slots i).active
  distinct : ∀ i j, (x.server.rest.slots i).active = true → (x.server.rest.slots j).active = true →
    (x.server.rest.slots i).id = (x.server.rest.slots j).id → i = j
  answered : ∀ i, (x.server.rest.slots i).active = true → (x.server.rest.slots i).endSent = false
  reset : ∀ i, (x.server.rest.slots i).active = true → (x.server.rest.slots i).id ∉ x.gone

/-- The peer resets no stream that is deferred, and sends no window update of nothing for an
active stream. -/
def Peaceful (x : ServerRun α δ) (f : ServerFrame) : Prop :=
  (f.hdr.ftype = frameRstStream → (decodeRstStream f.payload).isSome →
    ∀ i, findSlot x.server.rest.slots f.hdr.streamId = some i →
      (x.server.rest.slots i).phase ≠ .deferred) ∧
  (f.hdr.ftype = frameWindowUpdate → decodeWindowUpdate f.payload = some 0 →
    findSlot x.server.rest.slots f.hdr.streamId = none)

/-! ## Changes of one slot -/

/-- The counter and the slots are alike, but for whether one slot has been answered. -/
structure SameBut (i : Fin maxStreamSlots) (p p' : Server α δ) : Prop where
  lastPeerStream : p'.lastPeerStream = p.lastPeerStream
  numActive : p'.rest.numActive = p.rest.numActive
  active : ∀ j, (p'.rest.slots j).active = (p.rest.slots j).active
  id : ∀ j, (p'.rest.slots j).id = (p.rest.slots j).id
  endSent : ∀ j, j ≠ i → (p'.rest.slots j).endSent = (p.rest.slots j).endSent

/-- The counter and the slots are alike. -/
structure Same (p p' : Server α δ) : Prop where
  lastPeerStream : p'.lastPeerStream = p.lastPeerStream
  numActive : p'.rest.numActive = p.rest.numActive
  active : ∀ j, (p'.rest.slots j).active = (p.rest.slots j).active
  id : ∀ j, (p'.rest.slots j).id = (p.rest.slots j).id
  endSent : ∀ j, (p'.rest.slots j).endSent = (p.rest.slots j).endSent

section Change

variable {i : Fin maxStreamSlots} {p p' p'' : Server α δ}

theorem Same.of_eq (hlast : p'.lastPeerStream = p.lastPeerStream)
    (hactive : p'.rest.numActive = p.rest.numActive) (hslots : p'.rest.slots = p.rest.slots) :
    Same p p' := by
  refine ⟨hlast, hactive, fun j => ?_, fun j => ?_, fun j => ?_⟩ <;> rw [hslots]

theorem Same.trans (h : Same p p') (h' : Same p' p'') : Same p p'' where
  lastPeerStream := h'.lastPeerStream.trans h.lastPeerStream
  numActive := h'.numActive.trans h.numActive
  active j := (h'.active j).trans (h.active j)
  id j := (h'.id j).trans (h.id j)
  endSent j := (h'.endSent j).trans (h.endSent j)

theorem Same.but (h : Same p p') (i : Fin maxStreamSlots) : SameBut i p p' :=
  ⟨h.lastPeerStream, h.numActive, h.active, h.id, fun j _ => h.endSent j⟩

theorem SameBut.trans (h : SameBut i p p') (h' : SameBut i p' p'') : SameBut i p p'' where
  lastPeerStream := h'.lastPeerStream.trans h.lastPeerStream
  numActive := h'.numActive.trans h.numActive
  active j := (h'.active j).trans (h.active j)
  id j := (h'.id j).trans (h.id j)
  endSent j hj := (h'.endSent j hj).trans (h.endSent j hj)

theorem SameBut.same (h : SameBut i p p')
    (hend : (p'.rest.slots i).endSent = (p.rest.slots i).endSent) : Same p p' where
  lastPeerStream := h.lastPeerStream
  numActive := h.numActive
  active := h.active
  id := h.id
  endSent j := by
    by_cases hj : j = i
    · rw [hj, hend]
    · exact h.endSent j hj

theorem sameBut_setSlot {s : StreamSlot} (hactive : s.active = (p.rest.slots i).active)
    (hid : s.id = (p.rest.slots i).id) : SameBut i p (setSlot p i s) := by
  refine ⟨rfl, rfl, fun j => ?_, fun j => ?_, fun j hj => ?_⟩
  · simp only [setSlot]
    by_cases hj : j = i
    · rw [hj, update_self, hactive]
    · rw [update_of_ne hj]
  · simp only [setSlot]
    by_cases hj : j = i
    · rw [hj, update_self, hid]
    · rw [update_of_ne hj]
  · simp only [setSlot, update_of_ne hj]

theorem same_sendRstStream (p : Server α δ) (streamId errorCode : Nat) :
    Same p (sendRstStream p streamId errorCode) := by
  simp only [sendRstStream]
  generalize encodeRstStream p.writeBuf streamId errorCode = out
  exact .of_eq rfl rfl rfl

theorem same_restoreWindows (p : Server α δ) (streamId n : Nat) :
    Same p (restoreWindows p streamId n) := by
  simp only [restoreWindows]
  generalize encodeWindowUpdate (encodeWindowUpdate p.writeBuf 0 n) streamId n = out
  generalize toInteger (toInteger (p.rest.connRecvWindow - toInteger n) + toInteger n) = window
  exact .of_eq rfl rfl rfl

theorem same_setSlot {s : StreamSlot} (hactive : s.active = (p.rest.slots i).active)
    (hid : s.id = (p.rest.slots i).id) (hend : s.endSent = (p.rest.slots i).endSent) :
    Same p (setSlot p i s) :=
  (sameBut_setSlot hactive hid).same (by simp only [setSlot, update_self, hend])

theorem sameBut_storeSent (s : SendState) (phase : SlotPhase) :
    SameBut i p (storeSent p i s phase) := by
  obtain ⟨h₁, h₂, h₃, h₄, h₅⟩ := sameBut_setSlot (p := p) (i := i) (s := { p.rest.slots i with
    sendWindow := s.sendWindow, endSent := s.endSent, phase := phase }) rfl rfl
  exact ⟨h₁, h₂, h₃, h₄, h₅⟩

theorem storeSent_endSent (s : SendState) (phase : SlotPhase) :
    ((storeSent p i s phase).rest.slots i).endSent = s.endSent := by
  simp only [storeSent, setSlot, update_self]

theorem sseLoop_endSent (c : SendContext) (n : Nat) (l : SendLoop) :
    (sseLoop c n l).state.endSent = l.state.endSent := by
  induction n generalizing l with
  | zero => rfl
  | succ n ih =>
    rw [sseLoop]
    split
    · rfl
    · split
      · rfl
      · next l' hr =>
        rw [ih]
        rw [sseRound, Option.map_eq_some_iff] at hr
        obtain ⟨r, -, rfl⟩ := hr
        rfl

theorem same_sendSseData (p : Server α δ) (i : Fin maxStreamSlots) (data : List UInt8) :
    Same p (sendSseData p i data).1 := by
  simp only [sendSseData]
  by_cases hheld : (p.rest.slots i).phase ≠ .held
  · rw [if_pos hheld]
    exact .of_eq rfl rfl rfl
  · rw [if_neg hheld]
    exact (sameBut_storeSent _ _).same (by rw [storeSent_endSent, sseLoop_endSent]; rfl)

theorem same_sendSseAll (p : Server α δ) (i : Fin maxStreamSlots) (data : List (List UInt8)) :
    Same p (sendSseAll p i data).1 := by
  induction data generalizing p with
  | nil => exact .of_eq rfl rfl rfl
  | cons d data ih => exact (same_sendSseData p i d).trans (ih _)

theorem same_sendHeadersOnly (app : App α δ) (p : Server α δ) (i : Fin maxStreamSlots)
    (resp : Response) : Same p (sendHeadersOnly app p i resp) := by
  obtain ⟨h₁, h₂, h₃, h₄, h₅⟩ := same_setSlot (p := p) (i := i)
    (s := { p.rest.slots i with phase := .held }) rfl rfl rfl
  exact ⟨h₁, h₂, h₃, h₄, h₅⟩

theorem sameBut_respond (app : App α δ) (p : Server α δ) (i : Fin maxStreamSlots)
    (resp : Response) : SameBut i p (respond app p i resp).1 := by
  simp only [respond]
  have hfirst : Same p { p with rest := { p.rest with
      dynEnc := (app.encodeHeaderBlock p.rest.dynEnc (responseEntries resp)).2 } } :=
    .of_eq rfl rfl rfl
  exact (hfirst.but i).trans (sameBut_storeSent _ _)

end Change

/-! ## The slots of one server -/

/-- The active slots are counted, have different ids that were opened, and are not answered. -/
structure SlotsCounted (p : Server α δ) : Prop where
  counted : p.rest.numActive = countSlots fun i => (p.rest.slots i).active
  distinct : ∀ i j, (p.rest.slots i).active = true → (p.rest.slots j).active = true →
    (p.rest.slots i).id = (p.rest.slots j).id → i = j
  opened : ∀ i, (p.rest.slots i).active = true → (p.rest.slots i).id ≤ p.lastPeerStream
  answered : ∀ i, (p.rest.slots i).active = true → (p.rest.slots i).endSent = false

/-- No active slot has the stream. -/
def Inactive (p : Server α δ) (streamId : Nat) : Prop :=
  ∀ i, (p.rest.slots i).active = true → (p.rest.slots i).id ≠ streamId

theorem Inactive.of_same {p p' : Server α δ} {streamId : Nat} (h : Inactive p streamId)
    (hsame : Same p p') : Inactive p' streamId := by
  intro i hactive
  rw [hsame.id i]
  exact h i ((hsame.active i).symm.trans hactive)

/-- The slots are counted again, and only slots of new streams have become active. -/
structure Onward (p p' : Server α δ) : Prop where
  slots : SlotsCounted p'
  last : p.lastPeerStream ≤ p'.lastPeerStream
  old : ∀ i, (p'.rest.slots i).active = true →
    ((p.rest.slots i).active = true ∧ (p'.rest.slots i).id = (p.rest.slots i).id) ∨
      p.lastPeerStream < (p'.rest.slots i).id

/-- A step that goes onward, and resets only streams that are inactive after it. -/
structure GoodStep (p : Server α δ) (r : ServerStep α δ) : Prop where
  onward : Onward p r.1
  reset : ∀ streamId ∈ resetByServer r.2, Inactive r.1 streamId

section Counted

variable {app : App α δ} {i : Fin maxStreamSlots} {p p' p'' : Server α δ} {r : ServerStep α δ}

theorem Onward.trans (h : Onward p p') (h' : Onward p' p'') : Onward p p'' where
  slots := h'.slots
  last := h.last.trans h'.last
  old i hi := by
    rcases h'.old i hi with ⟨hactive, hid⟩ | hnew
    · rcases h.old i hactive with ⟨hactive', hid'⟩ | hnew
      · exact .inl ⟨hactive', hid.trans hid'⟩
      · exact .inr (by rw [hid]; exact hnew)
    · exact .inr (lt_of_le_of_lt h.last hnew)

theorem GoodStep.of_onward (h : Onward p p') (h' : GoodStep p' r) : GoodStep p r :=
  ⟨h.trans h'.onward, h'.reset⟩

/-- A slot is left unanswered by what changes nothing else. -/
theorem SlotsCounted.onward_but (h : SlotsCounted p) (hsame : SameBut i p p')
    (hend : (p'.rest.slots i).endSent = false) : Onward p p' where
  slots := by
    refine ⟨?_, fun j k => ?_, fun j => ?_, fun j => ?_⟩
    · rw [hsame.numActive, h.counted]
      simp only [hsame.active]
    · rw [hsame.active, hsame.active, hsame.id, hsame.id]
      exact h.distinct j k
    · rw [hsame.active, hsame.id, hsame.lastPeerStream]
      exact h.opened j
    · by_cases hj : j = i
      · rw [hj]
        exact fun _ => hend
      · rw [hsame.active, hsame.endSent j hj]
        exact h.answered j
  last := hsame.lastPeerStream.ge
  old j hj := .inl ⟨(hsame.active j).symm.trans hj, hsame.id j⟩

theorem SlotsCounted.onward (h : SlotsCounted p) (hsame : Same p p') : Onward p p' where
  slots := by
    refine ⟨?_, fun j k => ?_, fun j => ?_, fun j => ?_⟩
    · rw [hsame.numActive, h.counted]
      simp only [hsame.active]
    · rw [hsame.active, hsame.active, hsame.id, hsame.id]
      exact h.distinct j k
    · rw [hsame.active, hsame.id, hsame.lastPeerStream]
      exact h.opened j
    · rw [hsame.active, hsame.endSent]
      exact h.answered j
  last := hsame.lastPeerStream.ge
  old j hj := .inl ⟨(hsame.active j).symm.trans hj, hsame.id j⟩

theorem SlotsCounted.good (h : SlotsCounted p) (hsame : Same p r.1)
    (hevents : resetByServer r.2 = []) : GoodStep p r :=
  ⟨h.onward hsame, fun streamId hmem => by simp [hevents] at hmem⟩

theorem freeSlot_active (p : Server α δ) (i : Fin maxStreamSlots) :
    (fun j => ((freeSlot p i).rest.slots j).active) =
      update (fun j => (p.rest.slots j).active) i false :=
  comp_update p.rest.slots StreamSlot.active i _

theorem freeSlot_of_ne {j : Fin maxStreamSlots} (hj : j ≠ i) :
    (freeSlot p i).rest.slots j = p.rest.slots j := by
  simp only [freeSlot, decActive, setSlot, update_of_ne hj]

theorem freeSlot_self : ((freeSlot p i).rest.slots i).active = false := by
  simp only [freeSlot, decActive, setSlot, update_self, slotFree]

/-- An active slot is freed, after it may have been answered. -/
theorem SlotsCounted.onward_freeSlot (h : SlotsCounted p) (hsame : SameBut i p p')
    (hactive : (p.rest.slots i).active = true) : Onward p (freeSlot p' i) := by
  have hne : ∀ j, ((freeSlot p' i).rest.slots j).active = true → j ≠ i := by
    intro j hj heq
    rw [heq, freeSlot_self] at hj
    cases hj
  have hcount := countSlots_release (p := fun j => (p.rest.slots j).active) hactive
  refine ⟨⟨?_, fun j k hj hk => ?_, fun j hj => ?_, fun j hj => ?_⟩, hsame.lastPeerStream.ge,
    fun j hj => ?_⟩
  · rw [freeSlot_active]
    simp only [hsame.active, freeSlot, decActive, setSlot, hsame.numActive, h.counted]
    rw [if_pos (by omega)]
    omega
  · have hj' := freeSlot_of_ne (p := p') (hne j hj)
    have hk' := freeSlot_of_ne (p := p') (hne k hk)
    rw [hj', hsame.active] at hj
    rw [hk', hsame.active] at hk
    rw [hj', hk', hsame.id, hsame.id]
    exact h.distinct j k hj hk
  · have hj' := freeSlot_of_ne (p := p') (hne j hj)
    rw [hj', hsame.active] at hj
    rw [hj', hsame.id]
    exact (h.opened j hj).trans hsame.lastPeerStream.ge
  · have hji := hne j hj
    have hj' := freeSlot_of_ne (p := p') hji
    rw [hj', hsame.active] at hj
    rw [hj', hsame.endSent j hji]
    exact h.answered j hj
  · have hj' := freeSlot_of_ne (p := p') (hne j hj)
    rw [hj', hsame.active] at hj
    exact .inl ⟨hj, by rw [hj', hsame.id]⟩

/-- The stream of the freed slot is inactive. -/
theorem SlotsCounted.inactive_freeSlot (h : SlotsCounted p) (hsame : SameBut i p p')
    (hactive : (p.rest.slots i).active = true) :
    Inactive (freeSlot p' i) (p.rest.slots i).id := by
  intro j hj hid
  by_cases hji : j = i
  · rw [hji, freeSlot_self] at hj
    cases hj
  · rw [freeSlot_of_ne hji, hsame.active] at hj
    rw [freeSlot_of_ne hji, hsame.id] at hid
    exact hji (h.distinct j i hj hactive hid)

theorem SlotsCounted.good_resetSlot (h : SlotsCounted p) (hsame : SameBut i p p')
    (hactive : (p.rest.slots i).active = true) :
    GoodStep p (resetSlot p' i (p.rest.slots i).id) := by
  have hsame' : SameBut i p (sendRstStream p' (p.rest.slots i).id errProtocol) :=
    hsame.trans ((same_sendRstStream p' _ _).but i)
  refine ⟨h.onward_freeSlot hsame' hactive, fun streamId hmem => ?_⟩
  have heq : streamId = (p.rest.slots i).id := by
    simpa [resetSlot, resetByServer] using hmem
  rw [heq]
  exact h.inactive_freeSlot hsame' hactive

theorem resetByServer_dataEvents (streamId : Nat) (chunks : List (Chunk UInt8)) :
    resetByServer (dataEvents streamId chunks) = [] := by
  simp [resetByServer, dataEvents]

theorem resetByServer_sendSseAll (p : Server α δ) (i : Fin maxStreamSlots)
    (data : List (List UInt8)) : resetByServer (sendSseAll p i data).2 = [] := by
  induction data generalizing p with
  | nil => rfl
  | cons d data ih =>
    have hfirst : resetByServer (sendSseData p i d).2 = [] := by
      simp only [sendSseData]
      by_cases hheld : (p.rest.slots i).phase ≠ .held
      · rw [if_pos hheld]
        rfl
      · rw [if_neg hheld]
        exact resetByServer_dataEvents _ _
    have happend : resetByServer (sendSseAll p i (d :: data)).2 =
        resetByServer (sendSseData p i d).2 ++
          resetByServer (sendSseAll (sendSseData p i d).1 i data).2 := by
      simp only [sendSseAll, resetByServer, filterMap_append]
    rw [happend, hfirst, ih]
    rfl

/-- The request of an active slot is dispatched. -/
theorem SlotsCounted.good_dispatchRequest (h : SlotsCounted p)
    (hactive : (p.rest.slots i).active = true) : GoodStep p (dispatchRequest app p i) := by
  simp only [dispatchRequest]
  generalize hout : app.dispatch p.rest.app (p.rest.slots i).req = out
  have hfirst : Same p { p with rest := { p.rest with app := out.2 } } := .of_eq rfl rfl rfl
  obtain ⟨o, a⟩ := out
  cases o with
  | defer =>
    exact h.good (hfirst.trans (same_setSlot rfl rfl rfl)) rfl
  | hold resp data =>
    refine h.good ?_ (resetByServer_sendSseAll _ _ _)
    exact (hfirst.trans (same_sendHeadersOnly app _ i resp)).trans (same_sendSseAll _ _ _)
  | complete resp =>
    simp only
    generalize hresp : ({ resp with status := if resp.status = 0 then 500 else resp.status } :
      Response) = resp'
    have hsame := (hfirst.but i).trans (sameBut_respond app _ i resp')
    have hevents :
        resetByServer (respond app { p with rest := { p.rest with app := a } } i resp').2 =
        [] := resetByServer_dataEvents _ _
    by_cases hend : ((respond app { p with rest := { p.rest with app := a } } i
        resp').1.rest.slots i).endSent = true
    · rw [if_pos hend]
      refine ⟨h.onward_freeSlot hsame hactive, fun streamId hmem => ?_⟩
      simp only [hevents] at hmem
      cases hmem
    · rw [if_neg hend]
      refine ⟨h.onward_but hsame (by simpa using hend), fun streamId hmem => ?_⟩
      simp only [hevents] at hmem
      cases hmem

end Counted

/-! ## Frames -/

section Frames

variable {app : App α δ} {i : Fin maxStreamSlots} {p p' : Server α δ} {hdr : FrameHeader}
  {payload : List UInt8}

theorem SlotsCounted.good_goaway (h : SlotsCounted p) (errorCode : Nat) :
    GoodStep p (goaway p errorCode) :=
  h.good (.of_eq rfl rfl rfl) rfl

theorem SlotsCounted.good_settingsFrame (h : SlotsCounted p) :
    GoodStep p (settingsFrame p hdr payload) := by
  rw [settingsFrame]
  by_cases hack : hdr.flags = flagAck
  · rw [if_pos hack]
    exact h.good (.of_eq rfl rfl rfl) rfl
  rw [if_neg hack]
  cases decodeSettings payload initDefaultSettings with
  | none => exact h.good_goaway _
  | some s =>
    refine h.good (.of_eq ?_ ?_ ?_) rfl <;> rfl

theorem SlotsCounted.good_pingFrame (h : SlotsCounted p) :
    GoodStep p (pingFrame p hdr payload) := by
  rw [pingFrame]
  by_cases hlen : payload.length ≠ 8
  · rw [if_pos hlen]
    exact h.good_goaway _
  rw [if_neg hlen]
  by_cases hack : hdr.flags = flagAck
  · rw [if_pos hack]
    exact h.good (.of_eq rfl rfl rfl) rfl
  · rw [if_neg hack]
    exact h.good (.of_eq rfl rfl rfl) rfl

theorem SlotsCounted.good_goawayFrame (h : SlotsCounted p) :
    GoodStep p (goawayFrame p payload) := by
  rw [goawayFrame]
  cases decodeGoaway payload with
  | none | some r => exact h.good (.of_eq rfl rfl rfl) rfl

theorem of_findSlot {slots : Slots} {streamId : Nat} (h : findSlot slots streamId = some i) :
    (slots i).active = true ∧ (slots i).id = streamId := by
  have hslot := of_firstSlot_eq_some h
  simp only [Bool.and_eq_true, decide_eq_true_eq] at hslot
  exact hslot

theorem inactive_of_findSlot {streamId : Nat} (h : findSlot p.rest.slots streamId = none) :
    Inactive p streamId := by
  intro i hactive hid
  have hi := firstSlot_eq_none_iff.mp h i
  rw [hactive, hid] at hi
  simp at hi

theorem SlotsCounted.good_windowUpdateFrame (h : SlotsCounted p)
    (hzero : decodeWindowUpdate payload = some 0 → findSlot p.rest.slots hdr.streamId = none) :
    GoodStep p (windowUpdateFrame p hdr payload) := by
  rw [windowUpdateFrame]
  cases hdecode : decodeWindowUpdate payload with
  | none => exact h.good_goaway _
  | some increment =>
    simp only
    by_cases hpos : increment > 0
    · rw [if_pos hpos]
      by_cases hid : hdr.streamId = 0
      · rw [if_pos hid]
        refine h.good (.of_eq ?_ ?_ ?_) rfl <;> rfl
      rw [if_neg hid]
      cases findSlot p.rest.slots hdr.streamId with
      | none => exact h.good (.of_eq rfl rfl rfl) rfl
      | some i => exact h.good (same_setSlot rfl rfl rfl) rfl
    · rw [if_neg hpos]
      by_cases hid : hdr.streamId = 0
      · rw [if_pos hid]
        exact h.good_goaway _
      rw [if_neg hid]
      obtain rfl : increment = 0 := by omega
      refine ⟨h.onward (same_sendRstStream p _ _), fun streamId hmem => ?_⟩
      have heq : streamId = hdr.streamId := by simpa [resetByServer] using hmem
      rw [heq]
      exact (inactive_of_findSlot (hzero hdecode)).of_same (same_sendRstStream p _ _)

/-- After an accepted `RST_STREAM` its stream is inactive. -/
theorem SlotsCounted.good_rstStreamFrame (h : SlotsCounted p)
    (hdeferred : (decodeRstStream payload).isSome → ∀ i,
      findSlot p.rest.slots hdr.streamId = some i → (p.rest.slots i).phase ≠ .deferred) :
    GoodStep p (rstStreamFrame app p hdr payload) ∧
      ((decodeRstStream payload).isSome →
        Inactive (rstStreamFrame app p hdr payload).1 hdr.streamId) := by
  rw [rstStreamFrame]
  cases hdecode : decodeRstStream payload with
  | none => exact ⟨h.good (.of_eq rfl rfl rfl) rfl, fun hsome => by cases hsome⟩
  | some errCode =>
    simp only
    cases hfind : findSlot p.rest.slots hdr.streamId with
    | none => exact ⟨h.good (.of_eq rfl rfl rfl) rfl, fun _ => inactive_of_findSlot hfind⟩
    | some i =>
      obtain ⟨hactive, hid⟩ := of_findSlot hfind
      simp only
      rw [if_neg (hdeferred (by rw [hdecode]; rfl) i hfind)]
      generalize hclosed : (if (p.rest.slots i).phase = .held then
        { p with rest := { p.rest with app := app.heldClosed p.rest.app hdr.streamId } }
        else p) = p'
      have hsame : Same p p' := by
        rw [← hclosed]
        by_cases hheld : (p.rest.slots i).phase = .held
        · rw [if_pos hheld]
          exact .of_eq rfl rfl rfl
        · rw [if_neg hheld]
          exact .of_eq rfl rfl rfl
      refine ⟨⟨h.onward_freeSlot (hsame.but i) hactive, fun streamId hmem => ?_⟩, fun _ => ?_⟩
      · cases hmem
      · rw [← hid]
        exact h.inactive_freeSlot (hsame.but i) hactive

/-- Assembling a request leaves its slot active, with its stream. -/
theorem assembleHeaders_same (s : StreamSlot) (decoded : List HeaderEntry) (endStream : Bool) :
    (assembleHeaders s decoded endStream).1.active = s.active ∧
      (assembleHeaders s decoded endStream).1.id = s.id ∧
      (assembleHeaders s decoded endStream).1.endSent = s.endSent := by
  simp only [assembleHeaders]
  split
  · exact ⟨rfl, rfl, rfl⟩
  · split
    · exact ⟨rfl, rfl, rfl⟩
    · exact ⟨rfl, rfl, rfl⟩

theorem accumulateData_same (s : StreamSlot) (data : List UInt8) (endStream : Bool) :
    (accumulateData s data endStream).1.active = s.active ∧
      (accumulateData s data endStream).1.id = s.id ∧
      (accumulateData s data endStream).1.endSent = s.endSent := by
  simp only [accumulateData]
  by_cases hphase : s.phase ≠ .data
  · rw [if_pos hphase]
    exact ⟨rfl, rfl, rfl⟩
  rw [if_neg hphase]
  by_cases hlen : s.req.body.bytes.length + data.length > maxBodyLen
  · rw [if_pos hlen]
    exact ⟨rfl, rfl, rfl⟩
  rw [if_neg hlen]
  cases endStream with
  | false | true => exact ⟨rfl, rfl, rfl⟩

/-- A slot takes what a frame brings, and its request is rejected, dispatched or left waiting. -/
theorem SlotsCounted.good_received {s : StreamSlot} {ok endStream : Bool} (h : SlotsCounted p)
    (hsame : Same p p') (hactive : (p.rest.slots i).active = true)
    (hs : s.active = (p'.rest.slots i).active ∧ s.id = (p'.rest.slots i).id ∧
      s.endSent = (p'.rest.slots i).endSent) (hid : (p.rest.slots i).id = hdr.streamId) :
    GoodStep p (if !ok then resetSlot (setSlot p' i s) i hdr.streamId
      else if endStream then dispatchRequest app (setSlot p' i s) i else (setSlot p' i s, [])) := by
  have hset : Same p (setSlot p' i s) := hsame.trans (same_setSlot hs.1 hs.2.1 hs.2.2)
  cases ok with
  | false =>
    rw [← hid]
    exact h.good_resetSlot (hset.but i) hactive
  | true =>
    cases endStream with
    | false => exact h.good hset rfl
    | true =>
      have honward := h.onward hset
      exact .of_onward honward (honward.slots.good_dispatchRequest ((hset.active i).trans hactive))

theorem SlotsCounted.good_requestHeaders (h : SlotsCounted p)
    (hactive : (p.rest.slots i).active = true) (hid : (p.rest.slots i).id = hdr.streamId) :
    GoodStep p (requestHeaders app p i hdr payload) := by
  simp only [requestHeaders]
  generalize hdecode : app.decodeHeaderBlock p.rest.dynDec payload = decoded
  have hfirst : Same p { p with rest := { p.rest with dynDec := decoded.2 } } := .of_eq rfl rfl rfl
  obtain ⟨o, dyn⟩ := decoded
  cases o with
  | none =>
    have hgood := h.good_resetSlot (hfirst.but i) hactive
    rw [hid] at hgood
    exact hgood
  | some entries => exact h.good_received hfirst hactive (assembleHeaders_same _ _ _) hid

theorem SlotsCounted.good_dataFrame (h : SlotsCounted p) :
    GoodStep p (dataFrame app p hdr payload) := by
  rw [dataFrame]
  by_cases hzero : hdr.streamId = 0
  · rw [if_pos hzero]
    exact h.good_goaway _
  rw [if_neg hzero]
  cases hfind : findSlot p.rest.slots hdr.streamId with
  | none => exact h.good_goaway _
  | some i =>
    obtain ⟨hactive, hid⟩ := of_findSlot hfind
    simp only
    by_cases hwindow : payload.length > 0 ∧ toInteger payload.length > p.rest.connRecvWindow
    · rw [if_pos hwindow]
      exact h.good_goaway _
    rw [if_neg hwindow]
    have hsame : Same p (if payload.length > 0 then
        restoreWindows p hdr.streamId payload.length else p) := by
      by_cases hlen : payload.length > 0
      · rw [if_pos hlen]
        exact same_restoreWindows p _ _
      · rw [if_neg hlen]
        exact .of_eq rfl rfl rfl
    revert hsame
    generalize (if payload.length > 0 then restoreWindows p hdr.streamId payload.length else p) = p'
    intro hsame
    exact h.good_received hsame hactive (accumulateData_same _ _ _) hid

/-- A new stream takes a free slot. -/
theorem SlotsCounted.onward_allocSlot {slots : Slots} {windowSize : Nat} (h : SlotsCounted p)
    (hnew : p.lastPeerStream < hdr.streamId)
    (halloc : allocSlot p.rest.slots hdr.streamId windowSize = some (i, slots)) :
    Onward p { p with
        lastPeerStream := hdr.streamId
        rest := { p.rest with slots := slots, numActive := p.rest.numActive + 1 } } ∧
      (slots i).active = true ∧ (slots i).id = hdr.streamId := by
  rw [allocSlot, Option.map_eq_some_iff] at halloc
  obtain ⟨i', hfirst, heq⟩ := halloc
  obtain ⟨rfl, rfl⟩ := Prod.mk.inj heq
  have hfree : (p.rest.slots i').active = false := by
    have hslot := of_firstSlot_eq_some hfirst
    simpa using hslot
  generalize hs : ({ slotInit (p.rest.slots i') with
    active := true, id := hdr.streamId, sendWindow := toInteger windowSize } : StreamSlot) = s
  have hactive : s.active = true := by rw [← hs]
  have hid : s.id = hdr.streamId := by rw [← hs]
  have hend : s.endSent = false := by rw [← hs]; rfl
  refine ⟨⟨⟨?_, fun j k hj hk hjk => ?_, fun j hj => ?_, fun j hj => ?_⟩, hnew.le, fun j hj => ?_⟩,
    ?_, ?_⟩
  · have hcount := countSlots_take (p := fun j => (p.rest.slots j).active) hfree
    simp only [comp_update p.rest.slots StreamSlot.active, hactive, hcount, h.counted]
  · by_cases hji : j = i'
    · by_cases hki : k = i'
      · rw [hji, hki]
      · simp only [hji, update_self, update_of_ne hki, hid] at hk hjk
        have hle := h.opened k hk
        omega
    · by_cases hki : k = i'
      · simp only [hki, update_self, update_of_ne hji, hid] at hj hjk
        have hle := h.opened j hj
        omega
      · simp only [update_of_ne hji, update_of_ne hki] at hj hk hjk
        exact h.distinct j k hj hk hjk
  · by_cases hji : j = i'
    · simp only [hji, update_self, hid]
      exact le_refl _
    · simp only [update_of_ne hji] at hj ⊢
      exact (h.opened j hj).trans hnew.le
  · by_cases hji : j = i'
    · simp only [hji, update_self, hend]
    · simp only [update_of_ne hji] at hj ⊢
      exact h.answered j hj
  · by_cases hji : j = i'
    · right
      simp only [hji, update_self, hid, hnew]
    · left
      simp only [update_of_ne hji] at hj ⊢
      exact ⟨hj, trivial⟩
  · rw [update_self, hactive]
  · rw [update_self, hid]

theorem SlotsCounted.onward_lastPeerStream (h : SlotsCounted p)
    (hnew : p.lastPeerStream < hdr.streamId) :
    Onward p { p with lastPeerStream := hdr.streamId } where
  slots := ⟨h.counted, h.distinct, fun i hi => (h.opened i hi).trans hnew.le, h.answered⟩
  last := hnew.le
  old _ hi := .inl ⟨hi, rfl⟩

/-- A refused stream is not opened. -/
theorem SlotsCounted.good_refused (h : SlotsCounted p) (hnew : p.lastPeerStream < hdr.streamId) :
    GoodStep p (sendRstStream { p with lastPeerStream := hdr.streamId } hdr.streamId refusedStream,
      [.rstStream hdr.streamId refusedStream]) := by
  have honward := h.onward_lastPeerStream hnew
  have hsame := same_sendRstStream { p with lastPeerStream := hdr.streamId } hdr.streamId
    refusedStream
  refine ⟨honward.trans (honward.slots.onward hsame), fun streamId hmem i hi => ?_⟩
  have heq : streamId = hdr.streamId := by simpa [resetByServer] using hmem
  rw [heq]
  rw [hsame.active] at hi
  rw [hsame.id]
  have hle := h.opened i hi
  exact fun hid => by
    have hid' : (p.rest.slots i).id = hdr.streamId := hid
    omega

theorem SlotsCounted.good_headersFrame (h : SlotsCounted p) :
    GoodStep p (headersFrame app p hdr payload) := by
  rw [headersFrame]
  cases haccept : acceptsStream p hdr.streamId with
  | false => exact h.good_goaway _
  | true =>
    simp only [acceptsStream, Bool.and_eq_true, decide_eq_true_eq] at haccept
    have hnew := haccept.2
    simp only [Bool.not_true, Bool.false_eq_true, if_false]
    by_cases hfull : p.rest.numActive ≥ p.localSettings.maxConcurrentStreams
    · rw [if_pos hfull]
      exact h.good_refused hnew
    rw [if_neg hfull]
    cases halloc : allocSlot p.rest.slots hdr.streamId p.rest.remoteSettings.initialWindowSize with
    | none => exact h.good_refused hnew
    | some r =>
      obtain ⟨i, slots⟩ := r
      obtain ⟨honward, hactive, hid⟩ := h.onward_allocSlot hnew halloc
      simp only
      by_cases hend : (!hasFlag hdr flagEndHeaders) = true
      · rw [if_pos hend]
        exact .of_onward honward (honward.slots.good_goaway _)
      · rw [if_neg hend]
        exact .of_onward honward (honward.slots.good_requestHeaders hactive hid)

/-- Every frame goes onward, but for those the peer should not send. -/
theorem SlotsCounted.good_serverProcessFrame (h : SlotsCounted p)
    (hdeferred : hdr.ftype = frameRstStream → (decodeRstStream payload).isSome → ∀ i,
      findSlot p.rest.slots hdr.streamId = some i → (p.rest.slots i).phase ≠ .deferred)
    (hzero : hdr.ftype = frameWindowUpdate → decodeWindowUpdate payload = some 0 →
      findSlot p.rest.slots hdr.streamId = none) :
    GoodStep p (serverProcessFrame app hdr payload p) ∧
      (hdr.ftype = frameRstStream → (decodeRstStream payload).isSome →
        Inactive (serverProcessFrame app hdr payload p).1 hdr.streamId) := by
  rw [serverProcessFrame]
  by_cases hrst : hdr.ftype = frameRstStream
  · have hgood : GoodStep p (rstStreamFrame app p hdr payload) ∧ _ :=
      h.good_rstStreamFrame (hdeferred hrst)
    rw [if_neg (by rw [hrst]; decide), if_neg (by rw [hrst]; decide),
      if_neg (by rw [hrst]; decide), if_neg (by rw [hrst]; decide), if_pos hrst]
    exact ⟨hgood.1, fun _ => hgood.2⟩
  refine ⟨?_, fun heq => absurd heq hrst⟩
  split
  · exact h.good_settingsFrame
  split
  · exact h.good_pingFrame
  split
  · exact h.good_goawayFrame
  split
  · next htype => exact h.good_windowUpdateFrame (hzero htype)
  split
  · exact h.good_headersFrame
  split
  · exact h.good_dataFrame
  split
  · exact h.good_goaway _
  · exact h.good (.of_eq rfl rfl rfl) rfl

end Frames

/-! ## Runs -/

/-- The slots are counted, and the streams that were reset are inactive. -/
structure ServerRun.Invariant (x : ServerRun α δ) : Prop where
  slots : SlotsCounted x.server
  opened : ∀ streamId ∈ x.gone, streamId ≤ x.server.lastPeerStream
  inactive : ∀ streamId ∈ x.gone, Inactive x.server streamId

section Run

variable {app : App α δ} {x : ServerRun α δ}

theorem slotsCounted_connCreate (slots : Slots) (dynEnc dynDec : δ) (a : α) :
    SlotsCounted (connCreate slots dynEnc dynDec a) where
  counted := (countSlots_eq_zero_iff.mpr fun _ => rfl).symm
  distinct _ _ hi := by cases hi
  opened _ hi := by cases hi
  answered _ hi := by cases hi

theorem ServerRun.Starts.invariant (h : x.Starts) : x.Invariant := by
  obtain ⟨slots, dynEnc, dynDec, a, hgone, hserver⟩ := h
  refine ⟨?_, fun streamId hmem => ?_, fun streamId hmem => ?_⟩
  · rcases hserver with heq | heq
    · rw [heq]
      exact slotsCounted_connCreate ..
    · rw [heq]
      refine ((slotsCounted_connCreate slots dynEnc dynDec a).onward (.of_eq ?_ ?_ ?_)).slots <;>
        rw [acceptPreface]
  · simp [hgone] at hmem
  · simp [hgone] at hmem

theorem ServerRun.Invariant.step (h : x.Invariant) (f : ServerFrame) (hok : Peaceful x f) :
    (x.step app f).Invariant := by
  obtain ⟨hgood, hpeer⟩ : GoodStep x.server (serverProcessFrame app f.hdr f.payload x.server) ∧ _ :=
    h.slots.good_serverProcessFrame hok.1 hok.2
  simp only [ServerRun.step]
  refine ⟨hgood.onward.slots, fun streamId hmem => ?_, fun streamId hmem => ?_⟩
  · rcases mem_append.mp hmem with hold | hnew
    · exact (h.opened _ hold).trans hgood.onward.last
    · exact of_decide_eq_true (mem_filter.mp hnew).2
  · rcases mem_append.mp hmem with hold | hnew
    · intro i hi
      rcases hgood.onward.old i hi with ⟨hactive, hid⟩ | hlater
      · rw [hid]
        exact h.inactive _ hold i hactive
      · exact (lt_of_le_of_lt (h.opened _ hold) hlater).ne'
    · rcases mem_append.mp (mem_filter.mp hnew).1 with hreset | hsent
      · rw [resetByPeer] at hreset
        by_cases hrst : f.hdr.ftype = frameRstStream ∧ (decodeRstStream f.payload).isSome
        · rw [if_pos hrst, mem_singleton] at hreset
          rw [hreset]
          exact hpeer hrst.1 hrst.2
        · rw [if_neg hrst] at hreset
          cases hreset
      · exact hgood.reset _ hsent

theorem ServerRun.Invariant.accounted (h : x.Invariant) : x.Accounted :=
  ⟨h.slots.counted, h.slots.distinct, h.slots.answered,
    fun i hi hmem => h.inactive _ hmem i hi rfl⟩

end Run

/-- In every run of peaceful frames the streams are accounted for. -/
theorem accounted_of_peaceful {app : App α δ} {x : ServerRun α δ}
    (h : ServerRun.Reached app Peaceful x) : x.Accounted := by
  refine (h.invariant (fun _ hstart => hstart.invariant) ?_).accounted
  rintro x f _ hx hok rfl
  exact hx.step f hok

/-- A server whose handlers leave every request to a worker, and whose header blocks are all those
of `GET /`. -/
def deferring : App Unit Unit where
  dispatch _ _ := (.defer, ())
  heldClosed _ _ := ()
  decodeHeaderBlock _ _ := (some [⟨chars ":method", chars "GET"⟩, ⟨chars ":path", chars "/"⟩], ())
  encodeHeaderBlock _ _ := ([], ())

/-- A server that has seen the preface. -/
def newServer : ServerRun Unit Unit where
  server := acceptPreface
    (connCreate (fun _ => ⟨false, 0, 0, initRequest, .idle, false, false⟩) () () ())
  gone := []

/-- The settings of the client, and its first request. -/
def requestDeferred : ServerRun Unit Unit :=
  (newServer.step deferring ⟨⟨0, frameSettings, 0, 0⟩, []⟩).step deferring
    ⟨⟨0, frameHeaders, 5, 1⟩, []⟩

theorem newServer_starts : newServer.Starts := ⟨_, _, _, _, rfl, .inr rfl⟩

/-- A request that a worker has. -/
theorem accounted_requestDeferred : requestDeferred.Accounted := by
  have hreached : ServerRun.Reached deferring Peaceful requestDeferred := by
    refine .step (.step (.start newServer_starts) ⟨?_, ?_⟩ rfl) ⟨?_, ?_⟩ rfl
    all_goals
      intro htype
      exact absurd htype (by decide)
  exact accounted_of_peaceful hreached

/-- A request that is reset while a worker has it is no longer counted, but keeps its slot. -/
theorem not_accounted_resetDeferred :
    ¬ ∀ (app : App Unit Unit) x, ServerRun.Reached app (fun _ _ => True) x → x.Accounted := by
  intro h
  have hdeferred : ServerRun.Reached deferring (fun _ _ => True) requestDeferred :=
    .step (.step (.start newServer_starts) trivial rfl) trivial rfl
  have hcounted := (h deferring _ (.step (a := ⟨⟨4, frameRstStream, 0, 1⟩, [0, 0, 0, 8]⟩)
    hdeferred trivial rfl)).counted
  have hzero := countSlots_eq_zero_iff.mp hcounted.symm ⟨0, by decide⟩
  exact absurd hzero (by decide)

end Mx.Http2
