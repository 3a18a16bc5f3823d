import Mx.Http2.Client
import Mx.Http2.Server

/-!
# Settings on both sides

The client keeps the last value received for every parameter. The server starts every `SETTINGS`
frame from the defaults, so it forgets what the frame does not repeat. The two agree exactly when
nothing is forgotten.
-/

namespace Mx.Http2

open Mx.Core List

/-! ## Parameters of a payload -/

/-- The identifiers and values in a payload, at most so many. -/
def parametersLoop : Nat → List UInt8 → List (Nat × Nat)
  | 0, _ => []
  | n + 1, v =>
    (viewGetByte v 0 * 256 + viewGetByte v 1, readU32BE (v.drop 2)) :: parametersLoop n (v.drop 6)

/-- The identifiers and values in a payload. -/
def parameters (payload : List UInt8) : List (Nat × Nat) :=
  parametersLoop (payload.length / 6) payload

/-- The last value given for an identifier. -/
def lastFor (id : Nat) : List (Nat × Nat) → Option Nat
  | [] => none
  | x :: xs => (lastFor id xs).or (if x.1 = id then some x.2 else none)

theorem lastFor_append (id : Nat) (xs ys : List (Nat × Nat)) :
    lastFor id (xs ++ ys) = (lastFor id ys).or (lastFor id xs) := by
  induction xs with
  | nil => exact (Option.or_none).symm
  | cons x xs ih => rw [cons_append, lastFor, lastFor, ih, Option.or_assoc]

theorem settingsLoop_eq (n : Nat) (v : List UInt8) (s : Settings) :
    settingsLoop n v s = (parametersLoop n v).foldl (fun s x => s.set x.1 x.2) s := by
  induction n generalizing v s with
  | zero => rfl
  | succ n ih => rw [settingsLoop, ih, parametersLoop, foldl_cons]

theorem foldl_set_get (xs : List (Nat × Nat)) (s : Settings) (p : Parameter) :
    (xs.foldl (fun s x => s.set x.1 x.2) s).get p = (lastFor p.id xs).getD (s.get p) := by
  induction xs generalizing s with
  | nil => rfl
  | cons x xs ih =>
    rw [foldl_cons, ih, Settings.get_set, lastFor]
    cases lastFor p.id xs with
    | some y => rfl
    | none =>
      rw [Option.none_or]
      by_cases h : x.1 = p.id
      · rw [if_pos h, if_pos h]
        rfl
      · rw [if_neg h, if_neg h]

/-- A payload is accepted when its length is a multiple of six. -/
def Accepted (payload : List UInt8) : Bool := payload.length % 6 = 0

theorem decodeSettings_eq (payload : List UInt8) (s : Settings) :
    decodeSettings payload s = if Accepted payload then
      some ((parameters payload).foldl (fun s x => s.set x.1 x.2) s) else none := by
  rw [decodeSettings, settingsLoop_eq, Accepted, ite_not]
  simp only [decide_eq_true_eq, parameters]

/-! ## Sequences of frames -/

/-- A `SETTINGS` frame that is no acknowledgement. -/
structure SettingsFrame where
  flags : Nat
  streamId : Nat
  payload : List UInt8
  notAck : flags % 2 = 0

/-- The header of a `SETTINGS` frame. -/
def SettingsFrame.header (f : SettingsFrame) : FrameHeader :=
  ⟨f.payload.length, frameSettings, f.flags, f.streamId⟩

/-- The frames processed by a client. -/
def clientFrames (c : H2Conn) (fs : List SettingsFrame) : H2Conn :=
  fs.foldl (fun c f => (clientProcessFrame c f.header f.payload).1) c

variable {α δ : Type}

/-- The frames processed by a server. -/
def serverFrames (app : App α δ) (p : Server α δ) (fs : List SettingsFrame) : Server α δ :=
  fs.foldl (fun p f => (serverProcessFrame app f.header f.payload p).1) p

/-- The accepted payloads of frames. -/
def acceptedPayloads (fs : List SettingsFrame) : List (List UInt8) :=
  (fs.map SettingsFrame.payload).filter Accepted

/-- The last value received for a parameter, or its default. -/
def lastValue (p : Parameter) (payloads : List (List UInt8)) : Nat :=
  (lastFor p.id (payloads.flatMap parameters)).getD p.default

theorem lastValue_concat (p : Parameter) (payloads : List (List UInt8)) (last : List UInt8) :
    lastValue p (payloads ++ [last]) =
      (lastFor p.id (parameters last)).getD (lastValue p payloads) := by
  have hflat : (payloads ++ [last]).flatMap parameters =
      payloads.flatMap parameters ++ parameters last := by
    rw [flatMap_append, flatMap_singleton]
  rw [lastValue, lastValue, hflat, lastFor_append]
  cases lastFor p.id (parameters last) <;> rfl

theorem acceptedPayloads_concat (fs : List SettingsFrame) (f : SettingsFrame) :
    acceptedPayloads (fs ++ [f]) =
      if Accepted f.payload then acceptedPayloads fs ++ [f.payload] else acceptedPayloads fs := by
  rw [acceptedPayloads, map_append, filter_append, map_singleton]
  by_cases h : Accepted f.payload
  · rw [if_pos h, filter_cons_of_pos h]
    rfl
  · rw [if_neg h, filter_cons_of_neg h]
    exact append_nil _

theorem clientProcessFrame_settings (c : H2Conn) (f : SettingsFrame) :
    (clientProcessFrame c f.header f.payload).1.remoteSettings =
      (decodeSettings f.payload c.remoteSettings).getD c.remoteSettings := by
  have hflags : ¬ f.header.flags % 2 = 1 := by
    show ¬ f.flags % 2 = 1
    rw [f.notAck]
    exact Nat.zero_ne_one
  rw [clientProcessFrame, if_pos (show f.header.ftype = frameSettings from rfl),
    processSettingsFrame, if_neg hflags]
  by_cases hlen : f.header.length % 6 ≠ 0
  · have hnone : decodeSettings f.payload c.remoteSettings = none := if_pos hlen
    rw [if_pos hlen, hnone]
    rfl
  · rw [if_neg hlen]
    cases decodeSettings f.payload c.remoteSettings <;> rfl

theorem serverProcessFrame_settings (app : App α δ) (p : Server α δ) (f : SettingsFrame) :
    (serverProcessFrame app f.header f.payload p).1.rest.remoteSettings =
      (decodeSettings f.payload initDefaultSettings).getD p.rest.remoteSettings := by
  have hflags : ¬ f.header.flags = flagAck := by
    intro heq
    have hodd := f.notAck
    rw [show f.flags = flagAck from heq] at hodd
    exact absurd hodd (by decide)
  rw [serverProcessFrame, if_pos (show f.header.ftype = frameSettings from rfl), settingsFrame,
    if_neg hflags]
  cases decodeSettings f.payload initDefaultSettings <;> rfl

/-- The client keeps the last values. -/
theorem clientFrames_get (streams : Fin maxStreams → H2Stream) (fs : List SettingsFrame)
    (p : Parameter) :
    (clientFrames (initConn streams) fs).remoteSettings.get p =
      lastValue p (acceptedPayloads fs) := by
  induction fs using List.reverseRecOn with
  | nil => exact initDefaultSettings_get p
  | append_singleton fs f ih =>
    have hstep : (clientFrames (initConn streams) (fs ++ [f])).remoteSettings =
        (decodeSettings f.payload (clientFrames (initConn streams) fs).remoteSettings).getD
          (clientFrames (initConn streams) fs).remoteSettings := by
      rw [clientFrames, foldl_append, foldl_cons, foldl_nil, clientProcessFrame_settings]
      rfl
    rw [hstep, decodeSettings_eq, acceptedPayloads_concat]
    by_cases haccepted : Accepted f.payload
    · rw [if_pos haccepted, if_pos haccepted, Option.getD_some, foldl_set_get, ih, lastValue_concat]
    · rw [if_neg haccepted, if_neg haccepted]
      exact ih

/-- The server keeps the values of the last payload. -/
theorem serverFrames_get (app : App α δ) (slots : Slots) (dynEnc dynDec : δ) (a : α)
    (fs : List SettingsFrame) (p : Parameter) :
    (serverFrames app (connCreate slots dynEnc dynDec a) fs).rest.remoteSettings.get p =
      match (acceptedPayloads fs).getLast? with
      | none => p.default
      | some last => (lastFor p.id (parameters last)).getD p.default := by
  induction fs using List.reverseRecOn with
  | nil => exact initDefaultSettings_get p
  | append_singleton fs f ih =>
    rw [serverFrames, foldl_append, foldl_cons, foldl_nil,
      serverProcessFrame_settings, decodeSettings_eq, acceptedPayloads_concat]
    by_cases haccepted : Accepted f.payload
    · rw [if_pos haccepted, if_pos haccepted, Option.getD_some, foldl_set_get,
        initDefaultSettings_get, getLast?_concat]
    · rw [if_neg haccepted, if_neg haccepted]
      exact ih

/-! ## Agreement -/

/-- After the frames, both sides keep for every parameter the last value received for it, or its
default. -/
def SettingsAgree (c : H2Conn) (p : Server α δ) (payloads : List (List UInt8)) : Prop :=
  c.remoteSettings = p.rest.remoteSettings ∧
    ∀ q, c.remoteSettings.get q = lastValue q payloads

/-- Client and server agree exactly when the last payload repeats every parameter whose value was
not the default. -/
theorem settingsAgree_iff (streams : Fin maxStreams → H2Stream) (app : App α δ) (slots : Slots)
    (dynEnc dynDec : δ) (a : α) (fs : List SettingsFrame) :
    SettingsAgree (clientFrames (initConn streams) fs)
        (serverFrames app (connCreate slots dynEnc dynDec a) fs) (acceptedPayloads fs) ↔
      ∀ earlier last, acceptedPayloads fs = earlier ++ [last] → ∀ q : Parameter,
        (lastFor q.id (parameters last)).isSome ∨ lastValue q earlier = q.default := by
  have hclient := clientFrames_get streams fs
  have hserver := serverFrames_get app slots dynEnc dynDec a fs
  constructor
  · rintro ⟨hagree, -⟩ earlier last hpayloads q
    have hboth := hserver q
    rw [← hagree, hclient, hpayloads, lastValue_concat, getLast?_concat] at hboth
    cases hlast : lastFor q.id (parameters last) with
    | some x => exact .inl rfl
    | none =>
      simp only [hlast, Option.getD_none] at hboth
      exact .inr hboth
  · intro hall
    refine ⟨Settings.ext_get fun q => ?_, hclient⟩
    rw [hclient, hserver]
    rcases eq_nil_or_concat (acceptedPayloads fs) with hnil | ⟨earlier, last, hconcat⟩
    · rw [hnil]
      rfl
    · rw [concat_eq_append] at hconcat
      rw [hconcat, lastValue_concat, getLast?_concat]
      cases hlast : lastFor q.id (parameters last) with
      | some x => simp only [hlast, Option.getD_some]
      | none =>
        simp only [hlast, Option.getD_none]
        rcases hall earlier last hconcat q with hsome | hdefault
        · rw [hlast] at hsome
          exact absurd hsome Bool.false_ne_true
        · exact hdefault

/-- A frame with a payload and no flags. -/
def plainSettings (payload : List UInt8) : SettingsFrame := ⟨0, 0, payload, rfl⟩

/-- The initial window size of 100, and then an empty frame: the server is back at 65535. -/
theorem not_settingsAgree_forgotten :
    ¬ ∀ (app : App Unit Unit) (streams : Fin maxStreams → H2Stream) (slots : Slots),
      SettingsAgree
        (clientFrames (initConn streams)
          [plainSettings [0, 4, 0, 0, 0, 100], plainSettings []])
        (serverFrames app (connCreate slots () () ())
          [plainSettings [0, 4, 0, 0, 0, 100], plainSettings []])
        [[0, 4, 0, 0, 0, 100], []] := by
  intro h
  obtain ⟨hagree, -⟩ := h ⟨fun _ _ => (.defer, ()), fun _ _ => (), fun _ _ => (none, ()),
    fun _ _ => ([], ())⟩ (fun _ => initStream 0 0)
    (fun _ => ⟨false, 0, 0, initRequest, .idle, false, false⟩)
  have hwindow := congrArg (Settings.get · .initialWindowSize) hagree
  simp only [clientFrames_get, serverFrames_get] at hwindow
  exact absurd hwindow (by decide)

end Mx.Http2
