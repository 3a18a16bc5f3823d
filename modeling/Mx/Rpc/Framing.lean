import Mx.Rpc.Frame

/-!
# Frames arrive as they were written

What a reader holds between calls is the front of a frame. Every byte that arrives is in a payload
delivered, held, or still to come; so the payloads delivered are the first ones written, whatever
the pieces they were written and read in.
-/

namespace Mx.Rpc

open Mx.Core List
open Http2 (Buf maxBufCap)

/-! ## Frames as bytes -/

/-- The bytes of a frame. -/
def frameBytes (payload : List UInt8) : List UInt8 := encodeBE32 payload.length ++ payload

/-- The bytes of frames one after another. -/
def framesBytes (payloads : List (List UInt8)) : List UInt8 := payloads.flatMap frameBytes

/-- No payload of at most so many bytes starts here. -/
def NoFrame (maxFrame : Nat) (bytes : List UInt8) : Prop :=
  ∀ payload rest, payload.length ≤ maxFrame → bytes ≠ frameBytes payload ++ rest

@[simp] theorem length_encodeBE32 (n : Nat) : (encodeBE32 n).length = 4 := rfl

theorem decodeBE32_encodeBE32 {n : Nat} (h : n < 4294967296) (rest : List UInt8) :
    decodeBE32 (encodeBE32 n ++ rest) = n := by
  simp only [decodeBE32, encodeBE32, cons_append, getD_cons_zero, getD_cons_succ,
    UInt8.toNat_ofNat']
  omega

/-- The four bytes of a length are those of the number they denote. -/
theorem encodeBE32_decodeBE32 {a : List UInt8} (h : a.length = 4) :
    encodeBE32 (decodeBE32 a) = a := by
  match a, h with
  | [b₃, b₂, b₁, b₀], _ =>
    have h₃ := b₃.toNat_lt
    have h₂ := b₂.toNat_lt
    have h₁ := b₁.toNat_lt
    have h₀ := b₀.toNat_lt
    simp only [encodeBE32, decodeBE32, getD_cons_zero, getD_cons_succ]
    refine congrArg₂ _ ?_ (congrArg₂ _ ?_ (congrArg₂ _ ?_ (congrArg₂ _ ?_ rfl)))
    all_goals
      refine UInt8.toNat_inj.mp ?_
      rw [UInt8.toNat_ofNat']
      omega

theorem encodeBE32_append_inj {m n : Nat} (hm : m < 4294967296) (hn : n < 4294967296)
    {xs ys : List UInt8} (h : encodeBE32 m ++ xs = encodeBE32 n ++ ys) : m = n ∧ xs = ys := by
  have hlen : m = n := by
    rw [← decodeBE32_encodeBE32 hm xs, h, decodeBE32_encodeBE32 hn]
  subst hlen
  exact ⟨rfl, append_cancel_left h⟩

/-- A frame says where it ends. -/
theorem frameBytes_append_inj {p q : List UInt8} (hp : p.length < 4294967296)
    (hq : q.length < 4294967296) {xs ys : List UInt8}
    (h : frameBytes p ++ xs = frameBytes q ++ ys) : p = q ∧ xs = ys := by
  rw [frameBytes, frameBytes, append_assoc, append_assoc] at h
  obtain ⟨hlen, hrest⟩ := encodeBE32_append_inj hp hq h
  exact append_inj hrest hlen

theorem noFrame_nil (maxFrame : Nat) : NoFrame maxFrame [] := by
  intro payload rest _ h
  have hlen := congrArg List.length h
  rw [frameBytes, length_append, length_append, length_encodeBE32] at hlen
  exact absurd hlen (by rw [length_nil]; omega)

/-- Frames read from the front of other frames are the first of them. -/
theorem framesBytes_front {maxFrame : Nat} (hmax : maxFrame < 4294967296)
    {ps qs : List (List UInt8)} (hps : ∀ p ∈ ps, p.length ≤ maxFrame)
    (hqs : ∀ q ∈ qs, q.length ≤ maxFrame) {xs tail : List UInt8} (htail : NoFrame maxFrame tail)
    (h : framesBytes ps ++ xs = framesBytes qs ++ tail) :
    ∃ rest, qs = ps ++ rest ∧ xs = framesBytes rest ++ tail := by
  induction ps generalizing qs with
  | nil => exact ⟨qs, rfl, h⟩
  | cons p ps ih =>
    have hp := hps p mem_cons_self
    rw [framesBytes, flatMap_cons, append_assoc] at h
    cases qs with
    | nil => exact absurd h.symm (htail p _ hp)
    | cons q qs =>
      have hq := hqs q mem_cons_self
      rw [framesBytes, flatMap_cons, append_assoc] at h
      obtain ⟨rfl, hrest⟩ := frameBytes_append_inj (by omega) (by omega) h
      obtain ⟨rest, hqs', hxs⟩ := ih (fun p' hp' => hps p' (mem_cons_of_mem _ hp'))
        (fun q' hq' => hqs q' (mem_cons_of_mem _ hq')) hrest
      exact ⟨rest, by rw [hqs', cons_append], hxs⟩

/-! ## Between calls -/

/-- The bytes that a reader holds of a frame. -/
def FrameReader.held (fr : FrameReader) : List UInt8 :=
  if fr.state = stReadPayload then fr.lenBuf ++ fr.payloadBuf.bytes else fr.lenBuf

/-- A reader that waits for more of a frame. -/
structure FrameReader.Waiting (fr : FrameReader) : Prop where
  limit : fr.maxFrame ≤ maxFrameLimit
  phase : fr.state = stReadLen ∧ fr.lenBuf.length < 4 ∨
    fr.state = stReadPayload ∧ fr.lenBuf.length = 4 ∧ fr.payloadLen = decodeBE32 fr.lenBuf ∧
      fr.payloadLen ≤ fr.maxFrame ∧ fr.payloadPos = fr.payloadBuf.bytes.length ∧
      fr.payloadPos < fr.payloadLen

/-- A reader that has read a length above its maximum. -/
structure FrameReader.Oversized (fr : FrameReader) : Prop where
  state : fr.state = stReadLen
  length : fr.lenBuf.length = 4
  above : fr.maxFrame < decodeBE32 fr.lenBuf

theorem initFrameReader_maxFrame (maxFrame : Nat) :
    (initFrameReader maxFrame).maxFrame = min maxFrame maxFrameLimit := by
  show (if maxFrame > maxFrameLimit then maxFrameLimit else maxFrame) = _
  split <;> omega

theorem initFrameReader_waiting (maxFrame : Nat) :
    (initFrameReader maxFrame).Waiting ∧ (initFrameReader maxFrame).held = [] := by
  refine ⟨⟨?_, .inl ⟨rfl, Nat.zero_lt_succ 3⟩⟩, rfl⟩
  rw [initFrameReader_maxFrame]
  exact Nat.min_le_right _ _

/-- What a reader that waits holds is no whole frame, and not the length of one that is too
large. -/
theorem FrameReader.Waiting.noFrame {fr : FrameReader} (h : fr.Waiting) :
    NoFrame fr.maxFrame fr.held := by
  intro payload rest hle heq
  have hlimit := h.limit
  have hconst : maxFrameLimit = 65531 := rfl
  obtain ⟨hstate, hlen⟩ | ⟨hstate, hlen, hpayload, hmax, hpos, hlt⟩ := h.phase
  · have hlength := congrArg List.length heq
    rw [held, if_neg (by rw [hstate]; decide)] at hlength
    simp only [frameBytes, length_append, length_encodeBE32] at hlength
    omega
  · rw [held, if_pos hstate, frameBytes, append_assoc] at heq
    obtain ⟨hhead, htail⟩ := append_inj heq (by rw [hlen, length_encodeBE32])
    have hdecode : decodeBE32 fr.lenBuf = payload.length := by
      have h32 := decodeBE32_encodeBE32 (by omega : payload.length < 4294967296) []
      rwa [append_nil, ← hhead] at h32
    have hlength := congrArg List.length htail
    rw [length_append] at hlength
    omega

theorem FrameReader.Waiting.not_oversized {fr : FrameReader} (h : fr.Waiting) {n : Nat}
    (hn : fr.maxFrame < n) (hn' : n < 4294967296) (rest : List UInt8) :
    fr.held ≠ encodeBE32 n ++ rest := by
  intro heq
  obtain ⟨hstate, hlen⟩ | ⟨hstate, hlen, hpayload, hmax, -, -⟩ := h.phase
  · have hlength := congrArg List.length heq
    rw [held, if_neg (by rw [hstate]; decide)] at hlength
    simp only [length_append, length_encodeBE32] at hlength
    omega
  · rw [held, if_pos hstate] at heq
    obtain ⟨hhead, -⟩ := append_inj heq (by rw [hlen, length_encodeBE32])
    have hdecode : decodeBE32 fr.lenBuf = n := by
      have h32 := decodeBE32_encodeBE32 hn' []
      rwa [append_nil, ← hhead] at h32
    omega

theorem FrameReader.Waiting.not_oversizedReader {fr : FrameReader} (h : fr.Waiting) :
    ¬ fr.Oversized := by
  intro hover
  obtain ⟨hstate, hlen⟩ | ⟨hstate, -⟩ := h.phase
  · exact absurd hover.length (Nat.ne_of_lt hlen)
  · exact absurd (hover.state.symm.trans hstate) (by decide)

/-! ## One call -/

/-- What one call of `TryReadFrame` makes of a reader that waits. -/
structure Called (read : ReadFn τ UInt8) (pending : τ → List UInt8) (fr : FrameReader) (t : τ)
    (r : ReadResult τ) : Prop where
  maxFrame : r.reader.maxFrame = fr.maxFrame
  result :
    r.status = .needMore ∧ r.reader.Waiting ∧ Blocked read pending r.transport ∧
      fr.held ++ pending t = r.reader.held ++ pending r.transport ∨
    r.status = .ok ∧ r.reader.Waiting ∧ r.reader.held = [] ∧ r.out.length ≤ fr.maxFrame ∧
      fr.held ++ pending t = frameBytes r.out ++ pending r.transport ∨
    r.status = .tooLarge ∧ r.reader.Oversized ∧
      fr.held ++ pending t = r.reader.lenBuf ++ pending r.transport

section Call

variable {read : ReadFn τ UInt8} {pending : τ → List UInt8} {fr : FrameReader}

/-- The call goes on with the payload. -/
theorem readPayload_called (hread : Streams read pending) (h : fr.Waiting)
    (hstate : fr.state = stReadPayload) (t : τ) :
    Called read pending fr t (readPayload read fr t) := by
  have hlimit := h.limit
  have hcap : maxFrameLimit ≤ maxBufCap := by decide
  have hchunk : 0 < chunkSize := by decide
  obtain ⟨hlen, -⟩ | ⟨-, hlen, hpayload, hmax, hpos, hlt⟩ := h.phase
  · exact absurd (hlen.symm.trans hstate) (by decide)
  have hfill := hread.fill_nil hchunk (fr.payloadLen - fr.payloadPos) t
  rw [readPayload]
  rcases hr : fill read chunkSize (fr.payloadLen - fr.payloadPos) (fr.payloadLen - fr.payloadPos)
    [] t with ⟨why, got, t'⟩
  rw [hr] at hfill
  have hle : got.length ≤ fr.payloadLen - fr.payloadPos := hfill.le
  have hkept : pending t = got ++ pending t' := hfill.kept
  have hbytes : (fr.payloadBuf.appendBytes (got.map UInt8.toNat)).bytes =
      fr.payloadBuf.bytes ++ got := by
    rw [Buf.appendBytes_of_le (by rw [length_map]; omega), map_map]
    congr 1
    exact (map_congr_left fun x _ => UInt8.ofNat_toNat).trans (map_id _)
  obtain ⟨hwhy, hdone⟩ | ⟨hwhy, hless, hblocked⟩ := hfill.status
  · obtain rfl : why = none := hwhy
    have hall : got.length = fr.payloadLen - fr.payloadPos := hdone
    have hout : (fr.payloadBuf.bytes ++ got).length = decodeBE32 fr.lenBuf := by
      rw [length_append]
      omega
    refine ⟨rfl, .inr (.inl ⟨rfl, ⟨hlimit, .inl ⟨rfl, Nat.zero_lt_succ 3⟩⟩, rfl, ?_, ?_⟩)⟩
    · simp only [hbytes]
      omega
    · rw [FrameReader.held, if_pos hstate, hkept]
      simp only [hbytes, frameBytes, hout, encodeBE32_decodeBE32 hlen, append_assoc]
  · obtain rfl : why = some .wouldBlock := hwhy
    have hsome : got.length < fr.payloadLen - fr.payloadPos := hless
    refine ⟨rfl, .inl ⟨rfl, ⟨hlimit, .inr ⟨hstate, hlen, hpayload, hmax, ?_, ?_⟩⟩, hblocked, ?_⟩⟩
    · simp only [hbytes, length_append, hpos]
    · simp only
      omega
    · rw [FrameReader.held, if_pos hstate, hkept, FrameReader.held, if_pos hstate]
      simp only [hbytes, append_assoc]

/-- What the four bytes of a length lead to. -/
theorem startFrame_cases (fr : FrameReader) (hlimit : fr.maxFrame ≤ maxFrameLimit)
    (hstate : fr.state = stReadLen)
    (hlen : fr.lenBuf.length = 4) (t : τ) :
    (∃ r, startFrame fr t = .error r ∧ r.transport = t ∧ r.reader.maxFrame = fr.maxFrame ∧
      (r.status = .tooLarge ∧ r.reader.Oversized ∧ r.reader.lenBuf = fr.lenBuf ∨
        r.status = .ok ∧ r.reader.Waiting ∧ r.reader.held = [] ∧ r.out = [] ∧
          fr.lenBuf = frameBytes [])) ∨
    ∃ fr', startFrame fr t = .ok fr' ∧ fr'.Waiting ∧ fr'.state = stReadPayload ∧
      fr'.held = fr.lenBuf ∧ fr'.maxFrame = fr.maxFrame := by
  have hcap : maxFrameLimit ≤ maxBufCap := by decide
  rw [startFrame]
  by_cases habove : decodeBE32 fr.lenBuf > fr.maxFrame
  · rw [if_pos habove]
    exact .inl ⟨_, rfl, rfl, rfl, .inl ⟨rfl, ⟨hstate, hlen, habove⟩, rfl⟩⟩
  · rw [if_neg habove]
    by_cases hzero : decodeBE32 fr.lenBuf = 0
    · rw [if_pos hzero]
      refine .inl ⟨_, rfl, rfl, rfl, .inr ⟨rfl, ⟨hlimit, .inl ⟨hstate, Nat.zero_lt_succ 3⟩⟩, ?_,
        rfl, ?_⟩⟩
      · rw [FrameReader.held, if_neg (by rw [hstate]; decide)]
      · rw [frameBytes, length_nil, ← hzero, encodeBE32_decodeBE32 hlen, append_nil]
    · rw [if_neg hzero, if_neg (by show ¬ decodeBE32 fr.lenBuf > maxBufCap; omega)]
      refine .inr ⟨_, rfl, ⟨hlimit, .inr ⟨rfl, hlen, rfl, Nat.not_lt.mp habove, rfl, ?_⟩⟩, rfl, ?_,
        rfl⟩
      · exact Nat.pos_of_ne_zero hzero
      · exact append_nil _

/-- The first phase, once the read callback has given what it had. -/
theorem readLength_of_fill (hstate : fr.state = stReadLen) {t t' : τ} {got : List UInt8}
    {why : Option TransportStatus}
    (hr : fill read 4 (4 - fr.lenBuf.length) (4 - fr.lenBuf.length) [] t = (why, got, t')) :
    readLength read fr t = match why with
      | some .closed => .error ⟨if (fr.lenBuf ++ got).length = 0 then .closed else .error, [],
          { fr with lenBuf := fr.lenBuf ++ got }, t'⟩
      | some status => .error ⟨stoppedStatus status, [], { fr with lenBuf := fr.lenBuf ++ got }, t'⟩
      | none => (startFrame { fr with lenBuf := fr.lenBuf ++ got } t').map fun fr => (fr, t') := by
  rw [readLength, if_pos hstate]
  simp only [hr]
  rcases why with _ | ⟨_ | _ | _ | _⟩ <;> rfl

theorem tryReadFrame_of_error {t : τ} {r : ReadResult τ} (h : readLength read fr t = .error r) :
    tryReadFrame read fr t = r := by
  rw [tryReadFrame, h]

theorem tryReadFrame_of_ok {t t' : τ} {fr' : FrameReader}
    (h : readLength read fr t = .ok (fr', t')) :
    tryReadFrame read fr t = readPayload read fr' t' := by
  rw [tryReadFrame, h]

/-- One call on a reader that waits. -/
theorem tryReadFrame_called (hread : Streams read pending) (h : fr.Waiting) (t : τ) :
    Called read pending fr t (tryReadFrame read fr t) := by
  obtain ⟨hstate, hlen⟩ | ⟨hstate, -⟩ := id h.phase
  · have hfill := hread.fill_nil (Nat.zero_lt_succ 3) (4 - fr.lenBuf.length) t
    rcases hr : fill read 4 (4 - fr.lenBuf.length) (4 - fr.lenBuf.length) [] t with ⟨why, got, t'⟩
    rw [hr] at hfill
    have hkept : pending t = got ++ pending t' := hfill.kept
    have hheld : fr.held = fr.lenBuf := by
      rw [FrameReader.held, if_neg (by rw [hstate]; decide)]
    have hphase := readLength_of_fill hstate hr
    obtain ⟨hwhy, hdone⟩ | ⟨hwhy, hless, hblocked⟩ := hfill.status
    · obtain rfl : why = none := hwhy
      have hall : got.length = 4 - fr.lenBuf.length := hdone
      have hfour : (fr.lenBuf ++ got).length = 4 := by
        rw [length_append]
        omega
      obtain ⟨r, hstart, htransport, hmax, hresult⟩ | ⟨fr', hstart, hwait, hstate', hheld', hmax⟩ :=
        startFrame_cases { fr with lenBuf := fr.lenBuf ++ got } h.limit hstate hfour t'
      · have hphase' : readLength read fr t = .error r := by rw [hphase, hstart]; rfl
        rw [tryReadFrame_of_error hphase']
        refine ⟨hmax, ?_⟩
        rw [hheld, hkept, htransport, ← append_assoc]
        obtain ⟨hstatus, hover, hbuf⟩ | ⟨hstatus, hwait, hempty, hout, hbuf⟩ := hresult
        · exact .inr (.inr ⟨hstatus, hover, by rw [hbuf]⟩)
        · refine .inr (.inl ⟨hstatus, hwait, hempty, ?_, ?_⟩)
          · rw [hout]
            exact Nat.zero_le _
          · rw [hout, ← hbuf]
      · have hphase' : readLength read fr t = .ok (fr', t') := by rw [hphase, hstart]; rfl
        rw [tryReadFrame_of_ok hphase']
        have hcall := readPayload_called hread hwait hstate' t'
        refine ⟨hcall.maxFrame.trans hmax, ?_⟩
        have hresult := hcall.result
        rw [hheld', hmax, append_assoc, ← hkept, ← hheld] at hresult
        exact hresult
    · obtain rfl : why = some .wouldBlock := hwhy
      have hsome : got.length < 4 - fr.lenBuf.length := hless
      rw [tryReadFrame_of_error hphase]
      refine ⟨rfl, .inl ⟨rfl, ⟨h.limit, .inl ⟨hstate, ?_⟩⟩, hblocked, ?_⟩⟩
      · simp only [length_append]
        omega
      · rw [hheld, hkept, ← append_assoc]
        congr 1
        simp only [FrameReader.held]
        rw [if_neg (by rw [hstate]; decide)]
  · have hne : ¬ fr.state = stReadLen := by rw [hstate]; decide
    rw [tryReadFrame_of_ok (if_neg hne)]
    exact readPayload_called hread h hstate t

/-- The length alone never ends a call with more to come. -/
theorem startFrame_error {t : τ} {r : ReadResult τ} (h : startFrame fr t = .error r) :
    r.transport = t ∧ r.status ≠ .needMore := by
  dsimp only [startFrame] at h
  split_ifs at h <;> cases h <;> exact ⟨rfl, FrameStatus.noConfusion⟩

section Waits

variable (fr) {waits : τ → Nat}

/-- A call for the payload returns without it only when a read blocks. -/
theorem readPayload_waits (hread : Streams read pending) (hw : Waits read pending waits) (t : τ) :
    waits (readPayload read fr t).transport ≤ waits t ∧
      ((readPayload read fr t).status = .needMore →
        waits (readPayload read fr t).transport < waits t ∨
          pending (readPayload read fr t).transport = []) := by
  have hchunk : 0 < chunkSize := by decide
  obtain ⟨hle, hstop⟩ := hw.fill hread hchunk (fr.payloadLen - fr.payloadPos)
    (fr.payloadLen - fr.payloadPos) [] t
  rw [readPayload]
  rcases hr : fill read chunkSize (fr.payloadLen - fr.payloadPos) (fr.payloadLen - fr.payloadPos)
    [] t with ⟨why, got, t'⟩
  rw [hr] at hle hstop
  rcases why with _ | why
  · exact ⟨hle, fun hmore => by cases hmore⟩
  · refine ⟨hle, fun hmore => hstop ?_⟩
    cases why with
    | wouldBlock => rfl
    | ok | closed | error => cases hmore

/-- A call returns without a frame only when a read blocks. -/
theorem tryReadFrame_waits (hread : Streams read pending) (hw : Waits read pending waits) (t : τ) :
    waits (tryReadFrame read fr t).transport ≤ waits t ∧
      ((tryReadFrame read fr t).status = .needMore →
        waits (tryReadFrame read fr t).transport < waits t ∨
          pending (tryReadFrame read fr t).transport = []) := by
  by_cases hstate : fr.state = stReadLen
  · obtain ⟨hle, hstop⟩ := hw.fill hread (Nat.zero_lt_succ 3) (4 - fr.lenBuf.length)
      (4 - fr.lenBuf.length) [] t
    rcases hr : fill read 4 (4 - fr.lenBuf.length) (4 - fr.lenBuf.length) [] t with ⟨why, got, t'⟩
    rw [hr] at hle hstop
    have hphase := readLength_of_fill hstate hr
    rcases why with _ | why
    · rcases hstart : startFrame { fr with lenBuf := fr.lenBuf ++ got } t' with r | fr'
      · have hphase' : readLength read fr t = .error r := by rw [hphase, hstart]; rfl
        obtain ⟨htransport, hstatus⟩ := startFrame_error hstart
        rw [tryReadFrame_of_error hphase', htransport]
        exact ⟨hle, fun hmore => absurd hmore hstatus⟩
      · have hphase' : readLength read fr t = .ok (fr', t') := by rw [hphase, hstart]; rfl
        rw [tryReadFrame_of_ok hphase']
        obtain ⟨hrest, hblocks⟩ := readPayload_waits fr' hread hw t'
        refine ⟨Nat.le_trans hrest hle, fun hmore => ?_⟩
        exact (hblocks hmore).imp_left fun hless => Nat.lt_of_lt_of_le hless hle
    · cases why with
      | wouldBlock =>
        rw [tryReadFrame_of_error hphase]
        exact ⟨hle, fun _ => hstop rfl⟩
      | closed =>
        rw [tryReadFrame_of_error hphase]
        refine ⟨hle, fun hmore => ?_⟩
        simp only at hmore
        split_ifs at hmore
      | ok | error =>
        rw [tryReadFrame_of_error hphase]
        exact ⟨hle, fun hmore => by cases hmore⟩
  · rw [tryReadFrame_of_ok (if_neg hstate)]
    exact readPayload_waits fr hread hw t

end Waits

theorem startFrame_oversized {t : τ} (h : fr.maxFrame < decodeBE32 fr.lenBuf) :
    startFrame fr t =
      .error ⟨.tooLarge, [], { fr with payloadLen := decodeBE32 fr.lenBuf }, t⟩ := by
  simp only [startFrame]
  generalize decodeBE32 fr.lenBuf = n at h ⊢
  rw [if_pos h]

/-- A reader that has read a length above its maximum says so on every call, and reads no more. -/
theorem tryReadFrame_oversized (h : fr.Oversized) (t : τ) :
    tryReadFrame read fr t =
      ⟨.tooLarge, [], { fr with payloadLen := decodeBE32 fr.lenBuf }, t⟩ := by
  have hfill : fill read 4 (4 - fr.lenBuf.length) (4 - fr.lenBuf.length) [] t = (none, [], t) := by
    rw [h.length]
    rfl
  have hphase := readLength_of_fill h.state hfill
  rw [append_nil] at hphase
  have hstart : startFrame { fr with lenBuf := fr.lenBuf } t =
      .error ⟨.tooLarge, [], { fr with payloadLen := decodeBE32 fr.lenBuf }, t⟩ :=
    startFrame_oversized h.above
  rw [hstart] at hphase
  exact tryReadFrame_of_error hphase

theorem FrameReader.Oversized.again (h : fr.Oversized) :
    ({ fr with payloadLen := decodeBE32 fr.lenBuf } : FrameReader).Oversized :=
  ⟨h.state, h.length, h.above⟩

end Call

/-! ## A run of calls -/

theorem delivered_append (xs ys : List (FrameStatus × List UInt8)) :
    delivered (xs ++ ys) = delivered xs ++ delivered ys :=
  filterMap_append

theorem framesBytes_append (ps qs : List (List UInt8)) :
    framesBytes (ps ++ qs) = framesBytes ps ++ framesBytes qs :=
  flatMap_append

theorem framesBytes_singleton (p : List UInt8) : framesBytes [p] = frameBytes p :=
  append_nil _

/-- What calls on a new reader have made of the bytes that were to come. -/
structure Run (pending : τ → List UInt8) (limit : Nat) (t : τ)
    (r : List (FrameStatus × List UInt8) × FrameReader × τ) : Prop where
  maxFrame : r.2.1.maxFrame = limit
  small : ∀ p ∈ delivered r.1, p.length ≤ limit
  reader :
    r.2.1.Waiting ∧ (∀ x ∈ r.1, x.1 = .ok ∨ x.1 = .needMore) ∧
      pending t = framesBytes (delivered r.1) ++ (r.2.1.held ++ pending r.2.2) ∨
    r.2.1.Oversized ∧ (∀ x ∈ r.1, x.1 = .ok ∨ x.1 = .needMore ∨ x.1 = .tooLarge) ∧
      (∃ out, r.1.getLast? = some (.tooLarge, out)) ∧
      pending t = framesBytes (delivered r.1) ++ (r.2.1.lenBuf ++ pending r.2.2)

/-- After the calls there is nothing left to deliver. -/
def Exhausted (pending : τ → List UInt8)
    (r : List (FrameStatus × List UInt8) × FrameReader × τ) : Prop :=
  r.2.1.Oversized ∨ r.2.1.Waiting ∧ pending r.2.2 = []

section Run

variable {read : ReadFn τ UInt8} {pending : τ → List UInt8}

variable {r : List (FrameStatus × List UInt8) × FrameReader × τ}

theorem Run.statuses {limit : Nat} {t : τ} (h : Run pending limit t r) :
    ∀ x ∈ r.1, x.1 = .ok ∨ x.1 = .needMore ∨ x.1 = .tooLarge := by
  obtain ⟨-, hall, -⟩ | ⟨-, hall, -⟩ := h.reader
  · intro x hx
    rcases hall x hx with hok | hmore
    · exact .inl hok
    · exact .inr (.inl hmore)
  · exact hall

/-- One more call. The new one delivers a payload, or nothing; and in that case, when the
transport waits only at the end, there is nothing left to deliver. -/
theorem Run.step (hread : Streams read pending) {limit : Nat} {t : τ} {n : Nat} {fr : FrameReader}
    (h : Run pending limit t (readFrames read n fr t)) :
    Run pending limit t (readFrames read (n + 1) fr t) ∧
      ((∃ out, delivered (readFrames read (n + 1) fr t).1 =
          delivered (readFrames read n fr t).1 ++ [out]) ∨
        delivered (readFrames read (n + 1) fr t).1 = delivered (readFrames read n fr t).1 ∧
          (NeverWaits read pending → Exhausted pending (readFrames read (n + 1) fr t))) := by
  rw [readFrames]
  generalize readFrames read n fr t = r at h ⊢
  obtain ⟨results, reader, t'⟩ := r
  obtain ⟨hmax, hsmall, hreader⟩ := h
  obtain ⟨hwait, hall, hbytes⟩ | ⟨hover, hall, -, hbytes⟩ := hreader
  · have hcall := tryReadFrame_called hread hwait t'
    simp only at hmax hsmall hall hbytes ⊢
    rcases hlast : tryReadFrame read reader t' with ⟨status, out, reader', t''⟩
    rw [hlast] at hcall
    have hmax' : reader'.maxFrame = limit := hcall.maxFrame.trans hmax
    obtain ⟨rfl, hwait', hblocked, heq⟩ | ⟨rfl, hwait', hheld, hle, heq⟩ | ⟨rfl, hover, heq⟩ :
      status = .needMore ∧ reader'.Waiting ∧ Blocked read pending t'' ∧
        reader.held ++ pending t' = reader'.held ++ pending t'' ∨
      status = .ok ∧ reader'.Waiting ∧ reader'.held = [] ∧ out.length ≤ reader.maxFrame ∧
        reader.held ++ pending t' = frameBytes out ++ pending t'' ∨
      status = .tooLarge ∧ reader'.Oversized ∧
        reader.held ++ pending t' = reader'.lenBuf ++ pending t'' := hcall.result
    · have hsame : delivered (results ++ [(FrameStatus.needMore, out)]) = delivered results := by
        rw [delivered_append]
        exact append_nil _
      refine ⟨⟨hmax', ?_, .inl ⟨hwait', ?_, ?_⟩⟩, .inr ⟨hsame, fun hready => .inr
        ⟨hwait', hblocked.pending_eq_nil hready⟩⟩⟩
      · simpa only [hsame] using hsmall
      · intro x hx
        rcases mem_append.mp hx with hx | hx
        · exact hall x hx
        · rw [mem_singleton.mp hx]
          exact .inr rfl
      · rw [hsame, hbytes, heq]
    · have hmore : delivered (results ++ [(FrameStatus.ok, out)]) = delivered results ++ [out] :=
        delivered_append _ _
      refine ⟨⟨hmax', ?_, .inl ⟨hwait', ?_, ?_⟩⟩, .inl ⟨out, hmore⟩⟩
      · simp only [hmore]
        intro p hp
        rcases mem_append.mp hp with hp | hp
        · exact hsmall p hp
        · rw [mem_singleton.mp hp, ← hmax]
          exact hle
      · intro x hx
        rcases mem_append.mp hx with hx | hx
        · exact hall x hx
        · rw [mem_singleton.mp hx]
          exact .inl rfl
      · simp only [hmore, hheld, nil_append]
        rw [hbytes, heq, framesBytes_append, framesBytes_singleton, append_assoc]
    · have hsame : delivered (results ++ [(FrameStatus.tooLarge, out)]) = delivered results := by
        rw [delivered_append]
        exact append_nil _
      refine ⟨⟨hmax', ?_, .inr ⟨hover, ?_, ⟨out, getLast?_concat⟩, ?_⟩⟩,
        .inr ⟨hsame, fun _ => .inl hover⟩⟩
      · simpa only [hsame] using hsmall
      · intro x hx
        rcases mem_append.mp hx with hx | hx
        · rcases hall x hx with hok | hmore
          · exact .inl hok
          · exact .inr (.inl hmore)
        · rw [mem_singleton.mp hx]
          exact .inr (.inr rfl)
      · rw [hsame, hbytes, heq]
  · simp only at hmax hsmall hall hbytes hover ⊢
    rw [tryReadFrame_oversized hover]
    have hsame : delivered (results ++ [(FrameStatus.tooLarge, [])]) = delivered results := by
      rw [delivered_append]
      exact append_nil _
    refine ⟨⟨hmax, ?_, .inr ⟨hover.again, ?_, ⟨[], getLast?_concat⟩, ?_⟩⟩,
      .inr ⟨hsame, fun _ => .inl hover.again⟩⟩
    · simpa only [hsame] using hsmall
    · intro x hx
      rcases mem_append.mp hx with hx | hx
      · exact hall x hx
      · rw [mem_singleton.mp hx]
        exact .inr (.inr rfl)
    · rw [hsame]
      exact hbytes

/-- One more call on a reader that waits: it delivers a payload, or a read blocked, or there is
nothing left to deliver. -/
theorem Run.step_waits (hread : Streams read pending) {waits : τ → Nat}
    (hw : Waits read pending waits) {limit : Nat} {t : τ} {n : Nat} {fr : FrameReader}
    (h : Run pending limit t (readFrames read n fr t)) :
    Exhausted pending (readFrames read (n + 1) fr t) ∨
      (delivered (readFrames read n fr t).1).length + waits (readFrames read (n + 1) fr t).2.2 + 1 ≤
        (delivered (readFrames read (n + 1) fr t).1).length +
          waits (readFrames read n fr t).2.2 := by
  rw [readFrames]
  generalize readFrames read n fr t = r at h ⊢
  obtain ⟨results, reader, t'⟩ := r
  obtain ⟨-, -, ⟨hwait, -⟩ | ⟨hover, -⟩⟩ := h
  · have hcall := tryReadFrame_called hread hwait t'
    obtain ⟨hle, hblocks⟩ := tryReadFrame_waits reader hread hw t'
    simp only at hle hblocks ⊢
    rcases hlast : tryReadFrame read reader t' with ⟨status, out, reader', t''⟩
    rw [hlast] at hcall hle hblocks
    simp only [delivered_append, length_append] at hle hblocks ⊢
    obtain ⟨rfl, hwait', -⟩ | ⟨rfl, -⟩ | ⟨rfl, hover, -⟩ :
      status = .needMore ∧ reader'.Waiting ∧ Blocked read pending t'' ∧
        reader.held ++ pending t' = reader'.held ++ pending t'' ∨
      status = .ok ∧ reader'.Waiting ∧ reader'.held = [] ∧ out.length ≤ reader.maxFrame ∧
        reader.held ++ pending t' = frameBytes out ++ pending t'' ∨
      status = .tooLarge ∧ reader'.Oversized ∧
        reader.held ++ pending t' = reader'.lenBuf ++ pending t'' := hcall.result
    · obtain hless | hend := hblocks rfl
      · right
        omega
      · exact .inl (.inr ⟨hwait', hend⟩)
    · right
      have hone : (delivered [(FrameStatus.ok, out)]).length = 1 := rfl
      omega
    · exact .inl (.inl hover)
  · simp only at hover ⊢
    rw [tryReadFrame_oversized hover]
    exact .inl (.inl hover.again)

/-- Any number of calls on a new reader. -/
theorem run_readFrames (hread : Streams read pending) (maxFrame : Nat) (t : τ) (n : Nat) :
    Run pending (initFrameReader maxFrame).maxFrame t
      (readFrames read n (initFrameReader maxFrame) t) := by
  induction n with
  | zero =>
    obtain ⟨hwait, hheld⟩ := initFrameReader_waiting maxFrame
    refine ⟨rfl, fun p hp => absurd hp not_mem_nil, .inl ⟨hwait, ?_, ?_⟩⟩
    · exact fun x hx => absurd hx not_mem_nil
    · rw [readFrames, hheld]
      rfl
  | succ n ih => exact (ih.step hread).1

section Stream

variable {maxFrame : Nat} {payloads : List (List UInt8)} {tail : List UInt8} {t : τ} {n : Nat}

/-- A length above the maximum is no frame. -/
theorem noFrame_oversized {limit : Nat} {lenBuf : List UInt8} (hlen : lenBuf.length = 4)
    (habove : limit < decodeBE32 lenBuf) (hlimit : limit < 4294967296) (rest : List UInt8) :
    NoFrame limit (lenBuf ++ rest) := by
  intro payload rest' hle heq
  rw [frameBytes, append_assoc] at heq
  obtain ⟨hhead, -⟩ := append_inj heq (by rw [hlen, length_encodeBE32])
  have h32 := decodeBE32_encodeBE32 (by omega : payload.length < 4294967296) []
  rw [append_nil, ← hhead] at h32
  omega

variable (hpayloads : ∀ p ∈ payloads, p.length ≤ (initFrameReader maxFrame).maxFrame)
  (htail : NoFrame (initFrameReader maxFrame).maxFrame tail)
  (hstream : pending t = framesBytes payloads ++ tail)

include hpayloads htail hstream

/-- What has not been delivered is still to come. -/
theorem Run.rest
    (h : Run pending (initFrameReader maxFrame).maxFrame t r) :
    ∃ rest, payloads = delivered r.1 ++ rest ∧
      (r.2.1.Waiting ∧ r.2.1.held ++ pending r.2.2 = framesBytes rest ++ tail ∨
        r.2.1.Oversized ∧ rest = [] ∧ r.2.1.lenBuf ++ pending r.2.2 = tail) := by
  have hconst : maxFrameLimit = 65531 := rfl
  have hlimit := initFrameReader_maxFrame maxFrame
  have h32 : (initFrameReader maxFrame).maxFrame < 4294967296 := by omega
  obtain ⟨hwait, -, hbytes⟩ | ⟨hover, -, -, hbytes⟩ := h.reader
  · obtain ⟨rest, hrest, heq⟩ := framesBytes_front h32 h.small hpayloads htail
      (hbytes.symm.trans hstream)
    exact ⟨rest, hrest, .inl ⟨hwait, heq⟩⟩
  · obtain ⟨rest, hrest, heq⟩ := framesBytes_front h32 h.small hpayloads htail
      (hbytes.symm.trans hstream)
    have hnone := noFrame_oversized hover.length hover.above
      (by rw [h.maxFrame]; exact h32) (pending r.2.2)
    cases rest with
    | nil => exact ⟨[], hrest, .inr ⟨hover, rfl, heq⟩⟩
    | cons p ps =>
      rw [heq, framesBytes, flatMap_cons, append_assoc] at hnone
      rw [h.maxFrame] at hnone
      exact absurd rfl (hnone p _ (hpayloads p (by rw [hrest]; simp)))

/-- When there is nothing left to deliver, every payload has been. -/
theorem Run.delivered_all
    (h : Run pending (initFrameReader maxFrame).maxFrame t r) (hdone : Exhausted pending r) :
    delivered r.1 = payloads := by
  obtain ⟨rest, hrest, ⟨hwait, heq⟩ | ⟨hover, hnil, -⟩⟩ := h.rest hpayloads htail hstream
  · obtain hover | ⟨-, hpending⟩ := hdone
    · exact absurd hover hwait.not_oversizedReader
    · cases rest with
      | nil => rw [hrest, append_nil]
      | cons p ps =>
        rw [hpending, append_nil, framesBytes, flatMap_cons, append_assoc] at heq
        exact absurd heq (hwait.noFrame p _ (h.maxFrame ▸ hpayloads p (by rw [hrest]; simp)))
  · rw [hrest, hnil, append_nil]

/-- When the transport waits only at the end, every call delivers the next payload; those after
the last one find nothing left. -/
theorem delivered_take (hread : Streams read pending) (hready : NeverWaits read pending) :
    delivered (readFrames read n (initFrameReader maxFrame) t).1 = payloads.take n ∧
      (payloads.length < n →
        Exhausted pending (readFrames read n (initFrameReader maxFrame) t)) := by
  induction n with
  | zero => exact ⟨rfl, fun h => absurd h (Nat.not_lt_zero _)⟩
  | succ n ih =>
    have hrun := run_readFrames hread maxFrame t n
    obtain ⟨hrun', hstep⟩ := hrun.step hread
    obtain ⟨⟨out, hmore⟩ | ⟨hsame, hdone⟩, htake, -⟩ := And.intro hstep ih
    · obtain ⟨rest, hrest, -⟩ := hrun'.rest hpayloads htail hstream
      have hlength := congrArg List.length hrest
      rw [hmore, htake] at hlength
      simp only [length_append, length_take, length_singleton] at hlength
      refine ⟨?_, fun h => by omega⟩
      have hfront : delivered (readFrames read (n + 1) (initFrameReader maxFrame) t).1 =
          payloads.take
            (delivered (readFrames read (n + 1) (initFrameReader maxFrame) t).1).length :=
        by rw [hrest, take_left]
      rw [hfront, hmore, htake]
      congr 1
      simp only [length_append, length_take, length_singleton]
      omega
    · have hall := hrun'.delivered_all hpayloads htail hstream (hdone hready)
      refine ⟨?_, fun _ => hdone hready⟩
      have hlen : payloads.length ≤ n := by
        have hlength := congrArg List.length (hsame.symm.trans hall)
        rw [htake, length_take] at hlength
        omega
      rw [hall, take_of_length_le (by omega)]

omit htail hstream hpayloads in
/-- Until the calls are done, each of them delivers a payload, but for as many as reads can
block. -/
theorem done_or_counted (hread : Streams read pending) {waits : τ → Nat}
    (hw : Waits read pending waits) (Done : Nat → Prop)
    (hkeep : ∀ n, Done n → Done (n + 1))
    (hdone : ∀ n, Exhausted pending (readFrames read n (initFrameReader maxFrame) t) → Done n) :
    Done n ∨ n + waits (readFrames read n (initFrameReader maxFrame) t).2.2 ≤
      (delivered (readFrames read n (initFrameReader maxFrame) t).1).length + waits t := by
  induction n with
  | zero => exact .inr (by simp [readFrames])
  | succ n ih =>
    obtain hend | hless := (run_readFrames hread maxFrame t n).step_waits hread hw
    · exact .inl (hdone _ hend)
    · obtain hn | hcount := ih
      · exact .inl (hkeep n hn)
      · right
        omega

/-- Once every payload has been delivered, it stays so. -/
theorem delivered_all_succ (hread : Streams read pending)
    (hall : delivered (readFrames read n (initFrameReader maxFrame) t).1 = payloads) :
    delivered (readFrames read (n + 1) (initFrameReader maxFrame) t).1 = payloads := by
  have hrun := run_readFrames hread maxFrame t n
  obtain ⟨rest, hrest, -⟩ := (hrun.step hread).1.rest hpayloads htail hstream
  obtain ⟨out, hmore⟩ | ⟨hsame, -⟩ := (hrun.step hread).2
  · have hlength := congrArg List.length hrest
    rw [hmore, hall] at hlength
    simp only [length_append, length_singleton] at hlength
    omega
  · rw [hsame, hall]

end Stream

end Run

/-! ## Written frames -/

section Write

variable {σ : Type} {write : WriteFn σ UInt8} {written : σ → List UInt8}

/-- A payload that fits is written as its frame. -/
theorem writeFrame_written (hwrite : Accepts write written) {payload : List UInt8} {rounds : Nat}
    (hlen : payload.length ≤ maxFrameLimit) (hrounds : payload.length + 4 ≤ rounds) (s : σ) :
    ∃ s', writeFrame write rounds payload s = some (true, s') ∧
      written s' = written s ++ frameBytes payload := by
  have hcap : maxFrameLimit + 4 ≤ maxBufCap := by decide
  have hheader : (Buf.empty.appendView (encodeBE32 payload.length)).1.bytes =
      encodeBE32 payload.length :=
    (Buf.appendView_of_le (Nat.le_trans (Nat.le_add_left 4 _) hcap)).1
  have hframe : ((Buf.empty.appendView (encodeBE32 payload.length)).1.appendView payload).1.bytes =
      frameBytes payload := by
    rw [(Buf.appendView_of_le (by rw [hheader, length_encodeBE32]; omega)).1, hheader, frameBytes]
  simp only [writeFrame, hframe]
  apply hwrite.drain
  rw [frameBytes, length_append, length_encodeBE32]
  omega

theorem writeFrames_written (hwrite : Accepts write written) {payloads : List (List UInt8)}
    {rounds : Nat} (hlen : ∀ p ∈ payloads, p.length ≤ maxFrameLimit)
    (hrounds : ∀ p ∈ payloads, p.length + 4 ≤ rounds) (s : σ) :
    ∃ s', writeFrames write rounds payloads s = some (true, s') ∧
      written s' = written s ++ framesBytes payloads := by
  induction payloads generalizing s with
  | nil => exact ⟨s, rfl, (append_nil _).symm⟩
  | cons p ps ih =>
    obtain ⟨s', hfirst, hwritten⟩ :=
      writeFrame_written hwrite (hlen p mem_cons_self) (hrounds p mem_cons_self) s
    obtain ⟨s'', hrest, hwritten'⟩ := ih (fun q hq => hlen q (mem_cons_of_mem _ hq))
      (fun q hq => hrounds q (mem_cons_of_mem _ hq)) s'
    refine ⟨s'', ?_, ?_⟩
    · rw [writeFrames, hfirst]
      exact hrest
    · rw [hwritten', hwritten, append_assoc]
      rfl

end Write

/-! ## Framing loses nothing -/

/-- What calls on a new reader return for a stream of frames: the payloads in order, and
otherwise that there is more to come, which is so only after a read that blocked. -/
structure Lossless (read : ReadFn τ UInt8) (pending : τ → List UInt8)
    (payloads : List (List UInt8)) (t : τ) (n : Nat)
    (r : List (FrameStatus × List UInt8) × FrameReader × τ) : Prop where
  statuses : ∀ x ∈ r.1, x.1 = .ok ∨ x.1 = .needMore
  inOrder : delivered r.1 <+: payloads
  complete : pending r.2.2 = [] → delivered r.1 = payloads
  prompt : NeverWaits read pending → delivered r.1 = payloads.take n
  /-- Calls without a payload, before all of them are there, are at most the reads that blocked. -/
  resumed : ∀ waits, Waits read pending waits →
    delivered r.1 = payloads ∨ n + waits r.2.2 ≤ (delivered r.1).length + waits t

/-- What calls on a new reader return for frames before a length that is too large. -/
structure Refused (read : ReadFn τ UInt8) (pending : τ → List UInt8)
    (payloads : List (List UInt8)) (rest : List UInt8) (t : τ) (n : Nat)
    (r : List (FrameStatus × List UInt8) × FrameReader × τ) : Prop where
  statuses : ∀ x ∈ r.1, x.1 = .ok ∨ x.1 = .needMore ∨ x.1 = .tooLarge
  inOrder : delivered r.1 <+: payloads
  reported : (pending r.2.2).length ≤ rest.length → ∃ out, r.1.getLast? = some (.tooLarge, out)
  prompt : NeverWaits read pending →
    delivered r.1 = payloads.take n ∧
      (payloads.length < n → ∃ out, r.1.getLast? = some (.tooLarge, out))
  resumed : ∀ waits, Waits read pending waits →
    (∃ out, r.1.getLast? = some (.tooLarge, out)) ∨
      n + waits r.2.2 ≤ (delivered r.1).length + waits t

section Lossless

variable {read : ReadFn τ UInt8} {pending : τ → List UInt8} {maxFrame : Nat}
  {payloads : List (List UInt8)} {t : τ}

theorem lossless_readFrames (hread : Streams read pending)
    (hpayloads : ∀ p ∈ payloads, p.length ≤ (initFrameReader maxFrame).maxFrame)
    (hstream : pending t = framesBytes payloads) (n : Nat) :
    Lossless read pending payloads t n (readFrames read n (initFrameReader maxFrame) t) := by
  have hrun := run_readFrames hread maxFrame t n
  have hnil := noFrame_nil (initFrameReader maxFrame).maxFrame
  have hstream' : pending t = framesBytes payloads ++ [] := by rw [hstream, append_nil]
  obtain ⟨rest, hrest, ⟨hwait, -⟩ | ⟨hover, -, hbytes⟩⟩ := hrun.rest hpayloads hnil hstream'
  · refine ⟨?_, ⟨rest, hrest.symm⟩, fun hdone => ?_, fun hready => ?_, fun waits hw => ?_⟩
    · obtain ⟨-, hall, -⟩ | ⟨hover, -⟩ := hrun.reader
      · exact hall
      · exact absurd hover (hwait.not_oversizedReader)
    · exact hrun.delivered_all hpayloads hnil hstream' (.inr ⟨hwait, hdone⟩)
    · exact (delivered_take hpayloads hnil hstream' hread hready).1
    · exact done_or_counted hread hw
        (fun n => delivered (readFrames read n (initFrameReader maxFrame) t).1 = payloads)
        (fun n => delivered_all_succ hpayloads hnil hstream' hread)
        fun n => (run_readFrames hread maxFrame t n).delivered_all hpayloads hnil hstream'
  · have hlength := congrArg List.length hbytes
    rw [length_append, hover.length, length_nil] at hlength
    omega

section Refused

variable {len : Nat} {rest : List UInt8}

/-- A reader that has read past a length above the maximum has refused it. -/
theorem oversized_of_short (hread : Streams read pending)
    (hpayloads : ∀ p ∈ payloads, p.length ≤ (initFrameReader maxFrame).maxFrame)
    (habove : (initFrameReader maxFrame).maxFrame < len) (hlen : len < 4294967296)
    (htail : NoFrame (initFrameReader maxFrame).maxFrame (encodeBE32 len ++ rest))
    (hstream : pending t = framesBytes payloads ++ (encodeBE32 len ++ rest)) (n : Nat)
    (hshort : (pending (readFrames read n (initFrameReader maxFrame) t).2.2).length ≤
      rest.length) : (readFrames read n (initFrameReader maxFrame) t).2.1.Oversized := by
  have hrun := run_readFrames hread maxFrame t n
  obtain ⟨left, hleft, ⟨hwait, hbytes⟩ | ⟨hover, -⟩⟩ := hrun.rest hpayloads htail hstream
  · exfalso
    cases left with
    | nil =>
      obtain ⟨front, hfront⟩ := prefix_of_prefix_length_le
        (prefix_append (encodeBE32 len) rest) ⟨_, hbytes⟩
        (by
          have hlength := congrArg List.length hbytes
          simp only [framesBytes, flatMap_nil, nil_append, length_append] at hlength
          omega)
      exact hwait.not_oversized (hrun.maxFrame ▸ habove) hlen front hfront.symm
    | cons p ps =>
      rw [framesBytes, flatMap_cons, append_assoc] at hbytes
      obtain ⟨front, hfront⟩ := prefix_of_prefix_length_le
        (prefix_append (frameBytes p) _) ⟨_, hbytes⟩
        (by
          have hlength := congrArg List.length hbytes
          simp only [length_append] at hlength
          omega)
      exact hwait.noFrame p front (hrun.maxFrame ▸ hpayloads p (by rw [hleft]; simp)) hfront.symm
  · exact hover

/-- A reader that has refused a length has said so in its last call. -/
theorem Run.reported {limit : Nat} {r : List (FrameStatus × List UInt8) × FrameReader × τ}
    (h : Run pending limit t r) (hover : r.2.1.Oversized) :
    ∃ out, r.1.getLast? = some (.tooLarge, out) := by
  obtain ⟨hwait, -⟩ | ⟨-, -, hlast, -⟩ := h.reader
  · exact absurd hover hwait.not_oversizedReader
  · exact hlast

/-- A length above the maximum is refused as soon as it has been read, after the payloads. -/
theorem refused_readFrames (hread : Streams read pending)
    (hpayloads : ∀ p ∈ payloads, p.length ≤ (initFrameReader maxFrame).maxFrame)
    (habove : (initFrameReader maxFrame).maxFrame < len) (hlen : len < 4294967296)
    (hstream : pending t = framesBytes payloads ++ (encodeBE32 len ++ rest)) (n : Nat) :
    Refused read pending payloads rest t n (readFrames read n (initFrameReader maxFrame) t) := by
  have hrun := run_readFrames hread maxFrame t n
  have hdecode : decodeBE32 (encodeBE32 len) = len := by
    have h32 := decodeBE32_encodeBE32 hlen []
    rwa [append_nil] at h32
  have htail : NoFrame (initFrameReader maxFrame).maxFrame (encodeBE32 len ++ rest) :=
    noFrame_oversized rfl (by rw [hdecode]; exact habove) (Nat.lt_trans habove hlen) rest
  have hover := oversized_of_short hread hpayloads habove hlen htail hstream
  have hdone : ∀ n, Exhausted pending (readFrames read n (initFrameReader maxFrame) t) →
      (readFrames read n (initFrameReader maxFrame) t).2.1.Oversized := by
    rintro n (hover' | ⟨-, hpending⟩)
    · exact hover'
    · exact hover n (by rw [hpending]; exact Nat.zero_le _)
  obtain ⟨left, hleft, -⟩ := hrun.rest hpayloads htail hstream
  refine ⟨hrun.statuses, ⟨left, hleft.symm⟩, fun hshort => hrun.reported (hover n hshort),
    fun hready => ?_, fun waits hw => ?_⟩
  · obtain ⟨htake, hend⟩ := delivered_take hpayloads htail hstream hread hready (n := n)
    exact ⟨htake, fun hn => hrun.reported (hdone n (hend hn))⟩
  · refine (done_or_counted hread hw _ (fun n hn => ?_) hdone).imp_left hrun.reported
    rw [readFrames, tryReadFrame_oversized hn]
    exact hn.again

end Refused

end Lossless

/-- Frames written through any transport and read through any other arrive as they were written,
and a length above the maximum is refused after the frames before it. -/
theorem framing_lossless {σ : Type} {write : WriteFn σ UInt8} {written : σ → List UInt8}
    (hwrite : Accepts write written) {read : ReadFn τ UInt8} {pending : τ → List UInt8}
    (hread : Streams read pending) (maxFrame : Nat) (payloads : List (List UInt8))
    (hpayloads : ∀ p ∈ payloads, p.length ≤ (initFrameReader maxFrame).maxFrame) :
    (∀ rounds, (∀ p ∈ payloads, p.length + 4 ≤ rounds) → ∀ s, ∃ s',
      writeFrames write rounds payloads s = some (true, s') ∧
        ∀ t, written s' = written s ++ pending t → ∀ n,
          Lossless read pending payloads t n (readFrames read n (initFrameReader maxFrame) t)) ∧
      ∀ len rest t, (initFrameReader maxFrame).maxFrame < len → len < 4294967296 →
        pending t = framesBytes payloads ++ (encodeBE32 len ++ rest) → ∀ n,
          Refused read pending payloads rest t n
            (readFrames read n (initFrameReader maxFrame) t) := by
  refine ⟨fun rounds hrounds s => ?_, fun len rest t habove hlen hstream n => ?_⟩
  · have hlimit := initFrameReader_maxFrame maxFrame
    obtain ⟨s', hall, hwritten⟩ := writeFrames_written hwrite
      (fun p hp => Nat.le_trans (hpayloads p hp) (by omega)) hrounds s
    refine ⟨s', hall, fun t ht n => lossless_readFrames hread hpayloads ?_ n⟩
    exact append_cancel_left (ht.symm.trans hwritten)
  · exact refused_readFrames hread hpayloads habove hlen hstream n

/-- Three payloads, one of them empty, in pieces of the sizes that two schedules give; one read
blocks, so four calls deliver all of them. -/
theorem framing_lossless_scheduled : ∃ s', writeFrames writeScheduled 6 [[1, 2], [], [3]]
      ([], [0, 1, 7]) = some (true, s') ∧
    (∀ n, Lossless readScheduled Prod.fst [[1, 2], [], [3]]
      (framesBytes [[1, 2], [], [3]], [1, 0, 3]) n (readFrames readScheduled n
        (initFrameReader 2) (framesBytes [[1, 2], [], [3]], [1, 0, 3]))) ∧
    delivered (readFrames readScheduled 4 (initFrameReader 2)
      (framesBytes [[1, 2], [], [3]], [1, 0, 3])).1 = [[1, 2], [], [3]] := by
  obtain ⟨s', hwritten, hread⟩ := (framing_lossless accepts_writeScheduled streams_readScheduled 2
    [[1, 2], [], [3]] (by decide)).1 6 (by decide) ([], [0, 1, 7])
  have hbytes : writeFrames writeScheduled 6 [[1, 2], [], [3]] (([] : List UInt8), [0, 1, 7]) =
    some (true, (framesBytes [[1, 2], [], [3]], [])) := by decide
  have hsame : s' = (framesBytes [[1, 2], [], [3]], []) := by
    rw [hbytes] at hwritten
    injection hwritten with hpair
    exact (Prod.mk.inj hpair).2.symm
  have hlossless := hread (framesBytes [[1, 2], [], [3]], [1, 0, 3]) (by rw [hsame]; rfl)
  refine ⟨s', hwritten, hlossless, ?_⟩
  obtain hall | hcount := (hlossless 4).resumed _ waits_readScheduled
  · exact hall
  · obtain ⟨rest, hrest⟩ := (hlossless 4).inOrder
    have hlength := congrArg List.length hrest
    have hone : ([1, 0, 3] : List Nat).count 0 = 1 := rfl
    rw [length_append, length_cons, length_cons, length_singleton] at hlength
    obtain rfl : rest = [] := length_eq_zero_iff.mp (by simp only [hone] at hcount; omega)
    rwa [append_nil] at hrest

end Mx.Rpc
