import Mx.Http2.Conn

/-!
# The reader as a machine

`ProcessReadBuf` is an incremental machine over the bytes it has not read: the preface, then
headers and payloads in turn. It gives up on a bad preface and on an oversized frame.
-/

namespace Mx.Http2

open Mx.Core List

variable {σ : Type}

/-! ## What the bytes decide -/

/-- What the reader makes of its buffer when it waits for the preface. -/
def lookPreface (r : Reader σ) (b : List UInt8) : Look (Reader σ) :=
  if b.length < prefaceLen then .wait
  else if checkPreface (b.take prefaceLen) then
    .read { r with proto := acceptPreface r.proto } prefaceLen
  else .reject { r with proto := sendGoaway r.proto errProtocol }

/-- What the reader makes of its buffer when it has no header. -/
def lookHeader (r : Reader σ) (b : List UInt8) : Look (Reader σ) :=
  if b.length < frameHeaderSize then .wait
  else match decodeHeader (b.take frameHeaderSize) with
    | none => .reject { r with proto := sendGoaway r.proto errProtocol }
    | some hdr =>
      if hdr.length > r.proto.localSettings.maxFrameSize then
        .reject { r with curHeader := hdr, proto := sendGoaway r.proto errFrameSize }
      else .read { r with curHeader := hdr, haveHeader := true } 0

/-- What the reader makes of its buffer when it has a header. -/
def lookPayload (h : Handler σ) (r : Reader σ) (b : List UInt8) : Look (Reader σ) :=
  if b.length < frameHeaderSize + r.curHeader.length then .wait
  else .read
    { r with
      proto := h.processFrame r.curHeader
        ((b.drop frameHeaderSize).take r.curHeader.length) r.proto
      haveHeader := false }
    (frameHeaderSize + r.curHeader.length)

/-- What the reader makes of the front of its buffer. -/
def lookReader (h : Handler σ) (r : Reader σ) (b : List UInt8) : Look (Reader σ) :=
  if r.proto.phase = cpPreface then lookPreface r b
  else if r.proto.phase ≥ cpClosed then .wait
  else if r.haveHeader then lookPayload h r b
  else lookHeader r b

variable {r : Reader σ}

theorem lookReader_preface (h : Handler σ) (hphase : r.proto.phase = cpPreface)
    (b : List UInt8) : lookReader h r b = lookPreface r b := if_pos hphase

theorem lookReader_closed (h : Handler σ) (hphase : r.proto.phase ≠ cpPreface)
    (hclosed : r.proto.phase ≥ cpClosed) (b : List UInt8) : lookReader h r b = .wait := by
  rw [lookReader, if_neg hphase, if_pos hclosed]

theorem lookReader_payload (h : Handler σ) (hphase : r.proto.phase ≠ cpPreface)
    (hclosed : ¬ r.proto.phase ≥ cpClosed) (hhave : r.haveHeader = true) (b : List UInt8) :
    lookReader h r b = lookPayload h r b := by
  rw [lookReader, if_neg hphase, if_neg hclosed, if_pos hhave]

theorem lookReader_header (h : Handler σ) (hphase : r.proto.phase ≠ cpPreface)
    (hclosed : ¬ r.proto.phase ≥ cpClosed) (hhave : ¬ r.haveHeader = true) (b : List UInt8) :
    lookReader h r b = lookHeader r b := by
  rw [lookReader, if_neg hphase, if_neg hclosed, if_neg hhave]

variable {b : List UInt8}

theorem lookPreface_append (e : List UInt8)
    (hlook : lookPreface r b ≠ .wait) : lookPreface r (b ++ e) = lookPreface r b := by
  have hlong : ¬ b.length < prefaceLen := fun hshort => hlook (if_pos hshort)
  have hlong' : ¬ (b ++ e).length < prefaceLen := by
    rw [length_append]
    omega
  rw [lookPreface, lookPreface, if_neg hlong, if_neg hlong', take_append_of_le_length (by omega)]

theorem lookHeader_append (e : List UInt8)
    (hlook : lookHeader r b ≠ .wait) : lookHeader r (b ++ e) = lookHeader r b := by
  have hlong : ¬ b.length < frameHeaderSize := fun hshort => hlook (if_pos hshort)
  have hlong' : ¬ (b ++ e).length < frameHeaderSize := by
    rw [length_append]
    omega
  rw [lookHeader, lookHeader, if_neg hlong, if_neg hlong', take_append_of_le_length (by omega)]

variable {h : Handler σ}

theorem lookPayload_append (e : List UInt8)
    (hlook : lookPayload h r b ≠ .wait) : lookPayload h r (b ++ e) = lookPayload h r b := by
  have hlong : ¬ b.length < frameHeaderSize + r.curHeader.length :=
    fun hshort => hlook (if_pos hshort)
  have hlong' : ¬ (b ++ e).length < frameHeaderSize + r.curHeader.length := by
    rw [length_append]
    omega
  have htake : ((b ++ e).drop frameHeaderSize).take r.curHeader.length =
      (b.drop frameHeaderSize).take r.curHeader.length := by
    rw [drop_append_of_le_length (by omega), take_append_of_le_length (by rw [length_drop]; omega)]
  rw [lookPayload, lookPayload, if_neg hlong, if_neg hlong', htake]

theorem lookReader_append (e : List UInt8)
    (hlook : lookReader h r b ≠ .wait) : lookReader h r (b ++ e) = lookReader h r b := by
  by_cases hphase : r.proto.phase = cpPreface
  · rw [lookReader_preface h hphase] at hlook ⊢
    rw [lookReader_preface h hphase]
    exact lookPreface_append e hlook
  · by_cases hclosed : r.proto.phase ≥ cpClosed
    · exact absurd (lookReader_closed h hphase hclosed b) hlook
    · by_cases hhave : r.haveHeader = true
      · rw [lookReader_payload h hphase hclosed hhave] at hlook ⊢
        rw [lookReader_payload h hphase hclosed hhave]
        exact lookPayload_append e hlook
      · rw [lookReader_header h hphase hclosed hhave] at hlook ⊢
        rw [lookReader_header h hphase hclosed hhave]
        exact lookHeader_append e hlook

/-- What a step of the reader can be: the preface, a header or a whole frame. -/
theorem lookReader_cases {t : Reader σ} {n : Nat} (hlook : lookReader h r b = .read t n) :
    (r.proto.phase = cpPreface ∧ checkPreface (b.take prefaceLen) = true ∧
      t = { r with proto := acceptPreface r.proto } ∧ n = prefaceLen ∧ prefaceLen ≤ b.length) ∨
    (r.proto.phase ≠ cpPreface ∧ ¬ r.proto.phase ≥ cpClosed ∧ r.haveHeader = false ∧
      (∃ hdr, decodeHeader (b.take frameHeaderSize) = some hdr ∧
        hdr.length ≤ r.proto.localSettings.maxFrameSize ∧
        t = { r with curHeader := hdr, haveHeader := true }) ∧ n = 0) ∨
    (r.proto.phase ≠ cpPreface ∧ ¬ r.proto.phase ≥ cpClosed ∧ r.haveHeader = true ∧
      (∃ payload, t =
        { r with proto := h.processFrame r.curHeader payload r.proto, haveHeader := false }) ∧
      n = frameHeaderSize + r.curHeader.length ∧ n ≤ b.length) := by
  unfold lookReader at hlook
  split at hlook
  case isTrue hphase =>
    unfold lookPreface at hlook
    split at hlook
    · cases hlook
    · split at hlook
      case isTrue hcheck =>
        cases hlook
        exact .inl ⟨hphase, hcheck, rfl, rfl, by omega⟩
      · cases hlook
  case isFalse hphase =>
    split at hlook
    · cases hlook
    case isFalse hclosed =>
      split at hlook
      case isTrue hhave =>
        unfold lookPayload at hlook
        split at hlook <;> cases hlook
        exact .inr (.inr ⟨hphase, hclosed, hhave, ⟨_, rfl⟩, rfl, by omega⟩)
      case isFalse hhave =>
        unfold lookHeader at hlook
        split at hlook
        · cases hlook
        · split at hlook
          · cases hlook
          case h_2 hdr hdecode =>
            split at hlook
            · cases hlook
            case isFalse hsmall =>
              cases hlook
              exact .inr (.inl ⟨hphase, hclosed, by simpa using hhave,
                ⟨hdr, hdecode, by omega, rfl⟩, rfl⟩)

theorem lookReader_le {t : Reader σ} {n : Nat}
    (hlook : lookReader h r b = .read t n) : n ≤ b.length := by
  obtain ⟨-, -, -, rfl, hle⟩ | ⟨-, -, -, -, rfl⟩ | ⟨-, -, -, -, -, hle⟩ := lookReader_cases hlook
  · exact hle
  · exact Nat.zero_le _
  · exact hle

/-- The reader. -/
def reader (h : Handler σ) : Incremental (Reader σ) UInt8 where
  look := lookReader h
  count_le := lookReader_le
  look_append := lookReader_append

/-- The reader has done with one connection all it can, and made the other of it. -/
def Reads (h : Handler σ) (c c' : Conn σ) : Prop :=
  ∃ t, (reader h).Settles c.toReader c.readBuf.bytes t c'.readBuf.bytes ∧
    c'.toReader = ((reader h).look t c'.readBuf.bytes).after t

/-! ## The code is the machine -/

@[simp] theorem shiftBuf_bytes (b : Buf) (n : Nat) : (shiftBuf b n).bytes = b.bytes.drop n := by
  unfold shiftBuf
  split
  · rw [drop_eq_nil_of_le (by omega)]
    rfl
  · rfl

variable {c : Conn σ}

theorem Conn.ext' {c' : Conn σ} (hreader : c.toReader = c'.toReader)
    (hbytes : c.readBuf.bytes = c'.readBuf.bytes) : c = c' := by
  obtain ⟨r, ⟨bytes, _⟩⟩ := c
  obtain ⟨r', ⟨bytes', _⟩⟩ := c'
  cases hreader
  cases hbytes
  rfl

/-- The reading ends where the bytes do not decide. -/
theorem Reads.wait (hlook : lookReader h c.toReader c.readBuf.bytes = .wait) : Reads h c c := by
  refine ⟨c.toReader, .done fun t n hread => ?_, ?_⟩
  · exact nomatch hlook.symm.trans hread
  · rw [show (reader h).look c.toReader c.readBuf.bytes = .wait from hlook]
    rfl

/-- The reading ends where the reader gives up. -/
theorem Reads.reject (hlook : lookReader h c.toReader c.readBuf.bytes = .reject r) :
    Reads h c { c with toReader := r } := by
  refine ⟨c.toReader, .done fun t n hread => ?_, ?_⟩
  · exact nomatch hlook.symm.trans hread
  · rw [show (reader h).look c.toReader c.readBuf.bytes = .reject r from hlook]
    rfl

/-- A look that reads is one step of the reading. -/
theorem Reads.step {h : Handler σ} {c c₁ c' : Conn σ} {n : Nat} (hrest : Reads h c₁ c')
    (hlook : lookReader h c.toReader c.readBuf.bytes = .read c₁.toReader n)
    (hbytes : c₁.readBuf.bytes = c.readBuf.bytes.drop n) : Reads h c c' := by
  obtain ⟨t, hsettle, hreader⟩ := hrest
  rw [hbytes] at hsettle
  exact ⟨t, .step hlook hsettle, hreader⟩

theorem Reads.unique {c₁ c₂ : Conn σ} (h₁ : Reads h c c₁) (h₂ : Reads h c c₂) : c₁ = c₂ := by
  obtain ⟨t, hsettle, hreader⟩ := h₁
  obtain ⟨t', hsettle', hreader'⟩ := h₂
  obtain ⟨rfl, hbytes⟩ := hsettle.unique hsettle'
  refine Conn.ext' ?_ hbytes
  rw [hreader, hreader', hbytes]

/-- The loop of `ProcessReadBuf` reads all it can when it has as many rounds as bytes. -/
theorem processFrames_reads {fuel : Nat}
    (hphase : c.proto.phase ≠ cpPreface) (hfuel : c.readBuf.bytes.length < fuel) :
    Reads h c (processFrames h fuel c) := by
  induction fuel generalizing c with
  | zero => omega
  | succ fuel ih =>
    have hframe : ∀ c₁ : Conn σ, c₁.proto.phase ≠ cpPreface → ¬ c₁.proto.phase ≥ cpClosed →
        c₁.haveHeader = true → c₁.readBuf.bytes.length < fuel + 1 →
        Reads h c₁ (if c₁.readBuf.bytes.length < frameHeaderSize + c₁.curHeader.length then c₁
          else processFrames h fuel (consumeFrame h c₁)) := by
      intro c₁ hphase₁ hclosed₁ hhave₁ hlength₁
      have hlook := lookReader_payload h hphase₁ hclosed₁ hhave₁ c₁.readBuf.bytes
      split
      case isTrue hshort => exact .wait (hlook.trans (if_pos hshort))
      case isFalse hlong =>
        have hfuel₁ : (consumeFrame h c₁).readBuf.bytes.length < fuel := by
          rw [consumeFrame, shiftBuf_bytes, length_drop]
          have hsize : frameHeaderSize = 9 := rfl
          omega
        have hrest := ih (c := consumeFrame h c₁) (h.phase_ne _ _ _ hphase₁) hfuel₁
        exact hrest.step (hlook.trans (if_neg hlong)) (shiftBuf_bytes _ _)
    rw [processFrames]
    split
    case isTrue hclosed => exact .wait (lookReader_closed h hphase hclosed _)
    case isFalse hclosed =>
      rw [parseHeader]
      by_cases hhave : c.haveHeader = true
      · rw [if_pos hhave]
        exact hframe c hphase hclosed hhave hfuel
      · rw [if_neg hhave]
        have hlook := lookReader_header h hphase hclosed hhave c.readBuf.bytes
        unfold lookHeader at hlook
        by_cases hshort : c.readBuf.bytes.length < frameHeaderSize
        · rw [if_pos hshort] at hlook ⊢
          exact .wait hlook
        · rw [if_neg hshort] at hlook ⊢
          cases hdecode : decodeHeader (c.readBuf.bytes.take frameHeaderSize) with
          | none =>
            rw [hdecode] at hlook
            exact .reject hlook
          | some hdr =>
            rw [hdecode] at hlook
            dsimp only at hlook ⊢
            by_cases hlarge : hdr.length > c.proto.localSettings.maxFrameSize
            · rw [if_pos hlarge] at hlook ⊢
              exact .reject hlook
            · rw [if_neg hlarge] at hlook ⊢
              have hrest := hframe { c with curHeader := hdr, haveHeader := true } hphase hclosed
                rfl hfuel
              exact hrest.step hlook rfl

/-- `ProcessReadBuf` does what the machine does. -/
theorem processReadBuf_reads (h : Handler σ) (c : Conn σ) : Reads h c (processReadBuf h c) := by
  rw [processReadBuf]
  by_cases hphase : c.proto.phase = cpPreface
  · rw [if_pos hphase]
    have hlook := lookReader_preface h hphase c.readBuf.bytes
    unfold lookPreface at hlook
    by_cases hshort : c.readBuf.bytes.length < prefaceLen
    · rw [if_pos hshort] at hlook ⊢
      exact .wait hlook
    · rw [if_neg hshort] at hlook ⊢
      cases hcheck : checkPreface (c.readBuf.bytes.take prefaceLen) with
      | false =>
        rw [hcheck] at hlook
        exact .reject hlook
      | true =>
        rw [hcheck] at hlook
        have hsettings : cpSettings ≠ cpPreface := by decide
        have hrest := processFrames_reads (h := h)
          (c := { c with
            proto := acceptPreface c.proto
            readBuf := shiftBuf c.readBuf prefaceLen }) hsettings (Nat.lt_succ_self _)
        exact hrest.step hlook (shiftBuf_bytes _ _)
  · rw [if_neg hphase]
    exact processFrames_reads hphase (Nat.lt_succ_self _)

variable {chunk : List UInt8}

/-- The bytes that are in the buffer after a chunk is fed. -/
theorem connFeedBytes_bytes (hfits : c.readBuf.bytes.length + chunk.length ≤ maxBufCap) :
    (connFeedBytes c chunk).readBuf.bytes = c.readBuf.bytes ++ chunk :=
  (Buf.appendView_of_le hfits).1

/-- A chunk that fits is fed to the machine. -/
theorem feed_feeds (h : Handler σ) (hfits : c.readBuf.bytes.length + chunk.length ≤ maxBufCap) :
    (reader h).Feeds c.toReader c.readBuf.bytes chunk (feed h c chunk).toReader
      (feed h c chunk).readBuf.bytes := by
  obtain ⟨t, hsettle, hreader⟩ := processReadBuf_reads h (connFeedBytes c chunk)
  rw [connFeedBytes_bytes hfits] at hsettle
  exact ⟨t, hsettle, hreader⟩

theorem feed_length_le (h : Handler σ) (hfits : c.readBuf.bytes.length + chunk.length ≤ maxBufCap) :
    (feed h c chunk).readBuf.bytes.length ≤ c.readBuf.bytes.length + chunk.length := by
  obtain ⟨t, hsettle, -⟩ := feed_feeds h hfits
  refine hsettle.invariant (P := fun _ b => b.length ≤ c.readBuf.bytes.length + chunk.length) ?_ ?_
  · intro s b t n hle _
    rw [length_drop]
    omega
  · exact Nat.le_of_eq length_append

/-- Chunks that fit together are fed to the machine one after another. -/
theorem feedAll_feedsAll (h : Handler σ) {chunks : List (List UInt8)}
    (hfits : c.readBuf.bytes.length + chunks.flatten.length ≤ maxBufCap) :
    (reader h).FeedsAll c.toReader c.readBuf.bytes chunks (feedAll h c chunks).toReader
      (feedAll h c chunks).readBuf.bytes := by
  induction chunks generalizing c with
  | nil => exact .nil
  | cons chunk chunks ih =>
    rw [flatten_cons, length_append] at hfits
    have hfirst : c.readBuf.bytes.length + chunk.length ≤ maxBufCap := by omega
    have hlength := feed_length_le h hfirst
    exact .cons (feed_feeds h hfirst) (ih (c := feed h c chunk) (by omega))

end Mx.Http2
