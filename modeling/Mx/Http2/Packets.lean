import Mx.Http2.Reader

/-!
# Packet boundaries

The chunks of an input should be read like one. When the reader gives up on a bad preface or an
oversized frame, it leaves the bytes in the buffer and the connection below `CpClosed`, so the next
chunk makes it read them once more: a second GOAWAY, or the bad preface as if it were a frame.
-/

namespace Mx.Http2

open Mx.Core List

variable {σ : Type}

/-- A connection as `ConnCreateTest` makes it. -/
structure Fresh (c : Conn σ) : Prop where
  phase : c.proto.phase = cpPreface
  haveHeader : c.haveHeader = false
  readBuf : c.readBuf.bytes = []
  writeBuf : c.proto.writeBuf.bytes = []

/-- Fed in chunks, the connection is as if it had been fed all the bytes at once. -/
def Insensitive (h : Handler σ) (c : Conn σ) (chunks : List (List UInt8)) : Prop :=
  feedAll h c chunks = feed h c chunks.flatten

/-- Frames among which one is longer than the server allows. -/
inductive Oversized (maxFrameSize : Nat) : List UInt8 → Prop where
  | here {b : List UInt8} {hdr : FrameHeader}
      (header : decodeHeader (b.take frameHeaderSize) = some hdr)
      (large : maxFrameSize < hdr.length) : Oversized maxFrameSize b
  | later {b : List UInt8} {hdr : FrameHeader}
      (header : decodeHeader (b.take frameHeaderSize) = some hdr)
      (small : hdr.length ≤ maxFrameSize) (whole : frameHeaderSize + hdr.length ≤ b.length)
      (rest : Oversized maxFrameSize (b.drop (frameHeaderSize + hdr.length))) :
      Oversized maxFrameSize b

/-- Bytes that do not start with the preface, or go on with an oversized frame. -/
def Malformed (maxFrameSize : Nat) (b : List UInt8) : Prop :=
  prefaceLen ≤ b.length ∧
    (checkPreface (b.take prefaceLen) = false ∨ Oversized maxFrameSize (b.drop prefaceLen))

/-- Where the input may be cut: what comes before the last chunk is not malformed, or no answer to
it has room. An input that is larger than the buffer is lost as a whole, so then no chunk of it may
be taken. -/
def CutSafely (h : Handler σ) (c : Conn σ) (chunks : List (List UInt8)) : Prop :=
  if chunks.flatten.length ≤ maxBufCap then
    ¬ Malformed c.proto.localSettings.maxFrameSize chunks.dropLast.flatten ∨
      (feed h c chunks.dropLast.flatten).proto.writeBuf.bytes.length = maxBufCap
  else ∀ chunk ∈ chunks, chunk = [] ∨ maxBufCap < chunk.length

/-! ## When the reader gives up -/

variable {h : Handler σ} {r : Reader σ} {b : List UInt8}

/-- What giving up can be: a bad preface or an oversized frame. -/
theorem lookReader_reject {u : Reader σ} (hlook : lookReader h r b = .reject u) :
    (r.proto.phase = cpPreface ∧ prefaceLen ≤ b.length ∧
      checkPreface (b.take prefaceLen) = false ∧
      u = { r with proto := sendGoaway r.proto errProtocol }) ∨
    (r.proto.phase ≠ cpPreface ∧ r.haveHeader = false ∧
      ∃ hdr, decodeHeader (b.take frameHeaderSize) = some hdr ∧
        r.proto.localSettings.maxFrameSize < hdr.length ∧
        u = { r with curHeader := hdr, proto := sendGoaway r.proto errFrameSize }) := by
  unfold lookReader at hlook
  split at hlook
  case isTrue hphase =>
    unfold lookPreface at hlook
    split at hlook
    · cases hlook
    · split at hlook
      · cases hlook
      case isFalse hcheck =>
        cases hlook
        exact .inl ⟨hphase, by omega, by simpa using hcheck, rfl⟩
  case isFalse hphase =>
    split at hlook
    · cases hlook
    · split at hlook
      · unfold lookPayload at hlook
        split at hlook <;> cases hlook
      case isFalse hhave =>
        unfold lookHeader at hlook
        split at hlook
        · cases hlook
        case isFalse hlong =>
          split at hlook
          case h_1 hnone =>
            have hlength : ¬ (b.take frameHeaderSize).length < frameHeaderSize := by
              rw [length_take]
              omega
            rw [decodeHeader, if_neg hlength] at hnone
            cases hnone
          case h_2 hdr hsome =>
            split at hlook
            case isTrue hlarge =>
              cases hlook
              exact .inr ⟨hphase, by simpa using hhave, hdr, hsome, hlarge, rfl⟩
            · cases hlook

theorem decodeHeader_isSome (hlong : frameHeaderSize ≤ b.length) :
    ∃ hdr, decodeHeader (b.take frameHeaderSize) = some hdr := by
  have hlength : ¬ (b.take frameHeaderSize).length < frameHeaderSize := by
    rw [length_take]
    omega
  exact ⟨_, by rw [decodeHeader, if_neg hlength]⟩

variable {hdr : FrameHeader}

theorem length_of_decodeHeader
    (hdecode : decodeHeader (b.take frameHeaderSize) = some hdr) : frameHeaderSize ≤ b.length := by
  by_contra hshort
  rw [decodeHeader, if_pos (by rw [length_take]; omega)] at hdecode
  cases hdecode

theorem lookHeader_of_some (hdecode : decodeHeader (b.take frameHeaderSize) = some hdr) :
    lookHeader r b =
      if hdr.length > r.proto.localSettings.maxFrameSize then
        .reject { r with curHeader := hdr, proto := sendGoaway r.proto errFrameSize }
      else .read { r with curHeader := hdr, haveHeader := true } 0 := by
  have hlong := length_of_decodeHeader hdecode
  rw [lookHeader, if_neg (by omega), hdecode]

variable {t : Reader σ}

/-- A reader that gives up has an oversized frame before it, or one that it is in. -/
theorem oversized_of_reject {u : Reader σ} {q : List UInt8}
    (hsettle : (reader h).Settles r b t q) (hreject : lookReader h t q = .reject u)
    (hphase : r.proto.phase ≠ cpPreface) (hclosed : r.proto.phase < cpClosed)
    (hcur : r.haveHeader = true → decodeHeader (b.take frameHeaderSize) = some r.curHeader ∧
      r.curHeader.length ≤ r.proto.localSettings.maxFrameSize) :
    Oversized r.proto.localSettings.maxFrameSize b := by
  induction hsettle with
  | done _ =>
    obtain ⟨hpre, -⟩ | ⟨-, -, hdr, hdecode, hlarge, -⟩ := lookReader_reject hreject
    · exact absurd hpre hphase
    · exact .here hdecode hlarge
  | step hread _ ih =>
    obtain ⟨hpre, -⟩ | ⟨-, -, -, ⟨hdr, hdecode, hsmall, rfl⟩, rfl⟩ |
      ⟨-, -, hhave, ⟨payload, rfl⟩, rfl, hle⟩ := lookReader_cases hread
    · exact absurd hpre hphase
    · exact ih hreject hphase hclosed fun _ => ⟨hdecode, hsmall⟩
    · obtain ⟨hdecode, hsmall⟩ := hcur hhave
      have hrest := ih hreject (h.phase_ne _ _ _ hphase) (h.phase_lt _ _ _ hclosed) nofun
      rw [h.localSettings] at hrest
      exact .later hdecode hsmall hle hrest

/-- A reader between two frames gives up when one of the frames before it is oversized. -/
theorem rejects_of_oversized {maxFrameSize : Nat} (hover : Oversized maxFrameSize b)
    (hmax : r.proto.localSettings.maxFrameSize = maxFrameSize)
    (hphase : r.proto.phase ≠ cpPreface) (hclosed : r.proto.phase < cpClosed)
    (hhave : r.haveHeader = false) : (reader h).Rejects r b := by
  induction hover generalizing r with
  | @here b hdr hdecode hlarge =>
    have hlook := lookReader_header h hphase (by omega) (by simp [hhave]) b
    rw [lookHeader_of_some hdecode, if_pos (by omega)] at hlook
    exact .now hlook
  | @later b hdr hdecode hsmall hwhole _ ih =>
    have hlook := lookReader_header h hphase (by omega) (by simp [hhave]) b
    rw [lookHeader_of_some hdecode, if_neg (by omega)] at hlook
    have hnext := lookReader_payload h (r := { r with curHeader := hdr, haveHeader := true }) hphase
      (Nat.not_le.mpr hclosed) rfl b
    rw [lookPayload, if_neg (Nat.not_lt.mpr hwhole)] at hnext
    refine .step hlook
      (.step hnext (ih ?_ (h.phase_ne _ _ _ hphase) (h.phase_lt _ _ _ hclosed) rfl))
    exact (congrArg Settings.maxFrameSize (h.localSettings _ _ _)).trans hmax

/-- A new reader gives up exactly on malformed bytes. -/
theorem rejects_iff_malformed (h : Handler σ) (hphase : r.proto.phase = cpPreface)
    (hhave : r.haveHeader = false) (b : List UInt8) :
    (reader h).Rejects r b ↔ Malformed r.proto.localSettings.maxFrameSize b := by
  have hsettings : cpSettings ≠ cpPreface := by decide
  have hopen : cpSettings < cpClosed := by decide
  constructor
  · rintro ⟨t, q, u, hsettle, hreject⟩
    cases hsettle with
    | done _ =>
      obtain ⟨-, hlong, hbad, -⟩ | ⟨hne, -⟩ := lookReader_reject hreject
      · exact ⟨hlong, .inl hbad⟩
      · exact absurd hphase hne
    | step hread hrest =>
      obtain ⟨-, -, rfl, rfl, hlong⟩ | ⟨hne, -⟩ | ⟨hne, -⟩ := lookReader_cases hread
      · have hover := oversized_of_reject hrest hreject hsettings hopen
          fun hhave' => absurd hhave' (by simp [hhave])
        exact ⟨hlong, .inr hover⟩
      · exact absurd hphase hne
      · exact absurd hphase hne
  · rintro ⟨hlong, hbad⟩
    have hlook := lookReader_preface h hphase b
    rw [lookPreface, if_neg (by omega)] at hlook
    cases hcheck : checkPreface (b.take prefaceLen) with
    | false =>
      rw [hcheck] at hlook
      exact .now hlook
    | true =>
      rw [hcheck] at hlook
      have hover := hbad.resolve_left (by simp [hcheck])
      exact .step hlook (rejects_of_oversized hover rfl hsettings hopen hhave)

/-! ## After giving up -/

/-- The bytes of a GOAWAY. -/
def goawayLen : Nat := 17

theorem sendGoaway_length (p : Proto σ) (errorCode : Nat) :
    (sendGoaway p errorCode).writeBuf.bytes.length =
      min maxBufCap (p.writeBuf.bytes.length + goawayLen) := by
  have hfits := p.writeBuf.fits
  have hheader : (headerBytes ⟨8, frameGoaway, 0, 0⟩).length = 9 := rfl
  have hpayload : (wordBytes 128 p.lastPeerStream ++ wordBytes 256 errorCode).length = 8 := rfl
  have hgoaway : goawayLen = 17 := rfl
  rw [sendGoaway, encodeGoaway, Buf.appendBytes_length, encodeHeader, Buf.appendBytes_length,
    hheader, hpayload]
  omega

theorem sendGoaway_of_full {p : Proto σ} (hphase : p.phase = cpGoaway)
    (hsent : p.goawaySent = true) (hfull : p.writeBuf.bytes.length = maxBufCap) (errorCode : Nat) :
    sendGoaway p errorCode = p := by
  obtain ⟨phase, goawaySent, _, lastPeerStream, _, writeBuf, _⟩ := p
  cases hphase
  cases hsent
  have hbuf : encodeGoaway writeBuf lastPeerStream errorCode = writeBuf := by
    rw [encodeGoaway, encodeHeader, Buf.appendBytes_of_full hfull, Buf.appendBytes_of_full hfull]
  rw [sendGoaway, hbuf]
  rfl

/-- The connection has given up on an oversized frame at the front of its buffer, or is going to:
it reads the same header with every chunk. -/
structure Stuck (hdr : FrameHeader) (c : Conn σ) : Prop where
  phase : c.proto.phase = cpGoaway
  haveHeader : c.haveHeader = false
  header : decodeHeader (c.readBuf.bytes.take frameHeaderSize) = some hdr
  large : c.proto.localSettings.maxFrameSize < hdr.length

variable {c : Conn σ} {chunk : List UInt8}

theorem Stuck.feed_eq (h : Handler σ) (hstuck : Stuck hdr c)
    (hfits : c.readBuf.bytes.length + chunk.length ≤ maxBufCap) :
    (feed h c chunk).toReader =
        { c.toReader with curHeader := hdr, proto := sendGoaway c.proto errFrameSize } ∧
      (feed h c chunk).readBuf.bytes = c.readBuf.bytes ++ chunk := by
  have hphase : c.proto.phase ≠ cpPreface := by
    rw [hstuck.phase]
    decide
  have hclosed : ¬ c.proto.phase ≥ cpClosed := by
    rw [hstuck.phase]
    decide
  have hbytes := connFeedBytes_bytes hfits
  have hdecode : decodeHeader ((connFeedBytes c chunk).readBuf.bytes.take frameHeaderSize) =
      some hdr := by
    rw [hbytes, take_append_of_le_length (length_of_decodeHeader hstuck.header)]
    exact hstuck.header
  have hlook := lookReader_header h (r := (connFeedBytes c chunk).toReader) hphase hclosed
    (by simp [connFeedBytes, hstuck.haveHeader]) (connFeedBytes c chunk).readBuf.bytes
  have hlarge : hdr.length > (connFeedBytes c chunk).proto.localSettings.maxFrameSize :=
    hstuck.large
  rw [lookHeader_of_some hdecode, if_pos hlarge] at hlook
  have heq := (processReadBuf_reads h (connFeedBytes c chunk)).unique (.reject hlook)
  rw [feed, heq]
  exact ⟨rfl, hbytes⟩

theorem Stuck.feed (h : Handler σ) (hstuck : Stuck hdr c)
    (hfits : c.readBuf.bytes.length + chunk.length ≤ maxBufCap) :
    Stuck hdr (feed h c chunk) := by
  obtain ⟨hreader, hbytes⟩ := hstuck.feed_eq h hfits
  constructor
  · rw [hreader]
    rfl
  · rw [hreader]
    exact hstuck.haveHeader
  · rw [hbytes, take_append_of_le_length (length_of_decodeHeader hstuck.header)]
    exact hstuck.header
  · rw [hreader]
    exact hstuck.large

variable {chunks : List (List UInt8)}

/-- With a full buffer for its answers, nothing changes but the bytes that are not read. -/
theorem Stuck.feedAll_of_full (h : Handler σ)
    (hstuck : Stuck hdr c) (hcur : c.curHeader = hdr) (hsent : c.proto.goawaySent = true)
    (hfull : c.proto.writeBuf.bytes.length = maxBufCap)
    (hfits : c.readBuf.bytes.length + chunks.flatten.length ≤ maxBufCap) :
    (feedAll h c chunks).toReader = c.toReader ∧
      (feedAll h c chunks).readBuf.bytes = c.readBuf.bytes ++ chunks.flatten := by
  induction chunks generalizing c with
  | nil => exact ⟨rfl, by simp [feedAll]⟩
  | cons chunk chunks ih =>
    rw [flatten_cons, length_append] at hfits
    have hfirst : c.readBuf.bytes.length + chunk.length ≤ maxBufCap := by omega
    obtain ⟨hreader, hbytes⟩ := hstuck.feed_eq h hfirst
    rw [sendGoaway_of_full hstuck.phase hsent hfull, ← hcur] at hreader
    have hsame : (Mx.Http2.feed h c chunk).toReader = c.toReader := hreader
    have hrest := ih (hstuck.feed h hfirst) (by rw [hsame]; exact hcur)
      (by rw [hsame]; exact hsent) (by rw [hsame]; exact hfull)
      (by rw [hbytes, length_append]; omega)
    rw [hsame, hbytes] at hrest
    exact ⟨hrest.1, hrest.2.trans (by rw [flatten_cons, append_assoc])⟩

theorem Stuck.length_le_feedAll (h : Handler σ) (hstuck : Stuck hdr c) (chunks : List (List UInt8))
    (hfits : c.readBuf.bytes.length + chunks.flatten.length ≤ maxBufCap) :
    c.proto.writeBuf.bytes.length ≤ (feedAll h c chunks).proto.writeBuf.bytes.length := by
  induction chunks generalizing c with
  | nil => exact le_rfl
  | cons chunk chunks ih =>
    rw [flatten_cons, length_append] at hfits
    have hfirst : c.readBuf.bytes.length + chunk.length ≤ maxBufCap := by omega
    obtain ⟨hreader, hbytes⟩ := hstuck.feed_eq h hfirst
    have hrest := ih (hstuck.feed h hfirst) (by rw [hbytes, length_append]; omega)
    have hgrow := sendGoaway_length c.proto errFrameSize
    have hcap := c.proto.writeBuf.fits
    rw [hreader] at hrest
    exact Nat.le_trans (by rw [hgrow]; omega) hrest

/-- With room for an answer, there is one more. -/
theorem Stuck.length_lt_feedAll (h : Handler σ)
    (hstuck : Stuck hdr c) (hroom : c.proto.writeBuf.bytes.length < maxBufCap) (hne : chunks ≠ [])
    (hfits : c.readBuf.bytes.length + chunks.flatten.length ≤ maxBufCap) :
    c.proto.writeBuf.bytes.length < (feedAll h c chunks).proto.writeBuf.bytes.length := by
  cases chunks with
  | nil => exact absurd rfl hne
  | cons chunk chunks =>
    rw [flatten_cons, length_append] at hfits
    have hfirst : c.readBuf.bytes.length + chunk.length ≤ maxBufCap := by omega
    obtain ⟨hreader, hbytes⟩ := hstuck.feed_eq h hfirst
    have hrest := (hstuck.feed h hfirst).length_le_feedAll h chunks
      (by rw [hbytes, length_append]; omega)
    have hgrow := sendGoaway_length c.proto errFrameSize
    have hgoaway : goawayLen = 17 := rfl
    rw [hreader] at hrest
    exact Nat.lt_of_lt_of_le (by rw [hgrow]; omega) hrest

/-- The reader has a header or has read some of the bytes, of which there were so many. -/
structure Moved (n : Nat) (r : Reader σ) (b : List UInt8) : Prop where
  phase : r.proto.phase ≠ cpPreface
  length_le : b.length ≤ n
  moved : r.haveHeader = true ∨ b.length < n

theorem Moved.settles {n : Nat} {q : List UInt8}
    (hmoved : Moved n r b) (hsettle : (reader h).Settles r b t q) : Moved n t q := by
  refine hsettle.invariant (P := Moved n) ?_ hmoved
  intro s b t k hs hread
  obtain ⟨hpre, -⟩ | ⟨-, -, -, ⟨hdr, -, -, rfl⟩, rfl⟩ | ⟨-, -, -, ⟨payload, rfl⟩, rfl, hle⟩ :=
    lookReader_cases hread
  · exact absurd hpre hs.phase
  · exact ⟨hs.phase, hs.length_le, .inl rfl⟩
  · have hlength := hs.length_le
    have hsize : frameHeaderSize = 9 := rfl
    refine ⟨h.phase_ne _ _ _ hs.phase, ?_, .inr ?_⟩ <;> rw [length_drop] <;> omega

theorem Moved.after {n : Nat} (hmoved : Moved n r b) : Moved n ((lookReader h r b).after r) b := by
  cases hlook : lookReader h r b with
  | wait => exact hmoved
  | read t k => exact hmoved
  | reject u =>
    have hgoaway : cpGoaway ≠ cpPreface := by decide
    obtain ⟨hpre, -⟩ | ⟨-, -, hdr, -, -, rfl⟩ := lookReader_reject hlook
    · exact absurd hpre hmoved.phase
    · exact ⟨hgoaway, hmoved.length_le, hmoved.moved⟩

theorem Moved.feedAll (h : Handler σ) {n : Nat}
    (hmoved : Moved n c.toReader c.readBuf.bytes) (chunks : List (List UInt8))
    (hfits : c.readBuf.bytes.length + chunks.flatten.length ≤ maxBufCap) :
    Moved (n + chunks.flatten.length) (feedAll h c chunks).toReader
      (feedAll h c chunks).readBuf.bytes := by
  induction chunks generalizing c n with
  | nil => exact hmoved
  | cons chunk chunks ih =>
    rw [flatten_cons, length_append] at hfits ⊢
    have hfirst : c.readBuf.bytes.length + chunk.length ≤ maxBufCap := by omega
    have hlength := feed_length_le h hfirst
    obtain ⟨t, hsettle, hreader⟩ := feed_feeds h hfirst
    have hfed : Moved (n + chunk.length) c.toReader (c.readBuf.bytes ++ chunk) := by
      have hle := hmoved.length_le
      refine ⟨hmoved.phase, by rw [length_append]; omega, hmoved.moved.imp_right ?_⟩
      intro hlt
      rw [length_append]
      omega
    have hstep : Moved (n + chunk.length) (Mx.Http2.feed h c chunk).toReader
        (Mx.Http2.feed h c chunk).readBuf.bytes := by
      rw [hreader]
      exact (hfed.settles hsettle).after
    rw [← Nat.add_assoc]
    exact ih hstep (by omega)

/-- A header that is not too large is taken, whatever it is the start of. -/
theorem moved_feed (h : Handler σ) (hphase : c.proto.phase = cpGoaway)
    (hnone : c.haveHeader = false)
    (hdecode : decodeHeader (c.readBuf.bytes.take frameHeaderSize) = some hdr)
    (hsmall : hdr.length ≤ c.proto.localSettings.maxFrameSize)
    (hfits : c.readBuf.bytes.length + chunk.length ≤ maxBufCap) :
    Moved (c.readBuf.bytes.length + chunk.length) (feed h c chunk).toReader
      (feed h c chunk).readBuf.bytes := by
  obtain ⟨u, hsettle, hu⟩ := feed_feeds h hfits
  have hgoaway : c.proto.phase ≠ cpPreface := by
    rw [hphase]
    decide
  have hlook := lookReader_header h (r := c.toReader) hgoaway
    (by rw [hphase]; decide) (by simp [hnone]) (c.readBuf.bytes ++ chunk)
  have hdecode' : decodeHeader ((c.readBuf.bytes ++ chunk).take frameHeaderSize) = some hdr := by
    rw [take_append_of_le_length (length_of_decodeHeader hdecode)]
    exact hdecode
  rw [lookHeader_of_some hdecode', if_neg (by omega)] at hlook
  rw [hu]
  have hstart : Moved (c.readBuf.bytes.length + chunk.length)
      { c.toReader with curHeader := hdr, haveHeader := true }
      ((c.readBuf.bytes ++ chunk).drop 0) :=
    ⟨hgoaway, Nat.le_of_eq length_append, .inl rfl⟩
  exact (hstart.settles (hsettle.of_read hlook)).after

/-! ## Cuts -/

/-- A reader that still waits for the preface has room for an answer. -/
def Greetable (r : Reader σ) : Prop :=
  r.proto.phase = cpPreface →
    r.haveHeader = false ∧ r.proto.writeBuf.bytes.length + goawayLen < maxBufCap

theorem Greetable.settles {q : List UInt8} (hr : Greetable r)
    (hsettle : (reader h).Settles r b t q) : Greetable t := by
  refine hsettle.invariant (P := fun r _ => Greetable r) ?_ hr
  intro s b t k hs hread
  obtain ⟨-, -, rfl, -⟩ | ⟨hne, -, -, ⟨hdr, -, -, rfl⟩, -⟩ | ⟨hne, -, -, ⟨payload, rfl⟩, -⟩ :=
    lookReader_cases hread
  · exact fun hpre => absurd hpre (by decide : cpSettings ≠ cpPreface)
  · exact fun hpre => absurd hpre hne
  · exact fun hpre => absurd hpre (h.phase_ne _ _ _ hne)

/-- A connection that has given up is not changed by more chunks exactly when its answers have no
room. -/
theorem feedAll_of_reject
    (hreject : lookReader h t c.readBuf.bytes = .reject c.toReader) (ht : Greetable t)
    (hne : chunks ≠ [])
    (hfits : c.readBuf.bytes.length + chunks.flatten.length ≤ maxBufCap) :
    ((feedAll h c chunks).toReader = c.toReader ∧
      (feedAll h c chunks).readBuf.bytes = c.readBuf.bytes ++ chunks.flatten) ↔
      c.proto.writeBuf.bytes.length = maxBufCap := by
  have hcap := c.proto.writeBuf.fits
  obtain ⟨hpre, hlong, -, hc⟩ | ⟨-, hhave, hdr, hdecode, hlarge, hc⟩ := lookReader_reject hreject
  · obtain ⟨hhave, hroom⟩ := ht hpre
    have hlength : c.proto.writeBuf.bytes.length < maxBufCap := by
      rw [hc, sendGoaway_length]
      omega
    have hphase : c.proto.phase = cpGoaway := by
      rw [hc]
      rfl
    have hnone : c.haveHeader = false := by
      rw [hc]
      exact hhave
    obtain ⟨hdr, hdecode⟩ := decodeHeader_isSome (b := c.readBuf.bytes)
      (Nat.le_trans (by decide) hlong)
    refine iff_of_false ?_ (by omega)
    rintro ⟨hreader, hbytes⟩
    by_cases hlarge : c.proto.localSettings.maxFrameSize < hdr.length
    · have hgrow := Stuck.length_lt_feedAll h ⟨hphase, hnone, hdecode, hlarge⟩ hlength hne hfits
      rw [hreader] at hgrow
      omega
    · cases chunks with
      | nil => exact absurd rfl hne
      | cons chunk chunks =>
        rw [flatten_cons, length_append] at hfits
        have hfirst : c.readBuf.bytes.length + chunk.length ≤ maxBufCap := by omega
        have hfed := feed_length_le h hfirst
        have hmoved := moved_feed h hphase hnone hdecode (by omega) hfirst
        have hend := hmoved.feedAll h chunks (by omega)
        rw [show feedAll h (feed h c chunk) chunks = feedAll h c (chunk :: chunks) from rfl,
          hreader, hbytes] at hend
        have hmoved' := hend.moved
        rw [hnone, flatten_cons, length_append, length_append] at hmoved'
        rcases hmoved' with hfalse | hlt
        · cases hfalse
        · omega
  · have hphase : c.proto.phase = cpGoaway := by
      rw [hc]
      rfl
    have hstuck : Stuck hdr c := by
      refine ⟨hphase, ?_, hdecode, ?_⟩
      · rw [hc]
        exact hhave
      · rw [hc]
        exact hlarge
    constructor
    · rintro ⟨hreader, -⟩
      by_contra hne'
      have hgrow := hstuck.length_lt_feedAll h (by omega) hne hfits
      rw [hreader] at hgrow
      omega
    · intro hfull
      exact hstuck.feedAll_of_full h (by rw [hc]) (by rw [hc]; rfl) hfull hfits

/-- What is fed to the machine determines the connection. -/
theorem eq_feed_of_feeds {c' : Conn σ} (hfits : c.readBuf.bytes.length + chunk.length ≤ maxBufCap)
    (hfeeds : (reader h).Feeds c.toReader c.readBuf.bytes chunk c'.toReader c'.readBuf.bytes) :
    c' = feed h c chunk := by
  obtain ⟨hreader, hbytes⟩ := hfeeds.unique (feed_feeds h hfits)
  exact Conn.ext' hreader hbytes

/-- Where the reader has not given up, the next bytes could have come with the last ones. -/
theorem feed_append {rest : List UInt8}
    (hfits : c.readBuf.bytes.length + (chunk ++ rest).length ≤ maxBufCap)
    (hlive : ¬ (reader h).Rejects c.toReader (c.readBuf.bytes ++ chunk)) :
    feed h (feed h c chunk) rest = feed h c (chunk ++ rest) := by
  have hfits' := hfits
  rw [length_append] at hfits'
  have hfirst : c.readBuf.bytes.length + chunk.length ≤ maxBufCap := by omega
  have hlength := feed_length_le h hfirst
  exact eq_feed_of_feeds hfits
    ((feed_feeds h hfirst).append hlive (feed_feeds h (by omega)))

/-- Where it has given up, the next bytes are added to those it does not read. -/
theorem feed_of_reject {u : Reader σ} {q : List UInt8}
    (hfits : c.readBuf.bytes.length + chunk.length ≤ maxBufCap)
    (hsettle : (reader h).Settles c.toReader (c.readBuf.bytes ++ chunk) t q)
    (hreject : lookReader h t q = .reject u) :
    (feed h c chunk).toReader = u ∧ (feed h c chunk).readBuf.bytes = q := by
  obtain ⟨t', hsettle', hreader⟩ := feed_feeds h hfits
  obtain ⟨rfl, hq⟩ := hsettle.unique hsettle'
  rw [← hq, show (reader h).look t q = .reject u from hreject] at hreader
  exact ⟨hreader, hq.symm⟩

theorem length_flatten_dropLast_le (chunks : List (List UInt8)) :
    chunks.dropLast.flatten.length ≤ chunks.flatten.length := by
  induction chunks with
  | nil => exact le_rfl
  | cons chunk chunks ih =>
    cases chunks with
    | nil => exact Nat.zero_le _
    | cons next chunks =>
      rw [dropLast_cons_of_ne_nil (cons_ne_nil _ _), flatten_cons,
        flatten_cons, length_append, length_append]
      omega

/-- Chunks of which the reader gives up on one before the last. -/
theorem feedAll_of_rejects (hlive : ¬ (reader h).Rejects c.toReader c.readBuf.bytes)
    (hrejects : (reader h).Rejects c.toReader (c.readBuf.bytes ++ chunks.dropLast.flatten))
    (hgreet : Greetable c.toReader)
    (hfits : c.readBuf.bytes.length + chunks.flatten.length ≤ maxBufCap) :
    feedAll h c chunks = feed h c chunks.flatten ↔
      (feed h c chunks.dropLast.flatten).proto.writeBuf.bytes.length = maxBufCap := by
  induction chunks generalizing c with
  | nil => exact absurd (by simpa using hrejects) hlive
  | cons chunk chunks ih =>
    cases chunks with
    | nil => exact absurd (by simpa using hrejects) hlive
    | cons next chunks =>
      have hne : next :: chunks ≠ [] := cons_ne_nil _ _
      have hflat : (chunk :: next :: chunks).flatten = chunk ++ (next :: chunks).flatten := rfl
      have hflatLast : (chunk :: next :: chunks).dropLast.flatten =
          chunk ++ (next :: chunks).dropLast.flatten := rfl
      rw [hflatLast] at hrejects
      have hsub : (next :: chunks).dropLast.flatten.length ≤ (next :: chunks).flatten.length :=
        length_flatten_dropLast_le _
      have hbefore := hfits
      rw [hflat, length_append] at hbefore
      have hfirst : c.readBuf.bytes.length + chunk.length ≤ maxBufCap := by omega
      have hlength := feed_length_le h hfirst
      have hall : feedAll h c (chunk :: next :: chunks) =
          feedAll h (feed h c chunk) (next :: chunks) := rfl
      have hlast : c.readBuf.bytes.length +
          (chunk ++ (next :: chunks).dropLast.flatten).length ≤ maxBufCap := by
        rw [length_append]
        omega
      rw [hall, hflat, hflatLast]
      by_cases hgive : (reader h).Rejects c.toReader (c.readBuf.bytes ++ chunk)
      · obtain ⟨t, q, u, hsettle, hreject⟩ := hgive
        obtain ⟨hreader, hbytes⟩ := feed_of_reject hfirst hsettle hreject
        have happend : ∀ rest : List UInt8,
            c.readBuf.bytes.length + (chunk ++ rest).length ≤ maxBufCap →
            (feed h c (chunk ++ rest)).toReader = u ∧
              (feed h c (chunk ++ rest)).readBuf.bytes = q ++ rest := by
          intro rest hrest
          obtain ⟨hsettle', hreject'⟩ := hsettle.append_of_reject hreject rest
          rw [append_assoc] at hsettle'
          exact feed_of_reject hrest hsettle' hreject'
        obtain ⟨hwhole, hwholeBytes⟩ := happend _ (hflat ▸ hfits)
        obtain ⟨hlastReader, -⟩ := happend _ hlast
        rw [hlastReader, ← hreader, ← feedAll_of_reject (h := h) (t := t)
          (by rw [hbytes, hreader]; exact hreject) (hgreet.settles hsettle) hne (by omega)]
        constructor
        · intro heq
          rw [heq, hwhole, hwholeBytes, hreader, hbytes]
          exact ⟨rfl, rfl⟩
        · rintro ⟨hsame, hsameBytes⟩
          refine Conn.ext' ?_ ?_
          · rw [hsame, hreader, hwhole]
          · rw [hsameBytes, hbytes, hwholeBytes]
      · rw [← feed_append (hflat ▸ hfits) hgive, ← feed_append hlast hgive]
        have hsettles := (feed_feeds h hfirst).settles hgive
        refine ih ?_ ?_ (hgreet.settles hsettles) (by omega)
        · intro hrej
          refine hgive ?_
          have hback := (feed_feeds h hfirst).rejects_iff hgive []
          simp only [append_nil] at hback
          exact hback.mp hrej
        · exact ((feed_feeds h hfirst).rejects_iff hgive _).mpr hrejects

/-! ## Inputs that are too large -/

theorem connFeedBytes_of_large
    (hlarge : maxBufCap < c.readBuf.bytes.length + chunk.length) : connFeedBytes c chunk = c := by
  rw [connFeedBytes, Buf.appendView, dif_neg (by omega)]

theorem processReadBuf_of_fresh (h : Handler σ) (hphase : c.proto.phase = cpPreface)
    (hshort : c.readBuf.bytes.length < prefaceLen) : processReadBuf h c = c := by
  rw [processReadBuf, if_pos hphase, if_pos hshort]

/-- A new connection is not changed by a chunk that is empty or larger than the buffer. -/
theorem Fresh.feed_of_lost (h : Handler σ) (hfresh : Fresh c)
    (hlost : chunk = [] ∨ maxBufCap < chunk.length) : feed h c chunk = c := by
  have hsame : connFeedBytes c chunk = c := by
    obtain rfl | hlarge := hlost
    · refine Conn.ext' rfl ?_
      have hcap := c.readBuf.fits
      rw [connFeedBytes_bytes (by simpa using hcap), append_nil]
    · exact connFeedBytes_of_large (by omega)
  rw [feed, hsame]
  exact processReadBuf_of_fresh h hfresh.phase (by rw [hfresh.readBuf]; decide)

/-- Some of the input has been taken. -/
def Begun (c : Conn σ) : Prop := c.proto.phase ≠ cpPreface ∨ c.readBuf.bytes ≠ []

theorem Begun.processReadBuf (h : Handler σ) (hbegun : Begun c) : Begun (processReadBuf h c) := by
  obtain ⟨t, hsettle, hreader⟩ := processReadBuf_reads h c
  have ht : t.proto.phase ≠ cpPreface ∨ (Mx.Http2.processReadBuf h c).readBuf.bytes ≠ [] := by
    refine hsettle.invariant (P := fun (r : Reader σ) b => r.proto.phase ≠ cpPreface ∨ b ≠ [])
      ?_ hbegun
    intro s b t k _ hread
    obtain ⟨-, -, rfl, -⟩ | ⟨hne, -, -, ⟨hdr, -, -, rfl⟩, -⟩ | ⟨hne, -, -, ⟨payload, rfl⟩, -⟩ :=
      lookReader_cases hread
    · exact .inl (by decide : cpSettings ≠ cpPreface)
    · exact .inl hne
    · exact .inl (h.phase_ne _ _ _ hne)
  rw [Begun, hreader]
  change (Look.after t (lookReader h t _)).proto.phase ≠ cpPreface ∨ _
  cases hlook : lookReader h t (Mx.Http2.processReadBuf h c).readBuf.bytes with
  | wait => exact ht
  | read u n => exact ht
  | reject u =>
    have hgoaway : cpGoaway ≠ cpPreface := by decide
    obtain ⟨-, -, -, rfl⟩ | ⟨-, -, hdr, -, -, rfl⟩ := lookReader_reject hlook
    · exact .inl hgoaway
    · exact .inl hgoaway

theorem Begun.feed (h : Handler σ) (hbegun : Begun c) (chunk : List UInt8) :
    Begun (feed h c chunk) := by
  refine Begun.processReadBuf h (hbegun.imp id ?_)
  intro hne
  by_cases hfits : c.readBuf.bytes.length + chunk.length ≤ maxBufCap
  · rw [connFeedBytes_bytes hfits]
    exact append_ne_nil_of_left_ne_nil hne _
  · rw [connFeedBytes_of_large (by omega)]
    exact hne

theorem Begun.feedAll (h : Handler σ) (hbegun : Begun c) (chunks : List (List UInt8)) :
    Begun (feedAll h c chunks) := by
  induction chunks generalizing c with
  | nil => exact hbegun
  | cons chunk chunks ih => exact ih (hbegun.feed h chunk)

/-- A new connection is left as it is exactly when all chunks are lost. -/
theorem Fresh.feedAll_eq_iff (h : Handler σ) (hfresh : Fresh c) (chunks : List (List UInt8)) :
    feedAll h c chunks = c ↔ ∀ chunk ∈ chunks, chunk = [] ∨ maxBufCap < chunk.length := by
  induction chunks with
  | nil => simp [feedAll]
  | cons chunk chunks ih =>
    rw [forall_mem_cons]
    by_cases hlost : chunk = [] ∨ maxBufCap < chunk.length
    · have hall : feedAll h c (chunk :: chunks) = feedAll h (Mx.Http2.feed h c chunk) chunks := rfl
      rw [hall, hfresh.feed_of_lost h hlost, ih]
      exact (and_iff_right hlost).symm
    · refine iff_of_false ?_ fun hboth => hlost hboth.1
      intro heq
      rw [not_or, Nat.not_lt] at hlost
      have hbegun : Begun (connFeedBytes c chunk) := by
        refine .inr ?_
        rw [connFeedBytes_bytes (by rw [hfresh.readBuf]; simpa using hlost.2)]
        exact append_ne_nil_of_right_ne_nil _ hlost.1
      have hend := (Begun.processReadBuf h hbegun).feedAll h chunks
      rw [show Mx.Http2.feedAll h (Mx.Http2.processReadBuf h (connFeedBytes c chunk)) chunks = c
        from heq] at hend
      obtain hphase | hbytes := hend
      · exact hphase hfresh.phase
      · exact hbytes hfresh.readBuf

/-! ## Packet boundaries -/

/-- Chunks are read like one exactly when they are cut safely. -/
theorem insensitive_iff_cutSafely (h : Handler σ) {c : Conn σ} (hfresh : Fresh c)
    (chunks : List (List UInt8)) : Insensitive h c chunks ↔ CutSafely h c chunks := by
  have hlive : ¬ (reader h).Rejects c.toReader c.readBuf.bytes := by
    rw [rejects_iff_malformed h hfresh.phase hfresh.haveHeader, hfresh.readBuf]
    rintro ⟨hlong, -⟩
    exact absurd hlong (by decide)
  have hgreet : Greetable c.toReader := by
    refine fun _ => ⟨hfresh.haveHeader, ?_⟩
    rw [hfresh.writeBuf]
    decide
  rw [Insensitive, CutSafely]
  split
  case isTrue hfits =>
    have hroom : c.readBuf.bytes.length + chunks.flatten.length ≤ maxBufCap := by
      rw [hfresh.readBuf]
      simpa using hfits
    by_cases hbad : Malformed c.proto.localSettings.maxFrameSize chunks.dropLast.flatten
    · rw [or_iff_right (not_not_intro hbad)]
      refine feedAll_of_rejects hlive ?_ hgreet hroom
      rw [rejects_iff_malformed h hfresh.phase hfresh.haveHeader, hfresh.readBuf]
      exact hbad
    · refine iff_of_true ?_ (.inl hbad)
      cases chunks with
      | nil => exact (hfresh.feed_of_lost h (.inl rfl)).symm
      | cons chunk chunks =>
        refine eq_feed_of_feeds hroom
          ((feedAll_feedsAll h hroom).feeds (cons_ne_nil _ _) ?_)
        rw [rejects_iff_malformed h hfresh.phase hfresh.haveHeader, hfresh.readBuf]
        exact hbad
  case isFalse hlarge =>
    rw [hfresh.feed_of_lost h (.inr (Nat.not_le.mp hlarge))]
    exact hfresh.feedAll_eq_iff h chunks

/-- A handler that does nothing, as for a PRIORITY frame. -/
def idleHandler : Handler Unit where
  processFrame _ _ p := p
  phase_ne _ _ _ h := h
  phase_lt _ _ _ h := h
  localSettings _ _ _ := rfl

/-- A connection after `ConnCreateTest`. -/
def newConn : Conn Unit where
  proto :=
    { phase := cpPreface
      goawaySent := false
      prefaceRecvd := false
      lastPeerStream := 0
      localSettings := ⟨4096, 0, 64, 65535, 16384, 4294967295⟩
      writeBuf := Buf.empty
      rest := () }
  haveHeader := false
  curHeader := ⟨0, 0, 0, 0⟩
  readBuf := Buf.empty

/-- A request of HTTP/1.1, of which the last three bytes come later. -/
def oldRequest : List (List UInt8) :=
  [[71, 69, 84, 32, 47, 32, 72, 84, 84, 80, 47, 49, 46, 49, 13, 10, 72, 111, 115, 116, 58, 32, 97,
    13], [10, 13, 10]]

theorem insensitive_iff_cutSafely_oldRequest :
    Fresh newConn ∧
      (Insensitive idleHandler newConn oldRequest ↔ CutSafely idleHandler newConn oldRequest) :=
  have hfresh : Fresh newConn := ⟨rfl, rfl, rfl, rfl⟩
  ⟨hfresh, insensitive_iff_cutSafely idleHandler hfresh oldRequest⟩

/-- It is answered by two GOAWAYs, and by one when it comes in one piece. -/
theorem not_insensitive_oldRequest : ¬ Insensitive idleHandler newConn oldRequest := by
  intro heq
  have hlength := congrArg (fun c : Conn Unit => c.proto.writeBuf.bytes.length) heq
  revert hlength
  decide +kernel

example : goawayLen < maxBufCap := by decide +kernel

end Mx.Http2
