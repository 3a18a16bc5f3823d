import Mx.Http2.Control

/-!
# Control frames there and back

What the encoders append to a buffer that has room for it, and what the decoders read of it.
-/

namespace Mx.Http2

open List

section Words

variable {n top : Nat} {l : List UInt8}

/-- The four bytes of a number are read as the number when its first byte is kept whole. -/
theorem readU32BE_wordBytes (htop : top ≤ 256) (hn : n < top * 16777216) (l : List UInt8) :
    readU32BE ((wordBytes top n).map UInt8.ofNat ++ l) = n := by
  have hread : readU32BE ((wordBytes top n).map UInt8.ofNat ++ l) =
      (UInt8.ofNat (n / 16777216 % top)).toNat * 16777216 +
        (UInt8.ofNat (n / 65536 % 256)).toNat * 65536 +
        (UInt8.ofNat (n / 256 % 256)).toNat * 256 + (UInt8.ofNat (n % 256)).toNat := rfl
  have hfirst : n / 16777216 % top = n / 16777216 :=
    Nat.mod_eq_of_lt (Nat.div_lt_of_lt_mul (by omega))
  rw [hread, hfirst]
  simp only [UInt8.toNat_ofNat']
  omega

/-- Parameters are set one after the other. -/
theorem settingsLoop_parameters {xs : List (Nat × Nat)} (hid : ∀ x ∈ xs, x.1 < 256)
    (hval : ∀ x ∈ xs, x.2 < 4294967296) (s : Settings) :
    settingsLoop xs.length ((xs.flatMap fun x => 0 :: x.1 :: wordBytes 256 x.2).map UInt8.ofNat) s =
      xs.foldl (fun s x => s.set x.1 x.2) s := by
  induction xs generalizing s with
  | nil => rfl
  | cons x xs ih =>
    rw [forall_mem_cons] at hid hval
    obtain ⟨rest, hrest⟩ : ∃ rest, rest = (xs.flatMap fun x =>
      0 :: x.1 :: wordBytes 256 x.2).map UInt8.ofNat := ⟨_, rfl⟩
    have hread := readU32BE_wordBytes (Nat.le_refl 256) hval.1 rest
    have hfirst : (UInt8.ofNat 0).toNat * 256 + (UInt8.ofNat x.1).toNat = x.1 := by
      rw [UInt8.toNat_ofNat', UInt8.toNat_ofNat', Nat.mod_eq_of_lt hid.1]
      exact Nat.zero_add x.1
    rw [foldl_cons, ← ih hid.2 hval.2, flatMap_cons, map_append, ← hrest]
    change settingsLoop xs.length rest (s.set ((UInt8.ofNat 0).toNat * 256 +
      (UInt8.ofNat x.1).toNat) (readU32BE ((wordBytes 256 x.2).map UInt8.ofNat ++ rest))) = _
    rw [hread, hfirst]

end Words

/-! ## Headers -/

/-- The fields of a header fit in their bytes. -/
structure FrameHeader.Fits (hdr : FrameHeader) : Prop where
  length : hdr.length < 16777216
  ftype : hdr.ftype < 256
  flags : hdr.flags < 256
  streamId : hdr.streamId < 2147483648

theorem fits_control {length ftype streamId : Nat} (hlength : length < 16777216)
    (htype : ftype < 256) (hstream : streamId < 2147483648) :
    FrameHeader.Fits ⟨length, ftype, 0, streamId⟩ :=
  ⟨hlength, htype, Nat.zero_lt_succ 255, hstream⟩

/-- A written header is read. -/
theorem decodeHeader_headerBytes {hdr : FrameHeader} (h : hdr.Fits) :
    decodeHeader ((headerBytes hdr).map UInt8.ofNat) = some hdr := by
  obtain ⟨length, ftype, flags, streamId⟩ := hdr
  obtain ⟨hlength, htype, hflags, hstream⟩ := h
  dsimp only at hlength htype hflags hstream
  have hread : decodeHeader ((headerBytes ⟨length, ftype, flags, streamId⟩).map UInt8.ofNat) =
      some ⟨(UInt8.ofNat (length / 65536 % 256)).toNat * 65536 +
          (UInt8.ofNat (length / 256 % 256)).toNat * 256 + (UInt8.ofNat (length % 256)).toNat,
        (UInt8.ofNat (ftype % 256)).toNat, (UInt8.ofNat (flags % 256)).toNat,
        ((UInt8.ofNat (streamId / 16777216 % 128)).toNat * 16777216 +
          (UInt8.ofNat (streamId / 65536 % 256)).toNat * 65536 +
          (UInt8.ofNat (streamId / 256 % 256)).toNat * 256 +
          (UInt8.ofNat (streamId % 256)).toNat) % 2147483648⟩ := rfl
  rw [hread, Option.some.injEq, FrameHeader.mk.injEq]
  simp only [UInt8.toNat_ofNat']
  omega

/-- A header is written as it was read, with the reserved bit cleared. -/
theorem headerBytes_decodeHeader {v : List UInt8} (hv : v.length = frameHeaderSize)
    {hdr : FrameHeader} (h : decodeHeader v = some hdr) :
    headerBytes hdr = (v.map UInt8.toNat).set 5 (viewGetByte v 5 % 128) := by
  obtain ⟨b₀, b₁, b₂, b₃, b₄, b₅, b₆, b₇, b₈, rfl⟩ :
      ∃ b₀ b₁ b₂ b₃ b₄ b₅ b₆ b₇ b₈, v = [b₀, b₁, b₂, b₃, b₄, b₅, b₆, b₇, b₈] := by
    match v, hv with
    | [b₀, b₁, b₂, b₃, b₄, b₅, b₆, b₇, b₈], _ => exact ⟨b₀, b₁, b₂, b₃, b₄, b₅, b₆, b₇, b₈, rfl⟩
  have hread : decodeHeader [b₀, b₁, b₂, b₃, b₄, b₅, b₆, b₇, b₈] =
      some ⟨b₀.toNat * 65536 + b₁.toNat * 256 + b₂.toNat, b₃.toNat, b₄.toNat,
        (b₅.toNat * 16777216 + b₆.toNat * 65536 + b₇.toNat * 256 + b₈.toNat) % 2147483648⟩ := rfl
  rw [hread] at h
  cases h
  change _ = [b₀.toNat, b₁.toNat, b₂.toNat, b₃.toNat, b₄.toNat, b₅.toNat % 128, b₆.toNat,
    b₇.toNat, b₈.toNat]
  have h₀ := b₀.toNat_lt
  have h₁ := b₁.toNat_lt
  have h₂ := b₂.toNat_lt
  have h₃ := b₃.toNat_lt
  have h₄ := b₄.toNat_lt
  have h₅ := b₅.toNat_lt
  have h₆ := b₆.toNat_lt
  have h₇ := b₇.toNat_lt
  have h₈ := b₈.toNat_lt
  simp only [headerBytes, List.cons.injEq, and_true]
  omega

/-! ## Frames -/

/-- The encoder appends a header and a payload to a buffer that has room for them; the header is
decoded, and its length is that of the payload. -/
def AppendsFrame (encode : Buf → Buf) (hdr : FrameHeader) (payload : List UInt8) : Prop :=
  hdr.length = payload.length ∧
    ∃ head, decodeHeader head = some hdr ∧ head.length = frameHeaderSize ∧
      ∀ b : Buf, b.bytes.length + frameHeaderSize + payload.length ≤ maxBufCap →
        (encode b).bytes = b.bytes ++ (head ++ payload)

/-- A header and the bytes behind it. -/
theorem appendsFrame {hdr : FrameHeader} {xs : List Nat} (h : hdr.Fits)
    (hlength : hdr.length = xs.length) :
    AppendsFrame (fun b => (encodeHeader b hdr).appendBytes xs) hdr (xs.map UInt8.ofNat) := by
  refine ⟨by rw [hlength, length_map], (headerBytes hdr).map UInt8.ofNat,
    decodeHeader_headerBytes h, rfl, fun b hb => ?_⟩
  rw [length_map] at hb
  have hhead : (encodeHeader b hdr).bytes = b.bytes ++ (headerBytes hdr).map UInt8.ofNat :=
    Buf.appendBytes_of_le (Nat.le_trans (Nat.le_add_right _ xs.length) hb)
  have hroom : (encodeHeader b hdr).bytes.length + xs.length ≤ maxBufCap := by
    rw [hhead, length_append]
    exact hb
  rw [Buf.appendBytes_of_le hroom, hhead, append_assoc]

/-- The values of a record of settings are cardinals. -/
def Settings.Fits (s : Settings) : Prop := ∀ p, s.get p < 4294967296

/-- The parameters that `EncodeSettings` writes. -/
def Settings.written (s : Settings) : List (Nat × Nat) :=
  [(1, s.headerTableSize), (2, s.enablePush), (3, s.maxConcurrentStreams),
    (4, s.initialWindowSize), (5, s.maxFrameSize), (6, s.maxHeaderListSize)]

/-- The payload of `EncodeSettings` is decoded as the record, whatever was there before. -/
theorem encodeSettings_roundTrip {s : Settings} (h : s.Fits) :
    ∃ payload, AppendsFrame (fun b => encodeSettings b s) ⟨36, frameSettings, 0, 0⟩ payload ∧
      ∀ s₀, decodeSettings payload s₀ = some s := by
  obtain ⟨xs, hxs⟩ : ∃ xs, xs = s.written.flatMap fun x => 0 :: x.1 :: wordBytes 256 x.2 := ⟨_, rfl⟩
  have hlength : xs.length = 36 := by rw [hxs]; rfl
  have hframe : (fun b => encodeSettings b s) =
      fun b => (encodeHeader b ⟨36, frameSettings, 0, 0⟩).appendBytes xs := by rw [hxs]; rfl
  refine ⟨xs.map UInt8.ofNat, ?_, fun s₀ => ?_⟩
  · rw [hframe]
    exact appendsFrame (fits_control (by decide) (by decide) (by decide)) hlength.symm
  · have hid : ∀ x ∈ s.written, x.1 < 256 := by simp [Settings.written]
    have hval : ∀ x ∈ s.written, x.2 < 4294967296 := by
      simp only [Settings.written, forall_mem_cons]
      exact ⟨h .headerTableSize, h .enablePush, h .maxConcurrentStreams, h .initialWindowSize,
        h .maxFrameSize, h .maxHeaderListSize, fun _ hx => nomatch hx⟩
    rw [decodeSettings, length_map, hlength, if_neg (by decide), hxs]
    exact congrArg some (settingsLoop_parameters hid hval s₀)

/-- Every header, record of settings, `GOAWAY`, `WINDOW_UPDATE` and `RST_STREAM` comes back as it
was encoded, and every header of nine bytes is encoded as it was, up to the reserved bit. -/
theorem controlFrames_roundTrip :
    (∀ hdr : FrameHeader, hdr.Fits →
      ∀ b : Buf, b.bytes.length + frameHeaderSize ≤ maxBufCap →
        ∃ head, (encodeHeader b hdr).bytes = b.bytes ++ head ∧ decodeHeader head = some hdr) ∧
    (∀ s : Settings, s.Fits →
      ∃ payload, AppendsFrame (fun b => encodeSettings b s) ⟨36, frameSettings, 0, 0⟩ payload ∧
        ∀ s₀, decodeSettings payload s₀ = some s) ∧
    (∀ lastStreamId errorCode, lastStreamId < 2147483648 → errorCode < 4294967296 →
      ∃ payload, AppendsFrame (fun b => encodeGoaway b lastStreamId errorCode)
          ⟨8, frameGoaway, 0, 0⟩ payload ∧
        decodeGoaway payload = some (lastStreamId, errorCode)) ∧
    (∀ streamId increment, streamId < 2147483648 → increment < 2147483648 →
      ∃ payload, AppendsFrame (fun b => encodeWindowUpdate b streamId increment)
          ⟨4, frameWindowUpdate, 0, streamId⟩ payload ∧
        decodeWindowUpdate payload = some increment) ∧
    (∀ streamId errorCode, streamId < 2147483648 → errorCode < 4294967296 →
      ∃ payload, AppendsFrame (fun b => encodeRstStream b streamId errorCode)
          ⟨4, frameRstStream, 0, streamId⟩ payload ∧
        decodeRstStream payload = some errorCode) ∧
    ∀ v : List UInt8, v.length = frameHeaderSize → ∃ hdr, decodeHeader v = some hdr ∧
      (encodeHeader .empty hdr).bytes = v.set 5 (UInt8.ofNat (viewGetByte v 5 % 128)) := by
  refine ⟨fun hdr h b hb => ?_, fun s hs => encodeSettings_roundTrip hs, ?_, ?_, ?_, ?_⟩
  · exact ⟨_, Buf.appendBytes_of_le hb, decodeHeader_headerBytes h⟩
  · intro lastStreamId errorCode hlast herror
    refine ⟨_, appendsFrame (fits_control (by decide) (by decide) (by decide)) rfl, ?_⟩
    rw [map_append, ← append_nil (List.map UInt8.ofNat (wordBytes 256 errorCode))]
    have hfirst := readU32BE_wordBytes (show 128 ≤ 256 by decide) hlast
      ((wordBytes 256 errorCode).map UInt8.ofNat ++ [])
    have hsecond := readU32BE_wordBytes (Nat.le_refl 256) herror []
    change some (readU32BE _ % 2147483648, readU32BE _) = _
    rw [hfirst, Nat.mod_eq_of_lt hlast]
    exact congrArg (fun code => some (lastStreamId, code)) hsecond
  · intro streamId increment hstream hincrement
    refine ⟨_, appendsFrame (fits_control (by decide) (by decide) hstream) rfl, ?_⟩
    have hread := readU32BE_wordBytes (show 128 ≤ 256 by decide) hincrement []
    rw [append_nil] at hread
    change some (readU32BE _ % 2147483648) = _
    rw [hread, Nat.mod_eq_of_lt hincrement]
  · intro streamId errorCode hstream herror
    refine ⟨_, appendsFrame (fits_control (by decide) (by decide) hstream) rfl, ?_⟩
    have hread := readU32BE_wordBytes (Nat.le_refl 256) herror []
    rw [append_nil] at hread
    exact congrArg some hread
  · intro v hv
    have hdecoded : decodeHeader v = some _ := if_neg (by rw [hv]; exact Nat.lt_irrefl _)
    refine ⟨_, hdecoded, ?_⟩
    have hbytes := headerBytes_decodeHeader hv hdecoded
    have hid : (UInt8.ofNat ∘ UInt8.toNat : UInt8 → UInt8) = id :=
      funext fun _ => UInt8.ofNat_toNat
    have hroom : ∀ hdr, Buf.empty.bytes.length + (headerBytes hdr).length ≤ maxBufCap :=
      fun hdr => show 9 ≤ maxBufCap by decide
    rw [encodeHeader, Buf.appendBytes_of_le (hroom _), hbytes, map_set, map_map, hid, map_id]
    rfl

end Mx.Http2
