import Mathlib

/-!
# Buffers and frame headers

`ByteBuf` as far as the HTTP/2 libraries append to it, and the nine bytes in front of every frame.
A buffer never holds more than `MaxBufCap` bytes; what does not fit is not appended.
-/

namespace Mx.Http2

open List

/-- `MaxBufCap`. -/
def maxBufCap : Nat := 10485760

/-- `Buf`, without its capacity: an append fails when the bytes would exceed `MaxBufCap`. -/
structure Buf where
  bytes : List UInt8
  fits : bytes.length ≤ maxBufCap

namespace Buf

/-- An empty buffer. -/
def empty : Buf := ⟨[], Nat.zero_le _⟩

/-- `AppendView`, with its result. -/
def appendView (b : Buf) (v : List UInt8) : Buf × Bool :=
  if h : b.bytes.length + v.length ≤ maxBufCap then
    (⟨b.bytes ++ v, by simpa using h⟩, true)
  else (b, false)

/-- `AppendByte`. -/
def appendByte (b : Buf) (x : Nat) : Buf := (b.appendView [UInt8.ofNat x]).1

/-- Bytes appended one by one. -/
def appendBytes (b : Buf) (xs : List Nat) : Buf := xs.foldl appendByte b

theorem appendView_of_le {b : Buf} {v : List UInt8} (h : b.bytes.length + v.length ≤ maxBufCap) :
    (b.appendView v).1.bytes = b.bytes ++ v ∧ (b.appendView v).2 = true := by
  rw [appendView, dif_pos h]
  exact ⟨rfl, rfl⟩

theorem appendBytes_of_le {b : Buf} {xs : List Nat} (h : b.bytes.length + xs.length ≤ maxBufCap) :
    (b.appendBytes xs).bytes = b.bytes ++ xs.map UInt8.ofNat := by
  induction xs generalizing b with
  | nil => simp [appendBytes]
  | cons x xs ih =>
    rw [length_cons] at h
    have hbyte : (b.appendByte x).bytes = b.bytes ++ [UInt8.ofNat x] :=
      (appendView_of_le (by simp; omega)).1
    have hstep : (b.appendBytes (x :: xs)) = (b.appendByte x).appendBytes xs := rfl
    rw [hstep, ih (by rw [hbyte, length_append, length_singleton]; omega), hbyte]
    simp

theorem appendBytes_length (b : Buf) (xs : List Nat) :
    (b.appendBytes xs).bytes.length = min maxBufCap (b.bytes.length + xs.length) := by
  induction xs generalizing b with
  | nil => simp [appendBytes, b.fits]
  | cons x xs ih =>
    have hstep : b.appendBytes (x :: xs) = (b.appendByte x).appendBytes xs := rfl
    rw [hstep, ih, length_cons]
    have hfits := b.fits
    by_cases h : b.bytes.length + 1 ≤ maxBufCap
    · have hbyte : (b.appendByte x).bytes = b.bytes ++ [UInt8.ofNat x] :=
        (appendView_of_le (by simpa using h)).1
      rw [hbyte, length_append, length_singleton]
      omega
    · have hbyte : b.appendByte x = b := by simp [appendByte, appendView, h]
      rw [hbyte]
      omega

/-- Nothing is appended to a full buffer. -/
theorem appendBytes_of_full {b : Buf} (h : b.bytes.length = maxBufCap) (xs : List Nat) :
    b.appendBytes xs = b := by
  induction xs with
  | nil => rfl
  | cons x xs ih =>
    have hbyte : b.appendByte x = b := by
      rw [appendByte, appendView, dif_neg (by simp [h])]
    have hstep : b.appendBytes (x :: xs) = (b.appendByte x).appendBytes xs := rfl
    rw [hstep, hbyte, ih]

end Buf

/-! ## Frame headers -/

/-- `FrameHeader`. -/
structure FrameHeader where
  length : Nat
  ftype : Nat
  flags : Nat
  streamId : Nat
  deriving DecidableEq, Repr

/-- `FrameHeaderSize`. -/
def frameHeaderSize : Nat := 9

/-- `FrameData`. -/
def frameData : Nat := 0

/-- `FrameHeaders`. -/
def frameHeaders : Nat := 1

/-- `FlagEndStream`. -/
def flagEndStream : Nat := 1

/-- `FlagEndHeaders`. -/
def flagEndHeaders : Nat := 4

/-- The bytes of a frame header. -/
def headerBytes (hdr : FrameHeader) : List Nat :=
  [hdr.length / 65536 % 256, hdr.length / 256 % 256, hdr.length % 256, hdr.ftype % 256,
    hdr.flags % 256, hdr.streamId / 16777216 % 128, hdr.streamId / 65536 % 256,
    hdr.streamId / 256 % 256, hdr.streamId % 256]

/-- `EncodeHeader`. -/
def encodeHeader (b : Buf) (hdr : FrameHeader) : Buf := b.appendBytes (headerBytes hdr)

/-- `EncodeDataHeader`. -/
def encodeDataHeader (b : Buf) (streamId payloadLen : Nat) (endStream : Bool) : Buf :=
  encodeHeader b ⟨payloadLen, frameData, if endStream then flagEndStream else 0, streamId⟩

/-- `EncodeHeadersHeader`. -/
def encodeHeadersHeader (b : Buf) (streamId payloadLen : Nat) (endStream endHeaders : Bool) : Buf :=
  encodeHeader b ⟨payloadLen, frameHeaders,
    (if endStream then flagEndStream else 0) + (if endHeaders then flagEndHeaders else 0), streamId⟩

theorem encodeHeader_length {b : Buf} {hdr : FrameHeader}
    (h : b.bytes.length + frameHeaderSize ≤ maxBufCap) :
    (encodeHeader b hdr).bytes.length = b.bytes.length + frameHeaderSize := by
  have hbytes : b.bytes.length + (headerBytes hdr).length ≤ maxBufCap := h
  rw [encodeHeader, Buf.appendBytes_of_le hbytes, length_append]
  rfl

end Mx.Http2
