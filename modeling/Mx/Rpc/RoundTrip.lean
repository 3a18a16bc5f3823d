import Mx.Rpc.Codec
import Mx.Rpc.Framing

/-!
# RPC messages there and back

What a decoder accepts is said by the bytes of the payload alone; from it follow the messages that
come back as they were encoded, and the payloads whose slices lie within them.
-/

namespace Mx.Rpc

open Mx.Core List
open Http2 (Buf maxBufCap)

/-! ## What the readers accept -/

/-- The number in the first two bytes. -/
def decodeBE16 (a : List UInt8) : Nat := (a.getD 0 0).toNat * 256 + (a.getD 1 0).toNat

/-- The two bytes of a number. -/
def encodeBE16 (val : Nat) : List UInt8 := [UInt8.ofNat (val / 256 % 256), UInt8.ofNat (val % 256)]

theorem decodeBE16_le (a : List UInt8) : decodeBE16 a ≤ 65535 := by
  have h₁ := (a.getD 0 0).toNat_lt
  have h₀ := (a.getD 1 0).toNat_lt
  rw [decodeBE16]
  omega

theorem decodeBE16_encodeBE16 {n : Nat} (h : n ≤ 65535) (rest : List UInt8) :
    decodeBE16 (encodeBE16 n ++ rest) = n := by
  simp only [decodeBE16, encodeBE16, cons_append, getD_cons_zero, getD_cons_succ,
    UInt8.toNat_ofNat']
  omega

section Readers

variable {v : List UInt8} {pos : Nat}

theorem viewByte_eq {idx : Nat} (h : idx < cardinals) : viewByte v idx = (v.getD idx 0).toNat := by
  rw [viewByte, Nat.mod_eq_of_lt h]

theorem getD_drop (i : Nat) : (v.drop pos).getD i 0 = v.getD (pos + i) 0 := by
  simp only [getD_eq_getElem?_getD, getElem?_drop]

theorem ite_error_eq_ok_iff {ε α : Type} {c : Prop} [Decidable c] {e : ε} {a r : α} :
    (if c then .error e else .ok a : Except ε α) = .ok r ↔ ¬ c ∧ r = a := by
  by_cases h : c
  · rw [if_pos h]
    exact ⟨fun heq => (nomatch heq), fun heq => absurd h heq.1⟩
  · rw [if_neg h, Except.ok.injEq]
    exact ⟨fun heq => ⟨h, heq.symm⟩, fun heq => heq.2.symm⟩

theorem readU8_ok_iff {x pos' : Nat} :
    readU8 v pos = .ok (x, pos') ↔ pos < v.length ∧ x = viewByte v pos ∧ pos' = pos + 1 := by
  rw [readU8, ite_error_eq_ok_iff, Nat.not_le, Prod.mk.injEq]

theorem readU16BE_ok_iff (hpos : pos + 2 < cardinals) {x pos' : Nat} :
    readU16BE v pos = .ok (x, pos') ↔
      pos + 2 ≤ v.length ∧ x = decodeBE16 (v.drop pos) ∧ pos' = pos + 2 := by
  have hx : viewByte v (pos + 1) + viewByte v pos * 256 = decodeBE16 (v.drop pos) := by
    rw [viewByte_eq (by omega), viewByte_eq (by omega), decodeBE16, getD_drop, getD_drop]
    exact Nat.add_comm _ _
  rw [readU16BE, Nat.mod_eq_of_lt hpos, hx, ite_error_eq_ok_iff, Nat.not_lt, Prod.mk.injEq]

theorem readU32BE_ok_iff (hpos : pos + 4 < cardinals) {x pos' : Nat} :
    readU32BE v pos = .ok (x, pos') ↔
      pos + 4 ≤ v.length ∧ x = decodeBE32 (v.drop pos) ∧ pos' = pos + 4 := by
  have hx : viewByte v (pos + 3) + viewByte v (pos + 2) * 256 + viewByte v (pos + 1) * 65536 +
      viewByte v pos * 16777216 = decodeBE32 (v.drop pos) := by
    rw [viewByte_eq (by omega), viewByte_eq (by omega), viewByte_eq (by omega),
      viewByte_eq (by omega), decodeBE32, getD_drop, getD_drop, getD_drop, getD_drop]
    simp only [Nat.add_zero]
    omega
  rw [readU32BE, Nat.mod_eq_of_lt hpos, hx, ite_error_eq_ok_iff, Nat.not_lt, Prod.mk.injEq]

theorem readSlice_ok_iff {n pos' : Nat} {view : View} :
    readSlice n v pos = .ok (view, pos') ↔
      (pos + n) % cardinals ≤ v.length ∧ view = ⟨some pos, n⟩ ∧ pos' = (pos + n) % cardinals := by
  rw [readSlice, ite_error_eq_ok_iff, Nat.not_lt, Prod.mk.injEq]

/-- The payload starts as a message of a type. -/
def Starts (msgType : Nat) (v : List UInt8) : Prop :=
  6 ≤ v.length ∧ viewByte v 0 = version ∧ viewByte v 1 = msgType

/-- The length of the text that stands at a position. -/
def textLength (v : List UInt8) (pos : Nat) : Nat := decodeBE16 (v.drop pos)

/-- A text stands at a position. -/
def TextAt (v : List UInt8) (pos : Nat) : Prop := pos + 2 + textLength v pos ≤ v.length

/-- The length of the body that stands at a position. -/
def bodyLength (v : List UInt8) (pos : Nat) : Nat := decodeBE32 (v.drop pos)

/-- The reader accepts the body at a position. -/
def BodyAccepted (v : List UInt8) (pos : Nat) : Prop :=
  pos + 4 ≤ v.length ∧
    (bodyLength v pos = 0 ∨ (pos + 4 + bodyLength v pos) % cardinals ≤ v.length)

/-- The view of the body at a position. -/
def bodyView (v : List UInt8) (pos : Nat) : View :=
  if bodyLength v pos = 0 then .nil else ⟨some (pos + 4), bodyLength v pos⟩

theorem readStart_ok_iff {msgType requestId pos' : Nat} :
    readStart msgType v 0 = .ok (requestId, pos') ↔
      Starts msgType v ∧ requestId = decodeBE32 (v.drop 2) ∧ pos' = 6 := by
  have hcard : (2 : Nat) + 4 < cardinals := by decide
  simp only [readStart, ViewReader.bind_ok_iff, readU8_ok_iff]
  constructor
  · rintro ⟨ver, mid, ⟨-, rfl, rfl⟩, h⟩
    by_cases hver : viewByte v 0 ≠ version
    · rw [if_pos hver] at h
      cases h
    · rw [if_neg hver, ViewReader.bind_ok_iff] at h
      obtain ⟨mt, mid, hmt, h⟩ := h
      obtain ⟨-, rfl, rfl⟩ := readU8_ok_iff.mp hmt
      by_cases hmt : viewByte v (0 + 1) ≠ msgType
      · rw [if_pos hmt] at h
        cases h
      · rw [if_neg hmt] at h
        obtain ⟨hlen, rfl, rfl⟩ := (readU32BE_ok_iff hcard).mp h
        exact ⟨⟨hlen, not_not.mp hver, not_not.mp hmt⟩, rfl, rfl⟩
  · rintro ⟨⟨hlen, hver, hmt⟩, rfl, rfl⟩
    refine ⟨_, _, ⟨by omega, rfl, rfl⟩, ?_⟩
    rw [if_neg (not_not.mpr hver), ViewReader.bind_ok_iff]
    refine ⟨_, _, readU8_ok_iff.mpr ⟨by omega, rfl, rfl⟩, ?_⟩
    rw [if_neg (not_not.mpr hmt)]
    exact (readU32BE_ok_iff hcard).mpr ⟨hlen, rfl, rfl⟩

theorem readText_ok_iff (hpos : pos + 65538 < cardinals) {view : View} {pos' : Nat} :
    readText v pos = .ok (view, pos') ↔
      TextAt v pos ∧ view = ⟨some (pos + 2), textLength v pos⟩ ∧
        pos' = pos + 2 + textLength v pos := by
  have hle := decodeBE16_le (v.drop pos)
  have hmod : (pos + 2 + decodeBE16 (v.drop pos)) % cardinals =
      pos + 2 + decodeBE16 (v.drop pos) := Nat.mod_eq_of_lt (by omega)
  rw [readText, ViewReader.bind_ok_iff]
  constructor
  · rintro ⟨ml, mid, hlen, h⟩
    obtain ⟨-, rfl, rfl⟩ := (readU16BE_ok_iff (by omega)).mp hlen
    obtain ⟨hfits, rfl, rfl⟩ := readSlice_ok_iff.mp h
    rw [hmod] at hfits
    exact ⟨hfits, rfl, hmod⟩
  · rintro ⟨hfits, rfl, rfl⟩
    have hlen : pos + 2 ≤ v.length := Nat.le_trans (Nat.le_add_right _ _) hfits
    refine ⟨_, _, (readU16BE_ok_iff (by omega)).mpr ⟨hlen, rfl, rfl⟩, ?_⟩
    exact readSlice_ok_iff.mpr ⟨by rw [hmod]; exact hfits, rfl, hmod.symm⟩

theorem readBody_ok_iff (hpos : pos + 4 < cardinals) {view : View} :
    (∃ pos', readBody v pos = .ok (view, pos')) ↔
      BodyAccepted v pos ∧ view = bodyView v pos := by
  simp only [readBody, ViewReader.bind_ok_iff]
  constructor
  · rintro ⟨pos', bl, mid, hlen, h⟩
    obtain ⟨hfits, rfl, rfl⟩ := (readU32BE_ok_iff hpos).mp hlen
    by_cases hzero : decodeBE32 (v.drop pos) = 0
    · rw [if_pos hzero] at h
      cases h
      exact ⟨⟨hfits, .inl hzero⟩, (if_pos hzero).symm⟩
    · rw [if_neg hzero] at h
      obtain ⟨hslice, rfl, -⟩ := readSlice_ok_iff.mp h
      exact ⟨⟨hfits, .inr hslice⟩, (if_neg hzero).symm⟩
  · rintro ⟨⟨hfits, hslice⟩, rfl⟩
    by_cases hzero : decodeBE32 (v.drop pos) = 0
    · refine ⟨pos + 4, _, _, (readU32BE_ok_iff hpos).mpr ⟨hfits, rfl, rfl⟩, ?_⟩
      rw [if_pos hzero, bodyView, bodyLength, if_pos hzero]
      rfl
    · refine ⟨(pos + 4 + bodyLength v pos) % cardinals, _, _,
        (readU32BE_ok_iff hpos).mpr ⟨hfits, rfl, rfl⟩, ?_⟩
      rw [if_neg hzero, bodyView, bodyLength, if_neg hzero]
      exact readSlice_ok_iff.mpr ⟨hslice.resolve_left hzero, rfl, rfl⟩

/-- The end of every decoder. -/
theorem readBody_pure_ok_iff {α : Type} (hpos : pos + 4 < cardinals) (f : View → α) {a : α} :
    (∃ pos', (readBody.bind fun body => .pure (f body)) v pos = .ok (a, pos')) ↔
      BodyAccepted v pos ∧ a = f (bodyView v pos) := by
  simp only [ViewReader.bind_ok_iff, ViewReader.pure]
  constructor
  · rintro ⟨pos', body, mid, hbody, h⟩
    cases h
    obtain ⟨haccepted, rfl⟩ := (readBody_ok_iff hpos).mp ⟨_, hbody⟩
    exact ⟨haccepted, rfl⟩
  · rintro ⟨haccepted, rfl⟩
    obtain ⟨pos', hbody⟩ := (readBody_ok_iff hpos).mpr ⟨haccepted, rfl⟩
    exact ⟨pos', _, _, hbody, rfl⟩

theorem decode_eq_some_iff {α : Type} {r : Reader α} {a : α} :
    r.decode v = some a ↔ ∃ pos', r v 0 = .ok (a, pos') := by
  rw [Reader.decode]
  rcases r v 0 with e | ⟨a', pos'⟩
  · constructor
    · intro h
      cases h
    · rintro ⟨_, h⟩
      cases h
  · constructor
    · intro h
      cases h
      exact ⟨pos', rfl⟩
    · rintro ⟨_, h⟩
      cases h
      rfl

theorem decodeResponse_eq_some_iff {requestId : Nat} {body : View} :
    decodeResponse v = some (requestId, body) ↔ Starts msgResponse v ∧ BodyAccepted v 6 ∧
      requestId = decodeBE32 (v.drop 2) ∧ body = bodyView v 6 := by
  have hcard : (6 : Nat) + 4 < cardinals := by decide
  rw [decodeResponse, decode_eq_some_iff]
  simp only [ViewReader.bind_ok_iff (p := readStart msgResponse), readStart_ok_iff]
  constructor
  · rintro ⟨pos', _, mid, ⟨hstart, rfl, rfl⟩, h⟩
    obtain ⟨hbody, heq⟩ := (readBody_pure_ok_iff hcard _).mp ⟨pos', h⟩
    cases heq
    exact ⟨hstart, hbody, rfl, rfl⟩
  · rintro ⟨hstart, hbody, rfl, rfl⟩
    obtain ⟨pos', h⟩ := (readBody_pure_ok_iff (a := (decodeBE32 (v.drop 2), bodyView v 6)) hcard
      fun body => (decodeBE32 (v.drop 2), body)).mpr ⟨hbody, rfl⟩
    exact ⟨pos', _, _, ⟨hstart, rfl, rfl⟩, h⟩

/-- A text and a body after it, at the end of a decoder. -/
theorem readText_body_ok_iff {α : Type} (hpos : pos + 65542 < cardinals) (f : View → View → α)
    {a : α} :
    (∃ pos', (readText.bind fun text => readBody.bind fun body => .pure (f text body)) v pos =
        .ok (a, pos')) ↔
      TextAt v pos ∧ BodyAccepted v (pos + 2 + textLength v pos) ∧
        a = f ⟨some (pos + 2), textLength v pos⟩ (bodyView v (pos + 2 + textLength v pos)) := by
  have hle : textLength v pos ≤ 65535 := decodeBE16_le _
  have hcard : pos + 2 + textLength v pos + 4 < cardinals := by omega
  simp only [ViewReader.bind_ok_iff (p := readText), readText_ok_iff (by omega : pos + 65538 < _)]
  constructor
  · rintro ⟨pos', _, mid, ⟨htext, rfl, rfl⟩, h⟩
    obtain ⟨hbody, heq⟩ := (readBody_pure_ok_iff hcard _).mp ⟨pos', h⟩
    exact ⟨htext, hbody, heq⟩
  · rintro ⟨htext, hbody, rfl⟩
    obtain ⟨pos', h⟩ := (readBody_pure_ok_iff hcard
      (f ⟨some (pos + 2), textLength v pos⟩)).mpr ⟨hbody, rfl⟩
    exact ⟨pos', _, _, ⟨htext, rfl, rfl⟩, h⟩

theorem decodeRequest_eq_some_iff {requestId : Nat} {method body : View} :
    decodeRequest v = some (requestId, method, body) ↔
      Starts msgRequest v ∧ TextAt v 6 ∧ BodyAccepted v (8 + textLength v 6) ∧
        requestId = decodeBE32 (v.drop 2) ∧ method = ⟨some 8, textLength v 6⟩ ∧
        body = bodyView v (8 + textLength v 6) := by
  have hcard : (6 : Nat) + 65542 < cardinals := by decide
  rw [decodeRequest, decode_eq_some_iff]
  simp only [ViewReader.bind_ok_iff (p := readStart msgRequest), readStart_ok_iff]
  constructor
  · rintro ⟨pos', _, mid, ⟨hstart, rfl, rfl⟩, h⟩
    obtain ⟨htext, hbody, heq⟩ := (readText_body_ok_iff hcard _).mp ⟨pos', h⟩
    cases heq
    exact ⟨hstart, htext, hbody, rfl, rfl, rfl⟩
  · rintro ⟨hstart, htext, hbody, rfl, rfl, rfl⟩
    obtain ⟨pos', h⟩ := (readText_body_ok_iff (v := v) hcard fun method body =>
      (decodeBE32 (v.drop 2), method, body)).mpr ⟨htext, hbody, rfl⟩
    exact ⟨pos', _, _, ⟨hstart, rfl, rfl⟩, h⟩

theorem decodeError_eq_some_iff {requestId errCode : Nat} {errMsg body : View} :
    decodeError v = some (requestId, errCode, errMsg, body) ↔
      Starts msgError v ∧ TextAt v 8 ∧ BodyAccepted v (10 + textLength v 8) ∧
        requestId = decodeBE32 (v.drop 2) ∧ errCode = decodeBE16 (v.drop 6) ∧
        errMsg = ⟨some 10, textLength v 8⟩ ∧ body = bodyView v (10 + textLength v 8) := by
  have hcard : (8 : Nat) + 65542 < cardinals := by decide
  have hcode : (6 : Nat) + 2 < cardinals := by decide
  rw [decodeError, decode_eq_some_iff]
  simp only [ViewReader.bind_ok_iff (p := readStart msgError), readStart_ok_iff,
    ViewReader.bind_ok_iff (p := readU16BE)]
  constructor
  · rintro ⟨pos', _, mid, ⟨hstart, rfl, rfl⟩, _, mid', hread, h⟩
    obtain ⟨-, rfl, rfl⟩ := (readU16BE_ok_iff hcode).mp hread
    obtain ⟨htext, hbody, heq⟩ := (readText_body_ok_iff hcard _).mp ⟨pos', h⟩
    cases heq
    exact ⟨hstart, htext, hbody, rfl, rfl, rfl, rfl⟩
  · rintro ⟨hstart, htext, hbody, rfl, rfl, rfl, rfl⟩
    have hlen : 8 ≤ v.length := by
      rw [TextAt] at htext
      omega
    obtain ⟨pos', h⟩ := (readText_body_ok_iff (v := v) hcard fun errMsg body =>
      (decodeBE32 (v.drop 2), decodeBE16 (v.drop 6), errMsg, body)).mpr ⟨htext, hbody, rfl⟩
    exact ⟨pos', _, _, ⟨hstart, rfl, rfl⟩, _, _, (readU16BE_ok_iff hcode).mpr ⟨hlen, rfl, rfl⟩, h⟩

end Readers

/-! ## Slices within the payload -/

/-- A view lies within the payload. -/
def View.Inside (v : List UInt8) (view : View) : Prop :=
  view = .nil ∨ ∃ base, view.base = some base ∧ base + view.len ≤ v.length

/-- The length of the body at a position is that of the rest of the payload, or is so large that
the reader notices it. -/
def LengthsAgree (v : List UInt8) (pos : Nat) : Prop :=
  pos + 4 ≤ v.length → pos + 4 + bodyLength v pos = v.length ∨
    bodyLength v pos ≠ 0 ∧ v.length < (pos + 4 + bodyLength v pos) % cardinals

/-- The slices of a decoded request lie within the payload and cover it. -/
def RequestBounded (v : List UInt8) : Prop :=
  ∀ requestId method body, decodeRequest v = some (requestId, method, body) →
    method.Inside v ∧ body.Inside v ∧ 12 + method.len + body.len = v.length

/-- The slice of a decoded response lies within the payload and covers it. -/
def ResponseBounded (v : List UInt8) : Prop :=
  ∀ requestId body, decodeResponse v = some (requestId, body) →
    body.Inside v ∧ 10 + body.len = v.length

/-- The slices of a decoded error lie within the payload and cover it. -/
def ErrorBounded (v : List UInt8) : Prop :=
  ∀ requestId errCode errMsg body, decodeError v = some (requestId, errCode, errMsg, body) →
    errMsg.Inside v ∧ body.Inside v ∧ 14 + errMsg.len + body.len = v.length

section Bounded

variable {v : List UInt8} {pos : Nat}

@[simp] theorem bodyView_len : (bodyView v pos).len = bodyLength v pos := by
  rw [bodyView]
  by_cases h : bodyLength v pos = 0
  · rw [if_pos h, h]
    rfl
  · rw [if_neg h]

theorem bodyView_inside (h : pos + 4 + bodyLength v pos = v.length) :
    (bodyView v pos).Inside v := by
  rw [bodyView]
  by_cases hzero : bodyLength v pos = 0
  · rw [if_pos hzero]
    exact .inl rfl
  · rw [if_neg hzero]
    exact .inr ⟨pos + 4, rfl, Nat.le_of_eq h⟩

theorem lengthsAgree_iff :
    LengthsAgree v pos ↔ (BodyAccepted v pos → pos + 4 + bodyLength v pos = v.length) := by
  constructor
  · rintro hagree ⟨hlen, haccepted⟩
    obtain heq | ⟨hne, hlt⟩ := hagree hlen
    · exact heq
    · obtain hzero | hle := haccepted
      · exact absurd hzero hne
      · exact absurd hle (Nat.not_le.mpr hlt)
  · intro h hlen
    by_cases haccepted : BodyAccepted v pos
    · exact .inl (h haccepted)
    · obtain ⟨hne, hlt⟩ := not_or.mp fun hor => haccepted ⟨hlen, hor⟩
      exact .inr ⟨hne, Nat.not_le.mp hlt⟩

theorem responseBounded_iff :
    ResponseBounded v ↔ (Starts msgResponse v → LengthsAgree v 6) := by
  simp only [ResponseBounded, decodeResponse_eq_some_iff, lengthsAgree_iff]
  constructor
  · intro h hstart hbody
    obtain ⟨-, hlen⟩ := h _ _ ⟨hstart, hbody, rfl, rfl⟩
    rwa [bodyView_len] at hlen
  · rintro h requestId body ⟨hstart, hbody, -, rfl⟩
    have hlen := h hstart hbody
    exact ⟨bodyView_inside hlen, by rw [bodyView_len]; exact hlen⟩

theorem requestBounded_iff :
    RequestBounded v ↔
      (Starts msgRequest v → TextAt v 6 → LengthsAgree v (8 + textLength v 6)) := by
  simp only [RequestBounded, decodeRequest_eq_some_iff, lengthsAgree_iff]
  constructor
  · intro h hstart htext hbody
    obtain ⟨-, -, hlen⟩ := h _ _ _ ⟨hstart, htext, hbody, rfl, rfl, rfl⟩
    simp only [bodyView_len] at hlen
    omega
  · rintro h requestId method body ⟨hstart, htext, hbody, -, rfl, rfl⟩
    have hlen := h hstart htext hbody
    refine ⟨.inr ⟨8, rfl, htext⟩, bodyView_inside hlen, ?_⟩
    simp only [bodyView_len]
    omega

theorem errorBounded_iff :
    ErrorBounded v ↔
      (Starts msgError v → TextAt v 8 → LengthsAgree v (10 + textLength v 8)) := by
  simp only [ErrorBounded, decodeError_eq_some_iff, lengthsAgree_iff]
  constructor
  · intro h hstart htext hbody
    obtain ⟨-, -, hlen⟩ := h _ _ _ _ ⟨hstart, htext, hbody, rfl, rfl, rfl, rfl⟩
    simp only [bodyView_len] at hlen
    omega
  · rintro h requestId errCode errMsg body ⟨hstart, htext, hbody, -, -, rfl, rfl⟩
    have hlen := h hstart htext hbody
    refine ⟨.inr ⟨10, rfl, htext⟩, bodyView_inside hlen, ?_⟩
    simp only [bodyView_len]
    omega

end Bounded

/-- A length of nearly 2^32 bytes in a response of ten bytes: the sum wraps, and the body is
accepted. -/
theorem not_responseBounded_wrapped :
    ¬ ResponseBounded [1, 1, 0, 0, 0, 1, 255, 255, 255, 248] := by
  rw [responseBounded_iff]
  intro h
  obtain hlen | ⟨-, hlt⟩ := h ⟨by decide, by decide, by decide⟩ (by decide)
  · exact absurd hlen (by decide)
  · exact absurd hlt (by decide)

/-! ## What is encoded -/

/-- The view shows exactly these bytes. -/
def View.Shows (v : List UInt8) (view : View) (bytes : List UInt8) : Prop :=
  view.bytes v = bytes ∧ view.len = bytes.length

/-- A request comes back as it was encoded. -/
def RequestRoundTrips (requestId : Nat) (method : List UInt8) (methodLen : Nat)
    (body : List UInt8) : Prop :=
  let payload := (encodeRequest requestId method methodLen body).bytes
  ∃ m b, decodeRequest payload = some (requestId, m, b) ∧
    m.Shows payload (method.take methodLen) ∧ b.Shows payload body

/-- A response comes back as it was encoded. -/
def ResponseRoundTrips (requestId : Nat) (body : List UInt8) : Prop :=
  let payload := (encodeResponse requestId body).bytes
  ∃ b, decodeResponse payload = some (requestId, b) ∧ b.Shows payload body

/-- An error comes back as it was encoded. -/
def ErrorRoundTrips (requestId errCode : Nat) (errMsg : List UInt8) (errMsgLen : Nat)
    (body : List UInt8) : Prop :=
  let payload := (encodeError requestId errCode errMsg errMsgLen body).bytes
  ∃ m b, decodeError payload = some (requestId, errCode, m, b) ∧
    m.Shows payload (errMsg.take errMsgLen) ∧ b.Shows payload body

section Shows

variable {v : List UInt8} {pos : Nat}

/-- A body that is shown lies within the payload. -/
theorem le_of_bodyView_shows {body : List UInt8} (h : (bodyView v pos).Shows v body)
    (hlen : pos + 4 ≤ v.length) : pos + 4 + body.length ≤ v.length := by
  obtain ⟨hbytes, hlength⟩ := h
  rw [bodyView_len] at hlength
  rw [bodyView] at hbytes
  by_cases hzero : bodyLength v pos = 0
  · omega
  · rw [if_neg hzero, View.bytes] at hbytes
    have htake := congrArg List.length hbytes
    rw [length_take, length_drop] at htake
    omega

/-- A body after other bytes is accepted and shown. -/
theorem body_shown (front body : List UInt8)
    (hv : v = front ++ (encodeBE32 body.length ++ body)) (hlen : v.length < cardinals) :
    BodyAccepted v front.length ∧ (bodyView v front.length).Shows v body := by
  have hlength : v.length = front.length + 4 + body.length := by
    rw [hv]
    simp only [length_append, length_encodeBE32]
    omega
  have hcard : cardinals = 4294967296 := rfl
  have hbl : bodyLength v front.length = body.length := by
    rw [bodyLength, hv, drop_left, decodeBE32_encodeBE32 (by omega)]
  have hmod : (front.length + 4 + body.length) % cardinals = front.length + 4 + body.length :=
    Nat.mod_eq_of_lt (by omega)
  refine ⟨⟨by omega, .inr ?_⟩, ?_, by rw [bodyView_len, hbl]⟩
  · rw [hbl, hmod, hlength]
  · rw [bodyView, hbl]
    by_cases hzero : body.length = 0
    · rw [if_pos hzero, length_eq_zero_iff.mp hzero]
      rfl
    · have hfront : (front ++ encodeBE32 body.length).length = front.length + 4 :=
        length_append
      rw [if_neg hzero, View.bytes, hv, ← append_assoc, ← hfront]
      simp only [drop_left, take_length]

/-- A text after other bytes is shown. -/
theorem text_shown (front : List UInt8) {text rest : List UInt8}
    (hv : v = front ++ (encodeBE16 text.length ++ (text ++ rest))) (hlen : text.length ≤ 65535) :
    textLength v front.length = text.length ∧ TextAt v front.length ∧
      View.Shows v ⟨some (front.length + 2), text.length⟩ text := by
  have htl : textLength v front.length = text.length := by
    rw [textLength, hv, drop_left, decodeBE16_encodeBE16 hlen]
  refine ⟨htl, ?_, ?_, rfl⟩
  · rw [TextAt, htl, hv]
    simp only [length_append, show (encodeBE16 text.length).length = 2 from rfl]
    omega
  · have hfront : (front ++ encodeBE16 text.length).length = front.length + 2 := length_append
    rw [View.bytes, hv, ← append_assoc, ← hfront]
    simp only [drop_left, take_left]

/-- A text and a body after other bytes are shown. -/
theorem text_body_shown {front text body : List UInt8} {n : Nat} (hfront : front.length = n)
    (hv : v = front ++ (encodeBE16 text.length ++ (text ++ (encodeBE32 body.length ++ body))))
    (htext : text.length ≤ 65535) (hlen : v.length < cardinals) :
    TextAt v n ∧ BodyAccepted v (n + 2 + textLength v n) ∧
      View.Shows v ⟨some (n + 2), textLength v n⟩ text ∧
        (bodyView v (n + 2 + textLength v n)).Shows v body := by
  subst hfront
  obtain ⟨htl, hat, hshows⟩ := text_shown front hv htext
  have hbody := body_shown (front ++ (encodeBE16 text.length ++ text)) body
    (by rw [hv]; simp only [append_assoc]) hlen
  have hall : (front ++ (encodeBE16 text.length ++ text)).length =
      front.length + 2 + text.length := by
    rw [length_append, length_append, Nat.add_assoc]
    rfl
  rw [hall] at hbody
  rw [htl]
  exact ⟨hat, hbody.1, hshows, hbody.2⟩

end Shows

section Encoded

/-- The numbers written before the length of the body. -/
def headerVals (msgType requestId : Nat) : List Nat :=
  [version % 256, msgType % 256, requestId / 16777216 % 256, requestId / 65536 % 256,
    requestId / 256 % 256, requestId % 256]

/-- The numbers of a text and its length. -/
def textVals (text : List UInt8) : List Nat :=
  [text.length / 256 % 256, text.length % 256] ++ text.map UInt8.toNat

theorem appendBytes_append (b : Buf) (xs ys : List Nat) :
    (b.appendBytes xs).appendBytes ys = b.appendBytes (xs ++ ys) :=
  (foldl_append).symm

theorem writeHeader_eq (b : Buf) (msgType requestId : Nat) :
    writeHeader b msgType requestId = b.appendBytes (headerVals msgType requestId) := by
  simp only [writeHeader, writeU8, writeU32BE, appendBytes_append, cons_append,
    nil_append, headerVals]

theorem length_clip (text : List UInt8) (n : Nat) :
    (if n > text.length then text.length else n) = (text.take n).length := by
  rw [length_take]
  split <;> omega

theorem writeText_eq (b : Buf) (text : List UInt8) (textLen : Nat) :
    writeText b text textLen = b.appendBytes (textVals (text.take textLen)) := by
  have htwice : text.take (text.take ((text.take textLen).length)).length = text.take textLen := by
    rw [length_take, length_take, take_eq_take_iff]
    omega
  simp only [writeText, writeChars, writeU16BE, length_clip, htwice, appendBytes_append, textVals]

/-- A body that fits after numbers that were written. -/
theorem writeBody_bytes {xs : List Nat} {body : List UInt8}
    (h : xs.length + 4 + body.length ≤ maxBufCap) :
    (writeBody (Buf.empty.appendBytes xs) body).bytes =
      xs.map UInt8.ofNat ++ (encodeBE32 body.length ++ body) := by
  have hlength : (writeU32BE (Buf.empty.appendBytes xs) body.length).bytes =
      xs.map UInt8.ofNat ++ encodeBE32 body.length := by
    rw [writeU32BE, appendBytes_append, Buf.appendBytes_of_le]
    · rw [map_append]
      rfl
    · rw [length_append]
      exact Nat.le_trans (by show 0 + (xs.length + 4) ≤ _; omega) h
  simp only [writeBody]
  by_cases hpos : body.length > 0
  · rw [if_pos hpos, (Buf.appendView_of_le _).1, hlength, append_assoc]
    rw [hlength]
    simpa only [length_append, length_map, length_encodeBE32] using h
  · rw [if_neg hpos, hlength, eq_nil_of_length_eq_zero (Nat.eq_zero_of_not_pos hpos), append_nil]

theorem map_textVals (text : List UInt8) :
    (textVals text).map UInt8.ofNat = encodeBE16 text.length ++ text := by
  rw [textVals, map_append, map_map]
  congr 1
  exact (map_congr_left fun x _ => UInt8.ofNat_toNat).trans (map_id _)

theorem map_headerVals {msgType requestId : Nat} :
    (headerVals msgType requestId).map UInt8.ofNat =
      UInt8.ofNat (version % 256) :: UInt8.ofNat (msgType % 256) :: encodeBE32 requestId := rfl

/-- A payload that starts with a written header. -/
theorem header_read (msgType : Nat) {requestId : Nat} (htype : msgType < 256)
    (hid : requestId < cardinals) (rest : List UInt8) :
    Starts msgType ((headerVals msgType requestId).map UInt8.ofNat ++ rest) ∧
      decodeBE32 (((headerVals msgType requestId).map UInt8.ofNat ++ rest).drop 2) =
        requestId := by
  have htype' : (UInt8.ofNat (msgType % 256)).toNat = msgType := by
    rw [UInt8.toNat_ofNat']
    omega
  have hzero : (0 : Nat) < cardinals := by decide
  have hone : (1 : Nat) < cardinals := by decide
  rw [map_headerVals, cons_append, cons_append]
  refine ⟨⟨?_, ?_, ?_⟩, ?_⟩
  · simp only [length_cons, length_append, length_encodeBE32]
    omega
  · rw [viewByte_eq hzero, getD_cons_zero]
    rfl
  · rw [viewByte_eq hone, getD_cons_succ, getD_cons_zero]
    exact htype'
  · rw [drop_succ_cons, drop_succ_cons, drop_zero]
    exact decodeBE32_encodeBE32 hid rest

theorem length_textVals (text : List UInt8) : (textVals text).length = 2 + text.length := by
  rw [textVals, length_append, length_map]
  rfl

theorem encodeRequest_eq (requestId : Nat) (method : List UInt8) (methodLen : Nat)
    (body : List UInt8) :
    encodeRequest requestId method methodLen body = writeBody (Buf.empty.appendBytes
      (headerVals msgRequest requestId ++ textVals (method.take methodLen))) body := by
  rw [encodeRequest, writeText_eq, writeHeader_eq, appendBytes_append]

theorem encodeError_eq (requestId errCode : Nat) (errMsg : List UInt8) (errMsgLen : Nat)
    (body : List UInt8) :
    encodeError requestId errCode errMsg errMsgLen body = writeBody (Buf.empty.appendBytes
      (headerVals msgError requestId ++ [errCode / 256 % 256, errCode % 256] ++
        textVals (errMsg.take errMsgLen))) body := by
  rw [encodeError, writeText_eq, writeU16BE, writeHeader_eq, appendBytes_append,
    appendBytes_append, append_assoc]

variable {requestId errCode : Nat} {body : List UInt8}

/-- A response comes back exactly when it fits the buffer. -/
theorem responseRoundTrips_iff (hid : requestId < cardinals) :
    ResponseRoundTrips requestId body ↔ 10 + body.length ≤ maxBufCap := by
  have hcap : maxBufCap < cardinals := by decide
  simp only [ResponseRoundTrips, decodeResponse_eq_some_iff]
  constructor
  · rintro ⟨b, ⟨-, hbody, -, rfl⟩, hshows⟩
    exact Nat.le_trans (le_of_bodyView_shows hshows hbody.1) (encodeResponse requestId body).fits
  · intro hfits
    have hbytes : (encodeResponse requestId body).bytes =
        (headerVals msgResponse requestId).map UInt8.ofNat ++
          (encodeBE32 body.length ++ body) := by
      rw [encodeResponse, writeHeader_eq, writeBody_bytes (by show 6 + 4 + _ ≤ _; omega)]
    obtain ⟨hstart, hread⟩ := header_read msgResponse (by decide) hid
      (encodeBE32 body.length ++ body)
    have hbody := body_shown _ _ hbytes
      (Nat.lt_of_le_of_lt (encodeResponse requestId body).fits hcap)
    rw [length_map, show (headerVals msgResponse requestId).length = 6 from rfl] at hbody
    rw [hbytes] at hbody ⊢
    exact ⟨_, ⟨hstart, hbody.1, hread.symm, rfl⟩, hbody.2⟩

/-- A request comes back exactly when its method fits the length field and it fits the buffer. -/
theorem requestRoundTrips_iff (hid : requestId < cardinals) {method : List UInt8}
    {methodLen : Nat} :
    RequestRoundTrips requestId method methodLen body ↔
      (method.take methodLen).length ≤ 65535 ∧
        12 + (method.take methodLen).length + body.length ≤ maxBufCap := by
  have hcap : maxBufCap < cardinals := by decide
  simp only [RequestRoundTrips, decodeRequest_eq_some_iff]
  constructor
  · rintro ⟨m, b, ⟨-, -, hbody, -, rfl, rfl⟩, ⟨-, hlen⟩, hshows⟩
    simp only at hlen
    rw [← hlen]
    have hle := le_of_bodyView_shows hshows hbody.1
    have hfits := (encodeRequest requestId method methodLen body).fits
    exact ⟨decodeBE16_le _, by omega⟩
  · rintro ⟨hlen, hfits⟩
    rw [encodeRequest_eq]
    generalize method.take methodLen = text at hlen hfits ⊢
    have hbytes : (writeBody (Buf.empty.appendBytes
        (headerVals msgRequest requestId ++ textVals text)) body).bytes =
        (headerVals msgRequest requestId).map UInt8.ofNat ++
          (encodeBE16 text.length ++ (text ++ (encodeBE32 body.length ++ body))) := by
      rw [writeBody_bytes, map_append, map_textVals, append_assoc, append_assoc]
      rw [length_append, length_textVals]
      exact Nat.le_trans (by show 6 + _ + 4 + _ ≤ _; omega) hfits
    obtain ⟨hstart, hread⟩ := header_read msgRequest (by decide) hid
      (encodeBE16 text.length ++ (text ++ (encodeBE32 body.length ++ body)))
    rw [← hbytes] at hstart hread
    obtain ⟨htext, hbody, hshows⟩ := text_body_shown (n := 6) rfl hbytes hlen
      (Nat.lt_of_le_of_lt (Buf.fits _) hcap)
    exact ⟨_, _, ⟨hstart, htext, hbody, hread.symm, rfl, rfl⟩, hshows⟩

/-- An error comes back exactly when its code and its message fit their fields and it fits the
buffer. -/
theorem errorRoundTrips_iff (hid : requestId < cardinals) {errMsg : List UInt8} {errMsgLen : Nat} :
    ErrorRoundTrips requestId errCode errMsg errMsgLen body ↔
      errCode ≤ 65535 ∧ (errMsg.take errMsgLen).length ≤ 65535 ∧
        14 + (errMsg.take errMsgLen).length + body.length ≤ maxBufCap := by
  have hcap : maxBufCap < cardinals := by decide
  simp only [ErrorRoundTrips, decodeError_eq_some_iff]
  constructor
  · rintro ⟨m, b, ⟨-, -, hbody, -, hcode, rfl, rfl⟩, ⟨-, hlen⟩, hshows⟩
    simp only at hlen
    rw [← hlen]
    have hle := le_of_bodyView_shows hshows hbody.1
    have hfits := (encodeError requestId errCode errMsg errMsgLen body).fits
    exact ⟨hcode ▸ decodeBE16_le _, decodeBE16_le _, by omega⟩
  · rintro ⟨hcode, hlen, hfits⟩
    rw [encodeError_eq]
    generalize errMsg.take errMsgLen = text at hlen hfits ⊢
    have hbytes : (writeBody (Buf.empty.appendBytes (headerVals msgError requestId ++
        [errCode / 256 % 256, errCode % 256] ++ textVals text)) body).bytes =
        (headerVals msgError requestId).map UInt8.ofNat ++ (encodeBE16 errCode ++
          (encodeBE16 text.length ++ (text ++ (encodeBE32 body.length ++ body)))) := by
      rw [writeBody_bytes, map_append, map_append, map_textVals]
      · simp only [append_assoc]
        rfl
      · rw [length_append, length_append, length_textVals]
        exact Nat.le_trans (by show 6 + 2 + _ + 4 + _ ≤ _; omega) hfits
    generalize writeBody (Buf.empty.appendBytes (headerVals msgError requestId ++
      [errCode / 256 % 256, errCode % 256] ++ textVals text)) body = buf at hbytes ⊢
    have hbound := Nat.lt_of_le_of_lt buf.fits hcap
    obtain ⟨hstart, hread⟩ := header_read msgError (by decide) hid
      (encodeBE16 errCode ++ (encodeBE16 text.length ++ (text ++ (encodeBE32 body.length ++ body))))
    rw [← hbytes] at hstart hread
    have hcode' : decodeBE16 (buf.bytes.drop 6) = errCode := by
      rw [hbytes, show (6 : Nat) = ((headerVals msgError requestId).map UInt8.ofNat).length from
        rfl, drop_left, decodeBE16_encodeBE16 hcode]
    rw [← append_assoc] at hbytes
    obtain ⟨htext, hbody, hshows⟩ := text_body_shown (n := 8) rfl hbytes hlen
      (Nat.lt_of_le_of_lt buf.fits hcap)
    exact ⟨_, _, ⟨hstart, htext, hbody, hread.symm, hcode'.symm, rfl, rfl⟩, hshows⟩

end Encoded

/-- Which messages come back as they were encoded, and for which payloads the decoded slices lie
within them. -/
theorem codec_iff (payload : List UInt8) :
    (∀ requestId method methodLen body, requestId < cardinals →
      (RequestRoundTrips requestId method methodLen body ↔
        (method.take methodLen).length ≤ 65535 ∧
          12 + (method.take methodLen).length + body.length ≤ maxBufCap)) ∧
      (∀ requestId body, requestId < cardinals →
        (ResponseRoundTrips requestId body ↔ 10 + body.length ≤ maxBufCap)) ∧
      (∀ requestId errCode errMsg errMsgLen body, requestId < cardinals →
        (ErrorRoundTrips requestId errCode errMsg errMsgLen body ↔
          errCode ≤ 65535 ∧ (errMsg.take errMsgLen).length ≤ 65535 ∧
            14 + (errMsg.take errMsgLen).length + body.length ≤ maxBufCap)) ∧
        (RequestBounded payload ↔ (Starts msgRequest payload → TextAt payload 6 →
          LengthsAgree payload (8 + textLength payload 6))) ∧
        (ResponseBounded payload ↔ (Starts msgResponse payload → LengthsAgree payload 6)) ∧
        (ErrorBounded payload ↔ (Starts msgError payload → TextAt payload 8 →
          LengthsAgree payload (10 + textLength payload 8))) := by
  refine ⟨?_, ?_, ?_, ?_⟩
  · exact fun requestId method methodLen body hid => requestRoundTrips_iff hid
  · exact fun requestId body hid => responseRoundTrips_iff hid
  · exact fun requestId errCode errMsg errMsgLen body hid => errorRoundTrips_iff hid
  · exact ⟨requestBounded_iff, responseBounded_iff, errorBounded_iff⟩

/-- A call, its answer and an error without a body come back. -/
theorem codec_ping : RequestRoundTrips 7 [104, 105] 2 [1] ∧ ResponseRoundTrips 7 [1, 2] ∧
    ErrorRoundTrips 7 3 [110, 111] 2 [] := by
  refine ⟨?_, ?_, ?_⟩
  · exact ((codec_iff []).1 7 [104, 105] 2 [1] (by decide)).mpr (by decide)
  · exact ((codec_iff []).2.1 7 [1, 2] (by decide)).mpr (by decide)
  · exact ((codec_iff []).2.2.1 7 3 [110, 111] 2 [] (by decide)).mpr (by decide)

end Mx.Rpc
