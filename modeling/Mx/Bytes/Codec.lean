import Mx.Http2.HpackInts
import Mx.Rpc.Codec

/-!
# The binary codec

`Codec`: the readers and writers that the RPC library does not use, and calls of any of them. A
reader that fails returns before it moves, but for `ReadVarU32`, which goes back.
-/

namespace Mx.Bytes

open Mx.Core
open Http2 (Buf card intTail continuation)
open Rpc

/-! ## Readers -/

/-- `ReadU16LE`. -/
def readU16LE : Reader Nat := fun v pos =>
  if (pos + 2) % cardinals > v.length then .error ()
  else .ok (viewByte v pos + viewByte v (pos + 1) * 256, (pos + 2) % cardinals)

/-- `ReadU32LE`. -/
def readU32LE : Reader Nat := fun v pos =>
  if (pos + 4) % cardinals > v.length then .error ()
  else .ok (viewByte v pos + viewByte v (pos + 1) * 256 + viewByte v (pos + 2) * 65536 +
    viewByte v (pos + 3) * 16777216, (pos + 4) % cardinals)

/-- `Skip`. -/
def skip (n : Nat) : Reader Unit := fun v pos =>
  if (pos + n) % cardinals > v.length then .error () else .ok ((), (pos + n) % cardinals)

/-- The loop of `ReadVarU32`, with the rounds that `count` leaves. -/
def varLoop (v : List UInt8) (savePos : Nat) : Nat → Nat → Nat → Nat → Nat × Option Nat
  | 0, _, _, _ => (savePos, none)
  | left + 1, result, shift, pos =>
    if pos ≥ v.length then (savePos, none)
    else
      let b := viewByte v pos
      let result := card (result + card (b % 128 * shift))
      if b < 128 then (pos + 1, some result)
      else varLoop v savePos left result (card (shift * 128)) (pos + 1)

/-- `ReadVarU32`: the position after it, and the number if it is `ok`. -/
def readVarU32 (v : List UInt8) (pos : Nat) : Nat × Option Nat := varLoop v pos 5 0 1 pos

/-- `INTEGER(u)`. -/
def integer (u : Nat) : Int := Int.bmod u cardinals

/-- `CARDINAL(x)`. -/
def cardinal (x : Int) : Nat := (x % cardinals).toNat

/-- `ZigZagEncode`. -/
def zigZagEncode (x : Int) : Nat :=
  if x ≥ 0 then card (cardinal x * 2) else card (cardinal (-(x + 1)) * 2 + 1)

/-- `ZigZagDecode`. -/
def zigZagDecode (u : Nat) : Int :=
  if u % 2 = 0 then integer (u / 2) else -integer (u / 2) - 1

/-! ## Calls -/

/-- A call of a reader, with the order of the bytes. -/
inductive Call where
  | u8
  | u16 (bigEndian : Bool)
  | u32 (bigEndian : Bool)
  | i32 (bigEndian : Bool)
  | varU32
  | varI32
  | skip (n : UInt32)
  | slice (n : UInt32)

/-- What a reader returns. -/
inductive Val where
  | card (n : Nat)
  | int (x : Int)
  | view (w : View)
  | done

/-- The position after a reader, and its value if it is `ok`. -/
def after {α : Type} (r : Reader α) (f : α → Val) (v : List UInt8) (pos : Nat) :
    Nat × Option Val :=
  match r v pos with
  | .error _ => (pos, none)
  | .ok (a, pos) => (pos, some (f a))

/-- A call at a position of a view. -/
def Call.run (v : List UInt8) (pos : Nat) : Call → Nat × Option Val
  | .u8 => after readU8 .card v pos
  | .u16 bigEndian => after (if bigEndian then readU16BE else readU16LE) .card v pos
  | .u32 bigEndian => after (if bigEndian then readU32BE else readU32LE) .card v pos
  | .i32 bigEndian =>
    after (if bigEndian then readU32BE else readU32LE) (fun u => .int (integer u)) v pos
  | .varU32 => ((readVarU32 v pos).1, (readVarU32 v pos).2.map .card)
  | .varI32 => ((readVarU32 v pos).1, (readVarU32 v pos).2.map fun u => .int (zigZagDecode u))
  | .skip n => after (Bytes.skip n.toNat) (fun _ => .done) v pos
  | .slice n => after (readSlice n.toNat) .view v pos

/-! ## Writers -/

/-- `WriteU16LE`. -/
def writeU16LE (buf : Buf) (val : Nat) : Buf := buf.appendBytes [val % 256, val / 256 % 256]

/-- `WriteU32LE`. -/
def writeU32LE (buf : Buf) (val : Nat) : Buf :=
  buf.appendBytes [val % 256, val / 256 % 256, val / 65536 % 256, val / 16777216 % 256]

/-- `WriteVarU32`. -/
def writeVarU32 (buf : Buf) (val : Nat) : Buf := buf.appendBytes (intTail val val)

/-- A value with the type it is written as. -/
inductive Item where
  | u8 (x : UInt8)
  | u16 (bigEndian : Bool) (x : UInt16)
  | u32 (bigEndian : Bool) (x : UInt32)
  | i32 (bigEndian : Bool) (x : Int32)
  | varU32 (x : UInt32)
  | varI32 (x : Int32)
  | chars (a : List UInt8)

/-- An item is written: `WriteU8`, `WriteU16BE` and so on. -/
def Item.write (buf : Buf) : Item → Buf
  | .u8 x => writeU8 buf x.toNat
  | .u16 bigEndian x => (if bigEndian then writeU16BE else writeU16LE) buf x.toNat
  | .u32 bigEndian x => (if bigEndian then writeU32BE else writeU32LE) buf x.toNat
  | .i32 bigEndian x => (if bigEndian then writeU32BE else writeU32LE) buf (cardinal x.toInt)
  | .varU32 x => writeVarU32 buf x.toNat
  | .varI32 x => writeVarU32 buf (zigZagEncode x.toInt)
  | .chars a => writeChars buf a a.length

/-- The call that reads an item back; the length of a string is known. -/
def Item.call : Item → Call
  | .u8 _ => .u8
  | .u16 bigEndian _ => .u16 bigEndian
  | .u32 bigEndian _ => .u32 bigEndian
  | .i32 bigEndian _ => .i32 bigEndian
  | .varU32 _ => .varU32
  | .varI32 _ => .varI32
  | .chars a => .slice (UInt32.ofNat a.length)

/-! ## Variable lengths -/

theorem continuation_pos {bs : List UInt8} {n k : Nat} (h : continuation bs = some (n, k)) :
    0 < k := by
  cases bs with
  | nil => cases h
  | cons b bs =>
    rw [continuation] at h
    split at h
    · cases h
      exact Nat.zero_lt_one
    · obtain ⟨r, -, heq⟩ := Option.map_eq_some_iff.mp h
      cases heq
      exact Nat.succ_pos _

/-- The loop adds up what the continuation bytes denote, if there are not too many. -/
theorem varLoop_eq {v : List UInt8} (hv : v.length < cardinals) (savePos left result shift : Nat)
    {pos : Nat} (hpos : pos ≤ v.length) :
    varLoop v savePos left result shift pos =
      match continuation (v.drop pos) with
      | none => (savePos, none)
      | some (n, k) => if k ≤ left then (pos + k, some (card (result + n * shift)))
        else (savePos, none) := by
  induction left generalizing result shift pos with
  | zero =>
    rw [varLoop]
    split
    · rfl
    · next n k heq => rw [if_neg (Nat.not_le.mpr (continuation_pos heq))]
  | succ left ih =>
    rw [varLoop]
    by_cases hend : pos ≥ v.length
    · rw [if_pos hend, List.drop_eq_nil_of_le hend]
      rfl
    have hlt : pos < v.length := Nat.not_le.mp hend
    have hbyte : viewByte v pos = v[pos].toNat := by
      rw [viewByte, Nat.mod_eq_of_lt (Nat.lt_trans hlt hv), List.getD_eq_getElem?_getD,
        List.getElem?_eq_getElem hlt, Option.getD_some]
    rw [if_neg hend, hbyte, List.drop_eq_getElem_cons hlt, continuation]
    dsimp only
    by_cases hlast : v[pos].toNat < 128
    · have hadd := Http2.card_add_mul result v[pos].toNat shift 0
      have hcard : ∀ n, card (card n) = card n := fun n => Nat.mod_mod _ _
      rw [Nat.zero_mul, Nat.add_zero, Nat.mul_zero, Nat.add_zero, hcard] at hadd
      rw [if_pos hlast, if_pos hlast, Nat.mod_eq_of_lt hlast, hadd]
      exact (if_pos (Nat.le_add_left 1 left)).symm
    · rw [if_neg hlast, if_neg hlast, ih _ _ hlt]
      cases continuation (v.drop (pos + 1)) with
      | none => rfl
      | some r =>
        have hend : pos + 1 + r.2 = pos + (r.2 + 1) := by omega
        simp only [Option.map_some, Http2.card_add_mul, Nat.add_le_add_iff_right, hend]

/-- `ReadVarU32` reads at most five bytes, and returns what they denote modulo `2^32`. -/
theorem readVarU32_eq {v : List UInt8} (hv : v.length < cardinals) {pos : Nat}
    (hpos : pos ≤ v.length) :
    readVarU32 v pos =
      match continuation (v.drop pos) with
      | none => (pos, none)
      | some (n, k) => if k ≤ 5 then (pos + k, some (card n)) else (pos, none) := by
  rw [readVarU32, varLoop_eq hv _ _ _ _ hpos]
  simp only [Nat.zero_add, Nat.mul_one]

end Mx.Bytes
