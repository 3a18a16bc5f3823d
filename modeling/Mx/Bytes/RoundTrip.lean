import Mx.Bytes.Codec

/-!
# What was written is read back

Items of any types that are written one after the other are read back in the same order, and all
their bytes are consumed. `ReadVarU32` also accepts five bytes that denote more than `2^32`.
-/

namespace Mx.Bytes

open List

open Http2 (Buf card intTail continuation wire maxBufCap)
open Rpc

/-! ## Numbers -/

theorem integer_cardinal {x : Int} (hge : -2147483648 ≤ x) (hlt : x < 2147483648) :
    integer (cardinal x) = x := by
  have hcast : ((x % cardinals).toNat : Int) = x % cardinals :=
    Int.toNat_of_nonneg (Int.emod_nonneg x (by decide))
  rw [integer, cardinal, hcast, Int.emod_bmod]
  exact Int.bmod_eq_of_le (by rw [cardinals]; omega) (by rw [cardinals]; omega)

theorem cardinal_of_nonneg {x : Int} (hge : 0 ≤ x) (hlt : x < 4294967296) :
    cardinal x = x.toNat := by
  exact congrArg Int.toNat (Int.emod_eq_of_lt hge hlt)

theorem integer_of_lt {u : Nat} (h : u < 2147483648) : integer u = u :=
  Int.bmod_eq_of_le (by rw [cardinals]; omega) (by rw [cardinals]; omega)

theorem zigZagEncode_eq {x : Int} (hge : -2147483648 ≤ x) (hlt : x < 2147483648) :
    zigZagEncode x = if x ≥ 0 then x.toNat * 2 else (-(x + 1)).toNat * 2 + 1 := by
  rw [zigZagEncode]
  split
  · rw [cardinal_of_nonneg (by omega) (by omega), Http2.card_of_lt (by omega)]
  · rw [cardinal_of_nonneg (by omega) (by omega), Http2.card_of_lt (by omega)]

theorem zigZagDecode_eq {u : Nat} (h : u < 4294967296) :
    zigZagDecode u = if u % 2 = 0 then (u / 2 : Int) else -(u / 2 : Int) - 1 := by
  rw [zigZagDecode, integer_of_lt (by omega)]
  norm_cast

theorem zigZagDecode_encode {x : Int} (hge : -2147483648 ≤ x) (hlt : x < 2147483648) :
    zigZagDecode (zigZagEncode x) = x := by
  rw [zigZagEncode_eq hge hlt]
  split
  · rw [zigZagDecode_eq (by omega)]
    omega
  · rw [zigZagDecode_eq (by omega)]
    omega

theorem zigZagEncode_decode {u : Nat} (h : u < 4294967296) :
    zigZagEncode (zigZagDecode u) = u := by
  rw [zigZagDecode_eq h]
  split
  · rw [zigZagEncode_eq (by omega) (by omega), if_pos (by omega)]
    omega
  · rw [zigZagEncode_eq (by omega) (by omega), if_neg (by omega)]
    omega

/-! ## Variable lengths -/

/-- The bytes of a number denote it. -/
theorem continuation_intTail {fuel val : Nat} (h : val ≤ fuel) (rest : List UInt8) :
    continuation (wire (intTail fuel val) ++ rest) = some (val, (intTail fuel val).length) := by
  induction fuel generalizing val with
  | zero =>
    obtain rfl := Nat.le_zero.mp h
    rfl
  | succ fuel ih =>
    rw [intTail]
    split
    · next hge =>
      have hbyte : (UInt8.ofNat (val % 128 + 128)).toNat = val % 128 + 128 := by
        rw [UInt8.toNat_ofNat']
        omega
      rw [Http2.wire_cons, cons_append, continuation, hbyte, if_neg (by omega),
        ih (by omega), Option.map_some, Option.some.injEq, Prod.mk.injEq]
      exact ⟨by omega, rfl⟩
    · next hlt =>
      have hbyte : (UInt8.ofNat val).toNat = val := by
        rw [UInt8.toNat_ofNat']
        omega
      rw [Http2.wire_cons, cons_append, continuation, hbyte, if_pos (by omega)]
      rfl

/-- After so many bytes that are continued, the last one is too large. -/
def overlong : Nat → List UInt8 → Prop
  | _, [] => False
  | 0, b :: _ => 16 ≤ b.toNat ∧ b.toNat < 128
  | d + 1, b :: l => 128 ≤ b.toNat ∧ overlong d l

theorem overlong_iff {d n k : Nat} {l : List UInt8} (h : continuation l = some (n, k))
    (hk : k ≤ d + 1) : 16 * 128 ^ d ≤ n ↔ overlong d l := by
  induction d generalizing l n k with
  | zero =>
    cases l with
    | nil => cases h
    | cons b l =>
      rw [continuation] at h
      split at h
      · next hb =>
        cases h
        exact ⟨fun hn => ⟨hn, hb⟩, And.left⟩
      · obtain ⟨r, hr, heq⟩ := Option.map_eq_some_iff.mp h
        cases heq
        have hpos := continuation_pos hr
        omega
  | succ d ih =>
    cases l with
    | nil => cases h
    | cons b l =>
      have hpow : 128 ^ (d + 1) = 128 * 128 ^ d := by rw [Nat.pow_succ, Nat.mul_comm]
      have hone : 0 < 128 ^ d := Nat.pow_pos (by decide)
      rw [continuation] at h
      split at h
      · next hb =>
        cases h
        exact iff_of_false (by omega) fun ho => absurd hb (Nat.not_lt.mpr ho.1)
      · next hb =>
        obtain ⟨r, hr, heq⟩ := Option.map_eq_some_iff.mp h
        cases heq
        rw [overlong, ← ih hr (by omega)]
        constructor
        · intro hn
          exact ⟨Nat.not_lt.mp hb, by omega⟩
        · intro hn
          omega

theorem continuation_of_overlong {d : Nat} {l : List UInt8} (h : overlong d l) :
    ∃ n, continuation l = some (n, d + 1) := by
  induction d generalizing l with
  | zero =>
    cases l with
    | nil => exact h.elim
    | cons b l => exact ⟨b.toNat, if_pos h.2⟩
  | succ d ih =>
    cases l with
    | nil => exact h.elim
    | cons b l =>
      obtain ⟨n, hn⟩ := ih h.2
      refine ⟨b.toNat % 128 + 128 * n, ?_⟩
      rw [continuation, if_neg (Nat.not_lt.mpr h.1), hn]
      rfl

/-! ## Items -/

/-- The bytes of a number that has two. -/
def word16 (bigEndian : Bool) (n : Nat) : List Nat :=
  if bigEndian then [n / 256 % 256, n % 256] else [n % 256, n / 256 % 256]

/-- The bytes of a number that has four. -/
def word32 (bigEndian : Bool) (n : Nat) : List Nat :=
  if bigEndian then [n / 16777216 % 256, n / 65536 % 256, n / 256 % 256, n % 256]
  else [n % 256, n / 256 % 256, n / 65536 % 256, n / 16777216 % 256]

/-- The bytes of an item. -/
def Item.bytes : Item → List Nat
  | .u8 x => [x.toNat % 256]
  | .u16 bigEndian x => word16 bigEndian x.toNat
  | .u32 bigEndian x => word32 bigEndian x.toNat
  | .i32 bigEndian x => word32 bigEndian (cardinal x.toInt)
  | .varU32 x => intTail x.toNat x.toNat
  | .varI32 x => intTail (zigZagEncode x.toInt) (zigZagEncode x.toInt)
  | .chars a => a.map UInt8.toNat

theorem Item.write_eq (buf : Buf) (item : Item) : item.write buf = buf.appendBytes item.bytes := by
  cases item with
  | u16 bigEndian x | u32 bigEndian x | i32 bigEndian x => cases bigEndian <;> rfl
  | chars a =>
    rw [Item.write, writeChars, if_neg (Nat.lt_irrefl _), take_length]
    rfl
  | _ => rfl

/-- A value that is read from a view is an item's. -/
def Item.Is (v : List UInt8) : Item → Val → Prop
  | .u8 x, val => val = .card x.toNat
  | .u16 _ x, val => val = .card x.toNat
  | .u32 _ x, val => val = .card x.toNat
  | .i32 _ x, val => val = .int x.toInt
  | .varU32 x, val => val = .card x.toNat
  | .varI32 x, val => val = .int x.toInt
  | .chars a, val => ∃ w, val = .view w ∧ w.bytes v = a

section Items

variable {front rest l : List UInt8} {α : Type} {a : α} {k : Nat}

theorem viewByte_append (i : Nat) (h : front.length + i < cardinals) :
    viewByte (front ++ l) (front.length + i) = (l.getD i 0).toNat := by
  rw [viewByte, Nat.mod_eq_of_lt h, getD_eq_getElem?_getD, getElem?_append_right
    (Nat.le_add_right _ _), Nat.add_sub_cancel_left, getD_eq_getElem?_getD]

theorem viewByte_first (h : front.length < cardinals) :
    viewByte (front ++ l) front.length = (l.getD 0 0).toNat := viewByte_append 0 h

/-- A reader that compares the sum takes the bytes that are there. -/
theorem after_of_compares {r : Reader α} (f : α → Val)
    (hv : (front ++ l).length < cardinals) (hk : k ≤ l.length)
    (hr : r (front ++ l) front.length =
      if (front.length + k) % cardinals > (front ++ l).length then .error ()
      else .ok (a, (front.length + k) % cardinals)) :
    after r f (front ++ l) front.length = (front.length + k, some (f a)) := by
  rw [length_append] at hv
  rw [after, hr, Nat.mod_eq_of_lt (by omega), length_append, if_neg (by omega)]

/-- Four bytes are read as their number. -/
theorem after_word32 {n : Nat} (hn : n < 4294967296) (bigEndian : Bool) (f : Nat → Val)
    (hv : (front ++ (wire (word32 bigEndian n) ++ rest)).length < cardinals) :
    after (if bigEndian then readU32BE else readU32LE) f
      (front ++ (wire (word32 bigEndian n) ++ rest)) front.length =
      (front.length + 4, some (f n)) := by
  have hlength : 4 ≤ (wire (word32 bigEndian n) ++ rest).length := by
    cases bigEndian <;> exact Nat.le_add_left 4 rest.length
  have hpos : front.length + 3 < cardinals := by
    rw [length_append] at hv
    omega
  cases bigEndian
  all_goals
    refine (after_of_compares f hv hlength rfl).trans ?_
    rw [viewByte_append 3 hpos, viewByte_append 2 (by omega), viewByte_append 1 (by omega),
      viewByte_first (by omega)]
    refine congrArg (fun m => (front.length + 4, some (f m))) ?_
    change (UInt8.ofNat _).toNat + (UInt8.ofNat _).toNat * 256 + (UInt8.ofNat _).toNat * 65536 +
      (UInt8.ofNat _).toNat * 16777216 = n
    simp only [UInt8.toNat_ofNat']
    omega

/-- Two bytes are read as their number. -/
theorem after_word16 {n : Nat} (hn : n < 65536) (bigEndian : Bool) (f : Nat → Val)
    (hv : (front ++ (wire (word16 bigEndian n) ++ rest)).length < cardinals) :
    after (if bigEndian then readU16BE else readU16LE) f
      (front ++ (wire (word16 bigEndian n) ++ rest)) front.length =
      (front.length + 2, some (f n)) := by
  have hlength : 2 ≤ (wire (word16 bigEndian n) ++ rest).length := by
    cases bigEndian <;> exact Nat.le_add_left 2 rest.length
  have hpos : front.length + 1 < cardinals := by
    rw [length_append] at hv
    omega
  cases bigEndian
  all_goals
    refine (after_of_compares f hv hlength rfl).trans ?_
    rw [viewByte_append 1 hpos, viewByte_first (by omega)]
    refine congrArg (fun m => (front.length + 2, some (f m))) ?_
    change (UInt8.ofNat _).toNat + (UInt8.ofNat _).toNat * 256 = n
    simp only [UInt8.toNat_ofNat']
    omega

/-- A number of variable length is read. -/
theorem readVarU32_intTail {n : Nat} (hn : n < 4294967296)
    (hv : (front ++ (wire (intTail n n) ++ rest)).length < cardinals) :
    readVarU32 (front ++ (wire (intTail n n) ++ rest)) front.length =
      (front.length + (intTail n n).length, some n) := by
  have hle : (intTail n n).length ≤ 5 := Http2.intTail_length (k := 4) n (by omega)
  rw [readVarU32_eq hv (by rw [length_append]; omega), drop_left,
    continuation_intTail (Nat.le_refl n)]
  dsimp only
  rw [if_pos hle, Http2.card_of_lt hn]

/-- An item is read where it stands. -/
theorem Item.run_call (item : Item) (hv : (front ++ (wire item.bytes ++ rest)).length < cardinals) :
    ∃ x, item.call.run (front ++ (wire item.bytes ++ rest)) front.length =
        (front.length + (wire item.bytes).length, some x) ∧
      item.Is (front ++ (wire item.bytes ++ rest)) x := by
  have hword16 : ∀ be n, (wire (word16 be n)).length = 2 := fun be n => by cases be <;> rfl
  have hword32 : ∀ be n, (wire (word32 be n)).length = 4 := fun be n => by cases be <;> rfl
  cases item with
  | u8 x =>
    have hbyte : (UInt8.ofNat (x.toNat % 256)).toNat = x.toNat := by
      rw [UInt8.toNat_ofNat', Nat.mod_mod, Nat.mod_eq_of_lt x.toNat_lt]
    have hlt : front.length < (front ++ (wire [x.toNat % 256] ++ rest)).length := by
      rw [length_append]
      exact Nat.lt_add_of_pos_right (Nat.zero_lt_succ _)
    refine ⟨.card x.toNat, ?_, rfl⟩
    rw [Item.call, Call.run, after, Item.bytes, readU8, if_neg (Nat.not_le.mpr hlt),
      viewByte_first (Nat.lt_trans hlt hv)]
    exact congrArg (fun m => (front.length + 1, some (Val.card m))) hbyte
  | u16 be x =>
    refine ⟨.card x.toNat, (after_word16 x.toNat_lt be .card hv).trans ?_, rfl⟩
    rw [Item.bytes, hword16]
  | u32 be x =>
    refine ⟨.card x.toNat, (after_word32 x.toNat_lt be .card hv).trans ?_, rfl⟩
    rw [Item.bytes, hword32]
  | i32 be x =>
    have hn : cardinal x.toInt < 4294967296 := by
      rw [cardinal, cardinals]
      omega
    refine ⟨.int (integer (cardinal x.toInt)),
      (after_word32 hn be (fun u => .int (integer u)) hv).trans ?_, ?_⟩
    · rw [Item.bytes, hword32]
    · exact congrArg Val.int (integer_cardinal x.le_toInt x.toInt_lt)
  | varU32 x =>
    refine ⟨.card x.toNat, ?_, rfl⟩
    rw [Item.call, Call.run, Item.bytes, readVarU32_intTail x.toNat_lt hv, Http2.wire_length]
    rfl
  | varI32 x =>
    have hn : zigZagEncode x.toInt < 4294967296 := by
      rw [zigZagEncode]
      split <;> exact Nat.mod_lt _ (by decide)
    refine ⟨.int x.toInt, ?_, rfl⟩
    rw [Item.call, Call.run, Item.bytes, readVarU32_intTail hn hv, Http2.wire_length]
    exact congrArg (fun i => (front.length + _, some (Val.int i)))
      (zigZagDecode_encode x.le_toInt x.toInt_lt)
  | chars a =>
    rw [Item.bytes, Http2.wire_toNat] at hv ⊢
    have hlength : (UInt32.ofNat a.length).toNat = a.length := by
      rw [UInt32.toNat_ofNat']
      refine Nat.mod_eq_of_lt (Nat.lt_of_le_of_lt ?_ hv)
      rw [length_append, length_append]
      omega
    have hread : readSlice a.length (front ++ (a ++ rest)) front.length = _ := rfl
    rw [Item.call, Call.run, hlength]
    refine ⟨_, after_of_compares .view hv ?_ hread, _, rfl, ?_⟩
    · rw [length_append]
      exact Nat.le_add_right _ _
    · exact (congrArg (List.take a.length) drop_left).trans take_left

end Items

/-! ## Sequences -/

/-- From the position the items are read back, and then the view ends. -/
def ReadsBack (v : List UInt8) : Nat → List Item → Prop
  | pos, [] => pos = v.length
  | pos, item :: items => ∃ x, (item.call.run v pos).2 = some x ∧ item.Is v x ∧
      ReadsBack v (item.call.run v pos).1 items

/-- The bytes of items. -/
def itemsBytes (items : List Item) : List UInt8 := wire (items.flatMap Item.bytes)

theorem readsBack_append (items : List Item) (front : List UInt8)
    (hv : (front ++ itemsBytes items).length < cardinals) :
    ReadsBack (front ++ itemsBytes items) front.length items := by
  induction items generalizing front with
  | nil => exact (congrArg List.length (append_nil front)).symm
  | cons item items ih =>
    have hbytes : itemsBytes (item :: items) = wire item.bytes ++ itemsBytes items := by
      rw [itemsBytes, flatMap_cons, Http2.wire_append]
      rfl
    rw [hbytes] at hv ⊢
    obtain ⟨x, hrun, hx⟩ := item.run_call hv
    have hrest := ih (front ++ wire item.bytes) (by rwa [append_assoc])
    rw [append_assoc, length_append] at hrest
    exact ⟨x, by rw [hrun], hx, by rwa [hrun]⟩

theorem foldl_write (items : List Item) (b : Buf) :
    items.foldl Item.write b = b.appendBytes (items.flatMap Item.bytes) := by
  induction items generalizing b with
  | nil => rfl
  | cons item items ih =>
    rw [foldl_cons, ih, Item.write_eq, flatMap_cons, Buf.appendBytes, Buf.appendBytes,
      ← foldl_append]
    rfl

/-- The bytes that `ReadVarU32` accepts denote a value below `2^32`, and it returns it. -/
def VarExact (v : List UInt8) (pos : Nat) : Prop :=
  ∀ stop u, readVarU32 v pos = (stop, some u) →
    stop ≤ pos + 5 ∧ continuation (v.drop pos) = some (u, stop - pos) ∧ u < 4294967296

/-- Items that fit a buffer come back, zig-zag numbers are read as they were written, and
`ReadVarU32` is exact but for a fifth byte from 16 to 127. -/
theorem codec_roundTrip_iff (b : Buf) (items : List Item) :
    (b.bytes.length + (itemsBytes items).length ≤ maxBufCap →
        (items.foldl Item.write b).bytes = b.bytes ++ itemsBytes items ∧
          ReadsBack (itemsBytes items) 0 items) ∧
    (∀ x : Int, -2147483648 ≤ x → x < 2147483648 → zigZagDecode (zigZagEncode x) = x) ∧
    (∀ u, u < 4294967296 → zigZagEncode (zigZagDecode u) = u) ∧
    ∀ (v : List UInt8) (pos : Nat), v.length < cardinals → pos ≤ v.length →
      (VarExact v pos ↔ ¬overlong 4 (v.drop pos)) := by
  refine ⟨fun hb => ⟨?_, ?_⟩, fun x => zigZagDecode_encode, fun u => zigZagEncode_decode, ?_⟩
  · rw [foldl_write, Buf.appendBytes_of_le (by rwa [itemsBytes, Http2.wire_length] at hb)]
    rfl
  · refine readsBack_append items [] (Nat.lt_of_le_of_lt ?_ (show maxBufCap < cardinals by decide))
    exact Nat.le_trans (Nat.le_add_left _ _) hb
  · intro v pos hv hpos
    have hsize : (16 * 128 ^ 4 : Nat) = 4294967296 := rfl
    rw [VarExact, readVarU32_eq hv hpos]
    constructor
    · intro hexact ho
      obtain ⟨n, hn⟩ := continuation_of_overlong ho
      rw [hn] at hexact
      obtain ⟨-, heq, hlt⟩ := hexact (pos + 5) (card n) rfl
      have heq : n = card n := (Prod.mk.inj (Option.some.inj heq)).1
      have hge := (overlong_iff hn (Nat.le_refl 5)).mpr ho
      omega
    · intro hno stop u hread
      cases hn : continuation (v.drop pos) with
      | none => rw [hn] at hread; cases hread
      | some r =>
        obtain ⟨n, k⟩ := r
        rw [hn] at hread
        dsimp only at hread
        split at hread
        · next hk =>
          cases hread
          have hlt : n < 4294967296 := by
            have hge := mt (overlong_iff hn hk).mp hno
            omega
          rw [Http2.card_of_lt hlt, Nat.add_sub_cancel_left]
          exact ⟨Nat.add_le_add_left hk pos, rfl, hlt⟩
        · cases hread

/-- Four bytes that are continued and a byte of 127. -/
theorem codec_overflow : ¬∀ (v : List UInt8) (pos : Nat), v.length < cardinals → pos ≤ v.length →
    VarExact v pos := by
  intro h
  have hexact := (h [255, 255, 255, 255, 127] 0 (by decide) (Nat.zero_le _) 5 4294967295 rfl).2.1
  cases hexact

end Mx.Bytes
