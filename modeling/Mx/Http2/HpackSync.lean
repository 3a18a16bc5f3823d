import Mx.Http2.Hpack

/-!
# Encoder and decoder in step

What `EncodeHeaderBlock` writes for a header is read as that header by `DecodeHeaderBlock`, and both
do the same to their tables. But the decoder stops without an error after `maxOut` headers, and the
encoder does not notice that a buffer is full, so a block can be read in part only and the tables
are out of step from then on.
-/

namespace Mx.Http2

open Mx.Core ViewReader List

/-! ## Bytes of a block -/

/-- The bytes as a buffer holds them. -/
def wire (xs : List Nat) : List UInt8 := xs.map UInt8.ofNat

@[simp] theorem wire_cons (x : Nat) (xs : List Nat) : wire (x :: xs) = UInt8.ofNat x :: wire xs :=
  rfl

@[simp] theorem wire_length (xs : List Nat) : (wire xs).length = xs.length := length_map _

@[simp] theorem wire_append (xs ys : List Nat) : wire (xs ++ ys) = wire xs ++ wire ys :=
  map_append

theorem wire_toNat (s : List UInt8) : wire (s.map UInt8.toNat) = s := by
  simp [wire, Function.comp_def]

theorem viewGetByte_append (front rest : List UInt8) (x : UInt8) :
    viewGetByte (front ++ x :: rest) front.length = x.toNat := by
  simp [viewGetByte]

theorem toNat_ofNat_of_lt {x : Nat} (h : x < 256) : (UInt8.ofNat x).toNat = x := by
  rw [UInt8.toNat_ofNat']
  omega

/-! ## Integers -/

/-- The powers of 128 that `DecodeInt` multiplies with. -/
def IsMult (mult : Nat) : Prop :=
  mult = 1 ∨ mult = 128 ∨ mult = 16384 ∨ mult = 2097152 ∨ mult = 268435456

theorem decodeIntLoop_succ (fuel result mult : Nat) (v : List UInt8) (pos : Nat) :
    decodeIntLoop (fuel + 1) result mult v pos =
      if pos ≥ v.length then .error .notOk
      else if viewGetByte v pos < 128 then
        .ok (card (result + card (viewGetByte v pos % 128 * mult)), pos + 1)
      else if card (mult * 128) > 268435456 then .error .notOk
      else decodeIntLoop fuel (card (result + card (viewGetByte v pos % 128 * mult)))
        (card (mult * 128)) v (pos + 1) := rfl

variable {mult result val : Nat}

/-- The next digit of a number that fits, with the next power. -/
theorem IsMult.next (hmult : IsMult mult) (hval : 128 ≤ val)
    (hfit : result + val * mult < 4294967296) :
    IsMult (mult * 128) ∧ mult * 128 ≤ 268435456 ∧
      result + val % 128 * mult + val / 128 * (mult * 128) = result + val * mult := by
  unfold IsMult
  obtain rfl | rfl | rfl | rfl | rfl := hmult
  all_goals refine ⟨?_, ?_, ?_⟩ <;> omega

/-- One round of the loop that goes on. -/
theorem decodeIntLoop_more (fuel : Nat) (front rest : List UInt8)
    (hmult : IsMult mult) (hval : 128 ≤ val) (hfit : result + val * mult < 4294967296) :
    decodeIntLoop (fuel + 1) result mult (front ++ UInt8.ofNat (val % 128 + 128) :: rest)
        front.length =
      decodeIntLoop fuel (result + val % 128 * mult) (mult * 128)
        (front ++ UInt8.ofNat (val % 128 + 128) :: rest) (front.length + 1) := by
  obtain ⟨-, hmax, hsum⟩ := hmult.next hval hfit
  have hbyte := viewGetByte_append front rest (UInt8.ofNat (val % 128 + 128))
  rw [toNat_ofNat_of_lt (by omega)] at hbyte
  have hlong : ¬ front.length ≥ (front ++ UInt8.ofNat (val % 128 + 128) :: rest).length := by simp
  have hdigit : (val % 128 + 128) % 128 = val % 128 := by omega
  rw [decodeIntLoop_succ, if_neg hlong, hbyte, if_neg (by omega), hdigit,
    card_of_lt (n := mult * 128) (by omega), if_neg (by omega),
    card_of_lt (n := val % 128 * mult) (by omega), card_of_lt (by omega)]

theorem decodeIntLoop_last (fuel : Nat) (front rest : List UInt8)
    (hval : val < 128) (hfit : result + val * mult < 4294967296) :
    decodeIntLoop (fuel + 1) result mult (front ++ UInt8.ofNat val :: rest) front.length =
      .ok (result + val * mult, front.length + 1) := by
  have hbyte := viewGetByte_append front rest (UInt8.ofNat val)
  rw [toNat_ofNat_of_lt (by omega)] at hbyte
  have hlong : ¬ front.length ≥ (front ++ UInt8.ofNat val :: rest).length := by simp
  rw [decodeIntLoop_succ, if_neg hlong, hbyte, if_pos hval, Nat.mod_eq_of_lt hval,
    card_of_lt (n := val * mult) (by omega), card_of_lt hfit]

theorem decodeIntLoop_whole (fuel : Nat) {n : Nat} (front rest : List UInt8)
    (hmult : IsMult mult) (hn : val ≤ n) (hfit : result + val * mult < 4294967296)
    (hfuel : (intTail n val).length ≤ fuel) :
    decodeIntLoop fuel result mult (front ++ (wire (intTail n val) ++ rest)) front.length =
      .ok (result + val * mult, (front ++ wire (intTail n val)).length) := by
  induction n generalizing fuel result mult val front with
  | zero =>
    cases fuel with
    | zero => exact absurd hfuel (by simp [intTail])
    | succ fuel =>
      rw [intTail, wire_cons]
      have hlast := decodeIntLoop_last fuel front rest (by omega : val < 128) hfit
      simpa [wire] using hlast
  | succ n ih =>
    cases fuel with
    | zero =>
      rw [intTail] at hfuel
      split at hfuel <;> exact absurd hfuel (by simp)
    | succ fuel =>
      rw [intTail] at hfuel ⊢
      by_cases hval : val ≥ 128
      · rw [if_pos hval] at hfuel ⊢
        rw [length_cons] at hfuel
        obtain ⟨hmult', -, hsum⟩ := hmult.next hval hfit
        have hstep := decodeIntLoop_more fuel front (wire (intTail n (val / 128)) ++ rest) hmult
          hval hfit
        have hrest := ih fuel (front ++ [UInt8.ofNat (val % 128 + 128)]) hmult'
          (by omega : val / 128 ≤ n)
          (by rw [hsum]; exact hfit) (by omega)
        rw [hsum] at hrest
        rw [wire_cons, cons_append, hstep]
        simpa using hrest
      · rw [if_neg hval] at hfuel ⊢
        have hlast := decodeIntLoop_last fuel front rest (by omega : val < 128) hfit
        simpa [wire] using hlast

theorem decodeIntLoop_end {fuel : Nat} {v : List UInt8} :
    decodeIntLoop fuel result mult v v.length = .error .notOk := by
  cases fuel with
  | zero => rfl
  | succ fuel => rw [decodeIntLoop_succ, if_pos le_rfl]

theorem decodeIntLoop_short (fuel : Nat) {n : Nat} (front : List UInt8) {part : List UInt8}
    (hmult : IsMult mult) (hfit : result + val * mult < 4294967296)
    (hpart : part <+: wire (intTail n val)) (hlt : part.length < (wire (intTail n val)).length) :
    decodeIntLoop fuel result mult (front ++ part) front.length = .error .notOk := by
  induction n generalizing fuel result mult val front part with
  | zero =>
    have hnil : part = [] := by
      rw [wire_length] at hlt
      exact length_eq_zero_iff.mp (by simpa [intTail] using hlt)
    subst hnil
    simpa using decodeIntLoop_end (v := front)
  | succ n ih =>
    cases part with
    | nil => simpa using decodeIntLoop_end (v := front)
    | cons x part =>
      rw [intTail] at hpart hlt
      by_cases hval : val ≥ 128
      · rw [if_pos hval, wire_cons] at hpart hlt
        obtain ⟨rfl, hpart'⟩ := cons_prefix_cons.mp hpart
        cases fuel with
        | zero => rfl
        | succ fuel =>
          obtain ⟨hmult', -, hsum⟩ := hmult.next hval hfit
          have hstep := decodeIntLoop_more fuel front part hmult hval hfit
          have hrest := ih fuel (front ++ [UInt8.ofNat (val % 128 + 128)])
            hmult' (by rw [hsum]; exact hfit) hpart' (by simpa using hlt)
          rw [hstep]
          simpa using hrest
      · rw [if_neg hval] at hlt
        exact absurd hlt (by simp)

/-- An integer is read as it was written, whatever the width of its first part. -/
theorem reads_decodeInt (bound prefixBits : Nat) {value : Nat} (hvalue : value < 4294967296) :
    ViewReader.Reads bound Fault.notOk (decodeInt (intFirst value prefixBits) prefixBits)
      (wire (intRest value prefixBits)) value := by
  have hone : IsMult 1 := .inl rfl
  constructor
  · intro front rest _
    rw [decodeInt, intFirst, intRest]
    by_cases hsmall : value < prefixMax prefixBits
    · rw [if_pos hsmall, if_pos (by omega), Nat.min_eq_left (Nat.le_of_lt hsmall)]
      simp [wire]
    · rw [if_neg hsmall, if_neg (by omega)]
      have hread := decodeIntLoop_whole ((front ++
          (wire (intTail (value - prefixMax prefixBits) (value - prefixMax prefixBits)) ++
            rest)).length + 1) front rest hone (Nat.le_refl (value - prefixMax prefixBits))
        (by omega : prefixMax prefixBits + (value - prefixMax prefixBits) * 1 < 4294967296)
        (by simp; omega)
      rw [hread]
      congr 2
      omega
  · intro front part _ hpart hlt
    rw [decodeInt, intFirst]
    rw [intRest] at hpart hlt
    by_cases hsmall : value < prefixMax prefixBits
    · rw [if_pos hsmall] at hlt
      exact absurd hlt (Nat.not_lt_zero _)
    · rw [if_neg hsmall] at hpart hlt
      rw [if_neg (by omega)]
      exact decodeIntLoop_short _ front hone (by omega) hpart hlt

/-! ## Strings and fields -/

theorem reads_readByte {bound : Nat} (x : UInt8) :
    ViewReader.Reads bound Fault.notOk readByte [x] x.toNat where
  whole front rest _ := by
    have hlong : ¬ front.length ≥ (front ++ ([x] ++ rest)).length := by simp
    have hbyte := viewGetByte_append front rest x
    rw [readByte, if_neg hlong, singleton_append, hbyte, length_append, length_singleton]
  short front part _ _ hlt := by
    have hnil : part = [] := by
      cases part with
      | nil => rfl
      | cons y part => exact absurd hlt (by simp)
    rw [hnil, append_nil, readByte, if_pos le_rfl]

theorem copyViewToArr_append {front s : List UInt8} (rest : List UInt8)
    (h : front.length + s.length ≤ 4294967296) :
    copyViewToArr (front ++ (s ++ rest)) front.length s.length = s := by
  rw [copyViewToArr]
  refine ext_getElem (by rw [length_map, length_range]) fun i hi hi' => ?_
  have hget : (front ++ (s ++ rest)).getD (front.length + i) 0 = s.get ⟨i, hi'⟩ := by
    rw [getD_eq_getElem?_getD, getElem?_append_right (Nat.le_add_right _ _),
      Nat.add_sub_cancel_left, getElem?_append_left hi', getElem?_eq_getElem hi']
    rfl
  rw [getElem_map, getElem_range, card_of_lt (by omega), viewGetByte, hget, UInt8.ofNat_toNat]
  rfl

theorem reads_readString (huff : HuffDecoder) {maxLen byt : Nat} {s : List UInt8}
    (hbyt : byt < 128) (hs : s.length ≤ maxLen) (hmax : maxLen ≤ hpackMaxValueLen) :
    ViewReader.Reads maxBufCap Fault.notOk (readString huff maxLen byt s.length) s s where
  whole front rest hle := by
    have hcap : maxBufCap = 10485760 := rfl
    have hlen : hpackMaxValueLen = 4096 := rfl
    rw [length_append, length_append] at hle
    have hcard : card (front.length + s.length) = front.length + s.length :=
      card_of_lt (by omega)
    have hfits : ¬ front.length + s.length > (front ++ (s ++ rest)).length := by
      rw [length_append, length_append]
      omega
    rw [readString, hcard, if_neg hfits, if_neg (by omega), if_neg (by omega),
      copyViewToArr_append rest (by omega), length_append]
  short front part hle hpart hlt := by
    have hcap : maxBufCap = 10485760 := rfl
    have hlen : hpackMaxValueLen = 4096 := rfl
    rw [length_append] at hle
    have hcard : card (front.length + s.length) = front.length + s.length :=
      card_of_lt (by omega)
    rw [readString, hcard, if_pos (by rw [length_append]; omega)]

/-- The bytes of a string that is not Huffman-coded. -/
def stringBytes (s : List UInt8) : List UInt8 :=
  wire (intFirst s.length 7 :: intRest s.length 7) ++ s

theorem reads_readLiteralString (huff : HuffDecoder) {maxLen : Nat} {s : List UInt8}
    (hs : s.length ≤ maxLen) (hmax : maxLen ≤ hpackMaxValueLen) :
    ViewReader.Reads maxBufCap Fault.notOk (readLiteralString huff maxLen) (stringBytes s) s := by
  have hlen : hpackMaxValueLen = 4096 := rfl
  have hfirst : intFirst s.length 7 < 128 := by
    have hmin : intFirst s.length 7 ≤ prefixMax 7 := Nat.min_le_right _ _
    have hseven : prefixMax 7 = 127 := rfl
    omega
  have hbyte : (UInt8.ofNat (intFirst s.length 7)).toNat = intFirst s.length 7 :=
    toNat_ofNat_of_lt (by omega)
  have hint := reads_decodeInt maxBufCap 7 (by omega : s.length < 4294967296)
  have hstring := reads_readString huff hfirst hs hmax
  have hbytes : stringBytes s = [UInt8.ofNat (intFirst s.length 7)] ++
      (wire (intRest s.length 7) ++ s) := rfl
  rw [hbytes]
  refine (reads_readByte _).bind ?_
  rw [hbyte, Nat.mod_eq_of_lt hfirst]
  exact hint.bind hstring

theorem reads_lift {α : Type} {bound : Nat} (a : α) :
    ViewReader.Reads bound Fault.notOk (lift (.ok a)) [] a :=
  ViewReader.Reads.pure a

/-- A header that can be sent: its strings fit the arrays, and it has a name. -/
structure Sendable (e : HeaderEntry) : Prop where
  name_pos : 1 ≤ e.name.length
  name_le : e.name.length ≤ hpackMaxNameLen
  value_le : e.value.length ≤ hpackMaxValueLen

/-- The index that the encoder finds for the name of a header. -/
def nameIndex (e : HeaderEntry) : Nat := staticFind e.name e.value false

/-- The first byte of an encoded header. -/
def entryFirst (e : HeaderEntry) : Nat :=
  if exactMatch e then 128 + nameIndex e else 64 + nameIndex e

/-- The bytes of an encoded header after the first. -/
def entryRest (e : HeaderEntry) : List UInt8 :=
  if exactMatch e then []
  else (if nameIndex e > 0 then [] else stringBytes e.name) ++ stringBytes e.value

/-- The bytes of an encoded header. -/
def entryBytes (e : HeaderEntry) : List UInt8 := UInt8.ofNat (entryFirst e) :: entryRest e

theorem nameIndex_le (e : HeaderEntry) : nameIndex e ≤ hpackStaticTableSize := by
  obtain hzero | ⟨-, hle, -⟩ := staticFind_spec e.name e.value false
  · rw [nameIndex, hzero]
    exact Nat.zero_le _
  · exact hle

theorem lookupIndex_nameIndex {e : HeaderEntry} (hpos : 0 < nameIndex e) (dt : DynTable) :
    lookupIndex (nameIndex e) dt = .ok (staticTable (nameIndex e)) ∧
      (staticTable (nameIndex e)).name = e.name := by
  obtain hzero | ⟨hlow, hle, hname⟩ := staticFind_spec e.name e.value false
  · rw [nameIndex, hzero] at hpos
    exact absurd hpos (Nat.lt_irrefl _)
  · refine ⟨?_, hname⟩
    rw [lookupIndex, if_pos (nameIndex_le e), staticLookup, if_pos ⟨hpos, nameIndex_le e⟩]

/-- An index of the static table takes one byte. -/
theorem reads_decodeInt_index (e : HeaderEntry) {prefixBits : Nat}
    (hbits : hpackStaticTableSize < prefixMax prefixBits) :
    ViewReader.Reads maxBufCap Fault.notOk (decodeInt (nameIndex e) prefixBits) []
      (nameIndex e) := by
  have hle := nameIndex_le e
  have hsize : hpackStaticTableSize = 61 := rfl
  have hint := reads_decodeInt maxBufCap prefixBits (by omega : nameIndex e < 4294967296)
  rw [intFirst, intRest, if_pos (by omega), Nat.min_eq_left (by omega)] at hint
  exact hint

theorem reads_readName (huff : HuffDecoder) (dt : DynTable) {e : HeaderEntry} (he : Sendable e) :
    ViewReader.Reads maxBufCap Fault.notOk (readName huff dt (nameIndex e))
      (if nameIndex e > 0 then [] else stringBytes e.name) e.name := by
  rw [readName]
  by_cases hpos : nameIndex e > 0
  · obtain ⟨hlookup, hname⟩ := lookupIndex_nameIndex hpos dt
    rw [if_pos hpos, if_pos hpos, hlookup, ← hname]
    exact (reads_lift _).map HeaderEntry.name
  · rw [if_neg hpos, if_neg hpos]
    exact reads_readLiteralString huff he.name_le (by decide)

/-- What the encoder writes for a header is read as that header. -/
theorem reads_decodeField (huff : HuffDecoder) (dt : DynTable) {e : HeaderEntry} (he : Sendable e) :
    ViewReader.Reads maxBufCap Fault.notOk (decodeField huff dt (entryFirst e)) (entryRest e)
      (.header e (!exactMatch e)) := by
  have hle := nameIndex_le e
  have hsize : hpackStaticTableSize = 61 := rfl
  rw [entryFirst, entryRest, decodeField]
  cases hexact : exactMatch e with
  | true =>
    simp only [exactMatch, Bool.and_eq_true, decide_eq_true_eq, beq_iff_eq] at hexact
    obtain ⟨hpos, hvalue, -⟩ := hexact
    obtain ⟨hlookup, hname⟩ := lookupIndex_nameIndex hpos dt
    have hentry : staticTable (nameIndex e) = e := by
      cases e
      exact congrArg₂ HeaderEntry.mk hname hvalue
    rw [if_pos rfl, if_pos rfl, if_pos (by omega), show (128 + nameIndex e) % 128 = nameIndex e by
      omega]
    refine (reads_decodeInt_index e (by decide)).bind ?_
    have hne : nameIndex e ≠ 0 := Nat.ne_of_gt hpos
    rw [if_neg hne, hlookup, hentry]
    exact (reads_lift e).map fun e => Field.header e false
  | false =>
    rw [if_neg Bool.false_ne_true, if_neg Bool.false_ne_true, if_neg (by omega), if_pos (by omega),
      show (64 + nameIndex e) % 64 = nameIndex e by omega]
    refine (reads_decodeInt_index e (by decide)).bind ?_
    have hvalue := reads_readLiteralString huff he.value_le le_rfl
    exact (reads_readName huff dt he).bind
      (hvalue.map fun value => Field.header ⟨e.name, value⟩ true)

/-! ## Blocks -/

/-- The bytes of a header block. -/
def blockBytes (es : List HeaderEntry) : List UInt8 := es.flatMap entryBytes

theorem Buf.ext' {b b' : Buf} (h : b.bytes = b'.bytes) : b = b' := by
  cases b
  cases b'
  cases h
  rfl

/-- A buffer takes as many of the bytes as it has room for. -/
theorem appendBytes_bytes (b : Buf) (xs : List Nat) :
    (b.appendBytes xs).bytes = (b.bytes ++ wire xs).take maxBufCap := by
  induction xs generalizing b with
  | nil => simp [Buf.appendBytes, wire, take_of_length_le b.fits]
  | cons x xs ih =>
    have hstep : b.appendBytes (x :: xs) = (b.appendByte x).appendBytes xs := rfl
    rw [hstep, ih]
    by_cases hroom : b.bytes.length + 1 ≤ maxBufCap
    · rw [Buf.appendByte, (Buf.appendView_of_le (by simpa using hroom)).1]
      simp
    · have hfits := b.fits
      have hbyte : b.appendByte x = b := by simp [Buf.appendByte, Buf.appendView, hroom]
      rw [hbyte, take_append_of_le_length (by omega), take_append_of_le_length (by omega)]

theorem appendBytes_append (b : Buf) (xs ys : List Nat) :
    (b.appendBytes xs).appendBytes ys = b.appendBytes (xs ++ ys) :=
  (foldl_append ..).symm

theorem appendBytes_congr (b : Buf) {xs ys : List Nat} (h : wire xs = wire ys) :
    b.appendBytes xs = b.appendBytes ys := by
  apply Buf.ext'
  rw [appendBytes_bytes, appendBytes_bytes, h]

theorem encodeEntry_eq (b : Buf) (e : HeaderEntry) :
    encodeEntry b e = b.appendBytes ((entryBytes e).map UInt8.toNat) := by
  have hsize : hpackStaticTableSize = 61 := rfl
  have hle := nameIndex_le e
  have hindex : ∀ bits, hpackStaticTableSize < prefixMax bits →
      intFirst (nameIndex e) bits = nameIndex e ∧ intRest (nameIndex e) bits = [] := by
    intro bits hbits
    exact ⟨Nat.min_eq_left (by omega), if_pos (by omega)⟩
  obtain ⟨hfirst7, hrest7⟩ := hindex 7 (by decide)
  obtain ⟨hfirst6, hrest6⟩ := hindex 6 (by decide)
  rw [encodeEntry, show staticFind e.name e.value false = nameIndex e from rfl, entryBytes,
    entryFirst, entryRest]
  cases exactMatch e with
  | true =>
    rw [if_pos rfl, if_pos rfl, if_pos rfl, encodeInt, hfirst7, hrest7]
    apply appendBytes_congr
    rw [wire_toNat]
    rfl
  | false =>
    rw [if_neg Bool.false_ne_true, if_neg Bool.false_ne_true, if_neg Bool.false_ne_true]
    by_cases hpos : nameIndex e > 0
    · rw [if_pos hpos, if_pos hpos]
      simp only [encodeInt, appendBytes_append, hfirst6, hrest6]
      apply appendBytes_congr
      rw [wire_toNat]
      simp [stringBytes, wire_toNat]
    · have hzero : nameIndex e = 0 := by omega
      rw [if_neg hpos, if_neg hpos, hzero]
      simp only [encodeInt, appendBytes_append]
      apply appendBytes_congr
      rw [wire_toNat]
      simp [stringBytes, wire_toNat, intFirst, intRest, prefixMax]

theorem encodeHeaderBlock_bytes {b b' : Buf} {dt dt' : DynTable} {es : List HeaderEntry}
    (h : encodeHeaderBlock b dt es = .ok (b', dt')) :
    b' = b.appendBytes ((blockBytes es).map UInt8.toNat) := by
  induction es generalizing b dt with
  | nil =>
    cases h
    rfl
  | cons e es ih =>
    have hrest : ∃ dt₁, encodeHeaderBlock (encodeEntry b e) dt₁ es = .ok (b', dt') := by
      rw [encodeHeaderBlock] at h
      split at h
      · exact ⟨dt, h⟩
      · split at h
        · cases h
        · exact ⟨_, h⟩
    obtain ⟨dt₁, hdt₁⟩ := hrest
    rw [ih hdt₁, encodeEntry_eq, appendBytes_append, ← map_append]
    rfl

/-- The decoder does not stop without an error before the end of the list: for each header that it
gets to, it has room in its result, and the buffer of the encoder had room for a part of it. -/
def Whole : Nat → Nat → List HeaderEntry → Prop
  | _, _, [] => True
  | maxOut, room, e :: es =>
    0 < maxOut ∧ 0 < room ∧
      ((entryBytes e).length ≤ room → Whole (maxOut - 1) (room - (entryBytes e).length) es)

/-- A block of which the decoder does not stop early is read as the list it was made of, or not
without an error. -/
theorem decodeLoop_inStep (huff : HuffDecoder) {maxOut fuel room : Nat} {es : List HeaderEntry}
    (headers : List HeaderEntry) (front : List UInt8) {enc dec enc' : DynTable} {b b' : Buf}
    {d : Decoded}
    (hes : ∀ e ∈ es, Sendable e) (hwhole : Whole (maxOut - headers.length) room es)
    (hstep : InStep enc dec) (henc : encodeHeaderBlock b enc es = .ok (b', enc'))
    (hbound : (front ++ (blockBytes es).take room).length ≤ maxBufCap)
    (hfuel : maxOut - headers.length < fuel)
    (hdec : decodeLoop huff (front ++ (blockBytes es).take room) maxOut fuel front.length dec
      headers = some d) (hok : d.ok = true) :
    d.headers = headers ++ es ∧ InStep enc' d.table := by
  induction es generalizing fuel room headers front enc dec b with
  | nil =>
    cases fuel with
    | zero => exact absurd hfuel (Nat.not_lt_zero _)
    | succ fuel =>
      cases henc
      rw [decodeLoop, if_neg (by simp [blockBytes])] at hdec
      cases hdec
      exact ⟨(append_nil _).symm, hstep⟩
  | cons e es ih =>
    obtain ⟨hout, hroom, hrest⟩ := hwhole
    have he : Sendable e := hes e mem_cons_self
    have hes' : ∀ e ∈ es, Sendable e := fun e' he' => hes e' (mem_cons_of_mem _ he')
    have hsize : hpackStaticTableSize = 61 := rfl
    have hindex := nameIndex_le e
    have hfirst : (UInt8.ofNat (entryFirst e)).toNat = entryFirst e := by
      refine toNat_ofNat_of_lt ?_
      rw [entryFirst]
      split <;> omega
    obtain ⟨fuel, rfl⟩ : ∃ n, fuel = n + 1 := ⟨fuel - 1, by omega⟩
    obtain ⟨room, rfl⟩ : ∃ n, room = n + 1 := ⟨room - 1, by omega⟩
    have hblock : (blockBytes (e :: es)).take (room + 1) =
        UInt8.ofNat (entryFirst e) :: (entryRest e ++ blockBytes es).take room := rfl
    rw [hblock] at hdec hbound
    have hbyte := viewGetByte_append front ((entryRest e ++ blockBytes es).take room)
      (UInt8.ofNat (entryFirst e))
    rw [hfirst] at hbyte
    have hpos : front.length <
        (front ++ UInt8.ofNat (entryFirst e) :: (entryRest e ++ blockBytes es).take
          room).length := by
      simp
    rw [decodeLoop, if_pos ⟨hpos, by omega⟩, hbyte] at hdec
    have hview : front ++ UInt8.ofNat (entryFirst e) :: (entryRest e ++ blockBytes es).take room =
        (front ++ [UInt8.ofNat (entryFirst e)]) ++ (entryRest e ++ blockBytes es).take room := by
      simp
    have hnext : front.length + 1 = (front ++ [UInt8.ofNat (entryFirst e)]).length := by simp
    have hreads := reads_decodeField huff dec he
    by_cases hfits : (entryRest e).length ≤ room
    · -- The whole header is in the block: it is read, and both tables do the same.
      have hpart : (entryRest e ++ blockBytes es).take room =
          entryRest e ++ (blockBytes es).take (room - (entryRest e).length) := by
        rw [take_append, take_of_length_le hfits]
      have hlength : (entryBytes e).length = (entryRest e).length + 1 := rfl
      have hjoin : (front ++ [UInt8.ofNat (entryFirst e)]) ++
          (entryRest e ++ (blockBytes es).take (room - (entryRest e).length)) =
          (front ++ entryBytes e) ++ (blockBytes es).take (room - (entryRest e).length) := by
        simp [entryBytes]
      have hend : (front ++ [UInt8.ofNat (entryFirst e)] ++ entryRest e).length =
          (front ++ entryBytes e).length := by simp [entryBytes]
      have hread := hreads.whole (front ++ [UInt8.ofNat (entryFirst e)])
        ((blockBytes es).take (room - (entryRest e).length))
        (by rw [← hpart, ← hview]; exact hbound)
      rw [hview, hpart, hjoin] at hbound
      rw [hview, hnext, hpart, hread, hjoin, hend] at hdec
      have hwhole' : Whole (maxOut - (headers ++ [e]).length) (room - (entryRest e).length) es := by
        have hlater := hrest (by omega)
        rw [hlength, Nat.add_sub_add_right] at hlater
        rw [length_append, length_singleton, ← Nat.sub_sub]
        exact hlater
      have hfuel' : maxOut - (headers ++ [e]).length < fuel := by
        rw [length_append, length_singleton]
        omega
      have hheaders : headers ++ e :: es = headers ++ [e] ++ es := by simp
      rw [hheaders]
      rw [encodeHeaderBlock] at henc
      cases hexact : exactMatch e with
      | true =>
        rw [hexact] at hdec henc
        exact ih _ _ hes' hwhole' hstep henc hbound hfuel' hdec
      | false =>
        rw [hexact] at hdec henc
        obtain ⟨f, hf, hf'⟩ | ⟨u, u', hu, hu', hboth⟩ := hstep.dynInsert e
        · rw [if_neg Bool.false_ne_true, hf] at henc
          cases henc
        · rw [if_neg Bool.false_ne_true, hu] at henc
          simp only [Bool.not_false, hu'] at hdec
          exact ih _ _ hes' hwhole' hboth henc hbound hfuel' hdec
    · have hpart : (entryRest e ++ blockBytes es).take room = (entryRest e).take room :=
        take_append_of_le_length (by omega)
      have hshort := hreads.short (front ++ [UInt8.ofNat (entryFirst e)])
        ((entryRest e).take room) (by rw [← hpart, ← hview]; exact hbound)
        (List.take_prefix _ _) (by rw [length_take]; omega)
      rw [hview, hnext, hpart, hshort] at hdec
      cases hdec
      cases hok

/-! ## Runs -/

/-- As long as all blocks are decoded, each list comes out as it went in and the two tables hold the
same entries, in the same order and with the same size. -/
def StaysInStep (huff : HuffDecoder) (maxOut : Nat) :
    DynTable → DynTable → List (List HeaderEntry) → Prop
  | _, _, [] => True
  | enc, dec, es :: lists => ∀ b enc', encodeHeaderBlock Buf.empty enc es = .ok (b, enc') →
    ∀ d, decodeHeaderBlock huff b.bytes dec maxOut = some d → d.ok = true →
      d.headers = es ∧ contents enc' = contents d.table ∧ enc'.byteSize = d.table.byteSize ∧
        StaysInStep huff maxOut enc' d.table lists

theorem staysInStep_of_inStep (huff : HuffDecoder) {maxOut : Nat} {enc dec : DynTable}
    (hstep : InStep enc dec) {lists : List (List HeaderEntry)}
    (hlists : ∀ es ∈ lists, (∀ e ∈ es, Sendable e) ∧ Whole maxOut maxBufCap es) :
    StaysInStep huff maxOut enc dec lists := by
  induction lists generalizing enc dec with
  | nil => trivial
  | cons es lists ih =>
    intro b enc' henc d hdec hok
    obtain ⟨hes, hwhole⟩ := hlists es mem_cons_self
    have hb : b.bytes = [] ++ (blockBytes es).take maxBufCap := by
      rw [encodeHeaderBlock_bytes henc, appendBytes_bytes, wire_toNat]
      rfl
    have hfits := b.fits
    rw [decodeHeaderBlock, hb] at hdec
    rw [hb] at hfits
    have hfuel : maxOut - 0 <
        (maxOut + 1) * (([] ++ (blockBytes es).take maxBufCap).length + 1) :=
      Nat.lt_of_lt_of_le (Nat.lt_succ_self _) (Nat.le_mul_of_pos_right _ (Nat.succ_pos _))
    obtain ⟨hheaders, hboth⟩ := decodeLoop_inStep huff [] [] hes hwhole hstep
      henc hfits hfuel hdec hok
    exact ⟨hheaders, hboth.contents_eq, hboth.byteSize,
      ih hboth fun es' hes' => hlists es' (mem_cons_of_mem _ hes')⟩

/-- Encoder and decoder stay in step in every run of lists at which the decoder does not stop
early. -/
theorem encoder_decoder_inStep (huff : HuffDecoder) (maxOut maxSize : Nat) (mem mem' : DynTable)
    (lists : List (List HeaderEntry)) (hsend : ∀ es ∈ lists, ∀ e ∈ es, Sendable e)
    (hwhole : ∀ es ∈ lists, Whole maxOut maxBufCap es) :
    StaysInStep huff maxOut (dynInit mem maxSize) (dynInit mem' maxSize) lists :=
  staysInStep_of_inStep huff (inStep_dynInit mem mem' maxSize)
    fun es hes => ⟨hsend es hes, hwhole es hes⟩

/-- A table whose memory is not set. -/
def rawTable : DynTable := ⟨fun _ => default, 0, 0, 0, 0⟩

/-- A header that is not in the static table. -/
def plainHeader : HeaderEntry := ⟨[120], [49]⟩

theorem encoder_decoder_inStep_plainHeader :
    Whole 16 maxBufCap [plainHeader] ∧
      StaysInStep (fun _ _ => none) 16 (dynInit rawTable 4096) (dynInit rawTable 4096)
        [[plainHeader], [plainHeader]] := by
  have hwhole : Whole 16 maxBufCap [plainHeader] := ⟨by decide, by decide, fun _ => trivial⟩
  have hsend : Sendable plainHeader := ⟨by decide, by decide, by decide⟩
  refine ⟨hwhole, encoder_decoder_inStep _ 16 4096 rawTable rawTable _ ?_ ?_⟩
  · intro es hes e he
    obtain rfl : es = [plainHeader] := by simpa using hes
    obtain rfl : e = plainHeader := by simpa using he
    exact hsend
  · intro es hes
    obtain rfl : es = [plainHeader] := by simpa using hes
    exact hwhole

/-- Of seventeen headers the decoder of the server takes sixteen, and reports no error. -/
theorem not_staysInStep_seventeen :
    ¬ StaysInStep (fun _ _ => none) 16 (dynInit rawTable 4096) (dynInit rawTable 4096)
      [List.replicate 17 plainHeader] := by
  intro h
  have hrun : (match encodeHeaderBlock Buf.empty (dynInit rawTable 4096)
        (List.replicate 17 plainHeader) with
      | .error _ => false
      | .ok (b, _) =>
        match decodeHeaderBlock (fun _ _ => none) b.bytes (dynInit rawTable 4096) 16 with
        | none => false
        | some d => d.ok && d.headers.length == 16) = true := by decide +kernel
  split at hrun
  · cases hrun
  case h_2 b enc' henc =>
    split at hrun
    · cases hrun
    case h_2 d hdec =>
      obtain ⟨hok, hlength⟩ := Bool.and_eq_true_iff.mp hrun
      have hheaders := (h b enc' henc d hdec hok).1
      rw [hheaders] at hlength
      exact absurd hlength (by decide)

end Mx.Http2
