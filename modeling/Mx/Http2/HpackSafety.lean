import Mx.Http2.Hpack
import Mx.Http2.HpackFifo
import Mx.Http2.HpackSync
import Mx.Http2.HuffmanDecode

/-!
# Header blocks of any bytes

What `DecodeHeaderBlock` does with bytes that no encoder wrote. The length of a string is added to
the position in 32 bits, so a length near `2^32` takes the position back, and a table whose size is
large has more entries than its ring. Blocks that do neither are decoded safely.
-/

namespace Mx.Http2

open Mx.Core ViewReader List

/-! ## Rounds -/

/-- `HuffDecode` for the strings of a block. -/
def blockHuff (arrays : HuffTree) : HuffDecoder := fun bytes maxLen =>
  (decodeBytes (initHuffTree arrays) (appendRoom maxLen) bytes 0 []).toOption

/-- The variables of the loop of `DecodeHeaderBlock`. -/
structure BlockState where
  pos : Nat
  table : DynTable
  headers : List HeaderEntry

/-- The condition of the loop. -/
def Running (v : List UInt8) (maxOut : Nat) (s : BlockState) : Prop :=
  s.pos < v.length ∧ s.headers.length < maxOut

/-- What a field does to the table. -/
def Field.apply (dt : DynTable) : Field → Except Fault DynTable
  | .header _ false => .ok dt
  | .header e true => dynInsert dt e
  | .resize size => dynResize dt size

/-- The headers of a field. -/
def Field.headers : Field → List HeaderEntry
  | .header e _ => [e]
  | .resize _ => []

section Rounds

variable (huff : HuffDecoder) (v : List UInt8)

/-- The field that a round reads. -/
def roundField (s : BlockState) : Except Fault (Field × Nat) :=
  decodeField huff s.table (viewGetByte v s.pos) v (s.pos + 1)

/-- A round of the loop. -/
def blockRound (s : BlockState) : Except Fault BlockState :=
  match roundField huff v s with
  | .error e => .error e
  | .ok (field, pos) =>
    match field.apply s.table with
    | .error e => .error e
    | .ok dt => .ok ⟨pos, dt, s.headers ++ field.headers⟩

/-- One state of the loop comes after another. -/
def RoundTo (maxOut : Nat) (s s' : BlockState) : Prop :=
  Running v maxOut s ∧ blockRound huff v s = .ok s'

/-- A state that the loop reaches. -/
def BlockReaches (dt : DynTable) (maxOut : Nat) (s : BlockState) : Prop :=
  Relation.ReflTransGen (RoundTo huff v maxOut) ⟨0, dt, []⟩ s

/-- The index of the literal field that a round reads, with the position after it. -/
def literalIndex (s : BlockState) : Except Fault (Nat × Nat) :=
  let byt := viewGetByte v s.pos
  if byt ≥ 128 then .error .notOk
  else if byt ≥ 64 then decodeInt (byt % 64) 6 v (s.pos + 1)
  else if byt ≥ 32 then .error .notOk
  else decodeInt (byt % 16) 4 v (s.pos + 1)

/-- The strings that a round reads, with their room and the position where they start. -/
inductive StringAt (s : BlockState) : Nat → Nat → Prop where
  | name {p : Nat} (h : literalIndex v s = .ok (0, p)) : StringAt s hpackMaxNameLen p
  | value {idx p p' : Nat} {name : List UInt8} (h : literalIndex v s = .ok (idx, p))
    (hname : readName huff s.table idx v p = .ok (name, p')) : StringAt s hpackMaxValueLen p'

/-- A length that is accepted does not exceed 32 bits when it is added to the position. -/
def LengthSound (maxLen pos : Nat) : Prop :=
  ∀ byt p encLen p', readByte v pos = .ok (byt, p) →
    decodeInt (byt % 128) 7 v p = .ok (encLen, p') → card (p' + encLen) ≤ v.length →
      byt ≥ 128 ∨ encLen ≤ maxLen → p' + encLen < 4294967296

/-- The indices of the table are within its ring. -/
def InRing (dt : DynTable) : Prop :=
  ∀ index < dt.count, dynRealIndex dt index < hpackMaxDynEntries

/-- A round that meets neither a table that is too full nor a length that is too large. -/
structure SoundRound (s : BlockState) : Prop where
  ring : InRing s.table
  lengths : ∀ maxLen p, StringAt huff v s maxLen p → LengthSound v maxLen p

/-- A block all of whose rounds are sound. -/
def SoundBlock (dt : DynTable) (maxOut : Nat) : Prop :=
  ∀ s, BlockReaches huff v dt maxOut s → Running v maxOut s → SoundRound huff v s

/-- What decoding a block never fails to do. -/
structure SafeBlock (dt : DynTable) (maxOut : Nat) : Prop where
  /-- The loop ends: there is a number of rounds after which it is left, or fails. -/
  finishes : ∃ s d, BlockReaches huff v dt maxOut s ∧ decodeHeaderBlock huff v dt maxOut = some d ∧
    (∀ fuel, v.length ≤ fuel → decodeLoop huff v maxOut fuel 0 dt [] = some d) ∧
      d.table = s.table ∧ d.headers = s.headers ∧ (d.ok = true ↔ ¬Running v maxOut s)
  /-- Every round moves the position on. -/
  ahead : ∀ s s', BlockReaches huff v dt maxOut s → RoundTo huff v maxOut s s' → s.pos < s'.pos
  pos_le : ∀ s, BlockReaches huff v dt maxOut s → s.pos ≤ v.length
  int : ∀ s, BlockReaches huff v dt maxOut s → Running v maxOut s → ∀ first prefixBits n p,
    decodeInt first prefixBits v (s.pos + 1) = .ok (n, p) → s.pos + 1 ≤ p ∧ p ≤ v.length
  string : ∀ s, BlockReaches huff v dt maxOut s → Running v maxOut s → ∀ maxLen pos,
    StringAt huff v s maxLen pos → s.pos < pos ∧ pos ≤ v.length ∧
      ∀ str p, readLiteralString huff maxLen v pos = .ok (str, p) →
        pos < p ∧ p ≤ v.length ∧ str.length ≤ maxLen
  headers : ∀ s, BlockReaches huff v dt maxOut s →
    s.headers.length ≤ maxOut ∧ ∀ e ∈ s.headers, e.Fits
  /-- A loop that is left before the headers are all used has read the whole view. -/
  whole : ∀ s, BlockReaches huff v dt maxOut s → ¬Running v maxOut s →
    s.headers.length < maxOut → s.pos = v.length

end Rounds

/-- The tables that decoding blocks leaves behind. -/
inductive DecodedTable (huff : HuffDecoder) : DynTable → Prop where
  | init (dt : DynTable) (maxSize : Nat) : DecodedTable huff (dynInit dt maxSize)
  | block {dt : DynTable} {v : List UInt8} {maxOut : Nat} {d : Decoded} (h : DecodedTable huff dt)
    (hsound : SoundBlock huff v dt maxOut) (hrun : decodeHeaderBlock huff v dt maxOut = some d) :
    DecodedTable huff d.table

/-! ## Reading -/

section Reading

variable {huff : HuffDecoder} {v : List UInt8} {pos : Nat}

theorem decodeIntLoop_yields (fuel result mult : Nat) :
    Yields .notOk (decodeIntLoop fuel result mult) v pos fun _ p => pos < p ∧ p ≤ v.length := by
  induction fuel generalizing result mult pos with
  | zero => exact .of_error rfl
  | succ fuel ih =>
    by_cases hend : pos ≥ v.length
    · exact .of_error (by rw [decodeIntLoop_succ, if_pos hend])
    · by_cases hlast : viewGetByte v pos < 128
      · exact .of_ok (by rw [decodeIntLoop_succ, if_neg hend, if_pos hlast]) ⟨by omega, by omega⟩
      · by_cases hmult : card (mult * 128) > 268435456
        · exact .of_error (by rw [decodeIntLoop_succ, if_neg hend, if_neg hlast, if_pos hmult])
        · intro r hr
          rw [decodeIntLoop_succ, if_neg hend, if_neg hlast, if_neg hmult] at hr
          exact ((ih _ _).mono fun _ p h => ⟨by omega, h.2⟩) r hr

theorem decodeInt_yields (first prefixBits : Nat) (h : pos ≤ v.length) :
    Yields .notOk (decodeInt first prefixBits) v pos fun _ p => pos ≤ p ∧ p ≤ v.length := by
  by_cases hsmall : first < prefixMax prefixBits
  · exact .of_ok (by rw [decodeInt, if_pos hsmall]) ⟨le_rfl, h⟩
  · intro r hr
    rw [decodeInt, if_neg hsmall] at hr
    exact ((decodeIntLoop_yields _ _ _).mono fun _ p h => ⟨Nat.le_of_lt h.1, h.2⟩) r hr

theorem readByte_yields :
    Yields .notOk readByte v pos fun _ p => pos < p ∧ p ≤ v.length := by
  by_cases hend : pos ≥ v.length
  · exact .of_error (by rw [readByte, if_pos hend])
  · exact .of_ok (by rw [readByte, if_neg hend]) ⟨Nat.lt_succ_self pos, by omega⟩

/-- A Huffman decoder writes no more than there is room for. -/
def HuffDecoder.Obedient (huff : HuffDecoder) : Prop :=
  ∀ bytes maxLen s, huff bytes maxLen = some s → s.length ≤ maxLen

theorem blockHuff_obedient (arrays : HuffTree) : (blockHuff arrays).Obedient := by
  intro bytes maxLen s h
  rw [blockHuff, decodeBytes_spells] at h
  cases hemit : emitAll (appendRoom maxLen) (PrefixCode.decodeBits huffTable [] (bitsOf bytes)).1 []
    with
  | error e =>
    rw [hemit] at h
    cases h
  | ok s' =>
    rw [hemit] at h
    cases h
    exact length_of_emitAll hemit (Nat.zero_le _)

theorem readString_yields (hhuff : huff.Obedient) {maxLen byt encLen : Nat}
    (hsound : card (pos + encLen) ≤ v.length → byt ≥ 128 ∨ encLen ≤ maxLen →
      pos + encLen < 4294967296) :
    Yields .notOk (readString huff maxLen byt encLen) v pos fun str p =>
      pos ≤ p ∧ p ≤ v.length ∧ str.length ≤ maxLen := by
  by_cases hfits : card (pos + encLen) > v.length
  · exact .of_error (by rw [readString, if_pos hfits])
  · have hle := Nat.not_lt.mp hfits
    by_cases hbyt : byt ≥ 128
    · have hcard := card_of_lt (hsound hle (.inl hbyt))
      cases hdecode : huff ((v.drop pos).take (card (pos + encLen) - pos)) maxLen with
      | none => exact .of_error (by rw [readString, if_neg hfits, if_pos hbyt, hdecode])
      | some str =>
        refine .of_ok (by rw [readString, if_neg hfits, if_pos hbyt, hdecode]) ?_
        exact ⟨by omega, hle, hhuff _ _ _ hdecode⟩
    · by_cases hlong : encLen > maxLen
      · exact .of_error (by rw [readString, if_neg hfits, if_neg hbyt, if_pos hlong])
      · have hcard := card_of_lt (hsound hle (.inr (Nat.not_lt.mp hlong)))
        refine .of_ok (by rw [readString, if_neg hfits, if_neg hbyt, if_neg hlong]) ?_
        refine ⟨by omega, hle, ?_⟩
        rw [copyViewToArr, length_map, length_range]
        exact Nat.not_lt.mp hlong

theorem readLiteralString_yields (hhuff : huff.Obedient) {maxLen : Nat}
    (hsound : LengthSound v maxLen pos) :
    Yields .notOk (readLiteralString huff maxLen) v pos fun str p =>
      pos < p ∧ p ≤ v.length ∧ str.length ≤ maxLen := by
  refine readByte_yields.bind fun byt p hbyte hp => ?_
  refine (decodeInt_yields _ _ hp.2).bind fun encLen p' hint hp' => ?_
  exact (readString_yields hhuff (hsound byt p encLen p' hbyte hint)).mono fun str q h =>
    ⟨by omega, h.2⟩

end Reading

/-! ## The table -/

section Table

variable {dt t : DynTable} {e : HeaderEntry}

/-- The entries that the indices lead to fit their arrays. -/
structure Tidy (dt : DynTable) : Prop where
  head_lt : dt.head < hpackMaxDynEntries
  fits : ∀ index < dt.count, dynRealIndex dt index < hpackMaxDynEntries →
    (dt.entries (dynRealIndex dt index)).Fits

/-- Some of the oldest entries of a table are gone. -/
structure Shrunk (dt t : DynTable) : Prop where
  head_eq : t.head = dt.head
  entries_eq : t.entries = dt.entries
  count_le : t.count ≤ dt.count

theorem Shrunk.realIndex (h : Shrunk dt t) (index : Nat) :
    dynRealIndex t index = dynRealIndex dt index := dynRealIndex_congr h.head_eq index

theorem Shrunk.inRing (h : Shrunk dt t) (hring : InRing dt) : InRing t := by
  intro index hindex
  rw [h.realIndex]
  exact hring index (Nat.lt_of_lt_of_le hindex h.count_le)

theorem Shrunk.tidy (h : Shrunk dt t) (htidy : Tidy dt) : Tidy t := by
  refine ⟨h.head_eq ▸ htidy.head_lt, fun index hindex hslot => ?_⟩
  rw [h.realIndex] at hslot
  rw [h.realIndex, h.entries_eq]
  exact htidy.fits index (Nat.lt_of_lt_of_le hindex h.count_le) hslot

theorem tidy_dynInit (dt : DynTable) (maxSize : Nat) : Tidy (dynInit dt maxSize) :=
  ⟨Nat.succ_pos 127, fun _ h => absurd h (Nat.not_lt_zero _)⟩

theorem InRing.dynEvict (h : InRing dt) : ∃ t, Mx.Http2.dynEvict dt = .ok t ∧ Shrunk dt t := by
  rw [Mx.Http2.dynEvict]
  by_cases hcount : dt.count = 0
  · rw [if_pos hcount]
    exact ⟨dt, rfl, rfl, rfl, le_rfl⟩
  · have hslot := h (dt.count - 1) (by omega)
    rw [if_neg hcount, entryAt, if_pos hslot]
    exact ⟨_, rfl, rfl, rfl, Nat.sub_le _ _⟩

theorem InRing.evictFor (h : InRing dt) (extra fuel : Nat) :
    ∃ t, Mx.Http2.evictFor extra fuel dt = .ok t ∧ Shrunk dt t := by
  induction fuel generalizing dt with
  | zero => exact ⟨dt, rfl, rfl, rfl, le_rfl⟩
  | succ fuel ih =>
    rw [Mx.Http2.evictFor]
    by_cases hover : dt.count > 0 ∧ card (dt.byteSize + extra) > dt.maxSize
    · obtain ⟨u, hu, hshrunk⟩ := h.dynEvict
      obtain ⟨t, ht, hrest⟩ := ih (hshrunk.inRing h)
      rw [if_pos hover, hu]
      exact ⟨t, ht, hrest.head_eq.trans hshrunk.head_eq, hrest.entries_eq.trans hshrunk.entries_eq,
        Nat.le_trans hrest.count_le hshrunk.count_le⟩
    · rw [if_neg hover]
      exact ⟨dt, rfl, rfl, rfl, le_rfl⟩

theorem Tidy.dynResize (htidy : Tidy dt) (hring : InRing dt) (size : Nat) :
    ∃ t, Mx.Http2.dynResize dt size = .ok t ∧ Tidy t := by
  have hring' : InRing { dt with maxSize := size } := hring
  have htidy' : Tidy { dt with maxSize := size } := ⟨htidy.head_lt, htidy.fits⟩
  obtain ⟨t, ht, hshrunk⟩ := hring'.evictFor 0 dt.count
  exact ⟨t, ht, hshrunk.tidy htidy'⟩

/-- A new entry fits like those that keep their slots. -/
theorem Tidy.putAt (h : Tidy dt) (he : e.Fits) : Tidy (Mx.Http2.putAt dt (nextSlot dt) e) := by
  have hslot : nextSlot dt < hpackMaxDynEntries := nextSlot_lt h.head_lt
  refine ⟨hslot, fun index hindex hin => ?_⟩
  have hcount : index < card (dt.count + 1) := hindex
  rw [card] at hcount
  rw [putAt_entries]
  by_cases hnew : dynRealIndex (Mx.Http2.putAt dt (nextSlot dt) e) index = nextSlot dt
  · rwa [if_pos hnew]
  · cases index with
    | zero => exact absurd (if_pos (Nat.zero_le _)) hnew
    | succ j =>
      have hold := dynRealIndex_nextSlot (by omega : j < dt.count) rfl hin (by omega)
      rw [if_neg hnew, hold]
      exact h.fits j (by omega) (hold ▸ hin)

theorem Tidy.dynInsert (htidy : Tidy dt) (hring : InRing dt) (he : e.Fits) :
    ∃ t, Mx.Http2.dynInsert dt e = .ok t ∧ Tidy t := by
  by_cases hlarge : entrySize e.name.length e.value.length > dt.maxSize
  · have hclear : Mx.Http2.dynInsert dt e = .ok { dt with count := 0, byteSize := 0 } :=
      if_pos hlarge
    exact ⟨_, hclear, htidy.head_lt, fun _ h => absurd h (Nat.not_lt_zero _)⟩
  · obtain ⟨t, ht, hshrunk⟩ := hring.evictFor (entrySize e.name.length e.value.length) dt.count
    have htidy' := hshrunk.tidy htidy
    refine ⟨Mx.Http2.putAt t (nextSlot t) e, ?_, htidy'.putAt he⟩
    rw [dynInsert_of_le (Nat.not_lt.mp hlarge) ht, insertAtHead,
      if_pos (nextSlot_lt htidy'.head_lt)]

theorem staticTable_fits (index : Nat) : (staticTable index).Fits := by
  have hall : ∀ e ∈ staticEntries, e.Fits := by
    unfold HeaderEntry.Fits
    decide +kernel
  rw [staticTable, getD_eq_getElem?_getD]
  cases hget : staticEntries[index]? with
  | none => exact ⟨Nat.zero_le _, Nat.zero_le _⟩
  | some e => exact hall e (mem_of_getElem? hget)

theorem lift_ok {α : Type} {x : Except Fault α} {a : α} (h : x = .ok a) (v : List UInt8)
    (pos : Nat) : lift x v pos = .ok (a, pos) := by
  rw [h]
  rfl

theorem lift_error {α : Type} {x : Except Fault α} {e : Fault} (h : x = .error e) (v : List UInt8)
    (pos : Nat) : lift x v pos = .error e := by
  rw [h]
  rfl

theorem Tidy.lookupIndex (htidy : Tidy dt) (hring : InRing dt) (idx : Nat) {v : List UInt8}
    {pos : Nat} :
    Yields .notOk (lift (Mx.Http2.lookupIndex idx dt)) v pos fun e p => p = pos ∧ e.Fits := by
  by_cases hstatic : idx ≤ hpackStaticTableSize
  · by_cases hvalid : 1 ≤ idx ∧ idx ≤ hpackStaticTableSize
    · refine .of_ok (lift_ok ?_ v pos) ⟨rfl, staticTable_fits idx⟩
      rw [Mx.Http2.lookupIndex, if_pos hstatic, staticLookup, if_pos hvalid]
    · refine .of_error (lift_error ?_ v pos)
      rw [Mx.Http2.lookupIndex, if_pos hstatic, staticLookup, if_neg hvalid]
  · by_cases hcount : idx - hpackStaticTableSize - 1 < dt.count
    · have hslot := hring _ hcount
      refine .of_ok (lift_ok ?_ v pos) ⟨rfl, htidy.fits _ hcount hslot⟩
      rw [Mx.Http2.lookupIndex, if_neg hstatic, dynLookup, if_pos hcount, entryAt, if_pos hslot]
    · refine .of_error (lift_error ?_ v pos)
      rw [Mx.Http2.lookupIndex, if_neg hstatic, dynLookup, if_neg hcount]

end Table

/-! ## Fields -/

section Fields

variable {huff : HuffDecoder} {v : List UInt8} {s : BlockState}

/-- The headers of a field fit their arrays. -/
def Field.Fits (field : Field) : Prop := ∀ e ∈ field.headers, e.Fits

theorem readName_yields (hhuff : huff.Obedient) (htidy : Tidy s.table)
    (hsound : SoundRound huff v s) {idx p : Nat} (hle : p ≤ v.length)
    (h : literalIndex v s = .ok (idx, p)) :
    Yields .notOk (readName huff s.table idx) v p fun name p' =>
      p ≤ p' ∧ p' ≤ v.length ∧ name.length ≤ hpackMaxNameLen := by
  by_cases hidx : idx > 0
  · intro r hr
    rw [readName, if_pos hidx] at hr
    refine (htidy.lookupIndex hsound.ring idx).bind (fun e mid _ he => ?_) r hr
    obtain ⟨rfl, hfits⟩ := he
    exact .pure ⟨le_rfl, hle, hfits.1⟩
  · obtain rfl : idx = 0 := Nat.eq_zero_of_not_pos hidx
    intro r hr
    rw [readName, if_neg hidx] at hr
    exact ((readLiteralString_yields hhuff (hsound.lengths _ _ (.name h))).mono
      fun _ p' hs => ⟨Nat.le_of_lt hs.1, hs.2⟩) r hr

theorem readLiteral_yields (hhuff : huff.Obedient) (htidy : Tidy s.table)
    (hsound : SoundRound huff v s) {idx p : Nat} (hle : p ≤ v.length) (insert : Bool)
    (h : literalIndex v s = .ok (idx, p)) :
    Yields .notOk (readLiteral huff s.table insert idx) v p fun field p' =>
      p ≤ p' ∧ p' ≤ v.length ∧ field.Fits := by
  refine (readName_yields hhuff htidy hsound hle h).bind fun name mid hname hmid => ?_
  have hvalue := readLiteralString_yields hhuff (hsound.lengths _ _ (.value h hname))
  refine hvalue.bind fun value p' _ hp' => .pure ⟨by omega, hp'.2.1, ?_⟩
  intro e he
  obtain rfl := mem_singleton.mp he
  exact ⟨hmid.2.2, hp'.2.2⟩

/-- A sound round reads a field that fits, and moves on within the view. -/
theorem roundField_yields (hhuff : huff.Obedient) (htidy : Tidy s.table)
    (hsound : SoundRound huff v s) (hpos : s.pos < v.length) :
    Yields .notOk (decodeField huff s.table (viewGetByte v s.pos)) v (s.pos + 1) fun field p =>
      s.pos < p ∧ p ≤ v.length ∧ field.Fits := by
  have hint : ∀ first prefixBits, Yields .notOk (decodeInt first prefixBits) v (s.pos + 1)
      fun _ p => s.pos < p ∧ p ≤ v.length := fun first prefixBits =>
    decodeInt_yields first prefixBits hpos
  by_cases hindexed : viewGetByte v s.pos ≥ 128
  · intro r hr
    rw [decodeField, if_pos hindexed] at hr
    refine (hint _ _).bind (fun idx p _ hp => ?_) r hr
    by_cases hidx : idx = 0
    · rw [if_pos hidx]
      exact .of_error rfl
    · rw [if_neg hidx]
      refine (htidy.lookupIndex hsound.ring idx).bind fun e mid _ he => ?_
      obtain ⟨rfl, hfits⟩ := he
      refine .pure ⟨hp.1, hp.2, fun e' he' => ?_⟩
      obtain rfl := mem_singleton.mp he'
      exact hfits
  · by_cases hinsert : viewGetByte v s.pos ≥ 64
    · have hindex : literalIndex v s = decodeInt (viewGetByte v s.pos % 64) 6 v (s.pos + 1) := by
        rw [literalIndex, if_neg hindexed, if_pos hinsert]
      intro r hr
      rw [decodeField, if_neg hindexed, if_pos hinsert] at hr
      refine (hint _ _).bind (fun idx p hidx hp => ?_) r hr
      exact (readLiteral_yields hhuff htidy hsound hp.2 true (hindex.trans hidx)).mono
        fun _ p' h => ⟨by omega, h.2⟩
    · by_cases hresize : viewGetByte v s.pos ≥ 32
      · intro r hr
        rw [decodeField, if_neg hindexed, if_neg hinsert, if_pos hresize] at hr
        exact (hint _ _).bind
          (fun size p _ hp => .pure ⟨hp.1, hp.2, fun _ he => absurd he not_mem_nil⟩) r hr
      · have hindex : literalIndex v s = decodeInt (viewGetByte v s.pos % 16) 4 v (s.pos + 1) := by
          rw [literalIndex, if_neg hindexed, if_neg hinsert, if_neg hresize]
        intro r hr
        rw [decodeField, if_neg hindexed, if_neg hinsert, if_neg hresize] at hr
        refine (hint _ _).bind (fun idx p hidx hp => ?_) r hr
        exact (readLiteral_yields hhuff htidy hsound hp.2 false (hindex.trans hidx)).mono
          fun _ p' h => ⟨by omega, h.2⟩

theorem Field.apply_tidy {dt : DynTable} (htidy : Tidy dt) (hring : InRing dt) {field : Field}
    (hfits : field.Fits) : ∃ t, field.apply dt = .ok t ∧ Tidy t := by
  cases field with
  | header e insert =>
    cases insert with
    | false => exact ⟨dt, rfl, htidy⟩
    | true => exact htidy.dynInsert hring (hfits e (mem_singleton_self e))
  | resize size => exact htidy.dynResize hring size

end Fields

/-! ## Runs -/

section Runs

variable {huff : HuffDecoder} {v : List UInt8} {maxOut : Nat} {s : BlockState}

/-- What holds before every round. -/
structure BlockInv (v : List UInt8) (maxOut : Nat) (s : BlockState) : Prop where
  tidy : Tidy s.table
  pos_le : s.pos ≤ v.length
  length_le : s.headers.length ≤ maxOut
  fits : ∀ e ∈ s.headers, e.Fits

/-- A sound round is refused, or it moves on. -/
theorem BlockInv.round (h : BlockInv v maxOut s) (hhuff : huff.Obedient)
    (hrunning : Running v maxOut s) (hsound : SoundRound huff v s) :
    roundField huff v s = .error .notOk ∨
      ∃ s', blockRound huff v s = .ok s' ∧ BlockInv v maxOut s' ∧ s.pos < s'.pos := by
  have hfield := roundField_yields hhuff h.tidy hsound hrunning.1
  cases hround : roundField huff v s with
  | error e =>
    obtain rfl := (hfield _ hround).1 e rfl
    exact .inl rfl
  | ok r =>
    obtain ⟨field, p⟩ := r
    obtain ⟨hlt, hle, hfits⟩ := hfield.ok hround
    obtain ⟨t, ht, htidy⟩ := Field.apply_tidy h.tidy hsound.ring hfits
    refine .inr ⟨⟨p, t, s.headers ++ field.headers⟩, ?_, ⟨htidy, hle, ?_, ?_⟩, hlt⟩
    · rw [blockRound, hround]
      simp only [ht]
    · have hone : field.headers.length ≤ 1 := by
        cases field with
        | header e insert => exact Nat.le_refl 1
        | resize size => exact Nat.zero_le 1
      have hroom := hrunning.2
      rw [length_append]
      omega
    · intro e he
      obtain hmem | hmem := mem_append.mp he
      · exact h.fits e hmem
      · exact hfits e hmem

theorem BlockInv.roundTo (h : BlockInv v maxOut s) (hhuff : huff.Obedient)
    (hsound : Running v maxOut s → SoundRound huff v s) {s' : BlockState}
    (hto : RoundTo huff v maxOut s s') : BlockInv v maxOut s' ∧ s.pos < s'.pos := by
  obtain ⟨hrunning, hround⟩ := hto
  obtain hfail | ⟨t, ht, hinv, hlt⟩ := h.round hhuff hrunning (hsound hrunning)
  · rw [blockRound, hfail] at hround
    cases hround
  · rw [hround] at ht
    cases ht
    exact ⟨hinv, hlt⟩

theorem blockInv_start {dt : DynTable} (htidy : Tidy dt) (v : List UInt8) (maxOut : Nat) :
    BlockInv v maxOut ⟨0, dt, []⟩ := ⟨htidy, Nat.zero_le _, Nat.zero_le _, by nofun⟩

theorem BlockInv.reaches {dt : DynTable} (htidy : Tidy dt) (hhuff : huff.Obedient)
    (hsound : SoundBlock huff v dt maxOut) (h : BlockReaches huff v dt maxOut s) :
    BlockInv v maxOut s := by
  induction h with
  | refl => exact blockInv_start htidy v maxOut
  | tail hreach hto ih => exact (ih.roundTo hhuff (hsound _ hreach) hto).1

theorem decodeLoop_done (h : ¬Running v maxOut s) (fuel : Nat) :
    decodeLoop huff v maxOut fuel s.pos s.table s.headers = some ⟨s.table, s.headers, true⟩ := by
  cases fuel with
  | zero => rfl
  | succ fuel =>
    unfold Running at h
    rw [decodeLoop, if_neg h]

theorem decodeLoop_refused (hrunning : Running v maxOut s)
    (h : roundField huff v s = .error .notOk) (fuel : Nat) :
    decodeLoop huff v maxOut (fuel + 1) s.pos s.table s.headers =
      some ⟨s.table, s.headers, false⟩ := by
  unfold Running at hrunning
  rw [roundField] at h
  rw [decodeLoop, if_pos hrunning, h]

theorem decodeLoop_round (hrunning : Running v maxOut s) {s' : BlockState}
    (h : blockRound huff v s = .ok s') (fuel : Nat) :
    decodeLoop huff v maxOut (fuel + 1) s.pos s.table s.headers =
      decodeLoop huff v maxOut fuel s'.pos s'.table s'.headers := by
  unfold Running at hrunning
  rw [blockRound, roundField] at h
  rw [decodeLoop, if_pos hrunning]
  cases hfield : decodeField huff s.table (viewGetByte v s.pos) v (s.pos + 1) with
  | error e =>
    rw [hfield] at h
    cases h
  | ok r =>
    obtain ⟨field, p⟩ := r
    rw [hfield] at h
    cases happly : field.apply s.table with
    | error e =>
      simp only [happly] at h
      cases h
    | ok t =>
      simp only [happly] at h
      cases h
      cases field with
      | header e insert =>
        cases insert with
        | false =>
          cases happly
          rfl
        | true =>
          have hinsert : dynInsert s.table e = .ok t := happly
          simp only [hinsert]
          rfl
      | resize size =>
        have hresize : dynResize s.table size = .ok t := happly
        simp only [hresize]
        rw [Field.headers, append_nil]

/-- The loop ends where it is left or where a round is refused. -/
theorem decodeLoop_ends (hhuff : huff.Obedient) {n : Nat} (hinv : BlockInv v maxOut s)
    (hsound : ∀ s', Relation.ReflTransGen (RoundTo huff v maxOut) s s' → Running v maxOut s' →
      SoundRound huff v s') (hn : v.length - s.pos ≤ n) :
    ∃ t d, Relation.ReflTransGen (RoundTo huff v maxOut) s t ∧
      (∀ fuel, n ≤ fuel → decodeLoop huff v maxOut fuel s.pos s.table s.headers = some d) ∧
        d.table = t.table ∧ d.headers = t.headers ∧ (d.ok = true ↔ ¬Running v maxOut t) := by
  induction n generalizing s with
  | zero =>
    have hdone : ¬Running v maxOut s := fun h => by
      have hpos := h.1
      omega
    exact ⟨s, ⟨s.table, s.headers, true⟩, .refl, fun fuel _ => decodeLoop_done hdone fuel, rfl, rfl,
      iff_of_true rfl hdone⟩
  | succ n ih =>
    by_cases hrunning : Running v maxOut s
    · obtain hfail | ⟨s', hround, hinv', hlt⟩ :=
        hinv.round hhuff hrunning (hsound s .refl hrunning)
      · refine ⟨s, ⟨s.table, s.headers, false⟩, .refl, fun fuel hfuel => ?_, rfl, rfl,
          iff_of_false (by nofun) fun h => h hrunning⟩
        obtain ⟨fuel, rfl⟩ := Nat.exists_eq_succ_of_ne_zero (by omega : fuel ≠ 0)
        exact decodeLoop_refused hrunning hfail fuel
      · have hto : RoundTo huff v maxOut s s' := ⟨hrunning, hround⟩
        obtain ⟨t, d, hreach, hloop, hd⟩ :=
          ih hinv' (fun u hu => hsound u (.head hto hu)) (by omega)
        refine ⟨t, d, .head hto hreach, fun fuel hfuel => ?_, hd⟩
        obtain ⟨fuel, rfl⟩ := Nat.exists_eq_succ_of_ne_zero (by omega : fuel ≠ 0)
        rw [decodeLoop_round hrunning hround]
        exact hloop fuel (by omega)
    · exact ⟨s, ⟨s.table, s.headers, true⟩, .refl, fun fuel _ => decodeLoop_done hrunning fuel, rfl,
        rfl, iff_of_true rfl hrunning⟩

theorem StringAt.bounds (hhuff : huff.Obedient) (hinv : BlockInv v maxOut s)
    (hrunning : Running v maxOut s) (hsound : SoundRound huff v s) {maxLen p : Nat}
    (h : StringAt huff v s maxLen p) : s.pos < p ∧ p ≤ v.length := by
  have hindex : ∀ {idx p : Nat}, literalIndex v s = .ok (idx, p) → s.pos < p ∧ p ≤ v.length := by
    intro idx p hidx
    rw [literalIndex] at hidx
    split at hidx
    · cases hidx
    · split at hidx
      · exact (decodeInt_yields _ _ hrunning.1).ok hidx
      · split at hidx
        · cases hidx
        · exact (decodeInt_yields _ _ hrunning.1).ok hidx
  cases h with
  | name hidx => exact hindex hidx
  | value hidx hname =>
    have hp := hindex hidx
    have hmid := (readName_yields hhuff hinv.tidy hsound hp.2 hidx).ok hname
    exact ⟨by omega, hmid.2.1⟩

theorem Tidy.safeBlock {dt : DynTable} (htidy : Tidy dt) (hhuff : huff.Obedient)
    (hsound : SoundBlock huff v dt maxOut) : SafeBlock huff v dt maxOut := by
  have hinv : ∀ s, BlockReaches huff v dt maxOut s → BlockInv v maxOut s := fun s h =>
    .reaches htidy hhuff hsound h
  have hends := decodeLoop_ends (n := v.length) hhuff (blockInv_start htidy v maxOut) hsound
    le_rfl
  refine ⟨?_, ?_, fun s h => (hinv s h).pos_le, ?_, ?_, ?_, ?_⟩
  · obtain ⟨t, d, hreach, hloop, htable, hheaders, hok⟩ := hends
    have hfuel : v.length ≤ (maxOut + 1) * (v.length + 1) :=
      Nat.le_trans (Nat.le_succ _) (Nat.le_mul_of_pos_left _ (Nat.succ_pos _))
    exact ⟨t, d, hreach, hloop _ hfuel, hloop, htable, hheaders, hok⟩
  · exact fun s s' h hto => ((hinv s h).roundTo hhuff (hsound s h) hto).2
  · exact fun s h hrunning first prefixBits n p hint =>
      (decodeInt_yields first prefixBits hrunning.1).ok hint
  · intro s h hrunning maxLen pos hat
    have hround := hsound s h hrunning
    obtain ⟨hlt, hle⟩ := hat.bounds hhuff (hinv s h) hrunning hround
    exact ⟨hlt, hle, fun str p hread =>
      (readLiteralString_yields hhuff (hround.lengths _ _ hat)).ok hread⟩
  · exact fun s h => ⟨(hinv s h).length_le, (hinv s h).fits⟩
  · intro s h hdone hroom
    have hle := (hinv s h).pos_le
    exact Nat.le_antisymm hle (Nat.not_lt.mp fun hlt => hdone ⟨hlt, hroom⟩)

theorem DecodedTable.tidy {dt : DynTable} (hhuff : huff.Obedient) (h : DecodedTable huff dt) :
    Tidy dt := by
  induction h with
  | init dt maxSize => exact tidy_dynInit dt maxSize
  | block _ hsound hrun ih =>
    obtain ⟨s, d, hreach, hd, -, htable, -⟩ := (ih.safeBlock hhuff hsound).finishes
    rw [hrun] at hd
    cases hd
    rw [htable]
    exact (BlockInv.reaches ih hhuff hsound hreach).tidy

end Runs

/-- Every block with sound rounds is decoded safely, with any table that such blocks leave. -/
theorem decodeHeaderBlock_safe (arrays : HuffTree) (dt : DynTable)
    (htable : DecodedTable (blockHuff arrays) dt) (v : List UInt8) (maxOut : Nat)
    (hsound : SoundBlock (blockHuff arrays) v dt maxOut) :
    SafeBlock (blockHuff arrays) v dt maxOut :=
  (htable.tidy (blockHuff_obedient arrays)).safeBlock (blockHuff_obedient arrays) hsound

/-- Arrays without contents. -/
def blankArrays : HuffTree := ⟨fun _ _ => none, fun _ => none, 0⟩

/-- A literal field with two strings of one byte. -/
theorem decodeHeaderBlock_safe_literal :
    SafeBlock (blockHuff blankArrays) [64, 1, 97, 1, 98] (dynInit blankTable 4096) 1 := by
  refine decodeHeaderBlock_safe blankArrays _ (.init _ _) _ _ ?_
  have hindex : literalIndex [64, 1, 97, 1, 98] ⟨0, dynInit blankTable 4096, []⟩ = .ok (0, 1) := rfl
  have hname : readName (blockHuff blankArrays) (dynInit blankTable 4096) 0 [64, 1, 97, 1, 98] 1 =
    .ok ([97], 3) := rfl
  have hsmall : ∀ maxLen p, p = 1 ∨ p = 3 → LengthSound [64, 1, 97, 1, 98] maxLen p := by
    rintro maxLen p (rfl | rfl) byt q encLen q' hbyte hint - -
    · cases hbyte
      cases hint
      decide
    · cases hbyte
      cases hint
      decide
  obtain ⟨t, ht⟩ : ∃ t, blockRound (blockHuff blankArrays) [64, 1, 97, 1, 98]
      ⟨0, dynInit blankTable 4096, []⟩ = .ok ⟨5, t, [⟨[97], [98]⟩]⟩ := ⟨_, rfl⟩
  intro s hreach hrunning
  obtain rfl | ⟨s', hto, hrest⟩ := hreach.cases_head
  · refine ⟨fun index h => absurd h (Nat.not_lt_zero _), fun maxLen p hat => hsmall maxLen p ?_⟩
    cases hat with
    | name h =>
      cases hindex.symm.trans h
      exact .inl rfl
    | value h h' =>
      cases hindex.symm.trans h
      cases hname.symm.trans h'
      exact .inr rfl
  · obtain rfl : ⟨5, t, [⟨[97], [98]⟩]⟩ = s' := Except.ok.inj (ht.symm.trans hto.2)
    obtain rfl | ⟨s'', hto', -⟩ := hrest.cases_head
    · exact absurd hrunning.1 (Nat.lt_irrefl 5)
    · exact absurd hto'.1.1 (Nat.lt_irrefl 5)

/-- The block `01 ff fa fe ff ff 0f`: the value is Huffman-coded and `2^32 - 7` bytes long, which
takes the position from 7 back to 0. -/
theorem decodeHeaderBlock_back :
    DecodedTable (blockHuff blankArrays) (dynInit blankTable 4096) ∧
      ¬SafeBlock (blockHuff blankArrays) [1, 255, 250, 254, 255, 255, 15]
        (dynInit blankTable 4096) 1 := by
  refine ⟨.init _ _, fun h => ?_⟩
  have hround : blockRound (blockHuff blankArrays) [1, 255, 250, 254, 255, 255, 15]
      ⟨0, dynInit blankTable 4096, []⟩ =
        .ok ⟨0, dynInit blankTable 4096, [entry ":authority" ""]⟩ := rfl
  exact absurd (h.ahead _ _ .refl ⟨⟨by decide, by decide⟩, hround⟩) (Nat.lt_irrefl 0)

end Mx.Http2
