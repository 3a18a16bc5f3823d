import Mx.Http2.HuffmanDecode

/-!
# Huffman coding there and back

The encoder writes the codes of its own table and fills the last byte with ones. Two codes of this
table are not those of the decoders: that of `^` and that of `}`. The decoders accept whatever is
left behind the last symbol, where the format wants fewer than eight ones.
-/

namespace Mx.Http2

open Mx.Core PrefixCode List

/-! ## Decoding by the table -/

/-- What the bytes stand for: the symbols that they spell, unless the end of the string is among
them or what is left behind them is not a padding of fewer than eight ones. -/
def properDecode (e : List UInt8) : Option (List UInt8) :=
  let r := decodeBits huffTable [] (bitsOf e)
  if huffEOS ∉ r.1 ∧ r.2.length < 8 ∧ ∀ bit ∈ r.2, bit = true then
    some (r.1.map fun sym => UInt8.ofNat (sym % 256))
  else none

/-- The decoders agree with decoding by the table, given enough room, and look for no child that is
missing. -/
structure DecodesProperly (tree : HuffTree) (e : List UInt8) : Prop where
  decode : ∀ dstMax, 8 * e.length ≤ dstMax →
    (huffmanDecode tree e dstMax).toOption = properDecode e
  view : ∀ front rest maxLen, 8 * e.length ≤ maxLen → front.length + e.length < 4294967296 →
    (huffDecode tree (front ++ (e ++ rest)) front.length e.length maxLen).toOption =
      properDecode e
  decodedLength : huffmanDecodedLength tree e = ((properDecode e).map List.length).getD 0
  present : ∀ dstMax, huffmanDecode tree e dstMax ≠ .error .missing

/-- The end of the string is coded, or the padding is one of fewer than eight ones. -/
def PaddingMinded (e : List UInt8) : Prop :=
  huffEOS ∈ (decodeBits huffTable [] (bitsOf e)).1 ∨
    (decodeBits huffTable [] (bitsOf e)).2.length < 8 ∧
      ∀ bit ∈ (decodeBits huffTable [] (bitsOf e)).2, bit = true

section Decode

variable (arrays : HuffTree) (e : List UInt8)

/-- The symbols of the bytes as the decoders return them. -/
def looseDecode (e : List UInt8) : Option (List UInt8) :=
  if huffEOS ∈ (decodeBits huffTable [] (bitsOf e)).1 then none
  else some ((decodeBits huffTable [] (bitsOf e)).1.map fun sym => UInt8.ofNat (sym % 256))

theorem symbols_length : (decodeBits huffTable [] (bitsOf e)).1.length ≤ 8 * e.length := by
  have hlength := decodeBits_length [] (bitsOf e)
  rwa [bitsOf_length] at hlength

theorem decodeBytes_loose {maxLen : Nat} (h : 8 * e.length ≤ maxLen) :
    (decodeBytes (initHuffTree arrays) (appendRoom maxLen) e 0 []).toOption = looseDecode e := by
  have hlength := symbols_length e
  have hroom : ([] : List UInt8).length + (decodeBits huffTable [] (bitsOf e)).1.length ≤
      maxLen := by
    rw [length_nil]
    omega
  rw [decodeBytes_spells, emitAll_appendRoom hroom, looseDecode, nil_append]
  split <;> rfl

/-- The bytes of the view that `HuffDecode` reads. -/
theorem view_bytes {front rest : List UInt8} (h : front.length + e.length < 4294967296) :
    ((front ++ (e ++ rest)).drop front.length).take
      (card (front.length + e.length) - front.length) = e := by
  rw [drop_left, card_of_lt h, Nat.add_sub_cancel_left, take_left]

theorem decodedLength_loose :
    huffmanDecodedLength (initHuffTree arrays) e = ((looseDecode e).map List.length).getD 0 := by
  rw [huffmanDecodedLength, decodeBytes_spells, emitAll_count, looseDecode]
  by_cases heos : huffEOS ∈ (decodeBits huffTable [] (bitsOf e)).1
  · rw [if_pos heos, if_pos heos]
    rfl
  · rw [if_neg heos, if_neg heos]
    simp

theorem properDecode_eq_iff : properDecode e = looseDecode e ↔ PaddingMinded e := by
  rw [properDecode, looseDecode, PaddingMinded]
  by_cases heos : huffEOS ∈ (decodeBits huffTable [] (bitsOf e)).1
  · rw [if_neg fun h => h.1 heos, if_pos heos]
    exact iff_of_true rfl (.inl heos)
  · by_cases hpad : (decodeBits huffTable [] (bitsOf e)).2.length < 8 ∧
        ∀ bit ∈ (decodeBits huffTable [] (bitsOf e)).2, bit = true
    · rw [if_pos ⟨heos, hpad⟩, if_neg heos]
      exact iff_of_true rfl (.inr hpad)
    · rw [if_neg fun h => hpad h.2, if_neg heos]
      exact iff_of_false (by nofun) fun h => h.elim heos hpad

theorem decodesProperly_iff_padding :
    DecodesProperly (initHuffTree arrays) e ↔ PaddingMinded e := by
  rw [← properDecode_eq_iff]
  constructor
  · intro h
    rw [← h.decode _ le_rfl, huffmanDecode, decodeBytes_loose arrays e le_rfl]
  · intro h
    refine ⟨fun dstMax hroom => ?_, fun front rest maxLen hroom hlt => ?_, ?_, fun dstMax => ?_⟩
    · rw [huffmanDecode, decodeBytes_loose arrays e hroom, h]
    · rw [huffDecode, view_bytes e hlt, decodeBytes_loose arrays e hroom, h]
    · rw [decodedLength_loose, h]
    · rw [huffmanDecode, decodeBytes_spells]
      exact emitAll_ne_missing _ _ _

end Decode

/-! ## Encoding -/

section Encode

variable {st : EncState} {bits : List Bool}

/-- The bits that the encoder has written. -/
structure Written (st : EncState) (bits : List Bool) : Prop where
  bits_eq : bitsOf st.out ++ lowBits st.curByte st.bitPos = bits
  bitPos_lt : st.bitPos < 8
  curByte_lt : st.curByte < 2 ^ st.bitPos

theorem lowBits_length (x n : Nat) : (lowBits x n).length = n := by
  rw [lowBits, length_map, length_range]

theorem lowBits_succ (x n : Nat) (b : Nat) (hb : b < 2) :
    lowBits (x * 2 + b) (n + 1) = lowBits x n ++ [decide (b = 1)] := by
  have hfront : ∀ i ∈ List.range n, decide ((x * 2 + b) / 2 ^ (n + 1 - 1 - i) % 2 = 1) =
      decide (x / 2 ^ (n - 1 - i) % 2 = 1) := by
    intro i hi
    have hlt := mem_range.mp hi
    have hpow : 2 ^ (n + 1 - 1 - i) = 2 * 2 ^ (n - 1 - i) := by
      rw [← Nat.pow_succ']
      congr 1
      omega
    have hhalf : (x * 2 + b) / 2 = x := by omega
    rw [hpow, ← Nat.div_div_eq_div_mul, hhalf]
  have hlast : (x * 2 + b) / 2 ^ (n + 1 - 1 - n) % 2 = b := by
    rw [Nat.add_sub_cancel, Nat.sub_self, Nat.pow_zero, Nat.div_one]
    omega
  rw [lowBits, range_succ, map_append, map_congr_left hfront, map_singleton, hlast, lowBits]

theorem bitsOf_append (xs ys : List UInt8) : bitsOf (xs ++ ys) = bitsOf xs ++ bitsOf ys :=
  flatMap_append

theorem bitsOf_ofNat {x : Nat} (h : x < 256) : bitsOf [UInt8.ofNat x] = lowBits x 8 := by
  have hx : (UInt8.ofNat x).toNat = x := by
    rw [UInt8.toNat_ofNat']
    exact Nat.mod_eq_of_lt h
  rw [bitsOf, flatMap_singleton, hx]

theorem Written.length (h : Written st bits) : 8 * st.out.length + st.bitPos = bits.length := by
  rw [← h.bits_eq, length_append, bitsOf_length, lowBits_length]

/-- A bit is written where there is room for its byte. -/
theorem Written.putBit (dstMax : Nat) (h : Written st bits) {b : Nat} (hb : b < 2)
    (hroom : bits.length + 1 ≤ 8 * dstMax) :
    ∃ st', Mx.Http2.putBit dstMax st b = some st' ∧ Written st' (bits ++ [decide (b = 1)]) := by
  have hlength := h.length
  have hlt := h.curByte_lt
  have hbit : lowBits (st.curByte * 2 + b) (st.bitPos + 1) =
      lowBits st.curByte st.bitPos ++ [decide (b = 1)] := lowBits_succ _ _ b hb
  rw [Mx.Http2.putBit]
  by_cases hfull : st.bitPos + 1 = 8
  · have hseven : st.bitPos = 7 := by omega
    rw [hseven] at hlt hbit
    rw [if_pos hfull, if_neg (by omega)]
    refine ⟨_, rfl, ⟨?_, Nat.succ_pos 7, Nat.one_pos⟩⟩
    have hnone : lowBits 0 0 = [] := rfl
    rw [hnone, append_nil, bitsOf_append, bitsOf_ofNat (by omega), hbit, ← append_assoc,
      ← hseven, h.bits_eq]
  · rw [if_neg hfull]
    have hpos := h.bitPos_lt
    refine ⟨_, rfl, ⟨?_, by dsimp only; omega, ?_⟩⟩
    · dsimp only
      rw [hbit, ← append_assoc, h.bits_eq]
    · dsimp only
      rw [Nat.pow_succ]
      omega

theorem Written.putBits (dstMax : Nat) (h : Written st bits) (f : Nat → Nat)
    (hf : ∀ b, f b < 2) (l : List Nat) (hroom : bits.length + l.length ≤ 8 * dstMax) :
    ∃ st', l.foldlM (fun st b => Mx.Http2.putBit dstMax st (f b)) st = some st' ∧
      Written st' (bits ++ l.map fun b => decide (f b = 1)) := by
  induction l generalizing st bits with
  | nil => exact ⟨st, rfl, by rwa [map_nil, append_nil]⟩
  | cons b l ih =>
    rw [length_cons] at hroom
    obtain ⟨st₁, hput, hwritten⟩ := h.putBit dstMax (hf b) (by omega)
    obtain ⟨st', hrest, hfinal⟩ := ih hwritten (by simp; omega)
    refine ⟨st', ?_, ?_⟩
    · rw [foldlM_cons, hput]
      exact hrest
    · rwa [append_assoc, singleton_append] at hfinal

/-- The code word that the encoder writes for a symbol. -/
def encWord (sym : Nat) : List Bool := lowBits (huffEnc sym).1 (huffEnc sym).2

/-- The code words of a string. -/
def encWords (s : List UInt8) : List Bool := s.flatMap fun c => encWord c.toNat

theorem Written.putCode (dstMax : Nat) (h : Written st bits) (code n : Nat)
    (hroom : bits.length + n ≤ 8 * dstMax) :
    ∃ st', Mx.Http2.putCode dstMax code n st = some st' ∧ Written st' (bits ++ lowBits code n) :=
  h.putBits dstMax (fun b => code / 2 ^ (n - 1 - b) % 2) (fun _ => Nat.mod_lt _ Nat.two_pos)
    (List.range n) (by rwa [length_range])

theorem Written.putString (dstMax : Nat) (h : Written st bits) (s : List UInt8)
    (hroom : bits.length + (encWords s).length ≤ 8 * dstMax) :
    ∃ st', s.foldlM (fun st c =>
        Mx.Http2.putCode dstMax (huffEnc c.toNat).1 (huffEnc c.toNat).2 st) st = some st' ∧
      Written st' (bits ++ encWords s) := by
  induction s generalizing st bits with
  | nil => exact ⟨st, rfl, by rwa [encWords, flatMap_nil, append_nil]⟩
  | cons c s ih =>
    have hcons : encWords (c :: s) = encWord c.toNat ++ encWords s := rfl
    have hword : (encWord c.toNat).length = (huffEnc c.toNat).2 := lowBits_length _ _
    rw [hcons, length_append, hword] at hroom
    obtain ⟨st₁, hput, hwritten⟩ :=
      h.putCode dstMax (huffEnc c.toNat).1 (huffEnc c.toNat).2 (by omega)
    have hlength := lowBits_length (huffEnc c.toNat).1 (huffEnc c.toNat).2
    obtain ⟨st', hrest, hfinal⟩ := ih hwritten (by rw [length_append, hlength]; omega)
    refine ⟨st', ?_, ?_⟩
    · rw [foldlM_cons, hput]
      exact hrest
    · rwa [append_assoc] at hfinal

theorem lowBits_padOnes (n x m : Nat) :
    lowBits (padOnes n x) (m + n) = lowBits x m ++ List.replicate n true := by
  induction n generalizing x m with
  | zero => rw [padOnes, Nat.add_zero, replicate_zero, append_nil]
  | succ n ih =>
    have hone := lowBits_succ x m 1 (by decide)
    rw [padOnes, Nat.add_comm n 1, ← Nat.add_assoc, ih, hone, append_assoc,
      Nat.add_comm 1 n, replicate_succ]
    rfl

theorem padOnes_lt {n x m : Nat} (h : x < 2 ^ m) : padOnes n x < 2 ^ (m + n) := by
  induction n generalizing x m with
  | zero => exact h
  | succ n ih =>
    have hnext : x * 2 + 1 < 2 ^ (m + 1) := by
      rw [Nat.pow_succ]
      omega
    rw [padOnes, Nat.add_comm n 1, ← Nat.add_assoc]
    exact ih hnext

/-- With room for the codes the encoder writes them and fewer than eight ones. -/
theorem huffmanEncode_bits {dstMax : Nat} {s : List UInt8}
    (hroom : (encWords s).length ≤ 8 * dstMax) :
    ∃ e n, huffmanEncode dstMax s = some e ∧ n < 8 ∧
      bitsOf e = encWords s ++ List.replicate n true := by
  have hstart : Written ⟨[], 0, 0⟩ [] := ⟨rfl, Nat.succ_pos 7, Nat.one_pos⟩
  obtain ⟨st, hput, hwritten⟩ := hstart.putString dstMax s (by rwa [length_nil, Nat.zero_add])
  rw [nil_append] at hwritten
  have hlength := hwritten.length
  have hlt := hwritten.bitPos_lt
  rw [huffmanEncode, hput]
  dsimp only
  by_cases hpos : st.bitPos > 0
  · have height : st.bitPos + (8 - st.bitPos) = 8 := by omega
    have hbyte := padOnes_lt (n := 8 - st.bitPos) hwritten.curByte_lt
    have hpad := lowBits_padOnes (8 - st.bitPos) st.curByte st.bitPos
    rw [height] at hbyte hpad
    rw [if_pos hpos, if_neg (by omega)]
    refine ⟨_, 8 - st.bitPos, rfl, by omega, ?_⟩
    rw [bitsOf_append, bitsOf_ofNat hbyte, hpad, ← append_assoc, hwritten.bits_eq]
  · have hzero : st.bitPos = 0 := by omega
    rw [if_neg hpos]
    refine ⟨st.out, 0, rfl, Nat.succ_pos 7, ?_⟩
    have hbits := hwritten.bits_eq
    have hnone : lowBits st.curByte 0 = [] := rfl
    rw [hzero, hnone, append_nil] at hbits
    rw [hbits, replicate_zero, append_nil]

end Encode

/-! ## There and back -/

/-- The code word of a symbol in the decoders' table. -/
def codeWord (sym : Nat) : List Bool :=
  ((huffTable.find? fun e => e.2 == sym).map Prod.fst).getD []

/-- With room for its code a string is encoded, and the decoders bring it back. -/
def ComesBack (tree : HuffTree) (s : List UInt8) : Prop :=
  ∀ dstMax, (encWords s).length ≤ 8 * dstMax →
    ∃ e, huffmanEncode dstMax s = some e ∧
      (∀ m, s.length ≤ m → huffmanDecode tree e m = .ok s) ∧
        huffmanDecodedLength tree e = s.length

theorem huffTable_symbols : huffTable.map Prod.snd = List.range 257 := by decide +kernel

theorem codeWord_eq : ∀ e ∈ huffTable, codeWord e.2 = e.1 := by
  intro e he
  have hnodup : (huffTable.map Prod.snd).Nodup := by
    rw [huffTable_symbols]
    exact nodup_range
  rw [codeWord]
  cases hfind : huffTable.find? fun e' => e'.2 == e.2 with
  | none =>
    have hnone := find?_eq_none.mp hfind e he
    exact absurd (beq_self_eq_true e.2) hnone
  | some found =>
    have hfound : found.2 = e.2 := by simpa using find?_some hfind
    have heq := inj_on_of_nodup_map hnodup (mem_of_find?_eq_some hfind) he hfound
    rw [heq]
    rfl

theorem ones_mem : (List.replicate 30 true, huffEOS) ∈ huffTable := by decide +kernel

example : huffEOS < huffTable.length := by decide +kernel

/-- The codes of the encoder are those of the decoders, but for two symbols. -/
theorem encTable_eq : huffEncTable.map (fun e => (lowBits e.2.1 e.2.2, e.1)) =
    huffTable.map fun e =>
      if e.2 = 94 then (lowBits 16382 14, 94)
      else if e.2 = 125 then (lowBits 16383 14, 125)
      else e := by decide +kernel

theorem encTable_symbols : huffEncTable.map Prod.fst = List.range 257 := by decide +kernel

example : huffEncTable.length = huffTable.length := by decide +kernel

theorem encWord_mem_encTable {sym : Nat} (h : sym < 256) :
    (encWord sym, sym) ∈ huffEncTable.map fun e => (lowBits e.2.1 e.2.2, e.1) := by
  have hmem : sym ∈ huffEncTable.map Prod.fst := by
    rw [encTable_symbols]
    exact mem_range.mpr (by omega)
  obtain ⟨e, he, hsym⟩ := mem_map.mp hmem
  rw [encWord, huffEnc]
  cases hfind : huffEncTable.find? fun e => e.1 == sym with
  | none =>
    have hnone := find?_eq_none.mp hfind e he
    exact absurd (beq_iff_eq.mpr hsym) hnone
  | some found =>
    have hfound : found.1 = sym := by simpa using find?_some hfind
    refine mem_map.mpr ⟨found, mem_of_find?_eq_some hfind, ?_⟩
    rw [hfound]
    rfl

theorem encWord_mem {sym : Nat} (hlt : sym < 256) (hcaret : sym ≠ 94) (hbrace : sym ≠ 125) :
    (encWord sym, sym) ∈ huffTable := by
  have hmem := encWord_mem_encTable hlt
  rw [encTable_eq] at hmem
  obtain ⟨e, he, heq⟩ := mem_map.mp hmem
  by_cases h94 : e.2 = 94
  · rw [if_pos h94] at heq
    exact absurd (congrArg Prod.snd heq).symm hcaret
  · by_cases h125 : e.2 = 125
    · rw [if_neg h94, if_pos h125] at heq
      exact absurd (congrArg Prod.snd heq).symm hbrace
    · rw [if_neg h94, if_neg h125] at heq
      rwa [← heq]

/-- Fewer than eight ones spell nothing. -/
theorem decodeBits_ones {n : Nat} (h : n < 8) :
    decodeBits huffTable [] (List.replicate n true) = ([], List.replicate n true) := by
  have hones : List.replicate n true ++ List.replicate (30 - n) true = List.replicate 30 true := by
    rw [replicate_append_replicate]
    congr 1
    omega
  have hmem := ones_mem
  rw [← hones] at hmem
  refine huffTable_full.decodeBits_front (p := []) hmem fun hnil => ?_
  have hzero := congrArg List.length hnil
  rw [length_replicate, length_nil] at hzero
  omega

section RoundTrip

variable (arrays : HuffTree) (s : List UInt8)

theorem toNat_ofNat_toNat (c : UInt8) : UInt8.ofNat (c.toNat % 256) = c := by
  rw [Nat.mod_eq_of_lt c.toNat_lt, UInt8.ofNat_toNat]

/-- A string of symbols with the same codes in both tables comes back. -/
theorem comesBack_of_agree (h : ∀ c ∈ s, c ≠ 94 ∧ c ≠ 125) :
    ComesBack (initHuffTree arrays) s := by
  intro dstMax hroom
  obtain ⟨e, n, hencode, hn, hbits⟩ := huffmanEncode_bits hroom
  have hwords : encWords s = (s.map UInt8.toNat).flatMap encWord := by
    rw [encWords, flatMap_map]
  have hcode : ∀ sym ∈ s.map UInt8.toNat, (encWord sym, sym) ∈ huffTable := by
    intro sym hsym
    obtain ⟨c, hc, rfl⟩ := mem_map.mp hsym
    obtain ⟨hcaret, hbrace⟩ := h c hc
    exact encWord_mem c.toNat_lt (fun heq => hcaret (UInt8.toNat_inj.mp heq))
      fun heq => hbrace (UInt8.toNat_inj.mp heq)
  have hspell : decodeBits huffTable [] (bitsOf e) =
      (s.map UInt8.toNat, List.replicate n true) := by
    rw [hbits, hwords, huffTable_full.decodeBits_codes huffTable_ne_nil hcode,
      decodeBits_ones hn, append_nil]
  have heos : huffEOS ∉ s.map UInt8.toNat := by
    intro hmem
    obtain ⟨c, -, hc⟩ := mem_map.mp hmem
    exact absurd hc (Nat.ne_of_lt c.toNat_lt)
  have hback : (s.map UInt8.toNat).map (fun sym => UInt8.ofNat (sym % 256)) = s := by
    rw [map_map]
    exact map_id'' toNat_ofNat_toNat s
  refine ⟨e, hencode, fun m hm => ?_, ?_⟩
  · rw [huffmanDecode, decodeBytes_spells, hspell, emitAll_appendRoom (by simpa using hm),
      if_neg heos, hback, nil_append]
  · rw [decodedLength_loose, looseDecode, hspell, if_neg heos]
    simp

/-- The encoder's codes of the two symbols are as long as the decoders' but differ. -/
theorem encWord_wrong {sym : Nat} (h : sym = 94 ∨ sym = 125) :
    (encWord sym).length = 14 ∧ (codeWord sym).length = 14 ∧ encWord sym ≠ codeWord sym := by
  obtain rfl | rfl := h
  · decide +kernel
  · decide +kernel

/-- What the encoder writes does not start with the decoders' codes of a string with one of the two
symbols. -/
theorem encWords_ne {s : List UInt8} (h : ¬∀ c ∈ s, c ≠ 94 ∧ c ≠ 125) (rest rest' : List Bool) :
    encWords s ++ rest ≠ (s.map UInt8.toNat).flatMap codeWord ++ rest' := by
  induction s with
  | nil => exact absurd (fun c hc => absurd hc not_mem_nil) h
  | cons c s ih =>
    rw [encWords, flatMap_cons, map_cons, flatMap_cons, append_assoc, append_assoc]
    by_cases hc : c.toNat = 94 ∨ c.toNat = 125
    · obtain ⟨hlength, hlength', hne⟩ := encWord_wrong hc
      intro heq
      exact hne (append_inj heq (hlength.trans hlength'.symm)).1
    · have hcaret : c.toNat ≠ 94 := fun heq => hc (.inl heq)
      have hbrace : c.toNat ≠ 125 := fun heq => hc (.inr heq)
      have hword : encWord c.toNat = codeWord c.toNat :=
        (codeWord_eq _ (encWord_mem c.toNat_lt hcaret hbrace)).symm
      have hrest : ¬∀ c ∈ s, c ≠ 94 ∧ c ≠ 125 := by
        intro hall
        refine h fun c' hc' => ?_
        obtain rfl | hmem := mem_cons.mp hc'
        · exact ⟨fun heq => hcaret (congrArg UInt8.toNat heq),
            fun heq => hbrace (congrArg UInt8.toNat heq)⟩
        · exact hall c' hmem
      rw [hword]
      exact fun heq => ih hrest (append_cancel_left heq)

theorem decodeBits_le (p bits : List Bool) :
    ∀ sym ∈ (decodeBits huffTable p bits).1, sym ≤ huffEOS := by
  have hall : ∀ e ∈ huffTable, e.2 ≤ huffEOS := by decide +kernel
  induction bits generalizing p with
  | nil => nofun
  | cons b bits ih =>
    rw [decodeBits]
    cases hlook : lookup huffTable (p ++ [b]) with
    | none => exact ih (p ++ [b])
    | some u =>
      intro sym hsym
      obtain rfl | hmem := mem_cons.mp hsym
      · exact hall _ (mem_of_lookup hlook)
      · exact ih [] sym hmem

example : (encWord 97).length = 5 := by decide +kernel

/-- A string comes back exactly when both tables have the same codes for its bytes. -/
theorem comesBack_iff_agree :
    ComesBack (initHuffTree arrays) s ↔ ∀ c ∈ s, c ≠ 94 ∧ c ≠ 125 := by
  refine ⟨fun h => ?_, comesBack_of_agree arrays s⟩
  by_contra hbad
  obtain ⟨e, hencode, hdecode, -⟩ := h (encWords s).length (by omega)
  obtain ⟨e', n, hencode', -, hbits⟩ := huffmanEncode_bits (s := s)
    (show (encWords s).length ≤ 8 * (encWords s).length by omega)
  obtain rfl : e' = e := Option.some.inj (hencode'.symm.trans hencode)
  set m := s.length + 8 * e'.length with hm
  have hroom : ([] : List UInt8).length + (decodeBits huffTable [] (bitsOf e')).1.length ≤ m := by
    have hlength := symbols_length e'
    rw [length_nil]
    omega
  have hback := hdecode m (Nat.le_add_right _ _)
  rw [huffmanDecode, decodeBytes_spells, emitAll_appendRoom hroom, nil_append] at hback
  by_cases heos : huffEOS ∈ (decodeBits huffTable [] (bitsOf e')).1
  · rw [if_pos heos] at hback
    cases hback
  · rw [if_neg heos] at hback
    have hsyms : s.map UInt8.toNat = (decodeBits huffTable [] (bitsOf e')).1 := by
      rw [← Except.ok.inj hback, map_map]
      refine (map_congr_left fun sym hsym => ?_).trans (map_id _)
      have hlt : sym < 256 :=
        Nat.lt_of_le_of_ne (decodeBits_le _ _ sym hsym) (ne_of_mem_of_not_mem hsym heos)
      change (UInt8.ofNat (sym % 256)).toNat = sym
      rw [UInt8.toNat_ofNat', Nat.mod_mod, Nat.mod_eq_of_lt hlt]
    have hspell := decodeBits_spells codeWord_eq [] (bitsOf e')
    rw [nil_append, ← hsyms, hbits] at hspell
    exact encWords_ne hbad _ _ hspell

end RoundTrip

/-! ## Both directions -/

/-- Strings without `^` and `}` come back, and no others; bytes are decoded as the table says where
the padding is minded, and no others. -/
theorem huffman_iff (arrays : HuffTree) (s e : List UInt8) :
    (ComesBack (initHuffTree arrays) s ↔ ∀ c ∈ s, c ≠ 94 ∧ c ≠ 125) ∧
      (DecodesProperly (initHuffTree arrays) e ↔ PaddingMinded e) :=
  ⟨comesBack_iff_agree arrays s, decodesProperly_iff_padding arrays e⟩

/-- `^` does not come back, and a padding of zeros is accepted. -/
theorem huffman_caret :
    ¬ComesBack (initHuffTree ⟨fun _ _ => none, fun _ => none, 0⟩) [94] ∧
      ¬DecodesProperly (initHuffTree ⟨fun _ _ => none, fun _ => none, 0⟩) [0] := by
  have hpadding : ¬PaddingMinded [0] := by
    unfold PaddingMinded
    decide +kernel
  exact ⟨fun h => ((comesBack_iff_agree _ _).mp h 94 mem_cons_self).1 rfl,
    fun h => hpadding ((decodesProperly_iff_padding _ _).mp h)⟩

end Mx.Http2
