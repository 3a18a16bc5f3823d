import Mx.Core.Machine
import Mx.Rpc.Codec

/-!
# UTF-8

`IsValidUTF8` of `Text` as a machine that goes through a buffer and emits the indexes it reads. It
accepts the concatenations of encoded characters and reads nothing outside the buffer.
-/

namespace Mx.Text

open Mx.Core List
open Rpc (cardinals)

/-! ## The validator -/

/-- `Byte`. -/
def byte (buf : List UInt8) (i : Nat) : Nat := (buf.getD i 0).toNat

/-- What a round reads, and the next index or the result. -/
abbrev Round := List Nat × (Nat ⊕ Bool)

/-- A byte that does not continue a character. -/
abbrev Bad (b : Nat) : Prop := b < 0x80 ∨ b > 0xBF

/-- A sequence of two bytes. -/
def validTwo (buf : List UInt8) (i i1 i2 : Nat) : Round :=
  if i1 ≥ buf.length then ([i], .inr false)
  else if Bad (byte buf i1) then ([i, i1], .inr false)
  else ([i, i1], .inl i2)

/-- A sequence of three bytes: no overlong forms and no surrogates. -/
def validThree (buf : List UInt8) (i i1 i2 i3 : Nat) : Round :=
  if i2 ≥ buf.length then ([i], .inr false)
  else if Bad (byte buf i1) then ([i, i1, i2], .inr false)
  else if Bad (byte buf i2) then ([i, i1, i2], .inr false)
  else if byte buf i = 0xE0 ∧ byte buf i1 < 0xA0 then ([i, i1, i2], .inr false)
  else if byte buf i = 0xED ∧ byte buf i1 > 0x9F then ([i, i1, i2], .inr false)
  else ([i, i1, i2], .inl i3)

/-- A sequence of four bytes: no overlong forms and nothing above U+10FFFF. -/
def validFour (buf : List UInt8) (i i1 i2 i3 i4 : Nat) : Round :=
  if i3 ≥ buf.length then ([i], .inr false)
  else if Bad (byte buf i1) then ([i, i1, i2, i3], .inr false)
  else if Bad (byte buf i2) then ([i, i1, i2, i3], .inr false)
  else if Bad (byte buf i3) then ([i, i1, i2, i3], .inr false)
  else if byte buf i = 0xF0 ∧ byte buf i1 < 0x90 then ([i, i1, i2, i3], .inr false)
  else if byte buf i = 0xF4 ∧ byte buf i1 > 0x8F then ([i, i1, i2, i3], .inr false)
  else ([i, i1, i2, i3], .inl i4)

/-- One round of the loop of `IsValidUTF8`, where the sums wrap. -/
def validRound (buf : List UInt8) (i : Nat) : Round :=
  let i1 := (i + 1) % cardinals
  let i2 := (i + 2) % cardinals
  let i3 := (i + 3) % cardinals
  let i4 := (i + 4) % cardinals
  let b := byte buf i
  if i < buf.length then
    if b ≤ 0x7F then ([i], .inl i1)
    else if b ≥ 0xC2 ∧ b ≤ 0xDF then validTwo buf i i1 i2
    else if b ≥ 0xE0 ∧ b ≤ 0xEF then validThree buf i i1 i2 i3
    else if b ≥ 0xF0 ∧ b ≤ 0xF4 then validFour buf i i1 i2 i3 i4
    else ([i], .inr false)
  else ([], .inr true)

/-- `IsValidUTF8`, from the index 0. An empty buffer is left at once, as the loop leaves it. -/
def isValidUtf8 (buf : List UInt8) : Machine Nat Nat Bool where
  step := validRound buf

/-! ## Encoded characters -/

/-- A byte string is a concatenation of encoded characters. -/
def IsUtf8 (s : List UInt8) : Prop := ∃ cs : List Char, cs.flatMap String.utf8EncodeChar = s

/-- A byte behind the first one of a character. -/
abbrev Tail (b : Nat) : Prop := 0x80 ≤ b ∧ b ≤ 0xBF

/-- The bytes of one character. -/
def Sequence : List Nat → Prop
  | [b] => b ≤ 0x7F
  | [b, b1] => 0xC2 ≤ b ∧ b ≤ 0xDF ∧ Tail b1
  | [b, b1, b2] => 0xE0 ≤ b ∧ b ≤ 0xEF ∧ Tail b1 ∧ Tail b2 ∧
      (b = 0xE0 → 0xA0 ≤ b1) ∧ (b = 0xED → b1 ≤ 0x9F)
  | [b, b1, b2, b3] => 0xF0 ≤ b ∧ b ≤ 0xF4 ∧ Tail b1 ∧ Tail b2 ∧ Tail b3 ∧
      (b = 0xF0 → 0x90 ≤ b1) ∧ (b = 0xF4 → b1 ≤ 0x8F)
  | _ => False

section Encoding

variable {c : Char} {v : Nat} {l rest : List UInt8}

/-- The character with a scalar value. -/
theorem exists_char (h : v.isValidChar) : ∃ c : Char, c.val.toNat = v :=
  ⟨Char.ofNatAux v h, by simp [Char.ofNatAux]⟩

/-- What encodes a character is a sequence. -/
theorem sequence_encoded (c : Char) : Sequence ((String.utf8EncodeChar c).map UInt8.toNat) := by
  have hval : c.val.toNat < 0xD800 ∨ 0xDFFF < c.val.toNat ∧ c.val.toNat < 0x110000 := c.valid
  rw [String.utf8EncodeChar]
  generalize c.val.toNat = v at hval
  have hbyte : ∀ n < 256, (UInt8.ofNat n).toNat = n := fun n hn => UInt8.toNat_ofNat_of_lt' hn
  split
  · rw [map_cons, hbyte v (by omega)]
    simpa [Sequence]
  · split
    · rw [map_cons, map_cons, hbyte _ (by omega), hbyte _ (by omega)]
      simp only [map_nil, Sequence, Tail]
      omega
    · split
      · rw [map_cons, map_cons, map_cons, hbyte _ (by omega), hbyte _ (by omega),
          hbyte _ (by omega)]
        simp only [map_nil, Sequence, Tail]
        omega
      · rw [map_cons, map_cons, map_cons, map_cons, hbyte _ (by omega),
          hbyte _ (by omega), hbyte _ (by omega), hbyte _ (by omega)]
        simp only [map_nil, Sequence, Tail]
        omega

/-- A sequence encodes a character. -/
theorem exists_encoded {s : List UInt8} (h : Sequence (s.map UInt8.toNat)) :
    ∃ c : Char, String.utf8EncodeChar c = s := by
  have hbyte : ∀ {n : Nat} {x : UInt8}, n = x.toNat → UInt8.ofNat n = x := by
    rintro n x rfl
    exact UInt8.ofNat_toNat
  match s, h with
  | [x], h =>
    simp only [map_cons, map_nil, Sequence] at h
    obtain ⟨c, hc⟩ := exists_char (v := x.toNat) (.inl (by omega))
    refine ⟨c, ?_⟩
    rw [String.utf8EncodeChar, hc, if_pos h, hbyte rfl]
  | [x, x1], h =>
    simp only [map_cons, map_nil, Sequence, Tail] at h
    obtain ⟨c, hc⟩ := exists_char (v := (x.toNat - 0xC0) * 64 + (x1.toNat - 0x80))
      (.inl (by omega))
    refine ⟨c, ?_⟩
    rw [String.utf8EncodeChar, hc, if_neg (by omega), if_pos (by omega), hbyte (x := x) (by omega),
      hbyte (x := x1) (by omega)]
  | [x, x1, x2], h =>
    simp only [map_cons, map_nil, Sequence, Tail] at h
    obtain ⟨c, hc⟩ := exists_char
      (v := (x.toNat - 0xE0) * 4096 + (x1.toNat - 0x80) * 64 + (x2.toNat - 0x80))
      (by rw [Nat.isValidChar]; omega)
    refine ⟨c, ?_⟩
    rw [String.utf8EncodeChar, hc, if_neg (by omega), if_neg (by omega), if_pos (by omega),
      hbyte (x := x) (by omega),
      hbyte (x := x1) (by omega), hbyte (x := x2) (by omega)]
  | [x, x1, x2, x3], h =>
    simp only [map_cons, map_nil, Sequence, Tail] at h
    obtain ⟨c, hc⟩ := exists_char (v := (x.toNat - 0xF0) * 262144 + (x1.toNat - 0x80) * 4096 +
      (x2.toNat - 0x80) * 64 + (x3.toNat - 0x80)) (.inr (by omega))
    refine ⟨c, ?_⟩
    rw [String.utf8EncodeChar, hc, if_neg (by omega), if_neg (by omega), if_neg (by omega),
      hbyte (x := x) (by omega),
      hbyte (x := x1) (by omega), hbyte (x := x2) (by omega), hbyte (x := x3) (by omega)]

end Encoding

/-! ## Characters in a buffer -/

/-- A character of so many bytes stands at an index. -/
def CharAt (buf : List UInt8) (i n : Nat) : Prop :=
  i + n ≤ buf.length ∧ Sequence ((List.range n).map fun k => byte buf (i + k))

section Buffer

variable {buf : List UInt8} {i n : Nat}

/-- The bytes at an index. -/
theorem map_byte (h : i + n ≤ buf.length) :
    (List.range n).map (fun k => byte buf (i + k)) = ((buf.drop i).take n).map UInt8.toNat := by
  apply ext_getElem
  · simp
    omega
  · intro k hk _
    rw [length_map, length_range] at hk
    simp [byte, getD_eq_getElem?_getD, getElem?_eq_getElem (show i + k < buf.length by omega)]

/-- The character that stands at an index, and what is behind it. -/
theorem CharAt.exists_encoded (h : CharAt buf i n) :
    ∃ c, buf.drop i = String.utf8EncodeChar c ++ buf.drop (i + n) := by
  obtain ⟨hle, hseq⟩ := h
  rw [map_byte hle] at hseq
  obtain ⟨c, hc⟩ := Text.exists_encoded hseq
  exact ⟨c, by rw [hc, ← drop_drop, take_append_drop]⟩

theorem charAt_of_encoded {c : Char} {rest : List UInt8}
    (h : buf.drop i = String.utf8EncodeChar c ++ rest) :
    CharAt buf i c.utf8Size ∧ rest = buf.drop (i + c.utf8Size) := by
  have hlen := congrArg List.length h
  rw [length_drop, length_append, String.length_utf8EncodeChar] at hlen
  have hpos := c.utf8Size_pos
  have hle : i + c.utf8Size ≤ buf.length := by omega
  refine ⟨⟨hle, ?_⟩, ?_⟩
  · rw [map_byte hle, h, ← String.length_utf8EncodeChar, take_left]
    exact sequence_encoded c
  · rw [← drop_drop, h, ← String.length_utf8EncodeChar, drop_left]

/-- The size of a character is at most four. -/
theorem CharAt.cases (h : CharAt buf i n) : n = 1 ∨ n = 2 ∨ n = 3 ∨ n = 4 := by
  obtain ⟨c, hc⟩ := h.exists_encoded
  have hlen := congrArg List.length hc
  rw [length_append, length_drop, length_drop, String.length_utf8EncodeChar] at hlen
  have hsize := c.utf8Size_eq
  have hle := h.1
  omega

/-- A character is known by its bytes. -/
theorem charAt_one : CharAt buf i 1 ↔ i + 1 ≤ buf.length ∧ byte buf i ≤ 0x7F := Iff.rfl

theorem charAt_two : CharAt buf i 2 ↔ i + 2 ≤ buf.length ∧ 0xC2 ≤ byte buf i ∧
    byte buf i ≤ 0xDF ∧ Tail (byte buf (i + 1)) := Iff.rfl

theorem charAt_three : CharAt buf i 3 ↔ i + 3 ≤ buf.length ∧ 0xE0 ≤ byte buf i ∧
    byte buf i ≤ 0xEF ∧ Tail (byte buf (i + 1)) ∧ Tail (byte buf (i + 2)) ∧
    (byte buf i = 0xE0 → 0xA0 ≤ byte buf (i + 1)) ∧
    (byte buf i = 0xED → byte buf (i + 1) ≤ 0x9F) := Iff.rfl

theorem charAt_four : CharAt buf i 4 ↔ i + 4 ≤ buf.length ∧ 0xF0 ≤ byte buf i ∧
    byte buf i ≤ 0xF4 ∧ Tail (byte buf (i + 1)) ∧ Tail (byte buf (i + 2)) ∧
    Tail (byte buf (i + 3)) ∧ (byte buf i = 0xF0 → 0x90 ≤ byte buf (i + 1)) ∧
    (byte buf i = 0xF4 → byte buf (i + 1) ≤ 0x8F) := Iff.rfl

/-- No two characters stand at one index. -/
theorem CharAt.unique {m : Nat} (hm : CharAt buf i m) (hn : CharAt buf i n) : m = n := by
  rcases hm.cases with rfl | rfl | rfl | rfl <;> rcases hn.cases with rfl | rfl | rfl | rfl <;>
    simp only [charAt_one, charAt_two, charAt_three, charAt_four] at hm hn <;> omega

/-- What stands behind a character decides. -/
theorem CharAt.isUtf8_iff (h : CharAt buf i n) :
    IsUtf8 (buf.drop i) ↔ IsUtf8 (buf.drop (i + n)) := by
  constructor
  · rintro ⟨cs, hcs⟩
    cases cs with
    | nil =>
      have hlen := congrArg List.length hcs
      rw [flatMap_nil, length_nil, length_drop] at hlen
      have hle := h.1
      have hsize := h.cases
      omega
    | cons c cs =>
      rw [flatMap_cons] at hcs
      obtain ⟨hat, hrest⟩ := charAt_of_encoded hcs.symm
      obtain rfl := hat.unique h
      exact ⟨cs, hrest⟩
  · rintro ⟨cs, hcs⟩
    obtain ⟨c, hc⟩ := h.exists_encoded
    exact ⟨c :: cs, by rw [flatMap_cons, hcs, hc]⟩

/-- Where no character stands, there is no UTF-8. -/
theorem not_isUtf8 (hi : i < buf.length) (h : ∀ n, ¬CharAt buf i n) : ¬IsUtf8 (buf.drop i) := by
  rintro ⟨cs, hcs⟩
  cases cs with
  | nil =>
    rw [flatMap_nil, eq_comm, drop_eq_nil_iff] at hcs
    omega
  | cons c cs =>
    rw [flatMap_cons] at hcs
    exact h _ (charAt_of_encoded hcs.symm).1

/-! ## Acceptance -/

/-- A round goes over the character at its index, or fails where there is none. -/
def Judged (buf : List UInt8) (i : Nat) (r : Round) : Prop :=
  (∃ n, CharAt buf i n ∧ r = ((List.range n).map (i + ·), .inl (i + n))) ∨
    ∃ reads, (∀ n, ¬CharAt buf i n) ∧ r = (reads, .inr false) ∧ ∀ k ∈ reads, k < buf.length

/-- What is refused is no character of any size, and the indexes are tested before. -/
theorem judged_false {reads : List Nat} (hreads : ∀ k ∈ reads, k < buf.length)
    (h1 : ¬CharAt buf i 1) (h2 : ¬CharAt buf i 2) (h3 : ¬CharAt buf i 3) (h4 : ¬CharAt buf i 4) :
    Judged buf i (reads, .inr false) := by
  refine .inr ⟨reads, fun n hn => ?_, rfl, hreads⟩
  rcases hn.cases with rfl | rfl | rfl | rfl <;> contradiction

theorem judged_two (hi : i < buf.length) (h : 0xC2 ≤ byte buf i ∧ byte buf i ≤ 0xDF) :
    Judged buf i (validTwo buf i (i + 1) (i + 2)) := by
  have hfail := fun reads => @judged_false buf i reads
  simp only [charAt_one, charAt_two, charAt_three, charAt_four, Tail] at hfail
  rw [validTwo]
  split_ifs with hlen htail
  · exact hfail _ (by simp; omega) (by omega) (by omega) (by omega) (by omega)
  · exact hfail _ (by simp; omega) (by omega) (by omega) (by omega) (by omega)
  · exact .inl ⟨2, charAt_two.mpr (by omega), rfl⟩

theorem judged_three (hi : i < buf.length) (h : 0xE0 ≤ byte buf i ∧ byte buf i ≤ 0xEF) :
    Judged buf i (validThree buf i (i + 1) (i + 2) (i + 3)) := by
  have hfail := fun reads => @judged_false buf i reads
  simp only [charAt_one, charAt_two, charAt_three, charAt_four, Tail] at hfail
  rw [validThree]
  split_ifs with hlen htail1 htail2 hlong hsurrogate
  case neg => exact .inl ⟨3, charAt_three.mpr (by omega), rfl⟩
  all_goals exact hfail _ (by simp; omega) (by omega) (by omega) (by omega) (by omega)

theorem judged_four (hi : i < buf.length) (h : 0xF0 ≤ byte buf i ∧ byte buf i ≤ 0xF4) :
    Judged buf i (validFour buf i (i + 1) (i + 2) (i + 3) (i + 4)) := by
  have hfail := fun reads => @judged_false buf i reads
  simp only [charAt_one, charAt_two, charAt_three, charAt_four, Tail] at hfail
  rw [validFour]
  split_ifs with hlen htail1 htail2 htail3 hlong hlarge
  case neg => exact .inl ⟨4, charAt_four.mpr (by omega), rfl⟩
  all_goals exact hfail _ (by simp; omega) (by omega) (by omega) (by omega) (by omega)

/-- Every round judges what stands at its index. -/
theorem judged_round (hlen : buf.length < 2 ^ 32 - 4) (hi : i < buf.length) :
    Judged buf i (validRound buf i) := by
  have hmod : ∀ k ≤ 4, (i + k) % cardinals = i + k := fun k hk =>
    Nat.mod_eq_of_lt (by rw [cardinals]; omega)
  rw [validRound, hmod 1 (by omega), hmod 2 (by omega), hmod 3 (by omega), hmod 4 (by omega),
    if_pos hi]
  split_ifs with hone htwo hthree hfour
  · exact .inl ⟨1, charAt_one.mpr ⟨hi, hone⟩, rfl⟩
  · exact judged_two hi htwo
  · exact judged_three hi hthree
  · exact judged_four hi hfour
  · refine judged_false (by simpa) ?_ ?_ ?_ ?_ <;>
      simp only [charAt_one, charAt_two, charAt_three, charAt_four] <;> omega

/-- From an index of the buffer on, the validator accepts UTF-8 and reads nothing outside. -/
theorem halts_from (hlen : buf.length < 2 ^ 32 - 4) (hi : i ≤ buf.length) :
    ∃ reads r, (isValidUtf8 buf).Halts i reads r ∧ (∀ k ∈ reads, k < buf.length) ∧
      (r = true ↔ IsUtf8 (buf.drop i)) := by
  -- Every round comes closer to the end of the buffer.
  induction hleft : buf.length - i using Nat.strong_induction_on generalizing i with
  | h left ih =>
    rcases hi.lt_or_eq with hlt | heq
    · rcases judged_round hlen hlt with ⟨n, hat, hround⟩ | ⟨reads, hno, hround, hreads⟩
      · have hle := hat.1
        have hsize := hat.cases
        obtain ⟨reads, r, hhalts, hreads, hr⟩ := ih _ (by omega) hle rfl
        refine ⟨_, r, (Machine.steps_one hround).halts hhalts, ?_, hr.trans hat.isUtf8_iff.symm⟩
        intro k hk
        rcases mem_append.mp hk with hk | hk
        · obtain ⟨j, hj, rfl⟩ := mem_map.mp hk
          rw [mem_range] at hj
          omega
        · exact hreads k hk
      · exact ⟨reads, false, Machine.halts_one hround, hreads,
          iff_of_false Bool.false_ne_true (not_isUtf8 hlt hno)⟩
    · have hround : (isValidUtf8 buf).step i = ([], .inr true) :=
        if_neg (Nat.not_lt.mpr heq.ge)
      refine ⟨[], true, Machine.halts_one hround, fun _ h => (nomatch h), iff_of_true rfl ⟨[], ?_⟩⟩
      rw [heq, drop_length, flatMap_nil]

end Buffer

/-- `IsValidUTF8` ends, reads inside the buffer only, and accepts exactly UTF-8. -/
theorem isValidUtf8_iff (buf : List UInt8) (hlen : buf.length < 2 ^ 32 - 4) :
    ∃ reads r, (isValidUtf8 buf).Halts 0 reads r ∧ (∀ k ∈ reads, k < buf.length) ∧
      (r = true ↔ IsUtf8 buf) :=
  halts_from hlen (Nat.zero_le _)

/-- The encoding of U+00E9. -/
theorem isValidUtf8_iff_two :
    ∃ reads r, (isValidUtf8 [0xC3, 0xA9]).Halts 0 reads r ∧ (∀ k ∈ reads, k < 2) ∧
      (r = true ↔ IsUtf8 [0xC3, 0xA9]) :=
  isValidUtf8_iff [0xC3, 0xA9] (by simp)

end Mx.Text
