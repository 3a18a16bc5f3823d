import Mx.Core.CBytes

/-!
# The string operations of the runtime

`m2_Strings_Assign`, `Insert`, `Delete`, `Copy` and `Concat` of the C code that every program
contains. Positions and lengths have 32 bits and are added in 32 bits, lengths of strings have 64.
-/

namespace Mx.Runtime

open Mx.Core.CBytes Strings List

/-! ## The operations -/

/-- A number as `uint32_t` holds it. -/
def u32 (n : Nat) : Nat := n % 4294967296

/-- A number as `size_t` holds it. -/
def sizeT (n : Nat) : Nat := n % 18446744073709551616

/-- A difference in `size_t`. -/
def sizeSub (a b : Nat) : Nat := sizeT (a + 18446744073709551616 - b)

/-- `m2_Strings_Assign`. The compiler of the C code decides what it knows to be constant. -/
def stringsAssign (constant : Bool) (src dst : List UInt8) (dstHigh : Nat) :
    Option (List UInt8) := do
  let cap := dstHigh + 1
  let slen ← strlen src
  if constant ∧ slen < cap then memcpy dst 0 src 0 (slen + 1)
  else
    let slen := if slen ≥ cap then cap - 1 else slen
    let dst ← memcpy dst 0 src 0 slen
    store dst slen 0

/-- `m2_Strings_Insert`. -/
def stringsInsert (sub dst : List UInt8) (dstHigh pos : Nat) : Option (List UInt8) := do
  let cap := dstHigh + 1
  let slen ← strlen sub
  let dlen ← strlen dst
  let pos := if pos > dlen then u32 dlen else pos
  let newLen := sizeT (dlen + slen)
  let newLen := if newLen ≥ cap then cap - 1 else newLen
  let tailDst := sizeT (pos + slen)
  let tailKeep := if tailDst < newLen then newLen - tailDst else 0
  let dst ← if tailKeep > 0 then memmove dst tailDst pos tailKeep else some dst
  let subCopy := if sizeT (pos + slen) > newLen then sizeSub newLen pos else slen
  let dst ← if subCopy > 0 then memcpy dst pos sub 0 subCopy else some dst
  store dst newLen 0

/-- `m2_Strings_Delete`. -/
def stringsDelete (s : List UInt8) (pos len : Nat) : Option (List UInt8) := do
  let slen ← strlen s
  if pos ≥ slen then some s
  else
    let len := if u32 (pos + len) > slen then u32 (slen - pos) else len
    memmove s pos (pos + len) (sizeT (sizeSub (sizeSub slen pos) len + 1))

/-- `m2_Strings_Copy`. -/
def stringsCopy (src : List UInt8) (pos len : Nat) (dst : List UInt8) (dstHigh : Nat) :
    Option (List UInt8) := do
  let cap := dstHigh + 1
  let slen ← strlen src
  if pos ≥ slen then store dst 0 0
  else
    let len := if u32 (pos + len) > slen then u32 (slen - pos) else len
    let len := if len ≥ cap then u32 (cap - 1) else len
    let dst ← memcpy dst 0 src pos len
    store dst len 0

/-- `m2_Strings_Concat`. -/
def stringsConcat (s1 s2 dst : List UInt8) (dstHigh : Nat) : Option (List UInt8) := do
  let cap := dstHigh + 1
  let len1 ← strlen s1
  let len2 ← strlen s2
  let len1 := if len1 ≥ cap then cap - 1 else len1
  let dst ← memcpy dst 0 s1 0 len1
  let rem := cap - 1 - len1
  let len2 := if len2 > rem then rem else len2
  let dst ← memcpy dst len1 s2 0 len2
  store dst (len1 + len2) 0

/-! ## Arguments and results -/

/-- An array with a string, of a size that an object can have. -/
structure CString where
  bytes : List UInt8
  terminated : 0 ∈ bytes
  size_lt : bytes.length < 9223372036854775808

/-- An array that is written, with its highest index. -/
structure Dest where
  bytes : List UInt8
  high : Nat
  size_eq : bytes.length = high + 1
  high_lt : high < 4294967295

/-- An array that is written and holds a string. -/
structure DestString extends Dest where
  terminated : 0 ∈ bytes

/-- A call of one of the operations. -/
inductive StringCall where
  | assign (constant : Bool) (src : CString) (dst : Dest)
  | insert (sub : CString) (dst : DestString) (pos : UInt32)
  | delete (s : DestString) (pos len : UInt32)
  | copy (src : CString) (pos len : UInt32) (dst : Dest)
  | concat (s1 s2 : CString) (dst : Dest)

namespace StringCall

/-- The array that a call writes, before it. -/
def target : StringCall → List UInt8
  | .assign _ _ dst | .copy _ _ _ dst | .concat _ _ dst => dst.bytes
  | .insert _ dst _ | .delete dst _ _ => dst.bytes

/-- The array that a call writes, after it, unless the call reads or writes outside of an array. -/
def exec : StringCall → Option (List UInt8)
  | .assign constant src dst => stringsAssign constant src.bytes dst.bytes dst.high
  | .insert sub dst pos => stringsInsert sub.bytes dst.bytes dst.high pos.toNat
  | .delete s pos len => stringsDelete s.bytes pos.toNat len.toNat
  | .copy src pos len dst => stringsCopy src.bytes pos.toNat len.toNat dst.bytes dst.high
  | .concat s1 s2 dst => stringsConcat s1.bytes s2.bytes dst.bytes dst.high

/-- The string that a call is for, cut off where the array has no room. -/
def result : StringCall → Text
  | .assign _ src dst => Strings.assign (dst.high + 1) (str src.bytes)
  | .insert sub dst pos =>
    let place := min pos.toNat (str dst.bytes).length
    Strings.assign (dst.high + 1)
      ((str dst.bytes).take place ++ (str sub.bytes ++ (str dst.bytes).drop place))
  | .delete s pos len =>
    Strings.assign (s.high + 1)
      ((str s.bytes).take pos.toNat ++ (str s.bytes).drop (pos.toNat + len.toNat))
  | .copy src pos len dst => Strings.copy (dst.high + 1) (str src.bytes) pos.toNat len.toNat
  | .concat s1 s2 dst => Strings.concat (dst.high + 1) (str s1.bytes) (str s2.bytes)

/-- A call stays within the arrays and leaves the string that it is for. -/
def Exact (call : StringCall) : Prop :=
  ∃ o, call.exec = some o ∧ o.length = call.target.length ∧ Holds o call.result

/-- The end of the part has 32 bits, or it does not matter. -/
def InRange : StringCall → Prop
  | .delete s pos len =>
    (str s.bytes).length ≤ pos.toNat ∨ pos.toNat + len.toNat < 4294967296
  | .copy src pos len dst =>
    (str src.bytes).length ≤ pos.toNat ∨ pos.toNat + len.toNat < 4294967296 ∨
      pos.toNat + min len.toNat dst.high ≤ src.bytes.length
  | _ => True

end StringCall

/-! ## Exactness -/

section Exact

variable {n pos len : Nat}

theorem u32_of_lt (h : n < 4294967296) : u32 n = n := Nat.mod_eq_of_lt h

theorem sizeT_of_lt (h : n < 18446744073709551616) : sizeT n = n := Nat.mod_eq_of_lt h

theorem sizeSub_of_le {a b : Nat} (hle : b ≤ a) (ha : a < 18446744073709551616) :
    sizeSub a b = a - b := by
  rw [sizeSub, sizeT]
  omega

/-- A part of a string is copied to the front of an array and ended by a NUL. -/
theorem copy_part {src dst : List UInt8} {xs : Text} (h : Holds src xs)
    (hpos : pos ≤ xs.length) (hsrc : pos + n ≤ src.length) (hdst : n < dst.length) :
    ∃ o, ((memcpy dst 0 src pos n).bind fun dst => store dst n 0) = some o ∧
      o.length = dst.length ∧ Holds o ((xs.drop pos).take n) := by
  have hlength := take_drop_length hsrc
  have hover : (overwrite dst 0 ((src.drop pos).take n)).length = dst.length :=
    overwrite_length (by rw [hlength]; omega)
  have htake : (overwrite dst 0 ((src.drop pos).take n)).take n = (src.drop pos).take n := by
    have hfront := @overwrite_take dst ((src.drop pos).take n) 0 (Nat.zero_le _) n
    rw [Nat.zero_add, take_zero, nil_append, take_left' hlength] at hfront
    exact hfront
  obtain ⟨o, ho, hlen, hholds⟩ := store_holds (hover ▸ hdst) (htake ▸ h.part hpos n)
  refine ⟨o, ?_, hlen.trans hover, hholds⟩
  rw [memcpy_eq hsrc (by omega)]
  exact ho

theorem assign_exact (constant : Bool) (src : CString) (dst : Dest) :
    (StringCall.assign constant src dst).Exact := by
  have hsrc := holds_str src.terminated
  have hlt := hsrc.length_lt
  have hsize := dst.size_eq
  have hcopy : ∀ n, n = min (str src.bytes).length dst.high →
      ∃ o, ((memcpy dst.bytes 0 src.bytes 0 n).bind fun dst => store dst n 0) = some o ∧
        o.length = dst.bytes.length ∧ Holds o (Strings.assign (dst.high + 1) (str src.bytes)) := by
    intro n hn
    have hpart := copy_part hsrc (Nat.zero_le _) (by omega : 0 + n ≤ src.bytes.length)
      (by omega : n < dst.bytes.length)
    rw [drop_zero] at hpart
    have hcut : (str src.bytes).take n = Strings.assign (dst.high + 1) (str src.bytes) := by
      rw [Strings.assign, Nat.add_sub_cancel, hn, Nat.min_comm, ← take_take, take_length]
    rwa [hcut] at hpart
  rw [StringCall.Exact, StringCall.exec, StringCall.target, StringCall.result]
  simp only [stringsAssign, strlen_eq src.terminated, Option.bind_eq_bind, Option.bind_some]
  by_cases hconstant : constant ∧ (str src.bytes).length < dst.high + 1
  · rw [if_pos hconstant, memcpy_eq (by omega) (by omega)]
    have hcut : Strings.assign (dst.high + 1) (str src.bytes) = str src.bytes :=
      assign_of_lt hconstant.2
    have hwhole := hsrc.take_succ
    have hnul : 0 ∉ str src.bytes := hsrc.choose_spec.2
    have hlength : (str src.bytes ++ [0]).length = (str src.bytes).length + 1 :=
      length_append
    rw [drop_zero, hwhole, hcut]
    refine ⟨_, rfl, overwrite_length (by rw [hlength]; omega),
      dst.bytes.drop (0 + (str src.bytes ++ [0]).length), ?_, hnul⟩
    rw [overwrite, take_zero, nil_append, append_assoc, singleton_append]
  · rw [if_neg hconstant]
    refine hcopy _ ?_
    split <;> omega

/-- What is left of a text that is inserted, and of what is behind it. -/
theorem insert_cut (xs ys : Text) {place : Nat} (hplace : place ≤ ys.length) :
    (ys.take place ++ (xs ++ ys.drop place)).take (place + n) =
      ys.take place ++ (xs.take n ++ (ys.drop place).take (n - xs.length)) := by
  have hsum : place + n = (ys.take place).length + n := by rw [length_take_le hplace]
  rw [hsum, take_length_add_append, take_append]

theorem not_mem_insert {xs ys : Text} (hxs : 0 ∉ xs) (hys : 0 ∉ ys) (place n : Nat) :
    0 ∉ (ys.take place ++ (xs ++ ys.drop place)).take n := by
  intro h
  obtain hmem | hmem := mem_append.mp (mem_of_mem_take h)
  · exact hys (mem_of_mem_take hmem)
  · obtain hmem | hmem := mem_append.mp hmem
    · exact hxs hmem
    · exact hys (mem_of_mem_drop hmem)

theorem insert_exact (sub : CString) (dst : DestString) (pos : UInt32) :
    (StringCall.insert sub dst pos).Exact := by
  have hsub := holds_str sub.terminated
  have hdst := holds_str dst.terminated
  have hsubLt := hsub.length_lt
  have hdstLt := hdst.length_lt
  have hsize := dst.size_eq
  have hhigh := dst.high_lt
  have hsubSize := sub.size_lt
  have hplace : (if pos.toNat > (str dst.bytes).length then u32 (str dst.bytes).length
      else pos.toNat) = min pos.toNat (str dst.bytes).length := by
    rw [u32_of_lt (by omega)]
    split <;> omega
  rw [StringCall.Exact, StringCall.exec, StringCall.target, StringCall.result]
  simp only [stringsInsert, strlen_eq sub.terminated, strlen_eq dst.terminated,
    Option.bind_eq_bind, Option.bind_some, hplace]
  generalize hp : min pos.toNat (str dst.bytes).length = place
  have hnewLen : (if sizeT ((str dst.bytes).length + (str sub.bytes).length) ≥ dst.high + 1 then
      dst.high + 1 - 1 else sizeT ((str dst.bytes).length + (str sub.bytes).length)) =
        min dst.high ((str dst.bytes).length + (str sub.bytes).length) := by
    rw [sizeT_of_lt (by omega)]
    split <;> omega
  have hle : place ≤ (str dst.bytes).length := by omega
  have hcut : Strings.assign (dst.high + 1)
      ((str dst.bytes).take place ++ (str sub.bytes ++ (str dst.bytes).drop place)) =
        ((str dst.bytes).take place ++ (str sub.bytes ++ (str dst.bytes).drop place)).take
          (min dst.high ((str dst.bytes).length + (str sub.bytes).length)) := by
    rw [Strings.assign, Nat.add_sub_cancel, take_eq_take_min]
    congr 2
    simp only [length_append, length_take, length_drop]
    omega
  have hhead : dst.bytes.take place = (str dst.bytes).take place :=
    hdst.take_drop (s := 0) (by omega)
  rw [hnewLen, sizeT_of_lt (by omega), sizeSub_of_le (by omega) (by omega), hcut]
  have hnul := not_mem_insert hsub.choose_spec.2 hdst.choose_spec.2 place
    (min dst.high ((str dst.bytes).length + (str sub.bytes).length))
  generalize hN : min dst.high ((str dst.bytes).length + (str sub.bytes).length) = newLen at hnul ⊢
  by_cases htail : place + (str sub.bytes).length < newLen
  · obtain ⟨keep, rfl⟩ : ∃ keep, newLen = place + ((str sub.bytes).length + keep) :=
      ⟨newLen - (place + (str sub.bytes).length), by omega⟩
    have hkeep : place + ((str sub.bytes).length + keep) - (place + (str sub.bytes).length) =
      keep := by omega
    have htext : (sub.bytes.drop 0).take (str sub.bytes).length = str sub.bytes := hsub.take
    have hrest := hdst.take_drop (by omega : place + keep ≤ (str dst.bytes).length)
    have hlength : ((dst.bytes.drop place).take keep).length = keep :=
      take_drop_length (by omega)
    have hmoved : (overwrite dst.bytes (place + (str sub.bytes).length)
        ((dst.bytes.drop place).take keep)).length = dst.bytes.length :=
      overwrite_length (by omega)
    have hcopied : (overwrite (overwrite dst.bytes (place + (str sub.bytes).length)
        ((dst.bytes.drop place).take keep)) place (str sub.bytes)).length = dst.bytes.length :=
      (overwrite_length (by omega)).trans hmoved
    have hfront := overwrite_front ((dst.bytes.drop place).take keep)
      (by omega : place + ((str sub.bytes).length + _) ≤ dst.bytes.length)
    have hresult := insert_cut (str sub.bytes) _ (n := (str sub.bytes).length + keep) hle
    rw [take_of_length_le (Nat.le_add_right _ _), Nat.add_sub_cancel_left, ← hrest]
      at hresult
    rw [hlength] at hfront
    rw [if_pos htail, hkeep, if_pos (by omega), if_neg (by omega), memmove,
      memcpy_eq (by omega) (by omega), Option.bind_some, memcpy_of_pos _ (by omega) (by omega),
      htext, ← hcopied]
    refine store_holds (by omega) ?_
    rw [hfront, hhead, ← hresult]
    exact ⟨[], rfl, hnul⟩
  · obtain ⟨n, rfl⟩ : ∃ n, newLen = place + n := ⟨newLen - place, by omega⟩
    have hsubCopy : (if place + (str sub.bytes).length > place + n then place + n - place
        else (str sub.bytes).length) = n := by
      split <;> omega
    have htext : (sub.bytes.drop 0).take n = (str sub.bytes).take n :=
      hsub.take_drop (by omega)
    have hlength : ((str sub.bytes).take n).length = n := length_take_le (by omega)
    have hcopied : (overwrite dst.bytes place ((str sub.bytes).take n)).length =
        dst.bytes.length := overwrite_length (by omega)
    have hresult := insert_cut (str sub.bytes) _ (n := n) hle
    rw [Nat.sub_eq_zero_of_le (by omega), take_zero, append_nil] at hresult
    have hfront := @overwrite_take dst.bytes ((str sub.bytes).take n) place (by omega) n
    rw [take_left' hlength, hhead, ← hresult] at hfront
    rw [if_neg htail, if_neg (Nat.lt_irrefl 0), hsubCopy, memcpy_of_pos _ (by omega) (by omega),
      htext, ← hcopied]
    refine store_holds (by omega) ?_
    rw [hfront]
    exact ⟨[], rfl, hnul⟩

/-- Two parts one after the other, ended by a NUL. -/
theorem concat_exact (s1 s2 : CString) (dst : Dest) : (StringCall.concat s1 s2 dst).Exact := by
  have h1 := holds_str s1.terminated
  have h2 := holds_str s2.terminated
  have hlt1 := h1.length_lt
  have hlt2 := h2.length_lt
  have hsize := dst.size_eq
  rw [StringCall.Exact, StringCall.exec, StringCall.target, StringCall.result]
  simp only [stringsConcat, strlen_eq s1.terminated, strlen_eq s2.terminated,
    Option.bind_eq_bind, Option.bind_some]
  have hlen1 : (if (str s1.bytes).length ≥ dst.high + 1 then dst.high + 1 - 1
      else (str s1.bytes).length) = min dst.high (str s1.bytes).length := by
    split <;> omega
  rw [hlen1]
  generalize hn : min dst.high (str s1.bytes).length = n
  have hlen2 : (if (str s2.bytes).length > dst.high + 1 - 1 - n then dst.high + 1 - 1 - n
      else (str s2.bytes).length) = min (dst.high - n) (str s2.bytes).length := by
    split <;> omega
  rw [hlen2]
  generalize hm : min (dst.high - n) (str s2.bytes).length = m
  have htext1 : (s1.bytes.drop 0).take n = (str s1.bytes).take n := h1.take_drop (by omega)
  have htext2 : (s2.bytes.drop 0).take m = (str s2.bytes).take m := h2.take_drop (by omega)
  have hlength1 : ((str s1.bytes).take n).length = n := length_take_le (by omega)
  have hlength2 : ((str s2.bytes).take m).length = m := length_take_le (by omega)
  have hover1 : (overwrite dst.bytes 0 ((str s1.bytes).take n)).length = dst.bytes.length :=
    overwrite_length (by omega)
  have hover2 : (overwrite (overwrite dst.bytes 0 ((str s1.bytes).take n)) n
      ((str s2.bytes).take m)).length = dst.bytes.length :=
    (overwrite_length (by omega)).trans hover1
  have hfront1 := @overwrite_take dst.bytes ((str s1.bytes).take n) 0 (Nat.zero_le _) n
  rw [Nat.zero_add, take_zero, nil_append, take_left' hlength1] at hfront1
  have hfront2 := @overwrite_take (overwrite dst.bytes 0 ((str s1.bytes).take n))
    ((str s2.bytes).take m) n (by omega) m
  rw [hfront1, take_left' hlength2] at hfront2
  have hresult : Strings.concat (dst.high + 1) (str s1.bytes) (str s2.bytes) =
      (str s1.bytes).take n ++ (str s2.bytes).take m := by
    rw [Strings.concat, Nat.add_sub_cancel, take_append, take_eq_take_min, hn,
      take_eq_take_min (l := str s2.bytes) (i := dst.high - _)]
    congr 2
    omega
  have hnul : 0 ∉ (str s1.bytes).take n ++ (str s2.bytes).take m := by
    intro h
    obtain hmem | hmem := mem_append.mp h
    · exact h1.choose_spec.2 (mem_of_mem_take hmem)
    · exact h2.choose_spec.2 (mem_of_mem_take hmem)
  rw [memcpy_eq (by omega) (by omega), Option.bind_some, htext1, memcpy_eq (by omega) (by omega),
    Option.bind_some, htext2, ← hover2, hresult]
  refine store_holds (by omega) ?_
  rw [hfront2]
  exact ⟨[], rfl, hnul⟩

theorem toNat_lt (n : UInt32) : n.toNat < 4294967296 := n.toNat_lt

/-- The characters behind the part are moved down with their NUL. -/
theorem delete_moves {o : List UInt8} {xs : Text} (h : Holds o xs) (hle : pos + len ≤ xs.length) :
    ∃ o', memmove o pos (pos + len) (xs.length - pos - len + 1) = some o' ∧
      o'.length = o.length ∧ Holds o' (xs.take pos ++ xs.drop (pos + len)) := by
  have hlt := h.length_lt
  have hhead : o.take pos = xs.take pos := h.take_drop (s := 0) (by omega)
  have hlength : ((o.drop (pos + len)).take (xs.length - pos - len + 1)).length =
      xs.length - pos - len + 1 := take_drop_length (by omega)
  rw [memmove, memcpy_eq (by omega) (by omega)]
  refine ⟨_, rfl, overwrite_length (by omega), ?_⟩
  obtain ⟨rest, rfl, hnul⟩ := h
  have htail : ((xs ++ 0 :: rest).drop (pos + len)).take (xs.length - pos - len + 1) =
      xs.drop (pos + len) ++ [0] := by
    have hsum : xs.length - pos - len + 1 = (xs.drop (pos + len)).length + 1 := by
      rw [length_drop]
      omega
    rw [drop_append_of_le_length hle, hsum, take_length_add_append]
    rfl
  refine ⟨(xs ++ 0 :: rest).drop (pos + (xs.drop (pos + len) ++ [0]).length), ?_, ?_⟩
  · rw [htail, overwrite, hhead]
    simp only [append_assoc, cons_append, nil_append]
  · intro hmem
    obtain hmem | hmem := mem_append.mp hmem
    · exact hnul (mem_of_mem_take hmem)
    · exact hnul (mem_of_mem_drop hmem)

/-- Behind the end of the string there is nothing to remove. -/
theorem remove_of_ge {xs : Text} {len' : Nat} (h : xs.length ≤ pos + len)
    (h' : xs.length ≤ pos + len') : xs.drop (pos + len) = xs.drop (pos + len') := by
  rw [drop_eq_nil_of_le h, drop_eq_nil_of_le h']

/-- The number of characters behind the part, with the NUL. -/
theorem deleted_count (hle : pos + len ≤ n) (hn : n < 4294967296) :
    sizeT (sizeSub (sizeSub n pos) len + 1) = n - pos - len + 1 := by
  rw [sizeT, sizeSub, sizeSub, sizeT, sizeT]
  omega

theorem delete_exact_iff (s : DestString) (pos len : UInt32) :
    (StringCall.delete s pos len).Exact ↔ (StringCall.delete s pos len).InRange := by
  have hs := holds_str s.terminated
  have hlt := hs.length_lt
  have hsize := s.size_eq
  have hhigh := s.high_lt
  have hpos := toNat_lt pos
  have hlen := toNat_lt len
  have hcut : Strings.assign (s.high + 1) ((str s.bytes).take pos.toNat ++
      (str s.bytes).drop (pos.toNat + len.toNat)) =
        (str s.bytes).take pos.toNat ++ (str s.bytes).drop (pos.toNat + len.toNat) := by
    refine assign_of_lt ?_
    rw [length_append, length_take, length_drop]
    omega
  rw [StringCall.Exact, StringCall.exec, StringCall.target, StringCall.result,
    StringCall.InRange, hcut]
  simp only [stringsDelete, strlen_eq s.terminated, Option.bind_eq_bind, Option.bind_some]
  by_cases hend : pos.toNat ≥ (str s.bytes).length
  · rw [if_pos hend, take_of_length_le hend, drop_eq_nil_of_le (by omega), append_nil]
    exact iff_of_true ⟨_, rfl, rfl, hs⟩ (.inl hend)
  · rw [if_neg hend]
    by_cases hwrap : pos.toNat + len.toNat < 4294967296
    · refine iff_of_true ?_ (.inr hwrap)
      by_cases hover : pos.toNat + len.toNat > (str s.bytes).length
      · have hmoves := delete_moves hs
          (by omega : pos.toNat + ((str s.bytes).length - pos.toNat) ≤ _)
        have hrest : (str s.bytes).drop (pos.toNat + len.toNat) =
            (str s.bytes).drop (pos.toNat + ((str s.bytes).length - pos.toNat)) :=
          remove_of_ge (Nat.le_of_lt hover) (by omega)
        rw [u32_of_lt hwrap, if_pos hover, u32_of_lt (by omega),
          deleted_count (by omega) (by omega), hrest]
        exact hmoves
      · rw [u32_of_lt hwrap, if_neg hover, deleted_count (Nat.not_lt.mp hover) (by omega)]
        exact delete_moves hs (Nat.not_lt.mp hover)
    · refine iff_of_false ?_ fun h => h.elim hend hwrap
      rintro ⟨o, ho, -⟩
      have hwrapped : ¬u32 (pos.toNat + len.toNat) > (str s.bytes).length := by
        rw [u32]
        omega
      rw [if_neg hwrapped, memmove, memcpy, if_neg (by omega)] at ho
      cases ho

/-- The length that is copied when the end of the part has 32 bits. -/
theorem copied_count {high : Nat} (hpos : pos < n) (hhigh : high < 4294967296)
    (hsum : pos + len < 4294967296) :
    (if (if u32 (pos + len) > n then u32 (n - pos) else len) ≥ high + 1 then u32 (high + 1 - 1)
      else if u32 (pos + len) > n then u32 (n - pos) else len) = min (min high len) (n - pos) := by
  rw [u32_of_lt hsum, Nat.add_sub_cancel, u32_of_lt hhigh]
  by_cases hover : pos + len > n
  · rw [if_pos hover, u32_of_lt (by omega)]
    split <;> omega
  · rw [if_neg hover]
    split <;> omega

/-- An end of more than 32 bits is taken for one in front of the part. -/
theorem copied_count_wrapped {high : Nat} (hpos : pos < n) (hhigh : high < 4294967296)
    (hlen : len < 4294967296) (hsum : ¬pos + len < 4294967296) :
    (if (if u32 (pos + len) > n then u32 (n - pos) else len) ≥ high + 1 then u32 (high + 1 - 1)
      else if u32 (pos + len) > n then u32 (n - pos) else len) = min high len := by
  have hwrapped : ¬u32 (pos + len) > n := by
    rw [u32]
    omega
  rw [if_neg hwrapped, Nat.add_sub_cancel, u32_of_lt hhigh]
  split <;> omega

theorem copy_exact_iff (src : CString) (pos len : UInt32) (dst : Dest) :
    (StringCall.copy src pos len dst).Exact ↔ (StringCall.copy src pos len dst).InRange := by
  have hsrc := holds_str src.terminated
  have hlt := hsrc.length_lt
  have hsize := dst.size_eq
  have hhigh := dst.high_lt
  have hpos := toNat_lt pos
  have hlen := toNat_lt len
  rw [StringCall.Exact, StringCall.exec, StringCall.target, StringCall.result,
    StringCall.InRange, Strings.copy, Nat.add_sub_cancel, take_take]
  simp only [stringsCopy, strlen_eq src.terminated, Option.bind_eq_bind, Option.bind_some]
  by_cases hend : pos.toNat ≥ (str src.bytes).length
  · rw [if_pos hend, drop_eq_nil_of_le hend, take_nil]
    exact iff_of_true (store_holds (by omega) ⟨[], rfl, not_mem_nil⟩) (.inl hend)
  · have hle := Nat.le_of_lt (Nat.not_le.mp hend)
    rw [if_neg hend]
    by_cases hwrap : pos.toNat + len.toNat < 4294967296
    · refine iff_of_true ?_ (.inr (.inl hwrap))
      rw [copied_count (Nat.not_le.mp hend) (by omega) hwrap, take_eq_take_min, length_drop]
      exact copy_part hsrc hle (by omega) (by omega)
    · rw [copied_count_wrapped (Nat.not_le.mp hend) (by omega) hlen hwrap]
      by_cases hwithin : pos.toNat + min dst.high len.toNat ≤ src.bytes.length
      · exact iff_of_true (copy_part hsrc hle hwithin (by omega))
          (.inr (.inr (Nat.min_comm _ _ ▸ hwithin)))
      · refine iff_of_false ?_ fun h => ?_
        · rintro ⟨o, ho, -⟩
          rw [memcpy, if_neg fun h => hwithin h.1] at ho
          cases ho
        · rw [Nat.min_comm] at h
          exact h.elim hend fun h => h.elim hwrap hwithin

end Exact

/-- The operations stay within the arrays and give the strings that they are for exactly when the
end of a part that is removed or copied has 32 bits, or does not matter. -/
theorem stringCall_exact_iff (call : StringCall) : call.Exact ↔ call.InRange := by
  cases call with
  | assign constant src dst => exact iff_of_true (assign_exact constant src dst) trivial
  | insert sub dst pos => exact iff_of_true (insert_exact sub dst pos) trivial
  | delete s pos len => exact delete_exact_iff s pos len
  | copy src pos len dst => exact copy_exact_iff src pos len dst
  | concat s1 s2 dst => exact iff_of_true (concat_exact s1 s2 dst) trivial

/-- The array of `abc` with room for three characters. -/
def abcArray : DestString where
  bytes := [97, 98, 99, 0]
  high := 3
  size_eq := rfl
  high_lt := by decide
  terminated := by decide

/-- Everything behind the first character, of length `2^32 - 1`, is not removed: the characters that
are moved down would start at `2^32`. -/
theorem delete_wraps : ¬(StringCall.delete abcArray 1 4294967295).Exact := by
  rintro ⟨o, ho, -⟩
  have hnone : (StringCall.delete abcArray 1 4294967295).exec = none := by decide
  rw [hnone] at ho
  cases ho

end Mx.Runtime
