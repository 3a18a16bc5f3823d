import Mx.Core.Strings

/-!
# Strings in arrays of C

An array of characters holds the string in front of its first NUL. The functions of the C library
give no result when they read or write outside of an array.
-/

namespace Mx.Core.CBytes

open Strings List

/-- The string that an array holds. -/
def str (o : List UInt8) : Text := o.takeWhile (· ≠ 0)

/-- The array holds the string. -/
def Holds (o : List UInt8) (xs : Text) : Prop := ∃ rest, o = xs ++ 0 :: rest ∧ 0 ∉ xs

/-- `strlen`, which leaves an array without NUL. -/
def strlen (o : List UInt8) : Option Nat := if 0 ∈ o then some (str o).length else none

/-- An array with bytes written from an index on. -/
def overwrite (o : List UInt8) (i : Nat) (xs : List UInt8) : List UInt8 :=
  o.take i ++ (xs ++ o.drop (i + xs.length))

/-- `memcpy` from one array into another one. -/
def memcpy (dst : List UInt8) (d : Nat) (src : List UInt8) (s n : Nat) : Option (List UInt8) :=
  if s + n ≤ src.length ∧ d + n ≤ dst.length then some (overwrite dst d ((src.drop s).take n))
  else none

/-- `memmove` within an array. -/
def memmove (o : List UInt8) (d s n : Nat) : Option (List UInt8) := memcpy o d o s n

/-- A byte is written. -/
def store (o : List UInt8) (i : Nat) (b : UInt8) : Option (List UInt8) :=
  if i < o.length then some (overwrite o i [b]) else none

section

variable {o src : List UInt8} {xs : Text} {i j n s d : Nat}

theorem holds_str (h : 0 ∈ o) : Holds o (str o) := by
  induction o with
  | nil => exact absurd h not_mem_nil
  | cons b o ih =>
    by_cases hb : b = 0
    · exact ⟨o, by simp [str, hb], by simp [str, hb]⟩
    · have hmem : 0 ∈ o := (mem_cons.mp h).resolve_left fun heq => hb heq.symm
      obtain ⟨rest, hrest, hnul⟩ := ih hmem
      have hcons : str (b :: o) = b :: str o := by simp [str, hb]
      refine ⟨rest, ?_, ?_⟩
      · rw [hcons, cons_append, ← hrest]
      · rw [hcons]
        exact fun hin => (mem_cons.mp hin).elim (fun heq => hb heq.symm) hnul

theorem strlen_eq (h : 0 ∈ o) : strlen o = some (str o).length := if_pos h

theorem Holds.length_lt (h : Holds o xs) : xs.length < o.length := by
  obtain ⟨rest, rfl, -⟩ := h
  rw [length_append, length_cons]
  omega

theorem Holds.take (h : Holds o xs) : o.take xs.length = xs := by
  obtain ⟨rest, rfl, -⟩ := h
  rw [take_left]

theorem Holds.take_succ (h : Holds o xs) : o.take (xs.length + 1) = xs ++ [0] := by
  obtain ⟨rest, rfl, -⟩ := h
  rw [take_length_add_append]
  rfl

/-- The characters of the string stand in the array. -/
theorem Holds.take_drop (h : Holds o xs) (hle : s + n ≤ xs.length) :
    (o.drop s).take n = (xs.drop s).take n := by
  obtain ⟨rest, rfl, -⟩ := h
  rw [drop_append_of_le_length (by omega), take_append_of_le_length (by rw [length_drop]; omega)]

/-- A part of a string that is ended by a NUL. -/
theorem Holds.part (h : Holds o xs) (hle : s ≤ xs.length) (n : Nat) :
    Holds ((o.drop s).take n ++ [0]) ((xs.drop s).take n) := by
  obtain ⟨rest, rfl, hnul⟩ := h
  have hpart : 0 ∉ (xs.drop s).take n := fun hmem =>
    hnul (mem_of_mem_drop (mem_of_mem_take hmem))
  rw [drop_append_of_le_length hle]
  by_cases hn : n ≤ (xs.drop s).length
  · rw [take_append_of_le_length hn]
    exact ⟨[], rfl, hpart⟩
  · obtain ⟨m, rfl⟩ : ∃ m, n = (xs.drop s).length + (m + 1) :=
      ⟨n - (xs.drop s).length - 1, by omega⟩
    rw [take_of_length_le (Nat.le_add_right _ _)] at hpart ⊢
    rw [take_length_add_append, take_succ_cons]
    exact ⟨rest.take m ++ [0], by rw [append_assoc, cons_append], hpart⟩

theorem overwrite_length (h : i + xs.length ≤ o.length) :
    (overwrite o i xs).length = o.length := by
  simp only [overwrite, length_append, length_take, length_drop]
  omega

theorem length_take_le (h : i ≤ o.length) : (o.take i).length = i := by
  rw [length_take, Nat.min_eq_left h]

theorem overwrite_drop (h : i ≤ o.length) :
    (overwrite o i xs).drop i = xs ++ o.drop (i + xs.length) := by
  rw [overwrite, drop_left' (length_take_le h)]

/-- What is in front of the end of the bytes that are written. -/
theorem overwrite_take (h : i ≤ o.length) (m : Nat) :
    (overwrite o i xs).take (i + m) = o.take i ++ (xs ++ o.drop (i + xs.length)).take m := by
  have hsum : i + m = (o.take i).length + m := by rw [length_take_le h]
  rw [overwrite, hsum, take_length_add_append]

theorem overwrite_take_le (hj : j ≤ i) (h : i ≤ o.length) :
    (overwrite o i xs).take j = o.take j := by
  have hlength : j ≤ (o.take i).length := by
    rw [length_take_le h]
    exact hj
  rw [overwrite, take_append_of_le_length hlength, take_take, Nat.min_eq_left hj]

/-- A text is written in front of one that was written before. -/
theorem overwrite_front (tail : List UInt8) (h : i + (xs.length + tail.length) ≤ o.length) :
    (overwrite (overwrite o (i + xs.length) tail) i xs).take (i + (xs.length + tail.length)) =
      o.take i ++ (xs ++ tail) := by
  have hlength : (overwrite o (i + xs.length) tail).length = o.length :=
    overwrite_length (by omega)
  rw [overwrite_take (by omega), overwrite_take_le (Nat.le_add_right _ _) (by omega),
    overwrite_drop (by omega), take_length_add_append, take_left]

theorem overwrite_nil (o : List UInt8) (i : Nat) : overwrite o i [] = o := by
  rw [overwrite, nil_append, length_nil, Nat.add_zero, take_append_drop]

theorem take_drop_length (h : s + n ≤ src.length) : ((src.drop s).take n).length = n := by
  rw [length_take, length_drop]
  omega

theorem memcpy_eq (hs : s + n ≤ src.length) (hd : d + n ≤ o.length) :
    memcpy o d src s n = some (overwrite o d ((src.drop s).take n)) := if_pos ⟨hs, hd⟩

/-- Copying nothing may be left out. -/
theorem memcpy_of_pos {α : Type} (k : List UInt8 → Option α) (hs : s + n ≤ src.length)
    (hd : d + n ≤ o.length) :
    (if n > 0 then (memcpy o d src s n).bind k else k o) =
      k (overwrite o d ((src.drop s).take n)) := by
  by_cases hn : n > 0
  · rw [if_pos hn, memcpy_eq hs hd, Option.bind_some]
  · obtain rfl : n = 0 := Nat.eq_zero_of_not_pos hn
    rw [if_neg hn, take_zero, overwrite_nil]

/-- A NUL ends the string that an array holds. -/
theorem store_holds (hn : n < o.length) (h : Holds (o.take n ++ [0]) xs) :
    ∃ o', store o n 0 = some o' ∧ o'.length = o.length ∧ Holds o' xs := by
  obtain ⟨rest, hrest, hnul⟩ := h
  refine ⟨_, if_pos hn, overwrite_length hn, rest ++ o.drop (n + 1), ?_, hnul⟩
  rw [overwrite, ← append_assoc, hrest]
  simp

end

end Mx.Core.CBytes
