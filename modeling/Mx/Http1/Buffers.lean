import Mx.Core.Strings

/-!
# Byte buffers

A buffer keeps the bytes between a read and a write position of its storage. A growable one doubles
its capacity when a byte is appended; one that bytes are received into is not grown.
-/

namespace Mx.Http1

open Strings List

/-- `MaxCap`. -/
def maxCap : Nat := 65536

/-- `GrowMode`. -/
inductive GrowMode where
  | fixed
  | growable
  deriving DecidableEq, Repr

/-- `BufRec`: the bytes between the read and the write position stand for the storage. -/
structure Buffer where
  cap : Nat
  rpos : Nat
  unread : Text
  mode : GrowMode
  cap_pos : 0 < cap
  cap_le : cap ≤ maxCap
  fits : rpos + unread.length ≤ cap
  deriving DecidableEq

namespace Buffer

/-- The write position. -/
def wpos (b : Buffer) : Nat := b.rpos + b.unread.length

/-- `Create`, if there is memory. -/
def create (initialCap : Nat) (mode : GrowMode) : Option Buffer :=
  if h : 0 < initialCap ∧ initialCap ≤ maxCap then
    some ⟨initialCap, 0, [], mode, h.1, h.2, Nat.zero_le _⟩
  else none

/-- The loop of `EnsureSpace`, with at most so many rounds. -/
def growTo (space : Nat) : Nat → Nat → Nat
  | 0, newCap => newCap
  | fuel + 1, newCap =>
    if newCap < maxCap ∧ space > newCap then growTo space fuel (min (newCap * 2) maxCap)
    else newCap

theorem growTo_le (space fuel : Nat) {newCap : Nat} (h : newCap ≤ maxCap) :
    growTo space fuel newCap ≤ maxCap := by
  induction fuel generalizing newCap with
  | zero => exact h
  | succ fuel ih =>
    rw [growTo]
    by_cases hc : newCap < maxCap ∧ space > newCap
    · rw [if_pos hc]
      exact ih (Nat.min_le_right _ _)
    · rw [if_neg hc]
      exact h

theorem le_growTo (space fuel : Nat) {newCap : Nat} (h : newCap ≤ maxCap) :
    newCap ≤ growTo space fuel newCap := by
  induction fuel generalizing newCap with
  | zero => exact le_rfl
  | succ fuel ih =>
    rw [growTo]
    by_cases hc : newCap < maxCap ∧ space > newCap
    · rw [if_pos hc]
      have hrest := ih (Nat.min_le_right (newCap * 2) maxCap)
      omega
    · rw [if_neg hc]

/-- With enough rounds the capacity is as large as needed, or cannot grow. -/
theorem growTo_fits {space fuel newCap : Nat} (h : maxCap ≤ newCap * 2 ^ fuel) :
    space ≤ growTo space fuel newCap ∨ maxCap ≤ growTo space fuel newCap := by
  induction fuel generalizing newCap with
  | zero => exact .inr (by simpa [growTo] using h)
  | succ fuel ih =>
    rw [growTo]
    by_cases hc : newCap < maxCap ∧ space > newCap
    · rw [if_pos hc]
      apply ih
      rcases Nat.le_total (newCap * 2) maxCap with hle | hle
      · rw [Nat.min_eq_left hle]
        calc maxCap ≤ newCap * 2 ^ (fuel + 1) := h
          _ = newCap * 2 * 2 ^ fuel := by rw [Nat.pow_succ']; exact (Nat.mul_assoc _ _ _).symm
      · rw [Nat.min_eq_right hle]
        exact Nat.le_mul_of_pos_right _ (Nat.two_pow_pos _)
    · rw [if_neg hc]
      omega

/-- `EnsureSpace`. A capacity is at least one, so that sixteen doublings reach `MaxCap`. -/
def ensureSpace (b : Buffer) (needed : Nat) : Option {b' : Buffer // b'.wpos + needed ≤ b'.cap} :=
  if h : b.wpos + needed ≤ b.cap then some ⟨b, h⟩
  else if b.mode = .fixed then none
  else if h : b.wpos + needed > growTo (b.wpos + needed) 16 b.cap then none
  else
    some ⟨{ b with
      cap := growTo (b.wpos + needed) 16 b.cap
      cap_pos := Nat.lt_of_lt_of_le b.cap_pos (le_growTo _ _ b.cap_le)
      cap_le := growTo_le _ _ b.cap_le
      fits := Nat.le_trans b.fits (le_growTo _ _ b.cap_le) }, Nat.le_of_not_lt h⟩

/-- `AppendByte`: a byte that does not fit is dropped. -/
def appendByte (b : Buffer) (ch : UInt8) : Buffer :=
  match b.ensureSpace 1 with
  | none => b
  | some ⟨b', h⟩ =>
    { b' with
      unread := b'.unread ++ [ch]
      fits := by rw [length_append]; exact h }

/-- `Consume`: the positions return to zero when nothing is left. -/
def consume (b : Buffer) (n : Nat) : Buffer :=
  if h : n = 0 ∨ n > b.unread.length then b
  else
    { b with
      rpos := if n = b.unread.length then 0 else b.rpos + n
      unread := b.unread.drop n
      fits := by
        have hfits := b.fits
        rw [length_drop]
        by_cases hn : n = b.unread.length
        · rw [if_pos hn]
          omega
        · rw [if_neg hn]
          omega }

/-- `Compact`. -/
def compact (b : Buffer) : Buffer :=
  { b with
    rpos := 0
    fits := by have hfits := b.fits; omega }

/-- `Length`. -/
def length (b : Buffer) : Nat := b.unread.length

/-- `Remaining`. -/
def remaining (b : Buffer) : Nat := b.cap - b.wpos

/-- `AdvanceWrite`, over bytes that were written behind the others. -/
def advanceWrite (b : Buffer) (written : Text) : Buffer :=
  if h : b.wpos + written.length > b.cap then b
  else
    { b with
      unread := b.unread ++ written
      fits := by rw [length_append]; exact Nat.le_of_not_lt (by rw [wpos] at h; omega) }

/-- A carriage return and a line feed. -/
def crlf : Text := [13, 10]

/-- `FindCRLF`. -/
def findCRLF (b : Buffer) : Option Nat := pos crlf b.unread

/-- `CopyOut`, from the start, into an array of so many characters. -/
def copyOut (b : Buffer) (len size : Nat) : Text := b.unread.take (min len size)

/-! ## What the operations do -/

variable (b : Buffer)

theorem wpos_le : b.wpos ≤ b.cap := b.fits

@[simp] theorem compact_unread : b.compact.unread = b.unread := rfl

@[simp] theorem compact_rpos : b.compact.rpos = 0 := rfl

@[simp] theorem compact_cap : b.compact.cap = b.cap := rfl

theorem compact_remaining : b.compact.remaining = b.cap - b.unread.length := by
  rw [remaining, wpos, compact_rpos, compact_unread, compact_cap, Nat.zero_add]

theorem consume_unread {n : Nat} (h : n ≤ b.unread.length) :
    (b.consume n).unread = b.unread.drop n := by
  rw [consume]
  by_cases hn : n = 0 ∨ n > b.unread.length
  · obtain rfl : n = 0 := by omega
    rw [dif_pos hn, drop_zero]
  · rw [dif_neg hn]

@[simp] theorem consume_cap (n : Nat) : (b.consume n).cap = b.cap := by
  rw [consume]
  by_cases hn : n = 0 ∨ n > b.unread.length
  · rw [dif_pos hn]
  · rw [dif_neg hn]

theorem advanceWrite_unread {xs : Text} (h : xs.length ≤ b.remaining) :
    (b.advanceWrite xs).unread = b.unread ++ xs := by
  have hw := b.wpos_le
  rw [remaining] at h
  rw [advanceWrite, dif_neg (by omega)]

@[simp] theorem advanceWrite_cap (xs : Text) : (b.advanceWrite xs).cap = b.cap := by
  rw [advanceWrite]
  by_cases h : b.wpos + xs.length > b.cap
  · rw [dif_pos h]
  · rw [dif_neg h]

/-- A buffer that can grow has space up to the greatest capacity. -/
theorem ensureSpace_isSome {needed : Nat} (hmode : b.mode = .growable)
    (h : b.wpos + needed ≤ maxCap) : ∃ b', b.ensureSpace needed = some b' ∧
      b'.1.unread = b.unread ∧ b'.1.rpos = b.rpos ∧ b'.1.mode = .growable := by
  rw [ensureSpace]
  by_cases hfits : b.wpos + needed ≤ b.cap
  · rw [dif_pos hfits]
    exact ⟨_, rfl, rfl, rfl, hmode⟩
  · rw [dif_neg hfits, if_neg (by simp [hmode])]
    have hpos := b.cap_pos
    have hgrow : b.wpos + needed ≤ growTo (b.wpos + needed) 16 b.cap := by
      have hmax : maxCap ≤ b.cap * 2 ^ 16 := Nat.le_mul_of_pos_left _ hpos
      rcases @growTo_fits (b.wpos + needed) _ _ hmax with hle | hle
      · exact hle
      · exact h.trans hle
    rw [dif_neg (Nat.not_lt.2 hgrow)]
    exact ⟨_, rfl, rfl, rfl, hmode⟩

/-- A byte is appended, up to the greatest capacity. -/
theorem appendByte_spec (hmode : b.mode = .growable) (h : b.wpos < maxCap) (ch : UInt8) :
    (b.appendByte ch).unread = b.unread ++ [ch] ∧ (b.appendByte ch).rpos = b.rpos ∧
      (b.appendByte ch).mode = .growable := by
  obtain ⟨b', hb', hunread, hrpos, hmode'⟩ := b.ensureSpace_isSome hmode
    (show b.wpos + 1 ≤ maxCap from h)
  rw [appendByte, hb']
  exact ⟨congrArg (· ++ [ch]) hunread, hrpos, hmode'⟩

/-- Bytes are appended one by one, up to the greatest capacity. -/
theorem appendBytes_spec {xs : Text} (hmode : b.mode = .growable)
    (h : b.wpos + xs.length ≤ maxCap) :
    (xs.foldl appendByte b).unread = b.unread ++ xs ∧ (xs.foldl appendByte b).rpos = b.rpos := by
  induction xs generalizing b with
  | nil => exact ⟨(append_nil _).symm, rfl⟩
  | cons ch xs ih =>
    rw [length_cons] at h
    obtain ⟨hunread, hrpos, hmode'⟩ := b.appendByte_spec hmode (by omega) ch
    have hwpos : (b.appendByte ch).wpos = b.wpos + 1 := by
      rw [wpos, wpos, hunread, hrpos, length_append, length_singleton, Nat.add_assoc]
    obtain ⟨hrest, hrest'⟩ := ih (b.appendByte ch) hmode' (by omega)
    rw [foldl_cons, hrest, hrest', hunread, append_assoc]
    exact ⟨rfl, hrpos⟩

/-! ## Lines -/

/-- A line without a carriage return ends at the first one with a line feed. -/
theorem pos_crlf_line {line : Text} (h : 13 ∉ line) (tail : Text) :
    pos crlf (line ++ (crlf ++ tail)) = some line.length := by
  induction line with
  | nil => exact pos_self_append crlf tail
  | cons ch line ih =>
    rw [mem_cons, not_or] at h
    have hne : ¬ crlf.isPrefixOf (ch :: (line ++ (crlf ++ tail))) = true := by
      have hch : ((13 : UInt8) == ch) = false := by simpa using h.1
      simp [crlf, List.isPrefixOf, hch]
    rw [cons_append, pos, if_neg hne, ih h.2]
    rfl

/-- The start of a text that begins with a line has all of the line and its end, or no end of a
line. -/
theorem split_line {line tail unread rest : Text} (h : 13 ∉ line)
    (heq : unread ++ rest = line ++ (crlf ++ tail)) :
    (pos crlf unread = none ∧ unread.length < line.length + 2) ∨
    (pos crlf unread = some line.length ∧
      ∃ unread', unread = line ++ (crlf ++ unread') ∧ unread' ++ rest = tail) := by
  rcases Nat.lt_or_ge unread.length (line.length + 2) with hlt | hge
  · refine .inl ⟨?_, hlt⟩
    cases hpos : pos crlf unread with
    | none => rfl
    | some n =>
      have hwhole := pos_append hpos rest
      rw [heq, pos_crlf_line h] at hwhole
      cases hwhole
      have hle := pos_add_length_le hpos
      have hcrlf : crlf.length = 2 := rfl
      omega
  · have hlen : (line ++ crlf).length ≤ unread.length := by
      rw [length_append]
      exact hge
    have hpre : line ++ crlf <+: unread := by
      apply prefix_of_prefix_length_le _ (prefix_append unread rest) hlen
      rw [heq, ← append_assoc]
      exact prefix_append _ _
    obtain ⟨unread', rfl⟩ := hpre
    have htail : unread' ++ rest = tail := by
      rw [append_assoc, append_assoc] at heq
      exact append_cancel_left (append_cancel_left heq)
    rw [append_assoc]
    exact .inr ⟨pos_crlf_line h unread', unread', rfl, htail⟩

end Buffer

end Mx.Http1
