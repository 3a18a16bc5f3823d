import Mx.Bytes.Codec

/-!
# Readers within their view

Every bound is tested on a sum that wraps. A call does what it should unless the sum wraps to a
position of the view.
-/

namespace Mx.Bytes

open Http2 (continuation)
open Rpc

/-- The number of bytes that a call reads or skips, if the view has enough of them. -/
def Call.consumed (v : List UInt8) (pos : Nat) : Call → Option Nat
  | .u8 => if pos + 1 ≤ v.length then some 1 else none
  | .u16 _ => if pos + 2 ≤ v.length then some 2 else none
  | .u32 _ => if pos + 4 ≤ v.length then some 4 else none
  | .i32 _ => if pos + 4 ≤ v.length then some 4 else none
  | .varU32 => (continuation (v.drop pos)).bind fun r => if r.2 ≤ 5 then some r.2 else none
  | .varI32 => (continuation (v.drop pos)).bind fun r => if r.2 ≤ 5 then some r.2 else none
  | .skip n => if pos + n.toNat ≤ v.length then some n.toNat else none
  | .slice n => if pos + n.toNat ≤ v.length then some n.toNat else none

/-- The call succeeds when there are enough bytes, moves behind them and not out of the view, and
gives a slice of them; otherwise it fails and stays where it is. -/
def Call.Proper (v : List UInt8) (pos : Nat) (c : Call) : Prop :=
  match c.consumed v pos with
  | none => c.run v pos = (pos, none)
  | some k => pos + k ≤ v.length ∧ ∃ x, c.run v pos = (pos + k, some x) ∧
      ∀ n, c = .slice n → x = .view ⟨some pos, n.toNat⟩

/-- The number of bytes that a call adds to the position before it compares. -/
def Call.asked : Call → Option Nat
  | .u16 _ => some 2
  | .u32 _ => some 4
  | .i32 _ => some 4
  | .skip n => some n.toNat
  | .slice n => some n.toNat
  | _ => none

/-- The sum of the position and the bytes asked for does not wrap to a position of the view. -/
def Call.Clear (v : List UInt8) (pos : Nat) (c : Call) : Prop :=
  ∀ k, c.asked = some k → pos + k < cardinals ∨ v.length < pos + k - cardinals

/-- All calls of a run do what they should. -/
def AllProper (v : List UInt8) : Nat → List Call → Prop
  | _, [] => True
  | pos, c :: cs => c.Proper v pos ∧ AllProper v (c.run v pos).1 cs

/-- All calls of a run are clear. -/
def AllClear (v : List UInt8) : Nat → List Call → Prop
  | _, [] => True
  | pos, c :: cs => c.Clear v pos ∧ AllClear v (c.run v pos).1 cs

section Calls

variable {v : List UInt8} {pos k : Nat} {c : Call}

/-- A call of a reader that compares the wrapped sum. -/
theorem Call.proper_iff_of_asked {α : Type} (hv : v.length < cardinals) (hpos : pos ≤ v.length)
    (hk : k < cardinals) {r : Reader α} {a : α} {f : α → Val}
    (hr : r v pos = if (pos + k) % cardinals > v.length then .error ()
      else .ok (a, (pos + k) % cardinals))
    (hrun : c.run v pos = after r f v pos) (hasked : c.asked = some k)
    (hconsumed : c.consumed v pos = if pos + k ≤ v.length then some k else none)
    (hslice : ∀ n, c = .slice n → f a = .view ⟨some pos, n.toNat⟩) :
    c.Proper v pos ↔ c.Clear v pos := by
  have hclear : c.Clear v pos ↔ pos + k < cardinals ∨ v.length < pos + k - cardinals := by
    rw [Call.Clear, hasked]
    exact ⟨fun h => h k rfl, fun h _ heq => Option.some.inj heq ▸ h⟩
  rw [hclear, Call.Proper, hconsumed, hrun, after, hr]
  by_cases hwrap : pos + k < cardinals
  · rw [Nat.mod_eq_of_lt hwrap]
    refine iff_of_true ?_ (.inl hwrap)
    by_cases hle : pos + k ≤ v.length
    · rw [if_pos hle, if_neg (Nat.not_lt.mpr hle)]
      exact ⟨hle, f a, rfl, hslice⟩
    · rw [if_neg hle, if_pos (Nat.not_le.mp hle)]
  · have hmod : (pos + k) % cardinals = pos + k - cardinals := by
      rw [Nat.mod_eq_sub_mod (Nat.not_lt.mp hwrap), Nat.mod_eq_of_lt (by omega)]
    rw [if_neg (by omega), hmod]
    by_cases hout : v.length < pos + k - cardinals
    · rw [if_pos hout]
      exact iff_of_true rfl (.inr hout)
    · rw [if_neg hout]
      exact iff_of_false (fun heq => nomatch (Prod.mk.inj heq).2) fun h => h.elim hwrap hout

/-- A call of `ReadVarU32`, which compares the position alone. -/
theorem Call.proper_iff_of_var (hv : v.length < cardinals) (hpos : pos ≤ v.length) {f : Nat → Val}
    (hrun : c.run v pos = ((readVarU32 v pos).1, (readVarU32 v pos).2.map f))
    (hasked : c.asked = none) (hconsumed : c.consumed v pos =
      (continuation (v.drop pos)).bind fun r => if r.2 ≤ 5 then some r.2 else none)
    (hslice : ∀ n, c ≠ .slice n) : c.Proper v pos ↔ c.Clear v pos := by
  refine iff_of_true ?_ fun k hk => nomatch hasked.symm.trans hk
  rw [Call.Proper, hconsumed, hrun, readVarU32_eq hv hpos]
  cases hcont : continuation (v.drop pos) with
  | none => rfl
  | some r =>
    obtain ⟨n, k⟩ := r
    have hle := Http2.continuation_length hcont
    rw [List.length_drop] at hle
    rw [Option.bind_some]
    by_cases hk : k ≤ 5
    · simp only [if_pos hk]
      exact ⟨by omega, _, rfl, fun n h => absurd h (hslice n)⟩
    · simp only [if_neg hk]
      rfl

/-- A call does what it should exactly when it is clear. -/
theorem Call.proper_iff (hv : v.length < cardinals) (hpos : pos ≤ v.length) (c : Call) :
    c.Proper v pos ↔ c.Clear v pos := by
  cases c with
  | u8 =>
    refine iff_of_true ?_ (by rintro _ ⟨⟩)
    rw [Call.Proper, Call.consumed, Call.run, after, readU8]
    by_cases hlt : pos ≥ v.length
    · rw [if_neg (by omega), if_pos hlt]
    · rw [if_pos (by omega), if_neg hlt]
      exact ⟨by omega, _, rfl, by rintro _ ⟨⟩⟩
  | u16 be | u32 be | i32 be =>
    cases be
    all_goals
      exact Call.proper_iff_of_asked hv hpos (by decide) rfl rfl rfl rfl (by rintro _ ⟨⟩)
  | varU32 | varI32 => exact Call.proper_iff_of_var hv hpos rfl rfl rfl (by rintro _ ⟨⟩)
  | skip n =>
    exact Call.proper_iff_of_asked hv hpos n.toNat_lt rfl rfl rfl rfl (by rintro _ ⟨⟩)
  | slice n =>
    refine Call.proper_iff_of_asked hv hpos n.toNat_lt rfl rfl rfl rfl ?_
    rintro m ⟨⟩
    rfl

theorem Call.Proper.le (hpos : pos ≤ v.length) (h : c.Proper v pos) :
    (c.run v pos).1 ≤ v.length := by
  rw [Call.Proper] at h
  split at h
  · rw [h]
    exact hpos
  · obtain ⟨hle, x, hrun, -⟩ := h
    rw [hrun]
    exact hle

/-- All calls of a run from the start of a view do what they should exactly when all are clear. -/
theorem readers_safe_iff (hv : v.length < cardinals) (cs : List Call) :
    AllProper v 0 cs ↔ AllClear v 0 cs := by
  have hrun : ∀ pos ≤ v.length, AllProper v pos cs ↔ AllClear v pos cs := by
    induction cs with
    | nil => exact fun _ _ => Iff.rfl
    | cons c cs ih =>
      intro pos hpos
      rw [AllProper, AllClear, Call.proper_iff hv hpos c]
      refine and_congr_right fun hclear => ih _ ?_
      exact ((Call.proper_iff hv hpos c).mpr hclear).le hpos
  exact hrun 0 (Nat.zero_le _)

end Calls

/-- A byte and an integer of two. -/
theorem readers_safe_iff_three : AllProper [1, 2, 3] 0 [.u8, .u16 true, .skip 7] :=
  (readers_safe_iff (by decide) _).mpr
    ⟨fun _ h => (nomatch h), fun _ h => .inl (by cases h; decide),
      fun _ h => .inl (by cases h; decide), trivial⟩

/-- Skipping over `2^32 - 1` bytes goes back by one. -/
theorem readers_unsafe : ¬∀ (v : List UInt8), v.length < cardinals → ∀ cs, AllProper v 0 cs := by
  intro h
  have hskip := (h [0] (by decide) [.u8, .skip 4294967295]).2.1
  cases hskip

end Mx.Bytes
