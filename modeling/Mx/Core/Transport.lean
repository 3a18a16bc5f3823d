import Mathlib

/-!
# Transports that read and write in pieces

A transport is used through two callbacks that may read or write any part of what they are asked
for. `fill` reads until it has a number of elements, `drain` writes until nothing is left; both
say what arrived, whatever the pieces were.
-/

namespace Mx.Core

open List

/-- What a transport answers to a call. -/
inductive TransportStatus where
  | ok
  | wouldBlock
  | closed
  | error
  deriving DecidableEq, Repr

/-- A read callback: the state of the transport and the number of elements asked for give a
status, the elements read and the next state. -/
abbrev ReadFn (τ β : Type) : Type := τ → Nat → TransportStatus × List β × τ

/-- A write callback: the status, the number of elements written and the next state. -/
abbrev WriteFn (τ β : Type) : Type := τ → List β → TransportStatus × Nat × τ

variable {τ β : Type}

/-- Every read gives at least one and at most as many elements as asked for, from the front of
those that are still to come, or none for now. -/
structure Streams (read : ReadFn τ β) (pending : τ → List β) : Prop where
  reads : ∀ t n, 0 < n →
    (∃ xs t', read t n = (.wouldBlock, xs, t') ∧ pending t' = pending t) ∨
    (∃ xs t', read t n = (.ok, xs, t') ∧ xs ≠ [] ∧ xs.length ≤ n ∧
      pending t = xs ++ pending t')

/-- A read would block only when nothing is still to come. -/
def NeverWaits (read : ReadFn τ β) (pending : τ → List β) : Prop :=
  ∀ t n xs t', 0 < n → pending t ≠ [] → read t n ≠ (.wouldBlock, xs, t')

/-- A bound on how often reads can still block before the end of the stream. -/
structure Waits (read : ReadFn τ β) (pending : τ → List β) (waits : τ → Nat) : Prop where
  le : ∀ t n, 0 < n → waits (read t n).2.2 ≤ waits t
  lt : ∀ t n, 0 < n → pending t ≠ [] → (read t n).1 = .wouldBlock →
    waits (read t n).2.2 < waits t

/-- A stream that comes to an end: it is closed only when nothing is still to come. -/
structure Ends (read : ReadFn τ β) (pending : τ → List β) : Prop where
  reads : ∀ t n, 0 < n →
    (∃ xs t', read t n = (.wouldBlock, xs, t') ∧ pending t' = pending t) ∨
    (∃ xs t', read t n = (.ok, xs, t') ∧ xs ≠ [] ∧ xs.length ≤ n ∧
      pending t = xs ++ pending t') ∨
    (∃ xs t', read t n = (.closed, xs, t') ∧ pending t = [] ∧ pending t' = [])

/-- However a stream is read, it comes to a state of this kind or is closed. -/
inductive Comes (read : ReadFn τ β) (goal : τ → Prop) : τ → Prop
  | here {t : τ} : goal t → Comes read goal t
  | later {t : τ} : (∀ n xs t', 0 < n → read t n = (.wouldBlock, xs, t') → Comes read goal t') →
      (∀ n xs t', 0 < n → read t n = (.ok, xs, t') → Comes read goal t') → Comes read goal t

/-- Every write takes at least one element, from the front of what it is given. -/
structure Accepts (write : WriteFn τ β) (written : τ → List β) : Prop where
  writes : ∀ t xs, xs ≠ [] → ∃ n t', write t xs = (.ok, n, t') ∧ 0 < n ∧ n ≤ xs.length ∧
    written t' = written t ++ xs.take n

/-! ## Reading a number of elements -/

/-- Reads until `total` elements are there, at most `limit` in one call, with at most so many
calls; none when they are there, and else why the transport stopped. A read of nothing counts as
one that would block. -/
def fill (read : ReadFn τ β) (limit total : Nat) :
    Nat → List β → τ → Option TransportStatus × List β × τ
  | 0, got, t => (none, got, t)
  | fuel + 1, got, t =>
    if total ≤ got.length then (none, got, t)
    else match read t (min limit (total - got.length)) with
      | (.ok, xs, t') =>
        if xs = [] then (some .wouldBlock, got, t') else fill read limit total fuel (got ++ xs) t'
      | (status, _, t') => (some status, got, t')

/-- The transport has just answered that a read would block. -/
def Blocked (read : ReadFn τ β) (pending : τ → List β) (t : τ) : Prop :=
  ∃ t' n xs, 0 < n ∧ read t' n = (.wouldBlock, xs, t) ∧ pending t = pending t'

/-- What `fill` has read. -/
structure Filled (read : ReadFn τ β) (pending : τ → List β) (total : Nat) (got : List β) (t : τ)
    (r : Option TransportStatus × List β × τ) : Prop where
  /-- It goes on with the elements it had. -/
  front : got <+: r.2.1
  /-- Nothing is lost. -/
  kept : got ++ pending t = r.2.1 ++ pending r.2.2
  le : r.2.1.length ≤ total
  status : r.1 = none ∧ r.2.1.length = total ∨
    r.1 = some .wouldBlock ∧ r.2.1.length < total ∧ Blocked read pending r.2.2

variable {pending : τ → List β} {read : ReadFn τ β}

theorem Streams.fill (h : Streams read pending)
    {limit total : Nat} (hlimit : 0 < limit) {fuel : Nat} {got : List β}
    (hle : got.length ≤ total) (hfuel : total - got.length ≤ fuel) (t : τ) :
    Filled read pending total got t (Core.fill read limit total fuel got t) := by
  induction fuel generalizing got t with
  | zero => exact ⟨prefix_rfl, rfl, hle, .inl ⟨rfl, by show got.length = total; omega⟩⟩
  | succ fuel ih =>
    rw [Core.fill]
    by_cases hdone : total ≤ got.length
    · rw [if_pos hdone]
      exact ⟨prefix_rfl, rfl, hle, .inl ⟨rfl, Nat.le_antisymm hle hdone⟩⟩
    · rw [if_neg hdone]
      obtain ⟨xs, t', hread, hpending⟩ | ⟨xs, t', hread, hne, hlen, hpending⟩ :=
        h.reads t (min limit (total - got.length)) (by omega)
      · rw [hread]
        exact ⟨prefix_rfl, by rw [hpending], hle, .inr ⟨rfl, Nat.not_le.mp hdone, t, _, xs,
          by omega, hread, hpending⟩⟩
      · have hpos := length_pos_iff.mpr hne
        have happend : (got ++ xs).length = got.length + xs.length := length_append
        have hrest := ih (by omega : (got ++ xs).length ≤ total) (by omega) t'
        simp only [hread, if_neg hne]
        refine ⟨(prefix_append _ _).trans hrest.front, ?_, hrest.le, hrest.status⟩
        rw [← hrest.kept, hpending, append_assoc]

theorem Streams.fill_nil (h : Streams read pending)
    {limit : Nat} (hlimit : 0 < limit) (total : Nat) (t : τ) :
    Filled read pending total [] t (Core.fill read limit total total [] t) :=
  h.fill hlimit (Nat.zero_le total) le_rfl t

theorem Blocked.pending_eq_nil {t : τ}
    (h : Blocked read pending t) (hready : NeverWaits read pending) : pending t = [] := by
  obtain ⟨t', n, xs, hn, hread, hpending⟩ := h
  by_contra hne
  exact hready t' n xs t hn (hpending ▸ hne) hread

/-- `fill` stops before the end of the stream only at a read that blocks. -/
theorem Waits.fill {waits : τ → Nat} (hw : Waits read pending waits) (h : Streams read pending)
    {limit : Nat} (hlimit : 0 < limit) (total fuel : Nat) (got : List β) (t : τ) :
    waits (Core.fill read limit total fuel got t).2.2 ≤ waits t ∧
      ((Core.fill read limit total fuel got t).1 = some .wouldBlock →
        waits (Core.fill read limit total fuel got t).2.2 < waits t ∨
          pending (Core.fill read limit total fuel got t).2.2 = []) := by
  induction fuel generalizing got t with
  | zero => exact ⟨le_rfl, fun hstop => by cases hstop⟩
  | succ fuel ih =>
    rw [Core.fill]
    by_cases hdone : total ≤ got.length
    · rw [if_pos hdone]
      exact ⟨le_rfl, fun hstop => by cases hstop⟩
    · rw [if_neg hdone]
      have hpos : 0 < min limit (total - got.length) := by omega
      have hle := hw.le t _ hpos
      have hlt := hw.lt t _ hpos
      obtain ⟨xs, t', hread, hpending⟩ | ⟨xs, t', hread, hne, hlen, hpending⟩ := h.reads t _ hpos
      · rw [hread] at hle hlt ⊢
        refine ⟨hle, fun _ => ?_⟩
        by_cases hend : pending t = []
        · exact .inr (hpending.trans hend)
        · exact .inl (hlt hend rfl)
      · rw [hread] at hle
        simp only [hread, if_neg hne]
        obtain ⟨hrest, hstop⟩ := ih (got ++ xs) t'
        refine ⟨Nat.le_trans hrest hle, fun hwhy => ?_⟩
        exact (hstop hwhy).imp_left fun hless => Nat.lt_of_lt_of_le hless hle

/-! ## Writing all elements -/

/-- Writes until nothing is left, with at most so many calls: none when they do not suffice, and
else whether everything was written. -/
def drain (write : WriteFn τ β) : Nat → List β → τ → Option (Bool × τ)
  | _, [], t => some (true, t)
  | 0, _ :: _, _ => none
  | fuel + 1, x :: xs, t =>
    match write t (x :: xs) with
    | (.ok, n, t') => drain write fuel ((x :: xs).drop n) t'
    | (.wouldBlock, _, t') => drain write fuel (x :: xs) t'
    | (_, _, t') => some (false, t')

theorem Accepts.drain {write : WriteFn τ β} {written : τ → List β} (h : Accepts write written)
    {fuel : Nat} {xs : List β} (hfuel : xs.length ≤ fuel) (t : τ) :
    ∃ t', drain write fuel xs t = some (true, t') ∧ written t' = written t ++ xs := by
  induction fuel generalizing xs t with
  | zero =>
    obtain rfl : xs = [] := length_eq_zero_iff.mp (Nat.le_zero.mp hfuel)
    exact ⟨t, rfl, (append_nil _).symm⟩
  | succ fuel ih =>
    cases xs with
    | nil => exact ⟨t, rfl, (append_nil _).symm⟩
    | cons x xs =>
      obtain ⟨n, t', hwrite, hpos, hle, hwritten⟩ := h.writes t (x :: xs) (cons_ne_nil _ _)
      have hlen : ((x :: xs).drop n).length ≤ fuel := by
        rw [length_drop]
        omega
      obtain ⟨t'', hrest, hlast⟩ := ih hlen t'
      refine ⟨t'', ?_, ?_⟩
      · rw [Core.drain, hwrite]
        exact hrest
      · rw [hlast, hwritten, append_assoc, take_append_drop]

/-! ## A transport over a list -/

/-- Reads from the front of a list as many elements as the schedule allows, and all when it has
ended; a zero in the schedule is a read that would block. -/
def readScheduled : ReadFn (List β × List Nat) β
  | ([], schedule), _ => (.wouldBlock, [], ([], schedule))
  | (xs, []), n => (.ok, xs.take n, (xs.drop n, []))
  | (xs, 0 :: schedule), _ => (.wouldBlock, [], (xs, schedule))
  | (xs, (k + 1) :: schedule), n =>
    (.ok, xs.take (min (k + 1) n), (xs.drop (min (k + 1) n), schedule))

/-- Writes to the end of a list at most as many elements, and one more, as the schedule allows. -/
def writeScheduled : WriteFn (List β × List Nat) β
  | (xs, []), ys => (.ok, ys.length, (xs ++ ys, []))
  | (xs, k :: schedule), ys =>
    (.ok, min (k + 1) ys.length, (xs ++ ys.take (min (k + 1) ys.length), schedule))

theorem streams_readScheduled : Streams (readScheduled (β := β)) Prod.fst where
  reads := by
    have htake : ∀ (x : β) (xs : List β) k, 0 < k → (x :: xs).take k ≠ [] := by
      intro x xs k hk h
      rcases take_eq_nil_iff.mp h with hzero | hnil
      · exact absurd hzero (Nat.ne_of_gt hk)
      · exact cons_ne_nil _ _ hnil
    rintro ⟨_ | ⟨x, xs⟩, schedule⟩ n hn
    · exact .inl ⟨[], _, rfl, rfl⟩
    · rcases schedule with _ | ⟨_ | k, schedule⟩
      · exact .inr ⟨_, _, rfl, htake x xs n hn, List.length_take_le _ _,
          (take_append_drop _ _).symm⟩
      · exact .inl ⟨[], _, rfl, rfl⟩
      · exact .inr ⟨_, _, rfl, htake x xs _ (by omega),
          Nat.le_trans (List.length_take_le _ _) (Nat.min_le_right _ _),
            (take_append_drop _ _).symm⟩

/-- The zeros left in a schedule are the reads that can still block. -/
theorem waits_readScheduled :
    Waits (readScheduled (β := β)) Prod.fst fun t => t.2.count 0 where
  le := by
    rintro ⟨_ | ⟨x, xs⟩, _ | ⟨_ | k, schedule⟩⟩ n hn <;> simp [readScheduled]
  lt := by
    rintro ⟨_ | ⟨x, xs⟩, _ | ⟨_ | k, schedule⟩⟩ n hn hne hblock <;>
      simp_all [readScheduled]

theorem accepts_writeScheduled : Accepts (writeScheduled (β := β)) Prod.fst where
  writes := by
    rintro ⟨xs, _ | ⟨k, schedule⟩⟩ ys hne
    · exact ⟨ys.length, _, rfl, length_pos_iff.mpr hne, le_rfl,
        by rw [List.take_length]⟩
    · have hpos := length_pos_iff.mpr hne
      exact ⟨_, _, rfl, by omega, Nat.min_le_right _ _, rfl⟩

end Mx.Core

/-!
# Delivery in chunks

A body that is sent in chunks, the last of which is marked. What was sent is always a part of the
body from its start, and the mark is on the chunk that completes it.
-/

namespace Mx.Core

/-- A part of a body, with the mark of the last one. -/
structure Chunk (α : Type) where
  last : Bool
  payload : List α
  deriving DecidableEq, Repr

variable {α : Type}

/-- What a list of chunks carries. -/
def carried (chunks : List (Chunk α)) : List α := chunks.flatMap Chunk.payload

/-- The chunks carry the start of the body, and exactly the one that completes it is marked. -/
structure Delivers (body : List α) (chunks : List (Chunk α)) : Prop where
  start : carried chunks = body.take (carried chunks).length
  last_iff : ∀ before c after, chunks = before ++ c :: after →
    (c.last = true ↔ carried (before ++ [c]) = body)

@[simp] theorem carried_nil : carried ([] : List (Chunk α)) = [] := rfl

theorem carried_append (chunks chunks' : List (Chunk α)) :
    carried (chunks ++ chunks') = carried chunks ++ carried chunks' := by
  simp [carried]

theorem Delivers.nil (body : List α) : Delivers body [] :=
  ⟨rfl, fun before c after h => by simp at h⟩

variable {chunks : List (Chunk α)}

theorem Delivers.eq_iff_length {body : List α} (h : Delivers body chunks) :
    carried chunks = body ↔ body.length ≤ (carried chunks).length := by
  constructor
  · intro heq
    exact heq ▸ le_rfl
  · intro hle
    exact h.start.trans (List.take_of_length_le hle)

theorem Delivers.length_le {body : List α} (h : Delivers body chunks) :
    (carried chunks).length ≤ body.length := by
  rw [h.start, List.length_take]
  omega

/-- One more chunk that starts where the ones before it end. -/
theorem Delivers.snoc {body : List α} (h : Delivers body chunks)
    {n k : Nat} (hn : (carried chunks).length = n) {c : Chunk α}
    (hpayload : c.payload = (body.drop n).take k) (hk : n + k ≤ body.length)
    (hlast : c.last = true ↔ n + k = body.length) :
    Delivers body (chunks ++ [c]) ∧ (carried (chunks ++ [c])).length = n + k := by
  have hcarried : carried (chunks ++ [c]) = body.take (n + k) := by
    have hold := h.start
    rw [hn] at hold
    rw [carried_append, hold, List.take_add]
    simp [carried, hpayload]
  have hlength : (carried (chunks ++ [c])).length = n + k := by
    rw [hcarried, List.length_take, Nat.min_eq_left hk]
  refine ⟨⟨hcarried.trans (hlength ▸ rfl), ?_⟩, hlength⟩
  intro before c' after heq
  obtain ⟨rfl, rfl, rfl⟩ | ⟨after', rfl, hold⟩ : (before = chunks ∧ c' = c ∧ after = []) ∨
      ∃ after', after = after' ++ [c] ∧ chunks = before ++ c' :: after' := by
    obtain rfl | ⟨after', d, rfl⟩ := List.eq_nil_or_concat after
    · obtain ⟨hb, hc⟩ := List.append_inj' heq rfl
      exact .inl ⟨hb.symm, (List.cons.inj hc).1.symm, rfl⟩
    · have heq' : chunks ++ [c] = (before ++ c' :: after') ++ [d] := by simpa using heq
      obtain ⟨hb, hd⟩ := List.append_inj' heq' rfl
      obtain rfl : c = d := by simpa using hd
      exact .inr ⟨after', by simp, hb⟩
  · rw [hlast]
    constructor
    · intro hfull
      rw [hcarried, hfull, List.take_length]
    · intro hfull
      rw [← hlength, hfull]
  · exact h.last_iff before c' after' hold

end Mx.Core
