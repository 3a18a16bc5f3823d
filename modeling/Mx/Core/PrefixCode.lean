import Mathlib

/-!
# Complete prefix codes

A table of code words is full if every sequence of bits can be read through it: no code word is the
front of another, and behind the front of a code word both bits lead on. A full table is read one
bit at a time.
-/

namespace Mx.Core.PrefixCode

open List

variable {σ : Type} {t : List (List Bool × σ)} {b : Bool} {p q c d : List Bool} {s u : σ}

/-- The table behind one bit. -/
def behind (b : Bool) (t : List (List Bool × σ)) : List (List Bool × σ) :=
  t.filterMap fun e =>
    match e.1 with
    | [] => none
    | x :: xs => if x = b then some (xs, e.2) else none

/-- A table with one empty code word, or with code words behind both bits. -/
inductive Full : List (List Bool × σ) → Prop where
  | leaf (s : σ) : Full [([], s)]
  | fork {t : List (List Bool × σ)} (hne : ∀ e ∈ t, e.1 ≠ []) (h : ∀ b, Full (behind b t)) : Full t

/-- Whether the table has the empty code word only. -/
def isLeaf : List (List Bool × σ) → Bool
  | [([], _)] => true
  | _ => false

/-- Whether a table is full, to a depth. -/
def isFull : Nat → List (List Bool × σ) → Bool
  | 0, t => isLeaf t
  | n + 1, t => isLeaf t ||
    t.all (fun e => !e.1.isEmpty) && (isFull n (behind false t) && isFull n (behind true t))

theorem full_of_isLeaf (h : isLeaf t = true) : Full t := by
  unfold isLeaf at h
  split at h
  · exact .leaf _
  · cases h

theorem full_of_isFull {n : Nat} (h : isFull n t = true) : Full t := by
  induction n generalizing t with
  | zero => exact full_of_isLeaf h
  | succ n ih =>
    rw [isFull, Bool.or_eq_true, Bool.and_eq_true, Bool.and_eq_true] at h
    obtain hleaf | ⟨hall, hfalse, htrue⟩ := h
    · exact full_of_isLeaf hleaf
    · refine .fork (fun e he hnil => ?_) fun b => ?_
      · have hempty := all_eq_true.mp hall e he
        rw [hnil] at hempty
        cases hempty
      · cases b with
        | false => exact ih hfalse
        | true => exact ih htrue

theorem mem_behind : (c, s) ∈ behind b t ↔ (b :: c, s) ∈ t := by
  rw [behind, mem_filterMap]
  constructor
  · rintro ⟨⟨d, u⟩, hmem, hd⟩
    cases d with
    | nil => cases hd
    | cons x d =>
      by_cases hx : x = b
      · simp only [hx, if_true, Option.some.injEq, Prod.mk.injEq] at hd
        obtain ⟨rfl, rfl⟩ := hd
        rwa [hx] at hmem
      · simp only [hx, if_false] at hd
        cases hd
  · intro h
    exact ⟨(b :: c, s), h, if_pos rfl⟩

/-- No code word is the front of another. -/
theorem Full.eq_of_prefix (h : Full t) (hc : (c, s) ∈ t) (hd : (d, u) ∈ t) (hcd : c <+: d) :
    c = d ∧ s = u := by
  induction h generalizing c d with
  | leaf v =>
    cases mem_singleton.mp hc
    cases mem_singleton.mp hd
    exact ⟨rfl, rfl⟩
  | fork hne _ ih =>
    cases c with
    | nil => exact absurd rfl (hne _ hc)
    | cons x c =>
      cases d with
      | nil => exact absurd rfl (hne _ hd)
      | cons y d =>
        obtain ⟨rfl, hrest⟩ := cons_prefix_cons.mp hcd
        obtain ⟨rfl, rfl⟩ := ih x (mem_behind.mpr hc) (mem_behind.mpr hd) hrest
        exact ⟨rfl, rfl⟩

/-- There is a code word of zeros. -/
theorem Full.exists_zeros (h : Full t) : ∃ n s, (List.replicate n false, s) ∈ t := by
  induction h with
  | leaf v => exact ⟨0, v, mem_singleton.mpr rfl⟩
  | fork _ _ ih =>
    obtain ⟨n, s, hmem⟩ := ih false
    exact ⟨n + 1, s, mem_behind.mp hmem⟩

/-- Behind the front of a code word a bit leads on to a code word that goes on with zeros. -/
theorem Full.exists_behind (h : Full t) (hq : q ≠ []) (hmem : (p ++ q, s) ∈ t) (b : Bool) :
    ∃ n u, (p ++ b :: List.replicate n false, u) ∈ t := by
  induction p generalizing t with
  | nil =>
    cases h with
    | leaf v =>
      cases mem_singleton.mp hmem
      exact absurd rfl hq
    | fork _ hsides =>
      obtain ⟨n, u, hzeros⟩ := (hsides b).exists_zeros
      exact ⟨n, u, mem_behind.mp hzeros⟩
  | cons x p ih =>
    cases h with
    | leaf v => cases mem_singleton.mp hmem
    | fork _ hsides =>
      obtain ⟨n, u, hcode⟩ := ih (hsides x) (mem_behind.mpr hmem)
      exact ⟨n, u, mem_behind.mp hcode⟩

/-! ## Reading bit by bit -/

/-- The symbol of a code word. -/
def lookup (t : List (List Bool × σ)) (c : List Bool) : Option σ :=
  (t.find? fun e => e.1 == c).map Prod.snd

/-- The symbols that the bits spell behind the front of a code word, and the front that is left. -/
def decodeBits (t : List (List Bool × σ)) : List Bool → List Bool → List σ × List Bool
  | p, [] => ([], p)
  | p, b :: bits =>
    match lookup t (p ++ [b]) with
    | some s => (s :: (decodeBits t [] bits).1, (decodeBits t [] bits).2)
    | none => decodeBits t (p ++ [b]) bits

theorem mem_of_lookup (h : lookup t c = some s) : (c, s) ∈ t := by
  obtain ⟨e, hfind, rfl⟩ := Option.map_eq_some_iff.mp h
  have hcode : e.1 = c := by simpa using find?_some hfind
  rw [← hcode]
  exact mem_of_find?_eq_some hfind

theorem Full.lookup_eq_some_iff (h : Full t) : lookup t c = some s ↔ (c, s) ∈ t := by
  refine ⟨mem_of_lookup, fun hmem => ?_⟩
  cases hlook : lookup t c with
  | none =>
    have hnone := find?_eq_none.mp (Option.map_eq_none_iff.mp hlook) _ hmem
    exact absurd (beq_self_eq_true c) hnone
  | some u => rw [(h.eq_of_prefix (mem_of_lookup hlook) hmem prefix_rfl).2]

/-- The proper front of a code word is no code word. -/
theorem Full.lookup_front (h : Full t) (hmem : (p ++ q, s) ∈ t) (hq : q ≠ []) :
    lookup t p = none := by
  cases hlook : lookup t p with
  | none => rfl
  | some u =>
    have heq := (h.eq_of_prefix (mem_of_lookup hlook) hmem (prefix_append p q)).1
    exact absurd (self_eq_append_right.mp heq) hq

theorem Full.decodeBits_code (h : Full t) (hmem : (p ++ q, s) ∈ t) (hq : q ≠ [])
    (bits : List Bool) :
    decodeBits t p (q ++ bits) = (s :: (decodeBits t [] bits).1, (decodeBits t [] bits).2) := by
  induction q generalizing p with
  | nil => exact absurd rfl hq
  | cons b q ih =>
    rw [append_cons] at hmem
    rw [cons_append, decodeBits]
    cases q with
    | nil =>
      rw [append_nil] at hmem
      rw [h.lookup_eq_some_iff.mpr hmem]
      rfl
    | cons x q =>
      rw [h.lookup_front hmem (cons_ne_nil x q)]
      exact ih hmem (cons_ne_nil x q)

/-- The front of a code word spells nothing. -/
theorem Full.decodeBits_front (h : Full t) (hmem : (p ++ (q ++ d), s) ∈ t) (hd : d ≠ []) :
    decodeBits t p q = ([], p ++ q) := by
  induction q generalizing p with
  | nil => rw [decodeBits, append_nil]
  | cons b q ih =>
    rw [cons_append, append_cons] at hmem
    have hne : q ++ d ≠ [] := fun hnil => hd (append_eq_nil_iff.mp hnil).2
    rw [decodeBits, h.lookup_front hmem hne]
    simp only
    rw [ih hmem, ← append_cons]

/-- Code words one after the other spell their symbols. -/
theorem Full.decodeBits_codes (h : Full t) (hne : ∀ e ∈ t, e.1 ≠ []) {code : σ → List Bool}
    {l : List σ} (hcode : ∀ s ∈ l, (code s, s) ∈ t) (bits : List Bool) :
    decodeBits t [] (l.flatMap code ++ bits) =
      (l ++ (decodeBits t [] bits).1, (decodeBits t [] bits).2) := by
  induction l with
  | nil => rfl
  | cons s l ih =>
    have hs := hcode s mem_cons_self
    have hrest := ih fun u hu => hcode u (mem_cons_of_mem s hu)
    rw [flatMap_cons, append_assoc, h.decodeBits_code (p := []) hs (hne _ hs), hrest]
    rfl

/-- The bits are the code words of the symbols that they spell, with the front that is left. -/
theorem decodeBits_spells {code : σ → List Bool} (hcode : ∀ e ∈ t, code e.2 = e.1)
    (p bits : List Bool) :
    p ++ bits = (decodeBits t p bits).1.flatMap code ++ (decodeBits t p bits).2 := by
  induction bits generalizing p with
  | nil => rw [decodeBits, append_nil]; rfl
  | cons b bits ih =>
    rw [decodeBits]
    cases hlook : lookup t (p ++ [b]) with
    | some s =>
      have hs : code s = p ++ [b] := hcode _ (mem_of_lookup hlook)
      have hrest := ih []
      rw [nil_append] at hrest
      simp only [flatMap_cons, hs, append_assoc, ← hrest]
      rfl
    | none =>
      have hrest := ih (p ++ [b])
      rw [append_assoc] at hrest
      exact hrest

end Mx.Core.PrefixCode
