import Mathlib

/-!
# Natural layout

Sizes and alignments of things that are laid out one after another, each at the next multiple of its
alignment.
-/

namespace Mx.Core

open List

/-- The next multiple of an alignment. -/
def alignUp (offset align : Nat) : Nat := (offset + align - 1) / align * align

/-- A size with its alignment. -/
structure Extent where
  size : Nat
  align : Nat
  deriving DecidableEq, Repr

/-- The end of a thing that is placed at the next offset it can stand at. -/
def place (offset : Nat) (e : Extent) : Nat := alignUp offset e.align + e.size

/-- The end of things placed one after another. -/
def endFrom (offset : Nat) (es : List Extent) : Nat := es.foldl place offset

/-- The largest alignment, at least one. -/
def maxAlign (es : List Extent) : Nat := es.foldl (fun a e => max a e.align) 1

/-- The extent of a structure of these members. -/
def structExtent (es : List Extent) : Extent :=
  ⟨alignUp (endFrom 0 es) (maxAlign es), maxAlign es⟩

/-- Where the first of some members that follow an offset stands. -/
def startFrom (offset : Nat) : List Extent → Nat
  | [] => offset
  | e :: _ => alignUp offset e.align

@[simp] theorem endFrom_nil (offset : Nat) : endFrom offset [] = offset := rfl

theorem endFrom_cons (offset : Nat) (e : Extent) (es : List Extent) :
    endFrom offset (e :: es) = endFrom (place offset e) es := rfl

theorem endFrom_append (offset : Nat) (es es' : List Extent) :
    endFrom offset (es ++ es') = endFrom (endFrom offset es) es' := by
  simp [endFrom]

theorem le_alignUp (offset : Nat) {align : Nat} (h : 0 < align) :
    offset ≤ alignUp offset align := by
  have hdiv := Nat.div_add_mod (offset + align - 1) align
  have hmod := Nat.mod_lt (offset + align - 1) h
  rw [alignUp, Nat.mul_comm]
  omega

theorem le_endFrom (offset : Nat) {es : List Extent} (h : ∀ e ∈ es, 0 < e.align) :
    offset ≤ endFrom offset es := by
  induction es generalizing offset with
  | nil => exact Nat.le_refl offset
  | cons e es ih =>
    have hplace : offset ≤ place offset e :=
      Nat.le_trans (le_alignUp offset (h e mem_cons_self)) (Nat.le_add_right _ _)
    exact Nat.le_trans hplace (ih _ fun e' he' => h e' (mem_cons_of_mem _ he'))

theorem foldl_max_align (start : Nat) (es : List Extent) :
    es.foldl (fun a e => max a e.align) start = start ∨
      ∃ e ∈ es, es.foldl (fun a e => max a e.align) start = e.align := by
  induction es generalizing start with
  | nil => exact .inl rfl
  | cons e es ih =>
    rw [foldl_cons]
    obtain h | ⟨e', he', h⟩ := ih (max start e.align)
    · rw [h]
      obtain hmax | hmax := Nat.le_total start e.align
      · exact .inr ⟨e, mem_cons_self, Nat.max_eq_right hmax⟩
      · exact .inl (Nat.max_eq_left hmax)
    · exact .inr ⟨e', mem_cons_of_mem _ he', h⟩

/-- The largest alignment is that of a member, or one. -/
theorem maxAlign_cases (es : List Extent) : maxAlign es = 1 ∨ ∃ e ∈ es, maxAlign es = e.align :=
  foldl_max_align 1 es

theorem le_foldl_max_align (start : Nat) (es : List Extent) :
    start ≤ es.foldl (fun a e => max a e.align) start ∧
      ∀ e ∈ es, e.align ≤ es.foldl (fun a e => max a e.align) start := by
  induction es generalizing start with
  | nil => exact ⟨le_rfl, fun _ h => absurd h not_mem_nil⟩
  | cons e es ih =>
    obtain ⟨hstart, hall⟩ := ih (max start e.align)
    refine ⟨Nat.le_trans (Nat.le_max_left _ _) hstart, fun e' he' => ?_⟩
    obtain rfl | he' := mem_cons.1 he'
    · exact Nat.le_trans (Nat.le_max_right _ _) hstart
    · exact hall e' he'

theorem le_maxAlign {es : List Extent} {e : Extent} (he : e ∈ es) : e.align ≤ maxAlign es :=
  (le_foldl_max_align 1 es).2 e he

theorem maxAlign_pos (es : List Extent) : 0 < maxAlign es := (le_foldl_max_align 1 es).1

/-- Members end no earlier than their sizes add up to. -/
theorem sum_le_endFrom (offset : Nat) {es : List Extent} (h : ∀ e ∈ es, 0 < e.align) :
    offset + (es.map Extent.size).sum ≤ endFrom offset es := by
  induction es generalizing offset with
  | nil => exact le_rfl
  | cons e es ih =>
    have hup := le_alignUp offset (h e mem_cons_self)
    have hrest := ih (place offset e) fun e he => h e (mem_cons_of_mem _ he)
    rw [map_cons, sum_cons, endFrom_cons]
    rw [place] at hrest ⊢
    omega

theorem size_le_sum {es : List Extent} {e : Extent} (he : e ∈ es) :
    e.size ≤ (es.map Extent.size).sum := by
  obtain ⟨front, rest, rfl⟩ := append_of_mem he
  simp only [map_append, map_cons, sum_append, sum_cons]
  omega

theorem alignUp_of_dvd {offset align : Nat} (h : 0 < align) (hdvd : align ∣ offset) :
    alignUp offset align = offset := by
  obtain ⟨k, rfl⟩ := hdvd
  rw [alignUp, Nat.add_sub_assoc h, Nat.mul_add_div h, Nat.div_eq_of_lt (by omega), Nat.add_zero,
    Nat.mul_comm]

theorem dvd_alignUp (offset align : Nat) : align ∣ alignUp offset align := ⟨_, Nat.mul_comm _ _⟩

end Mx.Core

/-!
# Row-major storage

The offsets of the elements of an array of several dimensions. Index vectors within the dimensions
have offsets within the storage, and different ones have different offsets.
-/

namespace Mx.Core

/-- The offset of an element, in elements. -/
def offset : List Nat → List Int → Int
  | _ :: ds, w :: ws => w * ds.prod + offset ds ws
  | _, _ => 0

/-- Every index is within its dimension. -/
def Inside (ds : List Nat) (ws : List Int) : Prop :=
  List.Forall₂ (fun (d : Nat) (w : Int) => 0 ≤ w ∧ w < d) ds ws

instance (ds : List Nat) (ws : List Int) : Decidable (Inside ds ws) := by
  unfold Inside
  infer_instance

variable {ds : List Nat} {ws ws' : List Int}

/-- An element inside the dimensions is inside the storage. -/
theorem offset_bounds (h : Inside ds ws) : 0 ≤ offset ds ws ∧ offset ds ws < ds.prod := by
  induction h with
  | nil => simp [offset]
  | @cons d w ds ws hw _ ih =>
    have hlow : 0 ≤ w * (ds.prod : Int) := Int.mul_nonneg hw.1 (Int.natCast_nonneg _)
    have hhigh : (w + 1) * (ds.prod : Int) ≤ d * ds.prod :=
      Int.mul_le_mul_of_nonneg_right (by omega) (Int.natCast_nonneg _)
    rw [offset, List.prod_cons, Int.natCast_mul]
    rw [Int.add_mul] at hhigh
    omega

theorem offset_injective (h : Inside ds ws) (h' : Inside ds ws')
    (heq : offset ds ws = offset ds ws') : ws = ws' := by
  induction h generalizing ws' with
  | nil =>
    cases h'
    rfl
  | @cons d w ds ws hw hws ih =>
    cases h' with
    | @cons _ w' _ ws' hw' hws' =>
      have hbounds := offset_bounds hws
      have hbounds' := offset_bounds hws'
      rw [offset, offset] at heq
      have hpos : (ds.prod : Int) ≠ 0 := by omega
      have hhead : w = w' := by
        have hdiv := congrArg (· / (ds.prod : Int)) heq
        simp only [Int.add_ediv_of_dvd_left (Int.dvd_mul_left _ _), Int.mul_ediv_cancel _ hpos,
          Int.ediv_eq_zero_of_lt hbounds.1 hbounds.2,
          Int.ediv_eq_zero_of_lt hbounds'.1 hbounds'.2] at hdiv
        omega
      subst hhead
      rw [ih hws' (by omega)]

end Mx.Core
