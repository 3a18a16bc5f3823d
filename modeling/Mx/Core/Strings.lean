import Mathlib

/-!
# Strings in arrays of fixed size

Texts as lists of bytes, the operations that cut off what an array has no room for, the first
occurrence of a text in another one, and the lines of a file, as a reader with a buffer of fixed
size and one without see them.
-/

namespace Mx.Strings

open List

/-- The bytes of a string. -/
abbrev Text : Type := List UInt8

/-- The instance by which texts are compared in every module. -/
theorem lawfulBEq_text : LawfulBEq Text := inferInstance

/-- The bytes of an ASCII literal. -/
def text (s : String) : Text := s.toList.map fun c => UInt8.ofNat c.toNat

/-! ## Arrays of characters -/

/-- `Assign` to an array with so many elements, one of which is for the terminator. -/
def assign (size : Nat) (s : Text) : Text := s.take (size - 1)

/-- `Concat` into an array. -/
def concat (size : Nat) (s t : Text) : Text := (s ++ t).take (size - 1)

/-- `Copy` of a part of a string into an array. -/
def copy (size : Nat) (s : Text) (start len : Nat) : Text :=
  ((s.drop start).take len).take (size - 1)

/-- `Pos`: the first place where a string occurs, none for the greatest `CARDINAL`. -/
def pos (sub : Text) : Text → Option Nat
  | [] => if sub = [] then some 0 else none
  | c :: s => if sub.isPrefixOf (c :: s) then some 0 else (pos sub s).map (· + 1)

section Arrays

variable {size : Nat} {s t : Text} {c : UInt8}

theorem assign_of_lt (h : s.length < size) : assign size s = s :=
  take_of_length_le (by omega)

theorem assign_length_lt (h : 0 < size) (s : Text) : (assign size s).length < size := by
  rw [assign, length_take]
  omega

theorem concat_of_lt (h : (s ++ t).length < size) : concat size s t = s ++ t :=
  take_of_length_le (by omega)

theorem copy_length_lt (h : 0 < size) (s : Text) (start len : Nat) :
    (copy size s start len).length < size := by
  rw [copy, length_take]
  omega

/-- The part before a place. -/
theorem copy_front (h : s.length < size) (t : Text) : copy size (s ++ t) 0 s.length = s := by
  rw [copy, drop_zero, take_left, take_of_length_le (by omega)]

/-- The part after a place. -/
theorem copy_back (h : t.length < size) (s : Text) {n : Nat} (hn : t.length ≤ n) :
    copy size (s ++ t) s.length n = t := by
  rw [copy, drop_left, take_of_length_le hn, take_of_length_le (by omega)]

theorem pos_of_not_mem (h : c ∉ s) (t : Text) : pos [c] (s ++ c :: t) = some s.length := by
  induction s with
  | nil => simp [pos, List.isPrefixOf]
  | cons x s ih =>
    rw [mem_cons, not_or] at h
    have hx : (c == x) = false := by simpa using h.1
    rw [cons_append, pos, ih h.2]
    simp [List.isPrefixOf, hx]

/-- A character is found between what is in front of it and what is behind it. -/
theorem pos_singleton_eq_some {n : Nat} (h : pos [c] s = some n) :
    c ∉ s.take n ∧ s = s.take n ++ c :: s.drop (n + 1) := by
  induction s generalizing n with
  | nil => simp [pos] at h
  | cons x s ih =>
    rw [pos] at h
    by_cases hx : c = x
    · have hfront : [c].isPrefixOf (x :: s) = true := by simp [hx, List.isPrefixOf]
      rw [if_pos hfront] at h
      obtain rfl := Option.some.inj h
      simp [hx]
    · have hfront : ¬ [c].isPrefixOf (x :: s) = true := by simp [hx, List.isPrefixOf]
      rw [if_neg hfront] at h
      obtain ⟨m, hm, rfl⟩ := Option.map_eq_some_iff.mp h
      obtain ⟨hnot, heq⟩ := ih hm
      refine ⟨?_, ?_⟩
      · rw [take_succ_cons, mem_cons, not_or]
        exact ⟨hx, hnot⟩
      · rw [take_succ_cons, drop_succ_cons, cons_append, ← heq]

theorem pos_eq_zero_iff {sub : Text} : pos sub s = some 0 ↔ sub.isPrefixOf s = true := by
  cases s with
  | nil =>
    cases sub with
    | nil => simp [pos]
    | cons x sub => simp [pos]
  | cons x s =>
    rw [pos]
    split
    · rename_i h
      simp [h]
    · rename_i h
      simp [h]

theorem pos_self_append (sub t : Text) : pos sub (sub ++ t) = some 0 := by
  cases sub with
  | nil =>
    cases t with
    | nil => rfl
    | cons c t => simp [pos]
  | cons x sub =>
    have hfront : (x :: sub).isPrefixOf (x :: (sub ++ t)) = true := by
      rw [List.isPrefixOf_iff_prefix]
      exact ⟨t, rfl⟩
    rw [cons_append, pos, if_pos hfront]

theorem pos_add_length_le {sub : Text} {n : Nat} (h : pos sub s = some n) :
    n + sub.length ≤ s.length := by
  induction s generalizing n with
  | nil =>
    by_cases hsub : sub = []
    · rw [pos, if_pos hsub] at h
      cases h
      rw [hsub]
      exact le_rfl
    · rw [pos, if_neg hsub] at h
      cases h
  | cons c s ih =>
    rw [pos] at h
    by_cases hfront : sub.isPrefixOf (c :: s) = true
    · rw [if_pos hfront] at h
      cases h
      rw [Nat.zero_add]
      exact (List.isPrefixOf_iff_prefix.1 hfront).length_le
    · rw [if_neg hfront] at h
      obtain ⟨m, hm, rfl⟩ := Option.map_eq_some_iff.1 h
      have hle := ih hm
      rw [length_cons]
      omega

theorem pos_append {sub : Text} {n : Nat} (h : pos sub s = some n) (t : Text) :
    pos sub (s ++ t) = some n := by
  induction s generalizing n with
  | nil =>
    by_cases hsub : sub = []
    · rw [pos, if_pos hsub] at h
      cases h
      rw [hsub]
      exact pos_self_append [] t
    · rw [pos, if_neg hsub] at h
      cases h
  | cons c s ih =>
    rw [pos] at h
    by_cases hfront : sub.isPrefixOf (c :: s) = true
    · rw [if_pos hfront] at h
      cases h
      rw [pos_eq_zero_iff, List.isPrefixOf_iff_prefix]
      exact (List.isPrefixOf_iff_prefix.1 hfront).trans (prefix_append _ _)
    · rw [if_neg hfront] at h
      obtain ⟨m, hm, rfl⟩ := Option.map_eq_some_iff.1 h
      have hle := pos_add_length_le hm
      have hfront' : ¬ sub.isPrefixOf (c :: (s ++ t)) = true := by
        intro hpre
        apply hfront
        rw [List.isPrefixOf_iff_prefix] at hpre ⊢
        have hself : (c :: s) <+: (c :: (s ++ t)) := prefix_append (c :: s) t
        apply prefix_of_prefix_length_le hpre hself
        rw [length_cons]
        omega
      rw [cons_append, pos, if_neg hfront', ih hm]
      rfl

end Arrays

/-! ## Lines -/

/-- The end of a line. -/
def newline : UInt8 := 10

/-- A carriage return. -/
def carriageReturn : UInt8 := 13

/-- A last character is dropped if it is the given one. -/
def stripLast (c : UInt8) (s : Text) : Text := if s.getLast? = some c then s.dropLast else s

/-- `fgets`, with room for so many characters: the line and the rest of the file. -/
def fgets : Nat → Text → Text × Text
  | 0, s => ([], s)
  | _ + 1, [] => ([], [])
  | n + 1, c :: s => if c = newline then ([c], s) else
    let r := fgets n s
    (c :: r.1, r.2)

/-- The lines that a reader with a buffer gets, at most so many. -/
def readLines (size : Nat) : Nat → Text → List Text
  | 0, _ => []
  | _ + 1, [] => []
  | n + 1, c :: s =>
    let r := fgets (size - 1) (c :: s)
    stripLast carriageReturn (stripLast newline r.1) :: readLines size n r.2

/-- All lines that a reader with a buffer gets from a file. -/
def bufferLines (size : Nat) (s : Text) : List Text := readLines size s.length s

/-- The lines of a file, for the characters before it on its first line, backwards. -/
def linesAfter : Text → Text → List Text
  | acc, [] => if acc = [] then [] else [acc.reverse]
  | acc, c :: s =>
    if c = newline then stripLast carriageReturn acc.reverse :: linesAfter [] s
    else linesAfter (c :: acc) s

/-- `str::lines`. -/
def lines (s : Text) : List Text := linesAfter [] s

section Lines

variable {size : Nat} {l s : Text}

theorem fgets_line {n : Nat} (hl : newline ∉ l) (hn : l.length < n) (s : Text) :
    fgets n (l ++ newline :: s) = (l ++ [newline], s) := by
  induction l generalizing n with
  | nil =>
    obtain ⟨n, rfl⟩ := Nat.exists_eq_succ_of_ne_zero (Nat.ne_of_gt hn)
    simp [fgets]
  | cons c l ih =>
    obtain ⟨n, rfl⟩ := Nat.exists_eq_succ_of_ne_zero (Nat.ne_of_gt (Nat.zero_lt_of_lt hn))
    rw [mem_cons, not_or] at hl
    rw [length_cons] at hn
    rw [cons_append, fgets, if_neg (fun h => hl.1 h.symm), ih hl.2 (by omega)]
    rfl

theorem fgets_rest_lt {n : Nat} (hn : 0 < n) (c : UInt8) (s : Text) :
    (fgets n (c :: s)).2.length < (c :: s).length := by
  induction n generalizing c s with
  | zero => exact absurd hn (Nat.lt_irrefl _)
  | succ n ih =>
    rw [fgets]
    by_cases hc : c = newline
    · rw [if_pos hc]
      simp
    · rw [if_neg hc]
      cases n with
      | zero => simp [fgets]
      | succ n =>
        cases s with
        | nil => simp [fgets]
        | cons d s =>
          have hlt := ih (by omega) d s
          simp only [length_cons] at hlt ⊢
          omega

theorem readLines_eq (hsize : 2 ≤ size) {n m : Nat} (hn : s.length ≤ n) (hm : s.length ≤ m) :
    readLines size n s = readLines size m s := by
  induction n generalizing m s with
  | zero =>
    obtain rfl := length_eq_zero_iff.mp (Nat.le_zero.mp hn)
    cases m with
    | zero => rfl
    | succ m => rfl
  | succ n ih =>
    cases s with
    | nil =>
      cases m with
      | zero => rfl
      | succ m => rfl
    | cons c s =>
      cases m with
      | zero => simp at hm
      | succ m =>
        have hlt := fgets_rest_lt (n := size - 1) (by omega) c s
        rw [readLines, readLines, ih (m := m) (by omega) (by omega)]

theorem stripLast_append_self (c : UInt8) (s : Text) : stripLast c (s ++ [c]) = s := by
  simp [stripLast]

theorem stripLast_of_ne {c : UInt8} (h : s.getLast? ≠ some c) : stripLast c s = s := if_neg h

theorem stripLast_append {c : UInt8} {s : Text} (h : s.getLast? ≠ some c) (t : Text) :
    stripLast c (s ++ t) = s ++ stripLast c t := by
  by_cases hnil : t = []
  · subst hnil
    have ht : stripLast c [] = [] := rfl
    rw [append_nil, ht, append_nil, stripLast_of_ne h]
  · rw [stripLast, stripLast, getLast?_append_of_ne_nil _ hnil]
    by_cases hc : t.getLast? = some c
    · rw [if_pos hc, if_pos hc, dropLast_append_of_ne_nil hnil]
    · rw [if_neg hc, if_neg hc]

/-- The first line of a file, with a reader that has room for it. -/
theorem bufferLines_line (hl : newline ∉ l) (hsize : l.length + 2 ≤ size) (s : Text) :
    bufferLines size (l ++ newline :: s) =
      stripLast carriageReturn l :: bufferLines size s := by
  have hpos : 0 < (l ++ newline :: s).length := by
    rw [length_append, length_cons]
    omega
  obtain ⟨n, hn⟩ := Nat.exists_eq_succ_of_ne_zero (Nat.ne_of_gt hpos)
  have hcons : ∃ c t, l ++ newline :: s = c :: t := by
    cases l with
    | nil | cons c l => exact ⟨_, _, rfl⟩
  obtain ⟨c, t, hct⟩ := hcons
  rw [bufferLines, hn, hct, readLines, ← hct, fgets_line hl (by omega), stripLast_append_self,
    bufferLines]
  have hlen : s.length ≤ n := by
    rw [length_append, length_cons] at hn
    omega
  rw [readLines_eq (by omega) hlen le_rfl]

theorem linesAfter_line (hl : newline ∉ l) (acc s : Text) :
    linesAfter acc (l ++ newline :: s) =
      stripLast carriageReturn (acc.reverse ++ l) :: lines s := by
  induction l generalizing acc with
  | nil => simp [linesAfter, lines]
  | cons c l ih =>
    rw [mem_cons, not_or] at hl
    rw [cons_append, linesAfter, if_neg (fun h => hl.1 h.symm), ih hl.2]
    simp

/-- The first line of a file. -/
theorem lines_line (hl : newline ∉ l) (s : Text) :
    lines (l ++ newline :: s) = stripLast carriageReturn l :: lines s := by
  rw [lines, linesAfter_line hl]
  rfl

/-- Lines written one after another. -/
def unlines (ls : List Text) : Text := ls.flatMap fun l => l ++ [newline]

/-- Lines that fit the buffer are read as they were written, but for a carriage return. -/
theorem bufferLines_unlines {ls : List Text} (h : ∀ l ∈ ls, newline ∉ l ∧ l.length + 2 ≤ size) :
    bufferLines size (unlines ls) = ls.map (stripLast carriageReturn) := by
  induction ls with
  | nil => rfl
  | cons l ls ih =>
    obtain ⟨hl, hsize⟩ := h l (mem_cons_self ..)
    have hcons : unlines (l :: ls) = l ++ newline :: unlines ls := by
      rw [unlines, flatMap_cons, append_assoc]
      rfl
    rw [hcons, bufferLines_line hl hsize, ih fun l' hl' => h l' (mem_cons_of_mem _ hl')]
    rfl

theorem fgets_last {n : Nat} (hl : newline ∉ l) (hn : l.length ≤ n) : fgets n l = (l, []) := by
  induction l generalizing n with
  | nil =>
    cases n with
    | zero => rfl
    | succ n => rfl
  | cons c l ih =>
    rw [mem_cons, not_or] at hl
    rw [length_cons] at hn
    obtain ⟨n, rfl⟩ := Nat.exists_eq_succ_of_ne_zero (Nat.ne_of_gt (Nat.zero_lt_of_lt hn))
    rw [fgets, if_neg (fun h => hl.1 h.symm), ih hl.2 (by omega)]

theorem bufferLines_last (hl : newline ∉ l) (hnil : l ≠ []) (hsize : l.length < size) :
    bufferLines size l = [stripLast carriageReturn l] := by
  obtain ⟨c, t, rfl⟩ := exists_cons_of_ne_nil hnil
  have hline : stripLast newline (c :: t) = c :: t :=
    stripLast_of_ne fun hlast => hl (mem_of_getLast? hlast)
  rw [bufferLines, length_cons, readLines, fgets_last hl (by omega), hline]
  cases t.length with
  | zero => rfl
  | succ n => rfl

theorem linesAfter_last (hl : newline ∉ l) (acc : Text) (hnil : acc.reverse ++ l ≠ []) :
    linesAfter acc l = [acc.reverse ++ l] := by
  induction l generalizing acc with
  | nil =>
    rw [append_nil] at hnil ⊢
    exact if_neg fun h => hnil (by rw [h]; rfl)
  | cons c l ih =>
    rw [mem_cons, not_or] at hl
    rw [linesAfter, if_neg (fun h => hl.1 h.symm), ih hl.2]
    · simp
    · simp

theorem length_le_stripLast (c : UInt8) (s : Text) : s.length ≤ (stripLast c s).length + 1 := by
  rw [stripLast]
  split
  · rw [length_dropLast]
    omega
  · omega

/-- A reader with a buffer gets the lines of a file, if it has room for them and none of them ends
in a carriage return. -/
theorem bufferLines_eq_lines (n : Nat) : ∀ {s : Text}, s.length ≤ n →
    (∀ l ∈ lines s, l.length + 3 ≤ size ∧ l.getLast? ≠ some carriageReturn) →
    bufferLines size s = lines s := by
  induction n with
  | zero =>
    intro s hn _
    rw [length_eq_zero_iff.mp (Nat.le_zero.mp hn)]
    rfl
  | succ n ih =>
    intro s hn h
    by_cases hmem : newline ∈ s
    · obtain ⟨l, t, rfl, hl⟩ := eq_append_cons_of_mem hmem
      rw [lines_line hl] at h ⊢
      have hfirst := (h _ mem_cons_self).1
      have hlength := length_le_stripLast carriageReturn l
      have hshort : t.length ≤ n := by
        rw [length_append, length_cons] at hn
        omega
      rw [bufferLines_line hl (by omega), ih hshort fun l' hl' => h l' (mem_cons_of_mem _ hl')]
    · by_cases hnil : s = []
      · rw [hnil]
        rfl
      · have hlines : lines s = [s] := linesAfter_last hmem [] hnil
        rw [hlines] at h ⊢
        obtain ⟨hsize, hreturn⟩ := h s mem_cons_self
        rw [bufferLines_last hmem hnil (by omega), stripLast_of_ne hreturn]

theorem lines_unlines {ls : List Text} (h : ∀ l ∈ ls, newline ∉ l) :
    lines (unlines ls) = ls.map (stripLast carriageReturn) := by
  induction ls with
  | nil => rfl
  | cons l ls ih =>
    have hcons : unlines (l :: ls) = l ++ newline :: unlines ls := by
      rw [unlines, flatMap_cons, append_assoc]
      rfl
    rw [hcons, lines_line (h l (mem_cons_self ..)), ih fun l' hl' => h l' (mem_cons_of_mem _ hl')]
    rfl

end Lines

/-! ## Blanks -/

/-- The encodings of the characters that are white space: U+0009 to U+000D, U+0020, U+0085,
U+00A0, U+1680, U+2000 to U+200A, U+2028, U+2029, U+202F, U+205F and U+3000. -/
def blanks : List Text :=
  [[9], [10], [11], [12], [13], [32], [0xC2, 0x85], [0xC2, 0xA0], [0xE1, 0x9A, 0x80],
    [0xE2, 0x80, 0x80], [0xE2, 0x80, 0x81], [0xE2, 0x80, 0x82], [0xE2, 0x80, 0x83],
    [0xE2, 0x80, 0x84], [0xE2, 0x80, 0x85], [0xE2, 0x80, 0x86], [0xE2, 0x80, 0x87],
    [0xE2, 0x80, 0x88], [0xE2, 0x80, 0x89], [0xE2, 0x80, 0x8A], [0xE2, 0x80, 0xA8],
    [0xE2, 0x80, 0xA9], [0xE2, 0x80, 0xAF], [0xE2, 0x81, 0x9F], [0xE3, 0x80, 0x80]]

/-- The length of the first of these texts that the given one starts with. -/
def blankWidth (bs : List Text) (s : Text) : Nat :=
  ((bs.find? fun b => b.isPrefixOf s).map List.length).getD 0

/-- What follows the first bytes and the blanks behind them. -/
def skipBlanks (bs : List Text) : Nat → Text → Text
  | _, [] => []
  | n + 1, _ :: s => skipBlanks bs n s
  | 0, c :: s =>
    match blankWidth bs (c :: s) with
    | 0 => c :: s
    | n + 1 => skipBlanks bs n s

/-- `str::trim_start`. -/
def trimStart (s : Text) : Text := skipBlanks blanks 0 s

/-- `str::trim_end`. -/
def trimEnd (s : Text) : Text := (skipBlanks (blanks.map reverse) 0 s.reverse).reverse

/-- `str::trim`. -/
def trim (s : Text) : Text := trimEnd (trimStart s)

/-- There are no blanks at either end. -/
structure Tidy (s : Text) : Prop where
  front : ∀ b ∈ blanks, ¬ b <+: s
  back : ∀ b ∈ blanks, ¬ b <:+ s

instance (s : Text) : Decidable (Tidy s) :=
  decidable_of_iff (∀ b ∈ blanks, ¬ b <+: s ∧ ¬ b <:+ s)
    ⟨fun h => ⟨fun b hb => (h b hb).1, fun b hb => (h b hb).2⟩,
      fun h b hb => ⟨h.front b hb, h.back b hb⟩⟩

/-- There is nothing but blanks. -/
def Blank (s : Text) : Prop := ∃ xs : List Text, (∀ x ∈ xs, x ∈ blanks) ∧ s = xs.flatten

/-- Texts none of which is empty or starts another one. -/
structure PrefixFree (bs : List Text) : Prop where
  ne_nil : ∀ b ∈ bs, b ≠ []
  eq_of_prefix : ∀ b ∈ bs, ∀ b' ∈ bs, b <+: b' → b = b'

theorem prefixFree_blanks : PrefixFree blanks := ⟨by decide, by decide +kernel⟩

theorem prefixFree_reversed : PrefixFree (blanks.map reverse) := ⟨by decide, by decide +kernel⟩

section Skip

variable {bs : List Text} {b s t : Text} {c : UInt8}

theorem blankWidth_eq_zero (h : ∀ b ∈ bs, ¬ b <+: s) : blankWidth bs s = 0 := by
  have hnone : bs.find? (fun b => b.isPrefixOf s) = none :=
    find?_eq_none.mpr fun b hb hpre => h b hb <| isPrefixOf_iff_prefix.mp hpre
  rw [blankWidth, hnone]
  rfl

/-- A text that starts with a blank starts with this one only. -/
theorem PrefixFree.blankWidth_eq (hbs : PrefixFree bs) (hb : b ∈ bs) (hpre : b <+: s) :
    blankWidth bs s = b.length := by
  have hsome : (bs.find? fun b => b.isPrefixOf s).isSome = true :=
    find?_isSome.mpr ⟨b, hb, isPrefixOf_iff_prefix.mpr hpre⟩
  obtain ⟨b', hb'⟩ := Option.isSome_iff_exists.mp hsome
  have hmem := mem_of_find?_eq_some hb'
  have hfound := find?_some hb'
  have hpre' : b' <+: s := isPrefixOf_iff_prefix.mp hfound
  have heq : b' = b := by
    rcases prefix_or_prefix_of_prefix hpre' hpre with h | h
    · exact hbs.eq_of_prefix b' hmem b hb h
    · exact (hbs.eq_of_prefix b hb b' hmem h).symm
  rw [blankWidth, hb', heq]
  rfl

theorem blankWidth_cases (bs : List Text) (s : Text) :
    blankWidth bs s = 0 ∨ ∃ b ∈ bs, b <+: s ∧ blankWidth bs s = b.length := by
  cases hfind : bs.find? fun b => b.isPrefixOf s with
  | none => exact .inl (by rw [blankWidth, hfind]; rfl)
  | some b =>
    have hfound := find?_some hfind
    refine .inr ⟨b, mem_of_find?_eq_some hfind, isPrefixOf_iff_prefix.mp hfound, ?_⟩
    rw [blankWidth, hfind]
    rfl

theorem skipBlanks_of_front (h : ∀ b ∈ bs, ¬ b <+: s) : skipBlanks bs 0 s = s := by
  cases s with
  | nil => rfl
  | cons c s => rw [skipBlanks, blankWidth_eq_zero h]

theorem skipBlanks_drop (bs : List Text) (n : Nat) (s : Text) :
    skipBlanks bs n s = skipBlanks bs 0 (s.drop n) := by
  induction n generalizing s with
  | zero => rw [drop_zero]
  | succ n ih =>
    cases s with
    | nil => rw [drop_nil, skipBlanks, skipBlanks]
    | cons c s => rw [skipBlanks, ih, drop_succ_cons]

theorem PrefixFree.skipBlanks_append (hbs : PrefixFree bs) (hb : b ∈ bs) (s : Text) :
    skipBlanks bs 0 (b ++ s) = skipBlanks bs 0 s := by
  have hwidth := hbs.blankWidth_eq hb (prefix_append b s)
  cases b with
  | nil => exact absurd rfl (hbs.ne_nil [] hb)
  | cons c b =>
    rw [cons_append] at hwidth ⊢
    rw [skipBlanks, hwidth, length_cons]
    dsimp only
    rw [skipBlanks_drop, drop_left]

/-- What is skipped are blanks, and no blank follows. -/
theorem skipBlanks_spec (hne : ∀ b ∈ bs, b ≠ []) (s : Text) :
    (∃ xs : List Text, (∀ x ∈ xs, x ∈ bs) ∧ s = xs.flatten ++ skipBlanks bs 0 s) ∧
      ∀ b ∈ bs, ¬ b <+: skipBlanks bs 0 s := by
  induction hn : s.length using Nat.strong_induction_on generalizing s with
  | h n ih =>
    cases s with
    | nil =>
      refine ⟨⟨[], by simp, rfl⟩, fun b hb hpre => hne b hb ?_⟩
      exact prefix_nil.mp hpre
    | cons c s =>
      rcases blankWidth_cases bs (c :: s) with hzero | ⟨b, hb, ⟨rest, hrest⟩, hwidth⟩
      · have hskip : skipBlanks bs 0 (c :: s) = c :: s := by rw [skipBlanks, hzero]
        refine ⟨⟨[], by simp, by rw [hskip]; rfl⟩, fun b hb hpre => ?_⟩
        rw [hskip] at hpre
        have hsome : (bs.find? fun b => b.isPrefixOf (c :: s)).isSome = true :=
          find?_isSome.mpr ⟨b, hb, isPrefixOf_iff_prefix.mpr hpre⟩
        obtain ⟨b', hb'⟩ := Option.isSome_iff_exists.mp hsome
        rw [blankWidth, hb'] at hzero
        exact hne b' (mem_of_find?_eq_some hb') (length_eq_zero_iff.mp hzero)
      · have hpos : 0 < b.length := length_pos_of_ne_nil (hne b hb)
        obtain ⟨k, hk⟩ := Nat.exists_eq_succ_of_ne_zero (Nat.pos_iff_ne_zero.mp hpos)
        have hdrop : s.drop k = rest := by
          have := congrArg (List.drop b.length) hrest
          rwa [drop_left, hk, Nat.succ_eq_add_one, drop_succ_cons, eq_comm] at this
        have hskip : skipBlanks bs 0 (c :: s) = skipBlanks bs 0 rest := by
          rw [skipBlanks, hwidth, hk]
          dsimp only [Nat.succ_eq_add_one]
          rw [skipBlanks_drop, hdrop]
        have hlen : rest.length < n := by
          rw [← hn, ← hrest, length_append]
          omega
        obtain ⟨⟨xs, hxs, heq⟩, hfront⟩ := ih rest.length hlen rest rfl
        rw [hskip]
        refine ⟨⟨b :: xs, ?_, ?_⟩, hfront⟩
        · intro x hx
          rcases mem_cons.mp hx with rfl | hx
          · exact hb
          · exact hxs x hx
        · rw [flatten_cons, append_assoc, ← heq, hrest]

theorem PrefixFree.skipBlanks_flatten (hbs : PrefixFree bs) {xs : List Text}
    (hxs : ∀ x ∈ xs, x ∈ bs) (s : Text) :
    skipBlanks bs 0 (xs.flatten ++ s) = skipBlanks bs 0 s := by
  induction xs with
  | nil => rfl
  | cons x xs ih =>
    rw [forall_mem_cons] at hxs
    rw [flatten_cons, append_assoc, hbs.skipBlanks_append hxs.1, ih hxs.2]

/-- A blank does not reach over a byte that is in none. -/
theorem not_prefix_append_cons (hc : c ∉ b) (h : ¬ b <+: s) (t : Text) :
    ¬ b <+: s ++ c :: t := by
  intro hpre
  rcases prefix_or_prefix_of_prefix hpre (prefix_append s (c :: t)) with hbs | ⟨r, rfl⟩
  · exact h hbs
  · rw [prefix_append_right_inj] at hpre
    cases r with
    | nil => exact h (by rw [append_nil])
    | cons d r =>
      rw [cons_prefix_cons] at hpre
      exact hc (mem_append_right s (hpre.1 ▸ mem_cons_self))

theorem PrefixFree.skipBlanks_append_cons (hbs : PrefixFree bs) (hc : ∀ b ∈ bs, c ∉ b)
    (s t : Text) : skipBlanks bs 0 (s ++ c :: t) = skipBlanks bs 0 s ++ c :: t := by
  obtain ⟨⟨xs, hxs, heq⟩, hfront⟩ := skipBlanks_spec hbs.ne_nil s
  calc skipBlanks bs 0 (s ++ c :: t)
      = skipBlanks bs 0 (xs.flatten ++ (skipBlanks bs 0 s ++ c :: t)) := by
        rw [← append_assoc, ← heq]
    _ = skipBlanks bs 0 (skipBlanks bs 0 s ++ c :: t) := hbs.skipBlanks_flatten hxs _
    _ = skipBlanks bs 0 s ++ c :: t :=
        skipBlanks_of_front fun b hb => not_prefix_append_cons (hc b hb) (hfront b hb) t

end Skip

section Blanks

variable {b s t : Text} {c d : UInt8}

theorem Tidy.trimStart_eq (h : Tidy s) : trimStart s = s := skipBlanks_of_front h.front

theorem Tidy.trimEnd_eq (h : Tidy s) : trimEnd s = s := by
  have hback : ∀ b ∈ blanks.map reverse, ¬ b <+: s.reverse := by
    intro b hb hpre
    obtain ⟨b', hb', rfl⟩ := mem_map.mp hb
    exact h.back b' hb' <| reverse_prefix.mp hpre
  rw [trimEnd, skipBlanks_of_front hback, reverse_reverse]

theorem Tidy.trim_eq (h : Tidy s) : trim s = s := by
  rw [trim, h.trimStart_eq, h.trimEnd_eq]

example : trim [0xE3, 0x80, 0x80, 97, 32] = [97] := by decide +kernel

theorem tidy_nil : Tidy [] := by decide

theorem Tidy.getLast?_ne (h : Tidy s) : s.getLast? ≠ some carriageReturn := by
  intro hlast
  obtain ⟨front, rfl⟩ := getLast?_eq_some_iff.mp hlast
  exact h.back [carriageReturn] (by decide) (suffix_append _ _)

theorem Tidy.stripLast_eq (h : Tidy s) : stripLast carriageReturn s = s :=
  stripLast_of_ne h.getLast?_ne

/-- Between two bytes that are in no blank, all is kept. -/
theorem tidy_between (hc : ∀ b ∈ blanks, c ∉ b) (hd : ∀ b ∈ blanks, d ∉ b) (s : Text) :
    Tidy (c :: s ++ [d]) := by
  constructor
  · intro b hb hpre
    exact not_prefix_append_cons (hc b hb) (tidy_nil.front b hb) (s ++ [d]) hpre
  · intro b hb hsuf
    rw [← reverse_prefix, reverse_append, reverse_singleton, singleton_append] at hsuf
    have hne : ¬ b.reverse <+: [] := fun h => tidy_nil.back b hb <| reverse_prefix.mp h
    exact not_prefix_append_cons (by rw [mem_reverse]; exact hd b hb) hne _ hsuf

theorem Blank.append (hs : Blank s) (ht : Blank t) : Blank (s ++ t) := by
  obtain ⟨xs, hxs, rfl⟩ := hs
  obtain ⟨ys, hys, rfl⟩ := ht
  refine ⟨xs ++ ys, fun x hx => ?_, flatten_append.symm⟩
  exact (mem_append.mp hx).elim (hxs x) (hys x)

theorem Blank.reverse (h : Blank s) :
    ∃ xs : List Text, (∀ x ∈ xs, x ∈ blanks.map List.reverse) ∧ s.reverse = xs.flatten := by
  obtain ⟨xs, hxs, rfl⟩ := h
  refine ⟨(xs.map List.reverse).reverse, fun x hx => ?_, reverse_flatten⟩
  obtain ⟨y, hy, rfl⟩ := mem_map.mp (mem_reverse.mp hx)
  exact mem_map_of_mem (hxs y hy)

theorem blank_of_reverse {xs : List Text} (hxs : ∀ x ∈ xs, x ∈ blanks.map List.reverse) :
    Blank xs.flatten.reverse := by
  refine ⟨(xs.map List.reverse).reverse, fun x hx => ?_, reverse_flatten⟩
  obtain ⟨y, hy, rfl⟩ := mem_map.mp (mem_reverse.mp hx)
  obtain ⟨z, hz, rfl⟩ := mem_map.mp (hxs y hy)
  rwa [reverse_reverse]

theorem exists_trimEnd (s : Text) : ∃ t, Blank t ∧ s = trimEnd s ++ t := by
  obtain ⟨⟨xs, hxs, heq⟩, -⟩ := skipBlanks_spec prefixFree_reversed.ne_nil s.reverse
  refine ⟨_, blank_of_reverse hxs, ?_⟩
  rw [trimEnd, ← reverse_append, ← heq, reverse_reverse]

theorem trimEnd_eq_nil_iff : trimEnd s = [] ↔ Blank s := by
  constructor
  · intro h
    obtain ⟨t, ht, heq⟩ := exists_trimEnd s
    rw [heq, h]
    exact ht
  · intro h
    obtain ⟨xs, hxs, heq⟩ := h.reverse
    have hskip := prefixFree_reversed.skipBlanks_flatten hxs []
    rw [append_nil] at hskip
    rw [trimEnd, heq, hskip]
    rfl

theorem trim_eq_nil_iff : trim s = [] ↔ Blank s := by
  rw [trim, trimEnd_eq_nil_iff]
  constructor
  · intro h
    obtain ⟨⟨xs, hxs, heq⟩, -⟩ := skipBlanks_spec prefixFree_blanks.ne_nil s
    rw [heq]
    exact Blank.append ⟨xs, hxs, rfl⟩ h
  · rintro ⟨xs, hxs, rfl⟩
    have hskip := prefixFree_blanks.skipBlanks_flatten hxs []
    rw [append_nil] at hskip
    rw [trimStart, hskip]
    exact ⟨[], by simp, rfl⟩

theorem trim_trimEnd_eq_nil_iff : trim (trimEnd s) = [] ↔ Blank s := by
  rw [trim_eq_nil_iff]
  constructor
  · intro h
    obtain ⟨t, ht, heq⟩ := exists_trimEnd s
    rw [heq]
    exact h.append ht
  · intro h
    rw [trimEnd_eq_nil_iff.mpr h]
    exact ⟨[], by simp, rfl⟩

/-- A blank at the end does not matter. -/
theorem blank_append_iff (hb : b ∈ blanks) : Blank (s ++ b) ↔ Blank s := by
  have hskip := prefixFree_reversed.skipBlanks_append (mem_map_of_mem hb) s.reverse
  rw [← trimEnd_eq_nil_iff, ← trimEnd_eq_nil_iff, trimEnd, trimEnd, reverse_append, hskip]

theorem blank_stripLast (s : Text) : Blank (stripLast carriageReturn s) ↔ Blank s := by
  rw [stripLast]
  by_cases hlast : s.getLast? = some carriageReturn
  · rw [if_pos hlast]
    obtain ⟨front, rfl⟩ := getLast?_eq_some_iff.mp hlast
    rw [dropLast_concat]
    exact (blank_append_iff (by decide)).symm
  · rw [if_neg hlast]

/-- Blanks are cut off up to a byte that is in none. -/
theorem trim_append_cons (hs : Tidy s) (hc : ∀ b ∈ blanks, c ∉ b) (t : Text) :
    trim (s ++ c :: t) = s ++ c :: trimEnd t := by
  have hstart : trimStart (s ++ c :: t) = s ++ c :: t :=
    skipBlanks_of_front fun b hb => not_prefix_append_cons (hc b hb) (hs.front b hb) t
  have hreversed : ∀ b ∈ blanks.map List.reverse, c ∉ b := by
    intro b hb hmem
    obtain ⟨b', hb', rfl⟩ := mem_map.mp hb
    exact hc b' hb' (mem_reverse.mp hmem)
  have hend := prefixFree_reversed.skipBlanks_append_cons hreversed t.reverse s.reverse
  rw [trim, hstart, trimEnd, reverse_append, reverse_cons, append_assoc, singleton_append, hend,
    reverse_append, reverse_cons, reverse_reverse, append_assoc, singleton_append, trimEnd]

end Blanks

/-! ## Words -/

/-- The words between separators. -/
def words (sep : UInt8 → Bool) (s : Text) : List Text := (s.splitOnP sep).filter (· ≠ [])

section Words

variable {sep sep' : UInt8 → Bool} {s : Text}

/-- A text without separators is one word. -/
theorem words_of_none (h : ∀ c ∈ s, sep c = false) (hnil : s ≠ []) : words sep s = [s] := by
  have hsplit : s.splitOnP sep = [s] := splitOnP_eq_singleton h
  rw [words, hsplit]
  simp [hnil]

end Words

/-- A space in the place of each blank behind the first bytes. -/
def spaced : Nat → Text → Text
  | _, [] => []
  | n + 1, _ :: s => spaced n s
  | 0, c :: s =>
    match blankWidth blanks (c :: s) with
    | 0 => c :: spaced 0 s
    | n + 1 => 32 :: spaced n s

/-- `str::split_whitespace`. -/
def splitWhitespace (s : Text) : List Text := words (· = 32) (spaced 0 s)

/-- Spaces are the only blanks. -/
def OnlySpaces (s : Text) : Prop := ∀ b ∈ blanks, b <:+: s → b = [32]

instance (s : Text) : Decidable (OnlySpaces s) :=
  inferInstanceAs (Decidable (∀ b ∈ blanks, b <:+: s → b = [32]))

theorem OnlySpaces.spaced_eq {s : Text} (h : OnlySpaces s) : spaced 0 s = s := by
  induction s with
  | nil => rfl
  | cons c s ih =>
    have htail := ih fun b hb hin => h b hb (infix_cons hin)
    rcases blankWidth_cases blanks (c :: s) with hzero | ⟨b, hb, hpre, hwidth⟩
    · rw [spaced, hzero]
      dsimp only
      rw [htail]
    · obtain rfl := h b hb hpre.isInfix
      obtain rfl : 32 = c := (cons_prefix_cons.mp hpre).1
      rw [spaced, hwidth]
      dsimp only [length_singleton]
      rw [htail]

/-- With spaces only, the words are those between them. -/
theorem OnlySpaces.splitWhitespace_eq {s : Text} (h : OnlySpaces s) :
    splitWhitespace s = words (· = 32) s := by
  rw [splitWhitespace, h.spaced_eq]

end Mx.Strings
