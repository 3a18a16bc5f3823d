import Mx.Http2.Huffman

/-!
# Huffman decoding by the code table

The decoders walk a tree, eight bits at a time where they stand at the root. They decode the symbols
that the bits spell in the code table, one bit at a time. None of them looks at the bits that are
left behind the last symbol.
-/

namespace Mx.Http2

open Mx.Core PrefixCode List

/-! ## The table and the tree -/

/-- The code words with their symbols. -/
def huffTable : List (List Bool × Nat) :=
  huffCodes.map fun e => (codeBits e.2.1 e.1 2147483648, e.2.2)

theorem huffTable_full : Full huffTable :=
  @full_of_isFull _ _ 31 (by decide +kernel)

theorem huffTable_ne_nil : ∀ e ∈ huffTable, e.1 ≠ [] := by decide +kernel

example : ([], 0) ∉ huffTable := by decide +kernel

theorem initHuffTree_eq (arrays : HuffTree) : initHuffTree arrays = arrays.ofTable huffTable := by
  rw [initHuffTree, BitTrie.ofTable, huffTable, foldl_map]
  simp only [huffInsert]

/-! ## Bits of bytes -/

/-- The bits that the decoders take from a byte by comparing it with 128. -/
def topBits : Nat → Nat → List Bool
  | 0, _ => []
  | n + 1, byt => decide (byt ≥ 128) :: topBits n (byt % 128 * 2)

/-- The last so many bits of a number, the most significant first. -/
def lowBits (x n : Nat) : List Bool :=
  (List.range n).map fun i => decide (x / 2 ^ (n - 1 - i) % 2 = 1)

/-- The bits of a string of bytes. -/
def bitsOf (bytes : List UInt8) : List Bool := bytes.flatMap fun byt => lowBits byt.toNat 8

theorem topBits_eq {byt : Nat} (h : byt < 256) : topBits 8 byt = lowBits byt 8 := by
  have hall : ∀ x < 256, topBits 8 x = lowBits x 8 := by decide +kernel
  exact hall byt h

example : huffTable.length = 257 := by decide +kernel

theorem topBits_shiftOut {byt used : Nat} (hlo : 1 ≤ used) (hhi : used ≤ 8) :
    topBits (shiftOut used byt).2 (shiftOut used byt).1 = (topBits 8 byt).drop used := by
  have hcases : used = 1 ∨ used = 2 ∨ used = 3 ∨ used = 4 ∨ used = 5 ∨ used = 6 ∨ used = 7 ∨
      used = 8 := by omega
  have htwo : byt % 128 * 2 % 128 * 2 = byt % 64 * 4 := by omega
  have hthree : byt % 64 * 4 % 128 * 2 = byt % 32 * 8 := by omega
  have hfour : byt % 32 * 8 % 128 * 2 = byt % 16 * 16 := by omega
  have hfive : byt % 16 * 16 % 128 * 2 = byt % 8 * 32 := by omega
  have hsix : byt % 8 * 32 % 128 * 2 = byt % 4 * 64 := by omega
  have hseven : byt % 4 * 64 % 128 * 2 = byt % 2 * 128 := by omega
  obtain rfl | rfl | rfl | rfl | rfl | rfl | rfl | rfl := hcases
  all_goals simp only [shiftOut, topBits, drop_succ_cons, drop_zero, htwo, hthree, hfour,
    hfive, hsix, hseven]

/-! ## Walking bit by bit -/

section Walk

variable {α : Type} (tree : HuffTree) (emit : α → Nat → Option α)

/-- Bits walked one after the other. -/
def walkBits : List Bool → Nat → α → Except HuffFault (Nat × α)
  | [], node, acc => .ok (node, acc)
  | bit :: bits, node, acc =>
    match huffWalkBit tree emit bit node acc with
    | .error e => .error e
    | .ok (node, acc) => walkBits bits node acc

theorem walkByte_eq (n byt node : Nat) (acc : α) :
    walkByte tree emit n byt node acc = walkBits tree emit (topBits n byt) node acc := by
  induction n generalizing byt node acc with
  | zero => rfl
  | succ n ih =>
    rw [walkByte, topBits, walkBits]
    cases huffWalkBit tree emit (decide (byt ≥ 128)) node acc with
    | error e => rfl
    | ok r => exact ih (byt % 128 * 2) r.1 r.2

/-- What the entry of a byte says about walking its bits. -/
def AccelFor (bits : List Bool) (node consumed : Nat) (acc : α) : Option HuffAccelEntry → Prop
  | none => walkBits tree emit bits node acc = .error .missing
  | some a =>
    match a.sym with
    | none => walkBits tree emit bits node acc = .ok (a.nodeAfter8, acc)
    | some sym => ∃ j, a.bitsUsed = consumed + j ∧ 1 ≤ j ∧ j ≤ bits.length ∧
      walkBits tree emit bits node acc =
        match emitSym emit acc sym with
        | .error e => .error e
        | .ok acc => walkBits tree emit (bits.drop j) 0 acc

theorem topBits_length (n byt : Nat) : (topBits n byt).length = n := by
  induction n generalizing byt with
  | zero => rfl
  | succ n ih => rw [topBits, length_cons, ih]

/-- The loop of `BuildHuffAccel` walks up to the first symbol. -/
theorem accelLoop_spec (n b consumed node : Nat) (acc : α) :
    AccelFor tree emit (topBits n b) node consumed acc (accelLoop tree n b consumed node) := by
  induction n generalizing b consumed node with
  | zero => exact rfl
  | succ n ih =>
    rw [accelLoop, topBits]
    cases hchild : tree.child (decide (b ≥ 128)) node with
    | none =>
      change walkBits tree emit _ node acc = _
      rw [walkBits, huffWalkBit, hchild]
    | some next =>
      cases hlabel : tree.label next with
      | some sym =>
        simp only [hlabel]
        refine ⟨1, rfl, Nat.le_refl 1, Nat.succ_le_succ (Nat.zero_le _), ?_⟩
        rw [walkBits, huffWalkBit, hchild]
        simp only [hlabel]
        cases emitSym emit acc sym with
        | error e => rfl
        | ok acc => rfl
      | none =>
        have hwalk : walkBits tree emit (decide (b ≥ 128) :: topBits n (b % 128 * 2)) node acc =
            walkBits tree emit (topBits n (b % 128 * 2)) next acc := by
          rw [walkBits, huffWalkBit, hchild]
          simp only [hlabel]
        have hrest := ih (b % 128 * 2) (consumed + 1) next
        simp only [hlabel]
        revert hrest
        cases accelLoop tree n (b % 128 * 2) (consumed + 1) next with
        | none => exact hwalk.trans
        | some a =>
          obtain ⟨sym, used, node'⟩ := a
          cases sym with
          | none => exact hwalk.trans
          | some sym =>
            rintro ⟨j, hused, hlo, hhi, hsame⟩
            refine ⟨j + 1, ?_, Nat.succ_pos j, Nat.succ_le_succ hhi, hwalk.trans hsame⟩
            rw [hused]
            omega

/-- A byte is decoded as if it were walked bit by bit. -/
theorem decodeByte_eq {byt : Nat} (h : byt < 256) (node : Nat) (acc : α) :
    decodeByte tree emit byt node acc = walkBits tree emit (lowBits byt 8) node acc := by
  rw [← topBits_eq h, decodeByte]
  by_cases hroot : node = 0
  · subst hroot
    rw [if_pos rfl]
    have hspec := accelLoop_spec tree emit 8 byt 0 0 acc
    rw [huffAccel]
    revert hspec
    cases accelLoop tree 8 byt 0 0 with
    | none => exact Eq.symm
    | some a =>
      obtain ⟨sym, used, node'⟩ := a
      cases sym with
      | none => exact Eq.symm
      | some sym =>
        rintro ⟨j, hused, hlo, hhi, hwalk⟩
        rw [topBits_length] at hhi
        rw [Nat.zero_add] at hused
        obtain rfl : used = j := hused
        rw [hwalk]
        dsimp only
        cases emitSym emit acc sym with
        | error e => rfl
        | ok acc =>
          dsimp only
          rw [walkByte_eq, topBits_shiftOut hlo hhi]
  · rw [if_neg hroot, walkByte_eq]

theorem walkBits_append (bits bits' : List Bool) (node : Nat) (acc : α) :
    walkBits tree emit (bits ++ bits') node acc =
      match walkBits tree emit bits node acc with
      | .error e => .error e
      | .ok (node, acc) => walkBits tree emit bits' node acc := by
  induction bits generalizing node acc with
  | nil => rfl
  | cons bit bits ih =>
    rw [cons_append, walkBits, walkBits]
    cases huffWalkBit tree emit bit node acc with
    | error e => rfl
    | ok r => exact ih r.1 r.2

theorem decodeBytes_eq (bytes : List UInt8) (node : Nat) (acc : α) :
    decodeBytes tree emit bytes node acc =
      match walkBits tree emit (bitsOf bytes) node acc with
      | .error e => .error e
      | .ok (_, acc) => .ok acc := by
  induction bytes generalizing node acc with
  | nil => rfl
  | cons byt bytes ih =>
    rw [decodeBytes, decodeByte_eq tree emit byt.toNat_lt, bitsOf, flatMap_cons, walkBits_append]
    cases walkBits tree emit (lowBits byt.toNat 8) node acc with
    | error e => rfl
    | ok r => exact ih r.1 r.2

/-- Symbols decoded one after the other. -/
def emitAll : List Nat → α → Except HuffFault α
  | [], acc => .ok acc
  | sym :: syms, acc =>
    match emitSym emit acc sym with
    | .error e => .error e
    | .ok acc => emitAll syms acc

end Walk

/-! ## The decoders -/

section Decode

variable {α : Type} {tree : HuffTree} {words : Finset (List Bool)}
  {name : List Bool → Nat}

/-- A walk in the tree emits the symbols that the bits spell in the table. -/
theorem walkBits_spells (emit : α → Nat → Option α)
    (h : BitTrie.Represents tree words name (lookup huffTable))
    (hwords : ∀ q, q ∈ words ↔ ∃ e ∈ huffTable, q <+: e.1) {p q : List Bool} {s : Nat}
    (hmem : (p ++ q, s) ∈ huffTable) (hq : q ≠ []) (bits : List Bool) (acc : α) :
    walkBits tree emit bits (name p) acc =
      match emitAll emit (decodeBits huffTable p bits).1 acc with
      | .error e => .error e
      | .ok acc => .ok (name (decodeBits huffTable p bits).2, acc) := by
  induction bits generalizing p q s acc with
  | nil => rfl
  | cons b bits ih =>
    obtain ⟨n, u, hbehind⟩ := huffTable_full.exists_behind hq hmem b
    have hp : p ∈ words := (hwords p).mpr ⟨_, hmem, prefix_append p q⟩
    have hpb : p ++ [b] ∈ words := (hwords _).mpr ⟨_, hbehind, ⟨List.replicate n false, by simp⟩⟩
    have hchild : tree.child b (name p) = some (name (p ++ [b])) := by
      rw [h.child p hp b, if_pos hpb]
    rw [walkBits, huffWalkBit, hchild, decodeBits]
    simp only [h.label _ hpb]
    cases hlook : lookup huffTable (p ++ [b]) with
    | some sym =>
      have hcode := mem_of_lookup hlook
      dsimp only [emitAll]
      cases emitSym emit acc sym with
      | error e => rfl
      | ok acc =>
        have hrest := ih (p := []) hcode (by simp) acc
        rw [h.name_nil] at hrest
        exact hrest
    | none =>
      rw [append_cons] at hbehind
      have hzeros : List.replicate n false ≠ [] := by
        intro hnil
        rw [hnil, append_nil, ← huffTable_full.lookup_eq_some_iff, hlook] at hbehind
        cases hbehind
      exact ih hbehind hzeros acc

/-- The decoders emit the symbols that the bits of the bytes spell in the table. -/
theorem decodeBytes_spells (arrays : HuffTree) (emit : α → Nat → Option α) (bytes : List UInt8)
    (acc : α) :
    decodeBytes (initHuffTree arrays) emit bytes 0 acc =
      emitAll emit (decodeBits huffTable [] (bitsOf bytes)).1 acc := by
  obtain ⟨words, name, hrep, hwords⟩ := BitTrie.represents_ofTable arrays huffTable_full
  obtain ⟨n, s, hmem⟩ := huffTable_full.exists_zeros
  have hwalk := walkBits_spells emit hrep hwords (p := []) hmem (huffTable_ne_nil _ hmem)
    (bitsOf bytes) acc
  rw [hrep.name_nil] at hwalk
  rw [initHuffTree_eq, decodeBytes_eq, hwalk]
  cases emitAll emit (decodeBits huffTable [] (bitsOf bytes)).1 acc with
  | error e => rfl
  | ok acc => rfl

/-- The tree has all children that the decoders look for. -/
theorem emitAll_ne_missing (emit : α → Nat → Option α) (syms : List Nat) (acc : α) :
    emitAll emit syms acc ≠ .error .missing := by
  induction syms generalizing acc with
  | nil => nofun
  | cons sym syms ih =>
    rw [emitAll, emitSym]
    by_cases heos : sym = huffEOS
    · rw [if_pos heos]
      nofun
    · rw [if_neg heos]
      cases emit acc sym with
      | none => nofun
      | some acc => exact ih acc

/-- With room for the symbols they are appended, unless the end of the string is among them. -/
theorem emitAll_appendRoom {maxLen : Nat} {syms : List Nat} {arr : List UInt8}
    (h : arr.length + syms.length ≤ maxLen) :
    emitAll (appendRoom maxLen) syms arr =
      if huffEOS ∈ syms then .error .eos
      else .ok (arr ++ syms.map fun sym => UInt8.ofNat (sym % 256)) := by
  induction syms generalizing arr with
  | nil => rw [emitAll, if_neg not_mem_nil, map_nil, append_nil]
  | cons sym syms ih =>
    rw [length_cons] at h
    rw [emitAll, emitSym]
    by_cases heos : sym = huffEOS
    · rw [if_pos heos, if_pos (heos ▸ mem_cons_self)]
    · have hmem : huffEOS ∈ sym :: syms ↔ huffEOS ∈ syms := by
        rw [mem_cons]
        exact or_iff_right fun heq => heos heq.symm
      have hroom : appendRoom maxLen arr sym = some (arr ++ [UInt8.ofNat (sym % 256)]) :=
        if_neg (by omega)
      have hrest := @ih (arr ++ [UInt8.ofNat (sym % 256)]) (by simp; omega)
      simp only [if_neg heos, hroom, hrest, hmem, map_cons, append_assoc, singleton_append]

/-- No decoder writes more than there is room for. -/
theorem length_of_emitAll {maxLen : Nat} {syms : List Nat} {arr arr' : List UInt8}
    (h : emitAll (appendRoom maxLen) syms arr = .ok arr') (harr : arr.length ≤ maxLen) :
    arr'.length ≤ maxLen := by
  induction syms generalizing arr with
  | nil =>
    cases h
    exact harr
  | cons sym syms ih =>
    rw [emitAll, emitSym, appendRoom] at h
    by_cases heos : sym = huffEOS
    · rw [if_pos heos] at h
      cases h
    · rw [if_neg heos] at h
      by_cases hfull : arr.length ≥ maxLen
      · rw [if_pos hfull] at h
        cases h
      · rw [if_neg hfull] at h
        exact ih h (by simp; omega)

theorem emitAll_count (syms : List Nat) (n : Nat) :
    emitAll (fun count _ => some (count + 1)) syms n =
      if huffEOS ∈ syms then .error .eos else .ok (n + syms.length) := by
  induction syms generalizing n with
  | nil => rfl
  | cons sym syms ih =>
    rw [emitAll, emitSym]
    by_cases heos : sym = huffEOS
    · rw [if_pos heos, if_pos (heos ▸ mem_cons_self)]
    · have hmem : huffEOS ∈ sym :: syms ↔ huffEOS ∈ syms := by
        rw [mem_cons]
        exact or_iff_right fun heq => heos heq.symm
      simp only [if_neg heos, ih, hmem, length_cons, Nat.add_assoc, Nat.add_comm 1]

theorem decodeBits_length (p bits : List Bool) :
    (decodeBits huffTable p bits).1.length ≤ bits.length := by
  induction bits generalizing p with
  | nil => exact Nat.le_refl 0
  | cons b bits ih =>
    rw [decodeBits]
    cases lookup huffTable (p ++ [b]) with
    | some s => exact Nat.succ_le_succ (ih [])
    | none => exact Nat.le_succ_of_le (ih (p ++ [b]))

theorem bitsOf_length (bytes : List UInt8) : (bitsOf bytes).length = 8 * bytes.length := by
  induction bytes with
  | nil => rfl
  | cons byt bytes ih =>
    have hcons : bitsOf (byt :: bytes) = lowBits byt.toNat 8 ++ bitsOf bytes := rfl
    rw [hcons, length_append, ih, lowBits, length_map, length_range, length_cons]
    omega

end Decode

end Mx.Http2
