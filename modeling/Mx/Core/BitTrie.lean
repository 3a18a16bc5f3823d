import Mx.Core.PrefixCode

/-!
# Trees of bits in arrays

A tree whose nodes are numbered in the order in which they are made, with an array of children for
each bit and an array of labels. Inserting words makes the nodes of all fronts of them.
-/

namespace Mx.Core

open Function List

/-- The arrays of the tree with the number of nodes in use. -/
structure BitTrie (σ : Type) where
  child : Bool → Nat → Option Nat
  label : Nat → Option σ
  nodes : Nat

namespace BitTrie

variable {σ : Type}

/-- The tree with a root only. -/
def clear (t : BitTrie σ) : BitTrie σ where
  child b := update (t.child b) 0 none
  label := update t.label 0 none
  nodes := 1

/-- A new node becomes a child. -/
def grow (t : BitTrie σ) (node : Nat) (b : Bool) : BitTrie σ where
  child b' :=
    let cleared := update (t.child b') t.nodes none
    if b' = b then update cleared node (some t.nodes) else cleared
  label := update t.label t.nodes none
  nodes := t.nodes + 1

/-- The node of a word below a node, with the nodes that are made on the way. -/
def descend : List Bool → Nat → BitTrie σ → Nat × BitTrie σ
  | [], node, t => (node, t)
  | b :: word, node, t =>
    match t.child b node with
    | some next => descend word next t
    | none => descend word t.nodes (t.grow node b)

/-- The node of a word is labelled. -/
def insert (t : BitTrie σ) (word : List Bool) (s : σ) : BitTrie σ :=
  let r := descend word 0 t
  { r.2 with label := update r.2.label r.1 (some s) }

/-! ## Words and nodes -/

/-- The words in the tree, the numbers of their nodes and their labels. -/
structure Represents (t : BitTrie σ) (words : Finset (List Bool)) (name : List Bool → Nat)
    (lab : List Bool → Option σ) : Prop where
  nil_mem : [] ∈ words
  closed : ∀ p b, p ++ [b] ∈ words → p ∈ words
  name_nil : name [] = 0
  name_lt : ∀ p ∈ words, name p < t.nodes
  inj : ∀ p ∈ words, ∀ q ∈ words, name p = name q → p = q
  child : ∀ p ∈ words, ∀ b,
    t.child b (name p) = if p ++ [b] ∈ words then some (name (p ++ [b])) else none
  label : ∀ p ∈ words, t.label (name p) = lab p
  lab_none : ∀ p, p ∉ words → lab p = none
  card : words.card = t.nodes

section Words

variable {t : BitTrie σ} {words : Finset (List Bool)} {name : List Bool → Nat}
  {lab : List Bool → Option σ} {p q : List Bool} {b : Bool}

theorem represents_clear (t : BitTrie σ) :
    Represents t.clear {[]} (fun _ => 0) fun _ => none where
  nil_mem := Finset.mem_singleton_self _
  closed p b h := absurd (Finset.mem_singleton.mp h) (by simp)
  name_nil := rfl
  name_lt _ _ := Nat.one_pos
  inj p hp q hq _ := (Finset.mem_singleton.mp hp).trans (Finset.mem_singleton.mp hq).symm
  child p hp b := by
    rw [if_neg (by simp)]
    change update (t.child b) 0 none 0 = none
    rw [update_self]
  label p hp := by
    change update t.label 0 none 0 = none
    rw [update_self]
  lab_none _ _ := rfl
  card := rfl

theorem grow_child_same (t : BitTrie σ) (node : Nat) (b : Bool) :
    (t.grow node b).child b node = some t.nodes := by
  rw [grow]
  simp

theorem grow_child_new (t : BitTrie σ) {node : Nat} (b b' : Bool) (h : t.nodes ≠ node) :
    (t.grow node b).child b' t.nodes = none := by
  rw [grow]
  dsimp only
  split
  · rw [update_of_ne h, update_self]
  · rw [update_self]

theorem grow_child_old (t : BitTrie σ) {node n : Nat} {b b' : Bool} (hn : n ≠ t.nodes)
    (h : ¬(b' = b ∧ n = node)) : (t.grow node b).child b' n = t.child b' n := by
  rw [grow]
  dsimp only
  split
  · next hb => rw [update_of_ne fun hnode => h ⟨hb, hnode⟩, update_of_ne hn]
  · rw [update_of_ne hn]

/-- The new node stands for the word that it lengthens by a bit. -/
theorem Represents.grow (h : Represents t words name lab) (hp : p ∈ words) (hq : p ++ [b] ∉ words) :
    Represents (t.grow (name p) b) (Insert.insert (p ++ [b]) words)
      (update name (p ++ [b]) t.nodes) lab := by
  have hold : ∀ r ∈ words, update name (p ++ [b]) t.nodes r = name r := by
    intro r hr
    have hne : r ≠ p ++ [b] := by
      rintro rfl
      exact hq hr
    rw [update_of_ne hne]
  have hnew : update name (p ++ [b]) t.nodes (p ++ [b]) = t.nodes :=
    update_self ..
  have hne : ∀ r ∈ words, name r ≠ t.nodes := fun r hr => Nat.ne_of_lt (h.name_lt r hr)
  refine ⟨Finset.mem_insert_of_mem h.nil_mem, ?_, ?_, ?_, ?_, ?_, ?_, ?_, ?_⟩
  · intro r x hr
    obtain heq | hmem := Finset.mem_insert.mp hr
    · obtain ⟨rfl, -⟩ := append_inj' heq rfl
      exact Finset.mem_insert_of_mem hp
    · exact Finset.mem_insert_of_mem (h.closed r x hmem)
  · rw [hold [] h.nil_mem, h.name_nil]
  · intro r hr
    change _ < t.nodes + 1
    obtain rfl | hmem := Finset.mem_insert.mp hr
    · rw [hnew]
      exact Nat.lt_succ_self _
    · rw [hold r hmem]
      exact Nat.lt_succ_of_lt (h.name_lt r hmem)
  · intro r hr r' hr' heq
    obtain rfl | hmem := Finset.mem_insert.mp hr
    · obtain rfl | hmem' := Finset.mem_insert.mp hr'
      · rfl
      · rw [hnew, hold r' hmem'] at heq
        exact absurd heq.symm (hne r' hmem')
    · obtain rfl | hmem' := Finset.mem_insert.mp hr'
      · rw [hnew, hold r hmem] at heq
        exact absurd heq (hne r hmem)
      · rw [hold r hmem, hold r' hmem'] at heq
        exact h.inj r hmem r' hmem' heq
  · intro r hr x
    obtain rfl | hmem := Finset.mem_insert.mp hr
    · have hlonger : p ++ [b] ++ [x] ∉ Insert.insert (p ++ [b]) words := by
        intro hin
        obtain heq | hin := Finset.mem_insert.mp hin
        · have hlen := congrArg List.length heq
          simp at hlen
        · exact hq (h.closed _ x hin)
      rw [hnew, grow_child_new t b x (hne p hp).symm, if_neg hlonger]
    · rw [hold r hmem]
      by_cases hsame : x = b ∧ name r = name p
      · obtain ⟨rfl, hname⟩ := hsame
        obtain rfl := h.inj r hmem p hp hname
        rw [grow_child_same, if_pos (Finset.mem_insert_self _ _), hnew]
      · have hother : r ++ [x] ≠ p ++ [b] := by
          intro heq
          obtain ⟨rfl, hx⟩ := append_inj' heq rfl
          exact hsame ⟨singleton_injective hx, rfl⟩
        rw [grow_child_old t (hne r hmem) hsame, h.child r hmem x]
        by_cases hin : r ++ [x] ∈ words
        · rw [if_pos hin, if_pos (Finset.mem_insert_of_mem hin), hold _ hin]
        · have hout : r ++ [x] ∉ Insert.insert (p ++ [b]) words := fun hmem =>
            (Finset.mem_insert.mp hmem).elim hother hin
          rw [if_neg hin, if_neg hout]
  · intro r hr
    change update t.label t.nodes none _ = _
    obtain rfl | hmem := Finset.mem_insert.mp hr
    · rw [hnew, update_self, h.lab_none _ hq]
    · rw [hold r hmem, update_of_ne (hne r hmem), h.label r hmem]
  · intro r hr
    exact h.lab_none r fun hmem => hr (Finset.mem_insert_of_mem hmem)
  · rw [Finset.card_insert_of_notMem hq, h.card]
    rfl

/-- Descending makes the nodes of the fronts of the word. -/
theorem Represents.descend (h : Represents t words name lab) (hp : p ∈ words) (word : List Bool) :
    ∃ words' name', Represents (BitTrie.descend word (name p) t).2 words' name' lab ∧
      (BitTrie.descend word (name p) t).1 = name' (p ++ word) ∧ p ++ word ∈ words' ∧
      ∀ q, q ∈ words' ↔ q ∈ words ∨ p <+: q ∧ q <+: p ++ word := by
  induction word generalizing t words name p with
  | nil =>
    rw [append_nil]
    refine ⟨words, name, h, rfl, hp, fun q => ⟨.inl, ?_⟩⟩
    rintro (hq | ⟨hpq, hqp⟩)
    · exact hq
    · rwa [← hpq.eq_of_length_le hqp.length_le]
  | cons b word ih =>
    have hfronts : ∀ q, q ≠ p → p <+: q → q <+: p ++ b :: word → p ++ [b] <+: q := by
      rintro q hne ⟨r, rfl⟩ hq
      obtain hr | ⟨x, r, rfl⟩ : r = [] ∨ ∃ x r', r = x :: r' := by
        cases r with
        | nil => exact .inl rfl
        | cons x r => exact .inr ⟨x, r, rfl⟩
      · exact absurd (by rw [hr, append_nil]) hne
      · obtain ⟨rfl, -⟩ := cons_prefix_cons.mp ((prefix_append_right_inj p).mp hq)
        exact ⟨r, by simp⟩
    have hnext : ∀ q, (p ++ [b] <+: q ∧ q <+: p ++ b :: word) ∨ q = p ↔
        p <+: q ∧ q <+: p ++ b :: word := by
      intro q
      constructor
      · rintro (⟨hpq, hq⟩ | rfl)
        · exact ⟨(prefix_append p [b]).trans hpq, hq⟩
        · exact ⟨prefix_rfl, prefix_append _ _⟩
      · rintro ⟨hpq, hq⟩
        by_cases hne : q = p
        · exact .inr hne
        · exact .inl ⟨hfronts q hne hpq hq, hq⟩
    have hchild := h.child p hp b
    rw [BitTrie.descend, hchild]
    by_cases hmem : p ++ [b] ∈ words
    · rw [if_pos hmem]
      obtain ⟨words', name', hrep, hnode, hin, hwords⟩ := ih h hmem
      rw [← append_cons] at hnode hin hwords
      refine ⟨words', name', hrep, hnode, hin, fun q => ?_⟩
      rw [hwords, ← hnext]
      constructor
      · rintro (hq | hq)
        · exact .inl hq
        · exact .inr (.inl hq)
      · rintro (hq | hq | rfl)
        · exact .inl hq
        · exact .inr hq
        · exact .inl hp
    · rw [if_neg hmem]
      have hgrow := h.grow hp hmem
      obtain ⟨words', name', hrep, hnode, hin, hwords⟩ := ih hgrow (Finset.mem_insert_self _ _)
      rw [update_self] at hrep hnode
      rw [← append_cons] at hnode hin hwords
      refine ⟨words', name', hrep, hnode, hin, fun q => ?_⟩
      rw [hwords, ← hnext, Finset.mem_insert]
      constructor
      · rintro ((rfl | hq) | hq)
        · exact .inr (.inl ⟨prefix_rfl, ⟨word, by simp⟩⟩)
        · exact .inl hq
        · exact .inr (.inl hq)
      · rintro (hq | hq | rfl)
        · exact .inl (.inr hq)
        · exact .inr hq
        · exact .inl (.inr hp)

/-- Inserting a word adds its fronts and sets its label. -/
theorem Represents.insert (h : Represents t words name lab) (word : List Bool) (s : σ) :
    ∃ words' name', Represents (t.insert word s) words' name'
        (update lab word (some s)) ∧ ∀ q, q ∈ words' ↔ q ∈ words ∨ q <+: word := by
  obtain ⟨words', name', hrep, hnode, hin, hwords⟩ := h.descend h.nil_mem word
  rw [h.name_nil] at hrep hnode
  rw [nil_append] at hnode hin
  refine ⟨words', name', ⟨hrep.nil_mem, hrep.closed, hrep.name_nil, hrep.name_lt, hrep.inj,
    hrep.child, fun p hp => ?_, fun p hp => ?_, hrep.card⟩, fun q => ?_⟩
  · change update (BitTrie.descend word 0 t).2.label (BitTrie.descend word 0 t).1 (some s)
      (name' p) = _
    rw [hnode]
    by_cases hpw : p = word
    · rw [hpw, update_self, update_self]
    · have hname : name' p ≠ name' word := fun heq => hpw (hrep.inj p hp word hin heq)
      rw [update_of_ne hname, update_of_ne hpw, hrep.label p hp]
  · have hpw : p ≠ word := by
      rintro rfl
      exact hp hin
    rw [update_of_ne hpw, hrep.lab_none p hp]
  · rw [hwords, nil_append]
    simp only [List.nil_prefix, true_and]

end Words

/-! ## Tables -/

section Tables

open PrefixCode

variable {table : List (List Bool × σ)} {p : List Bool} {s : σ}

/-- The code words of a table inserted one after the other. -/
def ofTable (t : BitTrie σ) (table : List (List Bool × σ)) : BitTrie σ :=
  table.foldl (fun t e => t.insert e.1 e.2) t.clear

/-- The labels that a table sets. -/
def labels (table : List (List Bool × σ)) (lab : List Bool → Option σ) : List Bool → Option σ :=
  table.foldl (fun lab e => update lab e.1 (some e.2)) lab

theorem labels_cases (table : List (List Bool × σ)) (lab : List Bool → Option σ) (p : List Bool) :
    (∃ s, labels table lab p = some s ∧ (p, s) ∈ table) ∨
      labels table lab p = lab p ∧ ∀ s, (p, s) ∉ table := by
  induction table generalizing lab with
  | nil => exact .inr ⟨rfl, fun _ => not_mem_nil⟩
  | cons e table ih =>
    obtain ⟨s, hlab, hmem⟩ | ⟨hlab, hnone⟩ := ih (update lab e.1 (some e.2))
    · exact .inl ⟨s, hlab, mem_cons_of_mem e hmem⟩
    · by_cases hp : p = e.1
      · rw [hp, update_self] at hlab
        rw [hp]
        exact .inl ⟨e.2, hlab, mem_cons_self⟩
      · rw [update_of_ne hp] at hlab
        refine .inr ⟨hlab, fun s hmem => ?_⟩
        obtain rfl | hmem := mem_cons.mp hmem
        · exact hp rfl
        · exact hnone s hmem

theorem labels_eq_lookup (h : Full table) : labels table (fun _ => none) = lookup table := by
  funext p
  obtain ⟨s, hlab, hmem⟩ | ⟨hlab, hnone⟩ := labels_cases table (fun _ => none) p
  · rw [hlab, h.lookup_eq_some_iff.mpr hmem]
  · rw [hlab]
    cases hlook : lookup table p with
    | none => rfl
    | some s => exact absurd (mem_of_lookup hlook) (hnone s)

theorem Represents.inserts {t : BitTrie σ} {words : Finset (List Bool)} {name : List Bool → Nat}
    {lab : List Bool → Option σ} (h : Represents t words name lab)
    (table : List (List Bool × σ)) :
    ∃ words' name', Represents (table.foldl (fun t e => t.insert e.1 e.2) t) words' name'
        (labels table lab) ∧ ∀ q, q ∈ words' ↔ q ∈ words ∨ ∃ e ∈ table, q <+: e.1 := by
  induction table generalizing t words name lab with
  | nil => exact ⟨words, name, h, fun q => by simp⟩
  | cons e table ih =>
    obtain ⟨words₁, name₁, h₁, hwords₁⟩ := h.insert e.1 e.2
    obtain ⟨words', name', h', hwords'⟩ := ih h₁
    refine ⟨words', name', h', fun q => ?_⟩
    rw [hwords', hwords₁]
    simp only [mem_cons, exists_eq_or_imp, or_assoc]

/-- The tree of a full table has the fronts of the code words, labelled as the table says. -/
theorem represents_ofTable (t : BitTrie σ) (h : Full table) :
    ∃ words name, Represents (t.ofTable table) words name (lookup table) ∧
      ∀ q, q ∈ words ↔ ∃ e ∈ table, q <+: e.1 := by
  obtain ⟨words, name, hrep, hwords⟩ := (represents_clear t).inserts table
  rw [labels_eq_lookup h] at hrep
  refine ⟨words, name, hrep, fun q => ?_⟩
  rw [hwords, Finset.mem_singleton]
  refine ⟨?_, .inr⟩
  rintro (rfl | hq)
  · obtain ⟨n, s, hmem⟩ := h.exists_zeros
    exact ⟨_, hmem, List.nil_prefix⟩
  · exact hq

end Tables

end BitTrie

end Mx.Core
