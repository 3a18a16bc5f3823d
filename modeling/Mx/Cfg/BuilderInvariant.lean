import Mx.Cfg.Builder
import Mx.Core.Except

/-!
# What one builder operation can do

`CfgBuilder.Inv` is the invariant of CFG construction. `Grows` orders block lists
by the only changes the builder makes: new blocks are appended, statements are
appended to open blocks, and open blocks are sealed. `Scope` collects what a
construct may have done since it was entered: it wrote only to the block it
started in and to blocks it allocated, and it jumps only to such blocks or to the
exit of the enclosing loop.
-/

namespace Mx

open Mx.Core List

/-- What can happen to one block: a sealed block is final, an open one gains
statements and a terminator. -/
structure BlockGrows (b b' : BasicBlock) : Prop where
  id : b'.id = b.id
  handler : b'.handler = b.handler
  stmts : b.stmts <+: b'.stmts
  sealed : b.terminator.isSome → b' = b

theorem BlockGrows.refl (b : BasicBlock) : BlockGrows b b :=
  ⟨rfl, rfl, prefix_rfl, fun _ => rfl⟩

variable {b : BasicBlock} {bs bs' : List BasicBlock} {i : Nat}

theorem BlockGrows.trans {a c : BasicBlock} (h : BlockGrows a b) (k : BlockGrows b c) :
    BlockGrows a c := by
  refine ⟨k.id.trans h.id, k.handler.trans h.handler, h.stmts.trans k.stmts, ?_⟩
  intro ha
  obtain rfl := h.sealed ha
  exact k.sealed ha

/-- Every block of `bs` survives in `bs'`, possibly grown. -/
def Grows (bs bs' : List BasicBlock) : Prop :=
  ∀ (i : Nat) (b : BasicBlock), bs[i]? = some b → ∃ b', bs'[i]? = some b' ∧ BlockGrows b b'

theorem Grows.refl (bs : List BasicBlock) : Grows bs bs :=
  fun _ b hb => ⟨b, hb, BlockGrows.refl b⟩

theorem Grows.trans {as cs : List BasicBlock} (h : Grows as bs) (k : Grows bs cs) :
    Grows as cs := by
  intro i a ha
  obtain ⟨b, hb, hab⟩ := h i a ha
  obtain ⟨c, hc, hbc⟩ := k i b hb
  exact ⟨c, hc, hab.trans hbc⟩

/-- A sealed block is found unchanged in every later block list. -/
theorem Grows.sealed (h : Grows bs bs')
    (hb : bs[i]? = some b) (ht : b.terminator.isSome) : bs'[i]? = some b := by
  obtain ⟨b', hb', hg⟩ := h i b hb
  rw [hb', hg.sealed ht]

theorem Grows.length_le (h : Grows bs bs') :
    bs.length ≤ bs'.length := by
  by_contra hlt
  have hi : bs'.length < bs.length := by omega
  obtain ⟨b', hb', _⟩ := h bs'.length _ (getElem?_eq_getElem hi)
  simp at hb'

theorem grows_append (bs cs : List BasicBlock) : Grows bs (bs ++ cs) := by
  intro i b hb
  have hi := (List.getElem?_eq_some_iff.mp hb).1
  exact ⟨b, by rw [getElem?_append_left hi, hb], BlockGrows.refl b⟩

/-- Replacing one block by a grown version grows the list. -/
theorem grows_set {b' : BasicBlock} (hb : bs[i]? = some b)
    (hg : BlockGrows b b') : Grows bs (bs.set i b') := by
  intro j c hc
  by_cases hij : i = j
  · subst j
    obtain rfl := Option.some.inj (hb.symm.trans hc)
    have hi := (List.getElem?_eq_some_iff.mp hb).1
    exact ⟨b', by simp [hi], hg⟩
  · exact ⟨c, by rw [getElem?_set_ne hij, hc], BlockGrows.refl c⟩

namespace CfgBuilder

/-! ## The primitive operations -/

section Alloc

variable (st : CfgBuilder) (h : Option Nat)

@[simp] theorem alloc_blocks : (st.alloc h).blocks =
    st.blocks ++ [{ id := st.nextId, stmts := [], terminator := none, handler := h }] := rfl

@[simp] theorem alloc_current : (st.alloc h).current = st.current := rfl

@[simp] theorem alloc_loopExitStack : (st.alloc h).loopExitStack = st.loopExitStack := rfl

@[simp] theorem alloc_handlerStack : (st.alloc h).handlerStack = st.handlerStack := rfl

@[simp] theorem alloc_nextId : (st.alloc h).nextId = st.nextId + 1 := by simp [nextId]

/-- The allocated block is empty, open and has the requested handler. -/
theorem alloc_getElem?_nextId : (st.alloc h).blocks[st.nextId]? =
    some { id := st.nextId, stmts := [], terminator := none, handler := h } := by
  simp [nextId]

theorem alloc_getElem?_of_lt (hi : i < st.nextId) :
    (st.alloc h).blocks[i]? = st.blocks[i]? := by
  rw [alloc_blocks, getElem?_append_left hi]

end Alloc

theorem newBlock_eq (st : CfgBuilder) : st.newBlock = st.alloc st.handlerStack.head? := rfl

theorem newBlockNoHandler_eq (st : CfgBuilder) : st.newBlockNoHandler = st.alloc none := rfl

/-- Sealing succeeds exactly on an open current block. -/
theorem sealBlock_eq_ok {st st' : CfgBuilder} {t : Terminator} :
    st.sealBlock t = .ok st' ↔ ∃ i b, st.current = some i ∧ st.blocks[i]? = some b ∧
      b.terminator = none ∧
      st' = { st with blocks := st.blocks.set i { b with terminator := some t }
                      current := none } := by
  unfold sealBlock
  constructor
  · intro h
    split at h
    · cases h
    · rename_i i hi
      split at h
      · cases h
      · rename_i b hb
        split at h
        · cases h
        · rename_i ht
          cases h
          exact ⟨i, b, hi, hb, by simpa using ht, rfl⟩
  · rintro ⟨i, b, hi, hb, ht, rfl⟩
    simp [hi, hb, ht]

/-- Starting succeeds exactly when nothing is current and the block is open. -/
theorem startBlock_eq_ok {st st' : CfgBuilder} {id : Nat} :
    st.startBlock id = .ok st' ↔ st.current = none ∧ ∃ b, st.blocks[id]? = some b ∧
      b.terminator = none ∧ st' = { st with current := some id } := by
  unfold startBlock
  constructor
  · intro h
    split at h
    · cases h
    · rename_i hc
      split at h
      · cases h
      · rename_i b hb
        split at h
        · cases h
        · rename_i ht
          cases h
          exact ⟨hc, b, hb, by simpa using ht, rfl⟩
  · rintro ⟨hc, b, hb, ht, rfl⟩
    simp [hc, hb, ht]

@[simp] theorem pushStmt_current (st : CfgBuilder) (s : HirStmt) :
    (st.pushStmt s).current = st.current := by
  unfold pushStmt
  split <;> simp_all

@[simp] theorem pushStmt_loopExitStack (st : CfgBuilder) (s : HirStmt) :
    (st.pushStmt s).loopExitStack = st.loopExitStack := by
  unfold pushStmt
  split <;> rfl

@[simp] theorem pushStmt_handlerStack (st : CfgBuilder) (s : HirStmt) :
    (st.pushStmt s).handlerStack = st.handlerStack := by
  unfold pushStmt
  split <;> rfl

@[simp] theorem pushStmt_nextId (st : CfgBuilder) (s : HirStmt) :
    (st.pushStmt s).nextId = st.nextId := by
  unfold pushStmt nextId
  split <;> simp

theorem pushStmt_getElem?_ne {st : CfgBuilder} {s : HirStmt}
    (hi : st.current ≠ some i) : (st.pushStmt s).blocks[i]? = st.blocks[i]? := by
  unfold pushStmt
  split
  · rename_i j hj
    exact getElem?_modify_ne _ _ (fun he => hi (he ▸ hj))
  · rfl

/-- Appending puts the statement at the end of the current block. -/
theorem pushStmt_getElem?_current {st : CfgBuilder} {s : HirStmt}
    (hi : st.current = some i) (hb : st.blocks[i]? = some b) :
    (st.pushStmt s).blocks[i]? = some { b with stmts := b.stmts ++ [s] } := by
  simp [pushStmt, hi, hb]

@[simp] theorem pushStmts_nil (st : CfgBuilder) : st.pushStmts [] = st := rfl

@[simp] theorem pushStmts_cons (st : CfgBuilder) (s : HirStmt) (ss : List HirStmt) :
    st.pushStmts (s :: ss) = (st.pushStmt s).pushStmts ss := rfl

@[simp] theorem pushStmts_current (st : CfgBuilder) (ss : List HirStmt) :
    (st.pushStmts ss).current = st.current := by
  induction ss generalizing st with
  | nil => rfl
  | cons s ss ih => simp [ih]

@[simp] theorem pushStmts_loopExitStack (st : CfgBuilder) (ss : List HirStmt) :
    (st.pushStmts ss).loopExitStack = st.loopExitStack := by
  induction ss generalizing st with
  | nil => rfl
  | cons s ss ih => simp [ih]

@[simp] theorem pushStmts_handlerStack (st : CfgBuilder) (ss : List HirStmt) :
    (st.pushStmts ss).handlerStack = st.handlerStack := by
  induction ss generalizing st with
  | nil => rfl
  | cons s ss ih => simp [ih]

theorem pushStmts_getElem?_ne {st : CfgBuilder} {ss : List HirStmt}
    (hi : st.current ≠ some i) : (st.pushStmts ss).blocks[i]? = st.blocks[i]? := by
  induction ss generalizing st with
  | nil => rfl
  | cons s ss ih =>
    rw [pushStmts_cons, ih (by simpa using hi), pushStmt_getElem?_ne hi]

theorem pushStmts_getElem?_current {st : CfgBuilder} {ss : List HirStmt}
    (hi : st.current = some i) (hb : st.blocks[i]? = some b) :
    (st.pushStmts ss).blocks[i]? = some { b with stmts := b.stmts ++ ss } := by
  induction ss generalizing st b with
  | nil => simpa using hb
  | cons s ss ih =>
    rw [pushStmts_cons, ih (by simpa using hi) (pushStmt_getElem?_current hi hb)]
    simp

end CfgBuilder

/-! ## The invariant -/

/-- The invariant of CFG construction. -/
structure CfgBuilder.Inv (st : CfgBuilder) : Prop where
  /-- Blocks carry their position. -/
  ids : ∀ (i : Nat) (b : BasicBlock), st.blocks[i]? = some b → b.id = i
  /-- The entry block is in no handler region. -/
  entry : ∃ b, st.blocks[0]? = some b ∧ b.handler = none
  /-- The current block is allocated and open. -/
  current : ∀ i : Nat, st.current = some i → ∃ b, st.blocks[i]? = some b ∧ b.terminator = none
  /-- Jumps stay inside the graph and never return to the entry. -/
  targets : ∀ (i : Nat) (b : BasicBlock), st.blocks[i]? = some b →
    ∀ s ∈ b.successors, 0 < s ∧ s < st.nextId
  /-- A handler is a block outside every handler region. -/
  handlers : ∀ (i : Nat) (b : BasicBlock) (h : Nat), st.blocks[i]? = some b →
    b.handler = some h → ∃ c, st.blocks[h]? = some c ∧ c.handler = none
  /-- Loop exits are allocated blocks other than the entry. -/
  exits : ∀ x ∈ st.loopExitStack, 0 < x ∧ x < st.nextId
  /-- Active catch blocks are outside every handler region. -/
  catches : ∀ h ∈ st.handlerStack, ∃ c, st.blocks[h]? = some c ∧ c.handler = none

theorem CfgBuilder.inv_new : CfgBuilder.new.Inv where
  ids i b hb := by
    cases i with
    | zero => cases hb; rfl
    | succ i => simp [CfgBuilder.new] at hb
  entry := ⟨_, rfl, rfl⟩
  current i hi := by cases hi; exact ⟨_, rfl, rfl⟩
  targets i b hb := by
    cases i with
    | zero => cases hb; simp [BasicBlock.successors]
    | succ i => simp [CfgBuilder.new] at hb
  handlers i b h hb hh := by
    cases i with
    | zero => cases hb; cases hh
    | succ i => simp [CfgBuilder.new] at hb
  exits := by simp [CfgBuilder.new]
  catches := by simp [CfgBuilder.new]

theorem CfgBuilder.Inv.nextId_pos {st : CfgBuilder} (h : st.Inv) : 0 < st.nextId := by
  obtain ⟨b, hb, _⟩ := h.entry
  exact (List.getElem?_eq_some_iff.mp hb).1

/-- A block outside every region stays there. -/
theorem Grows.noHandler (h : Grows bs bs')
    (hi : ∃ c, bs[i]? = some c ∧ c.handler = none) : ∃ c, bs'[i]? = some c ∧ c.handler = none := by
  obtain ⟨c, hc, hn⟩ := hi
  obtain ⟨c', hc', hg⟩ := h i c hc
  exact ⟨c', hc', hg.handler.trans hn⟩

/-- Everything a construct entered at `st₀` may have done by the time it is at `st`. -/
structure Scope (st₀ st : CfgBuilder) : Prop where
  base : st₀.Inv
  inv : st.Inv
  grows : Grows st₀.blocks st.blocks
  /-- Older blocks other than the one the construct started in are untouched. -/
  keep : ∀ i : Nat, i < st₀.nextId → st₀.current ≠ some i → st.blocks[i]? = st₀.blocks[i]?
  current : ∀ i : Nat, st.current = some i → st₀.current = some i ∨ st₀.nextId ≤ i
  /-- New jumps lead to new blocks or to the exit of the enclosing loop. -/
  targets : ∀ (i : Nat) (b : BasicBlock), st.blocks[i]? = some b →
    (∃ b₀, st₀.blocks[i]? = some b₀ ∧ b₀.successors = b.successors) ∨
      ∀ s ∈ b.successors, st₀.nextId ≤ s ∨ st₀.loopExitStack.head? = some s
  /-- New blocks are handled by the enclosing catch block or by a new one. -/
  handlers : ∀ (i : Nat) (b : BasicBlock) (h : Nat), st₀.nextId ≤ i →
    st.blocks[i]? = some b → b.handler = some h →
      st₀.handlerStack.head? = some h ∨ st₀.nextId ≤ h
  exits : ∀ x : Nat, st.loopExitStack.head? = some x →
    st₀.loopExitStack.head? = some x ∨ st₀.nextId ≤ x
  catches : ∀ h : Nat, st.handlerStack.head? = some h →
    st₀.handlerStack.head? = some h ∨ st₀.nextId ≤ h

namespace Scope

variable {st₀ st st' : CfgBuilder}

theorem refl (h : st.Inv) : Scope st st where
  base := h
  inv := h
  grows := Grows.refl _
  keep _ _ _ := rfl
  current _ hi := Or.inl hi
  targets _ b hb := Or.inl ⟨b, hb, rfl⟩
  handlers i _ _ hi hb _ := by
    have := (List.getElem?_eq_some_iff.mp hb).1
    exact absurd hi (Nat.not_le.mpr this)
  exits _ hx := Or.inl hx
  catches _ hh := Or.inl hh

theorem nextId_le (h : Scope st₀ st) : st₀.nextId ≤ st.nextId := h.grows.length_le

theorem trans (h : Scope st₀ st) (k : Scope st st') : Scope st₀ st' where
  base := h.base
  inv := k.inv
  grows := h.grows.trans k.grows
  keep i hi hne := by
    have hne' : st.current ≠ some i := by
      intro hc
      rcases h.current i hc with h0 | h0
      · exact hne h0
      · omega
    rw [k.keep i (by have := h.nextId_le; omega) hne', h.keep i hi hne]
  current i hi := by
    rcases k.current i hi with hc | hc
    · exact h.current i hc
    · exact Or.inr (Nat.le_trans h.nextId_le hc)
  targets i b hb := by
    rcases k.targets i b hb with ⟨b₁, hb₁, he⟩ | hs
    · rcases h.targets i b₁ hb₁ with ⟨b₀, hb₀, he'⟩ | hs
      · exact Or.inl ⟨b₀, hb₀, he'.trans he⟩
      · exact Or.inr (by rw [← he]; exact hs)
    · right
      intro s hm
      rcases hs s hm with hn | hx
      · exact Or.inl (Nat.le_trans h.nextId_le hn)
      · exact (h.exits s hx).symm
  handlers i b x hi hb hx := by
    by_cases hlt : i < st.nextId
    · obtain ⟨b', hb', hg⟩ := k.grows i st.blocks[i] (getElem?_eq_getElem hlt)
      obtain rfl := Option.some.inj (hb'.symm.trans hb)
      exact h.handlers i _ x hi (getElem?_eq_getElem hlt) (hg.handler.symm.trans hx)
    · rcases k.handlers i b x (by omega) hb hx with hc | hc
      · exact h.catches x hc
      · exact Or.inr (Nat.le_trans h.nextId_le hc)
  exits x hx := by
    rcases k.exits x hx with hc | hc
    · exact h.exits x hc
    · exact Or.inr (Nat.le_trans h.nextId_le hc)
  catches x hx := by
    rcases k.catches x hx with hc | hc
    · exact h.catches x hc
    · exact Or.inr (Nat.le_trans h.nextId_le hc)

/-- A block that existed when the construct was entered and is not being written
to is found as it was. -/
theorem unchanged (h : Scope st₀ st) (hb : st₀.blocks[i]? = some b)
    (hi : st₀.current ≠ some i) : st.blocks[i]? = some b := by
  rw [h.keep i (List.getElem?_eq_some_iff.mp hb).1 hi, hb]

/-- Allocation in the current region or outside every region. -/
theorem alloc (h : Scope st₀ st) {hd : Option Nat}
    (hhd : hd = none ∨ hd = st.handlerStack.head?) : Scope st₀ (st.alloc hd) := by
  have hgrow : Grows st.blocks (st.alloc hd).blocks := grows_append _ _
  -- every block of the extended list is an old one or the new empty one
  have hlook : ∀ (i : Nat) (b : BasicBlock), (st.alloc hd).blocks[i]? = some b →
      st.blocks[i]? = some b ∨ i = st.nextId ∧ b = ⟨st.nextId, [], none, hd⟩ := by
    intro i b hb
    rcases Nat.lt_trichotomy i st.nextId with hlt | heq | hgt
    · exact Or.inl (by rwa [st.alloc_getElem?_of_lt hd hlt] at hb)
    · subst i
      rw [st.alloc_getElem?_nextId hd] at hb
      exact Or.inr ⟨rfl, (Option.some.inj hb).symm⟩
    · have hi : i < (st.alloc hd).nextId := (List.getElem?_eq_some_iff.mp hb).1
      rw [CfgBuilder.alloc_nextId] at hi
      omega
  have hhandler : ∀ x : Nat, hd = some x → st.handlerStack.head? = some x := by
    rintro x rfl
    exact hhd.elim (fun hn => by cases hn) Eq.symm
  refine h.trans ⟨h.inv, ?_, hgrow, fun i hi _ => st.alloc_getElem?_of_lt hd hi,
    fun i hi => Or.inl hi, ?_, ?_, fun x hx => Or.inl hx, fun x hx => Or.inl hx⟩
  · refine ⟨?_, ?_, ?_, ?_, ?_, ?_, fun x hx => hgrow.noHandler (h.inv.catches x hx)⟩
    · intro i b hb
      rcases hlook i b hb with hb | ⟨rfl, rfl⟩
      · exact h.inv.ids i b hb
      · rfl
    · exact hgrow.noHandler h.inv.entry
    · intro i hi
      obtain ⟨b, hb, ht⟩ := h.inv.current i hi
      have hlt : i < st.nextId := (List.getElem?_eq_some_iff.mp hb).1
      exact ⟨b, by rw [st.alloc_getElem?_of_lt hd hlt, hb], ht⟩
    · intro i b hb s hs
      rcases hlook i b hb with hb | ⟨rfl, rfl⟩
      · have := h.inv.targets i b hb s hs
        rw [CfgBuilder.alloc_nextId]
        omega
      · simp [BasicBlock.successors] at hs
    · intro i b x hb hx
      rcases hlook i b hb with hb | ⟨rfl, rfl⟩
      · exact hgrow.noHandler (h.inv.handlers i b x hb hx)
      · exact hgrow.noHandler (h.inv.catches x (mem_of_head? (hhandler x hx)))
    · intro x hx
      have := h.inv.exits x hx
      rw [CfgBuilder.alloc_nextId]
      omega
  · intro i b hb
    rcases hlook i b hb with hb | ⟨rfl, rfl⟩
    · exact Or.inl ⟨b, hb, rfl⟩
    · exact Or.inr (by simp [BasicBlock.successors])
  · intro i b x hi hb hx
    rcases hlook i b hb with hb | ⟨rfl, rfl⟩
    · exact absurd hi (Nat.not_le.mpr (List.getElem?_eq_some_iff.mp hb).1)
    · exact Or.inl (hhandler x hx)

theorem newBlock (h : Scope st₀ st) : Scope st₀ st.newBlock := h.alloc (Or.inr rfl)

theorem newBlockNoHandler (h : Scope st₀ st) : Scope st₀ st.newBlockNoHandler :=
  h.alloc (Or.inl rfl)

/-- A target a construct entered at `st₀` may jump to once it is at `st`. -/
def Allowed (st₀ st : CfgBuilder) (s : Nat) : Prop :=
  (st₀.nextId ≤ s ∧ s < st.nextId) ∨ st₀.loopExitStack.head? = some s

theorem Allowed.mono {st₀ st st' : CfgBuilder} {s : Nat} (h : Allowed st₀ st s)
    (hn : st.nextId ≤ st'.nextId) : Allowed st₀ st' s := by
  rcases h with h | h
  · exact Or.inl ⟨h.1, by omega⟩
  · exact Or.inr h

/-- Rewriting the current block into a grown one with allowed successors. -/
theorem setCurrent (h : Scope st₀ st) {b' : BasicBlock} {cur : Option Nat}
    (hi : st.current = some i) (hb : st.blocks[i]? = some b) (hg : BlockGrows b b')
    (hcur : cur = none ∨ cur = some i ∧ b'.terminator = none)
    (hs : ∀ s ∈ b'.successors, Allowed st₀ st s) :
    Scope st₀ { st with blocks := st.blocks.set i b', current := cur } := by
  have hlen : i < st.blocks.length := (List.getElem?_eq_some_iff.mp hb).1
  have hgrow : Grows st.blocks (st.blocks.set i b') := grows_set hb hg
  have hlook : ∀ (j : Nat) (c : BasicBlock), (st.blocks.set i b')[j]? = some c →
      st.blocks[j]? = some c ∨ j = i ∧ c = b' := by
    intro j c hc
    by_cases hij : i = j
    · subst j
      right
      simpa [hlen, eq_comm] using hc
    · exact Or.inl (by rwa [getElem?_set_ne hij] at hc)
  have hnext : ({ st with blocks := st.blocks.set i b', current := cur } : CfgBuilder).nextId =
      st.nextId := by simp [CfgBuilder.nextId]
  have hi0 := h.current i hi
  refine ⟨h.base, ⟨?_, ?_, ?_, ?_, ?_, ?_, ?_⟩, h.grows.trans hgrow, ?_, ?_, ?_, ?_,
    h.exits, h.catches⟩
  · intro j c hc
    rcases hlook j c hc with hc | ⟨rfl, rfl⟩
    · exact h.inv.ids j c hc
    · exact hg.id.trans (h.inv.ids j b hb)
  · exact hgrow.noHandler h.inv.entry
  · intro j hj
    rcases hcur with hn | ⟨hc, ht⟩
    · rw [hn] at hj
      cases hj
    · rw [hc] at hj
      cases hj
      exact ⟨b', by simp [hlen], ht⟩
  · intro j c hc s hm
    rw [hnext]
    rcases hlook j c hc with hc | ⟨rfl, rfl⟩
    · exact h.inv.targets j c hc s hm
    · rcases hs s hm with ⟨hl, hr⟩ | hx
      · have := h.base.nextId_pos
        omega
      · have := h.base.exits s (mem_of_head? hx)
        have := h.nextId_le
        omega
  · intro j c x hc hx
    rcases hlook j c hc with hc | ⟨rfl, rfl⟩
    · exact hgrow.noHandler (h.inv.handlers j c x hc hx)
    · exact hgrow.noHandler (h.inv.handlers j b x hb (hg.handler.symm.trans hx))
  · intro x hx
    rw [hnext]
    exact h.inv.exits x hx
  · exact fun x hx => hgrow.noHandler (h.inv.catches x hx)
  · intro j hj hne
    have hij : i ≠ j := by
      rintro rfl
      rcases hi0 with h0 | h0
      · exact hne h0
      · omega
    rw [← h.keep j hj hne]
    exact getElem?_set_ne hij
  · intro j hj
    rcases hcur with hn | ⟨hc, _⟩
    · rw [hn] at hj
      cases hj
    · rw [hc] at hj
      cases hj
      exact hi0
  · intro j c hc
    rcases hlook j c hc with hc | ⟨rfl, rfl⟩
    · exact h.targets j c hc
    · exact Or.inr fun s hm => (hs s hm).imp And.left id
  · intro j c x hj hc hx
    rcases hlook j c hc with hc | ⟨rfl, rfl⟩
    · exact h.handlers j c x hj hc hx
    · exact h.handlers j b x hj hb (hg.handler.symm.trans hx)

/-- Sealing with a terminator whose targets are allowed. -/
theorem sealBlock (h : Scope st₀ st) {t : Terminator} (hs : st.sealBlock t = .ok st')
    (ht : ∀ s ∈ t.successors, Allowed st₀ st s) : Scope st₀ st' := by
  obtain ⟨i, b, hi, hb, hopen, rfl⟩ := CfgBuilder.sealBlock_eq_ok.mp hs
  refine h.setCurrent hi hb ⟨rfl, rfl, prefix_rfl, ?_⟩ (Or.inl rfl) ?_
  · simp [hopen]
  · simpa [BasicBlock.successors] using ht

theorem pushStmt (h : Scope st₀ st) (s : HirStmt) : Scope st₀ (st.pushStmt s) := by
  cases hc : st.current with
  | none => simpa [CfgBuilder.pushStmt, hc] using h
  | some i =>
    obtain ⟨b, hb, ht⟩ := h.inv.current i hc
    have he : st.pushStmt s =
        { st with blocks := st.blocks.set i { b with stmts := b.stmts ++ [s] }
                  current := some i } := by
      have hm : st.blocks.modify i (fun b => { b with stmts := b.stmts ++ [s] }) =
          st.blocks.set i { b with stmts := b.stmts ++ [s] } := by
        apply ext_getElem?
        intro j
        by_cases hij : i = j
        · subst j
          have hlen := (List.getElem?_eq_some_iff.mp hb).1
          rw [getElem?_modify_eq, hb, getElem?_set_self hlen]
          rfl
        · rw [getElem?_modify_ne _ _ hij, getElem?_set_ne hij]
      simp only [CfgBuilder.pushStmt, hc, hm]
    rw [he]
    refine h.setCurrent hc hb ⟨rfl, rfl, prefix_append _ _, ?_⟩ (Or.inr ⟨rfl, ht⟩) ?_
    · simp [ht]
    · simp [BasicBlock.successors, ht]

theorem pushStmts (h : Scope st₀ st) (ss : List HirStmt) : Scope st₀ (st.pushStmts ss) := by
  induction ss generalizing st with
  | nil => exact h
  | cons s ss ih => exact ih (h.pushStmt s)

/-- Starting a block the construct allocated. -/
theorem startBlock (h : Scope st₀ st) {id : Nat} (hs : st.startBlock id = .ok st')
    (hid : st₀.nextId ≤ id) : Scope st₀ st' := by
  obtain ⟨_, b, hb, ht, rfl⟩ := CfgBuilder.startBlock_eq_ok.mp hs
  refine ⟨h.base, ⟨h.inv.ids, h.inv.entry, ?_, h.inv.targets, h.inv.handlers, h.inv.exits,
    h.inv.catches⟩, h.grows, h.keep, ?_, h.targets, h.handlers, h.exits, h.catches⟩
  · intro i hi
    cases hi
    exact ⟨b, hb, ht⟩
  · intro i hi
    cases hi
    exact Or.inr hid

/-- Changing the loop stack to one whose exits the construct knows. -/
theorem withLoopExits (h : Scope st₀ st) {xs : List Nat} (hinv : ∀ x ∈ xs, 0 < x ∧ x < st.nextId)
    (hx : ∀ x : Nat, xs.head? = some x → st₀.loopExitStack.head? = some x ∨ st₀.nextId ≤ x) :
    Scope st₀ { st with loopExitStack := xs } :=
  ⟨h.base, ⟨h.inv.ids, h.inv.entry, h.inv.current, h.inv.targets, h.inv.handlers, hinv,
    h.inv.catches⟩, h.grows, h.keep, h.current, h.targets, h.handlers, hx, h.catches⟩

/-- Changing the handler stack to one whose catch blocks the construct knows. -/
theorem withHandlers (h : Scope st₀ st) {hs : List Nat}
    (hinv : ∀ x ∈ hs, ∃ c, st.blocks[x]? = some c ∧ c.handler = none)
    (hh : ∀ x : Nat, hs.head? = some x → st₀.handlerStack.head? = some x ∨ st₀.nextId ≤ x) :
    Scope st₀ { st with handlerStack := hs } :=
  ⟨h.base, ⟨h.inv.ids, h.inv.entry, h.inv.current, h.inv.targets, h.inv.handlers, h.inv.exits,
    hinv⟩, h.grows, h.keep, h.current, h.targets, h.handlers, h.exits, hh⟩

end Scope

end Mx
