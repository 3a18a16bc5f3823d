import Mathlib

/-!
# Activations with static links

Procedures nested in procedures, run by two machines. In the first one every activation has storage
for all variables of its procedure and a link to an activation of the procedure around it, through
which the variables of that are reached. The second one has no links: some variables of a procedure
are kept in one static cell each, into which their initial values are copied on entry. The machines
agree as long as no procedure with variables in static cells is entered while it is active.
-/

namespace Mx.Core

open List

/-- Procedures with nested scopes. -/
structure Scopes (P X : Type) where
  declares : P → X → Prop
  /-- The procedure or one inside it mentions the variable. -/
  mentions : P → X → Prop
  /-- The second procedure is directly around the first. -/
  inside : P → P → Prop
  outermost : P → Prop

/-- Where the second machine keeps the variables. -/
structure Placement (P X G V : Type) where
  /-- The static cell through which a procedure reaches a variable, if it is not in its frame. -/
  place : P → X → Option G
  /-- The variables that are copied to static cells on entry. -/
  promoted : P → List (X × G)
  /-- What the entry stores for an initial value. -/
  copy : P → X → V → V

/-- What a run does. -/
inductive Event (P X G V : Type) where
  /-- A procedure is entered, with a link and initial values for its variables. -/
  | enter (p : P) (link : Option Nat) (init : X → V)
  | leave
  /-- The active procedure assigns to a variable. -/
  | write (x : X) (v : V)
  /-- A variable of an activation is assigned to through its address. -/
  | writeAt (h : Nat) (x : X) (v : V)
  /-- Something else than a variable of a procedure is assigned to. -/
  | elsewhere (g : G) (v : V)

variable {P X G V : Type}

/-- The activations with their links, the oldest first. -/
structure LinkState (P X V : Type) where
  stack : List (P × Option Nat)
  vars : Nat → X → V

/-- The activations of the second machine, and the static cells. -/
structure StaticState (P X G V : Type) where
  stack : List P
  vars : Nat → X → V
  cells : G → V

/-! ## The machine with links -/

/-- The activation that a name leads to, following the links. -/
inductive Locates (S : Scopes P X) (stack : List (P × Option Nat)) : Nat → X → Nat → Prop
  | here {h : Nat} {x : X} {p : P} {link : Option Nat} : stack[h]? = some (p, link) →
    S.declares p x → Locates S stack h x h
  | up {h k j : Nat} {x : X} {p : P} : stack[h]? = some (p, some k) → ¬ S.declares p x →
    Locates S stack k x j → Locates S stack h x j

/-- The activations that can be reached over links. -/
inductive Visible (stack : List (P × Option Nat)) : Nat → Nat → Prop
  | refl (h : Nat) : Visible stack h h
  | up {h k j : Nat} {p : P} : stack[h]? = some (p, some k) → Visible stack k j → Visible stack h j

namespace LinkState

variable [DecidableEq X]

/-- A new activation. -/
def push (s : LinkState P X V) (p : P) (link : Option Nat) (init : X → V) : LinkState P X V where
  stack := s.stack ++ [(p, link)]
  vars h := if h = s.stack.length then init else s.vars h

/-- A variable of an activation is overwritten. -/
def write (s : LinkState P X V) (h : Nat) (x : X) (v : V) : LinkState P X V :=
  { s with vars := fun i y => if i = h ∧ y = x then v else s.vars i y }

end LinkState

/-- The steps of the machine with links. The link of a new activation is to the activation of the
procedure around it that its caller can see. -/
inductive LinkStep [DecidableEq X] (S : Scopes P X) :
    LinkState P X V → Event P X G V → LinkState P X V → Prop
  | enterOutermost {s : LinkState P X V} {p : P} {init : X → V} : S.outermost p →
    LinkStep S s (.enter p none init) (s.push p none init)
  | enterInside {s : LinkState P X V} {p q : P} {k : Nat} {link : Option Nat} {init : X → V} :
    S.inside p q → s.stack[k]? = some (q, link) → Visible s.stack (s.stack.length - 1) k →
    LinkStep S s (.enter p (some k) init) (s.push p (some k) init)
  | leave {s : LinkState P X V} : LinkStep S s .leave { s with stack := s.stack.dropLast }
  | write {s : LinkState P X V} {p : P} {link : Option Nat} {k : Nat} {x : X} {v : V} :
    s.stack[s.stack.length - 1]? = some (p, link) → S.mentions p x →
    Locates S s.stack (s.stack.length - 1) x k → LinkStep S s (.write x v) (s.write k x v)
  | writeAt {s : LinkState P X V} {p : P} {link : Option Nat} {h : Nat} {x : X} {v : V} :
    s.stack[h]? = some (p, link) → S.declares p x →
    LinkStep S s (.writeAt h x v) (s.write h x v)
  | elsewhere {s : LinkState P X V} {g : G} {v : V} : LinkStep S s (.elsewhere g v) s

/-! ## The machine with static cells -/

/-- The initial values are copied to the static cells. -/
def promote [DecidableEq G] (cells : G → V) (value : X → V) (promoted : List (X × G)) : G → V :=
  promoted.foldl (fun cells xg g => if g = xg.2 then value xg.1 else cells g) cells

namespace StaticState

variable [DecidableEq X] [DecidableEq G]

/-- A static cell is overwritten. -/
def setCell (t : StaticState P X G V) (g : G) (v : V) : StaticState P X G V :=
  { t with cells := fun g' => if g' = g then v else t.cells g' }

/-- A variable in a frame is overwritten. -/
def setVar (t : StaticState P X G V) (h : Nat) (x : X) (v : V) : StaticState P X G V :=
  { t with vars := fun i y => if i = h ∧ y = x then v else t.vars i y }

/-- What a name holds in the code of an activation. -/
def read (pl : Placement P X G V) (t : StaticState P X G V) (h : Nat) (p : P) (x : X) : V :=
  match pl.place p x with
  | some g => t.cells g
  | none => t.vars h x

/-- The code of an activation assigns to a name. -/
def write (pl : Placement P X G V) (t : StaticState P X G V) (h : Nat) (p : P) (x : X) (v : V) :
    StaticState P X G V :=
  match pl.place p x with
  | some g => t.setCell g v
  | none => t.setVar h x v

/-- One step. -/
def step (pl : Placement P X G V) (t : StaticState P X G V) :
    Event P X G V → StaticState P X G V
  | .enter p _ init => {
      stack := t.stack ++ [p]
      vars := fun h => if h = t.stack.length then init else t.vars h
      cells := promote t.cells (fun x => pl.copy p x (init x)) (pl.promoted p) }
  | .leave => { t with stack := t.stack.dropLast }
  | .write x v => match t.stack[t.stack.length - 1]? with
    | some p => t.write pl (t.stack.length - 1) p x v
    | none => t
  | .writeAt h x v => match t.stack[h]? with
    | some p => t.write pl h p x v
    | none => t
  | .elsewhere g v => t.setCell g v

end StaticState

/-! ## Agreement -/

/-- The placement keeps a variable where its procedures look for it. -/
structure Placement.Sound (S : Scopes P X) (pl : Placement P X G V) : Prop where
  own : ∀ p x g, S.declares p x → pl.place p x = some g → (x, g) ∈ pl.promoted p
  promoted : ∀ p x g, (x, g) ∈ pl.promoted p → pl.place p x = some g
  promoted_inj : ∀ p x y g, (x, g) ∈ pl.promoted p → (y, g) ∈ pl.promoted p → x = y
  copy : ∀ p x g v, (x, g) ∈ pl.promoted p → pl.copy p x v = v
  inherit : ∀ p q x, S.mentions p x → ¬ S.declares p x → S.inside p q →
    S.mentions q x ∧ ∃ g, pl.place p x = some g ∧ pl.place q x = some g

/-- No activation on the stack keeps a variable in a static cell of the procedure. -/
def Placement.Free (pl : Placement P X G V) (p : P) (stack : List (P × Option Nat)) : Prop :=
  ∀ f ∈ stack, ∀ x y g, (x, g) ∈ pl.promoted p → (y, g) ∉ pl.promoted f.1

/-- The step enters no procedure whose static cells are in use. -/
def Event.Fresh (pl : Placement P X G V) (s : LinkState P X V) : Event P X G V → Prop
  | .enter p _ _ => pl.Free p s.stack
  | _ => True

/-- The step writes to no static cell of a procedure but by a name or an address of the variable
that is kept in it. -/
def Event.Separate (pl : Placement P X G V) : Event P X G V → Prop
  | .elsewhere g _ => ∀ p x, (x, g) ∉ pl.promoted p
  | _ => True

/-- The cell is the one that a variable of an activation is kept in. -/
def Placement.Keeps (pl : Placement P X G V) (stack : List (P × Option Nat)) (h : Nat) (x : X)
    (g : G) : Prop :=
  ∃ f, stack[h]? = some f ∧ (x, g) ∈ pl.promoted f.1

/-- The two machines hold the same, and no two activations share a cell. -/
structure Agree (S : Scopes P X) (pl : Placement P X G V) (s : LinkState P X V)
    (t : StaticState P X G V) : Prop where
  stack : t.stack = s.stack.map Prod.fst
  linked : ∀ (h : Nat) (p : P) (k : Nat), s.stack[h]? = some (p, some k) →
    k < h ∧ ∃ q link, s.stack[k]? = some (q, link) ∧ S.inside p q
  own : ∀ (h : Nat) f x, s.stack[h]? = some f → pl.place f.1 x = none → t.vars h x = s.vars h x
  cell : ∀ h x g, pl.Keeps s.stack h x g → t.cells g = s.vars h x
  alone : ∀ (h h' : Nat) f f' x y g, s.stack[h]? = some f → s.stack[h']? = some f' →
    (x, g) ∈ pl.promoted f.1 → (y, g) ∈ pl.promoted f'.1 → h = h'

section Agreement

variable {S : Scopes P X} {pl : Placement P X G V} {s s' : LinkState P X V}
  {t : StaticState P X G V}

variable {h : Nat} {x : X} {link : Option Nat}

/-- What a procedure inherits from the ones around it, it has from the one that declares the
variable. -/
theorem Agree.inherited {β : Type} (hs : pl.Sound S) (ha : Agree S pl s t) {A : P → X → β}
    (hA : ∀ p q x, S.mentions p x → ¬ S.declares p x → S.inside p q → A p x = A q x)
    {k : Nat} (hl : Locates S s.stack h x k) {p : P}
    (hp : s.stack[h]? = some (p, link)) (hm : S.mentions p x) :
    ∃ q link', s.stack[k]? = some (q, link') ∧ S.declares q x ∧ A p x = A q x := by
  induction hl generalizing p link with
  | @here h x q link' hq hd =>
    obtain ⟨rfl, rfl⟩ := Prod.mk.inj (Option.some.inj (hq.symm.trans hp))
    exact ⟨_, _, hq, hd, rfl⟩
  | @up h k j x q hq hd _ ih =>
    obtain ⟨rfl, rfl⟩ := Prod.mk.inj (Option.some.inj (hq.symm.trans hp))
    obtain ⟨_, q', link', hk, hin⟩ := ha.linked _ _ _ hq
    obtain ⟨hm', _⟩ := hs.inherit _ _ _ hm hd hin
    obtain ⟨owner, link'', hj, hown, heq⟩ := ih hk hm'
    exact ⟨owner, link'', hj, hown, (hA _ _ _ hm hd hin).trans heq⟩

/-- The code of a procedure reaches a variable where it is kept. -/
theorem Agree.keeps_of_locates (hs : pl.Sound S) (ha : Agree S pl s t) {k : Nat}
    (hl : Locates S s.stack h x k) {p : P}
    (hp : s.stack[h]? = some (p, link)) (hm : S.mentions p x) :
    (∀ g, pl.place p x = some g → pl.Keeps s.stack k x g) ∧ (pl.place p x = none → k = h) := by
  have hsame : ∀ p q x, S.mentions p x → ¬ S.declares p x → S.inside p q →
      pl.place p x = pl.place q x := by
    intro p q x hm hd hin
    obtain ⟨_, g, hpg, hqg⟩ := hs.inherit p q x hm hd hin
    rw [hpg, hqg]
  constructor
  · intro g hg
    obtain ⟨q, link', hk, hd, heq⟩ := ha.inherited hs hsame hl hp hm
    exact ⟨_, hk, hs.own _ _ _ hd (heq ▸ hg)⟩
  · intro hnone
    cases hl with
    | here => rfl
    | up hq hd _ =>
      obtain ⟨rfl, rfl⟩ := Prod.mk.inj (Option.some.inj (hq.symm.trans hp))
      obtain ⟨_, q', link', _, hin⟩ := ha.linked _ _ _ hq
      obtain ⟨_, g, hg, _⟩ := hs.inherit _ _ _ hm hd hin
      rw [hg] at hnone
      exact absurd hnone (by simp)

/-- What the code of an activation reads under a name is what the variable holds. -/
theorem Agree.read_eq (hs : pl.Sound S) (ha : Agree S pl s t) {k : Nat}
    (hl : Locates S s.stack h x k) {p : P}
    (hp : s.stack[h]? = some (p, link)) (hm : S.mentions p x) :
    t.read pl h p x = s.vars k x := by
  obtain ⟨hsome, hnone⟩ := ha.keeps_of_locates hs hl hp hm
  rw [StaticState.read]
  cases hplace : pl.place p x with
  | some g => exact ha.cell k x g (hsome g hplace)
  | none =>
    rw [hnone hplace]
    exact ha.own h _ x hp hplace

/-- Two variables that are kept in one cell are the same. -/
theorem Agree.keeps_inj (hs : pl.Sound S) (ha : Agree S pl s t) {k : Nat} {y : X} {g : G}
    (hh : pl.Keeps s.stack h x g) (hk : pl.Keeps s.stack k y g) : h = k ∧ x = y := by
  obtain ⟨f, hf, hmem⟩ := hh
  obtain ⟨f', hf', hmem'⟩ := hk
  obtain rfl := ha.alone _ _ _ _ _ _ _ hf hf' hmem hmem'
  obtain rfl := Option.some.inj (hf.symm.trans hf')
  exact ⟨rfl, hs.promoted_inj _ _ _ _ hmem hmem'⟩

variable {stack : List (P × Option Nat)}

/-- A variable of an activation is kept in one cell only. -/
theorem Placement.Sound.keeps_unique (hs : pl.Sound S) {g g' : G} (hg : pl.Keeps stack h x g)
    (hg' : pl.Keeps stack h x g') : g = g' := by
  obtain ⟨f, hf, hmem⟩ := hg
  obtain ⟨f', hf', hmem'⟩ := hg'
  obtain rfl := Option.some.inj (hf.symm.trans hf')
  exact Option.some.inj ((hs.promoted _ _ _ hmem).symm.trans (hs.promoted _ _ _ hmem'))

variable {f : P × Option Nat}

/-- A variable with a place in its frame is kept in no cell. -/
theorem Placement.Sound.not_keeps (hs : pl.Sound S) (hf : stack[h]? = some f)
    (hplace : pl.place f.1 x = none) (g : G) :
    ¬ pl.Keeps stack h x g := by
  rintro ⟨f', hf', hmem⟩
  obtain rfl := Option.some.inj (hf.symm.trans hf')
  rw [hs.promoted _ _ _ hmem] at hplace
  exact absurd hplace (by simp)

section Writes

variable [DecidableEq X]

variable {h : Nat}

/-- An assignment to a static cell and one to the variable that is kept in it. -/
theorem Agree.setCell [DecidableEq G] (hs : pl.Sound S) (ha : Agree S pl s t) {x : X}
    {g : G} (hg : pl.Keeps s.stack h x g) (v : V) :
    Agree S pl (s.write h x v) (t.setCell g v) where
  stack := ha.stack
  linked := ha.linked
  own k f y hf hplace := by
    have hne : ¬ (k = h ∧ y = x) := by
      rintro ⟨rfl, rfl⟩
      exact hs.not_keeps hf hplace g hg
    exact (ha.own k f y hf hplace).trans (if_neg hne).symm
  cell k y g' hg' := by
    by_cases heq : g' = g
    · obtain ⟨rfl, rfl⟩ := ha.keeps_inj hs hg (heq ▸ hg')
      exact (if_pos heq).trans (if_pos ⟨rfl, rfl⟩).symm
    · have hne : ¬ (k = h ∧ y = x) := by
        rintro ⟨rfl, rfl⟩
        exact heq (hs.keeps_unique hg' hg)
      have hread := ha.cell k y g' hg'
      exact (if_neg heq).trans (hread.trans (if_neg hne).symm)
  alone := ha.alone

variable {link : Option Nat}

/-- An assignment to a variable that is kept in its frame. -/
theorem Agree.setVar (hs : pl.Sound S) (ha : Agree S pl s t) {x : X} {p : P}
    (hp : s.stack[h]? = some (p, link)) (hplace : pl.place p x = none) (v : V) :
    Agree S pl (s.write h x v) (t.setVar h x v) where
  stack := ha.stack
  linked := ha.linked
  own k f y hf hy := by
    have heq := ha.own k f y hf hy
    simp only [StaticState.setVar, LinkState.write, heq]
  cell k y g hg := by
    have hne : ¬ (k = h ∧ y = x) := by
      rintro ⟨rfl, rfl⟩
      exact hs.not_keeps hp hplace g hg
    exact (ha.cell k y g hg).trans (if_neg hne).symm
  alone := ha.alone

/-- The code of an activation assigns to a variable. -/
theorem Agree.write [DecidableEq G] (hs : pl.Sound S) (ha : Agree S pl s t) {k : Nat} {x : X}
    (hl : Locates S s.stack h x k) {p : P}
    (hp : s.stack[h]? = some (p, link)) (hm : S.mentions p x) (v : V) :
    Agree S pl (s.write k x v) (t.write pl h p x v) := by
  obtain ⟨hsome, hnone⟩ := ha.keeps_of_locates hs hl hp hm
  rw [StaticState.write]
  cases hplace : pl.place p x with
  | some g => exact ha.setCell hs (hsome g hplace) v
  | none =>
    rw [hnone hplace]
    exact ha.setVar hs hp hplace v

/-- A variable is assigned to through its address. -/
theorem Agree.writeAt [DecidableEq G] (hs : pl.Sound S) (ha : Agree S pl s t) {x : X}
    {p : P} (hp : s.stack[h]? = some (p, link)) (hd : S.declares p x) (v : V) :
    Agree S pl (s.write h x v) (t.write pl h p x v) := by
  rw [StaticState.write]
  cases hplace : pl.place p x with
  | some g => exact ha.setCell hs ⟨_, hp, hs.own _ _ _ hd hplace⟩ v
  | none => exact ha.setVar hs hp hplace v

/-- An assignment to a cell that keeps no variable. -/
theorem Agree.elsewhere [DecidableEq G] (ha : Agree S pl s t) {g : G}
    (hg : ∀ p x, (x, g) ∉ pl.promoted p) (v : V) : Agree S pl s (t.setCell g v) where
  stack := ha.stack
  linked := ha.linked
  own := ha.own
  cell k y g' hg' := by
    have hne : g' ≠ g := by
      rintro rfl
      obtain ⟨f, _, hmem⟩ := hg'
      exact hg _ _ hmem
    exact (if_neg hne).trans (ha.cell k y g' hg')
  alone := ha.alone

end Writes

/-! ## Entry and exit -/

theorem promote_of_not_mem [DecidableEq G] {cells : G → V} {value : X → V}
    {promoted : List (X × G)} {g : G} (h : ∀ x, (x, g) ∉ promoted) :
    promote cells value promoted g = cells g := by
  induction promoted generalizing cells with
  | nil => rfl
  | cons xg promoted ih =>
    have hne : g ≠ xg.2 := by
      rintro rfl
      exact h xg.1 (by simp)
    refine (ih fun x hx => h x (mem_cons_of_mem _ hx)).trans (if_neg hne)

/-- A cell gets the value of the one variable that is copied to it. -/
theorem promote_of_mem [DecidableEq G] {cells : G → V} {value : X → V}
    {promoted : List (X × G)} {g : G} (h : (x, g) ∈ promoted)
    (hinj : ∀ y, (y, g) ∈ promoted → y = x) : promote cells value promoted g = value x := by
  induction promoted generalizing cells with
  | nil => exact absurd h (by simp)
  | cons yg promoted ih =>
    by_cases hmem : (x, g) ∈ promoted
    · exact ih hmem fun y hy => hinj y (mem_cons_of_mem _ hy)
    · have hrest : ∀ y, (y, g) ∉ promoted := by
        intro y hy
        exact hmem (hinj y (mem_cons_of_mem _ hy) ▸ hy)
      obtain rfl : (x, g) = yg := by simpa [hmem] using h
      exact (promote_of_not_mem hrest).trans (if_pos rfl)

/-- An entry of the stack with one more activation. -/
theorem getElem?_push {f' : P × Option Nat} (hf : (stack ++ [f])[h]? = some f') :
    h < stack.length ∧ stack[h]? = some f' ∨ h = stack.length ∧ f' = f := by
  obtain hlt | heq | hgt := Nat.lt_trichotomy h stack.length
  · rw [getElem?_append_left hlt] at hf
    exact .inl ⟨hlt, hf⟩
  · rw [getElem?_append_right (by omega), heq, Nat.sub_self] at hf
    exact .inr ⟨heq, (Option.some.inj hf).symm⟩
  · rw [getElem?_eq_none (by simp; omega)] at hf
    exact absurd hf (by simp)

/-- A procedure is entered. -/
theorem Agree.push [DecidableEq G] (hs : pl.Sound S) (ha : Agree S pl s t) {p : P} (init : X → V)
    (hlink : ∀ k, link = some k → ∃ q l, s.stack[k]? = some (q, l) ∧ S.inside p q)
    (hfree : pl.Free p s.stack) :
    Agree S pl (s.push p link init)
      { stack := t.stack ++ [p]
        vars := fun h => if h = t.stack.length then init else t.vars h
        cells := promote t.cells (fun x => pl.copy p x (init x)) (pl.promoted p) } where
  stack := by simp [LinkState.push, ha.stack]
  linked h q k hq := by
    obtain ⟨hlt, hold⟩ | ⟨rfl, hnew⟩ := getElem?_push hq
    · obtain ⟨hk, q', l, hq', hin⟩ := ha.linked h q k hold
      refine ⟨hk, q', l, ?_, hin⟩
      exact (getElem?_append_left (by omega)).trans hq'
    · obtain ⟨rfl, hk⟩ := Prod.mk.inj hnew
      obtain ⟨q', l, hq', hin⟩ := hlink k hk.symm
      obtain ⟨hlt, _⟩ := List.getElem?_eq_some_iff.mp hq'
      exact ⟨hlt, q', l, (getElem?_append_left hlt).trans hq', hin⟩
  own h f x hf hplace := by
    have hlen : t.stack.length = s.stack.length := by simp [ha.stack]
    obtain ⟨hlt, hold⟩ | ⟨rfl, rfl⟩ := getElem?_push hf
    · have hne : h ≠ s.stack.length := by omega
      simp only [LinkState.push, hlen, if_neg hne]
      exact ha.own h f x hold hplace
    · simp only [LinkState.push, hlen, if_pos]
  cell h x g hg := by
    obtain ⟨f, hf, hmem⟩ := hg
    obtain ⟨hlt, hold⟩ | ⟨rfl, rfl⟩ := getElem?_push hf
    · have hnot : ∀ y, (y, g) ∉ pl.promoted p := fun y hy =>
        hfree f (mem_of_getElem? hold) y x g hy hmem
      have hne : h ≠ s.stack.length := by omega
      simp only [LinkState.push, if_neg hne]
      exact (promote_of_not_mem hnot).trans (ha.cell h x g ⟨f, hold, hmem⟩)
    · have hnew : promote t.cells (fun x => pl.copy p x (init x)) (pl.promoted p) g =
          pl.copy p x (init x) :=
        promote_of_mem hmem fun y hy => hs.promoted_inj _ _ _ _ hy hmem
      simp only [LinkState.push, if_pos]
      exact hnew.trans (hs.copy _ _ _ _ hmem)
  alone h h' f f' x y g hf hf' hx hy := by
    obtain ⟨_, hold⟩ | ⟨rfl, rfl⟩ := getElem?_push hf
    · obtain ⟨_, hold'⟩ | ⟨rfl, rfl⟩ := getElem?_push hf'
      · exact ha.alone h h' f f' x y g hold hold' hx hy
      · exact absurd hx (hfree f (mem_of_getElem? hold) y x g hy)
    · obtain ⟨_, hold'⟩ | ⟨rfl, rfl⟩ := getElem?_push hf'
      · exact absurd hy (hfree f' (mem_of_getElem? hold') x y g hx)
      · rfl

/-- An entry of the stack with one activation less. -/
theorem getElem?_pop
    (hf : stack.dropLast[h]? = some f) : h < stack.length - 1 ∧ stack[h]? = some f := by
  rw [getElem?_dropLast] at hf
  split_ifs at hf with hlt
  exact ⟨hlt, hf⟩

/-- The active procedure returns. -/
theorem Agree.pop (ha : Agree S pl s t) :
    Agree S pl { s with stack := s.stack.dropLast } { t with stack := t.stack.dropLast } where
  stack := by
    rw [ha.stack]
    exact map_dropLast.symm
  linked h p k hp := by
    obtain ⟨hlt, hold⟩ := getElem?_pop hp
    obtain ⟨hk, q, link, hq, hin⟩ := ha.linked h p k hold
    refine ⟨hk, q, link, ?_, hin⟩
    rw [getElem?_dropLast, if_pos (by omega)]
    exact hq
  own h f x hf := ha.own h f x (getElem?_pop hf).2
  cell h x g hg := by
    obtain ⟨f, hf, hmem⟩ := hg
    exact ha.cell h x g ⟨f, (getElem?_pop hf).2, hmem⟩
  alone h h' f f' x y g hf hf' := ha.alone h h' f f' x y g (getElem?_pop hf).2 (getElem?_pop hf').2

/-! ## Runs -/

variable [DecidableEq X] [DecidableEq G]

/-- One step of both machines, when it enters no procedure whose static cells are in use. -/
theorem Agree.step (hs : pl.Sound S) (ha : Agree S pl s t) {e : Event P X G V}
    (hstep : LinkStep S s e s') (hsep : e.Separate pl) (hfresh : e.Fresh pl s) :
    Agree S pl s' (t.step pl e) := by
  have hlen : t.stack.length = s.stack.length := by simp [ha.stack]
  have hat : ∀ {h : Nat} {p : P} {link : Option Nat}, s.stack[h]? = some (p, link) →
      t.stack[h]? = some p := by
    intro h p link hp
    rw [ha.stack, getElem?_map, hp]
    rfl
  cases hstep with
  | enterOutermost => exact ha.push hs _ (by simp) hfresh
  | enterInside hin hk _ =>
    refine ha.push hs _ (fun k h => ?_) hfresh
    obtain rfl := Option.some.inj h
    exact ⟨_, _, hk, hin⟩
  | leave => exact ha.pop
  | write hp hm hl =>
    simp only [StaticState.step, hlen, hat hp]
    exact ha.write hs hl hp hm _
  | writeAt hp hd =>
    simp only [StaticState.step, hat hp]
    exact ha.writeAt hs hp hd _
  | elsewhere => exact ha.elsewhere hsep _

/-- The states that the two machines reach together, over steps that meet a condition. -/
inductive CommonRun (S : Scopes P X) (pl : Placement P X G V)
    (ok : LinkState P X V → Event P X G V → Prop) : LinkState P X V → StaticState P X G V → Prop
  | start (vars vars' : Nat → X → V) (cells : G → V) :
    CommonRun S pl ok ⟨[], vars⟩ ⟨[], vars', cells⟩
  | step {s s' : LinkState P X V} {t : StaticState P X G V} {e : Event P X G V} :
    CommonRun S pl ok s t → LinkStep S s e s' → e.Separate pl → ok s e →
    CommonRun S pl ok s' (t.step pl e)

/-- The machines agree in every state of a run that enters no procedure whose static cells are in
use. -/
theorem CommonRun.agree (hs : pl.Sound S) {ok : LinkState P X V → Event P X G V → Prop}
    (hok : ∀ s e, ok s e → e.Fresh pl s) (hr : CommonRun S pl ok s t) : Agree S pl s t := by
  induction hr with
  | start vars vars' cells => constructor <;> simp [Placement.Keeps]
  | step _ hstep hsep hok' ih => exact ih.step hs hstep hsep (hok _ _ hok')

end Agreement

end Mx.Core
