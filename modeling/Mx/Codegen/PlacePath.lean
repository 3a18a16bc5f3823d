import Mx.Core.CGrammar
import Mx.Codegen.ExprParse

/-!
# Access paths of places

`emit_place_c` looks at what follows a dereference. Its designators lead where the projections do
one at a time, but for a variant field directly behind a dereference, which is called
`->variant.v0` and declared `_variant._v0`.
-/

namespace Mx

open CGrammar List

namespace CodeGen

/-! ## One projection at a time -/

/-- One projection more. -/
def applyProjection (g : CodeGen) (a : AccessPath) : Projection → AccessPath
  | ⟨.field _ name _, _⟩ => .member a name
  | ⟨.variantField v _ name _, _⟩ =>
    .member (.member (.member a "_variant") ("_v" ++ toString v)) name
  | ⟨.index e, _⟩ => a.subscript (g.exprText true e).tree
  | ⟨.deref, _⟩ => .pointee a
  | ⟨.typeTransfer e, ty⟩ => .converted (g.typeIdToC ty) (g.exprText false e).tree.path

/-- The path of the designator that is emitted for a place. -/
def emittedPath (g : CodeGen) (p : Place) : AccessPath := (g.placeText p).tree.path

/-- However its projections are split, the designator of a place leads from where the designator of
the first projections does through the other ones. -/
def Compositional (g : CodeGen) (p : Place) : Prop :=
  ∀ front back, p.projections = front ++ back →
    g.emittedPath p =
      back.foldl g.applyProjection (g.emittedPath { p with projections := front })

def isDeref : Projection → Bool
  | ⟨.deref, _⟩ => true
  | _ => false

def isVariantField : Projection → Bool
  | ⟨.variantField _ _ _ _, _⟩ => true
  | _ => false

/-- A type transfer puts a value of its own in the place of what precedes it. -/
def isTransfer : Projection → Bool
  | ⟨.typeTransfer _, _⟩ => true
  | _ => false

/-- A variant field stands directly behind a dereference, and no type transfer behind it. -/
def fusesVariant : Bool → List Projection → Bool
  | _, [] => false
  | behindDeref, p :: ps =>
    (behindDeref && isVariantField p && !ps.any isTransfer) || fusesVariant (isDeref p) ps

/-- The projections are ones that the emitter writes out as they are. -/
def WrittenOut : Place → Prop
  | ⟨.constant _, ps, _, _⟩ => ∀ p ∈ ps, isIndex p
  | ⟨.funcRef _, ps, _, _⟩ => ps = []
  | ⟨.localVar _, ps, _, _⟩ | ⟨.globalVar _, ps, _, _⟩ => fusesVariant false ps = false

/-! ## The look-ahead -/

section LookAhead

variable (g : CodeGen)

/-- One projection more, as it is emitted directly behind a dereference or elsewhere. -/
def emitProjection (behindDeref : Bool) (a : AccessPath) (p : Projection) : AccessPath :=
  match behindDeref, p with
  | true, ⟨.variantField v _ name _, _⟩ =>
    .member (.member (.member a "variant") ("v" ++ toString v)) name
  | _, p => g.applyProjection a p

/-- The projections as they are emitted. -/
def emitProjections : Bool → AccessPath → List Projection → AccessPath
  | _, a, [] => a
  | behindDeref, a, p :: ps => emitProjections (isDeref p) (g.emitProjection behindDeref a p) ps

/-- The emitter fuses a dereference with what follows it, but only the variant fields get another
path by that. -/
theorem path_projectText : ∀ (a : Layout) (ps : List Projection),
    (g.projectText a ps).tree.path = g.emitProjections false a.tree.path ps
  | a, [] => by simp only [projectText, emitProjections]
  | a, ⟨.field _ name _, _⟩ :: ps | a, ⟨.variantField v _ name _, _⟩ :: ps | a, ⟨.index e, _⟩ :: ps
  | a, ⟨.deref, _⟩ :: ⟨.field _ name _, _⟩ :: ps
  | a, ⟨.deref, _⟩ :: ⟨.variantField v _ name _, _⟩ :: ps
  | a, ⟨.deref, _⟩ :: ⟨.typeTransfer e, t⟩ :: ps | a, ⟨.typeTransfer e, _⟩ :: ps => by
    simp only [projectText]
    exact path_projectText _ ps
  | a, [⟨.deref, ty⟩, ⟨.index e, _⟩] => by
    simp only [projectText]
    split_ifs <;> rfl
  | a, ⟨.deref, _⟩ :: ⟨.index e, _⟩ :: p :: ps => by
    simp only [projectText]
    exact path_projectText _ (p :: ps)
  | a, [⟨.deref, _⟩] => by
    simp only [projectText]
    rfl
  | a, ⟨.deref, _⟩ :: ⟨.deref, t⟩ :: ps => by
    simp only [projectText]
    exact path_projectText _ (⟨.deref, t⟩ :: ps)

variable {g} {a b : AccessPath} {behindDeref : Bool}

variable {p : Projection}

theorem names_prefix_apply (h : isTransfer p = false) :
    a.names <+: (g.applyProjection a p).names := by
  obtain ⟨kind, ty⟩ := p
  cases kind with
  | field => exact prefix_append _ _
  | variantField =>
    simp only [applyProjection, AccessPath.names, append_assoc]
    exact prefix_append _ _
  | index e =>
    have hnames : (g.applyProjection a ⟨.index e, ty⟩).names = a.names := by
      rw [applyProjection, AccessPath.names_subscript]
    exact hnames ▸ prefix_rfl
  | deref => exact prefix_rfl
  | typeTransfer e => exact absurd h (by simp [isTransfer])

theorem names_prefix_emit (h : isTransfer p = false) :
    a.names <+: (g.emitProjection behindDeref a p).names := by
  unfold emitProjection
  split
  · simp only [AccessPath.names, append_assoc]
    exact prefix_append _ _
  · exact names_prefix_apply h

variable {ps : List Projection}

/-- Without a type transfer, the names on the way stay on it. -/
theorem names_prefix_foldl (h : ps.any isTransfer = false) :
    a.names <+: (ps.foldl g.applyProjection a).names := by
  induction ps generalizing a with
  | nil => exact prefix_rfl
  | cons p ps ih =>
    rw [any_cons, Bool.or_eq_false_iff] at h
    exact (names_prefix_apply h.1).trans (ih h.2)

theorem names_prefix_emitProjections (h : ps.any isTransfer = false) :
    a.names <+: (g.emitProjections behindDeref a ps).names := by
  induction ps generalizing a behindDeref with
  | nil => exact prefix_rfl
  | cons p ps ih =>
    rw [any_cons, Bool.or_eq_false_iff] at h
    exact (names_prefix_emit h.1).trans (ih h.2)

theorem applyProjection_of_transfer (h : isTransfer p = true) :
    g.applyProjection a p = g.applyProjection b p := by
  obtain ⟨kind, ty⟩ := p
  cases kind with
  | typeTransfer e => rfl
  | _ => exact absurd h (by simp [isTransfer])

theorem emitProjection_of_transfer (h : isTransfer p = true) :
    g.emitProjection behindDeref a p = g.emitProjection behindDeref b p := by
  obtain ⟨kind, ty⟩ := p
  cases kind with
  | typeTransfer e => cases behindDeref <;> rfl
  | _ => exact absurd h (by simp [isTransfer])

/-- What precedes a type transfer does not matter. -/
theorem foldl_of_transfer (h : ps.any isTransfer = true) :
    ps.foldl g.applyProjection a = ps.foldl g.applyProjection b := by
  induction ps generalizing a b with
  | nil => exact absurd h (by simp)
  | cons p ps ih =>
    rw [foldl_cons, foldl_cons]
    by_cases hp : isTransfer p = true
    · rw [applyProjection_of_transfer hp]
    · rw [any_cons, Bool.or_eq_true, or_iff_right hp] at h
      exact ih h

theorem emitProjections_of_transfer (h : ps.any isTransfer = true) :
    g.emitProjections behindDeref a ps = g.emitProjections behindDeref b ps := by
  induction ps generalizing a b behindDeref with
  | nil => exact absurd h (by simp)
  | cons p ps ih =>
    rw [emitProjections, emitProjections]
    by_cases hp : isTransfer p = true
    · rw [emitProjection_of_transfer hp]
    · rw [any_cons, Bool.or_eq_true, or_iff_right hp] at h
      exact ih h

theorem emitProjection_eq (h : (behindDeref && isVariantField p) = false) :
    g.emitProjection behindDeref a p = g.applyProjection a p := by
  obtain ⟨kind, ty⟩ := p
  cases behindDeref with
  | false => rfl
  | true =>
    cases kind with
    | variantField => exact absurd h (by simp [isVariantField])
    | _ => rfl

/-- A variant field that is fused with a dereference is not the declared one. -/
theorem emitProjections_variant_ne (hp : isVariantField p = true) (h : ps.any isTransfer = false) :
    g.emitProjections behindDeref (g.emitProjection true a p) ps ≠
      ps.foldl g.applyProjection (g.applyProjection a p) := by
  obtain ⟨kind, ty⟩ := p
  cases kind with
  | variantField v k name r =>
    intro heq
    have hemit : (g.emitProjection true a ⟨.variantField v k name r, ty⟩).names <+:
        (g.emitProjections behindDeref
          (g.emitProjection true a ⟨.variantField v k name r, ty⟩) ps).names :=
      names_prefix_emitProjections h
    have happly := names_prefix_foldl (g := g)
      (a := g.applyProjection a ⟨.variantField v k name r, ty⟩) h
    rw [heq] at hemit
    have hnames := prefix_of_prefix_length_le hemit happly (by
      simp [emitProjection, applyProjection, AccessPath.names])
    have hsame := hnames.eq_of_length (by
      simp [emitProjection, applyProjection, AccessPath.names])
    simp [emitProjection, applyProjection, AccessPath.names] at hsame
  | _ => exact absurd hp (by simp [isVariantField])

/-- The designator leads where the projections do if and only if no variant field is fused. -/
theorem emitProjections_eq_iff (ps : List Projection) :
    g.emitProjections behindDeref a ps = ps.foldl g.applyProjection a ↔
      fusesVariant behindDeref ps = false := by
  induction ps generalizing a behindDeref with
  | nil => simp [emitProjections, fusesVariant]
  | cons p ps ih =>
    rw [emitProjections, foldl_cons, fusesVariant, Bool.or_eq_false_iff]
    by_cases hfused : (behindDeref && isVariantField p) = true
    · rw [Bool.and_eq_true] at hfused
      obtain ⟨rfl, hvariant⟩ := hfused
      cases htransfer : ps.any isTransfer with
      | true =>
        rw [emitProjections_of_transfer (b := g.applyProjection a p) htransfer, ih]
        simp
      | false => simpa [hvariant] using emitProjections_variant_ne hvariant htransfer
    · rw [Bool.not_eq_true] at hfused
      rw [emitProjection_eq hfused, ih, hfused]
      simp

theorem fusesVariant_append {front back : List Projection}
    (h : fusesVariant behindDeref (front ++ back) = false) (hback : back.any isTransfer = false) :
    fusesVariant behindDeref front = false := by
  induction front generalizing behindDeref with
  | nil => rfl
  | cons p front ih =>
    rw [cons_append, fusesVariant, Bool.or_eq_false_iff, any_append, hback, Bool.or_false] at h
    rw [fusesVariant, h.1, ih h.2]
    rfl

/-- The split of a variable's projections. -/
theorem compositional_variable_iff (base : Layout) (ps : List Projection) :
    (∀ front back, ps = front ++ back → (g.projectText base ps).tree.path =
        back.foldl g.applyProjection (g.projectText base front).tree.path) ↔
      fusesVariant false ps = false := by
  constructor
  · intro h
    have hwhole := h [] ps rfl
    rw [path_projectText, path_projectText, emitProjections] at hwhole
    exact (emitProjections_eq_iff ps).1 hwhole
  · rintro h front back rfl
    rw [path_projectText, path_projectText, (emitProjections_eq_iff _).2 h, foldl_append]
    cases hback : back.any isTransfer with
    | true => exact foldl_of_transfer hback
    | false => rw [(emitProjections_eq_iff front).2 (fusesVariant_append h hback)]

end LookAhead

/-! ## Constants -/

section Constants

variable {g : CodeGen} {a : AccessPath}

theorem isSubscripted_apply {p : Projection} :
    (g.applyProjection a p).IsSubscripted ↔ isIndex p ∧ a.IsSubscripted := by
  obtain ⟨kind, ty⟩ := p
  cases kind with
  | index e => simp [applyProjection, isIndex, AccessPath.isSubscripted_subscript]
  | _ => simp [applyProjection, isIndex, AccessPath.IsSubscripted]

variable {ps : List Projection}

theorem isSubscripted_foldl :
    (ps.foldl g.applyProjection a).IsSubscripted ↔ (∀ p ∈ ps, isIndex p) ∧ a.IsSubscripted := by
  induction ps generalizing a with
  | nil => simp
  | cons p ps ih =>
    rw [foldl_cons, ih, isSubscripted_apply, forall_mem_cons]
    tauto

theorem isSubscripted_indexText (l : Layout) (ps : List Projection)
    (h : l.tree.path.IsSubscripted) : (g.indexText l ps).tree.path.IsSubscripted := by
  induction ps generalizing l with
  | nil => simpa only [indexText] using h
  | cons p ps ih =>
    obtain ⟨kind, ty⟩ := p
    cases kind with
    | index e =>
      simp only [indexText]
      exact ih _ ((AccessPath.isSubscripted_subscript _ _).2 h)
    | _ =>
      simp only [indexText]
      exact ih _ h

theorem path_indexText (h : ∀ p ∈ ps, isIndex p) (l : Layout) :
    (g.indexText l ps).tree.path = ps.foldl g.applyProjection l.tree.path := by
  induction ps generalizing l with
  | nil => simp only [indexText, foldl_nil]
  | cons p ps ih =>
    have hp := h p mem_cons_self
    have hps := fun q hq => h q (mem_cons_of_mem _ hq)
    obtain ⟨kind, ty⟩ := p
    cases kind with
    | index e =>
      simp only [indexText]
      exact ih hps _
    | _ => exact absurd hp (by simp [isIndex])

theorem isSubscripted_constText (v : ConstVal) : (g.constText v).tree.path.IsSubscripted := by
  have hsigned : ∀ negative digits, (signed negative digits).tree.path.IsSubscripted := by
    intro negative digits
    cases negative <;> trivial
  cases v with
  | integer v | enumVariant v => exact hsigned _ _
  | real bits => exact hsigned _ _
  | char c | string s =>
    rw [constText]
    split <;> trivial
  | _ => trivial

theorem applyProjection_ne_root (p : Projection) (t : Tree) :
    g.applyProjection a p ≠ .root t := by
  obtain ⟨kind, ty⟩ := p
  cases kind with
  | index e => exact AccessPath.subscript_ne_root _ _ _
  | _ => simp [applyProjection]

theorem foldl_eq_root {t : Tree} (h : ps.foldl g.applyProjection a = .root t) : ps = [] := by
  rcases eq_nil_or_concat ps with rfl | ⟨front, p, rfl⟩
  · rfl
  · rw [concat_eq_append, foldl_append, foldl_cons, foldl_nil] at h
    exact absurd h (applyProjection_ne_root p t)

end Constants

/-! ## Every place -/

/-- The emission of a place is compositional if and only if its base takes the projections and no
variant field is fused with a dereference. -/
theorem compositional_iff (g : CodeGen) (p : Place) : g.Compositional p ↔ WrittenOut p := by
  obtain ⟨base, ps, ty, loc⟩ := p
  cases base with
  | localVar sym | globalVar sym =>
    simp only [Compositional, emittedPath, placeText, WrittenOut]
    exact compositional_variable_iff _ ps
  | constant v =>
    simp only [Compositional, emittedPath, placeText, WrittenOut]
    constructor
    · intro h
      have hwhole := h [] ps rfl
      have hpath := isSubscripted_indexText (g := g) (g.constText v) ps (isSubscripted_constText v)
      rw [hwhole] at hpath
      exact (isSubscripted_foldl.1 hpath).1
    · rintro h front back rfl
      rw [path_indexText h, path_indexText fun p hp => h p (mem_append_left _ hp), foldl_append]
  | funcRef sym =>
    simp only [Compositional, emittedPath, placeText, WrittenOut]
    constructor
    · intro h
      exact foldl_eq_root (h [] ps rfl).symm
    · rintro rfl front back h
      obtain ⟨rfl, rfl⟩ := append_eq_nil_iff.1 h.symm
      rfl

/-- A field of a variant behind a pointer. -/
def variantPlace : Place :=
  ⟨.localVar ⟨"p", "p", none, 20, false, false⟩,
    [⟨.deref, 21⟩, ⟨.variantField 0 0 "r" 21, tyReal⟩], tyReal, ⟨"", 0, 0⟩⟩

/-- The emitted `p->variant.v0.r` is not the declared `(*p)._variant._v0.r`. -/
theorem not_compositional_variant : ¬ ∀ (g : CodeGen) (p : Place), g.Compositional p := by
  intro h
  have hplace := h plain variantPlace
  simp only [Compositional, emittedPath, variantPlace, placeText] at hplace
  exact absurd ((compositional_variable_iff _ _).1 hplace) (by decide)

end CodeGen

end Mx
