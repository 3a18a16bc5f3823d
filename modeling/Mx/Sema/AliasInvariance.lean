import Mx.Sema.Assignment

/-!
# Assignment compatibility and aliases

Where the comparisons of `assignment_compatible` end, they decide the declarative relation, which
takes an alias for its target everywhere but in one place: the element type of an array that a
string literal is assigned to is compared with `CHAR` by its id. The comparisons of recursive
procedure types need not end.
-/

namespace Mx.TypeRegistry

open Mx.Core Mx.Core.Asking List

variable {reg : TypeRegistry} {d d' s s' t t' u : TypeId}

/-! ## Answers -/

/-- `assignment_compatible` ends with this answer. -/
def Answers (reg : TypeRegistry) (d s : TypeId) (b : Bool) : Prop :=
  ∃ depth, reg.assignmentCompatible depth d s = some b

/-- The declarations of two types do not run through the same pair of types again: no pair that
corresponds in them, or in such parts of them, has itself among its corresponding parts. -/
def WithoutLoop (reg : TypeRegistry) (d s : TypeId) : Prop :=
  ∀ q, Relation.ReflTransGen reg.Corresponding (d, s) q →
    ¬ Relation.TransGen reg.Corresponding q q

/-- An answer tells whether the types are compatible. -/
theorem Answers.decides {b : Bool} (h : reg.Answers d s b) : b = true ↔ reg.Compatible d s := by
  obtain ⟨depth, h⟩ := h
  exact evaluate_sound (V := Decides reg) yields_cascade h

/-- `assignment_compatible` ends if and only if the declarations do not run through the same pair
again. -/
theorem exists_answer_iff : (∃ b, reg.Answers d s b) ↔ reg.WithoutLoop d s := by
  have hasked : (fun q p => Asked (Decides reg) (reg.cascade p) q) =
      fun q p => reg.Corresponding p q := by
    funext q p
    exact propext (asked_cascade_iff p q)
  rw [WithoutLoop, ← acc_iff_no_loop (finite_corresponding (d, s)), ← hasked]
  refine exists_comm.trans (evaluate_ends_iff yields_cascade ?_)
  intro p b b' hb hb'
  rw [Bool.eq_iff_iff]
  exact hb'.trans hb.symm

/-! ## Interchangeable types -/

/-- The types are compatible with the same types. -/
def Interchangeable (reg : TypeRegistry) (t t' : TypeId) : Prop :=
  ∀ u, (reg.Compatible t u ↔ reg.Compatible t' u) ∧ (reg.Compatible u t ↔ reg.Compatible u t')

theorem Interchangeable.symm (h : reg.Interchangeable t t') : reg.Interchangeable t' t :=
  fun u => ⟨(h u).1.symm, (h u).2.symm⟩

/-- The second id leads through aliases to the first. -/
def IsAliasOf (reg : TypeRegistry) (t t' : TypeId) : Prop := ∃ n, reg.AliasChain n t' t

theorem IsAliasOf.interchangeable (h : reg.IsAliasOf t t') : reg.Interchangeable t t' := by
  obtain ⟨n, h⟩ := h
  exact fun u => ⟨(compatible_chain_left h).symm, (compatible_chain_right h).symm⟩

/-- The parameters are passed alike and have interchangeable types. -/
def SameParam (reg : TypeRegistry) (p p' : ParamType) : Prop :=
  p'.isVar = p.isVar ∧ reg.Interchangeable p.typ p'.typ

theorem SameParam.symm {p p' : ParamType} (h : SameParam reg p p') : SameParam reg p' p :=
  ⟨h.1.symm, h.2.symm⟩

variable {ps ps' : List ParamType} {r r' : Option TypeId}

theorem sameParams_symm (h : List.Forall₂ (SameParam reg) ps ps') :
    List.Forall₂ (SameParam reg) ps' ps :=
  List.Forall₂.flip (h.imp fun _ _ hp => SameParam.symm hp)

theorem paramsCompatible_left {sp : List ParamType}
    (h : List.Forall₂ (SameParam reg) ps ps') (hc : ParamsCompatible reg (ps.zip sp)) :
    ParamsCompatible reg (ps'.zip sp) := by
  induction h generalizing sp with
  | nil => exact hc
  | cons hp _ ih =>
    cases sp with
    | nil => exact fun ab hab => absurd hab not_mem_nil
    | cons q sp =>
      rw [ParamsCompatible, zip_cons_cons, forall_mem_cons] at hc ⊢
      exact ⟨⟨hp.1.trans hc.1.1, (hp.2 q.typ).1.1 hc.1.2⟩, ih hc.2⟩

theorem paramsCompatible_right {dp : List ParamType}
    (h : List.Forall₂ (SameParam reg) ps ps') (hc : ParamsCompatible reg (dp.zip ps)) :
    ParamsCompatible reg (dp.zip ps') := by
  induction h generalizing dp with
  | nil => exact hc
  | cons hp _ ih =>
    cases dp with
    | nil => exact fun ab hab => absurd hab not_mem_nil
    | cons q dp =>
      rw [ParamsCompatible, zip_cons_cons, forall_mem_cons] at hc ⊢
      exact ⟨⟨hc.1.1.trans hp.1.symm, (hp.2 q.typ).2.1 hc.1.2⟩, ih hc.2⟩

theorem paramsCompatible_self (ps : List ParamType) : ParamsCompatible reg (ps.zip ps) := by
  induction ps with
  | nil => exact fun ab hab => absurd hab not_mem_nil
  | cons p ps ih =>
    rw [ParamsCompatible, zip_cons_cons, forall_mem_cons]
    exact ⟨⟨rfl, .refl _⟩, ih⟩

/-- Results of interchangeable types. -/
def SameResult (reg : TypeRegistry) : Option TypeId → Option TypeId → Prop
  | none, none => True
  | some t, some t' => reg.Interchangeable t t'
  | _, _ => False

theorem SameResult.symm (h : SameResult reg r r') : SameResult reg r' r := by
  rcases r with _ | t <;> rcases r' with _ | t'
  · trivial
  · exact h.elim
  · exact h.elim
  · exact Interchangeable.symm h

theorem resultsCompatible_left {sr : Option TypeId} (h : SameResult reg r r')
    (hc : ResultsCompatible reg r sr) : ResultsCompatible reg r' sr := by
  rcases r with _ | t <;> rcases r' with _ | t' <;> rcases sr with _ | q
  all_goals first
    | exact h.elim
    | exact hc.elim
    | trivial
    | exact (h q).1.1 hc

theorem resultsCompatible_right {dr : Option TypeId} (h : SameResult reg r r')
    (hc : ResultsCompatible reg dr r) : ResultsCompatible reg dr r' := by
  rcases r with _ | t <;> rcases r' with _ | t' <;> rcases dr with _ | q
  all_goals first
    | exact h.elim
    | exact hc.elim
    | trivial
    | exact (h q).2.1 hc

theorem resultsCompatible_self (r : Option TypeId) : ResultsCompatible reg r r := by
  cases r with
  | none => trivial
  | some t => exact .refl t

/-! ## Shapes of arrays and procedure types -/

theorem ne_of_get {k : Nat} {ty : RegType} (hk : k < builtinTypes.length) (h : reg.get t = ty)
    (hne : builtinTypes.getD k .error ≠ ty) : t ≠ k := by
  rintro rfl
  rw [get_builtin reg hk] at h
  exact hne h

/-- An array or an open array. -/
def isArrayLike (ty : RegType) : Bool := ty.isArrayType || ty.isOpenArray

theorem shapes_array_left (h : isArrayLike (reg.get d) = true) :
    reg.shapesCompatible d s = true ↔ s = tyError ∨
      ((reg.get d).hasCharElements = true ∧ (reg.get s).isStringLike = true) ∨
      isArrayLike (reg.get s) = true := by
  have herror : d ≠ tyError := ne_of_get (by decide) rfl (by rintro heq; rw [← heq] at h; cases h)
  have hchar : d ≠ tyChar := ne_of_get (by decide) rfl (by rintro heq; rw [← heq] at h; cases h)
  have hcomplex : d ≠ tyLongComplex :=
    ne_of_get (by decide) rfl (by rintro heq; rw [← heq] at h; cases h)
  have hself : d = s → isArrayLike (reg.get s) = true := fun heq => heq ▸ h
  cases hd : reg.get d with
  | array | openArray =>
    simp only [isArrayLike, Bool.or_eq_true] at hself
    simp [shapesCompatible, hd, herror, hchar, hcomplex, isArrayLike, RegType.isIntegerType,
      RegType.isRealType, RegType.isComplex, RegType.isPointer, RegType.isProcedure,
      RegType.isOpaque, RegType.isRefTo, RegType.isStringLike, RegType.isEnumeration,
      RegType.isOrdinal, RegType.isSetType, RegType.isRecord, RegType.isArrayType,
      RegType.isOpenArray]
    tauto
  | _ =>
    rw [hd] at h
    cases h

theorem shapes_array_right (h : isArrayLike (reg.get s) = true) :
    reg.shapesCompatible d s = true ↔ d = tyError ∨ isArrayLike (reg.get d) = true := by
  have herror : s ≠ tyError := ne_of_get (by decide) rfl (by rintro heq; rw [← heq] at h; cases h)
  have hcomplex : s ≠ tyComplex :=
    ne_of_get (by decide) rfl (by rintro heq; rw [← heq] at h; cases h)
  have hself : d = s → isArrayLike (reg.get d) = true := fun heq => heq ▸ h
  cases hs : reg.get s with
  | array | openArray =>
    simp only [isArrayLike, Bool.or_eq_true] at hself
    simp [shapesCompatible, hs, herror, hcomplex, isArrayLike, RegType.isIntegerType,
      RegType.isNumeric, RegType.isPointer, RegType.isOpaque, RegType.isRef, RegType.isStringLike,
      RegType.isShortString, RegType.isEnumeration, RegType.isOrdinal, RegType.isSetType,
      RegType.isRecord, RegType.isArrayType, RegType.isOpenArray]
    tauto
  | _ =>
    rw [hs] at h
    cases h

theorem shapes_procedure_left
    (h : reg.get d = .procedureType ps r) :
    reg.shapesCompatible d s = true ↔ d = s ∨ s = tyError ∨ reg.get s = .nil := by
  have herror : d ≠ tyError := ne_of_get (by decide) h (by simp [builtinTypes, tyError])
  have hchar : d ≠ tyChar := ne_of_get (by decide) h (by simp [builtinTypes, tyChar])
  have hcomplex : d ≠ tyLongComplex :=
    ne_of_get (by decide) h (by simp [builtinTypes, tyLongComplex])
  simp [shapesCompatible, h, herror, hchar, hcomplex, RegType.isIntegerType, RegType.isRealType,
    RegType.isComplex, RegType.isPointer, RegType.isProcedure, RegType.isOpaque, RegType.isRefTo,
    RegType.isStringLike, RegType.hasCharElements, RegType.isEnumeration, RegType.isOrdinal,
    RegType.isSetType, RegType.isRecord, RegType.isArrayType, RegType.isOpenArray, or_assoc]

theorem shapes_procedure_right
    (h : reg.get s = .procedureType ps r) :
    reg.shapesCompatible d s = true ↔ d = s ∨ d = tyError := by
  have herror : s ≠ tyError := ne_of_get (by decide) h (by simp [builtinTypes, tyError])
  have hcomplex : s ≠ tyComplex := ne_of_get (by decide) h (by simp [builtinTypes, tyComplex])
  simp [shapesCompatible, h, herror, hcomplex, RegType.isIntegerType, RegType.isNumeric,
    RegType.isPointer, RegType.isOpaque, RegType.isRef, RegType.isStringLike,
    RegType.isShortString, RegType.isEnumeration, RegType.isOrdinal, RegType.isSetType,
    RegType.isRecord, RegType.isArrayType, RegType.isOpenArray]

/-! ## Procedure types -/

/-- Two procedure types with the same parameters and results. -/
structure SameProcedure (reg : TypeRegistry) (t t' : TypeId) : Prop where
  params : ∃ ps ps' r r', reg.get t = .procedureType ps r ∧ reg.get t' = .procedureType ps' r' ∧
    List.Forall₂ (SameParam reg) ps ps' ∧ SameResult reg r r'

theorem SameProcedure.symm (h : SameProcedure reg t t') : SameProcedure reg t' t := by
  obtain ⟨ps, ps', r, r', hget, hget', hps, hr⟩ := h.params
  exact ⟨ps', ps, r', r, hget', hget, sameParams_symm hps, hr.symm⟩

theorem SameProcedure.compatible (h : SameProcedure reg t t') : reg.Compatible t' t := by
  obtain ⟨ps, ps', r, r', hget, hget', hps, hr⟩ := h.params
  exact (compatible_procedure_iff hget' hget).2 (.inr ⟨⟨hps.length_eq.symm,
    paramsCompatible_left hps (paramsCompatible_self ps)⟩,
    resultsCompatible_left hr (resultsCompatible_self r)⟩)

theorem SameProcedure.left (h : SameProcedure reg t t') (hc : reg.Compatible t u) :
    reg.Compatible t' u := by
  obtain ⟨ps, ps', r, r', hget, hget', hps, hr⟩ := id h.params
  induction hc with
  | shapes hshape =>
    obtain rfl | hrest := (shapes_procedure_left hget).1 hshape
    · exact h.compatible
    · exact .shapes ((shapes_procedure_left hget').2 (.inr hrest))
  | procedure hd hs hlen hvar hparams =>
    cases hget.symm.trans hd
    have hall := paramsCompatible_left hps fun ab hab => ⟨hvar ab hab, hparams ab hab⟩
    exact (compatible_procedure_iff hget' hs).2
      (.inr ⟨⟨hps.length_eq.symm.trans hlen, hall⟩, resultsCompatible_left hr trivial⟩)
  | function hd hs hlen hvar hparams hresult =>
    cases hget.symm.trans hd
    have hall := paramsCompatible_left hps fun ab hab => ⟨hvar ab hab, hparams ab hab⟩
    exact (compatible_procedure_iff hget' hs).2
      (.inr ⟨⟨hps.length_eq.symm.trans hlen, hall⟩, resultsCompatible_left hr hresult⟩)
  | aliasLeft hd | subrangeLeft hd => cases hget.symm.trans hd
  | aliasRight hs _ ih => exact .aliasRight hs (ih h hget)
  | subrangeRight hs _ ih => exact .subrangeRight hs (ih h hget)

theorem SameProcedure.right (h : SameProcedure reg t t') (hc : reg.Compatible u t) :
    reg.Compatible u t' := by
  obtain ⟨ps, ps', r, r', hget, hget', hps, hr⟩ := id h.params
  induction hc with
  | shapes hshape =>
    obtain rfl | herror := (shapes_procedure_right hget).1 hshape
    · exact h.symm.compatible
    · exact .shapes ((shapes_procedure_right hget').2 (.inr herror))
  | procedure hd hs hlen hvar hparams =>
    cases hget.symm.trans hs
    have hall := paramsCompatible_right hps fun ab hab => ⟨hvar ab hab, hparams ab hab⟩
    exact (compatible_procedure_iff hd hget').2
      (.inr ⟨⟨hlen.trans hps.length_eq, hall⟩, resultsCompatible_right hr trivial⟩)
  | function hd hs hlen hvar hparams hresult =>
    cases hget.symm.trans hs
    have hall := paramsCompatible_right hps fun ab hab => ⟨hvar ab hab, hparams ab hab⟩
    exact (compatible_procedure_iff hd hget').2
      (.inr ⟨⟨hlen.trans hps.length_eq, hall⟩, resultsCompatible_right hr hresult⟩)
  | aliasRight hs | subrangeRight hs => cases hget.symm.trans hs
  | aliasLeft hd _ ih => exact .aliasLeft hd (ih h hget)
  | subrangeLeft hd _ ih => exact .subrangeLeft hd (ih h hget)

theorem SameProcedure.interchangeable (h : SameProcedure reg t t') :
    reg.Interchangeable t t' :=
  fun _ => ⟨⟨h.left, h.symm.left⟩, ⟨h.right, h.symm.right⟩⟩

/-! ## Arrays -/

/-- A type that leads through aliases and subranges to a string literal. -/
inductive LeadsToString (reg : TypeRegistry) : TypeId → Prop where
  | literal {s : TypeId} (h : (reg.get s).isStringLike = true) : LeadsToString reg s
  | «alias» {s target : TypeId} {name : String} (h : reg.get s = .alias name target)
      (ht : LeadsToString reg target) : LeadsToString reg s
  | subrange {s base : TypeId} {low high : Int} (h : reg.get s = .subrange base low high)
      (hb : LeadsToString reg base) : LeadsToString reg s

/-- On the right, all arrays are alike. -/
theorem array_right (h : isArrayLike (reg.get t) = true) (h' : isArrayLike (reg.get t') = true)
    (hc : reg.Compatible u t) : reg.Compatible u t' := by
  induction hc with
  | shapes hshape => exact .shapes ((shapes_array_right h').2 ((shapes_array_right h).1 hshape))
  | procedure _ hs | function _ hs | aliasRight hs | subrangeRight hs =>
    rw [hs] at h
    cases h
  | aliasLeft hd _ ih => exact .aliasLeft hd (ih h)
  | subrangeLeft hd _ ih => exact .subrangeLeft hd (ih h)

/-- On the left, only string literals tell arrays apart. -/
theorem array_left (h : isArrayLike (reg.get t) = true) (h' : isArrayLike (reg.get t') = true)
    (hchar : (reg.get t).hasCharElements = true → (reg.get t').hasCharElements = true ∨
      ¬ reg.LeadsToString u) (hc : reg.Compatible t u) : reg.Compatible t' u := by
  induction hc with
  | shapes hshape =>
    refine .shapes ((shapes_array_left h').2 ?_)
    obtain herror | ⟨hc, hstring⟩ | harray := (shapes_array_left h).1 hshape
    · exact .inl herror
    · exact .inr (.inl ⟨(hchar hc).resolve_right fun hn => hn (.literal hstring), hstring⟩)
    · exact .inr (.inr harray)
  | procedure hd | function hd | aliasLeft hd | subrangeLeft hd =>
    rw [hd] at h
    cases h
  | aliasRight hs _ ih =>
    exact .aliasRight hs (ih h fun hc => (hchar hc).imp_right fun hn hl => hn (.alias hs hl))
  | subrangeRight hs _ ih =>
    exact .subrangeRight hs (ih h fun hc => (hchar hc).imp_right fun hn hl => hn (.subrange hs hl))

theorem not_shapes_subrange {base : TypeId} {low high : Int} (h : isArrayLike (reg.get t) = true)
    (hget : reg.get u = .subrange base low high) : ¬ reg.shapesCompatible t u = true := by
  rw [shapes_array_left h, hget]
  rintro (rfl | ⟨-, hstring⟩ | harray)
  · cases hget
  · cases hstring
  · cases harray

theorem compatible_string_iff (h : isArrayLike (reg.get t) = true) (hs : reg.LeadsToString u) :
    reg.Compatible t u ↔ (reg.get t).hasCharElements = true := by
  have hnot : ∀ name target, reg.get t ≠ .alias name target := by
    intro name target hget
    rw [hget] at h
    cases h
  induction hs with
  | @literal u hstring =>
    constructor
    · intro hc
      cases hc with
      | shapes hshape =>
        obtain rfl | hchar | harray := (shapes_array_left h).1 hshape
        · cases hstring
        · exact hchar.1
        · cases hu : reg.get u <;> rw [hu] at hstring harray <;> cases hstring
          cases harray
      | procedure hd | function hd | aliasLeft hd | subrangeLeft hd =>
        rw [hd] at h
        cases h
      | aliasRight hs | subrangeRight hs =>
        rw [hs] at hstring
        cases hstring
    · intro hc
      exact .shapes ((shapes_array_left h).2 (.inr (.inl ⟨hc, hstring⟩)))
  | «alias» hget _ ih => exact (compatible_alias_right hget).trans ih
  | subrange hget _ ih =>
    exact (compatible_subrange_right hget hnot (not_shapes_subrange h hget)).trans ih

/-! ## Replacing a type by an alias -/

/-- The second type is the first with some of the ids in it replaced by aliases: the type itself,
the element type, or parameters and the result. -/
inductive Replaces (reg : TypeRegistry) : TypeId → TypeId → Prop where
  | itself {t t' : TypeId} (h : reg.IsAliasOf t t') : Replaces reg t t'
  | array {t t' index elem elem' : TypeId} {low high : Int}
      (h : reg.get t = .array index elem low high) (h' : reg.get t' = .array index elem' low high)
      (he : reg.IsAliasOf elem elem') : Replaces reg t t'
  | openArray {t t' elem elem' : TypeId} (h : reg.get t = .openArray elem)
      (h' : reg.get t' = .openArray elem') (he : reg.IsAliasOf elem elem') : Replaces reg t t'
  | procedure {t t' : TypeId} {ps ps' : List ParamType} {r r' : Option TypeId}
      (h : reg.get t = .procedureType ps r) (h' : reg.get t' = .procedureType ps' r')
      (hps : List.Forall₂ (fun p p' => p'.isVar = p.isVar ∧ reg.IsAliasOf p.typ p'.typ) ps ps')
      (hr : Option.Rel reg.IsAliasOf r r') : Replaces reg t t'

/-- An array of elements with the id of `CHAR` becomes one of elements with another id. -/
def LosesCharElements (reg : TypeRegistry) (t t' : TypeId) : Prop :=
  (reg.get t).hasCharElements = true ∧ isArrayLike (reg.get t') = true ∧
    (reg.get t').hasCharElements = false

theorem sameProcedure_of_replaced
    (h : reg.get t = .procedureType ps r) (h' : reg.get t' = .procedureType ps' r')
    (hps : List.Forall₂ (fun p p' => p'.isVar = p.isVar ∧ reg.IsAliasOf p.typ p'.typ) ps ps')
    (hr : Option.Rel reg.IsAliasOf r r') : SameProcedure reg t t' := by
  refine ⟨ps, ps', r, r', h, h', hps.imp fun _ _ hp => ⟨hp.1, hp.2.interchangeable⟩, ?_⟩
  cases hr with
  | none => trivial
  | some hr => exact hr.interchangeable

/-- The source can be replaced. -/
theorem replaced_right (h : reg.Replaces t t') : reg.Compatible u t ↔ reg.Compatible u t' := by
  cases h with
  | itself h => exact (h.interchangeable u).2
  | array h h' | openArray h h' =>
    have harray : isArrayLike (reg.get t) = true := by
      rw [h]
      rfl
    have harray' : isArrayLike (reg.get t') = true := by
      rw [h']
      rfl
    exact ⟨array_right harray harray', array_right harray' harray⟩
  | procedure h h' hps hr =>
    exact ((sameProcedure_of_replaced h h' hps hr).interchangeable u).2

theorem elem_char_of_alias {elem elem' : TypeId} (h : reg.IsAliasOf elem elem')
    (hchar : (elem' == tyChar) = true) : (elem == tyChar) = true := by
  obtain ⟨n, hchain⟩ := h
  rw [beq_iff_eq] at hchar ⊢
  cases hchain with
  | refl => exact hchar
  | step hget => exact absurd hchar (ne_of_alias hget (by decide))

theorem arrays_left (h : isArrayLike (reg.get t) = true) (h' : isArrayLike (reg.get t') = true)
    (hback : (reg.get t').hasCharElements = true → (reg.get t).hasCharElements = true)
    (hkeep : ¬ (LosesCharElements reg t t' ∧ reg.LeadsToString u)) :
    reg.Compatible t u ↔ reg.Compatible t' u := by
  refine ⟨array_left h h' fun hchar => ?_, array_left h' h fun hchar => .inl (hback hchar)⟩
  by_cases hchar' : (reg.get t').hasCharElements = true
  · exact .inl hchar'
  · exact .inr fun hs => hkeep ⟨⟨hchar, h', Bool.not_eq_true _ ▸ hchar'⟩, hs⟩

/-- The destination can be replaced if that keeps the element type `CHAR` of an array that a string
literal is assigned to. -/
theorem replaced_left (h : reg.Replaces t t')
    (hkeep : ¬ (LosesCharElements reg t t' ∧ reg.LeadsToString u)) :
    reg.Compatible t u ↔ reg.Compatible t' u := by
  cases h with
  | itself h => exact (h.interchangeable u).1
  | array h h' he | openArray h h' he =>
    refine arrays_left ?_ ?_ ?_ hkeep
    · rw [h]
      rfl
    · rw [h']
      rfl
    · rw [h, h']
      exact elem_char_of_alias he
  | procedure h h' hps hr =>
    exact ((sameProcedure_of_replaced h h' hps hr).interchangeable u).1

theorem isArrayLike_of_hasCharElements {ty : RegType} (h : ty.hasCharElements = true) :
    isArrayLike ty = true := by
  cases ty <;> first | rfl | cases h

/-- `assignment_compatible` answers for two types, and alike for those in which ids are replaced by
aliases, if and only if the declarations of neither two run through the same pair again and no
element type `CHAR` is replaced in an array that a string literal is assigned to. -/
theorem answers_alike_iff (hd : reg.Replaces d d') (hs : reg.Replaces s s') :
    (∃ b, reg.Answers d s b ∧ reg.Answers d' s' b) ↔
      (reg.WithoutLoop d s ∧ reg.WithoutLoop d' s') ∧
        ¬ (LosesCharElements reg d d' ∧ reg.LeadsToString s) := by
  constructor
  · rintro ⟨b, hb, hb'⟩
    refine ⟨⟨exists_answer_iff.1 ⟨b, hb⟩, exists_answer_iff.1 ⟨b, hb'⟩⟩, ?_⟩
    rintro ⟨⟨hchar, harray', hchar'⟩, hstring⟩
    have hyes : reg.Compatible d s :=
      (compatible_string_iff (isArrayLike_of_hasCharElements hchar) hstring).2 hchar
    have hno : ¬ reg.Compatible d' s' := by
      rw [← replaced_right hs, compatible_string_iff harray' hstring, hchar']
      decide
    exact hno (hb'.decides.1 (hb.decides.2 hyes))
  · rintro ⟨⟨hends, hends'⟩, hkeep⟩
    obtain ⟨b, hb⟩ := exists_answer_iff.2 hends
    obtain ⟨b', hb'⟩ := exists_answer_iff.2 hends'
    have hsame : reg.Compatible d s ↔ reg.Compatible d' s' :=
      (replaced_left hd hkeep).trans (replaced_right hs)
    have heq : b' = b := by
      rw [Bool.eq_iff_iff, hb'.decides, hb.decides, hsame]
    exact ⟨b, hb, heq ▸ hb'⟩

/-- `Count = INTEGER`, and procedure types that take one another: `P = PROCEDURE (P)` and
`Q = PROCEDURE (Q)`. -/
def recursiveTypes : TypeRegistry :=
  ⟨[.alias "Count" tyInteger, .alias "P" 23, .alias "Q" 24, .procedureType [⟨false, 21⟩] none,
    .procedureType [⟨false, 22⟩] none]⟩

theorem answers_alike_count :
    ∃ b, recursiveTypes.Answers tyInteger tyCardinal b ∧
      recursiveTypes.Answers 20 tyCardinal b := by
  have hcount : recursiveTypes.get 20 = .alias "Count" tyInteger := rfl
  refine (answers_alike_iff (.itself ⟨1, .step hcount (.refl tyInteger)⟩)
    (.itself ⟨0, .refl tyCardinal⟩)).2 ⟨⟨?_, ?_⟩, ?_⟩
  · exact exists_answer_iff.1 ⟨true, 1, rfl⟩
  · exact exists_answer_iff.1 ⟨true, 2, rfl⟩
  · exact fun h => absurd h.1.1 (by decide)

/-- `P` is compared with `Q` forever. -/
theorem not_answers_recursive (b : Bool) : ¬ recursiveTypes.Answers 21 22 b := by
  -- the three comparisons ask for one another
  have hnone : ∀ depth, evaluate recursiveTypes.cascade depth (21, 22) = none ∧
      evaluate recursiveTypes.cascade depth (23, 22) = none ∧
      evaluate recursiveTypes.cascade depth (23, 24) = none := by
    intro depth
    induction depth with
    | zero => exact ⟨rfl, rfl, rfl⟩
    | succ depth ih =>
      refine ⟨?_, ?_, ?_⟩
      · change (evaluate recursiveTypes.cascade depth (23, 22)).bind _ = none
        rw [ih.2.1]
        rfl
      · change (evaluate recursiveTypes.cascade depth (23, 24)).bind _ = none
        rw [ih.2.2]
        rfl
      · change (evaluate recursiveTypes.cascade depth (21, 22)).bind _ = none
        rw [ih.1]
        rfl
  rintro ⟨depth, h⟩
  rw [assignmentCompatible, (hnone depth).1] at h
  cases h

theorem not_answers_alike :
    ¬ ∀ (reg : TypeRegistry) (d d' s s' : TypeId), reg.Replaces d d' → reg.Replaces s s' →
      ∃ b, reg.Answers d s b ∧ reg.Answers d' s' b := by
  intro h
  obtain ⟨b, hb, -⟩ := h recursiveTypes 21 21 22 22 (.itself ⟨0, .refl 21⟩) (.itself ⟨0, .refl 22⟩)
  exact not_answers_recursive b hb

end Mx.TypeRegistry
