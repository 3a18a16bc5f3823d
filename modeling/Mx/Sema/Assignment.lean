import Mx.Core.Asking
import Mx.Cfg.LintSound
import Mx.Codegen.CTypeNames
import Mx.Codegen.IntegerOps

/-!
# Assignment compatibility

`assignment_compatible` is a cascade of tests on the shapes of two types. Where the shapes decide
nothing, it asks for parameters and results of procedure types, targets of aliases and bases of
subranges. The declarative relation has one rule for each of these.
-/

namespace Mx

open Mx.Core Mx.Core.Asking

/-! ## Shapes -/

namespace RegType

/-- `is_ordinal`. -/
def isOrdinal : RegType → Bool
  | .integer | .cardinal | .longInt | .longCard | .boolean | .char | .enumeration _ _
  | .subrange _ _ _ => true
  | _ => false

/-- `is_real_type`. -/
def isRealType : RegType → Bool
  | .real | .longReal => true
  | _ => false

/-- `is_ref`. -/
def isRef : RegType → Bool
  | .ref _ _ | .refAny | .object _ _ _ _ => true
  | _ => false

/-- `is_string_like`. -/
def isStringLike : RegType → Bool
  | .stringLit _ => true
  | _ => false

def isOpaque : RegType → Bool
  | .opaqueType _ _ => true
  | _ => false

def isRefTo : RegType → Bool
  | .ref _ _ => true
  | _ => false

/-- `Type::is_pointer`. -/
def isPointer : RegType → Bool
  | .pointer _ | .address | .nil | .ref _ _ | .refAny => true
  | _ => false

def isEnumeration : RegType → Bool
  | .enumeration _ _ => true
  | _ => false

def isRecord : RegType → Bool
  | .record _ _ => true
  | _ => false

def isArrayType : RegType → Bool
  | .array _ _ _ _ => true
  | _ => false

def isOpenArray : RegType → Bool
  | .openArray _ => true
  | _ => false

/-- An array or an open array whose element type has the id of `CHAR`. -/
def hasCharElements : RegType → Bool
  | .array _ elemType _ _ | .openArray elemType => elemType == tyChar
  | _ => false

/-- A literal that fits a character. -/
def isShortString : RegType → Bool
  | .stringLit 0 | .stringLit 1 => true
  | _ => false

end RegType

namespace TypeRegistry

variable (reg : TypeRegistry)

/-- The tests on the shapes, in the order of the source. -/
def shapesCompatible (dst src : TypeId) : Bool :=
  let dt := reg.get dst
  let st := reg.get src
  dst == src || (dst == tyError || src == tyError) ||
    (dt.isIntegerType && st.isIntegerType) ||
    ((dt == .address && st.isIntegerType) || (dt.isIntegerType && st == .address)) ||
    (dt.isRealType && st.isNumeric) || (dt.isComplex && st.isNumeric) ||
    (dst == tyLongComplex && src == tyComplex) ||
    ((dt.isPointer || dt.isProcedure) && st == .nil) ||
    (dt.isPointer && st.isPointer) ||
    (dt.isOpaque && (st == .nil || st.isPointer)) || (dt.isPointer && st.isOpaque) ||
    (dt == .refAny && st.isRef) || (dt.isRefTo && st == .refAny) ||
    (dt.isStringLike && st.isStringLike) || (dt.hasCharElements && st.isStringLike) ||
    (dst == tyChar && st.isShortString) ||
    (dt.isEnumeration && (st.isIntegerType || st.isEnumeration)) ||
    (dt.isIntegerType && st.isEnumeration) || (dt.isOrdinal && st.isOrdinal) ||
    (dt.isSetType && st.isSetType) || (dt.isRecord && st.isRecord) ||
    (dt.isArrayType && (st.isArrayType || st.isOpenArray)) ||
    (dt.isOpenArray && (st.isArrayType || st.isOpenArray))

/-- What is compared. -/
abbrev Comparison := Asking (TypeId × TypeId) Bool Bool

/-- The same id, or compatible types. -/
def sameOrCompatible (d s : TypeId) : Comparison := if d = s then pure true else value (d, s)

/-- Parameters in order, up to the first that do not match. -/
def paramsMatch : List (ParamType × ParamType) → Comparison
  | [] => pure true
  | (a, b) :: rest =>
    if a.isVar = b.isVar then do
      let ok ← sameOrCompatible a.typ b.typ
      if ok then paramsMatch rest else pure false
    else pure false

/-- As many parameters, that match one another. -/
def parametersMatch (dp sp : List ParamType) : Comparison :=
  if dp.length = sp.length then paramsMatch (dp.zip sp) else pure false

/-- The results. -/
def resultsMatch : Option TypeId → Option TypeId → Comparison
  | none, none => pure true
  | some d, some s => sameOrCompatible d s
  | _, _ => pure false

/-- One round of the cascade. -/
def cascade (p : TypeId × TypeId) : Comparison :=
  let (dst, src) := p
  if reg.shapesCompatible dst src then pure true
  else match reg.get dst, reg.get src with
    | .procedureType dp dr, .procedureType sp sr => do
      let params ← parametersMatch dp sp
      let results ← resultsMatch dr sr
      pure (params && results)
    | .alias _ target, _ => value (target, src)
    | _, .alias _ target => value (dst, target)
    | .subrange base _ _, _ => value (base, src)
    | _, .subrange base _ _ => value (dst, base)
    | _, _ => pure false

/-- `assignment_compatible`, to a depth. -/
def assignmentCompatible (depth : Nat) (dst src : TypeId) : Option Bool :=
  evaluate reg.cascade depth (dst, src)

/-! ## The declarative relation -/

/-- One type can be assigned to the other. -/
inductive Compatible : TypeId → TypeId → Prop where
  | shapes {d s : TypeId} (h : reg.shapesCompatible d s = true) : Compatible d s
  | procedure {d s : TypeId} {dp sp : List ParamType}
      (hd : reg.get d = .procedureType dp none) (hs : reg.get s = .procedureType sp none)
      (hlen : dp.length = sp.length) (hvar : ∀ ab ∈ dp.zip sp, ab.1.isVar = ab.2.isVar)
      (hparams : ∀ ab ∈ dp.zip sp, Compatible ab.1.typ ab.2.typ) : Compatible d s
  | function {d s dr sr : TypeId} {dp sp : List ParamType}
      (hd : reg.get d = .procedureType dp (some dr))
      (hs : reg.get s = .procedureType sp (some sr))
      (hlen : dp.length = sp.length) (hvar : ∀ ab ∈ dp.zip sp, ab.1.isVar = ab.2.isVar)
      (hparams : ∀ ab ∈ dp.zip sp, Compatible ab.1.typ ab.2.typ)
      (hresult : Compatible dr sr) : Compatible d s
  | aliasLeft {d s target : TypeId} {name : String} (hd : reg.get d = .alias name target)
      (h : Compatible target s) : Compatible d s
  | aliasRight {d s target : TypeId} {name : String} (hs : reg.get s = .alias name target)
      (h : Compatible d target) : Compatible d s
  | subrangeLeft {d s base : TypeId} {low high : Int} (hd : reg.get d = .subrange base low high)
      (h : Compatible base s) : Compatible d s
  | subrangeRight {d s base : TypeId} {low high : Int} (hs : reg.get s = .subrange base low high)
      (h : Compatible d base) : Compatible d s

variable {reg} {d d' s s' : TypeId} {name : String}

theorem Compatible.refl (t : TypeId) : reg.Compatible t t := .shapes (by simp [shapesCompatible])

/-- An alias has no shape. -/
theorem shapesCompatible_alias_left (h : reg.get d' = .alias name d)
    (hshape : reg.shapesCompatible d' s = true) : d' = s ∨ s = tyError := by
  have herror := ne_of_alias (k := tyError) h (by decide)
  have hchar := ne_of_alias (k := tyChar) h (by decide)
  have hcomplex := ne_of_alias (k := tyLongComplex) h (by decide)
  simpa [shapesCompatible, h, herror, hchar, hcomplex, RegType.isIntegerType, RegType.isRealType,
    RegType.isComplex, RegType.isPointer, RegType.isProcedure, RegType.isOpaque, RegType.isRefTo,
    RegType.isStringLike, RegType.hasCharElements, RegType.isEnumeration, RegType.isOrdinal,
    RegType.isSetType, RegType.isRecord, RegType.isArrayType, RegType.isOpenArray] using hshape

theorem shapesCompatible_alias_right (h : reg.get s' = .alias name s)
    (hshape : reg.shapesCompatible d s' = true) : d = s' ∨ d = tyError := by
  have herror := ne_of_alias (k := tyError) h (by decide)
  have hcomplex := ne_of_alias (k := tyComplex) h (by decide)
  simpa [shapesCompatible, h, herror, hcomplex, RegType.isIntegerType, RegType.isNumeric,
    RegType.isPointer, RegType.isOpaque, RegType.isRef, RegType.isStringLike,
    RegType.isShortString, RegType.isEnumeration, RegType.isOrdinal, RegType.isSetType,
    RegType.isRecord, RegType.isArrayType, RegType.isOpenArray] using hshape

/-! ## Aliases -/

/-- An alias on the left is its target. -/
theorem compatible_alias_left (h : reg.get d' = .alias name d) :
    reg.Compatible d' s ↔ reg.Compatible d s := by
  constructor
  · intro hc
    induction hc with
    | @shapes d' s hshape =>
      obtain rfl | rfl := shapesCompatible_alias_left h hshape
      · exact .aliasRight h (.refl d)
      · exact .shapes (by simp [shapesCompatible])
    | procedure hd | function hd | subrangeLeft hd =>
      rw [h] at hd
      cases hd
    | aliasLeft hd hc =>
      rw [h] at hd
      cases hd
      exact hc
    | aliasRight hs _ ih => exact .aliasRight hs (ih h)
    | subrangeRight hs _ ih => exact .subrangeRight hs (ih h)
  · exact .aliasLeft h

/-- An alias on the right is its target. -/
theorem compatible_alias_right (h : reg.get s' = .alias name s) :
    reg.Compatible d s' ↔ reg.Compatible d s := by
  constructor
  · intro hc
    induction hc with
    | @shapes d s' hshape =>
      obtain rfl | rfl := shapesCompatible_alias_right h hshape
      · exact .aliasLeft h (.refl s)
      · exact .shapes (by simp [shapesCompatible])
    | procedure _ hs | function _ hs | subrangeRight hs =>
      rw [h] at hs
      cases hs
    | aliasRight hs hc =>
      rw [h] at hs
      cases hs
      exact hc
    | aliasLeft hd _ ih => exact .aliasLeft hd (ih h)
    | subrangeLeft hd _ ih => exact .subrangeLeft hd (ih h)
  · exact .aliasRight h

/-- A chain of aliases is its end. -/
theorem compatible_chain_left {n : Nat} (h : reg.AliasChain n d' d) :
    reg.Compatible d' s ↔ reg.Compatible d s := by
  induction h with
  | refl => rfl
  | step hget _ ih => rw [compatible_alias_left hget, ih]

theorem compatible_chain_right {n : Nat} (h : reg.AliasChain n s' s) :
    reg.Compatible d s' ↔ reg.Compatible d s := by
  induction h with
  | refl => rfl
  | step hget _ ih => rw [compatible_alias_right hget, ih]

/-! ## The cascade decides the relation -/

/-- A comparison answers whether the types are compatible. -/
def Decides (reg : TypeRegistry) (p : TypeId × TypeId) (b : Bool) : Prop :=
  b = true ↔ reg.Compatible p.1 p.2

theorem yields_sameOrCompatible {b : Bool}
    (h : Yields (Decides reg) (sameOrCompatible d s) b) : b = true ↔ reg.Compatible d s := by
  rw [sameOrCompatible] at h
  split_ifs at h with heq
  · rw [yields_pure] at h
    exact iff_of_true h (heq ▸ .refl d)
  · rw [yields_value] at h
    exact h

/-- Lists of parameters that match one another. -/
def ParamsCompatible (reg : TypeRegistry) (ps : List (ParamType × ParamType)) : Prop :=
  ∀ ab ∈ ps, ab.1.isVar = ab.2.isVar ∧ reg.Compatible ab.1.typ ab.2.typ

theorem yields_paramsMatch {ps : List (ParamType × ParamType)} {b : Bool}
    (h : Yields (Decides reg) (paramsMatch ps) b) : b = true ↔ ParamsCompatible reg ps := by
  induction ps generalizing b with
  | nil =>
    rw [paramsMatch, yields_pure] at h
    simp [h, ParamsCompatible]
  | cons ab rest ih =>
    obtain ⟨a, c⟩ := ab
    rw [ParamsCompatible, List.forall_mem_cons]
    rw [paramsMatch] at h
    by_cases hvar : a.isVar = c.isVar
    · rw [if_pos hvar, yields_bind] at h
      obtain ⟨ok, hok, hrest⟩ := h
      have hhead := yields_sameOrCompatible hok
      cases ok with
      | true =>
        rw [ih hrest]
        exact ⟨fun h => ⟨⟨hvar, hhead.1 rfl⟩, h⟩, fun h => h.2⟩
      | false =>
        rw [yields_pure.1 hrest]
        exact ⟨fun h => absurd h (by decide), fun h => absurd (hhead.2 h.1.2) (by decide)⟩
    · rw [if_neg hvar, yields_pure] at h
      rw [h]
      exact ⟨fun h => absurd h (by decide), fun h => absurd h.1.1 hvar⟩

/-- The results of two procedure types match. -/
def ResultsCompatible (reg : TypeRegistry) : Option TypeId → Option TypeId → Prop
  | none, none => True
  | some d, some s => reg.Compatible d s
  | _, _ => False

theorem yields_parametersMatch {dp sp : List ParamType} {b : Bool}
    (h : Yields (Decides reg) (parametersMatch dp sp) b) :
    b = true ↔ dp.length = sp.length ∧ ParamsCompatible reg (dp.zip sp) := by
  rw [parametersMatch] at h
  by_cases hlen : dp.length = sp.length
  · rw [if_pos hlen] at h
    rw [yields_paramsMatch h, and_iff_right hlen]
  · rw [if_neg hlen, yields_pure] at h
    simp [h, hlen]

theorem yields_resultsMatch {dr sr : Option TypeId} {b : Bool}
    (h : Yields (Decides reg) (resultsMatch dr sr) b) :
    b = true ↔ ResultsCompatible reg dr sr := by
  rcases dr with _ | d <;> rcases sr with _ | s
  · rw [resultsMatch, yields_pure] at h
    exact iff_of_true h trivial
  · exact (yields_pure.1 h) ▸ iff_of_false (by decide) id
  · exact (yields_pure.1 h) ▸ iff_of_false (by decide) id
  · exact yields_sameOrCompatible h

/-- Two procedure types are compatible if their shapes decide so or their parameters and results
match. -/
theorem compatible_procedure_iff {dp sp : List ParamType} {dr sr : Option TypeId}
    (hd : reg.get d = .procedureType dp dr) (hs : reg.get s = .procedureType sp sr) :
    reg.Compatible d s ↔ reg.shapesCompatible d s = true ∨
      (dp.length = sp.length ∧ ParamsCompatible reg (dp.zip sp)) ∧ ResultsCompatible reg dr sr := by
  constructor
  · intro h
    cases h with
    | shapes h => exact .inl h
    | procedure hd' hs' hlen hvar hparams =>
      cases hd.symm.trans hd'
      cases hs.symm.trans hs'
      exact .inr ⟨⟨hlen, fun ab h => ⟨hvar ab h, hparams ab h⟩⟩, trivial⟩
    | function hd' hs' hlen hvar hparams hresult =>
      cases hd.symm.trans hd'
      cases hs.symm.trans hs'
      exact .inr ⟨⟨hlen, fun ab h => ⟨hvar ab h, hparams ab h⟩⟩, hresult⟩
    | aliasLeft h | subrangeLeft h => cases hd.symm.trans h
    | aliasRight h | subrangeRight h => cases hs.symm.trans h
  · rintro (h | ⟨⟨hlen, hparams⟩, hresult⟩)
    · exact .shapes h
    · rcases dr with _ | dr <;> rcases sr with _ | sr
      · exact .procedure hd hs hlen (fun ab h => (hparams ab h).1) fun ab h => (hparams ab h).2
      · exact hresult.elim
      · exact hresult.elim
      · exact .function hd hs hlen (fun ab h => (hparams ab h).1) (fun ab h => (hparams ab h).2)
          hresult

theorem shapesCompatible_subranges {b b' : TypeId} {l h l' h' : Int}
    (hd : reg.get d = .subrange b l h) (hs : reg.get s = .subrange b' l' h') :
    reg.shapesCompatible d s = true := by
  simp [shapesCompatible, hd, hs, RegType.isOrdinal]

/-- A subrange on the left, where the right side is no alias, is its base. -/
theorem compatible_subrange_left {base : TypeId} {low high : Int}
    (hd : reg.get d = .subrange base low high)
    (hs : ∀ name target, reg.get s ≠ .alias name target)
    (hshape : ¬ reg.shapesCompatible d s = true) :
    reg.Compatible d s ↔ reg.Compatible base s := by
  constructor
  · intro h
    cases h with
    | shapes h => exact absurd h hshape
    | procedure hd' | function hd' | aliasLeft hd' => cases hd.symm.trans hd'
    | aliasRight hs' => exact absurd hs' (hs _ _)
    | subrangeLeft hd' h =>
      cases hd.symm.trans hd'
      exact h
    | subrangeRight hs' => exact absurd (shapesCompatible_subranges hd hs') hshape
  · exact .subrangeLeft hd

theorem compatible_subrange_right {base : TypeId} {low high : Int}
    (hs : reg.get s = .subrange base low high)
    (hd : ∀ name target, reg.get d ≠ .alias name target)
    (hshape : ¬ reg.shapesCompatible d s = true) :
    reg.Compatible d s ↔ reg.Compatible d base := by
  constructor
  · intro h
    cases h with
    | shapes h => exact absurd h hshape
    | procedure _ hs' | function _ hs' | aliasRight hs' => cases hs.symm.trans hs'
    | aliasLeft hd' => exact absurd hd' (hd _ _)
    | subrangeLeft hd' => exact absurd (shapesCompatible_subranges hd' hs) hshape
    | subrangeRight hs' h =>
      cases hs.symm.trans hs'
      exact h
  · exact .subrangeRight hs

/-- One round of the cascade decides the relation if its questions are answered right. -/
theorem yields_cascade (p : TypeId × TypeId) (b : Bool)
    (h : Yields (Decides reg) (reg.cascade p) b) : Decides reg p b := by
  obtain ⟨d, s⟩ := p
  rw [cascade] at h
  by_cases hshape : reg.shapesCompatible d s = true
  · rw [if_pos hshape, yields_pure] at h
    exact iff_of_true h (.shapes hshape)
  · rw [if_neg hshape] at h
    rw [Decides]
    split at h
    · next dp dr sp sr hd hs =>
      obtain ⟨params, hparams, h⟩ := yields_bind.1 h
      obtain ⟨results, hresults, h⟩ := yields_bind.1 h
      rw [yields_pure.1 h, Bool.and_eq_true, yields_parametersMatch hparams,
        yields_resultsMatch hresults, compatible_procedure_iff hd hs, or_iff_right hshape]
    · next hd => exact (yields_value.1 h).trans (compatible_alias_left hd).symm
    · next hs _ => exact (yields_value.1 h).trans (compatible_alias_right hs).symm
    · next hd hs =>
      exact (yields_value.1 h).trans (compatible_subrange_left hd hs hshape).symm
    · next hs hd _ =>
      exact (yields_value.1 h).trans (compatible_subrange_right hs hd hshape).symm
    · next hdalias hdrange hsalias hsrange hproc =>
      rw [yields_pure.1 h]
      refine iff_of_false (by decide) fun hc => ?_
      cases hc with
      | shapes h => exact hshape h
      | procedure hd hs | function hd hs => exact hproc _ _ _ _ hd hs
      | aliasLeft hd => exact hdalias _ _ hd
      | aliasRight hs => exact hsalias _ _ hs
      | subrangeLeft hd => exact hdrange _ _ _ hd
      | subrangeRight hs => exact hsrange _ _ _ hs

/-! ## Corresponding parts -/

/-- What corresponds in the declarations of two types whose shapes decide nothing: the target of an
alias and the other type, the base of a subrange and the other type, two parameters that all
compatible ones go before, and two results. -/
inductive Corresponding (reg : TypeRegistry) : TypeId × TypeId → TypeId × TypeId → Prop where
  | aliasLeft {d s target : TypeId} {name : String} (hshape : ¬ reg.shapesCompatible d s = true)
      (hd : reg.get d = .alias name target) : Corresponding reg (d, s) (target, s)
  | aliasRight {d s target : TypeId} {name : String} (hshape : ¬ reg.shapesCompatible d s = true)
      (hd : ∀ name target, reg.get d ≠ .alias name target) (hs : reg.get s = .alias name target) :
      Corresponding reg (d, s) (d, target)
  | subrangeLeft {d s base : TypeId} {low high : Int} (hshape : ¬ reg.shapesCompatible d s = true)
      (hd : reg.get d = .subrange base low high)
      (hs : ∀ name target, reg.get s ≠ .alias name target) : Corresponding reg (d, s) (base, s)
  | subrangeRight {d s base : TypeId} {low high : Int} (hshape : ¬ reg.shapesCompatible d s = true)
      (hd : ∀ name target, reg.get d ≠ .alias name target)
      (hs : reg.get s = .subrange base low high) : Corresponding reg (d, s) (d, base)
  | param {d s : TypeId} {dp sp : List ParamType} {dr sr : Option TypeId}
      {before after : List (ParamType × ParamType)} {a b : ParamType}
      (hshape : ¬ reg.shapesCompatible d s = true) (hd : reg.get d = .procedureType dp dr)
      (hs : reg.get s = .procedureType sp sr) (hlen : dp.length = sp.length)
      (hzip : dp.zip sp = before ++ (a, b) :: after) (hbefore : ParamsCompatible reg before)
      (hvar : a.isVar = b.isVar) (hne : a.typ ≠ b.typ) :
      Corresponding reg (d, s) (a.typ, b.typ)
  | result {d s dr sr : TypeId} {dp sp : List ParamType}
      (hshape : ¬ reg.shapesCompatible d s = true) (hd : reg.get d = .procedureType dp (some dr))
      (hs : reg.get s = .procedureType sp (some sr)) (hne : dr ≠ sr) :
      Corresponding reg (d, s) (dr, sr)

theorem exists_decides (p : TypeId × TypeId) : ∃ b, Decides reg p b := by
  by_cases h : reg.Compatible p.1 p.2
  · exact ⟨true, iff_of_true rfl h⟩
  · exact ⟨false, iff_of_false (by decide) h⟩

theorem asked_sameOrCompatible {q : TypeId × TypeId} :
    Asked (Decides reg) (sameOrCompatible d s) q ↔ d ≠ s ∧ q = (d, s) := by
  rw [sameOrCompatible]
  split_ifs with heq <;> simp [heq]

/-- The parameters that are asked for. -/
theorem asked_paramsMatch {ps : List (ParamType × ParamType)} {q : TypeId × TypeId} :
    Asked (Decides reg) (paramsMatch ps) q ↔
      ∃ before a b after, ps = before ++ (a, b) :: after ∧ ParamsCompatible reg before ∧
        a.isVar = b.isVar ∧ a.typ ≠ b.typ ∧ q = (a.typ, b.typ) := by
  induction ps with
  | nil => simp [paramsMatch]
  | cons ab rest ih =>
    obtain ⟨a, b⟩ := ab
    rw [paramsMatch]
    by_cases hvar : a.isVar = b.isVar
    · rw [if_pos hvar, asked_bind, asked_sameOrCompatible]
      constructor
      · rintro (⟨hne, rfl⟩ | ⟨ok, hok, hq⟩)
        · exact ⟨[], a, b, rest, rfl, fun ab hab => absurd hab List.not_mem_nil, hvar, hne, rfl⟩
        · cases ok with
          | false => exact absurd hq asked_pure
          | true =>
            obtain ⟨before, a', b', after, rfl, hbefore, hrest⟩ := ih.1 hq
            refine ⟨(a, b) :: before, a', b', after, rfl, ?_, hrest⟩
            exact List.forall_mem_cons.2 ⟨⟨hvar, (yields_sameOrCompatible hok).1 rfl⟩, hbefore⟩
      · rintro ⟨before, a', b', after, heq, hbefore, hvar', hne, rfl⟩
        cases before with
        | nil =>
          cases heq
          exact .inl ⟨hne, rfl⟩
        | cons first before =>
          obtain ⟨rfl, rfl⟩ := List.cons.inj heq
          rw [ParamsCompatible, List.forall_mem_cons] at hbefore
          obtain ⟨ok, hok⟩ : ∃ ok, Yields (Decides reg) (sameOrCompatible a.typ b.typ) ok :=
            exists_yields exists_decides _
          obtain rfl := (yields_sameOrCompatible hok).2 hbefore.1.2
          exact .inr ⟨true, hok, ih.2 ⟨before, a', b', after, rfl, hbefore.2, hvar', hne, rfl⟩⟩
    · rw [if_neg hvar]
      refine iff_of_false asked_pure ?_
      rintro ⟨before, a', b', after, heq, hbefore, hvar', -⟩
      cases before with
      | nil =>
        cases heq
        exact hvar hvar'
      | cons first before =>
        obtain ⟨rfl, rfl⟩ := List.cons.inj heq
        exact hvar (hbefore _ List.mem_cons_self).1

theorem asked_procedures {dp sp : List ParamType} {dr sr : Option TypeId} {q : TypeId × TypeId}
    (hd : reg.get d = .procedureType dp dr) (hs : reg.get s = .procedureType sp sr)
    (hshape : ¬ reg.shapesCompatible d s = true) :
    Asked (Decides reg) (do
      let params ← parametersMatch dp sp
      let results ← resultsMatch dr sr
      pure (params && results)) q ↔ reg.Corresponding (d, s) q := by
  have hresults : Asked (Decides reg) (resultsMatch dr sr) q ↔
      ∃ d' s', dr = some d' ∧ sr = some s' ∧ d' ≠ s' ∧ q = (d', s') := by
    rcases dr with _ | d' <;> rcases sr with _ | s' <;>
      simp [resultsMatch, asked_sameOrCompatible]
  have hparams : Asked (Decides reg) (parametersMatch dp sp) q ↔ dp.length = sp.length ∧
      Asked (Decides reg) (paramsMatch (dp.zip sp)) q := by
    rw [parametersMatch]
    split_ifs with hlen <;> simp [hlen]
  obtain ⟨m, hm⟩ := exists_yields exists_decides (parametersMatch dp sp)
  simp only [asked_bind, asked_pure, and_false, exists_false, or_false, hresults, hparams,
    asked_paramsMatch]
  constructor
  · rintro (⟨hlen, before, a, b, after, hzip, hbefore, hvar, hne, rfl⟩ |
      ⟨-, -, d', s', rfl, rfl, hne, rfl⟩)
    · exact .param hshape hd hs hlen hzip hbefore hvar hne
    · exact .result hshape hd hs hne
  · intro h
    cases h with
    | param _ hd' hs' hlen hzip hbefore hvar hne =>
      cases hd.symm.trans hd'
      cases hs.symm.trans hs'
      exact .inl ⟨hlen, _, _, _, _, hzip, hbefore, hvar, hne, rfl⟩
    | result _ hd' hs' hne =>
      cases hd.symm.trans hd'
      cases hs.symm.trans hs'
      exact .inr ⟨m, hm, _, _, rfl, rfl, hne, rfl⟩
    | aliasLeft _ h | subrangeLeft _ h => cases hd.symm.trans h
    | aliasRight _ _ h | subrangeRight _ _ h => cases hs.symm.trans h

/-- One round of the cascade asks for the corresponding parts. -/
theorem asked_cascade_iff (p q : TypeId × TypeId) :
    Asked (Decides reg) (reg.cascade p) q ↔ reg.Corresponding p q := by
  obtain ⟨d, s⟩ := p
  rw [cascade]
  by_cases hshape : reg.shapesCompatible d s = true
  · rw [if_pos hshape]
    refine iff_of_false asked_pure fun h => ?_
    cases h <;> contradiction
  · rw [if_neg hshape]
    split
    · next dp dr sp sr hd hs => exact asked_procedures hd hs hshape
    · next hd =>
      rw [asked_value]
      constructor
      · rintro rfl
        exact .aliasLeft hshape hd
      · intro h
        cases h with
        | aliasLeft _ h =>
          cases hd.symm.trans h
          rfl
        | subrangeLeft _ h | param _ h | result _ h => cases hd.symm.trans h
        | aliasRight _ h | subrangeRight _ h => exact absurd hd (h _ _)
    · next hs hd =>
      rw [asked_value]
      constructor
      · rintro rfl
        exact .aliasRight hshape hd hs
      · intro h
        cases h with
        | aliasRight _ _ h =>
          cases hs.symm.trans h
          rfl
        | subrangeRight _ _ h | param _ _ h | result _ _ h => cases hs.symm.trans h
        | aliasLeft _ h => exact absurd h (hd _ _)
        | subrangeLeft _ _ h => exact absurd hs (h _ _)
    · next hd hs =>
      rw [asked_value]
      constructor
      · rintro rfl
        exact .subrangeLeft hshape hd hs
      · intro h
        cases h with
        | subrangeLeft _ h =>
          cases hd.symm.trans h
          rfl
        | aliasLeft _ h | param _ h | result _ h => cases hd.symm.trans h
        | aliasRight _ _ h => exact absurd h (hs _ _)
        | subrangeRight _ _ h => exact absurd (shapesCompatible_subranges hd h) hshape
    · next hs hd _ =>
      rw [asked_value]
      constructor
      · rintro rfl
        exact .subrangeRight hshape hd hs
      · intro h
        cases h with
        | subrangeRight _ _ h =>
          cases hs.symm.trans h
          rfl
        | aliasRight _ _ h | param _ _ h | result _ _ h => cases hs.symm.trans h
        | aliasLeft _ h => exact absurd h (hd _ _)
        | subrangeLeft _ h => exact absurd (shapesCompatible_subranges h hs) hshape
    · next hdalias hdrange hsalias hsrange hproc =>
      refine iff_of_false asked_pure fun h => ?_
      cases h with
      | aliasLeft _ h => exact hdalias _ _ h
      | aliasRight _ _ h => exact hsalias _ _ h
      | subrangeLeft _ h => exact hdrange _ _ _ h
      | subrangeRight _ _ h => exact hsrange _ _ _ h
      | param _ hd hs | result _ hd hs => exact hproc _ _ _ _ hd hs

/-! ## Recursive declarations -/

/-- The types that a declaration mentions. -/
def parts : RegType → List TypeId
  | .alias _ target => [target]
  | .subrange base _ _ => [base]
  | .procedureType ps r => ps.map ParamType.typ ++ r.toList
  | _ => []

/-- The types that are mentioned anywhere. -/
def allParts (reg : TypeRegistry) : List TypeId := reg.types.flatMap parts

theorem mem_allParts {t u : TypeId} (h : u ∈ parts (reg.get t)) : u ∈ reg.allParts := by
  refine List.mem_flatMap.2 ⟨reg.get t, ?_, h⟩
  rw [get, List.getD_eq_getElem?_getD] at h ⊢
  cases hget : reg.types[t]? with
  | none =>
    rw [hget] at h
    exact absurd h List.not_mem_nil
  | some ty => exact List.mem_of_getElem? hget

theorem mem_parts_of_corresponding {p q : TypeId × TypeId} (h : reg.Corresponding p q) :
    (q.1 = p.1 ∨ q.1 ∈ parts (reg.get p.1)) ∧ (q.2 = p.2 ∨ q.2 ∈ parts (reg.get p.2)) := by
  cases h with
  | aliasLeft _ hd | subrangeLeft _ hd => simp [hd, parts]
  | aliasRight _ _ hs | subrangeRight _ _ hs => simp [hs, parts]
  | @param d s dp sp dr sr before after a b _ hd hs _ hzip =>
    have hmem : (a, b) ∈ dp.zip sp := by simp [hzip]
    obtain ⟨ha, hb⟩ := List.of_mem_zip hmem
    rw [hd, hs]
    exact ⟨.inr (List.mem_append_left _ (List.mem_map_of_mem ha)),
      .inr (List.mem_append_left _ (List.mem_map_of_mem hb))⟩
  | result _ hd hs => simp [hd, hs, parts]

/-- Finitely many pairs correspond in the declarations of two types and of their parts. -/
theorem finite_corresponding (p : TypeId × TypeId) :
    {q | Relation.ReflTransGen reg.Corresponding p q}.Finite := by
  refine Set.Finite.subset (((p.1 :: reg.allParts).finite_toSet).prod
    ((p.2 :: reg.allParts).finite_toSet)) ?_
  intro q hq
  induction hq with
  | refl => exact ⟨List.mem_cons_self, List.mem_cons_self⟩
  | tail _ hstep ih =>
    obtain ⟨h1, h2⟩ := mem_parts_of_corresponding hstep
    constructor
    · obtain h | h := h1
      · exact h ▸ ih.1
      · exact List.mem_cons_of_mem _ (mem_allParts h)
    · obtain h | h := h2
      · exact h ▸ ih.2
      · exact List.mem_cons_of_mem _ (mem_allParts h)

end TypeRegistry

end Mx
