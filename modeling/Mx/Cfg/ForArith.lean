import Mx.Cfg.ForLoop
import Mx.Core.CInt

/-!
# Counting in C

The arithmetic of the emitted code, on variables of C integer types. A variable counts under it:
an unsigned variable too takes a negative step as long as the sum fits, since conversion to its
type undoes the wrap-around. A comparison is exact only if the common type of both sides holds
every value of the variable.
-/

namespace CIntType

/-- Conversion keeps the residue. -/
theorem convert_emod (t : CIntType) (v : Int) : t.convert v % 2 ^ t.bits = v % 2 ^ t.bits := by
  unfold convert
  split
  · have h := Int.bmod_emod (x := v) (m := 2 ^ t.bits)
    push_cast at h
    exact h
  · exact Int.emod_emod_of_dvd v (dvd_refl _)

theorem convert_congr {t : CIntType} {v w : Int} (h : v % 2 ^ t.bits = w % 2 ^ t.bits) :
    t.convert v = t.convert w := by
  unfold convert
  split
  · have hv := Int.emod_bmod v (2 ^ t.bits)
    have hw := Int.emod_bmod w (2 ^ t.bits)
    push_cast at hv hw
    rw [← hv, ← hw, h]
  · exact h

/-- A conversion to a type that is not narrower is undone by the next conversion. -/
theorem convert_convert {t u : CIntType} (h : t.bits ≤ u.bits) (v : Int) :
    t.convert (u.convert v) = t.convert v := by
  have hdvd : (2 : Int) ^ t.bits ∣ 2 ^ u.bits := pow_dvd_pow 2 h
  apply convert_congr
  rw [← Int.emod_emod_of_dvd (u.convert v) hdvd, convert_emod, Int.emod_emod_of_dvd v hdvd]

theorem bits_le_promote (t : CIntType) : t.bits ≤ t.promote.bits := by
  unfold promote
  split
  · have h32 : int.bits = 32 := rfl
    omega
  · exact le_rfl

/-- The common type is not narrower than the left one. -/
theorem bits_le_common (t u : CIntType) : t.bits ≤ (common t u).bits := by
  have ht := t.bits_le_promote
  unfold common
  dsimp only
  split_ifs <;> omega

end CIntType

namespace Mx

/-! ## Expressions -/

/-- The values of variables, by their names. -/
abbrev CStore := String → Int

/-- The C type and the value of an expression of variables, numbers, sums, differences and
comparisons. -/
def evalC (types : String → CIntType) (s : CStore) : HirExpr → Option (CIntType × Int)
  | ⟨.intLit v, _, _⟩ => some (.ofDecimal v, v)
  | ⟨.place ⟨.localVar sym, [], _, _⟩, _, _⟩ => some (types sym.sourceName, s sym.sourceName)
  | ⟨.unaryOp .neg e, _, _⟩ => do
    let (t, v) ← evalC types s e
    return (t.promote, t.promote.convert (-v))
  | ⟨.binaryOp op l r, _, _⟩ => do
    let (t, v) ← evalC types s l
    let (u, w) ← evalC types s r
    match op with
    | .add => return (t.common u, (t.common u).convert (v + w))
    | .sub => return (t.common u, (t.common u).convert (v - w))
    | .le => return (.int, if t.compare (· ≤ ·) v u w then 1 else 0)
    | .ge => return (.int, if t.compare (· ≥ ·) v u w then 1 else 0)
    | _ => none
  | _ => none

/-- The assignment to a variable converts the value to its type. -/
def execC (types : String → CIntType) (s : CStore) : HirStmt → Option CStore
  | ⟨.assign ⟨.localVar sym, [], _, _⟩ e, _⟩ => do
    let (_, v) ← evalC types s e
    return Function.update s sym.sourceName ((types sym.sourceName).convert v)
  | _ => none

/-- The interpretation; everything else raises an exception. -/
def cInterp (types : String → CIntType) : Interp CStore (CIntType × Int) where
  exec stmt s := match execC types s stmt with
    | some s' => .ok s'
    | none => .error s
  eval e s := match evalC types s e with
    | some v => .ok (v, s)
    | none => .error s
  raise _ s := s
  truth v := v.2 ≠ 0
  matchLabel _ _ _ := false

section

variable {types : String → CIntType} {s s' : CStore} {e : HirExpr} {v : CIntType × Int}
  {var : String} {varTy : TypeId}

theorem cInterp_eval (h : (cInterp types).eval e s = .ok (v, s')) :
    evalC types s e = some v ∧ s = s' := by
  change (match evalC types s e with
    | some v => Except.ok (v, s)
    | none => .error s) = .ok (v, s') at h
  split at h
  · cases h
    exact ⟨by assumption, rfl⟩
  · cases h

theorem evalC_makeBinop (op : BinaryOp) (he : evalC types s e = some v) :
    evalC types s (makeBinop op var varTy e) =
      match op with
      | .add => some ((types var).common v.1, ((types var).common v.1).convert (s var + v.2))
      | .sub => some ((types var).common v.1, ((types var).common v.1).convert (s var - v.2))
      | .le => some (.int, if (types var).compare (· ≤ ·) (s var) v.1 v.2 then 1 else 0)
      | .ge => some (.int, if (types var).compare (· ≥ ·) (s var) v.1 v.2 then 1 else 0)
      | _ => none := by
  have hvar : evalC types s ⟨.place (localPlace var varTy), varTy, .cfg⟩ =
      some (types var, s var) := rfl
  rw [makeBinop, evalC, hvar, he]
  cases op <;> rfl

/-- A value is assigned to the variable. -/
theorem cInterp_assign (he : evalC types s e = some v) :
    (cInterp types).exec (assignVar var varTy e) s =
      .ok (Function.update s var ((types var).convert v.2)) := by
  have hexec : execC types s (assignVar var varTy e) =
      some (Function.update s var ((types var).convert v.2)) := by
    change (evalC types s e).bind _ = _
    rw [he]
    rfl
  change (match execC types s (assignVar var varTy e) with
    | some s' => Except.ok s'
    | none => .error s) = _
  rw [hexec]

end

/-- A variable counts in C. -/
def cCounting (types : String → CIntType) (hbits : ∀ name, 0 < (types name).bits) (var : String)
    (varTy : TypeId) : Counting CStore (CIntType × Int) var varTy where
  toInterp := cInterp types
  holds := (types var).Fits
  counter s := s var
  int v := v.2
  comparable e := ∀ s t n, evalC types s e = some (t, n) → ∀ m, (types var).Fits m →
    ((types var).common t).Fits m
  assign := by
    intro e s v s' he hfit
    obtain ⟨hv, rfl⟩ := cInterp_eval he
    refine ⟨_, cInterp_assign hv, ?_⟩
    rw [Function.update_self, CIntType.convert_of_fits (hbits var) hfit]
  compare := by
    intro direction e s v s' hcmp he hkeep hcount hlimit
    obtain ⟨hv, rfl⟩ := cInterp_eval he
    have hexact : ∀ rel : Int → Int → Bool,
        (types var).compare rel (s var) v.1 v.2 = rel (s var) v.2 := by
      intro rel
      have hkept := hcmp s v.1 v.2 hv
      exact CIntType.compare_of_fits (hkept _ hcount) (hkept _ hlimit)
    have hop := @evalC_makeBinop types s e v var varTy (forCmp direction) hv
    have heval : ∀ w, evalC types s (makeBinop (forCmp direction) var varTy e) = some w →
        (cInterp types).eval (makeBinop (forCmp direction) var varTy e) s = .ok (w, s) := by
      intro w hw
      change (match evalC types s _ with
        | some v => Except.ok (v, s)
        | none => .error s) = _
      rw [hw]
    cases direction with
    | up =>
      refine ⟨_, heval _ hop, ?_⟩
      simp [cInterp, hexact]
    | down =>
      refine ⟨_, heval _ hop, ?_⟩
      simp [cInterp, hexact]
  advance := by
    intro e s v s' he hkeep hcount hnext
    obtain ⟨hv, rfl⟩ := cInterp_eval he
    have hop := @evalC_makeBinop types s e v var varTy .add hv
    refine ⟨_, cInterp_assign hop, ?_⟩
    rw [Function.update_self]
    dsimp only
    rw [CIntType.convert_convert (CIntType.bits_le_common _ _),
      CIntType.convert_of_fits (hbits var) hnext]

end Mx
