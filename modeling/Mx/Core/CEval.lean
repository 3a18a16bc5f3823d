import Mx.Core.CInt
import Mx.Core.CGrammar

/-!
# Evaluation of C expressions

The integer arithmetic of C on syntax trees. A value is an integer with its type, or something
else: a floating point number, a pointer or a structure. What is not integer arithmetic has the
value that the environment gives the tree. Undefined behaviour is the absence of a value.
-/

namespace CGrammar

/-- A value of a C expression. -/
inductive CValue where
  | int (t : CIntType) (v : Int)
  | other
  deriving DecidableEq, Repr

/-- What evaluation depends on. -/
structure CEnv where
  /-- The values of variables, members, elements, calls and everything else that is not integer
  arithmetic. -/
  store : Tree → Option CValue
  /-- The integer type that a type name denotes. -/
  castType : String → Option CIntType
  /-- Functions of two integers of one type with a result of that type. -/
  function : String → Option (CIntType × (Int → Int → Option Int))

/-- The number that decimal digits denote. -/
def decimal (s : String) : Option Nat :=
  if s.toList ≠ [] ∧ s.toList.all Char.isDigit then some (Nat.ofDigitChars 10 s.toList 0) else none

/-- The number that decimal digits with the suffix `u` denote. -/
def unsignedDecimal (s : String) : Option Nat :=
  match s.toList.reverse with
  | 'u' :: cs => decimal (String.ofList cs.reverse)
  | _ => none

/-- The integer that an escape sequence denotes, by the character behind the backslash. -/
def escapeValue (c : Char) : Option Int :=
  if c = 'n' then some 10
  else if c = 't' then some 9
  else if c = 'r' then some 13
  else if c = '\\' then some 92
  else if c = '\'' then some 39
  else if c = '0' then some 0
  else none

/-- The integer that a character constant denotes, if it does not depend on the implementation. -/
def charConstant (s : String) : Option Int :=
  match s.toList with
  | [c] => if c.toNat < 128 then some c.toNat else none
  | [b, c] => if b = '\\' then escapeValue c else none
  | _ => none

/-- The result of an operation in a type: signed overflow is undefined. -/
def result (t : CIntType) (r : Int) : Option CValue :=
  if t.signed ∧ ¬ t.Fits r then none else some (.int t (t.convert r))

/-- The complement of the bits. -/
def compl : Option CValue → Option CValue
  | some (.int t v) =>
    some (.int t.promote (t.promote.convert (~~~ BitVec.ofInt t.promote.bits v).toInt))
  | _ => none

/-- A truth value. -/
def truth (b : Bool) : Option CValue := some (.int .int (if b then 1 else 0))

/-- An operation on the bits of two values. -/
def bitwise (t : CIntType) (f : BitVec t.bits → BitVec t.bits → BitVec t.bits) (v w : Int) :
    Option CValue :=
  some (.int t (t.convert (f (.ofInt t.bits v) (.ofInt t.bits w)).toInt))

/-- A binary operation on integers; the logical ones do not always evaluate both operands and
are not among them. -/
def arith (o : Binary) (t : CIntType) (v : Int) (u : CIntType) (w : Int) : Option CValue :=
  let c := t.common u
  let x := c.convert v
  let y := c.convert w
  match o with
  | .add => result c (x + y)
  | .sub => result c (x - y)
  | .mul => result c (x * y)
  | .div => if y = 0 then none else result c (x.tdiv y)
  | .rem =>
    if y = 0 ∨ (c.signed ∧ ¬ c.Fits (x.tdiv y)) then none else some (.int c (x.tmod y))
  | .shl =>
    if 0 ≤ w ∧ w < t.promote.bits then result t.promote (v * 2 ^ w.toNat) else none
  | .shr =>
    if 0 ≤ w ∧ w < t.promote.bits then some (.int t.promote (v / 2 ^ w.toNat)) else none
  | .lt => truth (x < y)
  | .gt => truth (x > y)
  | .le => truth (x ≤ y)
  | .ge => truth (x ≥ y)
  | .eq => truth (x = y)
  | .ne => truth (x ≠ y)
  | .and => bitwise c (· &&& ·) x y
  | .xor => bitwise c (· ^^^ ·) x y
  | .or => bitwise c (· ||| ·) x y
  | .logAnd | .logOr | .question => none

/-- The value of a tree. -/
def eval (E : CEnv) : Tree → Option CValue
  | .atom (.number s) =>
    match decimal s with
    | some n => some (.int (.ofDecimal n) n)
    | none =>
      match unsignedDecimal s with
      | some n => some (.int (if n < 2 ^ 32 then .uint else .ulong) n)
      | none => E.store (.atom (.number s))
  | .atom (.char s) => (charConstant s).map (.int .int)
  | .unary .neg a =>
    match eval E a with
    | some (.int t v) => result t.promote (-v)
    | some .other => E.store (.unary .neg a)
    | none => none
  | .unary .not a =>
    match eval E a with
    | some (.int _ v) => truth (v = 0)
    | some .other => E.store (.unary .not a)
    | none => none
  | .unary .compl a =>
    match eval E a with
    | some (.int t v) => compl (some (.int t v))
    | some .other => E.store (.unary .compl a)
    | none => none
  | .binary .logAnd a b =>
    match eval E a with
    | some (.int _ 0) => truth false
    | some (.int _ _) =>
      match eval E b with
      | some (.int _ w) => truth (w ≠ 0)
      | some .other => E.store (.binary .logAnd a b)
      | none => none
    | some .other => E.store (.binary .logAnd a b)
    | none => none
  | .binary .logOr a b =>
    match eval E a with
    | some (.int _ 0) =>
      match eval E b with
      | some (.int _ w) => truth (w ≠ 0)
      | some .other => E.store (.binary .logOr a b)
      | none => none
    | some (.int _ _) => truth true
    | some .other => E.store (.binary .logOr a b)
    | none => none
  | .binary .question _ _ => none
  | .binary o a b =>
    match eval E a, eval E b with
    | some (.int t v), some (.int u w) => arith o t v u w
    | some _, some _ => E.store (.binary o a b)
    | _, _ => none
  | .cast ty a =>
    match eval E a, E.castType ty with
    | some (.int _ v), some t => some (.int t (t.convert v))
    | some _, _ => E.store (.cast ty a)
    | none, _ => none
  | .call (.atom (.ident f)) (.args a b) =>
    match E.function f with
    | some (t, fn) =>
      match eval E a, eval E b with
      | some (.int _ v), some (.int _ w) => (fn (t.convert v) (t.convert w)).map (.int t)
      | _, _ => none
    | none => E.store (.call (.atom (.ident f)) (.args a b))
  | t => E.store t

/-- The operators that compute with the values in the common type. -/
def Binary.isArith : Binary → Bool
  | .add | .sub | .mul | .div | .rem => true
  | _ => false

theorem decimal_toString (n : Nat) : decimal (toString n) = some n := by
  have hlist : (toString n).toList = Nat.toDigits 10 n := Nat.toList_repr
  have hdigits : (Nat.toDigits 10 n).all Char.isDigit := by
    rw [List.all_eq_true]
    intro c hc
    exact Nat.isDigit_of_mem_toDigits (by decide) (Nat.le_refl 10) hc
  rw [decimal, hlist, if_pos ⟨Nat.toDigits_ne_nil, hdigits⟩, Nat.ofDigitChars_ten_toDigits]

theorem eval_binary {E : CEnv} {o : Binary} (ho : o.isArith) {a b : Tree} {t u : CIntType}
    {v w : Int} (ha : eval E a = some (.int t v)) (hb : eval E b = some (.int u w)) :
    eval E (.binary o a b) = arith o t v u w := by
  cases o <;> first | exact absurd ho (by decide) | simp only [eval, ha, hb]

theorem arith_congr {o : Binary} (ho : o.isArith) {t t' u u' : CIntType} (v w : Int)
    (ht : t.promote = t'.promote) (hu : u.promote = u'.promote) :
    arith o t v u w = arith o t' v u' w := by
  have hcommon : t.common u = t'.common u' := by simp only [CIntType.common, ht, hu]
  cases o <;> first | exact absurd ho (by decide) | simp only [arith, hcommon]

end CGrammar
