import AtomicMovers.Program.Expr

/-!
# The meaning of expressions

An expression has a value in two states, the prior and the current one. Booleans, the logical
operators and equality mean what they always mean; numbers, all other operators, functions and the
values of each type are given by an `Interpretation`.

A quantifier picks the values of its variables in both states at once, so that inside of it `old`
makes no difference to them.
-/

namespace AtomicMovers

/-- Booleans, and whatever else an interpretation speaks about. -/
inductive Value (D : Type) where
  | bool (b : Bool)
  | datum (d : D)

/-- The value is the truth. -/
def Value.Holds {D : Type} (x : Value D) : Prop := x = .bool true

/-- What the program leaves open. -/
structure Interpretation (D : Type) where
  int : Int → Value D
  bits : Nat → Nat → Value D
  neg : Value D → Value D
  /-- Asked for the operators other than the logical ones and equality. -/
  binary : BinaryOp → Value D → Value D → Value D
  call : String → List (Value D) → Value D
  /-- The values a variable of a type ranges over. -/
  range : Ty → Value D → Prop

/-! ## States -/

/-- The values of all variables. -/
abbrev State (D : Type) := VarRef → Value D

namespace State

variable {D : Type}

def set (s : State D) (v : VarRef) (x : Value D) : State D := fun w => if w = v then x else s w

/-- Gives variables new values from left to right. -/
def setAll (s : State D) (updates : List (VarRef × Value D)) : State D :=
  updates.foldl (fun s u => s.set u.1 u.2) s

/-- The state `s` with the values of `vs` taken from `t`. -/
def override (s : State D) (vs : List VarRef) (t : State D) : State D :=
  fun v => if v ∈ vs then t v else s v

/-- Two states that give the variables of `vs` the same values. -/
def AgreeOn (vs : List VarRef) (s t : State D) : Prop := ∀ v ∈ vs, s v = t v

end State

/-! ## Evaluation -/

namespace Interpretation

variable {D : Type}

def literal (I : Interpretation D) : Literal → Value D
  | .bool b => .bool b
  | .int i => I.int i
  | .bits value width => I.bits value width

open Classical in
/-- The truth value of a proposition. -/
noncomputable def truth (P : Prop) : Value D := .bool (decide P)

noncomputable def unary (I : Interpretation D) : UnaryOp → Value D → Value D
  | .not, x => truth (¬x.Holds)
  | .neg, x => I.neg x

noncomputable def operate (I : Interpretation D) : BinaryOp → Value D → Value D → Value D
  | .and, x, y => truth (x.Holds ∧ y.Holds)
  | .or, x, y => truth (x.Holds ∨ y.Holds)
  | .implies, x, y => truth (x.Holds → y.Holds)
  | .iff, x, y => truth (x.Holds ↔ y.Holds)
  | .eq, x, y => truth (x = y)
  | op, x, y => I.binary op x y

/-- The values of `vs` in `t` are among those that variables of their types range over. -/
def InRange (I : Interpretation D) (ty : VarRef → Ty) (vs : List VarRef) (t : State D) : Prop :=
  ∀ v ∈ vs, I.range (ty v) (t v)

end Interpretation

namespace Expr

variable {D : Type}

mutual

/-- The value of an expression in a prior and a current state; `ty` gives the types of variables. -/
noncomputable def eval (I : Interpretation D) (ty : VarRef → Ty) :
    State D → State D → Expr → Value D
  | _, _, .lit value => I.literal value
  | _, current, .var v => current v
  | prior, _, .old e => e.eval I ty prior prior
  | prior, current, .unary op e => I.unary op (e.eval I ty prior current)
  | prior, current, .binary op l r =>
    I.operate op (l.eval I ty prior current) (r.eval I ty prior current)
  | prior, current, .call f args => I.call f (evalAll I ty prior current args)
  | prior, current, .quant .universal bound body =>
    Interpretation.truth (∀ t : State D, I.InRange ty bound t →
      (body.eval I ty (prior.override bound t) (current.override bound t)).Holds)
  | prior, current, .quant .existential bound body =>
    Interpretation.truth (∃ t : State D, I.InRange ty bound t ∧
      (body.eval I ty (prior.override bound t) (current.override bound t)).Holds)

noncomputable def evalAll (I : Interpretation D) (ty : VarRef → Ty) :
    State D → State D → List Expr → List (Value D)
  | _, _, [] => []
  | prior, current, e :: es => e.eval I ty prior current :: evalAll I ty prior current es

end

/-- The expression is true in a prior and a current state. -/
def Holds (I : Interpretation D) (ty : VarRef → Ty) (prior current : State D) (e : Expr) : Prop :=
  (e.eval I ty prior current).Holds

@[simp] theorem holds_old {I : Interpretation D} {ty : VarRef → Ty} {s t : State D} (e : Expr) :
    (old e).Holds I ty s t ↔ e.Holds I ty s s := by
  rw [Holds, eval, Holds]

end Expr

/-! ## What can occur in an expression -/

namespace Expr

mutual

/-- The expression does not mention the prior state. -/
def OldFree : Expr → Prop
  | .lit _ | .var _ => True
  | .old _ => False
  | .unary _ e => e.OldFree
  | .binary _ l r => l.OldFree ∧ r.OldFree
  | .call _ args => AllOldFree args
  | .quant _ _ body => body.OldFree

def AllOldFree : List Expr → Prop
  | [] => True
  | e :: es => e.OldFree ∧ AllOldFree es

end

mutual

/-- The variables bound somewhere in an expression. -/
def binders : Expr → List VarRef
  | .lit _ | .var _ => []
  | .old e => e.binders
  | .unary _ e => e.binders
  | .binary _ l r => l.binders ++ r.binders
  | .call _ args => bindersAll args
  | .quant _ bound body => bound ++ body.binders

def bindersAll : List Expr → List VarRef
  | [] => []
  | e :: es => e.binders ++ bindersAll es

end

mutual

/-- The variables with an occurrence that no quantifier around it binds. -/
def free : Expr → List VarRef
  | .lit _ => []
  | .var v => [v]
  | .old e => e.free
  | .unary _ e => e.free
  | .binary _ l r => l.free ++ r.free
  | .call _ args => freeAll args
  | .quant _ bound body => body.free.filter (· ∉ bound)

def freeAll : List Expr → List VarRef
  | [] => []
  | e :: es => e.free ++ freeAll es

end

end Expr

end AtomicMovers
