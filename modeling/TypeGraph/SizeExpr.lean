import TypeGraph.Failure

/-!
Sizes that are only known when the program runs. The folding constructors compute with constants
at once; the bare nodes leave everything to evaluation.
-/

namespace TypeGraph

/-- A size to be computed at run time. -/
inductive SizeExpr where
  | const (value : Count)
  /-- A value that the running program supplies. -/
  | runtime (expr : ExprId)
  | mul (lhs rhs : SizeExpr)
  /-- A quotient rounded up. -/
  | ceilDiv (lhs : SizeExpr) (divisor : Count)
deriving DecidableEq, Repr

/-- Why a size cannot be computed. -/
inductive EvalError where
  | overflow
  | divisionByZero
deriving DecidableEq, Repr

namespace SizeExpr

/-- The product of two sizes. A product of constants is computed; a factor zero or one needs no
node. There is no result when two constants overflow. -/
def mul? : SizeExpr → SizeExpr → Option SizeExpr
  | .const a, .const b => (Count.mul? a b).map .const
  | lhs, rhs =>
      if lhs = .const 0 ∨ rhs = .const 0 then some (.const 0)
      else if lhs = .const 1 then some rhs
      else if rhs = .const 1 then some lhs
      else some (.mul lhs rhs)

/-- The quotient of a size by a constant, rounded up. That of a constant is computed. -/
def divide (lhs : SizeExpr) (divisor : Count) : Except EvalError SizeExpr :=
  if divisor = 1 then .ok lhs
  else match lhs with
    | .const a => if divisor = 0 then .error .divisionByZero else .ok (.const (a.ceilDiv divisor))
    | lhs => .ok (.ceilDiv lhs divisor)

/-- The value of a constant. -/
def const? : SizeExpr → Option Count
  | .const value => some value
  | _ => none

def isConst (expr : SizeExpr) : Bool := expr.const?.isSome

/-- The size for given values of what is supplied at run time. -/
def eval (runtime : ExprId → Count) : SizeExpr → Except EvalError Count
  | .const value => .ok value
  | .runtime expr => .ok (runtime expr)
  | .mul lhs rhs => do
      let a ← lhs.eval runtime
      let b ← rhs.eval runtime
      match Count.mul? a b with
      | some product => .ok product
      | none => .error .overflow
  | .ceilDiv lhs divisor => do
      let a ← lhs.eval runtime
      if divisor = 0 then .error .divisionByZero else .ok (a.ceilDiv divisor)

def text : SizeExpr → String
  | .const value => toString value
  | .runtime expr => expr.text
  | .mul lhs rhs => "(" ++ lhs.text ++ " * " ++ rhs.text ++ ")"
  | .ceilDiv lhs divisor => "ceil(" ++ lhs.text ++ " / " ++ toString divisor ++ ")"

end SizeExpr

end TypeGraph
