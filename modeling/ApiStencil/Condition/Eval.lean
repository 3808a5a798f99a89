/-
ApiStencil/Condition/Eval.lean

The value of an expression.  Comparisons evaluate both operands, connectives the
right one only when the left one leaves the result open.  `==` and `!=` compare
values of one kind; `in` looks for an item of a list or for a part of a text.
-/
import ApiStencil.Condition.Reader
import ApiStencil.Text.Search

namespace ApiStencil.Condition

/-- Whether `a op b` holds. -/
def Comparison.apply (op : Comparison) (a b : Value) : Except Error Bool :=
  let mismatch : Except Error Bool :=
    .error (.typeMismatch (.comparison op) a.kind (some b.kind))
  let isIn : Option Bool :=
    match a, b with
    | _, .list items => some (decide (a ∈ items))
    | .text part, .text whole => some (Text.occursIn part whole)
    | _, _ => none
  match op with
  | .equal => if a.kind = b.kind then .ok (decide (a = b)) else mismatch
  | .notEqual => if a.kind = b.kind then .ok (!decide (a = b)) else mismatch
  | .isIn => match isIn with
    | some found => .ok found
    | none => mismatch
  | .notIn => match isIn with
    | some found => .ok !found
    | none => mismatch

/-- The truth value of an operand of `op`. -/
def Value.operand (op : Operator) : Value → Except Error Bool
  | .bool b => .ok b
  | v => .error (.typeMismatch op v.kind none)

namespace Expr

mutual
/-- The value of an expression. The right operand of `and` or `or` is looked at only if the left one
does not decide. -/
def eval : Expr → Except Error Value
  | .literal v => .ok v
  | .list items => return .list (← evalAll items)
  | .name s => .error (.unknownIdentifier s)
  | .negate e => do
    let b ← (← eval e).operand .negation
    return .bool !b
  | .both a b => do
    let left ← (← eval a).operand .conjunction
    if left then
      let right ← (← eval b).operand .conjunction
      return .bool right
    else return .bool false
  | .either a b => do
    let left ← (← eval a).operand .disjunction
    if left then return .bool true
    else
      let right ← (← eval b).operand .disjunction
      return .bool right
  | .compare op a b => do
    let left ← eval a
    let right ← eval b
    return .bool (← op.apply left right)

/-- The values of a list of expressions, from the first to the last. -/
def evalAll : List Expr → Except Error (List Value)
  | [] => .ok []
  | e :: r => do
    let v ← eval e
    return v :: (← evalAll r)
end

end Expr

/-- The truth value of the condition that a text writes. -/
def evaluate (text : List Char) : Except Error Bool := do
  let e ← Expr.ofText text
  match ← e.eval with
  | .bool b => return b
  | v => throw (.notBoolean v.kind)

end ApiStencil.Condition
