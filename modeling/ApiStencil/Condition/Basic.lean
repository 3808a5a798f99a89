/-
ApiStencil/Condition/Basic.lean

The language of conditions.  A condition compares literals: quoted texts,
integers, booleans and lists of those.  It is read after placeholders have been
replaced by their values, so a bare name that is left over is a mistake, which
evaluation reports (`Error.unknownIdentifier`).
-/
import ApiStencil.Text.Measure

namespace ApiStencil.Condition

/-- A literal, or what an expression evaluates to. -/
inductive Value where
  | bool (b : Bool)
  | int (n : Int)
  | text (s : List Char)
  | list (items : List Value)
deriving Repr, Inhabited

/-- The four kinds of values. -/
inductive Kind where
  | boolean
  | integer
  | string
  | list
deriving DecidableEq, Repr

/-- The comparison operators. -/
inductive Comparison where
  | equal
  | notEqual
  | isIn
  | notIn
deriving DecidableEq, Repr

/-- A condition as it is read. -/
inductive Expr where
  | literal (v : Value)
  | list (items : List Expr)
  | name (s : List Char)
  | negate (e : Expr)
  | both (a b : Expr)
  | either (a b : Expr)
  | compare (op : Comparison) (a b : Expr)
deriving Repr, Inhabited

/-- The operators whose operands have to be of certain kinds. -/
inductive Operator where
  | negation
  | conjunction
  | disjunction
  | comparison (op : Comparison)
deriving DecidableEq, Repr

/-- Why a condition has no truth value. -/
inductive Error where
  /-- Reading stopped at this byte of the text. -/
  | malformed (text : List Char) (position : Nat)
  /-- The expression holds a name where it needs a literal. -/
  | unknownIdentifier (name : List Char)
  /-- An operator was applied to operands it does not support. -/
  | typeMismatch (op : Operator) (left : Kind) (right : Option Kind)
  /-- The whole expression is no truth value. -/
  | notBoolean (kind : Kind)
deriving DecidableEq, Repr

/-! ### Equality of values -/

namespace Value

mutual
/-- Whether two values are the same literal. -/
def same : Value → Value → Bool
  | .bool a, .bool b => a == b
  | .int a, .int b => a == b
  | .text a, .text b => a == b
  | .list a, .list b => sameAll a b
  | _, _ => false

def sameAll : List Value → List Value → Bool
  | [], [] => true
  | a :: r, b :: s => same a b && sameAll r s
  | _, _ => false
end

mutual
theorem same_iff_eq : ∀ a b : Value, same a b = true ↔ a = b
  | .bool a, b => by cases b <;> simp [same]
  | .int a, b => by cases b <;> simp [same]
  | .text a, b => by cases b <;> simp [same]
  | .list a, b => by
    cases b with
    | list b => simpa [same] using sameAll_iff_eq a b
    | _ => simp [same]

theorem sameAll_iff_eq : ∀ a b : List Value, sameAll a b = true ↔ a = b
  | [], b => by cases b <;> simp [sameAll]
  | a :: r, b => by
    cases b with
    | nil => simp [sameAll]
    | cons b s => simp [sameAll, same_iff_eq a b, sameAll_iff_eq r s]
end

instance : DecidableEq Value := fun a b =>
  decidable_of_iff (same a b = true) (same_iff_eq a b)

/-- The kind of a value. -/
def kind : Value → Kind
  | .bool _ => .boolean
  | .int _ => .integer
  | .text _ => .string
  | .list _ => .list

end Value

/-! ### Wording -/

def Kind.describe : Kind → String
  | .boolean => "boolean"
  | .integer => "integer"
  | .string => "string"
  | .list => "list"

def Comparison.spelling : Comparison → String
  | .equal => "=="
  | .notEqual => "!="
  | .isIn => "in"
  | .notIn => "not in"

def Operator.spelling : Operator → String
  | .negation => "not"
  | .conjunction => "and"
  | .disjunction => "or"
  | .comparison op => op.spelling

def Error.message : Error → String
  | .malformed text position =>
    "syntax error at position " ++ toString position ++ " in `" ++ String.ofList text ++ "`"
  | .unknownIdentifier name => "unknown identifier `" ++ String.ofList name ++ "`"
  | .typeMismatch op left none =>
    "type mismatch: `" ++ op.spelling ++ "` applied to " ++ left.describe
  | .typeMismatch op left (some right) =>
    "type mismatch: `" ++ op.spelling ++ "` applied to " ++ left.describe ++ " and " ++
      right.describe
  | .notBoolean kind => "condition evaluated to a " ++ kind.describe ++ " instead of a boolean"

end ApiStencil.Condition
