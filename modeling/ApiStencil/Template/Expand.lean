/-
ApiStencil/Template/Expand.lean

Expanding a template for a registry.  Inside the loops stand items, the innermost
first; together they give the placeholders their values, and the innermost one
that owns items of a subject is the owner a nested loop iterates over.
-/
import ApiStencil.Condition.Eval
import ApiStencil.Template.Fragment
import ApiStencil.Template.Item
import ApiStencil.Template.Node

namespace ApiStencil.Template

/-- The items of the loops around a part of a template, the innermost first, and the values of
their placeholders. -/
structure Scope where
  items : List Item
  values : Values

namespace Scope

/-- The scope outside all loops. -/
def top : Scope := ⟨[], ∅⟩

/-- The scope in the loop over one more item, whose values go before those of the others. -/
def push (scope : Scope) (item : Item) : Scope :=
  ⟨item :: scope.items, scope.values.union item.placeholders⟩

/-- The name of the innermost item. -/
def entity? (scope : Scope) : Option String :=
  scope.items.head?.map Item.name

/-- The items of a loop over a subject that starts on the given line. -/
def itemsOf (r : Registry) (scope : Scope) (subject : Subject) (line : Nat) :
    Except Error (List Item) :=
  match subject.owner? with
  | none => .ok (subject.collection r)
  | some owner =>
    match scope.items.findSome? (Item.owned? subject) with
    | some items => .ok items
    | none => .error (.missingOwner subject owner line)

/-- The text with its placeholders replaced.  `line` is the line on which it starts. -/
def format (scope : Scope) (line : Nat) (text : List Char) : Except Error (List Char) :=
  (Placeholder.substitute scope.values text).mapError fun e =>
    .placeholder (line + Text.lineBreaks (Text.takeBytes e.offset text)) scope.entity? e

/-- Whether the condition of the directive on the given line holds.  No condition always holds. -/
def holds (scope : Scope) (line : Nat) : Option (List Char) → Except Error Bool
  | none => .ok true
  | some condition => do
    let text ← (Placeholder.substitute scope.values condition).mapError
      (Error.placeholder line scope.entity?)
    (Condition.evaluate text).mapError (Error.condition line scope.entity?)

end Scope

/-- The fragments of an item's part, between the lines of its guard if it has one. -/
def guarded (guard : Option String) (body : List Fragment) : List Fragment :=
  match guard with
  | none => body
  | some symbol => .guardStart symbol :: body ++ [.guardEnd]

namespace Node

mutual
/-- The fragments of a node. -/
def expand (r : Registry) (scope : Scope) : Node → Except Error (List Fragment)
  | .literal line text => (scope.format line text).map fun s => [.text s]
  | .block head line _ body _ =>
    match head with
    | .cond condition => do
      if ← scope.holds line (some condition) then expandAll r scope body else return []
    | .loop subject filter => do
      let items ← scope.itemsOf r subject line
      let parts ← items.mapM fun item => do
        let inner := scope.push item
        if ← inner.holds line filter then
          return guarded (item.guard? r) (← expandAll r inner body)
        else return []
      return parts.flatten

/-- Expands nodes one after the other. -/
def expandAll (r : Registry) (scope : Scope) : List Node → Except Error (List Fragment)
  | [] => .ok []
  | n :: rest => do
    let first ← expand r scope n
    let more ← expandAll r scope rest
    return first ++ more
end

end Node

/-- The text that the nodes of a template expand to. -/
def expandNodes (r : Registry) (nodes : List Node) : Except Error (List Char) :=
  (Node.expandAll r .top nodes).map (Fragment.render true)

/-- Reads a template and expands it. -/
def expand (r : Registry) (text : List Char) : Except Error (List Char) := do
  expandNodes r (← parse text)

end ApiStencil.Template
