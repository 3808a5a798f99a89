/-
ApiStencil/Document/Markup.lean

Registry documents as they are marked up: what the elements below `registry` declare.
An element without an attribute that it needs declares nothing.
-/
import ApiStencil.Document
import ApiStencil.Markup.Node
import ApiStencil.Registry.Error

namespace ApiStencil.Document

open Markup

/-- The number in an attribute. -/
def number? (n : Node) (name : String) : Option Int :=
  (n.attribute? name).bind fun s => Text.readInt? 10 s.toList

/-- What a list of marks reads from the child elements of `n`. -/
def marksOf {α : Type} (marks : List (String × (String → α))) (n : Node) : List α :=
  n.children.filterMap fun child =>
    (marks.find? fun m => child.isNamed m.1).map fun m => m.2 child.string

def platform? (n : Node) : Option Platform := do
  return ⟨← n.attribute? "name", ← n.attribute? "protect"⟩

/-! ### Types -/

/-- The elements that mark up the code of a type. -/
def codeMarks : List (String × (String → CodeMark)) :=
  [("name", .name), ("type", .type), ("apientry", .entry)]

/-- The elements that mark up a member. -/
def memberMarks : List (String × (String → MemberMark)) :=
  [("name", .name), ("type", .type), ("enum", .enumerant), ("comment", .comment)]

def member (n : Node) : Member where
  len := n.attribute? "len"
  selector := n.attribute? "selector"
  selection := n.attribute? "selection"
  values := n.attribute? "values"
  api := n.attribute? "api"
  code := n.code (memberMarks.map Prod.fst)
  marks := marksOf memberMarks n

/-- The members of a type if it has any, and else its code. -/
def typeBody (n : Node) : TypeBody :=
  match n.childrenNamed "member" with
  | [] =>
    let code := n.code (codeMarks.map Prod.fst)
    if code = "" then .empty else .code code (marksOf codeMarks n)
  | l => .members (l.map member)

/-- Reads a type from its element. -/
def typeDecl (n : Node) : TypeDecl where
  name := n.attribute? "name"
  aliasOf := n.attribute? "alias"
  api := n.attribute? "api"
  requires := n.attribute? "requires"
  category := n.attribute? "category"
  parent := n.attribute? "parent"
  structExtends := n.attribute? "structextends"
  bitValues := n.attribute? "bitvalues"
  body := typeBody n

/-! ### Enumerations -/

/-- What the attributes of an enumerant give: an alias, a value, a bit, or an offset, which needs an
enumeration. -/
def enumerantValue? (n : Node) : Option EnumerantValue :=
  let base := n.attribute? "extends"
  match n.attribute? "alias", n.attribute? "value" with
  | some target, _ => some (.aliasOf target base)
  | none, some text => some (.value text base)
  | none, none =>
    match n.attribute? "bitpos", n.attribute? "offset" with
    | some _, _ => do return .bit (← number? n "bitpos").toNat base
    | none, some _ => do
      return .offset (← number? n "offset") (← base) (number? n "extnumber")
        (n.attribute? "dir" ≠ some "-")
    | none, none => some .empty

/-- Reads an enumerant, unless it has no name or stands for nothing. -/
def enumerant? (n : Node) : Option Enumerant := do
  return ⟨← n.attribute? "name", n.attribute? "comment", n.attribute? "api", ← enumerantValue? n⟩

def enumGroup (n : Node) : EnumGroup where
  name := n.attribute? "name"
  kind := n.attribute? "type"
  bitWidth := (number? n "bitwidth").map Int.toNat
  enumerants := (n.childrenNamed "enum").filterMap enumerant?

/-! ### Commands -/

/-- The declaration in an element.  Of several names and types the last ones count. -/
def nameWithType? (n : Node) : Option NameWithType := do
  let last (name : String) := ((n.childrenNamed name).map Node.string).getLast?
  return ⟨← last "name", last "type", n.code ["name", "type"]⟩

def param? (n : Node) : Option Param := do
  return ⟨n.attribute? "len", n.attribute? "api", ← nameWithType? n⟩

/-- Reads a command, or another name for one. -/
def command? (n : Node) : Option Command :=
  match n.attribute? "alias" with
  | some target => (n.attribute? "name").map fun name => .aliasOf name target
  | none => do
    let prototype ← (← (n.childrenNamed "proto").head?) |> nameWithType?
    return .definition
      ⟨prototype, (n.childrenNamed "param").filterMap param?, n.attribute? "api"⟩

/-! ### Features and extensions -/

def requiredItem? (n : Node) : Option RequiredItem :=
  if n.isNamed "type" then (n.attribute? "name").map .type
  else if n.isNamed "command" then (n.attribute? "name").map .command
  else if n.isNamed "enum" then (enumerant? n).map .enumerant
  else none

/-- Reads what a feature or an extension requires. -/
def requireBlocks (n : Node) : List RequireBlock :=
  (n.childrenNamed "require").map fun b =>
    ⟨b.attribute? "api", b.children.filterMap requiredItem?⟩

def feature? (n : Node) : Option Feature := do
  return ⟨← n.attribute? "api", ← n.attribute? "name", requireBlocks n⟩

/-- Reads an extension, unless its name is missing. -/
def extension? (n : Node) : Option ExtensionDecl := do
  let name ← n.attribute? "name"
  return {
    name
    number := number? n "number"
    protect := n.attribute? "protect"
    platform := n.attribute? "platform"
    kind := n.attribute? "type"
    requires := n.attribute? "requires"
    supported := n.attribute? "supported"
    depends := n.attribute? "depends"
    blocks := requireBlocks n }

/-! ### The document -/

/-- What a child of the root declares. -/
def block? (n : Node) : Option Block :=
  match n with
  | .text _ => none
  | .element name _ _ =>
    match name with
    | "platforms" => some (.platforms ((n.childrenNamed "platform").filterMap platform?))
    | "types" => some (.types ((n.childrenNamed "type").map typeDecl))
    | "enums" => some (.enums (enumGroup n))
    | "commands" => some (.commands ((n.childrenNamed "command").filterMap command?))
    | "feature" => (feature? n).map .feature
    | "extensions" => some (.extensions ((n.childrenNamed "extension").filterMap extension?))
    | _ => none

/-- The document that a text writes. -/
def ofText (text : String) : Except Registry.Error Document :=
  match (Node.ofText text.toList).find? (Node.isNamed "registry") with
  | some root => .ok (root.children.filterMap block?)
  | none => .error .missingRoot

end ApiStencil.Document
