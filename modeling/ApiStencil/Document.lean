/-
ApiStencil/Document.lean

A registry document: the declarations of an API as they are written, block after
block.  Attributes that a declaration lacks are `none`; comments and blocks that
declare nothing are left out.
-/

namespace ApiStencil.Document

/-- A window system or an operating system, with the preprocessor symbol that selects it. -/
structure Platform where
  name : String
  protect : String
deriving DecidableEq, Repr

/-! ### Types -/

/-- A marked-up part of a type's code. -/
inductive CodeMark where
  | name (text : String)
  | type (text : String)
  | entry (text : String)
deriving DecidableEq, Repr

/-- A marked-up part of a member. -/
inductive MemberMark where
  | name (text : String)
  | type (text : String)
  | enumerant (text : String)
  | comment (text : String)
deriving DecidableEq, Repr

/-- A member of a struct or union. -/
structure Member where
  len : Option String
  selector : Option String
  selection : Option String
  values : Option String
  api : Option String
  code : String
  marks : List MemberMark
deriving DecidableEq, Repr

/-- What a type consists of. -/
inductive TypeBody where
  | empty
  | code (text : String) (marks : List CodeMark)
  | members (members : List Member)
deriving DecidableEq, Repr

/-- A type with its attributes and what it consists of. -/
structure TypeDecl where
  name : Option String
  aliasOf : Option String
  api : Option String
  requires : Option String
  category : Option String
  parent : Option String
  structExtends : Option String
  bitValues : Option String
  body : TypeBody
deriving DecidableEq, Repr

/-! ### Enumerations -/

/-- What an enumerant stands for. -/
inductive EnumerantValue where
  | empty
  | aliasOf (target : String) (base : Option String)
  /-- A number in the block of values that belongs to an extension. -/
  | offset (offset : Int) (base : String) (extensionNumber : Option Int) (positive : Bool)
  | bit (position : Nat) (base : Option String)
  | value (text : String) (base : Option String)
deriving DecidableEq, Repr

/-- A named value, or another name for one. -/
structure Enumerant where
  name : String
  comment : Option String
  api : Option String
  value : EnumerantValue
deriving DecidableEq, Repr

/-- A group of enumerants. -/
structure EnumGroup where
  name : Option String
  kind : Option String
  bitWidth : Option Nat
  enumerants : List Enumerant
deriving DecidableEq, Repr

/-! ### Commands -/

/-- A declared name with its type and code. -/
structure NameWithType where
  name : String
  typeName : Option String
  code : String
deriving DecidableEq, Repr

/-- A parameter of a command. -/
structure Param where
  len : Option String
  api : Option String
  declaration : NameWithType
deriving DecidableEq, Repr

/-- A command that is declared, with its parameters. -/
structure CommandDef where
  prototype : NameWithType
  params : List Param
  api : Option String
deriving DecidableEq, Repr

/-- A command, or another name for one. -/
inductive Command where
  | aliasOf (name target : String)
  | definition (d : CommandDef)
deriving DecidableEq, Repr

/-! ### Features and extensions -/

/-- Something that a feature or an extension requires. -/
inductive RequiredItem where
  | type (name : String)
  | command (name : String)
  | enumerant (e : Enumerant)
deriving DecidableEq, Repr

/-- What is required together, for the APIs that are listed. -/
structure RequireBlock where
  api : Option String
  items : List RequiredItem
deriving DecidableEq, Repr

/-- A version of the API. -/
structure Feature where
  api : String
  name : String
  requires : List RequireBlock
deriving DecidableEq, Repr

/-- An extension of the API, with what it requires. -/
structure ExtensionDecl where
  name : String
  number : Option Int
  protect : Option String
  platform : Option String
  kind : Option String
  requires : Option String
  supported : Option String
  depends : Option String
  blocks : List RequireBlock
deriving DecidableEq, Repr

/-! ### The document -/

/-- What stands in a document at its top level. -/
inductive Block where
  | platforms (l : List Platform)
  | types (l : List TypeDecl)
  | enums (g : EnumGroup)
  | commands (l : List Command)
  | feature (f : Feature)
  | extensions (l : List ExtensionDecl)
deriving DecidableEq, Repr

end Document

/-- The blocks of a registry document. -/
abbrev Document := List Document.Block

namespace Document

def platforms (doc : Document) : List Platform :=
  doc.flatMap fun
    | .platforms l => l
    | _ => []

/-- The types of all blocks, in their order. -/
def types (doc : Document) : List TypeDecl :=
  doc.flatMap fun
    | .types l => l
    | _ => []

def enumGroups (doc : Document) : List EnumGroup :=
  doc.filterMap fun
    | .enums g => some g
    | _ => none

/-- The commands of all blocks, also those that are aliases. -/
def commands (doc : Document) : List Command :=
  doc.flatMap fun
    | .commands l => l
    | _ => []

/-- The commands that are no aliases. -/
def definitions (doc : Document) : List CommandDef :=
  doc.commands.filterMap fun
    | .definition d => some d
    | .aliasOf _ _ => none

def features (doc : Document) : List Feature :=
  doc.filterMap fun
    | .feature f => some f
    | _ => none

def extensions (doc : Document) : List ExtensionDecl :=
  doc.flatMap fun
    | .extensions l => l
    | _ => []

/-! ### Reading the marks -/

/-- The name of a type, which handles and function pointers give in their code only. -/
def TypeDecl.name? (t : TypeDecl) : Option String :=
  t.name.orElse fun _ =>
    match t.body with
    | .code _ marks => marks.findSome? fun
      | .name s => some s
      | _ => none
    | _ => none

/-- The first type that the code of a type mentions. -/
def TypeDecl.codeType? (t : TypeDecl) : Option String :=
  match t.body with
  | .code _ marks => marks.findSome? fun
    | .type s => some s
    | _ => none
  | _ => none

/-- The parts of a text between commas. -/
def commaParts (s : String) : List String :=
  (s.toList.splitOn ',').map String.ofList

/-- The members of a struct or union. -/
def TypeDecl.members (t : TypeDecl) : List Member :=
  match t.body with
  | .members l => l
  | _ => []

end Document

end ApiStencil
