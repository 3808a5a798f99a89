/-
ApiStencil/Registry/Entity.lean

The entities of a resolved registry.
-/
import ApiStencil.Declaration.Variable
import ApiStencil.Registry.Number

namespace ApiStencil

/-- Whether a function is dispatched through the instance or through the device. -/
inductive Dispatch where
  | viaInstance
  | viaDevice
deriving DecidableEq, Repr

namespace Dispatch

def name : Dispatch → String
  | .viaInstance => "instance"
  | .viaDevice => "device"

def ofName? (s : String) : Option Dispatch :=
  if s = "instance" then some .viaInstance else if s = "device" then some .viaDevice else none

end Dispatch

/-- A parameter of a function. -/
structure Parameter where
  var : Variable
deriving DecidableEq, Repr

/-- A member of a struct. -/
structure Member where
  var : Variable
  /-- The sibling that selects the active choice of a member that is a union. -/
  selector : Option String
  /-- The enumerants that the member is fixed to. -/
  values : Option String
deriving DecidableEq, Repr

/-- A member of a union. -/
structure Choice where
  var : Variable
  /-- The values of the selector for which the choice is active. -/
  selection : List String
deriving DecidableEq, Repr

/-- A command with its signature and the way in which it is dispatched. -/
structure Function where
  name : String
  returnType : String
  parameters : List Parameter
  dispatch : Dispatch
  /-- The dispatch, unless an instance extension introduces the function. -/
  type : Dispatch
  stateTracking : Option String
  /-- Whether the arguments can be printed before the call: no parameter is a pointer that the
  call writes through. -/
  safeToPrint : Bool
deriving DecidableEq, Repr

/-- A struct with its members in order. -/
structure Struct where
  name : String
  members : List Member
  /-- The structs that this one can be chained to. -/
  structExtends : String
  /-- The number of the structure type that the struct carries if it extends another, and -1
  otherwise. -/
  typeIndex : Int
deriving DecidableEq, Repr

/-- A union with its choices in order. -/
structure Union where
  name : String
  choices : List Choice
deriving DecidableEq, Repr

/-- A named value of an enumeration. -/
structure EnumOption where
  name : String
  value : Int
  comment : String
deriving DecidableEq, Repr

namespace EnumOption

/-- Whether the value is no single bit. -/
def isMultiValue (o : EnumOption) : Bool :=
  !Number.isBit o.value

end EnumOption

/-- The two kinds of enumerations. -/
inductive EnumKind where
  | plain
  | bits
deriving DecidableEq, Repr

namespace EnumKind

def name : EnumKind → String
  | .plain => "enum"
  | .bits => "bitmask"

def ofName? (s : String) : Option EnumKind :=
  if s = "enum" then some .plain else if s = "bitmask" then some .bits else none

end EnumKind

/-- A group of named values, or of bits. -/
structure Enumeration where
  name : String
  kind : EnumKind
  bitWidth : Nat
  options : List EnumOption
deriving DecidableEq, Repr

namespace Enumeration

/-- The option with this name. -/
def option? (e : Enumeration) (name : String) : Option EnumOption :=
  e.options.find? (·.name = name)

end Enumeration

/-- A type for combinations of bits. -/
structure Flag where
  name : String
  type : String
  /-- The enumeration of the bits. -/
  bitmask : Option String
deriving DecidableEq, Repr

/-- A handle to an object that the API manages. -/
structure Handle where
  name : String
  parent : Option String
  dispatchable : Bool
deriving DecidableEq, Repr

/-- A name for a type of the language. -/
structure BaseType where
  name : String
  /-- The underlying type, empty for an opaque type. -/
  type : String
deriving DecidableEq, Repr

/-- A type that a header outside the registry declares. -/
structure ExternalType where
  name : String
  requires : String
  /-- Whether the header belongs to the system. -/
  system : Bool
deriving DecidableEq, Repr

/-- The type of a function that is called back. -/
structure FunctionPointer where
  name : String
  returnType : String
deriving DecidableEq, Repr

/-- An extension with what it adds. -/
structure Extension where
  name : String
  number : Int
  kind : Option Dispatch
  /-- What the extension depends on, as it is written. -/
  dependency : Option String
  /-- The preprocessor symbol that makes the extension available. -/
  guard : Option String
  supported : Option String
  types : List String
  functions : List String
  /-- The options that the extension adds, by the name of the enumeration. -/
  enumValues : OrderedMap (List (String × Int))
  constants : OrderedMap String

namespace Extension

/-- The guard, unless it is empty. -/
def guard? (e : Extension) : Option String :=
  e.guard.filter (· ≠ "")

def isGuarded (e : Extension) : Bool :=
  e.guard?.isSome

end Extension

/-- A system type that the structs and functions of an extension use. -/
structure SystemType where
  name : String
  /-- The type as it is used, with an asterisk if it is always behind a pointer. -/
  type : String
  /-- The extension that uses the type first. -/
  extension : String
deriving DecidableEq, Repr

/-- A registry with every name resolved.  The collections keep the order of the document. -/
structure Registry where
  functions : OrderedMap Function
  structs : OrderedMap Struct
  unions : OrderedMap Union
  enums : OrderedMap Enumeration
  bitmasks : OrderedMap Enumeration
  flags : OrderedMap Flag
  handles : OrderedMap Handle
  baseTypes : OrderedMap BaseType
  externalTypes : OrderedMap ExternalType
  functionPointers : OrderedMap FunctionPointer
  extensions : OrderedMap Extension
  systemTypes : List SystemType
  aliases : Aliases
  constants : OrderedMap String
  /-- The extension that a function belongs to. -/
  extensionFunctions : OrderedMap String
  /-- The extension that a type belongs to. -/
  extensionTypes : OrderedMap String
deriving Inhabited

namespace Registry

/-- The extension that introduces a function. -/
def extensionForFunction? (r : Registry) (name : String) : Option Extension :=
  (r.extensionFunctions.get? name).bind r.extensions.get?

/-- The extension that introduces a type. -/
def extensionForType? (r : Registry) (name : String) : Option Extension :=
  (r.extensionTypes.get? name).bind r.extensions.get?

end Registry

end ApiStencil
