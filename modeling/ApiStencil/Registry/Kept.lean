/-
ApiStencil/Registry/Kept.lean

Which declarations of a document become entities.  Types, groups of enumerants
and commands share one space of names: of several declarations whose names have
the same alias-free form the first one is kept, and types go before groups and
groups before commands.
-/
import ApiStencil.Alias
import ApiStencil.Config
import ApiStencil.Distinct
import ApiStencil.Document
import ApiStencil.Registry.Entity

namespace ApiStencil

/-- The kinds of types that become entities. -/
inductive TypeCategory where
  | baseType
  | bitmask
  | handle
  | functionPointer
  | struct
  | union
  | external
deriving DecidableEq, Repr

namespace Document

/-- The aliases of a document.  The last one of a name counts, at the place of the first. -/
def aliases (doc : Document) : Aliases :=
  let ofTypes := doc.types.filterMap fun t =>
    match t.name, t.aliasOf with
    | some name, some target => some (name, target)
    | _, _ => none
  let ofCommands := doc.commands.filterMap fun
    | .aliasOf name target => some (name, target)
    | .definition _ => none
  OrderedMap.ofList (ofTypes ++ ofCommands)

/-! ### Constants -/

/-- The name of the groups that hold constants. -/
def constantsGroup : String := "API Constants"

/-- Adds a constant, or another name for one that is known, unless its name is taken. -/
def addConstant (constants : OrderedMap String) (e : Enumerant) : OrderedMap String :=
  match e.value with
  | .value text _ => constants.insertNew e.name text
  | .aliasOf target _ =>
    match constants.get? target with
    | some text => constants.insertNew e.name text
    | none => constants
  | _ => constants

/-- The constants that belong to no enumeration. -/
def constants (doc : Document) : OrderedMap String :=
  let groups := doc.enumGroups.filter (·.name = some constantsGroup)
  (groups.flatMap EnumGroup.enumerants).foldl addConstant ∅

/-! ### Types -/

/-- The category of a type.  A type without a category is external if it names the header that
declares it. -/
def TypeDecl.category? (t : TypeDecl) : Option TypeCategory :=
  match t.category with
  | some "basetype" => some .baseType
  | some "bitmask" => some .bitmask
  | some "handle" => some .handle
  | some "funcpointer" => some .functionPointer
  | some "struct" => some .struct
  | some "union" => some .union
  | some _ => none
  | none => if t.requires.isSome then some .external else none

/-- A type that can become an entity. -/
structure NamedType where
  name : String
  category : TypeCategory
  decl : TypeDecl
deriving DecidableEq, Repr

/-- The named types of the API that have a category and are no aliases. -/
def namedTypes (config : Config) (doc : Document) : List NamedType :=
  doc.types.filterMap fun t =>
    if t.aliasOf.isSome ∨ !config.containsApi t.api then none
    else match t.name?, t.category? with
      | some name, some category => some ⟨name, category, t⟩
      | _, _ => none

/-- Of each alias-free name the first type. -/
def keptTypes (config : Config) (doc : Document) : List NamedType :=
  firstPer (fun t => doc.aliases.resolve t.name) [] (doc.namedTypes config)

/-! ### Groups of enumerants -/

/-- A group that can become an enumeration. -/
structure NamedGroup where
  name : String
  kind : EnumKind
  decl : EnumGroup
deriving DecidableEq, Repr

/-- The groups of a kind that becomes an enumeration. -/
def namedGroups (doc : Document) : List NamedGroup :=
  doc.enumGroups.filterMap fun g =>
    match g.name, g.kind.bind EnumKind.ofName? with
    | some name, some kind => some ⟨name, kind, g⟩
    | _, _ => none

/-- The alias-free names of the kept types. -/
def typeKeys (config : Config) (doc : Document) : List String :=
  (doc.keptTypes config).map fun t => doc.aliases.resolve t.name

/-- Of each alias-free name the first group, unless a type has taken it. -/
def keptGroups (config : Config) (doc : Document) : List NamedGroup :=
  firstPer (fun g => doc.aliases.resolve g.name) (doc.typeKeys config) doc.namedGroups

/-! ### Commands -/

/-- The alias-free names of the kept groups. -/
def groupKeys (config : Config) (doc : Document) : List String :=
  (doc.keptGroups config).map fun g => doc.aliases.resolve g.name

/-- The commands that are neither excluded nor aliases. -/
def namedCommands (config : Config) (doc : Document) : List CommandDef :=
  doc.definitions.filter fun d =>
    !config.isExcluded d.prototype.name && !doc.aliases.contains d.prototype.name

/-- Of each alias-free name the first command, unless a type or a group has taken it. -/
def keptCommands (config : Config) (doc : Document) : List CommandDef :=
  firstPer (fun d => doc.aliases.resolve d.prototype.name)
    (doc.typeKeys config ++ doc.groupKeys config) (doc.namedCommands config)

/-! ### Members and parameters of the API -/

/-- The members that belong to the API. -/
def TypeDecl.apiMembers (config : Config) (t : TypeDecl) : List Member :=
  t.members.filter fun m => config.containsApi m.api

/-- The parameters that belong to the API. -/
def CommandDef.apiParams (config : Config) (d : CommandDef) : List Param :=
  d.params.filter fun p => config.containsApi p.api

end Document

end ApiStencil
