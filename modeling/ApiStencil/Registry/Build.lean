/-
ApiStencil/Registry/Build.lean

From a document to the registry.  The kept declarations are resolved one by one,
types before commands, and the first that cannot be resolved is the error.  What
is left then refers from one entity to others: options that features and
extensions contribute, the extensions that names belong to, and the structure
types of structs.
-/
import ApiStencil.Registry.Error
import ApiStencil.Registry.Extension

namespace ApiStencil

open Document

/-! ### Variables -/

/-- Resolves the variables that belong to `owner`, from the first to the last. -/
def Registry.resolveVariables (ctx : Declaration.Context) (owner : String)
    (raws : List (Except Declaration.Error Declaration.Raw)) :
    Except Registry.Error (List Variable) := do
  let vars ← raws.zipIdx.mapM fun (raw, index) =>
    (raw.bind (Declaration.Raw.resolve ctx index)).mapError (Registry.Error.declaration owner)
  return Variable.markLengths vars

/-- An entity that a type declares. -/
inductive TypeEntity where
  | baseType (t : BaseType)
  | flag (f : Flag)
  | handle (h : Handle)
  | functionPointer (p : FunctionPointer)
  | struct (s : Struct)
  | union (u : Union)
  | external (t : ExternalType)
deriving DecidableEq, Repr

namespace TypeEntity

/-! ### Entities of types -/

/-- The return type of a function pointer: its code between `typedef` and the first parenthesis. -/
def returnType (body : TypeBody) : String :=
  match body with
  | .code text _ =>
    let code := Text.trimStart text.toList
    let code := ("typedef".toList.isPrefixOf? code).getD code
    String.ofList (Text.trim (code.takeWhile (· ≠ '(')))
  | _ => ""

/-- Resolves the members of a struct or union. -/
def resolveMembers (ctx : Declaration.Context) (owner : String) (members : List Document.Member) :
    Except Registry.Error (List (Variable × Document.Member)) := do
  let vars ← Registry.resolveVariables ctx owner (members.map Declaration.Raw.ofMember)
  return vars.zip members

/-- Resolves the declaration of a type. -/
def ofType (ctx : Declaration.Context) (t : NamedType) : Except Registry.Error TypeEntity :=
  match t.category with
  | .baseType => .ok (.baseType ⟨t.name, t.decl.codeType?.getD ""⟩)
  | .bitmask =>
    .ok (.flag ⟨t.name, t.decl.codeType?.getD "", t.decl.requires.orElse fun _ => t.decl.bitValues⟩)
  | .handle =>
    .ok (.handle ⟨t.name, t.decl.parent.bind fun p => (commaParts p).head?,
      t.decl.codeType? = some "VK_DEFINE_HANDLE"⟩)
  | .functionPointer => .ok (.functionPointer ⟨t.name, returnType t.decl.body⟩)
  | .struct => do
    let members ← resolveMembers ctx t.name (t.decl.apiMembers ctx.config)
    return .struct ⟨t.name, members.map fun (v, m) => ⟨v, m.selector, m.values⟩,
      t.decl.structExtends.getD "", -1⟩
  | .union => do
    let members ← resolveMembers ctx t.name (t.decl.apiMembers ctx.config)
    return .union ⟨t.name, members.map fun (v, m) => ⟨v, (m.selection.map commaParts).getD []⟩⟩
  | .external =>
    let requires := t.decl.requires.getD ""
    .ok (.external ⟨t.name, requires,
      requires ≠ "vk_platform" ∧ !"vk_video/".toList.isPrefixOf requires.toList⟩)

end TypeEntity

/-! ### Functions -/

namespace Handle

/-- Whether calls with this handle go through the instance: it has no parent, or is dispatchable
and its parent has none. -/
def viaInstance (handles : OrderedMap Handle) (h : Handle) : Bool :=
  match h.parent with
  | none => true
  | some parent => h.dispatchable && (handles.get? parent).any (·.parent.isNone)

end Handle

namespace Function

/-- The dispatch of a function, given by its first parameter. -/
def dispatchOf (config : Config) (handles : OrderedMap Handle) (name : String)
    (parameters : List Variable) : Dispatch :=
  let first := parameters.head?.bind fun v => handles.get? v.typeId
  if first.any (Handle.viaInstance handles) ∨ name = config.instanceCreationFunction then
    .viaInstance
  else .viaDevice

/-- Whether a call may write through a parameter. -/
def writesThrough (v : Variable) : Bool :=
  v.declaredType.toList.contains '*' && !v.isConst

/-- Resolves the definition of a command. -/
def ofCommand (ctx : Declaration.Context) (handles : OrderedMap Handle) (d : CommandDef) :
    Except Registry.Error Function := do
  let name := d.prototype.name
  let vars ← Registry.resolveVariables ctx name
    ((d.apiParams ctx.config).map Declaration.Raw.ofParam)
  let dispatch := dispatchOf ctx.config handles name vars
  return {
    name, dispatch
    returnType := d.prototype.typeName.getD "void"
    parameters := vars.map Parameter.mk
    type := dispatch
    stateTracking := ctx.config.stateTracking.get? name
    safeToPrint := !vars.any writesThrough }

/-- The function with its final type: an instance extension that lists it makes it one of the
instance. -/
def retype (extensions : List Extension) (f : Function) : Function :=
  if extensions.any fun e => e.kind = some .viaInstance && e.functions.contains f.name then
    { f with type := .viaInstance }
  else f

end Function

/-! ### Structure types -/

namespace Struct

/-- The name of the enumeration of structure types. -/
def structureTypes : String := "VkStructureType"

/-- The option for the structure type that a struct carries: the first value of a member that
names one. -/
def typeOption? (e : Enumeration) (s : Struct) : Option EnumOption :=
  s.members.findSome? fun m =>
    (m.values.bind fun values => (commaParts values).head?).bind e.option?

/-- The struct with the number of its structure type, if it extends another one. -/
def indexed (enums : OrderedMap Enumeration) (s : Struct) : Struct :=
  if s.structExtends = "" then s
  else match (enums.get? structureTypes).bind fun e => s.typeOption? e with
    | some o => { s with typeIndex := o.value }
    | none => s

end Struct

/-! ### The registry -/

namespace Document

/-- What the declarations of a document are resolved against. -/
def context (config : Config) (doc : Document) : Declaration.Context :=
  ⟨config, doc.aliases, doc.constants⟩

/-- The options that features and extensions add, with the names of their enumerations. -/
def contributedOptions (config : Config) (doc : Document) : List (String × EnumOption) :=
  doc.features.flatMap (Feature.options config) ++
    (doc.keptExtensions config).flatMap (ExtensionDecl.options config)

/-- The enumerations of one kind. -/
def enumerations (config : Config) (doc : Document) (kind : EnumKind) : OrderedMap Enumeration :=
  let groups := (doc.keptGroups config).filter (·.kind = kind)
  OrderedMap.ofList <| groups.map fun g =>
    (g.name, (Enumeration.ofGroup config g).extend doc.aliases (doc.contributedOptions config))

end Document

namespace Registry

/-- Collects the entities of one kind under their names. -/
def collect {α β : Type} (entity? : α → Option β) (name : β → String) (l : List α) :
    OrderedMap β :=
  OrderedMap.ofList ((l.filterMap entity?).map fun b => (name b, b))

/-- Puts the resolved types and functions of a document together with its enumerations and
extensions. -/
def link (config : Config) (doc : Document) (types : List TypeEntity) (functions : List Function) :
    Registry :=
  let enums := doc.enumerations config .plain
  let extensions := collect some Extension.name
    ((doc.keptExtensions config).map (Extension.ofDecl config doc))
  let r : Registry :=
    { functions := collect some Function.name (functions.map (Function.retype extensions.values))
      structs := (collect (fun | .struct s => some s | _ => none) Struct.name types).map
        (Struct.indexed enums)
      unions := collect (fun | .union u => some u | _ => none) Union.name types
      enums := enums
      bitmasks := doc.enumerations config .bits
      flags := collect (fun | .flag f => some f | _ => none) Flag.name types
      handles := collect (fun | .handle h => some h | _ => none) Handle.name types
      baseTypes := collect (fun | .baseType t => some t | _ => none) BaseType.name types
      externalTypes := collect (fun | .external t => some t | _ => none) ExternalType.name types
      functionPointers :=
        collect (fun | .functionPointer p => some p | _ => none) FunctionPointer.name types
      extensions := extensions
      systemTypes := []
      aliases := doc.aliases
      constants := doc.constants
      extensionFunctions := Extension.owners Extension.functions extensions
      extensionTypes := Extension.owners Extension.types extensions }
  { r with systemTypes := SystemType.used r }

/-- Resolves a document. -/
def build (config : Config) (doc : Document) : Except Error Registry := do
  let ctx := doc.context config
  let types ← (doc.keptTypes config).mapM (TypeEntity.ofType ctx)
  let handles := collect (fun | .handle h => some h | _ => none) Handle.name types
  let functions ← (doc.keptCommands config).mapM (Function.ofCommand ctx handles)
  return link config doc types functions

/-! ### Notices -/

/-- The declarations that are resolved for a document, in order. -/
def declarations (config : Config) (doc : Document) :
    List (Except Declaration.Error Declaration.Raw) :=
  let ofTypes := (doc.keptTypes config).flatMap fun t =>
    if t.category = .struct ∨ t.category = .union then
      (t.decl.apiMembers config).map Declaration.Raw.ofMember
    else []
  let ofCommands := (doc.keptCommands config).flatMap fun d =>
    (d.apiParams config).map Declaration.Raw.ofParam
  ofTypes ++ ofCommands

/-- The notices about declarations, up to the first that cannot be resolved. -/
def noticesOf (ctx : Declaration.Context) :
    List (Except Declaration.Error Declaration.Raw) → List Declaration.Notice
  | [] => []
  | .error _ :: _ => []
  | .ok raw :: r =>
    raw.notice?.toList ++
      match raw.resolve ctx 0 with
      | .ok _ => noticesOf ctx r
      | .error _ => []

/-- The notices about the declarations of a document. -/
def notices (config : Config) (doc : Document) : List Declaration.Notice :=
  noticesOf (doc.context config) (declarations config doc)

end Registry

end ApiStencil
