/-
ApiStencil/Registry/Extension.lean

Extensions and what belongs to them.  Of the extensions that support the API the
first one of each name is kept.  A name that several extensions introduce belongs
to the first of them, or to the first that needs no guard if there is one
(`introduce`).
-/
import ApiStencil.Registry.Enumeration

namespace ApiStencil

namespace Document

/-- The preprocessor symbol of a platform.  The last declaration of a platform counts. -/
def platformSymbol? (doc : Document) (platform : String) : Option String :=
  (doc.platforms.reverse.find? (·.name = platform)).map Platform.protect

/-- The extensions that support the API, without later ones of the same name. -/
def keptExtensions (config : Config) (doc : Document) : List ExtensionDecl :=
  firstPer ExtensionDecl.name [] (doc.extensions.filter fun e => config.containsApi e.supported)

/-- The preprocessor symbol that guards an extension. -/
def guardOf (doc : Document) (e : ExtensionDecl) : Option String :=
  (e.platform.bind doc.platformSymbol?).orElse fun _ => e.protect

/-- The contributions of an extension. -/
def ExtensionDecl.contributions (config : Config) (e : ExtensionDecl) : List Contribution :=
  Document.contributions config e.number e.blocks

/-- The options that an extension adds, with the names of their enumerations. -/
def ExtensionDecl.options (config : Config) (e : ExtensionDecl) : List (String × EnumOption) :=
  (e.contributions config).filterMap Contribution.option?

end Document

namespace Extension

/-- Records the value of an option under the name of its enumeration, unless an option of that
name is recorded there. -/
def recordOption (recorded : OrderedMap (List (String × Int))) (base : String) (o : EnumOption) :
    OrderedMap (List (String × Int)) :=
  let values := (recorded.get? base).getD []
  recorded.insert base
    (if values.any (·.1 = o.name) then values else values ++ [(o.name, o.value)])

/-- Resolves the declaration of an extension. -/
def ofDecl (config : Config) (doc : Document) (e : Document.ExtensionDecl) : Extension :=
  let items := Document.requiredItems config e.blocks
  let types := items.filterMap fun
    | .type name => some name
    | _ => none
  let functions := items.filterMap fun
    | .command name => some name
    | _ => none
  { name := e.name
    number := e.number.getD 0
    kind := e.kind.bind Dispatch.ofName?
    dependency := e.depends.orElse fun _ => e.requires
    guard := doc.guardOf e
    supported := e.supported
    types := firstPer id [] types
    functions := firstPer id [] functions
    enumValues := (e.options config).foldl (fun m (base, o) => recordOption m base o) ∅
    constants := ((e.contributions config).filterMap Contribution.constant?).foldl
      (fun m (name, value) => m.insertNew name value) ∅ }

/-- All that an extension takes from a document is its platforms. -/
theorem ofDecl_congr {doc doc' : Document} (h : doc'.platforms = doc.platforms)
    (config : Config) : ofDecl config doc' = ofDecl config doc := by
  funext e
  have hguard : doc'.guardOf e = doc.guardOf e := by
    unfold Document.guardOf Document.platformSymbol?
    rw [h]
  rw [ofDecl, ofDecl, hguard]

/-! ### Names and the extensions that introduce them -/

/-- Records that `e` introduces `name`.  A name stays with its extension if that needs no guard,
or if `e` needs one too. -/
def introduce (extensions : OrderedMap Extension) (e : Extension) (owners : OrderedMap String)
    (name : String) : OrderedMap String :=
  match owners.get? name with
  | some owner =>
    if e.isGuarded ∨ !(extensions.get? owner).any isGuarded then owners
    else owners.insert name e.name
  | none => owners.insert name e.name

/-- The extension of every name that `names` lists for one of the extensions. -/
def owners (names : Extension → List String) (extensions : OrderedMap Extension) :
    OrderedMap String :=
  extensions.values.foldl (fun m e => (names e).foldl (introduce extensions e) m) ∅

end Extension

/-! ### System types -/

/-- The use of a variable's type, if that is a system type. -/
def SystemType.ofVariable? (external : OrderedMap ExternalType) (extension : String)
    (v : Variable) : Option SystemType :=
  let name := String.ofList (Number.dropEnd (· = '*') v.baseType.toList)
  match external.get? name with
  | some t => if t.system then some ⟨t.name, v.baseType, extension⟩ else none
  | none => none

/-- The variables of the structs and functions that an extension lists. -/
def Extension.usedVars (r : Registry) (e : Extension) : List Variable :=
  let members := e.types.flatMap fun name =>
    ((r.structs.get? (r.aliases.resolve name)).map Struct.members).getD []
  let parameters := e.functions.flatMap fun name =>
    ((r.functions.get? (r.aliases.resolve name)).map Function.parameters).getD []
  members.map Member.var ++ parameters.map Parameter.var

/-- The system types that the extensions use, in the order of their first use. -/
def SystemType.used (r : Registry) : List SystemType :=
  firstPer (fun t => (t.name, t.type)) [] <|
    r.extensions.values.flatMap fun e =>
      (e.usedVars r).filterMap (SystemType.ofVariable? r.externalTypes e.name)

end ApiStencil
