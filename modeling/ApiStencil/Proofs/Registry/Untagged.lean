/-
ApiStencil/Proofs/Registry/Untagged.lean

Lists of APIs that are never read: those of commands, of alias types and of
constants.  `untagged` takes exactly these lists away.

Main statement: a document resolves as it does without them (`build_untagged`).  So
a command, an alias or a constant of another API counts like one of the configured
API, and leaving it out makes a difference (`not_forall_build_narrowed`).

An alias type is read for its target before anything looks at the list of its APIs,
and becomes no entity after that; a command has no filter at all; and a group of
constants is no enumeration, whose enumerants would be filtered.
-/
import ApiStencil.Registry.Build

namespace ApiStencil

open Document

namespace Document

/-! ### Taking the lists away -/

/-- An alias without its list of APIs.  Other types keep theirs. -/
def TypeDecl.untagged (t : TypeDecl) : TypeDecl :=
  if t.aliasOf.isSome then { t with api := none } else t

/-- The enumerant without its list of APIs. -/
def Enumerant.untagged (e : Enumerant) : Enumerant :=
  { e with api := none }

/-- Whether a group holds constants and is no enumeration. -/
def EnumGroup.holdsConstants (g : EnumGroup) : Bool :=
  g.name = some constantsGroup && (g.kind.bind EnumKind.ofName?).isNone

/-- Constants without their lists of APIs.  Enumerations keep theirs. -/
def EnumGroup.untagged (g : EnumGroup) : EnumGroup :=
  if g.holdsConstants then { g with enumerants := g.enumerants.map Enumerant.untagged } else g

/-- The definition without its list of APIs. -/
def CommandDef.untagged (d : CommandDef) : CommandDef :=
  { d with api := none }

/-- The command without its list of APIs, if it is a definition. -/
def Command.untagged : Command → Command
  | .definition d => .definition d.untagged
  | .aliasOf name target => .aliasOf name target

/-- The block without the lists that are never read. -/
def Block.untagged : Block → Block
  | .platforms l => .platforms l
  | .types l => .types (l.map TypeDecl.untagged)
  | .enums g => .enums g.untagged
  | .commands l => .commands (l.map Command.untagged)
  | .feature f => .feature f
  | .extensions l => .extensions l

/-- The document in which no command, no alias and no constant names the APIs it is for. -/
def untagged (doc : Document) : Document :=
  doc.map Block.untagged

/-! ### What an untagged document declares -/

variable (config : Config) (doc : Document)

theorem platforms_untagged : doc.untagged.platforms = doc.platforms := by
  rw [platforms, platforms, untagged, List.flatMap_map]
  congr
  funext b
  cases b <;> rfl

theorem types_untagged : doc.untagged.types = doc.types.map TypeDecl.untagged := by
  rw [types, types, untagged, List.flatMap_map, List.map_flatMap]
  congr
  funext b
  cases b <;> rfl

theorem enumGroups_untagged : doc.untagged.enumGroups = doc.enumGroups.map EnumGroup.untagged := by
  rw [enumGroups, enumGroups, untagged, List.filterMap_map, List.map_filterMap]
  congr
  funext b
  cases b <;> rfl

theorem commands_untagged : doc.untagged.commands = doc.commands.map Command.untagged := by
  rw [commands, commands, untagged, List.flatMap_map, List.map_flatMap]
  congr
  funext b
  cases b <;> rfl

/-- The definitions are the same but for their lists. -/
theorem definitions_untagged :
    doc.untagged.definitions = doc.definitions.map CommandDef.untagged := by
  rw [definitions, definitions, commands_untagged, List.filterMap_map, List.map_filterMap]
  congr
  funext c
  cases c <;> rfl

theorem features_untagged : doc.untagged.features = doc.features := by
  rw [features, features, untagged, List.filterMap_map]
  congr
  funext b
  cases b <;> rfl

theorem extensions_untagged : doc.untagged.extensions = doc.extensions := by
  rw [extensions, extensions, untagged, List.flatMap_map]
  congr
  funext b
  cases b <;> rfl

theorem TypeDecl.name_untagged (t : TypeDecl) : t.untagged.name = t.name := by
  unfold TypeDecl.untagged
  split <;> rfl

theorem TypeDecl.aliasOf_untagged (t : TypeDecl) : t.untagged.aliasOf = t.aliasOf := by
  unfold TypeDecl.untagged
  split <;> rfl

/-- An alias is read for its name and its target. -/
theorem aliases_untagged : doc.untagged.aliases = doc.aliases := by
  simp only [aliases, types_untagged, commands_untagged, List.filterMap_map]
  congr 2
  · congr
    funext t
    rw [Function.comp_apply, t.name_untagged, t.aliasOf_untagged]
  · congr
    funext c
    cases c <;> rfl

theorem EnumGroup.name_untagged (g : EnumGroup) : g.untagged.name = g.name := by
  unfold EnumGroup.untagged
  split <;> rfl

theorem EnumGroup.kind_untagged (g : EnumGroup) : g.untagged.kind = g.kind := by
  unfold EnumGroup.untagged
  split <;> rfl

/-- Constants are added by their names and values only. -/
theorem foldl_addConstant_untagged (g : EnumGroup) (constants : OrderedMap String) :
    g.untagged.enumerants.foldl addConstant constants =
      g.enumerants.foldl addConstant constants := by
  unfold EnumGroup.untagged
  split
  · rw [List.foldl_map]
    rfl
  · rfl

/-- The group of constants has the same ones, for nothing asks for their APIs. -/
theorem constants_untagged : doc.untagged.constants = doc.constants := by
  have hg : doc.untagged.enumGroups.filter (·.name = some constantsGroup) =
      (doc.enumGroups.filter (·.name = some constantsGroup)).map EnumGroup.untagged := by
    rw [enumGroups_untagged, List.filter_map]
    simp only [Function.comp_def, EnumGroup.name_untagged]
  simp only [constants, hg, List.flatMap_map, List.foldl_flatMap, foldl_addConstant_untagged]

/-! ### Kept declarations -/

/-- An alias is no entity, with a list or without. -/
theorem namedTypes_untagged : doc.untagged.namedTypes config = doc.namedTypes config := by
  rw [namedTypes, namedTypes, types_untagged, List.filterMap_map]
  congr
  funext t
  by_cases h : t.aliasOf.isSome
  · -- an alias becomes no entity, with or without its list
    rw [Function.comp_apply, t.aliasOf_untagged, if_pos (.inl h), if_pos (.inl h)]
  · rw [Function.comp_apply, TypeDecl.untagged, if_neg h]

theorem keptTypes_untagged : doc.untagged.keptTypes config = doc.keptTypes config := by
  rw [keptTypes, keptTypes, namedTypes_untagged, aliases_untagged]

theorem typeKeys_untagged : doc.untagged.typeKeys config = doc.typeKeys config := by
  rw [typeKeys, typeKeys, keptTypes_untagged, aliases_untagged]

/-- The groups that can become enumerations keep their lists. -/
theorem namedGroups_untagged : doc.untagged.namedGroups = doc.namedGroups := by
  rw [namedGroups, namedGroups, enumGroups_untagged, List.filterMap_map]
  congr
  funext g
  rw [Function.comp_apply, g.name_untagged, g.kind_untagged]
  by_cases h : g.holdsConstants
  · -- constants that are no enumeration are left out
    have hk : g.kind.bind EnumKind.ofName? = none := by
      rw [EnumGroup.holdsConstants, Bool.and_eq_true] at h
      exact Option.isNone_iff_eq_none.1 h.2
    rw [hk]
    cases g.name <;> rfl
  · rw [EnumGroup.untagged, if_neg h]

theorem keptGroups_untagged : doc.untagged.keptGroups config = doc.keptGroups config := by
  rw [keptGroups, keptGroups, namedGroups_untagged, aliases_untagged, typeKeys_untagged]

theorem groupKeys_untagged : doc.untagged.groupKeys config = doc.groupKeys config := by
  rw [groupKeys, groupKeys, keptGroups_untagged, aliases_untagged]

/-- Commands are kept by their names, and lose their lists. -/
theorem keptCommands_untagged :
    doc.untagged.keptCommands config = (doc.keptCommands config).map CommandDef.untagged := by
  have hn : doc.untagged.namedCommands config =
      (doc.namedCommands config).map CommandDef.untagged := by
    rw [namedCommands, namedCommands, definitions_untagged, aliases_untagged, List.filter_map]
    rfl
  rw [keptCommands, keptCommands, hn, aliases_untagged, typeKeys_untagged, groupKeys_untagged]
  exact firstPer_map (fun _ => rfl) _ _

theorem keptExtensions_untagged :
    doc.untagged.keptExtensions config = doc.keptExtensions config := by
  rw [keptExtensions, keptExtensions, extensions_untagged]

/-! ### What refers to the whole document -/

theorem contributedOptions_untagged :
    doc.untagged.contributedOptions config = doc.contributedOptions config := by
  rw [contributedOptions, contributedOptions, features_untagged, keptExtensions_untagged]

theorem enumerations_untagged (kind : EnumKind) :
    doc.untagged.enumerations config kind = doc.enumerations config kind := by
  rw [enumerations, enumerations, keptGroups_untagged, aliases_untagged,
    contributedOptions_untagged]

theorem context_untagged : doc.untagged.context config = doc.context config := by
  rw [context, context, aliases_untagged, constants_untagged]

end Document

variable (config : Config) (doc : Document)

/-- An extension becomes the same entity. -/
theorem Extension.ofDecl_untagged :
    Extension.ofDecl config doc.untagged = Extension.ofDecl config doc := by
  have hg : doc.untagged.guardOf = doc.guardOf := by
    have hp : doc.untagged.platformSymbol? = doc.platformSymbol? := by
      funext p
      rw [platformSymbol?, platformSymbol?, platforms_untagged]
    funext e
    rw [guardOf, guardOf, hp]
  funext e
  rw [Extension.ofDecl, Extension.ofDecl, hg]

/-! ### The registry -/

theorem Registry.link_untagged (types : List TypeEntity) (functions : List Function) :
    Registry.link config doc.untagged types functions =
      Registry.link config doc types functions := by
  simp only [Registry.link, enumerations_untagged, keptExtensions_untagged, aliases_untagged,
    constants_untagged, Extension.ofDecl_untagged]

/-- The lists of APIs of commands, aliases and constants are never read: without them, resolving
gives the same registry or the same error. -/
theorem Registry.build_untagged :
    Registry.build config doc.untagged = Registry.build config doc := by
  have hcommands : ∀ ctx handles,
      (doc.untagged.keptCommands config).mapM (Function.ofCommand ctx handles) =
        (doc.keptCommands config).mapM (Function.ofCommand ctx handles) := by
    intro ctx handles
    rw [keptCommands_untagged, List.mapM_map]
    rfl
  simp only [Registry.build, context_untagged, keptTypes_untagged, hcommands,
    Registry.link_untagged]

/-! ### Leaving out what is for other APIs -/

namespace Document

/-- Whether a type is no alias, or an alias for the API. -/
def TypeDecl.isAliasForApi (t : TypeDecl) : Bool :=
  t.aliasOf.isNone || config.containsApi t.api

/-- Whether a command is an alias, or a definition for the API. -/
def Command.isForApi : Command → Bool
  | .definition d => config.containsApi d.api
  | .aliasOf _ _ => true

/-- The group of constants without those of other APIs. -/
def EnumGroup.narrowed (g : EnumGroup) : EnumGroup :=
  if g.name = some constantsGroup then
    { g with enumerants := g.enumerants.filter fun e => config.containsApi e.api }
  else g

/-- The block without the commands, the aliases and the constants of other APIs. -/
def Block.narrowed : Block → Block
  | .platforms l => .platforms l
  | .types l => .types (l.filter (TypeDecl.isAliasForApi config))
  | .enums g => .enums (g.narrowed config)
  | .commands l => .commands (l.filter (Command.isForApi config))
  | .feature f => .feature f
  | .extensions l => .extensions l

/-- The document without the commands, the aliases and the constants of other APIs. -/
def narrowed : Document :=
  doc.map (Block.narrowed config)

/-- A command, an alias and a constant for another API than the default one. -/
def secureOnly : Document :=
  [.types [⟨some "VkOld", some "VkNew", some "vulkansc", none, some "struct", none, none, none,
      .empty⟩],
    .enums ⟨some "API Constants", none, none,
      [⟨"VK_SIZE", none, some "vulkansc", .value "16" none⟩]⟩,
    .commands [.definition ⟨⟨"vkSecure", some "void", "void vkSecure"⟩, [], some "vulkansc"⟩]]

end Document

/-- The names of the functions, the aliases and the constants of the resolved document. -/
def namesOf (doc : Document) : Option (List String × List String × List String) :=
  (Registry.build Config.default doc).toOption.map fun r =>
    (r.functions.keys, r.aliases.keys, r.constants.keys)

/-- Leaving out the commands, aliases and constants of other APIs changes the registry: here all
three are in it. -/
theorem not_forall_build_narrowed :
    ¬ ∀ (config : Config) (doc : Document),
      Registry.build config (doc.narrowed config) = Registry.build config doc := by
  intro h
  have hall : namesOf secureOnly = some (["vkSecure"], ["VkOld"], ["VK_SIZE"]) := by
    decide +kernel
  have hnone : namesOf (secureOnly.narrowed Config.default) = some ([], [], []) := by
    decide +kernel
  have hsame : namesOf (secureOnly.narrowed Config.default) = namesOf secureOnly := by
    rw [namesOf, namesOf, h]
  rw [hall, hnone] at hsame
  exact absurd hsame (by decide)

end ApiStencil
