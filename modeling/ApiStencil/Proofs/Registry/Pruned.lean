/-
ApiStencil/Proofs/Registry/Pruned.lean

A document without what the API leaves out.  `pruned` removes every type that is
no alias, every member, parameter and enumerant of a group, every feature and
extension, and every requirement, whose list of APIs does not hold the configured
one.  Constants and commands stay, whatever API they are for.

Main statement: a document and its pruned form are resolved to the same registry,
or fail with the same error (`build_pruned`).

Each list that resolving reads off a document is that of the pruned document after
a map that keeps names (`keptTypes_pruned`, `keptGroups_pruned`,
`keptCommands_pruned`, `keptExtensions_pruned`), so the first declaration of a name
is the same one.  What a single declaration is resolved to does not change, because
a filter that has been applied finds nothing more to remove.
-/
import ApiStencil.Registry.Build

namespace ApiStencil

open Document

namespace Document

variable (config : Config)

/-! ### Pruning -/

/-- What a type consists of, without the members of other APIs. -/
def TypeBody.pruned : TypeBody → TypeBody
  | .members l => .members (l.filter fun m => config.containsApi m.api)
  | .code text marks => .code text marks
  | .empty => .empty

/-- The type without the members of other APIs. -/
def TypeDecl.pruned (t : TypeDecl) : TypeDecl :=
  { t with body := t.body.pruned config }

/-- The group without the enumerants of other APIs.  Constants stay. -/
def EnumGroup.pruned (g : EnumGroup) : EnumGroup :=
  if g.name = some constantsGroup then g
  else { g with enumerants := g.enumerants.filter fun e => config.containsApi e.api }

/-- The command without the parameters of other APIs. -/
def CommandDef.pruned (d : CommandDef) : CommandDef :=
  { d with params := d.params.filter fun p => config.containsApi p.api }

/-- The command without the parameters of other APIs, if it is a definition. -/
def Command.pruned : Command → Command
  | .definition d => .definition (d.pruned config)
  | .aliasOf name target => .aliasOf name target

/-- Whether a required item is for the API.  Only enumerants can be for another one. -/
def RequiredItem.isForApi : RequiredItem → Bool
  | .enumerant e => config.containsApi e.api
  | _ => true

/-- The requirements for the API, each without the enumerants of other APIs. -/
def prunedRequires (blocks : List RequireBlock) : List RequireBlock :=
  (blocks.filter fun b => config.containsApi b.api).map fun b =>
    { b with items := b.items.filter (RequiredItem.isForApi config) }

/-- The feature with the requirements for the API. -/
def Feature.pruned (f : Feature) : Feature :=
  { f with requires := prunedRequires config f.requires }

/-- The extension with the requirements for the API. -/
def ExtensionDecl.pruned (e : ExtensionDecl) : ExtensionDecl :=
  { e with blocks := prunedRequires config e.blocks }

/-- Whether a type is for the API or an alias. -/
def TypeDecl.isKept (t : TypeDecl) : Bool :=
  t.aliasOf.isSome || config.containsApi t.api

/-- Whether a block is for the API.  Only a feature as a whole can be for another one. -/
def Block.isForApi : Block → Bool
  | .feature f => config.containsApi (some f.api)
  | _ => true

/-- The block without what is for other APIs. -/
def Block.pruned : Block → Block
  | .platforms l => .platforms l
  | .types l => .types ((l.filter (TypeDecl.isKept config)).map (TypeDecl.pruned config))
  | .enums g => .enums (g.pruned config)
  | .commands l => .commands (l.map (Command.pruned config))
  | .feature f => .feature (f.pruned config)
  | .extensions l =>
    .extensions
      ((l.filter fun e => config.containsApi e.supported).map (ExtensionDecl.pruned config))

/-- The document without what is for other APIs. -/
def pruned (doc : Document) : Document :=
  (doc.filter (Block.isForApi config)).map (Block.pruned config)

/-! ### What a pruned document declares -/

variable (doc : Document)

/-- What a view that skips features finds in a pruned document. -/
theorem flatMap_pruned {α : Type} {f g : Block → List α} (hf : ∀ x, f (.feature x) = [])
    (h : ∀ b, f (b.pruned config) = g b) : (doc.pruned config).flatMap f = doc.flatMap g := by
  induction doc with
  | nil => rfl
  | cons b r ih =>
    rw [List.flatMap_cons, ← h b, ← ih, pruned, List.filter_cons]
    split
    · rfl
    · next hb =>
      cases b with
      | feature x => rw [Block.pruned, hf]; rfl
      | _ => exact absurd rfl hb

theorem platforms_pruned : (doc.pruned config).platforms = doc.platforms :=
  flatMap_pruned config doc (fun _ => rfl) fun b => by cases b <;> rfl

theorem types_pruned :
    (doc.pruned config).types =
      (doc.types.filter (TypeDecl.isKept config)).map (TypeDecl.pruned config) := by
  rw [types, types, List.filter_flatMap, List.map_flatMap]
  exact flatMap_pruned config doc (fun _ => rfl) fun b => by cases b <;> rfl

theorem commands_pruned :
    (doc.pruned config).commands = doc.commands.map (Command.pruned config) := by
  rw [commands, commands, List.map_flatMap]
  exact flatMap_pruned config doc (fun _ => rfl) fun b => by cases b <;> rfl

/-- Of the extensions, those that support the API stay. -/
theorem extensions_pruned :
    (doc.pruned config).extensions =
      (doc.extensions.filter fun e => config.containsApi e.supported).map
        (ExtensionDecl.pruned config) := by
  rw [extensions, extensions, List.filter_flatMap, List.map_flatMap]
  exact flatMap_pruned config doc (fun _ => rfl) fun b => by cases b <;> rfl

/-- All groups stay. -/
theorem enumGroups_pruned :
    (doc.pruned config).enumGroups = doc.enumGroups.map (EnumGroup.pruned config) := by
  rw [enumGroups, enumGroups, pruned, List.filterMap_map, List.filterMap_filter,
    List.map_filterMap]
  congr
  funext b
  cases b with
  | feature f =>
    by_cases hf : config.containsApi (some f.api) <;> simp [Block.isForApi, Block.pruned, hf]
  | _ => rfl

/-- Of the features, those for the API stay. -/
theorem features_pruned :
    (doc.pruned config).features =
      (doc.features.filter fun f => config.containsApi (some f.api)).map
        (Feature.pruned config) := by
  rw [features, features, pruned, List.filterMap_map, List.filterMap_filter,
    List.filter_filterMap, List.map_filterMap]
  congr
  funext b
  cases b with
  | feature f =>
    by_cases hf : config.containsApi (some f.api) <;>
      simp [Block.isForApi, Block.pruned, hf, Option.filter]
  | _ => rfl

/-! ### Aliases and constants -/

/-- What is found in the types of a pruned document, where types of other APIs give nothing. -/
theorem filterMap_types_pruned {α : Type} {f g : TypeDecl → Option α}
    (hf : ∀ t, f (t.pruned config) = g t) (hg : ∀ t, t.isKept config = false → g t = none) :
    (doc.pruned config).types.filterMap f = doc.types.filterMap g := by
  rw [types_pruned, List.filterMap_map, List.filterMap_filter]
  congr
  funext t
  split
  · exact hf t
  · next ht => exact (hg t (eq_false_of_ne_true ht)).symm

/-- A type that is an alias stays and a command that is one too, so the aliases are the same. -/
theorem aliases_pruned : (doc.pruned config).aliases = doc.aliases := by
  simp only [aliases]
  congr 2
  · refine filterMap_types_pruned config doc (fun _ => rfl) fun t ht => ?_
    -- a type that is removed is no alias
    have : t.aliasOf = none := by
      cases h : t.aliasOf <;> simp_all [TypeDecl.isKept]
    rw [this]
    cases t.name <;> rfl
  · rw [commands_pruned, List.filterMap_map]
    congr
    funext c
    cases c <;> rfl

/-- The group of constants is not pruned. -/
theorem constants_pruned : (doc.pruned config).constants = doc.constants := by
  have hg : ((doc.pruned config).enumGroups.filter (·.name = some constantsGroup)) =
      doc.enumGroups.filter (·.name = some constantsGroup) := by
    rw [enumGroups_pruned]
    induction doc.enumGroups with
    | nil => rfl
    | cons g r ih =>
      rw [List.map_cons, List.filter_cons, List.filter_cons, ih]
      by_cases h : g.name = some constantsGroup <;> simp [EnumGroup.pruned, h]
  rw [constants, constants, hg]

/-! ### Kept declarations -/

/-- The type with the pruned form of its declaration. -/
def NamedType.pruned (t : NamedType) : NamedType :=
  { t with decl := t.decl.pruned config }

theorem TypeDecl.name?_pruned (t : TypeDecl) : (t.pruned config).name? = t.name? := by
  unfold TypeDecl.name? TypeDecl.pruned
  cases t.body <;> rfl

theorem TypeDecl.category?_pruned (t : TypeDecl) :
    (t.pruned config).category? = t.category? := rfl

/-- The types that can become entities are for the API already. -/
theorem namedTypes_pruned :
    (doc.pruned config).namedTypes config =
      (doc.namedTypes config).map (NamedType.pruned config) := by
  unfold namedTypes
  rw [List.map_filterMap]
  refine filterMap_types_pruned config doc (fun t => ?_) fun t ht => ?_
  · rw [TypeDecl.name?_pruned, TypeDecl.category?_pruned]
    show ite (t.aliasOf.isSome ∨ !config.containsApi t.api) none _ = _
    split
    · rfl
    · cases t.name? with
      | none => rfl
      | some name => cases t.category? <;> rfl
  · have : ¬ config.containsApi t.api = true := by
      simp_all [TypeDecl.isKept]
    simp [this]

theorem keptTypes_pruned :
    (doc.pruned config).keptTypes config =
      (doc.keptTypes config).map (NamedType.pruned config) := by
  rw [keptTypes, keptTypes, namedTypes_pruned, aliases_pruned]
  exact firstPer_map (fun _ => rfl) [] _

theorem typeKeys_pruned : (doc.pruned config).typeKeys config = doc.typeKeys config := by
  rw [typeKeys, typeKeys, keptTypes_pruned, aliases_pruned, List.map_map]
  rfl

/-- The group with the pruned form of its declaration. -/
def NamedGroup.pruned (g : NamedGroup) : NamedGroup :=
  { g with decl := g.decl.pruned config }

/-- The groups that can become enumerations have the same names and kinds. -/
theorem namedGroups_pruned :
    (doc.pruned config).namedGroups = doc.namedGroups.map (NamedGroup.pruned config) := by
  unfold namedGroups
  rw [enumGroups_pruned, List.filterMap_map, List.map_filterMap]
  congr
  funext g
  have hn : (g.pruned config).name = g.name := by
    unfold EnumGroup.pruned
    split <;> rfl
  have hk : (g.pruned config).kind = g.kind := by
    unfold EnumGroup.pruned
    split <;> rfl
  simp only [Function.comp_apply, hn, hk]
  cases g.name with
  | none => rfl
  | some name => cases g.kind.bind EnumKind.ofName? <;> rfl

theorem keptGroups_pruned :
    (doc.pruned config).keptGroups config =
      (doc.keptGroups config).map (NamedGroup.pruned config) := by
  rw [keptGroups, keptGroups, namedGroups_pruned, aliases_pruned, typeKeys_pruned]
  exact firstPer_map (fun _ => rfl) _ _

theorem groupKeys_pruned : (doc.pruned config).groupKeys config = doc.groupKeys config := by
  rw [groupKeys, groupKeys, keptGroups_pruned, aliases_pruned, List.map_map]
  rfl

/-- The definitions are the same but for parameters. -/
theorem definitions_pruned :
    (doc.pruned config).definitions = doc.definitions.map (CommandDef.pruned config) := by
  unfold definitions
  rw [commands_pruned, List.filterMap_map, List.map_filterMap]
  congr
  funext c
  cases c <;> rfl

/-- The same commands are kept. -/
theorem keptCommands_pruned :
    (doc.pruned config).keptCommands config =
      (doc.keptCommands config).map (CommandDef.pruned config) := by
  have hn : (doc.pruned config).namedCommands config =
      (doc.namedCommands config).map (CommandDef.pruned config) := by
    rw [namedCommands, namedCommands, definitions_pruned, aliases_pruned, List.filter_map]
    rfl
  rw [keptCommands, keptCommands, hn, aliases_pruned, typeKeys_pruned, groupKeys_pruned]
  exact firstPer_map (fun _ => rfl) _ _

/-- Of each name the same extension is kept, for those of other APIs were never candidates. -/
theorem keptExtensions_pruned :
    (doc.pruned config).keptExtensions config =
      (doc.keptExtensions config).map (ExtensionDecl.pruned config) := by
  have hs : (doc.pruned config).extensions.filter (fun e => config.containsApi e.supported) =
      (doc.extensions.filter fun e => config.containsApi e.supported).map
        (ExtensionDecl.pruned config) := by
    -- the extensions of a pruned document all support the API
    rw [extensions_pruned, List.filter_eq_self]
    intro e he
    obtain ⟨e', he', rfl⟩ := List.mem_map.1 he
    exact (List.mem_filter.1 he').2
  rw [keptExtensions, keptExtensions, hs]
  exact firstPer_map (fun _ => rfl) _ _

/-! ### What a declaration is resolved to -/

/-- Filtering the members once more removes none. -/
theorem apiMembers_pruned (t : TypeDecl) :
    (t.pruned config).apiMembers config = t.apiMembers config := by
  unfold TypeDecl.apiMembers TypeDecl.members TypeDecl.pruned
  cases t.body with
  | members l => exact (List.filter_filter.trans (by simp only [Bool.and_self]))
  | _ => rfl

theorem apiParams_pruned (d : CommandDef) :
    (d.pruned config).apiParams config = d.apiParams config := by
  unfold CommandDef.apiParams CommandDef.pruned
  rw [List.filter_filter]
  simp only [Bool.and_self]

theorem codeType?_pruned (t : TypeDecl) : (t.pruned config).codeType? = t.codeType? := by
  unfold TypeDecl.codeType? TypeDecl.pruned
  cases t.body <;> rfl

/-- A group has the same options for the API. -/
theorem options_pruned (g : EnumGroup) : (g.pruned config).options config = g.options config := by
  unfold EnumGroup.pruned
  split
  · rfl
  · unfold EnumGroup.options
    rw [List.filter_filter]
    simp only [Bool.and_self]

/-- The same items are required for the API. -/
theorem requiredItems_pruned (blocks : List RequireBlock) :
    requiredItems config (prunedRequires config blocks) = requiredItems config blocks := by
  have hf : ∀ l : List RequireBlock,
      requiredItems config l = (l.filter fun b => config.containsApi b.api).flatMap fun b =>
        b.items.filter (RequiredItem.isForApi config) := by
    intro l
    rw [requiredItems, List.filter_flatMap]
    rfl
  rw [hf, hf, prunedRequires, List.filter_map, List.filter_filter, List.flatMap_map]
  simp

end Document

open Document

/-- So a type resolves to the same entity, or fails with the same error. -/
theorem TypeEntity.ofType_pruned (ctx : Declaration.Context) (t : NamedType) :
    TypeEntity.ofType ctx (t.pruned ctx.config) = TypeEntity.ofType ctx t := by
  obtain ⟨name, category, decl⟩ := t
  have hr : TypeEntity.returnType (decl.pruned ctx.config).body =
      TypeEntity.returnType decl.body := by
    unfold TypeDecl.pruned
    cases decl.body <;> rfl
  cases category <;>
    simp only [NamedType.pruned, TypeEntity.ofType, codeType?_pruned, apiMembers_pruned, hr] <;> rfl

/-- And so does a command. -/
theorem Function.ofCommand_pruned (ctx : Declaration.Context) (handles : OrderedMap Handle)
    (d : CommandDef) :
    Function.ofCommand ctx handles (d.pruned ctx.config) = Function.ofCommand ctx handles d := by
  unfold Function.ofCommand
  rw [apiParams_pruned]
  rfl

variable (config : Config) (doc : Document)

/-- A group becomes the same enumeration. -/
theorem Enumeration.ofGroup_pruned (g : NamedGroup) :
    Enumeration.ofGroup config (g.pruned config) = Enumeration.ofGroup config g := by
  have hw : (g.decl.pruned config).bitWidth = g.decl.bitWidth := by
    unfold EnumGroup.pruned
    split <;> rfl
  unfold Enumeration.ofGroup NamedGroup.pruned
  rw [options_pruned, hw]

/-- The same options are contributed. -/
theorem Document.contributedOptions_pruned :
    (doc.pruned config).contributedOptions config = doc.contributedOptions config := by
  have hf : ∀ f : Feature, (f.pruned config).options config = f.options config := by
    intro f
    unfold Feature.options contributions Feature.pruned
    rw [requiredItems_pruned]
  have he : ∀ e : ExtensionDecl, (e.pruned config).options config = e.options config := by
    intro e
    unfold ExtensionDecl.options ExtensionDecl.contributions contributions ExtensionDecl.pruned
    rw [requiredItems_pruned]
  unfold contributedOptions
  rw [features_pruned, keptExtensions_pruned, List.flatMap_map, List.flatMap_map]
  simp only [hf, he]
  congr 1
  -- a feature of another API adds nothing anyway
  induction doc.features with
  | nil => rfl
  | cons f r ih =>
    rw [List.filter_cons, List.flatMap_cons, ← ih]
    split
    · rfl
    · next h => simp [Feature.options, h]

/-- An extension becomes the same entity. -/
theorem Extension.ofDecl_pruned (e : ExtensionDecl) :
    Extension.ofDecl config (doc.pruned config) (e.pruned config) =
      Extension.ofDecl config doc e := by
  have hc : (e.pruned config).contributions config = e.contributions config := by
    unfold ExtensionDecl.contributions contributions ExtensionDecl.pruned
    rw [requiredItems_pruned]
  have hg : (doc.pruned config).guardOf (e.pruned config) = doc.guardOf e := by
    unfold guardOf
    have hp : (doc.pruned config).platformSymbol? = doc.platformSymbol? := by
      funext p
      rw [platformSymbol?, platformSymbol?, platforms_pruned]
    rw [hp]
    rfl
  unfold Extension.ofDecl ExtensionDecl.options
  rw [hc, hg]
  unfold ExtensionDecl.pruned
  dsimp only
  rw [requiredItems_pruned]

/-! ### The registry -/

/-- With their own options and the contributed ones, the enumerations are the same. -/
theorem Document.enumerations_pruned (kind : EnumKind) :
    (doc.pruned config).enumerations config kind = doc.enumerations config kind := by
  unfold enumerations
  rw [keptGroups_pruned, aliases_pruned, contributedOptions_pruned, List.filter_map]
  simp only [List.map_map, Function.comp_def, Enumeration.ofGroup_pruned]
  rfl

/-- Entities are linked to the same registry. -/
theorem Registry.link_pruned (types : List TypeEntity) (functions : List Function) :
    Registry.link config (doc.pruned config) types functions =
      Registry.link config doc types functions := by
  unfold Registry.link
  simp only [enumerations_pruned, keptExtensions_pruned, aliases_pruned, constants_pruned,
    List.map_map, Function.comp_def, Extension.ofDecl_pruned]

/-- What a document declares for other APIs leaves no trace: without it, resolving gives the same
registry or the same error. -/
theorem Registry.build_pruned :
    Registry.build config (doc.pruned config) = Registry.build config doc := by
  unfold Registry.build
  have hctx : (doc.pruned config).context config = doc.context config := by
    rw [context, context, aliases_pruned, constants_pruned]
  have htypes : (doc.keptTypes config).mapM (fun t =>
        TypeEntity.ofType (doc.context config) (t.pruned config)) =
      (doc.keptTypes config).mapM (TypeEntity.ofType (doc.context config)) := by
    congr
    funext t
    exact TypeEntity.ofType_pruned (doc.context config) t
  have hcommands : ∀ handles, (doc.keptCommands config).mapM (fun d =>
        Function.ofCommand (doc.context config) handles (d.pruned config)) =
      (doc.keptCommands config).mapM (Function.ofCommand (doc.context config) handles) := by
    intro handles
    congr
    funext d
    exact Function.ofCommand_pruned (doc.context config) handles d
  simp only [hctx, keptTypes_pruned, keptCommands_pruned, List.mapM_map, Function.comp_def,
    htypes, hcommands, Registry.link_pruned]

end ApiStencil
