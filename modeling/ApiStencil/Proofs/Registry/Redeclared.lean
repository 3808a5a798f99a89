/-
ApiStencil/Proofs/Registry/Redeclared.lean

Declaring again what a registry holds.  Blocks are added at the end of a document,
in which every type, group and command has the name of an entity and every extension
the name of an extension; what else they say is arbitrary, and may be impossible to
resolve.

Main statement: the registry stays the same (`build_append_of_redeclares`), as long
as what is added comes too late.  Wherever it stands in the document, a type goes
before all groups and a group before all commands.  So a type may only repeat the
name of a type, and a group that of a type or an enumeration; otherwise it takes the
name away (`not_forall_build_append`).

The keys of what is added are taken by kept declarations, so each of the four lists
of kept declarations is the one it was (`firstPer_append_of_mem`).  Nothing else in
resolving reads the added blocks, since they bring no alias and no constant.
-/
import ApiStencil.Proofs.Registry.Unique

namespace ApiStencil

open Document

/-! ### What is added -/

namespace Document

/-- Blocks of types that are no aliases, of groups that hold no constants, of definitions of
commands, and of extensions. -/
structure DeclaresOnly (extra : Document) : Prop where
  platforms : extra.platforms = []
  features : extra.features = []
  types : ∀ t ∈ extra.types, t.aliasOf = none
  groups : ∀ g ∈ extra.enumGroups, g.name ≠ some constantsGroup
  commands : ∀ c ∈ extra.commands, ∃ d, c = .definition d

end Document

namespace Registry

/-- The names of the entities that types declare. -/
def typeNames (r : Registry) : List String :=
  r.structs.keys ++ r.unions.keys ++ r.flags.keys ++ r.handles.keys ++ r.baseTypes.keys ++
    r.externalTypes.keys ++ r.functionPointers.keys

/-- What the blocks declare has the names of entities of the registry already. -/
structure NamesAll (r : Registry) (extra : Document) : Prop extends extra.DeclaresOnly where
  namedTypes : ∀ t ∈ extra.types, ∃ name ∈ r.names.flatten, t.name? = some name
  namedGroups : ∀ g ∈ extra.enumGroups, ∃ name ∈ r.names.flatten, g.name = some name
  namedCommands : ∀ d ∈ extra.definitions, d.prototype.name ∈ r.names.flatten
  namedExtensions : ∀ e ∈ extra.extensions, e.name ∈ r.extensions.keys

/-- What the blocks declare comes after an entity of its name: types that can become entities have
names of types, and groups that can become enumerations those of types or enumerations. -/
structure Redeclares (config : Config) (r : Registry) (extra : Document) : Prop
    extends extra.DeclaresOnly where
  laterTypes : ∀ t ∈ extra.namedTypes config, t.name ∈ r.typeNames
  laterGroups : ∀ g ∈ extra.namedGroups, g.name ∈ r.typeNames ++ r.enums.keys ++ r.bitmasks.keys
  laterCommands : ∀ d ∈ extra.definitions, d.prototype.name ∈ r.names.flatten
  laterExtensions : ∀ e ∈ extra.extensions, e.name ∈ r.extensions.keys

end Registry

/-! ### Documents side by side -/

namespace Document

variable (doc extra : Document)

/-- The types of both documents, one after the other. -/
theorem types_append : types (doc ++ extra) = doc.types ++ extra.types :=
  List.flatMap_append

theorem commands_append : commands (doc ++ extra) = doc.commands ++ extra.commands :=
  List.flatMap_append

theorem enumGroups_append : enumGroups (doc ++ extra) = doc.enumGroups ++ extra.enumGroups :=
  List.filterMap_append

theorem extensions_append : extensions (doc ++ extra) = doc.extensions ++ extra.extensions :=
  List.flatMap_append

/-- Their definitions too, for commands are read one by one. -/
theorem definitions_append :
    definitions (doc ++ extra) = doc.definitions ++ extra.definitions := by
  rw [definitions, commands_append, List.filterMap_append]
  rfl

theorem namedTypes_append (config : Config) :
    namedTypes config (doc ++ extra) = doc.namedTypes config ++ extra.namedTypes config := by
  rw [namedTypes, types_append, List.filterMap_append]
  rfl

theorem namedGroups_append : namedGroups (doc ++ extra) = doc.namedGroups ++ extra.namedGroups := by
  rw [namedGroups, enumGroups_append, List.filterMap_append]
  rfl

namespace DeclaresOnly

variable {extra} (h : extra.DeclaresOnly)

include h

theorem platforms_eq : Document.platforms (doc ++ extra) = doc.platforms := by
  have hp : Document.platforms (doc ++ extra) = doc.platforms ++ extra.platforms :=
    List.flatMap_append
  rw [hp, h.platforms, List.append_nil]

theorem features_eq : Document.features (doc ++ extra) = doc.features := by
  have hf : Document.features (doc ++ extra) = doc.features ++ extra.features :=
    List.filterMap_append
  rw [hf, h.features, List.append_nil]

/-- What is added declares no alias. -/
theorem aliases_eq : aliases (doc ++ extra) = doc.aliases := by
  rw [aliases, aliases]
  congr 2
  · rw [types_append, List.filterMap_append, List.append_right_eq_self]
    refine List.filterMap_eq_nil_iff.2 fun t ht => ?_
    rw [h.types t ht]
    cases t.name <;> rfl
  · rw [commands_append, List.filterMap_append, List.append_right_eq_self]
    refine List.filterMap_eq_nil_iff.2 fun c hc => ?_
    obtain ⟨d, rfl⟩ := h.commands c hc
    rfl

/-- What is added declares no constant. -/
theorem constants_eq : constants (doc ++ extra) = doc.constants := by
  have hg : extra.enumGroups.filter (·.name = some constantsGroup) = [] := by
    refine List.filter_eq_nil_iff.2 fun g hg => ?_
    rw [decide_eq_true_eq]
    exact h.groups g hg
  simp only [constants, enumGroups_append, List.filter_append, hg, List.append_nil]

theorem context_eq (config : Config) : context config (doc ++ extra) = doc.context config := by
  rw [context, context, h.aliases_eq, h.constants_eq]

theorem ofDecl_eq (config : Config) :
    Extension.ofDecl config (doc ++ extra) = Extension.ofDecl config doc :=
  Extension.ofDecl_congr (h.platforms_eq doc) config

end DeclaresOnly

end Document

/-! ### Names that are taken -/

namespace Registry

namespace Resolves

variable {config : Config} {doc : Document} {types : List TypeEntity} {functions : List Function}
  {r : Registry} (h : Resolves config doc types functions r)

include h

/-- The name of an entity of a type is that of a kept type. -/
theorem mem_typeNames {name : String} (hn : name ∈ r.typeNames) :
    name ∈ (doc.keptTypes config).map NamedType.name := by
  rw [Registry.typeNames, h.structs_eq, h.unions_eq, h.flags_eq, h.handles_eq, h.baseTypes_eq,
    h.externalTypes_eq, h.functionPointers_eq, OrderedMap.keys_map, h.keys_types selects_struct,
    h.keys_types selects_union, h.keys_types selects_flag, h.keys_types selects_handle,
    h.keys_types selects_baseType, h.keys_types selects_external,
    h.keys_types selects_functionPointer] at hn
  -- counting spares a case for each of the seven maps
  have hcount := count_typeNames name types
  rw [← h.typeNames]
  rw [← List.count_pos_iff] at hn ⊢
  simp only [List.count_append] at hn
  omega

/-- The name of a type stands for one that a kept type has taken. -/
theorem resolve_mem_typeKeys {name : String} (hn : name ∈ r.typeNames) :
    doc.aliases.resolve name ∈ doc.typeKeys config := by
  obtain ⟨t, ht, rfl⟩ := List.mem_map.1 (h.mem_typeNames hn)
  exact List.mem_map_of_mem ht

/-- The name of an enumeration stands for one that a kept group has taken. -/
theorem resolve_mem_groupKeys {name : String} (hn : name ∈ r.enums.keys ++ r.bitmasks.keys) :
    doc.aliases.resolve name ∈ doc.groupKeys config := by
  have hcount := count_groupNames config doc name
  have hmem : name ∈ (doc.keptGroups config).map NamedGroup.name := by
    rw [h.enums_eq, h.bitmasks_eq] at hn
    rw [← List.count_pos_iff] at hn ⊢
    rw [List.count_append] at hn
    omega
  obtain ⟨g, hg, rfl⟩ := List.mem_map.1 hmem
  exact List.mem_map_of_mem hg

/-- The name of any entity stands for one that is taken by something that is kept. -/
theorem resolve_mem_keys {name : String} (hn : name ∈ r.names.flatten) :
    doc.aliases.resolve name ∈
      doc.typeKeys config ++ doc.groupKeys config ++ doc.commandKeys config := by
  have hmem := h.perm_names.mem_iff.1 hn
  rw [h.typeNames, h.functionNames] at hmem
  have hmap := List.mem_map_of_mem (f := doc.aliases.resolve) hmem
  rw [List.map_append, List.map_append, List.map_map, List.map_map, List.map_map] at hmap
  exact hmap

/-! ### The kept declarations -/

variable {extra : Document} (hr : r.Redeclares config extra)

include hr

theorem keptTypes_append : keptTypes config (doc ++ extra) = doc.keptTypes config := by
  rw [keptTypes, keptTypes, namedTypes_append, hr.aliases_eq]
  refine firstPer_append_of_mem fun t ht => ?_
  have hkey := h.resolve_mem_typeKeys (hr.laterTypes t ht)
  exact ((firstPer_sublist _ _ _).map _).subset hkey

/-- The added groups find their names taken by types or groups. -/
theorem keptGroups_append : keptGroups config (doc ++ extra) = doc.keptGroups config := by
  have htypes : typeKeys config (doc ++ extra) = doc.typeKeys config := by
    rw [typeKeys, typeKeys, h.keptTypes_append hr, hr.aliases_eq]
  rw [keptGroups, keptGroups, namedGroups_append, hr.aliases_eq, htypes]
  refine firstPer_append_of_mem fun g hg => ?_
  have hname := hr.laterGroups g hg
  rw [List.append_assoc] at hname
  rcases List.mem_append.1 hname with hn | hn
  · exact List.mem_append_left _ (h.resolve_mem_typeKeys hn)
  · have hkey := h.resolve_mem_groupKeys hn
    exact List.mem_append_right _ (((firstPer_sublist _ _ _).map _).subset hkey)

/-- The added commands find their names taken. -/
theorem keptCommands_append : keptCommands config (doc ++ extra) = doc.keptCommands config := by
  have htypes : typeKeys config (doc ++ extra) = doc.typeKeys config := by
    rw [typeKeys, typeKeys, h.keptTypes_append hr, hr.aliases_eq]
  have hgroups : groupKeys config (doc ++ extra) = doc.groupKeys config := by
    rw [groupKeys, groupKeys, h.keptGroups_append hr, hr.aliases_eq]
  rw [keptCommands, keptCommands, namedCommands, namedCommands, definitions_append,
    List.filter_append, hr.aliases_eq, htypes, hgroups]
  refine firstPer_append_of_mem fun d hd => ?_
  have hkey := h.resolve_mem_keys (hr.laterCommands d (List.mem_filter.1 hd).1)
  rcases List.mem_append.1 hkey with hk | hk
  · exact List.mem_append_left _ hk
  · exact List.mem_append_right _ (((firstPer_sublist _ _ _).map _).subset hk)

/-- The added extensions find their names taken. -/
theorem keptExtensions_append :
    keptExtensions config (doc ++ extra) = doc.keptExtensions config := by
  rw [keptExtensions, keptExtensions, extensions_append, List.filter_append]
  refine firstPer_append_of_mem fun e he => ?_
  have hname := hr.laterExtensions e (List.mem_filter.1 he).1
  rw [h.extensions_eq, keys_collect (nodup_extensionNames config doc), List.filterMap_some,
    List.map_map] at hname
  exact ((firstPer_sublist _ _ _).map _).subset hname

theorem enumerations_append (kind : EnumKind) :
    enumerations config (doc ++ extra) kind = doc.enumerations config kind := by
  have hoptions : contributedOptions config (doc ++ extra) = doc.contributedOptions config := by
    rw [contributedOptions, contributedOptions, hr.features_eq, h.keptExtensions_append hr]
  rw [enumerations, enumerations, h.keptGroups_append hr, hr.aliases_eq, hoptions]

theorem link_append : link config (doc ++ extra) types functions = r := by
  rw [← h.link_eq]
  simp only [link, h.enumerations_append hr, h.keptExtensions_append hr, hr.aliases_eq,
    hr.constants_eq, hr.ofDecl_eq]

end Resolves

/-! ### The registry -/

/-- Declaring again what the registry holds changes nothing. -/
theorem build_append_of_redeclares {config : Config} {doc extra : Document} {r : Registry}
    (h : build config doc = .ok r) (hr : r.Redeclares config extra) :
    build config (doc ++ extra) = .ok r := by
  obtain ⟨types, functions, h⟩ := build_eq_ok_iff.1 h
  refine build_eq_ok_iff.2 ⟨types, functions, ?_, ?_, h.link_append hr⟩
  · rw [h.keptTypes_append hr, hr.context_eq]
    exact h.types_ok
  · rw [h.keptCommands_append hr, hr.context_eq]
    exact h.functions_ok

/-- A struct, an enumeration, a command and an extension that adds an option. -/
def declaredOnce : Document :=
  [.types [⟨some "S", none, none, none, some "struct", none, none, none, .members []⟩],
    .enums ⟨some "E", some "enum", none, [⟨"E_ONE", none, none, .value "1" none⟩]⟩,
    .commands [.definition ⟨⟨"F", none, "void F"⟩, [], none⟩],
    .extensions [⟨"X", some 1, none, none, some "device", none, none, none,
      [⟨none, [.command "F", .enumerant ⟨"E_X", none, none, .value "2" (some "E")⟩]⟩]⟩]]

/-- The same names again: a struct whose member has no name, a handle, groups with other options, a
command with a parameter that has no type, and a guarded extension. -/
def declaredAgain : Document :=
  [.types [
      ⟨some "S", none, none, none, some "struct", none, none, none,
        .members [⟨none, none, none, none, none, "int", []⟩]⟩,
      ⟨some "S", none, some "vulkansc", none, some "handle", none, none, none, .empty⟩],
    .enums ⟨some "E", some "bitmask", none, [⟨"E_TWO", none, none, .bit 1 none⟩]⟩,
    .enums ⟨some "S", some "enum", none, []⟩,
    .commands [
      .definition ⟨⟨"F", none, "void F"⟩, [⟨none, none, ⟨"p", none, "p"⟩⟩], none⟩,
      .definition ⟨⟨"E", none, "void E"⟩, [], none⟩],
    .extensions [⟨"X", some 2, some "GUARD", none, some "instance", none, none, none,
      [⟨none, [.type "S", .enumerant ⟨"E_Y", none, none, .value "3" (some "E")⟩]⟩]⟩]]

/-- What is added could not be resolved on its own. -/
theorem build_append_of_redeclares_unresolvable :
    ∃ r, build Config.default declaredOnce = .ok r ∧
      (build Config.default declaredAgain).toOption.isNone ∧
      r.Redeclares Config.default declaredAgain ∧
      build Config.default (declaredOnce ++ declaredAgain) = .ok r := by
  have hnames : (build Config.default declaredOnce).toOption.map
      (fun r => (r.typeNames, r.enums.keys, r.bitmasks.keys, r.names.flatten,
        r.extensions.keys)) = some (["S"], ["E"], [], ["F", "S", "E"], ["X"]) := by
    decide +kernel
  obtain ⟨r, h, hr⟩ := toOption_map_eq_some_iff.1 hnames
  simp only [Prod.mk.injEq] at hr
  obtain ⟨htypes, henums, hbits, hnames, hextensions⟩ := hr
  have hredeclares : r.Redeclares Config.default declaredAgain :=
    { platforms := rfl
      features := rfl
      types := by decide
      groups := by decide
      commands := by
        intro c hc
        cases c with
        | definition d => exact ⟨d, rfl⟩
        | aliasOf name target =>
          simp [declaredAgain, commands] at hc
      laterTypes := by
        rw [htypes]
        decide +kernel
      laterGroups := by
        rw [htypes, henums, hbits]
        decide +kernel
      laterCommands := by
        rw [hnames]
        decide +kernel
      laterExtensions := by
        rw [hextensions]
        decide +kernel }
  exact ⟨r, h, by decide +kernel, hredeclares, build_append_of_redeclares h hredeclares⟩

/-- An enumeration. -/
def enumerationFirst : Document :=
  [.enums ⟨some "E", some "enum", none, []⟩]

/-- A struct of the same name. -/
def structLater : Document :=
  [.types [⟨some "E", none, none, none, some "struct", none, none, none, .members []⟩]]

/-- A struct in a later block takes the name of an enumeration away. -/
theorem not_forall_build_append :
    ¬ ∀ (config : Config) (doc extra : Document) (r : Registry), build config doc = .ok r →
      r.NamesAll extra → build config (doc ++ extra) = .ok r := by
  intro h
  have hnames : (build Config.default enumerationFirst).toOption.map
      (fun r => (r.names.flatten, r.enums.keys)) = some (["E"], ["E"]) := by
    decide +kernel
  have hafter : (build Config.default (enumerationFirst ++ structLater)).toOption.map
      (fun r => r.enums.keys) = some [] := by
    decide +kernel
  obtain ⟨r, hbuild, hr⟩ := toOption_map_eq_some_iff.1 hnames
  obtain ⟨hall, henums⟩ := Prod.mk.inj hr
  have hextra : r.NamesAll structLater :=
    { platforms := rfl
      features := rfl
      types := by decide
      groups := by decide
      commands := nofun
      namedTypes := by
        rw [hall]
        decide
      namedGroups := nofun
      namedCommands := nofun
      namedExtensions := nofun }
  rw [h _ _ _ _ hbuild hextra] at hafter
  have hempty : r.enums.keys = [] := Option.some.inj hafter
  rw [henums] at hempty
  cases hempty

end Registry

end ApiStencil
