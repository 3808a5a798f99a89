/-
ApiStencil/Proofs/Registry/Resolved.lean

What a resolved registry is put together from.  Resolving succeeds exactly when
every kept declaration resolves, and then the registry is the one that links the
results (`build_eq_ok_iff`).  From here on nothing unfolds `build` or `link`: each
part of the registry has one equation (`Resolves.aliases_eq` and so on).

A collection holds its entities under their own names.  If these differ, it holds
all of them, in order (`entries_collect`).
-/
import ApiStencil.Proofs.Distinct
import ApiStencil.Proofs.Except
import ApiStencil.Proofs.OrderedMap
import ApiStencil.Registry.Build

namespace ApiStencil

open Document

/-! ### Collections -/

namespace Registry

section

variable {α β : Type} {entity? : α → Option β} {name : β → String} {l : List α}

/-- Entities of different names are all collected, in order. -/
theorem entries_collect (h : ((l.filterMap entity?).map name).Nodup) :
    (collect entity? name l).entries = (l.filterMap entity?).map fun b => (name b, b) := by
  refine OrderedMap.entries_ofList ?_
  rw [List.map_map]
  exact h

theorem values_collect (h : ((l.filterMap entity?).map name).Nodup) :
    (collect entity? name l).values = l.filterMap entity? := by
  rw [OrderedMap.values, entries_collect h, List.map_map]
  exact List.map_id _

theorem keys_collect (h : ((l.filterMap entity?).map name).Nodup) :
    (collect entity? name l).keys = (l.filterMap entity?).map name := by
  rw [OrderedMap.keys, entries_collect h, List.map_map]
  rfl

/-- They are found under their own names. -/
theorem get?_collect_eq_some_iff (h : ((l.filterMap entity?).map name).Nodup) {key : String}
    {b : β} :
    (collect entity? name l).get? key = some b ↔ b ∈ l.filterMap entity? ∧ name b = key := by
  rw [OrderedMap.get?_eq_some_iff_mem, entries_collect h, List.mem_map]
  constructor
  · rintro ⟨b', hb', he⟩
    cases he
    exact ⟨hb', rfl⟩
  · rintro ⟨hb, rfl⟩
    exact ⟨b, hb, rfl⟩

end

end Registry

/-! ### Names of resolved entities -/

/-- The name of an entity. -/
def TypeEntity.name : TypeEntity → String
  | .baseType t => t.name
  | .flag f => f.name
  | .handle h => h.name
  | .functionPointer p => p.name
  | .struct s => s.name
  | .union u => u.name
  | .external t => t.name

/-- A type gives its name to the entity that it resolves to. -/
theorem TypeEntity.name_of_ofType {ctx : Declaration.Context} {t : NamedType} {e : TypeEntity}
    (h : TypeEntity.ofType ctx t = .ok e) : e.name = t.name := by
  rw [TypeEntity.ofType] at h
  cases hc : t.category with
  | struct =>
    rw [hc] at h
    obtain ⟨members, -, h⟩ := bind_eq_ok_iff.1 h
    cases h
    rfl
  | union =>
    rw [hc] at h
    obtain ⟨members, -, h⟩ := bind_eq_ok_iff.1 h
    cases h
    rfl
  | _ =>
    rw [hc] at h
    cases h
    rfl

/-- A command gives its name to the function that it resolves to. -/
theorem Function.name_of_ofCommand {ctx : Declaration.Context} {handles : OrderedMap Handle}
    {d : CommandDef} {f : Function} (h : Function.ofCommand ctx handles d = .ok f) :
    f.name = d.prototype.name := by
  obtain ⟨vars, -, h⟩ := bind_eq_ok_iff.1 h
  cases h
  rfl

@[simp] theorem Function.name_retype (extensions : List Extension) (f : Function) :
    (f.retype extensions).name = f.name := by
  unfold Function.retype
  split <;> rfl

@[simp] theorem Struct.name_indexed (enums : OrderedMap Enumeration) (s : Struct) :
    (s.indexed enums).name = s.name := by
  unfold Struct.indexed
  split
  · rfl
  · split <;> rfl

namespace Enumeration

@[simp] theorem name_push (e : Enumeration) (o : EnumOption) : (e.push o).name = e.name := by
  unfold push
  split <;> rfl

@[simp] theorem kind_push (e : Enumeration) (o : EnumOption) : (e.push o).kind = e.kind := by
  unfold push
  split <;> rfl

/-- Options change neither the name nor the kind of an enumeration. -/
theorem name_foldl_push (e : Enumeration) (l : List EnumOption) :
    (l.foldl push e).name = e.name ∧ (l.foldl push e).kind = e.kind := by
  induction l generalizing e with
  | nil => exact ⟨rfl, rfl⟩
  | cons o r ih =>
    obtain ⟨hn, hk⟩ := ih (e.push o)
    exact ⟨hn.trans (name_push e o), hk.trans (kind_push e o)⟩

/-- Further options are pushed one after the other, namely those for any name of the enumeration. -/
theorem extend_eq_foldl_push (aliases : Aliases) (l : List (String × EnumOption))
    (e : Enumeration) :
    e.extend aliases l =
      ((l.filter fun c => aliases.resolve c.1 = e.name).map Prod.snd).foldl push e := by
  induction l generalizing e with
  | nil => rfl
  | cons c r ih =>
    rw [extend, List.foldl_cons, ← extend, ih, List.filter_cons]
    by_cases h : aliases.resolve c.1 = e.name <;> simp [h]

theorem name_ofGroup (config : Config) (g : NamedGroup) :
    (ofGroup config g).name = g.name ∧ (ofGroup config g).kind = g.kind :=
  name_foldl_push _ _

theorem name_extend (aliases : Aliases) (l : List (String × EnumOption)) (e : Enumeration) :
    (e.extend aliases l).name = e.name ∧ (e.extend aliases l).kind = e.kind := by
  rw [extend_eq_foldl_push]
  exact name_foldl_push _ _

end Enumeration

/-- The enumeration of a group, with all options. -/
def Document.enumerationOf (config : Config) (doc : Document) (g : NamedGroup) : Enumeration :=
  (Enumeration.ofGroup config g).extend doc.aliases (doc.contributedOptions config)

section

variable (config : Config) (doc : Document)

theorem Document.name_enumerationOf (g : NamedGroup) :
    (doc.enumerationOf config g).name = g.name :=
  (Enumeration.name_extend _ _ _).1.trans (Enumeration.name_ofGroup config g).1

theorem Document.kind_enumerationOf (g : NamedGroup) :
    (doc.enumerationOf config g).kind = g.kind :=
  (Enumeration.name_extend _ _ _).2.trans (Enumeration.name_ofGroup config g).2

/-- The enumerations of a kind are collected from the kept groups of that kind. -/
theorem Document.enumerations_eq_collect (kind : EnumKind) :
    doc.enumerations config kind = Registry.collect some Enumeration.name
      (((doc.keptGroups config).filter (·.kind = kind)).map (doc.enumerationOf config)) := by
  rw [enumerations, Registry.collect, List.filterMap_some, List.map_map]
  refine congrArg OrderedMap.ofList (List.map_congr_left fun g _ => ?_)
  rw [Function.comp_apply, name_enumerationOf]
  rfl

theorem Document.names_enumerations (kind : EnumKind) :
    ((((doc.keptGroups config).filter (·.kind = kind)).map
      (doc.enumerationOf config)).filterMap some).map Enumeration.name =
      ((doc.keptGroups config).filter (·.kind = kind)).map NamedGroup.name := by
  rw [List.filterMap_some, List.map_map]
  exact List.map_congr_left fun g _ => name_enumerationOf config doc g

/-- Kept groups have different names. -/
theorem Document.nodup_enumerationNames (kind : EnumKind) :
    (((((doc.keptGroups config).filter (·.kind = kind)).map
      (doc.enumerationOf config)).filterMap some).map Enumeration.name).Nodup := by
  have hg : ((doc.keptGroups config).map NamedGroup.name).Nodup :=
    nodup_map_firstPer doc.aliases.resolve NamedGroup.name _ _
  rw [names_enumerations]
  exact hg.sublist (List.filter_sublist.map _)

theorem Document.values_enumerations (kind : EnumKind) :
    (doc.enumerations config kind).values =
      ((doc.keptGroups config).filter (·.kind = kind)).map (doc.enumerationOf config) := by
  rw [enumerations_eq_collect, Registry.values_collect (nodup_enumerationNames config doc kind),
    List.filterMap_some]

theorem Document.keys_enumerations (kind : EnumKind) :
    (doc.enumerations config kind).keys =
      ((doc.keptGroups config).filter (·.kind = kind)).map NamedGroup.name := by
  rw [enumerations_eq_collect, Registry.keys_collect (nodup_enumerationNames config doc kind),
    names_enumerations]

/-- Of extensions with different names, all that support the API are kept. -/
theorem Document.keptExtensions_eq_filter (h : (doc.extensions.map ExtensionDecl.name).Nodup) :
    doc.keptExtensions config = doc.extensions.filter fun e => config.containsApi e.supported :=
  firstPer_eq_self (h.sublist (List.filter_sublist.map _))

theorem Registry.nodup_extensionNames :
    ((((doc.keptExtensions config).map (Extension.ofDecl config doc)).filterMap some).map
      Extension.name).Nodup := by
  rw [List.filterMap_some, List.map_map]
  exact nodup_keys_firstPer ExtensionDecl.name [] _

end

/-! ### The parts of a resolved registry -/

namespace TypeEntity

/-- The base type, if the entity is one. -/
def baseType? : TypeEntity → Option BaseType
  | .baseType t => some t
  | _ => none

/-- The flag, if the entity is one. -/
def flag? : TypeEntity → Option Flag
  | .flag f => some f
  | _ => none

/-- The handle, if the entity is one. -/
def handle? : TypeEntity → Option Handle
  | .handle h => some h
  | _ => none

/-- The function pointer, if the entity is one. -/
def functionPointer? : TypeEntity → Option FunctionPointer
  | .functionPointer p => some p
  | _ => none

/-- The struct, if the entity is one. -/
def struct? : TypeEntity → Option Struct
  | .struct s => some s
  | _ => none

/-- The union, if the entity is one. -/
def union? : TypeEntity → Option Union
  | .union u => some u
  | _ => none

/-- The type of another header, if the entity is one. -/
def external? : TypeEntity → Option ExternalType
  | .external t => some t
  | _ => none

end TypeEntity

namespace Registry

/-- The kept declarations of a document resolve to `types` and `functions`, and these are linked
to `r`. -/
structure Resolves (config : Config) (doc : Document) (types : List TypeEntity)
    (functions : List Function) (r : Registry) : Prop where
  types_ok : (doc.keptTypes config).mapM (TypeEntity.ofType (doc.context config)) = .ok types
  functions_ok : (doc.keptCommands config).mapM
    (Function.ofCommand (doc.context config) r.handles) = .ok functions
  link_eq : link config doc types functions = r

/-- Resolving succeeds if every kept declaration resolves, and gives what they are linked to. -/
theorem build_eq_ok_iff {config : Config} {doc : Document} {r : Registry} :
    build config doc = .ok r ↔ ∃ types functions, Resolves config doc types functions r := by
  constructor
  · intro h
    obtain ⟨types, htypes, h⟩ := bind_eq_ok_iff.1 h
    obtain ⟨functions, hfunctions, h⟩ := bind_eq_ok_iff.1 h
    cases h
    exact ⟨types, functions, htypes, hfunctions, rfl⟩
  · rintro ⟨types, functions, htypes, hfunctions, rfl⟩
    exact bind_eq_ok_iff.2 ⟨types, htypes, bind_eq_ok_iff.2 ⟨functions, hfunctions, rfl⟩⟩

namespace Resolves

variable {config : Config} {doc : Document} {types : List TypeEntity} {functions : List Function}
  {r : Registry} (h : Resolves config doc types functions r)

include h

theorem aliases_eq : r.aliases = doc.aliases := by
  rw [← h.link_eq]
  rfl

theorem context_eq : doc.context config = ⟨config, r.aliases, r.constants⟩ := by
  rw [← h.link_eq]
  rfl

theorem baseTypes_eq : r.baseTypes = collect TypeEntity.baseType? BaseType.name types := by
  rw [← h.link_eq]
  rfl

theorem flags_eq : r.flags = collect TypeEntity.flag? Flag.name types := by
  rw [← h.link_eq]
  rfl

theorem handles_eq : r.handles = collect TypeEntity.handle? Handle.name types := by
  rw [← h.link_eq]
  rfl

theorem functionPointers_eq :
    r.functionPointers = collect TypeEntity.functionPointer? FunctionPointer.name types := by
  rw [← h.link_eq]
  rfl

theorem structs_eq :
    r.structs = (collect TypeEntity.struct? Struct.name types).map (Struct.indexed r.enums) := by
  rw [← h.link_eq]
  rfl

theorem unions_eq : r.unions = collect TypeEntity.union? Union.name types := by
  rw [← h.link_eq]
  rfl

theorem externalTypes_eq :
    r.externalTypes = collect TypeEntity.external? ExternalType.name types := by
  rw [← h.link_eq]
  rfl

theorem enums_eq : r.enums = doc.enumerations config .plain := by
  rw [← h.link_eq]
  rfl

theorem bitmasks_eq : r.bitmasks = doc.enumerations config .bits := by
  rw [← h.link_eq]
  rfl

theorem extensions_eq :
    r.extensions = collect some Extension.name
      ((doc.keptExtensions config).map (Extension.ofDecl config doc)) := by
  rw [← h.link_eq]
  rfl

/-- The extensions are the kept ones, in the order of the document. -/
theorem values_extensions :
    r.extensions.values = (doc.keptExtensions config).map (Extension.ofDecl config doc) := by
  rw [h.extensions_eq, values_collect (nodup_extensionNames config doc), List.filterMap_some]

/-- Every extension is found under its own name. -/
theorem get?_extensions {e : Extension} (he : e ∈ r.extensions.values) :
    r.extensions.get? e.name = some e := by
  rw [h.values_extensions] at he
  rw [h.extensions_eq, get?_collect_eq_some_iff (nodup_extensionNames config doc),
    List.filterMap_some]
  exact ⟨he, rfl⟩

theorem functions_eq :
    r.functions =
      collect some Function.name (functions.map (Function.retype r.extensions.values)) := by
  rw [← h.link_eq]
  rfl

theorem extensionFunctions_eq :
    r.extensionFunctions = Extension.owners Extension.functions r.extensions := by
  rw [← h.link_eq]
  rfl

theorem extensionTypes_eq :
    r.extensionTypes = Extension.owners Extension.types r.extensions := by
  rw [← h.link_eq]
  rfl

end Resolves

end Registry

end ApiStencil
