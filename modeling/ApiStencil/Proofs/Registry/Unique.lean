/-
ApiStencil/Proofs/Registry/Unique.lean

One entity per name.  Ten collections share one space of names, and names count as
the same if they stand for the same name in the end; chains of aliases may be as
long as they like, and may run in circles.

Main statement: in a resolved registry no two entities have names that resolve to
the same one, every entity stands under its own name, and every collection keeps
the order of the document (`build_uniquelyNamed`).

The space of names is shared through the lists of names that are taken already:
types go first, groups see the names of types, and commands those of both
(`nodup_append_firstPer`).  That the seven collections of types have no name in
common is a matter of counting: each entity is in exactly one of them
(`count_typeNames`).
-/
import ApiStencil.Proofs.Distinct
import ApiStencil.Proofs.Registry.Resolved

namespace ApiStencil

open Document

/-! ### Taken names -/

namespace Document

variable (config : Config) (doc : Document)

/-- The alias-free names of the kept commands. -/
def commandKeys : List String :=
  (doc.keptCommands config).map fun d => doc.aliases.resolve d.prototype.name

theorem nodup_keys :
    (doc.typeKeys config ++ doc.groupKeys config ++ doc.commandKeys config).Nodup := by
  have ht : (doc.typeKeys config).Nodup := nodup_keys_firstPer _ _ _
  have hg : (doc.typeKeys config ++ doc.groupKeys config).Nodup := nodup_append_firstPer ht
  exact nodup_append_firstPer hg

end Document

/-! ### In the order of the document -/

section InOrder

variable {α β γ δ : Type} {R : α → δ → Prop} {S : β → δ → Prop} {l : List α} {decls : List δ}

/-- Leaving some out keeps the rest in order. -/
theorem inOrder_of_sublist {l' : List α} (h : List.SublistForall₂ R l decls)
    (hs : l'.Sublist l) : List.SublistForall₂ R l' decls := by
  induction h generalizing l' with
  | nil =>
    rw [List.sublist_nil.1 hs]
    exact .nil
  | cons hr _ ih =>
    cases hs with
    | cons _ hs => exact .cons_right (ih hs)
    | cons_cons _ hs => exact .cons hr (ih hs)
  | cons_right _ ih => exact .cons_right (ih hs)

/-- So does changing them. -/
theorem inOrder_filterMap {f : α → Option β} (hf : ∀ a d b, R a d → f a = some b → S b d)
    (h : List.SublistForall₂ R l decls) : List.SublistForall₂ S (l.filterMap f) decls := by
  induction h with
  | nil => exact .nil
  | @cons a d l decls hr _ ih =>
    cases hb : f a with
    | none =>
      rw [List.filterMap_cons_none hb]
      exact .cons_right ih
    | some b =>
      rw [List.filterMap_cons_some hb]
      exact .cons (hf a d b hr hb) ih
  | cons_right _ ih => exact .cons_right ih

/-- So does resolving them one by one. -/
theorem inOrder_of_forall₂ {T : α → β → Prop} {results : List β}
    (hf : ∀ a d b, R a d → T a b → S b d) (h : List.SublistForall₂ R l decls)
    (hT : List.Forall₂ T l results) : List.SublistForall₂ S results decls := by
  induction h generalizing results with
  | nil =>
    cases hT
    exact .nil
  | cons hr _ ih =>
    cases hT with
    | cons ht hT => exact .cons (hf _ _ _ hr ht) (ih hT)
  | cons_right _ ih => exact .cons_right (ih hT)

end InOrder

/-- A collection whose entities stand under their own names, in the order of the declarations that
they come from. -/
structure Collects {ε δ : Type} (name : ε → String) (From : ε → δ → Prop) (decls : List δ)
    (m : OrderedMap ε) : Prop where
  named : ∀ key e, m.get? key = some e → name e = key
  inOrder : List.SublistForall₂ From m.values decls

namespace Collects

variable {α ε δ : Type} {name : ε → String} {From : ε → δ → Prop} {decls : List δ}

/-- A collection of entities in order is as is said, if their names are different. -/
theorem collect {entity? : α → Option ε} {R : α → δ → Prop} {l : List α}
    (hn : ((l.filterMap entity?).map name).Nodup) (hl : List.SublistForall₂ R l decls)
    (hR : ∀ a d e, R a d → entity? a = some e → From e d) :
    Collects name From decls (Registry.collect entity? name l) where
  named := fun _ _ h => ((Registry.get?_collect_eq_some_iff hn).1 h).2
  inOrder := by
    rw [Registry.values_collect hn]
    exact inOrder_filterMap hR hl

/-- A change of the entities that keeps their names. -/
theorem map {m : OrderedMap ε} {f : ε → ε} (hf : ∀ e, name (f e) = name e)
    (h : Collects name From decls m) :
    Collects name (fun e d => ∃ e₀, From e₀ d ∧ e = f e₀) decls (m.map f) where
  named := by
    intro key e he
    rw [OrderedMap.get?_map, Option.map_eq_some_iff] at he
    obtain ⟨e₀, he₀, rfl⟩ := he
    rw [hf]
    exact h.named key e₀ he₀
  inOrder := by
    rw [OrderedMap.values_map, ← List.filterMap_eq_map]
    refine inOrder_filterMap (fun e₀ d e h₀ he => ?_) h.inOrder
    exact ⟨e₀, h₀, (Option.some.inj he).symm⟩

end Collects

/-! ### Where entities come from -/

namespace Document

/-- A type of the API that is no alias declares the entity that it resolves to. -/
def TypeDecl.Declares (ctx : Declaration.Context) (e : TypeEntity) (t : TypeDecl) : Prop :=
  t.aliasOf = none ∧ ctx.config.containsApi t.api = true ∧
    ∃ name category, t.name? = some name ∧ t.category? = some category ∧
      TypeEntity.ofType ctx ⟨name, category, t⟩ = .ok e

/-- A group declares an enumeration of its kind, with the options that it is given in the
document. -/
def EnumGroup.Declares (config : Config) (doc : Document) (e : Enumeration) (g : EnumGroup) :
    Prop :=
  g.name = some e.name ∧ g.kind.bind EnumKind.ofName? = some e.kind ∧
    e = doc.enumerationOf config ⟨e.name, e.kind, g⟩

/-- A definition declares the function that it resolves to, typed by the extensions that list it. -/
def CommandDef.Declares (ctx : Declaration.Context) (r : Registry) (f : Function)
    (d : CommandDef) : Prop :=
  ∃ f₀, Function.ofCommand ctx r.handles d = .ok f₀ ∧ f = f₀.retype r.extensions.values

/-- The types that can become entities are in the order of the document. -/
theorem inOrder_namedTypes (config : Config) (doc : Document) :
    List.SublistForall₂
      (fun n t => n.decl = t ∧ t.aliasOf = none ∧ config.containsApi t.api = true ∧
        t.name? = some n.name ∧ t.category? = some n.category)
      (doc.namedTypes config) doc.types := by
  refine inOrder_filterMap (R := Eq) ?_ (List.SublistForall₂.is_refl.refl doc.types)
  rintro t _ n rfl hn
  split at hn
  · cases hn
  · next h =>
    rw [not_or, Bool.not_eq_true', Bool.not_eq_false] at h
    split at hn
    · next name category hname hcategory =>
      cases hn
      exact ⟨rfl, Option.not_isSome_iff_eq_none.1 h.1, h.2, hname, hcategory⟩
    · cases hn

/-- So are the groups that can become enumerations. -/
theorem inOrder_namedGroups (doc : Document) :
    List.SublistForall₂
      (fun n g => n.decl = g ∧ g.name = some n.name ∧
        g.kind.bind EnumKind.ofName? = some n.kind)
      doc.namedGroups doc.enumGroups := by
  refine inOrder_filterMap (R := Eq) ?_ (List.SublistForall₂.is_refl.refl doc.enumGroups)
  rintro g _ n rfl hn
  split at hn
  · next name kind hname hkind =>
    cases hn
    exact ⟨rfl, hname, hkind⟩
  · cases hn

end Document

namespace Registry

/-- What the declarations of the document were resolved against. -/
def contextFor (r : Registry) (config : Config) : Declaration.Context :=
  ⟨config, r.aliases, r.constants⟩

/-- The names of the entities, collection after collection. -/
def names (r : Registry) : List (List String) :=
  [r.functions.keys, r.structs.keys, r.unions.keys, r.enums.keys, r.bitmasks.keys, r.flags.keys,
    r.handles.keys, r.baseTypes.keys, r.externalTypes.keys, r.functionPointers.keys]

/-- Every entity of the registry stands under its own name and in its place, and shares that name,
or any that stands for the same, with no other. -/
structure UniquelyNamed (config : Config) (doc : Document) (r : Registry) : Prop where
  functions : Collects Function.name (CommandDef.Declares (r.contextFor config) r)
    doc.definitions r.functions
  structs : Collects Struct.name
    (fun s t => ∃ s₀, t.Declares (r.contextFor config) (.struct s₀) ∧ s = s₀.indexed r.enums)
    doc.types r.structs
  unions : Collects Union.name (fun u => TypeDecl.Declares (r.contextFor config) (.union u))
    doc.types r.unions
  enums : Collects Enumeration.name (fun e g => e.kind = .plain ∧ g.Declares config doc e)
    doc.enumGroups r.enums
  bitmasks : Collects Enumeration.name (fun e g => e.kind = .bits ∧ g.Declares config doc e)
    doc.enumGroups r.bitmasks
  flags : Collects Flag.name (fun f => TypeDecl.Declares (r.contextFor config) (.flag f))
    doc.types r.flags
  handles : Collects Handle.name (fun h => TypeDecl.Declares (r.contextFor config) (.handle h))
    doc.types r.handles
  baseTypes : Collects BaseType.name
    (fun t => TypeDecl.Declares (r.contextFor config) (.baseType t)) doc.types r.baseTypes
  externalTypes : Collects ExternalType.name
    (fun t => TypeDecl.Declares (r.contextFor config) (.external t)) doc.types r.externalTypes
  functionPointers : Collects FunctionPointer.name
    (fun p => TypeDecl.Declares (r.contextFor config) (.functionPointer p))
    doc.types r.functionPointers
  /-- No name is in two collections. -/
  disjoint : r.names.Pairwise List.Disjoint
  /-- No two names stand for the same one. -/
  resolved : (r.names.flatten.map r.aliases.resolve).Nodup
  /-- Functions are neither excluded nor aliases. -/
  admitted : ∀ name ∈ r.functions.keys,
    config.isExcluded name = false ∧ r.aliases.contains name = false

/-! ### The collections of types -/

/-- `entity?` finds the entities that the constructor `entity` makes, and `name` is what they are
called. -/
structure Selects {ε : Type} (entity : ε → TypeEntity) (entity? : TypeEntity → Option ε)
    (name : ε → String) : Prop where
  eq_of_some : ∀ e x, entity? e = some x → e = entity x
  name_eq : ∀ x, (entity x).name = name x

theorem selects_baseType : Selects .baseType TypeEntity.baseType? BaseType.name :=
  ⟨fun e _ hx => by cases e <;> cases hx; rfl, fun _ => rfl⟩

theorem selects_flag : Selects .flag TypeEntity.flag? Flag.name :=
  ⟨fun e _ hx => by cases e <;> cases hx; rfl, fun _ => rfl⟩

theorem selects_handle : Selects .handle TypeEntity.handle? Handle.name :=
  ⟨fun e _ hx => by cases e <;> cases hx; rfl, fun _ => rfl⟩

theorem selects_functionPointer :
    Selects .functionPointer TypeEntity.functionPointer? FunctionPointer.name :=
  ⟨fun e _ hx => by cases e <;> cases hx; rfl, fun _ => rfl⟩

theorem selects_struct : Selects .struct TypeEntity.struct? Struct.name :=
  ⟨fun e _ hx => by cases e <;> cases hx; rfl, fun _ => rfl⟩

theorem selects_union : Selects .union TypeEntity.union? Union.name :=
  ⟨fun e _ hx => by cases e <;> cases hx; rfl, fun _ => rfl⟩

theorem selects_external : Selects .external TypeEntity.external? ExternalType.name :=
  ⟨fun e _ hx => by cases e <;> cases hx; rfl, fun _ => rfl⟩

/-- Entities of one sort have their names in the order of all entities. -/
theorem Selects.sublist_names {ε : Type} {entity : ε → TypeEntity}
    {entity? : TypeEntity → Option ε} {name : ε → String} (hs : Selects entity entity? name)
    (types : List TypeEntity) :
    ((types.filterMap entity?).map name).Sublist (types.map TypeEntity.name) := by
  induction types with
  | nil => exact .slnil
  | cons e r ih =>
    cases hx : entity? e with
    | none =>
      rw [List.filterMap_cons_none hx]
      exact ih.cons _
    | some x =>
      rw [List.filterMap_cons_some hx, List.map_cons, List.map_cons, hs.eq_of_some e x hx,
        hs.name_eq]
      exact ih.cons_cons _

/-- Each entity has its name in exactly one of the seven collections of types. -/
theorem count_typeNames (name : String) (types : List TypeEntity) :
    (types.map TypeEntity.name).count name =
      ((types.filterMap TypeEntity.struct?).map Struct.name).count name +
      ((types.filterMap TypeEntity.union?).map Union.name).count name +
      ((types.filterMap TypeEntity.flag?).map Flag.name).count name +
      ((types.filterMap TypeEntity.handle?).map Handle.name).count name +
      ((types.filterMap TypeEntity.baseType?).map BaseType.name).count name +
      ((types.filterMap TypeEntity.external?).map ExternalType.name).count name +
      ((types.filterMap TypeEntity.functionPointer?).map FunctionPointer.name).count name := by
  induction types with
  | nil => rfl
  | cons e r ih =>
    cases e <;>
      simp only [List.filterMap_cons, TypeEntity.struct?, TypeEntity.union?, TypeEntity.flag?,
        TypeEntity.handle?, TypeEntity.baseType?, TypeEntity.external?,
        TypeEntity.functionPointer?, List.map_cons, TypeEntity.name] <;>
      simp only [List.count_cons] <;> omega

namespace Resolves

variable {config : Config} {doc : Document} {types : List TypeEntity} {functions : List Function}
  {r : Registry} (h : Resolves config doc types functions r)

include h

theorem typeNames : types.map TypeEntity.name = (doc.keptTypes config).map NamedType.name := by
  have hf := forall₂_of_mapM h.types_ok
  rw [eq_comm, ← List.forall₂_eq_eq_eq, List.forall₂_map_left_iff, List.forall₂_map_right_iff]
  exact hf.imp fun _ _ he => (TypeEntity.name_of_ofType he).symm

theorem functionNames :
    functions.map Function.name = (doc.keptCommands config).map fun d => d.prototype.name := by
  have hf := forall₂_of_mapM h.functions_ok
  rw [eq_comm, ← List.forall₂_eq_eq_eq, List.forall₂_map_left_iff, List.forall₂_map_right_iff]
  exact hf.imp fun _ _ he => (Function.name_of_ofCommand he).symm

theorem nodup_typeNames : (types.map TypeEntity.name).Nodup := by
  rw [h.typeNames]
  exact nodup_map_firstPer doc.aliases.resolve NamedType.name _ _

theorem nodup_functionNames : (functions.map Function.name).Nodup := by
  rw [h.functionNames]
  exact nodup_map_firstPer doc.aliases.resolve (fun d : CommandDef => d.prototype.name) _ _

/-- The entities of types are in the order of the document. -/
theorem inOrder_types :
    List.SublistForall₂ (TypeDecl.Declares (r.contextFor config)) types doc.types := by
  have hk := inOrder_of_sublist (inOrder_namedTypes config doc)
    (firstPer_sublist (fun t => doc.aliases.resolve t.name) [] _)
  refine inOrder_of_forall₂ ?_ hk (forall₂_of_mapM h.types_ok)
  rintro ⟨name, category, _⟩ t e ⟨rfl, halias, hapi, hname, hcategory⟩ he
  rw [h.context_eq] at he
  exact ⟨halias, hapi, name, category, hname, hcategory, he⟩

section

variable {ε : Type} {entity : ε → TypeEntity} {entity? : TypeEntity → Option ε} {name : ε → String}

theorem keys_types (hs : Selects entity entity? name) :
    (collect entity? name types).keys = (types.filterMap entity?).map name :=
  keys_collect (h.nodup_typeNames.sublist (hs.sublist_names types))

/-- The collection of the entities that one constructor makes. -/
theorem collects_types (hs : Selects entity entity? name) :
    Collects name (fun x => TypeDecl.Declares (r.contextFor config) (entity x)) doc.types
      (collect entity? name types) := by
  refine Collects.collect (h.nodup_typeNames.sublist (hs.sublist_names types)) h.inOrder_types ?_
  intro e t x ht hx
  rw [← hs.eq_of_some e x hx]
  exact ht

end

end Resolves

/-! ### Enumerations -/

section

variable (config : Config) (doc : Document)

/-- Each kept group has its name in exactly one of the two collections of enumerations. -/
theorem count_groupNames (name : String) :
    ((doc.keptGroups config).map NamedGroup.name).count name =
      (doc.enumerations config .plain).keys.count name +
      (doc.enumerations config .bits).keys.count name := by
  rw [keys_enumerations, keys_enumerations]
  induction doc.keptGroups config with
  | nil => rfl
  | cons g r ih =>
    rw [List.filter_cons, List.filter_cons]
    cases hg : g.kind <;> simp only [reduceCtorEq, decide_true, decide_false, if_true,
      Bool.false_eq_true, if_false, List.map_cons, List.count_cons, ih] <;> omega

/-- The enumerations of one kind are collected in order. -/
theorem collects_enumerations (kind : EnumKind) :
    Collects Enumeration.name (fun e g => e.kind = kind ∧ g.Declares config doc e)
      doc.enumGroups (doc.enumerations config kind) := by
  have hkept := inOrder_of_sublist (inOrder_namedGroups doc)
    (firstPer_sublist (fun g => doc.aliases.resolve g.name) (doc.typeKeys config) _)
  -- the kind is a property of the group that is kept, so the filter stands in front of the map
  have hkind : List.SublistForall₂
      (fun e g => e.kind = kind ∧ g.Declares config doc e)
      (((doc.keptGroups config).filter (·.kind = kind)).map (doc.enumerationOf config))
      doc.enumGroups := by
    rw [← List.filterMap_eq_filter, List.map_filterMap]
    refine inOrder_filterMap ?_ hkept
    rintro ⟨name, kind', g⟩ _ e ⟨rfl, hname, hkind⟩ he
    obtain ⟨n, hn, rfl⟩ := Option.map_eq_some_iff.1 he
    obtain ⟨rfl, hk⟩ := Option.guard_eq_some_iff.1 hn
    have hname' := name_enumerationOf config doc ⟨name, kind', g⟩
    have hkind' := kind_enumerationOf config doc ⟨name, kind', g⟩
    refine ⟨hkind'.trans (of_decide_eq_true hk), ?_, ?_, ?_⟩
    · rw [hname, hname']
    · rw [hkind, hkind']
    · rw [hname', hkind']
  rw [enumerations_eq_collect]
  refine Collects.collect (nodup_enumerationNames config doc kind) hkind ?_
  rintro e g _ he ⟨⟩
  exact he

end

/-! ### Functions -/

theorem names_retype (extensions : List Extension) (functions : List Function) :
    ((functions.map (Function.retype extensions)).filterMap some).map Function.name =
      functions.map Function.name := by
  rw [List.filterMap_some, List.map_map]
  exact List.map_congr_left fun f _ => Function.name_retype extensions f

namespace Resolves

variable {config : Config} {doc : Document} {types : List TypeEntity} {functions : List Function}
  {r : Registry} (h : Resolves config doc types functions r)

include h

theorem keys_functions : r.functions.keys = functions.map Function.name := by
  have hn := h.nodup_functionNames
  rw [← names_retype r.extensions.values] at hn
  rw [h.functions_eq, keys_collect hn, names_retype]

/-- The functions are collected in order, each from its definition. -/
theorem collects_functions :
    Collects Function.name (CommandDef.Declares (r.contextFor config) r) doc.definitions
      r.functions := by
  have hn := h.nodup_functionNames
  rw [← names_retype r.extensions.values] at hn
  have hkept : (doc.keptCommands config).Sublist doc.definitions :=
    (firstPer_sublist _ _ _).trans List.filter_sublist
  have hordered := inOrder_of_sublist (R := Eq) (List.SublistForall₂.is_refl.refl _) hkept
  have hfunctions : List.SublistForall₂
      (fun f d => Function.ofCommand (r.contextFor config) r.handles d = .ok f)
      functions doc.definitions := by
    refine inOrder_of_forall₂ ?_ hordered (forall₂_of_mapM h.functions_ok)
    rintro d _ f rfl hf
    rw [h.context_eq] at hf
    exact hf
  have hretyped : List.SublistForall₂ (CommandDef.Declares (r.contextFor config) r)
      (functions.map (Function.retype r.extensions.values)) doc.definitions := by
    rw [← List.filterMap_eq_map]
    refine inOrder_filterMap (fun f₀ d f h₀ hf => ?_) hfunctions
    exact ⟨f₀, h₀, (Option.some.inj hf).symm⟩
  have hc := Collects.collect hn hretyped fun f d f' hf he => Option.some.inj he ▸ hf
  rw [← h.functions_eq] at hc
  exact hc

/-- A command that is excluded or an alias is not kept. -/
theorem admitted (name : String) (hname : name ∈ r.functions.keys) :
    config.isExcluded name = false ∧ r.aliases.contains name = false := by
  rw [h.keys_functions, h.functionNames] at hname
  obtain ⟨d, hd, rfl⟩ := List.mem_map.1 hname
  have hn : d ∈ doc.namedCommands config := (firstPer_sublist _ _ _).subset hd
  have hp := (List.mem_filter.1 hn).2
  rw [h.aliases_eq]
  rw [Bool.and_eq_true, Bool.not_eq_true', Bool.not_eq_true'] at hp
  exact hp

/-! ### All names -/

/-- The names of all collections are those of the types, the groups and the commands that are kept.
Each is in one collection. -/
theorem perm_names :
    r.names.flatten.Perm (types.map TypeEntity.name ++
      (doc.keptGroups config).map NamedGroup.name ++ functions.map Function.name) := by
  rw [List.perm_iff_count]
  intro name
  have ht := count_typeNames name types
  have hg := count_groupNames config doc name
  rw [names, h.keys_functions, h.structs_eq, h.unions_eq, h.enums_eq, h.bitmasks_eq, h.flags_eq,
    h.handles_eq, h.baseTypes_eq, h.externalTypes_eq, h.functionPointers_eq, OrderedMap.keys_map,
    h.keys_types selects_struct, h.keys_types selects_union, h.keys_types selects_flag,
    h.keys_types selects_handle, h.keys_types selects_baseType, h.keys_types selects_external,
    h.keys_types selects_functionPointer]
  simp only [List.flatten_cons, List.flatten_nil, List.count_append, List.count_nil]
  omega

/-- And these stand for different ones. -/
theorem resolved : (r.names.flatten.map r.aliases.resolve).Nodup := by
  have hk := doc.nodup_keys config
  have ht : (types.map TypeEntity.name).map doc.aliases.resolve = doc.typeKeys config := by
    rw [h.typeNames, List.map_map]
    rfl
  have hg : ((doc.keptGroups config).map NamedGroup.name).map doc.aliases.resolve =
      doc.groupKeys config := by
    rw [List.map_map]
    rfl
  have hc : (functions.map Function.name).map doc.aliases.resolve = doc.commandKeys config := by
    rw [h.functionNames, List.map_map]
    rfl
  rw [← ht, ← hg, ← hc, ← List.map_append, ← List.map_append, ← h.aliases_eq] at hk
  exact (h.perm_names.map r.aliases.resolve).nodup_iff.2 hk

theorem disjoint : r.names.Pairwise List.Disjoint :=
  (List.nodup_flatten.1 (List.Nodup.of_map _ h.resolved)).2

end Resolves

/-- A resolved registry has one entity per name, whatever the document declares twice, and whatever
its aliases stand for. -/
theorem build_uniquelyNamed {config : Config} {doc : Document} {r : Registry}
    (h : build config doc = .ok r) : UniquelyNamed config doc r := by
  obtain ⟨types, functions, h⟩ := build_eq_ok_iff.1 h
  refine ⟨h.collects_functions, ?_, ?_, ?_, ?_, ?_, ?_, ?_, ?_, ?_, h.disjoint, h.resolved,
    h.admitted⟩
  · rw [h.structs_eq]
    exact (h.collects_types selects_struct).map (Struct.name_indexed r.enums)
  · exact h.unions_eq ▸ h.collects_types selects_union
  · exact h.enums_eq ▸ collects_enumerations config doc .plain
  · exact h.bitmasks_eq ▸ collects_enumerations config doc .bits
  · exact h.flags_eq ▸ h.collects_types selects_flag
  · exact h.handles_eq ▸ h.collects_types selects_handle
  · exact h.baseTypes_eq ▸ h.collects_types selects_baseType
  · exact h.externalTypes_eq ▸ h.collects_types selects_external
  · exact h.functionPointers_eq ▸ h.collects_types selects_functionPointer

/-- Names that are declared again: as another kind of type, as a group, as a command and under two
aliases that stand for each other. -/
def redeclared : Document :=
  [.types [
      ⟨some "A", some "B", none, none, none, none, none, none, .empty⟩,
      ⟨some "B", some "A", none, none, none, none, none, none, .empty⟩,
      ⟨some "S", none, none, none, some "handle", none, none, none, .empty⟩,
      ⟨some "S", none, none, none, some "struct", none, none, none, .members []⟩,
      ⟨some "A", none, none, none, some "basetype", none, none, none, .empty⟩,
      ⟨some "B", none, none, none, some "union", none, none, none, .members []⟩],
    .enums ⟨some "S", some "enum", none, []⟩,
    .enums ⟨some "E", some "bitmask", none, []⟩,
    .commands [
      .definition ⟨⟨"S", none, "void S"⟩, [], none⟩,
      .definition ⟨⟨"A", none, "void A"⟩, [], none⟩,
      .definition ⟨⟨"F", none, "void F"⟩, [], none⟩]]

/-- The first type of a name counts, and neither a group nor a command takes a name from a type,
whatever the aliases that stand for each other. -/
theorem build_uniquelyNamed_redeclared :
    ∃ r, build Config.default redeclared = .ok r ∧
      (r.handles.keys, r.enums.keys, r.baseTypes.keys, r.unions.keys, r.functions.keys) =
        (["S"], [], ["A"], ["B"], ["F"]) ∧
      UniquelyNamed Config.default redeclared r := by
  have hk : (build Config.default redeclared).toOption.map
      (fun r => (r.handles.keys, r.enums.keys, r.baseTypes.keys, r.unions.keys,
        r.functions.keys)) = some (["S"], [], ["A"], ["B"], ["F"]) := by
    decide +kernel
  obtain ⟨r, h, hk⟩ := toOption_map_eq_some_iff.1 hk
  exact ⟨r, h, hk, build_uniquelyNamed h⟩

end Registry

end ApiStencil
