/-
ApiStencil/Proofs/Document/Renamed.lean

Documents that differ in the names of the types of members and parameters.  `Renames`
relates two documents in which any of these declarations name their types differently.

The aliases, the constants and everything that declares no variables are the same, and
the kept types and commands correspond one by one (`Renames.keptTypes`,
`Renames.keptCommands`).
-/
import ApiStencil.Proofs.Declaration.Renamed
import ApiStencil.Proofs.Distinct
import ApiStencil.Registry.Build

namespace ApiStencil

open Declaration

/-! ### Corresponding lists -/

section

variable {α β γ : Type} {R : α → β → Prop} {l : List α} {l' : List β}

theorem map_eq_of_forall₂ {f : α → γ} {g : β → γ} (h : List.Forall₂ R l l')
    (hf : ∀ a b, R a b → g b = f a) : l'.map g = l.map f := by
  induction h with
  | nil => rfl
  | cons hab _ ih => rw [List.map_cons, List.map_cons, hf _ _ hab, ih]

theorem filterMap_eq_of_forall₂ {f : α → Option γ} {g : β → Option γ} (h : List.Forall₂ R l l')
    (hf : ∀ a b, R a b → g b = f a) : l'.filterMap g = l.filterMap f := by
  induction h with
  | nil => rfl
  | cons hab _ ih => rw [List.filterMap_cons, List.filterMap_cons, hf _ _ hab, ih]

/-- Pairs correspond if their parts do. -/
theorem forall₂_zipped {γ δ : Type} {S : γ → δ → Prop} {k : List γ} {k' : List δ}
    (h : List.Forall₂ R l l') (hk : List.Forall₂ S k k') :
    List.Forall₂ (fun p q => R p.1 q.1 ∧ S p.2 q.2) (l.zip k) (l'.zip k') := by
  induction h generalizing k k' with
  | nil => exact .nil
  | cons hab _ ih =>
    cases hk with
    | nil => exact .nil
    | cons hcd hk => exact .cons ⟨hab, hcd⟩ (ih hk)

end

namespace Document

variable {aliases : Aliases} {config : Config}

/-! ### Declarations -/

/-- Whether two members are the same, or differ in their code by the name of the type. -/
inductive Member.Renames (aliases : Aliases) : Member → Member → Prop where
  | same (m : Member) : Renames aliases m m
  | renamed {m : Member} {code : String} {marks : List MemberMark} {a b : Raw}
    (ha : Raw.ofMember m = .ok a)
    (hb : Raw.ofMember { m with code := code, marks := marks } = .ok b)
    (h : a.Renamed aliases b) : Renames aliases m { m with code := code, marks := marks }

/-- Whether two parameters are the same, or differ in their declaration by the name of the type. -/
inductive Param.Renames (aliases : Aliases) : Param → Param → Prop where
  | same (p : Param) : Renames aliases p p
  | renamed {p : Param} {declaration : NameWithType} {a b : Raw} (ha : Raw.ofParam p = .ok a)
    (hb : Raw.ofParam { p with declaration := declaration } = .ok b)
    (h : a.Renamed aliases b) : Renames aliases p { p with declaration := declaration }

/-- Whether two types are the same, or declare corresponding members. -/
inductive TypeDecl.Renames (aliases : Aliases) : TypeDecl → TypeDecl → Prop where
  | same (t : TypeDecl) : Renames aliases t t
  | members {t : TypeDecl} {l l' : List Member} (h : t.body = .members l)
    (hl : List.Forall₂ (Member.Renames aliases) l l') :
    Renames aliases t { t with body := .members l' }

/-- Whether two definitions are the same but for corresponding parameters. -/
inductive CommandDef.Renames (aliases : Aliases) : CommandDef → CommandDef → Prop where
  | params {d : CommandDef} {l : List Param} (h : List.Forall₂ (Param.Renames aliases) d.params l) :
    Renames aliases d { d with params := l }

/-- Whether two commands are the same but for corresponding parameters. -/
inductive Command.Renames (aliases : Aliases) : Command → Command → Prop where
  | aliasOf (name target : String) : Renames aliases (.aliasOf name target) (.aliasOf name target)
  | definition {d d' : CommandDef} (h : d.Renames aliases d') :
    Renames aliases (.definition d) (.definition d')

/-- Whether two blocks are the same, or have corresponding types or commands. -/
inductive Block.Renames (aliases : Aliases) : Block → Block → Prop where
  | same (b : Block) : Renames aliases b b
  | types {l l' : List TypeDecl} (h : List.Forall₂ (TypeDecl.Renames aliases) l l') :
    Renames aliases (.types l) (.types l')
  | commands {l l' : List Command} (h : List.Forall₂ (Command.Renames aliases) l l') :
    Renames aliases (.commands l) (.commands l')

/-- Whether two documents are the same but for members and parameters that name their types
differently.  The names have the same ends of their chains of aliases. -/
def Renames (doc doc' : Document) : Prop :=
  List.Forall₂ (Block.Renames doc.aliases) doc doc'

theorem CommandDef.Renames.rest {d d' : CommandDef} (h : d.Renames aliases d') :
    d' = { d with params := d'.params } := by
  cases h
  rfl

theorem CommandDef.Renames.same (d : CommandDef) : d.Renames aliases d :=
  .params (List.forall₂_same.2 fun p _ => .same p)

theorem Command.Renames.same (c : Command) : c.Renames aliases c := by
  cases c with
  | aliasOf name target => exact .aliasOf name target
  | definition d => exact .definition (.same d)

/-! ### The parts of a document -/

namespace Renames

variable {doc doc' : Document} (h : doc.Renames doc')

include h

/-- The types of the documents correspond one by one, in order. -/
theorem types : List.Forall₂ (TypeDecl.Renames doc.aliases) doc.types doc'.types := by
  refine List.rel_flatMap h fun b b' hb => ?_
  cases hb with
  | same b => exact List.forall₂_same.2 fun t _ => .same t
  | types h => exact h
  | commands _ => exact .nil

/-- So do the commands. -/
theorem commands :
    List.Forall₂ (Command.Renames doc.aliases) doc.commands doc'.commands := by
  refine List.rel_flatMap h fun b b' hb => ?_
  cases hb with
  | same b => exact List.forall₂_same.2 fun c _ => .same c
  | types _ => exact .nil
  | commands h => exact h

/-- So do the commands that are defined, for an alias corresponds to itself only. -/
theorem definitions :
    List.Forall₂ (CommandDef.Renames doc.aliases) doc.definitions doc'.definitions := by
  refine List.rel_filterMap (fun c c' hc => ?_) h.commands
  cases hc with
  | aliasOf name target => exact .none
  | definition h => exact .some h

theorem aliases_eq : doc'.aliases = doc.aliases := by
  refine congrArg OrderedMap.ofList (congrArg₂ (· ++ ·) ?_ ?_)
  · exact filterMap_eq_of_forall₂ h.types fun t t' ht => by cases ht <;> rfl
  · exact filterMap_eq_of_forall₂ h.commands fun c c' hc => by cases hc <;> rfl

/-- Platforms declare no variables. -/
theorem platforms_eq : doc'.platforms = doc.platforms := by
  have hl : List.Forall₂ Eq doc.platforms doc'.platforms := by
    refine List.rel_flatMap h fun b b' hb => ?_
    cases hb <;> exact List.forall₂_same.2 fun _ _ => rfl
  rw [List.forall₂_eq_eq_eq] at hl
  exact hl.symm

/-- Extensions declare no variables. -/
theorem extensions_eq : doc'.extensions = doc.extensions := by
  have hl : List.Forall₂ Eq doc.extensions doc'.extensions := by
    refine List.rel_flatMap h fun b b' hb => ?_
    cases hb <;> exact List.forall₂_same.2 fun _ _ => rfl
  rw [List.forall₂_eq_eq_eq] at hl
  exact hl.symm

theorem enumGroups_eq : doc'.enumGroups = doc.enumGroups :=
  filterMap_eq_of_forall₂ h fun b b' hb => by cases hb <;> rfl

theorem features_eq : doc'.features = doc.features :=
  filterMap_eq_of_forall₂ h fun b b' hb => by cases hb <;> rfl

theorem constants_eq : doc'.constants = doc.constants := by
  rw [constants, constants, h.enumGroups_eq]

end Renames

/-! ### Kept declarations -/

namespace TypeDecl.Renames

variable {t t' : TypeDecl} (h : t.Renames aliases t')

include h

/-- A type that declares other members is the same in all other respects. -/
theorem rest : t' = { t with body := t'.body } := by
  cases h <;> rfl

theorem name?_eq : t'.name? = t.name? := by
  cases h with
  | same => rfl
  | members h _ => rw [name?, name?, h]

/-- Corresponding types have the same type in their code, for members are no code. -/
theorem codeType?_eq : t'.codeType? = t.codeType? := by
  cases h with
  | same => rfl
  | members h _ => rw [codeType?, codeType?, h]

theorem category?_eq : t'.category? = t.category? := by
  rw [category?, category?, h.rest]

/-- Corresponding types return the same type, if they are pointers to functions. -/
theorem returnType_eq : TypeEntity.returnType t'.body = TypeEntity.returnType t.body := by
  cases h with
  | same => rfl
  | members h _ =>
    rw [h]
    rfl

/-- The members that are admitted correspond, for their names for types are not asked. -/
theorem apiMembers (config : Config) :
    List.Forall₂ (Member.Renames aliases) (t.apiMembers config) (t'.apiMembers config) := by
  have hl : List.Forall₂ (Member.Renames aliases) t.members t'.members := by
    cases h with
    | same => exact List.forall₂_same.2 fun m _ => .same m
    | members h hl =>
      rw [TypeDecl.members, h]
      exact hl
  refine List.rel_filter (fun m m' hm => ?_) hl
  cases hm <;> rfl

end TypeDecl.Renames

/-- The same of parameters. -/
theorem CommandDef.Renames.apiParams {d d' : CommandDef} (h : d.Renames aliases d')
    (config : Config) :
    List.Forall₂ (Param.Renames aliases) (d.apiParams config) (d'.apiParams config) := by
  cases h with
  | params h =>
    refine List.rel_filter (fun p p' hp => ?_) h
    cases hp <;> rfl

/-- Whether two types that can become entities differ in their members only. -/
structure NamedType.Renames (aliases : Aliases) (t t' : NamedType) : Prop where
  name : t'.name = t.name
  category : t'.category = t.category
  decl : t.decl.Renames aliases t'.decl

namespace Renames

variable {doc doc' : Document} (h : doc.Renames doc')

include h

/-- The types that can become entities correspond. -/
theorem namedTypes :
    List.Forall₂ (NamedType.Renames doc.aliases) (doc.namedTypes config)
      (doc'.namedTypes config) := by
  refine List.rel_filterMap (fun t t' ht => ?_) h.types
  have haliasOf : t'.aliasOf = t.aliasOf := by rw [ht.rest]
  have hapi : t'.api = t.api := by rw [ht.rest]
  rw [ht.name?_eq, ht.category?_eq, haliasOf, hapi]
  split
  · exact .none
  · cases t.name? with
    | none => exact .none
    | some name =>
      cases t.category? with
      | none => exact .none
      | some category => exact .some ⟨rfl, rfl, ht⟩

/-- Of these the same are kept, for that is decided by their names. -/
theorem keptTypes :
    List.Forall₂ (NamedType.Renames doc.aliases) (doc.keptTypes config)
      (doc'.keptTypes config) := by
  rw [Document.keptTypes, Document.keptTypes, h.aliases_eq]
  exact forall₂_firstPer (fun t t' ht => by rw [ht.name]) h.namedTypes

theorem typeKeys_eq : doc'.typeKeys config = doc.typeKeys config := by
  rw [typeKeys, typeKeys, h.aliases_eq]
  exact map_eq_of_forall₂ h.keptTypes fun t t' ht => by rw [ht.name]

theorem keptGroups_eq : doc'.keptGroups config = doc.keptGroups config := by
  rw [keptGroups, keptGroups, namedGroups, namedGroups, h.enumGroups_eq,
    h.aliases_eq, h.typeKeys_eq]

theorem groupKeys_eq : doc'.groupKeys config = doc.groupKeys config := by
  rw [groupKeys, groupKeys, h.keptGroups_eq, h.aliases_eq]

/-- The commands that can become functions correspond. -/
theorem namedCommands :
    List.Forall₂ (CommandDef.Renames doc.aliases) (doc.namedCommands config)
      (doc'.namedCommands config) := by
  rw [Document.namedCommands, Document.namedCommands, h.aliases_eq]
  refine List.rel_filter (fun d d' hd => ?_) h.definitions
  cases hd
  rfl

/-- Of these the same are kept. -/
theorem keptCommands :
    List.Forall₂ (CommandDef.Renames doc.aliases) (doc.keptCommands config)
      (doc'.keptCommands config) := by
  rw [Document.keptCommands, Document.keptCommands, h.aliases_eq, h.typeKeys_eq,
    h.groupKeys_eq]
  refine forall₂_firstPer (fun d d' hd => ?_) h.namedCommands
  cases hd
  rfl

/-- The extensions are the same, and so are those that are kept. -/
theorem keptExtensions_eq : doc'.keptExtensions config = doc.keptExtensions config := by
  rw [keptExtensions, keptExtensions, h.extensions_eq]

/-- Enumerations have no variables, so they are the same. -/
theorem enumerations_eq (kind : EnumKind) :
    doc'.enumerations config kind = doc.enumerations config kind := by
  rw [enumerations, enumerations, contributedOptions, contributedOptions,
    h.keptGroups_eq, h.keptExtensions_eq, h.features_eq,
    h.aliases_eq]

theorem context_eq : doc'.context config = doc.context config := by
  rw [context, context, h.aliases_eq, h.constants_eq]

/-- An extension becomes the same entity, for it looks for its values only. -/
theorem ofDecl_eq : Extension.ofDecl config doc' = Extension.ofDecl config doc :=
  Extension.ofDecl_congr h.platforms_eq config

end Renames

end Document

end ApiStencil
