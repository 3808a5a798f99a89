/-
ApiStencil/Proofs/Registry/Shuffled.lean

Documents in another order.  If no two declarations share a name, every declaration is
kept wherever it stands (`NamedApart`), so a document whose types, commands and
extensions stand in another order keeps the same ones in that order.

They resolve to the same entities: what is looked up by name does not depend on the
order (`Registry.get?_collect_perm`), aliases included (`Shuffles.sameNames`), and
whether an extension lists a function neither.
So the functions of the two registries are the same (`Registry.Resolves.exists_shuffled`).
-/
import ApiStencil.Proofs.Alias
import ApiStencil.Proofs.Registry.Origin

namespace ApiStencil

open Document

/-- A sequence of steps that succeeds does so in another order, with its results in that order. -/
theorem mapM_perm {ε α β : Type} {f : α → Except ε β} {l l' : List α} (hp : l.Perm l')
    {results : List β} (h : l.mapM f = .ok results) :
    ∃ results', l'.mapM f = .ok results' ∧ results.Perm results' := by
  -- by induction on how the list is put into the other order
  induction hp generalizing results with
  | nil => exact ⟨results, h, .refl _⟩
  | cons a _ ih =>
    rw [List.mapM_cons] at h
    obtain ⟨b, hb, h⟩ := bind_eq_ok_iff.1 h
    obtain ⟨bs, hbs, h⟩ := bind_eq_ok_iff.1 h
    cases h
    obtain ⟨bs', hbs', hp⟩ := ih hbs
    refine ⟨b :: bs', ?_, hp.cons b⟩
    rw [List.mapM_cons, hb, hbs']
    rfl
  | swap a b l =>
    rw [List.mapM_cons, List.mapM_cons] at h
    obtain ⟨x, hx, h⟩ := bind_eq_ok_iff.1 h
    obtain ⟨_, h', h⟩ := bind_eq_ok_iff.1 h
    obtain ⟨y, hy, h'⟩ := bind_eq_ok_iff.1 h'
    obtain ⟨rest, hrest, h'⟩ := bind_eq_ok_iff.1 h'
    cases h'
    cases h
    refine ⟨y :: x :: rest, ?_, .swap y x rest⟩
    rw [List.mapM_cons, List.mapM_cons, hx, hy, hrest]
    rfl
  | trans _ _ ih ih' =>
    obtain ⟨middle, hmiddle, hp⟩ := ih h
    obtain ⟨results', hresults', hp'⟩ := ih' hmiddle
    exact ⟨results', hresults', hp.trans hp'⟩

/-! ### Names that stand for the same -/

/-- Whether the same names stand for the same ones in two contexts, however their aliases are
listed. -/
structure Declaration.Context.SameNames (ctx ctx' : Declaration.Context) : Prop where
  config_eq : ctx'.config = ctx.config
  constants_eq : ctx'.constants = ctx.constants
  resolve_eq : ctx'.aliases.resolve = ctx.aliases.resolve

namespace Declaration.Context.SameNames

variable {ctx ctx' : Declaration.Context} (h : ctx.SameNames ctx')

include h

/-- A declaration resolves to the same variable, for aliases are only asked what a name stands
for. -/
theorem resolve_raw : Raw.resolve ctx' = Raw.resolve ctx := by
  funext index raw
  simp only [Raw.resolve, Raw.arrayLength, h.config_eq, h.constants_eq, h.resolve_eq]

theorem resolveVariables_eq : Registry.resolveVariables ctx' = Registry.resolveVariables ctx := by
  funext owner raws
  simp only [Registry.resolveVariables, h.resolve_raw]

theorem ofType_eq : TypeEntity.ofType ctx' = TypeEntity.ofType ctx := by
  funext t
  simp only [TypeEntity.ofType, TypeEntity.resolveMembers, h.resolveVariables_eq, h.config_eq]

theorem ofCommand_eq (handles : OrderedMap Handle) :
    Function.ofCommand ctx' handles = Function.ofCommand ctx handles := by
  funext d
  simp only [Function.ofCommand, h.resolveVariables_eq, h.config_eq]

end Declaration.Context.SameNames

namespace Document

/-! ### Names -/

/-- Whether no two declarations have names that stand for the same one. -/
structure NamedApart (config : Config) (doc : Document) : Prop where
  entities : ((doc.namedTypes config).map (fun t => doc.aliases.resolve t.name) ++
    doc.namedGroups.map (fun g => doc.aliases.resolve g.name) ++
    (doc.namedCommands config).map fun d => doc.aliases.resolve d.prototype.name).Nodup
  extensions : (doc.extensions.map ExtensionDecl.name).Nodup

namespace NamedApart

variable {config : Config} {doc : Document} (h : doc.NamedApart config)

include h

theorem keptTypes_eq : doc.keptTypes config = doc.namedTypes config :=
  firstPer_eq_self (List.nodup_append.1 (List.nodup_append.1 h.entities).1).1

theorem keptGroups_eq : doc.keptGroups config = doc.namedGroups := by
  refine firstPer_eq_self ?_
  rw [typeKeys, h.keptTypes_eq]
  exact (List.nodup_append.1 h.entities).1

theorem keptCommands_eq : doc.keptCommands config = doc.namedCommands config := by
  refine firstPer_eq_self ?_
  rw [typeKeys, groupKeys, h.keptTypes_eq, h.keptGroups_eq]
  exact h.entities

theorem keptExtensions_eq :
    doc.keptExtensions config = doc.extensions.filter fun e => config.containsApi e.supported :=
  keptExtensions_eq_filter config doc h.extensions

end NamedApart

/-! ### Another order -/

/-- The two documents differ in the order of their types, commands and extensions only.  Where an
alias is declared twice, this order may not change which declaration counts. -/
structure Shuffles (doc doc' : Document) : Prop where
  platforms_eq : doc'.platforms = doc.platforms
  enumGroups_eq : doc'.enumGroups = doc.enumGroups
  features_eq : doc'.features = doc.features
  get?_aliases : ∀ name, doc'.aliases.get? name = doc.aliases.get? name
  types_perm : doc.types.Perm doc'.types
  commands_perm : doc.commands.Perm doc'.commands
  extensions_perm : doc.extensions.Perm doc'.extensions

namespace Shuffles

variable {config : Config} {doc doc' : Document} (h : doc.Shuffles doc')

include h

theorem resolve_eq (name : String) : doc'.aliases.resolve name = doc.aliases.resolve name :=
  Aliases.resolve_congr h.get?_aliases name

theorem sameNames : (doc.context config).SameNames (doc'.context config) where
  config_eq := rfl
  constants_eq := by simp only [context, constants, h.enumGroups_eq]
  resolve_eq := funext h.resolve_eq

theorem namedTypes_perm : (doc.namedTypes config).Perm (doc'.namedTypes config) :=
  h.types_perm.filterMap _

theorem namedGroups_eq : doc'.namedGroups = doc.namedGroups := by
  rw [namedGroups, namedGroups, h.enumGroups_eq]

theorem namedCommands_perm : (doc.namedCommands config).Perm (doc'.namedCommands config) := by
  have hcontains : ∀ name, doc'.aliases.contains name = doc.aliases.contains name := fun name =>
    congrArg Option.isSome (h.get?_aliases name)
  simp only [namedCommands, hcontains]
  exact (h.commands_perm.filterMap _).filter _

theorem ofDecl_eq : Extension.ofDecl config doc' = Extension.ofDecl config doc :=
  Extension.ofDecl_congr h.platforms_eq config

/-- The names are still different. -/
theorem namedApart (hn : doc.NamedApart config) : doc'.NamedApart config where
  entities := by
    simp only [h.resolve_eq, h.namedGroups_eq]
    refine List.Perm.nodup_iff ?_ |>.1 hn.entities
    exact ((h.namedTypes_perm.map _).append_right _).append (h.namedCommands_perm.map _)
  extensions := (h.extensions_perm.map _).nodup_iff.1 hn.extensions

end Shuffles

end Document

/-! ### The registry -/

/-- The handles matter for a function only by what is found under their names. -/
theorem Function.ofCommand_congr {handles handles' : OrderedMap Handle}
    (h : ∀ name, handles'.get? name = handles.get? name) (ctx : Declaration.Context)
    (d : CommandDef) : ofCommand ctx handles' d = ofCommand ctx handles d := by
  have hvia : Handle.viaInstance handles' = Handle.viaInstance handles := by
    funext x
    unfold Handle.viaInstance
    simp only [h]
  unfold ofCommand dispatchOf
  simp only [h, hvia]

theorem Function.retype_perm {extensions extensions' : List Extension}
    (h : extensions.Perm extensions') : retype extensions' = retype extensions := by
  funext f
  rw [retype, retype, h.any_eq]

namespace Registry

/-- What is collected under different names is found whatever the order. -/
theorem get?_collect_perm {α β : Type} {entity? : α → Option β} {name : β → String}
    {l l' : List α} (h : l.Perm l') (hn : ((l.filterMap entity?).map name).Nodup) (key : String) :
    (collect entity? name l').get? key = (collect entity? name l).get? key := by
  have hp := h.filterMap entity?
  refine Option.ext fun b => ?_
  rw [get?_collect_eq_some_iff hn, get?_collect_eq_some_iff ((hp.map name).nodup_iff.1 hn),
    hp.mem_iff]

/-- A document in another order resolves to the same functions. -/
theorem Resolves.exists_shuffled {config : Config} {doc doc' : Document} {types : List TypeEntity}
    {functions : List Function} {r : Registry} (h : Resolves config doc types functions r)
    (hs : doc.Shuffles doc') (hn : doc.NamedApart config) :
    ∃ types' functions' r', Resolves config doc' types' functions' r' ∧
      r.functions.values.Perm r'.functions.values := by
  have hn' := hs.namedApart hn
  have htypes : (doc.keptTypes config).Perm (doc'.keptTypes config) := by
    rw [hn.keptTypes_eq, hn'.keptTypes_eq]
    exact hs.namedTypes_perm
  have hcommands : (doc.keptCommands config).Perm (doc'.keptCommands config) := by
    rw [hn.keptCommands_eq, hn'.keptCommands_eq]
    exact hs.namedCommands_perm
  obtain ⟨types', htypes', htp⟩ := mapM_perm htypes h.types_ok
  obtain ⟨functions', hfunctions', hfp⟩ := mapM_perm hcommands h.functions_ok
  have hhandles : ∀ name, (collect TypeEntity.handle? Handle.name types').get? name =
      r.handles.get? name := by
    intro name
    rw [h.handles_eq]
    exact get?_collect_perm htp
      (h.nodup_typeNames.sublist (selects_handle.sublist_names types)) name
  -- handles are looked up by name, so the functions are the same once the types are
  have hr' : Resolves config doc' types' functions' (link config doc' types' functions') := {
    types_ok := by
      rw [hs.sameNames.ofType_eq]
      exact htypes'
    functions_ok := by
      have hcommand := Function.ofCommand_congr hhandles (doc.context config)
      rw [hs.sameNames.ofCommand_eq, ← hfunctions']
      exact congrArg (fun f => List.mapM f _) (funext hcommand)
    link_eq := rfl }
  refine ⟨types', functions', _, hr', ?_⟩
  have hextensions : r.extensions.values.Perm
      (link config doc' types' functions').extensions.values := by
    rw [h.values_extensions, hr'.values_extensions, hs.ofDecl_eq, hn.keptExtensions_eq,
      hn'.keptExtensions_eq]
    exact (hs.extensions_perm.filter _).map _
  rw [h.values_functions, hr'.values_functions, Function.retype_perm hextensions]
  exact hfp.map _

end Registry

end ApiStencil
