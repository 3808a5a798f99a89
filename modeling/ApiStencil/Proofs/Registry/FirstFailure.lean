/-
ApiStencil/Proofs/Registry/FirstFailure.lean

When a document cannot be resolved, and with which error.  What is resolved are the members of the
kept structs and unions and the parameters of the kept commands, as far as they are of the API
(`DeclaredAt`).  Each has a place in the document, the members before the parameters.

Main statement: a document resolves exactly if all these declarations do, and otherwise its error
is that of the one at the smallest place that fails, with the name of its owner
(`build_fails_iff`).  So nothing that is left out can make a document fail.

Resolving stops at the first error, so the error of `build` is the first result of a search through
the declarations (`errorOf?_build`).  They are in the order of their places
(`inOrder_ownedDeclarations`), and thus what is found is at the smallest place.
-/
import ApiStencil.Proofs.Declaration.Resolve
import ApiStencil.Proofs.Registry.Kept
import ApiStencil.Registry.Build

namespace ApiStencil

open Document

/-! ### Failing declarations -/

namespace Declaration

/-- Whether a declaration fails with an error, wherever it stands in its list. -/
def Fails (ctx : Context) (declared : Except Error Raw) (e : Error) : Prop :=
  ∀ index, declared.bind (Raw.resolve ctx index) = .error e

/-- Whether a declaration becomes a variable, wherever it stands in its list. -/
def Resolves (ctx : Context) (declared : Except Error Raw) : Prop :=
  ∀ index, ∃ v, declared.bind (Raw.resolve ctx index) = .ok v

/-- The error of a declaration that fails. -/
def failure? (ctx : Context) (declared : Except Error Raw) : Option Error :=
  errorOf? (declared.bind (Raw.resolve ctx 0))

variable {ctx : Context} {declared : Except Error Raw}

/-- The error of a declaration does not depend on its index. -/
theorem errorOf?_resolve (ctx : Context) (declared : Except Error Raw) (index : Nat) :
    errorOf? (declared.bind (Raw.resolve ctx index)) = failure? ctx declared := by
  cases declared with
  | error e => rfl
  | ok raw =>
    -- the index goes into the variable, and into no error
    refine Option.ext fun e => ?_
    rw [failure?, errorOf?_eq_some_iff, errorOf?_eq_some_iff]
    exact Raw.resolve_eq_error_iff.trans Raw.resolve_eq_error_iff.symm

theorem failure?_eq_some_iff {e : Error} :
    failure? ctx declared = some e ↔ Fails ctx declared e := by
  refine ⟨fun h index => ?_, fun h => errorOf?_eq_some_iff.2 (h 0)⟩
  rw [← errorOf?_eq_some_iff, errorOf?_resolve, h]

theorem failure?_eq_none_iff : failure? ctx declared = none ↔ Resolves ctx declared := by
  refine ⟨fun h index => ?_, fun h => errorOf?_eq_none_iff.2 (h 0)⟩
  rw [← errorOf?_eq_none_iff, errorOf?_resolve, h]

end Declaration

/-! ### Declarations with their owners -/

namespace Document

/-- A declaration together with the name of the type or command it belongs to. -/
abbrev Owned : Type :=
  String × Except Declaration.Error Declaration.Raw

/-- What is declared for the API at a place of the document. -/
inductive DeclaredAt (config : Config) (doc : Document) : List Nat → Owned → Prop
  | member {i k : Nat} {t : TypeDecl} {name : String} {m : Member}
      (hkept : KeepsType config doc i t name)
      (hcategory : t.category = some "struct" ∨ t.category = some "union")
      (hmember : t.members[k]? = some m) (hapi : config.containsApi m.api = true) :
      DeclaredAt config doc [0, i, k] (name, Declaration.Raw.ofMember m)
  | parameter {i k : Nat} {d : CommandDef} {p : Param} (hkept : KeepsCommand config doc i d)
      (hparameter : d.params[k]? = some p) (hapi : config.containsApi p.api = true) :
      DeclaredAt config doc [1, i, k] (d.prototype.name, Declaration.Raw.ofParam p)

section

variable {α : Type} {owner : String} {raw : α → Except Declaration.Error Declaration.Raw}
  {isForApi : α → Bool} {l : List α}

variable (owner raw isForApi l) in
/-- The declarations of an owner that are for the API, at their places among all of them. -/
def owned : List (List Nat × Owned) :=
  Place.inIndexed (fun a => Place.alone (owner, raw a)) (Place.chosen (Option.guard isForApi) l)

/-- The declarations of one owner are in the order of their places. -/
theorem inOrder_owned : Place.InOrder (owned owner raw isForApi l) :=
  Place.inOrder_inIndexed Place.pairwise_chosen fun _ _ => Place.inOrder_alone _

/-- They are those at some index that are for the API. -/
theorem mem_owned_iff {place : List Nat} {x : Owned} : (place, x) ∈ owned owner raw isForApi l ↔
    ∃ k a, place = [k] ∧ l[k]? = some a ∧ isForApi a = true ∧ x = (owner, raw a) := by
  simp only [owned, Place.mem_inIndexed_iff, Place.mem_chosen_iff, Place.mem_alone_iff,
    Option.guard_eq_some_iff]
  constructor
  · rintro ⟨k, a, _, rfl, ⟨_, ha, rfl, hapi⟩, rfl, rfl⟩
    exact ⟨k, _, rfl, ha, hapi, rfl⟩
  · rintro ⟨k, a, rfl, ha, hapi, rfl⟩
    exact ⟨k, a, [], rfl, ⟨a, ha, rfl, hapi⟩, rfl, rfl⟩

theorem map_snd_owned :
    (owned owner raw isForApi l).map Prod.snd =
      (l.filter isForApi).map fun a => (owner, raw a) := by
  rw [owned, Place.map_snd_inIndexed, Place.map_snd_chosen, List.filterMap_eq_filter]
  exact List.map_eq_flatMap.symm

end

variable (config : Config) (doc : Document)

/-- The members of a struct or union with their owner. -/
def NamedType.ownedMembers (n : NamedType) : List (List Nat × Owned) :=
  if n.category = .struct ∨ n.category = .union then
    owned n.name Declaration.Raw.ofMember (fun m => config.containsApi m.api) n.decl.members
  else []

/-- The parameters of a command with their owner. -/
def CommandDef.ownedParams (d : CommandDef) : List (List Nat × Owned) :=
  owned d.prototype.name Declaration.Raw.ofParam (fun p => config.containsApi p.api) d.params

/-- The declarations that are resolved for a document, at their places. -/
def ownedDeclarations : List (List Nat × Owned) :=
  Place.inParts id
    [Place.inIndexed (NamedType.ownedMembers config) (keptTypesAt config doc),
      Place.inIndexed (CommandDef.ownedParams config) (keptCommandsAt config doc)]

/-- All members come before all parameters, and each in the order of the document. -/
theorem inOrder_ownedDeclarations : Place.InOrder (ownedDeclarations config doc) := by
  refine Place.inOrder_inParts (List.forall_mem_cons.2 ⟨?_, List.forall_mem_singleton.2 ?_⟩)
  · refine Place.inOrder_inIndexed (pairwise_keptTypesAt config doc) fun x _ => ?_
    unfold NamedType.ownedMembers
    split
    · exact inOrder_owned
    · exact .nil
  · exact Place.inOrder_inIndexed (pairwise_keptCommandsAt config doc) fun _ _ => inOrder_owned

variable {config doc}

/-- The search goes through just the declarations for the API of what is kept. -/
theorem mem_ownedDeclarations_iff {place : List Nat} {x : Owned} :
    (place, x) ∈ ownedDeclarations config doc ↔ DeclaredAt config doc place x := by
  simp only [ownedDeclarations, Place.mem_inParts_iff]
  constructor
  · rintro ⟨side, part, rest, rfl, hpart, hrest⟩
    -- the first part holds the members, the second one the parameters
    match side, hpart with
    | 0, hpart =>
      cases hpart
      obtain ⟨i, n, rest, rfl, hn, hx⟩ := Place.mem_inIndexed_iff.1 hrest
      obtain ⟨hcategory, hkept⟩ := mem_keptTypesAt_iff.1 hn
      unfold NamedType.ownedMembers at hx
      split at hx
      · next hstruct =>
        obtain ⟨k, m, rfl, hm, hapi, rfl⟩ := mem_owned_iff.1 hx
        refine .member hkept ?_ hm hapi
        rw [← TypeDecl.category?_eq_struct_iff, ← TypeDecl.category?_eq_union_iff, hcategory,
          Option.some.injEq, Option.some.injEq]
        exact hstruct
      · cases hx
    | 1, hpart =>
      cases hpart
      obtain ⟨i, d, rest, rfl, hd, hx⟩ := Place.mem_inIndexed_iff.1 hrest
      obtain ⟨k, p, rfl, hp, hapi, rfl⟩ := mem_owned_iff.1 hx
      exact .parameter (mem_keptCommandsAt_iff.1 hd) hp hapi
  · intro h
    cases h with
    | @member i k t name m hkept hstruct hm hapi =>
      obtain ⟨category, hcategory, hn⟩ := hkept.exists_mem
      rw [← TypeDecl.category?_eq_struct_iff, ← TypeDecl.category?_eq_union_iff, hcategory,
        Option.some.injEq, Option.some.injEq] at hstruct
      refine ⟨0, _, [i, k], rfl, rfl, Place.mem_inIndexed_iff.2 ⟨i, _, [k], rfl, hn, ?_⟩⟩
      rw [NamedType.ownedMembers, if_pos hstruct]
      exact mem_owned_iff.2 ⟨k, m, rfl, hm, hapi, rfl⟩
    | @parameter i k d p hkept hp hapi =>
      exact ⟨1, _, [i, k], rfl, rfl, Place.mem_inIndexed_iff.2 ⟨i, d, [k], rfl,
        mem_keptCommandsAt_iff.2 hkept, mem_owned_iff.2 ⟨k, p, rfl, hp, hapi, rfl⟩⟩⟩

end Document

/-! ### The error of a document -/

/-- What is found first in a list of lists is found first in one of them. -/
theorem findSome?_flatMap {α β γ : Type} (f : β → Option γ) (g : α → List β) (l : List α) :
    (l.flatMap g).findSome? f = l.findSome? fun a => (g a).findSome? f := by
  induction l with
  | nil => rfl
  | cons a r ih =>
    rw [List.flatMap_cons, List.findSome?_append, ih, List.findSome?_cons]
    cases (g a).findSome? f <;> rfl

namespace Registry

/-- The error of a declaration that fails, with the name of its owner. -/
def failure? (ctx : Declaration.Context) (x : Owned) : Option Error :=
  (Declaration.failure? ctx x.2).map (Error.declaration x.1)

/-- A list of declarations fails with the first error among them and the name of their owner. -/
theorem errorOf?_resolveVariables (ctx : Declaration.Context) (owner : String)
    (raws : List (Except Declaration.Error Declaration.Raw)) :
    errorOf? (resolveVariables ctx owner raws) =
      raws.findSome? fun raw => failure? ctx (owner, raw) := by
  have hindex : (fun x : Except Declaration.Error Declaration.Raw × Nat =>
      errorOf? ((x.1.bind (Declaration.Raw.resolve ctx x.2)).mapError (Error.declaration owner))) =
        (fun raw => failure? ctx (owner, raw)) ∘ Prod.fst := by
    funext x
    rw [errorOf?_mapError, Declaration.errorOf?_resolve]
    rfl
  refine (errorOf?_bind_ok _ _).trans ?_
  rw [errorOf?_mapM]
  exact (congrArg (List.findSome? · raws.zipIdx) hindex).trans
    (by rw [← List.findSome?_map, List.zipIdx_map_fst])

/-- A type fails with the first error of its members; only structs and unions have any. -/
theorem errorOf?_ofType (ctx : Declaration.Context) (n : NamedType) :
    errorOf? (TypeEntity.ofType ctx n) =
      ((n.ownedMembers ctx.config).map Prod.snd).findSome? (failure? ctx) := by
  have hmembers : errorOf? (TypeEntity.resolveMembers ctx n.name (n.decl.apiMembers ctx.config)) =
      ((owned n.name Declaration.Raw.ofMember (fun m => ctx.config.containsApi m.api)
        n.decl.members).map Prod.snd).findSome? (failure? ctx) := by
    refine (errorOf?_bind_ok _ _).trans ?_
    rw [errorOf?_resolveVariables, map_snd_owned, List.findSome?_map, List.findSome?_map]
    rfl
  rw [TypeEntity.ofType, NamedType.ownedMembers]
  cases n.category with
  | struct =>
    rw [if_pos (.inl rfl), ← hmembers]
    exact errorOf?_bind_ok _ _
  | union =>
    rw [if_pos (.inr rfl), ← hmembers]
    exact errorOf?_bind_ok _ _
  | _ => rfl

/-- A command fails with the first error of its parameters. The handles are not asked for it. -/
theorem errorOf?_ofCommand (ctx : Declaration.Context) (handles : OrderedMap Handle)
    (d : CommandDef) : errorOf? (Function.ofCommand ctx handles d) =
      ((d.ownedParams ctx.config).map Prod.snd).findSome? (failure? ctx) := by
  refine (errorOf?_bind_ok _ _).trans ?_
  rw [errorOf?_resolveVariables, CommandDef.ownedParams, map_snd_owned, List.findSome?_map,
    List.findSome?_map]
  rfl

/-- The error of a document is that of the first declaration that fails. -/
theorem errorOf?_build (config : Config) (doc : Document) : errorOf? (build config doc) =
    (ownedDeclarations config doc).findSome? fun x => failure? (doc.context config) x.2 := by
  have hlist : (ownedDeclarations config doc).map Prod.snd =
      (doc.keptTypes config).flatMap (fun n => (n.ownedMembers config).map Prod.snd) ++
        (doc.keptCommands config).flatMap fun d => (d.ownedParams config).map Prod.snd := by
    rw [ownedDeclarations, Place.map_snd_inParts, List.flatMap_cons, List.flatMap_singleton]
    simp only [id, Place.map_snd_inIndexed, map_snd_keptTypesAt, map_snd_keptCommandsAt]
  -- which handles the types declare does not decide whether a command fails
  have hcommands (handles : OrderedMap Handle) (types : List TypeEntity) : errorOf? (do
      let functions ← (doc.keptCommands config).mapM
        (Function.ofCommand (doc.context config) handles)
      return link config doc types functions) = ((doc.keptCommands config).flatMap fun d =>
        (d.ownedParams config).map Prod.snd).findSome? (failure? (doc.context config)) := by
    refine (errorOf?_bind_ok _ _).trans ?_
    rw [errorOf?_mapM, findSome?_flatMap]
    simp only [errorOf?_ofCommand]
    rfl
  refine (errorOf?_bind (fun types => hcommands _ types) _).trans ?_
  rw [errorOf?_mapM, ← Function.comp_def (failure? _), ← List.findSome?_map, hlist,
    List.findSome?_append, findSome?_flatMap, findSome?_flatMap]
  simp only [errorOf?_ofType]
  rfl

/-- A document resolves exactly if the declarations of all that is kept do.  Otherwise its error is
that of the declaration at the smallest place that fails, with the name of its owner. -/
theorem build_fails_iff (config : Config) (doc : Document) :
    ((∃ r, build config doc = .ok r) ↔ ∀ place owner declared,
      DeclaredAt config doc place (owner, declared) →
        Declaration.Resolves (doc.context config) declared) ∧
    ∀ e, build config doc = .error e ↔ ∃ place owner declared cause,
      DeclaredAt config doc place (owner, declared) ∧
        Declaration.Fails (doc.context config) declared cause ∧ e = .declaration owner cause ∧
          ∀ place' owner' declared', DeclaredAt config doc place' (owner', declared') →
            place' < place → Declaration.Resolves (doc.context config) declared' := by
  have hnone (x : Owned) : failure? (doc.context config) x = none ↔
      Declaration.Resolves (doc.context config) x.2 := by
    rw [failure?, Option.map_eq_none_iff, Declaration.failure?_eq_none_iff]
  constructor
  · rw [← errorOf?_eq_none_iff, errorOf?_build, List.findSome?_eq_none_iff]
    simp only [Prod.forall, mem_ownedDeclarations_iff, hnone]
  · intro e
    rw [← errorOf?_eq_some_iff, errorOf?_build,
      -- in a list in the order of places, what is found first is at the smallest one
      Place.findSome?_eq_some_iff_of_ranked (inOrder_ownedDeclarations config doc)]
    simp only [Prod.exists, Prod.forall, mem_ownedDeclarations_iff, hnone]
    constructor
    · rintro ⟨place, owner, declared, hdeclared, hfailure, hfirst⟩
      obtain ⟨cause, hcause, rfl⟩ := Option.map_eq_some_iff.1 hfailure
      exact ⟨place, owner, declared, cause, hdeclared,
        Declaration.failure?_eq_some_iff.1 hcause, rfl, hfirst⟩
    · rintro ⟨place, owner, declared, cause, hdeclared, hcause, rfl, hfirst⟩
      exact ⟨place, owner, declared, hdeclared, Option.map_eq_some_iff.2
        ⟨cause, Declaration.failure?_eq_some_iff.2 hcause, rfl⟩, hfirst⟩

end Registry

end ApiStencil
