/-
ApiStencil/Proofs/Registry/Renamed.lean

Alias transparency of declared types.  Two documents that differ in the names of the
types of members and parameters resolve both or neither, and the registries agree in
everything but the texts that show these declarations (`agree_build`).

Where a variable comes from is told by its owner and its place: `memberDeclaration?` and
`paramDeclaration?` look the declaration up in the document.  So `Variable.Corresponds`
says of each variable whether its declaration was changed, and by which names its texts
differ if it was.
-/
import ApiStencil.Proofs.Document.Renamed
import ApiStencil.Proofs.OrderedMap
import ApiStencil.Proofs.Registry.Resolved

namespace ApiStencil

open Document Declaration

/-! ### Variables -/

/-- The declaration at a place in a list. -/
def Declaration.at? (raws : List (Except Declaration.Error Raw)) (index : Nat) : Option Raw :=
  raws[index]?.bind Except.toOption

/-- Whether two variables are the same, or differ in their texts because the declarations at their
place name the type differently. -/
def Variable.Corresponds (aliases : Aliases) (declared declared' : Nat → Option Raw)
    (v w : Variable) : Prop :=
  w = v ∨ ∃ a b, declared v.index = some a ∧ declared' v.index = some b ∧
    a.Renamed aliases b ∧ v.Renamed a.typeName b.typeName w

namespace Variable.Corresponds

variable {aliases : Aliases} {declared declared' : Nat → Option Raw} {v w : Variable}
  (h : Variable.Corresponds aliases declared declared' v w)

include h

theorem rest : w = { v with declaredType := w.declaredType, declaration := w.declaration } := by
  rcases h with rfl | ⟨a, b, -, -, -, h⟩
  · rfl
  · exact h.rest

theorem lengthSource?_eq : w.lengthSource? = v.lengthSource? := by
  rw [lengthSource?, lengthSource?, h.rest]

/-- Marking both of them keeps them corresponding. -/
theorem withLength : Variable.Corresponds aliases declared declared'
    { v with isLength := true } { w with isLength := true } := by
  rcases h with rfl | ⟨a, b, ha, hb, hab, h⟩
  · exact .inl rfl
  · refine .inr ⟨a, b, ha, hb, hab, ?_, h.texts⟩
    rw [h.rest]

/-- Whether a function can write through a parameter does not depend on the name of its type, which
has no asterisk. -/
theorem writesThrough_eq : Function.writesThrough w = Function.writesThrough v := by
  rcases h with rfl | ⟨a, b, -, -, hab, h⟩
  · rfl
  · obtain ⟨hT, hT'⟩ := hab.typeNames
    obtain ⟨front, inner, -, hv, hw, -⟩ := h.texts
    have hstar : ∀ {T : String}, IsTypeName T.toList →
        (front ++ T ++ inner).toList.contains '*' =
          (front.toList.contains '*' || inner.toList.contains '*') := by
      intro T hT
      have hnot : T.toList.contains '*' = false :=
        Bool.eq_false_iff.2 fun h => hT.not_mem (by decide) (List.contains_iff_mem.1 h)
      rw [String.toList_append, String.toList_append, List.contains_append, List.contains_append,
        hnot, Bool.or_false]
    have hconst : w.isConst = v.isConst := by rw [h.rest]
    rw [Function.writesThrough, Function.writesThrough, hv, hw, hstar hT, hstar hT', hconst]

end Variable.Corresponds

section

variable {ctx : Context} {raws raws' : List (Except Declaration.Error Raw)}
  {declared declared' : Nat → Option Raw} {vs ws : List Variable}

/-- Whether what is read as a declaration is the same, or names the type differently. -/
inductive Declaration.MayRename (aliases : Aliases) :
    Except Declaration.Error Raw → Except Declaration.Error Raw → Prop where
  | same (x : Except Declaration.Error Raw) : MayRename aliases x x
  | renamed {a b : Raw} (h : a.Renamed aliases b) : MayRename aliases (.ok a) (.ok b)

/-- Corresponding members are read as such declarations. -/
theorem Document.Member.Renames.mayRename {aliases : Aliases} {m m' : Document.Member}
    (h : m.Renames aliases m') : MayRename aliases (Raw.ofMember m) (Raw.ofMember m') := by
  cases h with
  | same => exact .same _
  | renamed ha hb h =>
    rw [ha, hb]
    exact .renamed h

/-- Corresponding parameters are read as such declarations. -/
theorem Document.Param.Renames.mayRename {aliases : Aliases} {p p' : Document.Param}
    (h : p.Renames aliases p') : MayRename aliases (Raw.ofParam p) (Raw.ofParam p') := by
  cases h with
  | same => exact .same _
  | renamed ha hb h =>
    rw [ha, hb]
    exact .renamed h

/-- Marking corresponding lists marks the same variables. -/
theorem Variable.forall₂_markLengths
    (h : List.Forall₂ (Variable.Corresponds ctx.aliases declared declared') vs ws) :
    List.Forall₂ (Variable.Corresponds ctx.aliases declared declared') (markLengths vs)
      (markLengths ws) := by
  have hsources : ws.filterMap lengthSource? = vs.filterMap lengthSource? :=
    filterMap_eq_of_forall₂ h fun v w hvw => hvw.lengthSource?_eq
  rw [markLengths, markLengths, hsources]
  refine List.rel_map (fun v w hvw => ?_) h
  have hname : w.name = v.name := by rw [hvw.rest]
  by_cases hm : v.name ∈ vs.filterMap lengthSource?
  · rw [if_pos hm, if_pos (hname ▸ hm)]
    exact hvw.withLength
  · rw [if_neg hm, if_neg (hname ▸ hm)]
    exact hvw

/-- The variables of declarations that may name their types differently correspond, or the
declarations fail together. -/
theorem Registry.agree_resolveVariables (owner : String)
    (h : List.Forall₂ (MayRename ctx.aliases) raws raws') :
    Agree (List.Forall₂ (Variable.Corresponds ctx.aliases (at? raws) (at? raws')))
      (Registry.resolveVariables ctx owner raws) (Registry.resolveVariables ctx owner raws') := by
  have hplaced : List.Forall₂ (fun p q => q.2 = p.2 ∧ raws[p.2]? = some p.1 ∧
      raws'[p.2]? = some q.1 ∧ MayRename ctx.aliases p.1 q.1) raws.zipIdx raws'.zipIdx := by
    have hlength := h.length_eq
    refine List.forall₂_iff_get.2 ⟨by simp [hlength], fun i hi hi' => ?_⟩
    rw [List.length_zipIdx] at hi hi'
    have hi : MayRename ctx.aliases (raws.get ⟨i, hi⟩) (raws'.get ⟨i, hi'⟩) :=
      (List.forall₂_iff_get.1 h).2 i hi hi'
    simpa using hi
  refine Agree.bind (Agree.mapM hplaced fun p _ q _ hpq => ?_)
    fun vs ws hvs => .ok (Variable.forall₂_markLengths hvs)
  obtain ⟨x, index⟩ := p
  obtain ⟨y, index'⟩ := q
  obtain ⟨hindex, hx, hy, hxy⟩ := hpq
  dsimp only at hindex hx hy hxy ⊢
  subst hindex
  refine Agree.mapError _ _ ?_
  -- the declaration at a place is the same on both sides, or names its type differently
  cases hxy with
  | same => exact .refl (fun v => .inl rfl) _
  | @renamed a b hab =>
    refine (hab.agree_resolve index').imp fun v w hvw => .inr ⟨a, b, ?_, ?_, hab, hvw.2⟩
    · rw [at?, hvw.1, hx]
      rfl
    · rw [at?, hvw.1, hy]
      rfl

end

/-! ### Entities -/

/-- Whether two structs are the same but for the texts of members that were changed. -/
structure Struct.Renamed (aliases : Aliases) (declared declared' : String → Nat → Option Raw)
    (s s' : Struct) : Prop where
  rest : s' = { s with members := s'.members }
  members : List.Forall₂ (fun m m' => m' = { m with var := m'.var } ∧
    m.var.Corresponds aliases (declared s.name) (declared' s.name) m'.var) s.members s'.members

/-- Whether two unions are the same but for the texts of choices that were changed. -/
structure Union.Renamed (aliases : Aliases) (declared declared' : String → Nat → Option Raw)
    (u u' : Union) : Prop where
  rest : u' = { u with choices := u'.choices }
  choices : List.Forall₂ (fun c c' => c' = { c with var := c'.var } ∧
    c.var.Corresponds aliases (declared u.name) (declared' u.name) c'.var) u.choices u'.choices

/-- Whether two functions are the same but for the texts of parameters that were changed. -/
structure Function.Renamed (aliases : Aliases) (declared declared' : String → Nat → Option Raw)
    (f f' : Function) : Prop where
  rest : f' = { f with parameters := f'.parameters }
  parameters : List.Forall₂ (fun p p' => p.var.Corresponds aliases (declared f.name)
    (declared' f.name) p'.var) f.parameters f'.parameters

/-- Whether two entities of types are the same but for the texts of members that were changed. -/
inductive TypeEntity.Renamed (aliases : Aliases)
    (declared declared' : String → Nat → Option Raw) : TypeEntity → TypeEntity → Prop where
  | same (e : TypeEntity) : Renamed aliases declared declared' e e
  | struct {s s' : Struct} (h : s.Renamed aliases declared declared' s') :
    Renamed aliases declared declared' (.struct s) (.struct s')
  | union {u u' : Union} (h : u.Renamed aliases declared declared' u') :
    Renamed aliases declared declared' (.union u) (.union u')

namespace Document

/-- The declaration of a member, by the name of its type and its place there. -/
def memberDeclaration? (config : Config) (doc : Document) (owner : String) (index : Nat) :
    Option Raw :=
  ((doc.namedTypes config).find? (·.name = owner)).bind fun t =>
    at? ((t.decl.apiMembers config).map Raw.ofMember) index

/-- The declaration of a parameter, by the name of its command and its place there. -/
def paramDeclaration? (config : Config) (doc : Document) (owner : String) (index : Nat) :
    Option Raw :=
  ((doc.namedCommands config).find? (·.prototype.name = owner)).bind fun d =>
    at? ((d.apiParams config).map Raw.ofParam) index

/-- A kept type is the first of its name, so its members are found. -/
theorem memberDeclaration?_of_mem {config : Config} {doc : Document} {t : NamedType}
    (h : t ∈ doc.keptTypes config) :
    doc.memberDeclaration? config t.name =
      at? ((t.decl.apiMembers config).map Raw.ofMember) := by
  funext index
  rw [memberDeclaration?, find?_of_mem_firstPer h]
  rfl

/-- A kept command is the first of its name, so its parameters are found. -/
theorem paramDeclaration?_of_mem {config : Config} {doc : Document} {d : CommandDef}
    (h : d ∈ doc.keptCommands config) :
    doc.paramDeclaration? config d.prototype.name =
      at? ((d.apiParams config).map Raw.ofParam) := by
  funext index
  rw [paramDeclaration?, find?_of_mem_firstPer h]
  rfl

end Document

/-! ### Resolving -/

section

variable {ctx : Context} {declared declared' : String → Nat → Option Raw} {aliases : Aliases}
  {placed placed' : Nat → Option Raw} {vs ws : List Variable}

/-- The members of a type correspond, or resolving them fails for both. -/
theorem TypeEntity.agree_resolveMembers (owner : String) {l l' : List Document.Member}
    (h : List.Forall₂ (Document.Member.Renames ctx.aliases) l l') :
    Agree (List.Forall₂ fun p q =>
        p.1.Corresponds ctx.aliases (at? (l.map Raw.ofMember)) (at? (l'.map Raw.ofMember)) q.1 ∧
          p.2.Renames ctx.aliases q.2)
      (resolveMembers ctx owner l) (resolveMembers ctx owner l') := by
  have hraws : List.Forall₂ (MayRename ctx.aliases) (l.map Raw.ofMember) (l'.map Raw.ofMember) :=
    List.rel_map (fun _ _ hm => hm.mayRename) h
  have hvars := Registry.agree_resolveVariables owner hraws
  exact hvars.bind fun vs ws hvs => .ok (forall₂_zipped hvs h)

/-- Corresponding types resolve to corresponding entities, or fail together. -/
theorem TypeEntity.agree_ofType (ctx : Context) {t t' : NamedType} (h : t.Renames ctx.aliases t')
    (hd : declared t.name = at? ((t.decl.apiMembers ctx.config).map Raw.ofMember))
    (hd' : declared' t.name = at? ((t'.decl.apiMembers ctx.config).map Raw.ofMember)) :
    Agree (TypeEntity.Renamed ctx.aliases declared declared') (ofType ctx t) (ofType ctx t') := by
  have hmembers := agree_resolveMembers t.name (h.decl.apiMembers ctx.config)
  rw [← hd, ← hd'] at hmembers
  rw [ofType, ofType, h.category, h.name, h.decl.codeType?_eq, h.decl.returnType_eq, h.decl.rest]
  cases t.category with
  | struct =>
    refine hmembers.bind fun l l' hl => .ok (.struct ⟨rfl, ?_⟩)
    refine List.rel_map ?_ hl
    rintro ⟨v, m⟩ ⟨w, m'⟩ ⟨hvw, hm⟩
    refine ⟨?_, hvw⟩
    cases hm <;> rfl
  | union =>
    refine hmembers.bind fun l l' hl => .ok (.union ⟨rfl, ?_⟩)
    refine List.rel_map ?_ hl
    rintro ⟨v, m⟩ ⟨w, m'⟩ ⟨hvw, hm⟩
    refine ⟨?_, hvw⟩
    cases hm <;> rfl
  -- a type without members is the same on both sides
  | _ => exact .ok (.same _)

/-- Corresponding parameters decide the same dispatch: they are of the same type in the end. -/
theorem Function.dispatchOf_of_forall₂ {config : Config} {handles : OrderedMap Handle}
    {name : String} (h : List.Forall₂ (Variable.Corresponds aliases placed placed') vs ws) :
    dispatchOf config handles name ws = dispatchOf config handles name vs := by
  cases h with
  | nil => rfl
  | cons hvw _ =>
    rw [dispatchOf, dispatchOf, List.head?_cons, List.head?_cons, hvw.rest]
    rfl

/-- Both functions can write through a parameter or none can. -/
theorem Function.any_writesThrough_of_forall₂
    (h : List.Forall₂ (Variable.Corresponds aliases placed placed') vs ws) :
    ws.any writesThrough = vs.any writesThrough := by
  induction h with
  | nil => rfl
  | cons hvw _ ih => rw [List.any_cons, List.any_cons, hvw.writesThrough_eq, ih]

/-- Corresponding commands resolve to corresponding functions, or fail together. -/
theorem Function.agree_ofCommand (ctx : Context) {handles : OrderedMap Handle} {d d' : CommandDef}
    (h : d.Renames ctx.aliases d')
    (hd : declared d.prototype.name = at? ((d.apiParams ctx.config).map Raw.ofParam))
    (hd' : declared' d.prototype.name = at? ((d'.apiParams ctx.config).map Raw.ofParam)) :
    Agree (Function.Renamed ctx.aliases declared declared') (ofCommand ctx handles d)
      (ofCommand ctx handles d') := by
  have hraws : List.Forall₂ (MayRename ctx.aliases) ((d.apiParams ctx.config).map Raw.ofParam)
      ((d'.apiParams ctx.config).map Raw.ofParam) :=
    List.rel_map (fun _ _ hp => hp.mayRename) (h.apiParams ctx.config)
  have hvars := Registry.agree_resolveVariables d.prototype.name hraws
  rw [← hd, ← hd'] at hvars
  have hprototype : d'.prototype = d.prototype := by rw [h.rest]
  rw [ofCommand, ofCommand, hprototype]
  refine hvars.bind fun vs ws hvs => .ok ⟨?_, ?_⟩
  · rw [dispatchOf_of_forall₂ hvs, any_writesThrough_of_forall₂ hvs]
  · exact List.forall₂_map_left_iff.2 (List.forall₂_map_right_iff.2 hvs)

end

/-! ### Linking -/

section

variable {aliases : Aliases} {declared declared' : String → Nat → Option Raw} {s s' : Struct}
  {f f' : Function} {types types' : List TypeEntity} {functions functions' : List Function}

theorem Struct.Renamed.refl (s : Struct) : s.Renamed aliases declared declared' s :=
  ⟨rfl, List.forall₂_same.2 fun _ _ => ⟨rfl, .inl rfl⟩⟩

theorem Union.Renamed.refl (u : Union) : u.Renamed aliases declared declared' u :=
  ⟨rfl, List.forall₂_same.2 fun _ _ => ⟨rfl, .inl rfl⟩⟩

/-- Corresponding structs name the same structure type, for values are no texts of declarations. -/
theorem Struct.Renamed.typeOption?_eq (h : s.Renamed aliases declared declared' s')
    (e : Enumeration) : s'.typeOption? e = s.typeOption? e := by
  have hvalues : s'.members.map Member.values = s.members.map Member.values :=
    map_eq_of_forall₂ h.members fun m m' hm => by rw [hm.1]
  have hmap : ∀ s : Struct, s.typeOption? e = (s.members.map Member.values).findSome? fun values =>
      (values.bind fun values => (commaParts values).head?).bind e.option? := by
    intro s
    rw [List.findSome?_map]
    rfl
  rw [hmap, hmap, hvalues]

/-- So they get the same number. -/
theorem Struct.Renamed.indexed (h : s.Renamed aliases declared declared' s')
    (enums : OrderedMap Enumeration) :
    (s.indexed enums).Renamed aliases declared declared' (s'.indexed enums) := by
  have hextends : s'.structExtends = s.structExtends := by rw [h.rest]
  have hoption : s'.typeOption? = s.typeOption? := funext h.typeOption?_eq
  unfold Struct.indexed
  rw [hextends, hoption]
  split
  · exact h
  · split
    · exact ⟨by rw [h.rest], h.members⟩
    · exact h

/-- Corresponding functions are typed alike. -/
theorem Function.Renamed.retype (h : f.Renamed aliases declared declared' f')
    (extensions : List Extension) :
    (f.retype extensions).Renamed aliases declared declared' (f'.retype extensions) := by
  have hname : f'.name = f.name := by rw [h.rest]
  unfold Function.retype
  rw [hname]
  split
  · exact ⟨by rw [h.rest], h.parameters⟩
  · exact h

/-- Collections of related entities are related. -/
theorem Registry.related_collect {α β γ δ : Type} {R : α → β → Prop} {S : γ → δ → Prop}
    {entity? : α → Option γ} {entity?' : β → Option δ} {name : γ → String} {name' : δ → String}
    {l : List α} {l' : List β} (h : List.Forall₂ R l l')
    (he : ∀ a b, R a b → Option.Rel S (entity? a) (entity?' b))
    (hn : ∀ c d, S c d → name' d = name c) :
    (collect entity? name l).Related S (collect entity?' name' l') := by
  refine OrderedMap.related_ofList (List.rel_map (fun c d hcd => ⟨hn c d hcd, hcd⟩) ?_)
  exact List.rel_filterMap (fun a b hab => he a b hab) h

theorem Registry.collect_eq {α β γ : Type} {R : α → β → Prop} {entity? : α → Option γ}
    {entity?' : β → Option γ} {name : γ → String} {l : List α} {l' : List β}
    (h : List.Forall₂ R l l') (he : ∀ a b, R a b → entity?' b = entity? a) :
    collect entity?' name l' = collect entity? name l := by
  rw [collect, collect, filterMap_eq_of_forall₂ h he]

/-- Members of corresponding structs have the same types in the end. -/
theorem SystemType.forall₂_members {a b : Option Struct}
    (h : Option.Rel (Struct.Renamed aliases declared declared') a b) :
    List.Forall₂ (fun m m' : Member => m'.var.baseType = m.var.baseType)
      ((a.map Struct.members).getD []) ((b.map Struct.members).getD []) := by
  cases h with
  | none => exact .nil
  | some h => exact h.members.imp fun m m' hm => by rw [hm.2.rest]

/-- So have the parameters of corresponding functions. -/
theorem SystemType.forall₂_parameters {a b : Option Function}
    (h : Option.Rel (Function.Renamed aliases declared declared') a b) :
    List.Forall₂ (fun p p' : Parameter => p'.var.baseType = p.var.baseType)
      ((a.map Function.parameters).getD []) ((b.map Function.parameters).getD []) := by
  cases h with
  | none => exact .nil
  | some h => exact h.parameters.imp fun p p' hp => by rw [hp.rest]

/-- The extensions use the same system types. -/
theorem SystemType.used_eq {r r' : Registry} {placed placed' : String → Nat → Option Raw}
    (haliases : r'.aliases = r.aliases) (hextensions : r'.extensions = r.extensions)
    (hexternal : r'.externalTypes = r.externalTypes)
    (hs : r.structs.Related (Struct.Renamed aliases declared declared') r'.structs)
    (hf : r.functions.Related (Function.Renamed aliases placed placed') r'.functions) :
    used r' = used r := by
  have hvars : ∀ e : Extension, List.Forall₂ (fun v w : Variable => w.baseType = v.baseType)
      (e.usedVars r) (e.usedVars r') := by
    intro e
    rw [Extension.usedVars, Extension.usedVars, haliases]
    refine List.rel_append ?_ ?_
    · refine List.forall₂_map_left_iff.2 (List.forall₂_map_right_iff.2 ?_)
      refine List.rel_flatMap (List.forall₂_same.2 fun _ _ => rfl) fun key key' hkey => ?_
      exact hkey ▸ forall₂_members (hs.get? (r.aliases.resolve key))
    · refine List.forall₂_map_left_iff.2 (List.forall₂_map_right_iff.2 ?_)
      refine List.rel_flatMap (List.forall₂_same.2 fun _ _ => rfl) fun key key' hkey => ?_
      exact hkey ▸ forall₂_parameters (hf.get? (r.aliases.resolve key))
  have hused : ∀ e : Extension,
      (e.usedVars r').filterMap (ofVariable? r'.externalTypes e.name) =
        (e.usedVars r).filterMap (ofVariable? r.externalTypes e.name) := fun e =>
    filterMap_eq_of_forall₂ (hvars e) fun v w hvw => by
      rw [ofVariable?, ofVariable?, hvw, hexternal]
  rw [used, used, hextensions]
  simp only [hused]

/-- Registries that agree in all other parts differ in functions, structs and unions only. -/
theorem Registry.eq_of_fields {r r' : Registry}
    (h : r'.enums = r.enums ∧ r'.bitmasks = r.bitmasks ∧ r'.flags = r.flags ∧
      r'.handles = r.handles ∧ r'.baseTypes = r.baseTypes ∧ r'.externalTypes = r.externalTypes ∧
      r'.functionPointers = r.functionPointers ∧ r'.extensions = r.extensions ∧
      r'.systemTypes = r.systemTypes ∧ r'.aliases = r.aliases ∧ r'.constants = r.constants ∧
      r'.extensionFunctions = r.extensionFunctions ∧ r'.extensionTypes = r.extensionTypes) :
    r' = { r with functions := r'.functions, structs := r'.structs, unions := r'.unions } := by
  obtain ⟨h₁, h₂, h₃, h₄, h₅, h₆, h₇, h₈, h₉, h₁₀, h₁₁, h₁₂, h₁₃⟩ := h
  rw [← h₁, ← h₂, ← h₃, ← h₄, ← h₅, ← h₆, ← h₇, ← h₈, ← h₉, ← h₁₀, ← h₁₁, ← h₁₂, ← h₁₃]

/-- Whether two registries, of two documents, agree in everything but the texts that show the
declarations that were changed. -/
structure Registry.Renamed (config : Config) (doc doc' : Document) (r r' : Registry) : Prop where
  rest : r' = { r with
    functions := r'.functions, structs := r'.structs, unions := r'.unions }
  structs : r.structs.Related (Struct.Renamed doc.aliases (doc.memberDeclaration? config)
    (doc'.memberDeclaration? config)) r'.structs
  unions : r.unions.Related (Union.Renamed doc.aliases (doc.memberDeclaration? config)
    (doc'.memberDeclaration? config)) r'.unions
  functions : r.functions.Related (Function.Renamed doc.aliases (doc.paramDeclaration? config)
    (doc'.paramDeclaration? config)) r'.functions

/-- Corresponding entities are linked to corresponding registries. -/
theorem Registry.renamed_link {config : Config} {doc doc' : Document} (h : doc.Renames doc')
    (ht : List.Forall₂ (TypeEntity.Renamed doc.aliases (doc.memberDeclaration? config)
      (doc'.memberDeclaration? config)) types types')
    (hf : List.Forall₂ (Function.Renamed doc.aliases (doc.paramDeclaration? config)
      (doc'.paramDeclaration? config)) functions functions') :
    Registry.Renamed config doc doc' (link config doc types functions)
      (link config doc' types' functions') := by
  -- linking reads nothing in a document that names of types can change
  have hdoc : link config doc' types' functions' = link config doc types' functions' := by
    simp only [link, h.enumerations_eq, h.keptExtensions_eq, h.aliases_eq, h.constants_eq,
      h.ofDecl_eq]
  rw [hdoc]
  have hstructs : (link config doc types functions).structs.Related
      (Struct.Renamed doc.aliases (doc.memberDeclaration? config)
        (doc'.memberDeclaration? config)) (link config doc types' functions').structs := by
    have hcollected : (collect TypeEntity.struct? Struct.name types).Related
        (Struct.Renamed doc.aliases (doc.memberDeclaration? config)
          (doc'.memberDeclaration? config)) (collect TypeEntity.struct? Struct.name types') := by
      refine related_collect ht (fun e e' he => ?_) fun s s' hs => by rw [hs.rest]
      cases he with
      | same e =>
        cases e with
        | struct s => exact .some (.refl s)
        | _ => exact .none
      | struct h => exact .some h
      | union _ => exact .none
    exact hcollected.map fun s s' hs => hs.indexed _
  have hunions : (link config doc types functions).unions.Related
      (Union.Renamed doc.aliases (doc.memberDeclaration? config)
        (doc'.memberDeclaration? config)) (link config doc types' functions').unions := by
    refine related_collect ht (fun e e' he => ?_) fun u u' hu => by rw [hu.rest]
    cases he with
    | same e =>
      cases e with
      | union u => exact .some (.refl u)
      | _ => exact .none
    | struct _ => exact .none
    | union h => exact .some h
  have hfunctions : (link config doc types functions).functions.Related
      (Function.Renamed doc.aliases (doc.paramDeclaration? config)
        (doc'.paramDeclaration? config)) (link config doc types' functions').functions := by
    refine related_collect (List.rel_map (fun f f' hf => hf.retype _) hf)
      (fun f f' hf => .some hf) fun f f' hf => ?_
    rw [hf.rest]
  refine ⟨?_, hstructs, hunions, hfunctions⟩
  have hflags : collect TypeEntity.flag? Flag.name types' =
      collect TypeEntity.flag? Flag.name types :=
    collect_eq ht fun e e' he => by cases he <;> rfl
  have hhandles : collect TypeEntity.handle? Handle.name types' =
      collect TypeEntity.handle? Handle.name types :=
    collect_eq ht fun e e' he => by cases he <;> rfl
  have hbaseTypes : collect TypeEntity.baseType? BaseType.name types' =
      collect TypeEntity.baseType? BaseType.name types :=
    collect_eq ht fun e e' he => by cases he <;> rfl
  have hexternal : collect TypeEntity.external? ExternalType.name types' =
      collect TypeEntity.external? ExternalType.name types :=
    collect_eq ht fun e e' he => by cases he <;> rfl
  have hpointers : collect TypeEntity.functionPointer? FunctionPointer.name types' =
      collect TypeEntity.functionPointer? FunctionPointer.name types :=
    collect_eq ht fun e e' he => by cases he <;> rfl
  exact eq_of_fields ⟨rfl, rfl, hflags, hhandles, hbaseTypes, hexternal, hpointers, rfl,
    SystemType.used_eq rfl rfl hexternal hstructs hfunctions, rfl, rfl, rfl, rfl⟩

/-- Resolving in three steps: types, then commands, then linking. -/
theorem Registry.build_eq_bind (config : Config) (doc : Document) :
    build config doc =
      (doc.keptTypes config).mapM (TypeEntity.ofType (doc.context config)) >>= fun types =>
        (doc.keptCommands config).mapM (Function.ofCommand (doc.context config)
          (collect TypeEntity.handle? Handle.name types)) >>= fun functions =>
            .ok (link config doc types functions) :=
  rfl

/-- Alias transparency of declared types: where declarations name their types differently, with the
same ends of the chains of aliases, the documents resolve to registries that agree in everything but
the texts that show these declarations, or both fail. -/
theorem Registry.agree_build {config : Config} {doc doc' : Document} (h : doc.Renames doc') :
    Agree (Registry.Renamed config doc doc') (build config doc) (build config doc') := by
  have htypes : Agree (List.Forall₂ (TypeEntity.Renamed doc.aliases
        (doc.memberDeclaration? config) (doc'.memberDeclaration? config)))
      ((doc.keptTypes config).mapM (TypeEntity.ofType (doc.context config)))
      ((doc'.keptTypes config).mapM (TypeEntity.ofType (doc.context config))) := by
    refine Agree.mapM h.keptTypes fun t ht t' ht' htt => ?_
    refine TypeEntity.agree_ofType (doc.context config) htt (memberDeclaration?_of_mem ht) ?_
    rw [← htt.name]
    exact memberDeclaration?_of_mem ht'
  have hfunctions : ∀ handles, Agree (List.Forall₂ (Function.Renamed doc.aliases
        (doc.paramDeclaration? config) (doc'.paramDeclaration? config)))
      ((doc.keptCommands config).mapM (Function.ofCommand (doc.context config) handles))
      ((doc'.keptCommands config).mapM (Function.ofCommand (doc.context config) handles)) := by
    intro handles
    refine Agree.mapM h.keptCommands fun d hd d' hd' hdd => ?_
    refine Function.agree_ofCommand (doc.context config) hdd (paramDeclaration?_of_mem hd) ?_
    have hprototype : d'.prototype = d.prototype := by rw [hdd.rest]
    rw [← hprototype]
    exact paramDeclaration?_of_mem hd'
  rw [build_eq_bind, build_eq_bind, h.context_eq]
  refine htypes.bind fun types types' ht => ?_
  -- commands are resolved with the handles, which have no members
  have hhandles : collect TypeEntity.handle? Handle.name types' =
      collect TypeEntity.handle? Handle.name types :=
    collect_eq ht fun e e' he => by cases he <;> rfl
  rw [hhandles]
  exact (hfunctions _).bind fun functions functions' hf => .ok (renamed_link h ht hf)

end

/-! ### An alias in two places -/

/-- A struct that has an alias, and a struct and a command that use it by the name `type`. -/
def usingThing (type : String) : Document :=
  [.types [
      ⟨some "VkThing", none, none, none, some "struct", none, none, none, .members []⟩,
      ⟨some "VkThingKHR", some "VkThing", none, none, some "struct", none, none, none, .empty⟩,
      ⟨some "VkBox", none, none, none, some "struct", none, none, none,
        .members [⟨none, none, none, none, none, type ++ " thing[2]",
          [.type type, .name "thing"]⟩]⟩],
    .commands [.definition ⟨⟨"vkUse", some "void", "void vkUse"⟩,
      [⟨none, none, ⟨"pThing", some type, "const " ++ type ++ "* pThing"⟩⟩], none⟩]]

/-- The code of the member around the name `type`. -/
def thingMember : Frame where
  before := []
  between := " ".toList
  name := "thing".toList
  after := "[2]".toList
  before_end := nofun
  rest_start := by
    rintro c ⟨⟩
    rfl
  name_end := by
    rintro c ⟨⟩
    rfl

/-- The code of the parameter around the name `type`. -/
def thingParam : Frame where
  before := "const ".toList
  between := "* ".toList
  name := "pThing".toList
  after := []
  before_end := by
    rintro c ⟨⟩
    rfl
  rest_start := by
    rintro c ⟨⟩
    rfl
  name_end := by
    rintro c ⟨⟩
    rfl

/-- The declared types of the members and the parameters of the resolved document. -/
def declaredTypes (doc : Document) : Option (List String × List String) :=
  (Registry.build Config.default doc).toOption.map fun r =>
    (r.structs.values.flatMap fun s => s.members.map (·.var.declaredType),
      r.functions.values.flatMap fun f => f.parameters.map (·.var.declaredType))

/-- The declared types show the name that is written, and all else is the same. -/
theorem Registry.agree_build_usingThing :
    (usingThing "VkThing").Renames (usingThing "VkThingKHR") ∧
      declaredTypes (usingThing "VkThing") = some (["VkThing"], ["const VkThing*"]) ∧
      declaredTypes (usingThing "VkThingKHR") = some (["VkThingKHR"], ["const VkThingKHR*"]) ∧
      Agree (Registry.Renamed Config.default (usingThing "VkThing") (usingThing "VkThingKHR"))
        (build Config.default (usingThing "VkThing"))
        (build Config.default (usingThing "VkThingKHR")) := by
  have hthing : IsTypeName "VkThing".toList :=
    ⟨by decide, List.all_eq_true.1 rfl, by decide⟩
  have hthingKHR : IsTypeName "VkThingKHR".toList :=
    ⟨by decide, List.all_eq_true.1 rfl, by decide⟩
  have hsame : (usingThing "VkThing").aliases.SameEnd "VkThing" "VkThingKHR" := by
    have hlast : (usingThing "VkThing").aliases.Leads 0 "VkThing" "VkThing" :=
      .last fun target ht => by cases ht
    exact ⟨"VkThing", ⟨0, hlast⟩, ⟨1, .next rfl (by decide) hlast⟩⟩
  have hrenames : (usingThing "VkThing").Renames (usingThing "VkThingKHR") := by
    refine .cons (.types (.cons (.same _) (.cons (.same _) (.cons (.members rfl
      (.cons (.renamed rfl rfl ?_) .nil)) .nil)))) (.cons (.commands (.cons (.definition (.params
      (.cons (.renamed rfl rfl ?_) .nil))) .nil)) .nil)
    · exact ⟨rfl, ⟨thingMember, ⟨rfl, rfl, rfl, hthing⟩, ⟨rfl, rfl, rfl, hthingKHR⟩⟩, hsame⟩
    · exact ⟨rfl, ⟨thingParam, ⟨rfl, rfl, rfl, hthing⟩, ⟨rfl, rfl, rfl, hthingKHR⟩⟩, hsame⟩
  exact ⟨hrenames, by decide +kernel, by decide +kernel, agree_build hrenames⟩

end ApiStencil
