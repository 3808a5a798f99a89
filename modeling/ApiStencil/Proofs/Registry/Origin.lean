/-
ApiStencil/Proofs/Registry/Origin.lean

Where the entities of a resolved registry come from.  A function comes from a kept
command (`Resolves.exists_command`) and an entity of a type from a kept type
(`Resolves.exists_type`), whose category says what sort of entity it is
(`TypeEntity.category_of_ofType`).  What the type resolves to is then said once for
each sort that later proofs ask about.
-/
import ApiStencil.Proofs.Registry.Unique

namespace ApiStencil

open Document

/-! ### Lists of names -/

/-- What stands in front of the first comma of a text, or all of it. -/
def Document.beforeComma (s : String) : String :=
  String.ofList (s.toList.takeWhile (· ≠ ','))

theorem Document.head?_commaParts (s : String) : (commaParts s).head? = some (beforeComma s) := by
  have hsplit : ∀ l : List Char, (l.splitOn ',').head? = some (l.takeWhile (· ≠ ',')) := by
    intro l
    induction l with
    | nil => rfl
    | cons c r ih =>
      rw [List.splitOn_eq_splitOnP] at ih ⊢
      rw [List.splitOnP_cons_eq_if_modifyHead, List.takeWhile_cons]
      by_cases hc : c = ','
      · simp [hc]
      · simp [hc, ih]
  rw [commaParts, List.head?_map, hsplit]
  rfl

theorem Document.bind_head?_commaParts (s? : Option String) :
    (s?.bind fun s => (commaParts s).head?) = s?.map beforeComma := by
  cases s? with
  | none => rfl
  | some s => exact head?_commaParts s

/-! ### What a type resolves to -/

namespace TypeEntity

/-- The category of the types that resolve to such an entity. -/
def category : TypeEntity → TypeCategory
  | .baseType _ => .baseType
  | .flag _ => .bitmask
  | .handle _ => .handle
  | .functionPointer _ => .functionPointer
  | .struct _ => .struct
  | .union _ => .union
  | .external _ => .external

variable {ctx : Declaration.Context} {t : NamedType}

/-- An entity is of the category of its type. -/
theorem category_of_ofType {e : TypeEntity} (h : ofType ctx t = .ok e) :
    t.category = e.category := by
  rw [ofType] at h
  cases hc : t.category with
  | struct =>
    rw [hc] at h
    obtain ⟨members, -, h⟩ := bind_eq_ok_iff.1 h
    cases h
    rfl
  | union =>
    rw [hc] at h
    obtain ⟨members, -, h⟩ := bind_eq_ok_iff.1 h
    cases h
    rfl
  -- an entity without members does not depend on other declarations
  | _ =>
    rw [hc] at h
    cases h
    rfl

/-- Of several parents that are listed, the first counts. -/
theorem eq_of_ofType_handle {x : Handle} (h : ofType ctx t = .ok (.handle x)) :
    x = ⟨t.name, t.decl.parent.map beforeComma,
      t.decl.codeType? = some "VK_DEFINE_HANDLE"⟩ := by
  have hc := category_of_ofType h
  rw [ofType, hc] at h
  cases h
  rw [bind_head?_commaParts]

/-- A struct has its members for the API, in order, with what they select beside. -/
theorem eq_of_ofType_struct {s : Struct} (h : ofType ctx t = .ok (.struct s)) :
    ∃ vars, Registry.resolveVariables ctx t.name
        ((t.decl.apiMembers ctx.config).map Declaration.Raw.ofMember) = .ok vars ∧
      s = ⟨t.name, (vars.zip (t.decl.apiMembers ctx.config)).map fun (v, m) =>
        ⟨v, m.selector, m.values⟩, t.decl.structExtends.getD "", -1⟩ := by
  have hc := category_of_ofType h
  rw [ofType, hc] at h
  obtain ⟨members, hmembers, h⟩ := bind_eq_ok_iff.1 h
  obtain ⟨vars, hvars, hmembers⟩ := bind_eq_ok_iff.1 hmembers
  cases hmembers
  cases h
  exact ⟨vars, hvars, rfl⟩

/-- A union has its members for the API as choices, with what selects them beside. -/
theorem eq_of_ofType_union {u : Union} (h : ofType ctx t = .ok (.union u)) :
    ∃ vars, Registry.resolveVariables ctx t.name
        ((t.decl.apiMembers ctx.config).map Declaration.Raw.ofMember) = .ok vars ∧
      u = ⟨t.name, (vars.zip (t.decl.apiMembers ctx.config)).map fun (v, m) =>
        ⟨v, (m.selection.map commaParts).getD []⟩⟩ := by
  have hc := category_of_ofType h
  rw [ofType, hc] at h
  obtain ⟨members, hmembers, h⟩ := bind_eq_ok_iff.1 h
  obtain ⟨vars, hvars, hmembers⟩ := bind_eq_ok_iff.1 hmembers
  cases hmembers
  cases h
  exact ⟨vars, hvars, rfl⟩

end TypeEntity

/-! ### What a command resolves to -/

/-- A function has the parameters of its command for the API, and is dispatched by its name and
these. -/
theorem Function.eq_of_ofCommand {ctx : Declaration.Context} {handles : OrderedMap Handle}
    {d : CommandDef} {f : Function} (h : ofCommand ctx handles d = .ok f) :
    ∃ vars, Registry.resolveVariables ctx d.prototype.name
        ((d.apiParams ctx.config).map Declaration.Raw.ofParam) = .ok vars ∧
      f = {
        name := d.prototype.name
        returnType := d.prototype.typeName.getD "void"
        parameters := vars.map Parameter.mk
        dispatch := dispatchOf ctx.config handles d.prototype.name vars
        type := dispatchOf ctx.config handles d.prototype.name vars
        stateTracking := ctx.config.stateTracking.get? d.prototype.name
        safeToPrint := !vars.any writesThrough } := by
  obtain ⟨vars, hvars, h⟩ := bind_eq_ok_iff.1 h
  cases h
  exact ⟨vars, hvars, rfl⟩

/-- The extensions change the type of a function at most. -/
theorem Function.retype_eq (extensions : List Extension) (f : Function) :
    f.retype extensions = { f with type := (f.retype extensions).type } := by
  unfold retype
  split <;> rfl

theorem Function.parameters_retype (extensions : List Extension) (f : Function) :
    (f.retype extensions).parameters = f.parameters := by
  rw [retype_eq]

/-! ### The numbers of structs -/

/-- The enumerations number a struct at most. -/
theorem Struct.members_indexed (enums : OrderedMap Enumeration) (s : Struct) :
    (s.indexed enums).members = s.members := by
  unfold indexed
  split
  · rfl
  · split <;> rfl

/-! ### The entities of a registry -/

namespace Registry.Resolves

variable {config : Config} {doc : Document} {types : List TypeEntity} {functions : List Function}
  {r : Registry} (h : Resolves config doc types functions r)

include h

theorem values_functions :
    r.functions.values = functions.map (Function.retype r.extensions.values) := by
  have hn := h.nodup_functionNames
  rw [← names_retype r.extensions.values] at hn
  rw [h.functions_eq, values_collect hn, List.filterMap_some]

/-- A function comes from a command, and is typed by the extensions. -/
theorem exists_command {f : Function} (hf : f ∈ r.functions.values) :
    ∃ d ∈ doc.keptCommands config, ∃ f₀,
      Function.ofCommand (doc.context config) r.handles d = .ok f₀ ∧
        f = f₀.retype r.extensions.values := by
  rw [h.values_functions] at hf
  obtain ⟨f₀, hf₀, rfl⟩ := List.mem_map.1 hf
  obtain ⟨d, hd, hcommand⟩ := exists_of_mapM h.functions_ok hf₀
  exact ⟨d, hd, f₀, hcommand, rfl⟩

/-- An entity of a type comes from a type. -/
theorem exists_type {ε : Type} {entity : ε → TypeEntity} {entity? : TypeEntity → Option ε}
    {name : ε → String} (hs : Selects entity entity? name) {x : ε}
    (hx : x ∈ (collect entity? name types).values) :
    ∃ t ∈ doc.keptTypes config,
      TypeEntity.ofType (doc.context config) t = .ok (entity x) := by
  rw [values_collect (h.nodup_typeNames.sublist (hs.sublist_names types))] at hx
  obtain ⟨e, he, hx⟩ := List.mem_filterMap.1 hx
  rw [← hs.eq_of_some e x hx]
  exact exists_of_mapM h.types_ok he

/-- A struct comes from a type, and is numbered by the enumerations. -/
theorem exists_struct {s : Struct} (hs : s ∈ r.structs.values) :
    ∃ t ∈ doc.keptTypes config, ∃ s₀,
      TypeEntity.ofType (doc.context config) t = .ok (.struct s₀) ∧ s = s₀.indexed r.enums := by
  rw [h.structs_eq, OrderedMap.values_map] at hs
  obtain ⟨s₀, hs₀, rfl⟩ := List.mem_map.1 hs
  obtain ⟨t, ht, hstruct⟩ := h.exists_type selects_struct hs₀
  exact ⟨t, ht, s₀, hstruct, rfl⟩

end Registry.Resolves

end ApiStencil
