/-
ApiStencil/Proofs/Registry/Regular.lean

What is known about the values in a resolved registry.  Numbers stay in range if those
of the document do, and names, return types and code are free of certain quotes if
they are so in the document and in the configuration (`regular_build`).
-/
import ApiStencil.Proofs.Registry.Options
import ApiStencil.Proofs.Registry.Unique

namespace ApiStencil

open Document Text

/-- Whether the numbers that are read in a document have the sizes that they are kept in: 32 bits
for the widths of bitmasks, and 64 bits with a sign for the values of options. -/
structure Document.InRange (config : Config) (doc : Document) : Prop where
  widths : ∀ g ∈ doc.enumGroups, ∀ width, g.bitWidth = some width → width < UInt32.size
  own : ∀ g ∈ doc.keptGroups config, ∀ o ∈ g.decl.options config, fitsInt64 o.value = true
  contributed : ∀ c ∈ doc.contributedOptions config, fitsInt64 c.2.value = true

/-- Whether no name and no return type of a command holds a single quote. -/
def Document.Unquoted (doc : Document) : Prop :=
  ∀ d ∈ doc.definitions, '\'' ∉ d.prototype.name.toList ∧
    ∀ type, d.prototype.typeName = some type → '\'' ∉ type.toList

instance (doc : Document) : Decidable doc.Unquoted :=
  inferInstanceAs (Decidable (∀ _ ∈ _, _ ∧ _))

namespace Registry

/-- Whether the numbers of a registry are in range and its texts can be quoted. -/
structure Regular (r : Registry) : Prop where
  names : ∀ f ∈ r.functions.values, '\'' ∉ f.name.toList ∧ '\'' ∉ f.returnType.toList
  tracking : ∀ f ∈ r.functions.values, ∀ code, f.stateTracking = some code → '"' ∉ code.toList
  widths : ∀ e ∈ r.bitmasks.values, e.bitWidth < UInt32.size
  indices : ∀ s ∈ r.structs.values, fitsInt64 s.typeIndex = true

/-- An entity of a collection comes from the list that was collected. -/
theorem mem_of_mem_collect {α β : Type} {entity? : α → Option β} {name : β → String} {l : List α}
    {b : β} (h : b ∈ (collect entity? name l).values) : ∃ a ∈ l, entity? a = some b := by
  obtain ⟨key, hkey⟩ := OrderedMap.exists_get?_of_mem_values _ h
  refine OrderedMap.forall_get?_ofList (P := fun _ b => ∃ a ∈ l, entity? a = some b) ?_ key b hkey
  intro e he
  obtain ⟨b, hb, rfl⟩ := List.mem_map.1 he
  exact List.mem_filterMap.1 hb

end Registry

/-! ### Functions -/

theorem Function.returnType_retype (extensions : List Extension) (f : Function) :
    (f.retype extensions).returnType = f.returnType ∧
      (f.retype extensions).stateTracking = f.stateTracking := by
  unfold Function.retype
  split <;> exact ⟨rfl, rfl⟩

/-! ### Enumerations -/

/-- Options do not change the width of a bitmask. -/
theorem Enumeration.bitWidth_foldl_push (l : List EnumOption) (e : Enumeration) :
    (l.foldl push e).bitWidth = e.bitWidth := by
  induction l generalizing e with
  | nil => rfl
  | cons o r ih =>
    rw [List.foldl_cons, ih, push]
    split <;> rfl

theorem Document.bitWidth_enumerationOf (config : Config) (doc : Document) (g : NamedGroup) :
    (doc.enumerationOf config g).bitWidth = g.decl.bitWidth.getD 32 := by
  rw [enumerationOf, Enumeration.extend_eq_foldl_push, Enumeration.bitWidth_foldl_push,
    Enumeration.ofGroup, Enumeration.bitWidth_foldl_push]

/-- A kept group is one of the document. -/
theorem Document.mem_enumGroups_of_mem_keptGroups {config : Config} {doc : Document}
    {g : NamedGroup} (h : g ∈ doc.keptGroups config) : g.decl ∈ doc.enumGroups := by
  obtain ⟨decl, hdecl, h⟩ := List.mem_filterMap.1 ((firstPer_sublist _ _ _).subset h)
  split at h
  · cases h
    exact hdecl
  · cases h

/-- The options of an enumeration are the group's own or contributed, so their values are in
range. -/
theorem Document.InRange.value {config : Config} {doc : Document} (h : doc.InRange config)
    {g : NamedGroup} (hg : g ∈ doc.keptGroups config) {o : EnumOption}
    (ho : o ∈ (doc.enumerationOf config g).options) : fitsInt64 o.value = true := by
  rw [options_enumerationOf] at ho
  rcases List.mem_append.1 ((firstPer_sublist _ _ _).subset ho) with ho | ho
  · exact h.own g hg o ho
  · obtain ⟨c, hc, rfl⟩ := List.mem_map.1 ho
    exact h.contributed c (List.mem_filter.1 hc).1

/-! ### Structs -/

/-- The number of a struct is what it was, or the value of an option. -/
theorem Struct.typeIndex_indexed (enums : OrderedMap Enumeration) (s : Struct) :
    (s.indexed enums).typeIndex = s.typeIndex ∨
      ∃ e ∈ enums.values, ∃ o ∈ e.options, (s.indexed enums).typeIndex = o.value := by
  unfold Struct.indexed
  split
  · exact .inl rfl
  · split
    · next o ho =>
      obtain ⟨e, he, ho⟩ := Option.bind_eq_some_iff.1 ho
      obtain ⟨m, -, ho⟩ := List.exists_of_findSome?_eq_some ho
      obtain ⟨value, -, ho⟩ := Option.bind_eq_some_iff.1 ho
      refine .inr ⟨e, OrderedMap.mem_values_of_get? _ he, o, ?_, rfl⟩
      exact List.mem_of_find?_eq_some ho
    · exact .inl rfl

/-- The struct of a type has no number before it is looked up. -/
theorem TypeEntity.typeIndex_of_ofType {ctx : Declaration.Context} {t : NamedType} {s : Struct}
    (h : TypeEntity.ofType ctx t = .ok (.struct s)) : s.typeIndex = -1 := by
  rw [TypeEntity.ofType] at h
  cases hc : t.category with
  | struct =>
    rw [hc] at h
    obtain ⟨members, -, h⟩ := bind_eq_ok_iff.1 h
    cases h
    rfl
  | union =>
    rw [hc] at h
    obtain ⟨members, -, h⟩ := bind_eq_ok_iff.1 h
    cases h
  | _ =>
    rw [hc] at h
    cases h

namespace Registry

variable {config : Config} {doc : Document} {types : List TypeEntity} {functions : List Function}
  {r : Registry}

/-- A function has its name and its return type from a definition, and its code from the
configuration. -/
theorem Resolves.exists_definition (h : Resolves config doc types functions r) {f : Function}
    (hf : f ∈ r.functions.values) : ∃ d ∈ doc.definitions, f.name = d.prototype.name ∧
      f.returnType = d.prototype.typeName.getD "void" ∧
        f.stateTracking = config.stateTracking.get? f.name := by
  rw [h.functions_eq] at hf
  obtain ⟨_, hf, ⟨⟩⟩ := mem_of_mem_collect hf
  obtain ⟨f₀, hf₀, rfl⟩ := List.mem_map.1 hf
  obtain ⟨d, hd, hcommand⟩ := exists_of_mapM h.functions_ok hf₀
  obtain ⟨vars, -, hcommand⟩ := bind_eq_ok_iff.1 hcommand
  cases hcommand
  obtain ⟨hreturn, htracking⟩ := Function.returnType_retype r.extensions.values _
  refine ⟨d, (List.mem_filter.1 ((firstPer_sublist _ _ _).subset hd)).1, ?_, hreturn, ?_⟩
  · exact Function.name_retype _ _
  · rw [Function.name_retype]
    exact htracking

/-- The widths of bitmasks are in range. -/
theorem Resolves.widths (h : Resolves config doc types functions r) (hrange : doc.InRange config) :
    ∀ e ∈ r.bitmasks.values, e.bitWidth < UInt32.size := by
  intro e he
  rw [h.bitmasks_eq, values_enumerations] at he
  obtain ⟨g, hg, rfl⟩ := List.mem_map.1 he
  rw [bitWidth_enumerationOf]
  have hwidths := hrange.widths _ (mem_enumGroups_of_mem_keptGroups (List.mem_filter.1 hg).1)
  cases hwidth : g.decl.bitWidth with
  | none => decide
  | some width => exact hwidths width hwidth

/-- The number of a struct is in range, for it is -1 or the value of an option. -/
theorem Resolves.indices (h : Resolves config doc types functions r) (hrange : doc.InRange config) :
    ∀ s ∈ r.structs.values, fitsInt64 s.typeIndex = true := by
  intro s hs
  rw [h.structs_eq, OrderedMap.values_map] at hs
  obtain ⟨s₀, hs₀, rfl⟩ := List.mem_map.1 hs
  rcases s₀.typeIndex_indexed r.enums with hindex | ⟨e, he, o, ho, hindex⟩
  · obtain ⟨entity, hentity, hstruct⟩ := mem_of_mem_collect hs₀
    obtain rfl := selects_struct.eq_of_some entity s₀ hstruct
    obtain ⟨t, -, ht⟩ := exists_of_mapM h.types_ok hentity
    rw [hindex, TypeEntity.typeIndex_of_ofType ht]
    decide
  · rw [h.enums_eq, values_enumerations] at he
    obtain ⟨g, hg, rfl⟩ := List.mem_map.1 he
    rw [hindex]
    exact hrange.value (List.mem_filter.1 hg).1 ho

/-- A resolved registry is regular if its document is in range and unquoted, and if no code of the
configuration holds a double quote. -/
theorem regular_build (h : build config doc = .ok r) (hrange : doc.InRange config)
    (hquotes : doc.Unquoted)
    (hcode : ∀ name code, config.stateTracking.get? name = some code → '"' ∉ code.toList) :
    r.Regular := by
  obtain ⟨types, functions, h⟩ := build_eq_ok_iff.1 h
  refine ⟨fun f hf => ?_, fun f hf code hc => ?_, h.widths hrange, h.indices hrange⟩
  · obtain ⟨d, hd, hname, hreturn, -⟩ := h.exists_definition hf
    obtain ⟨hq, hqtype⟩ := hquotes d hd
    rw [hname, hreturn]
    refine ⟨hq, ?_⟩
    cases htype : d.prototype.typeName with
    | none => decide
    | some type => exact hqtype type htype
  · obtain ⟨d, -, -, -, htracking⟩ := h.exists_definition hf
    exact hcode f.name code (htracking.symm.trans hc)

end Registry

end ApiStencil
