/-
ApiStencil/Proofs/Registry/StructureType.lean

The numbers of structs.  A struct that extends another one carries the number of the
option of `VkStructureType` that its members name, and every other struct has -1
(`Struct.Numbered`).

Main statement: this holds of the finished enumeration, to which its own group, the
features and the extensions contribute wherever they stand in the document, and where
the first declaration of a name gives the option (`build_typeIndex`).  The members are
searched in order (`typeOption?_eq_some_iff`), and the options are those that
`options_enumerationOf` lists, so looking a name up among them is looking for its first
declaration (`rel_option?`).
-/
import ApiStencil.Proofs.Registry.Origin
import ApiStencil.Proofs.Registry.Regular

namespace ApiStencil

open Document

/-! ### The options of the finished enumeration -/

/-- What is found in two lists that correspond corresponds. -/
theorem rel_find? {α β : Type} {R : α → β → Prop} {p : α → Bool} {q : β → Bool} {l : List α}
    {l' : List β} (hpq : ∀ a b, R a b → p a = q b) (h : List.Forall₂ R l l') :
    Option.Rel R (l.find? p) (l'.find? q) := by
  induction h with
  | nil => exact .none
  | @cons a b _ _ hab _ ih =>
    rw [List.find?_cons, List.find?_cons, hpq a b hab]
    split
    · exact .some hab
    · exact ih

theorem Document.nodup_options (config : Config) (doc : Document) (g : NamedGroup) :
    ((doc.enumerationOf config g).options.map EnumOption.name).Nodup := by
  rw [options_enumerationOf]
  exact nodup_keys_firstPer _ _ _

/-- The option of a name is the one that the first declaration of the name gives. -/
theorem Document.rel_option? (config : Config) (doc : Document) (g : NamedGroup) (name : String) :
    Option.Rel OptionDecl.Gives
      ((doc.optionDecls config g.decl g.name).find? (·.name = name))
      ((doc.enumerationOf config g).option? name) := by
  have hgives := List.rel_append (forall₂_own config g.decl)
    (forall₂_contributed config doc g.name)
  rw [Enumeration.option?, options_enumerationOf, find?_firstPer _ _ List.not_mem_nil]
  refine rel_find? (fun d o ho => ?_) hgives
  rw [ho.1]

/-! ### The option that a struct carries -/

/-- Whether the first entry of a member's values names an option. -/
def Member.Names (e : Enumeration) (m : Member) (o : EnumOption) : Prop :=
  ∃ values, m.values = some values ∧ o ∈ e.options ∧ o.name = beforeComma values

/-- Options of different names are found by their names. -/
theorem Enumeration.option?_eq_some_iff {e : Enumeration}
    (hn : (e.options.map EnumOption.name).Nodup) {name : String} {o : EnumOption} :
    e.option? name = some o ↔ o ∈ e.options ∧ o.name = name := by
  have hnamed : ∀ {name : String} {o : EnumOption}, e.option? name = some o → o.name = name := by
    intro name o h
    rw [option?] at h
    have hname := List.find?_some h
    exact of_decide_eq_true hname
  constructor
  · intro h
    exact ⟨List.mem_of_find?_eq_some h, hnamed h⟩
  · rintro ⟨ho, rfl⟩
    have hfound : (e.option? o.name).isSome = true :=
      List.find?_isSome.2 ⟨o, ho, decide_eq_true rfl⟩
    obtain ⟨o', h⟩ := Option.isSome_iff_exists.1 hfound
    rw [h, List.inj_on_of_nodup_map hn (List.mem_of_find?_eq_some h) ho (hnamed h)]

/-- The option that a member names, if it names one. -/
def Member.named? (e : Enumeration) (m : Member) : Option EnumOption :=
  (m.values.bind fun values => (commaParts values).head?).bind e.option?

namespace Struct

variable {e : Enumeration} (hn : (e.options.map EnumOption.name).Nodup)

include hn

/-- The option that a member names is found. -/
theorem named?_eq_some_iff {m : Member} {o : EnumOption} :
    m.named? e = some o ↔ m.Names e o := by
  rw [Member.named?, bind_head?_commaParts, Member.Names]
  cases m.values with
  | none => simp
  | some values => simp [Enumeration.option?_eq_some_iff hn]

theorem named?_eq_none_iff {m : Member} : m.named? e = none ↔ ∀ o, ¬ m.Names e o := by
  rw [Option.eq_none_iff_forall_ne_some]
  simp only [ne_eq, named?_eq_some_iff hn]

/-- The first member that names an option decides. -/
theorem typeOption?_eq_some_iff {s : Struct} {o : EnumOption} :
    s.typeOption? e = some o ↔ ∃ before m after, s.members = before ++ m :: after ∧ m.Names e o ∧
      ∀ m' ∈ before, ∀ o', ¬ m'.Names e o' := by
  show s.members.findSome? (Member.named? e) = some o ↔ _
  rw [List.findSome?_eq_some_iff]
  simp only [named?_eq_some_iff hn, named?_eq_none_iff hn]

theorem typeOption?_eq_none_iff {s : Struct} :
    s.typeOption? e = none ↔ ∀ m ∈ s.members, ∀ o, ¬ m.Names e o := by
  show s.members.findSome? (Member.named? e) = none ↔ _
  rw [List.findSome?_eq_none_iff]
  simp only [named?_eq_none_iff hn]

end Struct

/-- How a struct is numbered: by the option of the enumeration of structure types that its first
member names which names one, and else by -1. -/
structure Struct.Numbered (enums : OrderedMap Enumeration) (s : Struct) : Prop where
  apart : s.structExtends = "" ∨ enums.get? structureTypes = none → s.typeIndex = -1
  named : ∀ e before m after o, s.structExtends ≠ "" → enums.get? structureTypes = some e →
    s.members = before ++ m :: after → (∀ m' ∈ before, ∀ o', ¬ m'.Names e o') → m.Names e o →
      s.typeIndex = o.value
  unnamed : ∀ e, enums.get? structureTypes = some e → (∀ m ∈ s.members, ∀ o, ¬ m.Names e o) →
    s.typeIndex = -1

namespace Struct

variable {enums : OrderedMap Enumeration} {s : Struct}

/-- The option whose number a struct carries, if it extends another struct. -/
def carried? (enums : OrderedMap Enumeration) (s : Struct) : Option EnumOption :=
  if s.structExtends = "" then none
  else (enums.get? structureTypes).bind fun e => s.typeOption? e

/-- A struct that carries an option gets its value as its number. -/
theorem indexed_eq (enums : OrderedMap Enumeration) (s : Struct) :
    s.indexed enums =
      { s with typeIndex := ((s.carried? enums).map EnumOption.value).getD s.typeIndex } := by
  rw [indexed, carried?]
  split
  · rfl
  · split
    · next o ho => rw [ho]; rfl
    · next ho => rw [ho]; rfl

/-- Looking the option up numbers a struct as is said. -/
theorem numbered_indexed (hs : s.typeIndex = -1)
    (hn : ∀ e, enums.get? structureTypes = some e → (e.options.map EnumOption.name).Nodup) :
    (s.indexed enums).Numbered enums := by
  rw [indexed_eq, hs]
  constructor
  -- without a parent or an enumeration, nothing is looked up
  · intro h
    have hnone : s.carried? enums = none := by
      rw [carried?]
      rcases h with hextends | henum
      · exact if_pos hextends
      · rw [henum, Option.bind_none, ite_self]
    rw [hnone]
    rfl
  · intro e before m after o hextends henum hmembers hbefore hm
    have hsome : s.carried? enums = some o := by
      rw [carried?, if_neg hextends, henum]
      exact (typeOption?_eq_some_iff (hn e henum)).2 ⟨before, m, after, hmembers, hm, hbefore⟩
    rw [hsome]
    rfl
  · intro e henum hmembers
    have hnone : s.carried? enums = none := by
      have hnone : s.typeOption? e = none := (typeOption?_eq_none_iff (hn e henum)).2 hmembers
      rw [carried?, henum, Option.bind_some, hnone, ite_self]
    rw [hnone]
    rfl

end Struct

/-! ### The registry -/

namespace Registry

/-- An enumeration comes from the group of its name. -/
theorem exists_group {config : Config} {doc : Document} {kind : EnumKind} {name : String}
    {e : Enumeration} (he : (doc.enumerations config kind).get? name = some e) :
    ∃ g, doc.namedGroups.find? (·.name = name) = some g ∧ g.name = name ∧ g.kind = kind ∧
      e = doc.enumerationOf config g := by
  rw [enumerations_eq_collect, get?_collect_eq_some_iff (nodup_enumerationNames config doc kind),
    List.filterMap_some] at he
  obtain ⟨hmem, hname⟩ := he
  obtain ⟨g, hg, rfl⟩ := List.mem_map.1 hmem
  rw [name_enumerationOf] at hname
  subst hname
  obtain ⟨hkept, hkind⟩ := List.mem_filter.1 hg
  exact ⟨g, find?_of_mem_firstPer hkept, rfl, of_decide_eq_true hkind, rfl⟩

/-- In a resolved registry every struct has the number of the structure type that its members name,
among the options of the finished enumeration: those of its own group, of features and of
extensions, where the first declaration of a name gives its option. -/
theorem build_typeIndex {config : Config} {doc : Document} {r : Registry}
    (h : build config doc = .ok r) :
    (∀ s ∈ r.structs.values, s.Numbered r.enums) ∧
      ∀ e, r.enums.get? Struct.structureTypes = some e →
        (e.options.map EnumOption.name).Nodup ∧
          ∃ g, doc.namedGroups.find? (·.name = Struct.structureTypes) = some g ∧
            ∀ name, Option.Rel OptionDecl.Gives
              ((doc.optionDecls config g.decl Struct.structureTypes).find? (·.name = name))
              (e.option? name) := by
  obtain ⟨types, functions, h⟩ := build_eq_ok_iff.1 h
  rw [h.enums_eq]
  constructor
  · intro s hs
    obtain ⟨t, -, s₀, ht, rfl⟩ := h.exists_struct hs
    rw [h.enums_eq]
    refine Struct.numbered_indexed (TypeEntity.typeIndex_of_ofType ht) fun e he => ?_
    obtain ⟨g, -, -, -, rfl⟩ := exists_group he
    exact doc.nodup_options config g
  · intro e he
    obtain ⟨g, hg, hname, -, rfl⟩ := exists_group he
    have hrel := doc.rel_option? config g
    rw [hname] at hrel
    exact ⟨doc.nodup_options config g, g, hg, hrel⟩

/-- Structs that name structure types, which the enumeration, an extension in front of it and a
feature behind it declare, the extension under another name of the enumeration. -/
def chainedStructs : Document :=
  let member (name : String) (values : Option String) : Document.Member :=
    ⟨none, none, none, values, none, "int " ++ name, [.type "int", .name name]⟩
  let struct (name : String) (structExtends : Option String) (l : List Document.Member) :
      TypeDecl :=
    ⟨some name, none, none, none, some "struct", none, structExtends, none, .members l⟩
  [.extensions [⟨"X", some 5, none, none, none, none, none, none, [⟨none, [
      .enumerant ⟨"C", none, none, .offset 2 "Old" none true⟩,
      .enumerant ⟨"A", none, none, .value "9" (some "VkStructureType")⟩]⟩]⟩],
    .types [⟨some "Old", some "VkStructureType", none, none, none, none, none, none, .empty⟩,
      struct "Later" (some "Base") [member "a" none, member "b" (some "Z,A"),
        member "c" (some "C,A"), member "d" (some "A")],
      struct "First" (some "Base") [member "a" (some "A")],
      struct "Feature" (some "Base") [member "a" (some "F")],
      struct "Apart" none [member "a" (some "A")],
      struct "Unnamed" (some "Base") [member "a" (some "Z,A")]],
    .enums ⟨some "VkStructureType", some "enum", none, [⟨"A", none, none, .value "1" none⟩]⟩,
    .feature ⟨"vulkan", "VK_1", [⟨none, [
      .enumerant ⟨"F", none, none, .value "0x10" (some "VkStructureType")⟩]⟩]⟩]

/-- The first entry of the values counts, the first member that names an option, and of an option
its first declaration. -/
theorem build_typeIndex_chained :
    ∃ r e, build Config.default chainedStructs = .ok r ∧
      r.structs.values.map (fun s => (s.name, s.typeIndex)) =
        [("Later", 1000004002), ("First", 1), ("Feature", 16), ("Apart", -1), ("Unnamed", -1)] ∧
      (∀ s ∈ r.structs.values, s.Numbered r.enums) ∧
      r.enums.get? Struct.structureTypes = some e ∧
      ∃ g, chainedStructs.namedGroups.find? (·.name = Struct.structureTypes) = some g ∧
        ∀ name, Option.Rel OptionDecl.Gives
          ((chainedStructs.optionDecls Config.default g.decl Struct.structureTypes).find?
            (·.name = name)) (e.option? name) := by
  have hs : (build Config.default chainedStructs).toOption.map (fun r =>
      (r.structs.values.map (fun s => (s.name, s.typeIndex)),
        (r.enums.get? Struct.structureTypes).isSome)) =
      some ([("Later", 1000004002), ("First", 1), ("Feature", 16), ("Apart", -1),
        ("Unnamed", -1)], true) := by
    decide +kernel
  obtain ⟨r, h, hs⟩ := toOption_map_eq_some_iff.1 hs
  obtain ⟨hs, he⟩ := Prod.mk.inj hs
  obtain ⟨e, he⟩ := Option.isSome_iff_exists.1 he
  obtain ⟨hnumbered, hoptions⟩ := build_typeIndex h
  exact ⟨r, e, h, hs, hnumbered, he, (hoptions e he).2⟩

end Registry

end ApiStencil
