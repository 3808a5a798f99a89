/-
ApiStencil/Proofs/Registry/Kept.lean

Which types and commands are kept, told one declaration at a time.  A type is kept if it is the
first candidate of its alias-free name (`KeepsType`).  A command is kept unless it is excluded, an
alias, or its name is the alias-free name of a kept type, of a group or of a command that is kept
before it (`KeepsCommand`).

The lists of kept declarations hold just these, and with their indices in the document they are in
its order (`mem_keptTypesAt_iff`, `mem_keptCommandsAt_iff`).
-/
import ApiStencil.Proofs.Alias
import ApiStencil.Proofs.Place
import ApiStencil.Registry.Kept

namespace ApiStencil.Document

/-! ### Kept declarations -/

/-- Whether a type can be kept under a name: it is a named type of the API that is no alias, and
its category is one that becomes an entity, or it has none and names a header. -/
structure TypeDecl.IsCandidate (config : Config) (t : TypeDecl) (name : String) : Prop where
  noAlias : t.aliasOf = none
  api : config.containsApi t.api = true
  named : t.name? = some name
  known : (∃ c ∈ ["basetype", "bitmask", "handle", "funcpointer", "struct", "union"],
    t.category = some c) ∨ t.category = none ∧ t.requires.isSome = true

variable (config : Config) (doc : Document)

/-- Whether the type at an index is kept under its name: no earlier candidate has the same
alias-free name. -/
structure KeepsType (i : Nat) (t : TypeDecl) (name : String) : Prop where
  declared : doc.types[i]? = some t
  candidate : t.IsCandidate config name
  first : ∀ j < i, ∀ t' name', doc.types[j]? = some t' → t'.IsCandidate config name' →
    doc.aliases.resolve name' ≠ doc.aliases.resolve name

/-- Whether a name is the alias-free name of a kept type or of a group of enumerants. -/
inductive IsTaken (name : String) : Prop
  | type {i : Nat} {t : TypeDecl} {name' : String} (hkept : KeepsType config doc i t name')
      (hname : doc.aliases.resolve name' = name)
  | group {g : EnumGroup} {name' : String} (hgroup : g ∈ doc.enumGroups)
      (hnamed : g.name = some name') (hkind : g.kind = some "enum" ∨ g.kind = some "bitmask")
      (hname : doc.aliases.resolve name' = name)

/-- Whether the definition at an index is kept. -/
def KeepsCommand (i : Nat) (d : CommandDef) : Prop :=
  doc.definitions[i]? = some d ∧ config.isExcluded d.prototype.name = false ∧
    doc.aliases.contains d.prototype.name = false ∧ ¬ IsTaken config doc d.prototype.name ∧
      ∀ j < i, ∀ d', KeepsCommand j d' →
        doc.aliases.resolve d'.prototype.name ≠ d.prototype.name
termination_by i

/-! ### Types -/

/-- The named type that a declaration can become. -/
def TypeDecl.named? (t : TypeDecl) : Option NamedType :=
  if t.aliasOf.isSome ∨ !config.containsApi t.api then none
  else match t.name?, t.category? with
    | some name, some category => some ⟨name, category, t⟩
    | _, _ => none

theorem TypeDecl.exists_category?_iff {t : TypeDecl} : (∃ c, t.category? = some c) ↔
    (∃ c ∈ ["basetype", "bitmask", "handle", "funcpointer", "struct", "union"],
      t.category = some c) ∨ t.category = none ∧ t.requires.isSome = true := by
  unfold category?
  split <;> simp_all

theorem TypeDecl.category?_eq_struct_iff {t : TypeDecl} :
    t.category? = some .struct ↔ t.category = some "struct" := by
  unfold category?
  split <;> simp_all

theorem TypeDecl.category?_eq_union_iff {t : TypeDecl} :
    t.category? = some .union ↔ t.category = some "union" := by
  unfold category?
  split <;> simp_all

/-- A declaration becomes a named type if it is a candidate. -/
theorem TypeDecl.named?_eq_some_iff {t : TypeDecl} {n : NamedType} :
    t.named? config = some n ↔
      n.decl = t ∧ t.category? = some n.category ∧ t.IsCandidate config n.name := by
  unfold named?
  constructor
  · intro h
    split at h
    · cases h
    · next hapi =>
      split at h
      · next name category hname hcategory =>
        cases h
        rw [not_or, Option.not_isSome_iff_eq_none, Bool.not_eq_true', Bool.not_eq_false] at hapi
        exact ⟨rfl, hcategory, hapi.1, hapi.2, hname, exists_category?_iff.1 ⟨_, hcategory⟩⟩
      · cases h
  · rintro ⟨rfl, hcategory, hcandidate⟩
    rw [if_neg (by simp [hcandidate.noAlias, hcandidate.api]), hcandidate.named, hcategory]

/-- The kept types with their indices. -/
def keptTypesAt : List (Nat × NamedType) :=
  firstPer (fun x => doc.aliases.resolve x.2.name) []
    (Place.chosen (TypeDecl.named? config) doc.types)

/-- Without their indices, these are the kept types. -/
theorem map_snd_keptTypesAt : (keptTypesAt config doc).map Prod.snd = doc.keptTypes config := by
  have hmap : firstPer (fun n : NamedType => doc.aliases.resolve n.name) []
      ((Place.chosen (TypeDecl.named? config) doc.types).map Prod.snd) =
        (keptTypesAt config doc).map Prod.snd := firstPer_map (fun _ => rfl) [] _
  rw [← hmap, Place.map_snd_chosen]
  rfl

theorem pairwise_keptTypesAt : (keptTypesAt config doc).Pairwise fun x y => x.1 < y.1 :=
  Place.pairwise_chosen.sublist (firstPer_sublist _ _ _)

variable {config doc}

/-- A type is among them if no earlier candidate has its alias-free name. -/
theorem mem_keptTypesAt_iff {i : Nat} {n : NamedType} : (i, n) ∈ keptTypesAt config doc ↔
    n.decl.category? = some n.category ∧ KeepsType config doc i n.decl n.name := by
  rw [keptTypesAt, Place.mem_firstPer_iff_of_ranked Place.pairwise_chosen,
    and_iff_right List.not_mem_nil, Place.mem_chosen_iff]
  constructor
  -- every candidate has a category, so an earlier one would have been chosen
  · rintro ⟨⟨t, ht, hn⟩, hfirst⟩
    obtain ⟨rfl, hcategory, hcandidate⟩ := (TypeDecl.named?_eq_some_iff config).1 hn
    refine ⟨hcategory, ht, hcandidate, fun j hj t' name' ht' hcandidate' => ?_⟩
    obtain ⟨category', hcategory'⟩ := TypeDecl.exists_category?_iff.2 hcandidate'.known
    exact hfirst (j, ⟨name', category', t'⟩) (Place.mem_chosen_iff.2 ⟨t', ht',
      (TypeDecl.named?_eq_some_iff config).2 ⟨rfl, hcategory', hcandidate'⟩⟩) hj
  · rintro ⟨hcategory, ht, hcandidate, hfirst⟩
    refine ⟨⟨n.decl, ht, (TypeDecl.named?_eq_some_iff config).2 ⟨rfl, hcategory, hcandidate⟩⟩, ?_⟩
    rintro ⟨j, n'⟩ hn' hj
    obtain ⟨t', ht', hn'⟩ := Place.mem_chosen_iff.1 hn'
    obtain ⟨-, -, hcandidate'⟩ := (TypeDecl.named?_eq_some_iff config).1 hn'
    exact hfirst j hj t' n'.name ht' hcandidate'

theorem KeepsType.exists_mem {i : Nat} {t : TypeDecl} {name : String}
    (h : KeepsType config doc i t name) : ∃ category, t.category? = some category ∧
      (i, ⟨name, category, t⟩) ∈ keptTypesAt config doc := by
  obtain ⟨category, hcategory⟩ := TypeDecl.exists_category?_iff.2 h.candidate.known
  exact ⟨category, hcategory, mem_keptTypesAt_iff.2 ⟨hcategory, h⟩⟩

/-! ### Commands -/

/-- The alias-free names of kept types are those that types take. -/
theorem mem_typeKeys_iff {key : String} : key ∈ doc.typeKeys config ↔
    ∃ i t name, KeepsType config doc i t name ∧ doc.aliases.resolve name = key := by
  rw [typeKeys, ← map_snd_keptTypesAt, List.map_map, List.mem_map]
  constructor
  · rintro ⟨⟨i, n⟩, hn, rfl⟩
    exact ⟨i, n.decl, n.name, (mem_keptTypesAt_iff.1 hn).2, rfl⟩
  · rintro ⟨i, t, name, hkept, rfl⟩
    obtain ⟨category, -, hn⟩ := hkept.exists_mem
    exact ⟨_, hn, rfl⟩

/-- The alias-free names of groups are those of groups of one of the two kinds. -/
theorem mem_namedGroupKeys_iff {key : String} :
    key ∈ doc.namedGroups.map (fun g => doc.aliases.resolve g.name) ↔
      ∃ g ∈ doc.enumGroups, ∃ name, g.name = some name ∧
        (g.kind = some "enum" ∨ g.kind = some "bitmask") ∧ doc.aliases.resolve name = key := by
  have hkind (s : String) : (∃ k, EnumKind.ofName? s = some k) ↔ s = "enum" ∨ s = "bitmask" := by
    unfold EnumKind.ofName?
    split <;> simp_all
  simp only [List.mem_map, namedGroups, List.mem_filterMap]
  constructor
  · rintro ⟨n, ⟨g, hg, hn⟩, rfl⟩
    split at hn
    · next name kind hname hk =>
      cases hn
      obtain ⟨s, hs, hk⟩ := Option.bind_eq_some_iff.1 hk
      refine ⟨g, hg, name, hname, ?_, rfl⟩
      rw [hs, Option.some.injEq, Option.some.injEq]
      exact (hkind s).1 ⟨kind, hk⟩
    · cases hn
  · rintro ⟨g, hg, name, hname, hk, rfl⟩
    obtain ⟨s, hs, hk⟩ : ∃ s, g.kind = some s ∧ (s = "enum" ∨ s = "bitmask") := by
      rcases hk with hk | hk
      · exact ⟨_, hk, .inl rfl⟩
      · exact ⟨_, hk, .inr rfl⟩
    obtain ⟨kind, hk⟩ := (hkind s).2 hk
    refine ⟨⟨name, kind, g⟩, ⟨g, hg, ?_⟩, rfl⟩
    rw [hname, hs, Option.bind_some, hk]

/-- A name is taken by a type or a group if it is one of their keys. A group that is not kept has
the name of a type or of one that is, so all groups may be asked. -/
theorem isTaken_iff {name : String} : IsTaken config doc name ↔
    name ∈ doc.typeKeys config ++ doc.groupKeys config := by
  have hgroups : name ∈ doc.groupKeys config ↔ name ∉ doc.typeKeys config ∧
      name ∈ doc.namedGroups.map fun g => doc.aliases.resolve g.name := mem_keys_firstPer_iff
  rw [List.mem_append, hgroups, mem_namedGroupKeys_iff]
  constructor
  · rintro (⟨hkept, hname⟩ | ⟨hgroup, hnamed, hkind, hname⟩)
    · exact .inl (mem_typeKeys_iff.2 ⟨_, _, _, hkept, hname⟩)
    · exact or_iff_not_imp_left.2 fun h => ⟨h, _, hgroup, _, hnamed, hkind, hname⟩
  · rintro (h | ⟨-, g, hgroup, name', hnamed, hkind, hname⟩)
    · obtain ⟨i, t, name', hkept, hname⟩ := mem_typeKeys_iff.1 h
      exact .type hkept hname
    · exact .group hgroup hnamed hkind hname

variable (config doc) in
/-- Whether a definition is neither excluded nor an alias. -/
def CommandDef.isCandidate (d : CommandDef) : Bool :=
  !config.isExcluded d.prototype.name && !doc.aliases.contains d.prototype.name

/-- What the check for a command says. -/
theorem CommandDef.isCandidate_iff {d : CommandDef} : d.isCandidate config doc = true ↔
    config.isExcluded d.prototype.name = false ∧ doc.aliases.contains d.prototype.name = false := by
  rw [isCandidate, Bool.and_eq_true, Bool.not_eq_true', Bool.not_eq_true']

variable (config doc) in
/-- The kept commands with their indices. -/
def keptCommandsAt : List (Nat × CommandDef) :=
  firstPer (fun x => doc.aliases.resolve x.2.prototype.name)
    (doc.typeKeys config ++ doc.groupKeys config)
    (Place.chosen (Option.guard (CommandDef.isCandidate config doc)) doc.definitions)

variable (config doc) in
/-- Without their indices, these are the kept commands. -/
theorem map_snd_keptCommandsAt :
    (keptCommandsAt config doc).map Prod.snd = doc.keptCommands config := by
  have hmap : firstPer (fun d : CommandDef => doc.aliases.resolve d.prototype.name)
      (doc.typeKeys config ++ doc.groupKeys config)
      ((Place.chosen (Option.guard (CommandDef.isCandidate config doc)) doc.definitions).map
        Prod.snd) = (keptCommandsAt config doc).map Prod.snd := firstPer_map (fun _ => rfl) _ _
  rw [← hmap, Place.map_snd_chosen, List.filterMap_eq_filter]
  rfl

variable (config doc) in
theorem pairwise_keptCommandsAt : (keptCommandsAt config doc).Pairwise fun x y => x.1 < y.1 :=
  Place.pairwise_chosen.sublist (firstPer_sublist _ _ _)

/-- A command is among them if it is kept: the recursion over the commands before it is what keeping
the first of each key does. -/
theorem mem_keptCommandsAt_iff {i : Nat} {d : CommandDef} :
    (i, d) ∈ keptCommandsAt config doc ↔ KeepsCommand config doc i d := by
  induction i using Nat.strong_induction_on generalizing d with
  | _ i ih =>
    rw [KeepsCommand, keptCommandsAt, Place.mem_firstPer_iff_of_kept Place.pairwise_chosen,
      ← keptCommandsAt, Place.mem_chosen_iff, ← isTaken_iff]
    constructor
    · rintro ⟨htaken, ⟨d', hd, hguard⟩, hfirst⟩
      obtain ⟨rfl, hcandidate⟩ := Option.guard_eq_some_iff.1 hguard
      obtain ⟨hexcluded, halias⟩ := CommandDef.isCandidate_iff.1 hcandidate
      -- a name that is no alias is alias-free itself
      simp only [Aliases.resolve_of_not_contains halias] at htaken hfirst
      exact ⟨hd, hexcluded, halias, htaken, fun j hj d' hd' =>
        hfirst (j, d') ((ih j hj).2 hd') hj⟩
    · rintro ⟨hd, hexcluded, halias, htaken, hfirst⟩
      simp only [Aliases.resolve_of_not_contains halias]
      have hguard := Option.guard_eq_some_iff.2
        ⟨rfl, CommandDef.isCandidate_iff.2 ⟨hexcluded, halias⟩⟩
      refine ⟨htaken, ⟨d, hd, hguard⟩, ?_⟩
      rintro ⟨j, d'⟩ hd' hj
      exact hfirst j hj d' ((ih j hj).1 hd')

end ApiStencil.Document
