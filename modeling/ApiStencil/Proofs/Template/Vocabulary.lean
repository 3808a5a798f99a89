/-
ApiStencil/Proofs/Template/Vocabulary.lean

The names that a loop gives a meaning to.  Every item of a subject offers the same
placeholders, those of the subject's vocabulary, however little the registry says
about it (`Item.mem_keys_placeholders`).

A loop over the items of an owner finds one if a loop over its owners stands around
it; what it iterates over are items of its own subject (`subject_of_mem_collection`,
`owned?_eq_some`).
-/
import ApiStencil.Proofs.OrderedMap
import ApiStencil.Template.Item

namespace ApiStencil.Template

/-! ### The vocabulary of a subject -/

/-- The placeholders of parameters, members and choices, without their stems. -/
def variableVocabulary : List String :=
  ["Name", "TypeID", "BaseType", "ChildType", "Type", "Declaration", "PtrLevel", "Length",
    "LengthMember", "IsLength", "IsConst", "Index"]

/-- The names of the placeholders that a loop over a subject offers. -/
def Subject.vocabulary : Subject → List String
  | .baseType => ["baseName", "baseType"]
  | .bitmask => ["bitName", "bitType", "bitWidth", "bitOptionCount"]
  | .choice => variableVocabulary.map ("chc" ++ ·) ++ ["chcSelection"]
  | .enumeration => ["enumName", "enumType", "enumOptionCount"]
  | .extension => ["extName", "extShortName", "extNumber", "extType", "extDependency", "extGuard"]
  | .flag => ["flagName", "flagType", "flagEnum"]
  | .functionPointer => ["pfnName", "pfnReturn"]
  | .function =>
    ["funcName", "funcShortName", "funcSnakeName", "funcReturn", "funcDispatchType", "funcType",
      "funcDispatchParam", "funcNamedParams", "funcTypedParams", "funcParamCount",
      "funcSafeToPrint", "funcStateTrackingCode"]
  | .handle => ["hdlName", "hdlParent", "hdlDispatchable"]
  | .option => ["optName", "optValue", "optComment", "optMultiValue"]
  | .member => variableVocabulary.map ("mem" ++ ·) ++ ["memSelector", "memValues"]
  | .parameter => variableVocabulary.map ("prm" ++ ·)
  | .struct => ["sctName", "sctSnakeName", "sctExtends", "sctStructureTypeIndex", "sctMemberCount"]
  | .systemType => ["sysName", "sysType", "sysExtension"]
  | .externalType => ["typeName", "typeRequires", "typeSystem"]
  | .union => ["unName", "unChoiceCount"]

/-- The subject that an item belongs to. -/
def Item.subject : Item → Subject
  | .baseType _ => .baseType
  | .bitmask _ => .bitmask
  | .choice _ => .choice
  | .enumeration _ => .enumeration
  | .extension _ => .extension
  | .flag _ => .flag
  | .functionPointer _ => .functionPointer
  | .function _ => .function
  | .handle _ => .handle
  | .option _ => .option
  | .member _ => .member
  | .parameter _ => .parameter
  | .struct _ => .struct
  | .systemType _ => .systemType
  | .externalType _ => .externalType
  | .union _ => .union

/-- An item offers the vocabulary of its subject, and nothing else. -/
theorem Item.mem_keys_placeholders (i : Item) {name : String} :
    name ∈ i.placeholders.keys ↔ name ∈ i.subject.vocabulary := by
  cases i <;> exact OrderedMap.mem_keys_ofList name

/-! ### Owners -/

/-- The subjects whose items own the items of a subject. -/
def Subject.owners : Subject → List Subject
  | .choice => [.union]
  | .option => [.enumeration, .bitmask]
  | .member => [.struct]
  | .parameter => [.function]
  | _ => []

theorem Subject.owner?_eq_none_iff {s : Subject} : s.owner? = none ↔ s.owners = [] := by
  cases s <;> simp [owner?, owners]

/-- An item of an owning subject has items of the owned subject, if only none. -/
theorem Item.isSome_owned? {s : Subject} {i : Item} (h : i.subject ∈ s.owners) :
    (i.owned? s).isSome = true := by
  cases s with
  | choice => cases i <;> simp_all [subject, Subject.owners, owned?]
  | option => cases i <;> simp_all [subject, Subject.owners, owned?]
  | member => cases i <;> simp_all [subject, Subject.owners, owned?]
  | parameter => cases i <;> simp_all [subject, Subject.owners, owned?]
  | _ => cases h

/-! ### What a loop iterates over -/

/-- What a loop finds with an owner are items of its subject. -/
theorem Item.subject_of_mem_owned? {s : Subject} {i j : Item} {items : List Item}
    (h : i.owned? s = some items) (hj : j ∈ items) : j.subject = s := by
  unfold owned? at h
  split at h
  case h_6 => cases h
  all_goals
    obtain rfl := Option.some.inj h
    obtain ⟨_, -, rfl⟩ := List.mem_map.1 hj
    rfl

theorem Subject.subject_of_mem_collection {s : Subject} {r : Registry} {j : Item}
    (hj : j ∈ s.collection r) : j.subject = s := by
  cases s <;> first
    | exact absurd hj List.not_mem_nil
    | (obtain ⟨_, -, rfl⟩ := List.mem_map.1 hj; rfl)

end ApiStencil.Template
