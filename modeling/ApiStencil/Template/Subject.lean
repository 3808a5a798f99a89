/-
ApiStencil/Template/Subject.lean

The collections a template can iterate over, each with the word that names it.
Parameters, members, choices and options belong to an owner; a loop over them has
to stand inside a loop over their owners.
-/

namespace ApiStencil.Template

/-- The collection that a loop iterates over. -/
inductive Subject where
  | baseType
  | bitmask
  | choice
  | enumeration
  | extension
  | flag
  | functionPointer
  | function
  | handle
  | option
  | member
  | parameter
  | struct
  | systemType
  | externalType
  | union
deriving DecidableEq, Repr

namespace Subject

/-- The word for a subject in a template. -/
def name : Subject → String
  | .baseType => "basetype"
  | .bitmask => "bitmask"
  | .choice => "choice"
  | .enumeration => "enum"
  | .extension => "extension"
  | .flag => "flag"
  | .functionPointer => "funcpointer"
  | .function => "function"
  | .handle => "handle"
  | .option => "option"
  | .member => "member"
  | .parameter => "parameter"
  | .struct => "struct"
  | .systemType => "systype"
  | .externalType => "type"
  | .union => "union"

/-- All subjects, in the order of their names. -/
def all : List Subject :=
  [.baseType, .bitmask, .choice, .enumeration, .extension, .flag, .functionPointer, .function,
    .handle, .member, .option, .parameter, .struct, .systemType, .externalType, .union]

/-- The subject with this name. -/
def ofName? (word : String) : Option Subject :=
  all.find? (·.name = word)

/-- What a loop over this subject has to be nested in, in words. -/
def owner? : Subject → Option String
  | .choice => some "union"
  | .option => some "enum or bitmask"
  | .member => some "struct"
  | .parameter => some "function"
  | _ => none

theorem mem_all (s : Subject) : s ∈ all := by
  cases s <;> decide

theorem name_injective {s t : Subject} (h : s.name = t.name) : s = t := by
  cases s <;> cases t <;> first | rfl | exact absurd h (by decide)

/-- Names and subjects determine each other. -/
theorem ofName?_eq_some_iff {word : String} {s : Subject} :
    ofName? word = some s ↔ s.name = word := by
  constructor
  · intro h
    simpa using List.find?_some h
  · rintro rfl
    cases s <;> decide

end Subject

end ApiStencil.Template
