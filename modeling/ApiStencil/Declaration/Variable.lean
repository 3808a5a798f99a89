/-
ApiStencil/Declaration/Variable.lean

Variables: the parameters of functions, the members of structs and the choices of
unions, each declared by a small piece of C.  `Raw` is a declaration as it is
written, `Variable` what it says: its type, the levels of indirection, and where
the length of an array comes from.
-/
import ApiStencil.Alias
import ApiStencil.Config
import ApiStencil.Declaration.Length
import ApiStencil.Document

namespace ApiStencil

open Text

/-- A resolved declaration. -/
structure Variable where
  name : String
  /-- The declared type, after resolving aliases. -/
  typeId : String
  /-- The declared type, adjusted for texts and for types that are always behind a pointer. -/
  baseType : String
  /-- The type of the elements of a pointer or an array, and empty otherwise. -/
  childType : String
  /-- The declaration in front of the name. -/
  declaredType : String
  /-- The declaration without its comment. -/
  declaration : String
  pointerLevels : Nat
  /-- A number, the name of a sibling, or an expression. -/
  arrayLength : Option String
  /-- Whether the length comes from an attribute and not from a static array. -/
  lengthMember : Bool
  /-- Whether a sibling takes its length from this variable. -/
  isLength : Bool
  isConst : Bool
  /-- The place among the siblings. -/
  index : Nat
deriving DecidableEq, Repr, Inhabited

namespace Declaration

/-- The parts of a declaration as they are written. -/
structure Raw where
  name : String
  typeName : String
  /-- The code, in which the comment may still stand. -/
  code : String
  comment : Option String
  len : Option String
deriving DecidableEq, Repr

/-- What declarations are resolved against. -/
structure Context where
  config : Config
  aliases : Aliases
  constants : OrderedMap String

/-! ### Reading the marks -/

namespace Raw

/-- The parts of a member.  Of several marks of a kind the last one counts. -/
def ofMember (m : Document.Member) : Except Error Raw :=
  let lastMark (text? : Document.MemberMark → Option String) : Option String :=
    (m.marks.filterMap text?).getLast?
  match lastMark fun | .name s => some s | _ => none with
  | none => .error (.missingName m.code)
  | some name =>
    match lastMark fun | .type s => some s | _ => none with
    | none => .error (.missingType name)
    | some typeName =>
      .ok ⟨name, typeName, m.code, lastMark fun | .comment s => some s | _ => none, m.len⟩

/-- The parts of a parameter. -/
def ofParam (p : Document.Param) : Except Error Raw :=
  match p.declaration.typeName with
  | none => .error (.missingType p.declaration.name)
  | some typeName => .ok ⟨p.declaration.name, typeName, p.declaration.code, none, p.len⟩

/-! ### Reading the code -/

/-- The declaration without its comment and the spaces around it. -/
def declaration (raw : Raw) : List Char :=
  trim <|
    match raw.comment with
    | some comment =>
      if comment = "" then raw.code.toList else eraseFirst comment.toList raw.code.toList
    | none => raw.code.toList

/-- What stands before and after the declared name, which is its last occurrence. -/
def aroundName (raw : Raw) : List Char × List Char :=
  (splitLast raw.name.toList raw.declaration).getD (raw.declaration, [])

/-- What stands in front of the declared name, or the type if that is nothing. -/
def declaredType (raw : Raw) : List Char :=
  match trim raw.aroundName.1 with
  | [] => raw.typeName.toList
  | s => s

/-- The size of a static array, given by what follows the declared name. -/
def arraySize? (suffix : List Char) : Option (List Char) :=
  match trimStart suffix with
  | '[' :: inner =>
    if inner.contains ']' then some (trim (inner.takeWhile (· ≠ ']'))) else none
  | _ => none

/-- Whether `const` stands anywhere in a type. -/
def hasConst (type : List Char) : Bool :=
  (type.splitOnP fun c => isSpace c || c = '*').contains "const".toList

/-- The asterisks and opening brackets of a declaration. -/
def indirections (declaration : List Char) : Nat :=
  declaration.countP fun c => c = '*' || c = '['

end Raw

/-! ### Resolving -/

/-- The type that replaces one level of indirection of `char`. -/
def cstring : String := "cstring"

/-- The length of an array, and whether it comes from an attribute. -/
structure ArrayLength where
  length : Option String
  fromAttribute : Bool
deriving DecidableEq, Repr

/-- The length of the declared array.  A static size goes before the attribute and may name a
constant. -/
def Raw.arrayLength (ctx : Context) (raw : Raw) : Except Error ArrayLength :=
  match Raw.arraySize? raw.aroundName.2 with
  | some size =>
    let size := String.ofList size
    .ok ⟨some ((ctx.constants.get? size).getD size), false⟩
  | none =>
    match raw.len with
    | none => .ok ⟨none, false⟩
    | some len => (attributeLength len.toList).map fun
      | some length => ⟨some (String.ofList length), true⟩
      | none => ⟨none, false⟩

/-- The type that stands for `type` at the given number of indirections, and the number of those
that are left. -/
def adjustType (config : Config) (type : String) (levels : Nat) : String × Option Nat :=
  if type = "char" ∧ 0 < levels then (cstring, some (levels - 1))
  else if config.isOpaquePointer type then
    (type ++ "*", if levels = 0 then none else some (levels - 1))
  else (type, some levels)

/-- Resolves the declaration that stands at the place `index` among its siblings. -/
def Raw.resolve (ctx : Context) (index : Nat) (raw : Raw) : Except Error Variable := do
  let typeId := ctx.aliases.resolve raw.typeName
  let declaration := String.ofList raw.declaration
  let array ← raw.arrayLength ctx
  match adjustType ctx.config typeId (Raw.indirections raw.declaration) with
  | (_, none) => throw (.negativePointerLevel declaration)
  | (baseType, some pointerLevels) =>
    return {
      name := raw.name
      typeId, baseType, declaration, pointerLevels, index
      childType := if 0 < pointerLevels ∨ array.length.isSome then baseType else ""
      declaredType := String.ofList raw.declaredType
      arrayLength := array.length
      lengthMember := array.fromAttribute
      isLength := false
      isConst := Raw.hasConst raw.declaredType }

/-- The notice about a declaration that lists several lengths. -/
def Raw.notice? (raw : Raw) : Option Notice :=
  match Raw.arraySize? raw.aroundName.2 with
  | some _ => none
  | none => raw.len.bind fun len => lengthNotice? raw.name len.toList

end Declaration

namespace Variable

/-- The sibling that this variable takes its length from.  A length behind a path belongs to
another struct. -/
def lengthSource? (v : Variable) : Option String :=
  match v.lengthMember, v.arrayLength with
  | true, some length =>
    let text := length.toList
    let name := text.takeWhile isWordChar
    if occursIn "->".toList text ∨ name = [] then none else some (String.ofList name)
  | _, _ => none

/-- Marks the variables that others of the list take their length from. -/
def markLengths (vars : List Variable) : List Variable :=
  let sources := vars.filterMap lengthSource?
  vars.map fun v => if v.name ∈ sources then { v with isLength := true } else v

end Variable

end ApiStencil
