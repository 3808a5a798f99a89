/-
ApiStencil/Registry/Placeholders.lean

The placeholders that each kind of entity offers to a template.  The names of the
placeholders of variables start with the stem of the role that the variable plays.
-/
import ApiStencil.Placeholder.Values
import ApiStencil.Registry.Entity
import ApiStencil.Text.WordCase

namespace ApiStencil

open Values

/-- The placeholders that parameters, members and choices share. -/
def Variable.placeholders (v : Variable) (stem : String) : List (String × String) :=
  [(stem ++ "Name", v.name),
    (stem ++ "TypeID", v.typeId),
    (stem ++ "BaseType", v.baseType),
    (stem ++ "ChildType", v.childType),
    (stem ++ "Type", v.declaredType),
    (stem ++ "Declaration", v.declaration),
    (stem ++ "PtrLevel", ofNat v.pointerLevels),
    (stem ++ "Length", ofOption v.arrayLength),
    (stem ++ "LengthMember", ofBool v.lengthMember),
    (stem ++ "IsLength", ofBool v.isLength),
    (stem ++ "IsConst", ofBool v.isConst),
    (stem ++ "Index", ofNat v.index)]

def Parameter.placeholders (p : Parameter) : Values :=
  OrderedMap.ofList (p.var.placeholders "prm")

def Member.placeholders (m : Member) : Values :=
  OrderedMap.ofList (m.var.placeholders "mem" ++
    [("memSelector", ofOption m.selector), ("memValues", ofOption m.values)])

def Choice.placeholders (c : Choice) : Values :=
  OrderedMap.ofList (c.var.placeholders "chc" ++
    [("chcSelection", String.intercalate "," c.selection)])

/-- The name without `stem` in front. -/
def withoutStem (stem name : String) : String :=
  match stem.toList.isPrefixOf? name.toList with
  | some rest => String.ofList rest
  | none => name

/-- A name in lower case, with underscores between its words. -/
def snakeName (name : String) : String :=
  String.ofList (Text.snakeCase name.toList)

namespace Function

/-- The texts of all parameters, separated by commas. -/
def joined (f : Function) (text : Variable → String) : String :=
  String.intercalate ", " (f.parameters.map fun p => text p.var)

def placeholders (f : Function) : Values :=
  OrderedMap.ofList
    [("funcName", f.name),
      ("funcShortName", withoutStem "vk" f.name),
      ("funcSnakeName", snakeName f.name),
      ("funcReturn", f.returnType),
      ("funcDispatchType", f.dispatch.name),
      ("funcType", f.type.name),
      ("funcDispatchParam", ofOption (f.parameters.head?.map fun p => p.var.name)),
      ("funcNamedParams", f.joined Variable.name),
      ("funcTypedParams", f.joined Variable.declaration),
      ("funcParamCount", ofNat f.parameters.length),
      ("funcSafeToPrint", ofBool f.safeToPrint),
      ("funcStateTrackingCode", ofOption f.stateTracking)]

end Function

def Struct.placeholders (s : Struct) : Values :=
  OrderedMap.ofList
    [("sctName", s.name),
      ("sctSnakeName", snakeName s.name),
      ("sctExtends", s.structExtends),
      ("sctStructureTypeIndex", ofInt s.typeIndex),
      ("sctMemberCount", ofNat s.members.length)]

def Union.placeholders (u : Union) : Values :=
  OrderedMap.ofList [("unName", u.name), ("unChoiceCount", ofNat u.choices.length)]

def EnumOption.placeholders (o : EnumOption) : Values :=
  OrderedMap.ofList
    [("optName", o.name),
      ("optValue", ofInt o.value),
      ("optComment", o.comment),
      ("optMultiValue", ofBool o.isMultiValue)]

namespace Enumeration

/-- The placeholders of a plain enumeration. -/
def plainPlaceholders (e : Enumeration) : Values :=
  OrderedMap.ofList
    [("enumName", e.name),
      ("enumType", e.kind.name),
      ("enumOptionCount", ofNat e.options.length)]

/-- The placeholders of an enumeration of bits. -/
def bitsPlaceholders (e : Enumeration) : Values :=
  OrderedMap.ofList
    [("bitName", e.name),
      ("bitType", e.kind.name),
      ("bitWidth", ofNat e.bitWidth),
      ("bitOptionCount", ofNat e.options.length)]

end Enumeration

def Flag.placeholders (f : Flag) : Values :=
  OrderedMap.ofList
    [("flagName", f.name), ("flagType", f.type), ("flagEnum", ofOption f.bitmask)]

def Handle.placeholders (h : Handle) : Values :=
  OrderedMap.ofList
    [("hdlName", h.name),
      ("hdlParent", ofOption h.parent),
      ("hdlDispatchable", ofBool h.dispatchable)]

def BaseType.placeholders (b : BaseType) : Values :=
  OrderedMap.ofList [("baseName", b.name), ("baseType", b.type)]

def ExternalType.placeholders (t : ExternalType) : Values :=
  OrderedMap.ofList
    [("typeName", t.name), ("typeRequires", t.requires), ("typeSystem", ofBool t.system)]

def FunctionPointer.placeholders (p : FunctionPointer) : Values :=
  OrderedMap.ofList [("pfnName", p.name), ("pfnReturn", p.returnType)]

def Extension.placeholders (e : Extension) : Values :=
  OrderedMap.ofList
    [("extName", e.name),
      ("extShortName",
        String.ofList (Text.upperCamelCase (withoutStem "VK_" e.name).toList)),
      ("extNumber", ofInt e.number),
      ("extType", ofOption (e.kind.map Dispatch.name)),
      ("extDependency", ofOption e.dependency),
      ("extGuard", ofOption e.guard)]

def SystemType.placeholders (t : SystemType) : Values :=
  OrderedMap.ofList
    [("sysName", t.name), ("sysType", t.type), ("sysExtension", t.extension)]

end ApiStencil
