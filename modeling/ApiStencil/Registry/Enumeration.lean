/-
ApiStencil/Registry/Enumeration.lean

The options of enumerations.  A group of enumerants gives an enumeration its own
options; features and extensions contribute further ones.  An option whose name
the enumeration has already is ignored (`push`).
-/
import ApiStencil.Registry.Kept
import ApiStencil.Registry.Number

namespace ApiStencil

open Document

namespace Document

/-- The number that an enumerant gives by itself. -/
def EnumerantValue.number? : EnumerantValue → Option Int
  | .value text _ => Number.ofText? text.toList
  | .bit position _ => some (Number.bit position)
  | _ => none

/-- The option that an enumerant stands for in its own group. -/
def Enumerant.option? (e : Enumerant) : Option EnumOption :=
  e.value.number?.map fun n => ⟨e.name, n, e.comment.getD ""⟩

/-- The options of a group for the API. -/
def EnumGroup.options (config : Config) (g : EnumGroup) : List EnumOption :=
  (g.enumerants.filter fun e => config.containsApi e.api).filterMap Enumerant.option?

end Document

/-! ### Contributions -/

/-- What an enumerant that a feature or an extension requires adds to the registry. -/
inductive Contribution where
  /-- A new option of an enumeration. -/
  | option (base : String) (o : EnumOption)
  /-- A constant that belongs to no enumeration. -/
  | constant (name value : String)
deriving DecidableEq, Repr

namespace Contribution

/-- The contribution of an enumerant.  `number` is the number of the extension that requires it.
An enumerant that refers to something declared elsewhere contributes nothing. -/
def ofEnumerant? (number : Option Int) (e : Enumerant) : Option Contribution :=
  let option (base : String) (value : Int) : Contribution :=
    .option base ⟨e.name, value, e.comment.getD ""⟩
  match e.value with
  | .offset offset base extensionNumber positive =>
    (extensionNumber.orElse fun _ => number).map fun n =>
      option base (Number.extensionValue n offset positive)
  | .bit position (some base) => some (option base (Number.bit position))
  | .bit position none => some (.constant e.name (toString (Number.bit position)))
  | .value text (some base) => (Number.ofText? text.toList).map (option base)
  | .value text none => some (.constant e.name text)
  | _ => none

def option? : Contribution → Option (String × EnumOption)
  | .option base o => some (base, o)
  | .constant _ _ => none

def constant? : Contribution → Option (String × String)
  | .option _ _ => none
  | .constant name value => some (name, value)

end Contribution

namespace Document

/-- The items that blocks require for the API. -/
def requiredItems (config : Config) (blocks : List RequireBlock) : List RequiredItem :=
  ((blocks.filter fun b => config.containsApi b.api).flatMap RequireBlock.items).filter fun
    | .enumerant e => config.containsApi e.api
    | _ => true

/-- The contributions of blocks of requirements. -/
def contributions (config : Config) (number : Option Int) (blocks : List RequireBlock) :
    List Contribution :=
  (requiredItems config blocks).filterMap fun
    | .enumerant e => Contribution.ofEnumerant? number e
    | _ => none

/-- The options that a feature adds, with the names of their enumerations. -/
def Feature.options (config : Config) (f : Feature) : List (String × EnumOption) :=
  if config.containsApi (some f.api) then
    (contributions config none f.requires).filterMap Contribution.option?
  else []

end Document

/-! ### Building -/

namespace Enumeration

/-- Adds an option unless its name is taken. -/
def push (e : Enumeration) (o : EnumOption) : Enumeration :=
  if (e.option? o.name).isSome then e else { e with options := e.options ++ [o] }

/-- The enumeration of a group, with its own options only. -/
def ofGroup (config : Config) (g : NamedGroup) : Enumeration :=
  (g.decl.options config).foldl push ⟨g.name, g.kind, g.decl.bitWidth.getD 32, []⟩

/-- Adds the options that are contributed to this enumeration under any of its names. -/
def extend (aliases : Aliases) (contributed : List (String × EnumOption)) (e : Enumeration) :
    Enumeration :=
  contributed.foldl (fun e (base, o) => if aliases.resolve base = e.name then e.push o else e) e

end Enumeration

end ApiStencil
