/-
ApiStencil/Template/Item.lean

The items that a template iterates over.  Parameters, members, choices and options
are found through the item that they belong to, all others in the registry.
-/
import ApiStencil.Registry.Placeholders
import ApiStencil.Template.Subject

namespace ApiStencil.Template

/-- An entity of the registry, or a part of one. -/
inductive Item where
  | baseType (t : BaseType)
  | bitmask (e : Enumeration)
  | choice (c : Choice)
  | enumeration (e : Enumeration)
  | extension (e : Extension)
  | flag (f : Flag)
  | functionPointer (p : FunctionPointer)
  | function (f : Function)
  | handle (h : Handle)
  | option (o : EnumOption)
  | member (m : Member)
  | parameter (p : Parameter)
  | struct (s : Struct)
  | systemType (t : SystemType)
  | externalType (t : ExternalType)
  | union (u : Union)

namespace Item

def name : Item → String
  | .baseType t => t.name
  | .bitmask e => e.name
  | .choice c => c.var.name
  | .enumeration e => e.name
  | .extension e => e.name
  | .flag f => f.name
  | .functionPointer p => p.name
  | .function f => f.name
  | .handle h => h.name
  | .option o => o.name
  | .member m => m.var.name
  | .parameter p => p.var.name
  | .struct s => s.name
  | .systemType t => t.name
  | .externalType t => t.name
  | .union u => u.name

/-- The names that an item gives a meaning to. -/
def placeholders : Item → Values
  | .baseType t => t.placeholders
  | .bitmask e => e.bitsPlaceholders
  | .choice c => c.placeholders
  | .enumeration e => e.plainPlaceholders
  | .extension e => e.placeholders
  | .flag f => f.placeholders
  | .functionPointer p => p.placeholders
  | .function f => f.placeholders
  | .handle h => h.placeholders
  | .option o => o.placeholders
  | .member m => m.placeholders
  | .parameter p => p.placeholders
  | .struct s => s.placeholders
  | .systemType t => t.placeholders
  | .externalType t => t.placeholders
  | .union u => u.placeholders

/-- The items of a subject that belong to this item, if it is an owner of such items. -/
def owned? (subject : Subject) (item : Item) : Option (List Item) :=
  match subject, item with
  | .choice, .union u => some (u.choices.map .choice)
  | .option, .enumeration e => some (e.options.map .option)
  | .option, .bitmask e => some (e.options.map .option)
  | .member, .struct s => some (s.members.map .member)
  | .parameter, .function f => some (f.parameters.map .parameter)
  | _, _ => none

/-- Whether the item belongs to another item. -/
def isOwned : Item → Bool
  | .choice _ => true
  | .option _ => true
  | .member _ => true
  | .parameter _ => true
  | _ => false

end Item

/-- The items of a subject that needs no owner. -/
def Subject.collection (r : Registry) : Subject → List Item
  | .baseType => r.baseTypes.values.map .baseType
  | .bitmask => r.bitmasks.values.map .bitmask
  | .enumeration => r.enums.values.map .enumeration
  | .extension => r.extensions.values.map .extension
  | .flag => r.flags.values.map .flag
  | .functionPointer => r.functionPointers.values.map .functionPointer
  | .function => r.functions.values.map .function
  | .handle => r.handles.values.map .handle
  | .struct => r.structs.values.map .struct
  | .systemType => r.systemTypes.map .systemType
  | .externalType => r.externalTypes.values.map .externalType
  | .union => r.unions.values.map .union
  | .choice | .option | .member | .parameter => []

/-! ### Guards -/

/-- The extension that an item belongs to: the one that introduces the function or the type of
that name, and for a system type the one that uses it first. -/
def Item.extension? (r : Registry) (item : Item) : Option Extension :=
  if item.isOwned then none
  else (r.extensionForFunction? item.name).orElse fun _ =>
    (r.extensionForType? item.name).orElse fun _ =>
      match item with
      | .systemType t => r.extensions.get? t.extension
      | _ => none

/-- The preprocessor symbol that an item has to be wrapped in.  An item that belongs to another
one is wrapped with that. -/
def Item.guard? (r : Registry) (item : Item) : Option String :=
  (item.extension? r).bind Extension.guard?

end ApiStencil.Template
