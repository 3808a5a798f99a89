/-
ApiStencil/Proofs/Registry/SystemType.lean

The system types of a resolved registry: those that the structs and functions of some
extension use, each with the first extension that uses it, in the order of their first
uses (`build_systemTypes`).

A use is a variable at a place: the index of the extension, 0 for its structs or 1 for
its functions, the index of the name among those that the extension lists, and the index
of the variable (`Extension.UsesAt`, `Registry.UsesAt`).  All uses are listed in the order
of their places (`SystemType.inOrder_uses`), so the first use of a type, which is the one
that is kept, is the one at the smallest place.
-/
import ApiStencil.Proofs.Place
import ApiStencil.Proofs.Registry.Unique
import ApiStencil.Proofs.Text.Run
import Mathlib.Data.List.TakeWhile

namespace ApiStencil

open Document

/-! ### Types without their asterisks -/

namespace Number

variable {c : Char} {s t : List Char}

/-- What is dropped at the end is a run. -/
theorem exists_eq_dropEnd_append (c : Char) (s : List Char) :
    ∃ k, s = dropEnd (· = c) s ++ List.replicate k c := by
  have hrun : s.reverse.takeWhile (· = c) =
      List.replicate (s.reverse.takeWhile (· = c)).length c :=
    List.eq_replicate_iff.2 ⟨rfl, fun d hd => by simpa using List.mem_takeWhile_imp hd⟩
  refine ⟨(s.reverse.takeWhile (· = c)).length, ?_⟩
  rw [dropEnd, ← List.reverse_replicate, ← hrun, ← List.reverse_append,
    List.takeWhile_append_dropWhile, List.reverse_reverse]

/-- What is left does not end with it. -/
theorem getLast?_dropEnd_ne (c : Char) (s : List Char) :
    (dropEnd (· = c) s).getLast? ≠ some c := by
  intro hlast
  have hstop := List.head?_dropWhile_not (· = c) s.reverse
  rw [dropEnd, List.getLast?_reverse] at hlast
  rw [hlast] at hstop
  exact Bool.false_ne_true (hstop.symm.trans (decide_eq_true rfl))

/-- Without the run of `c` at its end, a text is what stands in front and does not end in `c`. -/
theorem dropEnd_eq_iff :
    dropEnd (· = c) s = t ↔ (∃ k, s = t ++ List.replicate k c) ∧ t.getLast? ≠ some c := by
  constructor
  · rintro rfl
    exact ⟨exists_eq_dropEnd_append c s, getLast?_dropEnd_ne c s⟩
  · rintro ⟨⟨k, rfl⟩, hlast⟩
    refine Text.reverse_dropWhile_append_of_stop (fun d hd => decide_eq_false ?_) fun d hd => ?_
    · rintro rfl
      exact hlast hd
    · exact decide_eq_true (List.eq_of_mem_replicate hd)

end Number

/-! ### What an extension uses -/

namespace Registry

/-- The members of the struct that a name stands for. -/
def memberVars (r : Registry) (name : String) : List Variable :=
  (((r.structs.get? (r.aliases.resolve name)).map Struct.members).getD []).map Member.var

/-- The parameters of the function that a name stands for. -/
def parameterVars (r : Registry) (name : String) : List Variable :=
  (((r.functions.get? (r.aliases.resolve name)).map Function.parameters).getD []).map Parameter.var

theorem getElem?_memberVars_iff {r : Registry} {name : String} {j : Nat} {v : Variable} :
    (r.memberVars name)[j]? = some v ↔ ∃ s m,
      r.structs.get? (r.aliases.resolve name) = some s ∧ s.members[j]? = some m ∧ m.var = v := by
  rw [memberVars, List.getElem?_map, Option.map_eq_some_iff]
  cases r.structs.get? (r.aliases.resolve name) <;> simp

/-- The variables of a function by their indices. -/
theorem getElem?_parameterVars_iff {r : Registry} {name : String} {j : Nat} {v : Variable} :
    (r.parameterVars name)[j]? = some v ↔ ∃ f p,
      r.functions.get? (r.aliases.resolve name) = some f ∧ f.parameters[j]? = some p ∧
        p.var = v := by
  rw [parameterVars, List.getElem?_map, Option.map_eq_some_iff]
  cases r.functions.get? (r.aliases.resolve name) <;> simp

end Registry

namespace Extension

/-- Whether a struct or function that an extension lists has the variable `v`, at which place. -/
inductive UsesAt (r : Registry) (e : Extension) : List Nat → Variable → Prop where
  | member {i j : Nat} {name : String} {s : Struct} {m : Member}
      (hname : e.types[i]? = some name)
      (hstruct : r.structs.get? (r.aliases.resolve name) = some s)
      (hmember : s.members[j]? = some m) : UsesAt r e [0, i, j] m.var
  | parameter {i j : Nat} {name : String} {f : Function} {p : Parameter}
      (hname : e.functions[i]? = some name)
      (hfunction : r.functions.get? (r.aliases.resolve name) = some f)
      (hparameter : f.parameters[j]? = some p) : UsesAt r e [1, i, j] p.var

/-- Whether a struct or function that an extension lists has a variable of the given type. -/
def Uses (r : Registry) (e : Extension) (type : String) : Prop :=
  ∃ place v, e.UsesAt r place v ∧ v.baseType = type

/-- The variables that an extension uses, at their places. -/
def usesOf (r : Registry) (e : Extension) : List (List Nat × Variable) :=
  Place.inParts (Place.inParts (Place.inParts Place.alone))
    [e.types.map r.memberVars, e.functions.map r.parameterVars]

theorem inOrder_usesOf (r : Registry) (e : Extension) : Place.InOrder (e.usesOf r) :=
  Place.inOrder_inParts fun _ _ => Place.inOrder_inParts fun _ _ =>
    Place.inOrder_inParts fun v _ => Place.inOrder_alone v

/-- Without the places, they are the variables that an extension uses. -/
theorem map_snd_usesOf (r : Registry) (e : Extension) :
    (e.usesOf r).map Prod.snd = e.usedVars r := by
  simp only [usesOf, usedVars, Place.map_snd_inParts, Place.alone, List.map_singleton,
    List.flatMap_singleton', List.flatMap_cons, List.flatMap_nil, List.append_nil,
    List.flatMap_map, List.map_flatMap]
  rfl

/-- The list has just the uses of an extension. -/
theorem mem_usesOf_iff {r : Registry} {e : Extension} {place : List Nat} {v : Variable} :
    (place, v) ∈ e.usesOf r ↔ e.UsesAt r place v := by
  simp only [usesOf, Place.mem_inParts_iff, Place.mem_alone_iff]
  constructor
  · rintro ⟨side, names, _, rfl, hnames, i, vars, _, rfl, hvars, j, v', _, rfl, hv, rfl, rfl⟩
    -- the first part holds the structs, the second one the functions
    match side, hnames with
    | 0, hnames =>
      cases hnames
      rw [List.getElem?_map] at hvars
      obtain ⟨name, hname, rfl⟩ := Option.map_eq_some_iff.1 hvars
      obtain ⟨s, m, hstruct, hmember, rfl⟩ := Registry.getElem?_memberVars_iff.1 hv
      exact .member hname hstruct hmember
    | 1, hnames =>
      cases hnames
      rw [List.getElem?_map] at hvars
      obtain ⟨name, hname, rfl⟩ := Option.map_eq_some_iff.1 hvars
      obtain ⟨f, p, hfunction, hparameter, rfl⟩ := Registry.getElem?_parameterVars_iff.1 hv
      exact .parameter hname hfunction hparameter
  · rintro (⟨hname, hstruct, hmember⟩ | ⟨hname, hfunction, hparameter⟩)
    · refine ⟨0, _, _, rfl, rfl, _, _, _, rfl, ?_, _, _, _, rfl,
        Registry.getElem?_memberVars_iff.2 ⟨_, _, hstruct, hmember, rfl⟩, rfl, rfl⟩
      rw [List.getElem?_map, hname]
      rfl
    · refine ⟨1, _, _, rfl, rfl, _, _, _, rfl, ?_, _, _, _, rfl,
        Registry.getElem?_parameterVars_iff.2 ⟨_, _, hfunction, hparameter, rfl⟩, rfl, rfl⟩
      rw [List.getElem?_map, hname]
      rfl

end Extension

/-! ### System types -/

namespace Registry

/-- Whether every external type stands under its own name. -/
def NamesExternalTypes (r : Registry) : Prop :=
  ∀ name x, r.externalTypes.get? name = some x → x.name = name

/-- Whether `type` is `name` with any number of asterisks behind it, and `name` a type that a
header of the system declares. -/
def IsSystem (r : Registry) (name type : String) : Prop :=
  (∃ k, type.toList = name.toList ++ List.replicate k '*') ∧ name.toList.getLast? ≠ some '*' ∧
    ∃ x, r.externalTypes.get? name = some x ∧ x.system = true

/-- Whether some extension uses `type`, at which place. -/
def UsesAt (r : Registry) (place : List Nat) (type : String) : Prop :=
  ∃ i e rest v, place = i :: rest ∧ r.extensions.values[i]? = some e ∧ e.UsesAt r rest v ∧
    v.baseType = type

/-- Whether `place` is the first place at which an extension uses `type`. -/
def FirstUse (r : Registry) (place : List Nat) (type : String) : Prop :=
  r.UsesAt place type ∧ ∀ place', r.UsesAt place' type → place ≤ place'

end Registry

namespace SystemType

/-- A variable is of a system type if its type is the name of one, with any asterisks behind it. -/
theorem ofVariable?_eq_some_iff {r : Registry} (hnamed : r.NamesExternalTypes)
    {extension : String} {v : Variable} {t : SystemType} :
    ofVariable? r.externalTypes extension v = some t ↔
      r.IsSystem t.name t.type ∧ v.baseType = t.type ∧ t.extension = extension := by
  rw [ofVariable?]
  constructor
  · intro h
    split at h
    · next x hx =>
      split at h
      · next hsystem =>
        cases h
        obtain ⟨hstars, hlast⟩ := Number.dropEnd_eq_iff.1
          (rfl : Number.dropEnd (· = '*') v.baseType.toList = _)
        rw [Registry.IsSystem, hnamed _ x hx, String.toList_ofList]
        exact ⟨⟨hstars, hlast, x, hx, hsystem⟩, rfl, rfl⟩
      · cases h
    · cases h
  · rintro ⟨⟨hstars, hlast, x, hx, hsystem⟩, htype, rfl⟩
    have hname : String.ofList (Number.dropEnd (· = '*') v.baseType.toList) = t.name := by
      rw [htype, Number.dropEnd_eq_iff.2 ⟨hstars, hlast⟩, String.ofList_toList]
    rw [hname, hx]
    dsimp only
    rw [if_pos hsystem, hnamed _ x hx, htype]

/-- All uses of system types, at their places. -/
def uses (r : Registry) : List (List Nat × SystemType) :=
  Place.inParts (fun e => (e.usesOf r).filterMap fun u =>
    (ofVariable? r.externalTypes e.name u.2).map (Prod.mk u.1)) r.extensions.values

/-- All uses are listed in the order of their places. -/
theorem inOrder_uses (r : Registry) : Place.InOrder (uses r) := by
  refine Place.inOrder_inParts fun e _ => (e.inOrder_usesOf r).filterMap _ ?_
  intro u u' hlt t ht t' ht'
  obtain ⟨t, -, rfl⟩ := Option.map_eq_some_iff.1 ht
  obtain ⟨t', -, rfl⟩ := Option.map_eq_some_iff.1 ht'
  exact hlt

/-- The list has just the uses of system types, each with its extension. -/
theorem mem_uses_iff {r : Registry} (hnamed : r.NamesExternalTypes) {place : List Nat}
    {t : SystemType} :
    (place, t) ∈ uses r ↔ r.IsSystem t.name t.type ∧ ∃ i e rest v, place = i :: rest ∧
      r.extensions.values[i]? = some e ∧ e.UsesAt r rest v ∧ v.baseType = t.type ∧
        t.extension = e.name := by
  simp only [uses, Place.mem_inParts_iff, List.mem_filterMap, Option.map_eq_some_iff,
    ofVariable?_eq_some_iff hnamed, Prod.mk.injEq]
  constructor
  · rintro ⟨i, e, rest, rfl, he, ⟨_, v⟩, hv, _, ⟨hsystem, htype, hextension⟩, rfl, rfl⟩
    exact ⟨hsystem, i, e, _, v, rfl, he, Extension.mem_usesOf_iff.1 hv, htype, hextension⟩
  · rintro ⟨hsystem, i, e, rest, v, rfl, he, hv, htype, hextension⟩
    exact ⟨i, e, rest, rfl, he, (rest, v), Extension.mem_usesOf_iff.2 hv, t,
      ⟨hsystem, htype, hextension⟩, rfl, rfl⟩

/-- The first use of every system type. -/
def firstUses (r : Registry) : List (List Nat × SystemType) :=
  firstPer (fun u => (u.2.name, u.2.type)) [] (uses r)

/-- The system types are those of the first uses. -/
theorem used_eq_map_firstUses (r : Registry) : used r = (firstUses r).map Prod.snd := by
  have huses : (uses r).map Prod.snd = r.extensions.values.flatMap fun e =>
      (e.usedVars r).filterMap (ofVariable? r.externalTypes e.name) := by
    rw [uses, Place.map_snd_inParts]
    refine List.flatMap_congr fun e _ => ?_
    rw [List.map_filterMap, ← Extension.map_snd_usesOf, List.filterMap_map]
    refine List.filterMap_congr fun u _ => ?_
    rw [Option.map_map]
    exact congrFun Option.map_id _
  rw [used, ← huses]
  exact firstPer_map (fun _ => rfl) [] (uses r)

end SystemType

/-! ### The registry -/

namespace Registry

/-- The extension with the first use is the first one that uses the type. -/
theorem FirstUse.exists_first {r : Registry} {i : Nat} {rest : List Nat} {type : String}
    {e : Extension} (h : r.FirstUse (i :: rest) type) (he : r.extensions.values[i]? = some e) :
    ∃ before after, r.extensions.values = before ++ e :: after ∧
      ∀ e' ∈ before, ¬ e'.Uses r type := by
  obtain ⟨hi, rfl⟩ := List.getElem?_eq_some_iff.1 he
  refine ⟨r.extensions.values.take i, r.extensions.values.drop (i + 1), ?_, ?_⟩
  · rw [← List.drop_eq_getElem_cons hi, List.take_append_drop]
  · rintro e' he' ⟨rest', v, hv, htype⟩
    obtain ⟨j, hj, rfl⟩ := List.mem_take_iff_getElem.1 he'
    obtain ⟨hji, hjl⟩ := Nat.lt_min.1 hj
    have hle := h.2 (j :: rest') ⟨j, _, rest', v, rfl, List.getElem?_eq_getElem hjl, hv, htype⟩
    exact not_lt_of_ge hle (List.cons_lt_cons_iff.2 (.inl hji))

section

variable {r : Registry} (hnamed : r.NamesExternalTypes)

include hnamed

/-- What is in the list is used at its place. -/
theorem usesAt_of_mem_uses {place : List Nat} {t : SystemType}
    (h : (place, t) ∈ SystemType.uses r) : r.UsesAt place t.type := by
  obtain ⟨-, i, e, rest, v, hplace, he, hv, htype, -⟩ := (SystemType.mem_uses_iff hnamed).1 h
  exact ⟨i, e, rest, v, hplace, he, hv, htype⟩

/-- And what is used of the system is in the list. -/
theorem exists_mem_uses_of_usesAt {place : List Nat} {name type : String}
    (h : r.UsesAt place type) (hsystem : r.IsSystem name type) :
    ∃ extension, (place, ⟨name, type, extension⟩) ∈ SystemType.uses r := by
  obtain ⟨i, e, rest, v, hplace, he, hv, htype⟩ := h
  exact ⟨e.name, (SystemType.mem_uses_iff hnamed).2
    ⟨hsystem, i, e, rest, v, hplace, he, hv, htype, rfl⟩⟩

/-- The use that is kept is the first one, since the list is in order. -/
theorem firstUse_of_mem_firstUses {u : List Nat × SystemType}
    (h : u ∈ SystemType.firstUses r) : r.FirstUse u.1 u.2.type := by
  have hu := (firstPer_sublist _ _ _).subset h
  refine ⟨usesAt_of_mem_uses hnamed hu, fun place' hplace' => ?_⟩
  obtain ⟨hsystem, -⟩ := (SystemType.mem_uses_iff hnamed).1 hu
  obtain ⟨extension, hu'⟩ := exists_mem_uses_of_usesAt hnamed hplace' hsystem
  exact (SystemType.inOrder_uses r).place_le h hu' rfl

/-- So it names the first extension that uses the type. -/
theorem exists_first_of_mem_firstUses {u : List Nat × SystemType}
    (h : u ∈ SystemType.firstUses r) :
    ∃ before e after, r.extensions.values = before ++ e :: after ∧ u.2.extension = e.name ∧
      e.Uses r u.2.type ∧ ∀ e' ∈ before, ¬ e'.Uses r u.2.type := by
  have hfirst := firstUse_of_mem_firstUses hnamed h
  obtain ⟨-, i, e, rest, v, hplace, he, hv, htype, hextension⟩ :=
    (SystemType.mem_uses_iff hnamed).1 ((firstPer_sublist _ _ _).subset h)
  rw [hplace] at hfirst
  obtain ⟨before, after, hvalues, hbefore⟩ := hfirst.exists_first he
  exact ⟨before, e, after, hvalues, hextension, ⟨rest, v, hv, htype⟩, hbefore⟩

/-- Every system type that is used is kept once. -/
theorem mem_firstUses_iff {name type : String} :
    (name, type) ∈ (SystemType.firstUses r).map (fun u => (u.2.name, u.2.type)) ↔
      r.IsSystem name type ∧ ∃ e ∈ r.extensions.values, e.Uses r type := by
  rw [SystemType.firstUses, mem_keys_firstPer_iff, and_iff_right List.not_mem_nil, List.mem_map]
  constructor
  · rintro ⟨⟨place, t⟩, ht, hkey⟩
    cases hkey
    obtain ⟨hsystem, i, e, rest, v, -, he, hv, htype, -⟩ := (SystemType.mem_uses_iff hnamed).1 ht
    exact ⟨hsystem, e, List.mem_of_getElem? he, rest, v, hv, htype⟩
  · rintro ⟨hsystem, e, he, rest, v, hv, htype⟩
    obtain ⟨i, hi⟩ := List.getElem?_of_mem he
    have huses : r.UsesAt (i :: rest) type := ⟨i, e, rest, v, rfl, hi, hv, htype⟩
    obtain ⟨extension, ht⟩ := exists_mem_uses_of_usesAt hnamed huses hsystem
    exact ⟨_, ht, rfl⟩

end

namespace Resolves

variable {config : Config} {doc : Document} {types : List TypeEntity} {functions : List Function}
  {r : Registry} (h : Resolves config doc types functions r)

include h

theorem systemTypes_eq : r.systemTypes = (SystemType.firstUses r).map Prod.snd := by
  rw [← SystemType.used_eq_map_firstUses, ← h.link_eq]
  rfl

theorem namesExternalTypes : r.NamesExternalTypes := by
  rw [NamesExternalTypes, h.externalTypes_eq]
  exact (h.collects_types selects_external).named

end Resolves

/-- The system types of a resolved registry are those that the structs and functions of some kept
extension use, each once, with the first extension that uses it and in the order of their first
uses. -/
theorem build_systemTypes {config : Config} {doc : Document} {r : Registry}
    (h : build config doc = .ok r) :
    r.extensions.values = (doc.keptExtensions config).map (Extension.ofDecl config doc) ∧
      (r.systemTypes.map fun t => (t.name, t.type)).Nodup ∧
      (∀ name type, (name, type) ∈ r.systemTypes.map (fun t => (t.name, t.type)) ↔
        r.IsSystem name type ∧ ∃ e ∈ r.extensions.values, e.Uses r type) ∧
      (∀ t ∈ r.systemTypes, ∃ before e after, r.extensions.values = before ++ e :: after ∧
        t.extension = e.name ∧ e.Uses r t.type ∧ ∀ e' ∈ before, ¬ e'.Uses r t.type) ∧
      r.systemTypes.Pairwise fun t t' => ∃ place place', r.FirstUse place t.type ∧
        r.FirstUse place' t'.type ∧ place < place' := by
  obtain ⟨types, functions, h⟩ := build_eq_ok_iff.1 h
  have hnamed := h.namesExternalTypes
  rw [h.systemTypes_eq]
  refine ⟨h.values_extensions, ?_, ?_, ?_, ?_⟩
  · rw [List.map_map]
    exact nodup_keys_firstPer _ [] _
  · intro name type
    rw [List.map_map]
    exact mem_firstUses_iff hnamed
  · intro t ht
    obtain ⟨u, hu, rfl⟩ := List.mem_map.1 ht
    exact exists_first_of_mem_firstUses hnamed hu
  · have horder : Place.InOrder (SystemType.firstUses r) := (SystemType.inOrder_uses r).firstPer
    rw [List.pairwise_map]
    refine List.Pairwise.imp_of_mem (fun hu hu' hlt => ?_) horder
    exact ⟨_, _, firstUse_of_mem_firstUses hnamed hu, firstUse_of_mem_firstUses hnamed hu', hlt⟩

/-- Types of the system, one of which is always behind a pointer, a struct with both, and another
name for the struct. -/
def windowTypes : List TypeDecl :=
  let external (name requires : String) : TypeDecl :=
    ⟨some name, none, none, some requires, none, none, none, none, .empty⟩
  let member (type name code : String) : Document.Member :=
    ⟨none, none, none, none, none, code, [.type type, .name name]⟩
  [external "Display" "X11/Xlib.h", external "Window" "X11/Xlib.h", external "int" "vk_platform",
    ⟨some "Surface", none, none, none, some "struct", none, none, none, .members [
      member "int" "flags" "int flags", member "Display" "display" "Display* display",
      member "Window" "window" "Window window"]⟩,
    ⟨some "SurfaceKHR", some "Surface", none, none, none, none, none, none, .empty⟩]

/-- Commands that use a type with and without asterisks. -/
def windowCommands : List Command :=
  let param (type name code : String) : Param := ⟨none, none, ⟨name, some type, code⟩⟩
  let command (name : String) (params : List Param) : Command :=
    .definition ⟨⟨name, some "void", "void " ++ name⟩, params, none⟩
  [command "show" [param "int" "level" "int level", param "Window" "window" "Window window"],
    command "grab" [param "Window*" "window" "Window* window",
      param "Display" "display" "Display** display"]]

/-- Extensions that share types, and one of another API. -/
def windowExtensions : List ExtensionDecl :=
  let extension (name : String) (supported : Option String) (items : List RequiredItem) :
      ExtensionDecl :=
    ⟨name, none, none, none, none, none, supported, none, [⟨none, items⟩]⟩
  [extension "Disabled" (some "disabled") [.command "grab"],
    extension "A" none [.command "show"],
    extension "B" (some "vulkan") [.command "grab", .type "SurfaceKHR"],
    extension "C" none [.type "Surface", .command "show"]]

/-- A document with extensions that use types of a window system. -/
def windows : Document :=
  [.types windowTypes, .commands windowCommands, .extensions windowExtensions]

/-- A struct that an extension lists under another name counts, and a type behind asterisks is
another one. -/
theorem build_systemTypes_windows :
    ∃ r, build Config.default windows = .ok r ∧
      r.systemTypes =
        [⟨"Window", "Window", "A"⟩, ⟨"Display", "Display*", "B"⟩, ⟨"Window", "Window*", "B"⟩] ∧
      (∀ name type, (name, type) ∈ r.systemTypes.map (fun t => (t.name, t.type)) ↔
        r.IsSystem name type ∧ ∃ e ∈ r.extensions.values, e.Uses r type) ∧
      (∀ t ∈ r.systemTypes, ∃ before e after, r.extensions.values = before ++ e :: after ∧
        t.extension = e.name ∧ e.Uses r t.type ∧ ∀ e' ∈ before, ¬ e'.Uses r t.type) ∧
      r.systemTypes.Pairwise fun t t' => ∃ place place', r.FirstUse place t.type ∧
        r.FirstUse place' t'.type ∧ place < place' := by
  have hs : (build Config.default windows).toOption.map Registry.systemTypes =
      some [⟨"Window", "Window", "A"⟩, ⟨"Display", "Display*", "B"⟩,
        ⟨"Window", "Window*", "B"⟩] := by
    decide +kernel
  obtain ⟨r, h, hs⟩ := toOption_map_eq_some_iff.1 hs
  obtain ⟨-, -, hmem, hfirst, horder⟩ := build_systemTypes h
  exact ⟨r, h, hs, hmem, hfirst, horder⟩

end Registry

end ApiStencil
