/-
ApiStencil/Proofs/Registry/Dispatch.lean

How the functions of a registry are dispatched.  The first parameter decides whether a
function goes through the instance, by the handles of the finished registry
(`AtInstance`), and the instance extensions that list it decide its type.

Main statement: both are as said, whatever the order of the document (`build_dispatch`).
Which handles are at the instance is looked up when the functions are resolved, after
all types, and the types of functions are set when the extensions are linked, after all
functions; so no place in the document matters, and only the finished collections occur
in the statement.
-/
import ApiStencil.Proofs.Registry.Shuffled
import ApiStencil.Proofs.Registry.Variables

namespace ApiStencil

open Document

/-! ### Handles -/

/-- Whether calls with a handle of this type go through the instance: it has no parent, or is
dispatchable and has a parent without one. -/
inductive Handle.AtInstance (handles : OrderedMap Handle) (type : String) : Prop
  | root {x : Handle} (hx : handles.get? type = some x) (hroot : x.parent = none)
  | child {x parent : Handle} {name : String} (hx : handles.get? type = some x)
    (hdispatchable : x.dispatchable = true) (hname : x.parent = some name)
    (hparent : handles.get? name = some parent) (hroot : parent.parent = none)

/-- Looking the handle up and then its parent decides whether it is at the instance. -/
theorem Handle.any_viaInstance_iff {handles : OrderedMap Handle} {type : String} :
    (handles.get? type).any (viaInstance handles) = true ↔ AtInstance handles type := by
  rw [Option.any_eq_true]
  constructor
  -- a handle with a parent has to be dispatchable, and its parent one without
  · rintro ⟨x, hx, h⟩
    rw [viaInstance] at h
    split at h
    · next hroot => exact .root hx hroot
    · next name hname =>
      obtain ⟨hdispatchable, h⟩ := Bool.and_eq_true_iff.1 h
      obtain ⟨parent, hparent, hroot⟩ := (Option.any_eq_true _ _).1 h
      exact .child hx hdispatchable hname hparent (Option.isNone_iff_eq_none.1 hroot)
  · intro h
    cases h with
    | @root x hx hroot => exact ⟨x, hx, by rw [viaInstance, hroot]⟩
    | @child x parent name hx hdispatchable hname hparent hroot =>
      refine ⟨x, hx, ?_⟩
      rw [viaInstance, hname]
      dsimp only
      rw [hdispatchable, hparent, Option.any_some, hroot]
      rfl

/-- The handles are those of the kept types, under their names; of several parents that a type lists
the first counts. -/
theorem Registry.Resolves.exists_handle {config : Config} {doc : Document}
    {types : List TypeEntity} {functions : List Function} {r : Registry}
    (h : Resolves config doc types functions r) {name : String} {x : Handle}
    (hx : r.handles.get? name = some x) :
    ∃ t ∈ doc.keptTypes config, t.name = name ∧ t.category = .handle ∧
      x.parent = t.decl.parent.map beforeComma ∧
      (x.dispatchable = true ↔ t.decl.codeType? = some "VK_DEFINE_HANDLE") := by
  have hnamed : x.name = name := by
    rw [h.handles_eq] at hx
    exact (h.collects_types selects_handle).named name x hx
  have hvalue := OrderedMap.mem_values_of_get? _ hx
  rw [h.handles_eq] at hvalue
  obtain ⟨t, ht, hhandle⟩ := h.exists_type selects_handle hvalue
  obtain rfl := TypeEntity.eq_of_ofType_handle hhandle
  exact ⟨t, ht, hnamed, TypeEntity.category_of_ofType hhandle, rfl, decide_eq_true_iff⟩

/-! ### Functions -/

namespace Function

/-- A function goes through the instance if it creates it, or if its first parameter is a handle
there. -/
theorem dispatchOf_eq_iff {config : Config} {handles : OrderedMap Handle} {name : String}
    {vars : List Variable} :
    dispatchOf config handles name vars = .viaInstance ↔ name = config.instanceCreationFunction ∨
      ∃ v, vars.head? = some v ∧ Handle.AtInstance handles v.typeId := by
  have hfirst : (vars.head?.bind fun v => handles.get? v.typeId).any
      (Handle.viaInstance handles) = true ↔
      ∃ v, vars.head? = some v ∧ Handle.AtInstance handles v.typeId := by
    cases vars.head? with
    | none => simp
    | some v => simp [Handle.any_viaInstance_iff]
  rw [dispatchOf, ← hfirst]
  split
  · next hinstance => exact iff_of_true rfl hinstance.symm
  · next hdevice => exact iff_of_false (by decide) (mt Or.symm hdevice)

/-- An instance extension makes a function one of the instance, and no extension makes one less
so. -/
theorem type_retype_iff {extensions : List Extension} {f : Function} :
    (f.retype extensions).type = .viaInstance ↔ f.type = .viaInstance ∨
      ∃ e ∈ extensions, e.kind = some .viaInstance ∧ f.name ∈ e.functions := by
  have hlisted : (extensions.any fun e =>
      e.kind = some .viaInstance && e.functions.contains f.name) = true ↔
        ∃ e ∈ extensions, e.kind = some .viaInstance ∧ f.name ∈ e.functions := by
    simp
  rw [retype, ← hlisted]
  split
  · next hany => exact iff_of_true rfl (.inr hany)
  · next hnone => exact (or_iff_left hnone).symm

/-- The type of the first parameter of a function is that of the first parameter of its command for
the API, whatever it is an alias for. -/
theorem typeId_head? {ctx : Declaration.Context} {owner : String} {params : List Param}
    {vars : List Variable}
    (h : Registry.resolveVariables ctx owner (params.map Declaration.Raw.ofParam) = .ok vars) :
    vars.head?.map Variable.typeId =
      (params.head?.bind fun p => p.declaration.typeName).map ctx.aliases.resolve := by
  obtain ⟨raws, unmarked, hraws, hresolves, rfl⟩ := Registry.resolvesTo_of_resolveVariables h
  cases params with
  | nil =>
    cases List.map_eq_nil_iff.1 hraws.symm
    cases hresolves
    rfl
  | cons p rest =>
    obtain ⟨raw, raws, rfl, hraw, -⟩ := List.map_eq_cons_iff.1 hraws.symm
    cases hresolves with
    | @cons _ v _ _ hv _ =>
      obtain ⟨array, baseType, levels, -, -, rfl⟩ := Declaration.Raw.resolve_eq_ok_iff.1 hv
      rw [Declaration.Raw.ofParam] at hraw
      split at hraw
      · cases hraw
      · next typeName htypeName =>
        cases hraw
        rw [Variable.markLengths_eq_map, List.map_cons, List.head?_cons, Option.map_some,
          Variable.markedAmong_eq, List.head?_cons, Option.bind_some, htypeName]
        rfl

/-- What holds of the type of the first variable holds of the type of the first parameter. -/
theorem exists_typeId_iff {ctx : Declaration.Context} {owner : String} {params : List Param}
    {vars : List Variable} {P : String → Prop}
    (h : Registry.resolveVariables ctx owner (params.map Declaration.Raw.ofParam) = .ok vars) :
    (∃ v, vars.head? = some v ∧ P v.typeId) ↔
      ∃ p type, params.head? = some p ∧ p.declaration.typeName = some type ∧
        P (ctx.aliases.resolve type) := by
  have hfirst := typeId_head? h
  constructor
  · rintro ⟨v, hv, hP⟩
    rw [hv, Option.map_some, eq_comm, Option.map_eq_some_iff] at hfirst
    obtain ⟨type, htype, hresolve⟩ := hfirst
    obtain ⟨p, hp, htype⟩ := Option.bind_eq_some_iff.1 htype
    exact ⟨p, type, hp, htype, hresolve ▸ hP⟩
  · rintro ⟨p, type, hp, htype, hP⟩
    rw [hp, Option.bind_some, htype, Option.map_some, Option.map_eq_some_iff] at hfirst
    obtain ⟨v, hv, hresolve⟩ := hfirst
    exact ⟨v, hv, hresolve ▸ hP⟩

/-- The first parameter of a command for the API decides the dispatch, unless it creates the
instance. -/
theorem dispatch_eq_iff {ctx : Declaration.Context} {handles : OrderedMap Handle} {d : CommandDef}
    {f : Function} (h : ofCommand ctx handles d = .ok f) :
    f.dispatch = .viaInstance ↔ f.name = ctx.config.instanceCreationFunction ∨
      ∃ p type, (d.apiParams ctx.config).head? = some p ∧ p.declaration.typeName = some type ∧
        Handle.AtInstance handles (ctx.aliases.resolve type) := by
  obtain ⟨vars, hvars, rfl⟩ := eq_of_ofCommand h
  rw [← exists_typeId_iff hvars]
  exact dispatchOf_eq_iff

theorem type_eq_dispatch {ctx : Declaration.Context} {handles : OrderedMap Handle} {d : CommandDef}
    {f : Function} (h : ofCommand ctx handles d = .ok f) : f.type = f.dispatch := by
  obtain ⟨vars, -, rfl⟩ := eq_of_ofCommand h
  rfl

theorem dispatch_retype (extensions : List Extension) (f : Function) :
    (f.retype extensions).dispatch = f.dispatch := by
  rw [retype_eq]

end Function

/-! ### The registry -/

/-- How a function is dispatched: through the instance if it creates the instance or its first
parameter for the API is a handle at the instance.  It is one of the instance if it is dispatched so
or an instance extension lists it. -/
structure Function.Dispatched (config : Config) (doc : Document) (r : Registry) (f : Function) :
    Prop where
  dispatch_iff : ∃ d ∈ doc.keptCommands config, d.prototype.name = f.name ∧
    (f.dispatch = .viaInstance ↔ f.name = config.instanceCreationFunction ∨
      ∃ p type, (d.apiParams config).head? = some p ∧ p.declaration.typeName = some type ∧
        Handle.AtInstance r.handles (r.aliases.resolve type))
  type_iff : f.type = .viaInstance ↔ f.dispatch = .viaInstance ∨
    ∃ e ∈ r.extensions.values, e.kind = some .viaInstance ∧ f.name ∈ e.functions

namespace Registry

/-- All that decides how a function is dispatched is read off the finished registry. -/
theorem Resolves.dispatched {config : Config} {doc : Document} {types : List TypeEntity}
    {functions : List Function} {r : Registry} (h : Resolves config doc types functions r)
    {f : Function} (hf : f ∈ r.functions.values) : f.Dispatched config doc r := by
  obtain ⟨d, hd, f₀, hcommand, rfl⟩ := h.exists_command hf
  have hdispatch := Function.dispatch_eq_iff hcommand
  have htype := Function.type_eq_dispatch hcommand
  rw [h.context_eq] at hdispatch
  refine ⟨⟨d, hd, ?_, ?_⟩, ?_⟩
  · rw [Function.name_retype, Function.name_of_ofCommand hcommand]
  · rw [Function.name_retype, Function.dispatch_retype]
    exact hdispatch
  · rw [Function.name_retype, Function.dispatch_retype, Function.type_retype_iff, htype]

/-- In a resolved registry every function is dispatched by its first parameter and typed by the
extensions that list it, where a handle has the first parent that its type lists.  If no two
declarations share a name, the order of types, commands and extensions makes no difference. -/
theorem build_dispatch {config : Config} {doc : Document} {r : Registry}
    (h : build config doc = .ok r) :
    (∀ f ∈ r.functions.values, f.Dispatched config doc r) ∧
      (∀ name x, r.handles.get? name = some x → ∃ t ∈ doc.keptTypes config,
        t.name = name ∧ t.category = .handle ∧ x.parent = t.decl.parent.map beforeComma ∧
          (x.dispatchable = true ↔ t.decl.codeType? = some "VK_DEFINE_HANDLE")) ∧
      (doc.NamedApart config → ∀ doc', doc.Shuffles doc' →
        ∃ r', build config doc' = .ok r' ∧ r.functions.values.Perm r'.functions.values) := by
  obtain ⟨types, functions, h⟩ := build_eq_ok_iff.1 h
  refine ⟨fun f => h.dispatched, fun name x => h.exists_handle, fun hn doc' hs => ?_⟩
  obtain ⟨types', functions', r', h', hp⟩ := h.exists_shuffled hs hn
  exact ⟨r', build_eq_ok_iff.2 ⟨types', functions', h'⟩, hp⟩

/-- A handle without a parent, two below it of which only one is dispatchable, one further down, and
other names for the second and the first. -/
def deviceHandles : List TypeDecl :=
  let handle (name macroName : String) (parent : Option String) : TypeDecl :=
    ⟨none, none, none, none, some "handle", parent, none, none,
      .code (macroName ++ "(" ++ name ++ ")") [.type macroName, .name name]⟩
  [handle "Device" "VK_DEFINE_HANDLE" (some "Adapter,Surface"),
    handle "Adapter" "VK_DEFINE_HANDLE" (some "Instance,Device"),
    handle "Surface" "VK_DEFINE_NON_DISPATCHABLE_HANDLE" (some "Instance"),
    handle "Instance" "VK_DEFINE_HANDLE" none,
    ⟨some "Gpu", some "Adapter", none, none, some "handle", none, none, none, .empty⟩,
    ⟨some "Screen", some "Surface", none, none, some "handle", none, none, none, .empty⟩]

/-- Commands with a handle as their first parameter, but for one of another API. -/
def deviceCommands : List Command :=
  let param (type : String) (api : Option String) : Param :=
    ⟨none, api, ⟨"x", some type, type ++ " x"⟩⟩
  let command (name : String) (params : List Param) : Command :=
    .definition ⟨⟨name, some "void", "void " ++ name⟩, params, none⟩
  [command "vkCreateInstance" [param "Info" none],
    command "queryGpu" [param "Device" (some "other"), param "Gpu" none],
    command "showSurface" [param "Screen" none],
    command "waitDevice" [param "Device" none]]

/-- An extension of the instance that lists a function of the device. -/
def surfaceExtension : ExtensionDecl :=
  ⟨"surface", some 1, none, none, some "instance", none, none, none,
    [⟨none, [.command "showSurface"]⟩]⟩

/-- The extension comes first, and each handle before its parent. -/
def devices : Document :=
  [.extensions [surfaceExtension], .commands deviceCommands, .types deviceHandles]

/-- The same declarations, with each list turned around and each block in another place. -/
def devicesReversed : Document :=
  [.types deviceHandles.reverse, .commands deviceCommands.reverse, .extensions [surfaceExtension]]

/-- The second command has its handle behind a parameter of another API, the third has one whose
parent is not at the root, and is listed by the extension. Nothing changes in the other order. -/
theorem build_dispatch_devices :
    ∃ r r', build Config.default devices = .ok r ∧ build Config.default devicesReversed = .ok r' ∧
      r.functions.values.map (fun f => (f.name, f.dispatch, f.type)) =
        [("vkCreateInstance", .viaInstance, .viaInstance),
          ("queryGpu", .viaInstance, .viaInstance), ("showSurface", .viaDevice, .viaInstance),
          ("waitDevice", .viaDevice, .viaDevice)] ∧
      (∀ f ∈ r.functions.values, f.Dispatched Config.default devices r) ∧
      r.functions.values.Perm r'.functions.values := by
  have hf : (build Config.default devices).toOption.map
      (fun r => r.functions.values.map fun f => (f.name, f.dispatch, f.type)) =
      some [("vkCreateInstance", .viaInstance, .viaInstance),
        ("queryGpu", .viaInstance, .viaInstance), ("showSurface", .viaDevice, .viaInstance),
        ("waitDevice", .viaDevice, .viaDevice)] := by
    decide +kernel
  have hapart : devices.NamedApart Config.default := ⟨by decide +kernel, by decide +kernel⟩
  -- the two aliases are listed in another order
  have haliases : devices.aliases.entries.Perm devicesReversed.aliases.entries := by
    decide +kernel
  have hshuffles : devices.Shuffles devicesReversed :=
    ⟨rfl, rfl, rfl, fun name => (OrderedMap.get?_eq_of_perm haliases name).symm,
      by decide +kernel, by decide +kernel, .refl _⟩
  obtain ⟨r, h, hf⟩ := toOption_map_eq_some_iff.1 hf
  obtain ⟨hdispatched, -, horder⟩ := build_dispatch h
  obtain ⟨r', h', hp⟩ := horder hapart _ hshuffles
  exact ⟨r, r', h, h', hf, hdispatched, hp⟩

end Registry

end ApiStencil
