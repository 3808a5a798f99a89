/-
ApiStencil/Proofs/Registry/Owner.lean

Which extension a name belongs to.  Extensions are introduced one after the other,
and each takes over the names it lists from guarded extensions if it needs no guard
itself (`introduce`).  What comes out does not depend on these steps: a name belongs
to the first extension without a guard that lists it, and if there is none, to the
first that lists it (`ownerIn`).

Main statement: `build_owned`.  Its last part says that the order of extensions does
not decide whether a name is guarded, since that holds exactly if every extension
that lists the name is (`any_isGuarded_ownerIn`).

A step says of one extension what it does to the owner of a name
(`get?_foldl_introduce`, `ownerIn_append_singleton`); the run is an induction on the
extensions from the last one, because a name's owner is a property of those in front.
-/
import ApiStencil.Proofs.Distinct
import ApiStencil.Proofs.Registry.Resolved
import Mathlib.Data.List.Induction

namespace ApiStencil

open Document

namespace Extension

/-! ### The owner of a name -/

section Owner

variable (names : Extension → List String)

/-- The first extension without a guard that lists `name`, or else the first that lists it. -/
def ownerIn (l : List Extension) (name : String) : Option Extension :=
  (l.find? fun e => name ∈ names e ∧ e.isGuarded = false).or (l.find? fun e => name ∈ names e)

variable {names} {l : List Extension} {name : String}

/-- An extension without a guard that lists the name. -/
theorem ownerIn_of_unguarded {o : Extension}
    (h : (l.find? fun e => name ∈ names e ∧ e.isGuarded = false) = some o) :
    ownerIn names l name = some o ∧ o ∈ l ∧ name ∈ names o ∧ o.isGuarded = false := by
  have ho : name ∈ names o ∧ o.isGuarded = false := by simpa using List.find?_some h
  have hl : ownerIn names l name = some o := by
    rw [ownerIn, h]
    rfl
  exact ⟨hl, List.mem_of_find?_eq_some h, ho⟩

/-- If no extension without a guard lists the name, all that list it are guarded. -/
theorem isGuarded_of_none
    (h : (l.find? fun e => name ∈ names e ∧ e.isGuarded = false) = none) {o : Extension}
    (ho : o ∈ l) (hn : name ∈ names o) : o.isGuarded = true := by
  have hf := List.find?_eq_none.1 h o ho
  rw [decide_eq_true_iff, not_and, Bool.not_eq_false] at hf
  exact hf hn

/-- The owner of a name is an extension that lists it. -/
theorem mem_of_ownerIn {o : Extension} (h : ownerIn names l name = some o) :
    o ∈ l ∧ name ∈ names o := by
  rw [ownerIn, Option.or_eq_some_iff] at h
  rcases h with h | ⟨-, h⟩
  · obtain ⟨-, ho, hn, -⟩ := ownerIn_of_unguarded h
    exact ⟨ho, hn⟩
  · exact ⟨List.mem_of_find?_eq_some h, by simpa using List.find?_some h⟩

/-- A name has an owner if it is listed. -/
theorem isSome_ownerIn : (ownerIn names l name).isSome = true ↔ ∃ e ∈ l, name ∈ names e := by
  constructor
  · intro h
    obtain ⟨e, he⟩ := Option.isSome_iff_exists.1 h
    exact ⟨e, mem_of_ownerIn he⟩
  · rintro ⟨e, he, hn⟩
    have hf : (l.find? fun e => decide (name ∈ names e)).isSome = true :=
      List.find?_isSome.2 ⟨e, he, decide_eq_true hn⟩
    rw [ownerIn, Option.isSome_or, hf, Bool.or_true]

variable {e : Extension}

theorem find?_append_of_pos {p : Extension → Bool} (h : p e = true) :
    (l ++ [e]).find? p = (l.find? p).or (some e) := by
  rw [List.find?_append, List.find?_singleton, if_pos h]

theorem find?_append_of_neg {p : Extension → Bool} (h : p e = false) :
    (l ++ [e]).find? p = l.find? p := by
  rw [List.find?_append, List.find?_singleton, h, if_neg Bool.false_ne_true, Option.or_none]

/-- An extension that does not list the name does not matter. -/
theorem ownerIn_append_of_not_mem (hn : name ∉ names e) :
    ownerIn names (l ++ [e]) name = ownerIn names l name := by
  have hu : ¬ (name ∈ names e ∧ e.isGuarded = false) := fun h => hn h.1
  rw [ownerIn, find?_append_of_neg (decide_eq_false hu), find?_append_of_neg (decide_eq_false hn),
    ← ownerIn]

/-- A guarded extension only gets names that are new. -/
theorem ownerIn_append_of_guarded (hn : name ∈ names e) (hg : e.isGuarded = true) :
    ownerIn names (l ++ [e]) name = (ownerIn names l name).or (some e) := by
  have hu : ¬ (name ∈ names e ∧ e.isGuarded = false) := by
    rw [hg]
    exact fun h => Bool.noConfusion h.2
  rw [ownerIn, find?_append_of_neg (decide_eq_false hu), find?_append_of_pos (decide_eq_true hn),
    ← Option.or_assoc, ← ownerIn]

/-- One without a guard gets all names but those of another without a guard. -/
theorem ownerIn_append_of_unguarded (hn : name ∈ names e) (hg : e.isGuarded = false) :
    ownerIn names (l ++ [e]) name =
      (l.find? fun e => name ∈ names e ∧ e.isGuarded = false).or (some e) := by
  rw [ownerIn, find?_append_of_pos (decide_eq_true ⟨hn, hg⟩), Option.or_assoc, Option.some_or]

/-- The owner needs a guard exactly if all extensions do that list the name. -/
theorem any_isGuarded_ownerIn :
    (ownerIn names l name).any isGuarded = true ↔
      (∃ e ∈ l, name ∈ names e) ∧ ∀ e ∈ l, name ∈ names e → e.isGuarded = true := by
  cases hu : l.find? fun e => decide (name ∈ names e ∧ e.isGuarded = false) with
  | some o =>
    obtain ⟨hl, ho, hn, hg⟩ := ownerIn_of_unguarded hu
    rw [hl, Option.any_some, hg]
    constructor
    · intro h
      cases h
    · rintro ⟨-, h⟩
      exact hg.symm.trans (h o ho hn)
  | none =>
    have hall : ∀ e ∈ l, name ∈ names e → e.isGuarded = true := fun e => isGuarded_of_none hu
    rw [← isSome_ownerIn]
    cases ho : ownerIn names l name with
    | none => simp
    | some o =>
      obtain ⟨hm, hn⟩ := mem_of_ownerIn ho
      rw [Option.any_some, hall o hm hn]
      exact ⟨fun _ => ⟨rfl, hall⟩, fun _ => rfl⟩

end Owner

/-! ### One extension -/

/-- The name of the owner after `e` has introduced the name. -/
def successor (extensions : OrderedMap Extension) (e : Extension) : Option String → String
  | some owner =>
    if e.isGuarded ∨ !(extensions.get? owner).any isGuarded then owner else e.name
  | none => e.name

section Step

variable (extensions : OrderedMap Extension) (e : Extension)

/-- Introducing a name twice is introducing it once. -/
theorem successor_successor (owner? : Option String) :
    successor extensions e (some (successor extensions e owner?)) =
      successor extensions e owner? := by
  cases owner? with
  | none => exact ite_self _
  | some owner =>
    by_cases h : e.isGuarded ∨ !(extensions.get? owner).any isGuarded
    · have hs : successor extensions e (some owner) = owner := if_pos h
      rw [hs, hs]
    · have hs : successor extensions e (some owner) = e.name := if_neg h
      rw [hs]
      exact ite_self _

/-- Introducing a name changes the owner of this name only. -/
theorem get?_introduce (m : OrderedMap String) (k name : String) :
    (introduce extensions e m k).get? name =
      if k = name then some (successor extensions e (m.get? name)) else m.get? name := by
  rw [introduce]
  cases hk : m.get? k with
  | none =>
    rw [OrderedMap.get?_insert]
    split
    · next hn => rw [← hn, hk, successor]
    · rfl
  | some owner =>
    dsimp only
    -- the owner keeps the name if the new extension is guarded or the owner is not
    by_cases h : e.isGuarded ∨ !(extensions.get? owner).any isGuarded
    · rw [if_pos h]
      split
      · next hn => rw [← hn, hk, successor, if_pos h]
      · rfl
    · rw [if_neg h, OrderedMap.get?_insert]
      split
      · next hn => rw [← hn, hk, successor, if_neg h]
      · rfl

/-- Introducing several names changes the owner of each of them, once. -/
theorem get?_foldl_introduce (l : List String) (m : OrderedMap String) (name : String) :
    (l.foldl (introduce extensions e) m).get? name =
      if name ∈ l then some (successor extensions e (m.get? name)) else m.get? name := by
  induction l generalizing m with
  | nil => rfl
  | cons k r ih =>
    rw [List.foldl_cons, ih, get?_introduce]
    by_cases hk : k = name
    · rw [if_pos hk, if_pos (List.mem_cons.2 (.inl hk.symm)), successor_successor, ite_self]
    · have hm : name ∈ k :: r ↔ name ∈ r := by
        rw [List.mem_cons]
        exact or_iff_right (Ne.symm hk)
      rw [if_neg hk]
      simp only [hm]

end Step

section Run

variable {names : Extension → List String} {extensions : OrderedMap Extension}

/-- A further extension becomes the owner of a name by the rule that `introduce` follows. -/
theorem ownerIn_append_singleton {l : List Extension} {e : Extension}
    (h : ∀ o ∈ l, extensions.get? o.name = some o) (name : String) :
    (ownerIn names (l ++ [e]) name).map Extension.name =
      if name ∈ names e then
        some (successor extensions e ((ownerIn names l name).map Extension.name))
      else (ownerIn names l name).map Extension.name := by
  by_cases hn : name ∈ names e
  · rw [if_pos hn]
    -- a guarded extension gets new names only; one without a guard takes the name from a guarded
    -- owner
    cases hg : e.isGuarded with
    | true =>
      rw [ownerIn_append_of_guarded hn hg]
      cases ownerIn names l name with
      | none => rfl
      | some o => rw [Option.some_or, Option.map_some, successor, hg, if_pos (.inl rfl)]
    | false =>
      rw [ownerIn_append_of_unguarded hn hg]
      cases hu : l.find? fun e => decide (name ∈ names e ∧ e.isGuarded = false) with
      | some o =>
        obtain ⟨hl, ho, -, hog⟩ := ownerIn_of_unguarded hu
        rw [hl, Option.some_or, Option.map_some, successor, h o ho, Option.any_some, hog,
          if_pos (.inr rfl)]
      | none =>
        rw [Option.none_or, Option.map_some]
        cases hl : ownerIn names l name with
        | none => rfl
        | some o =>
          obtain ⟨ho, hn⟩ := mem_of_ownerIn hl
          have hog : o.isGuarded = true := isGuarded_of_none hu ho hn
          rw [Option.map_some, successor, h o ho, Option.any_some, hg, hog, if_neg (by decide)]
  · rw [if_neg hn, ownerIn_append_of_not_mem hn]

/-- After a run over extensions, each name belongs to its owner among them. -/
theorem get?_foldl_owners {l : List Extension} (h : ∀ o ∈ l, extensions.get? o.name = some o)
    (name : String) :
    (l.foldl (fun m e => (names e).foldl (introduce extensions e) m) ∅).get? name =
      (ownerIn names l name).map Extension.name := by
  induction l using List.reverseRecOn with
  | nil => rfl
  | append_singleton l e ih =>
    have hl : ∀ o ∈ l, extensions.get? o.name = some o := fun o ho =>
      h o (List.mem_append_left [e] ho)
    rw [List.foldl_append, List.foldl_cons, List.foldl_nil, get?_foldl_introduce, ih hl,
      ownerIn_append_singleton hl]

theorem get?_owners (h : ∀ o ∈ extensions.values, extensions.get? o.name = some o)
    (name : String) :
    (owners names extensions).get? name =
      (ownerIn names extensions.values name).map Extension.name :=
  get?_foldl_owners h name

end Run

/-- A map from names to extensions, each of which lists the name: the first that needs no guard, or
else the first. -/
structure Owned (names : Extension → List String) (extensions : OrderedMap Extension)
    (owners : OrderedMap String) : Prop where
  mem_keys_iff : ∀ name, name ∈ owners.keys ↔ ∃ e ∈ extensions.values, name ∈ names e
  get?_eq : ∀ name,
    owners.get? name = (ownerIn names extensions.values name).map Extension.name
  registered : ∀ owner ∈ owners.values, owner ∈ extensions.keys
  guarded_iff : ∀ name,
    ((owners.get? name).bind extensions.get?).any isGuarded = true ↔
      (∃ e ∈ extensions.values, name ∈ names e) ∧
        ∀ e ∈ extensions.values, name ∈ names e → e.isGuarded = true

/-- The map of owners has all that is said of it: its keys are the names that are listed, and
whether a name is guarded depends on all that list it. -/
theorem owned_owners (names : Extension → List String) {extensions : OrderedMap Extension}
    (h : ∀ e ∈ extensions.values, extensions.get? e.name = some e) :
    Owned names extensions (owners names extensions) where
  mem_keys_iff := by
    intro name
    rw [← OrderedMap.contains_iff_mem_keys, OrderedMap.contains, get?_owners h,
      Option.isSome_map, isSome_ownerIn]
  get?_eq := get?_owners h
  registered := by
    intro owner ho
    obtain ⟨⟨name, _⟩, he, rfl⟩ := List.mem_map.1 ho
    rw [← OrderedMap.get?_eq_some_iff_mem, get?_owners h, Option.map_eq_some_iff] at he
    obtain ⟨e, he, rfl⟩ := he
    rw [← OrderedMap.contains_iff_mem_keys, OrderedMap.contains, h e (mem_of_ownerIn he).1]
    rfl
  guarded_iff := by
    intro name
    have hb : ((owners names extensions).get? name).bind extensions.get? =
        ownerIn names extensions.values name := by
      rw [get?_owners h]
      cases ho : ownerIn names extensions.values name with
      | none => rfl
      | some o => exact h o (mem_of_ownerIn ho).1
    rw [hb, any_isGuarded_ownerIn]

/-- The same extensions in another order guard the same names. -/
theorem Owned.guarded_perm {names : Extension → List String}
    {extensions extensions' : OrderedMap Extension} {owners owners' : OrderedMap String}
    (h : Owned names extensions owners) (h' : Owned names extensions' owners')
    (hp : extensions.values.Perm extensions'.values) (name : String) :
    ((owners.get? name).bind extensions.get?).any isGuarded =
      ((owners'.get? name).bind extensions'.get?).any isGuarded := by
  rw [Bool.eq_iff_iff, h.guarded_iff, h'.guarded_iff]
  simp only [hp.mem_iff]

end Extension

/-! ### The order of extensions -/

/-- The two documents differ in the order of their extensions only. -/
structure Document.Reorders (doc doc' : Document) : Prop where
  platforms_eq : doc'.platforms = doc.platforms
  types_eq : doc'.types = doc.types
  enumGroups_eq : doc'.enumGroups = doc.enumGroups
  commands_eq : doc'.commands = doc.commands
  features_eq : doc'.features = doc.features
  extensions_perm : doc.extensions.Perm doc'.extensions

namespace Document.Reorders

variable {config : Config} {doc doc' : Document} (h : doc.Reorders doc')

include h

theorem aliases_eq : doc'.aliases = doc.aliases := by
  simp only [aliases, h.types_eq, h.commands_eq]

theorem context_eq : doc'.context config = doc.context config := by
  simp only [context, h.aliases_eq, constants, h.enumGroups_eq]

theorem keptTypes_eq : doc'.keptTypes config = doc.keptTypes config := by
  simp only [keptTypes, namedTypes, h.aliases_eq, h.types_eq]

theorem keptGroups_eq : doc'.keptGroups config = doc.keptGroups config := by
  simp only [keptGroups, namedGroups, typeKeys, h.keptTypes_eq, h.aliases_eq, h.enumGroups_eq]

theorem keptCommands_eq : doc'.keptCommands config = doc.keptCommands config := by
  simp only [keptCommands, namedCommands, definitions, typeKeys, groupKeys, h.keptTypes_eq,
    h.keptGroups_eq, h.aliases_eq, h.commands_eq]

/-- An extension becomes the same entity, for it looks for its platform only. -/
theorem ofDecl_eq : Extension.ofDecl config doc' = Extension.ofDecl config doc :=
  Extension.ofDecl_congr h.platforms_eq config

/-- Extensions of different names are all kept, so the kept ones are reordered too. -/
theorem keptExtensions_perm (hn : (doc.extensions.map ExtensionDecl.name).Nodup) :
    (doc.keptExtensions config).Perm (doc'.keptExtensions config) := by
  have hn' : (doc'.extensions.map ExtensionDecl.name).Nodup :=
    (h.extensions_perm.map _).nodup_iff.1 hn
  rw [keptExtensions_eq_filter config doc hn, keptExtensions_eq_filter config doc' hn']
  exact h.extensions_perm.filter _

/-- What is resolved does not depend on the order of the extensions, only how it is linked. -/
theorem resolves {types : List TypeEntity} {functions : List Function} {r : Registry}
    (hr : Registry.Resolves config doc types functions r) :
    Registry.Resolves config doc' types functions
      (Registry.link config doc' types functions) where
  types_ok := by
    rw [h.keptTypes_eq, h.context_eq]
    exact hr.types_ok
  functions_ok := by
    have hh : (Registry.link config doc' types functions).handles = r.handles := by
      rw [hr.handles_eq]
      rfl
    rw [h.keptCommands_eq, h.context_eq, hh]
    exact hr.functions_ok
  link_eq := rfl

end Document.Reorders

/-! ### The registry -/

namespace Registry

/-- In a resolved registry every name that a kept extension lists belongs to the first one that
needs no guard, or else to the first.  If the names of the extensions differ, their order does not
decide which names are guarded. -/
theorem build_owned {config : Config} {doc : Document} {r : Registry}
    (h : build config doc = .ok r) :
    r.extensions.values = (doc.keptExtensions config).map (Extension.ofDecl config doc) ∧
      Extension.Owned Extension.functions r.extensions r.extensionFunctions ∧
      Extension.Owned Extension.types r.extensions r.extensionTypes ∧
      ((doc.extensions.map ExtensionDecl.name).Nodup → ∀ doc', doc.Reorders doc' →
        ∃ r', build config doc' = .ok r' ∧ ∀ name,
          (r.extensionForFunction? name).any Extension.isGuarded =
              (r'.extensionForFunction? name).any Extension.isGuarded ∧
            (r.extensionForType? name).any Extension.isGuarded =
              (r'.extensionForType? name).any Extension.isGuarded) := by
  obtain ⟨types, functions, h⟩ := build_eq_ok_iff.1 h
  have howned {doc : Document} {r : Registry} (h : Resolves config doc types functions r) :
      Extension.Owned Extension.functions r.extensions r.extensionFunctions ∧
        Extension.Owned Extension.types r.extensions r.extensionTypes := by
    rw [h.extensionFunctions_eq, h.extensionTypes_eq]
    exact ⟨Extension.owned_owners _ fun _ => h.get?_extensions,
      Extension.owned_owners _ fun _ => h.get?_extensions⟩
  obtain ⟨hfunctions, htypes⟩ := howned h
  refine ⟨h.values_extensions, hfunctions, htypes, ?_⟩
  intro hn doc' hr
  have h' := hr.resolves h
  obtain ⟨hfunctions', htypes'⟩ := howned h'
  have hp : r.extensions.values.Perm (link config doc' types functions).extensions.values := by
    rw [h.values_extensions, h'.values_extensions, hr.ofDecl_eq]
    exact (hr.keptExtensions_perm hn).map _
  refine ⟨_, build_eq_ok_iff.2 ⟨types, functions, h'⟩, fun name => ⟨?_, ?_⟩⟩
  · exact hfunctions.guarded_perm hfunctions' hp name
  · exact htypes.guarded_perm htypes' hp name

/-- Two guarded extensions that list `f` and `g`. -/
def guardedX : ExtensionDecl :=
  ⟨"X", some 1, some "GX", none, none, none, none, none, [⟨none, [.command "f", .command "g"]⟩]⟩

/-- The same names in a second guarded extension, the other way around. -/
def guardedY : ExtensionDecl :=
  ⟨"Y", some 2, some "GY", none, none, none, none, none, [⟨none, [.command "g", .command "f"]⟩]⟩

/-- An extension without a guard that lists `f`. -/
def openZ : ExtensionDecl :=
  ⟨"Z", some 3, none, none, none, none, none, none, [⟨none, [.command "f"]⟩]⟩

/-- In another order `g` belongs to another extension, and is guarded as before. -/
theorem build_owned_shared :
    ∃ r r', build Config.default [.extensions [guardedX, guardedY, openZ]] = .ok r ∧
      build Config.default [.extensions [openZ, guardedY, guardedX]] = .ok r' ∧
      r.extensionFunctions.entries = [("f", "Z"), ("g", "X")] ∧
      r'.extensionFunctions.entries = [("f", "Z"), ("g", "Y")] ∧
      Extension.Owned Extension.functions r.extensions r.extensionFunctions ∧
      ∀ name, (r.extensionForFunction? name).any Extension.isGuarded =
        (r'.extensionForFunction? name).any Extension.isGuarded := by
  have hf : (build Config.default [.extensions [guardedX, guardedY, openZ]]).toOption.map
      (fun r => r.extensionFunctions.entries) = some [("f", "Z"), ("g", "X")] := by
    decide +kernel
  have hf' : (build Config.default [.extensions [openZ, guardedY, guardedX]]).toOption.map
      (fun r => r.extensionFunctions.entries) = some [("f", "Z"), ("g", "Y")] := by
    decide +kernel
  have hreorders : Document.Reorders [.extensions [guardedX, guardedY, openZ]]
      [.extensions [openZ, guardedY, guardedX]] :=
    ⟨rfl, rfl, rfl, rfl, rfl, by decide⟩
  obtain ⟨r, h, hf⟩ := toOption_map_eq_some_iff.1 hf
  obtain ⟨-, howned, -, horder⟩ := build_owned h
  obtain ⟨r', h', hguarded⟩ := horder (by decide) _ hreorders
  rw [h'] at hf'
  exact ⟨r, r', h, h', hf, Option.some.inj hf', howned, fun name => (hguarded name).1⟩

end Registry

end ApiStencil
