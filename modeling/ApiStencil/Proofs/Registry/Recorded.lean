/-
ApiStencil/Proofs/Registry/Recorded.lean

What extensions record of the options that they add.  An option that an extension
requires goes to two places: the record of the extension, under the name by which it
calls the enumeration, and the enumeration itself, which can have several names.  Each
place keeps the first option of a name.

Main statement: what is recorded is an option of the enumeration, with the recorded value
unless the enumeration had one of that name before, and each option of an enumeration
comes from its group, from a feature or from a record (`build_recorded`).

Both places are read off the first declarations in the document: a record is the first
declaration under one name of the enumeration (`Extension.mem_recordedFor_iff`), an option the first
under any (`option?_enumerationOf`).
-/
import ApiStencil.Proofs.Registry.StructureType

namespace ApiStencil

open Document

/-! ### Who declares an option -/

namespace OptionDecl

/-- Whether a required enumerant is the option `name` of an enumeration that it calls by one of the
names that satisfy `p`. -/
def declares (p : String → Bool) (name : String) (d : OptionDecl) : Bool :=
  d.extended?.any p && d.name = name

/-- An enumerant declares an option if what it contributes has that name. -/
theorem any_contributed? (p : String → Bool) (name : String) (d : OptionDecl) :
    (d.contributed?.any fun c => p c.1 && c.2.name = name) = d.declares p name := by
  rw [declares, extended?_eq]
  cases hc : d.contributed? with
  | none => rfl
  | some c =>
    have hname := (gives_of_contributed? hc).1
    simp [hname]

/-- An enumerant that declares an option contributes it to an enumeration of the name by which it
calls it. -/
theorem declares_iff {p : String → Bool} {name : String} {d : OptionDecl} :
    d.declares p name = true ↔ ∃ base o, d.contributed? = some (base, o) ∧
      d.extended? = some base ∧ p base = true ∧ o.name = name ∧ d.name = name := by
  rw [declares, extended?_eq, Option.any_map, Bool.and_eq_true, Option.any_eq_true,
    decide_eq_true_iff]
  constructor
  · rintro ⟨⟨⟨base, o⟩, hc, hp⟩, hname⟩
    refine ⟨base, o, hc, ?_, hp, (gives_of_contributed? hc).1.trans hname, hname⟩
    rw [hc]
    rfl
  · rintro ⟨base, o, hc, -, hp, -, hname⟩
    exact ⟨⟨(base, o), hc, hp⟩, hname⟩

end OptionDecl

namespace Document

/-- The enumerants that a feature requires for the API. -/
def Feature.optionDecls (config : Config) (f : Feature) : List OptionDecl :=
  (requiredEnumerants config f.requires).map (⟨·, none⟩)

/-- The enumerants that an extension requires for the API. -/
def ExtensionDecl.optionDecls (config : Config) (x : ExtensionDecl) : List OptionDecl :=
  (requiredEnumerants config x.blocks).map (⟨·, x.number⟩)

theorem ExtensionDecl.options_eq (config : Config) (x : ExtensionDecl) :
    x.options config = (x.optionDecls config).filterMap OptionDecl.contributed? :=
  options_contributions config x.number x.blocks

/-- Whether an enumeration is called `base` somewhere: its name is at the end of the chain of
aliases of `base`. -/
def isCalled (doc : Document) (target base : String) : Bool :=
  doc.aliases.resolve base = target

end Document

/-- Whether the option `name` of the enumeration `target` is declared before the first item of an
extension that declares it under the name `base`: by the group of the enumeration, a feature, an
earlier extension, or an item of the extension itself under another name of the enumeration. -/
inductive DeclaredBefore (config : Config) (doc : Document) (x : ExtensionDecl)
    (base target name : String) : Prop
  | group {g : NamedGroup} {d : OptionDecl}
      (hgroup : doc.namedGroups.find? (·.name = target) = some g)
      (hitem : d ∈ g.decl.optionDecls config) (hname : d.name = name)
  | feature {f : Feature} {d : OptionDecl}
      (hfeature : f ∈ doc.features) (hapi : config.containsApi (some f.api) = true)
      (hitem : d ∈ f.optionDecls config) (hdeclares : d.declares (doc.isCalled target) name = true)
  | extension {before after : List ExtensionDecl} {y : ExtensionDecl} {d : OptionDecl}
      (hkept : doc.keptExtensions config = before ++ x :: after) (hearlier : y ∈ before)
      (hitem : d ∈ y.optionDecls config) (hdeclares : d.declares (doc.isCalled target) name = true)
  | item {before after : List OptionDecl} {d : OptionDecl}
      (hitems : x.optionDecls config = before ++ d :: after)
      (hdeclares : d.declares (doc.isCalled target) name = true)
      (hother : d.extended? ≠ some base)
      (hfirst : ∀ d' ∈ before, d'.extended? = some base → d'.name ≠ name)

/-- Where an option of an enumeration comes from. -/
inductive StemsFrom (config : Config) (doc : Document) (r : Registry) (e : Enumeration)
    (o : EnumOption) : Prop
  | group {g : NamedGroup} {d : OptionDecl}
      (hgroup : doc.namedGroups.find? (·.name = e.name) = some g)
      (hitem : d ∈ g.decl.optionDecls config) (hgives : d.Gives o)
  | feature {f : Feature} {d : OptionDecl}
      (hfeature : f ∈ doc.features) (hapi : config.containsApi (some f.api) = true)
      (hitem : d ∈ f.optionDecls config)
      (hdeclares : d.declares (doc.isCalled e.name) o.name = true) (hgives : d.Gives o)
  | recorded {x : Extension} {base : String} {recorded : List (String × Int)}
      (hextension : x ∈ r.extensions.values) (hbase : r.aliases.resolve base = e.name)
      (hrecorded : x.enumValues.get? base = some recorded) (hmem : (o.name, o.value) ∈ recorded)

/-! ### Records -/

namespace Extension

/-- The record of a contribution. -/
def recordOf (c : String × EnumOption) : String × Int :=
  (c.2.name, c.2.value)

/-- Recording an option adds it under its enumeration's name, unless there is one of its name. -/
theorem getD_recordOption (m : OrderedMap (List (String × Int))) (base key : String)
    (o : EnumOption) :
    ((recordOption m base o).get? key).getD [] =
      if base = key then addNew Prod.fst ((m.get? key).getD []) (o.name, o.value)
      else (m.get? key).getD [] := by
  rw [recordOption, OrderedMap.get?_insert]
  split
  · next h =>
    subst h
    simp only [Option.getD_some, addNew, List.any_eq_true, decide_eq_true_eq, List.mem_map]
  · rfl

/-- Recording options one after the other keeps the first of each name, for each name of an
enumeration on its own. -/
theorem getD_foldl_recordOption (l : List (String × EnumOption))
    (m : OrderedMap (List (String × Int))) (key : String) :
    ((l.foldl (fun m c => recordOption m c.1 c.2) m).get? key).getD [] =
      ((l.filter (·.1 = key)).map recordOf).foldl (addNew Prod.fst) ((m.get? key).getD []) := by
  induction l generalizing m with
  | nil => rfl
  | cons c r ih =>
    rw [List.foldl_cons, ih, getD_recordOption, List.filter_cons]
    by_cases h : c.1 = key
    · rw [if_pos h, if_pos (decide_eq_true h)]
      rfl
    · rw [if_neg h, if_neg (by simp [h])]

/-- What is recorded under a name of an enumeration. -/
def recordedFor (x : Extension) (base : String) : List (String × Int) :=
  (x.enumValues.get? base).getD []

/-- Recorded under a name is the first option of each name that the extension declares under it. -/
theorem recordedFor_ofDecl (config : Config) (doc : Document) (x : ExtensionDecl)
    (base : String) :
    (ofDecl config doc x).recordedFor base =
      firstPer Prod.fst [] (((x.options config).filter (·.1 = base)).map recordOf) := by
  show (((x.options config).foldl (fun m c => recordOption m c.1 c.2) ∅).get? base).getD [] = _
  rw [getD_foldl_recordOption, foldl_addNew]
  rfl

/-- An option is recorded under a name of an enumeration with the value of the first item that
declares it under that name. -/
theorem mem_recordedFor_iff {config : Config} {doc : Document} {x : ExtensionDecl}
    {base name : String} {value : Int} :
    (name, value) ∈ (ofDecl config doc x).recordedFor base ↔
      ∃ d o, (x.optionDecls config).find? (OptionDecl.declares (· = base) name) = some d ∧
        d.contributed? = some (base, o) ∧ o.value = value := by
  rw [recordedFor_ofDecl, mem_firstPer_iff, and_iff_right List.not_mem_nil, List.find?_map,
    List.find?_filter, ExtensionDecl.options_eq, List.find?_filterMap]
  have hdeclares : ∀ d : OptionDecl, (d.contributed?.any fun c =>
      decide (decide (c.1 = base) = true ∧ ((fun p => decide (p.1 = name)) ∘ recordOf) c = true)) =
        d.declares (· = base) name := by
    intro d
    rw [← d.any_contributed?]
    refine congrArg (Option.any · _) (funext fun c => ?_)
    by_cases hname : c.2.name = name <;> simp [hname, recordOf]
  simp only [hdeclares]
  constructor
  · intro h
    obtain ⟨c, hc, hrecord⟩ := Option.map_eq_some_iff.1 h
    obtain ⟨d, hd, hdc⟩ := Option.bind_eq_some_iff.1 hc
    obtain ⟨_, o, ho, -, hbase, -, -⟩ := OptionDecl.declares_iff.1 (List.find?_some hd)
    obtain rfl := of_decide_eq_true hbase
    cases hdc.symm.trans ho
    exact ⟨d, o, hd, ho, (Prod.mk.inj hrecord).2⟩
  · rintro ⟨d, o, hd, ho, rfl⟩
    obtain ⟨_, o', ho', -, -, hname, -⟩ := OptionDecl.declares_iff.1 (List.find?_some hd)
    cases ho.symm.trans ho'
    rw [hd, Option.bind_some, ho, ← hname]
    rfl

end Extension

/-! ### Options -/

namespace Document

variable {config : Config} {doc : Document}

/-- An enumeration has the option of a name that its group declares first, or else the one that a
feature or an extension does. -/
theorem option?_enumerationOf (g : NamedGroup) (name : String) :
    (doc.enumerationOf config g).option? name =
      ((g.decl.options config).find? (·.name = name)).or
        ((((doc.requiredDecls config).find? (OptionDecl.declares (doc.isCalled g.name) name)).bind
          OptionDecl.contributed?).map Prod.snd) := by
  have hdeclares : ∀ d : OptionDecl, (d.contributed?.any fun c =>
      decide (decide (doc.aliases.resolve c.1 = g.name) = true ∧
        ((fun o : EnumOption => decide (o.name = name)) ∘ Prod.snd) c = true)) =
        d.declares (doc.isCalled g.name) name := by
    intro d
    rw [← d.any_contributed?]
    refine congrArg (Option.any · _) (funext fun c => ?_)
    simp [isCalled]
  rw [Enumeration.option?, options_enumerationOf, find?_firstPer _ _ List.not_mem_nil,
    List.find?_append, List.find?_map, List.find?_filter, contributedOptions_eq,
    List.find?_filterMap]
  simp only [hdeclares]

/-- The first declaration that features and extensions make is one of a feature, or it is the first
of an extension and no earlier extension makes one. -/
theorem first_requiredDecls {p : OptionDecl → Bool} {d : OptionDecl}
    (h : (doc.requiredDecls config).find? p = some d) :
    (∃ f ∈ doc.features, config.containsApi (some f.api) = true ∧ d ∈ f.optionDecls config) ∨
      ∃ before y after, doc.keptExtensions config = before ++ y :: after ∧
        (y.optionDecls config).find? p = some d ∧
        ∀ z ∈ before, (z.optionDecls config).find? p = none := by
  have hdecls : doc.requiredDecls config =
      (doc.features.filter fun f => config.containsApi (some f.api)).flatMap
        (Feature.optionDecls config) ++
          (doc.keptExtensions config).flatMap (ExtensionDecl.optionDecls config) := rfl
  rw [hdecls, List.find?_append] at h
  rcases Option.or_eq_some_iff.1 h with hfeature | ⟨-, hextension⟩
  · obtain ⟨f, hf, hd⟩ := List.mem_flatMap.1 (List.mem_of_find?_eq_some hfeature)
    obtain ⟨hf, hapi⟩ := List.mem_filter.1 hf
    exact .inl ⟨f, hf, hapi, hd⟩
  · rw [List.find?_flatMap, List.findSome?_eq_some_iff] at hextension
    obtain ⟨before, y, after, hkept, hd, hbefore⟩ := hextension
    exact .inr ⟨before, y, after, hkept, hd, hbefore⟩

theorem mem_requiredDecls {x : ExtensionDecl} (hx : x ∈ doc.keptExtensions config) {d : OptionDecl}
    (hd : d ∈ x.optionDecls config) : d ∈ doc.requiredDecls config :=
  List.mem_append_right _ (List.mem_flatMap.2 ⟨x, hx, hd⟩)

end Document

/-! ### Records and options -/

/-- The first item that satisfies a condition is the first that satisfies a stronger one, if it
does. -/
theorem find?_eq_some_of_imp {α : Type} {p q : α → Bool} {l : List α} {a : α}
    (h : l.find? p = some a) (ha : q a = true) (hpq : ∀ b, q b = true → p b = true) :
    l.find? q = some a := by
  obtain ⟨-, front, back, hl, hfront⟩ := List.find?_eq_some_iff_append.1 h
  refine List.find?_eq_some_iff_append.2 ⟨ha, front, back, hl, fun b hb => ?_⟩
  have hp : p b ≠ true := by simpa using hfront b hb
  simpa using mt (hpq b) hp

namespace Document

variable {config : Config} {doc : Document} {g : NamedGroup}

/-- What is declared under one name of an enumeration is declared under some. -/
theorem declares_isCalled {base : String} (hbase : doc.aliases.resolve base = g.name)
    {name : String} (d : OptionDecl) (h : d.declares (· = base) name = true) :
    d.declares (doc.isCalled g.name) name = true := by
  obtain ⟨_, o, hd, hextended, hb, hname⟩ := OptionDecl.declares_iff.1 h
  obtain rfl := of_decide_eq_true hb
  exact OptionDecl.declares_iff.2 ⟨_, o, hd, hextended, decide_eq_true hbase, hname⟩

/-- Of the items of an extension, the first that declares an option under one name of its
enumeration is the first that does so under any, or another name comes before it. -/
theorem eq_or_declaredBefore {x : ExtensionDecl} {base name : String} {d d' : OptionDecl}
    (hbase : doc.aliases.resolve base = g.name)
    (hd : (x.optionDecls config).find? (OptionDecl.declares (· = base) name) = some d)
    (hd' : (x.optionDecls config).find? (OptionDecl.declares (doc.isCalled g.name) name) =
      some d') :
    d' = d ∨ DeclaredBefore config doc x base g.name name := by
  have hdeclares := List.find?_some hd'
  obtain ⟨base', o, ho, hextended, -, hname⟩ := OptionDecl.declares_iff.1 hdeclares
  -- the first item under any name uses the name `base`, or it comes before the first that does
  by_cases hb : base' = base
  · subst hb
    have hdeclares' : OptionDecl.declares (· = base') name d' = true :=
      OptionDecl.declares_iff.2 ⟨base', o, ho, hextended, decide_eq_true rfl, hname⟩
    have hsame := find?_eq_some_of_imp hd' hdeclares' (declares_isCalled hbase)
    exact .inl (Option.some.inj (hsame.symm.trans hd))
  · obtain ⟨-, front, back, hitems, hfront⟩ := List.find?_eq_some_iff_append.1 hd'
    refine .inr (.item hitems hdeclares ?_ fun d'' hd'' hextended'' hname'' => ?_)
    · rw [hextended]
      exact fun h => hb (Option.some.inj h)
    · have hnot : d''.declares (doc.isCalled g.name) name = false := by
        simpa using hfront d'' hd''
      rw [OptionDecl.declares, hextended'', hname''] at hnot
      simp [isCalled, hbase] at hnot

/-- What is recorded under a name of an enumeration is one of its options. -/
theorem exists_option_of_recorded {x : ExtensionDecl} (hx : x ∈ doc.keptExtensions config)
    (hg : doc.namedGroups.find? (·.name = g.name) = some g) {base name : String} {value : Int}
    (hbase : doc.aliases.resolve base = g.name)
    (hmem : (name, value) ∈ (Extension.ofDecl config doc x).recordedFor base) :
    ∃ o, (doc.enumerationOf config g).option? name = some o ∧
      (o.value = value ∨ DeclaredBefore config doc x base g.name name) := by
  obtain ⟨d, o, hd, ho, rfl⟩ := Extension.mem_recordedFor_iff.1 hmem
  have hdx : d ∈ x.optionDecls config := List.mem_of_find?_eq_some hd
  have hcalled := declares_isCalled hbase d (List.find?_some hd)
  rw [option?_enumerationOf]
  -- an option of the group's own counts before everything else
  cases hown : (g.decl.options config).find? (·.name = name) with
  | some o' =>
    obtain ⟨d', hd', hgives⟩ :=
      exists_of_forall₂ (forall₂_own config g.decl) (List.mem_of_find?_eq_some hown)
    have hname := List.find?_some hown
    have hname : o'.name = name := of_decide_eq_true hname
    exact ⟨o', rfl, .inr (.group hg hd' (hgives.1.symm.trans hname))⟩
  | none =>
    obtain ⟨d', hd'⟩ : ∃ d', (doc.requiredDecls config).find?
        (OptionDecl.declares (doc.isCalled g.name) name) = some d' :=
      Option.isSome_iff_exists.1 (List.find?_isSome.2 ⟨d, mem_requiredDecls hx hdx, hcalled⟩)
    have hdeclares := List.find?_some hd'
    obtain ⟨_, o', ho', -, -, -, -⟩ := OptionDecl.declares_iff.1 hdeclares
    refine ⟨o', by rw [hd', Option.bind_some, ho']; rfl, ?_⟩
    rcases first_requiredDecls hd' with ⟨f, hf, hapi, hitem⟩ | ⟨before, y, after, hkept, hy, hnone⟩
    · exact .inr (.feature hf hapi hitem hdeclares)
    · -- the extension that declares the option first is `x` itself or an earlier one
      rw [hkept] at hx
      rcases List.mem_append.1 hx with hx | hx
      · exact absurd hcalled (List.find?_eq_none.1 (hnone x hx) d hdx)
      · rcases List.mem_cons.1 hx with rfl | hx
        · refine (eq_or_declaredBefore hbase hd hy).imp_left ?_
          rintro rfl
          cases ho.symm.trans ho'
          rfl
        · obtain ⟨between, rest, rfl⟩ := List.append_of_mem hx
          have hearlier : doc.keptExtensions config = before ++ y :: between ++ x :: rest := by
            rw [hkept, List.append_assoc, List.cons_append]
          exact .inr (.extension hearlier (List.mem_append_right _ List.mem_cons_self)
            (List.mem_of_find?_eq_some hy) hdeclares)

/-- What is recorded of an extension is recorded in its entity. -/
theorem exists_recorded {x : Extension} {base : String} {p : String × Int}
    (h : p ∈ x.recordedFor base) : ∃ recorded, x.enumValues.get? base = some recorded ∧
      p ∈ recorded := by
  rw [Extension.recordedFor] at h
  cases hr : x.enumValues.get? base with
  | none =>
    rw [hr] at h
    cases h
  | some recorded =>
    rw [hr] at h
    exact ⟨recorded, rfl, h⟩

end Document

namespace Registry

/-- Whether the record of an extension, declared by `d`, agrees with the enumerations of a registry:
no name is recorded twice, and what is recorded is an option of the enumeration, with the recorded
value or one that was declared before. -/
structure RecordAgrees (config : Config) (doc : Document) (r : Registry) (d : ExtensionDecl)
    (x : Extension) : Prop where
  nodup : ∀ base recorded, x.enumValues.get? base = some recorded →
    (recorded.map Prod.fst).Nodup
  option : ∀ base recorded e name value, x.enumValues.get? base = some recorded →
    r.enums.get? (r.aliases.resolve base) = some e ∨
      r.bitmasks.get? (r.aliases.resolve base) = some e →
    (name, value) ∈ recorded → ∃ o, e.option? name = some o ∧
      (o.value = value ∨ DeclaredBefore config doc d base e.name name)

namespace Resolves

variable {config : Config} {doc : Document} {types : List TypeEntity} {functions : List Function}
  {r : Registry} (h : Resolves config doc types functions r)

include h

/-- The record of a kept extension agrees with the enumerations of the registry. -/
theorem recordAgrees {d : ExtensionDecl} (hd : d ∈ doc.keptExtensions config) :
    RecordAgrees config doc r d (Extension.ofDecl config doc d) where
  nodup base recorded hrecorded := by
    have hfor : (Extension.ofDecl config doc d).recordedFor base = recorded := by
      rw [Extension.recordedFor, hrecorded]
      rfl
    rw [← hfor, Extension.recordedFor_ofDecl]
    exact nodup_keys_firstPer _ _ _
  option base recorded e name value hrecorded he hmem := by
    obtain ⟨g, hg, hname, rfl⟩ : ∃ g, doc.namedGroups.find? (·.name = g.name) = some g ∧
        g.name = doc.aliases.resolve base ∧ e = doc.enumerationOf config g := by
      rw [h.aliases_eq, h.enums_eq, h.bitmasks_eq] at he
      rcases he with he | he <;>
        (obtain ⟨g, hg, hname, -, rfl⟩ := exists_group he
         exact ⟨g, hname ▸ hg, hname, rfl⟩)
    have hfor : (name, value) ∈ (Extension.ofDecl config doc d).recordedFor base := by
      rw [Extension.recordedFor, hrecorded]
      exact hmem
    rw [name_enumerationOf]
    exact exists_option_of_recorded hd hg hname.symm hfor

/-- An enumeration of a registry is that of the first group with its name. -/
theorem exists_enumerationOf {e : Enumeration}
    (he : e ∈ r.enums.values ++ r.bitmasks.values) :
    ∃ g, doc.namedGroups.find? (·.name = g.name) = some g ∧ e = doc.enumerationOf config g := by
  rw [h.enums_eq, h.bitmasks_eq] at he
  rcases List.mem_append.1 he with he | he <;>
    (obtain ⟨key, hkey⟩ := OrderedMap.exists_get?_of_mem_values _ he
     obtain ⟨g, hg, hname, -, rfl⟩ := exists_group hkey
     exact ⟨g, hname ▸ hg, rfl⟩)

/-- An option of an enumeration comes from its group, a feature or a record. -/
theorem stemsFrom {e : Enumeration} (he : e ∈ r.enums.values ++ r.bitmasks.values) {o : EnumOption}
    (ho : o ∈ e.options) : StemsFrom config doc r e o := by
  obtain ⟨g, hg, rfl⟩ := h.exists_enumerationOf he
  have hfind : (doc.enumerationOf config g).option? o.name = some o :=
    (Enumeration.option?_eq_some_iff (doc.nodup_options config g)).2 ⟨ho, rfl⟩
  have hname : (doc.enumerationOf config g).name = g.name := doc.name_enumerationOf config g
  rw [option?_enumerationOf] at hfind
  -- the option is the group's own, or the first that is declared elsewhere
  rcases Option.or_eq_some_iff.1 hfind with hown | ⟨-, hrequired⟩
  · obtain ⟨d, hd, hgives⟩ :=
      exists_of_forall₂ (forall₂_own config g.decl) (List.mem_of_find?_eq_some hown)
    exact .group (hname.symm ▸ hg) hd hgives
  · obtain ⟨⟨base, o⟩, hc, rfl⟩ := Option.map_eq_some_iff.1 hrequired
    obtain ⟨d, hd, hdc⟩ := Option.bind_eq_some_iff.1 hc
    have hdeclares := List.find?_some hd
    obtain ⟨_, _, hdc', hextended, hcalled, -, hdname⟩ := OptionDecl.declares_iff.1 hdeclares
    cases hdc.symm.trans hdc'
    rcases first_requiredDecls hd with ⟨f, hf, hapi, hitem⟩ | ⟨before, y, after, hkept, hy, -⟩
    · exact .feature hf hapi hitem (hname.symm ▸ hdeclares) (OptionDecl.gives_of_contributed? hdc)
    · -- the first declaration under any name of the enumeration is the first under its own
      have hbase : OptionDecl.declares (· = base) o.name d = true :=
        OptionDecl.declares_iff.2 ⟨base, o, hdc, hextended, decide_eq_true rfl, rfl, hdname⟩
      have hfirst := find?_eq_some_of_imp hy hbase fun d' hd' => by
        obtain ⟨base', o', ho', hextended', hb, hnames⟩ := OptionDecl.declares_iff.1 hd'
        obtain rfl := of_decide_eq_true hb
        exact OptionDecl.declares_iff.2 ⟨_, o', ho', hextended', hcalled, hnames⟩
      obtain ⟨recorded, hrecorded, hmem⟩ :=
        exists_recorded (Extension.mem_recordedFor_iff.2 ⟨d, o, hfirst, hdc, rfl⟩)
      have hvalues : Extension.ofDecl config doc y ∈ r.extensions.values := by
        rw [h.values_extensions, hkept]
        exact List.mem_map_of_mem (List.mem_append_right _ List.mem_cons_self)
      refine .recorded hvalues ?_ hrecorded hmem
      rw [h.aliases_eq, hname]
      exact of_decide_eq_true hcalled

end Resolves

/-- In a resolved registry the records of extensions agree with the enumerations: a name is recorded
once, what is recorded is an option, and it has the recorded value unless the option was declared
before.  Every option comes from its group, from a feature or from such a record. -/
theorem build_recorded {config : Config} {doc : Document} {r : Registry}
    (h : build config doc = .ok r) :
    (∀ x ∈ r.extensions.values, ∃ d ∈ doc.keptExtensions config, d.name = x.name ∧
      RecordAgrees config doc r d x) ∧
    ∀ e ∈ r.enums.values ++ r.bitmasks.values, ∀ o ∈ e.options, StemsFrom config doc r e o := by
  obtain ⟨types, functions, h⟩ := build_eq_ok_iff.1 h
  refine ⟨fun x hx => ?_, fun e he o ho => h.stemsFrom he ho⟩
  rw [h.values_extensions] at hx
  obtain ⟨d, hd, rfl⟩ := List.mem_map.1 hx
  exact ⟨d, hd, rfl, h.recordAgrees hd⟩

/-- Extensions that call an enumeration by both of its names, repeat options of its group, of a
feature, of each other and of their own, and add options to an enumeration that is nowhere. -/
def twiceCalled : Document :=
  let extension (name : String) (number : Int) (l : List Enumerant) : ExtensionDecl :=
    ⟨name, some number, none, none, none, none, none, none, [⟨none, l.map .enumerant⟩]⟩
  [.extensions [
      extension "X" 5 [
        ⟨"C", none, none, .offset 2 "Old" none true⟩,
        ⟨"C", none, none, .offset 3 "E" none true⟩,
        ⟨"A", none, none, .value "7" (some "E")⟩,
        ⟨"U", none, none, .value "1" (some "Unknown")⟩,
        ⟨"U", none, none, .value "2" (some "Unknown")⟩],
      extension "Y" 6 [
        ⟨"C", none, none, .value "9" (some "E")⟩,
        ⟨"F", none, none, .value "2" (some "Old")⟩,
        ⟨"D", none, none, .value "3" (some "E")⟩]],
    .types [⟨some "Old", some "E", none, none, none, none, none, none, .empty⟩],
    .enums ⟨some "E", some "enum", none, [⟨"A", none, none, .value "0x10" none⟩]⟩,
    .feature ⟨"vulkan", "VK_1", [⟨none, [.enumerant ⟨"F", none, none, .bit 0 (some "E")⟩]⟩]⟩]

/-- The options of enumerations with their values. -/
def optionValues (r : Registry) : List (List (String × Int)) :=
  r.enums.values.map fun e => e.options.map fun o => (o.name, o.value)

/-- The records of extensions. -/
def records (r : Registry) : List (List (String × List (String × Int))) :=
  r.extensions.values.map fun x => x.enumValues.entries

/-- The option that the first extension declares under both names is recorded twice, and the
enumeration has the first value. The second extension repeats it with a third one. -/
theorem build_recorded_twiceCalled :
    ∃ r, build Config.default twiceCalled = .ok r ∧
      records r =
        [[("Old", [("C", 1000004002)]), ("E", [("C", 1000004003), ("A", 7)]),
            ("Unknown", [("U", 1)])],
          [("E", [("C", 9), ("D", 3)]), ("Old", [("F", 2)])]] ∧
      optionValues r = [[("A", 16), ("F", 1), ("C", 1000004002), ("D", 3)]] ∧
      (∀ x ∈ r.extensions.values, ∃ d ∈ twiceCalled.keptExtensions Config.default,
        d.name = x.name ∧ RecordAgrees Config.default twiceCalled r d x) ∧
      ∀ e ∈ r.enums.values ++ r.bitmasks.values, ∀ o ∈ e.options,
        StemsFrom Config.default twiceCalled r e o := by
  have hrecords : (build Config.default twiceCalled).toOption.map records =
      some [[("Old", [("C", 1000004002)]), ("E", [("C", 1000004003), ("A", 7)]),
            ("Unknown", [("U", 1)])],
          [("E", [("C", 9), ("D", 3)]), ("Old", [("F", 2)])]] := by
    decide +kernel
  have hoptions : (build Config.default twiceCalled).toOption.map optionValues =
      some [[("A", 16), ("F", 1), ("C", 1000004002), ("D", 3)]] := by
    decide +kernel
  obtain ⟨r, h, hrecords⟩ := toOption_map_eq_some_iff.1 hrecords
  rw [h] at hoptions
  exact ⟨r, h, hrecords, Option.some.inj hoptions, build_recorded h⟩

end Registry

end ApiStencil
