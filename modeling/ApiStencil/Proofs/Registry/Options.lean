/-
ApiStencil/Proofs/Registry/Options.lean

The options of an enumeration.  They are declared in its own group, by features and
by extensions; a declaration is an enumerant together with the number of the
extension that requires it (`OptionDecl`).

Main statement: the options of an enumeration are those of its declarations, own
ones first, then those of features and then those of extensions, each in document
order and the first of each name only (`build_options`).  The value of an option is
that of the declaration that is kept (`Stands`).

An enumeration gets its options pushed one after the other, and pushing is keeping
the first of each name (`options_foldl_push`).  What is pushed corresponds to the
declarations one by one (`forall₂_own`, `forall₂_contributed`).
-/
import ApiStencil.Proofs.Distinct
import ApiStencil.Proofs.Registry.Resolved

namespace ApiStencil

open Document

/-! ### Declarations of options -/

/-- `Stands number v n`: for an extension with this number, the value `v` of an enumerant stands for
the integer `n`.  A bit is counted in a signed word of 64 bits, and an offset from the first value
that is reserved for the extension, which the enumerant may name itself. -/
inductive Stands (number : Option Int) : EnumerantValue → Int → Prop
  | integer {text base n} :
      Number.ofText? text.toList = some n → Stands number (.value text base) n
  | bit {position base n} :
      (position ≤ 63 → n = (1#64 <<< position).toInt) → Stands number (.bit position base) n
  | above {offset base extensionNumber k} :
      extensionNumber.or number = some k →
      Stands number (.offset offset base extensionNumber true)
        (1000000000 + 1000 * (k - 1) + offset)
  | below {offset base extensionNumber k} :
      extensionNumber.or number = some k →
      Stands number (.offset offset base extensionNumber false)
        (-(1000000000 + 1000 * (k - 1) + offset))

/-- An enumerant where it is declared. -/
structure OptionDecl where
  enumerant : Enumerant
  /-- The number of the extension that requires the enumerant. -/
  number : Option Int

namespace OptionDecl

/-- The name of the option. -/
def name (d : OptionDecl) : String := d.enumerant.name

/-- The declaration gives its name, its comment and its value to the option. -/
def Gives (d : OptionDecl) (o : EnumOption) : Prop :=
  o.name = d.name ∧ o.comment = d.enumerant.comment.getD "" ∧
    Stands d.number d.enumerant.value o.value

/-- The enumeration that a required enumerant extends.  Aliases of other enumerants, integers
that cannot be read and offsets without a number extend none. -/
def extended? (d : OptionDecl) : Option String :=
  match d.enumerant.value with
  | .value text base => if (Number.ofText? text.toList).isSome then base else none
  | .bit _ base => base
  | .offset _ base extensionNumber _ =>
    if (extensionNumber.or d.number).isSome then some base else none
  | _ => none

end OptionDecl

namespace Document

/-- Whether an enumerant carries an integer or the position of a bit. -/
def EnumerantValue.isNumber : EnumerantValue → Bool
  | .value text _ => (Number.ofText? text.toList).isSome
  | .bit _ _ => true
  | _ => false

/-- The options that a group declares for the API. -/
def EnumGroup.optionDecls (config : Config) (g : EnumGroup) : List OptionDecl :=
  (g.enumerants.filter fun e => config.containsApi e.api && e.value.isNumber).map (⟨·, none⟩)

/-- The enumerants that blocks require for the API. -/
def requiredEnumerants (config : Config) (blocks : List RequireBlock) : List Enumerant :=
  (blocks.filter fun b => config.containsApi b.api).flatMap fun b =>
    b.items.filterMap fun
      | .enumerant e => if config.containsApi e.api then some e else none
      | _ => none

/-- The enumerants that features and kept extensions require for the API. -/
def requiredDecls (config : Config) (doc : Document) : List OptionDecl :=
  ((doc.features.filter fun f => config.containsApi (some f.api)).flatMap fun f =>
      (requiredEnumerants config f.requires).map (⟨·, none⟩)) ++
    (doc.keptExtensions config).flatMap fun x =>
      (requiredEnumerants config x.blocks).map (⟨·, x.number⟩)

/-- The declarations of the options of the enumeration `name` with the group `g`: its own, and the
required ones that extend it under any of its names. -/
def optionDecls (config : Config) (doc : Document) (g : EnumGroup) (name : String) :
    List OptionDecl :=
  g.optionDecls config ++
    (doc.requiredDecls config).filter fun d =>
      d.extended?.any fun base => doc.aliases.resolve base = name

end Document

/-! ### Values -/

theorem Number.bit_eq_toInt {position : Nat} (h : position ≤ 63) :
    Number.bit position = (1#64 <<< position).toInt := by
  have hall : ∀ position < 64, Number.bit position = (1#64 <<< position).toInt := by
    decide +kernel
  exact hall position (Nat.lt_succ_of_le h)

/-- In its own group an enumerant counts if it carries a number. -/
theorem stands_of_option? {e : Enumerant} {o : EnumOption} (h : e.option? = some o) :
    OptionDecl.Gives ⟨e, none⟩ o := by
  obtain ⟨n, hn, rfl⟩ := Option.map_eq_some_iff.1 h
  refine ⟨rfl, rfl, ?_⟩
  cases hv : e.value with
  | value text base =>
    rw [hv] at hn
    exact .integer hn
  | bit position base =>
    rw [hv] at hn
    cases hn
    exact .bit Number.bit_eq_toInt
  | _ =>
    rw [hv] at hn
    cases hn

/-! ### Pushing -/

namespace Enumeration

/-- Pushing an option adds it unless there is one of its name. -/
theorem options_push (e : Enumeration) (o : EnumOption) :
    (e.push o).options = addNew EnumOption.name e.options o := by
  have hm : (e.option? o.name).isSome = true ↔ o.name ∈ e.options.map EnumOption.name := by
    rw [option?, List.find?_isSome, List.mem_map]
    simp only [decide_eq_true_iff]
  rw [push, addNew]
  simp only [hm]
  split <;> rfl

/-- Pushing options one after the other keeps the first of each name. -/
theorem options_foldl_push (l : List EnumOption) (e : Enumeration) :
    (l.foldl push e).options =
      e.options ++ firstPer EnumOption.name (e.options.map EnumOption.name) l := by
  rw [← List.foldl_hom options fun e o => (options_push e o).symm, foldl_addNew]

end Enumeration

/-! ### What is pushed -/

/-- What a map finds in a list corresponds to the items that are known to give something. -/
theorem forall₂_filterMap {α β γ : Type} {R : β → γ → Prop} {p : α → Bool} {f : α → β}
    {g : α → Option γ} (hp : ∀ a, p a = true ↔ (g a).isSome = true)
    (hR : ∀ a c, g a = some c → R (f a) c) (l : List α) :
    List.Forall₂ R ((l.filter p).map f) (l.filterMap g) := by
  induction l with
  | nil => exact .nil
  | cons a r ih =>
    -- an item that gives nothing is left out on both sides
    cases hg : g a with
    | none =>
      have ha : ¬ p a = true := by
        rw [hp, hg]
        exact Bool.false_ne_true
      rw [List.filter_cons, if_neg ha, List.filterMap_cons_none hg]
      exact ih
    | some c =>
      have ha : p a = true := by
        rw [hp, hg]
        rfl
      rw [List.filter_cons, if_pos ha, List.filterMap_cons_some hg]
      exact .cons (hR a c hg) ih

variable (config : Config) (doc : Document)

/-- The own options of a group are those of its declarations. -/
theorem forall₂_own (g : EnumGroup) :
    List.Forall₂ OptionDecl.Gives (g.optionDecls config) (g.options config) := by
  have hp : ∀ e : Enumerant, e.value.isNumber = true ↔ e.option?.isSome = true := by
    intro e
    rw [Enumerant.option?, Option.isSome_map]
    cases e.value <;> simp [EnumerantValue.isNumber, EnumerantValue.number?]
  have hf := forall₂_filterMap (R := OptionDecl.Gives) (f := fun e => ⟨e, none⟩) hp
    (fun _ _ => stands_of_option?) (g.enumerants.filter fun e => config.containsApi e.api)
  rw [List.filter_filter] at hf
  simp only [Bool.and_comm] at hf
  exact hf

namespace OptionDecl

/-- The option that a required enumerant contributes, with the name of its enumeration. -/
def contributed? (d : OptionDecl) : Option (String × EnumOption) :=
  (Contribution.ofEnumerant? d.number d.enumerant).bind Contribution.option?

/-- An enumerant extends an enumeration if it contributes an option to it. -/
theorem extended?_eq (d : OptionDecl) : d.extended? = d.contributed?.map Prod.fst := by
  obtain ⟨⟨name, comment, api, value⟩, number⟩ := d
  cases value with
  | value text base =>
    cases base <;> cases h : Number.ofText? text.toList <;>
      simp [extended?, contributed?, Contribution.ofEnumerant?, Contribution.option?, h]
  | bit position base =>
    cases base <;> rfl
  | offset offset base extensionNumber positive =>
    cases extensionNumber <;> cases number <;> rfl
  | _ => rfl

/-- The option that an enumerant contributes has the value that the enumerant stands for. -/
theorem gives_of_contributed? {d : OptionDecl} {c : String × EnumOption}
    (h : d.contributed? = some c) : d.Gives c.2 := by
  obtain ⟨⟨name, comment, api, value⟩, number⟩ := d
  obtain ⟨contribution, hc, ho⟩ := Option.bind_eq_some_iff.1 h
  -- a value and a bit need the name of an enumeration, an offset a number to count from
  cases value with
  | value text base =>
    cases base with
    | none =>
      cases hc
      cases ho
    | some base =>
      obtain ⟨n, hn, rfl⟩ := Option.map_eq_some_iff.1 hc
      cases ho
      exact ⟨rfl, rfl, .integer hn⟩
  | bit position base =>
    cases base with
    | none =>
      cases hc
      cases ho
    | some base =>
      cases hc
      cases ho
      exact ⟨rfl, rfl, .bit Number.bit_eq_toInt⟩
  | offset offset base extensionNumber positive =>
    obtain ⟨k, hk, rfl⟩ := Option.map_eq_some_iff.1 hc
    cases ho
    have hk' : extensionNumber.or number = some k := by
      cases extensionNumber <;> exact hk
    refine ⟨rfl, rfl, ?_⟩
    cases positive with
    | true => exact .above hk'
    | false => exact .below hk'
  | _ => cases hc

end OptionDecl

/-- The options that blocks contribute are those of the enumerants that they require. -/
theorem options_contributions (number : Option Int) (blocks : List RequireBlock) :
    (contributions config number blocks).filterMap Contribution.option? =
      ((requiredEnumerants config blocks).map (⟨·, number⟩)).filterMap
        OptionDecl.contributed? := by
  rw [contributions, requiredItems, requiredEnumerants, List.filter_flatMap,
    List.filterMap_filterMap, List.filterMap_flatMap, List.filterMap_map, List.filterMap_flatMap]
  congr
  funext b
  rw [List.filterMap_filter, List.filterMap_filterMap]
  congr
  funext item
  cases item with
  | enumerant e => by_cases h : config.containsApi e.api <;> simp [h, OptionDecl.contributed?]
  | _ => rfl

/-- What features and extensions contribute are the options of the enumerants that they require. -/
theorem contributedOptions_eq :
    doc.contributedOptions config =
      (doc.requiredDecls config).filterMap OptionDecl.contributed? := by
  have hf : doc.features.flatMap (Feature.options config) =
      (doc.features.filter fun f => config.containsApi (some f.api)).flatMap fun f =>
        (contributions config none f.requires).filterMap Contribution.option? := by
    induction doc.features with
    | nil => rfl
    | cons f r ih =>
      rw [List.flatMap_cons, ih, List.filter_cons, Feature.options]
      split <;> rfl
  have hx : (doc.keptExtensions config).flatMap (ExtensionDecl.options config) =
      (doc.keptExtensions config).flatMap fun x =>
        (contributions config x.number x.blocks).filterMap Contribution.option? := rfl
  rw [contributedOptions, hf, hx, requiredDecls, List.filterMap_append, List.filterMap_flatMap,
    List.filterMap_flatMap]
  simp only [options_contributions]

/-- The options that are contributed to an enumeration are those of the declarations that extend
it. -/
theorem forall₂_contributed (name : String) :
    List.Forall₂ OptionDecl.Gives
      ((doc.requiredDecls config).filter fun d =>
        d.extended?.any fun base => doc.aliases.resolve base = name)
      (((doc.contributedOptions config).filter fun c =>
        doc.aliases.resolve c.1 = name).map Prod.snd) := by
  have hp : ∀ d : OptionDecl, (d.extended?.any fun base => doc.aliases.resolve base = name) = true ↔
      ((d.contributed?.filter fun c => doc.aliases.resolve c.1 = name).map
        Prod.snd).isSome = true := by
    intro d
    rw [d.extended?_eq, Option.isSome_map]
    cases d.contributed? <;> simp [Option.filter]
  have hR : ∀ (d : OptionDecl) (o : EnumOption),
      (d.contributed?.filter fun c => doc.aliases.resolve c.1 = name).map Prod.snd = some o →
        d.Gives o := by
    intro d o ho
    obtain ⟨c, hc, rfl⟩ := Option.map_eq_some_iff.1 ho
    exact OptionDecl.gives_of_contributed? (Option.filter_eq_some_iff.1 hc).1
  have hf := forall₂_filterMap (f := id) hp hR (doc.requiredDecls config)
  rw [List.map_id, ← List.map_filterMap, ← List.filter_filterMap] at hf
  rw [contributedOptions_eq]
  exact hf

/-- An enumeration has the first options of each name, its own before those of others. -/
theorem options_enumerationOf (g : NamedGroup) :
    (doc.enumerationOf config g).options =
      firstPer EnumOption.name [] (g.decl.options config ++
        ((doc.contributedOptions config).filter fun c =>
          doc.aliases.resolve c.1 = g.name).map Prod.snd) := by
  rw [enumerationOf, Enumeration.extend_eq_foldl_push, (Enumeration.name_ofGroup config g).1,
    Enumeration.ofGroup, ← List.foldl_append, Enumeration.options_foldl_push]
  rfl

/-! ### The registry -/

namespace Registry

/-- In a resolved registry the options of an enumeration have different names, and they are those of
its declarations, the first of each name, in the order of the document. -/
theorem build_options {config : Config} {doc : Document} {r : Registry}
    (h : build config doc = .ok r) {e : Enumeration}
    (he : e ∈ r.enums.values ++ r.bitmasks.values) :
    (e.options.map EnumOption.name).Nodup ∧
      ∃ g, doc.namedGroups.find? (·.name = e.name) = some g ∧ g.kind = e.kind ∧
        List.Forall₂ OptionDecl.Gives
          (firstPer OptionDecl.name [] (doc.optionDecls config g.decl e.name)) e.options := by
  obtain ⟨types, functions, h⟩ := build_eq_ok_iff.1 h
  rw [h.enums_eq, h.bitmasks_eq, values_enumerations, values_enumerations, ← List.map_append] at he
  obtain ⟨g, hg, rfl⟩ := List.mem_map.1 he
  have hkept : g ∈ doc.keptGroups config := by
    rcases List.mem_append.1 hg with hg | hg
    · exact (List.mem_filter.1 hg).1
    · exact (List.mem_filter.1 hg).1
  have hgives := List.rel_append (forall₂_own config g.decl)
    (forall₂_contributed config doc g.name)
  rw [name_enumerationOf, kind_enumerationOf, options_enumerationOf]
  refine ⟨nodup_keys_firstPer _ _ _, g, find?_of_mem_firstPer hkept, rfl, ?_⟩
  exact forall₂_firstPer (fun _ _ ho => ho.1.symm) hgives

/-- An enumeration with options of its own and from everywhere else, some of them more than once and
some under its other name. -/
def scattered : Document :=
  [.types [⟨some "Old", some "E", none, none, none, none, none, none, .empty⟩],
    .enums ⟨some "E", some "enum", none, [
      ⟨"A", none, none, .value "0x10" none⟩,
      ⟨"B", none, none, .bit 31 none⟩,
      ⟨"A", none, none, .value "1" none⟩]⟩,
    .extensions [
      ⟨"X", some 5, none, none, none, none, none, none, [⟨none, [
        .enumerant ⟨"C", none, none, .offset 2 "Old" none true⟩,
        .enumerant ⟨"D", none, none, .offset 3 "E" (some 7) false⟩,
        .enumerant ⟨"B", none, none, .offset 4 "E" none true⟩]⟩]⟩,
      ⟨"Y", none, none, none, none, none, none, none, [⟨none, [
        .enumerant ⟨"G", none, none, .offset 0 "E" none true⟩]⟩]⟩],
    .feature ⟨"vulkan", "VK_1", [⟨none, [
      .enumerant ⟨"A", none, none, .value "2" (some "E")⟩,
      .enumerant ⟨"F", none, none, .bit 63 (some "E")⟩]⟩]⟩]

/-- The own options come first, then that of the feature, then those of the first extension; the
offset without a number adds nothing. -/
theorem build_options_scattered :
    ∃ r e, build Config.default scattered = .ok r ∧ r.enums.values = [e] ∧
      e.options.map (fun o => (o.name, o.value)) =
        [("A", 16), ("B", 2147483648), ("F", -9223372036854775808), ("C", 1000004002),
          ("D", -1000006003)] ∧
      (e.options.map EnumOption.name).Nodup ∧
      ∃ g, scattered.namedGroups.find? (·.name = e.name) = some g ∧ g.kind = e.kind ∧
        List.Forall₂ OptionDecl.Gives
          (firstPer OptionDecl.name [] (scattered.optionDecls Config.default g.decl e.name))
          e.options := by
  have ho : (build Config.default scattered).toOption.map (fun r =>
      r.enums.values.map fun e => e.options.map fun o => (o.name, o.value)) =
        some [[("A", 16), ("B", 2147483648), ("F", -9223372036854775808), ("C", 1000004002),
          ("D", -1000006003)]] := by
    decide +kernel
  obtain ⟨r, h, ho⟩ := toOption_map_eq_some_iff.1 ho
  obtain ⟨e, he, hoptions⟩ := List.map_eq_singleton_iff.1 ho
  refine ⟨r, e, h, he, hoptions, build_options h ?_⟩
  rw [he]
  exact List.mem_append_left _ (List.mem_singleton_self e)

end Registry

end ApiStencil
