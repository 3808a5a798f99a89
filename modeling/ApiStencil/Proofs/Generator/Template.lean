/-
ApiStencil/Proofs/Generator/Template.lean

The templates of the targets never fail.  They are well typed, which is checked without
a registry (`wellTyped_template`), and what is resolved with the configuration of the
targets is regular, so that they expand for it (`expand_target`).
-/
import ApiStencil.Generator.Target
import ApiStencil.Proofs.Template.Known

namespace ApiStencil.Generator

open Template

theorem toList_unlines (lines : List String) :
    (unlines lines).toList = lines.flatMap fun line => line.toList ++ ['\n'] := by
  rw [unlines, String.toList_join, List.flatMap_map]
  simp only [String.toList_append]
  rfl

set_option maxRecDepth 100000 in
/-- That the templates are well typed is decided by running the check on them. -/
theorem wellTyped_template :
    ∀ target ∈ Target.all, WellTyped knownForms target.template.toList := by
  simp only [Target.all, List.forall_mem_cons, List.not_mem_nil, false_imp_iff, implies_true,
    and_true]
  -- evaluation would go through the bytes of a template again for every character of it
  simp only [dispatchTable, enumStrings, structSizes, layerFunctions, videoTypes, toList_unlines,
    List.flatMap_cons, List.flatMap_nil, String.toList_append, value, opened, closed,
    String.reduceToList]
  decide +kernel

/-- No code of the configuration holds a double quote. -/
theorem not_mem_stateTracking {function code : String}
    (h : config.stateTracking.get? function = some code) : '"' ∉ code.toList := by
  have hall : ∀ e ∈ config.stateTracking.entries, '"' ∉ e.2.toList := by
    decide +kernel
  exact hall _ (OrderedMap.get?_eq_some_iff_mem.1 h)

/-- If a document is resolved, and no name and no return type of a function in it holds a single
quote, then the template of every target expands for it. -/
theorem expand_target {doc : Document} {r : Registry} (h : Registry.build config doc = .ok r)
    (hquotes : doc.Unquoted) (hrange : doc.InRange config) :
    ∀ target ∈ Target.all, ∃ out, expand r target.template.toList = .ok out := by
  intro target ht
  have hregular := Registry.regular_build h hrange hquotes fun _ _ => not_mem_stateTracking
  exact expand_of_wellTyped (wellTyped_template target ht) (allows_of_regular hregular)

/-- A function with code, a struct with a number below zero, and a bitmask that is twice as wide as
usual. -/
def chained : Document :=
  [.types [
      ⟨some "VkChained", none, none, none, some "struct", none, some "VkBase", none,
        .members [⟨none, none, none, some "VK_STRUCTURE_TYPE_CHAINED", none,
          "VkStructureType sType", [.type "VkStructureType", .name "sType"]⟩]⟩],
    .enums ⟨some "VkStructureType", some "enum", none,
      [⟨"VK_STRUCTURE_TYPE_CHAINED", none, none, .value "-7" none⟩]⟩,
    .enums ⟨some "VkWide", some "bitmask", some 64, [⟨"VK_WIDE_BIT", none, none, .bit 63 none⟩]⟩,
    .commands [.definition ⟨⟨"vkDestroyDevice", some "void", "void vkDestroyDevice"⟩,
      [⟨none, none, ⟨"device", some "VkDevice", "VkDevice device"⟩⟩], none⟩]]

/-- The registry has all that the condition about ranges and quotes looks at, and every template
expands for it. -/
theorem expand_target_chained :
    ∃ r, Registry.build config chained = .ok r ∧
      r.functions.values.map Function.stateTracking = [some "forget_device(device);"] ∧
      r.structs.values.map Struct.typeIndex = [-7] ∧
      r.bitmasks.values.map Enumeration.bitWidth = [64] ∧
      ∀ target ∈ Target.all, ∃ out, expand r target.template.toList = .ok out := by
  have hbuild : (Registry.build config chained).toOption.map
      (fun r => (r.functions.values.map Function.stateTracking,
        r.structs.values.map Struct.typeIndex, r.bitmasks.values.map Enumeration.bitWidth)) =
      some ([some "forget_device(device);"], [-7], [64]) := by
    decide +kernel
  obtain ⟨r, h, hvalues⟩ := toOption_map_eq_some_iff.1 hbuild
  have hquotes : chained.Unquoted := by
    decide +kernel
  have hrange : chained.InRange config :=
    ⟨by decide +kernel, by decide +kernel, by decide +kernel⟩
  obtain ⟨hfunctions, hvalues⟩ := Prod.mk.inj hvalues
  obtain ⟨hstructs, hbitmasks⟩ := Prod.mk.inj hvalues
  exact ⟨r, h, hfunctions, hstructs, hbitmasks, expand_target h hquotes hrange⟩

end ApiStencil.Generator
