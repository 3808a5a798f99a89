/-
ApiStencil/Proofs/Declaration/Resolve.lean

Resolving one declaration.  It succeeds if the length can be read and the type can be
adjusted (`Raw.resolve_eq_ok_iff`), it fails if one of these fails, the length before
the type (`Raw.resolve_eq_error_iff`), and of the code it sees nothing but the
declaration that is left without the comment (`Raw.resolve_congr`).
-/
import ApiStencil.Declaration.Variable
import ApiStencil.Proofs.Except

namespace ApiStencil.Declaration.Raw

variable {ctx : Context} {index : Nat} {raw : Raw}

/-- A declaration resolves if its length can be read and its type can be adjusted, and then the
variable has what they give. -/
theorem resolve_eq_ok_iff {v : Variable} :
    raw.resolve ctx index = .ok v ↔ ∃ array baseType levels, raw.arrayLength ctx = .ok array ∧
      adjustType ctx.config (ctx.aliases.resolve raw.typeName)
        (Raw.indirections raw.declaration) = (baseType, some levels) ∧
      v = {
        name := raw.name
        typeId := ctx.aliases.resolve raw.typeName
        baseType
        childType := if 0 < levels ∨ array.length.isSome then baseType else ""
        declaredType := String.ofList raw.declaredType
        declaration := String.ofList raw.declaration
        pointerLevels := levels
        arrayLength := array.length
        lengthMember := array.fromAttribute
        isLength := false
        isConst := Raw.hasConst raw.declaredType
        index } := by
  rw [Raw.resolve, bind_eq_ok_iff]
  constructor
  · rintro ⟨array, harray, h⟩
    -- adjusting the type is the last step that can fail
    split at h
    · cases h
    · next baseType levels hadjust =>
      cases h
      exact ⟨array, baseType, levels, harray, hadjust, rfl⟩
  · rintro ⟨array, baseType, levels, harray, hadjust, rfl⟩
    refine ⟨array, harray, ?_⟩
    rw [hadjust]
    rfl

/-- A declaration fails with the error of its length, or for want of indirection. -/
theorem resolve_eq_error_iff {e : Error} :
    raw.resolve ctx index = .error e ↔ raw.arrayLength ctx = .error e ∨
      (∃ array, raw.arrayLength ctx = .ok array) ∧
        (adjustType ctx.config (ctx.aliases.resolve raw.typeName)
          (Raw.indirections raw.declaration)).2 = none ∧
        e = .negativePointerLevel (String.ofList raw.declaration) := by
  rw [Raw.resolve, bind_eq_error_iff]
  refine or_congr_right ⟨?_, ?_⟩
  · rintro ⟨array, harray, h⟩
    split at h
    · next hadjust =>
      cases h
      exact ⟨⟨array, harray⟩, by rw [hadjust], rfl⟩
    · cases h
  · rintro ⟨⟨array, harray⟩, hadjust, rfl⟩
    refine ⟨array, harray, ?_⟩
    generalize adjustType ctx.config _ _ = adjusted at hadjust
    obtain ⟨baseType, levels⟩ := adjusted
    cases hadjust
    rfl

/-! ### What is seen of the code -/

section

variable {raw' : Raw} (hname : raw'.name = raw.name)
  (hdeclaration : raw'.declaration = raw.declaration)

include hname hdeclaration

theorem aroundName_congr : raw'.aroundName = raw.aroundName := by
  rw [aroundName, aroundName, hname, hdeclaration]

theorem arrayLength_congr (hlen : raw'.len = raw.len) :
    raw'.arrayLength ctx = raw.arrayLength ctx := by
  rw [arrayLength, arrayLength, aroundName_congr hname hdeclaration, hlen]

/-- Declarations with the same text, however it is written, resolve alike. -/
theorem resolve_congr (htype : raw'.typeName = raw.typeName) (hlen : raw'.len = raw.len) :
    raw'.resolve ctx index = raw.resolve ctx index := by
  have hdeclared : raw'.declaredType = raw.declaredType := by
    rw [declaredType, declaredType, aroundName_congr hname hdeclaration, htype]
  rw [resolve, resolve, arrayLength_congr hname hdeclaration hlen, hdeclaration, hdeclared,
    hname, htype]

end

end ApiStencil.Declaration.Raw
