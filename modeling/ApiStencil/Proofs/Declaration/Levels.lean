/-
ApiStencil/Proofs/Declaration/Levels.lean

The levels of indirection of a declaration.  Each asterisk and each opening bracket of
its text is one (`levelsOf`).  A type may take one of them for itself: that is so for
texts and for types that are always behind a pointer (`Adjusts`), and what is left is the
pointer level of the variable.

Main statement: every level is accounted for, and the only declaration that is refused
for its levels is one without any, of a type that needs one (`Raw.resolve_accounted`).
-/
import ApiStencil.Proofs.Declaration.Length
import ApiStencil.Proofs.Declaration.Resolve

namespace ApiStencil

namespace Declaration

/-- The number of asterisks and opening brackets in a text. -/
def levelsOf (declaration : String) : Nat :=
  declaration.toList.count '*' + declaration.toList.count '['

/-- Counting the two marks apart or together gives the same number. -/
theorem levelsOf_ofList (s : List Char) : levelsOf (String.ofList s) = Raw.indirections s := by
  rw [levelsOf, String.toList_ofList, Raw.indirections]
  induction s with
  | nil => rfl
  | cons c r ih =>
    rw [List.countP_cons, ← ih]
    -- a character counts on one side only
    by_cases hstar : c = '*'
    · subst hstar
      simp
      omega
    · by_cases hbracket : c = '['
      · subst hbracket
        simp
        omega
      · simp [hstar, hbracket]

/-! ### Adjusted types -/

/-- `Adjusts config levels type adjusted taken`: a variable of `type` with that many levels of
indirection is one of the type `adjusted`, which takes `taken` of the levels. -/
inductive Adjusts (config : Config) (levels : Nat) : String → String → Nat → Prop
  | text (h : 0 < levels) : Adjusts config levels "char" "cstring" 1
  | behindPointer {type : String} (hbehind : type ∈ config.opaquePointerTypes)
      (htext : ¬ (type = "char" ∧ 0 < levels)) : Adjusts config levels type (type ++ "*") 1
  | same {type : String} (hbehind : type ∉ config.opaquePointerTypes)
      (htext : ¬ (type = "char" ∧ 0 < levels)) : Adjusts config levels type type 0

section

variable {config : Config} {type : String} {levels : Nat}

/-- The types that are always behind a pointer are those that the configuration lists. -/
theorem isOpaquePointer_iff :
    config.isOpaquePointer type = true ↔ type ∈ config.opaquePointerTypes :=
  List.contains_iff_mem

/-- A type is adjusted, and the levels that it does not take are left. -/
theorem adjusts_of_adjustType {adjusted : String} {left : Nat}
    (h : adjustType config type levels = (adjusted, some left)) :
    ∃ taken, Adjusts config levels type adjusted taken ∧ levels = left + taken := by
  rw [adjustType] at h
  split at h
  -- a text, which takes the first level
  · next htext =>
    obtain ⟨rfl, hpos⟩ := htext
    cases h
    exact ⟨1, .text hpos, by omega⟩
  · next htext =>
    split at h
    -- a type that is always behind a pointer takes a level too, and any other one takes none
    · next hbehind =>
      obtain ⟨rfl, h⟩ := Prod.mk.inj h
      split at h
      · cases h
      · next hpos =>
        cases h
        exact ⟨1, .behindPointer (isOpaquePointer_iff.1 hbehind) htext, by omega⟩
    · next hbehind =>
      cases h
      exact ⟨0, .same (mt isOpaquePointer_iff.2 hbehind) htext, rfl⟩

/-- There are too few levels only if there are none, and the type needs one. -/
theorem adjustType_snd_eq_none_iff :
    (adjustType config type levels).2 = none ↔ levels = 0 ∧ type ∈ config.opaquePointerTypes := by
  rw [adjustType, ← isOpaquePointer_iff]
  split
  · next htext => simp [Nat.ne_of_gt htext.2]
  · split <;> simp_all

/-- A type can be adjusted unless it has to be behind a pointer and there is none. -/
theorem exists_adjustType (h : type ∈ config.opaquePointerTypes → levels ≠ 0) :
    ∃ adjusted left, adjustType config type levels = (adjusted, some left) := by
  cases hadjust : adjustType config type levels with
  | mk adjusted left =>
    cases left with
    | some left => exact ⟨adjusted, left, rfl⟩
    | none =>
      have hnone : (adjustType config type levels).2 = none := by rw [hadjust]
      obtain ⟨hzero, hbehind⟩ := adjustType_snd_eq_none_iff.1 hnone
      exact absurd hzero (h hbehind)

end

/-! ### Lengths that cannot be read -/

/-- The one error of reading a length is that its notation is not supported. -/
theorem lengthExpression_error {length : List Char} {e : Error}
    (h : lengthExpression length = .error e) : e = .unsupportedLatexmath (String.ofList length) := by
  rw [lengthExpression] at h
  split at h
  · rw [readLatexmath] at h
    split at h
    · cases h
    · cases h
      rfl
  · cases h

/-- The same of the lengths of an attribute, of which the first counts. -/
theorem attributeLength_error {len : List Char} {e : Error}
    (h : attributeLength len = .error e) : ∃ text, e = .unsupportedLatexmath text := by
  rw [attributeLength] at h
  split at h
  · cases h
  · exact ⟨_, lengthExpression_error (map_eq_error_iff.1 h)⟩

end Declaration

/-! ### Resolving -/

/-- Whether the levels of indirection that a variable declares are either left or taken by its type,
and what it is an array or a pointer of agrees with that and with its length. -/
structure Variable.Accounted (config : Config) (v : Variable) : Prop where
  levels : ∃ taken, Declaration.Adjusts config (Declaration.levelsOf v.declaration) v.typeId
      v.baseType taken ∧
    Declaration.levelsOf v.declaration = v.pointerLevels + taken
  childType_eq : v.childType = if 0 < v.pointerLevels ∨ v.arrayLength.isSome then v.baseType else ""
  arrayLength_isSome : v.lengthMember = true → v.arrayLength.isSome = true

namespace Declaration.Raw

variable {ctx : Context} {index : Nat} {raw : Raw}

/-- A variable that was resolved has the levels of its text but for those that its type took. -/
theorem accounted_of_resolve {v : Variable} (h : raw.resolve ctx index = .ok v) :
    v.Accounted ctx.config := by
  obtain ⟨array, baseType, left, harray, hadjust, rfl⟩ := resolve_eq_ok_iff.1 h
  rw [← levelsOf_ofList] at hadjust
  refine ⟨adjusts_of_adjustType hadjust, rfl, fun hmember => ?_⟩
  obtain ⟨hattribute, hlength⟩ := hasLength_of_arrayLength harray
  obtain ⟨length, hgives⟩ := hattribute.1 hmember
  rw [hlength length hgives]
  rfl

/-- A declaration with levels enough resolves if its length can be read. -/
theorem exists_resolve (index : Nat) {array : ArrayLength}
    (harray : raw.arrayLength ctx = .ok array)
    (hlevels : ctx.aliases.resolve raw.typeName ∈ ctx.config.opaquePointerTypes →
      levelsOf (String.ofList raw.declaration) ≠ 0) :
    ∃ v, raw.resolve ctx index = .ok v ∧ v.declaredType = String.ofList raw.declaredType ∧
      v.arrayLength = array.length ∧ v.lengthMember = array.fromAttribute := by
  rw [levelsOf_ofList] at hlevels
  obtain ⟨adjusted, left, hadjust⟩ := exists_adjustType hlevels
  exact ⟨_, resolve_eq_ok_iff.2 ⟨array, adjusted, left, harray, hadjust, rfl⟩, rfl, rfl, rfl⟩

/-- Reading a length fails for its notation only. -/
theorem arrayLength_error {e : Error} (h : raw.arrayLength ctx = .error e) :
    ∃ text, e = .unsupportedLatexmath text := by
  rw [arrayLength] at h
  split at h
  · cases h
  · split at h
    · cases h
    · exact attributeLength_error (map_eq_error_iff.1 h)

/-- Reading the length never fails for the levels of indirection, so that error tells its cause. -/
theorem arrayLength_ne_negative (text : String) :
    raw.arrayLength ctx ≠ .error (.negativePointerLevel text) := by
  intro h
  obtain ⟨_, hnotation⟩ := arrayLength_error h
  cases hnotation

/-- A declaration is refused for its levels of indirection exactly if there are none, its type is
always behind a pointer, and its length can be read; an error of the length comes first.  A variable
that is resolved has the levels of its text but for one that its type may take. -/
theorem resolve_accounted (ctx : Context) (index : Nat) (raw : Raw) :
    (∀ text, raw.resolve ctx index = .error (.negativePointerLevel text) ↔
      (∃ array, raw.arrayLength ctx = .ok array) ∧ text = String.ofList raw.declaration ∧
        levelsOf text = 0 ∧ ctx.aliases.resolve raw.typeName ∈ ctx.config.opaquePointerTypes) ∧
    (∀ e, raw.arrayLength ctx = .error e → raw.resolve ctx index = .error e) ∧
    ((∃ v, raw.resolve ctx index = .ok v) ↔ (∃ array, raw.arrayLength ctx = .ok array) ∧
      (ctx.aliases.resolve raw.typeName ∈ ctx.config.opaquePointerTypes →
        levelsOf (String.ofList raw.declaration) ≠ 0)) ∧
    ∀ v, raw.resolve ctx index = .ok v → v.typeId = ctx.aliases.resolve raw.typeName ∧
      v.declaration = String.ofList raw.declaration ∧ v.Accounted ctx.config := by
  refine ⟨fun text => ?_, fun e he => resolve_eq_error_iff.2 (.inl he), ⟨?_, ?_⟩, ?_⟩
  -- the length has an error of its own, so this one is for want of levels
  · rw [resolve_eq_error_iff, or_iff_right (arrayLength_ne_negative text),
      adjustType_snd_eq_none_iff, ← levelsOf_ofList, Error.negativePointerLevel.injEq]
    constructor
    · rintro ⟨harray, ⟨hzero, hbehind⟩, rfl⟩
      exact ⟨harray, rfl, hzero, hbehind⟩
    · rintro ⟨harray, rfl, hzero, hbehind⟩
      exact ⟨harray, ⟨hzero, hbehind⟩, rfl⟩
  · rintro ⟨v, hv⟩
    obtain ⟨array, baseType, left, harray, hadjust, -⟩ := resolve_eq_ok_iff.1 hv
    refine ⟨⟨array, harray⟩, fun hbehind hzero => ?_⟩
    rw [levelsOf_ofList] at hzero
    have hnone := adjustType_snd_eq_none_iff.2 ⟨hzero, hbehind⟩
    rw [hadjust] at hnone
    cases hnone
  · rintro ⟨⟨array, harray⟩, hlevels⟩
    obtain ⟨v, hv, -⟩ := exists_resolve index harray hlevels
    exact ⟨v, hv⟩
  · intro v hv
    have haccounted := accounted_of_resolve hv
    obtain ⟨array, baseType, left, -, -, rfl⟩ := resolve_eq_ok_iff.1 hv
    exact ⟨rfl, rfl, haccounted⟩

end Declaration.Raw

end ApiStencil
