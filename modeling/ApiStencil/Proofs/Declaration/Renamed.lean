/-
ApiStencil/Proofs/Declaration/Renamed.lean

Declarations that name their types differently.  `Raw.Renamed` relates two declarations
whose code is the same but for the name of the type, which is another name with the same
end of its chain of aliases.

Both can be resolved or none (`agree_resolve`), and their variables differ in the two
texts that show the declaration, by just the names of the types (`Variable.Renamed`).
-/
import ApiStencil.Proofs.Alias
import ApiStencil.Proofs.Declaration.Frame
import ApiStencil.Proofs.Except

namespace ApiStencil

/-- Whether two variables differ in the texts that show the declarations, where one has the name
`T` and the other `T'`. -/
structure Variable.Renamed (T T' : String) (v w : Variable) : Prop where
  rest : w = { v with declaredType := w.declaredType, declaration := w.declaration }
  texts : ∃ front inner back : String,
    v.declaredType = front ++ T ++ inner ∧ w.declaredType = front ++ T' ++ inner ∧
    v.declaration = front ++ T ++ back ∧ w.declaration = front ++ T' ++ back

namespace Declaration

open Text

/-! ### Reading code in a frame -/

/-- Whether a declaration is written in a frame, without a comment. -/
structure Raw.WrittenIn (f : Frame) (raw : Raw) : Prop where
  code : raw.code.toList = f.fill raw.typeName.toList
  name : raw.name.toList = f.name
  comment : raw.comment.getD "" = ""
  typeName : IsTypeName raw.typeName.toList

namespace Raw.WrittenIn

variable {f : Frame} {raw : Raw} (h : raw.WrittenIn f)

include h

/-- Without a comment, the text of a declaration is its code but for the blanks around it. -/
theorem declaration_eq : raw.declaration = f.front ++ raw.typeName.toList ++ f.back := by
  rw [← f.trim_fill h.typeName, ← h.code, declaration]
  have hcomment := h.comment
  cases hc : raw.comment with
  | none => rfl
  | some comment =>
    have hempty : comment = "" := by rwa [hc] at hcomment
    rw [hempty]
    rfl

theorem aroundName_eq :
    raw.aroundName = (f.front ++ raw.typeName.toList ++ f.aroundName.1, f.aroundName.2) := by
  rw [aroundName, h.declaration_eq, h.name, f.splitLast_fill]
  rfl

theorem declaredType_eq : raw.declaredType = f.front ++ raw.typeName.toList ++ f.inner := by
  rw [declaredType, h.aroundName_eq, f.trim_front h.typeName]
  split
  · next he => exact absurd he (by simp [h.typeName.ne_nil])
  · rfl

end Raw.WrittenIn

/-! ### Another name for the type -/

/-- Whether two declarations are the same but for the name of the type, which has the same end of
its chain of aliases. -/
structure Raw.Renamed (aliases : Aliases) (a b : Raw) : Prop where
  rest : b = { a with typeName := b.typeName, code := b.code }
  written : ∃ f : Frame, a.WrittenIn f ∧ b.WrittenIn f
  sameEnd : aliases.SameEnd a.typeName b.typeName

/-- The name of a type adds no level of indirection. -/
theorem IsTypeName.indirections_around {w x y : List Char} (hw : IsTypeName w) :
    Raw.indirections (x ++ w ++ y) = Raw.indirections x + Raw.indirections y := by
  have h : Raw.indirections w = 0 := by
    refine List.countP_eq_zero.2 fun c hc => ?_
    have hstar : c ≠ '*' := fun h => hw.not_mem (c := '*') (by decide) (h ▸ hc)
    have hbracket : c ≠ '[' := fun h => hw.not_mem (c := '[') (by decide) (h ▸ hc)
    simp [hstar, hbracket]
  show List.countP _ (x ++ w ++ y) = _
  rw [List.countP_append, List.countP_append]
  show Raw.indirections x + Raw.indirections w + Raw.indirections y = _
  rw [h, Nat.add_zero]

namespace Raw.Renamed

variable {aliases : Aliases} {a b : Raw}

theorem typeNames (h : a.Renamed aliases b) :
    IsTypeName a.typeName.toList ∧ IsTypeName b.typeName.toList := by
  obtain ⟨f, ha, hb⟩ := h.written
  exact ⟨ha.typeName, hb.typeName⟩

/-- The length does not depend on the name of the type, for the size of an array is read behind the
declared name. -/
theorem arrayLength_eq (h : a.Renamed aliases b) (ctx : Context) :
    b.arrayLength ctx = a.arrayLength ctx := by
  obtain ⟨f, ha, hb⟩ := h.written
  rw [arrayLength, arrayLength, hb.aroundName_eq, ha.aroundName_eq, h.rest]

theorem indirections_eq (h : a.Renamed aliases b) :
    indirections b.declaration = indirections a.declaration := by
  obtain ⟨f, ha, hb⟩ := h.written
  rw [hb.declaration_eq, ha.declaration_eq, hb.typeName.indirections_around,
    ha.typeName.indirections_around]

theorem hasConst_eq (h : a.Renamed aliases b) :
    hasConst b.declaredType = hasConst a.declaredType := by
  obtain ⟨f, ha, hb⟩ := h.written
  rw [hb.declaredType_eq, ha.declaredType_eq, f.hasConst_fill hb.typeName ha.typeName]

/-- The texts that show the declarations differ by the names of the types. -/
theorem texts (h : a.Renamed aliases b) : ∃ front inner back : String,
    String.ofList a.declaredType = front ++ a.typeName ++ inner ∧
    String.ofList b.declaredType = front ++ b.typeName ++ inner ∧
    String.ofList a.declaration = front ++ a.typeName ++ back ∧
    String.ofList b.declaration = front ++ b.typeName ++ back := by
  obtain ⟨f, ha, hb⟩ := h.written
  refine ⟨String.ofList f.front, String.ofList f.inner, String.ofList f.back, ?_⟩
  rw [ha.declaredType_eq, hb.declaredType_eq, ha.declaration_eq, hb.declaration_eq]
  simp only [String.ofList_append, String.ofList_toList, and_self]

/-- Declarations with different names for one type resolve to variables that differ by these names,
or fail together. -/
theorem agree_resolve {ctx : Context} (h : a.Renamed ctx.aliases b) (index : Nat) :
    Agree (fun v w => v.index = index ∧ v.Renamed a.typeName b.typeName w)
      (a.resolve ctx index) (b.resolve ctx index) := by
  have htype : ctx.aliases.resolve b.typeName = ctx.aliases.resolve a.typeName :=
    (Aliases.resolve_eq_of_sameEnd h.sameEnd).symm
  have hname : b.name = a.name := by rw [h.rest]
  rw [resolve, resolve, h.arrayLength_eq, h.indirections_eq, htype]
  -- with the same length, levels and end of the chain of aliases, both go the same way
  cases a.arrayLength ctx with
  | error e => exact .error e e
  | ok array =>
    rw [ok_bind, ok_bind]
    obtain ⟨baseType, levels⟩ := adjustType ctx.config (ctx.aliases.resolve a.typeName)
      (indirections a.declaration)
    cases levels with
    | none => exact .error _ _
    | some levels => exact .ok ⟨rfl, by rw [hname, h.hasConst_eq], h.texts⟩

end Raw.Renamed

end Declaration

end ApiStencil
