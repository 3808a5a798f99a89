/-
ApiStencil/Proofs/Registry/Variables.lean

The variables of one list: the parameters of a function, the members of a struct or the
choices of a union.  A list that can be resolved holds declarations only, and each
resolves at its place to the variable there, before any lengths are marked
(`Registry.resolvesTo_of_resolveVariables`).  Marking changes nothing but the mark.
-/
import ApiStencil.Proofs.Declaration.Resolve
import ApiStencil.Registry.Build

namespace ApiStencil

open Declaration

/-! ### Marking -/

namespace Variable

/-- A variable as it is marked among `vars`. -/
def markedAmong (vars : List Variable) (v : Variable) : Variable :=
  if v.name ∈ vars.filterMap lengthSource? then { v with isLength := true } else v

theorem markLengths_eq_map (vars : List Variable) :
    markLengths vars = vars.map (markedAmong vars) := rfl

theorem markedAmong_eq (vars : List Variable) (v : Variable) :
    v.markedAmong vars = { v with isLength := (v.markedAmong vars).isLength } := by
  unfold markedAmong
  split <;> rfl

@[simp] theorem name_markedAmong (vars : List Variable) (v : Variable) :
    (v.markedAmong vars).name = v.name := by
  rw [markedAmong_eq]

@[simp] theorem index_markedAmong (vars : List Variable) (v : Variable) :
    (v.markedAmong vars).index = v.index := by
  rw [markedAmong_eq]

end Variable

/-! ### A list of variables -/

namespace Registry

/-- Whether declarations resolve to variables one by one, each at its place. -/
def ResolvesTo (ctx : Context) (raws : List Raw) (vars : List Variable) : Prop :=
  List.Forall₂ (fun p v => p.1.resolve ctx p.2 = .ok v) raws.zipIdx vars

/-- A list that can be resolved holds declarations only. -/
theorem exists_declarations {ctx : Context} {owner : String}
    {raws? : List (Except Declaration.Error Raw)} {n : Nat} {vars : List Variable}
    (h : List.Forall₂ (fun p v => (p.1.bind (Raw.resolve ctx p.2)).mapError
      (Error.declaration owner) = .ok v) (raws?.zipIdx n) vars) :
    ∃ raws : List Raw, raws? = raws.map .ok ∧
      List.Forall₂ (fun p v => p.1.resolve ctx p.2 = .ok v) (raws.zipIdx n) vars := by
  induction raws? generalizing n vars with
  | nil =>
    cases h
    exact ⟨[], rfl, .nil⟩
  | cons raw? r ih =>
    cases h with
    | cons hv hrest =>
      obtain ⟨raws, rfl, hraws⟩ := ih hrest
      obtain ⟨raw, rfl, hraw⟩ := bind_eq_ok_iff.1 (mapError_eq_ok_iff.1 hv)
      exact ⟨raw :: raws, rfl, .cons hraw hraws⟩

/-- What a list resolves to are its variables with the lengths marked. -/
theorem resolvesTo_of_resolveVariables {ctx : Context} {owner : String}
    {raws? : List (Except Declaration.Error Raw)} {vars : List Variable}
    (h : resolveVariables ctx owner raws? = .ok vars) :
    ∃ raws unmarked, raws? = raws.map .ok ∧ ResolvesTo ctx raws unmarked ∧
      vars = Variable.markLengths unmarked := by
  obtain ⟨unmarked, hunmarked, h⟩ := bind_eq_ok_iff.1 h
  obtain ⟨raws, hraws, hresolves⟩ := exists_declarations (forall₂_of_mapM hunmarked)
  cases h
  exact ⟨raws, unmarked, hraws, hresolves, rfl⟩

end Registry

end ApiStencil
