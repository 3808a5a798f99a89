/-
ApiStencil/Proofs/Template/Known.lean

What is known about the values of placeholders, whatever the document: truth values and
some numbers are written as such, and some texts hold no quote of a certain sort
(`knownForms`).  The values of a regular registry have these forms
(`allows_of_regular`).
-/
import ApiStencil.Proofs.Registry.Regular
import ApiStencil.Proofs.Template.Typed

namespace ApiStencil.Template

open Condition

/-- The placeholders whose values have a known form. -/
def known : List (String × Form) :=
  [("bitWidth", .integer), ("funcName", .quotable '\''), ("funcReturn", .quotable '\''),
    ("funcDispatchType", .quotable '\''), ("funcType", .quotable '\''),
    ("funcSafeToPrint", .boolean), ("funcStateTrackingCode", .quotable '"'),
    ("optMultiValue", .boolean), ("sctStructureTypeIndex", .integer)]

/-- The known form of a placeholder, if it has one. -/
def knownForms : Forms :=
  fun name => known.lookup name

variable {r : Registry}

/-- Nothing is known about the placeholders of most subjects. -/
theorem allow_of_unknown {i : Item} {s : Subject} (hs : i.subject = s)
    (h : ∀ name ∈ s.vocabulary, knownForms name = none) : knownForms.Allow i.placeholders := by
  subst hs
  intro name form v hform hv
  have hmem : name ∈ i.placeholders.keys :=
    OrderedMap.contains_iff_mem_keys.1 (Option.isSome_iff_exists.2 ⟨v, hv⟩)
  rw [h name (i.mem_keys_placeholders.1 hmem)] at hform
  cases hform

/-- Whether an option has several bits is written as a truth value. -/
theorem allow_option (o : EnumOption) : knownForms.Allow o.placeholders := by
  refine Forms.allow_ofList fun e he form hform => ?_
  simp only [List.mem_cons, List.not_mem_nil, or_false] at he
  rcases he with rfl | rfl | rfl | rfl
  all_goals cases hform
  exact Form.fits_ofBool _

/-- The width of a bitmask is a number if it fits. -/
theorem allow_bitmask {e : Enumeration} (h : e.bitWidth < UInt32.size) :
    knownForms.Allow e.bitsPlaceholders := by
  refine Forms.allow_ofList fun e' he form hform => ?_
  simp only [List.mem_cons, List.not_mem_nil, or_false] at he
  rcases he with rfl | rfl | rfl | rfl
  all_goals cases hform
  refine Form.fits_ofInt (n := e.bitWidth) ?_
  rw [UInt32.size] at h
  rw [Text.fitsInt64, Bool.and_eq_true, Text.int64Bound]
  exact ⟨decide_eq_true (by omega), decide_eq_true (by omega)⟩

/-- The number of a struct is one if it fits. -/
theorem allow_struct {s : Struct} (h : Text.fitsInt64 s.typeIndex = true) :
    knownForms.Allow s.placeholders := by
  refine Forms.allow_ofList fun e he form hform => ?_
  simp only [List.mem_cons, List.not_mem_nil, or_false] at he
  rcases he with rfl | rfl | rfl | rfl | rfl
  all_goals cases hform
  exact Form.fits_ofInt h

theorem not_mem_name (d : Dispatch) : '\'' ∉ d.name.toList := by
  cases d <;> decide

/-- The texts of a function can be quoted if those of its definition and its code can. -/
theorem allow_function {f : Function}
    (hnames : '\'' ∉ f.name.toList ∧ '\'' ∉ f.returnType.toList)
    (htracking : ∀ code, f.stateTracking = some code → '"' ∉ code.toList) :
    knownForms.Allow f.placeholders := by
  refine Forms.allow_ofList fun e he form hform => ?_
  simp only [List.mem_cons, List.not_mem_nil, or_false] at he
  rcases he with rfl | rfl | rfl | rfl | rfl | rfl | rfl | rfl | rfl | rfl | rfl | rfl
  all_goals cases hform
  · exact hnames.1
  · exact hnames.2
  · exact not_mem_name f.dispatch
  · exact not_mem_name f.type
  · exact Form.fits_ofBool _
  · cases hcode : f.stateTracking with
    | none => exact List.not_mem_nil
    | some code => exact htracking code hcode

/-- The values of what belongs to an item have the known forms in any registry. -/
theorem allow_of_owned {i j : Item} {s : Subject} {items : List Item}
    (h : i.owned? s = some items) (hj : j ∈ items) : knownForms.Allow j.placeholders := by
  have hs := Item.subject_of_mem_owned? h hj
  cases s with
  | option =>
    cases j <;> cases hs
    exact allow_option _
  | choice | member | parameter => exact allow_of_unknown hs (by decide)
  | _ => cases i <;> cases h

/-- The values of a regular registry have the known forms. -/
theorem allows_of_regular (h : r.Regular) : Allows knownForms r := by
  intro subject i hi
  refine ⟨?_, fun _ _ howned _ hj => allow_of_owned howned hj⟩
  cases subject with
  | function =>
    obtain ⟨f, hf, rfl⟩ := List.mem_map.1 hi
    exact allow_function (h.names f hf) (h.tracking f hf)
  | struct =>
    obtain ⟨s, hs, rfl⟩ := List.mem_map.1 hi
    exact allow_struct (h.indices s hs)
  | bitmask =>
    obtain ⟨e, he, rfl⟩ := List.mem_map.1 hi
    exact allow_bitmask (h.widths e he)
  | option => cases hi
  | _ => exact allow_of_unknown (Subject.subject_of_mem_collection hi) (by decide)

end ApiStencil.Template
