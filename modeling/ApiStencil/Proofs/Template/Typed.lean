/-
ApiStencil/Proofs/Template/Typed.lean

Well-typed templates.  A template is well typed if it is well scoped and every
condition in it is sure to have a truth value, going by what is known about the
values of placeholders.

Main statement: a well-typed template expands for every registry whose values have
the known forms (`expand_of_wellTyped`).

A scope has two invariants: it covers the static one (`Scope.Covers`), so that every
name of a condition has a value, and its items are allowed (`Scope.Allowed`), so that
these values have their forms.  A turn of a loop keeps both.
-/
import ApiStencil.Proofs.Condition.Typing
import ApiStencil.Proofs.Template.Scoped

namespace ApiStencil

/-! ### Values of known forms -/

namespace Condition.Forms

variable {forms : Forms} {values : Values}

/-- Whether the values have the forms that are known. -/
def Allow (forms : Forms) (values : Values) : Prop :=
  ∀ name form v, forms name = some form → values.get? name = some v → form.Fits v

/-- What is known about these names. -/
def within (forms : Forms) (known : List String) : Forms :=
  fun name => if name ∈ known then forms name else none

theorem allow_empty : forms.Allow ∅ :=
  nofun

/-- Two sets of values that have the known forms still do together. -/
theorem Allow.union {other : Values} (h : forms.Allow values) (h' : forms.Allow other) :
    forms.Allow (values.union other) := by
  intro name form v hform hv
  rw [OrderedMap.get?_union, Option.or_eq_some_iff] at hv
  rcases hv with hv | ⟨-, hv⟩
  · exact h' name form v hform hv
  · exact h name form v hform hv

theorem allow_ofList {l : List (String × String)}
    (h : ∀ e ∈ l, ∀ form, forms e.1 = some form → form.Fits e.2) : forms.Allow (.ofList l) := by
  intro name form v hform hv
  exact OrderedMap.forall_get?_ofList
    (P := fun name v => ∀ form, forms name = some form → form.Fits v) h name v hv form hform

/-- Among names that have values, the known forms are sure. -/
theorem Allow.hold_within {known : List String} (h : forms.Allow values)
    (hknown : ∀ name ∈ known, (values.get? name).isSome = true) :
    (forms.within known).Hold values := by
  intro name form hform
  unfold within at hform
  split at hform
  · next hname =>
    obtain ⟨v, hv⟩ := Option.isSome_iff_exists.1 (hknown name hname)
    exact ⟨v, hv, h name form v hform hv⟩
  · cases hform

end Condition.Forms

namespace Template

open Condition

/-! ### Well-typed templates -/

namespace Node

mutual
/-- Whether the conditions in a node inside loops over the subjects `enclosing` are sure to have
truth values. -/
def isTyped (forms : Forms) (enclosing : List Subject) : Node → Bool
  | .literal _ _ => true
  | .block (.cond condition) _ _ body _ =>
    isSure (forms.within (vocabularyOf enclosing)) condition && areTyped forms enclosing body
  | .block (.loop subject filter) _ _ body _ =>
    filter.all (isSure (forms.within (vocabularyOf (subject :: enclosing)))) &&
      areTyped forms (subject :: enclosing) body

/-- The same of each node in a sequence. -/
def areTyped (forms : Forms) (enclosing : List Subject) : List Node → Bool
  | [] => true
  | n :: r => isTyped forms enclosing n && areTyped forms enclosing r
end

end Node

/-- A template that is well scoped and whose conditions are sure to have truth values. -/
def WellTyped (forms : Forms) (text : List Char) : Prop :=
  ∃ nodes, parse text = .ok nodes ∧ Node.ScopedAll [] nodes ∧
    Node.areTyped forms [] nodes = true

instance (forms : Forms) (text : List Char) : Decidable (WellTyped forms text) :=
  match h : parse text with
  | .error _ => isFalse fun ⟨_, hp, _⟩ => by
    rw [h] at hp
    cases hp
  | .ok nodes => decidable_of_iff (Node.ScopedAll [] nodes ∧ Node.areTyped forms [] nodes = true)
    ⟨fun hn => ⟨nodes, h, hn⟩, fun ⟨_, hp, hn⟩ => by
      rw [h] at hp
      cases hp
      exact hn⟩

/-! ### Items with values of known forms -/

/-- Whether the values of an item and of those that belong to it have the known forms. -/
structure Item.Allowed (forms : Forms) (i : Item) : Prop where
  own : forms.Allow i.placeholders
  owned : ∀ subject items, i.owned? subject = some items → ∀ j ∈ items, forms.Allow j.placeholders

/-- Whether the values of all items in a registry have the known forms. -/
def Allows (forms : Forms) (r : Registry) : Prop :=
  ∀ subject, ∀ i ∈ Subject.collection r subject, i.Allowed forms

/-- Whether the values in a scope have the known forms. -/
structure Scope.Allowed (forms : Forms) (scope : Scope) : Prop where
  values : forms.Allow scope.values
  items : ∀ i ∈ scope.items, i.Allowed forms

variable {forms : Forms} {enclosing : List Subject} {scope : Scope} {r : Registry}

/-- What belongs to another item owns nothing itself. -/
theorem Item.owned?_of_owned {i j : Item} {s : Subject} {items : List Item}
    (h : i.owned? s = some items) (hj : j ∈ items) (subject : Subject) :
    j.owned? subject = none := by
  unfold Item.owned? at h
  split at h
  case h_6 => cases h
  all_goals
    cases h
    obtain ⟨_, -, rfl⟩ := List.mem_map.1 hj
    cases subject <;> rfl

namespace Scope.Allowed

theorem top : Allowed forms Scope.top :=
  ⟨Forms.allow_empty, nofun⟩

theorem push (h : Allowed forms scope) {i : Item} (hi : i.Allowed forms) :
    Allowed forms (scope.push i) :=
  ⟨h.values.union hi.own, List.forall_mem_cons.2 ⟨hi, h.items⟩⟩

/-- The items of a loop are allowed. -/
theorem itemsOf (h : Allowed forms scope) (hr : Allows forms r) {subject : Subject} {line : Nat}
    {items : List Item} (hi : scope.itemsOf r subject line = .ok items) :
    ∀ i ∈ items, i.Allowed forms := by
  unfold Scope.itemsOf at hi
  split at hi
  · cases hi
    exact hr subject
  · split at hi
    · next owned howned =>
      cases hi
      obtain ⟨owner, hmem, howns⟩ := List.exists_of_findSome?_eq_some howned
      intro j hj
      refine ⟨(h.items owner hmem).owned subject _ howns j hj, fun s _ hs => ?_⟩
      -- nothing is two levels below an item of the registry
      rw [Item.owned?_of_owned howns hj] at hs
      cases hs
    · cases hi

/-- A condition that is sure to have a truth value has one. -/
theorem holds (h : Allowed forms scope) (hc : scope.Covers enclosing)
    {condition : Option (List Char)}
    (hsure : condition.all (isSure (forms.within (vocabularyOf enclosing))) = true) (line : Nat) :
    ∃ b, scope.holds line condition = .ok b := by
  cases condition with
  | none => exact ⟨true, rfl⟩
  | some condition =>
    obtain ⟨text, b, htext, hb⟩ := evaluate_of_isSure (h.values.hold_within hc.values) hsure
    refine ⟨b, ?_⟩
    rw [Scope.holds, htext]
    change (evaluate text).mapError _ = _
    rw [hb]
    rfl

end Scope.Allowed

/-! ### Expansion -/

namespace Node

mutual
/-- In a scope that covers its own and has values of the known forms, a well-typed node expands. -/
theorem expand_of_isTyped {enclosing : List Subject} {scope : Scope} (hr : Allows forms r)
    (hc : scope.Covers enclosing) (ha : scope.Allowed forms) (n : Node) (hn : Scoped enclosing n)
    (ht : isTyped forms enclosing n = true) : ∃ fragments, expand r scope n = .ok fragments := by
  match n with
  | .literal line text =>
    obtain ⟨s, hs⟩ := hc.format hn line
    exact ⟨[.text s], by rw [expand, hs]; rfl⟩
  | .block (.cond condition) line _ body _ =>
    rw [isTyped, Bool.and_eq_true] at ht
    rw [expand]
    have hsure : (some condition).all (isSure (forms.within (vocabularyOf enclosing))) = true :=
      ht.1
    refine exists_bind_eq_ok (ha.holds hc hsure line) fun b => ?_
    cases b with
    | true => exact expandAll_of_areTyped hr hc ha body hn.2 ht.2
    | false => exact ⟨[], rfl⟩
  -- a turn keeps both invariants of the scope, so the filter and the body succeed
  | .block (.loop subject filter) line _ body _ =>
    rw [isTyped, Bool.and_eq_true] at ht
    obtain ⟨items, hitems, hsubject⟩ := hc.itemsOf hn.1 r line
    rw [expand, hitems, ok_bind]
    refine exists_bind_eq_ok (exists_mapM_eq_ok fun i hi => ?_) fun parts => ⟨parts.flatten, rfl⟩
    have hpush := hc.push i
    rw [hsubject i hi] at hpush
    have hallowed := ha.push (ha.itemsOf hr hitems i hi)
    refine exists_bind_eq_ok (hallowed.holds hpush ht.1 line) fun b => ?_
    cases b with
    | true =>
      have hbody := expandAll_of_areTyped hr hpush hallowed body hn.2.2 ht.2
      exact exists_bind_eq_ok hbody fun fragments => ⟨_, rfl⟩
    | false => exact ⟨[], rfl⟩

/-- In a scope that covers its own and has values of the known forms, a well-typed part of a
template expands. -/
theorem expandAll_of_areTyped {enclosing : List Subject} {scope : Scope} (hr : Allows forms r)
    (hc : scope.Covers enclosing) (ha : scope.Allowed forms) (nodes : List Node)
    (hn : ScopedAll enclosing nodes) (ht : areTyped forms enclosing nodes = true) :
    ∃ fragments, expandAll r scope nodes = .ok fragments := by
  match nodes with
  | [] => exact ⟨[], rfl⟩
  | n :: rest =>
    rw [areTyped, Bool.and_eq_true] at ht
    have hfirst := expand_of_isTyped hr hc ha n hn.1 ht.1
    have hmore := expandAll_of_areTyped hr hc ha rest hn.2 ht.2
    rw [expandAll]
    exact exists_bind_eq_ok hfirst fun first => exists_bind_eq_ok hmore fun more => ⟨_, rfl⟩
end

end Node

/-- A well-typed template expands for every registry whose values have the known forms. -/
theorem expand_of_wellTyped {text : List Char} (h : WellTyped forms text) (hr : Allows forms r) :
    ∃ out, expand r text = .ok out := by
  obtain ⟨nodes, hparse, hscoped, htyped⟩ := h
  obtain ⟨fragments, hfragments⟩ := Node.expandAll_of_areTyped hr .top .top nodes hscoped htyped
  refine ⟨Fragment.render true fragments, ?_⟩
  rw [expand, hparse, ok_bind, expandNodes, hfragments]
  rfl

end Template

end ApiStencil
