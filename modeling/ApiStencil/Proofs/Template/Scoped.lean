/-
ApiStencil/Proofs/Template/Scoped.lean

Static scoping.  A template is well scoped if all its braces are in order, every
name in braces belongs to the vocabulary of a loop around it, and every loop over
owned items stands inside a loop over their owners.  None of this refers to a
registry.

Main statement: whatever the registry, a well-scoped template expands, or a
condition in it has no truth value (`expand_of_wellScoped`).

The scope at run time covers the static one (`Scope.Covers`): it holds one item of
each enclosing subject, and values for their vocabularies.  A turn of a loop keeps
this (`Scope.Covers.push`), which carries the induction over the tree.
-/
import ApiStencil.Proofs.Except
import ApiStencil.Proofs.Placeholder.Pieces
import ApiStencil.Proofs.Template.Vocabulary
import ApiStencil.Template.Expand

namespace ApiStencil

namespace Placeholder

/-! ### Texts whose braces are in order -/

/-- Every brace of the text is written twice or belongs to a name in braces, and all these names
are known. -/
def Braced (known : List String) (text : List Char) : Prop :=
  ∃ pieces : List Piece, pieces.flatMap Piece.source = text ∧
    ∀ p ∈ pieces, p.WellFormed ∧ ∀ n, p.name? = some n → String.ofList n ∈ known

/-- To see whether braces are in order, it is enough to cut the text once. -/
theorem braced_iff {known : List String} {text : List Char} :
    Braced known text ↔ ∃ pieces ∈ pieces? text,
      ∀ n ∈ pieces.filterMap Piece.name?, String.ofList n ∈ known := by
  constructor
  · rintro ⟨pieces, hs, hp⟩
    refine ⟨pieces, pieces?_eq_some_iff.2 ⟨hs, fun p hm => (hp p hm).1⟩, ?_⟩
    intro n hn
    obtain ⟨p, hm, hname⟩ := List.mem_filterMap.1 hn
    exact (hp p hm).2 n hname
  · rintro ⟨pieces, hp, hn⟩
    obtain ⟨hs, hw⟩ := pieces?_eq_some_iff.1 hp
    exact ⟨pieces, hs, fun p hm => ⟨hw p hm, fun n h => hn n (List.mem_filterMap.2 ⟨p, hm, h⟩)⟩⟩

instance (known : List String) (text : List Char) : Decidable (Braced known text) :=
  decidable_of_iff _ braced_iff.symm

/-- If all known names have values, the placeholders can be replaced. -/
theorem substitute_of_braced {known : List String} {text : List Char} {values : Values}
    (h : Braced known text) (hv : ∀ name ∈ known, (values.get? name).isSome = true) :
    ∃ s, substitute values text = .ok s := by
  obtain ⟨pieces, rfl, hp⟩ := h
  exact ⟨_, substitute_flatMap_source fun p hm =>
    ⟨(hp p hm).1, fun n hn => hv _ ((hp p hm).2 n hn)⟩⟩

end Placeholder

namespace Template

open Placeholder

/-! ### Well-scoped templates -/

/-- The names that loops over these subjects give a meaning to. -/
def vocabularyOf (enclosing : List Subject) : List String :=
  enclosing.flatMap Subject.vocabulary

/-- A loop over the subject needs no owner, or one of the enclosing loops provides it. -/
def Subject.OwnedIn (s : Subject) (enclosing : List Subject) : Prop :=
  s.owners = [] ∨ ∃ o ∈ enclosing, o ∈ s.owners

instance (s : Subject) (enclosing : List Subject) : Decidable (s.OwnedIn enclosing) :=
  inferInstanceAs (Decidable (_ ∨ _))

namespace Node

mutual
/-- The node is well scoped inside loops over the subjects `enclosing`, the innermost first.  The
filter of a loop can refer to the item that it decides about. -/
def Scoped (enclosing : List Subject) : Node → Prop
  | .literal _ text => Braced (vocabularyOf enclosing) text
  | .block (.cond condition) _ _ body _ =>
    Braced (vocabularyOf enclosing) condition ∧ ScopedAll enclosing body
  | .block (.loop subject filter) _ _ body _ =>
    subject.OwnedIn enclosing ∧
      (∀ condition ∈ filter, Braced (vocabularyOf (subject :: enclosing)) condition) ∧
      ScopedAll (subject :: enclosing) body

/-- The same of each node in a sequence. -/
def ScopedAll (enclosing : List Subject) : List Node → Prop
  | [] => True
  | n :: r => Scoped enclosing n ∧ ScopedAll enclosing r
end

mutual
/-- Scoping can be decided, along the tree. -/
def decidableScoped (enclosing : List Subject) (n : Node) : Decidable (Scoped enclosing n) :=
  match n with
  | .literal _ text => inferInstanceAs (Decidable (Braced (vocabularyOf enclosing) text))
  | .block (.cond condition) _ _ body _ =>
    have := decidableScopedAll enclosing body
    inferInstanceAs (Decidable (Braced (vocabularyOf enclosing) condition ∧ _))
  | .block (.loop subject filter) _ _ body _ =>
    have := decidableScopedAll (subject :: enclosing) body
    inferInstanceAs (Decidable (subject.OwnedIn enclosing ∧ (∀ _ ∈ filter, _) ∧ _))

def decidableScopedAll (enclosing : List Subject) (nodes : List Node) :
    Decidable (ScopedAll enclosing nodes) :=
  match nodes with
  | [] => isTrue trivial
  | n :: r =>
    have := decidableScoped enclosing n
    have := decidableScopedAll enclosing r
    inferInstanceAs (Decidable (Scoped enclosing n ∧ ScopedAll enclosing r))
end

instance (enclosing : List Subject) (nodes : List Node) : Decidable (ScopedAll enclosing nodes) :=
  decidableScopedAll enclosing nodes

end Node

/-- A template that can be read and is well scoped. -/
def WellScoped (text : List Char) : Prop :=
  ∃ nodes, parse text = .ok nodes ∧ Node.ScopedAll [] nodes

instance (text : List Char) : Decidable (WellScoped text) :=
  match h : parse text with
  | .error _ => isFalse fun ⟨_, hp, _⟩ => by
    rw [h] at hp
    cases hp
  | .ok nodes => decidable_of_iff (Node.ScopedAll [] nodes)
    ⟨fun hn => ⟨nodes, h, hn⟩, fun ⟨_, hp, hn⟩ => by
      rw [h] at hp
      cases hp
      exact hn⟩

/-! ### Results that only conditions can spoil -/

/-- If the computation fails, a condition has no truth value. -/
def FailsByCondition {α : Type} (x : Except Error α) : Prop :=
  ∀ e, x = .error e → ∃ line entity cause, e = .condition line entity cause

namespace FailsByCondition

variable {α β : Type}

theorem ok (a : α) : FailsByCondition (.ok a) := nofun

/-- A computation that goes on after a first step fails by a condition only, if both do. -/
theorem bind {x : Except Error α} {f : α → Except Error β} (hx : FailsByCondition x)
    (hf : ∀ a, x = .ok a → FailsByCondition (f a)) : FailsByCondition (x >>= f) := by
  intro e he
  cases x with
  | error e' =>
    obtain rfl : e' = e := Except.error.inj he
    exact hx e' rfl
  | ok a => exact hf a rfl e he

/-- The same of a step for each element of a list. -/
theorem mapM {f : α → Except Error β} {l : List α} (h : ∀ a ∈ l, FailsByCondition (f a)) :
    FailsByCondition (l.mapM f) := by
  induction l with
  | nil => exact ok []
  | cons a r ih =>
    rw [List.mapM_cons]
    refine (h a List.mem_cons_self).bind fun b _ => ?_
    exact (ih fun a' ha => h a' (List.mem_cons_of_mem a ha)).bind fun _ _ => ok _

end FailsByCondition

/-! ### Scopes at run time -/

/-- The scope holds an item of each enclosing subject, and values for their vocabularies. -/
structure Scope.Covers (enclosing : List Subject) (scope : Scope) : Prop where
  items : scope.items.map Item.subject = enclosing
  values : ∀ name ∈ vocabularyOf enclosing, (scope.values.get? name).isSome = true

namespace Scope.Covers

variable {enclosing : List Subject} {scope : Scope}

theorem top : Covers [] Scope.top :=
  ⟨rfl, nofun⟩

/-- A turn of a loop adds its item, with values for the vocabulary of its subject. -/
theorem push (h : Covers enclosing scope) (i : Item) :
    Covers (i.subject :: enclosing) (scope.push i) := by
  refine ⟨?_, ?_⟩
  · show i.subject :: scope.items.map Item.subject = _
    rw [h.items]
  · intro name hname
    show ((scope.values.union i.placeholders).get? name).isSome = true
    rw [OrderedMap.get?_union, Option.isSome_or, Bool.or_eq_true]
    rcases List.mem_append.1 hname with hi | ho
    · exact .inl (OrderedMap.contains_iff_mem_keys.2 (i.mem_keys_placeholders.2 hi))
    · exact .inr (h.values name ho)

/-- A text whose braces are in order can be formatted. -/
theorem format (h : Covers enclosing scope) {text : List Char}
    (ht : Braced (vocabularyOf enclosing) text) (line : Nat) :
    ∃ s, scope.format line text = .ok s := by
  obtain ⟨s, hs⟩ := substitute_of_braced ht h.values
  exact ⟨s, by rw [Scope.format, hs]; rfl⟩

/-- Such a condition is read, so only its truth value can be missing. -/
theorem holds (h : Covers enclosing scope) {condition : Option (List Char)}
    (hc : ∀ c ∈ condition, Braced (vocabularyOf enclosing) c) (line : Nat) :
    FailsByCondition (scope.holds line condition) := by
  cases condition with
  | none => exact .ok true
  | some c =>
    obtain ⟨s, hs⟩ := substitute_of_braced (hc c rfl) h.values
    rw [Scope.holds, hs]
    intro e he
    change (Condition.evaluate s).mapError (Error.condition line scope.entity?) = .error e at he
    cases hv : Condition.evaluate s with
    | ok b => rw [hv] at he; cases he
    | error cause =>
      rw [hv] at he
      exact ⟨line, scope.entity?, cause, (Except.error.inj he).symm⟩

/-- A loop finds its items, and they are items of its subject. -/
theorem itemsOf (h : Covers enclosing scope) {subject : Subject} (ho : subject.OwnedIn enclosing)
    (r : Registry) (line : Nat) :
    ∃ items, scope.itemsOf r subject line = .ok items ∧ ∀ i ∈ items, i.subject = subject := by
  unfold Scope.itemsOf
  cases hs : subject.owner? with
  | none => exact ⟨_, rfl, fun i => Subject.subject_of_mem_collection⟩
  | some owner =>
    -- one of the enclosing items is an owner, so the search for one succeeds
    have hfound : (scope.items.findSome? (Item.owned? subject)).isSome = true := by
      rcases ho with hn | ⟨o, hmem, howns⟩
      · rw [Subject.owner?_eq_none_iff.2 hn] at hs
        cases hs
      · rw [← h.items] at hmem
        obtain ⟨i, hi, rfl⟩ := List.mem_map.1 hmem
        rw [List.findSome?_isSome_iff]
        exact ⟨i, hi, Item.isSome_owned? howns⟩
    obtain ⟨items, hitems⟩ := Option.isSome_iff_exists.1 hfound
    rw [hitems]
    obtain ⟨i, -, hi⟩ := List.exists_of_findSome?_eq_some hitems
    exact ⟨items, rfl, fun j => Item.subject_of_mem_owned? hi⟩

end Scope.Covers

/-! ### Expansion -/

namespace Node

variable (r : Registry)

mutual
/-- In a scope that covers its own, a well-scoped node fails by a condition only. -/
theorem expand_of_scoped {enclosing : List Subject} {scope : Scope} (h : scope.Covers enclosing)
    (n : Node) (hn : Scoped enclosing n) : FailsByCondition (expand r scope n) := by
  match n with
  | .literal line text =>
    obtain ⟨s, hs⟩ := h.format hn line
    rw [expand, hs]
    exact .ok _
  | .block (.cond condition) line _ body _ =>
    obtain ⟨hc, hb⟩ := hn
    rw [expand]
    refine (h.holds (by rintro c ⟨⟩; exact hc) line).bind fun b _ => ?_
    cases b with
    | true => exact expandAll_of_scoped h body hb
    | false => exact .ok _
  -- a loop gets its items as their owner is around it, and each turn covers one subject more
  | .block (.loop subject filter) line _ body _ =>
    obtain ⟨ho, hc, hb⟩ := hn
    obtain ⟨items, hi, hsubject⟩ := h.itemsOf ho r line
    rw [expand, hi]
    change FailsByCondition (items.mapM _ >>= fun parts => .ok parts.flatten)
    refine FailsByCondition.bind (.mapM fun i hm => ?_) fun _ _ => .ok _
    have hpush := h.push i
    rw [hsubject i hm] at hpush
    refine (hpush.holds hc line).bind fun b _ => ?_
    cases b with
    | true => exact (expandAll_of_scoped hpush body hb).bind fun _ _ => .ok _
    | false => exact .ok _

/-- In a scope that covers its own, a well-scoped part of a template fails by a condition only. -/
theorem expandAll_of_scoped {enclosing : List Subject} {scope : Scope}
    (h : scope.Covers enclosing) (nodes : List Node) (hn : ScopedAll enclosing nodes) :
    FailsByCondition (expandAll r scope nodes) := by
  match nodes with
  | [] => exact .ok []
  | n :: rest =>
    rw [expandAll]
    refine (expand_of_scoped h n hn.1).bind fun _ _ => ?_
    exact (expandAll_of_scoped h rest hn.2).bind fun _ _ => .ok _
end

end Node

/-- A well-scoped template expands for every registry, unless a condition has no truth value: no
owner is missing and every placeholder can be replaced. -/
theorem expand_of_wellScoped {text : List Char} (h : WellScoped text) (r : Registry) :
    (∃ out, expand r text = .ok out) ∨
      ∃ line entity cause, expand r text = .error (.condition line entity cause) := by
  obtain ⟨nodes, hp, hs⟩ := h
  have hall := Node.expandAll_of_scoped r Scope.Covers.top nodes hs
  rw [expand, hp]
  change (∃ out, (Node.expandAll r .top nodes).map _ = .ok out) ∨
    ∃ line entity cause, (Node.expandAll r .top nodes).map _ = .error _
  cases hx : Node.expandAll r .top nodes with
  | ok fragments => exact .inl ⟨_, rfl⟩
  | error e =>
    obtain ⟨line, entity, cause, rfl⟩ := hall e hx
    exact .inr ⟨line, entity, cause, rfl⟩

/-- A registry with a struct of one member. -/
def oneStruct : Registry :=
  let x : Variable :=
    ⟨"x", "int", "int", "", "int", "int x", 0, none, false, false, false, 0⟩
  { (default : Registry) with structs := .ofList [("S", ⟨"S", [⟨x, none, none⟩], "", -1⟩)] }

/-- Members of structs, with a filter that looks at both, between doubled braces. -/
def membersOfStructs : List Char :=
  "@foreach struct\nstruct {sctName} \x7b\x7b\n".toList ++
    "@foreach member where('{memName}' != '{sctName}')\n{memDeclaration};\n".toList ++
    "@end member\n\x7d\x7d;\n@end struct\n".toList

theorem expand_of_wellScoped_members :
    WellScoped membersOfStructs ∧
      ((∃ out, expand oneStruct membersOfStructs = .ok out) ∨
        ∃ line entity cause,
          expand oneStruct membersOfStructs = .error (.condition line entity cause)) :=
  ⟨by decide +kernel, expand_of_wellScoped (by decide +kernel) oneStruct⟩

end Template

end ApiStencil
