/-
ApiStencil/Proofs/Condition/Negation.lean

The negation of a condition as a text: `not (c)` writes the negation of the expression that
`c` writes (`Renders.negated`).

Main result: where a condition with placeholders has a truth value, its negation has the
other one, whatever the values are (`evaluate_negated`, `substitute_negated`).
-/
import ApiStencil.Condition.Eval
import ApiStencil.Proofs.Condition.Composition
import ApiStencil.Proofs.Condition.Filling
import ApiStencil.Proofs.Condition.Reading
import ApiStencil.Proofs.Except
import ApiStencil.Proofs.Placeholder.Substitute

namespace ApiStencil.Condition

open Placeholder

/-- The negation of an expression is written with its text in parentheses. -/
theorem Renders.negated {e : Expr} {text : List Char} (h : Renders e text) :
    Renders (.negate e) (negated text) := by
  have hwrites : Writes (.negation (.negate e)) (Condition.negated text) := .negate h
  exact hwrites.conjunction.disjunction.renders

/-! ### Truth values -/

/-- A condition has a truth value exactly if it writes an expression that has it. -/
theorem evaluate_eq_ok_iff {text : List Char} {b : Bool} :
    evaluate text = .ok b ↔ ∃ e, Renders e text ∧ e.eval = .ok (.bool b) := by
  simp only [evaluate, bind_eq_ok_iff, ofText_eq_ok_iff]
  constructor
  · rintro ⟨e, he, v, hv, hb⟩
    cases v with
    | bool b' =>
      cases hb
      exact ⟨e, he, hv⟩
    | _ => cases hb
  · rintro ⟨e, he, hv⟩
    exact ⟨e, he, _, hv, rfl⟩

/-- If a condition has a truth value, its negation has the other one. -/
theorem evaluate_negated {text : List Char} {b : Bool} (h : evaluate text = .ok b) :
    evaluate (negated text) = .ok !b := by
  obtain ⟨e, he, hv⟩ := evaluate_eq_ok_iff.1 h
  refine evaluate_eq_ok_iff.2 ⟨_, he.negated, ?_⟩
  rw [Expr.eval, hv]
  rfl

/-- Placeholders are replaced inside a negation as they are without it. -/
theorem substitute_negated {values : Values} {condition text : List Char}
    (h : substitute values condition = .ok text) :
    substitute values (negated condition) = .ok (negated text) := by
  have hplain : "not (".toList.all (fun c => c ≠ '{' && c ≠ '}') = true := by decide
  have hfront : substitute values "not (".toList = .ok "not (".toList :=
    substitute_of_no_brace fun c hc => by simpa using List.all_eq_true.1 hplain c hc
  have hback : substitute values [')'] = .ok [')'] :=
    substitute_of_no_brace (by simp)
  exact substitute_append (substitute_append hfront h) hback

end ApiStencil.Condition
