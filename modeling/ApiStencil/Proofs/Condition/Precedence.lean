/-
ApiStencil/Proofs/Condition/Precedence.lean

Conditions without parentheses.  The operators bind in the usual order, comparisons
more tightly than `not`, `not` more tightly than `and`, and that more tightly than `or`;
`and` and `or` group to the left.

Main result: comparisons that are joined in this way are read as the tree that this order
asks for, however many there are (`Alternatives.ofText_text`).

A comparison takes the place of an operand without parentheses since it cannot be
mistaken for a negation, unless it starts with the name `not` (`Derives.negation_of_ne`).
-/
import ApiStencil.Condition.Eval
import ApiStencil.Proofs.Condition.Composition
import ApiStencil.Proofs.Condition.Reading

namespace ApiStencil.Condition

namespace Writes

variable {e a b : Expr} {v w : List Char} {es : List Expr} {ws : List (List Char)}

/-- Two operands with an operator between them are a comparison. -/
theorem comparison (op : Comparison) (ha : Writes (.primary a) v) (hb : Writes (.primary b) w) :
    Writes (.comparison (.compare op a b)) (v ++ ' ' :: op.spelling.toList ++ ' ' :: w) := by
  obtain ⟨ts, hda, hsa⟩ := ha
  obtain ⟨us, hdb, hsb⟩ := hb
  refine ⟨ts ++ (op.tokens ++ us), fun rest => ?_, fun r s h => ?_⟩
  · rw [List.append_assoc, List.append_assoc]
    exact .compare (hda _) (hdb rest)
  · have hall := hsa _ _ (.operator op (hsb r s h))
    simpa using hall

/-- The word `not` in front of an operand negates it. -/
theorem afterNot (h : Writes (.negation e) w) :
    Writes (.negation (.negate e)) ("not ".toList ++ w) := by
  obtain ⟨ts, hd, hs⟩ := h
  have hnot : Token.Spelled (.word "not".toList) "not".toList :=
    .word (by decide) (List.all_eq_true.1 (by decide))
  exact ⟨.word "not".toList :: ts, fun rest => .negate rfl (hd rest),
    fun us s h => Dialect.Spells.spaced hnot (hs us s h)⟩

/-- Texts joined by `and` group to the left. -/
theorem boths (ha : Writes (.conjunction a) v)
    (h : List.Forall₂ (fun e w => Writes (.negation e) w) es ws) :
    Writes (.conjunction (es.foldl .both a)) (v ++ ws.flatMap (" and ".toList ++ ·)) := by
  induction h generalizing a v with
  | nil =>
    rw [List.flatMap_nil, List.append_nil]
    exact ha
  | cons hb _ ih =>
    rw [List.flatMap_cons, ← List.append_assoc, ← List.append_assoc]
    exact ih (ha.both hb)

end Writes

/-! ### Operands, conjunctions and disjunctions -/

/-- A comparison with its text, which stands behind a `not` or alone. -/
structure Operand where
  negative : Bool
  comparison : Expr
  written : List Char
  writes : Writes (.comparison comparison) written
  -- the name `not` in front would be taken for the operator
  ne_not : comparison ≠ .name "not".toList
  left_ne_not : ∀ op b, comparison ≠ .compare op (.name "not".toList) b

namespace Operand

/-- The expression of the operand. -/
def expr (o : Operand) : Expr :=
  if o.negative then .negate o.comparison else o.comparison

/-- The operand as it is written. -/
def text (o : Operand) : List Char :=
  if o.negative then "not ".toList ++ o.written else o.written

theorem writes_text (o : Operand) : Writes (.negation o.expr) o.text := by
  obtain ⟨ts, hd, hs⟩ := o.writes
  have hplain : Writes (.negation o.comparison) o.written :=
    ⟨ts, fun rest => (hd rest).negation_of_ne o.ne_not o.left_ne_not, hs⟩
  unfold expr text
  split
  · exact hplain.afterNot
  · exact hplain

end Operand

/-- Operands that are joined by `and`. -/
structure Conjuncts where
  first : Operand
  others : List Operand

namespace Conjuncts

/-- The conjuncts from left to right. -/
def expr (c : Conjuncts) : Expr :=
  (c.others.map Operand.expr).foldl .both c.first.expr

/-- The conjuncts with `and` between them. -/
def text (c : Conjuncts) : List Char :=
  c.first.text ++ (c.others.map Operand.text).flatMap (" and ".toList ++ ·)

theorem writes_text (c : Conjuncts) : Writes (.conjunction c.expr) c.text := by
  refine Writes.boths c.first.writes_text.conjunction ?_
  rw [List.forall₂_map_left_iff, List.forall₂_map_right_iff]
  exact List.forall₂_same.2 fun o _ => o.writes_text

end Conjuncts

/-- Conjunctions that are joined by `or`. -/
structure Alternatives where
  first : Conjuncts
  others : List Conjuncts

namespace Alternatives

/-- The alternatives from left to right. -/
def expr (a : Alternatives) : Expr :=
  (a.others.map Conjuncts.expr).foldl .either a.first.expr

/-- The alternatives with `or` between them. -/
def text (a : Alternatives) : List Char :=
  a.first.text ++ (a.others.map Conjuncts.text).flatMap (" or ".toList ++ ·)

theorem writes_text (a : Alternatives) : Writes (.disjunction a.expr) a.text := by
  refine Writes.eithers a.first.writes_text.disjunction ?_
  rw [List.forall₂_map_left_iff, List.forall₂_map_right_iff]
  exact List.forall₂_same.2 fun c _ => c.writes_text

/-- Without parentheses, a condition is read by the precedence of its operators. -/
theorem ofText_text (a : Alternatives) : Expr.ofText a.text = .ok a.expr :=
  ofText_eq_ok_iff.2 a.writes_text.renders

end Alternatives

/-- In another order, this would be no condition, or would not hold. -/
example : evaluate "false and not 1 == 2 or true".toList = .ok true := by
  decide +kernel

end ApiStencil.Condition
