/-
ApiStencil/Proofs/Condition/Laws.lean

Boolean laws of conditions, as laws of their texts.  Two conditions have the same truth
(`SameTruth`) or opposite truth (`OppositeTruth`) if they fail together, and are related in
this way where they do not.

`and` and `or` are one connective with two decisive truth values (`connect`): the first
operand is the result if it is the decisive one, and the second one is not evaluated then.
Negation exchanges the two (`connect_negate`).  An operand of the wrong kind is an error for
every operator of the laws, though not the same error.

Main result: `!=` and `not in` are the negations of `==` and `in`, negation exchanges `and`
with `or`, and `in` asks for each item of a list in turn (`evaluate_laws`).
-/
import ApiStencil.Proofs.Condition.Negation

namespace ApiStencil.Condition

/-- The value of the expression that a text writes. -/
def valueOf (text : List Char) : Except Error Value := do
  let e ← Expr.ofText text
  e.eval

/-- Both conditions fail, or they have the same truth value. -/
def SameTruth (a b : List Char) : Prop :=
  Agree (fun p q => p = q) (evaluate a) (evaluate b)

/-- Both conditions fail, or one holds and the other does not. -/
def OppositeTruth (a b : List Char) : Prop :=
  Agree (fun p q => p = !q) (evaluate a) (evaluate b)

/-! ### Expressions -/

/-- The truth value that a condition with this value has. -/
def Value.truth : Value → Except Error Bool
  | .bool b => .ok b
  | v => .error (.notBoolean v.kind)

/-- A connective of which one truth value is decisive: the result if the first operand has it. -/
def connect (op : Operator) (decisive : Bool) (a b : Except Error Value) : Except Error Value := do
  let left ← (← a).operand op
  if left = decisive then return .bool decisive
  else
    let right ← (← b).operand op
    return .bool right

/-- The negation of a value. -/
def Value.negation (v : Value) : Except Error Value := do
  let b ← v.operand .negation
  return .bool !b

namespace Expr

/-- A conjunction is decided by a false operand. -/
theorem eval_both (a b : Expr) :
    eval (.both a b) = connect .conjunction false a.eval b.eval := by
  rw [eval, connect]
  congr 1
  funext v
  congr 1
  funext left
  cases left <;> rfl

theorem eval_either (a b : Expr) :
    eval (.either a b) = connect .disjunction true a.eval b.eval := by
  rw [eval]
  rfl

theorem eval_negate (e : Expr) : eval (.negate e) = e.eval >>= Value.negation := by
  rw [eval]
  rfl

end Expr

/-- Negation exchanges the two connectives. -/
theorem connect_negate (op op' : Operator) (decisive : Bool) (a b : Except Error Value) :
    Agree (fun v w => v = w) (connect op decisive a b >>= Value.negation)
      (connect op' (!decisive) (a >>= Value.negation) (b >>= Value.negation)) := by
  cases a with
  | error e => exact .error _ _
  | ok v =>
    cases v with
    | bool p =>
      by_cases hp : p = decisive
      · subst hp
        cases p <;> exact .ok rfl
      · -- the second operand is evaluated on both sides
        obtain rfl : p = !decisive := by cases p <;> cases decisive <;> simp at hp ⊢
        cases b with
        | error e => cases decisive <;> exact .error _ _
        | ok w =>
          cases w with
          | bool q => cases decisive <;> exact .ok rfl
          | _ => cases decisive <;> exact .error _ _
    | _ => exact .error _ _

/-- A disjunction of truth values has one of them that holds. -/
theorem eval_eithers {β : Type} {f : β → Bool} {es : List Expr} {ws : List β} {first : Expr}
    {p : Bool} (hfirst : first.eval = .ok (.bool p))
    (h : List.Forall₂ (fun e w => e.eval = .ok (.bool (f w))) es ws) :
    (es.foldl .either first).eval = .ok (.bool (p || ws.any f)) := by
  induction h generalizing first p with
  | nil =>
    rw [List.any_nil, Bool.or_false]
    exact hfirst
  | @cons e w es ws he _ ih =>
    have hnext : (Expr.either first e).eval = .ok (.bool (p || f w)) := by
      rw [Expr.eval_either, hfirst, he]
      -- a true disjunction stays true without a look at the next operand
      cases p <;> rfl
    rw [List.foldl_cons, ih hnext, List.any_cons, Bool.or_assoc]

/-- A list has the values of its items if all of them have values. -/
theorem evalAll_of_forall₂ {es : List Expr} {ws : List Value}
    (h : List.Forall₂ (fun e w => e.eval = .ok w) es ws) : Expr.evalAll es = .ok ws := by
  induction h with
  | nil => rw [Expr.evalAll]
  | cons he _ ih =>
    rw [Expr.evalAll, he, ih]
    rfl

/-! ### Texts -/

section

variable {a b x : List Char} {ea eb e f : Expr} {v : Value} {items : List (List Char)}

theorem Renders.evaluate (h : Renders e a) : evaluate a = e.eval >>= Value.truth := by
  rw [Condition.evaluate, ofText_eq_ok_iff.2 h, ok_bind]
  rfl

theorem valueOf_eq_ok_iff : valueOf a = .ok v ↔ ∃ e, Renders e a ∧ e.eval = .ok v := by
  simp only [valueOf, bind_eq_ok_iff, ofText_eq_ok_iff]

theorem Renders.compared (op : Comparison) (ha : Renders ea a) (hb : Renders eb b) :
    Renders (.compare op ea eb) (compared op a b) := by
  have hwrites := Writes.compared op ha (.enclosed hb)
  exact hwrites.conjunction.disjunction.renders

theorem Renders.conjoined (ha : Renders ea a) (hb : Renders eb b) :
    Renders (.both ea eb) (conjoined a b) :=
  (Writes.both (Writes.operand ha).conjunction (.operand hb)).disjunction.renders

theorem Renders.disjoined (ha : Renders ea a) (hb : Renders eb b) :
    Renders (.either ea eb) (disjoined a b) := by
  have hwrites := Writes.either (Writes.operand ha).conjunction.disjunction
    (Writes.operand hb).conjunction
  exact hwrites.renders

/-- Conditions have the same truth if the expressions that they write have the same value or both
fail. -/
theorem sameTruth_of_eval (ha : Renders e a) (hb : Renders f b)
    (h : Agree (fun v w => v = w) e.eval f.eval) : SameTruth a b := by
  rw [SameTruth, ha.evaluate, hb.evaluate]
  refine h.bind fun v w hvw => ?_
  subst hvw
  exact .refl (fun _ => rfl) _

/-- A comparison evaluates its operands from the left to the right and then applies its operator. -/
theorem evaluate_compared (op : Comparison) (ha : Renders ea a) (hb : Renders eb b) :
    evaluate (compared op a b) = ea.eval >>= fun v => eb.eval >>= fun w => op.apply v w := by
  rw [(ha.compared op hb).evaluate, Expr.eval]
  cases ea.eval with
  | error e => rfl
  | ok v =>
    cases eb.eval with
    | error e => rfl
    | ok w =>
      simp only [ok_bind]
      cases op.apply v w <;> rfl

/-- Where one operator decides against the other, the conditions have opposite truth. -/
theorem oppositeTruth_of_apply {op op' : Comparison} (ha : Renders ea a) (hb : Renders eb b)
    (h : ∀ v w, Agree (fun p q => p = !q) (op.apply v w) (op'.apply v w)) :
    OppositeTruth (compared op a b) (compared op' a b) := by
  rw [OppositeTruth, evaluate_compared op ha hb, evaluate_compared op' ha hb]
  -- the operands are the same on both sides, and so are their errors
  refine (Agree.refl (R := fun v w => v = w) (fun _ => rfl) ea.eval).bind ?_
  rintro v _ rfl
  refine (Agree.refl (R := fun v w => v = w) (fun _ => rfl) eb.eval).bind ?_
  rintro w _ rfl
  exact h v w

/-- `!=` decides against `==` wherever the two kinds may be compared, and fails where `==` fails. -/
theorem apply_notEqual (v w : Value) :
    Agree (fun p q => p = !q) (Comparison.notEqual.apply v w) (Comparison.equal.apply v w) := by
  simp only [Comparison.apply]
  split
  · exact .ok rfl
  · exact .error _ _

/-- `not in` decides against `in`, and fails where `in` fails. -/
theorem apply_notIn (v w : Value) :
    Agree (fun p q => p = !q) (Comparison.notIn.apply v w) (Comparison.isIn.apply v w) := by
  simp only [Comparison.apply]
  split
  · exact .ok rfl
  · exact .error _ _

theorem sameTruth_negated_conjoined (ha : Renders ea a) (hb : Renders eb b) :
    SameTruth (negated (conjoined a b)) (disjoined (negated a) (negated b)) := by
  refine sameTruth_of_eval (ha.conjoined hb).negated (ha.negated.disjoined hb.negated) ?_
  rw [Expr.eval_negate, Expr.eval_both, Expr.eval_either, Expr.eval_negate, Expr.eval_negate]
  exact connect_negate .conjunction .disjunction false _ _

theorem sameTruth_negated_disjoined (ha : Renders ea a) (hb : Renders eb b) :
    SameTruth (negated (disjoined a b)) (conjoined (negated a) (negated b)) := by
  refine sameTruth_of_eval (ha.disjoined hb).negated (ha.negated.conjoined hb.negated) ?_
  rw [Expr.eval_negate, Expr.eval_either, Expr.eval_both, Expr.eval_negate, Expr.eval_negate]
  exact connect_negate .disjunction .conjunction true _ _

/-! ### Items of a list -/

/-- Texts that all have values are written by expressions that have them. -/
theorem exists_forall₂_of_values {P : Value → Prop}
    (h : ∀ l ∈ items, ∃ w, valueOf l = .ok w ∧ P w) :
    ∃ es ws, List.Forall₂ Renders es items ∧
      List.Forall₂ (fun e w => e.eval = .ok w ∧ P w) es ws := by
  induction items with
  | nil => exact ⟨[], [], .nil, .nil⟩
  | cons l items ih =>
    obtain ⟨⟨w, hw, hp⟩, hrest⟩ := List.forall_mem_cons.1 h
    obtain ⟨e, he, heval⟩ := valueOf_eq_ok_iff.1 hw
    obtain ⟨es, ws, hes, hvalues⟩ := ih hrest
    exact ⟨e :: es, w :: ws, .cons he hes, .cons ⟨heval, hp⟩ hvalues⟩

variable {es : List Expr} {ws : List Value}

/-- The question for an item of a list is a comparison with the list. -/
theorem Renders.among (hx : Renders e x) (hes : List.Forall₂ Renders es items) :
    Renders (.compare .isIn e (.list es)) (amongText x items) := by
  have hitems : List.Forall₂ (fun e w => Writes (.primary e) w) es (items.map enclosed) := by
    rw [List.forall₂_map_right_iff]
    exact hes.imp fun _ _ h => .enclosed h
  have hwrites := Writes.compared .isIn hx (.list hitems)
  have htext : amongText x items =
      enclosed x ++ ' ' :: Comparison.isIn.spelling.toList ++ ' ' :: listed items := by
    simp [amongText, Comparison.spelling]
  rw [htext]
  exact hwrites.conjunction.disjunction.renders

/-- The questions for each item one after the other group to the left. -/
theorem Renders.equalsSome {l : List Char} (hx : Renders e x) (hf : Renders f l)
    (hes : List.Forall₂ Renders es items) :
    Renders ((es.map (.compare .equal e)).foldl .either (.compare .equal e f))
      (equalsSome x (l :: items)) := by
  have hfirst := Writes.compared .equal hx (.enclosed hf)
  have hmore : List.Forall₂ (fun e w => Writes (.conjunction e) w)
      (es.map (.compare .equal e)) (items.map (Condition.compared .equal x)) := by
    rw [List.forall₂_map_left_iff, List.forall₂_map_right_iff]
    exact hes.imp fun _ _ h => (Writes.compared .equal hx (.enclosed h)).conjunction
  have hwrites := Writes.eithers hfirst.conjunction.disjunction hmore
  rw [Condition.equalsSome, List.map_cons, intercalate_cons_eq]
  exact hwrites.renders

theorem eval_compare_equal {v w : Value} (he : e.eval = .ok v) (hf : f.eval = .ok w)
    (hk : w.kind = v.kind) : (Expr.compare .equal e f).eval = .ok (.bool (decide (v = w))) := by
  have happly : Comparison.equal.apply v w = .ok (decide (v = w)) := if_pos hk.symm
  rw [Expr.eval, he, hf, ok_bind, ok_bind, happly]
  rfl

/-- A value is an item of a list or not, and `in` does not fail. -/
theorem eval_compare_isIn (he : e.eval = .ok v)
    (hes : List.Forall₂ (fun e w => e.eval = .ok w) es ws) :
    (Expr.compare .isIn e (.list es)).eval = .ok (.bool (decide (v ∈ ws))) := by
  have happly : Comparison.isIn.apply v (.list ws) = .ok (decide (v ∈ ws)) := by
    cases v <;> rfl
  rw [Expr.eval, he, Expr.eval, evalAll_of_forall₂ hes]
  simp only [ok_bind, pure_bind, happly]
  rfl

/-- Asking for each item in turn comes to whether the value is one of them. -/
theorem eval_equalsSome {w : Value} (he : e.eval = .ok v) (hf : f.eval = .ok w ∧ w.kind = v.kind)
    (hes : List.Forall₂ (fun e w => e.eval = .ok w ∧ w.kind = v.kind) es ws) :
    ((es.map (Expr.compare .equal e)).foldl Expr.either (.compare .equal e f)).eval =
      .ok (.bool (decide (v ∈ w :: ws))) := by
  have hmore : List.Forall₂ (fun (e : Expr) w => e.eval = .ok (.bool (decide (v = w))))
      (es.map (Expr.compare .equal e)) ws := by
    rw [List.forall₂_map_left_iff]
    exact hes.imp fun _ _ h => eval_compare_equal he h.1 h.2
  rw [eval_eithers (eval_compare_equal he hf.1 hf.2) hmore]
  simp [List.mem_cons, List.any_eq]

/-- A value is in a list if it equals one of the items, which have its kind. -/
theorem evaluate_amongText (hx : valueOf x = .ok v)
    (hitems : ∀ l ∈ items, ∃ w, valueOf l = .ok w ∧ w.kind = v.kind) :
    ∃ b, evaluate (amongText x items) = .ok b ∧ (items = [] → b = false) ∧
      (items ≠ [] → evaluate (equalsSome x items) = .ok b) := by
  obtain ⟨e, he, hv⟩ := valueOf_eq_ok_iff.1 hx
  obtain ⟨es, ws, hes, hvalues⟩ := exists_forall₂_of_values hitems
  -- the list without items has no question to ask in turn, so it is a part of its own
  refine ⟨decide (v ∈ ws), ?_, ?_, ?_⟩
  · rw [(he.among hes).evaluate, eval_compare_isIn hv (hvalues.imp fun _ _ h => h.1)]
    rfl
  · rintro rfl
    cases hes
    cases hvalues
    rfl
  · intro hne
    cases hes with
    | nil => exact absurd rfl hne
    | cons hf hes =>
      cases hvalues with
      | @cons _ w _ ws hw hvalues =>
        rw [(he.equalsSome hf hes).evaluate, eval_equalsSome hv hw hvalues]
        rfl

end

/-- Boolean laws of conditions. -/
theorem evaluate_laws :
    (∀ a b ea eb, Expr.ofText a = .ok ea → Expr.ofText b = .ok eb →
      OppositeTruth (compared .notEqual a b) (compared .equal a b) ∧
      OppositeTruth (compared .notIn a b) (compared .isIn a b) ∧
      SameTruth (negated (conjoined a b)) (disjoined (negated a) (negated b)) ∧
      SameTruth (negated (disjoined a b)) (conjoined (negated a) (negated b))) ∧
    ∀ x items v, valueOf x = .ok v →
      (∀ l ∈ items, ∃ w, valueOf l = .ok w ∧ w.kind = v.kind) →
      ∃ b, evaluate (amongText x items) = .ok b ∧ (items = [] → b = false) ∧
        (items ≠ [] → evaluate (equalsSome x items) = .ok b) := by
  refine ⟨fun a b ea eb ha hb => ?_, fun x items v => evaluate_amongText⟩
  have ha := ofText_eq_ok_iff.1 ha
  have hb := ofText_eq_ok_iff.1 hb
  exact ⟨oppositeTruth_of_apply ha hb apply_notEqual, oppositeTruth_of_apply ha hb apply_notIn,
    sameTruth_negated_conjoined ha hb, sameTruth_negated_disjoined ha hb⟩

/-- A part of a text, which may be negated but not joined, and lists in a list. -/
theorem evaluate_laws_values :
    (OppositeTruth (compared .notEqual "'b'".toList "'abc'".toList)
        (compared .equal "'b'".toList "'abc'".toList) ∧
      OppositeTruth (compared .notIn "'b'".toList "'abc'".toList)
        (compared .isIn "'b'".toList "'abc'".toList) ∧
      SameTruth (negated (conjoined "'b'".toList "'abc'".toList))
        (disjoined (negated "'b'".toList) (negated "'abc'".toList)) ∧
      SameTruth (negated (disjoined "'b'".toList "'abc'".toList))
        (conjoined (negated "'b'".toList) (negated "'abc'".toList))) ∧
    ∃ b, evaluate (amongText "[1]".toList ["[]".toList, "[1]".toList]) = .ok b ∧
      (["[]".toList, "[1]".toList] = [] → b = false) ∧
      (["[]".toList, "[1]".toList] ≠ [] →
        evaluate (equalsSome "[1]".toList ["[]".toList, "[1]".toList]) = .ok b) := by
  have hpart : valueOf "'b'".toList = .ok (.text "b".toList) := by decide +kernel
  have hwhole : valueOf "'abc'".toList = .ok (.text "abc".toList) := by decide +kernel
  have hx : valueOf "[1]".toList = .ok (.list [.int 1]) := by decide +kernel
  have hnil : valueOf "[]".toList = .ok (.list []) := by decide +kernel
  obtain ⟨ea, ha, -⟩ := bind_eq_ok_iff.1 hpart
  obtain ⟨eb, hb, -⟩ := bind_eq_ok_iff.1 hwhole
  refine ⟨evaluate_laws.1 _ _ ea eb ha hb, evaluate_laws.2 _ _ _ hx ?_⟩
  intro l hl
  rcases List.mem_pair.1 hl with rfl | rfl
  · exact ⟨_, hnil, rfl⟩
  · exact ⟨_, hx, rfl⟩

end ApiStencil.Condition
